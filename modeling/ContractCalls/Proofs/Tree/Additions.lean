import ContractCalls.Proofs.Inheritance.Refusals
import ContractCalls.Proofs.Tree.Written

/-!
# Additions to a program

More steps can be written after a program.  A step is `Unrelated` to the program if it adds no
member to one of its contracts and changes none of its declarations.  Such steps leave every
declaration in its place, with all that it consists of: `within_of_unrelated`.

That is no surprise while steps are written (`within_write`), but the orders of the contracts are
found anew, in a program where other contracts may inherit from the old ones.  A contract gets the
same order again because all that it inherits from was there before.
-/

namespace ContractCalls

namespace Step

/-- The declaration to which a step gives a body or an initializer. -/
def given? : Step → Option DeclId
  | .setBody id _ => some id
  | .setValue id _ => some id
  | _ => none

/-- The step adds no member to a contract of the tree, and changes no declaration of it. -/
structure Unrelated (t : Tree) (step : Step) : Prop where
  scope : ∀ s, step.scope? = some s → t.contract? s = none
  given : ∀ id, step.given? = some id → t.declares id = false

instance (t : Tree) (step : Step) : Decidable (step.Unrelated t) :=
  decidable_of_iff
    ((step.scope?.all fun s => (t.contract? s).isNone) = true ∧
      (step.given?.all fun id => !t.declares id) = true) <| by
    simp only [Option.all_eq_true, Option.isNone_iff_eq_none, Bool.not_eq_true']
    exact ⟨fun h => ⟨h.1, h.2⟩, fun h => ⟨h.scope, h.given⟩⟩

end Step

namespace Tree

/-- All declarations of the one tree are found in the other, just as they are. -/
def Within (t t' : Tree) : Prop := ∀ id d, t.find? id = some d → t'.find? id = some d

variable {t t' : Tree} {id : DeclId}

theorem Within.find?_eq (h : t.Within t') (hid : t.declares id = true) :
    t'.find? id = t.find? id := by
  obtain ⟨d, hd⟩ := Option.isSome_iff_exists.1 hid
  rw [hd, h id d hd]

theorem Within.bind_eq_some {α : Type} (h : t.Within t') {view : Declaration → Option α} {a : α}
    (ha : (t.find? id).bind view = some a) : (t'.find? id).bind view = some a := by
  obtain ⟨d, hd, hview⟩ := Option.bind_eq_some_iff.1 ha
  exact Option.bind_eq_some_iff.2 ⟨d, h id d hd, hview⟩

theorem Within.push (h : t.Within t') (d : Declaration) : t.Within (t'.push d) := by
  intro k old hk
  have hold := h k old hk
  rw [find?_push, if_neg (ne_size_of_declares (declares_of_find? hold)), hold]

theorem Within.replace (h : t.Within t') (hid : t.declares id = false) (d : Declaration) :
    t.Within (t'.replace id d) := by
  intro k old hk
  have hne : id ≠ k := by
    rintro rfl
    rw [declares_of_find? hk] at hid
    cases hid
  rw [find?_replace, if_neg fun hand => hne hand.1, h k old hk]

end Tree

namespace Draft

variable {t : Tree} {d : Draft}

/-! ### Steps -/

theorem within_attach (h : t.Within d.tree) {s : DeclId} {change : Contract → Contract}
    (hs : t.contract? s = none) (hok : (d.attach s change).error = none) :
    t.Within (d.attach s change).tree := by
  obtain ⟨c, hc, hattach⟩ := attach_of_ok hok
  rw [hattach]
  refine h.replace (eq_false_of_ne_true fun hdeclared => ?_) _
  have hcontract : t.find? s = some (.contract c) := by rw [← h.find?_eq hdeclared, hc]
  rw [Tree.contract?_eq_some.2 hcontract] at hs
  cases hs

theorem within_attachTo (h : t.Within d.tree) {scope : Option DeclId} {change : Contract → Contract}
    (hscope : ∀ s, scope = some s → t.contract? s = none)
    (hok : (d.attachTo scope change).error = none) : t.Within (d.attachTo scope change).tree := by
  cases scope with
  | none => exact h
  | some s => exact within_attach h (hscope s rfl) hok

theorem within_setBody (h : t.Within d.tree) {id : DeclId} (hid : t.declares id = false)
    (body : Block) : t.Within (d.setBody id body).tree := by
  unfold setBody
  split
  · exact h
  · exact h.replace hid _
  · exact h.replace hid _
  · exact h

theorem within_setValue (h : t.Within d.tree) {id : DeclId} (hid : t.declares id = false)
    (value : Expr) : t.Within (d.setValue id value).tree := by
  unfold setValue
  split
  · exact h
  · exact h.replace hid _
  · exact h

/-- **One unrelated step** leaves the declarations of the tree alone. -/
theorem within_write (h : t.Within d.tree) {step : Step} (hstep : step.Unrelated t)
    (hok : (d.write step).1.error = none) : t.Within (d.write step).1.tree := by
  cases step with
  | contract name kind isAbstract bases => exact h.push _
  | function spec => exact (within_attachTo h hstep.scope hok).push _
  | modifier spec => exact (within_attach h (hstep.scope spec.scope rfl) hok).push _
  | event scope name params => exact (within_attachTo h hstep.scope hok).push _
  | «variable» spec => exact (within_attachTo h hstep.scope hok).push _
  | setBody id body => exact within_setBody h (hstep.given id rfl) body
  | setValue id value => exact within_setValue h (hstep.given id rfl) value

theorem within_writeAll (h : t.Within d.tree) {steps : List Step}
    (hsteps : ∀ step ∈ steps, step.Unrelated t) (hok : (d.writeAll steps).1.error = none) :
    t.Within (d.writeAll steps).1.tree := by
  induction steps generalizing d with
  | nil => exact h
  | cons step rest ih =>
    have hstep : (d.write step).1.error = none := error_of_writeAll (d := (d.write step).1) hok
    have hwritten := within_write h (hsteps step List.mem_cons_self) hstep
    exact ih hwritten (fun step hstep => hsteps step (List.mem_cons_of_mem _ hstep)) hok

end Draft

namespace Tree

variable {t t' u u' : Tree} {steps more : List Step}

/-! ### Orders -/

theorem bases?_of_linearize (h : u.linearize = .ok t) (id : DeclId) :
    t.bases? id = u.bases? id := by
  obtain ⟨known, rfl⟩ := eq_map_of_linearize h
  exact bases?_map_ordered u known id

theorem unrelated_of_linearize (h : u.linearize = .ok t) {step : Step} (hstep : step.Unrelated t) :
    step.Unrelated u where
  scope := by
    intro s hs
    have hbases : u.bases? s = none := by
      rw [← bases?_of_linearize h s, bases?, hstep.scope s hs]
      rfl
    exact Option.map_eq_none_iff.1 hbases
  given := by
    intro id hid
    obtain ⟨known, hfind⟩ := find?_of_linearize h
    have hfalse := hstep.given id hid
    rwa [declares, hfind, Option.isSome_map] at hfalse

/-- A contract that has an order has the same one among more contracts. -/
theorem hasOrder_of_bases? {id : DeclId} {order : List DeclId} (h : t.HasOrder id order)
    (hbases : ∀ b bases, t.bases? b = some bases → t'.bases? b = some bases) :
    t'.HasOrder id order := by
  induction h with
  | intro order hid _ hmerge ih => exact .intro order (hbases _ _ hid) ih hmerge

/-- **Orders stay** when declarations are added. -/
theorem Within.linearize (h : u.Within u') (hu : u.linearize = .ok t) (hu' : u'.linearize = .ok t')
    (ht : t.Linearized) (ht' : t'.Linearized) : t.Within t' := by
  obtain ⟨known, hfind⟩ := find?_of_linearize hu
  obtain ⟨known', hfind'⟩ := find?_of_linearize hu'
  intro id d hd
  rw [hfind] at hd
  obtain ⟨old, hold, rfl⟩ := Option.map_eq_some_iff.1 hd
  rw [hfind', h id old hold, Option.map_some]
  cases old with
  | contract c =>
    have hc : t.contract? id = some { c with linearized := known[c.id]?.getD [] } := by
      rw [contract?_eq_some, hfind, hold]
      rfl
    have hc' : t'.contract? id = some { c with linearized := known'[c.id]?.getD [] } := by
      rw [contract?_eq_some, hfind', h id _ hold]
      rfl
    have horder : t'.HasOrder id (known[c.id]?.getD []) := by
      refine hasOrder_of_bases? (ht id _ hc) fun b bases hb => ?_
      rw [bases?_of_linearize hu] at hb
      rw [bases?_of_linearize hu']
      obtain ⟨base, hbase, rfl⟩ := bases?_eq_some.1 hb
      exact bases?_eq_some.2 ⟨base, h.bind_eq_some hbase, rfl⟩
    have hsame : known[c.id]?.getD [] = known'[c.id]?.getD [] := horder.unique (ht' id _ hc')
    rw [ordered, ordered, hsame]
  | _ => rfl

/-- **Unrelated steps** leave the declarations of a finished tree alone. -/
theorem within_of_unrelated (ht : ofSteps steps = .ok t) (ht' : ofSteps (steps ++ more) = .ok t')
    (hmore : ∀ step ∈ more, step.Unrelated t) : t.Within t' := by
  obtain ⟨_, hfinish⟩ := finish_of_ofSteps ht
  obtain ⟨herror, hfinish'⟩ := finish_of_ofSteps ht'
  rw [Draft.writeAll_append] at herror hfinish'
  have hwritten := Draft.within_writeAll (fun _ _ hd => hd)
    (fun step hstep => unrelated_of_linearize hfinish (hmore step hstep)) herror
  exact hwritten.linearize hfinish hfinish' (hasOrder_of_ofSteps ht) (hasOrder_of_ofSteps ht')

end Tree
end ContractCalls
