import ContractCalls.Proofs.Tree.Members
import Mathlib.Data.List.Basic

/-!
# What steps write

Every step that declares something adds one declaration at the end and answers its id; the other
steps add none.  So the declarations of a program stand in the order of the steps that wrote them
(`headings_writeAll`), and the ids that were answered are those of the declarations, from zero on
and without a gap (`answers_writeAll`).

`written_in_order` says what this means for a finished tree.  The lists of members and of contracts
are in ascending order because all ids are (`pairwise_ids`), and a step that gives a body or an
initializer changes one declaration, and nothing else of it.
-/

namespace ContractCalls

/-- What stays of a declaration once it is written: what it is, its name, and the contract it is a
member of. -/
def Declaration.heading (d : Declaration) : DeclKind × String × Option DeclId :=
  (d.kind, d.name, d.scope?)

def Declaration.withBody (body : Block) : Declaration → Declaration
  | .function f => .function { f with body := some body }
  | .modifier m => .modifier { m with body := some body }
  | d => d

def Declaration.withValue (value : Expr) : Declaration → Declaration
  | .variable v => .variable { v with value := some value }
  | d => d

/-- The heading of the declaration that a step adds, if it adds one. -/
def Step.heading? : Step → Option (DeclKind × String × Option DeclId)
  | .contract name .. => some (.contract, name, none)
  | .function spec =>
    some (.function, if spec.kind = .function then spec.name else "", spec.scope)
  | .modifier spec => some (.modifier, spec.name, some spec.scope)
  | .event scope name _ => some (.event, name, scope)
  | .variable spec => some (.variable, spec.name, spec.scope)
  | .setBody .. => none
  | .setValue .. => none

/-- The contract that the declaration of a step is meant for. -/
def Step.scope? (step : Step) : Option DeclId := step.heading?.bind fun heading => heading.2.2

namespace Tree

/-- The headings of all declarations, in the order of writing. -/
def headings (t : Tree) : List (DeclKind × String × Option DeclId) :=
  t.declarations.toList.map Declaration.heading

/-- One declaration of the tree is changed, and no other. -/
structure Changes (t t' : Tree) (id : DeclId) (change : Declaration → Declaration) : Prop where
  size : t'.size = t.size
  find? : ∀ k, t'.find? k = if k = id then (t.find? k).map change else t.find? k

variable {t t' : Tree} {id : DeclId}

theorem size_eq_length_headings (t : Tree) : t.size = t.headings.length := by
  simp [headings, size]

theorem headings_push (t : Tree) (d : Declaration) :
    (t.push d).headings = t.headings ++ [d.heading] := by
  simp [headings, push]

theorem headings_replace {d d' : Declaration} (hd : t.find? id = some d)
    (hsame : d'.heading = d.heading) : (t.replace id d').headings = t.headings := by
  obtain ⟨n, hn, hget⟩ := Option.bind_eq_some_iff.1 hd
  obtain ⟨hlt, rfl⟩ := Array.getElem?_eq_some_iff.1 hget
  have hn' : n < t.headings.length := by rwa [← size_eq_length_headings]
  have hhead : t.declarations[n].heading = t.headings[n] := by simp [headings]
  rw [replace, hn, headings, Array.toList_setIfInBounds, List.map_set, hsame, hhead]
  exact List.set_getElem_self hn'

theorem changes_replace {d d' : Declaration} {change : Declaration → Declaration}
    (hd : t.find? id = some d) (hd' : change d = d') : t.Changes (t.replace id d') id change where
  size := size_replace t id _
  find? := by
    intro k
    rw [find?_replace]
    by_cases hk : k = id
    · subst hk
      rw [if_pos ⟨rfl, declares_of_find? hd⟩, if_pos rfl, hd, Option.map_some, hd']
    · rw [if_neg fun hand => hk hand.1.symm, if_neg hk]

/-! ### Ascending ids -/

theorem pairwise_ids (t : Tree) : t.ids.Pairwise (·.val < ·.val) := by
  rw [ids, List.pairwise_map]
  refine List.pairwise_lt_range.imp fun h => ?_
  exact Int.ofNat_lt.2 h

theorem WellFormed.id_of_getElem? (h : t.WellFormed) {n : Nat} {d : Declaration}
    (hd : t.declarations[n]? = some d) : d.id = .ofNat n := by
  have hfind : t.find? (.ofNat n) = some d := hd
  exact h.id_of_find? hfind

/-- No id is listed in vain: the contracts have the ids that are listed, in this order. -/
theorem WellFormed.map_id_contracts (h : t.WellFormed) :
    t.contracts.map Contract.id = t.contractIds.toList := by
  have hid : ∀ id ∈ t.contractIds.toList,
      (t.contract? id).map Contract.id = some id := by
    intro id hid
    obtain ⟨c, hc⟩ := Option.isSome_iff_exists.1 (h.mem_contractIds.1 hid)
    rw [hc, Option.map_some, show c.id = id from h.id_of_find? (contract?_eq_some.1 hc)]
  rw [contracts, List.map_filterMap, List.filterMap_congr hid, List.filterMap_some]

theorem WellFormed.pairwise_contracts (h : t.WellFormed) :
    (t.contracts.map Contract.id).Pairwise (·.val < ·.val) := by
  rw [h.map_id_contracts, h.listed]
  exact t.pairwise_ids.filter _

theorem WellFormed.pairwise_members (h : t.WellFormed) {c : Contract} (hc : t.contract? id = some c)
    (kind : DeclKind) : (c.members kind).Pairwise (·.val < ·.val) := by
  rw [h.members id c.members kind (by rw [members?, hc]; rfl), membersOf]
  exact t.pairwise_ids.filter _

end Tree

namespace Draft

variable {d : Draft}

/-! ### Steps -/

theorem headings_attach (s : DeclId) {change : Contract → Contract}
    (hname : ∀ c, (change c).name = c.name) :
    (d.attach s change).tree.headings = d.tree.headings := by
  unfold attach
  split
  · rfl
  next c hc =>
    refine Tree.headings_replace (Tree.contract?_eq_some.1 hc) ?_
    simp [Declaration.heading, Declaration.kind, Declaration.name, Declaration.scope?, hname]

theorem headings_attachTo_push (scope : Option DeclId) {change : Contract → Contract}
    (declaration : Declaration) (hname : ∀ c, (change c).name = c.name) :
    ((d.attachTo scope change).push declaration).tree.headings =
      d.tree.headings ++ [declaration.heading] := by
  rw [push, Tree.headings_push]
  cases scope with
  | none => rfl
  | some s => rw [attachTo, headings_attach s hname]

theorem headings_setBody (id : DeclId) (body : Block) :
    (d.setBody id body).tree.headings = d.tree.headings := by
  unfold setBody
  split
  · rfl
  next f hf => exact Tree.headings_replace hf rfl
  next m hm => exact Tree.headings_replace hm rfl
  · rfl

theorem headings_setValue (id : DeclId) (value : Expr) :
    (d.setValue id value).tree.headings = d.tree.headings := by
  unfold setValue
  split
  · rfl
  next v hv => exact Tree.headings_replace hv rfl
  · rfl

/-- **One step** adds what it declares at the end, and nothing else. -/
theorem headings_write (d : Draft) (step : Step) :
    (d.write step).1.tree.headings = d.tree.headings ++ step.heading?.toList := by
  cases step with
  | contract name kind isAbstract bases => exact Tree.headings_push _ _
  | function spec => exact headings_attachTo_push spec.scope _ fun _ => rfl
  | modifier spec => exact headings_attachTo_push (some spec.scope) _ fun _ => rfl
  | event scope name params => exact headings_attachTo_push scope _ fun _ => rfl
  | «variable» spec => exact headings_attachTo_push spec.scope _ fun _ => rfl
  | setBody id body => rw [write, headings_setBody, Step.heading?, Option.toList, List.append_nil]
  | setValue id value =>
    rw [write, headings_setValue, Step.heading?, Option.toList, List.append_nil]

theorem answer_write (d : Draft) (step : Step) :
    (d.write step).2 = step.heading?.map fun _ => d.nextId := by
  cases step <;> rfl

theorem writeAll_append (d : Draft) (first second : List Step) :
    (d.writeAll (first ++ second)).1 = ((d.writeAll first).1.writeAll second).1 := by
  induction first generalizing d with
  | nil => rfl
  | cons step first ih => exact ih (d.write step).1

/-- **All steps** add what they declare, in their order. -/
theorem headings_writeAll (d : Draft) (steps : List Step) :
    (d.writeAll steps).1.tree.headings = d.tree.headings ++ steps.filterMap Step.heading? := by
  induction steps generalizing d with
  | nil => exact (List.append_nil _).symm
  | cons step rest ih =>
    refine (ih (d.write step).1).trans ?_
    rw [headings_write, List.append_assoc, List.filterMap_cons]
    cases step.heading? <;> rfl

theorem answers_writeAll (d : Draft) (steps : List Step) : (d.writeAll steps).2.filterMap id =
    (List.range' d.tree.size (steps.filterMap Step.heading?).length).map .ofNat := by
  induction steps generalizing d with
  | nil => rfl
  | cons step rest ih =>
    show ((d.write step).2 :: ((d.write step).1.writeAll rest).2).filterMap id = _
    have hsize : (d.write step).1.tree.size = d.tree.size + step.heading?.toList.length := by
      rw [Tree.size_eq_length_headings, headings_write, List.length_append,
        ← Tree.size_eq_length_headings]
    rw [List.filterMap_cons, ih, answer_write, hsize, List.filterMap_cons]
    cases step.heading? with
    | none => rfl
    | some heading => rfl

/-! ### Bodies and initializers -/

/-- **Giving a body** changes the callable that is named, and of it the body alone. -/
theorem changes_setBody {id : DeclId} {body : Block} (hok : (d.setBody id body).error = none) :
    (d.tree.callable? id).isSome = true ∧
      d.tree.Changes (d.setBody id body).tree id (Declaration.withBody body) := by
  unfold setBody at hok ⊢
  split at hok
  · exact absurd hok (error_fail d _)
  next f hf =>
    exact ⟨by simp [Tree.callable?, hf, Declaration.callable?], Tree.changes_replace hf rfl⟩
  next m hm =>
    exact ⟨by simp [Tree.callable?, hm, Declaration.callable?], Tree.changes_replace hm rfl⟩
  · exact absurd hok (error_fail d _)

/-- **Giving an initializer** changes the variable that is named, and of it the initializer alone. -/
theorem changes_setValue {id : DeclId} {value : Expr}
    (hok : (d.setValue id value).error = none) :
    (d.tree.var? id).isSome = true ∧
      d.tree.Changes (d.setValue id value).tree id (Declaration.withValue value) := by
  unfold setValue at hok ⊢
  split at hok
  · exact absurd hok (error_fail d _)
  next v hv =>
    exact ⟨by simp [Tree.var?, hv, Declaration.var?], Tree.changes_replace hv rfl⟩
  · exact absurd hok (error_fail d _)

end Draft

namespace Tree

/-! ### Finished trees -/

theorem headings_linearize {t t' : Tree} (h : t.linearize = .ok t') : t'.headings = t.headings := by
  obtain ⟨known, rfl⟩ := eq_map_of_linearize h
  rw [headings, Array.toList_map, List.map_map, headings]
  refine List.map_congr_left fun d _ => ?_
  cases d <;> rfl

/-- The tree is as these steps have written it. -/
structure WrittenBy (t : Tree) (steps : List Step) : Prop where
  /-- Finishing has given the contracts their orders, and changed nothing else. -/
  finished : ∃ known, ∀ k,
    t.find? k = ((Draft.writeAll {} steps).1.tree.find? k).map (ordered known)
  /-- Every declaration stands in the place that its id names. -/
  place : ∀ (n : Nat) (d : Declaration), t.declarations[n]? = some d → d.id = .ofNat n
  /-- The steps have answered the ids of the tree, one after the other. -/
  answers : (Draft.writeAll {} steps).2.filterMap id = t.ids
  /-- What a step declares stands in the place that the step has answered. -/
  headings : t.headings = steps.filterMap Step.heading?
  contracts : ∀ c, c ∈ t.contracts ↔ t.contract? c.id = some c
  contracts_ascending : (t.contracts.map Contract.id).Pairwise (·.val < ·.val)
  /-- A contract lists what was declared in it, by kinds. -/
  members : ∀ s c, t.contract? s = some c → ∀ kind k,
    k ∈ c.members kind ↔ ∃ d, t.find? k = some d ∧ d.kind = kind ∧ d.scope? = some s
  members_ascending : ∀ s c, t.contract? s = some c → ∀ kind,
    (c.members kind).Pairwise (·.val < ·.val)
  scopes : ∀ k d s, t.find? k = some d → d.scope? = some s → (t.contract? s).isSome = true
  /-- What was declared outside of contracts is in no list. -/
  free : ∀ k d, t.find? k = some d → d.scope? = none → ∀ c ∈ t.contracts, ∀ kind,
    k ∉ c.members kind
  /-- A step that gives a body has changed the body of one callable, and nothing else. -/
  bodies : ∀ before k body after, steps = before ++ .setBody k body :: after →
    ((Draft.writeAll {} before).1.tree.callable? k).isSome = true ∧
      (Draft.writeAll {} before).1.tree.Changes
        (Draft.writeAll {} (before ++ [.setBody k body])).1.tree k (Declaration.withBody body)
  /-- A step that gives an initializer has changed that of one variable, and nothing else. -/
  values : ∀ before k value after, steps = before ++ .setValue k value :: after →
    ((Draft.writeAll {} before).1.tree.var? k).isSome = true ∧
      (Draft.writeAll {} before).1.tree.Changes
        (Draft.writeAll {} (before ++ [.setValue k value])).1.tree k (Declaration.withValue value)

end Tree

namespace Draft

theorem error_of_write {d : Draft} {before after : List Step} {step : Step}
    (hok : (d.writeAll (before ++ step :: after)).1.error = none) :
    ((d.writeAll before).1.write step).1.error = none ∧
      (d.writeAll (before ++ [step])).1 = ((d.writeAll before).1.write step).1 := by
  rw [writeAll_append] at hok ⊢
  exact ⟨error_of_writeAll (d := ((d.writeAll before).1.write step).1) hok, rfl⟩

end Draft

/-! ### A notebook

Two contracts, one of them with a member that is written last, and declarations outside of both. -/

namespace Notebook

def steps : List Step :=
  [ .contract "Notebook" .contract false [],
    .event (some ⟨0⟩) "Opened" [],
    .event none "Closed" [],
    .function ⟨some ⟨0⟩, "open", .function, none, false, [], [], [], .absent⟩,
    .variable ⟨none, "PAGES", "uint256", false, true, false, [], none⟩,
    .contract "Cover" .contract false [⟨⟨0⟩, []⟩],
    .setBody ⟨3⟩ [.emit (.eventCall "Opened" ⟨1⟩ [])],
    .function ⟨some ⟨0⟩, "turn", .function, none, false, [], [], [], .usual⟩,
    .setValue ⟨4⟩ (.literal {} "96") ]

def tree : Tree := (Tree.ofSteps steps).toOption.getD {}

theorem ofSteps_steps : Tree.ofSteps steps = .ok tree := eq_ok_of_isOk (by cbv) _

end Notebook

namespace Tree

/-- **Trees are as their steps have written them.** -/
theorem written_in_order {steps : List Step} {t : Tree} (h : ofSteps steps = .ok t) :
    t.WrittenBy steps := by
  have hwell := wellFormed_of_ofSteps h
  obtain ⟨herror, hlinearize⟩ := finish_of_ofSteps h
  have hheadings : t.headings = steps.filterMap Step.heading? := by
    rw [headings_linearize hlinearize, Draft.headings_writeAll]
    rfl
  have hmembers : ∀ s c, t.contract? s = some c → ∀ kind k, k ∈ c.members kind ↔
      ∃ d, t.find? k = some d ∧ d.kind = kind ∧ d.scope? = some s :=
    fun s c hc kind k => hwell.mem_members kind hc
  refine ⟨?_, fun n d => hwell.id_of_getElem?, ?_, hheadings, fun c => hwell.mem_contracts_iff,
    hwell.pairwise_contracts, hmembers, fun s c => hwell.pairwise_members, ?_, ?_, ?_, ?_⟩
  · exact find?_of_linearize hlinearize
  · rw [Draft.answers_writeAll, ← hheadings, ← size_eq_length_headings, ids, List.range_eq_range']
    rfl
  · intro k d s hd hs
    have hprofile : t.profile? k = some d.profile := by rw [profile?, hd, Option.map_some]
    have hscope := hwell.scope k d.profile s hprofile hs
    rwa [members?, Option.isSome_map] at hscope
  · intro k d hd hfree c hc kind hk
    obtain ⟨d', hd', _, hs⟩ := (hmembers c.id c (hwell.mem_contracts_iff.1 hc) kind k).1 hk
    cases hd.symm.trans hd'
    rw [hfree] at hs
    cases hs
  · rintro before k body after rfl
    obtain ⟨hok, hwrite⟩ := Draft.error_of_write herror
    rw [hwrite]
    exact Draft.changes_setBody hok
  · rintro before k value after rfl
    obtain ⟨hok, hwrite⟩ := Draft.error_of_write herror
    rw [hwrite]
    exact Draft.changes_setValue hok

theorem notebook_written_in_order : Notebook.tree.WrittenBy Notebook.steps ∧
    Notebook.tree.contracts.map (fun c => c.members .function) = [[⟨3⟩, ⟨6⟩], []] ∧
    Notebook.tree.contracts.map (fun c => c.members .event) = [[⟨1⟩], []] :=
  ⟨written_in_order Notebook.ofSteps_steps, by cbv, by cbv⟩

end Tree

end ContractCalls
