import ContractCalls.Proofs.Build.Records
import Mathlib.Logic.Relation

/-!
# What a build does with a finding

Taking in a finding is doing some of a few things, one after the other: `Act` is one of them, with
what the finding and the build have to be like for it.  All that a build does with a finding is made
of acts (`take_acts`), so a property that acts keep is kept when findings are taken in
(`takeAll_keeps`).
-/

namespace ContractCalls

namespace Build

/-- One thing that a build does when it takes in the finding `f`. -/
inductive Act (f : Finding) : Build → Build → Prop where
  | edge {b : Build} {caller callee : Node} : f.edge? = some (caller, callee) →
      Act f b (b.addEdge caller callee)
  | queue {b : Build} {id : DeclId} : f.target? = some id → Act f b (b.enqueue id)
  | pointer {b : Build} {id : DeclId} : f.pointer? = some id → Act f b (b.addPointer id)
  | release {b : Build} : f.isIndirect = true → b.dispatching = false →
      Act f b ({ b with dispatching := true }.note (.release b.graph.pointers.toList.length))
  /-- Pointers are called, so the call can lead to one that is known. -/
  | dispatch {b : Build} {id : DeclId} : b.dispatching = true → id ∈ b.graph.pointers →
      Act f b (b.dispatchTo id)
  | emits {b : Build} {id : DeclId} : f = .emits id → Act f b (b.addEmitted id)
  | creates {b : Build} {id : DeclId} : f = .creates id → Act f b (b.addCreated id)
  | fails {b : Build} {e : Failure} : f = .error e → Act f b (b.fail e)

/-- The build does these things one after the other. -/
def Acts (f : Finding) : Build → Build → Prop := Relation.ReflTransGen (Act f)

variable {f : Finding} {b : Build}

/-! ### The parts of taking in -/

theorem dispatchAll_acts {ids : List DeclId} (hdispatching : b.dispatching = true)
    (hids : ∀ id ∈ ids, id ∈ b.graph.pointers) : Acts f b (b.dispatchAll ids) := by
  induction ids generalizing b with
  | nil => exact .refl
  | cons id ids ih =>
    have hgrows := grows_dispatchTo b id
    refine .head (.dispatch hdispatching (hids id List.mem_cons_self)) (ih ?_ fun k hk => ?_)
    · rw [hgrows.dispatching, hdispatching]
    · rw [hgrows.pointers]
      exact hids k (List.mem_cons_of_mem id hk)

theorem takePointer_acts {id : DeclId} (h : f.pointer? = some id) :
    Acts f b (b.takePointer id) := by
  unfold takePointer
  split
  next hdispatching =>
    have hknown : id ∈ (b.addPointer id).graph.pointers := Std.ExtTreeSet.mem_insert_self
    exact .tail (.single (.pointer h)) (.dispatch hdispatching hknown)
  · exact .single (.pointer h)

theorem release_acts (h : f.isIndirect = true) (hdispatching : b.dispatching = false) :
    Acts f b b.release :=
  .head (.release h hdispatching)
    (dispatchAll_acts rfl fun _ hid => Std.ExtTreeSet.mem_toList.1 hid)

theorem link_acts {s : CallSite} (hkind : s.kind ≠ .reference) :
    Acts (.site s) b (b.link s) := by
  have hedge : Acts (.site s) b (b.addEdge? s.edge?) := by
    cases he : s.edge? with
    | none => exact .refl
    | some e => exact .single (.edge (by rw [Finding.edge?, if_neg hkind, he]))
  have hqueue : ∀ b : Build, Acts (.site s) b (b.enqueue? s.target.callable?) := by
    intro b
    cases hid : s.target.callable? with
    | none => exact .refl
    | some id => exact .single (.queue (by rw [Finding.target?, if_neg hkind, hid]))
  simp only [link]
  split
  next hrelease =>
    have hindirect : (Finding.site s).isIndirect = true := by simp [Finding.isIndirect, hrelease.1]
    exact (hedge.trans (hqueue _)).trans (release_acts hindirect hrelease.2)
  · exact hedge.trans (hqueue _)

/-- **All that a build does** with a finding is made of acts. -/
theorem take_acts (b : Build) (f : Finding) : Acts f b (b.take f) := by
  unfold take
  split
  · exact .refl
  · cases f with
    | site s =>
      rw [apply]
      rcases b.record_cases s with ⟨id, hkind, hid, heq⟩ | ⟨_, _, heq⟩ | ⟨hkind, heq⟩
      · rw [heq]
        exact takePointer_acts (by rw [Finding.pointer?, if_pos hkind, hid])
      · rw [heq]
        exact .refl
      · rw [heq]
        exact link_acts hkind
    | emits event => exact .single (.emits rfl)
    | creates contract => exact .single (.creates rfl)
    | error e => exact .single (.fails rfl)

theorem Act.mem_edges {b' : Build} (h : Act f b b') {k : DeclId} (hk : k ∈ b.graph.edges) :
    k ∈ b'.graph.edges := by
  cases h with
  | edge => exact ((grows_addEdge b _ _).keys k).2 (.inl hk)
  | queue => exact ((grows_enqueue b _).keys k).2 (.inl hk)
  | dispatch => exact ((grows_dispatchTo b _).keys k).2 (.inl hk)
  | _ => exact hk

/-! ### What acts keep -/

variable {p : Build → Prop}

theorem take_keeps (hact : ∀ b b', Act f b b' → p b → p b') (h : p b) : p (b.take f) := by
  have hkeeps : ∀ b', Acts f b b' → p b' := by
    intro b' hacts
    induction hacts with
    | refl => exact h
    | tail _ hstep ih => exact hact _ _ hstep ih
  exact hkeeps _ (b.take_acts f)

theorem takeAll_keeps {fs : List Finding} (hact : ∀ f ∈ fs, ∀ b b', Act f b b' → p b → p b')
    (h : p b) : p (b.takeAll fs) := by
  induction fs generalizing b with
  | nil => exact h
  | cons f fs ih =>
    exact ih (fun g hg => hact g (List.mem_cons_of_mem f hg))
      (take_keeps (hact f List.mem_cons_self) h)

/-- What ends a build is among what it was taking in. -/
theorem error_mem_of_takeAll {fs : List Finding} {e : Failure} (hok : b.error = none)
    (he : (b.takeAll fs).error = some e) : .error e ∈ fs := by
  refine takeAll_keeps (p := fun b => ∀ e, b.error = some e → .error e ∈ fs)
    (fun f hf b b' hact hb => ?_) (by simp [hok]) e he
  cases hact with
  | fails hfails =>
    intro e he
    rwa [← Option.some.inj he, ← hfails]
  | queue =>
    rw [(grows_enqueue b _).error]
    exact hb
  | dispatch =>
    rw [(grows_dispatchTo b _).error]
    exact hb
  | _ => exact hb

end Build

end ContractCalls
