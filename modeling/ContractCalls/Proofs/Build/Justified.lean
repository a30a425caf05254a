import ContractCalls.Proofs.Build.Finished

/-!
# Reasons for what a build does

Whatever a build does, a finding is the reason: for each edge and each callable queued that it
notes, for each callable that waits in its queue, and for the error that ends it.  `Justified` says
so of a build in any state, also of one that has failed, and for any findings that it may have come
upon.

It is kept by each act (`Justified.act`), hence by taking findings in (`Justified.takeAll`), and
by reading the queue: what is read was queued for a reason, and so its code was to be found
(`Justified.drain`).
-/

namespace ContractCalls

open Finding

namespace Build

/-- All that the build has done, it has done because of what was found. -/
structure Justified (found : Finding → Prop) (b : Build) : Prop where
  edges : ∀ caller callee, .edge caller callee ∈ b.journal → HasEdge found caller callee ∨
    caller = .internalDispatch ∧ ∃ id, callee = .callable id ∧ Dispatches found id
  queued : ∀ id, .queue id ∈ b.journal → Queued found id
  waiting : ∀ id ∈ b.queue, Queued found id
  pointers : ∀ id ∈ b.graph.pointers, HasPointer found id
  dispatching : b.dispatching = true → HasIndirect found
  error : ∀ e, b.error = some e → found (.error e)

namespace Justified

variable {found : Finding → Prop} {b : Build} {r : Resolver}

theorem begin_ (phase : Phase) (c : Contract) : Justified found (begin phase c) := by
  constructor <;> simp [begin]

theorem note (h : Justified found b) (entry : Entry)
    (hedge : ∀ caller callee, entry ≠ .edge caller callee) (hqueue : ∀ id, entry ≠ .queue id) :
    Justified found (b.note entry) where
  edges := by
    intro caller callee hmem
    rcases Array.mem_push.1 hmem with hmem | rfl
    · exact h.edges caller callee hmem
    · exact absurd rfl (hedge caller callee)
  queued := by
    intro id hmem
    rcases Array.mem_push.1 hmem with hmem | rfl
    · exact h.queued id hmem
    · exact absurd rfl (hqueue id)
  waiting := h.waiting
  pointers := h.pointers
  dispatching := h.dispatching
  error := h.error

theorem moveTo (h : Justified found b) (n : Node) : Justified found (b.moveTo n) :=
  ⟨h.edges, h.queued, h.waiting, h.pointers, h.dispatching, h.error⟩

theorem addEdge (h : Justified found b) {caller callee : Node}
    (hedge : HasEdge found caller callee ∨
      caller = .internalDispatch ∧ ∃ id, callee = .callable id ∧ Dispatches found id) :
    Justified found (b.addEdge caller callee) where
  edges := by
    intro caller' callee' hmem
    rcases Array.mem_push.1 hmem with hmem | hnew
    · exact h.edges caller' callee' hmem
    · cases hnew
      exact hedge
  queued := by
    intro id hmem
    rcases Array.mem_push.1 hmem with hmem | hnew
    · exact h.queued id hmem
    · cases hnew
  waiting := h.waiting
  pointers := h.pointers
  dispatching := h.dispatching
  error := h.error

theorem enqueue (h : Justified found b) {id : DeclId} (hid : Queued found id) :
    Justified found (b.enqueue id) := by
  unfold Build.enqueue
  split
  · exact h
  · refine ⟨fun caller callee hmem => ?_, fun k hmem => ?_, fun k hk => ?_, h.pointers,
      h.dispatching, h.error⟩
    · rcases Array.mem_push.1 hmem with hmem | hnew
      · exact h.edges caller callee hmem
      · cases hnew
    · rcases Array.mem_push.1 hmem with hmem | hnew
      · exact h.queued k hmem
      · cases hnew
        exact hid
    · rcases List.mem_append.1 hk with hk | hk
      · exact h.waiting k hk
      · rw [List.mem_singleton.1 hk]
        exact hid

/-- **The finding is the reason** for what is done with it. -/
theorem act {f : Finding} {b' : Build} (hf : found f) (hact : Act f b b')
    (h : Justified found b) : Justified found b' := by
  cases hact with
  | edge hedge => exact h.addEdge (.inl ⟨f, hf, hedge⟩)
  | queue htarget => exact h.enqueue (.inl ⟨f, hf, htarget⟩)
  | pointer hpointer =>
    refine ⟨h.edges, h.queued, h.waiting, fun k hk => ?_, h.dispatching, h.error⟩
    rcases Std.ExtTreeSet.mem_insert.1 hk with heq | hk
    · rw [← Std.LawfulEqOrd.eq_of_compare heq]
      exact ⟨f, hf, hpointer⟩
    · exact h.pointers k hk
  | release hindirect _ =>
    have hreleased : Justified found { b with dispatching := true } :=
      ⟨h.edges, h.queued, h.waiting, h.pointers, fun _ => ⟨f, hf, hindirect⟩, h.error⟩
    exact hreleased.note _ (by simp) (by simp)
  | dispatch hdispatching hpointer =>
    have hdispatches := And.intro (h.dispatching hdispatching) (h.pointers _ hpointer)
    exact (h.addEdge (.inr ⟨rfl, _, rfl, hdispatches⟩)).enqueue (.inr hdispatches)
  | emits => exact ⟨h.edges, h.queued, h.waiting, h.pointers, h.dispatching, h.error⟩
  | creates => exact ⟨h.edges, h.queued, h.waiting, h.pointers, h.dispatching, h.error⟩
  | fails herror =>
    refine ⟨h.edges, h.queued, h.waiting, h.pointers, h.dispatching, fun e he => ?_⟩
    rw [← Option.some.inj he, ← herror]
    exact hf

theorem takeAll (h : Justified found b) {fs : List Finding} (hfs : ∀ f ∈ fs, found f) :
    Justified found (b.takeAll fs) :=
  takeAll_keeps (fun f hf _ _ hact hb => hb.act (hfs f hf) hact) h

theorem start (h : Justified found b) {id : DeclId} {rest : List DeclId}
    (hq : b.queue = id :: rest) : Justified found (b.start id rest) := by
  have hrest : ∀ k ∈ rest, Queued found k := by
    intro k hk
    exact h.waiting k (by simp [hq, hk])
  have hmoved : Justified found ({ b with queue := rest }.moveTo (.callable id)) :=
    ⟨h.edges, h.queued, hrest, h.pointers, h.dispatching, h.error⟩
  exact hmoved.note _ (by simp) (by simp)

/-- **What is read was to be found**, as long as all that is queued leads to its code. -/
theorem drain (h : Justified found b) (hclosed : ∀ id, Queued found id → ∀ f ∈ r.code id, found f) :
    Justified found (b.drain r) := by
  refine drain_keeps (fun b id rest _ hq hb => ?_) (fun b hb => hb.moveTo .entry) h
  have hid : Queued found id := hb.waiting id (by simp [hq])
  exact (hb.start hq).takeAll (hclosed id hid)

theorem finishQueue (h : Justified found b)
    (hclosed : ∀ id, Queued found id → ∀ f ∈ r.code id, found f) :
    Justified found (b.finishQueue r) := by
  unfold Build.finishQueue
  split
  · exact h
  · exact (h.note _ (by simp) (by simp)).drain hclosed

end Justified

/-! ### Whole builds -/

variable {r : Resolver}

/-- What a creation does has a reason in what it finds. -/
theorem justified_creation (r : Resolver) :
    Justified (r.Found r.creationSeeds fun _ => False) (creation r) := by
  have hseeds : Justified (r.Found r.creationSeeds fun _ => False)
      ((begin .creation r.contract).takeAll r.creationSeeds) :=
    (Justified.begin_ _ _).takeAll fun f hf => .seed hf
  rw [creation_eq]
  exact (hseeds.moveTo .entry).finishQueue fun id hid f hf => .of_queued hid hf

theorem justified_uncarried (r : Resolver) (carried : DeclId → Prop) :
    Justified (r.Found (entrySites r) carried) (uncarried r) := by
  have hseeds : Justified (r.Found (entrySites r) carried)
      ((begin .deployment r.contract).takeAll (entrySites r)) :=
    (Justified.begin_ _ _).takeAll fun f hf => .seed hf
  exact hseeds.finishQueue fun id hid f hf => .of_queued hid hf

/-- What a deployment does has a reason in what it finds, the carried pointers included. -/
theorem justified_deployment (hfits : r.Fits) (pointers : IdSet) (config : Config) :
    Justified (r.Found (entrySites r) (Carried pointers config)) (deployment r pointers config) := by
  have huncarried := justified_uncarried r (Carried pointers config)
  rw [deployment_eq]
  split
  next hcarries =>
    obtain ⟨hok, hconfig, hreach⟩ := carries_iff.1 hcarries
    obtain ⟨more, read, hstage, _⟩ := stage_uncarried (Carried pointers config) hok
    obtain ⟨i, hi, hind⟩ :=
      (hstage.isDispatchReachable_iff (Resolver.starts_entrySites hfits)).1 hreach
    have hsites : ∀ f ∈ pointers.toList.map carriedSite,
        r.Found (entrySites r) (Carried pointers config) f := by
      intro f hf
      obtain ⟨id, hid, rfl⟩ := List.mem_map.1 hf
      exact .carried (hstage.sound i hi) hind ⟨hconfig, Std.ExtTreeSet.mem_toList.1 hid⟩
    have hcarried := (huncarried.note (.carry pointers.size r.contract.name)
      (by simp) (by simp)).takeAll hsites
    exact hcarried.finishQueue fun id hid f hf => .of_queued hid hf
  · exact huncarried

end Build

end ContractCalls
