import ContractCalls.Build.Basic
import ContractCalls.Proofs.Code.Findings

/-!
# The graph that findings make

A graph in the making is determined by the findings that were taken in, whatever their
order: `CallGraph.Tells g found` says how.  An edge is there because a finding brings it, or
because a pointer is called somewhere and its callee is taken as a pointer somewhere.

Taking in a finding keeps this (`Records.take`), hence so does taking in many
(`Records.takeAll`).  The steps that only add edges and entries are described by `Grows`,
which composes.
-/

namespace ContractCalls

namespace Finding

variable (found : Finding → Prop)

def HasEdge (a b : Node) : Prop := ∃ f, found f ∧ f.edge? = some (a, b)

def HasTarget (id : DeclId) : Prop := ∃ f, found f ∧ f.target? = some id

def HasPointer (id : DeclId) : Prop := ∃ f, found f ∧ f.pointer? = some id

def HasIndirect : Prop := ∃ f, found f ∧ f.isIndirect = true

/-- Calls through pointers can lead to the callable. -/
def Dispatches (id : DeclId) : Prop := HasIndirect found ∧ HasPointer found id

end Finding

namespace Finding

variable {fs gs : List Finding} {f : Finding} {a b : Node} {id : DeclId}

theorem hasEdge_append :
    HasEdge (· ∈ fs ++ gs) a b ↔ HasEdge (· ∈ fs) a b ∨ HasEdge (· ∈ gs) a b := by
  simp only [HasEdge, List.mem_append, or_and_right, exists_or]

theorem hasTarget_append :
    HasTarget (· ∈ fs ++ gs) id ↔ HasTarget (· ∈ fs) id ∨ HasTarget (· ∈ gs) id := by
  simp only [HasTarget, List.mem_append, or_and_right, exists_or]

theorem hasPointer_append :
    HasPointer (· ∈ fs ++ gs) id ↔ HasPointer (· ∈ fs) id ∨ HasPointer (· ∈ gs) id := by
  simp only [HasPointer, List.mem_append, or_and_right, exists_or]

theorem hasIndirect_append :
    HasIndirect (· ∈ fs ++ gs) ↔ HasIndirect (· ∈ fs) ∨ HasIndirect (· ∈ gs) := by
  simp only [HasIndirect, List.mem_append, or_and_right, exists_or]

theorem hasEdge_singleton : HasEdge (· ∈ [f]) a b ↔ f.edge? = some (a, b) := by
  simp [HasEdge]

theorem hasTarget_singleton : HasTarget (· ∈ [f]) id ↔ f.target? = some id := by
  simp [HasTarget]

theorem hasPointer_singleton : HasPointer (· ∈ [f]) id ↔ f.pointer? = some id := by
  simp [HasPointer]

theorem hasIndirect_singleton : HasIndirect (· ∈ [f]) ↔ f.isIndirect = true := by
  simp [HasIndirect]

theorem plain_of_not_site (h : ∀ s, f ≠ .site s) :
    f.edge? = none ∧ f.target? = none ∧ f.pointer? = none ∧ f.isIndirect = false := by
  cases f with
  | site s => exact absurd rfl (h s)
  | _ => exact ⟨rfl, rfl, rfl, rfl⟩

end Finding

open Finding

/-- The graph holds what the findings tell, and nothing else. -/
structure CallGraph.Tells (g : CallGraph) (found : Finding → Prop) : Prop where
  emitted : ∀ id, id ∈ g.emitted ↔ found (.emits id)
  created : ∀ id, id ∈ g.created ↔ found (.creates id)
  pointers : ∀ id, id ∈ g.pointers ↔ HasPointer found id
  targets : ∀ k callee, callee ∈ g.targets k ↔
    (∃ a b, HasEdge found a b ∧ a.key = k ∧ b.key = callee) ∨
      (k = Node.internalDispatchKey ∧ Dispatches found callee)
  keys : ∀ k, k ∈ g.edges ↔
    (∃ a b, HasEdge found a b ∧ a.key = k) ∨ HasTarget found k ∨ Dispatches found k ∨
      (k = Node.internalDispatchKey ∧ ∃ id, Dispatches found id)

namespace CallGraph

theorem Tells.congr {g g' : CallGraph} {found found' : Finding → Prop} (h : g.Tells found)
    (hedge : ∀ a b, HasEdge found' a b ↔ HasEdge found a b)
    (htarget : ∀ id, HasTarget found' id ↔ HasTarget found id)
    (hpointer : ∀ id, HasPointer found' id ↔ HasPointer found id)
    (hindirect : HasIndirect found' ↔ HasIndirect found)
    (hedges : g'.edges = g.edges) (hpointers : g'.pointers = g.pointers)
    (hemitted : ∀ id, id ∈ g'.emitted ↔ found' (.emits id))
    (hcreated : ∀ id, id ∈ g'.created ↔ found' (.creates id)) : g'.Tells found' where
  emitted := hemitted
  created := hcreated
  pointers := by
    intro id
    rw [hpointers, h.pointers, hpointer]
  targets := by
    intro k callee
    have := h.targets k callee
    simp only [CallGraph.targets, Dispatches, hedges, hedge, hpointer, hindirect] at this ⊢
    exact this
  keys := by
    intro k
    have := h.keys k
    simp only [Dispatches, hedges, hedge, htarget, hpointer, hindirect] at this ⊢
    exact this

theorem mem_edges_addCallable (g : CallGraph) (id k : DeclId) :
    k ∈ (g.addCallable id).edges ↔ id = k ∨ k ∈ g.edges := by
  rw [← Std.ExtTreeMap.contains_iff_mem, contains_addCallable, Bool.or_eq_true, beq_iff_eq,
    Std.ExtTreeMap.contains_iff_mem]

theorem mem_edges_addEdge (g : CallGraph) (caller callee k : DeclId) :
    k ∈ (g.addEdge caller callee).edges ↔ caller = k ∨ k ∈ g.edges := by
  rw [← Std.ExtTreeMap.contains_iff_mem, contains_addEdge, Bool.or_eq_true, beq_iff_eq,
    Std.ExtTreeMap.contains_iff_mem]

theorem mem_targets_addEdge (g : CallGraph) (caller callee k x : DeclId) :
    x ∈ (g.addEdge caller callee).targets k ↔ (caller = k ∧ callee = x) ∨ x ∈ g.targets k := by
  rw [targets_addEdge]
  by_cases h : caller = k
  · rw [if_pos h, Std.ExtTreeSet.mem_insert, Std.LawfulEqCmp.compare_eq_iff_eq]
    simp only [h, true_and]
  · rw [if_neg h]
    simp only [h, false_and, false_or]

end CallGraph

namespace Build

/-! ### Growing by edges and entries -/

/-- The second build has these edges and entries more, and is the same otherwise, but for
its queue and its journal. -/
structure Grows (b b' : Build) (edges : DeclId → DeclId → Prop) (keys : DeclId → Prop) : Prop where
  targets : ∀ k callee, callee ∈ b'.graph.targets k ↔ callee ∈ b.graph.targets k ∨ edges k callee
  keys : ∀ k, k ∈ b'.graph.edges ↔ k ∈ b.graph.edges ∨ keys k
  emitted : b'.graph.emitted = b.graph.emitted
  created : b'.graph.created = b.graph.created
  pointers : b'.graph.pointers = b.graph.pointers
  dispatching : b'.dispatching = b.dispatching
  error : b'.error = b.error

/-- Calls through pointers lead to the callable. -/
def Leads (b : Build) (id : DeclId) : Prop := b.dispatching = true ∧ id ∈ b.graph.pointers

namespace Grows

variable {b b' b'' : Build} {edges edges' : DeclId → DeclId → Prop} {keys keys' : DeclId → Prop}

theorem refl (b : Build) : Grows b b (fun _ _ => False) (fun _ => False) where
  targets := by simp
  keys := by simp
  emitted := rfl
  created := rfl
  pointers := rfl
  dispatching := rfl
  error := rfl

theorem trans (h : Grows b b' edges keys) (h' : Grows b' b'' edges' keys') :
    Grows b b'' (fun k callee => edges k callee ∨ edges' k callee)
      (fun k => keys k ∨ keys' k) where
  targets := by
    intro k callee
    rw [h'.targets, h.targets, or_assoc]
  keys := by
    intro k
    rw [h'.keys, h.keys, or_assoc]
  emitted := h'.emitted.trans h.emitted
  created := h'.created.trans h.created
  pointers := h'.pointers.trans h.pointers
  dispatching := h'.dispatching.trans h.dispatching
  error := h'.error.trans h.error

theorem congr (h : Grows b b' edges keys) (hedges : ∀ k callee, edges k callee ↔ edges' k callee)
    (hkeys : ∀ k, keys k ↔ keys' k) : Grows b b' edges' keys' where
  targets := by
    intro k callee
    rw [h.targets, hedges]
  keys := by
    intro k
    rw [h.keys, hkeys]
  emitted := h.emitted
  created := h.created
  pointers := h.pointers
  dispatching := h.dispatching
  error := h.error

theorem leads (h : Grows b b' edges keys) (id : DeclId) : b'.Leads id ↔ b.Leads id := by
  rw [Leads, Leads, h.dispatching, h.pointers]

end Grows

theorem grows_addEdge (b : Build) (caller callee : Node) :
    Grows b (b.addEdge caller callee) (fun k x => caller.key = k ∧ callee.key = x)
      (fun k => caller.key = k) where
  targets := by
    intro k x
    rw [or_comm]
    exact b.graph.mem_targets_addEdge _ _ _ _
  keys := by
    intro k
    rw [or_comm]
    exact b.graph.mem_edges_addEdge _ _ _
  emitted := rfl
  created := rfl
  pointers := rfl
  dispatching := rfl
  error := rfl

theorem grows_enqueue (b : Build) (id : DeclId) :
    Grows b (b.enqueue id) (fun _ _ => False) (fun k => id = k) := by
  unfold enqueue
  split
  next hid =>
    refine ⟨by simp, fun k => ?_, rfl, rfl, rfl, rfl, rfl⟩
    constructor
    · exact .inl
    · intro hor
      rcases hor with h | rfl
      · exact h
      · exact hid
  next hid =>
    refine ⟨fun k x => ?_, fun k => ?_, rfl, rfl, rfl, rfl, rfl⟩
    · rw [or_false, note, CallGraph.targets_addCallable]
    · rw [or_comm]
      exact b.graph.mem_edges_addCallable id k

theorem grows_dispatchTo (b : Build) (id : DeclId) :
    Grows b (b.dispatchTo id) (fun k x => k = Node.internalDispatchKey ∧ x = id)
      (fun k => k = id ∨ k = Node.internalDispatchKey) := by
  refine ((grows_addEdge b _ _).trans (grows_enqueue _ id)).congr (fun k x => ?_) fun k => ?_
  · rw [or_false, eq_comm, eq_comm (a := x)]
    rfl
  · rw [or_comm, eq_comm, eq_comm (b := Node.internalDispatchKey)]
    rfl

theorem grows_dispatchAll (b : Build) (ids : List DeclId) :
    Grows b (b.dispatchAll ids) (fun k x => k = Node.internalDispatchKey ∧ x ∈ ids)
      (fun k => k ∈ ids ∨ (k = Node.internalDispatchKey ∧ ∃ id, id ∈ ids)) := by
  induction ids generalizing b with
  | nil => exact (Grows.refl b).congr (by simp) (by simp)
  | cons id ids ih =>
    refine ((grows_dispatchTo b id).trans (ih _)).congr (fun k x => ?_) fun k => ?_
    · rw [List.mem_cons, and_or_left]
    · have hsome : ∃ x, x ∈ id :: ids := ⟨id, List.mem_cons_self⟩
      rw [List.mem_cons]
      tauto

/-- What a call site other than the taking of a pointer adds, apart from the pointers it may
release. -/
theorem grows_link (b : Build) (s : CallSite) :
    Grows b ((b.addEdge? s.edge?).enqueue? s.target.callable?)
      (fun k x => ∃ caller callee, s.edge? = some (caller, callee) ∧ caller.key = k ∧
        callee.key = x)
      (fun k => (∃ caller callee, s.edge? = some (caller, callee) ∧ caller.key = k) ∨
        s.target.callable? = some k) := by
  have hedge : Grows b (b.addEdge? s.edge?)
      (fun k x => ∃ caller callee, s.edge? = some (caller, callee) ∧ caller.key = k ∧
        callee.key = x)
      (fun k => ∃ caller callee, s.edge? = some (caller, callee) ∧ caller.key = k) := by
    cases s.edge? with
    | none => exact (Grows.refl b).congr (by simp) (by simp)
    | some e =>
      exact (grows_addEdge b e.1 e.2).congr (by simp [Prod.ext_iff]) (by simp [Prod.ext_iff])
  have hqueue : Grows (b.addEdge? s.edge?) ((b.addEdge? s.edge?).enqueue? s.target.callable?)
      (fun _ _ => False) (fun k => s.target.callable? = some k) := by
    cases s.target.callable? with
    | none => exact (Grows.refl _).congr (by simp) (by simp)
    | some id => exact (grows_enqueue _ id).congr (by simp) (by simp)
  exact (hedge.trans hqueue).congr (by simp) (by simp)

/-- What the first call through a pointer releases. -/
theorem grows_release (b : Build) :
    Grows { b with dispatching := true } b.release
      (fun k x => k = Node.internalDispatchKey ∧ x ∈ b.graph.pointers)
      (fun k => k ∈ b.graph.pointers ∨
        (k = Node.internalDispatchKey ∧ ∃ id, id ∈ b.graph.pointers)) := by
  have h := grows_dispatchAll
    ({ b with dispatching := true }.note (.release b.graph.pointers.toList.length))
    b.graph.pointers.toList
  simp only [Std.ExtTreeSet.mem_toList] at h
  exact ⟨h.targets, h.keys, h.emitted, h.created, h.pointers, h.dispatching, h.error⟩

theorem record_cases (b : Build) (s : CallSite) :
    (∃ id, s.kind = .reference ∧ s.target.callable? = some id ∧ b.record s = b.takePointer id) ∨
      (s.kind = .reference ∧ s.target.callable? = none ∧ b.record s = b) ∨
      (s.kind ≠ .reference ∧ b.record s = b.link s) := by
  unfold record
  split
  next id hkind hid => exact .inl ⟨id, hkind, hid, rfl⟩
  next hkind hid => exact .inr (.inl ⟨hkind, hid, rfl⟩)
  next hsome hnone =>
    refine .inr (.inr ⟨fun hkind => ?_, rfl⟩)
    cases hid : s.target.callable? with
    | none => exact hnone hkind hid
    | some id => exact hsome id hkind hid

/-! ### Findings that were taken in -/

/-- The build has taken in these findings, none of which was an error. -/
structure Records (b : Build) (fs : List Finding) : Prop where
  graph : b.graph.Tells (· ∈ fs)
  dispatching : b.dispatching = true ↔ HasIndirect (· ∈ fs)
  error : b.error = none
  sound : ∀ e, .error e ∉ fs

namespace Records

variable {b : Build} {fs : List Finding}

theorem empty (phase : Phase) (c : Contract) :
    Records { graph := { contract := c.id, name := c.name }, journal := #[.start phase c.name] }
      [] where
  graph := by
    constructor <;> simp [HasEdge, HasTarget, HasPointer, Dispatches, CallGraph.targets]
  dispatching := by simp [HasIndirect]
  error := rfl
  sound := by simp

/-- What only the queue, the journal or the current node notices changes no record. -/
theorem of_eq {b' : Build} (h : Records b fs) (hgraph : b'.graph = b.graph)
    (hdispatching : b'.dispatching = b.dispatching) (herror : b'.error = b.error) :
    Records b' fs where
  graph := by
    rw [hgraph]
    exact h.graph
  dispatching := by
    rw [hdispatching]
    exact h.dispatching
  error := by
    rw [herror]
    exact h.error
  sound := h.sound

theorem leads_iff (h : Records b fs) (x : DeclId) : b.Leads x ↔ Dispatches (· ∈ fs) x := by
  rw [Leads, h.dispatching, h.graph.pointers, Dispatches]

/-- What has to be checked of a step that takes in a call site: apart from the edge and the entries
of the call site, what is new is what calls through pointers did not lead to before. -/
theorem concat {b' : Build} {s : CallSite} (new : DeclId → Prop) (h : Records b fs)
    (hemitted : b'.graph.emitted = b.graph.emitted) (hcreated : b'.graph.created = b.graph.created)
    (herror : b'.error = b.error)
    (hpointers : ∀ id, id ∈ b'.graph.pointers ↔
      id ∈ b.graph.pointers ∨ (Finding.site s).pointer? = some id)
    (hdispatching : b'.dispatching = true ↔
      b.dispatching = true ∨ (Finding.site s).isIndirect = true)
    (hleads : ∀ x, b'.Leads x ↔ b.Leads x ∨ new x)
    (htargets : ∀ k x, x ∈ b'.graph.targets k ↔ (x ∈ b.graph.targets k ∨
      ∃ caller callee, (Finding.site s).edge? = some (caller, callee) ∧
        caller.key = k ∧ callee.key = x) ∨
      (k = Node.internalDispatchKey ∧ new x))
    (hkeys : ∀ k, k ∈ b'.graph.edges ↔ (k ∈ b.graph.edges ∨
      (∃ caller callee, (Finding.site s).edge? = some (caller, callee) ∧ caller.key = k) ∨
      (Finding.site s).target? = some k) ∨
      new k ∨ (k = Node.internalDispatchKey ∧ ∃ x, new x)) :
    Records b' (fs ++ [.site s]) := by
  have hindirect : HasIndirect (· ∈ fs ++ [.site s]) ↔ b'.dispatching = true := by
    rw [hasIndirect_append, hasIndirect_singleton, ← h.dispatching, hdispatching]
  have hpointer : ∀ id, HasPointer (· ∈ fs ++ [.site s]) id ↔ id ∈ b'.graph.pointers := by
    intro id
    rw [hasPointer_append, hasPointer_singleton, ← h.graph.pointers, hpointers]
  have hdispatches : ∀ x, Dispatches (· ∈ fs ++ [.site s]) x ↔
      Dispatches (· ∈ fs) x ∨ new x := by
    intro x
    rw [← h.leads_iff, ← hleads, Dispatches, hindirect, hpointer, Leads]
  refine ⟨⟨fun id => ?_, fun id => ?_, fun id => (hpointer id).symm, fun k x => ?_, fun k => ?_⟩,
    hindirect.symm, herror.trans h.error, fun e he => ?_⟩
  · rw [hemitted, h.graph.emitted]
    simp
  · rw [hcreated, h.graph.created]
    simp
  · rw [htargets, h.graph.targets, hdispatches]
    simp only [hasEdge_append, hasEdge_singleton, or_and_right, exists_or, and_or_left]
    exact (or_congr_left or_right_comm).trans or_assoc
  · rw [hkeys, h.graph.keys, hdispatches]
    simp only [hasEdge_append, hasEdge_singleton, hasTarget_append, hasTarget_singleton,
      hdispatches, or_and_right, exists_or, and_or_left]
    simp only [or_assoc, or_left_comm]
  · rcases List.mem_append.1 he with he | he
    · exact h.sound e he
    · cases List.mem_singleton.1 he

theorem takePointer {s : CallSite} {id : DeclId} (h : Records b fs) (hkind : s.kind = .reference)
    (hid : s.target.callable? = some id) : Records (b.takePointer id) (fs ++ [.site s]) := by
  have hedge : (Finding.site s).edge? = none := by simp [Finding.edge?, hkind]
  have htarget : (Finding.site s).target? = none := by simp [Finding.target?, hkind]
  have hpointer : (Finding.site s).pointer? = some id := by simp [Finding.pointer?, hkind, hid]
  have hindirect : (Finding.site s).isIndirect = false := by simp [Finding.isIndirect, hkind]
  have hpointers : ∀ x, x ∈ (b.addPointer id).graph.pointers ↔
      x ∈ b.graph.pointers ∨ (Finding.site s).pointer? = some x := by
    intro x
    rw [hpointer, Option.some.injEq, or_comm]
    exact Std.ExtTreeSet.mem_insert.trans (or_congr_left Std.LawfulEqCmp.compare_eq_iff_eq)
  unfold Build.takePointer
  cases hdispatching : b.dispatching with
  | false =>
    -- No pointer is called, so calls through pointers lead nowhere, before and after.
    rw [if_neg Bool.false_ne_true]
    refine h.concat (fun _ => False) rfl rfl rfl hpointers ?_ ?_ ?_ ?_
    · simp [addPointer, hindirect]
    · simp [Leads, addPointer, hdispatching]
    · simp [addPointer, hedge, CallGraph.targets]
    · simp [addPointer, hedge, htarget]
  | true =>
    have hgrows := grows_dispatchTo (b.addPointer id) id
    rw [if_pos rfl]
    refine h.concat (· = id) hgrows.emitted hgrows.created hgrows.error (fun x => ?_) ?_
      (fun x => ?_) (fun k x => ?_) fun k => ?_
    · rw [hgrows.pointers, hpointers]
    · rw [hgrows.dispatching]
      simp [addPointer, hindirect]
    · rw [hgrows.leads, Leads, hpointers, hpointer, Leads]
      simp [addPointer, hdispatching, eq_comm]
    · rw [hgrows.targets, hedge]
      simp [addPointer, CallGraph.targets]
    · rw [hgrows.keys, hedge, htarget]
      simp [addPointer]

theorem link {s : CallSite} (h : Records b fs) (hkind : s.kind ≠ .reference) :
    Records (b.link s) (fs ++ [.site s]) := by
  have hedge : (Finding.site s).edge? = s.edge? := by simp [Finding.edge?, hkind]
  have htarget : (Finding.site s).target? = s.target.callable? := by simp [Finding.target?, hkind]
  have hpointer : (Finding.site s).pointer? = none := by simp [Finding.pointer?, hkind]
  have hindirect : (Finding.site s).isIndirect = true ↔ s.kind = .indirect := by
    simp [Finding.isIndirect]
  have hgrows := grows_link b s
  simp only [Build.link]
  split
  next hrelease =>
    -- The first call through a pointer: it leads to all pointers known, and none did before.
    have hbefore : b.dispatching = false := hgrows.dispatching.symm.trans hrelease.2
    have hreleased := grows_release ((b.addEdge? s.edge?).enqueue? s.target.callable?)
    refine h.concat (· ∈ b.graph.pointers) (hreleased.emitted.trans hgrows.emitted)
      (hreleased.created.trans hgrows.created) (hreleased.error.trans hgrows.error)
      (fun id => ?_) ?_ (fun x => ?_) (fun k x => ?_) fun k => ?_
    · rw [hreleased.pointers, hgrows.pointers, hpointer]
      simp
    · rw [hreleased.dispatching, hindirect]
      simp [hrelease.1]
    · rw [hreleased.leads]
      simp [Leads, hbefore, hgrows.pointers]
    · rw [hreleased.targets, hgrows.targets, hgrows.pointers, hedge]
    · rw [hreleased.keys, hgrows.keys, hgrows.pointers, hedge, htarget]
  next hrelease =>
    have hcalled : s.kind = .indirect → b.dispatching = true := by
      intro hkind'
      rw [not_and, hgrows.dispatching] at hrelease
      exact eq_true_of_ne_false (hrelease hkind')
    refine h.concat (fun _ => False) hgrows.emitted hgrows.created hgrows.error (fun id => ?_) ?_
      (fun x => ?_) (fun k x => ?_) fun k => ?_
    · rw [hgrows.pointers, hpointer]
      simp
    · rw [hgrows.dispatching, hindirect]
      exact (or_iff_left_of_imp hcalled).symm
    · rw [hgrows.leads, or_false]
    · rw [hgrows.targets, hedge]
      simp
    · rw [hgrows.keys, hedge, htarget]
      simp

theorem record {s : CallSite} (h : Records b fs) : Records (b.record s) (fs ++ [.site s]) := by
  rcases b.record_cases s with ⟨id, hkind, hid, heq⟩ | ⟨hkind, hid, heq⟩ | ⟨hkind, heq⟩
  · rw [heq]
    exact h.takePointer hkind hid
  · -- A reference to what is no callable leaves the build as it is.
    rw [heq]
    refine h.concat (fun _ => False) rfl rfl rfl ?_ ?_ ?_ ?_ ?_
    · simp [Finding.pointer?, hkind, hid]
    · simp [Finding.isIndirect, hkind]
    · simp
    · simp [Finding.edge?, hkind]
    · simp [Finding.edge?, Finding.target?, hkind]
  · rw [heq]
    exact h.link hkind

/-- A finding that is no call site changes what is emitted or created, and nothing else that
`Records` speaks of. -/
theorem concat_of_not_site {b' : Build} {f : Finding} (h : Records b fs) (hsite : ∀ s, f ≠ .site s)
    (hfail : ∀ e, f ≠ .error e) (hedges : b'.graph.edges = b.graph.edges)
    (hpointers : b'.graph.pointers = b.graph.pointers)
    (hdispatching : b'.dispatching = b.dispatching) (herror : b'.error = b.error)
    (hemitted : ∀ id, id ∈ b'.graph.emitted ↔ id ∈ b.graph.emitted ∨ Finding.emits id = f)
    (hcreated : ∀ id, id ∈ b'.graph.created ↔ id ∈ b.graph.created ∨ Finding.creates id = f) :
    Records b' (fs ++ [f]) := by
  obtain ⟨hedge, htarget, hpointer, hindirect⟩ := Finding.plain_of_not_site hsite
  have hcalled : HasIndirect (· ∈ fs ++ [f]) ↔ HasIndirect (· ∈ fs) := by
    rw [hasIndirect_append, hasIndirect_singleton, hindirect]
    simp
  refine ⟨h.graph.congr (fun a b => ?_) (fun id => ?_) (fun id => ?_) hcalled hedges hpointers
    (fun id => ?_) fun id => ?_, ?_, herror.trans h.error, fun e he => ?_⟩
  · rw [hasEdge_append, hasEdge_singleton, hedge]
    simp
  · rw [hasTarget_append, hasTarget_singleton, htarget]
    simp
  · rw [hasPointer_append, hasPointer_singleton, hpointer]
    simp
  · rw [hemitted, h.graph.emitted, List.mem_append, List.mem_singleton]
  · rw [hcreated, h.graph.created, List.mem_append, List.mem_singleton]
  · rw [hdispatching, hcalled]
    exact h.dispatching
  · rcases List.mem_append.1 he with he | he
    · exact h.sound e he
    · exact hfail e (List.mem_singleton.1 he).symm

theorem emits (h : Records b fs) (event : DeclId) :
    Records (b.addEmitted event) (fs ++ [.emits event]) := by
  refine h.concat_of_not_site (by simp) (by simp) rfl rfl rfl rfl (fun id => ?_)
    (by simp [addEmitted])
  rw [Finding.emits.injEq, or_comm, eq_comm]
  exact Std.ExtTreeSet.mem_insert.trans (or_congr_left Std.LawfulEqCmp.compare_eq_iff_eq)

theorem creates (h : Records b fs) (contract : DeclId) :
    Records (b.addCreated contract) (fs ++ [.creates contract]) := by
  refine h.concat_of_not_site (by simp) (by simp) rfl rfl rfl rfl (by simp [addCreated])
    fun id => ?_
  rw [Finding.creates.injEq, or_comm, eq_comm]
  exact Std.ExtTreeSet.mem_insert.trans (or_congr_left Std.LawfulEqCmp.compare_eq_iff_eq)

theorem take {f : Finding} (h : Records b fs) (hok : (b.take f).error = none) :
    Records (b.take f) (fs ++ [f]) := by
  have htake : b.take f = b.apply f := by
    rw [Build.take, if_neg]
    rw [h.error]
    simp
  rw [htake] at hok ⊢
  cases f with
  | site s => exact h.record
  | emits event => exact h.emits event
  | creates contract => exact h.creates contract
  | error e => cases hok

end Records

theorem take_of_error {b : Build} (h : b.error ≠ none) (f : Finding) : b.take f = b := by
  rw [take, if_pos (Option.isSome_iff_ne_none.2 h)]

theorem takeAll_of_error {b : Build} (h : b.error ≠ none) (fs : List Finding) :
    b.takeAll fs = b := by
  induction fs with
  | nil => rfl
  | cons f fs ih =>
    rw [takeAll, List.foldl_cons, take_of_error h]
    exact ih

theorem error_of_takeAll (b : Build) (fs : List Finding) (h : (b.takeAll fs).error = none) :
    b.error = none := by
  by_contra hb
  rw [takeAll_of_error hb] at h
  exact hb h

/-- What a build has taken in without failing has no failures. -/
theorem sound_of_takeAll {b : Build} {fs : List Finding} (h : (b.takeAll fs).error = none)
    (e : Failure) : .error e ∉ fs := by
  induction fs generalizing b with
  | nil => simp
  | cons f fs ih =>
    have hf : (b.take f).error = none := error_of_takeAll (b.take f) fs h
    rw [List.mem_cons, not_or]
    refine ⟨?_, ih h⟩
    rintro rfl
    unfold take at hf
    split at hf
    next hfailed => simp [hf] at hfailed
    · cases hf

theorem Records.takeAll {b : Build} {fs : List Finding} (h : Records b fs) (gs : List Finding)
    (hok : (b.takeAll gs).error = none) : Records (b.takeAll gs) (fs ++ gs) := by
  induction gs generalizing b fs with
  | nil =>
    rw [List.append_nil]
    exact h
  | cons g gs ih =>
    have hg : Records (b.take g) (fs ++ [g]) := h.take (error_of_takeAll (b.take g) gs hok)
    rw [List.append_cons]
    exact ih hg hok

end Build

end ContractCalls
