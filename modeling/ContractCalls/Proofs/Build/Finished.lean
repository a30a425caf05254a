import ContractCalls.Proofs.Build.Run

/-!
# Finished builds

A build whose queue is empty is `Finished` if it has taken in its seeds, the pointers that are
carried, and everything that they lead to.  Builds that succeed are finished
(`finished_creation`, `finished_deployment`).

Two things follow.  Every node of the graph can be reached from the outside (`Finished.path`):
the findings come in an order in which the caller of each edge was queued before, and what
is queued is the callee of an edge.  And the graph is the one that its findings make
(`Finished.tells`), so that edges can be told from the text of the program.
-/

namespace ContractCalls

open Finding

namespace CallGraph

variable {g : CallGraph} {fs : List Finding}

theorem Tells.mem_targets {found : Finding → Prop} (h : g.Tells found) {f : Finding} (hf : found f)
    {a b : Node} (hedge : f.edge? = some (a, b)) : b.key ∈ g.targets a.key :=
  (h.targets _ _).2 (.inl ⟨a, b, ⟨f, hf, hedge⟩, rfl, rfl⟩)

theorem Tells.mem_targets_dispatch {found : Finding → Prop} (h : g.Tells found) {id : DeclId}
    (hid : Dispatches found id) : id ∈ g.targets Node.internalDispatchKey :=
  (h.targets _ _).2 (.inr ⟨rfl, hid⟩)

theorem Tells.of_not_error {found found' : Finding → Prop} (h : g.Tells found)
    (hsame : ∀ f, (∀ e, f ≠ .error e) → (found' f ↔ found f)) : g.Tells found' := by
  have hsome : ∀ {α : Type} (view : Finding → Option α) (a : α), (∀ e, view (.error e) = none) →
      ((∃ f, found' f ∧ view f = some a) ↔ ∃ f, found f ∧ view f = some a) := by
    intro α view a hview
    refine exists_congr fun f => and_congr_left fun hf => hsame f ?_
    rintro e rfl
    rw [hview] at hf
    cases hf
  have hindirect : HasIndirect found' ↔ HasIndirect found := by
    refine exists_congr fun f => and_congr_left fun hf => hsame f ?_
    rintro e rfl
    cases hf
  refine h.congr (fun a b => hsome _ _ fun _ => rfl) (fun id => hsome _ _ fun _ => rfl)
    (fun id => hsome _ _ fun _ => rfl) hindirect rfl rfl (fun id => ?_) fun id => ?_
  · rw [h.emitted, hsame _ (by simp)]
  · rw [h.created, hsame _ (by simp)]

theorem Tells.path_edge (h : g.Tells (· ∈ fs)) (hanchored : AnchoredAt (· = Node.entryKey) fs)
    (hregular : ∀ f ∈ fs, f.Regular) {f : Finding} (hf : f ∈ fs) {a b : Node}
    (hedge : f.edge? = some (a, b)) :
    g.Path Node.entryKey a.key ∧ g.Path Node.entryKey b.key := by
  obtain ⟨before, after, hsplit⟩ := List.append_of_mem hf
  -- The findings before brought the caller into the graph.
  induction hn : before.length using Nat.strongRecOn generalizing f a b before after with
  | _ n ih =>
    have hearlier : ∀ (f' : Finding) (a' b' : Node), f' ∈ before → f'.edge? = some (a', b') →
        g.Path Node.entryKey b'.key := by
      intro f' a' b' hf' hedge'
      obtain ⟨first, rest, hbefore⟩ := List.append_of_mem hf'
      have hlt : first.length < n := by
        rw [← hn, hbefore, List.length_append, List.length_cons]
        omega
      have hfs : fs = first ++ f' :: (rest ++ f :: after) := by
        rw [hsplit, hbefore, List.append_assoc, List.cons_append]
      exact (ih first.length hlt (hfs ▸ by simp) hedge' first _ hfs rfl).2
    have hbefore : ∀ f' ∈ before, f' ∈ fs := by
      intro f' hf'
      rw [hsplit]
      exact List.mem_append_left _ hf'
    have hcaller : g.Path Node.entryKey a.key := by
      rcases hanchored before f after hsplit a b hedge with hroot | hqueued
      · rw [hroot]
        exact .refl _
      · rcases hqueued with ⟨f', hf', htarget⟩ | ⟨⟨i, hi, hind⟩, ⟨p, hp, hpointer⟩⟩
        · obtain ⟨a', hedge'⟩ := (hregular f' (hbefore f' hf')).target _ htarget
          exact hearlier f' a' (.callable a.key) hf' hedge'
        · obtain ⟨a', hedge'⟩ := (hregular i (hbefore i hi)).indirect hind
          refine (hearlier i a' .internalDispatch hi hedge').tail (h.mem_targets_dispatch ?_)
          exact ⟨⟨i, hbefore i hi, hind⟩, ⟨p, hbefore p hp, hpointer⟩⟩
    exact ⟨hcaller, hcaller.tail (h.mem_targets hf hedge)⟩

theorem Tells.path_dispatch (h : g.Tells (· ∈ fs)) (hanchored : AnchoredAt (· = Node.entryKey) fs)
    (hregular : ∀ f ∈ fs, f.Regular) (hind : HasIndirect (· ∈ fs)) :
    g.Path Node.entryKey Node.internalDispatchKey := by
  obtain ⟨f, hf, hindirect⟩ := hind
  obtain ⟨a, hedge⟩ := (hregular f hf).indirect hindirect
  exact (h.path_edge hanchored hregular hf hedge).2

/-- **Everything in the graph is reached** from the outside. -/
theorem Tells.path (h : g.Tells (· ∈ fs)) (hanchored : AnchoredAt (· = Node.entryKey) fs)
    (hregular : ∀ f ∈ fs, f.Regular) {k : DeclId} (hk : k ∈ g.nodeKeys) :
    g.Path Node.entryKey k := by
  have hedges : ∀ k, k ∈ g.edges → g.Path Node.entryKey k := by
    intro k hk
    rcases (h.keys k).1 hk with
      ⟨a, b, ⟨f, hf, hedge⟩, rfl⟩ | ⟨f, hf, htarget⟩ | hdispatch | ⟨rfl, id, hdispatch⟩
    · exact (h.path_edge hanchored hregular hf hedge).1
    · obtain ⟨a, hedge⟩ := (hregular f hf).target k htarget
      exact (h.path_edge hanchored hregular hf hedge).2
    · exact (h.path_dispatch hanchored hregular hdispatch.1).tail (h.mem_targets_dispatch hdispatch)
    · exact h.path_dispatch hanchored hregular hdispatch.1
  rcases mem_nodeKeys.1 hk with rfl | hk | ⟨caller, hk⟩
  · exact .refl _
  · exact hedges k hk
  · exact (hedges caller (mem_edges_of_mem_targets hk)).tail hk

end CallGraph

namespace Build

variable {r : Resolver} {b : Build} {seeds : List Finding} {carried : DeclId → Prop}

/-- The build has come to its end with an empty queue. -/
def Finished (r : Resolver) (seeds : List Finding) (carried : DeclId → Prop) (b : Build) : Prop :=
  ∃ fs read, Stage r (r.Found seeds carried) b fs read ∧ b.queue = [] ∧ seeds ⊆ fs ∧
    (HasIndirect (· ∈ fs) → ∀ id, carried id → carriedSite id ∈ fs)

theorem error_of_finishQueue (h : (b.finishQueue r).error = none) : b.error = none := by
  unfold finishQueue at h
  split at h
  · exact h
  next hnone => exact Option.not_isSome_iff_eq_none.1 hnone

theorem Stage.finishQueue_eq {found : Finding → Prop} {fs : List Finding} {read : List DeclId}
    (h : Stage r found b fs read) (r' : Resolver) :
    b.finishQueue r' = (b.note (.drain b.current)).drain r' := by
  rw [Build.finishQueue, if_neg (by simp [h.records.error])]

theorem Stage.finishQueue {fs : List Finding} {read : List DeclId}
    (h : Stage r (r.Found seeds carried) b fs read) (hok : (b.finishQueue r).error = none) :
    ∃ more read', Stage r (r.Found seeds carried) (b.finishQueue r) (fs ++ more) read' ∧
      (b.finishQueue r).queue = [] := by
  rw [h.finishQueue_eq] at hok ⊢
  exact (h.noted _).drain (fun id hid f hf => .of_queued hid hf) hok

theorem stage_seeded (carried : DeclId → Prop) {phase : Phase} {c : Contract} {n : Node}
    (hanchored : AnchoredAt (· = Node.entryKey) seeds)
    (hok : ((((begin phase c).takeAll seeds).moveTo n).finishQueue r).error = none) :
    Stage r (r.Found seeds carried) (((begin phase c).takeAll seeds).moveTo n) seeds [] := by
  have hstart : Stage r (r.Found seeds carried) (begin phase c) [] [] := .begin_ phase c
  have hseeds : ((begin phase c).takeAll seeds).error = none :=
    error_of_finishQueue (b := ((begin phase c).takeAll seeds).moveTo n) hok
  have htaken := hstart.takeAll _ seeds hseeds hanchored (fun k hk => .inl hk) fun f hf => .seed hf
  exact htaken.of_eq rfl rfl rfl rfl

theorem stage_of_seeds (carried : DeclId → Prop) {phase : Phase} {c : Contract} {n : Node}
    (hanchored : AnchoredAt (· = Node.entryKey) seeds)
    (hok : ((((begin phase c).takeAll seeds).moveTo n).finishQueue r).error = none) :
    ∃ more read, Stage r (r.Found seeds carried)
        ((((begin phase c).takeAll seeds).moveTo n).finishQueue r) (seeds ++ more) read ∧
      ((((begin phase c).takeAll seeds).moveTo n).finishQueue r).queue = [] :=
  (stage_seeded carried hanchored hok).finishQueue hok

/-- **The build of a creation graph**, if it succeeds. -/
theorem finished_creation (hok : (creation r).error = none) :
    Finished r r.creationSeeds (fun _ => False) (creation r) := by
  rw [creation_eq] at hok ⊢
  obtain ⟨more, read, hstage, hqueue⟩ :=
    stage_of_seeds (fun _ => False) Resolver.anchoredAt_creationSeeds hok
  exact ⟨_, read, hstage, hqueue, List.subset_append_left _ _, fun _ _ hid => hid.elim⟩

/-! ### Carried pointers -/

theorem Stage.isDispatchReachable_iff {fs : List Finding} {read : List DeclId}
    (h : Stage r (r.Found seeds carried) b fs read) (hstarts : r.Starts seeds) :
    b.graph.isDispatchReachable = true ↔ HasIndirect (· ∈ fs) := by
  rw [CallGraph.isDispatchReachable_iff]
  constructor
  · intro hpath
    obtain hsame | ⟨k, _, hk⟩ := Relation.ReflTransGen.cases_tail hpath
    · cases hsame
    · rcases (h.records.graph.targets _ _).1 hk with
        ⟨a, c, ⟨f, hf, hedge⟩, _, hkey⟩ | ⟨_, hdispatch⟩
      · have hcallee := ((h.sound f hf).regular hstarts).callee a c hedge
        cases c with
        | callable id =>
          -- No callable has the key of the calls through pointers.
          exact absurd hkey ((h.sound f hf).plain_target hstarts hcallee.2.1).2
        | entry => exact absurd rfl hcallee.1
        | internalDispatch => exact ⟨f, hf, hcallee.2.2 rfl⟩
      · exact hdispatch.1
  · exact h.records.graph.path_dispatch h.anchored fun f hf => (h.sound f hf).regular hstarts

/-- The pointers that are handed on, if there is a call that they can be meant for. -/
def Carried (pointers : IdSet) (config : Config) (id : DeclId) : Prop :=
  config.carryPointers = true ∧ id ∈ pointers

def uncarried (r : Resolver) : Build :=
  ((begin .deployment r.contract).takeAll (entrySites r)).finishQueue r

theorem deployment_eq (r : Resolver) (pointers : IdSet) (config : Config) :
    deployment r pointers config =
      if (uncarried r).carries config then (uncarried r).carry r pointers else uncarried r :=
  rfl

theorem uncarried_eq (r : Resolver) : uncarried r =
    (((begin .deployment r.contract).takeAll (entrySites r)).moveTo .entry).finishQueue r := by
  rw [← takeAll_moveTo]
  rfl

theorem stage_uncarried (carried : DeclId → Prop) (hok : (uncarried r).error = none) :
    ∃ more read,
      Stage r (r.Found (entrySites r) carried) (uncarried r) (entrySites r ++ more) read ∧
        (uncarried r).queue = [] := by
  rw [uncarried_eq] at hok ⊢
  exact stage_of_seeds carried (Resolver.anchoredAt_entrySites _) hok

/-- Handing on a pointer adds no edge, unless pointers are called. -/
theorem anchoredAt_carriedSites {root : DeclId → Prop} (pointers : IdSet) :
    AnchoredAt root (pointers.toList.map carriedSite) := by
  refine .of_forall fun f hf a c hedge => ?_
  obtain ⟨id, _, rfl⟩ := List.mem_map.1 hf
  cases hedge

/-- Pointers are handed on between two readings of the queue. -/
theorem Stage.takeCarried {found : Finding → Prop} {fs : List Finding} {read : List DeclId}
    (h : Stage r found b fs read) {pointers : IdSet}
    (hok : (b.takeAll (pointers.toList.map carriedSite)).error = none)
    (hfound : ∀ id ∈ pointers, found (carriedSite id)) :
    Stage r found (b.takeAll (pointers.toList.map carriedSite))
      (fs ++ pointers.toList.map carriedSite) read := by
  refine h.takeAll (fun _ => False) _ hok (anchoredAt_carriedSites pointers)
    (fun _ hk => hk.elim) fun f hf => ?_
  obtain ⟨id, hid, rfl⟩ := List.mem_map.1 hf
  exact hfound id (Std.ExtTreeSet.mem_toList.1 hid)

theorem carries_iff {config : Config} : b.carries config = true ↔
    b.error = none ∧ config.carryPointers = true ∧ b.graph.isDispatchReachable = true := by
  simp only [carries, Bool.and_eq_true, Option.isNone_iff_eq_none, and_assoc]

/-- **The build of a deployment graph**, if it succeeds. -/
theorem finished_deployment (hfits : r.Fits) {pointers : IdSet} {config : Config}
    (hok : (deployment r pointers config).error = none) :
    Finished r (entrySites r) (Carried pointers config) (deployment r pointers config) := by
  rw [deployment_eq] at hok ⊢
  cases hcarries : (uncarried r).carries config with
  | false =>
    rw [hcarries, if_neg Bool.false_ne_true] at hok
    rw [if_neg Bool.false_ne_true]
    obtain ⟨more, read, hstage, hqueue⟩ := stage_uncarried (Carried pointers config) hok
    refine ⟨_, read, hstage, hqueue, List.subset_append_left _ _, fun hind id hid => ?_⟩
    have hreach := (hstage.isDispatchReachable_iff (Resolver.starts_entrySites hfits)).2 hind
    simp [carries, hok, hreach, hid.1] at hcarries
  | true =>
    rw [hcarries, if_pos rfl] at hok
    rw [if_pos rfl]
    obtain ⟨herror, hconfig, hreach⟩ := carries_iff.1 hcarries
    obtain ⟨more, read, hstage, hqueue⟩ :=
      stage_uncarried (Carried pointers config) herror
    obtain ⟨i, hi, hind⟩ :=
      (hstage.isDispatchReachable_iff (Resolver.starts_entrySites hfits)).1 hreach
    have htaken := (hstage.noted (.carry pointers.size r.contract.name)).takeCarried
      (error_of_finishQueue hok) fun id hid =>
        .carried (hstage.sound i hi) hind ⟨hconfig, hid⟩
    obtain ⟨more', read', hstage', hqueue'⟩ := htaken.finishQueue hok
    refine ⟨_, read', hstage', hqueue', fun f hf => by simp [hf], fun _ id hid => ?_⟩
    have hmem : carriedSite id ∈ pointers.toList.map carriedSite :=
      List.mem_map_of_mem (Std.ExtTreeSet.mem_toList.2 hid.2)
    simp [hmem]

namespace Finished

/-- **Every node can be reached from the outside.** -/
theorem path (h : Finished r seeds carried b) (hstarts : r.Starts seeds) {k : DeclId}
    (hk : k ∈ b.graph.nodeKeys) : b.graph.Path Node.entryKey k := by
  obtain ⟨fs, read, hstage, _⟩ := h
  exact hstage.records.graph.path hstage.anchored
    (fun f hf => (hstage.sound f hf).regular hstarts) hk

variable {id : DeclId}

theorem exists_stage (h : Finished r seeds carried b) :
    ∃ fs read, Stage r (r.Found seeds carried) b fs read ∧
      (∀ f, (∀ e, f ≠ .error e) → (r.Found seeds carried f ↔ f ∈ fs)) ∧
      ∀ id ∈ b.graph.callables, ∀ f ∈ r.code id, f ∈ fs := by
  obtain ⟨fs, read, hstage, hqueue, hseeds, hcarried⟩ := h
  have hcode : ∀ id ∈ b.graph.callables, ∀ f ∈ r.code id, f ∈ fs := by
    intro id hid
    obtain ⟨hid, hplain⟩ := CallGraph.mem_callables.1 hid
    have hread := hstage.reading.known id hid hplain
    rw [hqueue, List.append_nil] at hread
    exact hstage.covered id hread
  refine ⟨fs, read, hstage, fun f herror => ⟨fun hf => hf.mem hseeds ?_ hcarried herror, ?_⟩, hcode⟩
  · intro id hid hplain
    exact hcode id (CallGraph.mem_callables.2 ⟨hstage.records.mem_edges_of_queued hid, hplain⟩)
  · exact hstage.sound f

/-- **The graph is the one that the findings make.** -/
theorem tells (h : Finished r seeds carried b) :
    b.graph.Tells (r.Found seeds carried) := by
  obtain ⟨fs, read, hstage, hfound, _⟩ := h.exists_stage
  exact hstage.records.graph.of_not_error hfound

theorem mem_callables (h : Finished r seeds carried b) :
    id ∈ b.graph.callables ↔ Queued (r.Found seeds carried) id ∧ id.Plain := by
  obtain ⟨fs, read, hstage, hfound, _⟩ := h.exists_stage
  rw [CallGraph.mem_callables]
  refine and_congr_left fun hplain => ⟨fun hid => ?_, fun hid => ?_⟩
  · exact (hstage.queued_of_mem_edges hid hplain).mono hstage.sound
  · exact ((h.tells).keys id).2 (hid.elim (fun h => .inr (.inl h)) fun h => .inr (.inr (.inl h)))

theorem sound_code (h : Finished r seeds carried b) (hid : id ∈ b.graph.callables) (e : Failure) :
    .error e ∉ r.code id := by
  obtain ⟨fs, read, hstage, _, hcode⟩ := h.exists_stage
  exact fun he => hstage.records.sound e (hcode id hid _ he)

theorem exists_callable? (h : Finished r seeds carried b)
    (hid : id ∈ b.graph.callables) : ∃ c, r.tree.callable? id = some c :=
  Resolver.exists_callable? (h.sound_code hid)

end Finished

end Build

end ContractCalls
