import ContractCalls.Proofs.Graph.Connected

/-!
# Calls through pointers

Which callables a call through a pointer can lead to does not depend on the order in which
pointers are taken and called.  As soon as one pointer is called anywhere, the targets are all the
pointers of the graph, taken before, during or after; and if none is called, there are no
targets at all (`dispatch_all_pointers`).  The pointers themselves are those that the code which
was read takes, and those that are carried over from the creation graph.

A creation graph that is handed in is `CallGraph.Built` by a build as well, of this tree
or of another; so its pointers are callables.
-/

namespace ContractCalls

open Finding

/-- A graph that builds can make, of any tree and with any creation graph made so. -/
inductive CallGraph.Built : CallGraph → Prop where
  | creation {steps : List Step} {t : Tree} {contract : DeclId} {g : CallGraph} :
      Tree.ofSteps steps = .ok t → (t.creationGraph contract).result = .ok g → Built g
  | deployment {steps : List Step} {t : Tree} {contract : DeclId} {creation g : CallGraph}
      {config : Config} : Tree.ofSteps steps = .ok t → Built creation →
      (t.deploymentGraph contract creation config).result = .ok g → Built g

/-- The code of a callable of the graph takes a callable as a pointer. -/
def CallGraph.TakesPointer (g : CallGraph) (r : Resolver) (id : DeclId) : Prop :=
  ∃ k ∈ g.callables, ∃ c, r.tree.callable? k = some c ∧ r.Takes c.Root id

/-- Calls through pointers lead to all pointers, if there are any such calls. -/
structure CallGraph.DispatchesPointers (g : CallGraph) : Prop where
  called : .internalDispatch ∈ g.nodes → g.dispatchTargets = g.pointers.toList
  uncalled : .internalDispatch ∉ g.nodes →
    g.dispatchTargets = [] ∧ ∀ ns, (.internalDispatch, ns) ∉ g.adjacency

namespace Resolver

variable {r : Resolver} {x : DeclId}

/-! ### Pointers of code -/

theorem hasPointer_iff_site {found : Finding → Prop} :
    HasPointer found x ↔ ∃ s, found (.site s) ∧ (Finding.site s).pointer? = some x := by
  constructor
  · intro hex
    obtain ⟨f, hf, hpointer⟩ := hex
    cases f with
    | site s => exact ⟨s, hf, hpointer⟩
    | _ => cases hpointer
  · intro hex
    obtain ⟨s, hs, hpointer⟩ := hex
    exact ⟨_, hs, hpointer⟩

theorem pointer_siteOf {root : Expr → Prop} {n : Node} :
    (∃ s, r.SiteOf root n s ∧ (Finding.site s).pointer? = some x) ↔ r.Takes root x := by
  constructor
  · intro hex
    obtain ⟨s, hs, hpointer⟩ := hex
    cases hs with
    | call => cases hpointer
    | take he hnames hd =>
      cases hpointer
      exact ⟨_, _, he, hnames, hd⟩
    | indirect => cases hpointer
  · intro hex
    obtain ⟨e, declared, he, hnames, hd⟩ := hex
    exact ⟨_, .take he hnames hd, rfl⟩

theorem hasPointer_code {id : DeclId} {c : Callable} (hc : r.tree.callable? id = some c) :
    HasPointer (· ∈ r.code id) x ↔ r.Takes c.Root x := by
  rw [hasPointer_iff_site, ← pointer_siteOf (n := .callable id)]
  refine exists_congr fun s => and_congr_left fun hpointer => ?_
  rw [site_mem_code hc]
  refine or_iff_left fun hs => ?_
  cases hs with
  | attach => cases hpointer
  | goOn => cases hpointer

theorem hasPointer_creationSeeds : HasPointer (· ∈ r.creationSeeds) x ↔
    ∃ b ∈ r.linearization, r.Takes (r.tree.Initializer b) x ∨ r.Takes b.BaseArg x := by
  rw [hasPointer_iff_site]
  simp only [site_mem_creationSeeds]
  constructor
  · intro hex
    obtain ⟨s, ⟨b, hb, hs | ⟨k, _, rfl⟩ | hs⟩, hpointer⟩ := hex
    · exact ⟨b, hb, .inl (pointer_siteOf.1 ⟨s, hs, hpointer⟩)⟩
    · cases hpointer
    · exact ⟨b, hb, .inr (pointer_siteOf.1 ⟨s, hs, hpointer⟩)⟩
  · intro hex
    obtain ⟨b, hb, h | h⟩ := hex
    · obtain ⟨s, hs, hpointer⟩ := pointer_siteOf.2 h
      exact ⟨s, ⟨b, hb, .inl hs⟩, hpointer⟩
    · obtain ⟨s, hs, hpointer⟩ := pointer_siteOf.2 h
      exact ⟨s, ⟨b, hb, .inr (.inr hs)⟩, hpointer⟩

theorem not_hasPointer_entrySites : ¬ HasPointer (· ∈ Build.entrySites r) x := by
  intro hex
  obtain ⟨f, hf, hpointer⟩ := hex
  obtain ⟨k, _, rfl⟩ := List.mem_map.1 hf
  cases hpointer

end Resolver

namespace Build.Finished

variable {r : Resolver} {seeds : List Finding} {carried : DeclId → Prop} {b : Build} {id : DeclId}

/-! ### The targets of calls through pointers -/

theorem mem_nodes_dispatch (h : Finished r seeds carried b) (hstarts : r.Starts seeds) :
    .internalDispatch ∈ b.graph.nodes ↔ HasIndirect (r.Found seeds carried) := by
  rw [CallGraph.internalDispatch_mem_nodes]
  constructor
  · intro hmem
    have hpath := h.path hstarts hmem
    obtain ⟨fs, read, hstage, _⟩ := h.exists_stage
    obtain ⟨i, hi, hind⟩ := (hstage.isDispatchReachable_iff hstarts).1
      (CallGraph.isDispatchReachable_iff.2 hpath)
    exact ⟨i, hstage.sound i hi, hind⟩
  · intro hex
    obtain ⟨i, hi, hind⟩ := hex
    obtain ⟨a, hedge⟩ := (hi.regular hstarts).indirect hind
    exact CallGraph.mem_nodeKeys.2 (.inr (.inr ⟨_, h.tells.mem_targets hi hedge⟩))

/-- Whatever is taken as a pointer has an id that a declaration can have, if this is so of the
carried ones. -/
theorem plain_pointers (h : Finished r seeds carried b) (hstarts : r.Starts seeds)
    (hplain : ∀ id, carried id → id.Plain) (hid : id ∈ b.graph.pointers) : id.Plain := by
  obtain ⟨f, hf, hpointer⟩ := (h.tells.pointers id).1 hid
  rcases hf.resolved hstarts with hresolved | ⟨id', hid', rfl⟩
  · exact Tree.plain_of_callable? (hresolved id (.inr hpointer))
  · cases hpointer
    exact hplain id hid'

theorem mem_targets_dispatch (h : Finished r seeds carried b) (hstarts : r.Starts seeds)
    (hplain : ∀ id, carried id → id.Plain) : id ∈ b.graph.targets Node.internalDispatchKey ↔
      Dispatches (r.Found seeds carried) id := by
  rw [h.tells.targets]
  refine ⟨?_, fun hid => .inr ⟨rfl, hid⟩⟩
  intro hor
  rcases hor with ⟨x, y, ⟨f, hf, hedge⟩, hx, _⟩ | ⟨_, hid⟩
  · -- No code is read for the calls through pointers, so no edge starts there by itself.
    obtain ⟨fs, read, hstage, hfound, _⟩ := h.exists_stage
    have hmem : f ∈ fs := by
      refine (hfound f ?_).1 hf
      rintro e rfl
      cases hedge
    rcases hstage.anchored.caller hmem hedge with hroot | hqueued
    · rw [hx] at hroot
      cases hroot
    · rw [hx] at hqueued
      rcases hqueued.mono hstage.sound with ⟨f', hf', htarget⟩ | ⟨_, hpointer⟩
      · exact absurd rfl (hf'.plain_target hstarts htarget).2
      · exact absurd rfl (h.plain_pointers hstarts hplain ((h.tells.pointers _).2 hpointer)).2
  · exact hid

/-- Ids that declarations can have are those of callables. -/
theorem callables_ofKey {ids : List DeclId} (h : ∀ id ∈ ids, id.Plain) :
    (ids.map Node.ofKey).filterMap Node.callable? = ids := by
  induction ids with
  | nil => rfl
  | cons id ids ih =>
    rw [List.map_cons, Node.ofKey_of_plain (h id List.mem_cons_self), List.filterMap_cons]
    rw [ih fun k hk => h k (List.mem_cons_of_mem id hk)]
    rfl

theorem dispatchesPointers (h : Finished r seeds carried b) (hstarts : r.Starts seeds)
    (hplain : ∀ id, carried id → id.Plain) : b.graph.DispatchesPointers where
  called := by
    intro hnode
    have hind := (h.mem_nodes_dispatch hstarts).1 hnode
    have htargets : b.graph.targets Node.internalDispatchKey = b.graph.pointers := by
      refine Std.ExtTreeSet.ext_mem fun id => ?_
      rw [h.mem_targets_dispatch hstarts hplain, h.tells.pointers]
      exact and_iff_right hind
    rw [CallGraph.dispatchTargets, CallGraph.callees, Node.key, htargets]
    exact callables_ofKey fun id hid =>
      h.plain_pointers hstarts hplain (Std.ExtTreeSet.mem_toList.1 hid)
  uncalled := by
    intro hnode
    have hkeys : Node.internalDispatchKey ∉ b.graph.edges := fun hmem =>
      hnode (CallGraph.internalDispatch_mem_nodes.2 (CallGraph.mem_nodeKeys.2 (.inr (.inl hmem))))
    refine ⟨List.eq_nil_iff_forall_not_mem.2 fun id hid => hkeys ?_, fun ns hns => hkeys ?_⟩
    · exact CallGraph.mem_edges_of_mem_targets (CallGraph.mem_dispatchTargets.1 hid).1
    · exact (CallGraph.mem_adjacency_iff.1 hns).1

/-- **Where pointers come from**: the seeds, the code of the callables, and what is carried. -/
theorem mem_pointers (h : Finished r seeds carried b) (hstarts : r.Starts seeds) :
    id ∈ b.graph.pointers ↔ HasPointer (· ∈ seeds) id ∨ b.graph.TakesPointer r id ∨
      (.internalDispatch ∈ b.graph.nodes ∧ carried id) := by
  rw [h.tells.pointers, h.mem_nodes_dispatch hstarts]
  constructor
  · intro hex
    obtain ⟨f, hf, hpointer⟩ := hex
    have herror : ∀ e, f ≠ .error e := by
      rintro e rfl
      cases hpointer
    rcases hf.origin herror with hf | ⟨k, hk, hplain, hf⟩ | ⟨k, hind, hk, rfl⟩
    · exact .inl ⟨f, hf, hpointer⟩
    · have hk' := h.mem_callables.2 ⟨hk, hplain⟩
      obtain ⟨c, hc⟩ := h.exists_callable? hk'
      exact .inr (.inl ⟨k, hk', c, hc, (Resolver.hasPointer_code hc).1 ⟨f, hf, hpointer⟩⟩)
    · cases hpointer
      exact .inr (.inr ⟨hind, hk⟩)
  · intro hor
    rcases hor with ⟨f, hf, hpointer⟩ | ⟨k, hk, c, hc, htakes⟩ | ⟨⟨i, hi, hind⟩, hid⟩
    · exact ⟨f, .seed hf, hpointer⟩
    · obtain ⟨f, hf, hpointer⟩ := (Resolver.hasPointer_code hc).2 htakes
      exact ⟨f, .of_queued (h.mem_callables.1 hk).1 hf, hpointer⟩
    · exact ⟨_, .carried hi hind hid, rfl⟩

end Build.Finished

namespace CallGraph

theorem Built.plain_pointers {g : CallGraph} (h : g.Built) {id : DeclId} (hid : id ∈ g.pointers) :
    id.Plain := by
  induction h generalizing id with
  | creation ht h =>
    obtain ⟨r, _, _, hfits, rfl, hfinished⟩ :=
      Tree.exists_creation (Tree.wellFormed_of_ofSteps ht) h
    exact hfinished.plain_pointers (Resolver.starts_creationSeeds hfits) (fun _ h => h.elim) hid
  | deployment ht _ h ih =>
    obtain ⟨r, _, _, hfits, rfl, hfinished⟩ :=
      Tree.exists_deployment (Tree.wellFormed_of_ofSteps ht) h
    exact hfinished.plain_pointers (Resolver.starts_entrySites hfits) (fun _ h => ih h.2) hid

theorem Built.exists_finished {g : CallGraph} (h : g.Built) : ∃ r seeds carried b, r.Starts seeds ∧
    (∀ id, carried id → id.Plain) ∧ Build.Finished r seeds carried b ∧ b.graph = g := by
  cases h with
  | creation ht h =>
    obtain ⟨r, _, _, hfits, hgraph, hfinished⟩ :=
      Tree.exists_creation (Tree.wellFormed_of_ofSteps ht) h
    exact ⟨r, _, _, _, Resolver.starts_creationSeeds hfits, fun _ h => h.elim, hfinished, hgraph⟩
  | deployment ht hbuilt h =>
    obtain ⟨r, _, _, hfits, hgraph, hfinished⟩ :=
      Tree.exists_deployment (Tree.wellFormed_of_ofSteps ht) h
    exact ⟨r, _, _, _, Resolver.starts_entrySites hfits, fun _ h => hbuilt.plain_pointers h.2,
      hfinished, hgraph⟩

/-- **Calls through pointers lead to all pointers**, in whatever order pointers are taken and
called.  In a creation graph these are the pointers that its code takes; in a deployment
graph also those that are carried, which is done if pointers are called and the settings
ask for it. -/
theorem dispatch_all_pointers {steps : List Step} {t : Tree} (ht : Tree.ofSteps steps = .ok t)
    (contract : DeclId) (g : CallGraph) :
    ((t.creationGraph contract).result = .ok g → g.DispatchesPointers ∧
      ∃ r, t.resolver contract = .ok r ∧ ∀ id, id ∈ g.pointers ↔
        (∃ b ∈ r.linearization, r.Takes (r.tree.Initializer b) id ∨ r.Takes b.BaseArg id) ∨
          g.TakesPointer r id) ∧
    ∀ creation config, creation.Built →
      (t.deploymentGraph contract creation config).result = .ok g → g.DispatchesPointers ∧
      (config.carryPointers = true → .internalDispatch ∈ g.nodes →
        ∀ id ∈ creation.pointers, id ∈ g.dispatchTargets) ∧
      ∃ r, t.resolver contract = .ok r ∧ ∀ id, id ∈ g.pointers ↔ g.TakesPointer r id ∨
        (config.carryPointers = true ∧ .internalDispatch ∈ g.nodes ∧ id ∈ creation.pointers) := by
  have hwell := Tree.wellFormed_of_ofSteps ht
  constructor
  · intro h
    obtain ⟨r, hr, rfl, hfits, rfl, hfinished⟩ := Tree.exists_creation hwell h
    have hstarts := Resolver.starts_creationSeeds hfits
    refine ⟨hfinished.dispatchesPointers hstarts fun _ h => h.elim, r, hr, fun id => ?_⟩
    rw [hfinished.mem_pointers hstarts, Resolver.hasPointer_creationSeeds, and_false, or_false]
  · intro creation config hbuilt h
    obtain ⟨r, hr, rfl, hfits, rfl, hfinished⟩ := Tree.exists_deployment hwell h
    have hstarts := Resolver.starts_entrySites hfits
    have hdispatch := hfinished.dispatchesPointers hstarts fun _ h => hbuilt.plain_pointers h.2
    have hpointers : ∀ id, id ∈ (Build.deployment r creation.pointers config).graph.pointers ↔
        (Build.deployment r creation.pointers config).graph.TakesPointer r id ∨
        (config.carryPointers = true ∧
          .internalDispatch ∈ (Build.deployment r creation.pointers config).graph.nodes ∧
          id ∈ creation.pointers) := by
      intro id
      rw [hfinished.mem_pointers hstarts, or_iff_right Resolver.not_hasPointer_entrySites,
        Build.Carried, and_left_comm]
    refine ⟨hdispatch, fun hconfig hnode id hid => ?_, r, hr, hpointers⟩
    rw [hdispatch.called hnode, Std.ExtTreeSet.mem_toList, hpointers]
    exact .inr ⟨hconfig, hnode, hid⟩

theorem token_dispatch_all_pointers :
    (Token.creation.DispatchesPointers ∧
      ∃ r, Token.tree.resolver ⟨4⟩ = .ok r ∧ ∀ id, id ∈ Token.creation.pointers ↔
        (∃ b ∈ r.linearization, r.Takes (r.tree.Initializer b) id ∨ r.Takes b.BaseArg id) ∨
          Token.creation.TakesPointer r id) ∧
    Token.deployed.DispatchesPointers ∧
      (Config.standard.carryPointers = true → .internalDispatch ∈ Token.deployed.nodes →
        ∀ id ∈ Token.creation.pointers, id ∈ Token.deployed.dispatchTargets) ∧
      ∃ r, Token.tree.resolver ⟨4⟩ = .ok r ∧ ∀ id, id ∈ Token.deployed.pointers ↔
        Token.deployed.TakesPointer r id ∨ (Config.standard.carryPointers = true ∧
          .internalDispatch ∈ Token.deployed.nodes ∧ id ∈ Token.creation.pointers) :=
  ⟨(dispatch_all_pointers Token.ofSteps_steps ⟨4⟩ _).1 Token.creationGraph_tree,
    (dispatch_all_pointers Token.ofSteps_steps ⟨4⟩ _).2 _ _
      (.creation Token.ofSteps_steps Token.creationGraph_tree) Token.deploymentGraph_tree⟩

end CallGraph

end ContractCalls
