import ContractCalls.CallGraph.Stats
import ContractCalls.Proofs.Graph.Reachable
import Mathlib.Algebra.Ring.Nat
import Mathlib.Data.List.Nodup
import Mathlib.Data.List.Perm.Subperm
import Mathlib.Data.Prod.Basic

/-!
# Statistics

The numbers of a graph are counted in different views of its edges: the keys, the callees, their
union.  `statistics_add_up` says that they fit together in every graph that was built.

The edges are counted as pairs.  Listed by callers or listed by callees, over all nodes, they are
the same pairs, each listed once, and this is so in any graph (`edgeCount_eq_sum_callees`,
`edgeCount_eq_sum_callers`).

The other numbers need what is known of built graphs.  Every callee is a callable of the graph or
the calls through pointers (`Finished.callee_cases`), so the nodes are the callables, the outside,
and the calls through pointers if there are any.  And these calls are a node just if they can be
reached, so just if some node leads to them.
-/

namespace ContractCalls

/-! ### Pairs in rows -/

section Rows

variable {α β : Type} {rows : List (α × List β)} {a : α} {b : β}

/-- The pairs that a list of rows stands for. -/
def pairsOf (rows : List (α × List β)) : List (α × β) :=
  rows.flatMap fun row => row.2.map (row.1, ·)

theorem length_pairsOf (rows : List (α × List β)) :
    (pairsOf rows).length = (rows.map fun row => row.2.length).sum := by
  simp only [pairsOf, List.length_flatMap, List.length_map]

theorem mem_pairsOf : (a, b) ∈ pairsOf rows ↔ ∃ bs, (a, bs) ∈ rows ∧ b ∈ bs := by
  simp only [pairsOf, List.mem_flatMap, List.mem_map, Prod.mk.injEq, Prod.exists]
  constructor
  · rintro ⟨a, bs, hrow, b, hb, rfl, rfl⟩
    exact ⟨bs, hrow, hb⟩
  · rintro ⟨bs, hrow, hb⟩
    exact ⟨a, bs, hrow, b, hb, rfl, rfl⟩

/-- Rows with different heads and without repetition stand for different pairs. -/
theorem nodup_pairsOf (hheads : (rows.map Prod.fst).Nodup) (hrows : ∀ row ∈ rows, row.2.Nodup) :
    (pairsOf rows).Nodup := by
  rw [pairsOf, List.nodup_flatMap]
  refine ⟨fun row hrow => (hrows row hrow).map fun b b' heq => (Prod.mk.inj heq).2, ?_⟩
  refine (List.pairwise_map.1 hheads).imp fun hne pair hpair hpair' => hne ?_
  obtain ⟨b, _, rfl⟩ := List.mem_map.1 hpair
  obtain ⟨b', _, heq⟩ := List.mem_map.1 hpair'
  exact (Prod.mk.inj heq).1.symm

end Rows

namespace CallGraph

variable {g : CallGraph} {n m : Node}

/-! ### Nothing is listed twice -/

theorem nodup_map_ofKey {keys : List DeclId} (h : keys.Nodup) : (keys.map Node.ofKey).Nodup :=
  h.map fun _ _ heq => Node.ofKey_inj.1 heq

theorem nodup_toList (ids : IdSet) : ids.toList.Nodup := by
  refine Std.ExtTreeSet.distinct_toList.imp fun hne heq => hne ?_
  rw [heq]
  exact Std.ReflCmp.compare_self

theorem nodup_nodes (g : CallGraph) : g.nodes.Nodup := nodup_map_ofKey (nodup_toList g.nodeKeys)

theorem nodup_callees (g : CallGraph) (n : Node) : (g.callees n).Nodup :=
  nodup_map_ofKey (nodup_toList (g.targets n.key))

theorem nodup_map_fst_edges (g : CallGraph) : (g.edges.toList.map Prod.fst).Nodup := by
  rw [Std.ExtTreeMap.map_fst_toList_eq_keys]
  exact Std.ExtTreeMap.nodup_keys

theorem nodup_callers (g : CallGraph) (n : Node) : (g.callers n).Nodup := by
  have hcallers : ((g.edges.toList.filter fun entry => entry.2.contains n.key).map Prod.fst).Nodup :=
    (List.filter_sublist.map Prod.fst).nodup g.nodup_map_fst_edges
  have hnodes := nodup_map_ofKey hcallers
  rwa [List.map_map] at hnodes

theorem nodup_callables (g : CallGraph) : g.callables.Nodup := by
  refine (nodup_map_ofKey Std.ExtTreeMap.nodup_keys).filterMap ?_
  intro n m id hn hm
  cases n <;> cases hn
  cases m <;> cases hm
  rfl

/-! ### Edges -/

/-- There is an edge between two nodes, which are as nodes usually are. -/
structure Link (g : CallGraph) (a b : Node) : Prop where
  caller : .ofKey a.key = a
  callee : .ofKey b.key = b
  edge : g.hasEdge a b = true

variable {a b : Node}

theorem Link.caller_mem_nodes (h : g.Link a b) : a ∈ g.nodes := by
  have hkey := mem_edges_of_mem_targets (hasEdge_iff.1 h.edge)
  exact mem_nodes.2 ⟨a.key, mem_nodeKeys.2 (.inr (.inl hkey)), h.caller⟩

theorem Link.callee_mem_nodes (h : g.Link a b) : b ∈ g.nodes :=
  mem_nodes.2 ⟨b.key, mem_nodeKeys.2 (.inr (.inr ⟨a.key, hasEdge_iff.1 h.edge⟩)), h.callee⟩

theorem ofKey_key_of_mem_nodes (h : n ∈ g.nodes) : .ofKey n.key = n := by
  obtain ⟨k, _, rfl⟩ := mem_nodes.1 h
  rw [Node.key_ofKey]

theorem mem_callees_iff_link (ha : .ofKey a.key = a) : b ∈ g.callees a ↔ g.Link a b := by
  rw [mem_callees]
  constructor
  · rintro ⟨k, hk, rfl⟩
    refine ⟨ha, by rw [Node.key_ofKey], hasEdge_iff.2 ?_⟩
    rwa [Node.key_ofKey]
  · exact fun h => ⟨b.key, hasEdge_iff.1 h.edge, h.callee⟩

theorem mem_callers_iff_link (hb : .ofKey b.key = b) : a ∈ g.callers b ↔ g.Link a b := by
  have hcallers : a ∈ g.callers b ↔ ∃ k, b.key ∈ g.targets k ∧ .ofKey k = a := by
    simp only [callers, List.mem_map, List.mem_filter, Std.ExtTreeSet.contains_iff_mem,
      mem_targets_iff, Prod.exists]
    constructor
    · rintro ⟨k, callees, hcallees, hk⟩
      exact ⟨k, ⟨callees, hcallees⟩, hk⟩
    · rintro ⟨k, ⟨callees, hcallees⟩, hk⟩
      exact ⟨k, callees, hcallees, hk⟩
  rw [hcallers]
  constructor
  · rintro ⟨k, hk, rfl⟩
    refine ⟨by rw [Node.key_ofKey], hb, hasEdge_iff.2 ?_⟩
    rwa [Node.key_ofKey]
  · exact fun h => ⟨a.key, hasEdge_iff.1 h.edge, h.caller⟩

/-- The rows of all nodes, each with the nodes that are listed for it. -/
def rowsOf (g : CallGraph) (f : Node → List Node) : List (Node × List Node) :=
  g.nodes.map fun n => (n, f n)

theorem nodup_pairsOf_rowsOf {f : Node → List Node} (hf : ∀ n, (f n).Nodup) :
    (pairsOf (g.rowsOf f)).Nodup := by
  have hheads : (g.rowsOf f).map Prod.fst = g.nodes := by
    rw [rowsOf, List.map_map]
    exact List.map_id g.nodes
  refine nodup_pairsOf ?_ fun row hrow => ?_
  · rw [hheads]
    exact g.nodup_nodes
  · obtain ⟨n, _, rfl⟩ := List.mem_map.1 hrow
    exact hf n

theorem mem_pairsOf_rowsOf {f : Node → List Node} :
    (n, m) ∈ pairsOf (g.rowsOf f) ↔ n ∈ g.nodes ∧ m ∈ f n := by
  rw [mem_pairsOf]
  constructor
  · rintro ⟨ns, hrow, hm⟩
    obtain ⟨n', hn', heq⟩ := List.mem_map.1 hrow
    cases heq
    exact ⟨hn', hm⟩
  · rintro ⟨hn, hm⟩
    exact ⟨f n, List.mem_map_of_mem hn, hm⟩

theorem mem_pairsOf_callees : (a, b) ∈ pairsOf (g.rowsOf g.callees) ↔ g.Link a b := by
  rw [mem_pairsOf_rowsOf]
  constructor
  · rintro ⟨ha, hb⟩
    exact (mem_callees_iff_link (ofKey_key_of_mem_nodes ha)).1 hb
  · exact fun h => ⟨h.caller_mem_nodes, (mem_callees_iff_link h.caller).2 h⟩

theorem mem_pairsOf_callers : (b, a) ∈ pairsOf (g.rowsOf g.callers) ↔ g.Link a b := by
  rw [mem_pairsOf_rowsOf]
  constructor
  · rintro ⟨hb, ha⟩
    exact (mem_callers_iff_link (ofKey_key_of_mem_nodes hb)).1 ha
  · exact fun h => ⟨h.callee_mem_nodes, (mem_callers_iff_link h.callee).2 h⟩

theorem mem_pairsOf_adjacency : (a, b) ∈ pairsOf g.adjacency ↔ g.Link a b := by
  rw [mem_pairsOf]
  constructor
  · rintro ⟨ns, hrow, hb⟩
    obtain ⟨_, ha, rfl⟩ := mem_adjacency_iff.1 hrow
    exact (mem_callees_iff_link ha).1 hb
  · intro h
    have hkey := mem_edges_of_mem_targets (hasEdge_iff.1 h.edge)
    exact ⟨g.callees a, mem_adjacency_iff.2 ⟨hkey, h.caller, rfl⟩,
      (mem_callees_iff_link h.caller).2 h⟩

theorem nodup_pairsOf_adjacency (g : CallGraph) : (pairsOf g.adjacency).Nodup := by
  refine nodup_pairsOf ?_ fun row hrow => ?_
  · have hnodes := nodup_map_ofKey g.nodup_map_fst_edges
    rw [List.map_map] at hnodes
    rwa [adjacency, List.map_map]
  · obtain ⟨_, _, hcallees⟩ := mem_adjacency_iff.1 hrow
    rw [hcallees]
    exact g.nodup_callees row.1

theorem length_pairsOf_adjacency (g : CallGraph) : (pairsOf g.adjacency).length = g.edgeCount := by
  rw [length_pairsOf, adjacency, List.map_map, edgeCount, List.length_flatMap]
  exact congrArg List.sum (List.map_congr_left fun entry _ => List.length_map ..)

/-- **Each edge is listed once**, as a callee of its caller. -/
theorem edgeCount_eq_sum_callees (g : CallGraph) :
    g.edgeCount = (g.nodes.map fun n => (g.callees n).length).sum := by
  have hperm : (pairsOf g.adjacency).Perm (pairsOf (g.rowsOf g.callees)) := by
    rw [List.perm_ext_iff_of_nodup g.nodup_pairsOf_adjacency (nodup_pairsOf_rowsOf g.nodup_callees)]
    rintro ⟨a, b⟩
    rw [mem_pairsOf_adjacency, mem_pairsOf_callees]
  rw [← length_pairsOf_adjacency, hperm.length_eq, length_pairsOf, rowsOf, List.map_map]
  rfl

/-- **Each edge is listed once**, as a caller of its callee. -/
theorem edgeCount_eq_sum_callers (g : CallGraph) :
    g.edgeCount = (g.nodes.map fun n => (g.callers n).length).sum := by
  have hperm : ((pairsOf g.adjacency).map Prod.swap).Perm (pairsOf (g.rowsOf g.callers)) := by
    have hswap := g.nodup_pairsOf_adjacency.map Prod.swap_injective
    rw [List.perm_ext_iff_of_nodup hswap (nodup_pairsOf_rowsOf g.nodup_callers)]
    rintro ⟨b, a⟩
    rw [mem_pairsOf_callers, ← mem_pairsOf_adjacency, List.mem_map]
    constructor
    · rintro ⟨⟨a', b'⟩, hmem, heq⟩
      cases heq
      exact hmem
    · exact fun hmem => ⟨(a, b), hmem, rfl⟩
  rw [← length_pairsOf_adjacency, ← List.length_map Prod.swap, hperm.length_eq, length_pairsOf,
    rowsOf, List.map_map]
  rfl

/-! ### Calls through pointers -/

theorem callers_dispatch_eq_nil :
    g.callers .internalDispatch = [] ↔ ∀ n, g.hasEdge n .internalDispatch = false := by
  have hdispatch : Node.ofKey (Node.key .internalDispatch) = .internalDispatch :=
    Node.ofKey_internalDispatchKey
  rw [List.eq_nil_iff_forall_not_mem]
  constructor
  · intro hnone n
    by_contra hedge
    rw [Bool.not_eq_false] at hedge
    have husual : Node.ofKey (Node.ofKey n.key).key = .ofKey n.key := by rw [Node.key_ofKey]
    refine hnone _ ((mem_callers_iff_link hdispatch).2 ⟨husual, hdispatch, ?_⟩)
    rwa [hasEdge, Node.key_ofKey]
  · intro hnone n hn
    have hedge := ((mem_callers_iff_link hdispatch).1 hn).edge
    rw [hnone n] at hedge
    cases hedge

end CallGraph

namespace Build.Finished

variable {r : Resolver} {seeds : List Finding} {carried : DeclId → Prop} {b : Build} {n m : Node}

/-- **What edges lead to**: the calls through pointers, or a callable of the graph. -/
theorem callee_cases (h : Finished r seeds carried b) (hstarts : r.Starts seeds)
    (hplain : ∀ id, carried id → id.Plain) (hm : m ∈ b.graph.callees n) :
    m = .internalDispatch ∨ ∃ id ∈ b.graph.callables, m = .callable id := by
  obtain ⟨k, hk, rfl⟩ := CallGraph.mem_callees.1 hm
  rcases h.callable_of_mem_targets hstarts hplain hk with rfl | hcallable
  · exact .inl Node.ofKey_internalDispatchKey
  · have hkey := h.mem_edges_of_callee hstarts hk hcallable.plain
    exact .inr ⟨k, CallGraph.mem_callables.2 ⟨hkey, hcallable.plain⟩,
      Node.ofKey_of_plain hcallable.plain⟩

/-- **The nodes of a graph**: the outside, the calls through pointers if they are one, and the
callables. -/
theorem mem_nodes_iff (h : Finished r seeds carried b) (hstarts : r.Starts seeds)
    (hplain : ∀ id, carried id → id.Plain) : n ∈ b.graph.nodes ↔ n = .entry ∨
      (n = .internalDispatch ∧ .internalDispatch ∈ b.graph.nodes) ∨
        ∃ id ∈ b.graph.callables, n = .callable id := by
  constructor
  · intro hn
    obtain ⟨k, hk, rfl⟩ := CallGraph.mem_nodes.1 hn
    rcases CallGraph.mem_nodeKeys.1 hk with rfl | hkey | ⟨caller, hcaller⟩
    · exact .inl Node.ofKey_entryKey
    · by_cases hentry : k = Node.entryKey
      · exact .inl (hentry ▸ Node.ofKey_entryKey)
      · by_cases hdispatch : k = Node.internalDispatchKey
        · subst hdispatch
          rw [Node.ofKey_internalDispatchKey] at hn ⊢
          exact .inr (.inl ⟨rfl, hn⟩)
        · have hk' : k.Plain := ⟨hentry, hdispatch⟩
          exact .inr (.inr ⟨k, CallGraph.mem_callables.2 ⟨hkey, hk'⟩, Node.ofKey_of_plain hk'⟩)
    · have hcallee : Node.ofKey k ∈ b.graph.callees (.ofKey caller) :=
        CallGraph.mem_callees.2 ⟨k, by rwa [Node.key_ofKey], rfl⟩
      rcases h.callee_cases hstarts hplain hcallee with heq | hcallable
      · exact .inr (.inl ⟨heq, heq ▸ hn⟩)
      · exact .inr (.inr hcallable)
  · rintro (rfl | ⟨rfl, hdispatch⟩ | ⟨id, hid, rfl⟩)
    · exact CallGraph.mem_nodes.2 ⟨_, CallGraph.mem_nodeKeys.2 (.inl rfl), Node.ofKey_entryKey⟩
    · exact hdispatch
    · obtain ⟨hkey, hid⟩ := CallGraph.mem_callables.1 hid
      exact CallGraph.mem_nodes.2 ⟨id, CallGraph.mem_nodeKeys.2 (.inr (.inl hkey)),
        Node.ofKey_of_plain hid⟩

theorem length_nodes (h : Finished r seeds carried b) (hstarts : r.Starts seeds)
    (hplain : ∀ id, carried id → id.Plain) : b.graph.nodes.length =
      b.graph.callables.length + 1 + if .internalDispatch ∈ b.graph.nodes then 1 else 0 := by
  have hcallables : (b.graph.callables.map Node.callable).Nodup :=
    b.graph.nodup_callables.map fun _ _ heq => Node.callable.inj heq
  have hperm : b.graph.nodes.Perm
      ((.entry :: if .internalDispatch ∈ b.graph.nodes then [.internalDispatch] else []) ++
        b.graph.callables.map .callable) := by
    rw [List.perm_ext_iff_of_nodup b.graph.nodup_nodes (by split <;> simp [hcallables])]
    intro n
    rw [h.mem_nodes_iff hstarts hplain]
    by_cases hdispatch : .internalDispatch ∈ b.graph.nodes <;> simp [hdispatch, eq_comm]
  rw [hperm.length_eq, List.length_append, List.length_map, List.length_cons]
  split <;> simp only [List.length_singleton, List.length_nil] <;> omega

theorem isDispatchReachable_iff_exists (h : Finished r seeds carried b) (hstarts : r.Starts seeds) :
    b.graph.isDispatchReachable = true ↔ ∃ n, b.graph.hasEdge n .internalDispatch = true := by
  constructor
  · intro hreach
    obtain ⟨n, _, hedge⟩ := CallGraph.exists_pointer_caller hreach
    exact ⟨n, hedge⟩
  · rintro ⟨n, hedge⟩
    rw [h.isDispatchReachable_iff hstarts, CallGraph.internalDispatch_mem_nodes]
    exact CallGraph.mem_nodeKeys.2 (.inr (.inr ⟨n.key, CallGraph.hasEdge_iff.1 hedge⟩))

theorem callers_dispatch_eq_nil (h : Finished r seeds carried b) (hstarts : r.Starts seeds) :
    b.graph.callers .internalDispatch = [] ↔ b.graph.isDispatchReachable = false := by
  rw [CallGraph.callers_dispatch_eq_nil, ← Bool.not_eq_true, h.isDispatchReachable_iff_exists hstarts,
    not_exists]
  simp only [Bool.not_eq_true]

theorem callees_dispatch_eq_nil (h : Finished r seeds carried b) (hstarts : r.Starts seeds)
    (hreach : b.graph.isDispatchReachable = false) : b.graph.callees .internalDispatch = [] := by
  rw [List.eq_nil_iff_forall_not_mem]
  intro n hn
  obtain ⟨k, hk, _⟩ := CallGraph.mem_callees.1 hn
  have hnode : .internalDispatch ∈ b.graph.nodes := CallGraph.internalDispatch_mem_nodes.2
    (CallGraph.mem_nodeKeys.2 (.inr (.inl (CallGraph.mem_edges_of_mem_targets hk))))
  rw [← h.isDispatchReachable_iff hstarts, hreach] at hnode
  cases hnode

theorem length_callees_entry_le (h : Finished r seeds carried b) (hstarts : r.Starts seeds)
    (hplain : ∀ id, carried id → id.Plain) :
    (b.graph.callees .entry).length ≤ b.graph.callables.length + 1 := by
  have hsub : b.graph.callees .entry ⊆ .internalDispatch :: b.graph.callables.map .callable := by
    intro m hm
    rcases h.callee_cases hstarts hplain hm with rfl | ⟨id, hid, rfl⟩
    · exact List.mem_cons_self
    · exact List.mem_cons_of_mem _ (List.mem_map_of_mem hid)
  have hle := (List.subperm_of_subset (b.graph.nodup_callees .entry) hsub).length_le
  rwa [List.length_cons, List.length_map] at hle

theorem length_callees_dispatch_le (h : Finished r seeds carried b) (hstarts : r.Starts seeds)
    (hplain : ∀ id, carried id → id.Plain) :
    (b.graph.callees .internalDispatch).length ≤ b.graph.callables.length := by
  have hsub : b.graph.callees .internalDispatch ⊆ b.graph.callables.map .callable := by
    intro m hm
    obtain ⟨id, rfl⟩ := (h.shape_graph hstarts hplain).dispatch m hm
    rcases h.callee_cases hstarts hplain hm with heq | ⟨id', hid', heq⟩
    · cases heq
    · cases heq
      exact List.mem_map_of_mem hid'
  have hle := (List.subperm_of_subset (b.graph.nodup_callees .internalDispatch) hsub).length_le
  rwa [List.length_map] at hle

end Build.Finished

namespace CallGraph

variable {g : CallGraph}

/-- The numbers of the graph fit together, and fit what its queries answer. -/
structure AddsUp (g : CallGraph) : Prop where
  nodes : g.stats.nodes = g.stats.callables + 1 + if .internalDispatch ∈ g.nodes then 1 else 0
  callees : g.stats.edges = (g.nodes.map fun n => (g.callees n).length).sum
  callers : g.stats.edges = (g.nodes.map fun n => (g.callers n).length).sum
  dispatchTargets : g.stats.dispatchTargets ≤ g.stats.callables
  entryPoints : g.stats.entryPoints ≤ g.stats.callables + 1
  indirectCallers : g.stats.indirectCallers = (g.callers .internalDispatch).length
  /-- Without indirect callers, calls through pointers are not reached. -/
  unreached : g.stats.indirectCallers = 0 ↔ g.isDispatchReachable = false
  /-- Without indirect callers, calls through pointers lead nowhere. -/
  untargeted : g.stats.indirectCallers = 0 → g.stats.dispatchTargets = 0

theorem indirectCallers_eq (g : CallGraph) :
    g.stats.indirectCallers = (g.callers .internalDispatch).length := by
  rw [stats, callers, List.length_map, Node.key]

/-- **The statistics of every graph that is built add up.** -/
theorem statistics_add_up (h : g.Built) : g.AddsUp := by
  obtain ⟨r, seeds, carried, b, hstarts, hplain, hfinished, rfl⟩ := h.exists_finished
  have hcallers := b.graph.indirectCallers_eq
  have hunreached : b.graph.stats.indirectCallers = 0 ↔ b.graph.isDispatchReachable = false := by
    rw [← hfinished.callers_dispatch_eq_nil hstarts, hcallers, List.length_eq_zero_iff]
  refine ⟨hfinished.length_nodes hstarts hplain, edgeCount_eq_sum_callees _,
    edgeCount_eq_sum_callers _, hfinished.length_callees_dispatch_le hstarts hplain,
    hfinished.length_callees_entry_le hstarts hplain, hcallers, hunreached, fun hnone => ?_⟩
  exact List.length_eq_zero_iff.2
    (hfinished.callees_dispatch_eq_nil hstarts (hunreached.1 hnone))

/-- The deployed token calls pointers, the pebble does nothing at all. -/
theorem token_statistics_add_up :
    Token.deployed.AddsUp ∧ Token.deployed.stats.nodes = 5 ∧ Token.deployed.stats.callables = 3 ∧
      Token.deployed.stats.edges = 6 ∧ Token.deployed.stats.indirectCallers = 1 ∧
      Pebble.creation.AddsUp ∧ Pebble.creation.stats.nodes = 1 ∧
      Pebble.creation.isDispatchReachable = false := by
  have htoken : Token.deployed.Built := .deployment Token.ofSteps_steps
    (.creation Token.ofSteps_steps Token.creationGraph_tree) Token.deploymentGraph_tree
  have hpebble := statistics_add_up Pebble.built_creation
  exact ⟨statistics_add_up htoken, by cbv, by cbv, by cbv, by cbv, hpebble, by cbv,
    hpebble.unreached.1 (by cbv)⟩

end CallGraph
end ContractCalls
