import ContractCalls.Proofs.Graph.Shape

/-!
# Queries and nodes that are the same

The outside can also be given as a callable with the key of the outside, and so can the calls
through pointers.  Two nodes with one key are the same, and a query should not tell them apart.
Neighbours, edges and what can be reached are looked up by keys, so there it does not matter how a
node was made.

`contains` is another matter.  The outside is part of every graph, but `contains` knows it by how it
was made.  Made as a callable it is looked up like any key, and it is found only where it causes
something to run: in a graph that was built nothing leads to the outside, and it is kept only with
callees (`Shape.touches_entryKey`).  Where it has none, it is overlooked: it is among the nodes, and
`contains` denies it.  This is the one node about which `contains` and `nodes` do not agree
(`queries_respect_same`), and `pebble_overlooks_entry` is a graph in which they do not.
-/

namespace ContractCalls

theorem Node.same_iff {a b : Node} : a.same b = true ↔ a.key = b.key := beq_iff_eq

theorem Node.key_eq_entryKey {n : Node} :
    n.key = Node.entryKey ↔ n = .entry ∨ n = .callable Node.entryKey := by
  cases n <;> simp [Node.key, Node.entryKey, Node.internalDispatchKey]

namespace CallGraph

/-- The node is the outside, made as a callable, and the outside causes nothing to run. -/
def Overlooks (g : CallGraph) (n : Node) : Prop :=
  n = .callable Node.entryKey ∧ g.callees .entry = []

/-- The graph gives the same answers about both nodes. -/
structure AnswersAlike (g : CallGraph) (a b : Node) : Prop where
  callees : g.callees a = g.callees b
  callers : g.callers a = g.callers b
  hasEdge_from : ∀ n, g.hasEdge a n = g.hasEdge b n
  hasEdge_to : ∀ n, g.hasEdge n a = g.hasEdge n b
  /-- A set of nodes is the set of their keys; the start is written as it was made. -/
  reachableFrom : (g.reachableFrom a).map Node.key = (g.reachableFrom b).map Node.key
  /-- Only the outside is told from itself, made in the two ways, and only if it is overlooked. -/
  contains : g.contains a = g.contains b ↔ (g.Overlooks a ↔ g.Overlooks b)

variable {g : CallGraph} {a b n : Node} {t : Tree}

/-! ### What is looked up by keys -/

theorem map_key_reachableFrom : (g.reachableFrom n).map Node.key = (g.reach n.key).toList := by
  rw [reachableFrom, List.map_map, List.map_congr_left (g := id), List.map_id]
  intro k _
  by_cases h : k = n.key <;> simp [h]

theorem exists_mem_nodes_same : (∃ m ∈ g.nodes, m.same n = true) ↔ n.key ∈ g.nodeKeys := by
  simp [mem_nodes, Node.same_iff]

/-! ### The outside as a callable -/

/-- Where the outside is kept it has callees, and nothing leads to it. -/
theorem Shape.touches_entryKey (h : g.Shape t) :
    g.touches Node.entryKey = true ↔ g.callees .entry ≠ [] := by
  rw [touches_iff]
  constructor
  · rintro (hkept | ⟨caller, hcaller⟩)
    · have hadjacent : (.entry, g.callees .entry) ∈ g.adjacency :=
        mem_adjacency_iff.2 ⟨hkept, Node.ofKey_entryKey, rfl⟩
      exact h.kept _ _ hadjacent (.inl rfl)
    · have hno := h.entry (.ofKey caller)
      rw [hasEdge, Node.key_ofKey, Bool.eq_false_iff, Ne, Std.ExtTreeSet.contains_iff_mem] at hno
      exact absurd hcaller hno
  · intro hne
    obtain ⟨m, hm⟩ := List.exists_mem_of_ne_nil _ hne
    obtain ⟨k, hk, _⟩ := mem_callees.1 hm
    exact .inl (mem_edges_of_mem_targets hk)

/-- Where `contains` and `nodes` agree. -/
theorem Shape.contains_iff (h : g.Shape t) :
    g.contains n = true ↔ n.key ∈ g.nodeKeys ∧ ¬ g.Overlooks n := by
  rw [mem_nodeKeys, ← touches_iff, contains, Bool.or_eq_true, beq_iff_eq]
  by_cases hkey : n.key = Node.entryKey
  · rcases Node.key_eq_entryKey.1 hkey with rfl | rfl
    · simp [Overlooks, Node.key]
    · rw [show Node.key (.callable Node.entryKey) = Node.entryKey from rfl, h.touches_entryKey]
      simp [Overlooks]
  · have hentry : n ≠ .entry := fun heq => hkey (Node.key_eq_entryKey.2 (.inl heq))
    have hcallable : n ≠ .callable Node.entryKey := fun heq =>
      hkey (Node.key_eq_entryKey.2 (.inr heq))
    simp [Overlooks, hkey, hentry, hcallable]

theorem Overlooks.mem_nodeKeys (h : g.Overlooks n) : n.key ∈ g.nodeKeys :=
  CallGraph.mem_nodeKeys.2 (.inl (Node.key_eq_entryKey.2 (.inr h.1)))

theorem Shape.answersAlike (h : g.Shape t) (hkey : a.key = b.key) : g.AnswersAlike a b where
  callees := by rw [callees, callees, hkey]
  callers := by rw [callers, callers, hkey]
  hasEdge_from := by
    intro n
    rw [hasEdge, hasEdge, hkey]
  hasEdge_to := by
    intro n
    rw [hasEdge, hasEdge, hkey]
  reachableFrom := by rw [map_key_reachableFrom, map_key_reachableFrom, hkey]
  contains := by
    have ha : g.Overlooks a → b.key ∈ g.nodeKeys := fun ha => hkey ▸ ha.mem_nodeKeys
    have hb : g.Overlooks b → b.key ∈ g.nodeKeys := Overlooks.mem_nodeKeys
    rw [Bool.eq_iff_iff, h.contains_iff, h.contains_iff, hkey]
    tauto

/-- **Queries do not tell apart nodes that are the same**, and `contains` says of every node whether
it is among the nodes; but for the outside made as a callable, which `contains` denies where the
outside has no callees. -/
theorem queries_respect_same (h : g.Built) :
    (∀ a b, a.same b = true → g.AnswersAlike a b) ∧
    ∀ n, g.contains n = true ↔ (∃ m ∈ g.nodes, m.same n = true) ∧ ¬ g.Overlooks n := by
  obtain ⟨t, hshape⟩ := h.exists_shape
  constructor
  · intro a b hsame
    exact hshape.answersAlike (Node.same_iff.1 hsame)
  · intro n
    rw [exists_mem_nodes_same, hshape.contains_iff]

theorem token_queries_respect_same :
    Token.creation.AnswersAlike .internalDispatch (.callable ⟨-2⟩) ∧
      Token.creation.AnswersAlike .entry (.callable ⟨-1⟩) ∧
      (Token.creation.contains (.callable ⟨-1⟩) = true ↔
        (∃ m ∈ Token.creation.nodes, m.same (.callable ⟨-1⟩) = true) ∧
          ¬ Token.creation.Overlooks (.callable ⟨-1⟩)) ∧
      Token.creation.contains (.callable ⟨-1⟩) = true := by
  have h := queries_respect_same (.creation Token.ofSteps_steps Token.creationGraph_tree)
  exact ⟨h.1 _ _ rfl, h.1 _ _ rfl, h.2 _, by cbv⟩

end CallGraph

/-! ### A pebble

A contract without any code.  Nothing runs when it is created, so the outside has no callees. -/

namespace Pebble

def steps : List Step := [.contract "Pebble" .contract false []]

def tree : Tree := (Tree.ofSteps steps).toOption.getD {}

def creation : CallGraph := (tree.creationGraph ⟨0⟩).result.toOption.getD ⟨⟨0⟩, "", ∅, ∅, ∅, ∅⟩

theorem built_creation : creation.Built :=
  .creation (eq_ok_of_isOk (by cbv) _) (eq_ok_of_isOk (by cbv) _)

/-- Made in two ways, the outside is the same node, and it is among the nodes; but the graph
contains it only as made in one. -/
theorem pebble_overlooks_entry : creation.Built ∧ Node.same .entry (.callable ⟨-1⟩) = true ∧
    creation.contains .entry = true ∧ creation.contains (.callable ⟨-1⟩) = false ∧
    ∃ m ∈ creation.nodes, m.same (.callable ⟨-1⟩) = true :=
  ⟨built_creation, rfl, by cbv, by cbv, .entry, List.contains_iff_mem.1 (by cbv), rfl⟩

end Pebble

end ContractCalls
