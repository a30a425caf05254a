import ContractCalls.Proofs.Graph.Queries
import ContractCalls.Proofs.Graph.SideEffects

/-!
# What can be reached

`CallGraph.Reaches` is a path of a graph, told by its nodes and edges: any number of edges, each of
which starts where the one before it leads.  `reached_exactly_by_paths` is about every graph, also
one that no build makes, and about every start, also one that is no part of the graph: the nodes
that `reachableFrom` answers are those that a path leads to, each of them once.

For calls through pointers it is enough, in a graph that was built, to look at single edges.  The
caller is itself reached from the outside, as every node of such a graph is.
-/

namespace ContractCalls

namespace CallGraph

/-- The second node is reached from the first along edges, if only along none.  Nodes that are the
same count as one. -/
inductive Reaches (g : CallGraph) : Node → Node → Prop where
  | same {a b : Node} : a.same b = true → Reaches g a b
  | edge {a b c : Node} : Reaches g a b → g.hasEdge b c = true → Reaches g a c

variable {g : CallGraph} {a b start : Node}

theorem hasEdge_iff : g.hasEdge a b = true ↔ b.key ∈ g.targets a.key :=
  Std.ExtTreeSet.contains_iff_mem

theorem reaches_iff_path : g.Reaches a b ↔ g.Path a.key b.key := by
  constructor
  · intro h
    induction h with
    | same hsame => rw [Node.same_iff.1 hsame]; exact .refl _
    | edge _ hedge ih => exact ih.tail (hasEdge_iff.1 hedge)
  · intro h
    generalize hk : b.key = k at h
    induction h generalizing b with
    | refl => exact .same (Node.same_iff.2 hk.symm)
    | @tail k' k _ hlast ih =>
      have hprior : g.Reaches a (.ofKey k') := ih (Node.key_ofKey k')
      refine hprior.edge (hasEdge_iff.2 ?_)
      rw [Node.key_ofKey, hk]
      exact hlast

theorem exists_mem_reachableFrom_iff :
    (∃ n ∈ g.reachableFrom start, n.same b = true) ↔ g.Reaches start b := by
  have hkeys : (∃ n ∈ g.reachableFrom start, n.same b = true) ↔
      b.key ∈ (g.reachableFrom start).map Node.key := by
    simp only [List.mem_map, Node.same_iff]
  rw [hkeys, map_key_reachableFrom, Std.ExtTreeSet.mem_toList, mem_reach, reaches_iff_path]

theorem pairwise_reachableFrom :
    (g.reachableFrom start).Pairwise fun n m => compare n m = .lt := by
  have hsorted : ((g.reachableFrom start).map Node.key).Pairwise fun k l => compare k l = .lt := by
    rw [map_key_reachableFrom]
    exact Std.ExtTreeSet.ordered_toList
  exact List.pairwise_map.1 hsorted

/-- A path from the outside to the calls through pointers ends with an edge of the graph. -/
theorem exists_pointer_caller (h : g.isDispatchReachable = true) :
    ∃ n ∈ g.nodes, g.hasEdge n .internalDispatch = true := by
  obtain heq | ⟨k, _, hlast⟩ := Relation.ReflTransGen.cases_tail (isDispatchReachable_iff.1 h)
  · exact absurd heq (by decide)
  · have hkey : k ∈ g.nodeKeys := mem_nodeKeys.2 (.inr (.inl (mem_edges_of_mem_targets hlast)))
    refine ⟨.ofKey k, mem_nodes.2 ⟨k, hkey, rfl⟩, hasEdge_iff.2 ?_⟩
    rw [Node.key_ofKey]
    exact hlast

/-- **Reachability is exact.**  From every start, in every graph, exactly those nodes are reached
that a path leads to, so calls through pointers are if a path leads to them from the outside.  In a
graph that was built they are as soon as some node calls through a pointer. -/
theorem reached_exactly_by_paths (g : CallGraph) :
    (∀ start, (∀ m, (∃ n ∈ g.reachableFrom start, n.same m = true) ↔ g.Reaches start m) ∧
      (g.reachableFrom start).Pairwise fun n m => compare n m = .lt) ∧
    (g.isDispatchReachable = true ↔ g.Reaches .entry .internalDispatch) ∧
    ∀ steps t contract, Tree.ofSteps steps = .ok t → t.Builds contract g →
      (g.isDispatchReachable = true ↔ ∃ n ∈ g.nodes, g.hasEdge n .internalDispatch = true) := by
  refine ⟨fun start => ⟨fun m => exists_mem_reachableFrom_iff, pairwise_reachableFrom⟩, ?_, ?_⟩
  · rw [reaches_iff_path]
    exact isDispatchReachable_iff
  · intro steps t contract ht hg
    refine ⟨exists_pointer_caller, ?_⟩
    rintro ⟨n, _, hedge⟩
    obtain ⟨r, seeds, carried, build, hstarts, hfinished, rfl⟩ :=
      hg.exists_finished (Tree.wellFormed_of_ofSteps ht)
    rw [hfinished.isDispatchReachable_iff hstarts, internalDispatch_mem_nodes]
    exact mem_nodeKeys.2 (.inr (.inr ⟨n.key, hasEdge_iff.1 hedge⟩))

/-- In the token a function runs in circles with its modifier, and calls a pointer. -/
theorem token_reached_exactly_by_paths :
    (Token.deployed.isDispatchReachable = true ↔
      ∃ n ∈ Token.deployed.nodes, Token.deployed.hasEdge n .internalDispatch = true) ∧
    Token.deployed.Reaches .entry .internalDispatch ∧
    (∃ n ∈ Token.deployed.reachableFrom (.callable ⟨2⟩), n.same .internalDispatch = true) ∧
    ∃ n ∈ Token.deployed.reachableFrom (.callable ⟨7⟩), n.same (.callable ⟨7⟩) = true := by
  obtain ⟨hreached, hdispatch, hbuilt⟩ := reached_exactly_by_paths Token.deployed
  have hreach : Token.deployed.isDispatchReachable = true := by cbv
  have hmodifier : Token.deployed.hasEdge (.callable ⟨2⟩) (.callable ⟨6⟩) = true := by cbv
  have hpointer : Token.deployed.hasEdge (.callable ⟨6⟩) .internalDispatch = true := by cbv
  refine ⟨hbuilt _ _ ⟨4⟩ Token.ofSteps_steps (.inr ⟨_, _, Token.deploymentGraph_tree⟩),
    hdispatch.1 hreach, ((hreached _).1 _).2 ?_, ((hreached _).1 _).2 (.same rfl)⟩
  exact .edge (.edge (.same rfl) hmodifier) hpointer

end CallGraph

end ContractCalls
