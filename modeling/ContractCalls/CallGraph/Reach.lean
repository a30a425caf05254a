import ContractCalls.CallGraph.Basic
import ContractCalls.Marks

/-!
# What can be reached

`CallGraph.reach` is the set of keys that lead from a node, along any number of
edges.  The start is among them, whether it is part of the graph or not.
-/

namespace ContractCalls
namespace CallGraph

/-- The keys in `reached`, and what is reached from `queue`. -/
def collect (g : CallGraph) (reached : IdSet) : List DeclId → IdSet
  | [] => reached
  | key :: queue =>
    if _hreached : reached.contains key then collect g reached queue
    else
      match _hkey : g.edges[key]? with
      | none => collect g (reached.insert key) queue
      | some callees => collect g (reached.insert key) (queue ++ callees.toList)
termination_by queue => (unmarked reached.contains g.edges.keys, queue.length)
decreasing_by
  · exact Prod.Lex.right _ (by simp)
  · refine Prod.Lex.right' _ (unmarked_le (fun _ h => ?_) _) (by simp)
    simpa using Or.inr h
  · have hmem : key ∈ g.edges.keys :=
      Std.ExtTreeMap.mem_keys.2 (Std.ExtTreeMap.mem_iff_isSome_getElem?.2 (by simp [_hkey]))
    refine Prod.Lex.left _ _ (unmarked_lt (fun _ h => ?_) hmem ?_ ?_)
    · simpa using Or.inr h
    · exact eq_false_of_ne_true _hreached
    · simp

def reach (g : CallGraph) (start : DeclId) : IdSet := g.collect ∅ [start]

/-- The nodes that lead from `start`, in ascending order; `start` as it was made. -/
def reachableFrom (g : CallGraph) (start : Node) : List Node :=
  (g.reach start.key).toList.map fun key => if key = start.key then start else .ofKey key

/-- What can run can call through a function pointer. -/
def isDispatchReachable (g : CallGraph) : Bool :=
  (g.reach Node.entryKey).contains Node.internalDispatchKey

end CallGraph
end ContractCalls
