import ContractCalls.Tree

/-!
# Families of overridden callables

The family of a callable holds the callable and everything it overrides, directly or
through others.  `Tree.family` collects it, and fails when an id on the way names no
callable.  The lists of overrides may run in circles.
-/

namespace ContractCalls
namespace Tree

/-- The ids in `seen`, and what is reached from `stack` through overrides. -/
def collectFamily (t : Tree) (seen : IdSet) : List DeclId → Except Error IdSet
  | [] => .ok seen
  | id :: stack =>
    if _hseen : seen.contains id then collectFamily t seen stack
    else
      match _hc : t.requireCallable id with
      | .error e => .error e
      | .ok c => collectFamily t (seen.insert id) (c.overrides.reverse ++ stack)
termination_by stack => (t.remaining seen.contains, stack.length)
decreasing_by
  · exact Prod.Lex.right _ (by simp)
  · refine Prod.Lex.left _ _ (remaining_lt (fun _ h => ?_) (declares_of_require _hc) ?_ ?_)
    · simpa using Or.inr h
    · exact eq_false_of_ne_true _hseen
    · simp

/-- The callable `id` and all that it overrides. -/
def family (t : Tree) (id : DeclId) : Except Error IdSet := t.collectFamily ∅ [id]

end Tree
end ContractCalls
