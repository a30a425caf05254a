import ContractCalls.Inheritance.Merge
import ContractCalls.Tree

/-!
# Linearization

The order of a contract is the contract itself, followed by the merge of the orders
of its direct bases and of the list of these bases, the base written last coming
first.  `Tree.linearize` gives every contract of a tree its order.

`orderOf` finds the order of one contract, `ordersOf` those of several.  They keep the
orders that are finished, and the set of the contracts that are begun: a contract that
is met again before it is finished inherits from itself.
-/

namespace ContractCalls

/-- The orders that are finished. -/
abbrev Orders := IdMap (List DeclId)

namespace Tree

mutual

/-- The order of the contract `id`, together with all orders that are known then.  The
contracts in `opened` are begun and not finished. -/
def orderOf (t : Tree) (opened : IdSet) (known : Orders) (id : DeclId) :
    Except Error (Orders × List DeclId) :=
  match known[id]? with
  | some order => .ok (known, order)
  | none =>
    if _hopen : opened.contains id then .error (.cyclicInheritance id)
    else
      match _hc : t.contract? id with
      | none => .error (.unexpected id (.kind .contract))
      | some c =>
        match ordersOf t (opened.insert id) known c.baseIds.reverse with
        | .error e => .error e
        | .ok (known, sequences) =>
          match Inheritance.merge (sequences ++ [c.baseIds.reverse]) with
          | none => .error (.noBaseOrder id)
          | some tail => .ok (known.insert id (id :: tail), id :: tail)
termination_by (t.remaining opened.contains, 0)
decreasing_by
  refine Prod.Lex.left _ _ (remaining_lt (fun _ h => ?_) (declares_of_contract? _hc) ?_ ?_)
  · simpa using Or.inr h
  · exact eq_false_of_ne_true _hopen
  · simp

def ordersOf (t : Tree) (opened : IdSet) (known : Orders) :
    List DeclId → Except Error (Orders × List (List DeclId))
  | [] => .ok (known, [])
  | id :: rest =>
    match orderOf t opened known id with
    | .error e => .error e
    | .ok (known, order) =>
      match ordersOf t opened known rest with
      | .error e => .error e
      | .ok (known, others) => .ok (known, order :: others)
termination_by ids => (t.remaining opened.contains, ids.length + 1)
decreasing_by
  · exact Prod.Lex.right _ (by simp)
  · exact Prod.Lex.right _ (by simp)

end

/-- A declaration, with its order if it is a contract. -/
def ordered (known : Orders) : Declaration → Declaration
  | .contract c => .contract { c with linearized := known[c.id]?.getD [] }
  | d => d

/-- The tree in which every contract has its order. -/
def linearize (t : Tree) : Except Error Tree := do
  let (known, _) ← t.ordersOf ∅ ∅ t.contractIds.toList
  .ok { t with declarations := t.declarations.map (ordered known) }

end Tree

end ContractCalls
