import ContractCalls.Node
import ContractCalls.Tree

/-!
# Labels

The label of a node is what it is called in a drawing.  A callable is written with
its kind, its qualified name and the types of its parameters, such as
`function Token.transfer(address,uint256)` or `constructor Token()`.
-/

namespace ContractCalls

namespace FunctionKind

/-- The word that a label begins with. -/
def keyword : FunctionKind → String
  | function => "function"
  | constructor => "constructor"
  | fallback => "fallback"
  | receive => "receive"

end FunctionKind

def Param.typeList (params : List Param) : String :=
  "(" ++ ",".intercalate (params.map Param.typeName) ++ ")"

namespace Tree

def contractNameOf (t : Tree) (c : Callable) : Option String :=
  (c.scope.bind t.contract?).map Contract.name

/-- The name of a callable with that of its contract before it.  A callable without a
name goes by its id. -/
def qualifiedName (t : Tree) (c : Callable) (id : DeclId) : String :=
  let name := if c.name.isEmpty then toString id else c.name
  match t.contractNameOf c with
  | none => name
  | some contract => contract ++ "." ++ name

def callableLabel (t : Tree) (c : Callable) (id : DeclId) : String :=
  let head :=
    match c with
    | .modifier _ => "modifier " ++ t.qualifiedName c id
    | .function f =>
      match f.kind with
      | .function => f.kind.keyword ++ " " ++ t.qualifiedName c id
      | .constructor | .fallback | .receive =>
        f.kind.keyword ++ " " ++ (t.contractNameOf c).getD ""
  head ++ Param.typeList c.params

/-- The label of a node, with the names that the tree has for it. -/
def label (t : Tree) : Node → String
  | .callable id =>
    match t.callable? id with
    | none => s!"<unknown {id}>"
    | some c => t.callableLabel c id
  | node => toString node

end Tree

end ContractCalls
