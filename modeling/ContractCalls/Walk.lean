import ContractCalls.Occurrence

/-!
# Walks

A walk takes a visitor through code.  The visitor is shown every occurrence, in the
order of reading, and may fail or keep a state: it is a function into a monad.  Its
answer matters at a call and at an `emit`, where `false` keeps the walk out of what
lies below them.

A `Sight` is what the visitor is shown: the occurrence, with the rest of the
expression that it is read off.
-/

namespace ContractCalls

inductive Sight where
  /-- A call, or what is written like one. -/
  | call (note : Note) (callee : Expr) (args : List Expr) (kind : CallKind)
  | identifier (note : Note) (ref : Reference)
  | member (note : Note) (inner : Expr) (ref : Reference)
  | creation (name : String) (contract : Option DeclId)
  | emission (event : Expr)
  | placeholder
  | invocation (i : Invocation)
  deriving DecidableEq

namespace Sight

def occurrence : Sight → Occurrence
  | call _ callee args kind => .call callee args kind
  | identifier note ref => .identifier note ref
  | member note _ ref => .member note ref
  | creation name contract => .creation name contract
  | emission event => .emission event
  | placeholder => .placeholder
  | invocation i => .invocation i

instance : Coe Sight Occurrence := ⟨occurrence⟩

end Sight

variable {m : Type → Type} [Monad m]

/-- What is shown each sight, and answers whether to go on below it. -/
abbrev Visitor (m : Type → Type) := Sight → m Bool

namespace Visitor

def leaf (visit : Visitor m) (s : Sight) : m Unit := do
  let _ ← visit s

/-- Shows a sight, then walks what lies below if the visitor says so. -/
def node (visit : Visitor m) (s : Sight) (below : m Unit) : m Unit := do
  if ← visit s then below

end Visitor

namespace Expr

mutual

/-- Takes a visitor through an expression. -/
def walk (visit : Visitor m) : Expr → m Unit
  | literal .. => pure ()
  | typeName .. => pure ()
  | identifier note ref => visit.leaf (.identifier note ref)
  | member note inner ref => do
    walk visit inner
    visit.leaf (.member note inner ref)
  | call note callee args kind =>
    visit.node (.call note callee args kind) do
      walk visit callee
      walkList visit args
  | new _ name contract => visit.leaf (.creation name contract)
  | index _ base i => do
    walk visit base
    walkOption visit i
  | unary _ _ operand => walk visit operand
  | binary _ left _ right => do
    walk visit left
    walk visit right
  | assign _ left _ right => do
    walk visit left
    walk visit right
  | conditional _ condition yes no => do
    walk visit condition
    walk visit yes
    walk visit no
  | tuple _ items => walkItems visit items

def walkList (visit : Visitor m) : List Expr → m Unit
  | [] => pure ()
  | e :: es => do
    walk visit e
    walkList visit es

def walkOption (visit : Visitor m) : Option Expr → m Unit
  | none => pure ()
  | some e => walk visit e

def walkItems (visit : Visitor m) : List (Option Expr) → m Unit
  | [] => pure ()
  | e :: es => do
    walkOption visit e
    walkItems visit es

end

end Expr

namespace Stmt

mutual

/-- Takes a visitor through a statement. -/
def walk (visit : Visitor m) : Stmt → m Unit
  | block body => walkBlock visit body
  | unchecked body => walkBlock visit body
  | placeholder => visit.leaf .placeholder
  | eval e => e.walk visit
  | locals _ value => Expr.walkOption visit value
  | branch condition yes no => do
    condition.walk visit
    walk visit yes
    walkOption visit no
  | whileLoop condition body => do
    condition.walk visit
    walk visit body
  | doWhile body condition => do
    walk visit body
    condition.walk visit
  | forLoop start condition step body => do
    walkOption visit start
    Expr.walkOption visit condition
    Expr.walkOption visit step
    walk visit body
  | returnValue value => Expr.walkOption visit value
  | emit event => visit.node (.emission event) (event.walk visit)
  | revert error => error.walk visit
  | breakLoop => pure ()
  | continueLoop => pure ()

def walkBlock (visit : Visitor m) : List Stmt → m Unit
  | [] => pure ()
  | s :: rest => do
    walk visit s
    walkBlock visit rest

def walkOption (visit : Visitor m) : Option Stmt → m Unit
  | none => pure ()
  | some s => walk visit s

end

end Stmt

def Block.walk (visit : Visitor m) (body : Block) : m Unit := Stmt.walkBlock visit body

/-- Takes a visitor through the arguments of an invocation, then to the invocation. -/
def Invocation.walk (visit : Visitor m) (i : Invocation) : m Unit := do
  Expr.walkList visit i.args
  visit.leaf (.invocation i)

/-- Takes a visitor through the invocations of a function, then through its body. -/
def Function.walk (visit : Visitor m) (f : Function) : m Unit := do
  f.invocations.forM (Invocation.walk visit)
  Block.walk visit (f.body.getD [])

def Modifier.walk (visit : Visitor m) (modifier : Modifier) : m Unit :=
  Block.walk visit (modifier.body.getD [])

end ContractCalls
