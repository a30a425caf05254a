import ContractCalls.Declaration

/-!
# What occurs in code

A call graph is read off a few kinds of thing that occur in code: calls, names,
members, `new`, `emit`, placeholders and modifier invocations.  `Occurrence` is one
of them, and `occurrences` lists those of an expression, a statement, a block or a
callable in the order in which the code is read:

* a call comes before its callee, the callee before the arguments;
* a member comes after the expression it is a member of;
* an `emit` comes before the call it holds;
* an invocation comes after its arguments, and all invocations before the body;
* the body of a `do` loop comes before its condition, and the step of a counting loop
  before its body.
-/

namespace ContractCalls

/-- A thing in code that matters for calls. -/
inductive Occurrence where
  /-- A call, or what is written like one. -/
  | call (callee : Expr) (args : List Expr) (kind : CallKind)
  | identifier (note : Note) (ref : Reference)
  | member (note : Note) (ref : Reference)
  /-- `new T`, with the contract `T` names, if it names one. -/
  | creation (name : String) (contract : Option DeclId)
  | emission (event : Expr)
  | placeholder
  /-- A modifier or a base constructor in the head of a function. -/
  | invocation (i : Invocation)
  deriving DecidableEq

namespace Expr

mutual

def occurrences : Expr → List Occurrence
  | literal .. => []
  | typeName .. => []
  | identifier note ref => [.identifier note ref]
  | member note inner ref => occurrences inner ++ [.member note ref]
  | call _ callee args kind =>
    .call callee args kind :: (occurrences callee ++ listOccurrences args)
  | new _ name contract => [.creation name contract]
  | index _ base i => occurrences base ++ optionOccurrences i
  | unary _ _ operand => occurrences operand
  | binary _ left _ right => occurrences left ++ occurrences right
  | assign _ left _ right => occurrences left ++ occurrences right
  | conditional _ condition yes no =>
    occurrences condition ++ occurrences yes ++ occurrences no
  | tuple _ items => itemOccurrences items

def listOccurrences : List Expr → List Occurrence
  | [] => []
  | e :: es => occurrences e ++ listOccurrences es

def optionOccurrences : Option Expr → List Occurrence
  | none => []
  | some e => occurrences e

def itemOccurrences : List (Option Expr) → List Occurrence
  | [] => []
  | e :: es => optionOccurrences e ++ itemOccurrences es

end

theorem listOccurrences_eq_flatMap (es : List Expr) :
    listOccurrences es = es.flatMap occurrences := by
  induction es with
  | nil => rfl
  | cons e es ih => simp [listOccurrences, ih]

theorem itemOccurrences_eq_flatMap (es : List (Option Expr)) :
    itemOccurrences es = es.flatMap optionOccurrences := by
  induction es with
  | nil => rfl
  | cons e es ih => simp [itemOccurrences, ih]

end Expr

namespace Stmt

mutual

def occurrences : Stmt → List Occurrence
  | block body => blockOccurrences body
  | unchecked body => blockOccurrences body
  | placeholder => [.placeholder]
  | eval e => e.occurrences
  | locals _ value => Expr.optionOccurrences value
  | branch condition yes no =>
    condition.occurrences ++ occurrences yes ++ optionOccurrences no
  | whileLoop condition body => condition.occurrences ++ occurrences body
  | doWhile body condition => occurrences body ++ condition.occurrences
  | forLoop start condition step body =>
    optionOccurrences start ++ Expr.optionOccurrences condition ++
      Expr.optionOccurrences step ++ occurrences body
  | returnValue value => Expr.optionOccurrences value
  | emit event => .emission event :: event.occurrences
  | revert error => error.occurrences
  | breakLoop => []
  | continueLoop => []

def blockOccurrences : List Stmt → List Occurrence
  | [] => []
  | s :: rest => occurrences s ++ blockOccurrences rest

def optionOccurrences : Option Stmt → List Occurrence
  | none => []
  | some s => occurrences s

end

theorem blockOccurrences_eq_flatMap (body : List Stmt) :
    blockOccurrences body = body.flatMap occurrences := by
  induction body with
  | nil => rfl
  | cons s rest ih => simp [blockOccurrences, ih]

end Stmt

def Block.occurrences (body : Block) : List Occurrence := Stmt.blockOccurrences body

/-- What occurs in an invocation: its arguments, then the invocation itself. -/
def Invocation.occurrences (i : Invocation) : List Occurrence :=
  Expr.listOccurrences i.args ++ [.invocation i]

/-- What occurs in a function: its invocations, then its body. -/
def Function.occurrences (f : Function) : List Occurrence :=
  f.invocations.flatMap Invocation.occurrences ++ (f.body.getD []).occurrences

def Modifier.occurrences (m : Modifier) : List Occurrence := (m.body.getD []).occurrences

def Callable.occurrences : Callable → List Occurrence
  | .function f => f.occurrences
  | .modifier m => m.occurrences

end ContractCalls
