import ContractCalls.Error
import ContractCalls.Stmt

/-!
# Declarations

Contracts with their functions, modifiers, events and state variables, and the
functions, events and constants outside of contracts.  A declaration holds its own
id, and refers to others by their ids.

* `Callable` is a function or a modifier: what a call graph has nodes for.
* `Contract.canBeDeployed` tells the contracts that bytecode is made for.
* `Function.flags` and its siblings encode the attributes of a declaration as bits.
-/

namespace ContractCalls

/-- Who can use a function or a state variable. -/
inductive Visibility where
  | external
  | «public»
  | internal
  | «private»
  deriving DecidableEq

namespace Visibility

def all : List Visibility := [.external, .public, .internal, .private]

def isExternallyVisible : Visibility → Bool
  | .external | .public => true
  | .internal | .private => false

end Visibility

inductive FunctionKind where
  | function
  | constructor
  | fallback
  | receive
  deriving DecidableEq

namespace FunctionKind

def all : List FunctionKind := [function, constructor, fallback, receive]

end FunctionKind

inductive ContractKind where
  | contract
  | interface
  | library
  deriving DecidableEq

namespace ContractKind

def all : List ContractKind := [contract, interface, library]

end ContractKind

structure Param where
  name : String
  typeName : String
  deriving DecidableEq

/-- A base in the list after `is`, with the arguments for its constructor. -/
structure Base where
  contract : DeclId
  args : List Expr
  deriving DecidableEq

/-- A modifier, or the constructor of a base, named in the head of a function. -/
structure Invocation where
  ref : Reference
  args : List Expr
  deriving DecidableEq

/-- A contract, an interface or a library. -/
structure Contract where
  id : DeclId
  name : String
  kind : ContractKind
  isAbstract : Bool
  bases : List Base
  /-- The contract and all its bases, most derived first. -/
  linearized : List DeclId
  functions : List DeclId
  modifiers : List DeclId
  events : List DeclId
  stateVariables : List DeclId
  deriving DecidableEq

/-- A function, a constructor, a fallback or a receive function. -/
structure Function where
  id : DeclId
  /-- The name; empty for all but plain functions. -/
  name : String
  scope : Option DeclId
  kind : FunctionKind
  visibility : Visibility
  isVirtual : Bool
  overrides : List DeclId
  params : List Param
  invocations : List Invocation
  /-- The body, unless the function is only announced. -/
  body : Option Block
  deriving DecidableEq

structure Modifier where
  id : DeclId
  name : String
  scope : DeclId
  isVirtual : Bool
  overrides : List DeclId
  params : List Param
  body : Option Block
  deriving DecidableEq

structure Event where
  id : DeclId
  name : String
  scope : Option DeclId
  params : List Param
  deriving DecidableEq

/-- A state variable, or a constant outside of contracts. -/
structure Variable where
  id : DeclId
  name : String
  scope : Option DeclId
  typeName : String
  visibility : Visibility
  isConstant : Bool
  isImmutable : Bool
  /-- The functions that the getter of the variable overrides. -/
  overrides : List DeclId
  value : Option Expr
  deriving DecidableEq

inductive Declaration where
  | contract (c : Contract)
  | function (f : Function)
  | modifier (m : Modifier)
  | event (e : Event)
  | variable (v : Variable)
  deriving DecidableEq

/-- A function or a modifier. -/
inductive Callable where
  | function (f : Function)
  | modifier (m : Modifier)
  deriving DecidableEq

namespace Contract

/-- Bytecode is made for the contract. -/
def canBeDeployed (c : Contract) : Bool := !c.isAbstract && c.kind != .interface

def baseIds (c : Contract) : List DeclId := c.bases.map Base.contract

/-- The ids of the callables, functions before modifiers. -/
def callables (c : Contract) : List DeclId := c.functions ++ c.modifiers

end Contract

/-! ### Attribute bits -/

def virtualBit : Nat := 1

def constantBit : Nat := 2

def immutableBit : Nat := 4

namespace Function

/-- The function stands outside of contracts. -/
def isFree (f : Function) : Bool := f.scope.isNone

def isImplemented (f : Function) : Bool := f.body.isSome

/-- The attributes as bits. -/
def flags (f : Function) : Nat := if f.isVirtual then virtualBit else 0

end Function

namespace Modifier

/-- Control can go on into the modified function. -/
def hasPlaceholder (m : Modifier) : Bool := m.body.any Block.hasPlaceholder

def flags (m : Modifier) : Nat := if m.isVirtual then virtualBit else 0

end Modifier

namespace Variable

def flags (v : Variable) : Nat :=
  (if v.isConstant then constantBit else 0) + (if v.isImmutable then immutableBit else 0)

end Variable

namespace Declaration

def id : Declaration → DeclId
  | .contract c => c.id
  | .function f => f.id
  | .modifier m => m.id
  | .event e => e.id
  | .variable v => v.id

def name : Declaration → String
  | .contract c => c.name
  | .function f => f.name
  | .modifier m => m.name
  | .event e => e.name
  | .variable v => v.name

def kind : Declaration → DeclKind
  | .contract _ => .contract
  | .function _ => .function
  | .modifier _ => .modifier
  | .event _ => .event
  | .variable _ => .variable

def contract? : Declaration → Option Contract
  | .contract c => some c
  | _ => none

def function? : Declaration → Option Function
  | .function f => some f
  | _ => none

def modifier? : Declaration → Option Modifier
  | .modifier m => some m
  | _ => none

def event? : Declaration → Option Event
  | .event e => some e
  | _ => none

def var? : Declaration → Option Variable
  | .variable v => some v
  | _ => none

def callable? : Declaration → Option Callable
  | .function f => some (.function f)
  | .modifier m => some (.modifier m)
  | _ => none

end Declaration

namespace Callable

def id : Callable → DeclId
  | function f => f.id
  | modifier m => m.id

def name : Callable → String
  | function f => f.name
  | modifier m => m.name

def scope : Callable → Option DeclId
  | function f => f.scope
  | modifier m => some m.scope

def overrides : Callable → List DeclId
  | function f => f.overrides
  | modifier m => m.overrides

def params : Callable → List Param
  | function f => f.params
  | modifier m => m.params

def isVirtual : Callable → Bool
  | function f => f.isVirtual
  | modifier m => m.isVirtual

end Callable

end ContractCalls
