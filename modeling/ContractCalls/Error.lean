import ContractCalls.DeclId

/-!
# What can be wrong with a program

An `Error` is the cause for which a tree is refused or a build is stopped.  Every
cause says which declarations it is about; `Error.message` is its one wording.

The causes collected in `Fault` are the ones where code carries a note that is
missing or contradicts the tree.

A build has one more way not to give a graph.  A constant that is read stands for its
initializer, and nothing keeps an initializer from naming its own constant.  The reading
of such a constant never ends: a build that comes to it answers nothing, not even an
error.  `Failure` has both ways.
-/

namespace ContractCalls

inductive DeclKind where
  | contract
  | function
  | modifier
  | event
  | variable
  deriving DecidableEq

namespace DeclKind

def name : DeclKind → String
  | .contract => "contract"
  | .function => "function"
  | .modifier => "modifier"
  | .event => "event"
  | .variable => "variable"

end DeclKind

/-- What an id was expected to name: one kind of declaration, or a callable, which
is a function or a modifier. -/
inductive Expectation where
  | kind (k : DeclKind)
  | callable
  deriving DecidableEq

namespace Expectation

def name : Expectation → String
  | kind k => k.name
  | callable => "callable"

end Expectation

/-- A note on the code that is missing or contradicts the tree. -/
inductive Fault where
  /-- A function call whose callee has no function type. -/
  | untypedCall
  | emitWithoutCall
  /-- An `emit` of a call whose callee names no declaration. -/
  | unresolvedEvent
  | emitOf (kind : DeclKind) (id : DeclId)
  | unresolvedModifier (name : String)
  | modifierOutsideFunction (name : String)
  /-- A `super` lookup written in a contract that is not among the bases. -/
  | superOutsideBases (scope : DeclId) (contract : String)
  /-- A `super` lookup that finds no callable after its contract. -/
  | noImplementation (id scope : DeclId) (contract : String)
  deriving DecidableEq

namespace Fault

def message : Fault → String
  | untypedCall => "function call without a resolved callee function type"
  | emitWithoutCall => "emit statement without an event call"
  | unresolvedEvent => "emit statement with an unresolved event"
  | emitOf kind id => s!"emit statement names {kind.name} {id} instead of an event"
  | unresolvedModifier name => s!"modifier invocation {name} without a resolved declaration"
  | modifierOutsideFunction name => s!"modifier invocation {name} outside of a function"
  | superOutsideBases scope contract =>
    s!"super reference in contract {scope} which is not a base of {contract}"
  | noImplementation id scope contract =>
    s!"no implementation of {id} after {scope} in the linearization of {contract}"

end Fault

/-- Why a tree or a graph could not be made. -/
inductive Error where
  | inconsistent (fault : Fault)
  | notFound (id : DeclId)
  | unexpected (id : DeclId) (expected : Expectation)
  | cyclicInheritance (id : DeclId)
  /-- No order of the contract's bases respects its own list and those of its bases. -/
  | noBaseOrder (id : DeclId)
  /-- A graph of another contract was handed in as the creation graph. -/
  | contractMismatch (expected found : DeclId)
  deriving DecidableEq

namespace Error

def message : Error → String
  | inconsistent fault => fault.message
  | notFound id => s!"Declaration not found in syntax tree - {id}"
  | unexpected id expected => s!"Declaration {id} is not a {expected.name}"
  | cyclicInheritance id =>
    s!"Failed to linearize inheritance - cyclic inheritance through contract {id}"
  | noBaseOrder id =>
    s!"Failed to linearize inheritance - no consistent base order for contract {id}"
  | contractMismatch expected found =>
    s!"Creation graph belongs to contract {found}, expected {expected}"

end Error

/-- Why a build gives no graph. -/
inductive Failure where
  | error (e : Error)
  /-- It never stops: the constant is named where its own initializer is being read. -/
  | endless (constant : DeclId)
  deriving DecidableEq

instance : Coe Error Failure := ⟨.error⟩

theorem Failure.exists_error {e : Failure} (h : ∀ constant, e ≠ .endless constant) :
    ∃ err : Error, e = err := by
  cases e with
  | error err => exact ⟨err, rfl⟩
  | endless constant => exact absurd rfl (h constant)

end ContractCalls
