import ContractCalls.Error
import ContractCalls.Expr
import ContractCalls.Node

/-!
# Call sites

A `CallSite` is one reference to a callable that was found while the code of a node
was read: who refers, in which way, and to what.  `CallSite.edge?` is the edge it
stands for.  A reference made by calling starts at the node that was read; one that
only takes a function as a value starts at `internalDispatch`.
-/

namespace ContractCalls

/-- The ways in which code refers to a callable. -/
inductive SiteKind where
  /-- The callable is called on the spot. -/
  | direct
  /-- The callable is used as a value. -/
  | reference
  | indirect
  | modifier
  /-- A modifier goes on into the function it is attached to. -/
  | placeholder
  | external
  deriving DecidableEq

namespace SiteKind

def all : List SiteKind := [direct, reference, indirect, modifier, placeholder, external]

def ofReference (calledDirectly : Bool) : SiteKind :=
  if calledDirectly then direct else reference

/-- The way in which a call refers, by the note on its callee.  What only looks like a
call refers in no way, and a call needs a function type. -/
def ofCall (callee : Note) (kind : CallKind) : Except Error (Option SiteKind) :=
  match kind, callee.functionType with
  | .conversion, _ | .construction, _ => .ok none
  | .function, none => .error (.inconsistent .untypedCall)
  | .function, some .internal => .ok (some (if callee.calledDirectly then direct else indirect))
  | .function, some _ => .ok (some external)

def hasEdge : SiteKind → Bool
  | external => false
  | _ => true

end SiteKind

inductive Target where
  /-- A callable: the one that is named, and the one that runs. -/
  | callable (declared target : DeclId)
  /-- Whatever a function pointer holds. -/
  | internalDispatch
  | outside
  deriving DecidableEq

namespace Target

def exact (id : DeclId) : Target := callable id id

/-- The callable that runs. -/
def callable? : Target → Option DeclId
  | callable _ target => some target
  | _ => none

def node? : Target → Option Node
  | callable _ target => some (.callable target)
  | internalDispatch => some .internalDispatch
  | outside => none

/-- Another callable runs than the one that is named. -/
def isDispatched : Target → Bool
  | callable declared target => declared != target
  | _ => false

end Target

/-- A reference found in the code of a node. -/
structure CallSite where
  caller : Node
  kind : SiteKind
  target : Target
  deriving DecidableEq

namespace CallSite

/-- The edge that a reference stands for. -/
def edge? (site : CallSite) : Option (Node × Node) :=
  match site.target.node?, site.kind with
  | none, _ | _, .external => none
  | some target, .direct | some target, .modifier | some target, .placeholder =>
    some (site.caller, target)
  | some target, .reference => some (.internalDispatch, target)
  | some _, .indirect => some (site.caller, .internalDispatch)

def isDispatched (site : CallSite) : Bool := site.target.isDispatched

end CallSite

end ContractCalls
