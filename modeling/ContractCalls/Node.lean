import ContractCalls.DeclId

/-!
# Nodes

A node of a call graph is a callable, the outside that starts an execution (`entry`),
or the routine that calls through function pointers go through (`internalDispatch`).

Nodes are compared by a key: a callable has its id, the other two have ids that no
declaration can have, so they come first, `internalDispatch` before `entry`.  A node
made as `callable` under one of these two ids is the same as the node it stands for,
though it is still written as it was made.  `Node.ofKey` is the usual node of a key.
-/

namespace ContractCalls

inductive Node where
  | callable (id : DeclId)
  /-- The outside. -/
  | entry
  /-- The routine behind calls through function pointers. -/
  | internalDispatch
  deriving DecidableEq

namespace Node

def entryKey : DeclId := ⟨-1⟩

def internalDispatchKey : DeclId := ⟨-2⟩

/-- What a node is compared by. -/
def key : Node → DeclId
  | callable id => id
  | entry => entryKey
  | internalDispatch => internalDispatchKey

/-- The usual node of a key. -/
def ofKey (key : DeclId) : Node :=
  if key = entryKey then entry
  else if key = internalDispatchKey then internalDispatch
  else callable key

@[simp] theorem key_ofKey (k : DeclId) : (ofKey k).key = k := by
  unfold ofKey
  split
  · simp_all [key]
  · split <;> simp_all [key]

/-- The id of a node made as a callable. -/
def callable? : Node → Option DeclId
  | callable id => some id
  | _ => none

/-- The node is none that was made as a callable. -/
def isSpecial : Node → Bool
  | callable _ => false
  | _ => true

/-- The nodes are the same one. -/
def same (a b : Node) : Bool := a.key == b.key

instance : Ord Node := ⟨fun a b => compare a.key b.key⟩

/-- The nodes in ascending order; those that are the same keep their order. -/
def sort (nodes : List Node) : List Node := nodes.mergeSort fun a b => (compare a b).isLE

/-- The set that nodes make when the same ones are counted once. -/
def keys (nodes : List Node) : IdSet := .ofList (nodes.map key)

instance : ToString Node where
  toString
    | callable id => toString id
    | entry => "Entry"
    | internalDispatch => "InternalDispatch"

end Node

end ContractCalls
