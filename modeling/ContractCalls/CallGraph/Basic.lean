import ContractCalls.Node

/-!
# Call graphs

A `CallGraph` says what can run in one contract, either while it is constructed or
once it is deployed: which callables, which of them can cause which others to run,
and what they do besides.

The edges are kept by the keys of their nodes.  A callable that can run has an entry,
with an empty set if it causes nothing to run; so to have no callees is not the same
as to be absent.  `targets_addEdge` and `contains_addEdge` say what an edge adds, and
`targets_addCallable` that an entry adds no edge.

`CallGraph.Same` says when two graphs are the same: the name of the contract does not
count.
-/

namespace ContractCalls

/-- What can run in a contract. -/
structure CallGraph where
  contract : DeclId
  name : String
  /-- The keys of the callees, by the key of the caller. -/
  edges : IdMap IdSet := ∅
  created : IdSet := ∅
  emitted : IdSet := ∅
  /-- The callables that are taken as function pointers. -/
  pointers : IdSet := ∅
  deriving DecidableEq

namespace CallGraph

/-- The graphs tell the same about the same contract. -/
def Same (g h : CallGraph) : Prop :=
  g.contract = h.contract ∧ g.edges = h.edges ∧ g.created = h.created ∧
    g.emitted = h.emitted ∧ g.pointers = h.pointers

instance : DecidableRel Same := fun g h =>
  inferInstanceAs (Decidable (g.contract = h.contract ∧ g.edges = h.edges ∧
    g.created = h.created ∧ g.emitted = h.emitted ∧ g.pointers = h.pointers))

/-! ### Growing -/

def addCallable (g : CallGraph) (id : DeclId) : CallGraph :=
  { g with edges := g.edges.insertIfNew id ∅ }

def addEdge (g : CallGraph) (caller callee : DeclId) : CallGraph :=
  { g with edges := g.edges.alter caller fun callees => some ((callees.getD ∅).insert callee) }

/-! ### Neighbours -/

/-- The keys of the callees of a node. -/
def targets (g : CallGraph) (key : DeclId) : IdSet := g.edges[key]?.getD ∅

theorem contains_addCallable (g : CallGraph) (id k : DeclId) :
    (g.addCallable id).edges.contains k = (id == k || g.edges.contains k) := by
  rw [Bool.eq_iff_iff]
  simp [addCallable]

theorem contains_addEdge (g : CallGraph) (caller callee k : DeclId) :
    (g.addEdge caller callee).edges.contains k = (caller == k || g.edges.contains k) := by
  simp only [addEdge, Std.ExtTreeMap.contains_alter]
  by_cases h : caller = k <;> simp [h]

@[simp] theorem targets_addCallable (g : CallGraph) (id k : DeclId) :
    (g.addCallable id).targets k = g.targets k := by
  simp only [targets, addCallable, Std.ExtTreeMap.getElem?_insertIfNew]
  split
  next h =>
    obtain ⟨hid, hnew⟩ := h
    obtain rfl : id = k := by simpa using hid
    rw [Std.ExtTreeMap.getElem?_eq_none hnew]
    rfl
  · rfl

theorem targets_addEdge (g : CallGraph) (caller callee k : DeclId) :
    (g.addEdge caller callee).targets k =
      if caller = k then (g.targets k).insert callee else g.targets k := by
  simp only [targets, addEdge, Std.ExtTreeMap.getElem?_alter]
  by_cases h : caller = k <;> simp [h]

def callees (g : CallGraph) (n : Node) : List Node := (g.targets n.key).toList.map .ofKey

def callers (g : CallGraph) (n : Node) : List Node :=
  (g.edges.toList.filter fun entry => entry.2.contains n.key).map fun entry => .ofKey entry.1

def hasEdge (g : CallGraph) (caller callee : Node) : Bool :=
  (g.targets caller.key).contains callee.key

/-! ### Nodes -/

/-- The key is that of a caller or a callee. -/
def touches (g : CallGraph) (key : DeclId) : Bool :=
  g.edges.contains key || g.edges.toList.any fun entry => entry.2.contains key

/-- The node is part of the graph.  `entry` always is. -/
def contains (g : CallGraph) (n : Node) : Bool := n == .entry || g.touches n.key

def nodeKeys (g : CallGraph) : IdSet :=
  .ofList (Node.entryKey :: g.edges.toList.flatMap fun entry => entry.1 :: entry.2.toList)

/-- All nodes, in ascending order. -/
def nodes (g : CallGraph) : List Node := g.nodeKeys.toList.map .ofKey

def callables (g : CallGraph) : List DeclId :=
  (g.edges.keys.map Node.ofKey).filterMap Node.callable?

/-- The callables that a call through a function pointer can run. -/
def dispatchTargets (g : CallGraph) : List DeclId :=
  (g.callees .internalDispatch).filterMap Node.callable?

def adjacency (g : CallGraph) : List (Node × List Node) :=
  g.edges.toList.map fun entry => (.ofKey entry.1, entry.2.toList.map .ofKey)

def edgeCount (g : CallGraph) : Nat := (g.edges.toList.flatMap fun entry => entry.2.toList).length

end CallGraph

end ContractCalls
