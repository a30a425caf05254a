import ContractCalls.CallGraph.Basic

/-!
# Numbers of a graph

`CallGraph.stats` counts the parts of a graph.  `dispatchRate` is the share of the
callables that function pointers lead to, as a percentage in floating point: each of the
two 64-bit numbers is rounded to the nearest double first, and a graph without callables
has the rate zero.
-/

namespace ContractCalls

structure CallGraph.Stats where
  nodes : Nat
  callables : Nat
  edges : Nat
  /-- What the outside calls directly. -/
  entryPoints : Nat
  dispatchTargets : Nat
  /-- The nodes that call through a function pointer. -/
  indirectCallers : Nat
  leafCallables : Nat
  created : Nat
  emitted : Nat
  deriving DecidableEq

/-- The share of `targets` among `callables`, as a percentage. -/
def dispatchRate (targets callables : UInt64) : Float :=
  if callables = 0 then 0.0 else targets.toFloat / callables.toFloat * 100.0

namespace CallGraph

def stats (g : CallGraph) : Stats where
  nodes := g.nodes.length
  callables := g.callables.length
  edges := g.edgeCount
  entryPoints := (g.callees .entry).length
  dispatchTargets := (g.callees .internalDispatch).length
  indirectCallers := (g.edges.toList.filter fun entry =>
    entry.2.contains Node.internalDispatchKey).length
  leafCallables := (g.callables.filter fun id => (g.callees (.callable id)).isEmpty).length
  created := g.created.size
  emitted := g.emitted.size

def Stats.dispatchRate (s : Stats) : Float :=
  ContractCalls.dispatchRate (.ofNat s.dispatchTargets) (.ofNat s.callables)

end CallGraph
end ContractCalls
