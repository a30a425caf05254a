import ContractCalls.CallGraph.Basic
import ContractCalls.Dot.Quoted
import ContractCalls.Label

/-!
# Drawings

`CallGraph.toDot` writes a graph in the DOT language: a head with the title and with
what the code creates and emits, a line for each node, and a line for each edge.
`CallGraph.dotLines` holds the lines, without their ends.

Nodes go by their keys and are labelled as `Tree.label` says.  `entry` is drawn in
green and `internalDispatch` in yellow.
-/

namespace ContractCalls
namespace CallGraph

/-- The text of the label of the whole drawing: the title, and a line for each contract
that is created and each event that is emitted. -/
def dotLabel (g : CallGraph) (names : Tree) (title : String) : String :=
  let creates := g.created.toList.map fun id =>
    "\\ncreates " ++ Dot.escape (((names.contract? id).map Contract.name).getD "?")
  let emits := g.emitted.toList.map fun id =>
    "\\nemits " ++ Dot.escape (((names.event? id).map Event.name).getD "?")
  Dot.escape title ++ String.join creates ++ String.join emits

/-- How a node is drawn, beside its label. -/
def dotStyle : Node → String
  | .entry => ", style=filled, fillcolor=lightgreen"
  | .internalDispatch => ", style=filled, fillcolor=lightyellow"
  | .callable _ => ""

def dotNode (names : Tree) (n : Node) : String :=
  "    \"" ++ toString n.key ++ "\" [label=\"" ++ Dot.escape (names.label n) ++ "\"" ++
    dotStyle n ++ "];"

def dotEdge (caller callee : Node) : String :=
  "    \"" ++ toString caller.key ++ "\" -> \"" ++ toString callee.key ++ "\";"

def dotLines (g : CallGraph) (names : Tree) (title : String) : List String :=
  ["digraph CallGraph \x7b",
    "    label=\"" ++ g.dotLabel names title ++ "\";",
    "    labelloc=t;",
    "    node [shape=box, fontname=\"Courier\", fontsize=10];",
    "    rankdir=TB;",
    ""] ++
  g.nodes.map (dotNode names) ++
  [""] ++
  (g.adjacency.flatMap fun entry => entry.2.map (dotEdge entry.1)) ++
  ["\x7d"]

/-- A graph in the DOT language.  The title is the name of the contract if none is
given. -/
def toDot (g : CallGraph) (names : Tree) (title : Option String) : String :=
  String.join ((g.dotLines names (title.getD g.name)).map (· ++ "\n"))

end CallGraph
end ContractCalls
