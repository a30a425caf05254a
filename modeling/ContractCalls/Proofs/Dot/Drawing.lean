import ContractCalls.Proofs.Dot.Lines
import ContractCalls.Proofs.Graph.Connected

/-!
# Drawings tell the graph

`drawing_tells_graph` is about the drawing of any graph, with the names of any tree and under any
title.  No name ends its quoted string, breaks its line or adds another one, whatever characters it
has: the lines are those of `dotContent`, the labels unescape to what they show, and nodes and edges
are found again in the text.  So graphs with different nodes or edges are drawn differently, even if
one of them has the names for it.

The label of the whole drawing is put together of escaped pieces and of line feeds that are escaped
already; it is nothing but the escaped text of all pieces together (`dotLabel_eq`).
-/

namespace ContractCalls
namespace CallGraph

open Dot

variable {g : CallGraph} {names : Tree} {title : String}

/-! ### What is written -/

/-- The label of the whole drawing as it is meant. -/
def titleText (g : CallGraph) (names : Tree) (title : String) : String :=
  let creates := g.created.toList.map fun id =>
    "\ncreates " ++ ((names.contract? id).map Contract.name).getD "?"
  let emits := g.emitted.toList.map fun id =>
    "\nemits " ++ ((names.event? id).map Event.name).getD "?"
  title ++ String.join creates ++ String.join emits

theorem dotLabel_eq (g : CallGraph) (names : Tree) (title : String) :
    g.dotLabel names title = escape (g.titleText names title) := by
  have hcreates : escape "\ncreates " = "\\ncreates " := by decide
  have hemits : escape "\nemits " = "\\nemits " := by decide
  simp only [dotLabel, titleText, escape_append, escape_join, List.map_map, Function.comp_def,
    hcreates, hemits]

/-- What a drawing is meant to say, line by line. -/
def dotContent (g : CallGraph) (names : Tree) (title : String) : List Line :=
  [Line.other "digraph CallGraph \x7b",
    Line.label (withoutReturns (g.titleText names title)),
    Line.other "    labelloc=t;",
    Line.other "    node [shape=box, fontname=\"Courier\", fontsize=10];",
    Line.other "    rankdir=TB;",
    Line.other ""] ++
  g.nodes.map (fun n => Line.node n.key (withoutReturns (names.label n)) (dotStyle n ++ "];")) ++
  [Line.other ""] ++
  (g.adjacency.flatMap fun entry => entry.2.map fun callee => Line.edge entry.1.key callee.key) ++
  [Line.other "\x7d"]

theorem says_dotLines (g : CallGraph) (names : Tree) (title : String) :
    List.Forall₂ Says (g.dotLines names title) (g.dotContent names title) := by
  have hopening : Says "digraph CallGraph \x7b" (.other "digraph CallGraph \x7b") := by decide
  have hlabel : Says ("    label=\"" ++ g.dotLabel names title ++ "\";")
      (.label (withoutReturns (g.titleText names title))) := by
    rw [dotLabel_eq]
    exact says_label _
  have hplace : Says "    labelloc=t;" (.other "    labelloc=t;") := by decide
  have hshape : Says "    node [shape=box, fontname=\"Courier\", fontsize=10];"
      (.other "    node [shape=box, fontname=\"Courier\", fontsize=10];") := by decide
  have hdirection : Says "    rankdir=TB;" (.other "    rankdir=TB;") := by decide
  have hempty : Says "" (.other "") := by decide
  have hclosing : Says "\x7d" (.other "\x7d") := by decide
  have hnodes : List.Forall₂ Says (g.nodes.map (dotNode names)) (g.nodes.map fun n =>
      .node n.key (withoutReturns (names.label n)) (dotStyle n ++ "];")) := by
    rw [List.forall₂_map_left_iff, List.forall₂_map_right_iff, List.forall₂_same]
    exact fun n _ => says_dotNode names n
  have hedges : List.Forall₂ Says
      (g.adjacency.flatMap fun entry => entry.2.map (dotEdge entry.1))
      (g.adjacency.flatMap fun entry =>
        entry.2.map fun callee => .edge entry.1.key callee.key) := by
    induction g.adjacency with
    | nil => exact .nil
    | cons entry entries ih =>
      rw [List.flatMap_cons, List.flatMap_cons]
      refine List.rel_append ?_ ih
      rw [List.forall₂_map_left_iff, List.forall₂_map_right_iff, List.forall₂_same]
      exact fun n _ => says_dotEdge entry.1 n
  rw [dotLines, dotContent]
  refine List.rel_append (List.rel_append (List.rel_append (List.rel_append ?_ hnodes) ?_) hedges) ?_
  · exact .cons hopening (.cons hlabel (.cons hplace (.cons hshape (.cons hdirection
      (.cons hempty .nil)))))
  · exact .cons hempty .nil
  · exact .cons hclosing .nil

theorem filterMap_nodeId?_dotContent (g : CallGraph) (names : Tree) (title : String) :
    (g.dotContent names title).filterMap Line.nodeId? = g.nodes.map Node.key := by
  simp [dotContent, List.filterMap_cons, Line.nodeId?, List.filterMap_flatMap, Function.comp_def]

/-- The keys of caller and callee of every edge, in the order of the adjacency lists. -/
def edgeKeys (g : CallGraph) : List (DeclId × DeclId) :=
  g.adjacency.flatMap fun entry => entry.2.map fun callee => (entry.1.key, callee.key)

theorem filterMap_ends?_dotContent (g : CallGraph) (names : Tree) (title : String) :
    (g.dotContent names title).filterMap Line.ends? = g.edgeKeys := by
  simp [dotContent, edgeKeys, List.filterMap_cons, Line.ends?, List.filterMap_flatMap,
    Function.comp_def]

theorem mem_edgeKeys_iff {a b : Node} :
    (a.key, b.key) ∈ g.edgeKeys ↔ g.hasEdge a b = true := by
  rw [edgeKeys, List.mem_flatMap, hasEdge, Std.ExtTreeSet.contains_iff_mem]
  constructor
  · rintro ⟨⟨n, ns⟩, hentry, hcallee⟩
    obtain ⟨_, _, rfl⟩ := mem_adjacency_iff.1 hentry
    obtain ⟨m, hm, hkeys⟩ := List.mem_map.1 hcallee
    obtain ⟨k, hk, rfl⟩ := mem_callees.1 hm
    rw [Node.key_ofKey, Prod.mk.injEq] at hkeys
    rwa [← hkeys.1, ← hkeys.2]
  · intro hb
    have hkey : (Node.ofKey a.key).key = a.key := Node.key_ofKey _
    refine ⟨(.ofKey a.key, g.callees (.ofKey a.key)), mem_adjacency_iff.2 ⟨?_, ?_, rfl⟩, ?_⟩
    · rw [hkey]
      exact mem_edges_of_mem_targets hb
    · rw [hkey]
    · refine List.mem_map.2 ⟨.ofKey b.key, mem_callees.2 ⟨b.key, ?_, rfl⟩, ?_⟩
      · rwa [hkey]
      · rw [hkey, Node.key_ofKey]

/-- The text tells the graph, with the names that the tree has. -/
structure DrawnAs (g : CallGraph) (names : Tree) (title text : String) : Prop where
  /-- No name adds a line or breaks one. -/
  lines : text.toList.splitOn '\n' = (g.dotLines names title ++ [""]).map String.toList
  /-- Each line says what it is meant to say. -/
  content : readLines text = g.dotContent names title ++ [Line.other ""]
  nodes : nodeIds text = g.nodes.map Node.key
  edges : ∀ a b : Node, (a.key, b.key) ∈ edgeIds text ↔ g.hasEdge a b = true

theorem drawnAs_toDot (g : CallGraph) (names : Tree) (title : Option String) :
    g.DrawnAs names (title.getD g.name) (g.toDot names title) := by
  have hlines := says_dotLines g names (title.getD g.name)
  have hcontent : readLines (g.toDot names title) =
      g.dotContent names (title.getD g.name) ++ [Line.other ""] := readLines_of_forall₂ hlines
  refine ⟨splitOn_lines (unbroken_of_forall₂ hlines), hcontent, ?_, fun a b => ?_⟩
  · rw [nodeIds, hcontent, List.filterMap_append, filterMap_nodeId?_dotContent]
    exact List.append_nil _
  · rw [← mem_edgeKeys_iff, edgeIds, hcontent, List.filterMap_append, filterMap_ends?_dotContent]
    rw [show [Line.other ""].filterMap Line.ends? = [] from rfl, List.append_nil]

theorem nodes_eq_of_keys {h : CallGraph} (hkeys : g.nodes.map Node.key = h.nodes.map Node.key) :
    g.nodes = h.nodes := by
  have hnodes : ∀ g : CallGraph, (g.nodes.map Node.key).map .ofKey = g.nodes := by
    intro g
    simp [nodes, Function.comp_def]
  rw [← hnodes g, hkeys, hnodes h]

end CallGraph

/-! ### Graffiti

A contract whose names are written so as to leave their quoted strings. -/

namespace Graffiti

/-- A name that ends its line and adds an edge, if it is not escaped. -/
def forged : String := "Wall\"];\r\n    \"#0\" -> \"#2\";\n<\\"

def steps : List Step :=
  [ .contract forged .contract false [],
    .event (some ⟨0⟩) forged [],
    .function ⟨some ⟨0⟩, "spray\\", .function, some .internal, false, [], [], [], .usual⟩,
    .function ⟨some ⟨0⟩, "", .constructor, none, false, [], [], [],
      .written [.emit (.eventCall forged ⟨1⟩ []), .eval (.internalCall "spray\\" ⟨2⟩ [])]⟩,
    .function ⟨some ⟨0⟩, "\n", .function, none, false, [], [], [], .usual⟩ ]

def tree : Tree := (Tree.ofSteps steps).toOption.getD {}

def creation : CallGraph := (tree.creationGraph ⟨0⟩).result.toOption.getD ⟨⟨0⟩, "", ∅, ∅, ∅, ∅⟩

def deployed : CallGraph :=
  (tree.deploymentGraph ⟨0⟩ creation .standard).result.toOption.getD ⟨⟨0⟩, "", ∅, ∅, ∅, ∅⟩

end Graffiti

namespace CallGraph

/-- **A drawing tells the graph**, whatever the names are; and graphs with different nodes or edges
are never drawn alike. -/
theorem drawing_tells_graph (g : CallGraph) (names : Tree) (title : Option String) :
    g.DrawnAs names (title.getD g.name) (g.toDot names title) ∧
      ∀ (h : CallGraph) (names' : Tree) (title' : Option String),
        (g.nodes ≠ h.nodes ∨ ∃ a b, g.hasEdge a b ≠ h.hasEdge a b) →
          g.toDot names title ≠ h.toDot names' title' := by
  refine ⟨drawnAs_toDot g names title, fun h names' title' hdifferent heq => ?_⟩
  have hg := drawnAs_toDot g names title
  have hh := drawnAs_toDot h names' title'
  rw [← heq] at hh
  rcases hdifferent with hnodes | ⟨a, b, hedge⟩
  · exact hnodes (nodes_eq_of_keys (hg.nodes.symm.trans hh.nodes))
  · exact hedge (Bool.eq_iff_iff.2 ((hg.edges a b).symm.trans (hh.edges a b)))

theorem graffiti_drawing_tells_graph :
    Graffiti.creation.nodes = [.entry, .callable ⟨2⟩, .callable ⟨3⟩] ∧
      Graffiti.deployed.nodes = [.entry, .callable ⟨4⟩] ∧
      Graffiti.creation.DrawnAs Graffiti.tree Graffiti.forged
        (Graffiti.creation.toDot Graffiti.tree (some Graffiti.forged)) ∧
      Graffiti.creation.toDot Graffiti.tree (some Graffiti.forged) ≠
        Graffiti.deployed.toDot Graffiti.tree (some Graffiti.forged) := by
  have hcreation : Graffiti.creation.nodes = [.entry, .callable ⟨2⟩, .callable ⟨3⟩] := by cbv
  have hdeployed : Graffiti.deployed.nodes = [.entry, .callable ⟨4⟩] := by cbv
  have hnodes : Graffiti.creation.nodes ≠ Graffiti.deployed.nodes := by
    rw [hcreation, hdeployed]
    decide
  obtain ⟨hdrawn, hdifferent⟩ :=
    drawing_tells_graph Graffiti.creation Graffiti.tree (some Graffiti.forged)
  exact ⟨hcreation, hdeployed, hdrawn, hdifferent _ _ _ (.inl hnodes)⟩

end CallGraph
end ContractCalls
