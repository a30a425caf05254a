import ContractCalls.Dot.Drawing
import ContractCalls.Proofs.Dot.Quoted
import Mathlib.Data.List.Forall2
import Std.Data.String.ToInt

/-!
# Reading a drawing line by line

A drawing is split at its line feeds, and `Dot.Line.read` says of each line whether it is the label
of the drawing, the line of a node, the line of an edge, or something else, which is then kept as it
stands.  The reader knows of quoted strings what `readQuoted` knows and nothing of the graph.

`Says` is what is to be shown of a line that was written: that it has no line feed, and what is read
in it.  From this a text of several lines is read one by one (`readLines_of_forall₂`).
-/

namespace ContractCalls

namespace DeclId

variable {id : DeclId}

theorem toList_toString (id : DeclId) : (toString id).toList = '#' :: id.val.repr.toList := by
  show ("#" ++ toString id.val).toList = _
  rw [String.toList_append, Int.toString_eq_repr]
  rfl

theorem isDigit_of_mem_repr {n : Nat} {c : Char} (h : c ∈ n.repr.toList) : c.isDigit := by
  rw [Nat.toList_repr] at h
  exact Nat.isDigit_of_mem_toDigits (by decide) (by decide) h

theorem of_mem_toString {c : Char} (h : c ∈ (toString id).toList) :
    c = '#' ∨ c = '-' ∨ c.isDigit := by
  rw [toList_toString, List.mem_cons] at h
  rcases h with rfl | h
  · exact .inl rfl
  · right
    rw [Int.repr_eq_if] at h
    split at h
    · exact .inr (isDigit_of_mem_repr h)
    · rw [String.toList_append, List.mem_append] at h
      rcases h with h | h
      · exact .inl (List.mem_singleton.1 h)
      · exact .inr (isDigit_of_mem_repr h)

theorem ne_of_mem_toString {c : Char} (h : c ∈ (toString id).toList) : c ≠ '"' ∧ c ≠ '\\' := by
  have hc := of_mem_toString h
  constructor <;> rintro rfl <;> revert hc <;> decide

theorem not_mem_toString (id : DeclId) : '\n' ∉ (toString id).toList := fun h =>
  absurd (of_mem_toString h) (by decide)

end DeclId

namespace Dot

/-! ### Reading a line -/

/-- What a line of a drawing says. -/
inductive Line where
  /-- The label of the whole drawing. -/
  | label (text : String)
  | node (key : DeclId) (label rest : String)
  | edge (caller callee : DeclId)
  | other (text : String)
  deriving DecidableEq

/-- What follows a text at the beginning. -/
def after? (start : String) (cs : List Char) : Option (List Char) := cs.dropPrefix? start.toList

/-- A quoted string at the beginning, and what follows it. -/
def quoted? (cs : List Char) : Option (List Char × List Char) := after? "\"" cs >>= readQuoted

/-- An id in quotes at the beginning, and what follows it. -/
def quotedId? (cs : List Char) : Option (DeclId × List Char) := do
  let (text, rest) ← quoted? cs
  let digits ← after? "#" text
  let val ← (String.ofList digits).toInt?
  return (⟨val⟩, rest)

namespace Line

def nodeId? : Line → Option DeclId
  | node key _ _ => some key
  | label _ | edge _ _ | other _ => none

def ends? : Line → Option (DeclId × DeclId)
  | edge caller callee => some (caller, callee)
  | label _ | node _ _ _ | other _ => none

def label? (cs : List Char) : Option Line := do
  let (text, rest) ← quoted? (← after? "    label=" cs)
  if rest = [';'] then some (label (.ofList text)) else none

def node? (cs : List Char) : Option Line := do
  let (key, cs) ← quotedId? (← after? "    " cs)
  let (text, rest) ← quoted? (← after? " [label=" cs)
  return node key (.ofList text) (.ofList rest)

def edge? (cs : List Char) : Option Line := do
  let (caller, cs) ← quotedId? (← after? "    " cs)
  let (callee, rest) ← quotedId? (← after? " -> " cs)
  if rest = [';'] then some (edge caller callee) else none

/-- A line of a drawing, read. -/
def read (cs : List Char) : Line :=
  (label? cs <|> node? cs <|> edge? cs).getD (other (.ofList cs))

end Line

/-- The line is in one piece, and this is what it says. -/
def Says (text : String) (line : Line) : Prop :=
  '\n' ∉ text.toList ∧ Line.read text.toList = line

instance (text : String) (line : Line) : Decidable (Says text line) :=
  inferInstanceAs (Decidable (_ ∧ _))

theorem after?_append (start : String) (rest : List Char) :
    after? start (start.toList ++ rest) = some rest :=
  List.dropPrefix?_append_of_beq rest BEq.rfl

theorem quoted?_cons (cs : List Char) : quoted? ('"' :: cs) = readQuoted cs := by
  have hquote : after? "\"" ('"' :: cs) = some cs := after?_append "\"" cs
  rw [quoted?, hquote]
  rfl

theorem quotedId?_toString (id : DeclId) (rest : List Char) :
    quotedId? ('"' :: ((toString id).toList ++ '"' :: rest)) = some (id, rest) := by
  have hread : readQuoted ((toString id).toList ++ '"' :: rest) =
      some ((toString id).toList, rest) :=
    readQuoted_append (fun _ => DeclId.ne_of_mem_toString) rest
  have hdigits : after? "#" (toString id).toList = some id.val.repr.toList := by
    rw [DeclId.toList_toString]
    exact after?_append "#" id.val.repr.toList
  simp only [quotedId?, quoted?_cons, hread, hdigits, Option.bind_eq_bind, Option.bind_some,
    String.ofList_toList, Int.toInt?_repr, pure]

/-! ### The lines that are written -/

theorem says_label (s : String) :
    Says ("    label=\"" ++ escape s ++ "\";") (.label (withoutReturns s)) := by
  have hline : ("    label=\"" ++ escape s ++ "\";").toList =
      "    label=".toList ++ '"' :: ((escape s).toList ++ '"' :: [';']) := by
    simp only [String.toList_append, List.append_assoc]
    rfl
  have hlabel : Line.label? ("    label=\"" ++ escape s ++ "\";").toList =
      some (.label (withoutReturns s)) := by
    simp only [hline, Line.label?, after?_append, quoted?_cons, readQuoted_escape,
      Option.bind_eq_bind, Option.bind_some, if_true, String.ofList_toList]
  constructor
  · simp [hline, not_mem_escape]
  · rw [Line.read, hlabel]
    rfl

theorem says_dotNode (names : Tree) (n : Node) : Says (CallGraph.dotNode names n)
    (.node n.key (withoutReturns (names.label n)) (CallGraph.dotStyle n ++ "];")) := by
  have hline : (CallGraph.dotNode names n).toList = "    ".toList ++ '"' ::
      ((toString n.key).toList ++ '"' :: (" [label=".toList ++ '"' ::
        ((escape (names.label n)).toList ++ '"' :: (CallGraph.dotStyle n ++ "];").toList))) := by
    simp only [CallGraph.dotNode, String.toList_append, List.append_assoc]
    rfl
  -- A quote follows the blanks, so this is not the label of the drawing.
  have hlabel : Line.label? (CallGraph.dotNode names n).toList = none := by
    rw [hline]
    rfl
  have hnode : Line.node? (CallGraph.dotNode names n).toList =
      some (.node n.key (withoutReturns (names.label n)) (CallGraph.dotStyle n ++ "];")) := by
    simp only [hline, Line.node?, after?_append, quotedId?_toString, quoted?_cons,
      readQuoted_escape, Option.bind_eq_bind, Option.bind_some, String.ofList_toList, pure]
  have hstyle : '\n' ∉ (CallGraph.dotStyle n).toList := by
    cases n <;> simp [CallGraph.dotStyle]
  constructor
  · simp [hline, not_mem_escape, DeclId.not_mem_toString, hstyle]
  · rw [Line.read, hlabel, hnode]
    rfl

theorem says_dotEdge (caller callee : Node) :
    Says (CallGraph.dotEdge caller callee) (.edge caller.key callee.key) := by
  have hline : (CallGraph.dotEdge caller callee).toList = "    ".toList ++ '"' ::
      ((toString caller.key).toList ++ '"' :: (" -> ".toList ++ '"' ::
        ((toString callee.key).toList ++ '"' :: [';']))) := by
    simp only [CallGraph.dotEdge, String.toList_append, List.append_assoc]
    rfl
  have hlabel : Line.label? (CallGraph.dotEdge caller callee).toList = none := by
    rw [hline]
    rfl
  -- Behind the first id there is an arrow where a node has its label.
  have hnode : Line.node? (CallGraph.dotEdge caller callee).toList = none := by
    simp only [hline, Line.node?, after?_append, quotedId?_toString, Option.bind_eq_bind,
      Option.bind_some]
    rfl
  have hedge : Line.edge? (CallGraph.dotEdge caller callee).toList =
      some (.edge caller.key callee.key) := by
    simp only [hline, Line.edge?, after?_append, quotedId?_toString, Option.bind_eq_bind,
      Option.bind_some, if_true]
  constructor
  · simp [hline, DeclId.not_mem_toString]
  · rw [Line.read, hlabel, hnode, hedge]
    rfl

/-! ### The whole text -/

def readLines (text : String) : List Line := (text.toList.splitOn '\n').map Line.read

/-- The ids of the nodes that a text tells of. -/
def nodeIds (text : String) : List DeclId := (readLines text).filterMap Line.nodeId?

def edgeIds (text : String) : List (DeclId × DeclId) := (readLines text).filterMap Line.ends?

/-- Lines are found again if there is no line feed in them.  What follows the last one is empty. -/
theorem splitOn_lines {lines : List String} (h : ∀ line ∈ lines, '\n' ∉ line.toList) :
    (String.join (lines.map (· ++ "\n"))).toList.splitOn '\n' =
      (lines ++ [""]).map String.toList := by
  have hjoin : (String.join (lines.map (· ++ "\n"))).toList =
      ['\n'].intercalate ((lines ++ [""]).map String.toList) := by
    clear h
    induction lines with
    | nil => rfl
    | cons line lines ih =>
      rw [List.map_cons, String.join_cons, String.toList_append, ih, List.cons_append,
        List.map_cons, List.intercalate_cons_of_ne_nil (by simp), String.toList_append]
      rfl
  rw [hjoin, List.splitOn_intercalate _ ?_ (by simp)]
  intro cs hcs
  obtain ⟨line, hline, rfl⟩ := List.mem_map.1 hcs
  rcases List.mem_append.1 hline with hline | hline
  · exact h line hline
  · obtain rfl := List.mem_singleton.1 hline
    exact List.not_mem_nil

variable {texts : List String} {lines : List Line}

theorem unbroken_of_forall₂ (h : List.Forall₂ Says texts lines) :
    ∀ text ∈ texts, '\n' ∉ text.toList := by
  induction h with
  | nil => exact List.forall_mem_nil _
  | cons hline _ ih => exact List.forall_mem_cons.2 ⟨hline.1, ih⟩

/-- Lines in one piece are read one by one. -/
theorem readLines_of_forall₂ (h : List.Forall₂ Says texts lines) :
    readLines (String.join (texts.map (· ++ "\n"))) = lines ++ [Line.other ""] := by
  have hread : texts.map (fun text => Line.read text.toList) = lines := by
    induction h with
    | nil => rfl
    | cons hline _ ih => rw [List.map_cons, hline.2, ih]
  rw [readLines, splitOn_lines (unbroken_of_forall₂ h), List.map_map, List.map_append]
  exact congrArg (· ++ [Line.other ""]) hread

end Dot

end ContractCalls
