import ContractCalls.Walk
import ContractCalls.Proofs.Code.Parts
import Mathlib.Data.List.ReduceOption

/-!
# Pieces of code

A walk goes through expressions, statements, blocks, invocations, functions and modifiers.  A
`Piece` is any of them, and its `parts` are the pieces that stand directly in it, in the order of
reading.  What there is to see of a piece (`Piece.sights`) follows from them: what is shown before
the parts, then all that there is to see of the parts, then what is shown after them.

* Before its parts a call or an `emit` is shown.
* After its parts, or in the place of parts, a name, a member, `new`, a placeholder or an
  invocation is shown.

So everything is seen once, and what lies below a call or an `emit` follows it at once
(`Piece.nested_sights`).
-/

namespace ContractCalls

/-- A piece of code that can be walked. -/
inductive Piece where
  | expr (e : Expr)
  | stmt (s : Stmt)
  | block (body : Block)
  | invocation (i : Invocation)
  | function (f : Function)
  | modifier (m : Modifier)

namespace Piece

/-- The pieces that a piece is made of, in the order of reading. -/
def parts : Piece → List Piece
  | expr (.literal ..) | expr (.typeName ..) | expr (.identifier ..) | expr (.new ..) => []
  | expr (.member _ inner _) => [expr inner]
  | expr (.call _ callee args _) => expr callee :: args.map expr
  | expr (.index _ base i) => expr base :: i.toList.map expr
  | expr (.unary _ _ operand) => [expr operand]
  | expr (.binary _ left _ right) | expr (.assign _ left _ right) => [expr left, expr right]
  | expr (.conditional _ condition yes no) => [expr condition, expr yes, expr no]
  | expr (.tuple _ items) => items.reduceOption.map expr
  | stmt (.block body) | stmt (.unchecked body) => [block body]
  | stmt .placeholder | stmt .breakLoop | stmt .continueLoop => []
  | stmt (.eval e) | stmt (.emit e) | stmt (.revert e) => [expr e]
  | stmt (.locals _ value) | stmt (.returnValue value) => value.toList.map expr
  | stmt (.branch condition yes no) => [expr condition, stmt yes] ++ no.toList.map stmt
  | stmt (.whileLoop condition body) => [expr condition, stmt body]
  | stmt (.doWhile body condition) => [stmt body, expr condition]
  | stmt (.forLoop start condition step body) =>
    start.toList.map stmt ++ condition.toList.map expr ++ step.toList.map expr ++ [stmt body]
  | block body => body.map stmt
  | invocation i => i.args.map expr
  | function f => f.invocations.map invocation ++ f.body.toList.map block
  | modifier m => m.body.toList.map block

def opening : Piece → Option Sight
  | expr (.call note callee args kind) => some (.call note callee args kind)
  | stmt (.emit event) => some (.emission event)
  | _ => none

def closing : Piece → Option Sight
  | expr (.identifier note ref) => some (.identifier note ref)
  | expr (.member note inner ref) => some (.member note inner ref)
  | expr (.new _ name contract) => some (.creation name contract)
  | stmt .placeholder => some .placeholder
  | invocation i => some (.invocation i)
  | _ => none

/-- The parts of an expression are those that stand directly in it. -/
theorem mem_parts_expr {e : Expr} {q : Piece} (h : q ∈ (expr e).parts) :
    ∃ p, q = expr p ∧ p.Part e := by
  cases e with
  | literal => cases h
  | typeName => cases h
  | identifier => cases h
  | new => cases h
  | member note inner ref =>
    cases List.mem_singleton.1 h
    exact ⟨_, rfl, .inner⟩
  | call note callee args kind =>
    rcases List.mem_cons.1 h with rfl | h
    · exact ⟨_, rfl, .callee⟩
    · obtain ⟨a, ha, rfl⟩ := List.mem_map.1 h
      exact ⟨a, rfl, .arg ha⟩
  | index note base i =>
    rcases List.mem_cons.1 h with rfl | h
    · exact ⟨_, rfl, .base⟩
    · obtain ⟨i, hi, rfl⟩ := List.mem_map.1 h
      cases Option.mem_toList.1 hi
      exact ⟨i, rfl, .subscript⟩
  | unary note operator operand =>
    cases List.mem_singleton.1 h
    exact ⟨_, rfl, .operand⟩
  | binary note left operator right =>
    simp only [parts, List.mem_cons, List.not_mem_nil, or_false] at h
    rcases h with rfl | rfl
    · exact ⟨_, rfl, .left⟩
    · exact ⟨_, rfl, .right⟩
  | assign note left operator right =>
    simp only [parts, List.mem_cons, List.not_mem_nil, or_false] at h
    rcases h with rfl | rfl
    · exact ⟨_, rfl, .place⟩
    · exact ⟨_, rfl, .value⟩
  | conditional note condition yes no =>
    simp only [parts, List.mem_cons, List.not_mem_nil, or_false] at h
    rcases h with rfl | rfl | rfl
    · exact ⟨_, rfl, .condition⟩
    · exact ⟨_, rfl, .yes⟩
    · exact ⟨_, rfl, .no⟩
  | tuple note items =>
    obtain ⟨p, hp, rfl⟩ := List.mem_map.1 h
    exact ⟨p, rfl, .item (List.reduceOption_mem_iff.1 hp)⟩

theorem sizeOf_lt_of_mem_parts_stmt {s : Stmt} {q : Piece} (h : q ∈ (stmt s).parts) :
    sizeOf q < sizeOf (stmt s) := by
  cases s with
  | placeholder | breakLoop | continueLoop => cases h
  | block body | unchecked body | eval e | emit e | revert e =>
    cases List.mem_singleton.1 h
    simp
  | locals names value =>
    simp only [parts, List.mem_map, Option.mem_toList] at h
    obtain ⟨e, rfl, rfl⟩ := h
    simp
    omega
  | returnValue value =>
    simp only [parts, List.mem_map, Option.mem_toList] at h
    obtain ⟨e, rfl, rfl⟩ := h
    simp
    omega
  | branch condition yes no =>
    simp only [parts, List.mem_append, List.mem_cons, List.not_mem_nil, or_false, List.mem_map,
      Option.mem_toList] at h
    rcases h with (rfl | rfl) | ⟨s, rfl, rfl⟩ <;> simp <;> omega
  | whileLoop condition body =>
    simp only [parts, List.mem_cons, List.not_mem_nil, or_false] at h
    simp only [stmt.sizeOf_spec, Stmt.whileLoop.sizeOf_spec]
    rcases h with rfl | rfl
    · rw [expr.sizeOf_spec]
      omega
    · rw [stmt.sizeOf_spec]
      omega
  | doWhile body condition =>
    simp only [parts, List.mem_cons, List.not_mem_nil, or_false] at h
    simp only [stmt.sizeOf_spec, Stmt.doWhile.sizeOf_spec]
    rcases h with rfl | rfl
    · rw [stmt.sizeOf_spec]
      omega
    · rw [expr.sizeOf_spec]
      omega
  | forLoop start condition step body =>
    simp only [parts, List.mem_append, List.mem_singleton, List.mem_map, Option.mem_toList] at h
    rcases h with ((⟨s, rfl, rfl⟩ | ⟨e, rfl, rfl⟩) | ⟨e, rfl, rfl⟩) | rfl <;> simp <;> omega

theorem sizeOf_lt_of_mem_parts {p q : Piece} (h : q ∈ p.parts) : sizeOf q < sizeOf p := by
  cases p with
  | expr e =>
    obtain ⟨p, rfl, hpart⟩ := mem_parts_expr h
    simpa using hpart.sizeOf_lt
  | stmt s =>
    exact sizeOf_lt_of_mem_parts_stmt h
  | block body =>
    obtain ⟨s, hs, rfl⟩ := List.mem_map.1 h
    simpa using List.sizeOf_lt_of_mem hs
  | invocation i =>
    obtain ⟨a, ha, rfl⟩ := List.mem_map.1 h
    have := List.sizeOf_lt_of_mem ha
    cases i
    simp at this ⊢
    omega
  | function f =>
    rcases List.mem_append.1 h with h | h
    · obtain ⟨i, hi, rfl⟩ := List.mem_map.1 h
      have := List.sizeOf_lt_of_mem hi
      cases f
      simp at this ⊢
      omega
    · obtain ⟨body, hbody, rfl⟩ := List.mem_map.1 h
      cases f
      cases Option.mem_toList.1 hbody
      simp
      omega
  | modifier m =>
    obtain ⟨body, hbody, rfl⟩ := List.mem_map.1 h
    cases m
    cases Option.mem_toList.1 hbody
    simp
    omega

/-- All that there is to see of a piece, in the order of reading. -/
def sights (p : Piece) : List Sight :=
  p.opening.toList ++ p.parts.attach.flatMap (fun q => sights q.1) ++ p.closing.toList
termination_by sizeOf p
decreasing_by exact sizeOf_lt_of_mem_parts q.2

theorem sights_eq (p : Piece) :
    p.sights = p.opening.toList ++ p.parts.flatMap sights ++ p.closing.toList := by
  rw [sights]
  simp [List.flatMap]

/-- **Induction along parts.** -/
@[elab_as_elim]
theorem induction {motive : Piece → Prop}
    (h : ∀ p, (∀ q ∈ p.parts, motive q) → motive p) (p : Piece) : motive p :=
  h p fun q _hq => induction h q
termination_by sizeOf p
decreasing_by exact sizeOf_lt_of_mem_parts _hq

end Piece

namespace Sight

/-- The pieces strictly below a call or an `emit`. -/
def under : Sight → List Piece
  | call _ callee args _ => .expr callee :: args.map .expr
  | emission event => [.expr event]
  | _ => []

/-- All that there is to see strictly below a call or an `emit`. -/
def below (x : Sight) : List Sight := x.under.flatMap Piece.sights

end Sight

/-- In the list, every call and every `emit` is followed by what lies below it. -/
inductive Nested : List Sight → Prop where
  | nil : Nested []
  | cons {x : Sight} {rest : List Sight} : x.below <+: rest → Nested rest → Nested (x :: rest)

namespace Nested

variable {first second : List Sight}

theorem append (h : Nested first) (h' : Nested second) : Nested (first ++ second) := by
  induction h with
  | nil => exact h'
  | cons hbelow _ ih => exact .cons (hbelow.trans (List.prefix_append _ _)) ih

theorem flatMap {α : Type} {as : List α} {f : α → List Sight} (h : ∀ a ∈ as, Nested (f a)) :
    Nested (as.flatMap f) := by
  induction as with
  | nil => exact .nil
  | cons a as ih =>
    rw [List.flatMap_cons]
    exact (h a List.mem_cons_self).append (ih fun b hb => h b (List.mem_cons_of_mem a hb))

theorem of_append (h : Nested (first ++ second)) : Nested second := by
  induction first with
  | nil => exact h
  | cons x first ih =>
    cases h with
    | cons _ hrest => exact ih hrest

theorem below_prefix {before after : List Sight} {x : Sight}
    (h : Nested (before ++ x :: after)) : x.below <+: after := by
  cases h.of_append with
  | cons hbelow _ => exact hbelow

end Nested

namespace Piece

variable {p : Piece} {x : Sight}

/-- Below what is shown first are the parts, and nothing is shown after them. -/
theorem opening_eq_some (h : p.opening = some x) : p.parts = x.under ∧ p.closing = none := by
  cases p with
  | expr e =>
    cases e with
    | call => cases h; exact ⟨rfl, rfl⟩
    | _ => cases h
  | stmt s =>
    cases s with
    | emit => cases h; exact ⟨rfl, rfl⟩
    | _ => cases h
  | _ => cases h

theorem under_of_closing (h : p.closing = some x) : x.under = [] := by
  cases p with
  | expr e =>
    cases e with
    | identifier | member | new => cases h; rfl
    | _ => cases h
  | stmt s =>
    cases s with
    | placeholder => cases h; rfl
    | _ => cases h
  | invocation i => cases h; rfl
  | _ => cases h

theorem sights_of_opening (h : p.opening = some x) : p.sights = x :: x.below := by
  obtain ⟨hparts, hclosing⟩ := opening_eq_some h
  rw [sights_eq, h, hparts, hclosing]
  exact List.append_nil _

/-- **What lies below a call or an `emit` follows it at once.** -/
theorem nested_sights (p : Piece) : Nested p.sights := by
  induction p using induction with
  | h p ih =>
    have hparts : Nested (p.parts.flatMap sights) := .flatMap ih
    cases hopening : p.opening with
    | some x =>
      have hbelow : Nested x.below := by
        rw [Sight.below, ← (opening_eq_some hopening).1]
        exact hparts
      rw [sights_of_opening hopening]
      exact .cons List.prefix_rfl hbelow
    | none =>
      rw [sights_eq, hopening]
      refine (hparts : Nested ([] ++ p.parts.flatMap sights)).append ?_
      cases hclosing : p.closing with
      | none => exact .nil
      | some x =>
        refine .cons ?_ .nil
        rw [Sight.below, under_of_closing hclosing]
        exact List.prefix_rfl

end Piece

/-! ### Sights and occurrences -/

def Piece.occurrences : Piece → List Occurrence
  | expr e => e.occurrences
  | stmt s => s.occurrences
  | block body => body.occurrences
  | invocation i => i.occurrences
  | function f => f.occurrences
  | modifier c => c.occurrences

namespace Piece

theorem optionOccurrences_eq (e : Option Expr) :
    Expr.optionOccurrences e = (e.toList.map expr).flatMap occurrences := by
  cases e <;> simp [Expr.optionOccurrences, occurrences]

theorem itemOccurrences_eq (es : List (Option Expr)) :
    Expr.itemOccurrences es = (es.reduceOption.map expr).flatMap occurrences := by
  induction es with
  | nil => rfl
  | cons e es ih =>
    cases e <;> simp [Expr.itemOccurrences, Expr.optionOccurrences, ih, occurrences]

theorem optionStmtOccurrences_eq (s : Option Stmt) :
    Stmt.optionOccurrences s = (s.toList.map stmt).flatMap occurrences := by
  cases s <;> simp [Stmt.optionOccurrences, occurrences]

theorem bodyOccurrences_eq (body : Option Block) :
    (body.getD []).occurrences = (body.toList.map block).flatMap occurrences := by
  cases body <;> simp [Block.occurrences, Stmt.blockOccurrences, occurrences]

/-- What occurs in a piece occurs in its parts, apart from the piece itself. -/
theorem occurrences_eq_parts (p : Piece) : p.occurrences =
    p.opening.toList.map Sight.occurrence ++ p.parts.flatMap occurrences ++
      p.closing.toList.map Sight.occurrence := by
  cases p with
  | expr e =>
    cases e <;> simp [occurrences, Expr.occurrences, parts, opening, closing, Sight.occurrence,
      Expr.listOccurrences_eq_flatMap, optionOccurrences_eq, itemOccurrences_eq, List.flatMap_map]
  | stmt s =>
    cases s <;> simp [occurrences, Stmt.occurrences, parts, opening, closing, Sight.occurrence,
      Block.occurrences, optionOccurrences_eq, optionStmtOccurrences_eq, List.flatMap_map]
  | block body =>
    simp [occurrences, Block.occurrences, parts, opening, closing,
      Stmt.blockOccurrences_eq_flatMap, List.flatMap_map]
  | invocation i =>
    simp [occurrences, Invocation.occurrences, parts, opening, closing, Sight.occurrence,
      Expr.listOccurrences_eq_flatMap, List.flatMap_map]
  | function f =>
    simp [occurrences, Function.occurrences, parts, opening, closing, bodyOccurrences_eq,
      List.flatMap_map]
  | modifier c =>
    simp [occurrences, Modifier.occurrences, parts, opening, closing, bodyOccurrences_eq,
      List.flatMap_map]

/-- **What occurs in code is what a walk shows of it**, in the same order. -/
theorem map_occurrence_sights (p : Piece) : p.sights.map Sight.occurrence = p.occurrences := by
  induction p using induction with
  | h p ih =>
    rw [sights_eq, occurrences_eq_parts, List.map_append, List.map_append, List.map_flatMap,
      List.flatMap_congr ih]

end Piece

end ContractCalls
