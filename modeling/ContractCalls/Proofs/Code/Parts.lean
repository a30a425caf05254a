import ContractCalls.Occurrence
import Mathlib.Logic.Relation
import Mathlib.Tactic.Common

/-!
# Parts of code

`Expr.occurrences` and its siblings list what occurs in code, form by form.  This file says
what they list without following them: `Expr.Part` and `Stmt.Part` relate a phrase to those
that stand directly in it, `Stmt.Holds` a statement to its own expressions, and a phrase is
`Within` another if a chain of parts leads there.

* `Expr.mem_occurrences`: what occurs in an expression is what the expressions within it are.
* `Block.mem_occurrences`: what occurs in a block is what the statements within it are,
  and what occurs in the expressions that these hold.
* `Modifier.hasPlaceholder_iff`: a modifier has a placeholder exactly if one stands within
  its body.
-/

namespace ContractCalls

namespace Expr

/-- The first expression stands directly in the second. -/
inductive Part : Expr → Expr → Prop where
  | inner {note : Note} {e : Expr} {ref : Reference} : Part e (.member note e ref)
  | callee {note : Note} {e : Expr} {args : List Expr} {kind : CallKind} :
      Part e (.call note e args kind)
  | arg {note : Note} {callee e : Expr} {args : List Expr} {kind : CallKind} :
      e ∈ args → Part e (.call note callee args kind)
  | base {note : Note} {e : Expr} {i : Option Expr} : Part e (.index note e i)
  | subscript {note : Note} {base e : Expr} : Part e (.index note base (some e))
  | operand {note : Note} {operator : String} {e : Expr} : Part e (.unary note operator e)
  | left {note : Note} {operator : String} {e right : Expr} :
      Part e (.binary note e operator right)
  | right {note : Note} {operator : String} {left e : Expr} :
      Part e (.binary note left operator e)
  | place {note : Note} {operator : String} {e value : Expr} :
      Part e (.assign note e operator value)
  | value {note : Note} {operator : String} {place e : Expr} :
      Part e (.assign note place operator e)
  | condition {note : Note} {e yes no : Expr} : Part e (.conditional note e yes no)
  | yes {note : Note} {condition e no : Expr} : Part e (.conditional note condition e no)
  | no {note : Note} {condition yes e : Expr} : Part e (.conditional note condition yes e)
  | item {note : Note} {items : List (Option Expr)} {e : Expr} :
      some e ∈ items → Part e (.tuple note items)

/-- The first expression stands in the second, at any depth. -/
def Within : Expr → Expr → Prop := Relation.ReflTransGen Part

/-- What the name of an expression refers to, if it is an identifier or a member. -/
def ref? : Expr → Option Reference
  | identifier _ ref => some ref
  | member _ _ ref => some ref
  | _ => none

/-- The occurrence that an expression is, apart from those in its parts. -/
def occurrence? : Expr → Option Occurrence
  | identifier note ref => some (.identifier note ref)
  | member note _ ref => some (.member note ref)
  | call _ callee args kind => some (.call callee args kind)
  | new _ name contract => some (.creation name contract)
  | _ => none

theorem Part.sizeOf_lt {p e : Expr} (h : Part p e) : sizeOf p < sizeOf e := by
  cases h with
  | arg ha =>
    have := List.sizeOf_lt_of_mem ha
    simp only [call.sizeOf_spec]
    omega
  | item he =>
    have := List.sizeOf_lt_of_mem he
    simp only [tuple.sizeOf_spec, Option.some.sizeOf_spec] at this ⊢
    omega
  | _ =>
    simp only [member.sizeOf_spec, call.sizeOf_spec, index.sizeOf_spec, unary.sizeOf_spec,
      binary.sizeOf_spec, assign.sizeOf_spec, conditional.sizeOf_spec, Option.some.sizeOf_spec]
    omega

theorem Part.occurrences_subset {p e : Expr} (h : Part p e) : p.occurrences ⊆ e.occurrences := by
  intro o ho
  cases h with
  | arg ha =>
    simp only [occurrences, listOccurrences_eq_flatMap, List.mem_cons, List.mem_append,
      List.mem_flatMap]
    exact .inr (.inr ⟨p, ha, ho⟩)
  | item he =>
    simp only [occurrences, itemOccurrences_eq_flatMap, List.mem_flatMap]
    exact ⟨some p, he, ho⟩
  | _ => simp [occurrences, optionOccurrences, ho]

theorem mem_occurrences_of_occurrence? {e : Expr} {o : Occurrence} (h : e.occurrence? = some o) :
    o ∈ e.occurrences := by
  cases e <;> simp_all [occurrence?, occurrences]

/-- What occurs in an expression is what it is itself or occurs in a part. -/
theorem occurrence?_or_part {e : Expr} {o : Occurrence} (h : o ∈ e.occurrences) :
    e.occurrence? = some o ∨ ∃ p, Part p e ∧ o ∈ p.occurrences := by
  cases e with
  | literal => simp [occurrences] at h
  | typeName => simp [occurrences] at h
  | identifier note ref => exact .inl (by simpa [occurrences, occurrence?, eq_comm] using h)
  | new note name contract => exact .inl (by simpa [occurrences, occurrence?, eq_comm] using h)
  | member note e ref =>
    rcases List.mem_append.1 h with h | h
    · exact .inr ⟨e, .inner, h⟩
    · exact .inl (by simpa [occurrence?, eq_comm] using h)
  | call note callee args kind =>
    rcases List.mem_cons.1 h with rfl | h
    · exact .inl rfl
    · rcases List.mem_append.1 h with h | h
      · exact .inr ⟨callee, .callee, h⟩
      · rw [listOccurrences_eq_flatMap] at h
        obtain ⟨a, ha, h⟩ := List.mem_flatMap.1 h
        exact .inr ⟨a, .arg ha, h⟩
  | index note base i =>
    rcases List.mem_append.1 h with h | h
    · exact .inr ⟨base, .base, h⟩
    · cases i with
      | none => simp [optionOccurrences] at h
      | some i => exact .inr ⟨i, .subscript, h⟩
  | unary note operator operand => exact .inr ⟨operand, .operand, h⟩
  | binary note left operator right =>
    rcases List.mem_append.1 h with h | h
    · exact .inr ⟨left, .left, h⟩
    · exact .inr ⟨right, .right, h⟩
  | assign note place operator value =>
    rcases List.mem_append.1 h with h | h
    · exact .inr ⟨place, .place, h⟩
    · exact .inr ⟨value, .value, h⟩
  | conditional note condition yes no =>
    rcases List.mem_append.1 h with h | h
    · rcases List.mem_append.1 h with h | h
      · exact .inr ⟨condition, .condition, h⟩
      · exact .inr ⟨yes, .yes, h⟩
    · exact .inr ⟨no, .no, h⟩
  | tuple note items =>
    simp only [occurrences, itemOccurrences_eq_flatMap] at h
    obtain ⟨item, hitem, h⟩ := List.mem_flatMap.1 h
    cases item with
    | none => simp [optionOccurrences] at h
    | some e => exact .inr ⟨e, .item hitem, h⟩

/-- **What occurs in an expression** is what the expressions within it are. -/
theorem mem_occurrences {e : Expr} {o : Occurrence} :
    o ∈ e.occurrences ↔ ∃ p, Within p e ∧ p.occurrence? = some o := by
  constructor
  · intro h
    induction hn : sizeOf e using Nat.strongRecOn generalizing e with
    | _ n ih =>
      rcases occurrence?_or_part h with ho | ⟨p, hp, ho⟩
      · exact ⟨e, .refl, ho⟩
      · obtain ⟨q, hq, hqo⟩ := ih (sizeOf p) (hn ▸ hp.sizeOf_lt) ho rfl
        exact ⟨q, hq.tail hp, hqo⟩
  · intro hex
    obtain ⟨p, hp, ho⟩ := hex
    induction hp with
    | refl => exact mem_occurrences_of_occurrence? ho
    | tail _ hpart ih => exact hpart.occurrences_subset ih

end Expr

namespace Stmt

/-- The first statement stands directly in the second. -/
inductive Part : Stmt → Stmt → Prop where
  | block {s : Stmt} {body : List Stmt} : s ∈ body → Part s (.block body)
  | unchecked {s : Stmt} {body : List Stmt} : s ∈ body → Part s (.unchecked body)
  | yes {condition : Expr} {s : Stmt} {no : Option Stmt} : Part s (.branch condition s no)
  | no {condition : Expr} {yes s : Stmt} : Part s (.branch condition yes (some s))
  | whileBody {condition : Expr} {s : Stmt} : Part s (.whileLoop condition s)
  | doBody {s : Stmt} {condition : Expr} : Part s (.doWhile s condition)
  | start {s : Stmt} {condition step : Option Expr} {body : Stmt} :
      Part s (.forLoop (some s) condition step body)
  | forBody {start : Option Stmt} {condition step : Option Expr} {s : Stmt} :
      Part s (.forLoop start condition step s)

/-- The first statement stands in the second, at any depth. -/
def Within : Stmt → Stmt → Prop := Relation.ReflTransGen Part

/-- The expression stands in the statement, and in no statement within it. -/
inductive Holds : Stmt → Expr → Prop where
  | eval {e : Expr} : Holds (.eval e) e
  | value {names : List String} {e : Expr} : Holds (.locals names (some e)) e
  | branch {e : Expr} {yes : Stmt} {no : Option Stmt} : Holds (.branch e yes no) e
  | whileLoop {e : Expr} {body : Stmt} : Holds (.whileLoop e body) e
  | doWhile {body : Stmt} {e : Expr} : Holds (.doWhile body e) e
  | condition {start : Option Stmt} {e : Expr} {step : Option Expr} {body : Stmt} :
      Holds (.forLoop start (some e) step body) e
  | step {start : Option Stmt} {condition : Option Expr} {e : Expr} {body : Stmt} :
      Holds (.forLoop start condition (some e) body) e
  | returnValue {e : Expr} : Holds (.returnValue (some e)) e
  | emit {e : Expr} : Holds (.emit e) e
  | revert {e : Expr} : Holds (.revert e) e

/-- The occurrence that a statement is, apart from those in its parts. -/
def occurrence? : Stmt → Option Occurrence
  | placeholder => some .placeholder
  | emit event => some (.emission event)
  | _ => none

theorem Part.sizeOf_lt {p s : Stmt} (h : Part p s) : sizeOf p < sizeOf s := by
  cases h with
  | block hs =>
    have := List.sizeOf_lt_of_mem hs
    simp only [block.sizeOf_spec]
    omega
  | unchecked hs =>
    have := List.sizeOf_lt_of_mem hs
    simp only [unchecked.sizeOf_spec]
    omega
  | _ =>
    simp only [branch.sizeOf_spec, whileLoop.sizeOf_spec, doWhile.sizeOf_spec, forLoop.sizeOf_spec,
      Option.some.sizeOf_spec]
    omega

theorem Part.occurrences_subset {p s : Stmt} (h : Part p s) : p.occurrences ⊆ s.occurrences := by
  intro o ho
  cases h with
  | block hs =>
    rw [occurrences, blockOccurrences_eq_flatMap]
    exact List.mem_flatMap.2 ⟨p, hs, ho⟩
  | unchecked hs =>
    rw [occurrences, blockOccurrences_eq_flatMap]
    exact List.mem_flatMap.2 ⟨p, hs, ho⟩
  | _ => simp [occurrences, optionOccurrences, ho]

theorem Holds.occurrences_subset {s : Stmt} {e : Expr} (h : Holds s e) :
    e.occurrences ⊆ s.occurrences := by
  intro o ho
  cases h <;> simp [occurrences, Expr.optionOccurrences, ho]

theorem mem_occurrences_of_occurrence? {s : Stmt} {o : Occurrence} (h : s.occurrence? = some o) :
    o ∈ s.occurrences := by
  cases s <;> simp_all [occurrence?, occurrences]

theorem mem_blockOccurrences_iff {body : List Stmt} {o : Occurrence} :
    o ∈ blockOccurrences body ↔ ∃ s ∈ body, o ∈ s.occurrences := by
  rw [blockOccurrences_eq_flatMap, List.mem_flatMap]

/-- What occurs in a statement is what it is itself, or occurs in an expression it holds, or
in a part. -/
theorem occurrence?_or_holds_or_part {s : Stmt} {o : Occurrence} (h : o ∈ s.occurrences) :
    s.occurrence? = some o ∨ (∃ e, Holds s e ∧ o ∈ e.occurrences) ∨
      ∃ p, Part p s ∧ o ∈ p.occurrences := by
  cases s with
  | block body =>
    obtain ⟨s, hs, h⟩ := mem_blockOccurrences_iff.1 h
    exact .inr (.inr ⟨s, .block hs, h⟩)
  | unchecked body =>
    obtain ⟨s, hs, h⟩ := mem_blockOccurrences_iff.1 h
    exact .inr (.inr ⟨s, .unchecked hs, h⟩)
  | placeholder => exact .inl (by simpa [occurrences, occurrence?, eq_comm] using h)
  | eval e => exact .inr (.inl ⟨e, .eval, h⟩)
  | locals names value =>
    cases value with
    | none => simp [occurrences, Expr.optionOccurrences] at h
    | some e => exact .inr (.inl ⟨e, .value, h⟩)
  | branch condition yes no =>
    rcases List.mem_append.1 h with h | h
    · rcases List.mem_append.1 h with h | h
      · exact .inr (.inl ⟨condition, .branch, h⟩)
      · exact .inr (.inr ⟨yes, .yes, h⟩)
    · cases no with
      | none => simp [optionOccurrences] at h
      | some no => exact .inr (.inr ⟨no, .no, h⟩)
  | whileLoop condition body =>
    rcases List.mem_append.1 h with h | h
    · exact .inr (.inl ⟨condition, .whileLoop, h⟩)
    · exact .inr (.inr ⟨body, .whileBody, h⟩)
  | doWhile body condition =>
    rcases List.mem_append.1 h with h | h
    · exact .inr (.inr ⟨body, .doBody, h⟩)
    · exact .inr (.inl ⟨condition, .doWhile, h⟩)
  | forLoop start condition step body =>
    simp only [occurrences, List.mem_append] at h
    rcases h with ((h | h) | h) | h
    · cases start with
      | none => simp [optionOccurrences] at h
      | some start => exact .inr (.inr ⟨start, .start, h⟩)
    · cases condition with
      | none => simp [Expr.optionOccurrences] at h
      | some e => exact .inr (.inl ⟨e, .condition, h⟩)
    · cases step with
      | none => simp [Expr.optionOccurrences] at h
      | some e => exact .inr (.inl ⟨e, .step, h⟩)
    · exact .inr (.inr ⟨body, .forBody, h⟩)
  | returnValue value =>
    cases value with
    | none => simp [occurrences, Expr.optionOccurrences] at h
    | some e => exact .inr (.inl ⟨e, .returnValue, h⟩)
  | emit event =>
    rcases List.mem_cons.1 h with rfl | h
    · exact .inl rfl
    · exact .inr (.inl ⟨event, .emit, h⟩)
  | revert error => exact .inr (.inl ⟨error, .revert, h⟩)
  | breakLoop => simp [occurrences] at h
  | continueLoop => simp [occurrences] at h

/-- **What occurs in a statement** is what the statements within it are, and what occurs in
the expressions that they hold. -/
theorem mem_occurrences {s : Stmt} {o : Occurrence} :
    o ∈ s.occurrences ↔
      ∃ p, Within p s ∧ (p.occurrence? = some o ∨ ∃ e, Holds p e ∧ o ∈ e.occurrences) := by
  constructor
  · intro h
    induction hn : sizeOf s using Nat.strongRecOn generalizing s with
    | _ n ih =>
      rcases occurrence?_or_holds_or_part h with ho | ho | ⟨p, hp, ho⟩
      · exact ⟨s, .refl, .inl ho⟩
      · exact ⟨s, .refl, .inr ho⟩
      · obtain ⟨q, hq, hqo⟩ := ih (sizeOf p) (hn ▸ hp.sizeOf_lt) ho rfl
        exact ⟨q, hq.tail hp, hqo⟩
  · intro hex
    obtain ⟨p, hp, ho⟩ := hex
    induction hp with
    | refl =>
      rcases ho with ho | ⟨e, he, ho⟩
      · exact mem_occurrences_of_occurrence? ho
      · exact he.occurrences_subset ho
    | tail _ hpart ih => exact hpart.occurrences_subset ih

/-! ### Placeholders -/

theorem Part.hasPlaceholder {p s : Stmt} (h : Part p s) (hp : p.hasPlaceholder = true) :
    s.hasPlaceholder = true := by
  cases h with
  | block hs =>
    rw [Stmt.hasPlaceholder, blockHasPlaceholder_eq_any]
    exact List.any_eq_true.2 ⟨p, hs, hp⟩
  | unchecked hs =>
    rw [Stmt.hasPlaceholder, blockHasPlaceholder_eq_any]
    exact List.any_eq_true.2 ⟨p, hs, hp⟩
  | _ => simp [Stmt.hasPlaceholder, optionHasPlaceholder, hp]

theorem eq_placeholder_or_part {s : Stmt} (h : s.hasPlaceholder = true) :
    s = .placeholder ∨ ∃ p, Part p s ∧ p.hasPlaceholder = true := by
  cases s with
  | block body =>
    rw [hasPlaceholder, blockHasPlaceholder_eq_any] at h
    obtain ⟨p, hp, h⟩ := List.any_eq_true.1 h
    exact .inr ⟨p, .block hp, h⟩
  | unchecked body =>
    rw [hasPlaceholder, blockHasPlaceholder_eq_any] at h
    obtain ⟨p, hp, h⟩ := List.any_eq_true.1 h
    exact .inr ⟨p, .unchecked hp, h⟩
  | placeholder => exact .inl rfl
  | branch condition yes no =>
    rcases Bool.or_eq_true_iff.1 h with h | h
    · exact .inr ⟨yes, .yes, h⟩
    · cases no with
      | none => simp [optionHasPlaceholder] at h
      | some no => exact .inr ⟨no, .no, h⟩
  | whileLoop condition body => exact .inr ⟨body, .whileBody, h⟩
  | doWhile body condition => exact .inr ⟨body, .doBody, h⟩
  | forLoop start condition step body =>
    rcases Bool.or_eq_true_iff.1 h with h | h
    · exact .inr ⟨body, .forBody, h⟩
    · cases start with
      | none => simp [optionHasPlaceholder] at h
      | some start => exact .inr ⟨start, .start, h⟩
  | _ => simp [hasPlaceholder] at h

theorem hasPlaceholder_iff {s : Stmt} : s.hasPlaceholder = true ↔ Within .placeholder s := by
  constructor
  · intro h
    induction hn : sizeOf s using Nat.strongRecOn generalizing s with
    | _ n ih =>
      rcases eq_placeholder_or_part h with rfl | ⟨p, hp, h⟩
      · exact .refl
      · exact (ih (sizeOf p) (hn ▸ hp.sizeOf_lt) h rfl).tail hp
  · intro h
    induction h with
    | refl => rfl
    | tail _ hpart ih => exact hpart.hasPlaceholder ih

end Stmt

namespace Callable

def body? : Callable → Option Block
  | function f => f.body
  | modifier m => m.body

/-- The invocations in the head of a callable; only functions have any. -/
def invocations : Callable → List Invocation
  | function f => f.invocations
  | modifier _ => []

/-- The statement stands in the body of the callable, at any depth. -/
def HasStmt (c : Callable) (s : Stmt) : Prop :=
  ∃ body, c.body? = some body ∧ ∃ top ∈ body, s.Within top

/-- The expression is an argument of an invocation, or held by a statement of the body. -/
def Root (c : Callable) (e : Expr) : Prop :=
  (∃ i ∈ c.invocations, e ∈ i.args) ∨ ∃ s, c.HasStmt s ∧ s.Holds e

end Callable

theorem Block.mem_occurrences {body : Block} {o : Occurrence} :
    o ∈ body.occurrences ↔
      ∃ top ∈ body, ∃ s : Stmt, s.Within top ∧
        (s.occurrence? = some o ∨ ∃ e, s.Holds e ∧ o ∈ e.occurrences) := by
  simp only [Block.occurrences, Stmt.mem_blockOccurrences_iff, Stmt.mem_occurrences]

namespace Callable

theorem occurrences_eq (c : Callable) :
    c.occurrences =
      c.invocations.flatMap Invocation.occurrences ++ (c.body?.getD []).occurrences := by
  cases c with
  | function f => rfl
  | modifier m => rfl

/-- **What occurs in a callable**: what occurs in the expressions at its roots, what its
statements are, and its invocations. -/
theorem mem_occurrences {c : Callable} {o : Occurrence} :
    o ∈ c.occurrences ↔ (∃ e, c.Root e ∧ o ∈ e.occurrences) ∨
      (∃ s, c.HasStmt s ∧ s.occurrence? = some o) ∨ ∃ i ∈ c.invocations, o = .invocation i := by
  have hbody : o ∈ (c.body?.getD []).occurrences ↔ ∃ s, c.HasStmt s ∧
      (s.occurrence? = some o ∨ ∃ e, s.Holds e ∧ o ∈ e.occurrences) := by
    rw [Block.mem_occurrences]
    cases hb : c.body? with
    | none => simp [HasStmt, hb]
    | some body =>
      simp only [HasStmt, hb, Option.getD_some, Option.some.injEq, exists_eq_left']
      grind
  rw [occurrences_eq, List.mem_append, hbody, List.mem_flatMap]
  simp only [Invocation.occurrences, Expr.listOccurrences_eq_flatMap, List.mem_append,
    List.mem_flatMap, List.mem_singleton, Root]
  grind

end Callable

theorem Expr.placeholder_not_mem_occurrences (e : Expr) : .placeholder ∉ e.occurrences := by
  intro h
  obtain ⟨p, _, hp⟩ := Expr.mem_occurrences.1 h
  cases p <;> cases hp

theorem Block.placeholder_mem_occurrences {body : Block} :
    .placeholder ∈ body.occurrences ↔ body.hasPlaceholder = true := by
  have htop : body.hasPlaceholder = true ↔ ∃ top ∈ body, Stmt.Within .placeholder top := by
    simp only [Block.hasPlaceholder, Stmt.blockHasPlaceholder_eq_any, List.any_eq_true,
      Stmt.hasPlaceholder_iff]
  rw [Block.mem_occurrences, htop]
  constructor
  · rintro ⟨top, hmem, s, hs, ho | ⟨e, _, ho⟩⟩
    · cases s with
      | placeholder => exact ⟨top, hmem, hs⟩
      | _ => cases ho
    · exact absurd ho e.placeholder_not_mem_occurrences
  · rintro ⟨top, hmem, hs⟩
    exact ⟨top, hmem, .placeholder, hs, .inl rfl⟩

theorem Modifier.placeholder_mem_occurrences {m : Modifier} :
    .placeholder ∈ m.occurrences ↔ m.hasPlaceholder = true := by
  rw [Modifier.occurrences, Block.placeholder_mem_occurrences, Modifier.hasPlaceholder]
  cases m.body <;> rfl

theorem Modifier.hasPlaceholder_iff {m : Modifier} :
    m.hasPlaceholder = true ↔ (Callable.modifier m).HasStmt .placeholder := by
  unfold Modifier.hasPlaceholder Callable.HasStmt Callable.body?
  cases hb : m.body with
  | none => simp [hb]
  | some body =>
    simp [hb, Block.hasPlaceholder, Stmt.blockHasPlaceholder_eq_any, Stmt.hasPlaceholder_iff]

end ContractCalls
