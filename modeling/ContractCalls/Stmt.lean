import ContractCalls.Expr

/-!
# Statements

The statements of function and modifier bodies.  A `Block` is a list of
statements.  Inside the body of a modifier, the placeholder `_;` stands for the
function that the modifier is attached to; `Stmt.hasPlaceholder` tells whether
one occurs in a statement, at any depth.

`Stmt.beq` decides equality of statements, `Stmt.beq_iff` says so.
-/

namespace ContractCalls

inductive Stmt where
  | block (body : List Stmt)
  /-- A block with unchecked arithmetic. -/
  | unchecked (body : List Stmt)
  /-- `_;`, the place of the modified function. -/
  | placeholder
  /-- An expression that is evaluated for its effects. -/
  | eval (e : Expr)
  | locals (names : List String) (value : Option Expr)
  | branch (condition : Expr) (yes : Stmt) (no : Option Stmt)
  | whileLoop (condition : Expr) (body : Stmt)
  /-- A loop that tests after its body. -/
  | doWhile (body : Stmt) (condition : Expr)
  /-- A counting loop; each part of its head may be left out. -/
  | forLoop (start : Option Stmt) (condition step : Option Expr) (body : Stmt)
  | returnValue (value : Option Expr)
  /-- The emission of an event, written as a call of it. -/
  | emit (event : Expr)
  | revert (error : Expr)
  | breakLoop
  | continueLoop

/-- Statements in the order of writing. -/
abbrev Block := List Stmt

namespace Stmt

instance : Inhabited Stmt := ⟨.placeholder⟩

mutual

/-- A placeholder occurs in the statement. -/
def hasPlaceholder : Stmt → Bool
  | block body => blockHasPlaceholder body
  | unchecked body => blockHasPlaceholder body
  | placeholder => true
  | branch _ yes no => hasPlaceholder yes || optionHasPlaceholder no
  | whileLoop _ body => hasPlaceholder body
  | doWhile body _ => hasPlaceholder body
  | forLoop start _ _ body => hasPlaceholder body || optionHasPlaceholder start
  | _ => false

def blockHasPlaceholder : List Stmt → Bool
  | [] => false
  | s :: rest => hasPlaceholder s || blockHasPlaceholder rest

def optionHasPlaceholder : Option Stmt → Bool
  | none => false
  | some s => hasPlaceholder s

end

theorem blockHasPlaceholder_eq_any (body : List Stmt) :
    blockHasPlaceholder body = body.any hasPlaceholder := by
  induction body with
  | nil => rfl
  | cons s rest ih => simp [blockHasPlaceholder, ih]

/-! ### Equality -/

mutual

def beq : Stmt → Stmt → Bool
  | block b, block b' => beqList b b'
  | unchecked b, unchecked b' => beqList b b'
  | placeholder, placeholder => true
  | eval e, eval e' => e == e'
  | locals ns v, locals ns' v' => ns == ns' && v == v'
  | branch c a b, branch c' a' b' => c == c' && beq a a' && beqOption b b'
  | whileLoop c b, whileLoop c' b' => c == c' && beq b b'
  | doWhile b c, doWhile b' c' => beq b b' && c == c'
  | forLoop i c s b, forLoop i' c' s' b' =>
    beqOption i i' && c == c' && s == s' && beq b b'
  | returnValue v, returnValue v' => v == v'
  | emit e, emit e' => e == e'
  | revert e, revert e' => e == e'
  | breakLoop, breakLoop => true
  | continueLoop, continueLoop => true
  | _, _ => false

def beqList : List Stmt → List Stmt → Bool
  | [], [] => true
  | s :: rest, s' :: rest' => beq s s' && beqList rest rest'
  | _, _ => false

def beqOption : Option Stmt → Option Stmt → Bool
  | none, none => true
  | some s, some s' => beq s s'
  | _, _ => false

end

mutual

theorem beq_iff : ∀ a b : Stmt, beq a b = true ↔ a = b
  | block as, b => by cases b <;> simp [beq, beqList_iff as]
  | unchecked as, b => by cases b <;> simp [beq, beqList_iff as]
  | placeholder, b => by cases b <;> simp [beq]
  | eval _, b => by cases b <;> simp [beq]
  | locals .., b => by cases b <;> simp [beq]
  | branch _ x y, b => by cases b <;> simp [beq, beq_iff x, beqOption_iff y, and_assoc]
  | whileLoop _ x, b => by cases b <;> simp [beq, beq_iff x]
  | doWhile x _, b => by cases b <;> simp [beq, beq_iff x]
  | forLoop i _ _ x, b => by cases b <;> simp [beq, beqOption_iff i, beq_iff x, and_assoc]
  | returnValue _, b => by cases b <;> simp [beq]
  | emit _, b => by cases b <;> simp [beq]
  | revert _, b => by cases b <;> simp [beq]
  | breakLoop, b => by cases b <;> simp [beq]
  | continueLoop, b => by cases b <;> simp [beq]

theorem beqList_iff : ∀ as bs : List Stmt, beqList as bs = true ↔ as = bs
  | [], bs => by cases bs <;> simp [beqList]
  | a :: as, bs => by cases bs <;> simp [beqList, beq_iff a, beqList_iff as]

theorem beqOption_iff : ∀ a b : Option Stmt, beqOption a b = true ↔ a = b
  | none, b => by cases b <;> simp [beqOption]
  | some a, b => by cases b <;> simp [beqOption, beq_iff a]

end

instance : DecidableEq Stmt := fun a b => decidable_of_iff _ (beq_iff a b)

end Stmt

namespace Block

def hasPlaceholder (body : Block) : Bool := Stmt.blockHasPlaceholder body

end Block

end ContractCalls
