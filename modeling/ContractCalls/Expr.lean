import ContractCalls.DeclId

/-!
# Expressions

The expressions of contract code, with the notes that name and type resolution
left on them: which declaration a name refers to and how it is to be looked up,
the function type of an expression, and whether it is the callee of a call.

`Expr` holds the twelve forms.  The functions below it make the combinations of
forms and notes that resolution leaves on the usual phrases: `internalCall` on
`g(x)`, `superCall` on `super.g(x)`, `functionRef` on `g` used as a value.

`Expr.beq` decides equality of expressions, `Expr.beq_iff` says so.
-/

namespace ContractCalls

/-- How the callable that a name refers to is looked up. -/
inductive Lookup where
  /-- An unqualified name: the most derived implementation. -/
  | virtual
  /-- A qualified name: exactly the declaration named. -/
  | static
  /-- `super` written in the contract `scope`: the next implementation after it. -/
  | super (scope : DeclId)
  deriving DecidableEq

inductive FunctionType where
  | internal
  | external
  | delegateCall
  | bareCall
  | creation
  | event
  | error
  | builtin
  deriving DecidableEq

namespace FunctionType

def all : List FunctionType :=
  [internal, external, delegateCall, bareCall, creation, event, error, builtin]

/-- The function runs as part of the same contract. -/
def isInternal : FunctionType → Bool
  | internal => true
  | _ => false

end FunctionType

inductive CallKind where
  | function
  /-- A conversion to a type, `uint8(x)`. -/
  | conversion
  /-- The making of a structure value, `S(x)`. -/
  | construction
  deriving DecidableEq

/-- What resolution noted about an expression. -/
structure Note where
  functionType : Option FunctionType := none
  /-- The expression names a callable that is called on the spot. -/
  calledDirectly : Bool := false
  deriving DecidableEq

namespace Note

def isInternal (note : Note) : Bool := note.functionType.any FunctionType.isInternal

end Note

/-- A name as written, with what it refers to. -/
structure Reference where
  name : String
  declaration : Option DeclId
  lookup : Lookup
  deriving DecidableEq

inductive Expr where
  | literal (note : Note) (value : String)
  | typeName (note : Note) (name : String)
  | identifier (note : Note) (ref : Reference)
  | member (note : Note) (inner : Expr) (ref : Reference)
  /-- A call, or what is written like one. -/
  | call (note : Note) (callee : Expr) (args : List Expr) (kind : CallKind)
  /-- `new T`, with the contract `T` names, if it names one. -/
  | new (note : Note) (name : String) (contract : Option DeclId)
  | index (note : Note) (base : Expr) (index : Option Expr)
  | unary (note : Note) (operator : String) (operand : Expr)
  | binary (note : Note) (left : Expr) (operator : String) (right : Expr)
  | assign (note : Note) (left : Expr) (operator : String) (right : Expr)
  | conditional (note : Note) (condition yes no : Expr)
  /-- A tuple; components may be left out. -/
  | tuple (note : Note) (items : List (Option Expr))

instance : Inhabited Expr := ⟨.literal {} ""⟩

namespace Expr

/-! ### Notes -/

def note : Expr → Note
  | literal n .. | typeName n .. | identifier n .. | member n .. | call n .. | new n ..
  | index n .. | unary n .. | binary n .. | assign n .. | conditional n .. | tuple n .. => n

/-- The same expression under another note. -/
def withNote (n : Note) : Expr → Expr
  | literal _ v => literal n v
  | typeName _ v => typeName n v
  | identifier _ r => identifier n r
  | member _ e r => member n e r
  | call _ f as k => call n f as k
  | new _ v c => new n v c
  | index _ b i => index n b i
  | unary _ o e => unary n o e
  | binary _ l o r => binary n l o r
  | assign _ l o r => assign n l o r
  | conditional _ c a b => conditional n c a b
  | tuple _ is => tuple n is

def withFunctionType (t : FunctionType) (e : Expr) : Expr :=
  e.withNote { e.note with functionType := some t }

/-- The same expression, marked as called on the spot. -/
def calledDirectly (e : Expr) : Expr :=
  e.withNote { e.note with calledDirectly := true }

/-- The declaration that an identifier or a member refers to. -/
def declaration : Expr → Option DeclId
  | identifier _ r => r.declaration
  | member _ _ r => r.declaration
  | _ => none

@[simp] theorem note_withNote (n : Note) (e : Expr) : (e.withNote n).note = n := by
  cases e <;> rfl

/-! ### The usual phrases -/

/-- A name without a note, looked up virtually. -/
def plain (name : String) (declaration : Option DeclId) : Expr :=
  identifier {} ⟨name, declaration, .virtual⟩

/-- A call of `callee`, whose note is taken as it is. -/
def callOf (callee : Expr) (args : List Expr) : Expr := call {} callee args .function

/-- A function named as a value, `g` in `pointer = g`; also a variable that holds one. -/
def functionRef (name : String) (function : DeclId) : Expr :=
  (plain name (some function)).withFunctionType .internal

/-- `g(args)` for an internal function `g`. -/
def internalCall (name : String) (function : DeclId) (args : List Expr) : Expr :=
  callOf (functionRef name function).calledDirectly args

/-- A member that names an internal function and is called on the spot. -/
def calledMember (qualifier name : String) (function : DeclId) (lookup : Lookup) : Expr :=
  member ⟨some .internal, true⟩ (plain qualifier none) ⟨name, some function, lookup⟩

/-- `Qualifier.g(args)`, which runs exactly the function named. -/
def staticCall (qualifier name : String) (function : DeclId) (args : List Expr) : Expr :=
  callOf (calledMember qualifier name function .static) args

/-- `super.g(args)` written in the contract `scope`. -/
def superCall (scope : DeclId) (name : String) (function : DeclId) (args : List Expr) : Expr :=
  callOf (calledMember "super" name function (.super scope)) args

/-- A message call `target.name(args)` to another contract. -/
def externalCall (target : Expr) (name : String) (function : Option DeclId)
    (args : List Expr) : Expr :=
  callOf (member { functionType := some .external } target ⟨name, function, .static⟩) args

def builtinCall (name : String) (args : List Expr) : Expr :=
  callOf ((plain name none).withFunctionType .builtin) args

/-- The call `E(args)` inside `emit E(args)`. -/
def eventCall (name : String) (event : DeclId) (args : List Expr) : Expr :=
  callOf ((plain name (some event)).withFunctionType .event) args

/-- `new C(args)`. -/
def newContract (name : String) (contract : DeclId) (args : List Expr) : Expr :=
  callOf (new { functionType := some .creation } name (some contract)) args

/-- The conversion `T(arg)`. -/
def typeConversion (name : String) (arg : Expr) : Expr :=
  call {} (typeName {} name) [arg] .conversion

/-! ### Equality -/

mutual

def beq : Expr → Expr → Bool
  | literal n v, literal n' v' => n == n' && v == v'
  | typeName n v, typeName n' v' => n == n' && v == v'
  | identifier n r, identifier n' r' => n == n' && r == r'
  | member n e r, member n' e' r' => n == n' && beq e e' && r == r'
  | call n f as k, call n' f' as' k' => n == n' && beq f f' && beqList as as' && k == k'
  | new n v c, new n' v' c' => n == n' && v == v' && c == c'
  | index n b i, index n' b' i' => n == n' && beq b b' && beqOption i i'
  | unary n o e, unary n' o' e' => n == n' && o == o' && beq e e'
  | binary n l o r, binary n' l' o' r' => n == n' && beq l l' && o == o' && beq r r'
  | assign n l o r, assign n' l' o' r' => n == n' && beq l l' && o == o' && beq r r'
  | conditional n c a b, conditional n' c' a' b' =>
    n == n' && beq c c' && beq a a' && beq b b'
  | tuple n is, tuple n' is' => n == n' && beqItems is is'
  | _, _ => false

def beqList : List Expr → List Expr → Bool
  | [], [] => true
  | e :: es, e' :: es' => beq e e' && beqList es es'
  | _, _ => false

def beqOption : Option Expr → Option Expr → Bool
  | none, none => true
  | some e, some e' => beq e e'
  | _, _ => false

def beqItems : List (Option Expr) → List (Option Expr) → Bool
  | [], [] => true
  | e :: es, e' :: es' => beqOption e e' && beqItems es es'
  | _, _ => false

end

mutual

theorem beq_iff : ∀ a b : Expr, beq a b = true ↔ a = b
  | literal .., b => by cases b <;> simp [beq]
  | typeName .., b => by cases b <;> simp [beq]
  | identifier .., b => by cases b <;> simp [beq]
  | member _ e _, b => by cases b <;> simp [beq, beq_iff e, and_assoc]
  | call _ f as _, b => by cases b <;> simp [beq, beq_iff f, beqList_iff as, and_assoc]
  | new .., b => by cases b <;> simp [beq, and_assoc]
  | index _ e i, b => by cases b <;> simp [beq, beq_iff e, beqOption_iff i, and_assoc]
  | unary _ _ e, b => by cases b <;> simp [beq, beq_iff e, and_assoc]
  | binary _ l _ r, b => by cases b <;> simp [beq, beq_iff l, beq_iff r, and_assoc]
  | assign _ l _ r, b => by cases b <;> simp [beq, beq_iff l, beq_iff r, and_assoc]
  | conditional _ c x y, b => by
    cases b <;> simp [beq, beq_iff c, beq_iff x, beq_iff y, and_assoc]
  | tuple _ is, b => by cases b <;> simp [beq, beqItems_iff is]

theorem beqList_iff : ∀ as bs : List Expr, beqList as bs = true ↔ as = bs
  | [], bs => by cases bs <;> simp [beqList]
  | a :: as, bs => by cases bs <;> simp [beqList, beq_iff a, beqList_iff as]

theorem beqOption_iff : ∀ a b : Option Expr, beqOption a b = true ↔ a = b
  | none, b => by cases b <;> simp [beqOption]
  | some a, b => by cases b <;> simp [beqOption, beq_iff a]

theorem beqItems_iff : ∀ as bs : List (Option Expr), beqItems as bs = true ↔ as = bs
  | [], bs => by cases bs <;> simp [beqItems]
  | a :: as, bs => by cases bs <;> simp [beqItems, beqOption_iff a, beqItems_iff as]

end

instance : DecidableEq Expr := fun a b => decidable_of_iff _ (beq_iff a b)

end Expr

end ContractCalls
