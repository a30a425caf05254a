import ContractCalls.Proofs.Code.Openings
import Mathlib.Data.List.Forall2
import Mathlib.Data.Option.Basic

/-!
# Constants that are spelled out

In the place of a constant its initializer can be written.  `Expr.SpellsOut` says that this was done
with one identifier of an expression; `Stmt.SpellsOut`, `Declaration.SpellsOut` and `Tree.SpellsOut`
say so of larger pieces of code.  Two identifiers have to stay: one that is called as a function,
since a call is told by the note on its callee, and one that names the event of an `emit`.

What occurs in the code is then `Tree.Spelled`: in the place of the name there is what occurs in the
initializer, and of what stands around it only parts have changed that tell nothing
(`Occurrence.Alike`).  Reading opens the name in any case, so it leaves the same (`Opens.spelled`).
-/

namespace ContractCalls

namespace Expr

def isIdentifier : Expr → Bool
  | identifier .. => true
  | _ => false

def callee? : Expr → Option Expr
  | call _ callee _ _ => some callee
  | _ => none

/-- The second expression is the first one, in which a constant that an identifier names was
replaced by its initializer.  An identifier that is called as a function stays. -/
inductive SpellsOut (t : Tree) : Expr → Expr → Prop where
  | here {note : Note} {ref : Reference} {id : DeclId} {v : Expr} : ref.declaration = some id →
      t.constantValue? id = some v → SpellsOut t (.identifier note ref) v
  | inner {note : Note} {e e' : Expr} {ref : Reference} : SpellsOut t e e' →
      SpellsOut t (.member note e ref) (.member note e' ref)
  | callee {note : Note} {e e' : Expr} {args : List Expr} {kind : CallKind} :
      SpellsOut t e e' → (kind = .function → e.isIdentifier = false) →
      SpellsOut t (.call note e args kind) (.call note e' args kind)
  | arg {note : Note} {callee e e' : Expr} {before after : List Expr} {kind : CallKind} :
      SpellsOut t e e' → SpellsOut t (.call note callee (before ++ e :: after) kind)
        (.call note callee (before ++ e' :: after) kind)
  | base {note : Note} {e e' : Expr} {i : Option Expr} : SpellsOut t e e' →
      SpellsOut t (.index note e i) (.index note e' i)
  | subscript {note : Note} {base e e' : Expr} : SpellsOut t e e' →
      SpellsOut t (.index note base (some e)) (.index note base (some e'))
  | operand {note : Note} {operator : String} {e e' : Expr} : SpellsOut t e e' →
      SpellsOut t (.unary note operator e) (.unary note operator e')
  | left {note : Note} {operator : String} {e e' right : Expr} : SpellsOut t e e' →
      SpellsOut t (.binary note e operator right) (.binary note e' operator right)
  | right {note : Note} {operator : String} {left e e' : Expr} : SpellsOut t e e' →
      SpellsOut t (.binary note left operator e) (.binary note left operator e')
  | place {note : Note} {operator : String} {e e' value : Expr} : SpellsOut t e e' →
      SpellsOut t (.assign note e operator value) (.assign note e' operator value)
  | value {note : Note} {operator : String} {place e e' : Expr} : SpellsOut t e e' →
      SpellsOut t (.assign note place operator e) (.assign note place operator e')
  | condition {note : Note} {e e' yes no : Expr} : SpellsOut t e e' →
      SpellsOut t (.conditional note e yes no) (.conditional note e' yes no)
  | yes {note : Note} {condition e e' no : Expr} : SpellsOut t e e' →
      SpellsOut t (.conditional note condition e no) (.conditional note condition e' no)
  | no {note : Note} {condition yes e e' : Expr} : SpellsOut t e e' →
      SpellsOut t (.conditional note condition yes e) (.conditional note condition yes e')
  | item {note : Note} {e e' : Expr} {before after : List (Option Expr)} : SpellsOut t e e' →
      SpellsOut t (.tuple note (before ++ some e :: after))
        (.tuple note (before ++ some e' :: after))

end Expr

/-- The second statement is the first one, in which a constant was replaced by its initializer.
An identifier stays if it is all that is emitted, or if it is called by what is emitted. -/
inductive Stmt.SpellsOut (t : Tree) : Stmt → Stmt → Prop where
  | block {s s' : Stmt} {before after : List Stmt} : SpellsOut t s s' →
      SpellsOut t (.block (before ++ s :: after)) (.block (before ++ s' :: after))
  | unchecked {s s' : Stmt} {before after : List Stmt} : SpellsOut t s s' →
      SpellsOut t (.unchecked (before ++ s :: after)) (.unchecked (before ++ s' :: after))
  | eval {e e' : Expr} : e.SpellsOut t e' → SpellsOut t (.eval e) (.eval e')
  | locals {names : List String} {e e' : Expr} : e.SpellsOut t e' →
      SpellsOut t (.locals names (some e)) (.locals names (some e'))
  | condition {e e' : Expr} {yes : Stmt} {no : Option Stmt} : e.SpellsOut t e' →
      SpellsOut t (.branch e yes no) (.branch e' yes no)
  | yes {condition : Expr} {s s' : Stmt} {no : Option Stmt} : SpellsOut t s s' →
      SpellsOut t (.branch condition s no) (.branch condition s' no)
  | no {condition : Expr} {yes s s' : Stmt} : SpellsOut t s s' →
      SpellsOut t (.branch condition yes (some s)) (.branch condition yes (some s'))
  | whileCondition {e e' : Expr} {body : Stmt} : e.SpellsOut t e' →
      SpellsOut t (.whileLoop e body) (.whileLoop e' body)
  | whileBody {condition : Expr} {s s' : Stmt} : SpellsOut t s s' →
      SpellsOut t (.whileLoop condition s) (.whileLoop condition s')
  | doBody {s s' : Stmt} {condition : Expr} : SpellsOut t s s' →
      SpellsOut t (.doWhile s condition) (.doWhile s' condition)
  | doCondition {body : Stmt} {e e' : Expr} : e.SpellsOut t e' →
      SpellsOut t (.doWhile body e) (.doWhile body e')
  | forStart {s s' body : Stmt} {condition step : Option Expr} : SpellsOut t s s' →
      SpellsOut t (.forLoop (some s) condition step body) (.forLoop (some s') condition step body)
  | forCondition {start : Option Stmt} {e e' : Expr} {step : Option Expr} {body : Stmt} :
      e.SpellsOut t e' →
      SpellsOut t (.forLoop start (some e) step body) (.forLoop start (some e') step body)
  | forStep {start : Option Stmt} {condition : Option Expr} {e e' : Expr} {body : Stmt} :
      e.SpellsOut t e' →
      SpellsOut t (.forLoop start condition (some e) body) (.forLoop start condition (some e') body)
  | forBody {start : Option Stmt} {condition step : Option Expr} {s s' : Stmt} :
      SpellsOut t s s' →
      SpellsOut t (.forLoop start condition step s) (.forLoop start condition step s')
  | returnValue {e e' : Expr} : e.SpellsOut t e' →
      SpellsOut t (.returnValue (some e)) (.returnValue (some e'))
  | emit {e e' : Expr} : e.SpellsOut t e' → e.isIdentifier = false →
      (∀ f, e.callee? = some f → f.isIdentifier = true → e'.callee? = some f) →
      SpellsOut t (.emit e) (.emit e')
  | revert {e e' : Expr} : e.SpellsOut t e' → SpellsOut t (.revert e) (.revert e')

/-- The second declaration is the first one, in which a constant was replaced by its initializer: in
a body, in an argument of an invocation, in an initializer, or in an argument for a base. -/
inductive Declaration.SpellsOut (t : Tree) : Declaration → Declaration → Prop where
  | functionBody {f : Function} {before after : Block} {s s' : Stmt} :
      f.body = some (before ++ s :: after) → s.SpellsOut t s' →
      SpellsOut t (.function f) (.function { f with body := some (before ++ s' :: after) })
  | modifierBody {m : Modifier} {before after : Block} {s s' : Stmt} :
      m.body = some (before ++ s :: after) → s.SpellsOut t s' →
      SpellsOut t (.modifier m) (.modifier { m with body := some (before ++ s' :: after) })
  | invocationArg {f : Function} {earlier later : List Invocation} {ref : Reference}
      {before after : List Expr} {e e' : Expr} :
      f.invocations = earlier ++ ⟨ref, before ++ e :: after⟩ :: later → e.SpellsOut t e' →
      SpellsOut t (.function f) (.function
        { f with invocations := earlier ++ ⟨ref, before ++ e' :: after⟩ :: later })
  | initializer {v : Variable} {e e' : Expr} : v.value = some e → e.SpellsOut t e' →
      SpellsOut t (.variable v) (.variable { v with value := some e' })
  | baseArg {c : Contract} {earlier later : List Base} {id : DeclId} {before after : List Expr}
      {e e' : Expr} :
      c.bases = earlier ++ ⟨id, before ++ e :: after⟩ :: later → e.SpellsOut t e' →
      SpellsOut t (.contract c) (.contract
        { c with bases := earlier ++ ⟨id, before ++ e' :: after⟩ :: later })

/-- The second tree is the first one, in which a constant was replaced by its initializer at one
place. -/
def Tree.SpellsOut (t t' : Tree) : Prop :=
  ∃ id d d', t.find? id = some d ∧ d.SpellsOut t d' ∧ t' = t.replace id d'

/-! ### Occurrences -/

/-- What an `emit` of the expression names as its event, if it is a call. -/
def Expr.emitted? : Expr → Option (Option DeclId)
  | .call _ callee _ _ => some callee.declaration
  | _ => none

theorem Expr.exists_call_of_emitted? {e : Expr} {ref : Option DeclId} (h : e.emitted? = some ref) :
    ∃ note callee args kind, e = .call note callee args kind ∧ callee.declaration = ref := by
  cases e with
  | call => exact ⟨_, _, _, _, rfl, Option.some.inj h⟩
  | _ => cases h

/-- The occurrences differ at most in parts that tell nothing. -/
inductive Occurrence.Alike : Occurrence → Occurrence → Prop where
  | refl {o : Occurrence} : Alike o o
  | call {callee callee' : Expr} {args args' : List Expr} {kind : CallKind} :
      (kind = .function → callee'.note = callee.note) →
      Alike (.call callee args kind) (.call callee' args' kind)
  | emission {e e' : Expr} : e'.emitted? = e.emitted? → Alike (.emission e) (.emission e')
  | invocation {ref : Reference} {args args' : List Expr} :
      Alike (.invocation ⟨ref, args⟩) (.invocation ⟨ref, args'⟩)

theorem Occurrence.Alike.named?_eq {o o' : Occurrence} (h : o.Alike o') : o'.named? = o.named? := by
  cases h <;> rfl

namespace Tree

/-- The second list is the first one, with what occurs in its initializer in the place of the names
of some constants. -/
inductive Spelled (t : Tree) : List Occurrence → List Occurrence → Prop where
  | nil : Spelled t [] []
  | keep {o o' : Occurrence} {os os' : List Occurrence} : o.Alike o' → Spelled t os os' →
      Spelled t (o :: os) (o' :: os')
  | spell {o : Occurrence} {id : DeclId} {v : Expr} {os os' : List Occurrence} :
      o.named? = some id → t.constantValue? id = some v → Spelled t os os' →
      Spelled t (o :: os) (v.occurrences ++ os')

variable {t : Tree} {os os' : List Occurrence}

theorem Spelled.refl (os : List Occurrence) : t.Spelled os os := by
  induction os with
  | nil => exact .nil
  | cons o os ih => exact .keep .refl ih

theorem Spelled.append {more more' : List Occurrence} (h : t.Spelled os os')
    (hmore : t.Spelled more more') : t.Spelled (os ++ more) (os' ++ more') := by
  induction h with
  | nil => exact hmore
  | keep halike _ ih => exact .keep halike ih
  | spell hid hv _ ih =>
    rw [List.append_assoc]
    exact .spell hid hv ih

theorem Spelled.left (h : t.Spelled os os') (more : List Occurrence) :
    t.Spelled (os ++ more) (os' ++ more) :=
  h.append (.refl more)

theorem Spelled.right (h : t.Spelled os os') (more : List Occurrence) :
    t.Spelled (more ++ os) (more ++ os') :=
  (Spelled.refl more).append h

theorem Spelled.flatMap {α : Type} (code : α → List Occurrence) {before after : List α} {a a' : α}
    (h : t.Spelled (code a) (code a')) :
    t.Spelled ((before ++ a :: after).flatMap code) ((before ++ a' :: after).flatMap code) := by
  simp only [List.flatMap_append, List.flatMap_cons]
  exact (h.left _).right _

end Tree

namespace Expr.SpellsOut

variable {t : Tree} {e e' : Expr}

/-- Only an identifier that is replaced itself changes its note. -/
theorem note_eq (h : e.SpellsOut t e') (he : e.isIdentifier = false) : e'.note = e.note := by
  cases h with
  | here => cases he
  | _ => rfl

theorem declaration_eq (h : e.SpellsOut t e') (he : e.isIdentifier = false) :
    e'.declaration = e.declaration := by
  cases h with
  | here => cases he
  | _ => rfl

theorem emitted?_eq (h : e.SpellsOut t e') (he : e.isIdentifier = false)
    (hcallee : ∀ f, e.callee? = some f → f.isIdentifier = true → e'.callee? = some f) :
    e'.emitted? = e.emitted? := by
  cases h with
  | here => cases he
  | @callee note f f' args kind h _ =>
    cases hf : f.isIdentifier with
    | false => exact congrArg some (h.declaration_eq hf)
    | true => exact congrArg (Option.map declaration) (hcallee f rfl hf)
  | _ => rfl

/-- **What occurs in an expression** in which a constant was replaced. -/
theorem spelled (h : e.SpellsOut t e') : t.Spelled e.occurrences e'.occurrences := by
  induction h with
  | @here note ref id v hid hv =>
    have hspelled : t.Spelled [.identifier note ref] (v.occurrences ++ []) := .spell hid hv .nil
    rwa [List.append_nil] at hspelled
  | inner _ ih => exact ih.left _
  | callee h hstays ih =>
    exact .keep (.call fun hkind => h.note_eq (hstays hkind)) (ih.left _)
  | arg _ ih =>
    simp only [occurrences, listOccurrences_eq_flatMap]
    exact .keep (.call fun _ => rfl) ((ih.flatMap occurrences).right _)
  | base _ ih => exact ih.left _
  | subscript _ ih => exact ih.right _
  | operand _ ih => exact ih
  | left _ ih => exact ih.left _
  | right _ ih => exact ih.right _
  | place _ ih => exact ih.left _
  | value _ ih => exact ih.right _
  | condition _ ih => exact (ih.left _).left _
  | yes _ ih => exact (ih.right _).left _
  | no _ ih => exact ih.right _
  | item _ ih =>
    simp only [occurrences, itemOccurrences_eq_flatMap]
    exact Tree.Spelled.flatMap optionOccurrences ih

end Expr.SpellsOut

namespace Stmt.SpellsOut

variable {t : Tree} {s s' : Stmt}

/-- **What occurs in a statement** in which a constant was replaced. -/
theorem spelled (h : s.SpellsOut t s') : t.Spelled s.occurrences s'.occurrences := by
  induction h with
  | block _ ih =>
    simp only [occurrences, blockOccurrences_eq_flatMap]
    exact ih.flatMap occurrences
  | unchecked _ ih =>
    simp only [occurrences, blockOccurrences_eq_flatMap]
    exact ih.flatMap occurrences
  | eval h => exact h.spelled
  | locals h => exact h.spelled
  | condition h => exact (h.spelled.left _).left _
  | yes _ ih => exact (ih.right _).left _
  | no _ ih => exact ih.right _
  | whileCondition h => exact h.spelled.left _
  | whileBody _ ih => exact ih.right _
  | doBody _ ih => exact ih.left _
  | doCondition h => exact h.spelled.right _
  | forStart _ ih => exact ((ih.left _).left _).left _
  | forCondition h => exact ((h.spelled.right _).left _).left _
  | forStep h => exact (h.spelled.right _).left _
  | forBody _ ih => exact ih.right _
  | returnValue h => exact h.spelled
  | emit h he hcallee => exact .keep (.emission (h.emitted?_eq he hcallee)) h.spelled
  | revert h => exact h.spelled

theorem hasPlaceholder_eq (h : s.SpellsOut t s') : s'.hasPlaceholder = s.hasPlaceholder := by
  induction h with
  | block _ ih => simp [hasPlaceholder, blockHasPlaceholder_eq_any, ih]
  | unchecked _ ih => simp [hasPlaceholder, blockHasPlaceholder_eq_any, ih]
  | yes _ ih => simp [hasPlaceholder, ih]
  | no _ ih => simp [hasPlaceholder, optionHasPlaceholder, ih]
  | whileBody _ ih => exact ih
  | doBody _ ih => exact ih
  | forStart _ ih => simp [hasPlaceholder, optionHasPlaceholder, ih]
  | forBody _ ih => simp [hasPlaceholder, ih]
  | _ => rfl

end Stmt.SpellsOut

namespace Tree

variable {t t' : Tree} {os os' left : List Occurrence}

/-! ### Reading -/

/-- Constants are the same in both trees, but for constants that are spelled out in their
initializers. -/
def ConstantsSpelled (t t' : Tree) : Prop :=
  ∀ id, Option.Rel (fun v v' : Expr => t.Spelled v.occurrences v'.occurrences)
    (t.constantValue? id) (t'.constantValue? id)

theorem ConstantsSpelled.eq_none (h : t.ConstantsSpelled t') {id : DeclId}
    (hid : t.constantValue? id = none) : t'.constantValue? id = none := by
  have hrel := h id
  rw [hid] at hrel
  cases hv : t'.constantValue? id with
  | none => rfl
  | some v =>
    rw [hv] at hrel
    cases hrel

theorem ConstantsSpelled.eq_some (h : t.ConstantsSpelled t') {id : DeclId} {v : Expr}
    (hid : t.constantValue? id = some v) :
    ∃ v', t'.constantValue? id = some v' ∧ t.Spelled v.occurrences v'.occurrences := by
  have hrel := h id
  rw [hid] at hrel
  cases hv : t'.constantValue? id with
  | none =>
    rw [hv] at hrel
    cases hrel
  | some v' =>
    rw [hv] at hrel
    cases hrel with
    | some hspelled => exact ⟨v', rfl, hspelled⟩

theorem ConstantsSpelled.isSome_eq (h : t.ConstantsSpelled t') (id : DeclId) :
    (t'.constantValue? id).isSome = (t.constantValue? id).isSome := by
  cases hv : t.constantValue? id with
  | none => rw [h.eq_none hv]
  | some v =>
    obtain ⟨v', hv', _⟩ := h.eq_some hv
    rw [hv', Option.isSome_some, Option.isSome_some]

theorem Opens.append {more left' : List Occurrence} (h : t.Opens os left)
    (hmore : t.Opens more left') : t.Opens (os ++ more) (left ++ left') := by
  induction h with
  | nil => exact hmore
  | stays hstays _ ih => exact .stays hstays ih
  | opens hid hv hinside _ _ ih =>
    rw [List.append_assoc]
    exact .opens hid hv hinside ih

/-- **Reading leaves the same** when constants are spelled out.  The induction is on the reading: an
initializer that was opened for a name is read where it stands now. -/
theorem Opens.spelled (hconstants : t.ConstantsSpelled t') (h : t.Opens os left)
    (hos : t.Spelled os os') :
    ∃ left', t'.Opens os' left' ∧ List.Forall₂ Occurrence.Alike left left' := by
  induction h generalizing os' with
  | nil =>
    cases hos
    exact ⟨[], .nil, .nil⟩
  | @stays o rest left hstays _ ih =>
    cases hos with
    | keep halike hrest =>
      obtain ⟨left', hopens, hleft⟩ := ih hrest
      refine ⟨_, .stays (fun id hid => ?_) hopens, .cons halike hleft⟩
      exact hconstants.eq_none (hstays id (halike.named?_eq.symm.trans hid))
    | spell hid hv _ =>
      rw [hstays _ hid] at hv
      cases hv
  | @opens o id v rest inside left hid hv _ _ ihv ih =>
    cases hos with
    | keep halike hrest =>
      obtain ⟨v', hv', hspelled⟩ := hconstants.eq_some hv
      obtain ⟨inside', hinside, halikes⟩ := ihv hspelled
      obtain ⟨left', hopens, hleft⟩ := ih hrest
      exact ⟨_, .opens (halike.named?_eq.trans hid) hv' hinside hopens,
        List.rel_append halikes hleft⟩
    | spell hid' hv' hrest =>
      cases hid.symm.trans hid'
      cases hv.symm.trans hv'
      obtain ⟨inside', hinside, halikes⟩ := ihv (.refl v.occurrences)
      obtain ⟨left', hopens, hleft⟩ := ih hrest
      exact ⟨_, hinside.append hopens, List.rel_append halikes hleft⟩

/-! ### Cycles -/

/-- A name that occurs when constants are spelled out occurred before, or in the initializer of
a constant whose name did. -/
theorem Spelled.exists_name (h : t.Spelled os os') {o' : Occurrence} (ho' : o' ∈ os') {id : DeclId}
    (hid : o'.named? = some id) : (∃ o ∈ os, o.named? = some id) ∨
      ∃ o ∈ os, ∃ k v, o.named? = some k ∧ t.constantValue? k = some v ∧
        ∃ o ∈ v.occurrences, o.named? = some id := by
  induction h with
  | nil => cases ho'
  | @keep o o'' os os' halike _ ih =>
    rcases List.mem_cons.1 ho' with rfl | ho'
    · exact .inl ⟨o, List.mem_cons_self, halike.named?_eq.symm.trans hid⟩
    · rcases ih ho' with ⟨o, ho, hid⟩ | ⟨o, ho, hbehind⟩
      · exact .inl ⟨o, List.mem_cons_of_mem _ ho, hid⟩
      · exact .inr ⟨o, List.mem_cons_of_mem _ ho, hbehind⟩
  | @spell o k v os os' hk hv _ ih =>
    rcases List.mem_append.1 ho' with ho' | ho'
    · exact .inr ⟨o, List.mem_cons_self, k, v, hk, hv, o', ho', hid⟩
    · rcases ih ho' with ⟨o, ho, hid⟩ | ⟨o, ho, hbehind⟩
      · exact .inl ⟨o, List.mem_cons_of_mem _ ho, hid⟩
      · exact .inr ⟨o, List.mem_cons_of_mem _ ho, hbehind⟩

/-- A constant that is named by an initializer was behind that constant before. -/
theorem ConstantsSpelled.behind (h : t.ConstantsSpelled t') {id id' : DeclId}
    (hnames : t'.NamesConstant id id') : t.Behind id id' := by
  obtain ⟨v', hv', ⟨o', ho', hid'⟩, hconstant⟩ := hnames
  rw [h.isSome_eq] at hconstant
  obtain ⟨v, hv⟩ := Option.isSome_iff_exists.1 <| by
    rw [← h.isSome_eq, hv']
    exact Option.isSome_some
  obtain ⟨v'', hv'', hspelled⟩ := h.eq_some hv
  cases hv'.symm.trans hv''
  rcases hspelled.exists_name ho' hid' with hname | ⟨o, ho, k, w, hk, hw, hname⟩
  · exact .single ⟨v, hv, hname, hconstant⟩
  · have hfirst : t.NamesConstant id k := ⟨v, hv, ⟨o, ho, hk⟩, Option.isSome_of_eq_some hw⟩
    exact .tail (.single hfirst) ⟨w, hw, hname, hconstant⟩

/-- Spelling constants out makes no cycle. -/
theorem ConstantsSpelled.noConstantCycle (h : t.ConstantsSpelled t')
    (hacyclic : t.NoConstantCycle) : t'.NoConstantCycle := by
  intro id hid
  exact hacyclic id (Relation.TransGen.closed (fun _ _ => h.behind) _ _ hid)

/-- **What reading leaves** is the same, but for parts that tell nothing. -/
theorem ConstantsSpelled.inlined (h : t.ConstantsSpelled t') (hacyclic : t.NoConstantCycle)
    (hos : t.Spelled os os') :
    List.Forall₂ Occurrence.Alike (t.inlined os) (t'.inlined os') := by
  obtain ⟨left', hopens, halike⟩ := ((opens_iff hacyclic).2 rfl).spelled h hos
  rwa [(opens_iff (h.noConstantCycle hacyclic)).1 hopens] at halike

end Tree
end ContractCalls
