import ContractCalls.Proofs.Code.Parts
import ContractCalls.Proofs.Resolution.Targets
import ContractCalls.Proofs.Tree.Agreement

/-!
# Code in another order

`Stmt.Shuffled` relates a statement to those that are left when the statements inside of its
blocks change places, at any depth.  `Tree.Shuffled` does so for all bodies of a program, and lets
the invocations in the head of each function change places as well.

The occurrences in such code are the same, in another order (`Declaration.Shuffled.perm`).  So
modifiers have their placeholders, and all that does not depend on code stays as it is.
-/

namespace ContractCalls

namespace Stmt

mutual

/-- The second statement is the first one with the statements inside of its blocks in another
order. -/
inductive Shuffled : Stmt → Stmt → Prop where
  | same (s : Stmt) : Shuffled s s
  | block {body body' : List Stmt} : BlockShuffled body body' →
      Shuffled (.block body) (.block body')
  | unchecked {body body' : List Stmt} : BlockShuffled body body' →
      Shuffled (.unchecked body) (.unchecked body')
  | branch {condition : Expr} {yes yes' : Stmt} {no no' : Option Stmt} : Shuffled yes yes' →
      OptionShuffled no no' → Shuffled (.branch condition yes no) (.branch condition yes' no')
  | whileLoop {condition : Expr} {body body' : Stmt} : Shuffled body body' →
      Shuffled (.whileLoop condition body) (.whileLoop condition body')
  | doWhile {body body' : Stmt} {condition : Expr} : Shuffled body body' →
      Shuffled (.doWhile body condition) (.doWhile body' condition)
  | forLoop {start start' : Option Stmt} {condition step : Option Expr} {body body' : Stmt} :
      OptionShuffled start start' → Shuffled body body' →
      Shuffled (.forLoop start condition step body) (.forLoop start' condition step body')

/-- The second list has the statements of the first one in another order, each of them shuffled
itself. -/
inductive BlockShuffled : List Stmt → List Stmt → Prop where
  | nil : BlockShuffled [] []
  | cons {s s' : Stmt} {rest rest' : List Stmt} : Shuffled s s' → BlockShuffled rest rest' →
      BlockShuffled (s :: rest) (s' :: rest')
  | swap (a b : Stmt) (rest : List Stmt) : BlockShuffled (a :: b :: rest) (b :: a :: rest)
  | trans {body body' body'' : List Stmt} : BlockShuffled body body' → BlockShuffled body' body'' →
      BlockShuffled body body''

/-- A statement that may be left out, shuffled. -/
inductive OptionShuffled : Option Stmt → Option Stmt → Prop where
  | none : OptionShuffled none none
  | some {s s' : Stmt} : Shuffled s s' → OptionShuffled (some s) (some s')

end

mutual

/-- What occurs in a statement occurs when it is shuffled. -/
theorem Shuffled.perm : ∀ {s s' : Stmt}, Shuffled s s' → s.occurrences.Perm s'.occurrences
  | _, _, .same _ => .refl _
  | _, _, .block h => h.perm
  | _, _, .unchecked h => h.perm
  | _, _, .branch hyes hno => ((List.Perm.refl _).append hyes.perm).append hno.perm
  | _, _, .whileLoop h => (List.Perm.refl _).append h.perm
  | _, _, .doWhile h => h.perm.append (.refl _)
  | _, _, .forLoop hstart hbody =>
    ((hstart.perm.append (.refl _)).append (.refl _)).append hbody.perm

theorem BlockShuffled.perm : ∀ {body body' : List Stmt}, BlockShuffled body body' →
    (blockOccurrences body).Perm (blockOccurrences body')
  | _, _, .nil => .refl _
  | _, _, .cons hs hrest => hs.perm.append hrest.perm
  | _, _, .swap a b rest => by
    simp only [blockOccurrences, ← List.append_assoc]
    exact List.perm_append_comm.append_right _
  | _, _, .trans h h' => h.perm.trans h'.perm

theorem OptionShuffled.perm : ∀ {s s' : Option Stmt}, OptionShuffled s s' →
    (optionOccurrences s).Perm (optionOccurrences s')
  | _, _, .none => .refl _
  | _, _, .some h => h.perm

end

/-- Every order of the statements of a block is allowed. -/
theorem BlockShuffled.of_perm {body body' : List Stmt} (h : body.Perm body') :
    BlockShuffled body body' := by
  induction h with
  | nil => exact .nil
  | cons s _ ih => exact .cons (.same s) ih
  | swap a b rest => exact .swap b a rest
  | trans _ _ ih ih' => exact ih.trans ih'

theorem OptionShuffled.same (s : Option Stmt) : OptionShuffled s s := by
  cases s with
  | none => exact .none
  | some s => exact .some (.same s)

end Stmt

namespace Declaration

/-- The second declaration is the first one with the statements inside of its blocks, and with the
invocations in its head, in another order. -/
inductive Shuffled : Declaration → Declaration → Prop where
  | same (d : Declaration) : Shuffled d d
  | function {f : Function} {invocations : List Invocation} {body : Option Block} :
      f.invocations.Perm invocations → Option.Rel Stmt.BlockShuffled f.body body →
      Shuffled (.function f) (.function { f with invocations, body })
  | modifier {m : Modifier} {body : Option Block} : Option.Rel Stmt.BlockShuffled m.body body →
      Shuffled (.modifier m) (.modifier { m with body })

theorem perm_body {body body' : Option Block} (h : Option.Rel Stmt.BlockShuffled body body') :
    (body.getD []).occurrences.Perm (body'.getD []).occurrences := by
  cases h with
  | none => exact .refl _
  | some h => exact h.perm

namespace Shuffled

variable {d d' : Declaration}

/-- **What occurs in a callable** occurs when it is shuffled. -/
theorem perm (h : Shuffled d d') : Option.Rel
    (fun c c' : Callable => c.occurrences.Perm c'.occurrences) d.callable? d'.callable? := by
  cases h with
  | same d =>
    cases d.callable? with
    | none => exact .none
    | some c => exact .some (.refl _)
  | function hinvocations hbody =>
    exact .some ((hinvocations.flatMap_right _).append (perm_body hbody))
  | modifier hbody => exact .some (perm_body hbody)

/-- A declaration is shuffled in its code only. -/
theorem outline (h : Shuffled d d') : d'.outline = d.outline := by
  cases h <;> rfl

end Shuffled

theorem blind_profile : Blind profile := by
  intro d
  cases d <;> rfl

end Declaration

/-! ### Trees -/

/-- The second tree is the first one with the statements inside of blocks, and the invocations in
the heads of functions, in another order. -/
structure Tree.Shuffled (t t' : Tree) : Prop where
  size : t'.size = t.size
  contractIds : t'.contractIds = t.contractIds
  declarations : ∀ id, Option.Rel Declaration.Shuffled (t.find? id) (t'.find? id)

/-- Two trees that are the same but for the order in which things occur in code. -/
structure Tree.Alike (t t' : Tree) : Prop where
  size : t'.size = t.size
  contractIds : t'.contractIds = t.contractIds
  agrees : t.Agrees t' fun _ => False
  code : ∀ id, Option.Rel (fun c c' : Callable => c.occurrences.Perm c'.occurrences)
    (t.callable? id) (t'.callable? id)

namespace Tree

variable {t t' : Tree}

/-- Code in another order makes a tree that is alike. -/
theorem Shuffled.alike (h : t.Shuffled t') : t.Alike t' where
  size := h.size
  contractIds := h.contractIds
  agrees := by
    refine ⟨fun id => ?_, fun _ hid => hid.elim⟩
    have hid := h.declarations id
    generalize t.find? id = d, t'.find? id = d' at hid ⊢
    cases hid with
    | none => rfl
    | some hd => exact congrArg some hd.outline
  code := by
    intro id
    have hid := h.declarations id
    rw [callable?, callable?]
    generalize t.find? id = d, t'.find? id = d' at hid ⊢
    cases hid with
    | none => exact .none
    | some hd => exact hd.perm

/-- One callable has its code in another order. -/
theorem shuffled_withCode {id : DeclId} {d : Declaration} {invocations : List Invocation}
    {body : Option Block} (hd : t.find? id = some d)
    (h : d.Shuffled (d.withCode invocations body)) :
    t.Shuffled (t.withCode id invocations body) where
  size := by simp [withCode, hd]
  contractIds := by simp [withCode, hd]
  declarations := by
    intro k
    rw [find?_withCode]
    by_cases hk : id = k
    · subst hk
      rw [if_pos rfl, hd]
      exact .some h
    · rw [if_neg hk]
      cases t.find? k with
      | none => exact .none
      | some d => exact .some (.same d)

namespace Alike

theorem symm (h : t.Alike t') : t'.Alike t where
  size := h.size.symm
  contractIds := h.contractIds.symm
  agrees := ⟨fun id => (h.agrees.outline id).symm, fun _ hid => hid.elim⟩
  code := by
    intro id
    have hid := h.code id
    generalize t.callable? id = c, t'.callable? id = c' at hid ⊢
    cases hid with
    | none => exact .none
    | some hperm => exact .some hperm.symm

theorem wellFormed (h : t.Alike t') (ht : t.WellFormed) : t'.WellFormed := by
  refine ht.of_same h.size (fun id => ?_) (fun id => ?_) h.contractIds
  · rcases h.agrees.cases id with ⟨hd, hd'⟩ | ⟨d, d', hd, hd', hsame⟩
    · rw [profile?, profile?, hd, hd']
    · rw [profile?, profile?, hd, hd']
      exact congrArg some (hsame Declaration.blind_profile)
  · rw [members?, members?, contract?, contract?, h.agrees.bind_view Declaration.blind_contract?]

theorem hasPlaceholder (h : t.Alike t') {id : DeclId} {m m' : Modifier}
    (hm : t.modifier? id = some m) (hm' : t'.modifier? id = some m') :
    m'.hasPlaceholder = m.hasPlaceholder := by
  have hid := h.code id
  rw [callable?_of_modifier? hm, callable?_of_modifier? hm'] at hid
  cases hid with
  | some hperm =>
    rw [Bool.eq_iff_iff, ← Modifier.placeholder_mem_occurrences,
      ← Modifier.placeholder_mem_occurrences]
    exact hperm.mem_iff.symm

end Alike
end Tree

end ContractCalls
