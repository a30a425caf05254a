import ContractCalls.Proofs.Code.Bare
import ContractCalls.Proofs.Code.SpelledOut

/-!
# Findings where constants are spelled out

A tree in which a constant was spelled out at one place is the same but for code, and all code in it
reads as before (`SpellsOut.allSpelled`).  So a contract has the same resolver, but for code, and
the code of every callable tells the same: `code_eq`, `creationSeeds_eq`.
-/

namespace ContractCalls

/-- The contracts are the same but for arguments for bases, in which constants are spelled out. -/
structure Contract.Spelled (t : Tree) (c c' : Contract) : Prop where
  withoutArgs : c'.withoutArgs = c.withoutArgs
  code : t.Spelled c.baseOccurrences c'.baseOccurrences

/-- The declarations are the same but for code, in which constants are spelled out. -/
inductive Declaration.Spelled (t : Tree) : Declaration → Declaration → Prop where
  | contract {c c' : Contract} : c.Spelled t c' → Spelled t (.contract c) (.contract c')
  | function {f f' : Function} :
      Declaration.bare (.function f') = Declaration.bare (.function f) →
      t.Spelled f.occurrences f'.occurrences → Spelled t (.function f) (.function f')
  | modifier {m m' : Modifier} :
      Declaration.bare (.modifier m') = Declaration.bare (.modifier m) →
      m'.hasPlaceholder = m.hasPlaceholder →
      t.Spelled m.occurrences m'.occurrences → Spelled t (.modifier m) (.modifier m')
  | event {e : Event} : Spelled t (.event e) (.event e)
  | variable {v v' : Variable} : v'.bare = v.bare →
      Option.Rel (fun e e' : Expr => t.Spelled e.occurrences e'.occurrences) v.value v'.value →
      Spelled t (.variable v) (.variable v')

/-- The trees are the same but for code, in which constants are spelled out. -/
def Tree.AllSpelled (t t' : Tree) : Prop :=
  ∀ id, Option.Rel (Declaration.Spelled t) (t.find? id) (t'.find? id)

/-- The resolvers are the same but for code, in which constants are spelled out. -/
structure Resolver.Spelled (r r' : Resolver) : Prop where
  tree : r.tree.AllSpelled r'.tree
  bare : r'.bare = r.bare
  linearization : List.Forall₂ (Contract.Spelled r.tree) r.linearization r'.linearization

/-! ### One place -/

namespace Declaration

variable {t : Tree}

theorem Spelled.refl (t : Tree) (d : Declaration) : d.Spelled t d := by
  cases d with
  | contract c => exact .contract ⟨rfl, .refl _⟩
  | function f => exact .function rfl (.refl _)
  | modifier m => exact .modifier rfl rfl (.refl _)
  | event e => exact .event
  | «variable» v =>
    refine .variable rfl ?_
    cases v.value with
    | none => exact .none
    | some e => exact .some (.refl _)

theorem spelled_block {before after : Block} {s s' : Stmt} (h : s.SpellsOut t s') :
    t.Spelled (Block.occurrences (before ++ s :: after))
      (Block.occurrences (before ++ s' :: after)) := by
  rw [Block.occurrences, Block.occurrences, Stmt.blockOccurrences_eq_flatMap,
    Stmt.blockOccurrences_eq_flatMap]
  exact h.spelled.flatMap Stmt.occurrences

theorem spelled_args {before after : List Expr} {e e' : Expr} (h : e.SpellsOut t e') :
    t.Spelled (Expr.listOccurrences (before ++ e :: after))
      (Expr.listOccurrences (before ++ e' :: after)) := by
  rw [Expr.listOccurrences_eq_flatMap, Expr.listOccurrences_eq_flatMap]
  exact h.spelled.flatMap Expr.occurrences

theorem spelled_invocation {ref : Reference} {before after : List Expr} {e e' : Expr}
    (h : e.SpellsOut t e') : t.Spelled (Invocation.occurrences ⟨ref, before ++ e :: after⟩)
      (Invocation.occurrences ⟨ref, before ++ e' :: after⟩) :=
  (spelled_args h).append (.keep .invocation .nil)

/-- **A declaration in which a constant was replaced** reads as before. -/
theorem SpellsOut.spelled {d d' : Declaration} (h : d.SpellsOut t d') : d.Spelled t d' := by
  cases h with
  | @functionBody f before after s s' hbody hs =>
    refine .function rfl (Tree.Spelled.right ?_ _)
    rw [hbody]
    exact spelled_block hs
  | @modifierBody m before after s s' hbody hs =>
    refine .modifier rfl ?_ ?_
    · rw [Modifier.hasPlaceholder, Modifier.hasPlaceholder, hbody]
      simp [Block.hasPlaceholder, Stmt.blockHasPlaceholder_eq_any, hs.hasPlaceholder_eq]
    · rw [Modifier.occurrences, hbody]
      exact spelled_block hs
  | @invocationArg f earlier later ref before after e e' hinvocations he =>
    refine .function rfl (Tree.Spelled.left ?_ _)
    rw [hinvocations]
    exact (spelled_invocation he).flatMap Invocation.occurrences
  | @initializer v e e' hvalue he =>
    refine .variable rfl ?_
    rw [hvalue]
    exact .some he.spelled
  | @baseArg c earlier later id before after e e' hbases he =>
    refine .contract ⟨?_, ?_⟩
    · simp [Contract.withoutArgs, hbases]
    · rw [Contract.baseOccurrences, hbases]
      exact Tree.Spelled.flatMap (fun base : Base => Expr.listOccurrences base.args)
        (spelled_args he)

theorem Spelled.bare_eq {d d' : Declaration} (h : d.Spelled t d') : d'.bare = d.bare := by
  cases h with
  | contract h => exact congrArg Declaration.contract h.withoutArgs
  | function hbare => exact hbare
  | modifier hbare => exact hbare
  | event => rfl
  | «variable» hbare => exact congrArg Declaration.variable hbare

end Declaration

namespace Tree

variable {t t' : Tree}

/-- **A tree in which a constant was replaced** reads as before. -/
theorem SpellsOut.allSpelled (h : t.SpellsOut t') : t.AllSpelled t' := by
  obtain ⟨id, d, d', hd, hspells, rfl⟩ := h
  intro k
  rw [find?_replace]
  split
  next hk =>
    rw [← hk.1, hd]
    exact .some hspells.spelled
  · cases t.find? k with
    | none => exact .none
    | some d => exact .some (.refl t d)

namespace AllSpelled

/-- An id names nothing in both trees, or what reads alike. -/
theorem cases (h : t.AllSpelled t') (id : DeclId) : (t.find? id = none ∧ t'.find? id = none) ∨
    ∃ d d', t.find? id = some d ∧ t'.find? id = some d' ∧ d.Spelled t d' := by
  have hrel := h id
  cases hd : t.find? id with
  | none =>
    cases hd' : t'.find? id with
    | none => exact .inl ⟨rfl, rfl⟩
    | some d' =>
      rw [hd, hd'] at hrel
      cases hrel
  | some d =>
    cases hd' : t'.find? id with
    | none =>
      rw [hd, hd'] at hrel
      cases hrel
    | some d' =>
      rw [hd, hd'] at hrel
      cases hrel with
      | some hspelled => exact .inr ⟨d, d', rfl, rfl, hspelled⟩

theorem sameButCode (h : t.AllSpelled t') : t.SameButCode t' := by
  intro id
  rcases h.cases id with ⟨hd, hd'⟩ | ⟨d, d', hd, hd', hspelled⟩
  · rw [hd, hd']
  · rw [hd, hd']
    exact congrArg some hspelled.bare_eq

theorem constantsSpelled (h : t.AllSpelled t') : t.ConstantsSpelled t' := by
  intro id
  rw [constantValue?, constantValue?, var?, var?]
  rcases h.cases id with ⟨hd, hd'⟩ | ⟨d, d', hd, hd', hspelled⟩
  · rw [hd, hd']
    exact .none
  · rw [hd, hd']
    cases hspelled with
    | @«variable» v v' hbare hvalue =>
      have hconstant : v'.isConstant = v.isConstant := by
        show v'.bare.isConstant = v.bare.isConstant
        rw [hbare]
      show Option.Rel _ (if v.isConstant then v.value else none)
        (if v'.isConstant then v'.value else none)
      rw [hconstant]
      split
      · exact hvalue
      · exact .none
    | _ => exact .none

/-! ### What is required -/

theorem require_cases {α : Type} {R : α → α → Prop} (h : t.AllSpelled t')
    {view : Declaration → Option α}
    (hview : ∀ d d', d.Spelled t d' → Option.Rel R (view d) (view d')) (id : DeclId)
    (expected : Expectation) :
    (∃ e, t.require id expected view = .error e ∧ t'.require id expected view = .error e) ∨
      ∃ a a', t.require id expected view = .ok a ∧ t'.require id expected view = .ok a' ∧
        R a a' := by
  unfold require
  rcases h.cases id with ⟨hd, hd'⟩ | ⟨d, d', hd, hd', hspelled⟩
  · rw [hd, hd']
    exact .inl ⟨_, rfl, rfl⟩
  · rw [hd, hd']
    simp only
    have hrel := hview d d' hspelled
    generalize view d = a at hrel ⊢
    generalize view d' = a' at hrel ⊢
    cases hrel with
    | none => exact .inl ⟨_, rfl, rfl⟩
    | some hrel => exact .inr ⟨_, _, rfl, rfl, hrel⟩

theorem requireContract_cases (h : t.AllSpelled t') (id : DeclId) :
    (∃ e, t.requireContract id = .error e ∧ t'.requireContract id = .error e) ∨
      ∃ c c', t.requireContract id = .ok c ∧ t'.requireContract id = .ok c' ∧ c.Spelled t c' := by
  refine h.require_cases (fun d d' hspelled => ?_) id _
  cases hspelled with
  | contract h => exact .some h
  | _ => exact .none

theorem requireCallable_cases (h : t.AllSpelled t') (id : DeclId) :
    (∃ e, t.requireCallable id = .error e ∧ t'.requireCallable id = .error e) ∨
      ∃ c c', t.requireCallable id = .ok c ∧ t'.requireCallable id = .ok c' ∧
        t.Spelled c.occurrences c'.occurrences := by
  refine h.require_cases (R := fun c c' : Callable => t.Spelled c.occurrences c'.occurrences)
    (fun d d' hspelled => ?_) id _
  cases hspelled with
  | function _ h => exact .some h
  | modifier _ _ h => exact .some h
  | _ => exact .none

theorem requireModifier_cases (h : t.AllSpelled t') (id : DeclId) :
    (∃ e, t.requireModifier id = .error e ∧ t'.requireModifier id = .error e) ∨
      ∃ m m', t.requireModifier id = .ok m ∧ t'.requireModifier id = .ok m' ∧
        m'.hasPlaceholder = m.hasPlaceholder := by
  refine h.require_cases (R := fun m m' : Modifier => m'.hasPlaceholder = m.hasPlaceholder)
    (fun d d' hspelled => ?_) id _
  cases hspelled with
  | modifier _ h _ => exact .some h
  | _ => exact .none

theorem requireVariable_cases (h : t.AllSpelled t') (id : DeclId) :
    (∃ e, t.requireVariable id = .error e ∧ t'.requireVariable id = .error e) ∨
      ∃ v v', t.requireVariable id = .ok v ∧ t'.requireVariable id = .ok v' ∧
        v'.isConstant = v.isConstant ∧
        t.Spelled (Expr.optionOccurrences v.value) (Expr.optionOccurrences v'.value) := by
  refine h.require_cases (R := fun v v' : Variable => v'.isConstant = v.isConstant ∧
    t.Spelled (Expr.optionOccurrences v.value) (Expr.optionOccurrences v'.value))
    (fun d d' hspelled => ?_) id _
  cases hspelled with
  | @«variable» v v' hbare hvalue =>
    refine .some ⟨?_, ?_⟩
    · show v'.bare.isConstant = v.bare.isConstant
      rw [hbare]
    · generalize v.value = e at hvalue ⊢
      generalize v'.value = e' at hvalue ⊢
      cases hvalue with
      | none => exact .nil
      | some h => exact h
  | _ => exact .none

end AllSpelled

end Tree

namespace Resolver

/-! ### Code -/

variable {r r' : Resolver} {n : Node}

theorem ofEmission_of_no_call {e : Expr} (he : e.emitted? = none) :
    r.ofEmission e = [.error (Error.inconsistent .emitWithoutCall)] := by
  cases e with
  | call => cases he
  | _ => rfl

/-- An `emit` tells only what is named as its event. -/
theorem ofEmission_eq {e e' : Expr} (h : e'.emitted? = e.emitted?) :
    r.ofEmission e' = r.ofEmission e := by
  cases he : e.emitted? with
  | none => rw [ofEmission_of_no_call (h.trans he), ofEmission_of_no_call he]
  | some ref =>
    obtain ⟨_, callee, _, _, rfl, rfl⟩ := Expr.exists_call_of_emitted? he
    obtain ⟨_, callee', _, _, rfl, hcallee⟩ := Expr.exists_call_of_emitted? (h.trans he)
    simp only [ofEmission, hcallee]

/-- What differs in occurrences that are alike tells nothing. -/
theorem ofOccurrence_of_alike {o o' : Occurrence} (h : o.Alike o') :
    r.ofOccurrence n o' = r.ofOccurrence n o := by
  cases h with
  | refl => rfl
  | @call callee callee' _ _ kind hnote =>
    have hkind : SiteKind.ofCall callee'.note kind = SiteKind.ofCall callee.note kind := by
      cases kind with
      | function => rw [hnote rfl]
      | _ => rfl
    simp only [ofOccurrence, ofCall, hkind]
  | emission h => exact ofEmission_eq h
  | invocation => rfl

theorem flatMap_eq_of_forall₂ {α β γ : Type} {R : α → β → Prop} {as : List α} {bs : List β}
    {f : α → List γ} {g : β → List γ} (h : List.Forall₂ R as bs)
    (hsame : ∀ a b, R a b → g b = f a) : bs.flatMap g = as.flatMap f := by
  induction h with
  | nil => rfl
  | cons hab _ ih => rw [List.flatMap_cons, List.flatMap_cons, hsame _ _ hab, ih]

namespace Spelled

theorem sameButCode (h : r.Spelled r') : r.SameButCode r' := ⟨h.tree.sameButCode, h.bare⟩

theorem samePlaceholders (h : r.Spelled r') : r.SamePlaceholders r' fun _ => True := by
  intro target _ function
  rw [ofPlaceholder, ofPlaceholder]
  rcases h.tree.requireModifier_cases target with ⟨e, hm, hm'⟩ | ⟨m, m', hm, hm', hsame⟩
  · rw [hm, hm']
  · simp only [hm, hm', hsame]

/-- **Code in which constants are spelled out** tells the same. -/
theorem findings_eq (h : r.Spelled r') (hacyclic : r.tree.NoConstantCycle)
    {os os' : List Occurrence} (hos : r.tree.Spelled os os') :
    r'.findings n os' = r.findings n os := by
  have hacyclic' := h.tree.constantsSpelled.noConstantCycle hacyclic
  rw [findings_of_noConstantCycle hacyclic, findings_of_noConstantCycle hacyclic']
  refine flatMap_eq_of_forall₂ (h.tree.constantsSpelled.inlined hacyclic hos) fun o o' halike => ?_
  rw [ofOccurrence_of_alike halike]
  exact h.sameButCode.sameNames.ofOccurrence_eq h.samePlaceholders fun _ _ => trivial

theorem code_eq (h : r.Spelled r') (hacyclic : r.tree.NoConstantCycle) (id : DeclId) :
    r'.code id = r.code id := by
  rw [code, code]
  rcases h.tree.requireCallable_cases id with ⟨e, hc, hc'⟩ | ⟨c, c', hc, hc', hspelled⟩
  · rw [hc, hc']
  · rw [hc, hc']
    exact h.findings_eq hacyclic hspelled

theorem ofStateVariable_eq (h : r.Spelled r') (hacyclic : r.tree.NoConstantCycle) (id : DeclId) :
    r'.ofStateVariable id = r.ofStateVariable id := by
  rw [ofStateVariable, ofStateVariable]
  rcases h.tree.requireVariable_cases id with
    ⟨e, hv, hv'⟩ | ⟨v, v', hv, hv', hconstant, hspelled⟩
  · rw [hv, hv']
  · simp only [hv, hv', hconstant, h.findings_eq hacyclic hspelled]

theorem ofConstruction_eq (h : r.Spelled r') (hacyclic : r.tree.NoConstantCycle) {c c' : Contract}
    (hc : c.Spelled r.tree c') : r'.ofConstruction c' = r.ofConstruction c := by
  have hvariables : c'.stateVariables = c.stateVariables := by
    show c'.withoutArgs.stateVariables = c.withoutArgs.stateVariables
    rw [hc.withoutArgs]
  refine ofConstruction_congr ?_ ?_ (h.findings_eq hacyclic hc.code)
  · rw [hvariables]
    exact List.flatMap_congr fun id _ => h.ofStateVariable_eq hacyclic id
  · exact map_head_find? (h.sameButCode.map_head_functionsOf hc.withoutArgs) .constructor

theorem creationSeeds_eq (h : r.Spelled r') (hacyclic : r.tree.NoConstantCycle) :
    r'.creationSeeds = r.creationSeeds :=
  flatMap_eq_of_forall₂ (List.forall₂_reverse_iff.2 h.linearization) fun _ _ =>
    h.ofConstruction_eq hacyclic

end Spelled

end Resolver

/-! ### The resolver of a contract -/

namespace Tree.AllSpelled

variable {t t' : Tree}

theorem forall₂_linearization (h : t.AllSpelled t') {c c' : Contract} (hc : c.Spelled t c')
    {r r' : Resolver} (hr : Resolver.ofContract t c = .ok r)
    (hr' : Resolver.ofContract t' c' = .ok r') :
    List.Forall₂ (Contract.Spelled t) r.linearization r'.linearization := by
  have hlinearized : c'.linearized = c.linearized := by
    show c'.withoutArgs.linearized = c.withoutArgs.linearized
    rw [hc.withoutArgs]
  unfold Resolver.ofContract at hr hr'
  obtain ⟨bases, hbases, hr⟩ := bind_eq_ok hr
  obtain ⟨_, _, hr⟩ := bind_eq_ok hr
  obtain ⟨_, _, hr⟩ := bind_eq_ok hr
  obtain ⟨bases', hbases', hr'⟩ := bind_eq_ok hr'
  obtain ⟨_, _, hr'⟩ := bind_eq_ok hr'
  obtain ⟨_, _, hr'⟩ := bind_eq_ok hr'
  cases hr
  cases hr'
  rw [hlinearized] at hbases'
  have hspelled : List.Forall₂ (Contract.Spelled t) bases bases' := by
    refine forall₂_of_mapM (fun id b b' hb hb' => ?_) hbases hbases'
    rcases h.requireContract_cases id with ⟨e, he, _⟩ | ⟨b₁, b₁', hb₁, hb₁', hb₁b₁'⟩
    · cases hb.symm.trans he
    · cases hb.symm.trans hb₁
      cases hb'.symm.trans hb₁'
      exact hb₁b₁'
  cases hspelled with
  | nil => exact .cons hc .nil
  | cons hb hrest => exact .cons hb hrest

/-- **The resolvers of a contract** fail both, or are the same but for code. -/
theorem ofContract_cases (h : t.AllSpelled t') {c c' : Contract} (hc : c.Spelled t c') :
    (∃ e, Resolver.ofContract t c = .error e ∧ Resolver.ofContract t' c' = .error e) ∨
      ∃ r r', Resolver.ofContract t c = .ok r ∧ Resolver.ofContract t' c' = .ok r' ∧
        r.tree = t ∧ r.Spelled r' := by
  rcases cases_of_map_eq (h.sameButCode.map_ofContract hc.withoutArgs) with
    ⟨e, hr', hr⟩ | ⟨r', r, hr', hr, hbare⟩
  · exact .inl ⟨e, hr, hr'⟩
  · have hlinearization := h.forall₂_linearization hc hr hr'
    obtain ⟨rfl, _⟩ := Resolver.of_ofContract hr
    obtain ⟨rfl, _⟩ := Resolver.of_ofContract hr'
    exact .inr ⟨r, r', hr, hr', rfl, h, hbare, hlinearization⟩

theorem resolver_cases (h : t.AllSpelled t') (contract : DeclId) :
    (∃ e, t.resolver contract = .error e ∧ t'.resolver contract = .error e) ∨
      ∃ r r', t.resolver contract = .ok r ∧ t'.resolver contract = .ok r' ∧
        r.tree = t ∧ r.Spelled r' := by
  unfold resolver
  rcases h.requireContract_cases contract with ⟨e, hc, hc'⟩ | ⟨c, c', hc, hc', hspelled⟩
  · rw [hc, hc']
    exact .inl ⟨e, rfl, rfl⟩
  · rw [hc, hc']
    exact h.ofContract_cases hspelled

end Tree.AllSpelled
end ContractCalls
