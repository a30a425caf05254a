import ContractCalls.Proofs.Build.Sites
import ContractCalls.Proofs.Tree.Agreement
import Mathlib.Data.List.Basic

/-!
# Findings in trees that agree up to code

What code tells depends on what its names mean (`Resolver.Matches`), and on nothing else, but for
one thing that is looked at without being read: a modifier that is attached is asked for a
placeholder (`Resolver.ofPlaceholder`).  So resolvers that match and agree on these
placeholders find the same (`Matches.findings_eq`).

References lead to the same callables in trees that agree up to code, so the code of a callable that
is kept tells the same in both: `code_onTree`.  A modifier that is attached has been queued before
by its attachment; so findings that queue only callables that are kept (`Finding.Keeps`) do
not notice a change of other code.
-/

namespace ContractCalls

open Finding

/-- All callables that the findings queue are kept. -/
def Finding.Keeps (kept : DeclId → Prop) (fs : List Finding) : Prop :=
  ∀ id, HasTarget (· ∈ fs) id → kept id

theorem Finding.Keeps.subset {kept : DeclId → Prop} {fs gs : List Finding} (h : Keeps kept fs)
    (hsub : gs ⊆ fs) : Keeps kept gs := by
  intro id hid
  obtain ⟨f, hf, htarget⟩ := hid
  exact h id ⟨f, hsub hf, htarget⟩

theorem Finding.Keeps.of_flatMap {α : Type} {kept : DeclId → Prop} {code : α → List Finding}
    {xs : List α} (h : Keeps kept (xs.flatMap code)) {x : α} (hx : x ∈ xs) : Keeps kept (code x) :=
  h.subset fun _ hf => List.mem_flatMap_of_mem hx hf

/-- The resolver with another tree to look ids up. -/
def Resolver.onTree (r : Resolver) (t : Tree) : Resolver := { r with tree := t }

namespace Resolver

/-- Names lead both resolvers to the same callable, and to a declaration of the same kind. -/
structure SameNames (r r' : Resolver) : Prop where
  kind : ∀ id, (r'.tree.find? id).map Declaration.kind = (r.tree.find? id).map Declaration.kind
  resolve : ∀ id lookup, r'.resolve id lookup = r.resolve id lookup

/-- Names mean the same to both resolvers: constants also have the same value. -/
structure Matches (r r' : Resolver) : Prop extends SameNames r r' where
  constant : ∀ id, r'.tree.constantValue? id = r.tree.constantValue? id

/-- The marked modifiers go on into functions for both resolvers, or for none. -/
def SamePlaceholders (r r' : Resolver) (marked : DeclId → Prop) : Prop :=
  ∀ target, marked target → ∀ function,
    r'.ofPlaceholder function target = r.ofPlaceholder function target

end Resolver

namespace Tree.SameButCode

variable {t t' : Tree}

/-- What a getter takes the place of depends on the head of its variable. -/
theorem getterOverridesOf_eq (h : t.SameButCode t') :
    Resolver.getterOverridesOf t' = Resolver.getterOverridesOf t := by
  funext id
  rw [Resolver.getterOverridesOf, Resolver.getterOverridesOf, h.family_eq]
  rcases cases_of_map_eq (h.map_requireVariable id) with ⟨e, hv', hv⟩ | ⟨v', v, hv', hv, hbare⟩
  · rw [hv, hv']
  · have hvisible : v'.visibility = v.visibility := by
      show v'.bare.visibility = v.bare.visibility
      rw [hbare]
    have hoverrides : v'.overrides = v.overrides := by
      show v'.bare.overrides = v.bare.overrides
      rw [hbare]
    rw [hv, hv']
    show (if v'.visibility.isExternallyVisible then _ else _) = _
    rw [hvisible, hoverrides]
    rfl

theorem familiesOf_eq (h : t.SameButCode t') : Resolver.familiesOf t' = Resolver.familiesOf t := by
  funext ids
  rw [Resolver.familiesOf, Resolver.familiesOf, h.family_eq]

theorem map_head_functionsOf (h : t.SameButCode t') (c : Contract) :
    (t'.functionsOf c).map Function.head = (t.functionsOf c).map Function.head := by
  have hhead : ∀ id, (t'.function? id).map Function.head = (t.function? id).map Function.head := by
    intro id
    have hmap : ∀ t : Tree, (t.function? id).map Function.head =
        ((t.find? id).map fun d => d.function?.map Function.head).join := by
      intro t
      rw [Tree.function?]
      cases t.find? id <;> rfl
    have hview : ∀ d : Declaration,
        d.bare.function?.map Function.head = d.function?.map Function.head := by
      intro d
      cases d <;> rfl
    rw [hmap, hmap, h.map_find? hview]
  rw [Tree.functionsOf, Tree.functionsOf, List.map_filterMap, List.map_filterMap]
  simp only [hhead]

end Tree.SameButCode

namespace Tree.Agrees

variable {t t' : Tree} {kept : DeclId → Prop}

/-- **The resolvers of a contract** are alike but for the tree. -/
theorem ofContract_eq (h : t.Agrees t' kept) {c : Contract} {r : Resolver}
    (hr : Resolver.ofContract t c = .ok r) :
    r.tree = t ∧ Resolver.ofContract t' c = .ok (r.onTree t') := by
  unfold Resolver.ofContract at hr
  obtain ⟨bases, hbases, hr⟩ := bind_eq_ok hr
  obtain ⟨families, hfamilies, hr⟩ := bind_eq_ok hr
  obtain ⟨getters, hgetters, hr⟩ := bind_eq_ok hr
  cases hr
  refine ⟨rfl, ?_⟩
  rw [Resolver.ofContract, h.requireContract_eq, hbases, h.sameButCode.familiesOf_eq,
    h.sameButCode.getterOverridesOf_eq]
  show (Resolver.familiesOf t _ >>= _) = _
  rw [hfamilies]
  show (List.mapM (Resolver.getterOverridesOf t) _ >>= _) = _
  rw [hgetters]
  rfl

theorem resolver_eq (h : t.Agrees t' kept) {contract : DeclId} {r : Resolver}
    (hr : t.resolver contract = .ok r) :
    r.tree = t ∧ t'.resolver contract = .ok (r.onTree t') := by
  unfold Tree.resolver at hr
  obtain ⟨c, hc, hr⟩ := bind_eq_ok hr
  obtain ⟨htree, hof⟩ := h.ofContract_eq hr
  refine ⟨htree, ?_⟩
  rw [Tree.resolver, h.requireContract_eq, hc]
  exact hof

end Tree.Agrees

namespace Resolver

variable {r : Resolver} {t' : Tree} {kept marked : DeclId → Prop} {n : Node}

theorem resolve_onTree (r : Resolver) (t' : Tree) (id : DeclId) (lookup : Lookup) :
    (r.onTree t').resolve id lookup = r.resolve id lookup := by
  cases lookup <;> rfl

/-! ### Entry points -/

theorem map_head_find? {fs fs' : List Function} (h : fs'.map Function.head = fs.map Function.head)
    (kind : FunctionKind) : (fs'.find? (·.kind == kind)).map Function.head =
      (fs.find? (·.kind == kind)).map Function.head := by
  have hfind : ∀ fs : List Function, (fs.find? (·.kind == kind)).map Function.head =
      (fs.map Function.head).find? (·.2.1 == kind) := by
    intro fs
    rw [List.find?_map]
    rfl
  rw [hfind, hfind, h]

/-- The entry points depend on the heads of the functions, and on what is overridden. -/
theorem entrySites_congr {r r' : Resolver}
    (hfunctions : r'.functions.map Function.head = r.functions.map Function.head)
    (htable : r'.table = r.table) (hgetters : r'.getterOverrides = r.getterOverrides) :
    Build.entrySites r' = Build.entrySites r := by
  have hinterface : r'.interfaceFunctions.map Function.head =
      r.interfaceFunctions.map Function.head := by
    have hfilter : ∀ r : Resolver, r.interfaceFunctions.map Function.head =
        (r.functions.map Function.head).filter fun head => head.2.1 == .function &&
          head.2.2.isExternallyVisible && !(r.table[head.1]?.getD head.1 != head.1) &&
          !r.getterOverrides.contains head.1 := by
      intro r
      rw [List.filter_map]
      rfl
    rw [hfilter, hfilter, hfunctions, htable, hgetters]
  have hfallback : r'.fallback?.map Function.head = r.fallback?.map Function.head :=
    map_head_find? hfunctions .fallback
  have hreceive : r'.receive?.map Function.head = r.receive?.map Function.head :=
    map_head_find? hfunctions .receive
  have hentry : r'.entryPoints.map Function.head = r.entryPoints.map Function.head := by
    simp only [entryPoints, List.map_append, ← Option.toList_map, hinterface, hfallback,
      hreceive]
  have hsites : ∀ r : Resolver, Build.entrySites r = (r.entryPoints.map Function.head).map
      fun head => .site ⟨.entry, .direct, .exact head.1⟩ := by
    intro r
    rw [List.map_map]
    rfl
  rw [hsites, hsites, hentry]

theorem entrySites_onTree (h : r.tree.Agrees t' kept) :
    Build.entrySites (r.onTree t') = Build.entrySites r := by
  refine entrySites_congr ?_ rfl rfl
  have hmap : ∀ c, List.map Function.head (t'.functionsOf c) =
      List.map Function.head (r.tree.functionsOf c) := h.sameButCode.map_head_functionsOf
  rw [functions, functions, List.map_flatMap, List.map_flatMap]
  exact List.flatMap_congr fun c _ => hmap c

/-- The construction of a contract depends on its constructor by the head. -/
theorem ofConstruction_congr {r r' : Resolver} {c c' : Contract}
    (hvariables : c'.stateVariables.flatMap r'.ofStateVariable =
      c.stateVariables.flatMap r.ofStateVariable)
    (hhead : (r'.constructor? c').map Function.head = (r.constructor? c).map Function.head)
    (hargs : r'.findings (r.argumentNode c) c'.baseOccurrences =
      r.findings (r.argumentNode c) c.baseOccurrences) :
    r'.ofConstruction c' = r.ofConstruction c := by
  have hnode : ∀ (r : Resolver) (c : Contract), r.argumentNode c =
      ((r.constructor? c).map Function.head).elim .entry fun head => .callable head.1 := by
    intro r c
    unfold argumentNode
    cases r.constructor? c <;> rfl
  have hcall : ∀ (r : Resolver) (c : Contract), (r.constructor? c).toList.map Build.entrySite =
      ((r.constructor? c).map Function.head).toList.map
        fun head => .site ⟨.entry, .direct, .exact head.1⟩ := by
    intro r c
    cases r.constructor? c <;> rfl
  have hsame : r'.argumentNode c' = r.argumentNode c := by rw [hnode, hhead, ← hnode]
  rw [ofConstruction, hvariables, hcall, hhead, ← hcall, hsame, hargs, ofConstruction]

/-! ### Occurrences -/

namespace SameNames

variable {r' : Resolver}

/-- An id names nothing for both resolvers, or declarations of one kind. -/
theorem cases (h : r.SameNames r') (id : DeclId) :
    (r.tree.find? id = none ∧ r'.tree.find? id = none) ∨
      ∃ d d', r.tree.find? id = some d ∧ r'.tree.find? id = some d' ∧ d'.kind = d.kind := by
  have hkind := h.kind id
  cases hd : r.tree.find? id with
  | none =>
    rw [hd] at hkind
    exact .inl ⟨rfl, Option.map_eq_none_iff.1 hkind⟩
  | some d =>
    rw [hd] at hkind
    obtain ⟨d', hd', heq⟩ := Option.map_eq_some_iff.1 hkind
    exact .inr ⟨d, d', rfl, hd', heq⟩

theorem ofNamed_eq (h : r.SameNames r') (note : Note) (ref : Reference) :
    r'.ofNamed n note ref = r.ofNamed n note ref := by
  simp only [ofNamed, h.resolve]
  cases ref.declaration with
  | none => rfl
  | some id =>
    rcases h.cases id with ⟨hd, hd'⟩ | ⟨d, d', hd, hd', hkind⟩
    · simp only [hd, hd']
    · have hcallable : d'.callable?.isSome = d.callable?.isSome := by
        cases d <;> cases d' <;> first | rfl | cases hkind
      simp only [hd, hd', hcallable]

theorem ofEmission_eq (h : r.SameNames r') (e : Expr) : r'.ofEmission e = r.ofEmission e := by
  cases e with
  | call _ callee _ _ =>
    simp only [ofEmission]
    cases callee.declaration with
    | none => rfl
    | some id =>
      rcases h.cases id with ⟨hd, hd'⟩ | ⟨d, d', hd, hd', hkind⟩
      · simp only [hd, hd']
      · simp only [hd, hd']
        cases d <;> cases d' <;> first | rfl | cases hkind
  | _ => rfl

theorem ofInvocation_eq (h : r.SameNames r') (hmarked : r.SamePlaceholders r' marked)
    {i : Invocation} (hkeeps : Keeps marked (r.ofInvocation n i)) :
    r'.ofInvocation n i = r.ofInvocation n i := by
  unfold ofInvocation at hkeeps ⊢
  cases hid : i.ref.declaration with
  | none => rfl
  | some id =>
    rcases h.cases id with ⟨hd, hd'⟩ | ⟨d, d', hd, hd', hkind⟩
    · simp only [hd, hd']
    · simp only [hid, hd] at hkeeps
      simp only [hd, hd']
      cases d with
      | modifier m =>
        obtain ⟨m', rfl⟩ : ∃ m', d' = .modifier m' := by
          cases d' with
          | modifier m' => exact ⟨m', rfl⟩
          | _ => cases hkind
        simp only [h.resolve]
        cases hcaller : n.callable? with
        | none => rfl
        | some function =>
          cases hresolve : r.resolve id i.ref.lookup with
          | error e => rfl
          | ok target =>
            simp only [hcaller, hresolve] at hkeeps
            have htarget : marked target := hkeeps target ⟨_, List.mem_cons_self, rfl⟩
            simp only [hmarked target htarget function]
      | _ => cases d' <;> first | rfl | cases hkind

theorem ofOccurrence_eq (h : r.SameNames r') (hmarked : r.SamePlaceholders r' marked)
    {o : Occurrence} (hkeeps : Keeps marked (r.ofOccurrence n o)) :
    r'.ofOccurrence n o = r.ofOccurrence n o := by
  cases o with
  | identifier note ref => exact h.ofNamed_eq note ref
  | member note ref => exact h.ofNamed_eq note ref
  | emission event => exact h.ofEmission_eq event
  | invocation i => exact h.ofInvocation_eq hmarked hkeeps
  | _ => rfl

end SameNames

theorem Matches.ofInlined_eq {r' : Resolver} (h : r.Matches r')
    (hmarked : r.SamePlaceholders r' marked) {o : Occurrence}
    (hkeeps : Keeps marked (r.ofInlined n o)) : r'.ofInlined n o = r.ofInlined n o := by
  have hagain : r'.tree.again? o = r.tree.again? o := by simp only [Tree.again?, h.constant]
  unfold ofInlined at hkeeps ⊢
  rw [hagain]
  cases ho : r.tree.again? o with
  | some id => rfl
  | none =>
    rw [ho] at hkeeps
    exact h.ofOccurrence_eq hmarked hkeeps

/-- **Code tells both resolvers the same**, if it queues marked callables only. -/
theorem Matches.findings_eq {r' : Resolver} (h : r.Matches r')
    (hmarked : r.SamePlaceholders r' marked) {os : List Occurrence}
    (hkeeps : Keeps marked (r.findings n os)) :
    r'.findings n os = r.findings n os := by
  rw [findings, findings, Tree.inlined_congr h.constant]
  exact List.flatMap_congr fun o ho => h.ofInlined_eq hmarked (hkeeps.of_flatMap ho)

theorem matches_onTree (h : r.tree.Agrees t' kept) : r.Matches (r.onTree t') where
  kind := by
    intro id
    show (t'.find? id).map _ = _
    rcases h.cases id with ⟨hd, hd'⟩ | ⟨d, d', hd, hd', hsame⟩
    · rw [hd, hd']
    · rw [hd, hd']
      exact congrArg some (hsame Declaration.blind_kind)
  constant := h.constantValue?_eq
  resolve := resolve_onTree r t'

theorem samePlaceholders_kept (h : r.tree.Agrees t' kept) :
    r.SamePlaceholders (r.onTree t') kept := by
  intro target htarget function
  have hrequire : t'.requireModifier target = r.tree.requireModifier target :=
    h.require_kept htarget _ _
  have htree : (r.onTree t').tree = t' := rfl
  rw [ofPlaceholder, ofPlaceholder, htree, hrequire]

/-! ### Code and seeds -/

/-- **Code that is kept tells the same.** -/
theorem code_onTree (h : r.tree.Agrees t' kept) {id : DeclId} (hid : kept id)
    (hkeeps : Keeps kept (r.code id)) : (r.onTree t').code id = r.code id := by
  have hrequire : t'.requireCallable id = r.tree.requireCallable id := h.require_kept hid _ _
  have htree : (r.onTree t').tree = t' := rfl
  unfold code at hkeeps ⊢
  rw [htree, hrequire]
  cases hc : r.tree.requireCallable id with
  | error e => rfl
  | ok c =>
    rw [hc] at hkeeps
    exact (matches_onTree h).findings_eq (samePlaceholders_kept h) hkeeps

theorem ofStateVariable_onTree (h : r.tree.Agrees t' kept)
    (hmarked : r.SamePlaceholders (r.onTree t') marked) {id : DeclId}
    (hkeeps : Keeps marked (r.ofStateVariable id)) :
    (r.onTree t').ofStateVariable id = r.ofStateVariable id := by
  have htree : (r.onTree t').tree = t' := rfl
  unfold ofStateVariable at hkeeps ⊢
  rw [htree, h.requireVariable_eq]
  cases hv : r.tree.requireVariable id with
  | error e => rfl
  | ok v =>
    simp only [hv] at hkeeps ⊢
    by_cases hconstant : v.isConstant = true
    · rw [if_pos hconstant, if_pos hconstant]
    · rw [if_neg hconstant] at hkeeps ⊢
      rw [if_neg hconstant]
      exact (matches_onTree h).findings_eq hmarked hkeeps

theorem ofConstruction_onTree (h : r.tree.Agrees t' kept)
    (hmarked : r.SamePlaceholders (r.onTree t') marked) {c : Contract}
    (hkeeps : Keeps marked (r.ofConstruction c)) :
    (r.onTree t').ofConstruction c = r.ofConstruction c := by
  unfold ofConstruction at hkeeps
  refine ofConstruction_congr ?_ ?_ ?_
  · have hkeeps := hkeeps.subset (List.subset_append_left _ _)
    exact List.flatMap_congr fun id hid =>
      ofStateVariable_onTree h hmarked (hkeeps.of_flatMap hid)
  · exact map_head_find? (h.sameButCode.map_head_functionsOf c) .constructor
  · have hkeeps := hkeeps.subset (List.subset_append_right _ _)
    exact (matches_onTree h).findings_eq hmarked (hkeeps.subset (List.subset_append_right _ _))

theorem creationSeeds_onTree (h : r.tree.Agrees t' kept)
    (hmarked : r.SamePlaceholders (r.onTree t') marked) (hkeeps : Keeps marked r.creationSeeds) :
    (r.onTree t').creationSeeds = r.creationSeeds := by
  have hlinearization : (r.onTree t').linearization = r.linearization := rfl
  unfold creationSeeds at hkeeps ⊢
  rw [hlinearization]
  exact List.flatMap_congr fun c hc =>
    ofConstruction_onTree h hmarked (hkeeps.of_flatMap hc)

end Resolver
end ContractCalls
