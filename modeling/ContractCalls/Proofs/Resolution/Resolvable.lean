import ContractCalls.Proofs.Code.Agreement
import ContractCalls.Proofs.Inheritance.Refusals
import ContractCalls.Proofs.Resolution.Interface

/-!
# Contracts that can be resolved

A contract can be resolved if and only if all that is overridden in its hierarchy is a function or a
modifier: what its callables override, and what the getters take the place of.  Otherwise the error
names one of these ids, and says of it what is wrong (`resolved_iff_overridden_are_callables`).

All of it comes down to one family.  `Tree.Collects` is the search for a family with nothing that
bounds it, and the family is what it comes to, so the search ends even where lists of overrides run
in circles.  It fails at an id that is implemented by where it started
(`exists_implements_of_error`), and where it does not fail it has met callables only
(`callable?_of_mem_collectFamily`).
-/

namespace ContractCalls

/-- The variable as the outside sees it: one that is hidden has no getter, so it overrides nothing. -/
def Variable.shown (v : Variable) : Variable :=
  if v.visibility.isExternallyVisible then v else { v with overrides := [] }

def Declaration.shown : Declaration → Declaration
  | .variable v => .variable v.shown
  | d => d

namespace Variable

theorem visibility_shown (v : Variable) : v.shown.visibility = v.visibility := by
  unfold shown
  split <;> rfl

theorem shown_of_visible (v : Variable) (h : v.visibility.isExternallyVisible = true) :
    v.shown = v := if_pos h

theorem shown_shown (v : Variable) : v.shown.shown = v.shown := by
  cases h : v.visibility.isExternallyVisible with
  | true => rw [v.shown_of_visible h, v.shown_of_visible h]
  | false => simp [shown, h]

end Variable

namespace Tree

/-- The search for a family: the ids on the stack are looked at one by one.  Those seen already are
skipped, and the others put what they override on the stack. -/
inductive Collects (t : Tree) : IdSet → List DeclId → Except Error IdSet → Prop where
  | done {seen : IdSet} : Collects t seen [] (.ok seen)
  | skips {seen : IdSet} {id : DeclId} {stack : List DeclId} {result : Except Error IdSet} :
      id ∈ seen → Collects t seen stack result → Collects t seen (id :: stack) result
  | fails {seen : IdSet} {id : DeclId} {stack : List DeclId} {e : Error} :
      id ∉ seen → t.requireCallable id = .error e → Collects t seen (id :: stack) (.error e)
  | opens {seen : IdSet} {id : DeclId} {stack : List DeclId} {c : Callable}
      {result : Except Error IdSet} : id ∉ seen → t.requireCallable id = .ok c →
      Collects t (seen.insert id) (c.overrides.reverse ++ stack) result →
      Collects t seen (id :: stack) result

/-- The id is implemented in one of the contracts, by a callable or by a getter. -/
def Overridden (t : Tree) (contracts : List DeclId) (id : DeclId) : Prop :=
  (∃ x ∈ t.hierarchy contracts, t.Implements x id) ∨ t.TakenByGetter contracts id

/-- Each id names the same in both trees, but for what hidden variables override. -/
def SameButHidden (t t' : Tree) : Prop :=
  ∀ id, (t'.find? id).map Declaration.shown = (t.find? id).map Declaration.shown

variable {t : Tree} {id : DeclId}

/-! ### What is no callable -/

theorem requireCallable_eq_error {e : Error} : t.requireCallable id = .error e ↔
    (e = .notFound id ∧ t.find? id = none) ∨
      e = .unexpected id .callable ∧ ∃ d, t.find? id = some d ∧ d.callable? = none := by
  unfold requireCallable require
  cases hd : t.find? id with
  | none => simp [eq_comm]
  | some d => cases hc : d.callable? <;> simp [hc, eq_comm]

theorem exists_requireCallable_iff :
    (∃ c, t.requireCallable id = .ok c) ↔ (t.callable? id).isSome = true := by
  rw [Option.isSome_iff_exists]
  exact exists_congr fun c => require_eq_ok

/-! ### The search for a family -/

/-- **The search comes to the family**, and to nothing else. -/
theorem collects_iff {seen : IdSet} {stack : List DeclId} {result : Except Error IdSet} :
    t.Collects seen stack result ↔ t.collectFamily seen stack = result := by
  constructor
  · intro h
    induction h with
    | done => rw [collectFamily]
    | skips hseen _ ih => rw [collectFamily, dif_pos (Std.ExtTreeSet.contains_iff_mem.2 hseen), ih]
    | fails hseen herror =>
      rw [collectFamily, dif_neg (mt Std.ExtTreeSet.contains_iff_mem.1 hseen)]
      split
      next e' he' =>
        cases herror.symm.trans he'
        rfl
      next c hc => cases herror.symm.trans hc
    | opens hseen hok _ ih =>
      rw [collectFamily, dif_neg (mt Std.ExtTreeSet.contains_iff_mem.1 hseen)]
      split
      next e he => cases hok.symm.trans he
      next c hc =>
        cases hok.symm.trans hc
        exact ih
  · rintro rfl
    fun_induction collectFamily t seen stack with
    | case1 seen => exact .done
    | case2 seen id stack hseen ih => exact .skips (Std.ExtTreeSet.contains_iff_mem.1 hseen) ih
    | case3 seen id stack hseen e he =>
      exact .fails (mt Std.ExtTreeSet.contains_iff_mem.2 hseen) he
    | case4 seen id stack hseen c hc ih =>
      exact .opens (mt Std.ExtTreeSet.contains_iff_mem.2 hseen) hc ih

/-- A search fails at an id that is implemented by one on the stack. -/
theorem exists_implements_of_error {seen : IdSet} {stack : List DeclId} {e : Error}
    (h : t.collectFamily seen stack = .error e) :
    ∃ q ∈ stack, ∃ id, t.Implements q id ∧ t.requireCallable id = .error e := by
  fun_induction collectFamily t seen stack with
  | case1 => cases h
  | case2 seen id stack _ ih =>
    obtain ⟨q, hq, hfails⟩ := ih h
    exact ⟨q, List.mem_cons_of_mem id hq, hfails⟩
  | case3 seen id stack _ e' he =>
    cases h
    exact ⟨id, List.mem_cons_self, id, .refl, he⟩
  | case4 seen id stack _ c hc ih =>
    obtain ⟨q, hq, k, himplements, hk⟩ := ih h
    rcases List.mem_append.1 hq with hq | hq
    · have hstep : t.Overrides id q := (overrides_of_requireCallable hc).2 (List.mem_reverse.1 hq)
      exact ⟨id, List.mem_cons_self, k, .head hstep himplements, hk⟩
    · exact ⟨q, List.mem_cons_of_mem id hq, k, himplements, hk⟩

theorem callable?_of_mem_collectFamily {seen : IdSet} {stack : List DeclId} {family : IdSet}
    (h : t.collectFamily seen stack = .ok family)
    (hseen : ∀ k ∈ seen, (t.callable? k).isSome = true) :
    ∀ k ∈ family, (t.callable? k).isSome = true := by
  fun_induction collectFamily t seen stack with
  | case1 seen =>
    cases h
    exact hseen
  | case2 _ _ _ _ ih => exact ih h hseen
  | case3 => cases h
  | case4 seen id stack _ c hc ih =>
    refine ih h fun k hk => ?_
    rcases Std.ExtTreeSet.mem_insert.1 hk with heq | hk
    · rw [← Std.LawfulEqOrd.eq_of_compare heq]
      exact exists_requireCallable_iff.1 ⟨c, hc⟩
    · exact hseen k hk

theorem callable?_of_implements {family : IdSet} (h : t.family id = .ok family) {k : DeclId}
    (hk : t.Implements id k) : (t.callable? k).isSome = true :=
  callable?_of_mem_collectFamily h (by simp) k ((mem_family h).2 hk)

theorem implements_of_family_eq_error {e : Error} (h : t.family id = .error e) :
    ∃ k, t.Implements id k ∧ t.requireCallable k = .error e := by
  obtain ⟨q, hq, k, hk⟩ := exists_implements_of_error h
  rw [List.mem_singleton.1 hq] at hk
  exact ⟨k, hk⟩

/-! ### The contracts of an order -/

theorem Linearized.exists_mapM_requireContract (ht : t.Linearized) {c : Contract}
    (hc : t.contract? id = some c) : ∃ bases, c.linearized.mapM t.requireContract = .ok bases := by
  cases hbases : c.linearized.mapM t.requireContract with
  | ok bases => exact ⟨bases, rfl⟩
  | error e =>
    exfalso
    obtain ⟨b, hb, he⟩ := exists_of_mapM_eq_error hbases
    have horder := ht id c hc
    obtain ⟨order, hb, _⟩ := horder.of_inherits (horder.mem_iff.1 hb)
    obtain ⟨_, hbases⟩ := hb.exists_bases
    obtain ⟨base, hbase, _⟩ := Option.map_eq_some_iff.1 hbases
    cases he.symm.trans (require_eq_ok.2 hbase)

/-! ### What is overridden in a hierarchy -/

/-- What getters take the place of is what stops them. -/
theorem takenByGetter_of_error (ht : t.WellFormed) {ids : List DeclId} {bases : List Contract}
    (hbases : ids.mapM t.requireContract = .ok bases) {v : DeclId}
    (hv : v ∈ bases.flatMap Contract.stateVariables) {e : Error}
    (h : Resolver.getterOverridesOf t v = .error e) :
    ∃ k, t.TakenByGetter ids k ∧ t.requireCallable k = .error e := by
  obtain ⟨b, hb, hvb⟩ := List.mem_flatMap.1 hv
  obtain ⟨var, hvar, hscope⟩ := (ht.mem_stateVariables (ht.contract?_of_mem_mapM hbases hb)).1 hvb
  have hids : b.id ∈ ids := by
    rw [← ht.map_id_mapM hbases]
    exact List.mem_map_of_mem hb
  unfold Resolver.getterOverridesOf at h
  rcases bind_eq_error h with h | ⟨var', hvar', h⟩
  · cases h.symm.trans (require_eq_ok.2 hvar)
  · cases hvar.symm.trans (require_eq_ok.1 hvar')
    split at h
    next hvisible =>
      rcases bind_eq_error h with h | ⟨_, _, h⟩
      · obtain ⟨o, ho, hfamily⟩ := exists_of_mapM_eq_error h
        obtain ⟨k, himplements, hk⟩ := implements_of_family_eq_error hfamily
        obtain rfl := ht.id_of_var? hvar
        exact ⟨k, ⟨var, hvar, ⟨b.id, hids, hscope⟩, Visibility.isExternallyVisible_iff.1 hvisible,
          o, ho, himplements⟩, hk⟩
      · cases h
    · cases h

/-- **A contract that cannot be resolved** overrides what is no callable. -/
theorem overridden_of_resolver_eq_error (ht : t.WellFormed) (hlinear : t.Linearized) {c : Contract}
    (hc : t.contract? id = some c) {e : Error} (h : t.resolver id = .error e) :
    ∃ k, t.Overridden c.linearized k ∧ t.requireCallable k = .error e := by
  obtain ⟨bases, hbases⟩ := hlinear.exists_mapM_requireContract hc
  have hself : (if bases.isEmpty then [c] else bases) = bases :=
    if_neg (by simp [ht.isEmpty_of_mapM (hlinear id c hc) hbases])
  rw [resolver, requireContract, require_eq_ok.2 hc] at h
  replace h : Resolver.ofContract t c = .error e := h
  unfold Resolver.ofContract at h
  rcases bind_eq_error h with h | ⟨_, hok, h⟩
  · cases hbases.symm.trans h
  cases hbases.symm.trans hok
  rw [hself] at h
  rcases bind_eq_error h with h | ⟨families, _, h⟩
  · obtain ⟨x, hx, h⟩ := exists_of_mapM_eq_error h
    rw [ht.flatMap_callables_of_mapM hbases] at hx
    rcases bind_eq_error h with h | ⟨_, _, h⟩
    · obtain ⟨k, himplements, hk⟩ := implements_of_family_eq_error h
      exact ⟨k, .inl ⟨x, hx, himplements⟩, hk⟩
    · cases h
  · rcases bind_eq_error h with h | ⟨_, _, h⟩
    · obtain ⟨v, hv, h⟩ := exists_of_mapM_eq_error h
      obtain ⟨k, htaken, hk⟩ := takenByGetter_of_error ht hbases hv h
      exact ⟨k, .inr htaken, hk⟩
    · cases h

/-- **A contract that was resolved** overrides callables only. -/
theorem callable?_of_overridden (ht : t.WellFormed) (hlinear : t.Linearized) {c : Contract}
    (hc : t.contract? id = some c) {r : Resolver} (h : t.resolver id = .ok r) {k : DeclId}
    (hk : t.Overridden c.linearized k) : (t.callable? k).isSome = true := by
  unfold resolver at h
  obtain ⟨c', hc', h⟩ := bind_eq_ok h
  cases hc.symm.trans (require_eq_ok.1 hc')
  unfold Resolver.ofContract at h
  obtain ⟨bases, hbases, h⟩ := bind_eq_ok h
  have hself : (if bases.isEmpty then [c] else bases) = bases :=
    if_neg (by simp [ht.isEmpty_of_mapM (hlinear id c hc) hbases])
  rw [hself] at h
  obtain ⟨families, hfamilies, h⟩ := bind_eq_ok h
  obtain ⟨getters, hgetters, _⟩ := bind_eq_ok h
  rcases hk with ⟨x, hx, himplements⟩ | ⟨v, hv, ⟨b, hb, hscope⟩, hvisible, o, ho, himplements⟩
  · rw [← ht.flatMap_callables_of_mapM hbases] at hx
    obtain ⟨_, _, hx⟩ := exists_mem_of_mapM hfamilies hx
    obtain ⟨family, hfamily, _⟩ := bind_eq_ok hx
    exact callable?_of_implements hfamily himplements
  · rw [← ht.map_id_mapM hbases] at hb
    obtain ⟨base, hbase, rfl⟩ := List.mem_map.1 hb
    have hmem : v.id ∈ base.stateVariables :=
      (ht.mem_stateVariables (ht.contract?_of_mem_mapM hbases hbase)).2 ⟨v, hv, hscope⟩
    obtain ⟨_, _, hgetter⟩ := exists_mem_of_mapM hgetters (List.mem_flatMap_of_mem hbase hmem)
    unfold Resolver.getterOverridesOf at hgetter
    obtain ⟨v', hv', hgetter⟩ := bind_eq_ok hgetter
    cases hv.symm.trans (require_eq_ok.1 hv')
    rw [if_pos (Visibility.isExternallyVisible_iff.2 hvisible)] at hgetter
    obtain ⟨_, hfamilies, _⟩ := bind_eq_ok hgetter
    obtain ⟨family, _, hfamily⟩ := exists_mem_of_mapM hfamilies ho
    exact callable?_of_implements hfamily himplements

/-! ### Variables that are hidden -/

namespace SameButHidden

variable {t' : Tree}

theorem of_declarations (h : t'.declarations.map Declaration.shown =
    t.declarations.map Declaration.shown) : t.SameButHidden t' := by
  intro k
  rw [← find?_map, ← find?_map, h]
  rfl

theorem requireContract_eq (h : t.SameButHidden t') : t'.requireContract = t.requireContract := by
  funext k
  have hmap : (t'.requireContract k).map id = (t.requireContract k).map id :=
    map_require_of_map (h k) (fun d => by cases d <;> rfl) _
  rwa [Except.map_id] at hmap

theorem family_eq (h : t.SameButHidden t') : t'.family = t.family :=
  family_congr fun k => map_require_of_map (h k) (fun d => by cases d <;> rfl) _

theorem map_requireVariable (h : t.SameButHidden t') (k : DeclId) :
    (t'.requireVariable k).map Variable.shown = (t.requireVariable k).map Variable.shown := by
  refine map_require_of_map (h k) (fun d => ?_) _
  cases d with
  | «variable» v => exact congrArg some v.shown_shown
  | _ => rfl

/-- What a hidden variable has in its list of overrides is not followed. -/
theorem getterOverridesOf_eq (h : t.SameButHidden t') :
    Resolver.getterOverridesOf t' = Resolver.getterOverridesOf t := by
  funext k
  rw [Resolver.getterOverridesOf, Resolver.getterOverridesOf, h.family_eq]
  rcases cases_of_map_eq (h.map_requireVariable k) with ⟨e, hv', hv⟩ | ⟨v', v, hv', hv, hshown⟩
  · rw [hv, hv']
  · rw [hv, hv']
    have hvisibility : v'.visibility = v.visibility := by
      rw [← v'.visibility_shown, hshown, v.visibility_shown]
    cases hvisible : v.visibility.isExternallyVisible with
    | true =>
      rw [v.shown_of_visible hvisible, v'.shown_of_visible (hvisibility ▸ hvisible)] at hshown
      rw [hshown]
    | false =>
      show (if v'.visibility.isExternallyVisible then _ else _) =
        if v.visibility.isExternallyVisible then _ else _
      rw [hvisibility, hvisible]
      rfl

/-- **Hidden variables are not followed**: whatever they have in their lists, the contract is
resolved alike. -/
theorem resolver_eq (h : t.SameButHidden t') (contract : DeclId) :
    t'.resolver contract = (t.resolver contract).map (·.onTree t') := by
  rw [resolver, resolver, h.requireContract_eq]
  unfold Resolver.ofContract Resolver.familiesOf
  simp only [map_bind, h.requireContract_eq, h.getterOverridesOf_eq, h.family_eq]
  rfl

end SameButHidden

end Tree

/-! ### A shelf

Two functions override each other, and a hidden variable overrides what is not there.  A cabinet has
a public variable in the place of a function that overrides a contract. -/

namespace Shelf

def function (contract : DeclId) (name : String) (overrides : List DeclId) : Step :=
  .function ⟨some contract, name, .function, none, true, overrides, [], [], .usual⟩

def stateVariable (contract : DeclId) (isPublic : Bool) (overrides : List DeclId) : Step :=
  .variable ⟨some contract, "width", "uint256", isPublic, false, false, overrides, none⟩

def steps (hidden : List DeclId) : List Step :=
  [ Diamond.contract "Shelf" [],
    function ⟨0⟩ "upper" [⟨2⟩],
    function ⟨0⟩ "lower" [⟨1⟩],
    stateVariable ⟨0⟩ false hidden,
    Diamond.contract "Wall" [],
    function ⟨4⟩ "width" [⟨4⟩],
    Diamond.contract "Cabinet" [⟨0⟩],
    stateVariable ⟨6⟩ true [⟨5⟩] ]

def tree : Tree := (Tree.ofSteps (steps [⟨77⟩])).toOption.getD {}

def hiddenContract : Tree := (Tree.ofSteps (steps [⟨4⟩])).toOption.getD {}

theorem ofSteps_steps : Tree.ofSteps (steps [⟨77⟩]) = .ok tree := eq_ok_of_isOk (by cbv) _

theorem sameButHidden : tree.SameButHidden hiddenContract := .of_declarations (by cbv)

theorem exists_contract (id : DeclId) (order : List DeclId)
    (h : tree.linearization? id = some order) :
    ∃ c, tree.contract? id = some c ∧ c.linearized = order :=
  Option.map_eq_some_iff.1 h

end Shelf

namespace Tree

variable {t : Tree}

/-- **A contract can be resolved if and only if all that is overridden in it is callable.**  The
searches end, whatever the lists of overrides are.  If the contract cannot be resolved, the error is
about an id that is overridden and names nothing, or no callable.  Lists of hidden variables do not
matter. -/
theorem resolved_iff_overridden_are_callables {steps : List Step} (ht : ofSteps steps = .ok t)
    {contract : DeclId} {c : Contract} (hc : t.contract? contract = some c) :
    (∀ id result, t.Collects ∅ [id] result ↔ t.family id = result) ∧
    ((∃ r, t.resolver contract = .ok r) ↔
      ∀ id, t.Overridden c.linearized id → (t.callable? id).isSome = true) ∧
    (∀ e, t.resolver contract = .error e → ∃ id, t.Overridden c.linearized id ∧
      ((e = .notFound id ∧ t.find? id = none) ∨
        e = .unexpected id .callable ∧ ∃ d, t.find? id = some d ∧ d.callable? = none)) ∧
    ∀ t', t.SameButHidden t' →
      t'.resolver contract = (t.resolver contract).map (·.onTree t') := by
  have hwell := wellFormed_of_ofSteps ht
  have hlinear := hasOrder_of_ofSteps ht
  have herror : ∀ e, t.resolver contract = .error e →
      ∃ id, t.Overridden c.linearized id ∧ t.requireCallable id = .error e :=
    fun e he => overridden_of_resolver_eq_error hwell hlinear hc he
  refine ⟨fun id result => collects_iff, ⟨fun ⟨r, hr⟩ id hid => ?_, fun hall => ?_⟩,
    fun e he => ?_, fun t' h => h.resolver_eq contract⟩
  · exact callable?_of_overridden hwell hlinear hc hr hid
  · cases hr : t.resolver contract with
    | ok r => exact ⟨r, rfl⟩
    | error e =>
      obtain ⟨id, hid, he⟩ := herror e hr
      obtain ⟨d, hd⟩ := exists_requireCallable_iff.2 (hall id hid)
      cases hd.symm.trans he
  · obtain ⟨id, hid, he⟩ := herror e he
    exact ⟨id, hid, requireCallable_eq_error.1 he⟩

theorem shelf_resolved_iff_overridden_are_callables :
    (∀ id, Shelf.tree.Overridden [⟨0⟩] id → (Shelf.tree.callable? id).isSome = true) ∧
    (Shelf.tree.resolver ⟨6⟩ = .error (.unexpected ⟨4⟩ .callable) ∧
      ∃ id, Shelf.tree.Overridden [⟨6⟩, ⟨0⟩] id ∧
        ∃ d, Shelf.tree.find? id = some d ∧ d.callable? = none) ∧
    Shelf.hiddenContract.resolver ⟨0⟩ =
      (Shelf.tree.resolver ⟨0⟩).map (·.onTree Shelf.hiddenContract) := by
  obtain ⟨shelf, hshelf, horder⟩ := Shelf.exists_contract ⟨0⟩ [⟨0⟩] (by cbv)
  obtain ⟨cabinet, hcabinet, horder'⟩ := Shelf.exists_contract ⟨6⟩ [⟨6⟩, ⟨0⟩] (by cbv)
  rw [← horder', ← horder]
  obtain ⟨_, hok, _, hhidden⟩ := resolved_iff_overridden_are_callables Shelf.ofSteps_steps hshelf
  obtain ⟨_, _, herror, _⟩ := resolved_iff_overridden_are_callables Shelf.ofSteps_steps hcabinet
  have hfails : Shelf.tree.resolver ⟨6⟩ = .error (.unexpected ⟨4⟩ .callable) := by cbv
  refine ⟨hok.1 (exists_ok_of_isOk (by cbv)), ⟨hfails, ?_⟩,
    hhidden Shelf.hiddenContract Shelf.sameButHidden⟩
  obtain ⟨id, hid, ⟨he, _⟩ | ⟨_, hnot⟩⟩ := herror _ hfails
  · cases he
  · exact ⟨id, hid, hnot⟩

end Tree
end ContractCalls
