import ContractCalls.Resolver
import ContractCalls.Proofs.Tree.Members
import Mathlib.Data.List.Find
import Mathlib.Logic.Relation

/-!
# Families and the table of a resolver

The family of a callable is what it implements: itself, and whatever it overrides through any
chain of lists of overrides, be it circular or outside of every hierarchy (`mem_family`).

The table of a resolver leads each id to the first callable whose family holds it
(`getElem?_tableOf`): what was entered stays, so an entry is that of the callable that
came first.
-/

namespace ContractCalls
namespace Tree

/-- The callable `a` has `b` in its list of overrides. -/
def Overrides (t : Tree) (a b : DeclId) : Prop := ∃ c, t.callable? a = some c ∧ b ∈ c.overrides

/-- The callable `a` is `b` or overrides it, directly or through others. -/
def Implements (t : Tree) : DeclId → DeclId → Prop := Relation.ReflTransGen t.Overrides

/-- The first of the callables that is `id` or overrides it. -/
def FirstImplementing (t : Tree) (id : DeclId) (callables : List DeclId) (x : DeclId) : Prop :=
  ∃ before after, callables = before ++ x :: after ∧ t.Implements x id ∧
    ∀ y ∈ before, ¬ t.Implements y id

variable {t : Tree}

theorem overrides_of_requireCallable {a b : DeclId} {c : Callable}
    (hc : t.requireCallable a = .ok c) : t.Overrides a b ↔ b ∈ c.overrides := by
  have hsome : t.callable? a = some c := require_eq_ok.1 hc
  refine ⟨fun hex => ?_, fun hb => ⟨c, hsome, hb⟩⟩
  obtain ⟨c', hc', hb⟩ := hex
  cases hsome.symm.trans hc'
  exact hb

/-! ### Collecting a family -/

theorem implements_of_mem_collectFamily (t : Tree) (seen : IdSet) (stack : List DeclId)
    {family : IdSet} (h : t.collectFamily seen stack = .ok family) {k : DeclId} (hk : k ∈ family) :
    k ∈ seen ∨ ∃ q ∈ stack, t.Implements q k := by
  fun_induction collectFamily t seen stack with
  | case1 seen =>
    cases h
    exact .inl hk
  | case2 seen id stack _ ih =>
    rcases ih h with hk | ⟨q, hq, hpath⟩
    · exact .inl hk
    · exact .inr ⟨q, List.mem_cons_of_mem id hq, hpath⟩
  | case3 => cases h
  | case4 seen id stack _ c hc ih =>
    rcases ih h with hk | ⟨q, hq, hpath⟩
    · rcases Std.ExtTreeSet.mem_insert.1 hk with hk | hk
      · rw [← Std.LawfulEqOrd.eq_of_compare hk]
        exact .inr ⟨id, List.mem_cons_self, .refl⟩
      · exact .inl hk
    · rcases List.mem_append.1 hq with hq | hq
      · have hstep : t.Overrides id q := (overrides_of_requireCallable hc).2 (List.mem_reverse.1 hq)
        exact .inr ⟨id, List.mem_cons_self, .head hstep hpath⟩
      · exact .inr ⟨q, List.mem_cons_of_mem id hq, hpath⟩

theorem mem_collectFamily (t : Tree) (seen : IdSet) (stack : List DeclId) {family : IdSet}
    (h : t.collectFamily seen stack = .ok family) {k : DeclId} (hk : k ∈ seen ∨ k ∈ stack) :
    k ∈ family := by
  fun_induction collectFamily t seen stack with
  | case1 seen =>
    cases h
    simpa using hk
  | case2 seen id stack hseen ih =>
    refine ih h ?_
    rcases hk with hk | hk
    · exact .inl hk
    · rcases List.mem_cons.1 hk with rfl | hk
      · exact .inl hseen
      · exact .inr hk
  | case3 => cases h
  | case4 seen id stack _ c hc ih =>
    refine ih h ?_
    rcases hk with hk | hk
    · exact .inl (by simp [hk])
    · rcases List.mem_cons.1 hk with rfl | hk
      · exact .inl (by simp)
      · exact .inr (List.mem_append_right _ hk)

/-- If all that is overridden by what was collected is collected or on the stack, then in the end
all of it is collected. -/
theorem collectFamily_closed (t : Tree) (seen : IdSet) (stack : List DeclId) {family : IdSet}
    (h : t.collectFamily seen stack = .ok family)
    (hinv : ∀ a ∈ seen, ∀ b, t.Overrides a b → b ∈ seen ∨ b ∈ stack) :
    ∀ a ∈ family, ∀ b, t.Overrides a b → b ∈ family := by
  fun_induction collectFamily t seen stack with
  | case1 seen =>
    cases h
    simpa using hinv
  | case2 seen id stack hseen ih =>
    refine ih h fun a ha b hb => ?_
    rcases hinv a ha b hb with hmem | hmem
    · exact .inl hmem
    · rcases List.mem_cons.1 hmem with rfl | hmem
      · exact .inl hseen
      · exact .inr hmem
  | case3 => cases h
  | case4 seen id stack _ c hc ih =>
    refine ih h fun a ha b hb => ?_
    rcases Std.ExtTreeSet.mem_insert.1 ha with ha | ha
    · rw [← Std.LawfulEqOrd.eq_of_compare ha] at hb
      have hover := (overrides_of_requireCallable hc).1 hb
      exact .inr (List.mem_append_left _ (List.mem_reverse.2 hover))
    · rcases hinv a ha b hb with hmem | hmem
      · exact .inl (by simp [hmem])
      · rcases List.mem_cons.1 hmem with rfl | hmem
        · exact .inl (by simp)
        · exact .inr (List.mem_append_right _ hmem)

/-- **A family is what its callable implements.** -/
theorem mem_family {id k : DeclId} {family : IdSet} (h : t.family id = .ok family) :
    k ∈ family ↔ t.Implements id k := by
  constructor
  · intro hk
    rcases implements_of_mem_collectFamily t ∅ [id] h hk with hk | ⟨q, hq, hpath⟩
    · simp at hk
    · rw [← List.mem_singleton.1 hq]
      exact hpath
  · intro hpath
    have hclosed := collectFamily_closed t ∅ [id] h (by simp)
    induction hpath with
    | refl => exact mem_collectFamily t ∅ [id] h (.inr List.mem_cons_self)
    | tail _ hstep ih => exact hclosed _ ih _ hstep

end Tree

namespace Resolver

/-! ### The table -/

theorem familiesOf_eq_ok {t : Tree} {ids : List DeclId} {families : List (DeclId × IdSet)}
    (h : familiesOf t ids = .ok families) :
    families.map Prod.fst = ids ∧ ∀ p ∈ families, t.family p.1 = .ok p.2 := by
  induction ids generalizing families with
  | nil =>
    cases h
    simp
  | cons id ids ih =>
    rw [familiesOf, List.mapM_cons] at h
    obtain ⟨p, hp, h⟩ := bind_eq_ok h
    obtain ⟨family, hfamily, hp⟩ := bind_eq_ok hp
    cases hp
    obtain ⟨rest, hrest, h⟩ := bind_eq_ok h
    cases h
    obtain ⟨hfst, hfamilies⟩ := ih hrest
    refine ⟨by rw [List.map_cons, hfst], fun q hq => ?_⟩
    rcases List.mem_cons.1 hq with rfl | hq
    · exact hfamily
    · exact hfamilies q hq

theorem getElem?_enter (table : IdMap DeclId) (id k : DeclId) (family : IdSet) :
    (enter table id family)[k]? = table[k]?.or (if family.contains k then some id else none) := by
  have hfold : ∀ (members : List DeclId) (table : IdMap DeclId),
      (members.foldl (fun table member => table.insertIfNew member id) table)[k]? =
        table[k]?.or (if members.contains k then some id else none) := by
    intro members
    induction members with
    | nil => simp
    | cons member rest ih =>
      intro table
      rw [List.foldl_cons, ih, Std.ExtTreeMap.getElem?_insertIfNew]
      by_cases hk : member = k
      · subst hk
        by_cases hold : member ∈ table
        · simp [hold]
        · simp [hold]
      · simp [hk, Ne.symm hk]
  have hcontains : family.toList.contains k = family.contains k := by
    rw [Bool.eq_iff_iff]
    simp
  rw [enter, hfold, hcontains]

/-- **The table leads to the first callable whose family holds the id.** -/
theorem getElem?_tableOf (families : List (DeclId × IdSet)) (k : DeclId) :
    (tableOf families)[k]? = (families.find? fun p => p.2.contains k).map Prod.fst := by
  have hfold : ∀ table : IdMap DeclId,
      (families.foldl (fun table entry => enter table entry.1 entry.2) table)[k]? =
        table[k]?.or ((families.find? fun p => p.2.contains k).map Prod.fst) := by
    induction families with
    | nil => simp
    | cons p families ih =>
      intro table
      rw [List.foldl_cons, ih, getElem?_enter, Option.or_assoc, List.find?_cons]
      cases p.2.contains k <;> rfl
  rw [tableOf, hfold]
  simp

theorem mem_of_getElem?_ofList {families : List (DeclId × IdSet)} {k : DeclId} {family : IdSet}
    (h : (Std.ExtTreeMap.ofList families : IdMap IdSet)[k]? = some family) :
    (k, family) ∈ families := by
  have hinsert : ∀ (l : List (DeclId × IdSet)) (table : IdMap IdSet),
      (table.insertMany l)[k]? = some family → table[k]? = some family ∨ (k, family) ∈ l := by
    intro l
    induction l with
    | nil => exact fun table h => .inl h
    | cons p l ih =>
      intro table h
      rw [Std.ExtTreeMap.insertMany_cons] at h
      rcases ih _ h with h | h
      · rw [Std.ExtTreeMap.getElem?_insert] at h
        split at h
        next heq =>
          cases h
          rw [← Std.LawfulEqOrd.eq_of_compare heq]
          exact .inr List.mem_cons_self
        · exact .inl h
      · exact .inr (List.mem_cons_of_mem p h)
  rw [Std.ExtTreeMap.ofList_eq_insertMany_empty] at h
  rcases hinsert families ∅ h with h | h
  · simp at h
  · exact h

/-! ### The callables of a resolver -/

/-- The callables of the hierarchy, in the order in which a resolver goes through them. -/
def callables (r : Resolver) : List DeclId := r.linearization.flatMap Contract.callables

/-- **What a resolver knows**, whatever the tree: what each callable of its hierarchy implements,
and for each id the first callable that does. -/
theorem knows_of_ofContract {t : Tree} {c : Contract} {r : Resolver} (h : ofContract t c = .ok r) :
    (∀ x ∈ r.callables, ∀ id, r.implements id x = true ↔ t.Implements x id) ∧
      ∀ id : DeclId, r.table[id]? = r.callables.find? (r.implements id) := by
  unfold ofContract at h
  obtain ⟨bases, _, h⟩ := bind_eq_ok h
  obtain ⟨families, hfamilies, h⟩ := bind_eq_ok h
  obtain ⟨getters, _, h⟩ := bind_eq_ok h
  obtain ⟨hfst, hfamily⟩ := familiesOf_eq_ok hfamilies
  cases h
  have himplements : ∀ p ∈ families, ∀ id,
      ((Std.ExtTreeMap.ofList families : IdMap IdSet)[p.1]?).any (·.contains id) = true ↔
        t.Implements p.1 id := by
    intro p hp id
    have hmem : p.1 ∈ (Std.ExtTreeMap.ofList families : IdMap IdSet) := by
      rw [Std.ExtTreeMap.mem_ofList, List.contains_iff_mem]
      exact List.mem_map_of_mem hp
    obtain ⟨family, hf⟩ :=
      Option.isSome_iff_exists.1 (Std.ExtTreeMap.mem_iff_isSome_getElem?.1 hmem)
    rw [hf, Option.any_some, Std.ExtTreeSet.contains_iff_mem]
    exact Tree.mem_family (hfamily _ (mem_of_getElem?_ofList hf))
  refine ⟨fun x hx id => ?_, fun id => ?_⟩
  · rw [callables, ← hfst] at hx
    obtain ⟨p, hp, rfl⟩ := List.mem_map.1 hx
    exact himplements p hp id
  · show (tableOf families)[id]? = _
    rw [getElem?_tableOf, callables, ← hfst, List.find?_map]
    congr 1
    refine List.find?_congr fun p hp => Bool.eq_iff_iff.2 ?_
    rw [Std.ExtTreeSet.contains_iff_mem, Tree.mem_family (hfamily p hp)]
    exact (himplements p hp id).symm

/-- A search among callables that a resolver knows finds the first that implements. -/
theorem find?_implements_eq_some {t : Tree} {r : Resolver} {id x : DeclId} {xs : List DeclId}
    (hknows : ∀ x ∈ xs, r.implements id x = true ↔ t.Implements x id) :
    xs.find? (r.implements id) = some x ↔ t.FirstImplementing id xs x := by
  rw [List.find?_eq_some_iff_append]
  constructor
  · intro hand
    obtain ⟨hx, before, after, rfl, hbefore⟩ := hand
    refine ⟨before, after, rfl, (hknows x (by simp)).1 hx, fun y hy hover => ?_⟩
    have hno := hbefore y hy
    rw [(hknows y (List.mem_append_left _ hy)).2 hover] at hno
    cases hno
  · intro hex
    obtain ⟨before, after, rfl, hx, hbefore⟩ := hex
    refine ⟨(hknows x (by simp)).2 hx, before, after, rfl, fun y hy => ?_⟩
    cases hy' : r.implements id y with
    | false => rfl
    | true => exact absurd ((hknows y (List.mem_append_left _ hy)).1 hy') (hbefore y hy)

end Resolver
end ContractCalls
