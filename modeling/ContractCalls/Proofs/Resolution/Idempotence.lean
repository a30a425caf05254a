import ContractCalls.Proofs.Resolution.SuperChain

/-!
# Virtual references are idempotent and monotone

Where a virtual reference leads, virtual references lead no further: the first callable that
implements an id is also the first that implements itself, since whatever implements it implements
the id as well (`Tree.FirstImplementing.self`).  And who overrides more is found first: what
implements `f` implements all that `f` overrides, so the first implementation of such an id does
not come behind that of `f` (`Tree.FirstImplementing.idxOf_le`).

Both hold for a resolver of any tree whatever: overrides may run in circles, and the contracts of
the hierarchy may list a callable more than once (`virtual_idempotent_and_monotone`).
-/

namespace ContractCalls
namespace Tree
namespace FirstImplementing

variable {t : Tree} {id id' x y : DeclId} {callables : List DeclId}

theorem self (h : t.FirstImplementing id callables x) : t.FirstImplementing x callables x := by
  obtain ⟨before, after, horder, hx, hbefore⟩ := h
  exact ⟨before, after, horder, .refl, fun y hy hyx => hbefore y hy (hyx.trans hx)⟩

/-- The first implementation of an id does not come behind that of what implements the id. -/
theorem idxOf_le (hx : t.FirstImplementing id callables x)
    (hy : t.FirstImplementing id' callables y) (himplements : t.Implements id' id) :
    callables.idxOf x ≤ callables.idxOf y := by
  obtain ⟨before, after, rfl, _, hbefore⟩ := hx
  obtain ⟨_, _, _, hyid, _⟩ := hy
  -- Nothing in front of `x` implements `id`, and `y` does.
  have hyb : y ∉ before := fun hmem => hbefore y hmem (hyid.trans himplements)
  have hxle : (before ++ x :: after).idxOf x ≤ before.length := by
    rw [List.idxOf_append]
    split
    next hmem => exact List.idxOf_le_length
    next hmem => simp
  have hyle : before.length ≤ (before ++ x :: after).idxOf y := by
    rw [List.idxOf_append_of_notMem hyb]
    exact Nat.le_add_right _ _
  exact hxle.trans hyle

end FirstImplementing
end Tree

namespace Resolver

variable {t : Tree} {c : Contract} {r : Resolver} {id x : DeclId}

/-- A virtual reference leads to the first implementation, if there is one. -/
theorem resolveVirtual_eq_of_first (h : ofContract t c = .ok r)
    (hx : t.FirstImplementing id r.callables x) : r.resolveVirtual id = x := by
  obtain ⟨himplements, htable⟩ := knows_of_ofContract h
  have hfind := (find?_implements_eq_some fun y hy => himplements y hy id).2 hx
  rw [resolveVirtual, htable, hfind, Option.getD_some]

theorem first_or_resolveVirtual_eq (h : ofContract t c = .ok r) (id : DeclId) :
    t.FirstImplementing id r.callables (r.resolveVirtual id) ∨ r.resolveVirtual id = id := by
  obtain ⟨himplements, htable⟩ := knows_of_ofContract h
  rw [resolveVirtual, htable]
  cases hfind : r.callables.find? (r.implements id) with
  | none => exact .inr rfl
  | some x => exact .inl ((find?_implements_eq_some fun y hy => himplements y hy id).1 hfind)

/-- What a callable of the hierarchy implements has a first implementation. -/
theorem first_of_implements (h : ofContract t c = .ok r) {f : DeclId} (hf : f ∈ r.callables)
    (himplements : t.Implements f id) :
    t.FirstImplementing id r.callables (r.resolveVirtual id) := by
  obtain ⟨hknows, htable⟩ := knows_of_ofContract h
  have hsome : (r.callables.find? (r.implements id)).isSome = true :=
    List.find?_isSome.2 ⟨f, hf, (hknows f hf id).2 himplements⟩
  obtain ⟨x, hx⟩ := Option.isSome_iff_exists.1 hsome
  rw [resolveVirtual, htable, hx]
  exact (find?_implements_eq_some fun y hy => hknows y hy id).1 hx

/-- **Virtual references lead to the end, and those to what is overridden lead furthest.**  This
holds for every resolver and every id; in the second part, `f` is a callable of the hierarchy that
overrides `g` through any chain. -/
theorem virtual_idempotent_and_monotone {t : Tree} {c : Contract} {r : Resolver}
    (h : ofContract t c = .ok r) :
    (∀ id, r.resolveVirtual (r.resolveVirtual id) = r.resolveVirtual id ∧
      r.isOverridden (r.resolveVirtual id) = false) ∧
    ∀ f ∈ r.callables, ∀ g, Relation.TransGen t.Overrides f g →
      r.resolveVirtual g ∈ r.callables ∧ r.resolveVirtual f ∈ r.callables ∧
        r.callables.idxOf (r.resolveVirtual g) ≤ r.callables.idxOf (r.resolveVirtual f) := by
  have hidempotent : ∀ id, r.resolveVirtual (r.resolveVirtual id) = r.resolveVirtual id := by
    intro id
    rcases first_or_resolveVirtual_eq h id with hfirst | hself
    · exact resolveVirtual_eq_of_first h hfirst.self
    · rw [hself, hself]
  refine ⟨fun id => ⟨hidempotent id, ?_⟩, fun f hf g hover => ?_⟩
  · rw [isOverridden, hidempotent, bne_self_eq_false]
  · have hg := first_of_implements h hf hover.to_reflTransGen
    have hf' := first_of_implements h hf .refl
    exact ⟨hg.mem, hf'.mem, hg.idxOf_le hf' hover.to_reflTransGen⟩

theorem relay_virtual_idempotent_and_monotone : ∃ r, Relay.tree.resolver ⟨6⟩ = .ok r ∧
    r.resolveVirtual ⟨1⟩ = ⟨5⟩ ∧ r.resolveVirtual ⟨5⟩ = ⟨5⟩ ∧ r.isOverridden ⟨5⟩ = false ∧
    r.callables.idxOf (r.resolveVirtual ⟨1⟩) ≤ r.callables.idxOf (r.resolveVirtual ⟨3⟩) := by
  obtain ⟨r, hr, hvirtual⟩ := Relay.exists_resolver
  have hcallables : (Relay.tree.resolver ⟨6⟩).toOption.map callables =
      some [⟨7⟩, ⟨5⟩, ⟨3⟩, ⟨1⟩] := by cbv
  rw [hr] at hcallables
  have hleft : (⟨3⟩ : DeclId) ∈ r.callables := by
    rw [Option.some.inj hcallables]
    simp
  have hover : Relation.TransGen Relay.tree.Overrides ⟨3⟩ ⟨1⟩ :=
    .single (Relay.overrides_of (by cbv))
  have hresolver := hr
  unfold Tree.resolver at hresolver
  obtain ⟨c, _, hresolver⟩ := bind_eq_ok hresolver
  obtain ⟨hidempotent, hmonotone⟩ := virtual_idempotent_and_monotone hresolver
  obtain ⟨hself, hlast⟩ := hidempotent ⟨1⟩
  rw [hvirtual] at hself hlast
  exact ⟨r, hr, hvirtual, hself, hlast, (hmonotone ⟨3⟩ hleft ⟨1⟩ hover).2.2⟩

end Resolver
end ContractCalls
