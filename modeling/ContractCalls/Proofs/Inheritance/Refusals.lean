import ContractCalls.Proofs.Inheritance.Linearized
import Mathlib.Data.List.Nodup

/-!
# Refused inheritance

A program whose steps were all right is refused for its inheritance only, and then for a reason that
is there: `Tree.Refused` lists the reasons.  A contract lies on a cycle, what is listed as a base is
no contract, or the bases of a contract have orders that do not fit together.

The search for an order keeps the contracts that are begun.  Each of them leads to the one that is
come to, so a contract that is met again lies on a cycle (`orderOf_refused`).  A merge that fails
means that no order fits, since a merge finds an order whenever there is one.  So
`inheritance_is_decided`: the orders are found if and only if no reason is there.
-/

namespace ContractCalls

open Inheritance

namespace Tree

/-- A contract with these bases can be put in order: some order without repetition keeps the list of
the bases, the base written last first, and the order of each base. -/
def Orderable (t : Tree) (bases : List DeclId) : Prop :=
  ∃ order : List DeclId, order.Nodup ∧ bases.reverse.Sublist order ∧
    ∀ b ∈ bases, ∀ order', t.HasOrder b order' → order'.Sublist order

/-- The reasons for which inheritance is refused, by the errors that give them. -/
inductive Refused (t : Tree) : Error → Prop where
  | cycle {id : DeclId} : Relation.TransGen t.Extends id id → Refused t (.cyclicInheritance id)
  | noContract {id b : DeclId} : t.Extends id b → t.contract? b = none →
      Refused t (.unexpected b (.kind .contract))
  /-- All bases of a contract have their orders, but no order keeps them all. -/
  | unordered {id : DeclId} {bases : List DeclId} : t.bases? id = some bases →
      (∀ b ∈ bases, ∃ order, t.HasOrder b order) → ¬ t.Orderable bases → Refused t (.noBaseOrder id)

variable {t : Tree} {id : DeclId} {e : Error}

theorem bases?_eq_some {bases : List DeclId} :
    t.bases? id = some bases ↔ ∃ c, t.contract? id = some c ∧ c.baseIds = bases :=
  Option.map_eq_some_iff

/-- A base that is listed twice fits in no order. -/
theorem Orderable.nodup {bases : List DeclId} (h : t.Orderable bases) : bases.Nodup := by
  obtain ⟨order, hnodup, hbases, _⟩ := h
  exact List.nodup_reverse.1 (hbases.nodup hnodup)

/-- The orders of the bases fit together if and only if they can be merged. -/
theorem orderable_iff {bases : List DeclId} {order : DeclId → List DeclId}
    (horder : ∀ b ∈ bases, t.HasOrder b (order b)) : t.Orderable bases ↔
      ∃ tail, merge (bases.reverse.map order ++ [bases.reverse]) = some tail := by
  rw [exists_merge_iff]
  constructor
  · rintro ⟨tail, hnodup, hbases, horders⟩
    refine ⟨tail, hnodup, fun s hs => ?_⟩
    rcases List.mem_append.1 hs with hs | hs
    · obtain ⟨b, hb, rfl⟩ := List.mem_map.1 hs
      have hb := List.mem_reverse.1 hb
      exact horders b hb _ (horder b hb)
    · rw [List.mem_singleton.1 hs]
      exact hbases
  · rintro ⟨tail, htail⟩
    refine ⟨tail, htail.nodup, htail.sublist _ (by simp), fun b hb order' horder' => ?_⟩
    rw [horder'.unique (horder b hb)]
    exact htail.sublist _ (List.mem_append_left _ (List.mem_map_of_mem (List.mem_reverse.2 hb)))

/-! ### Reasons -/

theorem ordersOf_refused {opened : IdSet} {known : Orders} {ids : List DeclId}
    (hknown : t.Knows known)
    (hone : ∀ id ∈ ids, ∀ known, t.Knows known → t.orderOf opened known id = .error e → t.Refused e)
    (h : t.ordersOf opened known ids = .error e) : t.Refused e := by
  induction ids generalizing known with
  | nil =>
    rw [ordersOf] at h
    cases h
  | cons id rest ih =>
    rw [ordersOf] at h
    split at h
    next hfirst =>
      cases h
      exact hone id List.mem_cons_self known hknown hfirst
    next middle order hfirst =>
      split at h
      next hrest =>
        cases h
        exact ih (orderOf_sound hknown hfirst).knows
          (fun x hx => hone x (List.mem_cons_of_mem id hx)) hrest
      · cases h

/-- **The reason is there** when an order is not found, as long as all contracts that are begun lead
to the one that is come to. -/
theorem orderOf_refused {opened : IdSet} {known : Orders} (hknown : t.Knows known)
    (hopened : ∀ a ∈ opened, Relation.TransGen t.Extends a id)
    (h : t.orderOf opened known id = .error e) :
    t.Refused e ∨ t.contract? id = none ∧ e = .unexpected id (.kind .contract) := by
  induction hn : t.remaining opened.contains using Nat.strongRecOn
    generalizing opened known id with
  | _ n ih =>
    rw [orderOf] at h
    split at h
    · cases h
    · split at h
      next hopen =>
        cases h
        exact .inl (.cycle (hopened id hopen))
      next hopen =>
        split at h
        next hnone =>
          cases h
          exact .inr ⟨hnone, rfl⟩
        next c hc =>
          have hbases : t.bases? id = some c.baseIds := bases?_of_contract? hc
          split at h
          next hfailed =>
            cases h
            refine .inl (ordersOf_refused hknown (fun b hb known hknown hb' => ?_) hfailed)
            have hstep : t.Extends id b := ⟨_, hbases, List.mem_reverse.1 hb⟩
            have hlt : t.remaining (opened.insert id).contains < n := by
              rw [← hn]
              refine remaining_lt (fun _ h => ?_) (declares_of_contract? hc)
                (eq_false_of_ne_true hopen) (by simp)
              simpa using Or.inr h
            have hbelow : ∀ a ∈ opened.insert id, Relation.TransGen t.Extends a b := by
              intro a ha
              rcases Std.ExtTreeSet.mem_insert.1 ha with heq | ha
              · rw [← Std.LawfulEqOrd.eq_of_compare heq]
                exact .single hstep
              · exact (hopened a ha).tail hstep
            rcases ih _ hlt hknown hbelow hb' rfl with hrefused | ⟨hnone, rfl⟩
            · exact hrefused
            · exact .noContract hstep hnone
          next middle orders hfound =>
            split at h
            next hmerge =>
              cases h
              obtain ⟨order, rfl, horder⟩ := exists_order (ordersOf_sound hknown hfound).orders
              have horder : ∀ b ∈ c.baseIds, t.HasOrder b (order b) := fun b hb =>
                horder b (List.mem_reverse.2 hb)
              refine .inl (.unordered hbases (fun b hb => ⟨_, horder b hb⟩) fun hfits => ?_)
              obtain ⟨tail, htail⟩ := (orderable_iff horder).1 hfits
              rw [hmerge] at htail
              cases htail
            · cases h

variable {t' : Tree}

theorem linearize_refused (ht : t.WellFormed) (h : t.linearize = .error e) : t.Refused e := by
  unfold linearize at h
  cases hfound : t.ordersOf ∅ ∅ t.contractIds.toList with
  | ok found =>
    rw [hfound] at h
    cases h
  | error e' =>
    rw [hfound] at h
    cases h
    refine ordersOf_refused knows_empty (fun id hid known hknown herror => ?_) hfound
    rcases orderOf_refused hknown (by simp) herror with hrefused | ⟨hnone, _⟩
    · exact hrefused
    · rw [ht.mem_contractIds] at hid
      rw [hnone] at hid
      cases hid

/-! ### No reasons -/

/-- Every contract has an order when all orders are found. -/
theorem exists_hasOrder_of_linearize (ht : t.WellFormed) (h : t.linearize = .ok t')
    {bases : List DeclId} (hbases : t.bases? id = some bases) : ∃ order, t.HasOrder id order := by
  unfold linearize at h
  obtain ⟨⟨known, orders⟩, hfound, _⟩ := bind_eq_ok h
  have hfinds := ordersOf_sound knows_empty hfound
  obtain ⟨c, hc, _⟩ := bases?_eq_some.1 hbases
  have hasked := hfinds.asked id (ht.mem_contractIds.2 (Option.isSome_of_eq_some hc))
  obtain ⟨order, horder⟩ :=
    Option.isSome_iff_exists.1 (Std.ExtTreeMap.mem_iff_isSome_getElem?.1 hasked)
  exact ⟨order, hfinds.knows _ _ horder⟩

namespace HasOrder

variable {order : List DeclId}

theorem exists_bases (h : t.HasOrder id order) : ∃ bases, t.bases? id = some bases := by
  obtain ⟨_, hbases, _, _⟩ := h
  exact ⟨_, hbases⟩

theorem not_cycle (h : t.HasOrder id order) : ¬ Relation.TransGen t.Extends id id := by
  intro hcycle
  obtain ⟨b, hstep, hback⟩ := Relation.TransGen.head'_iff.1 hcycle
  exact h.acyclic hstep hback

theorem orderable {bases : List DeclId} (h : t.HasOrder id order)
    (hbases : t.bases? id = some bases) : t.Orderable bases := by
  obtain ⟨order, hbases', horders, hmerge⟩ := h
  cases hbases.symm.trans hbases'
  exact (orderable_iff horders).2 ⟨_, hmerge⟩

end HasOrder

/-- **The orders are found** if and only if no reason is against it. -/
theorem linearize_ok_iff (ht : t.WellFormed) : (∃ t', t.linearize = .ok t') ↔
    (∀ id b, t.Extends id b → (t.contract? b).isSome = true) ∧
    (∀ id, ¬ Relation.TransGen t.Extends id id) ∧
    ∀ id bases, t.bases? id = some bases → t.Orderable bases := by
  constructor
  · rintro ⟨t', h⟩
    have horder : ∀ id bases, t.bases? id = some bases → ∃ order, t.HasOrder id order :=
      fun _ _ => exists_hasOrder_of_linearize ht h
    refine ⟨fun id b hstep => ?_, fun id hcycle => ?_, fun id bases hbases => ?_⟩
    · have ⟨_, hbases, _⟩ := hstep
      obtain ⟨_, hid⟩ := horder id _ hbases
      obtain ⟨_, hb, _⟩ := hid.of_extends hstep
      obtain ⟨_, hbases⟩ := hb.exists_bases
      obtain ⟨c, hc, _⟩ := bases?_eq_some.1 hbases
      exact Option.isSome_of_eq_some hc
    · obtain ⟨_, ⟨_, hbases, _⟩, _⟩ := Relation.TransGen.head'_iff.1 hcycle
      obtain ⟨_, hid⟩ := horder id _ hbases
      exact hid.not_cycle hcycle
    · obtain ⟨_, hid⟩ := horder id bases hbases
      exact hid.orderable hbases
  · rintro ⟨hcontracts, hacyclic, horderable⟩
    cases h : t.linearize with
    | ok t' => exact ⟨t', rfl⟩
    | error e =>
      cases linearize_refused ht h with
      | cycle hcycle => exact absurd hcycle (hacyclic _)
      | noContract hstep hnone =>
        have hsome := hcontracts _ _ hstep
        rw [hnone] at hsome
        cases hsome
      | unordered hbases _ hnot => exact absurd (horderable _ _ hbases) hnot

end Tree

/-! ### Crossed bases

A contract whose two bases name the same two contracts in opposite orders. -/

namespace Crossed

def steps : List Step :=
  [Diamond.contract "First" [], Diamond.contract "Second" [],
    Diamond.contract "Straight" [⟨0⟩, ⟨1⟩], Diamond.contract "Crossed" [⟨1⟩, ⟨0⟩],
    Diamond.contract "Both" [⟨2⟩, ⟨3⟩]]

def draft : Draft := (Draft.writeAll {} steps).1

theorem finish_draft : draft.finish = .error (.noBaseOrder ⟨4⟩) := by cbv

end Crossed

namespace Tree

/-- **Inheritance is accepted** if and only if all bases are contracts, no contract lies on a cycle,
and each contract can be put in order.  When it is refused, the error gives a reason that is there.
A contract that lists a base twice can never be put in order. -/
theorem inheritance_is_decided {steps : List Step} {d : Draft}
    (hd : (Draft.writeAll {} steps).1 = d) (hok : d.error = none) :
    ((∃ t, d.finish = .ok t) ↔
      (∀ id b, d.tree.Extends id b → (d.tree.contract? b).isSome = true) ∧
      (∀ id, ¬ Relation.TransGen d.tree.Extends id id) ∧
      ∀ id bases, d.tree.bases? id = some bases → d.tree.Orderable bases) ∧
    (∀ e, d.finish = .error e → d.tree.Refused e) ∧
    ∀ bases, ¬ bases.Nodup → ¬ d.tree.Orderable bases := by
  have hfinish : d.finish = d.tree.linearize := by rw [Draft.finish, hok]
  have hwell : d.tree.WellFormed := by
    rw [← hd] at hok ⊢
    exact Draft.wellFormed_writeAll wellFormed_empty hok
  rw [hfinish]
  refine ⟨linearize_ok_iff hwell, fun e he => linearize_refused hwell he, fun bases htwice h => ?_⟩
  exact htwice h.nodup

theorem crossed_inheritance_is_decided :
    (Crossed.draft.finish = .error (.noBaseOrder ⟨4⟩) ∧
      ¬ Crossed.draft.tree.Orderable [⟨2⟩, ⟨3⟩]) ∧
    ∀ id bases, (Draft.writeAll {} Diamond.steps).1.tree.bases? id = some bases →
      (Draft.writeAll {} Diamond.steps).1.tree.Orderable bases := by
  have hcrossed := @inheritance_is_decided Crossed.steps Crossed.draft rfl (by cbv)
  have hdiamond := @inheritance_is_decided Diamond.steps _ rfl (by cbv)
  refine ⟨⟨Crossed.finish_draft, ?_⟩, (hdiamond.1.1 ⟨_, Diamond.ofSteps_steps⟩).2.2⟩
  cases hcrossed.2.1 _ Crossed.finish_draft with
  | unordered hbases _ hnot =>
    have hboth : Crossed.draft.tree.bases? ⟨4⟩ = some [⟨2⟩, ⟨3⟩] := by cbv
    cases hboth.symm.trans hbases
    exact hnot

end Tree
end ContractCalls
