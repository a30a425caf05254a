import ContractCalls.Inheritance.Linearization
import ContractCalls.Proofs.Inheritance.Merging
import Mathlib.Logic.Relation

/-!
# The order of a contract

`Tree.HasOrder` says what the order of a contract is by its bases alone: nothing is kept
between contracts, and no contract comes before another.  A contract has at most one order
(`HasOrder.unique`).

* `HasOrder.mem_iff`: the order has what the contract inherits from, and nothing else.
* `HasOrder.of_inherits`: it keeps the order of all of these.
* `HasOrder.acyclic`: no base leads back to the contract, since orders get shorter on the way.
* `HasOrder.map`: the numbers of the contracts do not matter.

The search of `Tree.ordersOf` finds just these orders.  What it knows stays right
(`ordersOf_sound`), and it finds every order there is, as long as no contract that is begun
is met again (`ordersOf_complete`).
-/

namespace ContractCalls
namespace Tree

/-- The direct bases of the contract that an id names, in the order of writing. -/
def bases? (t : Tree) (id : DeclId) : Option (List DeclId) := (t.contract? id).map Contract.baseIds

/-- The contract `a` has `b` as a direct base. -/
def Extends (t : Tree) (a b : DeclId) : Prop := ∃ bases, t.bases? a = some bases ∧ b ∈ bases

/-- The contract `a` is `b` or inherits from it, directly or through others. -/
def Inherits (t : Tree) : DeclId → DeclId → Prop := Relation.ReflTransGen t.Extends

/-- The order of a contract: the contract itself, then what the orders of its bases and the
list of its bases are merged to, the base written last coming first. -/
inductive HasOrder (t : Tree) : DeclId → List DeclId → Prop where
  | intro {id : DeclId} {bases tail : List DeclId} (order : DeclId → List DeclId) :
      t.bases? id = some bases → (∀ b ∈ bases, HasOrder t b (order b)) →
      Inheritance.merge (bases.reverse.map order ++ [bases.reverse]) = some tail →
      HasOrder t id (id :: tail)

variable {t : Tree} {id b : DeclId} {order : List DeclId}

theorem bases?_of_contract? {c : Contract} (hc : t.contract? id = some c) :
    t.bases? id = some c.baseIds := by
  rw [bases?, hc]
  rfl

namespace HasOrder

theorem unique {order' : List DeclId} (h : t.HasOrder id order) (h' : t.HasOrder id order') :
    order = order' := by
  induction h generalizing order' with
  | @intro id bases tail order hbases _ hmerge ih =>
    obtain ⟨order', hbases', horders', hmerge'⟩ := h'
    obtain rfl := Option.some.inj (hbases.symm.trans hbases')
    have hsame : bases.reverse.map order = bases.reverse.map order' := by
      refine List.map_congr_left fun b hb => ?_
      exact ih b (List.mem_reverse.1 hb) (horders' b (List.mem_reverse.1 hb))
    rw [hsame, hmerge'] at hmerge
    rw [Option.some.inj hmerge]

theorem head (h : t.HasOrder id order) : order.head? = some id := by
  obtain ⟨_, _, _, _⟩ := h
  rfl

theorem mem_self (h : t.HasOrder id order) : id ∈ order := List.mem_of_mem_head? h.head

/-- A direct base has an order that is kept, and a shorter one. -/
theorem of_extends (h : t.HasOrder id order) (hb : t.Extends id b) :
    ∃ order', t.HasOrder b order' ∧ order'.Sublist order ∧ order'.length < order.length := by
  obtain ⟨order, hbases, horders, hmerge⟩ := h
  obtain ⟨bases', hbases', hb⟩ := hb
  obtain rfl := Option.some.inj (hbases.symm.trans hbases')
  have hsub := Inheritance.sublist_of_merge hmerge (s := order b) <| List.mem_append_left _ <|
    List.mem_map_of_mem (List.mem_reverse.2 hb)
  exact ⟨order b, horders b hb, hsub.cons id, Nat.lt_succ_of_le hsub.length_le⟩

/-- **The order of every contract that is inherited from is kept.** -/
theorem of_inherits (h : t.HasOrder id order) (hb : t.Inherits id b) :
    ∃ order', t.HasOrder b order' ∧ order'.Sublist order := by
  induction hb with
  | refl => exact ⟨order, h, .refl order⟩
  | tail _ hstep ih =>
    obtain ⟨middle, hmiddle, hsub⟩ := ih
    obtain ⟨order', horder', hsub', _⟩ := hmiddle.of_extends hstep
    exact ⟨order', horder', hsub'.trans hsub⟩

/-- **No contract with an order inherits from itself.** -/
theorem acyclic (h : t.HasOrder id order) (hb : t.Extends id b) : ¬ t.Inherits b id := by
  intro hback
  obtain ⟨_, hbase, _, hlt⟩ := h.of_extends hb
  obtain ⟨order', horder', hsub⟩ := hbase.of_inherits hback
  rw [horder'.unique h] at hsub
  exact Nat.lt_irrefl _ (Nat.lt_of_lt_of_le hlt hsub.length_le)

theorem inherits_of_mem (h : t.HasOrder id order) (hb : b ∈ order) : t.Inherits id b := by
  induction h generalizing b with
  | @intro id bases tail order hbases _ hmerge ih =>
    rcases List.mem_cons.1 hb with rfl | hb
    · exact .refl
    · obtain ⟨s, hs, hb⟩ := (Inheritance.mem_of_merge hmerge).1 hb
      rcases List.mem_append.1 hs with hs | hs
      · obtain ⟨base, hbase, rfl⟩ := List.mem_map.1 hs
        have hstep := List.mem_reverse.1 hbase
        exact .head ⟨bases, hbases, hstep⟩ (ih base hstep hb)
      · rw [List.mem_singleton.1 hs] at hb
        exact .single ⟨bases, hbases, List.mem_reverse.1 hb⟩

/-- **The members of an order** are the contracts that are inherited from. -/
theorem mem_iff (h : t.HasOrder id order) : b ∈ order ↔ t.Inherits id b := by
  refine ⟨h.inherits_of_mem, fun hb => ?_⟩
  obtain ⟨order', horder', hsub⟩ := h.of_inherits hb
  exact hsub.subset horder'.mem_self

theorem nodup (h : t.HasOrder id order) : order.Nodup := by
  have hself := h
  obtain ⟨order, hbases, horders, hmerge⟩ := h
  refine List.nodup_cons.2 ⟨fun hmem => ?_, Inheritance.nodup_of_merge hmerge⟩
  obtain ⟨s, hs, hid⟩ := (Inheritance.mem_of_merge hmerge).1 hmem
  rcases List.mem_append.1 hs with hs | hs
  · obtain ⟨base, hbase, rfl⟩ := List.mem_map.1 hs
    have hbase := List.mem_reverse.1 hbase
    exact hself.acyclic ⟨_, hbases, hbase⟩ ((horders base hbase).inherits_of_mem hid)
  · rw [List.mem_singleton.1 hs] at hid
    exact hself.acyclic ⟨_, hbases, List.mem_reverse.1 hid⟩ .refl

/-- **Numbers do not matter.**  A tree in which the contracts go by other numbers has the
orders that go by these numbers. -/
theorem map {t' : Tree} {σ : DeclId → DeclId} (hσ : Function.Injective σ) (h : t.HasOrder id order)
    (hsame : ∀ b, t.Inherits id b → t'.bases? (σ b) = (t.bases? b).map (List.map σ)) :
    t'.HasOrder (σ id) (order.map σ) := by
  induction h with
  | @intro id bases tail order hbases _ hmerge ih =>
    have hbases' : t'.bases? (σ id) = some (bases.map σ) := by
      rw [hsame id .refl, hbases]
      rfl
    -- Each base can be told from its number, since `σ` gives no number twice.
    obtain ⟨τ, hτ⟩ := hσ.hasLeftInverse
    refine .intro (fun b' => (order (τ b')).map σ) hbases' (fun b' hb' => ?_) ?_
    · obtain ⟨b, hb, rfl⟩ := List.mem_map.1 hb'
      rw [hτ b]
      exact ih b hb fun x hx => hsame x (.head ⟨bases, hbases, hb⟩ hx)
    · have hmerged := Inheritance.merge_map hσ (bases.reverse.map order ++ [bases.reverse])
      rw [hmerge] at hmerged
      rw [← List.map_reverse, List.map_map]
      simpa [Function.comp_def, hτ _] using hmerged

end HasOrder

/-! ### Finding orders -/

def Knows (t : Tree) (known : Orders) : Prop :=
  ∀ id order, known[id]? = some order → t.HasOrder id order

theorem knows_empty : t.Knows ∅ := by simp [Knows]

theorem Knows.insert {known : Orders} (h : t.Knows known) (horder : t.HasOrder id order) :
    t.Knows (known.insert id order) := by
  intro b o hb
  rw [Std.ExtTreeMap.getElem?_insert] at hb
  split at hb
  next heq =>
    cases hb
    rw [← Std.LawfulEqOrd.eq_of_compare heq]
    exact horder
  · exact h b o hb

/-- The orders of the bases are those of one function. -/
theorem exists_order {ids : List DeclId} {orders : List (List DeclId)}
    (h : List.Forall₂ t.HasOrder ids orders) :
    ∃ order : DeclId → List DeclId,
      orders = ids.map order ∧ ∀ id ∈ ids, t.HasOrder id (order id) := by
  have hex : ∀ id, ∃ order, ∀ order', t.HasOrder id order' → order' = order := by
    intro id
    by_cases hid : ∃ order, t.HasOrder id order
    · obtain ⟨order, horder⟩ := hid
      exact ⟨order, fun order' h => h.unique horder⟩
    · exact ⟨[], fun order' h => absurd ⟨order', h⟩ hid⟩
  obtain ⟨order, hunique⟩ := Classical.axiomOfChoice hex
  refine ⟨order, ?_, ?_⟩
  · induction h with
    | nil => rfl
    | cons hid _ ih => rw [List.map_cons, ← ih, hunique _ _ hid]
  · induction h with
    | nil => simp
    | cons hid _ ih =>
      intro x hx
      rcases List.mem_cons.1 hx with rfl | hx
      · rw [← hunique _ _ hid]
        exact hid
      · exact ih x hx

/-- What a search that succeeds has found: right orders only, what was known, and what was
asked. -/
structure Finds (t : Tree) (known known' : Orders) (ids : List DeclId)
    (orders : List (List DeclId)) : Prop where
  knows : t.Knows known'
  orders : List.Forall₂ t.HasOrder ids orders
  kept : ∀ k ∈ known, k ∈ known'
  asked : ∀ id ∈ ids, id ∈ known'

theorem ordersOf_sound_of {opened : IdSet} {known known' : Orders} {ids : List DeclId}
    {orders : List (List DeclId)} (hknown : t.Knows known)
    (hone : ∀ known known' id order, t.Knows known →
      t.orderOf opened known id = .ok (known', order) → t.Finds known known' [id] [order])
    (h : t.ordersOf opened known ids = .ok (known', orders)) : t.Finds known known' ids orders := by
  induction ids generalizing known orders with
  | nil =>
    rw [ordersOf] at h
    cases h
    exact ⟨hknown, .nil, fun _ hk => hk, by simp⟩
  | cons id rest ih =>
    rw [ordersOf] at h
    split at h
    · cases h
    next middle order hfirst =>
      split at h
      · cases h
      next last others hrest =>
        cases h
        have hf := hone _ _ _ _ hknown hfirst
        have hr := ih hf.knows hrest
        obtain ⟨horder, _⟩ := List.forall₂_cons.1 hf.orders
        refine ⟨hr.knows, .cons horder hr.orders, fun k hk => hr.kept k (hf.kept k hk), ?_⟩
        intro x hx
        rcases List.mem_cons.1 hx with rfl | hx
        · exact hr.kept x (hf.asked x (List.mem_singleton_self x))
        · exact hr.asked x hx

theorem orderOf_sound {opened : IdSet} {known known' : Orders} (hknown : t.Knows known)
    (h : t.orderOf opened known id = .ok (known', order)) : t.Finds known known' [id] [order] := by
  induction hn : t.remaining opened.contains using Nat.strongRecOn
    generalizing opened known known' id order with
  | _ n ih =>
    rw [orderOf] at h
    split at h
    next ho =>
      cases h
      have hmem : id ∈ known :=
        Std.ExtTreeMap.mem_iff_isSome_getElem?.2 (Option.isSome_of_eq_some ho)
      exact ⟨hknown, .cons (hknown id _ ho) .nil, fun _ hk => hk, by simpa using hmem⟩
    · split at h
      · cases h
      next hopen =>
        split at h
        · cases h
        next c hc =>
          split at h
          · cases h
          next middle orders hbases =>
            split at h
            · cases h
            next tail hmerge =>
              cases h
              -- The contract is begun now, so its bases are found with less left to begin.
              have hlt : t.remaining (opened.insert id).contains < n := by
                rw [← hn]
                refine remaining_lt (fun _ h => ?_) (declares_of_contract? hc)
                  (eq_false_of_ne_true hopen) (by simp)
                simpa using Or.inr h
              have hfound := ordersOf_sound_of hknown
                (fun _ _ _ _ hk h => ih _ hlt hk h rfl) hbases
              obtain ⟨f, rfl, hf⟩ := exists_order hfound.orders
              have horder : t.HasOrder id (id :: tail) :=
                .intro f (bases?_of_contract? hc) (fun b hb => hf b (List.mem_reverse.2 hb)) hmerge
              refine ⟨hfound.knows.insert horder, .cons horder .nil, fun k hk => ?_, by simp⟩
              exact Std.ExtTreeMap.mem_insert.2 (.inr (hfound.kept k hk))

/-- **Whatever is found is right.** -/
theorem ordersOf_sound {opened : IdSet} {known known' : Orders} {ids : List DeclId}
    {orders : List (List DeclId)} (hknown : t.Knows known)
    (h : t.ordersOf opened known ids = .ok (known', orders)) : t.Finds known known' ids orders :=
  ordersOf_sound_of hknown (fun _ _ _ _ hk h => orderOf_sound hk h) h

theorem ordersOf_complete_of {opened : IdSet} {known : Orders} {ids : List DeclId}
    {order : DeclId → List DeclId} (hknown : t.Knows known)
    (hone : ∀ id ∈ ids, ∀ known, t.Knows known →
      ∃ known', t.orderOf opened known id = .ok (known', order id) ∧ t.Knows known') :
    ∃ known', t.ordersOf opened known ids = .ok (known', ids.map order) ∧ t.Knows known' := by
  induction ids generalizing known with
  | nil => exact ⟨known, by rw [ordersOf, List.map_nil], hknown⟩
  | cons id rest ih =>
    obtain ⟨middle, hfirst, hmiddle⟩ := hone id List.mem_cons_self known hknown
    obtain ⟨last, hrest, hlast⟩ := ih hmiddle fun x hx => hone x (List.mem_cons_of_mem id hx)
    refine ⟨last, ?_, hlast⟩
    rw [ordersOf, hfirst]
    simp only [hrest, List.map_cons]

theorem orderOf_complete {opened : IdSet} {known : Orders} (hknown : t.Knows known)
    (h : t.HasOrder id order) (hopened : ∀ b, t.Inherits id b → b ∉ opened) :
    ∃ known', t.orderOf opened known id = .ok (known', order) ∧ t.Knows known' := by
  induction h generalizing opened known with
  | @intro id bases tail order hbases horders hmerge ih =>
    have horder : t.HasOrder id (id :: tail) := .intro order hbases horders hmerge
    rw [orderOf]
    split
    next o ho =>
      rw [horder.unique (hknown id o ho)]
      exact ⟨known, rfl, hknown⟩
    · rw [dif_neg (show ¬ opened.contains id = true from hopened id .refl)]
      obtain ⟨c, hc, rfl⟩ := Option.map_eq_some_iff.1 hbases
      split
      next hnone =>
        rw [hnone] at hc
        cases hc
      next c' hc' =>
        obtain rfl := Option.some.inj (hc.symm.trans hc')
        -- Nothing above the contract is met again, and neither is the contract itself.
        have hbelow : ∀ b ∈ c.baseIds, ∀ x, t.Inherits b x → x ∉ opened.insert id := by
          intro b hb x hx hmem
          rcases Std.ExtTreeSet.mem_insert.1 hmem with heq | hmem
          · rw [← Std.LawfulEqOrd.eq_of_compare heq] at hx
            exact horder.acyclic ⟨_, hbases, hb⟩ hx
          · exact hopened x (.head ⟨_, hbases, hb⟩ hx) hmem
        have hone : ∀ b ∈ c.baseIds.reverse, ∀ known, t.Knows known →
            ∃ known', t.orderOf (opened.insert id) known b = .ok (known', order b) ∧
              t.Knows known' := by
          intro b hb known hk
          rw [List.mem_reverse] at hb
          exact ih b hb hk (hbelow b hb)
        obtain ⟨middle, hfound, hmiddle⟩ := ordersOf_complete_of hknown hone
        simp only [hfound, hmerge]
        exact ⟨_, rfl, hmiddle.insert horder⟩

/-- **Every order there is is found**, whatever is known already. -/
theorem ordersOf_complete {known : Orders} {ids : List DeclId} {order : DeclId → List DeclId}
    (hknown : t.Knows known) (h : ∀ id ∈ ids, t.HasOrder id (order id)) :
    ∃ known', t.ordersOf ∅ known ids = .ok (known', ids.map order) ∧ t.Knows known' :=
  ordersOf_complete_of hknown fun id hid _ hk => orderOf_complete hk (h id hid) (by simp)

end Tree
end ContractCalls
