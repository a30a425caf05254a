import ContractCalls.Proofs.Inheritance.Orders
import ContractCalls.Proofs.Tree.Members

/-!
# Linearized trees

In a tree that was written, every contract has the order that its bases give it
(`hasOrder_of_ofSteps`).  `linearized_by_c3` says what this means without a search: the order
begins with the contract, has each contract that is inherited from once, and keeps the
list of the bases and the orders of all these contracts.  It depends on nothing else: not on what is
known already when a contract is come to, not on which contract is come to first, and not on the
numbers that the contracts have.
-/

namespace ContractCalls
namespace Tree

/-- The order of the contract that an id names. -/
def linearization? (t : Tree) (id : DeclId) : Option (List DeclId) :=
  (t.contract? id).map Contract.linearized

/-- The order of a contract with these bases. -/
structure C3 (t : Tree) (id : DeclId) (bases order : List DeclId) : Prop where
  first : order.head? = some id
  nodup : order.Nodup
  /-- The order has the contracts that zero or more base specifiers lead to. -/
  mem_iff : ∀ b, b ∈ order ↔ t.Inherits id b
  /-- The bases are in it, the one written last first. -/
  bases_sublist : bases.reverse.Sublist order
  /-- The order of every contract in it is kept. -/
  monotone : ∀ b ∈ order, ∃ order', t.linearization? b = some order' ∧ order'.Sublist order
  /-- It is what the orders of the bases and their list are merged to. -/
  merged : ∃ orders tail, bases.reverse.mapM t.linearization? = some orders ∧
    Inheritance.merge (orders ++ [bases.reverse]) = some tail ∧ order = id :: tail

variable {t : Tree} {id : DeclId}

/-- Every contract has its order. -/
def Linearized (t : Tree) : Prop := ∀ id c, t.contract? id = some c → t.HasOrder id c.linearized

/-- Giving contracts their orders changes no bases. -/
theorem bases?_map_ordered (t : Tree) (known : Orders) (id : DeclId) :
    ({ t with declarations := t.declarations.map (ordered known) } : Tree).bases? id =
      t.bases? id := by
  rw [bases?, contract?, find?_map, bases?, contract?]
  cases t.find? id with
  | none => rfl
  | some d => cases d <;> rfl

theorem linearized_linearize {t' : Tree} (ht : t.WellFormed) (h : t.linearize = .ok t') :
    t'.Linearized := by
  unfold linearize at h
  obtain ⟨⟨known, orders⟩, hfound, hmap⟩ := bind_eq_ok h
  cases hmap
  have hfinds := ordersOf_sound knows_empty hfound
  intro id c' hc'
  rw [contract?_eq_some, find?_map] at hc'
  obtain ⟨d, hd, hordered⟩ := Option.map_eq_some_iff.1 hc'
  cases d with
  | contract c =>
    cases hordered
    have hid : c.id = id := ht.id_of_find? hd
    have hc : t.contract? c.id = some c := by rw [hid, contract?_eq_some, hd]
    have hasked := hfinds.asked c.id (ht.mem_contractIds.2 (Option.isSome_of_eq_some hc))
    obtain ⟨order, horder⟩ :=
      Option.isSome_iff_exists.1 (Std.ExtTreeMap.mem_iff_isSome_getElem?.1 hasked)
    have hsame := (hfinds.knows _ _ horder).map (σ := fun b => b) (fun _ _ h => h) fun b _ => by
      rw [bases?_map_ordered t known, List.map_id_fun', Option.map_id_fun]
      rfl
    rw [List.map_id'] at hsame
    rw [← hid, horder]
    exact hsame
  | _ => cases hordered

/-- **Every contract of a tree that was written has its order.** -/
theorem hasOrder_of_ofSteps {steps : List Step} (h : ofSteps steps = .ok t) : t.Linearized := by
  obtain ⟨herror, hlinearize⟩ := finish_of_ofSteps h
  exact linearized_linearize (Draft.wellFormed_writeAll wellFormed_empty herror) hlinearize

namespace Linearized

variable {order : List DeclId}

theorem linearization?_of_hasOrder (ht : t.Linearized) (h : t.HasOrder id order) :
    t.linearization? id = some order := by
  have hbases : ∃ bases, t.bases? id = some bases := by
    obtain ⟨_, hbases, _, _⟩ := h
    exact ⟨_, hbases⟩
  obtain ⟨bases, hbases⟩ := hbases
  obtain ⟨c, hc, _⟩ := Option.map_eq_some_iff.1 hbases
  rw [linearization?, hc, h.unique (ht id c hc)]
  rfl

theorem hasOrder_iff (ht : t.Linearized) :
    t.HasOrder id order ↔ t.linearization? id = some order := by
  refine ⟨ht.linearization?_of_hasOrder, fun h => ?_⟩
  obtain ⟨c, hc, rfl⟩ := Option.map_eq_some_iff.1 h
  exact ht id c hc

theorem mapM_linearization? {ids : List DeclId} {order : DeclId → List DeclId}
    (ht : t.Linearized) (h : ∀ id ∈ ids, t.HasOrder id (order id)) :
    ids.mapM t.linearization? = some (ids.map order) := by
  induction ids with
  | nil => rfl
  | cons id ids ih =>
    rw [List.mapM_cons, ht.linearization?_of_hasOrder (h id List.mem_cons_self),
      ih fun x hx => h x (List.mem_cons_of_mem id hx)]
    rfl

theorem forall₂_hasOrder {ids : List DeclId} {orders : List (List DeclId)} (ht : t.Linearized)
    (h : ids.mapM t.linearization? = some orders) : List.Forall₂ t.HasOrder ids orders := by
  induction ids generalizing orders with
  | nil =>
    cases h
    exact .nil
  | cons id ids ih =>
    rw [List.mapM_cons] at h
    obtain ⟨order, horder, h⟩ := Option.bind_eq_some_iff.1 h
    obtain ⟨rest, hrest, h⟩ := Option.bind_eq_some_iff.1 h
    cases h
    exact .cons (ht.hasOrder_iff.2 horder) (ih hrest)

theorem c3 (ht : t.Linearized) {bases : List DeclId} (h : t.HasOrder id order)
    (hbases : t.bases? id = some bases) : t.C3 id bases order := by
  refine ⟨h.head, h.nodup, fun b => h.mem_iff, ?_, fun b hb => ?_, ?_⟩
  · obtain ⟨order, hbases', _, hmerge⟩ := h
    cases hbases.symm.trans hbases'
    exact (Inheritance.sublist_of_merge hmerge (by simp)).cons id
  · obtain ⟨order', horder', hsub⟩ := h.of_inherits (h.mem_iff.1 hb)
    exact ⟨order', ht.linearization?_of_hasOrder horder', hsub⟩
  · obtain ⟨order, hbases', horders, hmerge⟩ := h
    cases hbases.symm.trans hbases'
    refine ⟨_, _, ?_, hmerge, rfl⟩
    exact ht.mapM_linearization? fun b hb => horders b (List.mem_reverse.1 hb)

/-- The contracts can be come to in any order, with any orders known. -/
theorem ordersOf_eq_ok (ht : t.Linearized) {known : Orders} {ids : List DeclId}
    {orders : List (List DeclId)}
    (hknown : ∀ b order, known[b]? = some order → t.linearization? b = some order)
    (horders : ids.mapM t.linearization? = some orders) :
    ∃ known', t.ordersOf ∅ known ids = .ok (known', orders) := by
  obtain ⟨order, rfl, horder⟩ := exists_order (ht.forall₂_hasOrder horders)
  obtain ⟨known', h, _⟩ :=
    ordersOf_complete (fun b o hb => ht.hasOrder_iff.2 (hknown b o hb)) horder
  exact ⟨known', h⟩

theorem linearization?_map {t' : Tree} {σ : DeclId → DeclId} (ht : t.Linearized)
    (ht' : t'.Linearized) (hσ : Function.Injective σ)
    (hsame : ∀ b, t.Inherits id b → t'.bases? (σ b) = (t.bases? b).map (List.map σ)) :
    t'.linearization? (σ id) = (t.linearization? id).map (List.map σ) := by
  cases horder : t.linearization? id with
  | none =>
    have hnone : t'.bases? (σ id) = none := by
      rw [hsame id .refl, bases?, Option.map_eq_none_iff.1 horder]
      rfl
    rw [linearization?, Option.map_eq_none_iff.1 hnone]
    rfl
  | some order => exact ht'.linearization?_of_hasOrder ((ht.hasOrder_iff.2 horder).map hσ hsame)

end Linearized

end Tree

/-! ### A diamond

A contract with two bases that share one, written twice with the two bases in either order. -/

namespace Diamond

def contract (name : String) (bases : List DeclId) : Step :=
  .contract name .contract false (bases.map fun b => ⟨b, []⟩)

def steps : List Step :=
  [contract "Root" [], contract "Left" [⟨0⟩], contract "Right" [⟨0⟩],
    contract "Bottom" [⟨1⟩, ⟨2⟩]]

def mirroredSteps : List Step :=
  [contract "Root" [], contract "Right" [⟨0⟩], contract "Left" [⟨0⟩],
    contract "Bottom" [⟨2⟩, ⟨1⟩]]

def tree : Tree := (Tree.ofSteps steps).toOption.getD {}

def mirrored : Tree := (Tree.ofSteps mirroredSteps).toOption.getD {}

def known : Orders := (∅ : Orders).insert ⟨1⟩ [⟨1⟩, ⟨0⟩]

/-- The number that a contract has in the other writing. -/
def exchange (id : DeclId) : DeclId :=
  if id = ⟨1⟩ then ⟨2⟩ else if id = ⟨2⟩ then ⟨1⟩ else id

theorem exchange_injective : Function.Injective exchange := by
  intro a b h
  unfold exchange at h
  grind

theorem ofSteps_steps : Tree.ofSteps steps = .ok tree := eq_ok_of_isOk (by cbv) _

theorem ofSteps_mirroredSteps : Tree.ofSteps mirroredSteps = .ok mirrored :=
  eq_ok_of_isOk (by cbv) _

theorem linearization?_tree : tree.linearization? ⟨3⟩ = some [⟨3⟩, ⟨2⟩, ⟨1⟩, ⟨0⟩] := by
  cbv

theorem linearization?_of_known (b : DeclId) (order : List DeclId) (h : known[b]? = some order) :
    tree.linearization? b = some order := by
  rw [known, Std.ExtTreeMap.getElem?_insert] at h
  split at h
  next heq =>
    obtain rfl := Std.LawfulEqOrd.eq_of_compare heq
    cases h
    cbv
  · simp at h

theorem bases?_exchange {b : DeclId} (h : tree.Inherits ⟨3⟩ b) :
    mirrored.bases? (exchange b) = (tree.bases? b).map (List.map exchange) := by
  have hlinear := Tree.hasOrder_of_ofSteps ofSteps_steps
  have hmem := (hlinear.hasOrder_iff.2 linearization?_tree).mem_iff.2 h
  simp only [List.mem_cons, List.not_mem_nil, or_false] at hmem
  rcases hmem with rfl | rfl | rfl | rfl
  all_goals cbv

end Diamond

namespace Tree

variable {t : Tree}

/-- **The order of every contract** is the one that its bases give it, by the rule of C3.  No
matter what is known already, in which order contracts are come to, and what numbers they have,
the orders are the same. -/
theorem linearized_by_c3 {steps : List Step} (ht : ofSteps steps = .ok t) :
    (∀ id c, t.contract? id = some c → t.C3 id c.baseIds c.linearized) ∧
    (∀ (known : Orders) ids orders,
      (∀ b order, known[b]? = some order → t.linearization? b = some order) →
      ids.mapM t.linearization? = some orders →
      ∃ known', t.ordersOf ∅ known ids = .ok (known', orders)) ∧
    ∀ steps' t' (σ : DeclId → DeclId), ofSteps steps' = .ok t' → Function.Injective σ → ∀ id,
      (∀ b, t.Inherits id b → t'.bases? (σ b) = (t.bases? b).map (List.map σ)) →
      t'.linearization? (σ id) = (t.linearization? id).map (List.map σ) := by
  have hlinear := hasOrder_of_ofSteps ht
  refine ⟨fun id c hc => ?_, fun known ids orders hknown horders => ?_, ?_⟩
  · exact hlinear.c3 (hlinear id c hc) (bases?_of_contract? hc)
  · exact hlinear.ordersOf_eq_ok hknown horders
  · intro steps' t' σ ht' hσ id hsame
    exact hlinear.linearization?_map (hasOrder_of_ofSteps ht') hσ hsame

theorem diamond_linearized_by_c3 :
    (∃ c, Diamond.tree.contract? ⟨3⟩ = some c ∧ Diamond.tree.C3 ⟨3⟩ c.baseIds c.linearized) ∧
    (∃ known, Diamond.tree.ordersOf ∅ Diamond.known [⟨3⟩, ⟨2⟩] =
      .ok (known, [[⟨3⟩, ⟨2⟩, ⟨1⟩, ⟨0⟩], [⟨2⟩, ⟨0⟩]])) ∧
    Diamond.mirrored.linearization? ⟨3⟩ = some [⟨3⟩, ⟨1⟩, ⟨2⟩, ⟨0⟩] := by
  have h := linearized_by_c3 Diamond.ofSteps_steps
  refine ⟨?_, h.2.1 Diamond.known _ _ Diamond.linearization?_of_known (by cbv), ?_⟩
  · obtain ⟨c, hc, _⟩ := Option.map_eq_some_iff.1 Diamond.linearization?_tree
    exact ⟨c, hc, h.1 ⟨3⟩ c hc⟩
  · have hmirrored := h.2.2 _ _ Diamond.exchange Diamond.ofSteps_mirroredSteps
      Diamond.exchange_injective ⟨3⟩ fun b hb => Diamond.bases?_exchange hb
    rw [Diamond.linearization?_tree] at hmirrored
    exact hmirrored

end Tree
end ContractCalls
