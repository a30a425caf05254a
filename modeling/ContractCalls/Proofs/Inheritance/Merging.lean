import ContractCalls.Inheritance.Merge
import Mathlib.Data.List.Basic
import Mathlib.Tactic.Common

/-!
# What a merge keeps

The order that `merge` answers has every sequence as a part of it, in order
(`sublist_of_merge`); it has the ids of the sequences and no others (`mem_of_merge`), and none
of them twice (`nodup_of_merge`).  An id that was taken is in front of all sequences that
have it, and so in none of them afterwards (`not_mem_dropHeads`).

Taking the first head that is free never leads astray: whenever there is an order of this kind, a
merge finds one (`exists_merge_iff`).  The first id of the order that is in any sequence is a
head that is free (`exists_candidate`), and what is left after any free head was taken has the
order without this head (`OrderOf.dropHeads`).

A merge compares ids only for being the same, so it does not matter which numbers they
have: `merge_map` says so for every renumbering.
-/

namespace ContractCalls
namespace Inheritance

variable {sequences : List (List DeclId)} {order : List DeclId} {id : DeclId}

/-! ### Taking a head -/

theorem dropHead_sublist (id : DeclId) (s : List DeclId) : (dropHead id s).Sublist s := by
  unfold dropHead
  split
  · exact List.tail_sublist s
  · exact List.Sublist.refl s

theorem sublist_cons_of_dropHead {s : List DeclId} (h : (dropHead id s).Sublist order) :
    s.Sublist (id :: order) := by
  cases s with
  | nil => exact List.nil_sublist _
  | cons a s =>
    by_cases ha : a = id
    · subst ha
      rw [dropHead, if_pos (List.head?_cons)] at h
      exact h.cons_cons a
    · rw [dropHead, if_neg (by simpa using ha)] at h
      exact h.cons id

theorem not_mem_dropHeads (hfree : heldBack sequences id = false) {s : List DeclId}
    (hs : s ∈ dropHeads id sequences) : id ∉ s := by
  obtain ⟨s, hmem, rfl⟩ := List.mem_map.1 hs
  have htail : id ∉ s.tail := by
    intro hid
    rw [heldBack, List.any_eq_false] at hfree
    exact hfree s hmem (List.contains_iff_mem.2 hid)
  cases s with
  | nil => simp [dropHead]
  | cons a s =>
    by_cases ha : a = id
    · rw [dropHead, if_pos (by simpa using ha)]
      exact htail
    · rw [dropHead, if_neg (by simpa using ha), List.mem_cons, not_or]
      exact ⟨Ne.symm ha, htail⟩

/-! ### The order that is answered -/

/-- **Every sequence is kept in order.** -/
theorem sublist_of_merge (h : merge sequences = some order) {s : List DeclId} (hs : s ∈ sequences) :
    s.Sublist order := by
  fun_induction merge sequences generalizing order s with
  | case1 sequences hempty =>
    have hnil : s = [] := List.isEmpty_iff.1 (List.all_eq_true.1 hempty s hs)
    rw [hnil]
    exact List.nil_sublist _
  | case2 => cases h
  | case3 sequences _ id _ ih =>
    obtain ⟨rest, hrest, rfl⟩ := Option.map_eq_some_iff.1 h
    exact sublist_cons_of_dropHead (ih hrest (List.mem_map_of_mem hs))

/-- **Nothing else is in the order.** -/
theorem mem_of_merge (h : merge sequences = some order) :
    id ∈ order ↔ ∃ s ∈ sequences, id ∈ s := by
  refine ⟨fun hid => ?_, fun hex => ?_⟩
  · fun_induction merge sequences generalizing order with
    | case1 =>
      cases h
      cases hid
    | case2 => cases h
    | case3 sequences _ head hhead ih =>
      obtain ⟨rest, hrest, rfl⟩ := Option.map_eq_some_iff.1 h
      rcases List.mem_cons.1 hid with rfl | hid
      · obtain ⟨s, hs, hsome⟩ := (candidate?_eq_some hhead).1
        exact ⟨s, hs, List.mem_of_mem_head? hsome⟩
      · obtain ⟨s, hs, hid⟩ := ih hrest hid
        obtain ⟨s, hmem, rfl⟩ := List.mem_map.1 hs
        exact ⟨s, hmem, (dropHead_sublist head s).subset hid⟩
  · obtain ⟨s, hs, hid⟩ := hex
    exact (sublist_of_merge h hs).subset hid

/-- **No id is in the order twice**, whatever the sequences repeat. -/
theorem nodup_of_merge (h : merge sequences = some order) : order.Nodup := by
  fun_induction merge sequences generalizing order with
  | case1 =>
    cases h
    exact List.nodup_nil
  | case2 => cases h
  | case3 sequences _ head hhead ih =>
    obtain ⟨rest, hrest, rfl⟩ := Option.map_eq_some_iff.1 h
    refine List.nodup_cons.2 ⟨fun hmem => ?_, ih hrest⟩
    obtain ⟨s, hs, hid⟩ := (mem_of_merge hrest).1 hmem
    exact not_mem_dropHeads (candidate?_eq_some hhead).2 hs hid

/-! ### Whether there is an order -/

/-- An order of all sequences: it has no id twice, and every sequence is a part of it, in order. -/
structure OrderOf (sequences : List (List DeclId)) (order : List DeclId) : Prop where
  nodup : order.Nodup
  sublist : ∀ s ∈ sequences, s.Sublist order

theorem orderOf_merge (h : merge sequences = some order) : OrderOf sequences order :=
  ⟨nodup_of_merge h, fun _ hs => sublist_of_merge h hs⟩

theorem OrderOf.not_heldBack (h : OrderOf sequences (id :: order)) :
    heldBack sequences id = false := by
  obtain ⟨hid, _⟩ := List.nodup_cons.1 h.nodup
  rw [heldBack, List.any_eq_false]
  intro s hs hmem
  rw [List.contains_iff_mem] at hmem
  cases h.sublist s hs with
  | cons _ hsub => exact hid (hsub.subset (List.mem_of_mem_tail hmem))
  | cons_cons _ hsub => exact hid (hsub.subset hmem)

/-- **Some head is free** as long as there is an order and anything to put in order. -/
theorem exists_candidate (h : OrderOf sequences order)
    (hleft : ¬ sequences.all List.isEmpty = true) : ∃ id, candidate? sequences = some id := by
  induction order with
  | nil =>
    refine absurd (List.all_eq_true.2 fun s hs => ?_) hleft
    rw [List.sublist_nil.1 (h.sublist s hs)]
    rfl
  | cons a order ih =>
    by_cases hhead : ∃ s ∈ sequences, s.head? = some a
    · refine Option.isSome_iff_exists.1 (List.find?_isSome.2 ⟨a, ?_, by simp [h.not_heldBack]⟩)
      simpa using hhead
    · -- No sequence begins with `a`, so none of them has it.
      refine ih ⟨(List.nodup_cons.1 h.nodup).2, fun s hs => ?_⟩
      cases h.sublist s hs with
      | cons _ hsub => exact hsub
      | cons_cons _ hsub => exact absurd ⟨_, hs, List.head?_cons⟩ hhead

/-- An order is left when a free head is taken. -/
theorem OrderOf.dropHeads (h : OrderOf sequences order) (hfree : heldBack sequences id = false) :
    OrderOf (dropHeads id sequences) (order.filter (· ≠ id)) := by
  refine ⟨h.nodup.filter _, fun s hs => ?_⟩
  have hall : s.filter (· ≠ id) = s := by
    refine List.filter_eq_self.2 fun a ha => ?_
    have hne : a ≠ id := fun heq => not_mem_dropHeads hfree hs (heq ▸ ha)
    simpa using hne
  obtain ⟨s', hs', rfl⟩ := List.mem_map.1 hs
  rw [← hall]
  exact ((dropHead_sublist id s').trans (h.sublist s' hs')).filter _

/-- **A merge finds an order whenever there is one.** -/
theorem exists_merge_iff :
    (∃ order, merge sequences = some order) ↔ ∃ order, OrderOf sequences order := by
  constructor
  · rintro ⟨order, h⟩
    exact ⟨order, orderOf_merge h⟩
  · rintro ⟨order, h⟩
    fun_induction merge sequences generalizing order with
    | case1 => exact ⟨[], rfl⟩
    | case2 sequences hleft hnone =>
      obtain ⟨id, hid⟩ := exists_candidate h hleft
      rw [hnone] at hid
      cases hid
    | case3 sequences _ id hid ih =>
      obtain ⟨rest, hrest⟩ := ih _ (h.dropHeads (candidate?_eq_some hid).2)
      exact ⟨id :: rest, by rw [hrest, Option.map_some]⟩

/-! ### Renumbering -/

section

variable {σ : DeclId → DeclId} (hσ : Function.Injective σ)

include hσ

theorem heldBack_map (sequences : List (List DeclId)) (id : DeclId) :
    heldBack (sequences.map (List.map σ)) (σ id) = heldBack sequences id := by
  rw [Bool.eq_iff_iff, heldBack, heldBack, List.any_map]
  simp only [List.any_eq_true, Function.comp_apply, List.contains_iff_mem, ← List.map_tail,
    List.mem_map_of_injective hσ]

theorem candidate?_map (sequences : List (List DeclId)) :
    candidate? (sequences.map (List.map σ)) = (candidate? sequences).map σ := by
  have hheads : (sequences.map (List.map σ)).filterMap List.head? =
      (sequences.filterMap List.head?).map σ := by
    rw [List.filterMap_map, List.map_filterMap]
    congr 1
    funext s
    exact List.head?_map
  rw [candidate?, candidate?, hheads, List.find?_map]
  congr 2
  funext id
  exact congrArg Bool.not (heldBack_map hσ sequences id)

theorem dropHead_map (id : DeclId) (s : List DeclId) :
    dropHead (σ id) (s.map σ) = (dropHead id s).map σ := by
  cases s with
  | nil => rfl
  | cons a s =>
    by_cases ha : a = id
    · simp [dropHead, ha]
    · simp [dropHead, ha, hσ.eq_iff]

theorem dropHeads_map (id : DeclId) (sequences : List (List DeclId)) :
    dropHeads (σ id) (sequences.map (List.map σ)) = (dropHeads id sequences).map (List.map σ) := by
  rw [dropHeads, dropHeads, List.map_map, List.map_map]
  exact List.map_congr_left fun s _ => dropHead_map hσ id s

/-- **Numbers do not matter.**  Renumbered sequences have the renumbered order. -/
theorem merge_map (sequences : List (List DeclId)) :
    merge (sequences.map (List.map σ)) = (merge sequences).map (List.map σ) := by
  have hempty : ∀ sequences : List (List DeclId),
      (sequences.map (List.map σ)).all List.isEmpty = sequences.all List.isEmpty := by
    intro sequences
    rw [List.all_map]
    congr 1
    funext s
    cases s <;> rfl
  fun_induction merge sequences with
  | case1 sequences hall =>
    rw [merge, if_pos (by rw [hempty, hall])]
    rfl
  | case2 sequences hall hnone =>
    rw [merge, if_neg (by rw [hempty]; exact hall)]
    split
    · rfl
    next id hid =>
      rw [candidate?_map hσ, hnone] at hid
      cases hid
  | case3 sequences hall id hid ih =>
    rw [merge, if_neg (by rw [hempty]; exact hall)]
    split
    next hnone =>
      rw [candidate?_map hσ, hid] at hnone
      cases hnone
    next id' hid' =>
      rw [candidate?_map hσ, hid] at hid'
      obtain rfl : σ id = id' := Option.some.inj hid'
      rw [dropHeads_map hσ, ih, Option.map_map, Option.map_map]
      rfl

end

end Inheritance
end ContractCalls
