import ContractCalls.Proofs.Inheritance.Merging

/-!
# A merge, round by round

`merge` answers the whole order at once.  Run as a loop, a merge keeps what is left of the sequences
beside the ids that it has taken (`Merging`).  In a round the sequences that are used up are left
out; then the first head that is free is taken off the others, or the merge is over: with what was
taken if no sequence is left, and without an answer if every head is held back.

A round does not change what the answer will be (`answer_of_goOn`), and it uses up an entry
(`entries_of_goOn`).  So the loop always ends, after no more rounds than there are entries, and it
ends with what `merge` answers (`exists_ends`).

`merge_decides_orders` puts this together with what an answer keeps: a merge always ends, and it
ends with an order of the sequences unless there is none.  That a free head may be taken without
looking ahead is `OrderOf.dropHeads`, and that some head is free as long as there is an order is
`exists_candidate`.
-/

namespace ContractCalls
namespace Inheritance

/-- The sequences that are not used up. -/
def unfinished (sequences : List (List DeclId)) : List (List DeclId) :=
  sequences.filter fun s => !s.isEmpty

/-- A merge under way. -/
structure Merging where
  /-- What is left of the sequences. -/
  sequences : List (List DeclId)
  taken : List DeclId

/-- One round: the merge goes on, or it is over with an answer. -/
def Merging.round (m : Merging) : Merging ⊕ Option (List DeclId) :=
  if unfinished m.sequences = [] then .inr (some m.taken)
  else
    match candidate? (unfinished m.sequences) with
    | none => .inr none
    | some id => .inl ⟨dropHeads id (unfinished m.sequences), m.taken ++ [id]⟩

/-- After so many rounds that go on, the merge is over with this answer. -/
inductive Merging.Ends : Merging → Nat → Option (List DeclId) → Prop where
  | stop {m : Merging} {answer : Option (List DeclId)} : m.round = .inr answer → Ends m 0 answer
  | goOn {m m' : Merging} {n : Nat} {answer : Option (List DeclId)} :
      m.round = .inl m' → Ends m' n answer → Ends m (n + 1) answer

variable {sequences others : List (List DeclId)}

/-! ### Sequences that are used up -/

theorem unfinished_cons (s : List DeclId) (rest : List (List DeclId)) :
    unfinished (s :: rest) = if s = [] then unfinished rest else s :: unfinished rest := by
  cases s <;> rfl

theorem unfinished_eq_nil : unfinished sequences = [] ↔ sequences.all List.isEmpty = true := by
  rw [unfinished, List.filter_eq_nil_iff, List.all_eq_true]
  simp

theorem heldBack_unfinished (sequences : List (List DeclId)) (id : DeclId) :
    heldBack (unfinished sequences) id = heldBack sequences id := by
  induction sequences with
  | nil => rfl
  | cons s rest ih =>
    rw [unfinished_cons]
    by_cases hs : s = []
    · rw [if_pos hs, ih, hs]
      rfl
    · rw [if_neg hs, heldBack, List.any_cons, ← heldBack, ih]
      rfl

theorem candidate?_unfinished (sequences : List (List DeclId)) :
    candidate? (unfinished sequences) = candidate? sequences := by
  have hheads : (unfinished sequences).filterMap List.head? = sequences.filterMap List.head? := by
    induction sequences with
    | nil => rfl
    | cons s rest ih =>
      rw [unfinished_cons]
      by_cases hs : s = []
      · rw [if_pos hs, ih, hs]
        rfl
      · rw [if_neg hs, List.filterMap_cons, ih, List.filterMap_cons]
  simp only [candidate?, hheads, heldBack_unfinished]

theorem unfinished_dropHeads (id : DeclId) (sequences : List (List DeclId)) :
    unfinished (dropHeads id (unfinished sequences)) = unfinished (dropHeads id sequences) := by
  induction sequences with
  | nil => rfl
  | cons s rest ih =>
    rw [unfinished_cons]
    by_cases hs : s = []
    · rw [if_pos hs, ih, hs]
      rfl
    · have hdrop : ∀ rest, dropHeads id (s :: rest) = dropHead id s :: dropHeads id rest :=
        fun _ => List.map_cons
      rw [if_neg hs, hdrop, hdrop, unfinished_cons, unfinished_cons, ih]

theorem entries_unfinished (sequences : List (List DeclId)) :
    entries (unfinished sequences) = entries sequences := by
  rw [entries, unfinished, List.flatten_filter_not_isEmpty, entries]

theorem merge_eq (sequences : List (List DeclId)) : merge sequences =
    if sequences.all List.isEmpty then some []
    else (candidate? sequences).bind fun id => (merge (dropHeads id sequences)).map (id :: ·) := by
  rw [merge]
  split
  · rfl
  · split
    next hnone => rw [hnone]; rfl
    next id hid => rw [hid]; rfl

theorem merge_congr (h : unfinished sequences = unfinished others) :
    merge sequences = merge others := by
  induction hn : entries sequences using Nat.strongRecOn generalizing sequences others with
  | _ n ih =>
    have hempty : sequences.all List.isEmpty = others.all List.isEmpty := by
      rw [Bool.eq_iff_iff, ← unfinished_eq_nil, ← unfinished_eq_nil, h]
    have hcandidate : candidate? sequences = candidate? others := by
      rw [← candidate?_unfinished, h, candidate?_unfinished]
    rw [merge_eq, merge_eq others, hempty, ← hcandidate]
    split
    · rfl
    · refine Option.bind_congr fun id hid => ?_
      have hless := entries_dropHeads_lt (candidate?_eq_some hid).1
      have hdrop : unfinished (dropHeads id sequences) = unfinished (dropHeads id others) := by
        rw [← unfinished_dropHeads, h, unfinished_dropHeads]
      rw [ih _ (hn ▸ hless) hdrop rfl]

namespace Merging

variable {m m' : Merging} {a : Option (List DeclId)}

/-! ### One round -/

/-- What a merge under way will answer. -/
def answer (m : Merging) : Option (List DeclId) := (merge m.sequences).map (m.taken ++ ·)

/-- **What a round does.**  Nothing is left, or every head is held back, or a free head is taken. -/
theorem round_cases (m : Merging) :
    (m.sequences.all List.isEmpty = true ∧ m.round = .inr (some m.taken)) ∨
    (¬ m.sequences.all List.isEmpty = true ∧ candidate? m.sequences = none ∧ m.round = .inr none) ∨
    ∃ id, ¬ m.sequences.all List.isEmpty = true ∧ candidate? m.sequences = some id ∧
      m.round = .inl ⟨dropHeads id (unfinished m.sequences), m.taken ++ [id]⟩ := by
  rw [round, candidate?_unfinished, ← unfinished_eq_nil]
  by_cases hempty : unfinished m.sequences = []
  · exact .inl ⟨hempty, if_pos hempty⟩
  · rw [if_neg hempty]
    cases hcandidate : candidate? m.sequences with
    | none => exact .inr (.inl ⟨hempty, rfl, rfl⟩)
    | some id => exact .inr (.inr ⟨id, hempty, rfl, rfl⟩)

theorem answer_of_stop (h : m.round = .inr a) : a = m.answer := by
  rw [answer, merge_eq]
  rcases m.round_cases with ⟨hempty, hround⟩ | ⟨hleft, hnone, hround⟩ | ⟨id, _, _, hround⟩
  · rw [if_pos hempty, Option.map_some, List.append_nil]
    exact (Sum.inr.inj (hround.symm.trans h)).symm
  · rw [if_neg hleft, hnone]
    exact (Sum.inr.inj (hround.symm.trans h)).symm
  · rw [hround] at h
    cases h

/-- **A round keeps the answer.** -/
theorem answer_of_goOn (h : m.round = .inl m') : m'.answer = m.answer := by
  rcases m.round_cases with ⟨_, hround⟩ | ⟨_, _, hround⟩ | ⟨id, hleft, hid, hround⟩
  · rw [hround] at h
    cases h
  · rw [hround] at h
    cases h
  · obtain rfl := Sum.inl.inj (hround.symm.trans h)
    have hrest : merge (dropHeads id (unfinished m.sequences)) = merge (dropHeads id m.sequences) :=
      merge_congr (unfinished_dropHeads id m.sequences)
    rw [answer, answer, hrest, merge_eq m.sequences, if_neg hleft, hid, Option.bind_some,
      Option.map_map]
    refine congrArg (Option.map · _) (funext fun order => ?_)
    rw [Function.comp_apply, List.append_assoc, List.singleton_append]

/-- **A round uses up an entry.** -/
theorem entries_of_goOn (h : m.round = .inl m') : entries m'.sequences < entries m.sequences := by
  rcases m.round_cases with ⟨_, hround⟩ | ⟨_, _, hround⟩ | ⟨id, _, hid, hround⟩
  · rw [hround] at h
    cases h
  · rw [hround] at h
    cases h
  · obtain rfl := Sum.inl.inj (hround.symm.trans h)
    rw [← candidate?_unfinished] at hid
    have hless := entries_dropHeads_lt (candidate?_eq_some hid).1
    rwa [entries_unfinished] at hless

/-! ### All rounds -/

theorem Ends.unique {n k : Nat} {a a' : Option (List DeclId)} (h : Ends m n a) (h' : Ends m k a') :
    n = k ∧ a = a' := by
  induction h generalizing k with
  | stop hround =>
    cases h' with
    | stop hround' => exact ⟨rfl, Sum.inr.inj (hround.symm.trans hround')⟩
    | goOn hround' _ => cases hround.symm.trans hround'
  | goOn hround _ ih =>
    cases h' with
    | stop hround' => cases hround.symm.trans hround'
    | goOn hround' hrest =>
      obtain rfl := Sum.inl.inj (hround.symm.trans hround')
      obtain ⟨rfl, rfl⟩ := ih hrest
      exact ⟨rfl, rfl⟩

/-- **Every merge ends**, with what `merge` makes of the sequences that are left. -/
theorem exists_ends (m : Merging) : ∃ n ≤ entries m.sequences, Ends m n m.answer := by
  induction hn : entries m.sequences using Nat.strongRecOn generalizing m with
  | _ n ih =>
    cases hround : m.round with
    | inr a =>
      obtain rfl := answer_of_stop hround
      exact ⟨0, Nat.zero_le n, .stop hround⟩
    | inl m' =>
      have hless : entries m'.sequences < n := hn ▸ entries_of_goOn hround
      obtain ⟨k, hk, hends⟩ := ih _ hless m' rfl
      rw [answer_of_goOn hround] at hends
      exact ⟨k + 1, Nat.succ_le_of_lt (Nat.lt_of_le_of_lt hk hless), .goOn hround hends⟩

end Merging

/-! ### The answer -/

/-- **A merge decides whether there is an order.**  Run round by round it ends in one way, after no
more rounds than there are entries.  It has an answer if and only if some sequence without repetition
keeps all of the given ones, and then the answer is such a sequence, of the given ids and no others.
Nothing is assumed of the sequences: they may be empty, or repeat an id. -/
theorem merge_decides_orders (sequences : List (List DeclId)) :
    (∃ n ≤ entries sequences, ∀ k answer,
      Merging.Ends ⟨sequences, []⟩ k answer ↔ k = n ∧ answer = merge sequences) ∧
    ((∃ order, merge sequences = some order) ↔ ∃ order, OrderOf sequences order) ∧
    ∀ order, merge sequences = some order →
      OrderOf sequences order ∧ ∀ id, id ∈ order ↔ ∃ s ∈ sequences, id ∈ s := by
  refine ⟨?_, exists_merge_iff, fun order h => ⟨orderOf_merge h, fun id => mem_of_merge h⟩⟩
  obtain ⟨n, hn, hends⟩ := Merging.exists_ends ⟨sequences, []⟩
  have hanswer : Merging.answer ⟨sequences, []⟩ = merge sequences := Option.map_id'
  rw [hanswer] at hends
  refine ⟨n, hn, fun k answer => ⟨fun h => h.unique hends, ?_⟩⟩
  rintro ⟨rfl, rfl⟩
  exact hends

/-- Braids of a few ids.  The first has an order, though one sequence is empty and one repeats
another; the second repeats an id within a sequence, and the third crosses two ids. -/
theorem braids_merge_decides_orders :
    OrderOf [[⟨1⟩, ⟨2⟩], [], [⟨3⟩, ⟨2⟩], [⟨1⟩, ⟨3⟩], [⟨1⟩, ⟨2⟩]] [⟨1⟩, ⟨3⟩, ⟨2⟩] ∧
    (¬ ∃ order, OrderOf [[⟨1⟩, ⟨2⟩, ⟨1⟩]] order) ∧
    ¬ ∃ order, OrderOf [[⟨1⟩, ⟨2⟩], [⟨2⟩, ⟨1⟩]] order := by
  have hbraid : merge [[⟨1⟩, ⟨2⟩], [], [⟨3⟩, ⟨2⟩], [⟨1⟩, ⟨3⟩], [⟨1⟩, ⟨2⟩]] =
      some [⟨1⟩, ⟨3⟩, ⟨2⟩] := by decide +kernel
  have hrepeated : merge [[⟨1⟩, ⟨2⟩, ⟨1⟩]] = none := by decide +kernel
  have hcrossed : merge [[⟨1⟩, ⟨2⟩], [⟨2⟩, ⟨1⟩]] = none := by decide +kernel
  refine ⟨((merge_decides_orders _).2.2 _ hbraid).1, ?_, ?_⟩
  · rw [← (merge_decides_orders _).2.1, hrepeated]
    simp
  · rw [← (merge_decides_orders _).2.1, hcrossed]
    simp

end Inheritance
end ContractCalls
