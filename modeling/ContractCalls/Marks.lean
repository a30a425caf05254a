import ContractCalls.DeclId

/-!
# Marks

A search marks what it has seen and never looks at it again.  `unmarked` counts what a
list of ids still has to offer: every new mark on one of them makes the number smaller
(`unmarked_lt`), and no mark makes it larger (`unmarked_le`), which is why searches end.
-/

namespace ContractCalls

/-- The number of ids that are not marked. -/
def unmarked (marked : DeclId → Bool) (ids : List DeclId) : Nat := ids.countP fun id => !marked id

theorem unmarked_le {p q : DeclId → Bool} (h : ∀ id, p id = true → q id = true)
    (ids : List DeclId) : unmarked q ids ≤ unmarked p ids := by
  refine List.countP_mono_left fun id _ hq => ?_
  cases hp : p id with
  | false => rfl
  | true => simp [h _ hp] at hq

theorem unmarked_lt {p q : DeclId → Bool} (h : ∀ id, p id = true → q id = true)
    {ids : List DeclId} {id : DeclId} (hid : id ∈ ids) (hp : p id = false) (hq : q id = true) :
    unmarked q ids < unmarked p ids := by
  obtain ⟨as, bs, rfl⟩ := List.append_of_mem hid
  have ha := unmarked_le h as
  have hb := unmarked_le h bs
  simp only [unmarked, List.countP_append, List.countP_cons, hp, hq] at ha hb ⊢
  simp
  omega

end ContractCalls
