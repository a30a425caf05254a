import ContractCalls.DeclId

/-!
# Merging orders

`merge` combines sequences of ids into one sequence without repetition that keeps
the order of each of them.  Step by step it takes the first head, in the order of
the sequences, that no sequence still holds back behind its own head, and removes it
from the front of every sequence.  When every head is held back there is no answer.
-/

namespace ContractCalls
namespace Inheritance

/-- One of the sequences has `id` behind its head. -/
def heldBack (sequences : List (List DeclId)) (id : DeclId) : Bool :=
  sequences.any fun s => s.tail.contains id

/-- The first head that is not held back. -/
def candidate? (sequences : List (List DeclId)) : Option DeclId :=
  (sequences.filterMap List.head?).find? fun id => !heldBack sequences id

/-- A sequence without `id` at its front. -/
def dropHead (id : DeclId) (s : List DeclId) : List DeclId :=
  if s.head? = some id then s.tail else s

def dropHeads (id : DeclId) (sequences : List (List DeclId)) : List (List DeclId) :=
  sequences.map (dropHead id)

theorem length_dropHead_le (id : DeclId) (s : List DeclId) :
    (dropHead id s).length ≤ s.length := by
  unfold dropHead
  split <;> simp

theorem length_dropHead_lt {id : DeclId} {s : List DeclId} (h : s.head? = some id) :
    (dropHead id s).length < s.length := by
  cases s with
  | nil => simp at h
  | cons a s => simp [dropHead, h]

theorem candidate?_eq_some {sequences : List (List DeclId)} {id : DeclId}
    (h : candidate? sequences = some id) :
    (∃ s ∈ sequences, s.head? = some id) ∧ heldBack sequences id = false := by
  refine ⟨by simpa using List.mem_of_find?_eq_some h, ?_⟩
  simpa using List.find?_some h

def entries (sequences : List (List DeclId)) : Nat := sequences.flatten.length

theorem entries_dropHeads_le (id : DeclId) (sequences : List (List DeclId)) :
    entries (dropHeads id sequences) ≤ entries sequences := by
  induction sequences with
  | nil => simp [dropHeads]
  | cons s rest ih =>
    have := length_dropHead_le id s
    simp only [entries, dropHeads, List.map_cons, List.flatten_cons, List.length_append] at ih ⊢
    omega

theorem entries_dropHeads_lt {id : DeclId} {sequences : List (List DeclId)}
    (h : ∃ s ∈ sequences, s.head? = some id) :
    entries (dropHeads id sequences) < entries sequences := by
  obtain ⟨s, hs, hd⟩ := h
  obtain ⟨as, bs, rfl⟩ := List.append_of_mem hs
  have ha := entries_dropHeads_le id as
  have hb := entries_dropHeads_le id bs
  have hc := length_dropHead_lt hd
  simp only [entries, dropHeads, List.map_append, List.map_cons, List.flatten_append,
    List.flatten_cons, List.length_append] at ha hb ⊢
  omega

/-- One order for all sequences, if the heads never block each other. -/
def merge (sequences : List (List DeclId)) : Option (List DeclId) :=
  if sequences.all List.isEmpty then some []
  else
    match _h : candidate? sequences with
    | none => none
    | some id => (merge (dropHeads id sequences)).map (id :: ·)
termination_by entries sequences
decreasing_by exact entries_dropHeads_lt (candidate?_eq_some _h).1

end Inheritance
end ContractCalls
