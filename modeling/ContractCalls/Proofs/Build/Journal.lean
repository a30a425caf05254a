import ContractCalls.Build.Creation
import ContractCalls.Proofs.Build.Acts

/-!
# The journal and the queue

A build notes each callable that it puts into its queue, and each that it takes out to read it.
`Traced` compares these notes with the queue: what was queued is what was read and what still waits,
in this order, and no callable was queued twice.

Only `enqueue` puts a callable into the queue, and only `start` takes one out.  What the other steps
keep is kept when findings are taken in (`Kept.takeAll`).
-/

namespace ContractCalls

namespace Entry

def queued? : Entry → Option DeclId
  | queue id => some id
  | _ => none

def read? : Entry → Option DeclId
  | read id => some id
  | _ => none

end Entry

namespace Journal

def queued (journal : Journal) : List DeclId := journal.toList.filterMap Entry.queued?

/-- The callables that were taken from the queue, first come first. -/
def read (journal : Journal) : List DeclId := journal.toList.filterMap Entry.read?

theorem queued_push (journal : Journal) (entry : Entry) :
    queued (journal.push entry) = journal.queued ++ entry.queued?.toList := by
  cases h : entry.queued? <;> simp [queued, h]

theorem read_push (journal : Journal) (entry : Entry) :
    read (journal.push entry) = journal.read ++ entry.read?.toList := by
  cases h : entry.read? <;> simp [read, h]

end Journal

def CallGraph.title (g : CallGraph) : DeclId × String := (g.contract, g.name)

namespace Build

/-- The builds are for the same contract, they have the same callers and the same queue, and their
journals say the same of it. -/
structure QueuedAlike (b b' : Build) : Prop where
  title : b'.graph.title = b.graph.title
  edges : b'.graph.edges = b.graph.edges
  queue : b'.queue = b.queue
  queued : b'.journal.queued = b.journal.queued
  read : b'.journal.read = b.journal.read

/-- The steps that have to do with the queue keep a property. -/
structure Kept (p : Build → Prop) : Prop where
  alike : ∀ b b', QueuedAlike b b' → p b → p b'
  addEdge : ∀ b caller callee, p b → p (b.addEdge caller callee)
  enqueue : ∀ b id, p b → p (b.enqueue id)

variable {b : Build}

theorem queuedAlike_note {entry : Entry} (hqueued : entry.queued? = none)
    (hread : entry.read? = none) : QueuedAlike b (b.note entry) :=
  ⟨rfl, rfl, rfl, by simp [note, Journal.queued_push, hqueued],
    by simp [note, Journal.read_push, hread]⟩

namespace Kept

variable {p : Build → Prop} (hkept : Kept p)

include hkept

theorem act {f : Finding} {b' : Build} (h : p b) (hact : Act f b b') : p b' := by
  cases hact with
  | edge => exact hkept.addEdge b _ _ h
  | queue => exact hkept.enqueue b _ h
  | dispatch => exact hkept.enqueue _ _ (hkept.addEdge b _ _ h)
  | release =>
    have hdispatching : p { b with dispatching := true } :=
      hkept.alike b _ ⟨rfl, rfl, rfl, rfl, rfl⟩ h
    exact hkept.alike _ _ (queuedAlike_note rfl rfl) hdispatching
  | _ => exact hkept.alike b _ ⟨rfl, rfl, rfl, rfl, rfl⟩ h

/-- **Taking in findings** keeps what these steps keep. -/
theorem takeAll (fs : List Finding) (h : p b) : p (b.takeAll fs) :=
  takeAll_keeps (fun _ _ _ _ hact hb => hkept.act hb hact) h

end Kept

theorem journal_read_takeAll (b : Build) (fs : List Finding) :
    (b.takeAll fs).journal.read = b.journal.read := by
  have hkept : Kept fun b' => b'.journal.read = b.journal.read := by
    refine ⟨fun b₁ b₂ halike h => halike.read.trans h, fun b' caller callee h => ?_, fun b' id h => ?_⟩
    · simp [addEdge, note, Journal.read_push, Entry.read?, h]
    · unfold enqueue
      split
      · exact h
      · simp [note, Journal.read_push, Entry.read?, h]
  exact hkept.takeAll fs rfl

theorem journal_read_start (b : Build) (id : DeclId) (rest : List DeclId) :
    (b.start id rest).journal.read = b.journal.read ++ [id] := by
  simp [start, moveTo, note, Journal.read_push, Entry.read?]

/-! ### What became of the queue -/

/-- The journal tells what became of the queue. -/
structure Traced (b : Build) : Prop where
  queue : b.journal.queued = b.journal.read ++ b.queue
  nodup : b.journal.queued.Nodup
  entries : ∀ id ∈ b.journal.queued, id ∈ b.graph.edges

namespace Traced

theorem alike {b' : Build} (halike : QueuedAlike b b') (h : Traced b) : Traced b' where
  queue := by
    rw [halike.queued, halike.read, halike.queue]
    exact h.queue
  nodup := by
    rw [halike.queued]
    exact h.nodup
  entries := by
    rw [halike.queued, halike.edges]
    exact h.entries

theorem addEdge (caller callee : Node) (h : Traced b) : Traced (b.addEdge caller callee) := by
  have hqueued : (b.addEdge caller callee).journal.queued = b.journal.queued := by
    simp [Build.addEdge, note, Journal.queued_push, Entry.queued?]
  have hread : (b.addEdge caller callee).journal.read = b.journal.read := by
    simp [Build.addEdge, note, Journal.read_push, Entry.read?]
  refine ⟨?_, ?_, fun id hid => ?_⟩
  · rw [hqueued, hread]
    exact h.queue
  · rw [hqueued]
    exact h.nodup
  · rw [hqueued] at hid
    exact ((grows_addEdge b caller callee).keys id).2 (.inl (h.entries id hid))

/-- A callable that is queued was no caller before, so it was not queued before. -/
theorem enqueue (id : DeclId) (h : Traced b) : Traced (b.enqueue id) := by
  have hkeys := (grows_enqueue b id).keys
  unfold Build.enqueue at hkeys ⊢
  split
  · exact h
  next hid =>
    rw [if_neg hid] at hkeys
    have hnew : id ∉ b.journal.queued := fun hmem => hid (h.entries id hmem)
    refine ⟨?_, ?_, fun k hk => ?_⟩
    · simp [note, Journal.queued_push, Journal.read_push, Entry.queued?, Entry.read?, h.queue]
    · simp only [note, Journal.queued_push, Entry.queued?, Option.toList_some]
      refine List.nodup_append.2 ⟨h.nodup, by simp, ?_⟩
      rintro k hk k' hk' rfl
      rw [List.mem_singleton.1 hk'] at hk
      exact hnew hk
    · simp only [note, Journal.queued_push, Entry.queued?, Option.toList_some, List.mem_append,
        List.mem_singleton] at hk
      exact (hkeys k).2 (hk.imp (h.entries k) Eq.symm)

theorem kept : Kept Traced :=
  ⟨fun _ _ halike h => h.alike halike, fun _ caller callee h => h.addEdge caller callee,
    fun _ id h => h.enqueue id⟩

theorem begin_ (phase : Phase) (c : Contract) : Traced (begin phase c) where
  queue := rfl
  nodup := List.nodup_nil
  entries := by
    intro id hid
    cases hid

/-- The first callable of the queue is the next that is read. -/
theorem start {id : DeclId} {rest : List DeclId} (hq : b.queue = id :: rest) (h : Traced b) :
    Traced (b.start id rest) := by
  have hqueued : (b.start id rest).journal.queued = b.journal.queued := by
    simp [Build.start, moveTo, note, Journal.queued_push, Entry.queued?]
  refine ⟨?_, ?_, ?_⟩
  · rw [hqueued, journal_read_start, h.queue, hq, List.append_assoc]
    rfl
  · rw [hqueued]
    exact h.nodup
  · rw [hqueued]
    exact h.entries

theorem takeAll (fs : List Finding) (h : Traced b) : Traced (b.takeAll fs) := kept.takeAll fs h

theorem moveTo (n : Node) (h : Traced b) : Traced (b.moveTo n) := by
  have halike : QueuedAlike b (b.moveTo n) := ⟨rfl, rfl, rfl, rfl, rfl⟩
  exact h.alike halike

theorem fail (e : Failure) (h : Traced b) : Traced (b.fail e) := by
  have halike : QueuedAlike b (b.fail e) := ⟨rfl, rfl, rfl, rfl, rfl⟩
  exact h.alike halike

variable {r : Resolver}

/-- **One callable after the other** is read, each where it was queued. -/
theorem drain (h : Traced b) : Traced (b.drain r) := by
  fun_induction Build.drain r b with
  | case1 b _ => exact h
  | case2 b _ _ => exact h.moveTo .entry
  | case3 b _ id rest hq e _ => exact (h.start hq).fail e
  | case4 b _ id rest hq c _ ih => exact ih ((h.start hq).takeAll _)

theorem finishQueue (h : Traced b) : Traced (b.finishQueue r) := by
  unfold Build.finishQueue
  split
  · exact h
  · exact (h.alike (queuedAlike_note rfl rfl)).drain

end Traced

end Build

end ContractCalls
