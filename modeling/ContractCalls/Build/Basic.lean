import ContractCalls.Build.Journal
import ContractCalls.CallGraph.Basic
import ContractCalls.Finding

/-!
# Building a graph

A `Build` is a graph in the making.  Findings come in one after the other (`take`): a
call site adds its edge and puts the callable it leads to into a queue, unless the
graph has it already.  `drain` reads the code of the callables in the queue, which
brings new findings, until the queue is empty.

Function pointers are special.  That a callable is used as a value only matters once a
pointer is called: until then its target is kept among the pointers of the graph, and
the first call through a pointer releases all that are known.

The first failure ends a build, be it an error or a constant whose reading never ends;
nothing more is taken in after it.

`drain` ends because `pending`, which counts the declarations that are no caller yet and
those in the queue, gets smaller with each callable read: no finding makes it larger
(`pending_takeAll_le`).
-/

namespace ContractCalls

structure Build where
  graph : CallGraph
  /-- The node whose code is being read. -/
  current : Node := .entry
  /-- The callables that are to be read, first come first served. -/
  queue : List DeclId := []
  /-- A pointer has been called. -/
  dispatching : Bool := false
  journal : Journal := #[]
  /-- What ended the build, if it failed. -/
  error : Option Failure := none

namespace Build

def note (b : Build) (entry : Entry) : Build := { b with journal := b.journal.push entry }

def fail (b : Build) (e : Failure) : Build := { b with error := some e }

/-- Turns to the code of a node. -/
def moveTo (b : Build) (n : Node) : Build := { b with current := n }

/-- Puts a callable into the queue, unless the graph has it. -/
def enqueue (b : Build) (id : DeclId) : Build :=
  if b.graph.edges.contains id then b
  else { b with queue := b.queue ++ [id], graph := b.graph.addCallable id }.note (.queue id)

def addEdge (b : Build) (caller callee : Node) : Build :=
  { b with graph := b.graph.addEdge caller.key callee.key }.note (.edge caller callee)

/-- Lets pointer calls lead to a callable. -/
def dispatchTo (b : Build) (id : DeclId) : Build :=
  (b.addEdge .internalDispatch (.callable id)).enqueue id

def dispatchAll (b : Build) (ids : List DeclId) : Build := ids.foldl dispatchTo b

def addPointer (b : Build) (id : DeclId) : Build :=
  { b with graph := { b.graph with pointers := b.graph.pointers.insert id } }

/-- Takes a callable as a pointer; if pointers are called, they can now lead to it. -/
def takePointer (b : Build) (id : DeclId) : Build :=
  if b.dispatching then (b.addPointer id).dispatchTo id else b.addPointer id

/-- Notes that a pointer is called, and lets it lead to all that are known. -/
def release (b : Build) : Build :=
  let pointers := b.graph.pointers.toList
  ({ b with dispatching := true }.note (.release pointers.length)).dispatchAll pointers

/-- Adds the edge of a call site that has one. -/
def addEdge? (b : Build) : Option (Node × Node) → Build
  | none => b
  | some (caller, callee) => b.addEdge caller callee

/-- Puts the callable of a call site that has one into the queue. -/
def enqueue? (b : Build) : Option DeclId → Build
  | none => b
  | some id => b.enqueue id

/-- Adds a call site that is more than the taking of a pointer. -/
def link (b : Build) (site : CallSite) : Build :=
  let b := (b.addEdge? site.edge?).enqueue? site.target.callable?
  if site.kind = .indirect ∧ b.dispatching = false then b.release else b

def record (b : Build) (site : CallSite) : Build :=
  match site.kind, site.target.callable? with
  | .reference, some id => b.takePointer id
  | .reference, none => b
  | _, _ => b.link site

def addEmitted (b : Build) (event : DeclId) : Build :=
  { b with graph := { b.graph with emitted := b.graph.emitted.insert event } }

def addCreated (b : Build) (contract : DeclId) : Build :=
  { b with graph := { b.graph with created := b.graph.created.insert contract } }

/-- Takes in a finding of a build that has not failed. -/
def apply (b : Build) : Finding → Build
  | .site site => b.record site
  | .emits event => b.addEmitted event
  | .creates contract => b.addCreated contract
  | .error e => b.fail e

def take (b : Build) (f : Finding) : Build := if b.error.isSome then b else b.apply f

def takeAll (b : Build) (fs : List Finding) : Build := fs.foldl take b

/-- Takes in what the code of the current node tells. -/
def readCode (r : Resolver) (b : Build) (code : List Occurrence) : Build :=
  b.takeAll (r.findings b.current code)

/-! ### What is pending -/

/-- The declarations that are no caller yet, and those that are in the queue. -/
def pending (t : Tree) (b : Build) : Nat :=
  t.remaining b.graph.edges.contains + b.queue.countP t.declares

theorem pending_enqueue_le (t : Tree) (b : Build) (id : DeclId) :
    (b.enqueue id).pending t ≤ b.pending t := by
  unfold enqueue
  split
  · exact Nat.le_refl _
  next hid =>
    have hmono : ∀ k, b.graph.edges.contains k = true →
        (b.graph.addCallable id).edges.contains k = true := by
      intro k hk
      simp [CallGraph.contains_addCallable, hk]
    simp only [pending, note, List.countP_append, List.countP_singleton]
    cases hd : t.declares id with
    | false =>
      have := t.remaining_le hmono
      simp
      omega
    | true =>
      have := Tree.remaining_lt hmono hd (eq_false_of_ne_true hid)
        (by simp [CallGraph.contains_addCallable])
      simp
      omega

theorem pending_addEdge_le (t : Tree) (b : Build) (caller callee : Node) :
    (b.addEdge caller callee).pending t ≤ b.pending t := by
  have hmono : ∀ k, b.graph.edges.contains k = true →
      (b.graph.addEdge caller.key callee.key).edges.contains k = true := by
    intro k hk
    simp [CallGraph.contains_addEdge, hk]
  have := t.remaining_le hmono
  simp only [pending, addEdge, note]
  omega

theorem pending_dispatchTo_le (t : Tree) (b : Build) (id : DeclId) :
    (b.dispatchTo id).pending t ≤ b.pending t :=
  Nat.le_trans (pending_enqueue_le t _ id) (pending_addEdge_le t b _ _)

theorem pending_dispatchAll_le (t : Tree) (b : Build) (ids : List DeclId) :
    (b.dispatchAll ids).pending t ≤ b.pending t := by
  induction ids generalizing b with
  | nil => exact Nat.le_refl _
  | cons id ids ih => exact Nat.le_trans (ih _) (pending_dispatchTo_le t b id)

theorem pending_takePointer_le (t : Tree) (b : Build) (id : DeclId) :
    (b.takePointer id).pending t ≤ b.pending t := by
  unfold takePointer
  split
  · exact pending_dispatchTo_le t (b.addPointer id) id
  · exact Nat.le_refl _

theorem pending_release_le (t : Tree) (b : Build) : b.release.pending t ≤ b.pending t :=
  pending_dispatchAll_le t _ _

theorem pending_link_le (t : Tree) (b : Build) (site : CallSite) :
    (b.link site).pending t ≤ b.pending t := by
  have hedge : (b.addEdge? site.edge?).pending t ≤ b.pending t := by
    cases site.edge? with
    | none => exact Nat.le_refl _
    | some e => exact pending_addEdge_le t b e.1 e.2
  have hqueue : ((b.addEdge? site.edge?).enqueue? site.target.callable?).pending t ≤
      (b.addEdge? site.edge?).pending t := by
    cases site.target.callable? with
    | none => exact Nat.le_refl _
    | some id => exact pending_enqueue_le t _ id
  simp only [link]
  split
  · exact Nat.le_trans (pending_release_le t _) (Nat.le_trans hqueue hedge)
  · exact Nat.le_trans hqueue hedge

theorem pending_record_le (t : Tree) (b : Build) (site : CallSite) :
    (b.record site).pending t ≤ b.pending t := by
  unfold record
  split
  · exact pending_takePointer_le t b _
  · exact Nat.le_refl _
  · exact pending_link_le t b site

theorem pending_take_le (t : Tree) (b : Build) (f : Finding) :
    (b.take f).pending t ≤ b.pending t := by
  unfold take
  split
  · exact Nat.le_refl _
  · cases f with
    | site site => exact pending_record_le t b site
    | emits _ => exact Nat.le_refl _
    | creates _ => exact Nat.le_refl _
    | error _ => exact Nat.le_refl _

theorem pending_takeAll_le (t : Tree) (b : Build) (fs : List Finding) :
    (b.takeAll fs).pending t ≤ b.pending t := by
  induction fs generalizing b with
  | nil => exact Nat.le_refl _
  | cons f fs ih => exact Nat.le_trans (ih _) (pending_take_le t b f)

/-! ### Emptying the queue -/

/-- Takes the callable `id` out of the queue, of which `rest` is left, and turns to its
code. -/
def start (b : Build) (id : DeclId) (rest : List DeclId) : Build :=
  ({ b with queue := rest }.moveTo (.callable id)).note (.read id)

/-- Reads the callables in the queue until there are none, and goes back to `entry`. -/
def drain (r : Resolver) (b : Build) : Build :=
  if b.error.isSome then b
  else
    match _hq : b.queue with
    | [] => b.moveTo .entry
    | id :: rest =>
      match _hc : r.tree.requireCallable id with
      | .error e => (b.start id rest).fail e
      | .ok c => drain r ((b.start id rest).readCode r c.occurrences)
termination_by b.pending r.tree
decreasing_by
  refine Nat.lt_of_le_of_lt (pending_takeAll_le _ _ _) ?_
  simp [pending, start, moveTo, note, _hq, Tree.declares_of_require _hc]

/-- Notes that the queue is turned to, and empties it. -/
def finishQueue (r : Resolver) (b : Build) : Build :=
  if b.error.isSome then b else (b.note (.drain b.current)).drain r

end Build

/-- How a build came out. -/
structure Outcome (α : Type) where
  /-- What was done, also by a build that failed. -/
  journal : Journal
  result : Except Failure α

namespace Build

/-- The end of a build: the graph with a last entry in the journal, or the error. -/
def outcome (phase : Phase) (b : Build) : Outcome CallGraph :=
  match b.error with
  | some e => ⟨b.journal, .error e⟩
  | none =>
    let g := b.graph
    let last := .finish phase g.name g.callables.length g.edgeCount g.emitted.size g.created.size
    ⟨b.journal.push last, .ok g⟩

end Build

end ContractCalls
