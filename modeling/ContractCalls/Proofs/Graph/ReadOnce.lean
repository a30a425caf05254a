import ContractCalls.Proofs.Build.Finished
import ContractCalls.Proofs.Code.Openings
import ContractCalls.Proofs.Graph.Outcomes

/-!
# Each callable is read once

A build reads code and empties its queue, and the queue grows while it is emptied.  `Resolver.Walks`
and `Build.Drains` are these two loops with nothing that would stop them.  If no constants refer to
each other in a cycle they come to an end all the same (`Resolver.ends`): a walk since the constants
behind it run out, and the emptying since with each callable that is read fewer are pending.

The journal keeps what went through the queue.  No callable is queued twice, and callables are read
in the order in which they were queued, also by a build that fails (`Traced`).  A build that
succeeds has read them all, and they are the callables of its graph:
`each_callable_is_read_once`.
-/

namespace ContractCalls

open Finding

/-! ### The run comes to an end -/

/-- Walking the code for a node comes to an end, and has told the findings. -/
def Resolver.Walks (r : Resolver) (n : Node) (os : List Occurrence) (fs : List Finding) : Prop :=
  ∃ left, r.tree.Opens os left ∧ left.flatMap (r.ofOccurrence n) = fs

/-- Emptying the queue comes to an end with the other build, and the callables were walked one after
the other. -/
inductive Build.Drains (r : Resolver) : Build → List DeclId → Build → Prop where
  | failed {b : Build} : b.error ≠ none → Drains r b [] b
  | done {b : Build} : b.error = none → b.queue = [] → Drains r b [] (b.moveTo .entry)
  | lost {b : Build} {id : DeclId} {rest : List DeclId} {e : Error} : b.error = none →
      b.queue = id :: rest → r.tree.requireCallable id = .error e →
      Drains r b [] ((b.start id rest).fail e)
  /-- The next in the queue is walked, then the others and what its code put there. -/
  | next {b b' : Build} {id : DeclId} {rest walked : List DeclId} {c : Callable}
      {fs : List Finding} : b.error = none → b.queue = id :: rest →
      r.tree.requireCallable id = .ok c → r.Walks (.callable id) c.occurrences fs →
      Drains r ((b.start id rest).takeAll fs) walked b' → Drains r b (id :: walked) b'

/-- All walks and all emptying come to an end with what is computed, and what was taken from the
queue was walked. -/
structure Resolver.Ends (r : Resolver) : Prop where
  walks : ∀ n os fs, r.Walks n os fs ↔ r.findings n os = fs
  drains : ∀ b b', (∃ walked, Build.Drains r b walked b') ↔ b.drain r = b'
  walked : ∀ b walked, Build.Drains r b walked (b.drain r) → (b.drain r).error = none →
    (b.drain r).journal.read = b.journal.read ++ walked

namespace Resolver

variable {r : Resolver} {n : Node} {os : List Occurrence} {fs : List Finding}

theorem walks_iff (hacyclic : r.tree.NoConstantCycle) : r.Walks n os fs ↔ r.findings n os = fs := by
  unfold Walks
  rw [findings_of_noConstantCycle hacyclic]
  simp only [Tree.opens_iff hacyclic, exists_eq_left]

/-- Emptying the queue comes to an end. -/
theorem exists_drains (hacyclic : r.tree.NoConstantCycle) (b : Build) :
    ∃ walked, Build.Drains r b walked (b.drain r) := by
  fun_induction Build.drain r b with
  | case1 b herror => exact ⟨_, .failed (Option.isSome_iff_ne_none.1 herror)⟩
  | case2 b herror hq => exact ⟨_, .done (Option.not_isSome_iff_eq_none.1 herror) hq⟩
  | case3 b herror id rest hq e hc =>
    exact ⟨_, .lost (Option.not_isSome_iff_eq_none.1 herror) hq hc⟩
  | case4 b herror id rest hq c hc ih =>
    obtain ⟨walked, hdrains⟩ := ih
    exact ⟨_, .next (Option.not_isSome_iff_eq_none.1 herror) hq hc ((walks_iff hacyclic).2 rfl)
      hdrains⟩

variable {b b' : Build} {walked : List DeclId}

theorem drain_of_drains (hacyclic : r.tree.NoConstantCycle) (h : Build.Drains r b walked b') :
    b.drain r = b' := by
  induction h with
  | failed herror => exact Build.drain_of_error herror
  | done herror hq => exact Build.drain_nil herror hq
  | lost herror hq hc =>
    rw [Build.drain_cons herror hq, Build.takeAll_code_of_error herror hc,
      Build.drain_of_error (by simp [Build.fail])]
  | @next b b' id rest walked c fs herror hq hc hwalks _ ih =>
    have hcode : r.code id = fs := by
      rw [code, hc]
      exact (walks_iff hacyclic).1 hwalks
    rw [Build.drain_cons herror hq, hcode]
    exact ih

/-- What was taken from the queue was walked, unless an error came up. -/
theorem read_of_drains (h : Build.Drains r b walked b') (hok : b'.error = none) :
    b'.journal.read = b.journal.read ++ walked := by
  induction h with
  | failed => exact (List.append_nil _).symm
  | done => exact (List.append_nil _).symm
  | lost => cases hok
  | next _ _ _ _ _ ih =>
    rw [ih hok, Build.journal_read_takeAll, Build.journal_read_start, List.append_assoc]
    rfl

/-- **Every run comes to an end** if no constants refer to each other in a cycle. -/
theorem ends (hacyclic : r.tree.NoConstantCycle) : r.Ends where
  walks := fun _ _ _ => walks_iff hacyclic
  drains := by
    intro b b'
    constructor
    · rintro ⟨walked, h⟩
      exact drain_of_drains hacyclic h
    · rintro rfl
      exact exists_drains hacyclic b
  walked := fun _ _ h hok => read_of_drains h hok

end Resolver

/-! ### What went through the queue -/

namespace Build

variable {r : Resolver} {b : Build} {fs : List Finding} {pointers : IdSet} {config : Config}

theorem traced_creation (r : Resolver) : Traced (creation r) := by
  rw [creation_eq]
  exact (((Traced.begin_ _ _).takeAll _).moveTo _).finishQueue

theorem traced_deployment (r : Resolver) (pointers : IdSet) (config : Config) :
    Traced (deployment r pointers config) := by
  have huncarried : Traced (uncarried r) := ((Traced.begin_ _ _).takeAll _).finishQueue
  have halike : QueuedAlike (uncarried r)
      ((uncarried r).note (.carry pointers.size r.contract.name)) := queuedAlike_note rfl rfl
  rw [deployment_eq]
  split
  · exact ((huncarried.alike halike).takeAll _).finishQueue
  · exact huncarried

/-- The queue is empty, and the journal has all that was read. -/
def ReadAll (r : Resolver) (b : Build) : Prop :=
  ∃ fs, Stage r (fun _ => True) b fs b.journal.read ∧ b.queue = []

theorem Stage.readAll_finishQueue (h : Stage r (fun _ => True) b fs b.journal.read)
    (hok : (b.finishQueue r).error = none) : ReadAll r (b.finishQueue r) := by
  have hread : (b.note (.drain b.current)).journal.read = b.journal.read :=
    (queuedAlike_note rfl rfl).read
  rw [h.finishQueue_eq] at hok ⊢
  obtain ⟨more, next, hstage, hnil, hjournal⟩ :=
    (h.noted (.drain b.current)).drain_read (fun _ _ _ _ => trivial) hok
  rw [hread] at hjournal
  rw [← hjournal] at hstage
  exact ⟨_, hstage, hnil⟩

/-- The seeds are taken in, then the queue is read. -/
theorem readAll_seeds {seeds : List Finding} {phase : Phase} {c : Contract} {n : Node}
    (hanchored : AnchoredAt (· = Node.entryKey) seeds)
    (hok : ((((begin phase c).takeAll seeds).moveTo n).finishQueue r).error = none) :
    ReadAll r ((((begin phase c).takeAll seeds).moveTo n).finishQueue r) := by
  have hstage := (stage_seeded (fun _ => False) hanchored hok).anyhow
  have hread : (((begin phase c).takeAll seeds).moveTo n).journal.read = [] :=
    journal_read_takeAll (begin phase c) seeds
  rw [← hread] at hstage
  exact hstage.readAll_finishQueue hok

theorem readAll_creation (hok : (creation r).error = none) : ReadAll r (creation r) := by
  rw [creation_eq] at hok ⊢
  exact readAll_seeds Resolver.anchoredAt_creationSeeds hok

theorem readAll_deployment (hok : (deployment r pointers config).error = none) :
    ReadAll r (deployment r pointers config) := by
  have huncarried : (uncarried r).error = none → ReadAll r (uncarried r) := by
    intro hok
    rw [uncarried_eq] at hok ⊢
    exact readAll_seeds (Resolver.anchoredAt_entrySites _) hok
  rw [deployment_eq] at hok ⊢
  split at hok
  next hcarries =>
    rw [if_pos hcarries]
    obtain ⟨fs, hstage, _⟩ := huncarried (carries_iff.1 hcarries).1
    have hcarried := (hstage.noted (.carry pointers.size r.contract.name)).takeCarried
      (error_of_finishQueue hok) fun _ _ => trivial
    have hread : (((uncarried r).note (.carry pointers.size r.contract.name)).takeAll
        (pointers.toList.map carriedSite)).journal.read = (uncarried r).journal.read :=
      (journal_read_takeAll _ _).trans (queuedAlike_note rfl rfl).read
    rw [← hread] at hcarried
    exact hcarried.readAll_finishQueue hok
  next hcarries =>
    rw [if_neg hcarries]
    exact huncarried hok

/-- **The callables that were read** are those of the graph. -/
theorem ReadAll.mem_callables (h : ReadAll r b) {id : DeclId} :
    id ∈ b.journal.read ↔ id ∈ b.graph.callables := by
  obtain ⟨fs, hstage, hqueue⟩ := h
  rw [CallGraph.mem_callables]
  constructor
  · intro hid
    refine ⟨hstage.reading.entries id (List.mem_append_left _ hid), ?_⟩
    obtain ⟨c, hc⟩ := Resolver.exists_callable? fun e he =>
      hstage.records.sound e (hstage.covered id hid _ he)
    exact Tree.plain_of_callable? (Option.isSome_of_eq_some hc)
  · rintro ⟨hid, hplain⟩
    have hknown := hstage.reading.known id hid hplain
    rwa [hqueue, List.append_nil] at hknown

end Build

/-- No callable is queued twice, and callables are read in the order in which they were queued.  If
there is a graph, all of them were read, and they are its callables. -/
structure Outcome.ReadsInOrder (o : Outcome CallGraph) : Prop where
  nodup : o.journal.queued.Nodup
  order : o.journal.read <+: o.journal.queued
  finished : ∀ g, o.result = .ok g → o.journal.read = o.journal.queued ∧
    ∀ id, id ∈ o.journal.queued ↔ id ∈ g.callables

namespace Build

variable {r : Resolver} {b : Build}

theorem journal_outcome (b : Build) (phase : Phase) :
    (b.outcome phase).journal.queued = b.journal.queued ∧
      (b.outcome phase).journal.read = b.journal.read := by
  unfold outcome
  cases b.error with
  | some e => exact ⟨rfl, rfl⟩
  | none =>
    constructor
    · simp [Journal.queued_push, Entry.queued?]
    · simp [Journal.read_push, Entry.read?]

theorem Traced.readsInOrder (h : Traced b) (hall : b.error = none → ReadAll r b) (phase : Phase) :
    (b.outcome phase).ReadsInOrder := by
  obtain ⟨hqueued, hread⟩ := b.journal_outcome phase
  refine ⟨?_, ?_, fun g hg => ?_⟩
  · rw [hqueued]
    exact h.nodup
  · rw [hqueued, hread, h.queue]
    exact List.prefix_append _ _
  · obtain ⟨hok, rfl⟩ := outcome_eq_ok hg
    have hreadAll := hall hok
    obtain ⟨_, _, hempty⟩ := hreadAll
    have hsame : b.journal.queued = b.journal.read := by
      rw [h.queue, hempty, List.append_nil]
    rw [hqueued, hread, hsame]
    exact ⟨rfl, fun id => (hall hok).mem_callables⟩

end Build

/-- Nothing went through the queue of a build that was not begun. -/
theorem Outcome.readsInOrder_of_error (e : Failure) : Outcome.ReadsInOrder ⟨#[], .error e⟩ := by
  refine ⟨List.nodup_nil, List.prefix_refl _, fun g hg => ?_⟩
  cases hg

/-! ### A ledger

Two functions call each other, and one of them calls itself.  Both name a constant whose initializer
calls a third function and names another constant.  A pointer that the constructor takes is handed
on. -/

namespace Ledger

/-- The name of the constant that both functions use. -/
def useFee : Stmt := .eval (.plain "FEE" (some ⟨3⟩))

def steps : List Step :=
  [ .contract "Ledger" .contract false [],
    .variable ⟨some ⟨0⟩, "UNIT", "uint256", false, true, false, [], some (.plain "wei" none)⟩,
    .function ⟨some ⟨0⟩, "scale", .function, some .internal, false, [], [], [], .usual⟩,
    .variable ⟨some ⟨0⟩, "FEE", "uint256", false, true, false, [],
      some (.internalCall "scale" ⟨2⟩ [.plain "UNIT" (some ⟨1⟩)])⟩,
    .function ⟨some ⟨0⟩, "audit", .function, some .internal, false, [], [], [],
      .written [useFee, .eval (.internalCall "post" ⟨5⟩ [])]⟩,
    .function ⟨some ⟨0⟩, "post", .function, none, false, [], [], [],
      .written
        [ .eval (.callOf ((Expr.plain "local" none).withFunctionType .internal) []),
          .eval (.internalCall "audit" ⟨4⟩ []), useFee, .eval (.internalCall "post" ⟨5⟩ []) ]⟩,
    .function ⟨some ⟨0⟩, "undo", .function, some .internal, false, [], [], [],
      .written [.eval (.internalCall "audit" ⟨4⟩ [])]⟩,
    .function ⟨some ⟨0⟩, "", .constructor, none, false, [], [], [],
      .written [.eval (.functionRef "undo" ⟨6⟩)]⟩ ]

def tree : Tree := (Tree.ofSteps steps).toOption.getD {}

def creation : CallGraph := (tree.creationGraph ⟨0⟩).result.toOption.getD ⟨⟨0⟩, "", ∅, ∅, ∅, ∅⟩

theorem noConstantCycle_tree : tree.NoConstantCycle := Tree.noConstantCycle_of_inOrder (by cbv)

end Ledger

namespace Tree

variable {t : Tree}

theorem readsInOrder_creationGraph (contract : DeclId) :
    (t.creationGraph contract).ReadsInOrder := by
  unfold creationGraph
  split
  · exact Outcome.readsInOrder_of_error _
  · exact (Build.traced_creation _).readsInOrder Build.readAll_creation .creation

theorem readsInOrder_deploymentGraph (contract : DeclId) (creation : CallGraph) (config : Config) :
    (t.deploymentGraph contract creation config).ReadsInOrder := by
  unfold deploymentGraph
  split
  · exact Outcome.readsInOrder_of_error _
  · split
    · split
      · exact Outcome.readsInOrder_of_error _
      · exact (Build.traced_deployment _ _ _).readsInOrder Build.readAll_deployment .deployment
    · exact Outcome.readsInOrder_of_error _

/-- **Each callable is read once, and every build comes to an end**, if no constants refer to each
other in a cycle. -/
theorem each_callable_is_read_once (hacyclic : t.NoConstantCycle) (contract : DeclId) :
    (∀ r, t.resolver contract = .ok r → r.Ends) ∧
      (t.creationGraph contract).ReadsInOrder ∧
      ∀ creation config, (t.deploymentGraph contract creation config).ReadsInOrder := by
  refine ⟨fun r hr => ?_, readsInOrder_creationGraph contract,
    readsInOrder_deploymentGraph contract⟩
  obtain ⟨rfl, _⟩ := of_resolver hr
  exact Resolver.ends hacyclic

theorem ledger_each_callable_is_read_once :
    Ledger.tree.NoConstantCycle ∧ (∀ r, Ledger.tree.resolver ⟨0⟩ = .ok r → r.Ends) ∧
      (Ledger.tree.creationGraph ⟨0⟩).ReadsInOrder ∧
      (Ledger.tree.deploymentGraph ⟨0⟩ Ledger.creation .standard).ReadsInOrder ∧
      (Ledger.tree.deploymentGraph ⟨0⟩ Ledger.creation .standard).journal.queued =
        [⟨5⟩, ⟨4⟩, ⟨2⟩, ⟨6⟩] := by
  obtain ⟨hends, hcreation, hdeployment⟩ :=
    each_callable_is_read_once Ledger.noConstantCycle_tree ⟨0⟩
  exact ⟨Ledger.noConstantCycle_tree, hends, hcreation, hdeployment _ _, by cbv⟩

end Tree

end ContractCalls
