import ContractCalls.Proofs.Build.Callers
import ContractCalls.Proofs.Build.Finished

/-!
# What holds in every state of a run

An edge starts at the outside, at the calls through pointers, or at a callable that was queued
before, and the queue is turned to while no code is being read.  `Checked` says this of all that the
journal has by now, also in a build that has failed (`checked_creation`, `checked_deployment`).

An edge that is wrong would hide itself, because it makes its caller a node of the graph.  So every
edge is traced back in the journal, to a note that its caller was queued (`Sourced`).  Findings come
in an order in which this note is there (`Sourced.takeAll`).
-/

namespace ContractCalls

open Finding

/-- Each edge starts at a node that the journal knows by then: at the outside, at the calls through
pointers, or at a callable that was queued before. -/
def Journal.Sourced (journal : Journal) : Prop :=
  ∀ before caller callee after, journal.toList = before ++ .edge caller callee :: after →
    caller = .entry ∨ caller = .internalDispatch ∨
      ∃ id, caller = .callable id ∧ .queue id ∈ before

theorem Journal.Sourced.push {journal : Journal} (h : journal.Sourced) {entry : Entry}
    (hentry : ∀ caller callee, entry = .edge caller callee → ∀ id, caller = .callable id →
      .queue id ∈ journal) : Journal.Sourced (journal.push entry) := by
  intro before caller callee after hsplit
  rw [Array.toList_push] at hsplit
  rcases List.eq_nil_or_concat after with rfl | ⟨after, last, rfl⟩
  · -- The edge is the new entry.
    obtain ⟨rfl, hlast⟩ := List.append_inj' hsplit rfl
    cases caller with
    | entry => exact .inl rfl
    | internalDispatch => exact .inr (.inl rfl)
    | callable id =>
      have hqueued := hentry (.callable id) callee (List.singleton_inj.1 hlast) id rfl
      exact .inr (.inr ⟨id, rfl, Array.mem_toList_iff.2 hqueued⟩)
  · rw [List.concat_eq_append, ← List.cons_append, ← List.append_assoc] at hsplit
    exact h before caller callee after (List.append_inj' hsplit rfl).1

namespace Build

/-- All edges of the journal start where they may, and all callables of the graph were queued. -/
structure Sourced (b : Build) : Prop where
  journal : b.journal.Sourced
  queued : ∀ id ∈ b.graph.edges, id.Plain → .queue id ∈ b.journal

/-- The node is none that was made as a callable, or a callable of the graph. -/
def Knows (b : Build) (n : Node) : Prop :=
  ∀ id, n = .callable id → id.Plain ∧ id ∈ b.graph.edges

variable {b : Build} {r : Resolver}

namespace Sourced

theorem note (h : Sourced b) {entry : Entry} (hentry : ∀ caller callee, entry ≠ .edge caller callee) :
    Sourced (b.note entry) :=
  ⟨h.journal.push fun caller callee heq => absurd heq (hentry caller callee),
    fun id hid hplain => Array.mem_push_of_mem entry (h.queued id hid hplain)⟩

theorem addEdge (h : Sourced b) {caller callee : Node} (hcaller : b.Knows caller) :
    Sourced (b.addEdge caller callee) where
  journal := by
    refine h.journal.push fun caller' callee' heq id hid => ?_
    cases heq
    exact h.queued id (hcaller id hid).2 (hcaller id hid).1
  queued := by
    intro id hid hplain
    refine Array.mem_push_of_mem _ ?_
    rcases ((grows_addEdge b caller callee).keys id).1 hid with hid | rfl
    · exact h.queued id hid hplain
    · cases caller with
      | callable k => exact h.queued k (hcaller k rfl).2 hplain
      | entry => exact absurd rfl hplain.1
      | internalDispatch => exact absurd rfl hplain.2

theorem enqueue (h : Sourced b) (id : DeclId) : Sourced (b.enqueue id) := by
  have hkeys := (grows_enqueue b id).keys
  unfold Build.enqueue at hkeys ⊢
  split
  · exact h
  next hid =>
    rw [if_neg hid] at hkeys
    refine ⟨h.journal.push (by simp), fun k hk hplain => ?_⟩
    rcases (hkeys k).1 hk with hk | rfl
    · exact Array.mem_push_of_mem _ (h.queued k hk hplain)
    · exact Array.mem_push_self

theorem act {f : Finding} {b' : Build} (h : Sourced b) (hact : Act f b b')
    (hcaller : ∀ caller callee, f.edge? = some (caller, callee) → b.Knows caller) :
    Sourced b' := by
  cases hact with
  | edge hedge => exact h.addEdge (hcaller _ _ hedge)
  | queue => exact h.enqueue _
  | release =>
    have hreleased : Sourced { b with dispatching := true } := ⟨h.journal, h.queued⟩
    exact hreleased.note (by simp)
  | dispatch =>
    have hdispatch : b.Knows .internalDispatch := fun _ hid => by cases hid
    exact (h.addEdge hdispatch).enqueue _
  | _ => exact ⟨h.journal, h.queued⟩

theorem take {f : Finding} (h : Sourced b)
    (hcaller : ∀ caller callee, f.edge? = some (caller, callee) → b.Knows caller) :
    Sourced (b.take f) := by
  have hkeeps : ∀ b b', Act f b b' →
      (Sourced b ∧ ∀ caller callee, f.edge? = some (caller, callee) → b.Knows caller) →
      Sourced b' ∧ ∀ caller callee, f.edge? = some (caller, callee) → b'.Knows caller := by
    intro b b' hact hb
    refine ⟨hb.1.act hact hb.2, fun caller callee hedge id hid => ?_⟩
    obtain ⟨hplain, hmem⟩ := hb.2 caller callee hedge id hid
    exact ⟨hplain, hact.mem_edges hmem⟩
  exact (take_keeps hkeeps ⟨h, hcaller⟩).1

/-- Findings that come in order bring no edge whose caller was not queued, also where one of them
ends the build. -/
theorem takeAll {t : Tree} {fs gs : List Finding} (h : Sourced b) (hrecords : Records b fs)
    (hanchored : AnchoredAt (· = Node.entryKey) (fs ++ gs))
    (hcallers : ∀ g ∈ gs, g.FromCallables t) : Sourced (b.takeAll gs) := by
  induction gs generalizing b fs with
  | nil => exact h
  | cons g gs ih =>
    have hg : Sourced (b.take g) := by
      refine h.take fun caller callee hedge id hid => ?_
      subst hid
      have hplain : id.Plain := by
        rcases hcallers g List.mem_cons_self _ _ hedge with hentry | ⟨k, hk, hcallable⟩
        · cases hentry
        · cases hk
          exact Tree.plain_of_callable? hcallable
      rcases hanchored fs g gs rfl (.callable id) callee hedge with hroot | hqueued
      · exact absurd hroot hplain.1
      · exact ⟨hplain, hrecords.mem_edges_of_queued hqueued⟩
    by_cases hok : (b.take g).error = none
    · refine ih hg (hrecords.take hok) ?_ fun g' hg' => hcallers g' (List.mem_cons_of_mem g hg')
      rw [← List.append_cons]
      exact hanchored
    · show Sourced ((b.take g).takeAll gs)
      rw [takeAll_of_error hok]
      exact hg

end Sourced

/-! ### Turning to the queue -/

/-- The queue is turned to only while no code is being read. -/
def DrainsAtEntry (b : Build) : Prop := ∀ n, .drain n ∈ b.journal → n = .entry

theorem DrainsAtEntry.push {b b' : Build} (h : DrainsAtEntry b) {entry : Entry}
    (hjournal : b'.journal = b.journal.push entry) (hentry : ∀ n, entry = .drain n → n = .entry) :
    DrainsAtEntry b' := by
  intro n hn
  rw [hjournal] at hn
  rcases Array.mem_push.1 hn with hn | heq
  · exact h n hn
  · exact hentry n heq.symm

theorem DrainsAtEntry.enqueue (h : DrainsAtEntry b) (id : DeclId) :
    DrainsAtEntry (b.enqueue id) := by
  unfold Build.enqueue
  split
  · exact h
  · exact h.push rfl (by simp)

theorem DrainsAtEntry.act {f : Finding} {b' : Build} (h : DrainsAtEntry b) (hact : Act f b b') :
    DrainsAtEntry b' := by
  cases hact with
  | edge => exact h.push rfl (by simp)
  | queue => exact h.enqueue _
  | release => exact h.push rfl (by simp)
  | dispatch =>
    have hedge : ∀ callee, DrainsAtEntry (b.addEdge .internalDispatch callee) :=
      fun _ => h.push rfl (by simp)
    exact (hedge _).enqueue _
  | _ => exact h

theorem current_takeAll (b : Build) (fs : List Finding) : (b.takeAll fs).current = b.current := by
  have hmoved : ((b.moveTo b.current).takeAll fs).current = b.current := by
    rw [takeAll_moveTo]
    rfl
  exact hmoved

theorem current_finishQueue (hok : (b.finishQueue r).error = none) :
    (b.finishQueue r).current = .entry := by
  have hdrain : ∀ b : Build, (b.drain r).error = none → (b.drain r).current = .entry := by
    intro b
    fun_induction drain r b with
    | case1 b herror =>
      intro hok
      simp [hok] at herror
    | case2 b _ _ => exact fun _ => rfl
    | case3 b _ id rest _ e _ =>
      intro hok
      cases hok
    | case4 b _ id rest _ c _ ih => exact ih
  unfold finishQueue at hok ⊢
  split at hok
  next herror => simp [hok] at herror
  next herror =>
    rw [if_neg herror]
    exact hdrain _ hok

/-! ### A run -/

/-- What holds in every state of a run. -/
structure Checked (r : Resolver) (b : Build) : Prop where
  sourced : Sourced b
  drains : DrainsAtEntry b
  stage : b.error = none → ∃ fs read, Stage r (fun _ => True) b fs read

namespace Checked

theorem begin_ (phase : Phase) (c : Contract) : Checked r (begin phase c) where
  sourced := by
    refine ⟨fun before caller callee after hsplit => ?_, by simp [begin]⟩
    cases before with
    | nil => cases hsplit
    | cons entry before => simp [begin] at hsplit
  drains := by simp [DrainsAtEntry, begin]
  stage := fun _ => ⟨[], [], .begin_ phase c⟩

theorem moveTo (h : Checked r b) (n : Node) : Checked r (b.moveTo n) where
  sourced := ⟨h.sourced.journal, h.sourced.queued⟩
  drains := h.drains
  stage := by
    intro hok
    obtain ⟨fs, read, hstage⟩ := h.stage hok
    exact ⟨fs, read, hstage.of_eq rfl rfl rfl rfl⟩

theorem note (h : Checked r b) (entry : Entry)
    (hedge : ∀ caller callee, entry ≠ .edge caller callee)
    (hdrain : ∀ n, entry = .drain n → n = .entry) : Checked r (b.note entry) where
  sourced := h.sourced.note hedge
  drains := h.drains.push rfl hdrain
  stage := by
    intro hok
    obtain ⟨fs, read, hstage⟩ := h.stage hok
    exact ⟨fs, read, hstage.noted entry⟩

/-- Findings that come in order are taken in between two readings of the queue. -/
theorem takeAll {gs : List Finding} (h : Checked r b)
    (hanchored : AnchoredAt (· = Node.entryKey) gs)
    (hcallers : ∀ g ∈ gs, g.FromCallables r.tree) : Checked r (b.takeAll gs) := by
  by_cases hok : b.error = none
  · obtain ⟨fs, read, hstage⟩ := h.stage hok
    refine ⟨h.sourced.takeAll hstage.records (hstage.anchored.append_self hanchored) hcallers,
      takeAll_keeps (fun _ _ _ _ hact hb => hb.act hact) h.drains, fun hok' => ?_⟩
    have htaken := hstage.takeAll _ gs hok' hanchored (fun k hk => .inl hk) fun _ _ => trivial
    exact ⟨_, read, htaken⟩
  · rw [takeAll_of_error hok]
    exact h

/-- **One callable is read**, whether its code ends the build or not. -/
theorem read (hfits : r.Fits) (h : Checked r b) (hok : b.error = none) {id : DeclId}
    {rest : List DeclId} (hq : b.queue = id :: rest) :
    Checked r ((b.start id rest).takeAll (r.code id)) := by
  have hsourced : Sourced ({ b with queue := rest }.moveTo (.callable id)) :=
    ⟨h.sourced.journal, h.sourced.queued⟩
  have hstart : Sourced (b.start id rest) := hsourced.note (by simp)
  have hdrains : DrainsAtEntry (b.start id rest) := h.drains.push rfl (by simp)
  obtain ⟨fs, read, hstage⟩ := h.stage hok
  refine ⟨?_, takeAll_keeps (fun _ _ _ _ hact hb => hb.act hact) hdrains, fun hok' => ?_⟩
  · cases hc : r.tree.requireCallable id with
    | error e =>
      rw [takeAll_code_of_error hok hc]
      exact ⟨hstart.journal, hstart.queued⟩
    | ok c =>
      obtain ⟨_, hanchored⟩ := hstage.anchored_next hq (Tree.require_eq_ok.1 hc)
      have hrecords : Records (b.start id rest) fs := hstage.records.of_eq rfl rfl rfl
      exact hstart.takeAll hrecords hanchored fun g hg => Resolver.fromCallables_code hfits hg
  · exact ⟨_, _, hstage.read_next (fun _ _ _ _ => trivial) hq hok'⟩

theorem finishQueue (hfits : r.Fits) (h : Checked r b)
    (hcurrent : b.error = none → b.current = .entry) : Checked r (b.finishQueue r) := by
  unfold Build.finishQueue
  split
  · exact h
  next herror =>
    have hnoted : Checked r (b.note (.drain b.current)) := by
      refine h.note _ (by simp) fun n hn => ?_
      cases hn
      exact hcurrent (Option.not_isSome_iff_eq_none.1 herror)
    exact drain_keeps (fun b id rest hok hq hb => hb.read hfits hok hq)
      (fun b hb => hb.moveTo .entry) hnoted

end Checked

theorem checked_creation (hfits : r.Fits) : Checked r (creation r) := by
  rw [creation_eq]
  have hseeds : Checked r ((begin .creation r.contract).takeAll r.creationSeeds) :=
    (Checked.begin_ _ _).takeAll Resolver.anchoredAt_creationSeeds fun g hg =>
      Resolver.fromCallables_creationSeeds hfits hg
  exact (hseeds.moveTo .entry).finishQueue hfits fun _ => rfl

theorem checked_deployment (hfits : r.Fits) (pointers : IdSet) (config : Config) :
    Checked r (deployment r pointers config) := by
  have hseeds : Checked r ((begin .deployment r.contract).takeAll (entrySites r)) :=
    (Checked.begin_ _ _).takeAll (Resolver.anchoredAt_entrySites _) fun g hg =>
      Resolver.fromCallables_entrySites hg
  have huncarried : Checked r (uncarried r) :=
    hseeds.finishQueue hfits fun _ => current_takeAll _ _
  rw [deployment_eq]
  split
  next hcarries =>
    obtain ⟨hok, _⟩ := carries_iff.1 hcarries
    have hnoted := huncarried.note (.carry pointers.size r.contract.name) (by simp) (by simp)
    have hsites : ∀ g ∈ pointers.toList.map carriedSite, g.FromCallables r.tree := by
      intro g hg
      obtain ⟨id, _, rfl⟩ := List.mem_map.1 hg
      exact Resolver.fromCallables_carriedSite id
    refine (hnoted.takeAll (anchoredAt_carriedSites pointers) hsites).finishQueue hfits fun _ => ?_
    rw [current_takeAll]
    exact current_finishQueue hok
  · exact huncarried

end Build

end ContractCalls
