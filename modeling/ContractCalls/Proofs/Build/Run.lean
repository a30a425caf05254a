import ContractCalls.Proofs.Build.Journal
import ContractCalls.Proofs.Build.Sites

/-!
# Runs of a build

What a build has done when its queue is empty.  `Resolver.Found` are the findings that a build
cannot avoid: those of its seeds, of the code of each callable that they lead to, and so on.
A build that succeeds has taken in these and no others, in an order in which every caller is
known before; so its graph is the one that they make (`Finished.tells`).

`Stage` is the invariant: it holds when a build begins, when it takes in findings that come in
order (`Stage.takeAll`), and when it reads the callables in its queue (`Stage.drain`).
-/

namespace ContractCalls

open Finding

namespace Resolver

/-- The findings that a build comes upon.  Pointers that are `carried` count as taken once a
pointer is called. -/
inductive Found (r : Resolver) (seeds : List Finding) (carried : DeclId → Prop) :
    Finding → Prop where
  | seed {f : Finding} : f ∈ seeds → Found r seeds carried f
  | called {g f : Finding} {id : DeclId} : Found r seeds carried g → g.target? = some id →
      f ∈ r.code id → Found r seeds carried f
  | dispatched {i g f : Finding} {id : DeclId} : Found r seeds carried i → i.isIndirect = true →
      Found r seeds carried g → g.pointer? = some id → f ∈ r.code id → Found r seeds carried f
  | carried {i : Finding} {id : DeclId} : Found r seeds carried i → i.isIndirect = true →
      carried id → Found r seeds carried (Build.carriedSite id)

variable {r : Resolver} {seeds : List Finding} {carried : DeclId → Prop}

theorem Found.of_queued {id : DeclId} (hid : Queued (r.Found seeds carried) id) {f : Finding}
    (hf : f ∈ r.code id) : r.Found seeds carried f := by
  rcases hid with ⟨g, hg, htarget⟩ | ⟨⟨i, hi, hind⟩, ⟨g, hg, hpointer⟩⟩
  · exact .called hg htarget hf
  · exact .dispatched hi hind hg hpointer hf

/-- What is found is among the findings of a list that has the seeds and the carried pointers,
and all code that it leads to.  An id that no declaration can have leads to an error only. -/
theorem Found.mem {fs : List Finding} (hseeds : seeds ⊆ fs)
    (hcode : ∀ id, Queued (· ∈ fs) id → id.Plain → ∀ f ∈ r.code id, f ∈ fs)
    (hcarried : HasIndirect (· ∈ fs) → ∀ id, carried id → Build.carriedSite id ∈ fs) {f : Finding}
    (h : r.Found seeds carried f) (herror : ∀ e, f ≠ .error e) : f ∈ fs := by
  have hqueued : ∀ id f, Queued (· ∈ fs) id → f ∈ r.code id → (∀ e, f ≠ .error e) → f ∈ fs := by
    intro id f hid hf herror
    by_cases hplain : id.Plain
    · exact hcode id hid hplain f hf
    · obtain ⟨e, rfl⟩ := eq_error_of_mem_code hplain hf
      exact absurd rfl (herror e)
  induction h with
  | seed hf => exact hseeds hf
  | @called g f id _ htarget hf ih =>
    have hg : ∀ e, g ≠ .error e := by
      rintro e rfl
      cases htarget
    exact hqueued id f (.inl ⟨g, ih hg, htarget⟩) hf herror
  | @dispatched i g f id _ hind _ hpointer hf ihi ihg =>
    have hi : ∀ e, i ≠ .error e := by
      rintro e rfl
      cases hind
    have hg : ∀ e, g ≠ .error e := by
      rintro e rfl
      cases hpointer
    exact hqueued id f (.inr ⟨⟨i, ihi hi, hind⟩, ⟨g, ihg hg, hpointer⟩⟩) hf herror
  | @carried i id _ hind hid ih =>
    have hi : ∀ e, i ≠ .error e := by
      rintro e rfl
      cases hind
    exact hcarried ⟨i, ih hi, hind⟩ id hid

theorem Found.origin {f : Finding} (h : r.Found seeds carried f) (herror : ∀ e, f ≠ .error e) :
    f ∈ seeds ∨ (∃ id, Queued (r.Found seeds carried) id ∧ id.Plain ∧ f ∈ r.code id) ∨
      ∃ id, HasIndirect (r.Found seeds carried) ∧ carried id ∧ f = Build.carriedSite id := by
  have hplain : ∀ id, f ∈ r.code id → id.Plain := by
    intro id hf
    by_contra hplain
    obtain ⟨e, rfl⟩ := eq_error_of_mem_code hplain hf
    exact herror e rfl
  cases h with
  | seed hf => exact .inl hf
  | called hg htarget hf => exact .inr (.inl ⟨_, .inl ⟨_, hg, htarget⟩, hplain _ hf, hf⟩)
  | dispatched hi hind hg hpointer hf =>
    exact .inr (.inl ⟨_, .inr ⟨⟨_, hi, hind⟩, ⟨_, hg, hpointer⟩⟩, hplain _ hf, hf⟩)
  | carried hi hind hid => exact .inr (.inr ⟨_, ⟨_, hi, hind⟩, hid, rfl⟩)

theorem regular_carriedSite (id : DeclId) : (Build.carriedSite id).Regular :=
  regular_reference _ _

/-- The seeds of a build are like the findings of code. -/
structure Starts (r : Resolver) (seeds : List Finding) : Prop where
  fits : r.Fits
  regular : ∀ f ∈ seeds, f.Regular
  resolved : ∀ f ∈ seeds, f.Resolved r.tree

theorem starts_creationSeeds (hfits : r.Fits) : r.Starts r.creationSeeds :=
  ⟨hfits, fun _ => regular_creationSeeds, fun _ => resolved_creationSeeds hfits⟩

theorem starts_entrySites (hfits : r.Fits) : r.Starts (Build.entrySites r) := by
  refine ⟨hfits, fun f hf => ?_, fun f hf => ?_⟩
  · obtain ⟨k, _, rfl⟩ := List.mem_map.1 hf
    exact regular_entrySite k
  · obtain ⟨k, hk, rfl⟩ := List.mem_map.1 hf
    exact resolved_entrySite (hfits.function?_of_mem_entryPoints hk)

theorem Found.regular (hstarts : r.Starts seeds) {f : Finding} (h : r.Found seeds carried f) :
    f.Regular := by
  cases h with
  | seed hf => exact hstarts.regular f hf
  | called _ _ hf => exact regular_code _ hf
  | dispatched _ _ _ _ hf => exact regular_code _ hf
  | carried => exact regular_carriedSite _

theorem Found.resolved (hstarts : r.Starts seeds) {f : Finding} (h : r.Found seeds carried f) :
    f.Resolved r.tree ∨ ∃ id, carried id ∧ f = Build.carriedSite id := by
  cases h with
  | seed hf => exact .inl (hstarts.resolved f hf)
  | called _ _ hf => exact .inl (resolved_code hstarts.fits _ hf)
  | dispatched _ _ _ _ hf => exact .inl (resolved_code hstarts.fits _ hf)
  | carried _ _ hid => exact .inr ⟨_, hid, rfl⟩

theorem Found.plain_target (hstarts : r.Starts seeds) {f : Finding} (h : r.Found seeds carried f)
    {id : DeclId} (hid : f.target? = some id) : id.Plain := by
  rcases h.resolved hstarts with hf | ⟨id', _, rfl⟩
  · exact Tree.plain_of_callable? (hf id (.inl hid))
  · cases hid

end Resolver

namespace Build

variable {r : Resolver} {b : Build}

/-! ### Reading the queue -/

theorem drain_of_error (h : b.error ≠ none) : b.drain r = b := by
  rw [drain, if_pos (Option.isSome_iff_ne_none.2 h)]

theorem drain_nil (h : b.error = none) (hq : b.queue = []) : b.drain r = b.moveTo .entry := by
  rw [drain, if_neg (by simp [h])]
  split
  · rfl
  next hcons =>
    rw [hq] at hcons
    cases hcons

/-- What is no callable ends the build. -/
theorem takeAll_code_of_error {id : DeclId} {rest : List DeclId} {e : Error} (h : b.error = none)
    (hc : r.tree.requireCallable id = .error e) :
    (b.start id rest).takeAll (r.code id) = (b.start id rest).fail e := by
  have hstart : (b.start id rest).error = none := h
  rw [Resolver.code, hc]
  simp [takeAll, take, hstart, apply]

theorem drain_cons {id : DeclId} {rest : List DeclId} (h : b.error = none)
    (hq : b.queue = id :: rest) :
    b.drain r = ((b.start id rest).takeAll (r.code id)).drain r := by
  rw [drain, if_neg (by simp [h])]
  split
  next hnil =>
    rw [hq] at hnil
    cases hnil
  next id' rest' hcons =>
    rw [hq] at hcons
    cases hcons
    split
    next e he => rw [takeAll_code_of_error h he, drain_of_error (by simp [fail])]
    next c hc => rw [Resolver.code, hc, readCode, start, note, moveTo]

/-- What is kept when a callable is read is kept when the whole queue is. -/
theorem drain_keeps {p : Build → Prop}
    (hread : ∀ (b : Build) id rest, b.error = none → b.queue = id :: rest → p b →
      p ((b.start id rest).takeAll (r.code id)))
    (hmove : ∀ b : Build, p b → p (b.moveTo .entry)) (h : p b) : p (b.drain r) := by
  fun_induction drain r b with
  | case1 b _ => exact h
  | case2 b _ _ => exact hmove b h
  | case3 b herror id rest hq e hc =>
    have herror : b.error = none := Option.not_isSome_iff_eq_none.1 herror
    rw [← takeAll_code_of_error herror hc]
    exact hread b id rest herror hq h
  | case4 b herror id rest hq c hc ih =>
    have hnext := hread b id rest (Option.not_isSome_iff_eq_none.1 herror) hq h
    rw [Resolver.code, hc] at hnext
    exact ih hnext

theorem error_of_drain (h : (b.drain r).error = none) : b.error = none := by
  by_contra hne
  rw [drain_of_error hne] at h
  exact hne h

theorem pending_read_lt {t : Tree} {id : DeclId} {rest : List DeclId} (hq : b.queue = id :: rest)
    (fs : List Finding) (hid : t.declares id = true) :
    ((b.start id rest).takeAll fs).pending t < b.pending t := by
  refine Nat.lt_of_le_of_lt (pending_takeAll_le t _ fs) ?_
  simp [pending, start, moveTo, note, hq, hid]

/-- The queue is read alike when all code tells the same. -/
theorem drain_congr {r' : Resolver} (h : ∀ id, r'.code id = r.code id) (b : Build) :
    b.drain r' = b.drain r := by
  induction hn : b.pending r.tree using Nat.strongRecOn generalizing b with
  | _ n ih =>
    by_cases hok : b.error = none
    · cases hq : b.queue with
      | nil => rw [drain_nil hok hq, drain_nil hok hq]
      | cons id rest =>
        rw [drain_cons hok hq, drain_cons hok hq, h]
        cases hc : r.tree.requireCallable id with
        | error e =>
          have hfailed : ((b.start id rest).takeAll (r.code id)).error ≠ none := by
            rw [takeAll_code_of_error hok hc]
            simp [fail]
          rw [drain_of_error hfailed, drain_of_error hfailed]
        | ok c =>
          have hlt := pending_read_lt hq (r.code id) (Tree.declares_of_require hc)
          exact ih _ (hn ▸ hlt) _ rfl
    · rw [drain_of_error hok, drain_of_error hok]

theorem finishQueue_congr {r' : Resolver} (h : ∀ id, r'.code id = r.code id) (b : Build) :
    b.finishQueue r' = b.finishQueue r := by
  rw [finishQueue, finishQueue, drain_congr h]

/-! ### The node whose code is being read -/

theorem enqueue_moveTo (b : Build) (n : Node) (id : DeclId) :
    (b.moveTo n).enqueue id = (b.enqueue id).moveTo n := by
  unfold enqueue
  by_cases h : b.graph.edges.contains id
  · rw [if_pos h, if_pos (show (b.moveTo n).graph.edges.contains id = true from h)]
  · rw [if_neg h, if_neg (show ¬ (b.moveTo n).graph.edges.contains id = true from h)]
    rfl

theorem dispatchTo_moveTo (b : Build) (n : Node) (id : DeclId) :
    (b.moveTo n).dispatchTo id = (b.dispatchTo id).moveTo n :=
  enqueue_moveTo (b.addEdge .internalDispatch (.callable id)) n id

theorem dispatchAll_moveTo (b : Build) (n : Node) (ids : List DeclId) :
    (b.moveTo n).dispatchAll ids = (b.dispatchAll ids).moveTo n := by
  induction ids generalizing b with
  | nil => rfl
  | cons id ids ih =>
    show ((b.moveTo n).dispatchTo id).dispatchAll ids = _
    rw [dispatchTo_moveTo, ih]
    rfl

theorem takePointer_moveTo (b : Build) (n : Node) (id : DeclId) :
    (b.moveTo n).takePointer id = (b.takePointer id).moveTo n := by
  unfold takePointer
  cases h : b.dispatching with
  | true =>
    rw [if_pos (show (b.moveTo n).dispatching = true from h), if_pos rfl]
    exact dispatchTo_moveTo (b.addPointer id) n id
  | false =>
    rw [if_neg (by simp [moveTo, h]), if_neg (by simp)]
    rfl

theorem release_moveTo (b : Build) (n : Node) : (b.moveTo n).release = b.release.moveTo n := by
  unfold release
  exact dispatchAll_moveTo (note { b with dispatching := true } _) n _

theorem link_moveTo (b : Build) (n : Node) (s : CallSite) :
    (b.moveTo n).link s = (b.link s).moveTo n := by
  have hedge : (b.moveTo n).addEdge? s.edge? = (b.addEdge? s.edge?).moveTo n := by
    cases s.edge? with
    | none => rfl
    | some e => rfl
  have hqueue : ∀ b : Build, (b.moveTo n).enqueue? s.target.callable? =
      (b.enqueue? s.target.callable?).moveTo n := by
    intro b
    cases s.target.callable? with
    | none => rfl
    | some id => exact enqueue_moveTo b n id
  simp only [link, hedge, hqueue]
  generalize (b.addEdge? s.edge?).enqueue? s.target.callable? = b'
  by_cases h : s.kind = .indirect ∧ b'.dispatching = false
  · rw [if_pos h, if_pos (show s.kind = .indirect ∧ (b'.moveTo n).dispatching = false from h)]
    exact release_moveTo b' n
  · rw [if_neg h, if_neg (show ¬ (s.kind = .indirect ∧ (b'.moveTo n).dispatching = false) from h)]

theorem record_moveTo (b : Build) (n : Node) (s : CallSite) :
    (b.moveTo n).record s = (b.record s).moveTo n := by
  obtain ⟨caller, kind, target⟩ := s
  cases kind with
  | reference =>
    unfold record
    cases target.callable? with
    | none => rfl
    | some id => exact takePointer_moveTo b n id
  | _ =>
    unfold record
    exact link_moveTo b n _

/-- Findings are taken in alike, whatever node the build has turned to. -/
theorem take_moveTo (b : Build) (n : Node) (f : Finding) :
    (b.moveTo n).take f = (b.take f).moveTo n := by
  unfold take
  by_cases h : b.error.isSome
  · rw [if_pos h, if_pos (show (b.moveTo n).error.isSome = true from h)]
  · rw [if_neg h, if_neg (show ¬ (b.moveTo n).error.isSome = true from h)]
    cases f with
    | site s => exact record_moveTo b n s
    | _ => rfl

theorem takeAll_moveTo (b : Build) (n : Node) (fs : List Finding) :
    (b.moveTo n).takeAll fs = (b.takeAll fs).moveTo n := by
  induction fs generalizing b with
  | nil => rfl
  | cons f fs ih =>
    show ((b.moveTo n).take f).takeAll fs = _
    rw [take_moveTo, ih]
    rfl

theorem takeAll_append (b : Build) (fs gs : List Finding) :
    b.takeAll (fs ++ gs) = (b.takeAll fs).takeAll gs :=
  List.foldl_append

theorem construct_eq (b : Build) (c : Contract) :
    construct r b c = (b.takeAll (r.ofConstruction c)).moveTo (r.argumentNode c) := by
  have henter : ∀ b : Build, (b.moveTo .entry).enterConstructor (r.constructor? c) =
      (b.takeAll ((r.constructor? c).toList.map entrySite)).moveTo (r.argumentNode c) := by
    intro b
    unfold Resolver.argumentNode
    cases r.constructor? c with
    | none => rfl
    | some f =>
      show ((b.moveTo .entry).take (entrySite f)).moveTo _ = _
      rw [take_moveTo]
      rfl
  unfold construct readCode Resolver.ofConstruction
  simp only [takeAll_moveTo, henter, takeAll_append]
  rfl

theorem foldl_construct (b : Build) (cs : List Contract) (n : Node) :
    (cs.foldl (construct r) b).moveTo n = (b.takeAll (cs.flatMap r.ofConstruction)).moveTo n := by
  induction cs generalizing b with
  | nil => rfl
  | cons c cs ih =>
    rw [List.foldl_cons, ih, construct_eq, takeAll_moveTo, List.flatMap_cons, takeAll_append]
    rfl

theorem creation_eq (r : Resolver) : creation r =
    (((begin .creation r.contract).takeAll r.creationSeeds).moveTo .entry).finishQueue r := by
  unfold creation
  simp only [foldl_construct]
  rfl

/-! ### The invariant -/

/-- The build has taken in `fs`, in order and all of it `found`, and among it the code of the
callables in `read`. -/
structure Stage (r : Resolver) (found : Finding → Prop) (b : Build) (fs : List Finding)
    (read : List DeclId) : Prop where
  records : Records b fs
  reading : Reading b read
  anchored : AnchoredAt (· = Node.entryKey) fs
  covered : ∀ id ∈ read, ∀ f ∈ r.code id, f ∈ fs
  sound : ∀ f ∈ fs, found f

namespace Stage

variable {found : Finding → Prop} {fs : List Finding} {read : List DeclId}

theorem begin_ (phase : Phase) (c : Contract) : Stage r found (begin phase c) [] [] where
  records := Records.empty phase c
  reading := ⟨by simp [begin], by simp [begin], by simp [begin]⟩
  anchored := .nil
  covered := by simp
  sound := by simp

theorem of_eq {b' : Build} (h : Stage r found b fs read) (hgraph : b'.graph = b.graph)
    (hqueue : b'.queue = b.queue) (hdispatching : b'.dispatching = b.dispatching)
    (herror : b'.error = b.error) : Stage r found b' fs read where
  records := h.records.of_eq hgraph hdispatching herror
  reading := h.reading.of_eq (congrArg CallGraph.edges hgraph) hqueue
  anchored := h.anchored
  covered := h.covered
  sound := h.sound

theorem anyhow (h : Stage r found b fs read) : Stage r (fun _ => True) b fs read :=
  ⟨h.records, h.reading, h.anchored, h.covered, fun _ _ => trivial⟩

theorem noted (h : Stage r found b fs read) (entry : Entry) :
    Stage r found (b.note entry) fs read :=
  h.of_eq rfl rfl rfl rfl

theorem takeAll (h : Stage r found b fs read) (root : DeclId → Prop) (gs : List Finding)
    (hok : (b.takeAll gs).error = none) (hanchored : AnchoredAt root gs)
    (hroot : ∀ k, root k → k = Node.entryKey ∨ Queued (· ∈ fs) k) (hsound : ∀ g ∈ gs, found g) :
    Stage r found (b.takeAll gs) (fs ++ gs) read where
  records := h.records.takeAll gs hok
  reading := h.reading.takeAll h.records gs hok (h.anchored.append hanchored hroot)
  anchored := h.anchored.append hanchored hroot
  covered := fun id hid f hf => List.mem_append_left gs (h.covered id hid f hf)
  sound := by
    intro f hf
    rcases List.mem_append.1 hf with hf | hf
    · exact h.sound f hf
    · exact hsound f hf

theorem queued_of_mem_edges (h : Stage r found b fs read) {id : DeclId} (hid : id ∈ b.graph.edges)
    (hplain : id.Plain) : Queued (· ∈ fs) id := by
  rcases (h.records.graph.keys id).1 hid with ⟨a, c, ⟨f, hf, hedge⟩, rfl⟩ | h' | h' | ⟨rfl, _⟩
  · rcases h.anchored.caller hf hedge with hroot | hqueued
    · exact absurd hroot hplain.1
    · exact hqueued
  · exact .inl h'
  · exact .inr h'
  · exact absurd rfl hplain.2

/-- The code of the next callable comes in order: the callable was queued before. -/
theorem anchored_next (h : Stage r found b fs read) {id : DeclId} {rest : List DeclId}
    (hq : b.queue = id :: rest) {c : Callable} (hc : r.tree.callable? id = some c) :
    Queued (· ∈ fs) id ∧ AnchoredAt (· = Node.entryKey) (fs ++ r.code id) := by
  have hqueued : Queued (· ∈ fs) id :=
    h.queued_of_mem_edges (h.reading.entries id (by simp [hq]))
      (Tree.plain_of_callable? (Option.isSome_of_eq_some hc))
  refine ⟨hqueued, h.anchored.append (Resolver.anchoredAt_code id) ?_⟩
  rintro k rfl
  exact .inr hqueued

/-- **One callable is read.** -/
theorem read_next (h : Stage r found b fs read)
    (hclosed : ∀ id, Queued found id → ∀ f ∈ r.code id, found f) {id : DeclId} {rest : List DeclId}
    (hq : b.queue = id :: rest) (hok : ((b.start id rest).takeAll (r.code id)).error = none) :
    Stage r found ((b.start id rest).takeAll (r.code id)) (fs ++ r.code id) (read ++ [id]) := by
  have hqueue : read ++ [id] ++ (b.start id rest).queue = read ++ b.queue := by
    rw [hq, List.append_assoc]
    rfl
  have hrecords : Records (b.start id rest) fs := h.records.of_eq rfl rfl rfl
  have hreading : Reading (b.start id rest) (read ++ [id]) := by
    refine ⟨?_, ?_, ?_⟩
    · rw [hqueue]
      exact h.reading.nodup
    · rw [hqueue]
      exact h.reading.entries
    · rw [hqueue]
      exact h.reading.known
  obtain ⟨c, hc⟩ := Resolver.exists_callable? fun e he =>
    (hrecords.takeAll _ hok).sound e (List.mem_append_right fs he)
  obtain ⟨hqueued, hanchored⟩ := h.anchored_next hq hc
  refine ⟨hrecords.takeAll _ hok, hreading.takeAll hrecords _ hok hanchored, hanchored, ?_, ?_⟩
  · intro id' hid f hf
    rcases List.mem_append.1 hid with hid | hid
    · exact List.mem_append_left _ (h.covered id' hid f hf)
    · cases List.mem_singleton.1 hid
      exact List.mem_append_right fs hf
  · intro f hf
    rcases List.mem_append.1 hf with hf | hf
    · exact h.sound f hf
    · exact hclosed id (hqueued.mono h.sound) f hf

/-- **The whole queue is read**, and the journal says in which order. -/
theorem drain_read (h : Stage r found b fs read)
    (hclosed : ∀ id, Queued found id → ∀ f ∈ r.code id, found f) (hok : (b.drain r).error = none) :
    ∃ more next, Stage r found (b.drain r) (fs ++ more) (read ++ next) ∧
      (b.drain r).queue = [] ∧ (b.drain r).journal.read = b.journal.read ++ next := by
  induction hn : b.pending r.tree using Nat.strongRecOn generalizing b fs read with
  | _ n ih =>
    cases hq : b.queue with
    | nil =>
      rw [drain_nil h.records.error hq]
      refine ⟨[], [], ?_, hq, (List.append_nil _).symm⟩
      rw [List.append_nil, List.append_nil]
      exact h.of_eq rfl rfl rfl rfl
    | cons id rest =>
      rw [drain_cons h.records.error hq] at hok ⊢
      have hread := h.read_next hclosed hq (error_of_drain hok)
      obtain ⟨c, hc⟩ := Resolver.exists_callable? fun e he =>
        hread.records.sound e (List.mem_append_right fs he)
      have hlt := pending_read_lt (t := r.tree) hq (r.code id) (Tree.declares_of_callable? hc)
      obtain ⟨more, next, hstage, hnil, hjournal⟩ := ih _ (hn ▸ hlt) hread hok rfl
      rw [List.append_assoc, List.append_assoc] at hstage
      refine ⟨r.code id ++ more, id :: next, hstage, hnil, ?_⟩
      rw [hjournal, journal_read_takeAll, journal_read_start, List.append_assoc]
      rfl

theorem drain (h : Stage r found b fs read)
    (hclosed : ∀ id, Queued found id → ∀ f ∈ r.code id, found f) (hok : (b.drain r).error = none) :
    ∃ more read', Stage r found (b.drain r) (fs ++ more) read' ∧ (b.drain r).queue = [] := by
  obtain ⟨more, next, hstage, hnil, _⟩ := h.drain_read hclosed hok
  exact ⟨more, read ++ next, hstage, hnil⟩

end Stage

end Build

end ContractCalls
