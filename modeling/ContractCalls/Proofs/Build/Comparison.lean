import ContractCalls.Proofs.Build.Failure
import ContractCalls.Proofs.Build.Title

/-!
# Builds compared

A graph is determined by what its build finds, so builds are compared by their findings.

* More code, and more pointers that are carried, lead to more findings (`Found.mono`).
* More findings make a graph that tells more (`Tells.within`), and the same findings make the same
  graph (`Tells.ext`).
* A pointer that a build takes anyway may be carried as well: this adds nothing
  (`Tells.of_found_pointers`).
-/

namespace ContractCalls

open Finding

namespace Finding

theorem Dispatches.mono {found found' : Finding → Prop} (hsub : ∀ f, found f → found' f)
    {id : DeclId} (h : Dispatches found id) : Dispatches found' id := by
  obtain ⟨⟨i, hi, hind⟩, ⟨p, hp, hpointer⟩⟩ := h
  exact ⟨⟨i, hsub i hi, hind⟩, ⟨p, hsub p hp, hpointer⟩⟩

end Finding

namespace CallGraph

/-- All that the first graph tells, the second one tells too. -/
structure Within (g g' : CallGraph) : Prop where
  edges : ∀ n m, g.hasEdge n m = true → g'.hasEdge n m = true
  keys : ∀ k, k ∈ g.edges → k ∈ g'.edges
  emitted : ∀ id, id ∈ g.emitted → id ∈ g'.emitted
  created : ∀ id, id ∈ g.created → id ∈ g'.created
  pointers : ∀ id, id ∈ g.pointers → id ∈ g'.pointers

variable {g g' : CallGraph} {found found' : Finding → Prop}

theorem Tells.edges_mono (h : g.Tells found) (h' : g'.Tells found')
    (hsub : ∀ f, found f → found' f) {k : DeclId} (hk : k ∈ g.edges) : k ∈ g'.edges := by
  rw [h'.keys]
  rcases (h.keys k).1 hk with ⟨a, b, ⟨f, hf, hedge⟩, hkey⟩ | ⟨f, hf, htarget⟩ | hid | ⟨hk, id, hid⟩
  · exact .inl ⟨a, b, ⟨f, hsub f hf, hedge⟩, hkey⟩
  · exact .inr (.inl ⟨f, hsub f hf, htarget⟩)
  · exact .inr (.inr (.inl (hid.mono hsub)))
  · exact .inr (.inr (.inr ⟨hk, id, hid.mono hsub⟩))

theorem Tells.targets_mono (h : g.Tells found) (h' : g'.Tells found')
    (hsub : ∀ f, found f → found' f) {k callee : DeclId} (hcallee : callee ∈ g.targets k) :
    callee ∈ g'.targets k := by
  rw [h'.targets]
  rcases (h.targets k callee).1 hcallee with ⟨a, b, ⟨f, hf, hedge⟩, hkeys⟩ | ⟨hk, hid⟩
  · exact .inl ⟨a, b, ⟨f, hsub f hf, hedge⟩, hkeys⟩
  · exact .inr ⟨hk, hid.mono hsub⟩

/-- **More findings make a graph that tells more.** -/
theorem Tells.within (h : g.Tells found) (h' : g'.Tells found')
    (hsub : ∀ f, found f → found' f) : g.Within g' where
  edges := by
    intro n m hedge
    simp only [hasEdge, Std.ExtTreeSet.contains_iff_mem] at hedge ⊢
    exact h.targets_mono h' hsub hedge
  keys := fun _ hk => h.edges_mono h' hsub hk
  emitted := by
    intro id hid
    rw [h'.emitted]
    exact hsub _ ((h.emitted id).1 hid)
  created := by
    intro id hid
    rw [h'.created]
    exact hsub _ ((h.created id).1 hid)
  pointers := by
    intro id hid
    obtain ⟨f, hf, hpointer⟩ := (h.pointers id).1 hid
    rw [h'.pointers]
    exact ⟨f, hsub f hf, hpointer⟩

theorem Tells.ext (h : g.Tells found) (h' : g'.Tells found) (htitle : g.title = g'.title) :
    g = g' := by
  have htargets : ∀ k, g.targets k = g'.targets k := by
    intro k
    refine Std.ExtTreeSet.ext_mem fun callee => ?_
    rw [h.targets, h'.targets]
  have hedges : g.edges = g'.edges := by
    refine Std.ExtTreeMap.ext_getElem? fun k => ?_
    have hmem : k ∈ g.edges ↔ k ∈ g'.edges := by
      rw [h.keys, h'.keys]
    have hk := htargets k
    rw [Std.ExtTreeMap.mem_iff_isSome_getElem?, Std.ExtTreeMap.mem_iff_isSome_getElem?] at hmem
    unfold CallGraph.targets at hk
    cases hg : g.edges[k]? <;> cases hg' : g'.edges[k]? <;> simp_all
  have hpointers : g.pointers = g'.pointers := by
    refine Std.ExtTreeSet.ext_mem fun id => ?_
    rw [h.pointers, h'.pointers]
  have hemitted : g.emitted = g'.emitted := by
    refine Std.ExtTreeSet.ext_mem fun id => ?_
    rw [h.emitted, h'.emitted]
  have hcreated : g.created = g'.created := by
    refine Std.ExtTreeSet.ext_mem fun id => ?_
    rw [h.created, h'.created]
  cases g
  cases g'
  simp_all [title]

end CallGraph

namespace Resolver

variable {r : Resolver} {seeds : List Finding} {carried carried' : DeclId → Prop} {f : Finding}

/-- **More code, and more pointers, lead to more findings.**  Pointers count only if a pointer is
called. -/
theorem Found.mono {r' : Resolver} (hcode : ∀ id, r.code id ⊆ r'.code id)
    (hcarried : HasIndirect (r.Found seeds carried) → ∀ id, carried id → carried' id)
    (h : r.Found seeds carried f) : r'.Found seeds carried' f := by
  induction h with
  | seed hf => exact .seed hf
  | called _ htarget hf ih => exact .called ih htarget (hcode _ hf)
  | dispatched _ hind _ hpointer hf ihi ihg =>
    exact .dispatched ihi hind ihg hpointer (hcode _ hf)
  | carried hi hind hid ih => exact .carried ih hind (hcarried ⟨_, hi, hind⟩ _ hid)

/-- Of pointers that are found anyway, carrying leaves no other trace than that they are
carried. -/
theorem Found.of_found_pointers
    (hfound : ∀ id, carried' id → HasPointer (r.Found seeds carried) id)
    (h : r.Found seeds carried' f) :
    r.Found seeds carried f ∨ ∃ id, carried' id ∧ f = Build.carriedSite id := by
  induction h with
  | seed hf => exact .inl (.seed hf)
  | called _ htarget hf ih =>
    rcases ih with hg | ⟨_, _, rfl⟩
    · exact .inl (.called hg htarget hf)
    · cases htarget
  | dispatched _ hind _ hpointer hf ihi ihg =>
    rcases ihi with hi | ⟨_, _, rfl⟩
    · rcases ihg with hg | ⟨k, hk, rfl⟩
      · exact .inl (.dispatched hi hind hg hpointer hf)
      · -- The pointer was found without being carried.
        obtain ⟨g, hg, hpointer'⟩ := hfound k hk
        cases hpointer
        exact .inl (.dispatched hi hind hg hpointer' hf)
    · cases hind
  | carried _ _ hid _ => exact .inr ⟨_, hid, rfl⟩

end Resolver

/-- **Carrying pointers that are found anyway** makes the same graph. -/
theorem CallGraph.Tells.of_found_pointers {g : CallGraph} {r : Resolver} {seeds : List Finding}
    {carried carried' : DeclId → Prop} (h : g.Tells (r.Found seeds carried'))
    (hsub : ∀ f, r.Found seeds carried f → r.Found seeds carried' f)
    (hfound : ∀ id, carried' id → HasPointer (r.Found seeds carried) id) :
    g.Tells (r.Found seeds carried) := by
  have hsame : ∀ f, (∀ id, f ≠ Build.carriedSite id) →
      (r.Found seeds carried f ↔ r.Found seeds carried' f) := by
    intro f hf
    refine ⟨hsub f, fun hf' => ?_⟩
    rcases hf'.of_found_pointers hfound with hf' | ⟨id, _, rfl⟩
    · exact hf'
    · exact absurd rfl (hf id)
  refine h.congr (fun a b => ?_) (fun id => ?_) (fun id => ?_) ?_ rfl rfl (fun id => ?_) fun id => ?_
  · refine exists_congr fun f => and_congr_left fun hedge => hsame f ?_
    rintro id rfl
    cases hedge
  · refine exists_congr fun f => and_congr_left fun htarget => hsame f ?_
    rintro id rfl
    cases htarget
  · constructor
    · intro hex
      obtain ⟨f, hf, hpointer⟩ := hex
      exact ⟨f, hsub f hf, hpointer⟩
    · intro hex
      obtain ⟨f, hf, hpointer⟩ := hex
      rcases hf.of_found_pointers hfound with hf | ⟨id, hid, rfl⟩
      · exact ⟨f, hf, hpointer⟩
      · cases hpointer
        exact hfound id hid
  · refine exists_congr fun f => and_congr_left fun hind => hsame f ?_
    rintro id rfl
    cases hind
  · rw [h.emitted, hsame _ (by simp [Build.carriedSite])]
  · rw [h.created, hsame _ (by simp [Build.carriedSite])]

/-- Two builds that find the same, and fail if an error is among it, come out alike. -/
theorem Build.alike_of_found {b b' : Build} {found : Finding → Prop}
    (hfails : b.error ≠ none ↔ ∃ e, found (.error e))
    (hfails' : b'.error ≠ none ↔ ∃ e, found (.error e))
    (htells : b.error = none → b.graph.Tells found)
    (htells' : b'.error = none → b'.graph.Tells found)
    (htitle : b'.graph.title = b.graph.title) (hok : b.error = none) :
    b'.error = none ∧ b'.graph = b.graph := by
  have hok' : b'.error = none := by
    by_contra hne
    exact hfails.2 (hfails'.1 hne) hok
  exact ⟨hok', (htells' hok').ext (htells hok) htitle⟩

end ContractCalls
