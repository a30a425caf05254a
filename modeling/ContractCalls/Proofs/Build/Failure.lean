import ContractCalls.Proofs.Build.Justified

/-!
# Builds that fail

A build ends at the first error that it comes upon, and which one this is depends on the order in
which callables are read.  Whether there is one does not: a build fails exactly if an error is
among the findings that it cannot avoid (`creation_fails_iff`, `deployment_fails_iff`).

In one direction, the error of a build has a reason in what was found (`justified_creation`,
`justified_deployment`).  In the other, a finished build has taken in everything that is found, and
no error can be among it (`Finished.not_found_error`).
-/

namespace ContractCalls

open Finding

namespace Resolver

variable {r : Resolver} {seeds : List Finding} {carried : DeclId → Prop}

/-- Whatever is queued is a callable of the tree, or a pointer that is carried. -/
theorem Found.callable_or_carried (hstarts : r.Starts seeds) {id : DeclId}
    (hid : Queued (r.Found seeds carried) id) :
    (r.tree.callable? id).isSome = true ∨ carried id := by
  have hfound : ∀ f, r.Found seeds carried f → f.target? = some id ∨ f.pointer? = some id →
      (r.tree.callable? id).isSome = true ∨ carried id := by
    intro f hf hleads
    rcases hf.resolved hstarts with hresolved | ⟨id', hid', rfl⟩
    · exact .inl (hresolved id hleads)
    · rcases hleads with htarget | hpointer
      · cases htarget
      · cases hpointer
        exact .inr hid'
  rcases hid with ⟨f, hf, htarget⟩ | ⟨_, f, hf, hpointer⟩
  · exact hfound f hf (.inl htarget)
  · exact hfound f hf (.inr hpointer)

theorem Found.plain_of_queued (hstarts : r.Starts seeds) (hplain : ∀ id, carried id → id.Plain)
    {id : DeclId} (hid : Queued (r.Found seeds carried) id) : id.Plain :=
  (callable_or_carried hstarts hid).elim Tree.plain_of_callable? (hplain id)

end Resolver

namespace Build

variable {r : Resolver} {b : Build} {seeds : List Finding} {carried : DeclId → Prop}

theorem Finished.not_found_error (h : Finished r seeds carried b) (hstarts : r.Starts seeds)
    (hplain : ∀ id, carried id → id.Plain) (e : Failure) : ¬ r.Found seeds carried (.error e) := by
  have hcode : ∀ id, Queued (r.Found seeds carried) id → .error e ∉ r.code id := by
    intro id hid
    have hplain' := Resolver.Found.plain_of_queued hstarts hplain hid
    exact h.sound_code (h.mem_callables.2 ⟨hid, hplain'⟩) e
  intro hfound
  cases hfound with
  | seed he =>
    obtain ⟨fs, read, hstage, _, hseeds, _⟩ := h
    exact hstage.records.sound e (hseeds he)
  | called hg htarget he => exact hcode _ (.inl ⟨_, hg, htarget⟩) he
  | dispatched hi hind hg hpointer he =>
    exact hcode _ (.inr ⟨⟨_, hi, hind⟩, ⟨_, hg, hpointer⟩⟩) he

/-- **The build of a creation graph fails** exactly if an error is found. -/
theorem creation_fails_iff (hfits : r.Fits) : (creation r).error ≠ none ↔
    ∃ e, r.Found r.creationSeeds (fun _ => False) (.error e) := by
  constructor
  · intro hne
    obtain ⟨e, he⟩ := Option.ne_none_iff_exists'.1 hne
    exact ⟨e, (justified_creation r).error e he⟩
  · intro hex hok
    obtain ⟨e, he⟩ := hex
    have hfinished := finished_creation hok
    exact hfinished.not_found_error (Resolver.starts_creationSeeds hfits) (fun _ h => h.elim) e he

/-- A build of a deployment graph that fails has found an error. -/
theorem exists_error_of_deployment (hfits : r.Fits) {pointers : IdSet} {config : Config}
    (hne : (deployment r pointers config).error ≠ none) :
    ∃ e, r.Found (entrySites r) (Carried pointers config) (.error e) := by
  obtain ⟨e, he⟩ := Option.ne_none_iff_exists'.1 hne
  exact ⟨e, (justified_deployment hfits pointers config).error e he⟩

/-- **The build of a deployment graph fails** exactly if an error is found. -/
theorem deployment_fails_iff (hfits : r.Fits) {pointers : IdSet} {config : Config}
    (hplain : ∀ id ∈ pointers, id.Plain) : (deployment r pointers config).error ≠ none ↔
      ∃ e, r.Found (entrySites r) (Carried pointers config) (.error e) := by
  refine ⟨exists_error_of_deployment hfits, ?_⟩
  rintro ⟨e, he⟩ hok
  have hfinished := finished_deployment hfits hok
  exact hfinished.not_found_error (Resolver.starts_entrySites hfits)
    (fun id hid => hplain id hid.2) e he

end Build

end ContractCalls
