import ContractCalls.Proofs.Build.Failure
import ContractCalls.Proofs.Build.Title
import ContractCalls.Proofs.Graph.Connected

/-!
# What is handed out

A contract that has a resolver has its graphs built, and what is handed out is how the build came
out: `creationGraph_of_resolver`, `deploymentGraph_of_resolver`.  A build either fails, which is
told by what it finds, or hands out the graph that its findings make.
-/

namespace ContractCalls

namespace Build

variable {b : Build} {phase : Phase}

theorem outcome_eq_ok_iff {g : CallGraph} :
    (b.outcome phase).result = .ok g ↔ b.error = none ∧ b.graph = g := by
  refine ⟨outcome_eq_ok, ?_⟩
  rintro ⟨hok, rfl⟩
  simp [outcome, hok]

theorem error_of_outcome {e : Failure}
    (h : (b.outcome phase).result = .error e) : b.error = some e := by
  unfold outcome at h
  split at h
  next e' he =>
    cases h
    exact he
  · cases h

theorem outcome_error_iff : (∃ e, (b.outcome phase).result = .error e) ↔ b.error ≠ none := by
  cases h : b.error <;> simp [outcome, h]

end Build

namespace Tree

variable {t : Tree} {contract : DeclId} {r : Resolver} {creation g : CallGraph} {config : Config}

theorem creationGraph_of_resolver (hr : t.resolver contract = .ok r) :
    t.creationGraph contract = (Build.creation r).outcome .creation := by
  rw [creationGraph, hr]

theorem of_resolver (hr : t.resolver contract = .ok r) :
    r.tree = t ∧ t.requireContract contract = .ok r.contract ∧
      Resolver.ofContract t r.contract = .ok r := by
  unfold resolver at hr
  obtain ⟨c, hc, hof⟩ := bind_eq_ok hr
  obtain ⟨htree, rfl⟩ := Resolver.of_ofContract hof
  exact ⟨htree, hc, hof⟩

theorem deploymentGraph_of_resolver (hr : t.resolver contract = .ok r)
    (hsame : creation.contract = r.contract.id) : t.deploymentGraph contract creation config =
      (Build.deployment r creation.pointers config).outcome .deployment := by
  obtain ⟨_, hc, hof⟩ := of_resolver hr
  simp [deploymentGraph, hc, hsame, hof]

theorem contract_of_deploymentGraph (hr : t.resolver contract = .ok r)
    (hg : (t.deploymentGraph contract creation config).result = .ok g) :
    creation.contract = r.contract.id := by
  obtain ⟨_, hc, _⟩ := of_resolver hr
  by_contra hne
  simp [deploymentGraph, hc, hne] at hg

theorem WellFormed.contract_of_resolver (ht : t.WellFormed) (hr : t.resolver contract = .ok r) :
    r.contract.id = contract := by
  obtain ⟨_, _, hc⟩ := Resolver.fits_of_resolver ht hr
  exact ht.id_of_find? (contract?_eq_some.1 hc)

theorem WellFormed.contract_of_creationGraph (ht : t.WellFormed)
    (h : (t.creationGraph contract).result = .ok g) : g.contract = contract := by
  obtain ⟨r, hr, _, _, rfl, _⟩ := exists_creation ht h
  rw [← ht.contract_of_resolver hr]
  exact congrArg Prod.fst (Build.title_creation r)

/-- **No creation graph**: an error is found. -/
theorem WellFormed.creationGraph_fails_iff (ht : t.WellFormed) (hr : t.resolver contract = .ok r) :
    (∃ e, (t.creationGraph contract).result = .error e) ↔
      ∃ e, r.Found r.creationSeeds (fun _ => False) (.error e) := by
  obtain ⟨hfits, _, _⟩ := Resolver.fits_of_resolver ht hr
  rw [creationGraph_of_resolver hr, Build.outcome_error_iff, Build.creation_fails_iff hfits]

/-- **No deployment graph**: an error is found. -/
theorem WellFormed.deploymentGraph_fails_iff (ht : t.WellFormed)
    (hr : t.resolver contract = .ok r) (hsame : creation.contract = contract)
    (hplain : ∀ id ∈ creation.pointers, id.Plain) :
    (∃ e, (t.deploymentGraph contract creation config).result = .error e) ↔
      ∃ e, r.Found (Build.entrySites r) (Build.Carried creation.pointers config) (.error e) := by
  obtain ⟨hfits, _, _⟩ := Resolver.fits_of_resolver ht hr
  rw [← ht.contract_of_resolver hr] at hsame
  rw [deploymentGraph_of_resolver hr hsame, Build.outcome_error_iff,
    Build.deployment_fails_iff hfits hplain]

/-! ### Why there is no graph -/

theorem failure_of_creationGraph {e : Failure} (h : (t.creationGraph contract).result = .error e) :
    (∃ err : Error, e = err ∧ t.resolver contract = .error err) ∨
      ∃ r, t.resolver contract = .ok r ∧ (Build.creation r).error = some e := by
  unfold creationGraph at h
  split at h
  next err herr =>
    cases h
    exact .inl ⟨err, rfl, herr⟩
  next r hr => exact .inr ⟨r, hr, Build.error_of_outcome h⟩

/-- Without a deployment graph, there is no resolver, the creation graph is that of another contract,
or the build failed. -/
theorem failure_of_deploymentGraph {e : Failure}
    (h : (t.deploymentGraph contract creation config).result = .error e) :
    (∃ err : Error, e = err ∧ t.resolver contract = .error err) ∨
      (∃ expected found, e = Error.contractMismatch expected found) ∨
      ∃ r, t.resolver contract = .ok r ∧
        (Build.deployment r creation.pointers config).error = some e := by
  unfold deploymentGraph at h
  rw [resolver]
  split at h
  next err herr =>
    cases h
    rw [herr]
    exact .inl ⟨err, rfl, rfl⟩
  next c hc =>
    rw [hc]
    split at h
    · split at h
      next err herr =>
        cases h
        exact .inl ⟨err, rfl, herr⟩
      next r hr => exact .inr (.inr ⟨r, hr, Build.error_of_outcome h⟩)
    · cases h
      exact .inr (.inl ⟨_, _, rfl⟩)

end Tree
end ContractCalls
