import ContractCalls.Proofs.Code.Additions
import ContractCalls.Proofs.Graph.Outcomes

/-!
# Unrelated additions

A program that is written on, with steps that are unrelated to it, keeps its graphs.  Every contract
of the program has the same linearization, and where a graph could be built, the same graph is built
again, and even in the same way: `unrelated_additions_change_nothing`.

A build that succeeds has come upon no error, so all code that it has read tells the same in the
larger program (`drain_of_sound`).  It never comes to what was added.
-/

namespace ContractCalls

namespace Build

variable {r r' : Resolver} {b : Build}

/-- **The queue is read alike** when all code without an error tells the same. -/
theorem drain_of_sound (hcode : ∀ id, (∀ e, .error e ∉ r.code id) → r'.code id = r.code id)
    (hok : (b.drain r).error = none) : b.drain r' = b.drain r := by
  induction hn : b.pending r.tree using Nat.strongRecOn generalizing b with
  | _ n ih =>
    have hb : b.error = none := error_of_drain hok
    cases hq : b.queue with
    | nil => rw [drain_nil hb hq, drain_nil hb hq]
    | cons id rest =>
      rw [drain_cons hb hq] at hok
      have hsound := sound_of_takeAll (error_of_drain hok)
      obtain ⟨c, hc⟩ := Resolver.exists_callable? hsound
      have hlt := pending_read_lt (t := r.tree) hq (r.code id) (Tree.declares_of_callable? hc)
      rw [drain_cons hb hq, drain_cons hb hq, hcode id hsound]
      exact ih _ (hn ▸ hlt) hok rfl

theorem finishQueue_of_sound (hcode : ∀ id, (∀ e, .error e ∉ r.code id) → r'.code id = r.code id)
    (hok : (b.finishQueue r).error = none) : b.finishQueue r' = b.finishQueue r := by
  have hb : b.error = none := error_of_finishQueue hok
  unfold finishQueue at hok ⊢
  rw [hb, if_neg (by simp)] at hok ⊢
  rw [if_neg (by simp), drain_of_sound hcode hok]

variable {t' : Tree}

/-! ### Whole builds -/

theorem creation_within (hfits : r.Fits) (h : r.tree.Within t') (hok : (creation r).error = none) :
    creation (r.onTree t') = creation r := by
  rw [creation_eq] at hok ⊢
  have hseeds : (((begin .creation r.contract).takeAll r.creationSeeds).moveTo .entry).error =
      none := error_of_finishQueue hok
  rw [Resolver.creationSeeds_within hfits h (sound_of_takeAll hseeds), creation_eq]
  exact finishQueue_of_sound (fun _ => Resolver.code_within h) hok

theorem uncarried_within (hfits : r.Fits) (h : r.tree.Within t')
    (hok : (uncarried r).error = none) : uncarried (r.onTree t') = uncarried r := by
  rw [uncarried, Resolver.entrySites_within hfits h]
  exact finishQueue_of_sound (fun _ => Resolver.code_within h) hok

theorem deployment_within (hfits : r.Fits) (h : r.tree.Within t') {pointers : IdSet}
    {config : Config} (hok : (deployment r pointers config).error = none) :
    deployment (r.onTree t') pointers config = deployment r pointers config := by
  rw [deployment_eq] at hok ⊢
  rw [deployment_eq]
  cases hcarries : (uncarried r).carries config with
  | false =>
    rw [hcarries, if_neg Bool.false_ne_true] at hok
    rw [uncarried_within hfits h hok, hcarries]
    rfl
  | true =>
    rw [hcarries, if_pos rfl] at hok
    rw [uncarried_within hfits h (carries_iff.1 hcarries).1, hcarries]
    exact finishQueue_of_sound (fun _ => Resolver.code_within h) hok

end Build

namespace Tree.Within

variable {t t' : Tree} {contract : DeclId} {g creation : CallGraph} {config : Config}

/-- **Creation graphs** are the same in a larger program. -/
theorem creationGraph_eq (h : t.Within t') (ht : t.WellFormed)
    (hg : (t.creationGraph contract).result = .ok g) :
    t'.creationGraph contract = t.creationGraph contract := by
  obtain ⟨r, hr, rfl, hfits, rfl, _⟩ := exists_creation ht hg
  rw [creationGraph_of_resolver hr, Build.outcome_eq_ok_iff] at hg
  rw [creationGraph_of_resolver hr, creationGraph_of_resolver (h.resolver_eq_ok hr),
    Build.creation_within hfits h hg.1]

/-- **Deployment graphs** are the same in a larger program. -/
theorem deploymentGraph_eq (h : t.Within t') (ht : t.WellFormed)
    (hg : (t.deploymentGraph contract creation config).result = .ok g) :
    t'.deploymentGraph contract creation config = t.deploymentGraph contract creation config := by
  obtain ⟨r, hr, rfl, hfits, rfl, _⟩ := exists_deployment ht hg
  have hsame := contract_of_deploymentGraph hr hg
  rw [deploymentGraph_of_resolver hr hsame, Build.outcome_eq_ok_iff] at hg
  rw [deploymentGraph_of_resolver hr hsame,
    deploymentGraph_of_resolver (h.resolver_eq_ok hr) hsame, Build.deployment_within hfits h hg.1]

end Tree.Within

/-! ### A vault

The token with what is written after it: a contract that inherits from it and overrides its
function, and a constant outside of contracts. -/

namespace Vault

def steps : List Step :=
  [ .contract "Vault" .contract false [⟨⟨4⟩, []⟩],
    .function ⟨some ⟨7⟩, "mint", .function, none, false, [⟨6⟩], [], [], .absent⟩,
    .setBody ⟨8⟩ [.eval (.superCall ⟨7⟩ "mint" ⟨6⟩ [])],
    .variable ⟨none, "SHARE", "uint256", false, true, false, [], some (.literal {} "1")⟩ ]

def tree : Tree := (Tree.ofSteps (Token.steps ++ steps)).toOption.getD {}

theorem ofSteps_steps : Tree.ofSteps (Token.steps ++ steps) = .ok tree :=
  eq_ok_of_isOk (by cbv) _

theorem unrelated_steps : ∀ step ∈ steps, step.Unrelated Token.tree := by
  have hall : (steps.all fun step => decide (step.Unrelated Token.tree)) = true := by cbv
  exact fun step hstep => of_decide_eq_true (List.all_eq_true.1 hall step hstep)

end Vault

namespace Tree

/-- **Unrelated additions change nothing.**  Whatever is written after a program, as long as it adds
no member to its contracts and gives nothing of it a body or an initializer: every contract keeps
its linearization and, where they could be built, its graphs. -/
theorem unrelated_additions_change_nothing {steps more : List Step} {t t' : Tree}
    (ht : ofSteps steps = .ok t) (ht' : ofSteps (steps ++ more) = .ok t')
    (hmore : ∀ step ∈ more, step.Unrelated t) (contract : DeclId)
    (hcontract : (t.contract? contract).isSome = true) :
    t'.linearization? contract = t.linearization? contract ∧
      ∀ creation, (t.creationGraph contract).result = .ok creation →
        (t'.creationGraph contract).result = .ok creation ∧
          ∀ config deployed,
            (t.deploymentGraph contract creation config).result = .ok deployed →
            (t'.deploymentGraph contract creation config).result = .ok deployed := by
  have hwell := wellFormed_of_ofSteps ht
  have hwithin := within_of_unrelated ht ht' hmore
  refine ⟨?_, fun creation hcreation => ⟨?_, fun config deployed hdeployed => ?_⟩⟩
  · obtain ⟨c, hc⟩ := Option.isSome_iff_exists.1 hcontract
    rw [linearization?, linearization?, hc, show t'.contract? contract = some c from
      hwithin.bind_eq_some hc]
  · rw [hwithin.creationGraph_eq hwell hcreation, hcreation]
  · rw [hwithin.deploymentGraph_eq hwell hdeployed, hdeployed]

theorem vault_unrelated_additions_change_nothing :
    Vault.tree.linearization? ⟨4⟩ = Token.tree.linearization? ⟨4⟩ ∧
      (Vault.tree.creationGraph ⟨4⟩).result = .ok Token.creation ∧
      (Vault.tree.deploymentGraph ⟨4⟩ Token.creation .standard).result = .ok Token.deployed := by
  have h := unrelated_additions_change_nothing Token.ofSteps_steps Vault.ofSteps_steps
    Vault.unrelated_steps ⟨4⟩ (by cbv)
  obtain ⟨hcreation, hdeployed⟩ := h.2 _ Token.creationGraph_tree
  exact ⟨h.1, hcreation, hdeployed _ _ Token.deploymentGraph_tree⟩

end Tree
end ContractCalls
