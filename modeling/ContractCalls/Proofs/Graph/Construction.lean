import ContractCalls.Proofs.Code.DeployedPart
import ContractCalls.Proofs.Graph.Outcomes

/-!
# What construction leaves to the deployed code

What only construction runs has no part in the graph of the deployed code: the same is built in the
deployed part of the program (`deploymentGraph_deployedPart`).  Of the creation graph that is handed
in, only the pointers can be seen, and these only if they are carried: if the settings ask for it
and the deployed code calls through pointers.  So when it does not, any two creation graphs
of the contract lead to the same graph (`deployment_independent_of_construction`).
-/

namespace ContractCalls

namespace Build

variable {r : Resolver} {pointers : IdSet} {config : Config}

theorem begin_congr {r' : Resolver} (h : r.SameButCode r') (phase : Phase) :
    begin phase r'.contract = begin phase r.contract := by
  show begin phase r'.contract.withoutArgs = begin phase r.contract.withoutArgs
  rw [h.contract_withoutArgs]

/-- **Deployment graphs are built alike** when all code tells the same. -/
theorem deployment_congr {r' : Resolver} (h : r.SameButCode r') (hcode : ∀ id, r'.code id = r.code id)
    (pointers : IdSet) (config : Config) :
    deployment r' pointers config = deployment r pointers config := by
  have huncarried : uncarried r' = uncarried r := by
    rw [uncarried, begin_congr h, h.entrySites_eq, finishQueue_congr hcode, uncarried]
  have hcarry : ∀ b : Build, b.carry r' pointers = b.carry r pointers := by
    intro b
    have hname : r'.contract.name = r.contract.name := by
      show r'.contract.withoutArgs.name = r.contract.withoutArgs.name
      rw [h.contract_withoutArgs]
    rw [carry, hname, finishQueue_congr hcode, carry]
  rw [deployment_eq, huncarried, hcarry, deployment_eq]

theorem deployment_deployedPart (r : Resolver) (pointers : IdSet) (config : Config) :
    deployment r.deployedPart pointers config = deployment r pointers config :=
  deployment_congr r.sameButCode_deployedPart r.code_deployedPart pointers config

theorem deployment_of_off (hoff : config.carryPointers = false) :
    deployment r pointers config = uncarried r := by
  refine if_neg fun hcarries => ?_
  rw [(carries_iff.1 hcarries).2.1] at hoff
  cases hoff

theorem deployment_of_not_contains (h : (uncarried r).graph.contains .internalDispatch = false) :
    deployment r pointers config = uncarried r := by
  refine if_neg fun hcarries => ?_
  have hreach : (uncarried r).graph.isDispatchReachable = true := (carries_iff.1 hcarries).2.2
  rw [CallGraph.isDispatchReachable_of_not_contains h] at hreach
  cases hreach

end Build

/-! ### A kiosk

The variable `hook` and the base are given a function pointer in one writing and another in the
other.  The deployed code calls a function by its name only. -/

namespace Kiosk

def steps (hook : Option Expr) (args : List Expr) : List Step :=
  [ .contract "Stand" .contract false [],
    .function ⟨some ⟨0⟩, "fee", .function, some .internal, false, [], [], [], .usual⟩,
    .function ⟨some ⟨0⟩, "tip", .function, some .internal, false, [], [], [], .usual⟩,
    .contract "Kiosk" .contract false [⟨⟨0⟩, args⟩],
    .variable ⟨some ⟨3⟩, "hook", "function()", false, false, false, [], hook⟩,
    .function ⟨some ⟨3⟩, "sell", .function, none, false, [], [], [],
      .written [.eval (.internalCall "fee" ⟨1⟩ [])]⟩ ]

/-- The kiosk, with a pointer to `tip` in the initializer. -/
def tree : Tree := (Tree.ofSteps (steps (some (.functionRef "tip" ⟨2⟩)) [])).toOption.getD {}

/-- The kiosk, with a pointer to `fee` in the arguments. -/
def rebuilt : Tree := (Tree.ofSteps (steps none [.functionRef "fee" ⟨1⟩])).toOption.getD {}

def creationOf (t : Tree) : CallGraph :=
  (t.creationGraph ⟨3⟩).result.toOption.getD ⟨⟨3⟩, "", ∅, ∅, ∅, ∅⟩

def deployed : CallGraph :=
  (tree.deploymentGraph ⟨3⟩ (creationOf tree) .isolated).result.toOption.getD
    ⟨⟨3⟩, "", ∅, ∅, ∅, ∅⟩

theorem deployedPart_tree : tree.deployedPart = rebuilt.deployedPart := by cbv

theorem deploymentGraph_tree :
    (tree.deploymentGraph ⟨3⟩ (creationOf tree) .isolated).result = .ok deployed :=
  eq_ok_of_isOk (by cbv) _

end Kiosk

namespace Tree

variable {t t' : Tree} {contract : DeclId} {creation creation' : CallGraph}
  {config config' : Config}

/-- **What only construction runs has no part** in a deployment graph. -/
theorem deploymentGraph_deployedPart (t : Tree) (contract : DeclId) (creation : CallGraph)
    (config : Config) : t.deployedPart.deploymentGraph contract creation config =
      t.deploymentGraph contract creation config := by
  rw [deploymentGraph, requireContract_deployedPart, deploymentGraph]
  cases t.requireContract contract with
  | error e => rfl
  | ok c =>
    simp only [Except.map, Resolver.ofContract_deployedPart]
    cases Resolver.ofContract t c with
    | error e => rfl
    | ok r =>
      simp only [Build.deployment_deployedPart]
      rfl

/-- Of a creation graph and the settings, only the contract is looked at, and what the build makes
of them. -/
theorem deploymentGraph_congr (hsame : creation'.contract = creation.contract)
    (h : ∀ c r, t.requireContract contract = .ok c → Resolver.ofContract t c = .ok r →
      Build.deployment r creation'.pointers config' = Build.deployment r creation.pointers config) :
    t.deploymentGraph contract creation' config' = t.deploymentGraph contract creation config := by
  rw [deploymentGraph, deploymentGraph, hsame]
  cases hc : t.requireContract contract with
  | error e => rfl
  | ok c =>
    simp only
    cases hr : Resolver.ofContract t c with
    | error e => rfl
    | ok r => simp only [h c r hc hr]

theorem deploymentGraph_of_off (hsame : creation'.contract = creation.contract)
    (hoff : config.carryPointers = false) (hoff' : config'.carryPointers = false) :
    t.deploymentGraph contract creation' config' = t.deploymentGraph contract creation config := by
  refine deploymentGraph_congr hsame fun c r _ _ => ?_
  rw [Build.deployment_of_off hoff', Build.deployment_of_off hoff]

theorem deploymentGraph_of_not_contains {g : CallGraph}
    (hsame : creation'.contract = creation.contract) (hoff : config.carryPointers = false)
    (hg : (t.deploymentGraph contract creation config).result = .ok g)
    (hfree : g.contains .internalDispatch = false) :
    t.deploymentGraph contract creation' config' = t.deploymentGraph contract creation config := by
  refine deploymentGraph_congr hsame fun c r hc hr => ?_
  simp only [deploymentGraph, hc, hr] at hg
  split at hg
  · obtain ⟨_, rfl⟩ := Build.outcome_eq_ok hg
    rw [Build.deployment_of_off hoff] at hfree ⊢
    exact Build.deployment_of_not_contains hfree
  · cases hg

/-- **Deployment is independent of construction.**  In programs that differ in nothing but what only
construction runs, and with any creation graphs of the contract, deployment comes out the
same if nothing is to be carried.  If the graph that comes out has no calls through pointers, it is
the same under all settings. -/
theorem deployment_independent_of_construction (ht : t.deployedPart = t'.deployedPart)
    (hcreation : creation.contract = contract) (hcreation' : creation'.contract = contract)
    (hoff : config.carryPointers = false) (hoff' : config'.carryPointers = false) :
    t'.deploymentGraph contract creation' config' = t.deploymentGraph contract creation config ∧
    ∀ g, (t.deploymentGraph contract creation config).result = .ok g →
      g.contains .internalDispatch = false → ∀ settings,
        (t.deploymentGraph contract creation settings).result = .ok g ∧
        (t'.deploymentGraph contract creation' settings).result = .ok g := by
  have hprogram : ∀ creation config, t'.deploymentGraph contract creation config =
      t.deploymentGraph contract creation config := by
    intro creation config
    rw [← t'.deploymentGraph_deployedPart, ← ht, t.deploymentGraph_deployedPart]
  have hsame : creation'.contract = creation.contract := hcreation'.trans hcreation.symm
  constructor
  · rw [hprogram, deploymentGraph_of_off hsame hoff hoff']
  · intro g hg hfree settings
    rw [hprogram, deploymentGraph_of_not_contains hsame hoff hg hfree,
      deploymentGraph_of_not_contains rfl hoff hg hfree]
    exact ⟨hg, hg⟩

theorem kiosk_deployment_independent_of_construction :
    (Kiosk.rebuilt.deploymentGraph ⟨3⟩ (Kiosk.creationOf Kiosk.rebuilt) .standard).result =
        .ok Kiosk.deployed ∧
      (Kiosk.creationOf Kiosk.tree).pointers.toList = [⟨2⟩] ∧
      (Kiosk.creationOf Kiosk.rebuilt).pointers.toList = [⟨1⟩] ∧
      Kiosk.deployed.callables = [⟨1⟩, ⟨5⟩] := by
  have hcreation : (Kiosk.creationOf Kiosk.tree).contract = ⟨3⟩ := by cbv
  have hrebuilt : (Kiosk.creationOf Kiosk.rebuilt).contract = ⟨3⟩ := by cbv
  have hoff : Config.isolated.carryPointers = false := rfl
  have hkiosk := deployment_independent_of_construction Kiosk.deployedPart_tree hcreation hrebuilt
    hoff hoff
  have hstandard := hkiosk.2 _ Kiosk.deploymentGraph_tree (by cbv) .standard
  exact ⟨hstandard.2, by cbv, by cbv, by cbv⟩

end Tree
end ContractCalls
