import ContractCalls.Proofs.Graph.Connected

/-!
# The edges of a deployment graph

`deployment_callees` says exactly which edges the graph of the deployed code has, but for those
of the calls through pointers.  The outside calls the entry points of the resolver.  A
callable leads to what its code calls, to the modifiers attached to it, and, if it is a modifier
with a placeholder, back to the functions of the graph that it modifies.  The creation graph
that is handed in has no say in this.
-/

namespace ContractCalls

/-- The callees in the graph of the deployed code. -/
structure CallGraph.DeploymentCallees (g : CallGraph) (r : Resolver) : Prop where
  /-- The outside calls the interface functions, the fallback and the receive function. -/
  entry : ∀ m, m ∈ g.callees .entry ↔ ∃ f : Function, m = .callable f.id ∧
    (f ∈ r.interfaceFunctions ∨ r.fallback? = some f ∨ r.receive? = some f)
  /-- A callable leads to what its code calls, its modifiers, and what it modifies. -/
  callable : ∀ id ∈ g.callables, ∃ c, r.tree.callable? id = some c ∧ ∀ m,
    m ∈ g.callees (.callable id) ↔ r.Leads c.Root m ∨
      (∃ k, m = .callable k ∧ r.Modifies id k) ∨
      ∃ k ∈ g.callables, m = .callable k ∧ r.Modifies k id ∧ r.tree.GoesOn id

namespace Tree

/-- **The edges of a deployment graph** are those that the text of the program tells. -/
theorem deployment_callees {steps : List Step} {t : Tree} (ht : ofSteps steps = .ok t)
    {contract : DeclId} {creation g : CallGraph} {config : Config}
    (h : (t.deploymentGraph contract creation config).result = .ok g) :
    ∃ r, t.resolver contract = .ok r ∧ r.tree = t ∧ g.DeploymentCallees r := by
  obtain ⟨r, hr, htree, hfits, rfl, hfinished⟩ := exists_deployment (wellFormed_of_ofSteps ht) h
  have hstarts := Resolver.starts_entrySites hfits
  refine ⟨r, hr, htree, fun m => ?_, fun id hid => ?_⟩
  · rw [hfinished.mem_callees_entry hstarts]
    simp only [Resolver.hasEdge_entrySites]
    constructor
    · intro hex
      obtain ⟨_, _, rfl, f, hf, rfl⟩ := hex
      refine ⟨f, rfl, ?_⟩
      simpa [Resolver.entryPoints, or_assoc] using hf
    · intro hex
      obtain ⟨f, rfl, hf⟩ := hex
      refine ⟨.entry, rfl, rfl, f, ?_, rfl⟩
      simpa [Resolver.entryPoints, or_assoc] using hf
  · obtain ⟨c, hc⟩ := hfinished.exists_callable? hid
    refine ⟨c, hc, fun m => ?_⟩
    rw [hfinished.mem_callees_callable hstarts hid hc]
    refine or_iff_right ?_
    -- The seeds start at the outside, which is no callable.
    intro hex
    obtain ⟨x, hx, hedge⟩ := hex
    obtain ⟨rfl, _⟩ := Resolver.hasEdge_entrySites.1 hedge
    exact (CallGraph.mem_callables.1 hid).2.1 hx.symm

theorem token_deployment_callees : ∃ r, Token.tree.resolver ⟨4⟩ = .ok r ∧ r.tree = Token.tree ∧
    Token.deployed.DeploymentCallees r :=
  deployment_callees Token.ofSteps_steps Token.deploymentGraph_tree

end Tree
end ContractCalls
