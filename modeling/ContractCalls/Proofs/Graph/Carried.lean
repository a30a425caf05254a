import ContractCalls.Proofs.Build.Comparison
import ContractCalls.Proofs.Graph.Dispatch
import ContractCalls.Proofs.Graph.Outcomes

/-!
# What carrying changes

A deployment graph is built with a creation graph, whose pointers are handed on if the settings
allow it.  With more pointers more code is read, so a build with fewer of them succeeds whenever
one with more does, and its graph tells no more: `more_pointers_tell_more`.

A graph has all pointers that were handed on to it, if pointers are called at all, and all that the
code behind them takes.  So there is nothing left to hand on to a second build:
`carrying_twice_adds_nothing`.
-/

namespace ContractCalls

open Finding

namespace Build

variable {r : Resolver} {pointers pointers' : IdSet} {config config' : Config}

/-- **A build with fewer pointers succeeds** if one with more does, and it finds no more. -/
theorem deployment_of_fewer (hfits : r.Fits) (hplain : ∀ id ∈ pointers', id.Plain)
    (hfewer : ∀ id, Carried pointers config id → Carried pointers' config' id)
    (hok : (deployment r pointers' config').error = none) :
    (deployment r pointers config).error = none ∧
      (deployment r pointers config).graph.Within (deployment r pointers' config').graph := by
  have hsub : ∀ f, r.Found (entrySites r) (Carried pointers config) f →
      r.Found (entrySites r) (Carried pointers' config') f := by
    intro f hf
    exact hf.mono (fun _ => List.Subset.refl _) fun _ => hfewer
  have hnone : (deployment r pointers config).error = none := by
    by_contra hne
    obtain ⟨e, he⟩ := exists_error_of_deployment hfits hne
    exact (deployment_fails_iff hfits hplain).2 ⟨e, hsub _ he⟩ hok
  exact ⟨hnone, (finished_deployment hfits hnone).tells.within
    (finished_deployment hfits hok).tells hsub⟩

/-- **Handing on the pointers of the graph that was built** makes the same graph. -/
theorem deployment_again (hfits : r.Fits) (hplain : ∀ id ∈ pointers, id.Plain)
    (hok : (deployment r pointers config).error = none) :
    (deployment r (deployment r pointers config).graph.pointers config).error = none ∧
      (deployment r (deployment r pointers config).graph.pointers config).graph =
        (deployment r pointers config).graph := by
  have hfinished := finished_deployment hfits hok
  have hfound : ∀ id, Carried (deployment r pointers config).graph.pointers config id →
      HasPointer (r.Found (entrySites r) (Carried pointers config)) id := by
    intro id hid
    exact (hfinished.tells.pointers id).1 hid.2
  have hsub : ∀ f, r.Found (entrySites r) (Carried pointers config) f →
      r.Found (entrySites r) (Carried (deployment r pointers config).graph.pointers config) f := by
    intro f hf
    refine hf.mono (fun _ => List.Subset.refl _) fun hind id hid => ⟨hid.1, ?_⟩
    -- If pointers are called, the ones that are carried are pointers of the graph.
    obtain ⟨i, hi, hind⟩ := hind
    exact (hfinished.tells.pointers id).2 ⟨_, .carried hi hind hid, rfl⟩
  have hnone : (deployment r (deployment r pointers config).graph.pointers config).error = none := by
    by_contra hne
    obtain ⟨e, he⟩ := exists_error_of_deployment hfits hne
    rcases he.of_found_pointers hfound with he | ⟨_, _, he⟩
    · exact (deployment_fails_iff hfits hplain).2 ⟨e, he⟩ hok
    · cases he
  have htells := (finished_deployment hfits hnone).tells.of_found_pointers hsub hfound
  exact ⟨hnone, htells.ext hfinished.tells
    ((title_deployment r _ _).trans (title_deployment r _ _).symm)⟩

end Build

/-! ### A locker

A function calls pointers.  With the pointer to `unlock` more than this function is called: a pointer
to `lock` is taken, and a key is created.  The locker takes both pointers in its constructor; before
it was extended it took only the one to `lock`. -/

namespace Locker

def takeLock : Stmt := .eval (.functionRef "lock" ⟨2⟩)

def takeUnlock : Stmt := .eval (.functionRef "unlock" ⟨3⟩)

def steps (construction : List Stmt) : List Step :=
  [ .contract "Key" .contract false [],
    .contract "Locker" .contract false [],
    .function ⟨some ⟨1⟩, "lock", .function, some .internal, false, [], [], [], .usual⟩,
    .function ⟨some ⟨1⟩, "unlock", .function, some .internal, false, [], [], [],
      .written [takeLock, .eval (.newContract "Key" ⟨0⟩ [])]⟩,
    .function ⟨some ⟨1⟩, "", .constructor, none, false, [], [], [], .written construction⟩,
    .function ⟨some ⟨1⟩, "turn", .function, none, false, [], [], [],
      .written [.eval (.callOf ((Expr.plain "local" none).withFunctionType .internal) [])]⟩ ]

def tree : Tree := (Tree.ofSteps (steps [takeLock, takeUnlock])).toOption.getD {}

/-- The locker before it was extended. -/
def earlier : Tree := (Tree.ofSteps (steps [takeLock])).toOption.getD {}

def creationOf (t : Tree) : CallGraph :=
  (t.creationGraph ⟨1⟩).result.toOption.getD ⟨⟨1⟩, "", ∅, ∅, ∅, ∅⟩

def deployed : CallGraph :=
  (tree.deploymentGraph ⟨1⟩ (creationOf tree) .standard).result.toOption.getD
    ⟨⟨1⟩, "", ∅, ∅, ∅, ∅⟩

theorem ofSteps_tree : Tree.ofSteps (steps [takeLock, takeUnlock]) = .ok tree :=
  eq_ok_of_isOk (by cbv) _

theorem creationGraph_tree : (tree.creationGraph ⟨1⟩).result = .ok (creationOf tree) :=
  eq_ok_of_isOk (by cbv) _

theorem deploymentGraph_tree :
    (tree.deploymentGraph ⟨1⟩ (creationOf tree) .standard).result = .ok deployed :=
  eq_ok_of_isOk (by cbv) _

/-- What was taken as a pointer before the locker was extended is still taken. -/
theorem pointers_earlier :
    ∀ id ∈ (creationOf earlier).pointers, id ∈ (creationOf tree).pointers := by
  have hall : (creationOf earlier).pointers.toList.all
      (creationOf tree).pointers.toList.contains = true := by cbv
  simpa using hall

end Locker

namespace Tree

variable {t : Tree} {contract : DeclId} {creation creation' g : CallGraph} {config config' : Config}

theorem exists_deploymentGraph_of_fewer (ht : t.WellFormed) (hbuilt : creation'.Built)
    (hsame : creation.contract = contract) (hsame' : creation'.contract = contract)
    (hfewer : ∀ id, Build.Carried creation.pointers config id →
      Build.Carried creation'.pointers config' id)
    (hg : (t.deploymentGraph contract creation' config').result = .ok g) :
    ∃ g', (t.deploymentGraph contract creation config).result = .ok g' ∧ g'.Within g := by
  obtain ⟨r, hr, rfl, hfits, _⟩ := exists_deployment ht hg
  rw [← ht.contract_of_resolver hr] at hsame hsame'
  rw [deploymentGraph_of_resolver hr hsame', Build.outcome_eq_ok_iff] at hg
  obtain ⟨hok', rfl⟩ := hg
  obtain ⟨hok, hwithin⟩ := Build.deployment_of_fewer hfits
    (fun _ hid => hbuilt.plain_pointers hid) hfewer hok'
  refine ⟨_, ?_, hwithin⟩
  rw [deploymentGraph_of_resolver hr hsame, Build.outcome_eq_ok_iff]
  exact ⟨hok, rfl⟩

/-- **More pointers tell more.**  A build that is handed fewer pointers succeeds if one that is
handed more does, and all that its graph tells is told by the other.  So does a build that is
handed none because the settings forbid it. -/
theorem more_pointers_tell_more {steps : List Step} (ht : ofSteps steps = .ok t)
    (hbuilt : creation'.Built) (hsame : creation.contract = contract)
    (hsame' : creation'.contract = contract) (hcarry : config'.carryPointers = true)
    (hg : (t.deploymentGraph contract creation' config').result = .ok g) :
    (config.carryPointers = true → (∀ id ∈ creation.pointers, id ∈ creation'.pointers) →
      ∃ g', (t.deploymentGraph contract creation config).result = .ok g' ∧ g'.Within g) ∧
    (config.carryPointers = false →
      ∃ g', (t.deploymentGraph contract creation config).result = .ok g' ∧ g'.Within g) := by
  have hwell := wellFormed_of_ofSteps ht
  constructor
  · intro _ hsub
    exact exists_deploymentGraph_of_fewer hwell hbuilt hsame hsame'
      (fun id hid => ⟨hcarry, hsub id hid.2⟩) hg
  · intro hoff
    refine exists_deploymentGraph_of_fewer hwell hbuilt hsame hsame' (fun id hid => ?_) hg
    exact absurd (hoff.symm.trans hid.1) Bool.false_ne_true

theorem locker_more_pointers_tell_more :
    (∃ g, (Locker.tree.deploymentGraph ⟨1⟩ (Locker.creationOf Locker.earlier) .standard).result =
        .ok g ∧ g.Within Locker.deployed) ∧
      ∃ g, (Locker.tree.deploymentGraph ⟨1⟩ (Locker.creationOf Locker.tree) .isolated).result =
        .ok g ∧ g.Within Locker.deployed := by
  have hbuilt : (Locker.creationOf Locker.tree).Built :=
    .creation Locker.ofSteps_tree Locker.creationGraph_tree
  exact ⟨(more_pointers_tell_more Locker.ofSteps_tree hbuilt (by cbv) (by cbv) rfl
      Locker.deploymentGraph_tree).1 rfl Locker.pointers_earlier,
    (more_pointers_tell_more Locker.ofSteps_tree hbuilt (by cbv) (by cbv) rfl
      Locker.deploymentGraph_tree).2 rfl⟩

/-- **Carrying twice adds nothing.**  The graph of the deployed code may be handed in for the
creation graph that it was built with: the same graph is built. -/
theorem carrying_twice_adds_nothing {steps : List Step} (ht : ofSteps steps = .ok t)
    (hbuilt : creation.Built)
    (hg : (t.deploymentGraph contract creation config).result = .ok g) :
    (t.deploymentGraph contract g config).result = .ok g := by
  have hwell := wellFormed_of_ofSteps ht
  obtain ⟨r, hr, rfl, hfits, rfl, _⟩ := exists_deployment hwell hg
  have hsame : creation.contract = r.contract.id := contract_of_deploymentGraph hr hg
  rw [deploymentGraph_of_resolver hr hsame, Build.outcome_eq_ok_iff] at hg
  have hsame' : (Build.deployment r creation.pointers config).graph.contract = r.contract.id :=
    congrArg Prod.fst (Build.title_deployment r _ _)
  rw [deploymentGraph_of_resolver hr hsame', Build.outcome_eq_ok_iff]
  exact Build.deployment_again hfits (fun _ hid => hbuilt.plain_pointers hid) hg.1

theorem locker_carrying_twice_adds_nothing :
    (Locker.tree.deploymentGraph ⟨1⟩ Locker.deployed .standard).result = .ok Locker.deployed ∧
      Locker.deployed.dispatchTargets = [⟨2⟩, ⟨3⟩] :=
  ⟨carrying_twice_adds_nothing Locker.ofSteps_tree
    (.creation Locker.ofSteps_tree Locker.creationGraph_tree) Locker.deploymentGraph_tree, by cbv⟩

end Tree

end ContractCalls
