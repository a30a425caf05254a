import ContractCalls.Proofs.Graph.Failures

/-!
# What the side effects name

An `emit` is looked up before it is taken in.  If it names no event, the build fails, so all that a
graph has as emitted are events of its tree.

A `new` is taken in as it stands.  What a graph has as created are the ids that walked code names
after `new`, and these are contracts of the tree exactly if the code names nothing else
(`effects_resolve`).  A graph is also built of code that does (`Foundry`).
-/

namespace ContractCalls

/-- Whatever the code creates is a contract. -/
def Tree.CreatesContracts (t : Tree) (root : Expr → Prop) : Prop :=
  ∀ id, t.Creates root id → (t.contract? id).isSome = true

/-- All that a graph has as emitted are events of the tree, and all that it has as created are
contracts of the tree just if the code that it is made of creates nothing else. -/
structure CallGraph.Resolves (g : CallGraph) (t : Tree) (code : Expr → Prop) : Prop where
  emitted : ∀ id ∈ g.emitted, (t.event? id).isSome = true
  created : (∀ id ∈ g.created, (t.contract? id).isSome = true) ↔ t.CreatesContracts code

namespace Build.Finished

variable {r : Resolver} {seeds : List Finding} {carried : DeclId → Prop} {b : Build}

theorem event?_of_mem_emitted (h : Finished r seeds carried b) {id : DeclId}
    (hseeds : .emits id ∉ seeds) (hid : id ∈ b.graph.emitted) :
    (r.tree.event? id).isSome = true := by
  obtain ⟨k, hk, c, hc, hemits⟩ := (h.mem_emitted hseeds).1 hid
  exact Resolver.event?_of_emits hc (h.sound_code hk) hemits

end Build.Finished

namespace Resolver

variable {r : Resolver} {x : DeclId}

/-- An `emit` that names no event is a fault of its callable. -/
theorem malformed_of_emits {c : Callable} (hemits : c.Emits x) (hx : r.tree.event? x = none) :
    r.Malformed c := by
  obtain ⟨note, callee, args, kind, hs, hdecl⟩ := hemits
  refine .inr (.inl ⟨_, hs, ?_⟩)
  cases hd : r.tree.find? x with
  | none => exact .unknown hdecl hd
  | some d =>
    rw [Tree.event?, hd] at hx
    exact .noEvent hdecl hd hx

/-- Something is wrong with walked code that emits what is no event. -/
theorem fails_of_emits {seed : Seed} {carried : DeclId → Prop} {k : DeclId} {c : Callable}
    (hk : r.Walked seed carried (.callable k)) (hc : r.tree.callable? k = some c)
    (hemits : c.Emits x) (hx : r.tree.event? x = none) : r.Fails seed carried :=
  .inl ⟨_, hk, c, hc, malformed_of_emits hemits hx⟩

end Resolver

namespace Tree

variable {t : Tree}

/-- **Side effects resolve.**  All that a graph has as emitted are events, and a build that walks an
`emit` of anything else fails, with an error where no constants refer to each other in a cycle.  What
a graph has as created are contracts just if its code creates nothing else. -/
theorem effects_resolve {steps : List Step} (ht : ofSteps steps = .ok t) (contract : DeclId) :
    ((∀ g, (t.creationGraph contract).result = .ok g → ∃ r, t.resolver contract = .ok r ∧
        g.Resolves t fun e => g.CallableRoot t e ∨ r.ConstructionRoot e) ∧
      ∀ creation config g, (t.deploymentGraph contract creation config).result = .ok g →
        g.Resolves t (g.CallableRoot t)) ∧
    ∀ r k c x, t.resolver contract = .ok r → t.callable? k = some c → c.Emits x →
      t.event? x = none →
      (r.Walked r.constructionSeed (fun _ => False) (.callable k) →
        ∃ e, (t.creationGraph contract).result = .error e ∧
          (t.NoConstantCycle → ∃ err : Error, e = err)) ∧
      ∀ creation config, creation.Built →
        r.Walked r.deploymentSeed (Build.Carried creation.pointers config) (.callable k) →
          ∃ e, (t.deploymentGraph contract creation config).result = .error e ∧
            (t.NoConstantCycle → ∃ err : Error, e = err) := by
  have hwell := wellFormed_of_ofSteps ht
  refine ⟨⟨fun g hg => ?_, fun creation config g hg => ?_⟩, ?_⟩
  · obtain ⟨r, hr, rfl, hfits, rfl, hfinished⟩ := exists_creation hwell hg
    refine ⟨r, hr, fun id => hfinished.event?_of_mem_emitted
      (Resolver.emits_not_mem_creationSeeds hfits), ?_⟩
    simp only [hfinished.mem_created_creation hfits, CreatesContracts]
  · obtain ⟨r, _, rfl, _, rfl, hfinished⟩ := exists_deployment hwell hg
    refine ⟨fun id => hfinished.event?_of_mem_emitted (Resolver.effect_not_mem_entrySites rfl), ?_⟩
    simp only [hfinished.mem_created_deployment, CreatesContracts]
  · intro r k c x hr hc hemits hx
    obtain ⟨hfits, rfl, _⟩ := Resolver.fits_of_resolver hwell hr
    refine ⟨fun hk => ?_, fun creation config hbuilt hk => ?_⟩
    · have hfails := Resolver.fails_of_emits hk hc hemits hx
      obtain ⟨e, he⟩ := (hwell.creationGraph_fails_iff hr).2
        (Resolver.found_error_of_fails (Resolver.plants_construction hfits) hfails)
      refine ⟨e, he, fun hacyclic => Failure.exists_error fun id hid => ?_⟩
      exact hwell.creationGraph_ne_endless hacyclic id (hid ▸ he)
    · have hfails := Resolver.fails_of_emits hk hc hemits hx
      obtain ⟨e, he⟩ : ∃ e, (r.tree.deploymentGraph contract creation config).result = .error e := by
        cases hg : (r.tree.deploymentGraph contract creation config).result with
        | error e => exact ⟨e, rfl⟩
        | ok g =>
          -- The creation graph is that of the contract, or there would be no graph.
          have hsame := (contract_of_deploymentGraph hr hg).trans (hwell.contract_of_resolver hr)
          rw [← hg, hwell.deploymentGraph_fails_iff hr hsame fun id hid => hbuilt.plain_pointers hid]
          exact Resolver.found_error_of_fails Resolver.plants_deployment hfails
      refine ⟨e, he, fun hacyclic => Failure.exists_error fun id hid => ?_⟩
      exact hwell.deploymentGraph_ne_endless hacyclic id (hid ▸ he)

end Tree

/-! ### A foundry

One contract creates what no declaration is, another one emits a contract. -/

namespace Foundry

def melt : Function :=
  ⟨⟨3⟩, "", some ⟨2⟩, .constructor, .public, false, [], [], [],
    some [.emit (.eventCall "Foundry" ⟨0⟩ [])]⟩

def steps : List Step :=
  [ .contract "Foundry" .contract false [],
    .function ⟨some ⟨0⟩, "cast", .function, none, false, [], [], [],
      .written [.eval (.newContract "Bell" ⟨77⟩ [])]⟩,
    .contract "Furnace" .contract false [],
    .function ⟨some ⟨2⟩, "", .constructor, none, false, [], [], [],
      .written [.emit (.eventCall "Foundry" ⟨0⟩ [])]⟩ ]

def tree : Tree := (Tree.ofSteps steps).toOption.getD {}

def creation : CallGraph := (tree.creationGraph ⟨0⟩).result.toOption.getD ⟨⟨0⟩, "", ∅, ∅, ∅, ∅⟩

def deployed : CallGraph :=
  (tree.deploymentGraph ⟨0⟩ creation .standard).result.toOption.getD ⟨⟨0⟩, "", ∅, ∅, ∅, ∅⟩

theorem ofSteps_steps : Tree.ofSteps steps = .ok tree := eq_ok_of_isOk (by cbv) _

theorem deploymentGraph_tree :
    (tree.deploymentGraph ⟨0⟩ creation .standard).result = .ok deployed :=
  eq_ok_of_isOk (by cbv) _

/-- The graph of the foundry is built, and has as created what the tree does not have. -/
theorem foundry_creates_unknown :
    (tree.deploymentGraph ⟨0⟩ creation .standard).result = .ok deployed ∧
    ⟨77⟩ ∈ deployed.created ∧ tree.find? ⟨77⟩ = none := by
  have hcreated : deployed.created.contains ⟨77⟩ = true := by cbv
  exact ⟨deploymentGraph_tree, Std.ExtTreeSet.contains_iff_mem.1 hcreated, by cbv⟩

theorem callable?_melt : tree.callable? ⟨3⟩ = some (.function melt) := by cbv

theorem emits_melt : (Callable.function melt).Emits ⟨0⟩ :=
  ⟨_, _, _, _, ⟨_, rfl, _, List.mem_singleton_self _, .refl⟩, rfl⟩

theorem exists_resolver : ∃ r, tree.resolver ⟨2⟩ = .ok r ∧
    r.Walked r.constructionSeed (fun _ => False) (.callable ⟨3⟩) := by
  have h : (tree.resolver ⟨2⟩).toOption.map (fun r =>
      r.linearization.filterMap fun b => (r.constructor? b).map Function.id) = some [⟨3⟩] := by cbv
  cases hr : tree.resolver ⟨2⟩ with
  | error e =>
    rw [hr] at h
    cases h
  | ok r =>
    rw [hr] at h
    have hids : (r.linearization.filterMap fun b => (r.constructor? b).map Function.id) = [⟨3⟩] :=
      Option.some.inj h
    have hmem : ⟨3⟩ ∈ r.linearization.filterMap fun b => (r.constructor? b).map Function.id := by
      rw [hids]
      exact List.mem_singleton_self _
    obtain ⟨b, hb, hk⟩ := List.mem_filterMap.1 hmem
    obtain ⟨k, hk, hid⟩ := Option.map_eq_some_iff.1 hk
    exact ⟨r, rfl, .start ⟨b, hb, k, hk, hid⟩⟩

end Foundry

namespace Tree

/-- The market creates and emits what it has, and the furnace emits a contract. -/
theorem market_effects_resolve :
    (∀ id ∈ Market.deployed.emitted, (Market.tree.event? id).isSome = true) ∧
    Market.deployed.emitted.toList = [⟨2⟩] ∧
    Market.tree.CreatesContracts (Market.deployed.CallableRoot Market.tree) ∧
    ∃ e : Error, (Foundry.tree.creationGraph ⟨2⟩).result = .error e := by
  obtain ⟨⟨_, hdeployed⟩, _⟩ := effects_resolve Market.ofSteps_steps ⟨1⟩
  obtain ⟨hemitted, hcreated⟩ := hdeployed _ _ _ Market.deploymentGraph_tree
  have hids : Market.deployed.created.toList = [⟨0⟩] := by cbv
  have hvault : (Market.tree.contract? ⟨0⟩).isSome = true := by cbv
  refine ⟨hemitted, by cbv, hcreated.1 fun id hid => ?_, ?_⟩
  · rw [← Std.ExtTreeSet.mem_toList, hids, List.mem_singleton] at hid
    rw [hid]
    exact hvault
  · obtain ⟨r, hr, hwalked⟩ := Foundry.exists_resolver
    obtain ⟨_, hfails⟩ := effects_resolve Foundry.ofSteps_steps ⟨2⟩
    obtain ⟨e, he, hacyclic⟩ :=
      (hfails r _ _ ⟨0⟩ hr Foundry.callable?_melt Foundry.emits_melt (by cbv)).1 hwalked
    obtain ⟨err, rfl⟩ := hacyclic (noConstantCycle_of_inOrder (by cbv))
    exact ⟨err, he⟩

end Tree

end ContractCalls
