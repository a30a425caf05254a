import ContractCalls.Proofs.Graph.Endings
import ContractCalls.Proofs.Graph.Outcomes

/-!
# When building a graph fails

`walked_code_decides`: once a contract has a resolver, the walked code decides whether its graphs are
built, and if not, why.  Code that is not walked may be as malformed as it likes, and no order of
reading makes a difference, but for one thing: if some of the walked code is malformed and some
of it is endless, either can come first.

A deployment graph is handed pointers from a creation graph.  If this was built of the same tree,
they are callables.  If it was built of another tree for a contract with the same id, a pointer may
name no callable; walking it is an error too.
-/

namespace ContractCalls

namespace Resolver

/-- Some of the walked code is malformed. -/
def WalksMalformed (r : Resolver) (seed : Seed) (carried : DeclId → Prop) : Prop :=
  ∃ p, r.Walked seed carried p ∧ r.MalformedAt seed p

/-- Some of the walked code names a constant whose initializer leads back to it. -/
def WalksEndless (r : Resolver) (seed : Seed) (carried : DeclId → Prop) : Prop :=
  ∃ p, r.Walked seed carried p ∧ r.EndlessAt seed p

end Resolver

/-- How a build comes out of which walked code is malformed or endless, or neither. -/
structure DecidedBy (malformed endless : Prop) (result : Except Failure CallGraph) : Prop where
  error_iff : ¬ endless → ((∃ e : Error, result = .error e) ↔ malformed)
  /-- An error is returned for nothing else, wherever endless code may be. -/
  of_error : (∃ e : Error, result = .error e) → malformed
  of_endless : (∃ id, result = .error (.endless id)) → endless
  graph_iff : (∃ g, result = .ok g) ↔ ¬ malformed ∧ ¬ endless

namespace Resolver.Plants

variable {r : Resolver} {seed : Seed} {seeds : List Finding} {carried : DeclId → Prop} {p : Portion}

/-- An error that walked code tells is the fault of this code, or there is none. -/
theorem fails_of_error_mem (hplants : r.Plants seed seeds) (hp : r.Walked seed carried p)
    {e : Error} (he : .error e ∈ r.tells seeds p) : r.Fails seed carried := by
  cases p with
  | seed => exact .inl ⟨.seed, hp, hplants.error.1 ⟨e, he⟩⟩
  | callable id =>
    cases hc : r.tree.callable? id with
    | none => exact .inr ⟨id, hp, hc⟩
    | some c => exact .inl ⟨_, hp, c, hc, (error_mem_code hc).1 ⟨e, he⟩⟩

/-- **Walked code decides** how a build comes out that fails only for what walked code tells. -/
theorem decidedBy (hplants : r.Plants seed seeds) {result : Except Failure CallGraph}
    (htold : ∀ e, result = .error e → ∃ p, r.Walked seed carried p ∧ .error e ∈ r.tells seeds p)
    (hfound : (∃ e, r.Found seeds carried (.error e)) → ∃ e, result = .error e) :
    DecidedBy (r.Fails seed carried) (r.WalksEndless seed carried) result := by
  have hmalformed : (∃ e : Error, result = .error e) → r.Fails seed carried := by
    rintro ⟨e, he⟩
    obtain ⟨p, hp, hmem⟩ := htold _ he
    exact hplants.fails_of_error_mem hp hmem
  have hendless : (∃ id, result = .error (.endless id)) → r.WalksEndless seed carried := by
    rintro ⟨id, hid⟩
    obtain ⟨p, hp, hmem⟩ := htold _ hid
    exact ⟨p, hp, hplants.endless_iff.1 ⟨id, hmem⟩⟩
  have hno_graph : ∀ g, result = .ok g → ¬ ∃ e, r.Found seeds carried (.error e) := by
    rintro g hg he
    obtain ⟨e, he⟩ := hfound he
    cases hg.symm.trans he
  refine ⟨fun hends => ⟨hmalformed, fun hfails => ?_⟩, hmalformed, hendless, ?_, fun hsound => ?_⟩
  · cases hresult : result with
    | ok g => exact absurd (found_error_of_fails hplants hfails) (hno_graph g hresult)
    | error e =>
      cases e with
      | error e => exact ⟨e, rfl⟩
      | endless id => exact absurd (hendless ⟨id, hresult⟩) hends
  · rintro ⟨g, hg⟩
    refine ⟨fun hfails => hno_graph g hg (found_error_of_fails hplants hfails), ?_⟩
    rintro ⟨p, hp, hends⟩
    exact hno_graph g hg (found_error_of_endless hplants hp hends)
  · cases hresult : result with
    | ok g => exact ⟨g, rfl⟩
    | error e =>
      cases e with
      | error e => exact absurd (hmalformed ⟨e, hresult⟩) hsound.1
      | endless id => exact absurd (hendless ⟨id, hresult⟩) hsound.2

end Resolver.Plants

/-! ### A depot

A public function takes another one as a pointer and calls it, and this one emits what is no event.
Nothing of it runs while the depot is constructed. -/

namespace Depot

def steps : List Step :=
  [ .contract "Depot" .contract false [],
    .function ⟨some ⟨0⟩, "spoil", .function, some .internal, false, [], [], [],
      .written [.emit (.eventCall "Depot" ⟨0⟩ [])]⟩,
    .function ⟨some ⟨0⟩, "store", .function, none, false, [], [], [],
      .written
        [ .eval (.callOf ((Expr.plain "local" none).withFunctionType .internal)
            [.functionRef "spoil" ⟨1⟩]) ]⟩ ]

def tree : Tree := (Tree.ofSteps steps).toOption.getD {}

def creation : CallGraph := (tree.creationGraph ⟨0⟩).result.toOption.getD ⟨⟨0⟩, "", ∅, ∅, ∅, ∅⟩

theorem ofSteps_steps : Tree.ofSteps steps = .ok tree := eq_ok_of_isOk (by cbv) _

theorem creationGraph_tree : (tree.creationGraph ⟨0⟩).result = .ok creation :=
  eq_ok_of_isOk (by cbv) _

theorem deploymentGraph_tree : (tree.deploymentGraph ⟨0⟩ creation .standard).result =
    .error (Error.inconsistent (.emitOf .contract ⟨0⟩)) := by
  cbv

theorem noConstantCycle_tree : tree.NoConstantCycle := Tree.noConstantCycle_of_inOrder (by cbv)

end Depot

namespace Tree

variable {t : Tree} {contract : DeclId} {creation : CallGraph}

/-- What a creation graph has as pointers are callables of its tree. -/
theorem WellFormed.callable?_pointers (ht : t.WellFormed)
    (h : (t.creationGraph contract).result = .ok creation) {id : DeclId}
    (hid : id ∈ creation.pointers) : (t.callable? id).isSome = true := by
  obtain ⟨r, _, rfl, hfits, rfl, hfinished⟩ := exists_creation ht h
  obtain ⟨f, hf, hpointer⟩ := (hfinished.tells.pointers id).1 hid
  rcases hf.resolved (Resolver.starts_creationSeeds hfits) with hresolved | ⟨_, hnone, _⟩
  · exact hresolved id (.inr hpointer)
  · exact hnone.elim

theorem WellFormed.decidedBy_creation (ht : t.WellFormed) {r : Resolver}
    (hr : t.resolver contract = .ok r) :
    DecidedBy (r.Fails r.constructionSeed fun _ => False)
      (r.WalksEndless r.constructionSeed fun _ => False) (t.creationGraph contract).result := by
  obtain ⟨hfits, _, _⟩ := Resolver.fits_of_resolver ht hr
  refine (Resolver.plants_construction hfits).decidedBy (fun e he => ?_)
    (ht.creationGraph_fails_iff hr).2
  rw [creationGraph_of_resolver hr] at he
  exact (Build.accounted_creation hfits).ended e (Build.error_of_outcome he)

theorem WellFormed.decidedBy_deployment (ht : t.WellFormed) {r : Resolver}
    (hr : t.resolver contract = .ok r) (config : Config) (hbuilt : creation.Built)
    (hsame : creation.contract = contract) :
    DecidedBy (r.Fails r.deploymentSeed (Build.Carried creation.pointers config))
      (r.WalksEndless r.deploymentSeed (Build.Carried creation.pointers config))
      (t.deploymentGraph contract creation config).result := by
  obtain ⟨hfits, _, _⟩ := Resolver.fits_of_resolver ht hr
  refine Resolver.plants_deployment.decidedBy (fun e he => ?_)
    (ht.deploymentGraph_fails_iff hr hsame fun id hid => hbuilt.plain_pointers hid).2
  rw [← ht.contract_of_resolver hr] at hsame
  rw [deploymentGraph_of_resolver hr hsame] at he
  exact (Build.accounted_deployment hfits _ _).ended e (Build.error_of_outcome he)

/-- Where no constants refer to each other in a cycle, a construction is built or answers an
error. -/
theorem WellFormed.creationGraph_ne_endless (ht : t.WellFormed) (hacyclic : t.NoConstantCycle)
    (id : DeclId) : (t.creationGraph contract).result ≠ .error (.endless id) := by
  intro hends
  rcases failure_of_creationGraph hends with ⟨_, ⟨⟩, _⟩ | ⟨r, hr, herror⟩
  obtain ⟨hfits, rfl, _⟩ := Resolver.fits_of_resolver ht hr
  obtain ⟨p, _, hmem⟩ := (Build.accounted_creation hfits).ended _ herror
  exact hacyclic.not_endless ((Resolver.plants_construction hfits).endless_iff.1 ⟨id, hmem⟩)

theorem WellFormed.deploymentGraph_ne_endless (ht : t.WellFormed) (hacyclic : t.NoConstantCycle)
    {config : Config} (id : DeclId) :
    (t.deploymentGraph contract creation config).result ≠ .error (.endless id) := by
  intro hends
  rcases failure_of_deploymentGraph hends with ⟨_, ⟨⟩, _⟩ | ⟨_, _, ⟨⟩⟩ | ⟨r, hr, herror⟩
  obtain ⟨hfits, rfl, _⟩ := Resolver.fits_of_resolver ht hr
  obtain ⟨p, _, hmem⟩ := (Build.accounted_deployment hfits _ _).ended _ herror
  exact hacyclic.not_endless (Resolver.plants_deployment.endless_iff.1 ⟨id, hmem⟩)

/-- **Walked code decides.**  Unless some of the walked code is endless, a graph of the construction
fails to be built with an error if and only if walked code is malformed.  So does a graph of the
deployed code, with the creation graph of the same tree.  With a graph that comes from elsewhere, a
pointer that it hands on and that is walked can also name no callable.  Where no constants refer to
each other in a cycle, no code is endless. -/
theorem walked_code_decides {steps : List Step} (ht : ofSteps steps = .ok t) {r : Resolver}
    (hr : t.resolver contract = .ok r) :
    DecidedBy (r.WalksMalformed r.constructionSeed fun _ => False)
      (r.WalksEndless r.constructionSeed fun _ => False) (t.creationGraph contract).result ∧
    (∀ creation config, (t.creationGraph contract).result = .ok creation →
      DecidedBy (r.WalksMalformed r.deploymentSeed (Build.Carried creation.pointers config))
        (r.WalksEndless r.deploymentSeed (Build.Carried creation.pointers config))
        (t.deploymentGraph contract creation config).result) ∧
    (∀ creation config, creation.Built → creation.contract = contract →
      DecidedBy
        (r.WalksMalformed r.deploymentSeed (Build.Carried creation.pointers config) ∨
          ∃ id, id ∈ creation.pointers ∧ t.callable? id = none ∧
            r.Walked r.deploymentSeed (Build.Carried creation.pointers config) (.callable id))
        (r.WalksEndless r.deploymentSeed (Build.Carried creation.pointers config))
        (t.deploymentGraph contract creation config).result) ∧
    (t.NoConstantCycle → ∀ seed carried, ¬ r.WalksEndless seed carried) := by
  have hwell := wellFormed_of_ofSteps ht
  obtain ⟨hfits, rfl, _⟩ := Resolver.fits_of_resolver hwell hr
  have hstarts := Resolver.starts_entrySites hfits
  refine ⟨?_, fun creation config hcreation => ?_, fun creation config hbuilt hsame => ?_,
    fun hacyclic seed carried => ?_⟩
  · have hdecided := hwell.decidedBy_creation hr
    rwa [Resolver.fails_iff (Resolver.starts_creationSeeds hfits)
      (Resolver.plants_construction hfits) fun _ h => h.elim] at hdecided
  · have hsame := hwell.contract_of_creationGraph hcreation
    have hdecided := hwell.decidedBy_deployment hr config (.creation ht hcreation) hsame
    rwa [Resolver.fails_iff hstarts Resolver.plants_deployment fun id hid =>
      hwell.callable?_pointers hcreation hid.2] at hdecided
  · have hdecided := hwell.decidedBy_deployment hr config hbuilt hsame
    have hdangling : (∃ id, r.Walked r.deploymentSeed (Build.Carried creation.pointers config)
          (.callable id) ∧ r.tree.callable? id = none) ↔
        ∃ id, id ∈ creation.pointers ∧ r.tree.callable? id = none ∧
          r.Walked r.deploymentSeed (Build.Carried creation.pointers config) (.callable id) := by
      constructor
      · rintro ⟨id, hwalked, hnone⟩
        -- Whatever else is walked is a callable.
        have hqueued := Resolver.plants_deployment.queued_of_walked hwalked id rfl
        rcases Resolver.Found.callable_or_carried hstarts hqueued with hsome | hcarried
        · rw [hnone] at hsome
          cases hsome
        · exact ⟨id, hcarried.2, hnone, hwalked⟩
      · rintro ⟨id, _, hnone, hwalked⟩
        exact ⟨id, hwalked, hnone⟩
    rwa [Resolver.Fails, hdangling] at hdecided
  · rintro ⟨_, _, hends⟩
    exact hacyclic.not_endless hends

theorem depot_walked_code_decides : ∃ r, Depot.tree.resolver ⟨0⟩ = .ok r ∧
    (¬ r.WalksMalformed r.constructionSeed fun _ => False) ∧
    r.WalksMalformed r.deploymentSeed (Build.Carried Depot.creation.pointers .standard) ∧
    ¬ r.WalksEndless r.deploymentSeed (Build.Carried Depot.creation.pointers .standard) := by
  obtain ⟨r, hr⟩ : ∃ r, Depot.tree.resolver ⟨0⟩ = .ok r := exists_ok_of_isOk (by cbv)
  obtain ⟨hcreation, hdeployment, _, hends⟩ := walked_code_decides Depot.ofSteps_steps hr
  exact ⟨r, hr, (hcreation.graph_iff.1 ⟨_, Depot.creationGraph_tree⟩).1,
    (hdeployment _ _ Depot.creationGraph_tree).of_error ⟨_, Depot.deploymentGraph_tree⟩,
    hends Depot.noConstantCycle_tree _ _⟩

end Tree

/-! ### A hall

The initializers of two constants name each other, and one of them names what is not declared as
well.  A function names the other constant. -/

namespace Hall

/-- The name that nothing declares. -/
def ghost : Expr := .plain "ghost" (some ⟨77⟩)

def run : Function :=
  ⟨⟨3⟩, "run", some ⟨0⟩, .function, .public, false, [], [], [],
    some [.eval (.plain "front" (some ⟨1⟩))]⟩

def steps : List Step :=
  [ .contract "Hall" .contract false [],
    .variable ⟨some ⟨0⟩, "front", "uint", false, true, false, [],
      some (.binary {} (.plain "back" (some ⟨2⟩)) "+" ghost)⟩,
    .variable ⟨some ⟨0⟩, "back", "uint", false, true, false, [],
      some (.plain "front" (some ⟨1⟩))⟩,
    .function ⟨some ⟨0⟩, "run", .function, none, false, [], [], [],
      .written [.eval (.plain "front" (some ⟨1⟩))]⟩ ]

def tree : Tree := (Tree.ofSteps steps).toOption.getD {}

def creation : CallGraph := (tree.creationGraph ⟨0⟩).result.toOption.getD ⟨⟨0⟩, "", ∅, ∅, ∅, ∅⟩

theorem creationGraph_tree : (tree.creationGraph ⟨0⟩).result = .ok creation :=
  eq_ok_of_isOk (by cbv) _

theorem deploymentGraph_tree :
    (tree.deploymentGraph ⟨0⟩ creation .standard).result = .error (.endless ⟨1⟩) := by
  cbv

theorem callable?_run : tree.callable? ⟨3⟩ = some (.function run) := by cbv

theorem code_ghost : tree.Code (Callable.function run).Root ghost := by
  have hroot : (Callable.function run).Root (.plain "front" (some ⟨1⟩)) :=
    .inr ⟨.eval _, ⟨_, rfl, _, List.mem_singleton_self _, .refl⟩, .eval⟩
  have hvalue : tree.constantValue? ⟨1⟩ =
      some (.binary {} (.plain "back" (some ⟨2⟩)) "+" ghost) := by cbv
  exact .part (.constant (.root hroot) rfl hvalue) .right

theorem malformed_run {r : Resolver} (htree : r.tree = tree) : r.Malformed (.function run) := by
  have hghost : r.tree.find? ⟨77⟩ = none := by
    rw [htree]
    cbv
  refine .inl ⟨ghost, ?_, .unknown rfl rfl hghost⟩
  rw [htree]
  exact code_ghost

theorem exists_resolver : ∃ r, tree.resolver ⟨0⟩ = .ok r ∧ ∃ f ∈ r.entryPoints, f.id = ⟨3⟩ := by
  have hids : (tree.resolver ⟨0⟩).toOption.map (fun r => r.entryPoints.map Function.id) =
      some [⟨3⟩] := by cbv
  obtain ⟨r, hr⟩ : ∃ r, tree.resolver ⟨0⟩ = .ok r := exists_ok_of_isOk (by cbv)
  rw [hr] at hids
  replace hids : r.entryPoints.map Function.id = [⟨3⟩] := Option.some.inj hids
  refine ⟨r, hr, List.mem_map.1 ?_⟩
  rw [hids]
  exact List.mem_singleton_self _

end Hall

/-! ### A lodge

A function calls a pointer.  In another program, a contract with the same id takes one, to a callable
that this program does not have. -/

namespace Lodge

def rung : Stmt := .eval (.callOf ((Expr.plain "local" none).withFunctionType .internal) [])

def steps : List Step :=
  [ .contract "Lodge" .contract false [],
    .function ⟨some ⟨0⟩, "ring", .function, none, false, [], [], [], .written [rung]⟩ ]

def tree : Tree := (Tree.ofSteps steps).toOption.getD {}

def otherSteps : List Step :=
  [ .contract "Lodge" .contract false [],
    .variable ⟨some ⟨0⟩, "hook", "function()", false, false, false, [],
      some (.functionRef "chime" ⟨2⟩)⟩,
    .function ⟨some ⟨0⟩, "chime", .function, some .internal, false, [], [], [], .usual⟩ ]

def other : Tree := (Tree.ofSteps otherSteps).toOption.getD {}

def creation : CallGraph := (other.creationGraph ⟨0⟩).result.toOption.getD ⟨⟨0⟩, "", ∅, ∅, ∅, ∅⟩

theorem creationGraph_other : (other.creationGraph ⟨0⟩).result = .ok creation :=
  eq_ok_of_isOk (by cbv) _

theorem built_creation : creation.Built :=
  .creation (eq_ok_of_isOk (by cbv) _ : Tree.ofSteps otherSteps = .ok other)
    creationGraph_other

theorem deploymentGraph_tree :
    (tree.deploymentGraph ⟨0⟩ creation .standard).result = .error (Error.notFound ⟨2⟩) := by
  cbv

theorem not_malformed {r : Resolver} (htree : r.tree = tree) {id : DeclId} {c : Callable}
    (hc : r.tree.callable? id = some c) : ¬ r.Malformed c := by
  have hids : tree.ids = [⟨0⟩, ⟨1⟩] := by cbv
  have hid : id ∈ tree.ids := Tree.mem_ids.2 (htree ▸ Tree.declares_of_callable? hc)
  have hcontract : tree.callable? ⟨0⟩ = none := by cbv
  have hring : r.code ⟨1⟩ = [.site ⟨.callable ⟨1⟩, .indirect, .internalDispatch⟩] := by
    cases r
    cases htree
    cbv
  rw [hids, List.mem_pair] at hid
  rcases hid with rfl | rfl
  · rw [htree, hcontract] at hc
    cases hc
  · rw [← Resolver.error_mem_code hc, hring]
    simp

end Lodge

/-- **Malformed code is not all that decides**: the hall has malformed code that is walked, and
no error is returned, and the lodge has none, and an error is returned. -/
theorem malformed_not_iff_error :
    (∃ r, Hall.tree.resolver ⟨0⟩ = .ok r ∧
      r.WalksMalformed r.deploymentSeed (Build.Carried Hall.creation.pointers .standard) ∧
      ¬ ∃ e : Error, (Hall.tree.deploymentGraph ⟨0⟩ Hall.creation .standard).result = .error e) ∧
    ∃ r, Lodge.tree.resolver ⟨0⟩ = .ok r ∧ Lodge.creation.Built ∧ Lodge.creation.contract = ⟨0⟩ ∧
      (¬ r.WalksMalformed r.deploymentSeed (Build.Carried Lodge.creation.pointers .standard)) ∧
      ∃ e : Error, (Lodge.tree.deploymentGraph ⟨0⟩ Lodge.creation .standard).result = .error e := by
  constructor
  · obtain ⟨r, hr, f, hf, hid⟩ := Hall.exists_resolver
    obtain ⟨htree, _⟩ := Tree.of_resolver hr
    have hcallable : r.tree.callable? ⟨3⟩ = some (.function Hall.run) := by
      rw [htree, Hall.callable?_run]
    refine ⟨r, hr, ⟨.callable ⟨3⟩, .start ⟨f, hf, hid⟩, _, hcallable, Hall.malformed_run htree⟩, ?_⟩
    rintro ⟨e, he⟩
    cases Hall.deploymentGraph_tree.symm.trans he
  · obtain ⟨r, hr⟩ : ∃ r, Lodge.tree.resolver ⟨0⟩ = .ok r := exists_ok_of_isOk (by cbv)
    obtain ⟨htree, _⟩ := Tree.of_resolver hr
    refine ⟨r, hr, Lodge.built_creation, by cbv, ?_, _, Lodge.deploymentGraph_tree⟩
    rintro ⟨p, _, hmalformed⟩
    cases p with
    | seed =>
      obtain ⟨_, he, _⟩ := hmalformed
      exact Resolver.not_code_of_no_root he
    | callable id =>
      obtain ⟨c, hc, hmalformed⟩ := hmalformed
      exact Lodge.not_malformed htree hc hmalformed

end ContractCalls
