import ContractCalls.Proofs.Build.Comparison
import ContractCalls.Proofs.Code.Agreement
import ContractCalls.Proofs.Code.Shuffled
import ContractCalls.Proofs.Graph.Dispatch
import ContractCalls.Proofs.Graph.Outcomes

/-!
# The order of code

In what order statements stand in their blocks, and invocations in the heads of functions, decides
the order in which callables are queued and pointers released, and which of several errors
ends a build.  It does not decide what is built: `order_of_code_has_no_part`.

Code in another order tells the same findings (`code_subset`), so a build finds the same
(`found_alike`).  It fails in both trees or in none, and the graphs are determined by what is found
(`Tells.ext`).
-/

namespace ContractCalls

open Finding

theorem Tree.Agrees.requireCallable_error {t t' : Tree} {kept : DeclId → Prop}
    (h : t.Agrees t' kept) {id : DeclId} {e : Error} (he : t.requireCallable id = .error e) :
    t'.requireCallable id = .error e := by
  rcases cases_of_map_eq (h.sameButCode.map_requireCallable id) with ⟨_, he', hsame⟩ | ⟨_, _, _, hc, _⟩
  · cases he.symm.trans hsame
    exact he'
  · cases he.symm.trans hc

namespace Resolver

variable {r : Resolver} {t' : Tree} {seeds : List Finding} {carried : DeclId → Prop}

theorem samePlaceholders_alike (h : r.tree.Alike t') :
    r.SamePlaceholders (r.onTree t') fun _ => True := by
  intro target _ function
  have htree : (r.onTree t').tree = t' := rfl
  have hmodifier : (t'.requireModifier target).map Modifier.hasPlaceholder =
      (r.tree.requireModifier target).map Modifier.hasPlaceholder := by
    rcases h.agrees.cases target with ⟨hd, hd'⟩ | ⟨d, d', hd, hd', hsame⟩
    · rw [Tree.requireModifier, Tree.requireModifier, Tree.require, Tree.require, hd, hd']
    · have hkind := hsame Declaration.blind_kind
      simp only [Tree.requireModifier, Tree.require, hd, hd']
      cases d with
      | modifier m =>
        obtain ⟨m', rfl⟩ : ∃ m', d' = .modifier m' := by
          cases d' with
          | modifier m' => exact ⟨m', rfl⟩
          | _ => cases hkind
        have hm : r.tree.modifier? target = some m := by
          rw [Tree.modifier?, hd]
          rfl
        have hm' : t'.modifier? target = some m' := by
          rw [Tree.modifier?, hd']
          rfl
        exact congrArg Except.ok (h.hasPlaceholder hm hm')
      | _ => cases d' <;> first | rfl | cases hkind
  rw [ofPlaceholder, ofPlaceholder, htree]
  cases hm : r.tree.requireModifier target <;> cases hm' : t'.requireModifier target <;>
    rw [hm, hm'] at hmodifier
  · rw [Except.error.inj hmodifier]
  · cases hmodifier
  · cases hmodifier
  · simp only [Except.ok.inj hmodifier]

theorem findings_subset {n : Node} {os os' : List Occurrence} (h : os ⊆ os') :
    r.findings n os ⊆ r.findings n os' := by
  intro f hf
  rw [findings, Tree.inlined_eq_flatMap] at hf ⊢
  simp only [List.mem_flatMap] at hf ⊢
  obtain ⟨o, ⟨name, hname, ho⟩, hf⟩ := hf
  exact ⟨o, ⟨name, h hname, ho⟩, hf⟩

/-- **Code in another order tells the same.** -/
theorem code_subset (h : r.tree.Alike t') (id : DeclId) : r.code id ⊆ (r.onTree t').code id := by
  intro f hf
  cases hc : r.tree.requireCallable id with
  | error e =>
    have hc' : (r.onTree t').tree.requireCallable id = .error e := h.agrees.requireCallable_error hc
    rw [code, hc] at hf
    rw [code, hc']
    exact hf
  | ok c =>
    have hsome : r.tree.callable? id = some c := Tree.require_eq_ok.1 hc
    have hid := h.code id
    rw [hsome] at hid
    generalize hsome' : t'.callable? id = some' at hid
    cases hid with
    | some hperm =>
      rw [code_eq hsome] at hf
      rw [code_eq (r := r.onTree t') hsome',
        (matches_onTree h.agrees).findings_eq (samePlaceholders_alike h) fun _ _ => trivial]
      exact findings_subset hperm.subset hf

/-- **A build finds the same** in code in another order. -/
theorem found_alike (h : r.tree.Alike t') :
    (r.onTree t').Found seeds carried = r.Found seeds carried := by
  funext f
  exact propext ⟨.mono (code_subset (r := r.onTree t') h.symm) fun _ _ => id,
    .mono (code_subset h) fun _ _ => id⟩

theorem Fits.alike (hfits : r.Fits) (h : r.tree.Alike t') : (r.onTree t').Fits := by
  have hcallable : ∀ id, (r.tree.callable? id).isSome = true → (t'.callable? id).isSome = true := by
    intro id hid
    have hcode := h.code id
    generalize r.tree.callable? id = c, t'.callable? id = c' at hid hcode ⊢
    cases hcode with
    | none => exact hid
    | some => rfl
  refine ⟨h.wellFormed hfits.tree, fun b hb => ?_, fun id target hid => ?_, fun id family hid => ?_⟩
  · have hb := hfits.contracts b hb
    rw [← hb]
    exact h.agrees.bind_view Declaration.blind_contract? b.id
  · exact hcallable target (hfits.table id target hid)
  · exact hcallable id (hfits.families id family hid)

end Resolver

namespace Build

variable {r : Resolver} {t' : Tree}

theorem creation_alike (hfits : r.Fits) (h : r.tree.Alike t') (hok : (creation r).error = none) :
    (creation (r.onTree t')).error = none ∧
      (creation (r.onTree t')).graph = (creation r).graph := by
  have hseeds : (r.onTree t').creationSeeds = r.creationSeeds :=
    Resolver.creationSeeds_onTree h.agrees (Resolver.samePlaceholders_alike h) fun _ _ => trivial
  have hfails' := creation_fails_iff (hfits.alike h)
  rw [hseeds, Resolver.found_alike h] at hfails'
  refine alike_of_found (creation_fails_iff hfits) hfails'
    (fun hok => (finished_creation hok).tells) (fun hok' => ?_)
    ((title_creation _).trans (title_creation r).symm) hok
  have htells' := (finished_creation hok').tells
  rwa [hseeds, Resolver.found_alike h] at htells'

theorem deployment_alike (hfits : r.Fits) (h : r.tree.Alike t') {pointers : IdSet}
    (hplain : ∀ id ∈ pointers, id.Plain) {config : Config}
    (hok : (deployment r pointers config).error = none) :
    (deployment (r.onTree t') pointers config).error = none ∧
      (deployment (r.onTree t') pointers config).graph = (deployment r pointers config).graph := by
  have hseeds : entrySites (r.onTree t') = entrySites r := Resolver.entrySites_onTree h.agrees
  have hfits' := hfits.alike h
  have hfails' : (deployment (r.onTree t') pointers config).error ≠ none ↔ _ :=
    deployment_fails_iff hfits' hplain
  rw [hseeds, Resolver.found_alike h] at hfails'
  refine alike_of_found (deployment_fails_iff hfits hplain) hfails'
    (fun hok => (finished_deployment hfits hok).tells) (fun hok' => ?_)
    ((title_deployment _ _ _).trans (title_deployment r _ _).symm) hok
  have htells' := (finished_deployment hfits' hok').tells
  rwa [hseeds, Resolver.found_alike h] at htells'

end Build

/-! ### A rota

A function calls a pointer before it takes one, and calls the same function by its name.  In another
order the pointer is known before it is called. -/

namespace Rota

def early : Invocation := ⟨⟨"early", some ⟨1⟩, .virtual⟩, []⟩

def late : Invocation := ⟨⟨"late", some ⟨2⟩, .virtual⟩, []⟩

def called : Stmt := .eval (.callOf ((Expr.plain "local" none).withFunctionType .internal) [])

def taken : Stmt := .eval (.functionRef "work" ⟨3⟩)

def named : Stmt := .eval (.internalCall "work" ⟨3⟩ [])

def turn : Function :=
  ⟨⟨4⟩, "turn", some ⟨0⟩, .function, .public, false, [], [], [early, late],
    some [.block [called, taken], named]⟩

def steps : List Step :=
  [ .contract "Rota" .contract false [],
    .modifier ⟨⟨0⟩, "early", false, [], [], .usual⟩,
    .modifier ⟨⟨0⟩, "late", false, [], [], .usual⟩,
    .function ⟨some ⟨0⟩, "work", .function, some .internal, false, [], [], [], .usual⟩,
    .function ⟨some ⟨0⟩, "turn", .function, none, false, [], [], [.written early, .written late],
      .written [.block [called, taken], named]⟩ ]

def tree : Tree := (Tree.ofSteps steps).toOption.getD {}

def creation : CallGraph := (tree.creationGraph ⟨0⟩).result.toOption.getD ⟨⟨0⟩, "", ∅, ∅, ∅, ∅⟩

def deployed : CallGraph :=
  (tree.deploymentGraph ⟨0⟩ creation .standard).result.toOption.getD ⟨⟨0⟩, "", ∅, ∅, ∅, ∅⟩

/-- The rota in another order. -/
def reordered : Tree :=
  tree.withCode ⟨4⟩ [late, early] (some [named, .block [taken, called]])

theorem ofSteps_steps : Tree.ofSteps steps = .ok tree := eq_ok_of_isOk (by cbv) _

theorem creationGraph_tree : (tree.creationGraph ⟨0⟩).result = .ok creation :=
  eq_ok_of_isOk (by cbv) _

theorem deploymentGraph_tree :
    (tree.deploymentGraph ⟨0⟩ creation .standard).result = .ok deployed :=
  eq_ok_of_isOk (by cbv) _

theorem find?_turn : tree.find? ⟨4⟩ = some (.function turn) := by cbv

theorem shuffled_reordered : tree.Shuffled reordered := by
  refine Tree.shuffled_withCode find?_turn (.function (.swap _ _ _) (.some ?_))
  refine .trans (.swap _ _ _) (.cons (.same _) (.cons (.block ?_) .nil))
  exact .swap _ _ _

end Rota

namespace Tree

variable {t t' : Tree} {contract : DeclId} {g : CallGraph}

theorem Alike.creationGraph (h : t.Alike t') (ht : t.WellFormed)
    (hg : (t.creationGraph contract).result = .ok g) :
    (t'.creationGraph contract).result = .ok g := by
  obtain ⟨r, hr, rfl, hfits, _⟩ := exists_creation ht hg
  obtain ⟨_, hr'⟩ := h.agrees.resolver_eq hr
  rw [creationGraph_of_resolver hr, Build.outcome_eq_ok_iff] at hg
  obtain ⟨hok, hgraph⟩ := hg
  rw [creationGraph_of_resolver hr', Build.outcome_eq_ok_iff]
  obtain ⟨hok', hgraph'⟩ := Build.creation_alike hfits h hok
  exact ⟨hok', hgraph'.trans hgraph⟩

theorem Alike.deploymentGraph (h : t.Alike t') (ht : t.WellFormed) {creation : CallGraph}
    (hplain : ∀ id ∈ creation.pointers, id.Plain) (hsame : creation.contract = contract)
    {config : Config} (hg : (t.deploymentGraph contract creation config).result = .ok g) :
    (t'.deploymentGraph contract creation config).result = .ok g := by
  obtain ⟨r, hr, rfl, hfits, _⟩ := exists_deployment ht hg
  obtain ⟨_, hr'⟩ := h.agrees.resolver_eq hr
  rw [← ht.contract_of_resolver hr] at hsame
  rw [deploymentGraph_of_resolver hr hsame, Build.outcome_eq_ok_iff] at hg
  obtain ⟨hok, hgraph⟩ := hg
  rw [deploymentGraph_of_resolver hr' hsame, Build.outcome_eq_ok_iff]
  obtain ⟨hok', hgraph'⟩ := Build.deployment_alike hfits h hplain hok
  exact ⟨hok', hgraph'.trans hgraph⟩

/-- **The order of code has no part in a graph.**  The creation graph is built in both trees or in
none, and is the same.  So is the deployment graph, each with the creation graph of its tree. -/
theorem order_of_code_has_no_part {steps : List Step} (ht : ofSteps steps = .ok t)
    (h : t.Shuffled t') (contract : DeclId) :
    (∀ g, (t.creationGraph contract).result = .ok g ↔ (t'.creationGraph contract).result = .ok g) ∧
    ∀ creation creation' config, (t.creationGraph contract).result = .ok creation →
      (t'.creationGraph contract).result = .ok creation' → ∀ g,
        (t.deploymentGraph contract creation config).result = .ok g ↔
          (t'.deploymentGraph contract creation' config).result = .ok g := by
  have hwell := wellFormed_of_ofSteps ht
  have halike := h.alike
  have hwell' := halike.wellFormed hwell
  refine ⟨fun g => ⟨halike.creationGraph hwell, halike.symm.creationGraph hwell'⟩, ?_⟩
  intro creation creation' config hcreation hcreation' g
  cases hcreation'.symm.trans (halike.creationGraph hwell hcreation)
  have hsame := hwell.contract_of_creationGraph hcreation
  have hplain : ∀ id ∈ creation.pointers, id.Plain := fun id hid =>
    (CallGraph.Built.creation ht hcreation).plain_pointers hid
  exact ⟨halike.deploymentGraph hwell hplain hsame, halike.symm.deploymentGraph hwell' hplain hsame⟩

theorem rota_order_of_code_has_no_part :
    (Rota.reordered.creationGraph ⟨0⟩).result = .ok Rota.creation ∧
      (Rota.reordered.deploymentGraph ⟨0⟩ Rota.creation .standard).result = .ok Rota.deployed ∧
      Rota.deployed.dispatchTargets = [⟨3⟩] := by
  have hrota := order_of_code_has_no_part Rota.ofSteps_steps Rota.shuffled_reordered ⟨0⟩
  have hcreation := (hrota.1 _).1 Rota.creationGraph_tree
  have hdeployed := (hrota.2 _ _ .standard Rota.creationGraph_tree hcreation _).1
    Rota.deploymentGraph_tree
  exact ⟨hcreation, hdeployed, by cbv⟩

end Tree

end ContractCalls
