import ContractCalls.Proofs.Graph.Edges

/-!
# Graphs without loose ends

`nodes_reached_and_callees_kept` is about every graph that a build hands out, of the construction
or of the deployed code, whatever creation graph and settings it was given: each node can be
reached from the outside, and each callable that is a callee is a caller too, if only one
without callees.

`exists_creation` and `exists_deployment` lead from a graph that was handed out to the finished
build that it comes from.
-/

namespace ContractCalls

open Finding

theorem Build.outcome_eq_ok {phase : Phase} {b : Build} {g : CallGraph}
    (h : (b.outcome phase).result = .ok g) : b.error = none ∧ b.graph = g := by
  unfold outcome at h
  cases herror : b.error with
  | some e =>
    rw [herror] at h
    cases h
  | none =>
    rw [herror] at h
    exact ⟨rfl, Except.ok.inj h⟩

namespace Tree

variable {t : Tree} {contract : DeclId} {g : CallGraph}

theorem exists_creation (ht : t.WellFormed) (h : (t.creationGraph contract).result = .ok g) :
    ∃ r, t.resolver contract = .ok r ∧ r.tree = t ∧ r.Fits ∧ (Build.creation r).graph = g ∧
      Build.Finished r r.creationSeeds (fun _ => False) (Build.creation r) := by
  unfold creationGraph at h
  cases hr : t.resolver contract with
  | error e =>
    rw [hr] at h
    cases h
  | ok r =>
    rw [hr] at h
    obtain ⟨hfits, htree, _⟩ := Resolver.fits_of_resolver ht hr
    obtain ⟨hok, hgraph⟩ := Build.outcome_eq_ok h
    exact ⟨r, rfl, htree, hfits, hgraph, Build.finished_creation hok⟩

theorem exists_deployment (ht : t.WellFormed) {creation : CallGraph} {config : Config}
    (h : (t.deploymentGraph contract creation config).result = .ok g) :
    ∃ r, t.resolver contract = .ok r ∧ r.tree = t ∧ r.Fits ∧
      (Build.deployment r creation.pointers config).graph = g ∧
      Build.Finished r (Build.entrySites r) (Build.Carried creation.pointers config)
        (Build.deployment r creation.pointers config) := by
  unfold deploymentGraph at h
  cases hc : t.requireContract contract with
  | error e =>
    rw [hc] at h
    cases h
  | ok c =>
    simp only [hc] at h
    split at h
    · cases hr : Resolver.ofContract t c with
      | error e =>
        rw [hr] at h
        cases h
      | ok r =>
        rw [hr] at h
        have hresolver : t.resolver contract = .ok r := by
          rw [resolver, hc]
          exact hr
        obtain ⟨hfits, htree, _⟩ := Resolver.fits_of_resolver ht hresolver
        obtain ⟨hok, hgraph⟩ := Build.outcome_eq_ok h
        exact ⟨r, hresolver, htree, hfits, hgraph, Build.finished_deployment hfits hok⟩
    · cases h

/-- A build of the contract hands out the graph. -/
def Builds (t : Tree) (contract : DeclId) (g : CallGraph) : Prop :=
  (t.creationGraph contract).result = .ok g ∨
    ∃ creation config, (t.deploymentGraph contract creation config).result = .ok g

theorem Builds.exists_finished (ht : t.WellFormed) (h : t.Builds contract g) :
    ∃ r seeds carried b, r.Starts seeds ∧ Build.Finished r seeds carried b ∧ b.graph = g := by
  rcases h with h | ⟨creation, config, h⟩
  · obtain ⟨r, _, _, hfits, hgraph, hfinished⟩ := exists_creation ht h
    exact ⟨r, _, _, _, Resolver.starts_creationSeeds hfits, hfinished, hgraph⟩
  · obtain ⟨r, _, _, hfits, hgraph, hfinished⟩ := exists_deployment ht h
    exact ⟨r, _, _, _, Resolver.starts_entrySites hfits, hfinished, hgraph⟩

end Tree

/-! ### A token

A small program that has most of what makes edges: a base with a constructor that takes a pointer,
a modifier with a placeholder, arguments for a base, an initializer, and a pointer call. -/

namespace Token

def callNote : Expr := .internalCall "note" ⟨1⟩ []

def steps : List Step :=
  [ .contract "Base" .contract false [],
    .function ⟨some ⟨0⟩, "note", .function, some .internal, false, [], [], [], .usual⟩,
    .modifier ⟨⟨0⟩, "guarded", false, [], [], .written [.eval callNote, .placeholder]⟩,
    .function ⟨some ⟨0⟩, "", .constructor, none, false, [], [], [],
      .written [.eval (.functionRef "note" ⟨1⟩)]⟩,
    .contract "Token" .contract false [⟨⟨0⟩, [callNote]⟩],
    .variable ⟨some ⟨4⟩, "hook", "function()", false, false, false, [], some callNote⟩,
    .function ⟨some ⟨4⟩, "mint", .function, none, false, [], [], [.modifier ⟨2⟩ []],
      .written [.eval (.callOf (.functionRef "hook" ⟨5⟩) [])]⟩ ]

def tree : Tree := (Tree.ofSteps steps).toOption.getD {}

def creation : CallGraph := (tree.creationGraph ⟨4⟩).result.toOption.getD ⟨⟨4⟩, "", ∅, ∅, ∅, ∅⟩

theorem ofSteps_steps : Tree.ofSteps steps = .ok tree := eq_ok_of_isOk (by cbv) _

theorem creationGraph_tree : (tree.creationGraph ⟨4⟩).result = .ok creation :=
  eq_ok_of_isOk (by cbv) _

def deployed : CallGraph :=
  (tree.deploymentGraph ⟨4⟩ creation .standard).result.toOption.getD ⟨⟨4⟩, "", ∅, ∅, ∅, ∅⟩

theorem deploymentGraph_tree :
    (tree.deploymentGraph ⟨4⟩ creation .standard).result = .ok deployed :=
  eq_ok_of_isOk (by cbv) _

end Token

namespace Build.Finished

variable {r : Resolver} {seeds : List Finding} {carried : DeclId → Prop} {b : Build}

/-- What an edge leads to was queued, or it is the calls through pointers. -/
theorem queued_of_mem_targets (h : Finished r seeds carried b) (hstarts : r.Starts seeds)
    {k id : DeclId} (hid : id ∈ b.graph.targets k) :
    id = Node.internalDispatchKey ∨ Finding.Queued (r.Found seeds carried) id := by
  rcases (h.tells.targets k id).1 hid with ⟨x, y, ⟨f, hf, hedge⟩, _, rfl⟩ | ⟨_, hdispatch⟩
  · obtain ⟨hne, htarget, _⟩ := (hf.regular hstarts).callee x y hedge
    cases y with
    | callable id => exact .inr (.inl ⟨f, hf, htarget⟩)
    | entry => exact absurd rfl hne
    | internalDispatch => exact .inl rfl
  · exact .inr (.inr hdispatch)

/-- What an edge leads to is a callable of the graph, or the calls through pointers. -/
theorem mem_edges_of_callee (h : Finished r seeds carried b) (hstarts : r.Starts seeds) {k : DeclId}
    {id : DeclId} (hid : id ∈ b.graph.targets k) (hplain : id.Plain) : id ∈ b.graph.edges := by
  rcases h.queued_of_mem_targets hstarts hid with heq | hqueued
  · exact absurd heq hplain.2
  · exact (CallGraph.mem_callables.1 (h.mem_callables.2 ⟨hqueued, hplain⟩)).1

end Build.Finished

namespace CallGraph

variable {g : CallGraph}

theorem mem_adjacency {n : Node} {ns : List Node} : (n, ns) ∈ g.adjacency ↔
    ∃ k callees, g.edges[k]? = some callees ∧ .ofKey k = n ∧ callees.toList.map .ofKey = ns := by
  simp only [adjacency, List.mem_map, Prod.exists, Std.ExtTreeMap.mem_toList_iff_getElem?_eq_some,
    Prod.mk.injEq]

theorem mem_adjacency_iff {n : Node} {ns : List Node} : (n, ns) ∈ g.adjacency ↔
    n.key ∈ g.edges ∧ .ofKey n.key = n ∧ ns = g.callees n := by
  rw [mem_adjacency]
  constructor
  · intro hex
    obtain ⟨k, callees, hcallees, rfl, rfl⟩ := hex
    rw [CallGraph.callees, targets, Node.key_ofKey, hcallees]
    exact ⟨Std.ExtTreeMap.mem_iff_isSome_getElem?.2 (Option.isSome_of_eq_some hcallees), rfl, rfl⟩
  · intro hex
    obtain ⟨hkey, hn, rfl⟩ := hex
    obtain ⟨callees, hcallees⟩ := Option.isSome_iff_exists.1
      (Std.ExtTreeMap.mem_iff_isSome_getElem?.1 hkey)
    refine ⟨n.key, callees, hcallees, hn, ?_⟩
    rw [CallGraph.callees, targets, hcallees]
    rfl

theorem mem_callables_iff_adjacency {id : DeclId} :
    id ∈ g.callables ↔ ∃ ns, (.callable id, ns) ∈ g.adjacency := by
  simp only [mem_callables, mem_adjacency_iff, Node.ofKey_eq_callable, Node.key, true_and,
    exists_and_left, exists_eq, and_true]

/-- **No orphans, and no loose ends.**  In every graph that is built of a tree which was written,
each node is reached from the outside, and each callable among the callees of a node has
adjacency of its own. -/
theorem nodes_reached_and_callees_kept {steps : List Step} {t : Tree} (ht : Tree.ofSteps steps = .ok t)
    {contract : DeclId} (h : t.Builds contract g) :
    (∀ n ∈ g.nodes, n ∈ g.reachableFrom .entry) ∧
      ∀ n ns, (n, ns) ∈ g.adjacency → ∀ id, .callable id ∈ ns →
        ∃ ns', (.callable id, ns') ∈ g.adjacency := by
  obtain ⟨r, seeds, carried, b, hstarts, hfinished, rfl⟩ :=
    h.exists_finished (Tree.wellFormed_of_ofSteps ht)
  constructor
  · intro n hn
    obtain ⟨k, hk, rfl⟩ := mem_nodes.1 hn
    exact mem_reachableFrom_entry (hfinished.path hstarts hk)
  · intro n ns hadjacent id hid
    obtain ⟨k, callees, hcallees, _, rfl⟩ := mem_adjacency.1 hadjacent
    obtain ⟨k', hk', hkey⟩ := List.mem_map.1 hid
    obtain ⟨rfl, hplain⟩ := Node.ofKey_eq_callable.1 hkey
    have htarget : k' ∈ b.graph.targets k := by
      rw [targets, hcallees]
      exact Std.ExtTreeSet.mem_toList.1 hk'
    refine mem_callables_iff_adjacency.1 (mem_callables.2 ⟨?_, hplain⟩)
    exact hfinished.mem_edges_of_callee hstarts htarget hplain

theorem token_nodes_reached_and_callees_kept :
    (∀ n ∈ Token.deployed.nodes, n ∈ Token.deployed.reachableFrom .entry) ∧
      ∀ n ns, (n, ns) ∈ Token.deployed.adjacency → ∀ id, .callable id ∈ ns →
        ∃ ns', (.callable id, ns') ∈ Token.deployed.adjacency :=
  nodes_reached_and_callees_kept Token.ofSteps_steps (.inr ⟨_, _, Token.deploymentGraph_tree⟩)

end CallGraph

end ContractCalls
