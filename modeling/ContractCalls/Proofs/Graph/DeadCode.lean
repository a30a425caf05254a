import ContractCalls.Proofs.Build.Comparison
import ContractCalls.Proofs.Code.Agreement
import ContractCalls.Proofs.Graph.Connected

/-!
# Dead code

The code of a callable that is not in a graph has no part in it: `dead_code_has_no_part`.
Whatever stands there, nothing at all or what would be an error to read, the same graph is built,
and even in the same way.

A build in another tree takes in the same findings as long as the trees agree on the callables that
are read (`Stage.drain_onTree`).  These are the callables of the graph that is built in the end,
since nothing leaves a graph that entered it (`Stage.mem_edges_finishQueue`).
-/

namespace ContractCalls

open Finding

namespace Build

variable {r : Resolver} {t' : Tree} {kept : DeclId → Prop} {b : Build} {fs : List Finding}
  {read : List DeclId}

namespace Stage

theorem keeps (h : Stage r (fun _ => True) b fs read) : Keeps (· ∈ b.graph.edges) fs :=
  fun _ hid => h.records.mem_edges_of_queued (.inl hid)

theorem mem_edges_drain (h : Stage r (fun _ => True) b fs read) (hok : (b.drain r).error = none)
    {k : DeclId} (hk : k ∈ b.graph.edges) : k ∈ (b.drain r).graph.edges := by
  obtain ⟨more, read', hstage, _⟩ := h.drain (fun _ _ _ _ => trivial) hok
  exact h.records.graph.edges_mono hstage.records.graph (fun _ => List.mem_append_left more) hk

/-- **The queue is read alike** in trees that agree on the callables of the graph. -/
theorem drain_onTree (h : Stage r (fun _ => True) b fs read) (hagrees : r.tree.Agrees t' kept)
    (hok : (b.drain r).error = none) (hkept : ∀ k ∈ (b.drain r).graph.edges, kept k) :
    b.drain (r.onTree t') = b.drain r := by
  induction hn : b.pending r.tree using Nat.strongRecOn generalizing b fs read with
  | _ n ih =>
    cases hq : b.queue with
    | nil => rw [drain_nil h.records.error hq, drain_nil h.records.error hq]
    | cons id rest =>
      rw [drain_cons h.records.error hq] at hok hkept
      have hread := h.read_next (fun _ _ _ _ => trivial) hq (error_of_drain hok)
      have hid : kept id := by
        have hmem := hread.reading.entries id (by simp)
        exact hkept id (hread.mem_edges_drain hok hmem)
      have hkeeps : Keeps kept (r.code id) := by
        intro k hk
        have hmem := hread.keeps.subset (List.subset_append_right fs (r.code id)) k hk
        exact hkept k (hread.mem_edges_drain hok hmem)
      obtain ⟨c, hc⟩ := Resolver.exists_callable? fun e he =>
        hread.records.sound e (List.mem_append_right fs he)
      have hlt := pending_read_lt (t := r.tree) hq (r.code id) (Tree.declares_of_callable? hc)
      rw [drain_cons h.records.error hq, drain_cons h.records.error hq,
        Resolver.code_onTree hagrees hid hkeeps]
      exact ih _ (hn ▸ hlt) hread hok hkept rfl

theorem mem_edges_finishQueue (h : Stage r (fun _ => True) b fs read)
    (hok : (b.finishQueue r).error = none) {k : DeclId} (hk : k ∈ b.graph.edges) :
    k ∈ (b.finishQueue r).graph.edges := by
  rw [h.finishQueue_eq] at hok ⊢
  exact (h.noted _).mem_edges_drain hok hk

theorem finishQueue_onTree (h : Stage r (fun _ => True) b fs read)
    (hagrees : r.tree.Agrees t' kept) (hok : (b.finishQueue r).error = none)
    (hkept : ∀ k ∈ (b.finishQueue r).graph.edges, kept k) :
    b.finishQueue (r.onTree t') = b.finishQueue r := by
  rw [h.finishQueue_eq] at hok hkept
  rw [h.finishQueue_eq, h.finishQueue_eq]
  exact (h.noted _).drain_onTree hagrees hok hkept

end Stage

/-! ### Whole builds -/

/-- The seeds queue callables of the graph only, and the queue is read alike. -/
theorem seeded_onTree {seeds : List Finding} {phase : Phase} {c : Contract} {n : Node}
    (hagrees : r.tree.Agrees t' kept) (hanchored : AnchoredAt (· = Node.entryKey) seeds)
    (hok : ((((begin phase c).takeAll seeds).moveTo n).finishQueue r).error = none)
    (hkept : ∀ k ∈ ((((begin phase c).takeAll seeds).moveTo n).finishQueue r).graph.edges, kept k) :
    Keeps kept seeds ∧ (((begin phase c).takeAll seeds).moveTo n).finishQueue (r.onTree t') =
      (((begin phase c).takeAll seeds).moveTo n).finishQueue r := by
  have hseeded := stage_seeded (fun _ => False) hanchored hok |>.anyhow
  refine ⟨fun k hk => ?_, hseeded.finishQueue_onTree hagrees hok hkept⟩
  exact hkept k (hseeded.mem_edges_finishQueue hok (hseeded.keeps k hk))

/-- **Creation graphs are built alike** in trees that agree on their callables. -/
theorem creation_onTree (hagrees : r.tree.Agrees t' kept) (hok : (creation r).error = none)
    (hkept : ∀ k ∈ (creation r).graph.edges, kept k) : creation (r.onTree t') = creation r := by
  rw [creation_eq] at hok hkept
  obtain ⟨hkeeps, hsame⟩ := seeded_onTree hagrees Resolver.anchoredAt_creationSeeds hok hkept
  rw [creation_eq, creation_eq,
    Resolver.creationSeeds_onTree hagrees (Resolver.samePlaceholders_kept hagrees) hkeeps]
  exact hsame

theorem uncarried_onTree (hagrees : r.tree.Agrees t' kept) (hok : (uncarried r).error = none)
    (hkept : ∀ k ∈ (uncarried r).graph.edges, kept k) : uncarried (r.onTree t') = uncarried r := by
  rw [uncarried_eq] at hok hkept
  rw [uncarried_eq, uncarried_eq, Resolver.entrySites_onTree hagrees]
  exact (seeded_onTree hagrees (Resolver.anchoredAt_entrySites _) hok hkept).2

/-- **Deployment graphs are built alike** in trees that agree on their callables. -/
theorem deployment_onTree (hagrees : r.tree.Agrees t' kept) {pointers : IdSet} {config : Config}
    (hok : (deployment r pointers config).error = none)
    (hkept : ∀ k ∈ (deployment r pointers config).graph.edges, kept k) :
    deployment (r.onTree t') pointers config = deployment r pointers config := by
  rw [deployment_eq] at hok hkept
  rw [deployment_eq, deployment_eq]
  cases hcarries : (uncarried r).carries config with
  | false =>
    rw [hcarries, if_neg Bool.false_ne_true] at hok hkept
    rw [uncarried_onTree hagrees hok hkept, hcarries]
    rfl
  | true =>
    rw [hcarries, if_pos rfl] at hok hkept
    have herror : (uncarried r).error = none := (carries_iff.1 hcarries).1
    obtain ⟨more, read, hstage, _⟩ := stage_uncarried (fun _ => False) herror
    have hnoted := hstage.anyhow.noted (.carry pointers.size r.contract.name)
    have htaken := hnoted.takeCarried (error_of_finishQueue hok) fun _ _ => trivial
    have hmono : ∀ k ∈ (uncarried r).graph.edges, kept k := by
      intro k hk
      refine hkept k (htaken.mem_edges_finishQueue hok ?_)
      exact hnoted.records.graph.edges_mono htaken.records.graph
        (fun _ => List.mem_append_left _) hk
    rw [uncarried_onTree hagrees herror hmono, hcarries]
    exact htaken.finishQueue_onTree hagrees hok hkept

end Build

namespace Tree

variable {t t' : Tree} {g : CallGraph} {contract : DeclId}

/-- No declaration has an id that is a key but no callable. -/
theorem Agrees.of_callables (h : t.Agrees t' (· ∈ g.callables)) : t.Agrees t' (· ∈ g.edges) where
  outline := h.outline
  kept := by
    intro k hk
    by_cases hplain : k.Plain
    · exact h.kept k (CallGraph.mem_callables.2 ⟨hk, hplain⟩)
    · rcases h.cases k with ⟨hd, hd'⟩ | ⟨d, _, hd, _⟩
      · rw [hd, hd']
      · exact absurd (plain_of_declares (declares_of_find? hd)) hplain

/-- A creation graph depends on the code of its callables only. -/
theorem creationGraph_of_agrees (hg : (t.creationGraph contract).result = .ok g)
    (hagrees : t.Agrees t' (· ∈ g.callables)) :
    t'.creationGraph contract = t.creationGraph contract := by
  unfold creationGraph at hg
  cases hr : t.resolver contract with
  | error e =>
    rw [hr] at hg
    cases hg
  | ok r =>
    rw [hr] at hg
    obtain ⟨hok, rfl⟩ := Build.outcome_eq_ok hg
    obtain ⟨rfl, hresolver⟩ := hagrees.resolver_eq hr
    rw [creationGraph, creationGraph, hr, hresolver]
    simp only
    rw [Build.creation_onTree hagrees.of_callables hok fun k hk => hk]

/-- A deployment graph depends on the code of its callables only. -/
theorem deploymentGraph_of_agrees {creation : CallGraph} {config : Config}
    (hg : (t.deploymentGraph contract creation config).result = .ok g)
    (hagrees : t.Agrees t' (· ∈ g.callables)) :
    t'.deploymentGraph contract creation config = t.deploymentGraph contract creation config := by
  unfold deploymentGraph at hg
  cases hc : t.requireContract contract with
  | error e =>
    rw [hc] at hg
    cases hg
  | ok c =>
    simp only [hc] at hg
    split at hg
    next haccepted =>
      cases hr : Resolver.ofContract t c with
      | error e =>
        rw [hr] at hg
        cases hg
      | ok r =>
        rw [hr] at hg
        obtain ⟨hok, rfl⟩ := Build.outcome_eq_ok hg
        obtain ⟨rfl, hof⟩ := hagrees.ofContract_eq hr
        simp only [deploymentGraph, hagrees.requireContract_eq, hc, if_pos haccepted, hr, hof]
        rw [Build.deployment_onTree hagrees.of_callables hok fun k hk => hk]
    · cases hg

/-- **Dead code has no part in a graph.**  When a callable is not in a graph, any other code may
stand in its place: the same graph is built, in the same way. -/
theorem dead_code_has_no_part (t : Tree) (contract dead : DeclId) (invocations : List Invocation)
    (body : Option Block) :
    (∀ g, (t.creationGraph contract).result = .ok g → dead ∉ g.callables →
      (t.withCode dead invocations body).creationGraph contract = t.creationGraph contract) ∧
    ∀ creation config g, (t.deploymentGraph contract creation config).result = .ok g →
      dead ∉ g.callables →
      (t.withCode dead invocations body).deploymentGraph contract creation config =
        t.deploymentGraph contract creation config := by
  constructor
  · intro g hg hdead
    exact creationGraph_of_agrees hg (t.agrees_withCode invocations body hdead)
  · intro creation config g hg hdead
    exact deploymentGraph_of_agrees hg (t.agrees_withCode invocations body hdead)

theorem token_dead_code_has_no_part :
    (Token.tree.withCode ⟨6⟩ [] (some [.emit Token.callNote])).creationGraph ⟨4⟩ =
        Token.tree.creationGraph ⟨4⟩ ∧
      (Token.tree.withCode ⟨3⟩ [⟨⟨"locked", none, .virtual⟩, []⟩] none).deploymentGraph ⟨4⟩
          Token.creation .standard =
        Token.tree.deploymentGraph ⟨4⟩ Token.creation .standard := by
  have hmint : Token.creation.callables.contains ⟨6⟩ = false := by cbv
  have hconstructor : Token.deployed.callables.contains ⟨3⟩ = false := by cbv
  rw [← Bool.not_eq_true, List.contains_iff_mem] at hmint hconstructor
  exact ⟨(dead_code_has_no_part _ _ _ _ _).1 _ Token.creationGraph_tree hmint,
    (dead_code_has_no_part _ _ _ _ _).2 _ _ _ Token.deploymentGraph_tree hconstructor⟩

end Tree
end ContractCalls
