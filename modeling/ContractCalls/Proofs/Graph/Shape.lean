import ContractCalls.Proofs.Build.Callers
import ContractCalls.Proofs.Graph.Dispatch
import ContractCalls.Proofs.Graph.Outcomes

/-!
# The shape of built graphs

In a graph that was built nothing leads to the outside, calls through pointers lead to callables
only, these two nodes are kept only with callees, and every other node and every pointer is a
callable of the tree, with an id that is not negative (`built_graphs_have_shape`).  This is also so
of pointers that were carried over from a graph of another tree.

An id that is negative would be mistaken for one of the two nodes which have no declaration, and the
graph would not tell: it keeps nodes by their keys.  So the same is shown of the journal, which says
what nodes were made as.  Both rest on one fact: whatever is queued is read in the end, and only
callables can be read (`Finished.callable?_of_queued`).
-/

namespace ContractCalls

open Finding

/-- The id is not negative, and it names a callable. -/
def Tree.NamesCallable (t : Tree) (id : DeclId) : Prop := 0 ≤ id.val ∧ (t.callable? id).isSome = true

/-- The nodes and edges of a graph of the tree are what they are meant to be. -/
structure CallGraph.Shape (g : CallGraph) (t : Tree) : Prop where
  entry : ∀ n, g.hasEdge n .entry = false
  dispatch : ∀ n ∈ g.callees .internalDispatch, ∃ id, n = .callable id
  /-- Nodes that are no callables are kept only with callees. -/
  kept : ∀ n ns, (n, ns) ∈ g.adjacency → n = .entry ∨ n = .internalDispatch → ns ≠ []
  /-- Every key but those of these two nodes is that of a callable. -/
  keys : ∀ k ∈ g.nodeKeys, k = Node.entryKey ∨ k = Node.internalDispatchKey ∨ t.NamesCallable k
  pointers : ∀ id ∈ g.pointers, t.NamesCallable id

/-- The nodes in an entry of a journal are what they are meant to be, as they were made. -/
def Entry.Shape (t : Tree) : Entry → Prop
  | .edge caller callee => callee ≠ .entry ∧
      (caller = .internalDispatch → ∃ id, callee = .callable id) ∧
      ∀ id, caller = .callable id ∨ callee = .callable id → t.NamesCallable id
  | .queue id => t.NamesCallable id
  | _ => True

theorem Tree.namesCallable_of_callable? {t : Tree} {id : DeclId} (h : (t.callable? id).isSome = true) :
    t.NamesCallable id := by
  obtain ⟨c, hc⟩ := Option.isSome_iff_exists.1 h
  obtain ⟨n, _, rfl⟩ := List.mem_map.1 (mem_ids.2 (declares_of_callable? hc))
  exact ⟨Int.natCast_nonneg n, h⟩

theorem Tree.NamesCallable.plain {t : Tree} {id : DeclId} (h : t.NamesCallable id) : id.Plain :=
  plain_of_callable? h.2

namespace Build.Finished

variable {r : Resolver} {seeds : List Finding} {carried : DeclId → Prop} {b : Build} {id : DeclId}

/-! ### What was queued -/

/-- **Whatever is queued is a callable**, also a pointer that was carried: it was read. -/
theorem callable?_of_queued (h : Finished r seeds carried b) (hstarts : r.Starts seeds)
    (hplain : ∀ id, carried id → id.Plain) (hid : Queued (r.Found seeds carried) id) :
    (r.tree.callable? id).isSome = true := by
  have hmem := h.mem_callables.2 ⟨hid, Resolver.Found.plain_of_queued hstarts hplain hid⟩
  obtain ⟨c, hc⟩ := h.exists_callable? hmem
  exact Option.isSome_of_eq_some hc

/-- Pointers are carried where pointers are called, so these are read as well. -/
theorem callable?_of_mem_pointers (h : Finished r seeds carried b) (hstarts : r.Starts seeds)
    (hplain : ∀ id, carried id → id.Plain) (hid : id ∈ b.graph.pointers) :
    (r.tree.callable? id).isSome = true := by
  obtain ⟨f, hf, hpointer⟩ := (h.tells.pointers id).1 hid
  cases hf with
  | seed hf => exact hstarts.resolved f hf id (.inr hpointer)
  | called _ _ hf => exact Resolver.resolved_code hstarts.fits _ hf id (.inr hpointer)
  | dispatched _ _ _ _ hf => exact Resolver.resolved_code hstarts.fits _ hf id (.inr hpointer)
  | carried hi hind hcarried =>
    refine h.callable?_of_queued hstarts hplain (.inr ⟨⟨_, hi, hind⟩, ?_⟩)
    exact ⟨_, .carried hi hind hcarried, hpointer⟩

/-! ### The graph -/

/-- What an edge leads to is a callable, or the calls through pointers. -/
theorem callable_of_mem_targets (h : Finished r seeds carried b) (hstarts : r.Starts seeds)
    (hplain : ∀ id, carried id → id.Plain) {k : DeclId} (hid : id ∈ b.graph.targets k) :
    id = Node.internalDispatchKey ∨ r.tree.NamesCallable id := by
  refine (h.queued_of_mem_targets hstarts hid).imp_right fun hqueued => ?_
  exact Tree.namesCallable_of_callable? (h.callable?_of_queued hstarts hplain hqueued)

theorem exists_mem_targets (h : Finished r seeds carried b) (hstarts : r.Starts seeds)
    (hplain : ∀ id, carried id → id.Plain) {k : DeclId} (hk : k ∈ b.graph.edges)
    (hspecial : ¬ k.Plain) : ∃ id, id ∈ b.graph.targets k := by
  have hqueued : ¬ Queued (r.Found seeds carried) k := fun hid =>
    hspecial (Resolver.Found.plain_of_queued hstarts hplain hid)
  rcases (h.tells.keys k).1 hk with
    ⟨x, y, ⟨f, hf, hedge⟩, rfl⟩ | htarget | hdispatch | ⟨rfl, id, hdispatch⟩
  · exact ⟨y.key, h.tells.mem_targets hf hedge⟩
  · exact absurd (.inl htarget) hqueued
  · exact absurd (.inr hdispatch) hqueued
  · exact ⟨id, h.tells.mem_targets_dispatch hdispatch⟩

theorem shape_graph (h : Finished r seeds carried b) (hstarts : r.Starts seeds)
    (hplain : ∀ id, carried id → id.Plain) : b.graph.Shape r.tree where
  entry := by
    intro n
    rw [CallGraph.hasEdge, Bool.eq_false_iff, Ne, Std.ExtTreeSet.contains_iff_mem]
    intro hmem
    rcases h.callable_of_mem_targets hstarts hplain hmem with heq | hcallable
    · cases heq
    · exact hcallable.plain.1 rfl
  dispatch := by
    intro n hn
    obtain ⟨k, hk, rfl⟩ := CallGraph.mem_callees.1 hn
    have hdispatch := (h.mem_targets_dispatch hstarts hplain).1 hk
    have hk := Resolver.Found.plain_of_queued hstarts hplain (.inr hdispatch)
    exact ⟨k, Node.ofKey_of_plain hk⟩
  kept := by
    intro n ns hns hspecial hnil
    obtain ⟨hkey, _, rfl⟩ := CallGraph.mem_adjacency_iff.1 hns
    have hkeyspecial : ¬ n.key.Plain := by
      rcases hspecial with rfl | rfl
      · exact fun hkeyplain => hkeyplain.1 rfl
      · exact fun hkeyplain => hkeyplain.2 rfl
    obtain ⟨id, hid⟩ := h.exists_mem_targets hstarts hplain hkey hkeyspecial
    have hmem : .ofKey id ∈ b.graph.callees n := CallGraph.mem_callees.2 ⟨id, hid, rfl⟩
    rw [hnil] at hmem
    cases hmem
  keys := by
    intro k hk
    rcases CallGraph.mem_nodeKeys.1 hk with rfl | hk | ⟨caller, hk⟩
    · exact .inl rfl
    · by_cases hplain' : k.Plain
      · obtain ⟨c, hc⟩ := h.exists_callable? (CallGraph.mem_callables.2 ⟨hk, hplain'⟩)
        exact .inr (.inr (Tree.namesCallable_of_callable? (Option.isSome_of_eq_some hc)))
      · unfold DeclId.Plain at hplain'
        tauto
    · exact .inr (h.callable_of_mem_targets hstarts hplain hk)
  pointers := by
    intro id hid
    exact Tree.namesCallable_of_callable? (h.callable?_of_mem_pointers hstarts hplain hid)

/-! ### The journal -/

theorem shape_journal (h : Finished r seeds carried b) (hstarts : r.Starts seeds)
    (hplain : ∀ id, carried id → id.Plain)
    (hcallers : ∀ f ∈ seeds, f.FromCallables r.tree)
    (hjustified : Justified (r.Found seeds carried) b) : ∀ entry ∈ b.journal, entry.Shape r.tree := by
  have hqueued : ∀ id, Queued (r.Found seeds carried) id → r.tree.NamesCallable id := fun id hid =>
    Tree.namesCallable_of_callable? (h.callable?_of_queued hstarts hplain hid)
  intro entry hmem
  cases entry with
  | edge caller callee =>
    rcases hjustified.edges caller callee hmem with ⟨f, hf, hedge⟩ | ⟨rfl, id, rfl, hdispatch⟩
    · obtain ⟨hne, htarget, _⟩ := (hf.regular hstarts).callee caller callee hedge
      have hcaller := hf.fromCallables hstarts.fits hcallers caller callee hedge
      refine ⟨hne, ?_, fun id hid => ?_⟩
      · rintro rfl
        rcases hcaller with heq | ⟨k, heq, _⟩
        · cases heq
        · cases heq
      · rcases hid with rfl | rfl
        · rcases hcaller with heq | ⟨k, heq, hk⟩
          · cases heq
          · cases heq
            exact Tree.namesCallable_of_callable? hk
        · exact hqueued id (.inl ⟨f, hf, htarget⟩)
    · refine ⟨by simp, fun _ => ⟨id, rfl⟩, fun k hk => ?_⟩
      rcases hk with heq | heq
      · cases heq
      · cases heq
        exact hqueued id (.inr hdispatch)
  | queue id => exact hqueued id (hjustified.queued id hmem)
  | _ => trivial

end Build.Finished

theorem Build.shape_outcome {b : Build} {t : Tree} (h : ∀ entry ∈ b.journal, entry.Shape t)
    (phase : Phase) : ∀ entry ∈ (b.outcome phase).journal, entry.Shape t := by
  intro entry hmem
  unfold outcome at hmem
  split at hmem
  · exact h entry hmem
  · rcases Array.mem_push.1 hmem with hmem | rfl
    · exact h entry hmem
    · trivial

namespace Tree.WellFormed

variable {t : Tree} {contract : DeclId} {g : CallGraph}

theorem shape_creation (ht : t.WellFormed) (h : (t.creationGraph contract).result = .ok g) :
    g.Shape t ∧ ∀ entry ∈ (t.creationGraph contract).journal, entry.Shape t := by
  obtain ⟨r, hr, rfl, hfits, rfl, hfinished⟩ := Tree.exists_creation ht h
  have hstarts := Resolver.starts_creationSeeds hfits
  refine ⟨hfinished.shape_graph hstarts fun _ h => h.elim, ?_⟩
  rw [Tree.creationGraph_of_resolver hr]
  exact Build.shape_outcome (hfinished.shape_journal hstarts (fun _ h => h.elim)
    (fun f hf => Resolver.fromCallables_creationSeeds hfits hf) (Build.justified_creation r)) _

/-- The creation graph that is handed in need not be one of the tree. -/
theorem shape_deployment (ht : t.WellFormed) {creation : CallGraph} {config : Config}
    (hbuilt : creation.Built) (h : (t.deploymentGraph contract creation config).result = .ok g) :
    g.Shape t ∧ ∀ entry ∈ (t.deploymentGraph contract creation config).journal, entry.Shape t := by
  obtain ⟨r, hr, rfl, hfits, rfl, hfinished⟩ := Tree.exists_deployment ht h
  have hstarts := Resolver.starts_entrySites hfits
  have hplain : ∀ id, Build.Carried creation.pointers config id → id.Plain := fun _ hid =>
    hbuilt.plain_pointers hid.2
  refine ⟨hfinished.shape_graph hstarts hplain, ?_⟩
  rw [Tree.deploymentGraph_of_resolver hr (Tree.contract_of_deploymentGraph hr h)]
  exact Build.shape_outcome (hfinished.shape_journal hstarts hplain
    (fun f hf => Resolver.fromCallables_entrySites hf)
    (Build.justified_deployment hfits creation.pointers config)) _

end Tree.WellFormed

theorem CallGraph.Built.exists_shape {g : CallGraph} (h : g.Built) : ∃ t, g.Shape t := by
  obtain ⟨r, _, _, _, hstarts, hplain, hfinished, rfl⟩ := h.exists_finished
  exact ⟨r.tree, hfinished.shape_graph hstarts hplain⟩

/-! ### A press

Another program, in which the contract with the number of the token takes a pointer while it is
constructed.  What the pointer names in the program of the token is a constructor. -/

namespace Press

def function (name : String) : Step :=
  .function ⟨some ⟨0⟩, name, .function, some .internal, false, [], [], [], .usual⟩

def steps : List Step :=
  [ .contract "Ink" .contract false [],
    function "mix",
    function "stir",
    function "pour",
    .contract "Press" .contract false [⟨⟨0⟩, []⟩],
    .function ⟨some ⟨4⟩, "", .constructor, none, false, [], [], [],
      .written [.eval (.functionRef "pour" ⟨3⟩)]⟩ ]

def tree : Tree := (Tree.ofSteps steps).toOption.getD {}

def creation : CallGraph := (tree.creationGraph ⟨4⟩).result.toOption.getD ⟨⟨4⟩, "", ∅, ∅, ∅, ∅⟩

/-- The deployment graph of the token, when it is handed the creation graph of the press. -/
def deployed : CallGraph :=
  (Token.tree.deploymentGraph ⟨4⟩ creation .standard).result.toOption.getD ⟨⟨4⟩, "", ∅, ∅, ∅, ∅⟩

theorem ofSteps_steps : Tree.ofSteps steps = .ok tree := eq_ok_of_isOk (by cbv) _

theorem built_creation : creation.Built := by
  have hgraph : (tree.creationGraph ⟨4⟩).result = .ok creation := eq_ok_of_isOk (by cbv) _
  exact .creation ofSteps_steps hgraph

theorem deploymentGraph_token :
    (Token.tree.deploymentGraph ⟨4⟩ creation .standard).result = .ok deployed :=
  eq_ok_of_isOk (by cbv) _

end Press

namespace CallGraph

/-- **The shape of every graph that is built.**  Nothing leads to the outside, calls through pointers
lead to callables, the nodes for these two are kept only with callees, and all else that the graph
has is a callable with an id that is not negative; in the journal the nodes are like this as they
were made.  It does not matter which tree a creation graph that is handed in was built of. -/
theorem built_graphs_have_shape {steps : List Step} {t : Tree} (ht : Tree.ofSteps steps = .ok t)
    (contract : DeclId) (g : CallGraph) :
    ((t.creationGraph contract).result = .ok g →
      g.Shape t ∧ ∀ entry ∈ (t.creationGraph contract).journal, entry.Shape t) ∧
    ∀ creation config, creation.Built →
      (t.deploymentGraph contract creation config).result = .ok g → g.Shape t ∧
        ∀ entry ∈ (t.deploymentGraph contract creation config).journal, entry.Shape t :=
  ⟨(Tree.wellFormed_of_ofSteps ht).shape_creation,
    fun _ _ hbuilt h => (Tree.wellFormed_of_ofSteps ht).shape_deployment hbuilt h⟩

theorem token_built_graphs_have_shape :
    Token.creation.Shape Token.tree ∧ Press.deployed.Shape Token.tree ∧
      (∀ entry ∈ (Token.tree.deploymentGraph ⟨4⟩ Press.creation .standard).journal,
        entry.Shape Token.tree) ∧
      Press.deployed.pointers.toList = [⟨1⟩, ⟨3⟩] ∧
      Press.deployed.hasEdge .internalDispatch (.callable ⟨3⟩) = true := by
  have hcreation := (built_graphs_have_shape Token.ofSteps_steps ⟨4⟩ Token.creation).1
    Token.creationGraph_tree
  have hdeployment := (built_graphs_have_shape Token.ofSteps_steps ⟨4⟩ Press.deployed).2
    Press.creation .standard Press.built_creation Press.deploymentGraph_token
  exact ⟨hcreation.1, hdeployment.1, hdeployment.2, by cbv, by cbv⟩

end CallGraph

end ContractCalls
