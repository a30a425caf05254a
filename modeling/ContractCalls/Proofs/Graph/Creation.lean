import ContractCalls.Proofs.Graph.Connected

/-!
# The edges of a creation graph

`creation_callees` says exactly which edges the graph of a construction has, but for those of the
calls through pointers.  For each contract of the linearization the outside calls the
constructor and runs the initializers.  The arguments that a contract passes to its bases are
code of its own constructor, or of the outside if it has none; so it is no matter whether
a constructor is read before these arguments or after them.
-/

namespace ContractCalls

/-- The callees in the graph of a construction. -/
structure CallGraph.CreationCallees (g : CallGraph) (r : Resolver) : Prop where
  /-- The outside calls the constructors and runs the initializers, and the arguments for
  bases where there is no constructor. -/
  entry : ∀ m, m ∈ g.callees .entry ↔ ∃ b ∈ r.linearization,
    (∃ k, r.constructor? b = some k ∧ m = .callable k.id) ∨
      r.Leads (r.tree.Initializer b) m ∨ (r.constructor? b = none ∧ r.Leads b.BaseArg m)
  /-- A constructor leads to what its own code calls, its modifiers, and what the arguments for
  the bases of its contract call. -/
  constructor : ∀ b ∈ r.linearization, ∀ k, r.constructor? b = some k → k.id ∈ g.callables ∧ ∀ m,
    m ∈ g.callees (.callable k.id) ↔ r.Leads (Callable.function k).Root m ∨
      (∃ i, m = .callable i ∧ r.Modifies k.id i) ∨ r.Leads b.BaseArg m
  /-- Any other callable leads to what its code calls, its modifiers, and what it modifies. -/
  callable : ∀ id ∈ g.callables, (∀ b ∈ r.linearization, ∀ k, r.constructor? b = some k → k.id ≠ id) →
    ∃ c, r.tree.callable? id = some c ∧ ∀ m,
      m ∈ g.callees (.callable id) ↔ r.Leads c.Root m ∨
        (∃ k, m = .callable k ∧ r.Modifies id k) ∨
        ∃ k ∈ g.callables, m = .callable k ∧ r.Modifies k id ∧ r.tree.GoesOn id

namespace Resolver

variable {r : Resolver} {b : Contract} {m : Node}

/-- The seeds that start at the outside. -/
theorem seed_of_entry (hfits : r.Fits) :
    (∃ x, x.key = Node.entryKey ∧ Finding.HasEdge (· ∈ r.creationSeeds) x m) ↔
      ∃ b ∈ r.linearization, (∃ k, r.constructor? b = some k ∧ m = .callable k.id) ∨
        r.Leads (r.tree.Initializer b) m ∨ (r.constructor? b = none ∧ r.Leads b.BaseArg m) := by
  simp only [hasEdge_creationSeeds]
  constructor
  · intro hex
    obtain ⟨x, hx, b, hb, ⟨_, h⟩ | ⟨_, h⟩ | ⟨rfl, h⟩⟩ := hex
    · exact ⟨b, hb, .inr (.inl h)⟩
    · exact ⟨b, hb, .inl h⟩
    · unfold argumentNode at hx
      cases hk : r.constructor? b with
      | none => exact ⟨b, hb, .inr (.inr ⟨hk, h⟩)⟩
      | some k =>
        rw [hk] at hx
        obtain ⟨hfunction, _⟩ := hfits.constructor?_eq_some hb hk
        have hplain : k.id.Plain := Tree.plain_of_callable?
          (Option.isSome_of_eq_some (Tree.callable?_of_function? hfunction))
        exact absurd hx hplain.1
  · intro hex
    obtain ⟨b, hb, h | h | ⟨hnone, h⟩⟩ := hex
    · exact ⟨.entry, rfl, b, hb, .inr (.inl ⟨rfl, h⟩)⟩
    · exact ⟨.entry, rfl, b, hb, .inl ⟨rfl, h⟩⟩
    · refine ⟨r.argumentNode b, ?_, b, hb, .inr (.inr ⟨rfl, h⟩)⟩
      rw [argumentNode, hnone]
      rfl

/-- The seeds that start at a callable: it is a constructor, and the arguments are those of its
contract. -/
theorem seed_of_callable {id : DeclId} (hplain : id.Plain) :
    (∃ x, x.key = id ∧ Finding.HasEdge (· ∈ r.creationSeeds) x m) ↔
      ∃ b ∈ r.linearization, ∃ k, r.constructor? b = some k ∧ k.id = id ∧ r.Leads b.BaseArg m := by
  simp only [hasEdge_creationSeeds]
  constructor
  · intro hex
    obtain ⟨x, hx, b, hb, ⟨rfl, _⟩ | ⟨rfl, _⟩ | ⟨rfl, h⟩⟩ := hex
    · exact absurd hx.symm hplain.1
    · exact absurd hx.symm hplain.1
    · unfold argumentNode at hx
      cases hk : r.constructor? b with
      | none =>
        rw [hk] at hx
        exact absurd hx.symm hplain.1
      | some k =>
        rw [hk] at hx
        exact ⟨b, hb, k, hk, hx, h⟩
  · intro hex
    obtain ⟨b, hb, k, hk, rfl, h⟩ := hex
    refine ⟨r.argumentNode b, ?_, b, hb, .inr (.inr ⟨rfl, h⟩)⟩
    rw [argumentNode, hk]
    rfl

end Resolver

namespace Tree

theorem not_goesOn_of_function? {t : Tree} {id : DeclId} {f : Function}
    (h : t.function? id = some f) : ¬ t.GoesOn id := by
  intro hex
  obtain ⟨m, hm, _⟩ := hex
  have := callable?_of_function? h
  rw [callable?_of_modifier? hm] at this
  cases this

/-- **The edges of a creation graph** are those that the text of the program tells. -/
theorem creation_callees {steps : List Step} {t : Tree} (ht : ofSteps steps = .ok t)
    {contract : DeclId} {g : CallGraph} (h : (t.creationGraph contract).result = .ok g) :
    ∃ r, t.resolver contract = .ok r ∧ r.tree = t ∧ g.CreationCallees r := by
  obtain ⟨r, hr, htree, hfits, rfl, hfinished⟩ := exists_creation (wellFormed_of_ofSteps ht) h
  have hstarts := Resolver.starts_creationSeeds hfits
  refine ⟨r, hr, htree, fun m => ?_, fun b hb k hk => ?_, fun id hid hother => ?_⟩
  · rw [hfinished.mem_callees_entry hstarts, Resolver.seed_of_entry hfits]
  · obtain ⟨hfunction, _⟩ := hfits.constructor?_eq_some hb hk
    have hc := callable?_of_function? hfunction
    have hplain : k.id.Plain := plain_of_callable? (Option.isSome_of_eq_some hc)
    have hid : k.id ∈ (Build.creation r).graph.callables := by
      refine hfinished.mem_callables.2 ⟨.inl ⟨Build.entrySite k, .seed ?_, rfl⟩, hplain⟩
      exact Resolver.site_mem_creationSeeds.2 ⟨b, hb, .inr (.inl ⟨k, hk, rfl⟩)⟩
    refine ⟨hid, fun m => ?_⟩
    rw [hfinished.mem_callees_callable hstarts hid hc, Resolver.seed_of_callable hplain]
    constructor
    · intro hor
      rcases hor with ⟨b', hb', k', hk', hkid, h⟩ | h | h | ⟨_, _, _, _, hgoes⟩
      · cases hfits.constructor?_inj hb' hb hk' hk hkid
        exact .inr (.inr h)
      · exact .inl h
      · exact .inr (.inl h)
      · exact absurd hgoes (not_goesOn_of_function? hfunction)
    · intro hor
      rcases hor with h | h | h
      · exact .inr (.inl h)
      · exact .inr (.inr (.inl h))
      · exact .inl ⟨b, hb, k, hk, rfl, h⟩
  · obtain ⟨c, hc⟩ := hfinished.exists_callable? hid
    refine ⟨c, hc, fun m => ?_⟩
    rw [hfinished.mem_callees_callable hstarts hid hc,
      Resolver.seed_of_callable (CallGraph.mem_callables.1 hid).2]
    refine or_iff_right ?_
    intro hex
    obtain ⟨b, hb, k, hk, hkid, _⟩ := hex
    exact hother b hb k hk hkid

theorem token_creation_callees : ∃ r, Token.tree.resolver ⟨4⟩ = .ok r ∧ r.tree = Token.tree ∧
    Token.creation.CreationCallees r :=
  creation_callees Token.ofSteps_steps Token.creationGraph_tree

end Tree
end ContractCalls
