import ContractCalls.Proofs.Build.Told
import ContractCalls.Proofs.Graph.Dispatch

/-!
# What a graph tells besides its edges

A graph keeps the events that are emitted, the contracts that are created, and the callables that
are taken as pointers.  `side_effects_of_walked_code` says exactly what they are.

* Events are named by the `emit` statements in the bodies of the callables of the graph.
* Contracts are named by `new`, anywhere in the code: in the callables of the graph, in the
  constants that it names, and for a creation graph in the initializers and the arguments for
  bases.
* Pointers are taken in the same code.  A deployment graph has also the pointers of the creation
  graph, if these are handed on.

Code of callables that are not in the graph adds nothing.
-/

namespace ContractCalls

open Finding

/-- The code creates the contract. -/
def Tree.Creates (t : Tree) (root : Expr → Prop) (contract : DeclId) : Prop :=
  ∃ note name, t.Code root (.new note name (some contract))

/-- An `emit` statement in the body of the callable names the event. -/
def Callable.Emits (c : Callable) (event : DeclId) : Prop :=
  ∃ note callee args kind, c.HasStmt (.emit (.call note callee args kind)) ∧
    callee.declaration = some event

/-- What a graph tells besides its edges, if it is made of this code and if these pointers are
handed on to it. -/
structure CallGraph.SideEffects (g : CallGraph) (r : Resolver) (code : Expr → Prop)
    (carried : DeclId → Prop) : Prop where
  emitted : ∀ id, id ∈ g.emitted ↔
    ∃ k, k ∈ g.callables ∧ ∃ c, r.tree.callable? k = some c ∧ c.Emits id
  created : ∀ id, id ∈ g.created ↔ r.tree.Creates code id
  pointers : ∀ id, id ∈ g.pointers ↔ r.Takes code id ∨ carried id

/-- The finding is neither a call site nor an error. -/
def Finding.isEffect : Finding → Bool
  | .emits _ | .creates _ => true
  | .site _ | .error _ => false

namespace Resolver

variable {r : Resolver} {n : Node} {f : Finding} {root : Expr → Prop} {id : DeclId} {c : Callable}

/-! ### Effects of code -/

theorem ne_endless_of_isEffect (heffect : f.isEffect = true) (id : DeclId) :
    f ≠ .error (.endless id) := by
  rintro rfl
  cases heffect

theorem isEffect_ofNamed {note : Note} {ref : Reference} (hf : f ∈ r.ofNamed n note ref) :
    f.isEffect = false := by
  unfold ofNamed at hf
  split at hf
  · cases hf
  · split at hf
    · cases List.mem_singleton.1 hf
      rfl
    · split at hf
      · split at hf
        · cases List.mem_singleton.1 hf
          rfl
        · cases List.mem_singleton.1 hf
          rfl
      · cases hf

theorem isEffect_ofCall {callee : Expr} {kind : CallKind} (hf : f ∈ ofCall n callee kind) :
    f.isEffect = false := by
  unfold ofCall at hf
  split at hf
  · cases List.mem_singleton.1 hf
    rfl
  · cases List.mem_singleton.1 hf
    rfl
  · cases hf

theorem isEffect_ofPlaceholder {function target : DeclId}
    (hf : f ∈ r.ofPlaceholder function target) : f.isEffect = false := by
  unfold ofPlaceholder at hf
  split at hf
  · cases List.mem_singleton.1 hf
    rfl
  · split at hf
    · cases List.mem_singleton.1 hf
      rfl
    · cases hf

theorem isEffect_ofInvocation {i : Invocation} (hf : f ∈ r.ofInvocation n i) :
    f.isEffect = false := by
  have herror : ∀ e, f ∈ [.error e] → f.isEffect = false := by
    intro e he
    cases List.mem_singleton.1 he
    rfl
  unfold ofInvocation at hf
  split at hf
  · exact herror _ hf
  · split at hf
    · exact herror _ hf
    · cases hf
    · split at hf
      · exact herror _ hf
      · split at hf
        · exact herror _ hf
        · rcases List.mem_cons.1 hf with rfl | hf
          · rfl
          · exact isEffect_ofPlaceholder hf
    · exact herror _ hf

/-- An `emit` has the effect of emitting the event that it names, if this is one. -/
theorem effect_mem_ofEmission {e : Expr} (heffect : f.isEffect = true) :
    f ∈ r.ofEmission e ↔ ∃ x, f = .emits x ∧ (r.tree.event? x).isSome = true ∧
      ∃ note callee args kind, e = .call note callee args kind ∧ callee.declaration = some x := by
  have herror : ∀ err, f ≠ .error err := by
    rintro err rfl
    cases heffect
  constructor
  · intro hf
    unfold ofEmission at hf
    split at hf
    next note callee args kind =>
      split at hf
      · exact absurd (List.mem_singleton.1 hf) (herror _)
      next x hx =>
        split at hf
        · exact absurd (List.mem_singleton.1 hf) (herror _)
        next event hd =>
          refine ⟨x, List.mem_singleton.1 hf, ?_, note, callee, args, kind, rfl, hx⟩
          rw [Tree.event?, hd]
          rfl
        · exact absurd (List.mem_singleton.1 hf) (herror _)
    · exact absurd (List.mem_singleton.1 hf) (herror _)
  · intro hex
    obtain ⟨x, rfl, hevent, note, callee, args, kind, rfl, hx⟩ := hex
    obtain ⟨event, hevent⟩ := Option.isSome_iff_exists.1 hevent
    obtain ⟨d, hd, hde⟩ := Option.bind_eq_some_iff.1 hevent
    cases d with
    | event e => simp [ofEmission, hx, hd]
    | _ => cases hde

/-- Of all expressions only `new` has an effect, if it names a contract. -/
theorem effect_mem_ofOccurrence {e : Expr} {o : Occurrence} (ho : e.occurrence? = some o)
    (heffect : f.isEffect = true) :
    f ∈ r.ofOccurrence n o ↔ ∃ note name x, e = .new note name (some x) ∧ f = .creates x := by
  cases e with
  | identifier note ref =>
    cases ho
    refine iff_of_false (fun hf => ?_) (by simp)
    rw [isEffect_ofNamed hf] at heffect
    cases heffect
  | member note inner ref =>
    cases ho
    refine iff_of_false (fun hf => ?_) (by simp)
    rw [isEffect_ofNamed hf] at heffect
    cases heffect
  | call note callee args kind =>
    cases ho
    refine iff_of_false (fun hf => ?_) (by simp)
    rw [isEffect_ofCall hf] at heffect
    cases heffect
  | new note name contract =>
    cases ho
    cases contract <;> simp [ofOccurrence]
  | _ => cases ho

/-- The effects of expressions are the contracts that they create. -/
theorem says_effect (heffect : f.isEffect = true) :
    r.Says root n f ↔ ∃ x, f = .creates x ∧ r.tree.Creates root x := by
  constructor
  · intro hex
    obtain ⟨e, o, he, ho, hf⟩ := hex
    obtain ⟨note, name, x, rfl, hx⟩ := (effect_mem_ofOccurrence ho heffect).1 hf
    exact ⟨x, hx, note, name, he⟩
  · intro hex
    obtain ⟨x, rfl, note, name, he⟩ := hex
    exact ⟨_, _, he, rfl, (effect_mem_ofOccurrence rfl rfl).2 ⟨note, name, x, rfl, rfl⟩⟩

/-- **The effects of a callable**: the contracts that its code creates, and the events that its
`emit` statements name. -/
theorem effect_mem_code (hc : r.tree.callable? id = some c) (heffect : f.isEffect = true) :
    f ∈ r.code id ↔ (∃ x, f = .creates x ∧ r.tree.Creates c.Root x) ∨
      ∃ x, f = .emits x ∧ c.Emits x ∧ (r.tree.event? x).isSome = true := by
  rw [mem_code (ne_endless_of_isEffect heffect) hc, says_effect heffect]
  simp only [effect_mem_ofEmission heffect, Callable.Emits]
  have hinvocation : ¬ ∃ i ∈ c.invocations, f ∈ r.ofInvocation (.callable id) i := by
    rintro ⟨i, _, hf⟩
    rw [isEffect_ofInvocation hf] at heffect
    cases heffect
  rw [or_iff_left hinvocation]
  refine or_congr_right ⟨fun hex => ?_, fun hex => ?_⟩
  · obtain ⟨_, hs, x, rfl, hevent, note, callee, args, kind, rfl, hx⟩ := hex
    exact ⟨x, rfl, ⟨note, callee, args, kind, hs, hx⟩, hevent⟩
  · obtain ⟨x, rfl, ⟨note, callee, args, kind, hs, hx⟩, hevent⟩ := hex
    exact ⟨_, hs, x, rfl, hevent, note, callee, args, kind, rfl, hx⟩

theorem event?_of_emits (hc : r.tree.callable? id = some c) (hsound : ∀ e, .error e ∉ r.code id)
    {x : DeclId} (hx : c.Emits x) : (r.tree.event? x).isSome = true := by
  obtain ⟨note, callee, args, kind, hs, hdecl⟩ := hx
  have hemission : ∀ e, .error (.error e) ∉ r.ofEmission (.call note callee args kind) := by
    intro e he
    exact hsound e ((mem_code (error_ne_endless e) hc).2 (.inr (.inl ⟨_, hs, he⟩)))
  simp only [ofEmission, hdecl] at hemission
  rw [Tree.event?]
  cases hd : r.tree.find? x with
  | none => simp [hd] at hemission
  | some d => cases d <;> simp_all [Declaration.event?]

/-- **The effects that start a construction.** -/
theorem effect_mem_creationSeeds (hfits : r.Fits) (heffect : f.isEffect = true) :
    f ∈ r.creationSeeds ↔ ∃ x, f = .creates x ∧ r.tree.Creates r.ConstructionRoot x := by
  simp only [mem_creationSeeds (ne_endless_of_isEffect heffect) hfits, says_effect heffect,
    Tree.Creates, code_constructionRoot]
  constructor
  · intro hex
    obtain ⟨b, hb, ⟨x, rfl, note, name, he⟩ | ⟨k, _, rfl⟩ | ⟨x, rfl, note, name, he⟩⟩ := hex
    · exact ⟨x, rfl, note, name, b, hb, .inl he⟩
    · cases heffect
    · exact ⟨x, rfl, note, name, b, hb, .inr he⟩
  · intro hex
    obtain ⟨x, rfl, note, name, b, hb, he | he⟩ := hex
    · exact ⟨b, hb, .inl ⟨x, rfl, note, name, he⟩⟩
    · exact ⟨b, hb, .inr (.inr ⟨x, rfl, note, name, he⟩)⟩

theorem emits_not_mem_creationSeeds (hfits : r.Fits) : .emits id ∉ r.creationSeeds := by
  intro hseed
  obtain ⟨_, hcreates, _⟩ := (effect_mem_creationSeeds hfits rfl).1 hseed
  cases hcreates

theorem effect_not_mem_entrySites (heffect : f.isEffect = true) : f ∉ Build.entrySites r := by
  intro hf
  obtain ⟨k, _, rfl⟩ := List.mem_map.1 hf
  cases heffect

/-! ### Pointers -/

variable {x : DeclId}

theorem takes_or {root' : Expr → Prop} :
    r.Takes (fun e => root e ∨ root' e) x ↔ r.Takes root x ∨ r.Takes root' x := by
  simp only [Takes, Tree.code_or, or_and_right, exists_or]

theorem takes_constructionRoot : r.Takes r.ConstructionRoot x ↔
    ∃ b ∈ r.linearization, r.Takes (r.tree.Initializer b) x ∨ r.Takes b.BaseArg x := by
  simp only [Takes, exists_and_left]
  exact exists_code_constructionRoot

theorem takes_callableRoot {g : CallGraph} :
    r.Takes (g.CallableRoot r.tree) x ↔ g.TakesPointer r x := by
  simp only [Takes, CallGraph.code_callableRoot, CallGraph.TakesPointer]
  constructor
  · intro hex
    obtain ⟨e, declared, ⟨k, hk, c, hc, he⟩, h⟩ := hex
    exact ⟨k, hk, c, hc, e, declared, he, h⟩
  · intro hex
    obtain ⟨k, hk, c, hc, e, declared, he, h⟩ := hex
    exact ⟨e, declared, ⟨k, hk, c, hc, he⟩, h⟩

end Resolver

namespace Build.Finished

variable {r : Resolver} {seeds : List Finding} {carried : DeclId → Prop} {b : Build} {f : Finding}
  {id : DeclId}

/-- Effects come from the seeds and from the code of the callables of the graph. -/
theorem found_effect (h : Finished r seeds carried b) (heffect : f.isEffect = true) :
    r.Found seeds carried f ↔ f ∈ seeds ∨ ∃ k, k ∈ b.graph.callables ∧ f ∈ r.code k := by
  constructor
  · intro hf
    have herror : ∀ e, f ≠ .error e := by
      rintro e rfl
      cases heffect
    rcases hf.origin herror with hf | ⟨k, hk, hplain, hf⟩ | ⟨k, _, _, rfl⟩
    · exact .inl hf
    · exact .inr ⟨k, h.mem_callables.2 ⟨hk, hplain⟩, hf⟩
    · cases heffect
  · intro hor
    rcases hor with hf | ⟨k, hk, hf⟩
    · exact .seed hf
    · exact .of_queued (h.mem_callables.1 hk).1 hf

/-- **Which events are emitted**: those that the `emit` statements of the callables name. -/
theorem mem_emitted (h : Finished r seeds carried b) (hseeds : .emits id ∉ seeds) :
    id ∈ b.graph.emitted ↔
      ∃ k, k ∈ b.graph.callables ∧ ∃ c, r.tree.callable? k = some c ∧ c.Emits id := by
  rw [h.tells.emitted, h.found_effect rfl, or_iff_right hseeds]
  refine exists_congr fun k => and_congr_right fun hk => ?_
  obtain ⟨c, hc⟩ := h.exists_callable? hk
  rw [Resolver.effect_mem_code hc rfl]
  constructor
  · intro hor
    rcases hor with ⟨_, hcreates, _⟩ | ⟨_, hemits, hc', _⟩
    · cases hcreates
    · cases hemits
      exact ⟨c, hc, hc'⟩
  · intro hex
    obtain ⟨c', hc', hemits⟩ := hex
    cases hc.symm.trans hc'
    exact .inr ⟨id, rfl, hemits, Resolver.event?_of_emits hc (h.sound_code hk) hemits⟩

/-- **Which contracts are created**: those of the seeds, and those of the code of the callables. -/
theorem mem_created (h : Finished r seeds carried b) :
    id ∈ b.graph.created ↔
      .creates id ∈ seeds ∨ r.tree.Creates (b.graph.CallableRoot r.tree) id := by
  rw [h.tells.created, h.found_effect rfl]
  refine or_congr_right ?_
  simp only [Tree.Creates, CallGraph.code_callableRoot]
  constructor
  · intro hex
    obtain ⟨k, hk, hf⟩ := hex
    obtain ⟨c, hc⟩ := h.exists_callable? hk
    rcases (Resolver.effect_mem_code hc rfl).1 hf with
      ⟨_, hcreates, note, name, he⟩ | ⟨_, hemits, _⟩
    · cases hcreates
      exact ⟨note, name, k, hk, c, hc, he⟩
    · cases hemits
  · intro hex
    obtain ⟨note, name, k, hk, c, hc, he⟩ := hex
    exact ⟨k, hk, (Resolver.effect_mem_code hc rfl).2 (.inl ⟨id, rfl, note, name, he⟩)⟩

theorem mem_created_creation (hfits : r.Fits) (h : Finished r r.creationSeeds carried b) :
    id ∈ b.graph.created ↔
      r.tree.Creates (fun e => b.graph.CallableRoot r.tree e ∨ r.ConstructionRoot e) id := by
  rw [h.mem_created, Resolver.effect_mem_creationSeeds hfits rfl]
  simp only [Tree.Creates, Tree.code_or, exists_or, Finding.creates.injEq, exists_eq_left']
  exact or_comm

theorem mem_created_deployment (h : Finished r (entrySites r) carried b) :
    id ∈ b.graph.created ↔ r.tree.Creates (b.graph.CallableRoot r.tree) id := by
  rw [h.mem_created, or_iff_right (Resolver.effect_not_mem_entrySites rfl)]

theorem isDispatchReachable_iff (h : Finished r seeds carried b) (hstarts : r.Starts seeds) :
    b.graph.isDispatchReachable = true ↔ .internalDispatch ∈ b.graph.nodes := by
  rw [CallGraph.isDispatchReachable_iff]
  constructor
  · intro hpath
    obtain hsame | ⟨k, _, hk⟩ := Relation.ReflTransGen.cases_tail hpath
    · cases hsame
    · exact CallGraph.internalDispatch_mem_nodes.2 (CallGraph.mem_nodeKeys.2 (.inr (.inr ⟨k, hk⟩)))
  · intro hnode
    exact h.path hstarts (CallGraph.internalDispatch_mem_nodes.1 hnode)

end Build.Finished

/-! ### A market

A function emits an event and calls a pointer.  The pointer is the value of a constant, which is
named only in the arguments of the event, and the function behind it creates a contract.  Another
function would emit another event, but nothing calls it. -/

namespace Market

def steps : List Step :=
  [ .contract "Vault" .contract false [],
    .contract "Market" .contract false [],
    .event (some ⟨1⟩) "Sold" [],
    .event (some ⟨1⟩) "Lost" [],
    .function ⟨some ⟨1⟩, "settle", .function, some .internal, false, [], [], [],
      .written [.eval (.newContract "Vault" ⟨0⟩ [])]⟩,
    .variable ⟨some ⟨1⟩, "hook", "function()", false, true, false, [],
      some (.functionRef "settle" ⟨4⟩)⟩,
    .function ⟨some ⟨1⟩, "sell", .function, none, false, [], [], [],
      .written
        [ .emit (.eventCall "Sold" ⟨2⟩ [.plain "hook" (some ⟨5⟩)]),
          .eval (.callOf ((Expr.plain "local" none).withFunctionType .internal) []) ]⟩,
    .function ⟨some ⟨1⟩, "lose", .function, some .internal, false, [], [], [],
      .written [.emit (.eventCall "Lost" ⟨3⟩ [])]⟩ ]

def tree : Tree := (Tree.ofSteps steps).toOption.getD {}

def creation : CallGraph := (tree.creationGraph ⟨1⟩).result.toOption.getD ⟨⟨1⟩, "", ∅, ∅, ∅, ∅⟩

def deployed : CallGraph :=
  (tree.deploymentGraph ⟨1⟩ creation .standard).result.toOption.getD ⟨⟨1⟩, "", ∅, ∅, ∅, ∅⟩

theorem ofSteps_steps : Tree.ofSteps steps = .ok tree := eq_ok_of_isOk (by cbv) _

theorem creationGraph_tree : (tree.creationGraph ⟨1⟩).result = .ok creation :=
  eq_ok_of_isOk (by cbv) _

theorem deploymentGraph_tree :
    (tree.deploymentGraph ⟨1⟩ creation .standard).result = .ok deployed :=
  eq_ok_of_isOk (by cbv) _

end Market

namespace Tree

/-- **What a graph tells besides its edges** is what the code says that was walked: the code of the
callables of the graph, and for a creation graph that which starts the construction. -/
theorem side_effects_of_walked_code {steps : List Step} {t : Tree} (ht : ofSteps steps = .ok t)
    (contract : DeclId) (g : CallGraph) :
    ((t.creationGraph contract).result = .ok g →
      ∃ r, t.resolver contract = .ok r ∧ r.tree = t ∧
        g.SideEffects r (fun e => g.CallableRoot t e ∨ r.ConstructionRoot e) fun _ => False) ∧
    ∀ creation config, (t.deploymentGraph contract creation config).result = .ok g →
      ∃ r, t.resolver contract = .ok r ∧ r.tree = t ∧
        g.SideEffects r (g.CallableRoot t) fun id => config.carryPointers = true ∧
          g.isDispatchReachable = true ∧ id ∈ creation.pointers := by
  have hwell := wellFormed_of_ofSteps ht
  constructor
  · intro h
    obtain ⟨r, hr, rfl, hfits, rfl, hfinished⟩ := exists_creation hwell h
    have hstarts := Resolver.starts_creationSeeds hfits
    refine ⟨r, hr, rfl, ⟨fun id => ?_, fun id => ?_, fun id => ?_⟩⟩
    · exact hfinished.mem_emitted (Resolver.emits_not_mem_creationSeeds hfits)
    · exact hfinished.mem_created_creation hfits
    · rw [hfinished.mem_pointers hstarts, Resolver.hasPointer_creationSeeds, Resolver.takes_or,
        Resolver.takes_constructionRoot, Resolver.takes_callableRoot, and_false, or_false,
        or_false]
      exact or_comm
  · intro creation config h
    obtain ⟨r, hr, rfl, hfits, rfl, hfinished⟩ := exists_deployment hwell h
    have hstarts := Resolver.starts_entrySites hfits
    refine ⟨r, hr, rfl, ⟨fun id => ?_, fun id => ?_, fun id => ?_⟩⟩
    · exact hfinished.mem_emitted (Resolver.effect_not_mem_entrySites rfl)
    · exact hfinished.mem_created_deployment
    · rw [hfinished.mem_pointers hstarts, or_iff_right Resolver.not_hasPointer_entrySites,
        Resolver.takes_callableRoot, hfinished.isDispatchReachable_iff hstarts, Build.Carried,
        and_left_comm]

theorem market_side_effects_of_walked_code : ∃ r, Market.tree.resolver ⟨1⟩ = .ok r ∧
    Market.creation.SideEffects r (fun e => Market.creation.CallableRoot Market.tree e ∨
      r.ConstructionRoot e) (fun _ => False) ∧
    Market.deployed.SideEffects r (Market.deployed.CallableRoot Market.tree) (fun id =>
      Config.standard.carryPointers = true ∧ Market.deployed.isDispatchReachable = true ∧
        id ∈ Market.creation.pointers) ∧
    Market.deployed.emitted.toList = [⟨2⟩] ∧ Market.deployed.created.toList = [⟨0⟩] ∧
    Market.deployed.pointers.toList = [⟨4⟩] := by
  have hmarket := side_effects_of_walked_code Market.ofSteps_steps ⟨1⟩
  obtain ⟨r, hr, _, hcreation⟩ := (hmarket _).1 Market.creationGraph_tree
  obtain ⟨r', hr', _, hdeployed⟩ := (hmarket _).2 _ _ Market.deploymentGraph_tree
  cases hr.symm.trans hr'
  exact ⟨r, hr, hcreation, hdeployed, by cbv, by cbv, by cbv⟩

end Tree
end ContractCalls
