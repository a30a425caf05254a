import ContractCalls.Proofs.Code.Malformed
import ContractCalls.Proofs.Graph.Outcomes

/-!
# Internal calls in a graph

The call of an internal function either goes through a pointer, or its callee is noted as called
directly and names the function.  The first is told by the call, the second by the name.  Either
adds an edge that starts at the node which the code is read for: `internal_calls_have_edges`.

A callee can also be noted as called directly although it names no callable.  Then the call leaves
the edge to the name, and the name has none to add.  Such a note contradicts the tree, and other
contradictions are errors, but this one is not noticed.  The graph is built, and the call is not in
it: `booth_call_has_no_edge`.
-/

namespace ContractCalls

open Finding

namespace Resolver

/-- The code calls an internal function. -/
def CallsInternally (r : Resolver) (root : Expr → Prop) (callee : Expr) : Prop :=
  ∃ note args, r.tree.Code root (.call note callee args .function) ∧ callee.note.isInternal = true

/-- The roots of the code that starts a construction, with the node that it is read for. -/
def ConstructionRootAt (r : Resolver) (n : Node) (e : Expr) : Prop :=
  ∃ b, b ∈ r.linearization ∧
    ((n = .entry ∧ r.tree.Initializer b e) ∨ (n = r.argumentNode b ∧ b.BaseArg e))

end Resolver

namespace CallGraph

/-- The roots of the code that is read for a node: of the code that the build starts with, and of
the code of a callable of the graph. -/
def RootAt (g : CallGraph) (r : Resolver) (seeded : Node → Expr → Prop) (n : Node) (e : Expr) :
    Prop :=
  seeded n e ∨ ∃ c, (∃ id ∈ g.callables, n = .callable id ∧ r.tree.callable? id = some c) ∧ c.Root e

/-- The call of an internal function has an edge: to the calls through pointers, or to the
callable that the callee names. -/
def HasCall (g : CallGraph) (r : Resolver) (n : Node) (callee : Expr) : Prop :=
  .internalDispatch ∈ g.callees n ∨
    ∃ declared target, r.Names callee declared target ∧ .callable target ∈ g.callees n

/-- The call of an internal function has an edge, unless it has nothing to lead to. -/
structure KeepsCall (g : CallGraph) (r : Resolver) (n : Node) (callee : Expr) : Prop where
  /-- A call through a pointer leads to the calls through pointers. -/
  pointer : callee.note.calledDirectly = false → .internalDispatch ∈ g.callees n
  /-- A direct call leads to the callable that the callee names. -/
  direct : callee.note.calledDirectly = true → ∀ declared, callee.declaration = some declared →
    (r.tree.callable? declared).isSome = true →
      ∃ target, r.Names callee declared target ∧ .callable target ∈ g.callees n

end CallGraph

namespace Resolver

variable {r : Resolver} {n : Node} {root : Expr → Prop} {callee : Expr}

/-! ### The two parts of a call -/

theorem says_or {root' : Expr → Prop} {f : Finding} :
    r.Says (fun e => root e ∨ root' e) n f ↔ r.Says root n f ∨ r.Says root' n f := by
  simp only [Says, Tree.code_or, or_and_right, exists_or]

/-- A call through a pointer tells that there is one. -/
theorem says_indirect {note : Note} {args : List Expr}
    (hcall : r.tree.Code root (.call note callee args .function))
    (hinternal : callee.note.isInternal = true) (hpointer : callee.note.calledDirectly = false) :
    r.Says root n (.site ⟨n, .indirect, .internalDispatch⟩) := by
  refine ⟨_, .call callee args .function, hcall, rfl, ?_⟩
  rw [ofOccurrence, site_mem_ofCall]
  exact ⟨rfl, hinternal, hpointer, rfl⟩

theorem says_direct (hcallee : r.tree.Code root callee) (hinternal : callee.note.isInternal = true)
    (hdirect : callee.note.calledDirectly = true) {declared : DeclId}
    (hid : callee.declaration = some declared)
    (hcallable : (r.tree.callable? declared).isSome = true) :
    (∃ target, r.Names callee declared target ∧
      r.Says root n (.site ⟨n, .direct, .callable declared target⟩)) ∨
    ∃ e : Error, r.Says root n (.error e) := by
  obtain ⟨ref, href, hdeclaration⟩ : ∃ ref, callee.ref? = some ref ∧
      ref.declaration = some declared := by
    cases callee with
    | identifier note ref => exact ⟨ref, rfl, hid⟩
    | member note inner ref => exact ⟨ref, rfl, hid⟩
    | _ => cases hid
  cases hlookup : r.resolve declared ref.lookup with
  | error e =>
    obtain ⟨scope, hscope, herror⟩ := resolve_eq_error.1 hlookup
    exact .inr (says_error.2 ⟨callee, hcallee,
      .lookup href hdeclaration hcallable hinternal hscope herror⟩)
  | ok target =>
    have hnames : r.Names callee declared target :=
      ⟨hinternal, hcallable, ref, href, hdeclaration, hlookup⟩
    obtain ⟨o, ho, _⟩ := Expr.occurrence?_of_declaration hid
    refine .inl ⟨target, hnames, callee, o, hcallee, ho, ?_⟩
    rw [site_mem_ofOccurrence ho, hdirect]
    exact .inl ⟨declared, target, hnames, rfl⟩

theorem mem_creationSeeds_of_says (hfits : r.Fits) {f : Finding}
    (h : r.Says (r.ConstructionRootAt n) n f) : f ∈ r.creationSeeds := by
  rw [mem_creationSeeds h.ne_endless hfits]
  obtain ⟨b, hb, h⟩ := says_iff_exists.1 h
  refine ⟨b, hb, ?_⟩
  rcases says_or.1 h with ⟨e, o, he, h⟩ | ⟨e, o, he, h⟩
  · obtain ⟨_, rfl, _⟩ := he.exists_root
    exact .inl ⟨e, o, he.mono fun _ => And.right, h⟩
  · obtain ⟨_, rfl, _⟩ := he.exists_root
    exact .inr (.inr ⟨e, o, he.mono fun _ => And.right, h⟩)

end Resolver

namespace Build.Finished

variable {r : Resolver} {seeds : List Finding} {carried : DeclId → Prop} {b : Build} {n m : Node}
  {seeded : Node → Expr → Prop} {f : Finding}

/-- What is found has its edge in the graph. -/
theorem mem_callees_of_found (h : Finished r seeds carried b) (hstarts : r.Starts seeds)
    (hf : r.Found seeds carried f) (hedge : f.edge? = some (n, m)) : m ∈ b.graph.callees n := by
  rw [CallGraph.mem_callees]
  exact ⟨m.key, h.tells.mem_targets hf hedge, ofKey_callee hstarts ⟨f, hf, hedge⟩⟩

/-- What is said for a node was taken in: it is one of the seeds, or told by a callable. -/
theorem mem_of_says (hseeded : ∀ n f, r.Says (seeded n) n f → f ∈ seeds)
    (hf : r.Says (b.graph.RootAt r seeded n) n f) :
    f ∈ seeds ∨ ∃ id ∈ b.graph.callables, f ∈ r.code id := by
  rcases Resolver.says_or.1 hf with hf | hf
  · exact .inl (hseeded n f hf)
  · obtain ⟨c, ⟨id, hid, rfl, hc⟩, hf⟩ := Resolver.says_iff_exists.1 hf
    exact .inr ⟨id, hid, (Resolver.mem_code hf.ne_endless hc).2 (.inl hf)⟩

/-- **Internal calls are kept** in the graph of a finished build. -/
theorem keepsCall (h : Finished r seeds carried b) (hstarts : r.Starts seeds)
    (hseeded : ∀ n f, r.Says (seeded n) n f → f ∈ seeds) (hsound : ∀ e, .error e ∉ seeds)
    {callee : Expr} (hcall : r.CallsInternally (b.graph.RootAt r seeded n) callee) :
    b.graph.KeepsCall r n callee := by
  have hfound : ∀ f, r.Says (b.graph.RootAt r seeded n) n f → r.Found seeds carried f := by
    intro f hf
    rcases mem_of_says hseeded hf with hf | ⟨id, hid, hf⟩
    · exact .seed hf
    · exact .of_queued (h.mem_callables.1 hid).1 hf
  have hnoerror : ∀ e, ¬ r.Says (b.graph.RootAt r seeded n) n (.error e) := by
    intro e he
    rcases mem_of_says hseeded he with he | ⟨id, hid, he⟩
    · exact hsound e he
    · exact h.sound_code hid e he
  obtain ⟨note, args, hcode, hinternal⟩ := hcall
  constructor
  · intro hpointer
    have hsays := hfound _ (Resolver.says_indirect hcode hinternal hpointer)
    exact h.mem_callees_of_found hstarts hsays rfl
  · intro hdirect declared hid hcallable
    rcases Resolver.says_direct (.part hcode .callee) hinternal hdirect hid hcallable with
      ⟨target, hnames, hsays⟩ | ⟨e, he⟩
    · exact ⟨target, hnames, h.mem_callees_of_found hstarts (hfound _ hsays) rfl⟩
    · exact absurd he (hnoerror e)

end Build.Finished

namespace Tree

variable {t : Tree} {g : CallGraph}

/-- **Internal calls have edges.**  Each call of an internal function in the code that a build walks
has an edge that starts at the node which the code is walked for: to the calls through pointers, or
to the callable that the callee names, if it names one. -/
theorem internal_calls_have_edges {steps : List Step} (ht : ofSteps steps = .ok t)
    (contract : DeclId) :
    ((t.creationGraph contract).result = .ok g → ∃ r, t.resolver contract = .ok r ∧ r.tree = t ∧
      ∀ n callee, r.CallsInternally (g.RootAt r r.ConstructionRootAt n) callee →
        g.KeepsCall r n callee) ∧
    ∀ creation config, (t.deploymentGraph contract creation config).result = .ok g →
      ∃ r, t.resolver contract = .ok r ∧ r.tree = t ∧
        ∀ n callee, r.CallsInternally (g.RootAt r (fun _ _ => False) n) callee →
          g.KeepsCall r n callee := by
  have hwell := wellFormed_of_ofSteps ht
  constructor
  · intro hg
    obtain ⟨r, hr, htree, hfits, rfl, hfinished⟩ := exists_creation hwell hg
    have hstarts := Resolver.starts_creationSeeds hfits
    have hsound : ∀ e, .error e ∉ r.creationSeeds := by
      intro e he
      exact hfinished.not_found_error hstarts (fun _ h => h.elim) e (.seed he)
    refine ⟨r, hr, htree, fun n callee hcall => ?_⟩
    exact hfinished.keepsCall hstarts (fun _ _ => Resolver.mem_creationSeeds_of_says hfits)
      hsound hcall
  · intro creation config hg
    obtain ⟨r, hr, htree, hfits, rfl, hfinished⟩ := exists_deployment hwell hg
    refine ⟨r, hr, htree, fun n callee hcall => ?_⟩
    refine hfinished.keepsCall (Resolver.starts_entrySites hfits) (fun _ _ hsays => ?_)
      (fun _ => Resolver.error_not_mem_entrySites) hcall
    obtain ⟨_, _, he, _⟩ := hsays
    exact he.exists_root.elim fun _ h => h.elim

theorem token_internal_calls_have_edges :
    (∃ r, Token.tree.resolver ⟨4⟩ = .ok r ∧ r.tree = Token.tree ∧
      ∀ n callee, r.CallsInternally (Token.creation.RootAt r r.ConstructionRootAt n) callee →
        Token.creation.KeepsCall r n callee) ∧
    ∃ r, Token.tree.resolver ⟨4⟩ = .ok r ∧ r.tree = Token.tree ∧
      ∀ n callee, r.CallsInternally (Token.deployed.RootAt r (fun _ _ => False) n) callee →
        Token.deployed.KeepsCall r n callee :=
  ⟨(internal_calls_have_edges Token.ofSteps_steps ⟨4⟩).1 Token.creationGraph_tree,
    (internal_calls_have_edges Token.ofSteps_steps ⟨4⟩).2 _ _ Token.deploymentGraph_tree⟩

end Tree

/-! ### A booth

The callee of a call is noted as called directly, but it names a state variable. -/

namespace Booth

/-- The callee: the name of the variable, with the notes that the name of a function would have. -/
def line : Expr := (Expr.functionRef "line" ⟨1⟩).calledDirectly

def ring : Function :=
  ⟨⟨2⟩, "ring", some ⟨0⟩, .function, .public, false, [], [], [], some [.eval (.callOf line [])]⟩

def steps : List Step :=
  [ .contract "Booth" .contract false [],
    .variable ⟨some ⟨0⟩, "line", "function()", false, false, false, [], none⟩,
    .function ⟨some ⟨0⟩, "ring", .function, none, false, [], [], [],
      .written [.eval (.callOf line [])]⟩ ]

def tree : Tree := (Tree.ofSteps steps).toOption.getD {}

def creation : CallGraph := (tree.creationGraph ⟨0⟩).result.toOption.getD ⟨⟨0⟩, "", ∅, ∅, ∅, ∅⟩

def deployed : CallGraph :=
  (tree.deploymentGraph ⟨0⟩ creation .standard).result.toOption.getD ⟨⟨0⟩, "", ∅, ∅, ∅, ∅⟩

theorem ofSteps_steps : Tree.ofSteps steps = .ok tree := eq_ok_of_isOk (by cbv) _

theorem deploymentGraph_tree :
    (tree.deploymentGraph ⟨0⟩ creation .standard).result = .ok deployed :=
  eq_ok_of_isOk (by cbv) _

theorem callable?_ring : tree.callable? ⟨2⟩ = some (.function ring) := by cbv

theorem root_call : (Callable.function ring).Root (.callOf line []) :=
  .inr ⟨.eval (.callOf line []), ⟨_, rfl, _, List.mem_singleton_self _, .refl⟩, .eval⟩

/-- The graph of the booth is built, with the function, but without an edge for the call. -/
theorem booth_call_has_no_edge : ∃ r, tree.resolver ⟨0⟩ = .ok r ∧
    (tree.deploymentGraph ⟨0⟩ creation .standard).result = .ok deployed ∧
    r.CallsInternally (deployed.RootAt r (fun _ _ => False) (.callable ⟨2⟩)) line ∧
    ¬ deployed.HasCall r (.callable ⟨2⟩) line := by
  obtain ⟨r, hr, htree, _⟩ :=
    Tree.exists_deployment (Tree.wellFormed_of_ofSteps ofSteps_steps) deploymentGraph_tree
  have hring : deployed.callables.contains ⟨2⟩ = true := by cbv
  have hcallees : deployed.callees (.callable ⟨2⟩) = [] := by cbv
  refine ⟨r, hr, deploymentGraph_tree, ⟨_, _, .root (.inr ⟨_, ⟨⟨2⟩, ?_, rfl, ?_⟩, root_call⟩), rfl⟩, ?_⟩
  · exact List.contains_iff_mem.1 hring
  · rw [htree, callable?_ring]
  · rintro (hdispatch | ⟨_, _, _, htarget⟩)
    · rw [hcallees] at hdispatch
      cases hdispatch
    · rw [hcallees] at htarget
      cases htarget

end Booth

end ContractCalls
