import ContractCalls.Proofs.Build.Finished

/-!
# Edges and code

The edges of a finished graph, told from the text of the program.

* `Resolver.Leads`: code calls a callable by its name, or calls through a pointer.
* `Resolver.Modifies`: an invocation in the head of a function attaches a modifier.
* `Tree.GoesOn`: a modifier has a placeholder, and goes on into the functions it modifies.

`mem_callees_callable` says which edges start at a callable, `mem_callees_entry` which at the
outside.  Both leave the edges of the seeds open; these are those of the variant.
-/

namespace ContractCalls

open Finding

namespace Resolver

/-- What code leads to: a callable that it calls by name, or the calls through pointers. -/
def Leads (r : Resolver) (root : Expr → Prop) (m : Node) : Prop :=
  (∃ target, m = .callable target ∧ r.Calls root target) ∨
    (m = .internalDispatch ∧ r.tree.CallsPointer root)

/-- An invocation in the head of the function leads to the modifier. -/
def Modifies (r : Resolver) (function modifier : DeclId) : Prop :=
  ∃ c, r.tree.callable? function = some c ∧
    ∃ i ∈ c.invocations, ∃ declared, r.Attaches i declared modifier

variable {r : Resolver} {seeds : List Finding} {carried : DeclId → Prop} {a b : Node}

theorem hasEdge_iff_site {found : Finding → Prop} :
    HasEdge found a b ↔ ∃ s, found (.site s) ∧ (Finding.site s).edge? = some (a, b) := by
  constructor
  · intro hex
    obtain ⟨f, hf, hedge⟩ := hex
    obtain ⟨s, rfl, _⟩ := Finding.caller_of_edge? hedge
    exact ⟨s, hf, hedge⟩
  · intro hex
    obtain ⟨s, hs, hedge⟩ := hex
    exact ⟨_, hs, hedge⟩

/-- The edges of code that is read for a node. -/
theorem edge_siteOf {root : Expr → Prop} {n : Node} :
    (∃ s, r.SiteOf root n s ∧ (Finding.site s).edge? = some (a, b)) ↔ a = n ∧ r.Leads root b := by
  constructor
  · intro hex
    obtain ⟨s, hs, hedge⟩ := hex
    cases hs with
    | call he hnames hd =>
      cases hedge
      exact ⟨rfl, .inl ⟨_, rfl, _, _, he, hnames, hd⟩⟩
    | take => cases hedge
    | indirect h =>
      cases hedge
      exact ⟨rfl, .inr ⟨rfl, h⟩⟩
  · intro hex
    obtain ⟨rfl, ⟨target, rfl, e, declared, he, hnames, hd⟩ | ⟨rfl, h⟩⟩ := hex
    · exact ⟨_, .call he hnames hd, rfl⟩
    · exact ⟨_, .indirect h, rfl⟩

theorem edge_invocationSite {function : DeclId} {c : Callable}
    (hc : r.tree.callable? function = some c) :
    (∃ s, r.InvocationSite c.invocations function s ∧ (Finding.site s).edge? = some (a, b)) ↔
      (a = .callable function ∧ ∃ k, b = .callable k ∧ r.Modifies function k) ∨
      (b = .callable function ∧ ∃ k, a = .callable k ∧ r.Modifies function k ∧ r.tree.GoesOn k) := by
  constructor
  · intro hex
    obtain ⟨s, hs, hedge⟩ := hex
    cases hs with
    | attach hi hattaches =>
      cases hedge
      exact .inl ⟨rfl, _, rfl, c, hc, _, hi, _, hattaches⟩
    | goOn hi hattaches hgoes =>
      cases hedge
      exact .inr ⟨rfl, _, rfl, ⟨c, hc, _, hi, _, hattaches⟩, hgoes⟩
  · intro hor
    rcases hor with ⟨rfl, k, rfl, hmod⟩ | ⟨rfl, k, rfl, hmod, hgoes⟩
    · obtain ⟨c', hc', i, hi, declared, hattaches⟩ := hmod
      cases hc.symm.trans hc'
      exact ⟨_, .attach hi hattaches, rfl⟩
    · obtain ⟨c', hc', i, hi, declared, hattaches⟩ := hmod
      cases hc.symm.trans hc'
      exact ⟨_, .goOn hi hattaches hgoes, rfl⟩

/-- **The edges that the code of a callable brings**: what it calls, the modifiers attached to
it, and the ways back from them. -/
theorem hasEdge_code {id : DeclId} {c : Callable} (hc : r.tree.callable? id = some c) :
    HasEdge (· ∈ r.code id) a b ↔
      (a = .callable id ∧ (r.Leads c.Root b ∨ ∃ k, b = .callable k ∧ r.Modifies id k)) ∨
      (b = .callable id ∧ ∃ k, a = .callable k ∧ r.Modifies id k ∧ r.tree.GoesOn k) := by
  rw [hasEdge_iff_site]
  simp only [site_mem_code hc, or_and_right, exists_or, edge_siteOf, edge_invocationSite hc]
  rw [← or_assoc, ← and_or_left]

/-- **The edges that start a construction.** -/
theorem hasEdge_creationSeeds :
    HasEdge (· ∈ r.creationSeeds) a b ↔ ∃ c ∈ r.linearization,
      (a = .entry ∧ r.Leads (r.tree.Initializer c) b) ∨
      (a = .entry ∧ ∃ k, r.constructor? c = some k ∧ b = .callable k.id) ∨
      (a = r.argumentNode c ∧ r.Leads c.BaseArg b) := by
  have hentry : ∀ c, (∃ s : CallSite, (∃ k, r.constructor? c = some k ∧
      s = ⟨.entry, .direct, .exact k.id⟩) ∧ (Finding.site s).edge? = some (a, b)) ↔
      a = .entry ∧ ∃ k, r.constructor? c = some k ∧ b = .callable k.id := by
    intro c
    constructor
    · intro hex
      obtain ⟨s, ⟨k, hk, rfl⟩, hedge⟩ := hex
      cases hedge
      exact ⟨rfl, k, hk, rfl⟩
    · intro hex
      obtain ⟨rfl, k, hk, rfl⟩ := hex
      exact ⟨_, ⟨k, hk, rfl⟩, rfl⟩
  rw [hasEdge_iff_site]
  simp only [site_mem_creationSeeds]
  constructor
  · intro hex
    obtain ⟨s, ⟨c, hc, hs | hs | hs⟩, hedge⟩ := hex
    · exact ⟨c, hc, .inl (edge_siteOf.1 ⟨s, hs, hedge⟩)⟩
    · exact ⟨c, hc, .inr (.inl ((hentry c).1 ⟨s, hs, hedge⟩))⟩
    · exact ⟨c, hc, .inr (.inr (edge_siteOf.1 ⟨s, hs, hedge⟩))⟩
  · intro hex
    obtain ⟨c, hc, h | h | h⟩ := hex
    · obtain ⟨s, hs, hedge⟩ := edge_siteOf.2 h
      exact ⟨s, ⟨c, hc, .inl hs⟩, hedge⟩
    · obtain ⟨s, hs, hedge⟩ := (hentry c).2 h
      exact ⟨s, ⟨c, hc, .inr (.inl hs)⟩, hedge⟩
    · obtain ⟨s, hs, hedge⟩ := edge_siteOf.2 h
      exact ⟨s, ⟨c, hc, .inr (.inr hs)⟩, hedge⟩

theorem hasEdge_entrySites :
    HasEdge (· ∈ Build.entrySites r) a b ↔
      a = .entry ∧ ∃ f ∈ r.entryPoints, b = .callable f.id := by
  constructor
  · intro hex
    obtain ⟨f, hf, hedge⟩ := hex
    obtain ⟨k, hk, rfl⟩ := List.mem_map.1 hf
    cases hedge
    exact ⟨rfl, k, hk, rfl⟩
  · intro hex
    obtain ⟨rfl, k, hk, rfl⟩ := hex
    exact ⟨_, List.mem_map_of_mem hk, rfl⟩

end Resolver

namespace Build.Finished

variable {r : Resolver} {seeds : List Finding} {carried : DeclId → Prop} {b : Build} {n m : Node}

theorem ofKey_callee (hstarts : r.Starts seeds) {x y : Node}
    (h : HasEdge (r.Found seeds carried) x y) : Node.ofKey y.key = y := by
  obtain ⟨f, hf, hedge⟩ := h
  have hcallee := (hf.regular hstarts).callee x y hedge
  cases y with
  | callable id => exact Node.ofKey_of_plain (hf.plain_target hstarts hcallee.2.1)
  | entry => exact absurd rfl hcallee.1
  | internalDispatch => exact Node.ofKey_internalDispatchKey

/-- Edges that do not start at the calls through pointers come from the seeds, or from the code
of the callables of the graph. -/
theorem mem_callees (h : Finished r seeds carried b) (hstarts : r.Starts seeds)
    (hn : n.key ≠ Node.internalDispatchKey) :
    m ∈ b.graph.callees n ↔ (∃ x, x.key = n.key ∧ HasEdge (· ∈ seeds) x m) ∨
      ∃ id ∈ b.graph.callables, ∃ x, x.key = n.key ∧ HasEdge (· ∈ r.code id) x m := by
  have hfound : m ∈ b.graph.callees n ↔
      ∃ x, x.key = n.key ∧ HasEdge (r.Found seeds carried) x m := by
    rw [CallGraph.mem_callees]
    constructor
    · intro hex
      obtain ⟨k, hk, rfl⟩ := hex
      rcases (h.tells.targets n.key k).1 hk with ⟨x, y, hedge, hx, rfl⟩ | ⟨hkey, _⟩
      · rw [ofKey_callee hstarts hedge]
        exact ⟨x, hx, hedge⟩
      · exact absurd hkey hn
    · intro hex
      obtain ⟨x, hx, hedge⟩ := hex
      exact ⟨m.key, (h.tells.targets n.key m.key).2 (.inl ⟨x, m, hedge, hx, rfl⟩),
        ofKey_callee hstarts hedge⟩
  rw [hfound]
  constructor
  · intro hex
    obtain ⟨x, hx, f, hf, hedge⟩ := hex
    obtain ⟨s, rfl, _⟩ := Finding.caller_of_edge? hedge
    rcases hf.origin (by simp) with hf | ⟨id, hid, hplain, hf⟩ | ⟨id, _, _, hf⟩
    · exact .inl ⟨x, hx, _, hf, hedge⟩
    · exact .inr ⟨id, h.mem_callables.2 ⟨hid, hplain⟩, x, hx, _, hf, hedge⟩
    · rw [hf] at hedge
      cases hedge
  · intro hor
    rcases hor with ⟨x, hx, f, hf, hedge⟩ | ⟨id, hid, x, hx, f, hf, hedge⟩
    · exact ⟨x, hx, f, .seed hf, hedge⟩
    · exact ⟨x, hx, f, .of_queued (h.mem_callables.1 hid).1 hf, hedge⟩

/-- **The edges that start at a callable**, besides those of the seeds. -/
theorem mem_callees_callable (h : Finished r seeds carried b) (hstarts : r.Starts seeds)
    {id : DeclId} {c : Callable} (hid : id ∈ b.graph.callables)
    (hc : r.tree.callable? id = some c) :
    m ∈ b.graph.callees (.callable id) ↔ (∃ x, x.key = id ∧ HasEdge (· ∈ seeds) x m) ∨
      r.Leads c.Root m ∨ (∃ k, m = .callable k ∧ r.Modifies id k) ∨
      ∃ k ∈ b.graph.callables, m = .callable k ∧ r.Modifies k id ∧ r.tree.GoesOn id := by
  have hplain := (CallGraph.mem_callables.1 hid).2
  rw [h.mem_callees (n := .callable id) hstarts hplain.2]
  refine or_congr_right ⟨?_, ?_⟩
  · intro hex
    obtain ⟨k, hk, x, hx, hedge⟩ := hex
    obtain ⟨c', hc'⟩ := h.exists_callable? hk
    rcases (Resolver.hasEdge_code hc').1 hedge with ⟨rfl, hm⟩ | ⟨rfl, k', rfl, hmod, hgoes⟩
    · cases hx
      cases hc.symm.trans hc'
      exact hm.elim .inl fun hm => .inr (.inl hm)
    · cases hx
      exact .inr (.inr ⟨k, hk, rfl, hmod, hgoes⟩)
  · intro hor
    rcases hor with hm | hm | ⟨k, hk, rfl, hmod, hgoes⟩
    · exact ⟨id, hid, _, rfl, (Resolver.hasEdge_code hc).2 (.inl ⟨rfl, .inl hm⟩)⟩
    · exact ⟨id, hid, _, rfl, (Resolver.hasEdge_code hc).2 (.inl ⟨rfl, .inr hm⟩)⟩
    · obtain ⟨c', hc'⟩ := h.exists_callable? hk
      exact ⟨k, hk, _, rfl, (Resolver.hasEdge_code hc').2 (.inr ⟨rfl, id, rfl, hmod, hgoes⟩)⟩

/-- **The edges that start at the outside** are those of the seeds. -/
theorem mem_callees_entry (h : Finished r seeds carried b) (hstarts : r.Starts seeds) :
    m ∈ b.graph.callees .entry ↔ ∃ x, x.key = Node.entryKey ∧ HasEdge (· ∈ seeds) x m := by
  rw [h.mem_callees hstarts (by simp [Node.key, Node.entryKey, Node.internalDispatchKey])]
  refine or_iff_left ?_
  intro hex
  obtain ⟨k, hk, x, hx, hedge⟩ := hex
  obtain ⟨c, hc⟩ := h.exists_callable? hk
  -- What the code of a callable brings starts at a callable.
  rcases (Resolver.hasEdge_code hc).1 hedge with ⟨rfl, _⟩ | ⟨_, k', rfl, hmod, _⟩
  · exact (CallGraph.mem_callables.1 hk).2.1 hx
  · obtain ⟨_, _, i, _, declared, hattaches⟩ := hmod
    exact (Tree.plain_of_callable? (hattaches.callable? hstarts.fits)).1 hx

end Build.Finished

end ContractCalls
