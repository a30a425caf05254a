import ContractCalls.Proofs.Build.Run

/-!
# Where edges start

An edge that a finding brings starts at the outside or at a callable of the tree: at the callable
whose code is read, at the constructor that arguments for bases are read for, or at a modifier that
goes on into its function (`fromCallables_code`, `fromCallables_creationSeeds`).  So no callable that
an edge starts at has the key of another node.
-/

namespace ContractCalls

open Finding

/-- Code can be read for the node: it is the outside, or a callable of the tree. -/
def Node.HasCode (t : Tree) (n : Node) : Prop :=
  n = .entry ∨ ∃ id, n = .callable id ∧ (t.callable? id).isSome = true

/-- The edge of the finding starts at the outside, or at a callable of the tree. -/
def Finding.FromCallables (t : Tree) (f : Finding) : Prop :=
  ∀ caller callee, f.edge? = some (caller, callee) → caller.HasCode t

theorem Finding.fromCallables_of_site {t : Tree} {f : Finding}
    (h : ∀ s, f = .site s → s.kind ≠ .reference → s.caller.HasCode t) : f.FromCallables t := by
  intro caller callee hedge
  obtain ⟨s, rfl, hkind, _, rfl⟩ := Finding.caller_of_edge? hedge
  exact h s rfl hkind

namespace Resolver

variable {r : Resolver} {n : Node} {s : CallSite} {f : Finding}

theorem SiteOf.caller {root : Expr → Prop} (h : r.SiteOf root n s) : s.caller = n := by
  cases h <;> rfl

theorem fromCallables_code (hfits : r.Fits) {id : DeclId} (hf : f ∈ r.code id) :
    f.FromCallables r.tree := by
  refine fromCallables_of_site fun s hs _ => ?_
  subst hs
  obtain ⟨c, hc⟩ := callable?_of_site_mem_code hf
  have hid : (r.tree.callable? id).isSome = true := Option.isSome_of_eq_some hc
  rcases (site_mem_code hc).1 hf with h | h
  · exact .inr ⟨id, h.caller, hid⟩
  · cases h with
    | attach => exact .inr ⟨id, rfl, hid⟩
    | goOn _ hattaches => exact .inr ⟨_, rfl, hattaches.callable? hfits⟩

theorem hasCode_argumentNode (hfits : r.Fits) {c : Contract} (hc : c ∈ r.linearization) :
    (r.argumentNode c).HasCode r.tree := by
  unfold argumentNode
  cases hk : r.constructor? c with
  | none => exact .inl rfl
  | some k =>
    have hfunction := (hfits.constructor?_eq_some hc hk).1
    exact .inr ⟨k.id, rfl, Option.isSome_of_eq_some (Tree.callable?_of_function? hfunction)⟩

theorem fromCallables_creationSeeds (hfits : r.Fits) (hf : f ∈ r.creationSeeds) :
    f.FromCallables r.tree := by
  refine fromCallables_of_site fun s hs _ => ?_
  subst hs
  obtain ⟨c, hc, h | ⟨_, _, rfl⟩ | h⟩ := site_mem_creationSeeds.1 hf
  · exact .inl h.caller
  · exact .inl rfl
  · rw [h.caller]
    exact hasCode_argumentNode hfits hc

theorem fromCallables_entrySites {t : Tree} (hf : f ∈ Build.entrySites r) : f.FromCallables t := by
  obtain ⟨k, _, rfl⟩ := List.mem_map.1 hf
  refine fromCallables_of_site fun s hs _ => ?_
  cases hs
  exact .inl rfl

theorem fromCallables_carriedSite {t : Tree} (id : DeclId) :
    (Build.carriedSite id).FromCallables t := by
  intro caller callee hedge
  cases hedge

theorem Found.fromCallables {seeds : List Finding} {carried : DeclId → Prop} (hfits : r.Fits)
    (hseeds : ∀ f ∈ seeds, f.FromCallables r.tree) (h : r.Found seeds carried f) :
    f.FromCallables r.tree := by
  cases h with
  | seed hf => exact hseeds f hf
  | called _ _ hf => exact fromCallables_code hfits hf
  | dispatched _ _ _ _ hf => exact fromCallables_code hfits hf
  | carried => exact fromCallables_carriedSite _

end Resolver

end ContractCalls
