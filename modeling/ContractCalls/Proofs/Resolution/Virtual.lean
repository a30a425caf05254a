import ContractCalls.Proofs.Inheritance.Linearized
import ContractCalls.Proofs.Resolution.Targets

/-!
# Virtual references

A virtual reference leads to the first callable that is the one named or overrides it, when
the contracts are gone through from the most derived one on, and in each of them the functions
before the modifiers.  If there is none it leads to what is named
(`virtual_leads_to_first_implementation`).

`Resolver.Resolves` is what all statements about references rest on: which callables a resolver
looks at, and that it knows what each of them implements.
-/

namespace ContractCalls
namespace Tree

/-- The callables that are declared in a contract: its functions, then its modifiers, each in the
order of writing. -/
def callablesOf (t : Tree) (contract : DeclId) : List DeclId :=
  t.membersOf contract .function ++ t.membersOf contract .modifier

/-- The callables of several contracts, one contract after the other. -/
def hierarchy (t : Tree) (contracts : List DeclId) : List DeclId := contracts.flatMap t.callablesOf

variable {t : Tree}

theorem WellFormed.callables_eq (h : t.WellFormed) {id : DeclId} {c : Contract}
    (hc : t.contract? id = some c) : c.callables = t.callablesOf id := by
  have hm : t.members? id = some c.members := by
    rw [members?, hc]
    rfl
  have hfunctions := h.members id _ .function hm
  have hmodifiers := h.members id _ .modifier hm
  rw [callablesOf, ← hfunctions, ← hmodifiers]
  rfl

theorem scope_of_mem_callablesOf {contract x : DeclId} (hx : x ∈ t.callablesOf contract) :
    (t.callable? x).bind Callable.scope = some contract := by
  have hprofile : ∃ d, t.find? x = some d ∧ (d.kind = .function ∨ d.kind = .modifier) ∧
      d.scope? = some contract := by
    simp only [callablesOf, membersOf, List.mem_append, List.mem_filter, profile?,
      Option.any_eq_true, Option.map_eq_some_iff, decide_eq_true_eq] at hx
    obtain ⟨_, _, ⟨d, hd, rfl⟩, hkind, hscope⟩ | ⟨_, _, ⟨d, hd, rfl⟩, hkind, hscope⟩ := hx
    · exact ⟨d, hd, .inl hkind, hscope⟩
    · exact ⟨d, hd, .inr hkind, hscope⟩
  obtain ⟨d, hd, hkind, hscope⟩ := hprofile
  rw [callable?, hd]
  cases d with
  | function f => exact hscope
  | modifier m => exact hscope
  | _ => rcases hkind with hkind | hkind <;> cases hkind

theorem WellFormed.map_id_mapM (h : t.WellFormed) {ids : List DeclId} {contracts : List Contract}
    (hids : ids.mapM t.requireContract = .ok contracts) : contracts.map Contract.id = ids := by
  induction ids generalizing contracts with
  | nil =>
    cases hids
    rfl
  | cons id ids ih =>
    rw [List.mapM_cons] at hids
    obtain ⟨c, hc, hids⟩ := bind_eq_ok hids
    obtain ⟨rest, hrest, hids⟩ := bind_eq_ok hids
    cases hids
    have hid : c.id = id := h.id_of_find? (contract?_eq_some.1 (require_eq_ok.1 hc))
    rw [List.map_cons, hid, ih hrest]

/-- The order of a contract begins with the contract, so it is not empty. -/
theorem WellFormed.isEmpty_of_mapM (h : t.WellFormed) {contract : DeclId} {ids : List DeclId}
    {bases : List Contract} (horder : t.HasOrder contract ids)
    (hbases : ids.mapM t.requireContract = .ok bases) : bases.isEmpty = false := by
  cases bases with
  | nil =>
    have hhead := horder.head
    rw [← h.map_id_mapM hbases] at hhead
    cases hhead
  | cons b bases => rfl

theorem flatMap_callables {bs : List Contract}
    (h : ∀ b ∈ bs, b.callables = t.callablesOf b.id) :
    bs.flatMap Contract.callables = t.hierarchy (bs.map Contract.id) := by
  rw [hierarchy, List.flatMap_map]
  exact List.flatMap_congr h

/-- The callables of contracts that were looked up are those declared in them. -/
theorem WellFormed.flatMap_callables_of_mapM (h : t.WellFormed) {ids : List DeclId}
    {bases : List Contract} (hbases : ids.mapM t.requireContract = .ok bases) :
    bases.flatMap Contract.callables = t.hierarchy ids := by
  rw [← h.map_id_mapM hbases]
  exact flatMap_callables fun b hb => h.callables_eq (h.contract?_of_mem_mapM hbases hb)

end Tree

namespace Resolver

/-- The resolver goes through the hierarchy of a contract, and knows what each callable of it
implements. -/
structure Resolves (r : Resolver) (c : Contract) : Prop where
  contract : r.contract = c
  order : r.linearization.map Contract.id = c.linearized
  nodup : c.linearized.Nodup
  callables : ∀ b ∈ r.linearization, b.callables = r.tree.callablesOf b.id
  implements : ∀ x ∈ r.tree.hierarchy c.linearized, ∀ id,
    r.implements id x = true ↔ r.tree.Implements x id
  table : ∀ id : DeclId, r.table[id]? = (r.tree.hierarchy c.linearized).find? (r.implements id)

/-- **The resolver of a contract** in a tree that was written. -/
theorem resolves_of_resolver {t : Tree} {contract : DeclId} {r : Resolver} (ht : t.WellFormed)
    (hlinear : t.Linearized) (h : t.resolver contract = .ok r) :
    ∃ c, t.contract? contract = some c ∧ r.tree = t ∧ r.Resolves c := by
  unfold Tree.resolver at h
  obtain ⟨c, hc, h⟩ := bind_eq_ok h
  rw [Tree.requireContract, Tree.require_eq_ok] at hc
  have horder : t.HasOrder contract c.linearized := hlinear contract c hc
  obtain ⟨htree, hcontract⟩ := of_ofContract h
  obtain ⟨himplements, htable⟩ := knows_of_ofContract h
  unfold ofContract at h
  obtain ⟨bases, hbases, h⟩ := bind_eq_ok h
  obtain ⟨families, _, h⟩ := bind_eq_ok h
  obtain ⟨getters, _, h⟩ := bind_eq_ok h
  have hids : bases.map Contract.id = c.linearized := ht.map_id_mapM hbases
  have hlinearization : r.linearization = bases := by
    cases h
    exact if_neg (by simp [ht.isEmpty_of_mapM horder hbases])
  have hcallables : ∀ b ∈ bases, b.callables = t.callablesOf b.id := fun b hb =>
    ht.callables_eq (ht.contract?_of_mem_mapM hbases hb)
  have hhierarchy : r.callables = t.hierarchy c.linearized := by
    rw [callables, hlinearization, ht.flatMap_callables_of_mapM hbases]
  rw [hhierarchy] at himplements htable
  subst htree
  rw [← hlinearization] at hids hcallables
  exact ⟨c, hc, rfl, hcontract, hids, horder.nodup, hcallables, himplements, htable⟩

namespace Resolves

variable {r : Resolver} {c : Contract} {id x : DeclId} {xs : List DeclId}

theorem find?_eq_some (h : r.Resolves c) (hxs : xs ⊆ r.tree.hierarchy c.linearized) :
    xs.find? (r.implements id) = some x ↔ r.tree.FirstImplementing id xs x :=
  find?_implements_eq_some fun x hx => h.implements x (hxs hx) id

theorem find?_eq_none (h : r.Resolves c) (hxs : xs ⊆ r.tree.hierarchy c.linearized) :
    xs.find? (r.implements id) = none ↔ ∀ x ∈ xs, ¬ r.tree.Implements x id := by
  rw [List.find?_eq_none]
  exact forall₂_congr fun x hx => not_congr (h.implements x (hxs hx) id)

theorem resolveVirtual_eq (h : r.Resolves c) (id : DeclId) :
    r.resolveVirtual id = ((r.tree.hierarchy c.linearized).find? (r.implements id)).getD id := by
  rw [resolveVirtual, h.table]

end Resolves

end Resolver

/-! ### A relay

A diamond in which three contracts have a function that hands on to the next one.  The one on the
right overrides the one of the root through a function outside of the diamond, and the two run
in a circle. -/

namespace Relay

def function (contract : DeclId) (name : String) (overrides : List DeclId) : Step :=
  .function ⟨some contract, name, .function, none, true, overrides, [], [], .usual⟩

def steps : List Step :=
  [ Diamond.contract "Root" [],
    function ⟨0⟩ "pass" [],
    Diamond.contract "Left" [⟨0⟩],
    function ⟨2⟩ "pass" [⟨1⟩],
    Diamond.contract "Right" [⟨0⟩],
    function ⟨4⟩ "pass" [⟨9⟩],
    Diamond.contract "Bottom" [⟨2⟩, ⟨4⟩],
    function ⟨6⟩ "start" [],
    Diamond.contract "Other" [],
    function ⟨8⟩ "pass" [⟨5⟩, ⟨1⟩] ]

def tree : Tree := (Tree.ofSteps steps).toOption.getD {}

theorem ofSteps_steps : Tree.ofSteps steps = .ok tree := eq_ok_of_isOk (by cbv) _

/-- The contract at the bottom of the relay can be resolved, and `pass` leads to the right. -/
theorem exists_resolver : ∃ r, tree.resolver ⟨6⟩ = .ok r ∧ r.resolveVirtual ⟨1⟩ = ⟨5⟩ := by
  have h : (tree.resolver ⟨6⟩).toOption.map (·.resolveVirtual ⟨1⟩) = some ⟨5⟩ := by cbv
  cases hr : tree.resolver ⟨6⟩ with
  | error e =>
    rw [hr] at h
    cases h
  | ok r =>
    rw [hr] at h
    exact ⟨r, rfl, Option.some.inj h⟩

theorem bottom {c : Contract} (hc : tree.contract? ⟨6⟩ = some c) :
    c.name = "Bottom" ∧ c.linearized = [⟨6⟩, ⟨4⟩, ⟨2⟩, ⟨0⟩] := by
  have h : (tree.contract? ⟨6⟩).map (fun c => (c.name, c.linearized)) =
      some ("Bottom", [⟨6⟩, ⟨4⟩, ⟨2⟩, ⟨0⟩]) := by cbv
  rw [hc] at h
  exact Prod.mk.inj (Option.some.inj h)

theorem hierarchy_tree :
    tree.hierarchy [⟨6⟩, ⟨4⟩, ⟨2⟩, ⟨0⟩] = [⟨7⟩, ⟨5⟩, ⟨3⟩, ⟨1⟩] := by
  cbv

end Relay

namespace Resolver

/-- **Virtual references lead to the first implementation.**  For every id whatever, it is the first
callable of the hierarchy that is this id or overrides it through any chain, and the id
itself if there is none. -/
theorem virtual_leads_to_first_implementation {steps : List Step} {t : Tree}
    (ht : Tree.ofSteps steps = .ok t) {contract : DeclId} {r : Resolver}
    (hr : t.resolver contract = .ok r) :
    ∃ c, t.contract? contract = some c ∧ ∀ id,
      t.FirstImplementing id (t.hierarchy c.linearized) (r.resolveVirtual id) ∨
        (∀ x ∈ t.hierarchy c.linearized, ¬ t.Implements x id) ∧ r.resolveVirtual id = id := by
  obtain ⟨c, hc, rfl, hresolves⟩ :=
    resolves_of_resolver (Tree.wellFormed_of_ofSteps ht) (Tree.hasOrder_of_ofSteps ht) hr
  refine ⟨c, hc, fun id => ?_⟩
  rw [hresolves.resolveVirtual_eq]
  cases hfind : (r.tree.hierarchy c.linearized).find? (r.implements id) with
  | none => exact .inr ⟨(hresolves.find?_eq_none (List.Subset.refl _)).1 hfind, rfl⟩
  | some x => exact .inl ((hresolves.find?_eq_some (List.Subset.refl _)).1 hfind)

theorem relay_virtual_leads_to_first_implementation : ∃ r, Relay.tree.resolver ⟨6⟩ = .ok r ∧
    r.resolveVirtual ⟨1⟩ = ⟨5⟩ ∧
    Relay.tree.FirstImplementing ⟨1⟩ [⟨7⟩, ⟨5⟩, ⟨3⟩, ⟨1⟩] (r.resolveVirtual ⟨1⟩) := by
  obtain ⟨r, hr, hvirtual⟩ := Relay.exists_resolver
  obtain ⟨c, hc, h⟩ := virtual_leads_to_first_implementation Relay.ofSteps_steps hr
  have horder := (Relay.bottom hc).2
  refine ⟨r, hr, hvirtual, ?_⟩
  rcases h ⟨1⟩ with hfirst | ⟨_, hself⟩
  · rw [horder, Relay.hierarchy_tree] at hfirst
    exact hfirst
  · rw [hvirtual] at hself
    cases hself

end Resolver
end ContractCalls
