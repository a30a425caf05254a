import ContractCalls.Proofs.Resolution.Virtual
import Mathlib.Data.List.Nodup
import Mathlib.Data.List.TakeWhile

/-!
# Super references

The implementations of an id form a chain: of each contract of the hierarchy that has one, the
first, in the order of the hierarchy (`Tree.SuperChain`).  A virtual reference leads to the first
of the chain, and a super reference to the first that lies behind the contract it is written in
(`Resolver.Follows`).  So when each implementation hands on to the next one by a super reference,
all of them run, each once, and the last one has nowhere to hand on to
(`super_goes_through_the_chain`).
-/

namespace ContractCalls
namespace Tree

/-- The implementations of `id` in some contracts, each with its contract: of each contract that has
one, the first. -/
inductive SuperChain (t : Tree) (id : DeclId) : List DeclId → List (DeclId × DeclId) → Prop
  | nil : SuperChain t id [] []
  | skip {b : DeclId} {bs : List DeclId} {chain : List (DeclId × DeclId)} :
      (∀ x ∈ t.callablesOf b, ¬ t.Implements x id) → SuperChain t id bs chain →
      SuperChain t id (b :: bs) chain
  | take {b m : DeclId} {bs : List DeclId} {chain : List (DeclId × DeclId)} :
      t.FirstImplementing id (t.callablesOf b) m → SuperChain t id bs chain →
      SuperChain t id (b :: bs) ((b, m) :: chain)

variable {t : Tree} {id : DeclId}

theorem FirstImplementing.mem {xs : List DeclId} {m : DeclId} (h : t.FirstImplementing id xs m) :
    m ∈ xs := by
  obtain ⟨before, after, rfl, _⟩ := h
  simp

theorem callablesOf_subset {b : DeclId} {bs : List DeclId} (hb : b ∈ bs) :
    t.callablesOf b ⊆ t.hierarchy bs :=
  fun _ hx => List.mem_flatMap_of_mem hb hx

namespace SuperChain

variable {bs : List DeclId} {chain : List (DeclId × DeclId)}

theorem sublist (h : t.SuperChain id bs chain) : (chain.map Prod.fst).Sublist bs := by
  induction h with
  | nil => exact List.Sublist.refl _
  | skip _ _ ih => exact .cons _ ih
  | take _ _ ih => exact .cons_cons _ ih

theorem scope (h : t.SuperChain id bs chain) :
    (chain.map Prod.snd).map (fun m => (t.callable? m).bind Callable.scope) =
      (chain.map Prod.fst).map some := by
  induction h with
  | nil => rfl
  | skip _ _ ih => exact ih
  | take hfirst _ ih =>
    rw [List.map_cons, List.map_cons, List.map_cons, List.map_cons,
      scope_of_mem_callablesOf hfirst.mem, ih]

theorem nodup_snd (h : t.SuperChain id bs chain) (hbs : bs.Nodup) : (chain.map Prod.snd).Nodup := by
  have hsome : ((chain.map Prod.fst).map some).Nodup :=
    (hbs.sublist h.sublist).map fun _ _ => Option.some.inj
  rw [← h.scope] at hsome
  exact List.Nodup.of_map _ hsome

/-- Behind a contract, the chain goes on with the chain of the contracts behind it. -/
theorem behind {before after : List DeclId} {scope : DeclId}
    (h : t.SuperChain id (before ++ scope :: after) chain)
    (hnodup : (before ++ scope :: after).Nodup) :
    ∃ rest, t.SuperChain id after rest ∧ chain.find? (fun p => p.1 ∈ after) = rest.head? := by
  induction before generalizing chain with
  | nil =>
    have hscope : scope ∉ after := (List.nodup_cons.1 hnodup).1
    have hhead : ∀ rest : List (DeclId × DeclId), t.SuperChain id after rest →
        rest.find? (fun p => p.1 ∈ after) = rest.head? := by
      intro rest hrest
      cases rest with
      | nil => rfl
      | cons p rest =>
        have hp : p.1 ∈ after := hrest.sublist.subset List.mem_cons_self
        rw [List.find?_cons_of_pos (by simpa using hp), List.head?_cons]
    cases h with
    | skip _ h => exact ⟨_, h, hhead _ h⟩
    | take _ h =>
      refine ⟨_, h, ?_⟩
      rw [List.find?_cons_of_neg (by simpa using hscope), hhead _ h]
  | cons b before ih =>
    obtain ⟨hb, hnodup⟩ := List.nodup_cons.1 hnodup
    cases h with
    | skip _ h => exact ih h hnodup
    | take _ h =>
      have hafter : b ∉ after :=
        fun hmem => hb (List.mem_append_right _ (List.mem_cons_of_mem _ hmem))
      rw [List.find?_cons_of_neg (by simpa using hafter)]
      exact ih h hnodup

end SuperChain
end Tree

namespace Resolver

/-! ### Super references of a resolver -/

/-- Each implementation hands on to the next by a super reference to `id`, until this ends in an
error. -/
inductive SuperRun (r : Resolver) (id : DeclId) : DeclId → List DeclId → Error → Prop
  | last {m scope : DeclId} {e : Error} : (r.tree.callable? m).bind Callable.scope = some scope →
      r.resolveSuper id scope = .error e → SuperRun r id m [m] e
  | next {m scope m' : DeclId} {ms : List DeclId} {e : Error} :
      (r.tree.callable? m).bind Callable.scope = some scope →
      r.resolveSuper id scope = .ok m' → SuperRun r id m' ms e → SuperRun r id m (m :: ms) e

/-- References to `id` go through the chain. -/
structure Follows (r : Resolver) (c : Contract) (id : DeclId) (chain : List (DeclId × DeclId)) :
    Prop where
  /-- A virtual reference leads to the first of the chain. -/
  virtual : ∀ first ∈ chain.head?, r.resolveVirtual id = first.2
  /-- A super reference leads to the first of the chain that lies behind. -/
  behind : ∀ before scope after, c.linearized = before ++ scope :: after →
    r.resolveSuper id scope =
      match chain.find? fun p => p.1 ∈ after with
      | some p => .ok p.2
      | none => .error (.inconsistent (.noImplementation id scope c.name))
  /-- A super reference can not be written outside of the hierarchy. -/
  outside : ∀ scope ∉ c.linearized,
    r.resolveSuper id scope = .error (.inconsistent (.superOutsideBases scope c.name))
  forward : (chain.map Prod.fst).Sublist c.linearized ∧ c.linearized.Nodup
  once : (chain.map Prod.snd).Nodup
  /-- From where the virtual reference leads, super references run through the whole chain. -/
  run : ∀ last ∈ chain.getLast?, r.SuperRun id (r.resolveVirtual id) (chain.map Prod.snd)
    (.inconsistent (.noImplementation id last.1 c.name))

namespace Resolves

variable {r : Resolver} {c : Contract} {id scope : DeclId} {bs before after : List DeclId}
  {chain : List (DeclId × DeclId)}

theorem resolveSuper_outside (h : r.Resolves c) (hscope : scope ∉ c.linearized) :
    r.resolveSuper id scope = .error (.inconsistent (.superOutsideBases scope c.name)) := by
  have hdrop : r.linearization.dropWhile (·.id != scope) = [] := by
    rw [List.dropWhile_eq_nil_iff]
    intro b hb
    rw [← h.order] at hscope
    exact bne_iff_ne.2 fun heq => hscope (heq ▸ List.mem_map_of_mem hb)
  rw [resolveSuper, after?, hdrop, h.contract]

/-- A super reference is looked up in the contracts behind. -/
theorem resolveSuper_eq (h : r.Resolves c) (id : DeclId)
    (horder : c.linearized = before ++ scope :: after) :
    r.resolveSuper id scope =
      match (r.tree.hierarchy after).find? (r.implements id) with
      | none => .error (.inconsistent (.noImplementation id scope c.name))
      | some target => .ok target := by
  obtain ⟨front, rest, hsplit, hfront, hrest⟩ := List.map_eq_append_iff.1 (h.order.trans horder)
  obtain ⟨b, back, rfl, hb, hback⟩ := List.map_eq_cons_iff.1 hrest
  have hnodup := h.nodup
  rw [horder, List.nodup_append] at hnodup
  have hpass : ∀ x ∈ front, (x.id != scope) = true := by
    intro x hx
    rw [← hfront] at hnodup
    exact bne_iff_ne.2 (hnodup.2.2 x.id (List.mem_map_of_mem hx) scope List.mem_cons_self)
  have hafter : r.after? scope = some back := by
    rw [after?, hsplit, List.dropWhile_append_of_pos hpass,
      List.dropWhile_cons_of_neg (by simp [hb])]
  have hcallables : ∀ x ∈ back, x.callables = r.tree.callablesOf x.id := by
    intro x hx
    exact h.callables x (by simp [hsplit, hx])
  have hflat : back.flatMap Contract.callables = r.tree.hierarchy after := by
    rw [Tree.flatMap_callables hcallables, hback]
  cases hfind : (r.tree.hierarchy after).find? (r.implements id) with
  | none => simp only [resolveSuper, hafter, hflat, hfind, h.contract]
  | some target => simp only [resolveSuper, hafter, hflat, hfind]

theorem exists_superChain (h : r.Resolves c) (hbs : bs ⊆ c.linearized) :
    ∃ chain, r.tree.SuperChain id bs chain := by
  induction bs with
  | nil => exact ⟨[], .nil⟩
  | cons b bs ih =>
    obtain ⟨hb, hbs⟩ := List.cons_subset.1 hbs
    obtain ⟨chain, hchain⟩ := ih hbs
    have hsub : r.tree.callablesOf b ⊆ r.tree.hierarchy c.linearized :=
      Tree.callablesOf_subset hb
    cases hfind : (r.tree.callablesOf b).find? (r.implements id) with
    | none => exact ⟨chain, .skip ((h.find?_eq_none hsub).1 hfind) hchain⟩
    | some m => exact ⟨(b, m) :: chain, .take ((h.find?_eq_some hsub).1 hfind) hchain⟩

theorem find?_hierarchy (h : r.Resolves c) (hchain : r.tree.SuperChain id bs chain)
    (hbs : bs ⊆ c.linearized) :
    (r.tree.hierarchy bs).find? (r.implements id) = chain.head?.map Prod.snd := by
  induction hchain with
  | nil => rfl
  | @skip b bs chain hnone _ ih =>
    obtain ⟨hb, hbs⟩ := List.cons_subset.1 hbs
    have hfind := (h.find?_eq_none (Tree.callablesOf_subset hb)).2 hnone
    rw [Tree.hierarchy, List.flatMap_cons, List.find?_append, hfind]
    exact ih hbs
  | @take b m bs chain hfirst _ _ =>
    obtain ⟨hb, _⟩ := List.cons_subset.1 hbs
    have hfind := (h.find?_eq_some (Tree.callablesOf_subset hb)).2 hfirst
    rw [Tree.hierarchy, List.flatMap_cons, List.find?_append, hfind]
    rfl

/-- From the first of a chain on, super references run through the rest of it. -/
theorem superRun (h : r.Resolves c) (hchain : r.tree.SuperChain id bs chain)
    (horder : c.linearized = before ++ bs) :
    ∀ first ∈ chain.head?, ∀ last ∈ chain.getLast?,
      r.SuperRun id first.2 (chain.map Prod.snd)
        (.inconsistent (.noImplementation id last.1 c.name)) := by
  induction hchain generalizing before with
  | nil =>
    intro first hfirst
    cases hfirst
  | @skip b bs chain _ _ ih => exact @ih (before ++ [b]) (by simpa using horder)
  | @take b m bs chain hm hrest ih =>
    intro first hfirst last hlast
    cases hfirst
    have hscope := Tree.scope_of_mem_callablesOf hm.mem
    have hbs : bs ⊆ c.linearized := by
      intro x hx
      simp [horder, hx]
    have hsuper := h.resolveSuper_eq id horder
    rw [h.find?_hierarchy hrest hbs] at hsuper
    cases chain with
    | nil =>
      cases hlast
      exact .last hscope hsuper
    | cons p chain =>
      refine .next hscope hsuper ?_
      exact @ih (before ++ [b]) (by simpa using horder) p rfl last (by simpa using hlast)

theorem follows (h : r.Resolves c) (hchain : r.tree.SuperChain id c.linearized chain) :
    r.Follows c id chain := by
  have hvirtual : ∀ first ∈ chain.head?, r.resolveVirtual id = first.2 := by
    intro first hfirst
    rw [h.resolveVirtual_eq, h.find?_hierarchy hchain (List.Subset.refl _), hfirst]
    rfl
  refine
    { virtual := hvirtual
      behind := ?_
      outside := fun scope => h.resolveSuper_outside
      forward := ⟨hchain.sublist, h.nodup⟩
      once := hchain.nodup_snd h.nodup
      run := ?_ }
  · intro before scope after horder
    have hchain' := hchain
    have hnodup := h.nodup
    rw [horder] at hchain' hnodup
    obtain ⟨rest, hrest, hfind⟩ := hchain'.behind hnodup
    have hafter : after ⊆ c.linearized := by
      intro x hx
      simp [horder, hx]
    rw [h.resolveSuper_eq id horder, h.find?_hierarchy hrest hafter, hfind]
    cases rest <;> rfl
  · intro last hlast
    cases chain with
    | nil => cases hlast
    | cons first rest =>
      have horder : c.linearized = [] ++ c.linearized := rfl
      rw [hvirtual first rfl]
      exact h.superRun hchain horder first rfl last hlast

end Resolves

end Resolver

/-! ### The relay -/

namespace Relay

theorem not_implements_start : ¬ tree.Implements ⟨7⟩ ⟨1⟩ := by
  intro h
  rcases Relation.ReflTransGen.cases_head h with heq | ⟨b, hstep, _⟩
  · cases heq
  · obtain ⟨c, hc, hb⟩ := hstep
    have hnone : (tree.callable? ⟨7⟩).map Callable.overrides = some [] := by cbv
    rw [hc] at hnone
    rw [Option.some.inj hnone] at hb
    cases hb

theorem overrides_of {a b : DeclId}
    (h : ((tree.callable? a).any fun c => c.overrides.contains b) = true) : tree.Overrides a b := by
  obtain ⟨c, hc, hb⟩ := Option.any_eq_true _ _ |>.1 h
  exact ⟨c, hc, List.contains_iff_mem.1 hb⟩

theorem superChain : tree.SuperChain ⟨1⟩ [⟨6⟩, ⟨4⟩, ⟨2⟩, ⟨0⟩]
    [(⟨4⟩, ⟨5⟩), (⟨2⟩, ⟨3⟩), (⟨0⟩, ⟨1⟩)] := by
  have hright : tree.Implements ⟨5⟩ ⟨1⟩ :=
    .tail (.single (overrides_of (b := ⟨9⟩) (by cbv))) (overrides_of (by cbv))
  have hleft : tree.Implements ⟨3⟩ ⟨1⟩ := .single (overrides_of (by cbv))
  refine .skip ?_ (.take ⟨[], [], ?_, hright, by simp⟩ (.take ⟨[], [], ?_, hleft, by simp⟩
    (.take ⟨[], [], ?_, .refl, by simp⟩ .nil)))
  · have hcallables : tree.callablesOf ⟨6⟩ = [⟨7⟩] := by cbv
    intro x hx
    rw [hcallables, List.mem_singleton] at hx
    rw [hx]
    exact not_implements_start
  all_goals cbv

end Relay

namespace Resolver

/-- **Super references go through the chain of implementations.**  For every id whatever, a contract
has a chain of implementations, and references to the id go through it. -/
theorem super_goes_through_the_chain {steps : List Step} {t : Tree}
    (ht : Tree.ofSteps steps = .ok t) {contract : DeclId} {r : Resolver}
    (hr : t.resolver contract = .ok r) :
    ∃ c, t.contract? contract = some c ∧ r.tree = t ∧ ∀ id,
      (∃ chain, t.SuperChain id c.linearized chain) ∧
        ∀ chain, t.SuperChain id c.linearized chain → r.Follows c id chain := by
  obtain ⟨c, hc, rfl, hresolves⟩ :=
    resolves_of_resolver (Tree.wellFormed_of_ofSteps ht) (Tree.hasOrder_of_ofSteps ht) hr
  exact ⟨c, hc, rfl, fun id =>
    ⟨hresolves.exists_superChain (List.Subset.refl _), fun chain => hresolves.follows⟩⟩

theorem relay_super_goes_through_the_chain : ∃ r, Relay.tree.resolver ⟨6⟩ = .ok r ∧
    r.SuperRun ⟨1⟩ ⟨5⟩ [⟨5⟩, ⟨3⟩, ⟨1⟩] (.inconsistent (.noImplementation ⟨1⟩ ⟨0⟩ "Bottom")) := by
  obtain ⟨r, hr, hvirtual⟩ := Relay.exists_resolver
  obtain ⟨c, hc, _, h⟩ := super_goes_through_the_chain Relay.ofSteps_steps hr
  obtain ⟨hname, horder⟩ := Relay.bottom hc
  have hchain := Relay.superChain
  rw [← horder] at hchain
  have hrun := ((h ⟨1⟩).2 _ hchain).run _ rfl
  rw [hvirtual, hname] at hrun
  exact ⟨r, hr, hrun⟩

end Resolver
end ContractCalls
