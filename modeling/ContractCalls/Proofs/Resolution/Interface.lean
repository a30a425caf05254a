import ContractCalls.Proofs.Resolution.Idempotence
import ContractCalls.Proofs.Tree.Written

/-!
# The external interface

What the outside can call by name are the public and external functions of the hierarchy, less
those that are overridden by a callable in front of them, and less those whose place is taken by
the getter of a state variable.  They come in the order of the hierarchy, each once
(`interface_is_what_nothing_overrides`).

The functions of the hierarchy are its callables seen as functions (`Resolves.functions_eq`), and no
callable is in it twice (`WellFormed.nodup_hierarchy`); so a function is the first to implement
itself if and only if nothing in front of it overrides it
(`not_overriddenBefore_iff`).
-/

namespace ContractCalls

theorem Visibility.isExternallyVisible_iff {v : Visibility} :
    v.isExternallyVisible = true ↔ v = .public ∨ v = .external := by
  cases v <;> simp [isExternallyVisible]

namespace Tree

/-- A callable in front of `id` overrides it, directly or through others. -/
def OverriddenBefore (t : Tree) (callables : List DeclId) (id : DeclId) : Prop :=
  ∃ before after, callables = before ++ id :: after ∧
    ∃ x ∈ before, Relation.TransGen t.Overrides x id

/-- A state variable of one of the contracts that the outside can see has what is `id` or overrides
it in its list of overrides. -/
def TakenByGetter (t : Tree) (contracts : List DeclId) (id : DeclId) : Prop :=
  ∃ v : Variable, t.var? v.id = some v ∧ (∃ b ∈ contracts, v.scope = some b) ∧
    (v.visibility = .public ∨ v.visibility = .external) ∧ ∃ o ∈ v.overrides, t.Implements o id

/-- The function is the first of its kind among the callables. -/
def FirstOfKind (t : Tree) (kind : FunctionKind) (callables : List DeclId) (f : Function) : Prop :=
  ∃ before after, callables = before ++ f.id :: after ∧ t.function? f.id = some f ∧
    f.kind = kind ∧ ∀ x ∈ before, ∀ g, t.function? x = some g → g.kind ≠ kind

variable {t : Tree}

/-! ### The callables of a hierarchy -/

theorem nodup_ids (t : Tree) : t.ids.Nodup :=
  t.pairwise_ids.imp fun hlt heq => by
    rw [heq] at hlt
    exact Int.lt_irrefl _ hlt

theorem nodup_callablesOf (t : Tree) (contract : DeclId) : (t.callablesOf contract).Nodup := by
  rw [callablesOf, List.nodup_append]
  refine ⟨t.nodup_ids.filter _, t.nodup_ids.filter _, ?_⟩
  rintro x hfunction y hmodifier rfl
  -- No declaration is of two kinds.
  simp only [membersOf, List.mem_filter, Option.any_eq_true, decide_eq_true_eq]
    at hfunction hmodifier
  obtain ⟨_, p, hp, hkind, _⟩ := hfunction
  obtain ⟨_, q, hq, hkind', _⟩ := hmodifier
  cases hp.symm.trans hq
  cases hkind.symm.trans hkind'

/-- No callable is in a hierarchy twice. -/
theorem nodup_hierarchy {contracts : List DeclId} (h : contracts.Nodup) :
    (t.hierarchy contracts).Nodup := by
  rw [hierarchy, List.nodup_flatMap]
  refine ⟨fun b _ => t.nodup_callablesOf b, h.imp fun hne x hx hx' => hne ?_⟩
  -- A callable is declared in one contract.
  exact Option.some.inj ((scope_of_mem_callablesOf hx).symm.trans (scope_of_mem_callablesOf hx'))

/-- A callable that is there once is the first to implement itself unless one in front of it
overrides it. -/
theorem not_overriddenBefore_iff {callables : List DeclId} {id : DeclId} (hnodup : callables.Nodup)
    (hid : id ∈ callables) :
    ¬ t.OverriddenBefore callables id ↔ t.FirstImplementing id callables id := by
  constructor
  · intro hnot
    obtain ⟨before, after, rfl⟩ := List.append_of_mem hid
    refine ⟨before, after, rfl, .refl, fun x hx himplements => ?_⟩
    rcases Relation.reflTransGen_iff_eq_or_transGen.1 himplements with heq | hover
    · exact (List.nodup_append.1 hnodup).2.2 x hx id List.mem_cons_self heq.symm
    · exact hnot ⟨before, after, rfl, x, hx, hover⟩
  · intro hfirst hover
    obtain ⟨before, after, rfl, _, hbefore⟩ := hfirst
    obtain ⟨before', after', hsplit, x, hx, hover⟩ := hover
    have hfront : id ∉ before := fun hmem =>
      (List.nodup_append.1 hnodup).2.2 id hmem id List.mem_cons_self rfl
    have hback : id ∉ after :=
      (List.nodup_cons.1 (List.nodup_append.1 hnodup).2.1).1
    obtain ⟨hsame, _⟩ := (List.append_cons_inj_of_notMem hfront hback).1 hsplit
    rw [← hsame] at hx
    exact hbefore x hx hover.to_reflTransGen

/-! ### Functions among callables -/

theorem WellFormed.functionsOf_eq (h : t.WellFormed) {id : DeclId} {c : Contract}
    (hc : t.contract? id = some c) :
    t.functionsOf c = (t.callablesOf id).filterMap t.function? := by
  have hmembers : c.functions = t.membersOf id .function :=
    h.members id c.members .function (by rw [members?, hc]; rfl)
  have hmodifiers : (t.membersOf id .modifier).filterMap t.function? = [] := by
    rw [List.filterMap_eq_nil_iff]
    intro x hx
    simp only [membersOf, List.mem_filter, profile?, Option.any_eq_true, Option.map_eq_some_iff,
      decide_eq_true_eq] at hx
    obtain ⟨_, _, ⟨d, hd, rfl⟩, hkind, _⟩ := hx
    rw [function?, hd]
    cases d with
    | modifier m => rfl
    | _ => cases hkind
  rw [functionsOf, hmembers, callablesOf, List.filterMap_append, hmodifiers, List.append_nil]

theorem WellFormed.id_of_view (h : t.WellFormed) {α : Type} {view : Declaration → Option α}
    {key : α → DeclId} (hview : ∀ d a, view d = some a → key a = d.id) {id : DeclId} {a : α}
    (ha : (t.find? id).bind view = some a) : key a = id := by
  obtain ⟨d, hd, hda⟩ := Option.bind_eq_some_iff.1 ha
  rw [hview d a hda, h.id_of_find? hd]

theorem WellFormed.id_of_function? (h : t.WellFormed) {id : DeclId} {f : Function}
    (hf : t.function? id = some f) : f.id = id := by
  refine h.id_of_view (fun d g hg => ?_) hf
  cases d with
  | function g' =>
    cases hg
    rfl
  | _ => cases hg

theorem WellFormed.id_of_var? (h : t.WellFormed) {id : DeclId} {v : Variable}
    (hv : t.var? id = some v) : v.id = id := by
  refine h.id_of_view (fun d w hw => ?_) hv
  cases d with
  | «variable» w' =>
    cases hw
    rfl
  | _ => cases hw

theorem WellFormed.mem_stateVariables (h : t.WellFormed) {s id : DeclId} {c : Contract}
    (hc : t.contract? s = some c) :
    id ∈ c.stateVariables ↔ ∃ v, t.var? id = some v ∧ v.scope = some s := by
  refine (h.mem_members .variable hc).trans ?_
  rw [var?]
  cases t.find? id with
  | none => simp
  | some d => cases d <;> simp [Declaration.kind, Declaration.scope?, Declaration.var?]

/-- The functions among some callables have the ids of these callables, in their order. -/
theorem WellFormed.map_id_filterMap_sublist (h : t.WellFormed) (xs : List DeclId) :
    ((xs.filterMap t.function?).map Function.id).Sublist xs := by
  induction xs with
  | nil => exact .slnil
  | cons x xs ih =>
    cases hf : t.function? x with
    | none =>
      rw [List.filterMap_cons_none hf]
      exact ih.cons x
    | some f =>
      rw [List.filterMap_cons_some hf, List.map_cons, h.id_of_function? hf]
      exact ih.cons_cons x

theorem WellFormed.find?_kind_eq_some (h : t.WellFormed) {kind : FunctionKind} {xs : List DeclId}
    {f : Function} :
    (xs.filterMap t.function?).find? (·.kind == kind) = some f ↔ t.FirstOfKind kind xs f := by
  rw [List.find?_filterMap, Option.bind_eq_some_iff]
  constructor
  · rintro ⟨x, hfind, hf⟩
    obtain ⟨hx, before, after, rfl, hbefore⟩ := List.find?_eq_some_iff_append.1 hfind
    obtain rfl := h.id_of_function? hf
    rw [hf, Option.any_some, beq_iff_eq] at hx
    refine ⟨before, after, rfl, hf, hx, fun y hy g hg hkind => ?_⟩
    have hno := hbefore y hy
    rw [hg, Option.any_some, hkind, beq_self_eq_true] at hno
    cases hno
  · rintro ⟨before, after, rfl, hf, hkind, hbefore⟩
    refine ⟨f.id, List.find?_eq_some_iff_append.2 ⟨?_, before, after, rfl, fun y hy => ?_⟩, hf⟩
    · rw [hf, Option.any_some, hkind, beq_self_eq_true]
    · cases hg : t.function? y with
      | none => rfl
      | some g => simpa using hbefore y hy g hg

end Tree

namespace Resolver

/-! ### Getters -/

theorem mem_foldl_union (sets : List IdSet) (start : IdSet) (x : DeclId) :
    x ∈ sets.foldl Std.ExtTreeSet.union start ↔ x ∈ start ∨ ∃ s ∈ sets, x ∈ s := by
  induction sets generalizing start with
  | nil => simp
  | cons s sets ih =>
    rw [List.foldl_cons, ih, List.exists_mem_cons_iff]
    exact (or_congr_left Std.ExtTreeSet.mem_union_iff).trans or_assoc

/-- The getter of a variable takes the place of what its overrides implement. -/
theorem mem_getterOverridesOf {t : Tree} {v id : DeclId} {s : IdSet}
    (h : getterOverridesOf t v = .ok s) :
    id ∈ s ↔ ∃ var, t.var? v = some var ∧ (var.visibility = .public ∨ var.visibility = .external) ∧
      ∃ o ∈ var.overrides, t.Implements o id := by
  unfold getterOverridesOf at h
  obtain ⟨var, hvar, h⟩ := bind_eq_ok h
  have hsome : t.var? v = some var := Tree.require_eq_ok.1 hvar
  rw [hsome]
  simp only [Option.some.injEq, exists_eq_left', ← Visibility.isExternallyVisible_iff]
  split at h
  next hvisible =>
    obtain ⟨families, hfamilies, h⟩ := bind_eq_ok h
    cases h
    rw [mem_foldl_union, and_iff_right hvisible]
    constructor
    · rintro (hmem | ⟨family, hfamily, hid⟩)
      · simp at hmem
      · obtain ⟨o, ho, hof⟩ := exists_of_mem_mapM hfamilies hfamily
        exact ⟨o, ho, (Tree.mem_family hof).1 hid⟩
    · rintro ⟨o, ho, himplements⟩
      obtain ⟨family, hfamily, hof⟩ := exists_mem_of_mapM hfamilies ho
      exact .inr ⟨family, hfamily, (Tree.mem_family hof).2 himplements⟩
  next hvisible =>
    cases h
    simp [hvisible]

/-- The getters of a hierarchy take the place of what the getters of its variables do. -/
theorem mem_getterOverrides {t : Tree} {c : Contract} {r : Resolver} {id : DeclId}
    (h : ofContract t c = .ok r) :
    id ∈ r.getterOverrides ↔ ∃ v ∈ r.linearization.flatMap Contract.stateVariables, ∃ var,
      t.var? v = some var ∧ (var.visibility = .public ∨ var.visibility = .external) ∧
        ∃ o ∈ var.overrides, t.Implements o id := by
  unfold ofContract at h
  obtain ⟨bases, _, h⟩ := bind_eq_ok h
  obtain ⟨families, _, h⟩ := bind_eq_ok h
  obtain ⟨getters, hgetters, h⟩ := bind_eq_ok h
  cases h
  show id ∈ getters.foldl Std.ExtTreeSet.union ∅ ↔ _
  rw [mem_foldl_union]
  constructor
  · rintro (hmem | ⟨s, hs, hid⟩)
    · simp at hmem
    · obtain ⟨v, hv, hof⟩ := exists_of_mem_mapM hgetters hs
      exact ⟨v, hv, (mem_getterOverridesOf hof).1 hid⟩
  · rintro ⟨v, hv, htaken⟩
    obtain ⟨s, hs, hof⟩ := exists_mem_of_mapM hgetters hv
    exact .inr ⟨s, hs, (mem_getterOverridesOf hof).2 htaken⟩

/-! ### The interface of a resolver -/

/-- What the outside can call is exactly this, in a contract with these bases. -/
structure Exposes (r : Resolver) (c : Contract) : Prop where
  mem : ∀ f, f ∈ r.interfaceFunctions ↔ r.tree.function? f.id = some f ∧ f.kind = .function ∧
    (f.visibility = .public ∨ f.visibility = .external) ∧ (∃ b ∈ c.linearized, f.scope = some b) ∧
    ¬ r.tree.OverriddenBefore (r.tree.hierarchy c.linearized) f.id ∧
    ¬ r.tree.TakenByGetter c.linearized f.id
  /-- The functions come in the order of the hierarchy. -/
  order : (r.interfaceFunctions.map Function.id).Sublist (r.tree.hierarchy c.linearized)
  once : (r.tree.hierarchy c.linearized).Nodup
  fallback : ∀ f, r.fallback? = some f ↔
    r.tree.FirstOfKind .fallback (r.tree.hierarchy c.linearized) f
  receive : ∀ f, r.receive? = some f ↔
    r.tree.FirstOfKind .receive (r.tree.hierarchy c.linearized) f

namespace Resolves

variable {r : Resolver} {c : Contract}

theorem exists_linearized (h : r.Resolves c) {p : DeclId → Prop} :
    (∃ b ∈ r.linearization, p b.id) ↔ ∃ b ∈ c.linearized, p b := by
  rw [← h.order]
  simp

theorem functions_eq (h : r.Resolves c) (hfits : r.Fits) :
    r.functions = (r.tree.hierarchy c.linearized).filterMap r.tree.function? := by
  rw [functions, Tree.hierarchy, List.filterMap_flatMap, ← h.order, List.flatMap_map]
  exact List.flatMap_congr fun b hb => hfits.tree.functionsOf_eq (hfits.contracts b hb)

theorem mem_functions (h : r.Resolves c) (hfits : r.Fits) {f : Function} :
    f ∈ r.functions ↔ r.tree.function? f.id = some f ∧ ∃ b ∈ c.linearized, f.scope = some b := by
  rw [functions, List.mem_flatMap]
  constructor
  · rintro ⟨b, hb, hf⟩
    obtain ⟨hfunction, hscope⟩ := (hfits.mem_functionsOf hb).1 hf
    exact ⟨hfunction, h.exists_linearized.1 ⟨b, hb, hscope⟩⟩
  · rintro ⟨hfunction, hscope⟩
    obtain ⟨b, hb, hscope⟩ := h.exists_linearized.2 hscope
    exact ⟨b, hb, (hfits.mem_functionsOf hb).2 ⟨hfunction, hscope⟩⟩

theorem mem_hierarchy_of_mem_functions (h : r.Resolves c) (hfits : r.Fits) {f : Function}
    (hf : f ∈ r.functions) : f.id ∈ r.tree.hierarchy c.linearized := by
  rw [h.functions_eq hfits] at hf
  obtain ⟨x, hx, hxf⟩ := List.mem_filterMap.1 hf
  rw [hfits.tree.id_of_function? hxf]
  exact hx

/-- A function of the hierarchy is overridden if and only if a callable in front of it does so. -/
theorem isOverridden_iff (h : r.Resolves c) {id : DeclId}
    (hid : id ∈ r.tree.hierarchy c.linearized) :
    r.isOverridden id = true ↔ r.tree.OverriddenBefore (r.tree.hierarchy c.linearized) id := by
  have hnodup := Tree.nodup_hierarchy (t := r.tree) h.nodup
  have hsome : ((r.tree.hierarchy c.linearized).find? (r.implements id)).isSome = true :=
    List.find?_isSome.2 ⟨id, hid, (h.implements id hid id).2 .refl⟩
  obtain ⟨x, hx⟩ := Option.isSome_iff_exists.1 hsome
  rw [← not_iff_not, Tree.not_overriddenBefore_iff hnodup hid,
    ← h.find?_eq_some (List.Subset.refl _), isOverridden, h.resolveVirtual_eq, hx]
  simp

/-- The place of a function is taken by the getters of the hierarchy. -/
theorem mem_getterOverrides_iff (h : r.Resolves c) (hfits : r.Fits)
    (hof : ofContract r.tree c = .ok r) {id : DeclId} :
    id ∈ r.getterOverrides ↔ r.tree.TakenByGetter c.linearized id := by
  have hvariables : ∀ b ∈ r.linearization, ∀ v var, r.tree.var? v = some var →
      (v ∈ b.stateVariables ↔ var.scope = some b.id) := by
    intro b hb v var hvar
    rw [hfits.tree.mem_stateVariables (hfits.contracts b hb), hvar]
    simp
  rw [mem_getterOverrides hof, Tree.TakenByGetter]
  constructor
  · rintro ⟨v, hv, var, hvar, htaken⟩
    obtain ⟨b, hb, hvb⟩ := List.mem_flatMap.1 hv
    obtain rfl : var.id = v := hfits.tree.id_of_var? hvar
    exact ⟨var, hvar, h.exists_linearized.1 ⟨b, hb, (hvariables b hb _ var hvar).1 hvb⟩, htaken⟩
  · rintro ⟨var, hvar, hscope, htaken⟩
    obtain ⟨b, hb, hb'⟩ := h.exists_linearized.2 hscope
    have hmem := List.mem_flatMap_of_mem hb ((hvariables b hb _ var hvar).2 hb')
    exact ⟨var.id, hmem, var, hvar, htaken⟩

theorem isInterface_iff (h : r.Resolves c) (hfits : r.Fits) (hof : ofContract r.tree c = .ok r)
    {f : Function} (hf : f ∈ r.functions) :
    r.isInterface f = true ↔ f.kind = .function ∧
      (f.visibility = .public ∨ f.visibility = .external) ∧
      ¬ r.tree.OverriddenBefore (r.tree.hierarchy c.linearized) f.id ∧
      ¬ r.tree.TakenByGetter c.linearized f.id := by
  have htaken : r.getterOverrides.contains f.id = false ↔ f.id ∉ r.getterOverrides := by
    rw [← Std.ExtTreeSet.contains_iff_mem, Bool.not_eq_true]
  rw [← h.isOverridden_iff (h.mem_hierarchy_of_mem_functions hfits hf),
    ← h.mem_getterOverrides_iff hfits hof, ← Visibility.isExternallyVisible_iff]
  simp [isInterface, htaken, and_assoc]

/-- **What a resolver says of the interface**, in a tree that was written. -/
theorem exposes (h : r.Resolves c) (hfits : r.Fits) (hof : ofContract r.tree c = .ok r) :
    r.Exposes c := by
  refine ⟨fun f => ?_, ?_, Tree.nodup_hierarchy h.nodup, fun f => ?_, fun f => ?_⟩
  · rw [interfaceFunctions, List.mem_filter, and_congr_right (h.isInterface_iff hfits hof),
      h.mem_functions hfits]
    tauto
  · have hsub : r.interfaceFunctions.Sublist r.functions := List.filter_sublist
    rw [h.functions_eq hfits] at hsub
    exact (hsub.map Function.id).trans (hfits.tree.map_id_filterMap_sublist _)
  · rw [fallback?, h.functions_eq hfits, hfits.tree.find?_kind_eq_some]
  · rw [receive?, h.functions_eq hfits, hfits.tree.find?_kind_eq_some]

end Resolves
end Resolver

/-! ### A gate

A gate takes over what a door announces, once by a function and once by the getter of a state
variable, and is derived from once more. -/

namespace Gate

def steps : List Step :=
  [ .contract "Door" .interface false [],
    .function ⟨some ⟨0⟩, "open", .function, some .external, true, [], [], [], .absent⟩,
    .function ⟨some ⟨0⟩, "width", .function, some .external, true, [], [], [], .absent⟩,
    Diamond.contract "Gate" [⟨0⟩],
    .function ⟨some ⟨3⟩, "open", .function, none, true, [⟨1⟩], [], [], .usual⟩,
    .function ⟨some ⟨3⟩, "measure", .function, none, false, [⟨2⟩], [], [], .usual⟩,
    .variable ⟨some ⟨3⟩, "width", "uint256", true, false, false, [⟨5⟩], none⟩,
    .function ⟨some ⟨3⟩, "", .fallback, none, false, [], [], [], .usual⟩,
    Diamond.contract "Portal" [⟨3⟩],
    .function ⟨some ⟨8⟩, "open", .function, none, false, [⟨4⟩], [], [], .usual⟩,
    .function ⟨some ⟨8⟩, "", .fallback, none, false, [], [], [], .usual⟩ ]

def tree : Tree := (Tree.ofSteps steps).toOption.getD {}

theorem ofSteps_steps : Tree.ofSteps steps = .ok tree := eq_ok_of_isOk (by cbv) _

end Gate

namespace Resolver

/-- **The outside can call what nothing overrides**, and nothing else: this is the interface of
every contract that can be resolved. -/
theorem interface_is_what_nothing_overrides {steps : List Step} {t : Tree}
    (ht : Tree.ofSteps steps = .ok t) {contract : DeclId} {r : Resolver}
    (hr : t.resolver contract = .ok r) :
    ∃ c, t.contract? contract = some c ∧ r.tree = t ∧ r.Exposes c := by
  have hwell := Tree.wellFormed_of_ofSteps ht
  obtain ⟨c, hc, htree, hresolves⟩ :=
    resolves_of_resolver hwell (Tree.hasOrder_of_ofSteps ht) hr
  obtain ⟨hfits, _, _⟩ := fits_of_resolver hwell hr
  unfold Tree.resolver at hr
  obtain ⟨c', hc', hof⟩ := bind_eq_ok hr
  rw [Tree.requireContract, Tree.require_eq_ok] at hc'
  cases hc.symm.trans hc'
  rw [← htree] at hof
  exact ⟨c, hc, htree, hresolves.exposes hfits hof⟩

theorem gate_interface_is_what_nothing_overrides : ∃ r, Gate.tree.resolver ⟨8⟩ = .ok r ∧
    r.interfaceFunctions.map Function.id = [⟨9⟩] ∧ r.fallback?.map Function.id = some ⟨10⟩ ∧
    r.receive? = none ∧ ∃ c, Gate.tree.contract? ⟨8⟩ = some c ∧ r.Exposes c := by
  have h : (Gate.tree.resolver ⟨8⟩).toOption.map (fun r =>
      (r.interfaceFunctions.map Function.id, r.fallback?.map Function.id, r.receive?)) =
      some ([⟨9⟩], some ⟨10⟩, none) := by cbv
  cases hr : Gate.tree.resolver ⟨8⟩ with
  | error e =>
    rw [hr] at h
    cases h
  | ok r =>
    rw [hr] at h
    obtain ⟨c, hc, _, hexposes⟩ := interface_is_what_nothing_overrides Gate.ofSteps_steps hr
    obtain ⟨hopen, hrest⟩ := Prod.mk.inj (Option.some.inj h)
    obtain ⟨hfallback, hreceive⟩ := Prod.mk.inj hrest
    exact ⟨r, rfl, hopen, hfallback, hreceive, c, hc, hexposes⟩

end Resolver
end ContractCalls
