import ContractCalls.Build.Creation
import ContractCalls.Proofs.CallGraph.Paths
import ContractCalls.Proofs.Resolution.Families

/-!
# Where references lead

In a well-formed tree a resolver only leads to callables: a virtual reference to one of the
hierarchy, a `super` reference to one whose family was found, and every other reference to
itself.  So does the list of entry points.  `Resolver.Fits` is what the proofs need of a
resolver, and `fits_of_resolver` that every resolver of a tree which was written has it.
-/

namespace ContractCalls

namespace Tree

variable {t : Tree}

theorem plain_of_declares {id : DeclId} (h : t.declares id = true) : id.Plain := by
  obtain ⟨n, _, rfl⟩ := List.mem_map.1 (mem_ids.2 h)
  constructor <;> simp [DeclId.ofNat, Node.entryKey, Node.internalDispatchKey]

theorem declares_of_callable? {id : DeclId} {c : Callable} (h : t.callable? id = some c) :
    t.declares id = true := by
  obtain ⟨d, hd, _⟩ := Option.bind_eq_some_iff.1 h
  exact declares_of_find? hd

theorem plain_of_callable? {id : DeclId} (h : (t.callable? id).isSome = true) : id.Plain := by
  obtain ⟨c, hc⟩ := Option.isSome_iff_exists.1 h
  exact plain_of_declares (declares_of_callable? hc)

theorem callable?_of_function? {id : DeclId} {f : Function} (h : t.function? id = some f) :
    t.callable? id = some (.function f) := by
  obtain ⟨d, hd, hf⟩ := Option.bind_eq_some_iff.1 h
  cases d with
  | function f' =>
    cases hf
    rw [callable?, hd]
    rfl
  | _ => cases hf

theorem callable?_of_modifier? {id : DeclId} {m : Modifier} (h : t.modifier? id = some m) :
    t.callable? id = some (.modifier m) := by
  obtain ⟨d, hd, hm⟩ := Option.bind_eq_some_iff.1 h
  cases d with
  | modifier m' =>
    cases hm
    rw [callable?, hd]
    rfl
  | _ => cases hm

theorem WellFormed.mem_functionsOf (h : t.WellFormed) {s : DeclId} {c : Contract} {f : Function}
    (hc : t.contract? s = some c) :
    f ∈ t.functionsOf c ↔ t.function? f.id = some f ∧ f.scope = some s := by
  rw [functionsOf, List.mem_filterMap]
  constructor
  · intro hex
    obtain ⟨id, hid, hf⟩ := hex
    obtain ⟨d, hd, _, hscope⟩ := (h.mem_members .function hc).1 hid
    obtain rfl : d = .function f := by
      rw [function?, hd] at hf
      cases d with
      | function f' =>
        cases hf
        rfl
      | _ => cases hf
    rw [show f.id = id from h.id_of_find? hd]
    exact ⟨hf, hscope⟩
  · intro hex
    obtain ⟨hf, hscope⟩ := hex
    refine ⟨f.id, (h.mem_members .function hc).2 ?_, hf⟩
    obtain ⟨d, hd, hdf⟩ := Option.bind_eq_some_iff.1 hf
    cases d with
    | function f' =>
      cases hdf
      exact ⟨_, hd, rfl, hscope⟩
    | _ => cases hdf

end Tree

theorem Tree.WellFormed.contract?_of_mem_mapM {t : Tree} (h : t.WellFormed) {ids : List DeclId}
    {bases : List Contract} (hbases : ids.mapM t.requireContract = .ok bases) {b : Contract}
    (hb : b ∈ bases) : t.contract? b.id = some b := by
  obtain ⟨id, _, hid⟩ := exists_of_mem_mapM hbases hb
  exact h.contract?_id (require_eq_ok.1 hid)

namespace Resolver

/-- What a resolver holds belongs to its tree. -/
structure Fits (r : Resolver) : Prop where
  tree : r.tree.WellFormed
  contracts : ∀ b ∈ r.linearization, r.tree.contract? b.id = some b
  table : ∀ id target : DeclId, r.table[id]? = some target →
    (r.tree.callable? target).isSome = true
  families : ∀ (id : DeclId) (family : IdSet), r.families[id]? = some family →
    (r.tree.callable? id).isSome = true

/-! ### The resolver of a contract -/

theorem of_ofContract {t : Tree} {c : Contract} {r : Resolver}
    (h : ofContract t c = .ok r) : r.tree = t ∧ r.contract = c := by
  unfold ofContract at h
  obtain ⟨_, _, h⟩ := bind_eq_ok h
  obtain ⟨_, _, h⟩ := bind_eq_ok h
  obtain ⟨_, _, h⟩ := bind_eq_ok h
  cases h
  exact ⟨rfl, rfl⟩

theorem callable?_of_family {t : Tree} {id : DeclId} {family : IdSet}
    (h : t.family id = .ok family) : (t.callable? id).isSome = true := by
  rw [Tree.family, Tree.collectFamily] at h
  rw [dif_neg (by simp)] at h
  split at h
  · cases h
  next c hc => exact Option.isSome_iff_exists.2 ⟨c, Tree.require_eq_ok.1 hc⟩

/-- **The resolver of a contract** of a well-formed tree. -/
theorem fits_of_ofContract {t : Tree} {c : Contract} {r : Resolver} (ht : t.WellFormed)
    (hc : t.contract? c.id = some c) (h : ofContract t c = .ok r) :
    r.Fits ∧ r.tree = t ∧ r.contract = c := by
  unfold ofContract at h
  obtain ⟨bases, hbases, h⟩ := bind_eq_ok h
  have hlin : ∀ b ∈ if bases.isEmpty then [c] else bases, t.contract? b.id = some b := by
    intro b hb
    split at hb
    · obtain rfl := List.mem_singleton.1 hb
      exact hc
    · exact ht.contract?_of_mem_mapM hbases hb
  obtain ⟨families, hfam, h⟩ := bind_eq_ok h
  obtain ⟨getters, _, h⟩ := bind_eq_ok h
  cases h
  have hcallable : ∀ id ∈ families.map Prod.fst, (t.callable? id).isSome = true := by
    intro id hid
    obtain ⟨p, hp, rfl⟩ := List.mem_map.1 hid
    exact callable?_of_family ((familiesOf_eq_ok hfam).2 p hp)
  refine ⟨⟨ht, hlin, fun id target htable => ?_, fun id family hfamily => ?_⟩, rfl, rfl⟩
  · rw [getElem?_tableOf] at htable
    obtain ⟨p, hp, rfl⟩ := Option.map_eq_some_iff.1 htable
    exact hcallable p.1 (List.mem_map_of_mem (List.mem_of_find?_eq_some hp))
  · refine hcallable id ?_
    have hmem : id ∈ (Std.ExtTreeMap.ofList families : IdMap IdSet) :=
      Std.ExtTreeMap.mem_iff_isSome_getElem?.2 (Option.isSome_of_eq_some hfamily)
    rwa [Std.ExtTreeMap.mem_ofList, List.contains_iff_mem] at hmem

/-- Every resolver of a tree that was written is like this. -/
theorem fits_of_resolver {t : Tree} {contract : DeclId} {r : Resolver} (ht : t.WellFormed)
    (h : t.resolver contract = .ok r) :
    r.Fits ∧ r.tree = t ∧ t.contract? contract = some r.contract := by
  unfold Tree.resolver at h
  obtain ⟨c, hc, h⟩ := bind_eq_ok h
  have hsome : t.contract? contract = some c := Tree.require_eq_ok.1 hc
  obtain ⟨hfits, htree, rfl⟩ := fits_of_ofContract ht (ht.contract?_id hsome) h
  exact ⟨hfits, htree, hsome⟩

/-! ### References and entry points -/

namespace Fits

variable {r : Resolver}

theorem callable?_resolveSuper (h : r.Fits) {id scope target : DeclId}
    (htarget : r.resolveSuper id scope = .ok target) :
    (r.tree.callable? target).isSome = true := by
  unfold resolveSuper at htarget
  split at htarget
  · cases htarget
  · split at htarget
    · cases htarget
    next found hfind =>
      cases htarget
      have himplements := List.find?_some hfind
      unfold implements at himplements
      cases hfamily : r.families[target]? with
      | none => simp [hfamily] at himplements
      | some family => exact h.families target family hfamily

/-- **A reference to a callable leads to a callable.** -/
theorem callable?_resolve (h : r.Fits) {id target : DeclId} {lookup : Lookup}
    (hid : (r.tree.callable? id).isSome = true) (htarget : r.resolve id lookup = .ok target) :
    (r.tree.callable? target).isSome = true := by
  cases lookup with
  | static =>
    cases htarget
    exact hid
  | «virtual» =>
    cases htarget
    unfold resolveVirtual
    cases hentry : r.table[id]? with
    | none => exact hid
    | some target => exact h.table id target hentry
  | super scope => exact h.callable?_resolveSuper htarget

theorem mem_functionsOf (h : r.Fits) {b : Contract} (hb : b ∈ r.linearization) {f : Function} :
    f ∈ r.tree.functionsOf b ↔ r.tree.function? f.id = some f ∧ f.scope = some b.id :=
  h.tree.mem_functionsOf (h.contracts b hb)

theorem function?_of_mem_functions (h : r.Fits) {f : Function} (hf : f ∈ r.functions) :
    r.tree.function? f.id = some f := by
  obtain ⟨b, hb, hf⟩ := List.mem_flatMap.1 hf
  exact ((h.mem_functionsOf hb).1 hf).1

theorem function?_of_mem_entryPoints (h : r.Fits) {f : Function} (hf : f ∈ r.entryPoints) :
    r.tree.function? f.id = some f := by
  rw [entryPoints, List.mem_append, List.mem_append, Option.mem_toList, Option.mem_toList] at hf
  rcases hf with (hf | hf) | hf
  · exact h.function?_of_mem_functions (List.mem_filter.1 hf).1
  · exact h.function?_of_mem_functions (List.mem_of_find?_eq_some hf)
  · exact h.function?_of_mem_functions (List.mem_of_find?_eq_some hf)

theorem constructor?_eq_some (h : r.Fits) {b : Contract} (hb : b ∈ r.linearization) {f : Function}
    (hf : r.constructor? b = some f) :
    r.tree.function? f.id = some f ∧ f.scope = some b.id ∧ f.kind = .constructor := by
  have hmem := (h.mem_functionsOf hb).1 (List.mem_of_find?_eq_some hf)
  have hkind := List.find?_some hf
  exact ⟨hmem.1, hmem.2, by simpa using hkind⟩

/-- Two contracts of the linearization with one constructor are the same. -/
theorem constructor?_inj (h : r.Fits) {b b' : Contract} (hb : b ∈ r.linearization)
    (hb' : b' ∈ r.linearization) {f f' : Function} (hf : r.constructor? b = some f)
    (hf' : r.constructor? b' = some f') (hid : f.id = f'.id) : b = b' := by
  obtain ⟨hfun, hscope, _⟩ := h.constructor?_eq_some hb hf
  obtain ⟨hfun', hscope', _⟩ := h.constructor?_eq_some hb' hf'
  rw [hid, hfun'] at hfun
  cases hfun
  have hcontract := h.contracts b hb
  rw [Option.some.inj (hscope.symm.trans hscope'), h.contracts b' hb'] at hcontract
  exact (Option.some.inj hcontract).symm

end Fits

end Resolver

end ContractCalls
