import ContractCalls.Build.Deployment
import ContractCalls.Proofs.Build.Queue
import ContractCalls.Proofs.Resolution.Targets

/-!
# The code that a build reads

A build takes in the findings of its seeds, and of the callables that are queued.  This is
what they are: `Resolver.code` are the findings of a callable, `Resolver.creationSeeds` those
that start a construction.  `site_mem_code` and `site_mem_creationSeeds` say which call
sites there are, by the expressions and invocations of the program.

All call sites that come from code are alike in two ways.  They are `Finding.Regular`: whatever
is queued is the callee of the edge that is added.  And they are `Finding.Resolved`: whatever
they lead to is a callable of the tree.
-/

namespace ContractCalls

open Finding

namespace Finding

/-- The finding queues just the callable that its edge leads to. -/
structure Regular (f : Finding) : Prop where
  target : ∀ id, f.target? = some id → ∃ a, f.edge? = some (a, .callable id)
  indirect : f.isIndirect = true → ∃ a, f.edge? = some (a, .internalDispatch)
  callee : ∀ a b, f.edge? = some (a, b) → b ≠ .entry ∧ f.target? = b.callable? ∧
    (b = .internalDispatch → f.isIndirect = true)

/-- The finding leads to callables of the tree only. -/
def Resolved (t : Tree) (f : Finding) : Prop :=
  ∀ id, f.target? = some id ∨ f.pointer? = some id → (t.callable? id).isSome = true

theorem regular_of_forall_site {f : Finding} (h : ∀ s, f ≠ .site s) : f.Regular := by
  cases f with
  | site s => exact absurd rfl (h s)
  | _ => exact ⟨by simp [target?], by simp [isIndirect], by simp [edge?]⟩

theorem resolved_of_forall_site {t : Tree} {f : Finding} (h : ∀ s, f ≠ .site s) : f.Resolved t := by
  cases f with
  | site s => exact absurd rfl (h s)
  | _ => simp [Resolved, target?, pointer?]

theorem regular_indirect (n : Node) : (site ⟨n, .indirect, .internalDispatch⟩).Regular := by
  refine ⟨by simp [target?, Target.callable?], fun _ => ⟨n, rfl⟩, fun a b h => ?_⟩
  cases h
  simp [target?, Target.callable?, Node.callable?, isIndirect]

theorem regular_reference (n : Node) (target : Target) : (site ⟨n, .reference, target⟩).Regular :=
  ⟨by simp [target?], by simp [isIndirect], by simp [edge?]⟩

/-- A call site of another kind, that leads to a callable. -/
theorem regular_callable {n : Node} {kind : SiteKind} {declared target : DeclId}
    (h : kind = .direct ∨ kind = .modifier ∨ kind = .placeholder) :
    (site ⟨n, kind, .callable declared target⟩).Regular := by
  rcases h with rfl | rfl | rfl
  all_goals
    refine ⟨fun id h => ?_, by simp [isIndirect], fun a b h => ?_⟩
    · cases h
      exact ⟨n, rfl⟩
    · cases h
      simp [target?, Target.callable?, Node.callable?]

theorem resolved_site {t : Tree} {s : CallSite}
    (h : ∀ id, s.target.callable? = some id → (t.callable? id).isSome = true) :
    (site s).Resolved t := by
  intro id hid
  by_cases hkind : s.kind = .reference
  · simp only [target?, pointer?, if_pos hkind, reduceCtorEq, false_or] at hid
    exact h id hid
  · simp only [target?, pointer?, if_neg hkind, reduceCtorEq, or_false] at hid
    exact h id hid

end Finding

/-! ### Code with several roots -/

namespace Tree

theorem Code.exists_root {t : Tree} {root : Expr → Prop} {e : Expr} (h : t.Code root e) :
    ∃ e, root e := by
  induction h with
  | root h => exact ⟨_, h⟩
  | part _ _ ih => exact ih
  | constant _ _ _ ih => exact ih

theorem code_iff_exists {ι : Type} {t : Tree} {p : ι → Prop} {root : ι → Expr → Prop} {e : Expr} :
    t.Code (fun e => ∃ i, p i ∧ root i e) e ↔ ∃ i, p i ∧ t.Code (root i) e := by
  constructor
  · intro h
    induction h with
    | root h =>
      obtain ⟨i, hi, he⟩ := h
      exact ⟨i, hi, .root he⟩
    | part _ hpart ih =>
      obtain ⟨i, hi, he⟩ := ih
      exact ⟨i, hi, .part he hpart⟩
    | constant _ hid hv ih =>
      obtain ⟨i, hi, he⟩ := ih
      exact ⟨i, hi, .constant he hid hv⟩
  · intro hex
    obtain ⟨i, hi, he⟩ := hex
    exact he.mono fun e he => ⟨i, hi, he⟩

end Tree

namespace Resolver

variable {r : Resolver} {n : Node} {s : CallSite}

theorem siteOf_iff_exists {ι : Type} {p : ι → Prop} {root : ι → Expr → Prop} :
    r.SiteOf (fun e => ∃ i, p i ∧ root i e) n s ↔ ∃ i, p i ∧ r.SiteOf (root i) n s := by
  constructor
  · intro h
    cases h with
    | call he hnames hd =>
      obtain ⟨i, hi, he⟩ := Tree.code_iff_exists.1 he
      exact ⟨i, hi, .call he hnames hd⟩
    | take he hnames hd =>
      obtain ⟨i, hi, he⟩ := Tree.code_iff_exists.1 he
      exact ⟨i, hi, .take he hnames hd⟩
    | indirect h =>
      obtain ⟨note, callee, args, he, h⟩ := h
      obtain ⟨i, hi, he⟩ := Tree.code_iff_exists.1 he
      exact ⟨i, hi, .indirect ⟨note, callee, args, he, h⟩⟩
  · intro hex
    obtain ⟨i, hi, h⟩ := hex
    cases h with
    | call he hnames hd => exact .call (Tree.code_iff_exists.2 ⟨i, hi, he⟩) hnames hd
    | take he hnames hd => exact .take (Tree.code_iff_exists.2 ⟨i, hi, he⟩) hnames hd
    | indirect h =>
      obtain ⟨note, callee, args, he, h⟩ := h
      exact .indirect ⟨note, callee, args, Tree.code_iff_exists.2 ⟨i, hi, he⟩, h⟩

theorem SiteOf.exists_root {root : Expr → Prop} (h : r.SiteOf root n s) : ∃ e, root e := by
  cases h with
  | call he => exact he.exists_root
  | take he => exact he.exists_root
  | indirect h =>
    obtain ⟨_, _, _, he, _⟩ := h
    exact he.exists_root

/-! ### The code of a callable -/

/-- What the code of a callable tells. -/
def code (r : Resolver) (id : DeclId) : List Finding :=
  match r.tree.requireCallable id with
  | .error e => [.error e]
  | .ok c => r.findings (.callable id) c.occurrences

theorem code_eq {id : DeclId} {c : Callable} (hc : r.tree.callable? id = some c) :
    r.code id = r.findings (.callable id) c.occurrences := by
  rw [code, show r.tree.requireCallable id = .ok c from Tree.require_eq_ok.2 hc]

theorem code_of_callable?_eq_none {id : DeclId} (hc : r.tree.callable? id = none) :
    ∃ e : Error, r.code id = [.error e] := by
  cases hrequire : r.tree.requireCallable id with
  | error e => exact ⟨e, by rw [code, hrequire]⟩
  | ok c => cases hc.symm.trans (Tree.require_eq_ok.1 hrequire)

theorem exists_callable? {id : DeclId} (h : ∀ e, .error e ∉ r.code id) :
    ∃ c, r.tree.callable? id = some c := by
  cases hc : r.tree.callable? id with
  | some c => exact ⟨c, rfl⟩
  | none =>
    obtain ⟨e, hcode⟩ := code_of_callable?_eq_none hc
    rw [hcode] at h
    exact absurd (List.mem_singleton_self _) (h e)

/-- Where no callable can be, there is nothing to read. -/
theorem eq_error_of_mem_code {id : DeclId} (hid : ¬ id.Plain) {f : Finding} (hf : f ∈ r.code id) :
    ∃ e, f = .error e := by
  unfold code at hf
  split at hf
  next e _ => exact ⟨e, List.mem_singleton.1 hf⟩
  next c hc => exact absurd (Tree.plain_of_declares (Tree.declares_of_require hc)) hid

theorem anchoredAt_code (id : DeclId) : AnchoredAt (· = id) (r.code id) := by
  unfold code
  split
  · exact .error _
  · exact anchoredAt_findings _

theorem named?_of_occurrence? {s : Stmt} {o : Occurrence} (h : s.occurrence? = some o) :
    o.named? = none := by
  cases s with
  | placeholder =>
    cases h
    rfl
  | emit e =>
    cases h
    rfl
  | _ => cases h

/-- What occurs in a callable besides its expressions names nothing. -/
theorem named?_of_extra {c : Callable} (o : Occurrence)
    (h : (∃ s, c.HasStmt s ∧ s.occurrence? = some o) ∨ ∃ i ∈ c.invocations, o = .invocation i) :
    o.named? = none := by
  rcases h with ⟨s, _, ho⟩ | ⟨i, _, rfl⟩
  · exact named?_of_occurrence? ho
  · rfl

/-- **The call sites of a callable**: those of its expressions, and those of the invocations in
its head. -/
theorem site_mem_code {id : DeclId} {c : Callable} (hc : r.tree.callable? id = some c) :
    .site s ∈ r.code id ↔
      r.SiteOf c.Root (.callable id) s ∨ r.InvocationSite c.invocations id s := by
  rw [code_eq hc, site_mem_findings (fun _ => Callable.mem_occurrences) named?_of_extra]
  refine or_congr_right ⟨?_, ?_⟩
  · intro hex
    obtain ⟨o, ⟨stmt, _, ho⟩ | ⟨i, hi, rfl⟩, hs⟩ := hex
    · cases stmt with
      | placeholder =>
        cases ho
        cases hs
      | emit e =>
        cases ho
        exact absurd hs site_mem_ofEmission
      | _ => cases ho
    · obtain ⟨declared, target, hattaches, rfl | ⟨hgoes, rfl⟩⟩ := site_mem_ofInvocation.1 hs
      · exact .attach hi hattaches
      · exact .goOn hi hattaches hgoes
  · intro hs
    cases hs with
    | attach hi hattaches =>
      exact ⟨_, .inr ⟨_, hi, rfl⟩, site_mem_ofInvocation.2 ⟨_, _, hattaches, .inl rfl⟩⟩
    | goOn hi hattaches hgoes =>
      exact ⟨_, .inr ⟨_, hi, rfl⟩, site_mem_ofInvocation.2 ⟨_, _, hattaches, .inr ⟨hgoes, rfl⟩⟩⟩

/-! ### What is regular and resolved -/

theorem SiteOf.regular {root : Expr → Prop} (h : r.SiteOf root n s) :
    (Finding.site s).Regular := by
  cases h with
  | call => exact regular_callable (.inl rfl)
  | take => exact regular_reference n _
  | indirect => exact regular_indirect n

theorem InvocationSite.regular {invocations : List Invocation} {function : DeclId}
    (h : r.InvocationSite invocations function s) : (Finding.site s).Regular := by
  cases h with
  | attach => exact regular_callable (.inr (.inl rfl))
  | goOn => exact regular_callable (.inr (.inr rfl))

theorem SiteOf.resolved {root : Expr → Prop} (hfits : r.Fits) (h : r.SiteOf root n s) :
    (Finding.site s).Resolved r.tree := by
  refine resolved_site fun id hid => ?_
  have hnames : ∀ e declared target, r.Names e declared target →
      (r.tree.callable? target).isSome = true := by
    rintro e declared target ⟨_, hcallable, ref, _, _, hresolve⟩
    exact hfits.callable?_resolve hcallable hresolve
  cases h with
  | call _ h =>
    cases hid
    exact hnames _ _ _ h
  | take _ h =>
    cases hid
    exact hnames _ _ _ h
  | indirect => cases hid

theorem Attaches.callable? (hfits : r.Fits) {i : Invocation} {declared target : DeclId}
    (h : r.Attaches i declared target) : (r.tree.callable? target).isSome = true := by
  obtain ⟨_, hmodifier, hresolve⟩ := h
  obtain ⟨m, hm⟩ := Option.isSome_iff_exists.1 hmodifier
  refine hfits.callable?_resolve ?_ hresolve
  rw [Tree.callable?_of_modifier? hm]
  rfl

theorem InvocationSite.resolved {invocations : List Invocation} {function : DeclId}
    (hfits : r.Fits) (hfunction : (r.tree.callable? function).isSome = true)
    (h : r.InvocationSite invocations function s) : (Finding.site s).Resolved r.tree := by
  refine resolved_site fun id hid => ?_
  cases h with
  | attach _ hattaches =>
    cases hid
    exact hattaches.callable? hfits
  | goOn =>
    cases hid
    exact hfunction

theorem callable?_of_site_mem_code {id : DeclId} (h : .site s ∈ r.code id) :
    ∃ c, r.tree.callable? id = some c := by
  unfold code at h
  split at h
  · cases List.mem_singleton.1 h
  next c hc => exact ⟨c, Tree.require_eq_ok.1 hc⟩

theorem regular_code (id : DeclId) {f : Finding} (hf : f ∈ r.code id) : f.Regular := by
  cases f with
  | site s =>
    obtain ⟨c, hc⟩ := callable?_of_site_mem_code hf
    rcases (site_mem_code hc).1 hf with h | h
    · exact h.regular
    · exact h.regular
  | _ => exact regular_of_forall_site (by simp)

theorem resolved_code (hfits : r.Fits) (id : DeclId) {f : Finding} (hf : f ∈ r.code id) :
    f.Resolved r.tree := by
  cases f with
  | site s =>
    obtain ⟨c, hc⟩ := callable?_of_site_mem_code hf
    rcases (site_mem_code hc).1 hf with h | h
    · exact h.resolved hfits
    · exact h.resolved hfits (Option.isSome_of_eq_some hc)
  | _ => exact resolved_of_forall_site (by simp)

end Resolver

/-! ### The seeds of a construction -/

/-- The expression is an argument that the contract passes to one of its bases. -/
def Contract.BaseArg (c : Contract) (e : Expr) : Prop := ∃ base ∈ c.bases, e ∈ base.args

/-- The expression initializes a state variable of the contract that is no constant. -/
def Tree.Initializer (t : Tree) (c : Contract) (e : Expr) : Prop :=
  ∃ id, id ∈ c.stateVariables ∧
    ∃ v, t.var? id = some v ∧ v.isConstant = false ∧ v.value = some e

theorem Contract.mem_baseOccurrences {c : Contract} {o : Occurrence} :
    o ∈ c.baseOccurrences ↔ ∃ e, c.BaseArg e ∧ o ∈ e.occurrences := by
  simp only [baseOccurrences, BaseArg, Expr.listOccurrences_eq_flatMap, List.mem_flatMap]
  constructor
  · intro hex
    obtain ⟨base, hbase, e, he, ho⟩ := hex
    exact ⟨e, ⟨base, hbase, he⟩, ho⟩
  · intro hex
    obtain ⟨e, ⟨base, hbase, he⟩, ho⟩ := hex
    exact ⟨base, hbase, e, he, ho⟩

namespace Resolver

/-- The node that the arguments for the bases of a contract are read for. -/
def argumentNode (r : Resolver) (c : Contract) : Node :=
  match r.constructor? c with
  | none => .entry
  | some f => .callable f.id

/-- What the construction of one contract of the linearization tells. -/
def ofConstruction (r : Resolver) (c : Contract) : List Finding :=
  c.stateVariables.flatMap r.ofStateVariable ++
    ((r.constructor? c).toList.map Build.entrySite ++
      r.findings (r.argumentNode c) c.baseOccurrences)

/-- What starts the build of a creation graph. -/
def creationSeeds (r : Resolver) : List Finding := r.linearization.reverse.flatMap r.ofConstruction

variable {r : Resolver} {s : CallSite}

theorem site_mem_ofStateVariable {id : DeclId} :
    .site s ∈ r.ofStateVariable id ↔ r.SiteOf (fun e => ∃ v, r.tree.var? id = some v ∧
      v.isConstant = false ∧ v.value = some e) .entry s := by
  unfold ofStateVariable
  cases hv : r.tree.requireVariable id with
  | error e =>
    refine iff_of_false (by simp) fun h => ?_
    obtain ⟨_, v, hvar, _⟩ := h.exists_root
    rw [Tree.requireVariable, Tree.require_eq_ok.2 hvar] at hv
    cases hv
  | ok v =>
    have hvar : r.tree.var? id = some v := Tree.require_eq_ok.1 hv
    cases hconst : v.isConstant with
    | true =>
      refine iff_of_false (by simp [hconst]) fun h => ?_
      obtain ⟨_, v', hvar', hconst', _⟩ := h.exists_root
      rw [hvar] at hvar'
      cases hvar'
      rw [hconst] at hconst'
      cases hconst'
    | false =>
      simp only [hconst, Bool.false_eq_true, if_false]
      refine site_mem_findings_exprs fun o => ?_
      cases hvalue : v.value with
      | none => simp [Expr.optionOccurrences, hvar, hvalue]
      | some e => simp [Expr.optionOccurrences, hvar, hvalue, hconst]

theorem site_mem_initializers {c : Contract} :
    .site s ∈ c.stateVariables.flatMap r.ofStateVariable ↔
      r.SiteOf (r.tree.Initializer c) .entry s := by
  rw [show r.tree.Initializer c = fun e => ∃ id, id ∈ c.stateVariables ∧ _ from rfl,
    siteOf_iff_exists, List.mem_flatMap]
  simp only [site_mem_ofStateVariable]

/-- **The call sites that start a construction**: in the initializers, on the way into the
constructors, and in the arguments for bases. -/
theorem site_mem_creationSeeds :
    .site s ∈ r.creationSeeds ↔ ∃ c ∈ r.linearization,
      r.SiteOf (r.tree.Initializer c) .entry s ∨
      (∃ k, r.constructor? c = some k ∧ s = ⟨.entry, .direct, .exact k.id⟩) ∨
      r.SiteOf c.BaseArg (r.argumentNode c) s := by
  simp only [creationSeeds, ofConstruction, List.mem_flatMap, List.mem_reverse, List.mem_append,
    List.mem_map, Option.mem_toList]
  simp only [← List.mem_flatMap, site_mem_initializers,
    site_mem_findings_exprs fun o => Contract.mem_baseOccurrences]
  simp [Build.entrySite, eq_comm]

theorem anchoredAt_ofStateVariable (id : DeclId) :
    AnchoredAt (· = Node.entryKey) (r.ofStateVariable id) := by
  unfold ofStateVariable
  split
  · refine .of_forall fun f hf a b hedge => ?_
    cases List.mem_singleton.1 hf
    cases hedge
  · split
    · exact .nil
    · exact anchoredAt_findings _

theorem anchoredAt_entrySites (fs : List Function) :
    AnchoredAt (· = Node.entryKey) (fs.map Build.entrySite) := by
  refine .of_forall fun f hf a b hedge => ?_
  obtain ⟨k, _, rfl⟩ := List.mem_map.1 hf
  cases hedge
  rfl

/-- **The seeds come in order.**  A constructor is called before the arguments for bases are
read for it. -/
theorem anchoredAt_creationSeeds : AnchoredAt (· = Node.entryKey) r.creationSeeds := by
  refine .flatMap fun c _ => ?_
  refine (AnchoredAt.flatMap fun id _ => anchoredAt_ofStateVariable id).append_self ?_
  refine (anchoredAt_entrySites _).append (anchoredAt_findings _) ?_
  rintro k rfl
  unfold argumentNode
  cases hk : r.constructor? c with
  | none => exact .inl rfl
  | some f => exact .inr (.inl ⟨Build.entrySite f, by simp, rfl⟩)

theorem regular_entrySite (f : Function) : (Build.entrySite f).Regular :=
  regular_callable (.inl rfl)

theorem resolved_entrySite {t : Tree} {f : Function} (hf : t.function? f.id = some f) :
    (Build.entrySite f).Resolved t := by
  refine resolved_site fun id hid => ?_
  cases hid
  rw [Tree.callable?_of_function? hf]
  rfl

theorem regular_creationSeeds {f : Finding} (hf : f ∈ r.creationSeeds) : f.Regular := by
  cases f with
  | site s =>
    obtain ⟨c, _, h | ⟨k, _, rfl⟩ | h⟩ := site_mem_creationSeeds.1 hf
    · exact h.regular
    · exact regular_entrySite k
    · exact h.regular
  | _ => exact regular_of_forall_site (by simp)

theorem resolved_creationSeeds (hfits : r.Fits) {f : Finding} (hf : f ∈ r.creationSeeds) :
    f.Resolved r.tree := by
  cases f with
  | site s =>
    obtain ⟨c, hc, h | ⟨k, hk, rfl⟩ | h⟩ := site_mem_creationSeeds.1 hf
    · exact h.resolved hfits
    · exact resolved_entrySite (hfits.constructor?_eq_some hc hk).1
    · exact h.resolved hfits
  | _ => exact resolved_of_forall_site (by simp)

end Resolver

end ContractCalls
