import ContractCalls.Proofs.Build.Sites

/-!
# What code tells a build

The call sites of code are known from `site_mem_code` and `site_mem_creationSeeds`.  Here the same
is said of all findings, the effects and the errors among them.

* `Resolver.Says`: an expression of the code tells the finding.
* `mem_code`: a callable tells what the expressions of its code say, what its `emit` statements
  tell, and what the invocations in its head tell.
* `mem_creationSeeds`: a construction tells what the initializers and the arguments for bases
  say, and that constructors are called.
* `Tree.Endless`: the code names a constant that is behind itself.  Such code, and no other, tells
  that its reading does not end (`endless_mem_code`, `endless_mem_creationSeeds`).

`Resolver.ConstructionRoot` collects the roots that a construction starts from, and
`CallGraph.CallableRoot` those of the callables of a graph.
-/

namespace ContractCalls

namespace Tree

variable {t : Tree} {root root' : Expr → Prop}

theorem code_or {e : Expr} :
    t.Code (fun e => root e ∨ root' e) e ↔ t.Code root e ∨ t.Code root' e := by
  constructor
  · intro h
    induction h with
    | root h => exact h.imp .root .root
    | part _ hpart ih => exact ih.imp (.part · hpart) (.part · hpart)
    | constant _ hid hv ih => exact ih.imp (.constant · hid hv) (.constant · hid hv)
  · intro hor
    rcases hor with h | h
    · exact h.mono fun _ => .inl
    · exact h.mono fun _ => .inr

end Tree

namespace Resolver

/-- An expression of the code, which is read for the node, tells the finding. -/
def Says (r : Resolver) (root : Expr → Prop) (n : Node) (f : Finding) : Prop :=
  ∃ e o, r.tree.Code root e ∧ e.occurrence? = some o ∧ f ∈ r.ofOccurrence n o

variable {r : Resolver} {n : Node} {f : Finding} {root : Expr → Prop}

/-- What an expression says is read in its place. -/
theorem Says.ne_endless (h : r.Says root n f) (id : DeclId) : f ≠ .error (.endless id) := by
  rintro rfl
  obtain ⟨_, _, _, _, hf⟩ := h
  exact endless_not_mem_ofOccurrence hf

theorem says_iff_exists {ι : Type} {p : ι → Prop} {root : ι → Expr → Prop} :
    r.Says (fun e => ∃ i, p i ∧ root i e) n f ↔ ∃ i, p i ∧ r.Says (root i) n f := by
  simp only [Says, Tree.code_iff_exists]
  constructor
  · intro hex
    obtain ⟨e, o, ⟨i, hi, he⟩, ho, hf⟩ := hex
    exact ⟨i, hi, e, o, he, ho, hf⟩
  · intro hex
    obtain ⟨i, hi, e, o, he, ho, hf⟩ := hex
    exact ⟨e, o, ⟨i, hi, he⟩, ho, hf⟩

/-- Code tells what its expressions say, and what else occurs. -/
theorem mem_findings_iff (hends : ∀ id, f ≠ .error (.endless id)) {os : List Occurrence}
    {extra : Occurrence → Prop} (hos : ∀ o, o ∈ os ↔ (∃ e, root e ∧ o ∈ e.occurrences) ∨ extra o)
    (hextra : ∀ o, extra o → o.named? = none) :
    f ∈ r.findings n os ↔ r.Says root n f ∨ ∃ o, extra o ∧ f ∈ r.ofOccurrence n o := by
  rw [mem_findings hends]
  simp only [Tree.reads_iff_code hos hextra, or_and_right, exists_or, Says]
  refine or_congr_left ⟨fun hex => ?_, fun hex => ?_⟩
  · obtain ⟨o, ⟨e, he, ho⟩, hf⟩ := hex
    exact ⟨e, o, he, ho, hf⟩
  · obtain ⟨e, o, he, ho, hf⟩ := hex
    exact ⟨o, ⟨e, he, ho⟩, hf⟩

theorem mem_findings_exprs (hends : ∀ id, f ≠ .error (.endless id)) {os : List Occurrence}
    (hos : ∀ o, o ∈ os ↔ ∃ e, root e ∧ o ∈ e.occurrences) :
    f ∈ r.findings n os ↔ r.Says root n f := by
  have hor : ∀ o, o ∈ os ↔ (∃ e, root e ∧ o ∈ e.occurrences) ∨ False := by
    intro o
    rw [or_false, hos o]
  rw [mem_findings_iff hends hor fun _ h => h.elim]
  simp

/-- **What a callable tells.** -/
theorem mem_code (hends : ∀ id, f ≠ .error (.endless id)) {id : DeclId} {c : Callable}
    (hc : r.tree.callable? id = some c) :
    f ∈ r.code id ↔ r.Says c.Root (.callable id) f ∨
      (∃ e, c.HasStmt (.emit e) ∧ f ∈ r.ofEmission e) ∨
      ∃ i ∈ c.invocations, f ∈ r.ofInvocation (.callable id) i := by
  rw [code_eq hc, mem_findings_iff hends (fun _ => Callable.mem_occurrences) named?_of_extra]
  refine or_congr_right ⟨?_, ?_⟩
  · intro hex
    obtain ⟨o, ⟨s, hs, ho⟩ | ⟨i, hi, rfl⟩, hf⟩ := hex
    · cases s with
      | placeholder =>
        cases ho
        cases hf
      | emit e =>
        cases ho
        exact .inl ⟨e, hs, hf⟩
      | _ => cases ho
    · exact .inr ⟨i, hi, hf⟩
  · intro hor
    rcases hor with ⟨e, he, hf⟩ | ⟨i, hi, hf⟩
    · exact ⟨_, .inl ⟨_, he, rfl⟩, hf⟩
    · exact ⟨_, .inr ⟨i, hi, rfl⟩, hf⟩

/-! ### Seeds -/

theorem Fits.exists_var? (h : r.Fits) {b : Contract} (hb : b ∈ r.linearization) {id : DeclId}
    (hid : id ∈ b.stateVariables) : ∃ v, r.tree.var? id = some v := by
  obtain ⟨d, hd, hkind, _⟩ := (h.tree.mem_members .variable (h.contracts b hb)).1 hid
  cases d with
  | «variable» v => exact ⟨v, by rw [Tree.var?, hd]; rfl⟩
  | _ => cases hkind

theorem mem_optionOccurrences_value {id : DeclId} {v : Variable} (hv : r.tree.var? id = some v)
    (hconst : v.isConstant = false) (o : Occurrence) : o ∈ Expr.optionOccurrences v.value ↔
      ∃ e, (∃ v, r.tree.var? id = some v ∧ v.isConstant = false ∧ v.value = some e) ∧
        o ∈ e.occurrences := by
  cases hvalue : v.value with
  | none => simp [Expr.optionOccurrences, hv, hvalue]
  | some e => simp [Expr.optionOccurrences, hv, hvalue, hconst]

/-- Nothing is read of a constant where it is declared. -/
theorem not_code_of_constant {id : DeclId} {v : Variable} (hv : r.tree.var? id = some v)
    (hconst : v.isConstant = true) {e : Expr} : ¬ r.tree.Code (fun e =>
      ∃ v, r.tree.var? id = some v ∧ v.isConstant = false ∧ v.value = some e) e := by
  intro he
  obtain ⟨_, v', hv', hconst', _⟩ := he.exists_root
  cases hv.symm.trans hv'
  rw [hconst] at hconst'
  cases hconst'

theorem mem_ofStateVariable (hends : ∀ id, f ≠ .error (.endless id)) {id : DeclId} {v : Variable}
    (hv : r.tree.var? id = some v) :
    f ∈ r.ofStateVariable id ↔ r.Says (fun e => ∃ v, r.tree.var? id = some v ∧
      v.isConstant = false ∧ v.value = some e) .entry f := by
  rw [ofStateVariable, show r.tree.requireVariable id = .ok v from Tree.require_eq_ok.2 hv]
  cases hconst : v.isConstant with
  | true =>
    refine iff_of_false (by simp [hconst]) ?_
    rintro ⟨_, _, he, _⟩
    exact not_code_of_constant hv hconst he
  | false =>
    simp only [hconst, Bool.false_eq_true, if_false]
    exact mem_findings_exprs hends (mem_optionOccurrences_value hv hconst)

theorem mem_initializers (hends : ∀ id, f ≠ .error (.endless id)) (hfits : r.Fits)
    {b : Contract} (hb : b ∈ r.linearization) :
    f ∈ b.stateVariables.flatMap r.ofStateVariable ↔ r.Says (r.tree.Initializer b) .entry f := by
  rw [show r.tree.Initializer b = fun e => ∃ id, id ∈ b.stateVariables ∧ _ from rfl,
    says_iff_exists, List.mem_flatMap]
  refine exists_congr fun id => and_congr_right fun hid => ?_
  obtain ⟨v, hv⟩ := hfits.exists_var? hb hid
  exact mem_ofStateVariable hends hv

/-- A construction tells what its contracts tell one after the other. -/
theorem mem_creationSeeds_iff : f ∈ r.creationSeeds ↔ ∃ b ∈ r.linearization,
    (∃ id ∈ b.stateVariables, f ∈ r.ofStateVariable id) ∨
      (∃ k, r.constructor? b = some k ∧ f = Build.entrySite k) ∨
      f ∈ r.findings (r.argumentNode b) b.baseOccurrences := by
  simp only [creationSeeds, ofConstruction, List.mem_flatMap, List.mem_reverse, List.mem_append,
    List.mem_map, Option.mem_toList, eq_comm]

/-- **What a construction tells.** -/
theorem mem_creationSeeds (hends : ∀ id, f ≠ .error (.endless id)) (hfits : r.Fits) :
    f ∈ r.creationSeeds ↔ ∃ b ∈ r.linearization, r.Says (r.tree.Initializer b) .entry f ∨
      (∃ k, r.constructor? b = some k ∧ f = Build.entrySite k) ∨
      r.Says b.BaseArg (r.argumentNode b) f := by
  rw [mem_creationSeeds_iff]
  refine exists_congr fun b => and_congr_right fun hb => ?_
  rw [← List.mem_flatMap, mem_initializers hends hfits hb,
    mem_findings_exprs hends fun o => Contract.mem_baseOccurrences]

/-- The expression is an initializer or an argument for a base, of one of the contracts. -/
def ConstructionRoot (r : Resolver) (e : Expr) : Prop :=
  ∃ b, b ∈ r.linearization ∧ (r.tree.Initializer b e ∨ b.BaseArg e)

theorem code_constructionRoot {e : Expr} : r.tree.Code r.ConstructionRoot e ↔
    ∃ b, b ∈ r.linearization ∧
      (r.tree.Code (r.tree.Initializer b) e ∨ r.tree.Code b.BaseArg e) := by
  rw [show r.ConstructionRoot = fun e => ∃ b, b ∈ r.linearization ∧ _ from rfl,
    Tree.code_iff_exists]
  simp only [Tree.code_or]

/-- What holds of some code of a construction holds of code of one of the contracts. -/
theorem exists_code_constructionRoot {p : Expr → Prop} :
    (∃ e, r.tree.Code r.ConstructionRoot e ∧ p e) ↔ ∃ b ∈ r.linearization,
      (∃ e, r.tree.Code (r.tree.Initializer b) e ∧ p e) ∨ ∃ e, r.tree.Code b.BaseArg e ∧ p e := by
  simp only [code_constructionRoot]
  constructor
  · intro hex
    obtain ⟨e, ⟨b, hb, he | he⟩, hp⟩ := hex
    · exact ⟨b, hb, .inl ⟨e, he, hp⟩⟩
    · exact ⟨b, hb, .inr ⟨e, he, hp⟩⟩
  · intro hex
    obtain ⟨b, hb, ⟨e, he, hp⟩ | ⟨e, he, hp⟩⟩ := hex
    · exact ⟨e, ⟨b, hb, .inl he⟩, hp⟩
    · exact ⟨e, ⟨b, hb, .inr he⟩, hp⟩

end Resolver

/-! ### Readings that do not end -/

namespace Tree

/-- The code names a constant whose initializer leads back to it. -/
def Endless (t : Tree) (root : Expr → Prop) : Prop :=
  ∃ e, t.Code root e ∧ ∃ id, e.declaration = some id ∧ t.Behind id id

theorem NoConstantCycle.not_endless {t : Tree} (h : t.NoConstantCycle) {root : Expr → Prop} :
    ¬ t.Endless root := by
  rintro ⟨_, _, id, _, hid⟩
  exact h id hid

theorem endless_iff_exists {t : Tree} {ι : Type} {p : ι → Prop} {root : ι → Expr → Prop} :
    t.Endless (fun e => ∃ i, p i ∧ root i e) ↔ ∃ i, p i ∧ t.Endless (root i) := by
  simp only [Endless, code_iff_exists]
  constructor
  · rintro ⟨e, ⟨i, hi, he⟩, hback⟩
    exact ⟨i, hi, e, he, hback⟩
  · rintro ⟨i, hi, e, he, hback⟩
    exact ⟨e, ⟨i, hi, he⟩, hback⟩

end Tree

namespace Resolver

variable {r : Resolver} {n : Node} {root : Expr → Prop}

theorem endless_mem_findings_iff {os : List Occurrence} {extra : Occurrence → Prop}
    (hos : ∀ o, o ∈ os ↔ (∃ e, root e ∧ o ∈ e.occurrences) ∨ extra o)
    (hextra : ∀ o, extra o → o.named? = none) :
    (∃ k, .error (.endless k) ∈ r.findings n os) ↔ r.tree.Endless root := by
  rw [endless_mem_findings]
  simp only [Tree.reads_iff_code hos hextra]
  constructor
  · rintro ⟨o, id, ⟨e, he, ho⟩ | ho, hid, hback⟩
    · exact ⟨e, he, id, Expr.declaration_of_named? ho hid, hback⟩
    · rw [hextra o ho] at hid
      cases hid
  · rintro ⟨e, he, id, hid, hback⟩
    obtain ⟨o, ho, hname⟩ := Expr.occurrence?_of_declaration hid
    exact ⟨o, id, .inl ⟨e, he, ho⟩, hname, hback⟩

theorem endless_mem_findings_exprs {os : List Occurrence}
    (hos : ∀ o, o ∈ os ↔ ∃ e, root e ∧ o ∈ e.occurrences) :
    (∃ k, .error (.endless k) ∈ r.findings n os) ↔ r.tree.Endless root := by
  have hor : ∀ o, o ∈ os ↔ (∃ e, root e ∧ o ∈ e.occurrences) ∨ False := by
    intro o
    rw [or_false, hos o]
  exact endless_mem_findings_iff hor fun _ h => h.elim

/-- **A callable is never read to its end** if and only if its code is endless. -/
theorem endless_mem_code {id : DeclId} {c : Callable} (hc : r.tree.callable? id = some c) :
    (∃ k, .error (.endless k) ∈ r.code id) ↔ r.tree.Endless c.Root := by
  rw [code_eq hc]
  exact endless_mem_findings_iff (fun _ => Callable.mem_occurrences) named?_of_extra

theorem endless_mem_ofStateVariable {id : DeclId} {v : Variable} (hv : r.tree.var? id = some v) :
    (∃ k, .error (.endless k) ∈ r.ofStateVariable id) ↔
      r.tree.Endless fun e => ∃ v, r.tree.var? id = some v ∧ v.isConstant = false ∧
        v.value = some e := by
  rw [ofStateVariable, show r.tree.requireVariable id = .ok v from Tree.require_eq_ok.2 hv]
  cases hconst : v.isConstant with
  | true =>
    refine iff_of_false (by simp [hconst]) ?_
    rintro ⟨_, he, _⟩
    exact not_code_of_constant hv hconst he
  | false =>
    simp only [hconst, Bool.false_eq_true, if_false]
    exact endless_mem_findings_exprs (mem_optionOccurrences_value hv hconst)

/-- **The start of a construction** is never read to its end if and only if its code is
endless. -/
theorem endless_mem_creationSeeds (hfits : r.Fits) :
    (∃ k, .error (.endless k) ∈ r.creationSeeds) ↔ r.tree.Endless r.ConstructionRoot := by
  have hinitializers : ∀ b ∈ r.linearization,
      ((∃ id ∈ b.stateVariables, ∃ k, .error (.endless k) ∈ r.ofStateVariable id) ↔
        r.tree.Endless (r.tree.Initializer b)) := by
    intro b hb
    rw [show r.tree.Initializer b = fun e => ∃ id, id ∈ b.stateVariables ∧ _ from rfl,
      Tree.endless_iff_exists]
    refine exists_congr fun id => and_congr_right fun hid => ?_
    obtain ⟨v, hv⟩ := hfits.exists_var? hb hid
    exact endless_mem_ofStateVariable hv
  rw [Tree.Endless, exists_code_constructionRoot]
  simp only [mem_creationSeeds_iff]
  constructor
  · rintro ⟨k, b, hb, ⟨id, hid, hk⟩ | ⟨_, _, hsite⟩ | hk⟩
    · exact ⟨b, hb, .inl ((hinitializers b hb).1 ⟨id, hid, k, hk⟩)⟩
    · cases hsite
    · exact ⟨b, hb, .inr ((endless_mem_findings_exprs fun _ =>
        Contract.mem_baseOccurrences).1 ⟨k, hk⟩)⟩
  · rintro ⟨b, hb, hends | hends⟩
    · obtain ⟨id, hid, k, hk⟩ := (hinitializers b hb).2 hends
      exact ⟨k, b, hb, .inl ⟨id, hid, hk⟩⟩
    · obtain ⟨k, hk⟩ := (endless_mem_findings_exprs fun _ =>
        Contract.mem_baseOccurrences).2 hends
      exact ⟨k, b, hb, .inr (.inr hk)⟩

end Resolver

/-- The expression is a root of a callable of the graph. -/
def CallGraph.CallableRoot (g : CallGraph) (t : Tree) (e : Expr) : Prop :=
  ∃ k, k ∈ g.callables ∧ ∃ c, t.callable? k = some c ∧ c.Root e

theorem CallGraph.code_callableRoot {g : CallGraph} {t : Tree} {e : Expr} :
    t.Code (g.CallableRoot t) e ↔
      ∃ k, k ∈ g.callables ∧ ∃ c, t.callable? k = some c ∧ t.Code c.Root e := by
  rw [show g.CallableRoot t = fun e => ∃ k, k ∈ g.callables ∧ _ from rfl, Tree.code_iff_exists]
  simp only [Tree.code_iff_exists]

end ContractCalls
