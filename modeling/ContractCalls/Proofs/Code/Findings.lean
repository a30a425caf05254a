import ContractCalls.Proofs.Code.Openings
import Mathlib.Data.List.Basic

/-!
# What code tells

The findings of code, said by its expressions and invocations.

* `Resolver.Calls`, `Resolver.Takes`: the code calls a callable by its name, or takes it as
  a function pointer.
* `Tree.CallsPointer`: the code calls through a function pointer.
* `Resolver.Attaches`: an invocation names a modifier.

The builder does four things with a finding: it adds the edge `Finding.edge?`, queues the
callable `Finding.target?`, notes the pointer `Finding.pointer?`, and releases the pointers at
the first call through one (`Finding.isIndirect`).  The theorems say which of them the code
of a node brings about.
-/

namespace ContractCalls

namespace Finding

def edge? : Finding → Option (Node × Node)
  | .site s => if s.kind = .reference then none else s.edge?
  | _ => none

def target? : Finding → Option DeclId
  | .site s => if s.kind = .reference then none else s.target.callable?
  | _ => none

def pointer? : Finding → Option DeclId
  | .site s => if s.kind = .reference then s.target.callable? else none
  | _ => none

def isIndirect : Finding → Bool
  | .site s => s.kind = .indirect
  | _ => false

end Finding

namespace Tree

/-- The code calls through a function pointer. -/
def CallsPointer (t : Tree) (root : Expr → Prop) : Prop :=
  ∃ note callee args, t.Code root (.call note callee args .function) ∧
    callee.note.isInternal = true ∧ callee.note.calledDirectly = false

end Tree

namespace Resolver

/-- The expression is an internal name of the callable `declared` that leads to `target`. -/
def Names (r : Resolver) (e : Expr) (declared target : DeclId) : Prop :=
  e.note.isInternal = true ∧ (r.tree.callable? declared).isSome = true ∧
    ∃ ref, e.ref? = some ref ∧ ref.declaration = some declared ∧
      r.resolve declared ref.lookup = .ok target

/-- The code calls the callable by a name that leads to it. -/
def Calls (r : Resolver) (root : Expr → Prop) (target : DeclId) : Prop :=
  ∃ e declared, r.tree.Code root e ∧ r.Names e declared target ∧ e.note.calledDirectly = true

/-- The code takes the callable as a pointer, by a name that leads to it. -/
def Takes (r : Resolver) (root : Expr → Prop) (target : DeclId) : Prop :=
  ∃ e declared, r.tree.Code root e ∧ r.Names e declared target ∧ e.note.calledDirectly = false

/-- The invocation names the modifier `declared` and leads to `target`. -/
def Attaches (r : Resolver) (i : Invocation) (declared target : DeclId) : Prop :=
  i.ref.declaration = some declared ∧ (r.tree.modifier? declared).isSome = true ∧
    r.resolve declared i.ref.lookup = .ok target

variable {r : Resolver} {n : Node} {s : CallSite}

/-! ### Call sites of one occurrence -/

theorem site_mem_ofNamed {note : Note} {ref : Reference} :
    .site s ∈ r.ofNamed n note ref ↔ ∃ declared target, ref.declaration = some declared ∧
      (r.tree.callable? declared).isSome = true ∧ note.isInternal = true ∧
      r.resolve declared ref.lookup = .ok target ∧
      s = ⟨n, .ofReference note.calledDirectly, .callable declared target⟩ := by
  unfold ofNamed
  cases hid : ref.declaration with
  | none => simp
  | some id =>
    simp only [Option.some.injEq, exists_and_left, exists_eq_left', Tree.callable?]
    cases hd : r.tree.find? id with
    | none => simp
    | some d =>
      cases hc : d.callable? with
      | none => simp [hc]
      | some c =>
        cases hi : note.isInternal with
        | false => simp [hc]
        | true =>
          cases hres : r.resolve id ref.lookup with
          | error e => simp [hc]
          | ok target => simp [hc]

theorem site_mem_ofCall {callee : Expr} {kind : CallKind} :
    .site s ∈ ofCall n callee kind ↔ kind = .function ∧ callee.note.isInternal = true ∧
      callee.note.calledDirectly = false ∧ s = ⟨n, .indirect, .internalDispatch⟩ := by
  unfold ofCall SiteKind.ofCall Note.isInternal
  cases kind with
  | conversion => simp
  | construction => simp
  | function =>
    cases hf : callee.note.functionType with
    | none => simp
    | some f =>
      cases hd : callee.note.calledDirectly <;> cases f <;> simp [FunctionType.isInternal]

theorem site_mem_ofEmission {e : Expr} : .site s ∉ r.ofEmission e := by
  unfold ofEmission
  split
  · split
    · simp
    · split <;> simp
  · simp

/-- The call sites of an expression: its name, or the call through a pointer that it is. -/
theorem site_mem_ofOccurrence {e : Expr} {o : Occurrence} (ho : e.occurrence? = some o) :
    .site s ∈ r.ofOccurrence n o ↔
      (∃ declared target, r.Names e declared target ∧
        s = ⟨n, .ofReference e.note.calledDirectly, .callable declared target⟩) ∨
      (∃ note callee args, e = .call note callee args .function ∧
        callee.note.isInternal = true ∧ callee.note.calledDirectly = false ∧
        s = ⟨n, .indirect, .internalDispatch⟩) := by
  cases e with
  | identifier note ref =>
    cases ho
    rw [ofOccurrence, site_mem_ofNamed]
    simp only [Names, Expr.note, Expr.ref?]
    grind
  | member note inner ref =>
    cases ho
    rw [ofOccurrence, site_mem_ofNamed]
    simp only [Names, Expr.note, Expr.ref?]
    grind
  | call note callee args kind =>
    cases ho
    rw [ofOccurrence, site_mem_ofCall]
    simp only [Names, Expr.ref?]
    grind
  | new note name contract =>
    cases ho
    cases contract <;> simp [ofOccurrence, Names, Expr.ref?]
  | _ => cases ho

theorem ofOccurrence_of_constant {o : Occurrence} {id : DeclId} {v : Expr}
    (ho : o.named? = some id) (hv : r.tree.constantValue? id = some v) :
    r.ofOccurrence n o = [] := by
  obtain ⟨var, hvar, _⟩ := Option.bind_eq_some_iff.1 hv
  obtain ⟨d, hd, hdv⟩ := Option.bind_eq_some_iff.1 hvar
  have hc : d.callable? = none := by
    cases d with
    | «variable» v => rfl
    | _ => cases hdv
  have hnamed : ∀ (note : Note) (ref : Reference), ref.declaration = some id →
      r.ofNamed n note ref = [] := by
    intro note ref href
    simp [ofNamed, href, hd, hc]
  cases o with
  | identifier note ref => exact hnamed note ref ho
  | member note ref => exact hnamed note ref ho
  | _ => cases ho

theorem mem_ofInlined {f : Finding} {o : Occurrence} : f ∈ r.ofInlined n o ↔
    (∃ id, r.tree.again? o = some id ∧ f = .error (.endless id)) ∨
      r.tree.again? o = none ∧ f ∈ r.ofOccurrence n o := by
  unfold ofInlined
  cases r.tree.again? o <;> simp

theorem error_ne_endless (e : Error) (id : DeclId) : Finding.error e ≠ .error (.endless id) := nofun

/-- **What code tells** is what the occurrences tell that are read, unless it is that the reading
does not end. -/
theorem mem_findings {f : Finding} {os : List Occurrence} (hends : ∀ id, f ≠ .error (.endless id)) :
    f ∈ r.findings n os ↔ ∃ o, r.tree.Reads ∅ os o ∧ f ∈ r.ofOccurrence n o := by
  rw [findings, List.mem_flatMap]
  constructor
  · intro hex
    obtain ⟨o, ho, hf⟩ := hex
    rcases mem_ofInlined.1 hf with ⟨id, _, hendless⟩ | ⟨_, hf⟩
    · exact absurd hendless (hends id)
    · exact ⟨o, r.tree.reads_of_mem_inlinedIn ∅ os ho, hf⟩
  · intro hex
    obtain ⟨o, ho, hf⟩ := hex
    -- What names a constant tells nothing, so `o` is not inlined away.
    have hstays : ∀ id, o.named? = some id → r.tree.constantValue? id = none := by
      intro id hid
      cases hv : r.tree.constantValue? id with
      | none => rfl
      | some v =>
        rw [ofOccurrence_of_constant hid hv] at hf
        cases hf
    exact ⟨o, r.tree.mem_inlinedIn_of_reads ∅ os hstays ho,
      mem_ofInlined.2 (.inr ⟨Tree.again?_eq_none.2 hstays, hf⟩)⟩

theorem endless_not_mem_ofNamed {note : Note} {ref : Reference} {id : DeclId} :
    .error (.endless id) ∉ r.ofNamed n note ref := by
  unfold ofNamed
  split
  · simp
  · split
    · simp
    · split
      · split <;> simp
      · simp

theorem endless_not_mem_ofInvocation {i : Invocation} {id : DeclId} :
    .error (.endless id) ∉ r.ofInvocation n i := by
  have hplaceholder : ∀ function target,
      .error (.endless id) ∉ r.ofPlaceholder function target := by
    intro function target
    unfold ofPlaceholder
    split
    · simp
    · split <;> simp
  unfold ofInvocation
  split
  · simp
  · split
    · simp
    · simp
    · split
      · simp
      · split
        · simp
        · simp [hplaceholder]
    · simp

theorem endless_not_mem_ofOccurrence {o : Occurrence} {id : DeclId} :
    .error (.endless id) ∉ r.ofOccurrence n o := by
  cases o with
  | call callee args kind =>
    rw [ofOccurrence, ofCall]
    split <;> simp
  | identifier note ref => exact endless_not_mem_ofNamed
  | member note ref => exact endless_not_mem_ofNamed
  | creation name contract => simp [ofOccurrence]
  | emission event =>
    rw [ofOccurrence, ofEmission.eq_def]
    split
    · split
      · simp
      · split <;> simp
    · simp
  | placeholder => simp [ofOccurrence]
  | invocation i => exact endless_not_mem_ofInvocation

/-- **The reading of code does not end** if and only if it comes to a constant behind itself. -/
theorem endless_mem_findings {os : List Occurrence} :
    (∃ id, .error (.endless id) ∈ r.findings n os) ↔
      ∃ o id, r.tree.Reads ∅ os o ∧ o.named? = some id ∧ r.tree.Behind id id := by
  rw [← Tree.exists_again_iff]
  simp only [findings, List.mem_flatMap, mem_ofInlined, endless_not_mem_ofOccurrence, and_false,
    or_false]
  constructor
  · rintro ⟨id, o, ho, id', hagain, _⟩
    exact ⟨o, ho, id', hagain⟩
  · rintro ⟨o, ho, id, hagain⟩
    exact ⟨id, o, ho, id, hagain, rfl⟩

/-- Where no constants refer to each other in a cycle, code tells what the occurrences tell that
are left of it. -/
theorem findings_of_noConstantCycle (hacyclic : r.tree.NoConstantCycle) (os : List Occurrence) :
    r.findings n os = (r.tree.inlined os).flatMap (r.ofOccurrence n) :=
  List.flatMap_congr fun _ ho => ofInlined_of_again?_eq_none (hacyclic.again?_eq_none ho)

/-! ### Call sites of code -/

/-- The call sites of the expressions of code that is read for a node. -/
inductive SiteOf (r : Resolver) (root : Expr → Prop) (n : Node) : CallSite → Prop where
  | call {e : Expr} {declared target : DeclId} : r.tree.Code root e →
      r.Names e declared target → e.note.calledDirectly = true →
      SiteOf r root n ⟨n, .direct, .callable declared target⟩
  | take {e : Expr} {declared target : DeclId} : r.tree.Code root e →
      r.Names e declared target → e.note.calledDirectly = false →
      SiteOf r root n ⟨n, .reference, .callable declared target⟩
  | indirect : r.tree.CallsPointer root → SiteOf r root n ⟨n, .indirect, .internalDispatch⟩

theorem Names.declaration {e : Expr} {declared target : DeclId} (h : r.Names e declared target) :
    e.declaration = some declared := by
  obtain ⟨_, _, ref, href, hdecl, _⟩ := h
  cases e with
  | identifier note r' =>
    cases href
    exact hdecl
  | member note inner r' =>
    cases href
    exact hdecl
  | _ => cases href

/-- The call sites of code are those of its expressions, and those of what else occurs. -/
theorem site_mem_findings {os : List Occurrence} {root : Expr → Prop}
    {extra : Occurrence → Prop} (hos : ∀ o, o ∈ os ↔ (∃ e, root e ∧ o ∈ e.occurrences) ∨ extra o)
    (hextra : ∀ o, extra o → o.named? = none) :
    .site s ∈ r.findings n os ↔
      r.SiteOf root n s ∨ ∃ o, extra o ∧ .site s ∈ r.ofOccurrence n o := by
  rw [mem_findings (by simp)]
  constructor
  · intro hex
    obtain ⟨o, ho, hs⟩ := hex
    rcases (Tree.reads_iff_code hos hextra).1 ho with ⟨e, he, heo⟩ | ho
    · rcases (site_mem_ofOccurrence heo).1 hs with
        ⟨declared, target, hnames, rfl⟩ | ⟨note, callee, args, rfl, hint, hdir, rfl⟩
      · cases hd : e.note.calledDirectly with
        | true => exact .inl (.call he hnames hd)
        | false => exact .inl (.take he hnames hd)
      · exact .inl (.indirect ⟨note, callee, args, he, hint, hdir⟩)
    · exact .inr ⟨o, ho, hs⟩
  · have hname : ∀ e declared target, r.tree.Code root e → r.Names e declared target →
        ∃ o, r.tree.Reads ∅ os o ∧ .site ⟨n, .ofReference e.note.calledDirectly,
          .callable declared target⟩ ∈ r.ofOccurrence n o := by
      intro e declared target he hnames
      obtain ⟨o, ho, _⟩ := Expr.occurrence?_of_declaration hnames.declaration
      refine ⟨o, (Tree.reads_iff_code hos hextra).2 (.inl ⟨e, he, ho⟩), ?_⟩
      exact (site_mem_ofOccurrence ho).2 (.inl ⟨declared, target, hnames, rfl⟩)
    intro hor
    rcases hor with hs | ⟨o, ho, hs⟩
    · cases hs with
      | call he hnames hd => simpa [hd, SiteKind.ofReference] using hname _ _ _ he hnames
      | take he hnames hd => simpa [hd, SiteKind.ofReference] using hname _ _ _ he hnames
      | indirect h =>
        obtain ⟨note, callee, args, he, hint, hdir⟩ := h
        refine ⟨_, (Tree.reads_iff_code hos hextra).2 (.inl ⟨_, he, rfl⟩), ?_⟩
        exact (site_mem_ofOccurrence rfl).2 (.inr ⟨note, callee, args, rfl, hint, hdir, rfl⟩)
    · exact ⟨o, (Tree.reads_iff_code hos hextra).2 (.inr ho), hs⟩

theorem site_mem_findings_exprs {os : List Occurrence} {root : Expr → Prop}
    (hos : ∀ o, o ∈ os ↔ ∃ e, root e ∧ o ∈ e.occurrences) :
    .site s ∈ r.findings n os ↔ r.SiteOf root n s := by
  have hos' : ∀ o, o ∈ os ↔ (∃ e, root e ∧ o ∈ e.occurrences) ∨ False := by
    intro o
    rw [hos, or_false]
  have hmem : .site s ∈ r.findings n os ↔
      r.SiteOf root n s ∨ ∃ o, False ∧ .site s ∈ r.ofOccurrence n o :=
    site_mem_findings hos' fun _ h => h.elim
  rw [hmem]
  simp

/-! ### Invocations -/

end Resolver

namespace Tree

/-- The modifier goes on into the function it is attached to. -/
def GoesOn (t : Tree) (id : DeclId) : Prop :=
  ∃ m, t.modifier? id = some m ∧ (Callable.modifier m).HasStmt .placeholder

end Tree

namespace Resolver

variable {r : Resolver} {n : Node} {s : CallSite} {function : DeclId}

/-- The call sites of the invocations in the head of `function`. -/
inductive InvocationSite (r : Resolver) (invocations : List Invocation) (function : DeclId) :
    CallSite → Prop where
  | attach {i : Invocation} {declared target : DeclId} : i ∈ invocations →
      r.Attaches i declared target →
      InvocationSite r invocations function ⟨.callable function, .modifier, .callable declared target⟩
  | goOn {i : Invocation} {declared target : DeclId} : i ∈ invocations →
      r.Attaches i declared target → r.tree.GoesOn target →
      InvocationSite r invocations function ⟨.callable target, .placeholder, .exact function⟩

theorem site_mem_ofPlaceholder {target : DeclId} :
    .site s ∈ r.ofPlaceholder function target ↔
      r.tree.GoesOn target ∧ s = ⟨.callable target, .placeholder, .exact function⟩ := by
  unfold ofPlaceholder Tree.GoesOn
  cases hm : r.tree.requireModifier target with
  | error e =>
    have hnone : r.tree.modifier? target = none := by
      rw [Option.eq_none_iff_forall_ne_some]
      intro m h
      rw [Tree.requireModifier, Tree.require_eq_ok.2 h] at hm
      cases hm
    simp [hnone]
  | ok m =>
    have hsome : r.tree.modifier? target = some m := Tree.require_eq_ok.1 hm
    cases hp : m.hasPlaceholder with
    | false => simp [hsome, ← Modifier.hasPlaceholder_iff, hp]
    | true => simp [hsome, ← Modifier.hasPlaceholder_iff, hp]

theorem site_mem_ofInvocation {i : Invocation} :
    .site s ∈ r.ofInvocation (.callable function) i ↔
      ∃ declared target, r.Attaches i declared target ∧
        (s = ⟨.callable function, .modifier, .callable declared target⟩ ∨
          r.tree.GoesOn target ∧ s = ⟨.callable target, .placeholder, .exact function⟩) := by
  unfold ofInvocation Attaches
  cases hid : i.ref.declaration with
  | none => simp
  | some id =>
    simp only [Option.some.injEq, Tree.modifier?]
    cases hd : r.tree.find? id with
    | none => simp [hd]
    | some d =>
      cases d with
      | modifier m =>
        cases hres : r.resolve id i.ref.lookup with
        | error e => simp [Node.callable?, hres]
        | ok target =>
          simp only [Node.callable?, List.mem_cons, site_mem_ofPlaceholder, Finding.site.injEq]
          constructor
          · intro h
            exact ⟨id, target, ⟨rfl, by simp [hd, Declaration.modifier?], hres⟩, h⟩
          · intro hex
            obtain ⟨declared, target', ⟨rfl, _, hres'⟩, h⟩ := hex
            obtain rfl := Except.ok.inj (hres.symm.trans hres')
            exact h
      | contract c => simp [hd, Declaration.modifier?]
      | function f => simp [hd, Declaration.modifier?]
      | event e => simp [hd, Declaration.modifier?]
      | «variable» v => simp [hd, Declaration.modifier?]

end Resolver

end ContractCalls
