import ContractCalls.Proofs.Build.Told

/-!
# Malformed code

Code carries the notes that resolution left on it, and these can be missing or contradict the
tree.  A `Resolver.Malformed` callable has such a fault somewhere: in an expression of its code or
of a constant that this names (`MalformedExpr`), in an `emit` statement (`MalformedEmission`), or
in an invocation (`MalformedInvocation`).

These are all the faults that a build notices: the code of a callable tells an error exactly
if the callable is malformed (`error_mem_code`), and so for the code that starts a construction
(`error_mem_creationSeeds`).
-/

namespace ContractCalls

namespace Resolver

/-- The expression has a fault itself, apart from its parts. -/
inductive MalformedExpr (r : Resolver) : Expr → Prop where
  /-- A call of a function whose callee has no function type. -/
  | untyped {note : Note} {callee : Expr} {args : List Expr} :
      callee.note.functionType = none → MalformedExpr r (.call note callee args .function)
  | unknown {e : Expr} {ref : Reference} {id : DeclId} : e.ref? = some ref →
      ref.declaration = some id → r.tree.find? id = none → MalformedExpr r e
  /-- An internal reference to a callable, by a `super` lookup that leads nowhere. -/
  | lookup {e : Expr} {ref : Reference} {id scope : DeclId} {err : Error} : e.ref? = some ref →
      ref.declaration = some id → (r.tree.callable? id).isSome = true → e.note.isInternal = true →
      ref.lookup = .super scope → r.resolveSuper id scope = .error err → MalformedExpr r e

/-- An `emit` of the expression has a fault, apart from those of the expression. -/
inductive MalformedEmission (r : Resolver) : Expr → Prop where
  | noCall {e : Expr} : (∀ note callee args kind, e ≠ .call note callee args kind) →
      MalformedEmission r e
  | unresolved {note : Note} {callee : Expr} {args : List Expr} {kind : CallKind} :
      callee.declaration = none → MalformedEmission r (.call note callee args kind)
  | unknown {note : Note} {callee : Expr} {args : List Expr} {kind : CallKind} {id : DeclId} :
      callee.declaration = some id → r.tree.find? id = none →
      MalformedEmission r (.call note callee args kind)
  | noEvent {note : Note} {callee : Expr} {args : List Expr} {kind : CallKind} {id : DeclId}
      {d : Declaration} : callee.declaration = some id → r.tree.find? id = some d →
      d.event? = none → MalformedEmission r (.call note callee args kind)

/-- The invocation has a fault, apart from those of its arguments. -/
inductive MalformedInvocation (r : Resolver) (i : Invocation) : Prop where
  | unresolved : i.ref.declaration = none → MalformedInvocation r i
  | unknown {id : DeclId} : i.ref.declaration = some id → r.tree.find? id = none →
      MalformedInvocation r i
  | otherKind {id : DeclId} {d : Declaration} : i.ref.declaration = some id →
      r.tree.find? id = some d → d.modifier? = none → d.contract? = none → MalformedInvocation r i
  /-- It names a modifier by a lookup that leads nowhere. -/
  | lookup {id : DeclId} {err : Error} : i.ref.declaration = some id →
      (r.tree.modifier? id).isSome = true → r.resolve id i.ref.lookup = .error err →
      MalformedInvocation r i
  /-- It names a modifier by a lookup that leads to what is none. -/
  | noModifier {id target : DeclId} : i.ref.declaration = some id →
      (r.tree.modifier? id).isSome = true → r.resolve id i.ref.lookup = .ok target →
      r.tree.modifier? target = none → MalformedInvocation r i

/-- An expression of the code has a fault. -/
def MalformedCode (r : Resolver) (root : Expr → Prop) : Prop :=
  ∃ e, r.tree.Code root e ∧ r.MalformedExpr e

/-- The code of the callable has a fault. -/
def Malformed (r : Resolver) (c : Callable) : Prop :=
  r.MalformedCode c.Root ∨ (∃ e, c.HasStmt (.emit e) ∧ r.MalformedEmission e) ∨
    ∃ i ∈ c.invocations, r.MalformedInvocation i

variable {r : Resolver} {n : Node} {err : Error}

/-! ### Errors of one occurrence -/

/-- Only a `super` lookup can lead nowhere. -/
theorem resolve_eq_error {id : DeclId} {lookup : Lookup} : r.resolve id lookup = .error err ↔
    ∃ scope, lookup = .super scope ∧ r.resolveSuper id scope = .error err := by
  cases lookup <;> simp [resolve]

theorem error_mem_ofNamed {note : Note} {ref : Reference} :
    (∃ err, .error (.error err) ∈ r.ofNamed n note ref) ↔ ∃ id, ref.declaration = some id ∧
      (r.tree.find? id = none ∨ ((r.tree.callable? id).isSome = true ∧ note.isInternal = true ∧
        ∃ scope err, ref.lookup = .super scope ∧ r.resolveSuper id scope = .error err)) := by
  unfold ofNamed
  cases hid : ref.declaration with
  | none => simp
  | some id =>
    simp only [Option.some.injEq, exists_eq_left', Tree.callable?]
    cases hd : r.tree.find? id with
    | none => simp
    | some d =>
      cases hc : d.callable? with
      | none => simp [hc]
      | some c =>
        cases hi : note.isInternal with
        | false => simp [hc]
        | true =>
          cases hres : r.resolve id ref.lookup with
          | ok target =>
            refine iff_of_false (by simp [hc]) ?_
            rintro (hnone | ⟨_, _, scope, err, hlookup, herr⟩)
            · cases hnone
            · cases hres.symm.trans (resolve_eq_error.2 ⟨scope, hlookup, herr⟩)
          | error e =>
            obtain ⟨scope, hlookup, herr⟩ := resolve_eq_error.1 hres
            simp [hc, hlookup, herr]

theorem error_mem_ofCall {callee : Expr} {kind : CallKind} :
    (∃ err, .error (.error err) ∈ ofCall n callee kind) ↔
      kind = .function ∧ callee.note.functionType = none := by
  unfold ofCall SiteKind.ofCall
  cases kind with
  | conversion => simp
  | construction => simp
  | function =>
    cases hf : callee.note.functionType with
    | none => simp
    | some f => cases hd : callee.note.calledDirectly <;> cases f <;> simp

/-- **The errors of an expression** are its faults. -/
theorem error_mem_ofOccurrence {e : Expr} {o : Occurrence} (ho : e.occurrence? = some o) :
    (∃ err, .error (.error err) ∈ r.ofOccurrence n o) ↔ r.MalformedExpr e := by
  -- A name or a member has the faults of its reference only.
  have hnamed : ∀ (note : Note) (ref : Reference), e.ref? = some ref → e.note = note →
      (∀ note callee args, e ≠ .call note callee args .function) →
      ((∃ err, .error (.error err) ∈ r.ofNamed n note ref) ↔ r.MalformedExpr e) := by
    rintro note ref href rfl hcall
    rw [error_mem_ofNamed]
    constructor
    · intro hex
      obtain ⟨id, hid, hnone | ⟨hc, hi, scope, err, hlookup, herr⟩⟩ := hex
      · exact .unknown href hid hnone
      · exact .lookup href hid hc hi hlookup herr
    · intro h
      cases h with
      | untyped => exact absurd rfl (hcall _ _ _)
      | unknown href' hid hnone =>
        cases href.symm.trans href'
        exact ⟨_, hid, .inl hnone⟩
      | lookup href' hid hc hi hlookup herr =>
        cases href.symm.trans href'
        exact ⟨_, hid, .inr ⟨hc, hi, _, _, hlookup, herr⟩⟩
  cases e with
  | identifier note ref =>
    cases ho
    exact hnamed note ref rfl rfl (by simp)
  | member note inner ref =>
    cases ho
    exact hnamed note ref rfl rfl (by simp)
  | call note callee args kind =>
    cases ho
    rw [ofOccurrence, error_mem_ofCall]
    constructor
    · rintro ⟨rfl, htype⟩
      exact .untyped htype
    · intro h
      cases h with
      | untyped htype => exact ⟨rfl, htype⟩
      | unknown href => cases href
      | lookup href => cases href
  | new note name contract =>
    cases ho
    refine iff_of_false (by cases contract <;> simp [ofOccurrence]) fun h => ?_
    cases h with
    | unknown href => cases href
    | lookup href => cases href
  | _ => cases ho

theorem error_mem_ofEmission {e : Expr} :
    (∃ err, .error (.error err) ∈ r.ofEmission e) ↔ r.MalformedEmission e := by
  unfold ofEmission
  split
  next note callee args kind =>
    cases hid : callee.declaration with
    | none => exact iff_of_true ⟨_, List.mem_singleton_self _⟩ (.unresolved hid)
    | some id =>
      cases hd : r.tree.find? id with
      | none => exact iff_of_true (by simp [hd]) (.unknown hid hd)
      | some d =>
        cases d with
        | event event =>
          refine iff_of_false (by simp [hd]) fun h => ?_
          cases h with
          | noCall hne => exact hne _ _ _ _ rfl
          | unresolved hnone => cases hid.symm.trans hnone
          | unknown hid' hnone =>
            cases hid.symm.trans hid'
            cases hd.symm.trans hnone
          | noEvent hid' hd' hnone =>
            cases hid.symm.trans hid'
            cases hd.symm.trans hd'
            cases hnone
        | _ => exact iff_of_true (by simp [hd]) (.noEvent hid hd rfl)
  next hne =>
    exact iff_of_true ⟨_, List.mem_singleton_self _⟩ (.noCall hne)

theorem error_mem_ofPlaceholder {function target : DeclId} :
    (∃ err, .error (.error err) ∈ r.ofPlaceholder function target) ↔
      r.tree.modifier? target = none := by
  unfold ofPlaceholder
  cases hm : r.tree.requireModifier target with
  | error e =>
    refine iff_of_true ⟨_, List.mem_singleton_self _⟩ ?_
    rw [Option.eq_none_iff_forall_ne_some]
    intro m h
    rw [Tree.requireModifier, Tree.require_eq_ok.2 h] at hm
    cases hm
  | ok m =>
    have hsome : r.tree.modifier? target = some m := Tree.require_eq_ok.1 hm
    refine iff_of_false ?_ (by simp [hsome])
    cases hp : m.hasPlaceholder <;> simp [hp]

/-- **The errors of an invocation** in the head of a function are its faults. -/
theorem error_mem_ofInvocation {i : Invocation} {function : DeclId} :
    (∃ err, .error (.error err) ∈ r.ofInvocation (.callable function) i) ↔
      r.MalformedInvocation i := by
  unfold ofInvocation
  cases hid : i.ref.declaration with
  | none => exact iff_of_true ⟨_, List.mem_singleton_self _⟩ (.unresolved hid)
  | some id =>
    cases hd : r.tree.find? id with
    | none => exact iff_of_true (by simp [hd]) (.unknown hid hd)
    | some d =>
      -- What is named is known, so a fault is one of its kind or of its lookup.
      have hcases : r.MalformedInvocation i → (d.modifier? = none ∧ d.contract? = none) ∨
          (d.modifier?.isSome = true ∧ ((∃ err, r.resolve id i.ref.lookup = .error err) ∨
            ∃ target, r.resolve id i.ref.lookup = .ok target ∧ r.tree.modifier? target = none)) := by
        intro h
        cases h with
        | unresolved hnone => cases hid.symm.trans hnone
        | unknown hid' hnone =>
          cases hid.symm.trans hid'
          cases hd.symm.trans hnone
        | otherKind hid' hd' hm hc =>
          cases hid.symm.trans hid'
          cases hd.symm.trans hd'
          exact .inl ⟨hm, hc⟩
        | lookup hid' hm herr =>
          cases hid.symm.trans hid'
          rw [Tree.modifier?, hd] at hm
          exact .inr ⟨hm, .inl ⟨_, herr⟩⟩
        | noModifier hid' hm hok hnone =>
          cases hid.symm.trans hid'
          rw [Tree.modifier?, hd] at hm
          exact .inr ⟨hm, .inr ⟨_, hok, hnone⟩⟩
      cases d with
      | contract c =>
        refine iff_of_false (by simp [hd]) fun h => ?_
        rcases hcases h with ⟨_, hc⟩ | ⟨hm, _⟩
        · cases hc
        · cases hm
      | modifier m =>
        have hmodifier : (r.tree.modifier? id).isSome = true := by
          rw [Tree.modifier?, hd]
          rfl
        cases hres : r.resolve id i.ref.lookup with
        | error e =>
          exact iff_of_true (by simp [hd, Node.callable?, hres]) (.lookup hid hmodifier hres)
        | ok target =>
          have hplaceholder : (∃ err, .error (.error err) ∈ r.ofPlaceholder function target) ↔
              r.tree.modifier? target = none := error_mem_ofPlaceholder
          simp only [hd, Node.callable?, List.mem_cons, reduceCtorEq, false_or, hres, hplaceholder]
          refine ⟨fun hnone => .noModifier hid hmodifier hres hnone, fun h => ?_⟩
          rcases hcases h with ⟨hm, _⟩ | ⟨_, ⟨err, herr⟩ | ⟨target', hok, hnone⟩⟩
          · cases hm
          · cases hres.symm.trans herr
          · cases hres.symm.trans hok
            exact hnone
      | _ => exact iff_of_true (by simp [hd]) (.otherKind hid hd rfl rfl)

/-! ### Errors of code -/

theorem says_error {root : Expr → Prop} :
    (∃ err, r.Says root n (.error (.error err))) ↔ r.MalformedCode root := by
  constructor
  · intro hex
    obtain ⟨err, e, o, he, ho, hf⟩ := hex
    exact ⟨e, he, (error_mem_ofOccurrence ho).1 ⟨err, hf⟩⟩
  · intro hex
    obtain ⟨e, he, hmalformed⟩ := hex
    have hoccurrence : ∃ o, e.occurrence? = some o := by
      cases hmalformed with
      | untyped => exact ⟨_, rfl⟩
      | unknown href => cases e <;> first | exact ⟨_, rfl⟩ | cases href
      | lookup href => cases e <;> first | exact ⟨_, rfl⟩ | cases href
    obtain ⟨o, ho⟩ := hoccurrence
    obtain ⟨err, hf⟩ := (error_mem_ofOccurrence (n := n) ho).2 hmalformed
    exact ⟨err, e, o, he, ho, hf⟩

/-- **A callable tells an error** exactly if its code is malformed. -/
theorem error_mem_code {id : DeclId} {c : Callable} (hc : r.tree.callable? id = some c) :
    (∃ err, .error (.error err) ∈ r.code id) ↔ r.Malformed c := by
  have hinvocation : ∀ i, r.MalformedInvocation i ↔
      ∃ err, .error (.error err) ∈ r.ofInvocation (.callable id) i :=
    fun i => error_mem_ofInvocation.symm
  rw [Malformed, ← says_error (n := .callable id)]
  simp only [mem_code (error_ne_endless _) hc, ← error_mem_ofEmission, hinvocation]
  constructor
  · intro hex
    obtain ⟨err, h | ⟨e, he, h⟩ | ⟨i, hi, h⟩⟩ := hex
    · exact .inl ⟨err, h⟩
    · exact .inr (.inl ⟨e, he, err, h⟩)
    · exact .inr (.inr ⟨i, hi, err, h⟩)
  · intro hor
    rcases hor with ⟨err, h⟩ | ⟨e, he, err, h⟩ | ⟨i, hi, err, h⟩
    · exact ⟨err, .inl h⟩
    · exact ⟨err, .inr (.inl ⟨e, he, h⟩)⟩
    · exact ⟨err, .inr (.inr ⟨i, hi, h⟩)⟩

/-- **The start of a construction tells an error** exactly if its code is malformed. -/
theorem error_mem_creationSeeds (hfits : r.Fits) :
    (∃ err, .error (.error err) ∈ r.creationSeeds) ↔ r.MalformedCode r.ConstructionRoot := by
  rw [MalformedCode, exists_code_constructionRoot]
  simp only [mem_creationSeeds (error_ne_endless _) hfits]
  constructor
  · intro hex
    obtain ⟨err, b, hb, h | ⟨k, _, hsite⟩ | h⟩ := hex
    · exact ⟨b, hb, .inl (says_error.1 ⟨err, h⟩)⟩
    · cases hsite
    · exact ⟨b, hb, .inr (says_error.1 ⟨err, h⟩)⟩
  · intro hex
    obtain ⟨b, hb, h | h⟩ := hex
    · obtain ⟨err, h⟩ := says_error.2 h
      exact ⟨err, b, hb, .inl h⟩
    · obtain ⟨err, h⟩ := says_error.2 h
      exact ⟨err, b, hb, .inr (.inr h)⟩

theorem error_not_mem_entrySites {e : Failure} : .error e ∉ Build.entrySites r := by
  intro hf
  obtain ⟨k, _, hsite⟩ := List.mem_map.1 hf
  cases hsite

end Resolver

end ContractCalls
