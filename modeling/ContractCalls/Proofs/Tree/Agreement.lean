import ContractCalls.Finding
import ContractCalls.Proofs.Computations

/-!
# Trees that agree up to code

Two trees are the same but for code if each id names declarations that are the same without their
bodies, invocations, initializers and arguments for bases (`Tree.SameButCode`).  This is all that
families depend on (`SameButCode.family_eq`).

Trees can also agree up to the code of the callables that are not kept (`Tree.Agrees`).  Contracts
and variables are the same then, and with them the constants, which is all that inlining depends on
(`inlined_congr`).
-/

namespace ContractCalls

/-- What the head of a function says that building a graph asks for. -/
def Function.head (f : Function) : DeclId × FunctionKind × Visibility :=
  (f.id, f.kind, f.visibility)

/-- The contract without the arguments for the constructors of its bases. -/
def Contract.withoutArgs (c : Contract) : Contract :=
  { c with bases := c.bases.map fun base => { base with args := [] } }

theorem Contract.withoutArgs_withoutArgs (c : Contract) :
    c.withoutArgs.withoutArgs = c.withoutArgs := by
  simp [withoutArgs]

def Variable.bare (v : Variable) : Variable := { v with value := none }

namespace Declaration

/-- The declaration without any code. -/
def bare : Declaration → Declaration
  | .contract c => .contract c.withoutArgs
  | .function f => .function { f with invocations := [], body := none }
  | .modifier m => .modifier { m with body := none }
  | .event e => .event e
  | .variable v => .variable v.bare

def withCode (invocations : List Invocation) (body : Option Block) : Declaration → Declaration
  | .function f => .function { f with invocations, body }
  | .modifier m => .modifier { m with body }
  | d => d

/-- The declaration without code. -/
def outline : Declaration → Declaration := withCode [] none

/-- What is looked at does not depend on code. -/
def Blind {α : Type} (view : Declaration → α) : Prop := ∀ d, view d.outline = view d

theorem outline_withCode (invocations : List Invocation) (body : Option Block) (d : Declaration) :
    (d.withCode invocations body).outline = d.outline := by
  cases d <;> rfl

theorem blind_contract? : Blind contract? := by
  intro d
  cases d <;> rfl

theorem blind_var? : Blind var? := by
  intro d
  cases d <;> rfl

theorem blind_kind : Blind kind := by
  intro d
  cases d <;> rfl

theorem bare_outline (d : Declaration) : d.outline.bare = d.bare := by
  cases d <;> rfl

end Declaration

namespace Tree

def withCode (t : Tree) (id : DeclId) (invocations : List Invocation) (body : Option Block) :
    Tree :=
  match t.find? id with
  | none => t
  | some d => t.replace id (d.withCode invocations body)

/-- Each id names the same in both trees, but for code. -/
def SameButCode (t t' : Tree) : Prop :=
  ∀ id, (t'.find? id).map Declaration.bare = (t.find? id).map Declaration.bare

/-- The second tree is the first one with other code in callables that are not kept. -/
structure Agrees (t t' : Tree) (kept : DeclId → Prop) : Prop where
  outline : ∀ id, (t'.find? id).map Declaration.outline = (t.find? id).map Declaration.outline
  kept : ∀ id, kept id → t'.find? id = t.find? id

theorem find?_withCode (t : Tree) (id k : DeclId) (invocations : List Invocation)
    (body : Option Block) : (t.withCode id invocations body).find? k =
      if id = k then (t.find? k).map (Declaration.withCode invocations body) else t.find? k := by
  unfold withCode
  cases hd : t.find? id with
  | none =>
    by_cases hk : id = k
    · subst hk
      simp [hd]
    · simp [hk]
  | some d =>
    rw [find?_replace]
    by_cases hk : id = k
    · subst hk
      simp [hd, declares_of_find? hd]
    · simp [hk]

theorem agrees_withCode (t : Tree) {id : DeclId} (invocations : List Invocation)
    (body : Option Block) {kept : DeclId → Prop} (hid : ¬ kept id) :
    t.Agrees (t.withCode id invocations body) kept where
  outline := by
    intro k
    rw [find?_withCode]
    by_cases hk : id = k
    · rw [if_pos hk, Option.map_map]
      cases t.find? k with
      | none => rfl
      | some d => exact congrArg some (d.outline_withCode invocations body)
    · rw [if_neg hk]
  kept := by
    rintro k hk
    have hne : id ≠ k := fun heq => hid (heq ▸ hk)
    rw [find?_withCode, if_neg hne]

/-! ### What is required -/

variable {t t' : Tree}

theorem map_require_congr {α α' β : Type} {view : Declaration → Option α}
    {view' : Declaration → Option α'} {look : α → β} {look' : α' → β} {id : DeclId}
    (h : ((t'.find? id).map fun d => (view' d).map look') =
      (t.find? id).map fun d => (view d).map look) (expected : Expectation) :
    (t'.require id expected view').map look' = (t.require id expected view).map look := by
  unfold require
  cases hd : t.find? id with
  | none =>
    rw [hd] at h
    rw [Option.map_eq_none_iff.1 h]
    rfl
  | some d =>
    rw [hd] at h
    obtain ⟨d', hd', heq⟩ := Option.map_eq_some_iff.1 h
    replace heq : (view' d').map look' = (view d).map look := heq
    simp only [hd']
    cases hv : view d with
    | none =>
      rw [hv] at heq
      rw [Option.map_eq_none_iff.1 heq]
      rfl
    | some a =>
      rw [hv] at heq
      obtain ⟨a', ha', hlook⟩ := Option.map_eq_some_iff.1 heq
      rw [ha']
      exact congrArg Except.ok hlook

/-- What is required is the same in trees that are the same after a change which what is looked at
does not depend on. -/
theorem map_require_of_map {α β : Type} {change : Declaration → Declaration} {id : DeclId}
    (h : (t'.find? id).map change = (t.find? id).map change) {view : Declaration → Option α}
    {look : α → β} (hview : ∀ d, (view (change d)).map look = (view d).map look)
    (expected : Expectation) :
    (t'.require id expected view).map look = (t.require id expected view).map look := by
  refine map_require_congr ?_ expected
  have hmap : ∀ d : Option Declaration, d.map (fun d => (view d).map look) =
      (d.map change).map fun d => (view d).map look := by
    intro d
    rw [Option.map_map]
    exact congrArg (Option.map · d) (funext fun d => (hview d).symm)
  rw [hmap, h, ← hmap]

/-! ### Overrides and constants -/

/-- A family depends on the lists of overrides only. -/
theorem collectFamily_congr (h : ∀ id, (t'.requireCallable id).map Callable.overrides =
    (t.requireCallable id).map Callable.overrides) (seen : IdSet) (stack : List DeclId) :
    t'.collectFamily seen stack = t.collectFamily seen stack := by
  fun_induction collectFamily t seen stack with
  | case1 seen => rw [collectFamily]
  | case2 seen id stack hseen ih => rw [collectFamily, dif_pos hseen, ih]
  | case3 seen id stack hseen e he =>
    have hid := h id
    rw [he] at hid
    rw [collectFamily, dif_neg hseen]
    split
    next e' he' =>
      rw [he'] at hid
      rw [Except.error.inj hid]
    next c' hc' =>
      rw [hc'] at hid
      cases hid
  | case4 seen id stack hseen c hc ih =>
    have hid := h id
    rw [hc] at hid
    rw [collectFamily, dif_neg hseen]
    split
    next e' he' =>
      rw [he'] at hid
      cases hid
    next c' hc' =>
      rw [hc'] at hid
      have hover : c'.overrides = c.overrides := Except.ok.inj hid
      rw [hover, ih]

theorem family_congr (h : ∀ id, (t'.requireCallable id).map Callable.overrides =
    (t.requireCallable id).map Callable.overrides) : t'.family = t.family :=
  funext fun id => collectFamily_congr h ∅ [id]

theorem inlinedIn_cons (t : Tree) (opened : IdSet) (o : Occurrence) (rest : List Occurrence) :
    t.inlinedIn opened (o :: rest) =
      (match o.named? with
        | none => [o]
        | some id =>
          if opened.contains id then [o]
          else
            match t.constantValue? id with
            | none => [o]
            | some value => t.inlinedIn (opened.insert id) value.occurrences) ++
        t.inlinedIn opened rest := by
  rw [inlinedIn]
  split
  · simp [*]
  · split
    · simp [*]
    · split <;> simp [*]

/-- What an occurrence is replaced by does not depend on those beside it. -/
theorem inlined_eq_flatMap (t : Tree) (os : List Occurrence) :
    t.inlined os = os.flatMap fun o => t.inlined [o] := by
  induction os with
  | nil => rw [inlined, inlinedIn, List.flatMap_nil]
  | cons o rest ih =>
    have hcons : t.inlined (o :: rest) = t.inlined [o] ++ t.inlined rest := by
      rw [inlined, inlined, inlinedIn_cons, inlinedIn_cons t ∅ o [], inlinedIn, List.append_nil]
      rfl
    rw [hcons, ih, List.flatMap_cons]

/-- Constants are inlined alike where they have the same values, as long as no name that is left
becomes one of a constant. -/
theorem inlinedIn_eq (hsome : ∀ id v, t.constantValue? id = some v → t'.constantValue? id = some v)
    {opened : IdSet} {os : List Occurrence}
    (hnone : ∀ o ∈ t.inlinedIn opened os, ∀ id, o.named? = some id →
      t.constantValue? id = none → t'.constantValue? id = none) :
    t'.inlinedIn opened os = t.inlinedIn opened os := by
  fun_induction inlinedIn t opened os with
  | case1 => rw [inlinedIn]
  | case2 opened o rest hnamed ih =>
    rw [inlinedIn_cons, hnamed, ih fun o' ho' => hnone o' (List.mem_cons_of_mem o ho')]
    rfl
  | case3 opened o rest id hnamed hopen ih =>
    replace ih := ih fun o' ho' => hnone o' (List.mem_cons_of_mem o ho')
    simp only [inlinedIn_cons, hnamed, ih, hopen, if_true, List.singleton_append]
  | case4 opened o rest id hnamed hopen hvalue ih =>
    replace ih := ih fun o' ho' => hnone o' (List.mem_cons_of_mem o ho')
    replace hvalue := hnone o List.mem_cons_self id hnamed hvalue
    simp only [inlinedIn_cons, hnamed, ih, hopen, hvalue, Bool.false_eq_true,
      if_false, List.singleton_append]
  | case5 opened o rest id hnamed hopen value hvalue ihvalue ih =>
    replace ih := ih fun o' ho' => hnone o' (List.mem_append_right _ ho')
    replace ihvalue := ihvalue fun o' ho' => hnone o' (List.mem_append_left _ ho')
    replace hvalue := hsome id value hvalue
    simp only [inlinedIn_cons, hnamed, ihvalue, ih, hopen, hvalue, Bool.false_eq_true,
      if_false]

theorem inlined_congr (h : ∀ id, t'.constantValue? id = t.constantValue? id)
    (os : List Occurrence) : t'.inlined os = t.inlined os :=
  inlinedIn_eq (fun id _ hv => (h id).trans hv) fun _ _ id _ hv => (h id).trans hv

/-! ### Trees that are the same but for code -/

namespace SameButCode

variable {α β : Type}

/-- What does not depend on code is seen in both trees. -/
theorem map_find? (h : t.SameButCode t') {view : Declaration → β}
    (hview : ∀ d, view d.bare = view d) (id : DeclId) :
    (t'.find? id).map view = (t.find? id).map view := by
  have hmap : ∀ d : Option Declaration, d.map view = (d.map Declaration.bare).map view := by
    intro d
    rw [Option.map_map]
    exact congrArg (Option.map · d) (funext fun d => (hview d).symm)
  rw [hmap, h id, ← hmap]

theorem map_require (h : t.SameButCode t') {view : Declaration → Option α} {look : α → β}
    (hview : ∀ d, (view d.bare).map look = (view d).map look) (id : DeclId)
    (expected : Expectation) :
    (t'.require id expected view).map look = (t.require id expected view).map look :=
  map_require_of_map (h id) hview expected

theorem map_requireContract (h : t.SameButCode t') (id : DeclId) :
    (t'.requireContract id).map Contract.withoutArgs =
      (t.requireContract id).map Contract.withoutArgs := by
  refine h.map_require (fun d => ?_) id _
  cases d with
  | contract c => exact congrArg some c.withoutArgs_withoutArgs
  | _ => rfl

theorem map_requireVariable (h : t.SameButCode t') (id : DeclId) :
    (t'.requireVariable id).map Variable.bare = (t.requireVariable id).map Variable.bare := by
  refine h.map_require (fun d => ?_) id _
  cases d <;> rfl

theorem map_requireCallable (h : t.SameButCode t') (id : DeclId) :
    (t'.requireCallable id).map Callable.overrides =
      (t.requireCallable id).map Callable.overrides := by
  refine h.map_require (fun d => ?_) id _
  cases d <;> rfl

theorem family_eq (h : t.SameButCode t') : t'.family = t.family :=
  family_congr h.map_requireCallable

end SameButCode

/-! ### Trees that agree -/

namespace Agrees

variable {t t' : Tree} {kept : DeclId → Prop} {α β : Type}

/-- An id names nothing in both trees, or what looks the same without code. -/
theorem cases (h : t.Agrees t' kept) (id : DeclId) : (t.find? id = none ∧ t'.find? id = none) ∨
    ∃ d d', t.find? id = some d ∧ t'.find? id = some d' ∧
      ∀ {α : Type} {view : Declaration → α}, Declaration.Blind view → view d' = view d := by
  have houtline := h.outline id
  cases hd : t.find? id with
  | none =>
    rw [hd] at houtline
    exact .inl ⟨rfl, Option.map_eq_none_iff.1 houtline⟩
  | some d =>
    rw [hd] at houtline
    obtain ⟨d', hd', heq⟩ := Option.map_eq_some_iff.1 houtline
    refine .inr ⟨d, d', rfl, hd', fun {α view} hview => ?_⟩
    rw [← hview d', heq, hview d]

theorem bind_view (h : t.Agrees t' kept) {view : Declaration → Option α}
    (hview : Declaration.Blind view) (id : DeclId) :
    (t'.find? id).bind view = (t.find? id).bind view := by
  rcases h.cases id with ⟨hd, hd'⟩ | ⟨d, d', hd, hd', hsame⟩
  · rw [hd, hd']
  · rw [hd, hd', Option.bind_some, Option.bind_some, hsame hview]

/-- What is required is the same, as far as it does not depend on code. -/
theorem map_require (h : t.Agrees t' kept) {view : Declaration → Option α} {look : α → β}
    (hview : Declaration.Blind fun d => (view d).map look) (id : DeclId) (expected : Expectation) :
    (t'.require id expected view).map look = (t.require id expected view).map look :=
  map_require_of_map (h.outline id) hview expected

theorem require_eq (h : t.Agrees t' kept) {view : Declaration → Option α}
    (hview : Declaration.Blind view) (k : DeclId) (expected : Expectation) :
    t'.require k expected view = t.require k expected view := by
  have hid : Declaration.Blind fun d => (view d).map id := by
    intro d
    exact congrArg (Option.map id) (hview d)
  have hmap := h.map_require hid k expected
  rwa [Except.map_id] at hmap

/-- What is required of a callable that is kept is the same, code and all. -/
theorem require_kept (h : t.Agrees t' kept) {id : DeclId} (hid : kept id) (expected : Expectation)
    (view : Declaration → Option α) : t'.require id expected view = t.require id expected view := by
  rw [require, require, h.kept id hid]

theorem requireContract_eq (h : t.Agrees t' kept) : t'.requireContract = t.requireContract :=
  funext fun id => h.require_eq Declaration.blind_contract? id _

theorem requireVariable_eq (h : t.Agrees t' kept) : t'.requireVariable = t.requireVariable :=
  funext fun id => h.require_eq Declaration.blind_var? id _

theorem sameButCode (h : t.Agrees t' kept) : t.SameButCode t' := by
  have hbare : ∀ d : Option Declaration,
      d.map Declaration.bare = (d.map Declaration.outline).map Declaration.bare := by
    intro d
    rw [Option.map_map]
    exact congrArg (Option.map · d) (funext fun d => d.bare_outline.symm)
  intro id
  rw [hbare, h.outline id, ← hbare]

theorem constantValue?_eq (h : t.Agrees t' kept) (id : DeclId) :
    t'.constantValue? id = t.constantValue? id := by
  rw [constantValue?, constantValue?, var?, var?, h.bind_view Declaration.blind_var? id]

end Agrees
end Tree
end ContractCalls
