import ContractCalls.CallSite
import ContractCalls.Occurrence
import ContractCalls.Resolver

/-!
# What code means for a graph

A `Finding` is one thing that the code of a node tells a call graph: a call site, an
event that is emitted, a contract that is created, or an error.

Constants are no variables: naming one means its initializer, wherever it is named.
`Tree.inlined` puts the occurrences of the initializer in the place of the name, and
`Resolver.findings` reads the findings off the occurrences that are left.

A builder reads an initializer as often as it comes to the name of its constant, also while
it is reading this very initializer.  Then it meets what it has met before, comes to the
name once more, and goes around for ever.  `Tree.inlined` stops at such a name and leaves
it, `Tree.again?` recognizes it, and what it tells is the failure `Failure.endless`.
-/

namespace ContractCalls

/-- What code tells a call graph. -/
inductive Finding where
  | site (site : CallSite)
  | emits (event : DeclId)
  | creates (contract : DeclId)
  /-- The code is not fit for a graph. -/
  | error (e : Failure)
  deriving DecidableEq

/-! ### Constants -/

namespace Occurrence

/-- The declaration that an identifier or a member names. -/
def named? : Occurrence → Option DeclId
  | .identifier _ ref => ref.declaration
  | .member _ ref => ref.declaration
  | _ => none

end Occurrence

namespace Tree

/-- The initializer of the constant that an id names. -/
def constantValue? (t : Tree) (id : DeclId) : Option Expr :=
  (t.var? id).bind fun v => if v.isConstant then v.value else none

theorem declares_of_constantValue? {t : Tree} {id : DeclId} {e : Expr}
    (h : t.constantValue? id = some e) : t.declares id = true := by
  obtain ⟨v, hv, _⟩ := Option.bind_eq_some_iff.1 h
  exact declares_of_var? hv

/-- The occurrences, with those of its initializer in the place of each constant.  The
constants in `opened` are being read already, and reading one of them again would never end:
their names stay. -/
def inlinedIn (t : Tree) (opened : IdSet) : List Occurrence → List Occurrence
  | [] => []
  | o :: rest =>
    match o.named? with
    | none => o :: inlinedIn t opened rest
    | some id =>
      if _hopen : opened.contains id then o :: inlinedIn t opened rest
      else
        match _hv : t.constantValue? id with
        | none => o :: inlinedIn t opened rest
        | some value =>
          inlinedIn t (opened.insert id) value.occurrences ++ inlinedIn t opened rest
termination_by os => (t.remaining opened.contains, os.length)
decreasing_by
  · exact Prod.Lex.right _ (by simp)
  · exact Prod.Lex.right _ (by simp)
  · exact Prod.Lex.right _ (by simp)
  · refine Prod.Lex.left _ _
      (remaining_lt (fun _ h => ?_) (declares_of_constantValue? _hv) ?_ ?_)
    · simpa using Or.inr h
    · exact eq_false_of_ne_true _hopen
    · simp
  · exact Prod.Lex.right _ (by simp)

def inlined (t : Tree) (os : List Occurrence) : List Occurrence := t.inlinedIn ∅ os

/-- The constant with an initializer that an occurrence names.  Of those that `inlined` leaves,
only a name inside of the initializer of its own constant has one. -/
def again? (t : Tree) (o : Occurrence) : Option DeclId :=
  o.named?.filter fun id => (t.constantValue? id).isSome

theorem again?_eq_some {t : Tree} {o : Occurrence} {id : DeclId} :
    t.again? o = some id ↔ o.named? = some id ∧ (t.constantValue? id).isSome = true := by
  simp [again?, Option.filter_eq_some_iff]

theorem again?_eq_none {t : Tree} {o : Occurrence} :
    t.again? o = none ↔ ∀ id, o.named? = some id → t.constantValue? id = none := by
  simp [again?, Option.filter_eq_none_iff]

end Tree

/-! ### Findings -/

namespace Resolver

/-- What naming a declaration tells.  Only the name of a callable that has an internal
function type is a call site. -/
def ofNamed (r : Resolver) (caller : Node) (note : Note) (ref : Reference) : List Finding :=
  match ref.declaration with
  | none => []
  | some id =>
    match r.tree.find? id with
    | none => [.error (Error.notFound id)]
    | some d =>
      if d.callable?.isSome && note.isInternal then
        match r.resolve id ref.lookup with
        | .error e => [.error e]
        | .ok target =>
          [.site ⟨caller, .ofReference note.calledDirectly, .callable id target⟩]
      else []

/-- What a call tells, apart from what its callee tells: a call through a pointer is a
call site. -/
def ofCall (caller : Node) (callee : Expr) (kind : CallKind) : List Finding :=
  match SiteKind.ofCall callee.note kind with
  | .error e => [.error e]
  | .ok (some .indirect) => [.site ⟨caller, .indirect, .internalDispatch⟩]
  | .ok _ => []

/-- What an `emit` tells: the event, if it is one. -/
def ofEmission (r : Resolver) : Expr → List Finding
  | .call _ callee _ _ =>
    match callee.declaration with
    | none => [.error (Error.inconsistent .unresolvedEvent)]
    | some id =>
      match r.tree.find? id with
      | none => [.error (Error.notFound id)]
      | some (.event _) => [.emits id]
      | some d => [.error (Error.inconsistent (.emitOf d.kind id))]
  | _ => [.error (Error.inconsistent .emitWithoutCall)]

/-- What attaching the modifier `target` to `function` tells besides the attachment: the
modifier goes on into the function if it has a placeholder. -/
def ofPlaceholder (r : Resolver) (function target : DeclId) : List Finding :=
  match r.tree.requireModifier target with
  | .error e => [.error e]
  | .ok m =>
    if m.hasPlaceholder then
      [.site ⟨.callable target, .placeholder, .exact function⟩]
    else []

/-- What an invocation tells.  The constructor of a base is called by its own contract,
so naming it tells nothing. -/
def ofInvocation (r : Resolver) (caller : Node) (i : Invocation) : List Finding :=
  match i.ref.declaration with
  | none => [.error (Error.inconsistent (.unresolvedModifier i.ref.name))]
  | some id =>
    match r.tree.find? id with
    | none => [.error (Error.notFound id)]
    | some (.contract _) => []
    | some (.modifier _) =>
      match caller.callable? with
      | none => [.error (Error.inconsistent (.modifierOutsideFunction i.ref.name))]
      | some function =>
        match r.resolve id i.ref.lookup with
        | .error e => [.error e]
        | .ok target =>
          .site ⟨caller, .modifier, .callable id target⟩ :: r.ofPlaceholder function target
    | some _ => [.error (Error.unexpected id (.kind .modifier))]

/-- What an occurrence in the code of `caller` tells. -/
def ofOccurrence (r : Resolver) (caller : Node) : Occurrence → List Finding
  | .call callee _ kind => ofCall caller callee kind
  | .identifier note ref => r.ofNamed caller note ref
  | .member note ref => r.ofNamed caller note ref
  | .creation _ contract => contract.toList.map .creates
  | .emission event => r.ofEmission event
  | .placeholder => []
  | .invocation i => r.ofInvocation caller i

/-- What an occurrence tells that `inlined` leaves. -/
def ofInlined (r : Resolver) (caller : Node) (o : Occurrence) : List Finding :=
  match r.tree.again? o with
  | some id => [.error (.endless id)]
  | none => r.ofOccurrence caller o

theorem ofInlined_of_again?_eq_none {r : Resolver} {caller : Node} {o : Occurrence}
    (h : r.tree.again? o = none) : r.ofInlined caller o = r.ofOccurrence caller o := by
  rw [ofInlined, h]

/-- What code that is read for `caller` tells, in the order of reading. -/
def findings (r : Resolver) (caller : Node) (code : List Occurrence) : List Finding :=
  (r.tree.inlined code).flatMap (r.ofInlined caller)

end Resolver

end ContractCalls
