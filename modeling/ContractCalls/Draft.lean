import ContractCalls.Inheritance.Linearization

/-!
# Writing a program

A program is written in steps.  A `Step` adds one declaration, or gives one that
exists its body or its initializer.  A `Draft` is what has been written so far, with
the first error that was made: `Draft.write` takes one step, `Draft.writeAll` takes
many, and `Draft.finish` hands out the tree, in which every contract has the order
of its bases.

A declaring step always adds its declaration and answers the next id, even when the
contract that the declaration is meant for is none.  The draft is then spoilt for
good: `finish` answers the first error.
-/

namespace ContractCalls

/-- The body that a step gives to a callable. -/
inductive BodySpec where
  /-- The body a callable has when nothing is said. -/
  | usual
  | absent
  | written (body : Block)

namespace BodySpec

/-- The body meant, where `usual` is the one a callable has when nothing is said. -/
def toOption (usualBody : Block) : BodySpec → Option Block
  | usual => some usualBody
  | absent => none
  | written body => some body

end BodySpec

/-- An invocation in the head of a function, before its name is known. -/
inductive InvocationSpec where
  /-- The modifier with this id, looked up virtually. -/
  | modifier (id : DeclId) (args : List Expr)
  /-- The constructor of the base with this id. -/
  | base (id : DeclId) (args : List Expr)
  | written (i : Invocation)

/-- What a step says about a function. -/
structure FunctionSpec where
  scope : Option DeclId
  /-- The name; only plain functions have one. -/
  name : String
  kind : FunctionKind
  /-- The visibility, unless it is the usual one. -/
  visibility : Option Visibility
  isVirtual : Bool
  overrides : List DeclId
  params : List Param
  invocations : List InvocationSpec
  body : BodySpec

structure ModifierSpec where
  scope : DeclId
  name : String
  isVirtual : Bool
  overrides : List DeclId
  params : List Param
  body : BodySpec

structure VariableSpec where
  scope : Option DeclId
  name : String
  typeName : String
  isPublic : Bool
  /-- The variable is a constant; one outside of contracts always is. -/
  isConstant : Bool
  isImmutable : Bool
  overrides : List DeclId
  value : Option Expr

/-- One step of writing. -/
inductive Step where
  | contract (name : String) (kind : ContractKind) (isAbstract : Bool) (bases : List Base)
  | function (spec : FunctionSpec)
  | modifier (spec : ModifierSpec)
  | event (scope : Option DeclId) (name : String) (params : List Param)
  | variable (spec : VariableSpec)
  | setBody (id : DeclId) (body : Block)
  | setValue (id : DeclId) (value : Expr)

namespace FunctionSpec

def usualVisibility (spec : FunctionSpec) : Visibility :=
  match spec.kind with
  | .fallback | .receive => .external
  | .constructor => .public
  | .function => if spec.scope.isSome then .public else .internal

/-- The function meant, as the declaration `id` and without its invocations. -/
def toFunction (spec : FunctionSpec) (id : DeclId) : Function where
  id := id
  name := if spec.kind = .function then spec.name else ""
  scope := spec.scope
  kind := spec.kind
  visibility := spec.visibility.getD spec.usualVisibility
  isVirtual := spec.isVirtual
  overrides := spec.overrides
  params := spec.params
  invocations := []
  body := spec.body.toOption []

end FunctionSpec

namespace ModifierSpec

def toModifier (spec : ModifierSpec) (id : DeclId) : Modifier where
  id := id
  name := spec.name
  scope := spec.scope
  isVirtual := spec.isVirtual
  overrides := spec.overrides
  params := spec.params
  body := spec.body.toOption [.placeholder]

end ModifierSpec

namespace VariableSpec

def toVariable (spec : VariableSpec) (id : DeclId) : Variable where
  id := id
  name := spec.name
  scope := spec.scope
  typeName := spec.typeName
  visibility := if spec.isPublic then .public else .internal
  isConstant := spec.isConstant || spec.scope.isNone
  isImmutable := spec.isImmutable
  overrides := spec.overrides
  value := spec.value

end VariableSpec

/-- A program while it is written. -/
structure Draft where
  /-- What is written so far; no contract has its order yet. -/
  tree : Tree := {}
  /-- The first error made. -/
  error : Option Error := none

namespace Draft

/-- The id of the declaration that is added next. -/
def nextId (d : Draft) : DeclId := .ofNat d.tree.size

/-- Notes an error, unless there is one already. -/
def fail (d : Draft) (e : Error) : Draft := { d with error := some (d.error.getD e) }

/-- Changes the contract `id`, and fails if `id` names none. -/
def attach (d : Draft) (id : DeclId) (change : Contract → Contract) : Draft :=
  match d.tree.contract? id with
  | none => d.fail (.unexpected id (.kind .contract))
  | some c => { d with tree := d.tree.replace id (.contract (change c)) }

/-- Changes the contract that a declaration is meant for, if there is one. -/
def attachTo (d : Draft) (scope : Option DeclId) (change : Contract → Contract) : Draft :=
  match scope with
  | none => d
  | some id => d.attach id change

def push (d : Draft) (declaration : Declaration) : Draft :=
  { d with tree := d.tree.push declaration }

/-- Adds a contract, and lists it. -/
def pushContract (d : Draft) (c : Contract) : Draft :=
  { d with tree := (d.tree.listContract c.id).push (.contract c) }

/-- The name of the declaration `id`, empty if there is none. -/
def nameOf (d : Draft) (id : DeclId) : String := ((d.tree.find? id).map Declaration.name).getD ""

/-- The invocation meant, named as its declaration is named now. -/
def invocation (d : Draft) : InvocationSpec → Invocation
  | .modifier id args => ⟨⟨d.nameOf id, some id, .virtual⟩, args⟩
  | .base id args => ⟨⟨d.nameOf id, some id, .static⟩, args⟩
  | .written i => i

/-- Adds a function.  Its invocations are named when it is there already. -/
def writeFunction (d : Draft) (spec : FunctionSpec) : Draft :=
  let f := spec.toFunction d.nextId
  let d := d.attachTo spec.scope fun c => { c with functions := c.functions ++ [f.id] }
  let named := d.push (.function f)
  d.push (.function { f with invocations := spec.invocations.map named.invocation })

def setBody (d : Draft) (id : DeclId) (body : Block) : Draft :=
  match d.tree.find? id with
  | none => d.fail (.notFound id)
  | some (.function f) =>
    { d with tree := d.tree.replace id (.function { f with body := some body }) }
  | some (.modifier m) =>
    { d with tree := d.tree.replace id (.modifier { m with body := some body }) }
  | some _ => d.fail (.unexpected id .callable)

def setValue (d : Draft) (id : DeclId) (value : Expr) : Draft :=
  match d.tree.find? id with
  | none => d.fail (.notFound id)
  | some (.variable v) =>
    { d with tree := d.tree.replace id (.variable { v with value := some value }) }
  | some _ => d.fail (.unexpected id (.kind .variable))

/-- Takes a step, and answers the id of the declaration it adds, if it adds one. -/
def write (d : Draft) : Step → Draft × Option DeclId
  | .contract name kind isAbstract bases =>
    (d.pushContract
      { id := d.nextId, name, kind, isAbstract, bases, linearized := [],
        functions := [], modifiers := [], events := [], stateVariables := [] },
      some d.nextId)
  | .function spec => (d.writeFunction spec, some d.nextId)
  | .modifier spec =>
    let m := spec.toModifier d.nextId
    ((d.attach spec.scope fun c => { c with modifiers := c.modifiers ++ [m.id] }).push
      (.modifier m), some d.nextId)
  | .event scope name params =>
    let e : Event := ⟨d.nextId, name, scope, params⟩
    ((d.attachTo scope fun c => { c with events := c.events ++ [e.id] }).push (.event e),
      some d.nextId)
  | .variable spec =>
    let v := spec.toVariable d.nextId
    ((d.attachTo spec.scope fun c =>
      { c with stateVariables := c.stateVariables ++ [v.id] }).push (.variable v),
      some d.nextId)
  | .setBody id body => (d.setBody id body, none)
  | .setValue id value => (d.setValue id value, none)

def writeAll (d : Draft) : List Step → Draft × List (Option DeclId)
  | [] => (d, [])
  | step :: rest =>
    let (d, id) := d.write step
    let (d, ids) := d.writeAll rest
    (d, id :: ids)

def finish (d : Draft) : Except Error Tree :=
  match d.error with
  | some e => .error e
  | none => d.tree.linearize

end Draft

namespace Tree

/-- The tree that the steps write, or the first error. -/
def ofSteps (steps : List Step) : Except Error Tree :=
  (Draft.writeAll {} steps).1.finish

end Tree

end ContractCalls
