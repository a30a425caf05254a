import ContractCalls.Overrides

/-!
# Resolving references

A contract is compiled together with all its bases, so a reference made in its code
leads to exactly one callable.  A `Resolver` knows where:

* a virtual reference leads to the first callable of the linearization whose family
  holds the callable named (`resolveVirtual`);
* a `super` reference leads to the first such callable of the contracts after the one
  it is written in (`resolveSuper`).

It also knows what the outside can call: the public and external functions that
nothing overrides (`interfaceFunctions`), the fallback and the receive function.  The
getter of a public state variable takes the place of the functions it overrides.
-/

namespace ContractCalls

/-- How the references of one contract are resolved. -/
structure Resolver where
  tree : Tree
  contract : Contract
  /-- The contract and its bases, most derived first. -/
  linearization : List Contract
  /-- The family of every callable of these contracts. -/
  families : IdMap IdSet
  /-- The callable that a virtual reference leads to. -/
  table : IdMap DeclId
  /-- The functions whose place is taken by the getter of a state variable. -/
  getterOverrides : IdSet

namespace Resolver

/-- The families of the callables `ids`, each with its callable. -/
def familiesOf (t : Tree) (ids : List DeclId) : Except Error (List (DeclId × IdSet)) :=
  ids.mapM fun id => do .ok (id, ← t.family id)

/-- The table in which `id` stands for the members of its family that have no entry. -/
def enter (table : IdMap DeclId) (id : DeclId) (family : IdSet) : IdMap DeclId :=
  family.toList.foldl (fun table member => table.insertIfNew member id) table

/-- The table in which each id leads to the first callable whose family holds it. -/
def tableOf (families : List (DeclId × IdSet)) : IdMap DeclId :=
  families.foldl (fun table entry => enter table entry.1 entry.2) ∅

def getterOverridesOf (t : Tree) (id : DeclId) : Except Error IdSet := do
  let v ← t.requireVariable id
  if v.visibility.isExternallyVisible then
    let families ← v.overrides.mapM t.family
    .ok (families.foldl Std.ExtTreeSet.union ∅)
  else .ok ∅

/-- The resolver of a contract.  It fails when an id that is reached through overrides
names no callable. -/
def ofContract (t : Tree) (c : Contract) : Except Error Resolver := do
  let bases ← c.linearized.mapM t.requireContract
  let linearization := if bases.isEmpty then [c] else bases
  let families ← familiesOf t (linearization.flatMap Contract.callables)
  let getters ← (linearization.flatMap Contract.stateVariables).mapM (getterOverridesOf t)
  .ok
    { tree := t
      contract := c
      linearization
      families := .ofList families
      table := tableOf families
      getterOverrides := getters.foldl Std.ExtTreeSet.union ∅ }

/-! ### References -/

/-- Where a virtual reference to `id` leads.  What is no part of the hierarchy stands
for itself. -/
def resolveVirtual (r : Resolver) (id : DeclId) : DeclId := r.table[id]?.getD id

/-- A virtual reference to `id` leads elsewhere. -/
def isOverridden (r : Resolver) (id : DeclId) : Bool := r.resolveVirtual id != id

/-- The callable `candidate` is `id` or overrides it. -/
def implements (r : Resolver) (id candidate : DeclId) : Bool :=
  (r.families[candidate]?).any (·.contains id)

/-- The contracts after `scope` in the linearization, if it is there. -/
def after? (r : Resolver) (scope : DeclId) : Option (List Contract) :=
  match r.linearization.dropWhile (·.id != scope) with
  | [] => none
  | _ :: rest => some rest

/-- Where a `super` reference to `id`, written in the contract `scope`, leads. -/
def resolveSuper (r : Resolver) (id scope : DeclId) : Except Error DeclId :=
  match r.after? scope with
  | none => .error (.inconsistent (.superOutsideBases scope r.contract.name))
  | some rest =>
    match (rest.flatMap Contract.callables).find? (r.implements id) with
    | none => .error (.inconsistent (.noImplementation id scope r.contract.name))
    | some target => .ok target

def resolve (r : Resolver) (id : DeclId) : Lookup → Except Error DeclId
  | .virtual => .ok (r.resolveVirtual id)
  | .static => .ok id
  | .super scope => r.resolveSuper id scope

/-! ### Entry points -/

/-- The functions of all contracts of the hierarchy, most derived first. -/
def functions (r : Resolver) : List Function := r.linearization.flatMap r.tree.functionsOf

/-- The outside can call the function by its name. -/
def isInterface (r : Resolver) (f : Function) : Bool :=
  f.kind == .function && f.visibility.isExternallyVisible && !r.isOverridden f.id &&
    !r.getterOverrides.contains f.id

def interfaceFunctions (r : Resolver) : List Function := r.functions.filter r.isInterface

/-- The most derived fallback function. -/
def fallback? (r : Resolver) : Option Function := r.functions.find? (·.kind == .fallback)

/-- The most derived receive function. -/
def receive? (r : Resolver) : Option Function := r.functions.find? (·.kind == .receive)

def constructor? (r : Resolver) (base : Contract) : Option Function :=
  (r.tree.functionsOf base).find? (·.kind == .constructor)

/-- Everything the outside can call. -/
def entryPoints (r : Resolver) : List Function :=
  r.interfaceFunctions ++ r.fallback?.toList ++ r.receive?.toList

/-! ### Numbers -/

structure Stats where
  bases : Nat
  callables : Nat
  virtualCallables : Nat
  /-- The ids whose virtual references lead elsewhere. -/
  overriddenCallables : Nat
  /-- The functions whose place is taken by a getter. -/
  getterOverrides : Nat
  deriving DecidableEq

def stats (r : Resolver) : Stats where
  bases := r.linearization.length
  callables := r.families.size
  virtualCallables :=
    (r.families.keys.filter fun id => (r.tree.callable? id).any Callable.isVirtual).length
  overriddenCallables := (r.table.toList.filter fun entry => entry.1 != entry.2).length
  getterOverrides := r.getterOverrides.size

end Resolver

end ContractCalls
