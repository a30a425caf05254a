import ContractCalls.Build.Basic

/-!
# The graph of the construction

Construction goes through the linearization from the most basic contract to the most
derived one.  For each contract it runs the initializers of the state variables, which
count as called from the outside, then the constructor.  The arguments that a contract
passes to its bases are code of its constructor, or of the outside if it has none.
-/

namespace ContractCalls

namespace Resolver

/-- What the initializer of a state variable tells.  A constant is read where it is
named, not here. -/
def ofStateVariable (r : Resolver) (id : DeclId) : List Finding :=
  match r.tree.requireVariable id with
  | .error e => [.error e]
  | .ok v => if v.isConstant then [] else r.findings .entry (Expr.optionOccurrences v.value)

end Resolver

def Contract.baseOccurrences (c : Contract) : List Occurrence :=
  c.bases.flatMap fun base => Expr.listOccurrences base.args

namespace Build

def begin (phase : Phase) (c : Contract) : Build :=
  { graph := { contract := c.id, name := c.name }, journal := #[.start phase c.name] }

/-- A call from the outside. -/
def entrySite (f : Function) : Finding := .site ⟨.entry, .direct, .exact f.id⟩

/-- Calls the constructor of a contract from the outside and turns to its code. -/
def enterConstructor (b : Build) : Option Function → Build
  | none => b
  | some f => (b.take (entrySite f)).moveTo (.callable f.id)

def construct (r : Resolver) (b : Build) (c : Contract) : Build :=
  let initialized := (b.moveTo .entry).takeAll (c.stateVariables.flatMap r.ofStateVariable)
  (initialized.enterConstructor (r.constructor? c)).readCode r c.baseOccurrences

def creation (r : Resolver) : Build :=
  let seeded := r.linearization.reverse.foldl (construct r) (begin .creation r.contract)
  (seeded.moveTo .entry).finishQueue r

end Build

namespace Tree

/-- The resolver of the contract that an id names. -/
def resolver (t : Tree) (contract : DeclId) : Except Error Resolver := do
  let c ← t.requireContract contract
  Resolver.ofContract t c

/-- The graph of what runs while a contract is constructed. -/
def creationGraph (t : Tree) (contract : DeclId) : Outcome CallGraph :=
  match t.resolver contract with
  | .error e => ⟨#[], .error e⟩
  | .ok r => (Build.creation r).outcome .creation

end Tree

end ContractCalls
