import ContractCalls.Build.Deployment

/-!
# Whole programs

`Tree.graphs` builds both graphs of every contract that bytecode is made for.  The first
contract, in the order of writing, that cannot be built decides the error.

The contracts are processed one after the other, up to the first that fails
(`Tree.entriesInTurn`), or at the same time (`Tree.entriesAtOnce`): then all of them are
processed, also those behind one that fails, and the answers are looked at afterwards.  Who
does the work at the same time is a parameter, `Workers`; all that is asked of it is that its
answers stand in the order of the contracts (`Workers.KeepsOrder`).

Nothing is answered before all contracts that were begun are done with.  So a contract that is
never done with (`Outcome.endless?`) leaves a program without an answer: in turn, if it comes
before the first that fails, at the same time wherever it stands.
-/

namespace ContractCalls

structure ContractGraphs where
  creation : CallGraph
  deployment : CallGraph

namespace Outcome

/-- Goes on with what was built, if it was, and keeps one journal. -/
def andThen {α β : Type} (o : Outcome α) (next : α → Outcome β) : Outcome β :=
  match o.result with
  | .error e => ⟨o.journal, .error e⟩
  | .ok a => ⟨o.journal ++ (next a).journal, (next a).result⟩

/-- The constant whose reading keeps the build from coming to an end. -/
def endless? {α : Type} (o : Outcome α) : Option DeclId :=
  match o.result with
  | .error (.endless constant) => some constant
  | _ => none

def map {α β : Type} (f : α → β) (o : Outcome α) : Outcome β := ⟨o.journal, o.result.map f⟩

end Outcome

abbrev GraphsEntry := DeclId × ContractGraphs

/-- Those who process contracts at the same time: they are given the work on one contract, and
answer what it comes to on each of the contracts. -/
abbrev Workers := (Contract → Outcome GraphsEntry) → List Contract → List (Outcome GraphsEntry)

namespace Workers

/-- There is one worker, who takes the contracts as they come. -/
def single : Workers := fun work contracts => contracts.map work

end Workers

namespace Tree

def contractGraphs (t : Tree) (config : Config) (contract : DeclId) : Outcome ContractGraphs :=
  (t.creationGraph contract).andThen fun creation =>
    (t.deploymentGraph contract creation config).map fun deployment => ⟨creation, deployment⟩

def contractEntry (t : Tree) (config : Config) (c : Contract) : Outcome GraphsEntry :=
  (t.contractGraphs config c.id).map fun graphs => (c.id, graphs)

/-- The graphs of several contracts, one contract after the other.  The first that fails ends
it. -/
def entriesInTurn (t : Tree) (config : Config) : List Contract → Outcome (List GraphsEntry)
  | [] => ⟨#[], .ok []⟩
  | c :: rest =>
    (t.contractEntry config c).andThen fun entry =>
      (entriesInTurn t config rest).map fun entries => entry :: entries

/-- The graphs of several contracts that are processed at the same time.  If all are done with,
the first in the order of the contracts that fails decides the error. -/
def entriesAtOnce (t : Tree) (workers : Workers) (config : Config) (contracts : List Contract) :
    Outcome (List GraphsEntry) :=
  let answers := workers (t.contractEntry config) contracts
  ⟨answers.foldl (fun journal o => journal ++ o.journal) #[],
    match answers.findSome? Outcome.endless? with
    | some constant => .error (.endless constant)
    | none => answers.mapM Outcome.result⟩

/-- The contracts that bytecode is made for. -/
def deployable (t : Tree) : List Contract := t.contracts.filter Contract.canBeDeployed

/-- The graphs of all contracts that bytecode is made for, by the ids of the contracts. -/
def graphsBy (t : Tree) (workers : Workers) (config : Config) : Outcome (IdMap ContractGraphs) :=
  let first : Outcome Unit := ⟨#[.program t.deployable.length config.parallel], .ok ()⟩
  let entries := first.andThen fun _ =>
    if config.parallel then t.entriesAtOnce workers config t.deployable
    else t.entriesInTurn config t.deployable
  entries.map fun entries => .ofList entries

/-- The graphs of a program that is processed by a single worker. -/
def graphs (t : Tree) (config : Config) : Outcome (IdMap ContractGraphs) :=
  t.graphsBy .single config

end Tree

end ContractCalls
