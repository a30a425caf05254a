import ContractCalls.Label

/-!
# The journal of a build

A build writes down what it does.  An `Entry` is one thing done, a `Journal` all of them
in their order.  Most entries are printed in the log, under the level `DEBUG` for the
whole of a build and `TRACE` for its parts; `Entry.line?` is the line.  The others,
such as the edges added and the callables read, are for the record alone.
-/

namespace ContractCalls

inductive Phase where
  /-- What runs while the contract is constructed. -/
  | creation
  /-- What the deployed code can run. -/
  | deployment
  deriving DecidableEq

namespace Phase

def name : Phase → String
  | creation => "creation"
  | deployment => "deployment"

end Phase

/-- A thing done by a build. -/
inductive Entry where
  | program (contracts : Nat) (parallel : Bool)
  | start (phase : Phase) (contract : String)
  | queue (id : DeclId)
  | edge (caller callee : Node)
  /-- The queue is turned to, while the code of `current` is being read. -/
  | drain (current : Node)
  | read (id : DeclId)
  /-- A pointer is called for the first time, and `pointers` of them are known. -/
  | release (pointers : Nat)
  /-- The pointers taken during construction are handed on. -/
  | carry (pointers : Nat) (contract : String)
  | finish (phase : Phase) (contract : String) (callables edges events created : Nat)
  deriving DecidableEq

abbrev Journal := Array Entry

namespace Entry

/-- The line of an entry in the log, with the names that the tree has for callables. -/
def line? (t : Tree) : Entry → Option String
  | program contracts parallel =>
    let how := if parallel then "parallel" else "sequential"
    some s!"DEBUG building call graphs of {contracts} contracts ({how})"
  | start phase contract =>
    let what := phase.name
    some s!"DEBUG building {what} call graph of {contract}"
  | queue id => some ("TRACE queueing " ++ t.label (.callable id))
  | release pointers => some s!"TRACE dispatch reached, releasing {pointers} pointer targets"
  | carry pointers contract =>
    some s!"TRACE carrying {pointers} creation pointer targets into {contract}"
  | finish phase contract callables edges events created =>
    let what := phase.name
    some (s!"DEBUG {what} call graph of {contract}: {callables} callables, {edges} edges, " ++
      s!"{events} events, {created} created contracts")
  | edge .. | drain _ | read _ => none

end Entry

def Journal.log (t : Tree) (journal : Journal) : List String :=
  journal.toList.filterMap (Entry.line? t)

end ContractCalls
