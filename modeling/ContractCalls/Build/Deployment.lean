import ContractCalls.Build.Config
import ContractCalls.Build.Creation
import ContractCalls.CallGraph.Reach

/-!
# The graph of the deployed code

The outside can call the interface functions, the fallback and the receive function of
a contract.  A pointer that was taken during construction may be stored and called
later: when the deployed code calls through pointers at all, the pointers of the
creation graph are handed on to it, unless the settings forbid that.
-/

namespace ContractCalls

namespace Build

/-- What the entry points of the deployed code tell. -/
def entrySites (r : Resolver) : List Finding := r.entryPoints.map entrySite

def carriedSite (id : DeclId) : Finding := .site ⟨.internalDispatch, .reference, .exact id⟩

def carry (r : Resolver) (b : Build) (pointers : IdSet) : Build :=
  ((b.note (.carry pointers.size r.contract.name)).takeAll
    (pointers.toList.map carriedSite)).finishQueue r

/-- The deployed code calls through pointers, and may call those of the construction. -/
def carries (b : Build) (config : Config) : Bool :=
  b.error.isNone && config.carryPointers && b.graph.isDispatchReachable

/-- The build of the deployment graph, with the pointers taken during construction. -/
def deployment (r : Resolver) (pointers : IdSet) (config : Config) : Build :=
  let b := ((begin .deployment r.contract).takeAll (entrySites r)).finishQueue r
  if b.carries config then b.carry r pointers else b

end Build

namespace Tree

/-- The graph of what the deployed code of a contract can run.  The creation graph that
is handed in has to be one of the same contract. -/
def deploymentGraph (t : Tree) (contract : DeclId) (creation : CallGraph) (config : Config) :
    Outcome CallGraph :=
  match t.requireContract contract with
  | .error e => ⟨#[], .error e⟩
  | .ok c =>
    if creation.contract = c.id then
      match Resolver.ofContract t c with
      | .error e => ⟨#[], .error e⟩
      | .ok r => (Build.deployment r creation.pointers config).outcome .deployment
    else ⟨#[], .error (Error.contractMismatch c.id creation.contract)⟩

end Tree

end ContractCalls
