/-!
# Settings

The settings of a build.  `carryPointers` hands the function pointers that are taken
during construction on to the deployed code.  `parallel` lets the contracts of a
program be processed at the same time, which no answer depends on.
-/

namespace ContractCalls

structure Config where
  /-- Pointers taken during construction can be called by the deployed code. -/
  carryPointers : Bool := true
  /-- Contracts may be processed at the same time. -/
  parallel : Bool := true
  deriving DecidableEq

namespace Config

def standard : Config := {}

/-- The deployed code is taken on its own. -/
def isolated : Config := { carryPointers := false }

def sequential : Config := { parallel := false }

end Config

end ContractCalls
