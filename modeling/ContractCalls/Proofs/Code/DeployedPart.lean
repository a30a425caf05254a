import ContractCalls.Proofs.Code.Bare
import ContractCalls.Proofs.Tree.Members

/-!
# The deployed part of a program

Initializers of variables that are no constants, and the arguments that contracts pass to their
bases, are run while a contract is constructed and never again.  `Tree.deployedPart` is what is left
of a program without them.

The rest is found as before.  A program and its deployed part are the same but for code
(`sameButCode_deployedPart`), callables keep theirs, and constants their values; and a resolver
changes in nothing but the contracts that it keeps (`ofContract_deployedPart`).  So code tells the
same: `code_deployedPart`.
-/

namespace ContractCalls

/-- The variable without an initializer, unless it is a constant. -/
def Variable.withoutInitializer (v : Variable) : Variable :=
  { v with value := if v.isConstant then v.value else none }

def Declaration.deployedPart : Declaration → Declaration
  | .contract c => .contract c.withoutArgs
  | .variable v => .variable v.withoutInitializer
  | d => d

def Tree.deployedPart (t : Tree) : Tree :=
  { t with declarations := t.declarations.map Declaration.deployedPart }

def Resolver.deployedPart (r : Resolver) : Resolver :=
  { r with
    tree := r.tree.deployedPart
    contract := r.contract.withoutArgs
    linearization := r.linearization.map Contract.withoutArgs }

namespace Tree

/-! ### What is found -/

theorem find?_deployedPart (t : Tree) (id : DeclId) :
    t.deployedPart.find? id = (t.find? id).map Declaration.deployedPart :=
  t.find?_map _ id

theorem require_deployedPart {α : Type} {view : Declaration → Option α} {change : α → α}
    (hview : ∀ d, view d.deployedPart = (view d).map change) (t : Tree) (k : DeclId)
    (expected : Expectation) :
    t.deployedPart.require k expected view = (t.require k expected view).map change := by
  have hmap : (t.deployedPart.require k expected view).map id =
      (t.require k expected view).map change := by
    refine map_require_congr ?_ expected
    rw [find?_deployedPart, Option.map_map]
    refine congrArg (Option.map · (t.find? k)) (funext fun d => ?_)
    exact (congrFun Option.map_id _).trans (hview d)
  rwa [Except.map_id] at hmap

/-- What is required is the same when the view shows nothing of the change. -/
theorem require_deployedPart_eq {α : Type} {view : Declaration → Option α}
    (hview : ∀ d, view d.deployedPart = view d) (t : Tree) (k : DeclId) (expected : Expectation) :
    t.deployedPart.require k expected view = t.require k expected view := by
  have hid : ∀ d, view d.deployedPart = (view d).map id := by
    intro d
    rw [Option.map_id]
    exact hview d
  rw [require_deployedPart hid, Except.map_id]
  rfl

theorem requireContract_deployedPart (t : Tree) (id : DeclId) :
    t.deployedPart.requireContract id = (t.requireContract id).map Contract.withoutArgs := by
  refine require_deployedPart (fun d => ?_) t id _
  cases d <;> rfl

theorem requireCallable_deployedPart (t : Tree) (k : DeclId) :
    t.deployedPart.requireCallable k = t.requireCallable k := by
  refine require_deployedPart_eq (fun d => ?_) t k _
  cases d <;> rfl

theorem requireModifier_deployedPart (t : Tree) (k : DeclId) :
    t.deployedPart.requireModifier k = t.requireModifier k := by
  refine require_deployedPart_eq (fun d => ?_) t k _
  cases d <;> rfl

theorem constantValue?_deployedPart (t : Tree) (id : DeclId) :
    t.deployedPart.constantValue? id = t.constantValue? id := by
  rw [constantValue?, var?, find?_deployedPart, constantValue?, var?]
  cases t.find? id with
  | none => rfl
  | some d =>
    cases d with
    | «variable» v =>
      show (if v.isConstant then if v.isConstant then v.value else none else none) =
        if v.isConstant then v.value else none
      cases v.isConstant <;> rfl
    | _ => rfl

/-- What construction alone runs is code. -/
theorem sameButCode_deployedPart (t : Tree) : t.SameButCode t.deployedPart := by
  intro id
  rw [find?_deployedPart, Option.map_map]
  refine congrArg (Option.map · (t.find? id)) (funext fun d => ?_)
  cases d with
  | contract c => exact congrArg Declaration.contract c.withoutArgs_withoutArgs
  | _ => rfl

end Tree

namespace Resolver

/-! ### The resolver -/

/-- **The resolver of a contract** keeps the contracts without their arguments. -/
theorem ofContract_deployedPart (t : Tree) (c : Contract) :
    ofContract t.deployedPart c.withoutArgs = (ofContract t c).map deployedPart := by
  have hbases : c.withoutArgs.linearized.mapM t.deployedPart.requireContract =
      (c.linearized.mapM t.requireContract).map (List.map Contract.withoutArgs) :=
    mapM_map_answers t.requireContract_deployedPart c.linearized
  rw [ofContract, ofContract, hbases, t.sameButCode_deployedPart.familiesOf_eq,
    t.sameButCode_deployedPart.getterOverridesOf_eq]
  cases c.linearized.mapM t.requireContract with
  | error e => rfl
  | ok bases =>
    simp only [Except.map, bind, Except.bind, ← linearization_withoutArgs,
      flatMap_callables_withoutArgs, flatMap_stateVariables_withoutArgs]
    cases familiesOf t ((if bases.isEmpty then [c] else bases).flatMap Contract.callables) with
    | error e => rfl
    | ok families =>
      simp only
      cases ((if bases.isEmpty then [c] else bases).flatMap Contract.stateVariables).mapM
        (getterOverridesOf t) <;> rfl

/-! ### References and code -/

theorem sameButCode_deployedPart (r : Resolver) : r.SameButCode r.deployedPart where
  tree := r.tree.sameButCode_deployedPart
  bare := by
    have hidem : Contract.withoutArgs ∘ Contract.withoutArgs = Contract.withoutArgs :=
      funext Contract.withoutArgs_withoutArgs
    simp only [bare, deployedPart, Contract.withoutArgs_withoutArgs, List.map_map, hidem]

theorem matches_deployedPart (r : Resolver) : r.Matches r.deployedPart where
  toSameNames := r.sameButCode_deployedPart.sameNames
  constant := r.tree.constantValue?_deployedPart

/-- **Code tells the same** in the deployed part. -/
theorem code_deployedPart (r : Resolver) (id : DeclId) : r.deployedPart.code id = r.code id := by
  have hmarked : r.SamePlaceholders r.deployedPart fun _ => True := by
    intro target _ function
    have hmodifier : r.deployedPart.tree.requireModifier target = r.tree.requireModifier target :=
      r.tree.requireModifier_deployedPart target
    rw [ofPlaceholder, hmodifier, ofPlaceholder]
  have hcallable : r.deployedPart.tree.requireCallable id = r.tree.requireCallable id :=
    r.tree.requireCallable_deployedPart id
  rw [code, hcallable, code]
  cases r.tree.requireCallable id with
  | error e => rfl
  | ok c => exact r.matches_deployedPart.findings_eq hmarked fun _ _ => trivial

end Resolver
end ContractCalls
