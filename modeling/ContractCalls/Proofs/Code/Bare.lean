import ContractCalls.Proofs.Code.Agreement

/-!
# Resolvers in trees that are the same but for code

A resolver keeps contracts, and with them the arguments that they pass to their bases.  Nothing that
it does depends on these.  So in trees that are the same but for code, a contract has resolvers that
are the same but for code (`Tree.SameButCode.map_ofContract`), and these cannot be told apart: names
lead them to the same callables, and the outside can call the same functions.
-/

namespace ContractCalls

/-- The resolver without its tree, and without the arguments of its contracts. -/
def Resolver.bare (r : Resolver) : Resolver :=
  { r with
    tree := {}
    contract := r.contract.withoutArgs
    linearization := r.linearization.map Contract.withoutArgs }

/-- The resolvers are the same but for code. -/
structure Resolver.SameButCode (r r' : Resolver) : Prop where
  tree : r.tree.SameButCode r'.tree
  bare : r'.bare = r.bare

namespace Resolver

theorem flatMap_callables_withoutArgs (cs : List Contract) :
    (cs.map Contract.withoutArgs).flatMap Contract.callables = cs.flatMap Contract.callables :=
  List.flatMap_map ..

theorem flatMap_stateVariables_withoutArgs (cs : List Contract) :
    (cs.map Contract.withoutArgs).flatMap Contract.stateVariables =
      cs.flatMap Contract.stateVariables :=
  List.flatMap_map ..

theorem linearization_withoutArgs (c : Contract) (bases : List Contract) :
    (if bases.isEmpty then [c] else bases).map Contract.withoutArgs =
      if (bases.map Contract.withoutArgs).isEmpty then [c.withoutArgs]
      else bases.map Contract.withoutArgs := by
  cases bases <;> rfl

/-! ### References -/

theorem after?_bare (r : Resolver) (scope : DeclId) :
    r.bare.after? scope = (r.after? scope).map (List.map Contract.withoutArgs) := by
  have hdrop : r.bare.linearization.dropWhile (·.id != scope) =
      (r.linearization.dropWhile (·.id != scope)).map Contract.withoutArgs :=
    List.dropWhile_map ..
  rw [after?, hdrop, after?]
  cases r.linearization.dropWhile (·.id != scope) <;> rfl

theorem resolveSuper_bare (r : Resolver) (id scope : DeclId) :
    r.bare.resolveSuper id scope = r.resolveSuper id scope := by
  rw [resolveSuper, after?_bare, resolveSuper]
  cases r.after? scope with
  | none => rfl
  | some rest =>
    simp only [Option.map_some, List.flatMap_map]
    rfl

theorem resolve_bare (r : Resolver) (id : DeclId) (lookup : Lookup) :
    r.bare.resolve id lookup = r.resolve id lookup := by
  cases lookup with
  | super scope => exact r.resolveSuper_bare id scope
  | _ => rfl

namespace SameButCode

variable {r r' : Resolver}

theorem sameNames (h : r.SameButCode r') : r.SameNames r' where
  kind := by
    refine h.tree.map_find? fun d => ?_
    cases d <;> rfl
  resolve := by
    intro id lookup
    rw [← resolve_bare, h.bare, resolve_bare]

theorem contract_withoutArgs (h : r.SameButCode r') :
    r'.contract.withoutArgs = r.contract.withoutArgs :=
  congrArg Resolver.contract h.bare

theorem linearization_withoutArgs (h : r.SameButCode r') :
    r'.linearization.map Contract.withoutArgs = r.linearization.map Contract.withoutArgs :=
  congrArg Resolver.linearization h.bare

theorem map_head_functionsOf (h : r.SameButCode r') {c c' : Contract}
    (hc : c'.withoutArgs = c.withoutArgs) : (r'.tree.functionsOf c').map Function.head =
      (r.tree.functionsOf c).map Function.head := by
  show (r'.tree.functionsOf c'.withoutArgs).map Function.head = _
  rw [hc]
  exact h.tree.map_head_functionsOf c.withoutArgs

/-- **The outside can call the same functions.** -/
theorem entrySites_eq (h : r.SameButCode r') : Build.entrySites r' = Build.entrySites r := by
  have hfunctions : ∀ r : Resolver, r.functions.map Function.head =
      (r.linearization.map Contract.withoutArgs).flatMap
        fun c => (r.tree.functionsOf c).map Function.head := by
    intro r
    rw [functions, List.map_flatMap, List.flatMap_map]
    rfl
  have htable : r'.bare.table = r.bare.table := congrArg Resolver.table h.bare
  have hgetters : r'.bare.getterOverrides = r.bare.getterOverrides :=
    congrArg Resolver.getterOverrides h.bare
  refine entrySites_congr ?_ htable hgetters
  rw [hfunctions, hfunctions, h.linearization_withoutArgs]
  exact List.flatMap_congr fun c _ => h.tree.map_head_functionsOf c

end SameButCode

end Resolver

/-! ### The resolver of a contract -/

/-- **The resolvers of a contract** are the same but for code. -/
theorem Tree.SameButCode.map_ofContract {t t' : Tree} (h : t.SameButCode t') {c c' : Contract}
    (hc : c'.withoutArgs = c.withoutArgs) :
    (Resolver.ofContract t' c').map Resolver.bare =
      (Resolver.ofContract t c).map Resolver.bare := by
  have hlinearized : c'.linearized = c.linearized := by
    show c'.withoutArgs.linearized = c.withoutArgs.linearized
    rw [hc]
  have hbases : (c'.linearized.mapM t'.requireContract).map (List.map Contract.withoutArgs) =
      (c.linearized.mapM t.requireContract).map (List.map Contract.withoutArgs) := by
    rw [hlinearized, ← mapM_map_answers (fun _ => rfl), ← mapM_map_answers (fun _ => rfl)]
    exact congrArg (List.mapM · c.linearized) (funext h.map_requireContract)
  rw [Resolver.ofContract, Resolver.ofContract, h.familiesOf_eq, h.getterOverridesOf_eq]
  rcases cases_of_map_eq hbases with ⟨e, hb', hb⟩ | ⟨bases', bases, hb', hb, hsame⟩
  · rw [hb, hb']
    rfl
  · have hlinearization : (if bases'.isEmpty then [c'] else bases').map Contract.withoutArgs =
        (if bases.isEmpty then [c] else bases).map Contract.withoutArgs := by
      rw [Resolver.linearization_withoutArgs, hsame, hc, ← Resolver.linearization_withoutArgs]
    rw [hb, hb']
    simp only [bind, Except.bind]
    generalize (if bases'.isEmpty then [c'] else bases') = cs' at hlinearization ⊢
    generalize (if bases.isEmpty then [c] else bases) = cs at hlinearization ⊢
    rw [← Resolver.flatMap_callables_withoutArgs cs', ← Resolver.flatMap_callables_withoutArgs cs,
      ← Resolver.flatMap_stateVariables_withoutArgs cs',
      ← Resolver.flatMap_stateVariables_withoutArgs cs, hlinearization]
    cases Resolver.familiesOf t ((cs.map Contract.withoutArgs).flatMap Contract.callables) with
    | error e => rfl
    | ok families =>
      simp only
      cases ((cs.map Contract.withoutArgs).flatMap Contract.stateVariables).mapM
        (Resolver.getterOverridesOf t) with
      | error e => rfl
      | ok getters => simp only [Except.map, Resolver.bare, hlinearization, hc]

end ContractCalls
