import ContractCalls.Proofs.Code.Transparency
import ContractCalls.Proofs.Graph.Construction

/-!
# Constants are transparent

A constant can be replaced by its initializer wherever it is named.  As long as no constants refer
to each other in a cycle, all builds come out the same, whether they succeed or fail:
`constants_are_transparent`.
-/

namespace ContractCalls

namespace Build

variable {r r' : Resolver}

/-- **Creation graphs are built alike** where constants are spelled out. -/
theorem creation_spelled (h : r.Spelled r') (hacyclic : r.tree.NoConstantCycle) :
    creation r' = creation r := by
  rw [creation_eq, begin_congr h.sameButCode, h.creationSeeds_eq hacyclic,
    finishQueue_congr (h.code_eq hacyclic), creation_eq]

/-- **Deployment graphs are built alike** where constants are spelled out. -/
theorem deployment_spelled (h : r.Spelled r') (hacyclic : r.tree.NoConstantCycle)
    (pointers : IdSet) (config : Config) :
    deployment r' pointers config = deployment r pointers config :=
  deployment_congr h.sameButCode (h.code_eq hacyclic) pointers config

end Build

namespace Tree.AllSpelled

variable {t t' : Tree}

theorem creationGraph_eq (h : t.AllSpelled t') (hacyclic : t.NoConstantCycle) (contract : DeclId) :
    t'.creationGraph contract = t.creationGraph contract := by
  rw [creationGraph, creationGraph]
  rcases h.resolver_cases contract with ⟨e, hr, hr'⟩ | ⟨r, r', hr, hr', rfl, hresolvers⟩
  · rw [hr, hr']
  · simp only [hr, hr', Build.creation_spelled hresolvers hacyclic]

theorem deploymentGraph_eq (h : t.AllSpelled t') (hacyclic : t.NoConstantCycle) (contract : DeclId)
    (creation : CallGraph) (config : Config) : t'.deploymentGraph contract creation config =
      t.deploymentGraph contract creation config := by
  rw [deploymentGraph, deploymentGraph]
  rcases h.requireContract_cases contract with ⟨e, hc, hc'⟩ | ⟨c, c', hc, hc', hspelled⟩
  · rw [hc, hc']
  · have hid : c'.id = c.id := by
      show c'.withoutArgs.id = c.withoutArgs.id
      rw [hspelled.withoutArgs]
    simp only [hc, hc', hid]
    rcases h.ofContract_cases hspelled with ⟨e, hr, hr'⟩ | ⟨r, r', hr, hr', rfl, hresolvers⟩
    · rw [hr, hr']
    · rw [hr, hr']
      simp only [Build.deployment_spelled hresolvers hacyclic]

end Tree.AllSpelled

/-! ### A toll

A constant whose initializer calls a function with another constant as the argument, and a function
that names the first constant in a condition. -/

namespace Toll

def fee : Expr := .internalCall "quote" ⟨1⟩ [.plain "HOOK" (some ⟨2⟩)]

def pay (price : Expr) : Function where
  id := ⟨4⟩
  name := "pay"
  scope := some ⟨0⟩
  kind := .function
  visibility := .public
  isVirtual := false
  overrides := []
  params := []
  invocations := []
  body := some
    [.branch (.binary {} (.plain "sent" none) "<" price) (.revert (.builtinCall "Short" [])) none]

def steps : List Step :=
  [ .contract "Toll" .contract false [],
    .function ⟨some ⟨0⟩, "quote", .function, some .internal, false, [], [], [], .usual⟩,
    .variable ⟨some ⟨0⟩, "HOOK", "function()", false, true, false, [],
      some (.functionRef "quote" ⟨1⟩)⟩,
    .variable ⟨some ⟨0⟩, "FEE", "uint256", false, true, false, [], some fee⟩,
    .function ⟨some ⟨0⟩, "pay", .function, some .public, false, [], [], [],
      .written ((pay (.plain "FEE" (some ⟨3⟩))).body.getD [])⟩ ]

def tree : Tree := (Tree.ofSteps steps).toOption.getD {}

/-- The toll with the initializer in the place of the constant. -/
def spelled : Tree := tree.replace ⟨4⟩ (.function (pay fee))

def creation : CallGraph := (tree.creationGraph ⟨0⟩).result.toOption.getD ⟨⟨0⟩, "", ∅, ∅, ∅, ∅⟩

theorem noConstantCycle_tree : tree.NoConstantCycle := Tree.noConstantCycle_of_inOrder (by cbv)

theorem spellsOut_spelled : tree.SpellsOut spelled := by
  refine ⟨⟨4⟩, .function (pay (.plain "FEE" (some ⟨3⟩))), .function (pay fee), by cbv, ?_, rfl⟩
  have hvalue : tree.constantValue? ⟨3⟩ = some fee := by cbv
  have hexpr : Expr.SpellsOut tree (.plain "FEE" (some ⟨3⟩)) fee := .here rfl hvalue
  have hstmt : ∀ yes no, Stmt.SpellsOut tree
      (.branch (.binary {} (.plain "sent" none) "<" (.plain "FEE" (some ⟨3⟩))) yes no)
      (.branch (.binary {} (.plain "sent" none) "<" fee) yes no) :=
    fun _ _ => .condition (.right hexpr)
  exact @Declaration.SpellsOut.functionBody _ _ [] _ _ _ rfl (hstmt _ _)

end Toll

namespace Tree

/-- **Constants are transparent.**  When no constants refer to each other in a cycle, and a constant
is replaced by its initializer at one place, all builds come out the same. -/
theorem constants_are_transparent {t t' : Tree} (hacyclic : t.NoConstantCycle)
    (h : t.SpellsOut t') (contract : DeclId) :
    t'.creationGraph contract = t.creationGraph contract ∧
      ∀ creation config, t'.deploymentGraph contract creation config =
        t.deploymentGraph contract creation config :=
  ⟨h.allSpelled.creationGraph_eq hacyclic contract,
    h.allSpelled.deploymentGraph_eq hacyclic contract⟩

theorem toll_constants_are_transparent :
    Toll.spelled.creationGraph ⟨0⟩ = Toll.tree.creationGraph ⟨0⟩ ∧
      (∀ creation config, Toll.spelled.deploymentGraph ⟨0⟩ creation config =
        Toll.tree.deploymentGraph ⟨0⟩ creation config) ∧
      (Toll.tree.deploymentGraph ⟨0⟩ Toll.creation .standard).result.isOk = true := by
  obtain ⟨hcreation, hdeployment⟩ :=
    constants_are_transparent Toll.noConstantCycle_tree Toll.spellsOut_spelled ⟨0⟩
  exact ⟨hcreation, hdeployment, by cbv⟩

end Tree
end ContractCalls
