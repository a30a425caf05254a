import ContractCalls.Proofs.Build.Checked
import ContractCalls.Proofs.Build.Told
import ContractCalls.Proofs.Graph.Outcomes
import ContractCalls.Proofs.Resolution.Resolvable

/-!
# What a build takes for granted

A build relies on four things that it does not check: an edge starts at the outside, at the calls
through pointers, or at a callable that was queued before; the queue is turned to while no code is
being read; the queue is empty when a graph is handed out; and a modifier is only ever invoked in
the head of a callable.  All of them hold, also in a build that fails (`assertions_hold`).

The first two are those of `Checked`, and the third is that a build which succeeds is finished.  For
the last, an error that ends a build was found in code (`justified_creation`,
`justified_deployment`), and no code tells this error: expressions hold no invocations, whatever node
they are read for (`not_outsideFunction_of_says`), and heads are read for their own callable
(`not_outsideFunction_of_ofInvocation`).
-/

namespace ContractCalls

/-! ### Invocations -/

/-- A modifier is invoked where no callable is. -/
def Error.OutsideFunction (e : Error) : Prop :=
  ∃ name, e = .inconsistent (.modifierOutsideFunction name)

theorem Tree.not_outsideFunction_of_require {α : Type} {t : Tree} {id : DeclId}
    {expected : Expectation} {view : Declaration → Option α} {e : Error}
    (h : t.require id expected view = .error e) : ¬ e.OutsideFunction := by
  rintro ⟨name, rfl⟩
  unfold require at h
  split at h
  · cases h
  · split at h <;> cases h

namespace Resolver

variable {r : Resolver} {n : Node} {e : Error}

theorem not_outsideFunction_of_resolve {id : DeclId} {lookup : Lookup}
    (h : r.resolve id lookup = .error e) : ¬ e.OutsideFunction := by
  rintro ⟨name, rfl⟩
  cases lookup with
  | super scope =>
    rw [resolve, resolveSuper] at h
    split at h
    · cases h
    · split at h <;> cases h
  | _ => cases h

theorem not_outsideFunction_of_ofNamed {note : Note} {ref : Reference}
    (h : .error e ∈ r.ofNamed n note ref) : ¬ e.OutsideFunction := by
  unfold ofNamed at h
  split at h
  · cases h
  · split at h
    · cases List.mem_singleton.1 h
      rintro ⟨name, hname⟩
      cases hname
    · split at h
      · split at h
        next hresolve =>
          cases List.mem_singleton.1 h
          exact not_outsideFunction_of_resolve hresolve
        · cases List.mem_singleton.1 h
      · cases h

/-- An expression is read for any node, and its errors are never about invocations. -/
theorem not_outsideFunction_of_says {root : Expr → Prop} (h : r.Says root n (.error e)) :
    ¬ e.OutsideFunction := by
  obtain ⟨expr, o, _, ho, he⟩ := h
  cases expr with
  | identifier note ref =>
    cases ho
    exact not_outsideFunction_of_ofNamed he
  | member note inner ref =>
    cases ho
    exact not_outsideFunction_of_ofNamed he
  | call note callee args kind =>
    cases ho
    rintro ⟨name, rfl⟩
    simp only [ofOccurrence, ofCall, SiteKind.ofCall] at he
    grind
  | new note name contract =>
    cases ho
    cases contract <;> simp [ofOccurrence] at he
  | _ => cases ho

theorem not_outsideFunction_of_ofEmission {event : Expr} (h : .error e ∈ r.ofEmission event) :
    ¬ e.OutsideFunction := by
  rintro ⟨name, rfl⟩
  unfold ofEmission at h
  split at h
  · split at h
    · cases List.mem_singleton.1 h
    · split at h <;> cases List.mem_singleton.1 h
  · cases List.mem_singleton.1 h

theorem not_outsideFunction_of_ofInvocation {id : DeclId} {i : Invocation}
    (h : .error e ∈ r.ofInvocation (.callable id) i) : ¬ e.OutsideFunction := by
  have hplaceholder : ∀ target, .error e ∈ r.ofPlaceholder id target → ¬ e.OutsideFunction := by
    intro target h
    unfold ofPlaceholder at h
    split at h
    next hmodifier =>
      cases List.mem_singleton.1 h
      exact Tree.not_outsideFunction_of_require hmodifier
    · split at h <;> simp at h
  have hother : ∀ e' : Error, (∀ name, e' ≠ .inconsistent (.modifierOutsideFunction name)) →
      .error e ∈ [Finding.error e'] → ¬ e.OutsideFunction := by
    rintro e' hne h ⟨name, rfl⟩
    cases List.mem_singleton.1 h
    exact hne name rfl
  unfold ofInvocation at h
  split at h
  · exact hother _ (by simp) h
  · split at h
    · exact hother _ (by simp) h
    · cases h
    · split at h
      next hcallable => cases hcallable
      · split at h
        next hresolve =>
          cases List.mem_singleton.1 h
          exact not_outsideFunction_of_resolve hresolve
        · rcases List.mem_cons.1 h with h | h
          · cases h
          · cases ‹Node.callable? _ = some _›
            exact hplaceholder _ h
    · exact hother _ (by simp) h

theorem not_outsideFunction_of_code {id : DeclId} (h : .error e ∈ r.code id) :
    ¬ e.OutsideFunction := by
  cases hc : r.tree.requireCallable id with
  | error e' =>
    rw [code, hc] at h
    cases List.mem_singleton.1 h
    exact Tree.not_outsideFunction_of_require hc
  | ok c =>
    rcases (mem_code (error_ne_endless e) (Tree.require_eq_ok.1 hc)).1 h with
      h | ⟨event, _, h⟩ | ⟨i, _, h⟩
    · exact not_outsideFunction_of_says h
    · exact not_outsideFunction_of_ofEmission h
    · exact not_outsideFunction_of_ofInvocation h

/-- **No finding is about an invocation outside of a callable**, unless a seed is. -/
theorem Found.not_outsideFunction {seeds : List Finding} {carried : DeclId → Prop}
    (hseeds : .error e ∈ seeds → ¬ e.OutsideFunction) (h : r.Found seeds carried (.error e)) :
    ¬ e.OutsideFunction := by
  cases h with
  | seed he => exact hseeds he
  | called _ _ he => exact not_outsideFunction_of_code he
  | dispatched _ _ _ _ he => exact not_outsideFunction_of_code he

theorem not_outsideFunction_of_creationSeeds (hfits : r.Fits) (h : .error e ∈ r.creationSeeds) :
    ¬ e.OutsideFunction := by
  obtain ⟨b, _, h | ⟨k, _, hsite⟩ | h⟩ := (mem_creationSeeds (error_ne_endless e) hfits).1 h
  · exact not_outsideFunction_of_says h
  · cases hsite
  · exact not_outsideFunction_of_says h

end Resolver

/-! ### Whole builds -/

namespace Build

variable {r : Resolver}

/-- All that the build takes for granted is so. -/
structure Asserted (b : Build) : Prop where
  /-- Each edge starts at a node that is known by then. -/
  sources : b.journal.Sourced
  drains : DrainsAtEntry b
  emptied : b.error = none → b.queue = []
  /-- No modifier is invoked where no callable is. -/
  invocations : ∀ e : Error, b.error = some e → ¬ e.OutsideFunction

theorem asserted_creation (hfits : r.Fits) : Asserted (creation r) where
  sources := (checked_creation hfits).sourced.journal
  drains := (checked_creation hfits).drains
  emptied := by
    intro hok
    obtain ⟨_, _, _, hqueue, _⟩ := finished_creation hok
    exact hqueue
  invocations := by
    intro e he
    exact ((justified_creation r).error e he).not_outsideFunction
      (Resolver.not_outsideFunction_of_creationSeeds hfits)

theorem asserted_deployment (hfits : r.Fits) (pointers : IdSet) (config : Config) :
    Asserted (deployment r pointers config) where
  sources := (checked_deployment hfits pointers config).sourced.journal
  drains := (checked_deployment hfits pointers config).drains
  emptied := by
    intro hok
    obtain ⟨_, _, _, hqueue, _⟩ := finished_deployment hfits hok
    exact hqueue
  invocations := by
    intro e he
    refine ((justified_deployment hfits pointers config).error e he).not_outsideFunction
      fun hmem => ?_
    obtain ⟨k, _, hsite⟩ := List.mem_map.1 hmem
    cases hsite

end Build

namespace Tree

variable {t : Tree} {contract : DeclId} {e : Error}

theorem not_outsideFunction_of_resolver (ht : t.WellFormed) (hlinear : t.Linearized)
    (h : t.resolver contract = .error e) : ¬ e.OutsideFunction := by
  cases hc : t.requireContract contract with
  | error e' =>
    rw [resolver, hc] at h
    cases h
    exact not_outsideFunction_of_require hc
  | ok c =>
    obtain ⟨k, _, hk⟩ := overridden_of_resolver_eq_error ht hlinear (require_eq_ok.1 hc) h
    exact not_outsideFunction_of_require hk

/-- **What a build takes for granted is so**, in every run: whether it fails or not, and whatever
creation graph of the contract and settings are handed in.  A run needs a resolver; without one the
error is not about an invocation either. -/
theorem assertions_hold {steps : List Step} (ht : ofSteps steps = .ok t) (contract : DeclId) :
    (∀ r, t.resolver contract = .ok r →
      t.creationGraph contract = (Build.creation r).outcome .creation ∧
        (Build.creation r).Asserted) ∧
    (∀ r creation config, t.resolver contract = .ok r → creation.contract = contract →
      t.deploymentGraph contract creation config =
          (Build.deployment r creation.pointers config).outcome .deployment ∧
        (Build.deployment r creation.pointers config).Asserted) ∧
    ∀ e : Error, ((t.creationGraph contract).result = .error e ∨
      ∃ creation config, (t.deploymentGraph contract creation config).result = .error e) →
        ¬ e.OutsideFunction := by
  have hwell := wellFormed_of_ofSteps ht
  have hnone : ∀ e, t.resolver contract = .error e → ¬ e.OutsideFunction := fun e he =>
    not_outsideFunction_of_resolver hwell (hasOrder_of_ofSteps ht) he
  have hcreation : ∀ r, t.resolver contract = .ok r →
      t.creationGraph contract = (Build.creation r).outcome .creation ∧
        (Build.creation r).Asserted := by
    intro r hr
    obtain ⟨hfits, _, _⟩ := Resolver.fits_of_resolver hwell hr
    exact ⟨creationGraph_of_resolver hr, Build.asserted_creation hfits⟩
  have hdeployment : ∀ r creation config, t.resolver contract = .ok r →
      creation.contract = contract → t.deploymentGraph contract creation config =
          (Build.deployment r creation.pointers config).outcome .deployment ∧
        (Build.deployment r creation.pointers config).Asserted := by
    intro r creation config hr hsame
    obtain ⟨hfits, _, _⟩ := Resolver.fits_of_resolver hwell hr
    rw [← hwell.contract_of_resolver hr] at hsame
    exact ⟨deploymentGraph_of_resolver hr hsame, Build.asserted_deployment hfits _ _⟩
  refine ⟨hcreation, hdeployment, fun e he => ?_⟩
  rcases he with he | ⟨creation, config, he⟩
  · rcases failure_of_creationGraph he with ⟨_, ⟨⟩, he⟩ | ⟨r, hr, he⟩
    · exact hnone e he
    · exact (hcreation r hr).2.invocations e he
  · rcases failure_of_deploymentGraph he with ⟨_, ⟨⟩, he⟩ | ⟨expected, found, ⟨⟩⟩ | ⟨r, hr, he⟩
    · exact hnone e he
    · rintro ⟨name, hname⟩
      cases hname
    · obtain ⟨hfits, _, _⟩ := Resolver.fits_of_resolver hwell hr
      exact (Build.asserted_deployment hfits _ _).invocations e he

theorem token_assertions_hold : ∃ r, Token.tree.resolver ⟨4⟩ = .ok r ∧
    (Build.creation r).Asserted ∧ (Build.deployment r Token.creation.pointers .standard).Asserted ∧
    (Token.tree.deploymentGraph ⟨4⟩ Token.creation .standard).journal[7]? =
      some (.edge (.callable ⟨2⟩) (.callable ⟨6⟩)) := by
  obtain ⟨hcreation, hdeployment, _⟩ := assertions_hold Token.ofSteps_steps ⟨4⟩
  obtain ⟨r, hr⟩ : ∃ r, Token.tree.resolver ⟨4⟩ = .ok r := exists_ok_of_isOk (by cbv)
  exact ⟨r, hr, (hcreation r hr).2, (hdeployment r Token.creation .standard hr (by cbv)).2, by cbv⟩

end Tree

end ContractCalls
