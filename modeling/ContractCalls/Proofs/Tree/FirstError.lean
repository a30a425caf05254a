import ContractCalls.Proofs.Tree.Written
import Mathlib.Data.List.Induction

/-!
# The first error

A step can fail for what its id names at that moment: a member is meant for a contract, a body for
a callable, an initializer for a variable.  What an id names is told by the steps before, whether
these failed or not, since all of them have declared what they declare (`kind_writeAll`).  So
`Step.Fails` speaks of the steps alone, and a later declaration does not mend a step that failed.

`first_error_decides`: the answers are the numbers of the declarations before, also of steps that
fail and after them; the error of the first step that fails is what a program comes to, whatever
follows it and whatever its contracts inherit; and without such a step the linearization decides.
The argument is one step that fails (`error_write_of_fails`), one that does not
(`error_write_of_sound`), and that an error which was made stays (`error_writeAll`).
-/

namespace ContractCalls

/-- The kind that an id is declared as by these steps, if it is. -/
def kindAfter (steps : List Step) (id : DeclId) : Option DeclKind :=
  id.index?.bind fun n => ((steps.filterMap Step.heading?)[n]?).map Prod.fst

namespace Step

/-- The step fails with this error where ids are declared as these kinds. -/
inductive Fails (kinds : DeclId → Option DeclKind) : Step → Error → Prop where
  | member {step : Step} {id : DeclId} : step.scope? = some id → kinds id ≠ some .contract →
      Fails kinds step (.unexpected id (.kind .contract))
  | bodyUnknown {id : DeclId} {body : Block} : kinds id = none →
      Fails kinds (.setBody id body) (.notFound id)
  | bodyOther {id : DeclId} {body : Block} {kind : DeclKind} : kinds id = some kind →
      kind ≠ .function → kind ≠ .modifier →
      Fails kinds (.setBody id body) (.unexpected id .callable)
  | valueUnknown {id : DeclId} {value : Expr} : kinds id = none →
      Fails kinds (.setValue id value) (.notFound id)
  | valueOther {id : DeclId} {value : Expr} {kind : DeclKind} : kinds id = some kind →
      kind ≠ .variable → Fails kinds (.setValue id value) (.unexpected id (.kind .variable))

/-- No step fails where it stands. -/
inductive Accepted : List Step → Prop where
  | nil : Accepted []
  | concat {before : List Step} {step : Step} : Accepted before →
      (∀ e, ¬ step.Fails (kindAfter before) e) → Accepted (before ++ [step])

/-- The error of the first step that fails where it stands. -/
inductive FirstError : List Step → Error → Prop where
  | intro {before : List Step} {step : Step} {e : Error} (after : List Step) : Accepted before →
      step.Fails (kindAfter before) e → FirstError (before ++ step :: after) e

/-- Steps are accepted, or one of them is the first to fail. -/
theorem accepted_or_firstError (steps : List Step) : Accepted steps ∨ ∃ e, FirstError steps e := by
  induction steps using List.reverseRecOn with
  | nil => exact .inl .nil
  | append_singleton before step ih =>
    rcases ih with haccepted | ⟨e, hfirst⟩
    · by_cases hfails : ∃ e, step.Fails (kindAfter before) e
      · obtain ⟨e, hfails⟩ := hfails
        exact .inr ⟨e, .intro [] haccepted hfails⟩
      · exact .inl (haccepted.concat fun e he => hfails ⟨e, he⟩)
    · obtain ⟨after, haccepted, hfails⟩ := hfirst
      refine .inr ⟨e, ?_⟩
      rw [List.append_assoc, List.cons_append]
      exact .intro _ haccepted hfails

end Step

namespace Draft

variable {d : Draft} {step : Step} {e : Error}

def kind? (d : Draft) (id : DeclId) : Option DeclKind := (d.tree.find? id).map Declaration.kind

/-- What an id names is told by the steps. -/
theorem kind_writeAll (steps : List Step) : (writeAll {} steps).1.kind? = kindAfter steps := by
  have hheadings : (writeAll {} steps).1.tree.headings = steps.filterMap Step.heading? := by
    rw [headings_writeAll]
    rfl
  funext id
  rw [kind?, kindAfter, Tree.find?, ← hheadings]
  cases id.index? with
  | none => rfl
  | some n => simp [Tree.headings, Declaration.heading, Function.comp_def]

theorem kind?_eq_contract {id : DeclId} :
    d.kind? id = some .contract ↔ (d.tree.contract? id).isSome = true := by
  rw [kind?, Tree.contract?]
  cases d.tree.find? id with
  | none => simp
  | some declaration => cases declaration <;> simp [Declaration.kind, Declaration.contract?]

/-! ### One step -/

theorem error_attach_of_contract {id : DeclId} {change : Contract → Contract}
    (h : d.kind? id = some .contract) : (d.attach id change).error = d.error := by
  obtain ⟨c, hc⟩ := Option.isSome_iff_exists.1 (kind?_eq_contract.1 h)
  rw [attach, hc]

theorem error_attach_of_other {id : DeclId} {change : Contract → Contract}
    (hd : d.error = none) (h : d.kind? id ≠ some .contract) :
    (d.attach id change).error = some (.unexpected id (.kind .contract)) := by
  have hnone : d.tree.contract? id = none := by
    by_contra hsome
    exact h (kind?_eq_contract.2 (Option.isSome_iff_ne_none.2 hsome))
  rw [attach, hnone, fail, hd]
  rfl

/-- The error that a declaring step leaves is the one that attaching its declaration leaves. -/
theorem error_write_of_heading {heading : DeclKind × String × Option DeclId}
    (h : step.heading? = some heading) :
    ∃ change, (d.write step).1.error = (d.attachTo heading.2.2 change).error := by
  cases step with
  | contract name kind isAbstract bases => cases h; exact ⟨id, rfl⟩
  | function spec => cases h; exact ⟨_, rfl⟩
  | modifier spec => cases h; exact ⟨_, rfl⟩
  | event scope name params => cases h; exact ⟨_, rfl⟩
  | «variable» spec => cases h; exact ⟨_, rfl⟩
  | setBody id body => cases h
  | setValue id value => cases h

/-- **A step that fails** makes its error, if none was made before. -/
theorem error_write_of_fails (hd : d.error = none) (h : step.Fails d.kind? e) :
    (d.write step).1.error = some e := by
  cases h with
  | member hscope hother =>
    obtain ⟨heading, hheading, hid⟩ := Option.bind_eq_some_iff.1 hscope
    obtain ⟨change, hwrite⟩ := error_write_of_heading hheading
    rw [hwrite, hid]
    exact error_attach_of_other hd hother
  | bodyUnknown hnone =>
    rw [kind?, Option.map_eq_none_iff] at hnone
    simp [write, setBody, hnone, fail, hd]
  | bodyOther hkind hfunction hmodifier =>
    obtain ⟨declaration, hfind, rfl⟩ := Option.map_eq_some_iff.1 hkind
    cases declaration with
    | function f => exact absurd rfl hfunction
    | modifier m => exact absurd rfl hmodifier
    | _ => simp [write, setBody, hfind, fail, hd]
  | valueUnknown hnone =>
    rw [kind?, Option.map_eq_none_iff] at hnone
    simp [write, setValue, hnone, fail, hd]
  | valueOther hkind hvariable =>
    obtain ⟨declaration, hfind, rfl⟩ := Option.map_eq_some_iff.1 hkind
    cases declaration with
    | «variable» v => exact absurd rfl hvariable
    | _ => simp [write, setValue, hfind, fail, hd]

/-- **A step that does not fail** makes no error. -/
theorem error_write_of_sound (h : ∀ e, ¬ step.Fails d.kind? e) :
    (d.write step).1.error = d.error := by
  cases hheading : step.heading? with
  | some heading =>
    obtain ⟨change, hwrite⟩ := error_write_of_heading (d := d) hheading
    rw [hwrite]
    cases hscope : heading.2.2 with
    | none => rfl
    | some id =>
      have hmember : step.scope? = some id := by
        rw [Step.scope?, hheading]
        exact hscope
      by_contra hne
      exact h _ (.member hmember fun hcontract => hne (error_attach_of_contract hcontract))
  | none =>
    cases step with
    | setBody id body =>
      cases hfind : d.tree.find? id with
      | none => exact absurd (.bodyUnknown (by simp [kind?, hfind])) (h _)
      | some declaration =>
        have hkind : d.kind? id = some declaration.kind := by simp [kind?, hfind]
        cases declaration with
        | function f => simp [write, setBody, hfind]
        | modifier m => simp [write, setBody, hfind]
        | _ => exact absurd (.bodyOther hkind (by simp [Declaration.kind])
            (by simp [Declaration.kind])) (h _)
    | setValue id value =>
      cases hfind : d.tree.find? id with
      | none => exact absurd (.valueUnknown (by simp [kind?, hfind])) (h _)
      | some declaration =>
        have hkind : d.kind? id = some declaration.kind := by simp [kind?, hfind]
        cases declaration with
        | «variable» v => simp [write, setValue, hfind]
        | _ => exact absurd (.valueOther hkind (by simp [Declaration.kind])) (h _)
    | _ => cases hheading

/-! ### All steps -/

/-- Accepted steps make no error. -/
theorem error_of_accepted {steps : List Step} (h : Step.Accepted steps) :
    (writeAll {} steps).1.error = none := by
  induction h with
  | nil => rfl
  | @concat before step _ hsound ih =>
    rw [← kind_writeAll] at hsound
    rw [writeAll_append]
    exact (error_write_of_sound hsound).trans ih

/-- **The first error stays.** -/
theorem error_of_firstError {steps : List Step} (h : Step.FirstError steps e) :
    (writeAll {} steps).1.error = some e := by
  cases h with
  | @intro before step _ after haccepted hfails =>
    rw [← kind_writeAll] at hfails
    have hfailed : ((writeAll {} before).1.write step).1.error = some e :=
      error_write_of_fails (error_of_accepted haccepted) hfails
    rw [writeAll_append]
    exact error_writeAll (d := ((writeAll {} before).1.write step).1) hfailed

/-- The answer to a step is the answer that it gets where it stands. -/
theorem answer_writeAll (d : Draft) (before : List Step) (step : Step) (after : List Step) :
    (d.writeAll (before ++ step :: after)).2[before.length]? =
      some ((d.writeAll before).1.write step).2 := by
  induction before generalizing d with
  | nil => rfl
  | cons s before ih => exact ih (d.write s).1

end Draft

/-! ### A sketch

A member is added to an id that only the next step declares as a contract.  A body is given to the
member, which is an event, and the contract inherits from itself. -/

namespace Sketch

def early : Step := .event (some ⟨1⟩) "Drawn" []

def sketch (id : DeclId) : Step := .contract "Sketch" .contract false [⟨id, []⟩]

def steps : List Step := [early, sketch ⟨1⟩, .setBody ⟨0⟩ [], .setValue ⟨-3⟩ (.literal {} "7")]

end Sketch

namespace Tree

/-- **The first error decides.**  Every declaring step answers the number of the declarations before
it.  The error of the first step that fails where it stands is what a program comes to.  If no step
fails, it comes to what the linearization makes of it. -/
theorem first_error_decides (steps : List Step) :
    (∀ before step after, steps = before ++ step :: after →
      (Draft.writeAll {} steps).2[before.length]? =
        some (step.heading?.map fun _ => .ofNat (before.filterMap Step.heading?).length)) ∧
    (Step.Accepted steps ∨ ∃ e, Step.FirstError steps e) ∧
    (∀ e, Step.FirstError steps e → ofSteps steps = .error e) ∧
    (Step.Accepted steps → ofSteps steps = (Draft.writeAll {} steps).1.tree.linearize) := by
  refine ⟨?_, Step.accepted_or_firstError steps, fun e hfirst => ?_, fun haccepted => ?_⟩
  · rintro before step after rfl
    rw [Draft.answer_writeAll, Draft.answer_write, Draft.nextId, size_eq_length_headings,
      Draft.headings_writeAll]
    rfl
  · rw [ofSteps, Draft.finish, Draft.error_of_firstError hfirst]
  · rw [ofSteps, Draft.finish, Draft.error_of_accepted haccepted]

/-- The sketch comes to its first error.  Without the event in front, nothing but the
inheritance is wrong with it. -/
theorem sketch_first_error_decides :
    ofSteps Sketch.steps = .error (.unexpected ⟨1⟩ (.kind .contract)) ∧
    (Draft.writeAll {} Sketch.steps).2[1]? = some (some ⟨1⟩) ∧
    ofSteps [Sketch.sketch ⟨0⟩] = (Draft.writeAll {} [Sketch.sketch ⟨0⟩]).1.tree.linearize ∧
    ofSteps [Sketch.sketch ⟨0⟩] = .error (.cyclicInheritance ⟨0⟩) := by
  obtain ⟨hanswers, _, hfirst, _⟩ := first_error_decides Sketch.steps
  obtain ⟨_, _, _, haccepted⟩ := first_error_decides [Sketch.sketch ⟨0⟩]
  refine ⟨hfirst _ ?_, hanswers [Sketch.early] _ _ rfl, haccepted ?_, by cbv⟩
  · exact @Step.FirstError.intro [] _ _ _ .nil (.member rfl (by decide))
  · refine .concat .nil fun e hfails => ?_
    cases hfails with
    | member hscope _ => cases hscope

end Tree

end ContractCalls
