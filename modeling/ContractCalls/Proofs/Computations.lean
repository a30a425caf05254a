import Mathlib.Algebra.Module.Submodule.Lattice
import Mathlib.Computability.TuringMachine.StackTuringMachine
import Mathlib.Data.List.Forall2
import Mathlib.Data.List.Permutation
import Std.Data.TreeMap.Iterator

/-!
# Computations that can fail

A computation has an answer or an error.  Of several that are made in turn (`mapM`), the first
that fails decides: `mapM_eq_ok_iff` and `mapM_eq_error_iff` say when all of them succeed, and when
they fail.

Concrete programs are evaluated by `cbv`, which opens functions of the library by their equations.
The equations of `List.tail`, `Option.isNone`, `Prod.snd`, `≤` and `toList` are in the modules
that are imported here.
-/

namespace ContractCalls

variable {ε α β γ : Type}

/-! ### One after the other -/

theorem bind_eq_ok {x : Except ε α} {f : α → Except ε β} {b : β} (h : x >>= f = .ok b) :
    ∃ a, x = .ok a ∧ f a = .ok b := by
  cases x with
  | error e => cases h
  | ok a => exact ⟨a, rfl, h⟩

theorem bind_eq_error {x : Except ε α} {f : α → Except ε β} {e : ε} (h : x >>= f = .error e) :
    x = .error e ∨ ∃ a, x = .ok a ∧ f a = .error e := by
  cases x with
  | error e' =>
    cases h
    exact .inl rfl
  | ok a => exact .inr ⟨a, rfl, h⟩

theorem map_bind (x : Except ε α) (f : α → Except ε β) (g : β → γ) :
    (x >>= f).map g = x >>= fun a => (f a).map g := by
  cases x <;> rfl

/-- Computations with the same outcome fail with the same error, or succeed both. -/
theorem cases_of_map_eq {x : Except ε α} {y : Except ε β} {f : α → γ} {g : β → γ}
    (h : x.map f = y.map g) : (∃ e, x = .error e ∧ y = .error e) ∨
      ∃ a b, x = .ok a ∧ y = .ok b ∧ f a = g b := by
  cases x with
  | error e =>
    cases y with
    | error e' => exact .inl ⟨e, rfl, congrArg _ (Except.error.inj h).symm⟩
    | ok b => cases h
  | ok a =>
    cases y with
    | error e' => cases h
    | ok b => exact .inr ⟨a, b, rfl, rfl, Except.ok.inj h⟩

/-! ### Answers of computations that succeed -/

theorem exists_ok_of_isOk {x : Except ε α} (h : x.isOk = true) : ∃ a, x = .ok a := by
  cases x with
  | error e => cases h
  | ok a => exact ⟨a, rfl⟩

theorem eq_ok_of_isOk {x : Except ε α} (h : x.isOk = true) (a : α) :
    x = .ok (x.toOption.getD a) := by
  cases x with
  | error e => cases h
  | ok a => rfl

/-! ### Several in turn -/

/-- A run succeeds if and only if all its parts do, each with its answer. -/
theorem mapM_eq_ok_iff {f : α → Except ε β} {as : List α} {bs : List β} :
    as.mapM f = .ok bs ↔ List.Forall₂ (fun a b => f a = .ok b) as bs := by
  induction as generalizing bs with
  | nil =>
    constructor
    · intro h
      cases h
      exact .nil
    · intro h
      cases h
      rfl
  | cons a as ih =>
    rw [List.mapM_cons]
    constructor
    · intro h
      obtain ⟨b, hb, h⟩ := bind_eq_ok h
      obtain ⟨rest, hrest, h⟩ := bind_eq_ok h
      cases h
      exact .cons hb (ih.1 hrest)
    · intro h
      cases h with
      | cons hb hrest =>
        rw [hb, ih.2 hrest]
        rfl

theorem mapM_cons_eq_error {f : α → Except ε β} {a : α} {as : List α} {e : ε} :
    (a :: as).mapM f = .error e ↔
      f a = .error e ∨ (∃ b, f a = .ok b) ∧ as.mapM f = .error e := by
  rw [List.mapM_cons]
  cases f a with
  | error e' => simp [bind, Except.bind]
  | ok b => cases as.mapM f <;> simp [bind, Except.bind, pure, Except.pure]

/-- A run fails if and only if one of its parts does, with the error of the first of them. -/
theorem mapM_eq_error_iff {f : α → Except ε β} {as : List α} {e : ε} :
    as.mapM f = .error e ↔ ∃ before a after, as = before ++ a :: after ∧ f a = .error e ∧
      ∀ x ∈ before, ∃ b, f x = .ok b := by
  induction as with
  | nil =>
    constructor
    · intro h
      cases h
    · rintro ⟨before, a, after, hnil, _⟩
      simp at hnil
  | cons a as ih =>
    rw [mapM_cons_eq_error, ih]
    constructor
    · rintro (ha | ⟨hok, before, x, after, rfl, hx, hbefore⟩)
      · exact ⟨[], a, as, rfl, ha, by simp⟩
      · exact ⟨a :: before, x, after, rfl, hx, List.forall_mem_cons.2 ⟨hok, hbefore⟩⟩
    · rintro ⟨before, x, after, hsplit, hx, hbefore⟩
      cases before with
      | nil =>
        cases hsplit
        exact .inl hx
      | cons y before =>
        cases hsplit
        obtain ⟨hok, hbefore⟩ := List.forall_mem_cons.1 hbefore
        exact .inr ⟨hok, before, x, after, rfl, hx, hbefore⟩

theorem exists_of_mapM_eq_error {f : α → Except ε β} {as : List α} {e : ε}
    (h : as.mapM f = .error e) : ∃ a ∈ as, f a = .error e := by
  obtain ⟨before, a, after, rfl, ha, _⟩ := mapM_eq_error_iff.1 h
  exact ⟨a, by simp, ha⟩

theorem exists_of_forall₂ {R : α → β → Prop} {as : List α} {bs : List β}
    (h : List.Forall₂ R as bs) {b : β} (hb : b ∈ bs) : ∃ a ∈ as, R a b := by
  induction h with
  | nil => cases hb
  | @cons a b' as bs hab _ ih =>
    rcases List.mem_cons.1 hb with rfl | hb
    · exact ⟨a, List.mem_cons_self, hab⟩
    · obtain ⟨a', ha', hab'⟩ := ih hb
      exact ⟨a', List.mem_cons_of_mem a ha', hab'⟩

theorem exists_of_mem_mapM {f : α → Except ε β} {as : List α} {bs : List β}
    (h : as.mapM f = .ok bs) {b : β} (hb : b ∈ bs) : ∃ a ∈ as, f a = .ok b :=
  exists_of_forall₂ (mapM_eq_ok_iff.1 h) hb

theorem exists_mem_of_mapM {f : α → Except ε β} {as : List α} {bs : List β}
    (h : as.mapM f = .ok bs) {a : α} (ha : a ∈ as) : ∃ b ∈ bs, f a = .ok b :=
  exists_of_forall₂ (List.Forall₂.flip (mapM_eq_ok_iff.1 h)) ha

/-- A run that succeeds gives the same answers when all its parts do. -/
theorem mapM_eq_ok {f f' : α → Except ε β} {as : List α} {bs : List β}
    (h : ∀ a b, f a = .ok b → f' a = .ok b) (hf : as.mapM f = .ok bs) : as.mapM f' = .ok bs :=
  mapM_eq_ok_iff.2 ((mapM_eq_ok_iff.1 hf).imp h)

theorem mapM_map_answers {f : α → Except ε β} {f' : α → Except ε γ} {change : β → γ}
    (h : ∀ a, f' a = (f a).map change) (as : List α) :
    as.mapM f' = (as.mapM f).map (List.map change) := by
  induction as with
  | nil => rfl
  | cons a as ih =>
    rw [List.mapM_cons, List.mapM_cons, h, ih]
    cases f a with
    | error e => rfl
    | ok b => cases as.mapM f <;> rfl

/-- Runs that both succeed give related answers. -/
theorem forall₂_of_mapM {R : β → γ → Prop} {f : α → Except ε β} {f' : α → Except ε γ}
    (h : ∀ a b c, f a = .ok b → f' a = .ok c → R b c) {as : List α} {bs : List β} {cs : List γ}
    (hf : as.mapM f = .ok bs) (hf' : as.mapM f' = .ok cs) : List.Forall₂ R bs cs := by
  have hparts := mapM_eq_ok_iff.1 hf
  replace hf' := mapM_eq_ok_iff.1 hf'
  clear hf
  induction hparts generalizing cs with
  | nil =>
    cases hf'
    exact .nil
  | cons hb _ ih =>
    cases hf' with
    | cons hc hrest => exact .cons (h _ _ _ hb hc) (ih hrest)

end ContractCalls
