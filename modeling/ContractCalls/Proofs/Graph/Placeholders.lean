import ContractCalls.Proofs.Code.Walks
import ContractCalls.Proofs.Graph.Connected

/-!
# Placeholders

Whether a block has a placeholder is told by a recursion of its own, and what a visitor is shown by
the walks.  `placeholders_are_detected` says that these agree: a block has a placeholder if and only
if a walk shows one, for every visitor that does not fail, whatever it answers.  So it does not
matter for a modifier that is attached to a function whether the way back to the function is read
off the one or the other.

A visitor that answers `false` is not shown what lies below a call or an `emit`.  But only
expressions lie there, and no placeholder occurs in an expression (`Sight.placeholder_not_mem_below`);
so what is passed with a sight holds a placeholder only if the sight is one.  And where nothing fails,
all that there is to see is passed (`Shown.covered_eq`).
-/

namespace ContractCalls

variable {ε σ : Type} {visit : Visitor (ExceptT ε (StateM σ))} {s : σ} {p : Piece}

/-! ### What there is to see -/

theorem Piece.placeholder_mem_sights :
    .placeholder ∈ p.sights ↔ .placeholder ∈ p.occurrences := by
  rw [← map_occurrence_sights, List.mem_map]
  constructor
  · exact fun h => ⟨.placeholder, h, rfl⟩
  · rintro ⟨x, hx, hplaceholder⟩
    cases x with
    | placeholder => exact hx
    | _ => cases hplaceholder

/-- **No placeholder lies below a call or an `emit`.** -/
theorem Sight.placeholder_not_mem_below (x : Sight) : .placeholder ∉ x.below := by
  intro h
  obtain ⟨q, hq, hplaceholder⟩ := List.mem_flatMap.1 h
  have hexpr : ∃ e, q = .expr e := by
    cases x with
    | call note callee args kind =>
      rcases List.mem_cons.1 hq with rfl | hq
      · exact ⟨callee, rfl⟩
      · obtain ⟨a, _, rfl⟩ := List.mem_map.1 hq
        exact ⟨a, rfl⟩
    | emission event =>
      cases List.mem_singleton.1 hq
      exact ⟨event, rfl⟩
    | _ => cases hq
  obtain ⟨e, rfl⟩ := hexpr
  exact e.placeholder_not_mem_occurrences (Piece.placeholder_mem_sights.1 hplaceholder)

/-- What is passed with a sight holds a placeholder only if the sight is one. -/
theorem Log.placeholder_mem_covered {entry : Sight × Except ε Bool} :
    .placeholder ∈ covered entry ↔ entry.1 = .placeholder := by
  obtain ⟨x, answer⟩ := entry
  have hself : .placeholder ∈ x :: x.below ↔ x = .placeholder := by
    rw [List.mem_cons, or_iff_left x.placeholder_not_mem_below, eq_comm]
  have hone : Sight.placeholder ∈ [x] ↔ x = .placeholder := by
    rw [List.mem_singleton, eq_comm]
  cases answer with
  | error e => exact hone
  | ok answer =>
    cases answer with
    | true => exact hone
    | false => exact hself

/-! ### What is shown -/

/-- The visitor answers whatever it is shown. -/
def Visitor.NeverFails (visit : Visitor (ExceptT ε (StateM σ))) : Prop :=
  ∀ x s, ∃ answer, ((visit x).run.run s).1 = .ok answer

/-- A walk shows the sight to the visitor at least once. -/
def Piece.Shows (visit : Visitor (ExceptT ε (StateM σ))) (p : Piece) (s : σ) (x : Sight) : Prop :=
  ∃ answer, (x, answer) ∈ p.log visit s

theorem Visitor.NeverFails.run_readAll (h : visit.NeverFails) (sights : List Sight) (s : σ) :
    ((visit.readAll sights).run.run s).1 = .ok () := by
  induction hn : sights.length using Nat.strongRecOn generalizing sights s with
  | _ n ih =>
    cases sights with
    | nil => rw [run_readAll_nil]
    | cons x rest =>
      have hrest : rest.length < n := hn ▸ Nat.lt_succ_self _
      have hdrop : (rest.drop x.below.length).length < n :=
        Nat.lt_of_le_of_lt (List.drop_sublist _ _).length_le hrest
      obtain ⟨answer, hanswer⟩ := h x s
      rw [run_readAll_cons]
      generalize (visit x).run.run s = fired at hanswer
      obtain ⟨result, s'⟩ := fired
      subst hanswer
      cases answer with
      | true => exact ih _ hrest rest s' rfl
      | false => exact ih _ hdrop _ s' rfl

/-- The log of a walk that comes to its end has no failure. -/
theorem Shown.answers_of_ok {sights : List Sight} {log : Log ε} {result : Except ε Unit}
    (h : Shown sights log result) (hok : result = .ok ()) :
    ∀ entry ∈ log, ∃ answer, entry.2 = .ok answer := by
  induction h with
  | done => exact fun entry hentry => absurd hentry List.not_mem_nil
  | goOn _ ih => exact List.forall_mem_cons.2 ⟨⟨true, rfl⟩, ih hok⟩
  | skip _ ih => exact List.forall_mem_cons.2 ⟨⟨false, rfl⟩, ih hok⟩
  | fail => cases hok

theorem Piece.shown_log (visit : Visitor (ExceptT ε (StateM σ))) (p : Piece) (s : σ) :
    Shown p.sights (p.log visit s) (p.run visit s).1 := by
  obtain ⟨log, hrecorded, hshown⟩ := visit.exists_shown p.nested_sights s []
  rw [Visitor.readAll_sights, Visitor.readAll_sights] at hrecorded
  rw [Visitor.readAll_sights] at hshown
  have hlog : p.log visit s = log := congrArg (·.2.2) hrecorded
  rw [hlog]
  exact hshown

/-- **A walk shows a placeholder if there is one to see.** -/
theorem Visitor.NeverFails.shows_placeholder (h : visit.NeverFails) :
    p.Shows visit s .placeholder ↔ .placeholder ∈ p.occurrences := by
  have hok : (p.run visit s).1 = .ok () := by
    rw [Piece.run, ← Visitor.readAll_sights]
    exact h.run_readAll p.sights s
  have hshown := p.shown_log visit s
  obtain ⟨hcovered, _⟩ := hshown.covered_eq (hshown.answers_of_ok hok)
  rw [← Piece.placeholder_mem_sights, ← hcovered, List.mem_flatMap]
  constructor
  · rintro ⟨answer, hentry⟩
    exact ⟨_, hentry, Log.placeholder_mem_covered.2 rfl⟩
  · rintro ⟨⟨x, answer⟩, hentry, hplaceholder⟩
    cases Log.placeholder_mem_covered.1 hplaceholder
    exact ⟨answer, hentry⟩

/-! ### The way back -/

/-- The way back from a modifier that is attached is a call site if the modifier has a
placeholder. -/
theorem Resolver.goesOn_iff_site {r : Resolver} {i : Invocation} {function declared target : DeclId}
    (h : r.Attaches i declared target) :
    .site ⟨.callable target, .placeholder, .exact function⟩ ∈ r.ofInvocation (.callable function) i ↔
      r.tree.GoesOn target := by
  rw [site_mem_ofInvocation]
  constructor
  · rintro ⟨declared', target', _, heq | ⟨hgoes, heq⟩⟩
    · cases heq
    · cases heq
      exact hgoes
  · exact fun hgoes => ⟨declared, target, h, .inr ⟨hgoes, rfl⟩⟩

/-- **Placeholders are detected as a walk shows them**, at any depth and in every form of statement,
to any visitor that does not fail.  So a modifier that is attached to a function leads back to it if
and only if a walk of its body shows a placeholder. -/
theorem placeholders_are_detected (visit : Visitor (ExceptT ε (StateM σ)))
    (hvisit : visit.NeverFails) (s : σ) :
    (∀ body : Block, body.hasPlaceholder = true ↔ (Piece.block body).Shows visit s .placeholder) ∧
    ∀ (r : Resolver) (i : Invocation) (function declared target : DeclId) (m : Modifier),
      r.Attaches i declared target → r.tree.modifier? target = some m →
        (.site ⟨.callable target, .placeholder, .exact function⟩ ∈
            r.ofInvocation (.callable function) i ↔
          (Piece.modifier m).Shows visit s .placeholder) := by
  constructor
  · intro body
    rw [hvisit.shows_placeholder, ← Block.placeholder_mem_occurrences]
    rfl
  · intro r i function declared target m hattaches hm
    have hgoes : r.tree.GoesOn target ↔ m.hasPlaceholder = true := by
      simp only [Tree.GoesOn, hm, Option.some.injEq, exists_eq_left', Modifier.hasPlaceholder_iff]
    rw [hvisit.shows_placeholder, Resolver.goesOn_iff_site hattaches, hgoes,
      ← Modifier.placeholder_mem_occurrences]
    rfl

/-! ### A doorway

A body with a placeholder in the head of a loop in a block without checks, behind an `emit`, and a
visitor that keeps out of everything. -/

namespace Doorway

/-- Keeps out of everything, and counts what it is shown. -/
def shy : Visitor (ExceptT Nat (StateM Nat)) := fun _ => do
  modify (· + 1)
  pure false

theorem neverFails_shy : shy.NeverFails := fun _ _ => ⟨false, rfl⟩

def rung : Stmt := .emit (.eventCall "Rung" ⟨8⟩ [])

def body : Block :=
  [ rung,
    .unchecked
      [.forLoop (some (.branch (.plain "ajar" none) (.block [.placeholder]) none)) none none
        .breakLoop] ]

def guarded : Invocation := ⟨⟨"guarded", some ⟨2⟩, .virtual⟩, []⟩

theorem exists_resolver : ∃ r : Resolver, r.tree = Token.tree ∧ r.Attaches guarded ⟨2⟩ ⟨2⟩ := by
  have h : (Token.tree.resolver ⟨4⟩).toOption.map (·.resolveVirtual ⟨2⟩) = some ⟨2⟩ := by cbv
  have hmodifier : (Token.tree.modifier? ⟨2⟩).isSome = true := by cbv
  cases hr : Token.tree.resolver ⟨4⟩ with
  | error e =>
    rw [hr] at h
    cases h
  | ok r =>
    rw [hr] at h
    obtain ⟨_, htree, _⟩ :=
      Resolver.fits_of_resolver (Tree.wellFormed_of_ofSteps Token.ofSteps_steps) hr
    refine ⟨r, htree, rfl, htree ▸ hmodifier, ?_⟩
    exact congrArg Except.ok (Option.some.inj h)

end Doorway

/-- The shy visitor is shown the placeholder in the doorway, and the one for which the modifier of
the token leads back to the function that mints. -/
theorem doorway_placeholders_are_detected :
    (Piece.block Doorway.body).Shows Doorway.shy 0 .placeholder ∧
    ¬ (Piece.block [Doorway.rung]).Shows Doorway.shy 0 .placeholder ∧
    ∃ (r : Resolver) (m : Modifier), r.Attaches Doorway.guarded ⟨2⟩ ⟨2⟩ ∧ Token.tree.modifier? ⟨2⟩ = some m ∧
      (Piece.modifier m).Shows Doorway.shy 0 .placeholder ∧
      .site ⟨.callable ⟨2⟩, .placeholder, .exact ⟨6⟩⟩ ∈
        r.ofInvocation (.callable ⟨6⟩) Doorway.guarded := by
  obtain ⟨hblock, hattached⟩ := placeholders_are_detected Doorway.shy Doorway.neverFails_shy 0
  refine ⟨(hblock _).1 (by decide), fun h => absurd ((hblock _).2 h) (by decide), ?_⟩
  obtain ⟨r, htree, hattaches⟩ := Doorway.exists_resolver
  have hsome : (Token.tree.modifier? ⟨2⟩).any Modifier.hasPlaceholder = true := by cbv
  obtain ⟨m, hm, hplaceholder⟩ := (Option.any_eq_true ..).1 hsome
  have hshows : (Piece.modifier m).Shows Doorway.shy 0 .placeholder :=
    Doorway.neverFails_shy.shows_placeholder.2 (Modifier.placeholder_mem_occurrences.2 hplaceholder)
  exact ⟨r, m, hattaches, hm, hshows, (hattached r _ _ _ _ m hattaches (htree ▸ hm)).2 hshows⟩

end ContractCalls
