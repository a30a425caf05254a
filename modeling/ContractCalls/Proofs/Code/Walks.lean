import ContractCalls.Proofs.Code.Pieces

/-!
# What a walk shows

The walks go through code by cases on its form, and each of them calls the others.  Yet a walk is
a loop over one list: `Visitor.readAll_sights_append` says so for visitors into any lawful monad, by
induction along parts.  The loop shows the sights of the piece one after the other, and where the
visitor says `false` it passes over what lies below.

`walks_show_in_order` tells what this comes to for a visitor that has a state and can fail.  A
`Log` of what it was shown is kept without an effect on the walk (`Visitor.recorded`), and the
relation `Shown` between the sights, the log and the result follows the loop step by step
(`Visitor.exists_shown`).
-/

namespace ContractCalls

/-- Takes a visitor through a piece of code. -/
def Piece.walk {m : Type → Type} [Monad m] (visit : Visitor m) : Piece → m Unit
  | expr e => e.walk visit
  | stmt s => s.walk visit
  | block body => body.walk visit
  | invocation i => i.walk visit
  | function f => f.walk visit
  | modifier c => c.walk visit

namespace Visitor

variable {m : Type → Type} [Monad m] (visit : Visitor m)

/-! ### Parts -/

theorem walkList_eq (es : List Expr) :
    Expr.walkList visit es = (es.map Piece.expr).forM (Piece.walk visit) := by
  induction es with
  | nil => rfl
  | cons e es ih => rw [Expr.walkList, ih]; rfl

theorem walkBlock_eq (body : List Stmt) :
    Stmt.walkBlock visit body = (body.map Piece.stmt).forM (Piece.walk visit) := by
  induction body with
  | nil => rfl
  | cons s body ih => rw [Stmt.walkBlock, ih]; rfl

variable [LawfulMonad m]

theorem walkOption_eq (e : Option Expr) :
    Expr.walkOption visit e = (e.toList.map Piece.expr).forM (Piece.walk visit) := by
  cases e with
  | none => rfl
  | some e => simp [Expr.walkOption, Piece.walk]

theorem walkItems_eq (es : List (Option Expr)) :
    Expr.walkItems visit es = (es.reduceOption.map Piece.expr).forM (Piece.walk visit) := by
  induction es with
  | nil => rfl
  | cons e es ih => cases e <;> simp [Expr.walkItems, Expr.walkOption, ih, Piece.walk]

theorem walkOptionStmt_eq (s : Option Stmt) :
    Stmt.walkOption visit s = (s.toList.map Piece.stmt).forM (Piece.walk visit) := by
  cases s with
  | none => rfl
  | some s => simp [Stmt.walkOption, Piece.walk]

theorem walkBody_eq (body : Option Block) :
    Block.walk visit (body.getD []) = (body.toList.map Piece.block).forM (Piece.walk visit) := by
  cases body with
  | none => rfl
  | some body => simp [Piece.walk]

/-- A walk of a call or an `emit` shows it, and then walks its parts if the visitor says so. -/
theorem walk_of_opening {p : Piece} {x : Sight} (h : p.opening = some x) :
    p.walk visit = visit.node x (p.parts.forM (Piece.walk visit)) := by
  cases p with
  | expr e =>
    cases e with
    | call note callee args kind =>
      cases h
      rw [Piece.walk, Expr.walk, walkList_eq]
      rfl
    | _ => cases h
  | stmt s =>
    cases s with
    | emit event =>
      cases h
      simp [Piece.walk, Stmt.walk, Piece.parts]
    | _ => cases h
  | _ => cases h

/-- A walk of anything else walks its parts, and then shows what is shown last. -/
theorem walk_of_no_opening {p : Piece} (h : p.opening = none) : p.walk visit = (do
    p.parts.forM (Piece.walk visit)
    p.closing.toList.forM visit.leaf) := by
  cases p with
  | expr e =>
    cases e with
    | call => cases h
    | _ =>
      simp [Piece.walk, Expr.walk, Piece.parts, Piece.closing, walkOption_eq, walkItems_eq]
  | stmt s =>
    cases s with
    | emit => cases h
    | _ =>
      simp [Piece.walk, Stmt.walk, Block.walk, Piece.parts, Piece.closing, walkBlock_eq,
        walkOption_eq, walkOptionStmt_eq]
  | block body => simp [Piece.walk, Block.walk, Piece.parts, Piece.closing, walkBlock_eq]
  | invocation i => simp [Piece.walk, Invocation.walk, Piece.parts, Piece.closing, walkList_eq]
  | function f => simp [Piece.walk, Function.walk, Piece.parts, Piece.closing, walkBody_eq]
  | modifier c => simp [Piece.walk, Modifier.walk, Piece.parts, Piece.closing, walkBody_eq]

/-! ### One list -/

def readAll (visit : Visitor m) : List Sight → m Unit
  | [] => pure ()
  | x :: rest => do
    if ← visit x then readAll visit rest else readAll visit (rest.drop x.below.length)
termination_by l => l.length

theorem readAll_flatMap {ps : List Piece}
    (h : ∀ p ∈ ps, ∀ rest, visit.readAll (p.sights ++ rest) = (do
      p.walk visit
      visit.readAll rest))
    (rest : List Sight) : visit.readAll (ps.flatMap Piece.sights ++ rest) = (do
      ps.forM (Piece.walk visit)
      visit.readAll rest) := by
  induction ps with
  | nil => simp
  | cons p ps ih =>
    rw [List.flatMap_cons, List.append_assoc, h p List.mem_cons_self,
      ih fun q hq => h q (List.mem_cons_of_mem p hq)]
    simp

/-- **A walk reads what there is to see**, one after the other. -/
theorem readAll_sights_append (p : Piece) (rest : List Sight) :
    visit.readAll (p.sights ++ rest) = (do
      p.walk visit
      visit.readAll rest) := by
  induction p using Piece.induction generalizing rest with
  | h p ih =>
    have hparts := visit.readAll_flatMap ih
    cases hopening : p.opening with
    | some x =>
      have hbelow : x.below = p.parts.flatMap Piece.sights := by
        rw [Sight.below, (Piece.opening_eq_some hopening).1]
      rw [Piece.sights_of_opening hopening, List.cons_append, readAll, walk_of_opening _ hopening,
        List.drop_left, hbelow, hparts, node, bind_assoc]
      refine bind_congr fun answer => ?_
      cases answer <;> simp
    | none =>
      rw [Piece.sights_eq, hopening, walk_of_no_opening _ hopening, bind_assoc]
      refine (congrArg visit.readAll (List.append_assoc ..)).trans ((hparts _).trans ?_)
      refine bind_congr fun _ => ?_
      cases hclosing : p.closing with
      | none => simp
      | some x =>
        have hbelow : x.below = [] := by rw [Sight.below, Piece.under_of_closing hclosing]; rfl
        simp [readAll, leaf, hbelow]

theorem readAll_sights (p : Piece) : visit.readAll p.sights = p.walk visit := by
  have h := visit.readAll_sights_append p []
  rw [List.append_nil] at h
  simpa [readAll] using h

end Visitor

/-! ### What was shown -/

namespace Sight

/-- The visitor is asked whether to go on below. -/
def asks : Sight → Bool
  | call .. | emission _ => true
  | _ => false

theorem below_of_not_asks {x : Sight} (h : x.asks = false) : x.below = [] := by
  cases x with
  | call | emission => cases h
  | _ => rfl

end Sight

/-- What a visitor that can fail was shown, each with its answer. -/
abbrev Log (ε : Type) := List (Sight × Except ε Bool)

variable {ε σ : Type}

namespace Log

/-- What is passed with a sight: the sight itself, and after a `false` all that lies below it. -/
def covered : Sight × Except ε Bool → List Sight
  | (x, .ok false) => x :: x.below
  | (x, _) => [x]

theorem covered_of_goesOn {entry : Sight × Except ε Bool}
    (h : ∃ answer, entry.2 = .ok answer ∧ (entry.1.asks = true → answer = true)) :
    covered entry = [entry.1] := by
  obtain ⟨x, _⟩ := entry
  obtain ⟨answer, rfl, hanswer⟩ := h
  cases answer with
  | true => rfl
  | false =>
    have hasks : x.asks = false := by
      by_contra hne
      cases hanswer (eq_true_of_ne_false hne)
    rw [covered, Sight.below_of_not_asks hasks]

end Log

open Log

/-- The log of a visitor to which these sights are shown, and how this ends. -/
inductive Shown : List Sight → Log ε → Except ε Unit → Prop where
  | done : Shown [] [] (.ok ())
  | goOn {x : Sight} {rest : List Sight} {log : Log ε} {result : Except ε Unit} :
      Shown rest log result → Shown (x :: rest) ((x, .ok true) :: log) result
  | skip {x : Sight} {rest : List Sight} {log : Log ε} {result : Except ε Unit} :
      Shown rest log result → Shown (x :: (x.below ++ rest)) ((x, .ok false) :: log) result
  | fail {x : Sight} {rest : List Sight} {e : ε} : Shown (x :: rest) [(x, .error e)] (.error e)

namespace Shown

variable {sights : List Sight} {log : Log ε} {result : Except ε Unit}

/-- What was shown comes to a beginning of what there is to see. -/
theorem covered_prefix (h : Shown sights log result) : log.flatMap covered <+: sights := by
  induction h with
  | done => exact List.prefix_rfl
  | goOn _ ih => exact (List.prefix_cons_inj _).2 ih
  | skip _ ih => exact (List.prefix_cons_inj _).2 ((List.prefix_append_right_inj _).2 ih)
  | fail => exact ⟨_, rfl⟩

/-- Without a failure it comes to all of it. -/
theorem covered_eq (h : Shown sights log result)
    (hok : ∀ entry ∈ log, ∃ answer, entry.2 = .ok answer) :
    log.flatMap covered = sights ∧ result = .ok () := by
  induction h with
  | done => exact ⟨rfl, rfl⟩
  | goOn _ ih =>
    obtain ⟨hcovered, hresult⟩ := ih fun entry h => hok entry (List.mem_cons_of_mem _ h)
    exact ⟨congrArg _ hcovered, hresult⟩
  | skip _ ih =>
    obtain ⟨hcovered, hresult⟩ := ih fun entry h => hok entry (List.mem_cons_of_mem _ h)
    exact ⟨congrArg _ (congrArg _ hcovered), hresult⟩
  | fail =>
    obtain ⟨answer, hanswer⟩ := hok _ List.mem_cons_self
    cases hanswer

theorem of_error (h : Shown sights log result) {k : Nat} {x : Sight} {e : ε}
    (hk : log[k]? = some (x, .error e)) : log.length = k + 1 ∧ result = .error e := by
  induction h generalizing k with
  | done => cases hk
  | goOn _ ih | skip _ ih =>
    cases k with
    | zero => cases hk
    | succ k =>
      obtain ⟨hlength, hresult⟩ := ih hk
      exact ⟨congrArg (· + 1) hlength, hresult⟩
  | fail =>
    cases k with
    | zero => cases hk; exact ⟨rfl, rfl⟩
    | succ k => cases hk

end Shown

namespace Visitor

/-- The visitor, with a log of what it was shown. -/
def recorded (visit : Visitor (ExceptT ε (StateM σ))) :
    Visitor (ExceptT ε (StateM (σ × Log ε))) := fun x => ExceptT.mk fun s =>
  let fired := (visit x).run.run s.1
  (fired.1, fired.2, s.2 ++ [(x, fired.1)])

theorem run_readAll_nil (visit : Visitor (ExceptT ε (StateM σ))) (s : σ) :
    (visit.readAll []).run.run s = (.ok (), s) := by
  rw [readAll]
  rfl

/-- One sight after the other, told by states. -/
theorem run_readAll_cons (visit : Visitor (ExceptT ε (StateM σ))) (x : Sight) (rest : List Sight)
    (s : σ) : (visit.readAll (x :: rest)).run.run s =
      match (visit x).run.run s with
      | (.error e, s') => (.error e, s')
      | (.ok true, s') => (visit.readAll rest).run.run s'
      | (.ok false, s') => (visit.readAll (rest.drop x.below.length)).run.run s' := by
  rw [readAll, ExceptT.run_bind, StateT.run_bind]
  rcases (visit x).run.run s with ⟨e | answer, s'⟩
  · rfl
  · cases answer <;> rfl

/-- **The log of a walk.**  Keeping it changes neither the state nor the result. -/
theorem exists_shown (visit : Visitor (ExceptT ε (StateM σ))) {sights : List Sight}
    (hnested : Nested sights) (s : σ) (log : Log ε) :
    ∃ new, (visit.recorded.readAll sights).run.run (s, log) =
        (((visit.readAll sights).run.run s).1, ((visit.readAll sights).run.run s).2, log ++ new) ∧
      Shown sights new ((visit.readAll sights).run.run s).1 := by
  induction hlength : sights.length using Nat.strongRecOn generalizing sights s log with
  | _ n ih =>
    cases hnested with
    | nil =>
      rw [run_readAll_nil, run_readAll_nil]
      exact ⟨[], by rw [List.append_nil], .done⟩
    | @cons x rest hbelow hrest =>
      have hrecorded : (visit.recorded x).run.run (s, log) = (((visit x).run.run s).1,
          ((visit x).run.run s).2, log ++ [(x, ((visit x).run.run s).1)]) := rfl
      rw [run_readAll_cons, run_readAll_cons, hrecorded]
      rcases (visit x).run.run s with ⟨e | answer, s'⟩
      · exact ⟨[(x, .error e)], rfl, .fail⟩
      · cases answer with
        | true =>
          have hlt : rest.length < n := hlength ▸ Nat.lt_succ_self _
          obtain ⟨new, hnew, hshown⟩ := ih _ hlt hrest s' (log ++ [(x, .ok true)]) rfl
          refine ⟨(x, .ok true) :: new, ?_, .goOn hshown⟩
          simpa using hnew
        | false =>
          obtain ⟨rest, rfl⟩ := hbelow
          rw [List.drop_left]
          have hlt : rest.length < n := by
            rw [← hlength, List.length_cons, List.length_append]
            omega
          obtain ⟨new, hnew, hshown⟩ := ih _ hlt hrest.of_append s' (log ++ [(x, .ok false)]) rfl
          refine ⟨(x, .ok false) :: new, ?_, .skip hshown⟩
          simpa using hnew

end Visitor

namespace Piece

def run (visit : Visitor (ExceptT ε (StateM σ))) (p : Piece) (s : σ) : Except ε Unit × σ :=
  (p.walk visit).run.run s

/-- What a walk shows, each with the answer to it. -/
def log (visit : Visitor (ExceptT ε (StateM σ))) (p : Piece) (s : σ) : Log ε :=
  (p.run visit.recorded (s, [])).2.2

end Piece

/-- The log goes through the sights in their order, and comes to this result. -/
structure ShowsInOrder (sights : List Sight) (log : Log ε) (result : Except ε Unit) : Prop where
  /-- If nothing fails and nothing that asks is told `false`, each sight is shown once. -/
  all : (∀ entry ∈ log, ∃ answer, entry.2 = .ok answer ∧ (entry.1.asks = true → answer = true)) →
    log.map Prod.fst = sights ∧ result = .ok ()
  /-- If nothing fails, what lies below a `false` is left out and nothing else. -/
  pruned : (∀ entry ∈ log, ∃ answer, entry.2 = .ok answer) →
    log.flatMap covered = sights ∧ result = .ok ()
  /-- What fails is shown last, and its error is the result. -/
  failed : ∀ k x e, log[k]? = some (x, .error e) → log.length = k + 1 ∧ result = .error e
  /-- Up to there, too, what lies below a `false` is left out and nothing else. -/
  started : log.flatMap covered <+: sights

/-- **Walks show everything once and in order.**  Keeping a log has no effect on a walk.  The log
goes through the sights of the piece in their order, without those below a `false`, and stops at the
first failure.  What lies below a sight follows it at once. -/
theorem walks_show_in_order (visit : Visitor (ExceptT ε (StateM σ))) (p : Piece) (s : σ) :
    p.run visit.recorded (s, []) = ((p.run visit s).1, (p.run visit s).2, p.log visit s) ∧
    ShowsInOrder p.sights (p.log visit s) (p.run visit s).1 ∧
    ∀ before x after, p.sights = before ++ x :: after → x.below <+: after := by
  obtain ⟨log, hrecorded, hshown⟩ := visit.exists_shown p.nested_sights s []
  rw [Visitor.readAll_sights, Visitor.readAll_sights] at hrecorded
  rw [Visitor.readAll_sights] at hshown
  have hlog : p.log visit s = log := congrArg (·.2.2) hrecorded
  rw [hlog]
  refine ⟨hrecorded, ⟨fun hall => ?_, hshown.covered_eq, fun k x e => hshown.of_error,
    hshown.covered_prefix⟩, ?_⟩
  · obtain ⟨hcovered, hresult⟩ := hshown.covered_eq fun entry h => by
      obtain ⟨answer, hanswer, _⟩ := hall entry h
      exact ⟨answer, hanswer⟩
    refine ⟨?_, hresult⟩
    rw [List.map_eq_flatMap, ← hcovered]
    exact List.flatMap_congr fun entry h => (covered_of_goesOn (hall entry h)).symm
  · intro before x after hsights
    have hnested := p.nested_sights
    rw [hsights] at hnested
    exact hnested.below_prefix

/-! ### A turnstile

A function with an invocation, an `emit` and a branch that returns what it makes.  One visitor looks
at everything, the other one keeps out of the `emit` and fails when it has been shown enough. -/

namespace Turnstile

def passed : Expr := .eventCall "Passed" ⟨8⟩ []

def only : Invocation := ⟨⟨"only", some ⟨6⟩, .virtual⟩, [.plain "owner" (some ⟨7⟩)]⟩

def pass : Piece := .function
  ⟨⟨5⟩, "pass", some ⟨0⟩, .function, .public, false, [], [], [only],
    some
      [ .emit passed,
        .branch (.plain "ready" (some ⟨9⟩))
          (.returnValue (some (.newContract "Ticket" ⟨10⟩ []))) (some .breakLoop) ]⟩

/-- Looks at everything. -/
def curious : Visitor (ExceptT Nat (StateM Nat)) := fun _ => pure true

/-- Keeps out of an `emit`, and fails when so much was shown before. -/
def wary (limit : Nat) : Visitor (ExceptT Nat (StateM Nat)) := fun x => do
  let shown ← get
  set (shown + 1)
  if shown = limit then throw shown
  match x with
  | .emission _ => pure false
  | _ => pure true

end Turnstile

/-- The turnstile has eight sights.  Of these the wary visitor is shown the fourth in the place of
the sixth, and there it fails. -/
theorem turnstile_walks_show_in_order :
    (Turnstile.pass.log Turnstile.curious 0).map Prod.fst = Turnstile.pass.sights ∧
    Turnstile.pass.sights.length = 8 ∧
    (Turnstile.pass.log (Turnstile.wary 3) 0).length = 4 ∧
    (Turnstile.pass.run (Turnstile.wary 3) 0).1 = .error 3 := by
  obtain ⟨_, hcurious, _⟩ := walks_show_in_order Turnstile.curious Turnstile.pass 0
  obtain ⟨_, hwary, _⟩ := walks_show_in_order (Turnstile.wary 3) Turnstile.pass 0
  have hyes : (Turnstile.pass.log Turnstile.curious 0).all
      (fun entry => entry.2.toOption == some true) = true := by decide
  have hready : (Turnstile.pass.log (Turnstile.wary 3) 0)[3]? =
      some (.identifier {} ⟨"ready", some ⟨9⟩, .virtual⟩, .error 3) := by decide
  obtain ⟨hlength, hresult⟩ := hwary.failed _ _ _ hready
  refine ⟨(hcurious.all fun entry h => ⟨true, ?_, fun _ => rfl⟩).1, by decide +kernel, hlength, hresult⟩
  have hentry := List.all_eq_true.1 hyes entry h
  cases hanswer : entry.2 with
  | error e => simp [hanswer, Except.toOption] at hentry
  | ok answer => simpa [hanswer, Except.toOption] using hentry

end ContractCalls
