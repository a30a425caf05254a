import ContractCalls.Proofs.Build.Failure
import ContractCalls.Proofs.Code.Malformed
import ContractCalls.Proofs.Graph.SideEffects

/-!
# Errors and walked code

A build walks the code that it starts with, and the code of each callable that this leads to:
callables that are called, modifiers that are attached, and, once a pointer is called in walked
code, the callables that walked code takes as pointers and those that are handed on.
`Resolver.Walked` says so without an order in which callables come up, and lets code lead on only
if it is well formed.

A build cannot avoid to find that something is wrong with this code (`found_error_of_fails`), or
that some of it is endless (`found_error_of_endless`).  A pointer that is handed on from the graph
of another tree may name no callable, and this is wrong as well.
-/

namespace ContractCalls

open Finding

/-- What a build starts with: the expressions that are read first, and the callables that the
outside calls. -/
structure Seed where
  root : Expr → Prop
  calls : DeclId → Prop

/-- A portion of code: what a build starts with, or a callable. -/
inductive Portion where
  | seed
  | callable (id : DeclId)

namespace Resolver

/-- A construction starts with the initializers and the arguments for bases, and calls the
constructors. -/
def constructionSeed (r : Resolver) : Seed where
  root := r.ConstructionRoot
  calls := fun id => ∃ b ∈ r.linearization, ∃ k, r.constructor? b = some k ∧ k.id = id

/-- Of the deployed code the entry points are called. -/
def deploymentSeed (r : Resolver) : Seed where
  root := fun _ => False
  calls := fun id => ∃ f ∈ r.entryPoints, f.id = id

def RootOf (r : Resolver) (seed : Seed) : Portion → Expr → Prop
  | .seed => seed.root
  | .callable id => fun e => ∃ c, r.tree.callable? id = some c ∧ c.Root e

def MalformedAt (r : Resolver) (seed : Seed) : Portion → Prop
  | .seed => r.MalformedCode seed.root
  | .callable id => ∃ c, r.tree.callable? id = some c ∧ r.Malformed c

/-- The portion names a constant whose initializer leads back to it. -/
def EndlessAt (r : Resolver) (seed : Seed) (p : Portion) : Prop := r.tree.Endless (r.RootOf seed p)

/-- The portion leads on to other callables: of these only the ones that are well formed do. -/
def LeadsOn (r : Resolver) : Portion → Prop
  | .seed => True
  | .callable id => ∃ c, r.tree.callable? id = some c ∧ ¬ r.Malformed c

/-- The code that a build walks.  Pointers that are `carried` can be called like those that walked
code takes. -/
inductive Walked (r : Resolver) (seed : Seed) (carried : DeclId → Prop) : Portion → Prop where
  | seed : Walked r seed carried .seed
  | start {id : DeclId} : seed.calls id → Walked r seed carried (.callable id)
  | calls {p : Portion} {id : DeclId} : Walked r seed carried p → r.LeadsOn p →
      r.Calls (r.RootOf seed p) id → Walked r seed carried (.callable id)
  | modifier {id k : DeclId} : Walked r seed carried (.callable id) → r.LeadsOn (.callable id) →
      r.Modifies id k → Walked r seed carried (.callable k)
  | pointer {p q : Portion} {id : DeclId} : Walked r seed carried p → r.LeadsOn p →
      r.tree.CallsPointer (r.RootOf seed p) → Walked r seed carried q → r.LeadsOn q →
      r.Takes (r.RootOf seed q) id → Walked r seed carried (.callable id)
  | carried {p : Portion} {id : DeclId} : Walked r seed carried p → r.LeadsOn p →
      r.tree.CallsPointer (r.RootOf seed p) → carried id → Walked r seed carried (.callable id)

variable {r : Resolver} {found : Finding → Prop} {x : DeclId}

/-! ### What code leads to -/

theorem hasTarget_iff_hasEdge (hregular : ∀ f, found f → f.Regular) :
    HasTarget found x ↔ ∃ a, HasEdge found a (.callable x) := by
  constructor
  · intro hex
    obtain ⟨f, hf, htarget⟩ := hex
    obtain ⟨a, hedge⟩ := (hregular f hf).target x htarget
    exact ⟨a, f, hf, hedge⟩
  · intro hex
    obtain ⟨a, f, hf, hedge⟩ := hex
    exact ⟨f, hf, ((hregular f hf).callee a _ hedge).2.1⟩

theorem hasIndirect_iff_hasEdge (hregular : ∀ f, found f → f.Regular) :
    HasIndirect found ↔ ∃ a, HasEdge found a .internalDispatch := by
  constructor
  · intro hex
    obtain ⟨f, hf, hind⟩ := hex
    obtain ⟨a, hedge⟩ := (hregular f hf).indirect hind
    exact ⟨a, f, hf, hedge⟩
  · intro hex
    obtain ⟨a, f, hf, hedge⟩ := hex
    exact ⟨f, hf, ((hregular f hf).callee a _ hedge).2.2 rfl⟩

variable {id : DeclId} {c : Callable}

/-- **What a callable leads to**: what it calls, its modifiers, and itself if one of these goes
on. -/
theorem hasTarget_code (hc : r.tree.callable? id = some c) : HasTarget (· ∈ r.code id) x ↔
    r.Calls c.Root x ∨ r.Modifies id x ∨ (x = id ∧ ∃ k, r.Modifies id k ∧ r.tree.GoesOn k) := by
  rw [hasTarget_iff_hasEdge fun f hf => regular_code id hf]
  simp only [hasEdge_code hc, Leads, Node.callable.injEq, reduceCtorEq, false_and, or_false]
  constructor
  · intro hex
    obtain ⟨a, ⟨_, ⟨_, rfl, h⟩ | ⟨_, rfl, h⟩⟩ | ⟨rfl, k, _, h⟩⟩ := hex
    · exact .inl h
    · exact .inr (.inl h)
    · exact .inr (.inr ⟨rfl, k, h⟩)
  · intro hor
    rcases hor with h | h | ⟨rfl, k, h⟩
    · exact ⟨_, .inl ⟨rfl, .inl ⟨x, rfl, h⟩⟩⟩
    · exact ⟨_, .inl ⟨rfl, .inr ⟨x, rfl, h⟩⟩⟩
    · exact ⟨_, .inr ⟨rfl, k, rfl, h⟩⟩

theorem hasIndirect_code (hc : r.tree.callable? id = some c) :
    HasIndirect (· ∈ r.code id) ↔ r.tree.CallsPointer c.Root := by
  rw [hasIndirect_iff_hasEdge fun f hf => regular_code id hf]
  simp [hasEdge_code hc, Leads]

theorem calls_constructionRoot : r.Calls r.ConstructionRoot x ↔
    ∃ b ∈ r.linearization, r.Calls (r.tree.Initializer b) x ∨ r.Calls b.BaseArg x := by
  simp only [Calls, exists_and_left]
  exact exists_code_constructionRoot

theorem callsPointer_constructionRoot : r.tree.CallsPointer r.ConstructionRoot ↔
    ∃ b ∈ r.linearization,
      r.tree.CallsPointer (r.tree.Initializer b) ∨ r.tree.CallsPointer b.BaseArg := by
  simp only [Tree.CallsPointer, code_constructionRoot]
  constructor
  · intro hex
    obtain ⟨note, callee, args, ⟨b, hb, he | he⟩, h⟩ := hex
    · exact ⟨b, hb, .inl ⟨note, callee, args, he, h⟩⟩
    · exact ⟨b, hb, .inr ⟨note, callee, args, he, h⟩⟩
  · intro hex
    obtain ⟨b, hb, ⟨note, callee, args, he, h⟩ | ⟨note, callee, args, he, h⟩⟩ := hex
    · exact ⟨note, callee, args, ⟨b, hb, .inl he⟩, h⟩
    · exact ⟨note, callee, args, ⟨b, hb, .inr he⟩, h⟩

/-! ### Seeds -/

/-- The seed says what these findings tell. -/
structure Plants (r : Resolver) (seed : Seed) (seeds : List Finding) : Prop where
  target : ∀ x, HasTarget (· ∈ seeds) x ↔ seed.calls x ∨ r.Calls seed.root x
  pointer : ∀ x, HasPointer (· ∈ seeds) x ↔ r.Takes seed.root x
  indirect : HasIndirect (· ∈ seeds) ↔ r.tree.CallsPointer seed.root
  error : (∃ e, .error (.error e) ∈ seeds) ↔ r.MalformedCode seed.root
  endless : (∃ k, .error (.endless k) ∈ seeds) ↔ r.tree.Endless seed.root

theorem plants_construction (hfits : r.Fits) : r.Plants r.constructionSeed r.creationSeeds where
  target := by
    intro x
    show _ ↔ (∃ b ∈ r.linearization, ∃ k, r.constructor? b = some k ∧ k.id = x) ∨
      r.Calls r.ConstructionRoot x
    rw [hasTarget_iff_hasEdge fun f hf => regular_creationSeeds hf, calls_constructionRoot]
    simp only [hasEdge_creationSeeds, Leads, Node.callable.injEq, reduceCtorEq, false_and, or_false,
      exists_eq_left']
    constructor
    · intro hex
      obtain ⟨a, b, hb, ⟨_, h⟩ | ⟨_, k, hk, rfl⟩ | ⟨_, h⟩⟩ := hex
      · exact .inr ⟨b, hb, .inl h⟩
      · exact .inl ⟨b, hb, k, hk, rfl⟩
      · exact .inr ⟨b, hb, .inr h⟩
    · intro hor
      rcases hor with ⟨b, hb, k, hk, rfl⟩ | ⟨b, hb, h | h⟩
      · exact ⟨_, b, hb, .inr (.inl ⟨rfl, k, hk, rfl⟩)⟩
      · exact ⟨_, b, hb, .inl ⟨rfl, h⟩⟩
      · exact ⟨_, b, hb, .inr (.inr ⟨rfl, h⟩)⟩
  pointer := by
    intro x
    show _ ↔ r.Takes r.ConstructionRoot x
    rw [hasPointer_creationSeeds, takes_constructionRoot]
  indirect := by
    show _ ↔ r.tree.CallsPointer r.ConstructionRoot
    rw [hasIndirect_iff_hasEdge fun f hf => regular_creationSeeds hf,
      callsPointer_constructionRoot]
    simp only [hasEdge_creationSeeds, Leads, reduceCtorEq, false_and, exists_false, true_and,
      false_or, and_false]
    constructor
    · intro hex
      obtain ⟨a, b, hb, ⟨_, h⟩ | ⟨_, h⟩⟩ := hex
      · exact ⟨b, hb, .inl h⟩
      · exact ⟨b, hb, .inr h⟩
    · intro hex
      obtain ⟨b, hb, h | h⟩ := hex
      · exact ⟨_, b, hb, .inl ⟨rfl, h⟩⟩
      · exact ⟨_, b, hb, .inr ⟨rfl, h⟩⟩
  error := error_mem_creationSeeds hfits
  endless := endless_mem_creationSeeds hfits

theorem not_code_of_no_root {t : Tree} {e : Expr} : ¬ t.Code (fun _ => False) e := by
  intro h
  exact h.exists_root.elim fun _ h => h

theorem plants_deployment : r.Plants r.deploymentSeed (Build.entrySites r) where
  target := by
    intro x
    have hnone : ¬ r.Calls (fun _ => False) x := by
      rintro ⟨_, _, he, _⟩
      exact not_code_of_no_root he
    show _ ↔ (∃ f ∈ r.entryPoints, f.id = x) ∨ r.Calls (fun _ => False) x
    rw [or_iff_left hnone, hasTarget_iff_hasEdge ?_]
    · simp [hasEdge_entrySites, eq_comm]
    · intro f hf
      obtain ⟨k, _, rfl⟩ := List.mem_map.1 hf
      exact regular_entrySite k
  pointer := by
    intro x
    refine iff_of_false not_hasPointer_entrySites ?_
    rintro ⟨_, _, he, _⟩
    exact not_code_of_no_root he
  indirect := by
    refine iff_of_false ?_ ?_
    · rintro ⟨f, hf, hind⟩
      obtain ⟨k, _, rfl⟩ := List.mem_map.1 hf
      cases hind
    · rintro ⟨_, _, _, he, _⟩
      exact not_code_of_no_root he
  error := by
    refine iff_of_false ?_ ?_
    · rintro ⟨_, he⟩
      exact error_not_mem_entrySites he
    · rintro ⟨_, he, _⟩
      exact not_code_of_no_root he
  endless := by
    refine iff_of_false ?_ ?_
    · rintro ⟨_, hk⟩
      exact error_not_mem_entrySites hk
    · rintro ⟨_, he, _⟩
      exact not_code_of_no_root he

/-! ### What a portion tells -/

/-- What the code of the portion tells. -/
def tells (r : Resolver) (seeds : List Finding) : Portion → List Finding
  | .seed => seeds
  | .callable id => r.code id

theorem rootOf_callable (seed : Seed) (hc : r.tree.callable? id = some c) :
    r.RootOf seed (.callable id) = c.Root := by
  funext e
  simp [RootOf, hc]

variable {seed : Seed} {seeds : List Finding} {carried : DeclId → Prop} {p : Portion}

theorem exists_callable?_of_rootOf {e : Expr} (h : r.RootOf seed (.callable id) e) :
    ∃ c, r.tree.callable? id = some c := by
  obtain ⟨c, hc, _⟩ := h
  exact ⟨c, hc⟩

theorem found_of_queued (hqueued : ∀ id, p = .callable id → Queued (r.Found seeds carried) id) :
    ∀ f ∈ r.tells seeds p, r.Found seeds carried f := by
  cases p with
  | seed => exact fun f hf => .seed hf
  | callable id => exact fun f hf => .of_queued (hqueued id rfl) hf

namespace Plants

variable (hplants : r.Plants seed seeds)

include hplants

theorem hasTarget_of_calls (h : r.Calls (r.RootOf seed p) x) :
    HasTarget (· ∈ r.tells seeds p) x := by
  cases p with
  | seed => exact (hplants.target x).2 (.inr h)
  | callable id =>
    have hcalls := h
    obtain ⟨e, _, he, _⟩ := hcalls
    obtain ⟨c, hc⟩ := he.exists_root.elim fun _ => exists_callable?_of_rootOf
    rw [rootOf_callable seed hc] at h
    exact (hasTarget_code hc).2 (.inl h)

theorem hasPointer_iff (hleads : r.LeadsOn p) :
    HasPointer (· ∈ r.tells seeds p) x ↔ r.Takes (r.RootOf seed p) x := by
  cases p with
  | seed => exact hplants.pointer x
  | callable id =>
    obtain ⟨c, hc, _⟩ := hleads
    rw [rootOf_callable seed hc]
    exact hasPointer_code hc

theorem hasIndirect_iff (hleads : r.LeadsOn p) :
    HasIndirect (· ∈ r.tells seeds p) ↔ r.tree.CallsPointer (r.RootOf seed p) := by
  cases p with
  | seed => exact hplants.indirect
  | callable id =>
    obtain ⟨c, hc, _⟩ := hleads
    rw [rootOf_callable seed hc]
    exact hasIndirect_code hc

theorem walked_of_hasTarget (hp : r.Walked seed carried p) (hleads : r.LeadsOn p)
    (h : HasTarget (· ∈ r.tells seeds p) x) : r.Walked seed carried (.callable x) := by
  cases p with
  | seed =>
    rcases (hplants.target x).1 h with h | h
    · exact .start h
    · exact .calls hp hleads h
  | callable id =>
    have hcallable := hleads
    obtain ⟨c, hc, _⟩ := hcallable
    rcases (hasTarget_code hc).1 h with h | h | ⟨rfl, _⟩
    · rw [← rootOf_callable seed hc] at h
      exact .calls hp hleads h
    · exact .modifier hp hleads h
    · exact hp

theorem error_iff (hc : ∀ id, p = .callable id → ∃ c, r.tree.callable? id = some c) :
    (∃ e, .error (.error e) ∈ r.tells seeds p) ↔ r.MalformedAt seed p := by
  cases p with
  | seed => exact hplants.error
  | callable id =>
    obtain ⟨c, hc⟩ := hc id rfl
    rw [tells, error_mem_code hc, MalformedAt]
    simp [hc]

/-- A portion tells that its reading does not end just if it is endless. -/
theorem endless_iff : (∃ k, .error (.endless k) ∈ r.tells seeds p) ↔ r.EndlessAt seed p := by
  cases p with
  | seed => exact hplants.endless
  | callable id =>
    cases hc : r.tree.callable? id with
    | some c => rw [tells, endless_mem_code hc, EndlessAt, rootOf_callable seed hc]
    | none =>
      refine iff_of_false ?_ ?_
      · rintro ⟨k, hk⟩
        obtain ⟨e, he⟩ := code_of_callable?_eq_none hc
        rw [tells, he] at hk
        simp at hk
      · rintro ⟨e, he, _⟩
        obtain ⟨root, hroot⟩ := he.exists_root
        obtain ⟨c, hc', _⟩ := hroot
        rw [hc] at hc'
        cases hc'

/-- **What is walked is queued.** -/
theorem queued_of_walked (hp : r.Walked seed carried p) :
    ∀ id, p = .callable id → Queued (r.Found seeds carried) id := by
  induction hp with
  | seed =>
    rintro id ⟨⟩
  | start h =>
    rintro id ⟨⟩
    obtain ⟨f, hf, htarget⟩ := (hplants.target _).2 (.inl h)
    exact .inl ⟨f, .seed hf, htarget⟩
  | calls _ _ h ih =>
    rintro id ⟨⟩
    obtain ⟨f, hf, htarget⟩ := hplants.hasTarget_of_calls h
    exact .inl ⟨f, found_of_queued ih f hf, htarget⟩
  | modifier _ _ h ih =>
    rintro id ⟨⟩
    have hmodifies := h
    obtain ⟨c, hc, _⟩ := hmodifies
    obtain ⟨f, hf, htarget⟩ := (hasTarget_code hc).2 (.inr (.inl h))
    exact .inl ⟨f, found_of_queued ih f hf, htarget⟩
  | pointer _ hleads hcalls _ hleads' htakes ih ih' =>
    rintro id ⟨⟩
    obtain ⟨i, hi, hind⟩ := (hplants.hasIndirect_iff hleads).2 hcalls
    obtain ⟨f, hf, hpointer⟩ := (hplants.hasPointer_iff hleads').2 htakes
    exact .inr ⟨⟨i, found_of_queued ih i hi, hind⟩,
      ⟨f, found_of_queued ih' f hf, hpointer⟩⟩
  | carried _ hleads hcalls hid ih =>
    rintro id ⟨⟩
    obtain ⟨i, hi, hind⟩ := (hplants.hasIndirect_iff hleads).2 hcalls
    have hfound := found_of_queued ih i hi
    exact .inr ⟨⟨i, hfound, hind⟩, ⟨_, .carried hfound hind hid, rfl⟩⟩

theorem found_of_walked (hp : r.Walked seed carried p) :
    ∀ f ∈ r.tells seeds p, r.Found seeds carried f :=
  found_of_queued (hplants.queued_of_walked hp)

end Plants

/-- Something is wrong with the walked code: a fault, or a pointer to what is no callable. -/
def Fails (r : Resolver) (seed : Seed) (carried : DeclId → Prop) : Prop :=
  (∃ p, r.Walked seed carried p ∧ r.MalformedAt seed p) ∨
    ∃ id, r.Walked seed carried (.callable id) ∧ r.tree.callable? id = none

/-- If the pointers that are handed on are callables, only faults can be wrong. -/
theorem fails_iff (hstarts : r.Starts seeds) (hplants : r.Plants seed seeds)
    (hcarried : ∀ id, carried id → (r.tree.callable? id).isSome = true) :
    r.Fails seed carried ↔ ∃ p, r.Walked seed carried p ∧ r.MalformedAt seed p := by
  refine or_iff_left ?_
  rintro ⟨id, hid, hnone⟩
  have hsome := (Found.callable_or_carried hstarts (hplants.queued_of_walked hid id rfl)).elim
    (fun h => h) (hcarried id)
  rw [hnone] at hsome
  cases hsome

/-- **Something is wrong with the walked code**: a build cannot avoid to find it. -/
theorem found_error_of_fails (hplants : r.Plants seed seeds) (h : r.Fails seed carried) :
    ∃ e, r.Found seeds carried (.error e) := by
  rcases h with ⟨p, hp, hmalformed⟩ | ⟨id, hid, hnone⟩
  · have hcallable : ∀ id, p = .callable id → ∃ c, r.tree.callable? id = some c := by
      rintro id rfl
      obtain ⟨c, hc, _⟩ := hmalformed
      exact ⟨c, hc⟩
    obtain ⟨e, he⟩ := (hplants.error_iff hcallable).2 hmalformed
    exact ⟨_, hplants.found_of_walked hp _ he⟩
  · obtain ⟨e, hcode⟩ := code_of_callable?_eq_none hnone
    refine ⟨.error e, hplants.found_of_walked hid _ ?_⟩
    rw [tells, hcode]
    exact List.mem_singleton_self _

theorem found_error_of_endless (hplants : r.Plants seed seeds) (hp : r.Walked seed carried p)
    (hends : r.EndlessAt seed p) : ∃ e, r.Found seeds carried (.error e) := by
  obtain ⟨k, hk⟩ := hplants.endless_iff.2 hends
  exact ⟨_, hplants.found_of_walked hp _ hk⟩

end Resolver

end ContractCalls
