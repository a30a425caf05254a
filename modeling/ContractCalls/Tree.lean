import ContractCalls.Declaration
import ContractCalls.Marks

/-!
# Trees

A `Tree` is a whole program: its declarations, each in the place that its id names, and
the ids of its contracts.  Looking up an id is total: `find?` and its siblings answer
nothing, `require` and its siblings the error that fits.  `find?_push` and `find?_replace`
say what is found after a declaration is added or changed.

`Tree.remaining` counts the declarations that a search has not marked yet.  Every
search through a tree ends because each new mark makes this number smaller
(`remaining_lt`) and nothing makes it larger (`remaining_le`).
-/

namespace ContractCalls

structure Tree where
  declarations : Array Declaration := #[]
  /-- The ids of the contracts in the order of writing, kept apart from the declarations. -/
  contractIds : Array DeclId := #[]
  deriving DecidableEq

namespace Tree

def size (t : Tree) : Nat := t.declarations.size

def isEmpty (t : Tree) : Bool := t.declarations.isEmpty

/-! ### Looking up ids -/

/-- The declaration that an id names. -/
def find? (t : Tree) (id : DeclId) : Option Declaration :=
  id.index?.bind (t.declarations[·]?)

def declares (t : Tree) (id : DeclId) : Bool := (t.find? id).isSome

def contract? (t : Tree) (id : DeclId) : Option Contract := (t.find? id).bind (·.contract?)

def function? (t : Tree) (id : DeclId) : Option Function := (t.find? id).bind (·.function?)

def modifier? (t : Tree) (id : DeclId) : Option Modifier := (t.find? id).bind (·.modifier?)

def event? (t : Tree) (id : DeclId) : Option Event := (t.find? id).bind (·.event?)

def var? (t : Tree) (id : DeclId) : Option Variable := (t.find? id).bind (·.var?)

def callable? (t : Tree) (id : DeclId) : Option Callable := (t.find? id).bind (·.callable?)

/-- What an id names, seen through `view`.  An id that names nothing is not found, and
one that `view` does not accept is not what was expected. -/
def require {α : Type} (t : Tree) (id : DeclId) (expected : Expectation)
    (view : Declaration → Option α) : Except Error α :=
  match t.find? id with
  | none => .error (.notFound id)
  | some d =>
    match view d with
    | none => .error (.unexpected id expected)
    | some a => .ok a

def requireContract (t : Tree) (id : DeclId) : Except Error Contract :=
  t.require id (.kind .contract) (·.contract?)

def requireFunction (t : Tree) (id : DeclId) : Except Error Function :=
  t.require id (.kind .function) (·.function?)

def requireModifier (t : Tree) (id : DeclId) : Except Error Modifier :=
  t.require id (.kind .modifier) (·.modifier?)

def requireEvent (t : Tree) (id : DeclId) : Except Error Event :=
  t.require id (.kind .event) (·.event?)

def requireVariable (t : Tree) (id : DeclId) : Except Error Variable :=
  t.require id (.kind .variable) (·.var?)

def requireCallable (t : Tree) (id : DeclId) : Except Error Callable :=
  t.require id .callable (·.callable?)

theorem declares_of_find? {t : Tree} {id : DeclId} {d : Declaration} (h : t.find? id = some d) :
    t.declares id = true := by
  simp [declares, h]

theorem declares_of_contract? {t : Tree} {id : DeclId} {c : Contract}
    (h : t.contract? id = some c) : t.declares id = true := by
  obtain ⟨d, hd, _⟩ := Option.bind_eq_some_iff.1 h
  exact declares_of_find? hd

theorem declares_of_var? {t : Tree} {id : DeclId} {v : Variable}
    (h : t.var? id = some v) : t.declares id = true := by
  obtain ⟨d, hd, _⟩ := Option.bind_eq_some_iff.1 h
  exact declares_of_find? hd

theorem require_eq_ok {α : Type} {t : Tree} {id : DeclId} {expected : Expectation}
    {view : Declaration → Option α} {a : α} :
    t.require id expected view = .ok a ↔ (t.find? id).bind view = some a := by
  simp only [require]
  cases hd : t.find? id with
  | none => simp
  | some d => cases hv : view d <;> simp [hv]

theorem declares_of_require {α : Type} {t : Tree} {id : DeclId} {expected : Expectation}
    {view : Declaration → Option α} {a : α} (h : t.require id expected view = .ok a) :
    t.declares id = true := by
  obtain ⟨d, hd, _⟩ := Option.bind_eq_some_iff.1 (require_eq_ok.1 h)
  exact declares_of_find? hd

/-! ### Looking up names -/

/-- The contracts that are listed. -/
def contracts (t : Tree) : List Contract := t.contractIds.toList.filterMap t.contract?

/-- The first contract of that name. -/
def contractNamed? (t : Tree) (name : String) : Option Contract :=
  t.contracts.find? (·.name == name)

def functionsOf (t : Tree) (c : Contract) : List Function := c.functions.filterMap t.function?

/-- The first function of that name that is declared in the contract. -/
def functionNamed? (t : Tree) (contract : DeclId) (name : String) : Option Function :=
  (t.contract? contract).bind fun c => (t.functionsOf c).find? (·.name == name)

/-! ### Changing declarations -/

def push (t : Tree) (d : Declaration) : Tree := { t with declarations := t.declarations.push d }

/-- The tree with one id more in the list of contracts. -/
def listContract (t : Tree) (id : DeclId) : Tree :=
  { t with contractIds := t.contractIds.push id }

/-- The tree with `d` in the place that `id` names, if it names one. -/
def replace (t : Tree) (id : DeclId) (d : Declaration) : Tree :=
  match id.index? with
  | none => t
  | some n => { t with declarations := t.declarations.setIfInBounds n d }

@[simp] theorem size_push (t : Tree) (d : Declaration) : (t.push d).size = t.size + 1 := by
  simp [size, push]

@[simp] theorem size_replace (t : Tree) (id : DeclId) (d : Declaration) :
    (t.replace id d).size = t.size := by
  unfold replace
  split <;> simp [size]

@[simp] theorem contractIds_push (t : Tree) (d : Declaration) :
    (t.push d).contractIds = t.contractIds := rfl

@[simp] theorem contractIds_replace (t : Tree) (id : DeclId) (d : Declaration) :
    (t.replace id d).contractIds = t.contractIds := by
  unfold replace
  split <;> rfl

@[simp] theorem size_listContract (t : Tree) (id : DeclId) : (t.listContract id).size = t.size :=
  rfl

@[simp] theorem find?_listContract (t : Tree) (id k : DeclId) :
    (t.listContract id).find? k = t.find? k := rfl

theorem find?_push (t : Tree) (d : Declaration) (id : DeclId) :
    (t.push d).find? id = if id = .ofNat t.size then some d else t.find? id := by
  simp only [find?, push]
  cases hid : id.index? with
  | none =>
    have hne : id ≠ .ofNat t.size := by
      rintro rfl
      simp at hid
    simp [hne]
  | some n =>
    obtain rfl := DeclId.index?_eq_some_iff.1 hid
    simp [Array.getElem?_push, size, DeclId.ofNat_inj]

/-- Only the id that is replaced is found otherwise, if it is declared at all. -/
theorem find?_replace (t : Tree) (id k : DeclId) (d : Declaration) :
    (t.replace id d).find? k = if id = k ∧ t.declares k = true then some d else t.find? k := by
  cases hid : id.index? with
  | none =>
    have hdead : ¬ (id = k ∧ t.declares k = true) := by
      rintro ⟨rfl, h⟩
      simp [declares, find?, hid] at h
    simp [replace, hid, hdead]
  | some n =>
    obtain rfl := DeclId.index?_eq_some_iff.1 hid
    cases hk : k.index? with
    | none =>
      have hne : DeclId.ofNat n ≠ k := by
        rintro rfl
        simp at hk
      simp [replace, find?, hk, hne]
    | some m =>
      obtain rfl := DeclId.index?_eq_some_iff.1 hk
      by_cases hnm : n = m
      · subst hnm
        by_cases hlt : n < t.declarations.size
        · simp [replace, find?, declares, hlt]
        · simp [replace, find?, declares, hlt]
      · simp [replace, find?, Array.getElem?_setIfInBounds, hnm, DeclId.ofNat_inj]

/-! ### What a search has left -/

def ids (t : Tree) : List DeclId := (List.range t.size).map .ofNat

/-- The number of declarations that are not marked. -/
def remaining (t : Tree) (marked : DeclId → Bool) : Nat := unmarked marked t.ids

theorem mem_ids {t : Tree} {id : DeclId} : id ∈ t.ids ↔ t.declares id = true := by
  simp only [ids, List.mem_map, List.mem_range, declares, find?, Option.isSome_iff_exists,
    Option.bind_eq_some_iff, DeclId.index?_eq_some_iff, size]
  constructor
  · rintro ⟨n, h, rfl⟩
    exact ⟨t.declarations[n], n, rfl, Array.getElem?_eq_getElem h⟩
  · rintro ⟨d, n, rfl, h⟩
    exact ⟨n, (Array.getElem?_eq_some_iff.1 h).1, rfl⟩

theorem remaining_le (t : Tree) {p q : DeclId → Bool} (h : ∀ id, p id = true → q id = true) :
    t.remaining q ≤ t.remaining p :=
  unmarked_le h t.ids

theorem remaining_lt {t : Tree} {p q : DeclId → Bool} (h : ∀ id, p id = true → q id = true)
    {id : DeclId} (hid : t.declares id = true) (hp : p id = false) (hq : q id = true) :
    t.remaining q < t.remaining p :=
  unmarked_lt h (mem_ids.2 hid) hp hq

end Tree

end ContractCalls
