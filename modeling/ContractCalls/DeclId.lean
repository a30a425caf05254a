import Std.Data.ExtTreeMap
import Std.Data.ExtTreeSet

/-!
# Declaration ids

Every declaration of a program has a number, given in the order of writing and
counted from zero.  A `DeclId` is any integer that is put in the place of such a number:
resolution notes carry ids that may name nothing, and the two nodes of a call
graph that are no declaration use the negative ids `-1` and `-2`.

* `DeclId.index?` is the place of an id among the declarations, if it can have one.
* `IdSet` and `IdMap` are finite sets and maps over ids.  They are extensional:
  two of them with the same members are equal, and `toList` is in ascending order.
-/

namespace ContractCalls

/-- The number under which a declaration is referred to. -/
structure DeclId where
  val : Int
  deriving DecidableEq, Inhabited

namespace DeclId

def ofNat (n : Nat) : DeclId := ⟨n⟩

/-- The place an id names; a negative id names none. -/
def index? (id : DeclId) : Option Nat :=
  match id.val with
  | .ofNat n => some n
  | .negSucc _ => none

instance : ToString DeclId := ⟨fun id => "#" ++ toString id.val⟩

instance : Ord DeclId := ⟨fun a b => compare a.val b.val⟩

instance : Std.TransOrd DeclId where
  eq_swap {a b} := by
    show compare a.val b.val = (compare b.val a.val).swap
    exact Std.OrientedOrd.eq_swap
  isLE_trans {a b c} := by
    show (compare a.val b.val).isLE → (compare b.val c.val).isLE → (compare a.val c.val).isLE
    exact Std.TransOrd.isLE_trans

instance : Std.LawfulEqOrd DeclId where
  eq_of_compare {a b} h := by
    obtain ⟨a⟩ := a
    obtain ⟨b⟩ := b
    exact congrArg DeclId.mk (Std.LawfulEqOrd.eq_of_compare h)

@[simp] theorem index?_ofNat (n : Nat) : (ofNat n).index? = some n := rfl

theorem ofNat_inj {m n : Nat} : ofNat m = ofNat n ↔ m = n := by
  simp only [ofNat, mk.injEq]
  omega

theorem index?_eq_some_iff {id : DeclId} {n : Nat} : id.index? = some n ↔ id = ofNat n := by
  obtain ⟨v⟩ := id
  cases v with
  | ofNat m => simp only [index?, ofNat, Int.ofNat_eq_natCast, Option.some.injEq, mk.injEq]; omega
  | negSucc m => simp [index?, ofNat]

end DeclId

abbrev IdSet := Std.ExtTreeSet DeclId

abbrev IdMap (α : Type) := Std.ExtTreeMap DeclId α

end ContractCalls
