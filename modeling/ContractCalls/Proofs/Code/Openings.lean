import ContractCalls.Proofs.Code.Constants
import Mathlib.Logic.Relation

/-!
# Readings that end

Code is read through the constants that it names: in the place of each name the initializer is read,
and in it again the initializers of the constants that it names.  `Tree.Opens` is this reading with
nothing that would stop it, so it comes to an end only if the initializers do.

`inlinedIn` does stop, at a constant that is being read already, and leaves a name that
`Tree.again?` finds.  This is just where a reading goes on for ever: the reading ends if and only if
no such name is left, and what it leaves is what `inlined` leaves (`opens_iff_inlined`).

A name is left if and only if a constant that is read is `Behind` itself (`exists_again_iff`).  In
one direction, the constants that are being read are all in front of the one that comes next
(`InFront`).  In the other, a reading that ends has gone through every constant behind those that it
was given, so that none of them can be behind itself (`Opens.acc`).
-/

namespace ContractCalls

namespace Tree

/-- The initializer of the one constant names the other. -/
def NamesConstant (t : Tree) (id id' : DeclId) : Prop :=
  ∃ v, t.constantValue? id = some v ∧ (∃ o ∈ v.occurrences, o.named? = some id') ∧
    (t.constantValue? id').isSome = true

/-- The second constant is named by the initializer of the first, or by that of a constant behind
it. -/
def Behind (t : Tree) : DeclId → DeclId → Prop := Relation.TransGen t.NamesConstant

/-- No constants refer to each other in a cycle. -/
def NoConstantCycle (t : Tree) : Prop := ∀ id, ¬ t.Behind id id

/-- The initializers of constants name only constants that were declared before. -/
def constantsInOrder (t : Tree) : Bool :=
  t.ids.all fun id => (t.constantValue? id).all fun v => v.occurrences.all fun o =>
    o.named?.all fun id' => (t.constantValue? id').isNone || decide (id'.val < id.val)

/-- Constants that are declared in order make no cycle. -/
theorem noConstantCycle_of_inOrder {t : Tree} (h : t.constantsInOrder = true) :
    t.NoConstantCycle := by
  have hnames : ∀ id id', t.NamesConstant id id' → id'.val < id.val := by
    rintro id id' ⟨v, hv, ⟨o, ho, hid'⟩, hconstant⟩
    have hall := List.all_eq_true.1 h id (mem_ids.2 (declares_of_constantValue? hv))
    rw [hv] at hall
    have hname := List.all_eq_true.1 hall o ho
    rw [hid'] at hname
    rcases Bool.or_eq_true_iff.1 hname with hnone | hlt
    · rw [Option.isNone_iff_eq_none] at hnone
      rw [hnone] at hconstant
      cases hconstant
    · exact of_decide_eq_true hlt
  have hbehind : ∀ id id', t.Behind id id' → id'.val < id.val := by
    intro id id' h
    induction h with
    | single h => exact hnames _ _ h
    | tail _ h ih => exact Int.lt_trans (hnames _ _ h) ih
  exact fun id hid => Int.lt_irrefl _ (hbehind id id hid)

/-- Reading the occurrences comes to an end and leaves others, which are read in their place. -/
inductive Opens (t : Tree) : List Occurrence → List Occurrence → Prop where
  | nil : Opens t [] []
  | stays {o : Occurrence} {rest left : List Occurrence} :
      (∀ id, o.named? = some id → t.constantValue? id = none) → Opens t rest left →
      Opens t (o :: rest) (o :: left)
  | opens {o : Occurrence} {id : DeclId} {v : Expr} {rest inside left : List Occurrence} :
      o.named? = some id → t.constantValue? id = some v → Opens t v.occurrences inside →
      Opens t rest left → Opens t (o :: rest) (inside ++ left)

variable {t : Tree} {opened : IdSet} {os left left' : List Occurrence}

/-- The constants that are being read are in front of those that the occurrences name. -/
def InFront (t : Tree) (opened : IdSet) (os : List Occurrence) : Prop :=
  ∀ o ∈ os, ∀ id, o.named? = some id → (t.constantValue? id).isSome = true →
    ∀ a ∈ opened, t.Behind a id

theorem InFront.tail {o : Occurrence} {rest : List Occurrence} (h : t.InFront opened (o :: rest)) :
    t.InFront opened rest :=
  fun o' ho' => h o' (List.mem_cons_of_mem o ho')

theorem InFront.insert {o : Occurrence} {id : DeclId} {v : Expr} (h : t.InFront opened os)
    (ho : o ∈ os) (hid : o.named? = some id) (hv : t.constantValue? id = some v) :
    t.InFront (opened.insert id) v.occurrences := by
  intro o' ho' id' hid' hconstant a ha
  have hnext : t.NamesConstant id id' := ⟨v, hv, ⟨o', ho', hid'⟩, hconstant⟩
  rcases Std.ExtTreeSet.mem_insert.1 ha with heq | ha
  · rw [← Std.LawfulEqOrd.eq_of_compare heq]
    exact .single hnext
  · exact (h o ho id hid (Option.isSome_of_eq_some hv) a ha).tail hnext

/-- A constant that `inlinedIn` comes to while it is being read is behind itself. -/
theorem behind_of_again? {o : Occurrence} {id : DeclId} (h : t.InFront opened os)
    (ho : o ∈ t.inlinedIn opened os) (hagain : t.again? o = some id) : t.Behind id id := by
  obtain ⟨hid, hconstant⟩ := again?_eq_some.1 hagain
  fun_induction inlinedIn t opened os with
  | case1 => simp at ho
  | case2 opened first rest hnone ih =>
    rcases List.mem_cons.1 ho with rfl | ho
    · rw [hnone] at hid
      cases hid
    · exact ih h.tail ho
  | case3 opened first rest id' hid' hopen ih =>
    rcases List.mem_cons.1 ho with rfl | ho
    · cases hid.symm.trans hid'
      exact h o List.mem_cons_self id hid hconstant id (Std.ExtTreeSet.contains_iff_mem.1 hopen)
    · exact ih h.tail ho
  | case4 opened first rest id' hid' _ hnone ih =>
    rcases List.mem_cons.1 ho with rfl | ho
    · cases hid.symm.trans hid'
      rw [hnone] at hconstant
      cases hconstant
    · exact ih h.tail ho
  | case5 opened first rest id' hid' _ v hv ihv ih =>
    rcases List.mem_append.1 ho with ho | ho
    · exact ihv (h.insert List.mem_cons_self hid' hv) ho
    · exact ih h.tail ho

theorem behind_of_mem_inlined {o : Occurrence} {id : DeclId} (ho : o ∈ t.inlined os)
    (hagain : t.again? o = some id) : t.Behind id id := by
  refine behind_of_again? (fun _ _ _ _ _ a ha => ?_) ho hagain
  simp at ha

/-- **Reading comes to an end** if no constant is come to while it is being read. -/
theorem opens_inlinedIn (opened : IdSet) (os : List Occurrence)
    (h : ∀ o ∈ t.inlinedIn opened os, t.again? o = none) : t.Opens os (t.inlinedIn opened os) := by
  fun_induction inlinedIn t opened os with
  | case1 => exact .nil
  | case2 opened o rest _ ih =>
    obtain ⟨ho, hrest⟩ := List.forall_mem_cons.1 h
    exact .stays (again?_eq_none.1 ho) (ih hrest)
  | case3 opened o rest id _ _ ih =>
    obtain ⟨ho, hrest⟩ := List.forall_mem_cons.1 h
    exact .stays (again?_eq_none.1 ho) (ih hrest)
  | case4 opened o rest id _ _ _ ih =>
    obtain ⟨ho, hrest⟩ := List.forall_mem_cons.1 h
    exact .stays (again?_eq_none.1 ho) (ih hrest)
  | case5 opened o rest id hid _ v hv ihv ih =>
    obtain ⟨hinside, hrest⟩ := List.forall_mem_append.1 h
    exact .opens hid hv (ihv hinside) (ih hrest)

namespace Opens

theorem unique (h : t.Opens os left) (h' : t.Opens os left') : left = left' := by
  induction h generalizing left' with
  | nil =>
    cases h'
    rfl
  | stays hstays _ ih =>
    cases h' with
    | stays _ h' => rw [ih h']
    | opens hid hv _ _ =>
      rw [hstays _ hid] at hv
      cases hv
  | opens hid hv _ _ ihv ih =>
    cases h' with
    | stays hstays _ =>
      rw [hstays _ hid] at hv
      cases hv
    | opens hid' hv' hinside hleft =>
      cases hid.symm.trans hid'
      cases hv.symm.trans hv'
      rw [ihv hinside, ih hleft]

/-- What is left names no constant that could be read. -/
theorem again?_eq_none (h : t.Opens os left) : ∀ o ∈ left, t.again? o = none := by
  induction h with
  | nil => simp
  | stays hstays _ ih => exact List.forall_mem_cons.2 ⟨Tree.again?_eq_none.2 hstays, ih⟩
  | opens _ _ _ _ ihv ih => exact List.forall_mem_append.2 ⟨ihv, ih⟩

/-- A reading that ends has gone through all constants behind those that are named. -/
theorem acc (h : t.Opens os left) {o : Occurrence} {id : DeclId} (ho : o ∈ os)
    (hid : o.named? = some id) : Acc (fun b a => t.NamesConstant a b) id := by
  induction h generalizing o id with
  | nil => simp at ho
  | stays hstays _ ih =>
    rcases List.mem_cons.1 ho with rfl | ho
    · refine .intro _ fun b hb => ?_
      obtain ⟨v, hv, _⟩ := hb
      rw [hstays _ hid] at hv
      cases hv
    · exact ih ho hid
  | opens hid' hv _ _ ihv ih =>
    rcases List.mem_cons.1 ho with rfl | ho
    · cases hid.symm.trans hid'
      refine .intro _ fun b hb => ?_
      obtain ⟨v', hv', ⟨name, hname, hb⟩, _⟩ := hb
      cases hv.symm.trans hv'
      exact ihv hname hb
    · exact ih ho hid

end Opens

/-- So it has for the constants that are named behind these. -/
theorem Reads.acc {o : Occurrence} (ho : t.Reads opened os o)
    (hall : ∀ name ∈ os, ∀ id, name.named? = some id → Acc (fun b a => t.NamesConstant a b) id)
    {id : DeclId} (hid : o.named? = some id) : Acc (fun b a => t.NamesConstant a b) id := by
  induction ho with
  | here ho => exact hall _ ho id hid
  | @behind os name o a v hname ha _ hv _ ih =>
    refine ih (fun name' hname' b hb => ?_) hid
    by_cases hconstant : (t.constantValue? b).isSome = true
    · exact (hall name hname a ha).inv ⟨v, hv, ⟨name', hname', hb⟩, hconstant⟩
    · refine .intro b fun c hc => ?_
      obtain ⟨w, hw, _⟩ := hc
      simp [hw] at hconstant

/-- What can be gone through to an end is not behind itself. -/
theorem not_behind_of_acc {id : DeclId} (h : Acc (fun b a => t.NamesConstant a b) id) :
    ¬ t.Behind id id := by
  induction h with
  | intro id _ ih =>
    intro hid
    obtain ⟨b, hb, hback⟩ := Relation.TransGen.head'_iff.1 hid
    exact ih b hb (.tail' hback hb)

/-- **A name is left** if and only if a constant that is read is behind itself. -/
theorem exists_again_iff : (∃ o ∈ t.inlined os, ∃ id, t.again? o = some id) ↔
    ∃ o id, t.Reads ∅ os o ∧ o.named? = some id ∧ t.Behind id id := by
  constructor
  · rintro ⟨o, ho, id, hagain⟩
    exact ⟨o, id, t.reads_of_mem_inlinedIn ∅ os ho, (again?_eq_some.1 hagain).1,
      behind_of_mem_inlined ho hagain⟩
  · rintro ⟨o, id, ho, hid, hbehind⟩
    by_contra hnone
    have hopens : t.Opens os (t.inlined os) := by
      refine opens_inlinedIn ∅ os fun o' ho' => Option.eq_none_iff_forall_ne_some.2 fun id' hid' => ?_
      exact hnone ⟨o', ho', id', hid'⟩
    exact not_behind_of_acc (ho.acc (fun _ hname _ => hopens.acc hname) hid) hbehind

/-- **What reading leaves** is what inlining leaves, if this names no constant. -/
theorem opens_iff_inlined :
    t.Opens os left ↔ left = t.inlined os ∧ ∀ o ∈ left, t.again? o = none := by
  constructor
  · intro h
    refine ⟨h.unique (opens_inlinedIn ∅ os fun o ho => ?_), h.again?_eq_none⟩
    refine Option.eq_none_iff_forall_ne_some.2 fun id hagain => ?_
    have hread := t.reads_of_mem_inlinedIn ∅ os ho
    have hacc := hread.acc (fun _ hname _ => h.acc hname) (again?_eq_some.1 hagain).1
    exact not_behind_of_acc hacc (behind_of_mem_inlined ho hagain)
  · rintro ⟨rfl, hnone⟩
    exact opens_inlinedIn ∅ os hnone

theorem NoConstantCycle.again?_eq_none (hacyclic : t.NoConstantCycle) {o : Occurrence}
    (ho : o ∈ t.inlined os) : t.again? o = none :=
  Option.eq_none_iff_forall_ne_some.2 fun id hagain => hacyclic id (behind_of_mem_inlined ho hagain)

/-- As long as no constants refer to each other in a cycle, every reading ends. -/
theorem opens_iff (hacyclic : t.NoConstantCycle) : t.Opens os left ↔ left = t.inlined os := by
  rw [opens_iff_inlined]
  refine and_iff_left_of_imp ?_
  rintro rfl o ho
  exact hacyclic.again?_eq_none ho

end Tree

end ContractCalls
