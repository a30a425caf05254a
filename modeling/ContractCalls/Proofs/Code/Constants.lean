import ContractCalls.Finding
import ContractCalls.Proofs.Code.Parts

/-!
# Constants in code

Code also means the initializers of the constants that it names, and of those that these
name in turn.  `Tree.Code` is the set of expressions that stand in code in this sense.

The builder reads the occurrences that `Tree.inlined` leaves.  `Tree.Reads` says which they
are by following names, and `Resolver.mem_findings` that code tells what these occurrences
tell.  A constant that is being read is not opened again; that hides nothing, because all
that is found behind a second opening is also found behind the last one (`Reads.insert`).

`reads_iff_code` joins the two: what is read is what the expressions of the code are.
-/

namespace ContractCalls

namespace Tree

/-! ### Occurrences behind constants -/

/-- The occurrence is among those listed, or behind constants that they name and that are
not `opened`. -/
inductive Reads (t : Tree) (opened : IdSet) : List Occurrence → Occurrence → Prop where
  | here {os : List Occurrence} {o : Occurrence} : o ∈ os → Reads t opened os o
  | behind {os : List Occurrence} {name o : Occurrence} {id : DeclId} {v : Expr} :
      name ∈ os → name.named? = some id → id ∉ opened → t.constantValue? id = some v →
      Reads t opened v.occurrences o → Reads t opened os o

namespace Reads

variable {t : Tree} {opened : IdSet} {os : List Occurrence} {o : Occurrence}

theorem subset {os' : List Occurrence} (h : t.Reads opened os o) (hsub : os ⊆ os') :
    t.Reads opened os' o := by
  cases h with
  | here ho => exact .here (hsub ho)
  | behind hname hid hopen hv h => exact .behind (hsub hname) hid hopen hv h

theorem of_insert {id : DeclId} (h : t.Reads (opened.insert id) os o) : t.Reads opened os o := by
  induction h with
  | here ho => exact .here ho
  | behind hname hid hopen hv _ ih =>
    refine .behind hname hid (fun hmem => hopen ?_) hv ih
    exact Std.ExtTreeSet.mem_insert.2 (.inr hmem)

theorem insert {id : DeclId} {v : Expr} (hv : t.constantValue? id = some v)
    (h : t.Reads opened os o) :
    t.Reads (opened.insert id) os o ∨ t.Reads (opened.insert id) v.occurrences o := by
  induction h with
  | here ho => exact .inl (.here ho)
  | @behind os name o id' v' hname hid hopen hv' _ ih =>
    rcases ih with ih | ih
    · by_cases hsame : id' = id
      · subst hsame
        obtain rfl := Option.some.inj (hv.symm.trans hv')
        exact .inr ih
      · refine .inl (.behind hname hid (fun hmem => ?_) hv' ih)
        rcases Std.ExtTreeSet.mem_insert.1 hmem with heq | hmem
        · exact hsame (Std.LawfulEqOrd.eq_of_compare heq).symm
        · exact hopen hmem
    · exact .inr ih

theorem cons {first : Occurrence} {rest : List Occurrence} (h : t.Reads opened (first :: rest) o) :
    o = first ∨ (∃ id v, first.named? = some id ∧ id ∉ opened ∧ t.constantValue? id = some v ∧
      t.Reads opened v.occurrences o) ∨ t.Reads opened rest o := by
  cases h with
  | here ho =>
    rcases List.mem_cons.1 ho with rfl | ho
    · exact .inl rfl
    · exact .inr (.inr (.here ho))
  | behind hname hid hopen hv h =>
    rcases List.mem_cons.1 hname with rfl | hname
    · exact .inr (.inl ⟨_, _, hid, hopen, hv, h⟩)
    · exact .inr (.inr (.behind hname hid hopen hv h))

end Reads

/-- What is left by inlining is found by following names. -/
theorem reads_of_mem_inlinedIn (t : Tree) (opened : IdSet) (os : List Occurrence) {o : Occurrence}
    (h : o ∈ t.inlinedIn opened os) : t.Reads opened os o := by
  fun_induction inlinedIn t opened os with
  | case1 => simp at h
  | case2 opened first rest _ ih =>
    rcases List.mem_cons.1 h with rfl | h
    · exact .here List.mem_cons_self
    · exact (ih h).subset (List.subset_cons_self _ _)
  | case3 opened first rest id _ _ ih =>
    rcases List.mem_cons.1 h with rfl | h
    · exact .here List.mem_cons_self
    · exact (ih h).subset (List.subset_cons_self _ _)
  | case4 opened first rest id _ _ _ ih =>
    rcases List.mem_cons.1 h with rfl | h
    · exact .here List.mem_cons_self
    · exact (ih h).subset (List.subset_cons_self _ _)
  | case5 opened first rest id hid hopen v hv ihv ih =>
    rcases List.mem_append.1 h with h | h
    · exact .behind List.mem_cons_self hid hopen hv (ihv h).of_insert
    · exact (ih h).subset (List.subset_cons_self _ _)

/-- What is found by following names is left by inlining, unless it names a constant. -/
theorem mem_inlinedIn_of_reads (t : Tree) (opened : IdSet) (os : List Occurrence) {o : Occurrence}
    (ho : ∀ id, o.named? = some id → t.constantValue? id = none) (h : t.Reads opened os o) :
    o ∈ t.inlinedIn opened os := by
  fun_induction inlinedIn t opened os with
  | case1 =>
    cases h with
    | here h => exact h
    | behind h => simp at h
  | case2 opened first rest hnone ih =>
    rcases h.cons with rfl | ⟨id, v, hid, _⟩ | h
    · exact List.mem_cons_self
    · rw [hnone] at hid
      cases hid
    · exact List.mem_cons_of_mem _ (ih h)
  | case3 opened first rest id hid hopen ih =>
    rcases h.cons with rfl | ⟨id', v, hid', hopen', _⟩ | h
    · exact List.mem_cons_self
    · obtain rfl := Option.some.inj (hid.symm.trans hid')
      exact absurd hopen hopen'
    · exact List.mem_cons_of_mem _ (ih h)
  | case4 opened first rest id hid hopen hnone ih =>
    rcases h.cons with rfl | ⟨id', v, hid', _, hv, _⟩ | h
    · exact List.mem_cons_self
    · obtain rfl := Option.some.inj (hid.symm.trans hid')
      rw [hnone] at hv
      cases hv
    · exact List.mem_cons_of_mem _ (ih h)
  | case5 opened first rest id hid hopen v hv ihv ih =>
    rcases h.cons with rfl | ⟨id', v', hid', _, hv', h⟩ | h
    · rw [ho id hid] at hv
      cases hv
    · obtain rfl := Option.some.inj (hid.symm.trans hid')
      obtain rfl := Option.some.inj (hv.symm.trans hv')
      -- The constant is opened now; what lies behind a second opening lies behind the last.
      refine List.mem_append_left _ (ihv ?_)
      rcases h.insert hv with h | h
      · exact h
      · exact h
    · exact List.mem_append_right _ (ih h)

/-! ### Expressions of code -/

/-- The expression stands in the code with these roots: below a root, or in the initializer
of a constant that the code names. -/
inductive Code (t : Tree) (root : Expr → Prop) : Expr → Prop where
  | root {e : Expr} : root e → Code t root e
  | part {p e : Expr} : Code t root e → p.Part e → Code t root p
  | constant {e v : Expr} {id : DeclId} : Code t root e → e.declaration = some id →
      t.constantValue? id = some v → Code t root v

theorem Code.within {t : Tree} {root : Expr → Prop} {p e : Expr} (he : t.Code root e)
    (h : p.Within e) : t.Code root p := by
  induction h using Relation.ReflTransGen.head_induction_on with
  | refl => exact he
  | head hpart _ ih => exact .part ih hpart

theorem Code.mono {t : Tree} {root root' : Expr → Prop} (hsub : ∀ e, root e → root' e) {e : Expr}
    (h : t.Code root e) : t.Code root' e := by
  induction h with
  | root h => exact .root (hsub _ h)
  | part _ hpart ih => exact .part ih hpart
  | constant _ hid hv ih => exact .constant ih hid hv

end Tree

theorem Expr.occurrence?_of_declaration {e : Expr} {id : DeclId} (h : e.declaration = some id) :
    ∃ o, e.occurrence? = some o ∧ o.named? = some id := by
  cases e with
  | identifier note ref => exact ⟨_, rfl, h⟩
  | member note inner ref => exact ⟨_, rfl, h⟩
  | _ => cases h

theorem Expr.declaration_of_named? {e : Expr} {o : Occurrence} {id : DeclId}
    (h : e.occurrence? = some o) (ho : o.named? = some id) : e.declaration = some id := by
  cases e with
  | identifier note ref =>
    cases h
    exact ho
  | member note inner ref =>
    cases h
    exact ho
  | call note callee args kind =>
    cases h
    cases ho
  | new note name contract =>
    cases h
    cases ho
  | _ => cases h

namespace Tree

variable {t : Tree} {opened : IdSet} {os : List Occurrence} {root : Expr → Prop}
  {extra : Occurrence → Prop}

theorem Reads.constant {o name : Occurrence} {id : DeclId} {v : Expr} (h : t.Reads ∅ os name)
    (hid : name.named? = some id) (hv : t.constantValue? id = some v) (ho : o ∈ v.occurrences) :
    t.Reads ∅ os o := by
  induction h with
  | here hname => exact .behind hname hid (by simp) hv (.here ho)
  | behind hname' hid' hopen hv' _ ih => exact .behind hname' hid' hopen hv' (ih hid)

/-- Whatever occurs in an expression of the code is read, if the roots are. -/
theorem Code.reads (hos : ∀ e, root e → e.occurrences ⊆ os) {e : Expr} (h : t.Code root e)
    {o : Occurrence} (ho : o ∈ e.occurrences) : t.Reads ∅ os o := by
  induction h generalizing o with
  | root he => exact .here (hos _ he ho)
  | part _ hpart ih => exact ih (hpart.occurrences_subset ho)
  | constant _ hid hv ih =>
    obtain ⟨name, hname, hnamed⟩ := Expr.occurrence?_of_declaration hid
    exact (ih (Expr.mem_occurrences_of_occurrence? hname)).constant hnamed hv ho

/-- **What is read** is what the expressions of the code are, and what else occurs. -/
theorem reads_iff_code
    (hos : ∀ o, o ∈ os ↔ (∃ e, root e ∧ o ∈ e.occurrences) ∨ extra o)
    (hextra : ∀ o, extra o → o.named? = none) {o : Occurrence} :
    t.Reads ∅ os o ↔ (∃ e, t.Code root e ∧ e.occurrence? = some o) ∨ extra o := by
  have hroot : ∀ e, root e → e.occurrences ⊆ os := fun e he o ho => (hos o).2 (.inl ⟨e, he, ho⟩)
  constructor
  · -- The occurrences listed come from code; so does what lies behind their names.
    have hcode : ∀ os' : List Occurrence,
        (∀ o ∈ os', (∃ e, t.Code root e ∧ e.occurrence? = some o) ∨ extra o) →
        t.Reads ∅ os' o → (∃ e, t.Code root e ∧ e.occurrence? = some o) ∨ extra o := by
      intro os' hall h
      induction h with
      | here ho => exact hall _ ho
      | @behind os' name o id v hname hid _ hv _ ih =>
        apply ih
        intro o' ho'
        rcases hall name hname with ⟨e, he, hoc⟩ | hex
        · obtain ⟨p, hp, hpo⟩ := Expr.mem_occurrences.1 ho'
          have hv' : t.Code root v := .constant he (Expr.declaration_of_named? hoc hid) hv
          exact .inl ⟨p, hv'.within hp, hpo⟩
        · rw [hextra name hex] at hid
          cases hid
    refine hcode os fun o ho => ?_
    rcases (hos o).1 ho with ⟨e, he, ho⟩ | ho
    · obtain ⟨p, hp, hpo⟩ := Expr.mem_occurrences.1 ho
      exact .inl ⟨p, (Code.root he).within hp, hpo⟩
    · exact .inr ho
  · intro hor
    rcases hor with ⟨e, he, ho⟩ | ho
    · exact he.reads hroot (Expr.mem_occurrences_of_occurrence? ho)
    · exact .here ((hos o).2 (.inr ho))

end Tree

end ContractCalls
