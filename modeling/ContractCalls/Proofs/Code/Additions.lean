import ContractCalls.Proofs.Code.Agreement
import ContractCalls.Proofs.Tree.Additions

/-!
# Findings in a larger program

All declarations of a program are found in a larger one.  What succeeds in the program succeeds in
the larger one with the same answer: what is required of an id, the family of a callable, and the
resolver of a contract (`Within.ofContract_eq_ok`).

Only a name of nothing may mean something in the larger program, even a constant.  But such a name
is an error where it is read.  So code that tells no error tells just the same in the larger
program: `code_within`, `creationSeeds_within`.
-/

namespace ContractCalls

namespace Tree.Within

variable {t t' : Tree}

/-! ### What succeeds -/

theorem require_eq_ok {α : Type} (h : t.Within t') {id : DeclId} {expected : Expectation}
    {view : Declaration → Option α} {a : α} (ha : t.require id expected view = .ok a) :
    t'.require id expected view = .ok a :=
  Tree.require_eq_ok.2 (h.bind_eq_some (Tree.require_eq_ok.1 ha))

theorem collectFamily_eq_ok (h : t.Within t') {seen family : IdSet} {stack : List DeclId}
    (hfamily : t.collectFamily seen stack = .ok family) :
    t'.collectFamily seen stack = .ok family := by
  fun_induction collectFamily t seen stack with
  | case1 seen => rwa [collectFamily]
  | case2 seen id stack hseen ih =>
    rw [collectFamily, dif_pos hseen]
    exact ih hfamily
  | case3 seen id stack hseen e he => cases hfamily
  | case4 seen id stack hseen c hc ih =>
    have hc' : t'.requireCallable id = .ok c := h.require_eq_ok hc
    rw [collectFamily, dif_neg hseen]
    split
    next e he =>
      rw [hc'] at he
      cases he
    next c' hfound =>
      cases hc'.symm.trans hfound
      exact ih hfamily

theorem family_eq_ok (h : t.Within t') {id : DeclId} {family : IdSet}
    (hfamily : t.family id = .ok family) : t'.family id = .ok family :=
  h.collectFamily_eq_ok hfamily

theorem familiesOf_eq_ok (h : t.Within t') {ids : List DeclId} {families : List (DeclId × IdSet)}
    (hfamilies : Resolver.familiesOf t ids = .ok families) :
    Resolver.familiesOf t' ids = .ok families := by
  refine mapM_eq_ok (fun id entry hentry => ?_) hfamilies
  obtain ⟨family, hfamily, hentry⟩ := bind_eq_ok hentry
  rw [h.family_eq_ok hfamily]
  exact hentry

theorem getterOverridesOf_eq_ok (h : t.Within t') {id : DeclId} {overridden : IdSet}
    (hof : Resolver.getterOverridesOf t id = .ok overridden) :
    Resolver.getterOverridesOf t' id = .ok overridden := by
  unfold Resolver.getterOverridesOf at hof ⊢
  obtain ⟨v, hv, hof⟩ := bind_eq_ok hof
  rw [show t'.requireVariable id = .ok v from h.require_eq_ok hv]
  show (if v.visibility.isExternallyVisible then _ else _) = _
  split at hof
  next hvisible =>
    obtain ⟨families, hfamilies, hof⟩ := bind_eq_ok hof
    rw [if_pos hvisible, mapM_eq_ok (fun _ _ hfamily => h.family_eq_ok hfamily) hfamilies]
    exact hof
  next hhidden =>
    rw [if_neg hhidden]
    exact hof

/-- **The resolver of a contract** is the same but for the tree. -/
theorem ofContract_eq_ok (h : t.Within t') {c : Contract} {r : Resolver}
    (hr : Resolver.ofContract t c = .ok r) : Resolver.ofContract t' c = .ok (r.onTree t') := by
  unfold Resolver.ofContract at hr ⊢
  obtain ⟨bases, hbases, hr⟩ := bind_eq_ok hr
  obtain ⟨families, hfamilies, hr⟩ := bind_eq_ok hr
  obtain ⟨getters, hgetters, hr⟩ := bind_eq_ok hr
  cases hr
  have hbases' : c.linearized.mapM t'.requireContract = .ok bases :=
    mapM_eq_ok (fun _ _ hc => h.require_eq_ok hc) hbases
  rw [hbases']
  show (Resolver.familiesOf t' _ >>= _) = _
  rw [h.familiesOf_eq_ok hfamilies]
  show (List.mapM (Resolver.getterOverridesOf t') _ >>= _) = _
  rw [mapM_eq_ok (fun _ _ hof => h.getterOverridesOf_eq_ok hof) hgetters]
  rfl

theorem resolver_eq_ok (h : t.Within t') {contract : DeclId} {r : Resolver}
    (hr : t.resolver contract = .ok r) : t'.resolver contract = .ok (r.onTree t') := by
  unfold Tree.resolver at hr ⊢
  obtain ⟨c, hc, hr⟩ := bind_eq_ok hr
  rw [show t'.requireContract contract = .ok c from h.require_eq_ok hc]
  exact h.ofContract_eq_ok hr

theorem constantValue?_eq (h : t.Within t') {id : DeclId} (hid : t.declares id = true) :
    t'.constantValue? id = t.constantValue? id := by
  rw [constantValue?, var?, h.find?_eq hid, constantValue?, var?]

end Tree.Within

namespace Resolver

variable {r : Resolver} {t' : Tree} {n : Node}

/-! ### Occurrences -/

theorem ofNamed_within (h : r.tree.Within t') {note : Note} {ref : Reference}
    (hsound : ∀ e, .error e ∉ r.ofNamed n note ref) :
    (r.onTree t').ofNamed n note ref = r.ofNamed n note ref ∧
      ∀ id, ref.declaration = some id → r.tree.declares id = true := by
  have htree : (r.onTree t').tree = t' := rfl
  unfold ofNamed at hsound ⊢
  simp only [resolve_onTree, htree]
  cases hid : ref.declaration with
  | none => simp
  | some id =>
    simp only [hid] at hsound ⊢
    cases hd : r.tree.find? id with
    | none => simp [hd] at hsound
    | some d =>
      refine ⟨by simp only [h id d hd], ?_⟩
      rintro _ ⟨⟩
      exact Tree.declares_of_find? hd

theorem ofEmission_within (h : r.tree.Within t') {event : Expr}
    (hsound : ∀ e, .error e ∉ r.ofEmission event) :
    (r.onTree t').ofEmission event = r.ofEmission event := by
  have htree : (r.onTree t').tree = t' := rfl
  cases event with
  | call note callee args kind =>
    simp only [ofEmission, htree] at hsound ⊢
    cases hid : callee.declaration with
    | none => rfl
    | some id =>
      simp only [hid] at hsound ⊢
      cases hd : r.tree.find? id with
      | none => simp [hd] at hsound
      | some d => simp only [h id d hd]
  | _ => rfl

theorem ofPlaceholder_within (h : r.tree.Within t') {function target : DeclId}
    (hsound : ∀ e, .error e ∉ r.ofPlaceholder function target) :
    (r.onTree t').ofPlaceholder function target = r.ofPlaceholder function target := by
  have htree : (r.onTree t').tree = t' := rfl
  unfold ofPlaceholder at hsound ⊢
  rw [htree]
  cases hm : r.tree.requireModifier target with
  | error e => simp [hm] at hsound
  | ok m => rw [show t'.requireModifier target = .ok m from h.require_eq_ok hm]

theorem ofInvocation_within (h : r.tree.Within t') {i : Invocation}
    (hsound : ∀ e, .error e ∉ r.ofInvocation n i) :
    (r.onTree t').ofInvocation n i = r.ofInvocation n i := by
  have htree : (r.onTree t').tree = t' := rfl
  unfold ofInvocation at hsound ⊢
  simp only [resolve_onTree, htree]
  cases hid : i.ref.declaration with
  | none => rfl
  | some id =>
    simp only [hid] at hsound ⊢
    cases hd : r.tree.find? id with
    | none => simp [hd] at hsound
    | some d =>
      simp only [h id d hd, hd] at hsound ⊢
      cases d with
      | modifier m =>
        cases hcaller : n.callable? with
        | none => rfl
        | some function =>
          simp only [hcaller] at hsound ⊢
          cases hresolve : r.resolve id i.ref.lookup with
          | error e => rfl
          | ok target =>
            simp only [hresolve] at hsound ⊢
            rw [ofPlaceholder_within h fun e he => hsound e (List.mem_cons_of_mem _ he)]
      | _ => rfl

/-- **One occurrence** that tells no error tells the same, and names something if it names
anything. -/
theorem ofOccurrence_within (h : r.tree.Within t') {o : Occurrence}
    (hsound : ∀ e, .error e ∉ r.ofOccurrence n o) :
    (r.onTree t').ofOccurrence n o = r.ofOccurrence n o ∧
      ∀ id, o.named? = some id → r.tree.declares id = true := by
  cases o with
  | identifier note ref => exact ofNamed_within h hsound
  | member note ref => exact ofNamed_within h hsound
  | emission event => exact ⟨ofEmission_within h hsound, by simp [Occurrence.named?]⟩
  | invocation i => exact ⟨ofInvocation_within h hsound, by simp [Occurrence.named?]⟩
  | _ => exact ⟨rfl, by simp [Occurrence.named?]⟩

/-! ### Code and seeds -/

theorem ofInlined_within (h : r.tree.Within t') {o : Occurrence}
    (hsound : ∀ e, .error e ∉ r.ofInlined n o) :
    (r.onTree t').ofInlined n o = r.ofInlined n o ∧
      ∀ id, o.named? = some id → t'.constantValue? id = r.tree.constantValue? id := by
  cases hagain : r.tree.again? o with
  | some id => simp [ofInlined, hagain] at hsound
  | none =>
    rw [ofInlined_of_again?_eq_none hagain] at hsound ⊢
    obtain ⟨hsame, hdeclares⟩ := ofOccurrence_within h hsound
    have hvalue : ∀ id, o.named? = some id → t'.constantValue? id = r.tree.constantValue? id :=
      fun id hid => h.constantValue?_eq (hdeclares id hid)
    refine ⟨?_, hvalue⟩
    rw [ofInlined_of_again?_eq_none, hsame]
    refine Tree.again?_eq_none.2 fun id hid => ?_
    exact (hvalue id hid).trans (Tree.again?_eq_none.1 hagain id hid)

/-- **Code that tells no error** tells the same in the larger program. -/
theorem findings_within (h : r.tree.Within t') {os : List Occurrence}
    (hsound : ∀ e, .error e ∉ r.findings n os) :
    (r.onTree t').findings n os = r.findings n os := by
  have hone : ∀ o ∈ r.tree.inlined os, ∀ e, .error e ∉ r.ofInlined n o :=
    fun o ho e he => hsound e (List.mem_flatMap_of_mem ho he)
  have hinlined : t'.inlined os = r.tree.inlined os := by
    refine Tree.inlinedIn_eq (fun id v hv => ?_) fun o ho id hid hv => ?_
    · rw [h.constantValue?_eq (Tree.declares_of_constantValue? hv), hv]
    · rw [(ofInlined_within h (hone o ho)).2 id hid, hv]
  have htree : (r.onTree t').tree = t' := rfl
  rw [findings, findings, htree, hinlined]
  exact List.flatMap_congr fun o ho => (ofInlined_within h (hone o ho)).1

theorem code_within (h : r.tree.Within t') {id : DeclId} (hsound : ∀ e, .error e ∉ r.code id) :
    (r.onTree t').code id = r.code id := by
  have htree : (r.onTree t').tree = t' := rfl
  unfold code at hsound ⊢
  rw [htree]
  cases hc : r.tree.requireCallable id with
  | error e => simp [hc] at hsound
  | ok c =>
    rw [hc] at hsound
    rw [show t'.requireCallable id = .ok c from h.require_eq_ok hc]
    exact findings_within h hsound

theorem ofStateVariable_within (h : r.tree.Within t') {id : DeclId}
    (hsound : ∀ e, .error e ∉ r.ofStateVariable id) :
    (r.onTree t').ofStateVariable id = r.ofStateVariable id := by
  have htree : (r.onTree t').tree = t' := rfl
  unfold ofStateVariable at hsound ⊢
  rw [htree]
  cases hv : r.tree.requireVariable id with
  | error e => simp [hv] at hsound
  | ok v =>
    simp only [hv, show t'.requireVariable id = .ok v from h.require_eq_ok hv] at hsound ⊢
    split at hsound
    next hconstant => rw [if_pos hconstant, if_pos hconstant]
    next hconstant =>
      rw [if_neg hconstant, if_neg hconstant]
      exact findings_within h hsound

theorem functionsOf_within (hfits : r.Fits) (h : r.tree.Within t') {c : Contract}
    (hc : c ∈ r.linearization) : t'.functionsOf c = r.tree.functionsOf c := by
  refine List.filterMap_congr fun id hid => ?_
  obtain ⟨d, hd, _⟩ := (hfits.tree.mem_members .function (hfits.contracts c hc)).1 hid
  rw [Tree.function?, h.find?_eq (Tree.declares_of_find? hd), Tree.function?]

theorem ofConstruction_within (hfits : r.Fits) (h : r.tree.Within t') {c : Contract}
    (hc : c ∈ r.linearization) (hsound : ∀ e, .error e ∉ r.ofConstruction c) :
    (r.onTree t').ofConstruction c = r.ofConstruction c := by
  refine ofConstruction_congr ?_ ?_ ?_
  · refine List.flatMap_congr fun id hid => ofStateVariable_within h fun e he => hsound e ?_
    exact List.mem_append_left _ (List.mem_flatMap_of_mem hid he)
  · have hconstructor : (r.onTree t').constructor? c = r.constructor? c := by
      have htree : (r.onTree t').tree = t' := rfl
      rw [constructor?, htree, functionsOf_within hfits h hc, constructor?]
    rw [hconstructor]
  · refine findings_within h fun e he => hsound e ?_
    exact List.mem_append_right _ (List.mem_append_right _ he)

theorem creationSeeds_within (hfits : r.Fits) (h : r.tree.Within t')
    (hsound : ∀ e, .error e ∉ r.creationSeeds) :
    (r.onTree t').creationSeeds = r.creationSeeds := by
  refine List.flatMap_congr fun c hc => ?_
  refine ofConstruction_within hfits h (List.mem_reverse.1 hc) fun e he => hsound e ?_
  exact List.mem_flatMap_of_mem hc he

theorem entrySites_within (hfits : r.Fits) (h : r.tree.Within t') :
    Build.entrySites (r.onTree t') = Build.entrySites r := by
  have hfunctions : (r.onTree t').functions = r.functions :=
    List.flatMap_congr fun c hc => functionsOf_within hfits h hc
  exact entrySites_congr (congrArg (List.map Function.head) hfunctions) rfl rfl

end Resolver
end ContractCalls
