import ContractCalls.Draft
import ContractCalls.Proofs.Computations

/-!
# Members

In a finished tree every declaration stands in the place that its id names, and a contract
lists its members: the functions, modifiers, events and variables with this scope, each once
and in the order of writing.  The list of contracts, which is written apart from the
declarations, has just the ids that name one, also in this order.  `Tree.WellFormed` says so,
and `wellFormed_of_ofSteps` that every tree which is written without an error is like this.

A step either changes no declaration in what `WellFormed` speaks of (`of_same`), or adds one
declaration at the end and its id to the list of its contract (`extend`).
-/

namespace ContractCalls

namespace Declaration

/-- The contract that a declaration is a member of, if any. -/
def scope? : Declaration → Option DeclId
  | contract _ => none
  | function f => f.scope
  | modifier m => some m.scope
  | event e => e.scope
  | «variable» v => v.scope

/-- What membership depends on: the id, the kind and the contract of a declaration. -/
def profile (d : Declaration) : DeclId × DeclKind × Option DeclId := (d.id, d.kind, d.scope?)

end Declaration

/-- The members that a contract lists, by their kind. -/
def Contract.members (c : Contract) : DeclKind → List DeclId
  | .contract => []
  | .function => c.functions
  | .modifier => c.modifiers
  | .event => c.events
  | .variable => c.stateVariables

namespace Tree

/-- The profile of the declaration that an id names. -/
def profile? (t : Tree) (id : DeclId) : Option (DeclId × DeclKind × Option DeclId) :=
  (t.find? id).map Declaration.profile

/-- The lists of the contract that an id names. -/
def members? (t : Tree) (id : DeclId) : Option (DeclKind → List DeclId) :=
  (t.contract? id).map Contract.members

/-- The declarations of a kind that are members of a contract, in the order of writing. -/
def membersOf (t : Tree) (contract : DeclId) (kind : DeclKind) : List DeclId :=
  t.ids.filter fun id => (t.profile? id).any fun p => p.2.1 = kind ∧ p.2.2 = some contract

/-- Each declaration stands in its place, contracts list exactly their members, and exactly the
contracts are listed. -/
structure WellFormed (t : Tree) : Prop where
  place : ∀ id p, t.profile? id = some p → p.1 = id
  scope : ∀ id p s, t.profile? id = some p → p.2.2 = some s → (t.members? s).isSome = true
  members : ∀ id m kind, t.members? id = some m → m kind = t.membersOf id kind
  listed : t.contractIds.toList = t.ids.filter fun id => (t.members? id).isSome

/-! ### The two kinds of change -/

theorem ids_of_size {t t' : Tree} (h : t'.size = t.size) : t'.ids = t.ids := by
  rw [ids, ids, h]

theorem ids_succ {t t' : Tree} (h : t'.size = t.size + 1) :
    t'.ids = t.ids ++ [.ofNat t.size] := by
  rw [ids, ids, h, List.range_succ, List.map_append, List.map_singleton]

theorem declares_of_members? {t : Tree} {id : DeclId} (h : (t.members? id).isSome = true) :
    t.declares id = true := by
  rw [members?, Option.isSome_map] at h
  obtain ⟨c, hc⟩ := Option.isSome_iff_exists.1 h
  exact declares_of_contract? hc

theorem not_declares_size (t : Tree) : t.declares (.ofNat t.size) = false := by
  simp [declares, find?, size]

theorem ne_size_of_declares {t : Tree} {id : DeclId} (h : t.declares id = true) :
    id ≠ .ofNat t.size := by
  rintro rfl
  rw [not_declares_size] at h
  cases h

theorem WellFormed.of_same {t t' : Tree} (h : t.WellFormed) (hsize : t'.size = t.size)
    (hprofile : ∀ id, t'.profile? id = t.profile? id)
    (hmembers : ∀ id, t'.members? id = t.members? id) (hlisted : t'.contractIds = t.contractIds) :
    t'.WellFormed where
  place := by
    intro id p hp
    rw [hprofile] at hp
    exact h.place id p hp
  scope := by
    intro id p s hp hs
    rw [hprofile] at hp
    rw [hmembers]
    exact h.scope id p s hp hs
  members := by
    intro id m kind hm
    rw [hmembers] at hm
    simp only [membersOf, hprofile, ids_of_size hsize]
    exact h.members id m kind hm
  listed := by
    rw [hlisted, h.listed, ids_of_size hsize]
    simp only [hmembers]

/-- No declaration is a member of a contract that is not there yet. -/
theorem WellFormed.membersOf_size {t : Tree} (h : t.WellFormed) (kind : DeclKind) :
    t.membersOf (.ofNat t.size) kind = [] := by
  rw [membersOf, List.filter_eq_nil_iff]
  intro x _ hx
  simp only [Option.any_eq_true, decide_eq_true_eq] at hx
  obtain ⟨p, hp, _, hs⟩ := hx
  exact ne_size_of_declares (declares_of_members? (h.scope x p _ hp hs)) rfl

theorem membersOf_extend {t t' : Tree} {kind : DeclKind} {scope : Option DeclId}
    (hsize : t'.size = t.size + 1)
    (hprofile : ∀ id, t'.profile? id =
      if id = .ofNat t.size then some (.ofNat t.size, kind, scope) else t.profile? id)
    (id : DeclId) (k : DeclKind) : t'.membersOf id k =
      t.membersOf id k ++ if kind = k ∧ scope = some id then [.ofNat t.size] else [] := by
  rw [membersOf, ids_succ hsize, List.filter_append, membersOf]
  congr 1
  · refine List.filter_congr fun x hx => ?_
    rw [hprofile, if_neg (ne_size_of_declares (mem_ids.1 hx))]
  · by_cases hin : kind = k ∧ scope = some id
    · rw [if_pos hin, List.filter_cons_of_pos (by simp [hprofile, hin]), List.filter_nil]
    · rw [if_neg hin, List.filter_cons_of_neg (by simpa [hprofile] using hin), List.filter_nil]

theorem listed_extend {t t' : Tree} {kind : DeclKind} {change : DeclId →
      (DeclKind → List DeclId) → DeclKind → List DeclId} (hsize : t'.size = t.size + 1)
    (hmembers : ∀ id, t'.members? id =
      if id = .ofNat t.size then (if kind = .contract then some fun _ => [] else none)
      else (t.members? id).map (change id)) :
    (t'.ids.filter fun id => (t'.members? id).isSome) =
      (t.ids.filter fun id => (t.members? id).isSome) ++
        if kind = .contract then [.ofNat t.size] else [] := by
  rw [ids_succ hsize, List.filter_append]
  congr 1
  · refine List.filter_congr fun x hx => ?_
    rw [hmembers, if_neg (ne_size_of_declares (mem_ids.1 hx)), Option.isSome_map]
  · by_cases hkind : kind = .contract <;> simp [hmembers, hkind]

theorem WellFormed.extend {t t' : Tree} (kind : DeclKind) (scope : Option DeclId)
    (h : t.WellFormed) (hsize : t'.size = t.size + 1)
    (hprofile : ∀ id, t'.profile? id =
      if id = .ofNat t.size then some (.ofNat t.size, kind, scope) else t.profile? id)
    (hmembers : ∀ id, t'.members? id =
      if id = .ofNat t.size then (if kind = .contract then some fun _ => [] else none)
      else (t.members? id).map fun m k =>
        m k ++ if kind = k ∧ scope = some id then [.ofNat t.size] else [])
    (hlisted : t'.contractIds.toList =
      t.contractIds.toList ++ if kind = .contract then [.ofNat t.size] else [])
    (hscope : ∀ s, scope = some s → (t.members? s).isSome = true) : t'.WellFormed where
  place := by
    intro id p hp
    rw [hprofile] at hp
    split at hp
    next hid =>
      cases hp
      exact hid.symm
    · exact h.place id p hp
  scope := by
    intro id p s hp hs
    have hold : (t.members? s).isSome = true := by
      rw [hprofile] at hp
      split at hp
      · cases hp
        exact hscope s hs
      · exact h.scope id p s hp hs
    rw [hmembers, if_neg (ne_size_of_declares (declares_of_members? hold)), Option.isSome_map]
    exact hold
  members := by
    intro id m k hm
    rw [membersOf_extend hsize hprofile]
    rw [hmembers] at hm
    split at hm
    next hid =>
      subst hid
      have hself : scope ≠ some (.ofNat t.size) := by
        intro hs
        exact ne_size_of_declares (declares_of_members? (hscope _ hs)) rfl
      split at hm
      · cases hm
        rw [h.membersOf_size, if_neg fun hand => hself hand.2, List.append_nil]
      · cases hm
    next hid =>
      obtain ⟨m', hm', rfl⟩ := Option.map_eq_some_iff.1 hm
      show m' k ++ _ = _
      rw [h.members id m' k hm']
  listed := by rw [hlisted, h.listed, listed_extend hsize hmembers]

/-! ### Steps of writing -/

theorem profile?_push (t : Tree) (d : Declaration) (id : DeclId) :
    (t.push d).profile? id = if id = .ofNat t.size then some d.profile else t.profile? id := by
  rw [profile?, find?_push]
  split <;> rfl

theorem members?_push (t : Tree) (d : Declaration) (id : DeclId) :
    (t.push d).members? id =
      if id = .ofNat t.size then d.contract?.map Contract.members else t.members? id := by
  rw [members?, contract?, find?_push]
  split <;> rfl

theorem profile?_replace {t : Tree} {id : DeclId} {d d' : Declaration}
    (hd : t.find? id = some d) (hsame : d'.profile = d.profile) (k : DeclId) :
    (t.replace id d').profile? k = t.profile? k := by
  rw [profile?, find?_replace]
  split
  next h =>
    rw [profile?, ← h.1, hd]
    exact congrArg some hsame
  · rfl

theorem members?_replace {t : Tree} {id : DeclId} {d d' : Declaration}
    (hd : t.find? id = some d) (k : DeclId) :
    (t.replace id d').members? k =
      if id = k then d'.contract?.map Contract.members else t.members? k := by
  have hdecl : t.declares id = true := declares_of_find? hd
  rw [members?, contract?, find?_replace]
  by_cases h : id = k
  · subst h
    rw [if_pos ⟨rfl, hdecl⟩, if_pos rfl]
    rfl
  · rw [if_neg fun hand => h hand.1, if_neg h]
    rfl

theorem kind_ne_contract {d : Declaration} (h : d.contract? = none) : d.kind ≠ .contract := by
  cases d with
  | contract c => cases h
  | _ => simp [Declaration.kind]

theorem WellFormed.push_contract {t : Tree} {c : Contract} (h : t.WellFormed)
    (hid : c.id = .ofNat t.size) (hlists : ∀ k, c.members k = []) :
    ((t.listContract c.id).push (.contract c)).WellFormed := by
  have hnil : c.members = fun _ => [] := funext hlists
  refine .extend .contract none h (by simp) (fun id => ?_) (fun id => ?_) ?_ (by simp)
  · rw [profile?_push, Declaration.profile, show (Declaration.contract c).id = _ from hid]
    rfl
  · rw [members?_push, size_listContract]
    split
    · simp [Declaration.contract?, hnil]
    · simp [members?, contract?]
  · simp [listContract, hid]

theorem WellFormed.push {t : Tree} {d : Declaration} (h : t.WellFormed)
    (hid : d.id = .ofNat t.size) (hscope : d.scope? = none) (hkind : d.contract? = none) :
    (t.push d).WellFormed := by
  refine .extend d.kind none h (by simp) (fun id => ?_) (fun id => ?_) ?_ (by simp)
  · rw [profile?_push, Declaration.profile, hid, hscope]
  · rw [members?_push, hkind]
    split
    · simp [kind_ne_contract hkind]
    · simp
  · simp [kind_ne_contract hkind]

theorem WellFormed.push_member {t : Tree} {d : Declaration} {s : DeclId} {c c' : Contract}
    (h : t.WellFormed) (hc : t.find? s = some (.contract c)) (hid : d.id = .ofNat t.size)
    (hscope : d.scope? = some s) (hsame : c'.id = c.id)
    (hlists : ∀ k, c'.members k = c.members k ++ if d.kind = k then [.ofNat t.size] else []) :
    ((t.replace s (.contract c')).push d).WellFormed := by
  have hkind : d.contract? = none := by
    cases d with
    | contract c => cases hscope
    | _ => rfl
  have hd : d.kind ≠ .contract := kind_ne_contract hkind
  have hs : t.members? s = some c.members := by
    simp [members?, contract?, hc, Declaration.contract?]
  refine .extend d.kind (some s) h (by simp) (fun id => ?_) (fun id => ?_) (by simp [hd]) ?_
  · have hprofile : (Declaration.contract c').profile = (Declaration.contract c).profile :=
      congrArg (fun i => (i, DeclKind.contract, none)) hsame
    rw [profile?_push, size_replace, profile?_replace hc hprofile, Declaration.profile, hid, hscope]
  · rw [members?_push, size_replace, members?_replace hc, hkind, if_neg hd]
    split
    · rfl
    · by_cases hsid : s = id
      · subst hsid
        rw [if_pos rfl, hs]
        refine congrArg some (funext fun k => ?_)
        rw [hlists]
        simp
      · rw [if_neg hsid]
        simp [hsid]
  · rintro s' hs'
    cases hs'
    rw [hs]
    rfl

end Tree

namespace Tree

theorem contract?_eq_some {t : Tree} {id : DeclId} {c : Contract} :
    t.contract? id = some c ↔ t.find? id = some (.contract c) := by
  unfold contract?
  cases t.find? id with
  | none => simp
  | some d => cases d <;> simp [Declaration.contract?]

variable {t : Tree}

theorem WellFormed.id_of_find? (h : t.WellFormed) {id : DeclId} {d : Declaration}
    (hd : t.find? id = some d) : d.id = id :=
  h.place id d.profile (by rw [profile?, hd]; rfl)

theorem WellFormed.contract?_id (h : t.WellFormed) {id : DeclId} {c : Contract}
    (hc : t.contract? id = some c) : t.contract? c.id = some c := by
  rw [show c.id = id from h.id_of_find? (contract?_eq_some.1 hc)]
  exact hc

/-- **The members of a contract** are the declarations with this scope. -/
theorem WellFormed.mem_members (h : t.WellFormed) (kind : DeclKind) {s id : DeclId} {c : Contract}
    (hc : t.contract? s = some c) :
    id ∈ c.members kind ↔ ∃ d, t.find? id = some d ∧ d.kind = kind ∧ d.scope? = some s := by
  rw [h.members s c.members kind (by rw [members?, hc]; rfl), membersOf, List.mem_filter, mem_ids]
  cases hd : t.find? id with
  | none => simp [declares, hd]
  | some d => simp [declares, profile?, hd, Declaration.profile]

/-- The ids that are listed are those that name contracts. -/
theorem WellFormed.mem_contractIds (h : t.WellFormed) {id : DeclId} :
    id ∈ t.contractIds.toList ↔ (t.contract? id).isSome = true := by
  rw [h.listed, List.mem_filter, mem_ids, members?, Option.isSome_map]
  refine and_iff_right_of_imp fun hc => ?_
  obtain ⟨c, hc⟩ := Option.isSome_iff_exists.1 hc
  exact declares_of_contract? hc

theorem WellFormed.mem_contracts_iff (h : t.WellFormed) {c : Contract} :
    c ∈ t.contracts ↔ t.contract? c.id = some c := by
  rw [contracts, List.mem_filterMap]
  constructor
  · rintro ⟨id, _, hc⟩
    exact h.contract?_id hc
  · intro hc
    exact ⟨c.id, h.mem_contractIds.2 (Option.isSome_of_eq_some hc), hc⟩

end Tree

namespace Draft

variable {d : Draft}

theorem error_fail (d : Draft) (e : Error) : (d.fail e).error ≠ none := by simp [fail]

theorem attach_of_ok {s : DeclId} {change : Contract → Contract}
    (hok : (d.attach s change).error = none) : ∃ c, d.tree.find? s = some (.contract c) ∧
      d.attach s change = { d with tree := d.tree.replace s (.contract (change c)) } := by
  cases hc : d.tree.contract? s with
  | none =>
    rw [attach, hc] at hok
    exact absurd hok (error_fail d _)
  | some c =>
    refine ⟨c, Tree.contract?_eq_some.1 hc, ?_⟩
    rw [attach, hc]

/-- A declaration other than a contract, listed by its contract if it has one. -/
theorem wellFormed_push (scope : Option DeclId) {change : Contract → Contract}
    {declaration : Declaration} (h : d.tree.WellFormed)
    (hok : (d.attachTo scope change).error = none) (hid : declaration.id = d.nextId)
    (hscope : declaration.scope? = scope) (hkind : declaration.contract? = none)
    (hchange : ∀ c, (change c).id = c.id ∧ ∀ k, (change c).members k =
      c.members k ++ if declaration.kind = k then [d.nextId] else []) :
    ((d.attachTo scope change).push declaration).tree.WellFormed := by
  cases scope with
  | none =>
    exact h.push hid hscope hkind
  | some s =>
    obtain ⟨c, hc, hattach⟩ := attach_of_ok hok
    rw [attachTo, hattach]
    exact h.push_member hc hid hscope (hchange c).1 (hchange c).2

/-- A change of what a declaration consists of, but not of what it is. -/
theorem wellFormed_replace {t : Tree} {id : DeclId} {old new : Declaration} (h : t.WellFormed)
    (hold : t.find? id = some old) (hsame : new.profile = old.profile)
    (hkind : new.contract? = old.contract?) : (t.replace id new).WellFormed := by
  refine h.of_same (by simp) (Tree.profile?_replace hold hsame) (fun k => ?_) (by simp)
  rw [Tree.members?_replace hold]
  split
  next hk =>
    subst hk
    rw [Tree.members?, Tree.contract?, hold, hkind]
    rfl
  · rfl

theorem wellFormed_setBody {id : DeclId} {body : Block} (h : d.tree.WellFormed)
    (hok : (d.setBody id body).error = none) : (d.setBody id body).tree.WellFormed := by
  unfold setBody at hok ⊢
  split at hok
  · exact absurd hok (error_fail d _)
  next f hf => exact wellFormed_replace h hf rfl rfl
  next m hm => exact wellFormed_replace h hm rfl rfl
  · exact absurd hok (error_fail d _)

theorem wellFormed_setValue {id : DeclId} {value : Expr} (h : d.tree.WellFormed)
    (hok : (d.setValue id value).error = none) : (d.setValue id value).tree.WellFormed := by
  unfold setValue at hok ⊢
  split at hok
  · exact absurd hok (error_fail d _)
  next v hv => exact wellFormed_replace h hv rfl rfl
  · exact absurd hok (error_fail d _)

/-- **One step** that makes no error keeps every declaration in its place. -/
theorem wellFormed_write {step : Step} (h : d.tree.WellFormed)
    (hok : (d.write step).1.error = none) : (d.write step).1.tree.WellFormed := by
  cases step with
  | contract name kind isAbstract bases =>
    refine h.push_contract rfl fun k => ?_
    cases k <;> rfl
  | function spec =>
    refine wellFormed_push _ h hok rfl rfl rfl fun c => ⟨rfl, fun k => ?_⟩
    cases k <;> simp [Contract.members, Declaration.kind, FunctionSpec.toFunction]
  | modifier spec =>
    refine wellFormed_push (some spec.scope) h hok rfl rfl rfl fun c => ⟨rfl, fun k => ?_⟩
    cases k <;> simp [Contract.members, Declaration.kind, ModifierSpec.toModifier]
  | event scope name params =>
    refine wellFormed_push _ h hok rfl rfl rfl fun c => ⟨rfl, fun k => ?_⟩
    cases k <;> simp [Contract.members, Declaration.kind]
  | «variable» spec =>
    refine wellFormed_push _ h hok rfl rfl rfl fun c => ⟨rfl, fun k => ?_⟩
    cases k <;> simp [Contract.members, Declaration.kind, VariableSpec.toVariable]
  | setBody id body => exact wellFormed_setBody h hok
  | setValue id value => exact wellFormed_setValue h hok

theorem error_fail_of_some {e e' : Error} (h : d.error = some e) : (d.fail e').error = some e := by
  simp [fail, h]

theorem error_attach {s : DeclId} {change : Contract → Contract} {e : Error}
    (h : d.error = some e) : (d.attach s change).error = some e := by
  unfold attach
  split
  · exact error_fail_of_some h
  · exact h

theorem error_attachTo {scope : Option DeclId} {change : Contract → Contract} {e : Error}
    (h : d.error = some e) : (d.attachTo scope change).error = some e := by
  cases scope with
  | none => exact h
  | some s => exact error_attach h

theorem error_setBody {id : DeclId} {body : Block} {e : Error} (h : d.error = some e) :
    (d.setBody id body).error = some e := by
  unfold setBody
  split
  · exact error_fail_of_some h
  · exact h
  · exact h
  · exact error_fail_of_some h

theorem error_setValue {id : DeclId} {value : Expr} {e : Error} (h : d.error = some e) :
    (d.setValue id value).error = some e := by
  unfold setValue
  split
  · exact error_fail_of_some h
  · exact h
  · exact error_fail_of_some h

/-- An error that was made stays. -/
theorem error_write {step : Step} {e : Error} (h : d.error = some e) :
    (d.write step).1.error = some e := by
  cases step with
  | contract name kind isAbstract bases => exact h
  | function spec => exact error_attachTo h
  | modifier spec => exact error_attach h
  | event scope name params => exact error_attachTo h
  | «variable» spec => exact error_attachTo h
  | setBody id body => exact error_setBody h
  | setValue id value => exact error_setValue h

theorem error_writeAll {steps : List Step} {e : Error} (h : d.error = some e) :
    (d.writeAll steps).1.error = some e := by
  induction steps generalizing d with
  | nil => exact h
  | cons step rest ih => exact ih (error_write h)

theorem error_of_writeAll {steps : List Step} (h : (d.writeAll steps).1.error = none) :
    d.error = none := by
  cases he : d.error with
  | none => rfl
  | some e =>
    rw [error_writeAll he] at h
    cases h

theorem wellFormed_writeAll {steps : List Step} (h : d.tree.WellFormed)
    (hok : (d.writeAll steps).1.error = none) : (d.writeAll steps).1.tree.WellFormed := by
  induction steps generalizing d with
  | nil => exact h
  | cons step rest ih =>
    have hstep : (d.write step).1.error = none := error_of_writeAll (d := (d.write step).1) hok
    exact ih (wellFormed_write h hstep) hok

end Draft

namespace Tree

theorem wellFormed_empty : ({} : Tree).WellFormed where
  place := by simp [profile?, find?]
  scope := by simp [profile?, find?]
  members := by simp [members?, contract?, find?]
  listed := rfl

/-- Changing every declaration moves none. -/
theorem find?_map (t : Tree) (change : Declaration → Declaration) (id : DeclId) :
    ({ t with declarations := t.declarations.map change } : Tree).find? id =
      (t.find? id).map change := by
  cases hid : id.index? with
  | none => simp [find?, hid]
  | some n => simp [find?, hid]

theorem eq_map_of_linearize {t t' : Tree} (h : t.linearize = .ok t') :
    ∃ known, t' = { t with declarations := t.declarations.map (ordered known) } := by
  unfold linearize at h
  obtain ⟨⟨known, orders⟩, _, hmap⟩ := bind_eq_ok h
  cases hmap
  exact ⟨known, rfl⟩

theorem find?_of_linearize {t t' : Tree} (h : t.linearize = .ok t') :
    ∃ known, ∀ id, t'.find? id = (t.find? id).map (ordered known) := by
  obtain ⟨known, rfl⟩ := eq_map_of_linearize h
  exact ⟨known, find?_map t (ordered known)⟩

theorem profile_ordered (known : Orders) (d : Declaration) :
    (ordered known d).profile = d.profile := by
  cases d <;> rfl

theorem members_ordered (known : Orders) (d : Declaration) :
    (ordered known d).contract?.map Contract.members = d.contract?.map Contract.members := by
  cases d with
  | contract c =>
    refine congrArg some (funext fun k => ?_)
    cases k <;> rfl
  | _ => rfl

/-- Finding the orders of the contracts moves no declaration. -/
theorem wellFormed_linearize {t t' : Tree} (h : t.WellFormed) (hok : t.linearize = .ok t') :
    t'.WellFormed := by
  obtain ⟨known, rfl⟩ := eq_map_of_linearize hok
  refine h.of_same (by simp [size]) (fun id => ?_) (fun id => ?_) rfl
  · rw [profile?, find?_map, Option.map_map]
    exact congrArg (Option.map · (t.find? id)) (funext (profile_ordered known))
  · rw [members?, contract?, find?_map, members?, contract?]
    cases t.find? id with
    | none => rfl
    | some d => exact members_ordered known d

/-- The draft of a tree that was handed out has no error. -/
theorem finish_of_ofSteps {steps : List Step} {t : Tree} (h : ofSteps steps = .ok t) :
    (Draft.writeAll {} steps).1.error = none ∧
      (Draft.writeAll {} steps).1.tree.linearize = .ok t := by
  unfold ofSteps Draft.finish at h
  split at h
  · cases h
  next herror => exact ⟨herror, h⟩

/-- **Trees that are written are well formed.** -/
theorem wellFormed_of_ofSteps {steps : List Step} {t : Tree} (h : ofSteps steps = .ok t) :
    t.WellFormed := by
  obtain ⟨herror, hlinearize⟩ := finish_of_ofSteps h
  exact wellFormed_linearize (Draft.wellFormed_writeAll wellFormed_empty herror) hlinearize

end Tree

end ContractCalls
