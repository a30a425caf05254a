import ContractCalls.CallGraph.Reach
import Mathlib.Logic.Relation
import Mathlib.Tactic.Common

/-!
# Paths of a call graph

`CallGraph.Path g a b` says that `b` can be reached from `a` along any number of edges.
The search of `CallGraph.reach` finds exactly these keys (`mem_reach`): what it has
reached is led to by a path (`path_of_mem_collect`), and what it has reached in the end is
closed under edges (`collect_closed`).

The first section says what the queries of a graph answer in terms of keys.  A key is
`Plain` if it stands for a callable; the two others are those of `entry` and
`internalDispatch`.
-/

namespace ContractCalls

/-! ### Keys -/

/-- The id is that of neither `entry` nor `internalDispatch`. -/
def DeclId.Plain (id : DeclId) : Prop := id ≠ Node.entryKey ∧ id ≠ Node.internalDispatchKey

namespace Node

theorem ofKey_of_plain {id : DeclId} (h : id.Plain) : ofKey id = .callable id := by
  rw [ofKey, if_neg h.1, if_neg h.2]

@[simp] theorem ofKey_entryKey : ofKey entryKey = .entry := by decide

@[simp] theorem ofKey_internalDispatchKey : ofKey internalDispatchKey = .internalDispatch := by
  decide

theorem ofKey_eq_callable {k id : DeclId} : ofKey k = .callable id ↔ k = id ∧ k.Plain := by
  constructor
  · intro h
    unfold ofKey at h
    split at h
    · cases h
    · split at h
      · cases h
      · cases h
        exact ⟨rfl, ‹_›, ‹_›⟩
  · intro hex
    obtain ⟨rfl, h⟩ := hex
    exact ofKey_of_plain h

theorem ofKey_inj {a b : DeclId} : ofKey a = ofKey b ↔ a = b := by
  constructor
  · intro h
    rw [← key_ofKey a, ← key_ofKey b, h]
  · rintro rfl
    rfl

theorem callable?_ofKey {k id : DeclId} : (ofKey k).callable? = some id ↔ k = id ∧ k.Plain := by
  rw [← ofKey_eq_callable]
  cases ofKey k <;> simp [callable?]

end Node

namespace CallGraph

variable {g : CallGraph}

theorem mem_edges_of_mem_targets {k callee : DeclId} (h : callee ∈ g.targets k) : k ∈ g.edges := by
  by_contra hk
  rw [targets, Std.ExtTreeMap.getElem?_eq_none hk] at h
  simp at h

theorem mem_targets_iff {k callee : DeclId} :
    callee ∈ g.targets k ↔ ∃ callees, (k, callees) ∈ g.edges.toList ∧ callee ∈ callees := by
  simp only [Std.ExtTreeMap.mem_toList_iff_getElem?_eq_some, targets]
  cases g.edges[k]? with
  | none => simp
  | some callees => simp

theorem mem_callees {n m : Node} : m ∈ g.callees n ↔ ∃ k ∈ g.targets n.key, Node.ofKey k = m := by
  simp [callees]

theorem touches_iff {k : DeclId} :
    g.touches k = true ↔ k ∈ g.edges ∨ ∃ caller, k ∈ g.targets caller := by
  simp only [touches, Bool.or_eq_true, Std.ExtTreeMap.contains_iff_mem, List.any_eq_true,
    Std.ExtTreeSet.contains_iff_mem, mem_targets_iff, Prod.exists]

theorem mem_nodeKeys {k : DeclId} :
    k ∈ g.nodeKeys ↔ k = Node.entryKey ∨ k ∈ g.edges ∨ ∃ caller, k ∈ g.targets caller := by
  have hkey : k ∈ g.edges ↔ ∃ callees, (k, callees) ∈ g.edges.toList := by
    simp only [Std.ExtTreeMap.mem_toList_iff_getElem?_eq_some,
      Std.ExtTreeMap.mem_iff_isSome_getElem?, Option.isSome_iff_exists]
  rw [hkey]
  simp only [nodeKeys, Std.ExtTreeSet.mem_ofList, List.contains_eq_mem, List.mem_cons,
    List.mem_flatMap, Std.ExtTreeSet.mem_toList, decide_eq_true_eq, mem_targets_iff, Prod.exists]
  grind

theorem mem_nodes {n : Node} : n ∈ g.nodes ↔ ∃ k ∈ g.nodeKeys, Node.ofKey k = n := by
  simp [nodes]

theorem internalDispatch_mem_nodes :
    .internalDispatch ∈ g.nodes ↔ Node.internalDispatchKey ∈ g.nodeKeys := by
  rw [mem_nodes, ← Node.ofKey_internalDispatchKey]
  simp only [Node.ofKey_inj, exists_eq_right]

theorem mem_callables {id : DeclId} : id ∈ g.callables ↔ id ∈ g.edges ∧ id.Plain := by
  simp only [callables, List.mem_filterMap, List.mem_map, Std.ExtTreeMap.mem_keys]
  constructor
  · intro hex
    obtain ⟨n, ⟨k, hk, rfl⟩, h⟩ := hex
    obtain ⟨rfl, hplain⟩ := Node.callable?_ofKey.1 h
    exact ⟨hk, hplain⟩
  · intro hex
    obtain ⟨hk, hplain⟩ := hex
    exact ⟨_, ⟨id, hk, rfl⟩, Node.callable?_ofKey.2 ⟨rfl, hplain⟩⟩

theorem mem_dispatchTargets {id : DeclId} :
    id ∈ g.dispatchTargets ↔ id ∈ g.targets Node.internalDispatchKey ∧ id.Plain := by
  simp only [dispatchTargets, List.mem_filterMap, mem_callees]
  constructor
  · intro hex
    obtain ⟨n, ⟨k, hk, rfl⟩, h⟩ := hex
    obtain ⟨rfl, hplain⟩ := Node.callable?_ofKey.1 h
    exact ⟨hk, hplain⟩
  · intro hex
    obtain ⟨hk, hplain⟩ := hex
    exact ⟨_, ⟨id, hk, rfl⟩, Node.callable?_ofKey.2 ⟨rfl, hplain⟩⟩

/-! ### Paths -/

/-- `b` is reached from `a` along edges. -/
def Path (g : CallGraph) : DeclId → DeclId → Prop :=
  Relation.ReflTransGen fun a b => b ∈ g.targets a

theorem Path.refl (k : DeclId) : g.Path k k := Relation.ReflTransGen.refl

theorem Path.tail {a b c : DeclId} (h : g.Path a b) (hc : c ∈ g.targets b) : g.Path a c :=
  Relation.ReflTransGen.tail h hc

/-- What the search has reached, it has reached along edges. -/
theorem path_of_mem_collect (g : CallGraph) (reached : IdSet) (queue : List DeclId) {k : DeclId}
    (h : k ∈ g.collect reached queue) : k ∈ reached ∨ ∃ q ∈ queue, g.Path q k := by
  fun_induction collect g reached queue with
  | case1 reached => exact .inl h
  | case2 reached key queue _ ih =>
    rcases ih h with hk | ⟨q, hq, hpath⟩
    · exact .inl hk
    · exact .inr ⟨q, List.mem_cons_of_mem key hq, hpath⟩
  | case3 reached key queue _ _ ih =>
    rcases ih h with hk | ⟨q, hq, hpath⟩
    · rcases Std.ExtTreeSet.mem_insert.1 hk with hk | hk
      · obtain rfl := Std.LawfulEqOrd.eq_of_compare hk
        exact .inr ⟨key, List.mem_cons_self, .refl key⟩
      · exact .inl hk
    · exact .inr ⟨q, List.mem_cons_of_mem key hq, hpath⟩
  | case4 reached key queue _ callees hkey ih =>
    rcases ih h with hk | ⟨q, hq, hpath⟩
    · rcases Std.ExtTreeSet.mem_insert.1 hk with hk | hk
      · obtain rfl := Std.LawfulEqOrd.eq_of_compare hk
        exact .inr ⟨key, List.mem_cons_self, .refl key⟩
      · exact .inl hk
    · rcases List.mem_append.1 hq with hq | hq
      · exact .inr ⟨q, List.mem_cons_of_mem key hq, hpath⟩
      · refine .inr ⟨key, List.mem_cons_self, .head ?_ hpath⟩
        rw [targets, hkey]
        exact Std.ExtTreeSet.mem_toList.1 hq

/-- The search loses nothing that it has reached or that is queued. -/
theorem mem_collect (g : CallGraph) (reached : IdSet) (queue : List DeclId) {k : DeclId}
    (h : k ∈ reached ∨ k ∈ queue) : k ∈ g.collect reached queue := by
  fun_induction collect g reached queue with
  | case1 reached => simpa using h
  | case2 reached key queue hreached ih =>
    refine ih ?_
    rcases h with h | h
    · exact .inl h
    · rcases List.mem_cons.1 h with rfl | h
      · exact .inl hreached
      · exact .inr h
  | case3 reached key queue _ _ ih =>
    refine ih ?_
    rcases h with h | h
    · exact .inl (by simp [h])
    · rcases List.mem_cons.1 h with rfl | h
      · exact .inl (by simp)
      · exact .inr h
  | case4 reached key queue _ callees _ ih =>
    refine ih ?_
    rcases h with h | h
    · exact .inl (by simp [h])
    · rcases List.mem_cons.1 h with rfl | h
      · exact .inl (by simp)
      · exact .inr (List.mem_append_left _ h)

/-- If all edges out of what is reached lead to what is reached or queued, then no edge
leads out of what is reached in the end. -/
theorem collect_closed (g : CallGraph) (reached : IdSet) (queue : List DeclId)
    (hinv : ∀ a ∈ reached, ∀ b ∈ g.targets a, b ∈ reached ∨ b ∈ queue) :
    ∀ a ∈ g.collect reached queue, ∀ b ∈ g.targets a, b ∈ g.collect reached queue := by
  fun_induction collect g reached queue with
  | case1 reached => simpa using hinv
  | case2 reached key queue hreached ih =>
    refine ih fun a ha b hb => ?_
    rcases hinv a ha b hb with h | h
    · exact .inl h
    · rcases List.mem_cons.1 h with rfl | h
      · exact .inl hreached
      · exact .inr h
  | case3 reached key queue _ hkey ih =>
    refine ih fun a ha b hb => ?_
    rcases Std.ExtTreeSet.mem_insert.1 ha with ha | ha
    · obtain rfl := Std.LawfulEqOrd.eq_of_compare ha
      rw [targets, hkey] at hb
      simp at hb
    · rcases hinv a ha b hb with h | h
      · exact .inl (by simp [h])
      · rcases List.mem_cons.1 h with rfl | h
        · exact .inl (by simp)
        · exact .inr h
  | case4 reached key queue _ callees hkey ih =>
    refine ih fun a ha b hb => ?_
    rcases Std.ExtTreeSet.mem_insert.1 ha with ha | ha
    · obtain rfl := Std.LawfulEqOrd.eq_of_compare ha
      rw [targets, hkey] at hb
      exact .inr (List.mem_append_right _ (Std.ExtTreeSet.mem_toList.2 hb))
    · rcases hinv a ha b hb with h | h
      · exact .inl (by simp [h])
      · rcases List.mem_cons.1 h with rfl | h
        · exact .inl (by simp)
        · exact .inr (List.mem_append_left _ h)

/-- **The search is exact.**  It finds what some path leads to, and nothing else. -/
theorem mem_reach {start k : DeclId} : k ∈ g.reach start ↔ g.Path start k := by
  constructor
  · intro h
    rcases path_of_mem_collect g ∅ [start] h with h | ⟨q, hq, hpath⟩
    · simp at h
    · obtain rfl := List.mem_singleton.1 hq
      exact hpath
  · intro h
    have hclosed := collect_closed g ∅ [start] (by simp)
    induction h with
    | refl => exact mem_collect g ∅ [start] (.inr List.mem_cons_self)
    | tail _ hc ih => exact hclosed _ ih _ hc

theorem mem_reachableFrom_entry {k : DeclId} (h : g.Path Node.entryKey k) :
    Node.ofKey k ∈ g.reachableFrom .entry := by
  rw [reachableFrom, List.mem_map]
  refine ⟨k, Std.ExtTreeSet.mem_toList.2 (mem_reach.2 h), ?_⟩
  split
  · subst k
    exact Node.ofKey_entryKey.symm
  · rfl

theorem isDispatchReachable_iff :
    g.isDispatchReachable = true ↔ g.Path Node.entryKey Node.internalDispatchKey := by
  rw [isDispatchReachable, Std.ExtTreeSet.contains_iff_mem]
  exact mem_reach

theorem touches_of_mem_targets {caller k : DeclId} (h : k ∈ g.targets caller) :
    g.touches k = true :=
  touches_iff.2 (.inr ⟨caller, h⟩)

theorem isDispatchReachable_of_not_contains (h : g.contains .internalDispatch = false) :
    g.isDispatchReachable = false := by
  by_contra hreach
  rw [Bool.not_eq_false, isDispatchReachable_iff] at hreach
  rcases Relation.ReflTransGen.cases_tail hreach with heq | ⟨caller, _, hlast⟩
  · exact absurd heq (by decide)
  · rw [contains, show Node.key .internalDispatch = Node.internalDispatchKey from rfl,
      touches_of_mem_targets hlast, Bool.or_true] at h
    cases h

end CallGraph

end ContractCalls
