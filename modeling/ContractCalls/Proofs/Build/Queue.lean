import ContractCalls.Proofs.Build.Acts
import ContractCalls.Proofs.CallGraph.Paths

/-!
# The queue of a build

Every callable of a graph in the making has been read or waits in the queue, and none is
queued twice: `Reading b read`.  This depends on an order in which findings come in.  An edge
makes its caller an entry of the graph, and a callable that has an entry is not queued any
more; so the caller of an edge has to be known before (`AnchoredAt`).  The findings of code
come in such an order: a modifier is attached before it goes on into its function.
-/

namespace ContractCalls

open Finding

namespace Finding

/-- One of the findings makes the callable part of the graph. -/
def Queued (found : Finding → Prop) (id : DeclId) : Prop :=
  HasTarget found id ∨ Dispatches found id

/-- The caller of each edge is a root, or made part of the graph by the findings before. -/
def AnchoredAt (root : DeclId → Prop) (fs : List Finding) : Prop :=
  ∀ before f after, fs = before ++ f :: after → ∀ a b, f.edge? = some (a, b) →
    root a.key ∨ Queued (· ∈ before) a.key

theorem Queued.mono {found found' : Finding → Prop} (hsub : ∀ f, found f → found' f) {id : DeclId}
    (h : Queued found id) : Queued found' id := by
  rcases h with ⟨f, hf, h⟩ | ⟨⟨f, hf, h⟩, ⟨p, hp, hid⟩⟩
  · exact .inl ⟨f, hsub f hf, h⟩
  · exact .inr ⟨⟨f, hsub f hf, h⟩, ⟨p, hsub p hp, hid⟩⟩

namespace AnchoredAt

variable {root root' : DeclId → Prop} {fs gs : List Finding}

theorem of_forall (h : ∀ f ∈ fs, ∀ a b, f.edge? = some (a, b) → root a.key) :
    AnchoredAt root fs := by
  rintro before f after rfl a b hf
  exact .inl (h f (by simp) a b hf)

theorem nil : AnchoredAt root [] := of_forall (by simp)

theorem error (e : Failure) : AnchoredAt root [.error e] := by
  refine of_forall fun f hf a b hedge => ?_
  obtain rfl := List.mem_singleton.1 hf
  cases hedge

theorem caller (h : AnchoredAt root fs) {f : Finding} (hf : f ∈ fs) {a b : Node}
    (hedge : f.edge? = some (a, b)) : root a.key ∨ Queued (· ∈ fs) a.key := by
  obtain ⟨before, after, rfl⟩ := List.append_of_mem hf
  rcases h before f after rfl a b hedge with hroot | hqueued
  · exact .inl hroot
  · exact .inr (hqueued.mono fun _ => List.mem_append_left _)

theorem append (h : AnchoredAt root fs) (h' : AnchoredAt root' gs)
    (hroot : ∀ k, root' k → root k ∨ Queued (· ∈ fs) k) : AnchoredAt root (fs ++ gs) := by
  intro before f after hsplit a b hf
  rcases List.append_eq_append_iff.1 hsplit with ⟨mid, rfl, hmid⟩ | ⟨mid, hfs, hmid⟩
  · -- The finding is one of `gs`.
    rcases h' mid f after hmid a b hf with hr | hq
    · rcases hroot _ hr with hr | hq
      · exact .inl hr
      · exact .inr (hq.mono fun _ => List.mem_append_left _)
    · exact .inr (hq.mono fun _ => List.mem_append_right _)
  · cases mid with
    | nil =>
      rw [List.append_nil] at hfs
      subst hfs
      rcases h' [] f after hmid.symm a b hf with hr | hq
      · exact hroot _ hr
      · exact .inr (hq.mono fun _ hmem => absurd hmem List.not_mem_nil)
    | cons g mid =>
      cases hmid
      exact h before f mid hfs a b hf

theorem append_self (h : AnchoredAt root fs) (h' : AnchoredAt root gs) :
    AnchoredAt root (fs ++ gs) :=
  h.append h' fun _ => .inl

theorem flatMap {α : Type} {code : α → List Finding} {xs : List α}
    (h : ∀ x ∈ xs, AnchoredAt root (code x)) : AnchoredAt root (xs.flatMap code) := by
  induction xs with
  | nil => exact nil
  | cons x xs ih =>
    rw [List.flatMap_cons]
    exact (h x List.mem_cons_self).append_self (ih fun y hy => h y (List.mem_cons_of_mem x hy))

end AnchoredAt

end Finding

/-- Only a call site has an edge, and its edge starts at its caller. -/
theorem Finding.caller_of_edge? {f : Finding} {a b : Node} (h : f.edge? = some (a, b)) :
    ∃ s, f = .site s ∧ s.kind ≠ .reference ∧ s.edge? = some (a, b) ∧ s.caller = a := by
  cases f with
  | site s =>
    by_cases hkind : s.kind = .reference
    · rw [Finding.edge?, if_pos hkind] at h
      cases h
    · rw [Finding.edge?, if_neg hkind] at h
      refine ⟨s, rfl, hkind, h, ?_⟩
      obtain ⟨caller, kind, target⟩ := s
      cases target <;> cases kind <;> simp_all [CallSite.edge?, Target.node?]
  | _ => cases h

namespace Resolver

variable {r : Resolver} {n : Node}

theorem anchoredAt_ofPlaceholder {function target : DeclId} :
    AnchoredAt (· = target) (r.ofPlaceholder function target) := by
  refine .of_forall fun f hf a b hedge => ?_
  obtain ⟨s, rfl, _, _, rfl⟩ := Finding.caller_of_edge? hedge
  obtain ⟨_, rfl⟩ := site_mem_ofPlaceholder.1 hf
  rfl

theorem anchoredAt_ofInvocation (i : Invocation) :
    AnchoredAt (· = n.key) (r.ofInvocation n i) := by
  unfold ofInvocation
  split
  · exact .error _
  · split
    · exact .error _
    · exact .nil
    · split
      · exact .error _
      · split
        · exact .error _
        next function _ target _ =>
          -- The modifier is queued by its attachment, before it goes on into the function.
          rw [← List.singleton_append]
          refine .append (.of_forall ?_) anchoredAt_ofPlaceholder ?_
          · intro f hf a b hedge
            obtain ⟨s, rfl, _, _, rfl⟩ := Finding.caller_of_edge? hedge
            cases List.mem_singleton.1 hf
            rfl
          · rintro k rfl
            exact .inr (.inl ⟨_, List.mem_singleton.2 rfl, rfl⟩)
    · exact .error _

theorem anchoredAt_ofOccurrence (o : Occurrence) : AnchoredAt (· = n.key) (r.ofOccurrence n o) := by
  have hnamed : ∀ note ref, AnchoredAt (· = n.key) (r.ofNamed n note ref) := by
    intro note ref
    refine .of_forall fun f hf a b hedge => ?_
    obtain ⟨s, rfl, _, _, rfl⟩ := Finding.caller_of_edge? hedge
    obtain ⟨_, _, _, _, _, _, rfl⟩ := site_mem_ofNamed.1 hf
    rfl
  cases o with
  | call callee args kind =>
    refine .of_forall fun f hf a b hedge => ?_
    obtain ⟨s, rfl, _, _, rfl⟩ := Finding.caller_of_edge? hedge
    obtain ⟨_, _, _, rfl⟩ := site_mem_ofCall.1 hf
    rfl
  | identifier note ref => exact hnamed note ref
  | member note ref => exact hnamed note ref
  | creation name contract =>
    refine .of_forall fun f hf a b hedge => ?_
    obtain ⟨s, rfl, _⟩ := Finding.caller_of_edge? hedge
    cases contract <;> simp [ofOccurrence] at hf
  | emission event =>
    refine .of_forall fun f hf a b hedge => ?_
    obtain ⟨s, rfl, _⟩ := Finding.caller_of_edge? hedge
    exact absurd hf site_mem_ofEmission
  | placeholder => exact .nil
  | invocation i => exact anchoredAt_ofInvocation i

theorem anchoredAt_ofInlined (o : Occurrence) : AnchoredAt (· = n.key) (r.ofInlined n o) := by
  unfold ofInlined
  split
  · exact .error _
  · exact anchoredAt_ofOccurrence o

/-- **The findings of code come in order.**  Each edge starts at the node that is read, or at a
modifier that was attached before. -/
theorem anchoredAt_findings (os : List Occurrence) : AnchoredAt (· = n.key) (r.findings n os) :=
  .flatMap fun o _ => anchoredAt_ofInlined o

end Resolver

namespace Build

/-- The callables of the graph are those that were read and those in the queue. -/
structure Reading (b : Build) (read : List DeclId) : Prop where
  nodup : (read ++ b.queue).Nodup
  entries : ∀ id ∈ read ++ b.queue, id ∈ b.graph.edges
  known : ∀ id ∈ b.graph.edges, id.Plain → id ∈ read ++ b.queue

namespace Reading

variable {b : Build} {read : List DeclId}

theorem of_eq {b' : Build} (h : Reading b read) (hedges : b'.graph.edges = b.graph.edges)
    (hqueue : b'.queue = b.queue) : Reading b' read where
  nodup := by
    rw [hqueue]
    exact h.nodup
  entries := by
    rw [hqueue, hedges]
    exact h.entries
  known := by
    rw [hqueue, hedges]
    exact h.known

theorem addEdge {caller callee : Node} (h : Reading b read)
    (hcaller : caller.key.Plain → caller.key ∈ b.graph.edges) :
    Reading (b.addEdge caller callee) read where
  nodup := h.nodup
  entries := by
    intro id hid
    exact ((grows_addEdge b caller callee).keys id).2 (.inl (h.entries id hid))
  known := by
    intro id hid hplain
    rcases ((grows_addEdge b caller callee).keys id).1 hid with hid | rfl
    · exact h.known id hid hplain
    · exact h.known _ (hcaller hplain) hplain

theorem enqueue (h : Reading b read) (id : DeclId) : Reading (b.enqueue id) read := by
  have hkeys := (grows_enqueue b id).keys
  unfold Build.enqueue at hkeys ⊢
  split
  · exact h
  next hid =>
    rw [if_neg hid] at hkeys
    have hnew : id ∉ read ++ b.queue := fun hmem => hid (h.entries id hmem)
    refine ⟨?_, fun k hk => ?_, fun k hk hplain => ?_⟩
    · simp only [note]
      rw [← List.append_assoc]
      refine List.nodup_append.2 ⟨h.nodup, by simp, ?_⟩
      rintro k hk k' hk' rfl
      rw [List.mem_singleton.1 hk'] at hk
      exact hnew hk
    · simp only [note] at hk
      rw [← List.append_assoc] at hk
      rcases List.mem_append.1 hk with hk | hk
      · exact (hkeys k).2 (.inl (h.entries k hk))
      · exact (hkeys k).2 (.inr (List.mem_singleton.1 hk).symm)
    · simp only [note]
      rw [← List.append_assoc]
      rcases (hkeys k).1 hk with hk | rfl
      · exact List.mem_append_left _ (h.known k hk hplain)
      · exact List.mem_append_right _ (List.mem_singleton_self _)

theorem act {f : Finding} {b' : Build} (h : Reading b read) (hact : Act f b b')
    (hcaller : ∀ caller callee, f.edge? = some (caller, callee) → caller.key.Plain →
      caller.key ∈ b.graph.edges) : Reading b' read := by
  cases hact with
  | edge hedge => exact h.addEdge (hcaller _ _ hedge)
  | queue => exact h.enqueue _
  | dispatch => exact (h.addEdge fun hplain => absurd rfl hplain.2).enqueue _
  | _ => exact h.of_eq rfl rfl

/-- A finding whose caller is part of the graph keeps the queue in order. -/
theorem take {f : Finding} (h : Reading b read) (hcaller : ∀ caller callee,
    f.edge? = some (caller, callee) → caller.key.Plain → caller.key ∈ b.graph.edges) :
    Reading (b.take f) read := by
  have hkeeps : ∀ b b', Act f b b' →
      (Reading b read ∧ ∀ caller callee, f.edge? = some (caller, callee) → caller.key.Plain →
        caller.key ∈ b.graph.edges) →
      Reading b' read ∧ ∀ caller callee, f.edge? = some (caller, callee) → caller.key.Plain →
        caller.key ∈ b'.graph.edges := by
    intro b b' hact hb
    exact ⟨hb.1.act hact hb.2, fun caller callee hedge hplain =>
      hact.mem_edges (hb.2 caller callee hedge hplain)⟩
  exact (take_keeps hkeeps ⟨h, hcaller⟩).1

end Reading

theorem Records.mem_edges_of_queued {b : Build} {fs : List Finding} (h : Records b fs)
    {id : DeclId} (hid : Queued (· ∈ fs) id) : id ∈ b.graph.edges := by
  rcases hid with hid | hid
  · exact (h.graph.keys id).2 (.inr (.inl hid))
  · exact (h.graph.keys id).2 (.inr (.inr (.inl hid)))

theorem Reading.takeAll {b : Build} {read : List DeclId} {fs : List Finding} (h : Reading b read)
    (hrec : Records b fs) (gs : List Finding) (hok : (b.takeAll gs).error = none)
    (hanchored : AnchoredAt (· = Node.entryKey) (fs ++ gs)) :
    Reading (b.takeAll gs) read := by
  induction gs generalizing b fs with
  | nil => exact h
  | cons g gs ih =>
    have hg : (b.take g).error = none := error_of_takeAll (b.take g) gs hok
    refine ih (h.take fun caller callee hedge hplain => ?_) (hrec.take hg) hok ?_
    · rcases hanchored fs g gs rfl caller callee hedge with hroot | hqueued
      · exact absurd hroot hplain.1
      · exact hrec.mem_edges_of_queued hqueued
    · rw [← List.append_cons]
      exact hanchored

end Build

end ContractCalls
