import ContractCalls.Proofs.Graph.WalkedCode

/-!
# What ends a build

A build can come upon more than one failure, and the first ends it.  Whichever this is, walked code
tells it (`Accounted.ended`): `accounted_creation`, `accounted_deployment`.

That a failure is among the findings that code leads to (`Resolver.Found`) would not be enough.
What malformed code names may be endless, but then the build has ended before it comes to that.
So the reasons that `Justified` asks for are looked for among what has been taken in by a build that
is still running, and all the code that it has read is `Sound`.
-/

namespace ContractCalls

open Finding

namespace Resolver

/-- All that the portion tells can be taken in. -/
def Sound (r : Resolver) (seeds : List Finding) (p : Portion) : Prop :=
  ∀ e, .error e ∉ r.tells seeds p

/-- What a build that is still running has taken in. -/
inductive Gathered (r : Resolver) (seed : Seed) (seeds : List Finding) (carried : DeclId → Prop) :
    Finding → Prop where
  | told {p : Portion} {f : Finding} : r.Walked seed carried p → r.Sound seeds p →
      f ∈ r.tells seeds p → Gathered r seed seeds carried f
  | carried {p : Portion} {id : DeclId} : r.Walked seed carried p → r.Sound seeds p →
      HasIndirect (· ∈ r.tells seeds p) → carried id →
      Gathered r seed seeds carried (Build.carriedSite id)

variable {r : Resolver} {seed : Seed} {seeds : List Finding} {carried : DeclId → Prop} {p : Portion}

theorem Sound.leadsOn (h : r.Sound seeds p) : r.LeadsOn p := by
  cases p with
  | seed => trivial
  | callable id =>
    obtain ⟨c, hc⟩ := exists_callable? h
    refine ⟨c, hc, fun hmalformed => ?_⟩
    obtain ⟨e, he⟩ := (error_mem_code hc).2 hmalformed
    exact h _ he

theorem Gathered.exists_indirect (h : HasIndirect (r.Gathered seed seeds carried)) :
    ∃ p, r.Walked seed carried p ∧ r.Sound seeds p ∧ HasIndirect (· ∈ r.tells seeds p) := by
  obtain ⟨i, hi, hind⟩ := h
  cases hi with
  | told hp hsound hi => exact ⟨_, hp, hsound, i, hi, hind⟩
  | carried => cases hind

/-- What a build that is still running has put into its queue is walked. -/
theorem Gathered.walked_of_queued (hplants : r.Plants seed seeds) {id : DeclId}
    (hid : Queued (r.Gathered seed seeds carried) id) : r.Walked seed carried (.callable id) := by
  rcases hid with ⟨f, hf, htarget⟩ | ⟨hind, f, hf, hpointer⟩
  · cases hf with
    | told hp hsound hf => exact hplants.walked_of_hasTarget hp hsound.leadsOn ⟨f, hf, htarget⟩
    | carried => cases htarget
  · obtain ⟨p, hp, hsound, hind⟩ := exists_indirect hind
    have hcalls := (hplants.hasIndirect_iff hsound.leadsOn).1 hind
    cases hf with
    | told hq hsound' hf =>
      have htakes := (hplants.hasPointer_iff hsound'.leadsOn).1 ⟨f, hf, hpointer⟩
      exact .pointer hp hsound.leadsOn hcalls hq hsound'.leadsOn htakes
    | carried _ _ _ hid =>
      cases hpointer
      exact .carried hp hsound.leadsOn hcalls hid

end Resolver

namespace Build

variable {r : Resolver} {seed : Seed} {seeds : List Finding} {carried : DeclId → Prop}
  {p : Portion} {b : Build} {e : Failure}

/-- While the build is running, it has done all for a reason, and what has ended it is told by
walked code. -/
structure Accounted (r : Resolver) (seed : Seed) (seeds : List Finding) (carried : DeclId → Prop)
    (b : Build) : Prop where
  running : b.error = none → Justified (r.Gathered seed seeds carried) b
  ended : ∀ e, b.error = some e → ∃ p, r.Walked seed carried p ∧ .error e ∈ r.tells seeds p

/-- **Walked code is taken in**, all of it or up to its first failure. -/
theorem Justified.read (h : Justified (r.Gathered seed seeds carried) b) (hok : b.error = none)
    (hp : r.Walked seed carried p) :
    Accounted r seed seeds carried (b.takeAll (r.tells seeds p)) where
  running := fun hok' => h.takeAll fun _ hf => .told hp (sound_of_takeAll hok') hf
  ended := fun _ he => ⟨p, hp, error_mem_of_takeAll hok he⟩

namespace Accounted

theorem moveTo (h : Accounted r seed seeds carried b) (n : Node) :
    Accounted r seed seeds carried (b.moveTo n) :=
  ⟨fun hok => (h.running hok).moveTo n, h.ended⟩

theorem drain (hplants : r.Plants seed seeds) (h : Accounted r seed seeds carried b) :
    Accounted r seed seeds carried (b.drain r) := by
  refine drain_keeps (fun b id rest hok hq hb => ?_) (fun b hb => hb.moveTo .entry) h
  have hjustified := hb.running hok
  have hwalked := Resolver.Gathered.walked_of_queued hplants (hjustified.waiting id (by simp [hq]))
  exact (hjustified.start hq).read hok hwalked

theorem finishQueue (hplants : r.Plants seed seeds) (h : Accounted r seed seeds carried b) :
    Accounted r seed seeds carried (b.finishQueue r) := by
  unfold Build.finishQueue
  split
  · exact h
  · have hnoted : Accounted r seed seeds carried (b.note (.drain b.current)) :=
      ⟨fun hok => (h.running hok).note _ (by simp) (by simp), h.ended⟩
    exact hnoted.drain hplants

end Accounted

theorem accounted_creation (hfits : r.Fits) :
    Accounted r r.constructionSeed r.creationSeeds (fun _ => False) (creation r) := by
  have hseeds : Accounted r r.constructionSeed r.creationSeeds (fun _ => False)
      ((begin .creation r.contract).takeAll r.creationSeeds) :=
    (Justified.begin_ _ _).read rfl .seed
  rw [creation_eq]
  exact (hseeds.moveTo .entry).finishQueue (Resolver.plants_construction hfits)

theorem accounted_uncarried (r : Resolver) (carried : DeclId → Prop) :
    Accounted r r.deploymentSeed (entrySites r) carried (uncarried r) := by
  have hseeds : Accounted r r.deploymentSeed (entrySites r) carried
      ((begin .deployment r.contract).takeAll (entrySites r)) :=
    (Justified.begin_ _ _).read rfl .seed
  exact hseeds.finishQueue Resolver.plants_deployment

theorem accounted_deployment (hfits : r.Fits) (pointers : IdSet) (config : Config) :
    Accounted r r.deploymentSeed (entrySites r) (Carried pointers config)
      (deployment r pointers config) := by
  have huncarried := accounted_uncarried r (Carried pointers config)
  rw [deployment_eq]
  split
  next hcarries =>
    obtain ⟨hok, hconfig, hreach⟩ := carries_iff.1 hcarries
    have hjustified := huncarried.running hok
    -- A pointer is called in code that has been read.
    obtain ⟨more, read, hstage, _⟩ := stage_uncarried (Carried pointers config) hok
    have hind := (hstage.isDispatchReachable_iff (Resolver.starts_entrySites hfits)).1 hreach
    obtain ⟨p, hp, hsound, hcalls⟩ := Resolver.Gathered.exists_indirect
      (hjustified.dispatching (hstage.records.dispatching.2 hind))
    have hsites : ∀ f ∈ pointers.toList.map carriedSite,
        r.Gathered r.deploymentSeed (entrySites r) (Carried pointers config) f := by
      intro f hf
      obtain ⟨id, hid, rfl⟩ := List.mem_map.1 hf
      exact .carried hp hsound hcalls ⟨hconfig, Std.ExtTreeSet.mem_toList.1 hid⟩
    have hnoted := hjustified.note (.carry pointers.size r.contract.name) (by simp) (by simp)
    have hcarried : Accounted r r.deploymentSeed (entrySites r) (Carried pointers config)
        (((uncarried r).note (.carry pointers.size r.contract.name)).takeAll
          (pointers.toList.map carriedSite)) := by
      refine ⟨fun _ => hnoted.takeAll hsites, fun e he => ?_⟩
      obtain ⟨_, _, hsite⟩ := List.mem_map.1 (error_mem_of_takeAll (by exact hok) he)
      cases hsite
    exact hcarried.finishQueue Resolver.plants_deployment
  · exact huncarried

end Build

end ContractCalls
