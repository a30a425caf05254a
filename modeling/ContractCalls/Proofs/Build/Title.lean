import ContractCalls.Proofs.Build.Run

/-!
# Whose graph it is

A graph carries the id and the name of the contract that it is built for.  A build writes them at
its beginning and never changes them (`title_creation`, `title_deployment`).
-/

namespace ContractCalls

namespace Build

variable {r : Resolver}

theorem kept_title (title : DeclId × String) : Kept fun b => b.graph.title = title where
  alike := fun _ _ halike h => halike.title.trans h
  addEdge := fun _ _ _ h => h
  enqueue := by
    intro b id h
    unfold enqueue
    split <;> exact h

theorem title_takeAll (b : Build) (fs : List Finding) :
    (b.takeAll fs).graph.title = b.graph.title :=
  (kept_title b.graph.title).takeAll fs rfl

theorem title_drain (b : Build) : (b.drain r).graph.title = b.graph.title :=
  drain_keeps (p := fun b' => b'.graph.title = b.graph.title)
    (fun _ _ _ _ _ h => (title_takeAll _ _).trans h) (fun _ h => h) rfl

theorem title_finishQueue (b : Build) : (b.finishQueue r).graph.title = b.graph.title := by
  unfold finishQueue
  split
  · rfl
  · exact title_drain _

theorem title_creation (r : Resolver) :
    (creation r).graph.title = (r.contract.id, r.contract.name) := by
  rw [creation_eq, title_finishQueue]
  exact title_takeAll _ _

theorem title_deployment (r : Resolver) (pointers : IdSet) (config : Config) :
    (deployment r pointers config).graph.title = (r.contract.id, r.contract.name) := by
  have hbegin :
      (((begin .deployment r.contract).takeAll (entrySites r)).finishQueue r).graph.title =
        (r.contract.id, r.contract.name) :=
    (title_finishQueue _).trans (title_takeAll _ _)
  unfold deployment
  simp only
  split
  · exact (title_finishQueue _).trans ((title_takeAll _ _).trans hbegin)
  · exact hbegin

end Build

end ContractCalls
