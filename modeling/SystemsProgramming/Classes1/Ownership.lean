import SystemsProgramming.Library.Ownership
import SystemsProgramming.Classes1.Task1
import SystemsProgramming.Classes1.Task3
import SystemsProgramming.Classes1.Task4
import SystemsProgramming.Classes1.Task5

/-!
# Who unlocks the mutex of the writers

In `Task1.c`, `Task3.c`, `Task4.c` and `Task5.c` the first reader in locks the mutex of the writers and
the last one out unlocks it.  Writers unlock what they locked, readers what a reader locked; with
overlapping readers it may be another one.
-/

namespace Classes1

open Pthread Transition

/-- Some thread is at an unlock of `m` while another one has it locked. -/
def Foreign {T D L M C O : Type} (P : Program T D L M C O) (m : M) (s : State T D L M C O) : Prop :=
  ∃ t u, t ≠ u ∧ Unlocking P s t m ∧ s.owner m = some u

/-- In all four programs the mutex of the writers is unlocked by the writer that locked it, or by a
reader after a reader, and by the same one if no two readers have been inside at once since. -/
theorem writer_mutex_discipline :
    (∀ (R W : Type) [Fintype R] [DecidableEq R] [DecidableEq W] (readerRuns : R → ℕ)
      (writerRuns : W → ℕ) (initialData : ℤ) (tr : List (Task1.St R W × Event (R ⊕ W)))
      (s : Task1.St R W),
      Run (Step (Task1.threads readerRuns writerRuns).program)
        ((Task1.threads readerRuns writerRuns).program.init
          (Task1.allocateConcurrentObject initialData)) tr s →
      (Task1.threads readerRuns writerRuns).Disciplined tr s) ∧
    (∀ (T X : Type) [Fintype T] [DecidableEq T] [DecidableEq X] (next : T → ℕ → ℤ → Option (TryCall X))
      (initialData : ℤ) (arrayIdx : X → ℤ)
      (tr : List (TryLightswitch.St T X (X → Task3.ConcurrentObject) Task3.Line × Event T))
      (s : TryLightswitch.St T X (X → Task3.ConcurrentObject) Task3.Line) (x : X),
      Run (Step (Task3.threads next).program) ((Task3.threads next).program.init fun x =>
        Task3.allocateObject initialData (arrayIdx x)) tr s →
      (Task3.threads next).Disciplined x tr s) ∧
    (∀ (R : Type) (n : ℕ) [Fintype R] [DecidableEq R] (readerRuns : R → ℕ) (writerRuns : Fin n → ℕ)
      (initialData : ℤ) (cells : ℕ → Bool)
      (tr : List (Lightswitch.St R (Task4.Worker n) Task4.ConcurrentObject Task4.Loc Task4.Mutex Unit
        Task4.Line × Event (R ⊕ Task4.Worker n)))
      (s : Lightswitch.St R (Task4.Worker n) Task4.ConcurrentObject Task4.Loc Task4.Mutex Unit
        Task4.Line),
      Run (Step (Task4.threads readerRuns writerRuns).program)
        ((Task4.threads readerRuns writerRuns).program.init
          (Task4.allocateObject initialData n cells)) tr s →
      (Task4.threads readerRuns writerRuns).Disciplined tr s) ∧
    ∀ (T X : Type) [Fintype T] [DecidableEq T] [DecidableEq X] (next : T → ℕ → ℤ → Option (TryCall X))
      (initialData : ℤ) (readersLimit arrayIdx : X → ℤ)
      (tr : List (TryLightswitch.St T X (X → Task5.ConcurrentObject) Task5.Line × Event T))
      (s : TryLightswitch.St T X (X → Task5.ConcurrentObject) Task5.Line) (x : X),
      Run (Step (Task5.threads next).program) ((Task5.threads next).program.init fun x =>
        Task5.allocateObject initialData (readersLimit x) (arrayIdx x)) tr s →
      (Task5.threads next).Disciplined x tr s := by
  refine ⟨?_, ?_, ?_, ?_⟩
  · intro R W _ _ _ readerRuns writerRuns initialData tr s h
    exact Lightswitch.disciplined_of_run Task1.lawful rfl h
  · intro T X _ _ _ next initialData arrayIdx tr s x h
    exact TryLightswitch.disciplined Task3.lawful rfl h
  · intro R n _ _ readerRuns writerRuns initialData cells tr s h
    exact Lightswitch.disciplined_of_run Task4.lawful rfl h
  · intro T X _ _ _ next initialData readersLimit arrayIdx tr s x h
    exact TryLightswitch.disciplined Task5.lawful rfl h

/-- Two readers of `Task1.c` are inside together and leave; one of them comes back alone, and is about
to unlock what it locked. -/
theorem writer_mutex_discipline_overlap :
    ∃ (s₁ s : Task1.St Bool Unit) (tr₁ tr₂ : List (Task1.St Bool Unit × Event (Bool ⊕ Unit))),
      Lightswitch.Inside s₁ (.inl false) ∧ Lightswitch.Inside s₁ (.inl true) ∧
      Run (Step (Task1.threads (fun _ : Bool => 2) fun _ : Unit => 1).program) s₁ tr₂ s ∧
      Unlocking (Task1.threads (fun _ : Bool => 2) fun _ : Unit => 1).program s (.inl false)
        .writerMutex ∧ s.owner .writerMutex = some (.inl false) ∧
      (Task1.threads (fun _ : Bool => 2) fun _ : Unit => 1).Disciplined (tr₁ ++ tr₂) s := by
  let S := Task1.threads (fun _ : Bool => 2) fun _ : Unit => 1
  let enter : List (Event (Bool ⊕ Unit)) :=
    List.replicate 5 (.exec (.inl false) 0) ++ List.replicate 4 (.exec (.inl true) 0)
  let leave : List (Event (Bool ⊕ Unit)) :=
    List.replicate 6 (.exec (.inl false) 0) ++ List.replicate 7 (.exec (.inl true) 0)
  let again : List (Event (Bool ⊕ Unit)) := List.replicate 10 (.exec (.inl false) 0)
  have hs₁ : (replay (exec S.program) enter
    (S.program.init (Task1.allocateConcurrentObject 0))).isSome := rfl
  let s₁ := (replay (exec S.program) enter
    (S.program.init (Task1.allocateConcurrentObject 0))).get hs₁
  have hs : (replay (exec S.program) (leave ++ again) s₁).isSome := rfl
  have h₁ := run_of_replay (fun _ _ _ => step_of_exec) (Option.some_get hs₁).symm
  have h₂ := run_of_replay (fun _ _ _ => step_of_exec) (Option.some_get hs).symm
  exact ⟨s₁, _, _, _, rfl, rfl, h₂, ⟨_, _, rfl, rfl⟩, rfl,
    writer_mutex_discipline.1 Bool Unit _ _ 0 _ _ (h₁.trans h₂)⟩

/-- In all four programs a reader can be about to unlock what another reader locked. -/
theorem writer_mutex_changes_hands :
    (∃ s : Task1.St (Fin 2) Unit,
      Reachable (Step (Task1.threads (fun _ : Fin 2 => 1) fun _ : Unit => 1).program)
        ((Task1.threads (fun _ : Fin 2 => 1) fun _ : Unit => 1).program.init
          (Task1.allocateConcurrentObject 0)) s ∧
      Foreign (Task1.threads (fun _ : Fin 2 => 1) fun _ : Unit => 1).program .writerMutex s) ∧
    (∃ s : TryLightswitch.St (Fin 2) (Fin 1) (Fin 1 → Task3.ConcurrentObject) Task3.Line,
      Reachable (Step (Task3.threads fun (_ : Fin 2) _ _ => some (.read (0 : Fin 1))).program)
        ((Task3.threads fun (_ : Fin 2) _ _ => some (.read (0 : Fin 1))).program.init fun _ =>
          Task3.allocateObject 0 0) s ∧
      Foreign (Task3.threads fun (_ : Fin 2) _ _ => some (.read (0 : Fin 1))).program (.room 0) s) ∧
    (∃ s : Lightswitch.St (Fin 2) (Task4.Worker 1) Task4.ConcurrentObject Task4.Loc Task4.Mutex Unit
        Task4.Line,
      Reachable (Step (Task4.threads (fun _ : Fin 2 => 1) fun _ : Fin 1 => 1).program)
        ((Task4.threads (fun _ : Fin 2 => 1) fun _ : Fin 1 => 1).program.init
          (Task4.allocateObject 0 1 fun _ => true)) s ∧
      Foreign (Task4.threads (fun _ : Fin 2 => 1) fun _ : Fin 1 => 1).program .writerMutex s) ∧
    ∃ s : TryLightswitch.St (Fin 2) (Fin 1) (Fin 1 → Task5.ConcurrentObject) Task5.Line,
      Reachable (Step (Task5.threads fun (_ : Fin 2) _ _ => some (.read (0 : Fin 1))).program)
        ((Task5.threads fun (_ : Fin 2) _ _ => some (.read (0 : Fin 1))).program.init fun _ =>
          Task5.allocateObject 0 2 0) s ∧
      Foreign (Task5.threads fun (_ : Fin 2) _ _ => some (.read (0 : Fin 1))).program (.room 0) s := by
  refine ⟨?_, ?_, ?_, ?_⟩
  · let S := Task1.threads (fun _ : Fin 2 => 1) fun _ : Unit => 1
    let ls : List (Event (Fin 2 ⊕ Unit)) := List.replicate 5 (.exec (.inl 0) 0) ++
      List.replicate 4 (.exec (.inl 1) 0) ++ List.replicate 6 (.exec (.inl 0) 0) ++
      List.replicate 5 (.exec (.inl 1) 0)
    have hs : (replay (exec S.program) ls
      (S.program.init (Task1.allocateConcurrentObject 0))).isSome := rfl
    have h := reachable_of_replay (fun _ _ _ => step_of_exec) (Option.some_get hs).symm
    exact ⟨_, h, .inl 1, .inl 0, by decide, ⟨_, _, rfl, rfl⟩, rfl⟩
  · let S := Task3.threads fun (_ : Fin 2) _ _ => some (.read (0 : Fin 1))
    let ls : List (Event (Fin 2)) := List.replicate 6 (.exec 0 0) ++ List.replicate 5 (.exec 1 0) ++
      List.replicate 5 (.exec 0 0) ++ List.replicate 4 (.exec 1 0)
    have hs : (replay (exec S.program) ls
      (S.program.init fun _ => Task3.allocateObject 0 0)).isSome := rfl
    have h := reachable_of_replay (fun _ _ _ => step_of_exec) (Option.some_get hs).symm
    exact ⟨_, h, 1, 0, by decide, ⟨_, _, rfl, rfl⟩, rfl⟩
  · let S := Task4.threads (fun _ : Fin 2 => 1) fun _ : Fin 1 => 1
    let ls : List (Event (Fin 2 ⊕ Task4.Worker 1)) := List.replicate 5 (.exec (.inl 0) 0) ++
      List.replicate 4 (.exec (.inl 1) 0) ++ List.replicate 5 (.exec (.inl 0) 0) ++
      List.replicate 4 (.exec (.inl 1) 0)
    have hs : (replay (exec S.program) ls
      (S.program.init (Task4.allocateObject 0 1 fun _ => true))).isSome := rfl
    have h := reachable_of_replay (fun _ _ _ => step_of_exec) (Option.some_get hs).symm
    exact ⟨_, h, .inl 1, .inl 0, by decide, ⟨_, _, rfl, rfl⟩, rfl⟩
  · let S := Task5.threads fun (_ : Fin 2) _ _ => some (.read (0 : Fin 1))
    let ls : List (Event (Fin 2)) := List.replicate 7 (.exec 0 0) ++ List.replicate 6 (.exec 1 0) ++
      List.replicate 5 (.exec 0 0) ++ List.replicate 4 (.exec 1 0)
    have hs : (replay (exec S.program) ls
      (S.program.init fun _ => Task5.allocateObject 0 2 0)).isSome := rfl
    have h := reachable_of_replay (fun _ _ _ => step_of_exec) (Option.some_get hs).symm
    exact ⟨_, h, 1, 0, by decide, ⟨_, _, rfl, rfl⟩, rfl⟩

end Classes1
