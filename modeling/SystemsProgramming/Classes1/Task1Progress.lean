import SystemsProgramming.Classes1.Task1

/-!
# The readers and writers of `Task1.c` make progress

No thread ever sleeps, so without progress all have finished (`Lightswitch.Inv.stuck`); and when all
have finished nothing is held and nobody is counted.
-/

namespace Task1

open Pthread Transition

variable {R W : Type} {readerRuns : R → ℕ} {writerRuns : W → ℕ} [DecidableEq R] [DecidableEq W]
  {s : St R W} {d₀ : ℤ}

/-- A writer has made its runs. -/
def WriterFinished (writerRuns : W → ℕ) (w : W) (s : St R W) : Prop :=
  ∃ n, writerRuns w ≤ n ∧ s.ctrl (.inr w) = .run (.inr ⟨n, .lock⟩)

omit [DecidableEq R] [DecidableEq W] in
/-- The end of a writer's code. -/
theorem writerFinished_iff {w : W} :
    WriterFinished writerRuns w s ↔ (threads readerRuns writerRuns).OtherFinished w s := by
  constructor
  · rintro ⟨n, hn, hc⟩
    exact ⟨⟨n, .lock⟩, if_neg (not_lt.2 hn), hc⟩
  · rintro ⟨⟨n, p⟩, hi, hc⟩
    cases p with
    | lock =>
        have hn : ¬ n < writerRuns w := by
          intro hn
          rw [show (threads readerRuns writerRuns).code w ⟨n, .lock⟩ = _ from if_pos hn] at hi
          cases hi
        exact ⟨n, not_lt.1 hn, hc⟩
    | access | store | print | unlock => cases hi

/-- As long as some thread has not finished some thread can step; afterwards the object is at
rest. -/
theorem threads_progress [Fintype R]
    (h : Reachable (Step (threads readerRuns writerRuns).program)
      ((threads readerRuns writerRuns).program.init (allocateConcurrentObject d₀)) s) :
    ((∃ r, ¬ (threads readerRuns writerRuns).ReaderFinished r s) ∨
        (∃ w, ¬ WriterFinished writerRuns w s) →
      Progresses (threads readerRuns writerRuns).program s) ∧
    ((∀ r, (threads readerRuns writerRuns).ReaderFinished r s) →
      (∀ w, WriterFinished writerRuns w s) →
      s.data.readersCount = 0 ∧ s.owner .readerMutex = none ∧ s.owner .writerMutex = none) := by
  have hI := Lightswitch.inv_of_reachable lawful rfl h
  have hstuck : ¬ Progresses (threads readerRuns writerRuns).program s →
      (∀ r, (threads readerRuns writerRuns).ReaderFinished r s) ∧
        ∀ w, WriterFinished writerRuns w s := by
    intro hp
    obtain ⟨-, -, hr, hw⟩ := hI.stuck lawful hp
    refine ⟨hr, fun w => writerFinished_iff.2 ((hw w).resolve_right ?_)⟩
    rintro ⟨c, -⟩
    exact c.elim
  constructor
  · intro ht
    by_contra hp
    obtain ⟨hr, hw⟩ := hstuck hp
    rcases ht with ⟨r, hne⟩ | ⟨w, hne⟩
    · exact hne (hr r)
    · exact hne (hw w)
  · intro hr hw
    refine hI.at_rest (fun r => ?_) fun w => ?_
    · obtain ⟨n, -, hc⟩ := hr r
      exact Lightswitch.place_of hc
    · obtain ⟨n, -, hc⟩ := hw w
      rintro ⟨l, hc', hl⟩
      rw [hc] at hc'
      obtain rfl : (⟨n, .lock⟩ : Loc) = l := by simpa using hc'
      exact hl rfl

/-- The threads of `main`, with a writer inside and a reader that waits for it and keeps the other one
from entering; and one reader and one writer at the end. -/
theorem threads_progress_main :
    (∃ s : St (Fin 2) (Fin 5), s.owner .writerMutex = some (.inr 0) ∧
      s.ctrl (.inl 0) = .run (.inl ⟨0, .room⟩) ∧ s.owner .readerMutex = some (.inl 0) ∧
      Progresses (threads (fun _ : Fin 2 => 100) fun _ : Fin 5 => 100).program s) ∧
    ∃ s : St Unit Unit, s.out.length = 4 ∧ s.data.readersCount = 0 ∧
      s.owner .readerMutex = none ∧ s.owner .writerMutex = none := by
  constructor
  · let S := threads (fun _ : Fin 2 => 100) fun _ : Fin 5 => 100
    let ls : List (Event (Fin 2 ⊕ Fin 5)) :=
      List.replicate 2 (.exec (.inr 0) 7) ++ List.replicate 3 (.exec (.inl 0) 0)
    have hs : (replay (exec S.program) ls (S.program.init (allocateConcurrentObject 0))).isSome := rfl
    refine ⟨(replay _ ls _).get hs, rfl, rfl, rfl, (threads_progress
      (reachable_of_replay (fun _ _ _ => step_of_exec) (Option.some_get hs).symm)).1 (Or.inl ⟨0, ?_⟩)⟩
    rintro ⟨n, -, hc⟩
    cases hc
  · let S := threads (R := Unit) (W := Unit) (fun _ => 1) fun _ => 1
    let ls : List (Event (Unit ⊕ Unit)) :=
      List.replicate 5 (.exec (.inr ()) 7) ++ List.replicate 12 (.exec (.inl ()) 0)
    have hs : (replay (exec S.program) ls (S.program.init (allocateConcurrentObject 0))).isSome := rfl
    have h : Reachable (Step S.program) _ _ :=
      reachable_of_replay (fun _ _ _ => step_of_exec) (Option.some_get hs).symm
    exact ⟨_, rfl, (threads_progress h).2 (fun _ => ⟨1, le_rfl, rfl⟩) fun _ => ⟨1, le_rfl, rfl⟩⟩

end Task1
