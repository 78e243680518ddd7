import SystemsProgramming.Classes1.Task2
import Mathlib.Data.Fintype.Sum

/-!
# The bounded buffer of `Task2.c` makes progress

The broadcasts on the edges from empty and from full are enough: a sleeping reader means an empty
buffer and a sleeping writer a full one (`signals`).  When as many reads as writes are to be made
(the condition that `main` states), neither can be left over.
-/

namespace Task2

open Pthread Transition Monitor RingBuffer

variable {R W : Type} [DecidableEq R] [DecidableEq W] {readerRuns : R → ℕ} {writerRuns : W → ℕ}
  {size : ℤ} {cells : ℤ → ℤ} {s : St (R ⊕ W) ConcurrentBuffer Line}

omit [DecidableEq R] [DecidableEq W] in
/-- A call that makes room or brings an item for a waiting call broadcasts. -/
theorem signals : (threads readerRuns writerRuns).Signals := by
  intro t u b b' e hwait hu hsig _
  exfalso
  cases t <;> cases u <;>
    simp_all [threads, readFromConcurrentBuffer, writeToConcurrentBuffer]

theorem reader_asleep_empty (h : Reached readerRuns writerRuns size cells s)
    (hf : s.owner () = none) {r : R} (hr : Asleep (.inl r) s) : s.data.numberItems = 0 := by
  simpa [threads, readFromConcurrentBuffer] using asleep_waits signals h hf hr

theorem writer_asleep_full (hsize : 1 ≤ size) (h : Reached readerRuns writerRuns size cells s)
    (hf : s.owner () = none) {w : W} (hw : Asleep (.inr w) s) : s.data.numberItems = size := by
  obtain ⟨q, hb, -⟩ := fifo_of_reached hsize h hf
  rw [← hb.size_eq]
  simpa [threads, writeToConcurrentBuffer] using asleep_waits signals h hf hw

section Totals

variable [Fintype R] [Fintype W]

theorem sum_done_le (h : Reached readerRuns writerRuns size cells s) :
    ∑ r, done (.inl r) s ≤ ∑ r, readerRuns r ∧ ∑ w, done (.inr w) s ≤ ∑ w, writerRuns w :=
  ⟨Finset.sum_le_sum fun r _ => (counter_le h (.inl r)).1,
    Finset.sum_le_sum fun w _ => (counter_le h (.inr w)).1⟩

omit [Fintype W] in
theorem sum_readers_lt (h : Reached readerRuns writerRuns size cells s) {r : R}
    (hr : Asleep (.inl r) s) : ∑ r, done (.inl r) s < ∑ r, readerRuns r :=
  Finset.sum_lt_sum (fun r _ => (counter_le h (.inl r)).1) ⟨r, Finset.mem_univ r, hr.done_lt h⟩

omit [Fintype R] in
theorem sum_writers_lt (h : Reached readerRuns writerRuns size cells s) {w : W}
    (hw : Asleep (.inr w) s) : ∑ w, done (.inr w) s < ∑ w, writerRuns w :=
  Finset.sum_lt_sum (fun w _ => (counter_le h (.inr w)).1) ⟨w, Finset.mem_univ w, hw.done_lt h⟩

/-- Without progress every thread has finished. -/
theorem finished_of_not_progresses (hsize : 1 ≤ size) (htotal : ∑ r, readerRuns r = ∑ w, writerRuns w)
    (h : Reached readerRuns writerRuns size cells s)
    (hp : ¬ Progresses (threads readerRuns writerRuns).program s) (t : R ⊕ W) :
    (threads readerRuns writerRuns).Finished t s := by
  obtain ⟨hf, hall⟩ := finished_or_asleep h hp
  have hitems := items_eq_sum hsize h hf
  have hle := sum_done_le h
  refine (hall t).resolve_right fun ht => ?_
  cases t with
  | inl r =>
      have hempty := reader_asleep_empty h hf ht
      have hwriters : ∀ w, done (.inr w) s = writerRuns w := by
        refine fun w => Finished.done_eq ((hall (.inr w)).resolve_right fun hw => ?_) h
        have := writer_asleep_full hsize h hf hw
        omega
      have hlt := sum_readers_lt h ht
      have hsum : ∑ w, done (.inr w) s = ∑ w, writerRuns w :=
        Finset.sum_congr rfl fun w _ => hwriters w
      omega
  | inr w =>
      have hfull := writer_asleep_full hsize h hf ht
      have hreaders : ∀ r, done (.inl r) s = readerRuns r := by
        refine fun r => Finished.done_eq ((hall (.inl r)).resolve_right fun hr => ?_) h
        have := reader_asleep_empty h hf hr
        omega
      have hlt := sum_writers_lt h ht
      have hsum : ∑ r, done (.inl r) s = ∑ r, readerRuns r :=
        Finset.sum_congr rfl fun r _ => hreaders r
      omega

/-- No deadlock and no lost wake-up; no infinite run without spurious wake-ups; and where such a
run ends, all threads have finished on an empty buffer. -/
theorem progress_and_termination (hsize : 1 ≤ size)
    (htotal : ∑ r, readerRuns r = ∑ w, writerRuns w) :
    (∀ s, Reached readerRuns writerRuns size cells s →
      (∃ t, ¬ (threads readerRuns writerRuns).Finished t s) →
      Progresses (threads readerRuns writerRuns).program s) ∧
    (∀ f : ℕ → St (R ⊕ W) ConcurrentBuffer Line, Reached readerRuns writerRuns size cells (f 0) →
      ¬ ∀ n, ∃ e : Event (R ⊕ W), ¬ e.Spurious ∧
        Step (threads readerRuns writerRuns).program (f n) e (f (n + 1))) ∧
    (∀ s, Reached readerRuns writerRuns size cells s →
      ¬ Progresses (threads readerRuns writerRuns).program s →
      (∀ t, (threads readerRuns writerRuns).Finished t s) ∧ s.data.numberItems = 0 ∧
        s.data.readingPoint = s.data.writingPoint) := by
  refine ⟨fun s h ht => ?_, fun f hf => not_infinite f hf, fun s h hp => ?_⟩
  · by_contra hp
    obtain ⟨t, ht⟩ := ht
    exact ht (finished_of_not_progresses hsize htotal h hp t)
  · have hfin := finished_of_not_progresses hsize htotal h hp
    obtain ⟨hf, -⟩ := finished_or_asleep h hp
    have hitems := items_eq_sum hsize h hf
    rw [Finset.sum_congr rfl fun r _ => (hfin (.inl r)).done_eq h,
      Finset.sum_congr rfl fun w _ => (hfin (.inr w)).done_eq h] at hitems
    have hzero : s.data.numberItems = 0 := by
      simp only [threads, Sum.elim_inl, Sum.elim_inr] at hitems
      omega
    obtain ⟨q, hb, -⟩ := fifo_of_reached hsize h hf
    refine ⟨hfin, hzero, ?_⟩
    rw [hb.writing, ← hb.items, hzero, add_zero, Int.emod_eq_of_lt hb.reading_nonneg hb.reading_lt]

/-- The threads and the buffer of `main`, with a reader that sleeps on the empty buffer and another
one that the mutex keeps waiting while a writer is about to broadcast. -/
theorem progress_and_termination_main :
    ∃ s : St (Fin 250 ⊕ Fin 100) ConcurrentBuffer Line, Asleep (.inl 0) s ∧
      s.ctrl (.inl 1) = .run ⟨0, .lock⟩ ∧ s.owner () = some (.inr 0) ∧
      Progresses (threads (fun _ : Fin 250 => 4) fun _ : Fin 100 => 10).program s := by
  let M : Monitor (Fin 250 ⊕ Fin 100) ConcurrentBuffer Line := threads (fun _ => 4) fun _ => 10
  let ls : List (Event (Fin 250 ⊕ Fin 100)) :=
    List.replicate 3 (.exec (.inl 0) 0) ++ List.replicate 4 (.exec (.inr 0) 7)
  have hs : (replay (exec M.program) ls (M.program.init (allocateBuffer 41 fun _ => 0))).isSome :=
    rfl
  refine ⟨(replay _ ls _).get hs, ⟨0, rfl⟩, rfl, rfl, ?_⟩
  refine (progress_and_termination (by decide) (by simp)).1 _
    (reachable_of_replay (fun _ _ _ => step_of_exec) (Option.some_get hs).symm) ⟨.inl 0, ?_⟩
  rintro ⟨i, hc, -⟩
  cases hc

/-! ### The outcome -/

/-- Whatever the totals and the schedule, where no step but a spurious wake-up is possible, so many
reads and so many writes have been made. -/
structure Outcome (reads writes size : ℕ) (s : St (R ⊕ W) ConcurrentBuffer Line) : Prop where
  reads_eq : ∑ r, done (.inl r) s = min reads writes
  writes_eq : ∑ w, done (.inr w) s = min writes (reads + size)
  items_eq : s.data.numberItems = (min writes (reads + size) - min reads writes : ℕ)

theorem outcome {size : ℕ} (hsize : 1 ≤ size) (h : Reached readerRuns writerRuns size cells s)
    (hp : ¬ Progresses (threads readerRuns writerRuns).program s) :
    Outcome (∑ r, readerRuns r) (∑ w, writerRuns w) size s := by
  have hsize : (1 : ℤ) ≤ size := by omega
  obtain ⟨hf, hall⟩ := finished_or_asleep h hp
  have hitems := items_eq_sum hsize h hf
  obtain ⟨hreads, hwrites⟩ := sum_done_le h
  obtain ⟨q, hb, -⟩ := fifo_of_reached hsize h hf
  have hstored := hb.items
  have hle := hb.length_le
  -- readers that sleep found the buffer empty, and writers that sleep found it full
  have hreaders : ∑ r, done (.inl r) s = ∑ r, readerRuns r ∨ s.data.numberItems = 0 := by
    by_cases hr : ∃ r, Asleep (.inl r) s
    · obtain ⟨r, hr⟩ := hr
      exact Or.inr (reader_asleep_empty h hf hr)
    · refine Or.inl (Finset.sum_congr rfl fun r _ => ?_)
      exact ((hall (.inl r)).resolve_right fun ha => hr ⟨r, ha⟩).done_eq h
  have hwriters : ∑ w, done (.inr w) s = ∑ w, writerRuns w ∨ s.data.numberItems = size := by
    by_cases hw : ∃ w, Asleep (.inr w) s
    · obtain ⟨w, hw⟩ := hw
      exact Or.inr (writer_asleep_full hsize h hf hw)
    · refine Or.inl (Finset.sum_congr rfl fun w _ => ?_)
      exact ((hall (.inr w)).resolve_right fun ha => hw ⟨w, ha⟩).done_eq h
  refine ⟨?_, ?_, ?_⟩ <;> rcases hreaders with hr | hr <;> rcases hwriters with hw | hw <;> omega

/-- The threads all finish exactly when the writes are at least the reads and leave at most a full
buffer. -/
theorem finished_iff {size : ℕ} (hsize : 1 ≤ size) (h : Reached readerRuns writerRuns size cells s)
    (hp : ¬ Progresses (threads readerRuns writerRuns).program s) :
    (∀ t, (threads readerRuns writerRuns).Finished t s) ↔
      ∑ r, readerRuns r ≤ ∑ w, writerRuns w ∧ ∑ w, writerRuns w ≤ ∑ r, readerRuns r + size := by
  have hO := outcome hsize h hp
  have hreads := hO.reads_eq
  have hwrites := hO.writes_eq
  refine ⟨fun hfin => ?_, fun ⟨hle, hle'⟩ t => ?_⟩
  · rw [Finset.sum_congr rfl fun r _ => (hfin (.inl r)).done_eq h] at hreads
    rw [Finset.sum_congr rfl fun w _ => (hfin (.inr w)).done_eq h] at hwrites
    simp only [threads, Sum.elim_inl, Sum.elim_inr] at hreads hwrites
    omega
  · obtain ⟨hf, hall⟩ := finished_or_asleep h hp
    refine (hall t).resolve_right fun ht => ?_
    cases t with
    | inl r =>
        have := sum_readers_lt h ht
        omega
    | inr w =>
        have := sum_writers_lt h ht
        omega

/-- Every run without spurious wake-ups ends, and with the same numbers of reads and writes; so the
threads all finish exactly when the writes are at least the reads and leave at most a full buffer. -/
theorem queue_outcome_unique {size : ℕ} (hsize : 1 ≤ size) :
    (∀ f : ℕ → St (R ⊕ W) ConcurrentBuffer Line, Reached readerRuns writerRuns size cells (f 0) →
      ¬ ∀ n, ∃ e : Event (R ⊕ W), ¬ e.Spurious ∧
        Step (threads readerRuns writerRuns).program (f n) e (f (n + 1))) ∧
    ∀ s, Reached readerRuns writerRuns size cells s →
      ¬ Progresses (threads readerRuns writerRuns).program s →
      Outcome (∑ r, readerRuns r) (∑ w, writerRuns w) size s ∧
      ((∀ t, (threads readerRuns writerRuns).Finished t s) ↔
        ∑ r, readerRuns r ≤ ∑ w, writerRuns w ∧
          ∑ w, writerRuns w ≤ ∑ r, readerRuns r + size) :=
  ⟨fun f hf => not_infinite f hf,
    fun _ h hp => ⟨outcome hsize h hp, finished_iff hsize h hp⟩⟩

/-- One read and four writes on a buffer of one cell: the read and two writes are made, and the two
writers sleep for ever on the full buffer. -/
theorem queue_outcome_unique_leftover : ∃ s : St (Unit ⊕ Bool) ConcurrentBuffer Line,
    Asleep (.inr true) s ∧ Asleep (.inr false) s ∧ Outcome 1 4 1 s := by
  let M : Monitor (Unit ⊕ Bool) ConcurrentBuffer Line := threads (fun _ => 1) fun _ => 2
  let first : List (Event (Unit ⊕ Bool)) :=
    List.replicate 11 (.exec (.inr true) 7) ++ List.replicate 3 (.exec (.inr false) 8)
  let second : List (Event (Unit ⊕ Bool)) := List.replicate 10 (.exec (.inl ()) 0) ++
    .resume (.inr false) :: List.replicate 10 (.exec (.inr false) 8)
  let last : List (Event (Unit ⊕ Bool)) :=
    List.replicate 3 (.exec (.inr true) 9) ++ List.replicate 3 (.exec (.inr false) 9)
  have hs : (replay (exec M.program) (first ++ second ++ last)
      (M.program.init (allocateBuffer 1 fun _ => 0))).isSome := rfl
  let s := (replay (exec M.program) (first ++ second ++ last)
    (M.program.init (allocateBuffer 1 fun _ => 0))).get hs
  have hreached : Reached (fun _ : Unit => 1) (fun _ : Bool => 2) (1 : ℕ) (fun _ => 0) s :=
    reachable_of_replay (fun _ _ _ => step_of_exec) (Option.some_get hs).symm
  have hreader : s.ctrl (.inl ()) = .run ⟨1, .lock⟩ := rfl
  have hwriters : ∀ w, s.ctrl (.inr w) = .asleep () () ⟨1, .test⟩ := fun w => by cases w <;> rfl
  have hstuck : ¬ Progresses M.program s := by
    rintro ⟨e, s', he, hstep⟩
    have hstep := hstep.exec_eq
    rcases e with ⟨⟨⟩ | w, i⟩ | ⟨⟨⟩ | w⟩ | t
    · rw [exec_lock hreader, if_neg fun h => absurd h.1 (lt_irrefl 1)] at hstep
      cases hstep
    · simp [exec, hwriters w] at hstep
    · simp [exec, hreader] at hstep
    · simp [exec, hwriters w] at hstep
    · exact he trivial
  exact ⟨s, ⟨1, rfl⟩, ⟨1, rfl⟩, ((queue_outcome_unique le_rfl).2 s hreached hstuck).1⟩

end Totals

end Task2
