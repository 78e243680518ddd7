import SystemsProgramming.Classes1.Task6
import Mathlib.Data.Fintype.Sum

/-!
# The batch buffer of `Task6.c` makes progress

A sleeping reader means a writing phase and a sleeping writer a reading phase (`signals`).  Whether
all threads can finish is then a matter of counting: an unfinished batch is left over exactly when
`size` does not divide the number of calls.
-/

namespace Task6

open Pthread Transition Monitor RingBuffer

variable {R W : Type} [DecidableEq R] [DecidableEq W] {readerRuns : R → ℕ} {writerRuns : W → ℕ}
  {N : ℕ} {cells : ℤ → ℤ} {s : St (R ⊕ W) ConcurrentBuffer Line}

omit [DecidableEq R] [DecidableEq W] in
/-- A call that ends the phase broadcasts. -/
theorem signals : (threads readerRuns writerRuns).Signals := by
  intro t u b b' e hwait hu hsig hE
  cases t with
  | inl r =>
      obtain ⟨-, -, hrt⟩ := read_effect hE
      have hn : b.numberItems ≠ 1 := by simpa [threads, readFromConcurrentBuffer] using hsig
      rw [if_neg hn] at hrt
      cases u <;> simpa [threads, readFromConcurrentBuffer, writeToConcurrentBuffer, hrt] using hu
  | inr w =>
      obtain ⟨v, -, -, hrt⟩ := write_effect hE
      have hn : b.numberItems ≠ b.size - 1 := by
        simpa [threads, writeToConcurrentBuffer] using hsig
      rw [if_neg hn] at hrt
      cases u <;> simpa [threads, readFromConcurrentBuffer, writeToConcurrentBuffer, hrt] using hu

theorem reader_asleep (h : Reached readerRuns writerRuns N cells s) (hf : s.owner () = none) {r : R}
    (hr : Asleep (.inl r) s) : s.data.readingTime = 0 := by
  simpa [threads, readFromConcurrentBuffer] using asleep_waits signals h hf hr

theorem writer_asleep (h : Reached readerRuns writerRuns N cells s) (hf : s.owner () = none) {w : W}
    (hw : Asleep (.inr w) s) : s.data.readingTime ≠ 0 := by
  simpa [threads, writeToConcurrentBuffer] using asleep_waits signals h hf hw

variable [Fintype R] [Fintype W]

/-- With the mutex free, the completed writes exceed the completed reads by what is stored: nothing
but whole batches has been read in a writing phase, and something is stored in a reading phase. -/
theorem counts (hN : 1 ≤ N) (h : Reached readerRuns writerRuns N cells s)
    (hf : s.owner () = none) :
    ∃ n, ∑ w, done (.inr w) s = ∑ r, done (.inl r) s + n ∧
      (s.data.readingTime = 0 → n < N ∧ N ∣ ∑ r, done (.inl r) s) ∧
      (s.data.readingTime ≠ 0 → 1 ≤ n) := by
  obtain ⟨hist, hS, hC⟩ := serializable h hf
  obtain ⟨q, hP, hc, hl, -⟩ := phase_of_serial hN hS
  have hmod := Nat.mod_lt s.out.length (show 2 * N > 0 by omega)
  rw [← hC.sum_inl] at hl
  refine ⟨q.length, by rw [hC.sum_inl, hC.sum_inr, hc], fun hrt => ?_, fun hrt => ?_⟩
  · have hph : Writing N s.out.length := by
      by_contra hph
      rw [(hP.reading hph).1] at hrt
      cases hrt
    have hlen := (hP.writing hph).2.1
    refine ⟨?_, hl hph⟩
    simp only [Writing] at hph
    omega
  · have hph : ¬ Writing N s.out.length := fun hph => hrt (hP.writing hph).1
    have hlen := (hP.reading hph).2.1
    omega

/-- Without progress every thread has finished, if whole batches are to be made. -/
theorem finished_of_not_progresses (hN : 1 ≤ N) {total : ℕ} (hr : ∑ r, readerRuns r = total)
    (hw : ∑ w, writerRuns w = total) (hdvd : N ∣ total)
    (h : Reached readerRuns writerRuns N cells s)
    (hp : ¬ Progresses (threads readerRuns writerRuns).program s) (t : R ⊕ W) :
    (threads readerRuns writerRuns).Finished t s := by
  obtain ⟨hf, hall⟩ := finished_or_asleep h hp
  obtain ⟨n, hsum, hwriting, hreading⟩ := counts hN h hf
  refine (hall t).resolve_right fun ht => ?_
  cases t with
  | inl r =>
      have hrt := reader_asleep h hf ht
      have hwriters : ∑ w, done (.inr w) s = ∑ w, writerRuns w :=
        Finset.sum_congr rfl fun w _ =>
          Finished.done_eq ((hall (.inr w)).resolve_right fun hw => writer_asleep h hf hw hrt) h
      have hlt : ∑ r, done (.inl r) s < ∑ r, readerRuns r :=
        Finset.sum_lt_sum (fun r _ => (counter_le h (.inl r)).1)
          ⟨r, Finset.mem_univ r, ht.done_lt h⟩
      obtain ⟨hn, hread⟩ := hwriting hrt
      have hrest : N ∣ n := by
        rw [hwriters, hw] at hsum
        exact (Nat.dvd_add_right hread).1 (hsum ▸ hdvd)
      have := Nat.eq_zero_of_dvd_of_lt hrest hn
      omega
  | inr w =>
      have hrt := writer_asleep h hf ht
      have hreaders : ∑ r, done (.inl r) s = ∑ r, readerRuns r :=
        Finset.sum_congr rfl fun r _ =>
          Finished.done_eq ((hall (.inl r)).resolve_right fun hr => hrt (reader_asleep h hf hr)) h
      have hle : ∑ w, done (.inr w) s ≤ ∑ w, writerRuns w :=
        Finset.sum_le_sum fun w _ => (counter_le h (.inr w)).1
      have := hreading hrt
      omega

omit [Fintype R] [Fintype W] in
theorem free_of_finished (h : Reached readerRuns writerRuns N cells s)
    (hfin : ∀ t, (threads readerRuns writerRuns).Finished t s) : s.owner () = none := by
  by_contra ho
  obtain ⟨t, ho⟩ := Option.ne_none_iff_exists'.1 ho
  obtain ⟨i, p, _, _, _, hc, -, -, hA, -⟩ := (inv_of_reachable h).held t ho
  obtain ⟨j, hc', -⟩ := hfin t
  obtain ⟨-, rfl⟩ : i = j ∧ p = .lock := by simpa [hc] using hc'
  exact hA

/-- The threads never block if the batches come out even, and never all finish if they do not. -/
theorem completes_iff (hN : 1 ≤ N) {total : ℕ} (hr : ∑ r, readerRuns r = total)
    (hw : ∑ w, writerRuns w = total) :
    (N ∣ total → ∀ s, Reached readerRuns writerRuns N cells s →
      (∃ t, ¬ (threads readerRuns writerRuns).Finished t s) →
      Progresses (threads readerRuns writerRuns).program s) ∧
    (¬ N ∣ total → ∀ s, Reached readerRuns writerRuns N cells s →
      ¬ ∀ t, (threads readerRuns writerRuns).Finished t s) := by
  refine ⟨fun hdvd s h ht => ?_, fun hdvd s h hfin => hdvd ?_⟩
  · by_contra hp
    obtain ⟨t, ht⟩ := ht
    exact ht (finished_of_not_progresses hN hr hw hdvd h hp t)
  · obtain ⟨n, hsum, hwriting, hreading⟩ := counts hN h (free_of_finished h hfin)
    have hreads : ∑ r, done (.inl r) s = total :=
      (Finset.sum_congr rfl fun r _ => (hfin (.inl r)).done_eq h).trans hr
    have hwrites : ∑ w, done (.inr w) s = total :=
      (Finset.sum_congr rfl fun w _ => (hfin (.inr w)).done_eq h).trans hw
    have hrt : s.data.readingTime = 0 := by
      by_contra hrt
      have := hreading hrt
      omega
    exact hreads ▸ (hwriting hrt).2

/-- The threads and the buffer of `main`, with a reader that sleeps in the writing phase and another
one that the mutex keeps waiting while a writer is inside. -/
theorem completes_iff_main :
    ∃ s : St (Fin 250 ⊕ Fin 100) ConcurrentBuffer Line, Asleep (.inl 0) s ∧
      s.ctrl (.inl 1) = .run ⟨0, .lock⟩ ∧ s.owner () = some (.inr 0) ∧
      Progresses (threads (fun _ : Fin 250 => 4) fun _ : Fin 100 => 10).program s := by
  let M : Monitor (Fin 250 ⊕ Fin 100) ConcurrentBuffer Line := threads (fun _ => 4) fun _ => 10
  let ls : List (Event (Fin 250 ⊕ Fin 100)) :=
    List.replicate 3 (.exec (.inl 0) 0) ++ List.replicate 4 (.exec (.inr 0) 7)
  have hs : (replay (exec M.program) ls (M.program.init (allocateBuffer 50 fun _ => 0))).isSome :=
    rfl
  refine ⟨(replay _ ls _).get hs, ⟨0, rfl⟩, rfl, rfl, ?_⟩
  refine (completes_iff (by decide) (show ∑ _ : Fin 250, 4 = 1000 by simp) (by simp)).1 (by decide) _
    (reachable_of_replay (fun _ _ _ => step_of_exec) (Option.some_get hs).symm) ⟨.inl 0, ?_⟩
  rintro ⟨i, hc, -⟩
  cases hc

/-! ### The outcome -/

/-- In a reading phase whole batches have been written, the last of which is not yet read. -/
theorem counts_reading (hN : 1 ≤ N) (h : Reached readerRuns writerRuns N cells s)
    (hf : s.owner () = none) (hrt : s.data.readingTime ≠ 0) :
    N ∣ ∑ w, done (.inr w) s ∧ ∑ r, done (.inl r) s < ∑ w, done (.inr w) s ∧
      ∑ w, done (.inr w) s ≤ ∑ r, done (.inl r) s + N := by
  obtain ⟨hist, hS, hC⟩ := serializable h hf
  obtain ⟨q, hP, hc, -, hr, -⟩ := phase_of_serial hN hS
  have hmod := Nat.mod_lt s.out.length (show 2 * N > 0 by omega)
  have hph : ¬ Writing N s.out.length := fun hph => hrt (hP.writing hph).1
  have hlen := (hP.reading hph).2.1
  have hle := hP.stores.length_le
  rw [hC.sum_inl, hC.sum_inr]
  exact ⟨hr hph, by omega, by omega⟩

/-- The calls made where no step but a spurious wake-up is possible: whole batches, as far as the
readers and the writers go, and what one side can still do of the next batch. -/
structure Outcome (reads writes N : ℕ) (s : St (R ⊕ W) ConcurrentBuffer Line) : Prop where
  reads_eq : ∑ r, done (.inl r) s = min reads (N * (writes / N))
  writes_eq : ∑ w, done (.inr w) s = min writes (N * (reads / N + 1))

theorem outcome (hN : 1 ≤ N) (h : Reached readerRuns writerRuns N cells s)
    (hp : ¬ Progresses (threads readerRuns writerRuns).program s) :
    Outcome (∑ r, readerRuns r) (∑ w, writerRuns w) N s := by
  obtain ⟨hf, hall⟩ := finished_or_asleep h hp
  have hreads : ∑ r, done (.inl r) s ≤ ∑ r, readerRuns r :=
    Finset.sum_le_sum fun r _ => (counter_le h (.inl r)).1
  have hwrites : ∑ w, done (.inr w) s ≤ ∑ w, writerRuns w :=
    Finset.sum_le_sum fun w _ => (counter_le h (.inr w)).1
  by_cases hrt : s.data.readingTime = 0
  · -- a writing phase: the writers have finished
    have hall_written : ∑ w, done (.inr w) s = ∑ w, writerRuns w :=
      Finset.sum_congr rfl fun w _ =>
        ((hall (.inr w)).resolve_right fun hw => writer_asleep h hf hw hrt).done_eq h
    obtain ⟨n, hsum, hwriting, -⟩ := counts hN h hf
    obtain ⟨hn, k, hk⟩ := hwriting hrt
    have hdiv : (∑ w, writerRuns w) / N = k := by
      rw [← hall_written, hsum, hk, Nat.mul_add_div hN, Nat.div_eq_of_lt hn, Nat.add_zero]
    have hle : k ≤ (∑ r, readerRuns r) / N := (Nat.le_div_iff_mul_le hN).2 (by
      rw [Nat.mul_comm]
      omega)
    have hmul : N * (k + 1) ≤ N * ((∑ r, readerRuns r) / N + 1) :=
      Nat.mul_le_mul_left N (Nat.succ_le_succ hle)
    rw [Nat.mul_succ] at hmul
    refine ⟨?_, ?_⟩
    · rw [hdiv, Nat.min_eq_right (by omega), hk]
    · rw [Nat.min_eq_left (by omega), hall_written]
  · -- a reading phase: the readers have finished
    have hall_read : ∑ r, done (.inl r) s = ∑ r, readerRuns r :=
      Finset.sum_congr rfl fun r _ =>
        ((hall (.inl r)).resolve_right fun hr => hrt (reader_asleep h hf hr)).done_eq h
    obtain ⟨⟨k, hk⟩, hlt, hle⟩ := counts_reading hN h hf hrt
    rw [hall_read] at hlt hle
    obtain ⟨j, rfl⟩ : ∃ j, k = j + 1 := Nat.exists_eq_succ_of_ne_zero (by rintro rfl; omega)
    rw [Nat.mul_succ] at hk
    have hdiv : (∑ r, readerRuns r) / N = j := Nat.div_eq_of_lt_le (by
      rw [Nat.mul_comm]
      omega) (by
      rw [Nat.succ_mul, Nat.mul_comm]
      omega)
    have hwdiv : j + 1 ≤ (∑ w, writerRuns w) / N := (Nat.le_div_iff_mul_le hN).2 (by
      rw [Nat.succ_mul, Nat.mul_comm]
      omega)
    have hmul := Nat.mul_le_mul_left N hwdiv
    rw [Nat.mul_succ] at hmul
    refine ⟨?_, ?_⟩
    · rw [Nat.min_eq_left (by omega), hall_read]
    · rw [hdiv, Nat.mul_succ, Nat.min_eq_right (by omega), hk]

/-- With the mutex free, the items are the completed writes that no completed read has taken. -/
theorem items_eq_sum (hN : 1 ≤ N) (h : Reached readerRuns writerRuns N cells s)
    (hf : s.owner () = none) :
    s.data.numberItems + ((∑ r, done (.inl r) s : ℕ) : ℤ) = (∑ w, done (.inr w) s : ℕ) := by
  obtain ⟨hist, hS, hC⟩ := serializable h hf
  obtain ⟨q, hP, hc, -⟩ := phase_of_serial hN hS
  rw [hP.stores.items, hC.sum_inl, hC.sum_inr, hc, Nat.cast_add, add_comm]

/-- All threads finish exactly when the reads do not go beyond the full batches written, and the writes
not beyond the batch after the full ones read. -/
theorem finished_iff (hN : 1 ≤ N) (h : Reached readerRuns writerRuns N cells s)
    (hp : ¬ Progresses (threads readerRuns writerRuns).program s) :
    (∀ t, (threads readerRuns writerRuns).Finished t s) ↔
      ∑ r, readerRuns r ≤ N * ((∑ w, writerRuns w) / N) ∧
        ∑ w, writerRuns w ≤ N * ((∑ r, readerRuns r) / N + 1) := by
  have hO := outcome hN h hp
  refine ⟨fun hfin => ?_, fun ⟨hle, hle'⟩ t => ?_⟩
  · have hreads : ∑ r, done (.inl r) s = ∑ r, readerRuns r :=
      Finset.sum_congr rfl fun r _ => (hfin (.inl r)).done_eq h
    have hwrites : ∑ w, done (.inr w) s = ∑ w, writerRuns w :=
      Finset.sum_congr rfl fun w _ => (hfin (.inr w)).done_eq h
    exact ⟨min_eq_left_iff.1 (hO.reads_eq.symm.trans hreads),
      min_eq_left_iff.1 (hO.writes_eq.symm.trans hwrites)⟩
  · obtain ⟨hf, hall⟩ := finished_or_asleep h hp
    have hreads := hO.reads_eq.trans (Nat.min_eq_left hle)
    have hwrites := hO.writes_eq.trans (Nat.min_eq_left hle')
    refine (hall t).resolve_right fun ht => ?_
    cases t with
    | inl r =>
        have : ∑ r, done (.inl r) s < ∑ r, readerRuns r :=
          Finset.sum_lt_sum (fun r _ => (counter_le h (.inl r)).1)
            ⟨r, Finset.mem_univ r, ht.done_lt h⟩
        omega
    | inr w =>
        have : ∑ w, done (.inr w) s < ∑ w, writerRuns w :=
          Finset.sum_lt_sum (fun w _ => (counter_le h (.inr w)).1)
            ⟨w, Finset.mem_univ w, ht.done_lt h⟩
        omega

/-- Every run without spurious wake-ups ends, and with the same numbers of reads and writes; so all
threads finish exactly when the reads do not go beyond the full batches written, and the writes not
beyond the batch after the full ones read. -/
theorem batch_outcome_unique (hN : 1 ≤ N) :
    (∀ f : ℕ → St (R ⊕ W) ConcurrentBuffer Line, Reached readerRuns writerRuns N cells (f 0) →
      ¬ ∀ n, ∃ e : Event (R ⊕ W), ¬ e.Spurious ∧
        Step (threads readerRuns writerRuns).program (f n) e (f (n + 1))) ∧
    ∀ s, Reached readerRuns writerRuns N cells s →
      ¬ Progresses (threads readerRuns writerRuns).program s →
      Outcome (∑ r, readerRuns r) (∑ w, writerRuns w) N s ∧
      ((∀ t, (threads readerRuns writerRuns).Finished t s) ↔
        ∑ r, readerRuns r ≤ N * ((∑ w, writerRuns w) / N) ∧
          ∑ w, writerRuns w ≤ N * ((∑ r, readerRuns r) / N + 1)) :=
  ⟨fun f hf => not_infinite f hf, fun _ h hp => ⟨outcome hN h hp, finished_iff hN h hp⟩⟩

/-- One read and four writes on batches of two: the first batch is written and half of it read, and
the two writers sleep for ever. -/
theorem batch_outcome_unique_leftover : ∃ s : St (Unit ⊕ Bool) ConcurrentBuffer Line,
    Asleep (.inr true) s ∧ Asleep (.inr false) s ∧ Outcome 1 4 2 s := by
  let M : Monitor (Unit ⊕ Bool) ConcurrentBuffer Line := threads (fun _ => 1) fun _ => 2
  let first : List (Event (Unit ⊕ Bool)) :=
    List.replicate 9 (.exec (.inr true) 7) ++ List.replicate 11 (.exec (.inr false) 8)
  let last : List (Event (Unit ⊕ Bool)) := List.replicate 3 (.exec (.inr true) 9) ++
    List.replicate 8 (.exec (.inl ()) 0) ++ List.replicate 3 (.exec (.inr false) 9)
  have hs : (replay (exec M.program) (first ++ last)
      (M.program.init (allocateBuffer 2 fun _ => 0))).isSome := rfl
  let s := (replay (exec M.program) (first ++ last)
    (M.program.init (allocateBuffer 2 fun _ => 0))).get hs
  have hreached : Reached (fun _ : Unit => 1) (fun _ : Bool => 2) 2 (fun _ => 0) s :=
    reachable_of_replay (fun _ _ _ => step_of_exec) (Option.some_get hs).symm
  have hreader : s.ctrl (.inl ()) = .run ⟨1, .lock⟩ := rfl
  have hwriters : ∀ w, s.ctrl (.inr w) = .asleep () () ⟨1, .test⟩ := fun w => by cases w <;> rfl
  have hstuck : ¬ Progresses M.program s := by
    rintro ⟨e, s', he, hstep⟩
    have hstep := hstep.exec_eq
    rcases e with ⟨⟨⟩ | w, i⟩ | ⟨⟨⟩ | w⟩ | t
    · rw [exec_lock hreader, if_neg fun h => absurd h.1 (lt_irrefl 1)] at hstep
      cases hstep
    · simp [exec, hwriters w] at hstep
    · simp [exec, hreader] at hstep
    · simp [exec, hwriters w] at hstep
    · exact he trivial
  exact ⟨s, ⟨1, rfl⟩, ⟨1, rfl⟩, ((batch_outcome_unique (by decide)).2 s hreached hstuck).1⟩

end Task6
