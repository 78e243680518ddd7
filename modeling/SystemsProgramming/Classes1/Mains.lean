import SystemsProgramming.Classes1.Task1Progress
import SystemsProgramming.Classes1.Task2Progress
import SystemsProgramming.Classes1.Task6Progress
import SystemsProgramming.Library.ForkJoin
import SystemsProgramming.Library.LightswitchTermination

/-!
# The programs of `Task1.c`, `Task2.c` and `Task6.c`

`main` allocates the object or the buffer, starts the readers and the writers, joins them and frees the
buffer.  `Task1.c` always comes to its end; the buffers of the other two do exactly when the numbers of
reads and writes fit.
-/

/-! ### `Task1.c` -/

namespace Task1

open Pthread Transition ForkJoin

/-- `main` after the allocation -/
def main (numReaders numWriters : ℕ) :
    List (Op (Fin numReaders ⊕ Fin numWriters) (Event (Fin numReaders ⊕ Fin numWriters))) :=
  startAndJoin .inl .inr

/-- The price of a location of a writer. -/
def cost (runs : ℕ) (l : Loc) : ℕ :=
  match l.place with
  | .lock => (runs - l.i) * 5
  | .access => (runs - (l.i + 1)) * 5 + 4
  | .store => (runs - (l.i + 1)) * 5 + 3
  | .print => (runs - (l.i + 1)) * 5 + 2
  | .unlock => (runs - (l.i + 1)) * 5 + 1

theorem cost_lock {runs : ℕ} {l next : Loc} {m : Mutex} (h : writerThread runs l = .lock m next) :
    cost runs next < cost runs l := by
  obtain ⟨i, p⟩ := l
  cases p with
  | lock =>
      simp only [writerThread] at h
      split at h
      · cases h
        simp only [cost]
        omega
      · cases h
  | _ => cases h

theorem cost_unlock {runs : ℕ} {l next : Loc} {m : Mutex} (h : writerThread runs l = .unlock m next) :
    cost runs next < cost runs l := by
  obtain ⟨i, p⟩ := l
  cases p with
  | lock =>
      simp only [writerThread] at h
      split at h <;> cases h
  | unlock =>
      cases h
      exact Nat.lt_succ_self _
  | _ => cases h

theorem cost_act {runs : ℕ} {l : Loc} {f : ℤ → ConcurrentObject → ConcurrentObject × List Line × Loc}
    (h : writerThread runs l = .act f) (i : ℤ) (object : ConcurrentObject) :
    cost runs (f i object).2.2 < cost runs l := by
  obtain ⟨k, p⟩ := l
  cases p with
  | lock =>
      simp only [writerThread] at h
      split at h <;> cases h
  | access | store | print =>
      cases h
      exact Nat.lt_succ_self _
  | unlock => cases h

theorem writerThread_ne_tryLock {runs : ℕ} {l taken refused : Loc} {m : Mutex} :
    writerThread runs l ≠ .tryLock m taken refused := by
  obtain ⟨i, p⟩ := l
  cases p with
  | lock =>
      simp only [writerThread]
      split <;> simp
  | _ => simp [writerThread]

/-- The writers take no more steps than their calls have. -/
def writers {R W : Type} [Fintype W] (readerRuns : R → ℕ) (writerRuns : W → ℕ) :
    Budget (threads readerRuns writerRuns).others fun _ _ _ => True where
  cost w := cost (writerRuns w)
  rest w l := cost (writerRuns w) l + 1
  credit _ := 0
  wake _ := 0
  lock h := cost_lock h
  tryLock h := absurd h writerThread_ne_tryLock
  unlock h := cost_unlock h
  wait {_ _ c} := c.elim
  woken _ _ := le_rfl
  broadcast {_ _ c} := c.elim
  act i h _ := cost_act h i _

/-- The threads that `main` starts. -/
abbrev program (numReaders numWriters readerRuns writerRuns : ℕ) :=
  (threads (fun _ : Fin numReaders => readerRuns) fun _ : Fin numWriters => writerRuns).program

variable {numReaders numWriters readerRuns writerRuns : ℕ} {initialData : ℤ}

theorem orderly_main : Orderly ∅ ∅ (main numReaders numWriters) :=
  orderly_startAndJoin_self (by simp)

theorem call_not_mem_main (e : Event (Fin numReaders ⊕ Fin numWriters)) :
    .call e ∉ main numReaders numWriters :=
  call_not_mem_startAndJoin_self e

/-- Without progress every thread has returned. -/
theorem returned_of_not_progresses {s : St (Fin numReaders) (Fin numWriters)}
    (h : Reachable (Pthread.Step (program numReaders numWriters readerRuns writerRuns))
      ((program numReaders numWriters readerRuns writerRuns).init
        (allocateConcurrentObject initialData)) s)
    (hp : ¬ Progresses (program numReaders numWriters readerRuns writerRuns) s) :
    ∀ t, (program numReaders numWriters readerRuns writerRuns).returned s t = true := by
  obtain ⟨-, -, hr, hw⟩ := (Lightswitch.inv_of_reachable lawful rfl h).stuck lawful hp
  intro t
  cases t with
  | inl r => exact (hr r).returned
  | inr w =>
      obtain hw | ⟨c, -⟩ := hw w
      · exact hw.returned
      · exact c.elim

/-- When all have made their runs the object is at rest. -/
theorem rest_of_finished {s : St (Fin numReaders) (Fin numWriters)}
    (h : Reachable (Pthread.Step (program numReaders numWriters readerRuns writerRuns))
      ((program numReaders numWriters readerRuns writerRuns).init
        (allocateConcurrentObject initialData)) s)
    (hr : ∀ r, (threads (fun _ : Fin numReaders => readerRuns) fun _ : Fin numWriters =>
      writerRuns).ReaderFinished r s)
    (hw : ∀ w, WriterFinished (fun _ : Fin numWriters => writerRuns) w s) :
    s.data.readersCount = 0 ∧ s.owner .readerMutex = none ∧ s.owner .writerMutex = none := by
  refine (Lightswitch.inv_of_reachable lawful rfl h).at_rest (fun r => ?_) fun w => ?_
  · obtain ⟨n, -, hc⟩ := hr r
    exact Lightswitch.place_of hc
  · obtain ⟨n, -, hc⟩ := hw w
    rintro ⟨l, hc', hl⟩
    rw [hc] at hc'
    obtain rfl : (⟨n, .lock⟩ : Loc) = l := by simpa using hc'
    exact hl rfl

/-- The program does not run for ever, and where it ends `main` has returned.  Then every thread has
made its runs, nobody is counted and nothing is locked. -/
theorem main_always_returns :
    (program numReaders numWriters readerRuns writerRuns).Terminates
      (allocateConcurrentObject initialData) (main numReaders numWriters) ∧
    ∀ p, (program numReaders numWriters readerRuns writerRuns).ReachedBy
        (allocateConcurrentObject initialData) (main numReaders numWriters) p →
      ((program numReaders numWriters readerRuns writerRuns).StuckAt p ↔ p.rest = []) ∧
      (p.rest = [] →
        (∀ r, (threads (fun _ : Fin numReaders => readerRuns) fun _ : Fin numWriters =>
          writerRuns).ReaderFinished r p.shared) ∧
        (∀ w, WriterFinished (fun _ : Fin numWriters => writerRuns) w p.shared) ∧
        p.shared.data.readersCount = 0 ∧ p.shared.owner .readerMutex = none ∧
        p.shared.owner .writerMutex = none) := by
  refine ⟨Program.terminates fun f hf => ?_, fun p h => ⟨⟨fun hstuck => ?_, fun hend => ?_⟩,
    fun hend => ?_⟩⟩
  · refine (Lightswitch.budget (writers _ _) (fun _ _ => rfl) fun _ _ _ _ => rfl).not_infinite
      (fun s _ t l _ => ?_) f hf
    cases t <;> cases l <;> trivial
  · rw [Program.end_iff_of_stuck call_not_mem_main orderly_main h hstuck]
    exact returned_of_not_progresses h.shared
      (Program.not_progresses_of_stuck call_not_mem_main orderly_main h hstuck)
  · exact stuck_of_end hend
  · have hp := Program.not_progresses_of_end orderly_main h hend
    have hI := Lightswitch.inv_of_reachable lawful rfl h.shared
    obtain ⟨-, -, hr, hw⟩ := hI.stuck lawful hp
    have hw : ∀ w, WriterFinished (fun _ : Fin numWriters => writerRuns) w p.shared := fun w =>
      writerFinished_iff.2 ((hw w).resolve_right fun ⟨c, _⟩ => c.elim)
    exact ⟨hr, hw, (rest_of_finished h.shared hr hw)⟩

end Task1

/-! ### `Task2.c` -/

namespace Task2

open Pthread Transition Monitor RingBuffer ForkJoin

/-- `main` after the allocation -/
def main (numReaders numWriters : ℕ) :
    List (Op (Fin numReaders ⊕ Fin numWriters) (Event (Fin numReaders ⊕ Fin numWriters))) :=
  startAndJoin .inl .inr ++ [.free]

/-- The threads that `main` starts. -/
abbrev program (numReaders numWriters readerRuns writerRuns : ℕ) :
    Program (Fin numReaders ⊕ Fin numWriters) ConcurrentBuffer Loc Unit Unit Line :=
  (threads (fun _ => readerRuns) fun _ => writerRuns).program

variable {numReaders numWriters readerRuns writerRuns size : ℕ} {cells : ℤ → ℤ}

theorem orderly_main : Orderly ∅ ∅ (main numReaders numWriters) :=
  orderly_startAndJoin (by simp) ⟨fun _ => trivial, fun _ => trivial⟩

theorem call_not_mem_main (e : Event (Fin numReaders ⊕ Fin numWriters)) :
    .call e ∉ main numReaders numWriters :=
  call_not_mem_startAndJoin (by simp) e

/-- The program does not run for ever without spurious wake-ups.  Where it ends, `main` has returned
exactly if the writes are at least the reads and leave at most a full buffer; otherwise it never
returns.  It frees the buffer with the items that nobody has read, and nobody touches it after that. -/
theorem main_returns_iff_queue_fits (hsize : 1 ≤ size) :
    (program numReaders numWriters readerRuns writerRuns).Terminates (allocateBuffer size cells)
      (main numReaders numWriters) ∧
    ∀ p, (program numReaders numWriters readerRuns writerRuns).ReachedBy (allocateBuffer size cells)
        (main numReaders numWriters) p →
      ((program numReaders numWriters readerRuns writerRuns).StuckAt p →
        (p.rest = [] ↔ numReaders * readerRuns ≤ numWriters * writerRuns ∧
          numWriters * writerRuns ≤ numReaders * readerRuns + size)) ∧
      (p.rest = [] → numReaders * readerRuns ≤ numWriters * writerRuns ∧
        numWriters * writerRuns ≤ numReaders * readerRuns + size ∧ p.freed = true ∧
        p.shared.data.numberItems = numWriters * writerRuns - numReaders * readerRuns) ∧
      (p.freed = true → ∀ e,
        ForkJoin.exec (program numReaders numWriters readerRuns writerRuns).workers p (.worker e) =
          none) := by
  have hsums : (∑ _ : Fin numReaders, readerRuns = numReaders * readerRuns) ∧
      ∑ _ : Fin numWriters, writerRuns = numWriters * writerRuns := by simp
  have hfits : ∀ s, Reached (fun _ : Fin numReaders => readerRuns)
      (fun _ : Fin numWriters => writerRuns) size cells s →
      ¬ Progresses (program numReaders numWriters readerRuns writerRuns) s →
      ((∀ t, (program numReaders numWriters readerRuns writerRuns).returned s t = true) ↔
        numReaders * readerRuns ≤ numWriters * writerRuns ∧
          numWriters * writerRuns ≤ numReaders * readerRuns + size) := by
    intro s h hp
    have hiff := finished_iff hsize h hp
    rw [hsums.1, hsums.2] at hiff
    rw [← hiff]
    exact forall_congr' fun t => finished_iff_returned.symm
  refine ⟨Program.terminates fun f hf => not_infinite f hf, fun p h =>
    ⟨fun hstuck => ?_, fun hend => ?_,
      (sound_of_reachable (Program.workers_lawful _) orderly_main h).quiet_of_freed
        (Program.workers_lawful _)⟩⟩
  · rw [Program.end_iff_of_stuck call_not_mem_main orderly_main h hstuck]
    exact hfits _ h.shared (Program.not_progresses_of_stuck call_not_mem_main orderly_main h hstuck)
  · have hp := Program.not_progresses_of_end orderly_main h hend
    have hret := (sound_of_reachable (Program.workers_lawful _) orderly_main h).returned_of_end hend
    obtain ⟨hle, hle'⟩ := (hfits _ h.shared hp).1 hret
    have hitems := (outcome hsize h.shared hp).items_eq
    rw [hsums.1, hsums.2, Nat.min_eq_left hle', Nat.min_eq_left hle, Nat.cast_sub hle] at hitems
    exact ⟨hle, hle', freed_of_end (by simp [main]) h hend, by exact_mod_cast hitems⟩

/-- `main` as it is written returns. -/
theorem main_returns_iff_queue_fits_main :
    (program 250 100 4 10).Terminates (allocateBuffer (41 : ℕ) fun _ => 0) (main 250 100) ∧
    ∀ p, (program 250 100 4 10).ReachedBy (allocateBuffer (41 : ℕ) fun _ => 0) (main 250 100) p →
      (program 250 100 4 10).StuckAt p → p.rest = [] := by
  refine ⟨(main_returns_iff_queue_fits (by decide)).1, fun p h hstuck => ?_⟩
  exact (((main_returns_iff_queue_fits (by decide)).2 p h).1 hstuck).2 ⟨by decide, by decide⟩

end Task2

/-! ### `Task6.c` -/

namespace Task6

open Pthread Transition Monitor RingBuffer ForkJoin

/-- `main` after the allocation -/
def main (numReaders numWriters : ℕ) :
    List (Op (Fin numReaders ⊕ Fin numWriters) (Event (Fin numReaders ⊕ Fin numWriters))) :=
  startAndJoin .inl .inr ++ [.free]

/-- The threads that `main` starts. -/
abbrev program (numReaders numWriters readerRuns writerRuns : ℕ) :
    Program (Fin numReaders ⊕ Fin numWriters) ConcurrentBuffer Loc Unit Unit Line :=
  (threads (fun _ => readerRuns) fun _ => writerRuns).program

variable {numReaders numWriters readerRuns writerRuns N : ℕ} {cells : ℤ → ℤ}

theorem orderly_main : Orderly ∅ ∅ (main numReaders numWriters) :=
  orderly_startAndJoin (by simp) ⟨fun _ => trivial, fun _ => trivial⟩

theorem call_not_mem_main (e : Event (Fin numReaders ⊕ Fin numWriters)) :
    .call e ∉ main numReaders numWriters :=
  call_not_mem_startAndJoin (by simp) e

/-- The reads do not go beyond the full batches written, and the writes not beyond the batch after the
full ones read. -/
def Fits (reads writes N : ℕ) : Prop := reads ≤ N * (writes / N) ∧ writes ≤ N * (reads / N + 1)

/-- The program does not run for ever without spurious wake-ups.  Where it ends, `main` has returned
exactly if the batches fit; otherwise it never returns.  It frees the buffer with the items that nobody
has read, and nobody touches it after that. -/
theorem main_returns_iff_batches_fit (hN : 1 ≤ N) :
    (program numReaders numWriters readerRuns writerRuns).Terminates (allocateBuffer N cells)
      (main numReaders numWriters) ∧
    ∀ p, (program numReaders numWriters readerRuns writerRuns).ReachedBy (allocateBuffer N cells)
        (main numReaders numWriters) p →
      ((program numReaders numWriters readerRuns writerRuns).StuckAt p →
        (p.rest = [] ↔ Fits (numReaders * readerRuns) (numWriters * writerRuns) N)) ∧
      (p.rest = [] → Fits (numReaders * readerRuns) (numWriters * writerRuns) N ∧ p.freed = true ∧
        p.shared.data.numberItems = numWriters * writerRuns - numReaders * readerRuns) ∧
      (p.freed = true → ∀ e,
        ForkJoin.exec (program numReaders numWriters readerRuns writerRuns).workers p (.worker e) =
          none) := by
  have hsums : (∑ _ : Fin numReaders, readerRuns = numReaders * readerRuns) ∧
      ∑ _ : Fin numWriters, writerRuns = numWriters * writerRuns := by simp
  have hfits : ∀ s, Reached (fun _ : Fin numReaders => readerRuns)
      (fun _ : Fin numWriters => writerRuns) N cells s →
      ¬ Progresses (program numReaders numWriters readerRuns writerRuns) s →
      ((∀ t, (program numReaders numWriters readerRuns writerRuns).returned s t = true) ↔
        Fits (numReaders * readerRuns) (numWriters * writerRuns) N) := by
    intro s h hp
    have hiff := finished_iff hN h hp
    rw [hsums.1, hsums.2] at hiff
    exact (forall_congr' fun t => finished_iff_returned.symm).trans hiff
  refine ⟨Program.terminates fun f hf => not_infinite f hf, fun p h =>
    ⟨fun hstuck => ?_, fun hend => ?_,
      (sound_of_reachable (Program.workers_lawful _) orderly_main h).quiet_of_freed
        (Program.workers_lawful _)⟩⟩
  · rw [Program.end_iff_of_stuck call_not_mem_main orderly_main h hstuck]
    exact hfits _ h.shared (Program.not_progresses_of_stuck call_not_mem_main orderly_main h hstuck)
  · have hp := Program.not_progresses_of_end orderly_main h hend
    have hret := (sound_of_reachable (Program.workers_lawful _) orderly_main h).returned_of_end hend
    have hfin := fun t => finished_iff_returned.2 (hret t)
    have hitems := items_eq_sum hN h.shared (finished_or_asleep h.shared hp).1
    rw [Finset.sum_congr rfl fun r _ => (hfin (.inl r)).done_eq h.shared,
      Finset.sum_congr rfl fun w _ => (hfin (.inr w)).done_eq h.shared] at hitems
    simp only [threads, Sum.elim_inl, Sum.elim_inr, hsums.1, hsums.2] at hitems
    push_cast at hitems
    exact ⟨(hfits _ h.shared hp).1 hret, freed_of_end (by simp [main]) h hend, by omega⟩

/-- `main` as it is written returns. -/
theorem main_returns_iff_batches_fit_main :
    (program 250 100 4 10).Terminates (allocateBuffer (50 : ℕ) fun _ => 0) (main 250 100) ∧
    ∀ p, (program 250 100 4 10).ReachedBy (allocateBuffer (50 : ℕ) fun _ => 0) (main 250 100) p →
      (program 250 100 4 10).StuckAt p → p.rest = [] := by
  refine ⟨(main_returns_iff_batches_fit (by decide)).1, fun p h hstuck => ?_⟩
  exact (((main_returns_iff_batches_fit (by decide)).2 p h).1 hstuck).2 ⟨by decide, by decide⟩

end Task6
