import SystemsProgramming.Classes1.RingBuffer

/-!
# The bounded buffer of `Task2.c`

`readFromConcurrentBuffer` and `writeToConcurrentBuffer` are the two procedures of a monitor on a
ring buffer.  Every execution is a serial one (`Monitor.serializable`), and serially the buffer is a
queue: what has been written is what has been read followed by what is stored (`fifo_of_serial`).
-/

namespace Task2

open Pthread Transition Monitor RingBuffer

/-- `concurrent_buffer` -/
abbrev ConcurrentBuffer := Buffer

/-- `allocate_buffer` -/
def allocateBuffer (size : ℤ) (cells : ℤ → ℤ) : ConcurrentBuffer := allocate size cells

/-- `read_from_concurrent_buffer` -/
def readFromConcurrentBuffer : Call ConcurrentBuffer Line where
  waits b := b.numberItems = 0
  signals b := b.numberItems = b.size
  mark b := b
  body := takeItem

/-- `write_to_concurrent_buffer` -/
def writeToConcurrentBuffer : Call ConcurrentBuffer Line where
  waits b := b.numberItems = b.size
  signals b := b.numberItems = 0
  mark b := b
  body := putItem

variable {R W : Type}

/-- The threads of `main`: readers `R` and writers `W`, each with its number of runs. -/
def threads (readerRuns : R → ℕ) (writerRuns : W → ℕ) : Monitor (R ⊕ W) ConcurrentBuffer Line where
  call := Sum.elim (fun _ => readFromConcurrentBuffer) fun _ => writeToConcurrentBuffer
  runs := Sum.elim readerRuns writerRuns

theorem start_read (b : ConcurrentBuffer) : readFromConcurrentBuffer.start b = b := by
  simp [Call.start, readFromConcurrentBuffer]

theorem start_write (b : ConcurrentBuffer) : writeToConcurrentBuffer.start b = b := by
  simp [Call.start, writeToConcurrentBuffer]

variable [DecidableEq R] [DecidableEq W] {readerRuns : R → ℕ} {writerRuns : W → ℕ} {size : ℤ}
  {cells : ℤ → ℤ}

/-- A serial execution reads what it writes, in the same order, and each call prints one line. -/
theorem fifo_of_serial (hsize : 1 ≤ size) {h : List (R ⊕ W)} {b : ConcurrentBuffer}
    {o : List ((R ⊕ W) × Line)}
    (hS : (threads readerRuns writerRuns).Serial (allocateBuffer size cells) h b o) :
    ∃ q, Stores size b q ∧ writes o = reads o ++ q ∧ ByRole o ∧
      ∀ t, o.countP (fun e => e.1 = t) = h.countP (fun u => u = t) := by
  induction hS with
  | nil => exact ⟨[], stores_allocate hsize cells, rfl, byRole_nil, fun _ => rfl⟩
  | @snoc h b b' o e t _ hw hE ih =>
      obtain ⟨q, hb, hq, hrole, hc⟩ := ih
      cases t with
      | inl r =>
          have hn : b.numberItems ≠ 0 := by simpa [threads, readFromConcurrentBuffer] using hw
          change Stmts takeItem (readFromConcurrentBuffer.start b) b' e at hE
          rw [start_read] at hE
          obtain ⟨rfl, rfl⟩ := takeItem_effect hE
          cases q with
          | nil => exact absurd hb.items hn
          | cons v q =>
              refine ⟨q, hb.take, ?_, hrole.snoc rfl, fun t => ?_⟩
              · simp [hq, hb.head]
              · simp [List.countP_append, hc t]
      | inr w =>
          have hn : b.numberItems ≠ b.size := by simpa [threads, writeToConcurrentBuffer] using hw
          have hlt : (q.length : ℤ) < size := by
            have := hb.length_le
            rw [hb.items, hb.size_eq] at hn
            omega
          change Stmts putItem (writeToConcurrentBuffer.start b) b' e at hE
          rw [start_write] at hE
          obtain ⟨v, rfl, rfl⟩ := putItem_effect hE
          refine ⟨q ++ [v], hb.put hlt v, ?_, hrole.snoc rfl, fun t => ?_⟩
          · simp [hq]
          · simp [List.countP_append, hc t]

/-- The states of the threads of `main` on a buffer of `size` cells. -/
abbrev Reached (readerRuns : R → ℕ) (writerRuns : W → ℕ) (size : ℤ) (cells : ℤ → ℤ)
    (s : St (R ⊕ W) ConcurrentBuffer Line) : Prop :=
  Reachable (Step (threads readerRuns writerRuns).program)
    ((threads readerRuns writerRuns).program.init (allocateBuffer size cells)) s

variable {s : St (R ⊕ W) ConcurrentBuffer Line}

/-- With the mutex free, the log is a queue's, and each thread has printed one line for each call it
completed. -/
theorem fifo_of_reached (hsize : 1 ≤ size) (h : Reached readerRuns writerRuns size cells s)
    (hf : s.owner () = none) :
    ∃ q, Stores size s.data q ∧ writes s.out = reads s.out ++ q ∧ ByRole s.out ∧
      ∀ t, s.out.countP (fun e => e.1 = t) = done t s := by
  obtain ⟨hist, hS, hC⟩ := serializable h hf
  obtain ⟨q, hb, hq, hrole, hc⟩ := fifo_of_serial hsize hS
  exact ⟨q, hb, hq, hrole, fun t => (hc t).trans (hC t)⟩

variable [Fintype R] [Fintype W]

/-- With the mutex free, the items are the completed writes that no completed read has taken. -/
theorem items_eq_sum (hsize : 1 ≤ size) (h : Reached readerRuns writerRuns size cells s)
    (hf : s.owner () = none) :
    s.data.numberItems + ((∑ r, done (.inl r) s : ℕ) : ℤ) = (∑ w, done (.inr w) s : ℕ) := by
  obtain ⟨q, hb, hq, hrole, hlog⟩ := fifo_of_reached hsize h hf
  have hlen := congrArg List.length hq
  rw [List.length_append, hrole.reads_eq_sum hlog, hrole.writes_eq_sum hlog] at hlen
  rw [hb.items]
  omega

/-- What holds of the buffer and of the log whenever the mutex is free. -/
structure Linearized (size : ℤ) (s : St (R ⊕ W) ConcurrentBuffer Line) : Prop where
  items_nonneg : 0 ≤ s.data.numberItems
  items_le : s.data.numberItems ≤ size
  reading_nonneg : 0 ≤ s.data.readingPoint
  reading_lt : s.data.readingPoint < size
  writing_nonneg : 0 ≤ s.data.writingPoint
  writing_lt : s.data.writingPoint < size
  writing_eq : s.data.writingPoint = (s.data.readingPoint + s.data.numberItems) % size
  /-- the writes completed less the reads completed -/
  items_eq : s.data.numberItems =
    ((∑ w, done (.inr w) s : ℕ) : ℤ) - (∑ r, done (.inl r) s : ℕ)
  /-- the values read, one for each call that a reader completed -/
  reads_length : (reads s.out).length = ∑ r, done (.inl r) s
  /-- the values written, one for each call that a writer completed -/
  writes_length : (writes s.out).length = ∑ w, done (.inr w) s
  reads_eq : reads s.out = (writes s.out).take (reads s.out).length
  stored : ∀ k : ℕ, k < s.data.numberItems →
    (writes s.out)[(reads s.out).length + k]? =
      some (s.data.data ((s.data.readingPoint + k) % size))
  /-- every thread has printed one line for each call it completed, -/
  logged : ∀ t, s.out.countP (fun e => e.1 = t) = done t s
  /-- the readers the lines of reads and the writers those of writes -/
  byRole : ByRole s.out

theorem linearized (hsize : 1 ≤ size) (h : Reached readerRuns writerRuns size cells s)
    (hf : s.owner () = none) : Linearized size s := by
  obtain ⟨q, hb, hq, hrole, hlog⟩ := fifo_of_reached hsize h hf
  have hit := hb.items
  have hle := hb.length_le
  have hsum := items_eq_sum hsize h hf
  refine ⟨by omega, by omega, hb.reading_nonneg, hb.reading_lt, hb.writing_nonneg, hb.writing_lt,
    ?_, by omega, hrole.reads_eq_sum hlog, hrole.writes_eq_sum hlog, ?_, ?_, hlog, hrole⟩
  · rw [hit, hb.writing]
  · rw [hq, List.take_left]
  · intro k hk
    have hk : k < q.length := by omega
    rw [hq, List.getElem?_append_right (Nat.le_add_right _ _), Nat.add_sub_cancel_left,
      List.getElem?_eq_getElem hk, hb.cells k hk]

/-- Two writers fill a buffer of two cells and one of them finds it full; the read wakes it up, and
its second write wraps around. -/
theorem linearized_wrap : ∃ s : St (Unit ⊕ Bool) ConcurrentBuffer Line,
    s.out = [(.inr true, .writing 0 7), (.inr false, .writing 1 8), (.inl (), .reading 0 7),
      (.inr true, .writing 0 9)] ∧ s.data.numberItems = 2 ∧ Linearized 2 s := by
  let M : Monitor (Unit ⊕ Bool) ConcurrentBuffer Line := threads (fun _ => 2) fun _ => 2
  let fill : List (Event (Unit ⊕ Bool)) :=
    List.replicate 11 (.exec (.inr true) 7) ++ List.replicate 9 (.exec (.inr false) 8)
  let wait : List (Event (Unit ⊕ Bool)) :=
    List.replicate 3 (.exec (.inr true) 9) ++ List.replicate 10 (.exec (.inl ()) 0)
  let wrap : List (Event (Unit ⊕ Bool)) :=
    .resume (.inr true) :: List.replicate 8 (.exec (.inr true) 9)
  have hs : (replay (exec M.program) (fill ++ wait ++ wrap)
      (M.program.init (allocateBuffer 2 fun _ => 0))).map
        (fun s => (s.out, s.data.numberItems, s.owner ())) =
      some ([(.inr true, .writing 0 7), (.inr false, .writing 1 8), (.inl (), .reading 0 7),
        (.inr true, .writing 0 9)], 2, none) := by decide +kernel
  obtain ⟨s, h, hs⟩ := exists_of_replay (fun _ _ _ => step_of_exec) hs
  obtain ⟨hout, hn, hf⟩ : _ ∧ _ ∧ _ := by simpa only [Prod.mk.injEq] using hs
  exact ⟨s, hout, hn, linearized (by decide) h hf⟩

end Task2
