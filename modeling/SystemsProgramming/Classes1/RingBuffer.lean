import SystemsProgramming.Library.Monitor
import SystemsProgramming.Library.Ring

/-!
# The ring buffer of `Task2.c` and `Task6.c`

Both programs keep their items in a ring of `size` cells, with the same statements for taking an
item out and for putting one in, and print the same lines.  `Stores size b q` says that the buffer
`b` stores the queue `q`; taking removes the head of the queue and putting appends to it.
-/

namespace RingBuffer

open Pthread

/-- The fields of `concurrent_buffer` that both programs have, without the mutex and the condition
variable.  The `int` fields stay between `0` and `size`. -/
structure Buffer where
  size : ℤ
  numberItems : ℤ
  readingPoint : ℤ
  writingPoint : ℤ
  data : ℤ → ℤ

/-- What a call prints. -/
inductive Line where
  /-- `: reading from index: … value is: …` -/
  | reading (index value : ℤ)
  /-- `: writing to index: … value is: …` -/
  | writing (index value : ℤ)
  deriving DecidableEq

/-- Whether the line is one of `read_from_concurrent_buffer`. -/
def Line.isReading : Line → Bool
  | .reading _ _ => true
  | .writing _ _ => false

/-- The buffer that `allocate_buffer` builds, with the contents that `malloc` leaves in the cells. -/
def allocate (size : ℤ) (cells : ℤ → ℤ) : Buffer where
  size := size
  numberItems := 0
  readingPoint := 0
  writingPoint := 0
  data := cells

/-- The last statements of `read_from_concurrent_buffer`. -/
def takeItem : List (Stmt Buffer Line) := [
  fun _ b => ({ b with numberItems := b.numberItems - 1 }, []),
  fun _ b => (b, [.reading b.readingPoint (b.data b.readingPoint)]),
  fun _ b => ({ b with readingPoint := b.readingPoint + 1 }, []),
  fun _ b => ({ b with readingPoint := b.readingPoint.tmod b.size }, [])]

/-- The last statements of `write_to_concurrent_buffer`; the value is the one `rand()` returns. -/
def putItem : List (Stmt Buffer Line) := [
  fun _ b => ({ b with numberItems := b.numberItems + 1 }, []),
  fun val b => ({ b with data := Function.update b.data b.writingPoint val }, []),
  fun _ b => (b, [.writing b.writingPoint (b.data b.writingPoint)]),
  fun _ b => ({ b with writingPoint := b.writingPoint + 1 }, []),
  fun _ b => ({ b with writingPoint := b.writingPoint.tmod b.size }, [])]

/-- The values read, in the order of the log. -/
def reads {T : Type} (o : List (T × Line)) : List ℤ := o.filterMap fun e =>
  match e.2 with
  | .reading _ v => some v
  | .writing _ _ => none

/-- The values written, in the order of the log. -/
def writes {T : Type} (o : List (T × Line)) : List ℤ := o.filterMap fun e =>
  match e.2 with
  | .reading _ _ => none
  | .writing _ v => some v

/-- The lines of reads are printed by readers and those of writes by writers. -/
def ByRole {R W : Type} (o : List ((R ⊕ W) × Line)) : Prop := ∀ e ∈ o, e.2.isReading = e.1.isLeft

section Log

variable {T : Type} {o o' : List (T × Line)} {t : T} {i v : ℤ}

@[simp] theorem reads_append : reads (o ++ o') = reads o ++ reads o' := List.filterMap_append

@[simp] theorem writes_append : writes (o ++ o') = writes o ++ writes o' := List.filterMap_append

@[simp] theorem reads_reading : reads [(t, .reading i v)] = [v] := rfl

@[simp] theorem reads_writing : reads [(t, .writing i v)] = [] := rfl

@[simp] theorem writes_reading : writes [(t, .reading i v)] = [] := rfl

@[simp] theorem writes_writing : writes [(t, .writing i v)] = [v] := rfl

end Log

section Roles

variable {R W D : Type} {o o' : List ((R ⊕ W) × Line)}

theorem byRole_nil : ByRole ([] : List ((R ⊕ W) × Line)) := List.forall_mem_nil _

theorem ByRole.snoc (h : ByRole o) {e : (R ⊕ W) × Line} (he : e.2.isReading = e.1.isLeft) :
    ByRole (o ++ [e]) :=
  List.forall_mem_append.2 ⟨h, List.forall_mem_singleton.2 he⟩

theorem ByRole.of_append (h : ByRole o') (ho : o <+: o') : ByRole o := fun e he => h e (ho.subset he)

theorem ByRole.length_reads (h : ByRole o) :
    (reads o).length = (o.map Prod.fst).countP Sum.isLeft := by
  induction o with
  | nil => rfl
  | cons e o ih =>
      obtain ⟨he, ho⟩ := List.forall_mem_cons.1 h
      rcases e with ⟨t, _ | _⟩ <;> simpa [reads, List.countP_cons, ← he, Line.isReading] using ih ho

theorem ByRole.length_writes (h : ByRole o) :
    (writes o).length = (o.map Prod.fst).countP Sum.isRight := by
  induction o with
  | nil => rfl
  | cons e o ih =>
      obtain ⟨he, ho⟩ := List.forall_mem_cons.1 h
      rcases e with ⟨t, _ | _⟩ <;>
        simpa [writes, List.countP_cons, ← Sum.not_isLeft, ← he, Line.isReading] using ih ho

variable [DecidableEq R] [DecidableEq W] {s : Monitor.St (R ⊕ W) D Line}

theorem completed_of_logged (h : ∀ t, s.out.countP (fun e => e.1 = t) = Monitor.done t s) :
    Monitor.Completed (s.out.map Prod.fst) s := by
  intro t
  rw [List.countP_map]
  exact h t

/-- If every thread printed one line for each call, the lines of reads are as many as the calls that
the readers completed. -/
theorem ByRole.reads_eq_sum [Fintype R] (h : ByRole s.out)
    (hlog : ∀ t, s.out.countP (fun e => e.1 = t) = Monitor.done t s) :
    (reads s.out).length = ∑ r, Monitor.done (.inl r) s := by
  rw [h.length_reads, (completed_of_logged hlog).sum_inl]

/-- And those of writes as the calls that the writers completed. -/
theorem ByRole.writes_eq_sum [Fintype W] (h : ByRole s.out)
    (hlog : ∀ t, s.out.countP (fun e => e.1 = t) = Monitor.done t s) :
    (writes s.out).length = ∑ w, Monitor.done (.inr w) s := by
  rw [h.length_writes, (completed_of_logged hlog).sum_inr]

end Roles

/-! ### The effect of the statements -/

variable {b b' : Buffer} {e : List Line} {size : ℤ} {q : List ℤ}

/-- The buffer after `takeItem`. -/
def Buffer.take (b : Buffer) : Buffer :=
  { b with
    numberItems := b.numberItems - 1
    readingPoint := (b.readingPoint + 1).tmod b.size }

/-- The buffer after `putItem` of `v`. -/
def Buffer.put (b : Buffer) (v : ℤ) : Buffer :=
  { b with
    numberItems := b.numberItems + 1
    data := Function.update b.data b.writingPoint v
    writingPoint := (b.writingPoint + 1).tmod b.size }

theorem takeItem_effect (h : Stmts takeItem b b' e) :
    b' = b.take ∧ e = [.reading b.readingPoint (b.data b.readingPoint)] := by
  obtain _ | ⟨_, _ | ⟨_, _ | ⟨_, _ | ⟨_, ⟨⟩⟩⟩⟩⟩ := h
  exact ⟨rfl, rfl⟩

theorem putItem_effect (h : Stmts putItem b b' e) :
    ∃ v, b' = b.put v ∧ e = [.writing b.writingPoint v] := by
  obtain _ | ⟨_, _ | ⟨v, _ | ⟨_, _ | ⟨_, _ | ⟨_, ⟨⟩⟩⟩⟩⟩⟩ := h
  exact ⟨v, rfl, by simp⟩

/-! ### The buffer is a queue -/

/-- The buffer stores the queue `q`. -/
structure Stores (size : ℤ) (b : Buffer) (q : List ℤ) : Prop where
  size_eq : b.size = size
  items : b.numberItems = q.length
  length_le : (q.length : ℤ) ≤ size
  reading_nonneg : 0 ≤ b.readingPoint
  reading_lt : b.readingPoint < size
  writing : b.writingPoint = (b.readingPoint + q.length) % size
  cells : Ring.Holds size b.data b.readingPoint q

theorem stores_allocate (hsize : 1 ≤ size) (cells : ℤ → ℤ) :
    Stores size (allocate size cells) [] where
  size_eq := rfl
  items := rfl
  length_le := by simp; omega
  reading_nonneg := le_rfl
  reading_lt := hsize
  writing := by simp [allocate]
  cells := Ring.holds_nil

theorem Stores.writing_nonneg (h : Stores size b q) : 0 ≤ b.writingPoint := by
  have := h.reading_nonneg
  have := h.reading_lt
  rw [h.writing]
  exact Int.emod_nonneg _ (by omega)

theorem Stores.writing_lt (h : Stores size b q) : b.writingPoint < size := by
  have := h.reading_nonneg
  have := h.reading_lt
  rw [h.writing]
  exact Int.emod_lt_of_pos _ (by omega)

theorem Stores.take_readingPoint (h : Stores size b q) :
    b.take.readingPoint = (b.readingPoint + 1) % size := by
  have := h.reading_nonneg
  rw [Buffer.take, h.size_eq, Int.tmod_eq_emod_of_nonneg (by omega)]

theorem Stores.put_writingPoint (h : Stores size b q) (v : ℤ) :
    (b.put v).writingPoint = (b.writingPoint + 1) % size := by
  have := h.writing_nonneg
  rw [Buffer.put, h.size_eq, Int.tmod_eq_emod_of_nonneg (by omega)]

theorem Stores.head {v : ℤ} (h : Stores size b (v :: q)) : b.data b.readingPoint = v := by
  have := h.cells.head
  rwa [Int.emod_eq_of_lt h.reading_nonneg h.reading_lt] at this

/-- Taking an item removes the head of the queue. -/
theorem Stores.take {v : ℤ} (h : Stores size b (v :: q)) : Stores size b.take q := by
  have hle := h.length_le
  have h0 := h.reading_nonneg
  have hlt := h.reading_lt
  have hit := h.items
  rw [List.length_cons] at hle hit
  refine ⟨h.size_eq, ?_, by omega, ?_, ?_, ?_, ?_⟩
  · show b.numberItems - 1 = _
    omega
  · rw [h.take_readingPoint]
    exact Int.emod_nonneg _ (by omega)
  · rw [h.take_readingPoint]
    exact Int.emod_lt_of_pos _ (by omega)
  · have hl : b.readingPoint + ((v :: q).length : ℤ) = b.readingPoint + 1 + q.length := by
      rw [List.length_cons]
      omega
    rw [h.take_readingPoint, Int.emod_add_emod, ← hl]
    exact h.writing
  · rw [h.take_readingPoint]
    exact h.cells.pop

/-- Putting an item appends it to the queue. -/
theorem Stores.put (h : Stores size b q) (hq : (q.length : ℤ) < size) (v : ℤ) :
    Stores size (b.put v) (q ++ [v]) := by
  have hit := h.items
  have hwp := h.writing
  have hl : ((q ++ [v]).length : ℤ) = q.length + 1 := by simp
  refine ⟨h.size_eq, ?_, by omega, h.reading_nonneg, h.reading_lt, ?_, ?_⟩
  · show b.numberItems + 1 = _
    omega
  · rw [h.put_writingPoint, hl, hwp, Int.emod_add_emod, add_assoc]
    rfl
  · show Ring.Holds size (Function.update b.data b.writingPoint v) b.readingPoint _
    rw [hwp]
    exact h.cells.push hq v

end RingBuffer
