import SystemsProgramming.Classes1.RingBuffer

/-!
# The batch buffer of `Task6.c`

The buffer is written until it is full and then read until it is empty; `readingTime` says which.
Serially, the number of completed calls modulo `2 * size` decides the phase, the count and both ring
indices (`Phase`), and the log consists of batches of `size` writes and `size` reads (`Batches`).
-/

namespace Task6

open Pthread Transition Monitor RingBuffer

/-- `concurrent_buffer`: the ring and the flag `reading_time`. -/
structure ConcurrentBuffer extends Buffer where
  readingTime : ℤ

/-- `allocate_buffer` -/
def allocateBuffer (size : ℤ) (cells : ℤ → ℤ) : ConcurrentBuffer where
  toBuffer := allocate size cells
  readingTime := 0

/-- A statement on the ring. -/
def onRing (st : Stmt Buffer Line) : Stmt ConcurrentBuffer Line := fun i b =>
  ({ b with toBuffer := (st i b.toBuffer).1 }, (st i b.toBuffer).2)

/-- `read_from_concurrent_buffer` -/
def readFromConcurrentBuffer : Call ConcurrentBuffer Line where
  waits b := b.readingTime = 0
  signals b := b.numberItems = 1
  mark b := { b with readingTime := 0 }
  body := takeItem.map onRing

/-- `write_to_concurrent_buffer` -/
def writeToConcurrentBuffer : Call ConcurrentBuffer Line where
  waits b := b.readingTime ≠ 0
  signals b := b.numberItems = b.size - 1
  mark b := { b with readingTime := 1 }
  body := putItem.map onRing

variable {R W : Type}

/-- The threads of `main`: readers `R` and writers `W`, each with its number of runs. -/
def threads (readerRuns : R → ℕ) (writerRuns : W → ℕ) : Monitor (R ⊕ W) ConcurrentBuffer Line where
  call := Sum.elim (fun _ => readFromConcurrentBuffer) fun _ => writeToConcurrentBuffer
  runs := Sum.elim readerRuns writerRuns

/-! ### The effect of a call -/

theorem onRing_effect {ss : List (Stmt Buffer Line)} {b b' : ConcurrentBuffer} {e : List Line}
    (h : Stmts (ss.map onRing) b b' e) :
    Stmts ss b.toBuffer b'.toBuffer e ∧ b'.readingTime = b.readingTime := by
  induction ss generalizing b e with
  | nil => cases h; exact ⟨.nil _, rfl⟩
  | cons st ss ih =>
      obtain _ | ⟨i, h⟩ := h
      obtain ⟨hs, ht⟩ := ih h
      exact ⟨.cons i hs, ht⟩

variable {b b' : ConcurrentBuffer} {e : List Line}

theorem read_effect (h : Stmts readFromConcurrentBuffer.body (readFromConcurrentBuffer.start b) b' e) :
    b'.toBuffer = b.toBuffer.take ∧ e = [.reading b.readingPoint (b.data b.readingPoint)] ∧
      b'.readingTime = if b.numberItems = 1 then 0 else b.readingTime := by
  obtain ⟨hE, ht⟩ := onRing_effect h
  by_cases hn : b.numberItems = 1
  · simp only [Call.start, readFromConcurrentBuffer, hn, decide_true, if_true] at hE ht
    obtain ⟨hb, he⟩ := takeItem_effect hE
    exact ⟨hb, he, by rw [ht, if_pos hn]⟩
  · simp only [Call.start, readFromConcurrentBuffer, hn, decide_false] at hE ht
    obtain ⟨hb, he⟩ := takeItem_effect hE
    exact ⟨hb, he, by rw [ht, if_neg hn]; rfl⟩

theorem write_effect (h : Stmts writeToConcurrentBuffer.body (writeToConcurrentBuffer.start b) b' e) :
    ∃ v, b'.toBuffer = b.toBuffer.put v ∧ e = [.writing b.writingPoint v] ∧
      b'.readingTime = if b.numberItems = b.size - 1 then 1 else b.readingTime := by
  obtain ⟨hE, ht⟩ := onRing_effect h
  by_cases hn : b.numberItems = b.size - 1
  · simp only [Call.start, writeToConcurrentBuffer, hn, decide_true, if_true] at hE ht
    obtain ⟨v, hb, he⟩ := putItem_effect hE
    exact ⟨v, hb, he, by rw [ht, if_pos hn]⟩
  · simp only [Call.start, writeToConcurrentBuffer, hn, decide_false] at hE ht
    obtain ⟨v, hb, he⟩ := putItem_effect hE
    exact ⟨v, hb, he, by rw [ht, if_neg hn]; rfl⟩

/-! ### Phases and batches -/

/-- Position `m` of the log belongs to the writes of its batch. -/
def Writing (N m : ℕ) : Prop := m % (2 * N) < N

instance (N m : ℕ) : Decidable (Writing N m) := inferInstanceAs (Decidable (_ < _))

/-- The log consists of batches of `N` writes followed by `N` reads, the last one perhaps unfinished,
and each read returns the value of the corresponding write of its batch. -/
def Batches {T : Type} (N : ℕ) (o : List (T × Line)) : Prop :=
  ∀ k < o.length, (Writing N k → ∃ t i v, o[k]? = some (t, .writing i v)) ∧
    (¬ Writing N k → ∃ t u i j v, o[k]? = some (t, .reading i v) ∧ o[k - N]? = some (u, .writing j v))

theorem Batches.of_append {T : Type} {N : ℕ} {o o' : List (T × Line)} (h : Batches N o')
    (ho : o <+: o') : Batches N o := by
  obtain ⟨l, rfl⟩ := ho
  intro k hk
  have hget : ∀ j, j ≤ k → (o ++ l)[j]? = o[j]? := fun j hj =>
    List.getElem?_append_left (by omega)
  have := h k (by simp; omega)
  rwa [hget k le_rfl, hget (k - N) (Nat.sub_le _ _)] at this

theorem Batches.snoc {T : Type} {N : ℕ} {o : List (T × Line)} (h : Batches N o) {e : T × Line}
    (hw : Writing N o.length → ∃ t i v, e = (t, .writing i v))
    (hr : ¬ Writing N o.length → ∃ t u i j v, e = (t, .reading i v) ∧
      o[o.length - N]? = some (u, .writing j v)) : Batches N (o ++ [e]) := by
  intro k hk
  rw [List.length_append, List.length_singleton] at hk
  rcases Nat.lt_or_ge k o.length with hlt | hge
  · obtain ⟨h₁, h₂⟩ := h k hlt
    have hget : ∀ j, j ≤ k → (o ++ [e])[j]? = o[j]? := fun j hj =>
      List.getElem?_append_left (by omega)
    rw [hget k le_rfl, hget (k - N) (Nat.sub_le _ _)]
    exact ⟨h₁, h₂⟩
  · obtain rfl : k = o.length := by omega
    rw [List.getElem?_concat_length]
    refine ⟨fun hk => ?_, fun hk => ?_⟩
    · obtain ⟨t, i, v, rfl⟩ := hw hk
      exact ⟨t, i, v, rfl⟩
    · obtain ⟨t, u, i, j, v, rfl, hj⟩ := hr hk
      have hlt : o.length - N < o.length := (List.getElem?_eq_some_iff.1 hj).1
      exact ⟨t, u, i, j, v, rfl, by rwa [List.getElem?_append_left hlt]⟩

theorem succ_mod_of_lt {m k : ℕ} (h : m % k + 1 < k) : (m + 1) % k = m % k + 1 := by
  rw [Nat.add_mod_eq_ite, Nat.mod_eq_of_lt (show 1 < k by omega), if_neg (by omega)]

theorem succ_mod_of_eq {m k : ℕ} (h : m % k + 1 = k) : (m + 1) % k = 0 := by
  rw [Nat.add_mod, Nat.add_mod_mod, h, Nat.mod_self]

/-- The state of the buffer after the calls in the log `o`, with the queue `q` stored. -/
structure Phase {T : Type} (N : ℕ) (b : ConcurrentBuffer) (q : List ℤ) (o : List (T × Line)) :
    Prop where
  stores : Stores N b.toBuffer q
  batches : Batches N o
  writing : Writing N o.length → b.readingTime = 0 ∧ q.length = o.length % (2 * N) ∧
    b.readingPoint = 0 ∧
    ∀ i < q.length, ∃ t j v, q[i]? = some v ∧ o[o.length - q.length + i]? = some (t, .writing j v)
  reading : ¬ Writing N o.length → b.readingTime = 1 ∧ q.length + o.length % (2 * N) = 2 * N ∧
    b.readingPoint + N = (o.length % (2 * N) : ℕ) ∧
    ∀ i < q.length, ∃ t j v, q[i]? = some v ∧ o[o.length - N + i]? = some (t, .writing j v)

variable {T : Type} {N : ℕ} {q : List ℤ} {o : List (T × Line)}

theorem phase_init (hN : 1 ≤ N) (cells : ℤ → ℤ) :
    Phase N (allocateBuffer N cells) [] ([] : List (T × Line)) where
  stores := stores_allocate (by omega) cells
  batches _ hk := absurd hk (Nat.not_lt_zero _)
  writing _ := ⟨rfl, by simp, rfl, nofun⟩
  reading h := absurd (show Writing N 0 by simp [Writing]; omega) h

theorem Phase.not_writing (h : Phase N b q o) (hw : readFromConcurrentBuffer.waits b = false) :
    ¬ Writing N o.length := by
  intro hwr
  simp [readFromConcurrentBuffer, (h.writing hwr).1] at hw

theorem Phase.is_writing (h : Phase N b q o) (hw : writeToConcurrentBuffer.waits b = false) :
    Writing N o.length := by
  by_contra hwr
  simp [writeToConcurrentBuffer, (h.reading hwr).1] at hw

theorem Phase.read (hN : 1 ≤ N) (h : Phase N b q o)
    (hw : readFromConcurrentBuffer.waits b = false)
    (hE : Stmts readFromConcurrentBuffer.body (readFromConcurrentBuffer.start b) b' e) (t : T) :
    ∃ v q', q = v :: q' ∧ e = [.reading b.readingPoint v] ∧
      Phase N b' q' (o ++ e.map (t, ·)) := by
  have hr := h.not_writing hw
  obtain ⟨hrt, hlen, hrp, hitems⟩ := h.reading hr
  obtain ⟨hb', rfl, hrt'⟩ := read_effect hE
  have hmod := Nat.mod_lt o.length (show 2 * N > 0 by omega)
  have hle := Nat.mod_le o.length (2 * N)
  cases q with
  | nil => simp at hlen; omega
  | cons v q' =>
      rw [List.length_cons] at hlen
      have hst : Stores N b'.toBuffer q' := hb' ▸ h.stores.take
      have hrp' : b'.readingPoint = (b.readingPoint + 1) % N := by
        rw [hb']; exact h.stores.take_readingPoint
      have hn : b.numberItems = (q'.length + 1 : ℕ) := h.stores.items
      have hlen' : (o ++ [(t, Line.reading b.readingPoint v)]).length = o.length + 1 := by simp
      have hhead := h.stores.head
      refine ⟨v, q', rfl, by rw [hhead], ⟨hst, ?_, ?_, ?_⟩⟩
      · refine h.batches.snoc (fun hwr => absurd hwr hr) fun _ => ?_
        obtain ⟨u, j, w, hv, hu⟩ := hitems 0 (Nat.zero_lt_succ _)
        obtain rfl : v = w := by simpa using hv
        exact ⟨t, u, _, j, v, by rw [hhead], hu⟩
      all_goals
        simp only [List.map_cons, List.map_nil, hhead, hlen']
        intro hph
        simp only [Writing, not_lt] at hph hr
      · -- the batch is read to its end
        have hend : o.length % (2 * N) + 1 = 2 * N := by
          by_contra hne
          rw [succ_mod_of_lt (by omega)] at hph
          omega
        have hq' : q' = [] := List.eq_nil_of_length_eq_zero (by omega)
        subst hq'
        refine ⟨by rw [hrt', if_pos (by simpa using hn)], ?_, ?_, nofun⟩
        · rw [succ_mod_of_eq hend]; rfl
        · rw [hrp', show b.readingPoint + 1 = (N : ℤ) by omega, Int.emod_self]
      · have hlt : o.length % (2 * N) + 1 < 2 * N := by
          by_contra hge
          rw [succ_mod_of_eq (by omega)] at hph
          omega
        rw [succ_mod_of_lt hlt]
        generalize o.length % (2 * N) = p at hlen hrp hr hle hlt
        refine ⟨by rw [hrt', if_neg (by omega), hrt], by omega, ?_, fun i hi => ?_⟩
        · rw [hrp', Int.emod_eq_of_lt (by omega) (by omega)]
          omega
        · obtain ⟨u, j, w, hv, hu⟩ := hitems (i + 1) (Nat.succ_lt_succ hi)
          have hlt := (List.getElem?_eq_some_iff.1 hu).1
          refine ⟨u, j, w, by simpa using hv, ?_⟩
          rw [List.getElem?_append_left (by omega), ← hu]
          congr 1
          omega

theorem Phase.write (hN : 1 ≤ N) (h : Phase N b q o)
    (hw : writeToConcurrentBuffer.waits b = false)
    (hE : Stmts writeToConcurrentBuffer.body (writeToConcurrentBuffer.start b) b' e) (t : T) :
    ∃ v, e = [.writing b.writingPoint v] ∧ Phase N b' (q ++ [v]) (o ++ e.map (t, ·)) := by
  have hwr := h.is_writing hw
  obtain ⟨hrt, hlen, hrp, hitems⟩ := h.writing hwr
  obtain ⟨v, hb', rfl, hrt'⟩ := write_effect hE
  simp only [Writing] at hwr
  have hst : Stores N b'.toBuffer (q ++ [v]) := hb' ▸ h.stores.put (by omega) v
  have hrp' : b'.readingPoint = 0 := by rw [hb']; exact hrp
  have hn : b.numberItems = (q.length : ℕ) := h.stores.items
  have hsz : b.size = N := h.stores.size_eq
  have hle : o.length % (2 * N) ≤ o.length := Nat.mod_le _ _
  have hlen' : (o ++ [(t, Line.writing b.writingPoint v)]).length = o.length + 1 := by simp
  have hqlen : (q ++ [v]).length = q.length + 1 := by simp
  have hitems' : ∀ i < q.length + 1, ∃ u j w, (q ++ [v])[i]? = some w ∧
      (o ++ [(t, Line.writing b.writingPoint v)])[o.length - q.length + i]? =
        some (u, .writing j w) := by
    intro i hi
    rcases Nat.lt_or_ge i q.length with hlt | hge
    · obtain ⟨u, j, w, hv, hu⟩ := hitems i hlt
      have hlt' := (List.getElem?_eq_some_iff.1 hu).1
      exact ⟨u, j, w, by rw [List.getElem?_append_left hlt, hv],
        by rw [List.getElem?_append_left hlt', hu]⟩
    · obtain rfl : i = q.length := by omega
      refine ⟨t, b.writingPoint, v, by rw [List.getElem?_concat_length], ?_⟩
      rw [Nat.sub_add_cancel (by omega), List.getElem?_concat_length]
  refine ⟨v, rfl, ⟨hst, ?_, ?_, ?_⟩⟩
  · exact h.batches.snoc (fun _ => ⟨t, _, v, rfl⟩) fun hr => absurd hwr hr
  all_goals
    simp only [List.map_cons, List.map_nil, hlen', hqlen]
    intro hph
    simp only [Writing, not_lt] at hph
    rw [succ_mod_of_lt (by omega)] at hph ⊢
  · refine ⟨by rw [hrt', if_neg (by omega), hrt], by omega, hrp', fun i hi => ?_⟩
    obtain ⟨u, j, w, hv, hu⟩ := hitems' i hi
    exact ⟨u, j, w, hv, by rw [← hu]; congr 1; omega⟩
  · -- the batch is full
    refine ⟨by rw [hrt', if_pos (by omega)], by omega, by omega, fun i hi => ?_⟩
    obtain ⟨u, j, w, hv, hu⟩ := hitems' i hi
    exact ⟨u, j, w, hv, by rw [← hu]; congr 1; omega⟩

/-! ### Executions -/

variable [DecidableEq R] [DecidableEq W] {readerRuns : R → ℕ} {writerRuns : W → ℕ} {cells : ℤ → ℤ}

/-- The phase after a serial execution, and its numbers of reads and writes: the finished batches
account for all reads in a writing phase and for all writes in a reading phase. -/
theorem phase_of_serial (hN : 1 ≤ N) {h : List (R ⊕ W)} {o : List ((R ⊕ W) × Line)}
    (hS : (threads readerRuns writerRuns).Serial (allocateBuffer N cells) h b o) :
    ∃ q, Phase N b q o ∧ h.countP Sum.isRight = h.countP Sum.isLeft + q.length ∧
      (Writing N o.length → N ∣ h.countP Sum.isLeft) ∧
      (¬ Writing N o.length → N ∣ h.countP Sum.isRight) ∧ ByRole o ∧
      ∀ t, o.countP (fun e => e.1 = t) = h.countP (fun u => u = t) := by
  induction hS with
  | nil =>
      exact ⟨[], phase_init hN cells, rfl, fun _ => by simp, fun _ => by simp, byRole_nil,
        fun _ => rfl⟩
  | @snoc h b b' o e t _ hw hE ih =>
      obtain ⟨q, hP, hc, hleft, hright, hrole, hlog⟩ := ih
      cases t with
      | inl r =>
          obtain ⟨v, q', rfl, rfl, hP'⟩ := hP.read hN hw hE (.inl r : R ⊕ W)
          have hr := hright (hP.not_writing hw)
          have hL : (h ++ [Sum.inl r]).countP Sum.isLeft = h.countP Sum.isLeft + 1 := by simp
          have hR : (h ++ [Sum.inl r]).countP Sum.isRight = h.countP Sum.isRight := by simp
          rw [List.length_cons] at hc
          refine ⟨q', hP', by omega, fun hph => ?_, fun _ => hR ▸ hr, hrole.snoc rfl, fun t => ?_⟩
          · -- the batch is read to its end, so that nothing is stored
            have hq' := (hP'.writing hph).2.1
            have hlen := (hP.reading (hP.not_writing hw)).2.1
            have hnw := hP.not_writing hw
            rw [List.length_cons] at hlen
            simp only [Writing, not_lt] at hnw
            simp only [Writing, List.length_append, List.length_map, List.length_singleton] at hph hq'
            have hend : q'.length = 0 := by
              by_contra hne
              rw [succ_mod_of_lt (by omega)] at hph
              omega
            rw [hL, ← show h.countP Sum.isRight = h.countP Sum.isLeft + 1 by omega]
            exact hr
          · simp [List.countP_append, hlog t]
      | inr w =>
          obtain ⟨v, rfl, hP'⟩ := hP.write hN hw hE (.inr w : R ⊕ W)
          have hwr := hP.is_writing hw
          have hl := hleft hwr
          have hL : (h ++ [Sum.inr w]).countP Sum.isLeft = h.countP Sum.isLeft := by simp
          have hR : (h ++ [Sum.inr w]).countP Sum.isRight = h.countP Sum.isRight + 1 := by simp
          refine ⟨q ++ [v], hP', by simp; omega, fun _ => hL ▸ hl, fun hph => ?_, hrole.snoc rfl,
            fun t => ?_⟩
          · -- the batch is full
            have hq' := (hP'.reading hph).2.1
            have hlen := (hP.writing hwr).2.1
            simp only [Writing, List.length_append, List.length_map, List.length_singleton] at hph hq' hwr
            rw [succ_mod_of_lt (by omega)] at hph hq'
            rw [hR, show h.countP Sum.isRight + 1 = h.countP Sum.isLeft + N by omega]
            exact Nat.dvd_add hl dvd_rfl
          · simp [List.countP_append, hlog t]

/-- The states of the threads of `main` on a buffer of `N` cells. -/
abbrev Reached (readerRuns : R → ℕ) (writerRuns : W → ℕ) (N : ℕ) (cells : ℤ → ℤ)
    (s : St (R ⊕ W) ConcurrentBuffer Line) : Prop :=
  Reachable (Step (threads readerRuns writerRuns).program)
    ((threads readerRuns writerRuns).program.init (allocateBuffer N cells)) s

variable {s : St (R ⊕ W) ConcurrentBuffer Line} [Fintype R] [Fintype W]

/-- The flag, the count, the indices and the log whenever the mutex is free. -/
structure Consistent (N : ℕ) (s : St (R ⊕ W) ConcurrentBuffer Line) : Prop where
  flag : s.data.readingTime = 0 ∨ s.data.readingTime = 1
  writing : s.data.readingTime = 0 → s.data.readingPoint = 0 ∧
    s.data.writingPoint = s.data.numberItems ∧ s.data.numberItems < N
  reading : s.data.readingTime = 1 → s.data.writingPoint = 0 ∧
    s.data.readingPoint = (N - s.data.numberItems) % N ∧ 1 ≤ s.data.numberItems ∧
    s.data.numberItems ≤ N
  /-- every thread has printed one line for each call it completed -/
  logged : ∀ t, s.out.countP (fun e => e.1 = t) = done t s
  /-- the values read, one for each call that a reader completed -/
  reads_length : (reads s.out).length = ∑ r, done (.inl r) s
  /-- the values written, one for each call that a writer completed -/
  writes_length : (writes s.out).length = ∑ w, done (.inr w) s

/-- Full batches of writers' writes and readers' reads alternate, and the fields of the buffer fit
the phase. -/
theorem batches_alternate (hN : 1 ≤ N) (h : Reached readerRuns writerRuns N cells s) :
    Batches N s.out ∧ ByRole s.out ∧ (s.owner () = none → Consistent N s) := by
  obtain ⟨hist, d, o, hS, ho⟩ := out_prefix h
  obtain ⟨q, hP, -, -, -, hrole, -⟩ := phase_of_serial hN hS
  refine ⟨hP.batches.of_append ho, hrole.of_append ho, ?_⟩
  · intro hf
    obtain ⟨hist, hS, hC⟩ := serializable h hf
    obtain ⟨q, hP, -, -, -, hrole, hlog⟩ := phase_of_serial hN hS
    have hlog : ∀ t, s.out.countP (fun e => e.1 = t) = done t s := fun t => (hlog t).trans (hC t)
    have hreads := hrole.reads_eq_sum hlog
    have hwrites := hrole.writes_eq_sum hlog
    have hn := hP.stores.items
    have hwp := hP.stores.writing
    have hmod := Nat.mod_lt s.out.length (show 2 * N > 0 by omega)
    by_cases hph : Writing N s.out.length
    · obtain ⟨hrt, hlen, hrp, -⟩ := hP.writing hph
      simp only [Writing] at hph
      refine ⟨Or.inl hrt, fun _ => ⟨hrp, ?_, by omega⟩, fun h1 => ?_, hlog, hreads, hwrites⟩
      · rw [hwp, hrp, hn, zero_add, Int.emod_eq_of_lt (by omega) (by omega)]
      · rw [hrt] at h1
        cases h1
    · obtain ⟨hrt, hlen, hrp, -⟩ := hP.reading hph
      simp only [Writing, not_lt] at hph
      have hle := hP.stores.length_le
      refine ⟨Or.inr hrt, fun h0 => ?_, fun _ => ⟨?_, ?_, by omega, by omega⟩, hlog, hreads, hwrites⟩
      · rw [hrt] at h0
        cases h0
      · rw [hwp, show s.data.readingPoint + (q.length : ℤ) = N by omega, Int.emod_self]
      · rw [hn, Int.emod_eq_of_lt (by omega) (by omega)]
        omega

/-- Two writers fill a batch of two cells, a third write has to wait until both cells are read, and
then begins the next batch. -/
theorem batches_alternate_next_batch : ∃ s : St (Unit ⊕ Bool) ConcurrentBuffer Line,
    s.out = [(.inr true, .writing 0 7), (.inr false, .writing 1 8), (.inl (), .reading 0 7),
      (.inl (), .reading 1 8), (.inr true, .writing 0 9)] ∧ s.owner () = none ∧
      Batches 2 s.out ∧ ByRole s.out ∧ (s.owner () = none → Consistent 2 s) := by
  let M : Monitor (Unit ⊕ Bool) ConcurrentBuffer Line := threads (fun _ => 2) fun _ => 2
  let fill : List (Event (Unit ⊕ Bool)) :=
    List.replicate 9 (.exec (.inr true) 7) ++ List.replicate 11 (.exec (.inr false) 8)
  let wait : List (Event (Unit ⊕ Bool)) :=
    List.replicate 3 (.exec (.inr true) 9) ++ List.replicate 18 (.exec (.inl ()) 0)
  let next : List (Event (Unit ⊕ Bool)) :=
    .resume (.inr true) :: List.replicate 8 (.exec (.inr true) 9)
  have hs : (replay (exec M.program) (fill ++ wait ++ next)
      (M.program.init (allocateBuffer 2 fun _ => 0))).map (fun s => (s.out, s.owner ())) =
      some ([(.inr true, .writing 0 7), (.inr false, .writing 1 8), (.inl (), .reading 0 7),
        (.inl (), .reading 1 8), (.inr true, .writing 0 9)], none) := by decide +kernel
  obtain ⟨s, h, hs⟩ := exists_of_replay (fun _ _ _ => step_of_exec) hs
  obtain ⟨hout, hf⟩ := Prod.mk.inj hs
  exact ⟨s, hout, hf, batches_alternate (by decide) h⟩

end Task6
