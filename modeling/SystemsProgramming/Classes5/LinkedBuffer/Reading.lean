import SystemsProgramming.Classes5.LinkedBuffer.Calls
import Mathlib.Data.List.Induction

/-!
# What a sequence of reads delivers

`readEntries_append` computes the loop of `linked_read` from a position between two entries: it
copies the bytes of the entries it passes, as far as the count goes, but `*f_pos` moves by their
whole lengths.  So a sequence of reads loses nothing exactly when no count ends inside an entry
(`reads_lossless_iff`).
-/

namespace LinkedBuffer

/-! ### The loop without faults -/

section Loop

variable {count fPos : ℕ} {v : ReadVars} {l : List Data}

/-- The locals after the loop body has run for the entries `l`. -/
def readEntries (count fPos : ℕ) (l : List Data) (v : ReadVars) : ReadVars :=
  l.foldl (fun v data => (readEntry count fPos data v).1) v

/-- The entries for which the loop runs before it ends or breaks. -/
def reached (count fPos : ℕ) : List Data → ReadVars → List Data
  | [], _ => []
  | data :: l, v =>
    data :: if (readEntry count fPos data v).2 then []
      else reached count fPos l (readEntry count fPos data v).1

theorem readLoop_eq (l : List Data) (v : ReadVars) :
    readLoop count fPos (fun _ => false) l v =
      (readEntries count fPos (reached count fPos l v) v, none) := by
  induction l generalizing v with
  | nil => rfl
  | cons data l ih =>
      rw [readLoop, if_neg fun h => Bool.false_ne_true h.2, reached]
      cases hover : (readEntry count fPos data v).2 with
      | true => simp [readEntries, hover]
      | false => simp [readEntries, hover, ih]

theorem readEntry_of_skips (data : Data) (h : v.Skips fPos) :
    readEntry count fPos data v = ({ v with pos := v.pos + data.length }, false) := by
  rw [readEntry, if_pos h]

/-- The pass over an entry from `*f_pos` on. -/
theorem readEntry_of_not_skips (data : Data) (h : ¬ v.Skips fPos) :
    readEntry count fPos data v =
      ({ pos := v.pos + min data.length (count - v.copied)
         copied := v.copied + min data.length (count - v.copied)
         realLength := v.realLength + data.length
         userBuf := v.userBuf ++ data.bytes.take (count - v.copied) },
        decide (count ≤ v.copied + min data.length (count - v.copied))) := by
  rw [readEntry, if_neg h, Data.bytes, List.take_take, Nat.min_comm data.length]

/-- The entries before `*f_pos` are skipped. -/
theorem readEntries_skip {pre : List Data} (h : v.pos + lengthOf pre ≤ fPos) :
    readEntries count fPos pre v = { v with pos := v.pos + lengthOf pre } := by
  induction pre generalizing v with
  | nil => rfl
  | cons data pre ih =>
      rw [lengthOf_cons] at h
      have hskip : v.Skips fPos := by
        have := data.length_pos
        show v.pos < fPos
        omega
      show readEntries count fPos pre (readEntry count fPos data v).1 = _
      rw [readEntry_of_skips data hskip, ih (by dsimp only; omega), lengthOf_cons]
      dsimp only
      rw [Nat.add_assoc]

theorem reached_skip {pre : List Data} (h : v.pos + lengthOf pre = fPos) (l : List Data) :
    reached count fPos (pre ++ l) v = pre ++ reached count fPos l { v with pos := fPos } := by
  induction pre generalizing v with
  | nil =>
      rw [lengthOf_nil, Nat.add_zero] at h
      subst h
      rfl
  | cons data pre ih =>
      rw [lengthOf_cons] at h
      have hskip : v.Skips fPos := by
        have := data.length_pos
        show v.pos < fPos
        omega
      rw [List.cons_append, reached, readEntry_of_skips data hskip]
      simp only [Bool.false_eq_true, if_false, List.cons_append, List.cons.injEq, true_and]
      exact ih (by dsimp only; omega)

/-- From `*f_pos` on the loop copies up to the count and adds up whole lengths. -/
theorem readEntries_copy (h : ¬ v.Skips fPos) (hc : v.copied ≤ count) :
    readEntries count fPos l v =
      { pos := v.pos + min (lengthOf l) (count - v.copied)
        copied := v.copied + min (lengthOf l) (count - v.copied)
        realLength := v.realLength + lengthOf l
        userBuf := v.userBuf ++ (contentsOf l).take (count - v.copied) } := by
  induction l generalizing v with
  | nil => simp [readEntries]
  | cons data l ih =>
      show readEntries count fPos l (readEntry count fPos data v).1 = _
      have hpos : ¬ v.pos < fPos := h
      rw [readEntry_of_not_skips data h]
      rw [ih (by show ¬ _ < fPos; dsimp only; omega) (by dsimp only; omega)]
      simp only [lengthOf_cons, contentsOf_cons, List.take_append, Data.length_bytes,
        ReadVars.mk.injEq, List.append_assoc]
      refine ⟨by omega, by omega, by omega, ?_⟩
      congr 3
      omega

/-- The loop from a position between two entries. -/
theorem readEntries_append (count : ℕ) (pre post : List Data) :
    readEntries count (lengthOf pre) (pre ++ post) {} =
      { pos := lengthOf pre + min (lengthOf post) count
        copied := min (lengthOf post) count
        realLength := lengthOf post
        userBuf := (contentsOf post).take count } := by
  have hskip : readEntries count (lengthOf pre) pre {} = { pos := lengthOf pre } := by
    rw [readEntries_skip (Nat.zero_add (lengthOf pre)).le]
    simp
  rw [readEntries, List.foldl_append]
  show readEntries _ _ post (readEntries _ _ pre _) = _
  rw [hskip, readEntries_copy (by exact Nat.lt_irrefl _) (Nat.zero_le _)]
  simp

/-- The entries that a read of `count` bytes passes. -/
def visited : ℕ → List Data → List Data
  | _, [] => []
  | count, data :: l => data :: if count ≤ data.length then [] else visited (count - data.length) l

theorem reached_eq_visited (h : ¬ v.Skips fPos) (hc : v.copied ≤ count) :
    reached count fPos l v = visited (count - v.copied) l := by
  induction l generalizing v with
  | nil => rfl
  | cons data l ih =>
      have hpos : ¬ v.pos < fPos := h
      rw [reached, visited, readEntry_of_not_skips data h]
      by_cases hle : count - v.copied ≤ data.length
      · rw [if_pos hle, if_pos (by simp; omega)]
      · rw [if_neg hle, if_neg (by simp; omega)]
        rw [ih (by show ¬ _ < fPos; dsimp only; omega) (by dsimp only; omega)]
        congr 2
        dsimp only
        omega

theorem visited_isPrefix (count : ℕ) (l : List Data) : visited count l <+: l := by
  induction l generalizing count with
  | nil => exact List.prefix_rfl
  | cons data l ih =>
      rw [visited, List.prefix_cons_inj]
      split
      · exact List.nil_prefix
      · exact ih _

/-- A read passes the whole list, or entries for its count of which the last one is needed. -/
theorem lengthOf_visited (count : ℕ) (l : List Data) (hc : 0 < count) :
    (visited count l = l ∧ lengthOf l < count) ∨
      (count ≤ lengthOf (visited count l) ∧
        ∀ k, count ≤ lengthOf (l.take k) → lengthOf (visited count l) ≤ lengthOf (l.take k)) := by
  induction l generalizing count with
  | nil => exact Or.inl ⟨rfl, hc⟩
  | cons data l ih =>
      have hpos := data.length_pos
      rw [visited]
      by_cases hle : count ≤ data.length
      · rw [if_pos hle]
        refine Or.inr ⟨by simpa using hle, fun k hk => ?_⟩
        cases k with
        | zero => simp at hk; omega
        | succ k => simp
      · rw [if_neg hle]
        rcases ih (count - data.length) (by omega) with ⟨heq, hlt⟩ | ⟨hge, hmin⟩
        · refine Or.inl ⟨by rw [heq], ?_⟩
          rw [lengthOf_cons]
          omega
        · refine Or.inr ⟨by rw [lengthOf_cons]; omega, fun k hk => ?_⟩
          cases k with
          | zero => simp at hk; omega
          | succ k =>
              rw [List.take_succ_cons, lengthOf_cons] at hk ⊢
              rw [lengthOf_cons]
              have := hmin k (by omega)
              omega

theorem lengthOf_visited_le (count : ℕ) (l : List Data) : lengthOf (visited count l) ≤ lengthOf l := by
  obtain ⟨l', hl⟩ := visited_isPrefix count l
  have := congrArg lengthOf hl
  rw [lengthOf_append] at this
  omega

/-- The bytes that the count asks for are in the entries passed. -/
theorem take_contentsOf_visited (count : ℕ) (l : List Data) :
    (contentsOf (visited count l)).take count = (contentsOf l).take count := by
  rcases Nat.eq_zero_or_pos count with rfl | hc
  · rw [List.take_zero, List.take_zero]
  · rcases lengthOf_visited count l hc with ⟨heq, -⟩ | ⟨hge, -⟩
    · rw [heq]
    · obtain ⟨l', hl⟩ := visited_isPrefix count l
      conv_rhs => rw [← hl, contentsOf_append]
      rw [List.take_append_of_le_length (by rwa [length_contentsOf])]

theorem min_lengthOf_visited (count : ℕ) (l : List Data) :
    min count (lengthOf (visited count l)) = min count (lengthOf l) := by
  have := congrArg List.length (take_contentsOf_visited count l)
  simpa using this

end Loop

/-! ### Sequences of reads -/

/-- The states that sequences of `linked_write` calls build. -/
inductive Written (variant : Variant) : Module → Prop
  | init : Written variant {}
  | write {m : Module} (env : ℕ → Outcome) (userBuf : List UInt8) (fPos : ℕ) :
      Written variant m → Written variant (linkedWrite variant env m userBuf fPos).module

/-- Run alone, `linked_write` keeps `total_length` right. -/
theorem writeLoop_totalLength {variant : Variant} {env : ℕ → Outcome} {userBuf : List UInt8}
    {is : List ℕ} {m : Module} {fPos : ℕ} (h : m.totalLength = lengthOf m.buffer) :
    (writeLoop variant env userBuf is m fPos).module.totalLength =
      lengthOf (writeLoop variant env userBuf is m fPos).module.buffer := by
  induction is generalizing m fPos with
  | nil => exact h
  | cons i is ih =>
      have hnext : ∀ hi, let data := newData userBuf i hi
          ({ m with buffer := m.buffer ++ [data], totalLength := m.totalLength + data.length } :
            Module).totalLength = lengthOf (m.buffer ++ [data]) := by
        intro hi data
        simp [h]
      simp only [writeLoop]
      split
      · split
        · exact h
        · exact h
        · split
          · rfl
          · split
            · exact h
            · exact ih (hnext _)
      · exact h

theorem Written.totalLength_eq {variant : Variant} {m : Module} (h : Written variant m) :
    m.totalLength = lengthOf m.buffer := by
  induction h with
  | init => rfl
  | write env userBuf fPos _ ih => exact writeLoop_totalLength ih

/-- A call in a sequence of reads: its count, `*f_pos` before it, and its result. -/
structure ReadCall where
  count : ℕ
  before : ℕ
  result : ReadResult

/-- Reads with the given counts, one after the other on one file. -/
def readCalls (variant : Variant) : List ℕ → Module → ℕ → List ReadCall
  | [], _, _ => []
  | count :: counts, m, fPos =>
    let result := linkedRead variant false (fun _ => false) m count fPos
    ⟨count, fPos, result⟩ :: readCalls variant counts result.module result.fPos

/-- The call returns what it delivers, at most its count, and moves `*f_pos` by it. -/
def ReadCall.Exact (call : ReadCall) : Prop :=
  call.result.ret = .ok call.result.delivered.length ∧
    call.result.delivered.length ≤ call.count ∧
    call.result.fPos = call.before + call.result.delivered.length

/-- The reads lose nothing: each is exact, and when the last one returns 0 they have delivered the
contents of the list. -/
def Lossless (l : List Data) (calls : List ReadCall) : Prop :=
  (∀ call ∈ calls, call.Exact) ∧
    ∀ call, calls.getLast? = some call → call.result.ret = .ok 0 →
      calls.flatMap (fun call => call.result.delivered) = contentsOf l

/-- The counts add up to ends of entries, as long as they stay inside the list. -/
def OnBoundaries (l : List Data) (counts : List ℕ) : Prop :=
  ∀ i, (∃ k, (counts.take i).sum = lengthOf (l.take k)) ∨ lengthOf l ≤ (counts.take i).sum

/-- What a read does from a position between two entries. -/
theorem linkedRead_append (variant : Variant) (count : ℕ) {m : Module} {pre post : List Data}
    (hbuf : m.buffer = pre ++ post) (htotal : m.totalLength = lengthOf m.buffer) :
    linkedRead variant false (fun _ => false) m count (lengthOf pre) =
      { module := { m with readCount := m.readCount + 1 }
        fPos := lengthOf pre + lengthOf (visited count post)
        ret := .ok ((contentsOf post).take count).length
        delivered := (contentsOf post).take count } := by
  have hcheck : ¬ m.totalLength < lengthOf pre := by
    rw [htotal, hbuf, lengthOf_append]
    omega
  have hreached : reached count (lengthOf pre) m.buffer {} = pre ++ visited count post := by
    rw [hbuf, reached_skip (Nat.zero_add _), reached_eq_visited (by exact Nat.lt_irrefl _) (Nat.zero_le _)]
    rfl
  have hloop := readEntries_append count pre (visited count post)
  rw [linkedRead, if_neg hcheck, Bool.and_false, if_neg Bool.false_ne_true, readLoop_eq, hreached,
    hloop, take_contentsOf_visited]
  rw [List.length_take, length_contentsOf, Nat.min_comm _ count, min_lengthOf_visited]

/-- The read is exact when its count ends with an entry or reaches the end of the list. -/
theorem lengthOf_visited_eq_iff {count : ℕ} {l : List Data} (hc : 0 < count) :
    lengthOf (visited count l) = min count (lengthOf l) ↔
      (∃ k, count = lengthOf (l.take k)) ∨ lengthOf l ≤ count := by
  rcases lengthOf_visited count l hc with ⟨heq, hlt⟩ | ⟨hge, hmin⟩
  · rw [heq]
    exact iff_of_true (by omega) (Or.inr hlt.le)
  · have hle := lengthOf_visited_le count l
    constructor
    · intro h
      refine Or.inl ⟨(visited count l).length, ?_⟩
      rw [← List.prefix_iff_eq_take.1 (visited_isPrefix count l)]
      omega
    · rintro (⟨k, hk⟩ | h)
      · have := hmin k hk.le
        omega
      · omega

theorem lengthOf_take_le (l : List Data) (k : ℕ) : lengthOf (l.take k) ≤ lengthOf l := by
  have := congrArg lengthOf (List.take_append_drop k l)
  rw [lengthOf_append] at this
  omega

/-- The first read of a sequence, and the condition for the rest of the sequence. -/
theorem onBoundaries_cons {count : ℕ} {counts : List ℕ} {l l' : List Data}
    (hl : visited count l ++ l' = l) (hc : 0 < count) :
    OnBoundaries l (count :: counts) ↔
      ((∃ k, count = lengthOf (l.take k)) ∨ lengthOf l ≤ count) ∧ OnBoundaries l' counts := by
  have hsum := congrArg lengthOf hl
  rw [lengthOf_append] at hsum
  have hexact := lengthOf_visited_eq_iff (l := l) hc
  -- the ends of entries of `l` from the entries passed on are those of `l'`
  have hend : ∀ n, lengthOf (visited count l) = count →
      ((∃ k, count + n = lengthOf (l.take k)) ↔ ∃ k, n = lengthOf (l'.take k)) := by
    intro n hv
    constructor
    · rintro ⟨k, hk⟩
      refine ⟨k - (visited count l).length, ?_⟩
      rw [← hl, List.take_append, lengthOf_append] at hk
      by_cases hlong : (visited count l).length ≤ k
      · rw [List.take_of_length_le hlong] at hk
        omega
      · have hzero : k - (visited count l).length = 0 := by omega
        have := lengthOf_take_le (visited count l) k
        rw [hzero, List.take_zero, lengthOf_nil] at hk ⊢
        omega
    · rintro ⟨k, hk⟩
      refine ⟨(visited count l).length + k, ?_⟩
      have htake : (visited count l ++ l').take ((visited count l).length + k) = _ :=
        List.take_length_add_append k
      rw [hl] at htake
      rw [htake, lengthOf_append]
      omega
  constructor
  · intro h
    have hfirst : (∃ k, count = lengthOf (l.take k)) ∨ lengthOf l ≤ count := by
      simpa using h 1
    refine ⟨hfirst, fun i => ?_⟩
    have hnext := h (i + 1)
    rw [List.take_succ_cons, List.sum_cons] at hnext
    have hv := hexact.2 hfirst
    by_cases hle : lengthOf l ≤ count
    · exact Or.inr (by omega)
    · rw [hend _ (by omega)] at hnext
      exact hnext.imp_right fun h => by omega
  · rintro ⟨hfirst, hrest⟩ i
    have hv := hexact.2 hfirst
    cases i with
    | zero => exact Or.inl ⟨0, by simp⟩
    | succ i =>
        rw [List.take_succ_cons, List.sum_cons]
        by_cases hle : lengthOf l ≤ count
        · exact Or.inr (by omega)
        · rw [hend _ (by omega)]
          exact (hrest i).imp_right fun h => by omega

/-- Reads from a position between two entries. -/
theorem readCalls_append (variant : Variant) {counts : List ℕ} (hpos : ∀ c ∈ counts, 0 < c)
    {m : Module} {pre post : List Data} (hbuf : m.buffer = pre ++ post)
    (htotal : m.totalLength = lengthOf m.buffer) :
    ((∀ call ∈ readCalls variant counts m (lengthOf pre), call.Exact) ↔ OnBoundaries post counts) ∧
      ((∀ call ∈ readCalls variant counts m (lengthOf pre), call.Exact) →
        ∀ call, (readCalls variant counts m (lengthOf pre)).getLast? = some call →
          call.result.ret = .ok 0 →
          (readCalls variant counts m (lengthOf pre)).flatMap (fun call => call.result.delivered) =
            contentsOf post) := by
  induction counts generalizing m pre post with
  | nil =>
      refine ⟨iff_of_true nofun fun i => Or.inl ⟨0, by simp⟩, fun _ call h => ?_⟩
      cases h
  | cons count counts ih =>
      have hc : 0 < count := hpos count (List.mem_cons_self ..)
      obtain ⟨post', hl⟩ := visited_isPrefix count post
      have hread := linkedRead_append variant count hbuf htotal
      have hexact : ReadCall.Exact ⟨count, lengthOf pre,
          linkedRead variant false (fun _ => false) m count (lengthOf pre)⟩ ↔
          (∃ k, count = lengthOf (post.take k)) ∨ lengthOf post ≤ count := by
        rw [← lengthOf_visited_eq_iff hc, hread]
        simp only [ReadCall.Exact, List.length_take, length_contentsOf, true_and]
        omega
      have hbuf' : ({ m with readCount := m.readCount + 1 } : Module).buffer =
          (pre ++ visited count post) ++ post' := by
        rw [List.append_assoc, hl]
        exact hbuf
      have hrest := ih (fun c hc => hpos c (List.mem_cons_of_mem _ hc)) hbuf' htotal
      rw [lengthOf_append] at hrest
      have hcalls : readCalls variant (count :: counts) m (lengthOf pre) =
          ⟨count, lengthOf pre, linkedRead variant false (fun _ => false) m count (lengthOf pre)⟩ ::
            readCalls variant counts { m with readCount := m.readCount + 1 }
              (lengthOf pre + lengthOf (visited count post)) := by
        rw [readCalls, hread]
      rw [hcalls, onBoundaries_cons hl hc, List.forall_mem_cons, hexact, hrest.1]
      refine ⟨Iff.rfl, fun hall call hlast hret => ?_⟩
      have hv : lengthOf (visited count post) ≤ count := by
        rw [(lengthOf_visited_eq_iff hc).2 hall.1]
        exact Nat.min_le_left _ _
      have hfirst : (contentsOf post).take count = contentsOf (visited count post) := by
        rw [← take_contentsOf_visited, List.take_of_length_le (by rwa [length_contentsOf])]
      rw [List.flatMap_cons, hread, hfirst]
      rcases hcs : readCalls variant counts { m with readCount := m.readCount + 1 }
          (lengthOf pre + lengthOf (visited count post)) with _ | ⟨next, calls⟩
      · -- this is the last call, and it has returned 0
        rw [hcs, hread, List.getLast?_singleton, Option.some.injEq] at hlast
        subst hlast
        have hzero : lengthOf post = 0 := by
          have : count = 0 ∨ lengthOf post = 0 := by simpa using hret
          omega
        have hnil : contentsOf post = [] :=
          List.eq_nil_of_length_eq_zero (by rw [length_contentsOf, hzero])
        rw [← hfirst, hnil, List.take_nil]
        rfl
      · rw [hcs, List.getLast?_cons_cons, ← hcs] at hlast
        rw [← hcs, hrest.2 (hrest.1.2 hall.2) call hlast hret, ← contentsOf_append, hl]

/-- Reads from the start of the file on lose nothing exactly when their counts, as long as they
stay inside the list, add up to ends of entries. -/
theorem reads_lossless_iff {variant : Variant} {m : Module} (hm : Written variant m)
    {counts : List ℕ} (hpos : ∀ c ∈ counts, 0 < c) :
    Lossless m.buffer (readCalls variant counts m 0) ↔ OnBoundaries m.buffer counts := by
  have h := readCalls_append variant hpos (show m.buffer = [] ++ m.buffer from rfl) hm.totalLength_eq
  exact ⟨fun hL => h.1.1 hL.1, fun hO => ⟨h.1.2 hO, h.2 (h.1.2 hO)⟩⟩

/-- Two entries of 3 and 2 bytes, read by their lengths. -/
theorem reads_lossless_iff_two_entries :
    ∃ m, Written .mutex m ∧ m.buffer.map Data.bytes = [[1, 2, 3], [4, 5]] ∧
      (Lossless m.buffer (readCalls .mutex [3, 2, 1] m 0) ↔ OnBoundaries m.buffer [3, 2, 1]) := by
  have hm : Written .mutex _ :=
    (Written.init.write (fun _ => .ok) [1, 2, 3] 0).write (fun _ => .ok) [4, 5] 0
  exact ⟨_, hm, by decide, reads_lossless_iff hm (by decide)⟩

/-- One entry of 4 bytes, read 3 bytes at a time: the fourth byte is lost. -/
theorem read_loses_byte :
    ∃ m, Written .mutex m ∧ contentsOf m.buffer = [65, 66, 67, 68] ∧
      (readCalls .mutex [3, 3] m 0).map (fun call => (call.result.delivered, call.result.fPos)) =
        [([65, 66, 67], 4), ([], 4)] ∧
      ¬ Lossless m.buffer (readCalls .mutex [3, 3] m 0) := by
  have hm : Written .mutex _ := Written.init.write (fun _ => .ok) [65, 66, 67, 68] 0
  refine ⟨_, hm, by decide, by decide, fun h => ?_⟩
  have hlost := h.2 _ rfl rfl
  revert hlost
  decide

end LinkedBuffer
