import SystemsProgramming.Classes5.LinkedBuffer.Appends
import SystemsProgramming.Classes5.LinkedBuffer.Reading

/-!
# What a write does

Run alone, `linked_write` appends the chunks before the first pass of its loop that fails or meets
the clear command.  So writes that do not fail are an append log with a clear command
(`linkedWrite_log`), and a write that fails has changed nothing exactly when it is the first pass
that fails (`linkedWrite_allOrNothing_iff`).
-/

namespace LinkedBuffer

/-! ### The passes of the loop -/

section Passes

variable (variant : Variant) (env : ℕ → Outcome) (userBuf : List UInt8)

/-- Pass `k` of the loop ends with an error. -/
def Fails (k : ℕ) : Prop :=
  env (internalSize * k) = .noMem ∨ env (internalSize * k) = .fault ∨
    (variant.interruptible = true ∧ env (internalSize * k) = .signal ∧
      chunk userBuf k ≠ clearCommand)

/-- Pass `k` of the loop ends the call. -/
def Stops (k : ℕ) : Prop := Fails variant env userBuf k ∨ chunk userBuf k = clearCommand

instance (k : ℕ) : Decidable (Fails variant env userBuf k) := inferInstanceAs (Decidable (_ ∨ _))

instance (k : ℕ) : Decidable (Stops variant env userBuf k) := inferInstanceAs (Decidable (_ ∨ _))

variable {variant env userBuf} {k : ℕ} {m : Module} {fPos : ℕ}

theorem writeLoop_of_fails (h : Fails variant env userBuf k)
    (hk : internalSize * k < userBuf.length) (is : List ℕ) (m : Module) (fPos : ℕ) :
    ∃ e, writeLoop variant env userBuf (internalSize * k :: is) m fPos = ⟨m, fPos, .error e⟩ := by
  rw [writeLoop, dif_pos hk]
  rcases h with h | h | ⟨hv, h, hchunk⟩
  · rw [h]
    exact ⟨.noMem, rfl⟩
  · rw [h]
    exact ⟨.fault, rfl⟩
  · rw [h]
    dsimp only
    rw [if_neg fun hc => hchunk ((strncmp_newData hk).1 hc), if_pos ⟨hv, rfl⟩]
    exact ⟨.intr, rfl⟩

theorem writeLoop_of_clears (h : ¬ Fails variant env userBuf k)
    (hchunk : chunk userBuf k = clearCommand) (hk : internalSize * k < userBuf.length)
    (is : List ℕ) :
    writeLoop variant env userBuf (internalSize * k :: is) m fPos =
      ⟨cleanList m, fPos, .ok userBuf.length⟩ := by
  have hcmp := (strncmp_newData hk).2 hchunk
  rw [writeLoop, dif_pos hk]
  cases ho : env (internalSize * k) with
  | noMem => exact absurd (Or.inl ho) h
  | fault => exact absurd (Or.inr (Or.inl ho)) h
  | ok => exact if_pos hcmp
  | signal => exact if_pos hcmp

theorem writeLoop_of_passes (h : ¬ Stops variant env userBuf k)
    (hk : internalSize * k < userBuf.length) (is : List ℕ) :
    writeLoop variant env userBuf (internalSize * k :: is) m fPos =
      writeLoop variant env userBuf is
        { m with
          buffer := m.buffer ++ [newData userBuf (internalSize * k) hk]
          totalLength := m.totalLength + (newData userBuf (internalSize * k) hk).length }
        (fPos + (newData userBuf (internalSize * k) hk).length) := by
  obtain ⟨hfails, hchunk⟩ := not_or.1 h
  have hcmp := fun hc => hchunk ((strncmp_newData hk).1 hc)
  rw [writeLoop, dif_pos hk]
  cases ho : env (internalSize * k) with
  | noMem => exact absurd (Or.inl ho) hfails
  | fault => exact absurd (Or.inr (Or.inl ho)) hfails
  | ok =>
      dsimp only
      rw [if_neg hcmp, if_neg (by rintro ⟨-, h⟩; cases h)]
  | signal =>
      have hv : ¬ (variant.interruptible = true ∧ Outcome.signal = .signal) :=
        fun hv => hfails (Or.inr (Or.inr ⟨hv.1, ho, hchunk⟩))
      dsimp only
      rw [if_neg hcmp, if_neg hv]

/-- Passes that do not end the call append their chunks. -/
theorem writeLoop_append {n : ℕ} (hn : k + n ≤ chunkCount userBuf)
    (h : ∀ j, k ≤ j → j < k + n → ¬ Stops variant env userBuf j) (is : List ℕ) (m : Module)
    (fPos : ℕ) :
    ∃ l : List Data, l.map Data.bytes = (List.range' k n).map (chunk userBuf) ∧
      writeLoop variant env userBuf (List.range' (internalSize * k) n internalSize ++ is) m fPos =
        writeLoop variant env userBuf is
          { m with buffer := m.buffer ++ l, totalLength := m.totalLength + lengthOf l }
          (fPos + lengthOf l) := by
  induction n generalizing k m fPos with
  | zero => exact ⟨[], rfl, by simp⟩
  | succ n ih =>
      have hk : internalSize * k < userBuf.length := lt_chunkCount_iff.2 (by omega)
      rw [List.range'_succ, List.range'_succ, List.cons_append,
        writeLoop_of_passes (h k le_rfl (by omega)) hk, ← Nat.mul_succ]
      obtain ⟨l, hl, hloop⟩ := ih (k := k + 1) (by omega)
        (fun j hj hlt => h j (by omega) (by omega)) _ _
      refine ⟨newData userBuf (internalSize * k) hk :: l, ?_, ?_⟩
      · rw [List.map_cons, List.map_cons, hl, newData_bytes hk]
        rfl
      · rw [Nat.succ_eq_add_one, hloop]
        simp [Nat.add_assoc]

theorem lengthOf_of_map_bytes {l : List Data} {n : ℕ}
    (hl : l.map Data.bytes = (List.range n).map (chunk userBuf)) :
    lengthOf l = min (internalSize * n) userBuf.length := by
  have hcontents : contentsOf l = userBuf.take (internalSize * n) := by
    rw [← flatten_chunks, ← hl]
    exact List.flatMap_def ..
  rw [← length_contentsOf, hcontents, List.length_take]

/-- A call in which no pass fails or meets the command appends all chunks. -/
theorem linkedWrite_of_passes
    (h : ∀ k < chunkCount userBuf, ¬ Stops variant env userBuf k) (m : Module) (fPos : ℕ) :
    ∃ l : List Data, l.map Data.bytes = (List.range (chunkCount userBuf)).map (chunk userBuf) ∧
      linkedWrite variant env m userBuf fPos =
        ⟨{ m with
          buffer := m.buffer ++ l
          totalLength := m.totalLength + lengthOf l
          writeCount := m.writeCount + 1 }, fPos + userBuf.length, .ok userBuf.length⟩ := by
  have hpass : ∀ j, 0 ≤ j → j < 0 + chunkCount userBuf → ¬ Stops variant env userBuf j :=
    fun j _ hj => h j (by omega)
  obtain ⟨l, hl, hloop⟩ := writeLoop_append (Nat.zero_add _).le hpass [] m fPos
  rw [← List.range_eq_range'] at hl
  have hlength : lengthOf l = userBuf.length := by
    rw [lengthOf_of_map_bytes hl]
    simp only [chunkCount, internalSize]
    omega
  refine ⟨l, hl, ?_⟩
  rw [List.append_nil, Nat.mul_zero] at hloop
  rw [hlength] at hloop ⊢
  exact hloop

/-- The offsets of the loop, up to pass `k` and from pass `k` on. -/
theorem offsets_eq {k : ℕ} (hk : k < chunkCount userBuf) : ∃ is,
    offsets userBuf.length = List.range' 0 k internalSize ++ internalSize * k :: is := by
  obtain ⟨n, hn⟩ : ∃ n, chunkCount userBuf = k + (n + 1) := ⟨chunkCount userBuf - k - 1, by omega⟩
  refine ⟨List.range' (internalSize * k + internalSize) n internalSize, ?_⟩
  unfold offsets
  rw [← chunkCount, hn, ← List.range'_append, List.range'_succ, Nat.zero_add]

/-- A call whose pass `k` is the first one to end it has appended the chunks before. -/
theorem linkedWrite_of_stops (hk : k < chunkCount userBuf)
    (h : ∀ j < k, ¬ Stops variant env userBuf j) (m : Module) (fPos : ℕ) :
    ∃ l : List Data, l.map Data.bytes = (List.range k).map (chunk userBuf) ∧
      (Fails variant env userBuf k → ∃ e, linkedWrite variant env m userBuf fPos =
        ⟨{ m with buffer := m.buffer ++ l, totalLength := m.totalLength + lengthOf l },
          fPos + internalSize * k, .error e⟩) ∧
      (¬ Fails variant env userBuf k → chunk userBuf k = clearCommand →
        linkedWrite variant env m userBuf fPos =
          ⟨cleanList m, fPos + internalSize * k, .ok userBuf.length⟩) := by
  have hlt : internalSize * k < userBuf.length := lt_chunkCount_iff.2 hk
  obtain ⟨is, his⟩ := offsets_eq hk
  have hpass : ∀ j, 0 ≤ j → j < 0 + k → ¬ Stops variant env userBuf j :=
    fun j _ hj => h j (by omega)
  obtain ⟨l, hl, hloop⟩ := writeLoop_append (by omega) hpass (internalSize * k :: is) m fPos
  rw [← List.range_eq_range'] at hl
  have hlength : lengthOf l = internalSize * k := by
    rw [lengthOf_of_map_bytes hl, Nat.min_eq_left hlt.le]
  rw [Nat.mul_zero, hlength, ← his] at hloop
  refine ⟨l, hl, fun hfails => ?_, fun hfails hchunk => ?_⟩
  · obtain ⟨e, he⟩ := writeLoop_of_fails hfails hlt is
      { m with buffer := m.buffer ++ l, totalLength := m.totalLength + internalSize * k }
      (fPos + internalSize * k)
    rw [hlength]
    exact ⟨e, hloop.trans he⟩
  · exact hloop.trans (writeLoop_of_clears hfails hchunk hlt is)

end Passes

/-! ### The log -/

/-- The chunks of a call: four bytes each, the last one possibly shorter. -/
def chunks (userBuf : List UInt8) : List (List UInt8) :=
  (List.range (chunkCount userBuf)).map (chunk userBuf)

/-- What the list is for: a log of chunks, with the number of writes that met no command. -/
structure Log where
  nodes : List (List UInt8) := []
  writeCount : ℕ := 0

/-- A write appends its chunks, or clears the log at its first command. -/
def Log.write (log : Log) (userBuf : List UInt8) (fPos : ℕ) : Log × ℕ :=
  match (chunks userBuf).findIdx? (· = clearCommand) with
  | none => (⟨log.nodes ++ chunks userBuf, log.writeCount + 1⟩, fPos + userBuf.length)
  | some k => (⟨[], log.writeCount⟩, fPos + internalSize * k)

/-- The log that the module keeps. -/
def Module.log (m : Module) : Log := ⟨m.buffer.map Data.bytes, m.writeCount⟩

/-- Calls of `linked_write` one after the other, each with `*f_pos` of its file. -/
def writeCalls (variant : Variant) (calls : List (List UInt8 × ℕ)) : Module :=
  calls.foldl (fun m call => (linkedWrite variant (fun _ => .ok) m call.1 call.2).module) {}

section Log

variable {variant : Variant} {userBuf : List UInt8} {k : ℕ}

@[simp] theorem length_chunks : (chunks userBuf).length = chunkCount userBuf := by
  rw [chunks, List.length_map, List.length_range]

theorem getElem?_chunks (hk : k < chunkCount userBuf) :
    (chunks userBuf)[k]? = some (chunk userBuf k) := by
  rw [chunks, List.getElem?_map, List.getElem?_range hk, Option.map_some]

/-- Without failures only the command ends the call. -/
theorem stops_ok_iff : Stops variant (fun _ => .ok) userBuf k ↔ chunk userBuf k = clearCommand := by
  unfold Stops Fails
  simp

theorem not_fails_ok : ¬ Fails variant (fun _ => .ok) userBuf k := by
  unfold Fails
  simp

/-- A write that does not fail is the write of the log. -/
theorem linkedWrite_ok (variant : Variant) (m : Module) (userBuf : List UInt8) (fPos : ℕ) :
    (linkedWrite variant (fun _ => .ok) m userBuf fPos).ret = .ok userBuf.length ∧
      ((linkedWrite variant (fun _ => .ok) m userBuf fPos).module.log,
        (linkedWrite variant (fun _ => .ok) m userBuf fPos).fPos) = m.log.write userBuf fPos := by
  unfold Log.write
  cases hidx : (chunks userBuf).findIdx? (· = clearCommand) with
  | none =>
      have hpass : ∀ k < chunkCount userBuf, ¬ Stops variant (fun _ => .ok) userBuf k := by
        intro k hk hstop
        have hmem : chunk userBuf k ∈ chunks userBuf := List.mem_of_getElem? (getElem?_chunks hk)
        have := List.findIdx?_eq_none_iff.1 hidx _ hmem
        exact of_decide_eq_false this (stops_ok_iff.1 hstop)
      obtain ⟨l, hl, hcall⟩ := linkedWrite_of_passes hpass m fPos
      rw [hcall]
      refine ⟨rfl, ?_⟩
      show (Log.mk ((m.buffer ++ l).map Data.bytes) _, _) = _
      rw [List.map_append, hl]
      rfl
  | some k =>
      obtain ⟨hk, hclear, hfirst⟩ := List.findIdx?_eq_some_iff_getElem.1 hidx
      rw [length_chunks] at hk
      have hget : ∀ (j : ℕ) (hj : j < (chunks userBuf).length),
          (chunks userBuf)[j] = chunk userBuf j := by
        intro j hj
        rw [length_chunks] at hj
        exact Option.some.inj ((List.getElem?_eq_getElem _).symm.trans (getElem?_chunks hj))
      have hpass : ∀ j < k, ¬ Stops variant (fun _ => .ok) userBuf j := by
        intro j hj hstop
        have := hfirst j hj
        rw [hget, decide_eq_true_iff] at this
        exact this (stops_ok_iff.1 hstop)
      obtain ⟨l, -, -, hcall⟩ := linkedWrite_of_stops hk hpass m fPos
      rw [hget, decide_eq_true_iff] at hclear
      rw [hcall not_fails_ok hclear]
      exact ⟨rfl, rfl⟩

theorem writeCalls_concat (variant : Variant) (calls : List (List UInt8 × ℕ))
    (call : List UInt8 × ℕ) :
    writeCalls variant (calls ++ [call]) =
      (linkedWrite variant (fun _ => .ok) (writeCalls variant calls) call.1 call.2).module :=
  List.foldl_concat ..

theorem written_writeCalls (variant : Variant) (calls : List (List UInt8 × ℕ)) :
    Written variant (writeCalls variant calls) := by
  induction calls using List.reverseRecOn with
  | nil => exact .init
  | append_singleton calls call ih =>
      rw [writeCalls_concat]
      exact ih.write _ call.1 call.2

/-- The log after the calls is what they make of the empty log. -/
theorem log_writeCalls (variant : Variant) (calls : List (List UInt8 × ℕ)) :
    (writeCalls variant calls).log =
      calls.foldl (fun log call => (log.write call.1 call.2).1) {} := by
  induction calls using List.reverseRecOn with
  | nil => rfl
  | append_singleton calls call ih =>
      have hcall := (linkedWrite_ok variant (writeCalls variant calls) call.1 call.2).2
      rw [writeCalls_concat, List.foldl_concat, ← ih, ← hcall]

/-- Writes that do not fail are an append log with a clear command. -/
theorem linkedWrite_log (variant : Variant) (calls : List (List UInt8 × ℕ)) :
    (∀ userBuf fPos,
      let result := linkedWrite variant (fun _ => .ok) (writeCalls variant calls) userBuf fPos
      result.ret = .ok userBuf.length ∧
        (result.module.log, result.fPos) = (writeCalls variant calls).log.write userBuf fPos) ∧
    (writeCalls variant calls).log =
      calls.foldl (fun log call => (log.write call.1 call.2).1) {} ∧
    (∀ data ∈ (writeCalls variant calls).buffer, 1 ≤ data.length ∧ data.length ≤ 4) ∧
    (writeCalls variant calls).totalLength =
      ((writeCalls variant calls).buffer.map Data.length).sum ∧
    (writeCalls variant calls).totalLength = (writeCalls variant calls).log.nodes.flatten.length := by
  have htotal := (written_writeCalls variant calls).totalLength_eq
  refine ⟨linkedWrite_ok variant _, log_writeCalls variant calls, ?_, htotal, ?_⟩
  · intro data _
    exact ⟨data.length_pos, data.length_le⟩
  · rw [htotal, ← length_contentsOf]
    exact congrArg List.length (List.flatMap_def ..)

end Log

/-! ### Failures -/

section Failures

variable {variant : Variant} {env : ℕ → Outcome} {m : Module} {userBuf : List UInt8} {fPos : ℕ}

/-- The call leaves what a write can change as it was. -/
structure WriteResult.Unchanged (result : WriteResult) (m : Module) (fPos : ℕ) : Prop where
  buffer_eq : result.module.buffer = m.buffer
  totalLength_eq : result.module.totalLength = m.totalLength
  writeCount_eq : result.module.writeCount = m.writeCount
  fPos_eq : result.fPos = fPos

/-- If the call fails then it has changed nothing. -/
def AllOrNothing (variant : Variant) (env : ℕ → Outcome) (m : Module) (userBuf : List UInt8)
    (fPos : ℕ) : Prop :=
  ∀ e, (linkedWrite variant env m userBuf fPos).ret = .error e →
    (linkedWrite variant env m userBuf fPos).Unchanged m fPos

/-- Unless its first pass fails, no failing pass ends the call. -/
def OnlyFirstFails (variant : Variant) (env : ℕ → Outcome) (userBuf : List UInt8) : Prop :=
  ∀ k, 0 < k → k < chunkCount userBuf → Fails variant env userBuf k →
    ∃ j < k, Stops variant env userBuf j

/-- With a first pass that ends the call, failures leave no trace when it is pass `0`. -/
theorem allOrNothing_iff_of_stops {k : ℕ} (hk : k < chunkCount userBuf)
    (hstop : Stops variant env userBuf k) (hfirst : ∀ j < k, ¬ Stops variant env userBuf j) :
    AllOrNothing variant env m userBuf fPos ↔ Fails variant env userBuf k → k = 0 := by
  obtain ⟨l, hl, hfailed, hcleared⟩ := linkedWrite_of_stops hk hfirst m fPos
  unfold AllOrNothing
  by_cases hfails : Fails variant env userBuf k
  · obtain ⟨e, he⟩ := hfailed hfails
    rw [he]
    constructor
    · intro h _
      have hpos : fPos + internalSize * k = fPos := (h e rfl).fPos_eq
      unfold internalSize at hpos
      omega
    · intro h _ _
      obtain rfl := h hfails
      obtain rfl : l = [] := List.map_eq_nil_iff.1 hl
      exact ⟨List.append_nil _, rfl, rfl, rfl⟩
  · rw [hcleared hfails (hstop.resolve_left hfails)]
    refine iff_of_true (fun e he => ?_) fun h => absurd h hfails
    cases he

theorem onlyFirstFails_iff_of_stops {k : ℕ} (hk : k < chunkCount userBuf)
    (hstop : Stops variant env userBuf k) (hfirst : ∀ j < k, ¬ Stops variant env userBuf j) :
    OnlyFirstFails variant env userBuf ↔ Fails variant env userBuf k → k = 0 := by
  constructor
  · intro h hfails
    by_contra hne
    obtain ⟨j, hj, hstop'⟩ := h k (Nat.pos_of_ne_zero hne) hk hfails
    exact hfirst j hj hstop'
  · intro h k' hpos hk' hfails
    rcases Nat.lt_trichotomy k k' with hlt | rfl | hgt
    · exact ⟨k, hlt, hstop⟩
    · exact absurd (h hfails) (Nat.pos_iff_ne_zero.1 hpos)
    · exact absurd (Or.inl hfails) (hfirst k' hgt)

/-- A failed call has changed nothing exactly when its first pass is the one that fails. -/
theorem linkedWrite_allOrNothing_iff (variant : Variant) (env : ℕ → Outcome) (m : Module)
    (userBuf : List UInt8) (fPos : ℕ) :
    AllOrNothing variant env m userBuf fPos ↔ OnlyFirstFails variant env userBuf := by
  by_cases hstops : ∃ k, k < chunkCount userBuf ∧ Stops variant env userBuf k
  · obtain ⟨hk, hstop⟩ := Nat.find_spec hstops
    have hfirst : ∀ j < Nat.find hstops, ¬ Stops variant env userBuf j :=
      fun j hj hstop' => Nat.find_min hstops hj ⟨hj.trans hk, hstop'⟩
    exact (allOrNothing_iff_of_stops hk hstop hfirst).trans
      (onlyFirstFails_iff_of_stops hk hstop hfirst).symm
  · have hpass : ∀ k < chunkCount userBuf, ¬ Stops variant env userBuf k :=
      fun k hk hstop => hstops ⟨k, hk, hstop⟩
    obtain ⟨l, -, hcall⟩ := linkedWrite_of_passes hpass m fPos
    refine iff_of_true ?_ fun k _ hk hfails => absurd (Or.inl hfails) (hpass k hk)
    unfold AllOrNothing
    rw [hcall]
    intro e he
    cases he

/-- Five bytes, with no memory for the second chunk: the first one is in the list. -/
theorem failed_write_appends : ∃ m, m.buffer.map Data.bytes = [[65]] ∧
    (linkedWrite .mutex (fun i => if i = 4 then .noMem else .ok) m [1, 2, 3, 4, 5] 0).ret =
      .error .noMem ∧
    ¬ AllOrNothing .mutex (fun i => if i = 4 then .noMem else .ok) m [1, 2, 3, 4, 5] 0 := by
  refine ⟨(linkedWrite .mutex (fun _ => .ok) {} [65] 0).module, by decide, by decide, fun h => ?_⟩
  have hlength := (h .noMem (by decide)).totalLength_eq
  revert hlength
  decide

end Failures

end LinkedBuffer
