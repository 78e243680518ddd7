import SystemsProgramming.Classes3.Circular.Calls
import Mathlib.Data.List.Induction

/-!
# The prname device

A number written to `/dev/prname` names a process, and a read delivers the name of its command.
`advanced.c` keeps the number in a `long`, looks processes up by an `int`, and leaves the flag of a
valid entry as it is when a text is not a number: `answersLast_iff` says which entries a read
answers for.
-/

namespace Advanced

open Memory
open Circular (ReadResult enomem efault decimalLong)

/-! ### The calls -/

/-- The globals of the device. -/
structure Prname where
  procId : ℤ := -1
  prnameWritten : Bool := false
  deriving DecidableEq

/-- `EINVAL` -/
def einval : ℤ := 22

/-- `(int) proc_id` -/
def toInt (procId : ℤ) : ℤ := procId.bmod intCard

/-- `prname_write`; `alive n` says that `find_get_pid(n)` finds a process.  The NUL is stored before
the block is tested. -/
def prnameWrite (kstrtol : List UInt8 → Option ℤ) (alive : ℤ → Bool)
    (tempBlock : Option (ℕ → UInt8)) (userBuf : List (Option UInt8)) (p : Prname) :
    Except Fault (Prname × ℤ) :=
  match kmalloc (userBuf.length + 1) tempBlock with
  | none => .error .outOfBounds
  | some _ =>
    match copyFromUser userBuf with
    | none => .ok (p, -efault)
    | some bytes =>
      match kstrtol ((bytes ++ [0]).takeWhile (· ≠ 0)) with
      | none => .ok (p, -einval)
      | some procId =>
        if ¬ alive (toInt procId) then .ok ({ procId, prnameWritten := false }, -einval)
        else .ok ({ procId, prnameWritten := true }, userBuf.length)

/-- The process that `prname_read` looks up, if it gets past its check. -/
def Prname.lookup (p : Prname) : Option ℤ := if p.prnameWritten then some (toInt p.procId) else none

/-- `prname_read`, which ignores `count`; `task n` is the name of the command of process `n`, and the
kernel can write `writable` bytes from `user_buf` on. -/
def prnameRead (task : ℤ → Option (List UInt8)) (nameBlock : Option (ℕ → UInt8)) (_count : ℕ)
    (fPos : ℤ) (writable : ℕ) (p : Prname) : ReadResult :=
  match p.lookup with
  | none => ⟨-efault, fPos, []⟩
  | some procId =>
    match task procId with
    | none => ⟨0, fPos, []⟩
    | some comm =>
      match kmalloc (comm.length + 1) nameBlock with
      | none => ⟨-enomem, fPos, []⟩
      | some (_ : List UInt8) =>
        if (comm.length : ℤ) ≤ fPos then ⟨0, fPos, []⟩
        else if writable < comm.length then ⟨-efault, fPos, comm.take writable⟩
        else ⟨comm.length, fPos + comm.length, comm⟩

/-! ### Entries -/

/-- A text that is written while the processes `alive` exist, and the block that takes it. -/
structure Entry where
  text : List UInt8
  alive : ℤ → Bool
  contents : ℕ → UInt8
  size_le : text.length + 1 ≤ intMax

section Entries

variable (kstrtol : List UInt8 → Option ℤ)

/-- The number that the text is, if any. -/
def Entry.number (w : Entry) : Option ℤ := kstrtol ((w.text ++ [0]).takeWhile (· ≠ 0))

/-- The text is a number, and the `int` with its low bits names a process. -/
def Entry.Accepted (w : Entry) : Prop := ∃ n, w.number kstrtol = some n ∧ w.alive (toInt n) = true

/-- The call of `prname_write` for the entry. -/
def Entry.write (w : Entry) (p : Prname) : Except Fault (Prname × ℤ) :=
  prnameWrite kstrtol w.alive (some w.contents) (w.text.map some) p

/-- The entries one after the other: the globals, and what the last call returned. -/
def writeEntries : List Entry → Prname × Option ℤ → Except Fault (Prname × Option ℤ)
  | [], s => .ok s
  | w :: ws, s => do
    let (p, ret) ← w.write kstrtol s.1
    writeEntries ws (p, some ret)

/-- A read gets past its check exactly when the last call returned its count, and then it looks up
the process with the number of the last entry. -/
def AnswersLast (ws : List Entry) : Prop :=
  ∃ p ret, writeEntries kstrtol ws ({}, none) = .ok (p, ret) ∧
    ((∃ n, p.lookup = some n) ↔ ∃ w, ws.getLast? = some w ∧ ret = some (w.text.length : ℤ)) ∧
    ∀ w, ws.getLast? = some w → ret = some (w.text.length : ℤ) →
      ∃ n, w.number kstrtol = some n ∧ p.lookup = some n

/-- If the last entry is a number then it is accepted only if it fits in an `int`; if it is not, the
last one that is a number is not accepted. -/
def LastIsClear (ws : List Entry) : Prop :=
  ∀ w, ws.getLast? = some w →
    (∀ n, w.number kstrtol = some n → w.Accepted kstrtol → -(intMax + 1) ≤ n ∧ n ≤ intMax) ∧
    (w.number kstrtol = none →
      ∀ w', (ws.filter fun w => (w.number kstrtol).isSome).getLast? = some w' →
        ¬ w'.Accepted kstrtol)

variable {kstrtol}

/-! ### What the entries leave behind -/

/-- The globals after a call. -/
def Entry.next (kstrtol : List UInt8 → Option ℤ) (w : Entry) (p : Prname) : Prname :=
  match w.number kstrtol with
  | none => p
  | some n => { procId := n, prnameWritten := w.alive (toInt n) }

/-- What a call returns. -/
def Entry.ret (kstrtol : List UInt8 → Option ℤ) (w : Entry) : ℤ :=
  match w.number kstrtol with
  | none => -einval
  | some n => if w.alive (toInt n) then w.text.length else -einval

section Entry

variable {w : Entry} {n : ℤ}

theorem next_of_none (h : w.number kstrtol = none) (p : Prname) : w.next kstrtol p = p := by
  rw [Entry.next, h]

theorem next_of_some (h : w.number kstrtol = some n) (p : Prname) :
    w.next kstrtol p = { procId := n, prnameWritten := w.alive (toInt n) } := by
  rw [Entry.next, h]

theorem ret_of_none (h : w.number kstrtol = none) : w.ret kstrtol = -einval := by
  rw [Entry.ret, h]

theorem ret_of_some (h : w.number kstrtol = some n) :
    w.ret kstrtol = if w.alive (toInt n) then (w.text.length : ℤ) else -einval := by
  rw [Entry.ret, h]

/-- The call returns its count exactly when it accepts the text. -/
theorem ret_eq_length_iff : w.ret kstrtol = w.text.length ↔ w.Accepted kstrtol := by
  have hne : -einval ≠ (w.text.length : ℤ) := by
    unfold einval
    omega
  unfold Entry.Accepted
  cases hn : w.number kstrtol with
  | none =>
      rw [ret_of_none hn]
      exact iff_of_false hne (by simp)
  | some n =>
      rw [ret_of_some hn]
      cases ha : w.alive (toInt n) with
      | false => exact iff_of_false hne (by simp [ha])
      | true => exact iff_of_true rfl ⟨n, rfl, ha⟩

/-- An accepted entry is the one that a read looks up, as an `int`. -/
theorem lookup_next_eq_some_iff {m : ℤ} : (w.next kstrtol {}).lookup = some m ↔
    ∃ n, w.number kstrtol = some n ∧ w.alive (toInt n) = true ∧ toInt n = m := by
  unfold Prname.lookup
  cases hn : w.number kstrtol with
  | none =>
      rw [next_of_none hn]
      simp
  | some n =>
      rw [next_of_some hn]
      simp

end Entry

theorem write_eq (w : Entry) (p : Prname) :
    w.write kstrtol p = .ok (w.next kstrtol p, w.ret kstrtol) := by
  have hsize : (w.text.map some).length + 1 ≤ intMax := by
    rw [List.length_map]
    exact w.size_le
  have hblock := kmalloc_natCast hsize w.contents
  rw [Nat.cast_add, Nat.cast_one] at hblock
  have hnumber : kstrtol ((w.text ++ [0]).takeWhile (· ≠ 0)) = w.number kstrtol := rfl
  unfold Entry.write prnameWrite Entry.next Entry.ret
  rw [hblock, copyFromUser_map_some]
  dsimp only
  rw [hnumber]
  cases w.number kstrtol with
  | none => rfl
  | some n => cases ha : w.alive (toInt n) <;> simp [ha]

theorem writeEntries_concat (ws : List Entry) (w : Entry) (s : Prname × Option ℤ) :
    writeEntries kstrtol (ws ++ [w]) s =
      (writeEntries kstrtol ws s).map fun s => (w.next kstrtol s.1, some (w.ret kstrtol)) := by
  induction ws generalizing s with
  | nil =>
      rw [List.nil_append]
      simp only [writeEntries, write_eq, bind, Except.bind, Except.map]
  | cons w' ws ih =>
      rw [List.cons_append]
      simp only [writeEntries, write_eq, bind, Except.bind, ih]

/-- The last entry that is a number. -/
def lastNumber (kstrtol : List UInt8 → Option ℤ) (ws : List Entry) : Option Entry :=
  (ws.filter fun w => (w.number kstrtol).isSome).getLast?

theorem lastNumber_concat (ws : List Entry) (w : Entry) :
    lastNumber kstrtol (ws ++ [w]) =
      if (w.number kstrtol).isSome then some w else lastNumber kstrtol ws := by
  unfold lastNumber
  rw [List.filter_append, List.filter_singleton]
  cases (w.number kstrtol).isSome with
  | true => exact List.getLast?_concat
  | false =>
      show (_ ++ []).getLast? = _
      rw [List.append_nil]
      rfl

/-- The globals that the entries leave: those of the last one that is a number. -/
def leftBy (kstrtol : List UInt8 → Option ℤ) (ws : List Entry) : Prname :=
  match lastNumber kstrtol ws with
  | none => {}
  | some w => w.next kstrtol {}

theorem leftBy_concat_of_some {w : Entry} {n : ℤ} (hn : w.number kstrtol = some n)
    (ws : List Entry) : leftBy kstrtol (ws ++ [w]) = w.next kstrtol {} := by
  unfold leftBy
  rw [lastNumber_concat, hn, if_pos Option.isSome_some]

theorem leftBy_concat_of_none {w : Entry} (hn : w.number kstrtol = none) (ws : List Entry) :
    leftBy kstrtol (ws ++ [w]) = leftBy kstrtol ws := by
  unfold leftBy
  rw [lastNumber_concat, hn, if_neg (by simp)]

theorem writeEntries_eq (ws : List Entry) :
    writeEntries kstrtol ws ({}, none) =
      .ok (leftBy kstrtol ws, ws.getLast?.map fun w => w.ret kstrtol) := by
  induction ws using List.reverseRecOn with
  | nil => rfl
  | append_singleton ws w ih =>
      rw [writeEntries_concat, ih, List.getLast?_concat]
      simp only [Except.map, Option.map_some]
      cases hn : w.number kstrtol with
      | none => rw [leftBy_concat_of_none hn, next_of_none hn]
      | some n => rw [leftBy_concat_of_some hn, next_of_some hn, next_of_some hn]

/-- A read finds an accepted entry exactly when the last number is one. -/
theorem exists_lookup_leftBy_iff {ws : List Entry} : (∃ n, (leftBy kstrtol ws).lookup = some n) ↔
    ∃ w, lastNumber kstrtol ws = some w ∧ w.Accepted kstrtol := by
  unfold leftBy
  cases lastNumber kstrtol ws with
  | none => exact iff_of_false (by simp [Prname.lookup]) (by simp)
  | some w =>
      simp only [lookup_next_eq_some_iff, Option.some.injEq, exists_eq_left']
      unfold Entry.Accepted
      constructor
      · rintro ⟨m, n, hn, ha, -⟩
        exact ⟨n, hn, ha⟩
      · rintro ⟨n, hn, ha⟩
        exact ⟨_, n, hn, ha, rfl⟩

/-! ### What a read delivers -/

section Read

variable {task : ℤ → Option (List UInt8)} {nameBlock : Option (ℕ → UInt8)} {count writable : ℕ}
  {fPos : ℤ} {p : Prname}

/-- The bytes are from the name of the process that the read looks up. -/
theorem delivered_of_prnameRead
    (h : (prnameRead task nameBlock count fPos writable p).delivered ≠ []) :
    ∃ n comm, p.lookup = some n ∧ task n = some comm ∧
      (prnameRead task nameBlock count fPos writable p).delivered <+: comm := by
  unfold prnameRead at h ⊢
  cases hlookup : p.lookup with
  | none =>
      rw [hlookup] at h
      exact absurd rfl h
  | some n =>
      rw [hlookup] at h
      dsimp only at h ⊢
      cases hcomm : task n with
      | none =>
          rw [hcomm] at h
          exact absurd rfl h
      | some comm =>
          refine ⟨n, comm, rfl, hcomm, ?_⟩
          dsimp only
          split
          · exact List.nil_prefix
          · split
            · exact List.nil_prefix
            · split
              · exact List.take_prefix ..
              · exact List.prefix_rfl

/-- Where a read answers for the last entry, it delivers the name of the process with its number. -/
theorem AnswersLast.delivered {ws : List Entry} {ret : Option ℤ} (h : AnswersLast kstrtol ws)
    (hrun : writeEntries kstrtol ws ({}, none) = .ok (p, ret))
    (hread : (prnameRead task nameBlock count fPos writable p).delivered ≠ []) :
    ∃ w n comm, ws.getLast? = some w ∧ w.number kstrtol = some n ∧ task n = some comm ∧
      (prnameRead task nameBlock count fPos writable p).delivered <+: comm := by
  obtain ⟨p', ret', hrun', hcheck, hlookup⟩ := h
  obtain ⟨rfl, rfl⟩ := Prod.mk.inj (Except.ok.inj (hrun.symm.trans hrun'))
  obtain ⟨m, comm, hm, hcomm, hprefix⟩ := delivered_of_prnameRead hread
  obtain ⟨w, hw, hret⟩ := hcheck.1 ⟨m, hm⟩
  obtain ⟨n, hn, hn'⟩ := hlookup w hw hret
  obtain rfl : m = n := Option.some.inj (hm.symm.trans hn')
  exact ⟨w, m, comm, hw, hn, hcomm, hprefix⟩

end Read

/-! ### Which entries a read answers for -/

/-- An `int` has the numbers up to `INT_MAX`. -/
theorem toInt_eq_self_iff {n : ℤ} : toInt n = n ↔ -(intMax + 1) ≤ n ∧ n ≤ intMax := by
  unfold toInt
  constructor
  · intro h
    rw [← h]
    exact bmod_intCard_bounds n
  · rintro ⟨hlow, hhigh⟩
    exact bmod_intCard hlow hhigh

theorem answersLast_concat (ws : List Entry) (w : Entry) :
    AnswersLast kstrtol (ws ++ [w]) ↔
      ((∃ n, (leftBy kstrtol (ws ++ [w])).lookup = some n) ↔ w.Accepted kstrtol) ∧
        (w.Accepted kstrtol → ∃ n, w.number kstrtol = some n ∧
          (leftBy kstrtol (ws ++ [w])).lookup = some n) := by
  unfold AnswersLast
  rw [writeEntries_eq, List.getLast?_concat, Option.map_some]
  constructor
  · rintro ⟨p, ret, hrun, h⟩
    obtain ⟨rfl, rfl⟩ := Prod.mk.inj (Except.ok.inj hrun)
    simpa [ret_eq_length_iff] using h
  · intro h
    refine ⟨_, _, rfl, ?_⟩
    simpa [ret_eq_length_iff] using h

/-- A read answers for a last entry that is a number, unless it is accepted as another one. -/
theorem answersLast_of_number {w : Entry} {n : ℤ} (hn : w.number kstrtol = some n)
    (ws : List Entry) :
    AnswersLast kstrtol (ws ++ [w]) ↔ (w.Accepted kstrtol → toInt n = n) := by
  rw [answersLast_concat, exists_lookup_leftBy_iff, lastNumber_concat, hn,
    if_pos Option.isSome_some, leftBy_concat_of_some hn]
  simp only [lookup_next_eq_some_iff, hn, Option.some.injEq, exists_eq_left', true_and]
  unfold Entry.Accepted
  simp only [hn, Option.some.injEq, exists_eq_left']
  exact forall_congr' fun ha => and_iff_right ha

/-- A read answers for a last entry that is not a number if the last number is not accepted. -/
theorem answersLast_of_text {w : Entry} (hn : w.number kstrtol = none) (ws : List Entry) :
    AnswersLast kstrtol (ws ++ [w]) ↔
      ∀ w', lastNumber kstrtol (ws ++ [w]) = some w' → ¬ w'.Accepted kstrtol := by
  have hrejected : ¬ w.Accepted kstrtol := by
    rintro ⟨n, hsome, -⟩
    rw [hn] at hsome
    cases hsome
  rw [answersLast_concat, exists_lookup_leftBy_iff, iff_false_right hrejected]
  simp only [hrejected, false_implies, and_true, not_exists, not_and]

/-- A read answers for the last entry exactly when it is no number that another one is taken for,
and no text behind an accepted number. -/
theorem answersLast_iff (kstrtol : List UInt8 → Option ℤ) (ws : List Entry) :
    AnswersLast kstrtol ws ↔ LastIsClear kstrtol ws := by
  induction ws using List.reverseRecOn with
  | nil =>
      refine iff_of_true ⟨{}, none, rfl, ?_, ?_⟩ ?_
      · simp [Prname.lookup]
      · intro w hw
        cases hw
      · intro w hw
        cases hw
  | append_singleton ws w _ =>
      unfold LastIsClear
      simp only [List.getLast?_concat, Option.some.injEq, forall_eq']
      cases hn : w.number kstrtol with
      | none =>
          rw [answersLast_of_text hn]
          simp [lastNumber]
      | some n =>
          rw [answersLast_of_number hn, toInt_eq_self_iff]
          simp

/-- A text that is written while only process `1` exists. -/
def textToInit (text : List UInt8) (h : text.length + 1 ≤ intMax) : Entry where
  text := text
  alive := fun n => n = 1
  contents := fun _ => 7
  size_le := h

/-- After `1` and `x` a read gets past the check although the last call failed; after `4294967297`,
which the call accepts, it looks up process `1`. -/
theorem answers_for_other_entry :
    ¬ AnswersLast decimalLong [textToInit [49] (by decide), textToInit [120] (by decide)] ∧
    ¬ AnswersLast decimalLong
      [textToInit [52, 50, 57, 52, 57, 54, 55, 50, 57, 55] (by decide)] := by
  constructor
  · rintro ⟨p, ret, hrun, hcheck, -⟩
    have hstate : writeEntries decimalLong
        [textToInit [49] (by decide), textToInit [120] (by decide)] ({}, none) =
          .ok (⟨1, true⟩, some (-22)) := by decide
    obtain ⟨rfl, rfl⟩ := Prod.mk.inj (Except.ok.inj (hstate.symm.trans hrun))
    obtain ⟨w, hw, hret⟩ := hcheck.1 ⟨1, rfl⟩
    cases hw
    revert hret
    decide
  · rintro ⟨p, ret, hrun, -, hlookup⟩
    have hstate : writeEntries decimalLong
        [textToInit [52, 50, 57, 52, 57, 54, 55, 50, 57, 55] (by decide)] ({}, none) =
          .ok (⟨4294967297, true⟩, some 10) := by decide
    obtain ⟨rfl, rfl⟩ := Prod.mk.inj (Except.ok.inj (hstate.symm.trans hrun))
    obtain ⟨n, hn, hsome⟩ := hlookup _ rfl rfl
    have hnumber : n = 4294967297 := Option.some.inj (hn.symm.trans (by decide))
    subst hnumber
    revert hsome
    decide

end Entries

end Advanced
