import Mathlib

/-!
# The calls of the linked buffer module

The four variants of `linked_buffer.c` (mutex, rw-semaphore, rwlock, RCU) share the list, the
counters and the bodies of `linked_read` and `linked_write`; they differ in their locks, and only
the mutex variant gives up a lock wait on a signal.  The file has the calls as they run alone, one
at a time, with the allocation failures, copy faults and signals as inputs.
-/

namespace LinkedBuffer

/-! ### The list -/

/-- `INTERNAL_SIZE` -/
def internalSize : ℕ := 4

/-- `struct data`, as `linked_write` fills it -/
structure Data where
  length : ℕ
  contents : List UInt8
  length_pos : 0 < length
  length_le : length ≤ internalSize
  contents_length : contents.length = internalSize
  deriving DecidableEq

/-- The bytes of an entry. -/
def Data.bytes (data : Data) : List UInt8 := data.contents.take data.length

@[simp] theorem Data.length_bytes (data : Data) : data.bytes.length = data.length := by
  rw [bytes, List.length_take, data.contents_length]
  exact Nat.min_eq_left data.length_le

/-- The bytes of the list, in order. -/
def contentsOf (l : List Data) : List UInt8 := l.flatMap Data.bytes

/-- The sum of the lengths of the entries. -/
def lengthOf (l : List Data) : ℕ := (l.map Data.length).sum

@[simp] theorem contentsOf_nil : contentsOf [] = [] := rfl

@[simp] theorem contentsOf_cons (data : Data) (l : List Data) :
    contentsOf (data :: l) = data.bytes ++ contentsOf l := rfl

@[simp] theorem contentsOf_append (l l' : List Data) :
    contentsOf (l ++ l') = contentsOf l ++ contentsOf l' := by
  simp [contentsOf]

@[simp] theorem lengthOf_nil : lengthOf [] = 0 := rfl

@[simp] theorem lengthOf_cons (data : Data) (l : List Data) :
    lengthOf (data :: l) = data.length + lengthOf l := rfl

@[simp] theorem lengthOf_append (l l' : List Data) :
    lengthOf (l ++ l') = lengthOf l + lengthOf l' := by
  simp [lengthOf]

@[simp] theorem length_contentsOf (l : List Data) : (contentsOf l).length = lengthOf l := by
  induction l with
  | nil => rfl
  | cons data l ih => simp [ih]

/-- The globals of the module. -/
structure Module where
  buffer : List Data := []
  totalLength : ℕ := 0
  readCount : ℕ := 0
  writeCount : ℕ := 0

/-- The variants of the module. -/
inductive Variant where
  | mutex
  | semaphore
  | spinlock
  | rcu
  deriving DecidableEq

/-- Lock waits end on a signal (`mutex_lock_interruptible`). -/
def Variant.interruptible : Variant → Bool
  | .mutex => true
  | _ => false

/-- The error codes. -/
inductive Errno where
  | noMem
  | fault
  | intr
  deriving DecidableEq

/-- `clean_list`, alone -/
def cleanList (m : Module) : Module := { m with buffer := [], totalLength := 0 }

/-! ### Reading -/

/-- The locals of `linked_read`, and what has been copied to `user_buf`. -/
structure ReadVars where
  pos : ℕ := 0
  copied : ℕ := 0
  realLength : ℕ := 0
  userBuf : List UInt8 := []

/-- The loop is skipping the entries before `*f_pos`. -/
def ReadVars.Skips (fPos : ℕ) (v : ReadVars) : Prop := v.pos < fPos

instance (fPos : ℕ) (v : ReadVars) : Decidable (v.Skips fPos) := Nat.decLt _ _

/-- One pass of the loop body, without a fault; the flag says that it ends with `break`. -/
def readEntry (count fPos : ℕ) (data : Data) (v : ReadVars) : ReadVars × Bool :=
  let toCopy := min data.length (count - v.copied)
  if v.Skips fPos then ({ v with pos := v.pos + data.length }, false)
  else
    let v : ReadVars :=
      { pos := v.pos + toCopy
        copied := v.copied + toCopy
        realLength := v.realLength + data.length
        userBuf := v.userBuf ++ data.contents.take toCopy }
    (v, count ≤ v.copied)

/-- The loop; `faults v` says that `copy_to_user` fails with the locals `v`. -/
def readLoop (count fPos : ℕ) (faults : ReadVars → Bool) :
    List Data → ReadVars → ReadVars × Option Errno
  | [], v => (v, none)
  | data :: l, v =>
    if ¬ v.Skips fPos ∧ faults v then (v, some .fault)
    else
      let (v', isOver) := readEntry count fPos data v
      if isOver then (v', none) else readLoop count fPos faults l v'

/-- What a call of `linked_read` leaves behind. -/
structure ReadResult where
  module : Module
  fPos : ℕ
  ret : Except Errno ℕ
  /-- the bytes it copied to the user -/
  delivered : List UInt8

/-- `linked_read`; `signal` says that a signal ends the lock wait. -/
def linkedRead (variant : Variant) (signal : Bool) (faults : ReadVars → Bool) (m : Module)
    (count fPos : ℕ) : ReadResult :=
  if m.totalLength < fPos then ⟨m, fPos, .ok 0, []⟩
  else if variant.interruptible && signal then ⟨m, fPos, .error .intr, []⟩
  else
    match readLoop count fPos faults m.buffer {} with
    | (v, some e) => ⟨m, fPos, .error e, v.userBuf⟩
    | (v, none) =>
      ⟨{ m with readCount := m.readCount + 1 }, fPos + v.realLength, .ok v.copied, v.userBuf⟩

/-! ### Writing -/

/-- `strncmp` -/
def strncmp : List UInt8 → List UInt8 → ℕ → ℤ
  | a :: s, b :: t, n + 1 =>
    if a ≠ b then (a.toNat : ℤ) - b.toNat else if a = 0 then 0 else strncmp s t n
  | _, _, _ => 0

/-- `"xxx&"` -/
def clearCommand : List UInt8 := [120, 120, 120, 38]

/-- The entry for the bytes of the user from `i` on: `kzalloc` and `copy_from_user`. -/
def newData (userBuf : List UInt8) (i : ℕ) (h : i < userBuf.length) : Data where
  length := min internalSize (userBuf.length - i)
  contents := (userBuf.drop i).take (min internalSize (userBuf.length - i)) ++
    List.replicate (internalSize - min internalSize (userBuf.length - i)) 0
  length_pos := by simp only [internalSize]; omega
  length_le := Nat.min_le_left _ _
  contents_length := by
    rw [List.length_append, List.length_take, List.length_drop, List.length_replicate]
    omega

/-- What the environment does to one pass of the loop of `linked_write`. -/
inductive Outcome where
  | ok
  /-- `kzalloc` fails -/
  | noMem
  /-- `copy_from_user` fails -/
  | fault
  /-- a signal ends the lock wait -/
  | signal
  deriving DecidableEq

/-- The values of `i` in the loop of `linked_write`. -/
def offsets (count : ℕ) : List ℕ := List.range' 0 ((count + 3) / internalSize) internalSize

/-- What a call of `linked_write` leaves behind. -/
structure WriteResult where
  module : Module
  fPos : ℕ
  ret : Except Errno ℕ

/-- The loop of `linked_write`, from the offsets that are left. -/
def writeLoop (variant : Variant) (env : ℕ → Outcome) (userBuf : List UInt8) :
    List ℕ → Module → ℕ → WriteResult
  | [], m, fPos => ⟨{ m with writeCount := m.writeCount + 1 }, fPos, .ok userBuf.length⟩
  | i :: is, m, fPos =>
    if h : i < userBuf.length then
      let data := newData userBuf i h
      match env i with
      | .noMem => ⟨m, fPos, .error .noMem⟩
      | .fault => ⟨m, fPos, .error .fault⟩
      | o =>
        if strncmp data.contents clearCommand 4 = 0 then ⟨cleanList m, fPos, .ok userBuf.length⟩
        else if variant.interruptible ∧ o = .signal then ⟨m, fPos, .error .intr⟩
        else
          writeLoop variant env userBuf is
            { m with buffer := m.buffer ++ [data], totalLength := m.totalLength + data.length }
            (fPos + data.length)
    else ⟨{ m with writeCount := m.writeCount + 1 }, fPos, .ok userBuf.length⟩

/-- `linked_write` -/
def linkedWrite (variant : Variant) (env : ℕ → Outcome) (m : Module) (userBuf : List UInt8)
    (fPos : ℕ) : WriteResult :=
  writeLoop variant env userBuf (offsets userBuf.length) m fPos

/-! ### Chunks -/

/-- Chunk `k` of the data of a call. -/
def chunk (userBuf : List UInt8) (k : ℕ) : List UInt8 :=
  (userBuf.drop (internalSize * k)).take internalSize

theorem newData_bytes {userBuf : List UInt8} {i : ℕ} (h : i < userBuf.length) :
    (newData userBuf i h).bytes = (userBuf.drop i).take internalSize := by
  simp only [Data.bytes, newData]
  rw [List.take_append_of_le_length (by simp)]
  rw [List.take_take, Nat.min_self, ← List.length_drop, List.take_eq_take_iff]
  omega

/-- The chunks of a call, one after the other. -/
theorem flatten_chunks (userBuf : List UInt8) (k : ℕ) :
    ((List.range k).map (chunk userBuf)).flatten = userBuf.take (internalSize * k) := by
  induction k with
  | zero => simp
  | succ k ih =>
      rw [List.range_succ, List.map_append, List.flatten_append, ih, Nat.mul_succ, List.take_add]
      simp [chunk]

theorem strncmp_eq_zero_iff {s t : List UInt8} {n : ℕ} (hs : n ≤ s.length) (ht : n ≤ t.length)
    (h0 : 0 ∉ t.take n) : strncmp s t n = 0 ↔ s.take n = t.take n := by
  induction n generalizing s t with
  | zero => simp [strncmp]
  | succ n ih =>
      cases s with
      | nil => simp at hs
      | cons a s =>
          cases t with
          | nil => simp at ht
          | cons b t =>
              simp only [List.take_succ_cons, List.mem_cons, not_or, List.cons.injEq] at h0 ⊢
              simp only [List.length_cons, Nat.add_le_add_iff_right] at hs ht
              by_cases hab : a = b
              · subst hab
                rw [strncmp, if_neg (not_not.2 rfl), if_neg (Ne.symm h0.1), ih hs ht h0.2]
                simp
              · rw [strncmp, if_pos hab]
                refine iff_of_false (fun h => hab (UInt8.toNat_inj.1 ?_)) fun h => hab h.1
                omega

/-- Only the chunk `xxx&` compares equal to the command. -/
theorem strncmp_newData {userBuf : List UInt8} {i : ℕ} (h : i < userBuf.length) :
    strncmp (newData userBuf i h).contents clearCommand 4 = 0 ↔
      (userBuf.drop i).take internalSize = clearCommand := by
  have hlen : (newData userBuf i h).contents.length = 4 := (newData userBuf i h).contents_length
  rw [strncmp_eq_zero_iff hlen.ge (by decide) (by decide), List.take_of_length_le hlen.le,
    List.take_of_length_le (by decide), ← newData_bytes h]
  constructor
  · intro hc
    have hfull : (newData userBuf i h).length = internalSize := by
      by_contra hne
      have hlt : userBuf.length - i < internalSize := by
        have : (newData userBuf i h).length = min internalSize (userBuf.length - i) := rfl
        omega
      have hzero : (0 : UInt8) ∈ (newData userBuf i h).contents := by
        refine List.mem_append_right _ (List.mem_replicate.2 ⟨?_, rfl⟩)
        omega
      rw [hc] at hzero
      revert hzero
      decide
    rw [Data.bytes, hc, hfull]
    rfl
  · intro hc
    have hfull : (newData userBuf i h).length = internalSize := by
      rw [← Data.length_bytes, hc]
      rfl
    rw [Data.bytes, hfull, List.take_of_length_le (show _ ≤ internalSize from hlen.le)] at hc
    exact hc

end LinkedBuffer
