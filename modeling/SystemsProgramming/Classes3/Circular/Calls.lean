import SystemsProgramming.Library.Memory
import Mathlib.Data.Int.Init

/-!
# The calls of the circular device

`circular.c` keeps the bytes written to `/dev/circular` in a block of `buff_size` cells: writes go
round all cells but the last one, reads deliver the string that starts at the first cell, and a
number written to `/proc/circular` moves the device to a block of that size.  The calls run one at
a time; allocations, their contents and the bytes of the user are inputs, and `kstrtol` is a
parameter.
-/

namespace Circular

open Memory

/-! ### The device -/

/-- The globals of the module, once `buffer` is allocated. -/
structure Device where
  buffSize : ℤ
  currPosition : ℤ
  buffer : List UInt8
  deriving DecidableEq

/-- `buff_size = 10` -/
def initialSize : ℕ := 10

/-- `ENOMEM` -/
def enomem : ℤ := 12

/-- `EFAULT` -/
def efault : ℤ := 14

/-- `circular_init`: whether `proc_create` succeeds, the result of `misc_register` and the block
are inputs. -/
def circularInit (procEntry : Bool) (registered : ℤ) (contents : Option (ℕ → UInt8)) :
    Except Fault (ℤ × Option Device) :=
  if ¬ procEntry then .ok (0, none)
  else
    match kmalloc initialSize contents with
    | none => .ok (-enomem, none)
    | some buffer => do
      let buffer ← fillCells 0 initialSize buffer
      return (registered, some { buffSize := initialSize, currPosition := 0, buffer })

/-! ### Writing -/

/-- The loop of `circular_write`; the flag says that a byte could not be read, for which
`copy_from_user` leaves a zero. -/
def writeLoop : List (Option UInt8) → Device → Except Fault (Device × Bool)
  | [], d => .ok (d, false)
  | none :: _, d => do
    let buffer ← store d.buffer d.currPosition 0
    return ({ d with buffer }, true)
  | some b :: userBuf, d => do
    let buffer ← store d.buffer d.currPosition b
    let currPosition ← remainder (d.currPosition + 1) (d.buffSize - 1)
    writeLoop userBuf { d with buffer, currPosition }

/-- `circular_write` of the `count` bytes `userBuf` -/
def circularWrite (userBuf : List (Option UInt8)) (d : Device) : Except Fault (Device × ℤ) := do
  let (d, fault) ← writeLoop userBuf d
  return (d, if fault then -efault else userBuf.length)

/-! ### Reading -/

/-- What a call of `circular_read` leaves behind. -/
structure ReadResult where
  ret : ℤ
  fPos : ℤ
  /-- the bytes it copied to the user -/
  delivered : List UInt8
  deriving DecidableEq

/-- `*f_pos` in the comparison with `to_copy`, which is unsigned -/
def unsignedPos (fPos : ℤ) : ℕ := (fPos % ulongCard).toNat

/-- `circular_read` after `strlen`; the kernel can write `writable` bytes from `user_buf` on. -/
def readString (fPos : ℤ) (writable : ℕ) (buffer : List UInt8) (toCopy : ℕ) : ReadResult :=
  if toCopy ≤ unsignedPos fPos then ⟨0, fPos, []⟩
  else if writable < toCopy then ⟨-efault, fPos, buffer.take writable⟩
  else ⟨toCopy, fPos + toCopy, buffer.take toCopy⟩

/-- `circular_read`, which ignores `count` -/
def circularRead (_count : ℕ) (fPos : ℤ) (writable : ℕ) (d : Device) : Except Fault ReadResult := do
  let toCopy ← strlen d.buffer
  return readString fPos writable d.buffer toCopy

/-! ### Resizing -/

section Resizing

variable (kstrtol : List UInt8 → Option ℤ)

/-- `circular_proc_write` up to `kfree(temp_buf)`: the error code, or the number it read. -/
def readValue (tempBlock : Option (ℕ → UInt8)) (userBuf : List (Option UInt8)) : Except ℤ ℤ :=
  match kmalloc (userBuf.length + 1) tempBlock with
  | none => .error (-enomem)
  | some _ =>
    match copyFromUser userBuf with
    | none => .error (-efault)
    | some bytes =>
      -- the copy fills the block but for its last cell, which gets the NUL
      match kstrtol ((bytes ++ [0]).takeWhile (· ≠ 0)) with
      | none => .error (-efault)
      | some value => .ok value

/-- `circular_proc_write` from the second `kmalloc` on -/
def moveTo (value : ℤ) (newBuffer : List UInt8) (d : Device) : Except Fault Device := do
  let newBuffer ← copyCells d.buffer (min value d.buffSize).toNat newBuffer
  let buffSize := value.bmod intCard
  let currPosition ← remainder d.currPosition (buffSize - 1)
  let buffer ← store newBuffer (buffSize - 1) 0
  return { buffSize, currPosition, buffer }

/-- `circular_proc_write` of the `count` bytes `userBuf` -/
def circularProcWrite (tempBlock newBlock : Option (ℕ → UInt8)) (userBuf : List (Option UInt8))
    (d : Device) : Except Fault (Device × ℤ) :=
  match readValue kstrtol tempBlock userBuf with
  | .error e => .ok (d, e)
  | .ok value =>
    match kmalloc value newBlock with
    | none => .ok (d, -enomem)
    | some newBuffer => do
      let d ← moveTo value newBuffer d
      return (d, userBuf.length)

/-! ### Sequences of calls -/

/-- The calls, with what they find outside the device. -/
inductive Call where
  | write (userBuf : List (Option UInt8))
  | read (count : ℕ) (fPos : ℤ) (writable : ℕ)
  | procWrite (tempBlock newBlock : Option (ℕ → UInt8)) (userBuf : List (Option UInt8))

/-- What a call gives to the user. -/
structure Answer where
  ret : ℤ
  delivered : List UInt8 := []
  deriving DecidableEq

/-- One call. -/
def exec (c : Call) (d : Device) : Except Fault (Device × Answer) :=
  match c with
  | .write userBuf => do
    let (d, ret) ← circularWrite userBuf d
    return (d, { ret })
  | .read count fPos writable => do
    let result ← circularRead count fPos writable d
    return (d, { ret := result.ret, delivered := result.delivered })
  | .procWrite tempBlock newBlock userBuf => do
    let (d, ret) ← circularProcWrite kstrtol tempBlock newBlock userBuf d
    return (d, { ret })

/-- The calls one after the other. -/
def run : List Call → Device → Except Fault Device
  | [], d => .ok d
  | c :: cs, d => do
    let (d, _) ← exec kstrtol c d
    run cs d

end Resizing

/-! ### A parser -/

def isDigit (b : UInt8) : Bool := 48 ≤ b ∧ b ≤ 57

/-- The value of a string of decimal digits. -/
def digitsValue (s : List UInt8) : Option ℕ :=
  if s ≠ [] ∧ s.all isDigit then
    some (s.foldl (fun n b => 10 * n + (b.toNat - 48)) 0)
  else none

/-- `kstrtol` with base 10: a sign, digits and one newline, within the range of `long`. -/
def decimalLong (s : List UInt8) : Option ℤ :=
  let digits := if s.getLast? = some 10 then s.dropLast else s
  let value :=
    match digits with
    | 45 :: digits => (digitsValue digits).map fun n => -(n : ℤ)
    | 43 :: digits => (digitsValue digits).map Int.ofNat
    | digits => (digitsValue digits).map Int.ofNat
  value.filter fun v => -(longMax + 1) ≤ v ∧ v ≤ longMax

example : decimalLong [45, 50, 48, 10] = some (-20) := by decide

end Circular
