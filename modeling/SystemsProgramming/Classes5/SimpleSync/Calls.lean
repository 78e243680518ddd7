import SystemsProgramming.Library.Memory
import SystemsProgramming.Library.Run
import Mathlib.Logic.Function.Basic

/-!
# The calls of the simple_sync module

`simple_read` delivers a message piece by piece: under a lock it takes the characters from the
global `msg_pos` on, one after the other, and then it copies them to the user.  The mutex and the
semaphore variant differ in the lock only.  Calls run at the same time; whether a lock wait is
interrupted, whether `kmalloc` fails and how much `copy_to_user` leaves are inputs.
-/

namespace SimpleSync

open Memory Transition

/-! ### The message -/

/-- `msg_str`, with its terminator -/
def msgStr : List UInt8 :=
  [45, 48, 49, 50, 51, 52, 53, 54, 55, 56, 57, 45, 65, 66, 67, 68, 69, 70, 71, 72, 73, 74, 45, 0]

/-- `msg_len` -/
def msgLen : ℕ := msgStr.length

/-- The first `n` characters of the message repeated for ever. -/
def message (n : ℕ) : List UInt8 := (List.range n).map fun i => msgStr.getD (i % msgLen) 0

theorem message_succ (n : ℕ) : message (n + 1) = message n ++ [msgStr.getD (n % msgLen) 0] := by
  unfold message
  rw [List.range_succ, List.map_append, List.map_singleton]

@[simp] theorem length_message (n : ℕ) : (message n).length = n := by
  unfold message
  rw [List.length_map, List.length_range]

/-! ### States -/

/-- The variants of the module. -/
inductive Variant where
  | mutex
  | semaphore
  deriving DecidableEq

/-- The error codes. -/
inductive Errno where
  | intr
  | noMem
  deriving DecidableEq

/-- The globals: a mutex is `1` when it is free, like the semaphore. -/
structure Globals where
  lock : ℕ := 1
  msgPos : ℤ := 0

/-- Where a call is. -/
inductive Ctrl where
  /-- waiting for the lock -/
  | ready
  /-- about to calculate the length and to call `kmalloc` -/
  | locked
  /-- about to unlock after `kmalloc` has failed -/
  | failing
  /-- in the loop, with the characters in `local_buf` -/
  | filling (lengthToCopy : ℤ) (localBuf : List UInt8)
  /-- it has read `msg_str` out of its bounds -/
  | crashed
  /-- about to call `copy_to_user` -/
  | copying (localBuf : List UInt8)
  /-- it has returned, with the characters in the buffer of the user -/
  | done (ret : Except Errno ℕ) (userBuf : List UInt8)

/-- The call is between acquire and release. -/
def Ctrl.Holds : Ctrl → Prop
  | .locked | .failing | .filling _ _ | .crashed => True
  | _ => False

/-- The call has had the lock. -/
def Ctrl.Entered : Ctrl → Prop
  | .ready | .done (.error .intr) _ => False
  | _ => True

/-- The characters that the call has taken. -/
def Ctrl.taken : Ctrl → List UInt8
  | .filling _ localBuf => localBuf
  | .copying localBuf => localBuf
  | .done (.ok _) userBuf => userBuf
  | _ => []

/-- What a call can do next. -/
inductive Action where
  | lock
  /-- a signal ends the lock wait -/
  | interrupt
  | kmalloc
  | kmallocFails
  /-- a pass of the loop -/
  | fill
  | unlock
  /-- `copy_to_user`, which cannot copy the last `uncopied` bytes -/
  | copy (uncopied : ℕ)
  deriving DecidableEq

/-- `mutex_unlock` or `up` -/
def release (variant : Variant) (g : Globals) : Globals :=
  match variant with
  | .mutex => { g with lock := 1 }
  | .semaphore => { g with lock := g.lock + 1 }

/-- `length_to_copy` -/
def lengthToCopy (msgPos : ℤ) (count : ℕ) : ℤ := min (msgLen - msgPos.tmod msgLen) count

/-- One step of a call of `simple_read`. -/
def callStep (variant : Variant) (count : ℕ) (g : Globals) : Ctrl → Action → Option (Globals × Ctrl)
  | .ready, .lock => if 0 < g.lock then some ({ g with lock := g.lock - 1 }, .locked) else none
  | .ready, .interrupt => some (g, .done (.error .intr) [])
  | .locked, .kmalloc => some (g, .filling (lengthToCopy g.msgPos count) [])
  | .locked, .kmallocFails => some (g, .failing)
  | .failing, .unlock => some (release variant g, .done (.error .noMem) [])
  | .filling length localBuf, .fill =>
    if localBuf.length < length then
      match load msgStr (g.msgPos.tmod msgLen) with
      | .ok b =>
        some ({ g with msgPos := (g.msgPos + 1).bmod intCard }, .filling length (localBuf ++ [b]))
      | .error _ => some (g, .crashed)
    else none
  | .filling length localBuf, .unlock =>
    if localBuf.length < length then none else some (release variant g, .copying localBuf)
  | .copying localBuf, .copy uncopied =>
    -- the result is not negative, so the call returns the length whatever was copied
    if uncopied ≤ localBuf.length then
      some (g, .done (.ok localBuf.length) (localBuf.take (localBuf.length - uncopied)))
    else none
  | _, _ => none

/-- The globals and the calls. -/
structure State (C : Type) where
  globals : Globals := {}
  ctrl : C → Ctrl := fun _ => .ready

/-- A step of call `c`. -/
structure Event (C : Type) where
  call : C
  action : Action
  deriving DecidableEq

section System

variable {C : Type} [DecidableEq C] (variant : Variant) (count : C → ℕ)

/-- One step of the system. -/
def exec (s : State C) (e : Event C) : Option (State C) :=
  (callStep variant (count e.call) s.globals (s.ctrl e.call) e.action).map fun r =>
    ⟨r.1, Function.update s.ctrl e.call r.2⟩

/-- `exec` as a relation. -/
def Step (s : State C) (e : Event C) (t : State C) : Prop := exec variant count s e = some t

end System

/-! ### The steps, one by one -/

/-- The steps of `callStep`, one constructor for each kind. -/
inductive Moves (variant : Variant) (count : ℕ) (g : Globals) :
    Ctrl → Action → Globals → Ctrl → Prop
  | lock : 0 < g.lock → Moves variant count g .ready .lock { g with lock := g.lock - 1 } .locked
  | interrupt : Moves variant count g .ready .interrupt g (.done (.error .intr) [])
  | kmalloc : Moves variant count g .locked .kmalloc g (.filling (lengthToCopy g.msgPos count) [])
  | kmallocFails : Moves variant count g .locked .kmallocFails g .failing
  | unlockFailed :
      Moves variant count g .failing .unlock (release variant g) (.done (.error .noMem) [])
  | fill {n buf b} : (buf.length : ℤ) < n → load msgStr (g.msgPos.tmod msgLen) = .ok b →
      Moves variant count g (.filling n buf) .fill
        { g with msgPos := (g.msgPos + 1).bmod intCard } (.filling n (buf ++ [b]))
  | crash {n buf e} : (buf.length : ℤ) < n → load msgStr (g.msgPos.tmod msgLen) = .error e →
      Moves variant count g (.filling n buf) .fill g .crashed
  | unlock {n buf} : n ≤ (buf.length : ℤ) →
      Moves variant count g (.filling n buf) .unlock (release variant g) (.copying buf)
  | copy {buf r} : r ≤ buf.length →
      Moves variant count g (.copying buf) (.copy r) g
        (.done (.ok buf.length) (buf.take (buf.length - r)))

theorem moves_of_callStep {variant : Variant} {count : ℕ} {g g' : Globals} {k k' : Ctrl}
    {a : Action} (h : callStep variant count g k a = some (g', k')) :
    Moves variant count g k a g' k' := by
  unfold callStep at h
  split at h
  · split at h <;> cases h
    exact .lock ‹_›
  · cases h
    exact .interrupt
  · cases h
    exact .kmalloc
  · cases h
    exact .kmallocFails
  · cases h
    exact .unlockFailed
  · split at h
    · split at h <;> cases h
      · exact .fill ‹_› ‹_›
      · exact .crash ‹_› ‹_›
    · cases h
  · split at h <;> cases h
    exact .unlock (Int.not_lt.1 ‹_›)
  · split at h <;> cases h
    exact .copy ‹_›
  · cases h

theorem Step.moves {C : Type} [DecidableEq C] {variant : Variant} {count : C → ℕ}
    {s t : State C} {e : Event C} (h : Step variant count s e t) :
    ∃ g k, Moves variant (count e.call) s.globals (s.ctrl e.call) e.action g k ∧
      t = ⟨g, Function.update s.ctrl e.call k⟩ := by
  unfold Step exec at h
  rw [Option.map_eq_some_iff] at h
  obtain ⟨⟨g, k⟩, h, rfl⟩ := h
  exact ⟨g, k, moves_of_callStep h, rfl⟩

end SimpleSync
