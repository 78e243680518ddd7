import SystemsProgramming.Classes5.SimpleSync.Calls
import SystemsProgramming.Library.SpinLock

/-!
# The spin lock variant of simple_sync

`simple_read` with `spin_lock_irqsave(&my_lock, flags)` and `spin_unlock_irqrestore(&my_lock,
flags)`, where `flags` is a global.  Each CPU makes one call after the other, and the steps of the
two statements are apart.  Such runs are runs of the calls with a mutex that make the same steps:
acquiring the lock, `kmalloc`, each character, releasing the lock and `copy_to_user`
(`run_of_spinLock`).
-/

namespace SimpleSync.Spinlock

open Memory Transition

/-- Outside of the section, in call number `call` of the CPU. -/
inductive Place where
  /-- about to call `spin_lock_irqsave` -/
  | ready (call : ℕ)
  /-- about to call `copy_to_user` -/
  | copying (call : ℕ) (localBuf : List UInt8)
  | done (call : ℕ) (ret : Except Errno ℕ) (userBuf : List UInt8)

/-- In the section of `simple_read`. -/
inductive Section where
  /-- about to calculate the length and to call `kmalloc` -/
  | locked (call : ℕ)
  /-- about to unlock after `kmalloc` has failed -/
  | failing (call : ℕ)
  /-- in the loop, with the characters in `local_buf` -/
  | filling (call : ℕ) (lengthToCopy : ℤ) (localBuf : List UInt8)
  /-- it has read `msg_str` out of its bounds -/
  | crashed (call : ℕ)

inductive Stmt where
  | kmalloc
  | kmallocFails
  /-- a pass of the loop -/
  | fill
  /-- `copy_to_user`, which cannot copy the last `uncopied` bytes -/
  | copy (uncopied : ℕ)
  /-- the next call -/
  | call

/-- The code of a CPU that makes calls of `simple_read` with the counts `count`, on `msg_pos`. -/
def code (count : ℕ → ℕ) : SpinLock.Code ℤ Place Section Stmt where
  outer msgPos
    | .copying call localBuf, .copy uncopied =>
      -- the result is not negative, so the call returns the length whatever was copied
      if uncopied ≤ localBuf.length then
        some (msgPos, .done call (.ok localBuf.length)
          (localBuf.take (localBuf.length - uncopied)))
      else none
    | .done call _ _, .call => some (msgPos, .ready (call + 1))
    | _, _ => none
  inner msgPos
    | .locked call, .kmalloc =>
      some (msgPos, .filling call (lengthToCopy msgPos (count call)) [])
    | .locked call, .kmallocFails => some (msgPos, .failing call)
    | .filling call length localBuf, .fill =>
      if localBuf.length < length then
        match load msgStr (msgPos.tmod msgLen) with
        | .ok b => some ((msgPos + 1).bmod intCard, .filling call length (localBuf ++ [b]))
        | .error _ => some (msgPos, .crashed call)
      else none
    | _, _ => none
  lock
    | .ready call => some (.locked call)
    | _ => none
  unlock
    | .failing call => some (.done call (.error .noMem) [])
    | .filling call length localBuf =>
      if localBuf.length < length then none else some (.copying call localBuf)
    | _ => none

/-! ### The calls with a mutex -/

/-- The number of the call. -/
def Place.call : Place → ℕ
  | .ready n | .copying n _ | .done n _ _ => n

/-- Where the call is. -/
def Place.ctrl : Place → Ctrl
  | .ready _ => .ready
  | .copying _ localBuf => .copying localBuf
  | .done _ ret userBuf => .done ret userBuf

def Section.call : Section → ℕ
  | .locked n | .failing n | .filling n _ _ | .crashed n => n

def Section.ctrl : Section → Ctrl
  | .locked _ => .locked
  | .failing _ => .failing
  | .filling _ length localBuf => .filling length localBuf
  | .crashed _ => .crashed

section Calls

variable {F : Type}

/-- The globals of the calls with a mutex. -/
def mutexGlobals (g : SpinLock.Shared F ℤ) : Globals := ⟨if g.locked then 0 else 1, g.data⟩

/-- A CPU is in call `n`, which is at a place of the calls with a mutex. -/
inductive Follows (count : ℕ → ℕ) : SpinLock.Ctrl F Place Section → ℕ → Ctrl → Prop
  | outside (p : Place) : Follows count (.outside p) p.call p.ctrl
  | saved (n : ℕ) (old : F) : Follows count (.saved (.locked n) old) n .ready
  | acquired (n : ℕ) (old : F) : Follows count (.acquired (.locked n) old) n .locked
  | inside (i : Section) : Follows count (.inside i) i.call i.ctrl
  | loaded {i : Section} {p : Place} (old : F) : (code count).unlock i = some p →
      Follows count (.loaded p old) i.call i.ctrl
  | released (p : Place) (old : F) : Follows count (.released p old) p.call p.ctrl

/-- The step of the call; `call` is none. -/
def Stmt.action : Stmt → Option SimpleSync.Action
  | .kmalloc => some .kmalloc
  | .kmallocFails => some .kmallocFails
  | .fill => some .fill
  | .copy uncopied => some (.copy uncopied)
  | .call => none

/-- The step that a CPU makes of the call it is in, with the number of the call. -/
def callEvent {C : Type} (c : C) : SpinLock.Ctrl F Place Section → SpinLock.Action F Stmt →
    Option (Event (C × ℕ))
  | .outside p, .stmt a => a.action.map fun a => ⟨(c, p.call), a⟩
  | .inside i, .stmt a => a.action.map fun a => ⟨(c, i.call), a⟩
  | .saved i _, .acquire => some ⟨(c, i.call), .lock⟩
  | .loaded p _, .release => some ⟨(c, p.call), .unlock⟩
  | _, _ => none

/-- The steps of the calls, in the order of the run. -/
def callEvents {C : Type}
    (tr : List (SpinLock.State C F ℤ Place Section × SpinLock.Event C F Stmt)) : List (Event (C × ℕ)) :=
  tr.filterMap fun p => callEvent p.2.cpu (p.1.ctrl p.2.cpu) p.2.action

/-- A statement outside of the section is one of the call with a mutex, or the next call. -/
theorem outer_event {count : ℕ → ℕ} {g : SpinLock.Shared F ℤ} {msgPos : ℤ} {p p' : Place}
    {a : Stmt} (h : (code count).outer g.data p a = some (msgPos, p')) :
    msgPos = g.data ∧ (a.action = none ∧ p'.call = p.call + 1 ∧ p'.ctrl = .ready ∨
      ∃ b, a.action = some b ∧ p'.call = p.call ∧
        callStep .mutex (count p.call) (mutexGlobals g) p.ctrl b =
          some (mutexGlobals g, p'.ctrl)) := by
  dsimp only [code] at h
  split at h
  · split at h <;> cases h
    rename_i uncopied hle
    refine ⟨rfl, Or.inr ⟨.copy uncopied, rfl, rfl, ?_⟩⟩
    rw [Place.ctrl, callStep, if_pos hle]
    rfl
  · cases h
    exact ⟨rfl, Or.inl ⟨rfl, rfl, rfl⟩⟩
  · cases h

/-- A statement in the section is one of the call with a mutex. -/
theorem inner_event {count : ℕ → ℕ} {g : SpinLock.Shared F ℤ} {msgPos : ℤ} {i i' : Section}
    {a : Stmt} (h : (code count).inner g.data i a = some (msgPos, i')) :
    i'.call = i.call ∧ ∃ b, a.action = some b ∧
      callStep .mutex (count i.call) (mutexGlobals g) i.ctrl b =
        some (mutexGlobals { g with data := msgPos }, i'.ctrl) := by
  dsimp only [code] at h
  split at h
  · cases h
    exact ⟨rfl, .kmalloc, rfl, rfl⟩
  · cases h
    exact ⟨rfl, .kmallocFails, rfl, rfl⟩
  · split at h
    · rename_i hlt
      split at h <;> cases h
      all_goals
        rename_i hb
        refine ⟨rfl, .fill, rfl, ?_⟩
        rw [Section.ctrl, callStep, if_pos hlt]
        dsimp only [mutexGlobals]
        rw [hb]
        rfl
    · cases h
  · cases h

/-- The release is the unlock of the call with a mutex. -/
theorem release_follows {count : ℕ → ℕ} {g : SpinLock.Shared F ℤ} {i : Section} {p : Place}
    (h : (code count).unlock i = some p) :
    p.call = i.call ∧ callStep .mutex (count i.call) (mutexGlobals g) i.ctrl .unlock =
      some (mutexGlobals { g with locked := false }, p.ctrl) := by
  dsimp only [code] at h
  split at h
  · cases h
    exact ⟨rfl, rfl⟩
  · split at h <;> cases h
    refine ⟨rfl, ?_⟩
    rw [Section.ctrl, callStep, if_neg ‹_›]
    rfl
  · cases h

/-- A step of the CPU is the step of its call that `callEvent` names, or none and at most the next
call begins. -/
theorem Follows.event {C : Type} {c : C} {disable : F → F} {count : ℕ → ℕ}
    {g g' : SpinLock.Shared F ℤ} {irq irq' : F}
    {l l' : SpinLock.Ctrl F Place Section} {a : SpinLock.Action F Stmt} {n : ℕ} {k : Ctrl}
    (h : SpinLock.Moves disable (code count) g irq l a g' irq' l') (hl : Follows count l n k) :
    (callEvent c l a = none ∧ mutexGlobals g' = mutexGlobals g ∧
      (Follows count l' n k ∨ Follows count l' (n + 1) .ready)) ∨
    ∃ b k', callEvent c l a = some ⟨(c, n), b⟩ ∧ Follows count l' n k' ∧
      callStep .mutex (count n) (mutexGlobals g) k b = some (mutexGlobals g', k') := by
  cases h with
  | @outer p p' a msgPos h =>
      cases hl
      obtain ⟨rfl, ⟨ha, hcall, hctrl⟩ | ⟨b, ha, hcall, hstep⟩⟩ := outer_event h
      · refine Or.inl ⟨by rw [callEvent, ha]; rfl, rfl, Or.inr ?_⟩
        rw [← hcall, ← hctrl]
        exact .outside p'
      · refine Or.inr ⟨b, p'.ctrl, by rw [callEvent, ha]; rfl, ?_, hstep⟩
        rw [← hcall]
        exact .outside p'
  | @inner i i' a msgPos h =>
      cases hl
      obtain ⟨hcall, b, ha, hstep⟩ := inner_event h
      refine Or.inr ⟨b, i'.ctrl, by rw [callEvent, ha]; rfl, ?_, hstep⟩
      rw [← hcall]
      exact .inside i'
  | interruptsOutside | interruptsInside =>
      cases hl
      exact Or.inl ⟨rfl, rfl, Or.inl (by constructor)⟩
  | @save p i h =>
      cases hl
      dsimp only [code] at h
      split at h <;> cases h
      exact Or.inl ⟨rfl, rfl, Or.inl (.saved _ _)⟩
  | acquire hfree =>
      cases hl
      refine Or.inr ⟨.lock, .locked, rfl, .acquired _ _, ?_⟩
      unfold mutexGlobals
      rw [hfree]
      rfl
  | store =>
      cases hl
      exact Or.inl ⟨rfl, rfl, Or.inl (.inside (.locked _))⟩
  | @load i p h =>
      cases hl
      exact Or.inl ⟨rfl, rfl, Or.inl (.loaded _ h)⟩
  | @release p old =>
      cases hl with
      | loaded _ h =>
          obtain ⟨hcall, hstep⟩ := release_follows h
          refine Or.inr ⟨.unlock, p.ctrl, by rw [← hcall]; rfl, ?_, hstep⟩
          rw [← hcall]
          exact .released p old
  | @restore p old =>
      cases hl
      exact Or.inl ⟨rfl, rfl, Or.inl (.outside p)⟩

end Calls

/-- A run of the CPUs is the run of their calls with a mutex that makes the same steps. -/
theorem run_of_spinLock {C F : Type} [DecidableEq C] {disable : F → F} {count : C → ℕ → ℕ}
    {flags : F} {irq : C → F}
    {tr : List (SpinLock.State C F ℤ Place Section × SpinLock.Event C F Stmt)}
    {s : SpinLock.State C F ℤ Place Section}
    (h : Run (SpinLock.Step disable fun c => code (count c))
      (SpinLock.init flags 0 irq fun _ => .ready 0) tr s) :
    ∃ tr' calls, Run (Step .mutex fun p => count p.1 p.2) ({} : State (C × ℕ)) tr'
        ⟨mutexGlobals s.shared, calls⟩ ∧
      SpinLock.Tracks .ready (fun c => Follows (count c)) s.ctrl calls ∧
      tr'.map Prod.snd = callEvents tr := by
  refine SpinLock.run_calls_events State.mk mutexGlobals callEvent ?_ ?_ h
  · intro c g g' irq irq' l l' a n k hm hl
    rcases Follows.event hm hl with hstay | ⟨b, k', he, hl', hstep⟩
    · exact Or.inl hstay
    · refine Or.inr ⟨_, k', he, hl', fun calls hk => ?_⟩
      unfold Step exec
      dsimp only
      rw [hk, hstep]
      rfl
  · exact fun _ => .outside (.ready 0)

end SimpleSync.Spinlock
