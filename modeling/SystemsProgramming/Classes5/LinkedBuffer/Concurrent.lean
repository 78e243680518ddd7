import SystemsProgramming.Classes5.LinkedBuffer.Calls
import SystemsProgramming.Library.Run
import Mathlib.Logic.Function.Basic
import Mathlib.Logic.Relation

/-!
# Concurrent calls of the linked buffer module

Calls of `linked_read` and `linked_write` in progress at the same time.  A step of a call is its
locked section, `clean_list`, one unlocked statement on a shared counter, or local work between
these; the variants differ in the locks only, so the steps are the same except that a signal ends a
lock wait of the mutex variant.  Run alone, the steps of a call are the call (`alone_linkedWrite`,
`alone_linkedRead`).
-/

namespace LinkedBuffer

open Transition

/-- A system call. -/
inductive Request where
  | read (count fPos : ℕ)
  | write (userBuf : List UInt8) (fPos : ℕ)

/-- The `return` that a call has reached. -/
inductive Return where
  /-- `return 0` before the lock -/
  | early
  /-- `return copied` -/
  | read (v : ReadVars)
  /-- `return count` -/
  | wrote (fPos : ℕ)
  /-- `result = count` after `clean_list` -/
  | cleared (fPos : ℕ)
  /-- an error -/
  | failed (e : Errno) (fPos : ℕ)

/-- Where a call is. -/
inductive Ctrl where
  | ready
  /-- at the test of the `for` loop of `linked_write` -/
  | loop (i fPos : ℕ)
  /-- about to insert an entry -/
  | locking (i fPos : ℕ) (data : Data)
  /-- about to add its length to `total_length` -/
  | adding (i fPos : ℕ) (data : Data)
  /-- about to call `clean_list` -/
  | clearing (fPos : ℕ)
  /-- about to increment `write_count` -/
  | countingWrite (fPos : ℕ)
  /-- at the test of `total_length` in `linked_read` -/
  | checking
  /-- about to read the list -/
  | reading
  /-- about to increment `read_count` -/
  | countingRead (v : ReadVars)
  | returning (r : Return)
  | done (r : Return)

/-- What the environment does in a step. -/
structure Input where
  outcome : Outcome := .ok
  faults : ReadVars → Bool := fun _ => false

/-- A signal ends the lock wait of the step. -/
def Input.Signals (variant : Variant) (input : Input) : Prop :=
  variant.interruptible = true ∧ input.outcome = .signal

instance (variant : Variant) (input : Input) : Decidable (input.Signals variant) :=
  inferInstanceAs (Decidable (_ ∧ _))

theorem Input.not_signals {variant : Variant} {input : Input} (h : input.outcome = .ok) :
    ¬ input.Signals variant := by
  rintro ⟨-, hs⟩
  rw [h] at hs
  cases hs

/-- One step of a call. -/
def callStep (variant : Variant) (input : Input) (m : Module) :
    Request → Ctrl → Option (Module × Ctrl)
  | .write _ fPos, .ready => some (m, .loop 0 fPos)
  | .write userBuf _, .loop i fPos =>
    if h : i < userBuf.length then
      match input.outcome with
      | .noMem => some (m, .returning (.failed .noMem fPos))
      | .fault => some (m, .returning (.failed .fault fPos))
      | _ =>
        if strncmp (newData userBuf i h).contents clearCommand 4 = 0 then some (m, .clearing fPos)
        else some (m, .locking i fPos (newData userBuf i h))
    else some (m, .countingWrite fPos)
  | .write _ _, .locking i fPos data =>
    if input.Signals variant then some (m, .returning (.failed .intr fPos))
    else some ({ m with buffer := m.buffer ++ [data] }, .adding i fPos data)
  | .write _ _, .adding i fPos data =>
    some ({ m with totalLength := m.totalLength + data.length },
      .loop (i + internalSize) (fPos + data.length))
  | .write _ _, .clearing fPos => some (cleanList m, .returning (.cleared fPos))
  | .write _ _, .countingWrite fPos =>
    some ({ m with writeCount := m.writeCount + 1 }, .returning (.wrote fPos))
  | .read _ _, .ready => some (m, .checking)
  | .read _ fPos, .checking =>
    if m.totalLength < fPos then some (m, .returning .early) else some (m, .reading)
  | .read count fPos, .reading =>
    if input.Signals variant then some (m, .returning (.failed .intr fPos))
    else
      match readLoop count fPos input.faults m.buffer {} with
      | (_, some e) => some (m, .returning (.failed e fPos))
      | (v, none) => some (m, .countingRead v)
  | .read _ _, .countingRead v =>
    some ({ m with readCount := m.readCount + 1 }, .returning (.read v))
  | _, .returning r => some (m, .done r)
  | _, _ => none

/-- The module and the calls in progress. -/
structure State (C : Type) where
  module : Module
  ctrl : C → Ctrl

/-- A step of call `c`. -/
structure Event (C : Type) where
  call : C
  input : Input := {}

section System

variable {C : Type} [DecidableEq C] (variant : Variant) (req : C → Request)

/-- The empty module, no call begun. -/
def init (C : Type) : State C := ⟨{}, fun _ => .ready⟩

/-- One step of the system. -/
def exec (s : State C) (e : Event C) : Option (State C) :=
  (callStep variant e.input s.module (req e.call) (s.ctrl e.call)).map fun r =>
    ⟨r.1, Function.update s.ctrl e.call r.2⟩

/-- `exec` as a relation. -/
def Step (s : State C) (e : Event C) (s' : State C) : Prop := exec variant req s e = some s'

end System

/-! ### The steps of a call, one by one -/

/-- The steps of `callStep`, one constructor for each kind. -/
inductive Moves (variant : Variant) (input : Input) (m : Module) :
    Request → Ctrl → Module → Ctrl → Prop
  | beginWrite {u f} : Moves variant input m (.write u f) .ready m (.loop 0 f)
  | allocFails {u f₀ i f} : i < u.length → input.outcome = .noMem →
      Moves variant input m (.write u f₀) (.loop i f) m (.returning (.failed .noMem f))
  | copyFails {u f₀ i f} : i < u.length → input.outcome = .fault →
      Moves variant input m (.write u f₀) (.loop i f) m (.returning (.failed .fault f))
  | findClear {u f₀ i f} (h : i < u.length) : strncmp (newData u i h).contents clearCommand 4 = 0 →
      Moves variant input m (.write u f₀) (.loop i f) m (.clearing f)
  | prepare {u f₀ i f} (h : i < u.length) : strncmp (newData u i h).contents clearCommand 4 ≠ 0 →
      Moves variant input m (.write u f₀) (.loop i f) m (.locking i f (newData u i h))
  | endLoop {u f₀ i f} : u.length ≤ i →
      Moves variant input m (.write u f₀) (.loop i f) m (.countingWrite f)
  | signalWrite {u f₀ i f d} : input.Signals variant →
      Moves variant input m (.write u f₀) (.locking i f d) m (.returning (.failed .intr f))
  | insert {u f₀ i f d} : ¬ input.Signals variant →
      Moves variant input m (.write u f₀) (.locking i f d) { m with buffer := m.buffer ++ [d] }
        (.adding i f d)
  | add {u f₀ i f d} : Moves variant input m (.write u f₀) (.adding i f d)
      { m with totalLength := m.totalLength + d.length } (.loop (i + internalSize) (f + d.length))
  | clean {u f₀ f} : Moves variant input m (.write u f₀) (.clearing f) (cleanList m)
      (.returning (.cleared f))
  | countWrite {u f₀ f} : Moves variant input m (.write u f₀) (.countingWrite f)
      { m with writeCount := m.writeCount + 1 } (.returning (.wrote f))
  | beginRead {n f} : Moves variant input m (.read n f) .ready m .checking
  | early {n f} : m.totalLength < f →
      Moves variant input m (.read n f) .checking m (.returning .early)
  | enter {n f} : f ≤ m.totalLength → Moves variant input m (.read n f) .checking m .reading
  | signalRead {n f} : input.Signals variant →
      Moves variant input m (.read n f) .reading m (.returning (.failed .intr f))
  | readFails {n f v e} : readLoop n f input.faults m.buffer {} = (v, some e) →
      Moves variant input m (.read n f) .reading m (.returning (.failed e f))
  | read {n f v} : readLoop n f input.faults m.buffer {} = (v, none) →
      Moves variant input m (.read n f) .reading m (.countingRead v)
  | countRead {n f v} : Moves variant input m (.read n f) (.countingRead v)
      { m with readCount := m.readCount + 1 } (.returning (.read v))
  | ret {req r} : Moves variant input m req (.returning r) m (.done r)

theorem moves_of_callStep {variant : Variant} {input : Input} {m m' : Module} {req : Request}
    {k k' : Ctrl} (h : callStep variant input m req k = some (m', k')) :
    Moves variant input m req k m' k' := by
  cases req with
  | write u f₀ =>
      cases k with
      | ready => cases h; exact .beginWrite
      | loop i f =>
          by_cases hi : i < u.length
          · rw [callStep, dif_pos hi] at h
            by_cases hc : strncmp (newData u i hi).contents clearCommand 4 = 0
            · cases ho : input.outcome <;> simp only [ho, if_pos hc] at h <;> cases h
              · exact .findClear hi hc
              · exact .allocFails hi ho
              · exact .copyFails hi ho
              · exact .findClear hi hc
            · cases ho : input.outcome <;> simp only [ho, if_neg hc] at h <;> cases h
              · exact .prepare hi hc
              · exact .allocFails hi ho
              · exact .copyFails hi ho
              · exact .prepare hi hc
          · rw [callStep, dif_neg hi] at h
            cases h
            exact .endLoop (Nat.le_of_not_lt hi)
      | locking i f d =>
          rw [callStep] at h
          split at h <;> cases h
          · exact .signalWrite ‹_›
          · exact .insert ‹_›
      | adding i f d => cases h; exact .add
      | clearing f => cases h; exact .clean
      | countingWrite f => cases h; exact .countWrite
      | returning r => cases h; exact .ret
      | checking | reading | countingRead | done => cases h
  | read n f =>
      cases k with
      | ready => cases h; exact .beginRead
      | checking =>
          rw [callStep] at h
          split at h <;> cases h
          · exact .early ‹_›
          · exact .enter (Nat.le_of_not_lt ‹_›)
      | reading =>
          rw [callStep] at h
          split at h
          · cases h
            exact .signalRead ‹_›
          · split at h <;> cases h
            · exact .readFails ‹_›
            · exact .read ‹_›
      | countingRead v => cases h; exact .countRead
      | returning r => cases h; exact .ret
      | loop | locking | adding | clearing | countingWrite | done => cases h

theorem Step.moves {C : Type} [DecidableEq C] {variant : Variant} {req : C → Request}
    {s s' : State C} {e : Event C} (h : Step variant req s e s') :
    ∃ m k, Moves variant e.input s.module (req e.call) (s.ctrl e.call) m k ∧
      s' = ⟨m, Function.update s.ctrl e.call k⟩ := by
  rw [Step, exec, Option.map_eq_some_iff] at h
  obtain ⟨⟨m, k⟩, h, rfl⟩ := h
  exact ⟨m, k, moves_of_callStep h, rfl⟩

/-! ### A call alone -/

/-- The value a call returns, and `*f_pos` after it. -/
def Return.result (req : Request) : Return → Except Errno ℕ × ℕ :=
  match req with
  | .read _ fPos => fun
    | .early => (.ok 0, fPos)
    | .read v => (.ok v.copied, fPos + v.realLength)
    | .wrote fPos | .cleared fPos => (.ok 0, fPos)
    | .failed e fPos => (.error e, fPos)
  | .write userBuf fPos => fun
    | .early | .read _ => (.ok 0, fPos)
    | .wrote fPos | .cleared fPos => (.ok userBuf.length, fPos)
    | .failed e fPos => (.error e, fPos)

/-- Steps of one call, with no other call in between. -/
def Alone (variant : Variant) (req : Request) : Module × Ctrl → Module × Ctrl → Prop :=
  Relation.ReflTransGen fun p q => ∃ input, callStep variant input p.1 req p.2 = some q

variable {variant : Variant} {req : Request}

theorem Alone.head {m m' : Module} {k k' : Ctrl} {p : Module × Ctrl} (input : Input)
    (h : callStep variant input m req k = some (m', k')) (h' : Alone variant req (m', k') p) :
    Alone variant req (m, k) p :=
  Relation.ReflTransGen.head ⟨input, h⟩ h'

theorem alone_returning (m : Module) (r : Return) :
    Alone variant req (m, .returning r) (m, .done r) :=
  Relation.ReflTransGen.single ⟨{}, by cases req <;> rfl⟩

/-- Run alone, the steps of `linked_read` compute `linkedRead`. -/
theorem alone_linkedRead (signal : Bool) (faults : ReadVars → Bool) (m : Module) (count fPos : ℕ) :
    ∃ r, Alone variant (.read count fPos) (m, .ready)
        ((linkedRead variant signal faults m count fPos).module, .done r) ∧
      r.result (.read count fPos) = ((linkedRead variant signal faults m count fPos).ret,
        (linkedRead variant signal faults m count fPos).fPos) := by
  have hstart : ∀ {p}, Alone variant (.read count fPos) (m, .checking) p →
      Alone variant (.read count fPos) (m, .ready) p := fun h => h.head {} rfl
  unfold linkedRead
  by_cases hcheck : m.totalLength < fPos
  · rw [if_pos hcheck]
    exact ⟨.early, hstart (.head {} (by rw [callStep, if_pos hcheck]) (alone_returning _ _)), rfl⟩
  · have hread : ∀ {p}, Alone variant (.read count fPos) (m, .reading) p →
        Alone variant (.read count fPos) (m, .checking) p :=
      fun h => h.head {} (by rw [callStep, if_neg hcheck])
    rw [if_neg hcheck]
    by_cases hs : (variant.interruptible && signal) = true
    · rw [if_pos hs]
      refine ⟨.failed .intr fPos, hstart (hread (.head { outcome := .signal } ?_
        (alone_returning _ _))), rfl⟩
      have hs : variant.interruptible = true := (Bool.and_eq_true_iff.1 hs).1
      rw [callStep, if_pos ⟨hs, rfl⟩]
    · rw [if_neg hs]
      have hlocked : ∀ {k}, (match readLoop count fPos faults m.buffer {} with
          | (_, some e) => some (m, .returning (.failed e fPos))
          | (v, none) => some (m, .countingRead v)) = some (m, k) →
          callStep variant { faults := faults } m (.read count fPos) .reading = some (m, k) := by
        intro k hk
        rw [callStep, if_neg (Input.not_signals rfl)]
        exact hk
      rcases hloop : readLoop count fPos faults m.buffer {} with ⟨v, _ | e⟩
      · refine ⟨.read v, hstart (hread (.head { faults := faults } (hlocked (by rw [hloop])) ?_)), rfl⟩
        exact .head {} rfl (alone_returning _ _)
      · exact ⟨.failed e fPos, hstart (hread (.head { faults := faults } (hlocked (by rw [hloop]))
          (alone_returning _ _))), rfl⟩

/-- The steps of `linked_write` from the test of its loop. -/
theorem alone_writeLoop (env : ℕ → Outcome) {userBuf : List UInt8} (fPos₀ : ℕ) {n i : ℕ}
    (hn : userBuf.length ≤ i + internalSize * n) (m : Module) (fPos : ℕ) :
    let result := writeLoop variant env userBuf (List.range' i n internalSize) m fPos
    ∃ r, Alone variant (.write userBuf fPos₀) (m, .loop i fPos) (result.module, .done r) ∧
      r.result (.write userBuf fPos₀) = (result.ret, result.fPos) := by
  have hend : ∀ {i m fPos}, ¬ i < userBuf.length → Alone variant (.write userBuf fPos₀)
      (m, .loop i fPos) ({ m with writeCount := m.writeCount + 1 }, .done (.wrote fPos)) := by
    intro i m fPos hi
    exact .head {} (by rw [callStep, dif_neg hi]) (.head {} rfl (alone_returning _ _))
  induction n generalizing i m fPos with
  | zero => exact ⟨.wrote fPos, hend (by omega), rfl⟩
  | succ n ih =>
      rw [List.range'_succ]
      by_cases hi : i < userBuf.length
      · simp only [writeLoop, dif_pos hi]
        have hfail : ∀ input e, callStep variant input m (.write userBuf fPos₀) (.loop i fPos) =
              some (m, .returning (.failed e fPos)) →
            Alone variant (.write userBuf fPos₀) (m, .loop i fPos) (m, .done (.failed e fPos)) :=
          fun input _ h => .head input h (alone_returning _ _)
        -- the pass after a successful allocation and copy
        have hpass : ∀ input : Input, input.outcome = .ok ∨ input.outcome = .signal →
            callStep variant input m (.write userBuf fPos₀) (.loop i fPos) =
              if strncmp (newData userBuf i hi).contents clearCommand 4 = 0
              then some (m, .clearing fPos) else some (m, .locking i fPos (newData userBuf i hi)) := by
          rintro input (h | h) <;> rw [callStep, dif_pos hi, h]
        have hclear : ∀ input : Input, input.outcome = .ok ∨ input.outcome = .signal →
            strncmp (newData userBuf i hi).contents clearCommand 4 = 0 →
            Alone variant (.write userBuf fPos₀) (m, .loop i fPos)
              (cleanList m, .done (.cleared fPos)) := by
          intro input h hcmp
          exact .head input (by rw [hpass input h, if_pos hcmp])
            (.head {} rfl (alone_returning _ _))
        have hinsert : ∀ input : Input, input.outcome = .ok ∨ input.outcome = .signal →
            strncmp (newData userBuf i hi).contents clearCommand 4 ≠ 0 → ¬ input.Signals variant →
            ∀ {p}, Alone variant (.write userBuf fPos₀)
              ({ m with
                buffer := m.buffer ++ [newData userBuf i hi]
                totalLength := m.totalLength + (newData userBuf i hi).length },
                .loop (i + internalSize) (fPos + (newData userBuf i hi).length)) p →
            Alone variant (.write userBuf fPos₀) (m, .loop i fPos) p := by
          intro input h hcmp hs p hp
          refine .head input (by rw [hpass input h, if_neg hcmp]) ?_
          exact .head input (by rw [callStep, if_neg hs]) (.head {} rfl hp)
        have hrest := ih (i := i + internalSize) (by rw [Nat.mul_succ] at hn; omega)
        cases ho : env i with
        | noMem =>
            refine ⟨.failed .noMem fPos, hfail { outcome := .noMem } _ ?_, rfl⟩
            rw [callStep, dif_pos hi]
        | fault =>
            refine ⟨.failed .fault fPos, hfail { outcome := .fault } _ ?_, rfl⟩
            rw [callStep, dif_pos hi]
        | ok =>
            by_cases hcmp : strncmp (newData userBuf i hi).contents clearCommand 4 = 0
            · simp only [if_pos hcmp]
              exact ⟨.cleared fPos, hclear {} (Or.inl rfl) hcmp, rfl⟩
            · simp only [if_neg hcmp, reduceCtorEq, and_false, if_false]
              obtain ⟨r, hr, hres⟩ := hrest _ _
              exact ⟨r, hinsert {} (Or.inl rfl) hcmp (Input.not_signals rfl) hr, hres⟩
        | signal =>
            by_cases hcmp : strncmp (newData userBuf i hi).contents clearCommand 4 = 0
            · simp only [if_pos hcmp]
              exact ⟨.cleared fPos, hclear { outcome := .signal } (Or.inr rfl) hcmp, rfl⟩
            · by_cases hs : variant.interruptible = true
              · simp only [if_neg hcmp, hs]
                have hwait : callStep variant { outcome := .signal } m (.write userBuf fPos₀)
                    (.locking i fPos (newData userBuf i hi)) =
                      some (m, .returning (.failed .intr fPos)) := by
                  rw [callStep, if_pos ⟨hs, rfl⟩]
                refine ⟨.failed .intr fPos, .head { outcome := .signal } ?_
                  (.head _ hwait (alone_returning _ _)), rfl⟩
                rw [hpass _ (Or.inr rfl), if_neg hcmp]
              · simp only [if_neg hcmp, hs]
                obtain ⟨r, hr, hres⟩ := hrest _ _
                exact ⟨r, hinsert { outcome := .signal } (Or.inr rfl) hcmp (fun h => hs h.1) hr, hres⟩
      · rw [writeLoop, dif_neg hi]
        exact ⟨.wrote fPos, hend hi, rfl⟩

/-- Run alone, the steps of `linked_write` compute `linkedWrite`. -/
theorem alone_linkedWrite (env : ℕ → Outcome) (m : Module) (userBuf : List UInt8) (fPos : ℕ) :
    ∃ r, Alone variant (.write userBuf fPos) (m, .ready)
        ((linkedWrite variant env m userBuf fPos).module, .done r) ∧
      r.result (.write userBuf fPos) = ((linkedWrite variant env m userBuf fPos).ret,
        (linkedWrite variant env m userBuf fPos).fPos) := by
  have hcover : userBuf.length ≤ 0 + internalSize * ((userBuf.length + 3) / internalSize) := by
    simp only [internalSize]
    omega
  obtain ⟨r, hr, hres⟩ := alone_writeLoop env fPos hcover m fPos
  exact ⟨r, .head {} rfl hr, hres⟩

end LinkedBuffer
