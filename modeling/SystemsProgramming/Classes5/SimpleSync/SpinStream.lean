import SystemsProgramming.Classes5.SimpleSync.Spinlock
import SystemsProgramming.Classes5.SimpleSync.Stream

/-!
# The stream of characters of the spin lock variant

The calls of all CPUs take the characters of the message one lock holder after the other, as the calls
with a mutex do whose steps they make (`callEvents`).
-/

namespace SimpleSync

open Memory Transition

section Records

variable {C : Type} [DecidableEq C] {variant : Variant} {count : C → ℕ}

/-- Nothing but the labels decides how many characters a run consumes. -/
theorem consumed_record {es : List (Event C)} {s t : State C}
    (h : replay (exec variant count) es s = some t) :
    consumed (record (exec variant count) es s) = es.countP fun e => e.action = .fill := by
  induction es generalizing s with
  | nil => rfl
  | cons e es ih =>
      rw [replay, Option.bind_eq_some_iff] at h
      obtain ⟨u, hu, h⟩ := h
      have hrest := ih h
      unfold consumed at hrest ⊢
      rw [record, hu, Option.map_some, Option.getD_some, List.countP_cons, List.countP_cons, hrest]

/-- What the invariant says about the stream. -/
theorem Inv.streamOk {tr : List (State C × Event C)} {s : State C} (h : Inv count tr s) :
    StreamOk count tr s := by
  refine ⟨h.stream, h.nodup, fun c n buf hc => ?_, fun l₁ c l₂ n buf hl hc => ?_,
    fun c e buf hc => ?_, fun hnone => ?_⟩
  · rw [h.entered, hc]
    trivial
  · have hok := h.phase.callOk hl
    rwa [hc] at hok
  · rw [h.consumedBy_eq, hc]
    rfl
  · have hphase := h.phase
    generalize holders tr = l at hphase
    cases hphase with
    | free hlock => exact hlock
    | held _ _ _ _ hholds => exact absurd hholds (hnone _)

end Records

namespace Spinlock

section Runs

variable {C F : Type} [DecidableEq C] {disable : F → F} {count : C → ℕ → ℕ} {flags : F} {irq : C → F}
  {tr : List (SpinLock.State C F ℤ Place Section × SpinLock.Event C F Stmt)}
  {s : SpinLock.State C F ℤ Place Section}

/-- The CPUs read the message as one stream, in the order in which they acquire the lock: their steps
are those of calls that read it so, which end with the same `msg_pos`, and with their lock free when the
spin lock is free. -/
theorem simpleRead_stream_spinLock
    (h : Run (SpinLock.Step disable fun c => code (count c))
      (SpinLock.init flags 0 irq fun _ => .ready 0) tr s)
    (hcopy : ∀ e ∈ callEvents tr, ∀ r, e.action = .copy r → r = 0)
    (hfew : (callEvents tr).countP (fun e => e.action = .fill) ≤ intMax) :
    ∃ calls : State (C × ℕ),
      replay (exec .mutex fun p => count p.1 p.2) (callEvents tr) {} = some calls ∧
      calls.globals = mutexGlobals s.shared ∧
      SpinLock.Tracks .ready (fun c => Follows (count c)) s.ctrl calls.ctrl ∧
      StreamOk (fun p => count p.1 p.2)
        (record (exec .mutex fun p => count p.1 p.2) (callEvents tr) {}) calls := by
  obtain ⟨tr', calls, hrun, htracks, hevents⟩ := run_of_spinLock h
  have hreplay := replay_of_run hrun
  rw [hevents] at hreplay
  refine ⟨_, hreplay, rfl, htracks, Inv.streamOk ?_⟩
  apply inv_of_run (run_of_replay (fun _ _ _ h => h) hreplay)
  · exact fun p hp => hcopy p.2 (label_mem_of_mem_record hp)
  · rw [consumed_record hreplay]
    exact hfew

end Runs

/-- Two CPUs with one call each for two characters; the second one waits for the lock. -/
def twoCalls : List (SpinLock.Event Bool Bool Stmt) :=
  [⟨false, .save⟩, ⟨false, .acquire⟩, ⟨true, .save⟩, ⟨false, .store⟩, ⟨false, .stmt .kmalloc⟩,
    ⟨false, .stmt .fill⟩, ⟨false, .stmt .fill⟩, ⟨false, .load⟩, ⟨false, .release⟩, ⟨true, .acquire⟩,
    ⟨true, .store⟩, ⟨false, .restore⟩, ⟨true, .stmt .kmalloc⟩, ⟨true, .stmt .fill⟩,
    ⟨false, .stmt (.copy 0)⟩, ⟨true, .stmt .fill⟩, ⟨true, .load⟩, ⟨true, .release⟩,
    ⟨true, .restore⟩, ⟨true, .stmt (.copy 0)⟩]

theorem simpleRead_stream_spinLock_two :
    ∃ (tr : List (SpinLock.State Bool Bool ℤ Place Section × SpinLock.Event Bool Bool Stmt))
      (s : SpinLock.State Bool Bool ℤ Place Section) (calls : State (Bool × ℕ)),
      Run (SpinLock.Step (fun _ => false) fun _ : Bool => code fun _ => 2)
        (SpinLock.init true 0 (fun _ => true) fun _ => .ready 0) tr s ∧ s.shared.data = 4 ∧
      takenBy calls.ctrl [(false, 0), (true, 0)] = [45, 48, 49, 50] ∧
      StreamOk (fun _ => 2) (record (exec .mutex fun _ => 2) (callEvents tr) {}) calls := by
  have hreplay : replay (SpinLock.exec (fun _ => false) fun _ : Bool => code fun _ => 2) twoCalls
      (SpinLock.init true 0 (fun _ => true) fun _ => .ready 0) = some _ := rfl
  have hrun := run_of_replay (fun _ _ _ h => h) hreplay
  have hevents : callEvents (record (SpinLock.exec (fun _ => false) fun _ : Bool =>
      code fun _ => 2) twoCalls (SpinLock.init true 0 (fun _ => true) fun _ => .ready 0)) =
    [⟨(false, 0), .lock⟩, ⟨(false, 0), .kmalloc⟩, ⟨(false, 0), .fill⟩, ⟨(false, 0), .fill⟩,
      ⟨(false, 0), .unlock⟩, ⟨(true, 0), .lock⟩, ⟨(true, 0), .kmalloc⟩, ⟨(true, 0), .fill⟩,
      ⟨(false, 0), .copy 0⟩, ⟨(true, 0), .fill⟩, ⟨(true, 0), .unlock⟩, ⟨(true, 0), .copy 0⟩] := rfl
  obtain ⟨calls, hcalls, -, -, hstream⟩ := simpleRead_stream_spinLock hrun
    (by rw [hevents]; simp) (by rw [hevents]; decide)
  refine ⟨_, _, calls, hrun, rfl, ?_, hstream⟩
  rw [hevents] at hcalls
  cases hcalls
  rfl

end Spinlock

end SimpleSync
