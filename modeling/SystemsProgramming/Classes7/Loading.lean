import SystemsProgramming.Library.ModuleLife

/-!
# Loading the interrupt module

`interrupt_init` creates a workqueue and then requests the interrupt.  When the request fails, the load
fails and the workqueue is not destroyed.
-/

namespace InterruptLife

open Transition ModuleLife
open Kernel (ebusy)

/-- What the module registers: `handler`, for the interrupt of the network card.  Another driver holds
the interrupt if it does not share it. -/
inductive Name where
  | irq
  deriving DecidableEq

/-- The calls of `interrupt_init` that fail. -/
structure InitFails where
  createWorkqueue : Bool
  requestIrq : Bool

/-- `EFAULT` -/
def efault : ℤ := 14

/-- `interrupt_init` -/
def interruptInit (id : ℕ) (fails : InitFails) (k : Kernel Name) : Kernel Name × Unit × ℤ :=
  let (k, wq) := k.alloc fails.createWorkqueue
  if wq = false then (k, (), -efault)
  else
    let (k, registered) := k.register id .irq fails.requestIrq
    -- a failure is logged and returned
    (k, (), if registered then 0 else -ebusy)

/-- `interrupt_exit`, as far as it unregisters and frees -/
def interruptExit (id : ℕ) (_ : Unit) (k : Kernel Name) : Kernel Name :=
  (k.deregister id .irq).free

/-- The module. -/
def code : Code Name Unit InitFails where
  init := interruptInit
  exit := interruptExit

/-- A load that fails with its workqueue created. -/
def leaksWorkqueue (p : State Name Unit × Event Name InitFails) : Bool :=
  match p.2 with
  | .insmod f => f.createWorkqueue = false ∧ ¬ p.1.kernel.Grants .irq f.requestIrq
  | _ => false

section Histories

variable {s s' : State Name Unit} {e : Event Name InitFails} {f : InitFails}

theorem load_refused (h : f.createWorkqueue = true) :
    s.load code f = { kernel := s.kernel, image := none, loads := s.loads + 1 } := by
  simp [State.load, code, interruptInit, Kernel.alloc, h, efault]

theorem load_created (h : f.createWorkqueue = false) : s.load code f =
    if s.kernel.Grants .irq f.requestIrq then
      { kernel := s.kernel.grow.grant s.loads .irq
        image := some (s.loads, ())
        loads := s.loads + 1 }
    else { kernel := s.kernel.grow, image := none, loads := s.loads + 1 } := by
  have hiff : s.kernel.grow.Grants .irq f.requestIrq ↔ s.kernel.Grants .irq f.requestIrq := Iff.rfl
  by_cases hg : s.kernel.Grants .irq f.requestIrq
  · simp [State.load, code, interruptInit, Kernel.alloc, h, Kernel.register_of_grants (hiff.2 hg), hg]
  · simp [State.load, code, interruptInit, Kernel.alloc, h,
      Kernel.register_of_not_grants (mt hiff.1 hg), hg, ebusy]

/-- The exit function undoes a complete load. -/
theorem unload_held {id : ℕ} (h : s.kernel.holder .irq = some (.image id)) : s.unload code id () =
    { kernel := (s.kernel.unregister .irq).free, image := none, loads := s.loads } := by
  simp [State.unload, code, interruptExit, Kernel.deregister_of_held h]

/-- The loaded image holds the interrupt. -/
structure Sound (s : State Name Unit) : Prop where
  whole : Whole (fun _ => True) s
  misused : s.kernel.misused = 0

theorem Sound.step (h : Sound s) (hs : Step code s e s') : Sound s' := by
  cases hs with
  | insmod f hi =>
      have hunheld := h.whole.unheld_of_none hi
      cases hw : f.createWorkqueue with
      | true =>
          rw [load_refused hw]
          exact ⟨whole_of_unheld (by simp) hunheld, h.misused⟩
      | false =>
          rw [load_created hw]
          split
          · refine ⟨whole_of_held rfl trivial (funext fun n => ?_), h.misused⟩
            cases n
            exact Kernel.grant_holder_self
          · exact ⟨whole_of_unheld (by simp) hunheld, h.misused⟩
  | rmmod hi =>
      rw [unload_held (congrFun (h.whole.held hi trivial) .irq)]
      refine ⟨whole_of_unheld (by simp) fun n i hn => ?_, h.misused⟩
      cases n
      rw [Kernel.free_holder, Kernel.unregister_holder_self] at hn
      cases hn
  | take hn => exact ⟨h.whole.hold (by simp [hn]) (by simp), h.misused⟩
  | give hn => exact ⟨h.whole.hold (by simp [hn]) (by simp), h.misused⟩

/-- What a step does to the workqueues. -/
theorem blocks_step (h : Sound s) (hpos : s.image.isSome.toNat ≤ s.kernel.blocks)
    (hs : Step code s e s') : s'.kernel.blocks + s.image.isSome.toNat =
      s.kernel.blocks + s'.image.isSome.toNat + (leaksWorkqueue (s, e)).toNat := by
  cases hs with
  | insmod f hi =>
      cases hw : f.createWorkqueue with
      | true => simp [load_refused hw, hi, leaksWorkqueue, hw]
      | false =>
          rw [load_created hw]
          by_cases hg : s.kernel.Grants .irq f.requestIrq <;>
            simp [hg, hi, leaksWorkqueue, hw, Kernel.grow]
  | rmmod hi =>
      rw [hi] at hpos
      rw [unload_held (congrFun (h.whole.held hi trivial) .irq)]
      simp only [Option.isSome_some, Bool.toNat_true] at hpos
      simp [hi, leaksWorkqueue, Kernel.free, Kernel.unregister]
      omega
  | take | give => simp [State.hold, leaksWorkqueue]

/-- The handler belongs to the loaded image.  The workqueues are the one of the loaded image and one
for each load that was refused the interrupt: nothing ever destroys these. -/
theorem interrupt_history {tr : List (State Name Unit × Event Name InitFails)}
    (h : Run (Step code) start tr s) :
    (∀ i, s.kernel.holder .irq = some (.image i) ↔ s.image = some (i, ())) ∧
      s.kernel.misused = 0 ∧
      s.kernel.blocks = s.image.isSome.toNat + tr.countP leaksWorkqueue := by
  have hsound : ∀ {tr s}, Run (Step code) start tr s → Sound s := fun h =>
    h.invariant (fun s e s' hs hstep => hs.step hstep) ⟨whole_start, rfl⟩
  refine ⟨fun i => ?_, (hsound h).misused, ?_⟩
  · rw [(hsound h).whole.held_iff]
    exact ⟨fun ⟨_, hi, _⟩ => hi, fun hi => ⟨(), hi, trivial⟩⟩
  · induction h with
    | nil => rfl
    | @snoc tr s t e hrun hs ih =>
        have hstep := blocks_step (hsound hrun) (by omega) hs
        rw [List.countP_append, List.countP_singleton]
        cases hl : leaksWorkqueue (s, e) <;>
          simp only [hl, Bool.toNat_true, Bool.toNat_false] at hstep <;> simp <;> omega

/-- Another driver has the interrupt for itself, and two loads fail. -/
theorem interrupt_history_in_use :
    ∃ (s : State Name Unit) (tr : List (State Name Unit × Event Name InitFails)),
      s.image = none ∧ s.kernel.blocks = 2 ∧
      s.kernel.blocks = s.image.isSome.toNat + tr.countP leaksWorkqueue := by
  let es : List (Event Name InitFails) :=
    [.take .irq, .insmod ⟨false, false⟩, .insmod ⟨false, false⟩]
  have hs : (replay (ModuleLife.exec code) es start).isSome := rfl
  have h := interrupt_history (run_of_replay (fun _ _ _ => step_of_exec) (Option.some_get hs).symm)
  exact ⟨_, _, rfl, rfl, h.2.2⟩

end Histories

end InterruptLife
