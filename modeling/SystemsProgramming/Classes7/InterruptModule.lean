import SystemsProgramming.Library.Cascade

/-!
# The interrupt module

An interrupt of the network card runs `handler`, which schedules a tasklet and queues work; the
tasklet starts a timer.  `interrupt_exit` stops them in this order.  Each call of the kernel in
`interrupt_exit` is a step that waits for what it stops; in between, whatever has not been stopped
goes on.  When `interrupt_exit` returns nothing is left, and nothing starts again
(`interruptExit_quiet`).
-/

namespace InterruptModule

open Transition

/-! ### States -/

/-- Where a run of `tasklet_handler` is. -/
inductive TaskletPc where
  | idle
  /-- about to call `mod_timer` -/
  | arming
  | returning
  deriving DecidableEq

/-- Where `interrupt_exit` is: in which call. -/
inductive ExitPc where
  | notCalled
  | freeIrq
  | taskletKill
  | delTimerSync
  | destroyWorkqueue
  | returned
  deriving DecidableEq

/-- The module, from the return of `interrupt_init` on. -/
structure State where
  /-- `handler` is registered for the interrupt -/
  registered : Bool := true
  /-- the runs of `handler` that are about to call `tasklet_schedule` -/
  scheduling : ℕ := 0
  /-- the runs of `handler` that are about to call `queue_work` -/
  queueing : ℕ := 0
  /-- the runs of `handler` that are about to return -/
  handled : ℕ := 0
  taskletScheduled : Bool := false
  tasklet : TaskletPc := .idle
  timerPending : Bool := false
  timerRunning : Bool := false
  workPending : Bool := false
  workRunning : Bool := false
  exit : ExitPc := .notCalled
  deriving DecidableEq

/-! ### Steps -/

/-- What can happen. -/
inductive Event where
  /-- the card sends an interrupt, and `handler` starts -/
  | interrupt
  | taskletSchedule
  | queueWork
  | handlerReturns
  | taskletRuns
  | modTimer
  | taskletReturns
  | timerExpires
  | timerReturns
  | workRuns
  | workReturns
  /-- `interrupt_exit` is called: `free_irq` lets no further handler start -/
  | exitCalled
  /-- the call of `interrupt_exit` that is waiting returns -/
  | exitGoesOn
  deriving DecidableEq

/-- No handler is running. -/
def State.NoHandler (s : State) : Prop := s.scheduling = 0 ∧ s.queueing = 0 ∧ s.handled = 0

instance (s : State) : Decidable s.NoHandler := inferInstanceAs (Decidable (_ ∧ _))

/-- The call of `interrupt_exit` returns when what it waits for is over: `free_irq` for the handlers,
`tasklet_kill` for the tasklet, `del_timer_sync` for a running timer, which it disarms, and
`destroy_workqueue` for the work. -/
def exitStep (s : State) : Option State :=
  match s.exit with
  | .notCalled => none
  | .freeIrq => if s.NoHandler then some { s with exit := .taskletKill } else none
  | .taskletKill =>
    if s.taskletScheduled = false ∧ s.tasklet = .idle then some { s with exit := .delTimerSync }
    else none
  | .delTimerSync =>
    if s.timerRunning = false then
      some { s with timerPending := false, exit := .destroyWorkqueue }
    else none
  | .destroyWorkqueue =>
    if s.workPending = false ∧ s.workRunning = false then some { s with exit := .returned }
    else none
  | .returned => none

/-- One step. -/
def exec (s : State) : Event → Option State
  | .interrupt => if s.registered then some { s with scheduling := s.scheduling + 1 } else none
  | .taskletSchedule =>
    if 0 < s.scheduling then
      some
        { s with
          scheduling := s.scheduling - 1, queueing := s.queueing + 1, taskletScheduled := true }
    else none
  | .queueWork =>
    if 0 < s.queueing then
      some { s with queueing := s.queueing - 1, handled := s.handled + 1, workPending := true }
    else none
  | .handlerReturns => if 0 < s.handled then some { s with handled := s.handled - 1 } else none
  | .taskletRuns =>
    if s.taskletScheduled ∧ s.tasklet = .idle then
      some { s with taskletScheduled := false, tasklet := .arming }
    else none
  | .modTimer =>
    if s.tasklet = .arming then some { s with timerPending := true, tasklet := .returning }
    else none
  | .taskletReturns => if s.tasklet = .returning then some { s with tasklet := .idle } else none
  | .timerExpires =>
    if s.timerPending ∧ ¬ s.timerRunning then
      some { s with timerPending := false, timerRunning := true }
    else none
  | .timerReturns => if s.timerRunning then some { s with timerRunning := false } else none
  | .workRuns =>
    if s.workPending ∧ ¬ s.workRunning then
      some { s with workPending := false, workRunning := true }
    else none
  | .workReturns => if s.workRunning then some { s with workRunning := false } else none
  | .exitCalled =>
    if s.exit = .notCalled then some { s with registered := false, exit := .freeIrq } else none
  | .exitGoesOn => exitStep s

/-- `exec` as a relation. -/
def Step (s : State) (e : Event) (t : State) : Prop := exec s e = some t

/-! ### What starts what -/

/-- The activities of the module. -/
inductive Source where
  | handler
  | tasklet
  | timer
  | work
  deriving DecidableEq

/-- The activity is pending or running. -/
def Active (s : State) : Source → Prop
  | .handler => ¬ s.NoHandler
  | .tasklet => s.taskletScheduled = true ∨ s.tasklet ≠ .idle
  | .timer => s.timerPending = true ∨ s.timerRunning = true
  | .work => s.workPending = true ∨ s.workRunning = true

/-- Only handlers start from outside. -/
def Open (s : State) (i : Source) : Prop := i = .handler ∧ s.registered = true

/-- The handler schedules the tasklet and queues the work, and the tasklet starts the timer. -/
inductive Starts : Source → Source → Prop
  | tasklet : Starts .handler .tasklet
  | timer : Starts .tasklet .timer
  | work : Starts .handler .work

section Step

variable {s t : State} {e : Event}

/-- A handler starts only while it is registered. -/
theorem handler_starts (h : Step s e t) (hs : s.NoHandler) (ht : ¬ t.NoHandler) :
    s.registered = true := by
  unfold Step at h
  cases e <;> grind [exec, exitStep, State.NoHandler]

/-- Only a handler schedules the tasklet. -/
theorem tasklet_starts (h : Step s e t) (hs : ¬ Active s .tasklet) (ht : Active t .tasklet) :
    ¬ s.NoHandler := by
  unfold Step at h
  cases e <;> grind [exec, exitStep, State.NoHandler, Active]

/-- Only the tasklet starts the timer. -/
theorem timer_starts (h : Step s e t) (hs : ¬ Active s .timer) (ht : Active t .timer) :
    Active s .tasklet := by
  unfold Step at h
  cases e <;> grind [exec, exitStep, Active]

/-- Only a handler queues the work. -/
theorem work_starts (h : Step s e t) (hs : ¬ Active s .work) (ht : Active t .work) :
    ¬ s.NoHandler := by
  unfold Step at h
  cases e <;> grind [exec, exitStep, State.NoHandler, Active]

theorem caused (h : Step s e t) {i : Source} (hi : Active t i) :
    Active s i ∨ Open s i ∨ ∃ j, Starts j i ∧ Active s j := by
  rw [or_iff_not_imp_left]
  intro hs
  cases i with
  | handler => exact Or.inl ⟨rfl, handler_starts h (not_not.1 hs) hi⟩
  | tasklet => exact Or.inr ⟨.handler, .tasklet, tasklet_starts h hs hi⟩
  | timer => exact Or.inr ⟨.tasklet, .timer, timer_starts h hs hi⟩
  | work => exact Or.inr ⟨.handler, .work, work_starts h hs hi⟩

/-- Nothing registers the handler again. -/
theorem registered_of_step (h : Step s e t) (ht : t.registered = true) : s.registered = true := by
  unfold Step at h
  cases e <;> grind [exec, exitStep]

/-- The module as a system of activities. -/
def system : Cascade.System Step Source where
  Active := Active
  Open := Open
  Starts := Starts
  caused := caused
  not_open := fun h _ hi => ⟨hi.1, registered_of_step h hi.2⟩

end Step

/-! ### `interrupt_exit` -/

/-- What has been stopped, by the calls before the one that is waiting. -/
def ExitPc.stopped : ExitPc → Set Source
  | .notCalled | .freeIrq => ∅
  | .taskletKill => {.handler}
  | .delTimerSync => {.tasklet, .handler}
  | .destroyWorkqueue => {.timer, .tasklet, .handler}
  | .returned => {.work, .timer, .tasklet, .handler}

/-- The calls stop the causes before the effects. -/
theorem closed_stopped (pc : ExitPc) : system.Closed pc.stopped := by
  intro j i hstarts hi
  have hstarts : Starts j i := hstarts
  cases pc <;> cases hstarts <;> simp [ExitPc.stopped] at hi ⊢

/-- What holds in every state. -/
structure Inv (s : State) : Prop where
  registered : s.exit ≠ .notCalled → s.registered = false
  quiet : system.Quiet s.exit.stopped s

variable {s t : State} {e : Event}

/-- A call that returns has stopped what it is for. -/
theorem exitStep_quiet (h : exitStep s = some t) (hregistered : t.registered = false)
    (hquiet : system.Quiet s.exit.stopped t) : system.Quiet t.exit.stopped t := by
  have hclosed : ∀ i, ¬ Open t i := by
    rintro i ⟨-, hopen⟩
    rw [hregistered] at hopen
    cases hopen
  unfold exitStep at h
  cases hexit : s.exit with
  | notCalled | returned =>
      rw [hexit] at h
      cases h
  | freeIrq =>
      simp only [hexit, Option.ite_none_right_eq_some, Option.some.injEq] at h hquiet
      obtain ⟨hidle, rfl⟩ := h
      have hquiet := hquiet.insert (i := .handler) (not_not.2 hidle) (hclosed _)
      rwa [show ExitPc.freeIrq.stopped = ∅ from rfl, insert_empty_eq] at hquiet
  | taskletKill =>
      simp only [hexit, Option.ite_none_right_eq_some, Option.some.injEq] at h hquiet
      obtain ⟨⟨hscheduled, hpc⟩, rfl⟩ := h
      apply hquiet.insert _ (hclosed _)
      rintro (h | h)
      · exact Bool.false_ne_true (hscheduled.symm.trans h)
      · exact h hpc
  | delTimerSync =>
      simp only [hexit, Option.ite_none_right_eq_some, Option.some.injEq] at h hquiet
      obtain ⟨hrunning, rfl⟩ := h
      apply hquiet.insert _ (hclosed _)
      rintro (h | h)
      · exact Bool.false_ne_true h
      · exact Bool.false_ne_true (hrunning.symm.trans h)
  | destroyWorkqueue =>
      simp only [hexit, Option.ite_none_right_eq_some, Option.some.injEq] at h hquiet
      obtain ⟨⟨hpending, hrunning⟩, rfl⟩ := h
      apply hquiet.insert _ (hclosed _)
      rintro (h | h)
      · exact Bool.false_ne_true (hpending.symm.trans h)
      · exact Bool.false_ne_true (hrunning.symm.trans h)

/-- A step goes on with `interrupt_exit`, or does not touch it. -/
theorem Step.exit_cases (h : Step s e t) : t.exit = s.exit ∨
    (e = .exitCalled ∧ t.registered = false ∧ t.exit = .freeIrq) ∨ exitStep s = some t := by
  unfold Step at h
  cases e <;> grind [exec]

theorem Step.inv (h : Step s e t) (hs : Inv s) : Inv t := by
  have hkept : system.Quiet s.exit.stopped t := hs.quiet.next (closed_stopped _) h
  have hregistered : s.registered = false → t.registered = false := by
    intro hfalse
    by_contra hne
    rw [registered_of_step h (Bool.eq_true_of_not_eq_false hne)] at hfalse
    cases hfalse
  rcases h.exit_cases with hexit | ⟨-, hfalse, hexit⟩ | hexit
  · constructor
    · rw [hexit]
      exact fun hne => hregistered (hs.registered hne)
    · rw [hexit]
      exact hkept
  · constructor
    · exact fun _ => hfalse
    · rw [hexit]
      exact fun i hi => absurd hi (Set.notMem_empty i)
  · have hcalled : s.exit ≠ .notCalled := by
      intro hs
      unfold exitStep at hexit
      rw [hs] at hexit
      cases hexit
    have hfalse := hregistered (hs.registered hcalled)
    exact ⟨fun _ => hfalse, exitStep_quiet hexit hfalse hkept⟩

theorem inv_init : Inv {} := ⟨fun h => absurd rfl h, fun i hi => absurd hi (Set.notMem_empty i)⟩

/-- Nothing is pending or running. -/
structure State.Idle (s : State) : Prop where
  handler : s.NoHandler
  tasklet : s.taskletScheduled = false ∧ s.tasklet = .idle
  timer : s.timerPending = false ∧ s.timerRunning = false
  work : s.workPending = false ∧ s.workRunning = false

theorem idle_of_quiet (h : system.Quiet ExitPc.returned.stopped s) : s.Idle := by
  have hidle : ∀ i, ¬ Active s i := fun i => (h i (by cases i <;> simp [ExitPc.stopped])).1
  constructor
  · exact not_not.1 (hidle .handler)
  · simpa [Active] using hidle .tasklet
  · simpa [Active] using hidle .timer
  · simpa [Active] using hidle .work

/-- Work is queued by a handler, and no handler is left when the work queue is destroyed. -/
theorem exit_of_queueWork (h : Step s .queueWork t) (hs : Inv s) :
    s.exit ≠ .destroyWorkqueue ∧ s.exit ≠ .returned := by
  have hactive : Active s .handler := by
    rintro ⟨-, hzero, -⟩
    simp [Step, exec, hzero] at h
  have hnot : Source.handler ∉ s.exit.stopped := fun h => (hs.quiet .handler h).1 hactive
  constructor
  · intro hexit
    rw [hexit] at hnot
    exact hnot (by simp [ExitPc.stopped])
  · intro hexit
    rw [hexit] at hnot
    exact hnot (by simp [ExitPc.stopped])

/-- Once `interrupt_exit` has returned nothing is pending or running, now or later; and no work is
queued from the call of `destroy_workqueue` on. -/
theorem interruptExit_quiet {tr : List (State × Event)} (h : Run Step {} tr s) :
    (s.exit = .returned → ∀ t, Reachable Step s t → t.Idle) ∧
      ∀ p ∈ tr, p.2 = .queueWork → p.1.exit ≠ .destroyWorkqueue ∧ p.1.exit ≠ .returned := by
  constructor
  · intro hexit t ht
    have hs : Inv s := h.invariant (fun _ _ _ hI hs => hs.inv hI) inv_init
    have hquiet := hs.quiet
    rw [hexit] at hquiet
    exact idle_of_quiet (hquiet.reachable (closed_stopped _) ht)
  · induction h with
    | nil =>
        intro p hp
        cases hp
    | @snoc tr s t e hrun hstep ih =>
        have hs : Inv s := hrun.invariant (fun _ _ _ hI hs => hs.inv hI) inv_init
        refine List.forall_mem_append.2 ⟨ih, List.forall_mem_singleton.2 fun he => ?_⟩
        have he : e = .queueWork := he
        subst he
        exact exit_of_queueWork hstep hs

/-- An interrupt during `interrupt_exit`: its tasklet, its timer and its work run first. -/
theorem interruptExit_quiet_interrupted : ∃ tr s, Run Step {} tr s ∧ s.exit = .returned ∧
    (tr.map Prod.snd).count .queueWork = 1 ∧ ∀ t, Reachable Step s t → t.Idle := by
  have hreplay : replay exec [.interrupt, .taskletSchedule, .exitCalled, .taskletRuns, .queueWork,
      .handlerReturns, .exitGoesOn, .modTimer, .taskletReturns, .exitGoesOn, .timerExpires,
      .timerReturns, .exitGoesOn, .workRuns, .workReturns, .exitGoesOn] {} =
        some { registered := false, exit := .returned } := by decide
  have hrun : Run Step {} _ _ := run_of_replay (fun _ _ _ h => h) hreplay
  exact ⟨_, _, hrun, rfl, by decide, (interruptExit_quiet hrun).1 rfl⟩

end InterruptModule
