import SystemsProgramming.Classes1.Task4Termination
import SystemsProgramming.Library.ForkJoin

/-!
# The program of `Task4.c`

`main` starts the writers, the readers and the critic, joins the readers and the writers, cancels the
critic, joins it and frees the record.  It always comes to its end, with every complete round saved: the
critic that sleeps for ever is ended by the cancellation, and its handler saves what is left.
-/

namespace Task4

open Pthread Transition ForkJoin

section Code

variable {R : Type} {n : ℕ} [DecidableEq R] [Fintype R] (readerRuns : R → ℕ) (writerRuns : Fin n → ℕ)

/-- The threads of the program with the cancellation. -/
def cancelWorkers : Workers (CancelState R n) (R ⊕ Worker n) (CancelEvent R n) where
  exec := cancelExec readerRuns writerRuns
  thread
    | .thread e => some e.thread
    | .cancel => none
    | .unwind | .reacquire | .handler => some (.inr .critic)
  returned s
    | .inr .critic => decide (s.critic = .ended)
    | t => (threads readerRuns writerRuns).program.returned s.base t

/-- The step is not a spurious wake-up. -/
def Waking : CancelEvent R n → Prop
  | .thread e => ¬ e.Spurious
  | _ => True

/-- `main` before `pthread_cancel` -/
def startAndJoinWriters (numReaders numWriters : ℕ) :
    List (Op (Fin numReaders ⊕ Worker numWriters) (CancelEvent (Fin numReaders) numWriters)) :=
  (List.finRange numWriters).map (fun i => .create (.inr (.writer i))) ++
    ((List.finRange numReaders).map (fun i => .create (.inl i)) ++
      .create (.inr .critic) ::
        ((List.finRange numReaders).map (fun i => .join (.inl i)) ++
          (List.finRange numWriters).map (fun i => .join (.inr (.writer i)))))

/-- `main` after the allocation -/
def main (numReaders numWriters : ℕ) :
    List (Op (Fin numReaders ⊕ Worker numWriters) (CancelEvent (Fin numReaders) numWriters)) :=
  startAndJoinWriters numReaders numWriters ++ [.call .cancel, .join (.inr .critic), .free]

end Code

section Lawful

variable {R : Type} {n : ℕ} [DecidableEq R] [Fintype R] {readerRuns : R → ℕ} {writerRuns : Fin n → ℕ}
  {s s' : CancelState R n}

/-- What a step does to the code of the threads and to the critic. -/
theorem cancelExec_cases {e : CancelEvent R n} (h : cancelExec readerRuns writerRuns s e = some s') :
    (∃ e', e = .thread e' ∧ s'.critic = s.critic ∧ s'.cancelled = s.cancelled ∧
      exec (threads readerRuns writerRuns).program s.base e' = some s'.base ∧
      (e'.thread = .inr .critic → s.critic = .running)) ∨
    (s'.base.ctrl = s.base.ctrl ∧ s'.base.data = s.base.data ∧
      (e = .cancel ∧ s'.critic = s.critic ∧ s'.cancelled = true ∨
        s'.cancelled = s.cancelled ∧
          (e = .unwind ∧ s.critic = .running ∧ s'.critic = .unwinding ∨
            e = .reacquire ∧ s.critic = .unwinding ∧ s'.critic = .cleanUp ∨
            e = .handler ∧ s.critic = .cleanUp ∧ (s'.critic = .save ∨ s'.critic = .ended) ∨
            e = .handler ∧ s.critic = .save ∧ s'.critic = .ended))) := by
  cases e with
  | thread e' =>
      simp only [cancelExec] at h
      split at h
      · cases h
      · next hrun =>
          obtain ⟨base, hb, rfl⟩ := Option.map_eq_some_iff.1 h
          refine Or.inl ⟨e', rfl, rfl, rfl, hb, fun he => ?_⟩
          by_contra hc
          exact hrun ⟨he, hc⟩
  | cancel =>
      simp only [cancelExec, Option.ite_none_right_eq_some, Option.some.injEq] at h
      obtain ⟨-, rfl⟩ := h
      exact Or.inr ⟨rfl, rfl, Or.inl ⟨rfl, rfl, rfl⟩⟩
  | unwind =>
      simp only [cancelExec, Option.ite_none_right_eq_some, Option.some.injEq] at h
      obtain ⟨⟨-, hrun, -⟩, rfl⟩ := h
      exact Or.inr ⟨rfl, rfl, Or.inr ⟨rfl, Or.inl ⟨rfl, hrun, rfl⟩⟩⟩
  | reacquire =>
      simp only [cancelExec, Option.ite_none_right_eq_some, Option.some.injEq] at h
      obtain ⟨⟨hst, -⟩, rfl⟩ := h
      exact Or.inr ⟨rfl, rfl, Or.inr ⟨rfl, Or.inr (Or.inl ⟨rfl, hst, rfl⟩)⟩⟩
  | handler =>
      cases hst : s.critic with
      | cleanUp =>
          simp only [cancelExec, hst, Option.some.injEq] at h
          subst h
          refine Or.inr ⟨rfl, rfl, Or.inr ⟨rfl, Or.inr (Or.inr (Or.inl ⟨rfl, rfl, ?_⟩))⟩⟩
          by_cases hc : s.base.data.writersCount = s.base.data.numWriters
          · exact Or.inl (if_pos hc)
          · exact Or.inr (if_neg hc)
      | save =>
          simp only [cancelExec, hst, Option.some.injEq] at h
          subst h
          exact Or.inr ⟨rfl, rfl, Or.inr ⟨rfl, Or.inr (Or.inr (Or.inr ⟨rfl, rfl, rfl⟩))⟩⟩
      | running | unwinding | ended => simp [cancelExec, hst] at h

@[simp] theorem returned_critic :
    (cancelWorkers readerRuns writerRuns).returned s (.inr .critic) = true ↔ s.critic = .ended := by
  simp [cancelWorkers]

theorem returned_other {t : R ⊕ Worker n} (ht : t ≠ .inr .critic) :
    (cancelWorkers readerRuns writerRuns).returned s t =
      (threads readerRuns writerRuns).program.returned s.base t := by
  match t with
  | .inl r => rfl
  | .inr (.writer idx) => rfl
  | .inr .critic => exact absurd rfl ht

omit [DecidableEq R] [Fintype R] in
/-- Whether a thread has returned is a matter of where it is. -/
theorem returned_congr {base base' : Lightswitch.St R (Worker n) ConcurrentObject Loc Mutex Unit Line}
    (h : base'.ctrl = base.ctrl) (t : R ⊕ Worker n) :
    (threads readerRuns writerRuns).program.returned base' t =
      (threads readerRuns writerRuns).program.returned base t := by
  simp only [Program.returned, h]

theorem cancelWorkers_lawful : (cancelWorkers readerRuns writerRuns).Lawful where
  stays {s s' e t} hs ht := by
    by_cases htc : t = .inr .critic
    · rw [htc, returned_critic] at ht ⊢
      rcases cancelExec_cases hs with ⟨e', -, hcritic, -⟩ | ⟨-, -, ⟨-, hcritic, -⟩ | ⟨-, h | h | h | h⟩⟩
      · exact hcritic.trans ht
      · exact hcritic.trans ht
      all_goals
        have hst := h.2.1
        rw [ht] at hst
        cases hst
    · rw [returned_other htc] at ht ⊢
      rcases cancelExec_cases hs with ⟨e', -, -, -, hb, -⟩ | ⟨hctrl, -⟩
      · exact (step_of_exec hb).returned ht
      · rwa [returned_congr hctrl]
  stops {s e t} he ht := by
    by_contra hne
    obtain ⟨s', hs⟩ := Option.ne_none_iff_exists'.1 hne
    rcases cancelExec_cases hs with ⟨e', rfl, -, -, hb, hrun⟩ | ⟨-, -, ⟨rfl, -⟩ | ⟨-, h⟩⟩
    · obtain rfl : e'.thread = t := Option.some.inj he
      by_cases htc : e'.thread = .inr .critic
      · rw [htc, returned_critic, hrun htc] at ht
        cases ht
      · rw [returned_other htc] at ht
        rw [exec_of_returned ht] at hb
        cases hb
    · cases he
    · obtain rfl : .inr .critic = t := by
        rcases h with ⟨rfl, -⟩ | ⟨rfl, -⟩ | ⟨rfl, -⟩ | ⟨rfl, -⟩ <;> exact Option.some.inj he
      rw [returned_critic] at ht
      rcases h with h | h | h | h
      all_goals
        have hst := h.2.1
        rw [ht] at hst
        cases hst

end Lawful

/-! ### Termination -/

section Termination

variable {R : Type} {n : ℕ} [DecidableEq R] [Fintype R] {readerRuns : R → ℕ} {writerRuns : Fin n → ℕ}
  {initialData : ℤ} {cells : ℕ → Bool} {s s' : CancelState R n}

/-- The steps that the critic has yet to take on its way out. -/
def CriticStage.left : CriticStage → ℕ
  | .running => 4
  | .unwinding => 3
  | .cleanUp => 2
  | .save => 1
  | .ended => 0

/-- The threads with the critic's code paid for. -/
def wholeBudget (hn : 0 < n) (readerRuns : R → ℕ) (writerRuns : Fin n → ℕ) :
    Budget (threads readerRuns writerRuns).program (Lightswitch.Known (Asserted R)) :=
  Lightswitch.budget (workers hn readerRuns writerRuns) (fun _ _ => rfl) fun st hst i d => by
    obtain rfl := List.mem_singleton.1 hst
    rfl

/-- The steps of the threads and of the cancellation that are left. -/
def stepsLeft (hn : 0 < n) (readerRuns : R → ℕ) (writerRuns : Fin n → ℕ) (s : CancelState R n) : ℕ :=
  (wholeBudget hn readerRuns writerRuns).measure s.base + s.critic.left

theorem stepsLeft_lt (hn : 0 < n) {done : ℕ}
    (hB : Booked readerRuns writerRuns initialData cells done s) {e : CancelEvent R n}
    (he : Waking e) (hcancel : e ≠ .cancel) (h : cancelExec readerRuns writerRuns s e = some s') :
    stepsLeft hn readerRuns writerRuns s' < stepsLeft hn readerRuns writerRuns s := by
  rw [stepsLeft, stepsLeft]
  rcases cancelExec_cases h with ⟨e', rfl, hcritic, -, hb, hrun⟩ | ⟨hctrl, hdata, hcase⟩
  · rw [hcritic]
    refine Nat.add_lt_add_right ?_ _
    cases hB with
    | code hr _ _ _ =>
        exact (wholeBudget hn readerRuns writerRuns).measure_lt (known_of_reachable hn hr) he
          (step_of_exec hb)
    | handler hj _ stage =>
        -- in the handler nobody moves in the code
        by_cases hc : e'.thread = .inr .critic
        · rw [hrun hc] at stage
          exact stage.elim
        · rw [exec_of_joined hj hc] at hb
          cases hb
  · have hmeasure : (wholeBudget hn readerRuns writerRuns).measure s'.base =
        (wholeBudget hn readerRuns writerRuns).measure s.base := by
      rw [Budget.measure, Budget.measure, hctrl, hdata]
    rw [hmeasure]
    refine Nat.add_lt_add_left ?_ _
    rcases hcase with ⟨h, -⟩ | ⟨-, ⟨-, h, h'⟩ | ⟨-, h, h'⟩ | ⟨-, h, h' | h'⟩ | ⟨-, h, h'⟩⟩
    · exact absurd h hcancel
    all_goals
      rw [h, h']
      decide

theorem booked_of_reachable (hn : 0 < n)
    (h : Reachable (cancelWorkers readerRuns writerRuns).Step (.init
      ((threads readerRuns writerRuns).program.init (allocateObject initialData n cells))) s) :
    ∃ done, Booked readerRuns writerRuns initialData cells done s := by
  obtain ⟨tr, h⟩ := h
  exact ⟨_, Booked.of_run hn h⟩

/-- The threads do not run for ever, nor does the cancellation. -/
theorem cancel_not_infinite (hn : 0 < n) (f : ℕ → CancelState R n)
    (h₀ : Reachable (cancelWorkers readerRuns writerRuns).Step (.init
      ((threads readerRuns writerRuns).program.init (allocateObject initialData n cells))) (f 0)) :
    ¬ ∀ k, ∃ e, ((cancelWorkers readerRuns writerRuns).thread e).isSome = true ∧ Waking e ∧
      (cancelWorkers readerRuns writerRuns).Step (f k) e (f (k + 1)) := by
  intro hf
  have hbooked : ∀ k, ∃ done, Booked readerRuns writerRuns initialData cells done (f k) := by
    intro k
    induction k with
    | zero => exact booked_of_reachable hn h₀
    | succ k ih =>
        obtain ⟨done, hB⟩ := ih
        obtain ⟨e, -, -, hs⟩ := hf k
        exact ⟨_, hB.step hn hs⟩
  refine not_infinite_of_measure (stepsLeft hn readerRuns writerRuns)
    (fun s (e : CancelEvent R n) s' (h : (∃ done, Booked readerRuns writerRuns initialData cells done s) ∧
      e ≠ .cancel ∧ Waking e ∧ cancelExec readerRuns writerRuns s e = some s') => ?_) f fun k => ?_
  · obtain ⟨⟨done, hB⟩, hcancel, he, hs⟩ := h
    exact stepsLeft_lt hn hB he hcancel hs
  · obtain ⟨e, hthread, he, hs⟩ := hf k
    refine ⟨e, hbooked k, ?_, he, hs⟩
    rintro rfl
    cases hthread

end Termination

/-! ### The end -/

section Progress

variable {R : Type} {n : ℕ} [DecidableEq R] [Fintype R] {readerRuns : R → ℕ} {writerRuns : Fin n → ℕ}
  {initialData : ℤ} {cells : ℕ → Bool} {s s' : CancelState R n}

/-- Where no thread moves by itself the readers and the writers have finished and the critic sleeps. -/
theorem joined_of_not_progresses (hn : 0 < n)
    {base : Lightswitch.St R (Worker n) ConcurrentObject Loc Mutex Unit Line}
    (h : Reachable (Pthread.Step (threads readerRuns writerRuns).program)
      ((threads readerRuns writerRuns).program.init (allocateObject initialData n cells)) base)
    (hp : ¬ Progresses (threads readerRuns writerRuns).program base) :
    joined readerRuns writerRuns base ∧ base.owner .writerMutex = none ∧
      inWait (base.ctrl (.inr .critic)) = true := by
  have hI := Lightswitch.inv_of_reachable lawful rfl h
  have hw := Lightswitch.sleepersWait_of_reachable lawful (protects hn) (wakes hn) rfl
    (round_init hn initialData cells) h
  obtain ⟨-, hroom, hr, hu⟩ := hI.stuck lawful hp
  have hwaits : ∀ u, (threads readerRuns writerRuns).Asleep () u base → waits () u base.data :=
    fun u => hI.sleeper_of_free hw fun v => by rw [hroom]; exact (Option.some_ne_none _).symm
  obtain ⟨⟨⟩, hcritic⟩ := (hu .critic).resolve_left (critic_not_finished h)
  have hincomplete : waits () (.critic : Worker n) base.data := hwaits _ hcritic
  refine ⟨⟨fun r => (hr r).returned, fun idx => ?_⟩, hroom, ?_⟩
  · rcases hu (.writer idx) with hfin | ⟨⟨⟩, hidx⟩
    · exact hfin.returned
    · exact absurd (hwaits _ hidx) hincomplete
  · obtain ⟨next, hc⟩ := hcritic
    rw [hc]
    rfl

/-- On its way out of `pthread_cond_wait` the critic gets the mutex when the others have finished. -/
theorem owner_of_joined (hn : 0 < n)
    {base : Lightswitch.St R (Worker n) ConcurrentObject Loc Mutex Unit Line}
    (h : Reachable (Pthread.Step (threads readerRuns writerRuns).program)
      ((threads readerRuns writerRuns).program.init (allocateObject initialData n cells)) base)
    (hj : joined readerRuns writerRuns base) (hw : inWait (base.ctrl (.inr .critic)) = true) :
    base.owner .writerMutex = none := by
  by_cases hp : Progresses (threads readerRuns writerRuns).program base
  · obtain ⟨e, base', he, hs⟩ := hp
    have hcritic : e.thread = .inr .critic := by
      by_contra hne
      have hexec := hs.exec_eq
      rw [exec_of_joined hj hne] at hexec
      cases hexec
    cases hs with
    | @resume t m next hc ho =>
        obtain rfl : t = .inr .critic := hcritic
        rcases (Lightswitch.inv_of_reachable lawful rfl h).others .critic with
          ⟨l, hc'⟩ | ⟨l, c, next', -, hc' | hc'⟩
        · rw [hc] at hc'
          cases hc'
        · rw [hc] at hc'
          cases hc'
        · rw [hc] at hc'
          obtain ⟨rfl, -⟩ := Ctrl.woken.inj hc'
          exact ho
    | spurious => exact absurd trivial he
    | lock hc | taken hc | refused hc | unlock hc | wait hc | broadcast hc | act hc =>
        obtain rfl := hcritic
        rw [hc] at hw
        cases hw
  · exact (joined_of_not_progresses hn h hp).2.1

/-- As long as a reader or a writer has not finished, and from the cancellation on until the critic has
ended, some thread can step. -/
theorem exists_step (hn : 0 < n) {done : ℕ}
    (hB : Booked readerRuns writerRuns initialData cells done s)
    (h : joined readerRuns writerRuns s.base → s.cancelled = true ∧ s.critic ≠ .ended) :
    ∃ e u, (cancelWorkers readerRuns writerRuns).thread e = some u ∧ Waking e ∧
      (cancelExec readerRuns writerRuns s e).isSome = true := by
  cases hB with
  | code hr books hcancel stage =>
      rcases stage with hrun | ⟨hst, hc, hw⟩
      · by_cases hp : Progresses (threads readerRuns writerRuns).program s.base
        · obtain ⟨e, base', he, hs⟩ := hp
          exact ⟨.thread e, e.thread, rfl, he, by simp [cancelExec, hrun, hs.exec_eq]⟩
        · obtain ⟨hj, -, hw⟩ := joined_of_not_progresses hn hr hp
          exact ⟨.unwind, .inr .critic, rfl, trivial, by simp [cancelExec, hrun, (h hj).1, hw]⟩
      · have ho := owner_of_joined hn hr (hcancel hc) hw
        exact ⟨.reacquire, .inr .critic, rfl, trivial, by simp [cancelExec, hst, ho]⟩
  | handler hj _ stage =>
      refine ⟨.handler, .inr .critic, rfl, trivial, ?_⟩
      cases hst : s.critic with
      | cleanUp | save => simp [cancelExec, hst]
      | ended => exact absurd hst (h hj).2
      | running | unwinding =>
          rw [hst] at stage
          exact stage.elim

theorem cancelled_of_cancel (s s' : CancelState R n)
    (h : cancelExec readerRuns writerRuns s .cancel = some s') : s'.cancelled = true := by
  simp only [cancelExec, Option.ite_none_right_eq_some, Option.some.injEq] at h
  obtain ⟨-, rfl⟩ := h
  rfl

theorem cancelled_step {e : CancelEvent R n} (h : cancelExec readerRuns writerRuns s e = some s')
    (hc : s.cancelled = true) : s'.cancelled = true := by
  rcases cancelExec_cases h with ⟨-, -, -, hcancelled, -⟩ | ⟨-, -, ⟨-, -, hcancelled⟩ | ⟨hcancelled, -⟩⟩
  · exact hcancelled.trans hc
  · exact hcancelled
  · exact hcancelled.trans hc

omit [DecidableEq R] [Fintype R] in
theorem returned_of_joined
    {base : Lightswitch.St R (Worker n) ConcurrentObject Loc Mutex Unit Line}
    (hj : joined readerRuns writerRuns base) {t : R ⊕ Worker n} (ht : t ≠ .inr .critic) :
    (threads readerRuns writerRuns).program.returned base t = true := by
  match t with
  | .inl r => exact hj.1 r
  | .inr (.writer idx) => exact hj.2 idx
  | .inr .critic => exact absurd rfl ht

end Progress

section Main

variable {numReaders numWriters readerRuns writerRuns : ℕ} {initialData : ℤ} {cells : ℕ → Bool}

/-- The threads that `main` starts. -/
abbrev mainWorkers (numReaders numWriters readerRuns writerRuns : ℕ) :=
  cancelWorkers (fun _ : Fin numReaders => readerRuns) fun _ : Fin numWriters => writerRuns

/-- What `main` starts them on. -/
abbrev allocated (numReaders numWriters readerRuns writerRuns : ℕ) (initialData : ℤ)
    (cells : ℕ → Bool) : CancelState (Fin numReaders) numWriters :=
  .init ((threads (fun _ => readerRuns) fun _ : Fin numWriters => writerRuns).program.init
    (allocateObject initialData numWriters cells))

theorem orderly_main : Orderly ∅ ∅ (main numReaders numWriters) := by
  have hthreads : ∅ ∪ {t | ∃ i ∈ List.finRange numWriters, Sum.inr (Worker.writer i) = t} ∪
      {t : Fin numReaders ⊕ Worker numWriters | ∃ i ∈ List.finRange numReaders, Sum.inl i = t} =
        {t | t ≠ .inr .critic} := by
    ext t
    rcases t with r | ⟨idx⟩ | _ <;> simp
  have hothers : ∅ ∪ {t : Fin numReaders ⊕ Worker numWriters |
      ∃ i ∈ List.finRange numReaders, Sum.inl i = t} ∪
      {t | ∃ i ∈ List.finRange numWriters, Sum.inr (Worker.writer i) = t} =
        {t | t ≠ .inr .critic} := by
    ext t
    rcases t with r | ⟨idx⟩ | _ <;> simp
  have hall : ∀ t : Fin numReaders ⊕ Worker numWriters,
      t ∈ insert (Sum.inr Worker.critic) {t | t ≠ .inr .critic} := fun t =>
    (eq_or_ne t (.inr .critic)).imp id id
  simp only [main, startAndJoinWriters, List.append_assoc, List.cons_append]
  refine orderly_creates _ _ (orderly_creates Sum.inl _ ?_)
  rw [hthreads]
  refine orderly_joins Sum.inl _ hall (orderly_joins _ _ hall ?_)
  rw [hothers]
  exact ⟨hall, hall, hall, hall⟩

section Positions

variable {done rest : List (Op (Fin numReaders ⊕ Worker numWriters)
  (CancelEvent (Fin numReaders) numWriters))}

/-- What has been run when `main` joins the critic. -/
theorem done_of_join (h : main numReaders numWriters = done ++ .join (.inr .critic) :: rest) :
    done = startAndJoinWriters numReaders numWriters ++ [.call .cancel] := by
  have hmain : main numReaders numWriters =
      (startAndJoinWriters numReaders numWriters ++ [.call .cancel]) ++ .join (.inr .critic) ::
        [.free] := by simp [main]
  rw [hmain, List.append_cons_inj_of_notMem (by simp [startAndJoinWriters]) (by simp)] at h
  exact h.1.symm

/-- What has been run when `main` cancels it. -/
theorem done_of_cancel (h : main numReaders numWriters = done ++ .call .cancel :: rest) :
    done = startAndJoinWriters numReaders numWriters := by
  rw [main, List.append_cons_inj_of_notMem (by simp [startAndJoinWriters]) (by simp)] at h
  exact h.1.symm

end Positions

theorem join_mem_startAndJoinWriters {t : Fin numReaders ⊕ Worker numWriters} (ht : t ≠ .inr .critic) :
    .join t ∈ startAndJoinWriters numReaders numWriters := by
  rcases t with r | ⟨idx⟩ | _
  · simp [startAndJoinWriters]
  · simp [startAndJoinWriters]
  · exact absurd rfl ht

/-- The program does not run for ever without spurious wake-ups, and where it ends `main` has returned.
Then it has freed the record, and every round that was ever complete has been saved, once; nobody
touches the object after it has been freed. -/
theorem main_returns_with_rounds_saved (hn : 0 < numWriters) :
    Terminates (mainWorkers numReaders numWriters readerRuns writerRuns) Waking
      (allocated numReaders numWriters readerRuns writerRuns initialData cells)
      (main numReaders numWriters) ∧
    ∀ tr p, Run (Step (mainWorkers numReaders numWriters readerRuns writerRuns))
        (.start (allocated numReaders numWriters readerRuns writerRuns initialData cells)
          (main numReaders numWriters)) tr p →
      (Stuck (mainWorkers numReaders numWriters readerRuns writerRuns) Waking p ↔ p.rest = []) ∧
      (p.rest = [] → p.freed = true ∧ p.shared.critic = .ended ∧
        joined (fun _ => readerRuns) (fun _ => writerRuns) p.shared.base ∧
        saves p.shared.base.out =
          completions (fun _ => readerRuns) (fun _ => writerRuns) (sharedRun tr)) ∧
      (p.freed = true → ∀ e,
        ForkJoin.exec (mainWorkers numReaders numWriters readerRuns writerRuns) p (.worker e) =
          none) := by
  refine ⟨terminates_of_workers fun f hf => cancel_not_infinite hn f hf, fun tr p h => ?_⟩
  have hp : Sound (mainWorkers numReaders numWriters readerRuns writerRuns) p :=
    sound_of_reachable cancelWorkers_lawful orderly_main h.reachable
  have hB := Booked.of_run hn (run_shared h)
  refine ⟨⟨fun hstuck => ?_, stuck_of_end⟩, fun hend => ?_, hp.quiet_of_freed cancelWorkers_lawful⟩
  · have hcancel : ∀ s s', (mainWorkers numReaders numWriters readerRuns writerRuns).exec s .cancel =
        some s' → s'.cancelled = true := cancelled_of_cancel
    obtain ⟨done, hops, hjoin, hcancelled⟩ := split_of_reachable cancelWorkers_lawful hcancel
      (fun _ _ _ => cancelled_step) h.reachable
    rcases hp.stuck_cases hstuck with hend | ⟨t, rest, hr, hret, hquiet⟩ | ⟨e, rest, hr, hblocked⟩
    · exact hend
    · -- the thread joined has not returned, so that some thread can step
      obtain ⟨e, u, hu, he, hs⟩ := exists_step hn hB fun hj => by
        have htc : t = .inr .critic := by
          by_contra htc
          rw [returned_other htc, returned_of_joined hj htc] at hret
          cases hret
        have hended : p.shared.critic ≠ .ended := by
          intro hended
          rw [htc, returned_critic.2 hended] at hret
          cases hret
        rw [hr, htc] at hops
        exact ⟨hcancelled (by simp [done_of_join hops]), hended⟩
      have hnone : cancelExec (fun _ => readerRuns) (fun _ => writerRuns) p.shared e = none :=
        hquiet e u hu he
      rw [hnone] at hs
      cases hs
    · -- the readers and the writers have been joined, so that nothing blocks the cancellation
      have hmem : .call e ∈ main numReaders numWriters := by
        rw [hops, hr]
        simp
      obtain rfl : e = .cancel := by simpa [main, startAndJoinWriters] using hmem
      rw [hr] at hops
      obtain rfl := done_of_cancel hops
      have hj : joined (fun _ => readerRuns) (fun _ => writerRuns) p.shared.base :=
        ⟨fun r => hjoin (.inl r) (join_mem_startAndJoinWriters nofun),
          fun idx => hjoin (.inr (.writer idx)) (join_mem_startAndJoinWriters nofun)⟩
      have hsome : cancelExec (fun _ => readerRuns) (fun _ => writerRuns) p.shared .cancel =
          some { p.shared with cancelled := true } := if_pos hj
      have hnone : cancelExec (fun _ => readerRuns) (fun _ => writerRuns) p.shared .cancel = none :=
        hblocked
      rw [hnone] at hsome
      cases hsome
  · have hret := hp.returned_of_end hend
    have hended := returned_critic.1 (hret (.inr .critic))
    have hj : joined (fun _ => readerRuns) (fun _ => writerRuns) p.shared.base :=
      ⟨fun r => hret (.inl r), fun idx => hret (.inr (.writer idx))⟩
    refine ⟨freed_of_end (by simp [main]) h.reachable hend, hended, hj, ?_⟩
    cases hB with
    | code _ _ _ stage =>
        rw [hended] at stage
        simp at stage
    | handler _ _ stage =>
        rw [hended] at stage
        exact stage

/-- The numbers of `main`. -/
theorem main_returns_with_rounds_saved_main :
    Terminates (mainWorkers 200 100 14 11) Waking (allocated 200 100 14 11 0 fun _ => true)
      (main 200 100) ∧
    ∀ tr p, Run (Step (mainWorkers 200 100 14 11))
        (.start (allocated 200 100 14 11 0 fun _ => true) (main 200 100)) tr p →
      (Stuck (mainWorkers 200 100 14 11) Waking p ↔ p.rest = []) ∧
      (p.rest = [] → saves p.shared.base.out =
        completions (fun _ => 14) (fun _ => 11) (sharedRun tr)) := by
  refine ⟨(main_returns_with_rounds_saved (by decide)).1, fun tr p h => ?_⟩
  obtain ⟨hstuck, hend, -⟩ := (main_returns_with_rounds_saved (by decide)).2 tr p h
  exact ⟨hstuck, fun h => (hend h).2.2.2⟩

end Main

end Task4
