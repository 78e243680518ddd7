import SystemsProgramming.Classes1.Task4Rounds

/-!
# The cancellation of the critic in `Task4.c`

`main` joins the readers and the writers and then cancels the critic.  The cancellation takes effect
in `pthread_cond_wait`: the critic locks `writer_mutex` again and runs `critic_clean_up`.  A round is
`due` from the moment it is complete until it is saved, so what is due is settled by the handler when
the critic ends (`saves_eq_completions`).
-/

namespace Task4

open Pthread Transition

variable {R : Type} {n : ℕ}

/-! ### The code -/

/-- What the critic does. -/
inductive CriticStage where
  /-- its code -/
  | running
  /-- waits for `writer_mutex` on its way out of `pthread_cond_wait` -/
  | unwinding
  /-- `if(writers_count == num_writers)` of `critic_clean_up` -/
  | cleanUp
  /-- `printf` of `critic_clean_up` -/
  | save
  /-- terminated -/
  | ended
  deriving DecidableEq

/-- A state of the program with the cancellation. -/
structure CancelState (R : Type) (n : ℕ) where
  base : Lightswitch.St R (Worker n) ConcurrentObject Loc Mutex Unit Line
  /-- `pthread_cancel` has been called -/
  cancelled : Bool
  critic : CriticStage

/-- The label of a step. -/
inductive CancelEvent (R : Type) (n : ℕ) where
  /-- a step of a thread in its code -/
  | thread (e : Event (R ⊕ Worker n))
  /-- `main` calls `pthread_cancel` -/
  | cancel
  /-- the cancellation takes effect -/
  | unwind
  /-- the critic locks `writer_mutex` again -/
  | reacquire
  /-- a step of `critic_clean_up` -/
  | handler

/-- All mutexes free, nobody cancelled. -/
def CancelState.init (base : Lightswitch.St R (Worker n) ConcurrentObject Loc Mutex Unit Line) :
    CancelState R n where
  base := base
  cancelled := false
  critic := .running

/-- In `pthread_cond_wait`. -/
def inWait : Ctrl (RLoc ⊕ Loc) Mutex Unit → Bool
  | .run _ => false
  | _ => true

section Exec

variable [DecidableEq R] [Fintype R] (readerRuns : R → ℕ) (writerRuns : Fin n → ℕ)

/-- `main` has joined the readers and the writers. -/
def joined (s : Lightswitch.St R (Worker n) ConcurrentObject Loc Mutex Unit Line) : Prop :=
  (∀ r, (threads readerRuns writerRuns).program.returned s (.inl r) = true) ∧
    ∀ idx, (threads readerRuns writerRuns).program.returned s (.inr (.writer idx)) = true

instance (s : Lightswitch.St R (Worker n) ConcurrentObject Loc Mutex Unit Line) :
    Decidable (joined readerRuns writerRuns s) :=
  inferInstanceAs (Decidable (_ ∧ _))

/-- One step, when it is possible. -/
def cancelExec (s : CancelState R n) : CancelEvent R n → Option (CancelState R n)
  | .thread e =>
    if e.thread = .inr .critic ∧ s.critic ≠ .running then none
    else (exec (threads readerRuns writerRuns).program s.base e).map fun base => { s with base }
  | .cancel => if joined readerRuns writerRuns s.base then some { s with cancelled := true } else none
  | .unwind =>
    if s.cancelled = true ∧ s.critic = .running ∧ inWait (s.base.ctrl (.inr .critic)) = true then
      some { s with critic := .unwinding }
    else none
  | .reacquire =>
    if s.critic = .unwinding ∧ s.base.owner .writerMutex = none then
      some { s with
        base := s.base.setOwner .writerMutex (some (.inr .critic))
        critic := .cleanUp }
    else none
  | .handler =>
    match s.critic with
    | .cleanUp =>
      let object := s.base.data
      some { s with critic := if object.writersCount = object.numWriters then .save else .ended }
    | .save =>
      some { s with
        base := s.base.write (.inr .critic) s.base.data [.saved s.base.data.data]
        critic := .ended }
    | _ => none

/-- The steps of the program with the cancellation. -/
def CancelStep (s : CancelState R n) (e : CancelEvent R n) (s' : CancelState R n) : Prop :=
  cancelExec readerRuns writerRuns s e = some s'

/-- In this step `writers_count` reaches `num_writers`. -/
def completes (p : CancelState R n × CancelEvent R n) : Bool :=
  match cancelExec readerRuns writerRuns p.1 p.2 with
  | some s' => p.1.base.data.writersCount ≠ p.1.base.data.numWriters ∧
      s'.base.data.writersCount = s'.base.data.numWriters
  | none => false

/-- How often `writers_count` has reached `num_writers` in a run. -/
def completions (tr : List (CancelState R n × CancelEvent R n)) : ℕ :=
  tr.countP (completes readerRuns writerRuns)

end Exec

/-- The number of saves in a log. -/
def saves (o : Log R n) : ℕ := o.countP fun e => e.2.isSave

/-! ### What is due -/

/-- The critic is between its reset and its save. -/
def closing : Ctrl (RLoc ⊕ Loc) Mutex Unit → Bool
  | .run (.inr ⟨_, .clear _⟩) => true
  | .run (.inr ⟨_, .save⟩) => true
  | _ => false

/-- The rounds that are complete and not yet saved. -/
def due (s : Lightswitch.St R (Worker n) ConcurrentObject Loc Mutex Unit Line) : ℕ :=
  (decide (s.data.writersCount = n)).toNat + (closing (s.ctrl (.inr .critic))).toNat

@[simp] theorem saves_append_map (o : Log R n) (t : R ⊕ Worker n) (ls : List Line) :
    saves (o ++ ls.map (t, ·)) = saves o + ls.countP Line.isSave := by
  simp [saves, List.countP_append, List.countP_map, Function.comp_def]

theorem assertion_numWriters {u : Worker n} {l : Loc} {object : ConcurrentObject} {o : Log R n}
    (h : assertion u l object o) : object.numWriters = n := by
  obtain ⟨i, p⟩ := l
  cases u with
  | writer idx =>
      cases p with
      | wait | check => exact h.1.numWriters
      | count | record | full | broadcast | store | print =>
          have hn := Registered.numWriters h
          exact hn
      | _ => exact Round.numWriters h
  | critic =>
      cases p with
      | wait | reset | clear => exact h.1.numWriters
      | save => exact Closing.numWriters h
      | _ => exact Round.numWriters h

section Steps

variable {readerRuns : R → ℕ} {writerRuns : Fin n → ℕ}
  {s s' : Lightswitch.St R (Worker n) ConcurrentObject Loc Mutex Unit Line}

theorem numWriters_eq [Fintype R] (hI : (threads readerRuns writerRuns).Inv crit s)
    (hP : (threads readerRuns writerRuns).Protected crit Round (assertion (R := R)) s) :
    s.data.numWriters = n := by
  by_cases hheld : ∃ u, s.owner .writerMutex = some (.inr u)
  · obtain ⟨u, hu⟩ := hheld
    obtain ⟨l, hc, hl⟩ := (hI.crit u).1 hu
    exact assertion_numWriters (hP.held u l hc hl)
  · exact (hP.free fun u hu => hheld ⟨u, hu⟩).numWriters

/-- What is saved and due grows by one when the count reaches `n`. -/
def Ledger (s s' : Lightswitch.St R (Worker n) ConcurrentObject Loc Mutex Unit Line) : Prop :=
  saves s'.out + due s' = saves s.out + due s +
    (decide (s.data.writersCount ≠ n ∧ s'.data.writersCount = n)).toNat

/-- A step that leaves the count and the critic's progress alone. -/
theorem ledger_of_keep (hd : s'.data.writersCount = s.data.writersCount)
    (hc : closing (s'.ctrl (.inr .critic)) = closing (s.ctrl (.inr .critic)))
    (ho : saves s'.out = saves s.out) : Ledger s s' := by
  have hnot : ¬ (s.data.writersCount ≠ n ∧ s'.data.writersCount = n) := by
    rw [hd]
    exact fun h => h.1 h.2
  rw [Ledger, decide_eq_false hnot, ho, due, due, hd, hc]
  rfl

variable [DecidableEq R]

/-- A statement of a writer makes a round due when it completes it. -/
theorem ledger_writer {idx : Fin n} {l l' : Loc} {runs : ℕ}
    {f : ℤ → ConcurrentObject → ConcurrentObject × List Line × Loc} (v : ℤ)
    (hf : writerThread runs idx l = .act f) (hA : assertion (.writer idx) l s.data s.out) :
    Ledger s ((s.write (.inr (.writer idx)) (f v s.data).1 (f v s.data).2.1).setCtrl
      (.inr (.writer idx)) (.run (.inr l'))) := by
  have hctrl : (s.setCtrl (.inr (.writer idx)) (.run (.inr l'))).ctrl (.inr .critic) =
      s.ctrl (.inr .critic) := State.setCtrl_ctrl_of_ne nofun
  obtain ⟨i, p⟩ := l
  cases p with
  | lock =>
      simp only [writerThread] at hf
      split at hf <;> cases hf
  | test | check | full | record | store | print =>
      injection hf with hf
      subst hf
      exact ledger_of_keep rfl (congrArg closing hctrl) (saves_append_map ..)
  | count =>
      injection hf with hf
      subst hf
      -- the count is below `n` before its increment
      have hcount : s.data.writersCount + 1 =
          recorded n (Function.update s.data.writersRecord idx true) := Registered.count hA
      have hle := recorded_le (n := n) (Function.update s.data.writersRecord idx true)
      have hlt : s.data.writersCount ≠ n := by omega
      have hdue : due ((s.write (.inr (.writer idx))
          { s.data with writersCount := s.data.writersCount + 1 } []).setCtrl
            (.inr (.writer idx)) (.run (.inr l'))) =
          (decide (s.data.writersCount + 1 = n)).toNat +
            (closing (s.ctrl (.inr .critic))).toNat := by
        show _ + (closing ((s.setCtrl _ _).ctrl _)).toNat = _
        rw [hctrl]
        rfl
      show saves (s.out ++ _) + due _ = _ + (decide (_ ∧ s.data.writersCount + 1 = n)).toNat
      rw [saves_append_map, hdue, due, decide_eq_false hlt]
      simp [hlt]
      omega
  | wait | broadcast | unlock | reset | clear | save => cases hf

/-- A statement of the critic: its save settles the round that its reset took over. -/
theorem ledger_critic (hn : 0 < n) {l : Loc}
    {f : ℤ → ConcurrentObject → ConcurrentObject × List Line × Loc} (v : ℤ)
    (hc : s.ctrl (.inr .critic) = .run (.inr l)) (hf : criticThread l = .act f)
    (hA : assertion .critic l s.data s.out) :
    Ledger s ((s.write (.inr .critic) (f v s.data).1 (f v s.data).2.1).setCtrl (.inr .critic)
      (.run (.inr (f v s.data).2.2))) := by
  have hctrl : ∀ k : Ctrl (RLoc ⊕ Loc) Mutex Unit,
      (s.setCtrl (.inr .critic) k).ctrl (.inr .critic) = k := fun k => State.setCtrl_ctrl_self
  obtain ⟨i, p⟩ := l
  cases p with
  | test =>
      injection hf with hf
      subst hf
      refine ledger_of_keep rfl ?_ (saves_append_map ..)
      show closing ((s.setCtrl _ (.run (.inr ⟨i, if _ then _ else _⟩))).ctrl _) = _
      rw [hctrl, hc]
      split <;> rfl
  | reset =>
      injection hf with hf
      subst hf
      have hcount : s.data.writersCount = n := hA.2
      have h0 : (0 : ℤ) ≠ n := by omega
      show saves (s.out ++ _) + ((decide ((0 : ℤ) = n)).toNat +
        (closing ((s.setCtrl _ _).ctrl _)).toNat) = _ + (decide (_ ∧ (0 : ℤ) = n)).toNat
      rw [saves_append_map, hctrl, due, hc, decide_eq_false h0, decide_eq_true hcount]
      simp [h0, closing]
  | clear k =>
      injection hf with hf
      subst hf
      have hkeep : ∀ (object : ConcurrentObject) (q : Place),
          object.writersCount = s.data.writersCount → closing (.run (.inr ⟨i, q⟩)) = true →
          Ledger s ((s.write (.inr .critic) object []).setCtrl (.inr .critic)
            (.run (.inr ⟨i, q⟩))) := by
        intro object q hcount hq
        refine ledger_of_keep hcount ?_ (saves_append_map ..)
        rw [State.setCtrl_ctrl_self, hc, hq]
        rfl
      by_cases hk : k < s.data.numWriters
      · simp only [if_pos hk]
        exact hkeep _ _ rfl rfl
      · simp only [if_neg hk]
        exact hkeep _ _ rfl rfl
  | save =>
      injection hf with hf
      subst hf
      have hcount : s.data.writersCount = 0 := Closing.count hA
      have h0 : s.data.writersCount ≠ n := by omega
      show saves (s.out ++ _) + ((decide (s.data.writersCount = n)).toNat +
        (closing ((s.setCtrl _ _).ctrl _)).toNat) = _ + (decide (_ ∧ s.data.writersCount = n)).toNat
      rw [saves_append_map, hctrl, due, hc, decide_eq_false h0]
      simp [h0, closing, Line.isSave]
  | lock | wait | check | count | record | full | broadcast | store | print | unlock => cases hf

omit [DecidableEq R] in
/-- Before and after an instruction of the critic other than a statement it is not closing. -/
theorem not_closing {l : Loc} (hl : ∀ f, criticThread l ≠ .act f) :
    closing (.run (.inr l)) = false := by
  obtain ⟨i, p⟩ := l
  cases p with
  | clear k => exact absurd rfl (hl _)
  | save => exact absurd rfl (hl _)
  | _ => rfl

theorem not_closing_next {l next : Loc}
    (h : (∃ m, criticThread l = .lock m next) ∨ (∃ m, criticThread l = .unlock m next) ∨
      (∃ c m, criticThread l = .wait c m next) ∨ ∃ c, criticThread l = .broadcast c next) :
    closing (.run (.inr next)) = false := by
  obtain ⟨i, p⟩ := l
  cases p <;> simp [criticThread] at h <;> exact h ▸ rfl

theorem closing_wake (k : Ctrl (RLoc ⊕ Loc) Mutex Unit) (c : Unit) :
    closing (k.wake c) = closing k := by
  cases k with
  | run l => rfl
  | asleep c' m l =>
      rw [Ctrl.wake]
      split <;> rfl
  | woken m l => rfl

/-- An instruction other than a statement. -/
theorem ledger_of_move {u : Worker n} {k : Ctrl (RLoc ⊕ Loc) Mutex Unit} (hd : s'.data = s.data)
    (ho : s'.out = s.out)
    (hctrl : closing (s'.ctrl (.inr .critic)) = closing (s.ctrl (.inr .critic)))
    (hu : u = .critic → closing (s.ctrl (.inr .critic)) = false ∧ closing k = false) :
    Ledger s (s'.setCtrl (.inr u) k) := by
  refine ledger_of_keep (congrArg _ hd) ?_ (congrArg _ ho)
  by_cases huc : u = .critic
  · obtain ⟨hc, hk⟩ := hu huc
    rw [huc, State.setCtrl_ctrl_self, hk, hc]
  · rw [State.setCtrl_ctrl_of_ne (by simpa using Ne.symm huc), hctrl]

/-- The steps of the writers and of the critic. -/
theorem ledger_other [Fintype R] (hn : 0 < n)
    (hP : (threads readerRuns writerRuns).Protected crit Round (assertion (R := R)) s)
    {u : Worker n} (h : (threads readerRuns writerRuns).OtherStep u s s') : Ledger s s' := by
  have hlaw := (lawful : (threads readerRuns writerRuns).Lawful crit).guarded u
  have hrun : ∀ {l : Loc}, s.ctrl (.inr u) = .run (.inr l) → (∀ f, criticThread l ≠ .act f) →
      u = .critic → closing (s.ctrl (.inr .critic)) = false := by
    rintro l hc hl rfl
    rw [hc]
    exact not_closing hl
  cases h with
  | @lock l next hc hi ho =>
      refine ledger_of_move rfl rfl rfl ?_
      rintro rfl
      have hi : criticThread l = .lock _ next := hi
      exact ⟨hrun hc (by rw [hi]; exact nofun) rfl, not_closing_next (Or.inl ⟨_, hi⟩)⟩
  | @unlock l next hc hi =>
      refine ledger_of_move rfl rfl rfl ?_
      rintro rfl
      have hi : criticThread l = .unlock _ next := hi
      exact ⟨hrun hc (by rw [hi]; exact nofun) rfl, not_closing_next (Or.inr (Or.inl ⟨_, hi⟩))⟩
  | @wait l c next hc hi =>
      refine ledger_of_move rfl rfl rfl ?_
      rintro rfl
      have hi : criticThread l = .wait c _ next := hi
      exact ⟨hrun hc (by rw [hi]; exact nofun) rfl, rfl⟩
  | @broadcast l c next hc hi =>
      refine ledger_of_move rfl rfl (closing_wake _ c) ?_
      rintro rfl
      have hi : criticThread l = .broadcast c next := hi
      exact ⟨hrun hc (by rw [hi]; exact nofun) rfl,
        not_closing_next (Or.inr (Or.inr (Or.inr ⟨_, hi⟩)))⟩
  | @act l f i hc hi =>
      have hg := hlaw l
      rw [hi] at hg
      have hA := hP.held u l hc hg.1
      cases u with
      | writer idx => exact ledger_writer i hi hA
      | critic => exact ledger_critic hn i hc hi hA
  | @resume l c next hc hi ho =>
      refine ledger_of_move rfl rfl rfl ?_
      rintro rfl
      have hi : criticThread l = .wait c _ next := hi
      refine ⟨by rw [hc]; rfl, not_closing_next (Or.inr (Or.inr (Or.inl ⟨_, _, hi⟩)))⟩
  | @spurious l c next hc hi =>
      refine ledger_of_move rfl rfl rfl ?_
      rintro rfl
      exact ⟨by rw [hc]; rfl, rfl⟩

/-- Every step keeps the books. -/
theorem ledger_step [Fintype R] (hn : 0 < n) (hI : (threads readerRuns writerRuns).Inv crit s)
    (hP : (threads readerRuns writerRuns).Protected crit Round (assertion (R := R)) s)
    {e : Event (R ⊕ Worker n)} (h : Step (threads readerRuns writerRuns).program s e s') :
    Ledger s s' := by
  rcases hI.step_cases lawful h with ⟨r, i, h⟩ | ⟨u, h⟩
  · obtain ⟨hctrl, heff⟩ := hI.reader_effect h
    have hc : closing (s'.ctrl (.inr .critic)) = closing (s.ctrl (.inr .critic)) := by rw [hctrl]
    rcases heff with ⟨hd, ho⟩ | ⟨c, hd, ho⟩ | ⟨k, st, hst, -, hd, ho⟩
    · exact ledger_of_keep (by rw [hd]) hc (by rw [ho])
    · exact ledger_of_keep (by rw [hd]; rfl) hc (by rw [ho])
    · obtain rfl := List.mem_singleton.1 hst
      exact ledger_of_keep (by rw [hd]) hc (by rw [ho, saves_append_map]; rfl)
  · exact ledger_other hn hP h

end Steps

/-! ### Every run -/

/-- What holds in every state of a run with the cancellation, after `tr`. -/
inductive Booked [DecidableEq R] [Fintype R] (readerRuns : R → ℕ) (writerRuns : Fin n → ℕ)
    (initialData : ℤ) (cells : ℕ → Bool) (done : ℕ) (s : CancelState R n) : Prop
  /-- the critic is in its code, or on its way out of `pthread_cond_wait` -/
  | code (reachable : Reachable (Step (threads readerRuns writerRuns).program)
        ((threads readerRuns writerRuns).program.init (allocateObject initialData n cells)) s.base)
      (books : saves s.base.out + due s.base = done)
      (cancelled : s.cancelled = true → joined readerRuns writerRuns s.base)
      (stage : s.critic = .running ∨ s.critic = .unwinding ∧ s.cancelled = true ∧
        inWait (s.base.ctrl (.inr .critic)) = true)
  /-- the critic is in the handler or has terminated -/
  | handler (joined : joined readerRuns writerRuns s.base)
      (numWriters : s.base.data.numWriters = n)
      (stage : match s.critic with
        | .cleanUp => saves s.base.out + (decide (s.base.data.writersCount = n)).toNat = done
        | .save => saves s.base.out + 1 = done
        | .ended => saves s.base.out = done
        | _ => False)

section Runs

variable [DecidableEq R] [Fintype R] {readerRuns : R → ℕ} {writerRuns : Fin n → ℕ} {initialData : ℤ}
  {cells : ℕ → Bool} {s s' : CancelState R n} {done : ℕ}

/-- A step that leaves the object alone completes no round. -/
theorem completes_of_data_eq {e : CancelEvent R n}
    (h : cancelExec readerRuns writerRuns s e = some s') (hd : s'.base.data = s.base.data) :
    (completes readerRuns writerRuns (s, e)).toNat = 0 := by
  have hnot : ¬ (s.base.data.writersCount ≠ s.base.data.numWriters ∧
      s'.base.data.writersCount = s'.base.data.numWriters) := by
    rw [hd]
    exact fun h => h.1 h.2
  rw [completes, h]
  simp only [decide_eq_false hnot]
  rfl

omit [Fintype R] in
/-- Once `main` has joined the others only the critic can move. -/
theorem exec_of_joined {base : Lightswitch.St R (Worker n) ConcurrentObject Loc Mutex Unit Line}
    (hj : joined readerRuns writerRuns base) {e : Event (R ⊕ Worker n)}
    (he : e.thread ≠ .inr .critic) : exec (threads readerRuns writerRuns).program base e = none := by
  apply exec_of_returned
  match ht : e.thread with
  | .inl r => exact hj.1 r
  | .inr (.writer idx) => exact hj.2 idx
  | .inr .critic => exact absurd ht he

theorem Booked.thread (hn : 0 < n) (hB : Booked readerRuns writerRuns initialData cells done s)
    {e : Event (R ⊕ Worker n)} (h : cancelExec readerRuns writerRuns s (.thread e) = some s') :
    Booked readerRuns writerRuns initialData cells
      (done + (completes readerRuns writerRuns (s, .thread e)).toNat) s' := by
  have hexec := h
  simp only [cancelExec] at hexec
  split at hexec
  · cases hexec
  · next hrun =>
      rw [Option.map_eq_some_iff] at hexec
      obtain ⟨base, hb, rfl⟩ := hexec
      -- without the critic's code nobody is left to move
      have hrunning : joined readerRuns writerRuns s.base → s.critic = .running := by
        intro hj
        by_contra hc
        by_cases he : e.thread = .inr .critic
        · exact hrun ⟨he, hc⟩
        · rw [exec_of_joined hj he] at hb
          cases hb
      cases hB with
      | handler hj _ stage =>
          rw [hrunning hj] at stage
          exact stage.elim
      | code hr books hcancel stage =>
          have hI := Lightswitch.inv_of_reachable lawful rfl hr
          have hP := Lightswitch.protected_of_reachable lawful (protects hn) rfl
            (round_init hn initialData cells) hr
          have hs : Step (threads readerRuns writerRuns).program s.base e base := step_of_exec hb
          have hr' : Reachable (Step (threads readerRuns writerRuns).program)
              ((threads readerRuns writerRuns).program.init (allocateObject initialData n cells))
              base := by
            obtain ⟨tr, htr⟩ := hr
            exact (htr.snoc hs).reachable
          have hN := numWriters_eq hI hP
          have hN' := numWriters_eq (hI.step lawful hs) (hP.step hI lawful (protects hn) hs)
          have hcompletes : (completes readerRuns writerRuns (s, .thread e)).toNat =
              (decide (s.base.data.writersCount ≠ n ∧ base.data.writersCount = n)).toNat := by
            rw [completes, h]
            simp only [hN, hN']
          refine .code hr' ?_ (fun hc => ?_) (stage.imp id fun hst => ?_)
          · rw [hcompletes, ← books]
            exact ledger_step hn hI hP hs
          · exact ⟨fun r => hs.returned ((hcancel hc).1 r), fun idx => hs.returned ((hcancel hc).2 idx)⟩
          · have := hrunning (hcancel hst.2.1)
            rw [hst.1] at this
            cases this

/-- The critic gets the mutex back and is in the handler. -/
theorem Booked.reacquire_step (hn : 0 < n)
    (hB : Booked readerRuns writerRuns initialData cells done s)
    (h : cancelExec readerRuns writerRuns s .reacquire = some s') :
    Booked readerRuns writerRuns initialData cells
      (done + (completes readerRuns writerRuns (s, .reacquire)).toNat) s' := by
  have hexec := h
  simp only [cancelExec, Option.ite_none_right_eq_some, Option.some.injEq] at h
  obtain ⟨⟨hst, ho⟩, rfl⟩ := h
  rw [completes_of_data_eq hexec rfl]
  cases hB with
  | code hr books hj stage =>
      obtain ⟨-, hcancel, hw⟩ := stage.resolve_left (by rw [hst]; exact nofun)
      have hclosing : closing (s.base.ctrl (.inr .critic)) = false := by
        cases hk : s.base.ctrl (.inr .critic) with
        | run l =>
            rw [hk] at hw
            cases hw
        | asleep | woken => rfl
      have hN := numWriters_eq (Lightswitch.inv_of_reachable lawful rfl hr)
        (Lightswitch.protected_of_reachable lawful (protects hn) rfl
          (round_init hn initialData cells) hr)
      refine .handler (hj hcancel) hN ?_
      rw [due, hclosing] at books
      exact books
  | handler _ _ stage =>
      rw [hst] at stage
      exact stage.elim

/-- The handler tests the counter, and saves if the round is complete. -/
theorem Booked.handler_step (hB : Booked readerRuns writerRuns initialData cells done s)
    (h : cancelExec readerRuns writerRuns s .handler = some s') :
    Booked readerRuns writerRuns initialData cells
      (done + (completes readerRuns writerRuns (s, .handler)).toNat) s' := by
  have hexec := h
  cases hB with
  | code _ _ _ stage => rcases stage with hst | ⟨hst, -⟩ <;> simp [cancelExec, hst] at h
  | handler hj hN stage =>
      cases hst : s.critic with
      | cleanUp =>
          simp only [cancelExec, hst, Option.some.injEq] at h
          subst h
          rw [completes_of_data_eq hexec rfl]
          refine .handler hj hN ?_
          simp only [hst] at stage
          rw [← hN] at stage
          by_cases hc : s.base.data.writersCount = s.base.data.numWriters
          · simp only [if_pos hc]
            simpa [hc] using stage
          · simp only [if_neg hc]
            simpa [hc] using stage
      | save =>
          simp only [cancelExec, hst, Option.some.injEq] at h
          subst h
          rw [completes_of_data_eq hexec rfl]
          refine .handler hj hN ?_
          simp only [hst] at stage
          show saves (s.base.out ++ _) = _
          rw [saves_append_map]
          exact stage
      | running | unwinding | ended => simp [cancelExec, hst] at h

theorem Booked.step (hn : 0 < n) (hB : Booked readerRuns writerRuns initialData cells done s)
    {e : CancelEvent R n} (h : cancelExec readerRuns writerRuns s e = some s') :
    Booked readerRuns writerRuns initialData cells
      (done + (completes readerRuns writerRuns (s, e)).toNat) s' := by
  have hexec := h
  cases e with
  | thread e => exact hB.thread hn h
  | cancel =>
      simp only [cancelExec, Option.ite_none_right_eq_some, Option.some.injEq] at h
      obtain ⟨hj, rfl⟩ := h
      rw [completes_of_data_eq hexec rfl]
      cases hB with
      | code hr books _ stage => exact .code hr books (fun _ => hj) (stage.imp id fun h => ⟨h.1, rfl, h.2.2⟩)
      | handler hj hN stage => exact .handler hj hN stage
  | unwind =>
      simp only [cancelExec, Option.ite_none_right_eq_some, Option.some.injEq] at h
      obtain ⟨⟨hc, hrun, hw⟩, rfl⟩ := h
      rw [completes_of_data_eq hexec rfl]
      cases hB with
      | code hr books hj _ => exact .code hr books hj (Or.inr ⟨rfl, hc, hw⟩)
      | handler _ _ stage =>
          rw [hrun] at stage
          exact stage.elim
  | reacquire => exact hB.reacquire_step hn h
  | handler => exact hB.handler_step h

theorem Booked.init (hn : 0 < n) : Booked readerRuns writerRuns initialData cells 0
    (.init ((threads readerRuns writerRuns).program.init (allocateObject initialData n cells))) := by
  refine .code (Reachable.refl _) ?_ nofun (Or.inl rfl)
  have h0 : (0 : ℤ) ≠ n := by omega
  show 0 + ((decide ((0 : ℤ) = n)).toNat + 0) = 0
  rw [decide_eq_false h0]
  rfl

omit [DecidableEq R] [Fintype R] in
/-- No more than one round is due. -/
theorem due_le (hn : 0 < n)
    {base : Lightswitch.St R (Worker n) ConcurrentObject Loc Mutex Unit Line}
    (hP : (threads readerRuns writerRuns).Protected crit Round (assertion (R := R)) base) :
    due base ≤ 1 := by
  by_cases hclosing : closing (base.ctrl (.inr .critic)) = true
  · have hcount : base.data.writersCount = 0 := by
      unfold closing at hclosing
      split at hclosing
      · next j k hc =>
          have hA : Closing k base.data base.out ∧ k ≤ n := hP.held .critic _ hc trivial
          exact hA.1.count
      · next k hc => exact Closing.count (hP.held .critic _ hc trivial)
      · cases hclosing
    have h0 : base.data.writersCount ≠ n := by omega
    rw [due, decide_eq_false h0, hclosing]
    rfl
  · rw [due, Bool.eq_false_iff.2 hclosing]
    exact Bool.toNat_le _

theorem Booked.of_run (hn : 0 < n) {tr : List (CancelState R n × CancelEvent R n)}
    (h : Run (CancelStep readerRuns writerRuns) (.init ((threads readerRuns writerRuns).program.init
      (allocateObject initialData n cells))) tr s) :
    Booked readerRuns writerRuns initialData cells (completions readerRuns writerRuns tr) s := by
  induction h with
  | nil => exact .init hn
  | @snoc tr s t e _ hs ih =>
      have hsum : completions readerRuns writerRuns (tr ++ [(s, e)]) =
          completions readerRuns writerRuns tr + (completes readerRuns writerRuns (s, e)).toNat := by
        rw [completions, List.countP_append, List.countP_singleton]
        cases completes readerRuns writerRuns (s, e) <;> rfl
      rw [hsum]
      exact ih.step hn hs

/-- Every save of the critic and of its handler settles one completed round, and when the critic has
terminated all are settled. -/
theorem saves_eq_completions (hn : 0 < n) {tr : List (CancelState R n × CancelEvent R n)}
    (h : Run (CancelStep readerRuns writerRuns) (.init ((threads readerRuns writerRuns).program.init
      (allocateObject initialData n cells))) tr s) :
    saves s.base.out ≤ completions readerRuns writerRuns tr ∧
      completions readerRuns writerRuns tr ≤ saves s.base.out + 1 ∧
      (s.critic = .ended → saves s.base.out = completions readerRuns writerRuns tr) := by
  cases Booked.of_run hn h with
  | code hr books _ stage =>
      have hdue := due_le hn (Lightswitch.protected_of_reachable lawful (protects hn) rfl
        (round_init hn initialData cells) hr)
      refine ⟨by omega, by omega, fun hst => ?_⟩
      rw [hst] at stage
      simp at stage
  | handler _ _ stage =>
      cases hst : s.critic with
      | cleanUp =>
          rw [hst] at stage
          have := Bool.toNat_le (decide (s.base.data.writersCount = n))
          exact ⟨by omega, by omega, nofun⟩
      | save =>
          rw [hst] at stage
          exact ⟨by omega, by omega, nofun⟩
      | ended =>
          rw [hst] at stage
          exact ⟨by omega, by omega, fun _ => stage⟩
      | running | unwinding =>
          rw [hst] at stage
          exact stage.elim

/-- The critic sleeps while one writer writes `7`, and is cancelled before it gets `writer_mutex`: the
handler saves the round. -/
theorem saves_eq_completions_one_writer :
    ∃ (s : CancelState Unit 1) (tr : List (CancelState Unit 1 × CancelEvent Unit 1)),
      s.base.out = [(.inr (.writer 0), .wrote 7), (.inr .critic, .saved 7)] ∧
      saves s.base.out ≤ completions (fun _ => 0) (fun _ => 1) tr ∧
      completions (fun _ => 0) (fun _ => 1) tr ≤ saves s.base.out + 1 ∧
      saves s.base.out = completions (fun _ => 0) (fun _ => 1) tr := by
  let S := threads (R := Unit) (n := 1) (fun _ => 0) fun _ => 1
  let ls : List (CancelEvent Unit 1) :=
    List.replicate 3 (.thread (.exec (.inr .critic) 0)) ++
      List.replicate 10 (.thread (.exec (.inr (.writer 0)) 7)) ++
      [.cancel, .unwind, .reacquire, .handler, .handler]
  have hs : (replay (cancelExec (fun _ : Unit => 0) fun _ : Fin 1 => 1) ls
      (.init (S.program.init (allocateObject 0 1 fun _ => true)))).isSome := rfl
  have h := saves_eq_completions (by decide)
    (run_of_replay (fun _ _ _ => id) (Option.some_get hs).symm)
  exact ⟨_, _, rfl, h.1, h.2.1, h.2.2 rfl⟩

end Runs

end Task4
