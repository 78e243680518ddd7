import SystemsProgramming.Library.LightswitchProgress
import SystemsProgramming.Classes1.Task4Rounds

/-!
# The critic rounds of `Task4.c` make progress

A writer sleeps while the round is complete and the critic while it is not (`waits`), unless the one
that changed this is about to broadcast (`pending`).  So the critic and a writer never sleep for
good at the same time.
-/

namespace Task4

open Pthread Transition

variable {R : Type} {n : ℕ} {readerRuns : R → ℕ} {writerRuns : Fin n → ℕ}

/-- The condition of the `while` around `pthread_cond_wait`. -/
def waits (_ : Unit) : Worker n → ConcurrentObject → Prop
  | .writer _, object => object.writersCount = n
  | .critic, object => object.writersCount ≠ n

/-- Where a thread is about to wake the first one: the critic wakes the writers, a writer the
critic. -/
def pending (_ : Unit) : Worker n → Worker n → Loc → Prop
  | .writer _, .critic, l => match l.place with
    | .clear _ | .save | .broadcast => True
    | _ => False
  | .critic, .writer _, l => match l.place with
    | .record | .full | .broadcast => True
    | _ => False
  | _, _, _ => False

theorem pending_place {c : Unit} {u v : Worker n} {l : Loc} (h : pending c u v l) :
    l.place ≠ .unlock ∧ l.place ≠ .wait := by
  obtain ⟨i, p⟩ := l
  cases u <;> cases v <;> cases p <;> first | exact h.elim | exact ⟨nofun, nofun⟩

theorem waits_congr {c : Unit} {u : Worker n} {object object' : ConcurrentObject}
    (hw : waits c u object) (h : object'.writersCount = object.writersCount) :
    waits c u object' := by
  cases u with
  | writer idx => exact h.trans hw
  | critic => exact fun h' => hw (h ▸ h')

/-- A statement of a writer. -/
theorem wakes_writer {idx : Fin n} {c : Unit} {u : Worker n} {l : Loc} {runs : ℕ}
    {object : ConcurrentObject} {o : Log R n}
    {f : ℤ → ConcurrentObject → ConcurrentObject × List Line × Loc} (v : ℤ)
    (hf : writerThread runs idx l = .act f) (hA : assertion (.writer idx) l object o)
    (h : waits c u object ∨ pending c u (.writer idx) l) :
    waits c u (f v object).1 ∨ pending c u (.writer idx) (f v object).2.2 := by
  obtain ⟨i, p⟩ := l
  have hwriter : ∀ j, u = .writer j → waits c u object := by
    rintro j rfl
    exact h.resolve_right id
  cases p with
  | lock =>
      simp only [writerThread] at hf
      split at hf <;> cases hf
  | test | check | store | print =>
      injection hf with hf
      subst hf
      refine Or.inl (waits_congr (h.resolve_right fun hpend => ?_) rfl)
      cases u <;> exact hpend
  | count =>
      injection hf with hf
      subst hf
      cases u with
      | writer j =>
          -- before its increment the count is below `n`, so no writer sleeps
          have hw : object.writersCount = n := hwriter j rfl
          have hcount : object.writersCount + 1 =
              recorded n (Function.update object.writersRecord idx true) := Registered.count hA
          have hle := recorded_le (n := n) (Function.update object.writersRecord idx true)
          omega
      | critic => exact Or.inr trivial
  | record =>
      injection hf with hf
      subst hf
      cases u with
      | writer j => exact Or.inl (waits_congr (hwriter j rfl) rfl)
      | critic => exact Or.inr trivial
  | full =>
      injection hf with hf
      subst hf
      have hn : object.numWriters = n := Registered.numWriters hA
      cases u with
      | writer j => exact Or.inl (hwriter j rfl)
      | critic =>
          show object.writersCount ≠ n ∨ pending c .critic (.writer idx)
            ⟨i, if object.writersCount = object.numWriters then .broadcast else .store⟩
          rw [hn]
          by_cases hc : object.writersCount = n
          · rw [if_pos hc]
            exact Or.inr trivial
          · exact Or.inl hc
  | wait | broadcast | unlock | reset | clear | save => cases hf

/-- A statement of the critic. -/
theorem wakes_critic (hn : 0 < n) {c : Unit} {u : Worker n} {l : Loc} {object : ConcurrentObject}
    {o : Log R n} {f : ℤ → ConcurrentObject → ConcurrentObject × List Line × Loc} (v : ℤ)
    (hf : criticThread l = .act f) (hA : assertion .critic l object o)
    (h : waits c u object ∨ pending c u .critic l) :
    waits c u (f v object).1 ∨ pending c u .critic (f v object).2.2 := by
  obtain ⟨i, p⟩ := l
  have hcritic : u = .critic → waits c u object := by
    rintro rfl
    exact h.resolve_right id
  cases p with
  | test =>
      injection hf with hf
      subst hf
      refine Or.inl (h.resolve_right fun hpend => ?_)
      cases u <;> exact hpend
  | reset =>
      injection hf with hf
      subst hf
      cases u with
      | writer j => exact Or.inr trivial
      | critic =>
          refine Or.inl fun h0 => ?_
          have h0 : (0 : ℤ) = n := h0
          omega
  | clear k =>
      injection hf with hf
      subst hf
      cases u with
      | writer j =>
          apply Or.inr
          by_cases hk : k < object.numWriters
          · simp only [if_pos hk]
            trivial
          · simp only [if_neg hk]
            trivial
      | critic =>
          refine Or.inl (waits_congr (hcritic rfl) ?_)
          by_cases hk : k < object.numWriters <;> simp [hk]
  | save =>
      injection hf with hf
      subst hf
      cases u with
      | writer j => exact Or.inr trivial
      | critic => exact Or.inl (hcritic rfl)
  | lock | wait | check | count | record | full | broadcast | store | print | unlock => cases hf

theorem wakes (hn : 0 < n) :
    (threads readerRuns writerRuns).Wakes (assertion (R := R)) waits pending where
  setCount k h := waits_congr h rfl
  reading {st} hst {c u object} i h := by
    obtain rfl := List.mem_singleton.1 hst
    exact h
  wait {c u l next object o} hi h := by
    obtain ⟨i, p⟩ := l
    obtain rfl : p = .wait := (place_of_wait hi).1
    cases u <;> exact h.2
  giveUp {c u v l object o} hp h := by
    refine ⟨fun next hi => (pending_place hp).1 (place_of_unlock hi), fun c' next hi => ?_⟩
    exact (pending_place hp).2 (place_of_wait hi).1
  broadcast _ hne := absurd rfl hne
  act {c u v l f object o} i hi hA h := by
    cases v with
    | writer idx => exact wakes_writer i hi hA h
    | critic => exact wakes_critic hn i hi hA h

/-! ### Progress -/

/-- A writer has made its runs. -/
def WriterFinished (writerRuns : Fin n → ℕ) (idx : Fin n)
    (s : Lightswitch.St R (Worker n) ConcurrentObject Loc Mutex Unit Line) : Prop :=
  ∃ k, writerRuns idx ≤ k ∧ s.ctrl (.inr (.writer idx)) = .run (.inr ⟨k, .lock⟩)

/-- The places of the code of a thread. -/
def OnCode : Worker n → Place → Prop
  | .writer _, p => match p with
    | .reset | .clear _ | .save => False
    | _ => True
  | .critic, p => match p with
    | .check | .count | .record | .full | .store | .print => False
    | _ => True

theorem onCode_next {u : Worker n} {l l' : Loc} (_ : OnCode u l.place)
    (h : ((threads readerRuns writerRuns).code u l).Next l') : OnCode u l'.place := by
  obtain ⟨i, p⟩ := l
  cases u with
  | writer idx =>
      cases p with
      | lock =>
          simp only [threads, writerThread] at h
          split at h
          · exact h ▸ trivial
          · exact h.elim
      | test | check | full =>
          obtain ⟨v, object, rfl⟩ := h
          show OnCode _ (if _ then _ else _)
          split <;> trivial
      | count | record | store | print =>
          obtain ⟨v, object, rfl⟩ := h
          trivial
      | wait | broadcast | unlock => exact h ▸ trivial
      | reset | clear | save => exact h.elim
  | critic =>
      cases p with
      | lock | wait | broadcast | unlock => exact h ▸ trivial
      | test =>
          obtain ⟨v, object, rfl⟩ := h
          show OnCode _ (if _ then _ else _)
          split <;> trivial
      | reset | save =>
          obtain ⟨v, object, rfl⟩ := h
          trivial
      | clear k =>
          obtain ⟨v, object, rfl⟩ := h
          by_cases hk : k < object.numWriters
          · simp only [if_pos hk]
            trivial
          · simp only [if_neg hk]
            trivial
      | check | count | record | full | store | print => exact h.elim

variable [DecidableEq R] {s : Lightswitch.St R (Worker n) ConcurrentObject Loc Mutex Unit Line}
  {initialData : ℤ} {cells : ℕ → Bool}

theorem onCode (h : Reachable (Step (threads readerRuns writerRuns).program)
      ((threads readerRuns writerRuns).program.init (allocateObject initialData n cells)) s)
    {u : Worker n} {l : Loc} (hc : s.ctrl (.inr u) = .run (.inr l)) : OnCode u l.place := by
  refine Lightswitch.other_loc (Q := fun u l => OnCode u l.place) (fun u => ?_)
    (fun _ _ _ => onCode_next) h (by rw [hc]; rfl)
  cases u <;> trivial

/-- A writer whose code has ended has made its runs. -/
theorem writerFinished_of_end {idx : Fin n}
    (h : Reachable (Step (threads readerRuns writerRuns).program)
      ((threads readerRuns writerRuns).program.init (allocateObject initialData n cells)) s)
    (hfin : (threads readerRuns writerRuns).OtherFinished (.writer idx) s) :
    WriterFinished writerRuns idx s := by
  obtain ⟨⟨k, p⟩, hi, hc⟩ := hfin
  have hp := onCode h hc
  cases p with
  | lock =>
      refine ⟨k, not_lt.1 fun hk => ?_, hc⟩
      rw [show (threads readerRuns writerRuns).code (.writer idx) ⟨k, .lock⟩ = _ from if_pos hk] at hi
      cases hi
  | reset | clear | save => exact hp.elim
  | _ => cases hi

/-- The code of the critic does not end. -/
theorem critic_not_finished
    (h : Reachable (Step (threads readerRuns writerRuns).program)
      ((threads readerRuns writerRuns).program.init (allocateObject initialData n cells)) s) :
    ¬ (threads readerRuns writerRuns).OtherFinished .critic s := by
  rintro ⟨⟨k, p⟩, hi, hc⟩
  have hp := onCode h hc
  cases p with
  | check | count | record | full | store | print => exact hp.elim
  | _ => cases hi

/-- As long as some reader or writer has not made its runs some thread can move without a spurious
wake-up. -/
theorem rounds_progress [Fintype R] (hn : 0 < n)
    (h : Reachable (Step (threads readerRuns writerRuns).program)
      ((threads readerRuns writerRuns).program.init (allocateObject initialData n cells)) s)
    (ht : (∃ r, ¬ (threads readerRuns writerRuns).ReaderFinished r s) ∨
      ∃ idx, ¬ WriterFinished writerRuns idx s) :
    Progresses (threads readerRuns writerRuns).program s := by
  by_contra hp
  have hI := Lightswitch.inv_of_reachable lawful rfl h
  have hw := Lightswitch.sleepersWait_of_reachable lawful (protects hn) (wakes hn) rfl
    (round_init hn initialData cells) h
  obtain ⟨-, hroom, hr, hu⟩ := hI.stuck lawful hp
  have hwaits : ∀ u, (threads readerRuns writerRuns).Asleep () u s → waits () u s.data :=
    fun u => hI.sleeper_of_free hw fun v => by rw [hroom]; exact (Option.some_ne_none _).symm
  have hcritic : waits () (.critic : Worker n) s.data := by
    obtain ⟨⟨⟩, hcritic⟩ := (hu .critic).resolve_left (critic_not_finished h)
    exact hwaits _ hcritic
  rcases ht with ⟨r, hne⟩ | ⟨idx, hne⟩
  · exact hne (hr r)
  · obtain ⟨⟨⟩, hidx⟩ := (hu (.writer idx)).resolve_left fun hfin => hne (writerFinished_of_end h hfin)
    exact hcritic (hwaits _ hidx)

/-- The threads of `main`, with the critic asleep, a writer in possession of `writer_mutex`, and a
reader that waits for it and keeps the others from entering. -/
theorem rounds_progress_main :
    ∃ s : Lightswitch.St (Fin 200) (Worker 100) ConcurrentObject Loc Mutex Unit Line,
      (threads (fun _ : Fin 200 => 14) fun _ : Fin 100 => 11).Asleep () .critic s ∧
      s.owner .writerMutex = some (.inr (.writer 0)) ∧ s.ctrl (.inl 0) = .run (.inl ⟨0, .room⟩) ∧
      s.owner .readerMutex = some (.inl 0) ∧
      Progresses (threads (fun _ : Fin 200 => 14) fun _ : Fin 100 => 11).program s := by
  let S := threads (fun _ : Fin 200 => 14) fun _ : Fin 100 => 11
  let ls : List (Event (Fin 200 ⊕ Worker 100)) :=
    List.replicate 3 (.exec (.inr .critic) 0) ++ List.replicate 3 (.exec (.inl 0) 0) ++
      [.exec (.inr (.writer 0)) 7]
  have hs : (replay (exec S.program) ls (S.program.init (allocateObject 0 100 fun _ => true))).isSome :=
    rfl
  refine ⟨(replay _ ls _).get hs, ⟨_, rfl⟩, rfl, rfl, rfl, rounds_progress (by decide)
    (reachable_of_replay (fun _ _ _ => step_of_exec) (Option.some_get hs).symm) (Or.inl ⟨0, ?_⟩)⟩
  rintro ⟨k, -, hc⟩
  cases hc

end Task4
