import SystemsProgramming.Library.Lightswitch

/-!
# Progress of the first-in, last-out hand-over

When no step but a spurious wake-up is possible, both mutexes are free, every reader has finished,
and each other thread is at the end of its code or asleep (`Lightswitch.Inv.stuck`).  Whether the
sleeping threads really have to wait is the matter of `Wakes`: a thread that ends the reason to wait
is about to broadcast.
-/

namespace Pthread

open Transition

namespace Lightswitch

variable {R U D L M C O : Type} (S : Lightswitch R U D L M C O)

/-- A reader has made its runs. -/
def ReaderFinished (r : R) (s : St R U D L M C O) : Prop :=
  ∃ n, S.runs r ≤ n ∧ s.ctrl (.inl r) = .run (.inl ⟨n, .enter⟩)

/-- Another thread is at the end of its code. -/
def OtherFinished (u : U) (s : St R U D L M C O) : Prop :=
  ∃ l, S.code u l = .exit ∧ s.ctrl (.inr u) = .run (.inr l)

/-- Another thread sleeps on `c`. -/
def Asleep (c : C) (u : U) (s : St R U D L M C O) : Prop :=
  ∃ next, s.ctrl (.inr u) = .asleep c S.room (.inr next)

variable {S} {crit : U → L → Prop} [DecidableEq R] [DecidableEq U] [DecidableEq M] [DecidableEq C]
  {s s' : St R U D L M C O} {r : R} {u : U}

omit [DecidableEq R] [DecidableEq U] [DecidableEq M] [DecidableEq C] in
/-- A reader that has made its runs has returned. -/
theorem ReaderFinished.returned (h : S.ReaderFinished r s) :
    S.program.returned s (.inl r) = true := by
  obtain ⟨n, hn, hc⟩ := h
  exact Program.returned_iff.2
    ⟨_, hc, by simp [program, readerCode, Instr.map, not_lt.2 hn]⟩

omit [DecidableEq R] [DecidableEq U] [DecidableEq M] [DecidableEq C] in
/-- So has another thread at the end of its code. -/
theorem OtherFinished.returned (h : S.OtherFinished u s) :
    S.program.returned s (.inr u) = true := by
  obtain ⟨l, hexit, hc⟩ := h
  exact Program.returned_iff.2 ⟨_, hc, by simp [program, hexit, Instr.map]⟩

theorem progresses_of_exec {e : Event (R ⊕ U)} (he : ¬ e.Spurious)
    (h : (exec S.program s e).isSome) : Progresses S.program s :=
  ⟨e, (exec S.program s e).get h, he, step_of_exec (Option.some_get h).symm⟩

/-- A reader moves on unless it has finished or waits for a mutex. -/
theorem reader_progresses {l : RLoc} (hc : s.ctrl (.inl r) = .run (.inl l))
    (henter : l.place = .enter → l.i < S.runs r ∧ s.owner S.door = none)
    (hroom : l.place = .room → s.owner S.room = none)
    (hread : ∀ k, l.place = .read k → S.reading[k]? = none → s.owner S.door = none) :
    Progresses S.program s := by
  apply progresses_of_exec (e := .exec (.inl r) 0) id
  obtain ⟨n, p⟩ := l
  cases p with
  | enter => rw [exec_enter hc, if_pos (henter rfl)]; rfl
  | arrive => rw [exec_arrive hc]; rfl
  | first => rw [exec_first hc]; rfl
  | room => rw [exec_room hc, if_pos (hroom rfl)]; rfl
  | proceed => rw [exec_proceed hc]; rfl
  | read k =>
      cases hk : S.reading[k]? with
      | some st => rw [exec_read hc hk]; rfl
      | none => rw [exec_reenter hc hk, if_pos (hread k rfl hk)]; rfl
  | depart => rw [exec_depart hc]; rfl
  | last => rw [exec_last hc]; rfl
  | release => rw [exec_release hc]; rfl
  | leave => rw [exec_leave hc]; rfl

/-- A running thread moves on unless it has finished or waits for the room. -/
theorem other_progresses (hS : S.Lawful crit) {l : L} (hc : s.ctrl (.inr u) = .run (.inr l))
    (hexit : S.code u l ≠ .exit) (hroom : ¬ crit u l → s.owner S.room = none) :
    Progresses S.program s := by
  apply progresses_of_exec (e := .exec (.inr u) 0) id
  have hg := hS.guarded u l
  cases hi : S.code u l with
  | lock m next =>
      rw [hi] at hg
      obtain ⟨rfl, hl, -⟩ := hg
      simp [exec, hc, program, hi, Instr.map, hroom hl]
  | tryLock m taken refused =>
      rw [hi] at hg
      exact hg.elim
  | unlock | wait | broadcast | act => simp [exec, hc, program, hi, Instr.map]
  | exit => exact absurd hi hexit

/-- The room is not held by another thread when nothing moves. -/
theorem Inv.not_held_of_stuck [Fintype R] (hI : S.Inv crit s) (hS : S.Lawful crit)
    (hp : ¬ Progresses S.program s) : s.owner S.room ≠ some (.inr u) := by
  intro ho
  obtain ⟨l, hc, hl⟩ := (hI.crit u).1 ho
  refine hp (other_progresses hS hc (fun hexit => ?_) fun hnl => absurd hl hnl)
  have hg := hS.guarded u l
  rw [hexit] at hg
  exact hg hl

/-- The one at the door moves on if it does not wait for the room. -/
theorem Inv.door_free_of_stuck [Fintype R] (hI : S.Inv crit s) (hS : S.Lawful crit)
    (hp : ¬ Progresses S.program s) : s.owner S.door = none := by
  by_contra ho
  obtain ⟨t, ho⟩ := Option.ne_none_iff_exists'.1 ho
  cases t with
  | inr u => exact hI.door u ho
  | inl v =>
      have hdoor : RPlace.turnstile.door (place s v) = true := by
        rw [← hI.book.door v, ho]
        rfl
      obtain ⟨⟨n, p⟩, hc⟩ := hI.readers v
      rw [place_of hc] at hdoor
      refine hp (reader_progresses hc (fun h => ?_) (fun h => ?_) fun k h => ?_)
      · rw [h] at hdoor
        cases hdoor
      · -- the first reader waits for the room, so no reader is inside and nobody holds it
        have hplace : place s v = .room := (place_of hc).trans h
        have hcount : S.count s.data = 1 := hI.book.knows_at hplace
        have hheld := hI.book.held_iff hplace rfl
        by_contra hroom
        obtain ⟨t, hroom⟩ := Option.ne_none_iff_exists'.1 hroom
        cases t with
        | inr u => exact hI.not_held_of_stuck hS hp hroom
        | inl w =>
            rcases hheld.1 ⟨w, hroom⟩ with hin | hne
            · cases hin
            · exact hne hcount
      · rw [h] at hdoor
        cases hdoor

theorem Inv.room_free_of_stuck [Fintype R] (hI : S.Inv crit s) (hS : S.Lawful crit)
    (hp : ¬ Progresses S.program s) : s.owner S.room = none := by
  have hdoor := hI.door_free_of_stuck hS hp
  by_contra ho
  obtain ⟨t, ho⟩ := Option.ne_none_iff_exists'.1 ho
  cases t with
  | inr u => exact hI.not_held_of_stuck hS hp ho
  | inl w =>
      obtain ⟨v, hv⟩ := hI.book.room.1 ⟨w, ho⟩
      obtain ⟨⟨n, p⟩, hc⟩ := hI.readers v
      rw [place_of hc] at hv
      refine hp (reader_progresses hc (fun h => ?_) (fun h => ?_) fun _ _ _ => hdoor)
      · rw [h] at hv
        cases hv
      · rw [h] at hv
        cases hv

/-- Without progress both mutexes are free, all readers have finished, and each other thread has
finished or sleeps. -/
theorem Inv.stuck [Fintype R] (hI : S.Inv crit s) (hS : S.Lawful crit)
    (hp : ¬ Progresses S.program s) :
    s.owner S.door = none ∧ s.owner S.room = none ∧ (∀ r, S.ReaderFinished r s) ∧
      ∀ u, S.OtherFinished u s ∨ ∃ c, S.Asleep c u s := by
  have hdoor := hI.door_free_of_stuck hS hp
  have hroom := hI.room_free_of_stuck hS hp
  refine ⟨hdoor, hroom, fun r => ?_, fun u => ?_⟩
  · obtain ⟨⟨n, p⟩, hc⟩ := hI.readers r
    by_contra hr
    refine hp (reader_progresses hc (fun h => ⟨?_, hdoor⟩) (fun _ => hroom) fun _ _ _ => hdoor)
    by_contra hn
    obtain rfl : p = .enter := h
    exact hr ⟨n, not_lt.1 hn, hc⟩
  · rcases hI.others u with ⟨l, hc⟩ | ⟨l, c, next, -, hc | hc⟩
    · by_contra hu
      refine hp (other_progresses hS hc (fun hexit => ?_) fun _ => hroom)
      exact hu (Or.inl ⟨l, hexit, hc⟩)
    · exact Or.inr ⟨c, next, hc⟩
    · refine absurd (progresses_of_exec (e := .resume (.inr u)) id ?_) hp
      simp [exec, hc, hroom]

omit [DecidableEq R] [DecidableEq U] [DecidableEq M] [DecidableEq C] in
/-- With all readers away and no other thread in its critical section nothing is held and nobody is
counted. -/
theorem Inv.at_rest [Fintype R] (hI : S.Inv crit s) (hr : ∀ r, place s r = .enter)
    (hu : ∀ u, ¬ InCrit (crit u) (s.ctrl (.inr u))) :
    S.count s.data = 0 ∧ s.owner S.door = none ∧ s.owner S.room = none := by
  refine ⟨?_, ?_, ?_⟩
  · apply hI.book.count.trans
    rw [Turnstile.countedSum, tally_eq_zero_iff.2 fun r => by rw [hr r]; rfl]
    rfl
  · by_contra ho
    obtain ⟨t, ho⟩ := Option.ne_none_iff_exists'.1 ho
    cases t with
    | inl r =>
        have hd := (hI.book.door r).1 (by rw [ho]; rfl)
        rw [hr r] at hd
        cases hd
    | inr u => exact hI.door u ho
  · by_contra ho
    obtain ⟨t, ho⟩ := Option.ne_none_iff_exists'.1 ho
    cases t with
    | inl r =>
        obtain ⟨v, hv⟩ := hI.book.room.1 ⟨r, ho⟩
        rw [hr v] at hv
        cases hv
    | inr u => exact hu u ((hI.crit u).1 ho)

/-! ### Locations of the other threads -/

omit [DecidableEq M] [DecidableEq C] in
theorem next_map {L' L'' : Type} {g : L' → L''} {ins : Instr D L' M C O} {l : L''}
    (h : (ins.map g).Next l) : ∃ l', ins.Next l' ∧ l = g l' := by
  cases ins with
  | lock | unlock | wait | broadcast => exact ⟨_, rfl, h⟩
  | tryLock m taken refused =>
      rcases h with h | h
      · exact ⟨taken, Or.inl rfl, h⟩
      · exact ⟨refused, Or.inr rfl, h⟩
  | act f =>
      obtain ⟨i, d, h⟩ := h
      exact ⟨_, ⟨i, d, rfl⟩, h⟩
  | exit => exact h.elim

/-- What holds of the entries of the other threads and is kept along their code. -/
theorem other_loc {Q : U → L → Prop} (hentry : ∀ u, Q u (S.entry u))
    (hnext : ∀ u l l', Q u l → (S.code u l).Next l' → Q u l') {d₀ : D}
    (h : Reachable (Step S.program) (S.program.init d₀) s) {l : L}
    (hc : (s.ctrl (.inr u)).loc = .inr l) : Q u l := by
  refine loc_invariant (Q := fun t k => ∀ u l, t = .inr u → k = .inr l → Q u l) ?_ ?_ h _ u l rfl hc
  · rintro _ u l rfl hl
    obtain rfl : S.entry u = l := by simpa [program] using hl
    exact hentry u
  · rintro _ k _ hQ hk u l' rfl rfl
    cases k with
    | inl l => exact hk.elim
    | inr l =>
        obtain ⟨l'', hn, heq⟩ := next_map hk
        obtain rfl := Sum.inr.inj heq
        exact hnext u l l' (hQ u l rfl rfl) hn

/-! ### Sleeping threads -/

/-- Thread `u` may sleep on `c` while `W c u` holds of the data, and at the locations `pending c u v`
of its critical section thread `v` is about to wake it. -/
structure Wakes (S : Lightswitch R U D L M C O) (A : U → L → D → List ((R ⊕ U) × O) → Prop)
    (W : C → U → D → Prop) (pending : C → U → U → L → Prop) : Prop where
  setCount : ∀ {c u d} k, W c u d → W c u (S.setCount d k)
  reading : ∀ {st}, st ∈ S.reading → ∀ {c u d} i, W c u d → W c u (st i d).1
  wait : ∀ {c u l next d o}, S.code u l = .wait c S.room next → A u l d o → W c u d
  giveUp : ∀ {c u v l d o}, pending c u v l → A v l d o →
    (∀ next, S.code v l ≠ .unlock S.room next) ∧ ∀ c' next, S.code v l ≠ .wait c' S.room next
  broadcast : ∀ {c c' u v l next}, S.code v l = .broadcast c' next → c ≠ c' → pending c u v l →
    pending c u v next
  act : ∀ {c u v l f d o} i, S.code v l = .act f → A v l d o → (W c u d ∨ pending c u v l) →
    W c u (f i d).1 ∨ pending c u v (f i d).2.2

/-- A sleeping thread has to wait, or the one in its critical section is about to wake it. -/
def SleepersWait (S : Lightswitch R U D L M C O) (crit : U → L → Prop) (W : C → U → D → Prop)
    (pending : C → U → U → L → Prop) (s : St R U D L M C O) : Prop :=
  ∀ c u, S.Asleep c u s →
    W c u s.data ∨ ∃ v l, s.ctrl (.inr v) = .run (.inr l) ∧ crit v l ∧ pending c u v l

section Sleepers

variable [Fintype R] {J : D → List ((R ⊕ U) × O) → Prop}
  {A : U → L → D → List ((R ⊕ U) × O) → Prop} {W : C → U → D → Prop} {pending : C → U → U → L → Prop}
  {v : U} {k : Ctrl (RLoc ⊕ L) M C} {c : C}

omit [DecidableEq M] [DecidableEq C] [Fintype R] in
theorem asleep_setCtrl_of_ne (huv : u ≠ v) :
    S.Asleep c u (s.setCtrl (.inr v) k) ↔ S.Asleep c u s := by
  unfold Asleep
  rw [State.setCtrl_ctrl_of_ne (by simpa using huv)]

omit [DecidableEq M] [DecidableEq C] [Fintype R] in
/-- A thread that runs on or wakes up is not asleep; who is asleep after that was so before. -/
theorem asleep_of_setCtrl (hk : ∀ c m next, k ≠ .asleep c m next)
    (h : S.Asleep c u (s.setCtrl (.inr v) k)) : S.Asleep c u s := by
  have huv : u ≠ v := by
    rintro rfl
    obtain ⟨next, h⟩ := h
    rw [State.setCtrl_ctrl_self] at h
    exact hk _ _ _ h
  exact (asleep_setCtrl_of_ne huv).1 h

omit [DecidableEq M] [DecidableEq C] [Fintype R] in
theorem asleep_of_run {l : RLoc ⊕ L} (h : S.Asleep c u (s.setCtrl (.inr v) (.run l))) :
    S.Asleep c u s :=
  asleep_of_setCtrl (fun _ _ _ h => by cases h) h

omit [DecidableEq M] [DecidableEq C] [Fintype R] in
theorem asleep_of_woken {m : M} {l : RLoc ⊕ L}
    (h : S.Asleep c u (s.setCtrl (.inr v) (.woken m l))) : S.Asleep c u s :=
  asleep_of_setCtrl (fun _ _ _ h => by cases h) h

omit [DecidableEq R] [DecidableEq U] [DecidableEq M] [DecidableEq C] in
/-- While thread `v` is in its critical section only it can be about to wake someone. -/
theorem Inv.sleeper (hI : S.Inv crit s) (hw : S.SleepersWait crit W pending s) {l : L}
    (hc : s.ctrl (.inr v) = .run (.inr l)) (hl : crit v l) (hu : S.Asleep c u s) :
    W c u s.data ∨ pending c u v l := by
  rcases hw c u hu with h | ⟨v', l', hc', hl', h⟩
  · exact Or.inl h
  · have howner := hI.owner_of_crit hc' hl'
    rw [hI.owner_of_crit hc hl] at howner
    obtain rfl : v = v' := by simpa using howner
    obtain rfl : l = l' := by simpa [hc] using hc'
    exact Or.inr h

omit [DecidableEq R] [DecidableEq U] [DecidableEq M] [DecidableEq C] in
/-- While the room is free every sleeping thread has to wait. -/
theorem Inv.sleeper_of_free (hI : S.Inv crit s) (hw : S.SleepersWait crit W pending s)
    (ho : ∀ v, s.owner S.room ≠ some (.inr v)) (hu : S.Asleep c u s) : W c u s.data :=
  (hw c u hu).resolve_right fun ⟨v, _, hc, hl, _⟩ => ho v (hI.owner_of_crit hc hl)

omit [DecidableEq M] [DecidableEq C] [Fintype R] [DecidableEq R] [DecidableEq U] in
theorem SleepersWait.init (d₀ : D) : S.SleepersWait crit W pending (S.program.init d₀) := by
  rintro c u ⟨next, h⟩
  cases h

theorem SleepersWait.step_reader (hI : S.Inv crit s) (hA : S.Wakes A W pending)
    (hw : S.SleepersWait crit W pending s) {i : ℤ}
    (h : exec S.program s (.exec (.inl r) i) = some s') : S.SleepersWait crit W pending s' := by
  obtain ⟨hctrl, heff⟩ := hI.reader_effect h
  have hdata : ∀ {c u}, W c u s.data → W c u s'.data := by
    intro c u hW
    rcases heff with ⟨hd, -⟩ | ⟨k, hd, -⟩ | ⟨k, st, hst, -, hd, -⟩
    · rwa [hd]
    · rw [hd]
      exact hA.setCount k hW
    · rw [hd]
      exact hA.reading hst i hW
  intro c u hu
  have hu : S.Asleep c u s := by
    unfold Asleep at hu ⊢
    rwa [hctrl] at hu
  rcases hw c u hu with hW | ⟨v, l, hc, hl, hpend⟩
  · exact Or.inl (hdata hW)
  · exact Or.inr ⟨v, l, (hctrl v).trans hc, hl, hpend⟩

theorem SleepersWait.step_other (hI : S.Inv crit s) (hP : S.Protected crit J A s)
    (hS : S.Lawful crit) (hA : S.Wakes A W pending) (hw : S.SleepersWait crit W pending s)
    (h : S.OtherStep v s s') : S.SleepersWait crit W pending s' := by
  -- a thread that locks the room finds it free
  have hfree : ∀ {c u next}, s.owner S.room = none →
      S.Asleep c u ((s.setOwner S.room (some (.inr v))).setCtrl (.inr v) (.run (.inr next))) →
      W c u s.data := by
    intro c u next ho hu
    have hnone : ∀ v, s.owner S.room ≠ some (.inr v) := fun v h => by cases ho.symm.trans h
    exact hI.sleeper_of_free hw hnone (asleep_of_run hu)
  cases h with
  | lock hc hi ho => exact fun c u hu => Or.inl (hfree ho hu)
  | resume hc hi ho => exact fun c u hu => Or.inl (hfree ho hu)
  | @unlock l next hc hi =>
      have hg := hS.guarded v l
      rw [hi] at hg
      intro c u hu
      refine Or.inl ((hI.sleeper hw hc hg.2.1 (asleep_of_run hu)).resolve_right ?_)
      exact fun hpend => (hA.giveUp hpend (hP.held v l hc hg.2.1)).1 _ hi
  | @wait l c' next hc hi =>
      have hg := hS.guarded v l
      rw [hi] at hg
      have hheld := hP.held v l hc hg.2.1
      intro c u hu
      by_cases huv : u = v
      · subst huv
        obtain ⟨next', h⟩ := hu
        obtain ⟨rfl, -⟩ : c' = c ∧ _ := by simpa using h
        exact Or.inl (hA.wait hi hheld)
      · refine Or.inl ((hI.sleeper hw hc hg.2.1 ((asleep_setCtrl_of_ne huv).1 hu)).resolve_right ?_)
        exact fun hpend => (hA.giveUp hpend hheld).2 _ _ hi
  | @broadcast l c' next hc hi =>
      have hg := hS.guarded v l
      rw [hi] at hg
      intro c u hu
      obtain ⟨next', hu⟩ := asleep_of_run hu
      rw [State.wakeAll_ctrl] at hu
      have hne : c ≠ c' ∧ S.Asleep c u s := by
        cases hk : s.ctrl (.inr u) with
        | asleep c'' m l' =>
            rw [hk, Ctrl.wake] at hu
            split at hu
            · cases hu
            · next hne =>
                obtain ⟨rfl, rfl, rfl⟩ : c'' = c ∧ m = S.room ∧ l' = _ := by simpa using hu
                exact ⟨hne, _, hk⟩
        | run l' => simp [hk, Ctrl.wake] at hu
        | woken m l' => simp [hk, Ctrl.wake] at hu
      refine (hI.sleeper hw hc hg.1 hne.2).imp id fun hpend => ?_
      exact ⟨v, next, State.setCtrl_ctrl_self, hg.2, hA.broadcast hi hne.1 hpend⟩
  | @act l f i hc hi =>
      have hg := hS.guarded v l
      rw [hi] at hg
      intro c u hu
      have hu : S.Asleep c u s := asleep_of_run hu
      have := hA.act i hi (hP.held v l hc hg.1) (hI.sleeper hw hc hg.1 hu)
      refine this.imp id fun hpend => ?_
      exact ⟨v, _, State.setCtrl_ctrl_self, (hg.2 i s.data).2, hpend⟩
  | @spurious l c' next hc hi =>
      intro c u hu
      rcases hw c u (asleep_of_woken hu) with hW | ⟨v', l', hc', hl', hpend⟩
      · exact Or.inl hW
      · have hv : v' ≠ v := by
          rintro rfl
          rw [hc] at hc'
          cases hc'
        exact Or.inr ⟨v', l', by rwa [State.setCtrl_ctrl_of_ne (by simpa using hv)], hl', hpend⟩

/-- Every sleeping thread has to wait, or is about to be woken. -/
theorem sleepersWait_of_reachable (hS : S.Lawful crit) (hJ : S.Protects J A)
    (hA : S.Wakes A W pending) {d₀ : D} (h₀ : S.count d₀ = 0) (hJ₀ : J d₀ [])
    (h : Reachable (Step S.program) (S.program.init d₀) s) : S.SleepersWait crit W pending s := by
  have hinit : S.Inv crit (S.program.init d₀) ∧ S.Protected crit J A (S.program.init d₀) ∧
      S.SleepersWait crit W pending (S.program.init d₀) :=
    ⟨inv_init hS h₀, protected_of_reachable hS hJ h₀ hJ₀ (.refl _), .init d₀⟩
  have := h.invariant (I := fun s => S.Inv crit s ∧ S.Protected crit J A s ∧
    S.SleepersWait crit W pending s) (fun s e s' hI hs => ?_) hinit
  · exact this.2.2
  · refine ⟨hI.1.step hS hs, hI.2.1.step hI.1 hS hJ hs, ?_⟩
    rcases hI.1.step_cases hS hs with ⟨r, i, h⟩ | ⟨v, h⟩
    · exact hI.2.2.step_reader hI.1 hA h
    · exact hI.2.2.step_other hI.1 hI.2.1 hS hA h

end Sleepers

end Lightswitch

end Pthread
