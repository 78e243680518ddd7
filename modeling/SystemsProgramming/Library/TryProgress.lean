import SystemsProgramming.Library.TryCalls

/-!
# Calls that can always be completed

The calls of a `TryLightswitch` are without loops, so a thread that is in a call comes to its end
unless it waits at a door, and who holds a door never waits.  From every reachable state the calls in
progress can therefore be completed, and then one thread after the other can make its calls alone,
which are not refused on an object that is usable (`can_finish`).  An object whose limit is zero cannot
be read at all (`not_returned_of_limit`).
-/

namespace Pthread

open Transition

variable {T X D O : Type}

/-- The thread is in no call. -/
def TryPlace.Rests : TryPlace X → Prop
  | .idle | .done => True
  | _ => False

theorem TryPlace.Rests.not_calls {p : TryPlace X} (h : p.Rests) (x : X) : ¬ p.Calls x := by
  cases p with
  | idle | done => exact id
  | _ => exact h.elim

namespace TryLightswitch

section Left

variable (S : TryLightswitch T X D O)

/-- The steps that a call has yet to take, at most. -/
def callLeft : TryPlace X → ℕ
  | .idle | .done => 0
  | .returned _ _ => 1
  | .tryWrite x => (S.writing x).length + 3
  | .writer x _ k => (S.writing x).length - k + 2
  | .reader x q =>
    match q with
    | .enter => (S.reading x).length + 12
    | .test => (S.reading x).length + 11
    | .tryRoom => (S.reading x).length + 10
    | .full => (S.reading x).length + 9
    | .arrive => (S.reading x).length + 8
    | .proceed => (S.reading x).length + 7
    | .read k => (S.reading x).length - k + 6
    | .depart => 5
    | .last => 4
    | .release => 3
    | .leave => 2
    | .refuse => 2

end Left

variable [DecidableEq T] [DecidableEq X] {S : TryLightswitch T X D O} {s s' s₁ : St T X D O} {t u : T}
  {n : ℕ} {x : X} {lim : Option ℤ} {l : TryLoc X} {p : TryPlace X}

/-- A thread in a call comes closer to its end with each step. -/
theorem Move.callLeft_lt (h : S.Move t n s p s') (hp : ¬ p.Rests) :
    S.callLeft (placeOf s' t) < S.callLeft p := by
  have hadmitted : ∀ x, S.callLeft (.reader x S.admitted) ≤ (S.reading x).length + 9 := by
    intro x
    rcases admitted_cases S with ha | ⟨ha, -⟩ <;> rw [ha] <;> simp [callLeft]
  cases h with
  | choose => exact absurd trivial hp
  | @test x =>
      rw [placeOf_setCtrl_self]
      have := hadmitted x
      by_cases h0 : S.count x s.data = 0
      · rw [if_pos h0]
        exact Nat.lt_succ_self _
      · rw [if_neg h0]
        exact lt_of_le_of_lt this (by simp [callLeft])
  | @takeRoom x =>
      rw [placeOf_setCtrl_self]
      exact lt_of_le_of_lt (hadmitted x) (Nat.lt_succ_self _)
  | full | last =>
      rw [placeOf_setCtrl_self]
      split <;> simp [callLeft]
  | read v hk =>
      have hk := (List.getElem?_eq_some_iff.1 hk).1
      rw [placeOf_setCtrl_self]
      simp only [callLeft]
      omega
  | write i hk =>
      have hk := (List.getElem?_eq_some_iff.1 hk).1
      rw [placeOf_setCtrl_self]
      simp only [callLeft]
      omega
  | _ =>
      rw [placeOf_setCtrl_self]
      simp only [callLeft]
      omega

/-! ### Doors -/

/-- The thread is at the door of `x`. -/
def AtDoor (x : X) (p : TryPlace X) : Prop := (turnstile none).door (p.readerOf x) = true

/-- All threads run, and a door is held by a thread that is at it. -/
structure Doors (s : St T X D O) : Prop where
  running : ∀ t, ∃ l, s.ctrl t = .run l
  door : ∀ x t, s.owner (.door x) = some t → AtDoor x (placeOf s t)

/-- A step of `t` that leaves the doors of the others alone. -/
theorem Doors.step_of (hD : Doors s) (hctrl : s₁.ctrl = s.ctrl)
    (hself : ∀ x, s₁.owner (.door x) = some t → AtDoor x l.place)
    (hothers : ∀ x u, u ≠ t → s₁.owner (.door x) = some u → s.owner (.door x) = some u) :
    Doors (s₁.setCtrl t (.run l)) where
  running u := by
    by_cases hu : u = t
    · exact ⟨l, by rw [hu, State.setCtrl_ctrl_self]⟩
    · rw [State.setCtrl_ctrl_of_ne hu, hctrl]
      exact hD.running u
  door y u ho := by
    by_cases hu : u = t
    · subst hu
      rw [placeOf_setCtrl_self]
      exact hself y ho
    · rw [placeOf_setCtrl_of_ne hu, placeOf, hctrl]
      exact hD.door y u (hothers y u hu ho)

/-- A step of `t` that touches no door. -/
theorem Doors.stay (hD : Doors s) (hctrl : s₁.ctrl = s.ctrl)
    (hdoor : ∀ x, s₁.owner (.door x) = s.owner (.door x))
    (hplace : ∀ x, AtDoor x (placeOf s t) → AtDoor x l.place) :
    Doors (s₁.setCtrl t (.run l)) := by
  refine hD.step_of hctrl (fun y ho => ?_) fun y u _ ho => ?_
  · rw [hdoor] at ho
    exact hplace y (hD.door y t ho)
  · rwa [hdoor] at ho

/-- A step of `t` that locks or unlocks a door. -/
theorem Doors.pass (hD : Doors s) {o : Option T} (hne : ∀ u, u ≠ t → o ≠ some u)
    (hself : o = some t → AtDoor x l.place)
    (hplace : ∀ y, y ≠ x → AtDoor y (placeOf s t) → AtDoor y l.place) :
    Doors ((s.setOwner (.door x) o).setCtrl t (.run l)) := by
  refine hD.step_of rfl (fun y ho => ?_) fun y u hu ho => ?_
  · by_cases hy : y = x
    · subst hy
      rw [State.setOwner_owner_self] at ho
      exact hself ho
    · rw [State.setOwner_owner, if_neg (by simpa using hy)] at ho
      exact hplace y hy (hD.door y t ho)
  · by_cases hy : y = x
    · subst hy
      rw [State.setOwner_owner_self] at ho
      exact absurd ho (hne u hu)
    · rwa [State.setOwner_owner, if_neg (by simpa using hy)] at ho

omit [DecidableEq T] in
theorem not_atDoor {y : X} (h : (turnstile none).door (p.readerOf y) = false) : ¬ AtDoor y p := by
  rw [AtDoor, h]
  exact Bool.false_ne_true

omit [DecidableEq T] in
theorem not_atDoor_of_rests (h : p.Rests) (y : X) : ¬ AtDoor y p :=
  not_atDoor (by rw [TryPlace.readerOf_eq_none (h.not_calls y)]; rfl)

omit [DecidableEq T] in
theorem atDoor_reader_iff {y : X} {q : TryRead} :
    AtDoor y (.reader x q) ↔ x = y ∧ (turnstile none).door (some q) = true := by
  by_cases hxy : x = y
  · rw [AtDoor, show (TryPlace.reader x q).readerOf y = some q from if_pos hxy]
    exact (and_iff_right hxy).symm
  · rw [AtDoor, show (TryPlace.reader x q).readerOf y = none from if_neg hxy]
    exact iff_of_false Bool.false_ne_true fun h => hxy h.1

omit [DecidableEq T] in
/-- From one place at the door to another. -/
theorem AtDoor.reader {y : X} {q q' : TryRead} (h : AtDoor y (.reader x q))
    (hq' : (turnstile none).door (some q') = true) : AtDoor y (.reader x q') :=
  atDoor_reader_iff.2 ⟨(atDoor_reader_iff.1 h).1, hq'⟩

omit [DecidableEq T] in
theorem not_atDoor_read {y : X} {k : ℕ} : ¬ AtDoor y (.reader x (.read k)) :=
  fun h => Bool.false_ne_true (atDoor_reader_iff.1 h).2

omit [DecidableEq T] in
theorem not_atDoor_of_ne {y : X} {q : TryRead} (hy : y ≠ x) : ¬ AtDoor y (.reader x q) :=
  fun h => hy (atDoor_reader_iff.1 h).1.symm

omit [DecidableEq T] [DecidableEq X] in
theorem door_admitted (S : TryLightswitch T X D O) :
    (turnstile none).door (some S.admitted) = true := by
  rcases admitted_cases S with ha | ⟨ha, -⟩ <;> rw [ha] <;> rfl

theorem Doors.move (hD : Doors s) (h : S.Move t n s (placeOf s t) s') : Doors s' := by
  have hroom : ∀ {y x : X} {o : Option T}, (s.setOwner (.room y) o).owner (.door x) =
      s.owner (.door x) := by
    intro y x o
    rw [State.setOwner_owner, if_neg (by simp)]
  generalize hp : placeOf s t = p at h
  have hstay : ∀ {l : TryLoc X}, (∀ y, AtDoor y p → AtDoor y l.place) →
      Doors (s.setCtrl t (.run l)) := fun h => hD.stay rfl (fun _ => rfl) (by rwa [hp])
  cases h with
  | choose v => exact hstay fun y hy => absurd hy (not_atDoor rfl)
  | again => exact hstay fun y hy => absurd hy (not_atDoor rfl)
  | deny => exact hstay fun y hy => absurd hy (not_atDoor rfl)
  | test | full | last =>
      refine hstay fun y hy => hy.reader ?_
      split <;> first | rfl | exact door_admitted S
  | reject => exact hstay fun y hy => hy.reader rfl
  | takeRoom =>
      refine hD.stay rfl (fun _ => hroom) fun y hy => ?_
      rw [hp] at hy
      exact hy.reader (door_admitted S)
  | release =>
      refine hD.stay rfl (fun _ => hroom) fun y hy => ?_
      rw [hp] at hy
      exact hy.reader rfl
  | begin | finish =>
      refine hD.stay rfl (fun _ => hroom) fun y hy => ?_
      rw [hp] at hy
      exact absurd hy (not_atDoor rfl)
  | arrive | depart =>
      refine hD.stay rfl (fun _ => rfl) fun y hy => ?_
      rw [hp] at hy
      exact hy.reader rfl
  | read =>
      refine hD.stay rfl (fun _ => rfl) fun y hy => ?_
      rw [hp] at hy
      exact absurd hy not_atDoor_read
  | write =>
      refine hD.stay rfl (fun _ => rfl) fun y hy => ?_
      rw [hp] at hy
      exact absurd hy (not_atDoor rfl)
  | enter | reenter =>
      refine hD.pass (fun u hu ho => hu (Option.some.inj ho).symm)
        (fun _ => atDoor_reader_iff.2 ⟨rfl, rfl⟩) fun y hne hy => ?_
      rw [hp] at hy
      exact absurd hy (not_atDoor_of_ne hne)
  | proceed | leave | refuse =>
      refine hD.pass (fun u _ ho => Option.some_ne_none u ho.symm)
        (fun ho => absurd ho.symm (Option.some_ne_none t)) fun y hne hy => ?_
      rw [hp] at hy
      exact absurd hy (not_atDoor_of_ne hne)

theorem doors_of_reachable {d₀ : D} (h : Reachable (Step S.program) (S.program.init d₀) s) :
    Doors s := by
  refine h.invariant (fun s e s' hD hs => ?_) ⟨fun t => ⟨_, rfl⟩, fun x t ho => ?_⟩
  · obtain ⟨n, hm⟩ := move_of_step hD.running hs
    exact hD.move hm
  · exact absurd ho.symm (Option.some_ne_none t)

/-! ### Completing the calls in progress -/

/-- A thread in a call can step, unless it waits at a door. -/
theorem step_of_free (hc : s.ctrl t = .run ⟨n, p⟩) (hp : ¬ p.Rests)
    (hfree : ∀ x, (p = .reader x .enter ∨ ∃ k, p = .reader x (.read k)) → s.owner (.door x) = none) :
    ∃ s', Step S.program s (.exec t 0) s' := by
  suffices h : (exec S.program s (.exec t 0)).isSome = true from
    ⟨_, step_of_exec (Option.some_get h).symm⟩
  cases p with
  | idle | done => exact absurd trivial hp
  | tryWrite x =>
      simp only [exec, hc, program, code]
      split <;> rfl
  | writer x v k => cases hk : (S.writing x)[k]? <;> simp [exec, hc, program, code, hk]
  | returned call ok => simp [exec, hc, program, code]
  | reader x q =>
      cases q with
      | enter => simp [exec, hc, program, code, readerCode, hfree x (Or.inl rfl)]
      | tryRoom =>
          simp only [exec, hc, program, code, readerCode]
          split <;> rfl
      | read k =>
          have hdoor := hfree x (Or.inr ⟨k, rfl⟩)
          cases hk : (S.reading x)[k]? <;> simp [exec, hc, program, code, readerCode, hk, hdoor]
      | _ => simp [exec, hc, program, code, readerCode]

/-- Somebody in a call can step, as long as somebody is in a call. -/
theorem Doors.exists_step (hD : Doors s) (ht : ¬ (placeOf s t).Rests) :
    ∃ u s', ¬ (placeOf s u).Rests ∧ Step S.program s (.exec u 0) s' := by
  by_cases hfree : ∀ x, (placeOf s t = .reader x .enter ∨ ∃ k, placeOf s t = .reader x (.read k)) →
      s.owner (.door x) = none
  · obtain ⟨⟨n, p⟩, hc⟩ := hD.running t
    have hp : placeOf s t = p := by rw [placeOf, hc]; rfl
    rw [hp] at ht hfree
    obtain ⟨s', hs⟩ := step_of_free (S := S) hc ht hfree
    exact ⟨t, s', by rwa [hp], hs⟩
  · -- the one who holds the door does not wait
    push Not at hfree
    obtain ⟨x, -, ho⟩ := hfree
    obtain ⟨u, ho⟩ := Option.ne_none_iff_exists'.1 ho
    have hu := hD.door x u ho
    obtain ⟨⟨n, p⟩, hc⟩ := hD.running u
    have hp : placeOf s u = p := by rw [placeOf, hc]; rfl
    rw [hp] at hu
    have hrests : ¬ p.Rests := fun hr => not_atDoor_of_rests hr x hu
    have hplace : ∀ y, ¬ (p = .reader y .enter ∨ ∃ k, p = .reader y (.read k)) := by
      rintro y (rfl | ⟨k, rfl⟩)
      · exact Bool.false_ne_true (atDoor_reader_iff.1 hu).2
      · exact not_atDoor_read hu
    obtain ⟨s', hs⟩ := step_of_free (S := S) hc hrests fun y hy => absurd hy (hplace y)
    exact ⟨u, s', by rwa [hp], hs⟩

/-- No call is in progress. -/
def Quiescent (s : St T X D O) : Prop := ∀ t, (placeOf s t).Rests

variable [Fintype T] {d₀ : D}

theorem Move.sum_callLeft_lt (h : S.Move t n s (placeOf s t) s') (ht : ¬ (placeOf s t).Rests) :
    ∑ u, S.callLeft (placeOf s' u) < ∑ u, S.callLeft (placeOf s u) := by
  refine Finset.sum_lt_sum (fun u _ => ?_) ⟨t, Finset.mem_univ t, h.callLeft_lt ht⟩
  by_cases hu : u = t
  · rw [hu]
    exact (h.callLeft_lt ht).le
  · rw [placeOf, h.ctrl_of_ne hu, placeOf]

/-- The calls in progress can be completed. -/
theorem exists_quiescent (h : Reachable (Step S.program) (S.program.init d₀) s) :
    ∃ s', Reachable (Step S.program) s s' ∧ Quiescent s' := by
  have hmeasure : ∃ s', Reachable (Step S.program) s s' ∧
      Reachable (Step S.program) (S.program.init d₀) s' ∧ Quiescent s' := by
    refine exists_reachable_of_measure (fun s => ∑ u, S.callLeft (placeOf s u)) (fun s h hq => ?_) h
    have hD := doors_of_reachable h
    obtain ⟨t, ht⟩ := not_forall.1 hq
    obtain ⟨u, s', hu, hs⟩ := hD.exists_step ht
    obtain ⟨n, hm⟩ := move_of_step hD.running hs
    exact ⟨s', reachable_of_step hs, h.trans (reachable_of_step hs), hm.sum_callLeft_lt hu⟩
  obtain ⟨s', hs, -, hq⟩ := hmeasure
  exact ⟨s', hs, hq⟩

/-! ### A call alone -/

/-- The thread is in a call on `x` that has not been refused. -/
def Welcome (x : X) : TryPlace X → Prop
  | .reader y q => y = x ∧ q ≠ .refuse
  | .tryWrite y => y = x
  | .writer y _ _ => y = x
  | .returned _ ok => ok = true
  | _ => False

omit [DecidableEq T] in
/-- A thread that is alone finds the room of an object free, unless it holds it. -/
theorem Inv.room_free (hI : S.Inv x lim s) (hrest : ∀ u, u ≠ t → (placeOf s u).Rests)
    (hw : ¬ (placeOf s t).Writes x) (hin : ¬ Inside x s t) : s.owner (.room x) = none := by
  by_contra ho
  rcases hI.room_cases ho with ⟨u, hu⟩ | ⟨u, hu⟩
  · by_cases hut : u = t
    · exact hw (hut ▸ hu)
    · exact (hrest u hut).not_calls x hu.calls
  · by_cases hut : u = t
    · exact hin (hut ▸ hu)
    · unfold Inside readers at hu
      rw [TryPlace.readerOf_eq_none ((hrest u hut).not_calls x)] at hu
      cases hu

omit [DecidableEq T] in
/-- And nobody counted. -/
theorem Inv.count_zero (hI : S.Inv x lim s) (hrest : ∀ u, u ≠ t → (placeOf s u).Rests)
    (hin : ¬ CountedIn x s t) : S.count x s.data = 0 := by
  have hempty : {u | CountedIn x s u} = ∅ := by
    refine Set.eq_empty_iff_forall_notMem.2 fun u hu => ?_
    by_cases hut : u = t
    · exact hin (hut ▸ hu)
    · have hu : CountedIn x s u := hu
      unfold CountedIn readers at hu
      rw [TryPlace.readerOf_eq_none ((hrest u hut).not_calls x)] at hu
      cases hu
  rw [hI.count_eq, hempty, Set.ncard_empty]
  rfl

/-- A call of a thread that is alone goes on, and it succeeds at its end. -/
theorem Inv.welcome_move (hI : S.Inv x lim s) (hlim : lim = some 0 → ∀ q, p ≠ .reader x q)
    (hrest : ∀ u, u ≠ t → (placeOf s u).Rests) (hp : placeOf s t = p) (hw : Welcome x p)
    (h : S.Move t n s p s') :
    (∃ p', s'.ctrl t = .run ⟨n, p'⟩ ∧ Welcome x p') ∨ s'.ctrl t = .run ⟨n + 1, .idle⟩ := by
  have hto : ∀ {r : St T X D O} {p' : TryPlace X}, Welcome x p' →
      ∃ q, (r.setCtrl t (.run ⟨n, p'⟩)).ctrl t = .run ⟨n, q⟩ ∧ Welcome x q := fun h =>
    ⟨_, State.setCtrl_ctrl_self, h⟩
  have hadmitted : Welcome x (.reader x S.admitted) := by
    rcases admitted_cases S with ha | ⟨ha, -⟩ <;> rw [ha] <;> exact ⟨rfl, by decide⟩
  have hreaders : ∀ {q : TryRead}, p = .reader x q → readers x s t = some q := by
    rintro q rfl
    exact readers_of_place hp
  cases h with
  | choose => exact hw.elim
  | @test y =>
      obtain rfl := hw.1
      refine Or.inl (hto ?_)
      split
      · exact ⟨rfl, by decide⟩
      · exact hadmitted
  | takeRoom =>
      obtain rfl := hw.1
      exact Or.inl (hto hadmitted)
  | reject ho =>
      obtain rfl := hw.1
      refine absurd (hI.room_free hrest ?_ ?_) ho
      · rw [hp]
        exact id
      · unfold Inside
        rw [hreaders rfl]
        exact Bool.false_ne_true
  | full =>
      obtain rfl := hw.1
      have hzero : S.count _ s.data = 0 := hI.count_zero hrest (by
        unfold CountedIn
        rw [hreaders rfl]
        exact Bool.false_ne_true)
      have hne : lim ≠ some 0 := fun hl => hlim hl _ rfl
      rw [if_neg (by rwa [hI.limit, hzero])]
      exact Or.inl (hto ⟨rfl, by decide⟩)
  | last =>
      refine Or.inl (hto ⟨hw.1, ?_⟩)
      split <;> decide
  | refuse => exact absurd rfl hw.2
  | begin => exact Or.inl (hto hw)
  | deny ho =>
      obtain rfl := hw
      refine absurd (hI.room_free hrest ?_ ?_) ho
      · rw [hp]
        exact id
      · unfold Inside readers
        rw [hp]
        exact Bool.false_ne_true
  | again =>
      obtain rfl := hw
      exact Or.inr State.setCtrl_ctrl_self
  | leave => exact Or.inl (hto rfl)
  | finish => exact Or.inl (hto rfl)
  | write => exact Or.inl (hto hw)
  | enter | arrive | proceed | depart | release | reenter => exact Or.inl (hto ⟨hw.1, by decide⟩)
  | read => exact Or.inl (hto ⟨hw.1, nofun⟩)

/-- No thread ever reads. -/
def WritesOnly (S : TryLightswitch T X D O) : Prop := ∀ t i v x, S.next t i v ≠ some (.read x)

omit [Fintype T] in
theorem WritesOnly.not_reader (hw : S.WritesOnly)
    (h : Reachable (Step S.program) (S.program.init d₀) s) (t : T) (y : X) (q : TryRead) :
    placeOf s t ≠ .reader y q := by
  refine loc_invariant (P := S.program) (Q := fun _ l => ∀ y q, l.place ≠ .reader y q)
    (fun t y q => by simp [program]) (fun t l l' hl hnext => ?_) h t y q
  obtain ⟨i, p⟩ := l
  cases p with
  | done => exact hnext.elim
  | reader y q => exact absurd rfl (hl y q)
  | idle =>
      obtain ⟨v, d, rfl⟩ := hnext
      intro y q hq
      cases hcall : S.next t i v with
      | none => simp [hcall] at hq
      | some call =>
          cases call with
          | read x => exact absurd hcall (hw t i v x)
          | write x => simp [hcall, TryCall.start] at hq
  | returned call ok =>
      obtain ⟨v, d, rfl⟩ := hnext
      simp
  | tryWrite x => rcases hnext with rfl | rfl <;> simp
  | writer x v k =>
      cases hk : (S.writing x)[k]? with
      | some st =>
          simp only [program, code, hk] at hnext
          obtain ⟨v', d, rfl⟩ := hnext
          simp
      | none =>
          simp only [program, code, hk] at hnext
          obtain rfl := hnext
          simp

/-- A call on `x` of a thread that is alone is not refused: its limit is not zero, or nobody reads. -/
def Usable (S : TryLightswitch T X D O) (d₀ : D) (x : X) : Prop :=
  S.limitOf x d₀ ≠ some 0 ∨ S.WritesOnly

theorem Usable.inv (hS : S.Lawful) (h₀ : S.count x d₀ = 0) (hu : S.Usable d₀ x)
    (h : Reachable (Step S.program) (S.program.init d₀) s) : S.Inv x (S.limitOf x d₀) s := by
  have hboth : S.Inv x (S.limitOf x d₀) s ∧ Reachable (Step S.program) (S.program.init d₀) s := by
    refine h.invariant (I := fun s => S.Inv x (S.limitOf x d₀) s ∧
      Reachable (Step S.program) (S.program.init d₀) s) (fun s e s' hI hs => ?_)
      ⟨inv_init h₀ rfl, Reachable.refl _⟩
    refine ⟨hI.1.step hS hs fun hl htake => ?_, hI.2.trans (reachable_of_step hs)⟩
    exact (hu.resolve_left fun hne => hne hl).not_reader hI.2 _ _ _ htake.1
  exact hboth.1

/-- Where a thread alone is in a call on `x`, or back from it. -/
structure Lone (S : TryLightswitch T X D O) (d₀ : D) (c₀ : T → Ctrl (TryLoc X) (Gate X) Empty) (t : T)
    (n : ℕ) (x : X) (s : St T X D O) : Prop where
  reachable : Reachable (Step S.program) (S.program.init d₀) s
  self : (∃ p, s.ctrl t = .run ⟨n, p⟩ ∧ Welcome x p) ∨ s.ctrl t = .run ⟨n + 1, .idle⟩
  others : ∀ u, u ≠ t → s.ctrl u = c₀ u

/-- A thread that is alone can complete a call on a usable object. -/
theorem Lone.complete (hS : S.Lawful) (h₀ : S.count x d₀ = 0) (hx : S.Usable d₀ x)
    {c₀ : T → Ctrl (TryLoc X) (Gate X) Empty} (hrest : ∀ u, u ≠ t → (c₀ u).loc.place.Rests)
    (h : Lone S d₀ c₀ t n x s) :
    ∃ s', Reachable (Step S.program) s s' ∧ Lone S d₀ c₀ t n x s' ∧
      s'.ctrl t = .run ⟨n + 1, .idle⟩ := by
  refine exists_reachable_of_measure (fun s => S.callLeft (placeOf s t)) (fun s h hq => ?_) h
  obtain ⟨p, hc, hw⟩ := h.self.resolve_right hq
  have hp : placeOf s t = p := by rw [placeOf, hc]; rfl
  have hD := doors_of_reachable h.reachable
  have hI := hx.inv hS h₀ h.reachable
  have halone : ∀ u, u ≠ t → (placeOf s u).Rests := by
    intro u hu
    rw [placeOf, h.others u hu]
    exact hrest u hu
  have hne : ¬ p.Rests := by
    cases p with
    | idle | done => exact hw.elim
    | _ => exact id
  obtain ⟨s', hs⟩ := step_of_free (S := S) hc hne fun y hy => by
    -- nobody is at a door
    by_contra ho
    obtain ⟨u, ho⟩ := Option.ne_none_iff_exists'.1 ho
    have hu := hD.door y u ho
    by_cases hut : u = t
    · rw [hut, hp] at hu
      rcases hy with rfl | ⟨k, rfl⟩
      · exact Bool.false_ne_true (atDoor_reader_iff.1 hu).2
      · exact not_atDoor_read hu
    · exact not_atDoor_of_rests (halone u hut) y hu
  have hm := move_of_exec hc hs.exec_eq
  have hreader : S.limitOf x d₀ = some 0 → ∀ q, p ≠ .reader x q := fun hl q =>
    hp ▸ (hx.resolve_left fun hne => hne hl).not_reader h.reachable t x q
  exact ⟨s', reachable_of_step hs, ⟨h.reachable.trans (reachable_of_step hs),
    hI.welcome_move hreader halone hp hw hm, fun u hu => (hm.ctrl_of_ne hu).trans (h.others u hu)⟩,
    by rw [hp]; exact hm.callLeft_lt hne⟩

/-! ### All threads -/

/-- The calls and the end that a thread has before it. -/
def threadLeft (runs : ℕ) (l : TryLoc X) : ℕ :=
  match l.place with
  | .done => 0
  | _ => runs - l.i + 1

omit [DecidableEq X] in
theorem sum_threadLeft_lt {runs : T → ℕ} (hothers : ∀ u, u ≠ t → s'.ctrl u = s.ctrl u)
    (ht : threadLeft (runs t) (s'.ctrl t).loc < threadLeft (runs t) (s.ctrl t).loc) :
    ∑ u, threadLeft (runs u) (s'.ctrl u).loc < ∑ u, threadLeft (runs u) (s.ctrl u).loc := by
  refine Finset.sum_lt_sum (fun u _ => ?_) ⟨t, Finset.mem_univ t, ht⟩
  by_cases hu : u = t
  · rw [hu]
    exact ht.le
  · rw [hothers u hu]

/-- From every reachable state all threads can come to their end, when each of them has a way to make
its next call on a usable object. -/
theorem can_finish (hS : S.Lawful) (h₀ : ∀ x, S.count x d₀ = 0) {runs : T → ℕ}
    (hstop : ∀ t i v, runs t ≤ i → S.next t i v = none)
    (hgo : ∀ t i, i < runs t → ∃ v call x, S.next t i v = some call ∧ Welcome x call.start ∧
      S.Usable d₀ x)
    (h : Reachable (Step S.program) (S.program.init d₀) s) :
    ∃ s', Reachable (Step S.program) s s' ∧ ∀ t, S.program.returned s' t = true := by
  obtain ⟨s₁, hs₁, hquiet⟩ := exists_quiescent h
  have hdone : ∃ s', Reachable (Step S.program) s₁ s' ∧
      (Reachable (Step S.program) (S.program.init d₀) s' ∧ Quiescent s') ∧
        ∀ t, placeOf s' t = .done := by
    refine exists_reachable_of_measure (fun s => ∑ u, threadLeft (runs u) (s.ctrl u).loc)
      (fun s hs hq => ?_) ⟨h.trans hs₁, hquiet⟩
    obtain ⟨t, ht⟩ := not_forall.1 hq
    obtain ⟨⟨i, p⟩, hc⟩ := (doors_of_reachable hs.1).running t
    have hp : placeOf s t = p := by rw [placeOf, hc]; rfl
    obtain rfl : p = .idle := by
      have hrest := hs.2 t
      rw [hp] at hrest ht
      cases p with
      | idle => rfl
      | done => exact absurd rfl ht
      | _ => exact hrest.elim
    have hothers : ∀ {k : Ctrl (TryLoc X) (Gate X) Empty} u, u ≠ t →
        (s.setCtrl t k).ctrl u = s.ctrl u := fun u hu => State.setCtrl_ctrl_of_ne hu
    by_cases hi : i < runs t
    · obtain ⟨v, call, x, hnext, hw, hx⟩ := hgo t i hi
      have hstep : Step S.program s (.exec t v) (s.setCtrl t (.run ⟨i, call.start⟩)) :=
        step_of_exec (by simp [exec, hc, program, code, State.write_self, hnext])
      have hlone : Lone S d₀ s.ctrl t i x (s.setCtrl t (.run ⟨i, call.start⟩)) :=
        ⟨hs.1.trans (reachable_of_step hstep), Or.inl ⟨_, State.setCtrl_ctrl_self, hw⟩, hothers⟩
      obtain ⟨s', hs', hL, hc'⟩ := hlone.complete hS (h₀ x) hx fun u _ => hs.2 u
      refine ⟨s', (reachable_of_step hstep).trans hs', ⟨hL.reachable, fun u => ?_⟩,
        sum_threadLeft_lt hL.others ?_⟩
      · by_cases hu : u = t
        · rw [hu, placeOf, hc']
          trivial
        · rw [placeOf, hL.others u hu]
          exact hs.2 u
      · rw [hc', hc]
        simp only [threadLeft, Ctrl.loc_run]
        omega
    · have hnext := hstop t i 0 (not_lt.1 hi)
      have hstep : Step S.program s (.exec t 0) (s.setCtrl t (.run ⟨i, .done⟩)) :=
        step_of_exec (by simp [exec, hc, program, code, State.write_self, hnext])
      refine ⟨_, reachable_of_step hstep, ⟨hs.1.trans (reachable_of_step hstep), fun u => ?_⟩,
        sum_threadLeft_lt hothers ?_⟩
      · by_cases hu : u = t
        · rw [hu, placeOf_setCtrl_self]
          trivial
        · rw [placeOf_setCtrl_of_ne hu]
          exact hs.2 u
      · rw [State.setCtrl_ctrl_self, hc]
        exact Nat.succ_pos _
  obtain ⟨s', hs', hreach, hall⟩ := hdone
  refine ⟨s', hs₁.trans hs', fun t => ?_⟩
  obtain ⟨⟨i, p⟩, hc⟩ := (doors_of_reachable hreach.1).running t
  obtain rfl : p = .done := by
    have hp := hall t
    rwa [placeOf, hc] at hp
  exact Program.returned_iff.2 ⟨_, hc, rfl⟩

omit [DecidableEq T] [DecidableEq X] [Fintype T] in
/-- In a call the number of finished calls does not change. -/
theorem next_in_call {l' : TryLoc X} (hl : ¬ l.place.Rests)
    (hret : ∀ call ok, l.place ≠ .returned call ok) (h : (S.code t l).Next l') : l'.i = l.i ∧ ¬ l'.place.Rests := by
  obtain ⟨i, p⟩ := l
  cases p with
  | idle | done => exact absurd trivial hl
  | returned call ok => exact absurd rfl (hret call ok)
  | tryWrite x =>
      rcases h with rfl | rfl <;> exact ⟨rfl, id⟩
  | writer x v k =>
      cases hk : (S.writing x)[k]? with
      | some st =>
          simp only [code, hk] at h
          obtain ⟨v', d, rfl⟩ := h
          exact ⟨rfl, id⟩
      | none =>
          simp only [code, hk] at h
          obtain rfl := h
          exact ⟨rfl, id⟩
  | reader x q =>
      cases q with
      | read k =>
          cases hk : (S.reading x)[k]? with
          | some st =>
              simp only [code, readerCode, hk] at h
              obtain ⟨v', d, rfl⟩ := h
              exact ⟨rfl, id⟩
          | none =>
              simp only [code, readerCode, hk] at h
              obtain rfl := h
              exact ⟨rfl, id⟩
      | tryRoom => rcases h with rfl | rfl <;> exact ⟨rfl, id⟩
      | test | full | arrive | depart | last =>
          obtain ⟨v', d, rfl⟩ := h
          exact ⟨rfl, id⟩
      | enter | proceed | release | leave | refuse =>
          obtain rfl := h
          exact ⟨rfl, id⟩

/-- How far a thread is that makes `runs` successful calls. -/
def Within (runs : ℕ) (l : TryLoc X) : Prop :=
  match l.place with
  | .idle => l.i ≤ runs
  | .done => l.i = runs
  | _ => l.i < runs

theorem within_iff {X : Type} {runs : ℕ} {l : TryLoc X} (hl : ¬ l.place.Rests) :
    Within runs l ↔ l.i < runs := by
  obtain ⟨i, p⟩ := l
  cases p with
  | idle | done => exact absurd trivial hl
  | _ => rfl

omit [DecidableEq T] [Fintype T] [DecidableEq X] in
theorem Within.next {runs : ℕ} {l' : TryLoc X} (hstop : ∀ i v, S.next t i v = none ↔ runs ≤ i)
    (hl : Within runs l) (h : (S.code t l).Next l') : Within runs l' := by
  obtain ⟨i, p⟩ := l
  cases p with
  | done => exact h.elim
  | idle =>
      have hl : i ≤ runs := hl
      obtain ⟨v, d, rfl⟩ := h
      cases hcall : S.next t i v with
      | none =>
          have hend : i = runs := le_antisymm hl ((hstop i v).1 hcall)
          simpa [Within, hcall] using hend
      | some call =>
          have hlt : i < runs := by
            by_contra hi
            rw [(hstop i v).2 (not_lt.1 hi)] at hcall
            cases hcall
          cases call <;> simpa [Within, hcall, TryCall.start] using hlt
  | returned call ok =>
      have hl : i < runs := hl
      obtain ⟨v, d, rfl⟩ := h
      show (if ok then i + 1 else i) ≤ runs
      split <;> omega
  | reader | tryWrite | writer =>
      obtain ⟨hi, hrest⟩ := next_in_call id (by simp) h
      rw [within_iff hrest, hi]
      exact hl

omit [Fintype T] in
/-- A thread that is done has made its calls. -/
theorem ctrl_of_returned {runs : T → ℕ} (hstop : ∀ t i v, S.next t i v = none ↔ runs t ≤ i)
    (h : Reachable (Step S.program) (S.program.init d₀) s) (ht : S.program.returned s t = true) :
    s.ctrl t = .run ⟨runs t, .done⟩ := by
  have hwithin : Within (runs t) (s.ctrl t).loc :=
    loc_invariant (Q := fun t l => Within (runs t) l) (fun t => Nat.zero_le _)
      (fun t l l' hl hnext => hl.next (hstop t) hnext) h t
  obtain ⟨⟨i, p⟩, hc, hexit⟩ := Program.returned_iff.1 ht
  rw [hc] at hwithin ⊢
  obtain rfl : p = .done := by
    cases p with
    | done => rfl
    | idle | returned | tryWrite => cases hexit
    | writer x v k =>
        simp only [program, code] at hexit
        split at hexit <;> cases hexit
    | reader x q =>
        cases q with
        | read k =>
            simp only [program, code, readerCode] at hexit
            split at hexit <;> cases hexit
        | _ => cases hexit
  rw [show i = runs t from hwithin]

/-! ### An object whose limit is zero -/

/-- Whether a reader of `x` has been admitted. -/
def Admitted (x : X) : TryPlace X → Prop
  | .reader y q => y = x ∧ match q with
    | .enter | .test | .tryRoom | .full | .refuse => False
    | _ => True
  | .returned (.read y) ok => y = x ∧ ok = true
  | _ => False

/-- Nobody has been admitted to `x`, and nobody will be. -/
structure Closed (S : TryLightswitch T X D O) (x : X) (s : St T X D O) : Prop where
  running : ∀ t, ∃ l, s.ctrl t = .run l
  count : S.count x s.data = 0
  limit : S.limitOf x s.data = some 0
  nobody : ∀ t, ¬ Admitted x (placeOf s t)

omit [DecidableEq T] [DecidableEq X] [Fintype T] in
theorem admitted_eq_full {d : D} {c : ℤ} (h : S.limitOf x d = some c) : S.admitted = .full := by
  have hsome : S.limit.isSome = true := by
    unfold limitOf at h
    cases hl : S.limit with
    | none => simp [hl] at h
    | some f => rfl
  exact if_pos hsome

omit [Fintype T] in
theorem Move.running (h : S.Move t n s p s') : ∃ l, s'.ctrl t = .run l := by
  cases h <;> exact ⟨_, State.setCtrl_ctrl_self⟩

omit [Fintype T] in
/-- A reader of `x` is refused, since the limit is the number of readers. -/
theorem Closed.move (hC : Closed S x s) (hS : S.Lawful) (h : S.Move t n s (placeOf s t) s') :
    Closed S x s' := by
  have hnobody := hC.nobody t
  have hothers : ∀ {u}, u ≠ t → ¬ Admitted x (placeOf s' u) := by
    intro u hu
    rw [placeOf, h.ctrl_of_ne hu]
    exact hC.nobody u
  have hrunning : ∀ u, ∃ l, s'.ctrl u = .run l := by
    intro u
    by_cases hu : u = t
    · exact hu ▸ h.running
    · rw [h.ctrl_of_ne hu]
      exact hC.running u
  suffices hself : S.count x s'.data = 0 ∧ S.limitOf x s'.data = some 0 ∧
      ¬ Admitted x (placeOf s' t) from
    ⟨hrunning, hself.1, hself.2.1, fun u => by
      by_cases hu : u = t
      · exact hu ▸ hself.2.2
      · exact hothers hu⟩
  generalize hp : placeOf s t = p at h hnobody
  have hstay : ∀ {l : TryLoc X}, ¬ Admitted x l.place →
      ¬ Admitted x (placeOf (s.setCtrl t (.run l)) t) := by
    intro l hl
    rwa [placeOf_setCtrl_self]
  cases h with
  | choose v =>
      refine ⟨hC.count, hC.limit, hstay ?_⟩
      cases S.next t n v with
      | none => exact id
      | some call => cases call <;> simp [TryCall.start, Admitted]
  | @test y =>
      refine ⟨hC.count, hC.limit, hstay fun ha => ?_⟩
      obtain ⟨rfl, ha⟩ := ha
      rw [if_pos hC.count] at ha
      exact ha
  | @takeRoom y =>
      refine ⟨hC.count, hC.limit, ?_⟩
      rw [placeOf_setCtrl_self]
      rintro ⟨rfl, ha⟩
      rw [admitted_eq_full hC.limit] at ha
      exact ha
  | @full y =>
      refine ⟨hC.count, hC.limit, hstay fun ha => ?_⟩
      obtain ⟨rfl, ha⟩ := ha
      rw [if_pos (by rw [hC.limit, hC.count])] at ha
      exact ha
  | @arrive y =>
      have hy : y ≠ x := fun hy => hnobody ⟨hy, trivial⟩
      refine ⟨?_, ?_, ?_⟩
      · show S.count x (S.setCount _ _ _) = 0
        rw [hS.count_setCount, if_neg (Ne.symm hy)]
        exact hC.count
      · exact (hS.limit_setCount _ _ _ _).trans hC.limit
      · rw [placeOf_setCtrl_self]
        exact fun ha => hy ha.1
  | @depart y =>
      have hy : y ≠ x := fun hy => hnobody ⟨hy, trivial⟩
      refine ⟨?_, ?_, ?_⟩
      · show S.count x (S.setCount _ _ _) = 0
        rw [hS.count_setCount, if_neg (Ne.symm hy)]
        exact hC.count
      · exact (hS.limit_setCount _ _ _ _).trans hC.limit
      · rw [placeOf_setCtrl_self]
        exact fun ha => hy ha.1
  | @read y k st v hk =>
      have hy : y ≠ x := fun hy => hnobody ⟨hy, trivial⟩
      have hd := hS.reading_count y st (List.mem_of_getElem? hk) v s.data x
      refine ⟨hd.1.trans hC.count, hd.2.trans hC.limit, ?_⟩
      rw [placeOf_setCtrl_self]
      exact fun ha => hy ha.1
  | @write y v k st i hk =>
      have hd := hS.writing_count y st (List.mem_of_getElem? hk) i v s.data x
      refine ⟨hd.1.trans hC.count, hd.2.trans hC.limit, ?_⟩
      rw [placeOf_setCtrl_self]
      exact id
  | @proceed y | @reenter y | @last y | @release y | @leave y =>
      have hy : y ≠ x := fun hy => hnobody ⟨hy, trivial⟩
      refine ⟨hC.count, hC.limit, ?_⟩
      rw [placeOf_setCtrl_self]
      exact fun ha => hy ha.1
  | enter | reject =>
      refine ⟨hC.count, hC.limit, ?_⟩
      rw [placeOf_setCtrl_self]
      exact fun ha => ha.2
  | refuse =>
      refine ⟨hC.count, hC.limit, ?_⟩
      rw [placeOf_setCtrl_self]
      exact fun ha => Bool.false_ne_true ha.2
  | begin | deny | finish | again =>
      refine ⟨hC.count, hC.limit, ?_⟩
      rw [placeOf_setCtrl_self]
      exact id

/-- Where a thread is that has not read `x` yet. -/
def Unserved (x : X) (l : TryLoc X) : Prop :=
  l.i = 0 ∧ (l.place = .idle ∨ (∃ q, l.place = .reader x q) ∨
    ∃ ok, l.place = .returned (.read x) ok)

omit [Fintype T] in
/-- A thread that wants to read `x` first stays before that. -/
theorem Closed.unserved (hC : Closed S x s) (hread : ∀ v, S.next t 0 v = some (.read x))
    (hu : Unserved x (s.ctrl t).loc) (h : S.Move t (s.ctrl t).loc.i s (placeOf s t) s') :
    Unserved x (s'.ctrl t).loc := by
  have hnobody := hC.nobody t
  rw [placeOf] at h hnobody
  obtain ⟨hi, hu⟩ := hu
  rw [hi] at h
  generalize (s.ctrl t).loc.place = p at h hu hnobody
  rcases hu with rfl | ⟨q, rfl⟩ | ⟨ok, rfl⟩
  · cases h with
    | choose v =>
        rw [State.setCtrl_ctrl_self, hread v]
        exact ⟨rfl, Or.inr (Or.inl ⟨_, rfl⟩)⟩
  · cases h with
    | leave | refuse =>
        rw [State.setCtrl_ctrl_self]
        exact ⟨rfl, Or.inr (Or.inr ⟨_, rfl⟩)⟩
    | _ =>
        rw [State.setCtrl_ctrl_self]
        exact ⟨rfl, Or.inr (Or.inl ⟨_, rfl⟩)⟩
  · cases h with
    | again =>
        rw [State.setCtrl_ctrl_self]
        obtain rfl : ok = false := by
          cases ok with
          | false => rfl
          | true => exact absurd ⟨rfl, rfl⟩ hnobody
        exact ⟨rfl, Or.inl rfl⟩

omit [Fintype T] in
/-- The step of a thread that runs, with the number of its finished calls. -/
theorem move_of_running (hr : ∃ l, s.ctrl t = .run l) {e : Event T} (he : e.thread = t)
    (h : Step S.program s e s') : S.Move t (s.ctrl t).loc.i s (placeOf s t) s' := by
  subst he
  obtain ⟨⟨n, p⟩, hc⟩ := hr
  have h := h.exec_eq
  rw [placeOf, hc]
  cases e with
  | exec t i => exact move_of_exec hc h
  | resume t =>
      have hc : s.ctrl t = .run ⟨n, p⟩ := hc
      simp [exec, hc] at h
  | spurious t =>
      have hc : s.ctrl t = .run ⟨n, p⟩ := hc
      simp [exec, hc] at h

omit [DecidableEq T] [DecidableEq X] [Fintype T] in
theorem Unserved.not_exits {l : TryLoc X} (hu : Unserved x l) : S.code t l ≠ .exit := by
  obtain ⟨i, p⟩ := l
  obtain ⟨-, rfl | ⟨q, rfl⟩ | ⟨ok, rfl⟩⟩ := hu
  · simp [code]
  · cases q with
    | read k => cases hk : (S.reading x)[k]? <;> simp [code, readerCode, hk]
    | _ => simp [code, readerCode]
  · simp [code]

omit [Fintype T] in
/-- Nobody reads an object whose limit is zero, so a thread that has to never comes to its end. -/
theorem not_returned_of_limit (hS : S.Lawful) (h₀ : S.count x d₀ = 0)
    (hlim : S.limitOf x d₀ = some 0) (hread : ∀ v, S.next t 0 v = some (.read x))
    (h : Reachable (Step S.program) (S.program.init d₀) s) : S.program.returned s t = false := by
  have hinv : Closed S x s ∧ Unserved x (s.ctrl t).loc := by
    have hinit : Closed S x (S.program.init d₀) ∧ Unserved x ((S.program.init d₀).ctrl t).loc :=
      ⟨⟨fun t => ⟨_, rfl⟩, h₀, hlim, fun t => id⟩, rfl, Or.inl rfl⟩
    refine h.invariant (I := fun s => Closed S x s ∧ Unserved x (s.ctrl t).loc)
      (fun s e s' hI hs => ?_) hinit
    obtain ⟨hC, hu⟩ := hI
    obtain ⟨n, hm⟩ := move_of_step hC.running hs
    refine ⟨hC.move hS hm, ?_⟩
    by_cases he : e.thread = t
    · exact hC.unserved hread hu (move_of_running (hC.running t) he hs)
    · rwa [hm.ctrl_of_ne (Ne.symm he)]
  by_contra ht
  obtain ⟨l, hc, hexit⟩ := Program.returned_iff.1 (Bool.not_eq_false _ ▸ ht)
  rw [hc] at hinv
  exact hinv.2.not_exits hexit

end TryLightswitch

end Pthread
