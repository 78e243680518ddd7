import SystemsProgramming.Library.LightswitchProgress
import SystemsProgramming.Library.TryLightswitch

/-!
# Who unlocks the room

The last reader out unlocks what the first one in has locked, which may be two threads.  If no two
readers have been inside at once since the room was locked it is the same thread (`owner_of_apart`),
and a thread that uses the room for itself always unlocks what it locked.
-/

namespace Pthread

open Transition

section Steps

variable {T D L M C O : Type} [DecidableEq T] [DecidableEq M] [DecidableEq C]
  {P : Program T D L M C O} {s s' s₀ : State T D L M C O}

/-- Thread `t` is at an unlock of `m`. -/
def Unlocking (P : Program T D L M C O) (s : State T D L M C O) (t : T) (m : M) : Prop :=
  ∃ l next, s.ctrl t = .run l ∧ P.code t l = .unlock m next

/-- A mutex stays as it is, or is unlocked, or is free and locked by the thread that steps. -/
theorem Step.owner {e : Event T} (h : Step P s e s') (m : M) :
    s'.owner m = s.owner m ∨ s'.owner m = none ∨
      s.owner m = none ∧ s'.owner m = some e.thread := by
  have hfree : ∀ {m' : M} {t : T} {k : Ctrl L M C},
      ((s.setOwner m' none).setCtrl t k).owner m = s.owner m ∨
        ((s.setOwner m' none).setCtrl t k).owner m = none := by
    intro m' t k
    rw [State.setCtrl_owner, State.setOwner_owner]
    split
    · exact Or.inr rfl
    · exact Or.inl rfl
  have htake : ∀ {m' : M} {t : T} {k : Ctrl L M C}, s.owner m' = none →
      ((s.setOwner m' (some t)).setCtrl t k).owner m = s.owner m ∨
        s.owner m = none ∧ ((s.setOwner m' (some t)).setCtrl t k).owner m = some t := by
    intro m' t k ho
    rw [State.setCtrl_owner, State.setOwner_owner]
    split
    · next hm => exact Or.inr ⟨hm ▸ ho, rfl⟩
    · exact Or.inl rfl
  cases h with
  | lock _ _ ho => exact (htake ho).imp_right Or.inr
  | taken _ _ ho => exact (htake ho).imp_right Or.inr
  | resume _ ho => exact (htake ho).imp_right Or.inr
  | unlock | wait => exact hfree.imp_right Or.inl
  | refused | broadcast | act | spurious => exact Or.inl rfl

/-- A step leaves the locations of the other threads. -/
theorem Step.loc_of_ne {e : Event T} (h : Step P s e s') {u : T} (hu : u ≠ e.thread) :
    (s'.ctrl u).loc = (s.ctrl u).loc := by
  have hkeep : ∀ {t : T} {k : Ctrl L M C} {r : State T D L M C O}, u ≠ t →
      (r.ctrl u).loc = (s.ctrl u).loc → ((r.setCtrl t k).ctrl u).loc = (s.ctrl u).loc := by
    intro t k r hut hr
    rwa [State.setCtrl_ctrl_of_ne hut]
  cases h with
  | broadcast => exact hkeep hu (Ctrl.loc_wake _ _)
  | _ => exact hkeep hu rfl

/-- The states that a run passes. -/
def Passes (tr : List (State T D L M C O × Event T)) (s q : State T D L M C O) : Prop :=
  q = s ∨ ∃ e, (q, e) ∈ tr

/-- The run `tr` to `s` passes `q`, and from there on the mutex `m` is never free: `q` is one of the
states since the present lock of `m` was taken. -/
def HeldSince (m : M) (tr : List (State T D L M C O × Event T)) (s q : State T D L M C O) : Prop :=
  q = s ∨ ∃ tr₁ e tr₂, tr = tr₁ ++ (q, e) :: tr₂ ∧ ∀ p ∈ (q, e) :: tr₂, p.1.owner m ≠ none

/-- No two threads have been inside at once since the present lock of `m` was taken. -/
def Apart (m : M) (inside : State T D L M C O → T → Prop)
    (tr : List (State T D L M C O × Event T)) (s : State T D L M C O) : Prop :=
  ∀ q, HeldSince m tr s q → ∀ t u, inside q t → inside q u → t = u

omit [DecidableEq T] [DecidableEq M] [DecidableEq C] in
theorem Passes.snoc {tr : List (State T D L M C O × Event T)} {q : State T D L M C O}
    (h : Passes tr s q) (e : Event T) : Passes (tr ++ [(s, e)]) s' q := by
  rcases h with rfl | ⟨f, hf⟩
  · exact Or.inr ⟨e, by simp⟩
  · exact Or.inr ⟨f, List.mem_append_left _ hf⟩

omit [DecidableEq T] [DecidableEq M] [DecidableEq C] in
/-- A step from a state with the mutex locked belongs to the same lock. -/
theorem HeldSince.snoc {m : M} {tr : List (State T D L M C O × Event T)} {q : State T D L M C O}
    (h : HeldSince m tr s q) (hs : s.owner m ≠ none) (e : Event T) :
    HeldSince m (tr ++ [(s, e)]) s' q := by
  right
  rcases h with rfl | ⟨tr₁, f, tr₂, rfl, hheld⟩
  · exact ⟨tr, e, [], rfl, List.forall_mem_singleton.2 hs⟩
  · refine ⟨tr₁, f, tr₂ ++ [(s, e)], by simp, ?_⟩
    rw [← List.cons_append]
    exact List.forall_mem_append.2 ⟨hheld, List.forall_mem_singleton.2 hs⟩

/-- What being inside has to do with the mutex `m` in the states that meet `I`. -/
structure Entrance (P : Program T D L M C O) (m : M) (inside : State T D L M C O → T → Prop)
    (I : State T D L M C O → Prop) : Prop where
  held : ∀ {s t}, I s → inside s t → s.owner m ≠ none
  keep : ∀ {s e s' u}, I s → Step P s e s' → u ≠ e.thread → (inside s' u ↔ inside s u)
  /-- a thread that finds the mutex locked and comes in finds another one inside -/
  fresh : ∀ {s e s' t}, I s → I s' → Step P s e s' → inside s' t → s'.owner m = s.owner m →
    s.owner m = some t ∨ ∃ u, inside s u

/-- If no two threads have been inside at once since the mutex was locked, the one inside has locked
it. -/
theorem owner_of_apart {m : M} {inside : State T D L M C O → T → Prop} {I : State T D L M C O → Prop}
    (hE : Entrance P m inside I) (h₀ : ∀ t, ¬ inside s₀ t)
    {tr : List (State T D L M C O × Event T)} (h : Run (Step P) s₀ tr s)
    (hI : ∀ q, Passes tr s q → I q) (ha : Apart m inside tr s) {t : T} (ht : inside s t) :
    s.owner m = some t := by
  induction h generalizing t with
  | nil => exact absurd ht (h₀ t)
  | @snoc tr s s' e h hs ih =>
      have ih : s.owner m ≠ none → ∀ {u}, inside s u → s.owner m = some u := fun hheld =>
        ih (fun q hq => hI q (hq.snoc e)) fun q hq => ha q (hq.snoc hheld e)
      have hIs : I s := hI s (Passes.snoc (Or.inl rfl) e)
      have hIs' : I s' := hI s' (Or.inl rfl)
      rcases hs.owner m with hsame | hnone | ⟨hfree, htook⟩
      · have ih := @ih (hsame ▸ hE.held hIs' ht)
        rw [hsame]
        rcases hE.fresh hIs hIs' hs ht hsame with hu | ⟨u, hu⟩
        · exact hu
        · have hut : u = t := by
            by_cases hue : u = e.thread
            · by_cases hte : t = e.thread
              · rw [hue, hte]
              · -- both were inside before
                have htu := ih ((hE.keep hIs hs hte).1 ht)
                rw [ih hu] at htu
                exact Option.some.inj htu
            · exact ha s' (Or.inl rfl) u t ((hE.keep hIs hs hue).2 hu) ht
          exact hut ▸ ih hu
      · exact absurd hnone (hE.held hIs' ht)
      · -- a new lock: nobody was inside
        rw [htook]
        by_contra hne
        have hte : t ≠ e.thread := fun h => hne (congrArg some h.symm)
        exact hE.held hIs ((hE.keep hIs hs hte).1 ht) hfree

end Steps

/-! ### First in, last out -/

namespace Lightswitch

variable {R U D L M C O : Type} {S : Lightswitch R U D L M C O} {crit : U → L → Prop}
  {s : St R U D L M C O} {tr : List (St R U D L M C O × Event (R ⊕ U))}

/-- A reader takes part in holding the room. -/
def Inside (s : St R U D L M C O) : R ⊕ U → Prop
  | .inl r => RPlace.turnstile.inside (place s r) = true
  | .inr _ => False

/-- Who is at an unlock of the room after a run `tr`. -/
structure Disciplined (S : Lightswitch R U D L M C O) (tr : List (St R U D L M C O × Event (R ⊕ U)))
    (s : St R U D L M C O) : Prop where
  /-- another thread has locked the room itself -/
  other : ∀ u, Unlocking S.program s (.inr u) S.room → s.owner S.room = some (.inr u)
  /-- for a reader, the last one inside, a reader has: itself, if since then there were never two -/
  reader : ∀ r, Unlocking S.program s (.inl r) S.room → (∀ t, Inside s t → t = .inl r) ∧
    ∃ r', s.owner S.room = some (.inl r') ∧ (Apart S.room Inside tr s → r' = r)

theorem Inv.unlocking_other [Fintype R] (hI : S.Inv crit s) (hS : S.Lawful crit) {u : U}
    (h : Unlocking S.program s (.inr u) S.room) : s.owner S.room = some (.inr u) := by
  obtain ⟨l, next, hc, hi⟩ := h
  cases l with
  | inl l => cases hi
  | inr l =>
      have hg := hS.guarded u l
      have hcode : (S.code u l).map Sum.inr = .unlock S.room next := hi
      cases hk : S.code u l with
      | unlock m next' =>
          rw [hk] at hg
          exact hI.owner_of_crit hc hg.2.1
      | _ =>
          rw [hk] at hcode
          cases hcode

/-- The only unlock of the room in the code of a reader. -/
theorem unlocking_reader (hS : S.Lawful crit) {r : R} (h : Unlocking S.program s (.inl r) S.room) :
    place s r = .release := by
  obtain ⟨l, next, hc, hi⟩ := h
  cases l with
  | inr l => cases hi
  | inl l =>
      rw [place_of hc]
      have hcode : (S.readerCode r l).map Sum.inl = .unlock S.room next := hi
      obtain ⟨n, p⟩ := l
      cases p with
      | release => rfl
      | proceed | leave =>
          injection hcode with hroom
          exact absurd hroom hS.door_ne_room
      | enter =>
          by_cases hn : n < S.runs r <;> simp [readerCode, Instr.map, hn] at hcode
      | read k =>
          cases hk : S.reading[k]? <;> simp [readerCode, Instr.map, hk] at hcode
      | _ => cases hcode

variable [DecidableEq R] [DecidableEq U] [DecidableEq M] [DecidableEq C] [Fintype R]

theorem entrance (S : Lightswitch R U D L M C O) (crit : U → L → Prop) :
    Entrance S.program S.room Inside (S.Inv crit) where
  held {s t} hI ht := by
    cases t with
    | inl r =>
        obtain ⟨r', hr'⟩ := hI.book.room.2 ⟨r, ht⟩
        rw [hr']
        exact Option.some_ne_none _
    | inr u => exact ht.elim
  keep {s e s' t} _ hs ht := by
    cases t with
    | inl r =>
        have hplace : place s' r = place s r := congrArg placeOf (hs.loc_of_ne ht)
        simp only [Inside, hplace]
    | inr u => exact Iff.rfl
  fresh {s e s' t} hI hI' hs ht hsame := by
    cases t with
    | inl r =>
        have hheld := hI'.book.room.2 ⟨r, ht⟩
        rw [hsame] at hheld
        obtain ⟨w, hw⟩ := hI.book.room.1 hheld
        exact Or.inr ⟨.inl w, hw⟩
    | inr u => exact ht.elim

theorem disciplined_of_run (hS : S.Lawful crit) {d₀ : D} (h₀ : S.count d₀ = 0)
    (h : Run (Step S.program) (S.program.init d₀) tr s) : S.Disciplined tr s where
  other _ hu := (inv_of_reachable hS h₀ h.reachable).unlocking_other hS hu
  reader r hr := by
    have hI := inv_of_reachable hS h₀ h.reachable
    have hin : Inside s (.inl r) := by
      show RPlace.turnstile.inside (place s r) = true
      rw [unlocking_reader hS hr]
      rfl
    have hplace := unlocking_reader hS hr
    have halone : ∀ t, Inside s t → t = .inl r := by
      rintro (r' | u) ht
      · exact congrArg Sum.inl (hI.book.alone hplace rfl (hI.book.knows_at hplace) ht)
      · exact ht.elim
    obtain ⟨r', hr'⟩ := hI.book.room.2 ⟨r, hin⟩
    refine ⟨halone, r', hr', fun ha => ?_⟩
    have hall : ∀ q, Passes tr s q → S.Inv crit q := by
      rintro q (rfl | ⟨e, he⟩)
      · exact hI
      · exact h.invariant_mem (C := fun _ _ => True) (fun _ _ _ _ hI hs => hI.step hS hs)
          (fun _ _ => trivial) (inv_init hS h₀) _ he
    have hr := owner_of_apart (S.entrance crit) (fun t => by cases t <;> simp [Inside, place, placeOf,
      Program.init, program, RPlace.turnstile]) h hall ha hin
    rw [hr'] at hr
    simpa using hr

end Lightswitch

/-! ### First in tries, last out -/

namespace TryLightswitch

variable {T X D O : Type} [DecidableEq T] [DecidableEq X] {S : TryLightswitch T X D O} {x : X}
  {lim : Option ℤ} {s s' : St T X D O} {tr : List (St T X D O × Event T)} {t : T} {n : ℕ}

/-- The present lock of the room of `x` was taken by `u`, in a step of a reader. -/
def LockedToRead (x : X) (tr : List (St T X D O × Event T)) (u : T) : Prop :=
  ∃ tr₁ q e tr₂, tr = tr₁ ++ (q, e) :: tr₂ ∧ e.thread = u ∧ TakesRoom x q e ∧
    ∀ p ∈ tr₂, p.1.owner (.room x) = some u

/-- Who is at an unlock of the room of `x` after a run `tr`: a writer that has locked it itself, or the
last reader inside, while it is locked by a reader, itself if since then there were never two. -/
def Disciplined (S : TryLightswitch T X D O) (x : X) (tr : List (St T X D O × Event T))
    (s : St T X D O) : Prop :=
  ∀ t, Unlocking S.program s t (.room x) →
    ((placeOf s t).Writes x ∧ s.owner (.room x) = some t) ∨
      placeOf s t = .reader x .release ∧ ¬ HasWriter x s ∧ (∀ u, Inside x s u → u = t) ∧
        ∃ u, s.owner (.room x) = some u ∧ LockedToRead x tr u ∧
          (Apart (.room x) (Inside x) tr s → u = t)

omit [DecidableEq T] [DecidableEq X] in
/-- The unlocks of the room in the code. -/
theorem place_of_unlocking (h : Unlocking S.program s t (.room x)) :
    (placeOf s t).Writes x ∨ placeOf s t = .reader x .release := by
  obtain ⟨⟨n, p⟩, next, hc, hi⟩ := h
  have hp : placeOf s t = p := by rw [placeOf, hc]; rfl
  have hcode : S.code t ⟨n, p⟩ = .unlock (.room x) next := hi
  rw [hp]
  cases p with
  | reader y q =>
      cases q with
      | release =>
          injection hcode with hroom
          obtain rfl : y = x := Gate.room.inj hroom
          exact Or.inr rfl
      | read k => cases hk : (S.reading y)[k]? <;> simp [code, readerCode, hk] at hcode
      | _ => simp [code, readerCode] at hcode
  | writer y v k =>
      cases hk : (S.writing y)[k]? with
      | some st => simp [code, hk] at hcode
      | none =>
          simp only [code, hk, Instr.unlock.injEq, Gate.room.injEq] at hcode
          exact Or.inl hcode.1
  | _ => simp [code] at hcode

theorem Step.placeOf_of_ne {e : Event T} (h : Step S.program s e s') {u : T} (hu : u ≠ e.thread) :
    placeOf s' u = placeOf s u :=
  congrArg TryLoc.place (h.loc_of_ne hu)

theorem entrance [Fintype T] (S : TryLightswitch T X D O) (x : X) (lim : Option ℤ) :
    Entrance S.program (.room x) (Inside x) (S.Inv x lim) where
  held {s t} hI ht := (hI.book.room.2 ⟨t, ht⟩).1
  keep {s e s' u} _ hs hu := by
    simp only [Inside, readers, Step.placeOf_of_ne hs hu]
  fresh {s e s' t} hI hI' hs ht hsame := by
    obtain ⟨hheld, hno⟩ := hI'.book.room.2 ⟨t, ht⟩
    by_cases hw : HasWriter x s
    · -- the writer is the one that steps, so `t` was inside before
      obtain ⟨w, hw⟩ := hw
      have hwe : w = e.thread := by
        by_contra hwe
        exact hno ⟨w, by rwa [Step.placeOf_of_ne hs hwe]⟩
      by_cases hte : t = e.thread
      · left
        rw [hI.writer w hw, hwe, hte]
      · refine absurd ?_ (hI.not_inside (t := t) ⟨w, hw⟩)
        simpa only [Inside, readers, Step.placeOf_of_ne hs hte] using ht
    · rw [hsame] at hheld
      exact Or.inr (hI.book.room.1 ⟨hheld, hw⟩)

omit [DecidableEq T] [DecidableEq X] in
theorem LockedToRead.snoc {u : T} (h : LockedToRead x tr u) (hs : s.owner (.room x) = some u)
    (e : Event T) : LockedToRead x (tr ++ [(s, e)]) u := by
  obtain ⟨tr₁, q, f, tr₂, rfl, hf, htake, hheld⟩ := h
  refine ⟨tr₁, q, f, tr₂ ++ [(s, e)], by simp, hf, htake, ?_⟩
  exact List.forall_mem_append.2 ⟨hheld, List.forall_mem_singleton.2 hs⟩

/-- A move that locks the free room of `x` is that of a reader, or leaves a writer in it. -/
theorem Move.tryRoom_or_writes [Fintype T] (hS : S.Lawful) (h : S.Move t n s (placeOf s t) s')
    (hfree : s.owner (.room x) = none) (htook : s'.owner (.room x) = some t) :
    placeOf s t = .reader x .tryRoom ∨ (placeOf s' t).Writes x := by
  by_cases hcalls : (placeOf s t).Calls x
  · generalize hp : placeOf s t = p at h hcalls
    cases h with
    | takeRoom => exact Or.inl (congrArg (TryPlace.reader · .tryRoom) hcalls)
    | begin =>
        right
        rw [placeOf_setCtrl_self]
        exact hcalls
    | choose | again => exact hcalls.elim
    | enter | proceed | reenter | leave | refuse =>
        rw [State.setCtrl_owner, State.setOwner_owner, if_neg nofun, hfree] at htook
        cases htook
    | release | finish =>
        obtain rfl := hcalls
        rw [State.setCtrl_owner, State.setOwner_owner_self] at htook
        cases htook
    | _ =>
        rw [State.setCtrl_owner] at htook
        exact absurd (hfree.symm.trans htook) nofun
  · rw [(h.elsewhere hS hcalls).room, hfree] at htook
    cases htook

/-- A writer stays in the room of `x`, or unlocks it. -/
theorem Move.writes_or_unlocks (h : S.Move t n s (placeOf s t) s') (hw : (placeOf s t).Writes x) :
    (placeOf s' t).Writes x ∨ s'.owner (.room x) = none := by
  generalize hp : placeOf s t = p at h hw
  cases h with
  | write =>
      left
      rw [placeOf_setCtrl_self]
      exact hw
  | finish =>
      obtain rfl := hw
      right
      rw [State.setCtrl_owner, State.setOwner_owner_self]
  | _ => exact hw.elim

/-- Where no writer is in the room of `x`, its lock was taken by a reader. -/
theorem lockedToRead_of_run [Fintype T] (hS : S.Lawful) {d₀ : D}
    (h : Run (Step S.program) (S.program.init d₀) tr s) (hI : ∀ q, Passes tr s q → S.Inv x lim q)
    {u : T} (hu : s.owner (.room x) = some u) (hno : ¬ HasWriter x s) : LockedToRead x tr u := by
  induction h with
  | nil => cases hu
  | @snoc tr s s' e h hs ih =>
      have hIs : S.Inv x lim s := hI s (Passes.snoc (Or.inl rfl) e)
      obtain ⟨n, hm⟩ := move_of_step hIs.running hs
      rcases hs.owner (.room x) with hsame | hnone | ⟨hfree, htook⟩
      · rw [hsame] at hu
        refine (ih (fun q hq => hI q (hq.snoc e)) hu ?_).snoc hu e
        rintro ⟨w, hw⟩
        by_cases hwe : w = e.thread
        · rcases hm.writes_or_unlocks (hwe ▸ hw) with hstays | hnone
          · exact hno ⟨_, hstays⟩
          · rw [hsame, hu] at hnone
            cases hnone
        · exact hno ⟨w, by rwa [Step.placeOf_of_ne hs hwe]⟩
      · rw [hnone] at hu
        cases hu
      · rw [htook] at hu
        rcases hm.tryRoom_or_writes hS hfree htook with hplace | hwrites
        · exact ⟨tr, s, e, [], rfl, Option.some.inj hu, ⟨hplace, hfree⟩, List.forall_mem_nil _⟩
        · exact absurd ⟨_, hwrites⟩ hno

theorem disciplined_of_run [Fintype T] (hS : S.Lawful) {d₀ : D} (h₀ : S.count x d₀ = 0)
    (hlim : S.limitOf x d₀ = lim) (h : Run (Step S.program) (S.program.init d₀) tr s)
    (htake : lim = some 0 → ∀ p ∈ tr, ¬ TakesRoom x p.1 p.2) : S.Disciplined x tr s := by
  intro t ht
  obtain ⟨hI, hpast⟩ := inv_of_run hS h₀ hlim h htake
  rcases place_of_unlocking ht with hw | hp
  · exact Or.inl ⟨hw, hI.writer t hw⟩
  · have hin : Inside x s t := by
      rw [Inside, readers_of_place hp]
      rfl
    obtain ⟨hheld, hno⟩ := hI.book.room.2 ⟨t, hin⟩
    obtain ⟨u, hu⟩ := Option.ne_none_iff_exists'.1 hheld
    have hplace := readers_of_place hp
    have halone : ∀ v, Inside x s v → v = t := fun v hv =>
      hI.book.alone hplace rfl (hI.book.knows_at hplace) hv
    have hall : ∀ q, Passes tr s q → S.Inv x lim q := by
      rintro q (rfl | ⟨e, he⟩)
      · exact hI
      · exact hpast _ he
    refine Or.inr ⟨hp, hno, halone, u, hu, lockedToRead_of_run hS h hall hu hno, fun ha => ?_⟩
    have hr := owner_of_apart (S.entrance x lim) (fun t => by simp [Inside, readers, placeOf,
      Program.init, program, TryPlace.readerOf, turnstile]) h hall ha hin
    rw [hu] at hr
    exact Option.some.inj hr

/-! ### Objects without room for readers -/

/-- The places of a reader that is not yet, or no longer to be, counted. -/
def Outer : TryRead → Prop
  | .enter | .test | .tryRoom | .full | .refuse => True
  | _ => False

/-- What holds of an object whose limit is zero: no reader gets in. -/
structure Shut (S : TryLightswitch T X D O) (x : X) (s : St T X D O) : Prop where
  running : ∀ t, ∃ l, s.ctrl t = .run l
  writer : ∀ t, (placeOf s t).Writes x → s.owner (.room x) = some t
  outer : ∀ t q, placeOf s t = .reader x q → Outer q
  count : S.count x s.data = 0
  limit : S.limitOf x s.data = some 0

omit [DecidableEq X] in
theorem Shut.step_of (hI : S.Shut x s) {s₁ : St T X D O} {l : TryLoc X} (hctrl : s₁.ctrl = s.ctrl)
    (hothers : ∀ u, u ≠ t → (placeOf s u).Writes x → s₁.owner (.room x) = some u)
    (hself : l.place.Writes x → s₁.owner (.room x) = some t)
    (houter : ∀ q, l.place = .reader x q → Outer q)
    (hcount : S.count x s₁.data = 0) (hlimit : S.limitOf x s₁.data = some 0) :
    S.Shut x (s₁.setCtrl t (.run l)) where
  running u := by
    by_cases hu : u = t
    · exact ⟨l, by rw [hu, State.setCtrl_ctrl_self]⟩
    · rw [State.setCtrl_ctrl_of_ne hu, hctrl]
      exact hI.running u
  writer u hw := by
    by_cases hu : u = t
    · rw [hu, placeOf_setCtrl_self] at hw
      rw [hu]
      exact hself hw
    · rw [placeOf_setCtrl_of_ne hu, placeOf, hctrl] at hw
      exact hothers u hu hw
  outer u q hq := by
    by_cases hu : u = t
    · rw [hu, placeOf_setCtrl_self] at hq
      exact houter q hq
    · rw [placeOf_setCtrl_of_ne hu, placeOf, hctrl] at hq
      exact hI.outer u q hq
  count := hcount
  limit := hlimit

/-- A thread that is no reader of the object is at no place of its readers. -/
theorem outer_of_readerOf {p : TryPlace X} (h : p.readerOf x = none) (q : TryRead)
    (hq : p = .reader x q) : Outer q := by
  rw [hq, TryPlace.readerOf_reader] at h
  cases h

theorem Shut.elsewhere (hI : S.Shut x s) (h : S.Elsewhere x t s s') : S.Shut x s' := by
  obtain ⟨l, hl, hw, hr⟩ := h.self
  have hplace : placeOf s' t = l.place := by rw [placeOf, hl]; rfl
  refine ⟨fun u => ?_, fun u hu => ?_, fun u q hq => ?_, h.count.trans hI.count,
    h.limit.trans hI.limit⟩
  · by_cases hut : u = t
    · exact ⟨l, hut ▸ hl⟩
    · rw [h.others u hut]
      exact hI.running u
  · rw [h.room]
    apply hI.writer u
    by_cases hut : u = t
    · rw [hut, hplace] at hu
      exact absurd hu hw
    · rwa [placeOf, h.others u hut] at hu
  · by_cases hut : u = t
    · rw [hut, hplace] at hq
      rw [hq, TryPlace.readerOf_reader] at hr
      rcases hr with hr | hr
      · cases hr
      · rw [Option.some.inj hr]
        trivial
    · rw [placeOf, h.others u hut] at hq
      exact hI.outer u q hq

theorem Shut.move (hI : S.Shut x s) (hS : S.Lawful) (h : S.Move t n s (placeOf s t) s') :
    S.Shut x s' := by
  by_cases hcalls : (placeOf s t).Calls x
  · have hadmitted : S.admitted = .full := by
      refine (admitted_cases S).resolve_right fun h => ?_
      have := hI.limit
      rw [limitOf, h.2] at this
      cases this
    have hstay : ∀ {l : TryLoc X}, ¬ l.place.Writes x → (∀ q, l.place = .reader x q → Outer q) →
        S.Shut x (s.setCtrl t (.run l)) := fun hw hq =>
      hI.step_of rfl (fun u _ => hI.writer u) (fun h => absurd h hw) hq hI.count hI.limit
    have hdoor : ∀ {o : Option T} {l : TryLoc X}, ¬ l.place.Writes x →
        (∀ q, l.place = .reader x q → Outer q) →
        S.Shut x ((s.setOwner (.door x) o).setCtrl t (.run l)) := by
      intro o l hw hq
      refine hI.step_of rfl (fun u _ hu => ?_) (fun h => absurd h hw) hq hI.count hI.limit
      rw [State.setOwner_owner, if_neg (by simp)]
      exact hI.writer u hu
    have htake : s.owner (.room x) = none → ∀ {l : TryLoc X}, (∀ q, l.place = .reader x q → Outer q) →
        S.Shut x ((s.setOwner (.room x) (some t)).setCtrl t (.run l)) := by
      intro ho l hq
      refine hI.step_of rfl (fun u _ hu => ?_) (fun _ => State.setOwner_owner_self) hq hI.count hI.limit
      rw [hI.writer u hu] at ho
      cases ho
    have hout : ∀ {q q' : TryRead}, Outer q → (TryPlace.reader x q = .reader x q' → Outer q') := by
      intro q q' hq h
      obtain ⟨-, rfl⟩ := TryPlace.reader.inj h
      exact hq
    generalize hp : placeOf s t = p at h hcalls
    have houter := hI.outer t
    rw [hp] at houter
    cases h with
    | choose | again => exact hcalls.elim
    | enter ho =>
        obtain rfl := hcalls
        exact hdoor id fun q => hout trivial
    | test =>
        obtain rfl := hcalls
        rw [if_pos hI.count]
        exact hstay id fun q => hout trivial
    | takeRoom ho =>
        obtain rfl := hcalls
        rw [hadmitted]
        exact htake ho fun q => hout trivial
    | reject ho =>
        obtain rfl := hcalls
        exact hstay id fun q => hout trivial
    | full =>
        obtain rfl := hcalls
        rw [if_pos (by rw [hI.limit, hI.count])]
        exact hstay id fun q => hout trivial
    | refuse =>
        obtain rfl := hcalls
        exact hdoor id (outer_of_readerOf rfl)
    | arrive | proceed | read | reenter | depart | last | release | leave =>
        obtain rfl := hcalls
        exact (houter _ rfl).elim
    | begin ho =>
        obtain rfl := hcalls
        exact htake ho (outer_of_readerOf rfl)
    | deny ho => exact hstay id (outer_of_readerOf rfl)
    | @write y v k st i hk =>
        obtain rfl := hcalls
        have hsame := hS.writing_count y st (List.mem_of_getElem? hk) i v s.data y
        exact hI.step_of rfl (fun u _ => hI.writer u) (fun _ => hI.writer t (by rw [hp]; rfl))
          (outer_of_readerOf rfl) (hsame.1.trans hI.count) (hsame.2.trans hI.limit)
    | finish hk =>
        obtain rfl := hcalls
        refine hI.step_of rfl (fun u hu hw => ?_) (fun hw => hw.elim) (outer_of_readerOf rfl)
          hI.count hI.limit
        have hu' := hI.writer u hw
        rw [hI.writer t (by rw [hp]; rfl)] at hu'
        exact absurd (Option.some.inj hu').symm hu
  · exact hI.elsewhere (h.elsewhere hS hcalls)

theorem shut_of_reachable (hS : S.Lawful) {d₀ : D} (h₀ : S.count x d₀ = 0)
    (hlim : S.limitOf x d₀ = some 0) (h : Reachable (Step S.program) (S.program.init d₀) s) :
    S.Shut x s := by
  refine h.invariant (I := S.Shut x) (fun s e s' hI hs => ?_)
    ⟨fun t => ⟨_, rfl⟩, fun t ht => ht.elim, fun t => outer_of_readerOf rfl, h₀, hlim⟩
  obtain ⟨n, hm⟩ := move_of_step hI.running hs
  exact hI.move hS hm

/-- The discipline of every object. -/
theorem disciplined [Fintype T] (hS : S.Lawful) {d₀ : D} (h₀ : S.count x d₀ = 0)
    (h : Run (Step S.program) (S.program.init d₀) tr s) : S.Disciplined x tr s := by
  by_cases hlim : S.limitOf x d₀ = some 0
  · have hI := shut_of_reachable hS h₀ hlim h.reachable
    intro t ht
    rcases place_of_unlocking ht with hw | hp
    · exact Or.inl ⟨hw, hI.writer t hw⟩
    · exact (hI.outer t _ hp).elim
  · exact disciplined_of_run hS h₀ rfl h fun h0 => absurd h0 hlim

end TryLightswitch

end Pthread
