import SystemsProgramming.Library.Monitor
import SystemsProgramming.Library.Turnstile

/-!
# First in locks the room, last out unlocks it

The program of readers that count themselves in and out under one mutex, the door, and of other
threads that lock the second mutex, the room, for themselves: the first reader in locks the room
and the last one out unlocks it.  `Lightswitch.Inv` holds in every reachable state, and
`Lightswitch.protected_of_reachable` is the rule for the data that the room protects.
-/

namespace Pthread

open Transition

/-- The places of a reader. -/
inductive RPlace where
  /-- locks the door -/
  | enter
  /-- increments the counter -/
  | arrive
  /-- tests whether it is the first -/
  | first
  /-- locks the room -/
  | room
  /-- unlocks the door -/
  | proceed
  /-- runs statement `k` of its reading section, and locks the door after the last one -/
  | read (k : ℕ)
  /-- decrements the counter -/
  | depart
  /-- tests whether it is the last -/
  | last
  /-- unlocks the room -/
  | release
  /-- unlocks the door -/
  | leave
  deriving DecidableEq

/-- A reader's location: the number of finished calls and a place. -/
structure RLoc where
  i : ℕ
  place : RPlace
  deriving DecidableEq

/-- The places of a reader at the turnstile. -/
def RPlace.turnstile : Turnstile RPlace where
  door
    | enter | read _ => false
    | _ => true
  counted
    | first | room | proceed | read _ | depart => true
    | _ => false
  inside
    | proceed | read _ | depart | last | release => true
    | _ => false
  knows
    | room, c => c = 1
    | release, c => c = 0
    | _, _ => True
  counted_eq p := by cases p <;> simp
  knows_of p c := by cases p <;> simp

/-- The instruction on other locations. -/
def Instr.map {D L L' M C O : Type} (g : L → L') : Instr D L M C O → Instr D L' M C O
  | .lock m next => .lock m (g next)
  | .tryLock m taken refused => .tryLock m (g taken) (g refused)
  | .unlock m next => .unlock m (g next)
  | .wait c m next => .wait c m (g next)
  | .broadcast c next => .broadcast c (g next)
  | .act f => .act fun i d => ((f i d).1, (f i d).2.1, g (f i d).2.2)
  | .exit => .exit

/-- Readers `R`, each with its number of runs, and other threads `U` with their code. -/
structure Lightswitch (R U D L M C O : Type) where
  /-- the mutex of the readers -/
  door : M
  /-- the mutex shared with the other threads -/
  room : M
  /-- the counter in the data -/
  count : D → ℤ
  setCount : D → ℤ → D
  /-- the statements between the entry and the exit of a reader -/
  reading : List (Stmt D O)
  runs : R → ℕ
  /-- the code of the other threads -/
  code : U → L → Instr D L M C O
  entry : U → L

namespace Lightswitch

variable {R U D L M C O : Type} (S : Lightswitch R U D L M C O)

/-- The code of a reader. -/
def readerCode (r : R) (l : RLoc) : Instr D RLoc M C O :=
  match l.place with
  | .enter => if l.i < S.runs r then .lock S.door ⟨l.i, .arrive⟩ else .exit
  | .arrive => .act fun _ d => (S.setCount d (S.count d + 1), [], ⟨l.i, .first⟩)
  | .first => .act fun _ d => (d, [], ⟨l.i, if S.count d = 1 then .room else .proceed⟩)
  | .room => .lock S.room ⟨l.i, .proceed⟩
  | .proceed => .unlock S.door ⟨l.i, .read 0⟩
  | .read k =>
    match S.reading[k]? with
    | some st => .act fun i d => ((st i d).1, (st i d).2, ⟨l.i, .read (k + 1)⟩)
    | none => .lock S.door ⟨l.i, .depart⟩
  | .depart => .act fun _ d => (S.setCount d (S.count d - 1), [], ⟨l.i, .last⟩)
  | .last => .act fun _ d => (d, [], ⟨l.i, if S.count d = 0 then .release else .leave⟩)
  | .release => .unlock S.room ⟨l.i, .leave⟩
  | .leave => .unlock S.door ⟨l.i + 1, .enter⟩

/-- All threads. -/
def program : Program (R ⊕ U) D (RLoc ⊕ L) M C O where
  code
    | .inl r, .inl l => (S.readerCode r l).map Sum.inl
    | .inr u, .inr l => (S.code u l).map Sum.inr
    | _, _ => .exit
  entry := Sum.map (fun _ => ⟨0, .enter⟩) S.entry

/-- States of the program. -/
abbrev St (R U D L M C O : Type) := State (R ⊕ U) D (RLoc ⊕ L) M C O

/-- The instruction at `l` of a thread that uses the room alone and holds it at the locations
`crit`. -/
def Guarded (crit : L → Prop) (l : L) : Instr D L M C O → Prop
  | .lock m next => m = S.room ∧ ¬ crit l ∧ crit next
  | .tryLock _ _ _ => False
  | .unlock m next => m = S.room ∧ crit l ∧ ¬ crit next
  | .wait _ m next => m = S.room ∧ crit l ∧ crit next
  | .broadcast _ next => crit l ∧ crit next
  | .act f => crit l ∧ ∀ i d, S.count (f i d).1 = S.count d ∧ crit (f i d).2.2
  | .exit => ¬ crit l

/-- The counter is used by the readers only, and the other threads hold the room at `crit`. -/
structure Lawful (crit : U → L → Prop) : Prop where
  door_ne_room : S.door ≠ S.room
  count_setCount : ∀ d c, S.count (S.setCount d c) = c
  reading_count : ∀ st ∈ S.reading, ∀ i d, S.count (st i d).1 = S.count d
  entry_free : ∀ u, ¬ crit u (S.entry u)
  guarded : ∀ u l, S.Guarded (crit u) l (S.code u l)

/-! ### The invariant -/

/-- The place of a reader. -/
def placeOf : RLoc ⊕ L → RPlace
  | .inl l => l.place
  | .inr _ => .enter

/-- The places of the readers. -/
def place (s : St R U D L M C O) (r : R) : RPlace := placeOf (s.ctrl (.inl r)).loc

/-- The reader that owns a mutex. -/
def reader : Option (R ⊕ U) → Option R
  | some (.inl r) => some r
  | _ => none

@[simp] theorem reader_none : reader (none : Option (R ⊕ U)) = none := rfl

@[simp] theorem reader_inl (r : R) : reader (some (.inl r) : Option (R ⊕ U)) = some r := rfl

@[simp] theorem reader_inr (u : U) : reader (some (.inr u) : Option (R ⊕ U)) = none := rfl

/-- Another thread runs, or is in `pthread_cond_wait` on the room. -/
def Other (u : U) (k : Ctrl (RLoc ⊕ L) M C) : Prop :=
  (∃ l, k = .run (.inr l)) ∨
    ∃ l c next, S.code u l = .wait c S.room next ∧
      (k = .asleep c S.room (.inr next) ∨ k = .woken S.room (.inr next))

/-- Another thread runs in its critical section. -/
def InCrit (crit : L → Prop) (k : Ctrl (RLoc ⊕ L) M C) : Prop := ∃ l, k = .run (.inr l) ∧ crit l

/-- What holds in every reachable state. -/
structure Inv [Fintype R] (crit : U → L → Prop) (s : St R U D L M C O) : Prop where
  readers : ∀ r, ∃ l, s.ctrl (.inl r) = .run (.inl l)
  others : ∀ u, S.Other u (s.ctrl (.inr u))
  crit : ∀ u, s.owner S.room = some (.inr u) ↔ InCrit (crit u) (s.ctrl (.inr u))
  door : ∀ u, s.owner S.door ≠ some (.inr u)
  book : RPlace.turnstile.Consistent (place s) (reader (s.owner S.door))
    (∃ r, s.owner S.room = some (.inl r)) (S.count s.data)

variable {S} {crit : U → L → Prop} [DecidableEq R] [DecidableEq U] {s s' : St R U D L M C O} {r : R}
  {u : U}

@[simp] theorem place_setCtrl_inl (l : RLoc) :
    place (s.setCtrl (.inl r) (.run (.inl l))) = Function.update (place s) r l.place := by
  funext v
  by_cases hv : v = r
  · simp [hv, place, placeOf]
  · simp [hv, place, State.setCtrl_ctrl]

@[simp] theorem place_setCtrl_inr (k : Ctrl (RLoc ⊕ L) M C) :
    place (s.setCtrl (.inr u) k) = place s := by
  funext v
  simp [place, State.setCtrl_ctrl]

omit [DecidableEq R] [DecidableEq U] in
@[simp] theorem place_write (t : R ⊕ U) (d : D) (ls : List O) : place (s.write t d ls) = place s := rfl

omit [DecidableEq R] [DecidableEq U] in
@[simp] theorem place_setOwner [DecidableEq M] (m : M) (o : Option (R ⊕ U)) : place (s.setOwner m o) = place s := rfl

omit [DecidableEq R] [DecidableEq U] in
@[simp] theorem place_wakeAll [DecidableEq C] (c : C) : place (s.wakeAll c) = place s := by
  funext v
  simp [place]

variable [Fintype R]

omit [DecidableEq R] [DecidableEq U] in
theorem inv_init (hS : S.Lawful crit) {d₀ : D} (h₀ : S.count d₀ = 0) :
    S.Inv crit (S.program.init d₀) where
  readers r := ⟨_, rfl⟩
  others u := Or.inl ⟨_, rfl⟩
  crit u := by
    apply iff_of_false (Option.some_ne_none _).symm
    rintro ⟨l, hl, hc⟩
    obtain rfl : S.entry u = l := by simpa [Program.init, program] using hl
    exact hS.entry_free u hc
  door u h := absurd h (Option.some_ne_none _).symm
  book := by
    have := Turnstile.Consistent.init (K := RPlace.turnstile) (R := R) (p := .enter) rfl rfl
    have hheld : (∃ r, (S.program.init d₀).owner S.room = some (.inl r)) ↔ False :=
      iff_of_false (fun h => h.elim fun _ h => absurd h (Option.some_ne_none _).symm) id
    rw [hheld]
    exact h₀ ▸ this

/-! ### Steps of the readers -/

/-- The step of a reader leaves the other threads where they are. -/
theorem Inv.reader_step (hI : S.Inv crit s) {l : RLoc} {s₁ : St R U D L M C O}
    (hctrl : s₁.ctrl = s.ctrl)
    (hroom : ∀ u, s₁.owner S.room = some (.inr u) ↔ s.owner S.room = some (.inr u))
    (hdoor : ∀ u, s₁.owner S.door = some (.inr u) → s.owner S.door = some (.inr u))
    (hbook : RPlace.turnstile.Consistent (Function.update (place s) r l.place)
      (reader (s₁.owner S.door)) (∃ r, s₁.owner S.room = some (.inl r)) (S.count s₁.data)) :
    S.Inv crit (s₁.setCtrl (.inl r) (.run (.inl l))) where
  readers v := by
    by_cases hv : v = r
    · exact ⟨l, by rw [hv, State.setCtrl_ctrl_self]⟩
    · obtain ⟨l', hl'⟩ := hI.readers v
      exact ⟨l', by rw [State.setCtrl_ctrl_of_ne (by simpa using hv), hctrl, hl']⟩
  others u := by
    rw [State.setCtrl_ctrl_of_ne Sum.inr_ne_inl, hctrl]
    exact hI.others u
  crit u := by
    rw [State.setCtrl_owner, hroom u, State.setCtrl_ctrl_of_ne Sum.inr_ne_inl, hctrl]
    exact hI.crit u
  door u hu := hI.door u (hdoor u hu)
  book := by
    have hplace : place s₁ = place s := by funext v; simp [place, hctrl]
    simpa [hplace] using hbook

section Exec

variable [DecidableEq M] [DecidableEq C] {n k : ℕ} {i : ℤ}

omit [Fintype R]

theorem exec_enter (hc : s.ctrl (.inl r) = .run (.inl ⟨n, .enter⟩)) :
    exec S.program s (.exec (.inl r) i) = if n < S.runs r ∧ s.owner S.door = none then
      some ((s.setOwner S.door (some (.inl r))).setCtrl (.inl r) (.run (.inl ⟨n, .arrive⟩)))
    else none := by
  by_cases hn : n < S.runs r <;> simp [exec, hc, program, readerCode, Instr.map, hn]

theorem exec_arrive (hc : s.ctrl (.inl r) = .run (.inl ⟨n, .arrive⟩)) :
    exec S.program s (.exec (.inl r) i) =
      some ((s.write (.inl r) (S.setCount s.data (S.count s.data + 1)) []).setCtrl (.inl r)
        (.run (.inl ⟨n, .first⟩))) := by
  simp [exec, hc, program, readerCode, Instr.map]

theorem exec_first (hc : s.ctrl (.inl r) = .run (.inl ⟨n, .first⟩)) :
    exec S.program s (.exec (.inl r) i) = some (s.setCtrl (.inl r)
      (.run (.inl ⟨n, if S.count s.data = 1 then .room else .proceed⟩))) := by
  simp [exec, hc, program, readerCode, Instr.map]

theorem exec_room (hc : s.ctrl (.inl r) = .run (.inl ⟨n, .room⟩)) :
    exec S.program s (.exec (.inl r) i) = if s.owner S.room = none then
      some ((s.setOwner S.room (some (.inl r))).setCtrl (.inl r) (.run (.inl ⟨n, .proceed⟩)))
    else none := by
  simp [exec, hc, program, readerCode, Instr.map]

theorem exec_proceed (hc : s.ctrl (.inl r) = .run (.inl ⟨n, .proceed⟩)) :
    exec S.program s (.exec (.inl r) i) =
      some ((s.setOwner S.door none).setCtrl (.inl r) (.run (.inl ⟨n, .read 0⟩))) := by
  simp [exec, hc, program, readerCode, Instr.map]

theorem exec_read {st : Stmt D O} (hc : s.ctrl (.inl r) = .run (.inl ⟨n, .read k⟩))
    (hk : S.reading[k]? = some st) : exec S.program s (.exec (.inl r) i) =
      some ((s.write (.inl r) (st i s.data).1 (st i s.data).2).setCtrl (.inl r)
        (.run (.inl ⟨n, .read (k + 1)⟩))) := by
  simp [exec, hc, program, readerCode, Instr.map, hk]

theorem exec_reenter (hc : s.ctrl (.inl r) = .run (.inl ⟨n, .read k⟩))
    (hk : S.reading[k]? = none) : exec S.program s (.exec (.inl r) i) =
      if s.owner S.door = none then
        some ((s.setOwner S.door (some (.inl r))).setCtrl (.inl r) (.run (.inl ⟨n, .depart⟩)))
      else none := by
  simp [exec, hc, program, readerCode, Instr.map, hk]

theorem exec_depart (hc : s.ctrl (.inl r) = .run (.inl ⟨n, .depart⟩)) :
    exec S.program s (.exec (.inl r) i) =
      some ((s.write (.inl r) (S.setCount s.data (S.count s.data - 1)) []).setCtrl (.inl r)
        (.run (.inl ⟨n, .last⟩))) := by
  simp [exec, hc, program, readerCode, Instr.map]

theorem exec_last (hc : s.ctrl (.inl r) = .run (.inl ⟨n, .last⟩)) :
    exec S.program s (.exec (.inl r) i) = some (s.setCtrl (.inl r)
      (.run (.inl ⟨n, if S.count s.data = 0 then .release else .leave⟩))) := by
  simp [exec, hc, program, readerCode, Instr.map]

theorem exec_release (hc : s.ctrl (.inl r) = .run (.inl ⟨n, .release⟩)) :
    exec S.program s (.exec (.inl r) i) =
      some ((s.setOwner S.room none).setCtrl (.inl r) (.run (.inl ⟨n, .leave⟩))) := by
  simp [exec, hc, program, readerCode, Instr.map]

theorem exec_leave (hc : s.ctrl (.inl r) = .run (.inl ⟨n, .leave⟩)) :
    exec S.program s (.exec (.inl r) i) =
      some ((s.setOwner S.door none).setCtrl (.inl r) (.run (.inl ⟨n + 1, .enter⟩))) := by
  simp [exec, hc, program, readerCode, Instr.map]

end Exec

omit [DecidableEq R] [DecidableEq U] [Fintype R] in
theorem place_of {l : RLoc} (hc : s.ctrl (.inl r) = .run (.inl l)) : place s r = l.place := by
  simp [place, placeOf, hc]

/-- A statement of a reader that keeps the owners of the mutexes. -/
theorem Inv.reader_act (hI : S.Inv crit s) {l : RLoc} {d : D} {ls : List O}
    (hbook : RPlace.turnstile.Consistent (Function.update (place s) r l.place)
      (reader (s.owner S.door)) (∃ r, s.owner S.room = some (.inl r)) (S.count d)) :
    S.Inv crit ((s.write (.inl r) d ls).setCtrl (.inl r) (.run (.inl l))) :=
  hI.reader_step rfl (fun _ => Iff.rfl) (fun _ => id) hbook

theorem Inv.reader_goto (hI : S.Inv crit s) {l : RLoc}
    (hbook : RPlace.turnstile.Consistent (Function.update (place s) r l.place)
      (reader (s.owner S.door)) (∃ r, s.owner S.room = some (.inl r)) (S.count s.data)) :
    S.Inv crit (s.setCtrl (.inl r) (.run (.inl l))) :=
  hI.reader_step rfl (fun _ => Iff.rfl) (fun _ => id) hbook

section Kept

variable [DecidableEq M] {i : ℤ}

/-- A reader locks or unlocks the door. -/
theorem Inv.reader_door (hI : S.Inv crit s) (hS : S.Lawful crit) {l : RLoc} {o : Option R}
    (hbook : RPlace.turnstile.Consistent (Function.update (place s) r l.place) o
      (∃ r, s.owner S.room = some (.inl r)) (S.count s.data)) :
    S.Inv crit ((s.setOwner S.door (o.map Sum.inl)).setCtrl (.inl r) (.run (.inl l))) := by
  have hroom : (s.setOwner S.door (o.map Sum.inl)).owner S.room = s.owner S.room := by
    rw [State.setOwner_owner, if_neg hS.door_ne_room.symm]
  have hreader : reader (o.map Sum.inl : Option (R ⊕ U)) = o := by cases o <;> rfl
  refine hI.reader_step rfl (fun u => by rw [hroom]) (fun u hu => ?_) ?_
  · rw [State.setOwner_owner_self] at hu
    cases o <;> cases hu
  · rw [hroom, State.setOwner_owner_self, hreader]
    exact hbook

/-- A reader locks or unlocks the room. -/
theorem Inv.reader_room (hI : S.Inv crit s) (hS : S.Lawful crit) {l : RLoc} {o : Option R}
    (hno : ∀ u, s.owner S.room ≠ some (.inr u))
    (hbook : RPlace.turnstile.Consistent (Function.update (place s) r l.place)
      (reader (s.owner S.door)) (o ≠ none) (S.count s.data)) :
    S.Inv crit ((s.setOwner S.room (o.map Sum.inl)).setCtrl (.inl r) (.run (.inl l))) := by
  have hdoor : (s.setOwner S.room (o.map Sum.inl)).owner S.door = s.owner S.door := by
    rw [State.setOwner_owner, if_neg hS.door_ne_room]
  have hheld : (∃ r, (o.map Sum.inl : Option (R ⊕ U)) = some (.inl r)) ↔ o ≠ none := by
    cases o <;> simp
  refine hI.reader_step rfl (fun u => ?_) (fun u hu => hdoor ▸ hu) ?_
  · rw [State.setOwner_owner_self]
    refine iff_of_false ?_ (hno u)
    cases o <;> nofun
  · rw [hdoor, State.setOwner_owner_self, hheld]
    exact hbook

variable [DecidableEq C]

theorem Inv.exec_reader (hI : S.Inv crit s) (hS : S.Lawful crit)
    (h : exec S.program s (.exec (.inl r) i) = some s') : S.Inv crit s' := by
  obtain ⟨⟨n, p⟩, hc⟩ := hI.readers r
  have hp : place s r = p := place_of hc
  have hb := hI.book
  cases p with
  | enter =>
      rw [exec_enter hc, Option.ite_none_right_eq_some, Option.some.injEq] at h
      obtain ⟨⟨-, ho⟩, rfl⟩ := h
      rw [ho, reader_none] at hb
      exact hI.reader_door (o := some r) hS
        (hb.acquire hp rfl rfl rfl trivial)
  | arrive =>
      rw [exec_arrive hc, Option.some.injEq] at h
      subst h
      refine hI.reader_act (hb.within hp rfl rfl ?_ ?_ trivial)
      · rw [hS.count_setCount]
        simp [RPlace.turnstile]
      · rw [hb.held_iff hp rfl]
        exact Iff.rfl
  | first =>
      rw [exec_first hc, Option.some.injEq] at h
      subst h
      have hheld := hb.held_iff hp rfl
      apply hI.reader_goto
      by_cases h1 : S.count s.data = 1
      · rw [if_pos h1]
        exact hb.within hp rfl rfl rfl hheld h1
      · rw [if_neg h1]
        refine hb.within hp rfl rfl rfl ?_ trivial
        rw [hheld]
        exact iff_of_true (Or.inr h1) (Or.inl rfl)
  | room =>
      rw [exec_room hc, Option.ite_none_right_eq_some, Option.some.injEq] at h
      obtain ⟨ho, rfl⟩ := h
      apply hI.reader_room (o := some r) hS (fun u => by rw [ho]; nofun)
      refine hb.within hp rfl rfl rfl ?_ trivial
      exact iff_of_true nofun (Or.inl rfl)
  | proceed =>
      rw [exec_proceed hc, Option.some.injEq] at h
      subst h
      exact hI.reader_door (o := none) hS
        (hb.pass hp rfl rfl rfl rfl)
  | read k =>
      cases hk : S.reading[k]? with
      | some st =>
          rw [exec_read hc hk, Option.some.injEq] at h
          subst h
          apply hI.reader_act
          rw [hS.reading_count st (List.mem_of_getElem? hk)]
          exact hb.outside hp rfl rfl rfl
      | none =>
          rw [exec_reenter hc hk, Option.ite_none_right_eq_some, Option.some.injEq] at h
          obtain ⟨ho, rfl⟩ := h
          rw [ho, reader_none] at hb
          exact hI.reader_door (o := some r) hS
            (hb.acquire hp rfl rfl rfl trivial)
  | depart =>
      rw [exec_depart hc, Option.some.injEq] at h
      subst h
      have hheld := hb.held_iff hp rfl
      refine hI.reader_act (hb.within hp rfl rfl ?_ ?_ trivial)
      · rw [hS.count_setCount]
        simp [RPlace.turnstile]
      · rw [hheld]
        exact iff_of_true (Or.inl rfl) (Or.inl rfl)
  | last =>
      rw [exec_last hc, Option.some.injEq] at h
      subst h
      have hheld := hb.held_iff hp rfl
      apply hI.reader_goto
      by_cases h0 : S.count s.data = 0
      · rw [if_pos h0]
        refine hb.within hp rfl rfl rfl ?_ h0
        rw [hheld]
        exact iff_of_true (Or.inl rfl) (Or.inl rfl)
      · rw [if_neg h0]
        refine hb.within hp rfl rfl rfl ?_ trivial
        rw [hheld]
        exact iff_of_true (Or.inl rfl) (Or.inr h0)
  | release =>
      rw [exec_release hc, Option.some.injEq] at h
      subst h
      have h0 : S.count s.data = 0 := hb.knows_at hp
      have hheld : ∃ r, s.owner S.room = some (.inl r) :=
        (hb.held_iff hp rfl).2 (Or.inl rfl)
      refine hI.reader_room (o := none) hS (fun u hu => ?_) ?_
      · obtain ⟨v, hv⟩ := hheld
        rw [hv] at hu
        cases hu
      · refine hb.within hp rfl rfl rfl ?_ trivial
        apply iff_of_false (fun hne => hne rfl)
        rintro (hin | hne)
        · cases hin
        · exact hne h0
  | leave =>
      rw [exec_leave hc, Option.some.injEq] at h
      subst h
      exact hI.reader_door (o := none) hS
        (hb.pass hp rfl rfl rfl rfl)

/-! ### Steps of the other threads -/

omit [DecidableEq C] [DecidableEq M] in
/-- The step of another thread leaves the readers where they are. -/
theorem Inv.other_step (hI : S.Inv crit s) {k : Ctrl (RLoc ⊕ L) M C} {s₁ : St R U D L M C O}
    (hctrl : s₁.ctrl = s.ctrl) (hk : S.Other u k) (hdoor : s₁.owner S.door = s.owner S.door)
    (hreader : reader (s₁.owner S.room) = reader (s.owner S.room))
    (hother : ∀ v, v ≠ u → (s₁.owner S.room = some (.inr v) ↔ s.owner S.room = some (.inr v)))
    (hcrit : s₁.owner S.room = some (.inr u) ↔ InCrit (crit u) k)
    (hcount : S.count s₁.data = S.count s.data) :
    S.Inv crit (s₁.setCtrl (.inr u) k) where
  readers r := by
    rw [State.setCtrl_ctrl_of_ne Sum.inl_ne_inr, hctrl]
    exact hI.readers r
  others v := by
    by_cases hv : v = u
    · rw [hv, State.setCtrl_ctrl_self]
      exact hk
    · rw [State.setCtrl_ctrl_of_ne (by simpa using hv), hctrl]
      exact hI.others v
  crit v := by
    by_cases hv : v = u
    · rw [hv, State.setCtrl_ctrl_self]
      exact hcrit
    · rw [State.setCtrl_ctrl_of_ne (by simpa using hv), hctrl, State.setCtrl_owner, hother v hv]
      exact hI.crit v
  door v := by
    rw [State.setCtrl_owner, hdoor]
    exact hI.door v
  book := by
    have hplace : place s₁ = place s := by funext v; simp [place, hctrl]
    have hheld : ∀ o : Option (R ⊕ U), (∃ r, o = some (.inl r)) ↔ reader o ≠ none := by
      rintro (_ | _ | _) <;> simp
    have := hI.book
    rw [hheld] at this
    rw [place_setCtrl_inr, hplace, hheld, State.setCtrl_owner, hdoor, hreader, State.setCtrl_data,
      hcount]
    exact this

omit [DecidableEq C] in
/-- Another thread locks the room. -/
theorem Inv.other_take (hI : S.Inv crit s) (hS : S.Lawful crit) (ho : s.owner S.room = none) {l : L}
    (hl : crit u l) :
    S.Inv crit ((s.setOwner S.room (some (.inr u))).setCtrl (.inr u) (.run (.inr l))) := by
  refine hI.other_step rfl (Or.inl ⟨l, rfl⟩) ?_ ?_ (fun v hv => ?_) ?_ rfl
  · rw [State.setOwner_owner, if_neg hS.door_ne_room]
  · rw [State.setOwner_owner_self, ho]
    rfl
  · rw [State.setOwner_owner_self, ho]
    simp [Ne.symm hv]
  · rw [State.setOwner_owner_self]
    exact iff_of_true rfl ⟨l, rfl, hl⟩

omit [DecidableEq C] in
/-- Another thread gives up the room. -/
theorem Inv.other_give (hI : S.Inv crit s) (hS : S.Lawful crit)
    (ho : s.owner S.room = some (.inr u)) {k : Ctrl (RLoc ⊕ L) M C} (hk : S.Other u k)
    (hl : ¬ InCrit (crit u) k) : S.Inv crit ((s.setOwner S.room none).setCtrl (.inr u) k) := by
  refine hI.other_step rfl hk ?_ ?_ (fun v hv => ?_) ?_ rfl
  · rw [State.setOwner_owner, if_neg hS.door_ne_room]
  · rw [State.setOwner_owner_self, ho]
    rfl
  · rw [State.setOwner_owner_self, ho]
    simp [Ne.symm hv]
  · rw [State.setOwner_owner_self]
    exact iff_of_false nofun hl

omit [DecidableEq C] [DecidableEq M] in
/-- Another thread keeps what it holds. -/
theorem Inv.other_keep (hI : S.Inv crit s) {d : D} {ls : List O} {k : Ctrl (RLoc ⊕ L) M C}
    (hk : S.Other u k) (hl : InCrit (crit u) (s.ctrl (.inr u)) ↔ InCrit (crit u) k)
    (hcount : S.count d = S.count s.data) :
    S.Inv crit ((s.write (.inr u) d ls).setCtrl (.inr u) k) :=
  hI.other_step rfl hk rfl rfl (fun _ _ => Iff.rfl) ((hI.crit u).trans hl) hcount

omit [DecidableEq C] [DecidableEq M] in
theorem Inv.other_goto (hI : S.Inv crit s) {k : Ctrl (RLoc ⊕ L) M C} (hk : S.Other u k)
    (hl : InCrit (crit u) (s.ctrl (.inr u)) ↔ InCrit (crit u) k) :
    S.Inv crit (s.setCtrl (.inr u) k) :=
  hI.other_step rfl hk rfl rfl (fun _ _ => Iff.rfl) ((hI.crit u).trans hl) rfl

omit [DecidableEq R] [DecidableEq U] [DecidableEq M] in
theorem Inv.wakeAll (hI : S.Inv crit s) (c : C) : S.Inv crit (s.wakeAll c) where
  readers r := by
    obtain ⟨l, hl⟩ := hI.readers r
    exact ⟨l, Ctrl.wake_eq_run_iff.2 hl⟩
  others u := by
    rw [State.wakeAll_ctrl]
    rcases hI.others u with ⟨l, hl⟩ | ⟨l, c', next, hw, hl | hl⟩
    · exact Or.inl ⟨l, Ctrl.wake_eq_run_iff.2 hl⟩
    · refine Or.inr ⟨l, c', next, hw, ?_⟩
      rw [hl, Ctrl.wake]
      split
      · exact Or.inr rfl
      · exact Or.inl rfl
    · refine Or.inr ⟨l, c', next, hw, Or.inr ?_⟩
      rw [hl]
      rfl
  crit u := by
    rw [State.wakeAll_owner, hI.crit u]
    exact exists_congr fun l => and_congr_left fun _ => Ctrl.wake_eq_run_iff.symm
  door u := hI.door u
  book := by
    rw [place_wakeAll]
    exact hI.book

/-- The steps of another thread. -/
inductive OtherStep (S : Lightswitch R U D L M C O) (u : U) (s : St R U D L M C O) :
    St R U D L M C O → Prop
  | lock {l next} : s.ctrl (.inr u) = .run (.inr l) → S.code u l = .lock S.room next →
      s.owner S.room = none →
      OtherStep S u s ((s.setOwner S.room (some (.inr u))).setCtrl (.inr u) (.run (.inr next)))
  | unlock {l next} : s.ctrl (.inr u) = .run (.inr l) → S.code u l = .unlock S.room next →
      OtherStep S u s ((s.setOwner S.room none).setCtrl (.inr u) (.run (.inr next)))
  | wait {l c next} : s.ctrl (.inr u) = .run (.inr l) → S.code u l = .wait c S.room next →
      OtherStep S u s ((s.setOwner S.room none).setCtrl (.inr u) (.asleep c S.room (.inr next)))
  | broadcast {l c next} : s.ctrl (.inr u) = .run (.inr l) → S.code u l = .broadcast c next →
      OtherStep S u s ((s.wakeAll c).setCtrl (.inr u) (.run (.inr next)))
  | act {l f} (i : ℤ) : s.ctrl (.inr u) = .run (.inr l) → S.code u l = .act f →
      OtherStep S u s ((s.write (.inr u) (f i s.data).1 (f i s.data).2.1).setCtrl (.inr u)
        (.run (.inr (f i s.data).2.2)))
  | resume {l c next} : s.ctrl (.inr u) = .woken S.room (.inr next) →
      S.code u l = .wait c S.room next → s.owner S.room = none →
      OtherStep S u s ((s.setOwner S.room (some (.inr u))).setCtrl (.inr u) (.run (.inr next)))
  | spurious {l c next} : s.ctrl (.inr u) = .asleep c S.room (.inr next) →
      S.code u l = .wait c S.room next →
      OtherStep S u s (s.setCtrl (.inr u) (.woken S.room (.inr next)))

theorem Inv.otherStep (hI : S.Inv crit s) (hS : S.Lawful crit) {e : Event (R ⊕ U)}
    (he : e.thread = .inr u) (h : exec S.program s e = some s') : S.OtherStep u s s' := by
  cases e with
  | exec t i =>
      obtain rfl : t = .inr u := he
      rcases hI.others u with ⟨l, hc⟩ | ⟨l, c, next, -, hc | hc⟩
      · have hg := hS.guarded u l
        cases hi : S.code u l with
        | lock m next =>
            rw [hi] at hg
            obtain ⟨rfl, -, -⟩ := hg
            simp only [exec, hc, program, hi, Instr.map, Option.ite_none_right_eq_some,
              Option.some.injEq] at h
            exact h.2 ▸ .lock hc hi h.1
        | tryLock m taken refused =>
            rw [hi] at hg
            exact hg.elim
        | unlock m next =>
            rw [hi] at hg
            obtain ⟨rfl, -, -⟩ := hg
            simp only [exec, hc, program, hi, Instr.map, Option.some.injEq] at h
            exact h ▸ .unlock hc hi
        | wait c m next =>
            rw [hi] at hg
            obtain ⟨rfl, -, -⟩ := hg
            simp only [exec, hc, program, hi, Instr.map, Option.some.injEq] at h
            exact h ▸ .wait hc hi
        | broadcast c next =>
            simp only [exec, hc, program, hi, Instr.map, Option.some.injEq] at h
            exact h ▸ .broadcast hc hi
        | act f =>
            simp only [exec, hc, program, hi, Instr.map, Option.some.injEq] at h
            exact h ▸ .act i hc hi
        | exit => simp [exec, hc, program, hi, Instr.map] at h
      · simp [exec, hc] at h
      · simp [exec, hc] at h
  | resume t =>
      obtain rfl : t = .inr u := he
      rcases hI.others u with ⟨l, hc⟩ | ⟨l, c, next, hw, hc | hc⟩
      · simp [exec, hc] at h
      · simp [exec, hc] at h
      · simp only [exec, hc, Option.ite_none_right_eq_some, Option.some.injEq] at h
        exact h.2 ▸ .resume hc hw h.1
  | spurious t =>
      obtain rfl : t = .inr u := he
      rcases hI.others u with ⟨l, hc⟩ | ⟨l, c, next, hw, hc | hc⟩
      · simp [exec, hc] at h
      · simp only [exec, hc, Option.some.injEq] at h
        exact h ▸ .spurious hc hw
      · simp [exec, hc] at h

omit [DecidableEq R] [DecidableEq U] [DecidableEq M] [DecidableEq C] in
/-- A running thread at a location of its critical section owns the room. -/
theorem Inv.owner_of_crit (hI : S.Inv crit s) {l : L} (hc : s.ctrl (.inr u) = .run (.inr l))
    (hl : crit u l) : s.owner S.room = some (.inr u) :=
  (hI.crit u).2 ⟨l, hc, hl⟩

theorem Inv.step_other (hI : S.Inv crit s) (hS : S.Lawful crit) (h : S.OtherStep u s s') :
    S.Inv crit s' := by
  have hrun : ∀ {l l'}, (crit u l ↔ crit u l') → s.ctrl (.inr u) = .run (.inr l) →
      (InCrit (crit u) (s.ctrl (.inr u)) ↔ InCrit (M := M) (C := C) (crit u) (.run (.inr l'))) := by
    intro l l' hl hc
    simp [InCrit, hc, hl]
  cases h with
  | @lock l next hc hi ho =>
      have hg := hS.guarded u l
      rw [hi] at hg
      exact hI.other_take hS ho hg.2.2
  | @unlock l next hc hi =>
      have hg := hS.guarded u l
      rw [hi] at hg
      refine hI.other_give hS (hI.owner_of_crit hc hg.2.1) (Or.inl ⟨next, rfl⟩) ?_
      simpa [InCrit] using hg.2.2
  | @wait l c next hc hi =>
      have hg := hS.guarded u l
      rw [hi] at hg
      refine hI.other_give hS (hI.owner_of_crit hc hg.2.1) (Or.inr ⟨l, c, next, hi, Or.inl rfl⟩) ?_
      simp [InCrit]
  | @broadcast l c next hc hi =>
      have hg := hS.guarded u l
      rw [hi] at hg
      have hw := hI.wakeAll c
      have hk := hw.other_goto (u := u) (k := .run (.inr next)) (Or.inl ⟨next, rfl⟩)
      apply hk
      rw [← hw.crit, State.wakeAll_owner, hI.crit u]
      exact hrun (iff_of_true hg.1 hg.2) hc
  | @act l f i hc hi =>
      have hg := hS.guarded u l
      rw [hi] at hg
      exact hI.other_keep (Or.inl ⟨_, rfl⟩) (hrun (iff_of_true hg.1 (hg.2 i s.data).2) hc)
        (hg.2 i s.data).1
  | @resume l c next hc hi ho =>
      have hg := hS.guarded u l
      rw [hi] at hg
      exact hI.other_take hS ho hg.2.2
  | @spurious l c next hc hi =>
      exact hI.other_goto (Or.inr ⟨l, c, next, hi, Or.inr rfl⟩) (by simp [InCrit, hc])

/-- A step is an instruction of a reader or a step of another thread. -/
theorem Inv.step_cases (hI : S.Inv crit s) (hS : S.Lawful crit) {e : Event (R ⊕ U)}
    (h : Step S.program s e s') :
    (∃ r i, exec S.program s (.exec (.inl r) i) = some s') ∨ ∃ u, S.OtherStep u s s' := by
  have h := h.exec_eq
  rcases ht : e.thread with r | u
  · obtain ⟨l, hc⟩ := hI.readers r
    cases e with
    | exec t i =>
        obtain rfl : t = .inl r := ht
        exact Or.inl ⟨r, i, h⟩
    | resume t =>
        obtain rfl : t = .inl r := ht
        simp [exec, hc] at h
    | spurious t =>
        obtain rfl : t = .inl r := ht
        simp [exec, hc] at h
  · exact Or.inr ⟨u, hI.otherStep hS ht h⟩

theorem Inv.step (hI : S.Inv crit s) (hS : S.Lawful crit) {e : Event (R ⊕ U)}
    (h : Step S.program s e s') : S.Inv crit s' := by
  rcases hI.step_cases hS h with ⟨r, i, h⟩ | ⟨u, h⟩
  · exact hI.exec_reader hS h
  · exact hI.step_other hS h

theorem inv_of_reachable (hS : S.Lawful crit) {d₀ : D} (h₀ : S.count d₀ = 0)
    (h : Reachable (Step S.program) (S.program.init d₀) s) : S.Inv crit s :=
  h.invariant (I := S.Inv crit) (fun _ _ _ hI => hI.step hS) (inv_init hS h₀)

/-! ### What the room protects -/

/-- A step of a reader changes the counter or makes a statement of the reading section. -/
theorem Inv.reader_effect (hI : S.Inv crit s) (h : exec S.program s (.exec (.inl r) i) = some s') :
    (∀ u, s'.ctrl (.inr u) = s.ctrl (.inr u)) ∧
      (s'.data = s.data ∧ s'.out = s.out ∨ (∃ c, s'.data = S.setCount s.data c ∧ s'.out = s.out) ∨
        ∃ k, ∃ st ∈ S.reading, place s r = .read k ∧ s'.data = (st i s.data).1 ∧
          s'.out = s.out ++ (st i s.data).2.map (.inl r, ·)) := by
  have hne : ∀ (s₁ : St R U D L M C O) (k : Ctrl (RLoc ⊕ L) M C), s₁.ctrl = s.ctrl →
      ∀ u, (s₁.setCtrl (.inl r) k).ctrl (.inr u) = s.ctrl (.inr u) := by
    intro s₁ k hctrl u
    rw [State.setCtrl_ctrl_of_ne Sum.inr_ne_inl, hctrl]
  obtain ⟨⟨n, p⟩, hc⟩ := hI.readers r
  cases p with
  | enter =>
      rw [exec_enter hc, Option.ite_none_right_eq_some, Option.some.injEq] at h
      exact h.2 ▸ ⟨hne _ _ rfl, Or.inl ⟨rfl, rfl⟩⟩
  | arrive =>
      rw [exec_arrive hc, Option.some.injEq] at h
      exact h ▸ ⟨hne _ _ rfl, Or.inr (Or.inl ⟨_, rfl, by simp⟩)⟩
  | first =>
      rw [exec_first hc, Option.some.injEq] at h
      exact h ▸ ⟨hne _ _ rfl, Or.inl ⟨rfl, rfl⟩⟩
  | room =>
      rw [exec_room hc, Option.ite_none_right_eq_some, Option.some.injEq] at h
      exact h.2 ▸ ⟨hne _ _ rfl, Or.inl ⟨rfl, rfl⟩⟩
  | proceed =>
      rw [exec_proceed hc, Option.some.injEq] at h
      exact h ▸ ⟨hne _ _ rfl, Or.inl ⟨rfl, rfl⟩⟩
  | read k =>
      cases hk : S.reading[k]? with
      | some st =>
          rw [exec_read hc hk, Option.some.injEq] at h
          exact h ▸ ⟨hne _ _ rfl,
            Or.inr (Or.inr ⟨k, st, List.mem_of_getElem? hk, place_of hc, rfl, rfl⟩)⟩
      | none =>
          rw [exec_reenter hc hk, Option.ite_none_right_eq_some, Option.some.injEq] at h
          exact h.2 ▸ ⟨hne _ _ rfl, Or.inl ⟨rfl, rfl⟩⟩
  | depart =>
      rw [exec_depart hc, Option.some.injEq] at h
      exact h ▸ ⟨hne _ _ rfl, Or.inr (Or.inl ⟨_, rfl, by simp⟩)⟩
  | last =>
      rw [exec_last hc, Option.some.injEq] at h
      exact h ▸ ⟨hne _ _ rfl, Or.inl ⟨rfl, rfl⟩⟩
  | release =>
      rw [exec_release hc, Option.some.injEq] at h
      exact h ▸ ⟨hne _ _ rfl, Or.inl ⟨rfl, rfl⟩⟩
  | leave =>
      rw [exec_leave hc, Option.some.injEq] at h
      exact h ▸ ⟨hne _ _ rfl, Or.inl ⟨rfl, rfl⟩⟩

/-- `J` holds of the data and the log while no other thread holds the room, `A u l` while thread `u`
holds it and is at `l`. -/
structure Protects (S : Lightswitch R U D L M C O) (J : D → List ((R ⊕ U) × O) → Prop)
    (A : U → L → D → List ((R ⊕ U) × O) → Prop) : Prop where
  free_setCount : ∀ {d o} c, J d o → J (S.setCount d c) o
  held_setCount : ∀ {u l d o} c, A u l d o → A u l (S.setCount d c) o
  reading : ∀ {st}, st ∈ S.reading → ∀ {d o} i r, J d o →
    J (st i d).1 (o ++ (st i d).2.map (.inl r, ·))
  lock : ∀ {u l next d o}, S.code u l = .lock S.room next → J d o → A u next d o
  unlock : ∀ {u l next d o}, S.code u l = .unlock S.room next → A u l d o → J d o
  wait : ∀ {u l c next d o}, S.code u l = .wait c S.room next → A u l d o → J d o
  woken : ∀ {u l c next d o}, S.code u l = .wait c S.room next → J d o → A u next d o
  broadcast : ∀ {u l c next d o}, S.code u l = .broadcast c next → A u l d o → A u next d o
  act : ∀ {u l f d o} i, S.code u l = .act f → A u l d o →
    A u (f i d).2.2 (f i d).1 (o ++ (f i d).2.1.map (.inr u, ·))

/-- What `Protects` promises of a state. -/
structure Protected (S : Lightswitch R U D L M C O) (crit : U → L → Prop)
    (J : D → List ((R ⊕ U) × O) → Prop) (A : U → L → D → List ((R ⊕ U) × O) → Prop)
    (s : St R U D L M C O) : Prop where
  free : (∀ u, s.owner S.room ≠ some (.inr u)) → J s.data s.out
  held : ∀ u l, s.ctrl (.inr u) = .run (.inr l) → crit u l → A u l s.data s.out

variable {J : D → List ((R ⊕ U) × O) → Prop} {A : U → L → D → List ((R ⊕ U) × O) → Prop}

omit [DecidableEq R] [DecidableEq U] [DecidableEq M] [DecidableEq C] in
/-- While the room is free only `J` counts. -/
theorem Protected.of_free (hI : S.Inv crit s) (hJ : J s.data s.out)
    (ho : ∀ u, s.owner S.room ≠ some (.inr u)) : S.Protected crit J A s where
  free _ := hJ
  held u _ hc hl := absurd (hI.owner_of_crit hc hl) (ho u)

omit [DecidableEq R] [DecidableEq U] [DecidableEq M] [DecidableEq C] in
/-- While thread `u` holds the room only its assertion counts. -/
theorem Protected.of_held (hI : S.Inv crit s) (ho : s.owner S.room = some (.inr u))
    (hA : ∀ l, s.ctrl (.inr u) = .run (.inr l) → A u l s.data s.out) : S.Protected crit J A s where
  free hno := absurd ho (hno u)
  held v l hc hl := by
    have hv := hI.owner_of_crit hc hl
    rw [ho] at hv
    obtain rfl : u = v := by simpa using hv
    exact hA l hc

theorem Protected.step_reader (hP : S.Protected crit J A s) (hI : S.Inv crit s)
    (hI' : S.Inv crit s') (hA : S.Protects J A)
    (h : exec S.program s (.exec (.inl r) i) = some s') : S.Protected crit J A s' := by
  obtain ⟨hctrl, heff⟩ := hI.reader_effect h
  have howner : ∀ u, s'.owner S.room = some (.inr u) ↔ s.owner S.room = some (.inr u) := by
    intro u
    rw [hI'.crit u, hctrl u, hI.crit u]
  rcases heff with ⟨hd, ho⟩ | ⟨c, hd, ho⟩ | ⟨k, st, hst, hp, hd, ho⟩
  · refine ⟨fun hno => ?_, fun u l hc hl => ?_⟩
    · rw [hd, ho]
      exact hP.free fun u hu => hno u ((howner u).2 hu)
    · rw [hd, ho]
      exact hP.held u l (hctrl u ▸ hc) hl
  · refine ⟨fun hno => ?_, fun u l hc hl => ?_⟩
    · rw [hd, ho]
      exact hA.free_setCount c (hP.free fun u hu => hno u ((howner u).2 hu))
    · rw [hd, ho]
      exact hA.held_setCount c (hP.held u l (hctrl u ▸ hc) hl)
  · -- the reader is inside, so no other thread holds the room
    obtain ⟨v, hv⟩ := hI.book.room.2 ⟨r, by rw [hp]; rfl⟩
    have hno : ∀ u, s.owner S.room ≠ some (.inr u) := by
      intro u hu
      rw [hv] at hu
      cases hu
    refine .of_free hI' ?_ fun u hu => hno u ((howner u).1 hu)
    rw [hd, ho]
    exact hA.reading hst i r (hP.free hno)

theorem Protected.step_other (hP : S.Protected crit J A s) (hI : S.Inv crit s)
    (hI' : S.Inv crit s') (hS : S.Lawful crit) (hA : S.Protects J A) (h : S.OtherStep u s s') :
    S.Protected crit J A s' := by
  cases h with
  | @lock l next hc hi ho =>
      refine .of_held hI' (u := u) (by simp) fun l' hl' => ?_
      obtain rfl : next = l' := by simpa using hl'
      exact hA.lock hi (hP.free fun v => by rw [ho]; nofun)
  | @unlock l next hc hi =>
      have hg := hS.guarded u l
      rw [hi] at hg
      exact .of_free hI' (hA.unlock hi (hP.held u l hc hg.2.1)) fun v => by simp
  | @wait l c next hc hi =>
      have hg := hS.guarded u l
      rw [hi] at hg
      exact .of_free hI' (hA.wait hi (hP.held u l hc hg.2.1)) fun v => by simp
  | @broadcast l c next hc hi =>
      have hg := hS.guarded u l
      rw [hi] at hg
      refine .of_held hI' (u := u) (hI.owner_of_crit hc hg.1) fun l' hl' => ?_
      obtain rfl : next = l' := by simpa using hl'
      exact hA.broadcast hi (hP.held u l hc hg.1)
  | @act l f i hc hi =>
      have hg := hS.guarded u l
      rw [hi] at hg
      refine .of_held hI' (u := u) (hI.owner_of_crit hc hg.1) fun l' hl' => ?_
      obtain rfl : (f i s.data).2.2 = l' := by simpa using hl'
      exact hA.act i hi (hP.held u l hc hg.1)
  | @resume l c next hc hi ho =>
      refine .of_held hI' (u := u) (by simp) fun l' hl' => ?_
      obtain rfl : next = l' := by simpa using hl'
      exact hA.woken hi (hP.free fun v => by rw [ho]; nofun)
  | @spurious l c next hc hi =>
      refine ⟨hP.free, fun v l' hc' hl' => ?_⟩
      by_cases hv : v = u
      · subst hv
        rw [State.setCtrl_ctrl_self] at hc'
        cases hc'
      · rw [State.setCtrl_ctrl_of_ne (by simpa using hv)] at hc'
        exact hP.held v l' hc' hl'

theorem Protected.step (hP : S.Protected crit J A s) (hI : S.Inv crit s) (hS : S.Lawful crit)
    (hA : S.Protects J A) {e : Event (R ⊕ U)} (h : Step S.program s e s') :
    S.Protected crit J A s' := by
  have hI' := hI.step hS h
  rcases hI.step_cases hS h with ⟨r, i, h⟩ | ⟨u, h⟩
  · exact hP.step_reader hI hI' hA h
  · exact hP.step_other hI hI' hS hA h

theorem protected_of_reachable (hS : S.Lawful crit) (hA : S.Protects J A) {d₀ : D}
    (h₀ : S.count d₀ = 0) (hJ : J d₀ [])
    (h : Reachable (Step S.program) (S.program.init d₀) s) : S.Protected crit J A s := by
  have hinit : S.Inv crit (S.program.init d₀) ∧ S.Protected crit J A (S.program.init d₀) :=
    ⟨inv_init hS h₀, .of_free (inv_init hS h₀) hJ fun u => nofun⟩
  have := h.invariant (I := fun s => S.Inv crit s ∧ S.Protected crit J A s)
    (fun _ _ _ hI hs => ⟨hI.1.step hS hs, hI.2.step hI.1 hS hA hs⟩) hinit
  exact this.2

end Kept

end Lightswitch

end Pthread
