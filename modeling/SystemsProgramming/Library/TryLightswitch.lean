import SystemsProgramming.Library.Pthread
import SystemsProgramming.Library.Monitor
import SystemsProgramming.Library.Turnstile

/-!
# First in tries the room, last out unlocks it

Objects that any thread may read or write without waiting for the room of the object: a writer tries
to lock it, and so does the first reader in; who fails is refused.  An object may also refuse readers
when a limit is reached.  `TryLightswitch.Inv` describes one object in every state that is reached
without a reader locking the room of an object whose limit is zero, and `TryLightswitch.History` the
calls in progress.
-/

namespace Pthread

open Transition

/-- A call on an object. -/
inductive TryCall (X : Type) where
  | read (x : X)
  | write (x : X)
  deriving DecidableEq

/-- The mutexes of the objects. -/
inductive Gate (X : Type) where
  | door (x : X)
  | room (x : X)
  deriving DecidableEq

/-- The places of a reader. -/
inductive TryRead where
  /-- locks the door -/
  | enter
  /-- tests whether it is the first -/
  | test
  /-- tries the room -/
  | tryRoom
  /-- tests the limit -/
  | full
  /-- increments the counter -/
  | arrive
  /-- unlocks the door -/
  | proceed
  /-- runs statement `k` of its reading section, and locks the door after the last one -/
  | read (k : ℕ)
  /-- decrements the counter -/
  | depart
  /-- tests whether it is the last -/
  | last
  /-- unlocks the room -/
  | release
  /-- unlocks the door -/
  | leave
  /-- unlocks the door, refused -/
  | refuse
  deriving DecidableEq

/-- The places of a thread. -/
inductive TryPlace (X : Type) where
  /-- chooses its next call -/
  | idle
  /-- makes no more calls -/
  | done
  | reader (x : X) (p : TryRead)
  /-- tries the room -/
  | tryWrite (x : X)
  /-- runs statement `k` of its writing section with the local value `v`, and unlocks the room after
  the last one -/
  | writer (x : X) (v : ℤ) (k : ℕ)
  /-- the call has returned `ok` -/
  | returned (call : TryCall X) (ok : Bool)
  deriving DecidableEq

/-- The first place of a call. -/
def TryCall.start : TryCall X → TryPlace X
  | .read x => .reader x .enter
  | .write x => .tryWrite x

/-- The place of a reader of `x`. -/
def TryPlace.readerOf [DecidableEq X] (x : X) : TryPlace X → Option TryRead
  | .reader y p => if y = x then some p else none
  | _ => none

/-- A writer holds the room of `x`. -/
def TryPlace.Writes (x : X) : TryPlace X → Prop
  | .writer y _ _ => y = x
  | _ => False

/-- A call on `x` is in progress. -/
def TryPlace.Calls (x : X) : TryPlace X → Prop
  | .reader y _ => y = x
  | .tryWrite y => y = x
  | .writer y _ _ => y = x
  | _ => False

theorem TryPlace.Writes.calls {X : Type} {x : X} {p : TryPlace X} (h : p.Writes x) : p.Calls x := by
  cases p with
  | writer => exact h
  | _ => exact h.elim

@[simp] theorem TryPlace.readerOf_reader {X : Type} [DecidableEq X] (x : X) (q : TryRead) :
    (TryPlace.reader x q).readerOf x = some q := if_pos rfl

theorem TryPlace.readerOf_eq_none {X : Type} [DecidableEq X] {x : X} {p : TryPlace X}
    (h : ¬ p.Calls x) : p.readerOf x = none := by
  cases p with
  | reader => exact if_neg h
  | _ => rfl

/-- A location: the number of successful calls and a place. -/
structure TryLoc (X : Type) where
  i : ℕ
  place : TryPlace X
  deriving DecidableEq

/-- A statement with a local value. -/
abbrev LocalStmt (D O : Type) := ℤ → ℤ → D → ℤ × D × List O

/-- Objects `X` in the data, and threads `T` that call their operations. -/
structure TryLightswitch (T X D O : Type) where
  /-- the counters in the data -/
  count : X → D → ℤ
  setCount : X → D → ℤ → D
  /-- the bound on the number of readers, if readers are refused for it -/
  limit : Option (X → D → ℤ)
  /-- the statements between the entry and the exit of a reader -/
  reading : X → List (Stmt D O)
  /-- the statements of a writer that holds the room -/
  writing : X → List (LocalStmt D O)
  /-- the next call of a thread after its first `i` successful ones, chosen with an input -/
  next : T → ℕ → ℤ → Option (TryCall X)

namespace TryLightswitch

variable {T X D O : Type} (S : TryLightswitch T X D O)

/-- Where a reader goes that may enter as far as the room is concerned. -/
def admitted : TryRead := if S.limit.isSome then .full else .arrive

/-- The bound on the readers of `x`. -/
def limitOf (x : X) (d : D) : Option ℤ := S.limit.map fun f => f x d

/-- The code of a reader. -/
def readerCode (i : ℕ) (x : X) : TryRead → Instr D (TryLoc X) (Gate X) Empty O
  | .enter => .lock (.door x) ⟨i, .reader x .test⟩
  | .test => .act fun _ d =>
      (d, [], ⟨i, .reader x (if S.count x d = 0 then .tryRoom else S.admitted)⟩)
  | .tryRoom => .tryLock (.room x) ⟨i, .reader x S.admitted⟩ ⟨i, .reader x .refuse⟩
  | .full => .act fun _ d =>
      (d, [], ⟨i, .reader x (if S.limitOf x d = some (S.count x d) then .refuse else .arrive)⟩)
  | .arrive => .act fun _ d => (S.setCount x d (S.count x d + 1), [], ⟨i, .reader x .proceed⟩)
  | .proceed => .unlock (.door x) ⟨i, .reader x (.read 0)⟩
  | .read k =>
    match (S.reading x)[k]? with
    | some st => .act fun v d => ((st v d).1, (st v d).2, ⟨i, .reader x (.read (k + 1))⟩)
    | none => .lock (.door x) ⟨i, .reader x .depart⟩
  | .depart => .act fun _ d => (S.setCount x d (S.count x d - 1), [], ⟨i, .reader x .last⟩)
  | .last => .act fun _ d =>
      (d, [], ⟨i, .reader x (if S.count x d = 0 then .release else .leave)⟩)
  | .release => .unlock (.room x) ⟨i, .reader x .leave⟩
  | .leave => .unlock (.door x) ⟨i, .returned (.read x) true⟩
  | .refuse => .unlock (.door x) ⟨i, .returned (.read x) false⟩

/-- The code of a thread. -/
def code (t : T) (l : TryLoc X) : Instr D (TryLoc X) (Gate X) Empty O :=
  match l.place with
  | .idle => .act fun v d =>
      (d, [], ⟨l.i, match S.next t l.i v with
        | some call => call.start
        | none => .done⟩)
  | .done => .exit
  | .reader x p => S.readerCode l.i x p
  | .tryWrite x => .tryLock (.room x) ⟨l.i, .writer x 0 0⟩ ⟨l.i, .returned (.write x) false⟩
  | .writer x v k =>
    match (S.writing x)[k]? with
    | some st => .act fun i d => ((st i v d).2.1, (st i v d).2.2, ⟨l.i, .writer x (st i v d).1 (k + 1)⟩)
    | none => .unlock (.room x) ⟨l.i, .returned (.write x) true⟩
  | .returned _ ok => .act fun _ d => (d, [], ⟨if ok then l.i + 1 else l.i, .idle⟩)

/-- All threads. -/
def program : Program T D (TryLoc X) (Gate X) Empty O where
  code := S.code
  entry _ := ⟨0, .idle⟩

/-- States of the program. -/
abbrev St (T X D O : Type) := State T D (TryLoc X) (Gate X) Empty O

/-- A field in which the new value agrees with the old one is the same everywhere. -/
theorem field_update {ι α β : Type*} [DecidableEq ι] (f : α → β) {d : ι → α} {y : ι} {a : α}
    (h : f a = f (d y)) (x : ι) : f (Function.update d y a x) = f (d x) := by
  rw [Function.apply_update (fun _ => f), h, Function.update_eq_self y fun k => f (d k)]

/-- The counter and the limit of an object are used by its readers only. -/
structure Lawful [DecidableEq X] : Prop where
  count_setCount : ∀ x y d c, S.count x (S.setCount y d c) = if x = y then c else S.count x d
  limit_setCount : ∀ x y d c, S.limitOf x (S.setCount y d c) = S.limitOf x d
  reading_count : ∀ y, ∀ st ∈ S.reading y, ∀ i d x,
    S.count x (st i d).1 = S.count x d ∧ S.limitOf x (st i d).1 = S.limitOf x d
  writing_count : ∀ y, ∀ st ∈ S.writing y, ∀ i v d x,
    S.count x (st i v d).2.1 = S.count x d ∧ S.limitOf x (st i v d).2.1 = S.limitOf x d

/-! ### The invariant of one object -/

/-- The places of a reader at the turnstile of an object with the limit `lim`; elsewhere it is
`none`. -/
def turnstile (lim : Option ℤ) : Turnstile (Option TryRead) where
  door
    | none | some .enter | some (.read _) => false
    | _ => true
  counted
    | some .proceed | some (.read _) | some .depart => true
    | _ => false
  inside
    | some .full | some .arrive | some .proceed | some (.read _) | some .depart | some .last
    | some .release => true
    | _ => false
  knows
    | some .tryRoom, c => c = 0
    | some .full, c => lim = some c → c ≠ 0
    | some .arrive, c => lim ≠ some c
    | some .release, c => c = 0
    | _, _ => True
  counted_eq p := by
    cases p with
    | none => simp
    | some p => cases p <;> simp
  knows_of p c := by
    cases p with
    | none => simp
    | some p => cases p <;> simp

/-- Where a thread is. -/
def placeOf (s : St T X D O) (t : T) : TryPlace X := (s.ctrl t).loc.place

/-- The places of the readers of `x`. -/
def readers [DecidableEq X] (x : X) (s : St T X D O) (t : T) : Option TryRead :=
  (placeOf s t).readerOf x

theorem readers_of_place [DecidableEq X] {x : X} {s : St T X D O} {t : T} {q : TryRead}
    (hp : placeOf s t = .reader x q) : readers x s t = some q := by
  rw [readers, hp, TryPlace.readerOf_reader]

/-- A writer of `x` is between its lock and its unlock. -/
def HasWriter (x : X) (s : St T X D O) : Prop := ∃ t, (placeOf s t).Writes x

/-- In this step a reader locks the room of `x`. -/
def TakesRoom (x : X) (s : St T X D O) (e : Event T) : Prop :=
  placeOf s e.thread = .reader x .tryRoom ∧ s.owner (.room x) = none

variable [DecidableEq X] [Fintype T]

/-- What holds of object `x` with the limit `lim`. -/
structure Inv (x : X) (lim : Option ℤ) (s : St T X D O) : Prop where
  running : ∀ t, ∃ l, s.ctrl t = .run l
  writer : ∀ t, (placeOf s t).Writes x → s.owner (.room x) = some t
  book : (turnstile lim).Consistent (readers x s) (s.owner (.door x))
    (s.owner (.room x) ≠ none ∧ ¬ HasWriter x s) (S.count x s.data)
  limit : S.limitOf x s.data = lim
  bound : ∀ n, lim = some n → 0 ≤ n → S.count x s.data ≤ n

variable {S} [DecidableEq T] {s s' s₁ : St T X D O} {t u : T} {n : ℕ} {x : X} {lim : Option ℤ}
  {l : TryLoc X} {p : TryPlace X}

omit [DecidableEq T] in
theorem inv_init {d₀ : D} (h₀ : S.count x d₀ = 0) (hlim : S.limitOf x d₀ = lim) :
    S.Inv x lim (S.program.init d₀) where
  running t := ⟨_, rfl⟩
  writer t h := h.elim
  book := by
    have := Turnstile.Consistent.init (K := turnstile lim) (R := T) (p := none) rfl rfl
    have hheld : ((S.program.init d₀).owner (.room x) ≠ none ∧ ¬ HasWriter x (S.program.init d₀)) ↔
        False := iff_of_false (fun h => h.1 rfl) id
    rw [hheld]
    exact h₀ ▸ this
  limit := hlim
  bound n _ hn := by
    show S.count x d₀ ≤ n
    rwa [h₀]

/-! ### Steps -/

/-- What thread `t` can do at a place after `n` successful calls. -/
inductive Move (S : TryLightswitch T X D O) (t : T) (n : ℕ) (s : St T X D O) :
    TryPlace X → St T X D O → Prop
  | choose (v : ℤ) : Move S t n s .idle
      (s.setCtrl t (.run ⟨n, match S.next t n v with
        | some call => call.start
        | none => .done⟩))
  | enter {x : X} : s.owner (.door x) = none → Move S t n s (.reader x .enter)
      ((s.setOwner (.door x) (some t)).setCtrl t (.run ⟨n, .reader x .test⟩))
  | test {x : X} : Move S t n s (.reader x .test) (s.setCtrl t
      (.run ⟨n, .reader x (if S.count x s.data = 0 then .tryRoom else S.admitted)⟩))
  | takeRoom {x : X} : s.owner (.room x) = none → Move S t n s (.reader x .tryRoom)
      ((s.setOwner (.room x) (some t)).setCtrl t (.run ⟨n, .reader x S.admitted⟩))
  | reject {x : X} : s.owner (.room x) ≠ none → Move S t n s (.reader x .tryRoom)
      (s.setCtrl t (.run ⟨n, .reader x .refuse⟩))
  | full {x : X} : Move S t n s (.reader x .full) (s.setCtrl t
      (.run ⟨n, .reader x (if S.limitOf x s.data = some (S.count x s.data) then .refuse
        else .arrive)⟩))
  | arrive {x : X} : Move S t n s (.reader x .arrive)
      ((s.write t (S.setCount x s.data (S.count x s.data + 1)) []).setCtrl t
        (.run ⟨n, .reader x .proceed⟩))
  | proceed {x : X} : Move S t n s (.reader x .proceed)
      ((s.setOwner (.door x) none).setCtrl t (.run ⟨n, .reader x (.read 0)⟩))
  | read {x : X} {k : ℕ} {st : Stmt D O} (v : ℤ) : (S.reading x)[k]? = some st → Move S t n s (.reader x (.read k))
      ((s.write t (st v s.data).1 (st v s.data).2).setCtrl t
        (.run ⟨n, .reader x (.read (k + 1))⟩))
  | reenter {x : X} {k : ℕ} : (S.reading x)[k]? = none → s.owner (.door x) = none →
      Move S t n s (.reader x (.read k))
        ((s.setOwner (.door x) (some t)).setCtrl t (.run ⟨n, .reader x .depart⟩))
  | depart {x : X} : Move S t n s (.reader x .depart)
      ((s.write t (S.setCount x s.data (S.count x s.data - 1)) []).setCtrl t
        (.run ⟨n, .reader x .last⟩))
  | last {x : X} : Move S t n s (.reader x .last) (s.setCtrl t
      (.run ⟨n, .reader x (if S.count x s.data = 0 then .release else .leave)⟩))
  | release {x : X} : Move S t n s (.reader x .release)
      ((s.setOwner (.room x) none).setCtrl t (.run ⟨n, .reader x .leave⟩))
  | leave {x : X} : Move S t n s (.reader x .leave)
      ((s.setOwner (.door x) none).setCtrl t (.run ⟨n, .returned (.read x) true⟩))
  | refuse {x : X} : Move S t n s (.reader x .refuse)
      ((s.setOwner (.door x) none).setCtrl t (.run ⟨n, .returned (.read x) false⟩))
  | begin {x : X} : s.owner (.room x) = none → Move S t n s (.tryWrite x)
      ((s.setOwner (.room x) (some t)).setCtrl t (.run ⟨n, .writer x 0 0⟩))
  | deny {x : X} : s.owner (.room x) ≠ none → Move S t n s (.tryWrite x)
      (s.setCtrl t (.run ⟨n, .returned (.write x) false⟩))
  | write {x : X} {v : ℤ} {k : ℕ} {st : LocalStmt D O} (i : ℤ) : (S.writing x)[k]? = some st → Move S t n s (.writer x v k)
      ((s.write t (st i v s.data).2.1 (st i v s.data).2.2).setCtrl t
        (.run ⟨n, .writer x (st i v s.data).1 (k + 1)⟩))
  | finish {x : X} {v : ℤ} {k : ℕ} : (S.writing x)[k]? = none → Move S t n s (.writer x v k)
      ((s.setOwner (.room x) none).setCtrl t (.run ⟨n, .returned (.write x) true⟩))
  | again {call : TryCall X} {ok : Bool} : Move S t n s (.returned call ok)
      (s.setCtrl t (.run ⟨if ok then n + 1 else n, .idle⟩))

omit [Fintype T] in
theorem move_of_exec {i : ℤ} (hc : s.ctrl t = .run ⟨n, p⟩)
    (h : exec S.program s (.exec t i) = some s') : S.Move t n s p s' := by
  cases p with
  | idle =>
      simp only [exec, hc, program, code, State.write_self, Option.some.injEq] at h
      exact h ▸ .choose i
  | done => simp [exec, hc, program, code] at h
  | reader x q =>
      cases q with
      | enter =>
          simp only [exec, hc, program, code, readerCode, Option.ite_none_right_eq_some,
            Option.some.injEq] at h
          exact h.2 ▸ .enter h.1
      | tryRoom =>
          simp only [exec, hc, program, code, readerCode] at h
          split at h
          · next ho => exact Option.some.inj h ▸ .takeRoom ho
          · next ho => exact Option.some.inj h ▸ .reject ho
      | read k =>
          cases hk : (S.reading x)[k]? with
          | some st =>
              simp only [exec, hc, program, code, readerCode, hk, Option.some.injEq] at h
              exact h ▸ .read i hk
          | none =>
              simp only [exec, hc, program, code, readerCode, hk, Option.ite_none_right_eq_some,
                Option.some.injEq] at h
              exact h.2 ▸ .reenter hk h.1
      | _ =>
          simp only [exec, hc, program, code, readerCode, State.write_self, Option.some.injEq] at h
          subst h
          constructor
  | tryWrite x =>
      simp only [exec, hc, program, code] at h
      split at h
      · next ho => exact Option.some.inj h ▸ .begin ho
      · next ho => exact Option.some.inj h ▸ .deny ho
  | writer x v k =>
      cases hk : (S.writing x)[k]? with
      | some st =>
          simp only [exec, hc, program, code, hk, Option.some.injEq] at h
          exact h ▸ .write i hk
      | none =>
          simp only [exec, hc, program, code, hk, Option.some.injEq] at h
          exact h ▸ .finish hk
  | returned call ok =>
      simp only [exec, hc, program, code, State.write_self, Option.some.injEq] at h
      exact h ▸ .again

/-- A step of `t` that has nothing to do with `x`, but for the start of a call. -/
structure Elsewhere (S : TryLightswitch T X D O) (x : X) (t : T) (s s' : St T X D O) : Prop where
  others : ∀ u, u ≠ t → s'.ctrl u = s.ctrl u
  self : ∃ l, s'.ctrl t = .run l ∧ ¬ l.place.Writes x ∧
    (l.place.readerOf x = none ∨ l.place.readerOf x = some .enter)
  door : s'.owner (.door x) = s.owner (.door x)
  room : s'.owner (.room x) = s.owner (.room x)
  count : S.count x s'.data = S.count x s.data
  limit : S.limitOf x s'.data = S.limitOf x s.data

omit [Fintype T] in
theorem elsewhere_of_step (hctrl : s₁.ctrl = s.ctrl) (hdoor : s₁.owner (.door x) = s.owner (.door x))
    (hroom : s₁.owner (.room x) = s.owner (.room x))
    (hdata : S.count x s₁.data = S.count x s.data ∧ S.limitOf x s₁.data = S.limitOf x s.data)
    (hw : ¬ l.place.Writes x)
    (hr : l.place.readerOf x = none ∨ l.place.readerOf x = some .enter) :
    S.Elsewhere x t s (s₁.setCtrl t (.run l)) where
  others u hu := by rw [State.setCtrl_ctrl_of_ne hu, hctrl]
  self := ⟨l, State.setCtrl_ctrl_self, hw, hr⟩
  door := hdoor
  room := hroom
  count := hdata.1
  limit := hdata.2

omit [Fintype T] in
theorem Move.elsewhere (hS : S.Lawful) (h : S.Move t n s p s') (hp : ¬ p.Calls x) :
    S.Elsewhere x t s s' := by
  have hread : ∀ {y : X} {q : TryRead}, ¬ (y = x) →
      (TryPlace.reader y q).readerOf x = none := fun hy => if_neg hy
  have hdoor : ∀ {y : X} {o : Option T}, ¬ (y = x) →
      (s.setOwner (.door y) o).owner (.door x) = s.owner (.door x) := by
    intro y o hy
    rw [State.setOwner_owner, if_neg (by simpa using Ne.symm hy)]
  have hroom : ∀ {y : X} {o : Option T}, ¬ (y = x) →
      (s.setOwner (.room y) o).owner (.room x) = s.owner (.room x) := by
    intro y o hy
    rw [State.setOwner_owner, if_neg (by simpa using Ne.symm hy)]
  have hother : ∀ {y : X} {o : Option T}, (s.setOwner (.door y) o).owner (.room x) = s.owner (.room x) ∧
      (s.setOwner (.room y) o).owner (.door x) = s.owner (.door x) := by
    intro y o
    exact ⟨by rw [State.setOwner_owner, if_neg nofun], by rw [State.setOwner_owner, if_neg nofun]⟩
  have hset : ∀ {y : X} {c : ℤ}, ¬ (y = x) → S.count x (S.setCount y s.data c) = S.count x s.data ∧
      S.limitOf x (S.setCount y s.data c) = S.limitOf x s.data := by
    intro y c hy
    exact ⟨by rw [hS.count_setCount, if_neg (Ne.symm hy)], hS.limit_setCount x y s.data c⟩
  cases h with
  | choose v =>
      refine elsewhere_of_step rfl rfl rfl ⟨rfl, rfl⟩ ?_ ?_
      · cases S.next t n v with
        | none => exact id
        | some call => cases call <;> exact id
      · cases S.next t n v with
        | none => exact Or.inl rfl
        | some call =>
            cases call with
            | write y => exact Or.inl rfl
            | read y =>
                by_cases hy : y = x
                · exact Or.inr (if_pos hy)
                · exact Or.inl (if_neg hy)
  | again => exact elsewhere_of_step rfl rfl rfl ⟨rfl, rfl⟩ id (Or.inl rfl)
  | enter | proceed | reenter =>
      exact elsewhere_of_step rfl (hdoor hp) hother.1 ⟨rfl, rfl⟩ id (Or.inl (hread hp))
  | leave | refuse => exact elsewhere_of_step rfl (hdoor hp) hother.1 ⟨rfl, rfl⟩ id (Or.inl rfl)
  | test | reject | full | last =>
      exact elsewhere_of_step rfl rfl rfl ⟨rfl, rfl⟩ id (Or.inl (hread hp))
  | takeRoom | release =>
      exact elsewhere_of_step rfl hother.2 (hroom hp) ⟨rfl, rfl⟩ id (Or.inl (hread hp))
  | arrive | depart => exact elsewhere_of_step rfl rfl rfl (hset hp) id (Or.inl (hread hp))
  | read v hk =>
      exact elsewhere_of_step rfl rfl rfl (hS.reading_count _ _ (List.mem_of_getElem? hk) v _ x) id
        (Or.inl (hread hp))
  | begin => exact elsewhere_of_step rfl hother.2 (hroom hp) ⟨rfl, rfl⟩ hp (Or.inl rfl)
  | deny => exact elsewhere_of_step rfl rfl rfl ⟨rfl, rfl⟩ id (Or.inl rfl)
  | write i hk =>
      exact elsewhere_of_step rfl rfl rfl (hS.writing_count _ _ (List.mem_of_getElem? hk) i _ _ x) hp
        (Or.inl rfl)
  | finish => exact elsewhere_of_step rfl hother.2 (hroom hp) ⟨rfl, rfl⟩ id (Or.inl rfl)

omit [DecidableEq X] [Fintype T] in
@[simp] theorem placeOf_setCtrl_self : placeOf (s.setCtrl t (.run l)) t = l.place := by
  simp [placeOf]

omit [DecidableEq X] [Fintype T] in
theorem placeOf_setCtrl_of_ne (hu : u ≠ t) {k : Ctrl (TryLoc X) (Gate X) Empty} :
    placeOf (s.setCtrl t k) u = placeOf s u := by
  rw [placeOf, State.setCtrl_ctrl_of_ne hu, placeOf]

omit [Fintype T] in
theorem readers_eq_update (hctrl : ∀ u, u ≠ t → s'.ctrl u = s.ctrl u) :
    readers x s' = Function.update (readers x s) t ((placeOf s' t).readerOf x) := by
  funext u
  by_cases hu : u = t
  · simp [hu, readers]
  · rw [Function.update_of_ne hu, readers, placeOf, hctrl u hu]
    rfl

omit [DecidableEq X] [Fintype T] in
/-- Whether a writer is in does not change when `t` moves and is none. -/
theorem hasWriter_iff (hctrl : ∀ u, u ≠ t → s'.ctrl u = s.ctrl u) (h : ¬ (placeOf s t).Writes x)
    (h' : ¬ (placeOf s' t).Writes x) : HasWriter x s' ↔ HasWriter x s := by
  refine exists_congr fun u => ?_
  by_cases hu : u = t
  · rw [hu]
    exact iff_of_false h' h
  · rw [placeOf, placeOf, hctrl u hu]

theorem Inv.elsewhere (hI : S.Inv x lim s) (h : S.Elsewhere x t s s')
    (hp : ¬ (placeOf s t).Calls x) : S.Inv x lim s' := by
  obtain ⟨l, hl, hw, hr⟩ := h.self
  have hplace : placeOf s' t = l.place := by rw [placeOf, hl]; rfl
  have hnone : readers x s t = none := TryPlace.readerOf_eq_none hp
  refine ⟨fun u => ?_, fun u hu => ?_, ?_, h.limit.trans hI.limit, fun n hn hpos => ?_⟩
  · by_cases hu : u = t
    · exact ⟨l, hu ▸ hl⟩
    · rw [h.others u hu]
      exact hI.running u
  · rw [h.room]
    apply hI.writer u
    by_cases hut : u = t
    · rw [hut, hplace] at hu
      exact absurd hu hw
    · rwa [placeOf, h.others u hut] at hu
  · have hsame := hasWriter_iff h.others (fun hw => hp hw.calls) (by rwa [hplace])
    rw [readers_eq_update h.others, h.door, h.room, h.count, hsame, hplace]
    refine hI.book.outside hnone rfl ?_ ?_
    · rcases hr with hr | hr <;> (rw [hr]; rfl)
    · rcases hr with hr | hr <;> simp [hr, turnstile]
  · rw [h.count]
    exact hI.bound n hn hpos

/-- A step of `t` in a call on `x`. -/
theorem Inv.own_step (hI : S.Inv x lim s) (hctrl : s₁.ctrl = s.ctrl)
    (hothers : ∀ u, u ≠ t → (placeOf s u).Writes x → s₁.owner (.room x) = some u)
    (hself : l.place.Writes x → s₁.owner (.room x) = some t)
    (hbook : (turnstile lim).Consistent (Function.update (readers x s) t (l.place.readerOf x))
      (s₁.owner (.door x)) (s₁.owner (.room x) ≠ none ∧ ¬ HasWriter x (s₁.setCtrl t (.run l)))
      (S.count x s₁.data))
    (hlimit : S.limitOf x s₁.data = S.limitOf x s.data)
    (hbound : ∀ n, lim = some n → 0 ≤ n → S.count x s₁.data ≤ n) :
    S.Inv x lim (s₁.setCtrl t (.run l)) where
  running u := by
    by_cases hu : u = t
    · exact ⟨l, by rw [hu, State.setCtrl_ctrl_self]⟩
    · rw [State.setCtrl_ctrl_of_ne hu, hctrl]
      exact hI.running u
  writer u hw := by
    rw [State.setCtrl_owner]
    by_cases hu : u = t
    · rw [hu, placeOf_setCtrl_self] at hw
      rw [hself hw, hu]
    · rw [placeOf_setCtrl_of_ne hu, placeOf, hctrl] at hw
      exact hothers u hu hw
  book := by
    have hreaders : readers x (s₁.setCtrl t (.run l)) =
        Function.update (readers x s) t (l.place.readerOf x) := by
      rw [readers_eq_update (s := s) fun u hu => by rw [State.setCtrl_ctrl_of_ne hu, hctrl],
        placeOf_setCtrl_self]
    rw [hreaders]
    exact hbook
  limit := hlimit.trans hI.limit
  bound := hbound

/-- A step of a reader. -/
theorem Inv.reader_step (hI : S.Inv x lim s) (hp : ¬ (placeOf s t).Writes x)
    (hctrl : s₁.ctrl = s.ctrl) (hl : ¬ l.place.Writes x)
    (hwriter : ∀ u, (placeOf s u).Writes x → s₁.owner (.room x) = some u)
    (hbook : (turnstile lim).Consistent (Function.update (readers x s) t (l.place.readerOf x))
      (s₁.owner (.door x)) (s₁.owner (.room x) ≠ none ∧ ¬ HasWriter x s) (S.count x s₁.data))
    (hlimit : S.limitOf x s₁.data = S.limitOf x s.data)
    (hbound : ∀ n, lim = some n → 0 ≤ n → S.count x s₁.data ≤ n) :
    S.Inv x lim (s₁.setCtrl t (.run l)) := by
  refine hI.own_step hctrl (fun u _ => hwriter u) (fun hw => absurd hw hl) ?_ hlimit hbound
  have hsame : HasWriter x (s₁.setCtrl t (.run l)) ↔ HasWriter x s :=
    hasWriter_iff (fun u hu => by rw [State.setCtrl_ctrl_of_ne hu, hctrl]) hp
      (by rwa [placeOf_setCtrl_self])
  rw [hsame]
  exact hbook

/-- A reader changes its place, and the counter at most. -/
theorem Inv.reader_act (hI : S.Inv x lim s) (hp : ¬ (placeOf s t).Writes x)
    (hl : ¬ l.place.Writes x) {d : D} {ls : List O}
    (hbook : (turnstile lim).Consistent (Function.update (readers x s) t (l.place.readerOf x))
      (s.owner (.door x)) (s.owner (.room x) ≠ none ∧ ¬ HasWriter x s) (S.count x d))
    (hlimit : S.limitOf x d = S.limitOf x s.data)
    (hbound : ∀ n, lim = some n → 0 ≤ n → S.count x d ≤ n) :
    S.Inv x lim ((s.write t d ls).setCtrl t (.run l)) :=
  hI.reader_step hp rfl hl hI.writer hbook hlimit hbound

theorem Inv.reader_goto (hI : S.Inv x lim s) (hp : ¬ (placeOf s t).Writes x)
    (hl : ¬ l.place.Writes x)
    (hbook : (turnstile lim).Consistent (Function.update (readers x s) t (l.place.readerOf x))
      (s.owner (.door x)) (s.owner (.room x) ≠ none ∧ ¬ HasWriter x s) (S.count x s.data)) :
    S.Inv x lim (s.setCtrl t (.run l)) :=
  hI.reader_step hp rfl hl hI.writer hbook rfl hI.bound

/-- A reader locks or unlocks the door. -/
theorem Inv.reader_door (hI : S.Inv x lim s) (hp : ¬ (placeOf s t).Writes x)
    (hl : ¬ l.place.Writes x) {o : Option T}
    (hbook : (turnstile lim).Consistent (Function.update (readers x s) t (l.place.readerOf x)) o
      (s.owner (.room x) ≠ none ∧ ¬ HasWriter x s) (S.count x s.data)) :
    S.Inv x lim ((s.setOwner (.door x) o).setCtrl t (.run l)) := by
  have hroom : (s.setOwner (.door x) o).owner (.room x) = s.owner (.room x) := by
    rw [State.setOwner_owner, if_neg nofun]
  refine hI.reader_step hp rfl hl ?_ ?_ rfl hI.bound
  · rw [hroom]
    exact hI.writer
  · rw [hroom, State.setOwner_owner_self]
    exact hbook

/-- A reader locks or unlocks the room while no writer is in. -/
theorem Inv.reader_room (hI : S.Inv x lim s) (hp : ¬ (placeOf s t).Writes x)
    (hl : ¬ l.place.Writes x) {o : Option T} (hno : ¬ HasWriter x s)
    (hbook : (turnstile lim).Consistent (Function.update (readers x s) t (l.place.readerOf x))
      (s.owner (.door x)) (o ≠ none) (S.count x s.data)) :
    S.Inv x lim ((s.setOwner (.room x) o).setCtrl t (.run l)) := by
  have hdoor : (s.setOwner (.room x) o).owner (.door x) = s.owner (.door x) := by
    rw [State.setOwner_owner, if_neg nofun]
  refine hI.reader_step hp rfl hl (fun u hu => absurd ⟨u, hu⟩ hno) ?_ rfl hI.bound
  rw [hdoor, State.setOwner_owner_self, and_iff_left hno]
  exact hbook

omit [DecidableEq X] [Fintype T] [DecidableEq T] in
/-- Where an admitted reader goes. -/
theorem admitted_cases (S : TryLightswitch T X D O) :
    S.admitted = .full ∨ S.admitted = .arrive ∧ S.limit = none := by
  unfold admitted
  cases hl : S.limit with
  | none => exact Or.inr ⟨rfl, rfl⟩
  | some f => exact Or.inl rfl

/-- The step of a reader of `x`. -/
theorem Inv.move_reader (hI : S.Inv x lim s) (hS : S.Lawful) {q : TryRead}
    (hp : placeOf s t = .reader x q) (h : S.Move t n s (.reader x q) s')
    (htake : lim = some 0 → q = .tryRoom → s.owner (.room x) ≠ none) : S.Inv x lim s' := by
  have hb := hI.book
  have hr : readers x s t = some q := readers_of_place hp
  have hof : ∀ q', (TryPlace.reader x q').readerOf x = some q' := TryPlace.readerOf_reader x
  have hnw : ¬ (placeOf s t).Writes x := by
    rw [hp]
    exact id
  -- what the one at the door learns from the counter
  have hheld : (turnstile lim).door (some q) = true →
      ((s.owner (.room x) ≠ none ∧ ¬ HasWriter x s) ↔ (turnstile lim).inside (some q) = true ∨
        S.count x s.data ≠ ((turnstile lim).counted (some q)).toNat) := hb.held_iff hr
  have hknows : (turnstile lim).knows (some q) (S.count x s.data) := hb.knows_at hr
  have hnone : S.limit = none → lim = none := by
    intro hl
    rw [← hI.limit, limitOf, hl]
    rfl
  cases h with
  | enter ho =>
      rw [ho] at hb
      exact hI.reader_door hnw id
        (by rw [hof]; exact hb.acquire hr rfl rfl rfl trivial)
  | test =>
      have hheld := hheld rfl
      apply hI.reader_goto hnw id
      rw [hof]
      by_cases h0 : S.count x s.data = 0
      · rw [if_pos h0]
        exact hb.within hr rfl rfl rfl hheld h0
      · rw [if_neg h0]
        rcases admitted_cases S with ha | ⟨ha, hl⟩
        · rw [ha]
          refine hb.within hr rfl rfl rfl ?_ fun _ => h0
          rw [hheld]
          exact iff_of_true (Or.inr h0) (Or.inl rfl)
        · rw [ha]
          refine hb.within hr rfl rfl rfl ?_ (by rw [hnone hl]; exact nofun)
          rw [hheld]
          exact iff_of_true (Or.inr h0) (Or.inl rfl)
  | takeRoom ho =>
      have h0 : S.count x s.data = 0 := hknows
      have hno : ¬ HasWriter x s := by
        rintro ⟨u, hu⟩
        rw [hI.writer u hu] at ho
        cases ho
      apply hI.reader_room hnw id hno
      rw [hof]
      rcases admitted_cases S with ha | ⟨ha, hl⟩
      · rw [ha]
        refine hb.within hr rfl rfl rfl (iff_of_true nofun (Or.inl rfl)) ?_
        intro hlim
        rw [h0] at hlim
        exact absurd ho (htake hlim rfl)
      · rw [ha]
        exact hb.within hr rfl rfl rfl (iff_of_true nofun (Or.inl rfl))
          (by rw [hnone hl]; exact nofun)
  | reject ho =>
      apply hI.reader_goto hnw id
      rw [hof]
      exact hb.within hr rfl rfl rfl (hheld rfl) trivial
  | full =>
      have hheld := hheld rfl
      apply hI.reader_goto hnw id
      rw [hof]
      by_cases hc : S.limitOf x s.data = some (S.count x s.data)
      · rw [if_pos hc]
        refine hb.within hr rfl rfl rfl ?_ trivial
        rw [hheld]
        exact iff_of_true (Or.inl rfl) (Or.inr (hknows (hI.limit ▸ hc)))
      · rw [if_neg hc]
        refine hb.within hr rfl rfl rfl ?_ (hI.limit ▸ hc)
        rw [hheld]
        exact iff_of_true (Or.inl rfl) (Or.inl rfl)
  | arrive =>
      have hlt : lim ≠ some (S.count x s.data) := hknows
      have hset : S.count x (S.setCount x s.data (S.count x s.data + 1)) = S.count x s.data + 1 := by
        rw [hS.count_setCount, if_pos rfl]
      refine hI.reader_act hnw id ?_ (hS.limit_setCount ..) fun m hm hpos => ?_
      · rw [hof, hset]
        refine hb.within hr rfl rfl ?_ ?_ trivial
        · simp [turnstile]
        · rw [hheld rfl]
          exact iff_of_true (Or.inl rfl) (Or.inl rfl)
      · have hle := hI.bound m hm hpos
        have hne : m ≠ S.count x s.data := fun h => hlt (hm.trans (congrArg some h))
        rw [hset]
        omega
  | proceed =>
      exact hI.reader_door hnw id
        (by rw [hof]; exact hb.pass hr rfl rfl rfl rfl)
  | @read _ k st v hk =>
      have hkeep := hS.reading_count x st (List.mem_of_getElem? hk) v s.data x
      refine hI.reader_act hnw id ?_ hkeep.2 (by rw [hkeep.1]; exact hI.bound)
      rw [hof, hkeep.1]
      exact hb.outside hr rfl rfl rfl
  | reenter hk ho =>
      rw [ho] at hb
      exact hI.reader_door hnw id
        (by rw [hof]; exact hb.acquire hr rfl rfl rfl trivial)
  | depart =>
      have hset : S.count x (S.setCount x s.data (S.count x s.data - 1)) = S.count x s.data - 1 := by
        rw [hS.count_setCount, if_pos rfl]
      refine hI.reader_act hnw id ?_ (hS.limit_setCount ..) fun m hm hpos => ?_
      · rw [hof, hset]
        refine hb.within hr rfl rfl ?_ ?_ trivial
        · simp [turnstile]
        · rw [hheld rfl]
          exact iff_of_true (Or.inl rfl) (Or.inl rfl)
      · have hle := hI.bound m hm hpos
        rw [hset]
        omega
  | last =>
      have hheld := hheld rfl
      apply hI.reader_goto hnw id
      rw [hof]
      by_cases h0 : S.count x s.data = 0
      · rw [if_pos h0]
        refine hb.within hr rfl rfl rfl ?_ h0
        rw [hheld]
        exact iff_of_true (Or.inl rfl) (Or.inl rfl)
      · rw [if_neg h0]
        refine hb.within hr rfl rfl rfl ?_ trivial
        rw [hheld]
        exact iff_of_true (Or.inl rfl) (Or.inr h0)
  | release =>
      have h0 : S.count x s.data = 0 := hknows
      apply hI.reader_room hnw id ((hheld rfl).2 (Or.inl rfl)).2
      rw [hof]
      refine hb.within hr rfl rfl rfl ?_ trivial
      apply iff_of_false (fun hne => hne rfl)
      rintro (hin | hne)
      · cases hin
      · exact hne h0
  | leave | refuse =>
      exact hI.reader_door hnw id (hb.pass hr rfl rfl rfl rfl)

/-- The step of a writer of `x`. -/
theorem Inv.move_writer (hI : S.Inv x lim s) (hS : S.Lawful)
    (hp : placeOf s t = .tryWrite x ∨ ∃ v k, placeOf s t = .writer x v k)
    (h : S.Move t n s (placeOf s t) s') : S.Inv x lim s' := by
  have hb := hI.book
  have hnone : readers x s t = none := by
    unfold readers
    rcases hp with hp | ⟨v, k, hp⟩ <;> (rw [hp]; rfl)
  have hdoor : ∀ o, (s.setOwner (.room x) o).owner (.door x) = s.owner (.door x) := fun o => by
    rw [State.setOwner_owner, if_neg nofun]
  have hwriter : ∀ v k, placeOf s t = .writer x v k → s.owner (.room x) = some t := by
    intro v k hp
    exact hI.writer t (by rw [hp]; rfl)
  have hset : ∀ {s₁ : St T X D O} {l : TryLoc X}, l.place.Writes x →
      HasWriter x (s₁.setCtrl t (.run l)) := by
    intro s₁ l hl
    exact ⟨t, by rwa [placeOf_setCtrl_self]⟩
  -- the readers stay where they are, and hold the room neither before nor afterwards
  have hkeep : ∀ {held held' : Prop} {c : ℤ}, (held ↔ held') →
      (turnstile lim).Consistent (readers x s) (s.owner (.door x)) held c →
      (turnstile lim).Consistent (Function.update (readers x s) t none) (s.owner (.door x)) held' c := by
    intro held held' c hiff hb
    rw [← hnone, Function.update_eq_self, ← hiff]
    exact hb
  generalize hq : placeOf s t = q at h hp
  rcases hp with rfl | ⟨v, k, rfl⟩
  · cases h with
    | begin ho =>
        refine hI.own_step rfl (fun u _ hu => ?_) (fun _ => State.setOwner_owner_self) ?_ rfl hI.bound
        · rw [hI.writer u hu] at ho
          cases ho
        · rw [hdoor]
          exact hkeep (iff_of_false (fun h => h.1 ho) fun h => h.2 (hset rfl)) hb
    | deny ho =>
        apply hI.reader_goto (by rw [hq]; exact id) id
        exact hkeep Iff.rfl hb
  · have ho := hwriter v k hq
    have hhas : HasWriter x s := ⟨t, by rw [hq]; rfl⟩
    cases h with
    | @write _ _ _ st i hk =>
        have hsame := hS.writing_count x st (List.mem_of_getElem? hk) i v s.data x
        refine hI.own_step rfl (fun u _ => hI.writer u) (fun _ => ho) ?_ hsame.2
          (by rw [State.write_data, hsame.1]; exact hI.bound)
        rw [State.write_data, hsame.1]
        exact hkeep (iff_of_false (fun h => h.2 hhas) fun h => h.2 (hset rfl)) hb
    | finish hk =>
        refine hI.own_step rfl (fun u hu hw => ?_) (fun hw => hw.elim) ?_ rfl hI.bound
        · have hu' := hI.writer u hw
          rw [ho] at hu'
          exact absurd (Option.some.inj hu').symm hu
        · rw [hdoor, State.setOwner_owner_self]
          exact hkeep (iff_of_false (fun h => h.2 hhas) fun h => h.1 rfl) hb

theorem Inv.move (hI : S.Inv x lim s) (hS : S.Lawful) (h : S.Move t n s (placeOf s t) s')
    (htake : lim = some 0 → placeOf s t = .reader x .tryRoom → s.owner (.room x) ≠ none) :
    S.Inv x lim s' := by
  by_cases hcalls : (placeOf s t).Calls x
  · cases hp : placeOf s t with
    | reader y q =>
        rw [hp] at hcalls
        obtain rfl : y = x := hcalls
        rw [hp] at h
        exact hI.move_reader hS hp h fun hlim hq => htake hlim (by rw [hp, hq])
    | tryWrite y =>
        rw [hp] at hcalls
        obtain rfl : y = x := hcalls
        exact hI.move_writer hS (Or.inl hp) h
    | writer y v k =>
        rw [hp] at hcalls
        obtain rfl : y = x := hcalls
        exact hI.move_writer hS (Or.inr ⟨v, k, hp⟩) h
    | idle | done | returned =>
        rw [hp] at hcalls
        exact hcalls.elim
  · exact hI.elsewhere (h.elsewhere hS hcalls) hcalls

omit [Fintype T] in
/-- Every step is the move of a running thread. -/
theorem move_of_step (hr : ∀ t, ∃ l, s.ctrl t = .run l) {e : Event T} (h : Step S.program s e s') :
    ∃ n, S.Move e.thread n s (placeOf s e.thread) s' := by
  obtain ⟨⟨n, p⟩, hc⟩ := hr e.thread
  have hp : placeOf s e.thread = p := by rw [placeOf, hc]; rfl
  have h := h.exec_eq
  cases e with
  | exec t i => exact ⟨n, hp ▸ move_of_exec hc h⟩
  | resume t =>
      have hc : s.ctrl t = .run ⟨n, p⟩ := hc
      simp [exec, hc] at h
  | spurious t =>
      have hc : s.ctrl t = .run ⟨n, p⟩ := hc
      simp [exec, hc] at h

theorem Inv.step (hI : S.Inv x lim s) (hS : S.Lawful) {e : Event T} (h : Step S.program s e s')
    (htake : lim = some 0 → ¬ TakesRoom x s e) : S.Inv x lim s' := by
  obtain ⟨n, hm⟩ := move_of_step hI.running h
  exact hI.move hS hm fun hlim hp ho => htake hlim ⟨hp, ho⟩

theorem inv_of_run (hS : S.Lawful) {d₀ : D} (h₀ : S.count x d₀ = 0) (hlim : S.limitOf x d₀ = lim)
    {tr : List (St T X D O × Event T)} (h : Run (Step S.program) (S.program.init d₀) tr s)
    (htake : lim = some 0 → ∀ p ∈ tr, ¬ TakesRoom x p.1 p.2) :
    S.Inv x lim s ∧ ∀ p ∈ tr, S.Inv x lim p.1 := by
  have hstep : ∀ s e s', (lim = some 0 → ¬ TakesRoom x s e) → S.Inv x lim s →
      Step S.program s e s' → S.Inv x lim s' := fun s e s' hC hI hs => hI.step hS hs hC
  have hC : ∀ p ∈ tr, lim = some 0 → ¬ TakesRoom x p.1 p.2 := fun p hp hl => htake hl p hp
  exact ⟨h.invariant_of hstep hC (inv_init h₀ hlim), h.invariant_mem hstep hC (inv_init h₀ hlim)⟩

/-! ### What the invariant says of an object -/

/-- A reader of `x` is counted. -/
def CountedIn (x : X) (s : St T X D O) (t : T) : Prop :=
  (turnstile none).counted (readers x s t) = true

/-- A reader of `x` takes part in holding the room. -/
def Inside (x : X) (s : St T X D O) (t : T) : Prop :=
  (turnstile none).inside (readers x s t) = true

/-- A reader of `x` is between its entry section and its exit section. -/
def Reading (x : X) (s : St T X D O) (t : T) : Prop := ∃ k, placeOf s t = .reader x (.read k)

omit [Fintype T] [DecidableEq T] in
theorem Reading.countedIn (h : Reading x s t) : CountedIn x s t := by
  obtain ⟨k, hk⟩ := h
  unfold CountedIn
  rw [readers_of_place hk]
  rfl

omit [Fintype T] [DecidableEq T] in
theorem CountedIn.inside (h : CountedIn x s t) : Inside x s t := by
  unfold CountedIn at h
  unfold Inside
  revert h
  cases readers x s t with
  | none => exact id
  | some q => cases q <;> simp [turnstile]

omit [DecidableEq T] in
theorem Inv.writer_unique (hI : S.Inv x lim s) (ht : (placeOf s t).Writes x)
    (hu : (placeOf s u).Writes x) : u = t := by
  have ho := hI.writer t ht
  rw [hI.writer u hu] at ho
  exact Option.some.inj ho

omit [DecidableEq T] in
/-- Readers and writers exclude each other. -/
theorem Inv.not_inside (hI : S.Inv x lim s) (hw : HasWriter x s) : ¬ Inside x s t :=
  fun ht => (hI.book.room.2 ⟨t, ht⟩).2 hw

omit [DecidableEq T] in
theorem Inv.count_eq (hI : S.Inv x lim s) : S.count x s.data = {t | CountedIn x s t}.ncard := by
  refine hI.book.count.trans (congrArg _ (tally_eq_ncard (fun t ht => ?_) fun t ht => ?_))
  · rw [show (turnstile lim).counted (readers x s t) = true from ht]
    rfl
  · rw [show (turnstile lim).counted (readers x s t) = false from Bool.eq_false_iff.2 ht]
    rfl

omit [DecidableEq T] in
/-- Whoever finds the room locked finds a writer or a reader inside. -/
theorem Inv.room_cases (hI : S.Inv x lim s) (ho : s.owner (.room x) ≠ none) :
    HasWriter x s ∨ ∃ t, Inside x s t := by
  by_cases hw : HasWriter x s
  · exact Or.inl hw
  · exact Or.inr (hI.book.room.1 ⟨ho, hw⟩)

omit [DecidableEq T] in
/-- A reader that tries the room while it is locked finds a writer. -/
theorem Inv.hasWriter_of_reject (hI : S.Inv x lim s) (hp : placeOf s t = .reader x .tryRoom)
    (ho : s.owner (.room x) ≠ none) : HasWriter x s := by
  classical
  have hr : readers x s t = some .tryRoom := readers_of_place hp
  have h0 : S.count x s.data = 0 := hI.book.knows_at hr
  have hheld := hI.book.held_iff hr rfl
  by_contra hw
  rcases hheld.1 ⟨ho, hw⟩ with hin | hne
  · cases hin
  · exact hne h0

omit [DecidableEq T] in
/-- With no call on `x` in progress nothing of it is held and nobody is counted. -/
theorem Inv.at_rest (hI : S.Inv x lim s) (hcalls : ∀ t, ¬ (placeOf s t).Calls x) :
    S.count x s.data = 0 ∧ s.owner (.door x) = none ∧ s.owner (.room x) = none := by
  have hnone : ∀ t, readers x s t = none := fun t => TryPlace.readerOf_eq_none (hcalls t)
  refine ⟨?_, ?_, ?_⟩
  · apply hI.book.count.trans
    rw [Turnstile.countedSum, tally_eq_zero_iff.2 fun t => by rw [hnone t]; rfl]
    rfl
  · by_contra ho
    obtain ⟨t, ho⟩ := Option.ne_none_iff_exists'.1 ho
    have hd := (hI.book.door t).1 ho
    rw [hnone t] at hd
    cases hd
  · by_contra ho
    rcases hI.room_cases ho with ⟨t, ht⟩ | ⟨t, ht⟩
    · exact hcalls t ht.calls
    · unfold Inside at ht
      rw [hnone t] at ht
      cases ht

end TryLightswitch

end Pthread
