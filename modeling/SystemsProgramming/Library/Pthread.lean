import SystemsProgramming.Library.Run
import Mathlib.Logic.Function.Basic

/-!
# Threads, mutexes and condition variables

A program gives for each thread `t` and each location `l` of its code one instruction.  `exec` runs
one step of one thread: an instruction, the re-acquisition of the mutex after a wake-up, or a
spurious wake-up.  A mutex remembers who locked it, but whoever unlocks it releases it.  What the
threads print is logged with the thread that printed it.

`Step` restates `exec` with one constructor for each kind of step (`exec_eq_some_iff`), and is the
relation the proofs work with.
-/

namespace Pthread

open Transition

/-- An instruction over the data `D`, with locations `L`, mutexes `M`, condition variables `C` and
output lines `O`. -/
inductive Instr (D L M C O : Type) where
  /-- `pthread_mutex_lock` -/
  | lock (m : M) (next : L)
  /-- `pthread_mutex_trylock`, with the location after success and the one after failure -/
  | tryLock (m : M) (taken refused : L)
  /-- `pthread_mutex_unlock` -/
  | unlock (m : M) (next : L)
  /-- `pthread_cond_wait` -/
  | wait (c : C) (m : M) (next : L)
  /-- `pthread_cond_broadcast` -/
  | broadcast (c : C) (next : L)
  /-- A statement on the data that may read one value of `rand()` and may print. -/
  | act (f : ℤ → D → D × List O × L)
  /-- The end of the thread's function. -/
  | exit

/-- Where a thread is: at an instruction, asleep in `pthread_cond_wait`, or woken there and not yet
back in possession of the mutex. -/
inductive Ctrl (L M C : Type) where
  | run (l : L)
  | asleep (c : C) (m : M) (next : L)
  | woken (m : M) (next : L)
  deriving DecidableEq

/-- The code of each thread and where it starts. -/
structure Program (T D L M C O : Type) where
  code : T → L → Instr D L M C O
  entry : T → L

/-- A global state. -/
structure State (T D L M C O : Type) where
  data : D
  owner : M → Option T
  ctrl : T → Ctrl L M C
  out : List (T × O)

/-- The label of a step; `exec` carries the value that `rand()` would return. -/
inductive Event (T : Type) where
  | exec (t : T) (input : ℤ)
  | resume (t : T)
  | spurious (t : T)
  deriving DecidableEq

/-- The thread that takes the step. -/
def Event.thread {T : Type} : Event T → T
  | .exec t _ => t
  | .resume t => t
  | .spurious t => t

/-- The step is a spurious wake-up. -/
def Event.Spurious {T : Type} : Event T → Prop
  | .spurious _ => True
  | _ => False

variable {T D L M C O : Type}

/-- The location a thread is at, or returns to from `pthread_cond_wait`. -/
def Ctrl.loc : Ctrl L M C → L
  | .run l => l
  | .asleep _ _ l => l
  | .woken _ l => l

@[simp] theorem Ctrl.loc_run (l : L) : (Ctrl.run l : Ctrl L M C).loc = l := rfl

@[simp] theorem Ctrl.loc_asleep (c : C) (m : M) (l : L) : (Ctrl.asleep c m l).loc = l := rfl

@[simp] theorem Ctrl.loc_woken (m : M) (l : L) : (Ctrl.woken m l : Ctrl L M C).loc = l := rfl

/-- A broadcast on `c`, for one thread. -/
def Ctrl.wake [DecidableEq C] (c : C) : Ctrl L M C → Ctrl L M C
  | .asleep c' m l => if c' = c then .woken m l else .asleep c' m l
  | k => k

@[simp] theorem Ctrl.loc_wake [DecidableEq C] (c : C) (k : Ctrl L M C) : (k.wake c).loc = k.loc := by
  cases k with
  | asleep c' m l => simp only [wake]; split <;> rfl
  | _ => rfl

theorem Ctrl.wake_eq_run_iff [DecidableEq C] {c : C} {k : Ctrl L M C} {l : L} :
    k.wake c = .run l ↔ k = .run l := by
  cases k with
  | asleep c' m l' => simp only [wake]; split <;> simp
  | _ => simp [wake]

/-- All threads at their entry, all mutexes free, nothing printed. -/
def Program.init (P : Program T D L M C O) (d₀ : D) : State T D L M C O where
  data := d₀
  owner := fun _ => none
  ctrl := fun t => .run (P.entry t)
  out := []

namespace State

variable {s : State T D L M C O} {t u : T} {k : Ctrl L M C} {m m' : M} {o : Option T} {d : D}
  {ls : List O} {c : C}

/-- The data and the log after a statement of `t` that printed `ls`. -/
def write (s : State T D L M C O) (t : T) (d : D) (ls : List O) : State T D L M C O :=
  { s with data := d, out := s.out ++ ls.map (t, ·) }

@[simp] theorem write_data : (s.write t d ls).data = d := rfl
@[simp] theorem write_owner : (s.write t d ls).owner = s.owner := rfl
@[simp] theorem write_ctrl : (s.write t d ls).ctrl = s.ctrl := rfl
@[simp] theorem write_out : (s.write t d ls).out = s.out ++ ls.map (t, ·) := rfl

@[simp] theorem write_self : s.write t s.data [] = s := by simp [write]

section Ctrl

variable [DecidableEq T]

/-- Thread `t` is now as `k` says. -/
def setCtrl (s : State T D L M C O) (t : T) (k : Ctrl L M C) : State T D L M C O :=
  { s with ctrl := Function.update s.ctrl t k }

@[simp] theorem setCtrl_data : (s.setCtrl t k).data = s.data := rfl
@[simp] theorem setCtrl_owner : (s.setCtrl t k).owner = s.owner := rfl
@[simp] theorem setCtrl_out : (s.setCtrl t k).out = s.out := rfl
@[simp] theorem setCtrl_ctrl_self : (s.setCtrl t k).ctrl t = k := by simp [setCtrl]

theorem setCtrl_ctrl : (s.setCtrl t k).ctrl u = if u = t then k else s.ctrl u := by
  simp [setCtrl, Function.update_apply]

theorem setCtrl_ctrl_of_ne (h : u ≠ t) : (s.setCtrl t k).ctrl u = s.ctrl u := by
  rw [setCtrl_ctrl, if_neg h]

end Ctrl

section Owner

variable [DecidableEq M]

/-- Mutex `m` now has the owner `o`. -/
def setOwner (s : State T D L M C O) (m : M) (o : Option T) : State T D L M C O :=
  { s with owner := Function.update s.owner m o }

@[simp] theorem setOwner_data : (s.setOwner m o).data = s.data := rfl
@[simp] theorem setOwner_ctrl : (s.setOwner m o).ctrl = s.ctrl := rfl
@[simp] theorem setOwner_out : (s.setOwner m o).out = s.out := rfl
@[simp] theorem setOwner_owner_self : (s.setOwner m o).owner m = o := by simp [setOwner]

theorem setOwner_owner : (s.setOwner m o).owner m' = if m' = m then o else s.owner m' := by
  simp [setOwner, Function.update_apply]

end Owner

section Broadcast

variable [DecidableEq C]

/-- All threads asleep on `c` are woken. -/
def wakeAll (s : State T D L M C O) (c : C) : State T D L M C O :=
  { s with ctrl := fun u => (s.ctrl u).wake c }

@[simp] theorem wakeAll_data : (s.wakeAll c).data = s.data := rfl
@[simp] theorem wakeAll_owner : (s.wakeAll c).owner = s.owner := rfl
@[simp] theorem wakeAll_out : (s.wakeAll c).out = s.out := rfl
@[simp] theorem wakeAll_ctrl : (s.wakeAll c).ctrl u = (s.ctrl u).wake c := rfl

end Broadcast

end State

variable [DecidableEq T] [DecidableEq M] [DecidableEq C] {P : Program T D L M C O}
  {s s' : State T D L M C O}

/-! ### Steps -/

/-- One step, when it is possible. -/
def exec (P : Program T D L M C O) (s : State T D L M C O) :
    Event T → Option (State T D L M C O)
  | .exec t i =>
    match s.ctrl t with
    | .run l =>
      match P.code t l with
      | .lock m next =>
        if s.owner m = none then some ((s.setOwner m (some t)).setCtrl t (.run next)) else none
      | .tryLock m taken refused =>
        if s.owner m = none then some ((s.setOwner m (some t)).setCtrl t (.run taken))
        else some (s.setCtrl t (.run refused))
      | .unlock m next => some ((s.setOwner m none).setCtrl t (.run next))
      | .wait c m next => some ((s.setOwner m none).setCtrl t (.asleep c m next))
      | .broadcast c next => some ((s.wakeAll c).setCtrl t (.run next))
      | .act f =>
        let r := f i s.data
        some ((s.write t r.1 r.2.1).setCtrl t (.run r.2.2))
      | .exit => none
    | _ => none
  | .resume t =>
    match s.ctrl t with
    | .woken m next =>
      if s.owner m = none then some ((s.setOwner m (some t)).setCtrl t (.run next)) else none
    | _ => none
  | .spurious t =>
    match s.ctrl t with
    | .asleep _ m next => some (s.setCtrl t (.woken m next))
    | _ => none

/-- The steps of `exec`, one constructor for each kind. -/
inductive Step (P : Program T D L M C O) (s : State T D L M C O) :
    Event T → State T D L M C O → Prop
  | lock {t i l m next} : s.ctrl t = .run l → P.code t l = .lock m next → s.owner m = none →
      Step P s (.exec t i) ((s.setOwner m (some t)).setCtrl t (.run next))
  | taken {t i l m next refused} : s.ctrl t = .run l → P.code t l = .tryLock m next refused →
      s.owner m = none → Step P s (.exec t i) ((s.setOwner m (some t)).setCtrl t (.run next))
  | refused {t i l m taken next} : s.ctrl t = .run l → P.code t l = .tryLock m taken next →
      s.owner m ≠ none → Step P s (.exec t i) (s.setCtrl t (.run next))
  | unlock {t i l m next} : s.ctrl t = .run l → P.code t l = .unlock m next →
      Step P s (.exec t i) ((s.setOwner m none).setCtrl t (.run next))
  | wait {t i l c m next} : s.ctrl t = .run l → P.code t l = .wait c m next →
      Step P s (.exec t i) ((s.setOwner m none).setCtrl t (.asleep c m next))
  | broadcast {t i l c next} : s.ctrl t = .run l → P.code t l = .broadcast c next →
      Step P s (.exec t i) ((s.wakeAll c).setCtrl t (.run next))
  | act {t i l f} : s.ctrl t = .run l → P.code t l = .act f →
      Step P s (.exec t i)
        ((s.write t (f i s.data).1 (f i s.data).2.1).setCtrl t (.run (f i s.data).2.2))
  | resume {t m next} : s.ctrl t = .woken m next → s.owner m = none →
      Step P s (.resume t) ((s.setOwner m (some t)).setCtrl t (.run next))
  | spurious {t c m next} : s.ctrl t = .asleep c m next →
      Step P s (.spurious t) (s.setCtrl t (.woken m next))

theorem Step.exec_eq {e : Event T} (h : Step P s e s') : exec P s e = some s' := by
  cases h with
  | lock hc hi hm => simp [exec, hc, hi, hm]
  | taken hc hi hm => simp [exec, hc, hi, hm]
  | refused hc hi hm => simp [exec, hc, hi, hm]
  | unlock hc hi => simp [exec, hc, hi]
  | wait hc hi => simp [exec, hc, hi]
  | broadcast hc hi => simp [exec, hc, hi]
  | act hc hi => simp [exec, hc, hi]
  | resume hc hm => simp [exec, hc, hm]
  | spurious hc => simp [exec, hc]

theorem step_of_exec {e : Event T} (h : exec P s e = some s') : Step P s e s' := by
  cases e with
  | exec t i =>
      cases hc : s.ctrl t with
      | run l =>
          cases hi : P.code t l with
          | lock m next =>
              simp only [exec, hc, hi, Option.ite_none_right_eq_some, Option.some.injEq] at h
              exact h.2 ▸ .lock hc hi h.1
          | tryLock m taken refused =>
              by_cases hm : s.owner m = none
              · simp only [exec, hc, hi, if_pos hm, Option.some.injEq] at h
                exact h ▸ .taken hc hi hm
              · simp only [exec, hc, hi, if_neg hm, Option.some.injEq] at h
                exact h ▸ .refused hc hi hm
          | unlock m next =>
              simp only [exec, hc, hi, Option.some.injEq] at h
              exact h ▸ .unlock hc hi
          | wait c m next =>
              simp only [exec, hc, hi, Option.some.injEq] at h
              exact h ▸ .wait hc hi
          | broadcast c next =>
              simp only [exec, hc, hi, Option.some.injEq] at h
              exact h ▸ .broadcast hc hi
          | act f =>
              simp only [exec, hc, hi, Option.some.injEq] at h
              exact h ▸ .act hc hi
          | exit => simp [exec, hc, hi] at h
      | asleep c m next => simp [exec, hc] at h
      | woken m next => simp [exec, hc] at h
  | resume t =>
      cases hc : s.ctrl t with
      | woken m next =>
          simp only [exec, hc, Option.ite_none_right_eq_some, Option.some.injEq] at h
          exact h.2 ▸ .resume hc h.1
      | run l => simp [exec, hc] at h
      | asleep c m next => simp [exec, hc] at h
  | spurious t =>
      cases hc : s.ctrl t with
      | asleep c m next =>
          simp only [exec, hc, Option.some.injEq] at h
          exact h ▸ .spurious hc
      | run l => simp [exec, hc] at h
      | woken m next => simp [exec, hc] at h

theorem exec_eq_some_iff {e : Event T} : exec P s e = some s' ↔ Step P s e s' :=
  ⟨step_of_exec, Step.exec_eq⟩

/-! ### Locations -/

/-- The location `l` can follow the instruction. -/
def Instr.Next : Instr D L M C O → L → Prop
  | .lock _ next, l => l = next
  | .tryLock _ taken refused, l => l = taken ∨ l = refused
  | .unlock _ next, l => l = next
  | .wait _ _ next, l => l = next
  | .broadcast _ next, l => l = next
  | .act f, l => ∃ i d, l = (f i d).2.2
  | .exit, _ => False

/-- A step leaves the location of a thread or moves it along its code. -/
theorem Step.loc {e : Event T} (h : Step P s e s') (u : T) :
    (s'.ctrl u).loc = (s.ctrl u).loc ∨
      ∃ l, s.ctrl u = .run l ∧ (P.code u l).Next (s'.ctrl u).loc := by
  have hmove : ∀ {t : T} {k : Ctrl L M C} {r : State T D L M C O},
      (∀ v, (r.ctrl v).loc = (s.ctrl v).loc) →
      (k.loc = (s.ctrl t).loc ∨ ∃ l, s.ctrl t = .run l ∧ (P.code t l).Next k.loc) →
      ((r.setCtrl t k).ctrl u).loc = (s.ctrl u).loc ∨
        ∃ l, s.ctrl u = .run l ∧ (P.code u l).Next ((r.setCtrl t k).ctrl u).loc := by
    intro t k r hr hk
    by_cases hu : u = t
    · subst hu
      rwa [State.setCtrl_ctrl_self]
    · rw [State.setCtrl_ctrl_of_ne hu]
      exact Or.inl (hr u)
  cases h with
  | lock hc hi hm => exact hmove (fun _ => rfl) (Or.inr ⟨_, hc, by simp [hi, Instr.Next]⟩)
  | taken hc hi hm => exact hmove (fun _ => rfl) (Or.inr ⟨_, hc, by simp [hi, Instr.Next]⟩)
  | refused hc hi hm => exact hmove (fun _ => rfl) (Or.inr ⟨_, hc, by simp [hi, Instr.Next]⟩)
  | unlock hc hi => exact hmove (fun _ => rfl) (Or.inr ⟨_, hc, by simp [hi, Instr.Next]⟩)
  | wait hc hi => exact hmove (fun _ => rfl) (Or.inr ⟨_, hc, by simp [hi, Instr.Next]⟩)
  | broadcast hc hi => exact hmove (fun _ => by simp) (Or.inr ⟨_, hc, by simp [hi, Instr.Next]⟩)
  | act hc hi => exact hmove (fun _ => rfl) (Or.inr ⟨_, hc, by rw [hi]; exact ⟨_, _, rfl⟩⟩)
  | resume hc hm => exact hmove (fun _ => rfl) (Or.inl (by simp [hc]))
  | spurious hc => exact hmove (fun _ => rfl) (Or.inl (by simp [hc]))

/-- What holds of the entries and is kept along the code holds of all locations reached. -/
theorem loc_invariant {Q : T → L → Prop} (hentry : ∀ t, Q t (P.entry t))
    (hnext : ∀ t l l', Q t l → (P.code t l).Next l' → Q t l') {d₀ : D}
    (h : Reachable (Step P) (P.init d₀) s) (t : T) : Q t (s.ctrl t).loc := by
  refine h.invariant (I := fun s => ∀ t, Q t (s.ctrl t).loc) (fun s e s' hQ hs t => ?_) hentry t
  rcases hs.loc t with heq | ⟨l, hc, hl⟩
  · rw [heq]
    exact hQ t
  · have := hQ t
    rw [hc] at this
    exact hnext t l _ this hl

/-! ### Joining -/

/-- The function of thread `t` has returned, so `pthread_join` on it returns. -/
def Program.returned (P : Program T D L M C O) (s : State T D L M C O) (t : T) : Bool :=
  match s.ctrl t with
  | .run l =>
    match P.code t l with
    | .exit => true
    | _ => false
  | _ => false

omit [DecidableEq T] [DecidableEq M] [DecidableEq C] in
theorem Program.returned_iff {t : T} :
    P.returned s t = true ↔ ∃ l, s.ctrl t = .run l ∧ P.code t l = .exit := by
  unfold returned
  cases hc : s.ctrl t with
  | run l => cases hi : P.code t l <;> simp [hi]
  | asleep => simp
  | woken => simp

theorem exec_of_returned {e : Event T} (h : P.returned s e.thread = true) : exec P s e = none := by
  obtain ⟨l, hc, hi⟩ := Program.returned_iff.1 h
  cases e with
  | exec t i =>
      have hc : s.ctrl t = .run l := hc
      have hi : P.code t l = .exit := hi
      simp [exec, hc, hi]
  | resume t =>
      have hc : s.ctrl t = .run l := hc
      simp [exec, hc]
  | spurious t =>
      have hc : s.ctrl t = .run l := hc
      simp [exec, hc]

/-- A thread that has returned stays where it is. -/
theorem Step.returned {e : Event T} (h : Step P s e s') {t : T} (ht : P.returned s t = true) :
    P.returned s' t = true := by
  have hne : t ≠ e.thread := by
    rintro rfl
    rw [← exec_eq_some_iff, exec_of_returned ht] at h
    cases h
  obtain ⟨l, hc, hi⟩ := Program.returned_iff.1 ht
  have hkeep : ∀ {u k} {r : State T D L M C O}, t ≠ u → (r.ctrl t = .run l) →
      P.returned (r.setCtrl u k) t = true := by
    intro u k r hu hr
    exact Program.returned_iff.2 ⟨l, by rw [State.setCtrl_ctrl_of_ne hu, hr], hi⟩
  cases h with
  | broadcast => exact hkeep hne (Ctrl.wake_eq_run_iff.2 hc)
  | _ => exact hkeep hne hc

/-- Some thread can take a step other than a spurious wake-up. -/
def Progresses (P : Program T D L M C O) (s : State T D L M C O) : Prop :=
  ∃ e s', ¬ e.Spurious ∧ Step P s e s'

end Pthread
