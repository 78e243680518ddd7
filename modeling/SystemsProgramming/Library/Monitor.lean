import SystemsProgramming.Library.Pthread
import Mathlib.Algebra.BigOperators.Group.Finset.Piecewise
import Mathlib.Algebra.Order.BigOperators.Group.Finset
import Mathlib.Data.Fintype.Basic

/-!
# Monitors with one mutex and one condition variable

A monitor is a set of threads that repeat calls of the form

    lock; while (waits) wait; if (signals) { mark; broadcast; } body; unlock

on shared data.  The file proves once, for all monitors: in every reachable state with the mutex
free the data and the log are those of the completed calls executed one after the other
(`Serial`, `serializable`); if a call that changes another one's waiting condition signals, then
every sleeping thread really has to wait (`Signals`, `asleep_waits`); when no step but a spurious
wake-up is possible, every thread has finished or sleeps (`finished_or_asleep`); and every step but
a spurious wake-up lowers a measure (`measure_lt`).
-/

namespace Pthread

open Transition

/-- A statement on the data: it may read one value of `rand()` and may print. -/
abbrev Stmt (D O : Type) := ℤ → D → D × List O

/-- One procedure of a monitor. -/
structure Call (D O : Type) where
  /-- the condition of the `while` around `pthread_cond_wait` -/
  waits : D → Bool
  /-- the condition of the `if` around `pthread_cond_broadcast` -/
  signals : D → Bool
  /-- the assignment before `pthread_cond_broadcast`, if any -/
  mark : D → D
  /-- the statements between that `if` and `pthread_mutex_unlock` -/
  body : List (Stmt D O)

/-- The places of a monitor procedure. -/
inductive Place where
  | lock
  | test
  | wait
  | choose
  | mark
  | broadcast
  | body (k : ℕ)
  deriving DecidableEq

/-- A location: the number of finished calls (the thread's loop counter) and a place. -/
structure Loc where
  i : ℕ
  place : Place
  deriving DecidableEq

/-- Each thread `t` makes `runs t` calls of `call t`. -/
structure Monitor (T D O : Type) where
  call : T → Call D O
  runs : T → ℕ

namespace Monitor

variable {T D O : Type} (M : Monitor T D O)

/-- The code of a thread. -/
def code (t : T) (l : Loc) : Instr D Loc Unit Unit O :=
  let c := M.call t
  match l.place with
  | .lock => if l.i < M.runs t then .lock () ⟨l.i, .test⟩ else .exit
  | .test => .act fun _ d => (d, [], ⟨l.i, if c.waits d then .wait else .choose⟩)
  | .wait => .wait () () ⟨l.i, .test⟩
  | .choose => .act fun _ d => (d, [], ⟨l.i, if c.signals d then .mark else .body 0⟩)
  | .mark => .act fun _ d => (c.mark d, [], ⟨l.i, .broadcast⟩)
  | .broadcast => .broadcast () ⟨l.i, .body 0⟩
  | .body k =>
    match c.body[k]? with
    | some st => .act fun i d => ((st i d).1, (st i d).2, ⟨l.i, .body (k + 1)⟩)
    | none => .unlock () ⟨l.i + 1, .lock⟩

/-- The threads of the monitor. -/
def program : Program T D Loc Unit Unit O where
  code := M.code
  entry := fun _ => ⟨0, .lock⟩

/-- States of the monitor. -/
abbrev St (T D O : Type) := State T D Loc Unit Unit O

/-- The thread has made all its calls. -/
def Finished (t : T) (s : St T D O) : Prop :=
  ∃ i, s.ctrl t = .run ⟨i, .lock⟩ ∧ M.runs t ≤ i

/-- The thread sleeps in `pthread_cond_wait`. -/
def Asleep (t : T) (s : St T D O) : Prop := ∃ i, s.ctrl t = .asleep () () ⟨i, .test⟩

/-- The number of calls the thread has completed. -/
def done (t : T) (s : St T D O) : ℕ := (s.ctrl t).loc.i

/-! ### Serial executions -/

end Monitor

/-- The statements `ss` lead from `d` to `d'` and print `o`, for some values of `rand()`. -/
inductive Stmts {D O : Type} : List (Stmt D O) → D → D → List O → Prop
  | nil (d : D) : Stmts [] d d []
  | cons {st : Stmt D O} {ss : List (Stmt D O)} {d d' : D} {o : List O} (i : ℤ) :
      Stmts ss (st i d).1 d' o → Stmts (st :: ss) d d' ((st i d).2 ++ o)

variable {T D O : Type}

theorem Stmts.snoc {ss : List (Stmt D O)} {d d' : D} {o : List O} (h : Stmts ss d d' o)
    (st : Stmt D O) (i : ℤ) : Stmts (ss ++ [st]) d (st i d').1 (o ++ (st i d').2) := by
  induction h with
  | nil d => simpa using Stmts.cons i (Stmts.nil (st i d).1)
  | cons j _ ih => rw [List.append_assoc]; exact .cons j ih

theorem Stmts.append {ss ss' : List (Stmt D O)} {d d' d'' : D} {o o' : List O}
    (h : Stmts ss d d' o) (h' : Stmts ss' d' d'' o') : Stmts (ss ++ ss') d d'' (o ++ o') := by
  induction h with
  | nil d => exact h'
  | cons i _ ih => rw [List.append_assoc]; exact .cons i (ih h')

/-- Statements always run to their end. -/
theorem Stmts.exists (ss : List (Stmt D O)) (d : D) : ∃ d' o, Stmts ss d d' o := by
  induction ss generalizing d with
  | nil => exact ⟨d, [], .nil d⟩
  | cons st ss ih =>
      obtain ⟨d', o, h⟩ := ih (st 0 d).1
      exact ⟨d', _, .cons 0 h⟩

/-- The data after the `if` of the call. -/
def Call.start (c : Call D O) (d : D) : D := if c.signals d then c.mark d else d

namespace Monitor

variable (M : Monitor T D O)

/-- The calls of the threads in `h`, executed one after the other from `d₀`, each when it need not
wait, lead to the data `d` and the log `o`. -/
inductive Serial (d₀ : D) : List T → D → List (T × O) → Prop
  | nil : Serial d₀ [] d₀ []
  | snoc {h : List T} {d d' : D} {o : List (T × O)} {e : List O} (t : T) :
      Serial d₀ h d o → (M.call t).waits d = false → Stmts (M.call t).body ((M.call t).start d) d' e →
      Serial d₀ (h ++ [t]) d' (o ++ e.map (t, ·))

/-- A call that ends another call's wait signals. -/
def Signals : Prop :=
  ∀ t u d d' e, (M.call t).waits d = false → (M.call u).waits d = true →
    (M.call t).signals d = false → Stmts (M.call t).body ((M.call t).start d) d' e →
    (M.call u).waits d' = true

/-! ### The invariant -/

/-- Outside the critical section: before a call, or in `pthread_cond_wait`. -/
def Idle : Ctrl Loc Unit Unit → Prop
  | .run l => l.place = .lock
  | .asleep _ _ l => l.place = .test
  | .woken _ l => l.place = .test

/-- What holds at a place of the critical section of a thread that found the data `d` and the log
`o` when it passed the lock, and now sees `d'` and `o'`. -/
def At (t : T) (d : D) (o : List (T × O)) : Place → D → List (T × O) → Prop
  | .lock, _, _ => False
  | .test, d', o' => d' = d ∧ o' = o
  | .wait, d', o' => d' = d ∧ o' = o ∧ (M.call t).waits d = true
  | .choose, d', o' => d' = d ∧ o' = o ∧ (M.call t).waits d = false
  | .mark, d', o' => d' = d ∧ o' = o ∧ (M.call t).waits d = false ∧ (M.call t).signals d = true
  | .broadcast, d', o' => d' = (M.call t).mark d ∧ o' = o ∧ (M.call t).waits d = false ∧
      (M.call t).signals d = true
  | .body k, d', o' => (M.call t).waits d = false ∧ k ≤ (M.call t).body.length ∧
      ∃ e, Stmts ((M.call t).body.take k) ((M.call t).start d) d' e ∧ o' = o ++ e.map (t, ·)

/-- The threads asleep in `s` have to wait on the data `d`. -/
def SleepersWait (s : St T D O) (d : D) : Prop := ∀ u, Asleep u s → (M.call u).waits d = true

/-- After the statement `if (signals) broadcast` nobody sleeps if it broadcast. -/
def Quiet (t : T) (s : St T D O) (d : D) : Place → Prop
  | .body _ => (M.call t).signals d = true → ∀ u, ¬ Asleep u s
  | _ => True

/-- The completed calls are those of `h`. -/
def Completed [DecidableEq T] (h : List T) (s : St T D O) : Prop :=
  ∀ u, h.countP (fun v => v = u) = done u s

/-- What holds in every reachable state. -/
structure Inv [DecidableEq T] (d₀ : D) (s : St T D O) : Prop where
  idle : ∀ t, s.owner () ≠ some t → Idle (s.ctrl t)
  free : s.owner () = none → ∃ h, M.Serial d₀ h s.data s.out ∧ Completed h s ∧
    (M.Signals → M.SleepersWait s s.data)
  held : ∀ t, s.owner () = some t → ∃ i p h d o, s.ctrl t = .run ⟨i, p⟩ ∧ M.Serial d₀ h d o ∧
    Completed h s ∧ M.At t d o p s.data s.out ∧
    (M.Signals → M.SleepersWait s d ∧ M.Quiet t s d p)

variable {M} {d₀ : D} {s s' : St T D O} {t u : T}

variable [DecidableEq T]

section Steps

variable {n k : ℕ} {i : ℤ}

/-! ### The steps of a running thread, place by place -/

theorem exec_lock (hc : s.ctrl t = .run ⟨n, .lock⟩) : exec M.program s (.exec t i) =
    if n < M.runs t ∧ s.owner () = none then
      some ((s.setOwner () (some t)).setCtrl t (.run ⟨n, .test⟩)) else none := by
  by_cases hn : n < M.runs t <;> simp [exec, hc, program, code, hn]

theorem exec_test (hc : s.ctrl t = .run ⟨n, .test⟩) : exec M.program s (.exec t i) =
    some (s.setCtrl t (.run ⟨n, if (M.call t).waits s.data then .wait else .choose⟩)) := by
  simp [exec, hc, program, code]

theorem exec_wait (hc : s.ctrl t = .run ⟨n, .wait⟩) : exec M.program s (.exec t i) =
    some ((s.setOwner () none).setCtrl t (.asleep () () ⟨n, .test⟩)) := by
  simp [exec, hc, program, code]

theorem exec_choose (hc : s.ctrl t = .run ⟨n, .choose⟩) : exec M.program s (.exec t i) =
    some (s.setCtrl t (.run ⟨n, if (M.call t).signals s.data then .mark else .body 0⟩)) := by
  simp [exec, hc, program, code]

theorem exec_mark (hc : s.ctrl t = .run ⟨n, .mark⟩) : exec M.program s (.exec t i) =
    some ((s.write t ((M.call t).mark s.data) []).setCtrl t (.run ⟨n, .broadcast⟩)) := by
  simp [exec, hc, program, code]

theorem exec_broadcast (hc : s.ctrl t = .run ⟨n, .broadcast⟩) : exec M.program s (.exec t i) =
    some ((s.wakeAll ()).setCtrl t (.run ⟨n, .body 0⟩)) := by
  simp [exec, hc, program, code]

theorem exec_body {st : Stmt D O} (hc : s.ctrl t = .run ⟨n, .body k⟩)
    (hk : (M.call t).body[k]? = some st) : exec M.program s (.exec t i) =
    some ((s.write t (st i s.data).1 (st i s.data).2).setCtrl t (.run ⟨n, .body (k + 1)⟩)) := by
  simp [exec, hc, program, code, hk]

theorem exec_unlock (hc : s.ctrl t = .run ⟨n, .body k⟩) (hk : (M.call t).body[k]? = none) :
    exec M.program s (.exec t i) =
    some ((s.setOwner () none).setCtrl t (.run ⟨n + 1, .lock⟩)) := by
  simp [exec, hc, program, code, hk]

theorem exec_resume {l : Loc} (hc : s.ctrl t = .woken () l) :
    exec M.program s (.resume t) = if s.owner () = none then
      some ((s.setOwner () (some t)).setCtrl t (.run l)) else none := by
  simp [exec, hc]

end Steps

/-! ### The invariant is kept -/

theorem asleep_setCtrl_run {l : Loc} :
    Asleep u (s.setCtrl t (.run l)) ↔ u ≠ t ∧ Asleep u s := by
  by_cases h : u = t
  · simp [h, Asleep]
  · simp [h, Asleep, State.setCtrl_ctrl_of_ne h]

theorem done_setCtrl {k : Ctrl Loc Unit Unit} (h : k.loc.i = done t s) :
    done u (s.setCtrl t k) = done u s := by
  by_cases hu : u = t
  · rw [hu, done, State.setCtrl_ctrl_self, h]
  · rw [done, State.setCtrl_ctrl_of_ne hu, done]

theorem inv_init : M.Inv d₀ (M.program.init d₀) where
  idle _ _ := rfl
  free _ := ⟨[], .nil, fun _ => by simp [done, Program.init, program],
    fun _ u h => by simp [Asleep, Program.init] at h⟩
  held t h := by simp [Program.init] at h

/-- A running thread outside the place `lock` owns the mutex. -/
theorem Inv.owner_of_run (hI : M.Inv d₀ s) {n : ℕ} {p : Place} (hc : s.ctrl t = .run ⟨n, p⟩)
    (hp : p ≠ .lock) : s.owner () = some t := by
  by_contra ho
  have := hI.idle t ho
  rw [hc] at this
  exact hp this

/-- Passing the lock, from the place `lock` or after a wake-up. -/
theorem Inv.acquire (hI : M.Inv d₀ s) (ho : s.owner () = none) {n : ℕ} (hn : done t s = n) :
    M.Inv d₀ ((s.setOwner () (some t)).setCtrl t (.run ⟨n, .test⟩)) := by
  obtain ⟨h, hS, hC, hw⟩ := hI.free ho
  refine ⟨fun u hu => ?_, fun h' => ?_, fun u hu => ?_⟩
  · have hut : u ≠ t := fun e => hu (by simp [e])
    rw [State.setCtrl_ctrl_of_ne hut]
    exact hI.idle u (by simp [ho])
  · simp at h'
  · obtain rfl : t = u := by simpa using hu
    refine ⟨n, .test, h, s.data, s.out, by simp, hS, fun v => ?_, ⟨rfl, rfl⟩, fun hsig => ⟨?_, trivial⟩⟩
    · exact (hC v).trans (done_setCtrl (s := s.setOwner () (some t)) (by simpa [done] using hn.symm)).symm
    · intro v hv
      exact hw hsig v (asleep_setCtrl_run.1 hv).2

/-- A statement of the owner. -/
theorem Inv.act (hI : M.Inv d₀ s) {n : ℕ} {p p' : Place} {x : D} {e : List O}
    (hc : s.ctrl t = .run ⟨n, p⟩) (ho : s.owner () = some t)
    (hA : ∀ d o, M.At t d o p s.data s.out → M.At t d o p' x (s.out ++ e.map (t, ·)))
    (hQ : ∀ d o, M.At t d o p s.data s.out → M.Quiet t s d p → M.Quiet t s d p') :
    M.Inv d₀ ((s.write t x e).setCtrl t (.run ⟨n, p'⟩)) := by
  obtain ⟨i, q, h, d, o, hc', hS, hC, hAt, hw⟩ := hI.held t ho
  obtain ⟨rfl, rfl⟩ : n = i ∧ p = q := by simpa [hc] using hc'
  refine ⟨fun u hu => ?_, fun h' => ?_, fun u hu => ?_⟩
  · have hut : u ≠ t := fun h => hu (by simp [h, ho])
    rw [State.setCtrl_ctrl_of_ne hut]
    exact hI.idle u hu
  · simp [ho] at h'
  · obtain rfl : t = u := by simpa [ho] using hu
    refine ⟨n, p', h, d, o, by simp, hS, fun v => ?_, by simpa using hA d o hAt, fun hsig => ⟨?_, ?_⟩⟩
    · exact (hC v).trans (done_setCtrl (s := s.write t x e) (by simp [done, hc])).symm
    · intro v hv
      exact (hw hsig).1 v (asleep_setCtrl_run.1 hv).2
    · have := hQ d o hAt (hw hsig).2
      cases p' with
      | body k => exact fun hd v hv => this hd v (asleep_setCtrl_run.1 hv).2
      | _ => trivial

/-- A statement of the owner that only chooses the next place. -/
theorem Inv.goto (hI : M.Inv d₀ s) {n : ℕ} {p p' : Place} (hc : s.ctrl t = .run ⟨n, p⟩)
    (ho : s.owner () = some t) (hA : ∀ d o, M.At t d o p s.data s.out → M.At t d o p' s.data s.out)
    (hQ : ∀ d o, M.At t d o p s.data s.out → M.Quiet t s d p → M.Quiet t s d p') :
    M.Inv d₀ (s.setCtrl t (.run ⟨n, p'⟩)) := by
  have := hI.act (x := s.data) (e := []) hc ho (by simpa using hA) hQ
  rwa [State.write_self] at this

theorem Inv.wait (hI : M.Inv d₀ s) {n : ℕ} (hc : s.ctrl t = .run ⟨n, .wait⟩) :
    M.Inv d₀ ((s.setOwner () none).setCtrl t (.asleep () () ⟨n, .test⟩)) := by
  have ho := hI.owner_of_run hc nofun
  obtain ⟨i, q, h, d, o, hc', hS, hC, hAt, hw⟩ := hI.held t ho
  obtain ⟨rfl, rfl⟩ : n = i ∧ .wait = q := by simpa [hc] using hc'
  obtain ⟨rfl, rfl, hwt⟩ := hAt
  refine ⟨fun u _ => ?_, fun _ => ⟨h, hS, fun v => ?_, fun hsig u hu => ?_⟩, fun u hu => ?_⟩
  · by_cases hut : u = t
    · rw [hut, State.setCtrl_ctrl_self]; rfl
    · rw [State.setCtrl_ctrl_of_ne hut]
      exact hI.idle u (by simp [ho, Ne.symm hut])
  · exact (hC v).trans (done_setCtrl (s := s.setOwner () none) (by simp [done, hc])).symm
  · by_cases hut : u = t
    · exact hut ▸ hwt
    · apply (hw hsig).1 u
      simpa [Asleep, State.setCtrl_ctrl_of_ne hut] using hu
  · simp at hu

theorem Inv.broadcast (hI : M.Inv d₀ s) {n : ℕ} (hc : s.ctrl t = .run ⟨n, .broadcast⟩) :
    M.Inv d₀ ((s.wakeAll ()).setCtrl t (.run ⟨n, .body 0⟩)) := by
  have ho := hI.owner_of_run hc nofun
  obtain ⟨i, q, h, d, o, hc', hS, hC, hAt, hw⟩ := hI.held t ho
  obtain ⟨rfl, rfl⟩ : n = i ∧ .broadcast = q := by simpa [hc] using hc'
  obtain ⟨hd, ho', hwt, hsg⟩ := hAt
  have hno : ∀ u, ¬ Asleep u ((s.wakeAll ()).setCtrl t (.run ⟨n, .body 0⟩)) := by
    rintro u hu
    obtain ⟨-, j, hj⟩ := asleep_setCtrl_run.1 hu
    rw [State.wakeAll_ctrl] at hj
    cases hk : s.ctrl u <;> simp [hk, Ctrl.wake] at hj
  refine ⟨fun u hu => ?_, fun h' => ?_, fun u hu => ?_⟩
  · have hut : u ≠ t := fun h => hu (by simp [h, ho])
    have := hI.idle u hu
    rw [State.setCtrl_ctrl_of_ne hut, State.wakeAll_ctrl]
    cases hk : s.ctrl u <;> rw [hk] at this <;> simpa [Ctrl.wake, Idle] using this
  · simp [ho] at h'
  · obtain rfl : t = u := by simpa [ho] using hu
    refine ⟨n, .body 0, h, d, o, by simp, hS, fun v => ?_, ⟨hwt, by simp, [], ?_, by simp [ho']⟩,
      fun hsig => ⟨fun v hv => absurd hv (hno v), fun _ => hno⟩⟩
    · rw [hC v, done_setCtrl (by simp [done, hc])]
      simp [done]
    · simpa [Call.start, hsg, hd] using Stmts.nil _

theorem Inv.unlock (hI : M.Inv d₀ s) {n k : ℕ} (hc : s.ctrl t = .run ⟨n, .body k⟩)
    (hk : (M.call t).body[k]? = none) :
    M.Inv d₀ ((s.setOwner () none).setCtrl t (.run ⟨n + 1, .lock⟩)) := by
  have ho := hI.owner_of_run hc nofun
  obtain ⟨i, q, h, d, o, hc', hS, hC, hAt, hw⟩ := hI.held t ho
  obtain ⟨rfl, rfl⟩ : n = i ∧ .body k = q := by simpa [hc] using hc'
  obtain ⟨hwt, hle, e, hE, ho'⟩ := hAt
  have hlen : k = (M.call t).body.length := le_antisymm hle (List.getElem?_eq_none_iff.1 hk)
  rw [hlen, List.take_length] at hE
  refine ⟨fun u _ => ?_, fun _ => ⟨h ++ [t], ?_, fun v => ?_, fun hsig u hu => ?_⟩, fun u hu => ?_⟩
  · by_cases hut : u = t
    · rw [hut, State.setCtrl_ctrl_self]; rfl
    · rw [State.setCtrl_ctrl_of_ne hut]
      exact hI.idle u (by simp [ho, Ne.symm hut])
  · simpa [ho'] using hS.snoc t hwt hE
  · have hv := hC v
    by_cases hvt : v = t
    · subst hvt
      simp [done, hc] at hv
      simp [done, hv]
    · rw [List.countP_append, hv]
      simp [done, State.setCtrl_ctrl_of_ne hvt, Ne.symm hvt]
  · obtain ⟨-, hu⟩ := asleep_setCtrl_run.1 hu
    have hu : Asleep u s := hu
    have hns : (M.call t).signals d = false := by
      by_contra hs
      exact (hw hsig).2 (by simpa using hs) u hu
    exact hsig t u d _ e hwt ((hw hsig).1 u hu) hns hE
  · simp at hu

theorem Inv.spurious (hI : M.Inv d₀ s) {l : Loc} (hc : s.ctrl t = .asleep () () l) :
    M.Inv d₀ (s.setCtrl t (.woken () l)) := by
  have hsub : ∀ u, Asleep u (s.setCtrl t (.woken () l)) → Asleep u s := by
    intro u hu
    by_cases hut : u = t
    · simp [hut, Asleep] at hu
    · simpa [Asleep, State.setCtrl_ctrl_of_ne hut] using hu
  have hdone : ∀ u, done u (s.setCtrl t (.woken () l)) = done u s :=
    fun u => done_setCtrl (by simp [done, hc])
  refine ⟨fun u hu => ?_, fun ho => ?_, fun u hu => ?_⟩
  · have := hI.idle u hu
    by_cases hut : u = t
    · rw [hut, State.setCtrl_ctrl_self]
      rw [hut, hc] at this
      exact this
    · rwa [State.setCtrl_ctrl_of_ne hut]
  · obtain ⟨h, hS, hC, hw⟩ := hI.free ho
    exact ⟨h, hS, fun v => (hC v).trans (hdone v).symm, fun hsig v hv => hw hsig v (hsub v hv)⟩
  · obtain ⟨i, p, h, d, o, hc', hS, hC, hAt, hw⟩ := hI.held u hu
    have hut : u ≠ t := by
      rintro rfl
      rw [hc] at hc'
      cases hc'
    refine ⟨i, p, h, d, o, by rwa [State.setCtrl_ctrl_of_ne hut], hS,
      fun v => (hC v).trans (hdone v).symm, hAt, fun hsig => ⟨fun v hv => (hw hsig).1 v (hsub v hv), ?_⟩⟩
    have := (hw hsig).2
    cases p with
    | body k => exact fun hd v hv => this hd v (hsub v hv)
    | _ => trivial

/-- Every step keeps the invariant. -/
theorem Inv.step (hI : M.Inv d₀ s) {e : Event T} (h : Step M.program s e s') : M.Inv d₀ s' := by
  have h := h.exec_eq
  cases e with
  | exec t i =>
      rcases hc : s.ctrl t with ⟨n, p⟩ | ⟨_, _, l⟩ | ⟨_, l⟩
      · cases p with
        | lock =>
            rw [exec_lock hc, Option.ite_none_right_eq_some, Option.some.injEq] at h
            exact h.2 ▸ hI.acquire h.1.2 (by simp [done, hc])
        | test =>
            rw [exec_test hc, Option.some.injEq] at h
            have ho := hI.owner_of_run hc nofun
            by_cases hw : (M.call t).waits s.data = true
            · rw [if_pos hw] at h
              exact h ▸ hI.goto hc ho (fun d o hA => ⟨hA.1, hA.2, hA.1 ▸ hw⟩) fun _ _ _ _ => trivial
            · rw [if_neg hw] at h
              rw [Bool.not_eq_true] at hw
              exact h ▸ hI.goto hc ho (fun d o hA => ⟨hA.1, hA.2, hA.1 ▸ hw⟩) fun _ _ _ _ => trivial
        | wait =>
            rw [exec_wait hc, Option.some.injEq] at h
            exact h ▸ hI.wait hc
        | choose =>
            rw [exec_choose hc, Option.some.injEq] at h
            have ho := hI.owner_of_run hc nofun
            by_cases hs : (M.call t).signals s.data = true
            · rw [if_pos hs] at h
              exact h ▸ hI.goto hc ho (fun d o hA => ⟨hA.1, hA.2.1, hA.2.2, hA.1 ▸ hs⟩)
                fun _ _ _ _ => trivial
            · rw [if_neg hs] at h
              refine h ▸ hI.goto hc ho (fun d o hA => ?_) fun d o hA _ hd => ?_
              · obtain ⟨rfl, rfl, hw⟩ := hA
                exact ⟨hw, Nat.zero_le _, [], by simpa [Call.start, hs] using Stmts.nil s.data, by simp⟩
              · exact absurd (hA.1 ▸ hd) hs
        | mark =>
            rw [exec_mark hc, Option.some.injEq] at h
            refine h ▸ hI.act hc (hI.owner_of_run hc nofun) (fun d o hA => ?_) fun _ _ _ _ => trivial
            obtain ⟨rfl, rfl, hw, hs⟩ := hA
            simp [At, hw, hs]
        | broadcast =>
            rw [exec_broadcast hc, Option.some.injEq] at h
            exact h ▸ hI.broadcast hc
        | body k =>
            cases hk : (M.call t).body[k]? with
            | none =>
                rw [exec_unlock hc hk, Option.some.injEq] at h
                exact h ▸ hI.unlock hc hk
            | some st =>
                rw [exec_body hc hk, Option.some.injEq] at h
                refine h ▸ hI.act hc (hI.owner_of_run hc nofun) (fun d o hA => ?_) fun _ _ _ hQ => hQ
                obtain ⟨hw, -, e, hE, ho⟩ := hA
                obtain ⟨hlt, rfl⟩ := List.getElem?_eq_some_iff.1 hk
                refine ⟨hw, hlt, e ++ ((M.call t).body[k] i s.data).2, ?_, ?_⟩
                · rw [List.take_succ_eq_append_getElem hlt]
                  exact hE.snoc _ i
                · rw [ho, List.map_append, List.append_assoc]
      · simp [exec, hc] at h
      · simp [exec, hc] at h
  | resume t =>
      rcases hc : s.ctrl t with l | ⟨_, _, l⟩ | ⟨_, ⟨n, p⟩⟩
      · simp [exec, hc] at h
      · simp [exec, hc] at h
      · rw [exec_resume hc, Option.ite_none_right_eq_some, Option.some.injEq] at h
        have hp : p = .test := by
          have := hI.idle t (by simp [h.1])
          rwa [hc] at this
        exact h.2 ▸ hp ▸ hI.acquire h.1 (by simp [done, hc])
  | spurious t =>
      rcases hc : s.ctrl t with l | ⟨_, _, l⟩ | ⟨_, l⟩
      · simp [exec, hc] at h
      · rw [exec, hc, Option.some.injEq] at h
        exact h ▸ hI.spurious hc
      · simp [exec, hc] at h

theorem inv_of_reachable (h : Reachable (Step M.program) (M.program.init d₀) s) : M.Inv d₀ s :=
  h.invariant (fun _ _ _ hI => hI.step) inv_init

/-- With the mutex free, the data and the log are those of the completed calls, one after the
other. -/
theorem serializable (h : Reachable (Step M.program) (M.program.init d₀) s)
    (hf : s.owner () = none) : ∃ h, M.Serial d₀ h s.data s.out ∧ Completed h s := by
  obtain ⟨h, hS, hC, -⟩ := (inv_of_reachable h).free hf
  exact ⟨h, hS, hC⟩

/-- At any time, what has been printed is the beginning of what a serial execution prints. -/
theorem out_prefix (h : Reachable (Step M.program) (M.program.init d₀) s) :
    ∃ h d o, M.Serial d₀ h d o ∧ s.out <+: o := by
  have hI := inv_of_reachable h
  cases ho : s.owner () with
  | none =>
      obtain ⟨h, hS, -⟩ := hI.free ho
      exact ⟨h, _, _, hS, List.prefix_rfl⟩
  | some t =>
      obtain ⟨n, p, h, d, o, -, hS, -, hA, -⟩ := hI.held t ho
      cases p with
      | lock => exact absurd hA id
      | test => exact ⟨h, d, o, hS, hA.2 ▸ List.prefix_rfl⟩
      | wait | choose | mark | broadcast => exact ⟨h, d, o, hS, hA.2.1 ▸ List.prefix_rfl⟩
      | body k =>
          obtain ⟨hw, -, e, hE, ho'⟩ := hA
          -- run the call to its end
          obtain ⟨d', e', hE'⟩ := Stmts.exists ((M.call t).body.drop k) s.data
          have hrun := hE.append hE'
          rw [List.take_append_drop] at hrun
          refine ⟨h ++ [t], d', _, hS.snoc t hw hrun, ?_⟩
          rw [ho', List.map_append, ← List.append_assoc]
          exact List.prefix_append _ _

/-- No wake-up is lost: with the mutex free, a sleeping thread has to wait. -/
theorem asleep_waits (hsig : M.Signals) (h : Reachable (Step M.program) (M.program.init d₀) s)
    (hf : s.owner () = none) (hu : Asleep u s) : (M.call u).waits s.data = true := by
  obtain ⟨-, -, -, hw⟩ := (inv_of_reachable h).free hf
  exact hw hsig u hu

/-! ### Loop counters -/

/-- A thread's loop counter stays within its runs, and below them during a call. -/
theorem counter_le (h : Reachable (Step M.program) (M.program.init d₀) s) (t : T) :
    done t s ≤ M.runs t ∧ ((s.ctrl t).loc.place ≠ .lock → done t s < M.runs t) := by
  refine loc_invariant (Q := fun t l => l.i ≤ M.runs t ∧ (l.place ≠ .lock → l.i < M.runs t))
    (fun t => ⟨Nat.zero_le _, fun hp => absurd rfl hp⟩) (fun t l l' hQ hl => ?_) h t
  obtain ⟨n, p⟩ := l
  cases p with
  | lock =>
      simp only [program, code] at hl
      split at hl
      · obtain rfl : l' = _ := hl
        exact ⟨hQ.1, fun _ => by assumption⟩
      · exact absurd hl id
  | body k =>
      simp only [program, code] at hl
      split at hl
      · obtain ⟨i, d, rfl⟩ := hl
        exact ⟨hQ.1, fun _ => hQ.2 nofun⟩
      · obtain rfl : l' = _ := hl
        exact ⟨hQ.2 nofun, fun hp => absurd rfl hp⟩
  | wait =>
      obtain rfl : l' = _ := hl
      exact ⟨hQ.1, fun _ => hQ.2 nofun⟩
  | broadcast =>
      obtain rfl : l' = _ := hl
      exact ⟨hQ.1, fun _ => hQ.2 nofun⟩
  | test | choose | mark =>
      obtain ⟨i, d, rfl⟩ := hl
      exact ⟨hQ.1, fun _ => hQ.2 nofun⟩

omit [DecidableEq T] in
/-- A thread has finished when its function has returned. -/
theorem finished_iff_returned {t : T} : M.Finished t s ↔ M.program.returned s t = true := by
  rw [Program.returned_iff]
  constructor
  · rintro ⟨i, hc, hi⟩
    exact ⟨_, hc, if_neg (not_lt.2 hi)⟩
  · rintro ⟨⟨i, p⟩, hc, hexit⟩
    have hexit : M.code t ⟨i, p⟩ = .exit := hexit
    cases p with
    | lock =>
        refine ⟨i, hc, not_lt.1 fun hi => ?_⟩
        simp [code, hi] at hexit
    | body k =>
        simp only [code] at hexit
        split at hexit <;> cases hexit
    | _ => cases hexit

theorem Finished.done_eq (hfin : M.Finished t s)
    (h : Reachable (Step M.program) (M.program.init d₀) s) : done t s = M.runs t := by
  obtain ⟨i, hc, hi⟩ := hfin
  have := (counter_le h t).1
  simp only [done, hc, Ctrl.loc_run] at this ⊢
  omega

theorem Asleep.done_lt (hs : Asleep t s) (h : Reachable (Step M.program) (M.program.init d₀) s) :
    done t s < M.runs t := by
  apply (counter_le h t).2
  obtain ⟨i, hc⟩ := hs
  simp [hc]

/-! ### Progress -/

/-- When no step but a spurious wake-up is possible, the mutex is free and every thread has
finished or sleeps. -/
theorem finished_or_asleep (h : Reachable (Step M.program) (M.program.init d₀) s)
    (hp : ¬ Progresses M.program s) :
    s.owner () = none ∧ ∀ t, M.Finished t s ∨ Asleep t s := by
  have hI := inv_of_reachable h
  have hstuck : ∀ e s', ¬ e.Spurious → exec M.program s e ≠ some s' :=
    fun e s' he h => hp ⟨e, s', he, step_of_exec h⟩
  have hf : s.owner () = none := by
    by_contra ho
    obtain ⟨t, ho⟩ := Option.ne_none_iff_exists'.1 ho
    obtain ⟨n, p, _, _, _, hc, -, -, hA, -⟩ := hI.held t ho
    cases p with
    | lock => exact hA
    | test => exact hstuck (.exec t 0) _ nofun (exec_test hc)
    | wait => exact hstuck (.exec t 0) _ nofun (exec_wait hc)
    | choose => exact hstuck (.exec t 0) _ nofun (exec_choose hc)
    | mark => exact hstuck (.exec t 0) _ nofun (exec_mark hc)
    | broadcast => exact hstuck (.exec t 0) _ nofun (exec_broadcast hc)
    | body k =>
        cases hk : (M.call t).body[k]? with
        | none => exact hstuck (.exec t 0) _ nofun (exec_unlock hc hk)
        | some st => exact hstuck (.exec t 0) _ nofun (exec_body hc hk)
  refine ⟨hf, fun t => ?_⟩
  have hidle := hI.idle t (by simp [hf])
  rcases hc : s.ctrl t with ⟨n, p⟩ | ⟨_, _, ⟨n, p⟩⟩ | ⟨_, l⟩
  · rw [hc] at hidle
    obtain rfl : p = .lock := hidle
    refine Or.inl ⟨n, hc, ?_⟩
    by_contra hn
    exact hstuck (.exec t 0) _ nofun ((exec_lock hc).trans (if_pos ⟨Nat.lt_of_not_le hn, hf⟩))
  · rw [hc] at hidle
    obtain rfl : p = .test := hidle
    exact Or.inr ⟨n, hc⟩
  · exact absurd ((exec_resume hc).trans (if_pos hf)) (hstuck (.resume t) _ nofun)

/-! ### Termination -/

section Measure

variable [Fintype T]

/-- What a wake-up of all threads may add to the measure. -/
def wakeCost (T : Type) [Fintype T] : ℕ := 3 * Fintype.card T

/-- The steps left in the current call, at least, from a place. -/
def left (t : T) : Place → ℕ
  | .lock => 0
  | .body k => 1 + ((M.call t).body.length - k)
  | .broadcast => 2 + (M.call t).body.length + wakeCost T
  | .mark => 3 + (M.call t).body.length + wakeCost T
  | .choose => 4 + (M.call t).body.length + wakeCost T
  | .wait => 6 + (M.call t).body.length + wakeCost T
  | .test => 7 + (M.call t).body.length + wakeCost T

/-- The share of thread `t`: a call costs more than any place of it. -/
def share (t : T) : Ctrl Loc Unit Unit → ℕ
  | .run ⟨n, .lock⟩ => (M.runs t - n) * (9 + (M.call t).body.length + wakeCost T)
  | .run ⟨n, p⟩ => (M.runs t - (n + 1)) * (9 + (M.call t).body.length + wakeCost T) + M.left t p
  | .asleep _ _ ⟨n, _⟩ => (M.runs t - (n + 1)) * (9 + (M.call t).body.length + wakeCost T) +
      (5 + (M.call t).body.length + wakeCost T)
  | .woken _ ⟨n, _⟩ => (M.runs t - (n + 1)) * (9 + (M.call t).body.length + wakeCost T) +
      (8 + (M.call t).body.length + wakeCost T)

/-- The measure of a state. -/
def measure (s : St T D O) : ℕ := ∑ t, M.share t (s.ctrl t)

theorem measure_setCtrl_lt {k : Ctrl Loc Unit Unit} (h : M.share t k < M.share t (s.ctrl t)) :
    M.measure (s.setCtrl t k) < M.measure s := by
  refine Finset.sum_lt_sum (fun u _ => ?_) ⟨t, Finset.mem_univ t, by simpa using h⟩
  by_cases hu : u = t
  · subst hu
    simpa using h.le
  · rw [State.setCtrl_ctrl_of_ne hu]

omit [DecidableEq T] in
theorem share_wake_le (t : T) (k : Ctrl Loc Unit Unit) : M.share t (k.wake ()) ≤ M.share t k + 3 := by
  cases k with
  | asleep _ _ l => simp only [Ctrl.wake, if_true, share]; omega
  | _ => exact Nat.le_add_right _ _

/-- A broadcast pays for the wake-ups. -/
theorem measure_broadcast_lt {n : ℕ} (hc : s.ctrl t = .run ⟨n, .broadcast⟩) :
    M.measure ((s.wakeAll ()).setCtrl t (.run ⟨n, .body 0⟩)) < M.measure s := by
  have hsum : M.measure (s.wakeAll ()) ≤ M.measure s + wakeCost T := by
    calc M.measure (s.wakeAll ()) ≤ ∑ u, (M.share u (s.ctrl u) + 3) :=
          Finset.sum_le_sum fun u _ => share_wake_le u _
      _ = M.measure s + wakeCost T := by
          rw [Finset.sum_add_distrib, Finset.sum_const_nat fun _ _ => rfl, Finset.card_univ,
            Nat.mul_comm]
          rfl
  have hsplit : ∀ s' : St T D O, M.measure s' =
      M.share t (s'.ctrl t) + ∑ u ∈ Finset.univ.erase t, M.share u (s'.ctrl u) :=
    fun s' => (Finset.add_sum_erase _ _ (Finset.mem_univ t)).symm
  have hrest : ∑ u ∈ Finset.univ.erase t, M.share u (((s.wakeAll ()).setCtrl t
      (.run ⟨n, .body 0⟩)).ctrl u) = ∑ u ∈ Finset.univ.erase t, M.share u ((s.wakeAll ()).ctrl u) :=
    Finset.sum_congr rfl fun u hu => by rw [State.setCtrl_ctrl_of_ne (Finset.ne_of_mem_erase hu)]
  have hw := hsplit (s.wakeAll ())
  rw [State.wakeAll_ctrl, hc] at hw
  rw [hsplit, hrest, State.setCtrl_ctrl_self]
  simp only [Ctrl.wake, share, left] at hw ⊢
  omega

theorem measure_lt {e : Event T} (he : ¬ e.Spurious) (hI : M.Inv d₀ s)
    (h : Step M.program s e s') : M.measure s' < M.measure s := by
  have h := h.exec_eq
  cases e with
  | exec t i =>
      rcases hc : s.ctrl t with ⟨n, p⟩ | ⟨_, _, l⟩ | ⟨_, l⟩
      · cases p with
        | lock =>
            rw [exec_lock hc, Option.ite_none_right_eq_some, Option.some.injEq] at h
            obtain ⟨⟨hn, -⟩, rfl⟩ := h
            apply measure_setCtrl_lt (s := s.setOwner () (some t))
            obtain ⟨m, hm⟩ : ∃ m, M.runs t - n = m + 1 := ⟨M.runs t - n - 1, by omega⟩
            have hm' : M.runs t - (n + 1) = m := by omega
            simp only [State.setOwner_ctrl, hc, share, left, hm, hm', Nat.succ_mul]
            omega
        | test =>
            rw [exec_test hc, Option.some.injEq] at h
            subst h
            apply measure_setCtrl_lt
            rw [hc]
            split <;> simp only [share, left] <;> omega
        | wait =>
            rw [exec_wait hc, Option.some.injEq] at h
            subst h
            apply measure_setCtrl_lt (s := s.setOwner () none)
            simp only [State.setOwner_ctrl, hc, share, left]
            omega
        | choose =>
            rw [exec_choose hc, Option.some.injEq] at h
            subst h
            apply measure_setCtrl_lt
            rw [hc]
            split <;> simp only [share, left] <;> omega
        | mark =>
            rw [exec_mark hc, Option.some.injEq] at h
            subst h
            apply measure_setCtrl_lt (s := s.write t _ _)
            simp only [State.write_ctrl, hc, share, left]
            omega
        | broadcast =>
            rw [exec_broadcast hc, Option.some.injEq] at h
            exact h ▸ measure_broadcast_lt hc
        | body k =>
            cases hk : (M.call t).body[k]? with
            | none =>
                rw [exec_unlock hc hk, Option.some.injEq] at h
                subst h
                apply measure_setCtrl_lt (s := s.setOwner () none)
                simp only [State.setOwner_ctrl, hc, share, left]
                omega
            | some st =>
                rw [exec_body hc hk, Option.some.injEq] at h
                subst h
                obtain ⟨hlt, -⟩ := List.getElem?_eq_some_iff.1 hk
                apply measure_setCtrl_lt (s := s.write t _ _)
                simp only [State.write_ctrl, hc, share, left]
                omega
      · simp [exec, hc] at h
      · simp [exec, hc] at h
  | resume t =>
      rcases hc : s.ctrl t with l | ⟨_, _, l⟩ | ⟨_, ⟨n, p⟩⟩
      · simp [exec, hc] at h
      · simp [exec, hc] at h
      · rw [exec_resume hc, Option.ite_none_right_eq_some, Option.some.injEq] at h
        obtain ⟨ho, rfl⟩ := h
        obtain rfl : p = .test := by
          have := hI.idle t (by simp [ho])
          rwa [hc] at this
        apply measure_setCtrl_lt (s := s.setOwner () (some t))
        simp only [State.setOwner_ctrl, hc, share, left]
        omega
  | spurious t => exact absurd trivial he

/-- No run without spurious wake-ups goes on for ever. -/
theorem not_infinite (f : ℕ → St T D O) (h₀ : Reachable (Step M.program) (M.program.init d₀) (f 0)) :
    ¬ ∀ n, ∃ e : Event T, ¬ e.Spurious ∧ Step M.program (f n) e (f (n + 1)) := by
  intro hf
  have hI : ∀ n, M.Inv d₀ (f n) := by
    intro n
    induction n with
    | zero => exact inv_of_reachable h₀
    | succ n ih =>
        obtain ⟨e, -, he⟩ := hf n
        exact ih.step he
  refine not_infinite_of_measure M.measure
    (fun s (e : Event T) s' (h : M.Inv d₀ s ∧ ¬ e.Spurious ∧ Step M.program s e s') =>
      measure_lt h.2.1 h.1 h.2.2) f fun n => ?_
  obtain ⟨e, he, hs⟩ := hf n
  exact ⟨e, hI n, he, hs⟩

end Measure

/-! ### Two roles -/

section Roles

variable {R W : Type} [DecidableEq R] [DecidableEq W]

theorem sum_countP_inl [Fintype R] (h : List (R ⊕ W)) :
    ∑ r, h.countP (fun u => u = Sum.inl r) = h.countP Sum.isLeft := by
  induction h with
  | nil => simp
  | cons u h ih => cases u <;> simp [List.countP_cons, Finset.sum_add_distrib, ih]

theorem sum_countP_inr [Fintype W] (h : List (R ⊕ W)) :
    ∑ w, h.countP (fun u => u = Sum.inr w) = h.countP Sum.isRight := by
  induction h with
  | nil => simp
  | cons u h ih => cases u <;> simp [List.countP_cons, Finset.sum_add_distrib, ih]

variable {s : St (R ⊕ W) D O} {h : List (R ⊕ W)}

theorem Completed.sum_inl [Fintype R] (hC : Completed h s) :
    ∑ r, done (Sum.inl r) s = h.countP Sum.isLeft :=
  (Finset.sum_congr rfl fun r _ => (hC (Sum.inl r)).symm).trans (sum_countP_inl h)

theorem Completed.sum_inr [Fintype W] (hC : Completed h s) :
    ∑ w, done (Sum.inr w) s = h.countP Sum.isRight :=
  (Finset.sum_congr rfl fun w _ => (hC (Sum.inr w)).symm).trans (sum_countP_inr h)

end Roles

end Monitor

end Pthread
