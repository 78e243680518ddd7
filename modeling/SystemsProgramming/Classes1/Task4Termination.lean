import SystemsProgramming.Classes1.Task4Cancel
import SystemsProgramming.Classes1.Task4Progress
import SystemsProgramming.Library.LightswitchTermination

/-!
# The critic rounds of `Task4.c` come to an end

The critic loops for ever and sleeps in a `while`, so its steps must be paid for by the writers: the
write that completes a round leaves the price of the round in the object (`roundCost`), and the reset
of the critic takes it from there.
-/

namespace Task4

open Pthread Transition

variable {R : Type} {n : ℕ} {readerRuns : R → ℕ} {writerRuns : Fin n → ℕ}

instance : Fintype (Worker n) :=
  Fintype.ofEquiv (Option (Fin n))
    { toFun := fun u => u.elim .critic .writer
      invFun := fun u => match u with
        | .writer idx => some idx
        | .critic => none
      left_inv := fun u => by cases u <;> rfl
      right_inv := fun u => by cases u <;> rfl }

/-- What a broadcast pays for waking the workers. -/
def wakeCost (n : ℕ) : ℕ := ∑ _ : Worker n, 3

/-- The price of a round of the critic, from its reset on. -/
def roundCost (n : ℕ) : ℕ := n + 7 + wakeCost n

/-- The price of a call of `write_to_object`. -/
def callCost (n : ℕ) : ℕ := 11 + wakeCost n + roundCost n

/-- The price of a location. -/
def cost (writerRuns : Fin n → ℕ) : Worker n → Loc → ℕ
  | .writer idx, l =>
    let later := (writerRuns idx - (l.i + 1)) * callCost n
    match l.place with
    | .lock => (writerRuns idx - l.i) * callCost n
    | .test => later + (10 + wakeCost n + roundCost n)
    | .wait => later + (9 + wakeCost n + roundCost n)
    | .check => later + (8 + wakeCost n + roundCost n)
    | .count => later + (7 + wakeCost n + roundCost n)
    | .record => later + (6 + wakeCost n)
    | .full => later + (5 + wakeCost n)
    | .broadcast => later + (4 + wakeCost n)
    | .store => later + 3
    | .print => later + 2
    | .unlock => later + 1
    | _ => 0
  | .critic, l =>
    match l.place with
    | .lock => 3
    | .test => 2
    | .wait | .reset => 1
    | .clear i => 7 + wakeCost n + (n - i)
    | .save => 6 + wakeCost n
    | .broadcast => 5 + wakeCost n
    | .unlock => 4
    | _ => 0

/-- What the object holds for the next round. -/
def credit (n : ℕ) (object : ConcurrentObject) : ℕ :=
  if object.writersCount = object.numWriters then roundCost n else 0

/-- What is known in the critical sections. -/
def Asserted (R : Type) (u : Worker n) (l : Loc) (object : ConcurrentObject) : Prop :=
  crit u l → ∃ o : Log R n, assertion u l object o

theorem cost_lock {u : Worker n} {l next : Loc} {m : Mutex}
    (h : (threads readerRuns writerRuns).code u l = .lock m next) :
    cost writerRuns u next < cost writerRuns u l := by
  obtain ⟨i, p⟩ := l
  cases u with
  | writer idx =>
      cases p with
      | lock =>
          simp only [threads, writerThread] at h
          split at h
          · rename_i hi
            cases h
            have hcall : writerRuns idx - i = writerRuns idx - (i + 1) + 1 := by omega
            simp only [cost, hcall, Nat.succ_mul, callCost]
            omega
          · cases h
      | _ => cases h
  | critic =>
      cases p with
      | lock =>
          cases h
          exact Nat.lt_succ_self 2
      | _ => cases h

theorem cost_unlock {u : Worker n} {l next : Loc} {m : Mutex}
    (h : (threads readerRuns writerRuns).code u l = .unlock m next) :
    cost writerRuns u next < cost writerRuns u l := by
  obtain ⟨i, p⟩ := l
  cases u with
  | writer idx =>
      cases p with
      | lock =>
          simp only [threads, writerThread] at h
          split at h <;> cases h
      | unlock =>
          cases h
          exact Nat.lt_succ_self _
      | _ => cases h
  | critic =>
      cases p with
      | unlock =>
          cases h
          exact Nat.lt_succ_self 3
      | _ => cases h

/-- A statement of a writer: the one that completes the round leaves the price of the round. -/
theorem cost_writer {idx : Fin n} {l : Loc} {object : ConcurrentObject}
    {f : ℤ → ConcurrentObject → ConcurrentObject × List Line × Loc} (i : ℤ)
    (h : writerThread (writerRuns idx) idx l = .act f) :
    cost writerRuns (.writer idx) (f i object).2.2 + credit n (f i object).1 <
      cost writerRuns (.writer idx) l + credit n object := by
  obtain ⟨k, p⟩ := l
  cases p with
  | lock =>
      simp only [writerThread] at h
      split at h <;> cases h
  | test | check | full =>
      cases h
      dsimp only
      split <;> simp only [cost] <;> omega
  | count =>
      cases h
      have hle : ∀ object : ConcurrentObject, credit n object ≤ roundCost n := fun object => by
        rw [credit]
        split <;> omega
      have := hle { object with writersCount := object.writersCount + 1 }
      simp only [cost]
      omega
  | record | store | print =>
      cases h
      simp only [cost, credit]
      omega
  | _ => cases h

/-- A statement of the critic: its reset uses the price of the round. -/
theorem cost_critic (hn : 0 < n) {l : Loc} {object : ConcurrentObject}
    {f : ℤ → ConcurrentObject → ConcurrentObject × List Line × Loc} (i : ℤ)
    (h : criticThread l = .act f) (hA : Asserted (n := n) R .critic l object) :
    cost writerRuns .critic (f i object).2.2 + credit n (f i object).1 <
      cost writerRuns .critic l + credit n object := by
  obtain ⟨k, p⟩ := l
  cases p with
  | test =>
      cases h
      dsimp only
      split <;> simp only [cost] <;> omega
  | reset =>
      cases h
      obtain ⟨o, hround, hcount⟩ := hA trivial
      have hnum : object.numWriters = n := Round.numWriters hround
      have hbefore : credit n object = roundCost n := if_pos (hcount.trans hnum.symm)
      have hafter : credit n { object with writersCount := 0 } = 0 := if_neg fun h0 => by
        have h0 : (0 : ℤ) = object.numWriters := h0
        omega
      rw [hbefore, hafter]
      simp only [cost, roundCost]
      omega
  | clear j =>
      cases h
      obtain ⟨o, hclosing, hj⟩ := hA trivial
      have hnum : object.numWriters = n := Closing.numWriters hclosing
      dsimp only
      split <;> simp only [cost, credit] <;> omega
  | save =>
      cases h
      simp only [cost]
      omega
  | _ => cases h

/-- The price of a thread that sleeps in `pthread_cond_wait`. -/
def restCost (writerRuns : Fin n → ℕ) (u : Worker n) (l : Loc) : ℕ :=
  match l.place with
  | .test => cost writerRuns u l - 2
  | _ => cost writerRuns u l + 1

theorem cost_wait {u : Worker n} {l next : Loc} {c : Unit} {m : Mutex}
    (h : (threads readerRuns writerRuns).code u l = .wait c m next) :
    restCost writerRuns u next < cost writerRuns u l := by
  obtain ⟨i, p⟩ := l
  cases u with
  | writer idx =>
      cases p with
      | lock =>
          simp only [threads, writerThread] at h
          split at h <;> cases h
      | wait =>
          cases h
          simp only [restCost, cost]
          omega
      | _ => cases h
  | critic =>
      cases p with
      | wait =>
          cases h
          exact Nat.lt_succ_self 0
      | _ => cases h

theorem cost_broadcast {u : Worker n} {l next : Loc} {c : Unit}
    (h : (threads readerRuns writerRuns).code u l = .broadcast c next) :
    cost writerRuns u next + wakeCost n < cost writerRuns u l := by
  obtain ⟨i, p⟩ := l
  cases u with
  | writer idx =>
      cases p with
      | lock =>
          simp only [threads, writerThread] at h
          split at h <;> cases h
      | broadcast =>
          cases h
          simp only [cost]
          omega
      | _ => cases h
  | critic =>
      cases p with
      | broadcast =>
          cases h
          simp only [cost]
          omega
      | _ => cases h

/-- The writers pay for the critic. -/
def workers (hn : 0 < n) (readerRuns : R → ℕ) (writerRuns : Fin n → ℕ) :
    Budget (threads readerRuns writerRuns).others (Asserted R) where
  cost := cost writerRuns
  rest := restCost writerRuns
  credit := credit n
  wake _ := 3
  lock h := cost_lock (show (threads readerRuns writerRuns).code _ _ = _ from h)
  tryLock {u l m taken refused} h := by
    have hlaw : (threads readerRuns writerRuns).Lawful crit := lawful
    have hg := hlaw.guarded u l
    rw [show (threads readerRuns writerRuns).code u l = _ from h] at hg
    exact hg.elim
  unlock h := cost_unlock (show (threads readerRuns writerRuns).code _ _ = _ from h)
  wait h := cost_wait (show (threads readerRuns writerRuns).code _ _ = _ from h)
  woken u l := by
    obtain ⟨i, p⟩ := l
    cases p <;> simp only [restCost] <;> omega
  broadcast h := cost_broadcast (show (threads readerRuns writerRuns).code _ _ = _ from h)
  act {u l f object} i h hA := by
    cases u with
    | writer idx => exact cost_writer i h
    | critic => exact cost_critic hn i h hA

variable [Fintype R] [DecidableEq R] {initialData : ℤ} {cells : ℕ → Bool}

/-- What the statements of the workers need to know holds in every reachable state. -/
theorem known_of_reachable (hn : 0 < n)
    {s : Lightswitch.St R (Worker n) ConcurrentObject Loc Mutex Unit Line}
    (h : Reachable (Step (threads readerRuns writerRuns).program)
      ((threads readerRuns writerRuns).program.init (allocateObject initialData n cells)) s)
    (t : R ⊕ Worker n) (l : RLoc ⊕ Loc) (hc : s.ctrl t = .run l) :
    Lightswitch.Known (Asserted R) t l s.data := by
  have hP := Lightswitch.protected_of_reachable lawful (protects hn) rfl
    (round_init hn initialData cells) h
  cases t with
  | inl r => cases l <;> trivial
  | inr u =>
      cases l with
      | inl l => trivial
      | inr l => exact fun hl => ⟨s.out, hP.held u l hc hl⟩

end Task4
