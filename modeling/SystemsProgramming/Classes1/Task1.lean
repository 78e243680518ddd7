import SystemsProgramming.Library.LightswitchProgress
import Mathlib.Data.Set.Card

/-!
# The readers and writers of `Task1.c`

Writers lock `writer_mutex` for each write; readers share it through a counter and `reader_mutex`.
The program is a `Lightswitch`, and the data that the room protects is what was written last
(`Written`).
-/

namespace Task1

open Pthread Transition

/-! ### The code -/

/-- `concurrent_object` -/
structure ConcurrentObject where
  data : ℤ
  readersCount : ℤ

/-- The mutexes of an object. -/
inductive Mutex where
  | writerMutex
  | readerMutex
  deriving DecidableEq

/-- `allocate_concurrent_object` -/
def allocateConcurrentObject (initialData : ℤ) : ConcurrentObject where
  data := initialData
  readersCount := 0

/-- The lines that are printed. -/
inductive Line where
  /-- `writer … got access to object` -/
  | writerAccess
  /-- `writer … wrote to object` -/
  | wrote (v : ℤ)
  /-- `reader … got access to object` -/
  | readerAccess
  /-- `reader … read from object` -/
  | read (v : ℤ)
  deriving DecidableEq

/-- The places of `write_to_concurrent_object`. -/
inductive Place where
  | lock
  | access
  | store
  | print
  | unlock
  deriving DecidableEq

/-- A location: the number of finished calls and a place. -/
structure Loc where
  i : ℕ
  place : Place
  deriving DecidableEq

/-- `writer_thread`, with its calls of `write_to_concurrent_object` -/
def writerThread (runs : ℕ) (l : Loc) : Instr ConcurrentObject Loc Mutex Empty Line :=
  match l.place with
  | .lock => if l.i < runs then .lock .writerMutex ⟨l.i, .access⟩ else .exit
  | .access => .act fun _ object => (object, [.writerAccess], ⟨l.i, .store⟩)
  | .store => .act fun rand object => ({ object with data := rand }, [], ⟨l.i, .print⟩)
  | .print => .act fun _ object => (object, [.wrote object.data], ⟨l.i, .unlock⟩)
  | .unlock => .unlock .writerMutex ⟨l.i + 1, .lock⟩

/-- The threads of `main`: readers `R` and writers `W` with their numbers of runs. -/
def threads {R W : Type} (readerRuns : R → ℕ) (writerRuns : W → ℕ) :
    Lightswitch R W ConcurrentObject Loc Mutex Empty Line where
  door := .readerMutex
  room := .writerMutex
  count object := object.readersCount
  setCount object c := { object with readersCount := c }
  -- the statements between the entry and the exit of `read_from_concurrent_object`
  reading := [fun _ object => (object, [.readerAccess]),
    fun _ object => (object, [.read object.data])]
  runs := readerRuns
  code w := writerThread (writerRuns w)
  entry _ := ⟨0, .lock⟩

/-- The critical section of a writer. -/
def crit {W : Type} (_ : W) (l : Loc) : Prop := l.place ≠ .lock

variable {R W : Type} {readerRuns : R → ℕ} {writerRuns : W → ℕ}

theorem reading_data {st : Stmt ConcurrentObject Line}
    (hst : st ∈ (threads readerRuns writerRuns).reading) (i : ℤ) (object : ConcurrentObject) :
    (st i object).1 = object := by
  have hst : st = (fun _ object => (object, [.readerAccess])) ∨
      st = fun _ object => (object, [.read object.data]) := by simpa [threads] using hst
  rcases hst with rfl | rfl <;> rfl

theorem lawful : (threads readerRuns writerRuns).Lawful crit where
  door_ne_room := nofun
  count_setCount _ _ := rfl
  reading_count st hst i d := by rw [reading_data hst]
  entry_free _ := not_not.2 rfl
  guarded w l := by
    obtain ⟨i, p⟩ := l
    cases p with
    | lock =>
        show Lightswitch.Guarded _ _ _ (if i < writerRuns w then _ else _)
        split
        · exact ⟨rfl, not_not.2 rfl, nofun⟩
        · exact not_not.2 rfl
    | access | store | print => exact ⟨nofun, fun _ _ => ⟨rfl, nofun⟩⟩
    | unlock => exact ⟨rfl, nofun, not_not.2 rfl⟩

/-! ### What was written last -/

/-- The log of a run. -/
abbrev Log (R W : Type) := List ((R ⊕ W) × Line)

/-- The value of the last write in a log. -/
def lastWrote (initialData : ℤ) (o : Log R W) : ℤ :=
  o.foldl (fun v e => match e.2 with
    | .wrote w => w
    | _ => v) initialData

/-- Every value read is that of the last write before. -/
def ReadsLast (initialData : ℤ) (o : Log R W) : Prop :=
  ∀ before t v after, o = before ++ (t, .read v) :: after → v = lastWrote initialData before

/-- What holds while no writer holds `writer_mutex`. -/
structure Written (initialData : ℤ) (object : ConcurrentObject) (o : Log R W) : Prop where
  data : object.data = lastWrote initialData o
  reads : ReadsLast initialData o

/-- What holds at the places of a writer's critical section. -/
def assertion (initialData : ℤ) (_ : W) (l : Loc) (object : ConcurrentObject) (o : Log R W) : Prop :=
  match l.place with
  | .print => ReadsLast initialData o
  | _ => Written initialData object o

section Log

variable {d₀ v : ℤ} {o : Log R W} {object : ConcurrentObject} {t : R ⊕ W} {l : Line}

theorem lastWrote_snoc (o : Log R W) (t : R ⊕ W) (l : Line) :
    lastWrote d₀ (o ++ [(t, l)]) = match l with
      | .wrote w => w
      | _ => lastWrote d₀ o := by
  simp only [lastWrote, List.foldl_append, List.foldl_cons, List.foldl_nil]

theorem readsLast_nil : ReadsLast d₀ ([] : Log R W) := by
  intro before t v after h
  simp at h

theorem ReadsLast.snoc (h : ReadsLast d₀ o) (hl : ∀ v, l = .read v → v = lastWrote d₀ o) :
    ReadsLast d₀ (o ++ [(t, l)]) := by
  intro before u v after heq
  rcases snoc_eq_append_cons heq with ⟨rfl, hlast, -⟩ | ⟨after, -, ho⟩
  · obtain ⟨-, rfl⟩ : u = t ∧ .read v = l := by simpa using hlast
    exact hl v rfl
  · exact h before u v after ho

/-- A line that announces no write. -/
theorem Written.snoc (h : Written d₀ object o) (hw : ∀ v, l ≠ .wrote v)
    (hr : ∀ v, l = .read v → v = object.data) : Written d₀ object (o ++ [(t, l)]) where
  data := by
    rw [lastWrote_snoc]
    cases l with
    | wrote w => exact absurd rfl (hw w)
    | _ => exact h.data
  reads := h.reads.snoc fun v hv => (hr v hv).trans h.data

theorem ReadsLast.wrote (h : ReadsLast d₀ o) :
    Written d₀ object (o ++ [(t, .wrote object.data)]) where
  data := by rw [lastWrote_snoc]
  reads := h.snoc nofun

end Log

theorem place_of_lock {runs : ℕ} {l next : Loc} {m : Mutex}
    (h : writerThread runs l = .lock m next) : next.place = .access := by
  obtain ⟨i, p⟩ := l
  cases p <;> simp [writerThread, ite_eq_iff] at h
  exact h.2.2 ▸ rfl

theorem place_of_unlock {runs : ℕ} {l next : Loc} {m : Mutex}
    (h : writerThread runs l = .unlock m next) : l.place = .unlock := by
  obtain ⟨i, p⟩ := l
  cases p <;> simp [writerThread, ite_eq_iff] at h
  rfl

theorem protects (d₀ : ℤ) :
    (threads readerRuns writerRuns).Protects (Written d₀) (assertion (R := R) d₀) where
  free_setCount c h := { h with }
  held_setCount {w l object o} c h := by
    obtain ⟨i, p⟩ := l
    cases p with
    | print => exact h
    | _ => exact { (show Written d₀ object o from h) with }
  reading {st} hst {object o} i r h := by
    have hst : st = (fun _ object => (object, [.readerAccess])) ∨
        st = fun _ object => (object, [.read object.data]) := by simpa [threads] using hst
    rcases hst with rfl | rfl
    · exact h.snoc nofun nofun
    · exact h.snoc nofun fun v hv => by simpa using hv.symm
  lock {w l next object o} hi h := by
    obtain ⟨i, p⟩ := next
    obtain rfl : p = .access := place_of_lock hi
    exact h
  unlock {w l next object o} hi h := by
    obtain ⟨i, p⟩ := l
    obtain rfl : p = .unlock := place_of_unlock hi
    exact h
  wait {w l c} := c.elim
  woken {w l c} := c.elim
  broadcast {w l c} := c.elim
  act {w l f object o} v hi h := by
    obtain ⟨i, p⟩ := l
    cases p with
    | lock =>
        simp only [threads, writerThread] at hi
        split at hi <;> cases hi
    | access =>
        injection hi with hi
        subst hi
        exact Written.snoc h nofun nofun
    | store =>
        injection hi with hi
        subst hi
        show ReadsLast d₀ (o ++ [])
        rw [List.append_nil]
        exact Written.reads h
    | print =>
        injection hi with hi
        subst hi
        exact ReadsLast.wrote h
    | unlock => cases hi

/-! ### Every reachable state -/

/-- States of the program. -/
abbrev St (R W : Type) := Lightswitch.St R W ConcurrentObject Loc Mutex Empty Line

/-- Reader `r` has executed the increment and not yet the decrement. -/
def CountedIn (r : R) (s : St R W) : Prop :=
  RPlace.turnstile.counted (Lightswitch.place s r) = true

/-- Reader `r` has left its entry section and not yet locked `reader_mutex` again. -/
def Reading (r : R) (s : St R W) : Prop := ∃ k, Lightswitch.place s r = .read k

/-- Writer `w` is between its lock and its unlock. -/
def Writing (w : W) (s : St R W) : Prop :=
  ∃ l : Loc, s.ctrl (.inr w) = .run (.inr l) ∧ l.place ≠ .lock

/-- The value that a step stores in the object. -/
def stored : St R W × Event (R ⊕ W) → Option ℤ
  | (s, .exec (.inr w) rand) =>
    match s.ctrl (.inr w) with
    | .run (.inr ⟨_, .store⟩) => some rand
    | _ => none
  | _ => none

/-- The value of the most recent write of a run. -/
def lastStore (initialData : ℤ) (tr : List (St R W × Event (R ⊕ W))) : ℤ :=
  (tr.filterMap stored).getLastD initialData

section Reachable

variable [DecidableEq R] [DecidableEq W] {s s' : St R W} {d₀ : ℤ} {tr : List (St R W × Event (R ⊕ W))}
  {e : Event (R ⊕ W)}

omit [DecidableEq R] [DecidableEq W] in
theorem lastStore_snoc (p : St R W × Event (R ⊕ W)) :
    lastStore d₀ (tr ++ [p]) = (stored p).getD (lastStore d₀ tr) := by
  unfold lastStore
  rw [List.filterMap_append]
  cases hp : stored p with
  | none => simp [hp]
  | some v => simp [hp]

omit [DecidableEq R] [DecidableEq W] in
theorem ctrl_of_stored {v : ℤ} (h : stored (s, e) = some v) :
    ∃ w n, s.ctrl (.inr w) = .run (.inr ⟨n, .store⟩) := by
  cases e with
  | exec t i =>
      cases t with
      | inl r => cases h
      | inr w =>
          simp only [stored] at h
          split at h
          · next n hc => exact ⟨w, n, hc⟩
          · cases h
  | resume t => cases h
  | spurious t => cases h

/-- Only the store of a writer changes the data. -/
theorem step_data [Fintype R] (hI : (threads readerRuns writerRuns).Inv crit s)
    (hs : Step (threads readerRuns writerRuns).program s e s') :
    s'.data.data = (stored (s, e)).getD s.data.data := by
  have h := hs.exec_eq
  cases e with
  | exec t i =>
      cases t with
      | inl r =>
          show s'.data.data = s.data.data
          rcases (hI.reader_effect h).2 with ⟨hd, -⟩ | ⟨c, hd, -⟩ | ⟨k, st, hst, -, hd, -⟩
          · rw [hd]
          · rw [hd]
            rfl
          · rw [hd, reading_data hst]
      | inr w =>
          rcases hI.others w with ⟨⟨n, p⟩, hc⟩ | ⟨_, c, _⟩
          · cases p with
            | lock =>
                by_cases hn : n < writerRuns w
                · simp only [exec, hc, Lightswitch.program, threads, writerThread, Instr.map, if_pos hn,
                    Option.ite_none_right_eq_some, Option.some.injEq] at h
                  simp only [stored, hc, ← h.2]
                  rfl
                · simp [exec, hc, Lightswitch.program, threads, writerThread, Instr.map, hn] at h
            | _ =>
                simp only [exec, hc, Lightswitch.program, threads, writerThread, Instr.map,
                  Option.some.injEq] at h
                simp only [stored, hc, ← h]
                rfl
          · exact c.elim
  | resume t =>
      cases hs with
      | resume hc ho => rfl
  | spurious t =>
      cases hs with
      | spurious hc => rfl

/-- The data is that of the most recent write. -/
theorem data_eq_lastStore [Fintype R]
    (h : Run (Step (threads readerRuns writerRuns).program)
      ((threads readerRuns writerRuns).program.init (allocateConcurrentObject d₀)) tr s) :
    s.data.data = lastStore d₀ tr := by
  induction h with
  | nil => rfl
  | snoc h hs ih =>
      rw [lastStore_snoc, ← ih]
      exact step_data (Lightswitch.inv_of_reachable lawful rfl h.reachable) hs

/-- The counter counts the readers inside, writers are alone, and every reader reads what was written
last. -/
theorem readers_writers_exclusive [Fintype R]
    (h : Run (Step (threads readerRuns writerRuns).program)
      ((threads readerRuns writerRuns).program.init (allocateConcurrentObject d₀)) tr s) :
    s.data.readersCount = {r | CountedIn r s}.ncard ∧
      (∀ w w', Writing w s → Writing w' s → w = w') ∧
      (∀ w, Writing w s → ∀ r, ¬ Reading r s) ∧
      (∀ r, Reading r s → ∀ e s', Step (threads readerRuns writerRuns).program s e s' →
        s'.data.data = s.data.data) ∧
      s.data.data = lastStore d₀ tr ∧
      ∀ before t v after, s.out = before ++ (t, .read v) :: after → v = lastWrote d₀ before := by
  have hI := Lightswitch.inv_of_reachable lawful rfl h.reachable
  have hP := Lightswitch.protected_of_reachable lawful (protects d₀) rfl ⟨rfl, readsLast_nil⟩
    h.reachable
  have howner : ∀ w, Writing w s → s.owner .writerMutex = some (.inr w) :=
    fun w ⟨l, hc, hl⟩ => hI.owner_of_crit hc hl
  have hexcl : ∀ w, Writing w s → ∀ r, ¬ Reading r s := by
    rintro w hw r ⟨k, hk⟩
    obtain ⟨v, hv⟩ := hI.book.room.2 ⟨r, by rw [hk]; rfl⟩
    have hw := howner w hw
    rw [show s.owner .writerMutex = some (.inl v) from hv] at hw
    cases hw
  refine ⟨?_, fun w w' hw hw' => ?_, hexcl, fun r hr e s' hs => ?_, data_eq_lastStore h, ?_⟩
  · refine (hI.book.count).trans (congrArg _ (tally_eq_ncard (fun r hr => ?_) fun r hr => ?_))
    · rw [show RPlace.turnstile.counted _ = true from hr]
      rfl
    · rw [Bool.eq_false_iff.2 hr]
      rfl
  · have hw := howner w hw
    rw [howner w' hw'] at hw
    simpa using hw.symm
  · rw [step_data hI hs]
    have hnone : stored (s, e) = none := by
      by_contra hne
      obtain ⟨v, hv⟩ := Option.ne_none_iff_exists'.1 hne
      obtain ⟨w, n, hc⟩ := ctrl_of_stored hv
      exact hexcl w ⟨_, hc, nofun⟩ r hr
    rw [hnone]
    rfl
  · by_cases hheld : ∃ w, s.owner .writerMutex = some (.inr w)
    · obtain ⟨w, hw⟩ := hheld
      obtain ⟨⟨n, p⟩, hc, hl⟩ := (hI.crit w).1 hw
      have hA := hP.held w _ hc hl
      cases p with
      | print => exact hA
      | _ => exact Written.reads hA
    · exact (hP.free fun w hw => hheld ⟨w, hw⟩).reads

/-- One writer writes `7`, and one reader reads it. -/
theorem readers_writers_exclusive_one :
    ∃ (s : St Unit Unit) (tr : List (St Unit Unit × Event (Unit ⊕ Unit))),
      s.out.map Prod.snd = [.writerAccess, .wrote 7, .readerAccess, .read 7] ∧
      s.data.readersCount = {r | CountedIn r s}.ncard ∧
      (∀ w w', Writing w s → Writing w' s → w = w') ∧
      (∀ w, Writing w s → ∀ r, ¬ Reading r s) ∧
      (∀ r, Reading r s → ∀ e s', Step (threads (fun _ => 1) fun _ => 1).program s e s' →
        s'.data.data = s.data.data) ∧
      s.data.data = lastStore 0 tr ∧
      ∀ before t v after, s.out = before ++ (t, .read v) :: after → v = lastWrote 0 before := by
  let S := threads (R := Unit) (W := Unit) (fun _ => 1) fun _ => 1
  let ls : List (Event (Unit ⊕ Unit)) :=
    List.replicate 5 (.exec (.inr ()) 7) ++ List.replicate 7 (.exec (.inl ()) 0)
  have hs : (replay (exec S.program) ls (S.program.init (allocateConcurrentObject 0))).isSome := rfl
  exact ⟨_, _, rfl,
    readers_writers_exclusive (run_of_replay (fun _ _ _ => step_of_exec) (Option.some_get hs).symm)⟩

end Reachable

end Task1
