import SystemsProgramming.Library.Lightswitch
import Mathlib.Data.Finset.Card
import Mathlib.Data.Fintype.Sum

/-!
# The critic rounds of `Task4.c`

Writers write in rounds: a round is complete when each of them has written, and then the critic
saves the value and opens the next round.  Readers share the object through a counter and
`reader_mutex`, so the program is a `Lightswitch` whose other threads are the writers and the
critic.

`Round` relates the object to the log while no writer and not the critic holds `writer_mutex`;
`assertion` says what holds at each place of their critical sections.
-/

namespace Task4

open Pthread Transition

/-! ### The code -/

/-- `concurrent_object` -/
structure ConcurrentObject where
  data : ℤ
  writersCount : ℤ
  numWriters : ℤ
  readersCount : ℤ
  writersRecord : ℕ → Bool

/-- The mutexes of an object. -/
inductive Mutex where
  | writerMutex
  | readerMutex
  deriving DecidableEq

/-- `allocate_object`; `cells` is what `malloc` returned. -/
def allocateObject (initialData : ℤ) (numWriters : ℕ) (cells : ℕ → Bool) : ConcurrentObject where
  data := initialData
  numWriters := numWriters
  readersCount := 0
  writersCount := 0
  writersRecord := (List.range numWriters).foldl (fun rec i => Function.update rec i false) cells

/-- The lines that are printed. -/
inductive Line where
  /-- `reader … read from object` -/
  | read (v : ℤ)
  /-- `writer … wrote to object` -/
  | wrote (v : ℤ)
  /-- `Critic saved data` -/
  | saved (v : ℤ)
  deriving DecidableEq

/-- The threads that lock `writer_mutex` for themselves. -/
inductive Worker (n : ℕ) where
  | writer (idx : Fin n)
  | critic
  deriving DecidableEq

/-- The places of `write_to_object` and of `critic_round`. -/
inductive Place where
  | lock
  | test
  | wait
  /-- `if(!writers_record[writer_idx])` -/
  | check
  | count
  | record
  /-- `if(writers_count == num_writers)` -/
  | full
  | broadcast
  | store
  | print
  | unlock
  /-- `writers_count = 0` -/
  | reset
  /-- the loop over `writers_record` -/
  | clear (i : ℕ)
  | save
  deriving DecidableEq

/-- A location: the number of finished calls and a place. -/
structure Loc where
  i : ℕ
  place : Place
  deriving DecidableEq

/-- `writer_thread`, with its calls of `write_to_object` -/
def writerThread (runs : ℕ) (idx : ℕ) (l : Loc) : Instr ConcurrentObject Loc Mutex Unit Line :=
  match l.place with
  | .lock => if l.i < runs then .lock .writerMutex ⟨l.i, .test⟩ else .exit
  | .test => .act fun _ object =>
      (object, [], ⟨l.i, if object.writersCount = object.numWriters then .wait else .check⟩)
  | .wait => .wait () .writerMutex ⟨l.i, .test⟩
  | .check => .act fun _ object =>
      (object, [], ⟨l.i, if object.writersRecord idx = false then .count else .full⟩)
  | .count => .act fun _ object =>
      ({ object with writersCount := object.writersCount + 1 }, [], ⟨l.i, .record⟩)
  | .record => .act fun _ object =>
      ({ object with writersRecord := Function.update object.writersRecord idx true }, [],
        ⟨l.i, .full⟩)
  | .full => .act fun _ object =>
      (object, [], ⟨l.i, if object.writersCount = object.numWriters then .broadcast else .store⟩)
  | .broadcast => .broadcast () ⟨l.i, .store⟩
  | .store => .act fun rand object => ({ object with data := rand }, [], ⟨l.i, .print⟩)
  | .print => .act fun _ object => (object, [.wrote object.data], ⟨l.i, .unlock⟩)
  | .unlock => .unlock .writerMutex ⟨l.i + 1, .lock⟩
  | _ => .exit

/-- `critic_thread`, with its calls of `critic_round` -/
def criticThread (l : Loc) : Instr ConcurrentObject Loc Mutex Unit Line :=
  match l.place with
  | .lock => .lock .writerMutex ⟨l.i, .test⟩
  | .test => .act fun _ object =>
      (object, [], ⟨l.i, if object.writersCount ≠ object.numWriters then .wait else .reset⟩)
  | .wait => .wait () .writerMutex ⟨l.i, .test⟩
  | .reset => .act fun _ object => ({ object with writersCount := 0 }, [], ⟨l.i, .clear 0⟩)
  | .clear i => .act fun _ object =>
      if i < object.numWriters then
        ({ object with writersRecord := Function.update object.writersRecord i false }, [],
          ⟨l.i, .clear (i + 1)⟩)
      else (object, [], ⟨l.i, .save⟩)
  | .save => .act fun _ object => (object, [.saved object.data], ⟨l.i, .broadcast⟩)
  | .broadcast => .broadcast () ⟨l.i, .unlock⟩
  | .unlock => .unlock .writerMutex ⟨l.i + 1, .lock⟩
  | _ => .exit

/-- The threads of `main`: readers `R` and writers with their numbers of runs, and the critic. -/
def threads {R : Type} {n : ℕ} (readerRuns : R → ℕ) (writerRuns : Fin n → ℕ) :
    Lightswitch R (Worker n) ConcurrentObject Loc Mutex Unit Line where
  door := .readerMutex
  room := .writerMutex
  count object := object.readersCount
  setCount object c := { object with readersCount := c }
  -- the only statement between the entry and the exit of `read_from_object`
  reading := [fun _ object => (object, [.read object.data])]
  runs := readerRuns
  code
    | .writer idx => writerThread (writerRuns idx) idx
    | .critic => criticThread
  entry _ := ⟨0, .lock⟩

/-- The critical sections. -/
def crit {n : ℕ} : Worker n → Loc → Prop
  | .writer _, l => match l.place with
    | .lock | .reset | .clear _ | .save => False
    | _ => True
  | .critic, l => match l.place with
    | .lock | .check | .count | .record | .full | .store | .print => False
    | _ => True

variable {R : Type} {n : ℕ} {readerRuns : R → ℕ} {writerRuns : Fin n → ℕ}

theorem crit_ite {u : Worker n} {i : ℕ} {c : Prop} [Decidable c] {p q : Place}
    (hp : crit u ⟨i, p⟩) (hq : crit u ⟨i, q⟩) : crit u ⟨i, if c then p else q⟩ := by
  split <;> assumption

theorem lawful : (threads readerRuns writerRuns).Lawful crit where
  door_ne_room := nofun
  count_setCount _ _ := rfl
  reading_count st hst i d := by
    obtain rfl : st = fun _ object => (object, [.read object.data]) := by simpa [threads] using hst
    rfl
  entry_free u := by cases u <;> exact id
  guarded u l := by
    obtain ⟨i, p⟩ := l
    cases u with
    | writer idx =>
        cases p with
        | lock =>
            show Lightswitch.Guarded _ _ _ (if i < writerRuns idx then _ else _)
            split
            · exact ⟨rfl, id, trivial⟩
            · exact id
        | test => exact ⟨trivial, fun _ _ => ⟨rfl, crit_ite trivial trivial⟩⟩
        | wait => exact ⟨rfl, trivial, trivial⟩
        | check => exact ⟨trivial, fun _ _ => ⟨rfl, crit_ite trivial trivial⟩⟩
        | full => exact ⟨trivial, fun _ _ => ⟨rfl, crit_ite trivial trivial⟩⟩
        | broadcast => exact ⟨trivial, trivial⟩
        | count | record | store | print => exact ⟨trivial, fun _ _ => ⟨rfl, trivial⟩⟩
        | unlock => exact ⟨rfl, trivial, id⟩
        | reset | clear | save => exact id
    | critic =>
        cases p with
        | lock => exact ⟨rfl, id, trivial⟩
        | test => exact ⟨trivial, fun _ _ => ⟨rfl, crit_ite trivial trivial⟩⟩
        | wait => exact ⟨rfl, trivial, trivial⟩
        | reset | save => exact ⟨trivial, fun _ _ => ⟨rfl, trivial⟩⟩
        | clear k =>
            refine ⟨trivial, fun _ d => ?_⟩
            by_cases hk : k < d.numWriters <;> simp [hk, threads, crit]
        | broadcast => exact ⟨trivial, trivial⟩
        | unlock => exact ⟨rfl, trivial, id⟩
        | check | count | record | full | store | print => exact id

end Task4
