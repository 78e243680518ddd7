import SystemsProgramming.Library.TryCalls

/-!
# The non-blocking readers and writers of `Task3.c`

Threads pick objects of an array and try to read or to write them.  The program is a `TryLightswitch`
without a limit on the readers.
-/

namespace Task3

open Pthread Transition TryLightswitch

/-! ### The code -/

/-- `concurrent_object`; its mutexes `readers_mutex` and `writers_mutex` are the door and the room. -/
structure ConcurrentObject where
  data : ℤ
  readersCount : ℤ
  arrayIdx : ℤ

/-- `allocate_object` -/
def allocateObject (initialData arrayIdx : ℤ) : ConcurrentObject where
  data := initialData
  readersCount := 0
  arrayIdx := arrayIdx

/-- The lines that are printed. -/
inductive Line where
  /-- `thread … is writing value … to object at index …` -/
  | writing (value arrayIdx : ℤ)
  /-- `thread … is reading value … from object at index …` -/
  | reading (value arrayIdx : ℤ)
  deriving DecidableEq

/-- Threads that call `read_from_object` and `write_to_object` on the objects as `next` says. -/
def threads {T X : Type} [DecidableEq X] (next : T → ℕ → ℤ → Option (TryCall X)) :
    TryLightswitch T X (X → ConcurrentObject) Line where
  count x objects := (objects x).readersCount
  setCount x objects c := Function.update objects x { objects x with readersCount := c }
  limit := none
  reading x := [fun _ objects => (objects, [.reading (objects x).data (objects x).arrayIdx])]
  -- the local value is `int value = rand()`
  writing x :=
    [fun rand _ objects => (rand, objects, []),
      fun _ value objects => (value, objects, [.writing value (objects x).arrayIdx]),
      fun _ value objects =>
        (value, Function.update objects x { objects x with data := value }, [])]
  next := next

/-- The loops of `reader_thread` and of `writer_thread` over an array of `n` objects. -/
def loop {R W : Type} (n : ℕ) [NeZero n] (maxRuns : R ⊕ W → ℕ) (t : R ⊕ W) (i : ℕ) (rand : ℤ) :
    Option (TryCall (Fin n)) :=
  if i < maxRuns t then
    match t with
    | .inl _ => some (.read (Fin.ofNat n rand.toNat))
    | .inr _ => some (.write (Fin.ofNat n rand.toNat))
  else none

/-- The array that `main` fills. -/
def objects (n : ℕ) (initialData : ℤ) (i : Fin n) : ConcurrentObject := allocateObject initialData i

variable {T X : Type} [DecidableEq X] {next : T → ℕ → ℤ → Option (TryCall X)}

theorem lawful : (threads next).Lawful where
  count_setCount x y d c := by
    show (Function.update d y _ x).readersCount = _
    rw [Function.update_apply]
    split <;> rfl
  limit_setCount _ _ _ _ := rfl
  reading_count y st hst i d x := by
    obtain rfl := List.mem_singleton.1 hst
    exact ⟨rfl, rfl⟩
  writing_count y st hst i v d x := by
    refine ⟨?_, rfl⟩
    simp only [threads, List.mem_cons, List.not_mem_nil, or_false] at hst
    rcases hst with rfl | rfl | rfl
    · rfl
    · rfl
    · apply field_update ConcurrentObject.readersCount
      rfl

/-! ### Every run -/

section Runs

variable [Fintype T] [DecidableEq T] {s : St T X (X → ConcurrentObject) Line} {initialData : ℤ}
  {arrayIdx : X → ℤ} {tr : List (St T X (X → ConcurrentObject) Line × Event T)}

/-- What a run `tr` to `s` shows of object `x`. -/
structure Honest (next : T → ℕ → ℤ → Option (TryCall X)) (x : X)
    (tr : List (St T X (X → ConcurrentObject) Line × Event T))
    (s : St T X (X → ConcurrentObject) Line) : Prop where
  /-- a writer excludes every other writer and every reader -/
  exclusive : ∀ t, (placeOf s t).Writes x →
    (∀ u, (placeOf s u).Writes x → u = t) ∧ ∀ u, ¬ Reading x s u
  /-- a refused read met a writer when it tried `writers_mutex`, and has changed nothing -/
  read : ∀ t, placeOf s t = .returned (.read x) false →
    (∃ p ∈ ownSteps t tr, placeOf p.1 t = .reader x .tryRoom ∧
      ∃ u, (placeOf p.1 u).Writes x ∧ p.1.owner (.room x) = some u) ∧
    (threads next).Unchanged x t tr s
  /-- a refused write met another writer or a reader inside, and has changed nothing -/
  write : ∀ t, placeOf s t = .returned (.write x) false →
    (∃ p ∈ ownSteps t tr, placeOf p.1 t = .tryWrite x ∧
      ((∃ u, u ≠ t ∧ (placeOf p.1 u).Writes x ∧ p.1.owner (.room x) = some u) ∨
        ∃ u, Inside x p.1 u)) ∧
    (threads next).Unchanged x t tr s
  /-- between the calls the object is at rest -/
  rest : (∀ t, ¬ (placeOf s t).Calls x) →
    (s.data x).readersCount = 0 ∧ s.owner (.door x) = none ∧ s.owner (.room x) = none

/-- Writers are alone on an object, calls on it are refused for a reason and then change nothing, and
between the calls it is at rest. -/
theorem refuses_honestly
    (h : Run (Step (threads next).program)
      ((threads next).program.init fun x => allocateObject initialData (arrayIdx x)) tr s) (x : X) :
    Honest next x tr s := by
  have hlim : (none : Option ℤ) = some 0 → ∀ p ∈ tr, ¬ TakesRoom x p.1 p.2 :=
    fun h => absurd h (Option.some_ne_none _).symm
  have hI : (threads next).Inv x none s := (inv_of_run lawful rfl rfl h hlim).1
  refine ⟨fun t ht => ⟨fun u hu => hI.writer_unique ht hu, fun u hu => ?_⟩, fun t ht => ?_,
    fun t ht => ?_, hI.at_rest⟩
  · exact hI.not_inside ⟨t, ht⟩ hu.countedIn.inside
  · obtain ⟨⟨p, hp, hIp, hreason⟩, hun⟩ := refused_read lawful rfl rfl h hlim ht
    refine ⟨⟨p, hp, ?_⟩, hun⟩
    rcases hreason with ⟨htry, ho⟩ | ⟨-, hfull⟩
    · obtain ⟨u, hu⟩ := hIp.hasWriter_of_reject htry ho
      exact ⟨htry, u, hu, hIp.writer u hu⟩
    · exact absurd hfull (Option.some_ne_none _).symm
  · obtain ⟨⟨p, hp, hIp, htry, ho⟩, hun⟩ := refused_write lawful rfl rfl h hlim ht
    refine ⟨⟨p, hp, htry, ?_⟩, hun⟩
    refine (hIp.room_cases ho).imp_left fun ⟨u, hu⟩ => ⟨u, ?_, hu, hIp.writer u hu⟩
    rintro rfl
    rw [htry] at hu
    exact hu

/-- A reader is refused while a writer writes. -/
theorem refuses_honestly_reader :
    ∃ (s : St (Unit ⊕ Unit) (Fin 1) (Fin 1 → ConcurrentObject) Line)
      (tr : List (St (Unit ⊕ Unit) (Fin 1) (Fin 1 → ConcurrentObject) Line × Event (Unit ⊕ Unit))),
      placeOf s (.inl ()) = .returned (.read 0) false ∧
        (threads (loop 1 fun _ => 1)).program.init (objects 1 0) ∈ tr.map Prod.fst ∧
        Honest (loop 1 fun _ => 1) 0 tr s := by
  let S := threads (X := Fin 1) (loop (R := Unit) (W := Unit) 1 fun _ => 1)
  let ls : List (Event (Unit ⊕ Unit)) :=
    List.replicate 2 (.exec (.inr ()) 0) ++ List.replicate 5 (.exec (.inl ()) 0)
  have hs : (replay (exec S.program) ls (S.program.init (objects 1 0))).isSome := rfl
  have h := run_of_replay (fun _ _ _ => step_of_exec) (Option.some_get hs).symm
  exact ⟨_, _, rfl, List.mem_cons_self .., refuses_honestly h 0⟩

end Runs

end Task3
