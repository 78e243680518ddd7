import SystemsProgramming.Library.TryCalls

/-!
# The limited readers and writers of `Task5.c`

The non-blocking readers and writers with a limit on the readers of an object.  The limit is tested
after the first reader has locked `writers_mutex`, so a limit of zero is a trap: the reader is refused
and the lock stays.  `main` gives object `0` that limit, since its loop passes the index of the object
for the limit and the random limit for the index.
-/

namespace Task5

open Pthread Transition TryLightswitch

/-! ### The code -/

/-- `concurrent_object`; its mutexes `readers_mutex` and `writers_mutex` are the door and the room. -/
structure ConcurrentObject where
  data : ℤ
  readersCount : ℤ
  arrayIdx : ℤ
  readersLimit : ℤ

/-- `allocate_object` -/
def allocateObject (initialData readersLimit arrayIdx : ℤ) : ConcurrentObject where
  data := initialData
  readersCount := 0
  arrayIdx := arrayIdx
  readersLimit := readersLimit

/-- The lines that are printed. -/
inductive Line where
  /-- `thread … is writing value … to object at index …` -/
  | writing (value arrayIdx : ℤ)
  /-- `thread … is reading value … from object at index …` -/
  | reading (value arrayIdx : ℤ)
  deriving DecidableEq

/-- Threads that call `read_from_object` and `write_to_object` on the objects as `next` says. -/
def threads {T X : Type} [DecidableEq X] (next : T → ℕ → ℤ → Option (TryCall X)) :
    TryLightswitch T X (X → ConcurrentObject) Line where
  count x objects := (objects x).readersCount
  setCount x objects c := Function.update objects x { objects x with readersCount := c }
  limit := some fun x objects => (objects x).readersLimit
  reading x := [fun _ objects => (objects, [.reading (objects x).data (objects x).arrayIdx])]
  -- the local value is `int value = rand()`
  writing x :=
    [fun rand _ objects => (rand, objects, []),
      fun _ value objects => (value, objects, [.writing value (objects x).arrayIdx]),
      fun _ value objects =>
        (value, Function.update objects x { objects x with data := value }, [])]
  next := next

/-- The loops of `reader_thread` and of `writer_thread` over an array of `n` objects. -/
def loop {R W : Type} (n : ℕ) [NeZero n] (maxRuns : R ⊕ W → ℕ) (t : R ⊕ W) (i : ℕ) (rand : ℤ) :
    Option (TryCall (Fin n)) :=
  if i < maxRuns t then
    match t with
    | .inl _ => some (.read (Fin.ofNat n rand.toNat))
    | .inr _ => some (.write (Fin.ofNat n rand.toNat))
  else none

/-- The array that `main` fills; `rand i` is the value of `rand()` for object `i`. -/
def objects (n : ℕ) (initialData : ℤ) (readersLimitMax : ℕ) (rand : ℕ → ℕ) (i : Fin n) :
    ConcurrentObject :=
  allocateObject initialData i ((1 + rand i % readersLimitMax : ℕ) : ℤ)

variable {T X : Type} [DecidableEq X] {next : T → ℕ → ℤ → Option (TryCall X)}

theorem lawful : (threads next).Lawful where
  count_setCount x y d c := by
    show (Function.update d y _ x).readersCount = _
    rw [Function.update_apply]
    split <;> rfl
  limit_setCount x y d c := by
    apply congrArg some
    apply field_update ConcurrentObject.readersLimit
    rfl
  reading_count y st hst i d x := by
    obtain rfl := List.mem_singleton.1 hst
    exact ⟨rfl, rfl⟩
  writing_count y st hst i v d x := by
    simp only [threads, List.mem_cons, List.not_mem_nil, or_false] at hst
    rcases hst with rfl | rfl | rfl
    · exact ⟨rfl, rfl⟩
    · exact ⟨rfl, rfl⟩
    · constructor
      · apply field_update ConcurrentObject.readersCount
        rfl
      · apply congrArg some
        apply field_update ConcurrentObject.readersLimit
        rfl

/-! ### Objects with a positive limit -/

section Limited

variable [Fintype T] [DecidableEq T] {s : St T X (X → ConcurrentObject) Line} {initialData : ℤ}
  {readersLimit arrayIdx : X → ℤ} {tr : List (St T X (X → ConcurrentObject) Line × Event T)} {x : X}

/-- The readers of an object stay within its limit and exclude the writers, and a read is refused only
while a writer or as many readers as allowed are in. -/
theorem readers_limited
    (h : Run (Step (threads next).program) ((threads next).program.init fun x =>
      allocateObject initialData (readersLimit x) (arrayIdx x)) tr s) (hx : 1 ≤ readersLimit x) :
    (0 ≤ (s.data x).readersCount ∧ (s.data x).readersCount ≤ (s.data x).readersLimit) ∧
    ({t | Reading x s t}.ncard : ℤ) ≤ (s.data x).readersLimit ∧
    (∀ t u, Reading x s t → ¬ (placeOf s u).Writes x) ∧
    ∀ t, placeOf s t = .returned (.read x) false →
      ∃ p ∈ ownSteps t tr, p.1.owner (.door x) = some t ∧
        ((∃ u, (placeOf p.1 u).Writes x ∧ p.1.owner (.room x) = some u) ∨
          (p.1.data x).readersCount = (p.1.data x).readersLimit ∧
            ({u | CountedIn x p.1 u}.ncard : ℤ) = (p.1.data x).readersLimit) := by
  have hlim : (some (readersLimit x) : Option ℤ) = some 0 → ∀ p ∈ tr, ¬ TakesRoom x p.1 p.2 := by
    intro h0
    have := Option.some.inj h0
    omega
  have hI : (threads next).Inv x (some (readersLimit x)) s :=
    (inv_of_run lawful rfl rfl h hlim).1
  have hcount : (s.data x).readersCount = {t | CountedIn x s t}.ncard := hI.count_eq
  have hlimit : (s.data x).readersLimit = readersLimit x := Option.some.inj hI.limit
  have hbound : (s.data x).readersCount ≤ readersLimit x := hI.bound _ rfl (by omega)
  refine ⟨⟨by omega, by omega⟩, ?_, fun t u ht hu => ?_, fun t ht => ?_⟩
  · have hle : {t | Reading x s t}.ncard ≤ {t | CountedIn x s t}.ncard :=
      Set.ncard_le_ncard (fun t ht => Reading.countedIn ht) (Set.toFinite _)
    omega
  · exact hI.not_inside ⟨u, hu⟩ ht.countedIn.inside
  · obtain ⟨⟨p, hp, hIp, hreason⟩, -⟩ := refused_read lawful rfl rfl h hlim ht
    refine ⟨p, hp, ?_, ?_⟩
    · apply (hIp.book.door t).2
      rcases hreason with ⟨hpl, -⟩ | ⟨hpl, -⟩ <;>
        (rw [readers_of_place hpl]; rfl)
    · rcases hreason with ⟨htry, ho⟩ | ⟨-, hfull⟩
      · obtain ⟨u, hu⟩ := hIp.hasWriter_of_reject htry ho
        exact Or.inl ⟨u, hu, hIp.writer u hu⟩
      · have hfull : (p.1.data x).readersLimit = (p.1.data x).readersCount := Option.some.inj hfull
        have hcp : (p.1.data x).readersCount = {t | CountedIn x p.1 t}.ncard := hIp.count_eq
        exact Or.inr ⟨hfull.symm, hcp.symm.trans hfull.symm⟩

/-- Two readers meet at an object for one reader. -/
theorem readers_limited_two :
    ∃ (s : St (Fin 2) (Fin 1) (Fin 1 → ConcurrentObject) Line)
      (tr : List (St (Fin 2) (Fin 1) (Fin 1 → ConcurrentObject) Line × Event (Fin 2))),
      placeOf s 1 = .returned (.read 0) false ∧
      (0 ≤ (s.data 0).readersCount ∧ (s.data 0).readersCount ≤ (s.data 0).readersLimit) ∧
      ({t | Reading 0 s t}.ncard : ℤ) ≤ (s.data 0).readersLimit ∧
      (∀ t u, Reading 0 s t → ¬ (placeOf s u).Writes 0) ∧
      ∀ t, placeOf s t = .returned (.read 0) false →
        ∃ p ∈ ownSteps t tr, p.1.owner (.door 0) = some t ∧
          ((∃ u, (placeOf p.1 u).Writes 0 ∧ p.1.owner (.room 0) = some u) ∨
            (p.1.data 0).readersCount = (p.1.data 0).readersLimit ∧
              ({u | CountedIn 0 p.1 u}.ncard : ℤ) = (p.1.data 0).readersLimit) := by
  let S := threads (X := Fin 1) fun (_ : Fin 2) _ _ => some (.read 0)
  let ls : List (Event (Fin 2)) :=
    List.replicate 7 (.exec 0 0) ++ List.replicate 5 (.exec 1 0)
  have hs : (replay (exec S.program) ls (S.program.init fun _ => allocateObject 0 1 0)).isSome := rfl
  have h := run_of_replay (fun _ _ _ => step_of_exec) (Option.some_get hs).symm
  exact ⟨_, _, rfl, readers_limited h (x := 0) le_rfl⟩

end Limited

/-! ### The objects of `main` -/

section Main

variable {n : ℕ} {T : Type} {next : T → ℕ → ℤ → Option (TryCall (Fin n))} [Fintype T] [DecidableEq T]
  {s : St T (Fin n) (Fin n → ConcurrentObject) Line} {initialData : ℤ} {readersLimitMax : ℕ}
  {rand : ℕ → ℕ} {tr : List (St T (Fin n) (Fin n → ConcurrentObject) Line × Event T)} {x : Fin n}

/-- An object of `main` other than the first is at rest between the calls, and refused reads have
released what they took; so is the first object as long as no reader has locked its
`writers_mutex`. -/
theorem refused_read_releases
    (h : Run (Step (threads next).program)
      ((threads next).program.init (objects n initialData readersLimitMax rand)) tr s)
    (hx : (x : ℕ) = 0 → ∀ p ∈ tr, ¬ TakesRoom x p.1 p.2) :
    ((∀ t, ¬ (placeOf s t).Calls x) →
      (s.data x).readersCount = 0 ∧ s.owner (.door x) = none ∧ s.owner (.room x) = none) ∧
    ∀ t, placeOf s t = .returned (.read x) false → (threads next).Unchanged x t tr s := by
  have hlim : (some ((x : ℕ) : ℤ) : Option ℤ) = some 0 → ∀ p ∈ tr, ¬ TakesRoom x p.1 p.2 := by
    intro h0
    have := Option.some.inj h0
    exact hx (by omega)
  have hI : (threads next).Inv x (some ((x : ℕ) : ℤ)) s := (inv_of_run lawful rfl rfl h hlim).1
  exact ⟨hI.at_rest, fun t ht => (refused_read lawful rfl rfl h hlim ht).2⟩

/-- Of two readers of the second object, which is for one, one is refused while the other is inside. -/
theorem refused_read_releases_second :
    ∃ (s : St (Bool ⊕ Unit) (Fin 2) (Fin 2 → ConcurrentObject) Line)
      (tr : List (St (Bool ⊕ Unit) (Fin 2) (Fin 2 → ConcurrentObject) Line × Event (Bool ⊕ Unit))),
      placeOf s (.inl false) = .returned (.read 1) true ∧
      placeOf s (.inl true) = .returned (.read 1) false ∧
      ((s.data 1).readersCount = 0 ∧ s.owner (.door 1) = none ∧ s.owner (.room 1) = none) ∧
      (threads (loop 2 fun _ => 1)).Unchanged 1 (.inl true) tr s := by
  let S := threads (X := Fin 2) (loop (R := Bool) (W := Unit) 2 fun _ => 1)
  let ls : List (Event (Bool ⊕ Unit)) := List.replicate 8 (.exec (.inl false) 1) ++
    List.replicate 5 (.exec (.inl true) 1) ++ List.replicate 5 (.exec (.inl false) 1)
  have hs : (replay (exec S.program) ls (S.program.init (objects 2 0 10 fun _ => 0))).isSome := rfl
  have h := run_of_replay (fun _ _ _ => step_of_exec) (Option.some_get hs).symm
  have hreleases := refused_read_releases h (x := 1) fun h0 => absurd h0 (by decide)
  refine ⟨_, _, rfl, rfl, hreleases.1 ?_, hreleases.2 _ rfl⟩
  rintro ((_ | _) | _) <;> exact id

/-- The first reader of object `0` is refused and leaves `writers_mutex` locked. -/
theorem refused_read_leaks :
    ∃ s : St (Unit ⊕ Unit) (Fin 1) (Fin 1 → ConcurrentObject) Line,
      Reachable (Step (threads (loop 1 fun _ => 1)).program)
        ((threads (loop 1 fun _ => 1)).program.init (objects 1 0 10 fun _ => 0)) s ∧
      placeOf s (.inl ()) = .returned (.read 0) false ∧ (∀ t, ¬ (placeOf s t).Calls 0) ∧
      s.owner (.room 0) = some (.inl ()) := by
  let S := threads (X := Fin 1) (loop (R := Unit) (W := Unit) 1 fun _ => 1)
  let ls : List (Event (Unit ⊕ Unit)) := List.replicate 6 (.exec (.inl ()) 0)
  have hs : (replay (exec S.program) ls (S.program.init (objects 1 0 10 fun _ => 0))).isSome := rfl
  have h := reachable_of_replay (fun _ _ _ => step_of_exec) (Option.some_get hs).symm
  refine ⟨_, h, rfl, ?_, rfl⟩
  rintro (⟨⟩ | ⟨⟩) <;> exact id

end Main

end Task5
