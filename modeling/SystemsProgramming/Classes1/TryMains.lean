import SystemsProgramming.Classes1.Task3
import SystemsProgramming.Classes1.Task5
import SystemsProgramming.Library.ForkJoin
import SystemsProgramming.Library.TryProgress

/-!
# The programs of `Task3.c` and `Task5.c`

`main` fills the array, starts the writers and the readers and joins them.  A thread makes its turns
until enough of them were not refused, so nothing bounds the turns; but `main` of `Task3.c` can come to
its end from wherever it is.  `main` of `Task5.c` gives object `0` the limit zero: it needs another
object for its readers.
-/

/-! ### `Task3.c` -/

namespace Task3

open Pthread Transition TryLightswitch ForkJoin

/-- `main` after the allocation -/
def main (numReaders numWriters : ℕ) :
    List (Op (Fin numReaders ⊕ Fin numWriters) (Event (Fin numReaders ⊕ Fin numWriters))) :=
  startAndJoin .inr .inl

/-- The turns of the threads. -/
def turns {R W : Type} (readerTurns writerTurns : ℕ) : R ⊕ W → ℕ :=
  Sum.elim (fun _ => readerTurns) fun _ => writerTurns

/-- The threads that `main` starts. -/
abbrev program (numReaders numWriters numObjects readerTurns writerTurns : ℕ) [NeZero numObjects] :=
  (threads (loop (R := Fin numReaders) (W := Fin numWriters) numObjects
    (turns readerTurns writerTurns))).program

variable {R W : Type} {numReaders numWriters numObjects readerTurns writerTurns : ℕ}
  {initialData : ℤ}

theorem loop_eq_none_iff [NeZero numObjects] {maxRuns : R ⊕ W → ℕ} {t : R ⊕ W} {i : ℕ} {v : ℤ} :
    loop numObjects maxRuns t i v = none ↔ maxRuns t ≤ i := by
  unfold loop
  split
  · next h => cases t <;> simp [h]
  · next h => simpa using h

/-- A thread that has turns left can take any object. -/
theorem exists_loop_eq [NeZero numObjects] {maxRuns : R ⊕ W → ℕ} {t : R ⊕ W} {i : ℕ}
    (hi : i < maxRuns t) (x : Fin numObjects) :
    ∃ v call, loop numObjects maxRuns t i v = some call ∧ Welcome x call.start := by
  have hx : Fin.ofNat numObjects ((x : ℕ) : ℤ).toNat = x := by
    rw [Int.toNat_natCast]
    exact Fin.ofNat_val_eq_self x
  cases t with
  | inl r =>
      refine ⟨(x : ℕ), .read x, ?_, rfl, by decide⟩
      simp only [loop, if_pos hi, hx]
  | inr w =>
      refine ⟨(x : ℕ), .write x, ?_, rfl⟩
      simp only [loop, if_pos hi, hx]

/-- From wherever the program is `main` can come to its end.  Then every thread has made its turns and
the objects are at rest. -/
theorem main_can_end [NeZero numObjects]
    {p : Process (St (Fin numReaders ⊕ Fin numWriters) (Fin numObjects)
      (Fin numObjects → ConcurrentObject) Line) (Fin numReaders ⊕ Fin numWriters)
      (Event (Fin numReaders ⊕ Fin numWriters))}
    (h : (program numReaders numWriters numObjects readerTurns writerTurns).ReachedBy
      (objects numObjects initialData) (main numReaders numWriters) p) :
    (∃ p', Reachable (ForkJoin.Step
        (program numReaders numWriters numObjects readerTurns writerTurns).workers) p p' ∧
      p'.rest = []) ∧
    (p.rest = [] →
      (∀ t, p.shared.ctrl t = .run ⟨turns readerTurns writerTurns t, .done⟩) ∧
      ∀ x, (p.shared.data x).readersCount = 0 ∧ p.shared.owner (.door x) = none ∧
        p.shared.owner (.room x) = none) := by
  have horderly : Orderly ∅ ∅ (main numReaders numWriters) :=
    orderly_startAndJoin_self fun t => by cases t <;> simp
  refine ⟨Program.can_end call_not_mem_startAndJoin_self horderly (fun s hs => ?_) h, fun hend => ?_⟩
  · refine can_finish lawful (fun _ => rfl) (fun t i v hi => loop_eq_none_iff.2 hi)
      (fun t i hi => ?_) hs
    obtain ⟨v, call, hv, hw⟩ := exists_loop_eq hi (0 : Fin numObjects)
    exact ⟨v, call, 0, hv, hw, Or.inl (Option.some_ne_none _).symm⟩
  · have hret := (sound_of_reachable (Program.workers_lawful _) horderly h).returned_of_end hend
    have hctrl := fun t => ctrl_of_returned (fun t i v => loop_eq_none_iff) h.shared (hret t)
    refine ⟨hctrl, fun x => ?_⟩
    obtain ⟨tr, htr⟩ := h.shared
    have hI : (threads (loop numObjects (turns readerTurns writerTurns))).Inv x none p.shared :=
      (inv_of_run lawful rfl rfl htr fun hl => absurd hl.symm (Option.some_ne_none _)).1
    refine hI.at_rest fun t => ?_
    rw [placeOf, hctrl t]
    exact id

/-- `main` as it is written can come to its end. -/
theorem main_can_end_start :
    ∃ p', Reachable (ForkJoin.Step (program 500 500 50 20 15).workers)
      (.start ((program 500 500 50 20 15).init (objects 50 0)) (main 500 500)) p' ∧ p'.rest = [] :=
  (main_can_end (Reachable.refl _)).1

end Task3

/-! ### `Task5.c` -/

namespace Task5

open Pthread Transition TryLightswitch ForkJoin

/-- `main` after the allocation -/
def main (numReaders numWriters : ℕ) :
    List (Op (Fin numReaders ⊕ Fin numWriters) (Event (Fin numReaders ⊕ Fin numWriters))) :=
  startAndJoin .inr .inl

/-- The turns of the threads. -/
def turns {R W : Type} (readerTurns writerTurns : ℕ) : R ⊕ W → ℕ :=
  Sum.elim (fun _ => readerTurns) fun _ => writerTurns

/-- The threads that `main` starts. -/
abbrev program (numReaders numWriters numObjects readerTurns writerTurns : ℕ) [NeZero numObjects] :=
  (threads (loop (R := Fin numReaders) (W := Fin numWriters) numObjects
    (turns readerTurns writerTurns))).program

variable {R W : Type} {numReaders numWriters numObjects readerTurns writerTurns readersLimitMax : ℕ}
  {initialData : ℤ} {rand : ℕ → ℕ}

/-- With one object and something to read, a reader stays in its first turn. -/
theorem loop_one_reader [NeZero 1] {maxRuns : R ⊕ W → ℕ} {r : R} (hr : 0 < maxRuns (.inl r)) (v : ℤ) :
    loop 1 maxRuns (.inl r) 0 v = some (.read 0) := by
  rw [loop, if_pos hr]
  exact congrArg (fun x => some (TryCall.read x)) (Subsingleton.elim _ _)

/-- The limit of an object is its index. -/
theorem usable_of_ne_zero {T : Type} {next : T → ℕ → ℤ → Option (TryCall (Fin numObjects))}
    {x : Fin numObjects} (hx : (x : ℕ) ≠ 0) :
    (threads next).Usable (objects numObjects initialData readersLimitMax rand) x := by
  refine Or.inl fun h => hx ?_
  have hlimit : ((x : ℕ) : ℤ) = 0 := Option.some.inj h
  exact_mod_cast hlimit

/-- Without anything to read the threads only write. -/
theorem writesOnly [NeZero numObjects] (hread : numReaders = 0 ∨ readerTurns = 0) :
    (threads (loop (R := Fin numReaders) (W := Fin numWriters) numObjects
      (turns readerTurns writerTurns))).WritesOnly := by
  intro t i v x
  show loop numObjects (turns readerTurns writerTurns) t i v ≠ _
  unfold loop
  split
  · next hi =>
      cases t with
      | inl r =>
          rcases hread with rfl | rfl
          · exact r.elim0
          · exact absurd hi (Nat.not_lt_zero i)
      | inr w => simp
  · simp

/-- `main` can come to its end, from wherever the program is, exactly if there are two objects or more
or nothing to read.  At its end every thread has made its turns, and all objects but the first are at
rest. -/
theorem main_can_end_iff [NeZero numObjects]
    {p : Process (St (Fin numReaders ⊕ Fin numWriters) (Fin numObjects)
      (Fin numObjects → ConcurrentObject) Line) (Fin numReaders ⊕ Fin numWriters)
      (Event (Fin numReaders ⊕ Fin numWriters))}
    (h : (program numReaders numWriters numObjects readerTurns writerTurns).ReachedBy
      (objects numObjects initialData readersLimitMax rand) (main numReaders numWriters) p) :
    ((∃ p', Reachable (ForkJoin.Step
        (program numReaders numWriters numObjects readerTurns writerTurns).workers) p p' ∧
      p'.rest = []) ↔ 2 ≤ numObjects ∨ numReaders = 0 ∨ readerTurns = 0) ∧
    (p.rest = [] →
      (∀ t, p.shared.ctrl t = .run ⟨turns readerTurns writerTurns t, .done⟩) ∧
      ∀ x : Fin numObjects, (x : ℕ) ≠ 0 →
        (p.shared.data x).readersCount = 0 ∧ p.shared.owner (.door x) = none ∧
          p.shared.owner (.room x) = none) := by
  have horderly : Orderly ∅ ∅ (main numReaders numWriters) :=
    orderly_startAndJoin_self fun t => by cases t <;> simp
  refine ⟨⟨?_, fun husable => ?_⟩, fun hend => ?_⟩
  · rintro ⟨p', hp', hend⟩
    by_contra hno
    obtain ⟨hlt, hreaders, hturns⟩ : numObjects < 2 ∧ numReaders ≠ 0 ∧ readerTurns ≠ 0 := by omega
    obtain rfl : numObjects = 1 := by
      have := NeZero.pos numObjects
      omega
    have h' := h.trans hp'
    let r : Fin numReaders ⊕ Fin numWriters := .inl ⟨0, Nat.pos_of_ne_zero hreaders⟩
    have hret := (sound_of_reachable (Program.workers_lawful _) horderly h').returned_of_end hend r
    have hread : ∀ v, (threads (loop 1 (turns readerTurns writerTurns))).next r 0 v =
        some (.read 0) := loop_one_reader (Nat.pos_of_ne_zero hturns)
    have hnot := not_returned_of_limit lawful rfl rfl hread (Program.ReachedBy.shared h')
    exact Bool.false_ne_true (hnot.symm.trans hret)
  · obtain ⟨x, hx⟩ : ∃ x, (threads (loop (R := Fin numReaders) (W := Fin numWriters) numObjects
        (turns readerTurns writerTurns))).Usable
        (objects numObjects initialData readersLimitMax rand) x := by
      rcases husable with htwo | hread
      · exact ⟨⟨1, htwo⟩, usable_of_ne_zero Nat.one_ne_zero⟩
      · exact ⟨0, Or.inr (writesOnly hread)⟩
    refine Program.can_end (call_not_mem_startAndJoin_self) horderly (fun s hs => ?_) h
    refine can_finish lawful (fun _ => rfl) (fun t i v hi => Task3.loop_eq_none_iff.2 hi)
      (fun t i hi => ?_) hs
    obtain ⟨v, call, hv, hw⟩ := Task3.exists_loop_eq hi x
    exact ⟨v, call, x, hv, hw, hx⟩
  · have hret := (sound_of_reachable (Program.workers_lawful _) horderly h).returned_of_end hend
    have hctrl := fun t => ctrl_of_returned (fun t i v => Task3.loop_eq_none_iff) h.shared (hret t)
    refine ⟨hctrl, fun x hx => ?_⟩
    refine ((usable_of_ne_zero hx).inv lawful rfl h.shared).at_rest fun t => ?_
    rw [placeOf, hctrl t]
    exact id

/-- `main` as it is written can come to its end. -/
theorem main_can_end_iff_start :
    ∃ p', Reachable (ForkJoin.Step (program 500 500 50 20 15).workers)
      (.start ((program 500 500 50 20 15).init (objects 50 0 10 fun _ => 0)) (main 500 500)) p' ∧
        p'.rest = [] :=
  (main_can_end_iff (Reachable.refl _)).1.2 (Or.inl (by decide))

end Task5
