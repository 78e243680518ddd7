import SystemsProgramming.Classes1.Task4

/-!
# The rounds of `Task4.c`

The record of the writers is read off the log: `sinceSave` is what has been printed since the last
save, and a writer is recorded when it has written there.  `Round` is this relation together with
the fact that every save so far closed a complete round (`Saves`); `assertion` follows it through
the statements of the critical sections.
-/

namespace Task4

open Pthread Transition

variable {R : Type} {n : ℕ}

/-! ### The log -/

/-- The log of a run. -/
abbrev Log (R : Type) (n : ℕ) := List ((R ⊕ Worker n) × Line)

/-- The line is printed by a save. -/
def Line.isSave : Line → Bool
  | .saved _ => true
  | _ => false

/-- The log since the last save. -/
def sinceSave (o : Log R n) : Log R n :=
  o.foldl (fun acc e => if e.2.isSave then [] else acc ++ [e]) []

@[simp] theorem sinceSave_nil : sinceSave ([] : Log R n) = [] := rfl

@[simp] theorem sinceSave_snoc (o : Log R n) (e : (R ⊕ Worker n) × Line) :
    sinceSave (o ++ [e]) = if e.2.isSave then [] else sinceSave o ++ [e] := by
  simp [sinceSave]

/-- Writer `i` has written in `o`. -/
def Wrote (i : Fin n) (o : Log R n) : Prop := ∃ v, (Sum.inr (.writer i), Line.wrote v) ∈ o

/-- The round in `o` was completed by the write of `v`: then for the first time every writer had
written, and nobody has written since. -/
def Complete (v : ℤ) (o : Log R n) : Prop :=
  ∃ i before after, o = before ++ (Sum.inr (.writer i), .wrote v) :: after ∧ ¬ Wrote i before ∧
    (∀ j, j ≠ i → Wrote j before) ∧ ∀ j, ¬ Wrote j after

/-- Every save in `o` was made by the critic and closed a complete round. -/
def Saves (o : Log R n) : Prop :=
  ∀ before t v after, o = before ++ (t, .saved v) :: after →
    t = Sum.inr .critic ∧ (∀ i, Wrote i (sinceSave before)) ∧ Complete v (sinceSave before)

theorem wrote_snoc {i : Fin n} {o : Log R n} {t : R ⊕ Worker n} {l : Line} :
    Wrote i (o ++ [(t, l)]) ↔ Wrote i o ∨ ∃ v, t = Sum.inr (.writer i) ∧ l = .wrote v := by
  constructor
  · rintro ⟨v, hv⟩
    rw [List.mem_append, List.mem_singleton, Prod.mk.injEq] at hv
    exact hv.imp (fun h => ⟨v, h⟩) fun h => ⟨v, h.1.symm, h.2.symm⟩
  · rintro (⟨v, hv⟩ | ⟨v, rfl, rfl⟩)
    · exact ⟨v, List.mem_append_left _ hv⟩
    · exact ⟨v, by simp⟩

theorem not_wrote_nil (i : Fin n) : ¬ Wrote i ([] : Log R n) := by
  rintro ⟨v, hv⟩
  cases hv

theorem Complete.wrote {v : ℤ} {o : Log R n} (h : Complete v o) (j : Fin n) : Wrote j o := by
  obtain ⟨i, before, after, rfl, -, hj, -⟩ := h
  by_cases hji : j = i
  · exact ⟨v, by simp [hji]⟩
  · obtain ⟨w, hw⟩ := hj j hji
    exact ⟨w, List.mem_append_left _ hw⟩

/-- Reads do not touch a completed round. -/
theorem Complete.read {v w : ℤ} {r : R} {o : Log R n} (h : Complete v o) :
    Complete v (o ++ [(Sum.inl r, .read w)]) := by
  obtain ⟨i, before, after, rfl, hi, hj, hafter⟩ := h
  refine ⟨i, before, after ++ [(Sum.inl r, .read w)], by simp, hi, hj, fun j => ?_⟩
  rw [wrote_snoc]
  rintro (h | ⟨_, h, -⟩)
  · exact hafter j h
  · cases h

theorem saves_nil : Saves ([] : Log R n) := by
  intro before t v after h
  simp at h

theorem Saves.snoc {o : Log R n} (h : Saves o) {t : R ⊕ Worker n} {l : Line}
    (hl : ∀ v, l = .saved v → t = Sum.inr .critic ∧ Complete v (sinceSave o)) :
    Saves (o ++ [(t, l)]) := by
  intro before u v after heq
  rcases snoc_eq_append_cons heq with ⟨rfl, hlast, -⟩ | ⟨after, -, ho⟩
  · obtain ⟨rfl, rfl⟩ : u = t ∧ .saved v = l := by simpa using hlast
    obtain ⟨ht, hc⟩ := hl v rfl
    exact ⟨ht, hc.wrote, hc⟩
  · exact h before u v after ho

/-! ### The invariant -/

/-- The number of recorded writers. -/
def recorded (n : ℕ) (record : ℕ → Bool) : ℕ :=
  (Finset.univ.filter fun i : Fin n => record i = true).card

/-- What holds while no writer and not the critic holds `writer_mutex`. -/
structure Round (object : ConcurrentObject) (o : Log R n) : Prop where
  numWriters : object.numWriters = n
  count : object.writersCount = recorded n object.writersRecord
  record : ∀ i : Fin n, object.writersRecord i = true ↔ Wrote i (sinceSave o)
  complete : object.writersCount = n → Complete object.data (sinceSave o)
  saves : Saves o

/-- Writer `i` is recorded and its line is not yet printed. -/
structure Registered (i : Fin n) (object : ConcurrentObject) (o : Log R n) : Prop where
  numWriters : object.numWriters = n
  count : object.writersCount = recorded n object.writersRecord
  record : ∀ j : Fin n, object.writersRecord j = true ↔ Wrote j (sinceSave o) ∨ j = i
  waiting : ∃ j, ¬ Wrote j (sinceSave o)
  saves : Saves o

/-- The critic closes the round, and has cleared the first `k` entries. -/
structure Closing (k : ℕ) (object : ConcurrentObject) (o : Log R n) : Prop where
  numWriters : object.numWriters = n
  count : object.writersCount = 0
  record : ∀ j < k, object.writersRecord j = false
  complete : Complete object.data (sinceSave o)
  saves : Saves o

/-- The object after `record`, and after `count` and `record`. -/
def withRecord (i : ℕ) (object : ConcurrentObject) : ConcurrentObject :=
  { object with writersRecord := Function.update object.writersRecord i true }

/-- What holds at the places of the critical sections. -/
def assertion : Worker n → Loc → ConcurrentObject → Log R n → Prop
  | .writer idx, l, object, o =>
    match l.place with
    | .wait => Round object o ∧ object.writersCount = n
    | .check => Round object o ∧ object.writersCount ≠ n
    | .count => Registered idx
        (withRecord idx { object with writersCount := object.writersCount + 1 }) o
    | .record => Registered idx (withRecord idx object) o
    | .full | .broadcast | .store | .print => Registered idx object o
    | _ => Round object o
  | .critic, l, object, o =>
    match l.place with
    | .wait => Round object o ∧ object.writersCount ≠ n
    | .reset => Round object o ∧ object.writersCount = n
    | .clear k => Closing k object o ∧ k ≤ n
    | .save => Closing n object o
    | _ => Round object o

/-! ### Counting the recorded writers -/

theorem recorded_le (record : ℕ → Bool) : recorded n record ≤ n := by
  have := (Finset.univ.filter fun i : Fin n => record i = true).card_le_univ
  rwa [Fintype.card_fin] at this

theorem recorded_eq_iff {record : ℕ → Bool} :
    recorded n record = n ↔ ∀ i : Fin n, record i = true := by
  have := Finset.card_filter_eq_iff (s := Finset.univ) (p := fun i : Fin n => record i = true)
  rw [Finset.card_univ, Fintype.card_fin] at this
  simpa [recorded] using this

theorem recorded_update {record : ℕ → Bool} {i : Fin n} (hi : record i = false) :
    recorded n (Function.update record i true) = recorded n record + 1 := by
  have hmem : i ∉ Finset.univ.filter fun j : Fin n => record j = true := by simp [hi]
  rw [recorded, recorded, ← Finset.card_insert_of_notMem hmem]
  congr 1
  ext j
  by_cases hj : j = i
  · simp [hj]
  · simp [hj, Fin.val_ne_of_ne hj]

theorem recorded_eq_zero {record : ℕ → Bool} (h : ∀ i : Fin n, record i = false) :
    recorded n record = 0 := by
  simp [recorded, h]

/-! ### The steps keep it -/

section Steps

variable {object : ConcurrentObject} {o : Log R n} {i : Fin n} {k : ℕ}

theorem Round.setCount (h : Round object o) (c : ℤ) :
    Round { object with readersCount := c } o := { h with }

theorem Registered.setCount (h : Registered i object o) (c : ℤ) :
    Registered i { object with readersCount := c } o := { h with }

theorem Closing.setCount (h : Closing k object o) (c : ℤ) :
    Closing k { object with readersCount := c } o := { h with }

theorem Round.read (h : Round object o) (r : R) (v : ℤ) :
    Round object (o ++ [(Sum.inl r, .read v)]) where
  numWriters := h.numWriters
  count := h.count
  record i := by
    rw [h.record i, sinceSave_snoc]
    show _ ↔ Wrote i (sinceSave o ++ [_])
    rw [wrote_snoc]
    simp
  complete hc := by
    rw [sinceSave_snoc]
    exact (h.complete hc).read
  saves := h.saves.snoc nofun

/-- Some writer is missing as long as the count has not reached `n`. -/
theorem Round.waiting (h : Round object o) (hc : object.writersCount ≠ n) :
    ∃ j : Fin n, ¬ Wrote j (sinceSave o) := by
  by_contra hall
  push Not at hall
  have : recorded n object.writersRecord = n := recorded_eq_iff.2 fun j => (h.record j).2 (hall j)
  exact hc (by rw [h.count, this])

/-- `check`, when the writer is recorded already. -/
theorem Round.registered (h : Round object o) (hc : object.writersCount ≠ n)
    (hi : object.writersRecord i = true) : Registered i object o where
  numWriters := h.numWriters
  count := h.count
  record j := by
    rw [h.record j]
    refine ⟨Or.inl, ?_⟩
    rintro (hj | rfl)
    · exact hj
    · exact (h.record j).1 hi
  waiting := h.waiting hc
  saves := h.saves

/-- `check`, when the writer is not recorded: what `count` and `record` will establish. -/
theorem Round.register (h : Round object o) (hc : object.writersCount ≠ n)
    (hi : object.writersRecord i = false) :
    Registered i (withRecord i { object with writersCount := object.writersCount + 1 }) o where
  numWriters := h.numWriters
  count := by
    show object.writersCount + 1 = recorded n (Function.update object.writersRecord i true)
    have := recorded_update hi
    have := h.count
    omega
  record j := by
    show Function.update object.writersRecord i true j = true ↔ _
    by_cases hj : j = i
    · simp [hj]
    · rw [Function.update_of_ne (Fin.val_ne_of_ne hj), h.record j]
      simp [hj]
  waiting := h.waiting hc
  saves := h.saves

theorem Registered.store (h : Registered i object o) (v : ℤ) :
    Registered i { object with data := v } o := { h with }

/-- The line of the write; it completes the round when it is the last one missing. -/
theorem Registered.print (h : Registered i object o) :
    Round object (o ++ [(Sum.inr (.writer i), .wrote object.data)]) where
  numWriters := h.numWriters
  count := h.count
  record j := by
    rw [h.record j, sinceSave_snoc]
    show _ ↔ Wrote j (sinceSave o ++ [_])
    rw [wrote_snoc]
    simp [eq_comm]
  complete hc := by
    have hall : ∀ j : Fin n, Wrote j (sinceSave o) ∨ j = i := by
      intro j
      have hrec : recorded n object.writersRecord = n := by
        have := h.count
        omega
      exact (h.record j).1 (recorded_eq_iff.1 hrec j)
    obtain ⟨j, hj⟩ := h.waiting
    obtain rfl : j = i := (hall j).resolve_left hj
    rw [sinceSave_snoc]
    exact ⟨j, sinceSave o, [], rfl, hj, fun u hu => (hall u).resolve_right hu, not_wrote_nil⟩
  saves := h.saves.snoc nofun

theorem Round.close (h : Round object o) (hc : object.writersCount = n) :
    Closing 0 { object with writersCount := 0 } o where
  numWriters := h.numWriters
  count := rfl
  record j hj := absurd hj (Nat.not_lt_zero j)
  complete := h.complete hc
  saves := h.saves

theorem Closing.clear (h : Closing k object o) :
    Closing (k + 1) { object with writersRecord := Function.update object.writersRecord k false } o
    where
  numWriters := h.numWriters
  count := h.count
  record j hj := by
    by_cases hjk : j = k
    · simp [hjk]
    · show Function.update object.writersRecord k false j = false
      rw [Function.update_of_ne hjk]
      exact h.record j (by omega)
  complete := h.complete
  saves := h.saves

/-- The save opens the next round. -/
theorem Closing.save (hn : 0 < n) (h : Closing n object o) :
    Round object (o ++ [(Sum.inr .critic, .saved object.data)]) where
  numWriters := h.numWriters
  count := by
    rw [h.count, recorded_eq_zero fun i => h.record i i.isLt]
    rfl
  record i := by
    rw [h.record i i.isLt, sinceSave_snoc]
    exact iff_of_false nofun (not_wrote_nil i)
  complete hc := by
    rw [h.count] at hc
    omega
  saves := h.saves.snoc fun v hv => by
    obtain rfl : object.data = v := by simpa using hv
    exact ⟨rfl, h.complete⟩

end Steps

/-! ### The places of the instructions -/

section Code

variable {readerRuns : R → ℕ} {writerRuns : Fin n → ℕ} {u : Worker n} {l next : Loc} {m : Mutex}
  {c : Unit}

theorem place_of_lock (h : (threads readerRuns writerRuns).code u l = .lock m next) :
    next.place = .test := by
  obtain ⟨i, p⟩ := l
  cases u <;> cases p <;> simp [threads, writerThread, criticThread, ite_eq_iff] at h
  · exact h.2.2 ▸ rfl
  · exact h.2 ▸ rfl

theorem place_of_unlock (h : (threads readerRuns writerRuns).code u l = .unlock m next) :
    l.place = .unlock := by
  obtain ⟨i, p⟩ := l
  cases u <;> cases p <;> simp [threads, writerThread, criticThread, ite_eq_iff] at h <;> rfl

theorem place_of_wait (h : (threads readerRuns writerRuns).code u l = .wait c m next) :
    l.place = .wait ∧ next.place = .test := by
  obtain ⟨i, p⟩ := l
  cases u <;> cases p <;> simp [threads, writerThread, criticThread, ite_eq_iff] at h
  · exact ⟨rfl, h.2 ▸ rfl⟩
  · exact ⟨rfl, h.2 ▸ rfl⟩

theorem place_of_broadcast (h : (threads readerRuns writerRuns).code u l = .broadcast c next) :
    l.place = .broadcast ∧ next.place = if u = .critic then .unlock else .store := by
  obtain ⟨i, p⟩ := l
  cases u <;> cases p <;> simp [threads, writerThread, criticThread, ite_eq_iff] at h
  · exact ⟨rfl, h ▸ rfl⟩
  · exact ⟨rfl, h ▸ rfl⟩

end Code

/-! ### Every reachable state -/

section Reachable

variable {readerRuns : R → ℕ} {writerRuns : Fin n → ℕ}

theorem assertion_setCount {u : Worker n} {l : Loc} {object : ConcurrentObject} {o : Log R n}
    (c : ℤ) (h : assertion u l object o) :
    assertion u l { object with readersCount := c } o := by
  obtain ⟨i, p⟩ := l
  cases u with
  | writer idx =>
      cases p with
      | wait | check => exact ⟨h.1.setCount c, h.2⟩
      | count | record | full | broadcast | store | print => exact Registered.setCount h c
      | _ => exact Round.setCount h c
  | critic =>
      cases p with
      | wait | reset => exact ⟨h.1.setCount c, h.2⟩
      | clear k => exact ⟨h.1.setCount c, h.2⟩
      | save => exact Closing.setCount h c
      | _ => exact Round.setCount h c

/-- A statement of a writer. -/
theorem assertion_writer {idx : Fin n} {l : Loc} {runs : ℕ} {object : ConcurrentObject} {o : Log R n}
    {f : ℤ → ConcurrentObject → ConcurrentObject × List Line × Loc} (v : ℤ)
    (hf : writerThread runs idx l = .act f) (h : assertion (.writer idx) l object o) :
    assertion (.writer idx) (f v object).2.2 (f v object).1
      (o ++ (f v object).2.1.map (Sum.inr (.writer idx), ·)) := by
  obtain ⟨i, p⟩ := l
  cases p with
  | lock =>
      simp only [writerThread] at hf
      split at hf <;> cases hf
  | test =>
      injection hf with hf
      subst hf
      have h : Round object o := h
      have hn := h.numWriters
      show assertion _ ⟨i, if object.writersCount = object.numWriters then _ else _⟩ _ (o ++ [])
      rw [List.append_nil]
      by_cases hc : object.writersCount = object.numWriters
      · rw [if_pos hc]
        exact ⟨h, hc.trans hn⟩
      · rw [if_neg hc]
        exact ⟨h, fun hc' => hc (hc'.trans hn.symm)⟩
  | check =>
      injection hf with hf
      subst hf
      obtain ⟨h, hc⟩ := h
      show assertion _ ⟨i, if object.writersRecord idx = false then _ else _⟩ _ (o ++ [])
      rw [List.append_nil]
      by_cases hr : object.writersRecord idx = false
      · rw [if_pos hr]
        exact h.register hc hr
      · rw [if_neg hr]
        exact h.registered hc (by simpa using hr)
  | count | record =>
      injection hf with hf
      subst hf
      show assertion _ _ _ (o ++ [])
      rw [List.append_nil]
      exact h
  | full =>
      injection hf with hf
      subst hf
      show assertion _ ⟨i, if object.writersCount = object.numWriters then _ else _⟩ _ (o ++ [])
      rw [List.append_nil]
      split <;> exact h
  | store =>
      injection hf with hf
      subst hf
      show assertion _ _ _ (o ++ [])
      rw [List.append_nil]
      exact Registered.store h v
  | print =>
      injection hf with hf
      subst hf
      exact Registered.print h
  | wait | broadcast | unlock | reset | clear | save => cases hf

/-- A statement of the critic. -/
theorem assertion_critic (hn : 0 < n) {l : Loc} {object : ConcurrentObject} {o : Log R n}
    {f : ℤ → ConcurrentObject → ConcurrentObject × List Line × Loc} (v : ℤ)
    (hf : criticThread l = .act f) (h : assertion .critic l object o) :
    assertion .critic (f v object).2.2 (f v object).1
      (o ++ (f v object).2.1.map (Sum.inr .critic, ·)) := by
  obtain ⟨i, p⟩ := l
  cases p with
  | test =>
      injection hf with hf
      subst hf
      have h : Round object o := h
      have hw := h.numWriters
      show assertion _ ⟨i, if object.writersCount ≠ object.numWriters then _ else _⟩ _ (o ++ [])
      rw [List.append_nil]
      by_cases hc : object.writersCount ≠ object.numWriters
      · rw [if_pos hc]
        exact ⟨h, hw ▸ hc⟩
      · rw [if_neg hc]
        exact ⟨h, hw ▸ not_not.1 hc⟩
  | reset =>
      injection hf with hf
      subst hf
      show assertion _ _ _ (o ++ [])
      rw [List.append_nil]
      exact ⟨h.1.close h.2, Nat.zero_le n⟩
  | clear k =>
      injection hf with hf
      subst hf
      obtain ⟨h, hk⟩ := h
      have hw := h.numWriters
      by_cases hlt : k < object.numWriters
      · simp only [if_pos hlt, List.map_nil, List.append_nil]
        exact ⟨h.clear, by omega⟩
      · simp only [if_neg hlt, List.map_nil, List.append_nil]
        obtain rfl : k = n := by omega
        exact h
  | save =>
      injection hf with hf
      subst hf
      exact Closing.save hn h
  | lock | wait | check | count | record | full | broadcast | store | print | unlock => cases hf

theorem protects (hn : 0 < n) : (threads readerRuns writerRuns).Protects Round (assertion (R := R)) where
  free_setCount c h := h.setCount c
  held_setCount c h := assertion_setCount c h
  reading {st} hst {object o} _ r h := by
    obtain rfl := List.mem_singleton.1 hst
    exact h.read r object.data
  lock {u l next object o} hi h := by
    obtain ⟨i, p⟩ := next
    obtain rfl : p = .test := place_of_lock hi
    cases u <;> exact h
  unlock {u l next object o} hi h := by
    obtain ⟨i, p⟩ := l
    obtain rfl : p = .unlock := place_of_unlock hi
    cases u <;> exact h
  wait {u l c next object o} hi h := by
    obtain ⟨i, p⟩ := l
    obtain rfl : p = .wait := (place_of_wait hi).1
    cases u <;> exact h.1
  woken {u l c next object o} hi h := by
    obtain ⟨i, p⟩ := next
    obtain rfl : p = .test := (place_of_wait hi).2
    cases u <;> exact h
  broadcast {u l c next object o} hi h := by
    obtain ⟨i, p⟩ := l
    obtain ⟨j, q⟩ := next
    obtain ⟨rfl, hq⟩ : p = .broadcast ∧ q = _ := place_of_broadcast hi
    cases u with
    | writer idx =>
        obtain rfl : q = .store := hq.trans (if_neg nofun)
        exact h
    | critic =>
        obtain rfl : q = .unlock := hq.trans (if_pos rfl)
        exact h
  act {u l f object o} v hi h := by
    cases u with
    | writer idx => exact assertion_writer v hi h
    | critic => exact assertion_critic hn v hi h

/-- The loop of `allocate_object` clears the record. -/
theorem allocateObject_record (initialData : ℤ) (cells : ℕ → Bool) (i : Fin n) :
    (allocateObject initialData n cells).writersRecord i = false := by
  have hloop : ∀ k, ∀ j < k,
      (List.range k).foldl (fun rec i => Function.update rec i false) cells j = false := by
    intro k
    induction k with
    | zero => exact fun j hj => absurd hj (Nat.not_lt_zero j)
    | succ k ih =>
        intro j hj
        rw [List.range_succ, List.foldl_append]
        by_cases hjk : j = k
        · simp [hjk]
        · simp [hjk, ih j (by omega)]
  exact hloop n i i.isLt

theorem round_init (hn : 0 < n) (initialData : ℤ) (cells : ℕ → Bool) :
    Round (R := R) (n := n) (allocateObject initialData n cells) [] where
  numWriters := rfl
  count := by
    rw [recorded_eq_zero (allocateObject_record initialData cells)]
    rfl
  record i := by
    rw [allocateObject_record]
    exact iff_of_false nofun (not_wrote_nil i)
  complete hc := by
    have hc : (0 : ℤ) = n := hc
    omega
  saves := saves_nil

theorem assertion_saves {u : Worker n} {l : Loc} {object : ConcurrentObject} {o : Log R n}
    (h : assertion u l object o) : Saves o := by
  obtain ⟨i, p⟩ := l
  cases u with
  | writer idx =>
      cases p with
      | wait | check => exact h.1.saves
      | count | record | full | broadcast | store | print => exact Registered.saves h
      | _ => exact Round.saves h
  | critic =>
      cases p with
      | wait | reset | clear => exact h.1.saves
      | save => exact Closing.saves h
      | _ => exact Round.saves h

/-- When `writer_mutex` is free the count and the record are those of the current round, and every
save closed a round that each writer had written in, with the value of the write that completed
it. -/
theorem critic_rounds [DecidableEq R] [Fintype R] (hn : 0 < n) {initialData : ℤ} {cells : ℕ → Bool}
    {s : Lightswitch.St R (Worker n) ConcurrentObject Loc Mutex Unit Line}
    (h : Reachable (Step (threads readerRuns writerRuns).program)
      ((threads readerRuns writerRuns).program.init (allocateObject initialData n cells)) s) :
    (s.owner .writerMutex = none →
      s.data.writersCount = (Finset.univ.filter fun i : Fin n => s.data.writersRecord i = true).card ∧
        ∀ i : Fin n, s.data.writersRecord i = true ↔ Wrote i (sinceSave s.out)) ∧
      Saves s.out := by
  have hI := Lightswitch.inv_of_reachable lawful rfl h
  have hP := Lightswitch.protected_of_reachable lawful (protects hn) rfl
    (round_init hn initialData cells) h
  constructor
  · intro hfree
    have hR := hP.free fun u hu => by
      rw [show (threads readerRuns writerRuns).room = .writerMutex from rfl, hfree] at hu
      cases hu
    exact ⟨hR.count, hR.record⟩
  · by_cases hheld : ∃ u, s.owner .writerMutex = some (.inr u)
    · obtain ⟨u, hu⟩ := hheld
      obtain ⟨l, hc, hl⟩ := (hI.crit u).1 hu
      exact assertion_saves (hP.held u l hc hl)
    · exact (hP.free fun u hu => hheld ⟨u, hu⟩).saves

/-- A writer writes `7` and `8`, another one `9`, which ends the round; the critic saves it, and the
second writer begins the next round with `10`. -/
theorem critic_rounds_two_writers :
    ∃ s : Lightswitch.St Unit (Worker 2) ConcurrentObject Loc Mutex Unit Line,
      s.out = [(.inr (.writer 0), .wrote 7), (.inr (.writer 0), .wrote 8),
        (.inr (.writer 1), .wrote 9), (.inr .critic, .saved 9), (.inr (.writer 1), .wrote 10)] ∧
        s.data.writersCount = 1 ∧
        s.data.writersCount = (Finset.univ.filter fun i : Fin 2 => s.data.writersRecord i = true).card ∧
        (∀ i : Fin 2, s.data.writersRecord i = true ↔ Wrote i (sinceSave s.out)) ∧ Saves s.out := by
  let S := threads (R := Unit) (n := 2) (fun _ => 1) fun _ => 2
  let write (idx : Fin 2) (k : ℕ) (val : ℤ) : List (Event (Unit ⊕ Worker 2)) :=
    List.replicate k (.exec (.inr (.writer idx)) val)
  have hs : (replay (exec S.program) (write 0 9 7 ++ write 0 7 8 ++ write 1 10 9 ++
      List.replicate 9 (.exec (.inr .critic) 0) ++ write 1 9 10)
        (S.program.init (allocateObject 0 2 fun _ => true))).map
          (fun s => (s.out, s.data.writersCount, s.owner .writerMutex)) =
      some ([(.inr (.writer 0), .wrote 7), (.inr (.writer 0), .wrote 8),
        (.inr (.writer 1), .wrote 9), (.inr .critic, .saved 9), (.inr (.writer 1), .wrote 10)],
        1, none) := by decide +kernel
  obtain ⟨s, h, hs⟩ := exists_of_replay (fun _ _ _ => step_of_exec) hs
  obtain ⟨hout, hcount, hfree⟩ : _ ∧ _ ∧ _ := by simpa only [Prod.mk.injEq] using hs
  have hrounds := critic_rounds (by decide) h
  exact ⟨s, hout, hcount, (hrounds.1 hfree).1, (hrounds.1 hfree).2, hrounds.2⟩

end Reachable

end Task4
