import SystemsProgramming.Library.Register
import SystemsProgramming.Library.TryCalls

/-!
# What the lock of an object protects

While nobody writes object `x`, an assertion about the data and the log holds; while a writer is in its
section, the assertion for its place does.  Readers of `x` step only while nobody writes it, and calls
on other objects must keep all assertions (`Protects`).  Then the assertions hold in every reachable
state (`protected_of_reachable`).

So a writer may announce its value before it stores it: the log of reads and announced writes is
coherent all the same (`coherent_of_announces`).
-/

namespace Pthread

open Transition

variable {T X D O : Type}

namespace TryLightswitch

/-- The assertions about `x`: `A none` while nobody writes it, `A (some (v, k))` while its writer is
before statement `k` with the local value `v`. -/
structure Protects (S : TryLightswitch T X D O) (x : X)
    (A : Option (ℤ × ℕ) → D → List (T × O) → Prop) : Prop where
  count : ∀ {q y d o} c, A q d o → A q (S.setCount y d c) o
  /-- a statement of a reader of `y` -/
  read : ∀ {q y st d o}, st ∈ S.reading y → (y = x → q = none) → A q d o → ∀ i t,
    A q (st i d).1 (o ++ (st i d).2.map (t, ·))
  /-- a statement of a writer of another object -/
  other : ∀ {q y st d o}, st ∈ S.writing y → y ≠ x → A q d o → ∀ i v t,
    A q (st i v d).2.1 (o ++ (st i v d).2.2.map (t, ·))
  /-- a statement of the writer of `x` -/
  write : ∀ {v k st d o}, (S.writing x)[k]? = some st → A (some (v, k)) d o → ∀ i t,
    A (some ((st i v d).1, k + 1)) (st i v d).2.1 (o ++ (st i v d).2.2.map (t, ·))
  begin : ∀ {d o}, A none d o → A (some (0, 0)) d o
  finish : ∀ {v k d o}, (S.writing x)[k]? = none → A (some (v, k)) d o → A none d o

/-- What `Protects` promises of a state. -/
structure Protected (x : X) (A : Option (ℤ × ℕ) → D → List (T × O) → Prop) (s : St T X D O) :
    Prop where
  free : ¬ HasWriter x s → A none s.data s.out
  held : ∀ t v k, placeOf s t = .writer x v k → A (some (v, k)) s.data s.out

variable [DecidableEq T] [DecidableEq X] [Fintype T] {S : TryLightswitch T X D O}
  {s s' s₁ : St T X D O} {t u : T} {n : ℕ} {x : X} {lim : Option ℤ} {l : TryLoc X} {p : TryPlace X}
  {A : Option (ℤ × ℕ) → D → List (T × O) → Prop}

omit [DecidableEq X] [Fintype T] in
/-- A step of `t` that is no writer of `x` before or after it. -/
theorem Protected.keep (hP : Protected x A s) (hctrl : s₁.ctrl = s.ctrl)
    (hbefore : ¬ (placeOf s t).Writes x) (hafter : ¬ l.place.Writes x)
    (hA : ∀ q, (¬ HasWriter x s → q = none) → A q s.data s.out → A q s₁.data s₁.out) :
    Protected x A (s₁.setCtrl t (.run l)) := by
  have hsame : ∀ u, u ≠ t → placeOf (s₁.setCtrl t (.run l)) u = placeOf s u := by
    intro u hu
    rw [placeOf_setCtrl_of_ne hu, placeOf, hctrl, placeOf]
  have hwriter : HasWriter x s → HasWriter x (s₁.setCtrl t (.run l)) := by
    rintro ⟨u, hu⟩
    have hut : u ≠ t := by
      rintro rfl
      exact hbefore hu
    exact ⟨u, by rwa [hsame u hut]⟩
  refine ⟨fun hno => hA none (fun _ => rfl) (hP.free fun hw => hno (hwriter hw)), fun u v k hu => ?_⟩
  by_cases hut : u = t
  · subst hut
    rw [placeOf_setCtrl_self] at hu
    exact absurd (by rw [hu]; rfl) hafter
  · rw [hsame u hut] at hu
    have hw : HasWriter x s := ⟨u, by rw [hu]; rfl⟩
    exact hA _ (fun hno => absurd hw hno) (hP.held u v k hu)

omit [DecidableEq X] [Fintype T] in
/-- After a step of `t` it writes `x`, alone. -/
theorem Protected.of_held {v : ℤ} {k : ℕ} (hl : l.place = .writer x v k)
    (hothers : ∀ u, u ≠ t → ¬ (placeOf s₁ u).Writes x) (hA : A (some (v, k)) s₁.data s₁.out) :
    Protected x A (s₁.setCtrl t (.run l)) := by
  have hself : placeOf (s₁.setCtrl t (.run l)) t = .writer x v k := by
    rw [placeOf_setCtrl_self, hl]
  refine ⟨fun hno => absurd ⟨t, by rw [hself]; rfl⟩ hno, fun u v' k' hu => ?_⟩
  by_cases hut : u = t
  · subst hut
    rw [hself] at hu
    cases hu
    exact hA
  · rw [placeOf_setCtrl_of_ne hut] at hu
    exact absurd (by rw [hu]; rfl) (hothers u hut)

omit [DecidableEq X] [Fintype T] in
/-- After a step of `t` nobody writes `x`. -/
theorem Protected.of_free (hl : ¬ l.place.Writes x)
    (hothers : ∀ u, u ≠ t → ¬ (placeOf s₁ u).Writes x) (hA : A none s₁.data s₁.out) :
    Protected x A (s₁.setCtrl t (.run l)) := by
  refine ⟨fun _ => hA, fun u v k hu => ?_⟩
  by_cases hut : u = t
  · subst hut
    rw [placeOf_setCtrl_self] at hu
    exact absurd (by rw [hu]; rfl) hl
  · rw [placeOf_setCtrl_of_ne hut] at hu
    exact absurd (by rw [hu]; rfl) (hothers u hut)

theorem Protected.move (hP : Protected x A s) (hI : S.Inv x lim s) (hA : S.Protects x A)
    (h : S.Move t n s (placeOf s t) s') : Protected x A s' := by
  generalize hp : placeOf s t = p at h
  have hidle : ∀ {l : TryLoc X}, ¬ p.Writes x → ¬ l.place.Writes x →
      Protected x A (s.setCtrl t (.run l)) := fun hb ha =>
    hP.keep rfl (by rwa [hp]) ha fun _ _ h => h
  have hothers : ∀ v k, p = .writer x v k → ∀ u, u ≠ t → ¬ (placeOf s u).Writes x := by
    rintro v k rfl u hut hu
    exact hut (hI.writer_unique (by rw [hp]; rfl) hu)
  cases h with
  | choose v =>
      refine hidle id ?_
      cases S.next t n v with
      | none => exact id
      | some call => cases call <;> exact id
  | test | reject | full | last | deny | again => exact hidle id id
  | enter | takeRoom | proceed | reenter | release | leave | refuse =>
      exact hP.keep rfl (by rw [hp]; exact id) id fun _ _ h => h
  | arrive | depart =>
      exact hP.keep rfl (by rw [hp]; exact id) id fun q _ h => by
        rw [State.write_out, List.map_nil, List.append_nil]
        exact hA.count _ h
  | @read y k st i hk =>
      refine hP.keep rfl (by rw [hp]; exact id) id fun q hq h =>
        hA.read (List.mem_of_getElem? hk) (fun hy => hq fun hw => ?_) h i t
      subst hy
      refine hI.not_inside (t := t) hw ?_
      unfold Inside
      rw [readers_of_place hp]
      rfl
  | @begin y ho =>
      by_cases hy : y = x
      · subst hy
        have hno : ∀ u, ¬ (placeOf s u).Writes y := by
          intro u hu
          rw [hI.writer u hu] at ho
          cases ho
        exact .of_held rfl (fun u _ => hno u) (hA.begin (hP.free fun ⟨u, hu⟩ => hno u hu))
      · exact hP.keep rfl (by rw [hp]; exact id) hy fun _ _ h => h
  | @write y v k st i hk =>
      by_cases hy : y = x
      · subst hy
        exact .of_held rfl (hothers v k rfl) (hA.write hk (hP.held t v k hp) i t)
      · exact hP.keep rfl (by rwa [hp]) hy fun q _ h =>
          hA.other (List.mem_of_getElem? hk) hy h i v t
  | @finish y v k hk =>
      by_cases hy : y = x
      · subst hy
        exact .of_free id (hothers v k rfl) (hA.finish hk (hP.held t v k hp))
      · exact hP.keep rfl (by rwa [hp]) id fun _ _ h => h

/-- What `Protects` promises holds of every reachable state. -/
theorem protected_of_reachable {d₀ : D} (hA : S.Protects x A) (h₀ : A none d₀ [])
    (hinv : ∀ s, Reachable (Step S.program) (S.program.init d₀) s → S.Inv x lim s)
    (h : Reachable (Step S.program) (S.program.init d₀) s) : Protected x A s := by
  have hinit : Protected x A (S.program.init d₀) := ⟨fun _ => h₀, fun t v k ht => by cases ht⟩
  have hboth : Protected x A s ∧ Reachable (Step S.program) (S.program.init d₀) s := by
    refine h.invariant (I := fun s => Protected x A s ∧
      Reachable (Step S.program) (S.program.init d₀) s) (fun s e s' hI hs => ?_) ⟨hinit, .refl _⟩
    have hsI := hinv s hI.2
    obtain ⟨n, hm⟩ := move_of_step hsI.running hs
    exact ⟨hI.1.move hsI hA hm, hI.2.trans (reachable_of_step hs)⟩
  exact hboth.1

/-! ### Objects as registers -/

/-- Readers print what an object holds, and writers draw a value, print it and store it.  `J` says that
the objects print their names. -/
structure Announces (S : TryLightswitch T X D O) (data : X → D → ℤ) (name : X → ℤ) (J : D → Prop)
    (access : O → Option (Register.Access ℤ ℤ)) : Prop where
  count : ∀ {y d} c, J d → J (S.setCount y d c) ∧ ∀ x, data x (S.setCount y d c) = data x d
  read : ∀ {y st d}, st ∈ S.reading y → J d → ∀ i, (st i d).1 = d ∧
    ∃ o, (st i d).2 = [o] ∧ access o = some (.read (name y) (data y d))
  write : ∀ y, ∃ draw print store, S.writing y = [draw, print, store] ∧
    (∀ i v d, (draw i v d).2 = (d, [])) ∧
    (∀ i v d, J d → (print i v d).1 = v ∧ (print i v d).2.1 = d ∧
      ∃ o, (print i v d).2.2 = [o] ∧ access o = some (.write (name y) v)) ∧
    ∀ i v d, J d → J (store i v d).2.1 ∧ (store i v d).2.2 = [] ∧
      data y (store i v d).2.1 = v ∧ ∀ x, x ≠ y → data x (store i v d).2.1 = data x d

section Registers

open Register

variable {data : X → D → ℤ} {name : X → ℤ} {J : D → Prop} {access : O → Option (Access ℤ ℤ)} {v₀ : ℤ}

/-- What an entry of the log says. -/
def accessOf (access : O → Option (Access ℤ ℤ)) (e : T × O) : Option (Access ℤ ℤ) := access e.2

/-- What the register holds: from its announcement on the value of the writer. -/
def current (data : X → D → ℤ) (x : X) (d : D) : Option (ℤ × ℕ) → ℤ
  | some (v, k) => if k = 2 then v else data x d
  | none => data x d

/-- The assertions about register `x`. -/
def Announced (data : X → D → ℤ) (name : X → ℤ) (J : D → Prop) (access : O → Option (Access ℤ ℤ))
    (v₀ : ℤ) (x : X) (q : Option (ℤ × ℕ)) (d : D) (o : List (T × O)) : Prop :=
  J d ∧ Holds (accessOf access) (name x) v₀ (current data x d q) o

omit [DecidableEq T] [DecidableEq X] [Fintype T] in
theorem current_eq {d d' : D} {q : Option (ℤ × ℕ)} (h : data x d' = data x d) :
    current data x d' q = current data x d q := by
  cases q with
  | none => exact h
  | some p => exact congrArg (fun w => if p.2 = 2 then p.1 else w) h

omit [DecidableEq T] [Fintype T] in
theorem Announces.protects (hS : S.Announces data name J access) (hname : Function.Injective name)
    (x : X) (v₀ : ℤ) : S.Protects x (Announced data name J access v₀ x) where
  count c h := by
    obtain ⟨hJ, hdata⟩ := hS.count c h.1
    refine ⟨hJ, ?_⟩
    rw [current_eq (hdata x)]
    exact h.2
  read {q y st d o} hst hq h i t := by
    obtain ⟨hd, l, hl, hacc⟩ := hS.read hst h.1 i
    rw [hd, hl]
    refine ⟨h.1, ?_⟩
    by_cases hy : y = x
    · obtain rfl := hq hy
      subst hy
      exact h.2.read hacc
    · refine h.2.other (fun w hw => ?_) fun w hw => hy (hname ?_)
      · rw [accessOf, hacc] at hw
        cases hw
      · rw [accessOf, hacc] at hw
        injection hw with hw
        injection hw
  other {q y st d o} hst hy h i v t := by
    obtain ⟨draw, print, store, hlist, hdraw, hprint, hstore⟩ := hS.write y
    rw [hlist] at hst
    have hst : st = draw ∨ st = print ∨ st = store := by simpa using hst
    rcases hst with rfl | rfl | rfl
    · rw [hdraw i v d]
      simpa using h
    · obtain ⟨-, hd, l, hl, hacc⟩ := hprint i v d h.1
      rw [hd, hl]
      refine ⟨h.1, h.2.other (fun w hw => hy (hname ?_)) fun w hw => ?_⟩
      · rw [accessOf, hacc] at hw
        injection hw with hw
        injection hw
      · rw [accessOf, hacc] at hw
        cases hw
    · obtain ⟨hJ, hl, -, hothers⟩ := hstore i v d h.1
      rw [hl, List.map_nil, List.append_nil]
      refine ⟨hJ, ?_⟩
      rw [current_eq (hothers x (Ne.symm hy))]
      exact h.2
  write {v k st d o} hk h i t := by
    obtain ⟨draw, print, store, hlist, hdraw, hprint, hstore⟩ := hS.write x
    rw [hlist] at hk
    match k with
    | 0 =>
        obtain rfl : draw = st := by simpa using hk
        rw [hdraw i v d, List.map_nil, List.append_nil]
        exact h
    | 1 =>
        obtain rfl : print = st := by simpa using hk
        obtain ⟨hv, hd, l, hl, hacc⟩ := hprint i v d h.1
        rw [hv, hd, hl]
        exact ⟨h.1, h.2.coherent.write hacc⟩
    | 2 =>
        obtain rfl : store = st := by simpa using hk
        obtain ⟨hJ, hl, hv, -⟩ := hstore i v d h.1
        rw [hl, List.map_nil, List.append_nil]
        refine ⟨hJ, ?_⟩
        rw [show current data x (store i v d).2.1 (some ((store i v d).1, 2 + 1)) = v from hv]
        exact h.2
    | k + 3 => simp at hk
  begin h := h
  finish {v k d o} hk h := by
    obtain ⟨draw, print, store, hlist, -⟩ := hS.write x
    rw [hlist, List.getElem?_eq_none_iff] at hk
    have hk : k ≠ 2 := by
      simp only [List.length_cons, List.length_nil] at hk
      omega
    refine ⟨h.1, ?_⟩
    rw [show current data x d none = current data x d (some (v, k)) from (if_neg hk).symm]
    exact h.2

omit [DecidableEq T] [Fintype T] in
/-- An array of objects with a value and an index, which the lines `read` and `written` show. -/
theorem announces_of_fields {Obj : Type} {S : TryLightswitch T X (X → Obj) O} (value index : Obj → ℤ)
    (read written : ℤ → ℤ → O) (setCount setValue : Obj → ℤ → Obj)
    (hcount : ∀ y d c, S.setCount y d c = Function.update d y (setCount (d y) c))
    (hreading : ∀ y, S.reading y = [fun _ d => (d, [read (value (d y)) (index (d y))])])
    (hwriting : ∀ y, S.writing y = [fun rand _ d => (rand, d, []),
      fun _ v d => (v, d, [written v (index (d y))]),
      fun _ v d => (v, Function.update d y (setValue (d y) v), [])])
    (hcounted : ∀ o c, value (setCount o c) = value o ∧ index (setCount o c) = index o)
    (hvalued : ∀ o v, value (setValue o v) = v ∧ index (setValue o v) = index o)
    (hread : ∀ v i, access (read v i) = some (.read i v))
    (hwritten : ∀ v i, access (written v i) = some (.write i v)) :
    S.Announces (fun x d => value (d x)) name (fun d => ∀ x, index (d x) = name x) access where
  count {y d} c hJ := by
    rw [hcount]
    refine ⟨fun x => ?_, fun x => field_update value (hcounted _ _).1 x⟩
    rw [field_update index (hcounted _ _).2 x, hJ x]
  read {y st d} hst hJ i := by
    rw [hreading, List.mem_singleton] at hst
    subst hst
    exact ⟨rfl, _, rfl, by rw [hread, hJ y]⟩
  write y := by
    refine ⟨_, _, _, hwriting y, fun _ _ _ => rfl, fun i v d hJ => ⟨rfl, rfl, _, rfl, ?_⟩,
      fun i v d hJ => ⟨fun x => ?_, rfl, ?_, fun x hx => ?_⟩⟩
    · rw [hwritten, hJ y]
    · show index (Function.update d y (setValue (d y) v) x) = name x
      rw [field_update index (hvalued _ _).2 x, hJ x]
    · show value (Function.update d y (setValue (d y) v) y) = v
      rw [Function.update_self, (hvalued _ _).1]
    · show value (Function.update d y (setValue (d y) v) x) = value (d x)
      rw [Function.update_of_ne hx]

/-- The log of the accesses is coherent at every object, and while nobody writes an object it holds
what was announced last. -/
theorem coherent_of_announces (hS : S.Announces data name J access)
    (hname : Function.Injective name) {d₀ : D} (h₀ : J d₀)
    (hinv : ∀ s, Reachable (Step S.program) (S.program.init d₀) s → S.Inv x lim s)
    (h : Reachable (Step S.program) (S.program.init d₀) s) :
    Coherent (accessOf access) (name x) (data x d₀) s.out ∧
      (¬ HasWriter x s →
        data x s.data = lastWrite (accessOf access) (name x) (data x d₀) s.out) := by
  have hP := protected_of_reachable (hS.protects hname x (data x d₀)) ⟨h₀, holds_nil⟩ hinv h
  refine ⟨?_, fun hno => (hP.free hno).2.last.symm⟩
  by_cases hw : HasWriter x s
  · obtain ⟨t, ht⟩ := hw
    cases hp : placeOf s t with
    | writer y v k =>
        rw [hp] at ht
        obtain rfl := ht
        exact (hP.held t v k hp).2.coherent
    | _ =>
        rw [hp] at ht
        exact ht.elim
  · exact (hP.free hw).2.coherent

end Registers

end TryLightswitch

end Pthread
