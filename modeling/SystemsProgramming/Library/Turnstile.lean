import SystemsProgramming.Library.Tally

/-!
# Counting in and out of a room

Readers count themselves in and out at a door that one of them holds at a time.  Away from the door
a reader is counted exactly when it is inside the room, so whoever holds the door learns from the
counter whether somebody else is inside (`Consistent.held_iff`).  The room is held for the readers
as long as one of them is inside.  The rules `acquire`, `within`, `pass` and `outside` are the moves
of one reader.
-/

/-- What the places `P` of a reader mean. -/
structure Turnstile (P : Type) where
  /-- the reader holds the door -/
  door : P → Bool
  /-- the reader is counted -/
  counted : P → Bool
  /-- the readers hold the room while one of them is here -/
  inside : P → Bool
  /-- what the reader knows of the counter -/
  knows : P → ℤ → Prop
  counted_eq : ∀ p, door p = false → counted p = inside p
  knows_of : ∀ p c, door p = false → knows p c

namespace Turnstile

variable {P R : Type} (K : Turnstile P) [Fintype R]

/-- The number of counted readers. -/
def countedSum (place : R → P) : ℕ := tally (fun p => (K.counted p).toNat) place

/-- The places of the readers fit the owner of the door, the state of the room and the counter. -/
structure Consistent (place : R → P) (owner : Option R) (held : Prop) (c : ℤ) : Prop where
  door : ∀ r, owner = some r ↔ K.door (place r) = true
  count : c = K.countedSum place
  room : held ↔ ∃ r, K.inside (place r) = true
  knows : ∀ r, K.knows (place r) c

variable {K} {place : R → P} {owner : Option R} {held : Prop} {c : ℤ} {r u : R} {p : P}

/-- All readers away. -/
theorem Consistent.init {p : P} (hd : K.door p = false) (hi : K.inside p = false) :
    K.Consistent (fun _ : R => p) none False 0 where
  door _ := by simp [hd]
  count := by rw [countedSum, tally_const (by rw [K.counted_eq p hd, hi]; rfl)]; rfl
  room := by simp [hi]
  knows _ := K.knows_of p 0 hd

variable [DecidableEq R]

namespace Consistent

theorem countedSum_eq (h : K.Consistent place owner held c) {c' : ℤ}
    (hc : c' + (K.counted (place r)).toNat = c + (K.counted p).toNat) :
    c' = K.countedSum (Function.update place r p) := by
  have hsum := tally_update (g := fun p => (K.counted p).toNat) (f := place) r p
  have hcount := h.count
  unfold countedSum at hcount ⊢
  omega

omit [DecidableEq R] in
theorem door_unique (h : K.Consistent place owner held c) (hr : K.door (place r) = true)
    (hu : K.door (place u) = true) : u = r := by
  have hr := (h.door r).2 hr
  rw [(h.door u).2 hu] at hr
  exact Option.some.inj hr

omit [DecidableEq R] in
theorem door_of_ne (h : K.Consistent place owner held c) (hr : K.door (place r) = true)
    (hur : u ≠ r) : K.door (place u) = false := by
  by_contra hu
  exact hur (h.door_unique hr (by simpa using hu))

/-- The one at the door sees from the counter whether another reader is inside. -/
theorem others_inside_iff (h : K.Consistent place owner held c) (hr : K.door (place r) = true) :
    (∃ u, u ≠ r ∧ K.inside (place u) = true) ↔ c ≠ (K.counted (place r)).toNat := by
  have hcount := h.count
  rw [countedSum, tally_erase r] at hcount
  have hzero : ∑ u ∈ Finset.univ.erase r, (K.counted (place u)).toNat = 0 ↔
      ∀ u, u ≠ r → K.inside (place u) = false := by
    rw [Finset.sum_eq_zero_iff]
    refine forall_congr' fun u => ?_
    constructor
    · intro hu hne
      rw [← K.counted_eq _ (h.door_of_ne hr hne)]
      simpa [hne] using hu
    · intro hu hmem
      have hne := Finset.ne_of_mem_erase hmem
      rw [K.counted_eq _ (h.door_of_ne hr hne), hu hne]
      rfl
  constructor
  · rintro ⟨u, hne, hin⟩ hc
    have := hzero.1 (by omega) u hne
    rw [hin] at this
    cases this
  · intro hc
    by_contra hno
    push Not at hno
    have := hzero.2 fun u hne => by simpa using hno u hne
    omega

/-- It is alone inside if the counter shows nobody else. -/
theorem alone (h : K.Consistent place owner held c) {q : P} (hq : place r = q) (hr : K.door q = true)
    (hc : c = (K.counted q).toNat) (hu : K.inside (place u) = true) : u = r := by
  subst hq
  by_contra hne
  exact (h.others_inside_iff hr).1 ⟨u, hne, hu⟩ hc

omit [Fintype R] in
theorem inside_iff (r : R) : (∃ u, K.inside (place u) = true) ↔
    K.inside (place r) = true ∨ ∃ u, u ≠ r ∧ K.inside (place u) = true := by
  constructor
  · rintro ⟨u, hu⟩
    by_cases hur : u = r
    · exact Or.inl (hur ▸ hu)
    · exact Or.inr ⟨u, hur, hu⟩
  · rintro (hr | ⟨u, -, hu⟩)
    · exact ⟨r, hr⟩
    · exact ⟨u, hu⟩

omit [Fintype R] in
theorem inside_update_iff (r : R) : (∃ u, K.inside (Function.update place r p u) = true) ↔
    K.inside p = true ∨ ∃ u, u ≠ r ∧ K.inside (place u) = true := by
  rw [inside_iff r, Function.update_self]
  refine or_congr Iff.rfl (exists_congr fun u => and_congr_right fun hu => ?_)
  rw [Function.update_of_ne hu]

omit [DecidableEq R] in
/-- What a reader at place `q` knows. -/
theorem knows_at (h : K.Consistent place owner held c) {q : P} (hq : place r = q) : K.knows q c := by
  rw [← hq]
  exact h.knows r

/-- The one at the door sees from the counter whether the room is held. -/
theorem held_iff (h : K.Consistent place owner held c) {q : P} (hq : place r = q)
    (hr : K.door q = true) : held ↔ K.inside q = true ∨ c ≠ (K.counted q).toNat := by
  subst hq
  rw [h.room, inside_iff r, h.others_inside_iff hr]

/-! ### Moves -/

/-- A move that changes neither the counter nor the room. -/
theorem move (h : K.Consistent place owner held c) {owner' : Option R}
    (hdoor : ∀ u, owner' = some u ↔ K.door (Function.update place r p u) = true)
    (hcount : K.counted (place r) = K.counted p) (hin : K.inside (place r) = K.inside p)
    (hknows : K.knows p c) : K.Consistent (Function.update place r p) owner' held c where
  door := hdoor
  count := h.countedSum_eq (by rw [hcount])
  room := by rw [h.room, inside_iff r, inside_update_iff, hin]
  knows := (Function.forall_update_iff place fun _ p => K.knows p c).2 ⟨hknows, fun u _ => h.knows u⟩

variable {q : P}

/-- Locking the door. -/
theorem acquire (h : K.Consistent place none held c) (hq : place r = q) (hp : K.door p = true)
    (hcount : K.counted q = K.counted p) (hin : K.inside q = K.inside p) (hknows : K.knows p c) :
    K.Consistent (Function.update place r p) (some r) held c := by
  subst hq
  refine h.move (fun u => ?_) hcount hin hknows
  by_cases hu : u = r
  · simp [hu, hp]
  · rw [Function.update_of_ne hu, ← h.door u]
    simp [Ne.symm hu]

/-- Unlocking the door. -/
theorem pass (h : K.Consistent place owner held c) (hq : place r = q) (hr : K.door q = true)
    (hp : K.door p = false) (hcount : K.counted q = K.counted p)
    (hin : K.inside q = K.inside p) : K.Consistent (Function.update place r p) none held c := by
  subst hq
  refine h.move (fun u => ?_) hcount hin (K.knows_of p c hp)
  by_cases hu : u = r
  · simp [hu, hp]
  · rw [Function.update_of_ne hu, h.door_of_ne hr hu]
    simp

/-- Moving away from the door. -/
theorem outside (h : K.Consistent place owner held c) (hq : place r = q) (hr : K.door q = false)
    (hp : K.door p = false) (hin : K.inside q = K.inside p) :
    K.Consistent (Function.update place r p) owner held c := by
  subst hq
  refine h.move (fun u => ?_) ?_ hin (K.knows_of p c hp)
  · by_cases hu : u = r
    · rw [h.door u, hu, Function.update_self, hr, hp]
    · rw [Function.update_of_ne hu, h.door u]
  · rw [K.counted_eq _ hr, K.counted_eq _ hp, hin]

/-- A step of the one at the door, who may change the counter and the room. -/
theorem within (h : K.Consistent place owner held c) {held' : Prop} {c' : ℤ} (hq : place r = q)
    (hr : K.door q = true) (hp : K.door p = true)
    (hcount : c' + (K.counted q).toNat = c + (K.counted p).toNat)
    (hroom : held' ↔ K.inside p = true ∨ c ≠ (K.counted q).toNat) (hknows : K.knows p c') :
    K.Consistent (Function.update place r p) owner held' c' := by
  subst hq
  refine ⟨fun u => ?_, h.countedSum_eq hcount, ?_, ?_⟩
  · by_cases hu : u = r
    · rw [h.door u, hu, Function.update_self, hr, hp]
    · rw [Function.update_of_ne hu, h.door u]
  · rw [hroom, inside_update_iff, h.others_inside_iff hr]
  · exact (Function.forall_update_iff place fun _ p => K.knows p c').2
      ⟨hknows, fun _ hu => K.knows_of _ _ (h.door_of_ne hr hu)⟩

end Consistent

end Turnstile
