import SystemsProgramming.Library.Memory
import Mathlib.Data.List.Induction
import Mathlib.Order.Bounds.Basic

/-!
# Rings with a terminator

A ring with a terminator is a block whose last cell always holds the same value; values are put
into the other cells in turn.  The ring can be moved to a block of another length.  Each cell holds
the last value that was put there, and the string before the first terminator survives a move as
far as it fits.  Rings whose cells stand in a relation stay so under every operation.
-/

/-- A block of at least two cells, the last of which holds `z`, and a position before that cell. -/
@[ext]
structure TerminatedRing {α : Type*} (z : α) where
  cells : List α
  pos : ℕ
  pos_lt : pos + 1 < cells.length
  last : cells[cells.length - 1]? = some z

namespace TerminatedRing

variable {α : Type*} {z : α}

theorem two_le (r : TerminatedRing z) : 2 ≤ r.cells.length := by
  have := r.pos_lt
  omega

/-- The terminator is in the block. -/
theorem mem_cells (r : TerminatedRing z) : z ∈ r.cells := List.mem_of_getElem? r.last

/-- The current cell gets the value `a`. -/
def mark (r : TerminatedRing z) (a : α) : TerminatedRing z where
  cells := r.cells.set r.pos a
  pos := r.pos
  pos_lt := by
    rw [List.length_set]
    exact r.pos_lt
  last := by
    have := r.pos_lt
    rw [List.length_set, List.getElem?_set_ne (by omega)]
    exact r.last

/-- The value `a` goes to the current position, and the position moves on. -/
def put (r : TerminatedRing z) (a : α) : TerminatedRing z where
  cells := (r.mark a).cells
  pos := (r.pos + 1) % (r.cells.length - 1)
  pos_lt := by
    have hlt := Nat.mod_lt (r.pos + 1) (Nat.sub_pos_of_lt r.two_le)
    have hlength : (r.mark a).cells.length = r.cells.length := List.length_set
    omega
  last := (r.mark a).last

@[simp] theorem length_mark (r : TerminatedRing z) (a : α) :
    (r.mark a).cells.length = r.cells.length := List.length_set

@[simp] theorem length_put (r : TerminatedRing z) (a : α) :
    (r.put a).cells.length = r.cells.length := List.length_set

/-- The cells of the ring, as far as they fit, and the rest of the block. -/
def moved (r : TerminatedRing z) (block : List α) : List α :=
  r.cells.take block.length ++ block.drop r.cells.length

@[simp] theorem length_moved (r : TerminatedRing z) (block : List α) :
    (r.moved block).length = block.length := by
  unfold moved
  rw [List.length_append, List.length_take, List.length_drop]
  omega

/-- The ring moves to another block. -/
def resize (r : TerminatedRing z) (block : List α) (h : 2 ≤ block.length) : TerminatedRing z where
  cells := (r.moved block).set (block.length - 1) z
  pos := r.pos % (block.length - 1)
  pos_lt := by
    have := Nat.mod_lt r.pos (Nat.sub_pos_of_lt h)
    rw [List.length_set, length_moved]
    omega
  last := by
    have hlt : block.length - 1 < (r.moved block).length := by
      rw [length_moved]
      omega
    rw [List.length_set, length_moved, List.getElem?_set_self hlt]

@[simp] theorem length_resize (r : TerminatedRing z) (block : List α) (h : 2 ≤ block.length) :
    (r.resize block h).cells.length = block.length := by
  show ((r.moved block).set _ _).length = _
  rw [List.length_set, length_moved]

/-! ### Sequences of values -/

/-- The values go into the ring one after the other. -/
def putAll (r : TerminatedRing z) (s : List α) : TerminatedRing z := s.foldl put r

theorem putAll_concat (r : TerminatedRing z) (s : List α) (a : α) :
    r.putAll (s ++ [a]) = (r.putAll s).put a := List.foldl_concat ..

theorem putAll_append (r : TerminatedRing z) (s t : List α) :
    r.putAll (s ++ t) = (r.putAll s).putAll t := List.foldl_append

@[simp] theorem length_putAll (r : TerminatedRing z) (s : List α) :
    (r.putAll s).cells.length = r.cells.length := by
  induction s using List.reverseRecOn with
  | nil => rfl
  | append_singleton s a ih => rw [putAll_concat, length_put, ih]

theorem pos_putAll (r : TerminatedRing z) (s : List α) :
    (r.putAll s).pos = (r.pos + s.length) % (r.cells.length - 1) := by
  induction s using List.reverseRecOn with
  | nil => exact (Nat.mod_eq_of_lt (Nat.lt_sub_of_add_lt r.pos_lt)).symm
  | append_singleton s a ih =>
      rw [putAll_concat]
      show ((r.putAll s).pos + 1) % ((r.putAll s).cells.length - 1) = _
      rw [ih, length_putAll, Nat.mod_add_mod, List.length_append, List.length_singleton,
        Nat.add_assoc]

/-- After whole turns the position is where it was. -/
theorem pos_putAll_eq_iff (r : TerminatedRing z) (s : List α) :
    (r.putAll s).pos = r.pos ↔ r.cells.length - 1 ∣ s.length := by
  have hpos : r.pos % (r.cells.length - 1) = r.pos :=
    Nat.mod_eq_of_lt (Nat.lt_sub_of_add_lt r.pos_lt)
  rw [pos_putAll]
  constructor
  · intro h
    have hmod : r.pos + s.length ≡ r.pos + 0 [MOD r.cells.length - 1] := h.trans hpos.symm
    exact Nat.modEq_zero_iff_dvd.1 (Nat.ModEq.add_left_cancel' r.pos hmod)
  · intro h
    rw [Nat.add_mod, Nat.mod_eq_zero_of_dvd h, Nat.add_zero, Nat.mod_mod, hpos]

theorem getElem?_put_self (r : TerminatedRing z) (a : α) : (r.put a).cells[r.pos]? = some a :=
  List.getElem?_set_self (Nat.lt_of_succ_lt r.pos_lt)

theorem getElem?_put_of_ne (r : TerminatedRing z) (a : α) {j : ℕ} (h : j ≠ r.pos) :
    (r.put a).cells[j]? = r.cells[j]? := List.getElem?_set_ne h.symm

/-- A cell that gets no value keeps its own. -/
theorem getElem?_putAll_of_ne (r : TerminatedRing z) {s : List α} {j : ℕ}
    (h : ∀ k < s.length, (r.pos + k) % (r.cells.length - 1) ≠ j) :
    (r.putAll s).cells[j]? = r.cells[j]? := by
  induction s using List.reverseRecOn with
  | nil => rfl
  | append_singleton s a ih =>
      rw [List.length_append, List.length_singleton] at h
      have hne : j ≠ (r.putAll s).pos := by
        rw [pos_putAll]
        exact (h s.length (Nat.lt_succ_self _)).symm
      rw [putAll_concat, getElem?_put_of_ne _ _ hne]
      exact ih fun k hk => h k (Nat.lt_succ_of_lt hk)

/-- Any other cell holds the last value it got. -/
theorem getElem?_putAll_of_isGreatest (r : TerminatedRing z) {s : List α} {j k : ℕ}
    (h : IsGreatest {k | k < s.length ∧ (r.pos + k) % (r.cells.length - 1) = j} k) :
    (r.putAll s).cells[j]? = s[k]? := by
  induction s using List.reverseRecOn with
  | nil => exact absurd h.1.1 (Nat.not_lt_zero k)
  | append_singleton s a ih =>
      rw [List.length_append, List.length_singleton] at h
      obtain ⟨⟨hk, hj⟩, hmax⟩ := h
      rw [putAll_concat]
      rcases Nat.lt_succ_iff_lt_or_eq.1 hk with hlt | rfl
      · -- the last value goes to another cell
        have hne : j ≠ (r.putAll s).pos := by
          rw [pos_putAll]
          intro h
          have := hmax ⟨Nat.lt_succ_self _, h.symm⟩
          omega
        rw [getElem?_put_of_ne _ _ hne, List.getElem?_append_left hlt]
        exact ih ⟨⟨hlt, hj⟩, fun k' hk' => hmax ⟨Nat.lt_succ_of_lt hk'.1, hk'.2⟩⟩
      · have hpos : (r.putAll s).pos = j := by rw [pos_putAll, hj]
        rw [← hpos, getElem?_put_self, List.getElem?_concat_length]

/-- The last of the values that go to a cell that gets any. -/
theorem exists_isGreatest (r : TerminatedRing z) {s : List α} {j k : ℕ} (hk : k < s.length)
    (hj : (r.pos + k) % (r.cells.length - 1) = j) :
    ∃ k, IsGreatest {k | k < s.length ∧ (r.pos + k) % (r.cells.length - 1) = j} k := by
  let P := fun k => k < s.length ∧ (r.pos + k) % (r.cells.length - 1) = j
  refine ⟨Nat.findGreatest P s.length, Nat.findGreatest_spec (P := P) hk.le ⟨hk, hj⟩, ?_⟩
  intro k' hk'
  exact Nat.le_findGreatest (P := P) hk'.1.le hk'

/-- It is one of the last turn. -/
theorem isGreatest_iff (r : TerminatedRing z) {s : List α} {j k : ℕ} :
    IsGreatest {k | k < s.length ∧ (r.pos + k) % (r.cells.length - 1) = j} k ↔
      k < s.length ∧ s.length ≤ k + (r.cells.length - 1) ∧
        (r.pos + k) % (r.cells.length - 1) = j := by
  have htwo := r.two_le
  constructor
  · rintro ⟨⟨hk, hj⟩, hmax⟩
    refine ⟨hk, ?_, hj⟩
    by_contra hlt
    have hnext : (r.pos + (k + (r.cells.length - 1))) % (r.cells.length - 1) = j := by
      rw [← Nat.add_assoc, Nat.add_mod_right, hj]
    have := hmax ⟨Nat.not_le.1 hlt, hnext⟩
    omega
  · rintro ⟨hk, hturn, hj⟩
    refine ⟨⟨hk, hj⟩, ?_⟩
    rintro k' ⟨hk', hj'⟩
    by_contra hlt
    have hmod : r.pos + k ≡ r.pos + k' [MOD r.cells.length - 1] := hj.trans hj'.symm
    have hdvd := (Nat.modEq_iff_dvd' (by omega)).1 (Nat.ModEq.add_left_cancel' r.pos hmod)
    have hle := Nat.le_of_dvd (by omega) hdvd
    omega

/-- Values that go round a ring leave the cells as they are exactly when the values of the last
turn are there. -/
theorem cells_putAll_eq_iff (r : TerminatedRing z) (s : List α) :
    (r.putAll s).cells = r.cells ↔ ∀ k < s.length, s.length ≤ k + (r.cells.length - 1) →
      s[k]? = r.cells[(r.pos + k) % (r.cells.length - 1)]? := by
  constructor
  · intro h k hk hturn
    rw [← r.getElem?_putAll_of_isGreatest (r.isGreatest_iff.2 ⟨hk, hturn, rfl⟩), h]
  · intro h
    apply List.ext_getElem?
    intro j
    by_cases hj : ∃ k < s.length, (r.pos + k) % (r.cells.length - 1) = j
    · obtain ⟨k₀, hk₀, hcell⟩ := hj
      obtain ⟨k, hgreatest⟩ := r.exists_isGreatest hk₀ hcell
      obtain ⟨hk, hturn, rfl⟩ := r.isGreatest_iff.1 hgreatest
      rw [r.getElem?_putAll_of_isGreatest hgreatest, h k hk hturn]
    · apply r.getElem?_putAll_of_ne
      intro k hk hcell
      exact hj ⟨k, hk, hcell⟩

theorem getElem?_putAll_last (r : TerminatedRing z) (s : List α) :
    (r.putAll s).cells[r.cells.length - 1]? = some z := by
  rw [← length_putAll r s]
  exact (r.putAll s).last

/-! ### The string -/

section String

variable [DecidableEq α]

/-- The values before the first terminator. -/
def string (r : TerminatedRing z) : List α := r.cells.takeWhile (· ≠ z)

/-- A terminator ends what comes before it. -/
theorem takeWhile_eq_of_getElem? {l : List α} {i : ℕ} (h : l[i]? = some z) :
    l.takeWhile (· ≠ z) = (l.take i).takeWhile (· ≠ z) := by
  induction l generalizing i with
  | nil => cases h
  | cons a l ih =>
      cases i with
      | zero =>
          rw [List.getElem?_cons_zero, Option.some.injEq] at h
          simp [h]
      | succ i =>
          rw [List.getElem?_cons_succ] at h
          rw [List.take_succ_cons, List.takeWhile_cons, List.takeWhile_cons, ih h]

/-- The string survives a move as far as it fits before the new terminator. -/
theorem string_resize (r : TerminatedRing z) (block : List α) (h : 2 ≤ block.length) :
    (r.resize block h).string = r.string.take (block.length - 1) := by
  have hcells : (r.resize block h).string =
      ((r.moved block).take (block.length - 1)).takeWhile (· ≠ z) := by
    have hlast := (r.resize block h).last
    rw [length_resize] at hlast
    unfold string
    rw [takeWhile_eq_of_getElem? hlast]
    show (((r.moved block).set (block.length - 1) z).take (block.length - 1)).takeWhile _ = _
    rw [List.take_set_of_le (le_refl _)]
  rw [hcells]
  unfold moved string
  rw [List.take_takeWhile]
  rcases Nat.lt_or_ge (block.length - 1) r.cells.length with hlt | hge
  · -- the new terminator is inside the cells that were copied
    rw [List.take_append_of_le_length (by rw [List.length_take]; omega), List.take_take,
      Nat.min_eq_left (Nat.sub_le _ _)]
  · have hlast : (r.cells ++ (block.drop r.cells.length))[r.cells.length - 1]? = some z := by
      have := r.two_le
      rw [List.getElem?_append_left (by omega)]
      exact r.last
    rw [List.take_of_length_le (show r.cells.length ≤ block.length by omega),
      ← List.take_takeWhile, takeWhile_eq_of_getElem? hlast,
      List.take_append_of_le_length (Nat.sub_le _ _), ← takeWhile_eq_of_getElem? r.last,
      List.take_takeWhile]

end String

/-! ### Two rings -/

section Related

variable {β : Type*} {w : β} {R : α → β → Prop}

/-- The rings have the same position, and related cells. -/
def Related (R : α → β → Prop) (r : TerminatedRing z) (r' : TerminatedRing w) : Prop :=
  r.pos = r'.pos ∧ List.Forall₂ R r.cells r'.cells

variable {r : TerminatedRing z} {r' : TerminatedRing w}

theorem Related.length_eq (h : Related R r r') : r.cells.length = r'.cells.length := h.2.length_eq

theorem Related.mark (h : Related R r r') {a : α} {b : β} (hab : R a b) :
    Related R (r.mark a) (r'.mark b) := by
  refine ⟨h.1, ?_⟩
  show List.Forall₂ R (r.cells.set r.pos a) (r'.cells.set r'.pos b)
  rw [h.1]
  exact Memory.forall₂_set h.2 _ hab

theorem Related.put (h : Related R r r') {a : α} {b : β} (hab : R a b) :
    Related R (r.put a) (r'.put b) := by
  refine ⟨?_, (h.mark hab).2⟩
  show (r.pos + 1) % (r.cells.length - 1) = (r'.pos + 1) % (r'.cells.length - 1)
  rw [h.1, h.length_eq]

theorem Related.resize (h : Related R r r') {block : List α} {block' : List β}
    (hblock : List.Forall₂ R block block') (hz : R z w) (hsize : 2 ≤ block.length)
    (hsize' : 2 ≤ block'.length) :
    Related R (r.resize block hsize) (r'.resize block' hsize') := by
  have hlength := hblock.length_eq
  have hmoved : List.Forall₂ R (r.moved block) (r'.moved block') := by
    unfold moved
    rw [hlength, h.length_eq]
    exact List.rel_append (List.forall₂_take _ h.2) (List.forall₂_drop _ hblock)
  refine ⟨?_, ?_⟩
  · show r.pos % (block.length - 1) = r'.pos % (block'.length - 1)
    rw [h.1, hlength]
  · show List.Forall₂ R ((r.moved block).set _ _) ((r'.moved block').set _ _)
    rw [hlength]
    exact Memory.forall₂_set hmoved _ hz

end Related

end TerminatedRing
