import Mathlib.Data.List.GetD
import Mathlib.Data.UInt
import Mathlib.Logic.Function.Basic
import Mathlib.Order.Interval.Set.Defs

/-!
# The memory of a user process

Bytes by address, some of which a kernel can write.  `copyToUser` writes the bytes up to the first
address that it cannot write.  The file says which bytes a copy leaves where, and which it does not
touch.
-/

/-- The bytes, and where the kernel can write. -/
structure UserMemory where
  bytes : ℕ → UInt8
  writable : ℕ → Bool

namespace UserMemory

/-- `copy_to_user`, with the number of bytes that it could not copy. -/
def copyToUser (m : UserMemory) (dst : ℕ) : List UInt8 → UserMemory × ℕ
  | [] => (m, 0)
  | b :: src =>
    if m.writable dst then
      copyToUser { m with bytes := Function.update m.bytes dst b } (dst + 1) src
    else (m, src.length + 1)

/-- The memory with `src` at `dst`. -/
def write (m : UserMemory) (dst : ℕ) (src : List UInt8) : UserMemory where
  bytes a := if dst ≤ a then src.getD (a - dst) (m.bytes a) else m.bytes a
  writable := m.writable

/-- The bytes from `a` up to the first NUL are `s`. -/
def StringAt (m : UserMemory) (a : ℕ) (s : List UInt8) : Prop :=
  0 ∉ s ∧ (∀ i (h : i < s.length), m.bytes (a + i) = s[i]) ∧ m.bytes (a + s.length) = 0

variable {m : UserMemory} {dst a : ℕ} {src : List UInt8}

@[simp] theorem write_writable : (m.write dst src).writable = m.writable := rfl

/-- A copy does not touch what is outside its destination. -/
theorem write_bytes_of_notMem (h : a ∉ Set.Ico dst (dst + src.length)) :
    (m.write dst src).bytes a = m.bytes a := by
  unfold write
  dsimp only
  by_cases hle : dst ≤ a
  · have hge : src.length ≤ a - dst := by
      by_contra hlt
      exact h ⟨hle, by omega⟩
    rw [if_pos hle, List.getD_eq_default _ _ hge]
  · rw [if_neg hle]

theorem write_bytes_add {i : ℕ} (h : i < src.length) :
    (m.write dst src).bytes (dst + i) = src[i] := by
  unfold write
  dsimp only
  rw [if_pos (Nat.le_add_right ..), Nat.add_sub_cancel_left, List.getD_eq_getElem _ _ h]

theorem write_bytes_congr {m' : UserMemory} (h : m.bytes a = m'.bytes a) :
    (m.write dst src).bytes a = (m'.write dst src).bytes a := by
  unfold write
  dsimp only
  rw [h]

/-- A copy to memory that can be written is complete. -/
theorem copyToUser_eq (h : ∀ a ∈ Set.Ico dst (dst + src.length), m.writable a = true) :
    m.copyToUser dst src = (m.write dst src, 0) := by
  induction src generalizing m dst with
  | nil =>
      unfold copyToUser write
      simp
  | cons b src ih =>
      have hfirst : m.writable dst = true := h dst ⟨le_rfl, by simp⟩
      have hrest : ∀ a ∈ Set.Ico (dst + 1) (dst + 1 + src.length), m.writable a = true := by
        rintro a ⟨hle, hlt⟩
        apply h a
        rw [List.length_cons]
        exact ⟨by omega, by omega⟩
      have hcopy := @ih { m with bytes := Function.update m.bytes dst b } (dst + 1) hrest
      rw [copyToUser, if_pos hfirst, hcopy]
      congr 1
      unfold write
      congr 1
      funext a
      dsimp only
      by_cases hlt : dst < a
      · obtain ⟨k, rfl⟩ := Nat.exists_eq_add_of_lt hlt
        rw [if_pos (by omega), if_pos (by omega), Function.update_of_ne (by omega)]
        rw [show dst + k + 1 - (dst + 1) = k by omega, show dst + k + 1 - dst = k + 1 by omega]
        rfl
      · rw [if_neg (by omega)]
        by_cases heq : a = dst
        · subst heq
          simp
        · rw [Function.update_of_ne heq, if_neg (by omega)]

/-- A copied string is a string of the user exactly when the byte behind it is zero already. -/
theorem stringAt_write_iff (h : 0 ∉ src) :
    (m.write dst src).StringAt dst src ↔ m.bytes (dst + src.length) = 0 := by
  have hafter : (m.write dst src).bytes (dst + src.length) = m.bytes (dst + src.length) :=
    write_bytes_of_notMem fun hmem => Nat.lt_irrefl _ hmem.2
  unfold StringAt
  rw [hafter]
  constructor
  · exact fun hstring => hstring.2.2
  · exact fun hzero => ⟨h, fun i hi => write_bytes_add hi, hzero⟩

end UserMemory
