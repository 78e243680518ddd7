import Mathlib.Data.Int.ModEq
import Mathlib.Logic.Function.Basic

/-!
# Rings of cells

A ring of `n` cells stores a queue from a position `p` on: `Holds n cells p q` says that cell
`(p + k) % n` holds the `k`-th element of `q`.
-/

namespace Ring

variable {α : Type*} {n p : ℤ} {cells : ℤ → α} {q : List α}

/-- From position `p` on, the ring holds `q`. -/
def Holds (n : ℤ) (cells : ℤ → α) (p : ℤ) (q : List α) : Prop :=
  ∀ k : ℕ, ∀ h : k < q.length, cells ((p + k) % n) = q[k]

theorem holds_nil : Holds n cells p [] := nofun

/-- Positions less than one turn apart are different cells. -/
theorem add_emod_ne {j k : ℤ} (hjk : j < k) (hk : k < j + n) : (p + j) % n ≠ (p + k) % n := by
  intro h
  have hdvd : n ∣ k - j := by
    have h' : (p + j) ≡ (p + k) [ZMOD n] := h
    simpa using h'.dvd
  have := Int.le_of_dvd (by omega) hdvd
  omega

theorem Holds.push (h : Holds n cells p q) (hq : (q.length : ℤ) < n) (v : α) :
    Holds n (Function.update cells ((p + q.length) % n) v) p (q ++ [v]) := by
  intro k hk
  rw [List.length_append, List.length_singleton] at hk
  rcases Nat.lt_or_ge k q.length with hlt | hge
  · rw [Function.update_of_ne (add_emod_ne (by omega) (by omega)), h k hlt,
      List.getElem_append_left hlt]
  · obtain rfl : k = q.length := by omega
    simp

theorem Holds.head {v : α} (h : Holds n cells p (v :: q)) : cells (p % n) = v := by
  simpa using h 0 (Nat.zero_lt_succ _)

theorem Holds.pop {v : α} (h : Holds n cells p (v :: q)) : Holds n cells ((p + 1) % n) q := by
  intro k hk
  have := h (k + 1) (Nat.succ_lt_succ hk)
  rw [List.getElem_cons_succ] at this
  have hp : p + 1 + (k : ℤ) = p + ((k + 1 : ℕ) : ℤ) := by omega
  rw [Int.emod_add_emod, hp, this]

end Ring
