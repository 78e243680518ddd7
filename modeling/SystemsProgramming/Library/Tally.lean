import Mathlib.Algebra.BigOperators.Group.Finset.Piecewise
import Mathlib.Algebra.Order.BigOperators.Group.Finset
import Mathlib.Data.Fintype.Basic
import Mathlib.Data.Set.Card

/-!
# Sums over processes

`tally g f` is the sum of `g (f c)` over the processes `c`, where `f c` says where process `c` is.
When one process moves, the sum changes by its share.
-/

/-- The sum of the shares of all processes. -/
def tally {C K : Type*} [Fintype C] (g : K → ℕ) (f : C → K) : ℕ := ∑ c, g (f c)

section Tally

variable {C K : Type*} [Fintype C] {g : K → ℕ} {f : C → K} {c : C}

theorem tally_const {k : K} (hg : g k = 0) : tally g (fun _ : C => k) = 0 := by
  simp [tally, hg]

theorem tally_eq_zero_iff : tally g f = 0 ↔ ∀ c, g (f c) = 0 := by
  simp [tally, Finset.sum_eq_zero_iff]

/-- Processes with share 1 or 0 are counted. -/
theorem tally_eq_ncard {p : C → Prop} (h₁ : ∀ c, p c → g (f c) = 1) (h₀ : ∀ c, ¬ p c → g (f c) = 0) :
    tally g f = {c | p c}.ncard := by
  classical
  have hsum : tally g f = ∑ c, if p c then 1 else 0 := by
    refine Finset.sum_congr rfl fun c _ => ?_
    by_cases hc : p c
    · rw [if_pos hc, h₁ c hc]
    · rw [if_neg hc, h₀ c hc]
  rw [hsum, ← Finset.card_filter, Set.ncard_eq_toFinset_card', Set.toFinset_ofPred]

variable [DecidableEq C]

theorem tally_erase (c : C) : tally g f = g (f c) + ∑ d ∈ Finset.univ.erase c, g (f d) :=
  (Finset.add_sum_erase _ _ (Finset.mem_univ c)).symm

/-- Process `c` moves to `k`. -/
theorem tally_update (c : C) (k : K) :
    tally g (Function.update f c k) + g (f c) = tally g f + g k := by
  have hrest : ∑ d ∈ Finset.univ.erase c, g (Function.update f c k d) =
      ∑ d ∈ Finset.univ.erase c, g (f d) :=
    Finset.sum_congr rfl fun d hd => by rw [Function.update_of_ne (Finset.ne_of_mem_erase hd)]
  rw [tally_erase c, tally_erase (f := f) c, hrest, Function.update_self]
  omega

end Tally
