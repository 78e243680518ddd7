import Mathlib.Data.List.Basic

/-!
# Interleavings of lists

`Merge parts l`: the list `l` interleaves the lists `parts i`, one for each source `i`, and keeps the
order of each of them.
-/

/-- The elements of `l` can be attributed to sources so that those of source `i`, in order, are
`parts i`. -/
def Merge {ι α : Type*} [DecidableEq ι] (parts : ι → List α) (l : List α) : Prop :=
  ∃ tagged : List (ι × α), tagged.map Prod.snd = l ∧
    ∀ i, (tagged.filter fun p => p.1 = i).map Prod.snd = parts i

namespace Merge

variable {ι α : Type*} [DecidableEq ι] {parts : ι → List α} {l : List α}

theorem nil : Merge (fun _ : ι => ([] : List α)) [] := ⟨[], rfl, fun _ => rfl⟩

/-- Source `i` adds `x` at the end. -/
theorem snoc (h : Merge parts l) (i : ι) (x : α) :
    Merge (Function.update parts i (parts i ++ [x])) (l ++ [x]) := by
  obtain ⟨tagged, hl, hparts⟩ := h
  refine ⟨tagged ++ [(i, x)], by simp [hl], fun j => ?_⟩
  rw [List.filter_append, List.map_append, hparts j]
  by_cases hj : j = i
  · simp [hj]
  · simp [hj, Ne.symm hj]

end Merge
