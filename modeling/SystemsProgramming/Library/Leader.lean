import Mathlib.Algebra.BigOperators.Group.List.Basic
import Mathlib.Algebra.Order.BigOperators.Group.List
import Mathlib.Data.List.Basic

/-!
# The key with the largest total

Entries have a key and a weight.  Someone reads them one after the other, keeps the total of each
key, and a leader with its score: whenever a total exceeds the score, its key takes the lead.  Then
the score is the largest total at any time, whatever the order of the entries (`Leads`), and the leader
is the first key to reach it (`First`).
-/

namespace Leader

variable {α κ M : Type*} [DecidableEq κ] (key : α → κ)

/-- The weights of the entries with key `k`, together. -/
def total [AddCommMonoid M] (weight : α → M) (l : List α) (k : κ) : M :=
  ((l.filter fun a => key a = k).map weight).sum

section Total

variable [AddCommMonoid M] (weight : α → M)

theorem total_nil (k : κ) : total key weight [] k = 0 := rfl

theorem total_append (l l' : List α) (k : κ) :
    total key weight (l ++ l') k = total key weight l k + total key weight l' k := by
  unfold total
  rw [List.filter_append, List.map_append, List.sum_append]

theorem total_concat (l : List α) (a : α) :
    total key weight (l ++ [a]) =
      Function.update (total key weight l) (key a) (total key weight l (key a) + weight a) := by
  funext k
  rw [total_append]
  by_cases h : k = key a
  · subst h
    rw [Function.update_self]
    simp [total]
  · rw [Function.update_of_ne h]
    simp [total, Ne.symm h]

/-- With weights `1` the entries are counted. -/
theorem total_one (l : List α) (k : κ) :
    total key (fun _ => 1) l k = l.countP fun a => key a = k := by
  unfold total
  rw [List.map_const', List.sum_replicate, List.countP_eq_length_filter]
  exact Nat.mul_one _

/-- Whoever has a total has an entry. -/
theorem exists_of_total_ne_zero {l : List α} {k : κ} (h : total key weight l k ≠ 0) :
    ∃ a ∈ l, key a = k := by
  by_contra hnone
  simp only [not_exists, not_and] at hnone
  apply h
  unfold total
  rw [List.filter_eq_nil_iff.2 fun a ha => by simpa using hnone a ha]
  rfl

theorem total_eq_zero {l : List α} (h : ∀ a ∈ l, weight a = 0) (k : κ) :
    total key weight l k = 0 := by
  unfold total
  apply List.sum_eq_zero
  intro x hx
  obtain ⟨a, ha, rfl⟩ := List.mem_map.1 hx
  exact h a (List.mem_of_mem_filter ha)

end Total

/-! ### Leaders -/

section Leads

variable [AddCommMonoid M] [LinearOrder M] [CanonicallyOrderedAdd M] {weight : α → M}

/-- `best` leads with `score`; before anyone has scored, the leader is `start`. -/
structure Leads (weight : α → M) (start : κ) (l : List α) (best : κ) (score : M) : Prop where
  le_score : ∀ k, total key weight l k ≤ score
  eq_score : (score = 0 ∧ best = start) ∨ (0 < score ∧ total key weight l best = score)

variable {key} {start best : κ} {l : List α} {score : M} {a : α}

omit [CanonicallyOrderedAdd M] in
theorem Leads.nil : Leads key weight start [] start 0 :=
  ⟨fun _ => le_rfl, Or.inl ⟨rfl, rfl⟩⟩

/-- The key of the next entry takes the lead. -/
theorem Leads.overtake (h : Leads key weight start l best score)
    (hlt : score < total key weight l (key a) + weight a) :
    Leads key weight start (l ++ [a]) (key a) (total key weight l (key a) + weight a) := by
  constructor
  · intro k
    rw [total_concat]
    by_cases hk : k = key a
    · rw [hk, Function.update_self]
    · rw [Function.update_of_ne hk]
      exact (h.le_score k).trans hlt.le
  · right
    rw [total_concat, Function.update_self]
    exact ⟨zero_le.trans_lt hlt, rfl⟩

/-- The next entry does not change the lead. -/
theorem Leads.keep (h : Leads key weight start l best score)
    (hle : total key weight l (key a) + weight a ≤ score) :
    Leads key weight start (l ++ [a]) best score := by
  constructor
  · intro k
    rw [total_concat]
    by_cases hk : k = key a
    · rwa [hk, Function.update_self]
    · rw [Function.update_of_ne hk]
      exact h.le_score k
  · rcases h.eq_score with hstart | ⟨hpos, heq⟩
    · exact Or.inl hstart
    · refine Or.inr ⟨hpos, ?_⟩
      rw [total_concat]
      by_cases hk : best = key a
      · -- the leader's own entry can only have weight zero
        rw [hk, Function.update_self]
        apply le_antisymm hle
        rw [← heq, hk]
        exact le_self_add
      · rw [Function.update_of_ne hk, heq]

theorem Leads.total_le (h : Leads key weight start l best score) (k : κ) :
    total key weight l k ≤ total key weight l best := by
  rcases h.eq_score with ⟨hzero, -⟩ | ⟨-, heq⟩
  · exact ((h.le_score k).trans hzero.le).trans zero_le
  · exact (h.le_score k).trans heq.ge

/-- The leader is the key of an entry, once an entry has a weight. -/
theorem Leads.exists_entry (h : Leads key weight start l best score)
    (hpos : ∃ a ∈ l, weight a ≠ 0) : ∃ a ∈ l, key a = best := by
  obtain ⟨a, ha, hne⟩ := hpos
  have hle : weight a ≤ total key weight l (key a) := by
    unfold total
    apply List.le_sum_of_mem
    exact List.mem_map_of_mem (List.mem_filter.2 ⟨ha, by simp⟩)
  have hscore : score ≠ 0 := fun hzero =>
    hne (le_antisymm ((hle.trans (h.le_score _)).trans hzero.le) zero_le)
  obtain ⟨hpos, heq⟩ := h.eq_score.resolve_left fun hstart => hscore hstart.1
  exact exists_of_total_ne_zero key weight (heq.trans_ne hscore)

omit [CanonicallyOrderedAdd M] in
/-- As long as no entry has a weight the leader is `start`. -/
theorem Leads.eq_start (h : Leads key weight start l best score) (hzero : ∀ a ∈ l, weight a = 0) :
    best = start := by
  rcases h.eq_score with ⟨-, hstart⟩ | ⟨hpos, heq⟩
  · exact hstart
  · exact absurd (heq.symm.trans (total_eq_zero key weight hzero best)) hpos.ne'

end Leads

/-! ### Ties -/

section First

variable [AddCommMonoid M] [LinearOrder M] {weight : α → M}

/-- `k` is the first key to reach the largest total. -/
def First (weight : α → M) (l : List α) (k : κ) : Prop :=
  ∃ l₁, l₁ <+: l ∧ (∀ k', total key weight l k' ≤ total key weight l₁ k) ∧
    ∀ k' ≠ k, total key weight l₁ k' < total key weight l₁ k

/-- `best` leads, and was the first key with its score. -/
structure LeadsFirst (weight : α → M) (start : κ) (l : List α) (best : κ) (score : M) : Prop
    extends Leads key weight start l best score where
  first : 0 < score →
    ∃ l₁, l₁ <+: l ∧ total key weight l₁ best = score ∧ ∀ k ≠ best, total key weight l₁ k < score

variable {key} {start best best' k k' : κ} {l l₁ : List α} {score score' : M} {a : α}

theorem LeadsFirst.nil : LeadsFirst key weight start [] start 0 :=
  ⟨Leads.nil, fun h => absurd h (lt_irrefl 0)⟩

theorem LeadsFirst.wins (h : LeadsFirst key weight start l best score) (hpos : 0 < score) :
    First key weight l best := by
  obtain ⟨l₁, hl₁, heq, hlt⟩ := h.first hpos
  refine ⟨l₁, hl₁, fun k => ?_, fun k hk => ?_⟩
  · rw [heq]
    exact h.le_score k
  · rw [heq]
    exact hlt k hk

variable [CanonicallyOrderedAdd M]

theorem total_mono (h : l₁ <+: l) (k : κ) : total key weight l₁ k ≤ total key weight l k := by
  obtain ⟨l₂, rfl⟩ := h
  rw [total_append]
  exact le_self_add

theorem First.unique (h : First key weight l k) (h' : First key weight l k') : k = k' := by
  have hlater : ∀ {k k' : κ} {l₁ l₂ : List α}, l₁ <+: l₂ → l₂ <+: l →
      (∀ j, total key weight l j ≤ total key weight l₁ k) →
      (∀ j ≠ k', total key weight l₂ j < total key weight l₂ k') → k = k' := by
    intro k k' l₁ l₂ h₁₂ h₂ hmax hlt
    by_contra hne
    have hle : total key weight l₂ k' ≤ total key weight l₂ k := calc
      total key weight l₂ k' ≤ total key weight l k' := total_mono h₂ k'
      _ ≤ total key weight l₁ k := hmax k'
      _ ≤ total key weight l₂ k := total_mono h₁₂ k
    exact absurd (hlt k hne) (not_lt.2 hle)
  obtain ⟨l₁, hl₁, hmax, hlt⟩ := h
  obtain ⟨l₂, hl₂, hmax', hlt'⟩ := h'
  rcases List.prefix_or_prefix_of_prefix hl₁ hl₂ with h₁₂ | h₂₁
  · exact hlater h₁₂ hl₂ hmax hlt'
  · exact (hlater h₂₁ hl₁ hmax' hlt).symm

theorem Leads.score_le (h : Leads key weight start l best score)
    (h' : Leads key weight start (l ++ [a]) best' score') : score ≤ score' := by
  rcases h.eq_score with ⟨hzero, -⟩ | ⟨-, heq⟩
  · rw [hzero]
    exact zero_le
  · rw [← heq]
    exact (total_mono (List.prefix_append l [a]) best).trans (h'.le_score best)

/-- After one more entry the leader is the first one, if the lead changes only with the score. -/
theorem LeadsFirst.step (h : LeadsFirst key weight start l best score)
    (h' : Leads key weight start (l ++ [a]) best' score') (hkeep : score' = score → best' = best) :
    LeadsFirst key weight start (l ++ [a]) best' score' := by
  refine ⟨h', fun hpos => ?_⟩
  rcases (h.score_le h').eq_or_lt with heq | hlt
  · obtain rfl := hkeep heq.symm
    obtain ⟨l₁, hl₁, htotal, hothers⟩ := h.first (heq ▸ hpos)
    rw [← heq]
    exact ⟨l₁, hl₁.trans (List.prefix_append l [a]), htotal, hothers⟩
  · -- only the key of the new entry can have more than the old score
    obtain ⟨-, hbest⟩ := h'.eq_score.resolve_left fun hzero => hpos.ne' hzero.1
    have hothers : ∀ k ≠ key a, total key weight (l ++ [a]) k < score' := by
      intro k hk
      rw [total_concat, Function.update_of_ne hk]
      exact (h.le_score k).trans_lt hlt
    have hkey : best' = key a := by
      by_contra hne
      exact (hothers best' hne).ne hbest
    exact ⟨l ++ [a], List.prefix_rfl, hbest, fun k hk => hothers k (hkey ▸ hk)⟩

end First

end Leader
