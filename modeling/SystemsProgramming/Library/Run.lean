import Mathlib.Order.WellFounded
import Mathlib.Order.Monotone.Basic
import Mathlib.Order.OrderIsoNat
import Mathlib.Data.List.Basic

/-!
# Runs of a labelled transition relation

A system is given by its step relation `step : σ → ℓ → σ → Prop`.  `Run step s₀ tr s` says that the
steps recorded in `tr`, each with the state it starts from and its label, lead from `s₀` to `s`.
The file gives the invariant rules (for all runs, for the runs whose steps meet a condition, and for
the runs in which a step changes the invariant), the rule for simulations, the rule that bounds the
length of runs by a measure, and the replay of a list of labels by an executable step function.
-/

namespace Transition

variable {σ ℓ : Type*} {step : σ → ℓ → σ → Prop}

/-- The steps `tr` lead from `s₀` to the state in the last argument. -/
inductive Run (step : σ → ℓ → σ → Prop) (s₀ : σ) : List (σ × ℓ) → σ → Prop
  | nil : Run step s₀ [] s₀
  | snoc {tr : List (σ × ℓ)} {s t : σ} {l : ℓ} :
      Run step s₀ tr s → step s l t → Run step s₀ (tr ++ [(s, l)]) t

/-- Some run leads from `s₀` to `s`. -/
def Reachable (step : σ → ℓ → σ → Prop) (s₀ s : σ) : Prop := ∃ tr, Run step s₀ tr s

theorem Run.reachable {s₀ s : σ} {tr : List (σ × ℓ)} (h : Run step s₀ tr s) :
    Reachable step s₀ s := ⟨tr, h⟩

theorem Reachable.refl (s : σ) : Reachable step s s := ⟨[], .nil⟩

theorem Run.trans {s₀ s t : σ} {tr tr' : List (σ × ℓ)} (h : Run step s₀ tr s)
    (h' : Run step s tr' t) : Run step s₀ (tr ++ tr') t := by
  induction h' with
  | nil => simpa using h
  | snoc _ hs ih => rw [← List.append_assoc]; exact ih.snoc hs

theorem Reachable.trans {s₀ s t : σ} (h : Reachable step s₀ s) (h' : Reachable step s t) :
    Reachable step s₀ t := by
  obtain ⟨tr, h⟩ := h
  obtain ⟨tr', h'⟩ := h'
  exact (h.trans h').reachable

theorem reachable_of_step {s t : σ} {l : ℓ} (h : step s l t) : Reachable step s t :=
  (Run.nil.snoc h).reachable

theorem Run.eq_of_nil {s₀ s : σ} (h : Run step s₀ [] s) : s = s₀ := by
  generalize htr : ([] : List (σ × ℓ)) = tr at h
  cases h with
  | nil => rfl
  | snoc => exact absurd htr (by simp)

theorem Run.of_snoc {s₀ s t : σ} {l : ℓ} {tr : List (σ × ℓ)} (h : Run step s₀ (tr ++ [(s, l)]) t) :
    Run step s₀ tr s ∧ step s l t := by
  generalize htr : tr ++ [(s, l)] = tr' at h
  cases h with
  | nil => exact absurd htr (by simp)
  | snoc hrun hs =>
      obtain ⟨rfl, hlast⟩ := List.append_inj' htr rfl
      cases hlast
      exact ⟨hrun, hs⟩

/-- An event of a log that got one more event is the new one or an event of the old log. -/
theorem snoc_eq_append_cons {α : Type*} {l l₁ l₂ : List α} {a b : α}
    (h : l ++ [a] = l₁ ++ b :: l₂) :
    (l₁ = l ∧ b = a ∧ l₂ = []) ∨ ∃ l₃, l₂ = l₃ ++ [a] ∧ l = l₁ ++ b :: l₃ := by
  rcases List.eq_nil_or_concat l₂ with rfl | ⟨l₃, c, rfl⟩
  · obtain ⟨hl, hlast⟩ := List.append_inj' h rfl
    exact Or.inl ⟨hl.symm, (List.singleton_inj.1 hlast).symm, rfl⟩
  · rw [List.concat_eq_append, ← List.cons_append, ← List.append_assoc] at h
    obtain ⟨hl, hlast⟩ := List.append_inj' h rfl
    obtain rfl := List.singleton_inj.1 hlast
    exact Or.inr ⟨l₃, List.concat_eq_append, hl⟩

/-- What is recorded are steps. -/
theorem Run.step_of_mem {s₀ s : σ} {tr : List (σ × ℓ)} (h : Run step s₀ tr s) :
    ∀ p ∈ tr, ∃ t, step p.1 p.2 t := by
  induction h with
  | nil => exact nofun
  | @snoc tr s t l _ hs ih =>
      exact List.forall_mem_append.2 ⟨ih, List.forall_mem_singleton.2 ⟨t, hs⟩⟩

/-! ### Invariants -/

/-- What every step that meets `C` keeps holds at the end of every run whose steps meet `C`. -/
theorem Run.invariant_of {C : σ → ℓ → Prop} {I : σ → Prop}
    (hstep : ∀ s l t, C s l → I s → step s l t → I t) {s₀ s : σ} {tr : List (σ × ℓ)}
    (h : Run step s₀ tr s) (hC : ∀ p ∈ tr, C p.1 p.2) (h₀ : I s₀) : I s := by
  induction h with
  | nil => exact h₀
  | @snoc tr s t l _ hs ih =>
      have hI : I s := ih fun p hp => hC p (List.mem_append_left _ hp)
      exact hstep s l t (hC (s, l) (by simp)) hI hs

/-- And in every state that the run passes. -/
theorem Run.invariant_mem {C : σ → ℓ → Prop} {I : σ → Prop}
    (hstep : ∀ s l t, C s l → I s → step s l t → I t) {s₀ s : σ} {tr : List (σ × ℓ)}
    (h : Run step s₀ tr s) (hC : ∀ p ∈ tr, C p.1 p.2) (h₀ : I s₀) : ∀ p ∈ tr, I p.1 := by
  induction h with
  | nil => exact nofun
  | snoc h _ ih =>
      have hC' := fun p hp => hC p (List.mem_append_left _ hp)
      exact List.forall_mem_append.2
        ⟨ih hC', List.forall_mem_singleton.2 (h.invariant_of hstep hC' h₀)⟩

/-- What every step keeps holds at the end of every run. -/
theorem Run.invariant {I : σ → Prop} (hstep : ∀ s l t, I s → step s l t → I t) {s₀ s : σ}
    {tr : List (σ × ℓ)} (h : Run step s₀ tr s) (h₀ : I s₀) : I s :=
  h.invariant_of (C := fun _ _ => True) (fun s l t _ => hstep s l t) (fun _ _ => trivial) h₀

theorem Reachable.invariant {I : σ → Prop} (hstep : ∀ s l t, I s → step s l t → I t) {s₀ s : σ}
    (h : Reachable step s₀ s) (h₀ : I s₀) : I s := by
  obtain ⟨tr, h⟩ := h
  exact h.invariant hstep h₀

/-- What the steps keep that are not `bad` holds until a step is `bad`, and what every step keeps from
then on. -/
theorem Run.turn {I J : σ → Prop} {bad : σ × ℓ → Prop} {s₀ s : σ} {tr : List (σ × ℓ)} (h₀ : I s₀)
    (hkeep : ∀ s l t, Reachable step s₀ s → I s → ¬ bad (s, l) → step s l t → I t)
    (hturn : ∀ s l t, Reachable step s₀ s → I s → bad (s, l) → step s l t → J t)
    (hafter : ∀ s l t, J s → step s l t → J t) (h : Run step s₀ tr s) :
    ((∀ p ∈ tr, ¬ bad p) → I s) ∧ ((∃ p ∈ tr, bad p) → J s) := by
  induction h with
  | nil => exact ⟨fun _ => h₀, fun h => by simp at h⟩
  | @snoc tr s t l hrun hs ih =>
      obtain ⟨hI, hJ⟩ := ih
      constructor
      · intro hno
        have hbefore := hI fun p hp => hno p (List.mem_append_left _ hp)
        exact hkeep s l t hrun.reachable hbefore (hno _ (by simp)) hs
      · rintro ⟨p, hp, hbad⟩
        by_cases hbefore : ∃ p ∈ tr, bad p
        · exact hafter s l t (hJ hbefore) hs
        · -- this step is the first bad one
          push Not at hbefore
          have hp : p ∈ tr ∨ p = (s, l) := by simpa using hp
          obtain rfl := hp.resolve_left fun hp => hbefore p hp hbad
          exact hturn s l t hrun.reachable (hI hbefore) hbad hs

/-! ### Simulation -/

/-- If every step is matched by a run of another system, so is every run. -/
theorem Run.simulate {σ' ℓ' : Type*} {step' : σ' → ℓ' → σ' → Prop} {R : σ → σ' → Prop}
    (hstep : ∀ s l t s', step s l t → R s s' → ∃ tr' t', Run step' s' tr' t' ∧ R t t')
    {s₀ s : σ} {s₀' : σ'} {tr : List (σ × ℓ)} (h : Run step s₀ tr s) (h₀ : R s₀ s₀') :
    ∃ tr' s', Run step' s₀' tr' s' ∧ R s s' := by
  induction h with
  | nil => exact ⟨[], s₀', .nil, h₀⟩
  | @snoc tr s t l _ hs ih =>
      obtain ⟨tr₁, s', hrun, hR⟩ := ih
      obtain ⟨tr₂, t', hrun', hR'⟩ := hstep s l t s' hs hR
      exact ⟨tr₁ ++ tr₂, t', hrun.trans hrun', hR'⟩

/-- If every step that meets `C` is matched by a run of another system, then a run whose steps meet
`C` is matched by one whose beginnings match the beginnings of the run. -/
theorem Run.simulate_prefix {σ' ℓ' : Type*} {step' : σ' → ℓ' → σ' → Prop} {C : σ → ℓ → Prop}
    {R : σ → σ' → Prop} (hdet : ∀ s l t t', step s l t → step s l t' → t = t')
    (hstep : ∀ s l t s', C s l → step s l t → R s s' → ∃ tr' t', Run step' s' tr' t' ∧ R t t')
    {s₀ s : σ} {s₀' : σ'} {tr : List (σ × ℓ)} (h : Run step s₀ tr s)
    (hC : ∀ p ∈ tr, C p.1 p.2) (h₀ : R s₀ s₀') :
    ∃ tr' s', Run step' s₀' tr' s' ∧ R s s' ∧ ∀ tr₁ s₁, tr₁ <+: tr → Run step s₀ tr₁ s₁ →
      ∃ tr₁' s₁', tr₁' <+: tr' ∧ Run step' s₀' tr₁' s₁' ∧ R s₁ s₁' := by
  induction h with
  | nil =>
      refine ⟨[], s₀', .nil, h₀, fun tr₁ s₁ htr₁ hrun₁ => ?_⟩
      obtain rfl := List.prefix_nil.1 htr₁
      obtain rfl := hrun₁.eq_of_nil
      exact ⟨[], s₀', List.prefix_rfl, .nil, h₀⟩
  | @snoc tr s t l hrun hs ih =>
      obtain ⟨tr', s', hrun', hR, hprefix⟩ := ih fun p hp => hC p (List.mem_append_left _ hp)
      obtain ⟨tr₂, t', hrun₂, hR'⟩ := hstep s l t s' (hC (s, l) (by simp)) hs hR
      refine ⟨tr' ++ tr₂, t', hrun'.trans hrun₂, hR', fun tr₁ s₁ htr₁ hrun₁ => ?_⟩
      rcases List.prefix_concat_iff.1 htr₁ with rfl | htr₁
      · obtain rfl : t = s₁ := hdet s l t s₁ hs hrun₁.of_snoc.2
        exact ⟨tr' ++ tr₂, t', List.prefix_rfl, hrun'.trans hrun₂, hR'⟩
      · obtain ⟨tr₁', s₁', htr₁', h₁⟩ := hprefix tr₁ s₁ htr₁ hrun₁
        exact ⟨tr₁', s₁', htr₁'.trans (List.prefix_append _ _), h₁⟩

/-! ### Termination -/

/-- A measure that every step lowers leaves no infinite sequence of steps. -/
theorem not_infinite_of_measure (μ : σ → ℕ) (hμ : ∀ s l t, step s l t → μ t < μ s) (f : ℕ → σ) :
    ¬ ∀ n, ∃ l, step (f n) l (f (n + 1)) := by
  intro hf
  refine not_strictAnti_of_wellFoundedLT (fun n => μ (f n)) (strictAnti_nat_of_succ_lt fun n => ?_)
  obtain ⟨l, hl⟩ := hf n
  exact hμ _ _ _ hl

/-- If a measure can be lowered as long as `Q` does not hold, a state with `Q` can be reached. -/
theorem exists_reachable_of_measure (μ : σ → ℕ) {I Q : σ → Prop}
    (h : ∀ s, I s → ¬ Q s → ∃ t, Reachable step s t ∧ I t ∧ μ t < μ s) {s : σ} (hs : I s) :
    ∃ t, Reachable step s t ∧ I t ∧ Q t := by
  induction hn : μ s using Nat.strong_induction_on generalizing s with
  | _ n ih =>
      by_cases hQ : Q s
      · exact ⟨s, Reachable.refl s, hs, hQ⟩
      · obtain ⟨t, hst, ht, hlt⟩ := h s hs hQ
        obtain ⟨u, htu, hu, hQu⟩ := ih (μ t) (hn ▸ hlt) ht rfl
        exact ⟨u, hst.trans htu, hu, hQu⟩

/-! ### Replaying labels -/

/-- Perform the steps with the labels `ls`, as far as they are defined. -/
def replay (exec : σ → ℓ → Option σ) : List ℓ → σ → Option σ
  | [], s => some s
  | l :: ls, s => (exec s l).bind (replay exec ls)

/-- The steps that `replay` performs, with the states they start from. -/
def record (exec : σ → ℓ → Option σ) : List ℓ → σ → List (σ × ℓ)
  | [], _ => []
  | l :: ls, s => (s, l) :: ((exec s l).map (record exec ls)).getD []

theorem label_mem_of_mem_record {exec : σ → ℓ → Option σ} {ls : List ℓ} {s : σ} {p : σ × ℓ}
    (h : p ∈ record exec ls s) : p.2 ∈ ls := by
  induction ls generalizing s with
  | nil => cases h
  | cons l ls ih =>
      rw [record, List.mem_cons] at h
      rcases h with rfl | h
      · exact List.mem_cons_self ..
      · cases he : exec s l with
        | none =>
            rw [he] at h
            cases h
        | some t =>
            rw [he] at h
            exact List.mem_cons_of_mem _ (ih h)

theorem mem_record {exec : σ → ℓ → Option σ} {ls : List ℓ} {s₀ s : σ}
    (h : replay exec ls s₀ = some s) (l : ℓ) (ls' : List ℓ) :
    (s, l) ∈ record exec (ls ++ l :: ls') s₀ := by
  induction ls generalizing s₀ with
  | nil =>
      rw [replay, Option.some.injEq] at h
      subst h
      exact List.mem_cons_self ..
  | cons k ls ih =>
      rw [replay, Option.bind_eq_some_iff] at h
      obtain ⟨t, ht, h⟩ := h
      rw [List.cons_append, record, ht]
      exact List.mem_cons_of_mem _ (ih h)

theorem replay_append (exec : σ → ℓ → Option σ) (ls ls' : List ℓ) (s : σ) :
    replay exec (ls ++ ls') s = (replay exec ls s).bind (replay exec ls') := by
  induction ls generalizing s with
  | nil => rfl
  | cons l ls ih =>
      rw [List.cons_append, replay, replay, Option.bind_assoc]
      exact congrArg _ (funext ih)

/-- The labels of a run of an executable step function lead to the same state. -/
theorem replay_of_run {exec : σ → ℓ → Option σ} {s₀ s : σ} {tr : List (σ × ℓ)}
    (h : Run (fun s l t => exec s l = some t) s₀ tr s) :
    replay exec (tr.map Prod.snd) s₀ = some s := by
  induction h with
  | nil => rfl
  | @snoc tr s t l _ hs ih =>
      rw [List.map_append, replay_append, ih, Option.bind_some]
      show (exec s l).bind some = some t
      rw [hs, Option.bind_some]

theorem run_of_replay {exec : σ → ℓ → Option σ} (hexec : ∀ s l t, exec s l = some t → step s l t)
    {ls : List ℓ} {s₀ s : σ} (h : replay exec ls s₀ = some s) :
    Run step s₀ (record exec ls s₀) s := by
  induction ls generalizing s₀ with
  | nil =>
      rw [replay, Option.some.injEq] at h
      exact h ▸ .nil
  | cons l ls ih =>
      rw [replay, Option.bind_eq_some_iff] at h
      obtain ⟨t, ht, h⟩ := h
      have hfirst : Run step s₀ [(s₀, l)] t := Run.nil.snoc (hexec _ _ _ ht)
      have := hfirst.trans (ih h)
      rwa [record, ht]

theorem reachable_of_replay {exec : σ → ℓ → Option σ}
    (hexec : ∀ s l t, exec s l = some t → step s l t) {ls : List ℓ} {s₀ s : σ}
    (h : replay exec ls s₀ = some s) : Reachable step s₀ s :=
  (run_of_replay hexec h).reachable

/-- What a replay shows of its last state is true of a reachable state. -/
theorem exists_of_replay {α : Type*} {exec : σ → ℓ → Option σ}
    (hexec : ∀ s l t, exec s l = some t → step s l t) {ls : List ℓ} {s₀ : σ} {f : σ → α} {x : α}
    (h : (replay exec ls s₀).map f = some x) : ∃ s, Reachable step s₀ s ∧ f s = x := by
  obtain ⟨s, hs, hx⟩ := Option.map_eq_some_iff.1 h
  exact ⟨s, reachable_of_replay hexec hs, hx⟩

end Transition
