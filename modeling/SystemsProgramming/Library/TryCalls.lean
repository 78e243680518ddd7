import SystemsProgramming.Library.TryLightswitch

/-!
# Refused calls

`ownSteps t` are the steps that thread `t` has made in its current call.  A refused call has locked
and unlocked the door and changed nothing else, and one of its steps found the reason
(`TryLightswitch.account_of_run`).
-/

namespace Pthread

open Transition

namespace TryLightswitch

variable {T X D O : Type} [DecidableEq T] [DecidableEq X] (S : TryLightswitch T X D O)

/-- The steps of `t` in the call that is in progress or has just returned. -/
def ownSteps (t : T) (tr : List (St T X D O × Event T)) : List (St T X D O × Event T) :=
  tr.foldl (fun acc p => if p.2.thread = t then
    (if placeOf p.1 t = .idle then [] else acc ++ [p]) else acc) []

/-- The step changes neither the data nor a lock other than the door of `x`. -/
def Quiet (x : X) (p : St T X D O × Event T) : Prop :=
  ∀ s', exec S.program p.1 p.2 = some s' →
    s'.data = p.1.data ∧ ∀ m, m ≠ .door x → s'.owner m = p.1.owner m

/-- In this step `t` finds a reason to refuse a reader of `x`. -/
def RefusesRead (x : X) (t : T) (p : St T X D O × Event T) : Prop :=
  (placeOf p.1 t = .reader x .tryRoom ∧ p.1.owner (.room x) ≠ none) ∨
    placeOf p.1 t = .reader x .full ∧ S.limitOf x p.1.data = some (S.count x p.1.data)

/-- In this step `t` finds a reason to refuse a writer of `x`. -/
def RefusesWrite (x : X) (t : T) (p : St T X D O × Event T) : Prop :=
  placeOf p.1 t = .tryWrite x ∧ p.1.owner (.room x) ≠ none

/-- What the steps `own` of a call on `x` have done when the thread is at a place. -/
def Account (x : X) (t : T) (own : List (St T X D O × Event T)) (d : D) : TryPlace X → Prop
  | .reader y q => y = x → match q with
    | .enter => own = []
    | .test | .tryRoom => ∀ p ∈ own, S.Quiet x p
    | .full => (∀ p ∈ own, S.Quiet x p) ∨ S.count x d = 0
    | .refuse => (∀ p ∈ own, S.Quiet x p) ∧ ∃ p ∈ own, S.RefusesRead x t p
    | _ => True
  | .tryWrite y => y = x → own = []
  | .returned (.read y) false =>
    y = x → (∀ p ∈ own, S.Quiet x p) ∧ ∃ p ∈ own, S.RefusesRead x t p
  | .returned (.write y) false =>
    y = x → (∀ p ∈ own, S.Quiet x p) ∧ ∃ p ∈ own, RefusesWrite x t p
  | _ => True

variable {S} {s s' s₁ : St T X D O} {t u : T} {n : ℕ} {x : X} {lim : Option ℤ} {p : TryPlace X}
  {tr : List (St T X D O × Event T)} {e : Event T}

theorem ownSteps_snoc (p : St T X D O × Event T) : ownSteps t (tr ++ [p]) =
    if p.2.thread = t then (if placeOf p.1 t = .idle then [] else ownSteps t tr ++ [p])
    else ownSteps t tr := by
  simp only [ownSteps, List.foldl_append, List.foldl_cons, List.foldl_nil]

theorem mem_of_mem_ownSteps {p : St T X D O × Event T} (h : p ∈ ownSteps t tr) :
    p ∈ tr ∧ p.2.thread = t := by
  induction tr using List.reverseRecOn with
  | nil => cases h
  | append_singleton tr q ih =>
      rw [ownSteps_snoc] at h
      split at h
      · next hq =>
          split at h
          · cases h
          · rcases List.mem_append.1 h with h | h
            · exact ⟨List.mem_append_left _ (ih h).1, (ih h).2⟩
            · obtain rfl := List.mem_singleton.1 h
              exact ⟨by simp, hq⟩
      · exact ⟨List.mem_append_left _ (ih h).1, (ih h).2⟩

theorem quiet_of_step (hs : Step S.program s e s') (hd : s'.data = s.data)
    (ho : ∀ m, m ≠ .door x → s'.owner m = s.owner m) : S.Quiet x (s, e) := by
  intro s'' h
  rw [hs.exec_eq, Option.some.injEq] at h
  exact h ▸ ⟨hd, ho⟩

theorem Move.ctrl_of_ne (h : S.Move t n s p s') (hu : u ≠ t) : s'.ctrl u = s.ctrl u := by
  cases h <;> exact State.setCtrl_ctrl_of_ne hu

/-- Only the one at the door changes the counter. -/
theorem Inv.count_of_door [Fintype T] (hI : S.Inv x lim s) (hS : S.Lawful)
    (h : S.Move u n s (placeOf s u) s') (hut : u ≠ t)
    (ht : (turnstile lim).door (readers x s t) = true) : S.count x s'.data = S.count x s.data := by
  have hdoor : ∀ {y : X} {q : TryRead}, placeOf s u = .reader y q →
      (turnstile lim).door (some q) = true → x ≠ y := by
    rintro y q hp hq rfl
    refine hut (hI.book.door_unique ht ?_)
    rwa [readers_of_place hp]
  generalize hp : placeOf s u = p at h
  cases h with
  | arrive | depart =>
      show S.count x (S.setCount _ _ _) = _
      rw [hS.count_setCount, if_neg (hdoor hp rfl)]
  | @read y _ _ v hk => exact (hS.reading_count y _ (List.mem_of_getElem? hk) v _ x).1
  | @write y _ _ _ i hk => exact (hS.writing_count y _ (List.mem_of_getElem? hk) i _ _ x).1
  | _ => rfl

/-- The step of another thread. -/
theorem Account.other [Fintype T] (hI : S.Inv x lim s) (hS : S.Lawful)
    (h : S.Move u n s (placeOf s u) s') (hut : u ≠ t) {own : List (St T X D O × Event T)}
    (hA : S.Account x t own s.data (placeOf s t)) : S.Account x t own s'.data (placeOf s' t) := by
  have hplace : placeOf s' t = placeOf s t := by rw [placeOf, h.ctrl_of_ne (Ne.symm hut), placeOf]
  rw [hplace]
  cases hp : placeOf s t with
  | reader y q =>
      rw [hp] at hA
      cases q with
      | full =>
          rintro rfl
          rw [hI.count_of_door hS h hut]
          · exact hA rfl
          · rw [readers_of_place hp]
            rfl
      | _ => exact hA
  | returned call ok =>
      rw [hp] at hA
      cases call <;> cases ok <;> exact hA
  | _ => rwa [hp] at hA

/-- The step of the thread itself. -/
theorem Account.self [Fintype T] (hI : S.Inv x lim s) (hs : Step S.program s e s') (ht : e.thread = t)
    (h : S.Move t n s (placeOf s t) s')
    (hA : S.Account x t (ownSteps t tr) s.data (placeOf s t)) :
    S.Account x t (ownSteps t (tr ++ [(s, e)])) s'.data (placeOf s' t) := by
  have hknows : ∀ {q : TryRead}, placeOf s t = .reader x q →
      (turnstile lim).knows (some q) (S.count x s.data) := fun hp =>
    hI.book.knows_at (readers_of_place hp)
  have hquiet : s'.data = s.data → (∀ m, m ≠ .door x → s'.owner m = s.owner m) →
      S.Quiet x (s, e) := quiet_of_step hs
  have hroom : ∀ {o : Option T} (m : Gate X), m ≠ .door x →
      (s.setOwner (.door x) o).owner m = s.owner m := by
    intro o m hm
    rw [State.setOwner_owner, if_neg hm]
  have hall : (∀ p ∈ ownSteps t tr, S.Quiet x p) → S.Quiet x (s, e) →
      ∀ p ∈ ownSteps t tr ++ [(s, e)], S.Quiet x p := by
    intro hq h
    exact List.forall_mem_append.2 ⟨hq, List.forall_mem_singleton.2 h⟩
  have hlast : (s, e) ∈ ownSteps t tr ++ [(s, e)] := by simp
  have hkeep : ∀ p : TryPlace X, p ≠ .idle → ∀ own : List (St T X D O × Event T),
      (if p = .idle then [] else own) = own := fun _ hne _ => if_neg hne
  rw [ownSteps_snoc, if_pos ht]
  generalize hp : placeOf s t = p at h hA
  cases h with
  | choose v =>
      rw [if_pos rfl, placeOf_setCtrl_self]
      cases S.next t n v with
      | none => trivial
      | some call => cases call <;> exact fun _ => rfl
  | again =>
      rw [placeOf_setCtrl_self]
      trivial
  | enter ho =>
      rw [hkeep _ (by simp), placeOf_setCtrl_self]
      rintro rfl
      rw [hA rfl]
      exact List.forall_mem_singleton.2 (hquiet rfl hroom)
  | @test y =>
      rw [hkeep _ (by simp), placeOf_setCtrl_self]
      rintro rfl
      have hq := hall (hA rfl) (hquiet rfl fun _ _ => rfl)
      by_cases h0 : S.count y s.data = 0
      · rw [if_pos h0]
        exact hq
      · rw [if_neg h0]
        rcases admitted_cases S with ha | ⟨ha, -⟩
        · rw [ha]
          exact Or.inl hq
        · rw [ha]
          trivial
  | takeRoom ho =>
      rw [hkeep _ (by simp), placeOf_setCtrl_self]
      rintro rfl
      rcases admitted_cases S with ha | ⟨ha, -⟩
      · rw [ha]
        exact Or.inr (hknows hp)
      · rw [ha]
        trivial
  | reject ho =>
      rw [hkeep _ (by simp), placeOf_setCtrl_self]
      rintro rfl
      exact ⟨hall (hA rfl) (hquiet rfl fun _ _ => rfl), _, hlast, Or.inl ⟨hp, ho⟩⟩
  | @full y =>
      rw [hkeep _ (by simp), placeOf_setCtrl_self]
      rintro rfl
      by_cases hc : S.limitOf y s.data = some (S.count y s.data)
      · rw [if_pos hc]
        -- a reader that has locked the room is not refused, since the limit is not zero
        have hne : S.count y s.data ≠ 0 := hknows hp (hI.limit ▸ hc)
        exact ⟨hall ((hA rfl).resolve_right hne) (hquiet rfl fun _ _ => rfl), _, hlast,
          Or.inr ⟨hp, hc⟩⟩
      · rw [if_neg hc]
        trivial
  | refuse =>
      rw [hkeep _ (by simp), placeOf_setCtrl_self]
      rintro rfl
      obtain ⟨hq, r, hr, hreason⟩ := hA rfl
      exact ⟨hall hq (hquiet rfl hroom), r, List.mem_append_left _ hr, hreason⟩
  | deny ho =>
      rw [hkeep _ (by simp), placeOf_setCtrl_self]
      rintro rfl
      rw [hA rfl]
      exact ⟨List.forall_mem_singleton.2 (hquiet rfl fun _ _ => rfl), _, List.mem_singleton_self _,
        hp, ho⟩
  | arrive | proceed | read | reenter | depart | release =>
      rw [hkeep _ (by simp), placeOf_setCtrl_self]
      exact fun _ => trivial
  | @last y =>
      rw [hkeep _ (by simp), placeOf_setCtrl_self]
      by_cases h0 : S.count y s.data = 0
      · rw [if_pos h0]
        exact fun _ => trivial
      · rw [if_neg h0]
        exact fun _ => trivial
  | leave | begin | write | finish =>
      rw [hkeep _ (by simp), placeOf_setCtrl_self]
      trivial

/-- The steps of every call in every run that meets the condition of `inv_of_run`. -/
theorem account_of_run [Fintype T] (hS : S.Lawful) {d₀ : D} (h₀ : S.count x d₀ = 0)
    (hlim : S.limitOf x d₀ = lim) (h : Run (Step S.program) (S.program.init d₀) tr s)
    (htake : lim = some 0 → ∀ p ∈ tr, ¬ TakesRoom x p.1 p.2) (t : T) :
    S.Account x t (ownSteps t tr) s.data (placeOf s t) := by
  induction h with
  | nil => trivial
  | @snoc tr s s' e h hs ih =>
      have htake' : lim = some 0 → ∀ p ∈ tr, ¬ TakesRoom x p.1 p.2 :=
        fun hl p hp => htake hl p (List.mem_append_left _ hp)
      have hI := (inv_of_run hS h₀ hlim h htake').1
      obtain ⟨n, hm⟩ := move_of_step hI.running hs
      by_cases ht : e.thread = t
      · exact (ih htake').self hI hs ht (ht ▸ hm)
      · rw [ownSteps_snoc, if_neg ht]
        exact (ih htake').other hI hS hm ht

/-- What a refused call has left behind: nothing. -/
structure Unchanged (S : TryLightswitch T X D O) (x : X) (t : T)
    (tr : List (St T X D O × Event T)) (s : St T X D O) : Prop where
  quiet : ∀ p ∈ ownSteps t tr, S.Quiet x p
  door : s.owner (.door x) ≠ some t

omit [DecidableEq T] in
theorem Inv.door_of_away [Fintype T] (hI : S.Inv x lim s) (ht : ¬ (placeOf s t).Calls x) :
    s.owner (.door x) ≠ some t := by
  intro ho
  have hd := (hI.book.door t).1 ho
  rw [readers, TryPlace.readerOf_eq_none ht] at hd
  cases hd

theorem refused_read [Fintype T] (hS : S.Lawful) {d₀ : D} (h₀ : S.count x d₀ = 0)
    (hlim : S.limitOf x d₀ = lim) (h : Run (Step S.program) (S.program.init d₀) tr s)
    (htake : lim = some 0 → ∀ p ∈ tr, ¬ TakesRoom x p.1 p.2)
    (ht : placeOf s t = .returned (.read x) false) :
    (∃ p ∈ ownSteps t tr, S.Inv x lim p.1 ∧ S.RefusesRead x t p) ∧ S.Unchanged x t tr s := by
  have hA := account_of_run hS h₀ hlim h htake t
  have hI := inv_of_run hS h₀ hlim h htake
  rw [ht] at hA
  obtain ⟨hq, p, hp, hreason⟩ := hA rfl
  refine ⟨⟨p, hp, hI.2 p (mem_of_mem_ownSteps hp).1, hreason⟩, hq, hI.1.door_of_away ?_⟩
  rw [ht]
  exact id

theorem refused_write [Fintype T] (hS : S.Lawful) {d₀ : D} (h₀ : S.count x d₀ = 0)
    (hlim : S.limitOf x d₀ = lim) (h : Run (Step S.program) (S.program.init d₀) tr s)
    (htake : lim = some 0 → ∀ p ∈ tr, ¬ TakesRoom x p.1 p.2)
    (ht : placeOf s t = .returned (.write x) false) :
    (∃ p ∈ ownSteps t tr, S.Inv x lim p.1 ∧ RefusesWrite x t p) ∧ S.Unchanged x t tr s := by
  have hA := account_of_run hS h₀ hlim h htake t
  have hI := inv_of_run hS h₀ hlim h htake
  rw [ht] at hA
  obtain ⟨hq, p, hp, hreason⟩ := hA rfl
  refine ⟨⟨p, hp, hI.2 p (mem_of_mem_ownSteps hp).1, hreason⟩, hq, hI.1.door_of_away ?_⟩
  rw [ht]
  exact id

end TryLightswitch

end Pthread
