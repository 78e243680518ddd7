import SystemsProgramming.Library.LightswitchProgress
import SystemsProgramming.Library.Termination
import Mathlib.Data.Fintype.BigOperators

/-!
# Termination of the first-in, last-out hand-over

The readers never wait in a loop, so their code has a price as it stands (`readerCost`); a budget for
the other threads alone extends to the whole program (`Lightswitch.budget`).
-/

namespace Pthread.Lightswitch

open Transition

variable {R U D L M C O : Type} (S : Lightswitch R U D L M C O)

/-- The other threads alone. -/
def others : Program U D L M C O where
  code := S.code
  entry := S.entry

/-- The price of a location of a reader: each call costs more than any place in it. -/
def readerCost (r : R) (l : RLoc) : ℕ :=
  let call := S.reading.length + 11
  match l.place with
  | .enter => (S.runs r - l.i) * call
  | .arrive => (S.runs r - (l.i + 1)) * call + (S.reading.length + 10)
  | .first => (S.runs r - (l.i + 1)) * call + (S.reading.length + 9)
  | .room => (S.runs r - (l.i + 1)) * call + (S.reading.length + 8)
  | .proceed => (S.runs r - (l.i + 1)) * call + (S.reading.length + 7)
  | .read k => (S.runs r - (l.i + 1)) * call + (6 + (S.reading.length - k))
  | .depart => (S.runs r - (l.i + 1)) * call + 5
  | .last => (S.runs r - (l.i + 1)) * call + 4
  | .release => (S.runs r - (l.i + 1)) * call + 3
  | .leave => (S.runs r - (l.i + 1)) * call + 2

variable {S}

theorem readerCost_lock {r : R} {l next : RLoc} {m : M} (h : S.readerCode r l = .lock m next) :
    S.readerCost r next < S.readerCost r l := by
  obtain ⟨n, p⟩ := l
  cases p with
  | enter =>
      simp only [readerCode] at h
      split at h
      · rename_i hn
        cases h
        have hcall : S.runs r - n = S.runs r - (n + 1) + 1 := by omega
        simp only [readerCost, hcall, Nat.succ_mul]
        omega
      · cases h
  | read k =>
      simp only [readerCode] at h
      split at h <;> cases h
      simp only [readerCost]
      omega
  | room =>
      cases h
      simp only [readerCost]
      omega
  | _ => cases h

theorem readerCost_unlock {r : R} {l next : RLoc} {m : M} (h : S.readerCode r l = .unlock m next) :
    S.readerCost r next < S.readerCost r l := by
  obtain ⟨n, p⟩ := l
  cases p with
  | enter | read =>
      simp only [readerCode] at h
      split at h <;> cases h
  | proceed | release | leave =>
      cases h
      simp only [readerCost]
      omega
  | _ => cases h

theorem readerCost_act {r : R} {l : RLoc} {f : ℤ → D → D × List O × RLoc}
    (h : S.readerCode r l = .act f) (i : ℤ) (d : D) :
    S.readerCost r (f i d).2.2 < S.readerCost r l ∧
      ((f i d).1 = d ∨ (∃ c, (f i d).1 = S.setCount d c) ∨
        ∃ st ∈ S.reading, (f i d).1 = (st i d).1) := by
  obtain ⟨n, p⟩ := l
  cases p with
  | enter =>
      simp only [readerCode] at h
      split at h <;> cases h
  | read k =>
      simp only [readerCode] at h
      split at h <;> cases h
      rename_i st hst
      obtain ⟨hlt, hst⟩ := List.getElem?_eq_some_iff.1 hst
      refine ⟨?_, Or.inr (Or.inr ⟨st, hst ▸ List.getElem_mem hlt, rfl⟩)⟩
      simp only [readerCost]
      omega
  | arrive | depart =>
      cases h
      refine ⟨?_, Or.inr (Or.inl ⟨_, rfl⟩)⟩
      simp only [readerCost]
      omega
  | first | last =>
      cases h
      refine ⟨?_, Or.inl rfl⟩
      dsimp only
      split <;> simp only [readerCost] <;> omega
  | _ => cases h

/-! ### Instructions on other locations -/

section Map

variable {L' : Type} {g : L → L'} {ins : Instr D L M C O} {m : M} {c : C} {next taken refused : L'}

theorem map_eq_lock (h : ins.map g = .lock m next) : ∃ l, ins = .lock m l ∧ next = g l := by
  cases ins <;> cases h
  exact ⟨_, rfl, rfl⟩

theorem map_eq_tryLock (h : ins.map g = .tryLock m taken refused) :
    ∃ l l', ins = .tryLock m l l' ∧ taken = g l ∧ refused = g l' := by
  cases ins <;> cases h
  exact ⟨_, _, rfl, rfl, rfl⟩

theorem map_eq_unlock (h : ins.map g = .unlock m next) : ∃ l, ins = .unlock m l ∧ next = g l := by
  cases ins <;> cases h
  exact ⟨_, rfl, rfl⟩

theorem map_eq_wait (h : ins.map g = .wait c m next) : ∃ l, ins = .wait c m l ∧ next = g l := by
  cases ins <;> cases h
  exact ⟨_, rfl, rfl⟩

theorem map_eq_broadcast (h : ins.map g = .broadcast c next) :
    ∃ l, ins = .broadcast c l ∧ next = g l := by
  cases ins <;> cases h
  exact ⟨_, rfl, rfl⟩

theorem map_eq_act {f : ℤ → D → D × List O × L'} (h : ins.map g = .act f) :
    ∃ f', ins = .act f' ∧ f = fun i d => ((f' i d).1, (f' i d).2.1, g (f' i d).2.2) := by
  cases ins <;> cases h
  exact ⟨_, rfl, rfl⟩

end Map

/-- The readers use no other instructions. -/
theorem readerCode_ne {r : R} {l : RLoc} :
    (∀ m taken refused, S.readerCode r l ≠ .tryLock m taken refused) ∧
      (∀ c m next, S.readerCode r l ≠ .wait c m next) ∧
      ∀ c next, S.readerCode r l ≠ .broadcast c next := by
  obtain ⟨n, p⟩ := l
  cases p with
  | enter | read =>
      simp only [readerCode]
      split <;> simp
  | _ => simp [readerCode]

/-- What is known of the other threads. -/
def Known (A : U → L → D → Prop) : R ⊕ U → RLoc ⊕ L → D → Prop
  | .inr u, .inr l, d => A u l d
  | _, _, _ => True

section Budget

variable [Fintype U] {A : U → L → D → Prop} (B : Budget S.others A)

/-- The price of a location. -/
def price : R ⊕ U → RLoc ⊕ L → ℕ
  | .inl r, .inl l => S.readerCost r l
  | .inr u, .inr l => B.cost u l
  | _, _ => 0

/-- The price of a thread that sleeps; the readers never do. -/
def restPrice : R ⊕ U → RLoc ⊕ L → ℕ
  | .inr u, .inr l => B.rest u l
  | .inl r, .inl l => S.readerCost r l + 1
  | _, _ => 1

variable {B} {t : R ⊕ U} {l next taken refused : RLoc ⊕ L} {m : M} {c : C}

theorem price_lock (h : S.program.code t l = .lock m next) : price B t next < price B t l := by
  cases t <;> cases l <;> try cases h
  · obtain ⟨l', hl, rfl⟩ := map_eq_lock h
    exact readerCost_lock hl
  · obtain ⟨l', hl, rfl⟩ := map_eq_lock h
    exact B.lock hl

theorem price_tryLock (h : S.program.code t l = .tryLock m taken refused) :
    price B t taken < price B t l ∧ price B t refused < price B t l := by
  cases t <;> cases l <;> try cases h
  · obtain ⟨l', l'', hl, -⟩ := map_eq_tryLock h
    exact absurd hl (readerCode_ne.1 _ _ _)
  · obtain ⟨l', l'', hl, rfl, rfl⟩ := map_eq_tryLock h
    exact B.tryLock hl

theorem price_unlock (h : S.program.code t l = .unlock m next) : price B t next < price B t l := by
  cases t <;> cases l <;> try cases h
  · obtain ⟨l', hl, rfl⟩ := map_eq_unlock h
    exact readerCost_unlock hl
  · obtain ⟨l', hl, rfl⟩ := map_eq_unlock h
    exact B.unlock hl

theorem price_wait (h : S.program.code t l = .wait c m next) : restPrice B t next < price B t l := by
  cases t <;> cases l <;> try cases h
  · obtain ⟨l', hl, -⟩ := map_eq_wait h
    exact absurd hl (readerCode_ne.2.1 _ _ _)
  · obtain ⟨l', hl, rfl⟩ := map_eq_wait h
    exact B.wait hl

theorem price_woken (t : R ⊕ U) (l : RLoc ⊕ L) :
    price B t l + 1 ≤ restPrice B t l + Sum.elim (fun _ => 0) B.wake t := by
  cases t <;> cases l
  · exact le_rfl
  · exact le_rfl
  · exact Nat.le_add_right 1 _
  · exact B.woken _ _

theorem price_broadcast [Fintype R] (h : S.program.code t l = .broadcast c next) :
    price B t next + ∑ u, Sum.elim (fun _ : R => 0) B.wake u < price B t l := by
  rw [Fintype.sum_sum_type]
  simp only [Sum.elim_inl, Sum.elim_inr, Finset.sum_const_zero, Nat.zero_add]
  cases t <;> cases l <;> try cases h
  · obtain ⟨l', hl, -⟩ := map_eq_broadcast h
    exact absurd hl (readerCode_ne.2.2 _ _)
  · obtain ⟨l', hl, rfl⟩ := map_eq_broadcast h
    exact B.broadcast hl

theorem price_act (hset : ∀ d c, B.credit (S.setCount d c) = B.credit d)
    (hread : ∀ st ∈ S.reading, ∀ i d, B.credit (st i d).1 = B.credit d)
    {f : ℤ → D → D × List O × (RLoc ⊕ L)} {d : D} (i : ℤ) (h : S.program.code t l = .act f)
    (hA : Known A t l d) :
    price B t (f i d).2.2 + B.credit (f i d).1 < price B t l + B.credit d := by
  cases t <;> cases l <;> try cases h
  · obtain ⟨f', hl, rfl⟩ := map_eq_act h
    obtain ⟨hlt, hd⟩ := readerCost_act hl i d
    have hcredit : B.credit (f' i d).1 = B.credit d := by
      rcases hd with hd | ⟨c, hd⟩ | ⟨st, hst, hd⟩
      · rw [hd]
      · rw [hd, hset]
      · rw [hd, hread st hst]
    dsimp only [price]
    omega
  · obtain ⟨f', hl, rfl⟩ := map_eq_act h
    exact B.act i hl hA

variable (B)

/-- The readers never sleep, so that a budget for the other threads is one for all. -/
def budget [Fintype R] (hset : ∀ d c, B.credit (S.setCount d c) = B.credit d)
    (hread : ∀ st ∈ S.reading, ∀ i d, B.credit (st i d).1 = B.credit d) :
    Budget S.program (Known (R := R) A) where
  cost := price B
  rest := restPrice B
  credit := B.credit
  wake := Sum.elim (fun _ => 0) B.wake
  lock := price_lock
  tryLock := price_tryLock
  unlock := price_unlock
  wait := price_wait
  woken := price_woken
  broadcast := price_broadcast
  act := price_act hset hread

end Budget

end Pthread.Lightswitch
