import SystemsProgramming.Library.Pthread
import Mathlib.Algebra.BigOperators.Group.Finset.Basic
import Mathlib.Algebra.Order.BigOperators.Group.Finset
import Mathlib.Data.Fintype.Basic

/-!
# Runs that are paid for

A budget bounds the steps of a program: `cost` prices the locations of a thread, `rest` a thread that
sleeps there, and `credit` is what the data holds for steps that they allow.  Each instruction must
leave a thread at a cheaper location, a statement may use or leave credit, and a broadcast pays for
waking every thread.  Then every step but a spurious wake-up lowers the measure (`Budget.measure_lt`).
-/

namespace Pthread

open Transition

variable {T D L M C O : Type}

/-- The prices; `A t l d` is what is known when thread `t` is at `l` and the data is `d`. -/
structure Budget (P : Program T D L M C O) (A : T → L → D → Prop) [Fintype T] where
  cost : T → L → ℕ
  rest : T → L → ℕ
  credit : D → ℕ
  wake : T → ℕ
  lock : ∀ {t l m next}, P.code t l = .lock m next → cost t next < cost t l
  tryLock : ∀ {t l m taken refused}, P.code t l = .tryLock m taken refused →
    cost t taken < cost t l ∧ cost t refused < cost t l
  unlock : ∀ {t l m next}, P.code t l = .unlock m next → cost t next < cost t l
  wait : ∀ {t l c m next}, P.code t l = .wait c m next → rest t next < cost t l
  woken : ∀ t l, cost t l + 1 ≤ rest t l + wake t
  broadcast : ∀ {t l c next}, P.code t l = .broadcast c next →
    cost t next + ∑ u, wake u < cost t l
  act : ∀ {t l f d} i, P.code t l = .act f → A t l d →
    cost t (f i d).2.2 + credit (f i d).1 < cost t l + credit d

namespace Budget

variable [Fintype T] {P : Program T D L M C O} {A : T → L → D → Prop} (B : Budget P A)
  {s s' : State T D L M C O}

/-- The share of a thread. -/
def share (t : T) : Ctrl L M C → ℕ
  | .run l => B.cost t l
  | .asleep _ _ l => B.rest t l
  | .woken _ l => B.cost t l + 1

/-- The steps left, at most. -/
def measure (s : State T D L M C O) : ℕ := ∑ t, B.share t (s.ctrl t) + B.credit s.data

variable [DecidableEq T]

/-- A thread moves. -/
theorem measure_setCtrl (s : State T D L M C O) (t : T) (k : Ctrl L M C) :
    B.measure (s.setCtrl t k) + B.share t (s.ctrl t) = B.measure s + B.share t k := by
  have hrest : ∑ u ∈ Finset.univ.erase t, B.share u ((s.setCtrl t k).ctrl u) =
      ∑ u ∈ Finset.univ.erase t, B.share u (s.ctrl u) :=
    Finset.sum_congr rfl fun u hu => by rw [State.setCtrl_ctrl_of_ne (Finset.ne_of_mem_erase hu)]
  rw [measure, measure, ← Finset.add_sum_erase _ _ (Finset.mem_univ t), hrest,
    ← Finset.add_sum_erase Finset.univ (fun u => B.share u (s.ctrl u)) (Finset.mem_univ t),
    State.setCtrl_ctrl_self, State.setCtrl_data]
  omega

omit [DecidableEq T] in
/-- A statement changes the credit. -/
theorem measure_write (s : State T D L M C O) (t : T) (d : D) (ls : List O) :
    B.measure (s.write t d ls) + B.credit s.data = B.measure s + B.credit d := by
  rw [measure, measure, State.write_data, State.write_ctrl]
  omega

omit [DecidableEq T] in
theorem measure_setOwner [DecidableEq M] (s : State T D L M C O) (m : M) (o : Option T) :
    B.measure (s.setOwner m o) = B.measure s := rfl

variable [DecidableEq M] [DecidableEq C]

omit [DecidableEq T] [DecidableEq M] in
/-- A broadcast wakes every thread at most. -/
theorem measure_wakeAll_le (s : State T D L M C O) (c : C) :
    B.measure (s.wakeAll c) ≤ B.measure s + ∑ t, B.wake t := by
  have hshare : ∀ t, B.share t ((s.ctrl t).wake c) ≤ B.share t (s.ctrl t) + B.wake t := by
    intro t
    cases s.ctrl t with
    | asleep c' m l =>
        rw [Ctrl.wake]
        split
        · exact B.woken t l
        · exact Nat.le_add_right _ _
    | _ => exact Nat.le_add_right _ _
  have hsum := Finset.sum_le_sum fun t (_ : t ∈ Finset.univ) => hshare t
  rw [Finset.sum_add_distrib] at hsum
  rw [measure, measure, State.wakeAll_data]
  simp only [State.wakeAll_ctrl]
  omega

/-- Every step but a spurious wake-up is paid for. -/
theorem measure_lt (hA : ∀ t l, s.ctrl t = .run l → A t l s.data) {e : Event T}
    (he : ¬ e.Spurious) (h : Step P s e s') : B.measure s' < B.measure s := by
  have hmove : ∀ {t : T} {m : M} {o : Option T} {l : L} {k : Ctrl L M C}, s.ctrl t = .run l →
      B.share t k < B.cost t l → B.measure ((s.setOwner m o).setCtrl t k) < B.measure s := by
    intro t m o l k hc hlt
    have hset := B.measure_setCtrl (s.setOwner m o) t k
    rw [measure_setOwner, State.setOwner_ctrl, hc, share] at hset
    omega
  cases h with
  | lock hc hi => exact hmove hc (B.lock hi)
  | taken hc hi => exact hmove hc (B.tryLock hi).1
  | unlock hc hi => exact hmove hc (B.unlock hi)
  | wait hc hi => exact hmove hc (B.wait hi)
  | @refused t i l m taken next hc hi hm =>
      have hset := B.measure_setCtrl s t (.run next)
      have hlt := (B.tryLock hi).2
      rw [hc, share, share] at hset
      omega
  | @resume t m next hc hm =>
      have hset := B.measure_setCtrl (s.setOwner m (some t)) t (.run next)
      rw [measure_setOwner, State.setOwner_ctrl, hc, share, share] at hset
      omega
  | spurious => exact absurd trivial he
  | @broadcast t i l c next hc hi =>
      have hset := B.measure_setCtrl (s.wakeAll c) t (.run next)
      have hwake := B.measure_wakeAll_le s c
      have hlt := B.broadcast hi
      rw [State.wakeAll_ctrl, hc, Ctrl.wake, share, share] at hset
      · omega
      · intro c' m l' h
        cases h
  | @act t i l f hc hi =>
      have hset := B.measure_setCtrl (s.write t (f i s.data).1 (f i s.data).2.1) t
        (.run (f i s.data).2.2)
      have hwrite := B.measure_write s t (f i s.data).1 (f i s.data).2.1
      have hlt := B.act i hi (hA t l hc)
      rw [State.write_ctrl, hc, share, share] at hset
      omega

include B in
/-- No run without spurious wake-ups goes on for ever. -/
theorem not_infinite {d₀ : D}
    (hA : ∀ s, Reachable (Step P) (P.init d₀) s → ∀ t l, s.ctrl t = .run l → A t l s.data)
    (f : ℕ → State T D L M C O) (h₀ : Reachable (Step P) (P.init d₀) (f 0)) :
    ¬ ∀ n, ∃ e : Event T, ¬ e.Spurious ∧ Step P (f n) e (f (n + 1)) := by
  intro hf
  have hreach : ∀ n, Reachable (Step P) (P.init d₀) (f n) := by
    intro n
    induction n with
    | zero => exact h₀
    | succ n ih =>
        obtain ⟨tr, htr⟩ := ih
        obtain ⟨e, -, he⟩ := hf n
        exact (htr.snoc he).reachable
  refine not_infinite_of_measure B.measure
    (fun s (e : Event T) s' (h : Reachable (Step P) (P.init d₀) s ∧ ¬ e.Spurious ∧ Step P s e s') =>
      B.measure_lt (hA s h.1) h.2.1 h.2.2) f fun n => ?_
  obtain ⟨e, he, hs⟩ := hf n
  exact ⟨e, hreach n, he, hs⟩

end Budget

end Pthread
