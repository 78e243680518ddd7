import SystemsProgramming.Classes5.LinkedBuffer.Concurrent
import SystemsProgramming.Library.SpinLock

/-!
# The spin lock of the rcu variant

`linked_write` of the rcu variant inserts a chunk between `spin_lock_irqsave(&writer_lock,
lock_flags)` and `spin_unlock_irqrestore(&writer_lock, lock_flags)`, and `lock_flags` is a global.
Each CPU makes one call after the other, and the steps of the two statements are apart.  Such runs
are runs of the calls with the section as one step (`run_of_spinLock`).
-/

namespace LinkedBuffer.WriterLock

open Transition

/-- Outside of the sections: the number of the call that the CPU is in, and where it is in it. -/
structure Place where
  call : ℕ := 0
  ctrl : Ctrl := .ready

/-- In the section of `linked_write`. -/
inductive Section where
  /-- about to call `list_add_tail_rcu` -/
  | inserting (call i fPos : ℕ) (data : Data)
  /-- about to call `spin_unlock_irqrestore` -/
  | unlocking (call i fPos : ℕ) (data : Data)

inductive Stmt where
  /-- a step of the call -/
  | step (input : Input)
  /-- the next call -/
  | call

/-- The code of a CPU that makes the calls `reqs`. -/
def code (reqs : ℕ → Request) : SpinLock.Code Module Place Section Stmt where
  outer m p
    | .step input =>
      match p.ctrl with
      | .locking _ _ _ => none
      | k => (callStep .rcu input m (reqs p.call) k).map fun r => (r.1, ⟨p.call, r.2⟩)
    | .call =>
      match p.ctrl with
      | .done _ => some (m, ⟨p.call + 1, .ready⟩)
      | _ => none
  inner m
    | .inserting call i fPos data, .step _ =>
      some ({ m with buffer := m.buffer ++ [data] }, .unlocking call i fPos data)
    | _, _ => none
  lock p :=
    match p.ctrl with
    | .locking i fPos data => some (.inserting p.call i fPos data)
    | _ => none
  unlock
    | .unlocking call i fPos data => some ⟨call, .adding i fPos data⟩
    | .inserting .. => none

/-! ### The section as one step -/

/-- The call of a CPU in the section, which inserts in one step. -/
def Section.place : Section → Place
  | .inserting call i fPos data => ⟨call, .locking i fPos data⟩
  | .unlocking call i fPos data => ⟨call, .adding i fPos data⟩

/-- The call of a CPU. -/
def place {F : Type} : SpinLock.Ctrl F Place Section → Place
  | .outside p | .loaded p _ | .released p _ => p
  | .saved i _ | .acquired i _ | .inside i => i.place

/-- Only a call of `linked_write` is about to insert. -/
def Place.Writes (reqs : ℕ → Request) (p : Place) : Prop :=
  ∀ i fPos data, p.ctrl = .locking i fPos data → ∃ u f, reqs p.call = .write u f

theorem writes_of_callStep {reqs : ℕ → Request} {input : Input} {m m' : Module} {n : ℕ}
    {k k' : Ctrl} (h : callStep .rcu input m (reqs n) k = some (m', k')) :
    Place.Writes reqs ⟨n, k'⟩ := by
  rintro i fPos data heq
  have hm := moves_of_callStep h
  generalize reqs n = req at hm
  dsimp only at heq
  subst heq
  cases hm with
  | prepare => exact ⟨_, _, rfl⟩

/-- A CPU is in call `n`, which is at `k`. -/
def Follows {F : Type} (reqs : ℕ → Request) (l : SpinLock.Ctrl F Place Section) (n : ℕ)
    (k : Ctrl) : Prop := place l = ⟨n, k⟩ ∧ Place.Writes reqs ⟨n, k⟩

/-- A step of the CPU leaves the call where it is, or is the next call or a step of the call. -/
theorem Follows.step {F : Type} {disable : F → F} {reqs : ℕ → Request}
    {g g' : SpinLock.Shared F Module} {irq irq' : F} {l l' : SpinLock.Ctrl F Place Section}
    {a : SpinLock.Action F Stmt} {n : ℕ} {k : Ctrl}
    (h : SpinLock.Moves disable (code reqs) g irq l a g' irq' l') (hl : Follows reqs l n k) :
    (g'.data = g.data ∧ Follows reqs l' n k) ∨
    (g'.data = g.data ∧ Follows reqs l' (n + 1) .ready) ∨
    ∃ input k', callStep .rcu input g.data (reqs n) k = some (g'.data, k') ∧
      Follows reqs l' n k' := by
  obtain ⟨hplace, hwrites⟩ := hl
  cases h with
  | @outer p p' a d h =>
      obtain rfl : p = ⟨n, k⟩ := hplace
      cases a with
      | step input =>
          dsimp only [code] at h
          split at h
          · cases h
          · obtain ⟨r, hr, heq⟩ := Option.map_eq_some_iff.1 h
            cases heq
            exact Or.inr (Or.inr ⟨input, r.2, hr, rfl, writes_of_callStep hr⟩)
      | call =>
          dsimp only [code] at h
          split at h <;> cases h
          exact Or.inr (Or.inl ⟨rfl, rfl, fun _ _ _ heq => nomatch heq⟩)
  | @inner i i' a d h =>
      dsimp only [code] at h
      split at h <;> cases h
      cases hplace
      obtain ⟨u, f, hreq⟩ := hwrites _ _ _ rfl
      refine Or.inr (Or.inr ⟨{}, _, ?_, rfl, fun _ _ _ heq => nomatch heq⟩)
      dsimp only at hreq
      rw [hreq, callStep, if_neg (Input.not_signals rfl)]
  | interruptsOutside | interruptsInside | acquire | store | release | restore =>
      exact Or.inl ⟨rfl, hplace, hwrites⟩
  | @save p i h =>
      obtain rfl : p = ⟨n, k⟩ := hplace
      dsimp only [code] at h
      split at h <;> cases h
      exact Or.inl ⟨rfl, rfl, hwrites⟩
  | @load i p h =>
      dsimp only [code] at h
      split at h <;> cases h
      exact Or.inl ⟨rfl, hplace, hwrites⟩

/-- In every run of the CPUs the module and the calls are those of a run of the calls with each
section as one step. -/
theorem run_of_spinLock {C F : Type} [DecidableEq C] {disable : F → F} {req : C → ℕ → Request}
    {lockFlags : F} {irq : C → F}
    {tr : List (SpinLock.State C F Module Place Section × SpinLock.Event C F Stmt)}
    {s : SpinLock.State C F Module Place Section}
    (h : Run (SpinLock.Step disable fun c => code (req c))
      (SpinLock.init lockFlags {} irq fun _ => {}) tr s) :
    ∃ tr' calls, Run (Step .rcu fun p => req p.1 p.2) (init (C × ℕ)) tr' ⟨s.shared.data, calls⟩ ∧
      SpinLock.Tracks .ready (fun c => Follows (req c)) s.ctrl calls := by
  refine SpinLock.run_calls State.mk SpinLock.Shared.data ?_ ?_ h
  · intro c g g' irq irq' l l' a n k hm hl
    rcases Follows.step hm hl with hstay | hnext | ⟨input, k', hstep, hl'⟩
    · exact Or.inl hstay
    · exact Or.inr (Or.inl hnext)
    · refine Or.inr (Or.inr ⟨k', hl', fun calls hk => ⟨⟨(c, n), input⟩, ?_⟩⟩)
      unfold Step exec
      dsimp only
      rw [hk, hstep]
      rfl
  · exact fun c => ⟨rfl, fun _ _ _ heq => nomatch heq⟩

end LinkedBuffer.WriterLock
