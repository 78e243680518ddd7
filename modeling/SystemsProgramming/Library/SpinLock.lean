import SystemsProgramming.Library.Run
import Mathlib.Logic.Function.Basic

/-!
# A spin lock whose users save the interrupt state in one variable

CPUs run code with sections between `spin_lock_irqsave(&lock, flags)` and
`spin_unlock_irqrestore(&lock, flags)`, where all of them use the same `flags`.  The first statement
saves the interrupt state of the CPU and disables its interrupts, acquires the lock and stores what
it saved in `flags`; the second one loads `flags`, releases the lock and restores what it loaded.
The steps of the CPUs interleave.  The lock has an owner (`owned_of_run`), and so a CPU restores
the interrupt state that it had before the matching `spin_lock_irqsave` (`enteredWith_of_restore`).
CPUs that make one call after the other can be related to the calls as processes (`run_calls`), step by
step (`run_calls_events`).
-/

namespace SpinLock

open Transition

/-- The code of a CPU on data `D`, with places `O` outside of the sections and `I` in them. -/
structure Code (D O I A : Type) where
  /-- a statement outside of the sections -/
  outer : D → O → A → Option (D × O)
  /-- a statement in a section -/
  inner : D → I → A → Option (D × I)
  /-- the place behind `spin_lock_irqsave`, if this is the next statement -/
  lock : O → Option I
  /-- the place behind `spin_unlock_irqrestore`, if this is the next statement -/
  unlock : I → Option O

/-- Where a CPU is, with interrupt states in `F`. -/
inductive Ctrl (F O I : Type) where
  | outside (o : O)
  /-- waiting for the lock, with the state it saved -/
  | saved (i : I) (old : F)
  /-- with the lock, about to store the state in `flags` -/
  | acquired (i : I) (old : F)
  | inside (i : I)
  /-- about to release the lock, with the state it loaded -/
  | loaded (o : O) (old : F)
  /-- about to restore the state -/
  | released (o : O) (old : F)

inductive Action (F A : Type) where
  /-- a statement of the code -/
  | stmt (a : A)
  /-- something else on the CPU leaves the interrupt state `irq` -/
  | interrupts (irq : F)
  | save
  | acquire
  | store
  | load
  | release
  | restore

/-- What the CPUs share. -/
structure Shared (F D : Type) where
  locked : Bool
  flags : F
  data : D

/-- One step of a CPU with interrupt state `irq`. -/
def cpuStep {F D O I A : Type} (disable : F → F) (code : Code D O I A) (g : Shared F D) (irq : F) :
    Ctrl F O I → Action F A → Option (Shared F D × F × Ctrl F O I)
  | .outside o, .stmt a =>
    (code.outer g.data o a).map fun r => ({ g with data := r.1 }, irq, .outside r.2)
  | .inside i, .stmt a =>
    (code.inner g.data i a).map fun r => ({ g with data := r.1 }, irq, .inside r.2)
  | .outside o, .interrupts irq' => some (g, irq', .outside o)
  | .inside i, .interrupts irq' => some (g, irq', .inside i)
  | .outside o, .save => (code.lock o).map fun i => (g, disable irq, .saved i irq)
  | .saved i old, .acquire =>
    if g.locked then none else some ({ g with locked := true }, irq, .acquired i old)
  | .acquired i old, .store => some ({ g with flags := old }, irq, .inside i)
  | .inside i, .load => (code.unlock i).map fun o => (g, irq, .loaded o g.flags)
  | .loaded o old, .release => some ({ g with locked := false }, irq, .released o old)
  | .released o old, .restore => some (g, old, .outside o)
  | _, _ => none

/-- The CPUs `C`. -/
structure State (C F D O I : Type) where
  shared : Shared F D
  /-- the interrupt state of each CPU -/
  irq : C → F
  ctrl : C → Ctrl F O I

/-- A step of one CPU. -/
structure Event (C F A : Type) where
  cpu : C
  action : Action F A

section System

variable {C F D O I A : Type}

/-- The lock free and every CPU outside of the sections. -/
def init (flags : F) (data : D) (irq : C → F) (start : C → O) : State C F D O I :=
  ⟨⟨false, flags, data⟩, irq, fun c => .outside (start c)⟩

variable [DecidableEq C] (disable : F → F) (code : C → Code D O I A)

/-- One step of the system. -/
def exec (s : State C F D O I) (e : Event C F A) : Option (State C F D O I) :=
  (cpuStep disable (code e.cpu) s.shared (s.irq e.cpu) (s.ctrl e.cpu) e.action).map fun r =>
    ⟨r.1, Function.update s.irq e.cpu r.2.1, Function.update s.ctrl e.cpu r.2.2⟩

/-- `exec` as a relation. -/
def Step (s : State C F D O I) (e : Event C F A) (t : State C F D O I) : Prop :=
  exec disable code s e = some t

end System

/-! ### The steps, one by one -/

/-- The steps of `cpuStep`, one constructor for each kind. -/
inductive Moves {F D O I A : Type} (disable : F → F) (code : Code D O I A) (g : Shared F D)
    (irq : F) : Ctrl F O I → Action F A → Shared F D → F → Ctrl F O I → Prop
  | outer {o o' a d} : code.outer g.data o a = some (d, o') →
      Moves disable code g irq (.outside o) (.stmt a) { g with data := d } irq (.outside o')
  | inner {i i' a d} : code.inner g.data i a = some (d, i') →
      Moves disable code g irq (.inside i) (.stmt a) { g with data := d } irq (.inside i')
  | interruptsOutside {o} (irq' : F) :
      Moves disable code g irq (.outside o) (.interrupts irq') g irq' (.outside o)
  | interruptsInside {i} (irq' : F) :
      Moves disable code g irq (.inside i) (.interrupts irq') g irq' (.inside i)
  | save {o i} : code.lock o = some i →
      Moves disable code g irq (.outside o) .save g (disable irq) (.saved i irq)
  | acquire {i old} : g.locked = false →
      Moves disable code g irq (.saved i old) .acquire { g with locked := true } irq
        (.acquired i old)
  | store {i old} :
      Moves disable code g irq (.acquired i old) .store { g with flags := old } irq (.inside i)
  | load {i o} : code.unlock i = some o →
      Moves disable code g irq (.inside i) .load g irq (.loaded o g.flags)
  | release {o old} :
      Moves disable code g irq (.loaded o old) .release { g with locked := false } irq
        (.released o old)
  | restore {o old} : Moves disable code g irq (.released o old) .restore g old (.outside o)

section Steps

variable {C F D O I A : Type}

theorem moves_of_cpuStep {disable : F → F} {code : Code D O I A} {g g' : Shared F D} {irq irq' : F}
    {k k' : Ctrl F O I} {a : Action F A}
    (h : cpuStep disable code g irq k a = some (g', irq', k')) :
    Moves disable code g irq k a g' irq' k' := by
  unfold cpuStep at h
  split at h
  · obtain ⟨r, hr, heq⟩ := Option.map_eq_some_iff.1 h
    cases heq
    exact .outer hr
  · obtain ⟨r, hr, heq⟩ := Option.map_eq_some_iff.1 h
    cases heq
    exact .inner hr
  · cases h
    exact .interruptsOutside _
  · cases h
    exact .interruptsInside _
  · obtain ⟨i, hi, heq⟩ := Option.map_eq_some_iff.1 h
    cases heq
    exact .save hi
  · split at h <;> cases h
    exact .acquire (Bool.eq_false_iff.2 ‹_›)
  · cases h
    exact .store
  · obtain ⟨o, ho, heq⟩ := Option.map_eq_some_iff.1 h
    cases heq
    exact .load ho
  · cases h
    exact .release
  · cases h
    exact .restore
  · cases h

/-! ### The owner of the lock -/

/-- The CPU is between acquire and release. -/
def Ctrl.Holds : Ctrl F O I → Prop
  | .acquired _ _ | .inside _ | .loaded _ _ => True
  | .outside _ | .saved _ _ | .released _ _ => False

/-- `owner` is the CPU that has the lock, if there is one. -/
structure Owned (owner : Option C) (s : State C F D O I) : Prop where
  locked : s.shared.locked = owner.isSome
  holds : ∀ c, (s.ctrl c).Holds ↔ owner = some c

theorem Owned.unique {owner : Option C} {s : State C F D O I} (h : Owned owner s) {c d : C}
    (hc : (s.ctrl c).Holds) (hd : (s.ctrl d).Holds) : c = d :=
  Option.some_injective C (((h.holds c).1 hc).symm.trans ((h.holds d).1 hd))

theorem owned_init (flags : F) (data : D) (irq : C → F) (start : C → O) :
    Owned none (init flags data irq start : State C F D O I) :=
  ⟨rfl, fun _ => ⟨False.elim, nofun⟩⟩

/-! ### The interrupt state that a CPU will restore -/

/-- What the next restore of the CPU restores, if it is between save and restore. -/
def Ctrl.pending (flags : F) : Ctrl F O I → Option F
  | .outside _ => none
  | .saved _ old | .acquired _ old | .loaded _ old | .released _ old => some old
  | .inside _ => some flags

theorem Ctrl.pending_congr {k : Ctrl F O I} (h : ¬ k.Holds) (flags flags' : F) :
    k.pending flags = k.pending flags' := by
  cases k with
  | inside => exact absurd trivial h
  | outside | saved | acquired | loaded | released => rfl

/-- In the run `tr` the CPU `c` is between save and restore, and `irq` was its interrupt state
before that save. -/
def EnteredWith (c : C) (irq : F) (tr : List (State C F D O I × Event C F A)) : Prop :=
  ∃ tr₁ s tr₂, tr = tr₁ ++ (s, ⟨c, .save⟩) :: tr₂ ∧ s.irq c = irq ∧
    ∀ p ∈ tr₂, p.2.cpu = c → p.2.action ≠ .save ∧ p.2.action ≠ .restore

theorem enteredWith_save (tr : List (State C F D O I × Event C F A)) (s : State C F D O I) (c : C) :
    EnteredWith c (s.irq c) (tr ++ [(s, ⟨c, .save⟩)]) :=
  ⟨tr, s, [], rfl, rfl, nofun⟩

theorem EnteredWith.snoc {c : C} {irq : F} {tr : List (State C F D O I × Event C F A)}
    (h : EnteredWith c irq tr) (s : State C F D O I) {e : Event C F A}
    (he : e.cpu = c → e.action ≠ .save ∧ e.action ≠ .restore) :
    EnteredWith c irq (tr ++ [(s, e)]) := by
  obtain ⟨tr₁, s₁, tr₂, rfl, hirq, hbetween⟩ := h
  refine ⟨tr₁, s₁, tr₂ ++ [(s, e)], by rw [List.append_assoc, List.cons_append], hirq, ?_⟩
  exact List.forall_mem_append.2 ⟨hbetween, List.forall_mem_singleton.2 he⟩

/-- A step of a CPU begins a section, ends one or leaves what the CPU will restore. -/
theorem Moves.pending {disable : F → F} {code : Code D O I A} {g g' : Shared F D} {irq irq' : F}
    {k k' : Ctrl F O I} {a : Action F A} (h : Moves disable code g irq k a g' irq' k') :
    (a = .save ∧ k'.pending g'.flags = some irq) ∨
    (a = .restore ∧ k.pending g.flags = some irq' ∧ k'.pending g'.flags = none) ∨
    ((a ≠ .save ∧ a ≠ .restore) ∧ k'.pending g'.flags = k.pending g.flags) := by
  cases h with
  | save => exact Or.inl ⟨rfl, rfl⟩
  | restore => exact Or.inr (Or.inl ⟨rfl, rfl, rfl⟩)
  | outer | inner | interruptsOutside | interruptsInside | acquire | store | load | release =>
      exact Or.inr (Or.inr ⟨⟨nofun, nofun⟩, rfl⟩)

/-- Only a CPU that has the lock writes to `flags`. -/
theorem Moves.flags {disable : F → F} {code : Code D O I A} {g g' : Shared F D} {irq irq' : F}
    {k k' : Ctrl F O I} {a : Action F A} (h : Moves disable code g irq k a g' irq' k') :
    g'.flags = g.flags ∨ k.Holds := by
  cases h with
  | store => exact Or.inr trivial
  | outer | inner | interruptsOutside | interruptsInside | save | acquire | load | release
  | restore => exact Or.inl rfl

/-! ### Runs -/

variable [DecidableEq C] {disable : F → F} {code : C → Code D O I A}

theorem Step.moves {s t : State C F D O I} {e : Event C F A} (h : Step disable code s e t) :
    ∃ g irq k, Moves disable (code e.cpu) s.shared (s.irq e.cpu) (s.ctrl e.cpu) e.action g irq k ∧
      t = ⟨g, Function.update s.irq e.cpu irq, Function.update s.ctrl e.cpu k⟩ := by
  unfold Step exec at h
  rw [Option.map_eq_some_iff] at h
  obtain ⟨⟨g, irq, k⟩, h, rfl⟩ := h
  exact ⟨g, irq, k, moves_of_cpuStep h, rfl⟩

/-- When one CPU moves, its new place and the new owner decide who has the lock. -/
theorem Owned.update {owner owner' : Option C} {s : State C F D O I} (h : Owned owner s) {c : C}
    {g : Shared F D} {irq : C → F} {k : Ctrl F O I} (hlocked : g.locked = owner'.isSome)
    (hc : k.Holds ↔ owner' = some c) (hd : ∀ d, d ≠ c → (owner = some d ↔ owner' = some d)) :
    Owned owner' ⟨g, irq, Function.update s.ctrl c k⟩ := by
  refine ⟨hlocked, fun d => ?_⟩
  dsimp only
  by_cases heq : d = c
  · rw [heq, Function.update_self]
    exact hc
  · rw [Function.update_of_ne heq, h.holds d]
    exact hd d heq

theorem Step.owned {s t : State C F D O I} {e : Event C F A} (h : Step disable code s e t)
    (hs : ∃ owner, Owned owner s) : ∃ owner, Owned owner t := by
  obtain ⟨owner, ho⟩ := hs
  obtain ⟨g, irq, k, hm, rfl⟩ := h.moves
  have hc := ho.holds e.cpu
  have hlocked := ho.locked
  generalize s.ctrl e.cpu = k₀ at hm hc
  generalize e.action = a at hm
  cases hm with
  | outer | inner | interruptsOutside | interruptsInside | save | store | load | restore =>
      exact ⟨owner, ho.update hlocked hc fun _ _ => Iff.rfl⟩
  | acquire hfree =>
      rw [hfree] at hlocked
      obtain rfl : owner = none := Option.not_isSome_iff_eq_none.1 (by rw [← hlocked]; nofun)
      refine ⟨some e.cpu, ho.update rfl (iff_of_true trivial rfl) fun d hd => ?_⟩
      exact iff_of_false nofun fun h => hd (Option.some_injective C h).symm
  | release =>
      obtain rfl : owner = some e.cpu := hc.1 trivial
      refine ⟨none, ho.update rfl (iff_of_false not_false nofun) fun d hd => ?_⟩
      exact iff_of_false (fun h => hd (Option.some_injective C h).symm) nofun

variable {flags : F} {data : D} {irq : C → F} {start : C → O} {s t : State C F D O I}
  {tr : List (State C F D O I × Event C F A)}

/-- In every run the lock is taken when a CPU has it, and one CPU at most has it. -/
theorem owned_of_run (h : Run (Step disable code) (init flags data irq start) tr s) :
    ∃ owner, Owned owner s :=
  h.invariant (I := fun s => ∃ owner, Owned owner s) (fun _ _ _ ho hs => hs.owned ho)
    ⟨none, owned_init flags data irq start⟩

/-- What a CPU will restore does not change in the steps of the others. -/
theorem Step.pending_of_ne {owner : Option C} {e : Event C F A} (h : Step disable code s e t)
    (ho : Owned owner s) {c : C} (hc : c ≠ e.cpu) :
    (t.ctrl c).pending t.shared.flags = (s.ctrl c).pending s.shared.flags := by
  obtain ⟨g, irq, k, hm, rfl⟩ := h.moves
  dsimp only
  rw [Function.update_of_ne hc]
  rcases hm.flags with hflags | hholds
  · rw [hflags]
  · exact Ctrl.pending_congr (fun h => hc (ho.unique h hholds)) _ _

/-- In every run, what a CPU will restore is its interrupt state before the save. -/
theorem enteredWith_of_pending (h : Run (Step disable code) (init flags data irq start) tr s)
    {c : C} {old : F} (hc : (s.ctrl c).pending s.shared.flags = some old) :
    EnteredWith c old tr := by
  induction h generalizing c old with
  | nil => cases hc
  | @snoc tr s t e hrun hs ih =>
      obtain ⟨owner, ho⟩ := owned_of_run hrun
      by_cases heq : c = e.cpu
      · subst heq
        obtain ⟨g, irq', k, hm, rfl⟩ := hs.moves
        dsimp only at hc
        rw [Function.update_self] at hc
        rcases hm.pending with ⟨ha, hk⟩ | ⟨-, -, hk⟩ | ⟨ha, hk⟩
        · -- the section begins
          rw [hk, Option.some.injEq] at hc
          subst hc
          obtain ⟨c, a⟩ := e
          subst ha
          exact enteredWith_save tr s c
        · rw [hk] at hc
          cases hc
        · rw [hk] at hc
          exact (ih hc).snoc s fun _ => ha
      · rw [hs.pending_of_ne ho heq] at hc
        exact (ih hc).snoc s fun h => absurd h.symm heq

/-- A CPU restores the interrupt state that it had before the matching save. -/
theorem enteredWith_of_restore (h : Run (Step disable code) (init flags data irq start) tr s)
    {c : C} (hs : Step disable code s ⟨c, .restore⟩ t) : EnteredWith c (t.irq c) tr := by
  obtain ⟨g, irq', k, hm, rfl⟩ := hs.moves
  dsimp only at hm ⊢
  rw [Function.update_self]
  rcases hm.pending with ⟨ha, -⟩ | ⟨-, hk, -⟩ | ⟨⟨-, ha⟩, -⟩
  · cases ha
  · exact enteredWith_of_pending h hk
  · exact absurd rfl ha

end Steps

/-! ### One call after the other -/

section Calls

variable {C K : Type} {ready k : K} {n : ℕ}

/-- `calls` are the calls of one CPU by their numbers: the CPU is in call `n`, which is at `k`, and
the calls after it have not begun. -/
structure InCall (ready : K) (n : ℕ) (k : K) (calls : ℕ → K) : Prop where
  current : calls n = k
  later : ∀ m, n < m → calls m = ready

theorem InCall.next {calls : ℕ → K} (h : InCall ready n k calls) :
    InCall ready (n + 1) ready calls :=
  ⟨h.later _ (Nat.lt_succ_self n), fun m hm => h.later m (Nat.lt_of_succ_lt hm)⟩

variable {F D O I A : Type}

/-- `calls` are the calls of all CPUs, when `R` says which call a CPU is in and where it is. -/
def Tracks (ready : K) (R : C → Ctrl F O I → ℕ → K → Prop) (ctrl : C → Ctrl F O I)
    (calls : C × ℕ → K) : Prop :=
  ∀ c, ∃ n k, R c (ctrl c) n k ∧ InCall ready n k fun m => calls (c, m)

variable [DecidableEq C] {R : C → Ctrl F O I → ℕ → K → Prop} {ctrl : C → Ctrl F O I}
  {calls : C × ℕ → K} {c : C} {l : Ctrl F O I}

/-- A CPU goes on in its call, or to the next one, without a step of the calls. -/
theorem Tracks.stay (h : Tracks ready R ctrl calls) (hl : R c l n k)
    (hk : InCall ready n k fun m => calls (c, m)) :
    Tracks ready R (Function.update ctrl c l) calls := by
  intro d
  by_cases hd : d = c
  · rw [hd, Function.update_self]
    exact ⟨n, k, hl, hk⟩
  · rw [Function.update_of_ne hd]
    exact h d

/-- A CPU makes a step of the call that it is in. -/
theorem Tracks.step {k' : K} (h : Tracks ready R ctrl calls) (hl : R c l n k')
    (hk : InCall ready n k fun m => calls (c, m)) :
    Tracks ready R (Function.update ctrl c l) (Function.update calls (c, n) k') := by
  intro d
  by_cases hd : d = c
  · rw [hd, Function.update_self]
    refine ⟨n, k', hl, Function.update_self _ _ _, fun m hm => ?_⟩
    have hne : (c, m) ≠ (c, n) := fun heq => Nat.ne_of_gt hm (Prod.ext_iff.1 heq).2
    rw [Function.update_of_ne hne]
    exact hk.later m hm
  · have hne : ∀ m, (d, m) ≠ (c, n) := fun m heq => hd (Prod.ext_iff.1 heq).1
    simp only [Function.update_of_ne hd, Function.update_of_ne (hne _)]
    exact h d

/-- If every step of a CPU leaves the globals and its call, or leaves the globals and goes to the
next call, or is a step of its call, then the runs are runs of the calls. -/
theorem run_calls {disable : F → F} {code : C → Code D O I A} {σ ℓ G : Type}
    {step : σ → ℓ → σ → Prop} (state : G → (C × ℕ → K) → σ) (globals : Shared F D → G)
    (hmove : ∀ c {g g' irq irq' l l' a n k}, Moves disable (code c) g irq l a g' irq' l' →
      R c l n k →
      (globals g' = globals g ∧ R c l' n k) ∨ (globals g' = globals g ∧ R c l' (n + 1) ready) ∨
      ∃ k', R c l' n k' ∧ ∀ calls : C × ℕ → K, calls (c, n) = k → ∃ e,
        step (state (globals g) calls) e
          (state (globals g') (Function.update calls (c, n) k')))
    {flags : F} {data : D} {irq : C → F} {start : C → O}
    (hstart : ∀ c, R c (.outside (start c)) 0 ready)
    {tr : List (State C F D O I × Event C F A)} {s : State C F D O I}
    (h : Run (Step disable code) (init flags data irq start) tr s) :
    ∃ tr' calls, Run step (state (globals ⟨false, flags, data⟩) fun _ => ready) tr'
        (state (globals s.shared) calls) ∧ Tracks ready R s.ctrl calls := by
  have hsim : ∀ s e t s', Step disable code s e t →
      (∃ calls, s' = state (globals s.shared) calls ∧ Tracks ready R s.ctrl calls) →
      ∃ tr' t', Run step s' tr' t' ∧
        ∃ calls, t' = state (globals t.shared) calls ∧ Tracks ready R t.ctrl calls := by
    rintro s e t _ hs ⟨calls, rfl, htracks⟩
    obtain ⟨g, irq', l, hm, rfl⟩ := hs.moves
    obtain ⟨n, k, hl, hk⟩ := htracks e.cpu
    rcases hmove e.cpu hm hl with ⟨hg, hl'⟩ | ⟨hg, hl'⟩ | ⟨k', hl', hstep⟩
    · exact ⟨[], _, .nil, calls, by rw [hg], htracks.stay hl' hk⟩
    · exact ⟨[], _, .nil, calls, by rw [hg], htracks.stay hl' hk.next⟩
    · obtain ⟨e', hstep⟩ := hstep calls hk.current
      exact ⟨_, _, Run.nil.snoc hstep, _, rfl, htracks.step hl' hk⟩
  have hinit : Tracks ready R (fun c => .outside (start c)) fun _ => ready :=
    fun c => ⟨0, ready, hstart c, rfl, fun _ _ => rfl⟩
  obtain ⟨tr', _, hrun, calls, rfl, htracks⟩ := h.simulate hsim ⟨_, rfl, hinit⟩
  exact ⟨tr', calls, hrun, htracks⟩

/-- As `run_calls`, when `event` says which step of its call a step of a CPU is. -/
theorem run_calls_events {disable : F → F} {code : C → Code D O I A} {σ ℓ G : Type}
    {step : σ → ℓ → σ → Prop} (state : G → (C × ℕ → K) → σ) (globals : Shared F D → G)
    (event : C → Ctrl F O I → Action F A → Option ℓ)
    (hmove : ∀ c {g g' irq irq' l l' a n k}, Moves disable (code c) g irq l a g' irq' l' →
      R c l n k →
      (event c l a = none ∧ globals g' = globals g ∧ (R c l' n k ∨ R c l' (n + 1) ready)) ∨
      ∃ e k', event c l a = some e ∧ R c l' n k' ∧ ∀ calls : C × ℕ → K, calls (c, n) = k →
        step (state (globals g) calls) e
          (state (globals g') (Function.update calls (c, n) k')))
    {flags : F} {data : D} {irq : C → F} {start : C → O}
    (hstart : ∀ c, R c (.outside (start c)) 0 ready)
    {tr : List (State C F D O I × Event C F A)} {s : State C F D O I}
    (h : Run (Step disable code) (init flags data irq start) tr s) :
    ∃ tr' calls, Run step (state (globals ⟨false, flags, data⟩) fun _ => ready) tr'
        (state (globals s.shared) calls) ∧ Tracks ready R s.ctrl calls ∧
      tr'.map Prod.snd = tr.filterMap fun p => event p.2.cpu (p.1.ctrl p.2.cpu) p.2.action := by
  induction h with
  | nil => exact ⟨[], fun _ => ready, .nil, fun c => ⟨0, ready, hstart c, rfl, fun _ _ => rfl⟩, rfl⟩
  | @snoc tr s t e hrun hs ih =>
      obtain ⟨tr', calls, hcalls, htracks, hevents⟩ := ih
      obtain ⟨g, irq', l, hm, rfl⟩ := hs.moves
      obtain ⟨n, k, hl, hk⟩ := htracks e.cpu
      rw [List.filterMap_append, ← hevents]
      rcases hmove e.cpu hm hl with ⟨he, hg, hl'⟩ | ⟨e', k', he, hl', hstep⟩
      · refine ⟨tr', calls, ?_, ?_, by simp [he]⟩
        · dsimp only
          rw [hg]
          exact hcalls
        · rcases hl' with hl' | hl'
          · exact htracks.stay hl' hk
          · exact htracks.stay hl' hk.next
      · exact ⟨_, _, hcalls.snoc (hstep calls hk.current), htracks.step hl' hk, by simp [he]⟩

end Calls

end SpinLock
