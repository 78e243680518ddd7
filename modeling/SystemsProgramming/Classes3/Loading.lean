import SystemsProgramming.Classes3.Circular.Calls
import SystemsProgramming.Library.ModuleLife

/-!
# Loading the modules of `Classes3`

`circular_init` and `advanced_init` do not undo what they have registered when a later call fails, so a
failed load leaves a registration of an image that is gone.  From then on `circular` loads without its
device, and `advanced` does not load any more.
-/

/-! ### `circular.c` -/

namespace CircularLife

open Transition ModuleLife
open Kernel (ebusy)
open Circular (Device enomem initialSize)

/-- What the module registers: `/proc/circular` and the minor number of `/dev/circular`. -/
inductive Name where
  | proc
  | minor
  deriving DecidableEq

theorem Name.cases (n : Name) : n = .proc ∨ n = .minor := by
  cases n <;> simp

/-- The calls of `circular_init` that fail. -/
structure InitFails where
  procCreate : Bool
  miscRegister : Bool
  kmalloc : Bool

/-- Whether `proc_entry` and `buffer` are set. -/
structure Globals where
  procEntry : Bool
  buffer : Bool
  deriving DecidableEq

/-- `circular_init`, as far as it registers and allocates -/
def circularInit (id : ℕ) (fails : InitFails) (k : Kernel Name) : Kernel Name × Globals × ℤ :=
  let (k, procEntry) := k.register id .proc fails.procCreate
  if procEntry = false then (k, ⟨false, false⟩, 0)
  else
    let (k, registered) := k.register id .minor fails.miscRegister
    -- a failure of `misc_register` is only logged
    let result := if registered then 0 else -ebusy
    let (k, buffer) := k.alloc fails.kmalloc
    if buffer = false then (k.deregister id .minor, ⟨true, false⟩, -enomem)
    else (k, ⟨true, true⟩, result)

/-- `circular_exit` -/
def circularExit (id : ℕ) (g : Globals) (k : Kernel Name) : Kernel Name :=
  let k := k.deregister id .minor
  let k := if g.buffer then k.free else k
  if g.procEntry then k.deregister id .proc else k

/-- The module. -/
def code : Code Name Globals InitFails where
  init := circularInit
  exit := circularExit

section Calls

variable {id : ℕ} {f : InitFails} {k : Kernel Name}

theorem circularInit_refused (h : ¬ k.Grants .proc f.procCreate) :
    circularInit id f k = (k, ⟨false, false⟩, 0) := by
  simp [circularInit, Kernel.register_of_not_grants h]

/-- A load that creates `/proc/circular`. -/
theorem circularInit_granted (hid : ∀ n, k.holder n ≠ some (.image id))
    (h : k.Grants .proc f.procCreate) : circularInit id f k =
    if k.Grants .minor f.miscRegister then
      if f.kmalloc then (k.grant id .proc, ⟨true, false⟩, -enomem)
      else (((k.grant id .proc).grant id .minor).grow, ⟨true, true⟩, 0)
    else
      if f.kmalloc then ((k.grant id .proc).misuse, ⟨true, false⟩, -enomem)
      else ((k.grant id .proc).grow, ⟨true, true⟩, -ebusy) := by
  have hholder : (k.grant id .proc).holder .minor = k.holder .minor :=
    Kernel.grant_holder_of_ne (by decide)
  have hiff : (k.grant id .proc).Grants .minor f.miscRegister ↔ k.Grants .minor f.miscRegister :=
    Kernel.grants_grant (by decide)
  by_cases hm : k.Grants .minor f.miscRegister
  · have hback := Kernel.deregister_grant (i := id) (hholder.trans hm.2)
    cases hk : f.kmalloc <;>
      simp [circularInit, Kernel.register_of_grants h, Kernel.register_of_grants (hiff.2 hm), hm, hk,
        Kernel.alloc, hback]
  · have hfree : (k.grant id .proc).holder .minor ≠ some (.image id) := hholder ▸ hid .minor
    have hback := Kernel.deregister_of_not_held hfree
    cases hk : f.kmalloc <;>
      simp [circularInit, Kernel.register_of_grants h, Kernel.register_of_not_grants (mt hiff.1 hm), hm,
        hk, Kernel.alloc, hback]

/-- The result is the one of `circular_init` on the memory of the module. -/
theorem circularInit_result (hid : ∀ n, k.holder n ≠ some (.image id)) {contents : ℕ → UInt8}
    {r : ℤ × Option Device}
    (h : Circular.circularInit (decide (k.Grants .proc f.procCreate))
      (if k.Grants .minor f.miscRegister then 0 else -ebusy)
      (if f.kmalloc then none else some contents) = .ok r) : r.1 = (circularInit id f k).2.2 := by
  by_cases hp : k.Grants .proc f.procCreate
  · rw [circularInit_granted hid hp]
    cases hk : f.kmalloc
    · have hbuffer : Memory.kmalloc (initialSize : ℤ) (some contents) =
          some ((List.range initialSize).map contents) := rfl
      simp only [Circular.circularInit, hp, hk, hbuffer, decide_true, not_true_eq_false,
        Bool.false_eq_true, if_false] at h
      cases hfill :
          Memory.fillCells (0 : UInt8) initialSize ((List.range initialSize).map contents) with
      | error fault =>
          rw [hfill] at h
          cases h
      | ok buffer =>
          rw [hfill] at h
          cases h
          simp only [Bool.false_eq_true, if_false]
          split <;> rfl
    · have hbuffer : Memory.kmalloc (initialSize : ℤ) (none : Option (ℕ → UInt8)) = none := rfl
      simp only [Circular.circularInit, hp, hk, hbuffer, decide_true, not_true_eq_false, if_false,
        if_true, Except.ok.injEq] at h
      subst h
      split <;> rfl
  · rw [circularInit_refused hp]
    simp only [Circular.circularInit, hp, decide_false, Bool.false_eq_true, not_false_eq_true, if_true,
      Except.ok.injEq] at h
    subst h
    rfl

/-- The exit function undoes a complete load. -/
theorem circularExit_done (hp : k.holder .proc = some (.image id))
    (hm : k.holder .minor = some (.image id)) : circularExit id ⟨true, true⟩ k =
      (k.unregister .minor).free.unregister .proc := by
  have hkeep : (k.unregister .minor).holder .proc = k.holder .proc :=
    Kernel.unregister_holder_of_ne (by decide)
  have hheld : (k.unregister .minor).free.holder .proc = some (.image id) := hkeep.trans hp
  simp [circularExit, Kernel.deregister_of_held hm, Kernel.deregister_of_held hheld]

/-- Without anything registered it asks the kernel to unregister all the same. -/
theorem circularExit_refused (hm : k.holder .minor ≠ some (.image id)) :
    circularExit id ⟨false, false⟩ k = k.misuse := by
  simp [circularExit, Kernel.deregister_of_not_held hm]

end Calls

/-! ### Every history -/

/-- The load creates `/proc/circular`, and a later call fails. -/
def FailsLate (f : InitFails) (k : Kernel Name) : Prop :=
  k.Grants .proc f.procCreate ∧ ¬ (k.Grants .minor f.miscRegister ∧ f.kmalloc = false)

/-- A step that is such a load. -/
def failsLate (p : State Name Globals × Event Name InitFails) : Prop :=
  ∃ f, p.2 = .insmod f ∧ FailsLate f p.1.kernel

/-- As long as no load has failed late: the loaded image holds both names if it has a buffer, and
otherwise none. -/
structure Clean (s : State Name Globals) : Prop where
  whole : Whole (fun g => g = ⟨true, true⟩) s
  image : ∀ i g, s.image = some (i, g) → g = ⟨true, true⟩ ∨ g = ⟨false, false⟩

/-- From then on: `/proc/circular` belongs to an image that is gone, and nobody holds the device. -/
structure Broken (s : State Name Globals) : Prop where
  proc : ∃ j, s.kernel.holder .proc = some (.image j) ∧ j < s.loads ∧ ∀ g, s.image ≠ some (j, g)
  minor : ∀ i, s.kernel.holder .minor ≠ some (.image i)
  image : ∀ i g, s.image = some (i, g) → g = ⟨false, false⟩

theorem lawful : code.Lawful where
  init {id f k n i} h := by
    rcases hp : k.register id .proc f.procCreate with ⟨k₁, procEntry⟩
    rcases hm : k₁.register id .minor f.miscRegister with ⟨k₂, registered⟩
    rcases ha : k₂.alloc f.kmalloc with ⟨k₃, buffer⟩
    have h₁ : k₁.holder n = some (.image i) → i = id ∨ k.holder n = some (.image i) := fun hn =>
      Kernel.holder_of_register (by rw [hp]; exact hn)
    have h₂ : k₂.holder n = some (.image i) → i = id ∨ k.holder n = some (.image i) := fun hn =>
      (Kernel.holder_of_register (by rw [hm]; exact hn)).elim Or.inl h₁
    have h₃ : k₃.holder = k₂.holder := by
      have hkeep := congrArg (fun r => r.1.holder) ha
      simpa using hkeep.symm
    simp only [code, circularInit, hp, hm, ha] at h
    split at h
    · exact h₁ h
    · split at h
      · exact h₂ (h₃ ▸ Kernel.holder_of_deregister h)
      · exact h₂ (h₃ ▸ h)
  exit {id g k n i} h := by
    have hfree : ∀ b : Bool, (if b then (k.deregister id .minor).free
        else k.deregister id .minor).holder = (k.deregister id .minor).holder := by
      intro b
      cases b <;> rfl
    simp only [code, circularExit] at h
    refine Kernel.holder_of_deregister (i := id) (n := .minor) ?_
    rw [← hfree g.buffer]
    split at h
    · exact Kernel.holder_of_deregister h
    · exact h

section Histories

variable {s s' : State Name Globals} {e : Event Name InitFails} {f : InitFails}

theorem clean_start : Clean start := ⟨whole_start, by simp [start]⟩

theorem load_refused (h : ¬ s.kernel.Grants .proc f.procCreate) : s.load code f =
    { kernel := s.kernel, image := some (s.loads, ⟨false, false⟩), loads := s.loads + 1 } := by
  simp [State.load, code, circularInit_refused h]

theorem Clean.load (h : Clean s) (hi : s.image = none)
    (hid : ∀ n, s.kernel.holder n ≠ some (.image s.loads)) (hf : ¬ FailsLate f s.kernel) :
    Clean (s.load code f) := by
  by_cases hp : s.kernel.Grants .proc f.procCreate
  · obtain ⟨hm, hk⟩ : s.kernel.Grants .minor f.miscRegister ∧ f.kmalloc = false := by
      by_contra hno
      exact hf ⟨hp, hno⟩
    have hinit : circularInit s.loads f s.kernel =
        (((s.kernel.grant s.loads .proc).grant s.loads .minor).grow, ⟨true, true⟩, 0) := by
      rw [circularInit_granted hid hp, if_pos hm, if_neg (by simp [hk])]
    have hload : (s.load code f).image = some (s.loads, ⟨true, true⟩) := by
      simp [State.load, code, hinit]
    refine ⟨whole_of_held hload rfl ?_, fun i g hg => ?_⟩
    · show (circularInit s.loads f s.kernel).1.holder = _
      rw [hinit, Kernel.grow_holder, Kernel.grant_both Name.cases]
    · rw [hload] at hg
      cases hg
      exact Or.inl rfl
  · rw [load_refused hp]
    exact ⟨whole_of_unheld (by simp) (h.whole.unheld_of_none hi), by simp⟩

theorem Clean.load_failsLate (h : Clean s) (hi : s.image = none)
    (hid : ∀ n, s.kernel.holder n ≠ some (.image s.loads)) (hf : FailsLate f s.kernel) :
    Broken (s.load code f) := by
  have h := h.whole.unheld_of_none hi
  have hproc : ∀ {k : Kernel Name}, k.holder = (s.kernel.grant s.loads .proc).holder →
      k.holder .proc = some (.image s.loads) ∧ ∀ i, k.holder .minor ≠ some (.image i) := by
    intro k hk
    rw [hk]
    refine ⟨Kernel.grant_holder_self, fun i => ?_⟩
    rw [Kernel.grant_holder_of_ne (by decide)]
    exact h .minor i
  have henomem : -enomem < 0 := by decide
  have hebusy : -ebusy < 0 := by decide
  have hfail : (circularInit s.loads f s.kernel).2.2 < 0 ∧
      (circularInit s.loads f s.kernel).1.holder = (s.kernel.grant s.loads .proc).holder := by
    rw [circularInit_granted hid hf.1]
    by_cases hm : s.kernel.Grants .minor f.miscRegister
    · have hk : f.kmalloc = true := by
        by_contra hk
        exact hf.2 ⟨hm, by simpa using hk⟩
      rw [if_pos hm, if_pos hk]
      exact ⟨henomem, rfl⟩
    · rw [if_neg hm]
      split
      · exact ⟨henomem, rfl⟩
      · exact ⟨hebusy, rfl⟩
  have himage : (s.load code f).image = none := if_pos hfail.1
  obtain ⟨hj, hm⟩ := hproc hfail.2
  refine ⟨⟨s.loads, hj, Nat.lt_succ_self _, fun g => ?_⟩, hm, fun i g hg => ?_⟩
  · rw [himage]
    simp
  · rw [himage] at hg
    cases hg

/-- The exit function of a clean image leaves nothing behind. -/
theorem Clean.unload (h : Clean s) {id : ℕ} {g : Globals} (hi : s.image = some (id, g)) :
    Clean (s.unload code id g) := by
  suffices hexit : (circularExit id g s.kernel).Unheld from
    ⟨whole_of_unheld (by simp [State.unload]) hexit, by simp [State.unload]⟩
  rcases h.image id g hi with rfl | rfl
  · have hheld := h.whole.held hi rfl
    rw [circularExit_done (congrFun hheld .proc) (congrFun hheld .minor)]
    exact Kernel.unregister_both (k := s.kernel.free) fun n => (Name.cases n).symm
  · have hunheld : s.kernel.Unheld := h.whole.unheld (by simp [hi])
    rw [circularExit_refused (hunheld .minor id)]
    exact hunheld

theorem Clean.hold (h : Clean s) {n : Name} {o : Option Holder}
    (hn : ∀ i, s.kernel.holder n ≠ some (.image i)) (ho : ∀ i, o ≠ some (.image i)) :
    Clean (s.hold n o) :=
  ⟨h.whole.hold hn ho, h.image⟩

theorem Broken.hold (h : Broken s) {n : Name} {o : Option Holder}
    (hn : ∀ i, s.kernel.holder n ≠ some (.image i)) (ho : ∀ i, o ≠ some (.image i)) :
    Broken (s.hold n o) := by
  obtain ⟨j, hj, hlt, hgone⟩ := h.proc
  have hne : n ≠ .proc := by
    rintro rfl
    exact hn j hj
  refine ⟨⟨j, (Function.update_of_ne hne.symm ..).trans hj, hlt, hgone⟩, fun i hi => ?_, h.image⟩
  exact h.minor i (holder_of_hold (ho i) hi)

/-- A load does not get `/proc/circular` any more. -/
theorem Broken.load_eq (h : Broken s) : s.load code f =
    { kernel := s.kernel, image := some (s.loads, ⟨false, false⟩), loads := s.loads + 1 } := by
  obtain ⟨j, hj, -⟩ := h.proc
  refine load_refused fun hp => ?_
  rw [hp.2] at hj
  cases hj

theorem Broken.load (h : Broken s) : Broken (s.load code f) := by
  obtain ⟨j, hj, hlt, hgone⟩ := h.proc
  rw [h.load_eq]
  refine ⟨⟨j, hj, hlt.trans (Nat.lt_succ_self _), fun g hg => ?_⟩, h.minor, fun i g hg => ?_⟩
  · simp only [Option.some.injEq, Prod.mk.injEq] at hg
    omega
  · simp only [Option.some.injEq, Prod.mk.injEq] at hg
    exact hg.2.symm

theorem Broken.unload (h : Broken s) {id : ℕ} {g : Globals} (hi : s.image = some (id, g)) :
    Broken (s.unload code id g) := by
  obtain ⟨j, hj, hlt, -⟩ := h.proc
  obtain rfl := h.image id g hi
  have hexit : s.unload code id ⟨false, false⟩ =
      { kernel := s.kernel.misuse, image := none, loads := s.loads } := by
    simp [State.unload, code, circularExit_refused (h.minor id)]
  rw [hexit]
  exact ⟨⟨j, hj, hlt, by simp⟩, h.minor, by simp⟩

theorem Broken.step (h : Broken s) (hs : Step code s e s') : Broken s' := by
  cases hs with
  | insmod f hi => exact h.load
  | rmmod hi => exact h.unload hi
  | take hn => exact h.hold (by simp [hn]) (by simp)
  | give hn => exact h.hold (by simp [hn]) (by simp)

theorem unheld_loads (h : Reachable (Step code) start s) (n : Name) :
    s.kernel.holder n ≠ some (.image s.loads) := fun hn =>
  lt_irrefl _ ((lt_loads lawful h).1 n _ hn)

/-- What a history has left. -/
theorem clean_or_broken {tr : List (State Name Globals × Event Name InitFails)}
    (h : Run (Step code) start tr s) :
    ((∀ p ∈ tr, ¬ failsLate p) → Clean s) ∧ ((∃ p ∈ tr, failsLate p) → Broken s) := by
  refine Run.turn clean_start (fun s e t hreach hc hno hs => ?_) (fun s e t hreach hc hf hs => ?_)
    (fun s e t hb hs => hb.step hs) h
  · cases hs with
    | insmod f hi => exact hc.load hi (unheld_loads hreach) fun hf => hno ⟨f, rfl, hf⟩
    | rmmod hi => exact hc.unload hi
    | take hn => exact hc.hold (by simp [hn]) (by simp)
    | give hn => exact hc.hold (by simp [hn]) (by simp)
  · obtain ⟨f, he, hf⟩ := hf
    obtain rfl : e = .insmod f := he
    cases hs with
    | insmod _ hi => exact hc.load_failsLate hi (unheld_loads hreach) hf

/-! ### The books -/

/-- The loaded image has its buffer. -/
def hasBuffer (s : State Name Globals) : Bool :=
  match s.image with
  | some (_, g) => g.buffer
  | none => false

/-- A load that fails with its buffer allocated. -/
def leaksBuffer (p : State Name Globals × Event Name InitFails) : Bool :=
  match p.2 with
  | .insmod f => p.1.kernel.Grants .proc f.procCreate ∧ ¬ p.1.kernel.Grants .minor f.miscRegister ∧
      f.kmalloc = false
  | _ => false

/-- A load that fails in both later calls, or the exit function of an image that has registered
nothing. -/
def misuses (p : State Name Globals × Event Name InitFails) : Bool :=
  match p.2 with
  | .insmod f => p.1.kernel.Grants .proc f.procCreate ∧ ¬ p.1.kernel.Grants .minor f.miscRegister ∧
      f.kmalloc = true
  | .rmmod =>
    match p.1.image with
    | some (_, g) => !g.procEntry
    | none => false
  | _ => false

/-- What a step does to the buffers and to the registrations. -/
structure Booked (s s' : State Name Globals) (leaks misuses : Bool) : Prop where
  blocks : s'.kernel.blocks + (hasBuffer s).toNat =
    s.kernel.blocks + (hasBuffer s').toNat + leaks.toNat
  misused : s'.kernel.misused = s.kernel.misused + misuses.toNat

theorem booked_load (hi : s.image = none) (hid : ∀ n, s.kernel.holder n ≠ some (.image s.loads)) :
    Booked s (s.load code f) (leaksBuffer (s, .insmod f)) (misuses (s, .insmod f)) := by
  by_cases hp : s.kernel.Grants .proc f.procCreate
  · have hinit := circularInit_granted (f := f) hid hp
    by_cases hm : s.kernel.Grants .minor f.miscRegister <;> cases hk : f.kmalloc <;>
      simp only [hm, hk, if_true, if_false, Bool.false_eq_true] at hinit <;>
      constructor <;>
      simp [hasBuffer, hi, State.load, code, hinit, leaksBuffer, misuses, hp, hm, hk, Kernel.grow,
        Kernel.misuse, enomem, ebusy]
  · rw [load_refused hp]
    constructor <;> simp [hasBuffer, hi, leaksBuffer, misuses, hp]

theorem booked_refused {id : ℕ} (hi : s.image = some (id, ⟨false, false⟩))
    (hm : s.kernel.holder .minor ≠ some (.image id)) :
    Booked s (s.unload code id ⟨false, false⟩) (leaksBuffer (s, .rmmod)) (misuses (s, .rmmod)) := by
  constructor <;>
    simp [hasBuffer, hi, State.unload, code, circularExit_refused hm, leaksBuffer, misuses,
      Kernel.misuse]

theorem booked_step (hclean : Clean s ∨ Broken s) (hblocks : (hasBuffer s).toNat ≤ s.kernel.blocks)
    (hid : ∀ n, s.kernel.holder n ≠ some (.image s.loads)) (hs : Step code s e s') :
    Booked s s' (leaksBuffer (s, e)) (misuses (s, e)) := by
  cases hs with
  | insmod f hi => exact booked_load hi hid
  | take hn | give hn =>
      constructor <;> simp [hasBuffer, State.hold, leaksBuffer, misuses]
  | @rmmod id g hi =>
      rcases hclean with hc | hb
      · rcases hc.image id g hi with rfl | rfl
        · have hpos : 1 ≤ s.kernel.blocks := by simpa [hasBuffer, hi] using hblocks
          have hheld := hc.whole.held hi rfl
          have hexit := circularExit_done (congrFun hheld .proc) (congrFun hheld .minor)
          constructor
          · simp [hasBuffer, hi, State.unload, code, hexit, leaksBuffer, Kernel.unregister,
              Kernel.free]
            omega
          · simp [hi, State.unload, code, hexit, misuses, Kernel.unregister, Kernel.free]
        · exact booked_refused hi (hc.whole.unheld (by simp [hi]) .minor id)
      · obtain rfl := hb.image id g hi
        exact booked_refused hi (hb.minor id)

/-- The buffers that are allocated, and how often something was unregistered that was not registered. -/
theorem books {tr : List (State Name Globals × Event Name InitFails)}
    (h : Run (Step code) start tr s) :
    s.kernel.blocks = (hasBuffer s).toNat + tr.countP leaksBuffer ∧
      s.kernel.misused = tr.countP misuses := by
  induction h with
  | nil => exact ⟨rfl, rfl⟩
  | @snoc tr s t e hrun hs ih =>
      have hstate : Clean s ∨ Broken s := by
        by_cases hf : ∃ p ∈ tr, failsLate p
        · exact Or.inr ((clean_or_broken hrun).2 hf)
        · push Not at hf
          exact Or.inl ((clean_or_broken hrun).1 hf)
      obtain ⟨hblocks, hmisused⟩ := ih
      have hb := booked_step hstate (by omega) (unheld_loads hrun.reachable) hs
      constructor
      · have := hb.blocks
        rw [List.countP_append, List.countP_singleton]
        cases hl : leaksBuffer (s, e) <;> simp only [hl, Bool.toNat_true, Bool.toNat_false] at this <;>
          simp <;> omega
      · rw [hb.misused, hmisused, List.countP_append, List.countP_singleton]
        cases misuses (s, e) <;> rfl

/-- A registration outlives its image exactly if some load created `/proc/circular` and failed later.
From then on loading the module returns 0 and registers nothing.  A buffer is leaked by each load that
fails in `misc_register` alone, and the device is unregistered without having been registered by each
load that fails in both calls and each unload of an image that has registered nothing. -/
theorem circular_history {tr : List (State Name Globals × Event Name InitFails)}
    (h : Run (Step code) start tr s) :
    (Dangling s ↔ ∃ p ∈ tr, failsLate p) ∧
      ((∃ p ∈ tr, failsLate p) → ∀ f s', Step code s (.insmod f) s' →
        s'.image = some (s.loads, ⟨false, false⟩) ∧ s'.kernel = s.kernel) ∧
      s.kernel.blocks = (hasBuffer s).toNat + tr.countP leaksBuffer ∧
      s.kernel.misused = tr.countP misuses := by
  obtain ⟨hclean, hbroken⟩ := clean_or_broken h
  refine ⟨⟨fun hd => ?_, fun hf => ?_⟩, fun hf f s' hs => ?_, books h⟩
  · by_contra hno
    push Not at hno
    exact (hclean hno).whole.not_dangling hd
  · obtain ⟨j, hj, -, hgone⟩ := (hbroken hf).proc
    exact ⟨.proc, j, hj, hgone⟩
  · cases hs with
    | insmod _ hi =>
        rw [(hbroken hf).load_eq]
        exact ⟨rfl, rfl⟩

/-- The minor number is in use, and the load leaves `/proc/circular` and a buffer.  The two images that
come after it unregister a device that is not registered. -/
theorem circular_history_minor_in_use :
    ∃ (s : State Name Globals) (tr : List (State Name Globals × Event Name InitFails)),
      s.kernel.holder .proc = some (.image 0) ∧ s.image = none ∧
      s.kernel.blocks = 1 ∧ s.kernel.misused = 2 ∧ (Dangling s ↔ ∃ p ∈ tr, failsLate p) ∧
      s.kernel.blocks = (hasBuffer s).toNat + tr.countP leaksBuffer ∧
      s.kernel.misused = tr.countP misuses := by
  let es : List (Event Name InitFails) := [.take .minor, .insmod ⟨false, false, false⟩,
    .insmod ⟨false, false, false⟩, .rmmod, .insmod ⟨false, false, false⟩, .rmmod]
  have hs : (replay (ModuleLife.exec code) es start).isSome := rfl
  have h := circular_history (run_of_replay (fun _ _ _ => step_of_exec) (Option.some_get hs).symm)
  exact ⟨_, _, rfl, rfl, rfl, rfl, h.1, h.2.2.1, h.2.2.2⟩

end Histories

end CircularLife

/-! ### `advanced.c` -/

namespace AdvancedLife

open Transition ModuleLife
open Circular (efault)

/-- What the module registers: the minor numbers of `/dev/prname` and `/dev/jiffies`. -/
inductive Name where
  | prname
  | jiffies
  deriving DecidableEq

theorem Name.cases (n : Name) : n = .prname ∨ n = .jiffies := by
  cases n <;> simp

/-- The calls of `advanced_init` that fail. -/
structure InitFails where
  prname : Bool
  jiffies : Bool

/-- `advanced_init` -/
def advancedInit (id : ℕ) (fails : InitFails) (k : Kernel Name) : Kernel Name × Unit × ℤ :=
  let (k, registered) := k.register id .prname fails.prname
  if registered = false then (k, (), -efault)
  else
    let (k, registered) := k.register id .jiffies fails.jiffies
    if registered = false then (k, (), -efault) else (k, (), 0)

/-- `advanced_exit` -/
def advancedExit (id : ℕ) (_ : Unit) (k : Kernel Name) : Kernel Name :=
  (k.deregister id .prname).deregister id .jiffies

/-- The module. -/
def code : Code Name Unit InitFails where
  init := advancedInit
  exit := advancedExit

/-- The load registers `/dev/prname` but not `/dev/jiffies`. -/
def FailsLate (f : InitFails) (k : Kernel Name) : Prop :=
  k.Grants .prname f.prname ∧ ¬ k.Grants .jiffies f.jiffies

/-- A step that is such a load. -/
def failsLate (p : State Name Unit × Event Name InitFails) : Prop :=
  ∃ f, p.2 = .insmod f ∧ FailsLate f p.1.kernel

section Calls

variable {id : ℕ} {f : InitFails} {k : Kernel Name}

theorem advancedInit_refused (h : ¬ k.Grants .prname f.prname) :
    advancedInit id f k = (k, (), -efault) := by
  simp [advancedInit, Kernel.register_of_not_grants h]

theorem advancedInit_granted (h : k.Grants .prname f.prname) : advancedInit id f k =
    if k.Grants .jiffies f.jiffies then ((k.grant id .prname).grant id .jiffies, (), 0)
    else (k.grant id .prname, (), -efault) := by
  have hiff : (k.grant id .prname).Grants .jiffies f.jiffies ↔ k.Grants .jiffies f.jiffies :=
    Kernel.grants_grant (by decide)
  by_cases hj : k.Grants .jiffies f.jiffies
  · simp [advancedInit, Kernel.register_of_grants h, Kernel.register_of_grants (hiff.2 hj), hj]
  · simp [advancedInit, Kernel.register_of_grants h,
      Kernel.register_of_not_grants (mt hiff.1 hj), hj]

end Calls

/-! ### Every history -/

/-- As long as no load has failed late: the loaded image holds both names. -/
structure Clean (s : State Name Unit) : Prop where
  whole : Whole (fun _ => True) s
  misused : s.kernel.misused = 0

/-- From then on: `/dev/prname` belongs to an image that is gone, and nothing is loaded. -/
structure Broken (s : State Name Unit) : Prop where
  prname : ∃ j, s.kernel.holder .prname = some (.image j)
  image : s.image = none
  misused : s.kernel.misused = 0

section Histories

variable {s s' : State Name Unit} {e : Event Name InitFails} {f : InitFails}

theorem clean_start : Clean start := ⟨whole_start, rfl⟩

theorem Clean.load (h : Clean s) (hi : s.image = none) (hf : ¬ FailsLate f s.kernel) :
    Clean (s.load code f) := by
  by_cases hp : s.kernel.Grants .prname f.prname
  · have hj : s.kernel.Grants .jiffies f.jiffies := by
      by_contra hj
      exact hf ⟨hp, hj⟩
    have hinit : advancedInit s.loads f s.kernel =
        ((s.kernel.grant s.loads .prname).grant s.loads .jiffies, (), 0) := by
      rw [advancedInit_granted hp, if_pos hj]
    have hload : s.load code f =
        { kernel := (s.kernel.grant s.loads .prname).grant s.loads .jiffies
          image := some (s.loads, ())
          loads := s.loads + 1 } := by
      simp [State.load, code, hinit]
    rw [hload]
    exact ⟨whole_of_held rfl trivial (Kernel.grant_both Name.cases), h.misused⟩
  · have hload : s.load code f =
        { kernel := s.kernel, image := none, loads := s.loads + 1 } := by
      simp [State.load, code, advancedInit_refused hp, efault]
    rw [hload]
    exact ⟨whole_of_unheld (by simp) (h.whole.unheld_of_none hi), h.misused⟩

theorem Clean.load_failsLate (h : Clean s) (hf : FailsLate f s.kernel) : Broken (s.load code f) := by
  have hload : s.load code f =
      { kernel := s.kernel.grant s.loads .prname, image := none, loads := s.loads + 1 } := by
    simp [State.load, code, advancedInit_granted hf.1, hf.2, efault]
  rw [hload]
  exact ⟨⟨s.loads, Kernel.grant_holder_self⟩, rfl, h.misused⟩

theorem Clean.unload (h : Clean s) {id : ℕ} {g : Unit} (hi : s.image = some (id, g)) :
    Clean (s.unload code id g) := by
  have hheld := h.whole.held hi trivial
  have hj : (s.kernel.unregister .prname).holder .jiffies = some (.image id) := by
    rw [Kernel.unregister_holder_of_ne (by decide), hheld]
  have hexit : advancedExit id g s.kernel = (s.kernel.unregister .prname).unregister .jiffies := by
    rw [advancedExit, Kernel.deregister_of_held (congrFun hheld .prname), Kernel.deregister_of_held hj]
  have hunload : s.unload code id g =
      { kernel := (s.kernel.unregister .prname).unregister .jiffies
        image := none
        loads := s.loads } := by
    simp [State.unload, code, hexit]
  rw [hunload]
  exact ⟨whole_of_unheld (by simp) (Kernel.unregister_both Name.cases), h.misused⟩

theorem Clean.hold (h : Clean s) {n : Name} {o : Option Holder}
    (hn : ∀ i, s.kernel.holder n ≠ some (.image i)) (ho : ∀ i, o ≠ some (.image i)) :
    Clean (s.hold n o) :=
  ⟨h.whole.hold hn ho, h.misused⟩

/-- A load does not get `/dev/prname` any more. -/
theorem Broken.load_eq (h : Broken s) :
    s.load code f = { kernel := s.kernel, image := none, loads := s.loads + 1 } := by
  obtain ⟨j, hj⟩ := h.prname
  have hp : ¬ s.kernel.Grants .prname f.prname := fun hp => by
    rw [hp.2] at hj
    cases hj
  simp [State.load, code, advancedInit_refused hp, efault]

theorem Broken.hold (h : Broken s) {n : Name} {o : Option Holder}
    (hn : ∀ i, s.kernel.holder n ≠ some (.image i)) : Broken (s.hold n o) := by
  obtain ⟨j, hj⟩ := h.prname
  have hne : n ≠ .prname := by
    rintro rfl
    exact hn j hj
  exact ⟨⟨j, (Function.update_of_ne hne.symm ..).trans hj⟩, h.image, h.misused⟩

theorem Broken.step (h : Broken s) (hs : Step code s e s') : Broken s' := by
  cases hs with
  | insmod f hi =>
      rw [h.load_eq]
      exact ⟨h.prname, rfl, h.misused⟩
  | rmmod hi =>
      rw [h.image] at hi
      cases hi
  | take hn => exact h.hold (by simp [hn])
  | give hn => exact h.hold (by simp [hn])

theorem clean_or_broken {tr : List (State Name Unit × Event Name InitFails)}
    (h : Run (Step code) start tr s) :
    ((∀ p ∈ tr, ¬ failsLate p) → Clean s) ∧ ((∃ p ∈ tr, failsLate p) → Broken s) := by
  refine Run.turn clean_start (fun s e t _ hc hno hs => ?_) (fun s e t _ hc hf hs => ?_)
    (fun s e t hb hs => hb.step hs) h
  · cases hs with
    | insmod f hi => exact hc.load hi fun hf => hno ⟨f, rfl, hf⟩
    | rmmod hi => exact hc.unload hi
    | take hn => exact hc.hold (by simp [hn]) (by simp)
    | give hn => exact hc.hold (by simp [hn]) (by simp)
  · obtain ⟨f, he, hf⟩ := hf
    obtain rfl : e = .insmod f := he
    cases hs with
    | insmod _ hi => exact hc.load_failsLate hf

/-- A registration outlives its image exactly if some load registered `/dev/prname` and not
`/dev/jiffies`.  From then on the module is not loaded and every load fails.  Nothing is unregistered
that is not registered. -/
theorem advanced_history {tr : List (State Name Unit × Event Name InitFails)}
    (h : Run (Step code) start tr s) :
    (Dangling s ↔ ∃ p ∈ tr, failsLate p) ∧
      ((∃ p ∈ tr, failsLate p) → s.image = none ∧ ∀ f s', Step code s (.insmod f) s' →
        s'.image = none ∧ s'.kernel = s.kernel) ∧
      s.kernel.misused = 0 := by
  obtain ⟨hclean, hbroken⟩ := clean_or_broken h
  refine ⟨⟨fun hd => ?_, fun hf => ?_⟩, fun hf => ⟨(hbroken hf).image, fun f s' hs => ?_⟩, ?_⟩
  · by_contra hno
    push Not at hno
    exact (hclean hno).whole.not_dangling hd
  · obtain ⟨j, hj⟩ := (hbroken hf).prname
    refine ⟨.prname, j, hj, fun g => ?_⟩
    rw [(hbroken hf).image]
    simp
  · cases hs with
    | insmod _ hi =>
        rw [(hbroken hf).load_eq]
        exact ⟨rfl, rfl⟩
  · by_cases hf : ∃ p ∈ tr, failsLate p
    · exact (hbroken hf).misused
    · push Not at hf
      exact (hclean hf).misused

/-- The minor number of `/dev/jiffies` is in use, and the load leaves `/dev/prname`. -/
theorem advanced_history_jiffies_in_use :
    ∃ (s : State Name Unit) (tr : List (State Name Unit × Event Name InitFails)),
      s.kernel.holder .prname = some (.image 0) ∧ s.image = none ∧
      (Dangling s ↔ ∃ p ∈ tr, failsLate p) ∧ s.kernel.misused = 0 := by
  let es : List (Event Name InitFails) := [.take .jiffies, .insmod ⟨false, false⟩]
  have hs : (replay (ModuleLife.exec code) es start).isSome := rfl
  have h := advanced_history (run_of_replay (fun _ _ _ => step_of_exec) (Option.some_get hs).symm)
  exact ⟨_, _, rfl, rfl, h.1, h.2.2⟩

end Histories

end AdvancedLife
