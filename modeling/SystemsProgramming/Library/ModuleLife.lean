import SystemsProgramming.Library.Run
import Mathlib.Logic.Function.Basic

/-!
# Loading and unloading a kernel module

`insmod` runs the init function of a module in a fresh image, which stays unless the function returns a
negative number; `rmmod` runs the exit function and drops the image.  What an image registers refers to
its code: after the image is gone it dangles.  Other drivers take and give back names meanwhile, and any
call of the kernel may fail.
-/

namespace ModuleLife

open Transition

/-! ### The kernel -/

/-- Who holds a name: another driver, or an image of the module. -/
inductive Holder where
  | other
  | image (id : ℕ)
  deriving DecidableEq

/-- What a module changes in the kernel. -/
structure Kernel (N : Type) where
  holder : N → Option Holder
  /-- the objects that are allocated -/
  blocks : ℕ
  /-- how often something was unregistered that was not registered -/
  misused : ℕ

namespace Kernel

variable {N : Type} [DecidableEq N]

/-- Gives a name to image `id`. -/
def grant (id : ℕ) (n : N) (k : Kernel N) : Kernel N :=
  { k with holder := Function.update k.holder n (some (.image id)) }

/-- Whether a name is given; `fails` stands for the failures other than a name in use. -/
def Grants (n : N) (fails : Bool) (k : Kernel N) : Prop := fails = false ∧ k.holder n = none

instance (n : N) (fails : Bool) (k : Kernel N) : Decidable (k.Grants n fails) :=
  inferInstanceAs (Decidable (_ ∧ _))

/-- Registers a name for image `id`. -/
def register (id : ℕ) (n : N) (fails : Bool) (k : Kernel N) : Kernel N × Bool :=
  if k.Grants n fails then (k.grant id n, true) else (k, false)

/-- The error of a refused registration. -/
def ebusy : ℤ := 16

/-- Unregisters what is registered under a name, no matter by whom. -/
def unregister (n : N) (k : Kernel N) : Kernel N :=
  { k with holder := Function.update k.holder n none }

/-- A call for something that is not registered. -/
def misuse (k : Kernel N) : Kernel N := { k with misused := k.misused + 1 }

/-- Unregisters what image `id` has registered itself. -/
def deregister (id : ℕ) (n : N) (k : Kernel N) : Kernel N :=
  if k.holder n = some (.image id) then k.unregister n else k.misuse

/-- One more object. -/
def grow (k : Kernel N) : Kernel N := { k with blocks := k.blocks + 1 }

/-- Allocates an object. -/
def alloc (fails : Bool) (k : Kernel N) : Kernel N × Bool :=
  if fails then (k, false) else (k.grow, true)

/-- Frees an object. -/
def free (k : Kernel N) : Kernel N := { k with blocks := k.blocks - 1 }

/-- No image holds a name. -/
def Unheld (k : Kernel N) : Prop := ∀ n i, k.holder n ≠ some (.image i)

variable {i : ℕ} {n m : N} {fails : Bool} {k : Kernel N}

@[simp] theorem grant_holder_self : (k.grant i n).holder n = some (.image i) :=
  Function.update_self ..

theorem grant_holder_of_ne (h : m ≠ n) : (k.grant i n).holder m = k.holder m :=
  Function.update_of_ne h ..

@[simp] theorem grant_blocks : (k.grant i n).blocks = k.blocks := rfl

@[simp] theorem grant_misused : (k.grant i n).misused = k.misused := rfl

theorem grants_grant (h : m ≠ n) : (k.grant i n).Grants m fails ↔ k.Grants m fails := by
  rw [Grants, Grants, grant_holder_of_ne h]

theorem register_of_grants (h : k.Grants n fails) : k.register i n fails = (k.grant i n, true) :=
  if_pos h

theorem register_of_not_grants (h : ¬ k.Grants n fails) : k.register i n fails = (k, false) :=
  if_neg h

/-- What was given can be taken back. -/
theorem deregister_grant (h : k.holder n = none) : (k.grant i n).deregister i n = k := by
  have hback : Function.update (Function.update k.holder n (some (.image i))) n none = k.holder := by
    rw [Function.update_idem, ← h, Function.update_eq_self]
  rw [deregister, if_pos grant_holder_self]
  exact congrArg (fun holder => { k with holder }) hback

theorem deregister_of_held (h : k.holder n = some (.image i)) :
    k.deregister i n = k.unregister n := if_pos h

theorem deregister_of_not_held (h : k.holder n ≠ some (.image i)) :
    k.deregister i n = k.misuse := if_neg h

@[simp] theorem unregister_holder_self : (k.unregister n).holder n = none := Function.update_self ..

theorem unregister_holder_of_ne (h : m ≠ n) : (k.unregister n).holder m = k.holder m :=
  Function.update_of_ne h ..

/-- A module that registers both names holds all there are. -/
theorem grant_both (hall : ∀ a, a = n ∨ a = m) :
    ((k.grant i n).grant i m).holder = fun _ => some (.image i) := by
  funext a
  by_cases ha : a = m
  · rw [ha, grant_holder_self]
  · rw [grant_holder_of_ne ha, (hall a).resolve_right ha, grant_holder_self]

theorem unregister_both (hall : ∀ a, a = n ∨ a = m) : ((k.unregister n).unregister m).Unheld := by
  intro a j ha
  by_cases ham : a = m
  · rw [ham, unregister_holder_self] at ha
    cases ha
  · rw [unregister_holder_of_ne ham, (hall a).resolve_right ham, unregister_holder_self] at ha
    cases ha

/-- Only image `i` is registered for. -/
theorem holder_of_register {j : ℕ} (h : (k.register i n fails).1.holder m = some (.image j)) :
    j = i ∨ k.holder m = some (.image j) := by
  by_cases hg : k.Grants n fails
  · rw [register_of_grants hg] at h
    by_cases hmn : m = n
    · subst hmn
      rw [grant_holder_self] at h
      cases h
      exact Or.inl rfl
    · exact Or.inr ((grant_holder_of_ne hmn).symm.trans h)
  · rw [register_of_not_grants hg] at h
    exact Or.inr h

theorem holder_of_unregister {h : Holder} (hm : (k.unregister n).holder m = some h) :
    k.holder m = some h := by
  by_cases hmn : m = n
  · subst hmn
    rw [unregister_holder_self] at hm
    cases hm
  · exact (unregister_holder_of_ne hmn).symm.trans hm

theorem Unheld.unregister (h : k.Unheld) (n : N) : (k.unregister n).Unheld := fun m i hm =>
  h m i (holder_of_unregister hm)

theorem holder_of_deregister {h : Holder} (hm : (k.deregister i n).holder m = some h) :
    k.holder m = some h := by
  by_cases hn : k.holder n = some (.image i)
  · rw [deregister_of_held hn] at hm
    exact holder_of_unregister hm
  · rw [deregister_of_not_held hn] at hm
    exact hm

omit [DecidableEq N] in
@[simp] theorem alloc_holder : (k.alloc fails).1.holder = k.holder := by
  cases fails <;> rfl

omit [DecidableEq N] in
@[simp] theorem free_holder : k.free.holder = k.holder := rfl

omit [DecidableEq N] in
@[simp] theorem grow_holder : k.grow.holder = k.holder := rfl

end Kernel

/-! ### Modules -/

/-- The code of a module with the globals `G`; `F` says which calls of the init function fail. -/
structure Code (N G F : Type) where
  init : ℕ → F → Kernel N → Kernel N × G × ℤ
  exit : ℕ → G → Kernel N → Kernel N

/-- The kernel and the image that is loaded, with its number. -/
structure State (N G : Type) where
  kernel : Kernel N
  image : Option (ℕ × G)
  /-- the number of images so far -/
  loads : ℕ

/-- What can happen. -/
inductive Event (N F : Type) where
  | insmod (f : F)
  | rmmod
  /-- another driver takes a name -/
  | take (n : N)
  /-- another driver gives a name back -/
  | give (n : N)

section Exec

variable {N G F : Type}

/-- Nothing is registered or loaded. -/
def start : State N G where
  kernel := { holder := fun _ => none, blocks := 0, misused := 0 }
  image := none
  loads := 0

/-- The init function runs, and the image stays unless it returned an error. -/
def State.load (C : Code N G F) (f : F) (s : State N G) : State N G where
  kernel := (C.init s.loads f s.kernel).1
  image :=
    if (C.init s.loads f s.kernel).2.2 < 0 then none
    else some (s.loads, (C.init s.loads f s.kernel).2.1)
  loads := s.loads + 1

/-- The exit function runs, and the image is dropped. -/
def State.unload (C : Code N G F) (id : ℕ) (g : G) (s : State N G) : State N G where
  kernel := C.exit id g s.kernel
  image := none
  loads := s.loads

/-- Sets the holder of a name. -/
def State.hold [DecidableEq N] (n : N) (h : Option Holder) (s : State N G) : State N G :=
  { s with kernel := { s.kernel with holder := Function.update s.kernel.holder n h } }

/-- One step, when it is possible. -/
def exec [DecidableEq N] (C : Code N G F) (s : State N G) : Event N F → Option (State N G)
  | .insmod f =>
    match s.image with
    | none => some (s.load C f)
    | some _ => none
  | .rmmod =>
    match s.image with
    | none => none
    | some (id, g) => some (s.unload C id g)
  | .take n => if s.kernel.holder n = none then some (s.hold n (some .other)) else none
  | .give n => if s.kernel.holder n = some .other then some (s.hold n none) else none

/-- A step. -/
inductive Step [DecidableEq N] (C : Code N G F) (s : State N G) : Event N F → State N G → Prop
  | insmod (f : F) : s.image = none → Step C s (.insmod f) (s.load C f)
  | rmmod {id : ℕ} {g : G} : s.image = some (id, g) → Step C s .rmmod (s.unload C id g)
  | take {n : N} : s.kernel.holder n = none → Step C s (.take n) (s.hold n (some .other))
  | give {n : N} : s.kernel.holder n = some .other → Step C s (.give n) (s.hold n none)

variable [DecidableEq N] {C : Code N G F} {s s' : State N G} {e : Event N F}

theorem step_of_exec (h : exec C s e = some s') : Step C s e s' := by
  cases e with
  | insmod f =>
      cases hi : s.image with
      | none =>
          simp only [exec, hi, Option.some.injEq] at h
          exact h ▸ .insmod f hi
      | some p => simp [exec, hi] at h
  | rmmod =>
      cases hi : s.image with
      | none => simp [exec, hi] at h
      | some p =>
          simp only [exec, hi, Option.some.injEq] at h
          exact h ▸ .rmmod hi
  | take n =>
      simp only [exec, Option.ite_none_right_eq_some, Option.some.injEq] at h
      exact h.2 ▸ .take h.1
  | give n =>
      simp only [exec, Option.ite_none_right_eq_some, Option.some.injEq] at h
      exact h.2 ▸ .give h.1

/-! ### Images -/

/-- A name is held by an image that is not loaded. -/
def Dangling (s : State N G) : Prop :=
  ∃ n i, s.kernel.holder n = some (.image i) ∧ ∀ g, s.image ≠ some (i, g)

/-- An image registers names for itself only. -/
structure Code.Lawful (C : Code N G F) : Prop where
  init : ∀ {id f k n i}, (C.init id f k).1.holder n = some (.image i) →
    i = id ∨ k.holder n = some (.image i)
  exit : ∀ {id g k n i}, (C.exit id g k).holder n = some (.image i) → k.holder n = some (.image i)

theorem holder_of_hold {n m : N} {h : Option Holder} {i : ℕ} (hh : h ≠ some (.image i))
    (hm : (s.hold n h).kernel.holder m = some (.image i)) : s.kernel.holder m = some (.image i) := by
  by_cases hmn : m = n
  · subst hmn
    exact absurd ((Function.update_self ..).symm.trans hm) hh
  · exact (Function.update_of_ne hmn ..).symm.trans hm

/-- The numbers of images are used once. -/
theorem lt_loads (hC : C.Lawful) (h : Reachable (Step C) start s) :
    (∀ n i, s.kernel.holder n = some (.image i) → i < s.loads) ∧
      ∀ i g, s.image = some (i, g) → i < s.loads := by
  refine h.invariant (I := fun s => (∀ n i, s.kernel.holder n = some (.image i) → i < s.loads) ∧
    ∀ i g, s.image = some (i, g) → i < s.loads) (fun s e s' hI hs => ?_)
    ⟨by simp [start], by simp [start]⟩
  cases hs with
  | insmod f hi =>
      refine ⟨fun n i hn => ?_, fun i g hg => ?_⟩
      · rcases hC.init hn with rfl | hn
        · exact Nat.lt_succ_self _
        · exact (hI.1 n i hn).trans (Nat.lt_succ_self _)
      · simp only [State.load, Option.ite_none_left_eq_some, Option.some.injEq, Prod.mk.injEq] at hg
        exact hg.2.1 ▸ Nat.lt_succ_self _
  | rmmod hi => exact ⟨fun n i hn => hI.1 n i (hC.exit hn), by simp [State.unload]⟩
  | take => exact ⟨fun n i hn => hI.1 n i (holder_of_hold (by simp) hn), hI.2⟩
  | give => exact ⟨fun n i hn => hI.1 n i (holder_of_hold (by simp) hn), hI.2⟩

end Exec

/-! ### What the loaded image holds -/

/-- The loaded image holds all names if its globals are such that it `owns` them, and otherwise no image
holds any. -/
structure Whole {N G : Type} (owns : G → Prop) (s : State N G) : Prop where
  held : ∀ {id g}, s.image = some (id, g) → owns g → s.kernel.holder = fun _ => some (.image id)
  unheld : (∀ id g, s.image = some (id, g) → ¬ owns g) → s.kernel.Unheld

section Whole

variable {N G : Type} {owns : G → Prop} {s : State N G}

theorem whole_start : Whole owns (start : State N G) :=
  ⟨by simp [start], fun _ n i => by simp [start]⟩

theorem Whole.unheld_of_none (h : Whole owns s) (hi : s.image = none) : s.kernel.Unheld :=
  h.unheld (by simp [hi])

theorem whole_of_unheld (hi : ∀ id g, s.image = some (id, g) → ¬ owns g) (h : s.kernel.Unheld) :
    Whole owns s :=
  ⟨fun hid hg => absurd hg (hi _ _ hid), fun _ => h⟩

theorem whole_of_held {id : ℕ} {g : G} (hi : s.image = some (id, g)) (hg : owns g)
    (h : s.kernel.holder = fun _ => some (.image id)) : Whole owns s := by
  refine ⟨fun hid _ => ?_, fun hno => absurd hg (hno id g hi)⟩
  rw [hi] at hid
  cases hid
  exact h

/-- Other drivers take and give back what no image holds. -/
theorem Whole.hold [DecidableEq N] (h : Whole owns s) {n : N} {o : Option Holder}
    (hn : ∀ i, s.kernel.holder n ≠ some (.image i)) (ho : ∀ i, o ≠ some (.image i)) :
    Whole owns (s.hold n o) :=
  ⟨fun {id _} hi hg => absurd (congrFun (h.held hi hg) n) (hn id),
    fun hno m i hm => h.unheld hno m i (holder_of_hold (ho i) hm)⟩

/-- The names belong to the image that is loaded and owns them. -/
theorem Whole.held_iff (h : Whole owns s) (n : N) (i : ℕ) :
    s.kernel.holder n = some (.image i) ↔ ∃ g, s.image = some (i, g) ∧ owns g := by
  constructor
  · intro hn
    by_contra hno
    by_cases hown : ∃ id g, s.image = some (id, g) ∧ owns g
    · obtain ⟨id, g, hi, hg⟩ := hown
      rw [h.held hi hg, Option.some.injEq, Holder.image.injEq] at hn
      exact hno ⟨g, hn ▸ hi, hg⟩
    · exact h.unheld (fun id g hi hg => hown ⟨id, g, hi, hg⟩) n i hn
  · rintro ⟨g, hi, hg⟩
    rw [h.held hi hg]

theorem Whole.not_dangling (h : Whole owns s) : ¬ Dangling s := by
  rintro ⟨n, i, hn, hgone⟩
  obtain ⟨g, hi, -⟩ := (h.held_iff n i).1 hn
  exact hgone g hi

end Whole

end ModuleLife
