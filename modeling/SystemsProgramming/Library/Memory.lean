import Mathlib.Data.List.Forall2
import Mathlib.Data.List.Induction
import Mathlib.Data.Int.Init
import Mathlib.Data.UInt
import Mathlib.Logic.Function.Basic

/-!
# Blocks of memory in C

A block is the list of its cells.  Loads and stores outside it, and remainders by zero, are faults,
so that "no access is out of bounds" is a theorem about a program.  The file has loads, stores, the
remainder, the copy loop, the string functions, and the allocation and the copies from user space
of a kernel.
-/

namespace Memory

/-- What the code must not do. -/
inductive Fault where
  | outOfBounds
  | divByZero
  deriving DecidableEq

variable {α : Type*}

/-- `block[i]` -/
def load (block : List α) (i : ℤ) : Except Fault α :=
  if 0 ≤ i then
    match block[i.toNat]? with
    | some a => .ok a
    | none => .error .outOfBounds
  else .error .outOfBounds

/-- `block[i] = a` -/
def store (block : List α) (i : ℤ) (a : α) : Except Fault (List α) :=
  if 0 ≤ i ∧ i < block.length then .ok (block.set i.toNat a) else .error .outOfBounds

/-- `block[i] = f(block[i])` -/
def modify (block : List α) (i : ℤ) (f : α → α) : Except Fault (List α) := do
  let a ← load block i
  store block i (f a)

/-- `a % b`, which rounds towards zero -/
def remainder (a b : ℤ) : Except Fault ℤ :=
  if b = 0 then .error .divByZero else .ok (a.tmod b)

/-- `for (i = 0; i < n; i++) dst[i] = src[i];` -/
def copyCells (src : List α) : ℕ → List α → Except Fault (List α)
  | 0, dst => .ok dst
  | n + 1, dst => do
    let dst ← copyCells src n dst
    let a ← load src n
    store dst n a

/-- `for (i = 0; i < n; i++) block[i] = a;` -/
def fillCells (a : α) : ℕ → List α → Except Fault (List α)
  | 0, block => .ok block
  | n + 1, block => do
    let block ← fillCells a n block
    store block n a

/-- `strlen` -/
def strlen : List UInt8 → Except Fault ℕ
  | [] => .error .outOfBounds
  | b :: block => if b = 0 then .ok 0 else (strlen block).map (· + 1)

/-- `INT_MAX` -/
def intMax : ℕ := 2147483647

/-- The number of values of an `int`. -/
def intCard : ℕ := 4294967296

/-- `LONG_MAX` -/
def longMax : ℕ := 9223372036854775807

/-- The number of values of an `unsigned long`. -/
def ulongCard : ℕ := 18446744073709551616

/-- `kmalloc`: the contents of a new block, where the allocator has one; a negative size, and one
above `INT_MAX`, has none.  A block of size `0` has no cells. -/
def kmalloc (size : ℤ) (contents : Option (ℕ → α)) : Option (List α) :=
  if 0 ≤ size ∧ size.toNat ≤ intMax then contents.map fun f => (List.range size.toNat).map f
  else none

/-- `copy_from_user`, all or nothing; `none` is a byte the kernel cannot read. -/
def copyFromUser (userBuf : List (Option UInt8)) : Option (List UInt8) := userBuf.mapM id

/-! ### Numbers of an `int` -/

/-- A number that fits in an `int` keeps its value there. -/
theorem bmod_intCard {z : ℤ} (hlo : -((intMax : ℤ) + 1) ≤ z) (hhi : z ≤ intMax) :
    z.bmod intCard = z := by
  unfold intMax at hlo hhi
  unfold intCard
  apply Int.bmod_eq_of_le <;> omega

theorem bmod_intCard_natCast {n : ℕ} (h : n ≤ intMax) : (n : ℤ).bmod intCard = n :=
  bmod_intCard (by omega) (by omega)

theorem bmod_intCard_bounds (z : ℤ) :
    -((intMax : ℤ) + 1) ≤ z.bmod intCard ∧ z.bmod intCard ≤ intMax := by
  have hlo := Int.le_bmod (x := z) (m := intCard) (by decide)
  have hhi := Int.bmod_lt (x := z) (m := intCard) (by decide)
  unfold intCard at hlo hhi ⊢
  unfold intMax
  omega

/-! ### Accesses inside a block -/

theorem load_natCast {block : List α} {i : ℕ} (h : i < block.length) :
    load block i = .ok block[i] := by
  unfold load
  rw [if_pos (Int.natCast_nonneg i), Int.toNat_natCast, List.getElem?_eq_getElem h]

theorem store_natCast {block : List α} {i : ℕ} (h : i < block.length) (a : α) :
    store block i a = .ok (block.set i a) := by
  unfold store
  rw [if_pos ⟨Int.natCast_nonneg i, Int.ofNat_lt.2 h⟩, Int.toNat_natCast]

theorem modify_natCast {block : List α} {i : ℕ} (h : i < block.length) (f : α → α) :
    modify block i f = .ok (block.set i (f block[i])) := by
  unfold modify
  rw [load_natCast h]
  exact store_natCast h _

theorem load_of_drop {block rest : List α} {i : ℕ} {a : α} (h : block.drop i = a :: rest) :
    load block i = .ok a := by
  have hget : block[i]? = some a := by
    rw [← List.head?_drop, h, List.head?_cons]
  unfold load
  rw [if_pos (Int.natCast_nonneg i), Int.toNat_natCast, hget]

/-- An index that is negative or too large is a fault. -/
theorem load_outside {block : List α} {i : ℤ} (h : i < 0 ∨ (block.length : ℤ) ≤ i) :
    load block i = .error .outOfBounds := by
  unfold load
  rcases h with hneg | hge
  · rw [if_neg (Int.not_le.2 hneg)]
  · have hlength : block.length ≤ i.toNat := by omega
    rw [if_pos (by omega), List.getElem?_eq_none hlength]

theorem modify_outside {block : List α} {i : ℤ} (h : i < 0 ∨ (block.length : ℤ) ≤ i) (f : α → α) :
    modify block i f = .error .outOfBounds := by
  unfold modify
  rw [load_outside h]
  rfl

theorem remainder_natCast (a : ℕ) {b : ℕ} (h : 0 < b) : remainder a b = .ok ((a % b : ℕ) : ℤ) := by
  unfold remainder
  rw [if_neg (by omega), Int.tmod_eq_emod_of_nonneg (Int.natCast_nonneg a), Int.natCast_mod]

/-- The copy loop stays inside blocks that are long enough. -/
theorem copyCells_eq {src dst : List α} {n : ℕ} (hsrc : n ≤ src.length) (hdst : n ≤ dst.length) :
    copyCells src n dst = .ok (src.take n ++ dst.drop n) := by
  induction n with
  | zero => rfl
  | succ n ih =>
      have hlength : n < (src.take n ++ dst.drop n).length := by
        rw [List.length_append, List.length_take, List.length_drop]
        omega
      have hset : (src.take n ++ dst.drop n).set n src[n] =
          src.take (n + 1) ++ dst.drop (n + 1) := by
        have htake : (src.take n).length = n := by
          rw [List.length_take]
          omega
        rw [List.set_append_right _ _ (le_of_eq htake), htake, Nat.sub_self,
          List.drop_eq_getElem_cons hdst, List.set_cons_zero, List.take_add_one,
          List.getElem?_eq_getElem hsrc, Option.toList_some, List.append_assoc,
          List.singleton_append]
      unfold copyCells
      rw [ih (by omega) (by omega)]
      show (load src n >>= fun a => store (src.take n ++ dst.drop n) n a) = _
      rw [load_natCast hsrc, ← hset]
      exact store_natCast hlength _

/-- So does the loop that fills a block. -/
theorem fillCells_eq {block : List α} {n : ℕ} (h : n ≤ block.length) (a : α) :
    fillCells a n block = .ok (List.replicate n a ++ block.drop n) := by
  induction n with
  | zero => rfl
  | succ n ih =>
      have hlength : n < (List.replicate n a ++ block.drop n).length := by
        rw [List.length_append, List.length_replicate, List.length_drop]
        omega
      have hset : (List.replicate n a ++ block.drop n).set n a =
          List.replicate (n + 1) a ++ block.drop (n + 1) := by
        rw [List.set_append_right _ _ (le_of_eq List.length_replicate), List.length_replicate,
          Nat.sub_self, List.drop_eq_getElem_cons h, List.set_cons_zero, List.replicate_succ',
          List.append_assoc, List.singleton_append]
      unfold fillCells
      rw [ih (by omega), ← hset]
      exact store_natCast hlength a

/-! ### Loops -/

theorem bind_pure_isOk_iff {β : Type _} (x : Except Fault α) (g : α → β) :
    (∃ b, (x >>= fun a => pure (g a)) = .ok b) ↔ ∃ a, x = .ok a := by
  cases x with
  | error e => exact iff_of_false (by rintro ⟨b, h⟩; cases h) (by rintro ⟨a, h⟩; cases h)
  | ok a => exact iff_of_true ⟨_, rfl⟩ ⟨a, rfl⟩

/-- A loop whose passes fault outside `q`, and else keep `good`, goes through exactly when
everything is in `q`. -/
theorem foldlM_isOk_iff {σ : Type*} {f : σ → α → Except Fault σ} {good : σ → Prop} {q : α → Prop}
    (hok : ∀ s a, good s → q a → ∃ s', f s a = .ok s' ∧ good s')
    (hfault : ∀ s a, good s → ¬ q a → ∃ e, f s a = .error e) (l : List α) {s : σ} (hs : good s) :
    (∃ s', l.foldlM f s = .ok s') ↔ ∀ a ∈ l, q a := by
  induction l generalizing s with
  | nil => exact iff_of_true ⟨s, rfl⟩ (by simp)
  | cons a l ih =>
      rw [List.foldlM_cons, List.forall_mem_cons]
      by_cases ha : q a
      · obtain ⟨s', hpass, hs'⟩ := hok s a hs ha
        rw [hpass, and_iff_right ha]
        exact ih hs'
      · obtain ⟨e, hpass⟩ := hfault s a hs ha
        rw [hpass]
        exact iff_of_false (by rintro ⟨s', h⟩; cases h) fun h => ha h.1

/-- What every pass of a loop keeps of the elements read so far, the loop keeps of all of them; `q`
is what a pass may use about its element and the ones before it. -/
theorem foldlM_invariant {σ : Type*} {f : σ → α → Except Fault σ} {inv : List α → σ → Prop}
    {q : List α → α → Prop}
    (hpass : ∀ l s a, inv l s → q l a → ∃ s', f s a = .ok s' ∧ inv (l ++ [a]) s') {l : List α}
    {s : σ} (hs : inv [] s) (hq : ∀ l₁ a l₂, l = l₁ ++ a :: l₂ → q l₁ a) :
    ∃ s', l.foldlM f s = .ok s' ∧ inv l s' := by
  induction l using List.reverseRecOn with
  | nil => exact ⟨s, rfl, hs⟩
  | append_singleton l a ih =>
      have hq' : ∀ l₁ b l₂, l = l₁ ++ b :: l₂ → q l₁ b := by
        rintro l₁ b l₂ rfl
        exact hq l₁ b (l₂ ++ [a]) (by rw [List.append_assoc, List.cons_append])
      obtain ⟨s', hloop, hs'⟩ := ih hq'
      obtain ⟨s'', hlast, hs''⟩ := hpass l s' a hs' (hq l a [] rfl)
      refine ⟨s'', ?_, hs''⟩
      rw [List.foldlM_append, hloop]
      show List.foldlM f s' [a] = _
      rw [List.foldlM_cons, hlast]
      rfl

/-! ### Tables -/

/-- The values of `f` below `n`. -/
def table (n : ℕ) (f : ℕ → α) : List α := (List.range n).map f

section Table

variable {n i : ℕ} {f : ℕ → α}

@[simp] theorem length_table : (table n f).length = n := by
  unfold table
  rw [List.length_map, List.length_range]

theorem getElem_table (h : i < (table n f).length) : (table n f)[i] = f i := by
  simp [table]

theorem load_table (h : i < n) : load (table n f) i = .ok (f i) := by
  have hlength : i < (table n f).length := by rwa [length_table]
  rw [load_natCast hlength, getElem_table]

theorem modify_table (h : i < n) (g : α → α) :
    modify (table n f) i g = .ok (table n (Function.update f i (g (f i)))) := by
  have hlength : i < (table n f).length := by rwa [length_table]
  rw [modify_natCast hlength, getElem_table]
  congr 1
  apply List.ext_getElem (by simp)
  intro j hj hj'
  rw [getElem_table, List.getElem_set, getElem_table]
  by_cases hij : i = j
  · rw [if_pos hij, ← hij, Function.update_self]
  · rw [if_neg hij, Function.update_of_ne (Ne.symm hij)]

/-- A block that is filled is a table. -/
theorem fillCells_table {block : List α} (h : block.length = n) (a : α) :
    fillCells a n block = .ok (table n fun _ => a) := by
  rw [fillCells_eq h.ge, List.drop_of_length_le h.le, List.append_nil]
  unfold table
  rw [List.map_const', List.length_range]

end Table

/-! ### Strings -/

/-- The string of a block that has a NUL ends before the first one. -/
theorem strlen_eq {block : List UInt8} (h : 0 ∈ block) :
    strlen block = .ok (block.findIdx (· = 0)) := by
  induction block with
  | nil => exact absurd h List.not_mem_nil
  | cons b block ih =>
      unfold strlen
      rw [List.findIdx_cons]
      by_cases hb : b = 0
      · simp [hb]
      · have hmem : 0 ∈ block := (List.mem_cons.1 h).resolve_left (Ne.symm hb)
        simp [hb, ih hmem, Except.map]

/-- A text without a NUL is the string of a block that has it before a NUL. -/
theorem strlen_append {text : List UInt8} (h : 0 ∉ text) (rest : List UInt8) :
    strlen (text ++ 0 :: rest) = .ok text.length := by
  induction text with
  | nil => rfl
  | cons b text ih =>
      rw [List.mem_cons, not_or] at h
      rw [List.cons_append, strlen, if_neg (Ne.symm h.1), ih h.2]
      rfl

/-! ### Allocation -/

theorem kmalloc_eq_some {size : ℤ} {contents : Option (ℕ → α)} {block : List α}
    (h : kmalloc size contents = some block) :
    0 ≤ size ∧ size.toNat ≤ intMax ∧
      ∃ f, contents = some f ∧ block = (List.range size.toNat).map f := by
  unfold kmalloc at h
  by_cases hsize : 0 ≤ size ∧ size.toNat ≤ intMax
  · rw [if_pos hsize, Option.map_eq_some_iff] at h
    obtain ⟨f, hf, rfl⟩ := h
    exact ⟨hsize.1, hsize.2, f, hf, rfl⟩
  · rw [if_neg hsize] at h
    exact absurd h (Option.some_ne_none _).symm

theorem kmalloc_natCast {size : ℕ} (h : size ≤ intMax) (f : ℕ → α) :
    kmalloc size (some f) = some (table size f) := by
  unfold kmalloc
  rw [Int.toNat_natCast, if_pos ⟨Int.natCast_nonneg size, h⟩, Option.map_some, table]

/-- What the blocks hold does not decide whether there is one. -/
theorem kmalloc_isSome {β : Type*} (size : ℤ) {contents : Option (ℕ → α)}
    {contents' : Option (ℕ → β)} (h : contents.isSome = contents'.isSome) :
    (kmalloc size contents).isSome = (kmalloc size contents').isSome := by
  unfold kmalloc
  split
  · rw [Option.isSome_map, Option.isSome_map, h]
  · rfl

/-- Bytes that the kernel can read are copied. -/
theorem copyFromUser_map_some (bytes : List UInt8) : copyFromUser (bytes.map some) = some bytes := by
  unfold copyFromUser
  induction bytes with
  | nil => rfl
  | cons b bytes ih =>
      rw [List.map_cons, List.mapM_cons, ih]
      rfl

/-! ### Cells that stand in a relation -/

section Related

variable {β : Type*} {R : α → β → Prop} {as : List α} {bs : List β}

theorem forall₂_set (h : List.Forall₂ R as bs) (i : ℕ) {a : α} {b : β} (hab : R a b) :
    List.Forall₂ R (as.set i a) (bs.set i b) := by
  induction h generalizing i with
  | nil => exact .nil
  | cons hxy htail ih =>
      cases i with
      | zero => exact .cons hab htail
      | succ i => exact .cons hxy (ih i)

/-- Where one list has what is looked for, the other does not have it later. -/
theorem findIdx_le_of_forall₂ (h : List.Forall₂ R as bs) {p : α → Bool} {q : β → Bool}
    (hpq : ∀ a b, R a b → p a → q b) : bs.findIdx q ≤ as.findIdx p := by
  induction h with
  | nil => exact le_rfl
  | @cons a b as bs hab _ ih =>
      rw [List.findIdx_cons, List.findIdx_cons]
      by_cases hb : q b
      · simp [hb]
      · have ha : ¬ p a := fun ha => hb (hpq a b hab ha)
        simp only [hb, ha, cond_false]
        exact Nat.succ_le_succ ih

/-- Before the first cell that `q` is about, related cells determine each other's values. -/
theorem take_eq_of_forall₂ (h : List.Forall₂ R as bs) {q : β → Bool} {f : β → α}
    (hf : ∀ a b, R a b → ¬ q b → a = f b) {n : ℕ} (hn : n ≤ bs.findIdx q) :
    as.take n = (bs.take n).map f := by
  induction h generalizing n with
  | nil => simp
  | @cons a b as bs hab _ ih =>
      rw [List.findIdx_cons] at hn
      by_cases hb : q b
      · rw [hb, cond_true, Nat.le_zero] at hn
        simp [hn]
      · cases n with
        | zero => rfl
        | succ n =>
            simp only [hb, cond_false, Nat.add_le_add_iff_right] at hn
            rw [List.take_succ_cons, List.take_succ_cons, List.map_cons, ih hn, hf a b hab hb]

end Related

end Memory
