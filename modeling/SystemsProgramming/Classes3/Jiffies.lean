import SystemsProgramming.Classes3.Circular.Calls
import SystemsProgramming.Library.Decimal

/-!
# The jiffies device

A read delivers the counter of the kernel as text.  The text is made anew in every call while the
position stays: a program that reads until a call returns `0` gets more than one text when the
counter gains a digit.  `oneSnapshot_iff` says when it gets one.
-/

namespace Advanced

open Memory Decimal
open Circular (ReadResult enomem efault)

/-! ### The call -/

/-- The text that `sprintf` makes of the counter with `%ld`. -/
def jiffiesText (jiffies : ℕ) : List UInt8 := signed ((jiffies : ℤ).bmod ulongCard)

/-- `sprintf` of a text: the text and its NUL go to `buff`. -/
def sprintf (buff text : List UInt8) : Except Fault (List UInt8) :=
  copyCells (text ++ [0]) (text.length + 1) buff

/-- `jiffies_read` from `strlen` on; the kernel can write `writable` bytes from `user_buf` on. -/
def readText (fPos : ℤ) (writable : ℕ) (buff : List UInt8) (toCopy : ℕ) : ReadResult :=
  if (toCopy : ℤ) ≤ fPos then ⟨0, fPos, []⟩
  else if writable < toCopy then ⟨-efault, fPos, buff.take writable⟩
  else ⟨toCopy, fPos + toCopy, buff.take toCopy⟩

/-- `jiffies_read`, which ignores `count` -/
def jiffiesRead (block : Option (ℕ → UInt8)) (jiffies _count : ℕ) (fPos : ℤ) (writable : ℕ) :
    Except Fault ReadResult :=
  match kmalloc 50 block with
  | none => .ok ⟨-enomem, fPos, []⟩
  | some buff => do
    let buff ← sprintf buff (jiffiesText jiffies)
    let toCopy ← strlen buff
    return readText fPos writable buff toCopy

theorem jiffiesText_eq {jiffies : ℕ} (h : jiffies ≤ longMax) :
    jiffiesText jiffies = decimal jiffies := by
  have hmod : (jiffies : ℤ).bmod ulongCard = jiffies := by
    unfold longMax at h
    unfold ulongCard
    rw [Int.bmod_eq_of_le] <;> omega
  unfold jiffiesText
  rw [hmod, signed_natCast]

/-- A counter above `LONG_MAX` is printed with a sign. -/
theorem sign_mem_jiffiesText {jiffies : ℕ} (hlt : longMax < jiffies) (h : jiffies < ulongCard) :
    45 ∈ jiffiesText jiffies := by
  have hneg : (jiffies : ℤ).bmod ulongCard < 0 := by
    unfold longMax at hlt
    unfold ulongCard at h ⊢
    rw [Int.bmod_def]
    omega
  unfold jiffiesText
  rw [signed_of_neg hneg]
  exact List.mem_cons_self ..

theorem length_jiffiesText_lt (jiffies : ℕ) : (jiffiesText jiffies).length < 50 := by
  have hlow := Int.le_bmod (x := jiffies) (m := ulongCard) (by decide)
  have hhigh := Int.bmod_lt (x := jiffies) (m := ulongCard) (by decide)
  have habs : ((jiffies : ℤ).bmod ulongCard).natAbs < 10 ^ 19 := by
    unfold ulongCard at hlow hhigh ⊢
    omega
  have := length_signed_le (by decide) habs
  unfold jiffiesText
  omega

theorem length_jiffiesText_pos (jiffies : ℕ) : 0 < (jiffiesText jiffies).length :=
  List.length_pos_of_ne_nil (signed_ne_nil _)

theorem sprintf_eq {buff text : List UInt8} (h : text.length < buff.length) :
    sprintf buff text = .ok (text ++ 0 :: buff.drop (text.length + 1)) := by
  have hsrc : text.length + 1 ≤ (text ++ [0]).length := by
    rw [List.length_append, List.length_singleton]
  unfold sprintf
  rw [copyCells_eq hsrc h, List.take_of_length_le (by simp), List.append_assoc,
    List.singleton_append]

/-- Only the text is copied, and not what follows it in the block. -/
theorem readText_append (fPos : ℤ) (writable : ℕ) (text rest : List UInt8) :
    readText fPos writable (text ++ rest) text.length =
      readText fPos writable text text.length := by
  unfold readText
  by_cases hwritable : writable < text.length
  · rw [if_pos hwritable, if_pos hwritable, List.take_append_of_le_length hwritable.le]
  · rw [if_neg hwritable, if_neg hwritable, List.take_append_of_le_length le_rfl]

/-- The text goes through the block: it fits, and has no NUL in it. -/
theorem readText_sprintf {buff text : List UInt8} (hlt : text.length < buff.length)
    (hzero : 0 ∉ text) (fPos : ℤ) (writable : ℕ) :
    (do
      let buff ← sprintf buff text
      let toCopy ← strlen buff
      return readText fPos writable buff toCopy) =
        .ok (readText fPos writable text text.length) := by
  rw [sprintf_eq hlt]
  show (strlen (text ++ 0 :: _) >>= fun toCopy => _) = _
  rw [strlen_append hzero, ← readText_append fPos writable text]
  rfl

/-- What a call returns. -/
theorem jiffiesRead_eq (contents : ℕ → UInt8) (jiffies count : ℕ) (fPos : ℤ) (writable : ℕ) :
    jiffiesRead (some contents) jiffies count fPos writable =
      .ok (readText fPos writable (jiffiesText jiffies) (jiffiesText jiffies).length) := by
  have hle : 50 ≤ intMax := by decide
  have hblock := kmalloc_natCast hle contents
  have hlt : (jiffiesText jiffies).length < (table 50 contents).length := by
    rw [length_table]
    exact length_jiffiesText_lt jiffies
  rw [Nat.cast_ofNat] at hblock
  unfold jiffiesRead
  rw [hblock]
  exact readText_sprintf hlt (zero_notMem_signed _) fPos writable

/-! ### Passes -/

/-- A call, with the counter that it sees; the text goes to memory that the kernel can write. -/
structure JiffiesCall where
  jiffies : ℕ
  count : ℕ
  contents : ℕ → UInt8
  writable : ℕ
  count_pos : 0 < count
  jiffies_lt : jiffies < ulongCard
  writable_ge : (jiffiesText jiffies).length ≤ writable

namespace JiffiesCall

/-- The text of the counter that the call sees. -/
def text (c : JiffiesCall) : List UInt8 := jiffiesText c.jiffies

def read (c : JiffiesCall) (fPos : ℤ) : Except Fault ReadResult :=
  jiffiesRead (some c.contents) c.jiffies c.count fPos c.writable

variable {c : JiffiesCall} {fPos : ℤ}

theorem text_length_pos (c : JiffiesCall) : 0 < c.text.length := length_jiffiesText_pos c.jiffies

/-- Behind its text a call delivers nothing. -/
theorem read_of_le (h : (c.text.length : ℤ) ≤ fPos) : c.read fPos = .ok ⟨0, fPos, []⟩ := by
  unfold read
  rw [jiffiesRead_eq]
  unfold readText
  exact congrArg Except.ok (if_pos h)

/-- Before its end, it delivers the whole text. -/
theorem read_of_lt (h : fPos < c.text.length) :
    c.read fPos = .ok ⟨c.text.length, fPos + c.text.length, c.text⟩ := by
  have hwritable : ¬ c.writable < c.text.length := Nat.not_lt.2 c.writable_ge
  unfold read
  rw [jiffiesRead_eq]
  unfold readText
  show Except.ok (if (c.text.length : ℤ) ≤ fPos then _ else if c.writable < c.text.length then _
    else (⟨c.text.length, fPos + c.text.length, c.text.take c.text.length⟩ : ReadResult)) = _
  rw [if_neg (Int.not_le.2 h), if_neg hwritable, List.take_length]

/-- A call that sees a counter up to `LONG_MAX` makes its decimal text, and the others do not. -/
theorem text_eq (h : c.jiffies ≤ longMax) : c.text = decimal c.jiffies := jiffiesText_eq h

theorem jiffies_le (h : 45 ∉ c.text) : c.jiffies ≤ longMax := by
  by_contra hlt
  exact h (sign_mem_jiffiesText (Nat.not_le.1 hlt) c.jiffies_lt)

end JiffiesCall

/-- The calls from the position `fPos` on, up to the first one that returns `0`. -/
inductive Pass : ℤ → List JiffiesCall → List ReadResult → Prop
  | last {fPos c r} : c.read fPos = .ok r → r.ret = 0 → Pass fPos [c] [r]
  | more {fPos c r cs rs} : c.read fPos = .ok r → r.ret ≠ 0 → Pass r.fPos cs rs →
      Pass fPos (c :: cs) (r :: rs)

/-- What the calls of a pass deliver, one after the other. -/
def deliveredBy (rs : List ReadResult) : List UInt8 := rs.flatMap ReadResult.delivered

/-- No call delivers more than its count, and all of them deliver the decimal text of a counter that
one of them has seen. -/
structure OneSnapshot (cs : List JiffiesCall) (rs : List ReadResult) : Prop where
  within : List.Forall₂ (fun c r => r.delivered.length ≤ c.count) cs rs
  snapshot : ∃ c ∈ cs, deliveredBy rs = decimal c.jiffies

/-- The calls but the last one have room for their texts; and the second text is no longer than the
first, which has no sign, or the texts before the last counter are the digits of that counter. -/
structure ReadsOnce (cs : List JiffiesCall) : Prop where
  room : ∀ c ∈ cs.dropLast, c.text.length ≤ c.count
  once : (∃ c c' cs', cs = c :: c' :: cs' ∧ c'.text.length ≤ c.text.length ∧ c.jiffies ≤ longMax) ∨
    ∃ c, cs.getLast? = some c ∧ cs.dropLast.flatMap JiffiesCall.text = decimal c.jiffies

/-! ### What a pass delivers -/

theorem Pass.ne_nil {fPos : ℤ} {cs : List JiffiesCall} {rs : List ReadResult}
    (h : Pass fPos cs rs) : cs ≠ [] := by
  cases h <;> exact List.cons_ne_nil _ _

/-- The call that ends a pass delivers nothing, the calls before it their whole texts. -/
theorem read_of_ret_eq_zero {fPos : ℤ} {c : JiffiesCall} {r : ReadResult}
    (h : c.read fPos = .ok r) (hret : r.ret = 0) :
    (c.text.length : ℤ) ≤ fPos ∧ r = ⟨0, fPos, []⟩ := by
  rcases Int.lt_or_le fPos c.text.length with hlt | hle
  · rw [JiffiesCall.read_of_lt hlt] at h
    cases h
    have := c.text_length_pos
    dsimp only at hret
    omega
  · rw [JiffiesCall.read_of_le hle] at h
    cases h
    exact ⟨hle, rfl⟩

theorem read_of_ret_ne_zero {fPos : ℤ} {c : JiffiesCall} {r : ReadResult}
    (h : c.read fPos = .ok r) (hret : r.ret ≠ 0) :
    fPos < c.text.length ∧ r = ⟨c.text.length, fPos + c.text.length, c.text⟩ := by
  rcases Int.lt_or_le fPos c.text.length with hlt | hle
  · rw [JiffiesCall.read_of_lt hlt] at h
    cases h
    exact ⟨hlt, rfl⟩
  · rw [JiffiesCall.read_of_le hle] at h
    cases h
    exact absurd rfl hret

theorem Pass.deliveredBy_eq {fPos : ℤ} {cs : List JiffiesCall} {rs : List ReadResult}
    (h : Pass fPos cs rs) : deliveredBy rs = cs.dropLast.flatMap JiffiesCall.text := by
  induction h with
  | last hr hret =>
      obtain ⟨-, rfl⟩ := read_of_ret_eq_zero hr hret
      rfl
  | more hr hret hpass ih =>
      obtain ⟨-, rfl⟩ := read_of_ret_ne_zero hr hret
      unfold deliveredBy at ih ⊢
      rw [List.flatMap_cons, ih, List.dropLast_cons_of_ne_nil hpass.ne_nil, List.flatMap_cons]

theorem Pass.within_iff {fPos : ℤ} {cs : List JiffiesCall} {rs : List ReadResult}
    (h : Pass fPos cs rs) : List.Forall₂ (fun c r => r.delivered.length ≤ c.count) cs rs ↔
      ∀ c ∈ cs.dropLast, c.text.length ≤ c.count := by
  induction h with
  | last hr hret =>
      obtain ⟨-, rfl⟩ := read_of_ret_eq_zero hr hret
      exact iff_of_true (.cons (Nat.zero_le _) .nil) nofun
  | more hr hret hpass ih =>
      obtain ⟨-, rfl⟩ := read_of_ret_ne_zero hr hret
      rw [List.forall₂_cons, ih, List.dropLast_cons_of_ne_nil hpass.ne_nil, List.forall_mem_cons]

/-- The first call delivers its text, and the second one nothing if its text is no longer. -/
theorem Pass.exists_two {cs : List JiffiesCall} {rs : List ReadResult} (h : Pass 0 cs rs) :
    ∃ c c' cs', cs = c :: c' :: cs' ∧ (c'.text.length ≤ c.text.length ↔ cs' = []) := by
  cases h with
  | @last _ c _ hr hret =>
      have := c.text_length_pos
      have hle := (read_of_ret_eq_zero hr hret).1
      omega
  | @more _ c r cs rs hr hret hpass =>
      obtain ⟨-, rfl⟩ := read_of_ret_ne_zero hr hret
      dsimp only at hpass
      rw [zero_add] at hpass
      cases hpass with
      | @last _ c' _ hr' hret' =>
          have hle := (read_of_ret_eq_zero hr' hret').1
          exact ⟨c, c', [], rfl, iff_of_true (by omega) rfl⟩
      | @more _ c' _ cs' _ hr' hret' hpass' =>
          have hlt := (read_of_ret_ne_zero hr' hret').1
          exact ⟨c, c', cs', rfl, iff_of_false (by omega) hpass'.ne_nil⟩

/-- A text is shorter than two or more of them. -/
theorem length_text_lt {cs : List JiffiesCall} {c : JiffiesCall} (hc : c ∈ cs)
    (h : 2 ≤ cs.length) : c.text.length < (cs.flatMap JiffiesCall.text).length := by
  obtain ⟨cs₁, cs₂, rfl⟩ := List.append_of_mem hc
  rw [List.flatMap_append, List.flatMap_cons, List.length_append, List.length_append]
  cases cs₁ with
  | cons d cs₁ =>
      have := d.text_length_pos
      rw [List.flatMap_cons, List.length_append]
      omega
  | nil =>
      cases cs₂ with
      | nil => exact absurd h (by simp)
      | cons d cs₂ =>
          have := d.text_length_pos
          rw [List.flatMap_cons, List.length_append]
          omega

/-- A text that is part of a decimal text is one. -/
theorem jiffies_le_of_flatMap_eq {cs : List JiffiesCall} {c : JiffiesCall} {n : ℕ}
    (h : cs.flatMap JiffiesCall.text = decimal n) (hc : c ∈ cs) : c.jiffies ≤ longMax := by
  apply c.jiffies_le
  intro hsign
  have hmem : 45 ∈ decimal n := h ▸ List.mem_flatMap.2 ⟨c, hc, hsign⟩
  exact notMem_decimal (by decide) n hmem

/-- A pass gets one snapshot exactly when it reads one text, or when the digits of the texts happen
to be those of the last counter. -/
theorem oneSnapshot_iff {cs : List JiffiesCall} {rs : List ReadResult} (h : Pass 0 cs rs) :
    OneSnapshot cs rs ↔ ReadsOnce cs := by
  obtain ⟨c₀, c₁, cs, rfl, htwo⟩ := h.exists_two
  have hdelivered := h.deliveredBy_eq
  constructor
  · rintro ⟨hwithin, c, hc, hsnapshot⟩
    refine ⟨h.within_iff.1 hwithin, ?_⟩
    rw [hdelivered] at hsnapshot
    by_cases hnil : cs = []
    · subst hnil
      have hc₀ := jiffies_le_of_flatMap_eq hsnapshot (List.mem_cons_self ..)
      exact Or.inl ⟨c₀, c₁, [], rfl, htwo.2 rfl, hc₀⟩
    · -- one of the texts would be all of them
      rw [← List.dropLast_append_getLast (List.cons_ne_nil c₀ (c₁ :: cs)), List.mem_append,
        List.mem_singleton] at hc
      rcases hc with hc | rfl
      · have hlength := length_text_lt hc (by
          have := List.length_pos_of_ne_nil hnil
          rw [List.length_dropLast, List.length_cons, List.length_cons]
          omega)
        rw [hsnapshot, c.text_eq (jiffies_le_of_flatMap_eq hsnapshot hc)] at hlength
        exact absurd hlength (lt_irrefl _)
      · exact Or.inr ⟨_, List.getLast?_eq_some_getLast (List.cons_ne_nil c₀ (c₁ :: cs)), hsnapshot⟩
  · rintro ⟨hroom, honce⟩
    refine ⟨h.within_iff.2 hroom, ?_⟩
    rw [hdelivered]
    rcases honce with ⟨c, c', cs', heq, hle, hc⟩ | ⟨c, hlast, hdigits⟩
    · obtain ⟨rfl, rfl, rfl⟩ : c₀ = c ∧ c₁ = c' ∧ cs = cs' := by simpa using heq
      rw [htwo.1 hle]
      refine ⟨c₀, List.mem_cons_self .., ?_⟩
      rw [← JiffiesCall.text_eq hc]
      exact List.append_nil _
    · exact ⟨c, List.mem_of_getLast? hlast, hdigits⟩

/-- A call with memory for its text. -/
def seeing (jiffies count : ℕ) (hcount : 0 < count) (hjiffies : jiffies < ulongCard) :
    JiffiesCall where
  jiffies := jiffies
  count := count
  contents := fun _ => 7
  writable := (jiffiesText jiffies).length
  count_pos := hcount
  jiffies_lt := hjiffies
  writable_ge := le_rfl

/-- The counter keeps its digits between two calls. -/
def steady : List JiffiesCall :=
  [seeing 98 4 (by decide) (by decide), seeing 99 4 (by decide) (by decide)]

theorem pass_steady : ∃ rs, Pass 0 steady rs :=
  ⟨_, .more (JiffiesCall.read_of_lt (by decide)) (by decide)
    (.last (JiffiesCall.read_of_le (by decide)) rfl)⟩

theorem oneSnapshot_iff_steady :
    ∃ rs, Pass 0 steady rs ∧ (OneSnapshot steady rs ↔ ReadsOnce steady) := by
  obtain ⟨rs, h⟩ := pass_steady
  exact ⟨rs, h, oneSnapshot_iff h⟩

/-- The counter gains a digit between two calls: the pass delivers `910`. -/
def gaining : List JiffiesCall :=
  [seeing 9 4 (by decide) (by decide), seeing 10 4 (by decide) (by decide),
    seeing 11 4 (by decide) (by decide)]

theorem pass_gaining : ∃ rs, Pass 0 gaining rs :=
  ⟨_, .more (JiffiesCall.read_of_lt (by decide)) (by decide)
    (.more (JiffiesCall.read_of_lt (by decide)) (by decide)
      (.last (JiffiesCall.read_of_le (by decide)) rfl))⟩

/-- The calls are for one byte, and the first one gets two. -/
def narrow : List JiffiesCall :=
  [seeing 10 1 (by decide) (by decide), seeing 10 1 (by decide) (by decide)]

theorem pass_narrow : ∃ rs, Pass 0 narrow rs :=
  ⟨_, .more (JiffiesCall.read_of_lt (by decide)) (by decide)
    (.last (JiffiesCall.read_of_le (by decide)) rfl)⟩

theorem two_snapshots :
    (∃ rs, Pass 0 gaining rs ∧ gaining.Pairwise (fun c c' => c.jiffies ≤ c'.jiffies) ∧
      ¬ OneSnapshot gaining rs) ∧
    ∃ rs, Pass 0 narrow rs ∧ narrow.Pairwise (fun c c' => c.jiffies ≤ c'.jiffies) ∧
      ¬ OneSnapshot narrow rs := by
  obtain ⟨rs, hgaining⟩ := pass_gaining
  obtain ⟨rs', hnarrow⟩ := pass_narrow
  refine ⟨⟨rs, hgaining, by decide, ?_⟩, rs', hnarrow, by decide, ?_⟩
  · rintro ⟨-, c, hc, hsnapshot⟩
    have hdigits : ∀ c ∈ gaining,
        gaining.dropLast.flatMap JiffiesCall.text ≠ decimal c.jiffies := by decide
    exact hdigits c hc (hgaining.deliveredBy_eq.symm.trans hsnapshot)
  · rintro ⟨hwithin, -⟩
    have hroom := hnarrow.within_iff.1 hwithin
    revert hroom
    decide

end Advanced
