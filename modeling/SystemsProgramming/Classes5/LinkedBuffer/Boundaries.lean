import SystemsProgramming.Classes5.LinkedBuffer.Writing
import SystemsProgramming.Library.Run

/-!
# The positions of a reader

A file is read while other files are written, one call at a time and without the clear command.
`*f_pos` is always the end of an entry: a read moves it by whole entries, to the end of the last
one that it takes a byte from (`linkedRead_boundaries`).
-/

namespace LinkedBuffer

open Transition

/-! ### Runs -/

/-- A call by the reader, or by a writer with another file. -/
inductive FileCall where
  | read (count : ℕ)
  | write (userBuf : List UInt8) (fPos : ℕ)

/-- The state is the module with `*f_pos` of the reader. -/
inductive FileStep (variant : Variant) : Module × ℕ → FileCall → Module × ℕ → Prop
  | read (m : Module) (fPos count : ℕ) :
      FileStep variant (m, fPos) (.read count)
        ((linkedRead variant false (fun _ => false) m count fPos).module,
          (linkedRead variant false (fun _ => false) m count fPos).fPos)
  | write (m : Module) (fPos : ℕ) {userBuf : List UInt8} (fPos' : ℕ) :
      ¬ HasClear userBuf →
        FileStep variant (m, fPos) (.write userBuf fPos')
          ((linkedWrite variant (fun _ => .ok) m userBuf fPos').module, fPos)

/-- A position between two entries, and the right length. -/
def OnBoundary (s : Module × ℕ) : Prop :=
  s.1.totalLength = lengthOf s.1.buffer ∧
    ∃ pre post, s.1.buffer = pre ++ post ∧ s.2 = lengthOf pre

/-- Without the clear command a write only appends. -/
theorem linkedWrite_of_not_hasClear {userBuf : List UInt8} (h : ¬ HasClear userBuf)
    (variant : Variant) (m : Module) (fPos : ℕ) :
    ∃ l : List Data, (linkedWrite variant (fun _ => .ok) m userBuf fPos).module.buffer =
        m.buffer ++ l ∧
      (linkedWrite variant (fun _ => .ok) m userBuf fPos).module.totalLength =
        m.totalLength + lengthOf l := by
  have hpass : ∀ k < chunkCount userBuf, ¬ Stops variant (fun _ => .ok) userBuf k :=
    fun k _ hstop => h ⟨k, stops_ok_iff.1 hstop⟩
  obtain ⟨l, -, hcall⟩ := linkedWrite_of_passes hpass m fPos
  rw [hcall]
  exact ⟨l, rfl, rfl⟩

theorem FileStep.onBoundary {variant : Variant} {s t : Module × ℕ} {c : FileCall}
    (h : FileStep variant s c t) (hs : OnBoundary s) : OnBoundary t := by
  obtain ⟨htotal, pre, post, hbuf, hpos⟩ := hs
  cases h with
  | read m fPos count =>
      dsimp only at htotal hbuf hpos
      subst hpos
      obtain ⟨post', hpost⟩ := visited_isPrefix count post
      rw [linkedRead_append variant count hbuf htotal]
      refine ⟨htotal, pre ++ visited count post, post', ?_, (lengthOf_append ..).symm⟩
      rw [List.append_assoc, hpost]
      exact hbuf
  | @write m fPos userBuf fPos' hclear =>
      dsimp only at htotal hbuf hpos
      obtain ⟨l, hl, hlength⟩ := linkedWrite_of_not_hasClear hclear variant m fPos'
      refine ⟨?_, pre, post ++ l, ?_, hpos⟩
      · rw [hlength, hl, lengthOf_append, htotal]
      · rw [hl, hbuf, List.append_assoc]

/-! ### Reads -/

/-- A read passes nothing, or ends with the entry that it takes its last byte from. -/
theorem visited_cases {count : ℕ} (hc : 0 < count) (l : List Data) :
    (min count (lengthOf l) = 0 ∧ visited count l = []) ∨
      ∃ k < l.length, lengthOf (l.take k) < min count (lengthOf l) ∧
        min count (lengthOf l) ≤ lengthOf (l.take (k + 1)) ∧
        visited count l = l.take (k + 1) := by
  induction l generalizing count with
  | nil => exact Or.inl ⟨Nat.min_zero _, rfl⟩
  | cons data l ih =>
      have hpos := data.length_pos
      have hfirst : lengthOf ((data :: l).take (0 + 1)) = data.length := by
        rw [List.take_succ_cons, List.take_zero, lengthOf_cons, lengthOf_nil, Nat.add_zero]
      right
      rw [visited, lengthOf_cons]
      by_cases hle : count ≤ data.length
      · rw [if_pos hle]
        refine ⟨0, Nat.succ_pos _, ?_, ?_, rfl⟩
        · rw [List.take_zero, lengthOf_nil]
          omega
        · rw [hfirst]
          omega
      · rw [if_neg hle]
        rcases ih (show 0 < count - data.length by omega) with ⟨hzero, hnil⟩ | ⟨k, hk, hlt, hge, hv⟩
        · refine ⟨0, Nat.succ_pos _, ?_, ?_, by rw [hnil]; rfl⟩
          · rw [List.take_zero, lengthOf_nil]
            omega
          · rw [hfirst]
            omega
        · refine ⟨k + 1, Nat.succ_lt_succ hk, ?_, ?_, by rw [hv]; rfl⟩
          · rw [List.take_succ_cons, lengthOf_cons]
            omega
          · rw [List.take_succ_cons, lengthOf_cons]
            omega

/-- What a read should do before the entries `post`: it takes the bytes that there are, and moves to
the end of the last entry that has one of them. -/
structure BoundaryRead (post : List Data) (count fPos : ℕ) (result : ReadResult) : Prop where
  ret_eq : result.ret = .ok (min count (lengthOf post))
  delivered_eq : result.delivered = (contentsOf post).take (min count (lengthOf post))
  fPos_eq : (min count (lengthOf post) = 0 ∧ result.fPos = fPos) ∨
    ∃ k < post.length, lengthOf (post.take k) < min count (lengthOf post) ∧
      min count (lengthOf post) ≤ lengthOf (post.take (k + 1)) ∧
      result.fPos = fPos + lengthOf (post.take (k + 1))

theorem boundaryRead_linkedRead (variant : Variant) {m : Module} {pre post : List Data} {count : ℕ}
    (hc : 0 < count) (hbuf : m.buffer = pre ++ post) (htotal : m.totalLength = lengthOf m.buffer) :
    BoundaryRead post count (lengthOf pre)
      (linkedRead variant false (fun _ => false) m count (lengthOf pre)) := by
  rw [linkedRead_append variant count hbuf htotal]
  constructor
  · show Except.ok ((contentsOf post).take count).length = _
    rw [List.length_take, length_contentsOf]
  · show (contentsOf post).take count = _
    rw [← length_contentsOf, List.take_eq_take_min]
  · rcases visited_cases hc post with ⟨hzero, hnil⟩ | ⟨k, hk, hlt, hge, hv⟩
    · refine Or.inl ⟨hzero, ?_⟩
      rw [hnil]
      rfl
    · refine Or.inr ⟨k, hk, hlt, hge, ?_⟩
      rw [hv]

/-- The reader is always between two entries, and each of its reads is as it should be. -/
theorem linkedRead_boundaries {variant : Variant} {m₀ : Module} (hm : Written variant m₀)
    {tr : List ((Module × ℕ) × FileCall)} {s : Module × ℕ}
    (h : Run (FileStep variant) (m₀, 0) tr s) :
    (∃ pre, pre <+: s.1.buffer ∧ s.2 = lengthOf pre) ∧
      ∀ pre post count, s.1.buffer = pre ++ post → s.2 = lengthOf pre → 1 ≤ count →
        BoundaryRead post count s.2 (linkedRead variant false (fun _ => false) s.1 count s.2) := by
  have hstart : OnBoundary (m₀, 0) := ⟨hm.totalLength_eq, [], m₀.buffer, rfl, rfl⟩
  obtain ⟨htotal, pre, post, hbuf, hpos⟩ : OnBoundary s :=
    h.invariant (fun _ _ _ hI hs => hs.onBoundary hI) hstart
  refine ⟨⟨pre, ⟨post, hbuf.symm⟩, hpos⟩, fun pre post count hbuf hpos hc => ?_⟩
  rw [hpos]
  exact boundaryRead_linkedRead variant hc hbuf htotal

/-- Entries of 4, 1 and 2 bytes, read 3 bytes at a time after a read of none. -/
theorem linkedRead_boundaries_between : ∃ m₀ tr s, Written .spinlock m₀ ∧
    Run (FileStep .spinlock) (m₀, 0) tr s ∧ s.1.buffer.map Data.length = [4, 1, 2] ∧ s.2 = 4 ∧
    ∀ pre post count, s.1.buffer = pre ++ post → s.2 = lengthOf pre → 1 ≤ count →
      BoundaryRead post count s.2 (linkedRead .spinlock false (fun _ => false) s.1 count s.2) := by
  have hm : Written .spinlock (linkedWrite .spinlock (fun _ => .ok) {} [1, 2, 3, 4, 5] 0).module :=
    Written.init.write _ _ _
  have hclear : ¬ HasClear [6, 7] := by decide
  have hrun : Run (FileStep .spinlock)
      ((linkedWrite .spinlock (fun _ => .ok) {} [1, 2, 3, 4, 5] 0).module, 0) _ _ :=
    (Run.nil.snoc (.read _ 0 0)).snoc (.write _ _ 0 hclear)
  exact ⟨_, _, _, hm, hrun, by decide, by decide, (linkedRead_boundaries hm hrun).2⟩

end LinkedBuffer
