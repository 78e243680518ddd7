import SystemsProgramming.Classes3.Circular.Strings
import SystemsProgramming.Library.Run
import Mathlib.Algebra.Order.Ring.Int

/-!
# What a sequence of reads delivers

A file is read from its start on while writes append to the string.  `circular_read` copies the
whole string whenever `*f_pos` is before its end, whatever the count, or fails on the way: so the
reads deliver the string once, in pieces that fit, exactly when each of them that finds something new
starts at `0` with a count that takes the string or fails early enough, and none finds nothing new
after one that failed has copied something (`deliversOnce_iff`).
-/

namespace Circular

open Memory Transition

/-! ### Runs -/

/-- A read with what it leaves behind, or a write. -/
inductive Event where
  | read (count writable : ℕ) (result : ReadResult)
  | append (bytes : List UInt8)

/-- The bytes that the reader gets. -/
def Event.delivered : Event → List UInt8
  | .read _ _ result => result.delivered
  | .append _ => []

/-- The state is the device with `*f_pos`.  A write may fail on the way; what it stores is appended to
the string, which still has an end. -/
inductive FileStep : Device × ℤ → Event → Device × ℤ → Prop
  | read {d : Device} {fPos : ℤ} {count writable : ℕ} {result : ReadResult} :
      0 < count → circularRead count fPos writable d = .ok result →
        FileStep (d, fPos) (.read count writable result) (d, result.fPos)
  | append {d d' : Device} {fPos ret : ℤ} {userBuf : List (Option UInt8)} {bytes : List UInt8} :
      circularWrite userBuf d = .ok (d', ret) → 0 ∈ d'.buffer →
        d'.string = d.string ++ bytes → FileStep (d, fPos) (.append bytes) (d', fPos)

/-- What has been delivered in a run. -/
def delivered (tr : List ((Device × ℤ) × Event)) : List UInt8 :=
  tr.flatMap fun p => p.2.delivered

/-- The read gives at most `count` bytes, those from `*f_pos` on; if it returns `0` then the bytes
so far are the string. -/
def ReadOk (before : List UInt8) (s : Device × ℤ) : Event → Prop
  | .read count _ result =>
    result.delivered.length ≤ count ∧ result.delivered <+: s.1.string.drop s.2.toNat ∧
      (result.ret = 0 → before ++ result.delivered = s.1.string)
  | .append _ => True

/-- Every read of the run is as it should be. -/
def DeliversOnce (tr : List ((Device × ℤ) × Event)) : Prop :=
  ∀ tr₁ s e tr₂, tr = tr₁ ++ (s, e) :: tr₂ → ReadOk (delivered tr₁) s e

/-- The read fails after it has copied some bytes. -/
def FailsPartly (p : (Device × ℤ) × Event) : Prop :=
  match p.2 with
  | .read _ writable _ =>
    p.1.2 < p.1.1.string.length ∧ 0 < writable ∧ writable < p.1.1.string.length
  | .append _ => False

/-- After the steps `tr`, the read finds nothing new and none has failed halfway, or fails within its
count and within what follows `*f_pos`, or takes the whole string from the start. -/
def Fits (tr : List ((Device × ℤ) × Event)) (s : Device × ℤ) : Event → Prop
  | .read count writable _ =>
    if (s.1.string.length : ℤ) ≤ s.2 then ∀ p ∈ tr, ¬ FailsPartly p
    else if writable < s.1.string.length then
      writable ≤ count ∧ s.1.string.take writable <+: s.1.string.drop s.2.toNat
    else s.2 = 0 ∧ s.1.string.length ≤ count
  | .append _ => True

/-- Every read of the run fits. -/
def AllFit (tr : List ((Device × ℤ) × Event)) : Prop :=
  ∀ tr₁ s e tr₂, tr = tr₁ ++ (s, e) :: tr₂ → Fits tr₁ s e

theorem delivered_concat (tr : List ((Device × ℤ) × Event)) (p : (Device × ℤ) × Event) :
    delivered (tr ++ [p]) = delivered tr ++ p.2.delivered := by
  unfold delivered
  rw [List.flatMap_append, List.flatMap_singleton]

/-- What holds of every step and the steps before it, after one more step. -/
theorem forall_split_concat {P : List ((Device × ℤ) × Event) → Device × ℤ → Event → Prop}
    {tr : List ((Device × ℤ) × Event)} {s : Device × ℤ} {e : Event} :
    (∀ tr₁ s' e' tr₂, tr ++ [(s, e)] = tr₁ ++ (s', e') :: tr₂ → P tr₁ s' e') ↔
      (∀ tr₁ s' e' tr₂, tr = tr₁ ++ (s', e') :: tr₂ → P tr₁ s' e') ∧ P tr s e := by
  constructor
  · intro h
    refine ⟨fun tr₁ s' e' tr₂ htr => ?_, h tr s e [] rfl⟩
    apply h tr₁ s' e' (tr₂ ++ [(s, e)])
    rw [htr, List.append_assoc, List.cons_append]
  · rintro ⟨htr, hlast⟩ tr₁ s' e' tr₂ h
    rcases snoc_eq_append_cons h with ⟨rfl, hp, -⟩ | ⟨tr₃, -, htr'⟩
    · rw [Prod.mk.injEq] at hp
      rw [hp.1, hp.2]
      exact hlast
    · exact htr tr₁ s' e' tr₃ htr'

/-! ### Writes at the end of the string -/

/-- A write that ends before the last cell puts its bytes behind the first `n` cells. -/
theorem putAll_inside {z : UInt8} (r : TerminatedRing z) (bytes : List UInt8)
    (h : r.pos + bytes.length < r.cells.length - 1) :
    (r.putAll bytes).cells =
      r.cells.take r.pos ++ bytes ++ r.cells.drop (r.pos + bytes.length) := by
  induction bytes using List.reverseRecOn with
  | nil => simp [TerminatedRing.putAll]
  | append_singleton bytes b ih =>
      rw [List.length_append, List.length_singleton] at h ⊢
      have hpos : (r.putAll bytes).pos = r.pos + bytes.length := by
        rw [TerminatedRing.pos_putAll, Nat.mod_eq_of_lt (by omega)]
      have htake : (r.cells.take r.pos ++ bytes).length = r.pos + bytes.length := by
        rw [List.length_append, List.length_take]
        omega
      rw [TerminatedRing.putAll_concat]
      show (r.putAll bytes).cells.set (r.putAll bytes).pos b = _
      rw [hpos, ih (by omega), List.set_append_right _ _ htake.le, htake, Nat.sub_self,
        List.drop_eq_getElem_cons (by omega), List.set_cons_zero]
      simp [Nat.add_assoc]

/-- A write at the end of the string that does not reach the last cell, nor hide a byte behind the
string, is an `append` step. -/
theorem FileStep.append_of_room {r : TerminatedRing (0 : UInt8)} {bytes : List UInt8} (fPos : ℤ)
    (hend : r.pos = r.string.length) (hbytes : 0 ∉ bytes)
    (hroom : r.pos + bytes.length < r.cells.length - 1)
    (hnext : r.cells[r.pos + bytes.length]? = some 0) :
    FileStep (ofRing r, fPos) (.append bytes) (ofRing (r.putAll bytes), fPos) := by
  have hcells := putAll_inside r bytes hroom
  apply FileStep.append
  · exact circularWrite_ofRing bytes r
  · exact (r.putAll bytes).mem_cells
  · show (r.putAll bytes).cells.takeWhile (· ≠ 0) = r.string ++ bytes
    have htake : r.cells.take r.pos = r.string := by
      rw [hend]
      exact take_length_string (ofRing r)
    have hnonzero : ∀ b ∈ r.string ++ bytes, decide (b ≠ 0) = true := by
      intro b hb
      rcases List.mem_append.1 hb with hb | hb
      · exact List.all_eq_true.1 List.all_takeWhile b hb
      · exact decide_eq_true fun hzero => hbytes (hzero ▸ hb)
    obtain ⟨hlt, hzero⟩ := List.getElem?_eq_some_iff.1 hnext
    rw [hcells, htake, List.takeWhile_append_of_pos hnonzero, List.drop_eq_getElem_cons hlt, hzero,
      List.takeWhile_cons]
    simp

/-! ### One step -/

/-- What every step keeps: the string has an end, and `*f_pos` is a small number. -/
structure FileInv (s : Device × ℤ) : Prop where
  mem : 0 ∈ s.1.buffer
  length_le : s.1.buffer.length ≤ intMax
  nonneg : 0 ≤ s.2
  le : s.2 ≤ 2 * intMax

theorem length_string_le (d : Device) : d.string.length ≤ d.buffer.length :=
  (List.takeWhile_sublist _).length_le

section Step

variable {d : Device} {fPos : ℤ} {count writable : ℕ} {result : ReadResult} {t : Device × ℤ}

/-- A read delivers nothing, fails after what it can write of the string, or delivers the whole
string. -/
theorem circularRead_cases (hs : FileInv (d, fPos))
    (h : circularRead count fPos writable d = .ok result) :
    ((d.string.length : ℤ) ≤ fPos ∧ result = ⟨0, fPos, []⟩) ∨
      (fPos < d.string.length ∧ writable < d.string.length ∧
        result = ⟨-efault, fPos, d.string.take writable⟩) ∨
      (fPos < d.string.length ∧ d.string.length ≤ writable ∧
        result = ⟨d.string.length, fPos + d.string.length, d.string⟩) := by
  have hnonneg : 0 ≤ fPos := hs.nonneg
  have hle : fPos ≤ 2 * intMax := hs.le
  have hpos : unsignedPos fPos = fPos.toNat := by
    unfold unsignedPos
    rw [Int.emod_eq_of_lt hnonneg]
    unfold intMax at hle
    unfold ulongCard
    omega
  have hread : result = readString fPos writable d.buffer d.string.length := by
    unfold circularRead at h
    rw [strlen_eq hs.mem, findIdx_eq_length_string] at h
    exact (Except.ok.inj h).symm
  rw [hread]
  unfold readString
  rw [hpos]
  by_cases hend : d.string.length ≤ fPos.toNat
  · rw [if_pos hend]
    exact Or.inl ⟨by omega, rfl⟩
  · rw [if_neg hend]
    by_cases hfault : writable < d.string.length
    · have htake : d.buffer.take writable = d.string.take writable := by
        rw [← take_length_string d, List.take_take, Nat.min_eq_left hfault.le]
      rw [if_pos hfault, htake]
      exact Or.inr (Or.inl ⟨by omega, hfault, rfl⟩)
    · rw [if_neg hfault, take_length_string]
      exact Or.inr (Or.inr ⟨by omega, by omega, rfl⟩)

/-- The loop of a write keeps the length of the block. -/
theorem writeLoop_length {userBuf : List (Option UInt8)} {d d' : Device} {fault : Bool}
    (h : writeLoop userBuf d = .ok (d', fault)) : d'.buffer.length = d.buffer.length := by
  have hstore : ∀ {block block' : List UInt8} {i : ℤ} {b : UInt8},
      store block i b = .ok block' → block'.length = block.length := by
    intro block block' i b hb
    unfold store at hb
    split at hb
    · rw [← Except.ok.inj hb, List.length_set]
    · cases hb
  induction userBuf generalizing d with
  | nil =>
      cases h
      rfl
  | cons o userBuf ih =>
      cases o with
      | none =>
          unfold writeLoop at h
          cases hb : store d.buffer d.currPosition 0 with
          | error e =>
              rw [hb] at h
              cases h
          | ok block =>
              rw [hb] at h
              cases h
              exact hstore hb
      | some b =>
          unfold writeLoop at h
          cases hb : store d.buffer d.currPosition b with
          | error e =>
              rw [hb] at h
              cases h
          | ok block =>
              cases hp : remainder (d.currPosition + 1) (d.buffSize - 1) with
              | error e =>
                  rw [hb] at h
                  simp only [bind, Except.bind, hp] at h
                  cases h
              | ok p =>
                  rw [hb] at h
                  simp only [bind, Except.bind, hp] at h
                  exact (ih h).trans (hstore hb)

theorem circularWrite_length {userBuf : List (Option UInt8)} {d d' : Device} {ret : ℤ}
    (h : circularWrite userBuf d = .ok (d', ret)) : d'.buffer.length = d.buffer.length := by
  unfold circularWrite at h
  cases hloop : writeLoop userBuf d with
  | error e =>
      rw [hloop] at h
      cases h
  | ok p =>
      rw [hloop] at h
      cases h
      exact writeLoop_length hloop

theorem FileStep.inv {s t : Device × ℤ} {e : Event} (h : FileStep s e t) (hs : FileInv s) :
    FileInv t := by
  cases h with
  | @read d fPos count writable result hc hread =>
      have hlength := (length_string_le d).trans hs.length_le
      have hnonneg : 0 ≤ fPos := hs.nonneg
      rcases circularRead_cases hs hread with ⟨-, rfl⟩ | ⟨-, -, rfl⟩ | ⟨hlt, -, rfl⟩
      · exact hs
      · exact hs
      · refine ⟨hs.mem, hs.length_le, ?_, ?_⟩
        · show 0 ≤ fPos + d.string.length
          omega
        · show fPos + d.string.length ≤ 2 * intMax
          omega
  | append hwrite hmem _ =>
      exact ⟨hmem, (circularWrite_length hwrite).trans_le hs.length_le, hs.nonneg, hs.le⟩

/-- After the steps `tr` the reader has a prefix of the string, up to `*f_pos`; or more bytes than
that, if a read has failed halfway. -/
structure Caught (tr : List ((Device × ℤ) × Event)) (s : Device × ℤ) : Prop where
  clean : (∀ p ∈ tr, ¬ FailsPartly p) →
    delivered tr <+: s.1.string ∧ ((delivered tr).length : ℤ) = s.2
  broken : (∃ p ∈ tr, FailsPartly p) → s.2 < (delivered tr).length

variable {tr : List ((Device × ℤ) × Event)}

/-- A read after steps that fit is as it should be exactly when it fits. -/
theorem readOk_iff_fits {s : Device × ℤ} {e : Event} (h : FileStep s e t) (hs : FileInv s)
    (hc : Caught tr s) : ReadOk (delivered tr) s e ↔ Fits tr s e := by
  cases h with
  | append => exact Iff.rfl
  | @read d fPos count writable result _ hread =>
      have hnonneg : 0 ≤ fPos := hs.nonneg
      rcases circularRead_cases hs hread with ⟨hle, rfl⟩ | ⟨hlt, hfault, rfl⟩ | ⟨hlt, hroom, rfl⟩
      · rw [Fits, if_pos hle]
        constructor
        · rintro ⟨-, -, hall⟩ p hp hpartly
          -- more has been delivered than the string has
          have hmore := hc.broken ⟨p, hp, hpartly⟩
          have hall : delivered tr ++ [] = d.string := hall rfl
          rw [List.append_nil] at hall
          rw [hall] at hmore
          dsimp only at hmore
          omega
        · intro hclean
          obtain ⟨hsub, hlength⟩ := hc.clean hclean
          refine ⟨Nat.zero_le _, List.nil_prefix, fun _ => ?_⟩
          rw [List.append_nil]
          have hlength : ((delivered tr).length : ℤ) = fPos := hlength
          exact hsub.eq_of_length_le (show d.string.length ≤ (delivered tr).length by omega)
      · rw [Fits, if_neg (not_le.2 hlt), if_pos hfault]
        have hlen : (d.string.take writable).length = writable := by
          rw [List.length_take, Nat.min_eq_left hfault.le]
        constructor
        · rintro ⟨hcount, hsub, -⟩
          exact ⟨hlen ▸ hcount, hsub⟩
        · rintro ⟨hcount, hsub⟩
          exact ⟨hlen.le.trans hcount, hsub, fun hret => absurd hret (show -efault ≠ 0 by decide)⟩
      · rw [Fits, if_neg (not_le.2 hlt), if_neg (not_lt.2 hroom)]
        constructor
        · rintro ⟨hcount, hsub, -⟩
          have hfit := hsub.length_le
          dsimp only at hfit hcount
          rw [List.length_drop] at hfit
          exact ⟨show fPos = 0 by omega, hcount⟩
        · rintro ⟨hzero, hcount⟩
          have hzero : fPos = 0 := hzero
          refine ⟨hcount, ?_, fun hret => ?_⟩
          · show d.string <+: d.string.drop fPos.toNat
            rw [hzero, Int.toNat_zero, List.drop_zero]
          · have hret : (d.string.length : ℤ) = 0 := hret
            omega

theorem caught_nil {s : Device × ℤ} (hzero : s.2 = 0) : Caught [] s where
  clean _ := ⟨List.nil_prefix, hzero.symm⟩
  broken h := by
    obtain ⟨p, hp, -⟩ := h
    cases hp

/-- A step that does not fail halfway. -/
theorem Caught.snoc {s : Device × ℤ} {e : Event} (hc : Caught tr s) (hnot : ¬ FailsPartly (s, e))
    (hclean : delivered tr <+: s.1.string → ((delivered tr).length : ℤ) = s.2 →
      delivered tr ++ e.delivered <+: t.1.string ∧
        ((delivered tr ++ e.delivered).length : ℤ) = t.2)
    (hmore : t.2 ≤ s.2 + e.delivered.length) : Caught (tr ++ [(s, e)]) t where
  clean h := by
    obtain ⟨hsub, hlength⟩ := hc.clean fun p hp => h p (List.mem_append_left _ hp)
    rw [delivered_concat]
    exact hclean hsub hlength
  broken h := by
    obtain ⟨p, hp, hpartly⟩ := h
    rcases List.mem_append.1 hp with hp | hp
    · have hlt := hc.broken ⟨p, hp, hpartly⟩
      rw [delivered_concat, List.length_append]
      dsimp only
      omega
    · exact absurd (List.mem_singleton.1 hp ▸ hpartly) hnot

/-- A step that fits leaves the reader with a prefix of the string, or with too much. -/
theorem Caught.step {s : Device × ℤ} {e : Event} (hc : Caught tr s) (h : FileStep s e t)
    (hs : FileInv s) (hfits : Fits tr s e) : Caught (tr ++ [(s, e)]) t := by
  cases h with
  | append _ _ hstring =>
      refine hc.snoc id (fun hsub hlength => ?_) (by simp [Event.delivered])
      rw [Event.delivered, List.append_nil]
      exact ⟨hstring ▸ hsub.trans (List.prefix_append ..), hlength⟩
  | @read d fPos count writable result _ hread =>
      rcases circularRead_cases hs hread with ⟨hle, rfl⟩ | ⟨hlt, hfault, rfl⟩ | ⟨hlt, hroom, rfl⟩
      · refine hc.snoc (fun h => absurd h.1 (not_lt.2 hle)) (fun hsub hlength => ?_)
          (by simp [Event.delivered])
        rw [Event.delivered, List.append_nil]
        exact ⟨hsub, hlength⟩
      · have hlen : (d.string.take writable).length = writable := by
          rw [List.length_take, Nat.min_eq_left hfault.le]
        rcases Nat.eq_zero_or_pos writable with rfl | hpos
        · -- nothing was copied
          refine hc.snoc (fun h => absurd h.2.1 (lt_irrefl 0)) (fun hsub hlength => ?_)
            (by simp [Event.delivered])
          rw [Event.delivered, List.take_zero, List.append_nil]
          exact ⟨hsub, hlength⟩
        · refine ⟨fun hclean => ?_, fun _ => ?_⟩
          · exact absurd ⟨hlt, hpos, hfault⟩
              (hclean _ (List.mem_append_right _ (List.mem_singleton_self _)))
          · have hge : fPos ≤ (delivered tr).length := by
              by_cases hpartly : ∃ p ∈ tr, FailsPartly p
              · exact (hc.broken hpartly).le
              · push Not at hpartly
                exact (hc.clean hpartly).2.ge
            rw [delivered_concat, List.length_append, Event.delivered, hlen]
            dsimp only
            omega
      · rw [Fits, if_neg (not_le.2 hlt), if_neg (not_lt.2 hroom)] at hfits
        have hzero : fPos = 0 := hfits.1
        refine hc.snoc (fun h => absurd h.2.2 (not_lt.2 hroom)) (fun hsub hlength => ?_) le_rfl
        have hlength : ((delivered tr).length : ℤ) = fPos := hlength
        have hnil : delivered tr = [] := List.eq_nil_of_length_eq_zero (by omega)
        rw [hnil, List.nil_append]
        exact ⟨List.prefix_rfl, by rw [hzero, zero_add]; rfl⟩

end Step

/-! ### Runs from the start of the file -/

theorem deliversOnce_iff_of_inv {s₀ s : Device × ℤ} {tr : List ((Device × ℤ) × Event)}
    (h : Run FileStep s₀ tr s) (hs : FileInv s₀) (hzero : s₀.2 = 0) :
    (DeliversOnce tr ↔ AllFit tr) ∧ (AllFit tr → Caught tr s) := by
  induction h with
  | nil =>
      refine ⟨iff_of_true ?_ ?_, fun _ => caught_nil hzero⟩ <;>
        · intro tr₁ s e tr₂ htr
          cases tr₁ <;> cases htr
  | @snoc tr s t e hrun hstep ih =>
      have hinv : FileInv s := hrun.invariant (fun _ _ _ hI hs => hs.inv hI) hs
      have hsnoc : AllFit (tr ++ [(s, e)]) ↔ AllFit tr ∧ Fits tr s e := forall_split_concat
      have hdelivers : DeliversOnce (tr ++ [(s, e)]) ↔ DeliversOnce tr ∧ ReadOk (delivered tr) s e :=
        forall_split_concat (P := fun tr₁ => ReadOk (delivered tr₁))
      rw [hdelivers, hsnoc, ih.1]
      refine ⟨and_congr_right fun hfits => readOk_iff_fits hstep hinv (ih.2 hfits), ?_⟩
      rintro ⟨hfits, hlast⟩
      exact (ih.2 hfits).step hstep hinv hlast

/-- The reads deliver the string once, in pieces that fit, exactly when each of them fits. -/
theorem deliversOnce_iff {d : Device} (hmem : 0 ∈ d.buffer) (hlength : d.buffer.length ≤ intMax)
    {tr : List ((Device × ℤ) × Event)} {s : Device × ℤ} (h : Run FileStep (d, 0) tr s) :
    DeliversOnce tr ↔ AllFit tr :=
  (deliversOnce_iff_of_inv h
    ⟨hmem, hlength, le_rfl, mul_nonneg zero_le_two (Int.natCast_nonneg _)⟩ rfl).1

/-- A read that fails at once, one that gets the string, a write that fails after its first byte, and
a read that fails after the first byte of the string, which has been delivered before. -/
theorem deliversOnce_iff_append : ∃ tr s, Run FileStep (⟨4, 1, [65, 0, 0, 0]⟩, 0) tr s ∧
    tr.map (fun p => p.2.delivered) = [[], [65], [], [65]] ∧ (DeliversOnce tr ↔ AllFit tr) := by
  have hfault : FileStep (⟨4, 1, [65, 0, 0, 0]⟩, 0) (.read 8 0 ⟨-efault, 0, []⟩)
      (⟨4, 1, [65, 0, 0, 0]⟩, 0) := .read (by decide) (by decide)
  have hread : FileStep (⟨4, 1, [65, 0, 0, 0]⟩, 0) (.read 8 8 ⟨1, 1, [65]⟩)
      (⟨4, 1, [65, 0, 0, 0]⟩, 1) := .read (by decide) (by decide)
  have hstored : circularWrite [some 66, none] ⟨4, 1, [65, 0, 0, 0]⟩ =
      .ok (⟨4, 2, [65, 66, 0, 0]⟩, -efault) := by decide
  have hwrite : FileStep (⟨4, 1, [65, 0, 0, 0]⟩, 1) (.append [66]) (⟨4, 2, [65, 66, 0, 0]⟩, 1) :=
    .append hstored (by decide) (by decide)
  have hlast : FileStep (⟨4, 2, [65, 66, 0, 0]⟩, 1) (.read 1 1 ⟨-efault, 1, [65]⟩)
      (⟨4, 2, [65, 66, 0, 0]⟩, 1) := .read (by decide) (by decide)
  have hrun := (((Run.nil.snoc hfault).snoc hread).snoc hwrite).snoc hlast
  exact ⟨_, _, hrun, by decide, deliversOnce_iff (by decide) (by decide) hrun⟩

/-- A read of one byte gets the whole string, and after a write the next one gets it again. -/
theorem read_delivers_twice : ∃ tr s, Run FileStep (⟨5, 2, [65, 66, 0, 0, 0]⟩, 0) tr s ∧
    tr.map (fun p => p.2.delivered) = [[65, 66], [], [65, 66, 67], []] ∧ ¬ DeliversOnce tr := by
  have hread : FileStep (⟨5, 2, [65, 66, 0, 0, 0]⟩, 0) (.read 1 8 ⟨2, 2, [65, 66]⟩)
      (⟨5, 2, [65, 66, 0, 0, 0]⟩, 2) := .read (by decide) (by decide)
  have hstored : circularWrite [some 67] ⟨5, 2, [65, 66, 0, 0, 0]⟩ =
      .ok (⟨5, 3, [65, 66, 67, 0, 0]⟩, 1) := by decide
  have hwrite : FileStep (⟨5, 2, [65, 66, 0, 0, 0]⟩, 2) (.append [67])
      (⟨5, 3, [65, 66, 67, 0, 0]⟩, 2) := .append hstored (by decide) (by decide)
  have hread' : FileStep (⟨5, 3, [65, 66, 67, 0, 0]⟩, 2) (.read 8 8 ⟨3, 5, [65, 66, 67]⟩)
      (⟨5, 3, [65, 66, 67, 0, 0]⟩, 5) := .read (by decide) (by decide)
  have hlast : FileStep (⟨5, 3, [65, 66, 67, 0, 0]⟩, 5) (.read 8 8 ⟨0, 5, []⟩)
      (⟨5, 3, [65, 66, 67, 0, 0]⟩, 5) := .read (by decide) (by decide)
  refine ⟨_, _, (((Run.nil.snoc hread).snoc hwrite).snoc hread').snoc hlast, by decide, fun h => ?_⟩
  have hfirst := (h [] _ _ _ rfl).1
  revert hfirst
  decide

end Circular
