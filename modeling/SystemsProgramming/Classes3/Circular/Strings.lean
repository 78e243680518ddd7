import SystemsProgramming.Classes3.Circular.Resizing
import SystemsProgramming.Library.Run

/-!
# What becomes of the bytes

Where the bytes of a stream end up does not depend on how it is split into writes, and a move to
another block keeps the string of the device as far as it fits.  Reads deliver the whole string,
whatever their count and position: `deliversOnce_iff` says when that is what the file should give.
-/

namespace Circular

open Memory Transition

/-! ### Writes as a stream -/

section Stream

variable {z : UInt8} {kstrtol : List UInt8 → Option ℤ}

theorem ringWrite_map_some (bytes : List UInt8) (r : TerminatedRing z) :
    ringWrite id (bytes.map some) r = r.putAll bytes := by
  induction bytes generalizing r with
  | nil => rfl
  | cons b bytes ih => exact ih (r.put b)

theorem circularWrite_ofRing (bytes : List UInt8) (r : TerminatedRing z) :
    circularWrite (bytes.map some) (ofRing r) = .ok (ofRing (r.putAll bytes), bytes.length) := by
  have hfault : (bytes.map some).any Option.isNone = false := by simp
  unfold circularWrite
  simp only [writeLoop_ofRing, ringWrite_map_some, hfault, List.length_map, bind, Except.bind, pure,
    Except.pure]
  rfl

theorem run_writes (calls : List (List UInt8)) (r : TerminatedRing z) :
    run kstrtol (calls.map fun bytes => .write (bytes.map some)) (ofRing r) =
      .ok (ofRing (r.putAll calls.flatten)) := by
  induction calls generalizing r with
  | nil => rfl
  | cons bytes calls ih =>
      rw [List.map_cons, List.flatten_cons, TerminatedRing.putAll_append]
      unfold run exec
      simp only [circularWrite_ofRing, bind, Except.bind, pure, Except.pure]
      exact ih _

/-- A device whose position is inside its ring, whatever the last cell holds. -/
theorem exists_ofRing {d : Device} (htwo : 2 ≤ d.buffSize) (hnonneg : 0 ≤ d.currPosition)
    (hlt : d.currPosition < d.buffSize - 1) (hlength : (d.buffer.length : ℤ) = d.buffSize) :
    ∃ z, ∃ r : TerminatedRing z, d = ofRing r := by
  obtain ⟨buffSize, currPosition, buffer⟩ := d
  dsimp only at htwo hnonneg hlt hlength
  have hi : buffer.length - 1 < buffer.length := by omega
  refine ⟨buffer[buffer.length - 1],
    ⟨buffer, currPosition.toNat, by omega, List.getElem?_eq_getElem hi⟩, ?_⟩
  unfold ofRing
  rw [Device.mk.injEq]
  exact ⟨hlength.symm, (Int.toNat_of_nonneg hnonneg).symm, rfl⟩

/-- `d'` is what is left of `d` when the bytes `s` have gone round all cells but the last one. -/
structure RingWritten (s : List UInt8) (d d' : Device) : Prop where
  size : d'.buffSize = d.buffSize ∧ d'.buffer.length = d.buffer.length
  position : d'.currPosition = (d.currPosition + s.length) % (d.buffSize - 1)
  /-- byte `k` is the last one that goes to cell `j` -/
  written : ∀ j k : ℕ, (j : ℤ) < d.buffSize - 1 →
    IsGreatest {k : ℕ | k < s.length ∧ (d.currPosition + k) % (d.buffSize - 1) = j} k →
      d'.buffer[j]? = s[k]?
  kept : ∀ j : ℕ, (j : ℤ) < d.buffSize - 1 →
    (∀ k < s.length, (d.currPosition + k) % (d.buffSize - 1) ≠ j) → d'.buffer[j]? = d.buffer[j]?
  last : d'.buffer[(d.buffSize - 1).toNat]? = d.buffer[(d.buffSize - 1).toNat]?

theorem ringWritten_putAll (s : List UInt8) (r : TerminatedRing z) :
    RingWritten s (ofRing r) (ofRing (r.putAll s)) := by
  have hN := buffSize_sub_one r
  have hcell : ∀ k j : ℕ, ((ofRing r).currPosition + k) % ((ofRing r).buffSize - 1) = j ↔
      (r.pos + k) % (r.cells.length - 1) = j := by
    intro k j
    rw [hN]
    show ((r.pos : ℤ) + k) % _ = _ ↔ _
    norm_cast
  constructor
  · exact ⟨congrArg Nat.cast (r.length_putAll s), r.length_putAll s⟩
  · rw [hN]
    show ((r.putAll s).pos : ℤ) = ((r.pos : ℤ) + s.length) % _
    rw [TerminatedRing.pos_putAll]
    norm_cast
  · intro j k _ h
    simp only [hcell] at h
    exact r.getElem?_putAll_of_isGreatest h
  · intro j _ h
    simp only [ne_eq, hcell] at h
    exact r.getElem?_putAll_of_ne h
  · rw [hN, Int.toNat_natCast]
    exact (r.getElem?_putAll_last s).trans r.last.symm

/-- A stream goes round the ring, however it is split into writes. -/
theorem writes_ringWritten {d : Device} (htwo : 2 ≤ d.buffSize) (hnonneg : 0 ≤ d.currPosition)
    (hlt : d.currPosition < d.buffSize - 1) (hlength : (d.buffer.length : ℤ) = d.buffSize)
    (calls : List (List UInt8)) :
    ∃ d', run kstrtol (calls.map fun bytes => .write (bytes.map some)) d = .ok d' ∧
      RingWritten calls.flatten d d' := by
  obtain ⟨z, r, rfl⟩ := exists_ofRing htwo hnonneg hlt hlength
  exact ⟨_, run_writes calls r, ringWritten_putAll calls.flatten r⟩

/-- Five bytes go round a ring of three cells. -/
theorem writes_ringWritten_wrap :
    ∃ d', run decimalLong [.write [some 65, some 66, some 67, some 68], .write [some 69]]
        ⟨4, 1, [1, 2, 3, 9]⟩ = .ok d' ∧
      RingWritten [65, 66, 67, 68, 69] ⟨4, 1, [1, 2, 3, 9]⟩ d' :=
  writes_ringWritten (by decide) (by decide) (by decide) (by decide) [[65, 66, 67, 68], [69]]

end Stream

/-! ### The string -/

/-- The string in the buffer. -/
def Device.string (d : Device) : List UInt8 := d.buffer.takeWhile (· ≠ 0)

theorem findIdx_eq_length_string (d : Device) :
    d.buffer.findIdx (· = 0) = d.string.length := by
  unfold Device.string
  rw [List.takeWhile_eq_take_findIdx_not, List.length_take, Nat.min_eq_left]
  · simp
  · exact List.findIdx_le_length

theorem take_length_string (d : Device) : d.buffer.take d.string.length = d.string :=
  (List.prefix_iff_eq_take.1 (List.takeWhile_prefix _)).symm

/-! ### Moving the string -/

section Resized

variable {kstrtol : List UInt8 → Option ℤ} {tempBlock newBlock : Option (ℕ → UInt8)}
  {userBuf : List (Option UInt8)} {v : ℤ} {d d' : Device} {ret : ℤ}

/-- `d'` is `d` moved to a block of `v` cells. -/
structure Resized (v : ℤ) (d d' : Device) : Prop where
  string_eq : d'.string = d.string.take (v - 1).toNat
  size : d'.buffSize = v ∧ (d'.buffer.length : ℤ) = v
  position : d'.currPosition = d.currPosition % (v - 1)
  last : load d'.buffer (v - 1) = .ok 0

theorem resized_toDevice (r : TerminatedRing (0 : UInt8)) (block : List UInt8)
    (h : 2 ≤ block.length) :
    Resized block.length (toDevice r) (toDevice (r.resize block h)) := by
  have hlength := congrArg (Nat.cast : ℕ → ℤ) (r.length_resize block h)
  have hcast : (block.length : ℤ) - 1 = ((block.length - 1 : ℕ) : ℤ) := by omega
  constructor
  · rw [hcast, Int.toNat_natCast]
    exact r.string_resize block h
  · exact ⟨hlength, hlength⟩
  · rw [hcast]
    exact Int.natCast_mod _ _
  · have hlast := (inv_toDevice (r.resize block h)).last
    rwa [show (toDevice (r.resize block h)).buffSize = block.length from hlength] at hlast

/-- With a block of at least two cells the call returns the count, and has moved the string. -/
theorem circularProcWrite_resized (hd : d.Inv) (h2 : 2 ≤ v)
    (h : (Call.procWrite tempBlock newBlock userBuf).newSize kstrtol = some v) :
    ∃ d', circularProcWrite kstrtol tempBlock newBlock userBuf d = .ok (d', userBuf.length) ∧
      Resized v d d' := by
  obtain ⟨r, rfl⟩ := hd.exists_ring
  obtain ⟨hnonneg, hle, hcall⟩ := circularProcWrite_of_some h (toDevice r)
  obtain ⟨block, hblock⟩ : ∃ block, block =
      (List.range v.toNat).map (Call.procWrite tempBlock newBlock userBuf).contents := ⟨_, rfl⟩
  have hlength : (block.length : ℤ) = v := by
    rw [hblock, List.length_map, List.length_range, Int.toNat_of_nonneg hnonneg]
  have htwo : 2 ≤ block.length := by omega
  have hmove := moveTo_toDevice r block htwo (by omega)
  rw [← hblock, ← hlength, hmove] at hcall
  have hresized := resized_toDevice r block htwo
  rw [hlength] at hresized
  exact ⟨_, hcall, hresized⟩

/-- A call that returns the count has a new block of the size it read. -/
theorem newSize_of_returns_count
    (h : circularProcWrite kstrtol tempBlock newBlock userBuf d = .ok (d', userBuf.length)) :
    ∃ v, (Call.procWrite tempBlock newBlock userBuf).newSize kstrtol = some v := by
  cases hsize : (Call.procWrite tempBlock newBlock userBuf).newSize kstrtol with
  | some v => exact ⟨v, rfl⟩
  | none =>
      obtain ⟨e, he, hcall⟩ := circularProcWrite_of_none hsize d
      rw [hcall, Except.ok.injEq, Prod.mk.injEq] at h
      omega

/-- A call that returns an error has no new block. -/
theorem newSize_of_returns_error (hret : ret < 0)
    (h : circularProcWrite kstrtol tempBlock newBlock userBuf d = .ok (d', ret)) :
    (Call.procWrite tempBlock newBlock userBuf).newSize kstrtol = none := by
  cases hsize : (Call.procWrite tempBlock newBlock userBuf).newSize kstrtol with
  | none => rfl
  | some v =>
      obtain ⟨-, -, hcall⟩ := circularProcWrite_of_some hsize d
      rw [h] at hcall
      cases hmove : moveTo v _ d with
      | error e =>
          rw [hmove] at hcall
          cases hcall
      | ok d'' =>
          rw [hmove] at hcall
          simp only [Except.map, Except.ok.injEq, Prod.mk.injEq] at hcall
          omega

/-- A resize keeps the string as far as it fits, and a failed one changes nothing. -/
theorem circularProcWrite_returns (kstrtol : List UInt8 → Option ℤ)
    (tempBlock newBlock : Option (ℕ → UInt8)) (userBuf : List (Option UInt8)) {d : Device}
    (hd : d.Inv) :
    (∀ v, (Call.procWrite tempBlock newBlock userBuf).newSize kstrtol = some v → 2 ≤ v →
      ∃ d', circularProcWrite kstrtol tempBlock newBlock userBuf d = .ok (d', userBuf.length)) ∧
    ∀ d' ret, circularProcWrite kstrtol tempBlock newBlock userBuf d = .ok (d', ret) →
      (∀ v, readValue kstrtol tempBlock userBuf = .ok v → 2 ≤ v → ret = userBuf.length →
        Resized v d d') ∧
      (ret < 0 → d' = d) := by
  refine ⟨fun v hv h2 => ?_, fun d' ret h => ⟨fun v hv h2 hret => ?_, fun hret => ?_⟩⟩
  · obtain ⟨d', hcall, -⟩ := circularProcWrite_resized hd h2 hv
    exact ⟨d', hcall⟩
  · subst hret
    obtain ⟨w, hw⟩ := newSize_of_returns_count h
    have hwv : w = v :=
      Except.ok.inj ((newSize_eq_some_iff.1 hw).1.symm.trans hv)
    subst hwv
    obtain ⟨d'', hcall, hresized⟩ := circularProcWrite_resized hd h2 hw
    rw [h, Except.ok.injEq, Prod.mk.injEq] at hcall
    rw [hcall.1]
    exact hresized
  · obtain ⟨e, -, hcall⟩ := circularProcWrite_of_none (newSize_of_returns_error hret h) d
    rw [h, Except.ok.injEq, Prod.mk.injEq] at hcall
    exact hcall.1

/-- Three cells for a string of three bytes: the last one is cut off. -/
theorem circularProcWrite_returns_shrink :
    ∃ d', circularProcWrite decimalLong (some fun _ => 7) (some fun _ => 7) [some 51]
        ⟨4, 2, [65, 66, 67, 0]⟩ = .ok (d', 1) ∧ Resized 3 ⟨4, 2, [65, 66, 67, 0]⟩ d' := by
  have hd : Device.Inv ⟨4, 2, [65, 66, 67, 0]⟩ :=
    ⟨by decide, by decide, by decide, by decide, by decide⟩
  obtain ⟨hreturns, hcall⟩ := circularProcWrite_returns decimalLong (some fun _ => 7)
    (some fun _ => 7) [some 51] hd
  obtain ⟨d', hd'⟩ := hreturns 3 (by decide) (by decide)
  exact ⟨d', hd', (hcall d' _ hd').1 3 (by decide) (by decide) rfl⟩

end Resized

end Circular
