import SystemsProgramming.Classes3.Circular.Strings

/-!
# Writes that fail

A write that cannot read a byte returns `-EFAULT`, but it has put the bytes before it into the ring,
and `copy_from_user` leaves a zero for the byte itself.  `allOrNothing_iff` says which faults leave
the device as it was: those that write what is there, whole turns and a zero.
-/

namespace Circular

open Memory

variable {z : UInt8}

/-- A write that returns `-EFAULT` leaves the device as it was. -/
def AllOrNothing (userBuf : List (Option UInt8)) (d : Device) : Prop :=
  ∀ d', circularWrite userBuf d = .ok (d', -efault) → d' = d

/-- The bytes and a zero leave the ring as it is: the position comes back to its cell, and the
values of the last turn are there. -/
structure Refills (bytes : List UInt8) (d : Device) : Prop where
  turns : d.buffSize - 1 ∣ bytes.length
  present : ∀ k : ℕ, k < (bytes ++ [0]).length →
    ((bytes ++ [0]).length : ℤ) ≤ k + (d.buffSize - 1) →
      (bytes ++ [0])[k]? = d.buffer[((d.currPosition + k) % (d.buffSize - 1)).toNat]?

/-- The bytes before the first one that cannot be read, if there is one. -/
theorem exists_fault {userBuf : List (Option UInt8)} (h : userBuf.any Option.isNone = true) :
    ∃ (bytes : List UInt8) (rest : List (Option UInt8)),
      userBuf = bytes.map some ++ none :: rest := by
  induction userBuf with
  | nil => cases h
  | cons o userBuf ih =>
      cases o with
      | none => exact ⟨[], userBuf, rfl⟩
      | some b =>
          obtain ⟨bytes, rest, rfl⟩ := ih h
          exact ⟨b :: bytes, rest, rfl⟩

theorem any_isNone_fault (bytes : List UInt8) (rest : List (Option UInt8)) :
    (bytes.map some ++ none :: rest).any Option.isNone = true := by
  rw [List.any_append, List.any_cons, Option.isNone_none, Bool.true_or, Bool.or_true]

theorem ringWrite_fault (bytes : List UInt8) (rest : List (Option UInt8)) (r : TerminatedRing z) :
    ringWrite id (bytes.map some ++ none :: rest) r = (r.putAll bytes).mark 0 := by
  induction bytes generalizing r with
  | nil => rfl
  | cons b bytes ih => exact ih (r.put b)

/-- What a write returns, and what it leaves. -/
theorem circularWrite_eq (userBuf : List (Option UInt8)) (r : TerminatedRing z) :
    circularWrite userBuf (ofRing r) = .ok (ofRing (ringWrite id userBuf r),
      if userBuf.any Option.isNone then -efault else userBuf.length) := by
  unfold circularWrite
  rw [writeLoop_ofRing]
  rfl

theorem ofRing_inj {w : UInt8} {r : TerminatedRing z} {r' : TerminatedRing w} :
    ofRing r = ofRing r' ↔ r.pos = r'.pos ∧ r.cells = r'.cells := by
  unfold ofRing
  rw [Device.mk.injEq]
  constructor
  · rintro ⟨-, hpos, hcells⟩
    exact ⟨Int.ofNat.inj hpos, hcells⟩
  · rintro ⟨hpos, hcells⟩
    exact ⟨by rw [hcells], by rw [hpos], hcells⟩

theorem refills_ofRing_iff (bytes : List UInt8) (r : TerminatedRing z) :
    Refills bytes (ofRing r) ↔ ofRing ((r.putAll bytes).mark 0) = ofRing r := by
  have hN := buffSize_sub_one r
  have hcell : ∀ k : ℕ, (((ofRing r).currPosition + k) % ((ofRing r).buffSize - 1)).toNat =
      (r.pos + k) % (r.cells.length - 1) := by
    intro k
    rw [hN]
    show (((r.pos : ℤ) + k) % _).toNat = _
    norm_cast
  have hmark : ((r.putAll bytes).mark 0).cells = (r.putAll (bytes ++ [0])).cells := by
    rw [TerminatedRing.putAll_concat]
    rfl
  rw [ofRing_inj, hmark, TerminatedRing.cells_putAll_eq_iff]
  show _ ↔ (r.putAll bytes).pos = r.pos ∧ _
  rw [TerminatedRing.pos_putAll_eq_iff]
  constructor
  · intro h
    refine ⟨?_, fun k hk hturn => ?_⟩
    · have hturns := h.turns
      rw [hN] at hturns
      exact Int.natCast_dvd_natCast.1 hturns
    · rw [h.present k hk (by rw [hN]; omega), hcell]
      rfl
  · rintro ⟨hturns, hpresent⟩
    constructor
    · rw [hN]
      exact Int.natCast_dvd_natCast.2 hturns
    · intro k hk hturn
      rw [hN] at hturn
      rw [hpresent k hk (by omega), hcell]
      rfl

/-- The faults that leave a device as it was. -/
theorem allOrNothing_iff (userBuf : List (Option UInt8)) {d : Device} (htwo : 2 ≤ d.buffSize)
    (hnonneg : 0 ≤ d.currPosition) (hlt : d.currPosition < d.buffSize - 1)
    (hlength : (d.buffer.length : ℤ) = d.buffSize) :
    AllOrNothing userBuf d ↔
      ∀ (bytes : List UInt8) rest, userBuf = bytes.map some ++ none :: rest →
        Refills bytes d := by
  obtain ⟨z, r, rfl⟩ := exists_ofRing htwo hnonneg hlt hlength
  constructor
  · rintro h bytes rest rfl
    rw [refills_ofRing_iff, ← ringWrite_fault bytes rest]
    apply h
    rw [circularWrite_eq, any_isNone_fault, if_pos rfl]
  · intro h d' hwrite
    rw [circularWrite_eq, Except.ok.injEq, Prod.mk.injEq] at hwrite
    obtain ⟨rfl, hret⟩ := hwrite
    by_cases hfault : userBuf.any Option.isNone = true
    · obtain ⟨bytes, rest, rfl⟩ := exists_fault hfault
      rw [ringWrite_fault]
      exact (refills_ofRing_iff bytes r).1 (h bytes rest rfl)
    · rw [if_neg hfault] at hret
      unfold efault at hret
      omega

/-- A ring of two cells is filled with what it holds, and the byte after it cannot be read. -/
theorem allOrNothing_iff_refilled :
    AllOrNothing [some 65, some 66, none] ⟨3, 0, [0, 66, 0]⟩ ↔
      ∀ bytes rest, [some 65, some 66, none] = bytes.map some ++ none :: rest →
        Refills bytes ⟨3, 0, [0, 66, 0]⟩ :=
  allOrNothing_iff _ (by decide) (by decide) (by decide) (by decide)

/-- The byte before the one that cannot be read stays in the ring. -/
theorem fault_writes : ¬ AllOrNothing [some 65, none] ⟨10, 0, List.replicate 10 0⟩ := by
  intro h
  have hdevice := h ⟨10, 1, 65 :: List.replicate 9 0⟩ rfl
  revert hdevice
  decide

end Circular
