import SystemsProgramming.Classes3.Circular.Resizing

/-!
# Uninitialised memory in the circular device

`circular_proc_write` copies the old cells into a block from `kmalloc` and stores a NUL into its
last cell; the cells between are not initialised.  A run is followed by a ring whose cells are
known or not, and what the reads deliver is independent of the contents of the new blocks exactly
when no read can reach a cell that is not known.
-/

namespace Circular

open Memory

/-! ### Runs that differ in the new blocks -/

/-- The calls differ at most in what their blocks hold. -/
inductive SameCall : Call → Call → Prop
  | write (userBuf : List (Option UInt8)) : SameCall (.write userBuf) (.write userBuf)
  | read (count : ℕ) (fPos : ℤ) (writable : ℕ) :
      SameCall (.read count fPos writable) (.read count fPos writable)
  | procWrite {tempBlock tempBlock' newBlock newBlock' : Option (ℕ → UInt8)}
      (userBuf : List (Option UInt8)) :
      tempBlock.isSome = tempBlock'.isSome → newBlock.isSome = newBlock'.isSome →
        SameCall (.procWrite tempBlock newBlock userBuf) (.procWrite tempBlock' newBlock' userBuf)

theorem SameCall.refl (c : Call) : SameCall c c := by
  cases c with
  | write userBuf => exact .write userBuf
  | read count fPos writable => exact .read count fPos writable
  | procWrite tempBlock newBlock userBuf => exact .procWrite userBuf rfl rfl

theorem SameCall.symm {c c' : Call} (h : SameCall c c') : SameCall c' c := by
  cases h with
  | write userBuf => exact .write userBuf
  | read count fPos writable => exact .read count fPos writable
  | procWrite userBuf htemp hnew => exact .procWrite userBuf htemp.symm hnew.symm

/-- The call is a read. -/
def Call.isRead : Call → Bool
  | .read .. => true
  | _ => false

section Observe

variable (kstrtol : List UInt8 → Option ℤ)

/-- What the reads give to the user. -/
def observe : List Call → Device → Except Fault (List Answer)
  | [], _ => .ok []
  | c :: cs, d => do
    let (d, a) ← exec kstrtol c d
    let as ← observe cs d
    return if c.isRead then a :: as else as

/-- What the user gets does not depend on what the blocks hold. -/
def LeakFree (d : Device) (cs : List Call) : Prop :=
  ∀ cs', List.Forall₂ SameCall cs cs' → observe kstrtol cs' d = observe kstrtol cs d

/-! ### Known cells -/

/-- A call on a ring of known cells: the cells of a new block are not known. -/
def knownStep (k : TerminatedRing (some (0 : UInt8))) (c : Call) :
    TerminatedRing (some (0 : UInt8)) :=
  ringStep some kstrtol (fun _ _ => none) k c

/-- The cell can hold a NUL. -/
def mayEnd (o : Option UInt8) : Bool := o = none ∨ o = some 0

/-- The cell holds a NUL. -/
def mustEnd (o : Option UInt8) : Bool := o = some 0

/-- The read can not reach a cell that is not known: there is none before the end of the string,
the position is behind every end that the string can have, or the copy to the user fails before
that cell. -/
def Settled (k : TerminatedRing (some (0 : UInt8))) (fPos : ℤ) (writable : ℕ) : Prop :=
  k.cells.findIdx mayEnd = k.cells.findIdx mustEnd ∨
    k.cells.findIdx mustEnd ≤ unsignedPos fPos ∨
      writable < k.cells.findIdx mayEnd ∧ unsignedPos fPos < k.cells.findIdx mayEnd

instance (k : TerminatedRing (some (0 : UInt8))) (fPos : ℤ) (writable : ℕ) :
    Decidable (Settled k fPos writable) := inferInstanceAs (Decidable (_ ∨ _ ∨ _))

/-- Every read of the calls finds such a ring. -/
def ReadsSettled (k : TerminatedRing (some (0 : UInt8))) (cs : List Call) : Prop :=
  ∀ cs₁ count fPos writable cs₂, cs = cs₁ ++ .read count fPos writable :: cs₂ →
    Settled (cs₁.foldl (knownStep kstrtol) k) fPos writable

variable {kstrtol}

theorem readsSettled_nil (k : TerminatedRing (some (0 : UInt8))) : ReadsSettled kstrtol k [] := by
  intro cs₁ count fPos writable cs₂ h
  simp at h

theorem readsSettled_cons_iff {k : TerminatedRing (some (0 : UInt8))} {c : Call} {cs : List Call} :
    ReadsSettled kstrtol k (c :: cs) ↔
      (∀ count fPos writable, c = .read count fPos writable → Settled k fPos writable) ∧
        ReadsSettled kstrtol (knownStep kstrtol k c) cs := by
  constructor
  · intro h
    refine ⟨fun count fPos writable hc => ?_, fun cs₁ count fPos writable cs₂ hcs => ?_⟩
    · exact h [] count fPos writable cs (congrArg (· :: cs) hc)
    · exact h (c :: cs₁) count fPos writable cs₂ (congrArg (c :: ·) hcs)
  · rintro ⟨hc, hcs⟩ cs₁ count fPos writable cs₂ h
    cases cs₁ with
    | nil => exact hc count fPos writable (List.cons.inj h).1
    | cons c₁ cs₁ =>
        obtain ⟨rfl, htail⟩ := List.cons.inj h
        exact hcs cs₁ count fPos writable cs₂ htail

theorem readsSettled_cons {k : TerminatedRing (some (0 : UInt8))} {c : Call} {cs : List Call}
    (hc : c.isRead = false) :
    ReadsSettled kstrtol k (c :: cs) ↔ ReadsSettled kstrtol (knownStep kstrtol k c) cs := by
  rw [readsSettled_cons_iff, and_iff_right]
  rintro count fPos writable rfl
  cases hc

theorem readsSettled_read {k : TerminatedRing (some (0 : UInt8))} {count : ℕ} {fPos : ℤ}
    {writable : ℕ} {cs : List Call} :
    ReadsSettled kstrtol k (.read count fPos writable :: cs) ↔
      Settled k fPos writable ∧ ReadsSettled kstrtol k cs := by
  rw [readsSettled_cons_iff]
  refine and_congr_left fun _ => ⟨fun h => h count fPos writable rfl, ?_⟩
  rintro h _ _ _ hc
  cases hc
  exact h

/-! ### Calls on two rings -/

theorem SameCall.newSize_eq {c c' : Call} (h : SameCall c c') :
    c.newSize kstrtol = c'.newSize kstrtol := by
  cases h with
  | write => rfl
  | read => rfl
  | @procWrite tempBlock tempBlock' newBlock newBlock' userBuf htemp hnew =>
      ext v
      have ht := kmalloc_isSome (userBuf.length + 1) htemp
      have hn := kmalloc_isSome v hnew
      rw [newSize_eq_some_iff, newSize_eq_some_iff, readValue_eq_ok_iff, readValue_eq_ok_iff]
      simp only [exists_and_right, ← Option.isSome_iff_exists, ht, hn]

section Two

variable {α β : Type*} {z : α} {w : β} {R : α → β → Prop} {cell : UInt8 → α} {cell' : UInt8 → β}

theorem related_ringWrite (hcell : ∀ b, R (cell b) (cell' b)) (userBuf : List (Option UInt8))
    {r : TerminatedRing z} {r' : TerminatedRing w} (h : r.Related R r') :
    (ringWrite cell userBuf r).Related R (ringWrite cell' userBuf r') := by
  induction userBuf generalizing r r' with
  | nil => exact h
  | cons o userBuf ih =>
      cases o with
      | none => exact h.mark (hcell 0)
      | some b => exact ih (h.put (hcell b))

/-- Calls that differ in their blocks keep the cells of two rings related. -/
theorem related_ringStep (hcell : ∀ b, R (cell b) (cell' b)) (hz : R z w)
    {contents : Call → ℕ → α} {contents' : Call → ℕ → β} {c c' : Call} (hc : SameCall c c')
    (hcontents : ∀ v, c.newSize kstrtol = some v → ∀ i, R (contents c i) (contents' c' i))
    {r : TerminatedRing z} {r' : TerminatedRing w} (h : r.Related R r') :
    (ringStep cell kstrtol contents r c).Related R
      (ringStep cell' kstrtol contents' r' c') := by
  have hsize : c.newSize kstrtol = c'.newSize kstrtol := hc.newSize_eq
  cases hc with
  | write userBuf => exact related_ringWrite hcell userBuf h
  | read => exact h
  | procWrite userBuf _ _ =>
      unfold ringStep
      dsimp only
      rw [← hsize]
      split
      · exact h
      · next v hv =>
          have hblock := List.forall₂_map_left_iff.2 (List.forall₂_map_right_iff.2
            (List.forall₂_same.2 fun i (_ : i ∈ List.range v.toNat) => hcontents v hv i))
          by_cases htwo : 2 ≤ v.toNat
          · rw [dif_pos (by simpa using htwo), dif_pos (by simpa using htwo)]
            exact h.resize hblock hz _ _
          · rw [dif_neg (by simpa using htwo), dif_neg (by simpa using htwo)]
            exact h

end Two

/-! ### Reads on two rings -/

/-- The cell has the value that is known. -/
def Agrees (b : UInt8) (o : Option UInt8) : Prop := ∀ x, o = some x → b = x

/-- The cell has the value that is known, and `x` where none is. -/
def FilledWith (x : UInt8) (b : UInt8) (o : Option UInt8) : Prop := b = o.getD x

theorem FilledWith.agrees {x b : UInt8} {o : Option UInt8} (h : FilledWith x b o) :
    Agrees b o := by
  rintro y rfl
  exact h

/-- The end of the string. -/
def endOf (r : TerminatedRing (0 : UInt8)) : ℕ := r.cells.findIdx (· = 0)

section Ends

variable {r r' : TerminatedRing (0 : UInt8)} {k : TerminatedRing (some (0 : UInt8))}

theorem le_endOf (h : r.Related Agrees k) : k.cells.findIdx mayEnd ≤ endOf r :=
  findIdx_le_of_forall₂ h.2 fun b o hbo hb => by
    obtain rfl : b = 0 := by simpa using hb
    cases o with
    | none => rfl
    | some x => simp [mayEnd, hbo x rfl]

theorem endOf_le (h : r.Related Agrees k) : endOf r ≤ k.cells.findIdx mustEnd :=
  findIdx_le_of_forall₂ h.2.flip fun o b hbo ho => by
    obtain rfl : o = some 0 := by simpa [mustEnd] using ho
    simpa using hbo 0 rfl

/-- Zeros end the string before the first cell that is not known. -/
theorem endOf_of_zeros (h : r.Related (FilledWith 0) k) : endOf r = k.cells.findIdx mayEnd := by
  refine le_antisymm ?_ (le_endOf ⟨h.1, h.2.imp fun _ _ => FilledWith.agrees⟩)
  refine findIdx_le_of_forall₂ h.2.flip fun o b hbo ho => ?_
  have hb : b = o.getD 0 := hbo
  cases o with
  | none => simpa using hb
  | some x =>
      obtain rfl : x = 0 := by simpa [mayEnd] using ho
      simpa using hb

/-- Ones let it run to the first NUL that was stored. -/
theorem endOf_of_ones (h : r.Related (FilledWith 1) k) : endOf r = k.cells.findIdx mustEnd := by
  refine le_antisymm (endOf_le ⟨h.1, h.2.imp fun _ _ => FilledWith.agrees⟩) ?_
  refine findIdx_le_of_forall₂ h.2 fun b o hbo hb => ?_
  obtain rfl : b = 0 := by simpa using hb
  cases o with
  | none =>
      have hone : (0 : UInt8) = 1 := hbo
      exact absurd hone (by decide)
  | some x =>
      have hx : 0 = x := hbo
      rw [← hx]
      rfl

/-- Up to the first cell that is not known, the cells are known. -/
theorem take_eq (h : r.Related Agrees k) {n : ℕ} (hn : n ≤ k.cells.findIdx mayEnd) :
    r.cells.take n = (k.cells.take n).map (·.getD 0) := by
  refine take_eq_of_forall₂ h.2 (fun b o hbo ho => ?_) hn
  cases o with
  | none => exact absurd rfl ho
  | some x => exact hbo x rfl

/-- A read that can not reach a cell that is not known gives the same on every ring. -/
theorem ringRead_eq_of_settled (h : r.Related Agrees k) (h' : r'.Related Agrees k) {fPos : ℤ}
    {writable : ℕ} (hs : Settled k fPos writable) :
    ringRead fPos writable r = ringRead fPos writable r' := by
  have hle := le_endOf h
  have hle' := le_endOf h'
  have hge := endOf_le h
  have hge' := endOf_le h'
  have htake : ∀ n ≤ k.cells.findIdx mayEnd, r.cells.take n = r'.cells.take n := fun n hn =>
    (take_eq h hn).trans (take_eq h' hn).symm
  have hread : ∀ r : TerminatedRing (0 : UInt8), ringRead fPos writable r =
      { ret := (readString fPos writable r.cells (endOf r)).ret
        delivered := (readString fPos writable r.cells (endOf r)).delivered } := fun _ => rfl
  rw [hread, hread]
  unfold readString
  rcases hs with hs | hs | ⟨hw, hf⟩
  · have hend : endOf r' = endOf r := by omega
    rw [hend]
    split_ifs with h₁ h₂
    · rfl
    · rw [htake writable (by omega)]
    · rw [htake (endOf r) (by omega)]
  · rw [if_pos (by omega), if_pos (by omega)]
  · rw [if_neg (by omega), if_pos (by omega), if_neg (by omega), if_pos (by omega),
      htake writable (by omega)]

/-- The converse: rings of zeros and of ones tell a read that can reach a cell that is not
known. -/
theorem settled_of_ringRead_eq (h : r.Related (FilledWith 0) k) (h' : r'.Related (FilledWith 1) k)
    {fPos : ℤ} {writable : ℕ} (heq : ringRead fPos writable r = ringRead fPos writable r') :
    Settled k fPos writable := by
  have hzero := endOf_of_zeros h
  have hone := endOf_of_ones h'
  have hle : endOf r ≤ endOf r' := by
    rw [hzero]
    exact le_endOf ⟨h'.1, h'.2.imp fun _ _ => FilledWith.agrees⟩
  have hret : (readString fPos writable r.cells (endOf r)).ret =
      (readString fPos writable r'.cells (endOf r')).ret := congrArg Answer.ret heq
  unfold Settled
  rw [← hzero, ← hone]
  unfold readString efault at hret
  split_ifs at hret <;> simp only at hret <;> omega

end Ends

/-! ### Runs on two rings -/

/-- What the reads find on the ring. -/
def ringObserve (kstrtol : List UInt8 → Option ℤ) :
    List Call → TerminatedRing (0 : UInt8) → List Answer
  | [], _ => []
  | c :: cs, r =>
    let as := ringObserve kstrtol cs (ringStep id kstrtol Call.contents r c)
    match c with
    | .read _ fPos writable => ringRead fPos writable r :: as
    | _ => as

theorem observe_toDevice {cs : List Call} (h : ∀ c ∈ cs, c.SizeOk kstrtol)
    (r : TerminatedRing (0 : UInt8)) :
    observe kstrtol cs (toDevice r) = .ok (ringObserve kstrtol cs r) := by
  induction cs generalizing r with
  | nil => rfl
  | cons c cs ih =>
      obtain ⟨hc, hcs⟩ := List.forall_mem_cons.1 h
      unfold observe
      cases c with
      | read count fPos writable =>
          simp only [exec_read, bind, Except.bind, ih hcs]
          rfl
      | write userBuf =>
          obtain ⟨a, ha⟩ := exec_toDevice hc r
          simp only [ha, bind, Except.bind, ih hcs]
          rfl
      | procWrite tempBlock newBlock userBuf =>
          obtain ⟨a, ha⟩ := exec_toDevice hc r
          simp only [ha, bind, Except.bind, ih hcs]
          rfl

/-- A call keeps what is known of a ring. -/
theorem agrees_step {c c' : Call} (hc : SameCall c c') {r : TerminatedRing (0 : UInt8)}
    {k : TerminatedRing (some (0 : UInt8))} (h : r.Related Agrees k) :
    (ringStep id kstrtol Call.contents r c).Related Agrees (knownStep kstrtol k c') :=
  related_ringStep (fun _ _ hx => Option.some.inj hx) (fun _ hx => Option.some.inj hx) hc
    (fun _ _ _ x hx => absurd hx (Option.some_ne_none x).symm) h

/-- Where every read is settled, two rings with the known cells give the same. -/
theorem ringObserve_eq {cs cs' : List Call} (h : List.Forall₂ SameCall cs cs')
    {k : TerminatedRing (some (0 : UInt8))} (hs : ReadsSettled kstrtol k cs)
    {r r' : TerminatedRing (0 : UInt8)} (hr : r.Related Agrees k) (hr' : r'.Related Agrees k) :
    ringObserve kstrtol cs r = ringObserve kstrtol cs' r' := by
  induction h generalizing k r r' with
  | nil => rfl
  | @cons c c' cs cs' hc _ ih =>
      have hleft : (ringStep id kstrtol Call.contents r c).Related Agrees
          (knownStep kstrtol k c) := agrees_step (SameCall.refl c) hr
      have hright : (ringStep id kstrtol Call.contents r' c').Related Agrees
          (knownStep kstrtol k c) := agrees_step hc.symm hr'
      unfold ringObserve
      cases hc with
      | write => exact ih ((readsSettled_cons rfl).1 hs) hleft hright
      | procWrite => exact ih ((readsSettled_cons rfl).1 hs) hleft hright
      | read count fPos writable =>
          obtain ⟨hread, hrest⟩ := readsSettled_read.1 hs
          exact congrArg₂ List.cons (ringRead_eq_of_settled hr hr' hread) (ih hrest hleft hright)

/-- The call with a new block that is filled with `x`. -/
def Call.refill (x : UInt8) : Call → Call
  | .procWrite tempBlock newBlock userBuf =>
    .procWrite tempBlock (newBlock.map fun _ _ => x) userBuf
  | c => c

theorem sameCall_refill (x : UInt8) (c : Call) : SameCall c (c.refill x) := by
  cases c with
  | write userBuf => exact .write userBuf
  | read count fPos writable => exact .read count fPos writable
  | procWrite tempBlock newBlock userBuf => exact .procWrite userBuf rfl Option.isSome_map.symm

theorem contents_refill {x : UInt8} {c : Call} {v : ℤ}
    (h : (c.refill x).newSize kstrtol = some v) (i : ℕ) : (c.refill x).contents i = x := by
  cases c with
  | write userBuf => cases h
  | read count fPos writable => cases h
  | procWrite tempBlock newBlock userBuf =>
      obtain ⟨-, block, hblock⟩ := newSize_eq_some_iff.1 h
      obtain ⟨-, -, f, hf, -⟩ := kmalloc_eq_some hblock
      obtain ⟨g, rfl, -⟩ := Option.map_eq_some_iff.1 hf
      rfl

/-- With such blocks, the cells that are not known hold `x`. -/
theorem filledWith_step {x : UInt8} (c : Call) {r : TerminatedRing (0 : UInt8)}
    {k : TerminatedRing (some (0 : UInt8))} (h : r.Related (FilledWith x) k) :
    (ringStep id kstrtol Call.contents r (c.refill x)).Related (FilledWith x)
      (knownStep kstrtol k c) := by
  have hcell : ∀ b, FilledWith x (id b) (some b) := fun _ => rfl
  have hcontents : ∀ v, (c.refill x).newSize kstrtol = some v →
      ∀ i, FilledWith x ((c.refill x).contents i) none := fun _ hsize i => contents_refill hsize i
  exact related_ringStep hcell (hcell 0) (sameCall_refill x c).symm hcontents h

/-- If blocks of zeros and blocks of ones give the user the same, every read is settled. -/
theorem readsSettled_of_ringObserve_eq {cs : List Call} {k : TerminatedRing (some (0 : UInt8))}
    {r r' : TerminatedRing (0 : UInt8)} (hr : r.Related (FilledWith 0) k)
    (hr' : r'.Related (FilledWith 1) k)
    (h : ringObserve kstrtol (cs.map (Call.refill 0)) r =
      ringObserve kstrtol (cs.map (Call.refill 1)) r') :
    ReadsSettled kstrtol k cs := by
  induction cs generalizing k r r' with
  | nil => exact readsSettled_nil k
  | cons c cs ih =>
      have hstep : (ringStep id kstrtol Call.contents r (c.refill 0)).Related (FilledWith 0)
          (knownStep kstrtol k c) := filledWith_step c hr
      have hstep' : (ringStep id kstrtol Call.contents r' (c.refill 1)).Related (FilledWith 1)
          (knownStep kstrtol k c) := filledWith_step c hr'
      cases c with
      | write userBuf => exact (readsSettled_cons rfl).2 (ih hstep hstep' h)
      | procWrite tempBlock newBlock userBuf =>
          exact (readsSettled_cons rfl).2 (ih hstep hstep' h)
      | read count fPos writable =>
          obtain ⟨hhead, htail⟩ := List.cons.inj h
          exact readsSettled_read.2 ⟨settled_of_ringRead_eq hr hr' hhead, ih hstep hstep' htail⟩

/-! ### The device -/

theorem sizeOk_of_sameCall {c c' : Call} (h : SameCall c c') (hc : c.SizeOk kstrtol) :
    c'.SizeOk kstrtol := by
  unfold Call.SizeOk at hc ⊢
  rwa [← h.newSize_eq]

theorem forall_sizeOk_of_sameCall {cs cs' : List Call} (h : List.Forall₂ SameCall cs cs')
    (hcs : ∀ c ∈ cs, c.SizeOk kstrtol) : ∀ c ∈ cs', c.SizeOk kstrtol := by
  induction h with
  | nil => exact hcs
  | cons hc _ ih =>
      obtain ⟨hhead, htail⟩ := List.forall_mem_cons.1 hcs
      exact List.forall_mem_cons.2 ⟨sizeOk_of_sameCall hc hhead, ih htail⟩

theorem forall₂_refill (x : UInt8) (cs : List Call) :
    List.Forall₂ SameCall cs (cs.map (Call.refill x)) :=
  List.forall₂_map_right_iff.2 (List.forall₂_same.2 fun c _ => sameCall_refill x c)

/-- All cells of the first block are known. -/
theorem initialRing_related {R : UInt8 → Option UInt8 → Prop} (h : R 0 (some 0)) :
    (initialRing (0 : UInt8)).Related R (initialRing (some 0)) :=
  ⟨rfl, List.forall₂_iff_get.2 ⟨by simp [initialRing], fun i _ _ => by simpa [initialRing]⟩⟩

/-- What the user gets is independent of what the new blocks hold exactly when no read can reach a
cell that was not written since its block was allocated. -/
theorem leakFree_iff_settled {procEntry : Bool} {registered ret : ℤ}
    {contents : Option (ℕ → UInt8)} {d : Device}
    (h : circularInit procEntry registered contents = .ok (ret, some d)) {cs : List Call}
    (hcs : ∀ c ∈ cs, c.SizeOk kstrtol) :
    LeakFree kstrtol d cs ↔ ReadsSettled kstrtol (initialRing (some 0)) cs := by
  rw [circularInit_eq h]
  constructor
  · intro hfree
    have hobserve : ∀ x, observe kstrtol (cs.map (Call.refill x)) (toDevice (initialRing 0)) =
        .ok (ringObserve kstrtol (cs.map (Call.refill x)) (initialRing 0)) := fun x =>
      observe_toDevice (forall_sizeOk_of_sameCall (forall₂_refill x cs) hcs) _
    have hsame := (hfree _ (forall₂_refill 0 cs)).trans (hfree _ (forall₂_refill 1 cs)).symm
    rw [hobserve, hobserve] at hsame
    exact readsSettled_of_ringObserve_eq (initialRing_related rfl) (initialRing_related rfl)
      (Except.ok.inj hsame)
  · intro hs cs' hsame
    rw [observe_toDevice hcs, observe_toDevice (forall_sizeOk_of_sameCall hsame hcs)]
    have hagrees : (initialRing (0 : UInt8)).Related Agrees (initialRing (some 0)) :=
      initialRing_related fun x hx => Option.some.inj hx
    exact congrArg Except.ok (ringObserve_eq hsame hs hagrees hagrees).symm

/-- After the device is moved to a block of five cells, a write and a read. -/
theorem leakFree_iff_settled_shrunk :
    ∃ d, circularInit true 0 (some fun _ => 7) = .ok (0, some d) ∧
      LeakFree decimalLong d [.procWrite (some fun _ => 7) (some fun _ => 7) [some 53],
        .write [some 65, some 66], .read 100 0 100] := by
  have hinit : circularInit true 0 (some fun _ => 7) =
      .ok (0, some (toDevice (initialRing 0))) := by decide
  refine ⟨_, hinit, (leakFree_iff_settled hinit (by decide)).2 ?_⟩
  refine (readsSettled_cons rfl).2 ((readsSettled_cons rfl).2 (readsSettled_read.2 ⟨?_, ?_⟩))
  · decide
  · exact readsSettled_nil _

/-- The device is moved to a block of twenty cells that hold `x`; ten bytes overwrite the NULs that
were copied, and a read follows. -/
def growAndRead (x : UInt8) : List Call :=
  [.procWrite (some fun _ => 7) (some fun _ => x) [some 50, some 48],
    .write (List.replicate 10 (some 65)), .read 100 0 100]

/-- The bytes of the new block get to the user. -/
theorem grown_block_leaks : ∃ d, circularInit true 0 (some fun _ => 7) = .ok (0, some d) ∧
    (∀ c ∈ growAndRead 1, c.SizeOk decimalLong) ∧ ¬ LeakFree decimalLong d (growAndRead 1) := by
  refine ⟨toDevice (initialRing 0), by decide, by decide, fun h => ?_⟩
  have hsame : List.Forall₂ SameCall (growAndRead 1) (growAndRead 2) :=
    .cons (.procWrite _ rfl rfl) (.cons (.write _) (.cons (.read _ _ _) .nil))
  exact absurd (h _ hsame) (by decide)

end Observe

end Circular
