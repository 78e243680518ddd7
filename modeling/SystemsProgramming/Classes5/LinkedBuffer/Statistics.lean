import SystemsProgramming.Classes5.LinkedBuffer.Appends
import SystemsProgramming.Classes5.LinkedBuffer.Reading
import SystemsProgramming.Library.Tally

/-!
# The statistics of the linked buffer module

`write_count` and `read_count` are right whenever no call is in progress.  `total_length` is behind
the list by the calls that have inserted an entry and not yet added its length; `clean_list` resets
both without a lock, and the calls it overtakes add their lengths to the new total.  So the total is
right exactly when the last `clean_list` overtook no call (`statistics_iff`).
-/

namespace LinkedBuffer

open Transition

/-- The length that the call has inserted and will add to `total_length`. -/
def Ctrl.pending : Ctrl → ℕ
  | .adding _ _ data => data.length
  | _ => 0

/-- The call has incremented `write_count`. -/
def Ctrl.wrote : Ctrl → ℕ
  | .returning (.wrote _) | .done (.wrote _) => 1
  | _ => 0

/-- The call has incremented `read_count`. -/
def Ctrl.read : Ctrl → ℕ
  | .returning (.read _) | .done (.read _) => 1
  | _ => 0

/-- The call is about to call `clean_list`. -/
def Ctrl.isClearing : Ctrl → Bool
  | .clearing _ => true
  | _ => false

/-- No allocation failure, no copy fault and no signal. -/
def Input.Faultless (input : Input) : Prop := input.outcome = .ok ∧ ∀ v, input.faults v = false

variable {variant : Variant} {input : Input} {m m' : Module} {req : Request} {k k' : Ctrl}

/-! ### One step -/

/-- What a step does to the list and the total. -/
theorem Moves.total (h : Moves variant input m req k m' k') :
    (k.isClearing = false ∧ m'.totalLength + k'.pending + lengthOf m.buffer =
        m.totalLength + k.pending + lengthOf m'.buffer) ∨
      k.isClearing = true ∧ k.pending = 0 ∧ k'.pending = 0 ∧ m'.totalLength = 0 ∧ m'.buffer = [] := by
  cases h with
  | insert hs =>
      refine Or.inl ⟨rfl, ?_⟩
      simp only [Ctrl.pending, lengthOf_append, lengthOf_cons, lengthOf_nil]
      omega
  | add =>
      refine Or.inl ⟨rfl, ?_⟩
      simp only [Ctrl.pending]
      omega
  | clean => exact Or.inr ⟨rfl, rfl, rfl, rfl, rfl⟩
  | _ => exact Or.inl ⟨rfl, rfl⟩

/-- What a step does to the counters. -/
theorem Moves.counts (h : Moves variant input m req k m' k') :
    m'.writeCount + k.wrote = m.writeCount + k'.wrote ∧
      m'.readCount + k.read = m.readCount + k'.read := by
  cases h with
  | @ret _ r => cases r <;> exact ⟨rfl, rfl⟩
  | _ => exact ⟨rfl, rfl⟩

/-- Without faults a `linked_write` call ends by its data: it clears at the first clear command or
writes everything. -/
def Classified : Request → Ctrl → Prop
  | .write u _, .loop i _ => ∃ j, i = internalSize * j ∧ ∀ l < j, chunk u l ≠ clearCommand
  | .write u _, .locking i _ _ | .write u _, .adding i _ _ =>
    ∃ j, i = internalSize * j ∧ ∀ l ≤ j, chunk u l ≠ clearCommand
  | .write u _, .clearing _ => HasClear u
  | .write u _, .countingWrite _ => ¬ HasClear u
  | .write u _, .returning (.wrote _) | .write u _, .done (.wrote _) => ¬ HasClear u
  | .write u _, .returning (.cleared _) | .write u _, .done (.cleared _) => HasClear u
  | .write _ _, .ready => True
  | .write _ _, _ => False
  | .read _ _, .ready | .read _ _, .checking | .read _ _, .reading | .read _ _, .countingRead _ => True
  | .read _ _, .returning .early | .read _ _, .done .early => True
  | .read _ _, .returning (.read _) | .read _ _, .done (.read _) => True
  | .read _ _, _ => False

theorem Moves.classified (h : Moves variant input m req k m' k') (hf : input.Faultless)
    (hc : Classified req k) : Classified req k' := by
  have hsignal : ¬ input.Signals variant := Input.not_signals hf.1
  cases h with
  | beginWrite => exact ⟨0, rfl, fun l hl => absurd hl (Nat.not_lt_zero l)⟩
  | allocFails _ ho | copyFails _ ho =>
      rw [hf.1] at ho
      cases ho
  | @findClear u f₀ i f hi hcmp =>
      obtain ⟨j, rfl, -⟩ := hc
      exact ⟨j, (strncmp_newData hi).1 hcmp⟩
  | @prepare u f₀ i f hi hcmp =>
      obtain ⟨j, rfl, hj⟩ := hc
      refine ⟨j, rfl, fun l hl => ?_⟩
      rcases Nat.lt_or_eq_of_le hl with hl | rfl
      · exact hj l hl
      · exact fun hchunk => hcmp ((strncmp_newData hi).2 hchunk)
  | @endLoop u f₀ i f hi =>
      obtain ⟨j, rfl, hj⟩ := hc
      rintro ⟨l, hl⟩
      by_cases hlj : l < j
      · exact hj l hlj hl
      · have hjc : ¬ j < chunkCount u := fun h => absurd (lt_chunkCount_iff.2 h) (by omega)
        rw [chunk_eq_nil (by omega)] at hl
        cases hl
  | signalWrite hs => exact absurd hs hsignal
  | insert => exact hc
  | @add u f₀ i f d =>
      obtain ⟨j, rfl, hj⟩ := hc
      exact ⟨j + 1, rfl, fun l hl => hj l (Nat.le_of_lt_succ hl)⟩
  | clean => exact hc
  | countWrite => exact hc
  | beginRead | early | enter | read | countRead => trivial
  | signalRead hs => exact absurd hs hsignal
  | @readFails n f v e hloop =>
      have hnone : input.faults = fun _ => false := funext hf.2
      rw [hnone, readLoop_eq] at hloop
      cases hloop
  | @ret req r =>
      cases req <;> cases r <;> exact hc

/-! ### Runs -/

section Runs

variable {C : Type} [DecidableEq C]

/-- The step is a `clean_list`. -/
def clears (p : State C × Event C) : Bool := (p.1.ctrl p.2.call).isClearing

/-- The last `clean_list` of the run, if any, came while no call was between inserting an entry and
adding its length. -/
def LastClearAlone (tr : List (State C × Event C)) : Prop :=
  ∀ tr₁ p tr₂, tr = tr₁ ++ p :: tr₂ → clears p = true → (∀ q ∈ tr₂, clears q = false) →
    ∀ c i fPos data, p.1.ctrl c ≠ .adding i fPos data

/-- No call is in progress. -/
def Quiescent (s : State C) : Prop := ∀ c, s.ctrl c = .ready ∨ ∃ r, s.ctrl c = .done r

/-- The call is a completed `linked_write` that met no clear command. -/
def Wrote (req : C → Request) (s : State C) (c : C) : Prop :=
  ∃ userBuf fPos r, req c = .write userBuf fPos ∧ s.ctrl c = .done r ∧ ¬ HasClear userBuf

/-- The call is a completed `linked_read` that went past the check of `total_length`. -/
def ReadPast (req : C → Request) (s : State C) (c : C) : Prop :=
  ∃ count fPos r, req c = .read count fPos ∧ s.ctrl c = .done r ∧ r ≠ .early

/-- The statistics agree with the list and the calls. -/
structure StatisticsRight (req : C → Request) (s : State C) : Prop where
  total : s.module.totalLength = lengthOf s.module.buffer
  writes : s.module.writeCount = {c | Wrote req s c}.ncard
  reads : s.module.readCount = {c | ReadPast req s c}.ncard

variable [Fintype C] {req : C → Request} {tr : List (State C × Event C)} {s s' : State C} {e : Event C}

/-- What the calls overtaken by the last `clean_list` add to the total. -/
def debt (tr : List (State C × Event C)) : ℕ :=
  tr.foldl (fun acc p => if clears p then tally Ctrl.pending p.1.ctrl else acc) 0

omit [DecidableEq C] in
theorem debt_snoc : debt (tr ++ [(s, e)]) =
    if clears (s, e) then tally Ctrl.pending s.ctrl else debt tr := by
  simp [debt]

omit [DecidableEq C] in
theorem debt_eq_zero_iff : debt tr = 0 ↔ LastClearAlone tr := by
  induction tr using List.reverseRecOn with
  | nil => exact iff_of_true rfl fun tr₁ p tr₂ h => by simp at h
  | append_singleton tr p ih =>
      obtain ⟨s, e⟩ := p
      rw [debt_snoc]
      by_cases hp : clears (s, e) = true
      · rw [if_pos hp, tally_eq_zero_iff]
        constructor
        · intro hzero tr₁ q tr₂ htr hq hlast c i f d hc
          rcases snoc_eq_append_cons htr with ⟨-, rfl, -⟩ | ⟨tr₃, rfl, -⟩
          · have := hzero c
            rw [hc] at this
            exact absurd this d.length_pos.ne'
          · have := hlast (s, e) (by simp)
            rw [hp] at this
            cases this
        · intro halone c
          have := halone tr (s, e) [] rfl hp nofun c
          cases hc : s.ctrl c with
          | adding i f d => exact absurd hc (this i f d)
          | _ => rfl
      · rw [if_neg hp, ih]
        constructor
        · intro halone tr₁ q tr₂ htr hq hlast
          rcases snoc_eq_append_cons htr with ⟨-, rfl, -⟩ | ⟨tr₃, rfl, hl⟩
          · exact absurd hq hp
          · exact halone tr₁ q tr₃ hl hq fun x hx => hlast x (List.mem_append_left _ hx)
        · intro halone tr₁ q tr₂ htr hq hlast
          refine halone tr₁ q (tr₂ ++ [(s, e)]) (by simp [htr]) hq fun x hx => ?_
          rcases List.mem_append.1 hx with hx | hx
          · exact hlast x hx
          · obtain rfl : x = (s, e) := List.mem_singleton.1 hx
            simpa using hp

/-- What holds at the end of every run without faults. -/
structure Ledger (req : C → Request) (tr : List (State C × Event C)) (s : State C) : Prop where
  total : s.module.totalLength + tally Ctrl.pending s.ctrl = lengthOf s.module.buffer + debt tr
  writes : s.module.writeCount = tally Ctrl.wrote s.ctrl
  reads : s.module.readCount = tally Ctrl.read s.ctrl
  classified : ∀ c, Classified (req c) (s.ctrl c)

omit [DecidableEq C] in
theorem ledger_init : Ledger req [] (init C) := by
  have hzero : ∀ g : Ctrl → ℕ, g .ready = 0 → tally g (init C).ctrl = 0 := fun g hg => tally_const hg
  refine ⟨?_, (hzero _ rfl).symm, (hzero _ rfl).symm, fun c => ?_⟩
  · rw [hzero _ rfl]
    rfl
  · cases hreq : req c <;> simp [init, Classified]

theorem Ledger.step (hL : Ledger req tr s) (hf : e.input.Faultless)
    (h : Step variant req s e s') : Ledger req (tr ++ [(s, e)]) s' := by
  obtain ⟨m, k, hm, rfl⟩ := h.moves
  have hcounts := hm.counts
  refine ⟨?_, ?_, ?_, ?_⟩
  · have hsum := tally_update (g := Ctrl.pending) (f := s.ctrl) e.call k
    have htotal := hL.total
    rw [debt_snoc]
    rcases hm.total with ⟨hno, heq⟩ | ⟨hyes, hk, hk', hzero, hnil⟩
    · have hclear : clears (s, e) = false := hno
      simp only [hclear, Bool.false_eq_true, if_false]
      omega
    · have hclear : clears (s, e) = true := hyes
      simp only [hclear, if_true, hzero, hnil, lengthOf_nil]
      omega
  · have hsum := tally_update (g := Ctrl.wrote) (f := s.ctrl) e.call k
    have := hL.writes
    dsimp only
    omega
  · have hsum := tally_update (g := Ctrl.read) (f := s.ctrl) e.call k
    have := hL.reads
    dsimp only
    omega
  · exact (Function.forall_update_iff s.ctrl fun c k => Classified (req c) k).2
      ⟨hm.classified hf (hL.classified e.call), fun c _ => hL.classified c⟩

theorem ledger_of_run (h : Run (Step variant req) (init C) tr s)
    (hf : ∀ p ∈ tr, p.2.input.Faultless) : Ledger req tr s := by
  induction h with
  | nil => exact ledger_init
  | snoc _ hs ih =>
      exact (ih fun p hp => hf p (List.mem_append_left _ hp)).step
        (hf _ (List.mem_append_right _ (List.mem_singleton_self _))) hs

omit [DecidableEq C] in
theorem Ledger.writes_eq (hL : Ledger req tr s) (hq : Quiescent s) :
    s.module.writeCount = {c | Wrote req s c}.ncard := by
  rw [hL.writes]
  refine tally_eq_ncard (fun c hc => ?_) fun c hc => ?_
  · obtain ⟨u, f, r, hreq, hdone, hno⟩ := hc
    have hclass := hL.classified c
    rw [hreq, hdone] at hclass
    rw [hdone]
    cases r with
    | wrote => rfl
    | cleared => exact absurd hclass hno
    | early | read | failed => exact hclass.elim
  · have hclass := hL.classified c
    rcases hq c with hready | ⟨r, hdone⟩
    · rw [hready]
      rfl
    · rw [hdone] at hclass ⊢
      cases r with
      | wrote f =>
          cases hreq : req c with
          | write u f₀ =>
              rw [hreq] at hclass
              exact absurd ⟨u, f₀, _, hreq, hdone, hclass⟩ hc
          | read n f₀ =>
              rw [hreq] at hclass
              exact hclass.elim
      | early | read | cleared | failed => rfl

omit [DecidableEq C] in
theorem Ledger.reads_eq (hL : Ledger req tr s) (hq : Quiescent s) :
    s.module.readCount = {c | ReadPast req s c}.ncard := by
  rw [hL.reads]
  refine tally_eq_ncard (fun c hc => ?_) fun c hc => ?_
  · obtain ⟨n, f, r, hreq, hdone, hne⟩ := hc
    have hclass := hL.classified c
    rw [hreq, hdone] at hclass
    rw [hdone]
    cases r with
    | read => rfl
    | early => exact absurd rfl hne
    | wrote | cleared | failed => exact hclass.elim
  · have hclass := hL.classified c
    rcases hq c with hready | ⟨r, hdone⟩
    · rw [hready]
      rfl
    · rw [hdone] at hclass ⊢
      cases r with
      | read v =>
          cases hreq : req c with
          | read n f₀ => exact absurd ⟨n, f₀, _, hreq, hdone, nofun⟩ hc
          | write u f₀ =>
              rw [hreq] at hclass
              exact hclass.elim
      | early | wrote | cleared | failed => rfl

/-- When no call is in progress the statistics are right exactly if the last `clean_list` overtook
no call. -/
theorem statistics_iff (h : Run (Step variant req) (init C) tr s)
    (hf : ∀ p ∈ tr, p.2.input.Faultless) (hq : Quiescent s) :
    StatisticsRight req s ↔ LastClearAlone tr := by
  have hL := ledger_of_run h hf
  have hpending : tally Ctrl.pending s.ctrl = 0 := by
    refine tally_eq_zero_iff.2 fun c => ?_
    rcases hq c with hc | ⟨r, hc⟩ <;> rw [hc] <;> rfl
  have htotal := hL.total
  rw [← debt_eq_zero_iff]
  constructor
  · intro hS
    have := hS.total
    omega
  · intro hdebt
    exact ⟨by omega, hL.writes_eq hq, hL.reads_eq hq⟩

end Runs

/-! ### Two calls, in two orders -/

/-- A call of `linked_write` with one byte, and one with the clear command. -/
def oneByteAndClear : Bool → Request :=
  fun c => if c then .write [7] 0 else .write clearCommand 0

theorem faultless_of_mem_record {events : List (Event Bool)} (h : ∀ e ∈ events, e.input = {})
    {s : State Bool} : ∀ p ∈ record (exec .spinlock oneByteAndClear) events s,
      p.2.input.Faultless := by
  intro p hp
  rw [h _ (label_mem_of_mem_record hp)]
  exact ⟨rfl, fun _ => rfl⟩

/-- The byte is written and then cleared. -/
theorem statistics_iff_clear_last :
    ∃ (tr : List (State Bool × Event Bool)) (s : State Bool), Quiescent s ∧
      s.module.writeCount = 1 ∧ s.module.totalLength = 0 ∧
      (StatisticsRight oneByteAndClear s ↔ LastClearAlone tr) := by
  let events : List (Event Bool) :=
    List.replicate 7 ⟨true, {}⟩ ++ List.replicate 4 ⟨false, {}⟩
  have hs : (replay (exec .spinlock oneByteAndClear) events (init Bool)).isSome := rfl
  have hrun : Run (Step .spinlock oneByteAndClear) (init Bool) _ _ :=
    run_of_replay (fun _ _ _ h => h) (Option.some_get hs).symm
  have hq : Quiescent ((replay (exec .spinlock oneByteAndClear) events (init Bool)).get hs) := by
    intro c
    cases c <;> exact Or.inr ⟨_, rfl⟩
  exact ⟨_, _, hq, rfl, rfl, statistics_iff hrun (faultless_of_mem_record (by simp [events])) hq⟩

/-- The clear comes between the insertion of the byte and the update of the total: the list is empty,
`total_length` stays 1. -/
theorem total_wrong_after_clear :
    ∃ (tr : List (State Bool × Event Bool)) (s : State Bool),
      Run (Step .spinlock oneByteAndClear) (init Bool) tr s ∧ (∀ p ∈ tr, p.2.input.Faultless) ∧
        Quiescent s ∧ s.module.buffer = [] ∧ s.module.totalLength = 1 ∧
        ¬ StatisticsRight oneByteAndClear s := by
  let events : List (Event Bool) :=
    List.replicate 3 ⟨true, {}⟩ ++ List.replicate 4 ⟨false, {}⟩ ++ List.replicate 4 ⟨true, {}⟩
  have hs : (replay (exec .spinlock oneByteAndClear) events (init Bool)).isSome := rfl
  have hrun : Run (Step .spinlock oneByteAndClear) (init Bool) _ _ :=
    run_of_replay (fun _ _ _ h => h) (Option.some_get hs).symm
  refine ⟨_, _, hrun, faultless_of_mem_record (by simp [events]), ?_, rfl, rfl, fun h => ?_⟩
  · intro c
    cases c <;> exact Or.inr ⟨_, rfl⟩
  · exact absurd h.total Nat.one_ne_zero

end LinkedBuffer
