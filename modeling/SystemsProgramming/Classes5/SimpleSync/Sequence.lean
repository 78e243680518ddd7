import SystemsProgramming.Classes5.SimpleSync.Stream

/-!
# Calls one after the other

`simple_read` alone, with `msg_pos` as the `int` it is.  After `2 ^ 31` characters `msg_pos` is
negative and points before the message: `indices_inside_iff` says which sequences of calls do not
get there.  Whatever `copy_to_user` leaves, `simple_read` returns the whole length and the
characters are gone: the calls report what they have delivered exactly when every copy is complete
(`reports_iff`).
-/

namespace SimpleSync

open Memory Transition

/-! ### The call alone -/

/-- What a call finds outside the module. -/
inductive Outcome where
  /-- a signal ends the lock wait -/
  | interrupted
  | noMem
  /-- `copy_to_user` leaves `uncopied` bytes -/
  | copies (uncopied : ℕ)
  deriving DecidableEq

structure Call where
  count : ℕ
  outcome : Outcome := .copies 0
  deriving DecidableEq

/-- What a call leaves behind. -/
structure ReadResult where
  ret : Except Errno ℕ
  /-- the bytes in the buffer of the user -/
  delivered : List UInt8
  msgPos : ℤ

/-- The loop of `simple_read`, from the passes that are left. -/
def fillLoop : ℕ → ℤ → List UInt8 → Except Fault (ℤ × List UInt8)
  | 0, msgPos, localBuf => .ok (msgPos, localBuf)
  | n + 1, msgPos, localBuf => do
    let b ← load msgStr (msgPos.tmod msgLen)
    fillLoop n ((msgPos + 1).bmod intCard) (localBuf ++ [b])

/-- `simple_read`; the result of `copy_to_user` is not negative, so the call returns the length. -/
def simpleRead (c : Call) (msgPos : ℤ) : Except Fault ReadResult :=
  match c.outcome with
  | .interrupted => .ok ⟨.error .intr, [], msgPos⟩
  | .noMem => .ok ⟨.error .noMem, [], msgPos⟩
  | .copies uncopied => do
    let (msgPos, localBuf) ← fillLoop (lengthToCopy msgPos c.count).toNat msgPos []
    return ⟨.ok localBuf.length, localBuf.take (localBuf.length - uncopied), msgPos⟩

/-- The calls one after the other. -/
def runCalls : List Call → ℤ → Except Fault ℤ
  | [], msgPos => .ok msgPos
  | c :: cs, msgPos => do
    let r ← simpleRead c msgPos
    runCalls cs r.msgPos

/-! ### The steps of a call that runs alone -/

/-- Steps of one call, with no other call in between. -/
def Alone (variant : Variant) (count : ℕ) : Globals × Ctrl → Globals × Ctrl → Prop :=
  Relation.ReflTransGen fun p q => ∃ a, callStep variant count p.1 p.2 a = some q

section Alone

variable {variant : Variant} {count : ℕ}

theorem Alone.head {g g' : Globals} {k k' : Ctrl} {p : Globals × Ctrl} (a : Action)
    (h : callStep variant count g k a = some (g', k')) (h' : Alone variant count (g', k') p) :
    Alone variant count (g, k) p :=
  Relation.ReflTransGen.head ⟨a, h⟩ h'

theorem alone_fillLoop {lock n : ℕ} {length msgPos msgPos' : ℤ} {buf buf' : List UInt8}
    (hn : length = buf.length + n) (h : fillLoop n msgPos buf = .ok (msgPos', buf')) :
    buf'.length = length ∧ Alone variant count (⟨lock, msgPos⟩, .filling length buf)
      (⟨lock, msgPos'⟩, .filling length buf') := by
  induction n generalizing msgPos buf with
  | zero =>
      cases h
      exact ⟨by omega, Relation.ReflTransGen.refl⟩
  | succ n ih =>
      rw [fillLoop] at h
      cases hb : load msgStr (msgPos.tmod msgLen) with
      | error e =>
          rw [hb] at h
          cases h
      | ok b =>
          rw [hb] at h
          have hnext : length = (buf ++ [b]).length + n := by
            rw [List.length_append, List.length_singleton]
            omega
          obtain ⟨hlength, halone⟩ := ih hnext h
          refine ⟨hlength, .head .fill ?_ halone⟩
          rw [callStep, if_pos (by omega)]
          dsimp only
          rw [hb]

/-- Run alone, the steps of `simple_read` compute `simpleRead`. -/
theorem alone_simpleRead {c : Call} {msgPos : ℤ} {r : ReadResult}
    (h : simpleRead c msgPos = .ok r)
    (huncopied : ∀ k, c.outcome = .copies k → (k : ℤ) ≤ lengthToCopy msgPos c.count) :
    Alone variant c.count (⟨1, msgPos⟩, .ready) (⟨1, r.msgPos⟩, .done r.ret r.delivered) := by
  have hrelease : ∀ p : ℤ, release variant ⟨0, p⟩ = ⟨1, p⟩ := fun p => by cases variant <;> rfl
  unfold simpleRead at h
  cases ho : c.outcome with
  | interrupted =>
      rw [ho] at h
      cases h
      exact .head .interrupt rfl Relation.ReflTransGen.refl
  | noMem =>
      rw [ho] at h
      cases h
      refine .head .lock rfl (.head .kmallocFails rfl (.head .unlock ?_ Relation.ReflTransGen.refl))
      exact congrArg (fun g => some (g, _)) (hrelease msgPos)
  | copies k =>
      rw [ho] at h
      have hk := huncopied k ho
      cases hloop : fillLoop (lengthToCopy msgPos c.count).toNat msgPos [] with
      | error e =>
          dsimp only at h
          rw [hloop] at h
          cases h
      | ok p =>
          obtain ⟨msgPos', buf⟩ := p
          dsimp only at h
          rw [hloop] at h
          cases h
          have hlength : lengthToCopy msgPos c.count =
              ([] : List UInt8).length + (lengthToCopy msgPos c.count).toNat := by
            rw [List.length_nil]
            omega
          obtain ⟨hbuf, hfill⟩ := alone_fillLoop hlength hloop
          have hcopy : Alone variant c.count (⟨1, msgPos'⟩, .copying buf)
              (⟨1, msgPos'⟩, .done (.ok buf.length) (buf.take (buf.length - k))) :=
            .head (.copy k) (by rw [callStep, if_pos (by omega)]) Relation.ReflTransGen.refl
          have hunlock : Alone variant c.count
              (⟨0, msgPos'⟩, .filling (lengthToCopy msgPos c.count) buf)
              (⟨1, msgPos'⟩, .done (.ok buf.length) (buf.take (buf.length - k))) :=
            .head .unlock (by rw [callStep, if_neg (by omega), hrelease]) hcopy
          exact .head .lock rfl (.head .kmalloc rfl (Relation.ReflTransGen.trans hfill hunlock))

end Alone

/-! ### The characters -/

/-- The character at position `z` of the message repeated for ever. -/
def msgChar (z : ℤ) : UInt8 := msgStr.getD (z % msgLen).toNat 0

/-- `n` characters from position `z` on. -/
def messageFrom (z : ℤ) (n : ℕ) : List UInt8 := (List.range n).map fun i : ℕ => msgChar (z + i)

@[simp] theorem length_messageFrom (z : ℤ) (n : ℕ) : (messageFrom z n).length = n := by
  unfold messageFrom
  rw [List.length_map, List.length_range]

theorem messageFrom_add (z : ℤ) (m n : ℕ) :
    messageFrom z (m + n) = messageFrom z m ++ messageFrom (z + m) n := by
  unfold messageFrom
  rw [List.range_add, List.map_append, List.map_map]
  congr 1
  apply List.map_congr_left
  intro i _
  rw [Function.comp_apply, Nat.cast_add, add_assoc]

/-- An index that is inside the message is the one of the position. -/
theorem load_msgChar {z : ℤ} {b : UInt8} (h : load msgStr (z.tmod msgLen) = .ok b) :
    0 ≤ z.tmod msgLen ∧ b = msgChar z := by
  have hnonneg : 0 ≤ z.tmod msgLen := by
    by_contra hneg
    rw [load_outside (Or.inl (Int.not_le.1 hneg))] at h
    cases h
  have hmod : z.tmod msgLen = z % msgLen := by
    rcases Int.le_total 0 z with hz | hz
    · exact Int.tmod_eq_emod_of_nonneg hz
    · have hneg : 0 ≤ (-z).tmod msgLen := Int.tmod_nonneg _ (Int.neg_nonneg_of_nonpos hz)
      have hzero : z.tmod msgLen = 0 := by
        rw [Int.neg_tmod] at hneg
        omega
      rw [hzero, Int.emod_eq_zero_of_dvd (Int.dvd_of_tmod_eq_zero hzero)]
  refine ⟨hnonneg, ?_⟩
  rw [hmod] at h
  have hlt : (z % msgLen).toNat < msgStr.length := by
    have hmod := Int.emod_lt_of_pos z (show (0 : ℤ) < msgLen by decide)
    have hnonneg := Int.emod_nonneg z (show (msgLen : ℤ) ≠ 0 by decide)
    exact (Int.toNat_lt hnonneg).2 hmod
  have hload := load_natCast hlt
  rw [Int.toNat_of_nonneg (Int.emod_nonneg _ (by decide)), h] at hload
  unfold msgChar
  rw [Except.ok.inj hload, List.getD_eq_getElem _ _ hlt]

/-- At `2 ^ 31` characters `msg_pos` is the least `int`, and the index is `-8`. -/
theorem bmod_intMax_succ : ((intMax : ℤ) + 1).bmod intCard = -(intMax + 1) := by decide

/-- What a loop that reads nothing else than the message has taken: `z` is the position without the
overflow. -/
theorem fillLoop_eq_ok {n : ℕ} {z msgPos' : ℤ} {buf buf' : List UInt8}
    (hlo : -((intMax : ℤ) + 1) ≤ z) (hhi : z ≤ intMax + 1)
    (h : fillLoop n (z.bmod intCard) buf = .ok (msgPos', buf')) :
    z + n ≤ intMax + 1 ∧ msgPos' = (z + n).bmod intCard ∧ buf' = buf ++ messageFrom z n := by
  induction n generalizing z buf with
  | zero =>
      cases h
      refine ⟨by omega, by rw [Nat.cast_zero, add_zero], ?_⟩
      exact (List.append_nil _).symm
  | succ n ih =>
      rw [fillLoop] at h
      cases hb : load msgStr ((z.bmod intCard).tmod msgLen) with
      | error e =>
          rw [hb] at h
          cases h
      | ok b =>
          rw [hb] at h
          have hle : z ≤ intMax := by
            by_contra hgt
            have hz : z = intMax + 1 := by omega
            have hneg := (load_msgChar hb).1
            rw [hz, bmod_intMax_succ] at hneg
            revert hneg
            decide
          rw [bmod_intCard hlo hle] at hb h
          obtain ⟨-, rfl⟩ := load_msgChar hb
          obtain ⟨hend, hpos, hbuf⟩ := ih (by omega) (by omega) h
          have hone : messageFrom z 1 = [msgChar z] := by
            unfold messageFrom
            rw [List.range_one, List.map_singleton, Nat.cast_zero, add_zero]
          refine ⟨by push_cast; omega, ?_, ?_⟩
          · rw [hpos]
            push_cast
            rw [add_assoc, add_comm 1]
          · rw [hbuf, Nat.add_comm n 1, messageFrom_add, hone, Nat.cast_one, List.append_assoc]

/-- The loop reads only the message until `2 ^ 31` characters are taken. -/
theorem fillLoop_natCast {n k : ℕ} (buf : List UInt8) (h : n + k ≤ intMax + 1) :
    ∃ buf', fillLoop k ((n : ℤ).bmod intCard) buf = .ok (((n + k : ℕ) : ℤ).bmod intCard, buf') := by
  induction k generalizing n buf with
  | zero => exact ⟨buf, rfl⟩
  | succ k ih =>
      have hn : (n : ℤ).bmod intCard = n := bmod_intCard_natCast (by omega)
      have hnext : n + 1 + k ≤ intMax + 1 := by omega
      obtain ⟨buf', hbuf⟩ := ih _ hnext
      refine ⟨buf', ?_⟩
      rw [fillLoop, hn, load_msgStr, Nat.add_comm k 1, ← Nat.add_assoc, ← hbuf, Nat.cast_add]
      rfl

/-! ### The indices -/

/-- In every call of the sequence the length and the indices are inside the message. -/
def IndicesInside (calls : List Call) : Prop :=
  ∀ cs₁ c cs₂, calls = cs₁ ++ c :: cs₂ → ∀ msgPos, runCalls cs₁ 0 = .ok msgPos →
    (c.outcome ≠ .interrupted →
      0 ≤ lengthToCopy msgPos c.count ∧ lengthToCopy msgPos c.count ≤ msgLen) ∧
    ∃ r, simpleRead c msgPos = .ok r

/-- The number of characters that a call takes after `n`. -/
def Call.takes (c : Call) (n : ℕ) : ℕ :=
  match c.outcome with
  | .copies _ => min (msgLen - n % msgLen) c.count
  | _ => 0

/-- The number of characters that the calls take. -/
def taken (calls : List Call) : ℕ := calls.foldl (fun n c => n + c.takes n) 0

/-- The call that comes after `n` characters stays below the overflow. -/
def Call.Safe (c : Call) (n : ℕ) : Prop :=
  match c.outcome with
  | .interrupted => True
  | .noMem => n ≤ intMax ∨ c.count ≤ msgLen
  | .copies _ => n + c.takes n ≤ intMax + 1

theorem taken_concat (calls : List Call) (c : Call) :
    taken (calls ++ [c]) = taken calls + c.takes (taken calls) := by
  unfold taken
  rw [List.foldl_append, List.foldl_cons, List.foldl_nil]

theorem runCalls_concat (calls : List Call) (c : Call) (msgPos : ℤ) :
    runCalls (calls ++ [c]) msgPos =
      runCalls calls msgPos >>= fun p => ReadResult.msgPos <$> simpleRead c p := by
  induction calls generalizing msgPos with
  | nil =>
      show (simpleRead c msgPos >>= fun r => .ok r.msgPos) =
        ReadResult.msgPos <$> simpleRead c msgPos
      cases simpleRead c msgPos <;> rfl
  | cons d calls ih =>
      rw [List.cons_append, runCalls, runCalls]
      cases h : simpleRead d msgPos with
      | error e => rfl
      | ok r => exact ih r.msgPos

/-- The length after `n` characters; the remainder of the least `int` is `-8`. -/
theorem lengthToCopy_bmod {n : ℕ} (count : ℕ) (hn : n ≤ intMax + 1) :
    lengthToCopy ((n : ℤ).bmod intCard) count =
      (min (if n ≤ intMax then msgLen - n % msgLen else msgLen + 8) count : ℕ) := by
  by_cases hle : n ≤ intMax
  · have hmod : (n : ℤ).bmod intCard = n := bmod_intCard_natCast (by omega)
    rw [if_pos hle, hmod, lengthToCopy_natCast]
  · obtain rfl : n = intMax + 1 := by omega
    have hpos : (((intMax + 1 : ℕ) : ℤ).bmod intCard).tmod msgLen = -8 := by decide
    unfold lengthToCopy
    rw [if_neg hle, hpos]
    omega

/-- The length is inside the message, unless `msg_pos` has overflowed. -/
theorem lengthToCopy_inside_iff {n : ℕ} (count : ℕ) (hn : n ≤ intMax + 1) :
    0 ≤ lengthToCopy ((n : ℤ).bmod intCard) count ∧
        lengthToCopy ((n : ℤ).bmod intCard) count ≤ msgLen ↔
      n ≤ intMax ∨ count ≤ msgLen := by
  rw [lengthToCopy_bmod count hn]
  split <;> omega

/-- A call takes no more characters than its loop has passes. -/
theorem Call.takes_le {c : Call} {n : ℕ} (hn : n ≤ intMax + 1) :
    c.takes n ≤ (lengthToCopy ((n : ℤ).bmod intCard) c.count).toNat := by
  have hmin : c.takes n ≤ min (msgLen - n % msgLen) c.count := by
    unfold Call.takes
    split
    · exact le_rfl
    · exact Nat.zero_le _
  have hleft : n % msgLen < msgLen := Nat.mod_lt _ (by decide)
  rw [lengthToCopy_bmod _ hn, Int.toNat_natCast]
  split <;> omega

/-- And exactly as many when it stays below the overflow. -/
theorem Call.Safe.length_eq {c : Call} {n k : ℕ} (ho : c.outcome = .copies k)
    (hn : n ≤ intMax + 1) (h : c.Safe n) :
    lengthToCopy ((n : ℤ).bmod intCard) c.count = c.takes n ∧ n + c.takes n ≤ intMax + 1 := by
  have htakes : c.takes n = min (msgLen - n % msgLen) c.count := by
    unfold Call.takes
    rw [ho]
  have hle : n + c.takes n ≤ intMax + 1 := by
    unfold Call.Safe at h
    rw [ho] at h
    exact h
  have hleft : n % msgLen < msgLen := Nat.mod_lt _ (by decide)
  refine ⟨?_, hle⟩
  rw [lengthToCopy_bmod _ hn]
  split <;> omega

/-- A call whose copy is tried. -/
theorem simpleRead_copies {c : Call} {k : ℕ} (ho : c.outcome = .copies k) (msgPos : ℤ) :
    simpleRead c msgPos = (fillLoop (lengthToCopy msgPos c.count).toNat msgPos [] >>= fun q =>
      .ok ⟨.ok q.2.length, q.2.take (q.2.length - k), q.1⟩) := by
  unfold simpleRead
  rw [ho]
  rfl

theorem simpleRead_copies_eq_ok {c : Call} {k : ℕ} {msgPos : ℤ} {r : ReadResult}
    (ho : c.outcome = .copies k) (h : simpleRead c msgPos = .ok r) :
    ∃ buf, fillLoop (lengthToCopy msgPos c.count).toNat msgPos [] = .ok (r.msgPos, buf) ∧
      r.ret = .ok buf.length ∧ r.delivered = buf.take (buf.length - k) := by
  rw [simpleRead_copies ho] at h
  cases hloop : fillLoop (lengthToCopy msgPos c.count).toNat msgPos [] with
  | error e =>
      rw [hloop] at h
      cases h
  | ok q =>
      rw [hloop] at h
      cases h
      exact ⟨q.2, rfl, rfl, rfl⟩

/-- What a call that does not read outside the message leaves behind. -/
theorem simpleRead_cases {c : Call} {msgPos : ℤ} {r : ReadResult}
    (h : simpleRead c msgPos = .ok r) :
    (∃ e, (∀ k, c.outcome ≠ .copies k) ∧ r = ⟨.error e, [], msgPos⟩) ∨
      ∃ k buf, c.outcome = .copies k ∧
        fillLoop (lengthToCopy msgPos c.count).toNat msgPos [] = .ok (r.msgPos, buf) ∧
          r.ret = .ok buf.length ∧ r.delivered = buf.take (buf.length - k) := by
  cases ho : c.outcome with
  | interrupted | noMem =>
      unfold simpleRead at h
      rw [ho] at h
      exact Or.inl ⟨_, nofun, (Except.ok.inj h).symm⟩
  | copies k =>
      obtain ⟨buf, hloop, hret, hdelivered⟩ := simpleRead_copies_eq_ok ho h
      exact Or.inr ⟨k, buf, rfl, hloop, hret, hdelivered⟩

/-- One call after `n` characters. -/
theorem Call.safe_iff {c : Call} {n : ℕ} (hn : n ≤ intMax + 1) :
    c.Safe n ↔ (c.outcome ≠ .interrupted →
        0 ≤ lengthToCopy ((n : ℤ).bmod intCard) c.count ∧
          lengthToCopy ((n : ℤ).bmod intCard) c.count ≤ msgLen) ∧
      ∃ r, simpleRead c ((n : ℤ).bmod intCard) = .ok r := by
  rw [lengthToCopy_inside_iff _ hn]
  cases ho : c.outcome with
  | interrupted =>
      unfold Call.Safe simpleRead
      rw [ho]
      exact iff_of_true trivial ⟨fun hne => absurd rfl hne, _, rfl⟩
  | noMem =>
      unfold Call.Safe simpleRead
      rw [ho]
      exact ⟨fun h => ⟨fun _ => h, _, rfl⟩, fun h => h.1 nofun⟩
  | copies k =>
      constructor
      · intro h
        obtain ⟨hlength, hend⟩ := h.length_eq ho hn
        refine ⟨fun _ => ?_, ?_⟩
        · have hinside := (lengthToCopy_inside_iff c.count hn).1
          have htakes : c.takes n ≤ msgLen := by
            unfold Call.takes
            rw [ho]
            exact (min_le_left _ _).trans (Nat.sub_le _ _)
          exact hinside ⟨by omega, by omega⟩
        · obtain ⟨buf, hbuf⟩ := fillLoop_natCast [] hend
          rw [simpleRead_copies ho, hlength, Int.toNat_natCast, hbuf]
          exact ⟨_, rfl⟩
      · rintro ⟨-, r, hr⟩
        obtain ⟨buf, hloop, -, -⟩ := simpleRead_copies_eq_ok ho hr
        have hend := (fillLoop_eq_ok (by omega) (by omega) hloop).1
        have htakes := c.takes_le hn
        unfold Call.Safe
        rw [ho]
        dsimp only
        omega

theorem Call.Safe.next {c : Call} {n : ℕ} {r : ReadResult} (hn : n ≤ intMax + 1) (h : c.Safe n)
    (hr : simpleRead c ((n : ℤ).bmod intCard) = .ok r) :
    n + c.takes n ≤ intMax + 1 ∧ r.msgPos = ((n + c.takes n : ℕ) : ℤ).bmod intCard := by
  rcases simpleRead_cases hr with ⟨e, hne, rfl⟩ | ⟨k, buf, ho, hloop, -, -⟩
  · have htakes : c.takes n = 0 := by
      unfold Call.takes
      split
      · exact absurd ‹_› (hne _)
      · rfl
    rw [htakes]
    dsimp only
    rw [Nat.add_zero]
    exact ⟨hn, rfl⟩
  · obtain ⟨hlength, hend⟩ := h.length_eq ho hn
    rw [hlength, Int.toNat_natCast] at hloop
    have hpos := (fillLoop_eq_ok (by omega) (by omega) hloop).2.1
    refine ⟨hend, ?_⟩
    rw [hpos, Nat.cast_add]

/-- As long as the calls are safe, `msg_pos` is the number of characters taken. -/
theorem runCalls_safe {calls : List Call}
    (h : ∀ cs₁ c cs₂, calls = cs₁ ++ c :: cs₂ → taken cs₁ ≤ intMax + 1 →
      runCalls cs₁ 0 = .ok ((taken cs₁ : ℤ).bmod intCard) → c.Safe (taken cs₁))
    (cs₁ cs₂ : List Call) (hcalls : calls = cs₁ ++ cs₂) :
    taken cs₁ ≤ intMax + 1 ∧ runCalls cs₁ 0 = .ok ((taken cs₁ : ℤ).bmod intCard) := by
  induction cs₁ using List.reverseRecOn generalizing cs₂ with
  | nil => exact ⟨Nat.zero_le _, rfl⟩
  | append_singleton cs₁ c ih =>
      rw [List.append_assoc, List.singleton_append] at hcalls
      obtain ⟨hle, hrun⟩ := ih (c :: cs₂) hcalls
      have hsafe := h cs₁ c cs₂ hcalls hle hrun
      obtain ⟨-, r, hr⟩ := (Call.safe_iff hle).1 hsafe
      obtain ⟨hnext, hpos⟩ := hsafe.next hle hr
      rw [taken_concat]
      refine ⟨hnext, ?_⟩
      rw [runCalls_concat, hrun, ← hpos]
      show ReadResult.msgPos <$> simpleRead c ((taken cs₁ : ℤ).bmod intCard) = _
      rw [hr]
      rfl

theorem IndicesInside.safe {calls : List Call} (h : IndicesInside calls) {cs₁ cs₂ : List Call}
    {c : Call} (hcalls : calls = cs₁ ++ c :: cs₂) : c.Safe (taken cs₁) := by
  obtain ⟨hle, hrun⟩ := runCalls_safe
    (fun cs₁ c cs₂ hcalls hle hrun => (Call.safe_iff hle).2 (h cs₁ c cs₂ hcalls _ hrun))
    cs₁ (c :: cs₂) hcalls
  exact (Call.safe_iff hle).2 (h cs₁ c cs₂ hcalls _ hrun)

/-- The indices are inside the message exactly as long as the calls take `2 ^ 31` characters at
most, and none that has no memory asks for more than the message after exactly as many. -/
theorem indices_inside_iff (calls : List Call) :
    IndicesInside calls ↔ ∀ cs₁ c cs₂, calls = cs₁ ++ c :: cs₂ → c.Safe (taken cs₁) := by
  constructor
  · intro h cs₁ c cs₂ hcalls
    exact h.safe hcalls
  · intro h cs₁ c cs₂ hcalls msgPos hrun
    obtain ⟨hle, hrun'⟩ := runCalls_safe (fun cs₁ c cs₂ hcalls _ _ => h cs₁ c cs₂ hcalls)
      cs₁ (c :: cs₂) hcalls
    obtain rfl := Except.ok.inj (hrun'.symm.trans hrun)
    exact (Call.safe_iff hle).1 (h cs₁ c cs₂ hcalls)

theorem taken_replicate (n : ℕ) : taken (List.replicate n ⟨1, .copies 0⟩) = n := by
  induction n with
  | zero => rfl
  | succ n ih =>
      have hone : Call.takes ⟨1, .copies 0⟩ n = 1 := by
        have hlt : n % msgLen < msgLen := Nat.mod_lt _ (by decide)
        show min (msgLen - n % msgLen) 1 = 1
        omega
      rw [List.replicate_succ', taken_concat, ih, hone]

/-- The message read one character at a time. -/
theorem not_indicesInside_replicate {n : ℕ} (hn : intMax < n) :
    ¬ IndicesInside (List.replicate (n + 1) ⟨1, .copies 0⟩) := by
  intro h
  have hsafe := h.safe List.replicate_succ'
  have hend : taken (List.replicate n ⟨1, .copies 0⟩) +
      Call.takes ⟨1, .copies 0⟩ (taken (List.replicate n ⟨1, .copies 0⟩)) ≤ intMax + 1 := hsafe
  rw [← taken_concat, ← List.replicate_succ', taken_replicate] at hend
  omega

/-- The last of these calls reads at the index `-8`. -/
theorem index_outside : ¬ IndicesInside (List.replicate (intMax + 1 + 1) ⟨1, .copies 0⟩) :=
  not_indicesInside_replicate (Nat.lt_succ_self intMax)

/-! ### The reports -/

/-- A call, with what it leaves behind: the read stays inside the message, and `copy_to_user` leaves
no more than it was given. -/
def SeqStep (msgPos : ℤ) (l : Call × ReadResult) (msgPos' : ℤ) : Prop :=
  simpleRead l.1 msgPos = .ok l.2 ∧ msgPos' = l.2.msgPos ∧
    ∀ k, l.1.outcome = .copies k → (k : ℤ) ≤ lengthToCopy msgPos l.1.count

/-- What the users have received. -/
def received (tr : List (ℤ × Call × ReadResult)) : List UInt8 := tr.flatMap fun q => q.2.2.delivered

/-- The call returns the number of characters it has delivered, or it fails and leaves `msg_pos`. -/
structure CallReports (msgPos : ℤ) (c : Call) (r : ReadResult) : Prop where
  returned : ∀ n, r.ret = .ok n → r.delivered = messageFrom msgPos n
  undelivered : (r.delivered.length : ℤ) < lengthToCopy msgPos c.count →
    (∃ e, r.ret = .error e) ∧ r.msgPos = msgPos

structure Reports (start : ℤ) (tr : List (ℤ × Call × ReadResult)) : Prop where
  call : ∀ q ∈ tr, CallReports q.1 q.2.1 q.2.2
  stream : ∃ n, received tr = messageFrom start n

/-- Every `copy_to_user` copies all bytes. -/
def Complete (tr : List (ℤ × Call × ReadResult)) : Prop :=
  ∀ q ∈ tr, ∀ k, q.2.1.outcome = .copies k → k = 0

/-- A call whose copy is complete delivers the next characters; a call that fails delivers none. -/
theorem delivered_of_complete {c : Call} {z : ℤ} {r : ReadResult}
    (hlo : -((intMax : ℤ) + 1) ≤ z) (hhi : z ≤ intMax + 1)
    (hr : simpleRead c (z.bmod intCard) = .ok r)
    (hcomplete : ∀ k, c.outcome = .copies k → k = 0) :
    z + r.delivered.length ≤ intMax + 1 ∧ r.msgPos = (z + r.delivered.length).bmod intCard ∧
      r.delivered = messageFrom z r.delivered.length := by
  rcases simpleRead_cases hr with ⟨e, -, rfl⟩ | ⟨k, buf, ho, hloop, -, hdelivered⟩
  · refine ⟨by simpa using hhi, ?_, rfl⟩
    rw [List.length_nil, Nat.cast_zero, add_zero]
  · obtain rfl := hcomplete k ho
    obtain ⟨hend, hpos, hbuf⟩ := fillLoop_eq_ok hlo hhi hloop
    rw [List.nil_append] at hbuf
    rw [Nat.sub_zero, List.take_length] at hdelivered
    have hlength : buf.length = (lengthToCopy (z.bmod intCard) c.count).toNat := by
      rw [hbuf, length_messageFrom]
    rw [hdelivered, hlength]
    exact ⟨hend, hpos, hbuf⟩

/-- Among the calls that do not read outside the message, these are the ones that report what they
deliver. -/
theorem callReports_iff {c : Call} {msgPos : ℤ} {r : ReadResult}
    (hlo : -((intMax : ℤ) + 1) ≤ msgPos) (hhi : msgPos ≤ intMax)
    (hr : simpleRead c msgPos = .ok r)
    (huncopied : ∀ k, c.outcome = .copies k → (k : ℤ) ≤ lengthToCopy msgPos c.count) :
    CallReports msgPos c r ↔ ∀ k, c.outcome = .copies k → k = 0 := by
  rcases simpleRead_cases hr with ⟨e, hne, rfl⟩ | ⟨k, buf, ho, hloop, hret, hdelivered⟩
  · exact iff_of_true ⟨nofun, fun _ => ⟨⟨e, rfl⟩, rfl⟩⟩ fun k hk => absurd hk (hne k)
  · have hk := huncopied k ho
    have hbmod := bmod_intCard hlo hhi
    rw [← hbmod] at hloop
    obtain ⟨-, -, hbuf⟩ := fillLoop_eq_ok hlo (by omega) hloop
    rw [List.nil_append, hbmod] at hbuf
    have hlength : buf.length = (lengthToCopy msgPos c.count).toNat := by
      rw [hbuf, length_messageFrom]
    constructor
    · rintro h k' hk'
      obtain rfl := Outcome.copies.inj (ho.symm.trans hk')
      have heq := congrArg List.length (h.returned _ hret)
      rw [hdelivered, List.length_take, length_messageFrom] at heq
      omega
    · intro h
      obtain rfl := h k ho
      rw [Nat.sub_zero, List.take_length] at hdelivered
      constructor
      · intro n hn
        obtain rfl := Except.ok.inj (hret.symm.trans hn)
        rw [hdelivered, hlength]
        exact hbuf
      · intro hlt
        rw [hdelivered] at hlt
        omega

/-- In a run with complete copies the users receive the message from the start on. -/
theorem received_of_complete {start msgPos : ℤ} {tr : List (ℤ × Call × ReadResult)}
    (hlo : -((intMax : ℤ) + 1) ≤ start) (hhi : start ≤ intMax) (h : Run SeqStep start tr msgPos)
    (hcomplete : Complete tr) :
    start + (received tr).length ≤ intMax + 1 ∧
      msgPos = (start + (received tr).length).bmod intCard ∧
      received tr = messageFrom start (received tr).length := by
  induction h with
  | nil =>
      refine ⟨by show start + ((0 : ℕ) : ℤ) ≤ _; omega, ?_, rfl⟩
      show start = (start + ((0 : ℕ) : ℤ)).bmod intCard
      rw [Nat.cast_zero, add_zero, bmod_intCard hlo hhi]
  | @snoc tr p p' l _ hs ih =>
      obtain ⟨hcompletes, hlast⟩ := List.forall_mem_append.1 hcomplete
      obtain ⟨hend, rfl, htr⟩ := ih hcompletes
      obtain ⟨hr, rfl, -⟩ := hs
      obtain ⟨hend', hpos, hdelivered⟩ :=
        delivered_of_complete (by omega) hend hr (hlast _ (List.mem_singleton_self _))
      have hreceived : ∀ q, received (tr ++ [q]) = received tr ++ q.2.2.delivered := fun q => by
        unfold received
        rw [List.flatMap_append, List.flatMap_singleton]
      rw [hreceived, List.length_append]
      push_cast
      rw [← add_assoc]
      refine ⟨hend', hpos, ?_⟩
      rw [messageFrom_add, ← htr, ← hdelivered]

/-- `msg_pos` stays an `int`. -/
theorem SeqStep.inside {msgPos msgPos' : ℤ} {l : Call × ReadResult} (h : SeqStep msgPos l msgPos')
    (hpos : -((intMax : ℤ) + 1) ≤ msgPos ∧ msgPos ≤ intMax) :
    -((intMax : ℤ) + 1) ≤ msgPos' ∧ msgPos' ≤ intMax := by
  obtain ⟨hr, rfl, -⟩ := h
  rcases simpleRead_cases hr with ⟨e, -, hfails⟩ | ⟨k, buf, -, hloop, -, -⟩
  · rw [hfails]
    exact hpos
  · rw [← bmod_intCard hpos.1 hpos.2] at hloop
    obtain ⟨-, hnext, -⟩ := fillLoop_eq_ok hpos.1 (by omega) hloop
    rw [hnext]
    exact bmod_intCard_bounds _

/-- The calls report what they deliver exactly as long as every copy is complete. -/
theorem reports_iff {start msgPos : ℤ} {tr : List (ℤ × Call × ReadResult)}
    (hlo : -((intMax : ℤ) + 1) ≤ start) (hhi : start ≤ intMax) (h : Run SeqStep start tr msgPos) :
    Reports start tr ↔ Complete tr := by
  have hcall : ∀ q ∈ tr, CallReports q.1 q.2.1 q.2.2 ↔ ∀ k, q.2.1.outcome = .copies k → k = 0 := by
    intro q hq
    have hpos := h.invariant_mem (C := fun _ _ => True)
      (I := fun z => -((intMax : ℤ) + 1) ≤ z ∧ z ≤ intMax) (fun _ _ _ _ hI hs => hs.inside hI)
      (fun _ _ => trivial) ⟨hlo, hhi⟩ q hq
    obtain ⟨t, hr, -, huncopied⟩ := h.step_of_mem q hq
    exact callReports_iff hpos.1 hpos.2 hr huncopied
  constructor
  · intro hreports q hq
    exact (hcall q hq).1 (hreports.call q hq)
  · intro hcomplete
    constructor
    · intro q hq
      exact (hcall q hq).2 (hcomplete q hq)
    · exact ⟨_, (received_of_complete hlo hhi h hcomplete).2.2⟩

/-- Two calls: the first leaves one of its two characters. -/
def lossyRun : List (ℤ × Call × ReadResult) :=
  [(0, ⟨2, .copies 1⟩, ⟨.ok 2, [45], 2⟩), (2, ⟨1, .copies 0⟩, ⟨.ok 1, [49], 3⟩)]

theorem run_lossyRun : Run SeqStep 0 lossyRun 3 := by
  apply (Run.nil.snoc (t := 2) _).snoc
  · exact ⟨rfl, rfl, fun k hk => Outcome.copies.inj hk ▸ by decide⟩
  · exact ⟨rfl, rfl, fun k hk => Outcome.copies.inj hk ▸ by decide⟩

theorem reports_iff_lossyRun : Reports 0 lossyRun ↔ Complete lossyRun :=
  reports_iff (by decide) (by decide) run_lossyRun

/-- The character that was left is lost: the users receive the first and the third one. -/
theorem lossyRun_not_reports : Run SeqStep 0 lossyRun 3 ∧ ¬ Reports 0 lossyRun := by
  refine ⟨run_lossyRun, fun h => ?_⟩
  obtain ⟨n, hn⟩ := h.stream
  have hlength := congrArg List.length hn
  rw [length_messageFrom] at hlength
  obtain rfl : n = 2 := hlength.symm
  revert hn
  decide

end SimpleSync
