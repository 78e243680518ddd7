import SystemsProgramming.Classes5.SimpleSync.Calls
import Mathlib.Data.List.GetD

/-!
# The stream of characters

The calls take the characters of the message one lock holder after the other.  So what they have
taken, in the order in which they held the lock, is the message repeated, however their steps
interleave and whichever calls fail (`simpleRead_stream`), as long as `msg_pos` does not overflow.
-/

namespace SimpleSync

open Memory Transition

variable {C : Type} [DecidableEq C]

/-! ### What a run records -/

/-- The calls that have got the lock, in this order. -/
def holders (tr : List (State C × Event C)) : List C :=
  tr.filterMap fun p => if p.2.action = .lock then some p.2.call else none

/-- The number of characters that have been consumed. -/
def consumed (tr : List (State C × Event C)) : ℕ := tr.countP fun p => p.2.action = .fill

/-- The number of characters that call `c` has consumed. -/
def consumedBy (c : C) (tr : List (State C × Event C)) : ℕ :=
  tr.countP fun p => p.2.action = .fill ∧ p.2.call = c

/-- What the calls `l` have taken. -/
def takenBy (ctrl : C → Ctrl) (l : List C) : List UInt8 := l.flatMap fun c => (ctrl c).taken

/-- Every `copy_to_user` copies all bytes. -/
def CopiesSucceed (tr : List (State C × Event C)) : Prop :=
  ∀ p ∈ tr, ∀ r, p.2.action = .copy r → r = 0

/-- The calls read the message as one stream. -/
structure StreamOk (count : C → ℕ) (tr : List (State C × Event C)) (s : State C) : Prop where
  /-- what the calls have taken, in the order in which they held the lock -/
  stream : takenBy s.ctrl (holders tr) = message (consumed tr)
  nodup : (holders tr).Nodup
  succeeded : ∀ c n buf, s.ctrl c = .done (.ok n) buf → c ∈ holders tr
  /-- a successful call returns the count or the number of characters that were left -/
  returned : ∀ l₁ c l₂ n buf, holders tr = l₁ ++ c :: l₂ → s.ctrl c = .done (.ok n) buf →
    n = buf.length ∧ n = min (msgLen - (takenBy s.ctrl l₁).length % msgLen) (count c)
  failed : ∀ c e buf, s.ctrl c = .done (.error e) buf → consumedBy c tr = 0
  free : (∀ c, ¬ (s.ctrl c).Holds) → s.globals.lock = 1

/-! ### The calls that have had the lock -/

/-- Where a call can be that got the lock when `start` characters had been taken. -/
def CallOk (count start : ℕ) : Ctrl → Prop
  | .ready | .crashed => False
  | .locked | .failing | .done (.error _) _ => True
  | .filling length buf =>
    length = (min (msgLen - start % msgLen) count : ℕ) ∧ (buf.length : ℤ) ≤ length
  | .copying buf => buf.length = min (msgLen - start % msgLen) count
  | .done (.ok n) buf => n = buf.length ∧ n = min (msgLen - start % msgLen) count

/-- The calls `l`, which have had the lock in this order, have given it up. -/
def Settled (count : C → ℕ) (ctrl : C → Ctrl) (l : List C) : Prop :=
  ∀ l₁ c l₂, l = l₁ ++ c :: l₂ →
    CallOk (count c) (takenBy ctrl l₁).length (ctrl c) ∧ ¬ (ctrl c).Holds

section Settled

variable {count : C → ℕ} {ctrl : C → Ctrl} {l l' : List C} {c : C} {k : Ctrl}

omit [DecidableEq C] in
theorem takenBy_append : takenBy ctrl (l ++ l') = takenBy ctrl l ++ takenBy ctrl l' :=
  List.flatMap_append

omit [DecidableEq C] in
theorem takenBy_singleton : takenBy ctrl [c] = (ctrl c).taken := List.flatMap_singleton ..

omit [DecidableEq C] in
theorem takenBy_congr {ctrl' : C → Ctrl} (h : ∀ c ∈ l, (ctrl' c).taken = (ctrl c).taken) :
    takenBy ctrl' l = takenBy ctrl l := List.flatMap_congr h

theorem takenBy_update_of_notMem (hc : c ∉ l) :
    takenBy (Function.update ctrl c k) l = takenBy ctrl l := by
  apply takenBy_congr
  intro c' hc'
  have hne : c' ≠ c := by
    rintro rfl
    exact hc hc'
  rw [Function.update_of_ne hne]

theorem taken_update (hk : k.taken = (ctrl c).taken) (c' : C) :
    (Function.update ctrl c k c').taken = (ctrl c').taken := by
  by_cases h : c' = c
  · rw [h, Function.update_self, hk]
  · rw [Function.update_of_ne h]

theorem entered_update (hk : k.Entered ↔ (ctrl c).Entered) (c' : C) :
    (Function.update ctrl c k c').Entered ↔ (ctrl c').Entered := by
  by_cases h : c' = c
  · rw [h, Function.update_self, hk]
  · rw [Function.update_of_ne h]

theorem takenBy_update_of_eq (hk : k.taken = (ctrl c).taken) :
    takenBy (Function.update ctrl c k) l = takenBy ctrl l := by
  apply takenBy_congr
  intro c' _
  exact taken_update hk c'

theorem Settled.update_of_notMem (h : Settled count ctrl l) (hc : c ∉ l) :
    Settled count (Function.update ctrl c k) l := by
  intro l₁ c' l₂ hl
  have hne : c' ≠ c := by
    rintro rfl
    exact hc (hl ▸ by simp)
  have hnotMem : c ∉ l₁ := fun h => hc (hl ▸ List.mem_append_left _ h)
  rw [Function.update_of_ne hne, takenBy_update_of_notMem hnotMem]
  exact h l₁ c' l₂ hl

/-- A call that keeps what it has taken. -/
theorem Settled.update_of_eq (h : Settled count ctrl l) (hk : k.taken = (ctrl c).taken)
    (hok : ∀ start, CallOk (count c) start (ctrl c) → CallOk (count c) start k)
    (hholds : ¬ k.Holds) : Settled count (Function.update ctrl c k) l := by
  intro l₁ c' l₂ hl
  obtain ⟨hc', hnot⟩ := h l₁ c' l₂ hl
  rw [takenBy_update_of_eq hk]
  by_cases heq : c' = c
  · subst heq
    rw [Function.update_self]
    exact ⟨hok _ hc', hholds⟩
  · rw [Function.update_of_ne heq]
    exact ⟨hc', hnot⟩

omit [DecidableEq C] in
theorem Settled.concat (h : Settled count ctrl l)
    (hc : CallOk (count c) (takenBy ctrl l).length (ctrl c)) (hholds : ¬ (ctrl c).Holds) :
    Settled count ctrl (l ++ [c]) := by
  intro l₁ c' l₂ hl
  rcases snoc_eq_append_cons hl with ⟨rfl, rfl, -⟩ | ⟨l₃, -, hl'⟩
  · exact ⟨hc, hholds⟩
  · exact h l₁ c' l₃ hl'

omit [DecidableEq C] in
theorem Settled.not_holds (h : Settled count ctrl l) (hc : c ∈ l) : ¬ (ctrl c).Holds := by
  obtain ⟨l₁, l₂, hl⟩ := List.append_of_mem hc
  exact (h l₁ c l₂ hl).2

end Settled

/-- The lock is free and no call holds it, or the last call of the list holds it. -/
inductive Phase (count : C → ℕ) (s : State C) : List C → Prop
  | free {l} : s.globals.lock = 1 → Settled count s.ctrl l → Phase count s l
  | held {l c} : s.globals.lock = 0 → Settled count s.ctrl l → c ∉ l →
      CallOk (count c) (takenBy s.ctrl l).length (s.ctrl c) → (s.ctrl c).Holds →
        Phase count s (l ++ [c])

/-- What holds after the run `tr`. -/
structure Inv (count : C → ℕ) (tr : List (State C × Event C)) (s : State C) : Prop where
  msgPos : s.globals.msgPos = consumed tr
  entered : ∀ c, c ∈ holders tr ↔ (s.ctrl c).Entered
  nodup : (holders tr).Nodup
  stream : takenBy s.ctrl (holders tr) = message (consumed tr)
  consumedBy_eq : ∀ c, consumedBy c tr = (s.ctrl c).taken.length
  phase : Phase count s (holders tr)

/-! ### One step -/

section Records

variable {s : State C} {e : Event C}

omit [DecidableEq C] in
theorem holders_concat (tr : List (State C × Event C)) :
    holders (tr ++ [(s, e)]) = holders tr ++ if e.action = .lock then [e.call] else [] := by
  unfold holders
  rw [List.filterMap_append]
  by_cases h : e.action = .lock <;> simp [h]

omit [DecidableEq C] in
theorem consumed_concat (tr : List (State C × Event C)) :
    consumed (tr ++ [(s, e)]) = consumed tr + if e.action = .fill then 1 else 0 := by
  unfold consumed
  rw [List.countP_append]
  by_cases h : e.action = .fill <;> simp [h]

theorem consumedBy_concat (c : C) (tr : List (State C × Event C)) :
    consumedBy c (tr ++ [(s, e)]) =
      consumedBy c tr + if e.action = .fill ∧ e.call = c then 1 else 0 := by
  unfold consumedBy
  rw [List.countP_append]
  by_cases h : e.action = .fill ∧ e.call = c <;> simp [h]

end Records

section Step

variable {variant : Variant} {count : C → ℕ} {tr : List (State C × Event C)} {s : State C} {c : C}

/-- As long as it does not overflow, `msg_pos` points into the message. -/
theorem load_msgStr (n : ℕ) :
    load msgStr ((n : ℤ).tmod msgLen) = .ok (msgStr.getD (n % msgLen) 0) := by
  have hlt : n % msgLen < msgStr.length := Nat.mod_lt _ (by decide)
  rw [Int.tmod_eq_emod_of_nonneg (Int.natCast_nonneg n), ← Int.natCast_mod, load_natCast hlt,
    List.getD_eq_getElem _ _ hlt]

theorem lengthToCopy_natCast (n count : ℕ) :
    lengthToCopy n count = (min (msgLen - n % msgLen) count : ℕ) := by
  have hlt : n % msgLen < msgLen := Nat.mod_lt _ (by decide)
  unfold lengthToCopy
  rw [Int.tmod_eq_emod_of_nonneg (Int.natCast_nonneg n), ← Int.natCast_mod]
  omega

theorem msgPos_succ {n : ℕ} (h : n + 1 ≤ intMax) : ((n : ℤ) + 1).bmod intCard = (n + 1 : ℕ) := by
  rw [← Nat.cast_succ]
  exact bmod_intCard_natCast h

theorem Ctrl.Holds.entered {k : Ctrl} (h : k.Holds) : k.Entered := by
  cases k with
  | locked | failing | filling | crashed => trivial
  | ready | copying | done => exact h.elim

/-- A call between acquire and release is the last one that got the lock. -/
theorem Inv.holder (h : Inv count tr s) (hc : (s.ctrl c).Holds) :
    ∃ l, holders tr = l ++ [c] ∧ s.globals.lock = 0 ∧ Settled count s.ctrl l ∧ c ∉ l ∧
      CallOk (count c) (takenBy s.ctrl l).length (s.ctrl c) := by
  have hmem := (h.entered c).2 hc.entered
  have hphase := h.phase
  generalize holders tr = l at hphase hmem ⊢
  cases hphase with
  | free _ hsettled => exact absurd hc (hsettled.not_holds hmem)
  | @held l c' hlock hsettled hnotMem hok hholds =>
      rcases List.mem_append.1 hmem with hl | hl
      · exact absurd hc (hsettled.not_holds hl)
      · obtain rfl := List.mem_singleton.1 hl
        exact ⟨l, rfl, hlock, hsettled, hnotMem, hok⟩

theorem Inv.init : Inv count [] ({} : State C) where
  msgPos := rfl
  entered := by
    intro c
    exact iff_of_false List.not_mem_nil id
  nodup := List.nodup_nil
  stream := rfl
  consumedBy_eq := fun _ => rfl
  phase := by
    refine .free rfl fun l₁ c l₂ hl => ?_
    cases l₁ <;> cases hl

/-- A step that takes no character does not change what has been taken. -/
theorem Inv.taken_kept (h : Inv count tr s) {e : Event C} {k : Ctrl} (hfill : e.action ≠ .fill)
    (htaken : k.taken = (s.ctrl e.call).taken) :
    consumed (tr ++ [(s, e)]) = consumed tr ∧ ∀ c,
      consumedBy c (tr ++ [(s, e)]) = (Function.update s.ctrl e.call k c).taken.length := by
  constructor
  · rw [consumed_concat, if_neg hfill, Nat.add_zero]
  · intro c
    rw [consumedBy_concat, if_neg fun hc => hfill hc.1, Nat.add_zero, h.consumedBy_eq,
      taken_update htaken]

/-- What a call moves to in a step that takes no character, and in which no call gets the lock. -/
theorem Inv.move (h : Inv count tr s) {e : Event C} {g : Globals} {k : Ctrl}
    (hlock : e.action ≠ .lock) (hfill : e.action ≠ .fill) (hpos : g.msgPos = s.globals.msgPos)
    (htaken : k.taken = (s.ctrl e.call).taken) (hentered : k.Entered ↔ (s.ctrl e.call).Entered)
    (hphase : Phase count ⟨g, Function.update s.ctrl e.call k⟩ (holders tr)) :
    Inv count (tr ++ [(s, e)]) ⟨g, Function.update s.ctrl e.call k⟩ := by
  have hholders : holders (tr ++ [(s, e)]) = holders tr := by
    rw [holders_concat, if_neg hlock, List.append_nil]
  obtain ⟨hconsumed, hconsumedBy⟩ := h.taken_kept hfill htaken
  constructor
  · rw [hconsumed]
    exact hpos.trans h.msgPos
  · intro c
    dsimp only
    rw [hholders, h.entered, entered_update hentered]
  · rw [hholders]
    exact h.nodup
  · rw [hholders, hconsumed, takenBy_update_of_eq htaken]
    exact h.stream
  · exact hconsumedBy
  · rw [hholders]
    exact hphase

omit [DecidableEq C] in
theorem Phase.callOk {l l₁ l₂ : List C} (h : Phase count s l) (hl : l = l₁ ++ c :: l₂) :
    CallOk (count c) (takenBy s.ctrl l₁).length (s.ctrl c) := by
  cases h with
  | free _ hsettled => exact (hsettled l₁ c l₂ hl).1
  | held _ hsettled _ hok _ =>
      rcases snoc_eq_append_cons hl with ⟨rfl, rfl, -⟩ | ⟨l₃, -, hl'⟩
      · exact hok
      · exact (hsettled l₁ c l₃ hl').1

/-- A call that has never had the lock. -/
theorem Phase.update_of_notMem {l : List C} {k : Ctrl} (h : Phase count s l) (hc : c ∉ l) :
    Phase count ⟨s.globals, Function.update s.ctrl c k⟩ l := by
  cases h with
  | free hlock hsettled => exact .free hlock (hsettled.update_of_notMem hc)
  | @held l c' hlock hsettled hnotMem hok hholds =>
      have hl : c ∉ l := fun h => hc (List.mem_append_left _ h)
      have hne : c' ≠ c := by
        rintro rfl
        exact hc (List.mem_append_right _ (List.mem_singleton_self _))
      refine .held hlock (hsettled.update_of_notMem hl) hnotMem ?_ ?_
      · dsimp only
        rw [takenBy_update_of_notMem hl, Function.update_of_ne hne]
        exact hok
      · dsimp only
        rw [Function.update_of_ne hne]
        exact hholds

/-- A call that does not hold the lock, and keeps what it has taken. -/
theorem Phase.update_of_eq {l : List C} {k : Ctrl} (h : Phase count s l)
    (hnot : ¬ (s.ctrl c).Holds) (hk : k.taken = (s.ctrl c).taken)
    (hok : ∀ start, CallOk (count c) start (s.ctrl c) → CallOk (count c) start k)
    (hholds : ¬ k.Holds) : Phase count ⟨s.globals, Function.update s.ctrl c k⟩ l := by
  cases h with
  | free hlock hsettled => exact .free hlock (hsettled.update_of_eq hk hok hholds)
  | @held l c' hlock hsettled hnotMem hok' hholds' =>
      have hne : c' ≠ c := by
        rintro rfl
        exact hnot hholds'
      refine .held hlock (hsettled.update_of_eq hk hok hholds) hnotMem ?_ ?_
      · dsimp only
        rw [takenBy_update_of_eq hk, Function.update_of_ne hne]
        exact hok'
      · dsimp only
        rw [Function.update_of_ne hne]
        exact hholds'

/-- The holder of the lock goes on. -/
theorem Phase.held_update {l : List C} {g : Globals} {k : Ctrl} (hlock : g.lock = 0)
    (hsettled : Settled count s.ctrl l) (hc : c ∉ l)
    (hok : CallOk (count c) (takenBy s.ctrl l).length k) (hholds : k.Holds) :
    Phase count ⟨g, Function.update s.ctrl c k⟩ (l ++ [c]) := by
  refine .held hlock (hsettled.update_of_notMem hc) hc ?_ ?_
  · dsimp only
    rw [takenBy_update_of_notMem hc, Function.update_self]
    exact hok
  · dsimp only
    rw [Function.update_self]
    exact hholds

/-- The holder of the lock gives it up. -/
theorem Phase.released {l : List C} {g : Globals} {k : Ctrl} (hlock : g.lock = 1)
    (hsettled : Settled count s.ctrl l) (hc : c ∉ l)
    (hok : CallOk (count c) (takenBy s.ctrl l).length k) (hholds : ¬ k.Holds) :
    Phase count ⟨g, Function.update s.ctrl c k⟩ (l ++ [c]) := by
  refine .free hlock ((hsettled.update_of_notMem hc).concat ?_ ?_)
  · rw [takenBy_update_of_notMem hc, Function.update_self]
    exact hok
  · rw [Function.update_self]
    exact hholds

theorem release_lock {g : Globals} (h : g.lock = 0) : (release variant g).lock = 1 := by
  cases variant with
  | mutex => rfl
  | semaphore => exact congrArg Nat.succ h

theorem release_msgPos (g : Globals) : (release variant g).msgPos = g.msgPos := by
  cases variant <;> rfl

/-- The length that a call calculates is the one for the characters taken so far. -/
theorem Inv.start_eq (h : Inv count tr s) {l : List C} (hl : holders tr = l ++ [c])
    (hnil : (s.ctrl c).taken = []) : (takenBy s.ctrl l).length = consumed tr := by
  have hstream := congrArg List.length h.stream
  rw [hl, takenBy_append, takenBy_singleton, hnil, List.append_nil, length_message] at hstream
  exact hstream

/-- The holder of the lock goes on, and has taken what it had taken. -/
theorem Inv.keep (h : Inv count tr s) {e : Event C} {k : Ctrl} (hlock : e.action ≠ .lock)
    (hfill : e.action ≠ .fill) (hholds : (s.ctrl e.call).Holds)
    (htaken : k.taken = (s.ctrl e.call).taken) (hk : k.Holds)
    (hok : ∀ l, holders tr = l ++ [e.call] →
      CallOk (count e.call) (takenBy s.ctrl l).length k) :
    Inv count (tr ++ [(s, e)]) ⟨s.globals, Function.update s.ctrl e.call k⟩ := by
  obtain ⟨l, hl, hfree, hsettled, hnotMem, -⟩ := h.holder hholds
  apply h.move hlock hfill rfl htaken (iff_of_true hk.entered hholds.entered)
  rw [hl]
  exact Phase.held_update hfree hsettled hnotMem (hok l hl) hk

/-- The holder of the lock releases it, and has taken what it had taken. -/
theorem Inv.unlock (h : Inv count tr s) {e : Event C} {k : Ctrl} (hlock : e.action ≠ .lock)
    (hfill : e.action ≠ .fill) (hholds : (s.ctrl e.call).Holds)
    (htaken : k.taken = (s.ctrl e.call).taken) (hentered : k.Entered) (hk : ¬ k.Holds)
    (hok : ∀ start, CallOk (count e.call) start (s.ctrl e.call) →
      CallOk (count e.call) start k) :
    Inv count (tr ++ [(s, e)])
      ⟨release variant s.globals, Function.update s.ctrl e.call k⟩ := by
  obtain ⟨l, hl, hfree, hsettled, hnotMem, hcall⟩ := h.holder hholds
  apply h.move hlock hfill (release_msgPos _) htaken (iff_of_true hentered hholds.entered)
  rw [hl]
  exact Phase.released (release_lock hfree) hsettled hnotMem (hok _ hcall) hk

/-- The lock is got. -/
theorem Inv.lock (h : Inv count tr s) {e : Event C} (he : e.action = .lock)
    (hk : s.ctrl e.call = .ready) (hpos : 0 < s.globals.lock) :
    Inv count (tr ++ [(s, e)])
      ⟨{ s.globals with lock := s.globals.lock - 1 }, Function.update s.ctrl e.call .locked⟩ := by
  have hnotMem : e.call ∉ holders tr := by
    rw [h.entered, hk]
    exact id
  have hholders : holders (tr ++ [(s, e)]) = holders tr ++ [e.call] := by
    rw [holders_concat, if_pos he]
  have hfill : e.action ≠ .fill := by
    rw [he]
    decide
  have htaken : Ctrl.locked.taken = (s.ctrl e.call).taken := by
    rw [hk]
    rfl
  obtain ⟨hconsumed, hconsumedBy⟩ := h.taken_kept hfill htaken
  constructor
  · rw [hconsumed]
    exact h.msgPos
  · intro c
    dsimp only
    rw [hholders, List.mem_append, List.mem_singleton, h.entered]
    by_cases hc : c = e.call
    · rw [hc, Function.update_self]
      exact iff_of_true (Or.inr rfl) trivial
    · rw [Function.update_of_ne hc, or_iff_left hc]
  · rw [hholders]
    exact List.nodup_append.2 ⟨h.nodup, List.nodup_singleton _, fun c hc c' hc' => by
      rintro rfl
      exact hnotMem (List.mem_singleton.1 hc' ▸ hc)⟩
  · dsimp only
    rw [hholders, hconsumed, takenBy_append, takenBy_singleton, takenBy_update_of_eq htaken,
      Function.update_self, h.stream]
    exact List.append_nil _
  · exact hconsumedBy
  · rw [hholders]
    have hphase := h.phase
    generalize holders tr = l at hphase hnotMem
    cases hphase with
    | free hlock hsettled =>
        refine Phase.held_update ?_ hsettled hnotMem trivial trivial
        show s.globals.lock - 1 = 0
        rw [hlock]
    | held hlock => omega

/-- A character is taken. -/
theorem Inv.fill (h : Inv count tr s) {e : Event C} (he : e.action = .fill) {n : ℤ}
    {buf : List UInt8} {b : UInt8} (hk : s.ctrl e.call = .filling n buf) (hlt : (buf.length : ℤ) < n)
    (hb : load msgStr (s.globals.msgPos.tmod msgLen) = .ok b) (hfew : consumed tr + 1 ≤ intMax) :
    Inv count (tr ++ [(s, e)])
      ⟨{ s.globals with msgPos := (s.globals.msgPos + 1).bmod intCard },
        Function.update s.ctrl e.call (.filling n (buf ++ [b]))⟩ := by
  have hholds : (s.ctrl e.call).Holds := by
    rw [hk]
    trivial
  obtain ⟨l, hl, hlock, hsettled, hnotMem, hok⟩ := h.holder hholds
  have hlockEvent : e.action ≠ .lock := by
    rw [he]
    decide
  have hholders : holders (tr ++ [(s, e)]) = l ++ [e.call] := by
    rw [holders_concat, if_neg hlockEvent, List.append_nil, hl]
  have hconsumed : consumed (tr ++ [(s, e)]) = consumed tr + 1 := by
    rw [consumed_concat, if_pos he]
  have hstream := h.stream
  rw [hl, takenBy_append, takenBy_singleton, hk] at hstream
  constructor
  · rw [hconsumed]
    show (s.globals.msgPos + 1).bmod intCard = _
    rw [h.msgPos]
    exact msgPos_succ hfew
  · intro c
    dsimp only
    have hentered : (Ctrl.filling n (buf ++ [b])).Entered ↔ (s.ctrl e.call).Entered := by
      rw [hk]
      exact Iff.rfl
    rw [hholders, ← hl, h.entered, entered_update hentered]
  · rw [hholders, ← hl]
    exact h.nodup
  · rw [h.msgPos, load_msgStr, Except.ok.injEq] at hb
    dsimp only
    rw [hholders, hconsumed, takenBy_append, takenBy_singleton, takenBy_update_of_notMem hnotMem,
      Function.update_self, message_succ, hb, ← hstream]
    exact (List.append_assoc ..).symm
  · intro c
    dsimp only
    rw [consumedBy_concat, h.consumedBy_eq]
    by_cases hc : c = e.call
    · rw [hc, Function.update_self, hk, if_pos ⟨he, rfl⟩]
      show buf.length + 1 = (buf ++ [b]).length
      rw [List.length_append, List.length_singleton]
    · rw [Function.update_of_ne hc, if_neg fun h => hc h.2.symm, Nat.add_zero]
  · rw [hholders]
    rw [hk] at hok
    refine Phase.held_update hlock hsettled hnotMem ⟨hok.1, ?_⟩ trivial
    rw [List.length_append, List.length_singleton]
    omega

/-- Every step keeps the invariant, as long as `msg_pos` does not overflow. -/
theorem Step.inv {e : Event C} {t : State C} (h : Inv count tr s) (hstep : Step variant count s e t)
    (hcopy : ∀ r, e.action = .copy r → r = 0) (hfew : consumed (tr ++ [(s, e)]) ≤ intMax) :
    Inv count (tr ++ [(s, e)]) t := by
  obtain ⟨g, k, hmoves, rfl⟩ := hstep.moves
  obtain ⟨c, action⟩ := e
  dsimp only at hmoves hcopy hfew ⊢
  generalize hk : s.ctrl c = k₀ at hmoves
  cases hmoves with
  | lock hpos => exact h.lock rfl hk hpos
  | interrupt =>
      have hnotMem : c ∉ holders tr := by
        rw [h.entered, hk]
        exact id
      apply h.move (by simp) (by simp) rfl _ _ (h.phase.update_of_notMem hnotMem)
      · rw [hk]
        rfl
      · rw [hk]
        exact Iff.rfl
  | kmalloc =>
      refine h.keep (by simp) (by simp) (by rw [hk]; trivial) (by rw [hk]; rfl) trivial ?_
      intro l hl
      have hstart := h.start_eq hl (by rw [hk]; rfl)
      rw [h.msgPos, lengthToCopy_natCast, hstart]
      exact ⟨rfl, Int.natCast_nonneg _⟩
  | kmallocFails =>
      refine h.keep (by simp) (by simp) (by rw [hk]; trivial) (by rw [hk]; rfl) trivial ?_
      exact fun _ _ => trivial
  | unlockFailed =>
      refine h.unlock (by simp) (by simp) (by rw [hk]; trivial) (by rw [hk]; rfl) trivial id ?_
      exact fun _ _ => trivial
  | fill hlt hb =>
      rw [consumed_concat, if_pos rfl] at hfew
      exact h.fill rfl hk hlt hb hfew
  | crash hlt he =>
      rw [h.msgPos, load_msgStr] at he
      cases he
  | @unlock n buf hge =>
      refine h.unlock (by simp) (by simp) (by rw [hk]; trivial) (by rw [hk]; rfl) trivial id ?_
      intro start hok
      rw [hk] at hok
      obtain ⟨hn, hle⟩ := hok
      have hlength : (buf.length : ℤ) = n := le_antisymm hle hge
      exact Int.natCast_inj.1 (hlength.trans hn)
  | @copy buf r hr =>
      obtain rfl := hcopy r rfl
      rw [Nat.sub_zero, List.take_length]
      have htaken : (Ctrl.done (.ok buf.length) buf).taken = (s.ctrl c).taken := by
        rw [hk]
        rfl
      apply h.move (by simp) (by simp) rfl htaken (by rw [hk]; exact Iff.rfl)
      apply h.phase.update_of_eq (by rw [hk]; exact id) htaken _ id
      intro start hok
      rw [hk] at hok
      exact ⟨rfl, hok⟩

end Step

/-! ### Runs -/

theorem inv_of_run {variant : Variant} {count : C → ℕ} {tr : List (State C × Event C)} {s : State C}
    (h : Run (Step variant count) {} tr s) (hcopy : CopiesSucceed tr) (hfew : consumed tr ≤ intMax) :
    Inv count tr s := by
  induction h with
  | nil => exact Inv.init
  | @snoc tr s t e hrun hstep ih =>
      have hle : consumed tr ≤ intMax := by
        rw [consumed_concat] at hfew
        omega
      have hs := ih (fun p hp => hcopy p (List.mem_append_left _ hp)) hle
      exact Step.inv hs hstep (hcopy (s, e) (by simp)) hfew

/-- Calls that run at the same time read the message as one stream, whichever of them fail. -/
theorem simpleRead_stream {variant : Variant} {count : C → ℕ} {tr : List (State C × Event C)}
    {s : State C} (h : Run (Step variant count) {} tr s) (hcopy : CopiesSucceed tr)
    (hfew : consumed tr ≤ intMax) : StreamOk count tr s := by
  have hs := inv_of_run h hcopy hfew
  constructor
  · exact hs.stream
  · exact hs.nodup
  · intro c n buf hc
    rw [hs.entered, hc]
    trivial
  · intro l₁ c l₂ n buf hl hc
    have hok := hs.phase.callOk hl
    rwa [hc] at hok
  · intro c e buf hc
    rw [hs.consumedBy_eq, hc]
    rfl
  · intro hfree
    have hphase := hs.phase
    generalize holders tr = l at hphase
    cases hphase with
    | free hlock => exact hlock
    | held _ _ _ _ hholds => exact absurd hholds (hfree _)

/-- Three calls that ask for two characters each; the second one to get the lock fails. -/
def threeCalls : List (Event (Fin 3)) :=
  [⟨0, .lock⟩, ⟨0, .kmalloc⟩, ⟨0, .fill⟩, ⟨0, .fill⟩, ⟨0, .unlock⟩, ⟨2, .lock⟩, ⟨2, .kmallocFails⟩,
    ⟨0, .copy 0⟩, ⟨2, .unlock⟩, ⟨1, .lock⟩, ⟨1, .kmalloc⟩, ⟨1, .fill⟩, ⟨1, .fill⟩, ⟨1, .unlock⟩,
    ⟨1, .copy 0⟩]

theorem simpleRead_stream_three : ∃ (tr : List (State (Fin 3) × Event (Fin 3))) (s : _),
    Run (Step .semaphore fun _ => 2) {} tr s ∧ holders tr = [0, 2, 1] ∧
      takenBy s.ctrl [0, 2, 1] = [45, 48, 49, 50] ∧ StreamOk (fun _ => 2) tr s := by
  have hreplay : replay (exec .semaphore fun _ : Fin 3 => 2) threeCalls {} = some _ := rfl
  have hrun : Run (Step .semaphore fun _ => 2) {} _ _ :=
    run_of_replay (fun _ _ _ h => h) hreplay
  have hcopy : ∀ e ∈ threeCalls, ∀ r, e.action = .copy r → r = 0 := by
    simp [threeCalls]
  refine ⟨_, _, hrun, by decide, by decide, simpleRead_stream hrun ?_ (by decide)⟩
  exact fun p hp r => hcopy p.2 (label_mem_of_mem_record hp) r

end SimpleSync
