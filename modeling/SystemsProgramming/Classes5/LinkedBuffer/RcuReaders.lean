import SystemsProgramming.Classes5.LinkedBuffer.Appends
import SystemsProgramming.Classes5.LinkedBuffer.Clearing
import SystemsProgramming.Classes5.LinkedBuffer.Reading

/-!
# Traversals while the list grows

Without clear commands the list only grows at its end, so the nodes a traversal has come to are always
a prefix of it, and a traversal that finds the end of the list has come to all of it; the call returns
what it copied of these nodes (`reader_sees_prefix`).  The proof uses no lock, so it covers the RCU
variant, where writers insert during the traversal.
-/

namespace LinkedBuffer.Traversal

open Transition

/-! ### The bytes of the nodes seen -/

/-- From a position between two entries the loop copies what the entries have from there on, and
goes to their end. -/
theorem readEntries_of_boundary {count fPos k : ℕ} {l l' : List Data} (hl : l <+: l')
    (hk : fPos = lengthOf (l'.take k)) :
    (readEntries count fPos l {}).userBuf = ((contentsOf l).drop fPos).take count ∧
      (readEntries count fPos l {}).copied = (readEntries count fPos l {}).userBuf.length ∧
      fPos + (readEntries count fPos l {}).realLength = max fPos (lengthOf l) := by
  obtain ⟨rest, rfl⟩ := hl
  by_cases hle : k ≤ l.length
  · rw [List.take_append_of_le_length hle] at hk
    have hread := readEntries_append count (l.take k) (l.drop k)
    rw [List.take_append_drop, ← hk] at hread
    have hdrop : (contentsOf l).drop fPos = contentsOf (l.drop k) := by
      conv_lhs => rw [← List.take_append_drop k l, contentsOf_append]
      rw [hk, ← length_contentsOf, List.drop_left]
    have hlength : lengthOf l = fPos + lengthOf (l.drop k) := by
      conv_lhs => rw [← List.take_append_drop k l, lengthOf_append]
      rw [hk]
    rw [hread, hdrop]
    refine ⟨rfl, ?_, ?_⟩
    · rw [List.length_take, length_contentsOf, Nat.min_comm]
    · show fPos + lengthOf (l.drop k) = max fPos (lengthOf l)
      omega
  · -- the loop has not come to `*f_pos`
    have hlong : lengthOf l ≤ fPos := by
      rw [hk, List.take_append, List.take_of_length_le (by omega), lengthOf_append]
      exact Nat.le_add_right _ _
    rw [readEntries_skip (by simpa using hlong), List.drop_eq_nil_of_le (by rwa [length_contentsOf])]
    exact ⟨by simp, rfl, (Nat.max_eq_left hlong).symm⟩

/-! ### What a step keeps -/

section Steps

variable {C : Type} [DecidableEq C] {variant : Variant} {input : Input} {c : C}
  {m m' : Memory C} {k k' : Ctrl C} {req : Request}

/-- The call is not about to clear, and its offset is that of a chunk. -/
def Ctrl.Appends : Ctrl C → Prop
  | .loop i _ | .locking i _ _ | .inserting i _ _ | .unlocking i _ _ | .syncing i _ _ _
  | .adding i _ _ => internalSize ∣ i
  | .clearing .. | .cleaning .. | .advancing .. | .resetting .. => False
  | _ => True

theorem Moves.appends (h : Moves variant input c m req k m' k') (hclear : ¬ HasClear req.userBuf)
    (hk : k.Appends) : k'.Appends := by
  cases h with
  | @findClear u f₀ i f hi hcmp =>
      obtain ⟨j, rfl⟩ := hk
      exact hclear ⟨j, (strncmp_newData hi).1 hcmp⟩
  | beginWrite => exact Nat.dvd_zero _
  | prepare | lock | insert | unlockRcu | unlock | synchronize => exact hk
  | add => exact Nat.dvd_add hk (Nat.dvd_refl _)
  | cleanNothing | clean | unlink | endClean | advance | reset => exact hk.elim
  | _ => trivial

/-- Without clear commands the list grows at its end. -/
theorem Moves.list_grows (h : Moves variant input c m req k m' k') (hk : k.Appends) :
    m.list <+: m'.list := by
  cases h with
  | startTraversal _ hlock => exact (lockRead_memory hlock).1 ▸ List.prefix_rfl
  | lock _ hlock => exact (lockWrite_memory hlock).1 ▸ List.prefix_rfl
  | failTraversal | endTraversal => exact (unlockRead_memory variant c m).1 ▸ List.prefix_rfl
  | insert => exact List.prefix_append _ _
  | unlink => exact hk.elim
  | _ => exact List.prefix_rfl

/-- What a traversal has done while the list is `l`. -/
def Reads (l : List Node) : Request → Ctrl C → Prop
  | .read count fPos, .stepping cursor v seen start =>
    start <+: l ∧ seen <+: l ∧ cursor = seen.getLast? ∧
      v = readEntries count fPos (seen.map Node.data) {}
  | .read count fPos, .visiting n v seen start =>
    start <+: l ∧ seen <+: l ∧
      ∃ pre, seen = pre ++ [n] ∧ v = readEntries count fPos (pre.map Node.data) {}
  | .read count fPos, .leaving cursor v seen start failed =>
    seen <+: l ∧ (cursor = none → start <+: seen) ∧
      (failed = false → (cursor ≠ none → count ≤ v.copied) ∧
        v = readEntries count fPos (seen.map Node.data) {})
  | _, _ => True

omit [DecidableEq C] in
theorem Reads.mono {l l' : List Node} (hl : l <+: l') (h : Reads l req k) : Reads l' req k := by
  cases req with
  | write u f => trivial
  | read n f =>
      cases k with
      | stepping => exact ⟨h.1.trans hl, h.2.1.trans hl, h.2.2⟩
      | visiting => exact ⟨h.1.trans hl, h.2.1.trans hl, h.2.2⟩
      | leaving => exact ⟨h.1.trans hl, h.2⟩
      | _ => trivial

theorem readEntries_snoc (count fPos : ℕ) (l : List Data) (d : Data) :
    readEntries count fPos (l ++ [d]) {} =
      (readEntry count fPos d (readEntries count fPos l {})).1 := by
  rw [readEntries, List.foldl_append]
  rfl

theorem copied_of_break {n f : ℕ} {d : Data} {v v' : ReadVars} (h : readEntry n f d v = (v', true)) :
    n ≤ v'.copied := by
  by_cases hv : v.Skips f
  · rw [readEntry_of_skips d hv] at h
    cases h
  · rw [readEntry_of_not_skips d hv, Prod.mk.injEq] at h
    rw [← h.1]
    exact of_decide_eq_true h.2

theorem Moves.reads (h : Moves variant input c m req k m' k') (hl : m.list.Nodup)
    (hk : Reads m.list req k) : Reads m'.list req k' := by
  cases h with
  | startTraversal => exact ⟨List.prefix_rfl, List.nil_prefix, rfl, rfl⟩
  | endOfList hnext =>
      obtain ⟨hstart, hseen, rfl, hv⟩ := hk
      obtain ⟨rest, hrest, hhead⟩ := head?_of_nextOf hl hseen hnext
      obtain rfl : rest = [] := List.head?_eq_none_iff.1 hhead.symm
      rw [List.append_nil] at hrest
      exact ⟨hseen, fun _ => hrest ▸ hstart, fun _ => ⟨fun h => absurd rfl h, hv⟩⟩
  | @next n f cursor v seen start d hnext =>
      obtain ⟨hstart, hseen, rfl, hv⟩ := hk
      obtain ⟨rest, hrest, hhead⟩ := head?_of_nextOf hl hseen hnext
      obtain ⟨rest', rfl⟩ := List.head?_eq_some_iff.1 hhead.symm
      refine ⟨hstart, ⟨rest', ?_⟩, seen, rfl, hv⟩
      rw [hrest, List.append_assoc, List.singleton_append]
  | copyFails => exact ⟨hk.2.1, nofun, nofun⟩
  | @readLast n f d v v' seen start hread =>
      obtain ⟨hstart, hseen, pre, rfl, rfl⟩ := hk
      refine ⟨hseen, nofun, fun _ => ⟨fun _ => copied_of_break hread, ?_⟩⟩
      rw [List.map_append, List.map_singleton, readEntries_snoc, hread]
  | @readOn n f d v v' seen start hread =>
      obtain ⟨hstart, hseen, pre, rfl, rfl⟩ := hk
      refine ⟨hstart, hseen, by rw [List.getLast?_concat], ?_⟩
      rw [List.map_append, List.map_singleton, readEntries_snoc, hread]
  | _ => trivial

end Steps

/-! ### Runs -/

section Runs

variable {C : Type} [DecidableEq C] {variant : Variant} {req : C → Request} {s s' : State C}
  {e : Event C} {tr : List (State C × Event C)}

/-- What holds as long as no call clears. -/
structure Growing (req : C → Request) (s : State C) : Prop where
  inv : Inv s
  appends : ∀ c, (s.ctrl c).Appends
  reads : ∀ c, Reads s.memory.list (req c) (s.ctrl c)

omit [DecidableEq C] in
theorem growing_init : Growing req ({} : State C) := by
  refine ⟨inv_init, fun _ => trivial, fun c => ?_⟩
  cases req c <;> trivial

omit [DecidableEq C] in
theorem targets_of_appends {k : Ctrl C} (h : k.Appends) : k.targets = [] := by
  cases k with
  | cleaning | advancing => exact h.elim
  | _ => rfl

omit [DecidableEq C] in
/-- Where no call clears, nothing disturbs a clear. -/
theorem Growing.undisturbed (hG : Growing req s) (e : Event C) : Undisturbed variant s e := by
  have hcall := hG.appends e.call
  rw [Undisturbed]
  split
  · rename_i hclearing
    rw [hclearing] at hcall
    exact hcall.elim
  · exact Or.inr fun c => targets_of_appends (hG.appends c)
  · trivial

theorem Growing.step (hG : Growing req s) (hclear : ∀ c, ¬ HasClear (req c).userBuf)
    (h : Step variant req s e s') : Growing req s' := by
  have hinv : Inv s' := hG.inv.step (hG.undisturbed e) h
  obtain ⟨m, k, hm, rfl⟩ := h.moves
  refine ⟨hinv, ?_, ?_⟩
  · exact (Function.forall_update_iff s.ctrl fun _ k => k.Appends).2
      ⟨hm.appends (hclear e.call) (hG.appends e.call), fun c _ => hG.appends c⟩
  · have hgrows : s.memory.list <+: m.list := hm.list_grows (hG.appends e.call)
    exact (Function.forall_update_iff s.ctrl fun c k => Reads m.list (req c) k).2
      ⟨hm.reads hG.inv.sound.nodup (hG.reads e.call), fun c _ => (hG.reads c).mono hgrows⟩

theorem growing_of_run (hclear : ∀ c, ¬ HasClear (req c).userBuf)
    (h : Run (Step variant req) {} tr s) : Growing req s :=
  h.invariant (fun _ _ _ hG hs => hG.step hclear hs) growing_init

/-! ### What a traversal has done in a run -/

/-- The node for which the next step of the call runs the loop body. -/
def Ctrl.visits : Ctrl C → Option Node
  | .visiting n _ _ _ => some n
  | _ => none

/-- The node for which the step runs the loop body of `c`. -/
def visit (c : C) (p : State C × Event C) : Option Node :=
  if p.2.call = c then (p.1.ctrl c).visits else none

/-- In the run `tr` the call `c` began its traversal on the list `start`, and has run the loop body for
the nodes `seen`. -/
structure Traversed (tr : List (State C × Event C)) (c : C) (start seen : List Node) : Prop where
  began : ∃ p ∈ tr, p.2.call = c ∧ p.1.ctrl c = .entering ∧ p.1.memory.list = start
  visited : tr.filterMap (visit c) = seen

/-- The step of `c` that leads from the run `tr` to the state `s` takes it to `k`. -/
structure ComesTo (variant : Variant) (req : C → Request) (tr : List (State C × Event C))
    (s : State C) (c : C) (k : Ctrl C) : Prop where
  run : Run (Step variant req) {} tr s
  last : ∃ p, tr.getLast? = some p ∧ p.2.call = c
  ctrl : s.ctrl c = k

/-- In the run `tr` the call `c` has come to the end of a traversal, with what it copied in `v`. -/
def Ended (variant : Variant) (req : C → Request) (tr : List (State C × Event C)) (c : C)
    (v : ReadVars) : Prop :=
  ∃ tr₁ s₁ cursor seen start, tr₁ <+: tr ∧
    ComesTo variant req tr₁ s₁ c (.leaving cursor v seen start false)

/-- What is recorded at a place of `linked_read` is what the run `tr` has done. -/
def Recorded (variant : Variant) (req : C → Request) (tr : List (State C × Event C)) (c : C)
    (fPos : ℕ) : Ctrl C → Prop
  | .ready | .checking | .entering | .done .early => tr.filterMap (visit c) = []
  | .stepping _ _ seen start => Traversed tr c start seen
  | .visiting n _ seen start => ∃ pre, seen = pre ++ [n] ∧ Traversed tr c start pre
  | .leaving _ v seen start failed =>
      Traversed tr c start seen ∧ (failed = false → Ended variant req tr c v)
  | .countingRead v | .done (.read v) => Ended variant req tr c v
  | .done (.failed _ f) => f = fPos
  | .done (.wrote _) | .done (.cleared _) => False
  | _ => True

variable {c : C}

theorem filterMap_visit_of_none {p : State C × Event C} (h : visit c p = none) :
    (tr ++ [p]).filterMap (visit c) = tr.filterMap (visit c) := by
  rw [List.filterMap_append, List.filterMap_cons_none h, List.filterMap_nil, List.append_nil]

theorem Traversed.skip {start seen : List Node} (h : Traversed tr c start seen)
    {p : State C × Event C} (hp : visit c p = none) : Traversed (tr ++ [p]) c start seen := by
  obtain ⟨q, hq, hstart⟩ := h.began
  exact ⟨⟨q, List.mem_append_left _ hq, hstart⟩, (filterMap_visit_of_none hp).trans h.visited⟩

theorem Traversed.snoc {start seen : List Node} (h : Traversed tr c start seen)
    {p : State C × Event C} {n : Node} (hp : visit c p = some n) :
    Traversed (tr ++ [p]) c start (seen ++ [n]) := by
  obtain ⟨q, hq, hstart⟩ := h.began
  refine ⟨⟨q, List.mem_append_left _ hq, hstart⟩, ?_⟩
  rw [List.filterMap_append, h.visited, List.filterMap_cons_some hp, List.filterMap_nil]

theorem Ended.snoc {v : ReadVars} (h : Ended variant req tr c v) (p : State C × Event C) :
    Ended variant req (tr ++ [p]) c v := by
  obtain ⟨tr₁, s₁, cursor, seen, start, hsub, hcame⟩ := h
  exact ⟨tr₁, s₁, cursor, seen, start, hsub.trans (List.prefix_append ..), hcame⟩

/-- The steps of the other calls leave the records as they are. -/
theorem Recorded.skip {fPos : ℕ} {k : Ctrl C} (h : Recorded variant req tr c fPos k) {p : State C × Event C}
    (hp : visit c p = none) : Recorded variant req (tr ++ [p]) c fPos k := by
  cases k with
  | ready | checking | entering => exact (filterMap_visit_of_none hp).trans h
  | stepping => exact Traversed.skip h hp
  | visiting =>
      obtain ⟨pre, hpre, htr⟩ := h
      exact ⟨pre, hpre, htr.skip hp⟩
  | leaving => exact ⟨h.1.skip hp, fun hf => (h.2 hf).snoc p⟩
  | countingRead => exact Ended.snoc h p
  | done r =>
      cases r with
      | early => exact (filterMap_visit_of_none hp).trans h
      | read => exact Ended.snoc h p
      | failed | wrote | cleared => exact h
  | _ => trivial

/-- A step of the call itself. -/
theorem Recorded.step {count fPos : ℕ} {m : Memory C} {k k' : Ctrl C}
    (h : Recorded variant req tr c fPos k) (hcall : e.call = c) (hctrl : s.ctrl c = k)
    (hm : Moves variant e.input c s.memory (.read count fPos) k m k')
    (hcame : ComesTo variant req (tr ++ [(s, e)]) s' c k') :
    Recorded variant req (tr ++ [(s, e)]) c fPos k' := by
  have hvisit : visit c (s, e) = k.visits := by
    rw [visit, if_pos hcall, hctrl]
  cases hm with
  | beginRead | early | enter => exact (filterMap_visit_of_none hvisit).trans h
  | startTraversal _ hlock =>
      refine ⟨⟨(s, e), by simp, hcall, hctrl, (lockRead_memory hlock).1.symm⟩, ?_⟩
      exact (filterMap_visit_of_none hvisit).trans h
  | endOfList =>
      exact ⟨Traversed.skip h hvisit, fun _ => ⟨_, _, _, _, _, List.prefix_rfl, hcame⟩⟩
  | next => exact ⟨_, rfl, Traversed.skip h hvisit⟩
  | copyFails =>
      obtain ⟨pre, rfl, htr⟩ := h
      exact ⟨htr.snoc hvisit, nofun⟩
  | readLast =>
      obtain ⟨pre, rfl, htr⟩ := h
      exact ⟨htr.snoc hvisit, fun _ => ⟨_, _, _, _, _, List.prefix_rfl, hcame⟩⟩
  | readOn =>
      obtain ⟨pre, rfl, htr⟩ := h
      exact htr.snoc hvisit
  | endTraversal => exact (h.2 rfl).snoc _
  | countRead => exact Ended.snoc h _
  | signalRead | failTraversal => rfl

/-- What is recorded of a read is what the run has done. -/
theorem recorded_of_run (h : Run (Step variant req) {} tr s) {count fPos : ℕ}
    (hreq : req c = .read count fPos) : Recorded variant req tr c fPos (s.ctrl c) := by
  induction h with
  | nil => rfl
  | @snoc tr s s' e hrun hs ih =>
      have hrun' := hrun.snoc hs
      obtain ⟨m, k, hm, rfl⟩ := hs.moves
      by_cases hcall : e.call = c
      · rw [hcall] at hm hrun' ⊢
        rw [hreq] at hm
        have hk : Function.update s.ctrl c k c = k := Function.update_self ..
        show Recorded variant req _ c fPos (Function.update s.ctrl c k c)
        rw [hk]
        exact ih.step hcall rfl hm ⟨hrun', ⟨_, List.getLast?_concat, hcall⟩, hk⟩
      · have hk : Function.update s.ctrl e.call k c = s.ctrl c :=
          Function.update_of_ne (Ne.symm hcall) ..
        show Recorded variant req _ c fPos (Function.update s.ctrl e.call k c)
        rw [hk]
        exact ih.skip (if_neg hcall)

/-- What holds at the end of a traversal that began on the list `start` and has come to the nodes
`seen`, the last of them or the list head being `cursor`, while the list is `l`. -/
structure SeesPrefix (count fPos : ℕ) (l : List Node) (cursor : Option Node) (v : ReadVars)
    (seen start : List Node) (failed : Bool) : Prop where
  seen_isPrefix : seen <+: l
  start_isPrefix : cursor = none → start <+: seen
  count_le : failed = false → cursor ≠ none → count ≤ v.copied
  /-- from a position between two entries, what has been copied to the user -/
  userBuf_eq : failed = false → (∃ k, fPos = lengthOf ((l.map Node.data).take k)) →
    v.userBuf = ((contentsOf (seen.map Node.data)).drop fPos).take count
  /-- and the number that is returned, with the new `*f_pos` -/
  result_eq : failed = false → (∃ k, fPos = lengthOf ((l.map Node.data).take k)) →
    (Return.read v).result (.read count fPos) =
      (.ok v.userBuf.length, max fPos (lengthOf (seen.map Node.data)))

omit [DecidableEq C] in
theorem Growing.seesPrefix (hG : Growing req s) {count fPos : ℕ} {cursor : Option Node}
    {v : ReadVars} {seen start : List Node} {failed : Bool} (hreq : req c = .read count fPos)
    (hc : s.ctrl c = .leaving cursor v seen start failed) :
    SeesPrefix count fPos s.memory.list cursor v seen start failed := by
  have hreads := hG.reads c
  rw [hreq, hc] at hreads
  obtain ⟨hseen, hstart, hv⟩ := hreads
  have hcopied : failed = false →
      (∃ k, fPos = lengthOf ((s.memory.list.map Node.data).take k)) → _ :=
    fun _ ⟨_, hk⟩ => @readEntries_of_boundary count fPos _ _ _ (hseen.map Node.data) hk
  refine ⟨hseen, hstart, fun hf => (hv hf).1, fun hf hk => ?_, fun hf hk => ?_⟩
  · rw [(hv hf).2]
    exact (hcopied hf hk).1
  · obtain ⟨-, hlength, hpos⟩ := hcopied hf hk
    rw [(hv hf).2]
    show (Except.ok _, _) = _
    rw [hlength, hpos]

/-- At the end of a traversal the nodes it has come to are a prefix of the list.  If it came to the end
of the list, they include the list as it was at the start; otherwise the count was reached or copying
failed.  From a position between two entries it has copied the bytes of the nodes from there on, up to
the count; a call that returns what it has copied returns what such a traversal of its own has, and one
that returns anything else has failed or visited nothing. -/
theorem reader_sees_prefix (hclear : ∀ c, ¬ HasClear (req c).userBuf)
    (h : Run (Step variant req) {} tr s) {c : C} {count fPos : ℕ} (hreq : req c = .read count fPos) :
    (∀ cursor v seen start failed, s.ctrl c = .leaving cursor v seen start failed →
      Traversed tr c start seen ∧ SeesPrefix count fPos s.memory.list cursor v seen start failed) ∧
    (∀ v, s.ctrl c = .countingRead v ∨ s.ctrl c = .done (.read v) →
      ∃ tr₁ s₁ cursor seen start, tr₁ <+: tr ∧
        ComesTo variant req tr₁ s₁ c (.leaving cursor v seen start false) ∧
        Traversed tr₁ c start seen ∧
        SeesPrefix count fPos s₁.memory.list cursor v seen start false) ∧
    ∀ r, s.ctrl c = .done r → (∃ v, r = .read v) ∨ (∃ err, r = .failed err fPos) ∨
      r = .early ∧ tr.filterMap (visit c) = [] := by
  have hrecorded := recorded_of_run h hreq
  refine ⟨?_, ?_, ?_⟩
  · intro cursor v seen start failed hc
    rw [hc] at hrecorded
    exact ⟨hrecorded.1, (growing_of_run hclear h).seesPrefix hreq hc⟩
  · intro v hc
    obtain ⟨tr₁, s₁, cursor, seen, start, hsub, hended⟩ : Ended variant req tr c v := by
      rcases hc with hc | hc <;> rwa [hc] at hrecorded
    have htraversed := recorded_of_run hended.run hreq
    rw [hended.ctrl] at htraversed
    exact ⟨tr₁, s₁, cursor, seen, start, hsub, hended, htraversed.1,
      (growing_of_run hclear hended.run).seesPrefix hreq hended.ctrl⟩
  · intro r hr
    rw [hr] at hrecorded
    cases r with
    | early => exact Or.inr (Or.inr ⟨rfl, hrecorded⟩)
    | read v => exact Or.inl ⟨v, rfl⟩
    | failed err f => exact Or.inr (Or.inl ⟨err, by rw [show f = fPos from hrecorded]⟩)
    | wrote | cleared => exact hrecorded.elim

end Runs

/-- A traversal of the RCU variant starts after the first of two insertions, sees both nodes, and
returns their bytes. -/
theorem reader_sees_prefix_growing :
    ∃ (s₁ s : State Bool) (v : ReadVars) (seen start : List Node)
      (tr : List (State Bool × Event Bool)), s₁.ctrl false = .leaving none v seen start false ∧ start.length = 1 ∧ seen.length = 2 ∧
        SeesPrefix 10 0 s₁.memory.list none v seen start false ∧
      s.ctrl false = .done (.read v) ∧ v.userBuf = [1, 2, 3, 4, 5] ∧
        ∃ (tr₁ : List (State Bool × Event Bool)) (s₂ : State Bool) (cursor : Option Node)
          (seen start : List Node), tr₁ <+: tr ∧ Traversed tr₁ false start seen ∧
          SeesPrefix 10 0 s₂.memory.list cursor v seen start false := by
  let req : Bool → Request := fun c => if c then .write [1, 2, 3, 4, 5] 0 else .read 10 0
  let events : List (Event Bool) :=
    List.replicate 8 ⟨true, {}⟩ ++ List.replicate 5 ⟨false, {}⟩ ++ List.replicate 2 ⟨true, {}⟩ ++
      List.replicate 3 ⟨false, {}⟩
  have hs₁ : (replay (exec .rcu req) events {}).isSome := rfl
  let s₁ := (replay (exec .rcu req) events {}).get hs₁
  have hs : (replay (exec .rcu req) (List.replicate 2 ⟨false, {}⟩) s₁).isSome := rfl
  let s := (replay (exec .rcu req) (List.replicate 2 ⟨false, {}⟩) s₁).get hs
  have hrun₁ : Run (Step .rcu req) {} _ s₁ :=
    run_of_replay (fun _ _ _ h => h) (Option.some_get hs₁).symm
  have hrun : Run (Step .rcu req) {} _ s :=
    hrun₁.trans (run_of_replay (fun _ _ _ h => h) (Option.some_get hs).symm)
  have hreq : req false = .read 10 0 := rfl
  have hends := reader_sees_prefix (c := false) (by decide) hrun₁ hreq
  have hreturns := reader_sees_prefix (c := false) (by decide) hrun hreq
  obtain ⟨tr₁, s₂, cursor, seen, start, hsub, -, htr, hsees⟩ := hreturns.2.1 _ (Or.inr rfl)
  exact ⟨s₁, s, _, _, _, _, rfl, rfl, rfl, (hends.1 _ _ _ _ _ rfl).2, rfl, rfl, tr₁, s₂, cursor, seen,
    start, hsub, htr, hsees⟩

end LinkedBuffer.Traversal
