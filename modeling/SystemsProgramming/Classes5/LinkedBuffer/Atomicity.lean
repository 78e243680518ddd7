import SystemsProgramming.Classes5.LinkedBuffer.RcuReaders
import SystemsProgramming.Classes5.LinkedBuffer.Sections

/-!
# Locked sections are atomic

The converse of `run_of_sections`: as long as `clean_list` is not interrupted, calls that advance one
entry at a time cannot be told from calls whose locked sections are single steps.  A traversal takes
effect when it ends, even where a writer appends to the list in the middle of it; an insertion when
`list_add_tail` links the entry; a clear when it resets `total_length`.
-/

namespace LinkedBuffer

/-- `*f_pos` when the call begins. -/
def Request.fPos : Request → ℕ
  | .read _ fPos | .write _ fPos => fPos

section Coarse

variable {C : Type} [DecidableEq C] {variant : Variant} {req : C → Request} {S : State C} {c : C}

/-- The steps of one call, taken in a state of the system. -/
theorem run_of_alone {p : Module × Ctrl} (h : Alone variant (req c) (S.module, S.ctrl c) p) :
    ∃ tr, Transition.Run (Step variant req) S tr ⟨p.1, Function.update S.ctrl c p.2⟩ := by
  induction h with
  | refl => exact ⟨[], by simpa using .nil⟩
  | @tail p q _ hstep ih =>
      obtain ⟨tr, hrun⟩ := ih
      obtain ⟨input, hstep⟩ := hstep
      refine ⟨_, hrun.snoc (l := ⟨c, input⟩) ?_⟩
      rw [Step, exec]
      dsimp only
      rw [Function.update_self, hstep]
      simp

/-- A step of a call that returns after it. -/
theorem Alone.return {req : Request} {m m' : Module} {k : Ctrl} {r : Return} (input : Input)
    (h : callStep variant input m req k = some (m', .returning r)) :
    Alone variant req (m, k) (m', .done r) :=
  .head input h (alone_returning m' r)

end Coarse

namespace Traversal

open Transition

/-! ### Where a call is between two locked sections -/

section Places

variable {C : Type}

/-- The call is in `clean_list`, before it resets `total_length`. -/
def Ctrl.cleans : Ctrl C → Bool
  | .cleaning .. | .advancing .. | .resetting .. => true
  | _ => false

/-- The call with its locked section not yet performed, or performed. -/
def Ctrl.place (req : Request) : Ctrl C → LinkedBuffer.Ctrl
  | .ready => .ready
  | .checking => .checking
  | .entering | .stepping .. | .visiting .. => .reading
  | .leaving _ _ _ _ true => .returning (.failed .fault req.fPos)
  | .leaving _ v _ _ false => .countingRead v
  | .countingRead v => .countingRead v
  | .loop i f => .loop i f
  | .locking i f own | .inserting i f own => .locking i f own.data
  | .unlocking i f n | .syncing i f n _ | .adding i f n => .adding i f n.data
  | .clearing f _ | .cleaning f _ _ _ | .advancing f _ _ | .resetting f _ => .clearing f
  | .freeing _ r => .returning r
  | .countingWrite f => .countingWrite f
  | .done r => .done r

/-- The loop of `clean_list` begins while no other call traverses the list, and no other call takes
a step before it ends. -/
def Uninterrupted (s : State C) (e : Event C) : Prop :=
  (∀ c ≠ e.call, (s.ctrl c).cleans = false) ∧
    match s.ctrl e.call with
    | .clearing _ _ => ∀ c ≠ e.call, (s.ctrl c).traverses = false
    | _ => True

/-- The loop of `clean_list` is the next to come. -/
def Ctrl.begins : Ctrl C → Bool
  | .clearing _ _ => true
  | _ => false

theorem uninterrupted_iff {s : State C} {e : Event C} :
    ((∀ c ≠ e.call, (s.ctrl c).cleans = false) ∧
      ((s.ctrl e.call).begins = true → ∀ c ≠ e.call, (s.ctrl c).traverses = false)) ↔
      Uninterrupted s e := by
  refine and_congr_right fun _ => ?_
  cases s.ctrl e.call <;> simp [Ctrl.begins]

instance [Fintype C] [DecidableEq C] (s : State C) (e : Event C) : Decidable (Uninterrupted s e) :=
  decidable_of_iff _ uninterrupted_iff

theorem targets_of_not_cleans {k : Ctrl C} (h : k.cleans = false) : k.targets = [] := by
  cases k with
  | cleaning | advancing => cases h
  | _ => rfl

theorem Uninterrupted.undisturbed {variant : Variant} {s : State C} {e : Event C}
    (h : Uninterrupted s e) : Undisturbed variant s e := by
  obtain ⟨hclean, hclear⟩ := h
  rw [Undisturbed]
  split
  · rename_i fPos own hcall
    rw [hcall] at hclear
    exact Or.inr fun c hc => ⟨hclear c hc, targets_of_not_cleans (hclean c hc)⟩
  · rename_i hcall
    refine Or.inr fun c => ?_
    by_cases hc : c = e.call
    · rw [hc, hcall]
      rfl
    · exact targets_of_not_cleans (hclean c hc)
  · trivial

end Places

/-! ### What a traversal has computed -/

/-- The loop of `linked_read` has run for the entries `pre` without a fault or a `break`, to the
locals `v`. -/
def Computes (count fPos : ℕ) (pre : List Data) (v : ReadVars) : Prop :=
  ∀ faults rest, (∀ w : ReadVars, w.realLength < v.realLength → faults w = false) →
    readLoop count fPos faults (pre ++ rest) {} = readLoop count fPos faults rest v

section Computes

variable {count fPos : ℕ} {pre : List Data} {d : Data} {v v' : ReadVars}

theorem computes_nil : Computes count fPos [] {} := fun _ _ _ => rfl

/-- An entry that is not skipped counts for `real_length`. -/
theorem realLength_lt (count : ℕ) (d : Data) (hv : ¬ v.Skips fPos) :
    v.realLength < (readEntry count fPos d v).1.realLength := by
  rw [readEntry_of_not_skips d hv]
  exact Nat.lt_add_of_pos_right d.length_pos

theorem Computes.snoc (h : Computes count fPos pre v)
    (hread : readEntry count fPos d v = (v', false)) : Computes count fPos (pre ++ [d]) v' := by
  intro faults rest hfaults
  rw [List.append_assoc, List.singleton_append]
  by_cases hv : v.Skips fPos
  · have hlength : v'.realLength = v.realLength := by
      rw [readEntry_of_skips d hv] at hread
      cases hread
      rfl
    rw [h faults _ (hlength ▸ hfaults), readLoop, if_neg fun hf => hf.1 hv, hread]
    rfl
  · have hlt : v.realLength < v'.realLength := by
      have := realLength_lt count d hv
      rwa [hread] at this
    have hfault : ¬ (¬ v.Skips fPos ∧ faults v = true) := by
      rw [hfaults v hlt]
      simp
    rw [h faults _ fun w hw => hfaults w (hw.trans hlt), readLoop, if_neg hfault, hread]
    rfl

/-- The loop over the whole list, where the traversal comes to its end. -/
theorem Computes.readLoop_end (h : Computes count fPos pre v) :
    readLoop count fPos (fun _ => false) pre {} = (v, none) := by
  have := h (fun _ => false) [] fun _ _ => rfl
  rwa [List.append_nil] at this

/-- The loop over the whole list, where the traversal breaks at `d`. -/
theorem Computes.readLoop_break (h : Computes count fPos pre v)
    (hread : readEntry count fPos d v = (v', true)) (rest : List Data) :
    readLoop count fPos (fun _ => false) (pre ++ d :: rest) {} = (v', none) := by
  rw [h (fun _ => false) _ fun _ _ => rfl, readLoop, if_neg (by simp), hread]
  rfl

/-- The loop over the whole list, where `copy_to_user` fails at `d`. -/
theorem Computes.readLoop_fault (h : Computes count fPos pre v) (hv : ¬ v.Skips fPos)
    (rest : List Data) :
    readLoop count fPos (fun w => decide (w.realLength = v.realLength)) (pre ++ d :: rest) {} =
      (v, some .fault) := by
  rw [h _ _ fun w hw => decide_eq_false hw.ne, readLoop, if_pos ⟨hv, decide_eq_true rfl⟩]

end Computes

section Steps

variable {C : Type} [DecidableEq C] {variant : Variant} {input : Input} {c : C}
  {m m' : Memory C} {k k' : Ctrl C} {req : Request} {M : Module}

/-- What a traversal knows while the list is `l`. -/
def Seen (l : List Node) : Request → Ctrl C → Prop
  | .read count fPos, .stepping cursor v seen _ =>
    seen <+: l ∧ cursor = seen.getLast? ∧ Computes count fPos (seen.map Node.data) v
  | .read count fPos, .visiting n v seen _ =>
    seen <+: l ∧ ∃ pre, seen = pre ++ [n] ∧ Computes count fPos (pre.map Node.data) v
  | _, _ => True

omit [DecidableEq C] in
theorem Seen.mono {l l' : List Node} (hl : l <+: l') (h : Seen l req k) : Seen l' req k := by
  cases req with
  | write => trivial
  | read =>
      cases k with
      | stepping | visiting => exact ⟨h.1.trans hl, h.2⟩
      | _ => trivial

omit [DecidableEq C] in
theorem seen_of_not_traverses {l : List Node} (h : k.traverses = false) : Seen l req k := by
  cases req with
  | write => trivial
  | read =>
      cases k with
      | stepping | visiting => cases h
      | _ => trivial

theorem Moves.seen (h : Moves variant input c m req k m' k') (hl : m.list.Nodup)
    (hk : Seen m.list req k) : Seen m'.list req k' := by
  cases h with
  | startTraversal => exact ⟨List.nil_prefix, rfl, computes_nil⟩
  | @next n f cursor v seen start d hnext =>
      obtain ⟨hseen, rfl, hv⟩ := hk
      obtain ⟨rest, hrest, hhead⟩ := head?_of_nextOf hl hseen hnext
      obtain ⟨rest', rfl⟩ := List.head?_eq_some_iff.1 hhead.symm
      refine ⟨⟨rest', ?_⟩, seen, rfl, hv⟩
      rw [hrest, List.append_assoc, List.singleton_append]
  | @readOn n f d v v' seen start hread =>
      obtain ⟨hseen, pre, rfl, hv⟩ := hk
      refine ⟨hseen, by rw [List.getLast?_concat], ?_⟩
      rw [List.map_append, List.map_singleton]
      exact hv.snoc hread
  | _ => trivial

/-- Outside the loop of `clean_list` the list grows at its end. -/
theorem Moves.list_prefix (h : Moves variant input c m req k m' k') (hk : k.targets = []) :
    m.list <+: m'.list := by
  cases h with
  | startTraversal _ hlock => exact (lockRead_memory hlock).1 ▸ List.prefix_rfl
  | lock _ hlock => exact (lockWrite_memory hlock).1 ▸ List.prefix_rfl
  | failTraversal | endTraversal => exact (unlockRead_memory variant c m).1 ▸ List.prefix_rfl
  | insert => exact List.prefix_append _ _
  | unlink => cases hk
  | _ => exact List.prefix_rfl

/-- How far an uninterrupted `clean_list` has come. -/
def Cleaned (l : List Node) : Ctrl C → Prop
  | .cleaning _ _ cur tmp => ∃ rest, l = cur :: rest ∧ tmp = rest.head?
  | .advancing _ _ tmp => tmp = l.head?
  | .resetting _ _ => l = []
  | _ => True

theorem Moves.cleaned (h : Moves variant input c m req k m' k') (hk : Cleaned m.list k) :
    Cleaned m'.list k' := by
  cases h with
  | cleanNothing hl => exact hl
  | clean hl => exact ⟨_, hl, rfl⟩
  | @unlink u f₀ f own cur tmp =>
      obtain ⟨rest, hl, rfl⟩ := hk
      show rest.head? = (m.list.erase cur).head?
      rw [hl, List.erase_cons_head]
  | endClean => exact List.head?_eq_none_iff.1 hk.symm
  | @advance u f₀ f own n tmp hnext =>
      obtain ⟨rest, hl⟩ := List.head?_eq_some_iff.1 (Eq.symm hk)
      refine ⟨rest, hl, ?_⟩
      rw [hl, nextOf, if_pos (List.mem_cons_self ..), after, if_pos rfl] at hnext
      exact (Option.some.inj hnext).symm
  | _ => trivial

omit [DecidableEq C] in
theorem cleaned_of_not_cleans {l : List Node} (h : k.cleans = false) : Cleaned l k := by
  cases k with
  | cleaning | advancing | resetting => cases h
  | _ => trivial

/-- A call in `clean_list` was in it before the step, or about to call it. -/
theorem Moves.cleans (h : Moves variant input c m req k m' k') (hk : k'.cleans = true) :
    k.cleans = true ∨ ∃ fPos own, k = .clearing fPos own := by
  cases h with
  | cleanNothing | clean => exact Or.inr ⟨_, _, rfl⟩
  | unlink | endClean | advance => exact Or.inl rfl
  | _ => cases hk

/-! ### One step -/

omit [DecidableEq C] in
/-- The locks leave the globals of the module alone. -/
theorem lockRead_module (h : lockRead variant c m = some m') : m'.module = m.module := by
  cases variant with
  | mutex | semaphore | spinlock =>
      rw [lockRead] at h
      split at h <;> cases h
      rfl
  | rcu =>
      cases h
      rfl

omit [DecidableEq C] in
theorem lockWrite_module (h : lockWrite variant c m = some m') : m'.module = m.module := by
  rw [lockWrite] at h
  split at h <;> cases h
  rfl

theorem unlockRead_module (variant : Variant) (c : C) (m : Memory C) :
    (unlockRead variant c m).module = m.module := by
  cases variant <;> rfl

omit [DecidableEq C] in
/-- The entries around the one that a traversal is at. -/
theorem buffer_of_prefix {pre : List Node} {d : Node} (h : pre ++ [d] <+: m.list) :
    ∃ rest, m.module.buffer = pre.map Node.data ++ d.data :: rest := by
  obtain ⟨rest, hrest⟩ := h
  refine ⟨rest.map Node.data, ?_⟩
  rw [Memory.module, ← hrest, List.append_assoc, List.map_append]
  rfl

/-- The locked section of `linked_read` at once. -/
theorem alone_read {n f : ℕ} {v : ReadVars}
    (h : readLoop n f (fun _ => false) M.buffer {} = (v, none)) :
    Alone variant (.read n f) (M, .reading) (M, .countingRead v) := by
  refine .head {} ?_ .refl
  rw [LinkedBuffer.callStep, if_neg (Input.not_signals rfl), h]

theorem alone_readFails {n f : ℕ} {faults : ReadVars → Bool} {v : ReadVars} {e : Errno}
    (h : readLoop n f faults M.buffer {} = (v, some e)) :
    Alone variant (.read n f) (M, .reading) (M, .returning (.failed e f)) := by
  refine .head { faults := faults } ?_ .refl
  rw [LinkedBuffer.callStep, if_neg (Input.not_signals rfl), h]

/-- Outside `clean_list` a step is matched by the steps of the same call between two sections. -/
theorem Moves.alone (h : Moves variant input c m req k m' k') (hl : m.list.Nodup)
    (hseen : Seen m.list req k) (hk : k.cleans = false) :
    Alone variant req (m.module, k.place req) (m'.module, k'.place req) := by
  cases h with
  | beginRead | beginWrite => exact .head {} rfl .refl
  | early hlt => exact .return {} (if_pos hlt)
  | enter hle => exact .head {} (if_neg (Nat.not_lt_of_le hle)) .refl
  | signalRead hs => exact .return input (if_pos hs)
  | startTraversal _ hlock => exact lockRead_module hlock ▸ .refl
  | @endOfList n f cursor v seen start hnext =>
      obtain ⟨hseen, rfl, hv⟩ := hseen
      obtain ⟨rest, hrest, hhead⟩ := head?_of_nextOf hl hseen hnext
      obtain rfl : rest = [] := List.head?_eq_none_iff.1 hhead.symm
      rw [List.append_nil] at hrest
      refine alone_read ?_
      rw [show m.module.buffer = seen.map Node.data from congrArg _ hrest]
      exact hv.readLoop_end
  | @copyFails n f d v seen start hv hfault =>
      obtain ⟨hseen, pre, rfl, hpre⟩ := hseen
      obtain ⟨rest, hbuffer⟩ := buffer_of_prefix hseen
      exact alone_readFails (hbuffer ▸ hpre.readLoop_fault hv rest)
  | @readLast n f d v v' seen start hread =>
      obtain ⟨hseen, pre, rfl, hpre⟩ := hseen
      obtain ⟨rest, hbuffer⟩ := buffer_of_prefix hseen
      exact alone_read (hbuffer ▸ hpre.readLoop_break hread rest)
  | next | readOn => exact .refl
  | failTraversal => exact unlockRead_module variant c m ▸ alone_returning _ _
  | endTraversal => exact unlockRead_module variant c m ▸ .refl
  | countRead | countWrite => exact .return {} rfl
  | allocFails hi ho =>
      refine .return input ?_
      rw [Ctrl.place, LinkedBuffer.callStep, dif_pos hi, ho]
  | copyFromFails hi ho =>
      refine .head input ?_ .refl
      rw [Ctrl.place, LinkedBuffer.callStep, dif_pos hi, ho]
      rfl
  | findClear hi hcmp =>
      refine .head {} ?_ .refl
      rw [Ctrl.place, LinkedBuffer.callStep, dif_pos hi]
      exact if_pos hcmp
  | prepare hi hcmp =>
      refine .head {} ?_ .refl
      rw [Ctrl.place, LinkedBuffer.callStep, dif_pos hi]
      exact if_neg hcmp
  | endLoop hi =>
      refine .head {} ?_ .refl
      rw [Ctrl.place, LinkedBuffer.callStep, dif_neg (Nat.not_lt_of_le hi)]
      rfl
  | signalWrite hs => exact .head input (if_pos hs) .refl
  | lock _ hlock => exact lockWrite_module hlock ▸ .refl
  | insert =>
      refine .head {} ?_ .refl
      rw [Ctrl.place, LinkedBuffer.callStep, if_neg (Input.not_signals rfl), Memory.module,
        Memory.module, List.map_append]
      rfl
  | unlockRcu | unlock | synchronize | cleanNothing | clean => exact .refl
  | add => exact .head {} rfl .refl
  | free => exact alone_returning _ _
  | unlink | endClean | advance | reset => cases hk

/-- A step inside `clean_list` is not matched, but for the last one. -/
theorem Moves.alone_cleans (h : Moves variant input c m req k m' k') (hcleaned : Cleaned m.list k)
    (hk : k.cleans = true) (hM : M = { m.module with buffer := M.buffer }) :
    ∃ M', Alone variant req (M, k.place req) (M', k'.place req) ∧
      M' = { m'.module with buffer := M'.buffer } ∧ (k'.cleans = false → M' = m'.module) := by
  cases h with
  | unlink | advance => exact ⟨M, .refl, hM, nofun⟩
  | endClean => exact ⟨M, .refl, hM, nofun⟩
  | @reset u f₀ f own =>
      have hclean : cleanList M = ({ m with totalLength := 0 } : Memory C).module := by
        rw [hM, cleanList, Memory.module, show m.list = [] from hcleaned]
        rfl
      exact ⟨cleanList M, .head {} rfl .refl, by rw [hclean], fun _ => hclean⟩
  | _ => cases hk

end Steps

/-! ### Runs -/

section Runs

variable {C : Type} [DecidableEq C] {variant : Variant} {req : C → Request} {s s' : State C}
  {e : Event C} {tr : List (State C × Event C)} {S : LinkedBuffer.State C}

/-- What the traversals know stays true, as no other call is in the loop of `clean_list`. -/
theorem seen_step (hI : Inv s) (hseen : ∀ c, Seen s.memory.list (req c) (s.ctrl c))
    (h : Step variant req s e s') : ∀ c, Seen s'.memory.list (req c) (s'.ctrl c) := by
  obtain ⟨m, k, hm, rfl⟩ := h.moves
  refine (Function.forall_update_iff s.ctrl fun c k => Seen m.list (req c) k).2
    ⟨hm.seen hI.sound.nodup (hseen e.call), fun c hc => ?_⟩
  rcases (hI.apart e.call c (Ne.symm hc)).left with htargets | hout
  · exact (hseen c).mono (hm.list_prefix htargets)
  · exact seen_of_not_traverses hout.1

/-- The state, and the same with locked sections that are single steps. -/
structure Atomic (req : C → Request) (s : State C) (S : LinkedBuffer.State C) : Prop where
  inv : Inv s
  seen : ∀ c, Seen s.memory.list (req c) (s.ctrl c)
  cleaned : ∀ c, Cleaned s.memory.list (s.ctrl c)
  apart : ∀ c, (s.ctrl c).cleans = true → ∀ d ≠ c, (s.ctrl d).traverses = false
  ctrl : ∀ c, S.ctrl c = (s.ctrl c).place (req c)
  counters : S.module = { s.memory.module with buffer := S.module.buffer }
  module : (∀ c, (s.ctrl c).cleans = false) → S.module = s.memory.module

omit [DecidableEq C] in
theorem atomic_init : Atomic req {} (init C) := by
  refine ⟨inv_init, fun c => ?_, fun _ => trivial, nofun, fun _ => rfl, rfl, fun _ => rfl⟩
  exact seen_of_not_traverses rfl

/-- A step is matched by steps of the same call. -/
theorem Atomic.step (hA : Atomic req s S) (hu : Uninterrupted s e) (h : Step variant req s e s') :
    ∃ tr S', Run (LinkedBuffer.Step variant req) S tr S' ∧ Atomic req s' S' := by
  have hinv : Inv s' := hA.inv.step hu.undisturbed h
  have hseen := seen_step hA.inv hA.seen h
  obtain ⟨m, k, hm, rfl⟩ := h.moves
  obtain ⟨hothers, hclear⟩ := hu
  -- the call takes its steps in `S`
  obtain ⟨M, halone, hcounters, hmodule⟩ : ∃ M,
      Alone variant (req e.call) (S.module, S.ctrl e.call) (M, k.place (req e.call)) ∧
        M = { m.module with buffer := M.buffer } ∧ (k.cleans = false → M = m.module) := by
    rw [hA.ctrl]
    cases hk : (s.ctrl e.call).cleans with
    | true => exact hm.alone_cleans (hA.cleaned e.call) hk hA.counters
    | false =>
        have hnone : ∀ c, (s.ctrl c).cleans = false := fun c => by
          by_cases hc : c = e.call
          · rw [hc, hk]
          · exact hothers c hc
        rw [hA.module hnone]
        exact ⟨m.module, hm.alone hA.inv.sound.nodup (hA.seen e.call) hk, rfl, fun _ => rfl⟩
  obtain ⟨tr', hrun⟩ := run_of_alone halone
  refine ⟨tr', _, hrun, hinv, hseen, ?_, ?_, ?_, hcounters, ?_⟩
  · refine (Function.forall_update_iff s.ctrl fun _ k => Cleaned m.list k).2
      ⟨hm.cleaned (hA.cleaned e.call), fun c hc => ?_⟩
    exact cleaned_of_not_cleans (hothers c hc)
  · intro c hc d hd
    dsimp only at hc ⊢
    obtain rfl : c = e.call := by
      by_contra hne
      rw [Function.update_of_ne hne, hothers c hne] at hc
      cases hc
    rw [Function.update_self] at hc
    rw [Function.update_of_ne hd]
    rcases hm.cleans hc with hk | ⟨fPos, own, hk⟩
    · exact hA.apart e.call hk d hd
    · rw [hk] at hclear
      exact hclear d hd
  · intro c
    dsimp only
    by_cases hc : c = e.call
    · rw [hc, Function.update_self, Function.update_self]
    · rw [Function.update_of_ne hc, Function.update_of_ne hc]
      exact hA.ctrl c
  · intro hnone
    exact hmodule (by simpa using hnone e.call)

/-- What the calls of the two systems have returned, and the globals where no call is in
`clean_list`. -/
structure SameResults (s : State C) (S : LinkedBuffer.State C) : Prop where
  ready : ∀ c, S.ctrl c = .ready ↔ s.ctrl c = .ready
  done : ∀ c r, S.ctrl c = .done r ↔ s.ctrl c = .done r
  module : (∀ c, (s.ctrl c).cleans = false) → s.memory.module = S.module

omit [DecidableEq C] in
theorem place_eq_ready {req : Request} {k : Ctrl C} : k.place req = .ready ↔ k = .ready := by
  cases k with
  | leaving _ _ _ _ failed => cases failed <;> exact iff_of_false nofun nofun
  | ready => exact iff_of_true rfl rfl
  | _ => exact iff_of_false nofun nofun

omit [DecidableEq C] in
theorem place_eq_done {req : Request} {k : Ctrl C} {r : Return} :
    k.place req = .done r ↔ k = .done r := by
  cases k with
  | leaving _ _ _ _ failed => cases failed <;> exact iff_of_false nofun nofun
  | done r' => simp [Ctrl.place]
  | _ => exact iff_of_false nofun nofun

omit [DecidableEq C] in
theorem Atomic.sameResults (h : Atomic req s S) : SameResults s S := by
  refine ⟨fun c => ?_, fun c r => ?_, fun hnone => (h.module hnone).symm⟩
  · rw [h.ctrl]
    exact place_eq_ready
  · rw [h.ctrl]
    exact place_eq_done

/-- Every run in which `clean_list` is not interrupted is matched by one whose locked sections are
single steps, where the same calls return the same results, and which passes matching states in the
same order. -/
theorem sections_atomic (h : Run (Step variant req) {} tr s)
    (hu : ∀ p ∈ tr, Uninterrupted p.1 p.2) :
    ∃ tr' S, Run (LinkedBuffer.Step variant req) (init C) tr' S ∧ SameResults s S ∧
      ∀ tr₁ s₁, tr₁ <+: tr → Run (Step variant req) {} tr₁ s₁ →
        ∃ tr₁' S₁, tr₁' <+: tr' ∧ Run (LinkedBuffer.Step variant req) (init C) tr₁' S₁ ∧
          SameResults s₁ S₁ := by
  obtain ⟨tr', S, hrun, hA, hprefix⟩ := h.simulate_prefix
    (fun s e t t' ht ht' => Option.some.inj (ht.symm.trans ht'))
    (fun s e t S hu hs hA => hA.step hu hs) hu atomic_init
  refine ⟨tr', S, hrun, hA.sameResults, fun tr₁ s₁ htr₁ hrun₁ => ?_⟩
  obtain ⟨tr₁', S₁, htr₁', hrun₁', hA₁⟩ := hprefix tr₁ s₁ htr₁ hrun₁
  exact ⟨tr₁', S₁, htr₁', hrun₁', hA₁.sameResults⟩

end Runs

/-- A call that writes two entries, one that reads, and one that clears. -/
def writeReadClear : Fin 3 → Request
  | 0 => .write [1, 2, 3, 4, 5] 0
  | 1 => .read 10 0
  | 2 => .write clearCommand 0

/-- In the RCU variant the second entry is inserted in the middle of the traversal, which reads both;
then the list is cleared. -/
theorem sections_atomic_write_read_clear :
    ∃ tr' S, Run (LinkedBuffer.Step .rcu writeReadClear) (init (Fin 3)) tr' S ∧
      (∃ v, S.ctrl 1 = .done (.read v) ∧ v.userBuf = [1, 2, 3, 4, 5]) ∧ S.module.buffer = [] := by
  let events : List (Event (Fin 3)) :=
    List.replicate 8 ⟨0, {}⟩ ++ List.replicate 5 ⟨1, {}⟩ ++ List.replicate 3 ⟨0, {}⟩ ++
      List.replicate 5 ⟨1, {}⟩ ++ List.replicate 4 ⟨0, {}⟩ ++ List.replicate 9 ⟨2, {}⟩
  have hs : (replay (exec .rcu writeReadClear) events {}).isSome := rfl
  have hrun : Run (Step .rcu writeReadClear) {} _ _ :=
    run_of_replay (fun _ _ _ h => h) (Option.some_get hs).symm
  obtain ⟨tr', S, hrun', hS, -⟩ := sections_atomic hrun (by decide)
  refine ⟨tr', S, hrun', ⟨_, (hS.done 1 _).2 rfl, rfl⟩, ?_⟩
  exact (congrArg Module.buffer (hS.module fun c => by fin_cases c <;> rfl)).symm

end Traversal

end LinkedBuffer
