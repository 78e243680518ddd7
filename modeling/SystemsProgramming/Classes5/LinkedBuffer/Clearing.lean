import SystemsProgramming.Classes5.LinkedBuffer.Traversal

/-!
# Clearing under the feet of other calls

`clean_list` takes no lock, in any variant.  A traversal that another call has begun can be at the
node that it frees, and two calls of `clean_list` can free one node (`clearing_unsafe`).  Nothing of
the kind happens in runs where `clean_list` overlaps with no traversal and no other `clean_list`
(`clearing_safe`).
-/

namespace LinkedBuffer.Traversal

open Transition

section Definitions

variable {C : Type}

/-- The node that a traversal is at. -/
def Ctrl.cursor : Ctrl C → Option Node
  | .stepping cursor _ _ _ | .leaving cursor _ _ _ _ => cursor
  | .visiting n _ _ _ => some n
  | _ => none

/-- The call is between locking and unlocking the list in `linked_read`. -/
def Ctrl.traverses : Ctrl C → Bool
  | .stepping .. | .visiting .. | .leaving .. => true
  | _ => false

/-- The nodes that the call will still unlink and free, as far as `clean_list` has pointers to them. -/
def Ctrl.targets : Ctrl C → List Node
  | .cleaning _ _ cur tmp => cur :: tmp.toList
  | .advancing _ _ tmp => tmp.toList
  | _ => []

/-- The call is neither in a traversal nor in the loop of `clean_list`. -/
def Ctrl.Outside (k : Ctrl C) : Prop := k.traverses = false ∧ k.targets = []

/-- The node that the call has allocated and not inserted. -/
def Ctrl.own : Ctrl C → Option Node
  | .locking _ _ own | .inserting _ _ own | .clearing _ own | .cleaning _ own _ _
  | .advancing _ own _ | .resetting _ own | .freeing own _ => some own
  | _ => none

/-- The node that the next step of the call frees. -/
def Ctrl.frees : Ctrl C → Option Node
  | .cleaning _ _ cur _ => some cur
  | .freeing own _ => some own
  | _ => none

/-- The loop of `clean_list` begins while no other call is in it or in a traversal, and a traversal
begins while no call is in it. -/
def Undisturbed (variant : Variant) (s : State C) (e : Event C) : Prop :=
  match s.ctrl e.call with
  | .clearing _ _ => s.memory.list = [] ∨ ∀ c ≠ e.call, (s.ctrl c).Outside
  | .entering => e.input.Signals variant ∨ ∀ c, (s.ctrl c).targets = []
  | _ => True

/-- The step frees no node that the traversal of another call is at. -/
def FreesSafely (s : State C) (e : Event C) : Prop :=
  ∀ n, (s.ctrl e.call).frees = some n → ∀ c ≠ e.call, (s.ctrl c).cursor ≠ some n

instance (k : Ctrl C) : Decidable k.Outside := inferInstanceAs (Decidable (_ ∧ _))

instance [Fintype C] [DecidableEq C] (variant : Variant) (s : State C) (e : Event C) :
    Decidable (Undisturbed variant s e) := by
  unfold Undisturbed
  split <;> infer_instance

theorem Ctrl.Outside.cursor_eq {k : Ctrl C} (h : k.Outside) : k.cursor = none := by
  cases k with
  | stepping | visiting | leaving => cases h.1
  | _ => rfl

end Definitions

/-! ### What a step does to the nodes -/

section Effects

variable {C : Type} [DecidableEq C] {variant : Variant} {input : Input} {c : C}
  {m m' : Memory C} {k k' : Ctrl C} {req : Request}

/-- The steps by what they do to the nodes. -/
inductive Effect (variant : Variant) (input : Input) (m : Memory C) (k : Ctrl C) (m' : Memory C)
    (k' : Ctrl C) : Prop
  | keep : m'.list = m.list → m'.nextId = m.nextId → m'.freed = m.freed →
      (∀ n, k'.own = some n → k.own = some n) → k'.targets = [] →
      (k'.traverses = true → k.traverses = true) →
      (∀ n, k'.cursor = some n → k.cursor = some n ∨ n ∈ m.list) → Effect variant input m k m' k'
  | enter : m'.list = m.list → m'.nextId = m.nextId → m'.freed = m.freed →
      k = .entering → ¬ input.Signals variant → k'.own = none → k'.targets = [] →
      k'.cursor = none → Effect variant input m k m' k'
  | alloc (d : Data) : m' = { m with nextId := m.nextId + 1 } → k'.own = some ⟨m.nextId, d⟩ →
      k'.Outside → Effect variant input m k m' k'
  | insert (own : Node) : m' = { m with list := m.list ++ [own] } → k.own = some own →
      k'.own = none → k'.Outside → Effect variant input m k m' k'
  | free (own : Node) : m' = { m with freed := m.freed ++ [own] } → k.own = some own →
      k'.own = none → k'.Outside → Effect variant input m k m' k'
  | clean {fPos : ℕ} {own n : Node} {l : List Node} : m' = m → k = .clearing fPos own →
      m.list = n :: l → k' = .cleaning fPos own n l.head? → Effect variant input m k m' k'
  | advance {fPos : ℕ} {own n : Node} {tmp : Option Node} : m' = m →
      k = .advancing fPos own (some n) → nextOf m.list (some n) = some tmp →
      k' = .cleaning fPos own n tmp → Effect variant input m k m' k'
  | unlink {fPos : ℕ} {own cur : Node} {tmp : Option Node} :
      m' = { m with list := m.list.erase cur, freed := m.freed ++ [cur] } →
      k = .cleaning fPos own cur tmp → k' = .advancing fPos own tmp → Effect variant input m k m' k'

omit [DecidableEq C] in
/-- A step outside the traversal and `clean_list`, with no node of its own left. -/
theorem Effect.idle (hl : m'.list = m.list) (hi : m'.nextId = m.nextId) (hf : m'.freed = m.freed)
    (hown : k'.own = none ∨ k'.own = k.own) (hk : k'.Outside) : Effect variant input m k m' k' := by
  refine .keep hl hi hf (fun n hn => ?_) hk.2 (fun h => ?_) fun n hn => ?_
  · rcases hown with hown | hown
    · rw [hown] at hn
      cases hn
    · rwa [← hown]
  · rw [hk.1] at h
    cases h
  · rw [hk.cursor_eq] at hn
    cases hn

theorem Moves.effect (h : Moves variant input c m req k m' k') : Effect variant input m k m' k' := by
  cases h with
  | startTraversal hs hlock =>
      obtain ⟨hl, hi, hf⟩ := lockRead_memory hlock
      exact .enter hl hi hf rfl hs rfl rfl rfl
  | endOfList hnext => exact .keep rfl rfl rfl nofun rfl (fun _ => rfl) nofun
  | next hnext =>
      refine .keep rfl rfl rfl nofun rfl (fun _ => rfl) fun n hn => Or.inr ?_
      cases hn
      exact nextOf_mem hnext
  | copyFails | readLast | readOn =>
      exact .keep rfl rfl rfl nofun rfl (fun _ => rfl) fun n hn => Or.inl hn
  | failTraversal | endTraversal =>
      obtain ⟨hl, hi, hf⟩ := unlockRead_memory variant c m
      exact .idle hl hi hf (Or.inl rfl) ⟨rfl, rfl⟩
  | copyFromFails h | findClear h | prepare h => exact .alloc _ rfl rfl ⟨rfl, rfl⟩
  | lock _ hlock =>
      obtain ⟨hl, hi, hf⟩ := lockWrite_memory hlock
      exact .idle hl hi hf (Or.inr rfl) ⟨rfl, rfl⟩
  | insert => exact .insert _ rfl rfl rfl ⟨rfl, rfl⟩
  | signalWrite | cleanNothing | endClean | reset =>
      exact .idle rfl rfl rfl (Or.inr rfl) ⟨rfl, rfl⟩
  | clean hl => exact .clean rfl rfl hl rfl
  | unlink => exact .unlink rfl rfl rfl
  | advance hnext => exact .advance rfl rfl hnext rfl
  | free => exact .free _ rfl rfl rfl ⟨rfl, rfl⟩
  | _ => exact .idle rfl rfl rfl (Or.inl rfl) ⟨rfl, rfl⟩

/-! ### The invariant -/

theorem nodup_snoc {l : List Node} {n : Node} (hl : l.Nodup) (hn : n ∉ l) : (l ++ [n]).Nodup := by
  rw [← List.concat_eq_append]
  exact hl.concat hn

theorem not_mem_snoc {l : List Node} {n a : Node} (hl : n ∉ l) (hne : n ≠ a) : n ∉ l ++ [a] := by
  rw [List.mem_append, List.mem_singleton]
  exact not_or.2 ⟨hl, hne⟩

/-- Allocations are new, and a node is in the list or freed, once. -/
structure Sound (m : Memory C) : Prop where
  nodup : m.list.Nodup
  freed_nodup : m.freed.Nodup
  disjoint : ∀ n ∈ m.list, n ∉ m.freed
  list_lt : ∀ n ∈ m.list, n.id < m.nextId
  freed_lt : ∀ n ∈ m.freed, n.id < m.nextId

/-- The pointers of a call are good: its own node is in neither list, its cursor and the nodes it will
free are in the list. -/
structure Placed (m : Memory C) (k : Ctrl C) : Prop where
  own : ∀ n, k.own = some n → n.id < m.nextId ∧ n ∉ m.list ∧ n ∉ m.freed
  cursor : ∀ n, k.cursor = some n → n ∈ m.list
  targets : ∀ n ∈ k.targets, n ∈ m.list
  nodup : k.targets.Nodup

/-- Two calls have different nodes of their own, and neither is in `clean_list` while the other is in
it or in a traversal. -/
structure Apart (k k' : Ctrl C) : Prop where
  own : ∀ n, k.own = some n → k'.own ≠ some n
  left : k.targets = [] ∨ k'.Outside
  right : k'.targets = [] ∨ k.Outside

omit [DecidableEq C] in
theorem Apart.symm (h : Apart k k') : Apart k' k :=
  ⟨fun n hn hn' => h.own n hn' hn, h.right, h.left⟩

omit [DecidableEq C] in
theorem Sound.congr (h : Sound m) (hl : m'.list = m.list) (hi : m'.nextId = m.nextId)
    (hf : m'.freed = m.freed) : Sound m' := by
  obtain ⟨h₁, h₂, h₃, h₄, h₅⟩ := h
  rw [← hl] at h₁ h₃ h₄
  rw [← hf] at h₂ h₃ h₅
  rw [← hi] at h₄ h₅
  exact ⟨h₁, h₂, h₃, h₄, h₅⟩

omit [DecidableEq C] in
theorem Placed.congr (h : Placed m k) (hl : m'.list = m.list) (hi : m'.nextId = m.nextId)
    (hf : m'.freed = m.freed) : Placed m' k := by
  obtain ⟨h₁, h₂, h₃, h₄⟩ := h
  rw [← hl] at h₁ h₂ h₃
  rw [← hf, ← hi] at h₁
  exact ⟨h₁, h₂, h₃, h₄⟩

omit [DecidableEq C] in
theorem Placed.of_outside (hown : ∀ n, k.own = some n → n.id < m.nextId ∧ n ∉ m.list ∧ n ∉ m.freed)
    (hk : k.Outside) : Placed m k := by
  refine ⟨hown, fun n hn => ?_, fun n hn => ?_, ?_⟩
  · rw [hk.cursor_eq] at hn
    cases hn
  · rw [hk.2] at hn
    cases hn
  · rw [hk.2]
    exact List.nodup_nil

omit [DecidableEq C] in
theorem Effect.sound (he : Effect variant input m k m' k') (h : Sound m) (hk : Placed m k) :
    Sound m' := by
  cases he with
  | keep hl hi hf => exact h.congr hl hi hf
  | enter hl hi hf => exact h.congr hl hi hf
  | alloc d hm =>
      subst hm
      exact ⟨h.nodup, h.freed_nodup, h.disjoint, fun n hn => Nat.lt_succ_of_lt (h.list_lt n hn),
        fun n hn => Nat.lt_succ_of_lt (h.freed_lt n hn)⟩
  | insert own hm hown =>
      subst hm
      obtain ⟨hlt, hlist, hfreed⟩ := hk.own own hown
      refine ⟨nodup_snoc h.nodup hlist, h.freed_nodup, ?_, ?_, h.freed_lt⟩
      · exact List.forall_mem_append.2 ⟨h.disjoint, List.forall_mem_singleton.2 hfreed⟩
      · exact List.forall_mem_append.2 ⟨h.list_lt, List.forall_mem_singleton.2 hlt⟩
  | free own hm hown =>
      subst hm
      obtain ⟨hlt, hlist, hfreed⟩ := hk.own own hown
      refine ⟨h.nodup, nodup_snoc h.freed_nodup hfreed, ?_, h.list_lt, ?_⟩
      · exact fun n hn => not_mem_snoc (h.disjoint n hn) fun he => hlist (he ▸ hn)
      · exact List.forall_mem_append.2 ⟨h.freed_lt, List.forall_mem_singleton.2 hlt⟩
  | clean hm => exact hm ▸ h
  | advance hm => exact hm ▸ h
  | @unlink fPos own cur tmp hm hk₀ =>
      subst hm hk₀
      have hcur : cur ∈ m.list := hk.targets cur (List.mem_cons_self ..)
      refine ⟨h.nodup.erase cur,
        nodup_snoc h.freed_nodup (h.disjoint cur hcur), ?_, ?_, ?_⟩
      · intro n hn
        rw [h.nodup.mem_erase_iff] at hn
        exact not_mem_snoc (h.disjoint n hn.2) hn.1
      · exact fun n hn => h.list_lt n (List.mem_of_mem_erase hn)
      · exact List.forall_mem_append.2 ⟨h.freed_lt, List.forall_mem_singleton.2 (h.list_lt cur hcur)⟩

omit [DecidableEq C] in
/-- The call that moves has good pointers after its step. -/
theorem Effect.placed (he : Effect variant input m k m' k') (h : Sound m) (hk : Placed m k) :
    Placed m' k' := by
  cases he with
  | keep hl hi hf hown htargets htrav hcursor =>
      have hk' : Placed m k' := by
        refine ⟨fun n hn => hk.own n (hown n hn), fun n hn => ?_, ?_, ?_⟩
        · exact (hcursor n hn).elim (hk.cursor n) id
        · rw [htargets]
          exact List.forall_mem_nil _
        · rw [htargets]
          exact List.nodup_nil
      exact hk'.congr hl hi hf
  | enter hl hi hf _ _ hown htargets hcursor =>
      refine ⟨fun n hn => ?_, fun n hn => ?_, ?_, ?_⟩
      · rw [hown] at hn
        cases hn
      · rw [hcursor] at hn
        cases hn
      · rw [htargets]
        exact List.forall_mem_nil _
      · rw [htargets]
        exact List.nodup_nil
  | alloc d hm hown hk' =>
      subst hm
      refine .of_outside (fun n hn => ?_) hk'
      rw [hown] at hn
      cases hn
      exact ⟨Nat.lt_succ_self _, fun hn => Nat.lt_irrefl _ (h.list_lt _ hn),
        fun hn => Nat.lt_irrefl _ (h.freed_lt _ hn)⟩
  | insert own hm _ hown hk' | free own hm _ hown hk' =>
      refine .of_outside (fun n hn => ?_) hk'
      rw [hown] at hn
      cases hn
  | @clean fPos own n l hm hk₀ hlist hk' =>
      subst m' hk₀ hk'
      refine ⟨hk.own, fun n hn => absurd hn (Option.some_ne_none n).symm, fun x hx => ?_, ?_⟩
      · rw [hlist]
        rcases List.mem_cons.1 hx with rfl | hx
        · exact List.mem_cons_self ..
        · exact List.mem_cons_of_mem _ (List.mem_of_mem_head? (Option.mem_toList.1 hx))
      · have hnd := List.nodup_cons.1 (hlist ▸ h.nodup)
        exact List.nodup_cons.2 ⟨fun hn => hnd.1 (List.mem_of_mem_head? (Option.mem_toList.1 hn)),
          Option.toList_nodup _⟩
  | @advance fPos own n tmp hm hk₀ hnext hk' =>
      subst m' hk₀ hk'
      have hn : n ∈ m.list := hk.targets n (List.mem_cons_self ..)
      refine ⟨hk.own, fun n hn => absurd hn (Option.some_ne_none n).symm, fun x hx => ?_, ?_⟩
      · rcases List.mem_cons.1 hx with rfl | hx
        · exact hn
        · rw [Option.mem_toList.1 hx] at hnext
          exact nextOf_mem hnext
      · refine List.nodup_cons.2 ⟨fun hx => ?_, Option.toList_nodup _⟩
        rw [Option.mem_toList.1 hx, nextOf, if_pos hn] at hnext
        exact after_ne h.nodup (Option.some.inj hnext) rfl
  | @unlink fPos own cur tmp hm hk₀ hk' =>
      subst hm hk₀ hk'
      have hcur : cur ∈ m.list := hk.targets cur (List.mem_cons_self ..)
      have hnd := List.nodup_cons.1 hk.nodup
      refine ⟨fun n hn => ?_, fun n hn => absurd hn (Option.some_ne_none n).symm, fun n hn => ?_, hnd.2⟩
      · obtain ⟨hlt, hlist, hfreed⟩ := hk.own n hn
        exact ⟨hlt, fun hn => hlist (List.mem_of_mem_erase hn),
          not_mem_snoc hfreed fun he => hlist (he ▸ hcur)⟩
      · refine h.nodup.mem_erase_iff.2 ⟨?_, hk.targets n (List.mem_cons_of_mem _ hn)⟩
        rintro rfl
        exact hnd.1 hn

omit [DecidableEq C] in
/-- The pointers of the other calls stay good. -/
theorem Effect.frame {k₁ : Ctrl C} (he : Effect variant input m k m' k') (hk : Placed m k)
    (hapart : Apart k k₁) (hk₁ : Placed m k₁) : Placed m' k₁ := by
  cases he with
  | keep hl hi hf => exact hk₁.congr hl hi hf
  | enter hl hi hf => exact hk₁.congr hl hi hf
  | alloc d hm =>
      subst hm
      exact ⟨fun n hn => ⟨Nat.lt_succ_of_lt (hk₁.own n hn).1, (hk₁.own n hn).2⟩, hk₁.cursor,
        hk₁.targets, hk₁.nodup⟩
  | insert own hm hown =>
      subst hm
      refine ⟨fun n hn => ?_, fun n hn => List.mem_append_left _ (hk₁.cursor n hn),
        fun n hn => List.mem_append_left _ (hk₁.targets n hn), hk₁.nodup⟩
      obtain ⟨hlt, hlist, hfreed⟩ := hk₁.own n hn
      exact ⟨hlt, not_mem_snoc hlist fun he => hapart.own own hown (he ▸ hn), hfreed⟩
  | free own hm hown =>
      subst hm
      refine ⟨fun n hn => ?_, hk₁.cursor, hk₁.targets, hk₁.nodup⟩
      obtain ⟨hlt, hlist, hfreed⟩ := hk₁.own n hn
      exact ⟨hlt, hlist, not_mem_snoc hfreed fun he => hapart.own own hown (he ▸ hn)⟩
  | clean hm => exact hm ▸ hk₁
  | advance hm => exact hm ▸ hk₁
  | @unlink fPos own cur tmp hm hk₀ =>
      subst hm hk₀
      have hcur : cur ∈ m.list := hk.targets cur (List.mem_cons_self ..)
      refine .of_outside (fun n hn => ?_) (hapart.left.resolve_left (List.cons_ne_nil _ _))
      obtain ⟨hlt, hlist, hfreed⟩ := hk₁.own n hn
      exact ⟨hlt, fun hn => hlist (List.mem_of_mem_erase hn),
        not_mem_snoc hfreed fun he => hlist (he ▸ hcur)⟩

omit [DecidableEq C] in
/-- The calls stay apart. -/
theorem Effect.apart {k₁ : Ctrl C} (he : Effect variant input m k m' k') (hapart : Apart k k₁)
    (hk₁ : Placed m k₁)
    (hclear : ∀ fPos own, k = .clearing fPos own → m.list = [] ∨ k₁.Outside)
    (henter : k = .entering → input.Signals variant ∨ k₁.targets = []) : Apart k' k₁ := by
  cases he with
  | keep hl hi hf hown htargets htrav =>
      refine ⟨fun n hn => hapart.own n (hown n hn), Or.inl htargets, ?_⟩
      refine hapart.right.imp_right fun hk => ⟨?_, htargets⟩
      cases ht : k'.traverses with
      | false => rfl
      | true => rw [← hk.1, htrav ht]
  | enter hl hi hf hk hs hown htargets =>
      refine ⟨fun n hn => ?_, Or.inl htargets, Or.inl ((henter hk).resolve_left hs)⟩
      rw [hown] at hn
      cases hn
  | alloc d hm hown hk' =>
      refine ⟨fun n hn hn₁ => ?_, Or.inl hk'.2, Or.inr hk'⟩
      rw [hown] at hn
      cases hn
      exact Nat.lt_irrefl _ (hk₁.own _ hn₁).1
  | insert own _ _ hown hk' | free own _ _ hown hk' =>
      refine ⟨fun n hn => ?_, Or.inl hk'.2, Or.inr hk'⟩
      rw [hown] at hn
      cases hn
  | @clean fPos own n l _ hk hlist hk' =>
      have hout : k₁.Outside := (hclear fPos own hk).resolve_left (hlist ▸ List.cons_ne_nil n l)
      subst hk hk'
      exact ⟨hapart.own, Or.inr hout, Or.inl hout.2⟩
  | @advance fPos own n tmp _ hk _ hk' =>
      subst hk hk'
      have hout : k₁.Outside := hapart.left.resolve_left (List.cons_ne_nil _ _)
      exact ⟨hapart.own, Or.inr hout, Or.inl hout.2⟩
  | @unlink fPos own cur tmp _ hk hk' =>
      subst hk hk'
      have hout : k₁.Outside := hapart.left.resolve_left (List.cons_ne_nil _ _)
      exact ⟨hapart.own, Or.inr hout, Or.inl hout.2⟩

end Effects

/-! ### Runs -/

section Runs

variable {C : Type} [DecidableEq C] {variant : Variant} {req : C → Request} {s s' : State C}
  {e : Event C} {tr : List (State C × Event C)}

/-- What holds as long as `clean_list` is not disturbed. -/
structure Inv (s : State C) : Prop where
  sound : Sound s.memory
  placed : ∀ c, Placed s.memory (s.ctrl c)
  apart : ∀ c d, c ≠ d → Apart (s.ctrl c) (s.ctrl d)

omit [DecidableEq C] in
theorem inv_init : Inv ({} : State C) :=
  ⟨⟨List.nodup_nil, List.nodup_nil, nofun, nofun, nofun⟩, fun _ => ⟨nofun, nofun, nofun, List.nodup_nil⟩,
    fun _ _ _ => ⟨nofun, Or.inl rfl, Or.inl rfl⟩⟩

theorem Inv.step (hI : Inv s) (hu : Undisturbed variant s e) (h : Step variant req s e s') :
    Inv s' := by
  obtain ⟨m, k, hm, rfl⟩ := h.moves
  have heff := hm.effect
  have hk := hI.placed e.call
  -- the moving call against another one
  have hmoved : ∀ c ≠ e.call, Apart k (s.ctrl c) := by
    intro c hc
    refine heff.apart (hI.apart e.call c (Ne.symm hc)) (hI.placed c) (fun fPos own heq => ?_)
      fun heq => ?_
    · rw [Undisturbed, heq] at hu
      exact hu.imp_right fun h => h c hc
    · rw [Undisturbed, heq] at hu
      exact hu.imp_right fun h => h c
  refine ⟨heff.sound hI.sound hk, ?_, fun c d hcd => ?_⟩
  · exact (Function.forall_update_iff s.ctrl fun _ k => Placed m k).2 ⟨heff.placed hI.sound hk,
      fun c hc => heff.frame hk (hI.apart e.call c (Ne.symm hc)) (hI.placed c)⟩
  · dsimp only
    by_cases hc : c = e.call
    · have hd : d ≠ e.call := fun h => hcd (hc.trans h.symm)
      rw [hc, Function.update_self, Function.update_of_ne hd]
      exact hmoved d hd
    · rw [Function.update_of_ne hc]
      by_cases hd : d = e.call
      · rw [hd, Function.update_self]
        exact (hmoved c hc).symm
      · rw [Function.update_of_ne hd]
        exact hI.apart c d hcd

omit [DecidableEq C] in
/-- The node that a step frees is no one's cursor. -/
theorem Inv.freesSafely (hI : Inv s) (e : Event C) : FreesSafely s e := by
  intro n hn c hc hcursor
  have hlist : n ∈ s.memory.list := (hI.placed c).cursor n hcursor
  have hapart := hI.apart e.call c (Ne.symm hc)
  have hk := hI.placed e.call
  revert hn hapart hk
  cases s.ctrl e.call with
  | cleaning fPos own cur tmp =>
      intro hn hapart hk
      have hout := hapart.left.resolve_left (List.cons_ne_nil _ _)
      rw [hout.cursor_eq] at hcursor
      cases hcursor
  | freeing own r =>
      intro hn hapart hk
      exact (hk.own n hn).2.1 hlist
  | _ => nofun

/-- In a run whose steps leave `clean_list` undisturbed no node is freed under the cursor of another
call, and none is freed twice. -/
theorem clearing_safe (h : Run (Step variant req) {} tr s)
    (hu : ∀ p ∈ tr, Undisturbed variant p.1 p.2) :
    (∀ p ∈ tr, FreesSafely p.1 p.2) ∧ s.memory.freed.Nodup := by
  have hstep : ∀ s e s', Undisturbed variant s e → Inv s → Step variant req s e s' → Inv s' :=
    fun s e s' hu hI hs => hI.step hu hs
  refine ⟨fun p hp => ?_, (h.invariant_of hstep hu inv_init).sound.freed_nodup⟩
  exact (h.invariant_mem hstep hu inv_init p hp).freesSafely p.2

end Runs

/-! ### Two clears and a read -/

/-- A call that writes an entry and clears, one that clears, and one that reads. -/
def twoClearsAndRead : Fin 3 → Request
  | 0 => .write ([97, 98, 99, 100] ++ clearCommand) 0
  | 1 => .write clearCommand 0
  | 2 => .read 4 0

/-- The first call writes its entry, the reader reads it, the first call clears and returns, and then the
second one clears. -/
theorem clearing_safe_one_after_the_other :
    ∃ (tr : List (State (Fin 3) × Event (Fin 3))) (s : State (Fin 3)) (v : ReadVars),
      s.ctrl 2 = .done (.read v) ∧ v.userBuf = [97, 98, 99, 100] ∧ s.memory.freed.length = 3 ∧
      (∀ p ∈ tr, FreesSafely p.1 p.2) ∧ s.memory.freed.Nodup := by
  let events : List (Event (Fin 3)) := List.replicate 6 ⟨0, {}⟩ ++ List.replicate 7 ⟨2, {}⟩ ++
    List.replicate 6 ⟨0, {}⟩ ++ List.replicate 5 ⟨1, {}⟩
  have hs : (replay (exec .mutex twoClearsAndRead) events {}).isSome := rfl
  have hrun : Run (Step .mutex twoClearsAndRead) {} _ _ :=
    run_of_replay (fun _ _ _ h => h) (Option.some_get hs).symm
  exact ⟨_, _, _, rfl, rfl, rfl, clearing_safe hrun (by decide)⟩

/-- Some run frees a node twice, the first time under the cursor of the reader. -/
def Unsafe (variant : Variant) : Prop :=
  ∃ (tr : List (State (Fin 3) × Event (Fin 3))) (s : State (Fin 3)),
    Run (Step variant twoClearsAndRead) {} tr s ∧ (¬ ∀ p ∈ tr, FreesSafely p.1 p.2) ∧
      ¬ s.memory.freed.Nodup

theorem unsafe_of_replay {variant : Variant} (ls : List (Event (Fin 3))) {s₁ s₂ : State (Fin 3)}
    {n : Node} (h₁ : replay (exec variant twoClearsAndRead) ls {} = some s₁)
    (h₂ : replay (exec variant twoClearsAndRead) (ls ++ [⟨0, {}⟩, ⟨1, {}⟩]) {} = some s₂)
    (hfrees : (s₁.ctrl 0).frees = some n) (hcursor : (s₁.ctrl 2).cursor = some n)
    (hfreed : s₂.memory.freed = [n, n]) : Unsafe variant := by
  refine ⟨_, s₂, run_of_replay (fun _ _ _ h => h) h₂, fun hsafe => ?_, fun hnodup => ?_⟩
  · exact hsafe _ (mem_record h₁ _ _) n hfrees 2 (show (2 : Fin 3) ≠ 0 by decide) hcursor
  · rw [hfreed] at hnodup
    exact (List.nodup_cons.1 hnodup).1 (List.mem_singleton_self n)

/-- Both clears start on the same entry while the reader is at it. -/
theorem clearing_unsafe : Unsafe .mutex ∧ Unsafe .semaphore ∧ Unsafe .spinlock ∧ Unsafe .rcu := by
  let events (k : ℕ) : List (Event (Fin 3)) :=
    List.replicate k ⟨0, {}⟩ ++ List.replicate 2 ⟨1, {}⟩ ++ List.replicate 4 ⟨2, {}⟩ ++
      [⟨0, {}⟩, ⟨1, {}⟩]
  have hmutex : Unsafe .mutex := unsafe_of_replay (events 7) rfl rfl rfl rfl rfl
  have hsemaphore : Unsafe .semaphore := unsafe_of_replay (events 7) rfl rfl rfl rfl rfl
  have hspinlock : Unsafe .spinlock := unsafe_of_replay (events 7) rfl rfl rfl rfl rfl
  -- the insertion waits for the readers in the RCU variant
  have hrcu : Unsafe .rcu := unsafe_of_replay (events 8) rfl rfl rfl rfl rfl
  exact ⟨hmutex, hsemaphore, hspinlock, hrcu⟩

end LinkedBuffer.Traversal
