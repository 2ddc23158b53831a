import SplitSched.Afq.VioCounter

/-!
# SplitSched.Afq.Touches

What the hooks of the AFQ scheduler do to the counters of the accounts, to the statistics and to the
gate. Few functions write any of these: `add_vio_counter`, `update_active_min`, the activation of an
account, `afq_accout_pos_seq_update`, `cause_list_size_stat2` and `basic_kv_set_callback`.

`Touch` is one call of such a function, or a change of something else. The functions that charge for
I/O are sequences of touches; what every touch keeps, they keep (`Touches.keep`).
-/

namespace SplitSched
namespace Afq

/-- `keep_wait` and the record of what was submitted. -/
def State.batching (s : State) : KeepWait × List WorkId := (s.keepWait, s.submitted)

/-- The three arrays of statistics. -/
def State.stats (s : State) : (Int → Int) × (Int → Int) × (Int → Int) :=
  (s.prioServedRqs, s.caustCountDist, s.journalCct)

/-- Nothing but the gate changes in what this module is about, and the gate only if `gates`. -/
structure Still (gates : Bool) (s s' : State) : Prop where
  view : s'.accounts.val vioView (0, 0, 0) = s.accounts.val vioView (0, 0, 0)
  globalMinVioCounter2 : s'.globalMinVioCounter2 = s.globalMinVioCounter2
  stats : s'.stats = s.stats
  batching : gates = false → s'.batching = s.batching

/-- `sets key val` says which values may be set through the control device. -/
inductive Touch (P : Platform) (sets : String → Int → Prop) (gates : Bool) :
    State → State → Prop where
  | still {s s' : State} (h : Still gates s s') : Touch P sets gates s s'
  | charge (s : State) (acct : Int) : Touch P sets gates s (addVioCounter P s acct)
  | refresh (s : State) : Touch P sets gates s (updateActiveMin P s)
  | wake (s : State) (acct : Int) : Touch P sets gates s (activate P s acct)
  | serve (s : State) (acct : Int) (rq : Nat) :
      Touch P sets gates s (afqAccoutPosSeqUpdate P s acct rq)
  | count (s : State) (l : Nat) : Touch P sets gates s (sizeStatItem s l)
  | set (s : State) (id : Int) {key : String} {val : Int} (h : sets key val) :
      Touch P sets gates s (s.modifyAccount id (kvApply P key val))

inductive Touches (P : Platform) (sets : String → Int → Prop) (gates : Bool) :
    State → State → Prop where
  | refl {s : State} : Touches P sets gates s s
  | tail {s s' s'' : State} : Touches P sets gates s s' → Touch P sets gates s' s'' →
      Touches P sets gates s s''

variable {P : Platform} {sets : String → Int → Prop} {gates : Bool} {s s' s'' : State}

namespace Still

theorem refl (gates : Bool) (s : State) : Still gates s s := ⟨rfl, rfl, rfl, fun _ => rfl⟩

/-- Where the gate may move, only the rest is compared. -/
theorem gated (hview : s'.accounts.val vioView (0, 0, 0) = s.accounts.val vioView (0, 0, 0))
    (hmin : s'.globalMinVioCounter2 = s.globalMinVioCounter2) (hstats : s'.stats = s.stats) :
    Still true s s' := ⟨hview, hmin, hstats, fun h => nomatch h⟩

theorem of_modify {id : Int} {f : Account → Account} (hf : ∀ a, vioView (f a) = vioView a) :
    Still gates s (s.modifyAccount id f) :=
  ⟨Registry.val_modify_keep hf, rfl, rfl, fun _ => rfl⟩

theorem ioprio (h : Still gates s s') : s'.ioprio = s.ioprio :=
  funext (val_of_view h.view fun v => v.1)

theorem vioCounter (h : Still gates s s') : s'.vioCounter = s.vioCounter :=
  funext (val_of_view h.view fun v => v.2.1)

end Still

namespace Touches

theorem single (h : Touch P sets gates s s') : Touches P sets gates s s' := .tail .refl h

theorem trans (h : Touches P sets gates s s') (h' : Touches P sets gates s' s'') :
    Touches P sets gates s s'' := by
  induction h' with
  | refl => exact h
  | tail _ ht ih => exact .tail ih ht

theorem of_still (h : Still gates s s') : Touches P sets gates s s' := .single (.still h)

theorem then_still (h : Touches P sets gates s s') (h' : Still gates s' s'') :
    Touches P sets gates s s'' := h.tail (.still h')

theorem after_still (h' : Touches P sets gates s' s'') (h : Still gates s s') :
    Touches P sets gates s s'' := (of_still h).trans h'

theorem of_modify {id : Int} {f : Account → Account} (hf : ∀ a, vioView (f a) = vioView a) :
    Touches P sets gates s (s.modifyAccount id f) := of_still (.of_modify hf)

theorem of_foldl {α : Type} {f : State → α → State} (hf : ∀ s x, Touches P sets gates s (f s x))
    (xs : List α) (s : State) : Touches P sets gates s (xs.foldl f s) :=
  foldl_rel (R := Touches P sets gates) (fun _ => .refl) trans hf xs s

theorem of_foldlM {α : Type} {f : State → α → Option State}
    (hf : ∀ s x s', f s x = some s' → Touches P sets gates s s') (xs : List α)
    (h : xs.foldlM f s = some s') : Touches P sets gates s s' :=
  foldlM_rel (R := Touches P sets gates) (fun _ => .refl) trans hf xs h

/-- What every touch keeps, a sequence of touches keeps. -/
theorem keep {I : State → Prop} (hI : ∀ s s', Touch P sets gates s s' → I s → I s')
    (h : Touches P sets gates s s') (h0 : I s) : I s' := by
  induction h with
  | refl => exact h0
  | tail _ ht ih => exact hI _ _ ht ih

end Touches

/-! ## Accounting -/

theorem getAccount_touches (P : Platform) (s : State) (id : Int) :
    Touches P sets gates s (getAccount P s id).2 := by
  have hview : (getAccount P s id).2.accounts.val vioView (0, 0, 0) =
      s.accounts.val vioView (0, 0, 0) := getAccount_val fun _ ha => newAccount_vioView ha
  refine .of_still ?_
  rcases getAccount_cases P s id with ⟨-, h⟩ | ⟨-, a, -, h⟩ | ⟨-, -, h⟩
  · rw [h]
    exact .refl gates s
  · rw [h] at hview ⊢
    exact ⟨hview, rfl, rfl, fun _ => rfl⟩
  · rw [h]
    exact ⟨rfl, rfl, rfl, fun _ => rfl⟩

theorem withAccount_touches {f : State → Int → State} (hf : ∀ s id, Touches P sets gates s (f s id))
    {id : Int} (h : withAccount P f s id = some s') : Touches P sets gates s s' := by
  rw [withAccount_some h]
  exact (getAccount_touches P s id).trans (hf _ id)

theorem addEstimateVio_touches (P : Platform) (s : State) (acct quantity : Int) :
    Touches P sets gates s (addEstimateVio P s acct quantity) :=
  (Touches.of_modify (f := bumpEstimate P quantity) fun _ => rfl).tail (.charge _ acct)

theorem chargeAll_touches {amt : Int → Int} {ids : List Int} (h : chargeAll P amt ids s = some s') :
    Touches P sets gates s s' :=
  .of_foldlM (fun _ _ _ => withAccount_touches fun s id => addEstimateVio_touches P s id _) ids h

theorem addToBatches_touches {offset size share : Int} (ids : List Int) {r r' : Bool × State}
    (h : addToBatches P offset size share ids r = some r') : Touches P sets gates r.2 r'.2 := by
  have hadd : ∀ s id, Touches P sets gates s (addToAccountBatch P offset size share s id) :=
    fun _ _ => .of_modify fun _ => rfl
  exact addToBatches_rel (fun _ => .refl) .trans (withAccount_touches hadd) ids h

theorem flushAccount_touches (P : Platform) (combined summed : Int) (s : State) (acct : Int) :
    Touches P sets gates s (flushAccount P combined summed s acct) := by
  simp only [flushAccount]
  refine Touches.trans ?_ (.of_modify (f := clearBatch P) fun _ => rfl)
  refine Touches.trans ?_ (addEstimateVio_touches P _ acct _)
  split
  · exact .single (.charge s acct)
  · exact .refl

theorem flush_touches (P : Platform) (s : State) : Touches P sets gates s (flush P s) := by
  have hstart : Still gates s (flushStart P s) :=
    ⟨Registry.val_map_keep (f := priceBatch P) fun _ => rfl, rfl, rfl, fun _ => rfl⟩
  exact Touches.after_still (.of_foldl (flushAccount_touches P _ _) _ (flushStart P s)) hstart

theorem doDiskAccounting_touches {l : Nat} {offset : Int}
    (h : doDiskAccounting P s l offset = some s') : Touches P sets gates s s' := by
  obtain ⟨⟨full, t⟩, ht, rfl⟩ := doDiskAccounting_cases h
  have hbatched : Touches P sets gates s t :=
    (addToBatches_touches _ ht).after_still ⟨rfl, rfl, rfl, fun _ => rfl⟩
  cases full with
  | false => exact hbatched
  | true => exact hbatched.trans (flush_touches P t)

theorem accountForCauses_touches {l : Nat} {offset size : Int}
    (h : accountForCauses P s l offset size = some s') : Touches P sets gates s s' := by
  rw [accountForCauses_eq] at h
  obtain ⟨t, ht, h⟩ := Option.bind_eq_some_iff.mp h
  refine Touches.trans ?_ (doDiskAccounting_touches h)
  simp only [chargeCauses] at ht
  split_ifs at ht
  · cases ht
    exact .of_still ⟨rfl, rfl, rfl, fun _ => rfl⟩
  · exact (chargeAll_touches ht).after_still ⟨rfl, rfl, rfl, fun _ => rfl⟩
  · cases ht
    exact .refl

theorem accountForList_touches {rq l : Nat} {offset size : Int}
    (h : accountForList P rq s l offset size = some s') : Touches P sets gates s s' := by
  simp only [accountForList] at h
  split at h
  · cases h
  · rename_i t ht
    exact (accountForCauses_touches ht).trans (.of_foldlM
      (fun _ _ _ => withAccount_touches fun s id => .single (.serve s id rq)) _ h)

theorem accountForItems_touches {rq : Nat} (ls : List Nat) :
    ∀ {offset : Int} {s s' : State}, accountForItems P rq ls offset s = some s' →
      Touches P sets gates s s' := by
  induction ls with
  | nil =>
    intro offset s s' h
    cases h
    exact .refl
  | cons l ls ih =>
    intro offset s s' h
    simp only [accountForItems] at h
    split at h
    · cases h
    · rename_i t ht
      exact (accountForList_touches ht).trans (ih h)

theorem accountForRqCauses_touches {rq : Nat} {offset : Int} {bio : Bio}
    (h : accountForRqCauses P rq s offset bio = some s') : Touches P sets gates s s' := by
  simp only [accountForRqCauses] at h
  split at h
  · exact accountForList_touches h
  · cases h
    exact .refl

theorem accountForBio_touches {rq : Nat} {bio : Bio} (h : accountForBio P rq s bio = some s') :
    Touches P sets gates s s' := by
  simp only [accountForBio] at h
  split at h
  · split at h
    · exact accountForItems_touches _ h
    · exact accountForRqCauses_touches h
  · exact accountForRqCauses_touches h

theorem afqAccountRequest2_touches {rq : Nat} (h : afqAccountRequest2 P s rq = some s') :
    Touches P sets gates s s' :=
  .of_foldlM (fun _ _ _ => accountForBio_touches) _ h

theorem dirtyBuffer_touches {q l bSize inode : Nat} {task : Task} {pos : Int}
    (h : dirtyBuffer P s q l task bSize inode pos = some s') : Touches P sets gates s s' := by
  simp only [dirtyBuffer] at h
  split at h
  · simp only [basicSchedCausesDirty] at h
    exact (chargeAll_touches h).after_still ⟨rfl, rfl, rfl, fun _ => rfl⟩
  · cases h
    exact .of_still ⟨rfl, rfl, rfl, fun _ => rfl⟩

theorem freeCauseList_touches {l : Nat} (h : freeCauseList P s l = some s') :
    Touches P sets gates s s' := by
  simp only [freeCauseList] at h
  split at h
  · exact .of_foldlM (fun _ _ _ => withAccount_touches fun s id => .single (.charge s id)) _ h
  · cases h
    exact .refl

/-! ## Priorities -/

theorem addVioCounter_ioprio (P : Platform) (s : State) (acct : Int) :
    (addVioCounter P s acct).ioprio = s.ioprio := by
  have hcharge : (s.modifyAccount acct (chargeVio P)).ioprio = s.ioprio :=
    Registry.val_modify_keep fun _ => rfl
  have hreset : ∀ t : State, (resetVioCounters t).ioprio = t.ioprio := fun t =>
    Registry.val_map_keep (f := resetVio) fun _ => rfl
  have hmin : ∀ t : State, (updateActiveMin P t).ioprio = t.ioprio := fun t => by
    funext id
    rw [State.ioprio, updateActiveMin_accounts, State.ioprio]
  simp only [addVioCounter]
  split_ifs
  · rw [hreset, hmin, hcharge]
  · rw [hmin, hcharge]
  · rw [hreset, hcharge]
  · exact hcharge

theorem afqAccoutPosSeqUpdate_view (P : Platform) (s : State) (acct : Int) (rq : Nat) :
    (afqAccoutPosSeqUpdate P s acct rq).accounts.val vioView (0, 0, 0) =
      s.accounts.val vioView (0, 0, 0) := by
  simp only [afqAccoutPosSeqUpdate]
  split
  · rfl
  · split
    · rfl
    · exact Registry.val_modify_keep fun _ => rfl

theorem sizeStatItem_accounts (s : State) (l : Nat) : (sizeStatItem s l).accounts = s.accounts := by
  simp only [sizeStatItem]
  split_ifs <;> rfl

/-- Priorities only come from the control device. -/
theorem Touch.forall_ioprio {p : Int → Prop} (hset : ∀ val, sets "ioprio" val → p (P.int val))
    (h : Touch P sets gates s s') (hp : ∀ id, p (s.ioprio id)) (id : Int) : p (s'.ioprio id) := by
  cases h with
  | still h => exact h.ioprio ▸ hp id
  | charge acct => exact addVioCounter_ioprio P s acct ▸ hp id
  | refresh =>
    rw [State.ioprio, updateActiveMin_accounts]
    exact hp id
  | wake acct =>
    refine Registry.forall_val_modify hp (fun a ha => ?_) id
    split <;> exact ha
  | serve acct rq =>
    have hprio : (afqAccoutPosSeqUpdate P s acct rq).ioprio = s.ioprio :=
      funext (val_of_view (afqAccoutPosSeqUpdate_view P s acct rq) fun v => v.1)
    exact hprio ▸ hp id
  | count l =>
    rw [State.ioprio, sizeStatItem_accounts]
    exact hp id
  | @set id' key val h =>
    refine Registry.forall_val_modify hp (fun a ha => ?_) id
    simp only [kvApply]
    split_ifs with hk
    · exact hset val (hk ▸ h)
    · exact ha
    · exact ha

end Afq
end SplitSched
