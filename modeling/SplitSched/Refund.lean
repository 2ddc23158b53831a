import SplitSched.Afq.Charges
import SplitSched.Afq.Work
import SplitSched.Tb.Charges

/-!
# SplitSched.Refund

A buffer is dirtied and then freed without reaching the disk: does the refund undo the charge?

* `Tb.refund_estimate`, `Afq.refund_estimate`: what is left on the accounts. Both schedulers charge a
  share of the estimated cost, that is of the seek and the size. tbucket.c refunds a share of the
  size; acct_afq_sched.c refunds nothing to the estimate.
* `dirty_free_neutral_iff`: the estimates are what they were exactly when the shares agree after
  rounding, in tbucket.c, and when the share charged rounds to 0, in acct_afq_sched.c.
-/

namespace SplitSched

open CArith

def firstCost (m : Mem) (d : Dirtier) (bSize : Nat) : Int :=
  seekTime d.pos (inodeGetPos m d.inode) + bSize

theorem firstCost_bounds {m : Mem} {d : Dirtier} {bSize : Nat} (hb : bSize < 2 ^ 30) :
    0 ≤ firstCost m d bSize ∧ firstCost m d bSize < 2 ^ 31 := by
  have h0 := seekTime_nonneg d.pos (inodeGetPos m d.inode)
  have h1 := seekTime_le d.pos (inodeGetPos m d.inode)
  simp only [firstCost, seekCap] at *
  omega

/-- Adding a small amount to a `long` leaves it as it is only if the amount is 0. -/
theorem long_add_eq_self {P : Platform} {e x : Int} (he : P.long e = e) (h₁ : -2 ^ 63 < x)
    (h₂ : x < 2 ^ 63) : P.long (e + x) = e ↔ x = 0 := by
  constructor
  · exact fun h => P.long_near e x (h.trans he.symm) h₁ h₂
  · rintro rfl
    rw [add_zero, he]

/-- The accounts on the list agree with `e` exactly when nothing was added to theirs. -/
theorem shares_eq_iff {P : Platform} {ids : List Int} {e est : Int → Int} {x : Int}
    (he : ∀ j, P.long (e j) = e j) (h₁ : -2 ^ 63 < x) (h₂ : x < 2 ^ 63) (hne : ids ≠ [])
    (hest : ∀ j, est j = if j ∈ ids then P.long (e j + x) else e j) :
    (∀ j, est j = e j) ↔ x = 0 := by
  constructor
  · intro h
    obtain ⟨a, ids, rfl⟩ := List.exists_cons_of_ne_nil hne
    have ha := h a
    rw [hest, if_pos (List.mem_cons_self ..)] at ha
    exact (long_add_eq_self (he a) h₁ h₂).mp ha
  · intro hx j
    rw [hest]
    split
    · exact (long_add_eq_self (he j) h₁ h₂).mpr hx
    · rfl

theorem DirtiedBy.freeNotifies {P : Platform} {uniq : Int} {est₀ est : Int → Int} {l bSize : Nat}
    {cost : Int} {ids : List Int} {m : Mem} (h : DirtiedBy P uniq est₀ l bSize cost ids m est) :
    freeNotifies m l = true := by
  unfold SplitSched.freeNotifies
  split
  · rename_i hq
    exact absurd hq h.callbackQ
  · simp [isCurrent, h.schedUniq]

/-! ## The token-bucket scheduler -/

namespace Tb

variable {P : Platform} {s : State} {q l bSize : Nat} {d : Dirtier} {ds : List Dirtier}

def dirtyStep (P : Platform) (q l bSize : Nat) (s : State) (d : Dirtier) : Option State :=
  some (dirtyBuffer P s q l ⟨d.account, none⟩ bSize d.inode d.pos)

theorem refund_estimate (hm : s.env.Plenty) (hl : s.mem.lists l = .new) (h0 : 0 < bSize)
    (hb : bSize < 2 ^ 30) (hnd : ((d :: ds).map Dirtier.account).Nodup) :
    ∃ s', run (dirtyStep P q l bSize) s (d :: ds) = some s' ∧ ∀ j,
      (freeCauseList P s' l).estimate j =
        if j ∈ (d :: ds).map Dirtier.account then
          P.long (s.estimate j + (safeDiv (firstCost s.mem d bSize) (d :: ds).length -
            safeDiv bSize (d :: ds).length))
        else s.estimate j := by
  obtain ⟨s', hrun, hm', hd⟩ := dirty_run (P := P) (l := l) State.mem State.estimate
    (fun s => s.env.Plenty) (dirtyStep P q l bSize)
    (fun s d hm ha hcur => by
      have hj := dirtyBuffer_dirtied (P := P) hm q bSize d.inode d.pos ha hcur
      refine ⟨_, rfl, fun n => ?_, hj.toJoins⟩
      rw [hj.memory]
      exact hm n)
    hm (by rw [hl]; rfl) (by rw [hl]; decide) (by rw [hl]; rfl) h0 rfl
    (firstCost_bounds hb).2 hnd
  have hlen : (s'.mem.lists l).itemCount = ((d :: ds).length : Int) := by
    rw [(s'.mem.lists l).count_eq, hd.items, List.length_map]
  have hrefund : freeRefund P (s'.mem.lists l) = safeDiv bSize (d :: ds).length := by
    have hlong : P.long (bSize : Int) = bSize := P.long_fits _ (by omega) (by omega)
    rw [freeRefund, hlen, hd.size, hlong]
    exact int_share (by omega) (by omega)
  refine ⟨s', hrun, fun j => ?_⟩
  simp only [freeCauseList, hd.freeNotifies, if_true, tbucketCausesFree]
  rw [foldl_chargeEstimate_estimate _ (s'.mem.lists l).nodup hm', hd.items, hd.estimate, hrefund,
    List.length_map]
  split
  · rw [P.long_add]
    congr 1
    simp only [firstCost]
    ring
  · rfl

end Tb

/-! ## The AFQ scheduler -/

namespace Afq

variable {P : Platform} {s : State} {q l bSize : Nat} {d : Dirtier} {ds : List Dirtier}

def dirtyStep (P : Platform) (q l bSize : Nat) (s : State) (d : Dirtier) : Option State :=
  dirtyBuffer P s q l ⟨d.account, none⟩ bSize d.inode d.pos

theorem refund_estimate (hm : s.env.Plenty) (hl : s.mem.lists l = .new) (h0 : 0 < bSize)
    (hb : bSize < 2 ^ 30) (hnd : ((d :: ds).map Dirtier.account).Nodup) :
    ∃ s' s'', run (dirtyStep P q l bSize) s (d :: ds) = some s' ∧
      freeCauseList P s' l = some s'' ∧ ∀ j,
      s''.estimate j =
        if j ∈ (d :: ds).map Dirtier.account then
          P.long (s.estimate j + safeDiv (firstCost s.mem d bSize) (d :: ds).length)
        else s.estimate j := by
  obtain ⟨s', hrun, hm', hd⟩ := dirty_run (P := P) (l := l) State.mem State.estimate
    (fun s => s.env.Plenty) (dirtyStep P q l bSize)
    (fun s d hm ha hcur => dirtyBuffer_joins hm ha hcur)
    hm (by rw [hl]; rfl) (by rw [hl]; decide) (by rw [hl]; rfl) h0 rfl
    (firstCost_bounds hb).2 hnd
  obtain ⟨s'', hfree, hest⟩ := freeCauseList_estimate (P := P) hm' l
  refine ⟨s', s'', hrun, hfree, fun j => ?_⟩
  rw [hest, hd.estimate, List.length_map]
  rfl

end Afq

/-! ## Neutrality -/

/-- A new list is dirtied by distinct accounts and then freed. The estimates of the token-bucket
scheduler are what they were exactly when the share of the cost and the share of the size agree
after rounding; those of the AFQ scheduler, exactly when the share of the cost rounds to 0. -/
theorem dirty_free_neutral_iff (P : Platform) (tb : Tb.State) (afq : Afq.State) (q l bSize : Nat)
    (d : Dirtier) (ds : List Dirtier) (htb : tb.env.Plenty) (hafq : afq.env.Plenty)
    (hltb : tb.mem.lists l = .new) (hlafq : afq.mem.lists l = .new)
    (hetb : ∀ j, P.long (tb.estimate j) = tb.estimate j)
    (heafq : ∀ j, P.long (afq.estimate j) = afq.estimate j) (h0 : 0 < bSize) (hb : bSize < 2 ^ 30)
    (hnd : ((d :: ds).map Dirtier.account).Nodup) :
    (∃ tb', run (Tb.dirtyStep P q l bSize) tb (d :: ds) = some tb' ∧
      ((∀ j, (Tb.freeCauseList P tb' l).estimate j = tb.estimate j) ↔
        safeDiv (firstCost tb.mem d bSize) (d :: ds).length = safeDiv bSize (d :: ds).length)) ∧
    ∃ afq' afq'', run (Afq.dirtyStep P q l bSize) afq (d :: ds) = some afq' ∧
      Afq.freeCauseList P afq' l = some afq'' ∧
      ((∀ j, afq''.estimate j = afq.estimate j) ↔
        safeDiv (firstCost afq.mem d bSize) (d :: ds).length = 0) := by
  have hcount : (0 : Int) ≤ ((d :: ds).length : Int) := by positivity
  have hshare : ∀ c : Int, 0 ≤ c → c < 2 ^ 31 →
      0 ≤ safeDiv c (d :: ds).length ∧ safeDiv c (d :: ds).length < 2 ^ 31 := fun c hc hc' =>
    ⟨safeDiv_nonneg hc hcount, lt_of_le_of_lt (safeDiv_le _ hc) hc'⟩
  have hsize := hshare bSize (by omega) (by omega)
  refine ⟨?_, ?_⟩
  · obtain ⟨tb', hrun, hest⟩ := Tb.refund_estimate (P := P) (q := q) htb hltb h0 hb hnd
    have hc := hshare _ (firstCost_bounds (m := tb.mem) (d := d) hb).1 (firstCost_bounds hb).2
    refine ⟨tb', hrun, ?_⟩
    rw [shares_eq_iff hetb (by omega) (by omega) (by simp) hest, sub_eq_zero]
  · obtain ⟨afq', afq'', hrun, hfree, hest⟩ :=
      Afq.refund_estimate (P := P) (q := q) hafq hlafq h0 hb hnd
    have hc := hshare _ (firstCost_bounds (m := afq.mem) (d := d) hb).1 (firstCost_bounds hb).2
    exact ⟨afq', afq'', hrun, hfree, shares_eq_iff heafq (by omega) (by omega) (by simp) hest⟩

/-- Accounts 7 and 8 dirty a page at the start of a file. -/
theorem dirty_free_neutral_two_accounts :
    ∃ tb afq, Tb.tbucketInitQueue .lp64 sampleMem sampleEnv = some tb ∧
      Afq.basicSchedInitData .lp64 sampleMem sampleEnv = some afq ∧
      (∃ tb', run (Tb.dirtyStep .lp64 0 0 4096) tb [⟨7, 0, 0⟩, ⟨8, 0, 0⟩] = some tb' ∧
        ((∀ j, (Tb.freeCauseList .lp64 tb' 0).estimate j = tb.estimate j) ↔
          safeDiv (firstCost tb.mem ⟨7, 0, 0⟩ 4096) 2 = safeDiv 4096 2)) ∧
      ∃ afq' afq'', run (Afq.dirtyStep .lp64 0 0 4096) afq [⟨7, 0, 0⟩, ⟨8, 0, 0⟩] = some afq' ∧
        Afq.freeCauseList .lp64 afq' 0 = some afq'' ∧
        ((∀ j, afq''.estimate j = afq.estimate j) ↔
          safeDiv (firstCost afq.mem ⟨7, 0, 0⟩ 4096) 2 = 0) := by
  have htb : (Tb.tbucketInitQueue .lp64 sampleMem sampleEnv).isSome = true := by decide +kernel
  have hafq : (Afq.basicSchedInitData .lp64 sampleMem sampleEnv).isSome = true := by decide +kernel
  obtain ⟨tb, htb⟩ := Option.isSome_iff_exists.mp htb
  obtain ⟨afq, hafq⟩ := Option.isSome_iff_exists.mp hafq
  obtain ⟨hfresh, hmem, hmemory⟩ := Tb.tbucketInitQueue_fresh htb
  obtain ⟨hmem', hmemory', hest'⟩ := Afq.basicSchedInitData_fresh hafq
  refine ⟨tb, afq, htb, hafq, dirty_free_neutral_iff .lp64 tb afq 0 0 4096 ⟨7, 0, 0⟩ [⟨8, 0, 0⟩]
    (fun n => ?_) (fun n => ?_) ?_ ?_ (fun j => ?_) (fun j => ?_) (by decide) (by decide) (by decide)⟩
  · rw [hmemory]; rfl
  · rw [hmemory']; rfl
  · rw [hmem]; rfl
  · rw [hmem']; rfl
  · rw [hfresh.estimate]; rfl
  · rw [hest']; rfl

/-- Account 7 dirties a page of 4096 bytes and the page is dropped. With the page at offset 8192 of
the file, tbucket.c leaves the seek of 8192 on the account; with the page at offset 0,
acct_afq_sched.c leaves all 4096. -/
theorem dropped_page_charged :
    (∃ tb tb', Tb.tbucketInitQueue .lp64 sampleMem sampleEnv = some tb ∧ tb.estimate 7 = 0 ∧
      run (Tb.dirtyStep .lp64 0 0 4096) tb [⟨7, 0, 8192⟩] = some tb' ∧
      (Tb.freeCauseList .lp64 tb' 0).estimate 7 = 8192) ∧
    ∃ afq afq' afq'', Afq.basicSchedInitData .lp64 sampleMem sampleEnv = some afq ∧
      afq.estimate 7 = 0 ∧ run (Afq.dirtyStep .lp64 0 0 4096) afq [⟨7, 0, 0⟩] = some afq' ∧
      Afq.freeCauseList .lp64 afq' 0 = some afq'' ∧ afq''.estimate 7 = 4096 := by
  constructor
  · have h : ((Tb.tbucketInitQueue .lp64 sampleMem sampleEnv).bind fun tb =>
        run (Tb.dirtyStep .lp64 0 0 4096) tb [⟨7, 0, 8192⟩]).any (fun tb' =>
          decide ((Tb.freeCauseList .lp64 tb' 0).estimate 7 = 8192)) = true := by
      decide +kernel
    obtain ⟨tb', htb', hest⟩ := (Option.any_eq_true _ _).mp h
    obtain ⟨tb, htb, hrun⟩ := Option.bind_eq_some_iff.mp htb'
    exact ⟨tb, tb', htb, (Tb.tbucketInitQueue_fresh htb).1.estimate 7, hrun, of_decide_eq_true hest⟩
  · have h : (((Afq.basicSchedInitData .lp64 sampleMem sampleEnv).bind fun afq =>
        run (Afq.dirtyStep .lp64 0 0 4096) afq [⟨7, 0, 0⟩]).bind fun afq' =>
          Afq.freeCauseList .lp64 afq' 0).any (fun afq'' =>
            decide (afq''.estimate 7 = 4096)) = true := by
      decide +kernel
    obtain ⟨afq'', hafq'', hest⟩ := (Option.any_eq_true _ _).mp h
    obtain ⟨afq', hafq', hfree⟩ := Option.bind_eq_some_iff.mp hafq''
    obtain ⟨afq, hafq, hrun⟩ := Option.bind_eq_some_iff.mp hafq'
    exact ⟨afq, afq', afq'', hafq, (Afq.basicSchedInitData_fresh hafq).2.2 7, hrun, hfree,
      of_decide_eq_true hest⟩

end SplitSched
