import SplitSched.Afq.DiskBatches
import SplitSched.Tb.DiskBatches

/-!
# SplitSched.DiskBatches

No extent is lost between the cause lists and the cost model, in either scheduler. A full batch drops
what is added to it, so `do_disk_accounting` has to leave every batch with room: the global one, and
that of every account, whether it was there before or created on the way.
-/

namespace SplitSched

/-- Started with empty batches, neither scheduler ever has a full batch between two calls: every batch
holds the bytes of the lists that were added to it since the last flush, and whatever the next call
is, each batch takes the extent the call adds to it. -/
theorem batches_take_every_extent (P : Platform) (tb : Tb.State) (afq : Afq.State)
    (es es' : List DiskEvent) (w : Tallied Tb.State) (w' : Tallied Afq.State)
    (htb : tb.env.Plenty) (hafq : afq.env.Plenty)
    (htb0 : (tb.batchSet P).Empty Tb.batchSize Tb.batchByteCap)
    (hafq0 : (afq.batchSet P).Empty Afq.batchSize Afq.batchByteCap)
    (hw : run (Tb.diskStep P) ⟨tb, .zero⟩ es = some w)
    (hw' : run (Afq.diskStep P) ⟨afq, .zero⟩ es' = some w') :
    Tb.DiskOk P w ∧ Afq.DiskOk P w' :=
  ⟨Tb.diskOk_of_run htb htb0 hw, Afq.diskOk_of_run hafq hafq0 hw'⟩

/-- Two pages, with an account created in between. -/
theorem batches_take_two_pages :
    ∃ tb afq w w', Tb.tbucketInitQueue .lp64 pagesOfSeven sampleEnv = some tb ∧
      Afq.basicSchedInitData .lp64 pagesOfSeven sampleEnv = some afq ∧
      run (Tb.diskStep .lp64) ⟨tb, .zero⟩ [.account 0 0, .getAccount 9, .account 1 4096] = some w ∧
      run (Afq.diskStep .lp64) ⟨afq, .zero⟩ [.account 0 0, .getAccount 9, .account 1 4096] = some w' ∧
      Tb.DiskOk .lp64 w ∧ Afq.DiskOk .lp64 w' := by
  have htb : ((Tb.tbucketInitQueue .lp64 pagesOfSeven sampleEnv).bind fun tb =>
      run (Tb.diskStep .lp64) ⟨tb, .zero⟩
        [.account 0 0, .getAccount 9, .account 1 4096]).isSome = true := by
    decide +kernel
  have hafq : ((Afq.basicSchedInitData .lp64 pagesOfSeven sampleEnv).bind fun afq =>
      run (Afq.diskStep .lp64) ⟨afq, .zero⟩
        [.account 0 0, .getAccount 9, .account 1 4096]).isSome = true := by
    decide +kernel
  obtain ⟨w, hw⟩ := Option.isSome_iff_exists.mp htb
  obtain ⟨tb, htb, hw⟩ := Option.bind_eq_some_iff.mp hw
  obtain ⟨w', hw'⟩ := Option.isSome_iff_exists.mp hafq
  obtain ⟨afq, hafq, hw'⟩ := Option.bind_eq_some_iff.mp hw'
  refine ⟨tb, afq, w, w', htb, hafq, hw, hw', batches_take_every_extent .lp64 tb afq _ _ w w' ?_ ?_
    (Tb.tbucketInitQueue_batchSet htb) (Afq.basicSchedInitData_batchSet hafq) hw hw'⟩
  · intro n
    rw [(Tb.tbucketInitQueue_fresh htb).2.2]
    rfl
  · intro n
    rw [(Afq.basicSchedInitData_fresh hafq).2.1]
    rfl

end SplitSched
