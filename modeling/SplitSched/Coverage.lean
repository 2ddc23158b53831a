import SplitSched.Afq.Work
import SplitSched.Tb.Dispatch

/-!
# SplitSched.Coverage

Whether disk accounting covers the bytes of a request, for both schedulers.

* `Tb.accountForReq_adds`: the extents `account_for_req` adds to the global batch are those of the
  request's bios; `Afq.afqAccountRequest2_charges` says the same of `afq_account_request2`.
* `accounted_extents_partition_iff`: they partition the byte ranges of the bios exactly when every bio
  without cause lists of its own is empty. `do_disk_accounting` takes the size of an extent from the
  cause list, and the list that `set_request` creates has size 0.
-/

namespace SplitSched

/-! ## The extents of the token-bucket scheduler -/

namespace Tb

variable {P : Platform} {s : State}

theorem getAccount_adds (P : Platform) (s : State) (id : Int) :
    (getAccount P s id).2.adds = s.adds := by
  rcases getAccount_cases P s id with ⟨-, h⟩ | ⟨-, a, -, -, h⟩ | ⟨-, -, h⟩ <;> rw [h]
  rfl

theorem foldl_chargeEstimate_adds (P : Platform) (amt : Int → Int) (ids : List Int) :
    ∀ s, (ids.foldl (chargeEstimate P amt) s).adds = s.adds :=
  foldl_keeps (f := chargeEstimate P amt) (getAccount_adds P) ids

theorem addToBatches_adds (P : Platform) (offset size share : Int) (ids : List Int) :
    ∀ r, (addToBatches P offset size share ids r).2.adds = r.2.adds := by
  induction ids with
  | nil => exact fun _ => rfl
  | cons id ids ih => exact fun r => (ih _).trans (getAccount_adds P r.2 id)

theorem doDiskAccounting_adds (P : Platform) (s : State) (l : Nat) (offset : Int) :
    (doDiskAccounting P s l offset).adds = s.adds ++ [⟨offset, P.int (s.mem.lists l).size⟩] := by
  simp only [doDiskAccounting]
  split <;> exact addToBatches_adds ..

/-- `account_for_causes` adds one extent, of the size of the cause list. -/
theorem accountForCauses_adds (P : Platform) (s : State) (l : Nat) (offset size : Int) :
    (accountForCauses P s l offset size).adds =
      s.adds ++ [⟨offset, P.int (s.mem.lists l).size⟩] := by
  simp only [accountForCauses]
  rw [doDiskAccounting_adds]
  split_ifs
  · simp [State.setList]
  · rw [foldl_chargeEstimate_adds, (foldl_chargeEstimate_grows P _ _ _).size]
    simp [State.setList, causesSetCost]
  · rfl

theorem accountForItems_adds (P : Platform) (ls : List Nat) : ∀ (offset : Int) (s : State),
    (accountForItems P ls offset s).adds = s.adds ++ listExtents P s.mem ls offset := by
  induction ls with
  | nil => exact fun _ s => (List.append_nil _).symm
  | cons l ls ih =>
    intro offset s
    have hg := accountForCauses_grows P s l offset (s.mem.lists l).size
    simp only [accountForItems]
    rw [ih, accountForCauses_adds, hg.size, listExtents_congr hg.size, List.append_assoc,
      listExtents, List.singleton_append]

theorem accountForRqCauses_adds (P : Platform) (s : State) (rq : Nat) (bio : Bio) :
    (accountForRqCauses P s rq (bio.biSector * 512) bio).adds =
      s.adds ++ rqExtents P s.mem (s.mem.rqs rq) bio := by
  simp only [accountForRqCauses, rqExtents]
  cases (s.mem.rqs rq).causes with
  | none => exact (List.append_nil _).symm
  | some l => exact accountForCauses_adds ..

theorem accountForBio_adds (P : Platform) (rq : Nat) (s : State) (bio : Bio) :
    (accountForBio P rq s bio).adds = s.adds ++ bioExtents P s.mem (s.mem.rqs rq) bio := by
  simp only [accountForBio, bioExtents, apply_ite State.adds, ite_self]
  cases bio.cll with
  | none => exact accountForRqCauses_adds ..
  | some cll =>
    simp only
    split
    · exact accountForItems_adds ..
    · exact accountForRqCauses_adds ..

theorem foldl_accountForBio_adds (P : Platform) (rq : Nat) (bios : List Bio) : ∀ s : State,
    (bios.foldl (accountForBio P rq) s).adds =
      s.adds ++ bios.flatMap (bioExtents P s.mem (s.mem.rqs rq)) := by
  induction bios with
  | nil => exact fun s => (List.append_nil _).symm
  | cons bio bios ih =>
    intro s
    have hg := accountForBio_grows P rq s bio
    rw [List.foldl_cons, ih, accountForBio_adds, List.append_assoc, List.flatMap_cons, hg.rqs,
      funext (bioExtents_congr hg.size hg.items)]

theorem accountForReq_adds (P : Platform) (s : State) (rq : Nat) :
    (accountForReq P s rq).adds =
      s.adds ++ (s.mem.rqs rq).bios.flatMap (bioExtents P s.mem (s.mem.rqs rq)) :=
  foldl_accountForBio_adds P rq _ s

end Tb

/-! ## Coverage -/

/-- The extents that were added between `adds` and `adds'` partition the bios of the request. -/
def Accounted (r : Request) (adds adds' : List IORequest) : Prop :=
  ∃ exts, adds' = adds ++ exts ∧ Partitions r.bios exts

/-- All bios of a request are tagged as the block layer tags them. -/
def RequestTagged (P : Platform) (m : Mem) (rq : Nat) : Prop :=
  ∀ bio ∈ (m.rqs rq).bios, WellTagged P m (m.rqs rq) bio

theorem accounted_iff {P : Platform} {m : Mem} {rq : Nat} {adds adds' : List IORequest}
    (ht : RequestTagged P m rq)
    (ha : adds' = adds ++ (m.rqs rq).bios.flatMap (bioExtents P m (m.rqs rq))) :
    Accounted (m.rqs rq) adds adds' ↔
      ∀ bio ∈ (m.rqs rq).bios, bio.cll = none → bio.biSize = 0 := by
  rw [← partitions_iff ht]
  constructor
  · rintro ⟨exts, he, hp⟩
    rwa [List.append_cancel_left (he.symm.trans ha)] at hp
  · exact fun hp => ⟨_, ha, hp⟩

/-- The extents a request is accounted for partition its bios exactly when every bio that falls back
on the request's own cause list is empty, in either scheduler. With memory to spare, the accounting
of the AFQ scheduler returns. -/
theorem accounted_extents_partition_iff (P : Platform) (tb : Tb.State) (afq : Afq.State) (rq : Nat)
    (htb : RequestTagged P tb.mem rq) (hafq : RequestTagged P afq.mem rq) :
    (Accounted (tb.mem.rqs rq) tb.adds (Tb.accountForReq P tb rq).adds ↔
      ∀ bio ∈ (tb.mem.rqs rq).bios, bio.cll = none → bio.biSize = 0) ∧
    (afq.env.Plenty → ∃ afq', Afq.afqAccountRequest2 P afq rq = some afq') ∧
    ∀ afq', Afq.afqAccountRequest2 P afq rq = some afq' →
      (Accounted (afq.mem.rqs rq) afq.adds afq'.adds ↔
        ∀ bio ∈ (afq.mem.rqs rq).bios, bio.cll = none → bio.biSize = 0) :=
  ⟨accounted_iff htb (Tb.accountForReq_adds P tb rq),
    fun hm => Afq.afqAccountRequest2_total hm rq,
    fun _ h => accounted_iff hafq (Afq.afqAccountRequest2_charges h).adds⟩

/-- Every request writes two pages that account 7 has dirtied. -/
def twoPages : Mem :=
  { sampleMem with
    lists := fun l => { CauseList.new.push 7 (by decide) with size := if l = 3 then 0 else 4096 }
    rqs := fun _ => ⟨[⟨some ⟨2, 8192, [0, 1], 256⟩, 8, 8192⟩], true, 8192, 8, some 3⟩ }

/-- A write of two dirtied pages. -/
theorem accounted_extents_two_pages :
    ∃ tb afq, Tb.tbucketInitQueue .lp64 twoPages sampleEnv = some tb ∧
      Afq.basicSchedInitData .lp64 twoPages sampleEnv = some afq ∧
      (Accounted (tb.mem.rqs 0) tb.adds (Tb.accountForReq .lp64 tb 0).adds ↔
        ∀ bio ∈ (tb.mem.rqs 0).bios, bio.cll = none → bio.biSize = 0) ∧
      (afq.env.Plenty → ∃ afq', Afq.afqAccountRequest2 .lp64 afq 0 = some afq') ∧
      ∀ afq', Afq.afqAccountRequest2 .lp64 afq 0 = some afq' →
        (Accounted (afq.mem.rqs 0) afq.adds afq'.adds ↔
          ∀ bio ∈ (afq.mem.rqs 0).bios, bio.cll = none → bio.biSize = 0) := by
  have htag : RequestTagged .lp64 twoPages 0 := by
    intro bio hbio
    cases List.mem_singleton.mp hbio
    exact ⟨rfl, ⟨by decide, by decide⟩, by decide, by decide⟩
  have htb : (Tb.tbucketInitQueue .lp64 twoPages sampleEnv).isSome = true := by decide +kernel
  have hafq : (Afq.basicSchedInitData .lp64 twoPages sampleEnv).isSome = true := by decide +kernel
  obtain ⟨tb, htb⟩ := Option.isSome_iff_exists.mp htb
  obtain ⟨afq, hafq⟩ := Option.isSome_iff_exists.mp hafq
  refine ⟨tb, afq, htb, hafq, accounted_extents_partition_iff .lp64 tb afq 0 ?_ ?_⟩
  · rw [(Tb.tbucketInitQueue_fresh htb).2.1]
    exact htag
  · rw [(Afq.basicSchedInitData_fresh hafq).1]
    exact htag

/-- A task of account 7 reads 4096 bytes at sector 8. Both schedulers account for an extent of no
bytes. -/
theorem read_accounted_as_empty :
    (∃ tb, Tb.tbucketInitQueue .lp64 sampleMem sampleEnv = some tb ∧
      (Tb.accountForReq .lp64 (Tb.tbucketAddRequest .lp64 tb 1 7) 1).adds = [⟨4096, 0⟩]) ∧
    (∃ afq afq₁ afq₂, Afq.basicSchedInitData .lp64 sampleMem sampleEnv = some afq ∧
      Afq.basicSchedAddRequest .lp64 afq 1 7 = some afq₁ ∧
      Afq.afqAccountRequest2 .lp64 afq₁ 1 = some afq₂ ∧ afq₂.adds = [⟨4096, 0⟩]) ∧
    ¬ Partitions (sampleMem.rqs 1).bios [⟨4096, 0⟩] := by
  refine ⟨?_, ?_, fun h => absurd h.bytes (by decide)⟩
  · have h : (Tb.tbucketInitQueue .lp64 sampleMem sampleEnv).any (fun tb =>
        decide ((Tb.accountForReq .lp64 (Tb.tbucketAddRequest .lp64 tb 1 7) 1).adds =
          [⟨4096, 0⟩])) = true := by
      decide +kernel
    obtain ⟨tb, htb, hadds⟩ := (Option.any_eq_true _ _).mp h
    exact ⟨tb, htb, of_decide_eq_true hadds⟩
  · have h : (((Afq.basicSchedInitData .lp64 sampleMem sampleEnv).bind fun afq =>
        Afq.basicSchedAddRequest .lp64 afq 1 7).bind fun afq =>
          Afq.afqAccountRequest2 .lp64 afq 1).any (fun afq =>
            decide (afq.adds = [⟨4096, 0⟩])) = true := by
      decide +kernel
    obtain ⟨afq₂, hafq₂, hadds⟩ := (Option.any_eq_true _ _).mp h
    obtain ⟨afq₁, hafq₁, h₂⟩ := Option.bind_eq_some_iff.mp hafq₂
    obtain ⟨afq, hafq, h₁⟩ := Option.bind_eq_some_iff.mp hafq₁
    exact ⟨afq, afq₁, afq₂, hafq, h₁, h₂, of_decide_eq_true hadds⟩

end SplitSched
