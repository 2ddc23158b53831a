import SplitSched.Afq.Batches

/-!
# SplitSched.Afq.Selection

Which work `basic_sched_select_io_work` selects. Its loop serves the active account with the smallest
`vio_counter`, and goes on to the next one while the batch is small.

* `minActive_spec`: the account that is chosen has the smallest counter, if one is below the bound.
* `Serves rounds`: the batch is made of what the accounts gave, round by round. `Serves.cons` puts a round in
  front of others.
* `addIoWork_serves`: so does the loop, whatever was in the batch before.
-/

namespace SplitSched
namespace Afq

variable {P : Platform} {s s' s₁ : State} {acct : Int} {b n : Nat}

/-! ## The smallest counter -/

theorem foldl_lesserVio (s : State) (l : List Int) : ∀ best : Int × Option Int,
    (l.foldl (lesserVio s) best).1 ≤ best.1 ∧
      (∀ id ∈ l, (l.foldl (lesserVio s) best).1 ≤ s.vioCounter id) ∧
      (l.foldl (lesserVio s) best = best ∨
        ∃ acct, l.foldl (lesserVio s) best = (s.vioCounter acct, some acct)) := by
  induction l with
  | nil => exact fun best => ⟨le_rfl, by simp, .inl rfl⟩
  | cons id l ih =>
    intro best
    obtain ⟨hle, hall, hwho⟩ := ih (lesserVio s best id)
    have hstep : (lesserVio s best id).1 ≤ best.1 ∧ (lesserVio s best id).1 ≤ s.vioCounter id := by
      unfold lesserVio
      split
      · rename_i hlt
        exact ⟨hlt.le, le_rfl⟩
      · rename_i hge
        exact ⟨le_rfl, not_lt.mp hge⟩
    refine ⟨hle.trans hstep.1, ?_, ?_⟩
    · intro id' hid'
      rcases List.mem_cons.mp hid' with rfl | hid'
      · exact hle.trans hstep.2
      · exact hall id' hid'
    · rcases hwho with hsame | hwho
      · rw [List.foldl_cons, hsame]
        unfold lesserVio
        split
        · exact .inr ⟨id, rfl⟩
        · exact .inl rfl
      · exact .inr hwho

theorem minActive_some {vio : Int} (h : minActive s = (vio, some acct)) :
    ∀ id ∈ s.activeAcctList, s.vioCounter acct ≤ s.vioCounter id := by
  obtain ⟨-, hall, hwho⟩ := foldl_lesserVio s s.activeAcctList (maxVioCounterThreshold * 2, none)
  rw [← minActive, h] at hall hwho
  rcases hwho with hnone | ⟨acct', hsome⟩
  · cases hnone
  · cases hsome
    exact hall

theorem minActive_none {vio : Int} (h : minActive s = (vio, none)) :
    ∀ id ∈ s.activeAcctList, maxVioCounterThreshold * 2 ≤ s.vioCounter id := by
  obtain ⟨-, hall, hwho⟩ := foldl_lesserVio s s.activeAcctList (maxVioCounterThreshold * 2, none)
  rw [← minActive, h] at hall hwho
  rcases hwho with hnone | ⟨acct', hsome⟩
  · cases hnone
    exact hall
  · cases hsome

/-! ## Rounds -/

/-- What an account gave in the rounds in which it was served. -/
def given (rounds : List (Int × List WorkId)) (id : Int) : List WorkId :=
  (rounds.filter fun r => r.1 = id).flatMap (·.2)

/-- The accounts that were served, and the work that each of them gave to the batch `b`. -/
structure Serves (b : Nat) (rounds : List (Int × List WorkId)) (s s' : State) : Prop where
  batch : s'.batchWork b = s.batchWork b ++ rounds.flatMap (·.2)
  workList : ∀ id, s.workList id = given rounds id ++ s'.workList id
  served : ∀ r ∈ rounds, r.1 ∈ s.activeAcctList
  distinct : (rounds.map (·.1)).Nodup
  order : rounds.Pairwise fun r r' => s.vioCounter r.1 ≤ s.vioCounter r'.1
  least : ∀ r ∈ rounds, ∀ id ∈ s'.activeAcctList, s.vioCounter r.1 ≤ s.vioCounter id
  vio : s'.vioCounter = s.vioCounter
  active : s'.activeAcctList ⊆ s.activeAcctList

theorem Serves.nil (b : Nat) (s : State) : Serves b [] s s :=
  ⟨by simp, fun _ => rfl, by simp, .nil, .nil, by simp, rfl, fun _ h => h⟩

theorem Moves.active_subset {moved rest : List WorkId} (hm : Moves b acct moved rest s s') :
    s'.activeAcctList ⊆ s.activeAcctList := by
  rw [hm.activeAcctList]
  split
  · exact List.erase_subset
  · exact fun _ h => h

/-- A round before others. -/
theorem Serves.cons {rounds : List (Int × List WorkId)} {moved rest : List WorkId}
    (h : Serves b rounds s₁ s') (hm : Moves b acct moved rest s s₁) (hvio : s₁.vioCounter = s.vioCounter)
    (hb : s.batches b ≠ none) (hmem : acct ∈ s.activeAcctList)
    (hmin : ∀ id ∈ s.activeAcctList, s.vioCounter acct ≤ s.vioCounter id)
    (hnew : acct ∉ rounds.map (·.1)) : Serves b ((acct, moved) :: rounds) s s' := by
  have hsub := hm.active_subset
  refine ⟨?_, fun id => ?_, ?_, List.nodup_cons.mpr ⟨hnew, h.distinct⟩, ?_, ?_, h.vio.trans hvio,
    fun _ hid => hsub (h.active hid)⟩
  · obtain ⟨d, hd⟩ := Option.ne_none_iff_exists'.mp hb
    have hbatch : s₁.batchWork b = s.batchWork b ++ moved := by
      simp [State.batchWork, hm.batches, hd]
    rw [h.batch, hbatch, List.flatMap_cons, List.append_assoc]
  · have hrest := h.workList id
    rw [hm.workList] at hrest
    by_cases hid : acct = id
    · subst hid
      rw [Function.update_self] at hrest
      simp only [given, List.filter_cons, decide_true, if_true, List.flatMap_cons, List.append_assoc]
      rw [hm.split, hrest]
      rfl
    · rw [Function.update_of_ne (Ne.symm hid)] at hrest
      simpa [given, List.filter_cons, hid] using hrest
  · intro r hr
    rcases List.mem_cons.mp hr with rfl | hr
    · exact hmem
    · exact hsub (h.served r hr)
  · refine List.pairwise_cons.mpr ⟨fun r hr => hmin r.1 (hsub (h.served r hr)), ?_⟩
    rw [← hvio]
    exact h.order
  · intro r hr id hid
    rcases List.mem_cons.mp hr with rfl | hr
    · exact hmin id (hsub (h.active hid))
    · rw [← hvio]
      exact h.least r hr id hid

/-! ## The loop -/

theorem takeWork_size (works : List WorkId) : ∀ n,
    (takeWork works n).2.2 = n + (takeWork works n).1.length ∧
      (n < maxBatchSize → (takeWork works n).2.2 ≤ maxBatchSize) := by
  induction works with
  | nil => exact fun n => ⟨rfl, fun h => h.le⟩
  | cons work works ih =>
    intro n
    obtain ⟨hsize, hle⟩ := ih (n + 1)
    simp only [takeWork]
    split
    · exact ⟨rfl, fun h => h⟩
    · rename_i hlt
      refine ⟨?_, fun _ => hle (not_le.mp hlt)⟩
      rw [hsize, List.length_cons]
      omega

theorem serve_moves (P : Platform) (vio : Int) (h : s.workList acct ≠ []) :
    Moves b acct (takeWork (s.workList acct) n).1 (takeWork (s.workList acct) n).2.1 s
      (moveWork (beginSlice P s acct vio) b n acct).2 := by
  have hw : (beginSlice P s acct vio).workList = s.workList := beginSlice_quiet.workList
  have hm : Moves b acct _ _ (beginSlice P s acct vio) _ := moveWork_moves (b := b) (n := n) (by rwa [hw])
  rw [hw] at hm
  exact ⟨beginSlice_frame.trans hm.toFrame, hw ▸ hm.split, hw ▸ hm.workList, hm.activeAcctList, hm.batches,
    hm.nextBatch⟩

theorem serve_vioCounter {vio : Int} :
    (moveWork (beginSlice P s acct vio) b n acct).2.vioCounter = s.vioCounter := by
  have hslice : (beginSlice P s acct vio).vioCounter = s.vioCounter :=
    Registry.val_modify_keep fun _ => rfl
  have hmove : ∀ t : State, (moveWork t b n acct).2.vioCounter = t.vioCounter := by
    intro t
    have hkeep : ∀ rest : List WorkId,
        (t.modifyAccount acct fun a => { a with ioWorkList := rest }).vioCounter = t.vioCounter :=
      fun rest => Registry.val_modify_keep fun _ => rfl
    simp only [moveWork]
    split <;> exact hkeep _
  exact (hmove _).trans hslice

theorem serve_size {vio : Int} :
    (moveWork (beginSlice P s acct vio) b n acct).1 = (takeWork (s.workList acct) n).2.2 := by
  have hw : (beginSlice P s acct vio).workList = s.workList := beginSlice_quiet.workList
  simp only [moveWork, hw]

/-- While every active account has a counter below the bound, the loop ends with a batch. -/
theorem addIoWork_serves {works : List WorkId} (more : Bool) (hp : Pending s)
    (hb : s.batches b = some ⟨works, 0⟩) (hn : works.length = n) (hlt : n < minBatchSize)
    (hmore : more = true ∨ s.activeAcctList ≠ [])
    (hvio : ∀ id ∈ s.activeAcctList, s.vioCounter id < maxVioCounterThreshold * 2) :
    ∃ rounds, (addIoWork P b n more s).1 = .batch b ∧ Serves b rounds s (addIoWork P b n more s).2 ∧
      ((addIoWork P b n more s).2.batchWork b).length ≤ maxBatchSize := by
  have hmin100 : minBatchSize ≤ maxBatchSize := by decide
  fun_induction addIoWork P b n more s generalizing works with
  | case1 n s vio hmin =>
    refine ⟨[], rfl, .nil b s, ?_⟩
    simp only [State.batchWork, hb, Option.map_some, Option.getD_some]
    omega
  | case2 n more s vio hmin hm =>
    -- some account is active, and its counter is below the bound
    obtain ⟨id, hid⟩ := List.exists_mem_of_ne_nil _ (hmore.resolve_left hm)
    have hge := minActive_none hmin id hid
    have hbelow := hvio id hid
    omega
  | case3 n more s vio acct hmin s₁ =>
    rename_i hno
    have hact := (hp.active acct).mp (minActive_mem hmin)
    have hw : s₁.workList = s.workList := beginSlice_quiet.workList
    simp only [acctNoPendingIo, hw, decide_eq_true_eq] at hno
    exact absurd hno hact
  | case4 n more s vio acct hmin s₁ hno r hwants =>
    rename_i ih
    have hmem := minActive_mem hmin
    have hwork := (hp.active acct).mp hmem
    have hm : Moves b acct _ _ s r.2 := serve_moves (n := n) P vio hwork
    have hv : r.2.vioCounter = s.vioCounter := serve_vioCounter
    have hr : r.1 = (takeWork (s.workList acct) n).2.2 := serve_size
    have hsize := (takeWork_size (s.workList acct) n).1
    have hsmall : r.1 < minBatchSize := by
      simp only [wantsMore, Bool.and_eq_true, decide_eq_true_eq] at hwants
      exact hwants.1
    have hgone : acct ∉ r.2.activeAcctList := by
      have herase : r.2.activeAcctList = s.activeAcctList.erase acct := moveWork_drains hsmall
      rw [herase]
      exact hp.nodup.not_mem_erase
    obtain ⟨rounds, hres, hserves, hlen⟩ := ih (hp.move hm (takeWork_ne_nil hwork n) (by simp [hb]))
      (hm.batch hb) (by rw [List.length_append, hn, hr, hsize]) hsmall (.inl rfl)
      (fun id hid => by rw [hv]; exact hvio id (hm.active_subset hid))
    refine ⟨(acct, _) :: rounds, hres, hserves.cons hm hv (by simp [hb]) hmem (minActive_some hmin) ?_, hlen⟩
    intro hin
    obtain ⟨round, hround, he⟩ := List.mem_map.mp hin
    exact hgone (he ▸ hserves.served round hround)
  | case5 n more s vio acct hmin s₁ hno r =>
    have hmem := minActive_mem hmin
    have hwork := (hp.active acct).mp hmem
    have hm : Moves b acct _ _ s r.2 := serve_moves (n := n) P vio hwork
    have hv : r.2.vioCounter = s.vioCounter := serve_vioCounter
    obtain ⟨hsize, hle⟩ := takeWork_size (s.workList acct) n
    refine ⟨[(acct, _)], rfl, (Serves.nil b r.2).cons hm hv (by simp [hb]) hmem (minActive_some hmin)
      (by simp), ?_⟩
    simp only [State.batchWork, hm.batch hb, Option.map_some, Option.getD_some, List.length_append]
    rw [hn, ← hsize]
    exact hle (hlt.trans_le hmin100)

/-! ## Selection -/

theorem given_eq {rounds : List (Int × List WorkId)} (hd : (rounds.map (·.1)).Nodup) :
    ∀ r ∈ rounds, given rounds r.1 = r.2 := by
  induction rounds with
  | nil => simp
  | cons r rounds ih =>
    obtain ⟨hr, hd⟩ := List.nodup_cons.mp hd
    intro r' hr'
    rcases List.mem_cons.mp hr' with rfl | hr'
    · have hnone : rounds.filter (fun r => r.1 = r'.1) = [] := by
        refine List.filter_eq_nil_iff.mpr fun r hmem => ?_
        simpa using fun he : r.1 = r'.1 => hr (List.mem_map.mpr ⟨r, hmem, he⟩)
      simp [given, hnone]
    · have hne : r.1 ≠ r'.1 := fun he => hr (List.mem_map.mpr ⟨r', hr', he.symm⟩)
      simpa [given, List.filter_cons, hne] using ih hd r' hr'

/-- The batch `b` is made of the rounds, and the rest of the work stays where it was. -/
structure Selection (b : Nat) (rounds : List (Int × List WorkId)) (s s' : State) : Prop where
  batch : s'.batchWork b = rounds.flatMap (·.2)
  nonempty : 1 ≤ (s'.batchWork b).length
  bounded : (s'.batchWork b).length ≤ maxBatchSize
  /-- An account gives its oldest work. -/
  fifo : ∀ r ∈ rounds, r.2 <+: s.workList r.1
  distinct : (rounds.map (·.1)).Nodup
  order : rounds.Pairwise fun r r' => s.vioCounter r.1 ≤ s.vioCounter r'.1
  /-- No account that stays active has a smaller counter than one that was served. -/
  least : ∀ r ∈ rounds, ∀ id ∈ s'.activeAcctList, s'.vioCounter r.1 ≤ s'.vioCounter id
  conserved : ∀ id, s.workList id = given rounds id ++ s'.workList id

/-- The state in which the loop starts: the descriptor is new and holds no work. -/
def selectStart (s : State) : State :=
  { s.setBatch s.nextBatch (some ⟨[], 0⟩) with nextBatch := s.nextBatch + 1, env := s.env.kmalloc.2 }

theorem selectStart_pending (hp : Pending s) : Pending (selectStart s) := by
  have hf : Frame s (selectStart s) := { Frame.refl s with }
  refine hp.setEmptyBatch (b := s.nextBatch) (d := some ⟨[], 0⟩) ?_ rfl rfl rfl rfl hf fun b' hb' => ?_
  · simp [State.batchWork, hp.fresh _ le_rfl]
  · have hb' : s.nextBatch + 1 ≤ b' := hb'
    exact ⟨by omega, fun e => by omega⟩

theorem select_eq (hactive : s.activeAcctList ≠ []) (hidle : idleForLastAcct P s = none)
    (hmem : s.env.kmalloc.1 = true) :
    basicSchedSelectIoWork P s = addIoWork P s.nextBatch 0 false (selectStart s) := by
  simp only [basicSchedSelectIoWork, selectStart, hactive, hidle, hmem, if_false, Option.any_none,
    Bool.false_eq_true, Bool.true_eq_false]

/-- Whatever the accounts, selection serves them if their counters are below the bound. -/
theorem select_serves (hp : Pending s) (hactive : s.activeAcctList ≠ [])
    (hvio : ∀ id ∈ s.activeAcctList, s.vioCounter id < maxVioCounterThreshold * 2)
    (hidle : idleForLastAcct P s = none) (hmem : s.env.kmalloc.1 = true) :
    ∃ rounds, (basicSchedSelectIoWork P s).1 = .batch s.nextBatch ∧
      Serves s.nextBatch rounds (selectStart s) (basicSchedSelectIoWork P s).2 ∧
      ((basicSchedSelectIoWork P s).2.batchWork s.nextBatch).length ≤ maxBatchSize := by
  have hb : (selectStart s).batches s.nextBatch = some ⟨[], 0⟩ := by simp [selectStart, State.setBatch]
  rw [select_eq hactive hidle hmem]
  exact addIoWork_serves false (selectStart_pending hp) hb rfl (by decide) (.inr hactive) hvio

/-- Without an account below the bound, selection fails. -/
theorem select_noAccount (hactive : s.activeAcctList ≠ []) (hidle : idleForLastAcct P s = none)
    (hmem : s.env.kmalloc.1 = true) (hnone : (minActive s).2 = none) :
    (basicSchedSelectIoWork P s).1 = .noAccount := by
  rw [select_eq hactive hidle hmem]
  unfold addIoWork
  split
  · rfl
  · rename_i hmin
    have hsome : (minActive s).2 = some _ := congrArg Prod.snd hmin
    rw [hnone] at hsome
    cases hsome

/-- With every active counter below `MAX_VIO_COUNTER_THRESHOLD * 2`, selection returns a batch of the accounts
with the smallest counters. -/
theorem selection_serves_least (P : Platform) (s : State) (hp : Pending s) (hactive : s.activeAcctList ≠ [])
    (hvio : ∀ id ∈ s.activeAcctList, s.vioCounter id < maxVioCounterThreshold * 2)
    (hidle : idleForLastAcct P s = none) (hmem : s.env.kmalloc.1 = true) :
    ∃ rounds s', basicSchedSelectIoWork P s = (.batch s.nextBatch, s') ∧
      Selection s.nextBatch rounds s s' := by
  obtain ⟨rounds, hres, hserves, hlen⟩ := select_serves hp hactive hvio hidle hmem
  have hfirst : (basicSchedSelectIoWork P s).2.batchWork s.nextBatch ≠ [] := by
    rcases (basicSchedSelectIoWork_spec P hp).1.outcome with ⟨-, -, works, hne, hbatches⟩ | ⟨hno, -⟩
    · simpa [State.batchWork, hbatches] using hne
    · exact absurd hres (hno _)
  refine ⟨rounds, (basicSchedSelectIoWork P s).2, by rw [← hres], ?_⟩
  refine ⟨?_, List.length_pos_iff.mpr hfirst, hlen, fun r hr => ?_, hserves.distinct, hserves.order, ?_,
    hserves.workList⟩
  · rw [hserves.batch]
    simp [State.batchWork, selectStart, State.setBatch]
  · have hsplit : s.workList r.1 = given rounds r.1 ++ _ := hserves.workList r.1
    rw [hsplit, given_eq hserves.distinct r hr]
    exact List.prefix_append _ _
  · rw [hserves.vio]
    exact hserves.least

/-- Reads of two accounts wait. -/
def twoReaders : List Event := [.add 0 7, .add 1 9, .add 2 7]

theorem selection_serves_two_readers : ∃ s₀ w, basicSchedInitData .lp64 sampleMem sampleEnv = some s₀ ∧
    run (step .lp64) (World.init s₀) twoReaders = some w ∧
    ∃ rounds s', basicSchedSelectIoWork .lp64 w.afq = (.batch w.afq.nextBatch, s') ∧
      Selection w.afq.nextBatch rounds w.afq s' := by
  have h : ((basicSchedInitData .lp64 sampleMem sampleEnv).bind fun s₀ =>
      run (step .lp64) (World.init s₀) twoReaders).any (fun w =>
        decide (w.afq.activeAcctList ≠ [] ∧
          (∀ id ∈ w.afq.activeAcctList, w.afq.vioCounter id < maxVioCounterThreshold * 2) ∧
          idleForLastAcct .lp64 w.afq = none ∧ w.afq.env.kmalloc.1 = true)) = true := by
    decide +kernel
  obtain ⟨w, hw, hok⟩ := (Option.any_eq_true _ _).mp h
  obtain ⟨s₀, h0, hr⟩ := Option.bind_eq_some_iff.mp hw
  obtain ⟨hactive, hvio, hidle, hmem⟩ := of_decide_eq_true hok
  exact ⟨s₀, w, h0, hr,
    selection_serves_least .lp64 w.afq (run_sound h0 hr).pending hactive hvio hidle hmem⟩

/-- One reader, whose counter was set to `MAX_VIO_COUNTER_THRESHOLD * 2`. That is below half of `LONG_MAX`. -/
def lateReader : List Event := [.kvSet 7 "vio_counter" (2 ^ 62 - 2), .add 0 7]

theorem selection_refuses_late_reader : ∃ s₀ w, basicSchedInitData .lp64 sampleMem sampleEnv = some s₀ ∧
    run (step .lp64) (World.init s₀) lateReader = some w ∧ Pending w.afq ∧
    w.afq.activeAcctList ≠ [] ∧ (∀ id ∈ w.afq.activeAcctList, w.afq.vioCounter id < (2 ^ 63 - 1) / 2) ∧
    idleForLastAcct .lp64 w.afq = none ∧ w.afq.env.kmalloc.1 = true ∧
    (basicSchedSelectIoWork .lp64 w.afq).1 = .noAccount := by
  have h : ((basicSchedInitData .lp64 sampleMem sampleEnv).bind fun s₀ =>
      run (step .lp64) (World.init s₀) lateReader).any (fun w =>
        decide (w.afq.activeAcctList ≠ [] ∧
          (∀ id ∈ w.afq.activeAcctList, w.afq.vioCounter id < (2 ^ 63 - 1) / 2) ∧
          idleForLastAcct .lp64 w.afq = none ∧ w.afq.env.kmalloc.1 = true ∧
          (minActive w.afq).2 = none)) = true := by
    decide +kernel
  obtain ⟨w, hw, hok⟩ := (Option.any_eq_true _ _).mp h
  obtain ⟨s₀, h0, hr⟩ := Option.bind_eq_some_iff.mp hw
  obtain ⟨hactive, hvio, hidle, hmem, hnone⟩ := of_decide_eq_true hok
  exact ⟨s₀, w, h0, hr, (run_sound h0 hr).pending, hactive, hvio, hidle, hmem,
    select_noAccount hactive hidle hmem hnone⟩

end Afq
end SplitSched
