import SplitSched.Afq.Machine
import SplitSched.Lib.Outstanding

/-!
# SplitSched.Afq.Batches

The life of a batch descriptor, from its selection to the return of its last unit of work.

* `World.members w b`: the work that was submitted with the batch `b`; `World.unreturned w b`: what
  has not returned of it.
* `Sound`: the invariant of the machine. Besides `Pending` it says what the records have to do with
  each other (`Recorded`) and what the descriptors count (`Counted`). Every change keeps it
  (`change_sound`), so it holds along every run (`run_sound`).
* `pending_work_linked`: the active list and the lists of work in every state a run reaches.
* `batch_freed_after_last_return`: `one_loop_work` counts the work that has not returned, the
  descriptor is freed when the last of it returns, and none is used after that.
-/

namespace SplitSched
namespace Afq

variable {P : Platform} {w w' : World} {s s' : State} {work : WorkId} {b : Nat}

/-! ## The invariant -/

namespace World

/-- The work that was submitted with a batch. -/
def members (w : World) (b : Nat) : List WorkId :=
  w.afq.submitted.filter fun work => (w.afq.descs work).ownerBatch = some b

def unreturned (w : World) (b : Nat) : List WorkId := outstanding (w.members b) w.returned

end World

theorem mem_members : work ∈ w.members b ↔
    work ∈ w.afq.submitted ∧ (w.afq.descs work).ownerBatch = some b := by
  simp [World.members]

theorem members_congr (hsub : w'.afq.submitted = w.afq.submitted)
    (hown : ∀ work ∈ w.afq.submitted,
      (w'.afq.descs work).ownerBatch = (w.afq.descs work).ownerBatch) (b : Nat) :
    w'.members b = w.members b := by
  rw [World.members, World.members, hsub]
  exact List.filter_congr fun work hw => by rw [hown work hw]

/-- What the records of calls have to do with each other. -/
structure Recorded (w : World) : Prop where
  owner : ∀ work b, (w.afq.descs work).ownerBatch = some b →
    work ∈ w.afq.submitted ∧ b < w.afq.nextBatch
  owned : ∀ work ∈ w.afq.submitted, (w.afq.descs work).ownerBatch ≠ none
  woken : ∀ work, (w.afq.descs work).woken = true → work ∈ w.afq.submitted
  called : ∀ work ∈ w.returned, work.request = none → work ∈ w.afq.submitted
  completed : ∀ rq, .req rq ∈ w.returned → rq ∈ w.afq.sorted
  sorted : ∀ rq ∈ w.afq.sorted, rq ∈ w.added ∧
    (.req rq ∈ w.afq.accepted → .req rq ∈ w.afq.submitted)
  nodup : w.afq.sorted.Nodup
  added : ∀ rq, .req rq ∈ w.afq.accepted → rq ∈ w.added

/-- Work that waits has not returned. -/
theorem Recorded.returned (h : Recorded w) (hw : work ∈ w.returned) (hacc : work ∈ w.afq.accepted) :
    work ∈ w.afq.submitted := by
  cases work with
  | req rq => exact (h.sorted rq (h.completed rq hw)).2 hacc
  | write n => exact h.called _ hw rfl
  | fsync n => exact h.called _ hw rfl
  | mkdir n => exact h.called _ hw rfl

/-- What the batch descriptors count. -/
structure Counted (w : World) : Prop where
  nodup : w.selected.Nodup
  selected : ∀ b ∈ w.selected,
    (∃ works, works ≠ [] ∧ w.afq.batches b = some ⟨works, 0⟩) ∧ w.members b = []
  live : ∀ b d, w.afq.batches b = some d → b ∉ w.selected →
    d = ⟨[], (w.unreturned b).length⟩ ∧ w.unreturned b ≠ []
  freed : ∀ b, w.afq.batches b = none → w.unreturned b = []
  fault : w.fault = false

structure Sound (w : World) : Prop where
  pending : Pending w.afq
  recorded : Recorded w
  counted : Counted w

theorem Pending.submitted_accepted (h : Pending s) (hw : work ∈ s.submitted) : work ∈ s.accepted :=
  (h.placed.all work).mpr ⟨.submitted, hw⟩

theorem Pending.batch_accepted {works : List WorkId} {k : Int} (h : Pending s)
    (hb : s.batches b = some ⟨works, k⟩) (hw : work ∈ works) :
    work ∈ s.accepted ∧ work ∉ s.submitted := by
  have hmem : work ∈ s.place (.batch b) := by simpa [State.place, State.batchWork, hb] using hw
  have hns : work ∉ s.place .submitted := h.placed.not_mem hmem (by simp)
  exact ⟨(h.placed.all work).mpr ⟨_, hmem⟩, hns⟩

theorem Counted.of_eq (h : Counted w) (hb : w'.afq.batches = w.afq.batches)
    (hsel : w'.selected = w.selected) (hret : w'.returned = w.returned) (hf : w'.fault = w.fault)
    (hm : ∀ b, w'.members b = w.members b) : Counted w' := by
  have hu : ∀ b, w'.unreturned b = w.unreturned b := fun b => by
    rw [World.unreturned, World.unreturned, hm, hret]
  refine ⟨hsel ▸ h.nodup, fun b hbs => ?_, fun b d hd hbs => ?_, fun b hd => ?_, hf ▸ h.fault⟩
  · rw [hb, hm]
    exact h.selected b (hsel ▸ hbs)
  · rw [hu]
    exact h.live b d (hb ▸ hd) (hsel ▸ hbs)
  · rw [hu]
    exact h.freed b (hb ▸ hd)

theorem init_sound {m : Mem} {env : Env} (h : basicSchedInitData P m env = some s) :
    Sound (World.init s) := by
  have hp := basicSchedInitData_pending h
  simp only [basicSchedInitData] at h
  split at h
  · cases h
    refine ⟨hp, ?_, ⟨List.nodup_nil, fun b hb => ?_, fun b d hd => ?_, fun b _ => rfl, rfl⟩⟩
    · -- nothing was accepted, submitted or returned yet
      constructor <;> simp [World.init, Desc.fresh]
    · cases hb
    · cases hd
  · cases h

/-! ## Changes to the lists of work -/

/-- The number of requests in flight is not part of the invariant. -/
theorem Sound.setInflight (h : Sound w) (k : Int) :
    Sound { w with afq := { w.afq with inflight := k } } :=
  ⟨⟨h.pending.nodup, h.pending.active, h.pending.placed, h.pending.home, h.pending.fresh,
      h.pending.reads⟩,
    ⟨h.recorded.owner, h.recorded.owned, h.recorded.woken, h.recorded.called,
      h.recorded.completed, h.recorded.sorted, h.recorded.nodup, h.recorded.added⟩,
    h.counted.of_eq rfl rfl rfl rfl fun _ => rfl⟩

theorem Sound.quiet (h : Sound w) (hq : Quiet w.afq s) : Sound { w with afq := s } where
  pending := h.pending.quiet hq
  recorded := by
    obtain ⟨howner, howned, hwoken, hcall, hcomp, hsorted, hnd, hadded⟩ := h.recorded
    constructor <;>
      simp only [hq.descs, hq.submitted, hq.nextBatch, hq.accepted, hq.sorted] <;> assumption
  counted := h.counted.of_eq hq.batches rfl rfl rfl
    (members_congr hq.submitted fun work _ => by rw [hq.descs])

/-- A descriptor that was not submitted takes on an account, and no owner. -/
theorem Sound.describe {d : Desc} (h : Sound w) (hnew : work ∉ w.afq.accepted)
    (hown : d.ownerBatch = none) (hwoken : d.woken = false) :
    Sound { w with afq := w.afq.setDesc work d } where
  pending :=
    { nodup := h.pending.nodup
      active := h.pending.active
      placed := h.pending.placed
      home := fun id work' hw => by
        have hne : work' ≠ work := by
          rintro rfl
          exact hnew ((h.pending.placed.all work').mpr ⟨.acct id, hw⟩)
        simpa [State.setDesc, hne] using h.pending.home id work' hw
      fresh := h.pending.fresh
      reads := h.pending.reads }
  recorded :=
    { owner := fun work' b hb => by
        rcases eq_or_ne work' work with rfl | hne
        · simp [State.setDesc, hown] at hb
        · exact h.recorded.owner work' b (by simpa [State.setDesc, hne] using hb)
      owned := fun work' hw => by
        have hne : work' ≠ work := by
          rintro rfl
          exact hnew (h.pending.submitted_accepted hw)
        simpa [State.setDesc, hne] using h.recorded.owned work' hw
      woken := fun work' hw => by
        rcases eq_or_ne work' work with rfl | hne
        · simp [State.setDesc, hwoken] at hw
        · exact h.recorded.woken work' (by simpa [State.setDesc, hne] using hw)
      called := h.recorded.called
      completed := h.recorded.completed
      sorted := h.recorded.sorted
      nodup := h.recorded.nodup
      added := h.recorded.added }
  counted := h.counted.of_eq rfl rfl rfl rfl <| members_congr rfl fun work' hw => by
    have hne : work' ≠ work := by
      rintro rfl
      exact hnew (h.pending.submitted_accepted hw)
    simp [State.setDesc, hne]

theorem Sound.describeRequest {rq : Nat} (h : Sound w) (hnew : .req rq ∉ w.afq.accepted)
    (acct : Option Int) : Sound { w with afq := w.afq.setAcct (.req rq) acct } := by
  have hns : .req rq ∉ w.afq.submitted := fun hs => hnew (h.pending.submitted_accepted hs)
  refine h.describe hnew ?_ ?_
  · cases hown : (w.afq.descs (.req rq)).ownerBatch with
    | none => rfl
    | some b => exact absurd (h.recorded.owner _ b hown).1 hns
  · cases hw : (w.afq.descs (.req rq)).woken with
    | false => rfl
    | true => exact absurd (h.recorded.woken _ hw) hns

/-- A unit of work joins the list of its account. -/
theorem Sound.accept {acct : Int} {added : List Nat} (h : Sound w)
    (ha : Accepts work acct w.afq s) (hw : work ∉ w.afq.accepted)
    (hacct : (w.afq.descs work).acct = some acct)
    (hr : ∀ rq, work = .req rq → (w.afq.mem.rqs rq).write = false ∧ rq ∉ w.added ∧ rq ∈ added)
    (hadded : ∀ rq ∈ w.added, rq ∈ added) :
    Sound { w with afq := s, added := added } where
  pending := h.pending.accept ha hw hacct fun rq e => (hr rq e).1
  recorded :=
    { owner := by simpa only [ha.descs, ha.submitted, ha.nextBatch] using h.recorded.owner
      owned := by simpa only [ha.descs, ha.submitted] using h.recorded.owned
      woken := by simpa only [ha.descs, ha.submitted] using h.recorded.woken
      called := by simpa only [ha.submitted] using h.recorded.called
      completed := by simpa only [ha.sorted] using h.recorded.completed
      sorted := fun rq hrq => by
        simp only [ha.sorted] at hrq
        obtain ⟨hin, himp⟩ := h.recorded.sorted rq hrq
        refine ⟨hadded rq hin, fun hacc => ?_⟩
        simp only [ha.accepted, List.mem_append, List.mem_singleton] at hacc
        rw [ha.submitted]
        rcases hacc with hacc | hacc
        · exact himp hacc
        · exact absurd hin (hr rq hacc.symm).2.1
      nodup := by simpa only [ha.sorted] using h.recorded.nodup
      added := fun rq hacc => by
        simp only [ha.accepted, List.mem_append, List.mem_singleton] at hacc
        rcases hacc with hacc | hacc
        · exact hadded rq (h.recorded.added rq hacc)
        · exact (hr rq hacc.symm).2.2 }
  counted := h.counted.of_eq ha.batches rfl rfl rfl
    (members_congr ha.submitted fun work _ => by rw [ha.descs])

/-- A request that never was on an account goes to the dispatch queue. -/
theorem Sound.handOver {rq : Nat} (h : Sound w) (hnew : rq ∉ w.added) :
    Sound { w with afq := elvDispatchSort w.afq rq, added := w.added ++ [rq] } where
  pending := ⟨h.pending.nodup, h.pending.active, h.pending.placed, h.pending.home, h.pending.fresh,
    h.pending.reads⟩
  recorded :=
    { owner := h.recorded.owner
      owned := h.recorded.owned
      woken := h.recorded.woken
      called := h.recorded.called
      completed := fun r hr => List.mem_append_left _ (h.recorded.completed r hr)
      sorted := fun r hr => by
        rcases List.mem_append.mp hr with hr | hr
        · obtain ⟨hin, himp⟩ := h.recorded.sorted r hr
          exact ⟨List.mem_append_left _ hin, himp⟩
        · rw [List.mem_singleton.mp hr]
          exact ⟨List.mem_append_right _ (List.mem_singleton_self rq),
            fun hacc => absurd (h.recorded.added rq hacc) hnew⟩
      nodup := List.nodup_append.mpr ⟨h.recorded.nodup, List.nodup_singleton rq, fun x hx y hy e =>
        hnew (h.recorded.sorted rq (List.mem_singleton.mp hy ▸ e ▸ hx)).1⟩
      added := fun r hr => List.mem_append_left _ (h.recorded.added r hr) }
  counted := h.counted.of_eq rfl rfl rfl rfl fun _ => rfl

/-! ## Selection and submission -/

theorem Recorded.of_frame (h : Recorded w) (hf : Frame w.afq w'.afq)
    (hn : w.afq.nextBatch ≤ w'.afq.nextBatch) (hret : w'.returned = w.returned)
    (hadd : w'.added = w.added) : Recorded w' where
  owner work b hb := by
    rw [hf.descs] at hb
    obtain ⟨hsub, hlt⟩ := h.owner work b hb
    exact ⟨hf.submitted ▸ hsub, hlt.trans_le hn⟩
  owned := by simpa only [hf.descs, hf.submitted] using h.owned
  woken := by simpa only [hf.descs, hf.submitted] using h.woken
  called := by simpa only [hret, hf.submitted] using h.called
  completed := by simpa only [hret, hf.sorted] using h.completed
  sorted := by simpa only [hf.sorted, hf.accepted, hf.submitted, hadd] using h.sorted
  nodup := by simpa only [hf.sorted] using h.nodup
  added := by simpa only [hf.accepted, hadd] using h.added

theorem World.select_of_ne {r : Selected × State} (h : ∀ b, r.1 ≠ .batch b) :
    w.select r = { w with afq := r.2 } := by
  obtain ⟨o, s⟩ := r
  cases o with
  | batch b => exact absurd rfl (h b)
  | nothing => rfl
  | noAccount => rfl
  | noPending => rfl

theorem Sound.select (P : Platform) (h : Sound w) :
    Sound (w.select (basicSchedSelectIoWork P w.afq)) := by
  obtain ⟨hs, hp⟩ := basicSchedSelectIoWork_spec P h.pending
  generalize basicSchedSelectIoWork P w.afq = r at hs hp ⊢
  have hm : ∀ b, World.members { w with afq := r.2 } b = w.members b :=
    members_congr hs.submitted fun work _ => by rw [hs.descs]
  rcases hs.outcome with ⟨hr, hn, works, hne, hb⟩ | ⟨hr, hn, hb⟩
  · -- a new descriptor, so no unit of work has it as its owner
    have hfresh := h.pending.fresh w.afq.nextBatch le_rfl
    have hnew : w.afq.nextBatch ∉ w.selected := by
      intro hin
      obtain ⟨⟨works', -, hb'⟩, -⟩ := h.counted.selected _ hin
      rw [hfresh] at hb'
      cases hb'
    have hnone : w.members w.afq.nextBatch = [] := by
      refine List.filter_eq_nil_iff.mpr fun work _ => ?_
      simp only [decide_eq_true_eq]
      exact fun e => absurd (h.recorded.owner work _ e).2 (lt_irrefl _)
    have hold : ∀ b ≠ w.afq.nextBatch, r.2.batches b = w.afq.batches b := fun b hb' => by
      rw [hb, Function.update_of_ne hb']
    simp only [World.select, hr]
    refine ⟨hp, h.recorded.of_frame hs.toFrame (by simp only [hn]; omega) rfl rfl,
      ⟨List.nodup_cons.mpr ⟨hnew, h.counted.nodup⟩, fun b hbs => ?_, fun b d hd hbs => ?_,
        fun b hd => ?_, h.counted.fault⟩⟩
    · have hmb : World.members { w with afq := r.2, selected := w.afq.nextBatch :: w.selected } b =
          w.members b := hm b
      rw [hmb]
      rcases List.mem_cons.mp hbs with rfl | hbs
      · exact ⟨⟨works, hne, by rw [hb, Function.update_self]⟩, hnone⟩
      · rw [hold b fun e => hnew (e ▸ hbs)]
        exact h.counted.selected b hbs
    · obtain ⟨hb₁, hb₂⟩ := not_or.mp fun ho => hbs (List.mem_cons.mpr ho)
      have hlive := h.counted.live b d (by rw [← hold b hb₁]; exact hd) hb₂
      rw [World.unreturned, ← hm b] at hlive
      exact hlive
    · have hbn : b ≠ w.afq.nextBatch := by
        rintro rfl
        rw [hb, Function.update_self] at hd
        cases hd
      have hfreed := h.counted.freed b (by rw [← hold b hbn]; exact hd)
      rw [World.unreturned, ← hm b] at hfreed
      exact hfreed
  · rw [World.select_of_ne hr]
    exact ⟨hp, h.recorded.of_frame hs.toFrame hn rfl rfl, h.counted.of_eq hb rfl rfl rfl hm⟩

section Submit

variable {works : List WorkId} {k : Int}

theorem Recorded.submit (h : Sound w) (hb : w.afq.batches b = some ⟨works, k⟩)
    (hs : Submits b works w.afq s) :
    Recorded { w with afq := s, selected := w.selected.erase b } where
  owner work b' hb' := by
    simp only [hs.submitted, hs.nextBatch, List.mem_append]
    rw [hs.owner] at hb'
    split at hb'
    · rename_i hw
      cases hb'
      refine ⟨.inr hw, not_le.mp fun hle => ?_⟩
      rw [h.pending.fresh b hle] at hb
      cases hb
    · obtain ⟨hsub, hlt⟩ := h.recorded.owner work b' hb'
      exact ⟨.inl hsub, hlt⟩
  owned work hw := by
    simp only [hs.submitted, List.mem_append] at hw
    rw [hs.owner]
    split
    · simp
    · rename_i hnw
      exact h.recorded.owned work (hw.resolve_right hnw)
  woken work hw := by
    simp only [hs.submitted, List.mem_append]
    rcases hs.woken work hw with hw | hw
    · exact .inr hw
    · exact .inl (h.recorded.woken work hw)
  called work hw hcall := by
    simp only [hs.submitted, List.mem_append]
    exact .inl (h.recorded.called work hw hcall)
  completed rq hrq := by
    simp only [hs.sorted, List.mem_append]
    exact .inl (h.recorded.completed rq hrq)
  sorted rq hrq := by
    simp only [hs.sorted, List.mem_append, List.mem_filterMap] at hrq
    simp only [hs.accepted, hs.submitted, List.mem_append]
    rcases hrq with hrq | ⟨work, hw, hreq⟩
    · obtain ⟨hin, himp⟩ := h.recorded.sorted rq hrq
      exact ⟨hin, fun hacc => .inl (himp hacc)⟩
    · cases work with
      | req r =>
        cases hreq
        exact ⟨h.recorded.added rq (h.pending.batch_accepted hb hw).1, fun _ => .inr hw⟩
      | write | fsync | mkdir => cases hreq
  nodup := by
    simp only [hs.sorted]
    refine List.nodup_append.mpr ⟨h.recorded.nodup, ?_, ?_⟩
    · have hnd : works.Nodup := by
        simpa [State.place, State.batchWork, hb] using h.pending.placed.nodup (.batch b)
      refine hnd.filterMap fun a a' r ha ha' => ?_
      cases a <;> cases a' <;> simp_all [WorkId.request]
    · -- a request that was sorted before was submitted before, or never on an account
      intro rq hrq rq' hrq' e
      subst e
      obtain ⟨work, hw, hreq⟩ := List.mem_filterMap.mp hrq'
      obtain ⟨hacc, hnsub⟩ := h.pending.batch_accepted hb hw
      cases work with
      | req r =>
        cases hreq
        exact hnsub ((h.recorded.sorted rq hrq).2 hacc)
      | write | fsync | mkdir => cases hreq
  added := by simpa only [hs.accepted] using h.recorded.added

/-- The batch that is submitted has its work as members, the others keep theirs. -/
theorem members_submit (h : Sound w) (hb : w.afq.batches b = some ⟨works, k⟩)
    (hnone : w.members b = []) (hs : Submits b works w.afq s) (selected : List Nat) (b' : Nat) :
    World.members { w with afq := s, selected := selected } b' =
      if b' = b then works else w.members b' := by
  have hold : ∀ work ∈ w.afq.submitted, (s.descs work).ownerBatch = (w.afq.descs work).ownerBatch := by
    intro work hw
    rw [hs.owner, if_neg fun hin => (h.pending.batch_accepted hb hin).2 hw]
  have hfirst : (w.afq.submitted.filter fun work => (s.descs work).ownerBatch = some b') =
      w.members b' := List.filter_congr fun work hw => by rw [hold work hw]
  have hnew : (works.filter fun work => (s.descs work).ownerBatch = some b') =
      if b' = b then works else [] := by
    split
    · rename_i e
      refine List.filter_eq_self.mpr fun work hw => ?_
      simp [hs.owner, hw, e]
    · rename_i e
      refine List.filter_eq_nil_iff.mpr fun work hw => ?_
      simp [hs.owner, hw, Ne.symm e]
  rw [World.members]
  simp only [hs.submitted]
  rw [List.filter_append, hfirst, hnew]
  split
  · rename_i e
    rw [e, hnone, List.nil_append]
  · rw [List.append_nil]

theorem Sound.submit (h : Sound w) (hbs : b ∈ w.selected)
    (hsub : basicSchedSubmitIoWork P w.afq b = some s) :
    Sound { w with afq := s, selected := w.selected.erase b } := by
  obtain ⟨⟨works, hne, hb⟩, hnone⟩ := h.counted.selected b hbs
  have hs := basicSchedSubmitIoWork_submits h.pending hb hsub
  have hm := members_submit h hb hnone hs (w.selected.erase b)
  have hb' := hs.batch [] 0 (by rw [List.append_nil]; exact hb)
  -- nothing of the batch has returned: what returned was submitted, or never was on an account
  have hret : outstanding works w.returned = works := by
    refine outstanding_eq_self fun work hw hr => ?_
    obtain ⟨hacc, hnsub⟩ := h.pending.batch_accepted hb hw
    exact hnsub (h.recorded.returned hr hacc)
  have hmself := hm b
  rw [if_pos rfl] at hmself
  have hmoth : ∀ b' ≠ b, _ := fun b' hne' => (hm b').trans (if_neg hne')
  refine ⟨h.pending.submit hb hs, .submit h hb hs,
    ⟨h.counted.nodup.erase b, fun b₁ hb₁ => ?_, fun b₁ d hd hb₁ => ?_, fun b₁ hd => ?_,
      h.counted.fault⟩⟩
  · obtain ⟨hne₁, hb₁⟩ := (h.counted.nodup.mem_erase_iff).mp hb₁
    rw [hmoth b₁ hne₁]
    have hsel := h.counted.selected b₁ hb₁
    rw [← hs.others b₁ hne₁] at hsel
    exact hsel
  · rcases eq_or_ne b₁ b with rfl | hne₁
    · simp only [hb', Option.some.injEq] at hd
      rw [World.unreturned, hmself, hret, ← hd]
      exact ⟨by simp, hne⟩
    · rw [World.unreturned, hmoth b₁ hne₁]
      exact h.counted.live b₁ d (by rw [← hs.others b₁ hne₁]; exact hd) fun hin =>
        hb₁ ((h.counted.nodup.mem_erase_iff).mpr ⟨hne₁, hin⟩)
  · have hne₁ : b₁ ≠ b := by
      rintro rfl
      simp only [hb'] at hd
      cases hd
    rw [World.unreturned, hmoth b₁ hne₁]
    exact h.counted.freed b₁ (by rw [← hs.others b₁ hne₁]; exact hd)

end Submit

/-! ## Return -/

/-- A request that belongs to no batch completes. -/
theorem Sound.returnAlone {rq : Nat} (h : Sound w) (hs : rq ∈ w.afq.sorted)
    (hns : .req rq ∉ w.afq.submitted) : Sound { w with returned := w.returned ++ [.req rq] } := by
  have hu : ∀ b, World.unreturned { w with returned := w.returned ++ [.req rq] } b =
      w.unreturned b := fun b =>
    outstanding_back_of_not_mem fun hm => hns (mem_members.mp hm).1
  refine ⟨h.pending, { h.recorded with called := ?_, completed := ?_ },
    ⟨h.counted.nodup, h.counted.selected, fun b d hd hb => ?_, fun b hd => ?_, h.counted.fault⟩⟩
  · intro work hw hcall
    rcases List.mem_append.mp hw with hw | hw
    · exact h.recorded.called work hw hcall
    · rw [List.mem_singleton.mp hw] at hcall
      cases hcall
  · intro r hr
    rcases List.mem_append.mp hr with hr | hr
    · exact h.recorded.completed r hr
    · cases List.mem_singleton.mp hr
      exact hs
  · rw [hu]
    exact h.counted.live b d hd hb
  · rw [hu]
    exact h.counted.freed b hd

/-- Everything `dec_check_cleanup_batch` can do with a descriptor that is allocated. -/
theorem decCheckCleanupBatch_spec {d : BatchDesc} (current : Bool) (hd : s.batches b = some d) :
    ∃ s', decCheckCleanupBatch s current b = some s' ∧ Frame s s' ∧ s'.workList = s.workList ∧
      s'.activeAcctList = s.activeAcctList ∧ s'.nextBatch = s.nextBatch ∧
      s'.batches = Function.update s.batches b
        (if d.oneLoopWork - 1 = 0 then none
        else some { d with oneLoopWork := d.oneLoopWork - 1 }) := by
  simp only [decCheckCleanupBatch, hd]
  split
  · cases current <;> exact ⟨_, rfl, { Frame.refl s with }, rfl, rfl, rfl, rfl⟩
  · exact ⟨_, rfl, { Frame.refl s with }, rfl, rfl, rfl, rfl⟩

/-- The descriptor of a unit of work that has not returned is there, and counts it. -/
theorem Sound.owned_live (h : Sound w) (hown : (w.afq.descs work).ownerBatch = some b)
    (hr : work ∉ w.returned) : work ∈ w.unreturned b ∧ b ∉ w.selected ∧
      w.afq.batches b = some ⟨[], (w.unreturned b).length⟩ := by
  have hmem : work ∈ w.members b := mem_members.mpr ⟨(h.recorded.owner work b hown).1, hown⟩
  have hunret : work ∈ w.unreturned b := mem_outstanding.mpr ⟨hmem, hr⟩
  have hnsel : b ∉ w.selected := fun hin => by
    rw [(h.counted.selected b hin).2] at hmem
    cases hmem
  refine ⟨hunret, hnsel, ?_⟩
  cases hb : w.afq.batches b with
  | none =>
    rw [h.counted.freed b hb] at hunret
    cases hunret
  | some d => rw [(h.counted.live b d hb hnsel).1]

theorem Recorded.back (h : Recorded w) (hsub : work ∈ w.afq.submitted)
    (hreq : ∀ rq, work = .req rq → rq ∈ w.afq.sorted) :
    Recorded { w with returned := w.returned ++ [work] } where
  __ := h
  called work' hw' hcall := by
    rcases List.mem_append.mp hw' with hw' | hw'
    · exact h.called work' hw' hcall
    · rw [List.mem_singleton.mp hw']
      exact hsub
  completed rq hrq := by
    rcases List.mem_append.mp hrq with hrq | hrq
    · exact h.completed rq hrq
    · exact hreq rq (List.mem_singleton.mp hrq).symm

/-- The descriptor counts one unit less, and goes with the last unit that is out. -/
theorem Counted.back (h : Counted w) (hnd : (w.members b).Nodup) (hmem : work ∈ w.members b)
    (hr : work ∉ w.returned) (hnsel : b ∉ w.selected)
    (hm : ∀ b', World.members { w with afq := s, returned := w.returned ++ [work] } b' = w.members b')
    (hb : s.batches = Function.update w.afq.batches b
      (if ((w.unreturned b).length : Int) - 1 = 0 then none
      else some ⟨[], ((w.unreturned b).length : Int) - 1⟩)) :
    Counted { w with afq := s, returned := w.returned ++ [work] } := by
  have hlen : (outstanding (w.members b) (w.returned ++ [work])).length + 1 =
      (w.unreturned b).length := length_outstanding_back hnd hmem hr
  have hoth : ∀ b' ≠ b, outstanding (w.members b') (w.returned ++ [work]) = w.unreturned b' :=
    fun b' hne => outstanding_back_of_not_mem fun hm' =>
      hne (Option.some.inj ((mem_members.mp hm').2.symm.trans (mem_members.mp hmem).2))
  have hzero : ((w.unreturned b).length : Int) - 1 = 0 ↔
      outstanding (w.members b) (w.returned ++ [work]) = [] := by
    rw [← hlen, List.eq_nil_iff_length_eq_zero]
    omega
  refine ⟨h.nodup, fun b₁ hb₁ => ?_, fun b₁ d hd₁ hb₁ => ?_, fun b₁ hd₁ => ?_, h.fault⟩
  · have hne : b₁ ≠ b := fun e => hnsel (e ▸ hb₁)
    rw [hm]
    have hsel := h.selected b₁ hb₁
    simp only [hb, Function.update_of_ne hne]
    exact hsel
  · rw [World.unreturned, hm]
    rcases eq_or_ne b₁ b with rfl | hne
    · simp only [hb, Function.update_self] at hd₁
      split at hd₁
      · cases hd₁
      · rename_i hnz
        cases hd₁
        refine ⟨?_, fun e => hnz (hzero.mpr e)⟩
        simp only [BatchDesc.mk.injEq, true_and]
        omega
    · simp only [hb, Function.update_of_ne hne] at hd₁
      rw [hoth b₁ hne]
      exact h.live b₁ d hd₁ hb₁
  · rw [World.unreturned, hm]
    rcases eq_or_ne b₁ b with rfl | hne
    · simp only [hb, Function.update_self] at hd₁
      split at hd₁
      · rename_i hz
        exact hzero.mp hz
      · cases hd₁
    · simp only [hb, Function.update_of_ne hne] at hd₁
      rw [hoth b₁ hne]
      exact h.freed b₁ hd₁

/-- A unit of work of the batch `b` returns: its descriptor is there, and counts one unit less. -/
theorem Sound.returnMember (h : Sound w) (hown : (w.afq.descs work).ownerBatch = some b)
    (hr : work ∉ w.returned) (hreq : ∀ rq, work = .req rq → rq ∈ w.afq.sorted) (current : Bool) :
    ∃ s', decCheckCleanupBatch w.afq current b = some s' ∧
      Sound { w with afq := s', returned := w.returned ++ [work] } := by
  have hsub := (h.recorded.owner work b hown).1
  have hmem : work ∈ w.members b := mem_members.mpr ⟨hsub, hown⟩
  have hnd : (w.members b).Nodup := (h.pending.placed.nodup .submitted).filter _
  obtain ⟨-, hnsel, hd⟩ := h.owned_live hown hr
  obtain ⟨s', hdec, hf, hw, ha, hn, hb⟩ := decCheckCleanupBatch_spec current hd
  have hpend : Pending s' := by
    refine h.pending.setEmptyBatch (b := b) (by simp [State.batchWork, hd]) ?_ hw hb ha hf
      fun b' hb' => ⟨hn ▸ hb', fun e => ?_⟩
    · split <;> rfl
    · have hfresh := h.pending.fresh b' (hn ▸ hb')
      rw [e, hd] at hfresh
      cases hfresh
  have hback := h.recorded.back hsub hreq
  exact ⟨s', hdec, hpend, hback.of_frame hf hn.ge rfl rfl, h.counted.back hnd hmem hr hnsel
    (members_congr hf.submitted fun work _ => by rw [hf.descs]) hb⟩

/-! ## Every change -/

theorem change_sound {straight : Bool} (hc : Change P straight w w') (h : Sound w) : Sound w' := by
  cases hc with
  | quiet hq => exact h.quiet hq
  | @block work acct hnew hcall hk =>
    have hd : Sound { w with afq := (w.afq.setDesc work .fresh).setAcct work (some acct) } :=
      (h.describe (d := .fresh) hnew rfl rfl).describe hnew
        (by simp [State.setDesc, Desc.fresh]) (by simp [State.setDesc, Desc.fresh])
    refine hd.accept (addIoWorkToAcct_accepts _ hk) hnew ?_ ?_ fun _ hr => hr
    · simp [State.setAcct, State.setDesc]
    · rintro rq rfl
      cases hcall
  | @queue rq acct hnew hread hk =>
    have hacc : .req rq ∉ w.afq.accepted := fun hacc => hnew (h.recorded.added rq hacc)
    have hd : Sound { w with afq := w.afq.setAcct (.req rq) (some acct) } := h.describeRequest hacc _
    refine hd.accept (addIoWorkToAcct_accepts _ hk) hacc ?_ ?_ fun _ hr => List.mem_append_left _ hr
    · simp [State.setAcct, State.setDesc]
    · rintro r e
      cases e
      exact ⟨hread, hnew, List.mem_append_right _ (List.mem_singleton_self rq)⟩
  | issue hnew hwrite hq => exact ((h.setInflight _).quiet hq).handOver hnew
  | @pass rq acct hnew hs =>
    have hacc : .req rq ∉ w.afq.accepted := fun hacc => hnew (h.recorded.added rq hacc)
    exact (h.describeRequest hacc acct).handOver hnew
  | select => exact h.select P
  | submit hb hs => exact h.submit hb hs
  | dangling hb hn =>
    obtain ⟨⟨works, -, hd⟩, -⟩ := h.counted.selected _ hb
    rw [hn] at hd
    cases hd
  | @complete rq hs hr =>
    have h' := h.setInflight (w.afq.inflight - 1)
    cases hown : (w.afq.descs (.req rq)).ownerBatch with
    | none =>
      have hns : .req rq ∉ w.afq.submitted := fun hsub => h.recorded.owned _ hsub hown
      simp only [basicSchedComplteRequest, hown, World.finish]
      exact h'.returnAlone hs hns
    | some b =>
      obtain ⟨s', hdec, hsound⟩ := h'.returnMember hown hr (fun r e => by cases e; exact hs) true
      simp only at hdec
      simp only [basicSchedComplteRequest, hown, hdec, World.finish]
      exact hsound
  | @wake work current hcall hw hr =>
    obtain ⟨b, hown⟩ := Option.ne_none_iff_exists'.mp
      (h.recorded.owned work (h.recorded.woken work hw))
    obtain ⟨s', hdec, hsound⟩ := h.returnMember hown hr (fun rq e => by rw [e] at hcall; cases hcall)
      current
    simp only [schedReturn, hown, hdec, World.finish]
    exact hsound

theorem run_sound {m : Mem} {env : Env} {es : List Event} (h0 : basicSchedInitData P m env = some s)
    (hr : run (step P) (World.init s) es = some w) : Sound w :=
  run_invariant (fun _ _ _ hs => Changes.keep (fun _ _ => change_sound) (step_changes hs)) hr
    (init_sound h0)

/-! ## Pending work -/

namespace World

/-- A unit of work is on one list, once: the list of its account, or that of a batch that is yet to
be submitted. -/
def Waits (w : World) (work : WorkId) : Prop :=
  ∃ k, ((∃ id, k = .acct id ∧ (w.afq.descs work).acct = some id) ∨ ∃ b ∈ w.selected, k = .batch b) ∧
    (w.afq.place k).count work = 1 ∧ ∀ j ≠ k, work ∉ w.afq.place j

/-- What selection relies on, and that it may: the branch for an account without work is dead. -/
structure Linked (P : Platform) (w : World) : Prop where
  nodup : w.afq.activeAcctList.Nodup
  active : ∀ id, id ∈ w.afq.activeAcctList ↔ w.afq.workList id ≠ []
  waits : ∀ work ∈ w.afq.accepted, work ∉ w.afq.submitted → w.Waits work
  pending : (basicSchedSelectIoWork P w.afq).1 ≠ .noPending

end World

theorem Sound.waits (h : Sound w) (hacc : work ∈ w.afq.accepted) (hns : work ∉ w.afq.submitted) :
    w.Waits work := by
  obtain ⟨k, hk⟩ := (h.pending.placed.all work).mp hacc
  refine ⟨k, ?_, h.pending.placed.count_eq_one hk, fun j hj => h.pending.placed.not_mem hk hj⟩
  cases k with
  | acct id => exact .inl ⟨id, rfl, h.pending.home id work hk⟩
  | submitted => exact absurd hk hns
  | batch b =>
    refine .inr ⟨b, ?_, rfl⟩
    -- a batch that was submitted holds no work any more
    by_contra hb
    cases hd : w.afq.batches b with
    | none => simp [State.place, State.batchWork, hd] at hk
    | some d =>
      rw [(h.counted.live b d hd hb).1] at hd
      simp [State.place, State.batchWork, hd] at hk

/-- In every state a run reaches, an account is on the active list, once, exactly when work waits on
it, all work that was accepted and not submitted is on one list, and selection finds no account
without work. -/
theorem pending_work_linked (P : Platform) (m : Mem) (env : Env) (s : State) (es : List Event)
    (w : World) (h0 : basicSchedInitData P m env = some s)
    (hr : run (step P) (World.init s) es = some w) : w.Linked P where
  nodup := (run_sound h0 hr).pending.nodup
  active := (run_sound h0 hr).pending.active
  waits _ hacc hns := (run_sound h0 hr).waits hacc hns
  pending := (basicSchedSelectIoWork_spec P (run_sound h0 hr).pending).1.pending

/-- A read and a blocked `fsync` are selected, a counter is set to a large value and another read
comes in. -/
theorem pending_work_linked_read_fsync :
    ∃ s w, basicSchedInitData .lp64 sampleMem sampleEnv = some s ∧
      run (step .lp64) (World.init s) [.add 0 7, .fsyncEntry 0 8 1000, .select,
        .kvSet 7 "vio_counter" (2 ^ 62), .add 1 7] = some w ∧ w.Linked .lp64 := by
  have h : ((basicSchedInitData .lp64 sampleMem sampleEnv).bind fun s =>
      run (step .lp64) (World.init s) [.add 0 7, .fsyncEntry 0 8 1000, .select,
        .kvSet 7 "vio_counter" (2 ^ 62), .add 1 7]).isSome = true := by
    decide +kernel
  obtain ⟨w, hw⟩ := Option.isSome_iff_exists.mp h
  obtain ⟨s, hs, hr⟩ := Option.bind_eq_some_iff.mp hw
  exact ⟨s, w, hs, hr, pending_work_linked .lp64 sampleMem sampleEnv s _ w hs hr⟩

/-! ## The life of a batch -/

/-- The descriptors count the work that has not returned. One is allocated while its batch waits to
be submitted or some of the batch's work has not returned, and no longer; none is used when it is not
allocated. -/
structure World.LifeCycle (w : World) : Prop where
  counts : ∀ b d, w.afq.batches b = some d → d.oneLoopWork = (w.unreturned b).length
  alive : ∀ b, w.afq.batches b ≠ none ↔ b ∈ w.selected ∨ w.unreturned b ≠ []
  freed : ∀ b, w.members b ≠ [] →
    (w.afq.batches b = none ↔ ∀ work ∈ w.members b, work ∈ w.returned)
  owned : ∀ work ∈ w.afq.submitted, ∃ b, work ∈ w.members b
  fault : w.fault = false

theorem Sound.unreturned_of_selected (h : Sound w) (hb : b ∈ w.selected) : w.unreturned b = [] := by
  rw [World.unreturned, (h.counted.selected b hb).2, outstanding_nil]

theorem Sound.alive_iff (h : Sound w) (b : Nat) :
    w.afq.batches b ≠ none ↔ b ∈ w.selected ∨ w.unreturned b ≠ [] := by
  constructor
  · intro hne
    obtain ⟨d, hd⟩ := Option.ne_none_iff_exists'.mp hne
    by_cases hb : b ∈ w.selected
    · exact .inl hb
    · exact .inr (h.counted.live b d hd hb).2
  · rintro (hb | hne) hnone
    · obtain ⟨⟨works, -, hd⟩, -⟩ := h.counted.selected b hb
      rw [hnone] at hd
      cases hd
    · exact hne (h.counted.freed b hnone)

/-- In every state a run reaches, `one_loop_work` is the number of the batch's units of work that
have not returned, the descriptor of a submitted batch is freed exactly when all of them have, and no
hook has used a descriptor that is not allocated. -/
theorem batch_freed_after_last_return (P : Platform) (m : Mem) (env : Env) (s : State)
    (es : List Event) (w : World) (h0 : basicSchedInitData P m env = some s)
    (hr : run (step P) (World.init s) es = some w) : w.LifeCycle := by
  have h := run_sound h0 hr
  refine ⟨fun b d hd => ?_, h.alive_iff, fun b hne => ?_, fun work hw => ?_, h.counted.fault⟩
  · by_cases hb : b ∈ w.selected
    · obtain ⟨⟨works, -, hd'⟩, -⟩ := h.counted.selected b hb
      cases hd.symm.trans hd'
      rw [h.unreturned_of_selected hb]
      rfl
    · rw [(h.counted.live b d hd hb).1]
  · have hns : b ∉ w.selected := fun hb => hne (h.counted.selected b hb).2
    rw [← outstanding_eq_nil, ← World.unreturned, ← not_iff_not]
    exact (h.alive_iff b).trans (or_iff_right hns)
  · obtain ⟨b, hb⟩ := Option.ne_none_iff_exists'.mp (h.recorded.owned work hw)
    exact ⟨b, mem_members.mpr ⟨hw, hb⟩⟩

/-- A read and an `fsync` share a batch; the read completes and the `fsync` returns. -/
theorem batch_freed_read_fsync :
    ∃ s w, basicSchedInitData .lp64 sampleMem sampleEnv = some s ∧
      run (step .lp64) (World.init s) [.add 0 7, .fsyncEntry 0 8 1000, .dispatch, .complete 0,
        .fsyncReturn 0 true] = some w ∧ w.LifeCycle := by
  have h : ((basicSchedInitData .lp64 sampleMem sampleEnv).bind fun s =>
      run (step .lp64) (World.init s) [.add 0 7, .fsyncEntry 0 8 1000, .dispatch, .complete 0,
        .fsyncReturn 0 true]).isSome = true := by
    decide +kernel
  obtain ⟨w, hw⟩ := Option.isSome_iff_exists.mp h
  obtain ⟨s, hs, hr⟩ := Option.bind_eq_some_iff.mp hw
  exact ⟨s, w, hs, hr, batch_freed_after_last_return .lp64 sampleMem sampleEnv s _ w hs hr⟩

end Afq
end SplitSched
