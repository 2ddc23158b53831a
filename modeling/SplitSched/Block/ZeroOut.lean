import SplitSched.Block.BioTags

/-!
# SplitSched.Block.ZeroOut

The loop of `blkdev_issue_zeroout` (blk-lib.c of the 4.5 patch set) that writes zeroes. It fills a bio
with pieces of at most a page until `bio_add_page` refuses one, submits it and goes on with another bio.
Every piece is tagged with `add_causes_zero_to_bio`, also the one that was refused.

* `zeroFill`: the inner loop; `blkdevIssueZeroout`: the bios that are submitted.
* `zeroFill_spec`: the tags of a bio add up to its size if and only if the bio takes all that is left.
* `zero_bios_tagged_iff`: so all bios are tagged right if and only if the first is the last.
-/

namespace SplitSched
namespace CauseRefs

variable {s : CauseRefs} {bio : Nat}

/-! ## Tagging a piece -/

theorem addCausesZeroToBio_spec (henv : s.env.Plenty) (bio size maxSectors : Nat) :
    (∃ l, (addCausesZeroToBio s bio size maxSectors).tags bio (maxSectors / 8) =
      (s.tags bio (maxSectors / 8)).add l size) ∧
    (addCausesZeroToBio s bio size maxSectors).env.Plenty := by
  obtain ⟨⟨cll, hcll⟩, htags, -, henv'⟩ := ensureCll_plenty henv bio (maxSectors / 8)
  unfold addCausesZeroToBio
  generalize s.ensureCll bio (maxSectors / 8 : Nat) = t at hcll htags henv'
  simp only [hcll]
  rcases newCauseList_cases t with ⟨env, hnew, hshort⟩ | ⟨env, d, hnew, hplenty⟩
  · exact absurd henv' hshort
  simp only [hnew]
  generalize hc : ({ SplitSched.setCauseListType
      ((t.mem.setList t.refcount.next .new).lists t.refcount.next) .zero with size := size } : CauseList) = c
  -- the new list has the size of the piece
  obtain ⟨u, hu⟩ : ∃ u : CauseRefs, u = { t with
      env := env
      refcount := t.refcount.alloc
      mem := (t.mem.setList t.refcount.next .new).setList t.refcount.next c
      desc := d } := ⟨_, rfl⟩
  have hsize : (u.mem.lists t.refcount.next).size = size := by
    rw [hu, ← hc]
    simp
  have hutags : u.tags = t.tags := tags_congr (by rw [hu])
  rw [← hu]
  have hucll : u.clls.lookup bio = t.clls.lookup bio := by rw [hu]
  obtain ⟨hadd, -⟩ := causeListListAdd_tags (hucll.trans hcll) t.refcount.next (maxSectors / 8)
  obtain ⟨k, d', hput, -⟩ := putCauseList_frame (causeListListAdd u bio (some t.refcount.next))
    (some t.refcount.next)
  refine ⟨⟨t.refcount.next, ?_⟩, ?_⟩
  · rw [tags_congr (s := causeListListAdd u bio (some t.refcount.next)) (by rw [hput]), hadd, hsize,
      hutags, htags]
  · rw [hput]
    exact causeListListAdd_plenty (by rw [hu]; exact hplenty henv') bio (some t.refcount.next)

end CauseRefs

open CauseRefs

/-! ## The loops -/

/-- The bytes that `bio_add_page` adds: the whole piece or nothing. `accepts` has the size of the bio and
the length of the piece. -/
def bioAddPage (accepts : Nat → Nat → Bool) (biSize len : Nat) : Nat :=
  if accepts biSize len then len else 0

structure ZeroFill where
  refs : CauseRefs
  biSize : Nat
  nrSects : Nat

/-- The inner loop, with `fuel` passes to go; `none` when they do not suffice. -/
def zeroFill (accepts : Nat → Nat → Bool) (maxSectors bio : Nat) : Nat → ZeroFill → Option ZeroFill
  | 0, _ => none
  | fuel + 1, z =>
    if z.nrSects = 0 then some z
    else
      let sz := min 8 z.nrSects
      let ret := bioAddPage accepts z.biSize (sz * 512)
      let z' : ZeroFill :=
        ⟨addCausesZeroToBio z.refs bio (sz * 512) maxSectors, z.biSize + ret, z.nrSects - ret / 512⟩
      if ret < sz * 512 then some z' else zeroFill accepts maxSectors bio fuel z'

structure SubmittedBio where
  biSize : Nat
  cllSize : Nat
  deriving DecidableEq, Repr

/-- The first `fuel` bios that are submitted. `accepts` has the number of the bio, too. -/
def blkdevIssueZeroout (accepts : Nat → Nat → Nat → Bool) (maxSectors : Nat) :
    Nat → CauseRefs → Nat → Nat → List SubmittedBio
  | 0, _, _, _ => []
  | fuel + 1, s, bio, nrSects =>
    if nrSects = 0 then []
    else
      match zeroFill (accepts bio) maxSectors bio (nrSects + 1) ⟨s, 0, nrSects⟩ with
      | none => []
      | some z => ⟨z.biSize, z.refs.cllSize bio⟩ ::
          blkdevIssueZeroout accepts maxSectors fuel z.refs (bio + 1) z.nrSects

/-! ## One bio -/

def pieceLen (nrSects k : Nat) : Nat := min 8 (nrSects - 8 * k) * 512

def TakesAll (accepts : Nat → Nat → Bool) (biSize nrSects : Nat) : Prop :=
  ∀ k, 8 * k < nrSects → accepts (biSize + 4096 * k) (pieceLen nrSects k) = true

/-- Every piece that is tried on a bio with `n` tags finds room for its tag among `capacity`. -/
def RoomFor (accepts : Nat → Nat → Bool) (capacity n biSize nrSects : Nat) : Prop :=
  ∀ k, 8 * k < nrSects →
    (∀ j, j < k → accepts (biSize + 4096 * j) (pieceLen nrSects j) = true) → n + k < capacity

section

variable {accepts : Nat → Nat → Bool} {maxSectors capacity n biSize nrSects : Nat}

theorem pieceLen_succ (nrSects k : Nat) : pieceLen nrSects (k + 1) = pieceLen (nrSects - 8) k := by
  unfold pieceLen
  congr 2
  omega

/-- After a full piece the others are one place nearer; a short one is the last. -/
theorem takesAll_iff (hpos : nrSects ≠ 0) :
    TakesAll accepts biSize nrSects ↔ accepts biSize (min 8 nrSects * 512) = true ∧
      TakesAll accepts (biSize + min 8 nrSects * 512) (nrSects - min 8 nrSects) := by
  constructor
  · intro h
    refine ⟨h 0 (by omega), fun k hk => ?_⟩
    have hnext := h (k + 1) (by omega)
    rw [pieceLen_succ] at hnext
    have hfull : min 8 nrSects = 8 := by omega
    rw [hfull]
    convert hnext using 2
    omega
  · rintro ⟨hfirst, hrest⟩ k hk
    cases k with
    | zero => exact hfirst
    | succ k =>
      have hfull : min 8 nrSects = 8 := by omega
      rw [hfull] at hrest
      have hnext := hrest k (by omega)
      rw [pieceLen_succ]
      convert hnext using 2
      omega

theorem RoomFor.next (h : RoomFor accepts capacity n biSize nrSects)
    (hfirst : accepts biSize (min 8 nrSects * 512) = true) :
    RoomFor accepts capacity (n + 1) (biSize + min 8 nrSects * 512) (nrSects - min 8 nrSects) := by
  intro k hk haccepted
  have hfull : min 8 nrSects = 8 := by omega
  rw [hfull] at hk haccepted
  have hroom := h (k + 1) (by omega) fun j hj => ?_
  · omega
  · cases j with
    | zero => exact hfirst
    | succ j =>
      have hnext := haccepted j (by omega)
      rw [pieceLen_succ]
      convert hnext using 2
      omega

/-- The bio has been filled with `n` pieces, and each of them is tagged. -/
structure ZeroFill.Tagged (z : ZeroFill) (maxSectors bio n : Nat) : Prop where
  plenty : z.refs.env.Plenty
  length : (z.refs.tags bio (maxSectors / 8)).items.length = n
  size : (z.refs.tags bio (maxSectors / 8)).size = z.biSize
  capacity : (z.refs.tags bio (maxSectors / 8)).capacity = maxSectors / 8

/-- By induction on the passes. A bio that refuses a piece has been tagged with it. -/
theorem zeroFill_spec (bio : Nat) : ∀ (fuel : Nat) {z : ZeroFill} {n : Nat}, z.nrSects < fuel →
    z.Tagged maxSectors bio n → RoomFor accepts (maxSectors / 8) n z.biSize z.nrSects →
    ∃ z', zeroFill accepts maxSectors bio fuel z = some z' ∧
      (TakesAll accepts z.biSize z.nrSects → z'.nrSects = 0) ∧
      (z'.refs.cllSize bio = z'.biSize ↔ TakesAll accepts z.biSize z.nrSects) := by
  intro fuel
  induction fuel with
  | zero =>
    intro z n hfuel _ _
    omega
  | succ fuel ih =>
    intro z n hfuel hz hroom
    unfold zeroFill
    by_cases hdone : z.nrSects = 0
    · rw [if_pos hdone]
      have hall : TakesAll accepts z.biSize z.nrSects := fun k hk => by omega
      refine ⟨z, rfl, fun _ => hdone, fun _ => hall, fun _ => ?_⟩
      rw [← (tags_items z.refs bio (maxSectors / 8)).2]
      exact hz.size
    rw [if_neg hdone]
    obtain ⟨⟨l, htags⟩, hplenty⟩ :=
      addCausesZeroToBio_spec hz.plenty bio (min 8 z.nrSects * 512) maxSectors
    have hfree : n + 0 < maxSectors / 8 := hroom 0 (by omega) fun j hj => by omega
    have hlength := hz.length
    have hcapacity := hz.capacity
    unfold Tags.add at htags
    rw [if_neg (by omega), hz.size] at htags
    by_cases hfirst : accepts z.biSize (min 8 z.nrSects * 512) = true
    · have hret : bioAddPage accepts z.biSize (min 8 z.nrSects * 512) = min 8 z.nrSects * 512 :=
        if_pos hfirst
      have hsects : min 8 z.nrSects * 512 / 512 = min 8 z.nrSects := Nat.mul_div_cancel _ (by decide)
      simp only [hret, hsects, lt_irrefl, if_false]
      have hnext : ZeroFill.Tagged ⟨addCausesZeroToBio z.refs bio (min 8 z.nrSects * 512) maxSectors,
          z.biSize + min 8 z.nrSects * 512, z.nrSects - min 8 z.nrSects⟩ maxSectors bio (n + 1) := by
        refine ⟨hplenty, ?_, ?_, ?_⟩
        · rw [htags, List.length_append, List.length_singleton, hlength]
        · rw [htags]
        · rw [htags, hcapacity]
      obtain ⟨z', hz', hall, hiff⟩ := ih (by simp only; omega) hnext (hroom.next hfirst)
      rw [takesAll_iff hdone]
      exact ⟨z', hz', fun h => hall h.2, hiff.trans ⟨fun h => ⟨hfirst, h⟩, fun h => h.2⟩⟩
    · have hret : bioAddPage accepts z.biSize (min 8 z.nrSects * 512) = 0 := if_neg hfirst
      have hshort : 0 < min 8 z.nrSects * 512 := by omega
      have hrefused : ¬ TakesAll accepts z.biSize z.nrSects := fun h => hfirst (h 0 (by omega))
      simp only [hret, hshort, if_true]
      refine ⟨_, rfl, fun h => absurd h hrefused, fun h => ?_, fun h => absurd h hrefused⟩
      rw [← (tags_items _ bio (maxSectors / 8)).2, htags] at h
      simp only at h
      omega

end

theorem blkdevIssueZeroout_zero (accepts : Nat → Nat → Nat → Bool) (maxSectors fuel : Nat) (s : CauseRefs)
    (bio : Nat) : blkdevIssueZeroout accepts maxSectors fuel s bio 0 = [] := by
  cases fuel with
  | zero => rfl
  | succ fuel => rw [blkdevIssueZeroout, if_pos rfl]

/-- Zeroes are written in bios that are not tagged yet. All bios that are submitted have the size of
their tags if and only if the first bio takes all sectors. -/
theorem zero_bios_tagged_iff (accepts : Nat → Nat → Nat → Bool) (maxSectors : Nat) (s : CauseRefs)
    (henv : s.env.Plenty) (bio nrSects : Nat) (hbio : s.clls.lookup bio = none)
    (hroom : RoomFor (accepts bio) (maxSectors / 8) 0 0 nrSects) :
    (∀ fuel, ∀ b ∈ blkdevIssueZeroout accepts maxSectors fuel s bio nrSects, b.cllSize = b.biSize) ↔
      TakesAll (accepts bio) 0 nrSects := by
  have hempty : s.tags bio (maxSectors / 8) = ⟨[], 0, maxSectors / 8⟩ := by
    unfold tags
    rw [hbio]
  obtain ⟨z, hz, hall, hiff⟩ := zeroFill_spec bio (nrSects + 1) (z := ⟨s, 0, nrSects⟩) (n := 0)
    (Nat.lt_succ_self nrSects) ⟨henv, by rw [hempty]; rfl, by rw [hempty], by rw [hempty]⟩ hroom
  by_cases hdone : nrSects = 0
  · refine ⟨fun _ k hk => by omega, fun _ fuel b hb => ?_⟩
    rw [hdone, blkdevIssueZeroout_zero] at hb
    cases hb
  have hfirst : ∀ fuel, blkdevIssueZeroout accepts maxSectors (fuel + 1) s bio nrSects =
      ⟨z.biSize, z.refs.cllSize bio⟩ ::
        blkdevIssueZeroout accepts maxSectors fuel z.refs (bio + 1) z.nrSects := by
    intro fuel
    rw [blkdevIssueZeroout, if_neg hdone, hz]
  constructor
  · intro h
    refine hiff.mp (h 1 ⟨z.biSize, z.refs.cllSize bio⟩ ?_)
    rw [hfirst]
    exact List.mem_cons_self
  · intro htakes fuel b hb
    cases fuel with
    | zero => cases hb
    | succ fuel =>
      rw [hfirst] at hb
      rcases List.mem_cons.mp hb with rfl | hb
      · exact hiff.mpr htakes
      · -- nothing is left for another bio
        rw [hall htakes, blkdevIssueZeroout_zero] at hb
        cases hb

theorem zero_bios_tagged_iff_one_bio :
    (blkdevIssueZeroout (fun _ biSize _ => decide (biSize < 256 * 4096)) 2560 2
        (init sampleMem sampleEnv) 5 12).length = 1 ∧
      ∀ b ∈ blkdevIssueZeroout (fun _ biSize _ => decide (biSize < 256 * 4096)) 2560 2
        (init sampleMem sampleEnv) 5 12, b.cllSize = b.biSize := by
  refine ⟨by decide +kernel, (zero_bios_tagged_iff (fun _ biSize _ => decide (biSize < 256 * 4096)) 2560
    (init sampleMem sampleEnv) (fun _ => rfl) 5 12 (by decide) (fun k hk _ => by omega)).mpr ?_ 2⟩
  intro k hk
  exact decide_eq_true (by omega)

/-- A bio of one page gets the tags of two. -/
theorem full_bio_tagged_twice :
    blkdevIssueZeroout (fun _ biSize _ => decide (biSize < 4096)) 2560 2 (init sampleMem sampleEnv) 5 16 =
        [⟨4096, 8192⟩, ⟨4096, 4096⟩] ∧
      ¬ ∀ b ∈ blkdevIssueZeroout (fun _ biSize _ => decide (biSize < 4096)) 2560 2
        (init sampleMem sampleEnv) 5 16, b.cllSize = b.biSize := by
  decide +kernel

end SplitSched
