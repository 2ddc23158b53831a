import SplitSched.Block.BioTags
import SplitSched.Lib.Run

/-!
# SplitSched.Btrfs.ExtentIo

How btrfs puts pages into bios (extent_io.c of the 4.5 patch set). `submit_extent_page` appends a page to
the current bio or, when it does not fit, submits the bio and starts another one with the page. The cause
list of the page is moved twice: to the current bio, before the decision, and to the bio that the page is
added to in the end.

* `submitExtentPage`, with the tagged pages that every bio carries kept beside the state.
* `causes_travel_iff`: the lists follow their pages if and only if a page with causes that meets a bio is
  appended to it.

`submit_one_bio` and `btrfs_bio_alloc` succeed.
-/

namespace SplitSched
namespace Btrfs

open CauseRefs

def copyCausesPageToBio (s : CauseRefs) (page bio pageSize maxSectors : Nat) : CauseRefs :=
  moveCauses s (.page page) pageSize bio (maxSectors / 2)

/-- A call of `submit_extent_page`, with what decides whether the page is appended to a bio. -/
structure Submit where
  page : Nat
  pageSize : Nat
  prevBioFlags : Nat
  bioFlags : Nat
  /-- The page follows the last one of the bio. -/
  contig : Bool
  forceBioSubmit : Bool
  mergeBio : Bool
  /-- The bytes that `bio_add_page` would add. -/
  added : Nat

/-- The negation of the condition under which the bio is submitted. -/
def Submit.appends (c : Submit) : Bool :=
  !(c.prevBioFlags != c.bioFlags || !c.contig || c.forceBioSubmit || c.mergeBio ||
    decide (c.added < c.pageSize))

structure ExtentIo where
  refs : CauseRefs
  /-- `*bio_ret`. -/
  bio : Option Nat
  nextBio : Nat
  /-- The cause lists and the sizes of the pages that a bio carries, for the pages that had causes. -/
  carried : Nat → List (Nat × Nat)

namespace ExtentIo

def init (refs : CauseRefs) (first : Nat) : ExtentIo := ⟨refs, none, first, fun _ => []⟩

/-- The page is in the bio from now on. -/
def carry (x : ExtentIo) (bio : Nat) (causes : Option Nat) (size : Nat) : ExtentIo :=
  let pages := x.carried bio ++ (causes.map fun l => (l, size)).toList
  { x with carried := Function.update x.carried bio pages }

/-- A bio is allocated, and the page is added to it. -/
def startBio (maxSectors : Nat) (x : ExtentIo) (c : Submit) : ExtentIo :=
  { x with
    refs := copyCausesPageToBio x.refs c.page x.nextBio c.pageSize maxSectors
    bio := some x.nextBio
    nextBio := x.nextBio + 1 }

def submitExtentPage (maxSectors : Nat) (x : ExtentIo) (c : Submit) : ExtentIo :=
  let causes := x.refs.causes (.page c.page)
  match x.bio with
  | some bio =>
    let x' := { x with refs := copyCausesPageToBio x.refs c.page bio c.pageSize maxSectors }
    if c.appends then x'.carry bio causes c.pageSize
    else (startBio maxSectors x' c).carry x.nextBio causes c.pageSize
  | none => (startBio maxSectors x c).carry x.nextBio causes c.pageSize

def step (maxSectors : Nat) (x : ExtentIo) (c : Submit) : Option ExtentIo :=
  some (submitExtentPage maxSectors x c)

/-- The bio that the page will be in. -/
def target (x : ExtentIo) (c : Submit) : Nat :=
  match x.bio with
  | some bio => if c.appends then bio else x.nextBio
  | none => x.nextBio

/-- The lists of a bio are those of the pages that it carries. -/
def Travels (first : Nat) (x : ExtentIo) : Prop :=
  ∀ b, first ≤ b → x.refs.cllItems b = (x.carried b).map Prod.fst ∧
    x.refs.cllSize b = ((x.carried b).map Prod.snd).sum

/-- A page with causes that meets a bio is appended to it, and its list finds room. -/
def Fits (maxSectors : Nat) (x : ExtentIo) (c : Submit) : Prop :=
  x.refs.causes (.page c.page) ≠ none →
    (x.bio = none ∨ c.appends = true) ∧ (x.carried (x.target c)).length < maxSectors / 2

instance (maxSectors : Nat) (x : ExtentIo) (c : Submit) : Decidable (x.Fits maxSectors c) := by
  unfold Fits
  infer_instance

/-! ## One call -/

/-- The tags of a bio that carries the pages `pages`. -/
def tagsOf (capacity : Nat) (pages : List (Nat × Nat)) : Tags :=
  ⟨pages.map Prod.fst, (pages.map Prod.snd).sum, capacity⟩

theorem tagsOf_add {capacity : Nat} {pages : List (Nat × Nat)} (l size : Nat)
    (h : pages.length < capacity) :
    (tagsOf capacity pages).add l size = tagsOf capacity (pages ++ [(l, size)]) := by
  have hroom : (pages.map Prod.fst).length ≠ capacity := by
    rw [List.length_map]
    omega
  unfold Tags.add tagsOf
  rw [if_neg hroom]
  simp

theorem tagsOf_add_full {capacity : Nat} {pages : List (Nat × Nat)} (l size : Nat)
    (h : pages.length = capacity) : (tagsOf capacity pages).add l size = tagsOf capacity pages :=
  if_pos (by rw [tagsOf, List.length_map]; exact h)

structure Tagged (maxSectors first : Nat) (x : ExtentIo) : Prop where
  plenty : x.refs.env.Plenty
  tags : ∀ b, first ≤ b → x.refs.tags b (maxSectors / 2) = tagsOf (maxSectors / 2) (x.carried b)
  room : ∀ b, first ≤ b → (x.carried b).length ≤ maxSectors / 2
  bio : ∀ b ∈ x.bio, first ≤ b ∧ b < x.nextBio
  next : first ≤ x.nextBio

variable {maxSectors first : Nat} {x : ExtentIo} {c : Submit}

theorem Tagged.travels (h : x.Tagged maxSectors first) : x.Travels first := by
  intro b hb
  obtain ⟨hitems, hsize⟩ := tags_items x.refs b (maxSectors / 2)
  rw [h.tags b hb] at hitems hsize
  exact ⟨hitems.symm, hsize.symm⟩

/-- The lists of a bio that travel with the pages have their tags. -/
theorem Travels.tagged {b : Nat} (h : x.Travels first) (maxSectors : Nat) (hb : first ≤ b) :
    (x.refs.tags b (maxSectors / 2)).items.length = (x.carried b).length := by
  rw [(tags_items x.refs b (maxSectors / 2)).1, (h b hb).1, List.length_map]

theorem copyCausesPageToBio_none {s : CauseRefs} {page : Nat} (h : s.causes (.page page) = none)
    (bio pageSize maxSectors : Nat) : copyCausesPageToBio s page bio pageSize maxSectors = s := by
  unfold copyCausesPageToBio moveCauses
  rw [h]

/-- The list of the page goes to the tags of one bio. -/
theorem Tagged.copy (h : x.Tagged maxSectors first) {page l : Nat}
    (hl : x.refs.causes (.page page) = some l) (size : Nat) {b : Nat} (hb : first ≤ b) :
    let s := copyCausesPageToBio x.refs page b size maxSectors
    s.tags b (maxSectors / 2) = (tagsOf (maxSectors / 2) (x.carried b)).add l size ∧
    (∀ b', first ≤ b' → b' ≠ b → s.tags b' (maxSectors / 2) = tagsOf (maxSectors / 2) (x.carried b')) ∧
    s.causes (.page page) = none ∧ s.env.Plenty := by
  obtain ⟨htags, hothers, hgiven, henv⟩ := moveCauses_spec h.plenty hl size b (maxSectors / 2)
  refine ⟨?_, fun b' hb' hne => ?_, ?_, henv⟩
  · exact htags.trans (congrArg (fun t : Tags => t.add l size) (h.tags b hb))
  · exact (hothers b' _ hne).trans (h.tags b' hb')
  · exact (congrFun hgiven _).trans (Function.update_self _ _ _)

theorem Tagged.target (h : x.Tagged maxSectors first) (c : Submit) : first ≤ x.target c := by
  unfold ExtentIo.target
  cases hbio : x.bio with
  | none => exact h.next
  | some bio =>
    simp only
    split
    · exact (h.bio bio hbio).1
    · exact h.next

/-- The page and its list go to the same bio. -/
theorem submit_of_fits (h : x.Tagged maxSectors first) {l : Nat}
    (hl : x.refs.causes (.page c.page) = some l) (hfits : x.bio = none ∨ c.appends = true) :
    ∃ n, x.nextBio ≤ n ∧ x.target c < n ∧ submitExtentPage maxSectors x c =
      ⟨copyCausesPageToBio x.refs c.page (x.target c) c.pageSize maxSectors, some (x.target c), n,
        Function.update x.carried (x.target c) (x.carried (x.target c) ++ [(l, c.pageSize)])⟩ := by
  unfold submitExtentPage ExtentIo.target
  cases hbio : x.bio with
  | none =>
    refine ⟨x.nextBio + 1, Nat.le_succ _, Nat.lt_succ_self _, ?_⟩
    simp only [hl]
    rfl
  | some bio =>
    have happends : c.appends = true := by
      rcases hfits with hnone | happends
      · rw [hbio] at hnone
        cases hnone
      · exact happends
    simp only [hl, happends, if_true]
    exact ⟨x.nextBio, le_rfl, (h.bio bio hbio).2, by rw [← hbio]; rfl⟩

/-- The list stays with a bio that the page is not in. -/
theorem submit_of_not_fits {l bio : Nat} (hl : x.refs.causes (.page c.page) = some l)
    (hbio : x.bio = some bio) (happends : ¬ c.appends = true)
    (hgiven : (copyCausesPageToBio x.refs c.page bio c.pageSize maxSectors).causes (.page c.page) = none) :
    (submitExtentPage maxSectors x c).refs =
        copyCausesPageToBio x.refs c.page bio c.pageSize maxSectors ∧
      (submitExtentPage maxSectors x c).carried =
        Function.update x.carried x.nextBio (x.carried x.nextBio ++ [(l, c.pageSize)]) := by
  unfold submitExtentPage
  simp only [hbio, happends, Bool.false_eq_true, if_false, hl]
  exact ⟨copyCausesPageToBio_none hgiven _ _ _, rfl⟩

/-- A page without causes changes no tags. -/
theorem Tagged.submit_untagged (h : x.Tagged maxSectors first)
    (hnone : x.refs.causes (.page c.page) = none) :
    (submitExtentPage maxSectors x c).Tagged maxSectors first := by
  have hcarry : ∀ (y : ExtentIo) (b : Nat), y.carry b none c.pageSize = y := by
    intro y b
    simp [carry]
  have hstart : startBio maxSectors x c = { x with bio := some x.nextBio, nextBio := x.nextBio + 1 } := by
    unfold startBio
    rw [copyCausesPageToBio_none hnone]
  have hstarted : (startBio maxSectors x c).Tagged maxSectors first := by
    rw [hstart]
    refine ⟨h.plenty, h.tags, h.room, ?_, h.next.trans (Nat.le_succ _)⟩
    rintro b ⟨⟩
    exact ⟨h.next, Nat.lt_succ_self _⟩
  unfold submitExtentPage
  simp only [hnone, hcarry]
  cases hbio : x.bio with
  | none => exact hstarted
  | some bio =>
    simp only [copyCausesPageToBio_none hnone]
    split
    · rw [← hbio]
      exact h
    · rw [← hbio]
      exact hstarted

theorem Tagged.submit (h : x.Tagged maxSectors first) (hfits : x.Fits maxSectors c) :
    (submitExtentPage maxSectors x c).Tagged maxSectors first := by
  cases hl : x.refs.causes (.page c.page) with
  | none => exact h.submit_untagged hl
  | some l =>
    obtain ⟨happends, hroom⟩ := hfits (by rw [hl]; exact Option.some_ne_none l)
    have htarget := h.target c
    obtain ⟨n, hnext, hlt, heq⟩ := submit_of_fits h hl happends
    obtain ⟨htags, hothers, -, henv⟩ := h.copy hl c.pageSize htarget
    rw [heq]
    refine ⟨henv, fun b hb => ?_, fun b hb => ?_, ?_, h.next.trans hnext⟩
    · by_cases hbt : b = x.target c
      · subst hbt
        simp only [Function.update_self]
        rw [htags, tagsOf_add l c.pageSize hroom]
      · simp only [Function.update_of_ne hbt]
        exact hothers b hb hbt
    · by_cases hbt : b = x.target c
      · subst hbt
        simp only [Function.update_self, List.length_append, List.length_singleton]
        omega
      · simp only [Function.update_of_ne hbt]
        exact h.room b hb
    · rintro b ⟨⟩
      exact ⟨htarget, hlt⟩

/-- A list that goes to another bio, or that finds no room, is missing where its page is. -/
theorem Tagged.submit_not_travels (h : x.Tagged maxSectors first) (hfits : ¬ x.Fits maxSectors c) :
    ¬ (submitExtentPage maxSectors x c).Travels first := by
  intro htravels
  unfold Fits at hfits
  rw [Classical.not_imp] at hfits
  obtain ⟨hsome, hfits⟩ := hfits
  obtain ⟨l, hl⟩ := Option.ne_none_iff_exists'.mp hsome
  by_cases happends : x.bio = none ∨ c.appends = true
  · -- no room
    have htarget := h.target c
    have hfull : (x.carried (x.target c)).length = maxSectors / 2 := by
      have hroom := h.room (x.target c) htarget
      have hmany : ¬ (x.carried (x.target c)).length < maxSectors / 2 := fun hlt => hfits ⟨happends, hlt⟩
      omega
    obtain ⟨n, -, -, heq⟩ := submit_of_fits h hl happends
    obtain ⟨htags, -⟩ := h.copy hl c.pageSize htarget
    have hlength := htravels.tagged maxSectors htarget
    rw [heq] at hlength
    simp only [htags, tagsOf_add_full l c.pageSize hfull, Function.update_self] at hlength
    simp [tagsOf] at hlength
  · obtain ⟨hbio, hnot⟩ := not_or.mp happends
    obtain ⟨bio, hbio⟩ := Option.ne_none_iff_exists'.mp hbio
    obtain ⟨hfirst, hlt⟩ := h.bio bio hbio
    obtain ⟨htags, hothers, hgiven, -⟩ := h.copy hl c.pageSize hfirst
    obtain ⟨hrefs, hcarried⟩ := submit_of_not_fits hl hbio hnot hgiven
    by_cases hfull : (x.carried bio).length = maxSectors / 2
    · -- the old bio has no room: nobody has the list
      have hlength := htravels.tagged maxSectors h.next
      rw [hrefs, hothers x.nextBio h.next (by omega), hcarried, Function.update_self] at hlength
      simp [tagsOf] at hlength
    · -- the old bio has it
      have hroom := h.room bio hfirst
      have hlength := htravels.tagged maxSectors hfirst
      rw [hrefs, htags, tagsOf_add l c.pageSize (by omega), hcarried,
        Function.update_of_ne (by omega)] at hlength
      simp [tagsOf] at hlength

/-! ## Sequences of calls -/

theorem init_tagged {refs : CauseRefs} (henv : refs.env.Plenty)
    (hfresh : ∀ b, first ≤ b → refs.clls.lookup b = none) :
    (init refs first).Tagged maxSectors first := by
  refine ⟨henv, fun b hb => ?_, fun b _ => Nat.zero_le _, fun b hb => (by cases hb), le_rfl⟩
  change refs.tags b (maxSectors / 2) = _
  unfold CauseRefs.tags
  rw [hfresh b hb]
  rfl

/-- After every call the lists of all bios are those of the pages they carry, and their sizes add up, if
and only if every page with causes that meets a bio is appended to it, and finds room there for its
list. -/
theorem causes_travel_iff (maxSectors first : Nat) (refs : CauseRefs) (henv : refs.env.Plenty)
    (hfresh : ∀ b, first ≤ b → refs.clls.lookup b = none) (calls : List Submit) :
    Always (step maxSectors) (Travels first) (init refs first) calls ↔
      Meets (step maxSectors) (Fits maxSectors) (init refs first) calls := by
  obtain ⟨x', hx'⟩ := run_total (fun x c => ⟨submitExtentPage maxSectors x c, rfl⟩) calls
    (init refs first)
  refine always_iff_meets (I := Tagged maxSectors first) ?_ (fun x h => h.travels) ?_ hx'
    (init_tagged henv hfresh)
  · rintro x c x' ⟨⟩ hfits h
    exact h.submit hfits
  · rintro x c x' ⟨⟩ hfits h
    exact h.submit_not_travels hfits

/-- Two pages, dirtied by the accounts 7 and 8. -/
def twoPages : CauseRefs :=
  let s := CauseRefs.causeListAdd (CauseRefs.init sampleMem sampleEnv) (.page 0) 1 7
  (CauseRefs.causeListAdd s.2 (.page 1) 1 8).2

/-- A page of 4 KB, with the same flags as the one before it, that can be merged. -/
def pageCall (page : Nat) (contig : Bool) : Submit := ⟨page, 4096, 0, 0, contig, false, false, 4096⟩

/-- Two pages in a row. -/
theorem causes_travel_iff_contiguous :
    Always (step 2560) (Travels 5) (init twoPages 5) [pageCall 0 false, pageCall 1 true] := by
  refine (causes_travel_iff 2560 5 twoPages (fun _ => rfl) (fun b _ => rfl) _).mpr ⟨by decide +kernel, ?_⟩
  rintro x ⟨⟩
  refine ⟨by decide +kernel, ?_⟩
  rintro x ⟨⟩
  trivial

/-- The second page does not follow the first one. Its bio has no causes, and the one before it has those
of both pages. -/
theorem noncontiguous_page_loses_causes :
    ∃ x, run (step 2560) (init twoPages 5) [pageCall 0 false, pageCall 1 false] = some x ∧
      x.carried 5 = [(0, 4096)] ∧ x.carried 6 = [(1, 4096)] ∧
      x.refs.cllItems 5 = [0, 1] ∧ x.refs.cllSize 5 = 8192 ∧ x.refs.cllItems 6 = [] :=
  ⟨_, rfl, by decide +kernel⟩

end ExtentIo

end Btrfs
end SplitSched
