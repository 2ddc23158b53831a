import SplitSched.Block.CauseTags

/-!
# SplitSched.Block.Extents

The extents a request is made of, and the extents the schedulers account for.

* `bioExtents`: what `account_for_bio` adds to the global batch for one bio, in tbucket.c and in
  acct_afq_sched.c alike. The size of an extent is the size field of a cause list.
* `Partitions`: a sequence of extents covers each bio's byte range, in order and without gaps.
* `partitions_iff`: the extents of a well-tagged request do so exactly when every bio that falls
  back on the request's own cause list is empty, because that list has size 0.
* `newCauseListList_sizes`, `causeListListAdd_sizes`: the size of a list of cause lists is the sum of
  theirs from its creation on.
-/

namespace SplitSched

/-! ## What is accounted for -/

/-- The extents of consecutive cause lists from `offset` on. -/
def listExtents (P : Platform) (m : Mem) : List Nat → Int → List IORequest
  | [], _ => []
  | l :: ls, offset =>
    ⟨offset, P.int (m.lists l).size⟩ :: listExtents P m ls (offset + (m.lists l).size)

/-- The extent of a bio that falls back on the request's own cause list. -/
def rqExtents (P : Platform) (m : Mem) (r : Request) (bio : Bio) : List IORequest :=
  match r.causes with
  | some l => [⟨bio.biSector * 512, P.int (m.lists l).size⟩]
  | none => []

def bioExtents (P : Platform) (m : Mem) (r : Request) (bio : Bio) : List IORequest :=
  match bio.cll with
  | some cll =>
    if (m.lists cll.uniqCauses).itemCount ≠ 0 then listExtents P m cll.items (bio.biSector * 512)
    else rqExtents P m r bio
  | none => rqExtents P m r bio

theorem listExtents_congr {P : Platform} {m m' : Mem}
    (hs : ∀ l, (m'.lists l).size = (m.lists l).size) {ls : List Nat} : ∀ {offset : Int},
    listExtents P m' ls offset = listExtents P m ls offset := by
  induction ls with
  | nil => exact rfl
  | cons l ls ih =>
    intro offset
    simp only [listExtents, hs, ih]

/-- The extents depend on the lists' sizes and on who is on them. -/
theorem bioExtents_congr {P : Platform} {m m' : Mem} {r : Request}
    (hs : ∀ l, (m'.lists l).size = (m.lists l).size)
    (hi : ∀ l, (m'.lists l).items = (m.lists l).items) (bio : Bio) :
    bioExtents P m' r bio = bioExtents P m r bio := by
  have hc : ∀ l, (m'.lists l).itemCount = (m.lists l).itemCount := by
    intro l
    rw [(m'.lists l).count_eq, (m.lists l).count_eq, hi]
  simp only [bioExtents, rqExtents, hc, listExtents_congr hs, hs]

/-! ## Covering a range -/

/-- The extents follow each other from `start` on and have `len` bytes together. -/
def Covers : Int → Int → List IORequest → Prop
  | _, len, [] => len = 0
  | start, len, r :: rs => r.offset = start ∧ Covers (start + r.size) (len - r.size) rs

/-- The extents, in order, cover the byte ranges of the bios. -/
def Partitions (bios : List Bio) (exts : List IORequest) : Prop :=
  ∃ parts : List (List IORequest), exts = parts.flatten ∧
    List.Forall₂ (fun bio part => Covers (bio.biSector * 512) bio.biSize part) bios parts

/-- Together, the extents have as many bytes as the bios. -/
def extentBytes (exts : List IORequest) : Int := (exts.map (·.size)).sum

theorem Covers.bytes {exts : List IORequest} : ∀ {start len : Int}, Covers start len exts →
    extentBytes exts = len := by
  induction exts with
  | nil =>
    intro start len h
    exact h.symm
  | cons r rs ih =>
    intro start len h
    have := ih h.2
    simp only [extentBytes, List.map_cons, List.sum_cons] at this ⊢
    omega

theorem Partitions.bytes {bios : List Bio} {exts : List IORequest} (h : Partitions bios exts) :
    extentBytes exts = (bios.map fun bio => (bio.biSize : Int)).sum := by
  obtain ⟨parts, rfl, h⟩ := h
  induction h with
  | nil => rfl
  | cons hc _ ih =>
    have := hc.bytes
    simp only [extentBytes, List.flatten_cons, List.map_append, List.sum_append, List.map_cons,
      List.sum_cons] at this ih ⊢
    omega

theorem listExtents_covers {P : Platform} {m : Mem} (ls : List Nat)
    (hint : ∀ l ∈ ls, P.int (m.lists l).size = (m.lists l).size) : ∀ start : Int,
    Covers start ((ls.map fun l => (m.lists l).size).sum : Nat) (listExtents P m ls start) := by
  induction ls with
  | nil => exact fun _ => rfl
  | cons l ls ih =>
    intro start
    have hl := hint l (List.mem_cons_self ..)
    have htail := ih (fun l' hl' => hint l' (List.mem_cons_of_mem l hl')) (start + (m.lists l).size)
    refine ⟨rfl, ?_⟩
    simp only [hl, List.map_cons, List.sum_cons]
    push_cast at htail ⊢
    rw [add_sub_cancel_left]
    exact htail

/-! ## Lists of cause lists -/

/-- `new_cause_list_list`, when the allocations succeed; `uniq` is where the summary list goes. -/
def newCauseListList (m : Mem) (uniq itemCapacity : Nat) : CauseListList × Mem :=
  (⟨uniq, 0, [], itemCapacity⟩, m.setList uniq .new)

/-- `cause_list_list_add`: one more cause list, if there is room for it. -/
def causeListListAdd (env : Env) (m : Mem) (cll : CauseListList) (l : Nat) :
    CauseListList × Mem × Env :=
  if cll.items.length = cll.itemCapacity then (cll, m, env)
  else
    let uniq := m.lists cll.uniqCauses
    let r :=
      if cll.items.getLast? ≠ some l then (causeListCopy env (m.lists l) uniq).2 else (uniq, env)
    let size := cll.size + (m.lists l).size
    ({ cll with items := cll.items ++ [l], size := size },
     m.setList cll.uniqCauses { r.1 with size := size }, r.2)

/-- The size of a list of cause lists is the sum of theirs; its summary list is not one of them. -/
structure CauseListList.Sized (m : Mem) (cll : CauseListList) : Prop where
  size : cll.size = (cll.items.map fun l => (m.lists l).size).sum
  uniq : cll.uniqCauses ∉ cll.items

theorem newCauseListList_sizes (m : Mem) (uniq itemCapacity : Nat) :
    (newCauseListList m uniq itemCapacity).1.Sized (newCauseListList m uniq itemCapacity).2 :=
  ⟨rfl, List.not_mem_nil⟩

theorem causeListListAdd_sizes {env : Env} {m : Mem} {cll : CauseListList} {l : Nat}
    (h : cll.Sized m) (hl : l ≠ cll.uniqCauses) :
    (causeListListAdd env m cll l).1.Sized (causeListListAdd env m cll l).2.1 := by
  simp only [causeListListAdd]
  split
  · exact h
  · refine ⟨?_, by simpa using ⟨h.uniq, hl.symm⟩⟩
    have hsame : ∀ c : CauseList, ∀ l' ∈ cll.items ++ [l],
        ((m.setList cll.uniqCauses c).lists l').size = (m.lists l').size := by
      intro c l' hl'
      rw [Mem.setList_lists_of_ne]
      rintro rfl
      rcases List.mem_append.mp hl' with hm | hm
      · exact h.uniq hm
      · exact hl (List.mem_singleton.mp hm).symm
    rw [List.map_congr_left (hsame _), List.map_append, List.sum_append, ← h.size]
    simp

/-! ## Well-tagged requests -/

/-- A bio carries cause lists for all its bytes, each of a size that is an `int`, or it falls back on
the request's own list, which has the size `new_cause_list` gave it. -/
def WellTagged (P : Platform) (m : Mem) (r : Request) (bio : Bio) : Prop :=
  match bio.cll with
  | some cll => cll.size = bio.biSize ∧ cll.Sized m ∧ (m.lists cll.uniqCauses).itemCount ≠ 0 ∧
      ∀ l ∈ cll.items, P.int (m.lists l).size = (m.lists l).size
  | none => ∃ l, r.causes = some l ∧ (m.lists l).size = CauseList.new.size

section

variable {P : Platform} {m : Mem} {r : Request}

theorem WellTagged.covers_of_cll {bio : Bio} (h : WellTagged P m r bio) (hc : bio.cll ≠ none) :
    Covers (bio.biSector * 512) bio.biSize (bioExtents P m r bio) := by
  cases hcll : bio.cll with
  | none => exact absurd hcll hc
  | some cll =>
    simp only [WellTagged, hcll] at h
    obtain ⟨hsize, hsized, huniq, hint⟩ := h
    simp only [bioExtents, hcll, huniq, ne_eq, not_false_eq_true, if_true]
    rw [← hsize, hsized.size]
    exact listExtents_covers cll.items hint _

theorem WellTagged.extents_of_fallback {bio : Bio} (h : WellTagged P m r bio)
    (hc : bio.cll = none) : bioExtents P m r bio = [⟨bio.biSector * 512, 0⟩] := by
  simp only [WellTagged, hc] at h
  obtain ⟨l, hl, hs⟩ := h
  have h0 : P.int 0 = 0 := P.int_fits 0 (by norm_num) (by norm_num)
  simp [bioExtents, hc, rqExtents, hl, hs, CauseList.new, h0]

/-- The bytes that are accounted for are those of the bios with cause lists of their own. -/
theorem bioExtents_bytes {bio : Bio} (h : WellTagged P m r bio) :
    extentBytes (bioExtents P m r bio) = if bio.cll = none then 0 else (bio.biSize : Int) := by
  split
  · rename_i hc
    rw [h.extents_of_fallback hc]
    rfl
  · rename_i hc
    exact (h.covers_of_cll hc).bytes

/-- The extents of a well-tagged request cover its bios exactly when the bios that fall back on the
request's own cause list are empty. -/
theorem partitions_iff {bios : List Bio} (h : ∀ bio ∈ bios, WellTagged P m r bio) :
    Partitions bios (bios.flatMap (bioExtents P m r)) ↔
      ∀ bio ∈ bios, bio.cll = none → bio.biSize = 0 := by
  constructor
  · -- both sides have the same number of bytes, so nothing is left for the bios that fall back
    intro hp
    have hb := hp.bytes
    clear hp
    have hle : ∀ bios : List Bio, (∀ bio ∈ bios, WellTagged P m r bio) →
        extentBytes (bios.flatMap (bioExtents P m r)) +
          (bios.map fun bio => if bio.cll = none then (bio.biSize : Int) else 0).sum =
        (bios.map fun bio => (bio.biSize : Int)).sum := by
      intro bios
      induction bios with
      | nil => exact fun _ => rfl
      | cons bio bios ih =>
        intro h
        have hbio := bioExtents_bytes (h bio (List.mem_cons_self ..))
        have htail := ih fun b hb => h b (List.mem_cons_of_mem bio hb)
        simp only [extentBytes, List.flatMap_cons, List.map_append, List.sum_append, List.map_cons,
          List.sum_cons] at hbio htail ⊢
        split_ifs at hbio ⊢ <;> omega
    have hsum : (bios.map fun bio => if bio.cll = none then (bio.biSize : Int) else 0).sum = 0 := by
      have := hle bios h
      omega
    have hzero : ∀ bio ∈ bios, (if bio.cll = none then (bio.biSize : Int) else 0) = 0 := by
      intro bio hbio
      have hnn : ∀ x ∈ bios.map fun bio => if bio.cll = none then (bio.biSize : Int) else 0,
          0 ≤ x := by
        intro x hx
        obtain ⟨b, -, rfl⟩ := List.mem_map.mp hx
        split <;> omega
      exact (List.all_zero_of_le_zero_le_of_sum_eq_zero hnn hsum) (List.mem_map_of_mem hbio)
    intro bio hbio hc
    have := hzero bio hbio
    rw [if_pos hc] at this
    exact_mod_cast this
  · intro hz
    refine ⟨bios.map (bioExtents P m r), List.flatMap_def, ?_⟩
    rw [List.forall₂_map_right_iff, List.forall₂_same]
    intro bio hbio
    by_cases hc : bio.cll = none
    · rw [(h bio hbio).extents_of_fallback hc]
      exact ⟨rfl, by simp [Covers, hz bio hbio hc]⟩
    · exact (h bio hbio).covers_of_cll hc

end

end SplitSched
