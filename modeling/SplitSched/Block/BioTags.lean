import SplitSched.Block.CauseIds

/-!
# SplitSched.Block.BioTags

The cause lists that a bio is tagged with. A buffer that is added to a bio hands its cause list over
(`move_causes_bh_to_bio`); the bio's list of cause lists is made for the first of them, with room for
one list for every page that the queue takes in a bio.

* `Tags`: the items, the size and the room of a bio's list of cause lists; `Tags.add` is one more list.
* `moveCauses_spec`: a pointer that is handed over is added to the tags of its bio.
* `bio_takes_all_iff`: a bio keeps the lists of all its buffers if and only if there are no more of them
  than pages, whatever their sizes.
-/

namespace SplitSched
namespace CauseRefs

/-! ## Tags -/

structure Tags where
  items : List Nat
  size : Nat
  capacity : Nat
  deriving DecidableEq, Repr

namespace Tags

/-- A list that finds no room is dropped. -/
def add (t : Tags) (l size : Nat) : Tags :=
  if t.items.length = t.capacity then t
  else { t with items := t.items ++ [l], size := t.size + size }

def addAll (t : Tags) (ls : List (Nat × Nat)) : Tags := ls.foldl (fun t l => t.add l.1 l.2) t

/-- The tags take as many lists as they have room for. -/
theorem addAll_eq (ls : List (Nat × Nat)) : ∀ {t : Tags}, t.items.length ≤ t.capacity →
    t.addAll ls =
      { t with
        items := t.items ++ (ls.take (t.capacity - t.items.length)).map Prod.fst
        size := t.size + ((ls.take (t.capacity - t.items.length)).map Prod.snd).sum } := by
  induction ls with
  | nil =>
    intro t _
    simp [addAll]
  | cons l ls ih =>
    intro t hroom
    change (t.add l.1 l.2).addAll ls = _
    by_cases hfull : t.items.length = t.capacity
    · have hadd : t.add l.1 l.2 = t := if_pos hfull
      rw [hadd, ih hroom, hfull, Nat.sub_self]
      simp
    · have hadd : t.add l.1 l.2 = { t with items := t.items ++ [l.1], size := t.size + l.2 } :=
        if_neg hfull
      have hlength : (t.items ++ [l.1]).length = t.items.length + 1 := by simp
      obtain ⟨n, hn⟩ : ∃ n, t.capacity - t.items.length = n + 1 :=
        ⟨t.capacity - t.items.length - 1, by omega⟩
      have hleft : t.capacity - (t.items.length + 1) = n := by omega
      rw [hadd, ih (by simp only [hlength]; omega)]
      simp only [hlength, hleft, hn, List.take_succ_cons, List.map_cons, List.sum_cons,
        List.append_assoc, List.singleton_append, Nat.add_assoc]

end Tags

/-- The tags of a bio. A list of cause lists that is not there yet would be made with room for
`capacity` lists. -/
def tags (s : CauseRefs) (bio capacity : Nat) : Tags :=
  match s.clls.lookup bio with
  | none => ⟨[], 0, capacity⟩
  | some cll => ⟨cll.items, cll.size, cll.itemCapacity⟩

def cllItems (s : CauseRefs) (bio : Nat) : List Nat := (s.clls.lookup bio).elim [] (·.items)

def cllSize (s : CauseRefs) (bio : Nat) : Nat := (s.clls.lookup bio).elim 0 (·.size)

variable {s : CauseRefs} {i : Slot} {l bio : Nat}

theorem tags_items (s : CauseRefs) (bio capacity : Nat) :
    (s.tags bio capacity).items = s.cllItems bio ∧ (s.tags bio capacity).size = s.cllSize bio := by
  unfold tags cllItems cllSize
  cases s.clls.lookup bio with
  | none => exact ⟨rfl, rfl⟩
  | some cll => exact ⟨rfl, rfl⟩

/-- What a bio is tagged with is not freed. -/
theorem Sound.live_of_cllItems (h : s.Sound 0) (hl : l ∈ s.cllItems bio) :
    s.refcount.live l = true := by
  unfold cllItems at hl
  cases hb : s.clls.lookup bio with
  | none =>
    rw [hb] at hl
    cases hl
  | some cll =>
    rw [hb, Option.elim_some] at hl
    refine (h.live_iff l).mpr ?_
    rw [zero_add]
    unfold refs holders
    rw [contents_erase s.clls bio, hb]
    simp [cllPointers, hl]

theorem tags_congr {s' : CauseRefs} (h : s'.clls = s.clls) : s'.tags = s.tags := by
  funext bio capacity
  unfold tags
  rw [h]

/-- With memory to spare a list of cause lists is made. -/
theorem ensureCll_plenty (h : s.env.Plenty) (bio capacity : Nat) :
    (∃ cll, (s.ensureCll bio capacity).clls.lookup bio = some cll) ∧
    (s.ensureCll bio capacity).tags bio capacity = s.tags bio capacity ∧
    (∀ b c, b ≠ bio → (s.ensureCll bio capacity).tags b c = s.tags b c) ∧
    (s.ensureCll bio capacity).env.Plenty := by
  unfold ensureCll
  cases hb : s.clls.lookup bio with
  | some cll => exact ⟨⟨cll, hb⟩, rfl, fun _ _ _ => rfl, h⟩
  | none =>
    have hcapacity : ¬ (capacity : Int) < 0 := by omega
    have hmem : (newCauseListList s capacity).1 = some ⟨s.refcount.next, 0, [], capacity⟩ ∧
        (newCauseListList s capacity).2.clls = s.clls ∧ (newCauseListList s capacity).2.env.Plenty := by
      unfold newCauseListList newCauseList
      rw [if_neg hcapacity]
      simp only [Env.kmalloc, h _, if_true, Int.toNat_natCast]
      exact ⟨rfl, trivial, h⟩
    obtain ⟨hnew, hclls, henv⟩ := hmem
    simp only [hnew]
    refine ⟨⟨_, AList.lookup_insert _⟩, ?_, fun b c hne => ?_, henv⟩
    · unfold tags
      simp only [AList.lookup_insert, hb]
    · unfold tags
      rw [AList.lookup_insert_ne hne, hclls]

/-- A list is added to the tags of its bio, and no other bio's change. -/
theorem causeListListAdd_tags {cll : CauseListList} (hb : s.clls.lookup bio = some cll) (l capacity : Nat) :
    (causeListListAdd s bio (some l)).tags bio capacity =
      (s.tags bio capacity).add l (s.mem.lists l).size ∧
    ∀ b c, b ≠ bio → (causeListListAdd s bio (some l)).tags b c = s.tags b c := by
  have htags : s.tags bio capacity = ⟨cll.items, cll.size, cll.itemCapacity⟩ := by
    unfold tags
    rw [hb]
  rw [htags]
  unfold causeListListAdd Tags.add
  simp only [hb]
  by_cases hfull : cll.items.length = cll.itemCapacity
  · simp only [hfull, if_true]
    exact ⟨htags, fun _ _ _ => trivial⟩
  · simp only [hfull, if_false]
    unfold SplitSched.causeListListAdd allocItems
    rw [if_neg hfull]
    refine ⟨?_, fun b c hne => ?_⟩
    · unfold tags
      simp only [AList.lookup_insert]
    · unfold tags
      simp only [AList.lookup_insert_ne hne]

/-! ## Handing a list over -/

/-- The list that `i` points to gets the size of the data, is added to the bio's list of cause lists, and
`i` gives it up. -/
def moveCauses (s : CauseRefs) (i : Slot) (size bio capacity : Nat) : CauseRefs :=
  match s.causes i with
  | none => s
  | some l =>
    let s := s.ensureCll bio capacity
    let s := { s with mem := s.mem.setList l { s.mem.lists l with size := size } }
    let s := causeListListAdd s bio (some l)
    (putCauseList s (some l)).setCauses i none

theorem moveCausesBhToBio_eq (s : CauseRefs) (bh bSize bio maxSectors : Nat) :
    moveCausesBhToBio s bh bSize bio maxSectors =
      moveCauses s (.bh bh) bSize bio (maxSectors / 8) := rfl

theorem moveCauses_spec (henv : s.env.Plenty) (hl : s.causes i = some l) (size bio capacity : Nat) :
    (moveCauses s i size bio capacity).tags bio capacity = (s.tags bio capacity).add l size ∧
    (∀ b c, b ≠ bio → (moveCauses s i size bio capacity).tags b c = s.tags b c) ∧
    (moveCauses s i size bio capacity).causes = Function.update s.causes i none ∧
    (moveCauses s i size bio capacity).env.Plenty := by
  obtain ⟨⟨cll, hcll⟩, htags, hothers, henv'⟩ := ensureCll_plenty henv bio capacity
  have hcauses := ensureCll_causes s bio capacity
  unfold moveCauses
  simp only [hl]
  generalize s.ensureCll bio capacity = t at hcll htags hothers henv' hcauses
  -- the size of the list is set
  obtain ⟨u, hu⟩ : ∃ u : CauseRefs,
      u = { t with mem := t.mem.setList l { t.mem.lists l with size := size } } := ⟨_, rfl⟩
  have hsize : (u.mem.lists l).size = size := by
    rw [hu]
    simp
  have hutags : u.tags = t.tags := tags_congr (by rw [hu])
  rw [← hu]
  obtain ⟨hadd, hothers'⟩ := causeListListAdd_tags (s := u) (by rw [hu]; exact hcll) l capacity
  -- giving the pointer up changes no tags
  obtain ⟨c, d, hput, -⟩ := putCauseList_frame (causeListListAdd u bio (some l)) (some l)
  have hgive : ((putCauseList (causeListListAdd u bio (some l)) (some l)).setCauses i none).tags =
      (causeListListAdd u bio (some l)).tags := tags_congr (by rw [hput]; rfl)
  refine ⟨?_, fun b c' hb => ?_, ?_, ?_⟩
  · rw [hgive, hadd, hsize, hutags, htags]
  · rw [hgive, hothers' b c' hb, hutags, hothers b c' hb]
  · rw [causes_setCauses, hput]
    change Function.update (causeListListAdd u bio (some l)).causes i none = _
    rw [causeListListAdd_causes, hu]
    change Function.update t.causes i none = _
    rw [hcauses]
  · rw [hput]
    exact causeListListAdd_plenty (by rw [hu]; exact henv') bio (some l)

/-! ## The buffers of a bio -/

/-- Buffers, with their sizes, are added to a bio. -/
def moveAll (s : CauseRefs) (bio maxSectors : Nat) (bufs : List (Nat × Nat)) : CauseRefs :=
  bufs.foldl (fun s b => moveCausesBhToBio s b.1 b.2 bio maxSectors) s

/-- The lists of the buffers, with the sizes of the buffers. -/
def bufLists (s : CauseRefs) (bufs : List (Nat × Nat)) : List (Nat × Nat) :=
  bufs.filterMap fun b => (s.causes (.bh b.1)).map fun l => (l, b.2)

theorem moveAll_spec (bio maxSectors : Nat) (bufs : List (Nat × Nat)) : ∀ {s : CauseRefs}, s.Sound 0 →
    s.env.Plenty → (bufs.map Prod.fst).Nodup → (∀ b ∈ bufs, s.causes (.bh b.1) ≠ none) →
    (moveAll s bio maxSectors bufs).Sound 0 ∧
    (moveAll s bio maxSectors bufs).tags bio (maxSectors / 8) =
      (s.tags bio (maxSectors / 8)).addAll (s.bufLists bufs) := by
  induction bufs with
  | nil =>
    intro s hs _ _ _
    exact ⟨hs, rfl⟩
  | cons b bufs ih =>
    intro s hs henv hnodup hcauses
    obtain ⟨hb, hnodup⟩ := List.nodup_cons.mp hnodup
    obtain ⟨l, hl⟩ := Option.ne_none_iff_exists'.mp (hcauses b List.mem_cons_self)
    obtain ⟨htags, -, hgiven, henv'⟩ := moveCauses_spec henv hl b.2 bio (maxSectors / 8)
    have hsound := moveCausesBhToBio_sound hs b.1 b.2 bio maxSectors
    rw [← moveCausesBhToBio_eq] at htags hgiven henv'
    -- the other buffers still have their lists
    have hothers : ∀ b' ∈ bufs, (moveCausesBhToBio s b.1 b.2 bio maxSectors).causes (.bh b'.1) =
        s.causes (.bh b'.1) := by
      intro b' hb'
      rw [hgiven, Function.update_of_ne]
      intro heq
      exact hb (Slot.bh.inj heq ▸ List.mem_map_of_mem hb')
    obtain ⟨hsound', htags'⟩ := ih hsound henv' hnodup fun b' hb' => by
      rw [hothers b' hb']
      exact hcauses b' (List.mem_cons_of_mem b hb')
    refine ⟨hsound', ?_⟩
    have hlists : (moveCausesBhToBio s b.1 b.2 bio maxSectors).bufLists bufs = s.bufLists bufs := by
      refine List.filterMap_congr fun b' hb' => ?_
      rw [hothers b' hb']
    have hcons : s.bufLists (b :: bufs) = (l, b.2) :: s.bufLists bufs := by
      unfold bufLists
      rw [List.filterMap_cons_some (b := (l, b.2)) (by rw [hl]; rfl)]
    change (moveAll (moveCausesBhToBio s b.1 b.2 bio maxSectors) bio maxSectors bufs).tags _ _ = _
    rw [htags', htags, hlists, hcons]
    rfl

theorem bufLists_eq {bufs : List (Nat × Nat)} (h : ∀ b ∈ bufs, s.causes (.bh b.1) ≠ none) :
    (s.bufLists bufs).map Prod.snd = bufs.map Prod.snd ∧
    ∀ b ∈ bufs, ∀ l, s.causes (.bh b.1) = some l → l ∈ (s.bufLists bufs).map Prod.fst := by
  refine ⟨?_, fun b hb l hl => ?_⟩
  · induction bufs with
    | nil => rfl
    | cons b bufs ih =>
      obtain ⟨l, hl⟩ := Option.ne_none_iff_exists'.mp (h b List.mem_cons_self)
      have hrest := ih fun b' hb' => h b' (List.mem_cons_of_mem b hb')
      unfold bufLists at hrest ⊢
      rw [List.filterMap_cons_some (b := (l, b.2)) (by rw [hl]; rfl), List.map_cons, List.map_cons, hrest]
  · refine List.mem_map.mpr ⟨(l, b.2), List.mem_filterMap.mpr ⟨b, hb, ?_⟩, rfl⟩
    rw [hl]
    rfl

/-- Dropping something of positive size shows in the sum. -/
theorem sum_take_lt {sizes : List Nat} (hpos : ∀ n ∈ sizes, 0 < n) {k : Nat} (hk : k < sizes.length) :
    (sizes.take k).sum < sizes.sum := by
  have hsplit := List.sum_take_add_sum_drop sizes k
  have hdrop : 0 < (sizes.drop k).sum := by
    refine List.sum_pos _ (fun n hn => hpos n (List.mem_of_mem_drop hn)) ?_
    intro hnil
    have := List.drop_eq_nil_iff.mp hnil
    omega
  omega

/-- The buffers of a bio that had no tags all keep their lists, and the sizes add up, if and only if there
is a page of the queue's limit for each of them. -/
theorem bio_takes_all_iff (s : CauseRefs) (hs : s.Sound 0) (henv : s.env.Plenty) (bio maxSectors : Nat)
    (hbio : s.clls.lookup bio = none) (bufs : List (Nat × Nat)) (hnodup : (bufs.map Prod.fst).Nodup)
    (hcauses : ∀ b ∈ bufs, s.causes (.bh b.1) ≠ none) (hsize : ∀ b ∈ bufs, 0 < b.2) :
    ((∀ b ∈ bufs, ∀ l, s.causes (.bh b.1) = some l →
        l ∈ (moveAll s bio maxSectors bufs).cllItems bio ∧
        (moveAll s bio maxSectors bufs).refcount.live l = true) ∧
      (moveAll s bio maxSectors bufs).cllSize bio = (bufs.map Prod.snd).sum) ↔
    bufs.length ≤ maxSectors / 8 := by
  obtain ⟨hsound, htags⟩ := moveAll_spec bio maxSectors bufs hs henv hnodup hcauses
  obtain ⟨hsizes, hlists⟩ := bufLists_eq hcauses
  have hempty : s.tags bio (maxSectors / 8) = ⟨[], 0, maxSectors / 8⟩ := by
    unfold tags
    rw [hbio]
  rw [hempty, Tags.addAll_eq _ (Nat.zero_le _)] at htags
  obtain ⟨hitems, htotal⟩ := tags_items (moveAll s bio maxSectors bufs) bio (maxSectors / 8)
  rw [htags] at hitems htotal
  simp only [List.length_nil, Nat.sub_zero, List.nil_append, Nat.zero_add, List.map_take] at hitems htotal
  rw [hsizes] at htotal
  have hlength : (s.bufLists bufs).length = bufs.length := by
    have := congrArg List.length hsizes
    simpa using this
  constructor
  · rintro ⟨-, hsum⟩
    by_contra hmany
    have hpos : ∀ n ∈ bufs.map Prod.snd, 0 < n := by
      intro n hn
      obtain ⟨b, hb, rfl⟩ := List.mem_map.mp hn
      exact hsize b hb
    have hless := sum_take_lt hpos (k := maxSectors / 8) (by rw [List.length_map]; omega)
    omega
  · intro hroom
    rw [List.take_of_length_le (by rw [List.length_map]; omega)] at hitems htotal
    refine ⟨fun b hb l hl => ?_, htotal.symm⟩
    have hmem : l ∈ (moveAll s bio maxSectors bufs).cllItems bio := hitems ▸ hlists b hb l hl
    exact ⟨hmem, hsound.live_of_cllItems hmem⟩

/-- Two buffers of a page each. -/
theorem bio_takes_all_iff_pages :
    (∀ b ∈ [(0, 4096), (1, 4096)], ∀ l, (twoBuffers 7 8).causes (.bh b.1) = some l →
        l ∈ (moveAll (twoBuffers 7 8) 5 16 [(0, 4096), (1, 4096)]).cllItems 5 ∧
        (moveAll (twoBuffers 7 8) 5 16 [(0, 4096), (1, 4096)]).refcount.live l = true) ∧
      (moveAll (twoBuffers 7 8) 5 16 [(0, 4096), (1, 4096)]).cllSize 5 =
        ([(0, 4096), (1, 4096)].map Prod.snd).sum :=
  (bio_takes_all_iff (twoBuffers 7 8) (twoBuffers_sound 7 8).1 (twoBuffers_sound 7 8).2 5 16 (by decide)
    [(0, 4096), (1, 4096)] (by decide) (by decide) (by decide)).mpr (by decide)

/-- Two blocks of 512 bytes in a bio that may hold a page: the second list finds no room, and is freed
before its data is written. -/
theorem small_blocks_lose_causes :
    ([(0, 512), (1, 512)].map Prod.snd).sum ≤ 8 * 512 ∧ (twoBuffers 7 8).clls.lookup 5 = none ∧
      (twoBuffers 7 8).causes (.bh 1) = some 1 ∧
      1 ∉ (moveAll (twoBuffers 7 8) 5 8 [(0, 512), (1, 512)]).cllItems 5 ∧
      (moveAll (twoBuffers 7 8) 5 8 [(0, 512), (1, 512)]).refcount.live 1 = false ∧
      (moveAll (twoBuffers 7 8) 5 8 [(0, 512), (1, 512)]).cllSize 5 = 512 := by
  decide +kernel

end CauseRefs
end SplitSched
