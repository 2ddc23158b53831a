import SplitSched.Ext4.Metadata

/-!
# SplitSched.Ext4.Writepages

The task that runs `ext4_writepages` allocates blocks for the buffers that others have dirtied, and is a
proxy for them while it does so: `current->causes` is to have the accounts of the buffers of an extent when
`mpage_map_and_submit_extent` is called for it, and they are dropped when it returns.

* `mpageAddBhToExtent`: the function of 4.5 with its hunk, which stands in the branch for the buffers that
  need no mapping.
* `writeCachePagesDaBh`: one buffer in the scan of 3.2.51, where the hunk is guarded by
  `ext4_bh_delay_or_unwritten`.
* `Proxied`: what is on `current->causes` when the extent is submitted.
* `original_proxied`: with memory to spare, every run of the patch set for 3.2.51 is `Proxied`.
* `writepages_proxied_iff`: a run of the patch set for 4.5 is `Proxied` when the accounts of the extent are
  also found on buffers that needed no mapping.

Which blocks make up an extent is up to ext4, in lines that the patches do not show: `place map lblk b` is the
extent `map` with the block, or `none` if the block does not fit, and all results hold for every `place`. The scan may
go on or end after any buffer. What `mpage_map_and_submit_extent` itself scans adds to the list that is dropped when it
returns.
-/

namespace SplitSched
namespace Ext4

open CauseRefs

structure BufferState where
  dirty : Bool
  mapped : Bool
  delay : Bool
  unwritten : Bool
  deriving DecidableEq, Repr

/-- "Buffer that doesn't need mapping for writeback?" -/
def BufferState.needsNoMapping (b : BufferState) : Bool :=
  !b.dirty || !b.mapped || (!b.delay && !b.unwritten)

def ext4BhDelayOrUnwritten (b : BufferState) : Bool := (b.delay || b.unwritten) && b.dirty

/-- The fields of `struct ext4_map_blocks` that say where the extent is. -/
structure MapBlocks where
  mLblk : Nat
  mLen : Nat
  deriving DecidableEq, Repr

/-- The extent with one more block of the file, or `none` if the block does not fit. -/
abbrev ExtentRule := MapBlocks → Nat → BufferState → Option MapBlocks

structure Writepages where
  refs : CauseRefs
  map : MapBlocks
  /-- The accounts on the lists of the buffers in the extent, from when they were placed there. -/
  extent : List Int
  /-- The accounts on the lists of the buffers that were scanned since `current->causes` was new, -/
  scanned : List Int
  /-- and of those among them that needed no mapping. -/
  passed : List Int

namespace Writepages

/-! ## The functions -/

/-- `mpage_add_bh_to_extent` for a buffer that needs mapping. -/
def addBlock (place : ExtentRule) (w : Writepages) (bh lblk : Nat) (b : BufferState) : Bool × Writepages :=
  match place w.map lblk b with
  | some map => (true, { w with map := map, extent := w.extent ++ w.refs.ids (.bh bh) })
  | none => (false, w)

/-- The hunk: "are we a proxy?" -/
def collect (task : Nat) (w : Writepages) (bh : Nat) : Writepages :=
  { w with refs := Ext4.proxyFor w.refs task bh }

/-- With the hunk of 4.5: whether the buffer is taken. -/
def mpageAddBhToExtent (place : ExtentRule) (task : Nat) (w : Writepages) (bh lblk : Nat) (b : BufferState) :
    Bool × Writepages :=
  if b.needsNoMapping then
    let w := w.collect task bh
    (w.map.mLen = 0, w)
  else addBlock place w bh lblk b

/-- With the hunk of 3.2.51. A buffer that is written right away is passed over. -/
def writeCachePagesDaBh (place : ExtentRule) (task : Nat) (w : Writepages) (bh lblk : Nat) (b : BufferState) :
    Bool × Writepages :=
  if ext4BhDelayOrUnwritten b then addBlock place (w.collect task bh) bh lblk b
  else (true, w)

def scan (port : Port) (place : ExtentRule) (task : Nat) (w : Writepages) (bh lblk : Nat) (b : BufferState) :
    Bool × Writepages :=
  match port with
  | .v3_2_51 => writeCachePagesDaBh place task w bh lblk b
  | .v4_5 => mpageAddBhToExtent place task w bh lblk b

/-- When `__mpage_map_and_submit_extent` returns, the causes are dropped. The next scan starts with
`m_len = 0`. -/
def mpageMapAndSubmitExtent (task : Nat) (w : Writepages) : Writepages :=
  { refs := w.refs.renew (.task task), map := { w.map with mLen := 0 }, extent := [], scanned := [],
    passed := [] }

/-- `ext4_writepages` up to the loop: "now acting as cause proxy". -/
def start (task : Nat) (s : CauseRefs) : Option Writepages :=
  (startProxy s task).map fun refs => ⟨refs, ⟨0, 0⟩, [], [], []⟩

inductive Event where
  | scan (bh lblk : Nat) (b : BufferState)
  /-- A page without an extent before it is written right away. -/
  | submitBh (bh bSize bio maxSectors : Nat)
  /-- `mpage_map_and_submit_extent` is called. -/
  | submit
  deriving DecidableEq

def note (w : Writepages) (ids : List Int) (b : BufferState) : Writepages :=
  { w with
    scanned := w.scanned ++ ids
    passed := if b.needsNoMapping then w.passed ++ ids else w.passed }

def step (port : Port) (place : ExtentRule) (task : Nat) (w : Writepages) : Event → Option Writepages
  | .scan bh lblk b => some ((scan port place task w bh lblk b).2.note (w.refs.ids (.bh bh)) b)
  | .submitBh bh bSize bio maxSectors =>
    some { w with refs := moveCausesBhToBio w.refs bh bSize bio maxSectors }
  | .submit => if w.map.mLen = 0 then none else some (mpageMapAndSubmitExtent task w)

/-- When an extent is submitted, `current->causes` has the accounts of its buffers, and none from before
the last extent. -/
def Proxied (task : Nat) (w : Writepages) : Event → Prop
  | .submit => (∀ id ∈ w.extent, id ∈ w.refs.ids (.task task)) ∧
      ∀ id ∈ w.refs.ids (.task task), id ∈ w.scanned
  | _ => True

def PassedToo (w : Writepages) : Event → Prop
  | .submit => ∀ id ∈ w.extent, id ∈ w.passed
  | _ => True

/-! ## What a step does to `current->causes` -/

/-- The list that `current->causes` points to has accounts among `got`, and with memory to spare all of
them. -/
structure Serves (spare : Prop) (task : Nat) (got : List Int) (s : CauseRefs) : Prop where
  apart : s.Apart {.task task}
  only : ∀ id ∈ s.ids (.task task), id ∈ got
  all : spare → s.env.Plenty ∧ s.causes (.task task) ≠ none ∧ ∀ id ∈ got, id ∈ s.ids (.task task)

variable {spare : Prop} {place : ExtentRule} {task : Nat} {s refs : CauseRefs} {w w₀ w' : Writepages} {e : Event}
  {got : List Int} {bh lblk : Nat} {b : BufferState}

namespace Serves

theorem proxyFor (h : Serves spare task got s) (bh : Nat) :
    Serves spare task (got ++ s.ids (.bh bh)) (Ext4.proxyFor s task bh) ∧
    ∀ j, j ≠ .task task → (Ext4.proxyFor s task bh).ids j = s.ids j := by
  unfold Ext4.proxyFor
  cases hc : s.causes (.task task) with
  | none =>
    refine ⟨⟨h.apart, fun id hid => ?_, fun hm => absurd hc (h.all hm).2.1⟩, fun _ _ => rfl⟩
    exact List.mem_append_left _ (h.only id hid)
  | some l =>
    have hcopy := causeListCopy_adds (i := .task task) (p := s.causes (.bh bh)) h.apart rfl
      fun k hk he => h.apart.causes_ne_next (.bh bh) (he ▸ hk)
    refine ⟨⟨hcopy.apart, fun id hid => ?_, fun hm => ?_⟩, hcopy.others⟩
    · rw [List.mem_append]
      rcases hcopy.only id hid with hid | hid
      · exact .inl (h.only id hid)
      · exact .inr hid
    · obtain ⟨henv, -, hgot⟩ := h.all hm
      obtain ⟨henv', hsome, hnew⟩ := hcopy.all henv
      refine ⟨henv', hsome, fun id hid => ?_⟩
      rcases List.mem_append.mp hid with hid | hid
      · exact hcopy.kept id (hgot id hid)
      · exact hnew id hid

theorem move (h : Serves spare task got s) (bh bSize bio maxSectors : Nat) :
    Serves spare task got (moveCausesBhToBio s bh bSize bio maxSectors) := by
  have hmove := moveCausesBhToBio_empties h.apart bh bSize bio maxSectors
  have hids := hmove.others (.task task) rfl (by simp)
  refine ⟨hmove.apart, fun id hid => h.only id (hids ▸ hid), fun hm => ?_⟩
  obtain ⟨henv, hsome, hgot⟩ := h.all hm
  rw [hids, hmove.causes (.task task) (by simp)]
  exact ⟨hmove.plenty henv, hsome, hgot⟩

theorem renew (h : Serves spare task got s) : Serves spare task [] (s.renew (.task task)) := by
  obtain ⟨hrenew, hsome⟩ := renew_empties h.apart (.task task)
  refine ⟨hrenew.apart, fun id hid => hrenew.empty ▸ hid, fun hm => ?_⟩
  have henv := (h.all hm).1
  exact ⟨hrenew.plenty henv, hsome henv, fun _ hid => (by cases hid)⟩

end Serves

theorem start_serves (hs : s.Sound 0) (h : start task s = some w) :
    Serves s.env.Plenty task [] w.refs ∧ w.extent = [] ∧ w.scanned = [] ∧ w.passed = [] := by
  obtain ⟨refs, hr, rfl⟩ := Option.map_eq_some_iff.mp h
  simp only [startProxy, Option.ite_none_right_eq_some, Option.some.injEq] at hr
  obtain ⟨hnull, rfl⟩ := hr
  have hapart : s.Apart {.task task} := by
    refine ⟨hs, ?_, ?_⟩
    · rintro i rfl j l hi
      rw [hnull] at hi
      cases hi
    · rintro i rfl bio cll -
      rw [hnull]
      exact fun hi => (by cases hi)
  have hnew := ensureCauses_adds hapart (.task task)
  refine ⟨⟨hnew.apart, fun id hid => ?_, fun hm => hnew.all hm⟩, rfl, rfl, rfl⟩
  rcases hnew.only id hid with hid | hid
  · rw [ids, hnull] at hid
    cases hid
  · exact hid

theorem addBlock_spec (place : ExtentRule) (w : Writepages) (bh lblk : Nat) (b : BufferState) :
    (addBlock place w bh lblk b).2.refs = w.refs ∧
    (addBlock place w bh lblk b).2.scanned = w.scanned ∧
    (addBlock place w bh lblk b).2.passed = w.passed ∧
    ∀ id ∈ (addBlock place w bh lblk b).2.extent, id ∈ w.extent ∨ id ∈ w.refs.ids (.bh bh) := by
  unfold addBlock
  split
  · exact ⟨rfl, rfl, rfl, fun _ hid => List.mem_append.mp hid⟩
  · exact ⟨rfl, rfl, rfl, fun _ hid => .inl hid⟩

/-! ## Runs of the patch set for 4.5 -/

structure ServesPassed (spare : Prop) (task : Nat) (w : Writepages) : Prop where
  serves : Serves spare task w.passed w.refs
  scanned : ∀ id ∈ w.passed, id ∈ w.scanned

theorem step_servesPassed (hs : step .v4_5 place task w e = some w') (h : ServesPassed spare task w) :
    ServesPassed spare task w' := by
  cases e with
  | scan bh lblk b =>
    cases hs
    unfold scan mpageAddBhToExtent note
    cases hb : b.needsNoMapping with
    | true =>
      refine ⟨(h.serves.proxyFor bh).1, fun id hid => ?_⟩
      rcases List.mem_append.mp hid with hid | hid
      · exact List.mem_append_left _ (h.scanned id hid)
      · exact List.mem_append_right _ hid
    | false =>
      obtain ⟨hrefs, hscanned, hpassed, -⟩ := addBlock_spec place w bh lblk b
      simp only [Bool.false_eq_true, if_false]
      rw [hrefs, hscanned, hpassed]
      exact ⟨h.serves, fun id hid => List.mem_append_left _ (h.scanned id hid)⟩
  | submitBh bh bSize bio maxSectors =>
    cases hs
    exact ⟨h.serves.move bh bSize bio maxSectors, h.scanned⟩
  | submit =>
    simp only [step, Option.ite_none_left_eq_some, Option.some.injEq] at hs
    obtain ⟨-, rfl⟩ := hs
    exact ⟨h.serves.renew, fun _ hid => (by cases hid)⟩

/-- With memory to spare, `current->causes` has the accounts of every extent that is submitted, along
exactly the runs in which they are found on buffers that needed no mapping. -/
theorem writepages_proxied_iff (place : ExtentRule) (task : Nat) (s : CauseRefs) (w : Writepages) (es : List Event)
    (hs : s.Sound 0) (hm : s.env.Plenty) (h : start task s = some w) :
    Meets (step .v4_5 place task) (Proxied task) w es ↔
      Meets (step .v4_5 place task) PassedToo w es := by
  obtain ⟨hserves, -, hscanned, hpassed⟩ := start_serves hs h
  refine meets_congr (I := ServesPassed s.env.Plenty task) (fun _ _ _ => step_servesPassed)
    (fun w e hI => ?_) es ⟨hpassed ▸ hserves, fun id hid => (by rw [hpassed] at hid; cases hid)⟩
  cases e with
  | submit =>
    obtain ⟨-, -, hall⟩ := hI.serves.all hm
    constructor
    · exact fun hp id hid => hI.serves.only id (hp.1 id hid)
    · exact fun hp => ⟨fun id hid => hall id (hp id hid), fun id hid => hI.scanned id (hI.serves.only id hid)⟩
  | _ => exact Iff.rfl

/-- Blocks that follow each other in the file. -/
def neighbours : ExtentRule := fun map lblk _ =>
  if map.mLen = 0 then some ⟨lblk, 1⟩
  else if lblk = map.mLblk + map.mLen then some { map with mLen := map.mLen + 1 }
  else none

/-- One of the buffers is overwritten, the other one is new in the file. -/
theorem writepages_proxied_overwrite :
    ∃ w, start 5 (twoBuffers 7 7) = some w ∧
      (Meets (step .v4_5 neighbours 5) (Proxied 5) w
          [.scan 0 0 ⟨true, true, false, false⟩, .scan 1 1 ⟨true, true, true, false⟩, .submit] ↔
        Meets (step .v4_5 neighbours 5) PassedToo w
          [.scan 0 0 ⟨true, true, false, false⟩, .scan 1 1 ⟨true, true, true, false⟩, .submit]) := by
  have h : (start 5 (twoBuffers 7 7)).isSome = true := by decide +kernel
  obtain ⟨w, hw⟩ := Option.isSome_iff_exists.mp h
  obtain ⟨hs, hm⟩ := twoBuffers_sound 7 7
  exact ⟨w, hw, writepages_proxied_iff neighbours 5 (twoBuffers 7 7) w _ hs hm hw⟩

/-- A new block of the file is all there is to map. With the patch set for 3.2.51 its account is on
`current->causes` when the extent is submitted. -/
theorem delayed_block_unproxied :
    ∃ w, start 5 (twoBuffers 7 7) = some w ∧
      (∃ w', run (step .v4_5 neighbours 5) w [.scan 0 0 ⟨true, true, true, false⟩] = some w' ∧ w'.map.mLen = 1 ∧
        w'.extent = [7] ∧ w'.refs.ids (.task 5) = [] ∧ ¬Proxied 5 w' .submit) ∧
      ∃ w', run (step .v3_2_51 neighbours 5) w [.scan 0 0 ⟨true, true, true, false⟩] = some w' ∧
        w'.extent = [7] ∧ w'.refs.ids (.task 5) = [7] := by
  have h : (start 5 (twoBuffers 7 7)).any (fun w =>
      (run (step .v4_5 neighbours 5) w [.scan 0 0 ⟨true, true, true, false⟩]).any (fun w' =>
        w'.map.mLen = 1 ∧ w'.extent = [7] ∧ w'.refs.ids (.task 5) = []) ∧
      (run (step .v3_2_51 neighbours 5) w [.scan 0 0 ⟨true, true, true, false⟩]).any fun w' =>
        w'.extent = [7] ∧ w'.refs.ids (.task 5) = [7]) = true := by
    decide +kernel
  obtain ⟨w, hw, hruns⟩ := (Option.any_eq_true _ _).mp h
  obtain ⟨hnew, hold⟩ := of_decide_eq_true hruns
  obtain ⟨w₁, hw₁, hlists⟩ := (Option.any_eq_true _ _).mp hnew
  obtain ⟨w₂, hw₂, hlists'⟩ := (Option.any_eq_true _ _).mp hold
  obtain ⟨hlen, hextent, hids⟩ := of_decide_eq_true hlists
  refine ⟨w, hw, ⟨w₁, hw₁, hlen, hextent, hids, fun hp => ?_⟩, w₂, hw₂, of_decide_eq_true hlists'⟩
  have hmem : (7 : Int) ∈ w₁.refs.ids (.task 5) := hp.1 7 (hextent ▸ List.mem_singleton_self 7)
  rw [hids] at hmem
  cases hmem

/-! ## Runs of the patch set for 3.2.51 -/

def ServesExtent (spare : Prop) (task : Nat) (w : Writepages) : Prop :=
  ∃ got, Serves spare task got w.refs ∧ (∀ id ∈ w.extent, id ∈ got) ∧ ∀ id ∈ got, id ∈ w.scanned

theorem step_servesExtent (hs : step .v3_2_51 place task w e = some w')
    (h : ServesExtent spare task w) : ServesExtent spare task w' := by
  obtain ⟨got, hserves, hextent, hscanned⟩ := h
  cases e with
  | scan bh lblk b =>
    cases hs
    unfold scan writeCachePagesDaBh note
    cases hb : ext4BhDelayOrUnwritten b with
    | true =>
      obtain ⟨hproxy, hother⟩ := hserves.proxyFor bh
      obtain ⟨hrefs, hsc, -, hblock⟩ := addBlock_spec place (w.collect task bh) bh lblk b
      simp only [if_true]
      refine ⟨got ++ w.refs.ids (.bh bh), ?_, fun id hid => ?_, fun id hid => ?_⟩
      · rw [hrefs]
        exact hproxy
      · rw [List.mem_append]
        rcases hblock id hid with hid | hid
        · exact .inl (hextent id hid)
        · refine .inr ?_
          rw [← hother (.bh bh) (by simp)]
          exact hid
      · rw [hsc]
        rcases List.mem_append.mp hid with hid | hid
        · exact List.mem_append_left _ (hscanned id hid)
        · exact List.mem_append_right _ hid
    | false =>
      exact ⟨got, hserves, hextent, fun id hid => List.mem_append_left _ (hscanned id hid)⟩
  | submitBh bh bSize bio maxSectors =>
    cases hs
    exact ⟨got, hserves.move bh bSize bio maxSectors, hextent, hscanned⟩
  | submit =>
    simp only [step, Option.ite_none_left_eq_some, Option.some.injEq] at hs
    obtain ⟨-, rfl⟩ := hs
    exact ⟨[], hserves.renew, fun _ hid => hid, fun _ hid => hid⟩

theorem original_proxied (hs : s.Sound 0) (hm : s.env.Plenty) (h : start task s = some w)
    (es : List Event) : Meets (step .v3_2_51 place task) (Proxied task) w es := by
  obtain ⟨hserves, hextent, hscanned, -⟩ := start_serves hs h
  refine meets_of_invariant (I := ServesExtent s.env.Plenty task) (fun _ _ _ => step_servesExtent)
    (fun w e hI => ?_) es ⟨[], hserves, fun id hid => hextent ▸ hid, fun _ hid => (by cases hid)⟩
  obtain ⟨got, hserves, hextent, hscanned⟩ := hI
  cases e with
  | submit =>
    obtain ⟨-, -, hall⟩ := hserves.all hm
    exact ⟨fun id hid => hall id (hextent id hid), fun id hid => hscanned id (hserves.only id hid)⟩
  | _ => trivial

end Writepages

end Ext4
end SplitSched
