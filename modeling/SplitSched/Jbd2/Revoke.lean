import SplitSched.Block.CauseIds

/-!
# SplitSched.Jbd2.Revoke

The revoke records of a transaction that is committed (revoke.c of the 4.5 patch set). The records are
written into descriptor blocks. A block is flushed from two places: by `write_one_revoke_record` when the
next record does not fit, and by `jbd2_journal_write_revoke_records` after the last record. A flush gives
the block a reference to the cause list that it is called with.

* `writeRevokeRecords`: every block that is flushed, with the causes it has when it is written.
* `revoke_blocks_attributed_iff`: all blocks have the causes of the transaction if and only if one block is
  enough, or there are no causes.

`jbd2_journal_get_descriptor_buffer` may fail. The journal is not aborted.
-/

namespace SplitSched
namespace Jbd2

open CauseRefs

structure Journal where
  blocksize : Nat
  feature64bit : Bool
  /-- The space for the checksum at the end of a block. -/
  csumSize : Nat
  /-- The size of `jbd2_journal_revoke_header_t`. -/
  headerSize : Nat

namespace Journal

def sz (j : Journal) : Nat := if j.feature64bit then 8 else 4

def limit (j : Journal) : Int := (j.blocksize : Int) - j.csumSize

end Journal

structure Revoke where
  refs : CauseRefs
  /-- `*descriptorp`. -/
  descriptor : Option Nat
  /-- `*offsetp`. -/
  offset : Nat
  nextBh : Nat
  /-- The blocks that were written, with their `causes` at that time. -/
  flushed : List (Nat × Option Nat)

namespace Revoke

def flushDescriptor (x : Revoke) (descriptor : Nat) (causeList : Option Nat) : Revoke :=
  let r := getCauseList x.refs causeList
  let refs := r.2.setCauses (.bh descriptor) r.1
  -- `write_dirty_buffer`
  { x with refs := refs, flushed := x.flushed ++ [(descriptor, refs.causes (.bh descriptor))] }

/-- A new block, with the record that it is for. -/
def startBlock (j : Journal) (x : Revoke) : Revoke :=
  { x with descriptor := some x.nextBh, nextBh := x.nextBh + 1, offset := j.headerSize + j.sz }

/-- `got` says whether a descriptor buffer can be had, if one is needed. -/
def writeOneRevokeRecord (j : Journal) (x : Revoke) (got : Bool) : Revoke :=
  -- the local variable `descriptor`, after the block that is full has been flushed
  let r : Revoke × Option Nat :=
    match x.descriptor with
    | some d =>
      if j.limit < (x.offset + j.sz : Nat) then (x.flushDescriptor d none, none) else (x, some d)
    | none => (x, none)
  match r.2 with
  | some _ => { r.1 with offset := r.1.offset + j.sz }
  | none =>
    -- without a buffer, `*descriptorp` and `*offsetp` are as before
    if got then r.1.startBlock j else r.1

def writeRevokeRecords (j : Journal) (refs : CauseRefs) (first : Nat) (records : List Bool)
    (causeList : Option Nat) : Revoke :=
  let x := records.foldl (writeOneRevokeRecord j) ⟨refs, none, 0, first, []⟩
  match x.descriptor with
  | some d => x.flushDescriptor d causeList
  | none => x

/-- All blocks have the causes, each with a reference of its own. -/
def Attributed (refs : CauseRefs) (causeList : Option Nat) (x : Revoke) : Prop :=
  (∀ b ∈ x.flushed, b.2 = causeList) ∧
    ∀ l ∈ causeList, x.refs.refcount.count l = refs.refcount.count l + x.flushed.length

/-- The records that are written: those before the first buffer are dropped. -/
def written (records : List Bool) : Nat := (records.dropWhile (!·)).length

/-! ## One record -/

theorem flushDescriptor_flushed (x : Revoke) (d : Nat) (p : Option Nat) :
    (x.flushDescriptor d p).flushed = x.flushed ++ [(d, p)] := by
  have hcauses : (getCauseList x.refs p).1 = p := by cases p <;> rfl
  unfold flushDescriptor
  simp only [causes_setCauses, Function.update_self, hcauses]

theorem flushDescriptor_count (x : Revoke) (d l : Nat) :
    (x.flushDescriptor d (some l)).refs.refcount.count l = x.refs.refcount.count l + 1 :=
  Function.update_self _ _ _

variable {j : Journal} {x : Revoke} {d : Nat}

theorem writeOne_of_room (hd : x.descriptor = some d) (hroom : (x.offset + j.sz : Nat) ≤ j.limit)
    (got : Bool) : writeOneRevokeRecord j x got = { x with offset := x.offset + j.sz } := by
  unfold writeOneRevokeRecord
  simp only [hd, if_neg (not_lt.mpr hroom)]

theorem writeOne_of_full (hd : x.descriptor = some d) (hfull : j.limit < (x.offset + j.sz : Nat))
    (got : Bool) : (writeOneRevokeRecord j x got).flushed = x.flushed ++ [(d, none)] := by
  unfold writeOneRevokeRecord
  simp only [hd, if_pos hfull]
  cases got with
  | true => exact flushDescriptor_flushed x d none
  | false => exact flushDescriptor_flushed x d none

theorem writeOne_flushed (j : Journal) (x : Revoke) (got : Bool) :
    (writeOneRevokeRecord j x got).flushed = x.flushed ∨
      ∃ d, (writeOneRevokeRecord j x got).flushed = x.flushed ++ [(d, none)] := by
  cases hd : x.descriptor with
  | none =>
    refine .inl ?_
    unfold writeOneRevokeRecord
    rw [hd]
    cases got with
    | true => rfl
    | false => rfl
  | some d =>
    by_cases hfull : j.limit < (x.offset + j.sz : Nat)
    · exact .inr ⟨d, writeOne_of_full hd hfull got⟩
    · refine .inl ?_
      rw [writeOne_of_room hd (not_lt.mp hfull)]

/-! ## All records -/

theorem writeAll_flushed (j : Journal) (records : List Bool) (x : Revoke) :
    ∃ bs, (records.foldl (writeOneRevokeRecord j) x).flushed = x.flushed ++ bs ∧
      ∀ b ∈ bs, b.2 = none := by
  induction records generalizing x with
  | nil => exact ⟨[], (List.append_nil _).symm, fun b hb => (List.not_mem_nil hb).elim⟩
  | cons got records ih =>
    obtain ⟨bs, hbs, hnone⟩ := ih (writeOneRevokeRecord j x got)
    rw [List.foldl_cons, hbs]
    rcases writeOne_flushed j x got with hsame | ⟨d, hmore⟩
    · exact ⟨bs, by rw [hsame], hnone⟩
    · refine ⟨(d, none) :: bs, by rw [hmore, List.append_assoc]; rfl, ?_⟩
      intro b hb
      rcases List.mem_cons.mp hb with rfl | hb
      · rfl
      · exact hnone b hb

/-- The records fit the block that is open. -/
theorem writeAll_of_room (records : List Bool) : ∀ x : Revoke, x.descriptor = some d →
    (records = [] ∨ ((x.offset + records.length * j.sz : Nat) : Int) ≤ j.limit) →
    records.foldl (writeOneRevokeRecord j) x = { x with offset := x.offset + records.length * j.sz } := by
  induction records with
  | nil =>
    intro x _ _
    simp
  | cons got records ih =>
    intro x hd hroom
    have hall := hroom.resolve_left (List.cons_ne_nil got records)
    rw [List.length_cons, Nat.succ_mul] at hall
    have hrest : ((x.offset + j.sz + records.length * j.sz : Nat) : Int) ≤ j.limit := by omega
    rw [List.foldl_cons, writeOne_of_room hd (by omega) got,
      ih { x with offset := x.offset + j.sz } hd (.inr hrest)]
    simp only [List.length_cons, Nat.succ_mul]
    congr 1
    omega

/-- They do not, and the block is flushed on the way. -/
theorem writeAll_of_full (records : List Bool) : ∀ x : Revoke, x.descriptor = some d → records ≠ [] →
    j.limit < ((x.offset + records.length * j.sz : Nat) : Int) →
    ∃ b ∈ (records.foldl (writeOneRevokeRecord j) x).flushed, b.2 = none := by
  induction records with
  | nil =>
    intro x _ hne _
    exact (hne rfl).elim
  | cons got records ih =>
    intro x hd _ hfull
    rw [List.foldl_cons]
    by_cases hnow : j.limit < (x.offset + j.sz : Nat)
    · obtain ⟨bs, hbs, -⟩ := writeAll_flushed j records (writeOneRevokeRecord j x got)
      rw [writeOne_of_full hd hnow] at hbs
      exact ⟨(d, none), by rw [hbs]; simp, rfl⟩
    · rw [writeOne_of_room hd (not_lt.mp hnow)]
      rw [List.length_cons, Nat.succ_mul] at hfull
      have hrest : j.limit < ((x.offset + j.sz + records.length * j.sz : Nat) : Int) := by omega
      refine ih { x with offset := x.offset + j.sz } hd ?_ hrest
      rintro rfl
      rw [List.length_nil, Nat.zero_mul] at hrest
      exact hnow hrest

/-- Nothing is written before there is a block; the first record goes there without a look at its size. -/
theorem writeAll_of_none (j : Journal) (records : List Bool) (x : Revoke) (hd : x.descriptor = none) :
    written records = 0 ∧ records.foldl (writeOneRevokeRecord j) x = x ∨
    ∃ more : List Bool, written records = more.length + 1 ∧
      records.foldl (writeOneRevokeRecord j) x =
        more.foldl (writeOneRevokeRecord j) (x.startBlock j) := by
  induction records with
  | nil => exact .inl ⟨rfl, rfl⟩
  | cons got records ih =>
    have hone : writeOneRevokeRecord j x got = if got then x.startBlock j else x := by
      unfold writeOneRevokeRecord
      rw [hd]
    rw [List.foldl_cons, hone]
    cases got with
    | true => exact .inr ⟨records, by simp [written], rfl⟩
    | false => exact ih

/-! ## All blocks -/

theorem attributed_of_one {refs : CauseRefs} {p : Option Nat} (hflushed : x.flushed = [])
    (hrefs : x.refs = refs) : (x.flushDescriptor d p).Attributed refs p := by
  unfold Attributed
  rw [flushDescriptor_flushed, hflushed]
  refine ⟨?_, ?_⟩
  · intro b hb
    rw [List.nil_append, List.mem_singleton] at hb
    rw [hb]
  · rintro l ⟨⟩
    rw [flushDescriptor_count, hrefs]
    rfl

theorem attributed_of_no_causes {refs : CauseRefs} (j : Journal) (first : Nat) (records : List Bool) :
    (writeRevokeRecords j refs first records none).Attributed refs none := by
  refine ⟨?_, fun l hl => (by cases hl)⟩
  obtain ⟨bs, hbs, hnone⟩ := writeAll_flushed j records ⟨refs, none, 0, first, []⟩
  unfold writeRevokeRecords
  simp only
  split
  · intro b hb
    rw [flushDescriptor_flushed, hbs, List.nil_append] at hb
    rcases List.mem_append.mp hb with hb | hb
    · exact hnone b hb
    · rw [List.mem_singleton] at hb
      rw [hb]
  · rw [hbs]
    exact hnone

theorem mem_writeRevokeRecords {refs : CauseRefs} {first : Nat} {records : List Bool} {b : Nat × Option Nat}
    (hb : b ∈ (records.foldl (writeOneRevokeRecord j) ⟨refs, none, 0, first, []⟩).flushed)
    (p : Option Nat) : b ∈ (writeRevokeRecords j refs first records p).flushed := by
  unfold writeRevokeRecords
  simp only
  split
  · rw [flushDescriptor_flushed]
    exact List.mem_append_left _ hb
  · exact hb

/-- All blocks that are flushed have a reference to the cause list if and only if there is none to refer
to, or the records that are written fit one block. -/
theorem revoke_blocks_attributed_iff (j : Journal) (refs : CauseRefs) (first : Nat)
    (records : List Bool) (causeList : Option Nat) :
    (writeRevokeRecords j refs first records causeList).Attributed refs causeList ↔
      causeList = none ∨ written records ≤ 1 ∨
        ((j.headerSize + written records * j.sz : Nat) : Int) ≤ j.limit := by
  cases causeList with
  | none => exact ⟨fun _ => .inl rfl, fun _ => attributed_of_no_causes j first records⟩
  | some l =>
    rw [or_iff_right (Option.some_ne_none l)]
    rcases writeAll_of_none j records ⟨refs, none, 0, first, []⟩ rfl with
      ⟨hwritten, hloop⟩ | ⟨more, hwritten, hloop⟩
    · -- no block at all
      unfold writeRevokeRecords
      simp only [hloop, hwritten]
      refine iff_of_true ⟨fun b hb => (List.not_mem_nil hb).elim, fun l _ => ?_⟩ (.inl (Nat.zero_le 1))
      exact (add_zero _).symm
    · rw [hwritten, Nat.succ_mul]
      by_cases hroom : more = [] ∨ ((j.headerSize + j.sz + more.length * j.sz : Nat) : Int) ≤ j.limit
      · -- one block
        unfold writeRevokeRecords
        rw [hloop, writeAll_of_room more _ rfl hroom]
        refine iff_of_true (attributed_of_one rfl rfl) ?_
        rcases hroom with rfl | hroom
        · exact .inl le_rfl
        · exact .inr (by omega)
      · -- the first block is flushed without causes
        obtain ⟨hmore, hfull⟩ := not_or.mp hroom
        have hlength := List.length_pos_of_ne_nil hmore
        refine iff_of_false ?_ (by omega)
        rintro ⟨hall, -⟩
        obtain ⟨b, hb, hnone⟩ := writeAll_of_full more (startBlock j ⟨refs, none, 0, first, []⟩) rfl hmore
          (not_le.mp hfull)
        rw [← hloop] at hb
        have hsome := hall b (mem_writeRevokeRecords hb _)
        rw [hnone] at hsome
        cases hsome

/-- A transaction of account 7. -/
def oneTransaction : CauseRefs :=
  (CauseRefs.causeListAdd (CauseRefs.init sampleMem sampleEnv) (.transaction 0) 1 7).2

/-- A block of 1024 bytes has room for 252 records. The 253rd has the first block flushed without causes. -/
theorem full_revoke_block_without_causes :
    oneTransaction.causes (.transaction 0) = some 0 ∧
      (writeRevokeRecords ⟨1024, false, 0, 16⟩ oneTransaction 0 (List.replicate 253 true) (some 0)).flushed =
        [(0, none), (1, some 0)] := by
  decide +kernel

end Revoke
end Jbd2
end SplitSched
