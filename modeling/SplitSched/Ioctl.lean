import SplitSched.Lib.CString
import SplitSched.Tb.Hooks
import SplitSched.Afq.Work

/-!
# SplitSched.Ioctl

The control messages (ioctl_helper.c). A message is a buffer of 100 bytes with a string
`<id> <field> <value>`. `device_ioctl` cuts it at the first two blanks and converts the numbers with
`kstrtol`, whose result it does not look at. It then sets the account of the calling task, or the field of
the account `id` on every registered disk.

* `deviceIoctl`: what the driver returns and does; `none` if it reads outside the buffer.
* `WellFormed`: the messages that should be applied.
* `message_applied_iff`: a message is treated as it should if and only if it has fewer than two blanks, or
  is well formed with numbers that fit an `int`.
* `ioctl_well_formed`, `ioctl_schedulers`: what such a message does to the schedulers.
-/

namespace SplitSched
namespace Ioctl

open CArith

inductive Action where
  /-- `atomic_set(&current->account_id, ..)`. -/
  | setAccount (accountId : Int)
  | kvSetAll (id : Int) (key : List UInt8) (val : Int)
  deriving DecidableEq, Repr

def setAccountKey : List UInt8 := ['s', 'e', 't', '-', 'a', 'c', 'c', 'o', 'u', 'n', 't'].map byte

/-- `id₀` and `val₀` are what is on the stack where the variables `id` and `val` are. -/
def deviceIoctl (C : CInts) (msg : List UInt8) (id₀ val₀ : Int) : Option (Int × Option Action) :=
  match strpbrk (byte ' ') msg with
  | none => none
  | some none => some (-1, none)
  | some (some e) =>
    let msg := msg.set e 0
    (kstrtol C msg).bind fun id =>
      let start := e + 1
      match strpbrk (byte ' ') (msg.drop start) with
      | none => none
      | some none => some (-1, none)
      | some (some e) =>
        let msg := msg.set (start + e) 0
        let field := (msg.drop start).takeWhile (fun b => decide (b ≠ 0))
        (kstrtol C (msg.drop (start + e + 1))).map fun val =>
          let id := id.getD id₀
          let val := val.getD val₀
          -- `account_id` and the parameter of `kv_set_all` are `int`s
          (100, some (if field = setAccountKey then .setAccount (C.int val)
            else .kvSetAll (C.int id) field val))

/-! ## What should happen -/

/-- The buffer has a string of the form `<id> <field> <value>`. -/
def WellFormed (C : CInts) (msg : List UInt8) (id : Int) (field : List UInt8) (val : Int) : Prop :=
  ∃ idText valText rest, msg = idText ++ byte ' ' :: (field ++ byte ' ' :: (valText ++ 0 :: rest)) ∧
    IsLong C idText id ∧ Plain (byte ' ') field ∧ IsLong C valText val

def intended (id : Int) (field : List UInt8) (val : Int) : Action :=
  if field = setAccountKey then .setAccount val else .kvSetAll id field val

/-- A well-formed message is applied, any other one is an error, and nothing outside the buffer is read. -/
def Conforms (C : CInts) (msg : List UInt8) (r : Option (Int × Option Action)) : Prop :=
  ∃ rv action, r = some (rv, action) ∧
    (∀ id field val, WellFormed C msg id field val → rv = 100 ∧ action = some (intended id field val)) ∧
    ((∀ id field val, ¬ WellFormed C msg id field val) → rv < 0 ∧ action = none)

def Short (msg : List UInt8) : Prop :=
  (∃ s rest, msg = s ++ 0 :: rest ∧ Plain (byte ' ') s) ∨
    ∃ s t rest, msg = s ++ byte ' ' :: (t ++ 0 :: rest) ∧ Plain (byte ' ') s ∧ Plain (byte ' ') t

/-- The number that is converted to an `int` is one. -/
def Fits (C : CInts) (id : Int) (field : List UInt8) (val : Int) : Prop :=
  if field = setAccountKey then C.int val = val else C.int id = id

/-! ## How a message is cut -/

variable {C : CInts} {a f t r : List UInt8} {id val : Int} {field : List UInt8}

/-- The first blank of a well-formed message is the one after the id. -/
theorem WellFormed.cut {x : UInt8} (h : WellFormed C (a ++ x :: r) id field val)
    (ha : Plain (byte ' ') a) (hx : x = 0 ∨ x = byte ' ') :
    x = byte ' ' ∧ IsLong C a id ∧ Plain (byte ' ') field ∧
      ∃ valText rest, r = field ++ byte ' ' :: (valText ++ 0 :: rest) ∧ IsLong C valText val := by
  obtain ⟨idText, valText, rest, heq, hid, hfield, hval⟩ := h
  obtain ⟨rfl, hblank, hr⟩ := plain_append_inj ha hid.isPlain hx (.inr rfl) heq
  exact ⟨hblank, hid, hfield, valText, rest, hr, hval⟩

theorem WellFormed.cut_twice (h : WellFormed C (a ++ byte ' ' :: (f ++ byte ' ' :: t)) id field val)
    (ha : Plain (byte ' ') a) (hf : Plain (byte ' ') f) :
    IsLong C a id ∧ f = field ∧ ∃ valText rest, t = valText ++ 0 :: rest ∧ IsLong C valText val := by
  obtain ⟨-, hid, hfield, valText, rest, hr, hval⟩ := h.cut ha (.inr rfl)
  obtain ⟨hff, -, ht⟩ := plain_append_inj hf hfield (.inr rfl) (.inr rfl) hr
  exact ⟨hid, hff, valText, rest, ht, hval⟩

theorem not_wellFormed_plain {msg : List UInt8} (h : 0 ∉ msg) : ¬ WellFormed C msg id field val := by
  rintro ⟨idText, valText, rest, rfl, -⟩
  simp at h

theorem Short.not_wellFormed {msg : List UInt8} (h : Short msg) : ¬ WellFormed C msg id field val := by
  intro hmsg
  rcases h with ⟨s, rest, rfl, hs⟩ | ⟨s, t, rest, rfl, hs, ht⟩
  · obtain ⟨hblank, -⟩ := hmsg.cut hs (.inl rfl)
    exact absurd hblank (by decide)
  · obtain ⟨-, -, hfield, valText, rest', hr, -⟩ := hmsg.cut hs (.inr rfl)
    obtain ⟨-, hblank, -⟩ := plain_append_inj ht hfield (.inl rfl) (.inr rfl) hr
    exact absurd hblank (by decide)

theorem not_short (ha : Plain (byte ' ') a) (hf : Plain (byte ' ') f) :
    ¬ Short (a ++ byte ' ' :: (f ++ byte ' ' :: t)) := by
  rintro (⟨s, rest, heq, hs⟩ | ⟨s, g, rest, heq, hs, hg⟩)
  · obtain ⟨-, hblank, -⟩ := plain_append_inj ha hs (.inr rfl) (.inl rfl) heq
    exact absurd hblank (by decide)
  · obtain ⟨-, -, hr⟩ := plain_append_inj ha hs (.inr rfl) (.inr rfl) heq
    obtain ⟨-, hblank, -⟩ := plain_append_inj hf hg (.inr rfl) (.inl rfl) hr
    exact absurd hblank (by decide)

/-! ## The driver -/

/-- One blank: what is left is cut again, with the id at hand. -/
theorem deviceIoctl_cut (ha : Plain (byte ' ') a)
    (hs : strpbrk (byte ' ') (a ++ byte ' ' :: r) = some (some a.length)) (id₀ val₀ : Int) :
    ∃ x, (∀ v, x = some v ↔ IsLong C a v) ∧
      deviceIoctl C (a ++ byte ' ' :: r) id₀ val₀ =
        match strpbrk (byte ' ') r with
        | none => none
        | some none => some (-1, none)
        | some (some e) =>
          let field := (r.set e 0).takeWhile (fun b => decide (b ≠ 0))
          (kstrtol C ((r.set e 0).drop (e + 1))).map fun val =>
            (100, some (if field = setAccountKey then .setAccount (C.int (val.getD val₀))
              else .kvSetAll (C.int (x.getD id₀)) field (val.getD val₀))) := by
  obtain ⟨x, hx, hlong⟩ := kstrtol_text C ha.1 r
  refine ⟨x, hlong, ?_⟩
  have hset : (a ++ byte ' ' :: r).set a.length 0 = a ++ 0 :: r := by simp
  have hdrop : (a ++ 0 :: r).drop (a.length + 1) = r := by simp
  have hset' : ∀ e, (a ++ 0 :: r).set (a.length + 1 + e) 0 = a ++ 0 :: r.set e 0 := by
    intro e
    rw [List.set_append_right _ _ (by omega), show a.length + 1 + e - a.length = e + 1 by omega]
    rfl
  have hdrop' : ∀ e n, (a ++ 0 :: r.set e 0).drop (a.length + 1 + n) = (r.set e 0).drop n := by
    intro e n
    rw [← List.drop_drop, show (a ++ 0 :: r.set e 0).drop (a.length + 1) = r.set e 0 by simp]
  unfold deviceIoctl
  simp only [hs, hset, hx, Option.bind_some, hdrop]
  rcases strpbrk (byte ' ') r with - | - | e
  · rfl
  · rfl
  · have hzero := hdrop' e 0
    rw [Nat.add_zero, List.drop_zero] at hzero
    simp only [hset', Nat.add_assoc _ e 1, hdrop', hzero]

/-- Two blanks: the driver acts, unless it reads too far. -/
theorem deviceIoctl_cut_twice (ha : Plain (byte ' ') a) (hf : Plain (byte ' ') f)
    (hs : strpbrk (byte ' ') (a ++ byte ' ' :: (f ++ byte ' ' :: t)) = some (some a.length))
    (hs' : strpbrk (byte ' ') (f ++ byte ' ' :: t) = some (some f.length)) (id₀ val₀ : Int) :
    ∃ x, (∀ v, x = some v ↔ IsLong C a v) ∧
      deviceIoctl C (a ++ byte ' ' :: (f ++ byte ' ' :: t)) id₀ val₀ =
        (kstrtol C t).map fun val =>
          (100, some (if f = setAccountKey then .setAccount (C.int (val.getD val₀))
            else .kvSetAll (C.int (x.getD id₀)) f (val.getD val₀))) := by
  obtain ⟨x, hlong, heq⟩ := deviceIoctl_cut (C := C) ha hs id₀ val₀
  refine ⟨x, hlong, ?_⟩
  have hset : (f ++ byte ' ' :: t).set f.length 0 = f ++ 0 :: t := by simp
  have hdrop : (f ++ 0 :: t).drop (f.length + 1) = t := by simp
  have hfield : (f ++ 0 :: t).takeWhile (fun b => decide (b ≠ 0)) = f := by
    rw [List.takeWhile_append_of_pos]
    · simp
    · intro b hb
      exact decide_eq_true fun hzero => hf.1 (hzero ▸ hb)
  rw [heq, hs']
  simp only [hset, hdrop, hfield]

/-! ## What does happen -/

theorem conforms_refused {msg : List UInt8} (h : Short msg) : Conforms C msg (some (-1, none)) :=
  ⟨-1, none, rfl, fun _ _ _ hmsg => (h.not_wellFormed hmsg).elim, fun _ => ⟨by decide, rfl⟩⟩

/-- What the driver does is what it should do exactly if the numbers fit. -/
theorem intended_iff (id : Int) (field : List UInt8) (val : Int) :
    (if field = setAccountKey then Action.setAccount (C.int val) else .kvSetAll (C.int id) field val) =
      intended id field val ↔ Fits C id field val := by
  unfold intended Fits
  split
  · exact Action.setAccount.injEq _ _ ▸ Iff.rfl
  · rw [Action.kvSetAll.injEq]
    exact and_iff_left ⟨rfl, rfl⟩

theorem conforms_cut_twice_iff (ha : Plain (byte ' ') a) (hf : Plain (byte ' ') f)
    (hs : strpbrk (byte ' ') (a ++ byte ' ' :: (f ++ byte ' ' :: t)) = some (some a.length))
    (hs' : strpbrk (byte ' ') (f ++ byte ' ' :: t) = some (some f.length)) (id₀ val₀ : Int) :
    Conforms C (a ++ byte ' ' :: (f ++ byte ' ' :: t))
        (deviceIoctl C (a ++ byte ' ' :: (f ++ byte ' ' :: t)) id₀ val₀) ↔
      ∃ id field val, WellFormed C (a ++ byte ' ' :: (f ++ byte ' ' :: t)) id field val ∧
        Fits C id field val := by
  obtain ⟨x, hlong, heq⟩ := deviceIoctl_cut_twice (C := C) ha hf hs hs' id₀ val₀
  -- on a well-formed message the numbers are those of the message
  have hacts : ∀ {id field val}, WellFormed C (a ++ byte ' ' :: (f ++ byte ' ' :: t)) id field val →
      deviceIoctl C (a ++ byte ' ' :: (f ++ byte ' ' :: t)) id₀ val₀ =
        some (100, some (if field = setAccountKey then .setAccount (C.int val)
          else .kvSetAll (C.int id) field val)) := by
    intro id field val hmsg
    obtain ⟨hid, rfl, valText, rest, rfl, hval⟩ := hmsg.cut_twice ha hf
    obtain ⟨y, hy, hlong'⟩ := kstrtol_text C hval.isPlain.1 rest
    rw [heq, hy, (hlong id).mpr hid, (hlong' val).mpr hval]
    rfl
  constructor
  · rintro ⟨rv, action, hr, happlied, hrefused⟩
    by_cases hmsg : ∃ id field val, WellFormed C (a ++ byte ' ' :: (f ++ byte ' ' :: t)) id field val
    · obtain ⟨id, field, val, hmsg⟩ := hmsg
      obtain ⟨-, haction⟩ := happlied id field val hmsg
      rw [hacts hmsg, Option.some.injEq, Prod.mk.injEq, haction, Option.some.injEq] at hr
      exact ⟨id, field, val, hmsg, (intended_iff id field val).mp hr.2⟩
    · -- the driver returns 100 all the same
      obtain ⟨hneg, -⟩ := hrefused fun id field val h => hmsg ⟨id, field, val, h⟩
      rw [heq, Option.map_eq_some_iff] at hr
      obtain ⟨val, -, hval⟩ := hr
      rw [Prod.mk.injEq] at hval
      omega
  · rintro ⟨id, field, val, hmsg, hfits⟩
    refine ⟨100, some (intended id field val), ?_, ?_, fun hno => (hno id field val hmsg).elim⟩
    · rw [hacts hmsg, (intended_iff id field val).mpr hfits]
    · intro id' field' val' hmsg'
      obtain ⟨hid, rfl, valText, rest, rfl, hval⟩ := hmsg.cut_twice ha hf
      obtain ⟨hid', rfl, valText', rest', ht, hval'⟩ := hmsg'.cut_twice ha hf
      obtain ⟨rfl, -⟩ := plain_append_inj hval.isPlain hval'.isPlain (.inl rfl) (.inl rfl) ht
      rw [hid.unique hid', hval.unique hval']
      exact ⟨rfl, rfl⟩

theorem conforms_iff (C : CInts) (msg : List UInt8) (id₀ val₀ : Int) :
    Conforms C msg (deviceIoctl C msg id₀ val₀) ↔
      Short msg ∨ ∃ id field val, WellFormed C msg id field val ∧ Fits C id field val := by
  have hnone : 0 ∉ msg → ¬ (Short msg ∨
      ∃ id field val, WellFormed C msg id field val ∧ Fits C id field val) := by
    rintro hzero ((⟨s, rest, rfl, -⟩ | ⟨s, t, rest, rfl, -⟩) | ⟨id, field, val, hmsg, -⟩)
    · simp at hzero
    · simp at hzero
    · exact not_wellFormed_plain hzero hmsg
  have houtside : ¬ Conforms C msg none := by
    rintro ⟨rv, action, hr, -⟩
    cases hr
  rcases strpbrk_cases (byte ' ') msg with ⟨hplain, hs⟩ | ⟨a, r, rfl, ha, hs⟩ | ⟨a, r, rfl, ha, hs⟩
  · -- no blank and no end
    have heq : deviceIoctl C msg id₀ val₀ = none := by
      unfold deviceIoctl
      rw [hs]
    rw [heq]
    exact iff_of_false houtside (hnone hplain.1)
  · -- no blank
    have hshort : Short (a ++ 0 :: r) := .inl ⟨a, r, rfl, ha⟩
    have heq : deviceIoctl C (a ++ 0 :: r) id₀ val₀ = some (-1, none) := by
      unfold deviceIoctl
      rw [hs]
    rw [heq]
    exact iff_of_true (conforms_refused hshort) (.inl hshort)
  · obtain ⟨x, -, heq⟩ := deviceIoctl_cut (C := C) ha hs id₀ val₀
    rcases strpbrk_cases (byte ' ') r with ⟨hplain, hs'⟩ | ⟨f, t, rfl, hf, hs'⟩ | ⟨f, t, rfl, hf, hs'⟩
    · -- one blank, and no end
      rw [hs'] at heq
      rw [heq]
      refine iff_of_false houtside (hnone ?_)
      rw [List.mem_append, List.mem_cons]
      rintro (hzero | hzero | hzero)
      · exact ha.1 hzero
      · exact absurd hzero (by decide)
      · exact hplain.1 hzero
    · -- one blank
      have hshort : Short (a ++ byte ' ' :: (f ++ 0 :: t)) := .inr ⟨a, f, t, rfl, ha, hf⟩
      rw [hs'] at heq
      rw [heq]
      exact iff_of_true (conforms_refused hshort) (.inl hshort)
    · rw [conforms_cut_twice_iff ha hf hs hs', or_iff_right (not_short ha hf)]

/-- A buffer is treated as it should if and only if it has a string with fewer than two blanks, or one that
is well formed and whose account fits an `int`. -/
theorem message_applied_iff (C : CInts) (msg : Vector UInt8 100) (id₀ val₀ : Int) :
    Conforms C msg.toList (deviceIoctl C msg.toList id₀ val₀) ↔
      Short msg.toList ∨
        ∃ id field val, WellFormed C msg.toList id field val ∧ Fits C id field val :=
  conforms_iff C msg.toList id₀ val₀

def message (text : List Char) : Vector UInt8 100 :=
  Vector.ofFn fun i => (text.map byte).getD i 0

/-- The value is not a number, and what is on the stack is set. The id is larger than an `int`, and another
account is changed. The string does not end, and the driver reads on. -/
theorem malformed_messages_applied :
    deviceIoctl .lp64 (message ['5', ' ', 'r', 'a', 't', 'e', ' ', 'x']).toList 0 (-77) =
        some (100, some (.kvSetAll 5 (['r', 'a', 't', 'e'].map byte) (-77))) ∧
      deviceIoctl .lp64 (message ['4', '2', '9', '4', '9', '6', '7', '3', '0', '3', ' ', 'r', 'a', 't', 'e',
          ' ', '1']).toList 0 0 =
        some (100, some (.kvSetAll 7 (['r', 'a', 't', 'e'].map byte) 1)) ∧
      deviceIoctl .lp64 (Vector.replicate 100 (byte 'a')).toList 0 0 = none := by
  decide +kernel

/-! ## The disks -/

/-- A `disk_info`, with the data of the scheduler that `kv_set` changes. -/
structure Disk where
  Data : Type
  kvSet : Data → Int → String → Int → Data
  data : Data

structure Kernel where
  accountId : Int
  diskInfoList : List Disk

/-- The bytes of a string are characters. -/
def text (bs : List UInt8) : String := String.ofList (bs.map fun b => Char.ofNat b.toNat)

def kvSetAll (k : Kernel) (id : Int) (key : String) (val : Int) : Kernel :=
  { k with diskInfoList := k.diskInfoList.map fun di => { di with data := di.kvSet di.data id key val } }

def Kernel.perform (k : Kernel) : Action → Kernel
  | .setAccount accountId => { k with accountId := accountId }
  | .kvSetAll id key val => kvSetAll k id (text key) val

def Kernel.ioctl (C : CInts) (k : Kernel) (msg : List UInt8) (id₀ val₀ : Int) : Option (Int × Kernel) :=
  (deviceIoctl C msg id₀ val₀).map fun r => (r.1, r.2.elim k k.perform)

theorem ioctl_well_formed {msg : List UInt8} (hmsg : WellFormed C msg id field val)
    (hfits : Fits C id field val) (k : Kernel) (id₀ val₀ : Int) :
    k.ioctl C msg id₀ val₀ = some (100, k.perform (intended id field val)) := by
  obtain ⟨rv, action, hr, happlied, -⟩ :=
    (conforms_iff C msg id₀ val₀).mpr (.inr ⟨id, field, val, hmsg, hfits⟩)
  obtain ⟨rfl, rfl⟩ := happlied id field val hmsg
  unfold Kernel.ioctl
  rw [hr]
  rfl

theorem ioctl_short {msg : List UInt8} (hmsg : Short msg) (k : Kernel) (id₀ val₀ : Int) :
    ∃ rv < 0, k.ioctl C msg id₀ val₀ = some (rv, k) := by
  obtain ⟨rv, action, hr, -, hrefused⟩ := (conforms_iff C msg id₀ val₀).mpr (.inl hmsg)
  obtain ⟨hneg, rfl⟩ := hrefused fun id field val => hmsg.not_wellFormed
  refine ⟨rv, hneg, ?_⟩
  unfold Kernel.ioctl
  rw [hr]
  rfl

def tbDisk (P : Platform) (s : Tb.State) : Disk := ⟨Tb.State, Tb.tbucketKvSet P, s⟩

def afqDisk (P : Platform) (s : Afq.State) : Disk := ⟨Afq.State, Afq.basicKvSetCallback P, s⟩

/-- Every scheduler that is registered sees the message as a call of its own `kv_set`. -/
theorem ioctl_schedulers (P : Platform) {msg : List UInt8} (hmsg : WellFormed C msg id field val)
    (hid : C.int id = id) (hfield : field ≠ setAccountKey) (k : Kernel) (id₀ val₀ : Int) :
    ∃ k', k.ioctl C msg id₀ val₀ = some (100, k') ∧ k'.accountId = k.accountId ∧
      (∀ s, tbDisk P s ∈ k.diskInfoList →
        tbDisk P (Tb.tbucketKvSet P s id (text field) val) ∈ k'.diskInfoList) ∧
      ∀ s, afqDisk P s ∈ k.diskInfoList →
        afqDisk P (Afq.basicKvSetCallback P s id (text field) val) ∈ k'.diskInfoList := by
  have hfits : Fits C id field val := by
    unfold Fits
    rw [if_neg hfield]
    exact hid
  have hperform : k.perform (intended id field val) = kvSetAll k id (text field) val := by
    unfold intended
    rw [if_neg hfield]
    rfl
  refine ⟨_, ioctl_well_formed hmsg hfits k id₀ val₀, ?_⟩
  rw [hperform]
  exact ⟨rfl, fun s hs => List.mem_map.mpr ⟨_, hs, rfl⟩, fun s hs => List.mem_map.mpr ⟨_, hs, rfl⟩⟩

end Ioctl
end SplitSched
