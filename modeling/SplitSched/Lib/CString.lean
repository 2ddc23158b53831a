import SplitSched.Lib.CArith

/-!
# SplitSched.Lib.CString

Strings in a buffer of bytes, as the string functions of the kernel read them. A function that reads
beyond the last byte of the buffer returns `none`.

* `strpbrk c`: the place of the first `c` before the end of the string. `strpbrk_cases` cuts the buffer
  there; `plain_append_inj` says that there is one way to do this.
* `kstrtol`: base 10. `kstrtol_text`: on a string that ends in the buffer it reads nothing else, and
  returns a number exactly if the string `IsLong`.
-/

namespace SplitSched

open CArith

/-- The byte of a character. -/
def byte (c : Char) : UInt8 := c.toNat.toUInt8

/-! ## strpbrk -/

def strpbrk (c : UInt8) : List UInt8 → Option (Option Nat)
  | [] => none
  | b :: bs =>
    if b = 0 then some none
    else if b = c then some (some 0)
    else (strpbrk c bs).map (Option.map (· + 1))

/-- Bytes in which `strpbrk` does not stop. -/
def Plain (c : UInt8) (bs : List UInt8) : Prop := 0 ∉ bs ∧ c ∉ bs

theorem plain_nil (c : UInt8) : Plain c [] := ⟨List.not_mem_nil, List.not_mem_nil⟩

theorem plain_cons {c b : UInt8} {bs : List UInt8} :
    Plain c (b :: bs) ↔ (b ≠ 0 ∧ b ≠ c) ∧ Plain c bs := by
  unfold Plain
  simp only [List.mem_cons, not_or]
  constructor
  · rintro ⟨⟨hzero, hzeros⟩, hc, hcs⟩
    exact ⟨⟨Ne.symm hzero, Ne.symm hc⟩, hzeros, hcs⟩
  · rintro ⟨⟨hzero, hc⟩, hzeros, hcs⟩
    exact ⟨⟨Ne.symm hzero, hzeros⟩, Ne.symm hc, hcs⟩

theorem strpbrk_cases (c : UInt8) (bs : List UInt8) :
    (Plain c bs ∧ strpbrk c bs = none) ∨
    (∃ a r, bs = a ++ 0 :: r ∧ Plain c a ∧ strpbrk c bs = some none) ∨
    (∃ a r, bs = a ++ c :: r ∧ Plain c a ∧ strpbrk c bs = some (some a.length)) := by
  induction bs with
  | nil => exact .inl ⟨plain_nil c, rfl⟩
  | cons b bs ih =>
    by_cases hzero : b = 0
    · subst hzero
      exact .inr (.inl ⟨[], bs, rfl, plain_nil c, by simp [strpbrk]⟩)
    by_cases hc : b = c
    · subst hc
      exact .inr (.inr ⟨[], bs, rfl, plain_nil b, by simp [strpbrk, hzero]⟩)
    have hnext : strpbrk c (b :: bs) = (strpbrk c bs).map (Option.map (· + 1)) := by
      rw [strpbrk, if_neg hzero, if_neg hc]
    rw [hnext]
    rcases ih with ⟨hplain, heq⟩ | ⟨a, r, rfl, hplain, heq⟩ | ⟨a, r, rfl, hplain, heq⟩
    · exact .inl ⟨plain_cons.mpr ⟨⟨hzero, hc⟩, hplain⟩, by rw [heq]; rfl⟩
    · exact .inr (.inl ⟨b :: a, r, rfl, plain_cons.mpr ⟨⟨hzero, hc⟩, hplain⟩, by rw [heq]; rfl⟩)
    · exact .inr (.inr ⟨b :: a, r, rfl, plain_cons.mpr ⟨⟨hzero, hc⟩, hplain⟩, by rw [heq]; rfl⟩)

/-- The first byte in which `strpbrk` stops is at one place only. -/
theorem plain_append_inj {c x x' : UInt8} {a a' r r' : List UInt8} (ha : Plain c a) (ha' : Plain c a')
    (hx : x = 0 ∨ x = c) (hx' : x' = 0 ∨ x' = c) (h : a ++ x :: r = a' ++ x' :: r') :
    a = a' ∧ x = x' ∧ r = r' := by
  have hstop : ∀ {b y : UInt8} {bs : List UInt8}, Plain c (b :: bs) → y = 0 ∨ y = c → b ≠ y := by
    intro b y bs hplain hy heq
    obtain ⟨⟨hzero, hc⟩, -⟩ := plain_cons.mp hplain
    rcases hy with hy | hy
    · exact hzero (heq.trans hy)
    · exact hc (heq.trans hy)
  induction a generalizing a' with
  | nil =>
    cases a' with
    | nil =>
      obtain ⟨hxx, hrr⟩ := List.cons.inj h
      exact ⟨rfl, hxx, hrr⟩
    | cons b' a' => exact (hstop ha' hx (List.cons.inj h).1.symm).elim
  | cons b a ih =>
    cases a' with
    | nil => exact (hstop ha hx' (List.cons.inj h).1).elim
    | cons b' a' =>
      obtain ⟨hb, htail⟩ := List.cons.inj h
      obtain ⟨haa, hxx, hrr⟩ := ih (plain_cons.mp ha).2 (plain_cons.mp ha').2 htail
      exact ⟨by rw [hb, haa], hxx, hrr⟩

/-! ## kstrtol -/

def isDigit (b : UInt8) : Bool := decide (48 ≤ b.toNat ∧ b.toNat ≤ 57)

/-- The value of a sequence of digits. -/
def digitsValue (ds : List UInt8) : Nat := ds.foldl (fun n d => 10 * n + (d.toNat - 48)) 0

/-- `_kstrtoull`. The inner `none` is an error. -/
def kstrtoull (bs : List UInt8) : Option (Option Nat) :=
  let ds := bs.takeWhile isDigit
  match bs.dropWhile isDigit with
  | [] => none
  | b :: bs =>
    if ds = [] ∨ 2 ^ 64 ≤ digitsValue ds then some none
    else if b = byte '\n' then
      match bs with
      | [] => none
      | b :: _ => some (if b = 0 then some (digitsValue ds) else none)
    else some (if b = 0 then some (digitsValue ds) else none)

def kstrtol (C : CInts) : List UInt8 → Option (Option Int)
  | [] => none
  | b :: bs =>
    let r : Option (Option Int) :=
      if b = byte '-' then (kstrtoull bs).map (Option.map fun n : Nat => -(n : Int))
      else (kstrtoull (if b = byte '+' then bs else b :: bs)).map (Option.map fun n : Nat => (n : Int))
    r.map (Option.filter fun v => decide (C.long v = v))

/-- Digits, and perhaps a newline. -/
def IsUnsigned (s : List UInt8) (n : Nat) : Prop :=
  ∃ ds nl, s = ds ++ nl ∧ ds ≠ [] ∧ (∀ d ∈ ds, isDigit d = true) ∧ (nl = [] ∨ nl = [byte '\n']) ∧
    digitsValue ds = n ∧ n < 2 ^ 64

/-- A number with an optional sign. -/
inductive IsSigned : List UInt8 → Int → Prop where
  | plain {s n} : IsUnsigned s n → IsSigned s n
  | plus {s n} : IsUnsigned s n → IsSigned (byte '+' :: s) n
  | minus {s n} : IsUnsigned s n → IsSigned (byte '-' :: s) (-n)

/-- The text of a `long`. -/
def IsLong (C : CInts) (s : List UInt8) (v : Int) : Prop := IsSigned s v ∧ C.long v = v

/-- Digits that something else follows are found by `takeWhile`. -/
theorem span_digits {ds nl : List UInt8} (hds : ∀ d ∈ ds, isDigit d = true)
    (hnl : nl = [] ∨ nl = [byte '\n']) :
    (ds ++ nl).takeWhile isDigit = ds ∧ (ds ++ nl).dropWhile isDigit = nl := by
  rw [List.takeWhile_append_of_pos hds, List.dropWhile_append_of_pos hds]
  rcases hnl with rfl | rfl
  · exact ⟨List.append_nil ds, rfl⟩
  · exact ⟨List.append_nil ds, rfl⟩

theorem isUnsigned_iff (s : List UInt8) (n : Nat) :
    IsUnsigned s n ↔ s.takeWhile isDigit ≠ [] ∧
      (s.dropWhile isDigit = [] ∨ s.dropWhile isDigit = [byte '\n']) ∧
      digitsValue (s.takeWhile isDigit) = n ∧ n < 2 ^ 64 := by
  constructor
  · rintro ⟨ds, nl, rfl, hne, hds, hnl, hvalue, hlt⟩
    obtain ⟨htake, hdrop⟩ := span_digits hds hnl
    rw [htake, hdrop]
    exact ⟨hne, hnl, hvalue, hlt⟩
  · rintro ⟨hne, hnl, hvalue, hlt⟩
    exact ⟨_, _, List.takeWhile_append_dropWhile.symm, hne, fun d hd => List.mem_takeWhile_imp hd, hnl,
      hvalue, hlt⟩

/-- The end of the string ends the digits. -/
theorem span_text (s r : List UInt8) :
    (s ++ 0 :: r).takeWhile isDigit = s.takeWhile isDigit ∧
      (s ++ 0 :: r).dropWhile isDigit = s.dropWhile isDigit ++ 0 :: r := by
  have hzero : isDigit 0 = false := by decide
  induction s with
  | nil => simp [hzero]
  | cons b s ih =>
    rw [List.cons_append]
    by_cases hb : isDigit b = true
    · simp only [List.takeWhile_cons, List.dropWhile_cons, hb, if_true, ih, and_self]
    · simp [hb]

theorem kstrtoull_text {s : List UInt8} (hs : 0 ∉ s) (r : List UInt8) :
    ∃ x, kstrtoull (s ++ 0 :: r) = some x ∧ ∀ n, x = some n ↔ IsUnsigned s n := by
  obtain ⟨htake, hdrop⟩ := span_text s r
  have hrest : 0 ∉ s.dropWhile isDigit := fun h => hs (List.dropWhile_suffix _ |>.subset h)
  simp only [kstrtoull, htake, hdrop, isUnsigned_iff]
  by_cases hbad : s.takeWhile isDigit = [] ∨ 2 ^ 64 ≤ digitsValue (s.takeWhile isDigit)
  · -- no digits, or too many
    refine ⟨none, ?_, fun n => iff_of_false (Option.some_ne_none n).symm ?_⟩
    · cases s.dropWhile isDigit with
      | nil => simp only [List.nil_append, if_pos hbad]
      | cons b t => simp only [List.cons_append, if_pos hbad]
    · rintro ⟨hne, -, hvalue, hlt⟩
      rcases hbad with hnil | hlarge
      · exact hne hnil
      · omega
  obtain ⟨hne, hlt⟩ := not_or.mp hbad
  simp only [if_neg hbad]
  generalize digitsValue (s.takeWhile isDigit) = value at hlt ⊢
  cases hd : s.dropWhile isDigit with
  | nil =>
    refine ⟨some value, ?_, fun n => ?_⟩
    · rw [List.nil_append]
      exact if_neg (by decide)
    · rw [Option.some.injEq]
      exact ⟨fun h => ⟨hne, .inl rfl, h, by omega⟩, fun h => h.2.2.1⟩
  | cons b t =>
    rw [hd, List.mem_cons, not_or] at hrest
    rw [List.cons_append]
    simp only [if_neg (Ne.symm hrest.1)]
    by_cases hb : b = byte '\n'
    · subst hb
      simp only [if_true]
      cases t with
      | nil =>
        refine ⟨some value, rfl, fun n => ?_⟩
        rw [Option.some.injEq]
        exact ⟨fun h => ⟨hne, .inr rfl, h, by omega⟩, fun h => h.2.2.1⟩
      | cons b' t =>
        rw [List.mem_cons, not_or] at hrest
        refine ⟨none, ?_, fun n => iff_of_false (Option.some_ne_none n).symm ?_⟩
        · simp only [List.cons_append, if_neg (Ne.symm hrest.2.1)]
        · rintro ⟨-, hnl, -⟩
          simp at hnl
    · simp only [if_neg hb]
      refine ⟨none, rfl, fun n => iff_of_false (Option.some_ne_none n).symm ?_⟩
      rintro ⟨-, hnl, -⟩
      simp [hb] at hnl

/-- The first byte of an unsigned number is not a sign. -/
theorem IsUnsigned.head {b : UInt8} {s : List UInt8} {n : Nat} (h : IsUnsigned (b :: s) n) :
    isDigit b = true := by
  obtain ⟨hne, -⟩ := (isUnsigned_iff _ _).mp h
  by_contra hb
  exact hne (by simp [hb])

theorem isSigned_cons {b : UInt8} {s : List UInt8} {v : Int} :
    IsSigned (b :: s) v ↔
      if b = byte '-' then ∃ n, IsUnsigned s n ∧ v = -n
      else ∃ n : Nat, IsUnsigned (if b = byte '+' then s else b :: s) n ∧ v = n := by
  constructor
  · intro h
    cases h with
    | @plain _ n h =>
      have hdigit := h.head
      have hminus : b ≠ byte '-' := by
        rintro rfl
        revert hdigit
        decide
      have hplus : b ≠ byte '+' := by
        rintro rfl
        revert hdigit
        decide
      rw [if_neg hminus, if_neg hplus]
      exact ⟨n, h, rfl⟩
    | @plus _ n h =>
      rw [if_neg (by decide), if_pos rfl]
      exact ⟨n, h, rfl⟩
    | @minus _ n h =>
      rw [if_pos rfl]
      exact ⟨n, h, rfl⟩
  · split
    · rename_i hminus
      rintro ⟨n, h, rfl⟩
      rw [hminus]
      exact .minus h
    · split
      · rename_i hplus
        rintro ⟨n, h, rfl⟩
        rw [hplus]
        exact .plus h
      · rintro ⟨n, h, rfl⟩
        exact .plain h

theorem kstrtol_text (C : CInts) {s : List UInt8} (hs : 0 ∉ s) (r : List UInt8) :
    ∃ x, kstrtol C (s ++ 0 :: r) = some x ∧ ∀ v, x = some v ↔ IsLong C s v := by
  -- the sign is taken off
  have hsign : ∃ x : Option Int, kstrtol C (s ++ 0 :: r) =
      some (x.filter fun v => decide (C.long v = v)) ∧ ∀ v, x = some v ↔ IsSigned s v := by
    cases s with
    | nil =>
      refine ⟨none, ?_, fun v => iff_of_false (Option.some_ne_none v).symm ?_⟩
      · simp [kstrtol, kstrtoull, byte, isDigit]
      · intro h
        cases h with
        | plain h => exact (((isUnsigned_iff _ _).mp h).1 rfl)
    | cons b s =>
      simp only [isSigned_cons]
      rw [List.cons_append]
      simp only [kstrtol]
      split
      · obtain ⟨x, hx, hn⟩ := kstrtoull_text (fun h => hs (List.mem_cons_of_mem b h)) r
        rw [hx]
        refine ⟨x.map fun n : Nat => -(n : Int), rfl, fun v => ?_⟩
        rw [Option.map_eq_some_iff]
        exact exists_congr fun n => and_congr (hn n) eq_comm
      · have hs' : 0 ∉ (if b = byte '+' then s else b :: s) := by
          split
          · exact fun h => hs (List.mem_cons_of_mem b h)
          · exact hs
        have happend : (if b = byte '+' then s ++ 0 :: r else b :: (s ++ 0 :: r)) =
            (if b = byte '+' then s else b :: s) ++ 0 :: r := by
          split
          · rfl
          · rfl
        obtain ⟨x, hx, hn⟩ := kstrtoull_text hs' r
        rw [happend, hx]
        refine ⟨x.map fun n : Nat => (n : Int), rfl, fun v => ?_⟩
        rw [Option.map_eq_some_iff]
        exact exists_congr fun n => and_congr (hn n) eq_comm
  obtain ⟨x, hx, hv⟩ := hsign
  refine ⟨_, hx, fun v => ?_⟩
  rw [Option.filter_eq_some_iff, hv, decide_eq_true_eq]
  rfl

/-! ## The texts of numbers -/

theorem IsUnsigned.mem {s : List UInt8} {n : Nat} (h : IsUnsigned s n) {b : UInt8} (hb : b ∈ s) :
    isDigit b = true ∨ b = byte '\n' := by
  obtain ⟨ds, nl, rfl, -, hds, hnl, -⟩ := h
  rcases List.mem_append.mp hb with hb | hb
  · exact .inl (hds b hb)
  · rcases hnl with rfl | rfl
    · exact (List.not_mem_nil hb).elim
    · exact .inr (List.mem_singleton.mp hb)

theorem IsSigned.mem {s : List UInt8} {v : Int} (h : IsSigned s v) {b : UInt8} (hb : b ∈ s) :
    isDigit b = true ∨ b = byte '\n' ∨ b = byte '+' ∨ b = byte '-' := by
  cases h with
  | plain h => exact (h.mem hb).imp_right .inl
  | plus h =>
    rcases List.mem_cons.mp hb with hb | hb
    · exact .inr (.inr (.inl hb))
    · exact (h.mem hb).imp_right .inl
  | minus h =>
    rcases List.mem_cons.mp hb with hb | hb
    · exact .inr (.inr (.inr hb))
    · exact (h.mem hb).imp_right .inl

/-- There is neither a blank nor the end of a string in a number. -/
theorem IsLong.isPlain {C : CInts} {s : List UInt8} {v : Int} (h : IsLong C s v) :
    Plain (byte ' ') s := by
  constructor
  · intro hzero
    exact absurd (h.1.mem hzero) (by decide)
  · intro hspace
    exact absurd (h.1.mem hspace) (by decide)

/-- A text is the text of one number. -/
theorem IsLong.unique {C : CInts} {s : List UInt8} {v w : Int} (hv : IsLong C s v) (hw : IsLong C s w) :
    v = w := by
  obtain ⟨x, -, hx⟩ := kstrtol_text C hv.isPlain.1 []
  exact Option.some.inj (((hx v).mpr hv).symm.trans ((hx w).mpr hw))

end SplitSched
