import Linux011.Lib.Bytes
import Linux011.Lib.Countdown
import Mathlib.Data.Nat.Digits.Lemmas

/-!
# Numbers as text

`number` of `kernel/vsprintf.c`. An `int` is a word of 32 bits that wraps around; the text is the list of
the characters stored so far.

1. The flags, `convert` (the loop around `do_div`), `layout` (the loops that store) and `number`.
2. `convert_eq`: the digits. `layout_eq`: what the loops store, `pads` spaces or zeros of padding among it.
3. `Shows`: a text is the number as it was asked for. `Fits`: the width does not wrap around.
4. `number_shows`.
-/

namespace Linux011.Vsprintf

open Bytes (Byte)
open Countdown

/-- The code of a character. -/
def chr (c : Char) : Byte := BitVec.ofNat 8 c.toNat

def ZEROPAD : BitVec 32 := 1
def SIGN : BitVec 32 := 2
def PLUS : BitVec 32 := 4
def SPACE : BitVec 32 := 8
def LEFT : BitVec 32 := 16
def SPECIAL : BitVec 32 := 32
def SMALL : BitVec 32 := 64

/-- `type & flag`, as a test. -/
def Has (type flag : BitVec 32) : Prop := type &&& flag ≠ 0

instance (type flag : BitVec 32) : Decidable (Has type flag) := inferInstanceAs (Decidable (_ ≠ _))

/-- What the code must not do: store behind `tmp`, read behind `digits`, store through the null pointer that
`number` returns for a wrong base, read the format behind its end, or never end. -/
inductive Fault
  | tmp
  | digits
  | null
  | format
  | endless
deriving DecidableEq

/-! ## `number` -/

def digitsOf (type : BitVec 32) : List Byte :=
  if Has type SMALL then "0123456789abcdefghijklmnopqrstuvwxyz".toList.map chr
  else "0123456789ABCDEFGHIJKLMNOPQRSTUVWXYZ".toList.map chr

/-- `LEFT` takes `ZEROPAD` away. -/
def adjusted (type : BitVec 32) : BitVec 32 := if Has type LEFT then type &&& ~~~ZEROPAD else type

/-- `do_div`: `divl` divides as unsigned. The remainder, and the quotient that is left in `n`. -/
def doDiv (n base : BitVec 32) : BitVec 32 × BitVec 32 := (n % base, n / base)

/-- `while (num != 0) tmp[i++] = digits[do_div (num, base)]`. -/
def convert (digits : List Byte) (base num : BitVec 32) (tmp : List Byte) : Except Fault (List Byte) :=
  if num = 0 then .ok tmp
  else
    match digits[(doDiv num base).1.toNat]? with
    | none => .error .digits
    | some d =>
      if tmp.length < 36 then convert digits base (doDiv num base).2 (tmp ++ [d]) else .error .tmp
termination_by 36 - tmp.length

/-- What is in `tmp`, the last digit first. -/
def fill (digits : List Byte) (base num : BitVec 32) : Except Fault (List Byte) :=
  if num = 0 then .ok [chr '0'] else convert digits base num []

/-- The character of the sign, or 0, and the number without it. -/
def signOf (num type : BitVec 32) : Byte × BitVec 32 :=
  if Has type SIGN ∧ num.toInt < 0 then (chr '-', -num)
  else (if Has type PLUS then chr '+' else if Has type SPACE then chr ' ' else 0, num)

/-- How much of the width is left for the digits. -/
def reserve (sign : Byte) (base size type : BitVec 32) : BitVec 32 :=
  let size := if sign ≠ 0 then size - 1 else size
  if Has type SPECIAL then
    if base = 16 then size - 2 else if base = 8 then size - 1 else size
  else size

/-- `while (i-- > 0) *str++ = tmp[i]`. -/
def flush (tmp : List Byte) : ℕ → List Byte → List Byte
  | 0, str => str
  | i + 1, str => flush tmp i (str ++ tmp[i]?.toList)

/-- The loops that store, and what is stored between them. -/
def layout (str tmp digits : List Byte) (sign : Byte) (base size precision type : BitVec 32) : List Byte :=
  let c := if Has type ZEROPAD then chr '0' else chr ' '
  let (size, str) := if ¬ Has type (ZEROPAD + LEFT) then after 0 (chr ' ') size str else (size, str)
  let str := if sign ≠ 0 then str ++ [sign] else str
  let str := if Has type SPECIAL then
      if base = 8 then str ++ [chr '0']
      else if base = 16 then str ++ [chr '0'] ++ digits[33]?.toList
      else str
    else str
  let (size, str) := if ¬ Has type LEFT then after 0 c size str else (size, str)
  let (_, str) := after (BitVec.ofNat 32 tmp.length) (chr '0') precision str
  let str := flush tmp tmp.length str
  (after 0 (chr ' ') size str).2

/-- None is the null pointer. -/
def number (str : List Byte) (num base size precision type : BitVec 32) :
    Except Fault (Option (List Byte)) := do
  let digits := digitsOf type
  let type := adjusted type
  if base.toInt < 2 ∨ 36 < base.toInt then return none
  let (sign, num) := signOf num type
  let size := reserve sign base size type
  let tmp ← fill digits base num
  let precision := if precision.toInt < tmp.length then BitVec.ofNat 32 tmp.length else precision
  return some (layout str tmp digits sign base (size - precision) precision type)

/-! ## The digits -/

/-- The character of a digit. -/
def digit (type : BitVec 32) (d : ℕ) : Byte := (digitsOf type).getD d 0

theorem length_digitsOf (type : BitVec 32) : (digitsOf type).length = 36 := by
  unfold digitsOf
  split <;> rfl

theorem getElem?_digitsOf (type : BitVec 32) {d : ℕ} (h : d < 36) :
    (digitsOf type)[d]? = some (digit type d) := by
  have hlt : d < (digitsOf type).length := by
    rw [length_digitsOf]
    exact h
  unfold digit
  rw [List.getD_eq_getElem?_getD, List.getElem?_eq_getElem hlt]
  rfl

theorem digit_zero (type : BitVec 32) : digit type 0 = chr '0' := by
  unfold digit digitsOf
  split <;> rfl

/-- The loop stores the digits, the last one first. -/
theorem convert_eq (type : BitVec 32) {base : BitVec 32} (hlow : 2 ≤ base.toNat) (hhigh : base.toNat ≤ 36)
    (num : BitVec 32) (tmp : List Byte) (h : tmp.length + (Nat.digits base.toNat num.toNat).length ≤ 36) :
    convert (digitsOf type) base num tmp =
      .ok (tmp ++ (Nat.digits base.toNat num.toNat).map (digit type)) := by
  induction hn : num.toNat using Nat.strong_induction_on generalizing num tmp with
  | _ n ih =>
    subst hn
    unfold convert
    by_cases h0 : num = 0
    · rw [if_pos h0, h0]
      simp
    · have hpos : 0 < num.toNat := Nat.pos_of_ne_zero fun hz => h0 (BitVec.eq_of_toNat_eq hz)
      have hdigits := Nat.digits_def' (b := base.toNat) hlow hpos
      have hrem : (doDiv num base).1.toNat = num.toNat % base.toNat := BitVec.toNat_umod
      have hquot : (doDiv num base).2.toNat = num.toNat / base.toNat := BitVec.toNat_udiv
      have hlt : num.toNat % base.toNat < 36 := (Nat.mod_lt _ (by omega)).trans_le hhigh
      rw [hdigits, List.length_cons] at h
      rw [if_neg h0, hrem, getElem?_digitsOf type hlt]
      dsimp only
      rw [if_pos (by omega), ih _ (Nat.div_lt_self hpos hlow) _ _ (by
        rw [List.length_append, hquot, List.length_singleton]
        omega) hquot]
      rw [hdigits, List.map_cons, List.append_assoc]
      rfl

/-- In a base of at least 2 a word has at most 32 digits. -/
theorem length_digits_le {b : ℕ} (hb : 2 ≤ b) (num : BitVec 32) : (Nat.digits b num.toNat).length ≤ 32 := by
  rw [Nat.digits_length_le_iff hb]
  exact num.isLt.trans_le (Nat.pow_le_pow_left hb 32)

/-- The digits that a number is written with, the last one first: a zero has one. -/
def figures (b n : ℕ) : List ℕ := if n = 0 then [0] else Nat.digits b n

theorem figures_lt {b n : ℕ} (hb : 2 ≤ b) : ∀ d ∈ figures b n, d < b := by
  intro d hd
  unfold figures at hd
  split at hd
  · rw [List.mem_singleton] at hd
    omega
  · exact Nat.digits_lt_base hb hd

theorem ofDigits_figures (b n : ℕ) : Nat.ofDigits b (figures b n) = n := by
  unfold figures
  split
  · rename_i h
    rw [h]
    rfl
  · exact Nat.ofDigits_digits b n

theorem length_figures {b n : ℕ} : 0 < (figures b n).length := by
  unfold figures
  split
  · exact Nat.one_pos
  · rename_i h
    exact List.length_pos_of_ne_nil (Nat.digits_ne_nil_iff_ne_zero.2 h)

theorem length_figures_le {b : ℕ} (hb : 2 ≤ b) (num : BitVec 32) : (figures b num.toNat).length ≤ 32 := by
  unfold figures
  split
  · decide
  · exact length_digits_le hb num

/-! ## What is stored -/

/-- The characters of the sign. -/
def signText (num type : BitVec 32) : List Byte :=
  if Has type SIGN ∧ num.toInt < 0 then [chr '-']
  else if Has type PLUS then [chr '+']
  else if Has type SPACE then [chr ' ']
  else []

/-- The characters in front of an octal or a hexadecimal number. -/
def specialText (base type : BitVec 32) : List Byte :=
  if Has type SPECIAL then
    if base = 8 then [chr '0']
    else if base = 16 then [chr '0', if Has type SMALL then chr 'x' else chr 'X']
    else []
  else []

/-- The width behind a loop that stores it. -/
def used (size : BitVec 32) : BitVec 32 := if 0 < size.toInt then -1 else size - 1

/-- How much the three loops that pad store: in front of the sign, between it and the digits, behind them. -/
def pads (size type : BitVec 32) : ℕ × ℕ × ℕ :=
  if Has type LEFT then (0, 0, size.toInt.toNat)
  else if Has type ZEROPAD then (0, size.toInt.toNat, (used size).toInt.toNat)
  else (size.toInt.toNat, (used size).toInt.toNat, (used (used size)).toInt.toNat)

theorem after_zero (c : Byte) (size : BitVec 32) (str : List Byte) :
    after 0 c size str = (used size, str ++ List.replicate size.toInt.toNat c) := by
  have hzero : (0 : BitVec 32).toInt = 0 := rfl
  rw [after_eq, hzero, Int.sub_zero]
  rfl

/-- What is in `tmp` is stored from its end on. -/
theorem flush_eq (tmp : List Byte) {i : ℕ} (h : i ≤ tmp.length) (str : List Byte) :
    flush tmp i str = str ++ (tmp.take i).reverse := by
  induction i generalizing str with
  | zero => simp [flush]
  | succ i ih =>
    have hlt : i < tmp.length := h
    unfold flush
    rw [ih (by omega), List.getElem?_eq_getElem hlt, List.append_assoc, ← List.take_append_getElem hlt,
      List.reverse_append]
    rfl

theorem has_zeropad_left (type : BitVec 32) : Has type (ZEROPAD + LEFT) ↔ Has type ZEROPAD ∨ Has type LEFT := by
  have hsum : ZEROPAD + LEFT = ZEROPAD ||| LEFT := rfl
  unfold Has
  rw [hsum, BitVec.and_or_distrib_left, ← not_and_or, not_iff_not]
  exact BitVec.or_eq_zero_iff

theorem has_adjusted_zeropad (type : BitVec 32) :
    Has (adjusted type) ZEROPAD ↔ Has type ZEROPAD ∧ ¬ Has type LEFT := by
  unfold adjusted
  by_cases hleft : Has type LEFT
  · have hclear : type &&& ~~~ZEROPAD &&& ZEROPAD = 0 := by
      rw [BitVec.and_assoc]
      exact BitVec.and_zero
    rw [if_pos hleft]
    exact ⟨fun h => absurd hclear h, fun h => absurd hleft h.2⟩
  · rw [if_neg hleft]
    exact ⟨fun h => ⟨h, hleft⟩, fun h => h.1⟩

/-- The other flags stay. -/
theorem has_adjusted (type : BitVec 32) {flag : BitVec 32} (hflag : ~~~ZEROPAD &&& flag = flag) :
    Has (adjusted type) flag ↔ Has type flag := by
  unfold adjusted
  split
  · unfold Has
    rw [BitVec.and_assoc, hflag]
  · exact Iff.rfl

theorem pads_adjusted (size type : BitVec 32) : pads size (adjusted type) = pads size type := by
  unfold pads
  rw [if_congr (has_adjusted type rfl) rfl rfl]
  by_cases hleft : Has type LEFT
  · rw [if_pos hleft, if_pos hleft]
  · rw [if_neg hleft, if_neg hleft, if_congr (has_adjusted_zeropad type) rfl rfl]
    exact if_congr (and_iff_left hleft) rfl rfl

/-- What the loops store, for a precision of at least the number of digits. -/
theorem layout_eq (str tmp digits : List Byte) (sign : Byte) (base size precision type : BitVec 32)
    (htmp : tmp.length ≤ 36) : layout str tmp digits sign base size precision type =
      str ++ (List.replicate (pads size type).1 (chr ' ') ++ (if sign ≠ 0 then [sign] else []) ++
        (if Has type SPECIAL then
          if base = 8 then [chr '0'] else if base = 16 then [chr '0'] ++ digits[33]?.toList else []
        else []) ++
        List.replicate (pads size type).2.1 (if Has type ZEROPAD then chr '0' else chr ' ') ++
        List.replicate (precision.toInt - tmp.length).toNat (chr '0') ++ tmp.reverse ++
        List.replicate (pads size type).2.2 (chr ' ')) := by
  have hlen : (BitVec.ofNat 32 tmp.length).toInt = tmp.length := by
    rw [BitVec.toInt_ofNat', Int.bmod_eq_of_le] <;> omega
  have hfill : ∀ str, (after (BitVec.ofNat 32 tmp.length) (chr '0') precision str).2 =
      str ++ List.replicate (precision.toInt - tmp.length).toNat (chr '0') := by
    intro str
    rw [after_eq, hlen]
  have hflush : ∀ str, flush tmp tmp.length str = str ++ tmp.reverse := by
    intro str
    rw [flush_eq tmp le_rfl, List.take_length]
  unfold layout pads
  rw [if_congr (not_congr (has_zeropad_left type)) rfl rfl]
  by_cases hleft : Has type LEFT
  · simp only [hleft, hflush, hfill, after_zero, or_true, not_true_eq_false, if_true, if_false]
    split_ifs <;> simp
  · by_cases hzero : Has type ZEROPAD
    · simp only [hleft, hzero, hflush, hfill, after_zero, or_false, not_true_eq_false, not_false_eq_true,
        if_true, if_false]
      split_ifs <;> simp
    · simp only [hleft, hzero, hflush, hfill, after_zero, or_false, not_false_eq_true, if_true, if_false]
      split_ifs <;> simp

/-! ## What was asked for -/

/-- The number to write, signed or unsigned. -/
def value (num type : BitVec 32) : ℤ := if Has type SIGN then num.toInt else num.toNat

/-- How many digits it has. -/
def numDigits (num base type : BitVec 32) : ℕ := (figures base.toNat (value num type).natAbs).length

/-- How much is to be written besides the padding. -/
def needed (num base precision type : BitVec 32) : ℤ :=
  (signText num type).length + (specialText base type).length +
    max precision.toInt (numDigits num base type)

/-- The text shows the number: blanks, the sign, what is in front of an octal or hexadecimal number, digits
that denote the number, and blanks. It is as long as it should be. -/
structure Shows (num base size precision type : BitVec 32) (out : List Byte) : Prop where
  length : (out.length : ℤ) = max size.toInt (needed num base precision type)
  parts : ∃ (lead trail : ℕ) (ds : List ℕ),
    out = List.replicate lead (chr ' ') ++ signText num type ++ specialText base type ++
      ds.map (digit type) ++ List.replicate trail (chr ' ') ∧
    (Has type LEFT → lead = 0) ∧ (¬ Has type LEFT → trail = 0) ∧
    ds ≠ [] ∧ (∀ d ∈ ds, d < base.toNat) ∧ precision.toInt ≤ ds.length ∧
    (if signText num type = [chr '-'] then -1 else 1) * ((Nat.ofDigits base.toNat ds.reverse : ℕ) : ℤ) =
      value num type

/-- What is left of the width for padding. -/
def room (num base size precision type : BitVec 32) : ℤ := size.toInt - needed num base precision type

/-- How many loops count the width down before the last one that stores blanks. -/
def loops (type : BitVec 32) : ℤ := if Has type LEFT then 0 else if Has type ZEROPAD then 1 else 2

/-- The width does not wrap around. -/
def Fits (num base size precision type : BitVec 32) : Prop :=
  -2 ^ 31 ≤ room num base size precision type - loops type

instance (num base size precision type : BitVec 32) : Decidable (Fits num base size precision type) :=
  inferInstanceAs (Decidable (_ ≤ _))

/-! ## The parts of the text -/

theorem signOf_adjusted (num type : BitVec 32) : signOf num (adjusted type) = signOf num type := by
  unfold signOf
  rw [if_congr (and_congr_left' (has_adjusted type rfl)) rfl rfl, if_congr (has_adjusted type rfl) rfl rfl,
    if_congr (has_adjusted type rfl) rfl rfl]

theorem reserve_adjusted (sign : Byte) (base size type : BitVec 32) :
    reserve sign base size (adjusted type) = reserve sign base size type := by
  unfold reserve
  exact if_congr (has_adjusted type rfl) rfl rfl

theorem signText_eq (num type : BitVec 32) :
    (if (signOf num type).1 ≠ 0 then [(signOf num type).1] else []) = signText num type := by
  unfold signOf signText
  by_cases hminus : Has type SIGN ∧ num.toInt < 0
  · rw [if_pos hminus, if_pos hminus]
    rfl
  · rw [if_neg hminus, if_neg hminus]
    by_cases hplus : Has type PLUS
    · rw [if_pos hplus, if_pos hplus]
      rfl
    · rw [if_neg hplus, if_neg hplus]
      by_cases hspace : Has type SPACE
      · rw [if_pos hspace, if_pos hspace]
        rfl
      · rw [if_neg hspace, if_neg hspace]
        rfl

theorem specialText_eq (base type : BitVec 32) :
    (if Has type SPECIAL then
      if base = 8 then [chr '0'] else if base = 16 then [chr '0'] ++ (digitsOf type)[33]?.toList else []
    else []) = specialText base type := by
  unfold specialText digitsOf
  split_ifs <;> rfl

/-- Without its sign the number is its absolute value, the most negative one included. -/
theorem toNat_signOf (num type : BitVec 32) : (signOf num type).2.toNat = (value num type).natAbs := by
  have hcond := BitVec.toInt_eq_toNat_cond num
  have hlt := num.isLt
  unfold signOf value
  by_cases hsign : Has type SIGN
  · by_cases hneg : num.toInt < 0
    · rw [if_pos ⟨hsign, hneg⟩, if_pos hsign, BitVec.toNat_neg]
      split at hcond <;> omega
    · rw [if_neg fun h => hneg h.2, if_pos hsign]
      show num.toNat = _
      split at hcond <;> omega
  · rw [if_neg fun h => hsign h.1, if_neg hsign]
    rfl

/-- The sign and the digits denote the number. -/
theorem sign_mul_value (num type : BitVec 32) :
    (if signText num type = [chr '-'] then -1 else 1) * ((value num type).natAbs : ℤ) = value num type := by
  have hplus : ([chr '+'] : List Byte) ≠ [chr '-'] := by decide
  have hspace : ([chr ' '] : List Byte) ≠ [chr '-'] := by decide
  have hnil : ([] : List Byte) ≠ [chr '-'] := by decide
  unfold signText
  by_cases h : Has type SIGN ∧ num.toInt < 0
  · rw [if_pos h, if_pos rfl]
    unfold value
    rw [if_pos h.1]
    omega
  · have hnonneg : 0 ≤ value num type := by
      unfold value
      split
      · rename_i hsign
        exact not_lt.1 fun hneg => h ⟨hsign, hneg⟩
      · exact Int.natCast_nonneg _
    have hne : ¬ (if Has type PLUS then [chr '+'] else if Has type SPACE then [chr ' '] else []) = [chr '-'] := by
      split
      · exact hplus
      · split
        · exact hspace
        · exact hnil
    rw [if_neg h, if_neg hne]
    omega

theorem toInt_reserve (num base size type : BitVec 32) (hsize : |size.toInt| < 2 ^ 30) :
    (reserve (signOf num type).1 base size type).toInt =
      size.toInt - (signText num type).length - (specialText base type).length := by
  have hone : (1 : BitVec 32).toInt = 1 := rfl
  have htwo : (2 : BitVec 32).toInt = 2 := rfl
  obtain ⟨hlow, hhigh⟩ := abs_lt.1 hsize
  have hsub : ∀ k size' : BitVec 32, 0 ≤ k.toInt → k.toInt ≤ 2 → -2 ^ 31 + 2 ≤ size'.toInt →
      (size' - k).toInt = size'.toInt - k.toInt := by
    intro k size' hk hk' hsize'
    have := size'.toInt_lt
    rw [BitVec.toInt_sub, Int.bmod_eq_of_le] <;> omega
  have hsign : (if (signOf num type).1 ≠ 0 then size - 1 else size).toInt =
      size.toInt - (signText num type).length := by
    rw [← signText_eq]
    split
    · rw [hsub 1 size (by decide) (by decide) (by omega)]
      rfl
    · simp
  have hlen : (signText num type).length ≤ 1 := by
    unfold signText
    split_ifs <;> decide
  have hsize' : -2 ^ 31 + 2 ≤ (if (signOf num type).1 ≠ 0 then size - 1 else size).toInt := by
    rw [hsign]
    omega
  unfold reserve specialText
  rw [← hsign]
  dsimp only
  generalize (if (signOf num type).1 ≠ 0 then size - 1 else size) = size' at hsize'
  by_cases hspecial : Has type SPECIAL
  · rw [if_pos hspecial, if_pos hspecial]
    by_cases h16 : base = 16
    · subst h16
      rw [if_pos rfl, if_neg (by decide), if_pos rfl, hsub 2 _ (by decide) (by decide) hsize']
      rfl
    · rw [if_neg h16]
      by_cases h8 : base = 8
      · rw [if_pos h8, if_pos h8, hsub 1 _ (by decide) (by decide) hsize']
        rfl
      · rw [if_neg h8, if_neg h8, if_neg h16]
        simp
  · rw [if_neg hspecial, if_neg hspecial]
    simp

/-! ## The padding -/

section Pads

variable {size type : BitVec 32} {r : ℤ}

theorem toInt_used_of_pos (h : 0 < size.toInt) : (used size).toInt = -1 := by
  unfold used
  rw [if_pos h]
  rfl

theorem toInt_used (hlow : -2 ^ 31 < size.toInt) (h : size.toInt ≤ 0) : (used size).toInt = size.toInt - 1 := by
  have hone : (1 : BitVec 32).toInt = 1 := rfl
  unfold used
  rw [if_neg (not_lt.2 h), BitVec.toInt_sub, hone, Int.bmod_eq_of_le] <;> omega

/-- The most negative width wraps around. -/
theorem toInt_used_min (h : size.toInt = -2 ^ 31) : (used size).toInt = 2 ^ 31 - 1 := by
  have hmin : size = BitVec.intMin 32 := BitVec.eq_of_toInt_eq (by rw [h]; rfl)
  rw [hmin]
  rfl

/-- Where the width does not wrap around, one loop pads, by what is left of it. -/
theorem pads_of_fits (hsize : size.toInt = r) (hfits : -2 ^ 31 ≤ r - loops type) : pads size type =
    if Has type LEFT then (0, 0, r.toNat) else if Has type ZEROPAD then (0, r.toNat, 0) else (r.toNat, 0, 0) := by
  have hused : -2 ^ 31 ≤ r - 1 → (used size).toInt ≤ -1 ∧ min (r - 1) (-1) ≤ (used size).toInt := by
    intro hlow
    rcases lt_or_ge 0 size.toInt with hpos | hneg
    · rw [toInt_used_of_pos hpos]
      omega
    · rw [toInt_used (by omega) hneg]
      omega
  unfold loops at hfits
  unfold pads
  rw [hsize]
  split_ifs at hfits ⊢ with hleft hzero
  · rfl
  · obtain ⟨hneg, -⟩ := hused hfits
    rw [Int.toNat_of_nonpos (by omega : (used size).toInt ≤ 0)]
  · obtain ⟨hneg, hge⟩ := hused (by omega)
    have htwice : (used (used size)).toInt ≤ 0 := by
      rw [toInt_used (by omega) (by omega)]
      omega
    rw [Int.toNat_of_nonpos htwice, Int.toNat_of_nonpos (by omega : (used size).toInt ≤ 0)]

/-- Where it wraps around, some loop pads, though nothing is left of the width. -/
theorem pads_of_wraps (hsize : size.toInt = r.bmod (2 ^ 32)) (hlow : -2 ^ 31 - 1 ≤ r)
    (hwraps : r - loops type < -2 ^ 31) :
    0 < (pads size type).1 + (pads size type).2.1 + (pads size type).2.2 := by
  have hcase : r = -2 ^ 31 - 1 ∧ 0 < size.toInt ∨ r = -2 ^ 31 ∧ size.toInt = -2 ^ 31 ∨
      r = -2 ^ 31 + 1 ∧ size.toInt = -2 ^ 31 + 1 := by
    have hle : loops type ≤ 2 := by
      unfold loops
      split_ifs <;> decide
    obtain h | h | h : r = -2 ^ 31 - 1 ∨ r = -2 ^ 31 ∨ r = -2 ^ 31 + 1 := by omega
    all_goals
      rw [h] at hsize
      rw [hsize, h]
      decide
  unfold loops at hwraps
  unfold pads
  split_ifs at hwraps ⊢ with hleft hzero
  · dsimp only
    omega
  · dsimp only
    rcases hcase with ⟨-, hpos⟩ | ⟨-, hmin⟩ | ⟨hr, -⟩
    · omega
    · rw [toInt_used_min hmin]
      omega
    · omega
  · dsimp only
    rcases hcase with ⟨-, hpos⟩ | ⟨-, hmin⟩ | ⟨-, hnext⟩
    · omega
    · rw [toInt_used_min hmin]
      omega
    · have hmin : (used size).toInt = -2 ^ 31 := by
        rw [toInt_used (by omega) (by omega)]
        omega
      rw [toInt_used_min hmin]
      omega

end Pads

/-! ## `number` -/

/-- What `number` stores, with a width `size` behind the digits that is the room, or has wrapped around. -/
def text (num base size precision type : BitVec 32) : List Byte :=
  List.replicate (pads size type).1 (chr ' ') ++ signText num type ++ specialText base type ++
    List.replicate (pads size type).2.1 (if Has type ZEROPAD ∧ ¬ Has type LEFT then chr '0' else chr ' ') ++
    List.replicate (max precision.toInt (numDigits num base type) - numDigits num base type).toNat (chr '0') ++
    ((figures base.toNat (value num type).natAbs).map (digit type)).reverse ++
    List.replicate (pads size type).2.2 (chr ' ')

theorem fill_eq (num type : BitVec 32) {base : BitVec 32} (hlow : 2 ≤ base.toNat) (hhigh : base.toNat ≤ 36) :
    fill (digitsOf type) base (signOf num type).2 =
      .ok ((figures base.toNat (value num type).natAbs).map (digit type)) := by
  rw [← toNat_signOf]
  unfold fill figures
  by_cases h0 : (signOf num type).2 = 0
  · have hzero : (signOf num type).2.toNat = 0 := by
      rw [h0]
      rfl
    rw [if_pos h0, if_pos hzero, List.map_singleton, digit_zero]
  · have hne : (signOf num type).2.toNat ≠ 0 := fun hz => h0 (BitVec.eq_of_toNat_eq hz)
    have hle := length_digits_le hlow (signOf num type).2
    rw [if_neg h0, if_neg hne, convert_eq type hlow hhigh _ _ (by simp only [List.length_nil]; omega)]
    rfl

/-- `number` for a base that it takes. -/
theorem number_bind (str : List Byte) (num size precision type : BitVec 32) {base : BitVec 32}
    (hbase : 2 ≤ base.toInt ∧ base.toInt ≤ 36) : number str num base size precision type =
    (fill (digitsOf type) base (signOf num (adjusted type)).2).bind fun tmp =>
      let precision := if precision.toInt < tmp.length then BitVec.ofNat 32 tmp.length else precision
      .ok (some (layout str tmp (digitsOf type) (signOf num (adjusted type)).1 base
        (reserve (signOf num (adjusted type)).1 base size (adjusted type) - precision) precision
        (adjusted type))) := by
  have hguard : ¬ (base.toInt < 2 ∨ 36 < base.toInt) := by omega
  unfold number
  rw [if_neg hguard]
  rfl

theorem numDigits_le (num type base : BitVec 32) (hbase : 2 ≤ base.toInt ∧ base.toInt ≤ 36) :
    (2 ≤ base.toNat ∧ base.toNat ≤ 36) ∧ numDigits num base type ≤ 32 := by
  have hb : 2 ≤ base.toNat ∧ base.toNat ≤ 36 := by
    have hcond := BitVec.toInt_eq_toNat_cond base
    have hlt := base.isLt
    split at hcond <;> omega
  unfold numDigits
  rw [← toNat_signOf]
  exact ⟨hb, length_figures_le hb.1 _⟩

/-- `number` ends, with no more than 36 digits in `tmp`. -/
theorem number_eq (str : List Byte) (num type base : BitVec 32) {size precision : BitVec 32}
    (hbase : 2 ≤ base.toInt ∧ base.toInt ≤ 36) (hsize : |size.toInt| < 2 ^ 30)
    (hprec : |precision.toInt| < 2 ^ 30) : ∃ left : BitVec 32,
    left.toInt = (room num base size precision type).bmod (2 ^ 32) ∧
      number str num base size precision type = .ok (some (str ++ text num base left precision type)) := by
  obtain ⟨hb, hlen⟩ := numDigits_le num type base hbase
  obtain ⟨hplow, hphigh⟩ := abs_lt.1 hprec
  -- The precision is at least their number.
  have hP : (if precision.toInt < numDigits num base type then BitVec.ofNat 32 (numDigits num base type)
      else precision).toInt = max precision.toInt (numDigits num base type) := by
    split
    · rw [BitVec.toInt_ofNat', Int.bmod_eq_of_le] <;> omega
    · omega
  refine ⟨reserve (signOf num type).1 base size type - (if precision.toInt < numDigits num base type then
    BitVec.ofNat 32 (numDigits num base type) else precision), ?_, ?_⟩
  · rw [BitVec.toInt_sub, toInt_reserve num base size type hsize, hP]
    unfold room needed
    congr 1
    omega
  · have hmap : ((figures base.toNat (value num type).natAbs).map (digit type)).length =
        numDigits num base type := List.length_map _
    rw [number_bind str num size precision type hbase, signOf_adjusted, reserve_adjusted,
      fill_eq num type hb.1 hb.2]
    dsimp only [Except.bind]
    rw [hmap, layout_eq _ _ _ _ _ _ _ _ (by omega), hmap, hP, pads_adjusted, signText_eq,
      if_congr (has_adjusted type rfl) rfl rfl, specialText_eq,
      if_congr (has_adjusted_zeropad type) rfl rfl]
    rfl

/-! ## What the text is -/

section Text

variable {num base size precision type left : BitVec 32}

theorem length_text (num base left precision type : BitVec 32) :
    ((text num base left precision type).length : ℤ) =
      ((pads left type).1 + (pads left type).2.1 + (pads left type).2.2 : ℕ) + needed num base precision type := by
  have hmap : (figures base.toNat (value num type).natAbs).length = numDigits num base type := rfl
  unfold text needed
  simp only [List.length_append, List.length_replicate, List.length_reverse, List.length_map, hmap]
  omega

/-- Zeros in front of the digits do not change what they denote. -/
theorem map_zeros_figures (num base type : BitVec 32) (z : ℕ) :
    (List.replicate z 0 ++ (figures base.toNat (value num type).natAbs).reverse).map (digit type) =
      List.replicate z (chr '0') ++ ((figures base.toNat (value num type).natAbs).map (digit type)).reverse := by
  rw [List.map_append, List.map_replicate, digit_zero, List.map_reverse]

theorem shows_of_parts (lead z trail : ℕ) (hbase : 2 ≤ base.toNat) {out : List Byte}
    (hout : out = List.replicate lead (chr ' ') ++ signText num type ++ specialText base type ++
      (List.replicate z (chr '0') ++ ((figures base.toNat (value num type).natAbs).map (digit type)).reverse) ++
      List.replicate trail (chr ' '))
    (hlead : Has type LEFT → lead = 0) (htrail : ¬ Has type LEFT → trail = 0)
    (hz : precision.toInt ≤ z + numDigits num base type)
    (hlen : (out.length : ℤ) = max size.toInt (needed num base precision type)) :
    Shows num base size precision type out := by
  refine ⟨hlen, lead, trail, List.replicate z 0 ++ (figures base.toNat (value num type).natAbs).reverse, ?_,
    hlead, htrail, ?_, ?_, ?_, ?_⟩
  · rw [map_zeros_figures]
    exact hout
  · exact List.append_ne_nil_of_right_ne_nil _ (by
      rw [ne_eq, List.reverse_eq_nil_iff]
      exact List.ne_nil_of_length_pos length_figures)
  · intro d hd
    rcases List.mem_append.1 hd with hd | hd
    · rw [List.eq_of_mem_replicate hd]
      omega
    · exact figures_lt hbase d (List.mem_reverse.1 hd)
  · rw [List.length_append, List.length_replicate, List.length_reverse]
    exact hz
  · rw [List.reverse_append, List.reverse_reverse, List.reverse_replicate,
      Nat.ofDigits_append_replicate_zero, ofDigits_figures]
    exact sign_mul_value num type

/-- The text shows the number just where the width does not wrap around. -/
theorem shows_text_iff (hbase : 2 ≤ base.toNat) (hsize : |size.toInt| < 2 ^ 30)
    (hprec : |precision.toInt| < 2 ^ 30) (hlen : numDigits num base type ≤ 32)
    (hleft : left.toInt = (room num base size precision type).bmod (2 ^ 32)) :
    Shows num base size precision type (text num base left precision type) ↔
      Fits num base size precision type := by
  obtain ⟨hslow, hshigh⟩ := abs_lt.1 hsize
  obtain ⟨hplow, hphigh⟩ := abs_lt.1 hprec
  have hpos : 0 < numDigits num base type := length_figures
  have hsign : (signText num type).length ≤ 1 := by
    unfold signText
    split_ifs <;> decide
  have hspecial : (specialText base type).length ≤ 2 := by
    unfold specialText
    split_ifs <;> simp
  have hroom : room num base size precision type = size.toInt - needed num base precision type := rfl
  have hneeded : needed num base precision type = (signText num type).length +
    (specialText base type).length + max precision.toInt (numDigits num base type) := rfl
  constructor
  · intro hshows
    by_contra hfits
    have hwraps : room num base size precision type - loops type < -2 ^ 31 := not_le.1 hfits
    have hpads := pads_of_wraps hleft (by omega) hwraps
    have hlength := hshows.length
    have hle : loops type ≤ 2 := by
      unfold loops
      split_ifs <;> decide
    rw [length_text] at hlength
    omega
  · intro hfits
    have hloops : 0 ≤ loops type := by
      unfold loops
      split_ifs <;> decide
    have hbound : -2 ^ 31 ≤ room num base size precision type - loops type := hfits
    have htoInt : left.toInt = room num base size precision type := by
      rw [hleft, Int.bmod_eq_of_le] <;> omega
    have hpads := pads_of_fits htoInt hfits
    have hlength := length_text num base left precision type
    rw [hpads] at hlength
    have hfill : precision.toInt ≤
        (max precision.toInt (numDigits num base type) - numDigits num base type).toNat +
          numDigits num base type := by omega
    by_cases hL : Has type LEFT
    · rw [if_pos hL] at hpads hlength
      refine shows_of_parts 0 _ (room num base size precision type).toNat hbase ?_ (fun _ => rfl)
        (fun h => absurd hL h) hfill ?_
      · unfold text
        rw [hpads]
        simp
      · dsimp only at hlength
        omega
    · rw [if_neg hL] at hpads hlength
      by_cases hzero : Has type ZEROPAD
      · rw [if_pos hzero] at hpads hlength
        refine shows_of_parts 0 ((room num base size precision type).toNat +
          (max precision.toInt (numDigits num base type) - numDigits num base type).toNat) 0 hbase ?_
          (fun _ => rfl) (fun _ => rfl) (by push_cast; omega) ?_
        · unfold text
          rw [hpads, if_pos ⟨hzero, hL⟩, List.replicate_add]
          simp
        · dsimp only at hlength
          omega
      · rw [if_neg hzero] at hpads hlength
        refine shows_of_parts (room num base size precision type).toNat _ 0 hbase ?_
          (fun h => absurd h hL) (fun _ => rfl) hfill ?_
        · unfold text
          rw [hpads]
          simp
        · dsimp only at hlength
          omega

end Text

/-- `number` ends, without storing behind `tmp`, and shows the number just where the width does not wrap
around. -/
theorem number_shows (str : List Byte) (num base size precision type : BitVec 32)
    (hbase : 2 ≤ base.toInt ∧ base.toInt ≤ 36) (hsize : |size.toInt| < 2 ^ 30)
    (hprec : |precision.toInt| < 2 ^ 30) :
    ∃ out, number str num base size precision type = .ok (some (str ++ out)) ∧
      (Shows num base size precision type out ↔ Fits num base size precision type) := by
  obtain ⟨left, hleft, hnumber⟩ := number_eq str num type base hbase hsize hprec
  obtain ⟨hb, hlen⟩ := numDigits_le num type base hbase
  exact ⟨_, hnumber, shows_text_iff hb.1 hsize hprec hlen hleft⟩

/-- `-42` with five characters and three digits. -/
theorem number_shows_negative : ∃ out, number [] (-42) 10 5 3 SIGN = .ok (some ([] ++ out)) ∧
    (Shows (-42) 10 5 3 SIGN out ↔ Fits (-42) 10 5 3 SIGN) :=
  number_shows [] (-42) 10 5 3 SIGN (by decide) (by decide) (by decide)

/-- A width that is too negative wraps around when the sign, `0X` and the precision are taken off, and then
pads: 3221225473 characters, where 1073741826 are needed. -/
theorem number_wraps :
    |(-(2 ^ 30 - 1) : BitVec 32).toInt| < 2 ^ 30 ∧ |(2 ^ 30 - 1 : BitVec 32).toInt| < 2 ^ 30 ∧
    ∃ out, number [] 0 16 (-(2 ^ 30 - 1)) (2 ^ 30 - 1) (PLUS + SPECIAL) = .ok (some ([] ++ out)) ∧
      (out.length : ℤ) = 3221225473 ∧ needed 0 16 (2 ^ 30 - 1) (PLUS + SPECIAL) = 1073741826 ∧
      ¬ Shows 0 16 (-(2 ^ 30 - 1)) (2 ^ 30 - 1) (PLUS + SPECIAL) out := by
  have hsize : |(-(2 ^ 30 - 1) : BitVec 32).toInt| < 2 ^ 30 := by decide
  have hprec : |(2 ^ 30 - 1 : BitVec 32).toInt| < 2 ^ 30 := by decide
  obtain ⟨left, hleft, hnumber⟩ := number_eq [] 0 (PLUS + SPECIAL) 16 (by decide) hsize hprec
  obtain ⟨hb, hlen⟩ := numDigits_le 0 (PLUS + SPECIAL) 16 (by decide)
  have hpads : pads left (PLUS + SPECIAL) = (2147483647, 0, 0) := by
    have hvalue : left = 0x7fffffff := by
      apply BitVec.eq_of_toInt_eq
      rw [hleft]
      decide
    rw [hvalue]
    decide
  have hneeded : needed 0 16 (2 ^ 30 - 1) (PLUS + SPECIAL) = 1073741826 := by decide
  refine ⟨hsize, hprec, _, hnumber, ?_, hneeded, fun hshows => ?_⟩
  · rw [length_text, hpads, hneeded]
    rfl
  · have hfits := (shows_text_iff hb.1 hsize hprec hlen hleft).1 hshows
    revert hfits
    decide

end Linux011.Vsprintf
