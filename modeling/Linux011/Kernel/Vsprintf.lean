import Linux011.Kernel.Format
import Linux011.Lib.Cursor

/-!
# `vsprintf`

`vsprintf` and `skip_atoi` of `kernel/vsprintf.c`. The format is a text that nothing stores to, and the cursor
`fmt` is an index of it. The arguments are the words that `va_arg` takes one after the other.

1. `skipAtoi`, the stages of a conversion (`scanFlags`, `getFieldWidth`, `getPrecision`, `getQualifier`,
   `switch`), `pass` and `vsprintf`.
2. `Spec.Done`: what a pass is to do for a specification. `Follows`: a run treats the format piece by piece.
3. What each stage does at a text: `scanFlags_eq`, `getFieldWidth_eq` and so on; `switch_takes`.
4. `pass_spec`: a pass does what it should just for a `Plain` specification.
5. `loop_ok`, `loop_follows` and `vsprintf_follows`.
-/

namespace Linux011.Vsprintf

open Bytes (Byte Memory StringAt)
open Cursor (At peek)
open Countdown

/-- The cursor, how many arguments have been taken, the memory that they point to, and what has been
stored in `buf`. -/
structure State where
  fmt : ℕ
  taken : ℕ
  mem : Memory
  str : List Byte

/-- The variables of a conversion. -/
structure Conversion where
  fmt : ℕ
  taken : ℕ
  flags : BitVec 32
  fieldWidth : BitVec 32
  precision : BitVec 32

/-- `*fmt`. -/
def fetch (text : List Byte) (fmt : ℕ) : Except Fault Byte :=
  match peek 0 text fmt with
  | some c => .ok c
  | none => .error .format

/-! ## The stages of a conversion -/

/-- The number from `fmt` on, in an `int` that wraps around, and the cursor behind it. -/
def skipAtoi (text : List Byte) (fmt : ℕ) (i : BitVec 32) : Except Fault (BitVec 32 × ℕ) :=
  match h : peek 0 text fmt with
  | none => .error .format
  | some c =>
    if isDigit c then skipAtoi text (fmt + 1) (i * 10 + c.setWidth 32 - (chr '0').setWidth 32)
    else .ok (i, fmt)
termination_by text.length + 1 - fmt
decreasing_by
  have hle := Cursor.le_of_peek h
  omega

/-- From `repeat` on: the flags, and the cursor behind them. -/
def scanFlags (text : List Byte) (fmt : ℕ) (flags : BitVec 32) : Except Fault (BitVec 32 × ℕ) :=
  match _h : peek 0 text (fmt + 1) with
  | none => .error .format
  | some c =>
    match flagOf c with
    | some flag => scanFlags text (fmt + 1) (flags ||| flag)
    | none => .ok (flags, fmt + 1)
termination_by text.length + 1 - fmt
decreasing_by
  have hle := Cursor.le_of_peek _h
  omega

def getFieldWidth (args : ℕ → BitVec 32) (text : List Byte) (v : Conversion) : Except Fault Conversion := do
  let c ← fetch text v.fmt
  if isDigit c then
    let (i, fmt) ← skipAtoi text v.fmt 0
    return { v with fieldWidth := i, fmt := fmt }
  else if c = chr '*' then
    -- The cursor stays at the star.
    let fieldWidth := args v.taken
    if fieldWidth.toInt < 0 then
      return { v with fieldWidth := -fieldWidth, flags := v.flags ||| LEFT, taken := v.taken + 1 }
    else return { v with fieldWidth := fieldWidth, taken := v.taken + 1 }
  else return { v with fieldWidth := -1 }

/-- What is behind the dot. -/
def getAmount (args : ℕ → BitVec 32) (text : List Byte) (v : Conversion) : Except Fault Conversion := do
  let c ← fetch text v.fmt
  if isDigit c then
    let (i, fmt) ← skipAtoi text v.fmt 0
    return { v with precision := i, fmt := fmt }
  else if c = chr '*' then return { v with precision := args v.taken, taken := v.taken + 1 }
  else return { v with precision := -1 }

def getPrecision (args : ℕ → BitVec 32) (text : List Byte) (v : Conversion) : Except Fault Conversion := do
  let c ← fetch text v.fmt
  if c = chr '.' then
    let v ← getAmount args text { v with fmt := v.fmt + 1 }
    if v.precision.toInt < 0 then return { v with precision := 0 } else return v
  else return { v with precision := -1 }

def getQualifier (text : List Byte) (v : Conversion) : Except Fault Conversion := do
  let c ← fetch text v.fmt
  if isQualifier c then return { v with fmt := v.fmt + 1 } else return v

/-- `strlen`: `scasb` counts `ecx` down from `0xffffffff`, and the NUL is counted. -/
def strlen (mem : Memory) (s : BitVec 32) : BitVec 32 :=
  match Bytes.scan mem (2 ^ 32 - 1) s with
  | some n => BitVec.ofNat 32 (n - 1)
  | none => ~~~0 - 1

def putChar (str : List Byte) (c : Byte) (fieldWidth flags : BitVec 32) : List Byte :=
  let (fieldWidth, str) := if ¬ Has flags LEFT then before 0 (chr ' ') fieldWidth str else (fieldWidth, str)
  let str := str ++ [c]
  (before 0 (chr ' ') fieldWidth str).2

def putString (str : List Byte) (mem : Memory) (s fieldWidth precision flags : BitVec 32) : List Byte :=
  let len := strlen mem s
  let len := if precision.toInt < 0 then len else if precision.toInt < len.toInt then precision else len
  let (fieldWidth, str) := if ¬ Has flags LEFT then after len (chr ' ') fieldWidth str else (fieldWidth, str)
  let str := str ++ Bytes.readBytes mem s len.toInt.toNat
  (after len (chr ' ') fieldWidth str).2

def putNumber (s : State) (num base fieldWidth precision flags : BitVec 32) : Except Fault State := do
  match ← number s.str num base fieldWidth precision flags with
  | some str => return { s with str := str }
  | none => throw .null

/-- The last stage, for the letter `c`. -/
def switch (args : ℕ → BitVec 32) (c : Byte) (flags fieldWidth precision : BitVec 32) (s : State) :
    Except Fault State :=
  let arg := args s.taken
  let next := { s with taken := s.taken + 1 }
  if c = chr 'c' then .ok { next with str := putChar s.str (arg.setWidth 8) fieldWidth flags }
  else if c = chr 's' then .ok { next with str := putString s.str s.mem arg fieldWidth precision flags }
  else if c = chr 'o' then putNumber next arg 8 fieldWidth precision flags
  else if c = chr 'p' then
    if fieldWidth = -1 then putNumber next arg 16 8 precision (flags ||| ZEROPAD)
    else putNumber next arg 16 fieldWidth precision flags
  else if c = chr 'x' then putNumber next arg 16 fieldWidth precision (flags ||| SMALL)
  else if c = chr 'X' then putNumber next arg 16 fieldWidth precision flags
  else if c = chr 'd' ∨ c = chr 'i' then putNumber next arg 10 fieldWidth precision (flags ||| SIGN)
  else if c = chr 'u' then putNumber next arg 10 fieldWidth precision flags
  else if c = chr 'n' then .ok { next with mem := Bytes.putLong s.mem arg (BitVec.ofNat 32 s.str.length) }
  else
    let str := if c ≠ chr '%' then s.str ++ [chr '%'] else s.str
    if c ≠ 0 then .ok { s with str := str ++ [c] } else .ok { s with str := str, fmt := s.fmt - 1 }

/-! ## `vsprintf` -/

/-- The qualifier and the letter, and `++fmt` behind them. -/
def finish (args : ℕ → BitVec 32) (text : List Byte) (v : Conversion) (s : State) : Except Fault State := do
  let v ← getQualifier text v
  let c ← fetch text v.fmt
  let s ← switch args c v.flags v.fieldWidth v.precision { s with fmt := v.fmt, taken := v.taken }
  return { s with fmt := s.fmt + 1 }

/-- A pass of the loop where `*fmt` is `c`. -/
def pass (args : ℕ → BitVec 32) (text : List Byte) (c : Byte) (s : State) : Except Fault State := do
  if c ≠ chr '%' then return { s with str := s.str ++ [c], fmt := s.fmt + 1 }
  else
    let (flags, fmt) ← scanFlags text s.fmt 0
    let v ← getFieldWidth args text ⟨fmt, s.taken, flags, -1, -1⟩
    let v ← getPrecision args text v
    finish args text v s

/-- The loop, for fewer than so many passes. -/
def loop (args : ℕ → BitVec 32) (text : List Byte) : ℕ → State → Except Fault State
  | 0, _ => .error .endless
  | n + 1, s => do
    let c ← fetch text s.fmt
    if c = 0 then return s else loop args text n (← pass args text c s)

/-- The result, and the state afterwards. -/
def vsprintf (fuel : ℕ) (args : ℕ → BitVec 32) (text : List Byte) (mem : Memory) :
    Except Fault (BitVec 32 × State) := do
  let s ← loop args text fuel ⟨0, 0, mem, []⟩
  return (BitVec.ofNat 32 s.str.length, { s with str := s.str ++ [0] })

/-! ## What a pass is to do -/

/-- Blanks up to the width, on the side that `LEFT` leaves. -/
def padTo (flags w : BitVec 32) (t : List Byte) : List Byte :=
  if Has flags LEFT then t ++ List.replicate (w.toInt - t.length).toNat (chr ' ')
  else List.replicate (w.toInt - t.length).toNat (chr ' ') ++ t

/-- The base that a letter asks for, and the flag. -/
def radix (c : Byte) : BitVec 32 × BitVec 32 :=
  if c = chr 'o' then (8, 0)
  else if c = chr 'd' ∨ c = chr 'i' then (10, SIGN)
  else if c = chr 'u' then (10, 0)
  else if c = chr 'x' then (16, SMALL)
  else (16, 0)

/-- `arg` is formatted for the letter `c`, with the width `w` and the precision `p`. A pointer without a width
has eight characters, with zeros. -/
def Formats (c : Byte) (flags w p arg : BitVec 32) (s s' : State) : Prop :=
  if c = chr 'c' then s'.mem = s.mem ∧ s'.str = s.str ++ padTo flags w [arg.setWidth 8]
  else if c = chr 's' then s'.mem = s.mem ∧ ∀ t, StringAt s.mem arg t → t.length < 2 ^ 31 →
    s'.str = s.str ++ padTo flags w (if p.toInt < 0 then t else t.take p.toInt.toNat)
  else if c = chr 'n' then s'.str = s.str ∧ s'.mem = Bytes.putLong s.mem arg (BitVec.ofNat 32 s.str.length)
  else if c = chr 'p' ∧ w = -1 then
    s'.mem = s.mem ∧ number s.str arg 16 8 p (flags ||| ZEROPAD) = .ok (some s'.str)
  else s'.mem = s.mem ∧ number s.str arg (radix c).1 w p (flags ||| (radix c).2) = .ok (some s'.str)

namespace Spec

/-- The flags that are written. -/
def flagBits (sp : Spec) : BitVec 32 := sp.flags.foldl (fun flags c => flags ||| (flagOf c).getD 0) 0

/-- The flags and the width that are given, where `arg` is the argument for a star. -/
def GivesWidth (sp : Spec) (arg flags w : BitVec 32) : Prop :=
  match sp.width with
  | .absent => flags = sp.flagBits ∧ w = -1
  | .number digits => flags = sp.flagBits ∧ w.toInt = numeral digits
  | .star => if arg.toInt < 0 then flags = sp.flagBits ||| LEFT ∧ w = -arg else flags = sp.flagBits ∧ w = arg

/-- The precision that is given. -/
def GivesPrecision (sp : Spec) (arg p : BitVec 32) : Prop :=
  match sp.precision with
  | none => p = -1
  | some .absent => p = 0
  | some (.number digits) => p.toInt = numeral digits
  | some .star => p = if arg.toInt < 0 then 0 else arg

/-- An argument is taken for each star and then one for the letter, which is formatted as it was asked for. -/
structure Done (sp : Spec) (args : ℕ → BitVec 32) (s s' : State) : Prop where
  stars : ¬ sp.Takes → s'.taken = s.taken + sp.stars
  letter : sp.Takes → s'.taken = s.taken + sp.stars + 1
  formats : ∀ c ∈ letters, sp.letter = some c → ∃ flags w p, sp.GivesWidth (args s.taken) flags w ∧
    sp.GivesPrecision (args (s.taken + sp.width.stars)) p ∧
    Formats c flags w p (args (s.taken + sp.stars)) s s'

/-- Nothing is behind a star, and the numbers for an argument are those of an `int`. -/
structure Plain (sp : Spec) : Prop where
  width : sp.width = .star → sp.precision = none ∧ sp.qualifier = none ∧ sp.letter = none
  precision : sp.precision = some .star → sp.qualifier = none ∧ sp.letter = none
  widthNumber : sp.Takes → ∀ digits, sp.width = .number digits → numeral digits < 2 ^ 31
  precisionNumber : sp.Takes → ∀ digits, sp.precision = some (.number digits) → numeral digits < 2 ^ 31

end Spec

namespace Piece

/-- What is to be done for a piece. -/
def Done (args : ℕ → BitVec 32) (s s' : State) : Piece → Prop
  | literal c => s'.taken = s.taken ∧ s'.mem = s.mem ∧ s'.str = s.str ++ [c]
  | spec sp => sp.Done args s s'

def Plain : Piece → Prop
  | literal _ => True
  | spec sp => sp.Plain

end Piece

/-- The run treats the pieces one after the other, each of them in a pass of its own. -/
def Follows (args : ℕ → BitVec 32) (text : List Byte) : List Piece → State → State → Prop
  | [], s, s' => s' = s
  | p :: ps, s, s' => ∃ c s₁, fetch text s.fmt = .ok c ∧ pass args text c s = .ok s₁ ∧
      s₁.fmt = s.fmt + p.text.length ∧ p.Done args s s₁ ∧ Follows args text ps s₁ s'

/-! ## The stages at a text -/

section Stages

variable {args : ℕ → BitVec 32} {text t : List Byte} {fmt : ℕ} {c : Byte} {v : Conversion}

theorem ok_bind {α β : Type} (a : α) (f : α → Except Fault β) : (Except.ok a >>= f) = f a := rfl

theorem fetch_at (h : At text fmt t) : fetch text fmt = .ok (t.headD 0) := by
  unfold fetch
  rw [h.peek]

theorem scanFlags_eq (h : At text fmt (c :: t)) (flags : BitVec 32) : scanFlags text fmt flags =
    .ok ((t.takeWhile isFlag).foldl (fun flags c => flags ||| (flagOf c).getD 0) flags,
      fmt + 1 + (t.takeWhile isFlag).length) := by
  induction t generalizing fmt c flags with
  | nil =>
    rw [scanFlags]
    split
    · rename_i hnone
      rw [h.next.peek] at hnone
      cases hnone
    · rename_i c' hsome
      rw [h.next.peek] at hsome
      obtain rfl : 0 = c' := Option.some.inj hsome
      rfl
  | cons d t ih =>
    rw [scanFlags]
    split
    · rename_i hnone
      rw [h.next.peek] at hnone
      cases hnone
    · rename_i c' hsome
      rw [h.next.peek] at hsome
      obtain rfl : d = c' := Option.some.inj hsome
      cases hflag : flagOf d with
      | none =>
        have hd : isFlag d = false := by
          unfold isFlag
          rw [hflag]
          rfl
        rw [List.takeWhile_cons, hd]
        rfl
      | some flag =>
        have hd : isFlag d = true := by
          unfold isFlag
          rw [hflag]
          rfl
        rw [List.takeWhile_cons, if_pos hd, List.foldl_cons, hflag, List.length_cons]
        dsimp only
        rw [ih h.next]
        congr 2
        omega

theorem skipAtoi_eq (h : At text fmt t) (n : ℕ) : skipAtoi text fmt (BitVec.ofNat 32 n) =
    .ok (BitVec.ofNat 32 ((t.takeWhile isDigit).foldl (fun n c => 10 * n + (c.toNat - (chr '0').toNat)) n),
      fmt + (t.takeWhile isDigit).length) := by
  induction t generalizing fmt n with
  | nil =>
    rw [skipAtoi]
    split
    · rename_i hnone
      rw [h.peek] at hnone
      cases hnone
    · rename_i c hsome
      rw [h.peek] at hsome
      obtain rfl : 0 = c := Option.some.inj hsome
      rfl
  | cons d t ih =>
    rw [skipAtoi]
    split
    · rename_i hnone
      rw [h.peek] at hnone
      cases hnone
    · rename_i c hsome
      rw [h.peek] at hsome
      obtain rfl : d = c := Option.some.inj hsome
      cases hd : isDigit d with
      | false =>
        rw [List.takeWhile_cons, hd]
        rfl
      | true =>
        have hle : (chr '0').toNat ≤ d.toNat := by
          unfold isDigit at hd
          exact (of_decide_eq_true hd).1
        have hstep : BitVec.ofNat 32 n * 10 + d.setWidth 32 - (chr '0').setWidth 32 =
            BitVec.ofNat 32 (10 * n + (d.toNat - (chr '0').toNat)) := by
          have h48 : (chr '0').toNat = 48 := rfl
          have h10 : (10 : BitVec 32).toNat = 10 := rfl
          have hlt := d.isLt
          rw [h48] at hle
          apply BitVec.eq_of_toNat_eq
          simp only [BitVec.toNat_sub, BitVec.toNat_add, BitVec.toNat_mul, BitVec.toNat_ofNat,
            BitVec.toNat_setWidth, h48, h10]
          omega
        rw [List.takeWhile_cons, if_pos hd, List.foldl_cons, List.length_cons, if_pos rfl, hstep, ih h.next]
        congr 2
        omega

/-- The width is got. The cursor is behind it, but for a star it stays. -/
def Conversion.withWidth (args : ℕ → BitVec 32) (v : Conversion) : Amount → Conversion
  | .absent => { v with fieldWidth := -1 }
  | .number digits =>
    { v with fieldWidth := BitVec.ofNat 32 (numeral digits), fmt := v.fmt + digits.length }
  | .star =>
    if (args v.taken).toInt < 0 then
      { v with fieldWidth := -args v.taken, flags := v.flags ||| LEFT, taken := v.taken + 1 }
    else { v with fieldWidth := args v.taken, taken := v.taken + 1 }

theorem getFieldWidth_eq (h : At text v.fmt t) :
    getFieldWidth args text v = .ok (v.withWidth args (amount t).1) := by
  unfold getFieldWidth amount
  rw [fetch_at h, ok_bind]
  by_cases hdigit : isDigit (t.headD 0) = true
  · have hzero : (0 : BitVec 32) = BitVec.ofNat 32 0 := rfl
    rw [if_pos hdigit, if_pos hdigit, hzero, skipAtoi_eq h, ok_bind]
    rfl
  · rw [if_neg hdigit, if_neg hdigit]
    by_cases hstar : t.headD 0 = chr '*'
    · rw [if_pos hstar, if_pos hstar]
      unfold Conversion.withWidth
      dsimp only
      split <;> rfl
    · rw [if_neg hstar, if_neg hstar]
      rfl

/-- What is behind the dot is got. -/
def Conversion.withAmount (args : ℕ → BitVec 32) (v : Conversion) : Amount → Conversion
  | .absent => { v with precision := -1 }
  | .number digits =>
    { v with precision := BitVec.ofNat 32 (numeral digits), fmt := v.fmt + digits.length }
  | .star => { v with precision := args v.taken, taken := v.taken + 1 }

theorem getAmount_eq (h : At text v.fmt t) :
    getAmount args text v = .ok (v.withAmount args (amount t).1) := by
  unfold getAmount amount
  rw [fetch_at h, ok_bind]
  by_cases hdigit : isDigit (t.headD 0) = true
  · have hzero : (0 : BitVec 32) = BitVec.ofNat 32 0 := rfl
    rw [if_pos hdigit, if_pos hdigit, hzero, skipAtoi_eq h, ok_bind]
    rfl
  · rw [if_neg hdigit, if_neg hdigit]
    by_cases hstar : t.headD 0 = chr '*'
    · rw [if_pos hstar, if_pos hstar]
      rfl
    · rw [if_neg hstar, if_neg hstar]
      rfl

/-- A negative precision is none at all. -/
def Conversion.clamp (v : Conversion) : Conversion :=
  { v with precision := if v.precision.toInt < 0 then 0 else v.precision }

def Conversion.withPrecision (args : ℕ → BitVec 32) (v : Conversion) : Option Amount → Conversion
  | none => { v with precision := -1 }
  | some a => (({ v with fmt := v.fmt + 1 } : Conversion).withAmount args a).clamp

theorem getPrecision_eq (h : At text v.fmt t) :
    getPrecision args text v = .ok (v.withPrecision args (precisionOf t).1) := by
  unfold getPrecision precisionOf
  rw [fetch_at h, ok_bind]
  by_cases hdot : t.headD 0 = chr '.'
  · rw [if_pos hdot, if_pos hdot]
    cases t with
    | nil => exact absurd hdot (by decide)
    | cons c t =>
      rw [getAmount_eq (v := { v with fmt := v.fmt + 1 }) h.next, ok_bind]
      unfold Conversion.withPrecision Conversion.clamp
      dsimp only [List.tail_cons]
      generalize Conversion.withAmount args _ (amount t).1 = v'
      by_cases hneg : v'.precision.toInt < 0
      · rw [if_pos hneg, if_pos hneg]
        rfl
      · rw [if_neg hneg, if_neg hneg]
        rfl
  · rw [if_neg hdot, if_neg hdot]
    rfl

theorem getQualifier_eq (h : At text v.fmt t) : getQualifier text v =
    .ok { v with fmt := v.fmt + (qualifierOf t).1.toList.length } := by
  unfold getQualifier qualifierOf
  rw [fetch_at h, ok_bind]
  by_cases hqual : isQualifier (t.headD 0) = true
  · rw [if_pos hqual, if_pos hqual]
    cases t with
    | nil => exact absurd hqual (by decide)
    | cons c t => rfl
  · rw [if_neg hqual, if_neg hqual]
    rfl

end Stages

/-! ## The letters -/

section Letters

variable {args : ℕ → BitVec 32} {c : Byte} {flags w p : BitVec 32} {s : State}

theorem number_ok (str : List Byte) (num size precision type : BitVec 32) {base : BitVec 32}
    (hbase : 2 ≤ base.toInt ∧ base.toInt ≤ 36) :
    ∃ out, number str num base size precision type = .ok (some out) := by
  obtain ⟨hb, -⟩ := numDigits_le num type base hbase
  rw [number_bind str num size precision type hbase, signOf_adjusted, fill_eq num type hb.1 hb.2]
  exact ⟨_, rfl⟩

theorem putNumber_eq (s : State) (num base fieldWidth precision flags : BitVec 32)
    (hbase : 2 ≤ base.toInt ∧ base.toInt ≤ 36) :
    ∃ out, number s.str num base fieldWidth precision flags = .ok (some out) ∧
      putNumber s num base fieldWidth precision flags = .ok { s with str := out } := by
  obtain ⟨out, hout⟩ := number_ok s.str num fieldWidth precision flags hbase
  refine ⟨out, hout, ?_⟩
  unfold putNumber
  rw [hout]
  rfl

/-- A counter of at least 0 or -1 that goes down. -/
theorem toInt_sub_one_of_le {n : BitVec 32} (h : -2 ^ 31 < n.toInt) : (n - 1).toInt = n.toInt - 1 := by
  have hmin : (BitVec.intMin 32).toInt = -2 ^ 31 := rfl
  exact toInt_sub_one (k := BitVec.intMin 32) (by omega)

theorem putChar_eq (str : List Byte) (c : Byte) (hw : -1 ≤ w.toInt) :
    putChar str c w flags = str ++ padTo flags w [c] := by
  have hzero : (0 : BitVec 32).toInt = 0 := rfl
  have hstep : (w - 1).toInt = w.toInt - 1 := toInt_sub_one_of_le (by omega)
  unfold putChar padTo
  by_cases hleft : Has flags LEFT
  · rw [if_neg (not_not.2 hleft), if_pos hleft]
    dsimp only
    rw [before_eq, hzero, hstep]
    simp
  · rw [if_pos hleft, if_neg hleft, before_eq 0 (chr ' ') w str, hzero, hstep]
    dsimp only
    by_cases hpos : 0 < w.toInt - 1
    · have hnone : ((0 - 1 : BitVec 32).toInt - 0).toNat = 0 := rfl
      rw [if_pos hpos, before_eq, hzero, hnone]
      simp
    · have hnone : ((w - 1 - 1).toInt - 0).toNat = 0 := by
        rw [toInt_sub_one_of_le (by omega), hstep]
        omega
      rw [if_neg hpos, before_eq, hzero, hnone]
      simp

/-- The first characters of a string. -/
theorem readBytes_take {m : Memory} {a : BitVec 32} {t : List Byte} (h : StringAt m a t) {n : ℕ}
    (hn : n ≤ t.length) : Bytes.readBytes m a n = t.take n := by
  have hall := h.readBytes
  have htake : Bytes.readBytes m a n = (Bytes.readBytes m a (t.length + 1)).take n := by
    unfold Bytes.readBytes
    rw [← List.map_take, List.take_range, min_eq_left (by omega)]
  rw [htake, hall, List.take_append_of_le_length hn]

theorem strlen_eq {m : Memory} {a : BitVec 32} {t : List Byte} (h : StringAt m a t)
    (ht : t.length < 2 ^ 31) : (strlen m a).toInt = t.length := by
  unfold strlen
  rw [h.scan (by omega)]
  dsimp only
  rw [Nat.add_sub_cancel, BitVec.toInt_ofNat', Int.bmod_eq_of_le] <;> omega

theorem putString_eq (str : List Byte) {m : Memory} {a : BitVec 32} {t : List Byte} (h : StringAt m a t)
    (ht : t.length < 2 ^ 31) (hw : -1 ≤ w.toInt) : putString str m a w p flags =
      str ++ padTo flags w (if p.toInt < 0 then t else t.take p.toInt.toNat) := by
  have hstrlen := strlen_eq h ht
  -- What is left of the string.
  obtain ⟨len, hlen, hle, hread⟩ : ∃ len : BitVec 32, (if p.toInt < 0 then strlen m a else
      if p.toInt < (strlen m a).toInt then p else strlen m a) = len ∧ 0 ≤ len.toInt ∧
      len.toInt.toNat ≤ t.length ∧ (if p.toInt < 0 then t else t.take p.toInt.toNat) = t.take len.toInt.toNat := by
    refine ⟨_, rfl, ?_⟩
    split_ifs with hneg hlt
    · refine ⟨by omega, by omega, ?_⟩
      rw [hstrlen, Int.toNat_natCast, List.take_length]
    · exact ⟨by omega, by omega, rfl⟩
    · refine ⟨by omega, by omega, ?_⟩
      rw [hstrlen, Int.toNat_natCast, List.take_length, List.take_of_length_le (by omega)]
  have hnat : ((t.take len.toInt.toNat).length : ℤ) = len.toInt := by
    rw [List.length_take_of_le hread.1]
    omega
  have hlast : (len - 1).toInt = len.toInt - 1 := toInt_sub_one_of_le (by omega)
  have hstep : (w - 1).toInt = w.toInt - 1 := toInt_sub_one_of_le (by omega)
  unfold putString
  dsimp only
  rw [hlen, hread.2, readBytes_take h hread.1]
  unfold padTo
  rw [hnat]
  by_cases hleft : Has flags LEFT
  · rw [if_neg (not_not.2 hleft), if_pos hleft]
    dsimp only
    rw [after_eq]
    simp
  · rw [if_pos hleft, if_neg hleft, after_eq len (chr ' ') w str]
    dsimp only
    by_cases hpos : len.toInt < w.toInt
    · have hnone : ((len - 1).toInt - len.toInt).toNat = 0 := by omega
      rw [if_pos hpos, after_eq, hnone]
      simp
    · have hnone : ((w - 1).toInt - len.toInt).toNat = 0 := by omega
      rw [if_neg hpos, after_eq, hnone]
      simp

/-- A letter for a number. -/
theorem formats_number {flags' : BitVec 32} (args : ℕ → BitVec 32) (c : Byte) (flags w p base : BitVec 32) (s : State)
    (hbase : 2 ≤ base.toInt ∧ base.toInt ≤ 36)
    (hswitch : switch args c flags w p s =
      putNumber { s with taken := s.taken + 1 } (args s.taken) base w p flags')
    (hformats : ∀ s' : State, s'.mem = s.mem ∧ number s.str (args s.taken) base w p flags' = .ok (some s'.str) →
      Formats c flags w p (args s.taken) s s') :
    ∃ s', switch args c flags w p s = .ok s' ∧ s'.fmt = s.fmt ∧ s'.taken = s.taken + 1 ∧
      (-1 ≤ w.toInt → Formats c flags w p (args s.taken) s s') := by
  obtain ⟨out, hout, hput⟩ :=
    putNumber_eq { s with taken := s.taken + 1 } (args s.taken) base w p flags' hbase
  exact ⟨_, hswitch.trans hput, rfl, rfl, fun _ => hformats _ ⟨rfl, hout⟩⟩

/-- For one of the letters an argument is taken, and formatted. -/
theorem switch_takes (hc : c ∈ letters) (args : ℕ → BitVec 32) (flags w p : BitVec 32) (s : State) :
    ∃ s', switch args c flags w p s = .ok s' ∧ s'.fmt = s.fmt ∧ s'.taken = s.taken + 1 ∧
      (-1 ≤ w.toInt → Formats c flags w p (args s.taken) s s') := by
  have hflags : flags ||| 0 = flags := BitVec.or_zero
  simp only [letters, List.mem_cons, List.not_mem_nil, or_false] at hc
  rcases hc with rfl | rfl | rfl | rfl | rfl | rfl | rfl | rfl | rfl | rfl
  · exact ⟨_, rfl, rfl, rfl, fun hw => ⟨rfl, putChar_eq s.str _ hw⟩⟩
  · exact ⟨_, rfl, rfl, rfl, fun hw => ⟨rfl, fun t ht hlen => putString_eq s.str ht hlen hw⟩⟩
  · refine formats_number args (chr 'o') flags w p 8 s (by decide) ?_ fun s' h => h
    show _ = putNumber _ _ _ _ _ (flags ||| 0)
    rw [hflags]
    rfl
  · by_cases hw : w = -1
    · obtain ⟨out, hout, hput⟩ :=
        putNumber_eq { s with taken := s.taken + 1 } (args s.taken) 16 8 p (flags ||| ZEROPAD) (by decide)
      refine ⟨_, (if_pos hw).trans hput, rfl, rfl, fun _ => ?_⟩
      unfold Formats
      rw [if_neg (by decide), if_neg (by decide), if_neg (by decide), if_pos ⟨rfl, hw⟩]
      exact ⟨rfl, hout⟩
    · refine formats_number args (chr 'p') flags w p 16 s (by decide) (if_neg hw) fun s' h => ?_
      unfold Formats
      rw [if_neg (by decide), if_neg (by decide), if_neg (by decide), if_neg fun h => hw h.2]
      show s'.mem = s.mem ∧ number s.str (args s.taken) 16 w p (flags ||| 0) = _
      rw [hflags]
      exact h
  · exact formats_number args (chr 'x') flags w p 16 s (by decide) rfl fun s' h => h
  · refine formats_number args (chr 'X') flags w p 16 s (by decide) ?_ fun s' h => h
    show _ = putNumber _ _ _ _ _ (flags ||| 0)
    rw [hflags]
    rfl
  · exact formats_number args (chr 'd') flags w p 10 s (by decide) rfl fun s' h => h
  · exact formats_number args (chr 'i') flags w p 10 s (by decide) rfl fun s' h => h
  · refine formats_number args (chr 'u') flags w p 10 s (by decide) ?_ fun s' h => h
    show _ = putNumber _ _ _ _ _ (flags ||| 0)
    rw [hflags]
    rfl
  · exact ⟨_, rfl, rfl, rfl, fun _ => ⟨rfl, rfl⟩⟩

/-- Any other character is stored, behind a percent sign unless it is one. The end of the format is not passed. -/
theorem switch_other (hc : c ∉ letters) (args : ℕ → BitVec 32) (flags w p : BitVec 32) (s : State) :
    ∃ str, switch args c flags w p s =
      .ok { s with str := str, fmt := if c = 0 then s.fmt - 1 else s.fmt } := by
  simp only [letters, List.mem_cons, List.not_mem_nil, or_false, not_or] at hc
  obtain ⟨h1, h2, h3, h4, h5, h6, h7, h8, h9, h10⟩ := hc
  have hdi : ¬ (c = chr 'd' ∨ c = chr 'i') := not_or.2 ⟨h7, h8⟩
  unfold switch
  rw [if_neg h1, if_neg h2, if_neg h3, if_neg h4, if_neg h5, if_neg h6, if_neg hdi, if_neg h9, if_neg h10]
  by_cases h0 : c = 0
  · rw [if_neg (not_not.2 h0), if_pos h0]
    exact ⟨_, rfl⟩
  · rw [if_pos h0, if_neg h0]
    exact ⟨_, rfl⟩

end Letters

/-! ## A pass for a specification -/

section Pass

variable (args : ℕ → BitVec 32) {text t : List Byte} {s : State} {v : Conversion}

/-- The value of a width or a precision that is no star. -/
def Amount.bits : Amount → BitVec 32
  | .number digits => BitVec.ofNat 32 (numeral digits)
  | _ => -1

def precisionBits : Option Amount → BitVec 32
  | none => -1
  | some a => if a.bits.toInt < 0 then 0 else a.bits

theorem withWidth_of_ne (v : Conversion) {a : Amount} (h : a ≠ .star) :
    v.withWidth args a = { v with fieldWidth := a.bits, fmt := v.fmt + a.text.length } := by
  cases a with
  | absent => rfl
  | number digits => rfl
  | star => exact absurd rfl h

theorem withPrecision_of_ne (v : Conversion) {p : Option Amount} (h : p ≠ some .star) :
    v.withPrecision args p =
      { v with precision := precisionBits p, fmt := v.fmt + (precisionText p).length } := by
  have hclamp : ∀ v : Conversion, v.clamp =
      { v with precision := if v.precision.toInt < 0 then 0 else v.precision } := fun _ => rfl
  cases p with
  | none => rfl
  | some a =>
    cases a with
    | absent => rfl
    | number digits =>
      show (({ v with fmt := v.fmt + 1 } : Conversion).withAmount args (.number digits)).clamp = _
      rw [hclamp]
      unfold Conversion.withAmount precisionText Amount.text
      dsimp only
      rw [List.length_cons]
      congr 1
      omega
    | star => exact absurd rfl h

/-- A star takes an argument, and the cursor stays. -/
theorem withWidth_star (v : Conversion) : ∃ flags w,
    v.withWidth args .star = { v with taken := v.taken + 1, flags := flags, fieldWidth := w } := by
  unfold Conversion.withWidth
  dsimp only
  split
  · exact ⟨_, _, rfl⟩
  · exact ⟨v.flags, _, rfl⟩

theorem withPrecision_star (v : Conversion) : ∃ p,
    v.withPrecision args (some .star) = { v with fmt := v.fmt + 1, taken := v.taken + 1, precision := p } :=
  ⟨_, rfl⟩

theorem amount_star (h : (amount t).1 = .star) : t = chr '*' :: t.tail := by
  unfold amount at h
  split at h
  · cases h
  · split at h
    · rename_i hstar
      cases t with
      | nil => exact absurd hstar (by decide)
      | cons c t =>
        obtain rfl : c = chr '*' := hstar
        rfl
    · cases h

theorem precisionOf_star (h : (precisionOf t).1 = some .star) : t = chr '.' :: chr '*' :: t.tail.tail := by
  unfold precisionOf at h
  split at h
  · rename_i hdot
    cases t with
    | nil => exact absurd hdot (by decide)
    | cons c t =>
      obtain rfl : c = chr '.' := hdot
      exact congrArg (chr '.' :: ·) (amount_star (Option.some.inj h))
  · cases h

/-- The first three stages. -/
theorem pass_eq (h : At text s.fmt (chr '%' :: t)) : pass args text (chr '%') s =
    (getPrecision args text ((⟨s.fmt + 1 + (specOf t).1.flags.length, s.taken, (specOf t).1.flagBits, -1, -1⟩ :
      Conversion).withWidth args (specOf t).1.width) >>= fun v => finish args text v s) ∧
    At text (s.fmt + 1 + (specOf t).1.flags.length) (t.dropWhile isFlag) := by
  have hnext : At text (s.fmt + 1 + (specOf t).1.flags.length) (t.dropWhile isFlag) := by
    have hskip := h.next
    rw [← List.takeWhile_append_dropWhile (p := isFlag) (l := t)] at hskip
    exact hskip.skip
  refine ⟨?_, hnext⟩
  unfold pass
  rw [if_neg (not_not.2 rfl), scanFlags_eq h, ok_bind]
  dsimp only
  rw [getFieldWidth_eq hnext, ok_bind]
  rfl

theorem finish_eq (h : At text v.fmt t) (s : State) : finish args text v s =
    (switch args ((qualifierOf t).2.head?.getD 0) v.flags v.fieldWidth v.precision
      { s with fmt := v.fmt + (qualifierOf t).1.toList.length, taken := v.taken } >>=
        fun s => .ok { s with fmt := s.fmt + 1 }) := by
  have hat := h
  rw [← text_qualifierOf t] at hat
  have hfetch := fetch_at hat.skip
  unfold finish
  rw [getQualifier_eq h, ok_bind]
  dsimp only
  rw [hfetch, ok_bind, List.headD_eq_head?_getD]
  rfl

/-- At a star the conversion ends: the star is stored, and the cursor is behind it. -/
theorem finish_star (h : At text v.fmt (chr '*' :: t)) (s : State) : ∃ str, finish args text v s =
    .ok { s with fmt := v.fmt + 1, taken := v.taken, str := str } := by
  have hqual : qualifierOf (chr '*' :: t) = (none, chr '*' :: t) := rfl
  have hstar : ¬ chr '*' ∈ letters := by decide
  obtain ⟨str, hswitch⟩ := switch_other hstar args v.flags v.fieldWidth v.precision
    { s with fmt := v.fmt, taken := v.taken }
  refine ⟨str, ?_⟩
  rw [finish_eq args h, hqual]
  exact congrArg (· >>= fun s => .ok { s with fmt := s.fmt + 1 }) hswitch

/-- A pass that finds a star for the width ends behind it. -/
theorem pass_widthStar (h : At text s.fmt (chr '%' :: t)) (hw : (specOf t).1.width = .star) :
    ∃ str, pass args text (chr '%') s =
      .ok { s with fmt := s.fmt + 1 + (specOf t).1.flags.length + 1, taken := s.taken + 1, str := str } := by
  obtain ⟨hpass, hat⟩ := pass_eq args h
  rw [amount_star hw] at hat
  obtain ⟨flags, w, hv⟩ := withWidth_star args
    ⟨s.fmt + 1 + (specOf t).1.flags.length, s.taken, (specOf t).1.flagBits, -1, -1⟩
  have hprec : (precisionOf (chr '*' :: (t.dropWhile isFlag).tail)).1 = none := rfl
  rw [hpass, hw, hv, getPrecision_eq hat, ok_bind, hprec]
  exact finish_star args hat s

/-- So does one that finds a star for the precision. -/
theorem pass_precisionStar (h : At text s.fmt (chr '%' :: t)) (hw : (specOf t).1.width ≠ .star)
    (hp : (specOf t).1.precision = some .star) :
    ∃ str, pass args text (chr '%') s = .ok { s with
      fmt := s.fmt + 1 + (specOf t).1.flags.length + (specOf t).1.width.text.length + 2,
      taken := s.taken + 1, str := str } := by
  obtain ⟨hpass, hat⟩ := pass_eq args h
  rw [← text_amount (t.dropWhile isFlag)] at hat
  have hat' := hat.skip
  have hprec := precisionOf_star (t := (amount (t.dropWhile isFlag)).2) hp
  obtain ⟨p, hv⟩ := withPrecision_star args
    ⟨s.fmt + 1 + (specOf t).1.flags.length + (specOf t).1.width.text.length, s.taken, (specOf t).1.flagBits,
      (specOf t).1.width.bits, -1⟩
  have hstar : At text (s.fmt + 1 + (specOf t).1.flags.length + (specOf t).1.width.text.length + 1)
      (chr '*' :: (amount (t.dropWhile isFlag)).2.tail.tail) := by
    rw [hprec] at hat'
    exact hat'.next
  rw [hpass, withWidth_of_ne args _ hw, getPrecision_eq hat', ok_bind]
  show ∃ str, finish args text (Conversion.withPrecision args _ (specOf t).1.precision) s = _
  rw [hp, hv]
  exact finish_star args hstar s

theorem length_text_spec (sp : Spec) : sp.text.length = 1 + sp.flags.length + sp.width.text.length +
    (precisionText sp.precision).length + sp.qualifier.toList.length + sp.letter.toList.length := by
  unfold Spec.text
  simp only [List.length_cons, List.length_append]
  omega

/-- A pass that finds no star gets to the letter, or to the end of the format. -/
theorem pass_unstarred (h : At text s.fmt (chr '%' :: t)) (hw : (specOf t).1.width ≠ .star)
    (hp : (specOf t).1.precision ≠ some .star) :
    ∃ fmt, fmt + (specOf t).1.letter.toList.length = s.fmt + (specOf t).1.text.length ∧
      pass args text (chr '%') s = (switch args ((specOf t).1.letter.getD 0) (specOf t).1.flagBits
        (specOf t).1.width.bits (precisionBits (specOf t).1.precision) { s with fmt := fmt } >>=
          fun s => .ok { s with fmt := s.fmt + 1 }) := by
  obtain ⟨hpass, hat⟩ := pass_eq args h
  rw [← text_amount (t.dropWhile isFlag)] at hat
  have hat₁ := hat.skip
  have hat₂ := hat₁
  rw [← text_precisionOf (amount (t.dropWhile isFlag)).2] at hat₂
  have hat₃ := hat₂.skip
  refine ⟨s.fmt + 1 + (specOf t).1.flags.length + (specOf t).1.width.text.length +
    (precisionText (specOf t).1.precision).length + (specOf t).1.qualifier.toList.length, ?_, ?_⟩
  · rw [length_text_spec]
    omega
  · have hv := withPrecision_of_ne args (⟨s.fmt + 1 + (specOf t).1.flags.length +
      (specOf t).1.width.text.length, s.taken, (specOf t).1.flagBits, (specOf t).1.width.bits, -1⟩) hp
    rw [hpass, withWidth_of_ne args _ hw, getPrecision_eq hat₁, ok_bind]
    show finish args text (Conversion.withPrecision args _ (specOf t).1.precision) s = _
    rw [hv]
    exact finish_eq args hat₃ s

theorem toInt_ofNat_of_lt {n : ℕ} (h : n < 2 ^ 31) : (BitVec.ofNat 32 n).toInt = n := by
  rw [BitVec.toInt_ofNat', Int.bmod_eq_of_le] <;> omega

theorem stars_of_ne {a : Amount} (h : a ≠ .star) : a.stars = 0 := by
  cases a with
  | absent => rfl
  | number digits => rfl
  | star => exact absurd rfl h

/-- Where it finds no star, a pass does what it should just if the numbers are those of an `int`. -/
theorem done_iff_plain {sp : Spec} {s' : State} (hw : sp.width ≠ .star) (hp : sp.precision ≠ some .star)
    (hstars : ¬ sp.Takes → s'.taken = s.taken) (htaken : sp.Takes → s'.taken = s.taken + 1)
    (hformats : ∀ c ∈ letters, sp.letter = some c → -1 ≤ sp.width.bits.toInt →
      Formats c sp.flagBits sp.width.bits (precisionBits sp.precision) (args s.taken) s s') :
    sp.Done args s s' ↔ sp.Plain := by
  have hnostar : sp.stars = 0 := by
    unfold Spec.stars
    rw [stars_of_ne hw]
    cases hprec : sp.precision with
    | none => rfl
    | some a =>
      rw [Nat.zero_add]
      exact stars_of_ne fun ha : a = .star => hp (hprec.trans (congrArg some ha))
  constructor
  · intro hdone
    refine ⟨fun h => absurd h hw, fun h => absurd h hp, fun ⟨c, hc, hletter⟩ digits hdigits => ?_,
      fun ⟨c, hc, hletter⟩ digits hdigits => ?_⟩
    all_goals
      obtain ⟨flags, w, p, hgivesw, hgivesp, -⟩ := hdone.formats c hc hletter
    · unfold Spec.GivesWidth at hgivesw
      rw [hdigits] at hgivesw
      have hlt := w.toInt_lt
      have heq := hgivesw.2
      omega
    · unfold Spec.GivesPrecision at hgivesp
      rw [hdigits] at hgivesp
      have hlt := p.toInt_lt
      have heq : p.toInt = numeral digits := hgivesp
      omega
  · intro hplain
    refine ⟨fun h => ?_, fun h => ?_, fun c hc hletter => ?_⟩
    · rw [hnostar]
      exact hstars h
    · rw [hnostar]
      exact htaken h
    · have htakes : sp.Takes := ⟨c, hc, hletter⟩
      refine ⟨sp.flagBits, sp.width.bits, precisionBits sp.precision, ?_, ?_, ?_⟩
      · unfold Spec.GivesWidth
        cases hwidth : sp.width with
        | absent => exact ⟨rfl, rfl⟩
        | number digits => exact ⟨rfl, toInt_ofNat_of_lt (hplain.widthNumber htakes digits hwidth)⟩
        | star => exact absurd hwidth hw
      · unfold Spec.GivesPrecision
        cases hprec : sp.precision with
        | none => rfl
        | some a =>
          cases a with
          | absent => rfl
          | number digits =>
            have hvalue := toInt_ofNat_of_lt (hplain.precisionNumber htakes digits hprec)
            have hnonneg : ¬ (BitVec.ofNat 32 (numeral digits)).toInt < 0 := by omega
            show (if (BitVec.ofNat 32 (numeral digits)).toInt < 0 then 0 else _ : BitVec 32).toInt = _
            rw [if_neg hnonneg]
            exact hvalue
          | star => exact absurd hprec hp
      · rw [hnostar]
        refine hformats c hc hletter ?_
        cases hwidth : sp.width with
        | absent => decide
        | number digits =>
          have hvalue := toInt_ofNat_of_lt (hplain.widthNumber htakes digits hwidth)
          show -1 ≤ (BitVec.ofNat 32 (numeral digits)).toInt
          omega
        | star => exact absurd hwidth hw

theorem not_takes {sp : Spec} (h : sp.letter = none) : ¬ sp.Takes := by
  rintro ⟨c, -, hc⟩
  rw [h] at hc
  cases hc

theorem none_of_length {α : Type} {o : Option α} (h : o.toList.length = 0) : o = none := by
  cases o with
  | none => rfl
  | some a => cases h

theorem none_of_precisionText {p : Option Amount} (h : (precisionText p).length = 0) : p = none := by
  cases p with
  | none => rfl
  | some a => cases h

/-- The letter of a specification is a character of the format. -/
theorem letter_ne_zero (hnul : ∀ c ∈ t, c ≠ 0) {c : Byte} (h : (specOf t).1.letter = some c) : c ≠ 0 := by
  have hmem : c ∈ chr '%' :: t := by
    rw [← text_specOf t]
    unfold Spec.text
    rw [h]
    simp
  rcases List.mem_cons.1 hmem with rfl | hmem
  · decide
  · exact hnul c hmem

/-- A pass for a specification without stars gets just behind it. -/
theorem pass_unstarred_spec (h : At text s.fmt (chr '%' :: t)) (hnul : ∀ c ∈ t, c ≠ 0)
    (hw : (specOf t).1.width ≠ .star) (hp : (specOf t).1.precision ≠ some .star) :
    ∃ s', pass args text (chr '%') s = .ok s' ∧ s'.fmt = s.fmt + (specOf t).1.text.length ∧
      ((specOf t).1.Done args s s' ↔ (specOf t).1.Plain) := by
  obtain ⟨fmt, hfmt, hpass⟩ := pass_unstarred args h hw hp
  have hlen := length_text_spec (specOf t).1
  rw [hpass]
  cases hletter : (specOf t).1.letter with
  | none =>
    -- The end of the format: `--fmt` and `++fmt`.
    obtain ⟨str, hswitch⟩ := switch_other (c := 0) (by decide) args (specOf t).1.flagBits
      (specOf t).1.width.bits (precisionBits (specOf t).1.precision) { s with fmt := fmt }
    rw [hletter] at hfmt hlen
    simp only [Option.toList, List.length_nil] at hfmt hlen
    rw [Option.getD_none, hswitch]
    refine ⟨_, rfl, ?_, done_iff_plain args hw hp (fun _ => rfl) (fun ht => absurd ht (not_takes hletter))
      fun c _ hc => ?_⟩
    · dsimp only
      rw [if_pos rfl]
      omega
    · rw [hletter] at hc
      cases hc
  | some c =>
    rw [hletter] at hfmt hlen
    simp only [Option.toList, List.length_singleton] at hfmt hlen
    rw [Option.getD_some]
    by_cases hc : c ∈ letters
    · obtain ⟨s', hswitch, hfmt', htaken, hformats⟩ := switch_takes hc args (specOf t).1.flagBits
        (specOf t).1.width.bits (precisionBits (specOf t).1.precision) { s with fmt := fmt }
      rw [hswitch]
      refine ⟨_, rfl, ?_, done_iff_plain args hw hp (fun hn => absurd ⟨c, hc, hletter⟩ hn) (fun _ => htaken)
        fun d _ hd hwidth => ?_⟩
      · show s'.fmt + 1 = _
        rw [hfmt']
        exact hfmt
      · rw [hletter] at hd
        obtain rfl := Option.some.inj hd
        exact hformats hwidth
    · have hnone : ¬ (specOf t).1.Takes := by
        rintro ⟨d, hd, hletter'⟩
        rw [hletter] at hletter'
        obtain rfl := Option.some.inj hletter'
        exact hc hd
      obtain ⟨str, hswitch⟩ := switch_other hc args (specOf t).1.flagBits (specOf t).1.width.bits
        (precisionBits (specOf t).1.precision) { s with fmt := fmt }
      rw [hswitch]
      refine ⟨_, rfl, ?_, done_iff_plain args hw hp (fun _ => rfl) (fun ht => absurd ht hnone)
        fun d hd hletter' => absurd ⟨d, hd, hletter'⟩ hnone⟩
      dsimp only
      rw [if_neg (letter_ne_zero hnul hletter)]
      exact hfmt

/-- Where a star is the end of a specification, its argument is all that is taken. -/
theorem done_of_star {sp : Spec} {s' : State} (hletter : sp.letter = none) (hstars : sp.stars = 1)
    (htaken : s'.taken = s.taken + 1) : sp.Done args s s' := by
  refine ⟨fun _ => ?_, fun h => absurd h (not_takes hletter), fun c _ hc => ?_⟩
  · rw [hstars]
    exact htaken
  · rw [hletter] at hc
    cases hc

/-- A pass ends within its specification, and does what it should just if that is plain. -/
theorem pass_spec (h : At text s.fmt (chr '%' :: t)) (hnul : ∀ c ∈ t, c ≠ 0) :
    ∃ s', pass args text (chr '%') s = .ok s' ∧ s.fmt < s'.fmt ∧
      s'.fmt ≤ s.fmt + (specOf t).1.text.length ∧
      (s'.fmt = s.fmt + (specOf t).1.text.length ∧ (specOf t).1.Done args s s' ↔ (specOf t).1.Plain) := by
  have hlen := length_text_spec (specOf t).1
  by_cases hw : (specOf t).1.width = .star
  · obtain ⟨str, hpass⟩ := pass_widthStar args h hw
    have htext : (specOf t).1.width.text.length = 1 := by
      rw [hw]
      rfl
    refine ⟨_, hpass, ?_, ?_, fun ⟨hfmt, _⟩ => ?_, fun hplain => ?_⟩
    · dsimp only
      omega
    · dsimp only
      omega
    · dsimp only at hfmt
      have hprec := none_of_precisionText (p := (specOf t).1.precision) (by omega)
      have hqual := none_of_length (o := (specOf t).1.qualifier) (by omega)
      have hletter := none_of_length (o := (specOf t).1.letter) (by omega)
      refine ⟨fun _ => ⟨hprec, hqual, hletter⟩, fun hp => ?_, fun ht => absurd ht (not_takes hletter),
        fun ht => absurd ht (not_takes hletter)⟩
      rw [hprec] at hp
      cases hp
    · obtain ⟨hprec, hqual, hletter⟩ := hplain.width hw
      have hstars : (specOf t).1.stars = 1 := by
        unfold Spec.stars
        rw [hw, hprec]
        rfl
      refine ⟨?_, done_of_star args hletter hstars rfl⟩
      rw [hlen, htext, hprec, hqual, hletter]
      simp only [precisionText, Option.toList, List.length_nil]
      omega
  · by_cases hp : (specOf t).1.precision = some .star
    · obtain ⟨str, hpass⟩ := pass_precisionStar args h hw hp
      have htext : (precisionText (specOf t).1.precision).length = 2 := by
        rw [hp]
        rfl
      refine ⟨_, hpass, ?_, ?_, fun ⟨hfmt, _⟩ => ?_, fun hplain => ?_⟩
      · dsimp only
        omega
      · dsimp only
        omega
      · dsimp only at hfmt
        have hqual := none_of_length (o := (specOf t).1.qualifier) (by omega)
        have hletter := none_of_length (o := (specOf t).1.letter) (by omega)
        exact ⟨fun h => absurd h hw, fun _ => ⟨hqual, hletter⟩, fun ht => absurd ht (not_takes hletter),
          fun ht => absurd ht (not_takes hletter)⟩
      · obtain ⟨hqual, hletter⟩ := hplain.precision hp
        have hstars : (specOf t).1.stars = 1 := by
          unfold Spec.stars
          rw [stars_of_ne hw, hp]
          rfl
        refine ⟨?_, done_of_star args hletter hstars rfl⟩
        rw [hlen, htext, hqual, hletter]
        simp only [Option.toList, List.length_nil]
        omega
    · obtain ⟨s', hpass, hfmt, hdone⟩ := pass_unstarred_spec args h hnul hw hp
      exact ⟨s', hpass, by omega, hfmt.le, (and_iff_right hfmt).trans hdone⟩

end Pass

/-! ## The whole format -/

section Loop

variable {args : ℕ → BitVec 32} {text t : List Byte} {s : State}

/-- A pass at a character gets further, and not behind the end. -/
theorem pass_ok (args : ℕ → BitVec 32) {c : Byte} (h : At text s.fmt (c :: t)) (hnul : ∀ c ∈ t, c ≠ 0) :
    ∃ s', pass args text c s = .ok s' ∧ s.fmt < s'.fmt ∧ s'.fmt ≤ text.length := by
  have hadd := h.add_length
  by_cases hc : c = chr '%'
  · subst hc
    obtain ⟨s', hpass, hlt, hle, -⟩ := pass_spec args h hnul
    have hlen := congrArg List.length (text_specOf t)
    rw [List.length_append] at hlen
    exact ⟨s', hpass, hlt, by omega⟩
  · have hadd' := h.next.add_length
    exact ⟨_, if_pos hc, Nat.lt_succ_self _, by dsimp only; omega⟩

/-- The loop ends. -/
theorem loop_ok (args : ℕ → BitVec 32) (hnul : ∀ c ∈ text, c ≠ 0) {n : ℕ} (hfmt : s.fmt ≤ text.length)
    (hn : text.length - s.fmt < n) : ∃ s', loop args text n s = .ok s' := by
  induction n generalizing s with
  | zero => exact absurd hn (Nat.not_lt_zero _)
  | succ n ih =>
    obtain ⟨t, h⟩ := Cursor.exists_at hfmt
    unfold loop
    rw [fetch_at h, ok_bind]
    cases t with
    | nil => exact ⟨s, rfl⟩
    | cons c t =>
      have hall : ∀ d ∈ c :: t, d ≠ 0 := by
        obtain ⟨before, rfl, -⟩ := h
        exact fun d hd => hnul d (List.mem_append_right _ hd)
      have hc : c ≠ 0 := hall c List.mem_cons_self
      obtain ⟨s', hpass, hlt, hle⟩ := pass_ok args h fun d hd => hall d (List.mem_cons_of_mem _ hd)
      rw [List.headD_cons, if_neg hc, hpass, ok_bind]
      exact ih hle (by omega)

/-- The loop treats what is left of the format piece by piece just if the pieces are plain. -/
theorem loop_follows (args : ℕ → BitVec 32) {n : ℕ} {s' : State} (h : At text s.fmt t) (hnul : ∀ c ∈ t, c ≠ 0)
    (hloop : loop args text n s = .ok s') :
    Follows args text (pieces t) s s' ↔ ∀ p ∈ pieces t, p.Plain := by
  induction n generalizing s t with
  | zero => cases hloop
  | succ n ih =>
    unfold loop at hloop
    rw [fetch_at h, ok_bind] at hloop
    cases t with
    | nil =>
      rw [List.headD_nil, if_pos rfl] at hloop
      obtain rfl := Except.ok.inj hloop
      rw [pieces]
      exact ⟨fun _ p hp => absurd hp List.not_mem_nil, fun _ => rfl⟩
    | cons c t =>
      have hc : c ≠ 0 := hnul c List.mem_cons_self
      have htail : ∀ d ∈ t, d ≠ 0 := fun d hd => hnul d (List.mem_cons_of_mem _ hd)
      have hfetch : fetch text s.fmt = .ok c := fetch_at h
      obtain ⟨s₁, hpass, -, -⟩ := pass_ok args h htail
      rw [List.headD_cons, if_neg hc, hpass, ok_bind] at hloop
      by_cases hpercent : c = chr '%'
      · subst hpercent
        obtain ⟨s₂, hpass', -, -, hiff⟩ := pass_spec args h htail
        obtain rfl : s₁ = s₂ := Except.ok.inj (hpass.symm.trans hpass')
        have hrest : s₁.fmt = s.fmt + (specOf t).1.text.length → At text s₁.fmt (specOf t).2 := by
          intro hfmt
          rw [hfmt]
          rw [← text_specOf t] at h
          exact h.skip
        have hnulrest : ∀ d ∈ (specOf t).2, d ≠ 0 := by
          intro d hd
          have hmem : d ∈ chr '%' :: t := by
            rw [← text_specOf t]
            exact List.mem_append_right _ hd
          exact hnul d hmem
        rw [pieces_spec, List.forall_mem_cons]
        constructor
        · rintro ⟨c', s₂, hfetch', hpass₂, hfmt, hdone, hfollows⟩
          obtain rfl : chr '%' = c' := Except.ok.inj (hfetch.symm.trans hfetch')
          obtain rfl : s₁ = s₂ := Except.ok.inj (hpass.symm.trans hpass₂)
          exact ⟨hiff.1 ⟨hfmt, hdone⟩, (ih (hrest hfmt) hnulrest hloop).1 hfollows⟩
        · rintro ⟨hplain, hplains⟩
          obtain ⟨hfmt, hdone⟩ := hiff.2 hplain
          exact ⟨_, s₁, hfetch, hpass, hfmt, hdone, (ih (hrest hfmt) hnulrest hloop).2 hplains⟩
      · obtain rfl : { s with str := s.str ++ [c], fmt := s.fmt + 1 } = s₁ :=
          Except.ok.inj ((if_pos hpercent).symm.trans hpass)
        rw [pieces_literal hpercent, List.forall_mem_cons]
        constructor
        · rintro ⟨c', s₂, hfetch', hpass₂, -, -, hfollows⟩
          obtain rfl : c = c' := Except.ok.inj (hfetch.symm.trans hfetch')
          obtain rfl := Except.ok.inj (hpass.symm.trans hpass₂)
          exact ⟨trivial, (ih h.next htail hloop).1 hfollows⟩
        · rintro ⟨-, hplains⟩
          exact ⟨c, _, hfetch, hpass, rfl, ⟨rfl, rfl, rfl⟩, (ih h.next htail hloop).2 hplains⟩

end Loop

/-- `vsprintf` ends, without reading behind the end of the format, and returns how many characters it has
stored in front of the final NUL. It treats the format piece by piece just if no specification has anything
behind a star, and the numbers for an argument are those of an `int`. -/
theorem vsprintf_follows (args : ℕ → BitVec 32) (text : List Byte) (mem : Memory) {fuel : ℕ}
    (hnul : ∀ c ∈ text, c ≠ 0) (hfuel : text.length < fuel) :
    (pieces text).flatMap Piece.text = text ∧
    ∃ s, vsprintf fuel args text mem = .ok (BitVec.ofNat 32 s.str.length, { s with str := s.str ++ [0] }) ∧
      (Follows args text (pieces text) ⟨0, 0, mem, []⟩ s ↔ ∀ p ∈ pieces text, p.Plain) := by
  obtain ⟨s, hloop⟩ := loop_ok args hnul (s := ⟨0, 0, mem, []⟩) (Nat.zero_le _) hfuel
  refine ⟨flatMap_pieces text, s, ?_, loop_follows args (Cursor.at_zero text) hnul hloop⟩
  unfold vsprintf
  rw [hloop, ok_bind]
  rfl

/-- `"%-5d"` and a literal. -/
theorem vsprintf_follows_left :
    (pieces [chr '%', chr '-', chr '5', chr 'd', chr '!']).flatMap Piece.text =
      [chr '%', chr '-', chr '5', chr 'd', chr '!'] ∧
    ∃ s, vsprintf 6 (fun n => BitVec.ofNat 32 n) [chr '%', chr '-', chr '5', chr 'd', chr '!'] (fun _ => 0) =
        .ok (BitVec.ofNat 32 s.str.length, { s with str := s.str ++ [0] }) ∧
      (Follows (fun n => BitVec.ofNat 32 n) [chr '%', chr '-', chr '5', chr 'd', chr '!']
        (pieces [chr '%', chr '-', chr '5', chr 'd', chr '!']) ⟨0, 0, fun _ => 0, []⟩ s ↔
        ∀ p ∈ pieces [chr '%', chr '-', chr '5', chr 'd', chr '!'], p.Plain) :=
  vsprintf_follows (fun n => BitVec.ofNat 32 n) [chr '%', chr '-', chr '5', chr 'd', chr '!'] (fun _ => 0)
    (by decide) (by decide)

/-- For `"%*d"` one argument is taken instead of two, for the star, and the letter is stored as it is. -/
theorem vsprintf_star :
    vsprintf 4 (fun n => BitVec.ofNat 32 (n + 5)) [chr '%', chr '*', chr 'd'] (fun _ => 0) =
      .ok (3, ⟨3, 1, fun _ => 0, [chr '%', chr '*', chr 'd', 0]⟩) ∧
    pieces [chr '%', chr '*', chr 'd'] = [.spec ⟨[], .star, none, none, some (chr 'd')⟩] ∧
    ¬ Follows (fun n => BitVec.ofNat 32 (n + 5)) [chr '%', chr '*', chr 'd'] (pieces [chr '%', chr '*', chr 'd'])
      ⟨0, 0, fun _ => 0, []⟩ ⟨3, 1, fun _ => 0, [chr '%', chr '*', chr 'd']⟩ := by
  have hflags : scanFlags [chr '%', chr '*', chr 'd'] 0 0 = .ok (0, 1) := scanFlags_eq (Cursor.at_zero _) 0
  have hpass : pass (fun n => BitVec.ofNat 32 (n + 5)) [chr '%', chr '*', chr 'd'] (chr '%')
      ⟨0, 0, fun _ => 0, []⟩ = .ok ⟨2, 1, fun _ => 0, [chr '%', chr '*']⟩ := by
    unfold pass
    rw [hflags]
    rfl
  have hpieces : pieces [chr '%', chr '*', chr 'd'] = [.spec ⟨[], .star, none, none, some (chr 'd')⟩] := by
    have hnil : pieces [] = [] := by rw [pieces]
    exact (pieces_spec [chr '*', chr 'd']).trans (congrArg (Piece.spec _ :: ·) hnil)
  refine ⟨?_, hpieces, fun hfollows => ?_⟩
  · unfold vsprintf loop
    rw [fetch_at (Cursor.at_zero _), ok_bind, List.headD_cons, if_neg (by decide), hpass]
    rfl
  · rw [hpieces] at hfollows
    obtain ⟨c, s₁, hfetch, hpass', hfmt, -⟩ := hfollows
    obtain rfl : chr '%' = c := Except.ok.inj hfetch
    obtain rfl := Except.ok.inj (hpass.symm.trans hpass')
    cases hfmt

end Linux011.Vsprintf
