import Linux011.Kernel.Number

/-!
# Formats

What a format of `vsprintf` says: which conversion specifications it has, and which characters are between
them. A specification may be cut off by the end of the format.

1. `Spec`, `Piece`, and `pieces`, which splits a format.
2. `flatMap_pieces`: the pieces make up the format.
-/

namespace Linux011.Vsprintf

open Bytes (Byte)

/-- `is_digit`. -/
def isDigit (c : Byte) : Bool := chr '0' ≤ c ∧ c ≤ chr '9'

/-- The flag of a character. -/
def flagOf (c : Byte) : Option (BitVec 32) :=
  if c = chr '-' then some LEFT
  else if c = chr '+' then some PLUS
  else if c = chr ' ' then some SPACE
  else if c = chr '#' then some SPECIAL
  else if c = chr '0' then some ZEROPAD
  else none

def isFlag (c : Byte) : Bool := (flagOf c).isSome

def isQualifier (c : Byte) : Bool := c = chr 'h' ∨ c = chr 'l' ∨ c = chr 'L'

/-- A field width, or what is behind the dot of a precision. -/
inductive Amount
  | absent
  | number (digits : List Byte)
  | star

namespace Amount

def text : Amount → List Byte
  | absent => []
  | number digits => digits
  | star => [chr '*']

/-- How many arguments it is. -/
def stars : Amount → ℕ
  | star => 1
  | _ => 0

end Amount

/-- What is written for a precision: a dot, and the amount behind it. -/
def precisionText : Option Amount → List Byte
  | none => []
  | some a => chr '.' :: a.text

/-- The number that digits denote. -/
def numeral (digits : List Byte) : ℕ := digits.foldl (fun n c => 10 * n + (c.toNat - (chr '0').toNat)) 0

/-- A conversion specification: flags, width, precision, qualifier and letter. -/
structure Spec where
  flags : List Byte
  width : Amount
  precision : Option Amount
  qualifier : Option Byte
  letter : Option Byte

/-- The letters that a conversion takes an argument for. -/
def letters : List Byte :=
  [chr 'c', chr 's', chr 'o', chr 'p', chr 'x', chr 'X', chr 'd', chr 'i', chr 'u', chr 'n']

namespace Spec

def text (sp : Spec) : List Byte :=
  chr '%' :: (sp.flags ++ (sp.width.text ++ (precisionText sp.precision ++ (sp.qualifier.toList ++ sp.letter.toList))))

/-- How many stars there are in it. -/
def stars (sp : Spec) : ℕ := sp.width.stars + (sp.precision.map Amount.stars).getD 0

/-- The specification is for an argument. -/
def Takes (sp : Spec) : Prop := ∃ c ∈ letters, sp.letter = some c

end Spec

/-- A piece of a format. -/
inductive Piece
  | literal (c : Byte)
  | spec (sp : Spec)

def Piece.text : Piece → List Byte
  | literal c => [c]
  | spec sp => sp.text

/-! ## Splitting -/

/-- The amount at the start of a text, and what is behind it. -/
def amount (t : List Byte) : Amount × List Byte :=
  if isDigit (t.headD 0) then (.number (t.takeWhile isDigit), t.dropWhile isDigit)
  else if t.headD 0 = chr '*' then (.star, t.tail)
  else (.absent, t)

/-- A dot and the amount behind it. -/
def precisionOf (t : List Byte) : Option Amount × List Byte :=
  if t.headD 0 = chr '.' then (some (amount t.tail).1, (amount t.tail).2) else (none, t)

def qualifierOf (t : List Byte) : Option Byte × List Byte :=
  if isQualifier (t.headD 0) then (t.head?, t.tail) else (none, t)

/-- The specification behind a percent sign, and what is behind it. -/
def specOf (t : List Byte) : Spec × List Byte :=
  let flags := t.takeWhile isFlag
  let (width, t) := amount (t.dropWhile isFlag)
  let (precision, t) := precisionOf t
  let (qualifier, t) := qualifierOf t
  (⟨flags, width, precision, qualifier, t.head?⟩, t.tail)

theorem text_amount (t : List Byte) : (amount t).1.text ++ (amount t).2 = t := by
  unfold amount
  split
  · exact List.takeWhile_append_dropWhile
  · split
    · rename_i hstar
      cases t with
      | nil => exact absurd hstar (by decide)
      | cons c t =>
        obtain rfl : c = chr '*' := hstar
        rfl
    · rfl

theorem text_precisionOf (t : List Byte) : precisionText (precisionOf t).1 ++ (precisionOf t).2 = t := by
  unfold precisionOf
  by_cases hdot : t.headD 0 = chr '.'
  · rw [if_pos hdot]
    cases t with
    | nil => exact absurd hdot (by decide)
    | cons c t =>
      obtain rfl : c = chr '.' := hdot
      exact congrArg (chr '.' :: ·) (text_amount t)
  · rw [if_neg hdot]
    rfl

theorem text_qualifierOf (t : List Byte) : (qualifierOf t).1.toList ++ (qualifierOf t).2 = t := by
  unfold qualifierOf
  split
  · rename_i hqual
    cases t with
    | nil => exact absurd hqual (by decide)
    | cons c t => rfl
  · rfl

theorem text_head (t : List Byte) : t.head?.toList ++ t.tail = t := by
  cases t <;> rfl

/-- The specification and what is behind it are the text. -/
theorem text_specOf (t : List Byte) : (specOf t).1.text ++ (specOf t).2 = chr '%' :: t := by
  have hflags : t.takeWhile isFlag ++ t.dropWhile isFlag = t := List.takeWhile_append_dropWhile
  have hwidth := text_amount (t.dropWhile isFlag)
  have hprec := text_precisionOf (amount (t.dropWhile isFlag)).2
  have hqual := text_qualifierOf (precisionOf (amount (t.dropWhile isFlag)).2).2
  have hletter := text_head (qualifierOf (precisionOf (amount (t.dropWhile isFlag)).2).2).2
  unfold Spec.text specOf
  dsimp only
  simp only [List.cons_append, List.append_assoc]
  rw [hletter, hqual, hprec, hwidth, hflags]

/-- A specification is not empty, so less is left behind it. -/
theorem length_specOf (t : List Byte) : (specOf t).2.length ≤ t.length := by
  have hlen := congrArg List.length (text_specOf t)
  unfold Spec.text at hlen
  simp only [List.length_append, List.length_cons] at hlen
  omega

/-- The pieces of a format. -/
def pieces : List Byte → List Piece
  | [] => []
  | c :: t => if c = chr '%' then .spec (specOf t).1 :: pieces (specOf t).2 else .literal c :: pieces t
termination_by t => t.length
decreasing_by
  · exact Nat.lt_succ_of_le (length_specOf t)
  · exact Nat.lt_succ_self _

theorem pieces_spec (t : List Byte) :
    pieces (chr '%' :: t) = .spec (specOf t).1 :: pieces (specOf t).2 := by
  rw [pieces, if_pos rfl]

theorem pieces_literal {c : Byte} (h : c ≠ chr '%') (t : List Byte) :
    pieces (c :: t) = .literal c :: pieces t := by
  rw [pieces, if_neg h]

/-- The pieces make up the format. -/
theorem flatMap_pieces (t : List Byte) : (pieces t).flatMap Piece.text = t := by
  induction t using pieces.induct with
  | case1 =>
    rw [pieces]
    rfl
  | case2 t ih =>
    rw [pieces_spec, List.flatMap_cons, ih]
    exact text_specOf t
  | case3 c t h ih =>
    rw [pieces_literal h, List.flatMap_cons, ih]
    rfl

end Linux011.Vsprintf
