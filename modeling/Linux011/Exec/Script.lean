import Linux011.Lib.Bytes
import Mathlib.Data.List.DropRight

/-!
# The first line of a script

The part of `do_execve` that finds the interpreter of a file that begins with `#!`.

1. `parse`: the loops over `buf`, with the places of `interp`, `i_name` and `i_arg` in it.
2. `interpreterOf`, `argumentOf` and `baseName`: what the code makes of the line, and what it says.
3. `parse_spec`: the pointers are at the strings of the line.
-/

namespace Linux011.Execve

open Bytes

/-! ## The code -/

/-- `strncpy(buf, src, n)`: what is behind the end of the string is filled with zeros. -/
def strncpy (src : ℕ → Byte) (n : ℕ) : ℕ → Byte := fun k =>
  if k < n ∧ ∀ j < k, src j ≠ 0 then src k else 0

/-- `strchr(buf + k, c)`, at most `n` bytes on. -/
def strchr (buf : ℕ → Byte) (c : Byte) : ℕ → ℕ → Option ℕ
  | 0, _ => none
  | n + 1, k => if buf k = c then some k else if buf k = 0 then none else strchr buf c n (k + 1)

/-- A space or a tab. -/
def isBlank (c : Byte) : Bool := c == 0x20 || c == 0x09

/-- `for (cp = buf; *cp == ' ' || *cp == '\t'; cp++)`. -/
def skipBlanks (buf : ℕ → Byte) : ℕ → ℕ → ℕ
  | 0, cp => cp
  | n + 1, cp => if isBlank (buf cp) then skipBlanks buf n (cp + 1) else cp

/-- The loop over the name of the interpreter: its end, and `i_name`. -/
def scanName (buf : ℕ → Byte) : ℕ → ℕ → ℕ → ℕ × ℕ
  | 0, cp, iName => (cp, iName)
  | n + 1, cp, iName =>
    if buf cp ≠ 0 ∧ ¬ isBlank (buf cp) then
      scanName buf n (cp + 1) (if buf cp = 0x2f then cp + 1 else iName)
    else (cp, iName)

/-- `buf`, and where `interp`, `i_name` and `i_arg` point in it. -/
structure Script where
  buf : ℕ → Byte
  interp : ℕ
  iName : ℕ
  iArg : Option ℕ

/-- The interpreter of a script with these bytes, none if it has no name. -/
def parse (data : ℕ → Byte) : Option Script :=
  let buf := strncpy (fun k => data (k + 2)) 1022
  match strchr buf 0x0a 1023 0 with
  | none => none
  | some cp =>
    let buf := Function.update buf cp 0
    let cp := skipBlanks buf 1023 0
    if buf cp = 0 then none
    else
      let r := scanName buf 1023 cp cp
      if buf r.1 ≠ 0 then some ⟨Function.update buf r.1 0, cp, r.2, some (r.1 + 1)⟩
      else some ⟨buf, cp, r.2, none⟩

/-! ## What the line says -/

/-- `buf` has these bytes from `k` on, none of them zero. -/
def Spells (buf : ℕ → Byte) : ℕ → List Byte → Prop
  | _, [] => True
  | k, c :: l => c ≠ 0 ∧ buf k = c ∧ Spells buf (k + 1) l

/-- There is a string in `buf` at `k`. -/
structure Ends (buf : ℕ → Byte) (k : ℕ) (l : List Byte) : Prop where
  text : Spells buf k l
  zero : buf (k + l.length) = 0
  lt : k + l.length < 1023

/-- The string in `buf` at `k`. -/
def cstring (buf : ℕ → Byte) (k : ℕ) : List Byte :=
  ((List.range' k 1023).map buf).takeWhile fun c => c != 0

/-- The line behind `#!`, which ends where its copy can still have the newline. -/
structure LineAt (data : ℕ → Byte) (line : List Byte) : Prop where
  text : Spells (fun k => data (k + 2)) 0 line
  newline : data (line.length + 2) = 0x0a
  plain : ∀ c ∈ line, c ≠ 0x0a
  lt : line.length < 1022

/-- What the code makes of the line: the name of the interpreter, and what follows the blank behind it. -/
def interpreterOf (line : List Byte) : Option (List Byte × Option (List Byte)) :=
  match line.dropWhile isBlank with
  | [] => none
  | l => some (l.takeWhile fun c => !isBlank c,
      match l.dropWhile fun c => !isBlank c with
      | [] => none
      | _ :: arg => some arg)

/-- The line behind the name of the interpreter. -/
def behindName (line : List Byte) : List Byte :=
  (line.dropWhile isBlank).dropWhile fun c => !isBlank c

/-- The argument of the line, without blanks around it, if it has one. -/
def argumentOf (line : List Byte) : Option (List Byte) :=
  match ((behindName line).dropWhile isBlank).rdropWhile isBlank with
  | [] => none
  | arg => some arg

/-- Behind the name there is nothing, or one blank and a text that neither begins nor ends with one. -/
def Tidy (line : List Byte) : Prop :=
  match behindName line with
  | [] => True
  | _ :: arg => arg ≠ [] ∧ (∀ c ∈ arg.head?, isBlank c = false) ∧ ∀ c ∈ arg.getLast?, isBlank c = false

/-- What is behind the last slash. -/
def baseName (name : List Byte) : List Byte := name.rtakeWhile fun c => c != 0x2f

variable {buf data : ℕ → Byte} {k n i : ℕ} {l l' line name : List Byte} {c : Byte} {s : Script}

theorem spells_append : Spells buf k (l ++ l') ↔ Spells buf k l ∧ Spells buf (k + l.length) l' := by
  induction l generalizing k with
  | nil => simp [Spells]
  | cons c l ih =>
    rw [List.cons_append, List.length_cons, show k + (l.length + 1) = k + 1 + l.length by omega]
    simp only [Spells]
    rw [ih, and_assoc, and_assoc]

theorem Spells.congr {buf' : ℕ → Byte} (h : Spells buf k l)
    (hb : ∀ j, k ≤ j → j < k + l.length → buf' j = buf j) : Spells buf' k l := by
  induction l generalizing k with
  | nil => trivial
  | cons c l ih =>
    rw [List.length_cons] at hb
    exact ⟨h.1, (hb k le_rfl (by omega)).trans h.2.1,
      ih h.2.2 fun j h1 h2 => hb j (by omega) (by omega)⟩

theorem Spells.get (h : Spells buf k l) (hk : k ≤ i) (hi : i < k + l.length) :
    buf i ≠ 0 ∧ buf i ∈ l := by
  induction l generalizing k with
  | nil => simp only [List.length_nil] at hi; omega
  | cons c l ih =>
    rw [List.length_cons] at hi
    by_cases hik : i = k
    · rw [hik, h.2.1]
      exact ⟨h.1, List.mem_cons_self⟩
    · obtain ⟨h0, hm⟩ := ih h.2.2 (by omega) (by omega)
      exact ⟨h0, List.mem_cons_of_mem _ hm⟩

theorem cstring_eq (h : Ends buf k l) : cstring buf k = l := by
  obtain ⟨htext, hzero, hlt⟩ := h
  have hgen : ∀ n, l.length < n → ((List.range' k n).map buf).takeWhile (fun c => c != 0) = l := by
    clear hlt
    induction l generalizing k with
    | nil =>
      intro n hn
      cases n with
      | zero => exact absurd hn (Nat.not_lt_zero _)
      | succ n =>
        have hzero : buf k = 0 := hzero
        rw [List.range'_succ, List.map_cons, List.takeWhile_cons, if_neg (by rw [hzero]; decide)]
    | cons c l ih =>
      intro n hn
      rw [List.length_cons] at hn hzero
      cases n with
      | zero => exact absurd hn (Nat.not_lt_zero _)
      | succ n =>
        rw [List.range'_succ, List.map_cons, List.takeWhile_cons, htext.2.1,
          if_pos (by simpa using htext.1),
          ih htext.2.2 (by rw [← hzero]; congr 1; omega) n (by omega)]
  exact hgen 1023 (by omega)

/-! ## The argument -/

theorem argumentOf_eq_none (h : ((behindName line).dropWhile isBlank).rdropWhile isBlank = []) :
    argumentOf line = none := by
  unfold argumentOf
  rw [h]

theorem argumentOf_eq_some (h : ((behindName line).dropWhile isBlank).rdropWhile isBlank = l)
    (hl : l ≠ []) : argumentOf line = some l := by
  obtain ⟨c, l', rfl⟩ := List.exists_cons_of_ne_nil hl
  unfold argumentOf
  rw [h]

/-- The two halves of the line. -/
theorem interpreterOf_eq_some {arg : Option (List Byte)} (h : interpreterOf line = some (name, arg)) :
    behindName line = [] ∧ arg = none ∨
      ∃ c a, behindName line = c :: a ∧ arg = some a ∧ isBlank c = true := by
  unfold interpreterOf at h
  unfold behindName
  cases hl : line.dropWhile isBlank with
  | nil =>
    rw [hl] at h
    cases h
  | cons d l =>
    rw [hl] at h
    simp only [Option.some.injEq, Prod.mk.injEq] at h
    obtain ⟨-, rfl⟩ := h
    cases hd : (d :: l).dropWhile fun c => !isBlank c with
    | nil => exact .inl ⟨rfl, rfl⟩
    | cons c a =>
      have hc := List.head?_dropWhile_not (fun c => !isBlank c) (d :: l)
      rw [hd] at hc
      exact .inr ⟨c, a, rfl, rfl, by simpa using hc⟩

/-- The code takes the argument of a tidy line. -/
theorem Tidy.argumentOf_eq {arg : Option (List Byte)} (h : Tidy line)
    (hi : interpreterOf line = some (name, arg)) : argumentOf line = arg := by
  unfold Tidy at h
  obtain ⟨hb, rfl⟩ | ⟨c, a, hb, rfl, hc⟩ := interpreterOf_eq_some hi
  · refine argumentOf_eq_none ?_
    rw [hb]
    rfl
  · rw [hb] at h
    obtain ⟨hne, hhead, hlast⟩ := h
    refine argumentOf_eq_some ?_ hne
    have hdrop : a.dropWhile isBlank = a := by
      obtain ⟨d, l, rfl⟩ := List.exists_cons_of_ne_nil hne
      exact List.dropWhile_cons_of_neg (by simpa using hhead d rfl)
    rw [hb, List.dropWhile_cons_of_pos hc, hdrop, List.rdropWhile_eq_self_iff]
    intro ha
    simpa using hlast _ (List.getLast?_eq_some_getLast ha)

/-- In another line there are blanks around the argument. -/
theorem argumentOf_of_not_tidy {arg : Option (List Byte)} (h : ¬ Tidy line)
    (hi : interpreterOf line = some (name, arg)) : ∃ b₁ l b₂, arg = some (b₁ ++ l ++ b₂) ∧
      (∀ c ∈ b₁, isBlank c = true) ∧ (∀ c ∈ b₂, isBlank c = true) ∧
      (argumentOf line = none ∨ argumentOf line = some l ∧ (b₁ ≠ [] ∨ b₂ ≠ []) ∧
        ∃ c l', l = c :: l' ∧ isBlank c = false) := by
  unfold Tidy at h
  obtain ⟨hb, rfl⟩ | ⟨c, a, hb, rfl, hc⟩ := interpreterOf_eq_some hi
  · rw [hb] at h
    exact absurd trivial h
  · rw [hb] at h
    have hsplit : a.takeWhile isBlank ++ (a.dropWhile isBlank).rdropWhile isBlank ++
        (a.dropWhile isBlank).rtakeWhile isBlank = a := by
      rw [List.append_assoc, List.rdropWhile_append_rtakeWhile, List.takeWhile_append_dropWhile]
    have harg : ((behindName line).dropWhile isBlank).rdropWhile isBlank =
        (a.dropWhile isBlank).rdropWhile isBlank := by
      rw [hb, List.dropWhile_cons_of_pos hc]
    have htake : ∀ c ∈ (a.dropWhile isBlank).rtakeWhile isBlank, isBlank c = true := fun c hc =>
      List.mem_rtakeWhile_imp hc
    refine ⟨_, _, _, congrArg some hsplit.symm, fun c hc => List.mem_takeWhile_imp hc, htake, ?_⟩
    obtain ⟨l, hl⟩ : ∃ l, l = (a.dropWhile isBlank).rdropWhile isBlank := ⟨_, rfl⟩
    rw [← hl] at harg hsplit ⊢
    by_cases hne : l = []
    · exact .inl (argumentOf_eq_none (harg.trans hne))
    · obtain ⟨d, l', rfl⟩ := List.exists_cons_of_ne_nil hne
      have hd : isBlank d = false := by
        obtain ⟨t, ht⟩ : d :: l' <+: a.dropWhile isBlank := hl ▸ List.rdropWhile_prefix _ _
        have hnot := List.head?_dropWhile_not isBlank a
        rw [← ht] at hnot
        simpa using hnot
      refine .inr ⟨argumentOf_eq_some harg hne, ?_, d, l', rfl, hd⟩
      by_contra hnil
      rw [not_or, not_not, not_not] at hnil
      rw [hnil.1, hnil.2, List.nil_append, List.append_nil] at hsplit
      refine h ⟨hsplit ▸ hne, ?_, ?_⟩
      · rw [← hsplit]
        rintro c ⟨⟩
        exact hd
      · have hlast := List.rdropWhile_last_not isBlank (a.dropWhile isBlank) (by rw [← hl]; exact hne)
        simp only [← hl] at hlast
        rw [← hsplit]
        rintro c hc'
        rw [List.getLast?_eq_some_getLast hne] at hc'
        cases hc'
        simpa using hlast

/-! ## The loops -/

theorem strchr_spec (h : Spells buf k l) (hc : buf (k + l.length) = c) (hl : ∀ b ∈ l, b ≠ c)
    (hn : l.length < n) : strchr buf c n k = some (k + l.length) := by
  induction l generalizing k n with
  | nil =>
    cases n with
    | zero => exact absurd hn (Nat.not_lt_zero _)
    | succ n => exact if_pos hc
  | cons b l ih =>
    cases n with
    | zero => exact absurd hn (Nat.not_lt_zero _)
    | succ n =>
      obtain ⟨hb, hl⟩ := List.forall_mem_cons.1 hl
      rw [List.length_cons, show k + (l.length + 1) = k + 1 + l.length by omega] at hc ⊢
      unfold strchr
      rw [if_neg (by rw [h.2.1]; exact hb), if_neg (by rw [h.2.1]; exact h.1)]
      exact ih h.2.2 hc hl (by simpa using hn)

/-- What `strchr` finds. -/
theorem strchr_eq_some {j : ℕ} (h : strchr buf c n k = some j) :
    ∃ l, j = k + l.length ∧ Spells buf k l ∧ buf j = c ∧ (∀ b ∈ l, b ≠ c) ∧ l.length < n := by
  induction n generalizing k with
  | zero => cases h
  | succ n ih =>
    unfold strchr at h
    split_ifs at h with h1 h2
    · obtain rfl := Option.some.inj h
      exact ⟨[], rfl, trivial, h1, by simp, by simp⟩
    · obtain ⟨l, hj, hs, hc, hl, hn⟩ := ih h
      refine ⟨buf k :: l, ?_, ⟨h2, rfl, hs⟩, hc, List.forall_mem_cons.2 ⟨h1, hl⟩, ?_⟩
      · rw [hj, List.length_cons]
        omega
      · rw [List.length_cons]
        omega

theorem skipBlanks_spec (h : Spells buf k l) (h0 : buf (k + l.length) = 0) (hn : l.length < n) :
    skipBlanks buf n k = k + (l.takeWhile isBlank).length := by
  induction l generalizing k n with
  | nil =>
    cases n with
    | zero => exact absurd hn (Nat.not_lt_zero _)
    | succ n =>
      unfold skipBlanks
      have h0 : buf k = 0 := h0
      rw [if_neg (by rw [h0]; decide)]
      rfl
  | cons c l ih =>
    cases n with
    | zero => exact absurd hn (Nat.not_lt_zero _)
    | succ n =>
      rw [List.length_cons, show k + (l.length + 1) = k + 1 + l.length by omega] at h0
      unfold skipBlanks
      rw [h.2.1, List.takeWhile_cons]
      by_cases hc : isBlank c = true
      · rw [if_pos hc, if_pos hc, ih h.2.2 h0 (by simpa using hn), List.length_cons]
        omega
      · rw [if_neg hc, if_neg hc]
        rfl

theorem baseName_cons (c : Byte) (l : List Byte) : baseName (c :: l) =
    if 0x2f ∈ l then baseName l else if c = 0x2f then l else c :: l := by
  unfold baseName List.rtakeWhile
  rw [List.reverse_cons, List.takeWhile_append]
  by_cases hl : (0x2f : Byte) ∈ l
  · rw [if_pos hl, if_neg]
    intro hlen
    have hall := List.takeWhile_eq_self_iff.1
      ((List.takeWhile_prefix (l := l.reverse) _).eq_of_length hlen)
    have := hall _ (List.mem_reverse.2 hl)
    simp at this
  · have hall : l.reverse.takeWhile (fun c => c != 0x2f) = l.reverse := by
      refine List.takeWhile_eq_self_iff.2 fun b hb => ?_
      have hne : b ≠ 0x2f := by
        rintro rfl
        exact hl (List.mem_reverse.1 hb)
      simpa using hne
    rw [if_neg hl, if_pos (by rw [hall]), List.reverse_append, List.reverse_reverse]
    by_cases hc : c = 0x2f
    · rw [if_pos hc, hc]
      rfl
    · rw [if_neg hc, List.takeWhile_cons, if_pos (by simpa using hc)]
      rfl

theorem baseName_length_le (l : List Byte) : (baseName l).length ≤ l.length :=
  (List.rtakeWhile_suffix _ l).length_le

/-- The loop over the name stops behind it, with `i_name` behind the last slash. -/
theorem scanName_spec (h : Spells buf k l) (h0 : buf (k + l.length) = 0) (hn : l.length < n) :
    scanName buf n k i = (k + (l.takeWhile fun c => !isBlank c).length,
      if 0x2f ∈ l.takeWhile (fun c => !isBlank c) then
        k + (l.takeWhile fun c => !isBlank c).length -
          (baseName (l.takeWhile fun c => !isBlank c)).length
      else i) := by
  induction l generalizing k n i with
  | nil =>
    cases n with
    | zero => exact absurd hn (Nat.not_lt_zero _)
    | succ n =>
      unfold scanName
      have h0 : buf k = 0 := h0
      rw [if_neg (fun hx => hx.1 h0)]
      rfl
  | cons c l ih =>
    cases n with
    | zero => exact absurd hn (Nat.not_lt_zero _)
    | succ n =>
      rw [List.length_cons, show k + (l.length + 1) = k + 1 + l.length by omega] at h0
      unfold scanName
      rw [h.2.1, List.takeWhile_cons]
      by_cases hc : isBlank c = true
      · rw [if_neg (fun hx => hx.2 hc), hc]
        rfl
      · have hlen := baseName_length_le (l.takeWhile fun c => !isBlank c)
        rw [if_pos ⟨h.1, hc⟩, if_pos (show (!isBlank c) = true by simpa using hc), ih h.2.2 h0 (by simpa using hn),
          List.length_cons, baseName_cons]
        refine Prod.ext (by simp only; omega) ?_
        by_cases hs : (0x2f : Byte) ∈ l.takeWhile fun c => !isBlank c
        · rw [if_pos hs, if_pos hs, if_pos (List.mem_cons_of_mem _ hs)]
          simp only
          omega
        · rw [if_neg hs, if_neg hs]
          by_cases hcs : c = 0x2f
          · rw [if_pos hcs, if_pos hcs, if_pos (by rw [hcs]; exact List.mem_cons_self)]
            simp only
            omega
          · rw [if_neg hcs, if_neg hcs, if_neg]
            rintro (_ | ⟨_, hm⟩)
            · exact hcs rfl
            · exact hs hm

/-! ## Finding the interpreter -/

/-- The pointers are at the strings that the line is made of. -/
structure Parsed (s : Script) (name : List Byte) (arg : Option (List Byte)) : Prop where
  interp : Ends s.buf s.interp name
  iName : Ends s.buf s.iName (baseName name)
  iArg : Option.Rel (Ends s.buf) s.iArg arg

theorem baseName_eq_self (h : (0x2f : Byte) ∉ l) : baseName l = l := by
  refine List.rtakeWhile_eq_self_iff.2 fun b hb => ?_
  have hne : b ≠ 0x2f := by
    rintro rfl
    exact h hb
  simpa using hne

/-- A string ends with its base name. -/
theorem Ends.baseName (h : Ends buf k name) :
    Ends buf (k + name.length - (Execve.baseName name).length) (Execve.baseName name) := by
  obtain ⟨pre, hpre⟩ : ∃ pre, pre ++ Execve.baseName name = name := List.rtakeWhile_suffix _ name
  obtain ⟨base, hbase⟩ : ∃ base, base = Execve.baseName name := ⟨_, rfl⟩
  rw [← hbase] at hpre ⊢
  obtain ⟨htext, hzero, hlt⟩ := h
  rw [← hpre] at htext hzero hlt ⊢
  rw [List.length_append] at hzero hlt ⊢
  rw [show k + (pre.length + base.length) - base.length = k + pre.length by omega]
  exact ⟨(spells_append.1 htext).2, by rw [Nat.add_assoc]; exact hzero, by omega⟩

theorem strncpy_eq {src : ℕ → Byte} (hk : k < n) (h : ∀ j < k, src j ≠ 0) :
    strncpy src n k = src k := if_pos ⟨hk, h⟩

/-- The copy of the line, with a zero in place of the newline. -/
theorem LineAt.copied (h : LineAt data line) :
    ∃ buf, parse data =
        (let cp := skipBlanks buf 1023 0
        if buf cp = 0 then none
        else
          let r := scanName buf 1023 cp cp
          if buf r.1 ≠ 0 then some ⟨Function.update buf r.1 0, cp, r.2, some (r.1 + 1)⟩
          else some ⟨buf, cp, r.2, none⟩) ∧
      Spells buf 0 line ∧ buf line.length = 0 := by
  obtain ⟨htext, hnl, hplain, hlt⟩ := h
  have hcopy : ∀ k ≤ line.length, strncpy (fun k => data (k + 2)) 1022 k = data (k + 2) := fun k hk =>
    strncpy_eq (by omega) fun j hj => (htext.get (Nat.zero_le j) (by omega)).1
  have htext' : Spells (strncpy (fun k => data (k + 2)) 1022) 0 line :=
    htext.congr fun j _ hj => hcopy j (by omega)
  have hchr : strchr (strncpy (fun k => data (k + 2)) 1022) 0x0a 1023 0 = some line.length := by
    have := strchr_spec (c := 0x0a) htext' (by rw [Nat.zero_add, hcopy _ le_rfl, hnl]) hplain
      (n := 1023) (by omega)
    rwa [Nat.zero_add] at this
  refine ⟨Function.update (strncpy (fun k => data (k + 2)) 1022) line.length 0, ?_,
    htext'.congr fun j _ hj => Function.update_of_ne (by omega) _ _, Function.update_self ..⟩
  unfold parse
  simp only [hchr]

/-- **The pointers of the `#!` section** are at the words of the line. -/
theorem parse_eq_some (h : LineAt data line) {arg : Option (List Byte)}
    (hi : interpreterOf line = some (name, arg)) : ∃ s, parse data = some s ∧ Parsed s name arg := by
  have hlt := h.lt
  obtain ⟨buf, hparse, htext, hzero⟩ := h.copied
  obtain ⟨b, hb⟩ : ∃ b, b = (line.takeWhile isBlank).length := ⟨_, rfl⟩
  have hskip : skipBlanks buf 1023 0 = b := by
    rw [skipBlanks_spec htext (by rw [Nat.zero_add]; exact hzero) (by omega), Nat.zero_add, hb]
  have hlen : b + (line.dropWhile isBlank).length = line.length := by
    rw [hb, ← List.length_append, List.takeWhile_append_dropWhile]
  have hrest : Spells buf b (line.dropWhile isBlank) := by
    rw [← List.takeWhile_append_dropWhile (p := isBlank) (l := line), spells_append, Nat.zero_add,
      ← hb] at htext
    exact htext.2
  unfold interpreterOf at hi
  cases hl : line.dropWhile isBlank with
  | nil =>
    rw [hl] at hi
    cases hi
  | cons c l =>
    rw [hl] at hi hrest hlen
    simp only [Option.some.injEq, Prod.mk.injEq] at hi
    obtain ⟨rfl, harg⟩ := hi
    have hzero' : buf (b + (c :: l).length) = 0 := by rw [hlen]; exact hzero
    obtain ⟨name, hname⟩ : ∃ name, name = (c :: l).takeWhile fun c => !isBlank c := ⟨_, rfl⟩
    have hscan := scanName_spec (i := b) hrest hzero' (n := 1023) (by omega)
    rw [← hname] at hscan ⊢
    have hsplit : name ++ (c :: l).dropWhile (fun c => !isBlank c) = c :: l := by
      rw [hname, List.takeWhile_append_dropWhile]
    -- Without a slash the base name is the whole name.
    have hbase : (if 0x2f ∈ name then b + name.length - (baseName name).length else b) =
        b + name.length - (baseName name).length := by
      by_cases hs : (0x2f : Byte) ∈ name
      · rw [if_pos hs]
      · rw [if_neg hs, baseName_eq_self hs]
        omega
    rw [hbase] at hscan
    rw [hskip, if_neg (by rw [hrest.2.1]; exact hrest.1), hscan] at hparse
    simp only at hparse
    rw [← hsplit] at hrest hlen hzero'
    rw [List.length_append] at hlen hzero'
    obtain ⟨htextName, htextRest⟩ := spells_append.1 hrest
    cases hd : (c :: l).dropWhile (fun c => !isBlank c) with
    | nil =>
      rw [hd] at harg hzero' hlen
      have hz : buf (b + name.length) = 0 := hzero'
      have hE : Ends buf b name := ⟨htextName, hz, by omega⟩
      rw [if_neg (not_not.2 hz)] at hparse
      refine ⟨_, hparse, hE, hE.baseName, ?_⟩
      rw [← harg]
      exact .none
    | cons d a =>
      rw [hd, List.length_cons] at hzero' hlen
      rw [hd] at harg htextRest
      have hd0 : buf (b + name.length) ≠ 0 := by rw [htextRest.2.1]; exact htextRest.1
      rw [if_pos hd0] at hparse
      have hE : Ends (Function.update buf (b + name.length) 0) b name :=
        ⟨htextName.congr fun j _ hj => Function.update_of_ne (by omega) _ _, Function.update_self ..,
          by omega⟩
      refine ⟨_, hparse, hE, hE.baseName, ?_⟩
      rw [← harg]
      refine .some ⟨htextRest.2.2.congr fun j hj _ => Function.update_of_ne (by omega) _ _, ?_, by omega⟩
      show Function.update buf (b + name.length) 0 (b + name.length + 1 + a.length) = 0
      rw [Function.update_of_ne (by omega), ← hzero']
      congr 1
      omega

theorem parse_eq_none (h : LineAt data line) (hi : interpreterOf line = none) : parse data = none := by
  have hlt := h.lt
  obtain ⟨buf, hparse, htext, hzero⟩ := h.copied
  unfold interpreterOf at hi
  cases hl : line.dropWhile isBlank with
  | cons c l =>
    rw [hl] at hi
    cases hi
  | nil =>
    have hall : line.takeWhile isBlank = line := by
      have := List.takeWhile_append_dropWhile (p := isBlank) (l := line)
      rwa [hl, List.append_nil] at this
    have hskip : skipBlanks buf 1023 0 = line.length := by
      rw [skipBlanks_spec htext (by rw [Nat.zero_add]; exact hzero) (by omega), Nat.zero_add, hall]
    rw [hparse, hskip]
    exact if_pos hzero

/-- A file whose interpreter is found has a first line that names it. -/
theorem exists_line (h : parse data = some s) :
    ∃ line name arg, LineAt data line ∧ interpreterOf line = some (name, arg) ∧ Parsed s name arg := by
  cases hchr : strchr (strncpy (fun k => data (k + 2)) 1022) 0x0a 1023 0 with
  | none =>
    unfold parse at h
    simp only [hchr] at h
    cases h
  | some j =>
    obtain ⟨line, hj, htext, hnl, hplain, -⟩ := strchr_eq_some hchr
    rw [Nat.zero_add] at hj
    have hcopied : ∀ k, strncpy (fun k => data (k + 2)) 1022 k ≠ 0 →
        k < 1022 ∧ strncpy (fun k => data (k + 2)) 1022 k = data (k + 2) := fun k hk => by
      unfold strncpy at hk ⊢
      split_ifs at hk ⊢ with hc
      · exact ⟨hc.1, rfl⟩
      · exact absurd rfl hk
    obtain ⟨hlt, hdata⟩ := hcopied j (by rw [hnl]; decide)
    have hline : LineAt data line := by
      refine ⟨htext.congr fun k h1 h2 => (hcopied k (htext.get h1 h2).1).2.symm, ?_, hplain, by omega⟩
      rw [← hj, ← hdata, hnl]
    cases hi : interpreterOf line with
    | none =>
      rw [parse_eq_none hline hi] at h
      cases h
    | some r =>
      obtain ⟨name, arg⟩ := r
      obtain ⟨s', hs', hp⟩ := parse_eq_some hline hi
      rw [h] at hs'
      obtain rfl := Option.some.inj hs'
      exact ⟨line, name, arg, hline, hi, hp⟩

end Linux011.Execve
