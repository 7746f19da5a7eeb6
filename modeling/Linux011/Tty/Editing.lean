import Linux011.Tty.Canonical
import Linux011.Tty.SavedCursor

/-!
# Line editing

Between the characters that end a line, `secondary` is a stack: a character pushes itself, the erase
character pops, and the kill character empties it. `copy_to_cooked` reads a `signed char`, and `c_cc` is
unsigned: control characters from 128 on are never recognised.

1. `editLine`: the stack. `readLine`: the stack with the control characters that are recognised.
   `Termios.Edits`: the characters of the input.
2. `Recovers`, `Spares`: when the two agree, `readLine_eq_iff`, `readLine_append_iff`.
3. `cookChar_edit`, `unfinished_eq`: what `copy_to_cooked` does with a character, and what it finds.
4. `Editing`: a call under way, and what is still to come. `editing_step`.
5. `line_edited`.
-/

namespace Linux011.Tty

/-! ## The stacks -/

namespace Termios

variable (u : Termios)

def editChar (l : List Byte) (c : Byte) : List Byte :=
  if c = u.cCc vkill then [] else if c = u.cCc verase then l.dropLast else l ++ [c]

def editLine (l cs : List Byte) : List Byte := cs.foldl u.editChar l

/-- A newline or an end of file. -/
def Terminates (c : Byte) : Prop := c = 10 ∨ c = u.cCc veof

/-- No terminator, and no control character. -/
structure Ordinary (c : Byte) : Prop where
  terminates : ¬u.Terminates c
  control : ∀ k ∈ [vkill, verase, vstop, vstart, vintr, vquit], c ≠ u.cCc k

/-- What the input is made of: `c_iflag` leaves it alone. -/
structure Edits (below : Byte → Byte) (c : Byte) : Prop where
  input : u.input below c = some c
  kind : c = u.cCc vkill ∨ c = u.cCc verase ∨ u.Ordinary c

/-- Those that editing depends on are different. -/
def Distinct : Prop := [u.cCc vkill, u.cCc verase, u.cCc veof].Nodup

/-- The same with the characters that the comparison recognises. -/
def readChar (l : List Byte) (c : Byte) : List Byte :=
  if u.isCc vkill c then [] else if u.isCc verase c then l.dropLast else l ++ [c]

def readLine (l cs : List Byte) : List Byte := cs.foldl u.readChar l

/-- How many characters are on a line that had `n`. -/
def onLine (n : ℕ) (cs : List Byte) : ℕ :=
  cs.foldl (fun n c => if u.isCc vkill c then 0 else if u.isCc verase c then n - 1 else n + 1) n

/-- It should be recognised, and is not. -/
def Missed (c : Byte) : Prop := (c = u.cCc vkill ∨ c = u.cCc verase) ∧ 128 ≤ c.toNat

/-- After each character that was missed, there is nothing on the line at some point. -/
def Recovers (n : ℕ) (cs : List Byte) : Prop :=
  ∀ a c b, cs = a ++ c :: b → u.Missed c → ∃ p, p <+: b ∧ u.onLine n (a ++ c :: p) = 0

/-- There is no kill character, and no erase character when nothing is on the line. -/
def Spares (n : ℕ) (cs : List Byte) : Prop :=
  ∀ p c, p ++ [c] <+: cs → u.isCc vkill c = false ∧ (u.isCc verase c = true → u.onLine n p ≠ 0)

/-- `secondary`, which has `n` characters before the line, is not full before any of the characters. -/
def HasRoom (n m : ℕ) (cs : List Byte) : Prop := ∀ p c, p ++ [c] <+: cs → n + u.onLine m p < 1023

end Termios

section Stacks

variable {u : Termios} {c e : Byte} {k : Fin 17} {l l' m cs : List Byte} {n nr : ℕ}

theorem eq_of_isCc (h : u.isCc k c = true) : c = u.cCc k := by
  have h : c.toInt = (u.cCc k).toNat := beq_iff_eq.1 h
  have hlt := c.isLt
  rw [BitVec.toInt_eq_toNat_cond] at h
  apply BitVec.eq_of_toNat_eq
  split_ifs at h <;> omega

theorem isCc_of_eq (h : c = u.cCc k) (hlt : c.toNat < 128) : u.isCc k c = true := by
  apply beq_iff_eq.2
  rw [← h, BitVec.toInt_eq_toNat_cond, if_pos (by omega)]

theorem isCc_eq_false (h : c ≠ u.cCc k) : u.isCc k c = false :=
  Bool.eq_false_iff.2 fun h' => h (eq_of_isCc h')

theorem isCc_of_le (hle : 128 ≤ c.toNat) : u.isCc k c = false := by
  refine Bool.eq_false_iff.2 fun h => ?_
  have h : c.toInt = (u.cCc k).toNat := beq_iff_eq.1 h
  have hlt := c.isLt
  rw [BitVec.toInt_eq_toNat_cond] at h
  split_ifs at h <;> omega

theorem ends_eq_false (h : ¬u.Terminates c) : u.ends c = false := by
  unfold Termios.ends
  rw [isCc_eq_false fun h' => h (.inr h'), Bool.or_false]
  exact beq_eq_false_iff_ne.2 fun h' => h (.inl h')

theorem ends_of_terminates (h : u.Terminates c) (hlt : c.toNat < 128) : u.ends c = true := by
  unfold Termios.ends
  obtain rfl | h := h
  · rfl
  · rw [isCc_of_eq h hlt, Bool.or_true]

theorem ends_of_le (hle : 128 ≤ c.toNat) : u.ends c = false := by
  unfold Termios.ends
  rw [isCc_of_le hle, Bool.or_false]
  refine beq_eq_false_iff_ne.2 ?_
  rintro rfl
  exact absurd hle (by decide)

theorem length_readChar : (u.readChar l c).length = u.onLine l.length [c] := by
  unfold Termios.readChar Termios.onLine
  rw [List.foldl_cons, List.foldl_nil]
  split_ifs
  · rfl
  · exact List.length_dropLast
  · exact List.length_append

theorem onLine_cons : u.onLine n (c :: cs) = u.onLine (u.onLine n [c]) cs := rfl

/-- What a character does to both stacks: it is recognised, missed, or neither erase nor kill. -/
theorem readChar_cases (u : Termios) (c : Byte) :
    (¬u.Missed c ∧ ∀ l, u.readChar l c = u.editChar l c) ∨
    (u.Missed c ∧ (∀ l, u.readChar l c = l ++ [c]) ∧ ∀ l, (u.editChar l c).length ≤ l.length) := by
  by_cases hkill : c = u.cCc vkill
  · by_cases hlt : c.toNat < 128
    · refine .inl ⟨fun h => absurd h.2 (by omega), fun l => ?_⟩
      unfold Termios.readChar Termios.editChar
      rw [if_pos (isCc_of_eq hkill hlt), if_pos hkill]
    · have hle : 128 ≤ c.toNat := Nat.le_of_not_lt hlt
      refine .inr ⟨⟨.inl hkill, hle⟩, fun l => ?_, fun l => ?_⟩
      · unfold Termios.readChar
        rw [isCc_of_le hle, isCc_of_le hle, if_neg Bool.false_ne_true, if_neg Bool.false_ne_true]
      · unfold Termios.editChar
        rw [if_pos hkill]
        exact Nat.zero_le _
  by_cases herase : c = u.cCc verase
  · by_cases hlt : c.toNat < 128
    · refine .inl ⟨fun h => absurd h.2 (by omega), fun l => ?_⟩
      unfold Termios.readChar Termios.editChar
      rw [if_neg fun h => hkill (eq_of_isCc h), if_pos (isCc_of_eq herase hlt), if_neg hkill, if_pos herase]
    · have hle : 128 ≤ c.toNat := Nat.le_of_not_lt hlt
      refine .inr ⟨⟨.inr herase, hle⟩, fun l => ?_, fun l => ?_⟩
      · unfold Termios.readChar
        rw [isCc_of_le hle, isCc_of_le hle, if_neg Bool.false_ne_true, if_neg Bool.false_ne_true]
      · unfold Termios.editChar
        rw [if_neg hkill, if_pos herase, List.length_dropLast]
        exact Nat.sub_le _ _
  · refine .inl ⟨fun h => h.1.elim hkill herase, fun l => ?_⟩
    unfold Termios.readChar Termios.editChar
    rw [if_neg fun h => hkill (eq_of_isCc h), if_neg fun h => herase (eq_of_isCc h), if_neg hkill,
      if_neg herase]

theorem exists_prefix_cons (c : Byte) (cs : List Byte) (hn : n ≠ 0) :
    (∃ p, p <+: c :: cs ∧ u.onLine n p = 0) ↔ ∃ p, p <+: cs ∧ u.onLine (u.onLine n [c]) p = 0 := by
  constructor
  · rintro ⟨p, hp, hzero⟩
    obtain rfl | ⟨q, rfl, hq⟩ := List.prefix_cons_iff.1 hp
    · exact absurd hzero hn
    · exact ⟨q, hq, hzero⟩
  · rintro ⟨p, hp, hzero⟩
    exact ⟨c :: p, List.cons_prefix_cons.2 ⟨rfl, hp⟩, hzero⟩

theorem recovers_nil : u.Recovers n [] := fun a c b h => by
  cases a <;> cases h

theorem recovers_cons : u.Recovers n (c :: cs) ↔
    (u.Missed c → ∃ p, p <+: cs ∧ u.onLine (u.onLine n [c]) p = 0) ∧
      u.Recovers (u.onLine n [c]) cs := by
  constructor
  · intro h
    refine ⟨fun hc => h [] c cs rfl hc, fun a d b hcs hd => ?_⟩
    obtain ⟨p, hp, hzero⟩ := h (c :: a) d b (congrArg (c :: ·) hcs) hd
    exact ⟨p, hp, hzero⟩
  · rintro ⟨hc, hcs⟩ a d b hab hd
    cases a with
    | nil =>
      cases hab
      exact hc hd
    | cons x a =>
      cases hab
      exact hcs a d b rfl hd

/-- A line that is longer stays longer, or both are empty. -/
theorem editChar_shorter (h : l'.length < l.length) (c : Byte) :
    u.editChar l c = [] ∧ u.editChar l' c = [] ∨ (u.editChar l' c).length < (u.editChar l c).length := by
  unfold Termios.editChar
  by_cases hkill : c = u.cCc vkill
  · rw [if_pos hkill, if_pos hkill]
    exact .inl ⟨rfl, rfl⟩
  rw [if_neg hkill, if_neg hkill]
  by_cases herase : c = u.cCc verase
  · rw [if_pos herase, if_pos herase, ← List.length_eq_zero_iff, ← List.length_eq_zero_iff,
      List.length_dropLast, List.length_dropLast]
    omega
  · rw [if_neg herase, if_neg herase, List.length_append, List.length_append]
    exact .inr (Nat.add_lt_add_right h _)

/-- Once the stacks are apart, the one with what is recognised is longer until nothing is on it. -/
theorem readLine_eq_editLine_iff (h : l = l' ∨ l'.length < l.length) :
    u.readLine l cs = u.editLine l' cs ↔
      (l ≠ l' → ∃ p, p <+: cs ∧ u.onLine l.length p = 0) ∧ u.Recovers l.length cs := by
  induction cs generalizing l l' with
  | nil =>
    refine ⟨fun heq => ⟨fun hne => absurd heq hne, recovers_nil⟩, fun hiff => ?_⟩
    by_contra hne
    obtain ⟨p, hp, hzero⟩ := hiff.1 hne
    obtain rfl := List.prefix_nil.1 hp
    have hlt := h.resolve_left hne
    have hzero : l.length = 0 := hzero
    omega
  | cons c cs ih =>
    have hpos : l ≠ l' → l.length ≠ 0 := fun hne => Nat.ne_zero_of_lt (h.resolve_left hne)
    show u.readLine (u.readChar l c) cs = u.editLine (u.editChar l' c) cs ↔ _
    rw [recovers_cons, ← length_readChar]
    obtain ⟨hseen, hread⟩ | ⟨hmissed, hread, hedit⟩ := readChar_cases u c
    · rw [hread]
      obtain rfl | hlt := h
      · rw [ih (.inl rfl)]
        exact ⟨fun hr => ⟨fun hne => absurd rfl hne, fun hm => absurd hm hseen, hr.2⟩,
          fun hr => ⟨fun hne => absurd rfl hne, hr.2.2⟩⟩
      have hne : l ≠ l' := by
        rintro rfl
        exact absurd hlt (Nat.lt_irrefl _)
      have hempties := exists_prefix_cons (u := u) c cs (hpos hne)
      rw [← length_readChar, hread] at hempties
      obtain ⟨hnil, hnil'⟩ | hlt := editChar_shorter (u := u) hlt c
      · rw [hnil, hnil', ih (.inl rfl)]
        rw [hnil] at hempties
        exact ⟨fun hr => ⟨fun _ => hempties.2 ⟨[], List.nil_prefix, rfl⟩, fun hm => absurd hm hseen, hr.2⟩,
          fun hr => ⟨fun hne => absurd rfl hne, hr.2.2⟩⟩
      · have hne' : u.editChar l c ≠ u.editChar l' c := fun heq => by
          rw [heq] at hlt
          exact absurd hlt (Nat.lt_irrefl _)
        rw [ih (.inr hlt)]
        exact ⟨fun hr => ⟨fun _ => hempties.2 (hr.1 hne'), fun hm => absurd hm hseen, hr.2⟩,
          fun hr => ⟨fun _ => hempties.1 (hr.1 hne), hr.2.2⟩⟩
    · have hlt : (u.editChar l' c).length < (u.readChar l c).length := by
        have hle : l'.length ≤ l.length := h.elim (fun heq => le_of_eq (congrArg _ heq.symm)) le_of_lt
        rw [hread, List.length_append]
        exact Nat.lt_succ_of_le ((hedit l').trans hle)
      have hne : u.readChar l c ≠ u.editChar l' c := fun heq => by
        rw [heq] at hlt
        exact absurd hlt (Nat.lt_irrefl _)
      have hempties := fun hne => exists_prefix_cons (u := u) c cs (hpos hne)
      rw [← length_readChar] at hempties
      rw [ih (.inr hlt)]
      exact ⟨fun hr => ⟨fun hne' => (hempties hne').2 (hr.1 hne), fun _ => hr.1 hne, hr.2⟩,
        fun hr => ⟨fun _ => hr.2.1 hmissed, hr.2.2⟩⟩

theorem spares_nil : u.Spares n [] := fun p c h => by
  cases p <;> cases List.prefix_nil.1 h

theorem spares_cons : u.Spares n (c :: cs) ↔
    (u.isCc vkill c = false ∧ (u.isCc verase c = true → n ≠ 0)) ∧ u.Spares (u.onLine n [c]) cs := by
  constructor
  · exact fun h => ⟨h [] c ⟨cs, rfl⟩, fun p d hp => h (c :: p) d (List.cons_prefix_cons.2 ⟨rfl, hp⟩)⟩
  · rintro ⟨hc, hcs⟩ p d hp
    cases p with
    | nil =>
      obtain ⟨rfl, -⟩ := List.cons_prefix_cons.1 hp
      exact hc
    | cons x p =>
      obtain ⟨rfl, hp'⟩ := List.cons_prefix_cons.1 hp
      exact hcs p d hp'

/-- What has been popped is not pushed again. -/
theorem not_prefix_readLine (he : e ∉ cs) (h : ¬m ++ [e] <+: l) : ¬m ++ [e] <+: u.readLine l cs := by
  induction cs generalizing l with
  | nil => exact h
  | cons c cs ih =>
    have hc : e ≠ c := List.ne_of_not_mem_cons he
    refine ih (List.not_mem_of_not_mem_cons he) ?_
    unfold Termios.readChar
    split_ifs
    · exact fun hp => absurd (List.prefix_nil.1 hp) (List.concat_ne_nil e m)
    · exact fun hp => h (hp.trans (List.dropLast_prefix l))
    · intro hp
      obtain hp | hp := List.prefix_concat_iff.1 hp
      · exact hc (List.singleton_inj.1 (List.append_inj_right' hp rfl))
      · exact h hp

/-- What is before the line stays there if and only if the input spares it. -/
theorem readLine_append_iff (he : e ∉ cs) :
    u.readLine (m ++ [e] ++ l) cs = m ++ [e] ++ l' ↔ u.Spares l.length cs ∧ u.readLine l cs = l' := by
  induction cs generalizing l with
  | nil =>
    rw [and_iff_right spares_nil]
    exact List.append_right_inj _
  | cons c cs ih =>
    have hcs : e ∉ cs := List.not_mem_of_not_mem_cons he
    show u.readLine (u.readChar (m ++ [e] ++ l) c) cs = _ ↔ _ ∧ u.readLine (u.readChar l c) cs = l'
    rw [spares_cons, ← length_readChar]
    have hgone : ∀ l₁, ¬m ++ [e] <+: l₁ → u.readLine l₁ cs ≠ m ++ [e] ++ l' := fun l₁ hl₁ heq =>
      not_prefix_readLine (u := u) hcs hl₁ (heq ▸ List.prefix_append _ _)
    by_cases hkill : u.isCc vkill c = true
    · have hread : u.readChar (m ++ [e] ++ l) c = [] := if_pos hkill
      rw [hread]
      refine iff_of_false (hgone [] fun hp => absurd (List.prefix_nil.1 hp) (List.concat_ne_nil e m)) ?_
      rintro ⟨⟨⟨hno, -⟩, -⟩, -⟩
      exact absurd hkill (Bool.eq_false_iff.1 hno)
    by_cases herase : u.isCc verase c = true
    · have hread : ∀ l, u.readChar l c = l.dropLast := fun l => (if_neg hkill).trans (if_pos herase)
      by_cases hnil : l = []
      · rw [hread, hnil, List.append_nil, List.dropLast_concat]
        refine iff_of_false (hgone m fun hp => ?_) fun h => h.1.1.2 herase rfl
        have hlen := hp.length_le
        rw [List.length_append] at hlen
        exact absurd hlen (Nat.not_succ_le_self _)
      · rw [hread, List.dropLast_append_of_ne_nil hnil, ih hcs, hread]
        have hne : l.length ≠ 0 := fun h => hnil (List.length_eq_zero_iff.1 h)
        exact ⟨fun h => ⟨⟨⟨Bool.eq_false_iff.2 hkill, fun _ => hne⟩, h.1⟩, h.2⟩, fun h => ⟨h.1.2, h.2⟩⟩
    · have hread : ∀ l, u.readChar l c = l ++ [c] := fun l => (if_neg hkill).trans (if_neg herase)
      rw [hread, hread, List.append_assoc _ l, ih hcs]
      exact ⟨fun h => ⟨⟨⟨Bool.eq_false_iff.2 hkill, fun h' => absurd h' herase⟩, h.1⟩, h.2⟩,
        fun h => ⟨h.1.2, h.2⟩⟩

theorem hasRoom_cons : u.HasRoom n nr (c :: cs) ↔ n + nr < 1023 ∧ u.HasRoom n (u.onLine nr [c]) cs := by
  constructor
  · exact fun h => ⟨h [] c ⟨cs, rfl⟩, fun p d hp => h (c :: p) d (List.cons_prefix_cons.2 ⟨rfl, hp⟩)⟩
  · rintro ⟨hc, hcs⟩ p d hp
    cases p with
    | nil => exact hc
    | cons x p =>
      obtain ⟨rfl, hp'⟩ := List.cons_prefix_cons.1 hp
      exact hcs p d hp'

theorem onLine_le (n : ℕ) (cs : List Byte) : u.onLine n cs ≤ n + cs.length := by
  induction cs generalizing n with
  | nil => exact Nat.le_refl n
  | cons c cs ih =>
    have hstep : u.onLine n [c] ≤ n + 1 := by
      unfold Termios.onLine
      rw [List.foldl_cons, List.foldl_nil]
      split_ifs <;> omega
    rw [onLine_cons, List.length_cons]
    exact (ih _).trans (by omega)

theorem hasRoom_of_length (h : n + nr + cs.length ≤ 1023) : u.HasRoom n nr cs := fun p c hp => by
  have hlen := hp.length_le
  have hle := onLine_le (u := u) nr p
  rw [List.length_append, List.length_singleton] at hlen
  omega

/-- An end of file of another kind than the input. -/
theorem veof_not_mem {below : Byte → Byte} (h : u.Distinct) (hcs : ∀ c ∈ cs, u.Edits below c) :
    u.cCc veof ∉ cs := by
  intro hmem
  unfold Termios.Distinct at h
  rw [List.nodup_cons, List.nodup_cons] at h
  obtain heq | heq | hordinary := (hcs _ hmem).kind
  · exact h.1 (List.mem_cons.2 (.inr (List.mem_singleton.2 heq.symm)))
  · exact h.2.1 (List.mem_singleton.2 heq.symm)
  · exact hordinary.terminates (.inr rfl)

end Stacks

section Characters

variable {u : Termios} {below : Byte → Byte} {c : Byte}

/-- What the loop of `copy_to_cooked` does with a character of the input. -/
inductive Reads (u : Termios) (t : TtyStruct) (c : Byte) : Turn → Prop
  | kills : u.isCc vkill c = true → Reads u t c ⟨t, [], some .kill, false⟩
  | erases {c' : Byte} {echo : List Byte} {write : Bool} : ¬u.isCc vkill c = true → u.isCc verase c = true →
      t.unfinished = some c' → Reads u t c ⟨t, echo, some .erased, write⟩
  | nothing : ¬u.isCc vkill c = true → u.isCc verase c = true → t.unfinished = none →
      Reads u t c ⟨t, [], some .loop, false⟩
  | stores {d : BitVec 32} {echo : List Byte} {write : Bool} : ¬u.isCc vkill c = true →
      ¬u.isCc verase c = true → u.ends c = false →
      Reads u t c ⟨{ t with data := d }, echo, some (.store c), write⟩

/-- Neither is it a terminator or another control character. -/
theorem Termios.Edits.stored (he : u.Edits below c) (hkill : ¬u.isCc vkill c = true)
    (herase : ¬u.isCc verase c = true) :
    (∀ k ∈ [vstop, vstart, vintr, vquit], ¬u.isCc k c = true) ∧ u.ends c = false := by
  have hmissed : ∀ k, c = u.cCc k → ¬u.isCc k c = true → 128 ≤ c.toNat := fun k hk hno =>
    Nat.le_of_not_lt fun hlt => hno (isCc_of_eq hk hlt)
  have hlarge : 128 ≤ c.toNat → (∀ k ∈ [vstop, vstart, vintr, vquit], ¬u.isCc k c = true) ∧ u.ends c = false :=
    fun hle => ⟨fun k _ => Bool.eq_false_iff.1 (isCc_of_le hle), ends_of_le hle⟩
  obtain h | h | h := he.kind
  · exact hlarge (hmissed _ h hkill)
  · exact hlarge (hmissed _ h herase)
  · exact ⟨fun k hk => Bool.eq_false_iff.1 (isCc_eq_false (h.control k (.tail _ (.tail _ hk)))),
      ends_eq_false h.terminates⟩

theorem cookChar_edit {t : TtyStruct} (hu : t.termios = u) (hcanon : u.l icanon = true)
    (he : u.Edits below c) : Reads u t c (cookChar below t c) := by
  subst hu
  unfold cookChar
  rw [he.input]
  dsimp only
  by_cases hkill : t.termios.isCc vkill c = true
  · rw [if_pos ⟨hcanon, hkill⟩]
    exact .kills hkill
  rw [if_neg fun h => hkill h.2]
  by_cases herase : t.termios.isCc verase c = true
  · rw [if_pos ⟨hcanon, herase⟩]
    cases hun : t.unfinished with
    | none => exact .nothing hkill herase hun
    | some c' => exact .erases hkill herase hun
  obtain ⟨hno, hends⟩ := he.stored hkill herase
  rw [if_neg fun h => herase h.2, if_neg fun h => hno vstop (by decide) h.2,
    if_neg fun h => hno vstart (by decide) h.2,
    if_neg fun h => h.2.elim (hno vintr (by decide)) (hno vquit (by decide)), hends]
  exact .stores (d := t.data) hkill herase hends

end Characters

/-! ## The queue -/

section Queue

variable {u : Termios} {t : TtyStruct} {done line : List Byte}

/-- The characters on `secondary` up to the last one that ends a line. -/
def TtyStruct.ended (t : TtyStruct) : List Byte :=
  t.secondary.contents.rdropWhile fun c => !t.termios.ends c

theorem ended_append_lastLine : t.ended ++ t.lastLine = t.secondary.contents :=
  List.rdropWhile_append_rtakeWhile

theorem ends_of_mem_ended : ∀ c ∈ t.ended.getLast?, t.termios.ends c = true := by
  intro c hc
  obtain ⟨hne, rfl⟩ := List.mem_getLast?_eq_getLast hc
  have hlast := List.rdropWhile_last_not (fun c => !t.termios.ends c) t.secondary.contents hne
  rwa [Bool.not_eq_true', Bool.not_eq_false] at hlast

theorem ends_of_mem_lastLine : ∀ c ∈ t.lastLine, t.termios.ends c = false := fun c hc => by
  have hno : (!t.termios.ends c) = true := List.mem_rtakeWhile_imp (p := fun c => !t.termios.ends c) hc
  rwa [Bool.not_eq_true'] at hno

theorem lastLine_append (hq : t.secondary.contents = done ++ line)
    (hline : ∀ c ∈ line, t.termios.ends c = false) :
    t.ended = (done.rdropWhile fun c => !t.termios.ends c) ∧
      t.lastLine = (done.rtakeWhile fun c => !t.termios.ends c) ++ line := by
  have hreverse : ∀ c ∈ line.reverse, (!t.termios.ends c) = true := fun c hc => by
    rw [hline c (List.mem_reverse.1 hc)]
    rfl
  unfold TtyStruct.ended TtyStruct.lastLine List.rdropWhile List.rtakeWhile
  rw [hq, List.reverse_append, List.dropWhile_append_of_pos hreverse, List.takeWhile_append_of_pos hreverse,
    List.reverse_append, List.reverse_reverse]
  exact ⟨rfl, rfl⟩

/-- Where the last terminator is recognised, the line begins after it. -/
theorem lastLine_of_seen (hq : t.secondary.contents = done ++ line)
    (hdone : ∀ c ∈ done.getLast?, t.termios.ends c = true) (hline : ∀ c ∈ line, t.termios.ends c = false) :
    t.ended = done ∧ t.lastLine = line := by
  have hlast : ∀ hne : done ≠ [], ¬(!t.termios.ends (done.getLast hne)) = true := fun hne => by
    rw [hdone _ (List.getLast?_eq_some_getLast hne)]
    exact Bool.false_ne_true
  obtain ⟨hended, hlastLine⟩ := lastLine_append hq hline
  rw [hended, hlastLine, List.rdropWhile_eq_self_iff.2 hlast, List.rtakeWhile_eq_nil_iff.2 hlast]
  exact ⟨rfl, rfl⟩

/-- Where it is missed, it is on the line. -/
theorem lastLine_of_missed {e : Byte} (hq : t.secondary.contents = done ++ line) (he : e ∈ done.getLast?)
    (hends : t.termios.ends e = false) (hline : ∀ c ∈ line, t.termios.ends c = false) :
    ∃ m, done = t.ended ++ (m ++ [e]) ∧ t.lastLine = m ++ [e] ++ line := by
  obtain ⟨l, rfl⟩ := List.getLast?_eq_some_iff.1 he
  have hpos : (!t.termios.ends e) = true := by
    rw [hends]
    rfl
  obtain ⟨hended, hlastLine⟩ := lastLine_append hq hline
  refine ⟨l.rtakeWhile fun c => !t.termios.ends c, ?_, ?_⟩
  · rw [hended, List.rdropWhile_concat_pos (fun c => !t.termios.ends c) _ _ hpos, ← List.append_assoc,
      List.rdropWhile_append_rtakeWhile]
  · rw [hlastLine, List.rtakeWhile_concat_pos (fun c => !t.termios.ends c) _ _ hpos]

/-- The last character of the line, or of what has ended. -/
theorem unfinished_eq (hu : t.termios = u) (hq : t.secondary.contents = done ++ line)
    (hdone : ∀ c ∈ done.getLast?, u.ends c = true) (hline : ∀ c ∈ line, u.ends c = false) :
    t.unfinished = line.getLast? := by
  subst hu
  unfold TtyStruct.unfinished
  by_cases hchars : t.secondary.chars = 0
  · rw [Fifo.isEmpty_iff.2 hchars, Bool.true_or, if_pos rfl]
    rw [Fifo.contents_eq_nil.2 hchars] at hq
    rw [(List.append_eq_nil_iff.1 hq.symm).2]
    rfl
  have hempty : t.secondary.isEmpty = false := Bool.eq_false_iff.2 fun h => hchars (Fifo.isEmpty_iff.1 h)
  have hlast : (done ++ line).getLast? = some t.secondary.last := by
    rw [← hq, Fifo.contents_unput hchars, List.getLast?_concat]
  rw [hempty, Bool.false_or]
  cases hl : line.getLast? with
  | none =>
    rw [List.getLast?_eq_none_iff.1 hl, List.append_nil] at hlast
    rw [hdone _ hlast, if_pos rfl]
  | some c =>
    rw [List.getLast?_append, hl] at hlast
    cases hlast
    rw [hline _ (List.mem_of_getLast? hl), if_neg Bool.false_ne_true]

theorem contents_unput_line (hq : t.secondary.contents = done ++ line) (hline : line ≠ []) :
    t.secondary.unput.contents = done ++ line.dropLast := by
  have hchars : t.secondary.chars ≠ 0 := fun h => by
    rw [Fifo.contents_eq_nil.2 h] at hq
    exact hline (List.append_eq_nil_iff.1 hq.symm).2
  rw [Fifo.contents_unput hchars] at hq
  have hdrop := congrArg List.dropLast hq
  rwa [List.dropLast_concat, List.dropLast_append_of_ne_nil hline] at hdrop

theorem left_ne_zero (hq : t.secondary.contents = done ++ line)
    (hroom : done.length + line.length < 1023) :
    t.secondary.left ≠ 0 := by
  have hlen := Fifo.length_contents (q := t.secondary)
  have hsum := Fifo.chars_add_left (q := t.secondary)
  rw [hq, List.length_append] at hlen
  omega

end Queue

/-! ## A call under way -/

/-- The line, when what is under way at `pc` is done. -/
def CookPc.pending (line : List Byte) : CookPc → List Byte
  | .loop => line
  | .kill | .killed => []
  | .erased => line.dropLast
  | .store c => line ++ [c]

/-- What is known there. -/
def CookPc.Knows (u : Termios) (n : ℕ) (line : List Byte) : CookPc → Prop
  | .loop | .kill => True
  | .killed | .erased => line ≠ []
  | .store c => n + line.length < 1023 ∧ u.ends c = false

/-- How many turns there are to the loop. -/
def CookPc.stage (line : List Byte) : CookPc → ℕ
  | .loop => 0
  | .kill => 2 * line.length + 1
  | .killed => 2 * line.length
  | .erased | .store _ => 1

/-- `line` is behind `done`, which is what has ended, and `rest` is still to be read. -/
structure Editing (u : Termios) (below : Byte → Byte) (done target : List Byte) (t : TtyStruct)
    (pc : CookPc) (line rest : List Byte) : Prop where
  termios : t.termios = u
  canon : u.l icanon = true
  ended : ∀ c ∈ done.getLast?, u.ends c = true
  readQ : t.readQ.contents = rest
  secondary : t.secondary.contents = done ++ line
  unended : ∀ c ∈ line, u.ends c = false
  allowed : ∀ c ∈ rest, u.Edits below c
  readLine_eq : u.readLine (pc.pending line) rest = target
  room : u.HasRoom done.length (pc.pending line).length rest
  knows : pc.Knows u done.length line

/-- The number of turns that are left, at most. -/
def CookPc.work (pc : CookPc) (line rest : List Byte) : ℕ := rest.length * 2048 + pc.stage line

section Turns

variable {u : Termios} {below : Byte → Byte} {done target line rest : List Byte} {t : TtyStruct}
  {pc : CookPc}

theorem Editing.putWrite (h : Editing u below done target t pc line rest) (cs : List Byte) :
    Editing u below done target (t.putWrite none cs) pc line rest :=
  ⟨h.termios, h.canon, h.ended, h.readQ, h.secondary, h.unended, h.allowed, h.readLine_eq, h.room,
    h.knows⟩

theorem Editing.writeQ (h : Editing u below done target t pc line rest) (q : Queue) :
    Editing u below done target { t with writeQ := q } pc line rest :=
  ⟨h.termios, h.canon, h.ended, h.readQ, h.secondary, h.unended, h.allowed, h.readLine_eq, h.room,
    h.knows⟩

theorem Editing.length_le (h : Editing u below done target t pc line rest) : line.length ≤ 1023 := by
  have hlen := Fifo.length_contents (q := t.secondary)
  have hlt := Fifo.chars_lt (q := t.secondary)
  rw [h.secondary, List.length_append] at hlen
  omega

theorem Editing.unended_dropLast (h : Editing u below done target t pc line rest) :
    ∀ c ∈ line.dropLast, u.ends c = false :=
  fun c hc => h.unended c (List.mem_of_mem_dropLast hc)

theorem Editing.loop_nil (h : Editing u below done target t .loop line []) :
    cookTurn below t .loop = ⟨t, [], none, false⟩ := by
  have hempty : t.readQ.isEmpty = true := Fifo.isEmpty_iff.2 (Fifo.contents_eq_nil.1 h.readQ)
  unfold cookTurn
  rw [hempty]
  rfl

/-- A character is taken from `read_q`. -/
theorem Editing.loop_cons {c : Byte} {cs : List Byte}
    (h : Editing u below done target t .loop line (c :: cs)) : ∃ pc' line',
      (cookTurn below t .loop).next = some pc' ∧
      Editing u below done target (cookTurn below t .loop).tty pc' line' cs ∧ pc'.stage line' < 2048 := by
  have hchars : t.readQ.chars ≠ 0 := fun h0 => by
    have hreadQ := h.readQ
    rw [Fifo.contents_eq_nil.2 h0] at hreadQ
    cases hreadQ
  have hread := h.readQ
  rw [Fifo.contents_getch hchars] at hread
  obtain ⟨hfirst, hgetch⟩ := List.cons.inj hread
  obtain ⟨hroom, hrooms⟩ := hasRoom_cons.1 h.room
  have hempty : t.readQ.isEmpty = false := Bool.eq_false_iff.2 fun h0 => hchars (Fifo.isEmpty_iff.1 h0)
  have hfull : t.secondary.isFull = false :=
    Bool.eq_false_iff.2 fun h0 => left_ne_zero h.secondary hroom (Fifo.isFull_iff.1 h0)
  have hturn : cookTurn below t .loop = cookChar below { t with readQ := t.readQ.getch } c := by
    unfold cookTurn
    rw [hempty, hfull, hfirst]
    rfl
  obtain ⟨hedits, hrest⟩ := List.forall_mem_cons.1 h.allowed
  have hreads := cookChar_edit (t := { t with readQ := t.readQ.getch }) h.termios h.canon hedits
  have hun : TtyStruct.unfinished { t with readQ := t.readQ.getch } = line.getLast? :=
    unfinished_eq h.termios h.secondary h.ended h.unended
  have htarget : u.readLine (u.readChar line c) cs = target := h.readLine_eq
  have hlen := h.length_le
  change u.HasRoom done.length (u.onLine line.length [c]) cs at hrooms
  rw [← length_readChar] at hrooms
  rw [← hturn] at hreads
  obtain ⟨r, hr⟩ : ∃ r, r = cookTurn below t .loop := ⟨_, rfl⟩
  rw [← hr] at hreads ⊢
  clear hr
  cases hreads with
  | kills hkill =>
    have hchar : u.readChar line c = [] := if_pos hkill
    rw [hchar] at htarget hrooms
    exact ⟨.kill, line, rfl, ⟨h.termios, h.canon, h.ended, hgetch, h.secondary, h.unended, hrest, htarget,
      hrooms, trivial⟩, by change 2 * line.length + 1 < 2048; omega⟩
  | erases hkill herase hlast =>
    have hchar : u.readChar line c = line.dropLast := (if_neg hkill).trans (if_pos herase)
    rw [hchar] at htarget hrooms
    have hne : line ≠ [] := by
      rintro rfl
      rw [hun] at hlast
      cases hlast
    exact ⟨.erased, line, rfl, ⟨h.termios, h.canon, h.ended, hgetch, h.secondary, h.unended, hrest,
      htarget, hrooms, hne⟩, by change 1 < 2048; omega⟩
  | nothing hkill herase hlast =>
    have hchar : u.readChar line c = line.dropLast := (if_neg hkill).trans (if_pos herase)
    have hnil : line = [] := List.getLast?_eq_none_iff.1 (hun.symm.trans hlast)
    rw [hchar, hnil] at htarget hrooms
    exact ⟨.loop, line, rfl, ⟨h.termios, h.canon, h.ended, hgetch, h.secondary, h.unended, hrest,
      by rw [hnil]; exact htarget, by rw [hnil]; exact hrooms, trivial⟩, by change 0 < 2048; omega⟩
  | stores hkill herase hends =>
    have hchar : u.readChar line c = line ++ [c] := (if_neg hkill).trans (if_neg herase)
    rw [hchar] at htarget hrooms
    exact ⟨.store c, line, rfl, ⟨h.termios, h.canon, h.ended, hgetch, h.secondary, h.unended, hrest,
      htarget, hrooms, ⟨hroom, hends⟩⟩, by change 1 < 2048; omega⟩

/-- A turn that does not return. -/
theorem editing_turn (h : Editing u below done target t pc line rest) (hgo : ¬(pc = .loop ∧ rest = [])) :
    ∃ pc' line' rest', (cookTurn below t pc).next = some pc' ∧
      Editing u below done target (cookTurn below t pc).tty pc' line' rest' ∧
      pc'.work line' rest' < pc.work line rest := by
  unfold CookPc.work
  cases pc with
  | loop =>
    cases rest with
    | nil => exact absurd ⟨rfl, rfl⟩ hgo
    | cons c cs =>
      obtain ⟨pc', line', hnext, hedit, hstage⟩ := h.loop_cons
      refine ⟨pc', line', cs, hnext, hedit, ?_⟩
      rw [List.length_cons]
      omega
  | kill =>
    have hun := unfinished_eq h.termios h.secondary h.ended h.unended
    unfold cookTurn
    cases hlast : line.getLast? with
    | none =>
      rw [hun.trans hlast]
      have hnil := List.getLast?_eq_none_iff.1 hlast
      refine ⟨.loop, line, rest, rfl, ?_, ?_⟩
      · exact { h with
          readLine_eq := by rw [hnil]; exact h.readLine_eq
          room := by rw [hnil]; exact h.room
          knows := trivial }
      · change _ + 0 < _ + (2 * line.length + 1)
        omega
    | some c =>
      rw [hun.trans hlast]
      have hne : line ≠ [] := by
        rintro rfl
        cases hlast
      refine ⟨.killed, line, rest, rfl, { h with knows := hne }, ?_⟩
      change _ + 2 * line.length < _ + (2 * line.length + 1)
      omega
  | killed =>
    have hlen : line.dropLast.length + 1 = line.length := by
      have hpos := List.length_pos_of_ne_nil (show line ≠ [] from h.knows)
      rw [List.length_dropLast]
      omega
    refine ⟨.kill, line.dropLast, rest, rfl, ?_, ?_⟩
    · exact ⟨h.termios, h.canon, h.ended, h.readQ, contents_unput_line h.secondary h.knows,
        h.unended_dropLast, h.allowed, h.readLine_eq, h.room, trivial⟩
    · change _ + (2 * line.dropLast.length + 1) < _ + 2 * line.length
      omega
  | erased =>
    refine ⟨.loop, line.dropLast, rest, rfl, ?_, ?_⟩
    · exact ⟨h.termios, h.canon, h.ended, h.readQ, contents_unput_line h.secondary h.knows,
        h.unended_dropLast, h.allowed, h.readLine_eq, h.room, trivial⟩
    · change _ + 0 < _ + 1
      omega
  | store c =>
    obtain ⟨hroom, hterm⟩ := h.knows
    have hq : (t.secondary.putch c).contents = done ++ (line ++ [c]) := by
      rw [Fifo.contents_putch (left_ne_zero h.secondary hroom), h.secondary, List.append_assoc]
    refine ⟨.loop, line ++ [c], rest, rfl, ?_, ?_⟩
    · refine ⟨h.termios, h.canon, h.ended, h.readQ, hq, ?_, h.allowed, h.readLine_eq, h.room, trivial⟩
      intro b hb
      rcases List.mem_append.1 hb with hb | hb
      · exact h.unended b hb
      · obtain rfl := List.mem_singleton.1 hb
        exact hterm
    · change _ + 0 < _ + 1
      omega

end Turns

/-! ## Runs -/

/-- In a `copy_to_cooked` at `pc`, called from `fs`, or in the `con_write` that it has called, which has
`k - 1` characters to take. -/
def State.InCook (s : State) (i : Nr) (pc : CookPc) (fs : List Frame) : ℕ → Prop
  | 0 => s.stack s.cur = .cook i pc :: fs
  | nr + 1 => i = 0 ∧ nr ≤ 1023 ∧ s.stack s.cur = .conWrite nr :: .cook i pc :: fs

/-- The character that `con_write` takes next is not the Z of an ESC Z. -/
def State.Silent (s : State) : Prop :=
  ∀ nr fs, s.stack s.cur = .conWrite (nr + 1) :: fs →
    ¬(s.con.state = 1 ∧ (s.tty 0).writeQ.first = code 'Z')

/-- The call has returned. -/
structure Edited (done target : List Byte) (i : Nr) (fs : List Frame) (s : State) : Prop where
  stack : s.stack s.cur = fs
  secondary : (s.tty i).secondary.contents = done ++ target
  readQ : (s.tty i).readQ.contents = []

section Run

variable {u : Termios} {done target line rest : List Byte} {s s' : State} {i : Nr} {pc : CookPc}
  {fs : List Frame} {k nr : ℕ} {signal : Bool}

/-- A step of a call that goes on leaves less to do. -/
def Goes (u : Termios) (done target : List Byte) (i : Nr) (fs : List Frame) (m : ℕ) (s : State) : Prop :=
  ∃ pc line rest k, s.InCook i pc fs k ∧ Editing u s.below done target (s.tty i) pc line rest ∧
    pc.work line rest * 1025 + k < m

theorem run_cook (hs : s.stack s.cur = .cook i pc :: fs)
    (h : Editing u s.below done target (s.tty i) pc line rest) : ∃ s', s.run signal = some s' ∧
      (Edited done target i fs s' ∨ Goes u done target i fs (pc.work line rest * 1025) s') := by
  have hrun : s.run signal = ((s.cookStep i pc).2.resume (fun _ g => g) fs).map
      (s.cookStep i pc).1.setStack := by
    unfold State.run
    rw [hs]
    rfl
  by_cases hend : pc = .loop ∧ rest = []
  · obtain ⟨rfl, rfl⟩ := hend
    have hstep : s.cookStep i .loop = (s.setTty i (s.tty i), .ret ()) := by
      unfold State.cookStep
      rw [h.loop_nil]
      show (s.setTty i ((s.tty i).putWrite none []), _) = _
      rw [putWrite_nil]
    have hret : (Outcome.ret () : Outcome Frame Unit).resume (fun _ g => g) fs = some fs := by
      cases fs <;> rfl
    rw [hstep, hret] at hrun
    refine ⟨_, hrun, .inl ⟨setStack_cur, ?_, ?_⟩⟩
    · change ((s.setTty i (s.tty i)).tty i).secondary.contents = _
      rw [setTty_self, h.secondary, ← h.readLine_eq]
      rfl
    · change ((s.setTty i (s.tty i)).tty i).readQ.contents = _
      rw [setTty_self, h.readQ]
  · obtain ⟨pc', line', rest', hnext, hedit, hwork⟩ := editing_turn h hend
    obtain ⟨r, hr⟩ : ∃ r, r = cookTurn s.below (s.tty i) pc := ⟨_, rfl⟩
    rw [← hr] at hnext hedit
    obtain ⟨s₁, hs₁⟩ : ∃ s₁, s₁ = s.setTty i (r.tty.putWrite none r.echo) := ⟨_, rfl⟩
    have htty : s₁.tty i = r.tty.putWrite none r.echo := hs₁ ▸ setTty_self
    have hbelow : s₁.below = s.below := hs₁ ▸ rfl
    have hstep : s.cookStep i pc =
        (s₁, if r.write then s₁.output i (.cook i pc') else .goto (.cook i pc')) := by
      unfold State.cookStep
      dsimp only
      rw [← hr, hnext, hs₁]
    have hedit' : Editing u s₁.below done target (s₁.tty i) pc' line' rest' := by
      rw [htty, hbelow]
      exact hedit.putWrite _
    rw [hstep] at hrun
    by_cases hcon : r.write = true ∧ i = 0
    · obtain ⟨hwrite, rfl⟩ := hcon
      have hlt := Fifo.chars_lt (q := (s₁.tty 0).writeQ)
      rw [hwrite] at hrun
      refine ⟨_, hrun, .inr ⟨pc', line', rest', (s₁.tty 0).writeQ.chars + 1,
        ⟨rfl, Nat.le_of_lt_succ hlt, setStack_cur⟩, hedit', ?_⟩⟩
      omega
    · have hgoto : (if r.write = true then s₁.output i (.cook i pc') else .goto (.cook i pc')) =
          .goto (.cook i pc') := by
        by_cases hwrite : r.write = true
        · rw [if_pos hwrite]
          exact if_neg fun hi => hcon ⟨hwrite, hi⟩
        · exact if_neg hwrite
      rw [hgoto] at hrun
      refine ⟨_, hrun, .inr ⟨pc', line', rest', 0, setStack_cur, hedit', ?_⟩⟩
      omega

theorem run_conWrite (signal : Bool) (hs : s.stack s.cur = .conWrite nr :: .cook 0 pc :: fs) (hnr : nr ≤ 1023)
    (h : Editing u s.below done target (s.tty 0) pc line rest) (hsilent : s.Silent) :
    ∃ s', s.run signal = some s' ∧
      Goes u done target 0 fs (pc.work line rest * 1025 + (nr + 1)) s' := by
  have hrun : s.run signal = ((s.conTurn nr).2.resume (fun _ g => g) (.cook 0 pc :: fs)).map
      (s.conTurn nr).1.setStack := by
    unfold State.run
    rw [hs]
    rfl
  cases nr with
  | zero =>
    refine ⟨_, hrun, pc, line, rest, 0, setStack_cur, h, ?_⟩
    omega
  | succ nr =>
    obtain ⟨con, hcon⟩ : ∃ con, con = ({ s.con with answers := [] } : Console).conByte
      ((s.tty 0).termios.cCc verase) (s.tty 0).writeQ.first := ⟨_, rfl⟩
    have hanswers : con.answers = [] := by
      rw [hcon]
      exact conByte_answers (hsilent nr _ hs)
    have hstep : s.conTurn (nr + 1) = ({ s.setTty 0 { s.tty 0 with
        writeQ := (s.tty 0).writeQ.getch } with con := con }, .goto (.conWrite nr)) := by
      unfold State.conTurn
      dsimp only
      rw [← hcon, hanswers]
      rfl
    rw [hstep] at hrun
    refine ⟨_, hrun, pc, line, rest, nr + 1, ⟨rfl, by omega, setStack_cur⟩, ?_, by omega⟩
    change Editing u s.below done target ((s.setTty 0 _).tty 0) pc line rest
    rw [setTty_self]
    exact h.writeQ _

/-- A step of the call. -/
theorem editing_step (signal : Bool) (hin : s.InCook i pc fs k)
    (h : Editing u s.below done target (s.tty i) pc line rest) (hsilent : s.Silent) :
    ∃ s', s.run signal = some s' ∧
      (Edited done target i fs s' ∨ Goes u done target i fs (pc.work line rest * 1025 + k) s') := by
  cases k with
  | zero =>
    rw [Nat.add_zero]
    exact run_cook hin h
  | succ nr =>
    obtain ⟨rfl, hnr, hs⟩ := hin
    obtain ⟨s', hrun, hgoes⟩ := run_conWrite signal hs hnr h hsilent
    exact ⟨s', hrun, .inr hgoes⟩

/-- The running process takes turns, and has not returned to `fs`. -/
def Within (fs : List Frame) (s : State) : Event → Prop
  | .run _ => fs.length < (s.stack s.cur).length
  | _ => False

instance (s : State) (e : Event) : Decidable (Within fs s e) := by
  cases e <;> unfold Within <;> infer_instance

theorem Within.run {e : Event} (h : Within fs s e) : ∃ signal, e = .run signal := by
  cases e with
  | run signal => exact ⟨signal, rfl⟩
  | _ => exact h.elim

theorem State.InCook.length_lt (h : s.InCook i pc fs k) : fs.length < (s.stack s.cur).length := by
  cases k with
  | zero =>
    have hs : s.stack s.cur = .cook i pc :: fs := h
    rw [hs]
    exact Nat.lt_succ_self _
  | succ nr =>
    obtain ⟨-, -, hs⟩ := h
    rw [hs]
    exact Nat.lt_succ_of_lt (Nat.lt_succ_self _)

/-- The call goes on until it returns. -/
theorem editing_returns {m : ℕ} (hgoes : Goes u done target i fs m s)
    (hsilent : ∀ s', lines.Leads (Within fs) s s' → s'.Silent) :
    ∃ s', lines.Leads (Within fs) s s' ∧ Edited done target i fs s' := by
  induction m using Nat.strongRecOn generalizing s with
  | ind m ih =>
    obtain ⟨pc, line, rest, k, hin, hedit, hlt⟩ := hgoes
    obtain ⟨s₁, hrun, hnext⟩ := editing_step false hin hedit (hsilent s .refl)
    have hstep : lines.Leads (Within fs) s s₁ :=
      .single ⟨.run false, hin.length_lt, hrun⟩
    obtain hdone | hgoes := hnext
    · exact ⟨s₁, hstep, hdone⟩
    · obtain ⟨s', hs', hdone⟩ := ih _ hlt hgoes fun s' hs' => hsilent s' (hstep.trans hs')
      exact ⟨s', hstep.trans hs', hdone⟩

/-- Every state of the call is one of those. -/
theorem editing_leads {m : ℕ} (hgoes : Goes u done target i fs m s)
    (hsilent : ∀ s', lines.Leads (Within fs) s s' → s'.Silent) (h : lines.Leads (Within fs) s s') :
    Edited done target i fs s' ∨ ∃ m, Goes u done target i fs m s' := by
  induction h with
  | refl => exact .inr ⟨m, hgoes⟩
  | tail hleads hs ih =>
    obtain ⟨e, hwithin, hs⟩ := hs
    obtain ⟨signal, rfl⟩ := hwithin.run
    obtain hdone | ⟨m, pc, line, rest, k, hin, hedit, -⟩ := ih
    · have hlt : fs.length < (_ : List Frame).length := hwithin
      rw [hdone.stack] at hlt
      exact absurd hlt (Nat.lt_irrefl _)
    · obtain ⟨s₁, hrun, hnext⟩ := editing_step signal hin hedit (hsilent _ hleads)
      cases hrun.symm.trans hs
      exact hnext.imp_right fun hgoes => ⟨_, hgoes⟩

/-- A call of `copy_to_cooked` returns, and has read the line with what it recognises. -/
theorem line_read (hs : s.stack s.cur = .cook i .loop :: fs) (hcanon : (s.tty i).termios.l icanon = true)
    (hinput : ∀ c ∈ (s.tty i).readQ.contents, (s.tty i).termios.Edits s.below c)
    (hroom : (s.tty i).termios.HasRoom (s.tty i).ended.length (s.tty i).lastLine.length
      (s.tty i).readQ.contents)
    (hsilent : ∀ s', lines.Leads (Within fs) s s' → s'.Silent) :
    (∃ s', lines.Leads (Within fs) s s' ∧ s'.stack s'.cur = fs) ∧
      ∀ s', lines.Leads (Within fs) s s' → s'.stack s'.cur = fs → (s'.tty i).readQ.contents = [] ∧
        (s'.tty i).secondary.contents = (s.tty i).ended ++
          (s.tty i).termios.readLine (s.tty i).lastLine (s.tty i).readQ.contents := by
  have hedit : Editing (s.tty i).termios s.below (s.tty i).ended
      ((s.tty i).termios.readLine (s.tty i).lastLine (s.tty i).readQ.contents) (s.tty i) .loop
      (s.tty i).lastLine (s.tty i).readQ.contents :=
    ⟨rfl, hcanon, ends_of_mem_ended, rfl, ended_append_lastLine.symm, ends_of_mem_lastLine, hinput, rfl,
      hroom, trivial⟩
  have hgoes : Goes (s.tty i).termios (s.tty i).ended
      ((s.tty i).termios.readLine (s.tty i).lastLine (s.tty i).readQ.contents) i fs
      (CookPc.work .loop (s.tty i).lastLine (s.tty i).readQ.contents * 1025 + 1) s :=
    ⟨.loop, (s.tty i).lastLine, _, 0, hs, hedit, Nat.lt_succ_self _⟩
  constructor
  · obtain ⟨s', hs', hdone⟩ := editing_returns hgoes hsilent
    exact ⟨s', hs', hdone.stack⟩
  · intro s' hs' hstack
    obtain hdone | ⟨m, pc, line, rest, k, hin, -⟩ := editing_leads hgoes hsilent hs'
    · exact ⟨hdone.readQ, hdone.secondary⟩
    · have hlt := hin.length_lt
      rw [hstack] at hlt
      exact absurd hlt (Nat.lt_irrefl _)

/-- A call of `copy_to_cooked` runs the input on the stack, and leaves alone what has ended, if and only if
the characters that it misses are taken back, and a terminator that it misses is spared. -/
theorem line_edited (hs : s.stack s.cur = .cook i .loop :: fs)
    (hcanon : (s.tty i).termios.l icanon = true) (hdistinct : (s.tty i).termios.Distinct)
    (hsecondary : (s.tty i).secondary.contents = done ++ line)
    (hdone : ∀ c ∈ done.getLast?, (s.tty i).termios.Terminates c)
    (hline : ∀ c ∈ line, ¬(s.tty i).termios.Terminates c)
    (hinput : ∀ c ∈ (s.tty i).readQ.contents, (s.tty i).termios.Edits s.below c)
    (hroom : (s.tty i).termios.HasRoom (s.tty i).ended.length (s.tty i).lastLine.length
      (s.tty i).readQ.contents)
    (hsilent : ∀ s', lines.Leads (Within fs) s s' → s'.Silent) :
    (∃ s', lines.Leads (Within fs) s s' ∧ s'.stack s'.cur = fs) ∧
      ∀ s', lines.Leads (Within fs) s s' → s'.stack s'.cur = fs → (s'.tty i).readQ.contents = [] ∧
        ((s'.tty i).secondary.contents =
            done ++ (s.tty i).termios.editLine line (s.tty i).readQ.contents ↔
          (s.tty i).termios.Recovers line.length (s.tty i).readQ.contents ∧
            ((∀ c ∈ done.getLast?, c.toNat < 128) ∨
              (s.tty i).termios.Spares line.length (s.tty i).readQ.contents)) := by
  obtain ⟨hreturns, hread⟩ := line_read hs hcanon hinput hroom hsilent
  refine ⟨hreturns, fun s' hs' hstack => ?_⟩
  obtain ⟨hreadQ, hcontents⟩ := hread s' hs' hstack
  refine ⟨hreadQ, ?_⟩
  have hunended : ∀ c ∈ line, (s.tty i).termios.ends c = false := fun c hc => ends_eq_false (hline c hc)
  have hsame : (s.tty i).termios.readLine line (s.tty i).readQ.contents =
      (s.tty i).termios.editLine line (s.tty i).readQ.contents ↔
      (s.tty i).termios.Recovers line.length (s.tty i).readQ.contents := by
    rw [readLine_eq_editLine_iff (.inl rfl)]
    exact and_iff_right fun hne => absurd rfl hne
  rw [hcontents]
  by_cases hseen : ∀ c ∈ done.getLast?, c.toNat < 128
  · obtain ⟨hended, hlast⟩ := lastLine_of_seen hsecondary (fun c hc => ends_of_terminates (hdone c hc) (hseen c hc))
      hunended
    rw [hended, hlast, List.append_right_inj, hsame]
    exact (and_iff_left (.inl hseen)).symm
  · rw [not_forall₂] at hseen
    obtain ⟨e, he, hle⟩ := hseen
    have hveof : e = (s.tty i).termios.cCc veof := (hdone e he).resolve_left fun h => hle (h ▸ by decide)
    have hnot : e ∉ (s.tty i).readQ.contents := hveof ▸ veof_not_mem hdistinct hinput
    obtain ⟨m, hm, hlast⟩ := lastLine_of_missed hsecondary he (ends_of_le (Nat.le_of_not_lt hle)) hunended
    have hbefore : ∀ l l', (s.tty i).ended ++ l = done ++ l' ↔ l = m ++ [e] ++ l' := fun l l' => by
      rw [show done ++ l' = (s.tty i).ended ++ (m ++ [e] ++ l') from
        (congrArg (· ++ l') hm).trans (List.append_assoc _ _ _), List.append_right_inj]
    rw [hbefore, hlast, readLine_append_iff hnot, hsame]
    exact ⟨fun h => ⟨h.2, .inr h.1⟩, fun h => ⟨h.2.resolve_left fun hseen => hle (hseen e he), h.1⟩⟩

/-- On a serial line there is no `con_write`. -/
theorem silent_of_serial (hi : i ≠ 0) (hs : s.stack s.cur = [.cook i pc])
    (h : lines.Leads (Within []) s s') : s'.Silent := by
  have hstack : (∃ pc, s'.stack s'.cur = [.cook i pc]) ∨ s'.stack s'.cur = [] := by
    refine h.invariant (I := fun s => (∃ pc, s.stack s.cur = [.cook i pc]) ∨ s.stack s.cur = [])
      (fun s e s' hI hwithin hnext => ?_) (.inl ⟨pc, hs⟩)
    obtain ⟨signal, rfl⟩ := hwithin.run
    obtain ⟨pc, hs⟩ | hs := hI
    · obtain ⟨fs', hresume, rfl⟩ := run_eq_some hs hnext
      have hresume : (s.cookStep i pc).2.resume (fun _ g => g) [] = some fs' := hresume
      unfold State.cookStep at hresume
      dsimp only at hresume
      split at hresume
      · cases hresume
        exact .inr setStack_cur
      · next pc' hpc =>
        have hgoto : ∀ s' : State, (if (cookTurn s.below (s.tty i) pc).write = true then
            s'.output i (.cook i pc') else .goto (.cook i pc')) = .goto (.cook i pc') := by
          intro s'
          split
          · exact if_neg hi
          · rfl
        dsimp only at hresume
        rw [hgoto] at hresume
        cases hresume
        exact .inl ⟨pc', setStack_cur⟩
    · have hnext : s.run signal = some s' := hnext
      unfold State.run at hnext
      rw [hs] at hnext
      cases hnext
  intro nr fs hcon
  obtain ⟨pc, hs⟩ | hs := hstack
  all_goals
    rw [hs] at hcon
    cases hcon

end Run

/-- The serial line 1 in `copy_to_cooked`, with these settings and these characters on `read_q`. -/
def typing (cCc : Fin 17 → Byte) (cs : List Byte) : State :=
  { boot with
    tty := Function.update ttyTable 1 { TtyStruct.ofTermios ⟨0, 0, b2400 ||| cs8, icanon, 0, cCc⟩ with
      readQ := (Fifo.empty fun _ => 0).puts cs }
    stack := fun _ => [.cook 1 .loop] }

theorem line_edited_erase : (∃ s', lines.Leads (Within []) (typing initCCc [97, 98, 127]) s' ∧
      s'.stack s'.cur = []) ∧
    ∀ s', lines.Leads (Within []) (typing initCCc [97, 98, 127]) s' → s'.stack s'.cur = [] →
      (s'.tty 1).readQ.contents = [] ∧ (s'.tty 1).secondary.contents = [97] := by
  obtain ⟨s, hs⟩ : ∃ s, s = typing initCCc [97, 98, 127] := ⟨_, rfl⟩
  rw [← hs]
  have hread : (s.tty 1).readQ.contents = [97, 98, 127] := by
    rw [hs]
    decide +kernel
  have hordinary : ∀ c : Byte, c = 97 ∨ c = 98 → (s.tty 1).termios.Edits s.below c := by
    rw [hs]
    rintro c (rfl | rfl)
    all_goals exact ⟨by decide +kernel, .inr (.inr ⟨by unfold Termios.Terminates; decide +kernel,
      by decide +kernel⟩)⟩
  have hinput : ∀ c ∈ (s.tty 1).readQ.contents, (s.tty 1).termios.Edits s.below c := by
    rw [hread]
    intro c hc
    rcases List.mem_cons.1 hc with rfl | hc
    · exact hordinary _ (.inl rfl)
    rcases List.mem_cons.1 hc with rfl | hc
    · exact hordinary _ (.inr rfl)
    · obtain rfl := List.mem_singleton.1 hc
      exact hs ▸ ⟨by decide +kernel, .inr (.inl rfl)⟩
  have hrecovers : (s.tty 1).termios.Recovers 0 (s.tty 1).readQ.contents := by
    rw [hread]
    intro a c b hab hmissed
    have hlt : ∀ d ∈ ([97, 98, 127] : List Byte), d.toNat < 128 := by decide
    exact absurd hmissed.2 (Nat.not_le_of_lt (hlt c (hab ▸ List.mem_append_right a (.head b))))
  have hedit : [] ++ (s.tty 1).termios.editLine [] (s.tty 1).readQ.contents = [97] := by
    rw [hread, hs]
    decide +kernel
  have hsecondary : (s.tty 1).secondary.contents = [] ++ [] := by
    rw [hs]
    decide +kernel
  have hstart : s.stack s.cur = [.cook 1 .loop] := hs ▸ rfl
  obtain ⟨hreturns, hedited⟩ := line_edited hstart (by rw [hs]; decide +kernel)
    (by rw [hs]; unfold Termios.Distinct; decide +kernel) hsecondary
    (fun c hc => by cases hc) (fun c hc => by cases hc) hinput
    (hasRoom_of_length (by rw [hs]; decide +kernel)) fun s' => silent_of_serial (by decide) hstart
  refine ⟨hreturns, fun s' hs' hstack => ?_⟩
  obtain ⟨hempty, hiff⟩ := hedited s' hs' hstack
  exact ⟨hempty, hedit ▸ hiff.2 ⟨hrecovers, .inl fun c hc => by cases hc⟩⟩

/-- An erase character of 200 is not recognised. -/
theorem line_not_edited : ¬∀ (s : State) (i : Nr) (fs : List Frame) (done line : List Byte),
    s.stack s.cur = .cook i .loop :: fs → (s.tty i).termios.l icanon = true → (s.tty i).termios.Distinct →
    (s.tty i).secondary.contents = done ++ line →
    (∀ c ∈ done.getLast?, (s.tty i).termios.Terminates c) →
    (∀ c ∈ line, ¬(s.tty i).termios.Terminates c) →
    (∀ c ∈ (s.tty i).readQ.contents, (s.tty i).termios.Edits s.below c) →
    (s.tty i).termios.HasRoom (s.tty i).ended.length (s.tty i).lastLine.length (s.tty i).readQ.contents →
    (∀ s', lines.Leads (Within fs) s s' → s'.Silent) →
    ∀ s', lines.Leads (Within fs) s s' → s'.stack s'.cur = fs → (s'.tty i).secondary.contents =
      done ++ (s.tty i).termios.editLine line (s.tty i).readQ.contents := by
  intro h
  obtain ⟨s, hs⟩ : ∃ s, s = typing (Function.update initCCc verase 200) [200] := ⟨_, rfl⟩
  have hread : (s.tty 1).readQ.contents = [200] := by
    rw [hs]
    decide +kernel
  have hedit : (s.tty 1).termios.editLine [] [200] = [] := by
    rw [hs]
    decide +kernel
  have hedits : (s.tty 1).termios.Edits s.below 200 := by
    rw [hs]
    exact ⟨by decide +kernel, .inr (.inl (by decide +kernel))⟩
  have hrun : (System.execWhen State.next (Within []) s (List.replicate 3 (.run false))).any
      (fun s => decide (s.stack s.cur = [] ∧ (s.tty 1).secondary.contents = [200])) = true := by
    rw [hs]
    decide +kernel
  obtain ⟨s', hs', hend⟩ := (Option.any_eq_true _ _).1 hrun
  obtain ⟨hstack, hcontents⟩ := of_decide_eq_true hend
  have hleads : lines.Leads (Within []) s s' := .exec (fun _ _ _ h => h) hs'
  have hstart : s.stack s.cur = [.cook 1 .loop] := hs ▸ rfl
  have hbad := h s 1 [] [] [] hstart (by rw [hs]; decide +kernel)
    (by rw [hs]; unfold Termios.Distinct; decide +kernel) (by rw [hs]; decide +kernel)
    (fun c hc => by cases hc) (fun c hc => by cases hc)
    (fun c hc => by rw [hread] at hc; rw [List.mem_singleton.1 hc]; exact hedits)
    (hasRoom_of_length (by rw [hs]; decide +kernel)) (fun s' => silent_of_serial (by decide) hstart) s'
    hleads hstack
  rw [hread, hedit, hcontents] at hbad
  cases hbad

end Linux011.Tty
