import Mathlib.Data.BitVec
import Mathlib.Tactic.Abel

/-!
# Ring buffers

A queue in a buffer of `2 ^ w` places, of which one is always free. It remembers what was put on it and
what was taken from it, and whether it was ever put on when it was full, or taken from when empty.

1. `Fifo`, its operations, and its `contents`.
2. `chars_add_left`; what the operations do to the contents: `contents_putch`, `contents_getch`,
   `contents_unput`.
3. `Sound`: everything was taken in the order in which it was put. The operations keep it, each where it
   has room, or something to take.
-/

namespace Linux011

structure Fifo (w : ℕ) (α : Type*) where
  head : BitVec w
  tail : BitVec w
  buf : BitVec w → α
  /-- What was put, the last first, without what was taken back. -/
  log : List α
  /-- What was taken, the last first. -/
  taken : List α
  /-- It was put on when full, or taken from when empty. -/
  spoiled : Bool

namespace Fifo

variable {w : ℕ} {α : Type*} (q : Fifo w α)

def chars : ℕ := (q.head - q.tail).toNat

def left : ℕ := (q.tail - q.head - 1).toNat

def isEmpty : Bool := q.head == q.tail

def isFull : Bool := q.left == 0

/-- What is taken next. -/
def first : α := q.buf q.tail

/-- What was put last. -/
def last : α := q.buf (q.head - 1)

def putch (c : α) : Fifo w α :=
  { q with
    buf := Function.update q.buf q.head c
    head := q.head + 1
    log := c :: q.log
    spoiled := q.spoiled || q.isFull }

def getch : Fifo w α :=
  { q with
    tail := q.tail + 1
    taken := q.first :: q.taken
    spoiled := q.spoiled || q.isEmpty }

/-- What was put last is taken back. -/
def unput : Fifo w α :=
  { q with head := q.head - 1, log := q.log.tail, spoiled := q.spoiled || q.isEmpty }

def puts (l : List α) : Fifo w α := l.foldl putch q

/-- What is in the queue is dropped. -/
def flush : Fifo w α := { q with head := q.tail, log := q.taken }

/-- What is in the queue, in the order in which it will be taken. -/
def contents : List α := (List.range q.chars).map fun k => q.buf (q.tail + BitVec.ofNat w k)

def empty (buf : BitVec w → α) : Fifo w α := ⟨0, 0, buf, [], [], false⟩

variable {q} {c : α} {l : List α}

/-! ## Places -/

theorem left_eq : q.left = 2 ^ w - 1 - q.chars := by
  have hnot : q.tail - q.head - 1 = ~~~(q.head - q.tail) := by
    rw [BitVec.not_eq_neg_add]
    show q.tail - q.head - 1 = -(q.head - q.tail) - 1
    abel
  unfold left chars
  rw [hnot, BitVec.toNat_not]

theorem chars_lt : q.chars < 2 ^ w := (q.head - q.tail).isLt

theorem chars_add_left : q.chars + q.left = 2 ^ w - 1 := by
  have hlt := chars_lt (q := q)
  rw [left_eq]
  omega

theorem isEmpty_iff : q.isEmpty = true ↔ q.chars = 0 := by
  unfold isEmpty chars
  rw [beq_iff_eq]
  constructor
  · intro h
    rw [h, BitVec.sub_self]
    rfl
  · intro h
    have hzero : q.head - q.tail = 0 := BitVec.eq_of_toNat_eq h
    exact sub_eq_zero.1 hzero

theorem isFull_iff : q.isFull = true ↔ q.left = 0 := beq_iff_eq

theorem length_contents : q.contents.length = q.chars := by
  unfold contents
  rw [List.length_map, List.length_range]

theorem toNat_add_one {x : BitVec w} (h : x.toNat + 1 < 2 ^ w) : (x + 1).toNat = x.toNat + 1 := by
  have hone : (1 : BitVec w).toNat = 1 := by
    refine (BitVec.toNat_ofNat 1 w).trans (Nat.mod_eq_of_lt ?_)
    omega
  rw [BitVec.toNat_add_of_lt (by rw [hone]; exact h), hone]

theorem toNat_sub_one {x : BitVec w} (h : x.toNat ≠ 0) : (x - 1).toNat = x.toNat - 1 := by
  have hlt := x.isLt
  have hone : (1 : BitVec w).toNat = 1 := by
    refine (BitVec.toNat_ofNat 1 w).trans (Nat.mod_eq_of_lt ?_)
    omega
  rw [BitVec.toNat_sub_of_le, hone]
  rw [BitVec.le_def, hone]
  omega

theorem chars_putch (h : q.left ≠ 0) : (q.putch c).chars = q.chars + 1 := by
  have hlt := chars_lt (q := q)
  have hsum := chars_add_left (q := q)
  have hcomm : q.head + 1 - q.tail = q.head - q.tail + 1 := by abel
  show (q.head + 1 - q.tail).toNat = q.chars + 1
  rw [hcomm]
  exact toNat_add_one (by unfold chars at hsum; omega)

theorem chars_getch (h : q.chars ≠ 0) : q.getch.chars = q.chars - 1 := by
  have hcomm : q.head - (q.tail + 1) = q.head - q.tail - 1 := by abel
  show (q.head - (q.tail + 1)).toNat = q.chars - 1
  rw [hcomm]
  exact toNat_sub_one h

theorem chars_unput (h : q.chars ≠ 0) : q.unput.chars = q.chars - 1 := by
  have hcomm : q.head - 1 - q.tail = q.head - q.tail - 1 := by abel
  show (q.head - 1 - q.tail).toNat = q.chars - 1
  rw [hcomm]
  exact toNat_sub_one h

theorem chars_flush : q.flush.chars = 0 := by
  show (q.tail - q.tail).toNat = 0
  rw [BitVec.sub_self]
  rfl

/-- The place of the character number `chars` is the next free one. -/
theorem tail_add_chars : q.tail + BitVec.ofNat w q.chars = q.head := by
  unfold chars
  rw [BitVec.ofNat_toNat, BitVec.setWidth_eq]
  abel

/-- The next free place is none of the characters that are in the queue. -/
theorem place_ne_head {k : ℕ} (hk : k < q.chars) : q.tail + BitVec.ofNat w k ≠ q.head := by
  intro heq
  have hkc : BitVec.ofNat w k = BitVec.ofNat w q.chars := add_left_cancel (heq.trans tail_add_chars.symm)
  have hlt := chars_lt (q := q)
  have hnat := congrArg BitVec.toNat hkc
  rw [BitVec.toNat_ofNat, BitVec.toNat_ofNat, Nat.mod_eq_of_lt (by omega), Nat.mod_eq_of_lt hlt] at hnat
  omega

/-! ## Contents -/

theorem contents_putch (h : q.left ≠ 0) : (q.putch c).contents = q.contents ++ [c] := by
  unfold contents
  rw [chars_putch h, List.range_succ, List.map_append, List.map_singleton]
  refine congrArg₂ _ (List.map_congr_left fun k hk => ?_) (congrArg (fun a => [a]) ?_)
  · exact Function.update_of_ne (place_ne_head (List.mem_range.1 hk)) _ _
  · show Function.update q.buf q.head c (q.tail + BitVec.ofNat w q.chars) = c
    rw [tail_add_chars, Function.update_self]

theorem contents_getch (h : q.chars ≠ 0) : q.contents = q.first :: q.getch.contents := by
  unfold contents
  obtain ⟨n, hn⟩ : ∃ n, q.chars = n + 1 := Nat.exists_eq_succ_of_ne_zero h
  rw [chars_getch h, hn, Nat.add_sub_cancel, List.range_succ_eq_map, List.map_cons, List.map_map]
  refine congrArg₂ _ ?_ (List.map_congr_left fun k _ => ?_)
  · show q.buf (q.tail + 0) = q.buf q.tail
    rw [add_zero]
  · show q.buf (q.tail + BitVec.ofNat w (k + 1)) = q.buf (q.tail + 1 + BitVec.ofNat w k)
    have hsucc : BitVec.ofNat w (k + 1) = 1 + BitVec.ofNat w k := by
      rw [Nat.add_comm, BitVec.ofNat_add]
      rfl
    rw [hsucc, add_assoc]

theorem contents_unput (h : q.chars ≠ 0) : q.contents = q.unput.contents ++ [q.last] := by
  unfold contents
  obtain ⟨n, hn⟩ : ∃ n, q.chars = n + 1 := Nat.exists_eq_succ_of_ne_zero h
  rw [chars_unput h, hn, Nat.add_sub_cancel, List.range_succ, List.map_append, List.map_singleton]
  refine congrArg₂ _ rfl (congrArg (fun a => [q.buf a]) ?_)
  have hhead := tail_add_chars (q := q)
  have hsucc : BitVec.ofNat w (n + 1) = BitVec.ofNat w n + 1 := BitVec.ofNat_add n 1
  rw [hn, hsucc] at hhead
  rw [← hhead]
  abel

theorem contents_eq_nil : q.contents = [] ↔ q.chars = 0 := by
  rw [← length_contents, List.length_eq_zero_iff]

theorem contents_flush : q.flush.contents = [] := contents_eq_nil.2 chars_flush

/-! ## Order -/

variable (q) in
/-- Nothing was lost, and all leaves in the order in which it came. -/
structure Sound : Prop where
  order : q.log.reverse = q.taken.reverse ++ q.contents
  spoiled : q.spoiled = false

theorem Sound.putch (h : q.Sound) (hleft : q.left ≠ 0) : (q.putch c).Sound := by
  constructor
  · rw [contents_putch hleft]
    show (c :: q.log).reverse = q.taken.reverse ++ (q.contents ++ [c])
    rw [List.reverse_cons, h.order, List.append_assoc]
  · show (q.spoiled || q.isFull) = false
    rw [h.spoiled, Bool.false_or, Bool.eq_false_iff, Ne, isFull_iff]
    exact hleft

theorem Sound.getch (h : q.Sound) (hchars : q.chars ≠ 0) : q.getch.Sound := by
  constructor
  · show q.log.reverse = (q.first :: q.taken).reverse ++ q.getch.contents
    rw [h.order, contents_getch hchars, List.reverse_cons, List.append_assoc]
    rfl
  · show (q.spoiled || q.isEmpty) = false
    rw [h.spoiled, Bool.false_or, Bool.eq_false_iff, Ne, isEmpty_iff]
    exact hchars

theorem Sound.unput (h : q.Sound) (hchars : q.chars ≠ 0) : q.unput.Sound := by
  constructor
  · have horder := h.order
    rw [contents_unput hchars, ← List.append_assoc] at horder
    show q.log.tail.reverse = q.taken.reverse ++ q.unput.contents
    cases hlog : q.log with
    | nil =>
      rw [hlog] at horder
      cases List.append_ne_nil_of_right_ne_nil _ (List.cons_ne_nil _ _) horder.symm
    | cons c l =>
      rw [hlog, List.reverse_cons] at horder
      exact (List.append_inj' horder rfl).1
  · show (q.spoiled || q.isEmpty) = false
    rw [h.spoiled, Bool.false_or, Bool.eq_false_iff, Ne, isEmpty_iff]
    exact hchars

theorem Sound.flush (h : q.Sound) : q.flush.Sound := by
  constructor
  · rw [contents_flush, List.append_nil]
    rfl
  · exact h.spoiled

theorem left_putch (h : q.left ≠ 0) : (q.putch c).left = q.left - 1 := by
  have hsum := chars_add_left (q := q)
  have hsum' := chars_add_left (q := q.putch c)
  rw [chars_putch h] at hsum'
  omega

theorem left_le_unput (h : q.chars ≠ 0) : q.left ≤ q.unput.left := by
  rw [left_eq, left_eq, chars_unput h]
  omega

theorem Sound.puts (h : q.Sound) (hleft : l.length ≤ q.left) : (q.puts l).Sound := by
  induction l generalizing q with
  | nil => exact h
  | cons c l ih =>
    rw [List.length_cons] at hleft
    have hne : q.left ≠ 0 := by omega
    refine ih (h.putch hne) ?_
    rw [left_putch hne]
    omega

theorem chars_puts (hleft : l.length ≤ q.left) : (q.puts l).chars = q.chars + l.length := by
  induction l generalizing q with
  | nil => rfl
  | cons c l ih =>
    rw [List.length_cons] at hleft
    have hne : q.left ≠ 0 := by omega
    have hih := ih (q := q.putch c) (by rw [left_putch hne]; omega)
    rw [chars_putch hne] at hih
    rw [List.length_cons]
    show ((q.putch c).puts l).chars = _
    omega

theorem spoiled_puts (h : q.spoiled = true) : (q.puts l).spoiled = true := by
  induction l generalizing q with
  | nil => exact h
  | cons c l ih =>
    refine ih ?_
    show (q.spoiled || q.isFull) = true
    rw [h, Bool.true_or]

theorem contents_puts (hleft : l.length ≤ q.left) : (q.puts l).contents = q.contents ++ l := by
  induction l generalizing q with
  | nil => exact (List.append_nil _).symm
  | cons c l ih =>
    rw [List.length_cons] at hleft
    have hne : q.left ≠ 0 := by omega
    have hih := ih (q := q.putch c) (by rw [left_putch hne]; omega)
    rw [contents_putch hne, List.append_assoc] at hih
    exact hih

theorem head_puts : (q.puts l).head = q.head + BitVec.ofNat w l.length := by
  induction l generalizing q with
  | nil => exact (add_zero _).symm
  | cons c l ih =>
    show ((q.putch c).puts l).head = _
    rw [ih, List.length_cons, Nat.add_comm, BitVec.ofNat_add, ← add_assoc]
    rfl

theorem tail_puts : (q.puts l).tail = q.tail := by
  induction l generalizing q with
  | nil => rfl
  | cons c l ih => exact ih (q := q.putch c)

theorem puts_append {l' : List α} : q.puts (l ++ l') = (q.puts l).puts l' := List.foldl_append

/-- The head meets the tail after the first character for which there is no room. -/
theorem head_puts_eq_tail (hleft : l.length ≤ q.left) :
    (q.puts (l ++ [c])).head = q.tail ↔ l.length = q.left := by
  have hlt : q.left < 2 ^ w := (q.tail - q.head - 1).isLt
  rw [head_puts, List.length_append, List.length_singleton, BitVec.ofNat_add]
  constructor
  · intro heq
    have hsub : BitVec.ofNat w l.length = q.tail - q.head - 1 := by
      rw [← heq]
      show _ = q.head + (BitVec.ofNat w l.length + 1) - q.head - 1
      abel
    have hnat := congrArg BitVec.toNat hsub
    rwa [BitVec.toNat_ofNat, Nat.mod_eq_of_lt (by omega)] at hnat
  · intro heq
    have hsub : BitVec.ofNat w l.length = q.tail - q.head - 1 := by
      rw [heq]
      exact (BitVec.ofNat_toNat _ _).trans (BitVec.setWidth_eq _)
    rw [hsub]
    show q.head + (q.tail - q.head - 1 + 1) = q.tail
    abel

/-- Up to the first character for which there is no room, none that is in the queue is overwritten. -/
theorem buf_puts {k : ℕ} (hleft : l.length ≤ q.left + 1) (hk : k < q.chars) :
    (q.puts l).buf (q.tail + BitVec.ofNat w k) = q.buf (q.tail + BitVec.ofNat w k) := by
  induction l generalizing q with
  | nil => rfl
  | cons c l ih =>
    have hput : (q.putch c).buf (q.tail + BitVec.ofNat w k) = q.buf (q.tail + BitVec.ofNat w k) :=
      Function.update_of_ne (place_ne_head hk) _ _
    rw [List.length_cons] at hleft
    rw [← hput]
    by_cases hne : q.left = 0
    · obtain rfl : l = [] := List.length_eq_zero_iff.1 (by omega)
      rfl
    · exact ih (q := q.putch c) (by rw [left_putch hne]; omega) (by rw [chars_putch hne]; omega)

theorem contents_congr {p : Fifo w α} (hhead : p.head = q.head) (htail : p.tail = q.tail)
    (hbuf : ∀ k < q.chars, p.buf (q.tail + BitVec.ofNat w k) = q.buf (q.tail + BitVec.ofNat w k)) :
    p.contents = q.contents := by
  have hchars : p.chars = q.chars := by
    unfold chars
    rw [hhead, htail]
  unfold contents
  rw [hchars, htail]
  exact List.map_congr_left fun k hk => hbuf k (List.mem_range.1 hk)

theorem contents_empty {buf : BitVec w → α} : (empty buf).contents = [] := by
  rw [contents_eq_nil]
  show ((0 : BitVec w) - 0).toNat = 0
  rw [BitVec.sub_self]
  rfl

theorem sound_empty {buf : BitVec w → α} : (empty buf).Sound := by
  refine ⟨?_, rfl⟩
  rw [contents_empty]
  rfl

end Fifo

end Linux011
