import Linux011.Lib.Bytes
import Linux011.Lib.Fifo
import Linux011.Lib.Registers
import Linux011.Lib.Transition
import Mathlib.Tactic.IntervalCases

/-!
# The keyboard's queue

`put_queue` of `kernel/chr_drv/keyboard.S`, instruction by instruction, on the `struct tty_queue` of the
console in memory.

1. `State`, `Instr`, `putQueue`: the routine. `step`.
2. `queueAt`: the queue in memory as a `Fifo`; `store` puts a byte into it.
3. `runs_loop`: the loop, by the number of bytes that are left.
4. `putQueue_whole`.
-/

namespace Linux011.Keyboard

open Bytes Reg

abbrev Word := BitVec 32

/-! ## The routine -/

inductive R
  | eax | ebx | ecx | edx
  deriving DecidableEq

structure State where
  /-- The number of the instruction that comes next. -/
  pc : ℕ
  eax : Word
  ebx : Word
  ecx : Word
  edx : Word
  zf : Bool
  stack : List Word
  mem : Memory

namespace State

def get (s : State) : R → Word
  | .eax => s.eax
  | .ebx => s.ebx
  | .ecx => s.ecx
  | .edx => s.edx

def set (s : State) (r : R) (v : Word) : State :=
  match r with
  | .eax => { s with eax := v }
  | .ebx => { s with ebx := v }
  | .ecx => { s with ecx := v }
  | .edx => { s with edx := v }

/-- A result, which sets the zero flag. -/
def setz (s : State) (r : R) (v : Word) : State := { s.set r v with zf := v == 0 }

def next (s : State) : State := { s with pc := s.pc + 1 }

end State

/-- `TTY_BUF_SIZE` -/
def size : Word := 1024

/-- The offsets in `struct tty_queue`. -/
def head : Word := 4
def tail : Word := 8
def procList : Word := 12
def buf : Word := 16

inductive Instr
  | pushl (r : R)
  | popl (r : R)
  /-- `movl _table_list,r` -/
  | tableList (r : R)
  /-- `movl off(p),r` -/
  | load (off : Word) (p r : R)
  /-- `movl r,off(p)` -/
  | store (r : R) (off : Word) (p : R)
  /-- `movb %al,off(p,i)` -/
  | movb (off : Word) (p i : R)
  | incl (r : R)
  | andl (v : Word) (r : R)
  /-- `cmpl off(p),r` -/
  | cmpl (off : Word) (p r : R)
  | testl (r : R)
  | shrdl (n : ℕ) (src dst : R)
  | shrl (n : ℕ) (r : R)
  | je (label : ℕ)
  | jmp (label : ℕ)
  /-- `movl $0,(p)` -/
  | clear (p : R)
  | ret

open Instr R in
/-- The labels 1, 2 and 3 are at 4, 13 and 18. -/
def putQueue : List Instr := [
  pushl ecx,
  pushl edx,
  tableList edx,
  load head edx ecx,
  movb buf edx ecx,
  incl ecx,
  andl (size - 1) ecx,
  cmpl tail edx ecx,
  je 18,
  shrdl 8 ebx eax,
  je 13,
  shrl 8 ebx,
  jmp 4,
  store ecx head edx,
  load procList edx ecx,
  testl ecx,
  je 18,
  clear ecx,
  popl edx,
  popl ecx,
  ret]

/-- What an instruction does, with `q` in `_table_list`. There is no step after `ret`. -/
def exec (q : Addr) (s : State) : Instr → State
  | .pushl r => { s with stack := s.get r :: s.stack }.next
  | .popl r =>
    match s.stack with
    | v :: vs => ({ s with stack := vs }.set r v).next
    | [] => s
  | .tableList r => (s.set r q).next
  | .load off p r => (s.set r (getLong s.mem (s.get p + off))).next
  | .store r off p => { s with mem := putLong s.mem (s.get p + off) (s.get r) }.next
  | .movb off p i => { s with mem := Function.update s.mem (s.get p + off + s.get i) (low s.eax) }.next
  | .incl r => (s.setz r (s.get r + 1)).next
  | .andl v r => (s.setz r (s.get r &&& v)).next
  | .cmpl off p r => { s with zf := s.get r == getLong s.mem (s.get p + off) }.next
  | .testl r => { s with zf := s.get r == 0 }.next
  | .shrdl n src dst => (s.setz dst (shrd n (s.get src) (s.get dst))).next
  | .shrl n r => (s.setz r (s.get r >>> n)).next
  | .je label => if s.zf then { s with pc := label } else s.next
  | .jmp label => { s with pc := label }
  | .clear p => { s with mem := putLong s.mem (s.get p) 0 }.next
  | .ret => s

def step (q : Addr) (s : State) : State :=
  match putQueue[s.pc]? with
  | some i => exec q s i
  | none => s

/-- It is at its `ret`. -/
def State.returns (s : State) : Prop := putQueue[s.pc]? = some .ret

/-! ## The queue in memory -/

/-- Where a character is. -/
def place (q : Addr) (k : BitVec 10) : Addr := q + buf + k.setWidth 32

def queueAt (m : Memory) (q : Addr) : Fifo 10 (BitVec 8) where
  head := (getLong m (q + head)).setWidth 10
  tail := (getLong m (q + tail)).setWidth 10
  buf k := m (place q k)
  log := []
  taken := []
  spoiled := false

/-- A long that is not in the queue. -/
def Outside (q : Addr) (p : Word) : Prop := 1040 ≤ (p - q).toNat ∧ 4 ≤ (q - p).toNat

/-- A `struct tty_queue`: its indices are in the buffer, and a task that waits for it is elsewhere. -/
structure IsQueue (m : Memory) (q : Addr) : Prop where
  head_lt : (getLong m (q + head)).toNat < 1024
  tail_lt : (getLong m (q + tail)).toNat < 1024
  waiting : getLong m (q + procList) ≠ 0 → Outside q (getLong m (q + procList))

variable {m : Memory} {q a : Addr} {c : BitVec 8} {k : BitVec 10}

theorem toNat_place_sub : (place q k - q).toNat = 16 + k.toNat := by
  have hk := k.isLt
  have hplace : place q k - q = buf + k.setWidth 32 := by
    unfold place
    bv_omega
  rw [hplace, BitVec.toNat_add, BitVec.toNat_setWidth]
  show (16 + k.toNat % 2 ^ 32) % 2 ^ 32 = 16 + k.toNat
  omega

theorem place_inj {k' : BitVec 10} (h : place q k = place q k') : k = k' := by
  have hk := toNat_place_sub (q := q) (k := k)
  rw [h, toNat_place_sub] at hk
  exact BitVec.eq_of_toNat_eq (by omega)

/-- The words before the buffer are not in it. -/
theorem place_far {off : Word} (hoff : off.toNat ≤ 12) : 4 ≤ (place q k - (q + off)).toNat := by
  have hk := toNat_place_sub (q := q) (k := k)
  have hlt := k.isLt
  bv_omega

theorem getLong_frame {m' : Memory} (hm : ∀ a, (∀ k, a ≠ place q k) → m' a = m a) {off : Word}
    (hoff : off.toNat ≤ 12) : getLong m' (q + off) = getLong m (q + off) := by
  have hfar : ∀ j : Word, j.toNat < 4 → ∀ k, q + off + j ≠ place q k := by
    intro j hj k h
    have hle := place_far (q := q) (k := k) hoff
    rw [← h] at hle
    bv_omega
  refine getLong_congr (hm _ ?_) (hm _ (hfar 1 (by decide))) (hm _ (hfar 2 (by decide)))
    (hm _ (hfar 3 (by decide)))
  have h0 := hfar 0 (by decide)
  rwa [add_zero] at h0

/-! ## A turn of the loop -/

/-- What the loop has done with the bytes `l`: they are behind the head, which is not written back. -/
structure Stored (m : Memory) (q : Addr) (st : List Word) (l : List (BitVec 8)) (s : State) : Prop where
  edx : s.edx = q
  ecx : s.ecx = ((queueAt m q).puts l).head.setWidth 32
  buf : ∀ k, s.mem (place q k) = ((queueAt m q).puts l).buf k
  frame : ∀ a, (∀ k, a ≠ place q k) → s.mem a = m a
  stack : s.stack = st

variable {st : List Word} {l : List (BitVec 8)} {s : State}

/-- The visible characters are those before, and perhaps more behind them. -/
def Kept (m : Memory) (q : Addr) (s : State) : Prop :=
  (queueAt m q).contents <+: (queueAt s.mem q).contents

theorem Stored.contents (h : Stored m q st l s) (hl : l.length ≤ (queueAt m q).left + 1) :
    (queueAt s.mem q).contents = (queueAt m q).contents := by
  have hhead : getLong s.mem (q + head) = getLong m (q + head) := getLong_frame h.frame (by decide)
  have htail : getLong s.mem (q + tail) = getLong m (q + tail) := getLong_frame h.frame (by decide)
  refine Fifo.contents_congr ?_ ?_ fun k hk => ?_
  · exact congrArg (BitVec.setWidth 10) hhead
  · exact congrArg (BitVec.setWidth 10) htail
  · exact (h.buf _).trans (Fifo.buf_puts hl hk)

theorem Stored.kept (h : Stored m q st l s) (hl : l.length ≤ (queueAt m q).left + 1) : Kept m q s := by
  unfold Kept
  rw [h.contents hl]

/-- `incl`, `andl $size-1`: the next place. -/
theorem next_place (h : BitVec 10) : (h.setWidth 32 + 1 &&& (size - 1) : Word) = (h + 1).setWidth 32 := by
  apply BitVec.eq_of_toNat_eq
  have hlt := h.isLt
  have hmask : (size - 1).toNat = 2 ^ 10 - 1 := by decide
  rw [BitVec.toNat_and, hmask, Nat.and_two_pow_sub_one_eq_mod, BitVec.toNat_setWidth, BitVec.toNat_add,
    BitVec.toNat_add, BitVec.toNat_setWidth]
  show (h.toNat % 2 ^ 32 + 1) % 2 ^ 32 % 2 ^ 10 = (h.toNat + 1) % 2 ^ 10 % 2 ^ 32
  omega

/-- From label 1 to the test whether the queue is full. -/
def afterStore (s : State) : State :=
  let mem := Function.update s.mem (s.edx + buf + s.ecx) (low s.eax)
  let ecx := s.ecx + 1 &&& (size - 1)
  { s with pc := 8, mem, ecx, zf := ecx == getLong mem (s.edx + tail) }

theorem afterStore_zf :
    (afterStore s).zf = ((afterStore s).ecx == getLong (afterStore s).mem (s.edx + tail)) := rfl

theorem runs_afterStore {P : State → Prop} (hpc : s.pc = 4) (hP : P s)
    (hP' : ∀ t : State, t.mem = (afterStore s).mem → P t) : Runs (step q) P s (afterStore s) := by
  obtain ⟨pc, eax, ebx, ecx, edx, zf, stack, mem⟩ := s
  obtain rfl : pc = 4 := hpc
  exact .head hP (.head (hP' _ rfl) (.head (hP' _ rfl) (.head (hP' _ rfl) (.refl _))))

theorem Stored.afterStore (h : Stored m q st l s) :
    Stored m q st (l ++ [low s.eax]) (afterStore s) := by
  have hput : (queueAt m q).puts (l ++ [low s.eax]) = ((queueAt m q).puts l).putch (low s.eax) :=
    Fifo.puts_append
  have hmem : (Keyboard.afterStore s).mem =
      Function.update s.mem (place q ((queueAt m q).puts l).head) (low s.eax) := by
    show Function.update s.mem (s.edx + _ + s.ecx) _ = _
    rw [h.edx, h.ecx]
    rfl
  refine ⟨h.edx, ?_, fun k => ?_, fun a ha => ?_, h.stack⟩
  · rw [hput]
    show s.ecx + 1 &&& (size - 1) = (((queueAt m q).puts l).head + 1).setWidth 32
    rw [h.ecx, next_place]
  · rw [hmem, hput]
    show _ = Function.update ((queueAt m q).puts l).buf ((queueAt m q).puts l).head (low s.eax) k
    by_cases hk : k = ((queueAt m q).puts l).head
    · rw [hk, Function.update_self, Function.update_self]
    · rw [Function.update_of_ne (fun he => hk (place_inj he)), Function.update_of_ne hk, h.buf]
  · rw [hmem, Function.update_of_ne (ha _), h.frame a ha]

/-- The indices are in the buffer, and are compared as such. -/
theorem IsQueue.setWidth_tail (h : IsQueue m q) :
    getLong m (q + tail) = (queueAt m q).tail.setWidth 32 := by
  apply BitVec.eq_of_toNat_eq
  have hlt := h.tail_lt
  show _ = (((getLong m (q + tail)).setWidth 10).setWidth 32).toNat
  rw [BitVec.toNat_setWidth, BitVec.toNat_setWidth]
  omega

theorem setWidth_inj {h h' : BitVec 10} : h.setWidth 32 = (h'.setWidth 32 : Word) ↔ h = h' := by
  constructor
  · intro heq
    have hnat := congrArg BitVec.toNat heq
    have hlt := h.isLt
    have hlt' := h'.isLt
    rw [BitVec.toNat_setWidth, BitVec.toNat_setWidth] at hnat
    exact BitVec.eq_of_toNat_eq (by omega)
  · intro heq
    rw [heq]

/-- The test finds the queue full after the first byte for which there is no room. -/
theorem Stored.full (hm : IsQueue m q) (h : Stored m q st l s) (hl : l.length ≤ (queueAt m q).left) :
    (Keyboard.afterStore s).zf = true ↔ l.length = (queueAt m q).left := by
  have hs := h.afterStore
  have htail : getLong (Keyboard.afterStore s).mem (q + tail) = getLong m (q + tail) :=
    getLong_frame hs.frame (by decide)
  rw [afterStore_zf, h.edx, htail, hs.ecx, hm.setWidth_tail, beq_iff_eq, setWidth_inj]
  exact Fifo.head_puts_eq_tail hl

/-! ## The loop -/

/-- What is left in `%eax` after `k` bytes. -/
def remaining (v : BitVec 64) (k : ℕ) : BitVec 32 := (v >>> (8 * k)).setWidth 32

/-- The byte number `k`, from the lowest on. -/
def byteAt (v : BitVec 64) (k : ℕ) : BitVec 8 := (v >>> (8 * k)).setWidth 8

def bytes (v : BitVec 64) (n : ℕ) : List (BitVec 8) := (List.range n).map (byteAt v)

theorem byteAt_zero {a b : Word} : byteAt (b ++ a) 0 = low a := by
  apply BitVec.eq_of_getLsbD_eq
  intro i hi
  unfold byteAt low
  rw [Nat.mul_zero, BitVec.ushiftRight_zero, BitVec.getLsbD_setWidth, BitVec.getLsbD_append,
    BitVec.getLsbD_extractLsb', if_pos (by omega), Nat.zero_add]

/-- `n` bytes come before nothing is left in `%eax`. -/
structure Whole (v : BitVec 64) (n : ℕ) : Prop where
  pos : 0 < n
  last : remaining v n = 0
  before : ∀ k, 0 < k → k < n → remaining v k ≠ 0

theorem remaining_shift (v : BitVec 64) (k : ℕ) : remaining (v >>> 8) k = remaining v (k + 1) := by
  unfold remaining
  rw [← BitVec.shiftRight_add, Nat.mul_succ, Nat.add_comm]

theorem bytes_succ (v : BitVec 64) (n : ℕ) : bytes v (n + 1) = byteAt v 0 :: bytes (v >>> 8) n := by
  unfold bytes
  rw [List.range_succ_eq_map, List.map_cons, List.map_map]
  refine congrArg _ (List.map_congr_left fun k _ => ?_)
  show (v >>> (8 * (k + 1))).setWidth 8 = (v >>> 8 >>> (8 * k)).setWidth 8
  rw [← BitVec.shiftRight_add, Nat.mul_succ, Nat.add_comm]

theorem Whole.next {v : BitVec 64} {n : ℕ} (h : Whole v (n + 1)) (hn : n ≠ 0) : Whole (v >>> 8) n where
  pos := Nat.pos_of_ne_zero hn
  last := by rw [remaining_shift]; exact h.last
  before k hk hlt := by rw [remaining_shift]; exact h.before (k + 1) (Nat.succ_pos k) (by omega)

/-- Eight bytes are the whole pair, so there is such a number. -/
theorem exists_whole (v : BitVec 64) : ∃ n ≤ 8, Whole v n := by
  have h8 : 0 < 8 ∧ remaining v 8 = 0 := ⟨by decide, by
    apply BitVec.eq_of_getLsbD_eq
    intro i hi
    unfold remaining
    rw [BitVec.getLsbD_setWidth, BitVec.getLsbD_ushiftRight, BitVec.getLsbD_of_ge _ _ (by omega)]
    simp⟩
  classical
  have hex : ∃ n, 0 < n ∧ remaining v n = 0 := ⟨8, h8⟩
  obtain ⟨hpos, hlast⟩ := Nat.find_spec hex
  exact ⟨Nat.find hex, Nat.find_min' hex h8, hpos, hlast, fun k hk hlt h0 => Nat.find_min hex hlt ⟨hk, h0⟩⟩

section Turn

variable {P : State → Prop}

theorem runs_full (hpc : s.pc = 8) (hz : s.zf = true) (hP : P s) :
    Runs (step q) P s { s with pc := 18 } := by
  obtain ⟨pc, eax, ebx, ecx, edx, zf, stack, mem⟩ := s
  obtain rfl : pc = 8 := hpc
  obtain rfl : zf = true := hz
  exact .head hP (.refl _)

theorem runs_last (hpc : s.pc = 8) (hz : s.zf = false) (h0 : shrd 8 s.ebx s.eax = 0)
    (hP : ∀ t : State, t.mem = s.mem → P t) :
    Runs (step q) P s { s with pc := 13, eax := 0, zf := true } := by
  obtain ⟨pc, eax, ebx, ecx, edx, zf, stack, mem⟩ := s
  obtain rfl : pc = 8 := hpc
  obtain rfl : zf = false := hz
  have hshift : step q ⟨9, eax, ebx, ecx, edx, false, stack, mem⟩ =
      ⟨10, 0, ebx, ecx, edx, true, stack, mem⟩ := by
    show State.mk 10 (shrd 8 ebx eax) ebx ecx edx (shrd 8 ebx eax == 0) stack mem = _
    rw [h0]
    rfl
  refine .head (hP _ rfl) (.head (hP _ rfl) ?_)
  rw [show step q ⟨8, eax, ebx, ecx, edx, false, stack, mem⟩ =
    ⟨9, eax, ebx, ecx, edx, false, stack, mem⟩ from rfl, hshift]
  exact .head (hP _ rfl) (.refl _)

theorem runs_more (hpc : s.pc = 8) (hz : s.zf = false) (h0 : shrd 8 s.ebx s.eax ≠ 0)
    (hP : ∀ t : State, t.mem = s.mem → P t) :
    Runs (step q) P s { s with
      pc := 4, eax := shrd 8 s.ebx s.eax, ebx := s.ebx >>> 8, zf := s.ebx >>> 8 == 0 } := by
  obtain ⟨pc, eax, ebx, ecx, edx, zf, stack, mem⟩ := s
  obtain rfl : pc = 8 := hpc
  obtain rfl : zf = false := hz
  have hshift : step q ⟨9, eax, ebx, ecx, edx, false, stack, mem⟩ =
      ⟨10, shrd 8 ebx eax, ebx, ecx, edx, false, stack, mem⟩ := by
    show State.mk 10 (shrd 8 ebx eax) ebx ecx edx (shrd 8 ebx eax == 0) stack mem = _
    rw [beq_eq_false_iff_ne.2 h0]
  refine .head (hP _ rfl) (.head (hP _ rfl) ?_)
  rw [show step q ⟨8, eax, ebx, ecx, edx, false, stack, mem⟩ =
    ⟨9, eax, ebx, ecx, edx, false, stack, mem⟩ from rfl, hshift]
  exact .head (hP _ rfl) (.head (hP _ rfl) (.head (hP _ rfl) (.refl _)))

end Turn

theorem Stored.congr {t : State} (h : Stored m q st l s) (hedx : t.edx = s.edx) (hecx : t.ecx = s.ecx)
    (hmem : t.mem = s.mem) (hstack : t.stack = s.stack) : Stored m q st l t where
  edx := hedx.trans h.edx
  ecx := hecx.trans h.ecx
  buf k := by rw [hmem]; exact h.buf k
  frame a ha := by rw [hmem]; exact h.frame a ha
  stack := hstack.trans h.stack

/-- **The loop**: it stores all of `n` more bytes if there is room for them, and otherwise as many as
there is room for and one into the place that is always free. -/
theorem runs_loop (hm : IsQueue m q) {n : ℕ} {v : BitVec 64} (hv : s.ebx ++ s.eax = v)
    (hn : Whole v n) (hpc : s.pc = 4) (hs : Stored m q st l s) (hl : l.length ≤ (queueAt m q).left) :
    (l.length + n ≤ (queueAt m q).left → ∃ t, Runs (step q) (Kept m q) s t ∧ t.pc = 13 ∧
      Stored m q st (l ++ bytes v n) t) ∧
    ((queueAt m q).left < l.length + n → ∃ t l', Runs (step q) (Kept m q) s t ∧ t.pc = 18 ∧
      Stored m q st l' t ∧ l'.length = (queueAt m q).left + 1) := by
  induction n generalizing s l v with
  | zero => exact absurd hn.pos (Nat.lt_irrefl 0)
  | succ n ih =>
    subst hv
    have ha := hs.afterStore
    have hlen : (l ++ [low s.eax]).length = l.length + 1 := by simp
    have hkept : ∀ t : State, t.mem = (Keyboard.afterStore s).mem → Kept m q t := by
      intro t ht
      have hk := ha.kept (by rw [hlen]; omega)
      unfold Kept at hk ⊢
      rwa [ht]
    have hstore : Runs (step q) (Kept m q) s (Keyboard.afterStore s) :=
      runs_afterStore hpc (hs.kept (by omega)) hkept
    have hfull := hs.full hm hl
    have hfirst := byteAt_zero (b := s.ebx) (a := s.eax)
    by_cases hroom : l.length = (queueAt m q).left
    · refine ⟨fun hle => by omega, fun _ => ?_⟩
      exact ⟨_, _, hstore.trans (runs_full rfl (hfull.2 hroom) (hkept _ rfl)), rfl,
        ha.congr rfl rfl rfl rfl, by rw [hlen, hroom]⟩
    · have hz : (Keyboard.afterStore s).zf = false := Bool.eq_false_iff.2 (mt hfull.1 hroom)
      by_cases hlast : n = 0
      · subst hlast
        have h0 : shrd 8 s.ebx s.eax = 0 := hn.last
        refine ⟨fun _ => ?_, fun hlt => by omega⟩
        refine ⟨_, hstore.trans (runs_last rfl hz h0 hkept), rfl, ?_⟩
        have hbytes : bytes (s.ebx ++ s.eax) (0 + 1) = [low s.eax] := by
          rw [bytes_succ, hfirst]
          rfl
        rw [hbytes]
        exact ha.congr rfl rfl rfl rfl
      · have h0 : shrd 8 s.ebx s.eax ≠ 0 := hn.before 1 one_pos (by omega)
        have hmore := hstore.trans (runs_more rfl hz h0 hkept)
        have hshift : ((s.ebx >>> 8) ++ shrd 8 s.ebx s.eax : BitVec 64) = (s.ebx ++ s.eax) >>> 8 :=
          append_shrd (by decide)
        generalize hu : State.mk 4 _ _ _ _ _ _ _ = u at hmore
        have hstored : Stored m q st (l ++ [low s.eax]) u := by
          subst hu
          exact ha.congr rfl rfl rfl rfl
        have hv : u.ebx ++ u.eax = (s.ebx ++ s.eax) >>> 8 := by
          subst hu
          exact hshift
        have hpc : u.pc = 4 := by
          subst hu
          rfl
        have hrest := ih hv (hn.next hlast) hpc hstored (by rw [hlen]; omega)
        rw [hlen, List.append_assoc, List.singleton_append, ← hfirst, ← bytes_succ] at hrest
        refine ⟨fun hle => ?_, fun hlt => ?_⟩
        · obtain ⟨t, ht, hpc, hstored⟩ := hrest.1 (by omega)
          exact ⟨t, hmore.trans ht, hpc, hstored⟩
        · obtain ⟨t, l', ht, hpc, hstored, hlen'⟩ := hrest.2 (by omega)
          exact ⟨t, l', hmore.trans ht, hpc, hstored, hlen'⟩

/-! ## Before and after the loop -/

/-- Up to label 1. -/
theorem runs_entry (hm : IsQueue s.mem q) (hpc : s.pc = 0) : ∃ t, Runs (step q) (Kept s.mem q) s t ∧
    t.pc = 4 ∧ t.ebx ++ t.eax = (s.ebx ++ s.eax : BitVec 64) ∧
      Stored s.mem q (s.edx :: s.ecx :: s.stack) [] t := by
  obtain ⟨pc, eax, ebx, ecx, edx, zf, stack, mem⟩ := s
  obtain rfl : pc = 0 := hpc
  have hkept : ∀ t : State, t.mem = mem → Kept mem q t := by
    intro t ht
    unfold Kept
    rw [ht]
  refine ⟨⟨4, eax, ebx, getLong mem (q + head), q, zf, edx :: ecx :: stack, mem⟩, ?_, rfl, rfl, ?_⟩
  · exact .head (hkept _ rfl) (.head (hkept _ rfl) (.head (hkept _ rfl) (.head (hkept _ rfl) (.refl _))))
  · refine ⟨rfl, ?_, fun _ => rfl, fun _ _ => rfl, rfl⟩
    apply BitVec.eq_of_toNat_eq
    have hlt : (getLong mem (q + head)).toNat < 1024 := hm.head_lt
    show _ = (((getLong mem (q + head)).setWidth 10).setWidth 32).toNat
    rw [BitVec.toNat_setWidth, BitVec.toNat_setWidth]
    show (getLong mem (q + head)).toNat = _
    omega

/-- From label 3 on. -/
theorem runs_exit {P : State → Prop} {ecx edx : Word} (hpc : s.pc = 18) (hst : s.stack = edx :: ecx :: st)
    (hP : ∀ t : State, t.mem = s.mem → P t) :
    Runs (step q) P s { s with pc := 20, ecx, edx, stack := st } := by
  obtain ⟨pc, eax, ebx, ecx', edx', zf, stack, mem⟩ := s
  obtain rfl : pc = 18 := hpc
  obtain rfl : stack = edx :: ecx :: st := hst
  exact .head (hP _ rfl) (.head (hP _ rfl) (.refl _))

/-- What label 2 makes of memory: the head is written back, and a task that waits is made runnable. -/
def publish (q : Addr) (ecx : Word) (m : Memory) : Memory :=
  let m := putLong m (q + head) ecx
  if getLong m (q + procList) = 0 then m else putLong m (getLong m (q + procList)) 0

/-- From label 2 to label 3. -/
theorem runs_publish {P : State → Prop} (hpc : s.pc = 13) (hedx : s.edx = q) (hP : P s)
    (hP' : ∀ t : State, t.mem = putLong s.mem (q + head) s.ecx → P t) :
    ∃ t, Runs (step q) P s t ∧ t.pc = 18 ∧ t.mem = publish q s.ecx s.mem ∧ t.stack = s.stack := by
  obtain ⟨pc, eax, ebx, ecx, edx, zf, stack, mem⟩ := s
  obtain rfl : pc = 13 := hpc
  obtain rfl : edx = q := hedx
  have h13 : step edx ⟨13, eax, ebx, ecx, edx, zf, stack, mem⟩ =
      ⟨14, eax, ebx, ecx, edx, zf, stack, putLong mem (edx + head) ecx⟩ := rfl
  generalize hm : putLong mem (edx + head) ecx = m at hP' h13
  have hpub : publish edx ecx mem =
      if getLong m (edx + procList) = 0 then m else putLong m (getLong m (edx + procList)) 0 := by
    unfold publish
    rw [hm]
  have h14 : step edx ⟨14, eax, ebx, ecx, edx, zf, stack, m⟩ =
      ⟨15, eax, ebx, getLong m (edx + procList), edx, zf, stack, m⟩ := rfl
  generalize getLong m (edx + procList) = p at hpub h14
  have h15 : step edx ⟨15, eax, ebx, p, edx, zf, stack, m⟩ =
      ⟨16, eax, ebx, p, edx, p == 0, stack, m⟩ := rfl
  have hto : Runs (step edx) P ⟨13, eax, ebx, ecx, edx, zf, stack, mem⟩
      ⟨16, eax, ebx, p, edx, p == 0, stack, m⟩ := by
    refine .head hP ?_
    rw [h13]
    refine .head (hP' _ rfl) ?_
    rw [h14]
    refine .head (hP' _ rfl) ?_
    rw [h15]
    exact .refl _
  show ∃ t : State, _ ∧ _ ∧ t.mem = publish edx ecx mem ∧ _
  rw [hpub]
  by_cases hp : p = 0
  · subst hp
    rw [if_pos rfl]
    exact ⟨_, hto.trans (.head (hP' _ rfl) (.refl _)), rfl, rfl, rfl⟩
  · rw [if_neg hp]
    have hz : (p == 0) = false := beq_eq_false_iff_ne.2 hp
    rw [hz] at hto
    exact ⟨_, hto.trans (.head (hP' _ rfl) (.head (hP' _ rfl) (.refl _))), rfl, rfl, rfl⟩

/-- A memory with the queue of `m`, to which the characters `l` are added. -/
structure Shows (m : Memory) (q : Addr) (l : List (BitVec 8)) (m' : Memory) : Prop where
  head : getLong m' (q + head) = ((queueAt m q).puts l).head.setWidth 32
  tail : getLong m' (q + tail) = getLong m (q + tail)
  buf : ∀ k, m' (place q k) = ((queueAt m q).puts l).buf k

theorem Shows.contents {m' : Memory} (h : Shows m q l m') (hl : l.length ≤ (queueAt m q).left) :
    (queueAt m' q).contents = (queueAt m q).contents ++ l := by
  rw [← Fifo.contents_puts hl]
  refine Fifo.contents_congr ?_ ?_ fun k _ => h.buf _
  · show (getLong m' (q + Keyboard.head)).setWidth 10 = _
    rw [h.head, BitVec.setWidth_setWidth_of_le _ (by decide), BitVec.setWidth_eq]
  · show (getLong m' (q + Keyboard.tail)).setWidth 10 = _
    rw [h.tail, Fifo.tail_puts]
    rfl

variable {p : Word}

theorem Outside.apart (h : Outside q p) {off : Word} (hoff : off.toNat ≤ 12) : Apart p (q + off) := by
  obtain ⟨h1, h2⟩ := h
  constructor <;> bv_omega

theorem Outside.place (h : Outside q p) : 4 ≤ (place q k - p).toNat := by
  obtain ⟨h1, h2⟩ := h
  have hk := toNat_place_sub (q := q) (k := k)
  have hlt := k.isLt
  bv_omega

theorem Shows.wake {m' : Memory} (h : Shows m q l m') (hp : Outside q p) :
    Shows m q l (putLong m' p 0) where
  head := by rw [getLong_putLong_of_apart (hp.apart (by decide))]; exact h.head
  tail := by rw [getLong_putLong_of_apart (hp.apart (by decide))]; exact h.tail
  buf k := by rw [putLong_of_le hp.place]; exact h.buf k

section Published

variable (hs : Stored m q st l s)

include hs

theorem shows_head : Shows m q l (putLong s.mem (q + head) s.ecx) := by
  have hapart : Apart (q + head) (q + tail) := by
    unfold head tail
    constructor <;> bv_omega
  refine ⟨by rw [getLong_putLong, hs.ecx], ?_, fun k => ?_⟩
  · rw [getLong_putLong_of_apart hapart, getLong_frame hs.frame (by decide)]
  · rw [putLong_of_le (place_far (by decide)), hs.buf]

theorem publish_eq : publish q s.ecx s.mem = if getLong m (q + procList) = 0
    then putLong s.mem (q + head) s.ecx
    else putLong (putLong s.mem (q + head) s.ecx) (getLong m (q + procList)) 0 := by
  have hapart : Apart (q + head) (q + procList) := by
    unfold head procList
    constructor <;> bv_omega
  have hp : getLong (putLong s.mem (q + head) s.ecx) (q + procList) = getLong m (q + procList) := by
    rw [getLong_putLong_of_apart hapart, getLong_frame hs.frame (by decide)]
  unfold publish
  simp only [hp]

theorem shows_publish (hm : IsQueue m q) : Shows m q l (publish q s.ecx s.mem) := by
  rw [publish_eq hs]
  split
  · exact shows_head hs
  · next hp => exact (shows_head hs).wake (hm.waiting hp)

theorem publish_wakes (hp : getLong m (q + procList) ≠ 0) :
    getLong (publish q s.ecx s.mem) (getLong m (q + procList)) = 0 := by
  rw [publish_eq hs, if_neg hp, getLong_putLong]

theorem publish_frame (ha : ∀ k, a ≠ place q k) (hhead : 4 ≤ (a - (q + head)).toNat)
    (hp : getLong m (q + procList) ≠ 0 → 4 ≤ (a - getLong m (q + procList)).toNat) :
    publish q s.ecx s.mem a = m a := by
  rw [publish_eq hs]
  split
  · rw [putLong_of_le hhead, hs.frame a ha]
  · next h => rw [putLong_of_le (hp h), putLong_of_le hhead, hs.frame a ha]

end Published

theorem step_ret (hpc : s.pc = 20) : step q s = s := by
  unfold step
  rw [hpc]
  rfl

/-- **A key's bytes are queued whole**: those of `%ebx:%eax` from the lowest up to the last one before
nothing is left in `%eax`, if there is room for all of them, and a task that waits is made runnable; and
otherwise none. The routine returns, at no time is a character that is in the queue overwritten, and
nothing else is written. -/
theorem putQueue_whole (q : Addr) (s : State) (hpc : s.pc = 0) (hq : IsQueue s.mem q) :
    ∃ n ≤ 8, Whole (s.ebx ++ s.eax) n ∧ ∃ i, ∃ t : State, (step q)^[i] s = t ∧
      t.returns ∧ t.ecx = s.ecx ∧ t.edx = s.edx ∧ t.stack = s.stack ∧
      (n ≤ (queueAt s.mem q).left →
        (queueAt t.mem q).contents = (queueAt s.mem q).contents ++ bytes (s.ebx ++ s.eax) n ∧
        (getLong s.mem (q + procList) ≠ 0 → getLong t.mem (getLong s.mem (q + procList)) = 0)) ∧
      ((queueAt s.mem q).left < n →
        (queueAt t.mem q).contents = (queueAt s.mem q).contents ∧
        getLong t.mem (q + head) = getLong s.mem (q + head)) ∧
      getLong t.mem (q + tail) = getLong s.mem (q + tail) ∧
      (∀ a, (∀ k, a ≠ place q k) → 4 ≤ (a - (q + head)).toNat →
        (getLong s.mem (q + procList) ≠ 0 → 4 ≤ (a - getLong s.mem (q + procList)).toNat) →
        t.mem a = s.mem a) ∧
      ∀ i, (queueAt s.mem q).contents <+: (queueAt ((step q)^[i] s).mem q).contents := by
  obtain ⟨n, hn8, hn⟩ := exists_whole (s.ebx ++ s.eax)
  have hlen : (bytes (s.ebx ++ s.eax) n).length = n := by simp [bytes]
  obtain ⟨s₁, hrun₁, hpc₁, hv₁, hs₁⟩ := runs_entry hq hpc
  have hloop := runs_loop hq hv₁ hn hpc₁ hs₁ (Nat.zero_le _)
  rw [List.length_nil, Nat.zero_add, List.nil_append] at hloop
  refine ⟨n, hn8, hn, ?_⟩
  by_cases hroom : n ≤ (queueAt s.mem q).left
  · obtain ⟨s₂, hrun₂, hpc₂, hs₂⟩ := hloop.1 hroom
    have hshows := shows_publish hs₂ hq
    have hleft : (bytes (s.ebx ++ s.eax) n).length ≤ (queueAt s.mem q).left := by rwa [hlen]
    have hkept : ∀ m', Shows s.mem q (bytes (s.ebx ++ s.eax) n) m' →
        ∀ t : State, t.mem = m' → Kept s.mem q t := by
      intro m' hm t ht
      unfold Kept
      rw [ht, hm.contents hleft]
      exact List.prefix_append _ _
    obtain ⟨s₃, hrun₃, hpc₃, hmem₃, hst₃⟩ := runs_publish hpc₂ hs₂.edx (hs₂.kept (by omega))
      (hkept _ (shows_head hs₂))
    have hrun₄ := runs_exit (q := q) hpc₃ (hst₃.trans hs₂.stack) fun t ht => hkept _ hshows t (ht.trans hmem₃)
    have hrun := hrun₁.trans (hrun₂.trans (hrun₃.trans hrun₄))
    obtain ⟨i, hi, -⟩ := hrun.iterate
    refine ⟨i, _, hi, rfl, rfl, rfl, rfl, fun _ => ⟨?_, fun hp => ?_⟩, fun hlt => by omega, ?_,
      fun a ha hhead hp => ?_, fun i => ?_⟩
    · show (queueAt s₃.mem q).contents = _
      rw [hmem₃]
      exact hshows.contents hleft
    · show getLong s₃.mem _ = 0
      rw [hmem₃]
      exact publish_wakes hs₂ hp
    · show getLong s₃.mem _ = _
      rw [hmem₃]
      exact hshows.tail
    · show s₃.mem a = _
      rw [hmem₃]
      exact publish_frame hs₂ ha hhead hp
    · exact hrun.always (step_ret rfl) (hkept _ hshows _ hmem₃) i
  · obtain ⟨s₂, l', hrun₂, hpc₂, hs₂, hlen'⟩ := hloop.2 (not_le.1 hroom)
    have hcontents := hs₂.contents hlen'.le
    have hkept : ∀ t : State, t.mem = s₂.mem → Kept s.mem q t := by
      intro t ht
      unfold Kept
      rw [ht, hcontents]
    have hrun := hrun₁.trans (hrun₂.trans (runs_exit (q := q) hpc₂ hs₂.stack hkept))
    obtain ⟨i, hi, -⟩ := hrun.iterate
    refine ⟨i, _, hi, rfl, rfl, rfl, rfl, fun hle => absurd hle hroom, fun _ => ⟨hcontents, ?_⟩, ?_,
      fun a ha _ _ => hs₂.frame a ha, fun i => ?_⟩
    · exact getLong_frame hs₂.frame (by decide)
    · exact getLong_frame hs₂.frame (by decide)
    · exact hrun.always (step_ret rfl) (hkept _ rfl) i

/-- The cursor key, on an empty queue. -/
def cursorUp : State where
  pc := 0
  eax := 0x415b1b
  ebx := 0
  ecx := 1
  edx := 2
  zf := false
  stack := []
  mem := fun _ => 0

theorem putQueue_whole_cursorUp : ∃ i,
    (queueAt ((step 0x1000)^[i] cursorUp).mem 0x1000).contents = [0x1b, 0x5b, 0x41] := by
  obtain ⟨n, hn8, hn, i, t, hi, -, -, -, -, hroom, -⟩ :=
    putQueue_whole 0x1000 cursorUp rfl ⟨by decide, by decide, fun h => absurd rfl h⟩
  have h3 : n = 3 := by
    have hpos := hn.pos
    have hlast := hn.last
    have hle : n ≤ 3 := not_lt.1 fun hlt => hn.before 3 (by decide) hlt (by decide)
    interval_cases n
    · exact absurd hlast (by decide)
    · exact absurd hlast (by decide)
    · rfl
  subst h3
  refine ⟨i, ?_⟩
  rw [hi, (hroom (by decide)).1]
  decide

end Linux011.Keyboard
