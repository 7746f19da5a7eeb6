import Mathlib.Data.List.Basic
import Mathlib.Data.BitVec
import Mathlib.Logic.Function.Basic

/-!
# Byte memories

Words of four bytes, a memory of 2^32 bytes with words and strings in it, little-endian.

1. `byteOf`: the bytes of a word. `getLong`, `putLong`: a word in a memory.
2. `StringAt`, `StringsAt`: strings ended by a zero byte, and an array of pointers to such strings.
   `scan`: the search for the end of a string.
-/

namespace Linux011.Bytes

abbrev Byte := BitVec 8

abbrev Addr := BitVec 32

abbrev Memory := Addr → Byte

/-! ## The bytes of a word -/

def byteOf (w : BitVec 32) (k : ℕ) : Byte := w.extractLsb' (8 * k) 8

/-! ## Words in a memory -/

variable {m m' : Memory} {a b p : Addr} {v : BitVec 32}

def getLong (m : Memory) (a : Addr) : BitVec 32 := m (a + 3) ++ m (a + 2) ++ m (a + 1) ++ m a

def putLong (m : Memory) (a : Addr) (v : BitVec 32) : Memory := fun x =>
  if (x - a).toNat < 4 then byteOf v (x - a).toNat else m x

/-- No byte is in both words. -/
def Apart (a b : Addr) : Prop := 4 ≤ (b - a).toNat ∧ 4 ≤ (a - b).toNat

instance (a b : Addr) : Decidable (Apart a b) :=
  inferInstanceAs (Decidable (4 ≤ (b - a).toNat ∧ 4 ≤ (a - b).toNat))

theorem getLong_congr (h0 : m' a = m a) (h1 : m' (a + 1) = m (a + 1)) (h2 : m' (a + 2) = m (a + 2))
    (h3 : m' (a + 3) = m (a + 3)) : getLong m' a = getLong m a := by
  unfold getLong
  rw [h0, h1, h2, h3]

theorem append_byteOf (v : BitVec 32) :
    (byteOf v 3 ++ byteOf v 2 ++ byteOf v 1 ++ byteOf v 0 : BitVec 32) = v := by
  apply BitVec.eq_of_getLsbD_eq
  intro i hi
  unfold byteOf
  simp only [BitVec.getLsbD_append, BitVec.getLsbD_extractLsb']
  by_cases h1 : i < 8
  · simp [h1]
  · by_cases h2 : i - 8 < 8
    · simp [h1, h2, show 8 + (i - 8) = i by omega]
    · by_cases h3 : i - 8 - 8 < 8
      · simp [h1, h2, h3, show 16 + (i - 8 - 8) = i by omega]
      · have h4 : i - 8 - 8 - 8 < 8 := by omega
        simp [h1, h2, h3, h4, show 24 + (i - 8 - 8 - 8) = i by omega]

theorem putLong_of_le (h : 4 ≤ (b - a).toNat) : putLong m a v b = m b :=
  if_neg (not_lt.2 h)

@[simp] theorem getLong_putLong : getLong (putLong m a v) a = v := by
  have hadd : ∀ k : BitVec 32, a + k - a = k := fun k => by rw [add_sub_cancel_left]
  have h : ∀ k : BitVec 32, k.toNat < 4 → putLong m a v (a + k) = byteOf v k.toNat := by
    intro k hk
    unfold putLong
    rw [hadd, if_pos hk]
  have h0 := h 0 (by decide)
  rw [add_zero] at h0
  unfold getLong
  rw [h0, h 1 (by decide), h 2 (by decide), h 3 (by decide)]
  exact append_byteOf v

theorem getLong_putLong_of_apart (h : Apart a b) : getLong (putLong m a v) b = getLong m b := by
  obtain ⟨h1, h2⟩ := h
  refine getLong_congr ?_ ?_ ?_ ?_
  · exact putLong_of_le h1
  · exact putLong_of_le (by bv_omega)
  · exact putLong_of_le (by bv_omega)
  · exact putLong_of_le (by bv_omega)

theorem getLong_congr_range (ha : a.toNat + 4 ≤ 2 ^ 32)
    (h : ∀ x : Addr, a.toNat ≤ x.toNat → x.toNat < a.toNat + 4 → m' x = m x) :
    getLong m' a = getLong m a := by
  refine getLong_congr (h _ le_rfl (by omega)) ?_ ?_ ?_
  · exact h _ (by bv_omega) (by bv_omega)
  · exact h _ (by bv_omega) (by bv_omega)
  · exact h _ (by bv_omega) (by bv_omega)

theorem putLong_out (v : BitVec 32) (ha : a.toNat + 4 ≤ 2 ^ 32)
    (h : b.toNat < a.toNat ∨ a.toNat + 4 ≤ b.toNat) : putLong m a v b = m b :=
  putLong_of_le (by bv_omega)

/-! ## Strings -/

/-- The string `s`, which has no zero byte, and a zero byte behind it are at `a`. -/
def StringAt (m : Memory) : Addr → List Byte → Prop
  | a, [] => m a = 0
  | a, c :: s => c ≠ 0 ∧ m a = c ∧ StringAt m (a + 1) s

/-- The strings are those that the array at `a` in `ptrs` points to. -/
def StringsAt (ptrs m : Memory) : Addr → List (List Byte) → Prop
  | _, [] => True
  | a, s :: ss =>
    getLong ptrs a ≠ 0 ∧ StringAt m (getLong ptrs a) s ∧ StringsAt ptrs m (a + 4) ss

/-- Whether there is this string can be tested. -/
def StringAt.decide (m : Memory) : (a : Addr) → (s : List Byte) → Decidable (StringAt m a s)
  | a, [] => inferInstanceAs (Decidable (m a = 0))
  | a, c :: s =>
    haveI := StringAt.decide m (a + 1) s
    inferInstanceAs (Decidable (c ≠ 0 ∧ m a = c ∧ StringAt m (a + 1) s))

instance (m : Memory) (a : Addr) (s : List Byte) : Decidable (StringAt m a s) := StringAt.decide m a s

/-- The number of bytes from `a` up to the first zero byte and with it, none if there is no zero
byte among the next `n`. -/
def scan (m : Memory) : ℕ → Addr → Option ℕ
  | 0, _ => none
  | n + 1, a => if m a = 0 then some 1 else (scan m n (a + 1)).map (· + 1)

theorem StringAt.scan {s : List Byte} {n : ℕ} (h : StringAt m a s) (hn : s.length < n) :
    scan m n a = some (s.length + 1) := by
  induction s generalizing a n with
  | nil =>
    cases n with
    | zero => exact absurd hn (by simp)
    | succ n => exact if_pos h
  | cons c s ih =>
    cases n with
    | zero => exact absurd hn (by simp)
    | succ n =>
      obtain ⟨hc, hm, hs⟩ := h
      unfold Bytes.scan
      rw [if_neg (by rw [hm]; exact hc), ih hs (by simpa using hn)]
      rfl

theorem StringAt.get {s : List Byte} (h : StringAt m a s) {k : ℕ} (hk : k < s.length) :
    m (a + BitVec.ofNat 32 k) = s[k] ∧ s[k] ≠ 0 := by
  induction s generalizing a k with
  | nil => exact absurd hk (by simp)
  | cons c s ih =>
    obtain ⟨hc, hm, hs⟩ := h
    cases k with
    | zero => simpa using ⟨hm, hc⟩
    | succ k =>
      have hk' := ih hs (k := k) (by simpa using hk)
      rw [show a + BitVec.ofNat 32 (k + 1) = a + 1 + BitVec.ofNat 32 k by bv_omega]
      exact hk'

theorem StringAt.last {s : List Byte} (h : StringAt m a s) :
    m (a + BitVec.ofNat 32 s.length) = 0 := by
  induction s generalizing a with
  | nil =>
    have h0 : m a = 0 := h
    simpa using h0
  | cons c s ih =>
    rw [show a + BitVec.ofNat 32 (c :: s).length = a + 1 + BitVec.ofNat 32 s.length by
      simp only [List.length_cons]; bv_omega]
    exact ih h.2.2

/-- The zero byte is at an address of its own. -/
theorem StringAt.length_lt {s : List Byte} (h : StringAt m a s) : s.length < 2 ^ 32 := by
  by_contra hle
  obtain ⟨hm, hne⟩ := h.get (k := s.length - 2 ^ 32) (by omega)
  rw [show BitVec.ofNat 32 (s.length - 2 ^ 32) = BitVec.ofNat 32 s.length by
    apply BitVec.eq_of_toNat_eq; simp only [BitVec.toNat_ofNat]; omega, h.last] at hm
  exact hne hm.symm

/-- A string of one character. -/
theorem StringAt.replicate {n : ℕ} {c : Byte} (hc : c ≠ 0)
    (h : ∀ k < n, m (a + BitVec.ofNat 32 k) = c) (h0 : m (a + BitVec.ofNat 32 n) = 0) :
    StringAt m a (List.replicate n c) := by
  induction n generalizing a with
  | zero =>
    show m a = 0
    simpa using h0
  | succ n ih =>
    have hnext : ∀ k : ℕ, a + 1 + BitVec.ofNat 32 k = a + BitVec.ofNat 32 (k + 1) := fun k => by
      bv_omega
    refine ⟨hc, by simpa using h 0 (by omega), ih (fun k hk => ?_) ?_⟩
    · rw [hnext]
      exact h (k + 1) (by omega)
    · rw [hnext]
      exact h0

theorem stringsAt_append {ptrs : Memory} {ss ts : List (List Byte)} :
    StringsAt ptrs m a (ss ++ ts) ↔
      StringsAt ptrs m a ss ∧ StringsAt ptrs m (a + BitVec.ofNat 32 (4 * ss.length)) ts := by
  induction ss generalizing a with
  | nil => simp [StringsAt]
  | cons s ss ih =>
    have hnext : a + 4 + BitVec.ofNat 32 (4 * ss.length) =
        a + BitVec.ofNat 32 (4 * (s :: ss).length) := by
      simp only [List.length_cons]
      bv_omega
    simp only [List.cons_append, StringsAt]
    rw [ih, hnext, and_assoc, and_assoc]

/-- The `n` bytes from `a` on. -/
def readBytes (m : Memory) (a : Addr) (n : ℕ) : List Byte :=
  (List.range n).map fun k => m (a + BitVec.ofNat 32 k)

theorem readBytes_succ (m : Memory) (a : Addr) (n : ℕ) :
    readBytes m a (n + 1) = readBytes m a n ++ [m (a + BitVec.ofNat 32 n)] := by
  unfold readBytes
  rw [List.range_succ, List.map_append]
  rfl

theorem StringAt.readBytes {s : List Byte} (h : StringAt m a s) :
    readBytes m a (s.length + 1) = s ++ [0] := by
  rw [readBytes_succ, h.last]
  congr 1
  refine List.ext_getElem (by simp [Bytes.readBytes]) fun k h1 h2 => ?_
  rw [show (Bytes.readBytes m a s.length)[k] = m (a + BitVec.ofNat 32 k) by
    simp [Bytes.readBytes], (h.get h2).1]

/-- The bytes of the strings with their zero bytes. -/
def flat (ss : List (List Byte)) : List Byte := ss.flatMap (· ++ [0])

@[simp] theorem flat_nil : flat [] = [] := rfl

theorem flat_append (ss ts : List (List Byte)) : flat (ss ++ ts) = flat ss ++ flat ts :=
  List.flatMap_append

@[simp] theorem flat_singleton (s : List Byte) : flat [s] = s ++ [0] := by
  simp [flat]

theorem flat_cons (s : List Byte) (ss : List (List Byte)) : flat (s :: ss) = (s ++ [0]) ++ flat ss :=
  rfl

theorem StringAt.ne_zero {s : List Byte} (h : StringAt m a s) : ∀ c ∈ s, c ≠ 0 := by
  induction s generalizing a with
  | nil => exact fun c hc => absurd hc (List.not_mem_nil)
  | cons c s ih => exact List.forall_mem_cons.2 ⟨h.1, ih h.2.2⟩

theorem StringsAt.ne_zero {ptrs : Memory} {ss : List (List Byte)} (h : StringsAt ptrs m a ss) :
    ∀ s ∈ ss, ∀ c ∈ s, c ≠ 0 := by
  induction ss generalizing a with
  | nil => exact fun s hs => absurd hs (List.not_mem_nil)
  | cons s ss ih => exact List.forall_mem_cons.2 ⟨h.2.1.ne_zero, ih h.2.2⟩

theorem StringsAt.get_ne_zero {ptrs : Memory} {ss : List (List Byte)} (h : StringsAt ptrs m a ss)
    {k : ℕ} (hk : k < ss.length) : getLong ptrs (a + BitVec.ofNat 32 (4 * k)) ≠ 0 := by
  induction ss generalizing a k with
  | nil => exact absurd hk (Nat.not_lt_zero _)
  | cons s ss ih =>
    cases k with
    | zero =>
      rw [Nat.mul_zero, BitVec.add_zero]
      exact h.1
    | succ k =>
      rw [show a + BitVec.ofNat 32 (4 * (k + 1)) = a + 4 + BitVec.ofNat 32 (4 * k) by bv_omega]
      exact ih h.2.2 (by simpa using hk)

/-- The null pointer is at an address of its own. -/
theorem StringsAt.length_lt {ptrs : Memory} {ss : List (List Byte)} (h : StringsAt ptrs m a ss)
    (h0 : getLong ptrs (a + BitVec.ofNat 32 (4 * ss.length)) = 0) : ss.length < 2 ^ 30 := by
  by_contra hle
  obtain ⟨k, hk⟩ := Nat.exists_eq_add_of_le (not_lt.1 hle)
  refine h.get_ne_zero (k := k) (by omega) ?_
  have hwrap : BitVec.ofNat 32 (4 * ss.length) = BitVec.ofNat 32 (4 * k) := by
    apply BitVec.eq_of_toNat_eq
    rw [hk, BitVec.toNat_ofNat, BitVec.toNat_ofNat, Nat.mul_add]
    exact Nat.add_mod_left _ _
  rwa [← hwrap]

/-! ## Bytes in a memory -/

/-- The bytes are in memory from `a` on. -/
def BytesAt (m : Memory) : Addr → List Byte → Prop
  | _, [] => True
  | a, b :: bs => m a = b ∧ BytesAt m (a + 1) bs

theorem add_ofNat_succ (a : Addr) (k : ℕ) :
    a + BitVec.ofNat 32 (k + 1) = a + 1 + BitVec.ofNat 32 k := by
  bv_omega

theorem BytesAt.congr {bs : List Byte} (h : BytesAt m a bs)
    (hm : ∀ k < bs.length, m' (a + BitVec.ofNat 32 k) = m (a + BitVec.ofNat 32 k)) :
    BytesAt m' a bs := by
  induction bs generalizing a with
  | nil => trivial
  | cons b bs ih =>
    have h0 := hm 0 (by simp)
    rw [BitVec.add_zero] at h0
    refine ⟨h0.trans h.1, ih h.2 fun k hk => ?_⟩
    rw [← add_ofNat_succ]
    exact hm (k + 1) (by simpa using hk)

theorem bytesAt_append {bs cs : List Byte} :
    BytesAt m a (bs ++ cs) ↔ BytesAt m a bs ∧ BytesAt m (a + BitVec.ofNat 32 bs.length) cs := by
  induction bs generalizing a with
  | nil => simp [BytesAt]
  | cons b bs ih =>
    rw [List.length_cons, add_ofNat_succ, List.cons_append]
    simp only [BytesAt]
    rw [ih, and_assoc]

theorem BytesAt.congr_range {bs : List Byte} (h : BytesAt m a bs) (ha : a.toNat + bs.length ≤ 2 ^ 32)
    (hm : ∀ x : Addr, a.toNat ≤ x.toNat → x.toNat < a.toNat + bs.length → m' x = m x) :
    BytesAt m' a bs :=
  h.congr fun k hk => hm _ (by bv_omega) (by bv_omega)

/-- Bytes without a zero, and a zero byte, are a string. -/
theorem BytesAt.stringAt {s : List Byte} (h : BytesAt m a (s ++ [0])) (hs : ∀ c ∈ s, c ≠ 0) :
    StringAt m a s := by
  induction s generalizing a with
  | nil => exact h.1
  | cons c s ih =>
    obtain ⟨hc, hs⟩ := List.forall_mem_cons.1 hs
    exact ⟨hc, h.1, ih h.2 hs⟩

theorem StringAt.bytesAt {s : List Byte} (h : StringAt m a s) : BytesAt m a (s ++ [0]) := by
  induction s generalizing a with
  | nil => exact ⟨h, trivial⟩
  | cons c s ih => exact ⟨h.2.1, ih h.2.2⟩

theorem BytesAt.get {bs : List Byte} (h : BytesAt m a bs) {k : ℕ} (hk : k < bs.length) :
    m (a + BitVec.ofNat 32 k) = bs.get ⟨k, hk⟩ := by
  induction bs generalizing a k with
  | nil => exact absurd hk (Nat.not_lt_zero _)
  | cons b bs ih =>
    cases k with
    | zero =>
      rw [BitVec.add_zero]
      exact h.1
    | succ k =>
      rw [add_ofNat_succ]
      exact ih h.2 (by simpa using hk)

/-- The bytes of a memory are known by their places. -/
theorem bytesAt_of_get {bs : List Byte}
    (h : ∀ k (hk : k < bs.length), m (a + BitVec.ofNat 32 k) = bs.get ⟨k, hk⟩) : BytesAt m a bs := by
  induction bs generalizing a with
  | nil => trivial
  | cons b bs ih =>
    have h0 := h 0 (by simp)
    rw [BitVec.add_zero] at h0
    refine ⟨h0, ih fun k hk => ?_⟩
    rw [← add_ofNat_succ]
    exact h (k + 1) (by simpa using hk)

end Linux011.Bytes
