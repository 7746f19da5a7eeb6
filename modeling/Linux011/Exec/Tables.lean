import Linux011.Exec.Args

/-!
# The pointer tables of a new program

`create_tables`: the stack of a new program starts with the number of its arguments and the addresses
of two tables of pointers, to the arguments and to the environment, which end with null pointers.

1. `fillTable`, `createTables`, `clearTail`.
2. `TableAt`: a table points to the strings. `Decodes`: a stack pointer leads to both tables.
   `PointersAt`, `Stacked`: where in memory all of this is.
3. `fillTable_spec`: a scan for the ends of the strings finds what was copied. `createTables_spec`.
4. `Spared`: what `clearTail` may write without changing what the stack says (`decodes_clearTail_iff`).
-/

namespace Linux011.Execve

open Bytes

/-! ## The code -/

/-- One of the two loops of `create_tables`, and the null pointer behind it. -/
def fillTable (m : Memory) : ℕ → Addr → Addr → Except Halt (Addr × Memory)
  | 0, p, table => .ok (p, putLong m table 0)
  | n + 1, p, table =>
    let m := putLong m table p
    match scan m (2 ^ 32) p with
    | none => .error .endless
    | some len => fillTable m n (p + BitVec.ofNat 32 len) (table + 4)

/-- `create_tables`, with the segment of the new program in `fs`. -/
def createTables (m : Memory) (p : Addr) (argc envc : ℤ) : Except Halt (Addr × Memory) := do
  let sp := 0xfffffffc &&& p
  let sp := sp - BitVec.ofInt 32 (4 * (envc + 1))
  let envp := sp
  let sp := sp - BitVec.ofInt 32 (4 * (argc + 1))
  let argv := sp
  let sp := sp - 4
  let m := putLong m sp envp
  let sp := sp - 4
  let m := putLong m sp argv
  let sp := sp - 4
  let m := putLong m sp (BitVec.ofInt 32 argc)
  let (p, m) ← fillTable m argc.toNat p argv
  let (_, m) ← fillTable m envc.toNat p envp
  return (sp, m)

/-- The loop that zeroes the rest of the last page of data, for at most `n` bytes. -/
def clearTail (m : Memory) : ℕ → Addr → Memory
  | 0, _ => m
  | n + 1, i => if i &&& 0xfff = 0 then m else clearTail (Function.update m i 0) n (i + 1)

/-! ## Tables -/

/-- The table at `a` points to the strings, which are between `low` and the end of the segment, and
ends with a null pointer. -/
def TableAt (m : Memory) (low : ℕ) : Addr → List (List Byte) → Prop
  | a, [] => getLong m a = 0
  | a, s :: ss => low ≤ (getLong m a).toNat ∧ (getLong m a).toNat + s.length < 0x4000000 ∧
      StringAt m (getLong m a) s ∧ TableAt m low (a + 4) ss

/-- How many bytes the tables take for so many strings. -/
def tableSize (argc envc : ℕ) : ℕ := 4 * (argc + envc + 5)

/-- From the stack pointer a program finds its arguments and its environment. The tables are below
all strings. -/
structure Decodes (m : Memory) (sp : Addr) (argv envp : List (List Byte)) : Prop where
  argc : getLong m sp = BitVec.ofNat 32 argv.length
  argvPtr : getLong m (sp + 4) = sp + 12
  envpPtr : getLong m (sp + 8) = sp + 12 + BitVec.ofNat 32 (4 * (argv.length + 1))
  args : TableAt m (sp.toNat + tableSize argv.length envp.length) (getLong m (sp + 4)) argv
  envs : TableAt m (sp.toNat + tableSize argv.length envp.length) (getLong m (sp + 8)) envp

/-- The table at `a` has the addresses of strings that lie one behind the other from `p` on. -/
def PointersAt (m : Memory) : Addr → Addr → List (List Byte) → Prop
  | a, _, [] => getLong m a = 0
  | a, p, s :: ss => getLong m a = p ∧ PointersAt m (a + 4) (p + BitVec.ofNat 32 (s.length + 1)) ss

/-- Both tables, one behind the other from `sp + 12` on, for strings from `p` on. -/
structure Stacked (m : Memory) (sp p : Addr) (argv envp : List (List Byte)) : Prop where
  argc : getLong m sp = BitVec.ofNat 32 argv.length
  argvPtr : getLong m (sp + 4) = sp + 12
  envpPtr : getLong m (sp + 8) = sp + 12 + BitVec.ofNat 32 (4 * (argv.length + 1))
  args : PointersAt m (sp + 12) p argv
  envs : PointersAt m (sp + 12 + BitVec.ofNat 32 (4 * (argv.length + 1)))
    (p + BitVec.ofNat 32 (flat argv).length) envp

/-- The stack of a new program, below its strings. -/
structure Built (m : Memory) (sp p : Addr) (argv envp : List (List Byte)) : Prop
    extends Stacked m sp p argv envp where
  strings : BytesAt m p (flat (argv ++ envp))
  ne_zero : ∀ s ∈ argv ++ envp, ∀ c ∈ s, c ≠ 0
  aligned : sp.toNat % 4 = 0
  high : 2 ^ 24 ≤ sp.toNat
  low : sp.toNat + tableSize argv.length envp.length ≤ p.toNat
  top : p.toNat + (flat (argv ++ envp)).length < 0x4000000

variable {m m' : Memory} {a b p sp table x : Addr} {low n k : ℕ} {s : List Byte}
  {ss argv envp : List (List Byte)}

theorem PointersAt.congr (h : PointersAt m table p ss)
    (ht : table.toNat + 4 * (ss.length + 1) ≤ 2 ^ 32)
    (hm : ∀ x : Addr, table.toNat ≤ x.toNat → x.toNat < table.toNat + 4 * (ss.length + 1) →
      m' x = m x) : PointersAt m' table p ss := by
  induction ss generalizing table p with
  | nil => exact (getLong_congr_range ht hm).trans h
  | cons s ss ih =>
    rw [List.length_cons] at ht hm
    have htab : (table + 4).toNat = table.toNat + 4 := by bv_omega
    refine ⟨(getLong_congr_range (by omega) fun x h1 h2 => hm x h1 (by omega)).trans h.1,
      ih h.2 (by omega) fun x h1 h2 => hm x (by omega) (by omega)⟩

/-- At the places of `ss`, which lie one behind the other from `p` on, there are the strings `ts`. -/
def LeadsTo (m : Memory) : Addr → List (List Byte) → List (List Byte) → Prop
  | _, [], [] => True
  | p, s :: ss, t :: ts => StringAt m p t ∧ LeadsTo m (p + BitVec.ofNat 32 (s.length + 1)) ss ts
  | _, _, _ => False

theorem leadsTo_append {ts ss' ts' : List (List Byte)} (h : ss.length = ts.length) :
    LeadsTo m p (ss ++ ss') (ts ++ ts') ↔
      LeadsTo m p ss ts ∧ LeadsTo m (p + BitVec.ofNat 32 (flat ss).length) ss' ts' := by
  induction ss generalizing p ts with
  | nil =>
    obtain rfl := List.length_eq_zero_iff.1 h.symm
    rw [flat_nil, show p + BitVec.ofNat 32 ([] : List Byte).length = p from BitVec.add_zero p]
    exact (iff_of_eq (true_and _)).symm
  | cons s ss ih =>
    obtain ⟨t, ts, rfl⟩ := List.exists_cons_of_length_pos (show 0 < ts.length by rw [← h]; simp)
    have hq : p + BitVec.ofNat 32 (s.length + 1) + BitVec.ofNat 32 (flat ss).length =
        p + BitVec.ofNat 32 (flat (s :: ss)).length := by
      rw [flat_cons, List.length_append, List.length_append, List.length_singleton]
      bv_omega
    show StringAt m p t ∧ LeadsTo m _ (ss ++ ss') (ts ++ ts') ↔ (StringAt m p t ∧ LeadsTo m _ ss ts) ∧ _
    rw [ih (by simpa using h), hq, and_assoc]

theorem leadsTo_self (hz : ∀ s ∈ ss, ∀ c ∈ s, c ≠ 0) : LeadsTo m p ss ss ↔ BytesAt m p (flat ss) := by
  induction ss generalizing p with
  | nil => exact Iff.rfl
  | cons s ss ih =>
    obtain ⟨hs, hz⟩ := List.forall_mem_cons.1 hz
    rw [flat_cons, bytesAt_append, List.length_append, List.length_singleton, ← ih hz]
    exact and_congr_left fun _ => ⟨StringAt.bytesAt, fun h => h.stringAt hs⟩

/-- What the addresses of `ss` lead to. -/
theorem PointersAt.leadsTo {ts : List (List Byte)} (h : PointersAt m table p ss)
    (hlen : ss.length = ts.length) (ht : TableAt m low table ts) : LeadsTo m p ss ts := by
  induction ss generalizing table p ts with
  | nil =>
    obtain rfl := List.length_eq_zero_iff.1 hlen.symm
    trivial
  | cons s ss ih =>
    obtain ⟨t, ts, rfl⟩ := List.exists_cons_of_length_pos (show 0 < ts.length by rw [← hlen]; simp)
    obtain ⟨hptr, hrest⟩ := h
    refine ⟨?_, ih hrest (by simpa using hlen) ht.2.2.2⟩
    rw [← hptr]
    exact ht.2.2.1

theorem PointersAt.tableAt {ts : List (List Byte)} (h : PointersAt m table p ss) (hlow : low ≤ p.toNat)
    (hp : p.toNat + (flat ss).length < 0x4000000)
    (hle : List.Forall₂ (fun s t => t.length ≤ s.length) ss ts) (hs : LeadsTo m p ss ts) :
    TableAt m low table ts := by
  induction hle generalizing table p with
  | nil => exact h
  | @cons s t ss ts hst _ ih =>
    rw [flat_cons, List.length_append, List.length_append, List.length_singleton] at hp
    obtain ⟨hptr, hrest⟩ := h
    have hq : (p + BitVec.ofNat 32 (s.length + 1)).toNat = p.toNat + (s.length + 1) := by bv_omega
    unfold TableAt
    rw [hptr]
    exact ⟨hlow, by omega, hs.1, ih hrest (by omega) (by omega) hs.2⟩

/-! ## The loops -/

variable (table low) in
/-- **A table is filled** with pointers to the strings, wherever they are above it. -/
theorem fillTable_spec (hb : BytesAt m p (flat ss)) (hz : ∀ s ∈ ss, ∀ c ∈ s, c ≠ 0)
    (ht : table.toNat + 4 * (ss.length + 1) ≤ low) (hlow : low ≤ p.toNat)
    (hp : p.toNat + (flat ss).length < 0x4000000) :
    ∃ m', fillTable m ss.length p table = .ok (p + BitVec.ofNat 32 (flat ss).length, m') ∧
      PointersAt m' table p ss ∧
      ∀ x : Addr, x.toNat < table.toNat ∨ table.toNat + 4 * (ss.length + 1) ≤ x.toNat →
        m' x = m x := by
  induction ss generalizing m p table with
  | nil =>
    refine ⟨putLong m table 0, by simp [fillTable], getLong_putLong, fun x hx => ?_⟩
    exact putLong_out 0 (by omega) (by simpa using hx)
  | cons s ss ih =>
    rw [List.length_cons] at ht
    rw [flat_cons, List.length_append, List.length_append, List.length_singleton] at hp
    rw [flat_cons, bytesAt_append] at hb
    obtain ⟨hs, hb⟩ := hb
    obtain ⟨hz₁, hz⟩ := List.forall_mem_cons.1 hz
    have htab : (table + 4).toNat = table.toNat + 4 := by bv_omega
    -- The pointer is written below the strings.
    have hput : ∀ x : Addr, low ≤ x.toNat → putLong m table p x = m x := fun x hx =>
      putLong_out p (by omega) (.inr (by omega))
    have hs₁ : BytesAt (putLong m table p) p (s ++ [0]) :=
      hs.congr_range (by simp; omega) fun x h1 _ => hput x (by omega)
    have hscan := (hs₁.stringAt hz₁).scan (n := 2 ^ 32) (by omega)
    have hlen : (s ++ [0]).length = s.length + 1 := by simp
    obtain ⟨q, hq⟩ : ∃ q, q = p + BitVec.ofNat 32 (s.length + 1) := ⟨_, rfl⟩
    have hq' : q.toNat = p.toNat + (s.length + 1) := by bv_omega
    rw [hlen, ← hq] at hb
    have hb₁ : BytesAt (putLong m table p) q (flat ss) :=
      hb.congr_range (by omega) fun x h1 _ => hput x (by omega)
    obtain ⟨m', hok, htable, hframe⟩ := ih (table + 4) hb₁ hz (by omega) (by omega)
      (by omega)
    rw [htab] at hframe
    refine ⟨m', ?_, ⟨?_, by rw [← hq]; exact htable⟩, fun x hx => ?_⟩
    · rw [List.length_cons, fillTable]
      rw [hscan]
      simp only
      rw [← hq, hok, flat_cons, List.length_append, hlen, hq]
      congr 2
      bv_omega
    · rw [getLong_congr_range (by omega) fun x h1 h2 => hframe x (.inl (by omega)),
        getLong_putLong]
    · rw [List.length_cons] at hx
      rw [hframe x (by omega)]
      exact putLong_out p (by omega) (by omega)

theorem toNat_align (p : Addr) : (0xfffffffc &&& p).toNat = p.toNat / 4 * 4 := by
  have h : (0xfffffffc : Addr) &&& p = (p >>> 2) <<< 2 := by
    apply BitVec.eq_of_getLsbD_eq
    intro i hi
    have hmask : (0xfffffffc : Addr).getLsbD i = decide (2 ≤ i) := by
      interval_cases i <;> rfl
    rw [BitVec.getLsbD_and, hmask, BitVec.getLsbD_shiftLeft, BitVec.getLsbD_ushiftRight]
    by_cases h2 : 2 ≤ i
    · simp [h2, hi, show ¬ i < 2 by omega, show 2 + (i - 2) = i by omega]
    · simp [h2, show i < 2 by omega]
  rw [h, BitVec.toNat_shiftLeft, BitVec.toNat_ushiftRight, Nat.shiftRight_eq_div_pow,
    Nat.shiftLeft_eq]
  have := p.isLt
  omega

theorem toNat_sub_ofNat (h : n ≤ a.toNat) : (a - BitVec.ofNat 32 n).toNat = a.toNat - n := by
  bv_omega

theorem toNat_add_ofNat (h : a.toNat + n < 2 ^ 32) : (a + BitVec.ofNat 32 n).toNat = a.toNat + n := by
  bv_omega

/-- Where the three words are. -/
theorem sub_words (h : 12 ≤ a.toNat) :
    a - 4 - 4 - 4 + 8 = a - 4 ∧ a - 4 - 4 - 4 + 4 = a - 4 - 4 ∧ a - 4 - 4 - 4 + 12 = a ∧
      (a - 4 - 4 - 4).toNat = a.toNat - 12 ∧ (a - 4 - 4).toNat = a.toNat - 8 ∧
      (a - 4).toNat = a.toNat - 4 := by
  refine ⟨?_, ?_, ?_, ?_, ?_, ?_⟩ <;> bv_omega

theorem apart_of_le (h : a.toNat + 4 ≤ b.toNat) (hb : b.toNat + 4 ≤ 2 ^ 32) :
    Apart a b := by
  unfold Apart
  refine ⟨?_, ?_⟩ <;> bv_omega

/-- The three words at the stack pointer. -/
theorem words_spec (m : Memory) (c v w : BitVec 32) (ha : 12 ≤ a.toNat) :
    ∃ m₁, m₁ = putLong (putLong (putLong m (a - 4) w) (a - 4 - 4) v) (a - 4 - 4 - 4) c ∧
      getLong m₁ (a - 4 - 4 - 4) = c ∧ getLong m₁ (a - 4 - 4) = v ∧ getLong m₁ (a - 4) = w ∧
      ∀ x : Addr, x.toNat < a.toNat - 12 ∨ a.toNat ≤ x.toNat → m₁ x = m x := by
  obtain ⟨-, -, -, h₀, h₄, h₈⟩ := sub_words ha
  refine ⟨_, rfl, getLong_putLong, ?_, ?_, fun x hx => ?_⟩
  · rw [getLong_putLong_of_apart (apart_of_le (by omega) (by omega)), getLong_putLong]
  · rw [getLong_putLong_of_apart (apart_of_le (by omega) (by omega)),
      getLong_putLong_of_apart (apart_of_le (by omega) (by omega)), getLong_putLong]
  · rw [putLong_out _ (by omega) (by omega), putLong_out _ (by omega) (by omega),
      putLong_out _ (by omega) (by omega)]

theorem ofInt_words (n : ℕ) : BitVec.ofInt 32 (4 * ((n : ℤ) + 1)) = BitVec.ofNat 32 (4 * (n + 1)) := by
  rw [← BitVec.ofInt_natCast]
  push_cast
  rfl

/-- **`create_tables`** builds a stack for the strings at `p`, the arguments first. -/
theorem createTables_spec (hb : BytesAt m p (flat (argv ++ envp)))
    (hz : ∀ s ∈ argv ++ envp, ∀ c ∈ s, c ≠ 0)
    (hlow : tableSize argv.length envp.length + 4 ≤ p.toNat)
    (hp : p.toNat + (flat (argv ++ envp)).length < 0x4000000) :
    ∃ sp m', createTables m p argv.length envp.length = .ok (sp, m') ∧
      sp.toNat = p.toNat / 4 * 4 - tableSize argv.length envp.length ∧ Stacked m' sp p argv envp ∧
      ∀ x : Addr, x.toNat < sp.toNat ∨ p.toNat ≤ x.toNat → m' x = m x := by
  rw [flat_append, List.length_append] at hp
  rw [flat_append, bytesAt_append] at hb
  obtain ⟨hb₁, hb₂⟩ := hb
  obtain ⟨low, hl⟩ : ∃ low, low = (0xfffffffc &&& p).toNat := ⟨_, rfl⟩
  have halign := toNat_align p
  obtain ⟨envps, henvps⟩ : ∃ a, a = (0xfffffffc &&& p) - BitVec.ofNat 32 (4 * (envp.length + 1)) :=
    ⟨_, rfl⟩
  obtain ⟨argvs, hargvs⟩ : ∃ a, a = envps - BitVec.ofNat 32 (4 * (argv.length + 1)) := ⟨_, rfl⟩
  unfold tableSize at hlow ⊢
  have henvps' : envps.toNat = low - 4 * (envp.length + 1) := by
    rw [henvps, toNat_sub_ofNat (by omega), hl]
  have hargvs' : argvs.toNat = envps.toNat - 4 * (argv.length + 1) := by
    rw [hargvs, toNat_sub_ofNat (by omega)]
  obtain ⟨hsp₈, hsp₄, hsp₁₂, hsp', h4, h8⟩ := sub_words (a := argvs) (by omega)
  -- The three words, the table of the arguments and the one of the environment, upward from `sp`.
  obtain ⟨m₁, hm₁, hw₀, hw₄, hw₈, hframe₁⟩ := words_spec m (BitVec.ofNat 32 argv.length) argvs envps
    (a := argvs) (by omega)
  obtain ⟨m₂, hok₂, htab₂, hframe₂⟩ := fillTable_spec argvs low
    (hb₁.congr_range (by omega) fun x h1 _ => hframe₁ x (.inr (by omega)))
    (fun s hs => hz s (List.mem_append_left _ hs)) (by omega) (by omega) (by omega)
  obtain ⟨q, hq⟩ : ∃ q, q = p + BitVec.ofNat 32 (flat argv).length := ⟨_, rfl⟩
  have hq' : q.toNat = p.toNat + (flat argv).length := by rw [hq, toNat_add_ofNat (by omega)]
  rw [← hq] at hok₂ hb₂
  have hb₃ : BytesAt m₂ q (flat envp) := hb₂.congr_range (by omega) fun x h1 _ => by
    rw [hframe₂ x (.inr (by omega)), hframe₁ x (.inr (by omega))]
  obtain ⟨m₃, hok₃, htab₃, hframe₃⟩ := fillTable_spec envps low hb₃
    (fun s hs => hz s (List.mem_append_right _ hs)) (by omega) (by omega) (by omega)
  have hword : ∀ a : Addr, a.toNat + 4 ≤ argvs.toNat → getLong m₃ a = getLong m₁ a := fun a ha =>
    getLong_congr_range (by omega) fun x h1 h2 => by
      rw [hframe₃ x (.inl (by omega)), hframe₂ x (.inl (by omega))]
  have henv : argvs + BitVec.ofNat 32 (4 * (argv.length + 1)) = envps := by
    rw [hargvs, sub_add_cancel]
  refine ⟨argvs - 4 - 4 - 4, m₃, ?_, by omega, ⟨?_, ?_, ?_, ?_, ?_⟩, fun x hx => ?_⟩
  · unfold createTables
    simp only [ofInt_words, Int.toNat_natCast, BitVec.ofInt_natCast]
    rw [← henvps, ← hargvs, ← hm₁, hok₂]
    simp only [bind, Except.bind, pure, Except.pure]
    rw [hok₃]
  · rw [hword _ (by omega), hw₀]
  · rw [hsp₄, hword _ (by omega), hw₄, hsp₁₂]
  · rw [hsp₈, hword _ (by omega), hw₈, hsp₁₂, henv]
  · rw [hsp₁₂]
    exact htab₂.congr (by omega) fun x h1 h2 => hframe₃ x (.inl (by omega))
  · rw [hsp₁₂, henv, ← hq]
    exact htab₃
  · rw [hframe₃ x (by omega), hframe₂ x (by omega), hframe₁ x (by omega)]

/-! ## The rest of the last page of data -/

theorem toNat_and_offset (i : Addr) : (i &&& 0xfff).toNat = i.toNat % 4096 := by
  rw [BitVec.toNat_and]
  exact Nat.and_two_pow_sub_one_eq_mod i.toNat 12

/-- Only the page of `i` is touched, from `i` on. -/
theorem clearTail_out {i : Addr}
    (hx : i.toNat % 4096 = 0 ∨ x.toNat < i.toNat ∨ (i.toNat / 4096 + 1) * 4096 ≤ x.toNat) :
    clearTail m n i x = m x := by
  induction n generalizing m i with
  | zero => rfl
  | succ n ih =>
    unfold clearTail
    have hoff := toNat_and_offset i
    by_cases h0 : i &&& 0xfff = 0
    · rw [if_pos h0]
    · have hne : i.toNat % 4096 ≠ 0 := fun h => h0 (BitVec.eq_of_toNat_eq (by rw [hoff, h]; rfl))
      have hlt : i.toNat < 2 ^ 32 := i.isLt
      have hnext : (i + 1).toNat = (i.toNat + 1) % 2 ^ 32 := by bv_omega
      have hxi : x ≠ i := by
        rintro rfl
        omega
      rw [if_neg h0, ih (by omega), Function.update_of_ne hxi]

/-- Where the loop writes. -/
theorem clearTail_in {i : Addr} (hi : i.toNat ≤ x.toNat) (hx : x.toNat / 4096 = i.toNat / 4096)
    (h0 : i.toNat % 4096 ≠ 0) (hn : x.toNat < i.toNat + n) : clearTail m n i x = 0 := by
  induction n generalizing m i with
  | zero => omega
  | succ n ih =>
    unfold clearTail
    have hoff := toNat_and_offset i
    have hne : i &&& 0xfff ≠ 0 := fun h => h0 (by rw [← hoff, h]; rfl)
    rw [if_neg hne]
    by_cases hxi : x = i
    · rw [hxi]
      have hlt : i.toNat < 2 ^ 32 := i.isLt
      have hnext : (i + 1).toNat = (i.toNat + 1) % 2 ^ 32 := by bv_omega
      rw [clearTail_out (by omega), Function.update_self]
    · have hlt : i.toNat < x.toNat := by
        refine lt_of_le_of_ne hi fun h => hxi (BitVec.eq_of_toNat_eq h.symm)
      have hnext : (i + 1).toNat = i.toNat + 1 := by bv_omega
      exact ih (by omega) (by omega) (by omega) (by omega)

/-! ## What the loop may write on the stack -/

/-- The loop that starts at `i` clears the byte at `x`. -/
def Filled (i : Addr) (x : ℕ) : Prop :=
  i.toNat % 4096 ≠ 0 ∧ i.toNat ≤ x ∧ x / 4096 = i.toNat / 4096

/-- Of the strings `ss`, which lie one behind the other from `p` on, the loop leaves `ts`. -/
def Leaves (i : Addr) : ℕ → List (List Byte) → List (List Byte) → Prop
  | _, [], [] => True
  | p, s :: ss, t :: ts => (t <+: s ∧ (∀ k < t.length, ¬ Filled i (p + k)) ∧
      (t = s ∨ Filled i (p + t.length))) ∧ Leaves i (p + (s.length + 1)) ss ts
  | _, _, _ => False

/-- On a stack at `sp` the loop clears no pointer and no byte of a string, but where there are zeros. -/
structure Spared (i : Addr) (sp p : ℕ) (argv envp : List (List Byte)) : Prop where
  argc : ∀ k < 4, Filled i (sp + k) → byteOf (BitVec.ofNat 32 argv.length) k = 0
  pointers : ∀ j, 1 ≤ j → j < argv.length + envp.length + 4 → j ≠ argv.length + 3 →
    ¬ Filled i (sp + 4 * j + 3)
  strings : ∀ k (h : k < (flat (argv ++ envp)).length), Filled i (p + k) →
    (flat (argv ++ envp)).get ⟨k, h⟩ = 0

section Fill

variable {i : Addr}

theorem clearTail_filled (h : Filled i x.toNat) : clearTail m 4096 i x = 0 := by
  obtain ⟨h0, hle, hpage⟩ := h
  exact clearTail_in hle hpage h0 (by omega)

theorem clearTail_not_filled (h : ¬ Filled i x.toNat) : clearTail m 4096 i x = m x := by
  refine clearTail_out ?_
  unfold Filled at h
  omega

/-- A word is cleared at its end, if at all. -/
theorem Filled.word {w k : ℕ} (h : Filled i (w + k)) (hw : w % 4 = 0) (hk : k < 4) :
    Filled i (w + 3) := by
  obtain ⟨h0, hle, hpage⟩ := h
  exact ⟨h0, by omega, by omega⟩

theorem byteOf_getLong (hk : k < 4) : byteOf (getLong m a) k = m (a + BitVec.ofNat 32 k) := by
  unfold byteOf getLong
  apply BitVec.eq_of_getLsbD_eq
  intro j hj
  simp only [BitVec.getLsbD_append, BitVec.getLsbD_extractLsb']
  interval_cases k
  · simp [hj]
  · simp [hj, show ¬ 8 + j < 8 by omega, show 8 + j - 8 = j by omega]
  · simp [hj, show ¬ 16 + j < 8 by omega, show ¬ 16 + j - 8 < 8 by omega,
      show 16 + j - 8 - 8 = j by omega]
  · simp [hj, show ¬ 24 + j < 8 by omega, show ¬ 24 + j - 8 < 8 by omega,
      show ¬ 24 + j - 8 - 8 < 8 by omega, show 24 + j - 8 - 8 - 8 = j by omega]

theorem getLong_eq {v : BitVec 32} (h : ∀ k < 4, m (a + BitVec.ofNat 32 k) = byteOf v k) :
    getLong m a = v := by
  have h0 := h 0 (by decide)
  rw [BitVec.add_zero] at h0
  unfold getLong
  rw [h0, show m (a + 1) = _ from h 1 (by decide), show m (a + 2) = _ from h 2 (by decide),
    show m (a + 3) = _ from h 3 (by decide)]
  exact append_byteOf v

theorem toNat_lt_of_byteOf {w : BitVec 32} (h : byteOf w 3 = 0) : w.toNat < 2 ^ 24 := by
  have h' := congrArg BitVec.toNat h
  unfold byteOf at h'
  rw [BitVec.extractLsb'_toNat, Nat.shiftRight_eq_div_pow] at h'
  have : (0 : Byte).toNat = 0 := rfl
  omega

/-- A word that is not cleared at its end is not cleared. -/
theorem getLong_clearTail (ha : a.toNat % 4 = 0) (hle : a.toNat + 4 ≤ 2 ^ 32)
    (h : ¬ Filled i (a.toNat + 3)) : getLong (clearTail m 4096 i) a = getLong m a := by
  refine getLong_congr_range hle fun x h1 h2 => clearTail_not_filled fun hx => h ?_
  obtain ⟨k, hk⟩ := Nat.exists_eq_add_of_le h1
  rw [hk] at hx
  exact hx.word ha (by omega)

/-- A null pointer stays one. -/
theorem getLong_clearTail_zero (h : getLong m a = 0) :
    getLong (clearTail m 4096 i) a = 0 := by
  refine getLong_eq fun k hk => ?_
  have hzero : byteOf 0 k = 0 := by
    interval_cases k <;> rfl
  by_cases hf : Filled i (a + BitVec.ofNat 32 k).toNat
  · rw [clearTail_filled hf, hzero]
  · rw [clearTail_not_filled hf, ← byteOf_getLong (m := m) (a := a) hk, h]

/-- A word that is cleared at its end is no address of a string. -/
theorem getLong_clearTail_lt (hle : a.toNat + 4 ≤ 2 ^ 32) (h : Filled i (a.toNat + 3)) :
    (getLong (clearTail m 4096 i) a).toNat < 2 ^ 24 := by
  refine toNat_lt_of_byteOf ?_
  rw [byteOf_getLong (by decide)]
  exact clearTail_filled (by rwa [toNat_add_ofNat (by omega)])

theorem toNat_le_of_byteOf {w w' : BitVec 32}
    (h : ∀ k < 4, byteOf w' k = byteOf w k ∨ byteOf w' k = 0) : w'.toNat ≤ w.toNat := by
  have hand : w' &&& w = w' := by
    apply BitVec.eq_of_getLsbD_eq
    intro j hj
    have hbit : ∀ v : BitVec 32, v.getLsbD j = (byteOf v (j / 8)).getLsbD (j % 8) := fun v => by
      unfold byteOf
      rw [BitVec.getLsbD_extractLsb', show 8 * (j / 8) + j % 8 = j by omega]
      simp [show j % 8 < 8 by omega]
    rw [BitVec.getLsbD_and, hbit w', hbit w]
    rcases h (j / 8) (by omega) with he | he
    · rw [he, Bool.and_self]
    · rw [he]
      simp
  rw [← hand, BitVec.toNat_and]
  exact Nat.and_le_right

/-- The number of arguments does not become larger. -/
theorem getLong_clearTail_le (h : getLong m a = BitVec.ofNat 32 n) :
    (getLong (clearTail m 4096 i) a).toNat ≤ n := by
  have hle : (getLong (clearTail m 4096 i) a).toNat ≤ (getLong m a).toNat := by
    refine toNat_le_of_byteOf fun k hk => ?_
    rw [byteOf_getLong hk, byteOf_getLong hk]
    by_cases hf : Filled i (a + BitVec.ofNat 32 k).toNat
    · exact .inr (clearTail_filled hf)
    · exact .inl (clearTail_not_filled hf)
  rw [h, BitVec.toNat_ofNat] at hle
  exact hle.trans (Nat.mod_le _ _)

theorem PointersAt.fill (h : PointersAt m table p ss) (ht : table.toNat % 4 = 0)
    (hle : table.toNat + 4 * (ss.length + 1) ≤ 2 ^ 32)
    (hs : ∀ k < ss.length, ¬ Filled i (table.toNat + 4 * k + 3)) :
    PointersAt (clearTail m 4096 i) table p ss := by
  induction ss generalizing table p with
  | nil => exact getLong_clearTail_zero h
  | cons s ss ih =>
    rw [List.length_cons] at hle hs
    have htab : (table + 4).toNat = table.toNat + 4 := by bv_omega
    refine ⟨(getLong_clearTail ht (by omega) ?_).trans h.1, ih h.2 (by omega) (by omega) fun k hk => ?_⟩
    · have := hs 0 (by omega)
      rwa [Nat.mul_zero, Nat.add_zero] at this
    · rw [htab, show table.toNat + 4 + 4 * k + 3 = table.toNat + 4 * (k + 1) + 3 by omega]
      exact hs (k + 1) (by omega)

theorem TableAt.low_le (h : TableAt m low table ss) (hk : k < ss.length) :
    low ≤ (getLong m (table + BitVec.ofNat 32 (4 * k))).toNat := by
  induction ss generalizing table k with
  | nil => exact absurd hk (Nat.not_lt_zero _)
  | cons s ss ih =>
    cases k with
    | zero =>
      rw [Nat.mul_zero, BitVec.add_zero]
      exact h.1
    | succ k =>
      rw [show table + BitVec.ofNat 32 (4 * (k + 1)) = table + 4 + BitVec.ofNat 32 (4 * k) by bv_omega]
      exact ih h.2.2.2 (by simpa using hk)

/-- The pointers of the stack are cleared nowhere. -/
theorem Stacked.fill (h : Stacked m sp p argv envp) (hsp : sp.toNat % 4 = 0)
    (hle : sp.toNat + tableSize argv.length envp.length ≤ 2 ^ 32)
    (hs : ∀ j, 1 ≤ j → j < argv.length + envp.length + 4 → j ≠ argv.length + 3 →
      ¬ Filled i (sp.toNat + 4 * j + 3)) :
    getLong (clearTail m 4096 i) (sp + 4) = sp + 12 ∧
      getLong (clearTail m 4096 i) (sp + 8) = sp + 12 + BitVec.ofNat 32 (4 * (argv.length + 1)) ∧
      PointersAt (clearTail m 4096 i) (sp + 12) p argv ∧
      PointersAt (clearTail m 4096 i) (sp + 12 + BitVec.ofNat 32 (4 * (argv.length + 1)))
        (p + BitVec.ofNat 32 (flat argv).length) envp := by
  unfold tableSize at hle
  have h4 : (sp + 4).toNat = sp.toNat + 4 := by bv_omega
  have h8 : (sp + 8).toNat = sp.toNat + 8 := by bv_omega
  have h12 : (sp + 12).toNat = sp.toNat + 12 := by bv_omega
  have henv : (sp + 12 + BitVec.ofNat 32 (4 * (argv.length + 1))).toNat =
      sp.toNat + 12 + 4 * (argv.length + 1) := by
    rw [toNat_add_ofNat (by omega), h12]
  refine ⟨(getLong_clearTail (by omega) (by omega) ?_).trans h.argvPtr,
    (getLong_clearTail (by omega) (by omega) ?_).trans h.envpPtr,
    h.args.fill (by omega) (by omega) fun k hk => ?_, h.envs.fill (by omega) (by omega) fun k hk => ?_⟩
  · rw [h4]
    exact hs 1 (by omega) (by omega) (by omega)
  · rw [h8]
    exact hs 2 (by omega) (by omega) (by omega)
  · rw [h12, show sp.toNat + 12 + 4 * k + 3 = sp.toNat + 4 * (k + 3) + 3 by omega]
    exact hs (k + 3) (by omega) (by omega) (by omega)
  · rw [henv, show sp.toNat + 12 + 4 * (argv.length + 1) + 4 * k + 3 =
      sp.toNat + 4 * (argv.length + 4 + k) + 3 by omega]
    exact hs (argv.length + 4 + k) (by omega) (by omega) (by omega)

/-- What the stack says after the loop has no pointer that was cleared. -/
theorem Decodes.pointers (h : Decodes (clearTail m 4096 i) sp argv envp) (h24 : 2 ^ 24 ≤ sp.toNat)
    (hle : sp.toNat + tableSize argv.length envp.length ≤ 2 ^ 32) :
    ∀ j, 1 ≤ j → j < argv.length + envp.length + 4 → j ≠ argv.length + 3 →
      ¬ Filled i (sp.toNat + 4 * j + 3) := by
  intro j h1 hj hne hf
  unfold tableSize at hle
  have hw : (sp + BitVec.ofNat 32 (4 * j)).toNat = sp.toNat + 4 * j := toNat_add_ofNat (by omega)
  have hlt := getLong_clearTail_lt (m := m) (a := sp + BitVec.ofNat 32 (4 * j)) (i := i) (by omega)
    (by rw [hw]; exact hf)
  have h12 : (sp + 12).toNat = sp.toNat + 12 := by bv_omega
  have henv : (sp + 12 + BitVec.ofNat 32 (4 * (argv.length + 1))).toNat =
      sp.toNat + 12 + 4 * (argv.length + 1) := by
    rw [toNat_add_ofNat (by omega), h12]
  have hargs := h.args
  have henvs := h.envs
  rw [h.argvPtr] at hargs
  rw [h.envpPtr] at henvs
  rcases (show j = 1 ∨ j = 2 ∨ (3 ≤ j ∧ j < argv.length + 3) ∨ argv.length + 4 ≤ j by omega) with
    rfl | rfl | ⟨h3, h3'⟩ | h4
  · rw [show sp + BitVec.ofNat 32 (4 * 1) = sp + 4 from rfl, h.argvPtr] at hlt
    omega
  · rw [show sp + BitVec.ofNat 32 (4 * 2) = sp + 8 from rfl, h.envpPtr] at hlt
    omega
  · have := hargs.low_le (k := j - 3) (by omega)
    rw [show sp + 12 + BitVec.ofNat 32 (4 * (j - 3)) = sp + BitVec.ofNat 32 (4 * j) by bv_omega] at this
    omega
  · have := henvs.low_le (k := j - (argv.length + 4)) (by omega)
    rw [show sp + 12 + BitVec.ofNat 32 (4 * (argv.length + 1)) +
      BitVec.ofNat 32 (4 * (j - (argv.length + 4))) = sp + BitVec.ofNat 32 (4 * j) by bv_omega] at this
    omega

/-- The bytes are still there where no other than a zero is cleared. -/
theorem bytesAt_clearTail_iff {bs : List Byte} (hb : BytesAt m p bs)
    (hp : p.toNat + bs.length < 0x4000000) : BytesAt (clearTail m 4096 i) p bs ↔
      ∀ k (h : k < bs.length), Filled i (p.toNat + k) → bs.get ⟨k, h⟩ = 0 := by
  have hbyte : ∀ k, k < bs.length → (p + BitVec.ofNat 32 k).toNat = p.toNat + k := fun k hk =>
    toNat_add_ofNat (by omega)
  constructor
  · intro hb' k hk hf
    rw [← hb'.get hk]
    exact clearTail_filled (by rw [hbyte k hk]; exact hf)
  · intro hz
    refine bytesAt_of_get fun k hk => ?_
    by_cases hf : Filled i (p + BitVec.ofNat 32 k).toNat
    · rw [clearTail_filled hf]
      exact (hz k hk (by rwa [hbyte k hk] at hf)).symm
    · rw [clearTail_not_filled hf]
      exact hb.get hk

/-- The word is still there where no other than a zero is cleared. -/
theorem getLong_clearTail_iff {v : BitVec 32} (h : getLong m a = v) (hle : a.toNat + 4 ≤ 2 ^ 32) :
    getLong (clearTail m 4096 i) a = v ↔ ∀ k < 4, Filled i (a.toNat + k) → byteOf v k = 0 := by
  have hword : ∀ k < 4, (a + BitVec.ofNat 32 k).toNat = a.toNat + k := fun k hk =>
    toNat_add_ofNat (by omega)
  constructor
  · intro h' k hk hf
    rw [← h', byteOf_getLong hk]
    exact clearTail_filled (by rw [hword k hk]; exact hf)
  · intro hz
    refine getLong_eq fun k hk => ?_
    by_cases hf : Filled i (a + BitVec.ofNat 32 k).toNat
    · rw [clearTail_filled hf]
      exact (hz k hk (by rwa [hword k hk] at hf)).symm
    · rw [clearTail_not_filled hf, ← byteOf_getLong (m := m) (a := a) hk, h]

/-- A string of a cleared memory is not longer than it was. -/
theorem LeadsTo.length_le {ts : List (List Byte)} (h : LeadsTo (clearTail m 4096 i) p ss ts)
    (hb : BytesAt m p (flat ss)) : List.Forall₂ (fun s t => t.length ≤ s.length) ss ts := by
  induction ss generalizing p ts with
  | nil =>
    cases ts with
    | nil => exact .nil
    | cons t ts => cases h
  | cons s ss ih =>
    cases ts with
    | nil => cases h
    | cons t ts =>
      rw [flat_cons, bytesAt_append, List.length_append, List.length_singleton] at hb
      refine .cons (Nat.le_of_not_lt fun hlt => ?_) (ih h.2 hb.2)
      obtain ⟨ht, hne⟩ := h.1.get hlt
      have hz : m (p + BitVec.ofNat 32 s.length) = 0 := (bytesAt_append.1 hb.1).2.1
      by_cases hf : Filled i (p + BitVec.ofNat 32 s.length).toNat
      · exact hne (ht.symm.trans (clearTail_filled hf))
      · exact hne (ht.symm.trans ((clearTail_not_filled hf).trans hz))

/-- **A stack that was built for `argv` and `envp` leads to others** if and only if the loop clears no
pointer and leaves these strings. -/
theorem Built.decodes_iff_leadsTo {argv' envp' : List (List Byte)} (h : Built m sp p argv envp)
    (hargv : argv'.length = argv.length) (henvp : envp'.length = envp.length) :
    Decodes (clearTail m 4096 i) sp argv' envp' ↔
      (∀ k < 4, Filled i (sp.toNat + k) → byteOf (BitVec.ofNat 32 argv.length) k = 0) ∧
      (∀ j, 1 ≤ j → j < argv.length + envp.length + 4 → j ≠ argv.length + 3 →
        ¬ Filled i (sp.toNat + 4 * j + 3)) ∧
      LeadsTo (clearTail m 4096 i) p (argv ++ envp) (argv' ++ envp') := by
  have hlow := h.low
  have hp := h.top
  have hb := h.strings
  rw [flat_append, List.length_append] at hp
  rw [flat_append, bytesAt_append] at hb
  have hq : (p + BitVec.ofNat 32 (flat argv).length).toNat = p.toNat + (flat argv).length :=
    toNat_add_ofNat (by omega)
  rw [← getLong_clearTail_iff h.argc (by omega), leadsTo_append hargv.symm]
  constructor
  · intro hd
    have hpointers := hd.pointers h.high (by rw [hargv, henvp]; omega)
    rw [hargv, henvp] at hpointers
    obtain ⟨h1, h2, h3, h4⟩ := h.fill h.aligned (by omega) hpointers
    have hargs := hd.args
    have henvs := hd.envs
    have hargc := hd.argc
    rw [h1, hargv, henvp] at hargs
    rw [h2, hargv, henvp] at henvs
    rw [hargv] at hargc
    exact ⟨hargc, hpointers, h3.leadsTo hargv.symm hargs, h4.leadsTo henvp.symm henvs⟩
  · rintro ⟨hargc, hpointers, hargs, henvs⟩
    obtain ⟨h1, h2, h3, h4⟩ := h.fill h.aligned (by omega) hpointers
    refine ⟨by rw [hargv]; exact hargc, h1, by rw [hargv]; exact h2, ?_, ?_⟩
    · rw [h1, hargv, henvp]
      exact h3.tableAt hlow (by omega) (hargs.length_le hb.1) hargs
    · rw [h2, hargv, henvp]
      exact h4.tableAt (by omega) (by omega) (henvs.length_le hb.2) henvs

/-- **The stack still leads to the strings** if and only if the loop clears nothing of it. -/
theorem Built.decodes_iff (h : Built m sp p argv envp) :
    Decodes (clearTail m 4096 i) sp argv envp ↔ Spared i sp.toNat p.toNat argv envp := by
  rw [h.decodes_iff_leadsTo rfl rfl, leadsTo_self h.ne_zero,
    bytesAt_clearTail_iff h.strings h.top]
  exact ⟨fun ⟨h1, h2, h3⟩ => ⟨h1, h2, h3⟩, fun h => ⟨h.argc, h.pointers, h.strings⟩⟩

/-! ### Strings that are cut -/

/-- The loop starts where `b` begins and clears nothing of the strings `rest`: of `t ++ b`, which is behind
`base`, it leaves `t`. -/
structure Cut (i : Addr) (p : ℕ) (base t b : List Byte) (rest : List (List Byte)) : Prop where
  place : i.toNat = p + (base.length + 1) + t.length
  page : i.toNat % 4096 ≠ 0
  rest : ∀ k (h : k < (flat rest).length),
    Filled i (p + (base.length + 1) + ((t ++ b).length + 1) + k) → (flat rest).get ⟨k, h⟩ = 0

variable {base t t' : List Byte} {rest argv' : List (List Byte)} {c d : Byte}

/-- On a stack at `sp` for `argv` and `envp` the loop clears no pointer, and leaves other strings. -/
structure Turned (i : Addr) (sp p : ℕ) (argv envp argv' envp' : List (List Byte)) : Prop where
  argc : ∀ k < 4, Filled i (sp + k) → byteOf (BitVec.ofNat 32 argv.length) k = 0
  pointers : ∀ j, 1 ≤ j → j < argv.length + envp.length + 4 → j ≠ argv.length + 3 →
    ¬ Filled i (sp + 4 * j + 3)
  strings : Leaves i p (argv ++ envp) (argv' ++ envp')

/-- What the loop leaves of a string. -/
theorem stringAt_clearTail_iff {s t : List Byte} (hb : BytesAt m p (s ++ [0])) (hs : ∀ c ∈ s, c ≠ 0)
    (hp : p.toNat + s.length < 2 ^ 32) : StringAt (clearTail m 4096 i) p t ↔
      t <+: s ∧ (∀ k < t.length, ¬ Filled i (p.toNat + k)) ∧ (t = s ∨ Filled i (p.toNat + t.length)) := by
  induction t generalizing p s with
  | nil =>
    show clearTail m 4096 i p = 0 ↔ _
    by_cases hf : Filled i p.toNat
    · exact iff_of_true (clearTail_filled hf) ⟨List.nil_prefix, fun k hk => absurd hk (Nat.not_lt_zero _), .inr hf⟩
    · rw [clearTail_not_filled hf]
      cases s with
      | nil => exact iff_of_true hb.1 ⟨List.nil_prefix, fun k hk => absurd hk (Nat.not_lt_zero _), .inl rfl⟩
      | cons c s =>
        refine iff_of_false ?_ fun h => ?_
        · rw [hb.1]
          exact hs c List.mem_cons_self
        · exact h.2.2.elim (fun h => by cases h) hf
  | cons d t ih =>
    cases s with
    | nil =>
      refine iff_of_false (fun h => ?_) fun h => absurd (List.prefix_nil.1 h.1) (List.cons_ne_nil _ _)
      by_cases hf : Filled i p.toNat
      · exact h.1 (h.2.1.symm.trans (clearTail_filled hf))
      · exact h.1 (h.2.1.symm.trans ((clearTail_not_filled hf).trans hb.1))
    | cons c s =>
      obtain ⟨hc, hs⟩ := List.forall_mem_cons.1 hs
      rw [List.length_cons] at hp
      have hnext : (p + 1).toNat = p.toNat + 1 := by bv_omega
      show d ≠ 0 ∧ clearTail m 4096 i p = d ∧ StringAt (clearTail m 4096 i) (p + 1) t ↔ _
      rw [ih hb.2 hs (by omega), hnext, List.cons_prefix_cons, List.cons.injEq, List.length_cons,
        Nat.add_right_comm, ← Nat.add_assoc]
      by_cases hf : Filled i p.toNat
      · refine iff_of_false (fun h => h.1 (h.2.1.symm.trans (clearTail_filled hf))) fun h => ?_
        exact h.2.1 0 (by omega) hf
      rw [clearTail_not_filled hf, hb.1]
      constructor
      · rintro ⟨-, rfl, hpre, hnot, hend⟩
        refine ⟨⟨rfl, hpre⟩, fun k hk => ?_, hend.imp_left fun h => ⟨rfl, h⟩⟩
        cases k with
        | zero => exact hf
        | succ k =>
          rw [← Nat.add_assoc, Nat.add_right_comm]
          exact hnot k (by omega)
      · rintro ⟨⟨rfl, hpre⟩, hnot, hend⟩
        refine ⟨hc, rfl, hpre, fun k hk => ?_, hend.imp_left And.right⟩
        have := hnot (k + 1) (by omega)
        rwa [← Nat.add_assoc, Nat.add_right_comm] at this

theorem leadsTo_clearTail_iff {ts : List (List Byte)} (hb : BytesAt m p (flat ss))
    (hz : ∀ s ∈ ss, ∀ c ∈ s, c ≠ 0) (hp : p.toNat + (flat ss).length < 2 ^ 32) :
    LeadsTo (clearTail m 4096 i) p ss ts ↔ Leaves i p.toNat ss ts := by
  induction ss generalizing p ts with
  | nil => cases ts <;> exact Iff.rfl
  | cons s ss ih =>
    cases ts with
    | nil => exact Iff.rfl
    | cons t ts =>
      rw [flat_cons, bytesAt_append, List.length_append, List.length_singleton] at hb
      rw [flat_cons, List.length_append, List.length_append, List.length_singleton] at hp
      obtain ⟨hs, hz⟩ := List.forall_mem_cons.1 hz
      have hq : (p + BitVec.ofNat 32 (s.length + 1)).toNat = p.toNat + (s.length + 1) :=
        toNat_add_ofNat (by omega)
      unfold LeadsTo Leaves
      rw [stringAt_clearTail_iff hb.1 hs (by omega), ih hb.2 hz (by omega), hq]

/-- **A stack leads to other strings** if and only if the loop leaves these. -/
theorem Built.decodes_iff_turned {argv' envp' : List (List Byte)} (h : Built m sp p argv envp)
    (hargv : argv'.length = argv.length) (henvp : envp'.length = envp.length) :
    Decodes (clearTail m 4096 i) sp argv' envp' ↔ Turned i sp.toNat p.toNat argv envp argv' envp' := by
  have htop := h.top
  rw [h.decodes_iff_leadsTo hargv henvp, leadsTo_clearTail_iff h.strings h.ne_zero (by omega)]
  exact ⟨fun ⟨h1, h2, h3⟩ => ⟨h1, h2, h3⟩, fun h => ⟨h.argc, h.pointers, h.strings⟩⟩

/-- The number of arguments does not become smaller by one. -/
theorem Built.not_decodes_pred (h : Built m sp p argv envp) (hlen : argv'.length + 1 = argv.length)
    (h0 : argv' ≠ []) : ¬ Decodes (clearTail m 4096 i) sp argv' envp := by
  intro hd
  have hlow := h.low
  have hpos := List.length_pos_of_ne_nil h0
  have hsmall : argv.length < 2 ^ 32 := by
    have := p.isLt
    unfold tableSize at hlow
    omega
  have haligned := h.aligned
  have hargc := hd.argc
  by_cases hf : Filled i sp.toNat
  · -- Then the whole word is cleared.
    have hzero : getLong (clearTail m 4096 i) sp = 0 := by
      refine getLong_eq fun k hk => ?_
      obtain ⟨hi, hle, hpage⟩ := hf
      rw [clearTail_filled ⟨hi, ?_, ?_⟩]
      · interval_cases k <;> rfl
      · rw [toNat_add_ofNat (by omega)]
        omega
      · rw [toNat_add_ofNat (by omega)]
        omega
    rw [hzero] at hargc
    have := congrArg BitVec.toNat hargc
    rw [BitVec.toNat_ofNat, Nat.mod_eq_of_lt (by omega)] at this
    exact absurd this.symm (by simpa using h0)
  · -- Else its first byte is the one of the larger number.
    have hfirst : byteOf (getLong (clearTail m 4096 i) sp) 0 = byteOf (getLong m sp) 0 := by
      rw [byteOf_getLong (by decide), byteOf_getLong (by decide), BitVec.add_zero, clearTail_not_filled hf]
    rw [hargc, h.argc, ← hlen] at hfirst
    have hfirst := congrArg BitVec.toNat hfirst
    unfold byteOf at hfirst
    simp only [BitVec.extractLsb'_toNat, BitVec.toNat_ofNat, Nat.mul_zero, Nat.shiftRight_zero] at hfirst
    omega

/-- The words of a stack whose second argument is another. -/
theorem Built.decodes_second_iff {s : List Byte} (h : Built m sp p (base :: s :: rest) envp) :
    Decodes (clearTail m 4096 i) sp (base :: t :: rest) envp ↔
      (∀ k < 4, Filled i (sp.toNat + k) →
        byteOf (BitVec.ofNat 32 (base :: s :: rest).length) k = 0) ∧
      (∀ j, 1 ≤ j → j < (base :: s :: rest).length + envp.length + 4 →
        j ≠ (base :: s :: rest).length + 3 → ¬ Filled i (sp.toNat + 4 * j + 3)) ∧
      StringAt (clearTail m 4096 i) p base ∧
      StringAt (clearTail m 4096 i) (p + BitVec.ofNat 32 (base.length + 1)) t ∧
      BytesAt (clearTail m 4096 i)
        (p + BitVec.ofNat 32 (base.length + 1) + BitVec.ofNat 32 (s.length + 1)) (flat (rest ++ envp)) := by
  have hz : ∀ u ∈ rest ++ envp, ∀ c ∈ u, c ≠ 0 := fun u hu =>
    h.ne_zero u (List.mem_cons_of_mem _ (List.mem_cons_of_mem _ hu))
  have hlen : (base :: t :: rest).length = (base :: s :: rest).length := rfl
  rw [h.decodes_iff_leadsTo hlen rfl, ← leadsTo_self hz]
  exact Iff.rfl

theorem Built.not_decodes_head (h : Built m sp p (base :: (c :: t) :: rest) envp) (hcd : d ≠ c) :
    ¬ Decodes (clearTail m 4096 i) sp (base :: (d :: t') :: rest) envp := by
  rw [h.decodes_second_iff]
  rintro ⟨-, -, -, hd, -⟩
  have hc : m (p + BitVec.ofNat 32 (base.length + 1)) = c := by
    have hs := h.strings
    rw [List.cons_append, flat_cons, bytesAt_append, List.length_append, List.length_singleton] at hs
    exact hs.2.1
  by_cases hf : Filled i (p + BitVec.ofNat 32 (base.length + 1)).toNat
  · exact hd.1 (hd.2.1.symm.trans (clearTail_filled hf))
  · exact hcd (hd.2.1.symm.trans ((clearTail_not_filled hf).trans hc))

/-- **The loop cuts an argument** only where it starts in it. -/
theorem Built.decodes_cut_iff {b : List Byte} (h : Built m sp p (base :: (t ++ b) :: rest) envp)
    (ht : t ≠ []) (hb : b ≠ []) : Decodes (clearTail m 4096 i) sp (base :: t :: rest) envp ↔
      Cut i p.toNat base t b (rest ++ envp) := by
  rw [h.decodes_second_iff]
  obtain ⟨p₁, hp₁⟩ : ∃ q, q = p + BitVec.ofNat 32 (base.length + 1) := ⟨_, rfl⟩
  obtain ⟨q, hq⟩ : ∃ q, q = p₁ + BitVec.ofNat 32 ((t ++ b).length + 1) := ⟨_, rfl⟩
  rw [← hp₁, ← hq]
  have hlow := h.low
  have htop := h.top
  have hstrings := h.strings
  rw [List.cons_append, List.cons_append, flat_cons, flat_cons] at hstrings htop
  simp only [List.length_append, List.length_singleton] at htop
  have hp₁' : p₁.toNat = p.toNat + (base.length + 1) := by rw [hp₁, toNat_add_ofNat (by omega)]
  have hq' : q.toNat = p₁.toNat + ((t ++ b).length + 1) := by
    rw [hq, toNat_add_ofNat (by rw [List.length_append]; omega)]
  have hp₀ : (p₁ + BitVec.ofNat 32 t.length).toNat = p₁.toNat + t.length := toNat_add_ofNat (by omega)
  -- The strings lie one behind the other.
  obtain ⟨hbase, harg⟩ := bytesAt_append.1 hstrings
  rw [List.length_append, List.length_singleton, ← hp₁] at harg
  obtain ⟨hsecond, hrest⟩ := bytesAt_append.1 harg
  rw [List.length_append, List.length_singleton, ← hq] at hrest
  obtain ⟨hbytes, hblanks⟩ := bytesAt_append.1 (bytesAt_append.1 hsecond).1
  have htpos := List.length_pos_of_ne_nil ht
  constructor
  · rintro ⟨-, -, -, hs, hr⟩
    have hfilled : Filled i (p₁ + BitVec.ofNat 32 t.length).toNat := by
      by_contra hf
      obtain ⟨c, b', rfl⟩ := List.exists_cons_of_ne_nil hb
      have hc : c ≠ 0 := h.ne_zero (t ++ c :: b') (by simp) c (by simp)
      exact hc (hblanks.1.symm.trans ((clearTail_not_filled hf).symm.trans hs.last))
    obtain ⟨hlast, hne⟩ := hs.get (k := t.length - 1) (by omega)
    have hnot : ¬ Filled i (p₁ + BitVec.ofNat 32 (t.length - 1)).toNat := fun hf =>
      hne (hlast.symm.trans (clearTail_filled hf))
    rw [toNat_add_ofNat (by omega)] at hnot hfilled
    obtain ⟨hpage, hle, hsame⟩ := hfilled
    refine ⟨?_, hpage, ?_⟩
    · by_contra hplace
      exact hnot ⟨hpage, by omega, by omega⟩
    · rw [← hp₁', ← hq']
      exact (bytesAt_clearTail_iff hrest (by rw [hq', List.length_append]; omega)).1 hr
  · rintro ⟨hplace, hpage, hr⟩
    have hbelow : ∀ x, x < p₁.toNat + t.length → ¬ Filled i x := fun x hx hf => by
      have := hf.2.1
      omega
    unfold tableSize at hlow
    refine ⟨fun k hk hf => absurd hf (hbelow _ (by omega)), fun j _ hj _ => hbelow _ (by omega), ?_, ?_, ?_⟩
    · refine BytesAt.stringAt ((bytesAt_clearTail_iff hbase ?_).2 fun k hk hf => ?_) (h.ne_zero _ (by simp))
      · simp only [List.length_append, List.length_singleton]
        omega
      · simp only [List.length_append, List.length_singleton] at hk
        exact absurd hf (hbelow _ (by omega))
    · refine BytesAt.stringAt (bytesAt_append.2 ⟨(bytesAt_clearTail_iff hbytes (by omega)).2 fun k hk hf =>
        absurd hf (hbelow _ (by omega)), clearTail_filled ⟨hpage, by omega, by omega⟩, trivial⟩) ?_
      exact fun c hc => h.ne_zero (t ++ b) (by simp) c (List.mem_append_left _ hc)
    · rw [← hp₁', ← hq'] at hr
      exact (bytesAt_clearTail_iff hrest (by rw [hq', List.length_append]; omega)).2 hr

end Fill

end Linux011.Execve
