import Linux011.Mm.CopyOnWrite
import Linux011.Lib.Bytes
import Linux011.Lib.Count

/-!
# The argument pages

`copy_strings`: the strings of a new program are copied, the last one first, to the top of up to 32
pages, which are taken as they are needed.

1. `copyByte`, `copyBytes`, `copyLoop`, `copyStrings`.
2. `Args.Step`: what the copying does to memory and to `page[]`. `Args.Wf`, `Args.Holds` and
   `Args.Plenty` along it.
3. `copyBytes_spec` and `copyBytes_overflow`, then the same for the loop over the strings.
4. `copyStrings_bounded_iff`: the test for the end of the area compares an unsigned number with zero.
-/

namespace Linux011.Execve

open Bytes Relation

/-! ## The code -/

def MAX_ARG_PAGES : ℕ := 32

/-- What `fs` selects. -/
inductive Seg
  | user
  | kernel
  deriving DecidableEq

/-- The bytes of the two segments while a program is executed. -/
structure Segments where
  user : Memory
  kernel : Memory

def Segments.of (m : Segments) : Seg → Memory
  | .user => m.user
  | .kernel => m.kernel

/-- Memory, `page[]` with frame numbers, the register `fs`, and the calls of `get_free_page` so far. -/
structure Args where
  mem : Mm.Mem
  page : ℕ → ℕ
  fs : Seg
  calls : ℕ

/-- Why `copy_strings` stops: its panic, a string without an end, an index that is not one of
`page[]`, or no free page. -/
inductive Halt
  | argcWrong
  | endless
  | outside (i : ℕ)
  | full (s : Args)

namespace Args

def setFs (s : Args) (fs : Seg) : Args := { s with fs := fs }

/-- `get_free_page`. Whether call number `n` may find a page is `supply n`: others take pages and
give pages back in between. -/
def getFreePage (supply : ℕ → Bool) (s : Args) : Option (ℕ × Mm.Mem) :=
  if supply s.calls then Mm.getFreePage s.mem else none

/-- `(pag = page[i]) || (pag = page[i] = get_free_page())`. -/
def lookup (supply : ℕ → Bool) (s : Args) (i : ℕ) : Except Halt (ℕ × Args) :=
  if MAX_ARG_PAGES ≤ i then .error (.outside i)
  else if s.page i ≠ 0 then .ok (s.page i, s)
  else
    match s.getFreePage supply with
    | none => .error (.full { s with calls := s.calls + 1 })
    | some (f, m) =>
      .ok (f, { s with mem := m, page := Function.update s.page i f, calls := s.calls + 1 })

/-- A store to byte `k` of frame `f`. -/
def store (s : Args) (f k : ℕ) (b : Byte) : Args :=
  { s with mem := s.mem.write f (k / 4) (Mm.setByte (s.mem.phys f (k / 4)) (k % 4) b) }

end Args

/-- The variables of `copy_strings` in its inner loop. -/
structure Cursor where
  p : BitVec 32
  tmp : Addr
  offset : ℤ
  pag : ℕ

section Code

variable (supply : ℕ → Bool) (m : Segments) (fromKmem : ℕ)

/-- The body of `while (len)`. -/
def copyByte (oldFs : Seg) (s : Args) (c : Cursor) : Except Halt (Args × Cursor) :=
  let c := { c with p := c.p - 1, tmp := c.tmp - 1, offset := c.offset - 1 }
  if c.offset < (0 : ℤ) then do
    let (pag, s) ← (if fromKmem = 2 then s.setFs oldFs else s).lookup supply (c.p.toNat / 4096)
    let s := if fromKmem = 2 then s.setFs .kernel else s
    return (s.store pag (c.p.toNat % 4096) (m.of s.fs c.tmp),
      { c with offset := Int.ofNat (c.p.toNat % 4096), pag := pag })
  else .ok (s.store c.pag c.offset.toNat (m.of s.fs c.tmp), c)

def copyBytes (oldFs : Seg) : ℕ → Args → Cursor → Except Halt (Args × Cursor)
  | 0, s, c => .ok (s, c)
  | len + 1, s, c => do
    let (s, c) ← copyByte supply m fromKmem oldFs s c
    copyBytes oldFs len s c

/-- `while (argc-- > 0)`. The difference of `p` and `len` is unsigned. -/
def copyLoop (oldFs : Seg) (argv : Addr) : ℕ → Args → Cursor → Except Halt (Args × Cursor)
  | 0, s, c => .ok (s, c)
  | argc + 1, s, c => do
    let s := if fromKmem = 1 then s.setFs .kernel else s
    let tmp := getLong (m.of s.fs) (argv + BitVec.ofNat 32 (4 * argc))
    if tmp = 0 then .error .argcWrong
    else
      let s := if fromKmem = 1 then s.setFs oldFs else s
      match scan (m.of s.fs) (2 ^ 32) tmp with
      | none => .error .endless
      | some len =>
        if c.p - BitVec.ofNat 32 len < 0 then .error (.full (s.setFs oldFs))
        else do
          let (s, c) ← copyBytes supply m fromKmem oldFs len s
            { c with tmp := tmp + BitVec.ofNat 32 len }
          copyLoop oldFs argv argc s c

/-- `copy_strings`. -/
def copyStrings (argc : ℤ) (argv : Addr) (p : BitVec 32) (s : Args) :
    Except Halt (BitVec 32 × Args) :=
  if p = 0 then .ok (0, s)
  else
    let oldFs := s.fs
    let s := if fromKmem = 2 then s.setFs .kernel else s
    match copyLoop supply m fromKmem oldFs argv argc.toNat s ⟨p, 0, 0, 0⟩ with
    | .ok (s, c) => .ok (c.p, if fromKmem = 2 then s.setFs oldFs else s)
    | .error (.full s) => .ok (0, s)
    | .error e => .error e

end Code

/-! ## What the copying does -/

namespace Args

/-- A step of the copying. -/
inductive Step (supply : ℕ → Bool) : Args → Args → Prop
  | setFs (s : Args) (fs : Seg) : Step supply s (s.setFs fs)
  | fail (s : Args) : s.getFreePage supply = none → Step supply s { s with calls := s.calls + 1 }
  | take (s : Args) (i f : ℕ) (m : Mm.Mem) : i < MAX_ARG_PAGES → s.page i = 0 →
      s.getFreePage supply = some (f, m) →
      Step supply s
        { s with mem := m, page := Function.update s.page i f, calls := s.calls + 1 }
  | store (s : Args) (i k : ℕ) (b : Byte) : i < MAX_ARG_PAGES → s.page i ≠ 0 → k < 4096 →
      Step supply s (s.store (s.page i) k b)

def Steps (supply : ℕ → Bool) : Args → Args → Prop := ReflTransGen (Step supply)

/-- The pages are in use, and no two entries of `page[]` are the same page. -/
structure Wf (s : Args) : Prop where
  used : ∀ i < MAX_ARG_PAGES, s.page i ≠ 0 → s.mem.memMap (s.page i) ≠ 0
  inj : ∀ i < MAX_ARG_PAGES, ∀ j < MAX_ARG_PAGES, s.page i ≠ 0 → s.page i = s.page j → i = j

/-- The byte at `x` in the argument area. -/
def byteAt (s : Args) (x : ℕ) : Byte := Mm.byteOf (s.mem.phys (s.page (x / 4096))) (x % 4096)

/-- The bytes are in the argument area from `x` on. -/
def Holds (s : Args) : ℕ → List Byte → Prop
  | _, [] => True
  | x, b :: bs => x / 4096 < MAX_ARG_PAGES ∧ s.page (x / 4096) ≠ 0 ∧ s.byteAt x = b ∧
      Holds s (x + 1) bs

/-- The number of free frames. -/
def freeFrames (m : Mm.Mem) : ℕ :=
  ((Finset.range Mm.pagingPages).filter fun n => m.memMap (Mm.lowPages + n) = 0).card

/-- The number of entries of `page[]` without a page. -/
def missing (s : Args) : ℕ := ((Finset.range MAX_ARG_PAGES).filter fun i => s.page i = 0).card

/-- There is a free page for every entry that has none, and no call of `get_free_page` fails. -/
def Plenty (supply : ℕ → Bool) (s : Args) : Prop :=
  (∀ n, supply n = true) ∧ s.missing ≤ freeFrames s.mem

variable {supply : ℕ → Bool} {s s' : Args} {i f k x : ℕ} {m : Mm.Mem} {b : Byte} {bs : List Byte}

theorem getFreePage_eq_some (h : s.getFreePage supply = some (f, m)) :
    Mm.getFreePage s.mem = some (f, m) := by
  unfold getFreePage at h
  split_ifs at h
  exact h

theorem frame_ne_zero (h : s.getFreePage supply = some (f, m)) : f ≠ 0 := by
  obtain ⟨-, hl, -⟩ := Mm.getFreePage_eq_some (getFreePage_eq_some h)
  unfold Mm.lowPages at hl
  omega

theorem Wf.start (h : s.page = fun _ => 0) : s.Wf :=
  ⟨fun i _ hp => absurd (congrFun h i) hp, fun i _ _ _ hp => absurd (congrFun h i) hp⟩

/-- A page that is taken was not in use. -/
theorem Wf.fresh (h : s.Wf) (hg : s.getFreePage supply = some (f, m)) (hi : i < MAX_ARG_PAGES)
    (hp : s.page i ≠ 0) : s.page i ≠ f := by
  obtain ⟨h0, -⟩ := Mm.getFreePage_eq_some (getFreePage_eq_some hg)
  rintro rfl
  exact h.used i hi hp h0

theorem Wf.step (h : s.Wf) (hs : Step supply s s') : s'.Wf := by
  cases hs with
  | setFs => exact ⟨h.used, h.inj⟩
  | fail => exact ⟨h.used, h.inj⟩
  | store => exact ⟨h.used, h.inj⟩
  | take i f m hi h0 hg =>
    have hf := frame_ne_zero hg
    obtain ⟨-, -, -, rfl⟩ := Mm.getFreePage_eq_some (getFreePage_eq_some hg)
    refine ⟨fun j hj hp => ?_, fun j hj k hk hp he => ?_⟩
    · show Function.update s.mem.memMap f 1 (Function.update s.page i f j) ≠ 0
      by_cases hji : j = i
      · rw [hji, Function.update_self, Function.update_self]
        decide
      · have hp' : s.page j ≠ 0 := by simpa [Function.update_of_ne hji] using hp
        rw [Function.update_of_ne hji, Function.update_of_ne (h.fresh hg hj hp')]
        exact h.used j hj hp'
    · simp only at hp he
      by_cases hji : j = i
      · by_cases hki : k = i
        · rw [hji, hki]
        · rw [hji, Function.update_self, Function.update_of_ne hki] at he
          exact absurd he.symm (h.fresh hg hk (by rw [← he]; exact hf))
      · rw [Function.update_of_ne hji] at hp he
        by_cases hki : k = i
        · rw [hki, Function.update_self] at he
          exact absurd he (h.fresh hg hj hp)
        · rw [Function.update_of_ne hki] at he
          exact h.inj j hj k hk hp he

theorem Wf.steps (h : s.Wf) (hs : Steps supply s s') : s'.Wf := by
  induction hs with
  | refl => exact h
  | tail _ hstep ih => exact ih.step hstep

/-- A store changes one byte of the argument area. -/
theorem Wf.byteAt_store (h : s.Wf) (hi : i < MAX_ARG_PAGES) (hp : s.page i ≠ 0) (hk : k < 4096)
    (hx : x / 4096 < MAX_ARG_PAGES) :
    (s.store (s.page i) k b).byteAt x = if x = 4096 * i + k then b else s.byteAt x := by
  unfold byteAt store Mm.Mem.write
  simp only
  by_cases hxi : s.page (x / 4096) = s.page i
  · have hxi' : x / 4096 = i := (h.inj i hi _ hx hp hxi.symm).symm
    rw [hxi, Function.update_self, Mm.byteOf_update]
    by_cases hxk : x % 4096 = k
    · rw [if_pos hxk, if_pos (by omega)]
    · rw [if_neg hxk, if_neg (by omega)]
  · rw [Function.update_of_ne hxi, if_neg]
    rintro rfl
    exact hxi (by rw [show (4096 * i + k) / 4096 = i by omega])

theorem Holds.congr (h : s.Holds x bs)
    (hpage : ∀ i < MAX_ARG_PAGES, s.page i ≠ 0 → s'.page i = s.page i)
    (hbyte : ∀ y, x ≤ y → y / 4096 < MAX_ARG_PAGES → s.page (y / 4096) ≠ 0 →
      s'.byteAt y = s.byteAt y) : s'.Holds x bs := by
  induction bs generalizing x with
  | nil => trivial
  | cons b bs ih =>
    obtain ⟨hx, hp, hb, hbs⟩ := h
    refine ⟨hx, by rw [hpage _ hx hp]; exact hp, ?_, ih hbs fun y hy => hbyte y (by omega)⟩
    rw [hbyte x le_rfl hx hp]
    exact hb

/-- A page that is taken holds nothing yet. -/
theorem Holds.take (h : s.Holds x bs) (hW : s.Wf) (h0 : s.page i = 0)
    (hg : s.getFreePage supply = some (f, m)) :
    Holds { s with mem := m, page := Function.update s.page i f, calls := s.calls + 1 } x bs := by
  have hpage : ∀ j < MAX_ARG_PAGES, s.page j ≠ 0 → Function.update s.page i f j = s.page j := by
    intro j _ hp
    refine Function.update_of_ne ?_ _ _
    rintro rfl
    exact hp h0
  refine h.congr hpage fun y _ hy hp => ?_
  have hfresh := hW.fresh hg hy hp
  obtain ⟨-, -, -, rfl⟩ := Mm.getFreePage_eq_some (getFreePage_eq_some hg)
  unfold byteAt
  simp only [hpage _ hy hp]
  rw [Mm.Mem.fill_phys_of_ne _ _ hfresh]
  rfl

/-- A store below the bytes puts one more byte before them, or is not near them. -/
theorem Holds.store (h : s.Holds x bs) (hW : s.Wf) (hi : i < MAX_ARG_PAGES) (hp : s.page i ≠ 0)
    (hk : k < 4096) (hx : x = 4096 * i + k + 1) :
    (s.store (s.page i) k b).Holds (4096 * i + k) (b :: bs) := by
  have hdiv : (4096 * i + k) / 4096 = i := by omega
  refine ⟨by rw [hdiv]; exact hi, by rw [hdiv]; exact hp, ?_, ?_⟩
  · rw [hW.byteAt_store hi hp hk (by rw [hdiv]; exact hi), if_pos rfl]
  · rw [← hx]
    refine h.congr (fun _ _ _ => rfl) fun y hy hy' hpy => ?_
    rw [hW.byteAt_store hi hp hk hy', if_neg (by omega)]

theorem freeFrames_eq_zero {m : Mm.Mem} (h : Mm.getFreePage m = none) : freeFrames m = 0 := by
  have hscan := Mm.scanFree_eq_none_iff.1 (Option.map_eq_none_iff.1 h)
  exact Count.card_filter_eq_zero_iff.2 fun k hk => hscan k (Finset.mem_range.1 hk)

theorem freeFrames_take {m m' : Mm.Mem} (h : Mm.getFreePage m = some (f, m')) :
    freeFrames m' + 1 = freeFrames m := by
  obtain ⟨h0, hl, hlt, rfl⟩ := Mm.getFreePage_eq_some h
  obtain ⟨n, rfl⟩ : ∃ n, f = Mm.lowPages + n := ⟨f - Mm.lowPages, (Nat.add_sub_cancel' hl).symm⟩
  refine Count.card_filter_lose (a := n) (Finset.mem_range.2 (Nat.lt_of_add_lt_add_left hlt)) h0 ?_
    fun k _ hk => ?_
  · show ¬ Function.update m.memMap (Mm.lowPages + n) 1 (Mm.lowPages + n) = 0
    rw [Function.update_self]
    decide
  · show Function.update m.memMap (Mm.lowPages + n) 1 (Mm.lowPages + k) = 0 ↔ _
    rw [Function.update_of_ne (fun he => hk (Nat.add_left_cancel he))]

theorem Plenty.step (h : s.Plenty supply) (hs : Step supply s s') : s'.Plenty supply := by
  obtain ⟨hall, hle⟩ := h
  cases hs with
  | setFs => exact ⟨hall, hle⟩
  | fail => exact ⟨hall, hle⟩
  | store => exact ⟨hall, hle⟩
  | take i f m hi h0 hg =>
    have hfree := freeFrames_take (getFreePage_eq_some hg)
    have hmiss : missing
        { s with mem := m, page := Function.update s.page i f, calls := s.calls + 1 } + 1 =
          s.missing := by
      refine Count.card_filter_lose (a := i) (Finset.mem_range.2 hi) h0 ?_ fun j _ hj => ?_
      · show ¬ Function.update s.page i f i = 0
        rw [Function.update_self]
        exact frame_ne_zero hg
      · show Function.update s.page i f j = 0 ↔ _
        rw [Function.update_of_ne hj]
    refine ⟨hall, ?_⟩
    simp only
    omega

theorem Plenty.steps (h : s.Plenty supply) (hs : Steps supply s s') : s'.Plenty supply := by
  induction hs with
  | refl => exact h
  | tail _ hstep ih => exact ih.step hstep

/-- With plenty of pages, one is found for an entry without a page. -/
theorem Plenty.ne_none (h : s.Plenty supply) (hi : i < MAX_ARG_PAGES) (h0 : s.page i = 0) :
    s.getFreePage supply ≠ none := by
  intro hg
  unfold getFreePage at hg
  rw [if_pos (h.1 _)] at hg
  have hpos : 0 < s.missing := Count.card_filter_pos (Finset.mem_range.2 hi) h0
  have := h.2
  rw [freeFrames_eq_zero hg] at this
  omega

end Args

/-! ## The loops -/

/-- The segment the strings are in. -/
def strSeg (fromKmem : ℕ) (oldFs : Seg) : Seg := if fromKmem = 2 then .kernel else oldFs

/-- The segment the array of pointers is in. -/
def ptrSeg (fromKmem : ℕ) (oldFs : Seg) : Seg :=
  if fromKmem = 1 ∨ fromKmem = 2 then .kernel else oldFs

/-- The offset is zero, or it is the one of `p` in its page. -/
def Cursor.Ok (c : Cursor) (s : Args) : Prop :=
  c.offset = 0 ∨ c.offset = (c.p.toNat % 4096 : ℕ) ∧ c.p.toNat / 4096 < MAX_ARG_PAGES ∧
    c.pag = s.page (c.p.toNat / 4096) ∧ c.pag ≠ 0

/-- The copying of `s` stops where `get_free_page` finds no page for an entry of `page[]`. -/
def Starved (supply : ℕ → Bool) (oldFs : Seg) (s : Args) (e : Halt) : Prop :=
  ∃ t i, Args.Steps supply s t ∧ i < MAX_ARG_PAGES ∧ t.page i = 0 ∧
    t.getFreePage supply = none ∧ t.fs = oldFs ∧ e = .full { t with calls := t.calls + 1 }

section Loops

open Args

variable {supply : ℕ → Bool} {m : Segments} {fromKmem : ℕ} {oldFs : Seg} {s s' : Args} {c : Cursor}
  {e : Halt} {argv : Addr} {len : ℕ}

theorem Starved.of_steps (hs : Steps supply s s') (h : Starved supply oldFs s' e) :
    Starved supply oldFs s e := by
  obtain ⟨t, i, ht, h⟩ := h
  exact ⟨t, i, hs.trans ht, h⟩

theorem Starved.not_plenty (h : Starved supply oldFs s e) : ¬ s.Plenty supply := by
  obtain ⟨t, i, ht, hi, h0, hg, -⟩ := h
  exact fun hp => (hp.steps ht).ne_none hi h0 hg

/-- `page[i]` for an index of the array. -/
theorem lookup_spec (hW : s.Wf) {i : ℕ} (hi : i < MAX_ARG_PAGES) :
    Post (s.lookup supply i)
      (fun r => r.1 = r.2.page i ∧ r.1 ≠ 0 ∧ Steps supply s r.2 ∧ r.2.fs = s.fs ∧
        ∀ x bs, s.Holds x bs → r.2.Holds x bs)
      (Starved supply s.fs s) := by
  unfold lookup
  rw [if_neg (by omega)]
  by_cases h0 : s.page i = 0
  · rw [if_neg (by rw [h0]; simp)]
    cases hg : s.getFreePage supply with
    | none => exact Post.error ⟨s, i, .refl, hi, h0, hg, rfl, rfl⟩
    | some r =>
      obtain ⟨f, mem⟩ := r
      refine Post.ok ⟨?_, frame_ne_zero hg, .single (.take s i f mem hi h0 hg), rfl,
        fun x bs h => h.take hW h0 hg⟩
      show f = Function.update s.page i f i
      rw [Function.update_self]
  · rw [if_pos h0]
    exact Post.ok ⟨rfl, h0, .refl, rfl, fun _ _ h => h⟩

variable (supply fromKmem) in
/-- `set_fs` changes `fs` only. -/
theorem setFs_spec (s : Args) (hW : s.Wf) (n : ℕ) (fs : Seg) :
    ∃ s₁, (if fromKmem = n then s.setFs fs else s) = s₁ ∧ Steps supply s s₁ ∧ s₁.Wf ∧
      s₁.fs = (if fromKmem = n then fs else s.fs) ∧ s₁.page = s.page ∧
      ∀ x bs, s.Holds x bs → s₁.Holds x bs := by
  split_ifs
  · exact ⟨_, rfl, .single (.setFs s fs), ⟨hW.used, hW.inj⟩, rfl, rfl,
      fun _ _ h => h.congr (fun _ _ _ => rfl) fun _ _ _ _ => rfl⟩
  · exact ⟨_, rfl, .refl, hW, rfl, rfl, fun _ _ h => h⟩

/-- A turn of the inner loop puts a byte before those that are there. -/
theorem copyByte_spec (hW : s.Wf) (hc : c.Ok s) (hpos : c.p ≠ 0)
    (hle : c.p.toNat ≤ MAX_ARG_PAGES * 4096) (hfs : s.fs = strSeg fromKmem oldFs) :
    Post (copyByte supply m fromKmem oldFs s c)
      (fun r => r.2.p = c.p - 1 ∧ r.2.tmp = c.tmp - 1 ∧ r.2.Ok r.1 ∧ r.1.fs = s.fs ∧
        Steps supply s r.1 ∧ ∀ bs, s.Holds c.p.toNat bs →
          r.1.Holds (c.p.toNat - 1) (m.of s.fs (c.tmp - 1) :: bs))
      (Starved supply oldFs s) := by
  unfold MAX_ARG_PAGES at hle
  have hp : (c.p - 1).toNat = c.p.toNat - 1 ∧ 0 < c.p.toNat := by
    have : c.p.toNat ≠ 0 := fun h => hpos (BitVec.eq_of_toNat_eq h)
    bv_omega
  obtain ⟨hp, hpos⟩ := hp
  have hidx : (c.p.toNat - 1) / 4096 < MAX_ARG_PAGES := by unfold MAX_ARG_PAGES; omega
  have hlast : 4096 * ((c.p.toNat - 1) / 4096) + (c.p.toNat - 1) % 4096 = c.p.toNat - 1 := by omega
  unfold copyByte
  simp only
  by_cases hoff : c.offset - 1 < 0
  · -- A new page is entered.
    rw [if_pos hoff, hp]
    obtain ⟨s₁, he₁, hs₁, hW₁, hfs₁, -, hh₁⟩ := setFs_spec supply fromKmem
      s hW 2 oldFs
    have hold : s₁.fs = oldFs := by
      rw [hfs₁, hfs]
      unfold strSeg
      split_ifs <;> rfl
    rw [he₁]
    refine Post.bind ((lookup_spec hW₁ hidx).mono (fun _ => id) fun e he => ?_) fun r hr => ?_
    · rw [hold] at he
      exact he.of_steps hs₁
    obtain ⟨pag, s₂⟩ := r
    obtain ⟨hpag, hne, hs₂, hfs₂, hh₂⟩ := hr
    simp only at hpag hne hs₂ hfs₂ hh₂ ⊢
    subst hpag
    have hW₂ := hW₁.steps hs₂
    obtain ⟨s₃, he₃, hs₃, hW₃, hfs₃, hpg₃, hh₃⟩ := setFs_spec supply fromKmem s₂ hW₂ 2 .kernel
    have hseg : s₃.fs = s.fs := by
      rw [hfs₃, hfs₂, hold, hfs]
      rfl
    rw [he₃, ← hpg₃, hseg]
    rw [← hpg₃] at hne
    refine Post.ok ⟨rfl, rfl, .inr ⟨by simp only [hp]; rfl, by rw [hp]; exact hidx, ?_, hne⟩, hseg,
      ((hs₁.trans hs₂).trans hs₃).tail
        (.store s₃ _ _ _ hidx hne (Nat.mod_lt _ (by decide))), fun bs hbs => ?_⟩
    · show s₃.page ((c.p.toNat - 1) / 4096) = s₃.page ((c.p - 1).toNat / 4096)
      rw [hp]
    · have hbs₃ := hh₃ _ _ (hh₂ _ _ (hh₁ _ _ hbs))
      have := hbs₃.store (b := m.of s.fs (c.tmp - 1)) hW₃ hidx hne
        (Nat.mod_lt (c.p.toNat - 1) (by decide)) (by omega)
      rw [hlast] at this
      exact this
  · -- The page is the one of the byte before.
    rw [if_neg hoff]
    obtain ⟨ho, hi, hpag, hne⟩ := hc.resolve_left (by omega)
    have hsame : (c.p.toNat - 1) / 4096 = c.p.toNat / 4096 := by omega
    have hmod : (c.offset - 1).toNat = (c.p.toNat - 1) % 4096 := by omega
    rw [hmod, hpag, ← hsame]
    rw [hpag, ← hsame] at hne
    refine Post.ok ⟨rfl, rfl, .inr ⟨?_, by rw [hp]; exact hidx, ?_, ?_⟩, rfl,
      .single (.store s _ _ _ hidx hne (Nat.mod_lt _ (by decide))), fun bs hbs => ?_⟩
    · show c.offset - 1 = ((c.p - 1).toNat % 4096 : ℕ)
      rw [hp]
      omega
    · show s.page ((c.p.toNat - 1) / 4096) = s.page ((c.p - 1).toNat / 4096)
      rw [hp]
    · exact hne
    · have := hbs.store (b := m.of s.fs (c.tmp - 1)) hW hidx hne
        (Nat.mod_lt (c.p.toNat - 1) (by decide)) (by omega)
      rw [hlast] at this
      exact this

/-- At the bottom of the area the next turn leaves the array. -/
theorem copyByte_outside (hc : c.Ok s) (hp : c.p = 0) :
    copyByte supply m fromKmem oldFs s c = .error (.outside 0xFFFFF) := by
  have hoff : c.offset = 0 := by
    rcases hc with h | ⟨h, -⟩
    · exact h
    · rw [h, hp]
      rfl
  unfold copyByte
  simp only
  rw [if_pos (by omega), hp]
  have hlook : ∀ t : Args, t.lookup supply ((0 - 1 : BitVec 32).toNat / 4096) =
      .error (.outside 0xFFFFF) := fun t => if_pos (by decide)
  rw [hlook]
  rfl

/-- The inner loop copies `len` bytes down to `p - len`. -/
theorem copyBytes_spec (hW : s.Wf) (hc : c.Ok s) (hlen : len ≤ c.p.toNat)
    (hle : c.p.toNat ≤ MAX_ARG_PAGES * 4096) (hfs : s.fs = strSeg fromKmem oldFs) :
    Post (copyBytes supply m fromKmem oldFs len s c)
      (fun r => r.2.p.toNat = c.p.toNat - len ∧ r.2.Ok r.1 ∧ r.1.fs = s.fs ∧ Steps supply s r.1 ∧
        ∀ bs, s.Holds c.p.toNat bs → r.1.Holds (c.p.toNat - len)
          (readBytes (m.of s.fs) (c.tmp - BitVec.ofNat 32 len) len ++ bs))
      (Starved supply oldFs s) := by
  induction len generalizing s c with
  | zero => exact Post.ok ⟨rfl, hc, rfl, .refl, fun bs hbs => hbs⟩
  | succ len ih =>
    have hpos : c.p ≠ 0 := fun h => by
      rw [h] at hlen
      exact absurd hlen (by simp)
    have hp : (c.p - 1).toNat = c.p.toNat - 1 := by bv_omega
    unfold copyBytes
    refine Post.bind (copyByte_spec hW hc hpos hle hfs) fun r hr => ?_
    obtain ⟨s₁, c₁⟩ := r
    obtain ⟨hp₁, ht₁, hc₁, hfs₁, hs₁, hh₁⟩ := hr
    simp only at hp₁ ht₁ hc₁ hfs₁ hs₁ hh₁ ⊢
    rw [← hp₁] at hp
    refine (ih (hW.steps hs₁) hc₁ (by omega) (by omega) (hfs₁.trans hfs)).mono (fun r hr => ?_)
      fun e he => he.of_steps hs₁
    obtain ⟨hp₂, hc₂, hfs₂, hs₂, hh₂⟩ := hr
    refine ⟨by omega, hc₂, hfs₂.trans hfs₁, hs₁.trans hs₂, fun bs hbs => ?_⟩
    have hbs₂ := hh₂ _ (by rw [hp]; exact hh₁ bs hbs)
    have htmp : c₁.tmp - BitVec.ofNat 32 len = c.tmp - BitVec.ofNat 32 (len + 1) := by
      rw [ht₁]
      bv_omega
    have hlast : c.tmp - BitVec.ofNat 32 (len + 1) + BitVec.ofNat 32 len = c.tmp - 1 := by
      bv_omega
    rw [htmp, hfs₁, hp, show c.p.toNat - 1 - len = c.p.toNat - (len + 1) by omega] at hbs₂
    rw [readBytes_succ, hlast, List.append_assoc]
    exact hbs₂

/-- More bytes than there is room for lead out of the array. -/
theorem copyBytes_overflow (hW : s.Wf) (hc : c.Ok s) (hlen : c.p.toNat < len)
    (hle : c.p.toNat ≤ MAX_ARG_PAGES * 4096) (hfs : s.fs = strSeg fromKmem oldFs) :
    Post (copyBytes supply m fromKmem oldFs len s c) (fun _ => False)
      (fun e => Starved supply oldFs s e ∨ e = .outside 0xFFFFF) := by
  induction len generalizing s c with
  | zero => exact absurd hlen (Nat.not_lt_zero _)
  | succ len ih =>
    unfold copyBytes
    by_cases hpos : c.p = 0
    · rw [copyByte_outside hc hpos]
      exact Post.error (.inr rfl)
    · have hp : (c.p - 1).toNat = c.p.toNat - 1 ∧ 0 < c.p.toNat := by
        have : c.p.toNat ≠ 0 := fun h => hpos (BitVec.eq_of_toNat_eq h)
        bv_omega
      refine Post.bind ((copyByte_spec hW hc hpos hle hfs).mono (fun _ => id) fun e he => .inl he)
        fun r hr => ?_
      obtain ⟨s₁, c₁⟩ := r
      obtain ⟨hp₁, -, hc₁, hfs₁, hs₁, -⟩ := hr
      simp only at hp₁ hc₁ hfs₁ hs₁ ⊢
      rw [← hp₁] at hp
      exact (ih (hW.steps hs₁) hc₁ (by omega) (by omega) (hfs₁.trans hfs)).mono (fun _ => id)
        fun e he => he.imp_left fun he => he.of_steps hs₁

theorem flat_length_append (ss : List (List Byte)) (x : List Byte) :
    (flat (ss ++ [x])).length = (flat ss).length + (x.length + 1) := by
  rw [flat_append, flat_singleton, List.length_append, List.length_append]
  rfl

variable (supply) in
/-- A turn of the loop over the strings finds the last one and its length. -/
theorem copyLoop_succ {ss : List (List Byte)} {x : List Byte} (hW : s.Wf) (hc : c.Ok s)
    (hfs : s.fs = strSeg fromKmem oldFs)
    (hargs : StringsAt (m.of (ptrSeg fromKmem oldFs)) (m.of (strSeg fromKmem oldFs)) argv
      (ss ++ [x])) :
    ∃ s₁ tmp, Steps supply s s₁ ∧ s₁.Wf ∧ s₁.fs = strSeg fromKmem oldFs ∧
      ({ c with tmp := tmp } : Cursor).Ok s₁ ∧ (∀ y bs, s.Holds y bs → s₁.Holds y bs) ∧
      readBytes (m.of s₁.fs) (tmp - BitVec.ofNat 32 (x.length + 1)) (x.length + 1) = x ++ [0] ∧
      copyLoop supply m fromKmem oldFs argv (ss.length + 1) s c =
        (copyBytes supply m fromKmem oldFs (x.length + 1) s₁ { c with tmp := tmp } >>= fun r =>
          copyLoop supply m fromKmem oldFs argv ss.length r.1 r.2) := by
  obtain ⟨-, hptr, hstr, -⟩ := stringsAt_append.1 hargs
  obtain ⟨tmp, htmp⟩ : ∃ tmp, tmp = getLong (m.of (ptrSeg fromKmem oldFs))
    (argv + BitVec.ofNat 32 (4 * ss.length)) := ⟨_, rfl⟩
  rw [← htmp] at hptr hstr
  obtain ⟨s₁, he₁, hs₁, hW₁, hfs₁, hpg₁, hh₁⟩ := setFs_spec supply fromKmem s hW 1 .kernel
  obtain ⟨s₂, he₂, hs₂, hW₂, hfs₂, hpg₂, hh₂⟩ := setFs_spec supply fromKmem s₁ hW₁ 1 oldFs
  have hseg₁ : s₁.fs = ptrSeg fromKmem oldFs := by
    rw [hfs₁, hfs]
    unfold strSeg ptrSeg
    by_cases h1 : fromKmem = 1
    · simp [h1]
    · simp [h1]
  have hseg₂ : s₂.fs = strSeg fromKmem oldFs := by
    rw [hfs₂, hseg₁]
    unfold strSeg ptrSeg
    by_cases h1 : fromKmem = 1
    · simp [h1]
    · simp [h1]
  refine ⟨s₂, tmp + BitVec.ofNat 32 (x.length + 1), hs₁.trans hs₂, hW₂, hseg₂, ?_,
    fun y bs h => hh₂ _ _ (hh₁ _ _ h), ?_, ?_⟩
  · unfold Cursor.Ok at hc ⊢
    rw [hpg₂, hpg₁]
    exact hc
  · rw [add_sub_cancel_right, hseg₂]
    exact hstr.readBytes
  · rw [copyLoop]
    simp only
    rw [he₁, hseg₁, ← htmp, if_neg hptr, he₂, hseg₂, hstr.scan hstr.length_lt]
    simp only
    -- An unsigned difference is never negative.
    have hnot : ¬ c.p - BitVec.ofNat 32 (x.length + 1) < 0 := fun h =>
      absurd (BitVec.lt_def.1 h) (Nat.not_lt_zero _)
    rw [if_neg hnot]

variable (supply) in
/-- The loop over the strings, where they fit. -/
theorem copyLoop_spec {ss : List (List Byte)} (hW : s.Wf) (hc : c.Ok s)
    (hfs : s.fs = strSeg fromKmem oldFs)
    (hargs : StringsAt (m.of (ptrSeg fromKmem oldFs)) (m.of (strSeg fromKmem oldFs)) argv ss)
    (hfit : (flat ss).length ≤ c.p.toNat) (hle : c.p.toNat ≤ MAX_ARG_PAGES * 4096) :
    Post (copyLoop supply m fromKmem oldFs argv ss.length s c)
      (fun r => r.2.p.toNat = c.p.toNat - (flat ss).length ∧ r.1.fs = s.fs ∧
        Steps supply s r.1 ∧ ∀ bs, s.Holds c.p.toNat bs →
          r.1.Holds (c.p.toNat - (flat ss).length) (flat ss ++ bs))
      (Starved supply oldFs s) := by
  induction ss using List.reverseRecOn generalizing s c with
  | nil => exact Post.ok ⟨rfl, rfl, .refl, fun bs hbs => hbs⟩
  | append_singleton ss x ih =>
    obtain ⟨s₁, tmp, hs₁, hW₁, hfs₁, hc₁, hh₁, hread, hloop⟩ := copyLoop_succ supply
      hW hc hfs hargs
    rw [flat_length_append] at hfit ⊢
    rw [List.length_append, List.length_singleton, hloop]
    refine Post.bind ((copyBytes_spec hW₁ hc₁ (by simp only; omega) hle hfs₁).mono
      (fun _ => id) fun e he => he.of_steps hs₁) fun r hr => ?_
    obtain ⟨s₂, c₂⟩ := r
    obtain ⟨hp₂, hc₂, hfs₂, hs₂, hh₂⟩ := hr
    simp only at hp₂ hc₂ hfs₂ hs₂ hh₂ ⊢
    refine (ih (hW₁.steps hs₂) hc₂ (hfs₂.trans hfs₁) (stringsAt_append.1 hargs).1 (by omega)
      (by omega)).mono (fun r hr => ?_) fun e he => he.of_steps (hs₁.trans hs₂)
    obtain ⟨hp₃, hfs₃, hs₃, hh₃⟩ := hr
    refine ⟨by omega, by rw [hfs₃, hfs₂, hfs₁, hfs], (hs₁.trans hs₂).trans hs₃, fun bs hbs => ?_⟩
    have hbs₃ := hh₃ _ (by rw [hp₂]; exact hh₂ _ (hh₁ _ _ hbs))
    rw [hread, hp₂, show c.p.toNat - (x.length + 1) - (flat ss).length =
      c.p.toNat - ((flat ss).length + (x.length + 1)) by omega] at hbs₃
    rw [flat_append, flat_singleton, List.append_assoc]
    exact hbs₃

variable (supply) in
/-- The loop over the strings, where they do not fit. -/
theorem copyLoop_overflow {ss : List (List Byte)} (hW : s.Wf) (hc : c.Ok s)
    (hfs : s.fs = strSeg fromKmem oldFs)
    (hargs : StringsAt (m.of (ptrSeg fromKmem oldFs)) (m.of (strSeg fromKmem oldFs)) argv ss)
    (hover : c.p.toNat < (flat ss).length) (hle : c.p.toNat ≤ MAX_ARG_PAGES * 4096) :
    Post (copyLoop supply m fromKmem oldFs argv ss.length s c) (fun _ => False)
      (fun e => Starved supply oldFs s e ∨ e = .outside 0xFFFFF) := by
  induction ss using List.reverseRecOn generalizing s c with
  | nil => exact absurd hover (Nat.not_lt_zero _)
  | append_singleton ss x ih =>
    obtain ⟨s₁, tmp, hs₁, hW₁, hfs₁, hc₁, -, -, hloop⟩ := copyLoop_succ supply
      hW hc hfs hargs
    rw [flat_length_append] at hover
    rw [List.length_append, List.length_singleton, hloop]
    by_cases hx : x.length + 1 ≤ c.p.toNat
    · refine Post.bind ((copyBytes_spec hW₁ hc₁ hx hle hfs₁).mono (fun _ => id)
        fun e he => .inl (he.of_steps hs₁)) fun r hr => ?_
      obtain ⟨s₂, c₂⟩ := r
      obtain ⟨hp₂, hc₂, hfs₂, hs₂, -⟩ := hr
      simp only at hp₂ hc₂ hfs₂ hs₂ ⊢
      exact (ih (hW₁.steps hs₂) hc₂ (hfs₂.trans hfs₁) (stringsAt_append.1 hargs).1 (by omega)
        (by omega)).mono (fun _ => id) fun e he =>
          he.imp_left fun he => he.of_steps (hs₁.trans hs₂)
    · exact Post.bind ((copyBytes_overflow hW₁ hc₁ (by simp only; omega) hle hfs₁).mono
        (fun _ => id) fun e he => he.imp_left fun he => he.of_steps hs₁) fun _ => False.elim

end Loops

/-! ## `copy_strings` -/

section Strings

open Args

variable {supply : ℕ → Bool} {m : Segments} {fromKmem : ℕ} {s : Args} {argv : Addr}
  {p : BitVec 32} {ss : List (List Byte)}

/-- The array at `argv` points to the strings, each in its segment. -/
def ArgsAt (m : Segments) (fromKmem : ℕ) (s : Args) (argv : Addr) (ss : List (List Byte)) : Prop :=
  StringsAt (m.of (ptrSeg fromKmem s.fs)) (m.of (strSeg fromKmem s.fs)) argv ss

variable (supply) in
/-- The strings are copied to the addresses below `p`, or `get_free_page` found no page. -/
theorem copyStrings_fit (hW : s.Wf) (hle : p.toNat ≤ MAX_ARG_PAGES * 4096)
    (hargs : ArgsAt m fromKmem s argv ss) (hfit : (flat ss).length ≤ p.toNat) :
    ∃ r s', copyStrings supply m fromKmem ss.length argv p s = .ok (r, s') ∧
      Steps supply s s' ∧ s'.fs = s.fs ∧
      ((r.toNat = p.toNat - (flat ss).length ∧
          ∀ bs, s.Holds p.toNat bs → s'.Holds r.toNat (flat ss ++ bs)) ∨
        r = 0 ∧ ¬ s.Plenty supply) := by
  unfold copyStrings
  by_cases hp : p = 0
  · rw [if_pos hp]
    have h0 : flat ss = [] := by
      rw [hp] at hfit
      exact List.length_eq_zero_iff.1 (Nat.le_zero.1 hfit)
    refine ⟨0, s, rfl, .refl, rfl, .inl ⟨by rw [hp]; simp, fun bs hbs => ?_⟩⟩
    rw [h0, ← hp]
    exact hbs
  rw [if_neg hp]
  simp only [Int.toNat_natCast]
  obtain ⟨s₁, he₁, hs₁, hW₁, hfs₁, -, hh₁⟩ := setFs_spec supply fromKmem
    s hW 2 .kernel
  rw [he₁]
  have hloop := copyLoop_spec supply (c := ⟨p, 0, 0, 0⟩) hW₁ (.inl rfl) hfs₁ hargs hfit
    hle
  cases hr : copyLoop supply m fromKmem s.fs argv ss.length s₁ ⟨p, 0, 0, 0⟩ with
  | ok r =>
    obtain ⟨s₂, c₂⟩ := r
    obtain ⟨hp₂, hfs₂, hs₂, hh₂⟩ := hloop.of_ok hr
    simp only at hp₂ hfs₂ hs₂ hh₂ ⊢
    obtain ⟨s₃, he₃, hs₃, -, hfs₃, -, hh₃⟩ := setFs_spec supply fromKmem
      s₂ (hW₁.steps hs₂) 2 s.fs
    rw [he₃]
    refine ⟨_, _, rfl, (hs₁.trans hs₂).trans hs₃, ?_, .inl ⟨hp₂, fun bs hbs => ?_⟩⟩
    · rw [hfs₃, hfs₂, hfs₁]
      split_ifs <;> rfl
    · rw [hp₂]
      exact hh₃ _ _ (hh₂ _ (hh₁ _ _ hbs))
  | error e =>
    have hst := (hloop.of_error hr).of_steps hs₁
    obtain ⟨t, i, ht, -, -, hg, hfs, rfl⟩ := id hst
    exact ⟨0, _, rfl, ht.tail (.fail t hg), hfs, .inr ⟨rfl, hst.not_plenty⟩⟩

/-- Strings that do not fit lead out of the array, if the pages do not run out before. -/
theorem copyStrings_outside (hW : s.Wf) (hle : p.toNat ≤ MAX_ARG_PAGES * 4096)
    (hargs : ArgsAt m fromKmem s argv ss) (hp : p ≠ 0) (hover : p.toNat < (flat ss).length)
    (hplenty : s.Plenty supply) :
    copyStrings supply m fromKmem ss.length argv p s = .error (.outside 0xFFFFF) := by
  unfold copyStrings
  rw [if_neg hp]
  simp only [Int.toNat_natCast]
  obtain ⟨s₁, he₁, hs₁, hW₁, hfs₁, -, -⟩ := setFs_spec supply fromKmem
    s hW 2 .kernel
  rw [he₁]
  have hloop := copyLoop_overflow supply (c := ⟨p, 0, 0, 0⟩) hW₁ (.inl rfl) hfs₁ hargs
    hover hle
  cases hr : copyLoop supply m fromKmem s.fs argv ss.length s₁ ⟨p, 0, 0, 0⟩ with
  | ok r => exact (hloop.of_ok hr).elim
  | error e =>
    rcases hloop.of_error hr with hst | rfl
    · exact absurd hplenty (hst.of_steps hs₁).not_plenty
    · rfl

/-- What the caller of `copy_strings` relies on: it uses no index outside `page[]`, returns 0 where the
strings need all the room there is or more, and otherwise the place of the first of them. -/
def Bounded (supply : ℕ → Bool) (m : Segments) (fromKmem : ℕ) (argv : Addr) (p : BitVec 32)
    (s : Args) (ss : List (List Byte)) : Prop :=
  ∃ r s', copyStrings supply m fromKmem ss.length argv p s = .ok (r, s') ∧
    (p.toNat ≤ (flat ss).length → r = 0) ∧
    ((flat ss).length < p.toNat →
      r.toNat = p.toNat - (flat ss).length ∧ s'.Holds r.toNat (flat ss))

/-- **Argument copying is bounded where the strings fit.** If `p` is zero or the strings with their
terminators are not longer than `p`, no index outside `page[]` is used whatever `get_free_page`
returns. With enough free pages the result is the specified one in these cases and in no others. -/
theorem copyStrings_bounded_iff (hW : s.Wf) (hle : p.toNat ≤ MAX_ARG_PAGES * 4096)
    (hargs : ArgsAt m fromKmem s argv ss) :
    ((p = 0 ∨ (flat ss).length ≤ p.toNat) →
      ∃ r s', copyStrings supply m fromKmem ss.length argv p s = .ok (r, s')) ∧
    (s.Plenty supply →
      (Bounded supply m fromKmem argv p s ss ↔ p = 0 ∨ (flat ss).length ≤ p.toNat)) := by
  refine ⟨?_, fun hplenty => ⟨?_, ?_⟩⟩
  · rintro (rfl | hfit)
    · exact ⟨0, s, if_pos rfl⟩
    · obtain ⟨r, s', h, -⟩ := copyStrings_fit supply hW hle hargs hfit
      exact ⟨r, s', h⟩
  · rintro ⟨r, s', h, -⟩
    by_contra hc
    push Not at hc
    rw [copyStrings_outside hW hle hargs hc.1 hc.2 hplenty] at h
    cases h
  · rintro (rfl | hfit)
    · exact ⟨0, s, if_pos rfl, fun _ => rfl, fun h => absurd h (Nat.not_lt_zero _)⟩
    · obtain ⟨r, s', h, -, -, hr⟩ := copyStrings_fit supply hW hle hargs hfit
      obtain ⟨hr, hh⟩ := hr.resolve_right fun hx => hx.2 hplenty
      refine ⟨r, s', h, fun hge => BitVec.eq_of_toNat_eq ?_, fun _ => ⟨hr, ?_⟩⟩
      · rw [hr]
        simp
        omega
      · have := hh [] trivial
        rwa [List.append_nil] at this

/-! ## One long argument -/

/-- A user segment with `n` letters from 0x1000 on and, at 0x800000, a pointer to them. -/
def letters (n : ℕ) : Memory :=
  putLong (fun a => if a.toNat < 0x1000 + n then 0x61 else 0) 0x800000 0x1000

/-- The start of `do_execve` on a machine with 3072 free pages. -/
def idle : Args := ⟨Mm.boot.mem, fun _ => 0, .user, 0⟩

theorem idle_wf : idle.Wf := .start rfl

theorem idle_plenty : idle.Plenty fun _ => true := by
  refine ⟨fun _ => rfl, ?_⟩
  refine Finset.card_le_card_of_injOn (fun i => 768 + i) (fun i hi => ?_)
    fun i _ j _ h => Nat.add_left_cancel h
  have hlt : i < 32 := Finset.mem_range.1 (Finset.mem_filter.1 (Finset.mem_coe.1 hi)).1
  refine Finset.mem_coe.2 (Finset.mem_filter.2 ⟨Finset.mem_range.2 ?_, ?_⟩)
  · show 768 + i < 15 * 1024 * 1024 / 4096
    omega
  · show (if 1024 ≤ Mm.lowPages + (768 + i) ∧ Mm.lowPages + (768 + i) < 4096 then 0
      else Mm.USED) = 0
    unfold Mm.lowPages
    rw [if_pos (by omega)]

theorem letters_args {n : ℕ} (hn : n < 0x100000) :
    ArgsAt ⟨letters n, letters n⟩ 0 idle 0x800000 [List.replicate n 0x61] := by
  have hstr : StringAt (letters n) 0x1000 (List.replicate n 0x61) := by
    refine StringAt.replicate (by decide) (fun k hk => ?_) ?_
    · unfold letters
      rw [putLong_of_le (by bv_omega), if_pos (by bv_omega)]
    · unfold letters
      rw [putLong_of_le (by bv_omega), if_neg (by bv_omega)]
  have hptr : getLong (letters n) 0x800000 = 0x1000 := getLong_putLong
  refine ⟨?_, ?_, trivial⟩
  · show getLong (letters n) 0x800000 ≠ 0
    rw [hptr]
    decide
  · show StringAt (letters n) (getLong (letters n) 0x800000) _
    rw [hptr]
    exact hstr

theorem letters_bounded :
    Bounded (fun _ => true) ⟨letters 3, letters 3⟩ 0 0x800000 0x1FFFC idle
      [List.replicate 3 0x61] :=
  ((copyStrings_bounded_iff idle_wf (by decide) (letters_args (by decide))).2 idle_plenty).2
    (.inr (by decide))

theorem letters_unbounded :
    ¬ Bounded (fun _ => true) ⟨letters 200000, letters 200000⟩ 0 0x800000 0x1FFFC idle
      [List.replicate 200000 0x61] := by
  rintro ⟨r, s', h, -⟩
  have hlen : (flat [List.replicate 200000 (0x61 : Byte)]).length = 200001 := by
    rw [flat_singleton, List.length_append, List.length_replicate, List.length_singleton]
  rw [copyStrings_outside idle_wf (by decide) (letters_args (by decide)) (by decide)
    (by rw [hlen]; decide) idle_plenty] at h
  cases h

end Strings

end Linux011.Execve
