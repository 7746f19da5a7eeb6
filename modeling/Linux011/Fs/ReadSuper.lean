import Linux011.Lib.Count
import Linux011.Lib.Sizes
import Mathlib.Algebra.BigOperators.Fin
import Mathlib.Data.List.FinRange

/-!
# Reading a super block

`read_super` of `fs/super.c` with `get_super`, `put_super` and `check_disk_change`, in a process that
no other comes between. The buffers are the elements of `β`. What each call of `bread` finds is left to
the disk (`Disk`), be it that a block cannot be read, or any bytes.

1. `SuperBlock`, `Disk`, `State`; `bread`, `brelse`.
2. `putSuper`, `checkDiskChange`, `readMap`, `readSuper`.
3. `held`, how many pointers of a super block lead to a buffer. `release_spec`, `readMap_ok` and
`readMap_error`, `checkMaps_spec`, `load_some`.
4. `Sound`, what holds of the table of super blocks at any time. `checkDiskChange_cases`.
5. `readSuper_iff`: which disks are read without harm.
-/

namespace Linux011.Super

/-! ## Data -/

inductive Fault
  /-- A store outside of `s_imap` and `s_zmap`. -/
  | bounds
  /-- A null pointer is followed. -/
  | null
  /-- "Trying to free free buffer" -/
  | freeBuffer
  deriving DecidableEq

/-- An index into `super_block`, of `NR_SUPER` entries. -/
abbrev Sb := Fin 8

abbrev Dev := BitVec 16

/-- The data of a block. -/
abbrev Bytes := ℕ → BitVec 8

structure DSuperBlock where
  sNinodes : BitVec 16
  sNzones : BitVec 16
  sImapBlocks : BitVec 16
  sZmapBlocks : BitVec 16
  sFirstdatazone : BitVec 16
  sLogZoneSize : BitVec 16
  sMaxSize : BitVec 32
  sMagic : BitVec 16

/-- `s_isup` and `s_imount` point into the table of inodes. -/
structure SuperBlock (β : Type*) extends DSuperBlock where
  sImap : Fin 8 → Option β
  sZmap : Fin 8 → Option β
  sDev : Dev
  sIsup : Option (Fin 32)
  sImount : Option (Fin 32)
  sTime : BitVec 32
  sLock : Bool
  sRdOnly : Bool
  sDirt : Bool

def SuperBlock.setMap {β : Type*} (x : SuperBlock β) (z : Bool) (i : Fin 8) (bh : Option β) :
    SuperBlock β :=
  if z then { x with sZmap := Function.update x.sZmap i bh }
  else { x with sImap := Function.update x.sImap i bh }

/-- What the kernel meets. The calls of `bread` in `read_super` are numbered, and each finds a buffer
with the data of the block, or that it cannot be read. -/
structure Disk (β : Type*) where
  rootDev : Dev
  /-- `floppy_change`. -/
  changed : Bool
  read : Dev → ℕ → ℕ → Option (β × Bytes)

structure State (β : Type*) where
  super : Sb → SuperBlock β
  bCount : β → ℕ
  bData : β → Bytes

def word (data : Bytes) (a : ℕ) : BitVec 16 := data (a + 1) ++ data a

/-- `*((struct d_super_block *) bh->b_data)`. -/
def dSuperBlock (data : Bytes) : DSuperBlock where
  sNinodes := word data 0
  sNzones := word data 2
  sImapBlocks := word data 4
  sZmapBlocks := word data 6
  sFirstdatazone := word data 8
  sLogZoneSize := word data 10
  sMaxSize := word data 14 ++ word data 12
  sMagic := word data 16

def major (dev : Dev) : ℕ := dev.toNat / 256

variable {β : Type*} [DecidableEq β]

/-! ## The code -/

namespace State

variable (d : Disk β) (s : State β)

def setSuper (sb : Sb) (x : SuperBlock β) : State β :=
  { s with super := Function.update s.super sb x }

/-- Call number `turn` of `bread`. -/
def bread (dev : Dev) (block turn : ℕ) : Option β × State β :=
  match d.read dev block turn with
  | none => (none, s)
  | some (bh, data) => (some bh, { s with
      bCount := Function.update s.bCount bh (s.bCount bh + 1)
      bData := Function.update s.bData bh data })

def brelse : Option β → Except Fault (State β)
  | none => .ok s
  | some bh =>
    if s.bCount bh = 0 then .error .freeBuffer
    else .ok { s with bCount := Function.update s.bCount bh (s.bCount bh - 1) }

/-- `get_super`. -/
def getSuper (dev : Dev) : Option Sb :=
  if dev = 0 then none else (List.finRange 8).find? fun sb => (s.super sb).sDev = dev

/-- The two loops that release the maps of a super block. -/
def release (sb : Sb) : Except Fault (State β) := do
  let s ← (List.finRange 8).foldlM (fun s i => s.brelse ((s.super sb).sImap i)) s
  (List.finRange 8).foldlM (fun s i => s.brelse ((s.super sb).sZmap i)) s

/-- `free_super`. -/
def freeSuper (sb : Sb) : State β :=
  s.setSuper sb { s.super sb with sLock := false }

/-- `put_super`. -/
def putSuper (dev : Dev) : Except Fault (State β) :=
  if dev = d.rootDev then .ok s
  else
    match s.getSuper dev with
    | none => .ok s
    | some sb =>
      if (s.super sb).sImount.isSome then .ok s
      else do
        let s ← (s.setSuper sb { s.super sb with sLock := true, sDev := 0 }).release sb
        return s.freeSuper sb

/-- `check_disk_change`, as far as it concerns super blocks. -/
def checkDiskChange (dev : Dev) : Except Fault (State β) :=
  if major dev ≠ 2 ∨ d.changed = false then .ok s
  else (List.finRange 8).foldlM
    (fun s i => if (s.super i).sDev = dev then s.putSuper d dev else .ok s) s

/-- `s->s_imap[i] = bh`, or `s->s_zmap[i] = bh` if `z`. -/
def setMap (sb : Sb) (z : Bool) (i : ℕ) (bh : Option β) : Except Fault (State β) :=
  if h : i < 8 then .ok (s.setSuper sb ((s.super sb).setMap z ⟨i, h⟩ bh)) else .error .bounds

/-- A loop over the blocks of a map, of which so many are left: the block and the call of `bread` that
come next, too. -/
def readMap (sb : Sb) (z : Bool) (dev : Dev) :
    ℕ → ℕ → ℕ → ℕ → State β → Except Fault (ℕ × ℕ × State β)
  | 0, _, block, turn, s => .ok (block, turn, s)
  | n + 1, i, block, turn, s =>
    let (bh, s) := s.bread d dev block turn
    do
      let s ← s.setMap sb z i bh
      if bh.isSome then readMap sb z dev n (i + 1) (block + 1) (turn + 1) s
      else return (block, turn + 1, s)

/-- `p->b_data[0] |= 1`. -/
def markFirst : Option β → Except Fault (State β)
  | none => .error .null
  | some bh => .ok { s with
      bData := Function.update s.bData bh (Function.update (s.bData bh) 0 (s.bData bh 0 ||| 1)) }

/-- The slot is given up. -/
def giveUp (sb : Sb) : State β :=
  (s.setSuper sb { s.super sb with sDev := 0 }).freeSuper sb

/-- `read_super` from the test of `block` on. -/
def checkMaps (sb : Sb) (block : ℕ) : Except Fault (Option Sb × State β) :=
  let x := s.super sb
  if block ≠ 2 + x.sImapBlocks.toNat + x.sZmapBlocks.toNat then do
    let s ← s.release sb
    return (none, s.giveUp sb)
  else do
    let s ← s.markFirst (x.sImap 0)
    let s ← s.markFirst (x.sZmap 0)
    return (some sb, s.freeSuper sb)

/-- The two loops that clear the maps. -/
def clearMaps (sb : Sb) : State β :=
  s.setSuper sb { s.super sb with sImap := fun _ => none, sZmap := fun _ => none }

/-- `read_super` from `s->s_imap[i] = NULL` on. -/
def readMaps (sb : Sb) (dev : Dev) : Except Fault (Option Sb × State β) :=
  let x := s.super sb
  let s := s.clearMaps sb
  do
    let (block, turn, s) ← readMap d sb false dev x.sImapBlocks.toNat 0 2 1 s
    let (block, _, s) ← readMap d sb true dev x.sZmapBlocks.toNat 0 block turn s
    s.checkMaps sb block

/-- `read_super` once it has a slot. -/
def load (sb : Sb) (dev : Dev) : Except Fault (Option Sb × State β) :=
  let s := s.setSuper sb { s.super sb with
    sDev := dev
    sIsup := none
    sImount := none
    sTime := 0
    sRdOnly := false
    sDirt := false
    sLock := true }
  let (bh, s) := s.bread d dev 1 0
  match bh with
  | none => .ok (none, s.giveUp sb)
  | some bh => do
    let s := s.setSuper sb { s.super sb with toDSuperBlock := dSuperBlock (s.bData bh) }
    let s ← s.brelse (some bh)
    if (s.super sb).sMagic ≠ 0x137f then return (none, s.giveUp sb)
    else s.readMaps d sb dev

/-- `read_super`. -/
def readSuper (dev : Dev) : Except Fault (Option Sb × State β) :=
  if dev = 0 then .ok (none, s)
  else do
    let s ← s.checkDiskChange d dev
    match s.getSuper dev with
    | some sb => return (some sb, s)
    | none =>
      match (List.finRange 8).find? fun sb => (s.super sb).sDev = 0 with
      | none => return (none, s)
      | some sb => s.load d sb dev

end State

/-! ## Releasing -/

/-- Whether the pointer leads to `b`. -/
def occ (p : Option β) (b : β) : ℕ := if p = some b then 1 else 0

theorem occ_none {b : β} : occ none b = 0 := if_neg nofun

namespace SuperBlock

variable (x : SuperBlock β)

/-- How many pointers of the maps lead to `b`. -/
def held (b : β) : ℕ := ∑ i, occ (x.sImap i) b + ∑ i, occ (x.sZmap i) b

/-- The one map, or the other. -/
def map (z : Bool) : Fin 8 → Option β := if z then x.sZmap else x.sImap

variable {x} {z : Bool} {i : Fin 8} {bh : Option β}

theorem held_setMap (b : β) :
    (x.setMap z i bh).held b + occ (x.map z i) b = x.held b + occ bh b := by
  cases z with
  | false =>
    have h := Count.sum_update x.sImap (fun p => occ p b) i bh
    change ∑ j, occ (Function.update x.sImap i bh j) b + ∑ j, occ (x.sZmap j) b +
      occ (x.sImap i) b = x.held b + occ bh b
    unfold held
    omega
  | true =>
    have h := Count.sum_update x.sZmap (fun p => occ p b) i bh
    change ∑ j, occ (x.sImap j) b + ∑ j, occ (Function.update x.sZmap i bh j) b +
      occ (x.sZmap i) b = x.held b + occ bh b
    unfold held
    omega

omit [DecidableEq β] in
theorem map_setMap : (x.setMap z i bh).map z = Function.update (x.map z) i bh := by
  cases z <;> rfl

omit [DecidableEq β] in
theorem map_setMap_not : (x.setMap z i bh).map (!z) = x.map (!z) := by
  cases z <;> rfl

omit [DecidableEq β] in
theorem disk_setMap : (x.setMap z i bh).toDSuperBlock = x.toDSuperBlock ∧
    (x.setMap z i bh).sDev = x.sDev := by
  cases z <;> exact ⟨rfl, rfl⟩

end SuperBlock

namespace State

variable {d : Disk β} {s s' : State β} {sb k : Sb} {dev : Dev} {c : β → ℕ}

theorem release_list (field : SuperBlock β → Fin 8 → Option β) {l : List (Fin 8)}
    (h : ∀ b, s.bCount b = c b + (l.map fun i => occ (field (s.super sb) i) b).sum) :
    l.foldlM (fun s i => s.brelse (field (s.super sb) i)) s = .ok { s with bCount := c } := by
  induction l generalizing s with
  | nil =>
    have hc : s.bCount = c := funext h
    rw [← hc]
    rfl
  | cons i l ih =>
    rw [List.foldlM_cons]
    cases hp : field (s.super sb) i with
    | none =>
      refine ih fun b => ?_
      have hb := h b
      rw [List.map_cons, List.sum_cons, hp] at hb
      unfold occ at hb
      rw [if_neg nofun, Nat.zero_add] at hb
      exact hb
    | some bh =>
      have hne : s.bCount bh ≠ 0 := by
        have hb := h bh
        rw [List.map_cons, List.sum_cons, hp] at hb
        unfold occ at hb
        rw [if_pos rfl] at hb
        omega
      obtain ⟨t, ht⟩ : ∃ t : State β, t =
          { s with bCount := Function.update s.bCount bh (s.bCount bh - 1) } := ⟨_, rfl⟩
      have hbr : s.brelse (some bh) = .ok t := by
        unfold brelse
        dsimp only
        rw [if_neg hne, ht]
      rw [hbr]
      have hrest := ih (s := t) fun b => by
        have hb := h b
        rw [List.map_cons, List.sum_cons, hp] at hb
        have hsuper : t.super = s.super := by rw [ht]
        have hcount : t.bCount = Function.update s.bCount bh (s.bCount bh - 1) := by rw [ht]
        rw [hsuper, hcount]
        unfold occ at hb ⊢
        by_cases hbb : b = bh
        · subst hbb
          rw [if_pos rfl] at hb
          rw [Function.update_self]
          omega
        · rw [if_neg fun e => hbb (Option.some.inj e).symm, Nat.zero_add] at hb
          rw [Function.update_of_ne hbb]
          exact hb
      refine hrest.trans ?_
      rw [ht]

/-- The pointers of a super block are given back. -/
theorem release_spec (h : ∀ b, s.bCount b = c b + (s.super sb).held b) :
    s.release sb = .ok { s with bCount := c } := by
  obtain ⟨c₁, hc₁⟩ : ∃ c₁ : β → ℕ, c₁ = fun b => c b + ∑ i, occ ((s.super sb).sZmap i) b := ⟨_, rfl⟩
  have h₁ : (List.finRange 8).foldlM (fun s i => s.brelse ((s.super sb).sImap i)) s =
      .ok { s with bCount := c₁ } :=
    release_list (fun x => x.sImap) fun b => by
      rw [← Fin.sum_univ_def, h, hc₁]
      unfold SuperBlock.held
      dsimp only
      omega
  unfold release
  rw [h₁]
  refine (release_list (s := { s with bCount := c₁ }) (fun x => x.sZmap) (c := c) fun b => ?_)
  rw [← Fin.sum_univ_def, hc₁]

end State

/-! ## Reading a map -/

/-- How many of the first `n` hold, up to one that does not. -/
def leading (f : ℕ → Bool) : ℕ → ℕ
  | 0 => 0
  | n + 1 => if f 0 then leading (fun k => f (k + 1)) n + 1 else 0

theorem leading_le {f : ℕ → Bool} {n : ℕ} : leading f n ≤ n := by
  induction n generalizing f with
  | zero => exact le_rfl
  | succ n ih =>
    unfold leading
    split_ifs
    · exact Nat.succ_le_succ ih
    · exact Nat.zero_le _

/-- How many of `n` blocks from `block` on are read, one after the other. -/
def Disk.readable (d : Disk β) (dev : Dev) (block turn n : ℕ) : ℕ :=
  leading (fun k => (d.read dev (block + k) (turn + k)).isSome) n

namespace State

variable {d : Disk β} {s s' : State β} {sb k : Sb} {dev : Dev} {c : β → ℕ} {z : Bool}
  {n i block turn : ℕ}

omit [DecidableEq β] in
theorem readable_none (h : d.read dev block turn = none) :
    d.readable dev block turn (n + 1) = 0 := by
  unfold Disk.readable leading
  rw [if_neg (by rw [Nat.add_zero, Nat.add_zero, h]; exact Bool.false_ne_true)]

omit [DecidableEq β] in
theorem readable_some {x : β × Bytes} (h : d.read dev block turn = some x) :
    d.readable dev block turn (n + 1) = d.readable dev (block + 1) (turn + 1) n + 1 := by
  have hshift : (fun k => (d.read dev (block + (k + 1)) (turn + (k + 1))).isSome) =
      fun k => (d.read dev (block + 1 + k) (turn + 1 + k)).isSome := by
    funext k
    rw [Nat.add_assoc, Nat.add_comm 1 k, Nat.add_assoc, Nat.add_comm 1 k]
  unfold Disk.readable
  rw [leading, if_pos (by rw [Nat.add_zero, Nat.add_zero, h]; rfl), hshift]

/-- From `s` to `s'` the map `z` of `sb` has got `a` blocks, at its entries from `i` on. The buffers
are counted by `c`, and by the pointers of `sb`. -/
structure Mapped (c : β → ℕ) (sb : Sb) (z : Bool) (i a : ℕ) (s s' : State β) : Prop where
  other : ∀ j, j ≠ sb → s'.super j = s.super j
  disk : (s'.super sb).toDSuperBlock = (s.super sb).toDSuperBlock ∧
    (s'.super sb).sDev = (s.super sb).sDev
  map : (s'.super sb).map (!z) = (s.super sb).map (!z)
  below : ∀ j : Fin 8, j.val < i → (s'.super sb).map z j = (s.super sb).map z j
  read : ∀ j : Fin 8, i ≤ j.val → ((s'.super sb).map z j ≠ none ↔ j.val < i + a)
  count : ∀ b, s'.bCount b = c b + (s'.super sb).held b

omit [DecidableEq β] in
theorem setSuper_self {x : SuperBlock β} : (s.setSuper sb x).super sb = x :=
  Function.update_self _ _ _

omit [DecidableEq β] in
theorem setSuper_of_ne {x : SuperBlock β} {j : Sb} (h : j ≠ sb) :
    (s.setSuper sb x).super j = s.super j :=
  Function.update_of_ne h _ _

/-- An entry that was null gets a buffer, which has been counted. -/
theorem count_setMap {t : State β} {j : Fin 8} {bh : Option β}
    (hbh : ∀ b, t.bCount b = s.bCount b + occ bh b)
    (hcount : ∀ b, s.bCount b = c b + (s.super sb).held b) (hnone : (s.super sb).map z j = none)
    (b : β) : t.bCount b = c b + ((s.super sb).setMap z j bh).held b := by
  have hheld : ((s.super sb).setMap z j bh).held b + occ ((s.super sb).map z j) b =
      (s.super sb).held b + occ bh b := SuperBlock.held_setMap b
  rw [hnone, occ_none] at hheld
  rw [hbh, hcount]
  omega

/-- The first block cannot be read. -/
theorem Mapped.failed (hi8 : i < 8) (hcount : ∀ b, s.bCount b = c b + (s.super sb).held b)
    (hnone : ∀ j : Fin 8, i ≤ j.val → (s.super sb).map z j = none) :
    Mapped c sb z i 0 s (s.setSuper sb ((s.super sb).setMap z ⟨i, hi8⟩ none)) := by
  have hmap : ((s.super sb).setMap z ⟨i, hi8⟩ none).map z =
      Function.update ((s.super sb).map z) ⟨i, hi8⟩ none := SuperBlock.map_setMap
  refine ⟨fun j hj => setSuper_of_ne hj, ?_, ?_, fun j hj => ?_,
    fun j hj => iff_of_false (not_not.2 ?_) (not_lt.2 hj), fun b => ?_⟩
  · rw [setSuper_self]
    exact SuperBlock.disk_setMap
  · rw [setSuper_self]
    exact SuperBlock.map_setMap_not
  · rw [setSuper_self, hmap, Function.update_of_ne]
    rintro rfl
    exact lt_irrefl _ hj
  · rw [setSuper_self, hmap]
    by_cases hji : j = ⟨i, hi8⟩
    · rw [hji, Function.update_self]
    · rw [Function.update_of_ne hji]
      exact hnone j hj
  · rw [setSuper_self]
    exact count_setMap (t := s) (fun b => by rw [occ_none, Nat.add_zero]) hcount (hnone _ le_rfl) b

/-- The first block is read, and then the others. -/
theorem Mapped.cons {t : State β} {bh : β} {a : ℕ} (hi8 : i < 8) (ht : t.super = s.super)
    (h : Mapped c sb z (i + 1) a (t.setSuper sb ((s.super sb).setMap z ⟨i, hi8⟩ (some bh))) s') :
    Mapped c sb z i (a + 1) s s' := by
  have hmap : ((s.super sb).setMap z ⟨i, hi8⟩ (some bh)).map z =
      Function.update ((s.super sb).map z) ⟨i, hi8⟩ (some bh) := SuperBlock.map_setMap
  refine ⟨fun j hj => ?_, ?_, ?_, fun j hj => ?_, fun j hj => ?_, h.count⟩
  · rw [h.other j hj, setSuper_of_ne hj, ht]
  · rw [h.disk.1, h.disk.2, setSuper_self]
    exact SuperBlock.disk_setMap
  · rw [h.map, setSuper_self]
    exact SuperBlock.map_setMap_not
  · rw [h.below j (by omega), setSuper_self, hmap, Function.update_of_ne]
    rintro rfl
    exact lt_irrefl _ hj
  · by_cases hji : j = ⟨i, hi8⟩
    · rw [hji, h.below _ (Nat.lt_succ_self i), setSuper_self, hmap, Function.update_self]
      exact iff_of_true nofun (by simp)
    · have hne : j.val ≠ i := fun e => hji (Fin.ext e)
      rw [h.read j (by omega)]
      omega

/-- A loop that stays within the array. -/
theorem readMap_ok (hcount : ∀ b, s.bCount b = c b + (s.super sb).held b)
    (hnone : ∀ j : Fin 8, i ≤ j.val → (s.super sb).map z j = none)
    (hi : i + min n (d.readable dev block turn n + 1) ≤ 8) :
    ∃ s', readMap d sb z dev n i block turn s =
      .ok (block + d.readable dev block turn n,
        turn + min n (d.readable dev block turn n + 1), s') ∧
      Mapped c sb z i (d.readable dev block turn n) s s' := by
  induction n generalizing i block turn s with
  | zero =>
    refine ⟨s, by unfold readMap; simp [Disk.readable, leading], fun _ _ => rfl, ⟨rfl, rfl⟩, rfl,
      fun _ _ => rfl, fun j hj => iff_of_false (not_not.2 (hnone j hj)) ?_, hcount⟩
    exact not_lt.2 hj
  | succ n ih =>
    cases hr : d.read dev block turn with
    | none =>
      rw [readable_none hr] at hi ⊢
      have hi8 : i < 8 := by omega
      have hmin : min (n + 1) (0 + 1) = 1 := by omega
      have hbread : s.bread d dev block turn = (none, s) := by
        unfold bread
        rw [hr]
      refine ⟨_, ?_, .failed hi8 hcount hnone⟩
      unfold readMap
      rw [hbread, hmin]
      unfold setMap
      dsimp only
      rw [dif_pos hi8]
      rfl
    | some r =>
      obtain ⟨bh, data⟩ := r
      rw [readable_some hr] at hi ⊢
      have hi8 : i < 8 := by omega
      obtain ⟨t, ht⟩ : ∃ t : State β, t = { s with
          bCount := Function.update s.bCount bh (s.bCount bh + 1)
          bData := Function.update s.bData bh data } := ⟨_, rfl⟩
      have hsuper : t.super = s.super := by rw [ht]
      have hbread : s.bread d dev block turn = (some bh, t) := by
        unfold bread
        rw [hr, ht]
      have hbh : ∀ b, t.bCount b = s.bCount b + occ (some bh) b := by
        intro b
        rw [ht]
        unfold occ
        by_cases hb : b = bh
        · rw [hb, if_pos rfl]
          exact Function.update_self _ _ _
        · rw [if_neg fun e => hb (Option.some.inj e).symm]
          exact Function.update_of_ne hb _ _
      obtain ⟨x, hx⟩ : ∃ x, x = (s.super sb).setMap z ⟨i, hi8⟩ (some bh) := ⟨_, rfl⟩
      have htx : t.setMap sb z i (some bh) = .ok (t.setSuper sb x) := by
        unfold setMap
        rw [dif_pos hi8, hx, hsuper]
      have hcount' : ∀ b, (t.setSuper sb x).bCount b = c b + ((t.setSuper sb x).super sb).held b := by
        intro b
        rw [setSuper_self, hx]
        exact count_setMap hbh hcount (hnone _ le_rfl) b
      have hnone' : ∀ j : Fin 8, i + 1 ≤ j.val → ((t.setSuper sb x).super sb).map z j = none := by
        intro j hj
        rw [setSuper_self, hx, SuperBlock.map_setMap, Function.update_of_ne]
        · exact hnone j (by omega)
        · rintro rfl
          exact absurd hj (Nat.not_succ_le_self i)
      have hi' : i + 1 + min n (d.readable dev (block + 1) (turn + 1) n + 1) ≤ 8 := by omega
      obtain ⟨s', hs', hm⟩ := ih hcount' hnone' hi'
      refine ⟨s', ?_, .cons (t := t) hi8 hsuper (hx ▸ hm)⟩
      unfold readMap
      rw [hbread]
      dsimp only
      rw [htx]
      refine hs'.trans ?_
      congr 2
      · omega
      · congr 1
        omega

/-- A loop that leaves the array. -/
theorem readMap_error (hi : i ≤ 8) (h : 8 < i + min n (d.readable dev block turn n + 1)) :
    readMap d sb z dev n i block turn s = .error .bounds := by
  induction n generalizing i block turn s with
  | zero => omega
  | succ n ih =>
    unfold readMap
    rcases hb : s.bread d dev block turn with ⟨bh, t⟩
    dsimp only
    by_cases hi8 : i < 8
    · cases hr : d.read dev block turn with
      | none =>
        rw [readable_none hr] at h
        omega
      | some r =>
        rw [readable_some hr] at h
        have hbh : bh = some r.1 := by
          unfold bread at hb
          rw [hr] at hb
          exact (congrArg Prod.fst hb).symm
        unfold setMap
        rw [dif_pos hi8, hbh]
        exact ih (by omega) (by omega)
    · unfold setMap
      rw [dif_neg hi8]
      rfl

end State

/-! ## The map blocks of a disk -/

namespace Disk

variable (d : Disk β) (dev : Dev) (x : DSuperBlock)

/-- How many blocks of the inode map are read. -/
def imapRead : ℕ := d.readable dev 2 1 x.sImapBlocks.toNat

/-- How many blocks of the zone map are read, from the block on where the first loop has stopped. -/
def zmapRead : ℕ :=
  d.readable dev (2 + d.imapRead dev x)
    (1 + min x.sImapBlocks.toNat (d.imapRead dev x + 1)) x.sZmapBlocks.toNat

/-- All blocks of both maps are read. -/
def Whole : Prop :=
  d.imapRead dev x = x.sImapBlocks.toNat ∧ d.zmapRead dev x = x.sZmapBlocks.toNat

/-- The super block on the disk, if it can be read and has the magic number. -/
def accepted : Option DSuperBlock :=
  match d.read dev 1 0 with
  | none => none
  | some (_, data) =>
    if (dSuperBlock data).sMagic = 0x137f then some (dSuperBlock data) else none

/-- No more blocks are read than there are slots, and if all are read, each map has one. -/
structure Fits : Prop where
  imap : x.sImapBlocks.toNat ≤ 8 ∨ d.imapRead dev x < 8
  zmap : x.sZmapBlocks.toNat ≤ 8 ∨ d.zmapRead dev x < 8
  first : d.Whole dev x → x.sImapBlocks.toNat ≠ 0 ∧ x.sZmapBlocks.toNat ≠ 0

end Disk

namespace State

variable {d : Disk β} {s s' : State β} {sb k : Sb} {dev : Dev} {c : β → ℕ}

/-- The slot has been given up, and all buffers have been given back. -/
def Undone (sb : Sb) (s s' : State β) : Prop :=
  s'.bCount = s.bCount ∧ (∀ j, j ≠ sb → s'.super j = s.super j) ∧ (s'.super sb).sDev = 0 ∧
    (s'.super sb).sLock = false

omit [DecidableEq β] in
theorem giveUp_undone {s₀ : State β} (hcount : s.bCount = s₀.bCount)
    (hother : ∀ j, j ≠ sb → s.super j = s₀.super j) : Undone sb s₀ (s.giveUp sb) := by
  refine ⟨hcount, fun j hj => ?_, ?_, ?_⟩
  · unfold giveUp freeSuper
    rw [setSuper_of_ne hj, setSuper_of_ne hj]
    exact hother j hj
  · unfold giveUp freeSuper
    rw [setSuper_self, setSuper_self]
  · unfold giveUp freeSuper
    rw [setSuper_self]

omit [DecidableEq β] in
theorem clearMaps_self :
    (s.clearMaps sb).super sb = { s.super sb with sImap := fun _ => none, sZmap := fun _ => none } :=
  setSuper_self

/-- The loop over the inode map, when it stays within its array. -/
theorem readImap_ok {x : DSuperBlock} (sb : Sb) (himap : x.sImapBlocks.toNat ≤ 8 ∨ d.imapRead dev x < 8) :
    ∃ s' : State β, readMap d sb false dev x.sImapBlocks.toNat 0 2 1 (s.clearMaps sb) =
        .ok (2 + d.imapRead dev x, 1 + min x.sImapBlocks.toNat (d.imapRead dev x + 1), s') ∧
      Mapped s.bCount sb false 0 (d.imapRead dev x) (s.clearMaps sb) s' := by
  have hheld : ∀ b, (s.clearMaps sb).bCount b = s.bCount b + ((s.clearMaps sb).super sb).held b := by
    intro b
    have hz : ((s.clearMaps sb).super sb).held b = 0 := by
      rw [clearMaps_self]
      unfold SuperBlock.held occ
      simp
    rw [hz]
    rfl
  have hi : 0 + min x.sImapBlocks.toNat (d.readable dev 2 1 x.sImapBlocks.toNat + 1) ≤ 8 := by
    unfold Disk.imapRead at himap
    omega
  exact readMap_ok hheld (fun j _ => by rw [clearMaps_self]; rfl) hi

/-- The two loops, when they stay within the arrays. -/
theorem readMaps_ok {x : DSuperBlock} (hx : (s.super sb).toDSuperBlock = x)
    (himap : x.sImapBlocks.toNat ≤ 8 ∨ d.imapRead dev x < 8)
    (hzmap : x.sZmapBlocks.toNat ≤ 8 ∨ d.zmapRead dev x < 8) :
    ∃ s' : State β,
      s.readMaps d sb dev = s'.checkMaps sb (2 + d.imapRead dev x + d.zmapRead dev x) ∧
      (∀ j, j ≠ sb → s'.super j = s.super j) ∧
      ((s'.super sb).toDSuperBlock = x ∧ (s'.super sb).sDev = (s.super sb).sDev) ∧
      (∀ b, s'.bCount b = s.bCount b + (s'.super sb).held b) ∧
      ((s'.super sb).sImap 0 ≠ none ↔ 0 < d.imapRead dev x) ∧
      ((s'.super sb).sZmap 0 ≠ none ↔ 0 < d.zmapRead dev x) := by
  obtain ⟨s₁, h₁, hm₁⟩ := readImap_ok (s := s) sb himap
  have hnone : ∀ j : Fin 8, 0 ≤ j.val → (s₁.super sb).map true j = none := by
    intro j _
    have h := congrFun hm₁.map j
    rw [clearMaps_self] at h
    exact h
  have hz : 0 + min x.sZmapBlocks.toNat (d.readable dev (2 + d.imapRead dev x)
      (1 + min x.sImapBlocks.toNat (d.imapRead dev x + 1)) x.sZmapBlocks.toNat + 1) ≤ 8 := by
    unfold Disk.zmapRead at hzmap
    omega
  obtain ⟨s₂, h₂, hm₂⟩ := readMap_ok (z := true) hm₁.count hnone hz
  refine ⟨s₂, ?_, fun j hj => ?_, ?_, hm₂.count, ?_, ?_⟩
  · unfold readMaps
    dsimp only
    rw [hx]
    refine (congrArg (· >>= _) h₁).trans ?_
    exact congrArg (fun r => r >>= fun y => y.2.2.checkMaps sb y.1) h₂
  · rw [hm₂.other j hj, hm₁.other j hj]
    exact setSuper_of_ne hj
  · rw [hm₂.disk.1, hm₂.disk.2, hm₁.disk.1, hm₁.disk.2, clearMaps_self]
    exact ⟨hx, rfl⟩
  · have h1 := congrFun hm₂.map 0
    have h2 := hm₁.read 0 (Nat.zero_le _)
    change (s₂.super sb).sImap 0 = (s₁.super sb).sImap 0 at h1
    change (s₁.super sb).sImap 0 ≠ none ↔ 0 < 0 + _ at h2
    rw [h1, h2, Nat.zero_add]
  · have h2 := hm₂.read 0 (Nat.zero_le _)
    change (s₂.super sb).sZmap 0 ≠ none ↔ 0 < 0 + _ at h2
    rw [h2, Nat.zero_add]
    rfl

/-- The loops, when one of them leaves its array. -/
theorem readMaps_error {x : DSuperBlock} (hx : (s.super sb).toDSuperBlock = x)
    (h : ¬ ((x.sImapBlocks.toNat ≤ 8 ∨ d.imapRead dev x < 8) ∧
      (x.sZmapBlocks.toNat ≤ 8 ∨ d.zmapRead dev x < 8))) :
    s.readMaps d sb dev = .error .bounds := by
  have h1 : d.imapRead dev x ≤ x.sImapBlocks.toNat := leading_le
  have h2 : d.zmapRead dev x ≤ x.sZmapBlocks.toNat := leading_le
  unfold readMaps
  dsimp only
  rw [hx]
  by_cases himap : x.sImapBlocks.toNat ≤ 8 ∨ d.imapRead dev x < 8
  · obtain ⟨s₁, h₁, -⟩ := readImap_ok (s := s) sb himap
    rw [h₁]
    have hlong : 8 < 0 + min x.sZmapBlocks.toNat (d.readable dev (2 + d.imapRead dev x)
        (1 + min x.sImapBlocks.toNat (d.imapRead dev x + 1)) x.sZmapBlocks.toNat + 1) := by
      have hz : ¬ (x.sZmapBlocks.toNat ≤ 8 ∨ d.zmapRead dev x < 8) := fun hz => h ⟨himap, hz⟩
      unfold Disk.zmapRead at hz h2
      omega
    exact congrArg (fun r => r >>= fun y => y.2.2.checkMaps sb y.1)
      (readMap_error (s := s₁) (Nat.zero_le 8) hlong)
  · have hlong : 8 < 0 + min x.sImapBlocks.toNat (d.readable dev 2 1 x.sImapBlocks.toNat + 1) := by
      unfold Disk.imapRead at himap h1
      omega
    rw [readMap_error (Nat.zero_le 8) hlong]
    rfl

/-- The slot has been taken by the device of `sb`, with the maps. -/
def Loaded (sb : Sb) (s s' : State β) : Prop :=
  s'.bCount = s.bCount ∧ (∀ j, j ≠ sb → s'.super j = s.super j) ∧
    (s'.super sb).sDev = (s.super sb).sDev ∧ ∀ b, (s'.super sb).held b = (s.super sb).held b

/-- What is read harmlessly, and whether all of it is. -/
theorem checkMaps_spec {x : DSuperBlock} {s₀ : State β} (hx : (s.super sb).toDSuperBlock = x)
    (hother : ∀ j, j ≠ sb → s.super j = s₀.super j)
    (hcount : ∀ b, s.bCount b = s₀.bCount b + (s.super sb).held b)
    (himap : (s.super sb).sImap 0 ≠ none ↔ 0 < d.imapRead dev x)
    (hzmap : (s.super sb).sZmap 0 ≠ none ↔ 0 < d.zmapRead dev x) :
    (¬ d.Whole dev x ∧
      ∃ s', s.checkMaps sb (2 + d.imapRead dev x + d.zmapRead dev x) = .ok (none, s') ∧
        Undone sb s₀ s') ∨
    (d.Whole dev x ∧ if x.sImapBlocks.toNat ≠ 0 ∧ x.sZmapBlocks.toNat ≠ 0 then
      ∃ s', s.checkMaps sb (2 + d.imapRead dev x + d.zmapRead dev x) = .ok (some sb, s') ∧
        Loaded sb s s'
      else s.checkMaps sb (2 + d.imapRead dev x + d.zmapRead dev x) = .error .null) := by
  have h1 : d.imapRead dev x ≤ x.sImapBlocks.toNat := leading_le
  have h2 : d.zmapRead dev x ≤ x.sZmapBlocks.toNat := leading_le
  have himapx : (s.super sb).sImapBlocks = x.sImapBlocks := congrArg DSuperBlock.sImapBlocks hx
  have hzmapx : (s.super sb).sZmapBlocks = x.sZmapBlocks := congrArg DSuperBlock.sZmapBlocks hx
  unfold checkMaps
  dsimp only
  rw [himapx, hzmapx]
  by_cases hw : d.Whole dev x
  · refine .inr ⟨hw, ?_⟩
    obtain ⟨hi, hz⟩ := hw
    rw [hi] at himap
    rw [hz] at hzmap
    rw [hi, hz, if_neg (not_not.2 rfl)]
    cases hpi : (s.super sb).sImap 0 with
    | none =>
      have h0 : ¬ 0 < x.sImapBlocks.toNat := fun h => himap.2 h hpi
      rw [if_neg fun h => h0 (Nat.pos_of_ne_zero h.1)]
      rfl
    | some b =>
      have hi0 : 0 < x.sImapBlocks.toNat := himap.1 (by rw [hpi]; nofun)
      cases hpz : (s.super sb).sZmap 0 with
      | none =>
        have h0 : ¬ 0 < x.sZmapBlocks.toNat := fun h => hzmap.2 h hpz
        rw [if_neg fun h => h0 (Nat.pos_of_ne_zero h.2)]
        rfl
      | some b' =>
        have hz0 : 0 < x.sZmapBlocks.toNat := hzmap.1 (by rw [hpz]; nofun)
        rw [if_pos ⟨hi0.ne', hz0.ne'⟩]
        refine ⟨_, rfl, rfl, fun j hj => setSuper_of_ne hj, ?_, fun b => ?_⟩
        · unfold freeSuper
          rw [setSuper_self]
        · unfold freeSuper
          rw [setSuper_self]
          rfl
  · refine .inl ⟨hw, ?_⟩
    have hblock : 2 + d.imapRead dev x + d.zmapRead dev x ≠
        2 + x.sImapBlocks.toNat + x.sZmapBlocks.toNat := by
      intro he
      exact hw ⟨by omega, by omega⟩
    rw [if_pos hblock, release_spec hcount]
    exact ⟨_, rfl, giveUp_undone rfl hother⟩

/-- The slot once the super block has been copied from a buffer. -/
def taken (s : State β) (sb : Sb) (dev : Dev) (bh : β) (data : Bytes) : State β :=
  { s.setSuper sb { s.super sb with
      toDSuperBlock := dSuperBlock data
      sDev := dev
      sIsup := none
      sImount := none
      sTime := 0
      sRdOnly := false
      sDirt := false
      sLock := true } with
    bData := Function.update s.bData bh data }

theorem load_eq {bh : β} {data : Bytes} (h : d.read dev 1 0 = some (bh, data)) :
    s.load d sb dev = if (dSuperBlock data).sMagic ≠ 0x137f then
        .ok (none, (s.taken sb dev bh data).giveUp sb)
      else (s.taken sb dev bh data).readMaps d sb dev := by
  obtain ⟨s₀, h₀⟩ : ∃ s₀, s₀ = s.setSuper sb { s.super sb with
      sDev := dev
      sIsup := none
      sImount := none
      sTime := 0
      sRdOnly := false
      sDirt := false
      sLock := true } := ⟨_, rfl⟩
  obtain ⟨s₁, h₁⟩ : ∃ s₁ : State β, s₁ = { s₀ with
      bCount := Function.update s₀.bCount bh (s₀.bCount bh + 1)
      bData := Function.update s₀.bData bh data } := ⟨_, rfl⟩
  have hbread : s₀.bread d dev 1 0 = (some bh, s₁) := by
    unfold bread
    rw [h, h₁]
  obtain ⟨s₂, h₂⟩ : ∃ s₂ : State β, s₂ = s₁.setSuper sb
      { s₁.super sb with toDSuperBlock := dSuperBlock (s₁.bData bh) } := ⟨_, rfl⟩
  have hcount : s₂.bCount = Function.update s.bCount bh (s.bCount bh + 1) := by
    rw [h₂, h₁, h₀]
    rfl
  have hback : { s₂ with bCount := Function.update s₂.bCount bh (s₂.bCount bh - 1) } =
      s.taken sb dev bh data := by
    rw [hcount, Function.update_self, Nat.add_sub_cancel, Function.update_idem,
      Function.update_eq_self, h₂, h₁, h₀]
    unfold taken setSuper
    simp only [Function.update_self, Function.update_idem]
  have hbrelse : s₂.brelse (some bh) = .ok (s.taken sb dev bh data) := by
    unfold brelse
    dsimp only
    rw [if_neg (by rw [hcount, Function.update_self]; exact Nat.succ_ne_zero _), hback]
  have hself : ((s.taken sb dev bh data).super sb).sMagic = (dSuperBlock data).sMagic := by
    unfold taken
    dsimp only
    rw [setSuper_self]
  unfold load
  dsimp only
  rw [← h₀, hbread]
  dsimp only
  rw [← h₂, hbrelse]
  change (if ((s.taken sb dev bh data).super sb).sMagic ≠ 0x137f then _ else _) = _
  rw [hself]
  rfl

theorem load_none (h : d.accepted dev = none) :
    ∃ s', s.load d sb dev = .ok (none, s') ∧ Undone sb s s' := by
  cases hr : d.read dev 1 0 with
  | none =>
    unfold load bread
    rw [hr]
    exact ⟨_, rfl, giveUp_undone rfl fun j hj => setSuper_of_ne hj⟩
  | some r =>
    obtain ⟨bh, data⟩ := r
    have hmagic : (dSuperBlock data).sMagic ≠ 0x137f := by
      intro hm
      unfold Disk.accepted at h
      rw [hr] at h
      dsimp only at h
      rw [if_pos hm] at h
      exact Option.some_ne_none _ h
    rw [load_eq hr, if_pos hmagic]
    exact ⟨_, rfl, giveUp_undone rfl fun j hj => setSuper_of_ne hj⟩

/-- What comes of a super block that is accepted. -/
theorem load_some (s : State β) (sb : Sb) {x : DSuperBlock} (h : d.accepted dev = some x) :
    (¬ d.Fits dev x ∧ ∃ f, s.load d sb dev = .error f) ∨
    (d.Fits dev x ∧ ¬ d.Whole dev x ∧
      ∃ s', s.load d sb dev = .ok (none, s') ∧ Undone sb s s') ∨
    (d.Fits dev x ∧ d.Whole dev x ∧
      ∃ s', s.load d sb dev = .ok (some sb, s') ∧ (∀ j, j ≠ sb → s'.super j = s.super j) ∧
        (s'.super sb).sDev = dev ∧ ∀ b, s'.bCount b = s.bCount b + (s'.super sb).held b) := by
  unfold Disk.accepted at h
  cases hr : d.read dev 1 0 with
  | none =>
    rw [hr] at h
    cases h
  | some r =>
  obtain ⟨bh, data⟩ := r
  rw [hr] at h
  dsimp only at h
  split at h
  case isFalse => cases h
  rename_i hmagic
  obtain rfl := Option.some.inj h
  rw [load_eq hr, if_neg (not_not.2 hmagic)]
  obtain ⟨t, ht⟩ : ∃ t, t = s.taken sb dev bh data := ⟨_, rfl⟩
  have hx : (t.super sb).toDSuperBlock = dSuperBlock data ∧ (t.super sb).sDev = dev := by
    rw [ht]
    unfold taken
    dsimp only
    rw [setSuper_self]
    exact ⟨rfl, rfl⟩
  have hother : ∀ j, j ≠ sb → t.super j = s.super j := by
    intro j hj
    rw [ht]
    exact setSuper_of_ne hj
  have hcount : t.bCount = s.bCount := by
    rw [ht]
    rfl
  rw [← ht]
  by_cases hfit : ((dSuperBlock data).sImapBlocks.toNat ≤ 8 ∨
      d.imapRead dev (dSuperBlock data) < 8) ∧
    ((dSuperBlock data).sZmapBlocks.toNat ≤ 8 ∨ d.zmapRead dev (dSuperBlock data) < 8)
  · obtain ⟨u, hu, hothu, ⟨hxu, hdevu⟩, hcountu, himap, hzmap⟩ := readMaps_ok hx.1 hfit.1 hfit.2
    rw [hu]
    have hothus : ∀ j, j ≠ sb → u.super j = s.super j :=
      fun j hj => (hothu j hj).trans (hother j hj)
    have hcountus : ∀ b, u.bCount b = s.bCount b + (u.super sb).held b := by
      intro b
      rw [hcountu, hcount]
    obtain ⟨hw, hchk⟩ | ⟨hw, hchk⟩ := checkMaps_spec hxu hothus hcountus himap hzmap
    · exact .inr (.inl ⟨⟨hfit.1, hfit.2, fun h => absurd h hw⟩, hw, hchk⟩)
    · by_cases hfirst : (dSuperBlock data).sImapBlocks.toNat ≠ 0 ∧
        (dSuperBlock data).sZmapBlocks.toNat ≠ 0
      · rw [if_pos hfirst] at hchk
        obtain ⟨s', hs', hcount', hother', hdev', hheld'⟩ := hchk
        refine .inr (.inr ⟨⟨hfit.1, hfit.2, fun _ => hfirst⟩, hw, s', hs', fun j hj => ?_, ?_,
          fun b => ?_⟩)
        · exact (hother' j hj).trans (hothus j hj)
        · rw [hdev', hdevu, hx.2]
        · rw [hheld', hcount', hcountus]
      · rw [if_neg hfirst] at hchk
        exact .inl ⟨fun hf => hfirst (hf.first hw), _, hchk⟩
  · exact .inl ⟨fun hf => hfit ⟨hf.imap, hf.zmap⟩, _, readMaps_error hx.1 hfit⟩

end State

/-! ## A change of disks -/

/-- How many pointers a slot has to account for. -/
def SuperBlock.owned (x : SuperBlock β) (b : β) : ℕ := if x.sDev = 0 then 0 else x.held b

namespace State

variable {d : Disk β} {s s' : State β} {sb k : Sb} {dev : Dev}

/-- No device has two slots, and the buffers of the maps are counted. -/
structure Sound (s : State β) : Prop where
  unique : ∀ j k, (s.super j).sDev ≠ 0 → (s.super j).sDev = (s.super k).sDev → j = k
  owned : ∀ b, ∑ k, (s.super k).owned b ≤ s.bCount b

/-- What the slots add to a `b_count`, which is of 8 bits. -/
theorem owned_le (s : State β) (b : β) : ∑ k, (s.super k).owned b ≤ 128 := by
  have hocc : ∀ p : Option β, occ p b ≤ 1 := fun p => by
    unfold occ
    split_ifs <;> omega
  have hmap : ∀ m : Fin 8 → Option β, ∑ i, occ (m i) b ≤ 8 := fun m =>
    Finset.sum_le_card_nsmul Finset.univ (fun i => occ (m i) b) 1 fun i _ => hocc (m i)
  have hslot : ∀ k, (s.super k).owned b ≤ 16 := fun k => by
    unfold SuperBlock.owned
    split_ifs
    · exact Nat.zero_le _
    · exact Nat.add_le_add (hmap _) (hmap _)
  exact Finset.sum_le_card_nsmul Finset.univ (fun k => (s.super k).owned b) 16 fun k _ => hslot k

/-- The slot after `put_super`, and the buffers. -/
def dropped (s : State β) (sb : Sb) : State β :=
  { s.setSuper sb { s.super sb with sLock := false, sDev := 0 } with
    bCount := fun b => s.bCount b - (s.super sb).held b }

/-- What a change of disks makes of the state. -/
def put (d : Disk β) (dev : Dev) (s : State β) : State β :=
  match s.getSuper dev with
  | none => s
  | some sb => if dev = d.rootDev ∨ (s.super sb).sImount.isSome then s else s.dropped sb

omit [DecidableEq β] in
theorem getSuper_some (h : s.getSuper dev = some sb) : dev ≠ 0 ∧ (s.super sb).sDev = dev := by
  unfold getSuper at h
  split at h
  case isTrue => cases h
  rename_i h0
  exact ⟨h0, by simpa using List.find?_some h⟩

omit [DecidableEq β] in
theorem getSuper_none (hdev : dev ≠ 0) : s.getSuper dev = none ↔ ∀ k, (s.super k).sDev ≠ dev := by
  unfold getSuper
  rw [if_neg hdev, List.find?_eq_none]
  constructor
  · intro h k hk
    exact h k (List.mem_finRange k) (by simpa using hk)
  · intro h k _ hk
    exact h k (by simpa using hk)

theorem Sound.held_le (hs : Sound s) (h : (s.super sb).sDev ≠ 0) (b : β) :
    (s.super sb).held b ≤ s.bCount b := by
  have hle : (s.super sb).owned b ≤ ∑ k, (s.super k).owned b :=
    Finset.single_le_sum (f := fun k => (s.super k).owned b) (fun _ _ => Nat.zero_le _)
      (Finset.mem_univ sb)
  have howned := hs.owned b
  unfold SuperBlock.owned at hle
  rw [if_neg h] at hle
  exact hle.trans howned

theorem putSuper_eq (hs : Sound s) : s.putSuper d dev = .ok (put d dev s) := by
  unfold putSuper put
  by_cases hroot : dev = d.rootDev
  · rw [if_pos hroot]
    cases hget : s.getSuper dev with
    | none => rfl
    | some sb =>
      dsimp only
      rw [if_pos (.inl hroot)]
  · rw [if_neg hroot]
    cases hget : s.getSuper dev with
    | none => rfl
    | some sb =>
      dsimp only
      by_cases hm : (s.super sb).sImount.isSome
      · rw [if_pos hm, if_pos (.inr hm)]
      · rw [if_neg hm, if_neg (not_or.2 ⟨hroot, hm⟩)]
        obtain ⟨hdev, hsb⟩ := getSuper_some hget
        obtain ⟨t, ht⟩ : ∃ t, t =
          s.setSuper sb { s.super sb with sLock := true, sDev := 0 } := ⟨_, rfl⟩
        have hcount : ∀ b, t.bCount b =
            (s.bCount b - (s.super sb).held b) + (t.super sb).held b := by
          intro b
          have hle := hs.held_le (hsb ▸ hdev) b
          rw [ht, setSuper_self]
          change s.bCount b = s.bCount b - (s.super sb).held b + (s.super sb).held b
          omega
        rw [← ht, release_spec hcount]
        change Except.ok _ = Except.ok _
        rw [ht]
        unfold freeSuper dropped setSuper
        simp only [Function.update_self, Function.update_idem]

/-- A second call of `put_super` does nothing. -/
theorem put_put (hs : Sound s) : (put d dev s).putSuper d dev = .ok (put d dev s) := by
  unfold put
  cases hget : s.getSuper dev with
  | none =>
    dsimp only
    rw [putSuper_eq hs]
    unfold put
    rw [hget]
  | some sb =>
    dsimp only
    obtain ⟨hdev, hsb⟩ := getSuper_some hget
    split
    · rename_i h
      rw [putSuper_eq hs]
      unfold put
      rw [hget]
      dsimp only
      rw [if_pos h]
    · have hnone : (s.dropped sb).getSuper dev = none := by
        rw [getSuper_none hdev]
        intro k
        by_cases hk : k = sb
        · subst hk
          unfold dropped
          dsimp only
          rw [setSuper_self]
          exact hdev.symm
        · unfold dropped
          dsimp only
          rw [setSuper_of_ne hk]
          intro he
          have := hs.unique k sb (he ▸ hdev) (he.trans hsb.symm)
          exact hk this
      unfold putSuper
      rw [hnone]
      split <;> rfl

theorem checkDiskChange_list (hs : Sound s) (l : List Sb) :
    l.foldlM (fun s i => if (s.super i).sDev = dev then s.putSuper d dev else .ok s) s =
      .ok (if ∃ i ∈ l, (s.super i).sDev = dev then put d dev s else s) := by
  have hput : ∀ l : List Sb,
      l.foldlM (fun s i => if (s.super i).sDev = dev then s.putSuper d dev else .ok s)
        (put d dev s) = .ok (put d dev s) := by
    intro l
    induction l with
    | nil => rfl
    | cons i l ih =>
      have hone : (if ((put d dev s).super i).sDev = dev then (put d dev s).putSuper d dev
          else .ok (put d dev s)) = .ok (put d dev s) := by
        rw [put_put hs]
        split <;> rfl
      rw [List.foldlM_cons, hone]
      exact ih
  induction l with
  | nil =>
    rw [if_neg (by simp)]
    rfl
  | cons i l ih =>
    rw [List.foldlM_cons]
    by_cases hi : (s.super i).sDev = dev
    · rw [if_pos hi, if_pos ⟨i, List.mem_cons_self, hi⟩, putSuper_eq hs]
      exact hput l
    · rw [if_neg hi]
      refine ih.trans ?_
      simp [hi]

theorem checkDiskChange_eq (hs : Sound s) (hdev : dev ≠ 0) : s.checkDiskChange d dev =
    .ok (if major dev = 2 ∧ d.changed = true then put d dev s else s) := by
  unfold checkDiskChange
  by_cases h : major dev = 2 ∧ d.changed = true
  · rw [if_neg (by simp [h]), if_pos h, checkDiskChange_list hs]
    by_cases hex : ∃ i ∈ List.finRange 8, (s.super i).sDev = dev
    · rw [if_pos hex]
    · rw [if_neg hex]
      have hnone : s.getSuper dev = none :=
        (getSuper_none hdev).2 fun k hk => hex ⟨k, List.mem_finRange k, hk⟩
      unfold put
      rw [hnone]
  · rw [if_neg h, if_pos]
    by_contra hn
    exact h (by simpa [not_or] using hn)

/-- A slot that is free has no pointers to account for. -/
theorem sum_owned (hother : ∀ j, j ≠ sb → s'.super j = s.super j) (b : β) :
    ∑ k, (s'.super k).owned b + (s.super sb).owned b =
      ∑ k, (s.super k).owned b + (s'.super sb).owned b := by
  have h := Count.sum_update s.super (fun x => x.owned b) sb (s'.super sb)
  have he : Function.update s.super sb (s'.super sb) = s'.super := by
    funext j
    by_cases hj : j = sb
    · rw [hj, Function.update_self]
    · rw [Function.update_of_ne hj, hother j hj]
  rw [he] at h
  exact h

/-- A slot that is given up. -/
theorem Sound.of_free (hs : Sound s) (hother : ∀ j, j ≠ sb → s'.super j = s.super j)
    (hdev : (s'.super sb).sDev = 0)
    (hcount : ∀ b, s.bCount b ≤ s'.bCount b + (s.super sb).owned b) : Sound s' := by
  refine ⟨fun j k hj hjk => ?_, fun b => ?_⟩
  · have hjsb : j ≠ sb := by
      rintro rfl
      exact hj hdev
    have hksb : k ≠ sb := by
      rintro rfl
      exact hj (hjk.trans hdev)
    rw [hother j hjsb] at hj hjk
    rw [hother k hksb] at hjk
    exact hs.unique j k hj hjk
  · have hsum := sum_owned hother b
    have hzero : (s'.super sb).owned b = 0 := if_pos hdev
    have := hs.owned b
    have := hcount b
    omega

/-- A slot that is taken by a device that has none. -/
theorem Sound.of_taken (hs : Sound s) (hfree : (s.super sb).sDev = 0)
    (hnone : ∀ k, (s.super k).sDev ≠ dev) (hother : ∀ j, j ≠ sb → s'.super j = s.super j)
    (hdev : (s'.super sb).sDev = dev)
    (hcount : ∀ b, s'.bCount b = s.bCount b + (s'.super sb).held b) : Sound s' := by
  refine ⟨fun j k hj hjk => ?_, fun b => ?_⟩
  · by_cases hjsb : j = sb
    · by_cases hksb : k = sb
      · rw [hjsb, hksb]
      · rw [hjsb, hdev, hother k hksb] at hjk
        exact absurd hjk.symm (hnone k)
    · by_cases hksb : k = sb
      · rw [hksb, hdev, hother j hjsb] at hjk
        exact absurd hjk (hnone j)
      · rw [hother j hjsb] at hj hjk
        rw [hother k hksb] at hjk
        exact hs.unique j k hj hjk
  · have hsum := sum_owned hother b
    have hzero : (s.super sb).owned b = 0 := if_pos hfree
    have hle : (s'.super sb).owned b ≤ (s'.super sb).held b := by
      unfold SuperBlock.owned
      split
      · exact Nat.zero_le _
      · exact le_rfl
    have := hs.owned b
    have := hcount b
    omega

theorem Sound.dropped (hs : Sound s) (h : (s.super sb).sDev ≠ 0) : Sound (s.dropped sb) := by
  have hother : ∀ j, j ≠ sb → (s.dropped sb).super j = s.super j := fun j hj => setSuper_of_ne hj
  refine hs.of_free hother ?_ fun b => ?_
  · unfold State.dropped
    dsimp only
    rw [setSuper_self]
  · unfold SuperBlock.owned
    rw [if_neg h]
    exact Nat.le_add_of_sub_le le_rfl

theorem Sound.put (hs : Sound s) : Sound (put d dev s) := by
  unfold State.put
  cases hget : s.getSuper dev with
  | none => exact hs
  | some sb =>
    dsimp only
    obtain ⟨hdev, hsb⟩ := getSuper_some hget
    split
    · exact hs
    · exact hs.dropped (hsb ▸ hdev)

/-- A change of disks takes the slot from the device. -/
structure Stale (d : Disk β) (s : State β) (dev : Dev) (sb : Sb) : Prop where
  floppy : major dev = 2
  changed : d.changed = true
  root : dev ≠ d.rootDev
  slot : (s.super sb).sDev = dev
  unmounted : (s.super sb).sImount = none

theorem checkDiskChange_cases (hs : Sound s) (hdev : dev ≠ 0) :
    (∃ sb, Stale d s dev sb ∧ s.checkDiskChange d dev = .ok (s.dropped sb)) ∨
      (∀ sb, ¬ Stale d s dev sb) ∧ s.checkDiskChange d dev = .ok s := by
  rw [checkDiskChange_eq hs hdev]
  by_cases h : major dev = 2 ∧ d.changed = true
  case neg => exact .inr ⟨fun sb hst => h ⟨hst.floppy, hst.changed⟩, by rw [if_neg h]⟩
  rw [if_pos h]
  unfold put
  cases hget : s.getSuper dev with
  | none => exact .inr ⟨fun sb hst => (getSuper_none hdev).1 hget sb hst.slot, rfl⟩
  | some sb =>
    obtain ⟨-, hsb⟩ := getSuper_some hget
    dsimp only
    split
    · rename_i hkeep
      refine .inr ⟨fun k hst => ?_, rfl⟩
      obtain rfl := hs.unique k sb (hst.slot ▸ hdev) (hst.slot.trans hsb.symm)
      obtain hroot | hm := hkeep
      · exact hst.root hroot
      · rw [hst.unmounted] at hm
        exact Bool.false_ne_true hm
    · rename_i hkeep
      obtain ⟨hroot, hm⟩ := not_or.1 hkeep
      exact .inl ⟨sb, ⟨h.1, h.2, hroot, hsb, by simpa using hm⟩, rfl⟩

/-- The super block is read from the disk: the device has no slot, or loses it, and there is a free
one. -/
def Loads (d : Disk β) (s : State β) (dev : Dev) : Prop :=
  dev ≠ 0 ∧ ((∃ sb, Stale d s dev sb) ∨
    (∀ sb, (s.super sb).sDev ≠ dev) ∧ ∃ sb, (s.super sb).sDev = 0)

omit [DecidableEq β] in
theorem find_free : ((List.finRange 8).find? fun sb => (s.super sb).sDev = 0) = none ↔
    ¬ ∃ sb, (s.super sb).sDev = 0 := by
  simp

/-- The ways of `read_super`. -/
theorem readSuper_cases (d : Disk β) (dev : Dev) (hs : Sound s) :
    (¬ Loads d s dev ∧ ∃ v, s.readSuper d dev = .ok (v, s)) ∨
    (Loads d s dev ∧ ∃ t sb, (t = s ∧ (∀ k, ¬ Stale d s dev k) ∨
        ∃ k, Stale d s dev k ∧ t = s.dropped k) ∧ Sound t ∧ (t.super sb).sDev = 0 ∧
      (∀ k, (t.super k).sDev ≠ dev) ∧ s.readSuper d dev = t.load d sb dev) := by
  unfold readSuper
  by_cases hdev : dev = 0
  · rw [if_pos hdev]
    exact .inl ⟨fun h => h.1 hdev, _, rfl⟩
  rw [if_neg hdev]
  obtain ⟨k, hst, hchk⟩ | ⟨hst, hchk⟩ := checkDiskChange_cases (d := d) hs hdev
  · have hk : (s.super k).sDev ≠ 0 := hst.slot ▸ hdev
    have hself : ((s.dropped k).super k).sDev = 0 := by
      unfold dropped
      dsimp only
      rw [setSuper_self]
    have hnone : ∀ j, ((s.dropped k).super j).sDev ≠ dev := by
      intro j hj
      by_cases hjk : j = k
      · subst hjk
        exact hdev (hj.symm.trans hself)
      · have hsj : (s.super j).sDev = dev := by
          rw [← hj]
          unfold dropped
          dsimp only
          rw [setSuper_of_ne hjk]
        exact hjk (hs.unique j k (hsj ▸ hdev) (hsj.trans hst.slot.symm))
    refine .inr ⟨⟨hdev, .inl ⟨k, hst⟩⟩, s.dropped k, ?_⟩
    cases hfind : (List.finRange 8).find? fun sb => ((s.dropped k).super sb).sDev = 0 with
    | none => exact absurd ⟨k, hself⟩ (find_free.1 hfind)
    | some sb =>
      refine ⟨sb, .inr ⟨k, hst, rfl⟩, hs.dropped hk, by simpa using List.find?_some hfind, hnone, ?_⟩
      rw [hchk]
      dsimp only [bind, Except.bind]
      rw [(getSuper_none hdev).2 hnone]
      dsimp only
      rw [hfind]
  · rw [hchk]
    dsimp only [bind, Except.bind]
    cases hget : s.getSuper dev with
    | some sb =>
      refine .inl ⟨?_, _, rfl⟩
      rintro ⟨-, ⟨k, hk⟩ | ⟨hnone, -⟩⟩
      · exact hst k hk
      · exact hnone sb (getSuper_some hget).2
    | none =>
      have hnone := (getSuper_none hdev).1 hget
      dsimp only
      cases hfind : (List.finRange 8).find? fun sb => (s.super sb).sDev = 0 with
      | none =>
        refine .inl ⟨?_, _, rfl⟩
        rintro ⟨-, ⟨k, hk⟩ | ⟨-, hfree⟩⟩
        · exact hst k hk
        · exact find_free.1 hfind hfree
      | some sb =>
        have hfree : (s.super sb).sDev = 0 := by simpa using List.find?_some hfind
        exact .inr ⟨⟨hdev, .inr ⟨hnone, sb, hfree⟩⟩, s, sb, .inl ⟨rfl, hst⟩, hs, hfree, hnone, rfl⟩

/-- The state stays sound. -/
theorem Sound.readSuper {v : Option Sb} (hs : Sound s) (h : s.readSuper d dev = .ok (v, s')) :
    Sound s' := by
  obtain ⟨-, v', hret⟩ | ⟨-, t, sb, -, ht, hfree, hnone, hret⟩ := readSuper_cases d dev hs
  · rw [hret] at h
    cases h
    exact hs
  rw [hret] at h
  have hundone : (∃ u, t.load d sb dev = .ok (none, u) ∧ Undone sb t u) → Sound s' := by
    rintro ⟨u, hu, hcount, hother, hdev, -⟩
    rw [hu] at h
    cases h
    exact ht.of_free hother hdev fun b => hcount ▸ Nat.le_add_right _ _
  cases hacc : d.accepted dev with
  | none => exact hundone (load_none hacc)
  | some x =>
    obtain ⟨-, f, hf⟩ | ⟨-, -, hun⟩ | ⟨-, -, u, hu, hother, hdev, hcount⟩ :=
      load_some t sb hacc
    · rw [hf] at h
      cases h
    · exact hundone hun
    · rw [hu] at h
      cases h
      exact ht.of_taken hfree hnone hother hdev hcount

/-- The call does not fault. If it returns `NULL`, the buffers are counted as before, and each slot is
as before or has been given up. -/
def Harmless (s : State β) (r : Except Fault (Option Sb × State β)) : Prop :=
  ∃ v s', r = .ok (v, s') ∧ (v = none → s'.bCount = s.bCount ∧
    ∀ j, s'.super j = s.super j ∨ (s'.super j).sDev = 0 ∧ (s'.super j).sLock = false)

/-- A super block is read without harm if and only if its maps fit. If the disk has been changed, the
buffers of the last one are given back, so that there must be a new one, or nothing to give back. -/
theorem readSuper_iff (hs : Sound s) : Harmless s (s.readSuper d dev) ↔ (Loads d s dev →
    (∀ x, d.accepted dev = some x → d.Fits dev x) ∧
      ((∃ sb b, Stale d s dev sb ∧ (s.super sb).held b ≠ 0) →
        ∃ x, d.accepted dev = some x ∧ d.Whole dev x)) := by
  obtain ⟨hload, v, hret⟩ | ⟨hload, t, sb, hfrom, ht, hfree, hnone, hret⟩ :=
    readSuper_cases d dev hs
  · rw [hret]
    exact iff_of_true ⟨v, s, rfl, fun _ => ⟨rfl, fun _ => .inl rfl⟩⟩ fun h => absurd h hload
  have hdev := hload.1
  -- What is left of the slots when nothing is returned, and whether the buffers are counted as before.
  have hundone : (∃ u, t.load d sb dev = .ok (none, u) ∧ Undone sb t u) →
      (Harmless s (t.load d sb dev) ↔ ¬ ∃ sb b, Stale d s dev sb ∧ (s.super sb).held b ≠ 0) := by
    rintro ⟨u, hu, hcount, hother, hdevu, hlock⟩
    have hslots : ∀ j, u.super j = s.super j ∨ (u.super j).sDev = 0 ∧ (u.super j).sLock = false := by
      intro j
      by_cases hj : j = sb
      · rw [hj]
        exact .inr ⟨hdevu, hlock⟩
      rw [hother j hj]
      obtain ⟨rfl, -⟩ | ⟨k, -, rfl⟩ := hfrom
      · exact .inl rfl
      by_cases hjk : j = k
      · subst hjk
        right
        unfold dropped
        dsimp only
        rw [setSuper_self]
        exact ⟨rfl, rfl⟩
      · exact .inl (setSuper_of_ne hjk)
    have hsame : Harmless s (t.load d sb dev) ↔ t.bCount = s.bCount := by
      rw [hu]
      constructor
      · rintro ⟨v, s', heq, h⟩
        cases heq
        rw [← hcount]
        exact (h rfl).1
      · intro h
        exact ⟨none, u, rfl, fun _ => ⟨hcount.trans h, hslots⟩⟩
    rw [hsame]
    obtain ⟨rfl, hst⟩ | ⟨k, hst, rfl⟩ := hfrom
    · exact iff_of_true rfl fun ⟨k, b, hk, _⟩ => hst k hk
    · constructor
      · rintro h ⟨j, b, hj, hheld⟩
        obtain rfl := hs.unique j k (hj.slot ▸ hdev) (hj.slot.trans hst.slot.symm)
        have hb : s.bCount b - (s.super j).held b = s.bCount b := congrFun h b
        have hle := hs.held_le (hj.slot ▸ hdev) b
        omega
      · intro h
        funext b
        have hzero : (s.super k).held b = 0 := by
          by_contra hne
          exact h ⟨k, b, hst, hne⟩
        change s.bCount b - (s.super k).held b = s.bCount b
        rw [hzero, Nat.sub_zero]
  rw [hret]
  cases hacc : d.accepted dev with
  | none =>
    rw [hundone (load_none hacc)]
    constructor
    · intro h _
      exact ⟨nofun, fun hst => absurd hst h⟩
    · intro h hst
      obtain ⟨x, hx, -⟩ := (h hload).2 hst
      cases hx
  | some x =>
    obtain ⟨hfit, f, hf⟩ | ⟨hfit, hw, hun⟩ | ⟨hfit, hw, u, hu, -⟩ :=
      load_some t sb hacc
    · rw [hf]
      refine iff_of_false ?_ fun h => hfit ((h hload).1 x rfl)
      rintro ⟨v, s', heq, -⟩
      cases heq
    · rw [hundone hun]
      constructor
      · intro h _
        refine ⟨?_, fun hst => absurd hst h⟩
        rintro y ⟨⟩
        exact hfit
      · intro h hst
        obtain ⟨y, hy, hwy⟩ := (h hload).2 hst
        cases hy
        exact hw hwy
    · rw [hu]
      refine iff_of_true ⟨_, u, rfl, nofun⟩ fun _ => ⟨?_, fun _ => ⟨x, rfl, hw⟩⟩
      rintro y ⟨⟩
      exact hfit

end State

/-! ## Images -/

/-- The table at boot, when no buffer is in use. -/
def boot : State ℕ where
  super _ :=
    { sNinodes := 0, sNzones := 0, sImapBlocks := 0, sZmapBlocks := 0, sFirstdatazone := 0,
      sLogZoneSize := 0, sMaxSize := 0, sMagic := 0, sImap := fun _ => none, sZmap := fun _ => none,
      sDev := 0, sIsup := none, sImount := none, sTime := 0, sLock := false, sRdOnly := false,
      sDirt := false }
  bCount _ := 0
  bData _ _ := 0

theorem boot_sound : boot.Sound := by
  refine ⟨fun j k hj => absurd rfl hj, fun b => ?_⟩
  refine (Finset.sum_eq_zero fun k _ => ?_).le
  exact if_pos rfl

/-- A disk whose super block has so many blocks in each map, and whose blocks can all be read. -/
def image (blocks : BitVec 8) : Disk ℕ where
  rootDev := 0x301
  changed := false
  read _ block _ := some (block, fun a =>
    if a = 4 ∨ a = 6 then blocks else if a = 16 then 0x7f else if a = 17 then 0x13 else 0)

theorem readSuper_iff_image : boot.Sound ∧
    State.Harmless boot (boot.readSuper (image 3) 0x302) := by
  refine ⟨boot_sound, (State.readSuper_iff boot_sound).2 fun _ => ⟨?_, ?_⟩⟩
  · rintro x ⟨⟩
    exact ⟨.inl (by decide), .inl (by decide), fun _ => ⟨by decide, by decide⟩⟩
  · rintro ⟨sb, b, hst, -⟩
    exact absurd hst.floppy (by decide)

/-- An image without maps has the kernel follow a null pointer, and one with long maps has it leave
the array. -/
theorem readSuper_not : boot.readSuper (image 0) 0x302 = .error .null ∧
    boot.readSuper (image 9) 0x302 = .error .bounds ∧
    ¬ ∀ (d : Disk ℕ) (s : State ℕ) (dev : Dev), s.Sound →
      State.Harmless s (s.readSuper d dev) := by
  have hnull : boot.readSuper (image 0) 0x302 = .error .null := rfl
  refine ⟨hnull, rfl, fun h => ?_⟩
  obtain ⟨v, s', hret, -⟩ := h (image 0) boot 0x302 boot_sound
  rw [hnull] at hret
  cases hret

end Linux011.Super
