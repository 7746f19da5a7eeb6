import Linux011.Fs.Volume

/-!
# Truncating a file of a volume

`fs/truncate.c` with `free_block`, over the device of `Fs.Volume`. A zone that is freed keeps its
data until `new_block` clears it.

1. `freeBlock`, which panics where a zone is not marked; `freeInd`, `freeDind`, `truncate`.
2. `tree`: the zones below a zone number; `Clears`: a function frees the zones of a tree.
3. `addrs`: the places of the zones of a tree. They differ, so the zones of a sound volume do.
4. `truncate_ok`, `truncate_sound`: a file loses its zones, and no other file does.
-/

namespace Linux011.Zones

open Linux011.Fs (Byte)

namespace Volume

variable (v : Volume)

/-! ## The code -/

/-- `free_block`; it panics if the block is not in the data zone, or its bit already cleared. -/
def freeBlock (z : ℕ) : Option Volume :=
  if z < v.firstdatazone ∨ v.nzones ≤ z then none
  else if v.zmap (v.bitOf z) then some { v with zmap := Function.update v.zmap (v.bitOf z) false }
  else none

/-- `free_ind`, with `free` for what the table holds. -/
def freeTable (v : Volume) (free : Volume → ℕ → Option Volume) (block : ℕ) : Option Volume :=
  if block = 0 then some v
  else ((List.range 512).foldlM (fun v k =>
    if v.entry block k = 0 then some v else free v (v.entry block k)) v).bind (·.freeBlock block)

def freeInd (block : ℕ) : Option Volume := v.freeTable freeBlock block

def freeDind (block : ℕ) : Option Volume := v.freeTable freeInd block

/-- A turn of the loop over the zones in the inode. -/
def freeDirect (nr : ℕ) (v : Volume) (k : ℕ) : Option Volume :=
  if (v.inode nr).iZone k = 0 then some v
  else (v.freeBlock ((v.inode nr).iZone k)).map (·.set (.zone nr k) 0)

def truncate (nr : ℕ) : Option Volume :=
  if (v.inode nr).isFile then do
    let v ← (List.range 7).foldlM (freeDirect nr) v
    let v ← v.freeInd ((v.inode nr).iZone 7)
    let v ← v.freeDind ((v.inode nr).iZone 8)
    let v := (v.set (.zone nr 7) 0).set (.zone nr 8) 0
    return v.setSize nr 0
  else some v

/-! ## Zones that are freed -/

/-- The volume with the marks of some zones cleared. -/
def clear (l : List ℕ) : Volume :=
  { v with zmap := fun b => if b ∈ l.map v.bitOf then false else v.zmap b }

/-- The zones can be freed one after the other. -/
structure Ready (l : List ℕ) : Prop where
  nodup : l.Nodup
  marked : ∀ z ∈ l, v.Marked z

variable {v} {l l₁ l₂ : List ℕ} {z y n : ℕ}

theorem clear_nil : v.clear [] = v := by
  unfold clear
  simp

theorem clear_clear : (v.clear l₁).clear l₂ = v.clear (l₁ ++ l₂) := by
  unfold clear
  simp only [List.map_append, List.mem_append]
  refine congrArg (fun m => { v with zmap := m }) (funext fun b => ?_)
  show (if b ∈ l₂.map v.bitOf then false else if b ∈ l₁.map v.bitOf then false else v.zmap b) = _
  by_cases h1 : b ∈ l₁.map v.bitOf <;> by_cases h2 : b ∈ l₂.map v.bitOf <;> simp [h1, h2]

theorem bitOf_inj (hz : v.Marked z) (hy : v.Marked y) (h : v.bitOf z = v.bitOf y)
    (hpos : 0 < v.firstdatazone) : z = y := by
  have := hz.first
  have := hy.first
  unfold bitOf at h
  omega

theorem Marked.clear (hpos : 0 < v.firstdatazone) (hy : v.Marked y) (hl : ∀ z ∈ l, v.Marked z)
    (hn : y ∉ l) : (v.clear l).Marked y where
  first := hy.first
  last := hy.last
  bit := by
    have hnot : v.bitOf y ∉ l.map v.bitOf := by
      intro hmem
      obtain ⟨z, hz, heq⟩ := List.mem_map.1 hmem
      exact hn (bitOf_inj (hl z hz) hy heq hpos ▸ hz)
    show (if v.bitOf y ∈ l.map v.bitOf then false else v.zmap (v.bitOf y)) = true
    rw [if_neg hnot]
    exact hy.bit

theorem Ready.left (h : v.Ready (l₁ ++ l₂)) : v.Ready l₁ :=
  ⟨h.nodup.of_append_left, fun z hz => h.marked z (List.mem_append_left _ hz)⟩

theorem Ready.rest (hpos : 0 < v.firstdatazone) (h : v.Ready (l₁ ++ l₂)) : (v.clear l₁).Ready l₂ where
  nodup := h.nodup.of_append_right
  marked z hz := (h.marked z (List.mem_append_right _ hz)).clear hpos
    (fun y hy => h.marked y (List.mem_append_left _ hy))
    fun hmem => (List.disjoint_of_nodup_append h.nodup) hmem hz

theorem freeBlock_marked (hz : v.Marked z) : v.freeBlock z = some (v.clear [z]) := by
  have hfirst := hz.first
  have hlast := hz.last
  unfold freeBlock
  rw [if_neg (by omega), if_pos hz.bit]
  refine congrArg (fun m => some { v with zmap := m }) (funext fun b => ?_)
  rw [Function.update_apply]
  exact if_congr (by simp) rfl rfl

/-! ## Trees of zones -/

/-- The zones below zone number `z`, with `n` tables above the data, tables after what they hold. -/
def tree (entry : ℕ → ℕ → ℕ) : ℕ → ℕ → List ℕ
  | 0, z => if z = 0 then [] else [z]
  | n + 1, z => if z = 0 then [] else ((List.range 512).flatMap fun k => tree entry n (entry z k)) ++ [z]

/-- The function frees the zones of a tree. -/
def Clears (free : Volume → ℕ → Option Volume) (n : ℕ) : Prop :=
  ∀ (v : Volume) (z : ℕ), 0 < v.firstdatazone → z ≠ 0 → v.Ready (tree v.entry n z) →
    free v z = some (v.clear (tree v.entry n z))

theorem tree_zero {entry : ℕ → ℕ → ℕ} : tree entry n 0 = [] := by
  cases n <;> exact if_pos rfl

theorem Clears.zone : Clears freeBlock 0 := by
  intro v z _ hz h
  have htree : tree v.entry 0 z = [z] := if_neg hz
  rw [htree] at h ⊢
  exact freeBlock_marked (h.marked z (List.mem_singleton_self z))

theorem Clears.or_empty {free : Volume → ℕ → Option Volume} (hfree : Clears free n)
    (hpos : 0 < v.firstdatazone) (h : v.Ready (tree v.entry n z)) :
    (if z = 0 then some v else free v z) = some (v.clear (tree v.entry n z)) := by
  by_cases hz : z = 0
  · rw [if_pos hz, hz, tree_zero, clear_nil]
  · rw [if_neg hz]
    exact hfree v z hpos hz h

/-- The loop over a table, which is not changed in it. -/
theorem Clears.entries {free : Volume → ℕ → Option Volume} (hfree : Clears free n) (block : ℕ)
    (ks : List ℕ) (hpos : 0 < v.firstdatazone)
    (h : v.Ready (ks.flatMap fun k => tree v.entry n (v.entry block k))) :
    ks.foldlM (fun v k => if v.entry block k = 0 then some v else free v (v.entry block k)) v
      = some (v.clear (ks.flatMap fun k => tree v.entry n (v.entry block k))) := by
  induction ks generalizing v with
  | nil => exact congrArg some clear_nil.symm
  | cons k ks ih =>
    rw [List.flatMap_cons] at h ⊢
    rw [List.foldlM_cons, hfree.or_empty hpos h.left, ← clear_clear]
    exact ih (v := v.clear _) hpos (h.rest hpos)

theorem Clears.table {free : Volume → ℕ → Option Volume} (hfree : Clears free n) :
    Clears (freeTable · free) (n + 1) := by
  intro v z hpos hz h
  have htree : tree v.entry (n + 1) z
      = ((List.range 512).flatMap fun k => tree v.entry n (v.entry z k)) ++ [z] := if_neg hz
  rw [htree] at h ⊢
  show v.freeTable free z = _
  unfold Volume.freeTable
  rw [if_neg hz, hfree.entries z _ hpos h.left, Option.bind_some, ← clear_clear]
  exact freeBlock_marked ((h.rest hpos).marked z (List.mem_singleton_self z))

theorem Clears.freeInd : Clears freeInd 1 := Clears.zone.table

/-- There may be no table. -/
theorem Clears.freeTable {free : Volume → ℕ → Option Volume} (hfree : Clears free n)
    (hpos : 0 < v.firstdatazone) (h : v.Ready (tree v.entry (n + 1) z)) :
    v.freeTable free z = some (v.clear (tree v.entry (n + 1) z)) := by
  by_cases hz : z = 0
  · rw [hz, tree_zero, clear_nil]
    exact if_pos rfl
  · exact hfree.table v z hpos hz h

end Volume

/-! ## Places below a place -/

namespace Addr

/-- `c` is `a`, or in a table below it. -/
def Under (a : Addr) : Addr → Prop
  | root nr k => root nr k = a
  | child up k => child up k = a ∨ Under a up

variable {a b c : Addr}

theorem Under.refl : Under a a := by
  cases a with
  | root nr k => exact rfl
  | child up k => exact .inl rfl

theorem Under.depth_le (h : Under a c) : a.depth ≤ c.depth := by
  induction c with
  | root nr k => exact (congrArg depth h).ge
  | child up k ih =>
    rcases h with rfl | h
    · exact le_rfl
    · exact (ih h).trans (Nat.le_succ _)

theorem Under.of_child {k : ℕ} (h : Under (a.child k) c) : Under a c := by
  induction c with
  | root nr k => cases h
  | child up j ih =>
    rcases h with h | h
    · cases h
      exact .inr .refl
    · exact .inr (ih h)

/-- Two places of one depth have nothing in common below them. -/
theorem Under.unique (ha : Under a c) (hb : Under b c) (h : a.depth = b.depth) : a = b := by
  induction c with
  | root nr k => exact (show root nr k = a from ha).symm.trans hb
  | child up k ih =>
    rcases ha with rfl | ha
    · rcases hb with rfl | hb
      · rfl
      · have := hb.depth_le
        exact absurd h (by show up.depth + 1 ≠ b.depth; omega)
    · rcases hb with rfl | hb
      · have := ha.depth_le
        exact absurd h (by show a.depth ≠ up.depth + 1; omega)
      · exact ih ha hb

end Addr

namespace Volume

variable {v v' : Volume} {nr n : ℕ} {a c : Addr}

/-- The places of the zones of `tree`, in the same order. -/
def addrs (v : Volume) : ℕ → Addr → List Addr
  | 0, a => if a.zone v = 0 then [] else [a]
  | n + 1, a =>
    if a.zone v = 0 then [] else ((List.range 512).flatMap fun k => addrs v n (a.child k)) ++ [a]

theorem map_addrs : (v.addrs n a).map (·.zone v) = tree v.entry n (a.zone v) := by
  induction n generalizing a with
  | zero =>
    unfold addrs tree
    split_ifs <;> rfl
  | succ n ih =>
    unfold addrs tree
    split_ifs with hz
    · rfl
    · rw [List.map_append, List.map_flatMap]
      exact congrArg (· ++ [a.zone v]) (List.flatMap_congr fun k _ => ih)

theorem mem_addrs (ha : v.Holds a) (hn : a.depth + n = a.levels) (hc : c ∈ v.addrs n a) :
    v.Holds c ∧ c.nr = a.nr ∧ c.zone v ≠ 0 ∧ Addr.Under a c := by
  induction n generalizing a with
  | zero =>
    unfold addrs at hc
    split_ifs at hc with hz
    · exact absurd hc List.not_mem_nil
    · rw [List.mem_singleton.1 hc]
      exact ⟨ha, rfl, hz, .refl⟩
  | succ n ih =>
    unfold addrs at hc
    split_ifs at hc with hz
    · exact absurd hc List.not_mem_nil
    · rcases List.mem_append.1 hc with hc | hc
      · obtain ⟨k, hk, hc⟩ := List.mem_flatMap.1 hc
        obtain ⟨h1, h2, h3, h4⟩ := ih (ha.child hz (List.mem_range.1 hk) (by omega))
          (show a.depth + 1 + n = a.levels by omega) hc
        exact ⟨h1, h2, h3, h4.of_child⟩
      · rw [List.mem_singleton.1 hc]
        exact ⟨ha, rfl, hz, .refl⟩

/-- Trees below different places of one depth have no place in common. -/
theorem nodup_flatMap_addrs {f : ℕ → Addr} {g : ℕ → ℕ} {ks : List ℕ} (hks : ks.Nodup)
    (hf : ∀ k ∈ ks, v.Holds (f k) ∧ (f k).depth + g k = (f k).levels)
    (hdepth : ∀ j k, (f j).depth = (f k).depth) (hinj : ∀ j k, f j = f k → j = k)
    (hnodup : ∀ k ∈ ks, (v.addrs (g k) (f k)).Nodup) :
    (ks.flatMap fun k => v.addrs (g k) (f k)).Nodup := by
  refine List.nodup_flatMap.2 ⟨hnodup, hks.pairwise_of_forall_ne fun j hj k hk hjk c hcj hck => ?_⟩
  exact hjk (hinj j k (((mem_addrs (hf j hj).1 (hf j hj).2 hcj).2.2.2).unique
    (mem_addrs (hf k hk).1 (hf k hk).2 hck).2.2.2 (hdepth j k)))

theorem nodup_addrs (ha : v.Holds a) (hn : a.depth + n = a.levels) : (v.addrs n a).Nodup := by
  induction n generalizing a with
  | zero =>
    unfold addrs
    split_ifs
    · exact List.nodup_nil
    · exact List.nodup_singleton a
  | succ n ih =>
    unfold addrs
    split_ifs with hz
    · exact List.nodup_nil
    · have hchild : ∀ k ∈ List.range 512, v.Holds (a.child k) ∧ (a.child k).depth + n = (a.child k).levels :=
        fun k hk => ⟨ha.child hz (List.mem_range.1 hk) (by omega), show a.depth + 1 + n = a.levels by omega⟩
      refine List.nodup_append.2 ⟨?_, List.nodup_singleton a, ?_⟩
      · refine nodup_flatMap_addrs List.nodup_range hchild (fun _ _ => rfl) (fun j k h => ?_)
          fun k hk => ih (hchild k hk).1 (hchild k hk).2
        cases h
        rfl
      · rintro c hc _ hca rfl
        rw [List.mem_singleton.1 hca] at hc
        obtain ⟨k, hk, hc⟩ := List.mem_flatMap.1 hc
        have hle := (mem_addrs (hchild k hk).1 (hchild k hk).2 hc).2.2.2.depth_le
        exact absurd hle (Nat.not_succ_le_self _)

/-- The zones of a file, in the order in which `truncate` frees them. -/
def zones (v : Volume) (nr : ℕ) : List ℕ :=
  (List.range 9).flatMap fun k => tree v.entry (k - 6) ((v.inode nr).iZone k)

theorem holds_root (hfile : (v.inode nr).isFile = true) {k : ℕ} (hk : k ∈ List.range 9) :
    v.Holds (.root nr k) ∧ (Addr.root nr k).depth + (k - 6) = (Addr.root nr k).levels :=
  ⟨⟨hfile, List.mem_range.1 hk, trivial⟩, Nat.zero_add _⟩

theorem zones_eq : v.zones nr
    = ((List.range 9).flatMap fun k => v.addrs (k - 6) (.root nr k)).map (·.zone v) := by
  rw [List.map_flatMap]
  exact List.flatMap_congr fun k _ => (map_addrs (a := .root nr k)).symm

theorem mem_zones (hfile : (v.inode nr).isFile = true) {z : ℕ} (hz : z ∈ v.zones nr) :
    z ≠ 0 ∧ ∃ a, v.Holds a ∧ a.nr = nr ∧ a.zone v = z := by
  rw [zones_eq] at hz
  obtain ⟨a, ha, rfl⟩ := List.mem_map.1 hz
  obtain ⟨k, hk, ha⟩ := List.mem_flatMap.1 ha
  obtain ⟨h1, h2, h3, -⟩ := mem_addrs (holds_root hfile hk).1 (holds_root hfile hk).2 ha
  exact ⟨h3, a, h1, h2, rfl⟩

/-- The zones of a file differ, and they are marked. -/
theorem Sound.ready (hv : v.Sound) (hfile : (v.inode nr).isFile = true) : v.Ready (v.zones nr) where
  nodup := by
    rw [zones_eq]
    have hnodup : ((List.range 9).flatMap fun k => v.addrs (k - 6) (.root nr k)).Nodup := by
      refine nodup_flatMap_addrs List.nodup_range (fun k hk => holds_root hfile hk) (fun _ _ => rfl)
        (fun j k h => ?_) fun k hk => nodup_addrs (holds_root hfile hk).1 (holds_root hfile hk).2
      cases h
      rfl
    refine hnodup.map_on fun a ha b hb hab => ?_
    obtain ⟨j, hj, ha⟩ := List.mem_flatMap.1 ha
    obtain ⟨k, hk, hb⟩ := List.mem_flatMap.1 hb
    obtain ⟨ha1, -, ha0, -⟩ := mem_addrs (holds_root hfile hj).1 (holds_root hfile hj).2 ha
    exact hv.distinct a b ha1 (mem_addrs (holds_root hfile hk).1 (holds_root hfile hk).2 hb).1 ha0 hab
  marked z hz := by
    obtain ⟨hz0, a, ha, -, rfl⟩ := mem_zones hfile hz
    exact hv.marked a ha hz0

/-! ## Truncating -/

/-- The file without zones, and empty. -/
def truncated (v : Volume) (nr : ℕ) : Volume :=
  (v.clear (v.zones nr)).setInode nr { v.inode nr with
    iZone := fun i => if i < 9 then 0 else (v.inode nr).iZone i
    iSize := 0 }

theorem setInode_clear {l : List ℕ} {i : Inode} :
    (v.setInode nr i).clear l = (v.clear l).setInode nr i := rfl

theorem setInode_self {i : Inode} : (v.setInode nr i).inode nr = i := Function.update_self _ _ _

theorem setInode_setInode {i i' : Inode} : (v.setInode nr i).setInode nr i' = v.setInode nr i' := by
  unfold setInode
  simp only [Function.update_idem]

theorem setInode_set {i : Inode} (k : ℕ) :
    (v.setInode nr i).set (.zone nr k) 0 = v.setInode nr { i with iZone := Function.update i.iZone k 0 } := by
  show (v.setInode nr i).setInode nr { (v.setInode nr i).inode nr with
    iZone := Function.update ((v.setInode nr i).inode nr).iZone k 0 } = _
  rw [setInode_setInode, setInode_self]

/-- The loop over the zones in the inode. -/
theorem freeDirect_ok (hpos : 0 < v.firstdatazone) {j : ℕ}
    (h : v.Ready ((List.range j).flatMap fun k => tree v.entry 0 ((v.inode nr).iZone k))) :
    (List.range j).foldlM (freeDirect nr) v
      = some ((v.clear ((List.range j).flatMap fun k => tree v.entry 0 ((v.inode nr).iZone k))).setInode
        nr { v.inode nr with iZone := fun i => if i < j then 0 else (v.inode nr).iZone i }) := by
  induction j with
  | zero =>
    refine congrArg some ?_
    rw [List.range_zero, List.flatMap_nil, clear_nil]
    unfold setInode
    simp
  | succ j ih =>
    rw [List.range_succ, List.flatMap_append, List.flatMap_singleton] at h ⊢
    rw [List.foldlM_append, ih h.left, Option.bind_eq_bind, Option.bind_some, List.foldlM_cons]
    generalize hl : (List.range j).flatMap (fun k => tree v.entry 0 ((v.inode nr).iZone k)) = l at h
    obtain ⟨z, hz⟩ : ∃ z, z = (v.inode nr).iZone j := ⟨_, rfl⟩
    obtain ⟨w, hw⟩ : ∃ w, w = (v.clear l).setInode nr
        { v.inode nr with iZone := fun i => if i < j then 0 else (v.inode nr).iZone i } := ⟨_, rfl⟩
    have hwz : (w.inode nr).iZone j = z := by
      rw [hw, hz]
      simp [setInode]
    have hzones : (fun i => if i < j + 1 then 0 else (v.inode nr).iZone i)
        = Function.update (fun i => if i < j then 0 else (v.inode nr).iZone i) j 0 := by
      funext i
      rw [Function.update_apply]
      by_cases hi : i = j
      · rw [if_pos (by omega), if_pos hi]
      · rw [if_neg hi]
        exact if_congr (by omega) rfl rfl
    rw [← hw, ← hz]
    rw [← hz] at h
    unfold freeDirect
    rw [hwz]
    by_cases hz0 : z = 0
    · -- an empty slot
      have hsame : (fun i => if i < j + 1 then 0 else (v.inode nr).iZone i)
          = fun i => if i < j then 0 else (v.inode nr).iZone i := by
        rw [hzones]
        refine Function.update_eq_self_iff.2 ?_
        rw [if_neg (Nat.lt_irrefl j), ← hz, hz0]
      rw [if_pos hz0, hsame, hz0, tree_zero, List.append_nil, hw]
      rfl
    · have hm : (v.clear l).Marked z := (h.rest hpos).marked z (by simp [tree, hz0])
      have hfree : w.freeBlock z = some (w.clear [z]) :=
        freeBlock_marked ⟨hw ▸ hm.first, hw ▸ hm.last, hw ▸ hm.bit⟩
      have htree : tree v.entry 0 z = [z] := if_neg hz0
      rw [if_neg hz0, hfree, htree, hzones, hw, ← clear_clear]
      exact congrArg some (setInode_set (v := (v.clear l).clear [z]) j)

theorem Ready.setInode {l : List ℕ} {i : Inode} (h : v.Ready l) : (v.setInode nr i).Ready l :=
  ⟨h.nodup, fun z hz => ⟨(h.marked z hz).first, (h.marked z hz).last, (h.marked z hz).bit⟩⟩

/-- No zone of a sound file is met twice, and none is out of the data zone: `free_block` does not panic. -/
theorem truncate_eq (hv : v.Sound) (hfile : (v.inode nr).isFile = true) :
    v.truncate nr = some (v.truncated nr) := by
  have hready := hv.ready hfile
  have hpos := hv.firstdatazone_pos
  obtain ⟨l, hl⟩ : ∃ l, l = (List.range 7).flatMap fun k => tree v.entry 0 ((v.inode nr).iZone k) :=
    ⟨_, rfl⟩
  obtain ⟨t₁, ht₁⟩ : ∃ t, t = tree v.entry 1 ((v.inode nr).iZone 7) := ⟨_, rfl⟩
  obtain ⟨t₂, ht₂⟩ : ∃ t, t = tree v.entry 2 ((v.inode nr).iZone 8) := ⟨_, rfl⟩
  have hzones : v.zones nr = l ++ (t₁ ++ t₂) := by
    unfold zones
    rw [show List.range 9 = List.range 7 ++ [7, 8] from rfl, List.flatMap_append, hl, ht₁, ht₂]
    refine congrArg₂ _ (List.flatMap_congr fun k hk => ?_) ?_
    · have := List.mem_range.1 hk
      rw [show k - 6 = 0 by omega]
    · rw [List.flatMap_cons, List.flatMap_singleton]
  rw [hzones] at hready
  obtain ⟨i₀, hi₀⟩ : ∃ i₀ : Inode, i₀ = { v.inode nr with
      iZone := fun i => if i < 7 then 0 else (v.inode nr).iZone i } := ⟨_, rfl⟩
  have hdirect : (List.range 7).foldlM (freeDirect nr) v = _ :=
    freeDirect_ok hpos (hl ▸ hready.left)
  rw [← hl, ← hi₀] at hdirect
  have h7 : i₀.iZone 7 = (v.inode nr).iZone 7 := by rw [hi₀]; rfl
  have h8 : i₀.iZone 8 = (v.inode nr).iZone 8 := by rw [hi₀]; rfl
  have hrest : ((v.clear l).setInode nr i₀).Ready (t₁ ++ t₂) := (hready.rest hpos).setInode
  have hind : ((v.clear l).setInode nr i₀).freeInd (i₀.iZone 7)
      = some (((v.clear l).setInode nr i₀).clear t₁) := by
    rw [h7, ht₁]
    exact Clears.zone.freeTable hpos (ht₁ ▸ hrest.left)
  have hdind : (((v.clear l).setInode nr i₀).clear t₁).freeDind (i₀.iZone 8)
      = some ((((v.clear l).setInode nr i₀).clear t₁).clear t₂) := by
    rw [h8, ht₂]
    exact Clears.freeInd.freeTable hpos (ht₂ ▸ hrest.rest hpos)
  have hlast : ((((v.clear l).setInode nr i₀).clear t₁).clear t₂)
      = (v.clear (v.zones nr)).setInode nr i₀ := by
    rw [setInode_clear, setInode_clear, clear_clear, clear_clear, hzones]
  have hi : ((((v.clear l).setInode nr i₀).clear t₁).inode nr) = i₀ := setInode_self
  have hzone : Function.update (Function.update i₀.iZone 7 0) 8 0
      = fun i => if i < 9 then 0 else (v.inode nr).iZone i := by
    funext i
    have hold : i₀.iZone i = if i < 7 then 0 else (v.inode nr).iZone i := by rw [hi₀]
    rw [Function.update_apply, Function.update_apply, hold]
    split_ifs <;> first | rfl | omega
  unfold truncate truncated
  rw [if_pos hfile, hdirect]
  simp only [Option.bind_eq_bind, Option.bind_some, setInode_self, hind, hi, hdind, hlast,
    setInode_set, hzone]
  show some (((v.clear (v.zones nr)).setInode nr _).setInode nr _) = _
  rw [setInode_setInode, setInode_self, hi₀]

/-! ## What is left of the volume -/

theorem walk_congr {s : Slot} {ks : List ℕ} (hs : v'.get s = v.get s)
    (hentry : ∀ z k, v'.get (.entry z k) = v.get (.entry z k)) : v'.walk s ks = v.walk s ks := by
  induction ks generalizing s with
  | nil => exact hs
  | cons k ks ih =>
    unfold walk
    rw [hs, ih (hentry _ k)]

section Truncated

variable {nr' off : ℕ}

@[simp] theorem truncated_data : (v.truncated nr).data = v.data := rfl

theorem truncated_self : (v.truncated nr).inode nr = { v.inode nr with
    iZone := fun i => if i < 9 then 0 else (v.inode nr).iZone i
    iSize := 0 } := setInode_self

theorem truncated_other (h : nr' ≠ nr) : (v.truncated nr).inode nr' = v.inode nr' :=
  Function.update_of_ne h _ _

theorem truncated_mode : ((v.truncated nr).inode nr').iMode = (v.inode nr').iMode := by
  by_cases h : nr' = nr
  · rw [h, truncated_self]
  · rw [truncated_other h]

theorem truncated_isFile : ((v.truncated nr).inode nr').isFile = (v.inode nr').isFile := by
  unfold Inode.isFile
  rw [truncated_mode]

/-- The other files keep their places, the truncated one has the slots of its inode. -/
theorem truncated_holds (ha : (v.truncated nr).Holds a) :
    (a.nr = nr ∧ a.zone (v.truncated nr) = 0) ∨
    (a.nr ≠ nr ∧ v.Holds a ∧ a.zone (v.truncated nr) = a.zone v) := by
  induction a with
  | root nr' k =>
    by_cases h : nr' = nr
    · subst h
      refine .inl ⟨rfl, ?_⟩
      have hk : k < 9 := ha.valid
      show ((v.truncated nr').inode nr').iZone k = 0
      rw [truncated_self]
      exact if_pos hk
    · refine .inr ⟨h, ⟨truncated_isFile ▸ ha.file, ha.valid, trivial⟩, ?_⟩
      show ((v.truncated nr).inode nr').iZone k = (v.inode nr').iZone k
      rw [truncated_other h]
  | child up k ih =>
    rcases ih ha.up with ⟨-, hzero⟩ | ⟨hnr, hup, hzone⟩
    · exact absurd hzero ha.live.2
    · refine .inr ⟨hnr, ⟨hup.file, ha.valid, hup.live, hzone ▸ ha.live.2⟩, ?_⟩
      show v.entry (up.zone (v.truncated nr)) k = v.entry (up.zone v) k
      rw [hzone]

theorem Sound.truncated (hv : v.Sound) (hfile : (v.inode nr).isFile = true) : (v.truncated nr).Sound where
  firstdatazone_pos := hv.firstdatazone_pos
  nzones_lt := hv.nzones_lt
  zmap_zero := by
    show (if 0 ∈ (v.zones nr).map v.bitOf then false else v.zmap 0) = true
    rw [if_neg, hv.zmap_zero]
    intro hmem
    obtain ⟨z, hz, hbit⟩ := List.mem_map.1 hmem
    have hfirst := ((hv.ready hfile).marked z hz).first
    have := hv.firstdatazone_pos
    unfold bitOf at hbit
    omega
  marked a ha hz := by
    rcases truncated_holds ha with ⟨-, hzero⟩ | ⟨hnr, ha', hzone⟩
    · exact absurd hzero hz
    · rw [hzone] at hz ⊢
      have hnot : a.zone v ∉ v.zones nr := by
        intro hmem
        obtain ⟨-, b, hb, hbnr, hbz⟩ := mem_zones hfile hmem
        obtain rfl := hv.distinct a b ha' hb hz hbz.symm
        exact hnr hbnr
      have hm := (hv.marked a ha' hz).clear hv.firstdatazone_pos (hv.ready hfile).marked hnot
      exact ⟨hm.first, hm.last, hm.bit⟩
  distinct a b ha hb hz hab := by
    rcases truncated_holds ha with ⟨-, hzero⟩ | ⟨-, ha', hzone⟩
    · exact absurd hzero hz
    · rcases truncated_holds hb with ⟨-, hzero⟩ | ⟨-, hb', hzone'⟩
      · exact absurd (hab.trans hzero) hz
      · rw [hzone] at hz hab
        exact hv.distinct a b ha' hb' hz (hab.trans hzone')

/-- The other files are not touched. -/
theorem readByte_truncated_other (h : nr' ≠ nr) : (v.truncated nr).readByte nr' off = v.readByte nr' off := by
  have hwalk : ∀ k ks, (v.truncated nr).walk (.zone nr' k) ks = v.walk (.zone nr' k) ks := by
    intro k ks
    refine walk_congr ?_ fun _ _ => rfl
    show ((v.truncated nr).inode nr').iZone k = (v.inode nr').iZone k
    rw [truncated_other h]
  unfold readByte bmap
  cases bmapPath (off / 1024) with
  | none => rfl
  | some p =>
    simp only [Option.map_some, hwalk]
    rfl

/-- The file reads as zeros. -/
theorem readByte_truncated_self (h : off / 1024 < 7 + 512 + 512 * 512) :
    (v.truncated nr).readByte nr off = some 0 := by
  have hwalk : ∀ k < 9, ∀ ks, (v.truncated nr).walk (.zone nr k) ks = 0 := by
    intro k hk ks
    have hget : (v.truncated nr).get (.zone nr k) = 0 := by
      show ((v.truncated nr).inode nr).iZone k = 0
      rw [truncated_self]
      exact if_pos hk
    cases ks with
    | nil => exact hget
    | cons j ks => exact if_pos hget
  unfold readByte bmap
  cases hp : bmapPath (off / 1024) with
  | none =>
    unfold bmapPath at hp
    split_ifs at hp
  | some p =>
    have hp9 : p.1 < 9 := by
      unfold bmapPath at hp
      split_ifs at hp <;> cases hp <;> omega
    simp only [Option.map_some, hwalk p.1 hp9, if_pos]

end Truncated

end Volume

end Linux011.Zones
