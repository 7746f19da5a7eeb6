import Linux011.Namei.Paths
import Linux011.Lib.Table

/-!
# `..` across mounts

`iget` goes from a directory to what is mounted on it, `find_entry` back again.

1. `Consistent`: the trees on the disks. `Sound`: the tables of inodes and of super blocks, which
   `mount` keeps so.
2. `getEmptyInode_run`, `iput_run`, `iget_run`: what the calls do to the tables.
3. `descend`: an entry leads to a directory `Below`. `climb`: `..` leads back.
4. `dotdot_undoes`; `dotdot_not`: what it needs.
-/

namespace Linux011.Namei

open Linux011.Fs (Byte)
open Linux011.Zones (Name Dir)

/-! ## Trees and tables -/

/-- "." and "..", which are the first two entries of a directory; what the others lead to has the
directory as its "..". -/
structure Consistent (k : Files) (n : Dev → BitVec 16 → DInode) : Prop where
  intact : ∀ dev nr, Fs.isDir (n dev nr).iMode = true → (k dev nr).Intact
  links : ∀ dev nr, Fs.isDir (n dev nr).iMode = true → (n dev nr).iNlinks ≠ 0
  dot : ∀ dev nr, Fs.isDir (n dev nr).iMode = true → (k dev nr).used 0 = some ([0x2e], nr.toNat)
  up : ∀ dev nr, Fs.isDir (n dev nr).iMode = true →
    ∃ m : BitVec 16, (k dev nr).used 1 = some ([0x2e, 0x2e], m.toNat)
  child : ∀ dev nr i name (m : BitVec 16), Fs.isDir (n dev nr).iMode = true →
    (k dev nr).used i = some (name, m.toNat) → name ≠ [0x2e] → name ≠ [0x2e, 0x2e] →
    Fs.isDir (n dev m).iMode = true →
    m ≠ 1 ∧ (k dev m).used 1 = some ([0x2e, 0x2e], nr.toNat)

/-- The inodes are `n`: an inode is in the table once, and on the disk unless it is dirty, which it is
only when in use. A super block is mounted on an inode that is in use and marked, but for that of the
root device. -/
structure Sound (n : Dev → BitVec 16 → DInode) (s : State) : Prop where
  unique : ∀ i j, (s.inode i).iDev ≠ 0 → (s.inode i).iDev = (s.inode j).iDev →
    (s.inode i).iNum = (s.inode j).iNum → i = j
  core : ∀ i, (s.inode i).iDev ≠ 0 → (s.inode i).toDInode = n (s.inode i).iDev (s.inode i).iNum
  disk : ∀ dev nr, dev ≠ 0 →
    (∀ i, (s.inode i).iDev = dev → (s.inode i).iNum = nr → (s.inode i).iDirt = false) →
    s.dinode dev nr = n dev nr
  clean : ∀ i, (s.inode i).iCount = 0 → (s.inode i).iDirt = false
  device : ∀ i, (s.inode i).iCount ≠ 0 → (s.inode i).iDev ≠ 0 → s.getSuper (s.inode i).iDev ≠ none
  pipe : ∀ i, (s.inode i).iPipe = true → (s.inode i).iDev = 0
  mount : ∀ i, (s.inode i).iMount = true → ∃ sb, (s.super sb).sImount = some i
  covered : ∀ sb i, (s.super sb).sImount = some i →
    (s.super sb).sDev ≠ 0 ∧ (s.inode i).iCount ≠ 0 ∧ (s.inode i).iDev ≠ 0 ∧
      Fs.isDir (s.inode i).iMode = true ∧
      ((s.inode i).iMount = true ∧ (s.inode i).iNum ≠ 1 ∨
        (s.inode i).iMount = false ∧ (s.inode i).iNum = 1 ∧ (s.inode i).iDev = (s.super sb).sDev)
  once : ∀ sb sb' i, (s.super sb).sImount = some i → (s.super sb').sImount = some i → sb = sb'
  devs : ∀ sb sb', (s.super sb).sDev ≠ 0 → (s.super sb).sDev = (s.super sb').sDev → sb = sb'

/-- Entry 1 of a directory is the first one that is "..". -/
theorem Consistent.first_up {k : Files} {n : Dev → BitVec 16 → DInode} {dev : Dev} {nr : BitVec 16} (hk : Consistent k n)
    (hdir : Fs.isDir (n dev nr).iMode = true) :
    ∀ y < 1, ∀ m, (k dev nr).used y ≠ some ([0x2e, 0x2e], m) := by
  intro y hy m h
  obtain rfl : y = 0 := by omega
  rw [hk.dot dev nr hdir] at h
  cases h

theorem Consistent.one_lt_entries {k : Files} {n : Dev → BitVec 16 → DInode} {dev : Dev} {nr : BitVec 16} (hk : Consistent k n)
    (hdir : Fs.isDir (n dev nr).iMode = true) :
    1 < (k dev nr).entries := by
  obtain ⟨m, hm⟩ := hk.up dev nr hdir
  unfold Dir.used at hm
  split_ifs at hm with h
  exact h.1

namespace State

variable {s s' : State} {i j e : Ino} {sb : Sb} {dev : Dev} {nr : BitVec 16} {t fuel : ℕ}
  {k : Files} {c : Current} {name : Name} {n : Dev → BitVec 16 → DInode}

theorem setInode_self {m : MInode} : (s.setInode i m).inode i = m :=
  Function.update_self _ _ _

theorem setInode_of_ne {m : MInode} (h : j ≠ i) : (s.setInode i m).inode j = s.inode j :=
  Function.update_of_ne h _ _

theorem getSuper_eq_some (hs : Sound n s) (hdev : dev ≠ 0) :
    s.getSuper dev = some sb ↔ (s.super sb).sDev = dev := by
  unfold getSuper
  rw [if_neg hdev]
  constructor
  · intro h
    simpa using List.find?_some h
  · intro h
    cases hf : (List.finRange 8).find? fun sb => (s.super sb).sDev = dev with
    | none =>
      rw [List.find?_eq_none] at hf
      exact absurd h (by simpa using hf sb (List.mem_finRange sb))
    | some sb' =>
      have h' : (s.super sb').sDev = dev := by simpa using List.find?_some hf
      rw [hs.devs sb' sb (h' ▸ hdev) (h'.trans h.symm)]

theorem findInode_eq_some (hs : Sound n s) (hdev : dev ≠ 0) :
    s.findInode dev nr = some i ↔ (s.inode i).iDev = dev ∧ (s.inode i).iNum = nr := by
  unfold findInode
  constructor
  · intro h
    simpa using List.find?_some h
  · intro h
    cases hf : (List.finRange 32).find? fun i => (s.inode i).iDev = dev ∧ (s.inode i).iNum = nr with
    | none =>
      rw [List.find?_eq_none] at hf
      exact absurd h (by simpa using hf i (List.mem_finRange i))
    | some j =>
      have h' : (s.inode j).iDev = dev ∧ (s.inode j).iNum = nr := by simpa using List.find?_some hf
      rw [hs.unique j i (h'.1 ▸ hdev) (h'.1.trans h.1.symm) (h'.2.trans h.2.symm)]

theorem findInode_eq_none :
    s.findInode dev nr = none ↔ ∀ i, ¬ ((s.inode i).iDev = dev ∧ (s.inode i).iNum = nr) := by
  unfold findInode
  rw [List.find?_eq_none]
  constructor
  · intro h i hi
    exact h i (List.mem_finRange i) (by simpa using hi)
  · intro h i _ hi
    exact h i (by simpa using hi)

theorem findMount_eq_some (hs : Sound n s) :
    s.findMount i = some sb ↔ (s.super sb).sImount = some i := by
  unfold findMount
  constructor
  · intro h
    simpa using List.find?_some h
  · intro h
    cases hf : (List.finRange 8).find? fun sb => (s.super sb).sImount = some i with
    | none =>
      rw [List.find?_eq_none] at hf
      exact absurd h (by simpa using hf sb (List.mem_finRange sb))
    | some sb' =>
      have h' : (s.super sb').sImount = some i := by simpa using List.find?_some hf
      rw [hs.once sb' sb i h' h]

/-! ## What keeps the tables sound -/

/-- The same super blocks and inodes `n`, and one inode in the table that has changed. -/
structure Changes (n : Dev → BitVec 16 → DInode) (s s' : State) (i : Ino) : Prop where
  super : s'.super = s.super
  dinode : ∀ dev nr, s'.dinode dev nr = s.dinode dev nr ∨ s'.dinode dev nr = n dev nr
  other : ∀ j, j ≠ i → s'.inode j = s.inode j

theorem Changes.getSuper (h : Changes n s s' i) : s'.getSuper dev = s.getSuper dev := by
  unfold State.getSuper
  rw [h.super]

/-- An inode that stays what it is. -/
theorem Changes.sound (h : Changes n s s' i) (hs : Sound n s)
    (hdev : (s'.inode i).iDev = (s.inode i).iDev) (hnum : (s'.inode i).iNum = (s.inode i).iNum)
    (hdisk : (s'.inode i).toDInode = (s.inode i).toDInode)
    (hpipe : (s'.inode i).iPipe = (s.inode i).iPipe)
    (hmount : (s'.inode i).iMount = (s.inode i).iMount)
    (hclean : (s'.inode i).iCount = 0 → (s'.inode i).iDirt = false)
    (hdirt : (s.inode i).iDirt = true → (s'.inode i).iDirt = true ∨
      s'.dinode (s.inode i).iDev (s.inode i).iNum = n (s.inode i).iDev (s.inode i).iNum)
    (hdevice : (s.inode i).iCount = 0 → (s'.inode i).iCount ≠ 0 → (s.inode i).iDev ≠ 0 →
      s.getSuper (s.inode i).iDev ≠ none)
    (hcovered : ∀ sb, (s.super sb).sImount = some i → (s'.inode i).iCount ≠ 0) : Sound n s' := by
  have hall : ∀ j, (s'.inode j).iDev = (s.inode j).iDev ∧ (s'.inode j).iNum = (s.inode j).iNum ∧
      (s'.inode j).toDInode = (s.inode j).toDInode ∧ (s'.inode j).iPipe = (s.inode j).iPipe ∧
      (s'.inode j).iMount = (s.inode j).iMount := by
    intro j
    by_cases hj : j = i
    · subst hj
      exact ⟨hdev, hnum, hdisk, hpipe, hmount⟩
    · rw [h.other j hj]
      exact ⟨rfl, rfl, rfl, rfl, rfl⟩
  refine ⟨fun a b => ?_, fun j => ?_, fun dev nr hne hall' => ?_, fun j => ?_, fun j hc hd => ?_,
    fun j => ?_, fun j => ?_, fun sb j hsb => ?_, ?_, ?_⟩
  · rw [(hall a).1, (hall b).1, (hall a).2.1, (hall b).2.1]
    exact hs.unique a b
  · rw [(hall j).1, (hall j).2.1, (hall j).2.2.1]
    exact hs.core j
  · obtain hd | hd := h.dinode dev nr
    · by_cases hi : (s.inode i).iDev = dev ∧ (s.inode i).iNum = nr ∧ (s.inode i).iDirt = true
      · obtain ⟨rfl, rfl, hi⟩ := hi
        refine (hdirt hi).resolve_left fun hi' => ?_
        rw [hall' i hdev hnum] at hi'
        cases hi'
      · rw [hd]
        refine hs.disk dev nr hne fun j hjdev hjnum => ?_
        by_cases hj : j = i
        · subst hj
          simpa using fun hjd => hi ⟨hjdev, hjnum, hjd⟩
        · rw [← h.other j hj]
          exact hall' j ((hall j).1.trans hjdev) ((hall j).2.1.trans hjnum)
    · exact hd
  · by_cases hj : j = i
    · rw [hj]
      exact hclean
    · rw [h.other j hj]
      exact hs.clean j
  · rw [(hall j).1] at hd ⊢
    rw [h.getSuper]
    by_cases hj : j = i
    · subst hj
      by_cases hc₀ : (s.inode j).iCount = 0
      · exact hdevice hc₀ hc hd
      · exact hs.device j hc₀ hd
    · rw [h.other j hj] at hc
      exact hs.device j hc hd
  · rw [(hall j).2.2.2.1, (hall j).1]
    exact hs.pipe j
  · rw [(hall j).2.2.2.2, h.super]
    exact hs.mount j
  · rw [h.super] at hsb ⊢
    obtain ⟨h1, h2, h3, h4, h5⟩ := hs.covered sb j hsb
    have hmode : (s'.inode j).iMode = (s.inode j).iMode := congrArg DInode.iMode (hall j).2.2.1
    rw [(hall j).1, hmode, (hall j).2.2.2.2, (hall j).2.1]
    refine ⟨h1, ?_, h3, h4, h5⟩
    by_cases hj : j = i
    · subst hj
      exact hcovered sb hsb
    · rw [h.other j hj]
      exact h2
  · rw [h.super]
    exact hs.once
  · rw [h.super]
    exact hs.devs

/-- A slot that was not in use is given to another inode, or to none. -/
theorem Changes.sound_new (h : Changes n s s' i) (hs : Sound n s) (hfree : (s.inode i).iCount = 0)
    (hpipe : (s'.inode i).iPipe = false) (hmount : (s'.inode i).iMount = false)
    (hdirt : (s'.inode i).iDirt = false)
    (hnew : (s'.inode i).iDev = 0 ∨
      (s'.inode i).toDInode = n (s'.inode i).iDev (s'.inode i).iNum ∧
      s.getSuper (s'.inode i).iDev ≠ none ∧
      ∀ j, j ≠ i → ¬ ((s.inode j).iDev = (s'.inode i).iDev ∧ (s.inode j).iNum = (s'.inode i).iNum)) :
    Sound n s' := by
  refine ⟨fun a b ha hab hnum => ?_, fun j hj => ?_, fun dev nr hne hall => ?_, fun j hj => ?_,
    fun j hc hd => ?_, fun j hj => ?_, fun j hj => ?_, fun sb j hsb => ?_, ?_, ?_⟩
  · by_cases hai : a = i
    · subst hai
      obtain h0 | ⟨-, -, hother⟩ := hnew
      · exact absurd h0 ha
      · by_contra hne
        rw [h.other b (Ne.symm hne)] at hab hnum
        exact hother b (Ne.symm hne) ⟨hab.symm, hnum.symm⟩
    · by_cases hbi : b = i
      · subst hbi
        obtain h0 | ⟨-, -, hother⟩ := hnew
        · exact absurd (hab.trans h0) ha
        · rw [h.other a hai] at hab hnum
          exact absurd ⟨hab, hnum⟩ (hother a hai)
      · rw [h.other a hai] at ha hab hnum
        rw [h.other b hbi] at hab hnum
        exact hs.unique a b ha hab hnum
  · by_cases hji : j = i
    · subst hji
      exact (hnew.resolve_left hj).1
    · rw [h.other j hji] at hj ⊢
      exact hs.core j hj
  · obtain hd | hd := h.dinode dev nr
    · rw [hd]
      refine hs.disk dev nr hne fun j hjdev hjnum => ?_
      by_cases hji : j = i
      · rw [hji]
        exact hs.clean i hfree
      · rw [← h.other j hji] at hjdev hjnum ⊢
        exact hall j hjdev hjnum
    · exact hd
  · by_cases hji : j = i
    · rw [hji]
      exact hdirt
    · rw [h.other j hji] at hj ⊢
      exact hs.clean j hj
  · rw [h.getSuper]
    by_cases hji : j = i
    · subst hji
      exact (hnew.resolve_left hd).2.1
    · rw [h.other j hji] at hc hd ⊢
      exact hs.device j hc hd
  · by_cases hji : j = i
    · subst hji
      rw [hpipe] at hj
      cases hj
    · rw [h.other j hji] at hj ⊢
      exact hs.pipe j hj
  · by_cases hji : j = i
    · subst hji
      rw [hmount] at hj
      cases hj
    · rw [h.other j hji] at hj
      rw [h.super]
      exact hs.mount j hj
  · rw [h.super] at hsb ⊢
    have hji : j ≠ i := by
      rintro rfl
      exact (hs.covered sb j hsb).2.1 hfree
    rw [h.other j hji]
    exact hs.covered sb j hsb
  · rw [h.super]
    exact hs.once
  · rw [h.super]
    exact hs.devs

theorem setInode_changes {m : MInode} : Changes n s (s.setInode i m) i :=
  ⟨rfl, fun _ _ => .inl rfl, fun _ hj => setInode_of_ne hj⟩

theorem grab_self : (s.grab i).inode i = { s.inode i with iCount := (s.inode i).iCount + 1 } :=
  setInode_self

theorem drop_self : (s.drop i).inode i = { s.inode i with iCount := (s.inode i).iCount - 1 } :=
  setInode_self

theorem grab_changes : Changes n s (s.grab i) i := setInode_changes

theorem drop_changes : Changes n s (s.drop i) i := setInode_changes

theorem grab_sound (hs : Sound n s)
    (hdevice : (s.inode i).iDev ≠ 0 → s.getSuper (s.inode i).iDev ≠ none) : Sound n (s.grab i) := by
  refine grab_changes.sound hs ?_ ?_ ?_ ?_ ?_ ?_ ?_ (fun _ _ => hdevice)
    fun _ _ => ?_ <;> rw [grab_self]
  · exact fun h => absurd h (Nat.succ_ne_zero _)
  · exact .inl
  · exact Nat.succ_ne_zero _

theorem mount_eq_some (h : s.mount i sb = some s') :
    (s.inode i).iCount = 1 ∧ (s.inode i).iNum ≠ 1 ∧ Fs.isDir (s.inode i).iMode = true ∧
      (s.super sb).sImount = none ∧ (s.inode i).iMount = false ∧ s'.dinode = s.dinode ∧
      s'.super = Function.update s.super sb { s.super sb with sImount := some i } ∧
      s'.inode i = { s.inode i with iMount := true, iDirt := true } ∧
      ∀ j, j ≠ i → s'.inode j = s.inode j := by
  unfold mount at h
  dsimp only at h
  split_ifs at h with hcount hdir hfree hmount
  obtain ⟨hc, hnum⟩ := not_or.1 hcount
  cases h
  exact ⟨not_not.1 hc, hnum, hdir, not_not.1 hfree, by simpa using hmount, rfl, rfl, setInode_self,
    fun j hj => setInode_of_ne hj⟩

/-- Mounting a device on a directory keeps the tables sound. -/
theorem mount_sound (hs : Sound n s) (hdev : (s.inode i).iDev ≠ 0) (hsb : (s.super sb).sDev ≠ 0)
    (h : s.mount i sb = some s') : Sound n s' := by
  obtain ⟨hc, hnum, hdir, hfree, hmount, hdinode, hsuper, hself, hother⟩ := mount_eq_some h
  have hall : ∀ j, (s'.inode j).iDev = (s.inode j).iDev ∧ (s'.inode j).iNum = (s.inode j).iNum ∧
      (s'.inode j).toDInode = (s.inode j).toDInode ∧ (s'.inode j).iPipe = (s.inode j).iPipe ∧
      (s'.inode j).iCount = (s.inode j).iCount := by
    intro j
    by_cases hj : j = i
    · rw [hj, hself]
      exact ⟨rfl, rfl, rfl, rfl, rfl⟩
    · rw [hother j hj]
      exact ⟨rfl, rfl, rfl, rfl, rfl⟩
  have hsdev : ∀ x, (s'.super x).sDev = (s.super x).sDev := by
    intro x
    rw [hsuper]
    by_cases hx : x = sb
    · rw [hx, Function.update_self]
    · rw [Function.update_of_ne hx]
  have hget : ∀ dev, s'.getSuper dev = s.getSuper dev := by
    intro dev
    unfold getSuper
    simp only [hsdev]
  -- Nothing has been mounted on the directory before.
  have hnone : ∀ x, (s.super x).sImount ≠ some i := by
    intro x hx
    obtain ⟨-, -, -, -, hcov | hcov⟩ := hs.covered x i hx
    · rw [hmount] at hcov
      cases hcov.1
    · exact hnum hcov.2.1
  have himount : ∀ x j, (s'.super x).sImount = some j ↔
      x = sb ∧ j = i ∨ x ≠ sb ∧ (s.super x).sImount = some j := by
    intro x j
    rw [hsuper]
    by_cases hx : x = sb
    · subst hx
      rw [Function.update_self]
      simpa using eq_comm
    · rw [Function.update_of_ne hx]
      simp [hx]
  refine ⟨fun a b => ?_, fun j => ?_, fun dev nr hne hall' => ?_, fun j hj => ?_, fun j hc hd => ?_,
    fun j => ?_, fun j hj => ?_, fun x j hx => ?_, fun x y j hx hy => ?_, fun x y => ?_⟩
  · rw [(hall a).1, (hall b).1, (hall a).2.1, (hall b).2.1]
    exact hs.unique a b
  · rw [(hall j).1, (hall j).2.1, (hall j).2.2.1]
    exact hs.core j
  · rw [hdinode]
    refine hs.disk dev nr hne fun j hjdev hjnum => ?_
    have hclean := hall' j ((hall j).1.trans hjdev) ((hall j).2.1.trans hjnum)
    by_cases hj : j = i
    · rw [hj, hself] at hclean
      cases hclean
    · rw [hother j hj] at hclean
      exact hclean
  · rw [(hall j).2.2.2.2] at hj
    have hji : j ≠ i := by
      rintro rfl
      omega
    rw [hother j hji]
    exact hs.clean j hj
  · rw [(hall j).1] at hd ⊢
    rw [hget]
    rw [(hall j).2.2.2.2] at hc
    exact hs.device j hc hd
  · rw [(hall j).2.2.2.1, (hall j).1]
    exact hs.pipe j
  · by_cases hji : j = i
    · exact ⟨sb, (himount sb j).2 (.inl ⟨rfl, hji⟩)⟩
    · rw [hother j hji] at hj
      obtain ⟨x, hx⟩ := hs.mount j hj
      have hxsb : x ≠ sb := by
        rintro rfl
        rw [hfree] at hx
        cases hx
      exact ⟨x, (himount x j).2 (.inr ⟨hxsb, hx⟩)⟩
  · have hmode : (s'.inode j).iMode = (s.inode j).iMode := congrArg DInode.iMode (hall j).2.2.1
    rw [hsdev, (hall j).2.2.2.2, (hall j).1, hmode, (hall j).2.1]
    obtain ⟨rfl, rfl⟩ | ⟨-, hx⟩ := (himount x j).1 hx
    · rw [hself]
      exact ⟨hsb, by omega, hdev, hdir, .inl ⟨rfl, hnum⟩⟩
    · have hji : j ≠ i := by
        rintro rfl
        exact hnone x hx
      rw [hother j hji]
      exact hs.covered x j hx
  · obtain ⟨rfl, rfl⟩ | ⟨-, hx⟩ := (himount x j).1 hx
    · obtain ⟨rfl, -⟩ | ⟨-, hy⟩ := (himount y j).1 hy
      · rfl
      · exact absurd hy (hnone y)
    · obtain ⟨-, rfl⟩ | ⟨-, hy⟩ := (himount y j).1 hy
      · exact absurd hx (hnone x)
      · exact hs.once x y j hx hy
  · rw [hsdev, hsdev]
    exact hs.devs x y

/-! ## `get_empty_inode` -/

theorem scanEmpty_some {last : Ino} {r : Option Ino} (hr : ∀ j, r = some j → (s.inode j).iCount = 0)
    (h : (s.scanEmpty t last r).1 = some i) : (s.inode i).iCount = 0 := by
  induction t generalizing last r with
  | zero => exact hr i h
  | succ t ih =>
    unfold scanEmpty at h
    dsimp only at h
    split_ifs at h with hc hd
    · exact ih hr h
    · cases h
      exact not_not.1 hc
    · refine ih (fun j hj => ?_) h
      cases hj
      exact not_not.1 hc

theorem scanEmpty_none {last : Ino} {r : Option Ino} (h : (s.scanEmpty t last r).1 = none) :
    r = none ∧ ∀ m < t, (s.inode (last + Fin.ofNat 32 (m + 1))).iCount ≠ 0 := by
  induction t generalizing last r with
  | zero => exact ⟨h, fun m hm => absurd hm (Nat.not_lt_zero m)⟩
  | succ t ih =>
    unfold scanEmpty at h
    dsimp only at h
    split_ifs at h with hc hd
    · obtain ⟨hr, hrest⟩ := ih h
      refine ⟨hr, fun m hm => ?_⟩
      cases m with
      | zero => exact hc
      | succ m =>
        have hlast : last + 1 + Fin.ofNat 32 (m + 1) = last + Fin.ofNat 32 (m + 1 + 1) := by
          apply Fin.ext
          simp only [Fin.val_add, Fin.ofNat]
          change ((last.val + 1) % 32 + (m + 1) % 32) % 32 = _
          omega
        rw [← hlast]
        exact hrest m (Nat.lt_of_succ_lt_succ hm)
    · obtain ⟨hr, -⟩ := ih h
      cases hr

/-- A slot that is not in use is found and cleared. -/
theorem getEmptyInode_run (hs : Sound n s) (hfree : ∃ i, (s.inode i).iCount = 0) :
    ∃ e s', s.getEmptyInode = .ok (e, s') ∧ (s.inode e).iCount = 0 ∧ Changes n s s' e ∧
      s'.inode e = { MInode.zero with iCount := 1 } := by
  unfold getEmptyInode
  rcases hscan : s.scanEmpty 32 s.lastInode none with ⟨r, last⟩
  dsimp only
  cases r with
  | none =>
    obtain ⟨i, hi⟩ := hfree
    obtain ⟨-, hall⟩ := scanEmpty_none (t := 32) (congrArg Prod.fst hscan)
    have hm : s.lastInode + Fin.ofNat 32 ((i.val + 31 - s.lastInode.val) % 32 + 1) = i := by
      apply Fin.ext
      have h1 := i.isLt
      have h2 := s.lastInode.isLt
      simp only [Fin.val_add, Fin.ofNat]
      omega
    have hne := hall _ (Nat.mod_lt (i.val + 31 - s.lastInode.val) (by decide))
    rw [hm] at hne
    exact absurd hi hne
  | some e =>
    have he : (s.inode e).iCount = 0 := scanEmpty_some (fun j h => by cases h) (congrArg Prod.fst hscan)
    have hdirt : (s.inode e).iDirt = false := hs.clean e he
    dsimp only
    rw [if_neg fun h => by rw [hdirt] at h; cases h.1]
    have hwrite : ({ s with lastInode := last } : State).writeInode e = .ok { s with lastInode := last } :=
      if_pos (.inl hdirt)
    rw [hwrite]
    exact ⟨e, _, rfl, he, ⟨rfl, fun _ _ => .inl rfl, fun j hj => setInode_of_ne hj⟩, setInode_self⟩

theorem getEmptyInode_free {r : Ino × State} (h : s.getEmptyInode = .ok r) :
    ∃ i, (s.inode i).iCount = 0 := by
  unfold getEmptyInode at h
  rcases hscan : s.scanEmpty 32 s.lastInode none with ⟨i, last⟩
  rw [hscan] at h
  dsimp only at h
  cases i with
  | none => cases h
  | some i => exact ⟨i, scanEmpty_some (fun j h => by cases h) (congrArg Prod.fst hscan)⟩

/-! ## `iput` -/

theorem isBlk_of_isDir {mode : BitVec 16} (h : Fs.isDir mode = true) : Fs.isBlk mode = false := by
  unfold Fs.isDir at h
  unfold Fs.isBlk
  rw [beq_iff_eq] at h
  rw [h]
  rfl

theorem pipe_eq_false (hs : Sound n s) (hdev : (s.inode i).iDev ≠ 0) : (s.inode i).iPipe = false := by
  by_contra h
  exact hdev (hs.pipe i (by simpa using h))

theorem iput_eq (hs : Sound n s) (hc : (s.inode i).iCount ≠ 0) (hdev : (s.inode i).iDev ≠ 0)
    (hdir : Fs.isDir (s.inode i).iMode = true) : s.iput i = s.iputRepeat i := by
  unfold iput
  dsimp only
  rw [if_neg hc, if_neg (by rw [pipe_eq_false hs hdev]; exact Bool.false_ne_true), if_neg hdev,
    if_neg (by rw [isBlk_of_isDir hdir]; exact Bool.false_ne_true)]

theorem iputRepeat_shared (h : 1 < (s.inode i).iCount) : s.iputRepeat i = .ok (s.drop i) := if_pos h

/-- A reference to a directory is given back. -/
theorem iput_run (hs : Sound n s) (hc : (s.inode i).iCount ≠ 0) (hdev : (s.inode i).iDev ≠ 0)
    (hdir : Fs.isDir (s.inode i).iMode = true) (hlinks : (s.inode i).iNlinks ≠ 0)
    (hmore : ∀ sb, (s.super sb).sImount = some i → 1 < (s.inode i).iCount) :
    ∃ s', s.iput i = .ok s' ∧ Sound n s' ∧ Changes n s s' i ∧
      (s'.inode i).iCount = (s.inode i).iCount - 1 ∧ (s'.inode i).iDev = (s.inode i).iDev ∧
      (s'.inode i).iNum = (s.inode i).iNum ∧ (s'.inode i).toDInode = (s.inode i).toDInode ∧
      (s'.inode i).iMount = (s.inode i).iMount := by
  rw [iput_eq hs hc hdev hdir]
  unfold iputRepeat
  by_cases hone : 1 < (s.inode i).iCount
  · rw [if_pos hone]
    refine ⟨s.drop i, rfl, drop_changes.sound hs ?_ ?_ ?_ ?_ ?_ ?_ ?_
      (fun h => absurd h hc) (fun _ _ => ?_), setInode_changes, ?_, ?_, ?_, ?_, ?_⟩ <;> rw [drop_self]
    case refine_6 =>
      intro h
      change (s.inode i).iCount - 1 = 0 at h
      omega
    case refine_7 => exact .inl
    case refine_8 =>
      change (s.inode i).iCount - 1 ≠ 0
      omega
  · rw [if_neg hone, if_neg hlinks]
    -- The last reference: the inode is written out.
    obtain ⟨t, ht, hsuper, hdinode, hdirt, hself, hother⟩ : ∃ t, s.writeInode i = .ok t ∧
        t.super = s.super ∧
        (∀ dev nr, t.dinode dev nr = s.dinode dev nr ∨ t.dinode dev nr = n dev nr) ∧
        ((s.inode i).iDirt = true → t.dinode (s.inode i).iDev (s.inode i).iNum =
          n (s.inode i).iDev (s.inode i).iNum) ∧
        t.inode i = { s.inode i with iDirt := false } ∧ ∀ j, j ≠ i → t.inode j = s.inode j := by
      unfold writeInode
      dsimp only
      by_cases hdirt : (s.inode i).iDirt = false
      · refine ⟨s, if_pos (.inl hdirt), rfl, fun _ _ => .inl rfl, fun h => ?_, ?_, fun _ _ => rfl⟩
        · rw [hdirt] at h
          cases h
        · rw [← hdirt]
      · rw [if_neg (not_or.2 ⟨hdirt, hdev⟩)]
        cases hsb : s.getSuper (s.inode i).iDev with
        | none => exact absurd hsb (hs.device i hc hdev)
        | some sb =>
          refine ⟨_, rfl, rfl, fun dev nr => ?_, fun _ => ?_, setInode_self,
            fun j hj => setInode_of_ne hj⟩
          · dsimp only
            by_cases hd : dev = (s.inode i).iDev
            · subst hd
              rw [Function.update_self]
              by_cases hn : nr = (s.inode i).iNum
              · subst hn
                rw [Function.update_self]
                exact .inr (hs.core i hdev)
              · rw [Function.update_of_ne hn]
                exact .inl rfl
            · rw [Function.update_of_ne hd]
              exact .inl rfl
          · dsimp only
            rw [Function.update_self, Function.update_self]
            exact hs.core i hdev
    have hfinal : (t.drop i).inode i =
        { s.inode i with iCount := (s.inode i).iCount - 1, iDirt := false } := by
      rw [drop_self, hself]
    have hchanges : Changes n s (t.drop i) i := by
      refine ⟨hsuper, hdinode, fun j hj => ?_⟩
      unfold drop
      rw [setInode_of_ne hj]
      exact hother j hj
    refine ⟨t.drop i, by rw [ht]; rfl, hchanges.sound hs ?_ ?_ ?_ ?_ ?_ ?_ (fun h => .inr (hdirt h))
      (fun h => absurd h hc) (fun sb hsb => absurd (hmore sb hsb) hone), hchanges, ?_, ?_, ?_, ?_, ?_⟩
    case refine_6 =>
      intro _
      rw [hfinal]
    all_goals rw [hfinal]

/-- The slot that `get_empty_inode` has given is given back. -/
theorem iput_empty (hc : (s.inode e).iCount ≠ 0) (hdev : (s.inode e).iDev = 0)
    (hpipe : (s.inode e).iPipe = false) : s.iput e = .ok (s.drop e) := by
  unfold iput
  dsimp only
  rw [if_neg hc, if_neg (by rw [hpipe]; exact Bool.false_ne_true), if_pos hdev]

/-! ## `iget` -/

theorem drop_grab : (s.grab i).drop i = s := by
  unfold drop
  rw [grab_self]
  unfold grab setInode
  dsimp only
  rw [Function.update_idem, Nat.add_sub_cancel, Function.update_eq_self]

/-- An inode is obtained; those in use stay as they are. -/
structure Got (s s' : State) (i : Ino) (dev : Dev) (nr : BitVec 16) : Prop where
  super : s'.super = s.super
  dev : (s'.inode i).iDev = dev
  num : (s'.inode i).iNum = nr
  mount : (s'.inode i).iMount = false
  other : ∀ j, j ≠ i → (s.inode j).iCount ≠ 0 → s'.inode j = s.inode j
  count : (s.inode i).iCount ≠ 0 → s'.inode i = { s.inode i with iCount := (s.inode i).iCount + 1 }
  used : (s'.inode i).iCount ≠ 0
  room : (s'.inode i).iCount = 1 ∨ ∃ e, (s'.inode e).iCount = 0

theorem Got.same (h : s.Got s' i dev nr) (hj : (s.inode j).iCount ≠ 0) :
    (s'.inode j).iDev = (s.inode j).iDev ∧ (s'.inode j).iNum = (s.inode j).iNum ∧
      (s'.inode j).iMount = (s.inode j).iMount := by
  by_cases hji : j = i
  · subst hji
    rw [h.count hj]
    exact ⟨rfl, rfl, rfl⟩
  · rw [h.other j hji hj]
    exact ⟨rfl, rfl, rfl⟩

/-- The loop of `iget`, when nothing is mounted on the inode. -/
theorem igetLoop_got (hs : Sound n s) (he : (s.inode e).iCount = 0) (hch : Changes n s s' e)
    (hzero : s'.inode e = { MInode.zero with iCount := 1 }) (hs' : Sound n s') (hdev : dev ≠ 0)
    (hsuper : s.getSuper dev ≠ none)
    (hmount : ∀ j, (s'.inode j).iDev = dev → (s'.inode j).iNum = nr → (s'.inode j).iMount = false) :
    ∃ i u, igetLoop e (t + 1) dev nr s' = .ok (i, u) ∧ Sound n u ∧ s.Got u i dev nr := by
  unfold igetLoop
  cases hf : s'.findInode dev nr with
  | none =>
    have hnone := findInode_eq_none.1 hf
    obtain ⟨m, hm⟩ : ∃ m : MInode, m =
        { s'.inode e with toDInode := s'.dinode dev nr, iDev := dev, iNum := nr } := ⟨_, rfl⟩
    have hread : (s'.setInode e { s'.inode e with iDev := dev, iNum := nr }).readInode e =
        .ok (s'.setInode e m) := by
      unfold readInode
      rw [setInode_self]
      dsimp only
      have hsup : (s'.setInode e { s'.inode e with iDev := dev, iNum := nr }).getSuper dev =
          s.getSuper dev := hch.getSuper
      rw [hsup]
      cases hsb : s.getSuper dev with
      | none => exact absurd hsb hsuper
      | some sb =>
        rw [hm]
        unfold setInode
        dsimp only
        rw [Function.update_idem]
    dsimp only
    rw [hread]
    have hself : (s'.setInode e m).inode e = m := setInode_self
    have hother : ∀ j, j ≠ e → (s'.setInode e m).inode j = s.inode j := fun j hj => by
      rw [setInode_of_ne hj, hch.other j hj]
    refine ⟨e, s'.setInode e m, rfl, ?_, ?_⟩
    · refine Changes.sound_new (s := s) (i := e) ⟨hch.super, hch.dinode, hother⟩ hs he ?_ ?_ ?_ ?_ <;>
        rw [hself, hm]
      · rw [hzero]
        rfl
      · rw [hzero]
        rfl
      · rw [hzero]
        rfl
      · refine .inr ⟨?_, hsuper, fun j hj h => hnone j ?_⟩
        · exact hs'.disk dev nr hdev fun j hd hn => absurd ⟨hd, hn⟩ (hnone j)
        · rw [hch.other j hj]
          exact h
    · refine ⟨hch.super, ?_, ?_, ?_, fun j hj _ => hother j hj, fun h => absurd he h, ?_, .inl ?_⟩ <;>
        rw [hself, hm] <;> try rw [hzero]
      · rfl
      · exact Nat.one_ne_zero
  | some i =>
    obtain ⟨hd, hn⟩ := (findInode_eq_some hs' hdev).1 hf
    have hie : i ≠ e := by
      rintro rfl
      rw [hzero] at hd
      exact hdev hd.symm
    have hi : s'.inode i = s.inode i := hch.other i hie
    have hgrab : ∀ j, j ≠ i → (s'.grab i).inode j = s'.inode j := fun j hj => setInode_of_ne hj
    have hge : (s'.grab i).inode e = { MInode.zero with iCount := 1 } := by
      rw [hgrab e (Ne.symm hie), hzero]
    have hm : ((s'.grab i).inode i).iMount = false := by
      rw [grab_self]
      exact hmount i hd hn
    have hput : (s'.grab i).iput e = .ok ((s'.grab i).drop e) :=
      iput_empty (by rw [hge]; decide) (by rw [hge]; rfl) (by rw [hge]; rfl)
    dsimp only
    rw [hm, if_neg Bool.false_ne_true]
    dsimp only
    rw [hput]
    have hsg : Sound n (s'.grab i) := by
      refine grab_sound hs' fun _ => ?_
      rw [hd, hch.getSuper]
      exact hsuper
    have hdi : ((s'.grab i).drop e).inode i = { s.inode i with iCount := (s.inode i).iCount + 1 } := by
      unfold drop
      rw [setInode_of_ne hie, grab_self, hi]
    have hde : ((s'.grab i).drop e).inode e = MInode.zero := by
      rw [drop_self, hge]
      rfl
    refine ⟨i, (s'.grab i).drop e, rfl, ?_, ?_⟩
    · refine drop_changes.sound hsg ?_ ?_ ?_ ?_ ?_ ?_ ?_ ?_ ?_
      all_goals rw [hde]
      case refine_6 => exact fun _ => rfl
      case refine_9 =>
        intro sb hsb
        refine absurd ?_ (hsg.covered sb e hsb).2.2.1
        rw [hge]
        rfl
      all_goals rw [hge]
      · exact fun h => absurd h Bool.false_ne_true
      · exact fun _ h => absurd rfl h
    · refine ⟨hch.super, ?_, ?_, ?_, fun j hj hc => ?_, fun _ => hdi, ?_, .inr ⟨e, ?_⟩⟩
      · rw [hdi]
        exact hi ▸ hd
      · rw [hdi]
        exact hi ▸ hn
      · rw [hdi]
        exact hi ▸ hmount i hd hn
      · have hje : j ≠ e := by
          rintro rfl
          exact hc he
        unfold drop
        rw [setInode_of_ne hje, hgrab j hj, hch.other j hje]
      · rw [hdi]
        exact Nat.succ_ne_zero _
      · rw [hde]
        rfl

/-- `iget` obtains the inode, or the root of what is mounted on it. -/
theorem iget_run (hs : Sound n s) (hdev : dev ≠ 0) (hsuper : s.getSuper dev ≠ none)
    (hfree : ∃ i, (s.inode i).iCount = 0) (hfuel : 2 ≤ fuel) (nr : BitVec 16) :
    ∃ i s' dev' nr', s.iget fuel dev nr = .ok (i, s') ∧ Sound n s' ∧ s.Got s' i dev' nr' ∧
      (dev' = dev ∧ nr' = nr ∨
        ∃ p sb, (s.inode p).iDev = dev ∧ (s.inode p).iNum = nr ∧ (s.inode p).iMount = true ∧
          (s.super sb).sImount = some p ∧ dev' = (s.super sb).sDev ∧ nr' = 1) := by
  obtain ⟨t, rfl⟩ := Nat.exists_eq_add_of_le' hfuel
  obtain ⟨e, s₁, hempty, he, hch, hzero⟩ := getEmptyInode_run hs hfree
  have hs₁ : Sound n s₁ := by
    refine hch.sound_new hs he ?_ ?_ ?_ (.inl ?_) <;> rw [hzero] <;> rfl
  have higet : s.iget (t + 2) dev nr = igetLoop e (t + 2) dev nr s₁ := by
    unfold iget
    rw [if_neg hdev, hempty]
    rfl
  rw [higet]
  by_cases hm : ∀ j, (s₁.inode j).iDev = dev → (s₁.inode j).iNum = nr → (s₁.inode j).iMount = false
  · obtain ⟨i, u, hrun, hu, hgot⟩ := igetLoop_got (t := t + 1) hs he hch hzero hs₁ hdev hsuper hm
    exact ⟨i, u, dev, nr, hrun, hu, hgot, .inl ⟨rfl, rfl⟩⟩
  -- The inode `p` is a mount point: it is released again, and the mounted root is looked for.
  simp only [not_forall, Bool.not_eq_false] at hm
  obtain ⟨p, hpd, hpn, hpm⟩ := hm
  obtain ⟨sb, hsb⟩ := hs₁.mount p hpm
  obtain ⟨hsbdev, hpc, -, hpdir, -⟩ := hs₁.covered sb p hsb
  have hpe : p ≠ e := by
    rintro rfl
    rw [hzero] at hpm
    cases hpm
  have hp : s₁.inode p = s.inode p := hch.other p hpe
  have hgm : ((s₁.grab p).inode p).iMount = true := by
    rw [grab_self]
    exact hpm
  have hfm : (s₁.grab p).findMount p = some sb := (findMount_eq_some hs₁).2 hsb
  have hput : (s₁.grab p).iput p = .ok s₁ := by
    have hg : Sound n (s₁.grab p) := grab_sound hs₁ (hs₁.device p hpc)
    rw [iput_eq hg, iputRepeat_shared, drop_grab] <;> rw [grab_self]
    · change 1 < (s₁.inode p).iCount + 1
      omega
    · exact Nat.succ_ne_zero _
    · exact hpd ▸ hdev
    · exact hpdir
  have hstep : igetLoop e (t + 2) dev nr s₁ = igetLoop e (t + 1) (s₁.super sb).sDev 1 s₁ := by
    rw [igetLoop, (findInode_eq_some hs₁ hdev).2 ⟨hpd, hpn⟩]
    dsimp only
    rw [hgm, if_pos rfl, hfm]
    dsimp only
    rw [hput]
    rfl
  rw [hstep]
  have hsuper' : s.getSuper (s₁.super sb).sDev ≠ none := by
    have hget : s.getSuper (s₁.super sb).sDev = some sb :=
      (getSuper_eq_some hs hsbdev).2 (by rw [hch.super])
    rw [hget]
    exact Option.some_ne_none sb
  have hroot : ∀ j, (s₁.inode j).iDev = (s₁.super sb).sDev → (s₁.inode j).iNum = 1 →
      (s₁.inode j).iMount = false := by
    intro j _ hn
    by_contra hj
    obtain ⟨sb', hsb'⟩ := hs₁.mount j (by simpa using hj)
    obtain ⟨-, -, -, -, hcov | hcov⟩ := hs₁.covered sb' j hsb'
    · exact hcov.2 hn
    · exact hj hcov.1
  obtain ⟨i, u, hrun, hu, hgot⟩ := igetLoop_got (t := t) hs he hch hzero hs₁ hsbdev hsuper' hroot
  refine ⟨i, u, _, 1, hrun, hu, hgot, .inr ⟨p, sb, hp ▸ hpd, hp ▸ hpn, hp ▸ hpm, ?_, ?_, rfl⟩⟩
  · rw [← hch.super]
    exact hsb
  · rw [hch.super]

/-- An inode that is in use, and that nothing is mounted on. -/
theorem iget_known (hs : Sound n s) (hc : (s.inode i).iCount ≠ 0) (hdev : (s.inode i).iDev ≠ 0)
    (hmount : (s.inode i).iMount = false) (hfree : ∃ i, (s.inode i).iCount = 0) (hfuel : 2 ≤ fuel) :
    ∃ s', s.iget fuel (s.inode i).iDev (s.inode i).iNum = .ok (i, s') := by
  obtain ⟨j, s', dev', nr', hrun, hs', hgot, hwhere⟩ :=
    iget_run hs hdev (hs.device i hc hdev) hfree hfuel (s.inode i).iNum
  obtain ⟨rfl, rfl⟩ | ⟨p, sb, hpd, hpn, hpm, -, -, -⟩ := hwhere
  · have hij : j = i := by
      by_contra hne
      have hi := hgot.other i (Ne.symm hne) hc
      refine hne (hs'.unique j i ?_ ?_ ?_)
      · rw [hgot.dev]
        exact hdev
      · rw [hgot.dev, hi]
      · rw [hgot.num, hi]
    exact ⟨s', hij ▸ hrun⟩
  · obtain rfl := hs.unique p i (hpd ▸ hdev) hpd hpn
    rw [hmount] at hpm
    cases hpm

/-! ## Entries -/

/-- The first entry with the name is found. -/
theorem findEntry_used {d : Dir} {name' : Name} {x : ℕ} {m : BitVec 16} (hne : name.take 14 ≠ [])
    (hdot : s.dotdot c i (name.take 14) = .ok (name', j, s')) (hd : s'.dirOf k j = d) (hint : d.Intact)
    (hlen : name'.length ≤ 14) (hname : ∀ b ∈ name', b ≠ 0) (hused : d.used x = some (name', m.toNat))
    (hfirst : ∀ y < x, ∀ m, d.used y ≠ some (name', m)) (hx : x < (s.dirOf k i).entries) :
    s.findEntry k c i name = .ok (some m, j, s') := by
  have hino : d.ino x = m.toNat := by
    unfold Dir.used at hused
    split_ifs at hused
    simpa using congrArg (Option.map Prod.snd) hused
  unfold findEntry
  dsimp only
  rw [if_neg hne, hdot]
  dsimp only [bind, Except.bind]
  rw [hd, hint.scan_first hlen hname hused hfirst hx (Nat.lt_succ_self _)]
  dsimp only
  rw [← Dir.ino_eq, hino, BitVec.ofNat_toNat, BitVec.setWidth_eq]
  rfl

/-- A reference to a directory is given back, which has another one. -/
theorem follow_held (hs : Sound n s) (hc : (s.inode i).iCount ≠ 0)
    (hdir : Fs.isDir (s.inode i).iMode = true) :
    (s.grab i).follow fuel i nr = s.iget fuel (s.inode i).iDev nr := by
  have hput : (s.grab i).iput i = .ok s := by
    by_cases hdev : (s.inode i).iDev = 0
    · by_cases hpipe : (s.inode i).iPipe = true
      · unfold iput
        rw [grab_self]
        dsimp only
        rw [if_neg (Nat.succ_ne_zero _), if_pos hpipe, if_pos (by omega), drop_grab]
      · unfold iput
        rw [grab_self]
        dsimp only
        rw [if_neg (Nat.succ_ne_zero _), if_neg hpipe, if_pos hdev, drop_grab]
    · have hg : Sound n (s.grab i) := grab_sound hs (hs.device i hc)
      rw [iput_eq hg, iputRepeat_shared, drop_grab] <;> rw [grab_self]
      · change 1 < (s.inode i).iCount + 1
        omega
      · exact Nat.succ_ne_zero _
      · exact hdev
      · exact hdir
  unfold follow
  rw [hput, grab_self]
  rfl

/-- A directory that a process has come to: nothing is mounted on it. -/
structure Held (s : State) (i : Ino) : Prop where
  used : (s.inode i).iCount ≠ 0
  dev : (s.inode i).iDev ≠ 0
  dir : Fs.isDir (s.inode i).iMode = true
  mount : (s.inode i).iMount = false

/-- `..` leads back to `j`: out of the directory below it, or out of what is mounted there. -/
structure Below (k : Files) (s : State) (i j : Ino) : Prop extends Held s i where
  room : (s.inode i).iCount = 1 ∨ ∃ e, (s.inode e).iCount = 0
  held : (s.inode j).iCount ≠ 0 ∧ (j = i → 1 < (s.inode i).iCount)
  top : (s.inode j).iMount = false
  up : (s.inode i).iNum ≠ 1 ∧ (s.inode i).iDev = (s.inode j).iDev ∧
      (k (s.inode i).iDev (s.inode i).iNum).used 1 = some ([0x2e, 0x2e], (s.inode j).iNum.toNat) ∨
    ∃ p sb, (s.super sb).sImount = some p ∧ (s.inode i).iNum = 1 ∧
      (s.inode i).iDev = (s.super sb).sDev ∧ (s.inode p).iMount = true ∧
      (s.inode p).iDev = (s.inode j).iDev ∧
      (k (s.inode p).iDev (s.inode p).iNum).used 1 = some ([0x2e, 0x2e], (s.inode j).iNum.toNat)

theorem climb (hk : Consistent k n) (hs : Sound n s) (hb : Below k s i j) (hroot : c.root ≠ some i)
    (hfuel : 2 ≤ fuel) :
    ∃ m dir u v, s.findEntry k c i [0x2e, 0x2e] = .ok (some m, dir, u) ∧
      u.follow fuel dir m = .ok (j, v) := by
  have hcore := hs.core i hb.dev
  have hni : Fs.isDir (n (s.inode i).iDev (s.inode i).iNum).iMode = true := by
    rw [← hcore]
    exact hb.dir
  have hlinks : (s.inode i).iNlinks ≠ 0 := by
    have h := hk.links _ _ hni
    rw [← hcore] at h
    exact h
  have hmore : ∀ sb, (s.super sb).sImount = some i → 1 < (s.inode i).iCount := by
    intro sb hsb
    obtain ⟨hsbdev, -, -, -, hcov | ⟨-, hnum, hdev⟩⟩ := hs.covered sb i hsb
    · rw [hb.mount] at hcov
      cases hcov.1
    · obtain h | ⟨p, sb', hsb', -, hdev', hp, -⟩ := hb.up
      · exact absurd hnum h.1
      · obtain rfl := hs.devs sb sb' hsbdev (hdev.symm.trans hdev')
        rw [hsb] at hsb'
        cases hsb'
        rw [hb.mount] at hp
        cases hp
  obtain ⟨u, hput, hu, hch, hcount, hudev, hunum, -, humount⟩ :=
    iput_run hs hb.used hb.dev hb.dir hlinks hmore
  have hj : (u.inode j).iDev = (s.inode j).iDev ∧ (u.inode j).iNum = (s.inode j).iNum ∧
      (u.inode j).iMount = false ∧ (u.inode j).iCount ≠ 0 := by
    by_cases hji : j = i
    · have hheld := hb.held.2 hji
      subst hji
      exact ⟨hudev, hunum, humount.trans hb.mount, by omega⟩
    · rw [hch.other j hji]
      exact ⟨rfl, rfl, hb.top, hb.held.1⟩
  have hfree : ∃ e, (u.inode e).iCount = 0 := by
    obtain hone | ⟨e, he⟩ := hb.room
    · exact ⟨i, by omega⟩
    · refine ⟨e, ?_⟩
      rw [hch.other e fun h => hb.used (h ▸ he)]
      exact he
  have hjdev : (s.inode j).iDev ≠ 0 := by
    obtain ⟨-, h, -⟩ | ⟨p, sb, hsb, -, -, -, h, -⟩ := hb.up
    · exact h ▸ hb.dev
    · exact h ▸ (hs.covered sb p hsb).2.2.1
  obtain ⟨v, hget⟩ := iget_known hu hj.2.2.2 (hj.1 ▸ hjdev) hj.2.2.1 hfree hfuel
  rw [hj.1, hj.2.1] at hget
  obtain ⟨hnum, hdev, hused⟩ | ⟨p, sb, hsb, hnum, hdev, hpm, hpdev, hused⟩ := hb.up
  · refine ⟨(s.inode j).iNum, i, s, v, ?_, ?_⟩
    · refine findEntry_used (List.cons_ne_nil _ _) ?_ rfl (hk.intact _ _ hni) (by decide) (by decide)
        hused (hk.first_up hni) (hk.one_lt_entries hni)
      unfold dotdot
      rw [if_neg (fun h => h rfl), if_neg hroot, if_pos hnum]
      rfl
    · unfold follow
      rw [hput, hdev]
      exact hget
  · -- The root of what is mounted on `p`: it is exchanged for `p`, where ".." is looked up.
    obtain ⟨hsbdev, hpc, hpne, hpdir, -⟩ := hs.covered sb p hsb
    have hpi : p ≠ i := by
      rintro rfl
      rw [hb.mount] at hpm
      cases hpm
    have hup : u.inode p = s.inode p := hch.other p hpi
    have hnp : Fs.isDir (n (s.inode p).iDev (s.inode p).iNum).iMode = true := by
      rw [← hs.core p hpne]
      exact hpdir
    refine ⟨(s.inode j).iNum, p, u.grab p, v, ?_, ?_⟩
    · refine findEntry_used (d := k (s.inode p).iDev (s.inode p).iNum) (List.cons_ne_nil _ _) ?_ ?_
        (hk.intact _ _ hnp) (by decide) (by decide) hused (hk.first_up hnp) (hk.one_lt_entries hni)
      · unfold dotdot
        rw [if_neg (fun h => h rfl), if_neg hroot, if_neg (not_not.2 hnum), hdev,
          (getSuper_eq_some hs hsbdev).2 rfl]
        dsimp only
        rw [hsb]
        dsimp only
        rw [hput]
        rfl
      · unfold dirOf
        rw [grab_self, hup]
    · rw [follow_held hu (by rw [hup]; exact hpc) (by rw [hup]; exact hpdir), hup, hpdev]
      exact hget

/-! ## Paths -/

theorem components_name {path : List Byte} (h : 0x2f ∉ path) : components path = [path] := by
  induction path with
  | nil => rfl
  | cons b path ih =>
    obtain ⟨hb, hpath⟩ := not_or.1 (mt List.mem_cons.2 h)
    unfold components
    rw [if_neg (Ne.symm hb), ih hpath]

theorem components_slash {path rest : List Byte} (h : 0x2f ∉ path) :
    components (path ++ 0x2f :: rest) = path :: components rest := by
  induction path with
  | nil => rfl
  | cons b path ih =>
    obtain ⟨hb, hpath⟩ := not_or.1 (mt List.mem_cons.2 h)
    rw [List.cons_append, components, if_neg (Ne.symm hb), ih hpath]

/-- What a name is not, it is not when it is cut off. -/
theorem take_ne {l : List Byte} (hl : l.length < 14) (h : name ≠ l) : name.take 14 ≠ l := by
  intro ht
  have hlen := congrArg List.length ht
  rw [List.length_take] at hlen
  rw [List.take_of_length_le (by omega)] at ht
  exact h ht

theorem dirLoop_last (hdir : Fs.isDir (s.inode i).iMode = true) (hperm : permission c (s.inode i) 1 = true) :
    dirLoop k fuel c [name] i s = .ok (some i, s) := by
  unfold dirLoop
  rw [if_neg (by rw [hdir, hperm]; simp)]

theorem dirLoop_next {dir : Ino} {next : Name} {rest : List Name} {u v : State} {m : BitVec 16}
    (hdir : Fs.isDir (s.inode i).iMode = true) (hperm : permission c (s.inode i) 1 = true)
    (hfind : s.findEntry k c i name = .ok (some m, dir, u)) (hfollow : u.follow fuel dir m = .ok (j, v)) :
    dirLoop k fuel c (name :: next :: rest) i s = dirLoop k fuel c (next :: rest) j v := by
  rw [dirLoop, if_neg (by rw [hdir, hperm]; simp)]
  dsimp only
  rw [hfind]
  dsimp only [bind, Except.bind]
  rw [hfollow]

theorem namei_of_getDir {dir : Ino} {path : List Byte} {u u' v : State} {m : BitVec 16}
    (hdir : s.getDir k fuel c path = .ok (some i, u)) (hne : basename path ≠ [])
    (hfind : u.findEntry k c i (basename path) = .ok (some m, dir, u'))
    (hfollow : u'.follow fuel dir m = .ok (j, v)) :
    s.namei k fuel c path = .ok (some j, v.setInode j { v.inode j with iDirt := true }) := by
  unfold namei
  rw [hdir]
  dsimp only [bind, Except.bind]
  rw [if_neg hne, hfind]
  dsimp only
  rw [hfollow]
  rfl

theorem getDir_pwd {b : Byte} {path : List Byte} (hroot : s.missing c.root = false) (hpwd : c.pwd = some i)
    (hi : (s.inode i).iCount ≠ 0) (hb : b ≠ 0x2f) :
    s.getDir k fuel c (b :: path) = dirLoop k fuel c (components (b :: path)) i (s.grab i) := by
  have hp : s.missing c.pwd = false := by
    rw [hpwd]
    exact beq_eq_false_iff_ne.2 hi
  unfold getDir
  rw [if_neg (by rw [hroot]; exact Bool.false_ne_true), if_neg (by rw [hp]; exact Bool.false_ne_true)]
  cases hr : c.root with
  | none =>
    rw [hr] at hroot
    cases hroot
  | some r =>
    rw [hpwd]
    exact if_neg hb

theorem grab_permission {mask : BitVec 16} :
    permission c ((s.grab i).inode i) mask = permission c (s.inode i) mask := by
  rw [grab_self]
  rfl

/-- What is known when a name in the working directory has been looked up. -/
theorem namei_name (hs : Sound n s) (hpwd : c.pwd = some j) (hslash : 0x2f ∉ name)
    (hdots : name ≠ [0x2e, 0x2e]) (h : s.namei k fuel c name = .ok (some i, s')) :
    s.missing c.root = false ∧ name ≠ [] ∧ (s.inode j).iCount ≠ 0 ∧
      Fs.isDir (s.inode j).iMode = true ∧ permission c (s.inode j) 1 = true ∧
      ∃ q u, (s.dirOf k j).scan (name.take 14) (s.dirOf k j).entries ((s.dirOf k j).entries + 1) =
          .ok (some q) ∧
        s.iget fuel (s.inode j).iDev
          (BitVec.ofNat 16 ((s.dirOf k j).vol.entry q.1 (8 * q.2))) = .ok (i, u) ∧
        s' = u.setInode i { u.inode i with iDirt := true } := by
  have hroot : s.missing c.root = false := by
    by_contra hr
    rw [Bool.not_eq_false] at hr
    unfold namei getDir at h
    rw [if_pos hr] at h
    cases h
  have hj : (s.inode j).iCount ≠ 0 := by
    intro hr
    have hp : s.missing c.pwd = true := by
      rw [hpwd]
      exact beq_iff_eq.2 hr
    unfold namei getDir at h
    rw [if_neg (by rw [hroot]; exact Bool.false_ne_true), if_pos hp] at h
    cases h
  cases name with
  | nil =>
    unfold namei getDir at h
    have hp : s.missing c.pwd = false := by
      rw [hpwd]
      exact beq_eq_false_iff_ne.2 hj
    rw [if_neg (by rw [hroot]; exact Bool.false_ne_true),
      if_neg (by rw [hp]; exact Bool.false_ne_true)] at h
    cases h
  | cons b name =>
    obtain ⟨hb, -⟩ := not_or.1 (mt List.mem_cons.2 hslash)
    have hget : s.getDir k fuel c (b :: name) =
        dirLoop k fuel c (components (b :: name)) j (s.grab j) := getDir_pwd hroot hpwd hj (Ne.symm hb)
    rw [components_name hslash] at hget
    have hbase : basename (b :: name) = b :: name := by
      unfold basename
      rw [components_name hslash]
      rfl
    have hgi : (s.grab j).inode j = { s.inode j with iCount := (s.inode j).iCount + 1 } := grab_self
    by_cases hok : Fs.isDir (s.inode j).iMode = true ∧ permission c (s.inode j) 1 = true
    case neg =>
      unfold namei at h
      have hno : ¬ Fs.isDir ((s.grab j).inode j).iMode = true ∨
          permission c ((s.grab j).inode j) 1 = false := by
        rw [grab_permission, hgi]
        rw [not_and_or, Bool.not_eq_true (permission c (s.inode j) 1)] at hok
        exact hok
      rw [hget] at h
      unfold dirLoop at h
      rw [if_pos hno] at h
      cases hput : (s.grab j).iput j with
      | error e =>
        rw [hput] at h
        cases h
      | ok t =>
        rw [hput] at h
        cases h
    obtain ⟨hdir, hperm⟩ := hok
    have hlast : dirLoop k fuel c [b :: name] j (s.grab j) = .ok (some j, s.grab j) :=
      dirLoop_last (by rw [hgi]; exact hdir) (by rw [grab_permission]; exact hperm)
    have hdirOf : (s.grab j).dirOf k j = s.dirOf k j := by
      unfold dirOf
      rw [hgi]
    unfold namei at h
    rw [hget, hlast] at h
    dsimp only [bind, Except.bind] at h
    rw [hbase, if_neg (List.cons_ne_nil _ _)] at h
    unfold findEntry dotdot at h
    rw [if_neg (by simp), if_pos (take_ne (by decide) hdots), hdirOf] at h
    dsimp only [bind, Except.bind] at h
    rw [hdirOf] at h
    cases hscan : (s.dirOf k j).scan ((b :: name).take 14) (s.dirOf k j).entries
        ((s.dirOf k j).entries + 1) with
    | error f =>
      rw [hscan] at h
      cases h
    | ok r =>
      rw [hscan] at h
      cases r with
      | none =>
        dsimp only [pure, Except.pure] at h
        cases hput : (s.grab j).iput j with
        | error e =>
          rw [hput] at h
          cases h
        | ok t =>
          rw [hput] at h
          cases h
      | some q =>
        dsimp only [pure, Except.pure] at h
        rw [follow_held hs hj hdir] at h
        cases higet : s.iget fuel (s.inode j).iDev
            (BitVec.ofNat 16 ((s.dirOf k j).vol.entry q.1 (8 * q.2))) with
        | error e =>
          rw [higet] at h
          cases h
        | ok r =>
          rw [higet] at h
          cases h
          exact ⟨hroot, List.cons_ne_nil _ _, hj, hdir, hperm, q, r.2, rfl, higet, rfl⟩

/-! ## Down and up again -/

/-- The name of an entry leads to a directory that the entry is below. -/
theorem descend (hk : Consistent k n) (hs : Sound n s) (hfuel : 2 ≤ fuel) (hd : Held s j)
    {x : ℕ} {m : BitVec 16} (hused : (s.dirOf k j).used x = some (name, m.toNat)) (hdot : name ≠ [0x2e])
    (hdots : name ≠ [0x2e, 0x2e]) (h : s.iget fuel (s.inode j).iDev m = .ok (i, s'))
    (hdir : Fs.isDir (s'.inode i).iMode = true) : Sound n s' ∧ Below k s' i j := by
  have hjdir : Fs.isDir (n (s.inode j).iDev (s.inode j).iNum).iMode = true := by
    rw [← hs.core j hd.dev]
    exact hd.dir
  have hfree : ∃ e, (s.inode e).iCount = 0 := by
    unfold iget at h
    rw [if_neg hd.dev] at h
    cases hempty : s.getEmptyInode with
    | error e =>
      rw [hempty] at h
      cases h
    | ok r => exact getEmptyInode_free hempty
  obtain ⟨i', u, dev', nr', hrun, hu, hgot, hwhere⟩ :=
    iget_run hs hd.dev (hs.device j hd.used hd.dev) hfree hfuel m
  rw [hrun] at h
  cases h
  obtain ⟨hjdev, hjnum, hjmount⟩ := hgot.same hd.used
  have hheld : (s'.inode j).iCount ≠ 0 ∧ (j = i → 1 < (s'.inode i).iCount) := by
    by_cases hji : j = i
    · subst hji
      rw [hgot.count hd.used]
      have hc := hd.used
      exact ⟨Nat.succ_ne_zero _, fun _ => Nat.succ_lt_succ (Nat.pos_of_ne_zero hc)⟩
    · rw [hgot.other j hji hd.used]
      exact ⟨hd.used, fun h => absurd h hji⟩
  have hchild : ∀ p : BitVec 16, p = m → Fs.isDir (n (s.inode j).iDev p).iMode = true →
      p ≠ 1 ∧ (k (s.inode j).iDev p).used 1 = some ([0x2e, 0x2e], (s.inode j).iNum.toNat) := by
    rintro p rfl hp
    exact hk.child _ _ x name p hjdir hused hdot hdots hp
  refine ⟨hu, ⟨hgot.used, ?_, hdir, hgot.mount⟩, hgot.room, hheld, hjmount.trans hd.mount, ?_⟩
  · rw [hgot.dev]
    obtain ⟨rfl, -⟩ | ⟨p, sb, -, -, -, hsb, rfl, -⟩ := hwhere
    · exact hd.dev
    · exact (hs.covered sb p hsb).1
  obtain ⟨rfl, rfl⟩ | ⟨p, sb, hpdev, hpnum, hpm, hsb, rfl, rfl⟩ := hwhere
  · have hni : Fs.isDir (n (s.inode j).iDev nr').iMode = true := by
      have hcore := hu.core i (by rw [hgot.dev]; exact hd.dev)
      rw [hgot.dev, hgot.num] at hcore
      rw [← hcore]
      exact hdir
    obtain ⟨hne, hup⟩ := hchild nr' rfl hni
    refine .inl ?_
    rw [hgot.dev, hgot.num, hjdev, hjnum]
    exact ⟨hne, rfl, hup⟩
  · obtain ⟨-, hpc, hpne, hpdir, -⟩ := hs.covered sb p hsb
    obtain ⟨hpdev', hpnum', hpm'⟩ := hgot.same hpc
    have hnp : Fs.isDir (n (s.inode j).iDev (s.inode p).iNum).iMode = true := by
      rw [← hpdev, ← hs.core p hpne]
      exact hpdir
    obtain ⟨-, hup⟩ := hchild _ hpnum hnp
    refine .inr ⟨p, sb, hgot.super ▸ hsb, hgot.num, ?_, hpm'.trans hpm, ?_, ?_⟩
    · rw [hgot.dev, hgot.super]
    · rw [hpdev', hjdev, hpdev]
    · rw [hpdev', hpnum', hjnum, hpdev]
      exact hup

/-- `..` in the root of the process. -/
theorem namei_root {path : List Byte} (hk : Consistent k n) (hs : Sound n s) (hfuel : 2 ≤ fuel)
    (hroot : c.root = some i) (hi : Held s i) (hperm : permission c (s.inode i) 1 = true)
    (hfree : ∃ e, (s.inode e).iCount = 0)
    (hpath : path = [0x2e, 0x2e] ∧ c.pwd = some i ∨
      path = [0x2f, 0x2e, 0x2e] ∧ s.missing c.pwd = false) :
    ∃ s', s.namei k fuel c path = .ok (some i, s') := by
  have hni : Fs.isDir (n (s.inode i).iDev (s.inode i).iNum).iMode = true := by
    rw [← hs.core i hi.dev]
    exact hi.dir
  have hmiss : s.missing c.root = false := by
    rw [hroot]
    exact beq_eq_false_iff_ne.2 hi.used
  have hlast : dirLoop k fuel c [[0x2e, 0x2e]] i (s.grab i) = .ok (some i, s.grab i) := by
    refine dirLoop_last ?_ (by rw [grab_permission]; exact hperm)
    rw [grab_self]
    exact hi.dir
  have hget : s.getDir k fuel c path = .ok (some i, s.grab i) ∧ basename path = [0x2e, 0x2e] := by
    obtain ⟨rfl, hpwd⟩ | ⟨rfl, hpwd⟩ := hpath
    · rw [getDir_pwd hmiss hpwd hi.used (by decide)]
      exact ⟨hlast, rfl⟩
    · refine ⟨?_, rfl⟩
      unfold getDir
      rw [if_neg (by rw [hmiss]; exact Bool.false_ne_true),
        if_neg (by rw [hpwd]; exact Bool.false_ne_true), hroot]
      cases hp : c.pwd with
      | none =>
        rw [hp] at hpwd
        cases hpwd
      | some j => exact hlast
  have hdirOf : (s.grab i).dirOf k i = s.dirOf k i := by
    unfold dirOf
    rw [grab_self]
  have hfind : (s.grab i).findEntry k c i (basename path) = .ok (some (s.inode i).iNum, i, s.grab i) := by
    rw [hget.2]
    have hdot : (s.grab i).dotdot c i ([0x2e, 0x2e].take 14) = .ok ([0x2e], i, s.grab i) := by
      unfold dotdot
      rw [if_neg (fun h => h rfl), if_pos hroot]
    refine findEntry_used (List.cons_ne_nil _ _) hdot hdirOf (hk.intact _ _ hni)
      (by decide) (by decide) (hk.dot _ _ hni) (fun y hy => absurd hy (Nat.not_lt_zero y)) ?_
    rw [hdirOf]
    exact Nat.lt_of_succ_lt (hk.one_lt_entries hni)
  obtain ⟨v, hv⟩ := iget_known hs hi.used hi.dev hi.mount hfree hfuel
  exact ⟨_, namei_of_getDir hget.1 (by rw [hget.2]; exact List.cons_ne_nil _ _) hfind
    ((follow_held hs hi.used hi.dir).trans hv)⟩

/-- `..` undoes the descent to an entry, and does not lead out of the root. -/
theorem dotdot_undoes {r : Ino} (hk : Consistent k n) (hs : Sound n s) (hfuel : 2 ≤ fuel)
    (hroot : c.root = some r) :
    (∀ d i name s', c.pwd = some d → (s.inode d).iMount = false → 0x2f ∉ name → 0 ∉ name →
      name ≠ [0x2e] → name ≠ [0x2e, 0x2e] → s.namei k fuel c name = .ok (some i, s') →
      Fs.isDir (s'.inode i).iMode = true → i ≠ r → permission c (s'.inode i) 1 = true →
      ∃ s'', s.namei k fuel c (name ++ [0x2f, 0x2e, 0x2e]) = .ok (some d, s'')) ∧
    ∀ path, (path = [0x2e, 0x2e] ∧ c.pwd = some r ∨
        path = [0x2f, 0x2e, 0x2e] ∧ s.missing c.pwd = false) →
      Held s r → permission c (s.inode r) 1 = true → (∃ e, (s.inode e).iCount = 0) →
      ∃ s', s.namei k fuel c path = .ok (some r, s') := by
  refine ⟨fun d i name s' hpwd hmount hslash hzero hdot hdots h hdir hir hperm => ?_,
    fun path hpath hr hperm hfree => namei_root hk hs hfuel hroot hr hperm hfree hpath⟩
  obtain ⟨hmiss, hne, hused, hddir, hdperm, q, u, hscan, higet, rfl⟩ :=
    namei_name hs hpwd hslash hdots h
  have hdev : (s.inode d).iDev ≠ 0 := by
    intro h0
    unfold iget at higet
    rw [if_pos h0] at higet
    cases higet
  have hd : Held s d := ⟨hused, hdev, hddir, hmount⟩
  have hint : (s.dirOf k d).Intact := by
    refine hk.intact _ _ ?_
    rw [← hs.core d hdev]
    exact hddir
  have hlen : (name.take 14).length ≤ 14 := (List.length_take_le 14 name)
  have hbytes : ∀ b ∈ name.take 14, b ≠ 0 := by
    rintro b hb rfl
    exact hzero (List.mem_of_mem_take hb)
  obtain ⟨hnone, -⟩ | ⟨x, hx, hxused⟩ := hint.scan_run hlen hbytes (Nat.lt_succ_self _)
  · rw [hnone] at hscan
    cases hscan
  rw [hx] at hscan
  cases hscan
  dsimp only at higet
  rw [← Dir.ino_eq] at higet
  obtain ⟨m, hm⟩ : ∃ m, m = BitVec.ofNat 16 ((s.dirOf k d).ino x) := ⟨_, rfl⟩
  have hmino : (s.dirOf k d).ino x = m.toNat := by
    rw [hm, BitVec.toNat_ofNat, Nat.mod_eq_of_lt]
    unfold Dir.ino
    have h1 := ((s.dirOf k d).cell x 0).isLt
    have h2 := ((s.dirOf k d).cell x 1).isLt
    omega
  rw [← hm] at higet
  rw [setInode_self] at hdir hperm
  obtain ⟨hu, hbelow⟩ := descend hk hs hfuel hd (hmino ▸ hxused) (take_ne (by decide) hdot)
    (take_ne (by decide) hdots) higet hdir
  obtain ⟨m', dir, v, w, hup, hfollow⟩ := climb (c := c) hk hu hbelow
    (fun hc => hir (Option.some_inj.1 (hc.symm.trans hroot))) hfuel
  have hcomp : components (name ++ [0x2f, 0x2e, 0x2e]) = [name, [0x2e, 0x2e]] := by
    rw [components_slash hslash]
    rfl
  have hbase : basename (name ++ [0x2f, 0x2e, 0x2e]) = [0x2e, 0x2e] := by
    unfold basename
    rw [hcomp]
    rfl
  have hgrab : (s.grab d).dirOf k d = s.dirOf k d := by
    unfold dirOf
    rw [grab_self]
  have hfind : (s.grab d).findEntry k c d name = .ok (some m, d, s.grab d) := by
    unfold findEntry dotdot
    dsimp only
    rw [if_neg fun h0 => hne (by simpa using h0), if_pos (take_ne (by decide) hdots), hgrab]
    dsimp only [bind, Except.bind]
    rw [hgrab, hx]
    dsimp only
    rw [← Dir.ino_eq, ← hm]
    rfl
  have hget : s.getDir k fuel c (name ++ [0x2f, 0x2e, 0x2e]) = .ok (some i, u) := by
    cases name with
    | nil => exact absurd rfl hne
    | cons b name =>
      obtain ⟨hb, -⟩ := not_or.1 (mt List.mem_cons.2 hslash)
      rw [List.cons_append, getDir_pwd hmiss hpwd hused (Ne.symm hb), ← List.cons_append, hcomp,
        dirLoop_next _ _ hfind ((follow_held hs hused hddir).trans higet)]
      · exact dirLoop_last hdir hperm
      · rw [grab_self]
        exact hddir
      · rw [grab_permission]
        exact hdperm
  exact ⟨_, namei_of_getDir hget (by rw [hbase]; exact List.cons_ne_nil _ _) (by rw [hbase]; exact hup) hfollow⟩

end State

/-! ## A device mounted on a directory -/

/-- A directory in zone 3 of a volume without other files. -/
def oneDir (nr : ℕ) (es : List (ℕ × Name)) : Dir where
  vol :=
    { firstdatazone := 3
      nzones := 16
      zmapBlocks := 1
      zmap := fun b => b = 0 ∨ b = 1
      data := fun _ a =>
        let e := es.getD (a / 16) (0, [])
        if a % 16 = 0 then BitVec.ofNat 8 e.1 else if a % 16 = 1 then 0 else e.2.getD (a % 16 - 2) 0
      inode := fun i =>
        if i = nr then ⟨0o040755, fun k => if k = 0 then 3 else 0, 16 * es.length⟩
        else ⟨0, fun _ => 0, 0⟩ }
  nr := nr
  reads _ _ := true

section OneDir

open Linux011.Zones (Addr)

variable {nr : ℕ} {es : List (ℕ × Name)} {a : Addr}

theorem oneDir_holds (ha : (oneDir nr es).vol.Holds a) (hz : a.zone (oneDir nr es).vol ≠ 0) :
    a = .root nr 0 := by
  have hroot : ∀ i k, ((oneDir nr es).vol.inode i).iZone k ≠ 0 → i = nr ∧ k = 0 := by
    intro i k h
    unfold oneDir at h
    dsimp only at h
    split_ifs at h with hi
    · dsimp only at h
      split_ifs at h with hk
      · exact ⟨hi, hk⟩
      · exact absurd rfl h
    · exact absurd rfl h
  cases a with
  | root i k =>
    obtain ⟨rfl, rfl⟩ := hroot i k hz
    rfl
  | child up j =>
    -- The tables of an inode are in its zones 7 and 8.
    obtain ⟨hup, -, hlt⟩ := ha.valid
    have hlive := ha.live
    induction up generalizing j with
    | root i k =>
      obtain ⟨-, rfl⟩ := hroot i k hlive.2
      exact absurd hlt (Nat.not_lt_zero 0)
    | child up j' ih =>
      exact absurd (ih j' ⟨ha.file, hup, hlive.1⟩ hlive.2 hup.1 hup.2.2 hlive.1) nofun

theorem oneDir_intact (hlen : es.length ≤ 64) : (oneDir nr es).Intact where
  sound :=
    { firstdatazone_pos := show 0 < 3 by decide
      nzones_lt := show 16 < 2 ^ 16 by decide
      zmap_zero := rfl
      marked := fun a ha hz => by
        obtain rfl := oneDir_holds ha hz
        have hzone : Addr.zone (oneDir nr es).vol (.root nr 0) = 3 := by
          change ((oneDir nr es).vol.inode nr).iZone 0 = 3
          unfold oneDir
          dsimp only
          rw [if_pos rfl]
          rfl
        rw [hzone]
        exact ⟨le_rfl, show 3 < 16 by decide, rfl⟩
      distinct := fun a b ha hb hz hab =>
        (oneDir_holds ha hz).trans (oneDir_holds hb (hab ▸ hz)).symm }
  dir := by
    unfold oneDir
    dsimp only
    rw [if_pos rfl]
    exact (by decide : Fs.isDir 0o040755 = true)
  size := by
    unfold oneDir
    dsimp only
    rw [if_pos rfl]
    exact ⟨es.length, rfl⟩
  blocks b hb := by
    have hb0 : b = 0 := by
      obtain rfl | hb := hb
      · rfl
      · unfold oneDir at hb
        dsimp only at hb
        rw [if_pos rfl] at hb
        dsimp only at hb
        omega
    rw [hb0]
    change ((oneDir nr es).vol.inode nr).iZone 0 ≠ 0
    unfold oneDir
    dsimp only
    rw [if_pos rfl]
    exact (by decide : 3 ≠ 0)
  reads _ _ := rfl

end OneDir

/-- Device 1 has the directories 1, 2 ("c"), 3 ("m") and 4 ("m/d"), device 2 has directory 1. -/
def trees : Files := fun dev nr =>
  if dev = 1 ∧ nr = 1 then oneDir 1 [(1, [0x2e]), (1, [0x2e, 0x2e]), (2, [0x63]), (3, [0x6d])]
  else if dev = 1 ∧ nr = 2 then oneDir 2 [(2, [0x2e]), (1, [0x2e, 0x2e])]
  else if dev = 1 ∧ nr = 3 then oneDir 3 [(3, [0x2e]), (1, [0x2e, 0x2e]), (4, [0x64])]
  else if dev = 1 ∧ nr = 4 then oneDir 4 [(4, [0x2e]), (3, [0x2e, 0x2e])]
  else oneDir 1 [(1, [0x2e]), (1, [0x2e, 0x2e])]

/-- "c" can be searched by its owner only. -/
def nodes : Dev → BitVec 16 → DInode := fun dev nr =>
  if dev = 1 ∧ nr = 2 then ⟨0o040700, 1, 1, 2⟩
  else if dev = 1 ∧ (nr = 1 ∨ nr = 3 ∨ nr = 4) ∨ dev = 2 ∧ nr = 1 then ⟨0o040755, 0, 0, 2⟩
  else ⟨0o100644, 0, 0, 1⟩

/-- Device 2 is mounted on "m". The other slots are free, or hold files that are in use. -/
def mounted (full : Bool) : State where
  inode i :=
    if i = 0 then ⟨nodes 1 1, 1, 1, 6, false, false, false⟩
    else if i = 1 then ⟨nodes 1 3, 1, 3, 2, true, false, true⟩
    else if i = 2 then ⟨nodes 1 2, 1, 2, 1, false, false, false⟩
    else if full then
      ⟨nodes 1 (BitVec.ofNat 16 (i.val + 8)), 1, BitVec.ofNat 16 (i.val + 8), 1, false, false, false⟩
    else .zero
  super sb := if sb = 0 then ⟨1, some 0⟩ else if sb = 1 then ⟨2, some 1⟩ else ⟨0, none⟩
  lastInode := 0
  dinode := nodes

theorem nodes_dir {dev : Dev} {nr : BitVec 16} (h : Fs.isDir (nodes dev nr).iMode = true) :
    dev = 1 ∧ (nr = 1 ∨ nr = 2 ∨ nr = 3 ∨ nr = 4) ∨ dev = 2 ∧ nr = 1 := by
  unfold nodes at h
  split_ifs at h with h1 h2
  · exact .inl ⟨h1.1, .inr (.inl h1.2)⟩
  · obtain ⟨h, hnr | hnr | hnr⟩ | h := h2
    · exact .inl ⟨h, .inl hnr⟩
    · exact .inl ⟨h, .inr (.inr (.inl hnr))⟩
    · exact .inl ⟨h, .inr (.inr (.inr hnr))⟩
    · exact .inr h
  · exact absurd h (by decide)

theorem trees_dot {dev : Dev} {nr : BitVec 16} (h : Fs.isDir (nodes dev nr).iMode = true) :
    (trees dev nr).used 0 = some ([0x2e], nr.toNat) := by
  obtain ⟨rfl, rfl | rfl | rfl | rfl⟩ | ⟨rfl, rfl⟩ := nodes_dir h <;> rfl

theorem trees_up {dev : Dev} {nr : BitVec 16} (h : Fs.isDir (nodes dev nr).iMode = true) :
    (trees dev nr).used 1 =
      some ([0x2e, 0x2e], BitVec.toNat (if dev = 1 ∧ nr = 4 then 3 else 1 : BitVec 16)) := by
  obtain ⟨rfl, rfl | rfl | rfl | rfl⟩ | ⟨rfl, rfl⟩ := nodes_dir h <;> rfl

theorem trees_consistent : Consistent trees nodes where
  intact dev nr h := by
    obtain ⟨rfl, rfl | rfl | rfl | rfl⟩ | ⟨rfl, rfl⟩ := nodes_dir h <;> exact oneDir_intact (by decide)
  links dev nr h := by
    obtain ⟨rfl, rfl | rfl | rfl | rfl⟩ | ⟨rfl, rfl⟩ := nodes_dir h <;> decide
  dot _ _ h := trees_dot h
  up _ _ h := ⟨_, trees_up h⟩
  child dev nr i name m h hused hdot hdots _ := by
    have hlt : i < (trees dev nr).entries := by
      unfold Dir.used at hused
      split_ifs at hused with hi
      exact hi.1
    have hi : 2 ≤ i := by
      by_contra hi
      obtain rfl | rfl : i = 0 ∨ i = 1 := by omega
      · rw [trees_dot h] at hused
        exact hdot (Prod.ext_iff.1 (Option.some_inj.1 hused)).1.symm
      · rw [trees_up h] at hused
        exact hdots (Prod.ext_iff.1 (Option.some_inj.1 hused)).1.symm
    have hnum : ∀ (name' : Name) (x : BitVec 16),
        (trees dev nr).used i = some (name', x.toNat) → m = x := by
      intro name' x hx
      rw [hx] at hused
      exact BitVec.eq_of_toNat_eq (Prod.ext_iff.1 (Option.some_inj.1 hused)).2.symm
    obtain ⟨rfl, rfl | rfl | rfl | rfl⟩ | ⟨rfl, rfl⟩ := nodes_dir h
    · obtain rfl | rfl : i = 2 ∨ i = 3 := by
        change i < 4 at hlt
        omega
      · obtain rfl := hnum [0x63] 2 rfl
        exact ⟨by decide, rfl⟩
      · obtain rfl := hnum [0x6d] 3 rfl
        exact ⟨by decide, rfl⟩
    · exact absurd hlt (not_lt.2 hi)
    · obtain rfl : i = 2 := by
        change i < 3 at hlt
        omega
      obtain rfl := hnum [0x64] 4 rfl
      exact ⟨by decide, rfl⟩
    · exact absurd hlt (not_lt.2 hi)
    · exact absurd hlt (not_lt.2 hi)

theorem mounted_sound (full : Bool) : Sound nodes (mounted full) where
  unique := by cases full <;> decide +kernel
  core := by cases full <;> decide +kernel
  disk _ _ _ _ := rfl
  clean := by cases full <;> decide +kernel
  device := by cases full <;> decide +kernel
  pipe := by cases full <;> decide +kernel
  mount := by cases full <;> decide +kernel
  covered := by cases full <;> decide +kernel
  once := by cases full <;> decide +kernel
  devs := by cases full <;> decide +kernel

/-- A process whose root is the root of device 1. -/
def user (pwd : Ino) : Current :=
  ⟨some 0, some pwd, 5, 5⟩

/-- "m/.." leads back to device 1, and "/.." to the root. -/
theorem dotdot_undoes_mounted :
    (∃ s, (mounted false).namei trees 2 (user 0) [0x6d, 0x2f, 0x2e, 0x2e] = .ok (some 0, s)) ∧
    ∃ s, (mounted false).namei trees 2 (user 0) [0x2f, 0x2e, 0x2e] = .ok (some 0, s) := by
  have hdown : ∃ s, (mounted false).namei trees 2 (user 0) [0x6d] = .ok (some 3, s) ∧
      Fs.isDir (s.inode 3).iMode = true ∧
      State.permission (user 0) (s.inode 3) 1 = true := ⟨_, rfl, rfl, rfl⟩
  obtain ⟨s, hs, hdir, hperm⟩ := hdown
  have h := State.dotdot_undoes (c := user 0) (r := 0) trees_consistent (mounted_sound false) le_rfl rfl
  exact ⟨h.1 0 3 [0x6d] s rfl rfl (by decide) (by decide) (by decide) (by decide) hs hdir (by decide)
    hperm, h.2 _ (.inr ⟨rfl, rfl⟩) ⟨by decide, by decide, by decide, rfl⟩ rfl ⟨3, rfl⟩⟩

/-- `..` does not lead out of a directory that may not be searched ("c/..", and "/.." when "c" is the
root), nor back to a directory that something is mounted on ("d/.." in "m"), and it needs a free inode. -/
theorem dotdot_not :
    (∃ s, (mounted false).namei trees 2 (user 0) [0x63] = .ok (some 2, s) ∧
      Fs.isDir (s.inode 2).iMode = true) ∧
    (∃ s, (mounted false).namei trees 2 (user 0) [0x63, 0x2f, 0x2e, 0x2e] = .ok (none, s)) ∧
    (∃ s, (mounted false).namei trees 2 ⟨some 2, some 2, 5, 5⟩ [0x2e, 0x2e] = .ok (none, s)) ∧
    (∃ s, (mounted false).namei trees 2 (user 1) [0x64] = .ok (some 3, s) ∧
      Fs.isDir (s.inode 3).iMode = true) ∧
    (∃ s, (mounted false).namei trees 2 (user 1) [0x64, 0x2f, 0x2e, 0x2e] = .ok (some 4, s)) ∧
    (mounted true).namei trees 2 (user 0) [0x2e, 0x2e] = .error .noInodes ∧
    ¬ ∀ (k : Files) (n : Dev → BitVec 16 → DInode) (s : State) (fuel : ℕ) (c : Current) (r : Ino),
      Consistent k n → Sound n s → 2 ≤ fuel → c.root = some r →
      (∀ d i name s', c.pwd = some d → 0x2f ∉ name → 0 ∉ name → name ≠ [0x2e] →
        name ≠ [0x2e, 0x2e] → s.namei k fuel c name = .ok (some i, s') →
        Fs.isDir (s'.inode i).iMode = true → i ≠ r →
        ∃ s'', s.namei k fuel c (name ++ [0x2f, 0x2e, 0x2e]) = .ok (some d, s'')) ∧
      ∀ path, (path = [0x2e, 0x2e] ∧ c.pwd = some r ∨
          path = [0x2f, 0x2e, 0x2e] ∧ s.missing c.pwd = false) → s.Held r →
        ∃ s', s.namei k fuel c path = .ok (some r, s') := by
  have hdown : ∃ s, (mounted false).namei trees 2 (user 0) [0x63] = .ok (some 2, s) ∧
      Fs.isDir (s.inode 2).iMode = true := ⟨_, rfl, rfl⟩
  have hup : ∃ s, (mounted false).namei trees 2 (user 0) [0x63, 0x2f, 0x2e, 0x2e] = .ok (none, s) :=
    ⟨_, rfl⟩
  refine ⟨hdown, hup, ⟨_, rfl⟩, ⟨_, rfl, rfl⟩, ⟨_, rfl⟩, rfl, fun h => ?_⟩
  obtain ⟨s, hs, hdir⟩ := hdown
  obtain ⟨s', hs'⟩ := hup
  obtain ⟨s'', hs''⟩ := (h trees nodes (mounted false) 2 (user 0) 0 trees_consistent
    (mounted_sound false) le_rfl rfl).1 0 2 [0x63] s rfl (by decide) (by decide) (by decide) (by decide)
    hs hdir (by decide)
  rw [show [0x63] ++ [0x2f, 0x2e, 0x2e] = ([0x63, 0x2f, 0x2e, 0x2e] : List Byte) from rfl, hs'] at hs''
  cases hs''

end Linux011.Namei
