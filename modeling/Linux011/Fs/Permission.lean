import Linux011.Fs.File

/-!
# `access` and `permission`

`sys_access` selects among the bits of the owner, the group and the others as `permission` does, except
that it shifts the mode by 6 for the group too.

1. `permissionInt`, `sysAccess`; the mask is an `int`.
2. `grants`: a class of bits grants a mask. `permissionInt_iff`, `sysAccess_iff`.
3. `access_agrees_iff`: when the two agree.
-/

namespace Linux011.Fs

/-- `permission`, for any mask. -/
def permissionInt (t : Task) (n : Inode) (mask : BitVec 32) : Bool :=
  if n.iDev ≠ 0 ∧ n.iNlinks = 0 then false
  else
    let mode :=
      if t.euid = n.iUid then n.iMode >>> 6
      else if t.egid = n.iGid.setWidth 16 then n.iMode >>> 3
      else n.iMode
    mode.setWidth 32 &&& mask &&& 0o7 == mask || t.euid == 0

/-- `sys_access` for a process with these real ids; `inode` is the result of `namei`. -/
def sysAccess (uid gid : BitVec 16) (inode : Option Inode) (mode : BitVec 32) : Except Errno Unit :=
  let mode := mode &&& 0o7
  match inode with
  | none => .error .eacces
  | some n =>
    let iMode := n.iMode &&& 0o777
    let res :=
      if uid = n.iUid then iMode >>> 6
      else if gid = n.iGid.setWidth 16 then iMode >>> 6
      else iMode
    if res.setWidth 32 &&& 0o7 &&& mode = mode then .ok ()
    else if uid = 0 ∧ (mode &&& 1 = 0 ∨ iMode &&& 0o111 ≠ 0) then .ok ()
    else .error .eacces

/-! ## Masks -/

theorem and_seven (x : BitVec 32) : (x &&& 0o7).toNat = x.toNat % 8 := by
  rw [BitVec.toNat_and]
  exact Nat.and_two_pow_sub_one_eq_mod _ 3

/-- The bits `x`, of which the last three count, grant the mask. -/
def grants (x : BitVec 16) (mask : BitVec 32) : Prop := x.setWidth 32 &&& mask &&& 0o7 = mask

instance (x : BitVec 16) (mask : BitVec 32) : Decidable (grants x mask) :=
  inferInstanceAs (Decidable (_ = _))

theorem grants.lt {x : BitVec 16} {mask : BitVec 32} (h : grants x mask) : mask.toNat < 8 := by
  unfold grants at h
  rw [← h, and_seven]
  exact Nat.mod_lt _ (by decide)

/-- `res & 0007 & mode`: `sys_access` has already masked `mode`. -/
theorem access_grants (x : BitVec 16) (mask : BitVec 32) :
    x.setWidth 32 &&& 0o7 &&& (mask &&& 0o7) = mask &&& 0o7 ↔ grants x (mask &&& 0o7) := by
  unfold grants
  rw [BitVec.and_assoc, BitVec.and_assoc, ← BitVec.and_assoc 0o7, BitVec.and_comm 0o7,
    BitVec.and_assoc mask]

/-- The last three bits of a class are not changed by `& 0777`. -/
theorem grants_shift (mode : BitVec 16) {k : ℕ} (hk : k ≤ 6) (mask : BitVec 32) :
    grants ((mode &&& 0o777) >>> k) mask ↔ grants (mode >>> k) mask := by
  have hbits : (((mode &&& 0o777) >>> k).setWidth 32 &&& mask &&& 0o7 : BitVec 32) =
      (mode >>> k).setWidth 32 &&& mask &&& 0o7 := by
    apply BitVec.eq_of_getLsbD_eq
    intro i hi
    simp only [BitVec.getLsbD_and, BitVec.getLsbD_setWidth, BitVec.getLsbD_ushiftRight]
    by_cases h3 : i < 3
    · have h9 : (0o777 : BitVec 16).getLsbD (k + i) = true := by
        have hall : ∀ j < 9, (0o777 : BitVec 16).getLsbD j = true := by decide
        exact hall _ (by omega)
      rw [h9, Bool.and_true]
    · have h7 : (0o7 : BitVec 32).getLsbD i = false := by
        have hall : ∀ j < 32, 3 ≤ j → (0o7 : BitVec 32).getLsbD j = false := by decide
        exact hall i hi (by omega)
      rw [h7, Bool.and_false, Bool.and_false]
  unfold grants
  rw [hbits]

/-! ## What the two answer -/

/-- The bits of a mode for its owner, its group and the others. -/
def ownerBits (n : Inode) : BitVec 16 := n.iMode >>> 6

def groupBits (n : Inode) : BitVec 16 := n.iMode >>> 3

def otherBits (n : Inode) : BitVec 16 := n.iMode

def InGroup (gid : BitVec 16) (n : Inode) : Prop := gid = n.iGid.setWidth 16

instance (gid : BitVec 16) (n : Inode) : Decidable (InGroup gid n) :=
  inferInstanceAs (Decidable (_ = _))

section Answers

variable {t : Task} {n : Inode} {mask : BitVec 32}

theorem permissionInt_iff (hl : n.iNlinks ≠ 0) (hu : t.euid ≠ 0) : permissionInt t n mask = true ↔
    grants (if t.euid = n.iUid then ownerBits n else if InGroup t.egid n then groupBits n
      else otherBits n) mask := by
  have hroot : (t.euid == 0) = false := beq_eq_false_iff_ne.2 hu
  unfold permissionInt
  rw [if_neg fun h => hl h.2, hroot, Bool.or_false, beq_iff_eq]
  rfl

/-- The group is looked up in the bits of the owner. -/
theorem sysAccess_iff {uid gid : BitVec 16} (hu : uid ≠ 0) :
    sysAccess uid gid (some n) mask = .ok () ↔
      grants (if uid = n.iUid ∨ InGroup gid n then ownerBits n else otherBits n) (mask &&& 0o7) := by
  have hroot : ∀ P : Prop, ¬(uid = 0 ∧ P) := fun _ h => hu h.1
  unfold sysAccess
  dsimp only
  rw [if_neg (hroot _)]
  have hall : ∀ x : BitVec 16, ((if x.setWidth 32 &&& 0o7 &&& (mask &&& 0o7) = mask &&& 0o7 then
      Except.ok () else Except.error Errno.eacces) = Except.ok ()) ↔ grants x (mask &&& 0o7) := by
    intro x
    rw [← access_grants]
    by_cases h : x.setWidth 32 &&& 0o7 &&& (mask &&& 0o7) = mask &&& 0o7
    · rw [if_pos h]
      exact ⟨fun _ => h, fun _ => rfl⟩
    · rw [if_neg h]
      exact ⟨fun h' => (nomatch h'), fun h' => absurd h' h⟩
  rw [hall]
  by_cases huid : uid = n.iUid
  · rw [if_pos huid, if_pos (.inl huid)]
    exact grants_shift _ (by decide) _
  by_cases hgid : gid = n.iGid.setWidth 16
  · rw [if_neg huid, if_pos hgid, if_pos (.inr hgid)]
    exact grants_shift _ (by decide) _
  · rw [if_neg huid, if_neg hgid, if_neg (show ¬(uid = n.iUid ∨ InGroup gid n) from
      not_or.2 ⟨huid, hgid⟩)]
    have h0 := grants_shift n.iMode (k := 0) (by decide) (mask &&& 0o7)
    rwa [BitVec.ushiftRight_zero, BitVec.ushiftRight_zero] at h0

/-- For a member of the group the bits of the owner must be as good as those of the group. A mask beyond
7 is refused by `permission`, and `sys_access` only looks at its last three bits. -/
def Agrees (t : Task) (n : Inode) (mask : BitVec 32) : Prop :=
  if mask.toNat < 8 then
    t.euid ≠ n.iUid ∧ InGroup t.egid n → (grants (ownerBits n) mask ↔ grants (groupBits n) mask)
  else ¬grants (if t.euid = n.iUid ∨ InGroup t.egid n then ownerBits n else otherBits n) (mask &&& 0o7)

instance : Decidable (Agrees t n mask) := by
  unfold Agrees
  infer_instance

/-- `access` with the real ids that `permission` has as effective ones. -/
theorem access_agrees_iff (hl : n.iNlinks ≠ 0) (hu : t.euid ≠ 0) :
    (sysAccess t.euid t.egid (some n) mask = .ok () ↔ permissionInt t n mask = true) ↔
      Agrees t n mask := by
  rw [sysAccess_iff hu, permissionInt_iff hl hu]
  unfold Agrees
  by_cases hlt : mask.toNat < 8
  · rw [if_pos hlt]
    have hmask : mask &&& 0o7 = mask := BitVec.eq_of_toNat_eq (by
      rw [and_seven]
      exact Nat.mod_eq_of_lt hlt)
    rw [hmask]
    by_cases huid : t.euid = n.iUid
    · rw [if_pos huid, if_pos (.inl huid)]
      exact ⟨fun _ h => absurd huid h.1, fun _ => Iff.rfl⟩
    by_cases hgid : InGroup t.egid n
    · rw [if_neg huid, if_pos hgid, if_pos (.inr hgid)]
      exact ⟨fun h _ => h, fun h => h ⟨huid, hgid⟩⟩
    · rw [if_neg huid, if_neg hgid, if_neg (not_or.2 ⟨huid, hgid⟩)]
      exact ⟨fun _ h => absurd h.2 hgid, fun _ => Iff.rfl⟩
  · rw [if_neg hlt]
    have hno : ∀ x, ¬grants x mask := fun x h => hlt h.lt
    constructor
    · exact fun h hg => hno _ (h.1 hg)
    · exact fun h => ⟨fun hg => absurd hg h, fun hg => absurd hg (hno _)⟩

end Answers

/-- A file `rw-r-----` of the user 1 and the group 5. -/
def groupFile : Inode where
  iMode := 0o100640
  iUid := 1
  iGid := 5
  iNlinks := 1
  iDev := 0x301
  iRdev := 0
  iPipe := false
  contents := ⟨0, fun _ => 0⟩

/-- The user 2 of the group 5. -/
def member : Task where
  euid := 2
  egid := 5
  umask := 0
  leader := false
  tty := -1
  closeOnExec := 0
  filp _ := none

theorem access_agrees_read :
    (sysAccess member.euid member.egid (some groupFile) 4 = .ok () ↔
      permissionInt member groupFile 4 = true) ↔ Agrees member groupFile 4 :=
  access_agrees_iff (by decide) (by decide)

/-- `access` says that a member of the group may write. -/
theorem access_disagrees : ¬∀ (t : Task) (n : Inode) (mask : BitVec 32), n.iNlinks ≠ 0 → t.euid ≠ 0 →
    (sysAccess t.euid t.egid (some n) mask = .ok () ↔ permissionInt t n mask = true) := by
  intro h
  have hg := (h member groupFile 2 (by decide) (by decide)).1 (by decide)
  exact absurd hg (by decide)

end Linux011.Fs
