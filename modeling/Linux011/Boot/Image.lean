import Linux011.Lib.Bytes

/-!
# The boot image

`tools/build.c`: the image of the boot floppy is made of the files `boot`, `setup` and `system`, less
their headers. A file is the list of its bytes, and an image is what is written to the standard output.

1. `build`.
2. `build_eq_ok`: what an image consists of.
-/

namespace Linux011.Boot

open Bytes (Byte)

/-! ## The code -/

/-- `MINIX_HEADER`. -/
def minixHeader : ℕ := 32

/-- `GCC_HEADER`. -/
def gccHeader : ℕ := 1024

/-- `SYS_SIZE`, in clicks of 16 bytes. -/
def sysSize : ℕ := 0x2000

/-- `SETUP_SECTS`. -/
def setupSects : ℕ := 4

/-- `sizeof buf`. -/
def bufSize : ℕ := 1024

/-- The fourth argument: there is none, `FLOPPY`, or a file, with the device numbers that `stat` finds. -/
inductive RootArg
  | default
  | floppy
  | device (st : Option (Byte × Byte))

/-- `major_root` and `minor_root`. -/
def RootArg.rootDev : RootArg → Except String (Byte × Byte)
  | .default => .ok (3, 6)
  | .floppy => .ok (0, 0)
  | .device (some dev) => .ok dev
  | .device none => .error "Couldn't stat root device."

/-- `((long *) buf)[k]`. -/
def long (buf : List Byte) (k : ℕ) : BitVec 32 :=
  buf.getD (4 * k + 3) 0 ++ buf.getD (4 * k + 2) 0 ++ buf.getD (4 * k + 1) 0 ++ buf.getD (4 * k) 0

/-- `if (c) die(str)`. -/
def dieIf (c : Prop) [Decidable c] (str : String) : Except String Unit :=
  if c then .error str else .ok ()

/-- `open`, and the `read` of a header of `n` bytes: the header and what follows it. -/
def openFile (file : Option (List Byte)) (n : ℕ) (name : String) :
    Except String (List Byte × List Byte) :=
  match file with
  | none => .error ("Unable to open " ++ name)
  | some bytes => do
    dieIf (bytes.length < n) ("Unable to read header of " ++ name)
    return (bytes.take n, bytes.drop n)

/-- The tests of the headers of `boot` and `setup`. -/
def checkMinix (buf : List Byte) (name : String) : Except String Unit := do
  dieIf (long buf 0 ≠ 0x04100301) ("Non-Minix header of " ++ name)
  dieIf (long buf 1 ≠ BitVec.ofNat 32 minixHeader) ("Non-Minix header of " ++ name)
  dieIf (long buf 3 ≠ 0) ("Illegal data segment in " ++ name)
  dieIf (long buf 4 ≠ 0) ("Illegal bss in " ++ name)
  dieIf (long buf 5 ≠ 0) ("Non-Minix header of " ++ name)
  dieIf (long buf 7 ≠ 0) ("Illegal symbol table in " ++ name)

/-- `for (i=0 ; (c=read(id,buf,sizeof buf))>0 ; i+=c ) write(1,buf,c)`, at most `n` times: what is
written, and `i`. -/
def copyFile : ℕ → List Byte → List Byte → ℕ → List Byte × ℕ
  | 0, _, out, i => (out, i)
  | n + 1, bytes, out, i =>
    let buf := bytes.take bufSize
    if 0 < buf.length then copyFile n (bytes.drop bufSize) (out ++ buf) (i + buf.length) else (out, i)

/-- The loop that pads `setup`, at most `n` times. -/
def pad : ℕ → List Byte → ℕ → List Byte
  | 0, out, _ => out
  | n + 1, out, i =>
    if i < setupSects * 512 then
      let c := setupSects * 512 - i
      let c := if c > bufSize then bufSize else c
      pad n (out ++ List.replicate c 0) (i + c)
    else out

/-- The boot sector, with the root device in it. -/
def buildBoot (root : RootArg) (boot : Option (List Byte)) : Except String (List Byte) := do
  let dev ← root.rootDev
  dieIf (dev.1 ≠ 2 ∧ dev.1 ≠ 3 ∧ dev.1 ≠ 0) "Bad root device --- major #"
  let file ← openFile boot minixHeader "'boot'"
  checkMinix file.1 "'boot'"
  let buf := file.2.take bufSize
  dieIf (buf.length ≠ 512) "Boot block must be exactly 512 bytes"
  dieIf (buf.getD 511 0 ++ buf.getD 510 0 ≠ (0xAA55 : BitVec 16))
    "Boot block hasn't got boot flag (0xAA55)"
  return (buf.set 508 dev.2).set 509 dev.1

def buildSetup (out : List Byte) (setup : Option (List Byte)) : Except String (List Byte) := do
  let file ← openFile setup minixHeader "'setup'"
  checkMinix file.1 "'setup'"
  let w := copyFile (file.2.length + 1) file.2 out 0
  dieIf (w.2 > setupSects * 512) "Setup exceeds SETUP_SECTS sectors - rewrite build/boot/setup"
  return pad (setupSects * 512) w.1 w.2

def buildSystem (out : List Byte) (system : Option (List Byte)) : Except String (List Byte) := do
  let file ← openFile system gccHeader "'system'"
  dieIf (long file.1 5 ≠ 0) "Non-GCC header of 'system'"
  let w := copyFile (file.2.length + 1) file.2 out 0
  dieIf (w.2 > sysSize * 16) "System is too big"
  return w.1

/-- `main`, with three or four arguments. -/
def build (root : RootArg) (boot setup system : Option (List Byte)) : Except String (List Byte) := do
  let out ← buildBoot root boot
  let out ← buildSetup out setup
  buildSystem out system

/-! ## The image -/

/-- The image: the boot sector with the root device, `setup`, zeros, and the system. -/
structure Layout (root : RootArg) (image boot setup system : List Byte) : Prop where
  image_eq : ∃ major minor, root.rootDev = .ok (major, minor) ∧ image =
    (boot.set 508 minor).set 509 major ++
      (setup ++ List.replicate (setupSects * 512 - setup.length) 0) ++ system
  boot : boot.length = 512
  setup : setup.length ≤ setupSects * 512
  system : system.length ≤ sysSize * 16

theorem copyFile_eq : ∀ (n : ℕ) {bytes : List Byte} (out : List Byte) (i : ℕ), bytes.length < n →
    copyFile n bytes out i = (out ++ bytes, i + bytes.length) := by
  intro n
  induction n with
  | zero => intro bytes out i h; omega
  | succ n ih =>
    intro bytes out i h
    unfold copyFile
    cases bytes with
    | nil => simp
    | cons b bs =>
      have hlen : ((b :: bs).drop bufSize).length < n := by
        have hb : bufSize = 1024 := rfl
        rw [List.length_drop, List.length_cons]
        rw [List.length_cons] at h
        omega
      have hpos : 0 < ((b :: bs).take bufSize).length := by simp [bufSize]
      dsimp only
      rw [if_pos hpos, ih _ _ hlen, List.append_assoc, List.take_append_drop, Nat.add_assoc,
        ← List.length_append, List.take_append_drop]

theorem pad_eq : ∀ (n : ℕ) (out : List Byte) {i : ℕ}, setupSects * 512 - i ≤ n →
    pad n out i = out ++ List.replicate (setupSects * 512 - i) 0 := by
  have hb : 0 < bufSize := by decide
  intro n
  induction n with
  | zero =>
    intro out i h
    rw [Nat.le_zero.1 h]
    simp [pad]
  | succ n ih =>
    intro out i h
    unfold pad
    generalize setupSects * 512 = k at h ih ⊢
    split
    · next hi =>
      dsimp only
      generalize hc : (if k - i > bufSize then bufSize else k - i) = c
      have hc : 0 < c ∧ c ≤ k - i := by
        subst hc
        split <;> omega
      rw [ih _ (by omega), List.append_assoc, ← List.replicate_add,
        show c + (k - (i + c)) = k - i by omega]
    · next hi =>
      rw [Nat.sub_eq_zero_of_le (by omega)]
      simp

theorem dieIf_eq_ok {c : Prop} [Decidable c] {str : String} {u : Unit} :
    dieIf c str = .ok u ↔ ¬ c := by
  unfold dieIf
  split <;> simp [*]

theorem bind_eq_ok {α β : Type} {x : Except String α} {f : α → Except String β} {b : β} :
    (x >>= f) = .ok b ↔ ∃ a, x = .ok a ∧ f a = .ok b := by
  cases x with
  | ok a => simp [bind, Except.bind]
  | error e => simp [bind, Except.bind]

theorem openFile_eq_ok {file : Option (List Byte)} {n : ℕ} {name : String}
    {header : List Byte × List Byte} (h : openFile file n name = .ok header) :
    ∃ all, file = some all ∧ header = (all.take n, all.drop n) := by
  unfold openFile at h
  cases file with
  | none => cases h
  | some all =>
    obtain ⟨_, -, h⟩ := bind_eq_ok.1 h
    exact ⟨all, rfl, (Except.ok.inj h).symm⟩

theorem buildBoot_eq_ok {root : RootArg} {boot : Option (List Byte)} {out : List Byte}
    (h : buildBoot root boot = .ok out) :
    ∃ major minor b, root.rootDev = .ok (major, minor) ∧ boot = some b ∧
      (b.drop minixHeader).length = 512 ∧
      out = ((b.drop minixHeader).set 508 minor).set 509 major := by
  unfold buildBoot at h
  obtain ⟨⟨major, minor⟩, hroot, h⟩ := bind_eq_ok.1 h
  obtain ⟨_, -, h⟩ := bind_eq_ok.1 h
  obtain ⟨file, hfile, h⟩ := bind_eq_ok.1 h
  obtain ⟨b, rfl, rfl⟩ := openFile_eq_ok hfile
  obtain ⟨_, -, h⟩ := bind_eq_ok.1 h
  obtain ⟨_, hlen, h⟩ := bind_eq_ok.1 h
  obtain ⟨_, -, h⟩ := bind_eq_ok.1 h
  have hlen := not_not.1 (dieIf_eq_ok.1 hlen)
  have hlen' : (b.drop minixHeader).length = 512 := by
    have hb : bufSize = 1024 := rfl
    dsimp only at hlen
    rw [List.length_take] at hlen
    omega
  have htake : (b.drop minixHeader).take bufSize = b.drop minixHeader :=
    List.take_of_length_le (by rw [hlen']; decide)
  dsimp only at h
  rw [htake] at h
  exact ⟨major, minor, b, hroot, rfl, hlen', (Except.ok.inj h).symm⟩

theorem buildSetup_eq_ok {out out' : List Byte} {setup : Option (List Byte)}
    (h : buildSetup out setup = .ok out') :
    ∃ s, setup = some s ∧ (s.drop minixHeader).length ≤ setupSects * 512 ∧
      out' = out ++ (s.drop minixHeader ++
        List.replicate (setupSects * 512 - (s.drop minixHeader).length) 0) := by
  unfold buildSetup at h
  obtain ⟨file, hfile, h⟩ := bind_eq_ok.1 h
  obtain ⟨s, rfl, rfl⟩ := openFile_eq_ok hfile
  obtain ⟨_, -, h⟩ := bind_eq_ok.1 h
  obtain ⟨_, hi, h⟩ := bind_eq_ok.1 h
  have hcopy := copyFile_eq ((s.drop minixHeader).length + 1) out 0 (Nat.lt_succ_self _)
  have hi := dieIf_eq_ok.1 hi
  dsimp only at h hi
  rw [hcopy, Nat.zero_add] at h hi
  have h := (Except.ok.inj h).symm
  rw [pad_eq _ _ (Nat.sub_le _ _), List.append_assoc] at h
  exact ⟨s, rfl, Nat.le_of_not_gt hi, h⟩

theorem buildSystem_eq_ok {out image : List Byte} {system : Option (List Byte)}
    (h : buildSystem out system = .ok image) :
    ∃ y, system = some y ∧ (y.drop gccHeader).length ≤ sysSize * 16 ∧
      image = out ++ y.drop gccHeader := by
  unfold buildSystem at h
  obtain ⟨file, hfile, h⟩ := bind_eq_ok.1 h
  obtain ⟨y, rfl, rfl⟩ := openFile_eq_ok hfile
  obtain ⟨_, -, h⟩ := bind_eq_ok.1 h
  obtain ⟨_, hi, h⟩ := bind_eq_ok.1 h
  have hcopy := copyFile_eq ((y.drop gccHeader).length + 1) out 0 (Nat.lt_succ_self _)
  have hi := dieIf_eq_ok.1 hi
  dsimp only at h hi
  rw [hcopy, Nat.zero_add] at h hi
  exact ⟨y, rfl, Nat.le_of_not_gt hi, (Except.ok.inj h).symm⟩

/-- What `build` writes when it returns 0. -/
theorem build_eq_ok {root : RootArg} {boot setup system : Option (List Byte)} {image : List Byte}
    (h : build root boot setup system = .ok image) :
    ∃ b s y, boot = some b ∧ setup = some s ∧ system = some y ∧
      Layout root image (b.drop minixHeader) (s.drop minixHeader) (y.drop gccHeader) := by
  unfold build at h
  obtain ⟨out, hb, h⟩ := bind_eq_ok.1 h
  obtain ⟨out', hs, h⟩ := bind_eq_ok.1 h
  obtain ⟨major, minor, b, hroot, rfl, hlen, rfl⟩ := buildBoot_eq_ok hb
  obtain ⟨s, rfl, hslen, rfl⟩ := buildSetup_eq_ok hs
  obtain ⟨y, rfl, hylen, rfl⟩ := buildSystem_eq_ok h
  exact ⟨b, s, y, rfl, rfl, rfl, ⟨major, minor, hroot, rfl⟩, hlen, hslen, hylen⟩

end Linux011.Boot
