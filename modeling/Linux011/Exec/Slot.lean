import Linux011.Exec.Segment
import Linux011.Lib.Transition
import Mathlib.Logic.Function.Basic

/-!
# Executables and the slot of a process

`do_execve` from the check of the header on, as far as it concerns the segments of the process, and
`copy_mem`. Process `nr` has the linear addresses from `nr * 0x4000000` to the next slot.

1. `Exec`, `checkHeader`, `changeLdt`, `execve`, `copyMem`, and the runs of `processes`.
2. `OwnsSlot` and `StaysInSlot`.
3. `reachable_ownsSlot`: every process has its slot, whatever it and its parents executed.
4. `execve_staysInSlot_iff`: the sums of the check may overflow, and no text is 4 GB of code segment.
-/

namespace Linux011.Execve

/-! ## The code -/

/-- The header of an executable. -/
structure Exec where
  aMagic : BitVec 32
  aText : BitVec 32
  aData : BitVec 32
  aBss : BitVec 32
  aSyms : BitVec 32
  aEntry : BitVec 32
  aTrsize : BitVec 32
  aDrsize : BitVec 32

/-- `ZMAGIC`, octal 413. -/
def zmagic : BitVec 32 := 0x10b

/-- `N_TXTOFF`. -/
def Exec.txtoff (ex : Exec) : BitVec 32 := if ex.aMagic = zmagic then (1024 - 32) + 32 else 32

inductive Error
  | enoexec
  deriving DecidableEq

/-- The checks of the header of a file of size `iSize`. -/
def checkHeader (ex : Exec) (iSize : BitVec 32) : Except Error Unit :=
  if ex.aMagic ≠ zmagic ∨ ex.aTrsize ≠ 0 ∨ ex.aDrsize ≠ 0 ∨
      0x3000000 < ex.aText + ex.aData + ex.aBss ∨
      iSize < ex.aText + ex.aData + ex.aSyms + ex.txtoff then
    .error .enoexec
  else if ex.txtoff ≠ 1024 then .error .enoexec
  else .ok ()

/-- The segments of a process, `ldt[1]` and `ldt[2]`, and the extent of its program. -/
structure Process where
  code : Descriptor
  data : Descriptor
  endCode : BitVec 32
  endData : BitVec 32
  brk : BitVec 32

/-- The code limit of `change_ldt`. -/
def codeLimit (textSize : BitVec 32) : BitVec 32 := (textSize + 4096 - 1) &&& 0xfffff000#32

/-- The segments after `change_ldt`. -/
def changeLdt (t : Process) (textSize : BitVec 32) : Process :=
  let base := t.code.getBase
  { t with
    code := (t.code.setBase base).setLimit (codeLimit textSize)
    data := (t.data.setBase base).setLimit 0x4000000 }

/-- `do_execve` of a file with this header and size. -/
def execve (t : Process) (ex : Exec) (iSize : BitVec 32) : Except Error Process := do
  checkHeader ex iSize
  let t := changeLdt t ex.aText
  return { t with
    endCode := ex.aText
    endData := ex.aData + ex.aText
    brk := ex.aBss + (ex.aData + ex.aText) }

/-- The directory entries that `free_page_tables` and `copy_page_tables` go through. -/
def dirEntries (base limit : BitVec 32) : List ℕ :=
  (List.range (Mm.dirCount limit.toNat)).map (Mm.dirIndex base.toNat + ·)

/-- Why `copy_mem` panics. -/
inductive Panic
  | separateID
  | badDataLimit
  deriving DecidableEq

/-- The segments of the child `nr` that `copy_mem` makes. -/
def copyMem (t : Process) (nr : BitVec 32) : Except Panic Process :=
  if t.data.getBase ≠ t.code.getBase then .error .separateID
  else if t.data.getLimit < t.code.getLimit then .error .badDataLimit
  else .ok { t with
    code := t.code.setBase (nr * 0x4000000#32)
    data := t.data.setBase (nr * 0x4000000#32) }

/-- The processes, by their index in `task`. -/
abbrev Tasks := ℕ → Option Process

/-- `INIT_TASK`. -/
def initTask : Process where
  code := ⟨0x9f, 0, 0, 0xfa, 0xc0, 0⟩
  data := ⟨0x9f, 0, 0, 0xf2, 0xc0, 0⟩
  endCode := 0
  endData := 0
  brk := 0

inductive Event
  | fork (nr child : ℕ)
  | execve (nr : ℕ) (ex : Exec) (iSize : BitVec 32)
  | exit (nr : ℕ)

/-- What the event makes of the processes. A call that fails changes none of them. -/
def next (s : Tasks) : Event → Option Tasks
  | .fork nr child =>
    if 0 < child ∧ child < 64 ∧ s child = none then
      (s nr).bind fun t => (copyMem t (BitVec.ofNat 32 child)).toOption.map fun t' =>
        Function.update s child (some t')
    else none
  | .execve nr ex iSize =>
    (s nr).map fun t =>
      match execve t ex iSize with
      | .error _ => s
      | .ok t' => Function.update s nr (some t')
  | .exit nr => some (Function.update s nr none)

def processes : System Tasks Event where
  init s := s = Function.update (fun _ => none) 0 (some initTask)
  step s e s' := next s e = some s'

/-! ## Slots -/

/-- The linear addresses of the segment are among `len` addresses from `start` on. -/
def Descriptor.Within (d : Descriptor) (start len : ℕ) : Prop :=
  ∀ offset, offset ≤ d.lsl → start ≤ (d.getBase + offset).toNat ∧
    (d.getBase + offset).toNat < start + len

/-- Both segments of a process start at its slot, and their limits are in pages. -/
structure OwnsSlot (t : Process) (nr : ℕ) : Prop where
  lt : nr < 64
  code : t.code.getBase.toNat = nr * 0x4000000
  data : t.data.getBase.toNat = nr * 0x4000000
  codePages : t.code.granular = true
  dataPages : t.data.granular = true

/-- The program is as large as its header says and all of it is in the file, both segments lie in the
slot `nr`, and so do the directory entries that are freed or copied for them. -/
structure StaysInSlot (ex : Exec) (iSize : BitVec 32) (t : Process) (nr : ℕ) : Prop where
  size : ex.aText.toNat + ex.aData.toNat + ex.aBss.toNat ≤ 0x3000000
  file : 1024 + ex.aText.toNat + ex.aData.toNat + ex.aSyms.toNat ≤ iSize.toNat
  code : t.code.Within (nr * 0x4000000) 0x4000000
  data : t.data.Within (nr * 0x4000000) 0x4000000
  entries : ∀ d ∈ dirEntries t.code.getBase t.code.getLimit ++ dirEntries t.data.getBase t.data.getLimit,
    16 * nr ≤ d ∧ d < 16 * nr + 16

variable {t t' : Process} {nr : ℕ} {ex : Exec} {iSize : BitVec 32}

theorem OwnsSlot.changeLdt (h : OwnsSlot t nr) (textSize : BitVec 32) :
    OwnsSlot (changeLdt t textSize) nr := by
  refine ⟨h.lt, ?_, ?_, ?_, ?_⟩
  · simpa [Execve.changeLdt] using h.code
  · simpa [Execve.changeLdt] using h.code
  · exact Descriptor.setLimit_granular _ _ h.codePages
  · exact Descriptor.setLimit_granular _ _ h.dataPages

theorem toNat_slot {child : ℕ} (hc : child < 64) :
    (BitVec.ofNat 32 child * 0x4000000#32).toNat = child * 0x4000000 := by
  have h1 : child < 2 ^ 32 := by omega
  have h2 : child * 0x4000000 < 2 ^ 32 := by omega
  rw [BitVec.toNat_mul, BitVec.toNat_ofNat, Nat.mod_eq_of_lt h1]
  exact Nat.mod_eq_of_lt h2

theorem OwnsSlot.moveTo (h : OwnsSlot t nr) {base : BitVec 32} {child : ℕ} (hc : child < 64)
    (hbase : base.toNat = child * 0x4000000) :
    OwnsSlot { t with code := t.code.setBase base, data := t.data.setBase base } child where
  lt := hc
  code := by rw [Descriptor.getBase_setBase, hbase]
  data := by rw [Descriptor.getBase_setBase, hbase]
  codePages := h.codePages
  dataPages := h.dataPages

theorem copyMem_eq_ok {nr : BitVec 32} (h : copyMem t nr = .ok t') :
    t' = { t with
      code := t.code.setBase (nr * 0x4000000#32)
      data := t.data.setBase (nr * 0x4000000#32) } := by
  unfold copyMem at h
  split at h
  · cases h
  · split at h
    · cases h
    · exact (Except.ok.inj h).symm

/-- Every child starts in its own slot. -/
theorem OwnsSlot.copyMem (h : OwnsSlot t nr) {child : ℕ} (hc : child < 64)
    (ht : copyMem t (BitVec.ofNat 32 child) = .ok t') : OwnsSlot t' child := by
  have e := copyMem_eq_ok ht
  have hbase := toNat_slot hc
  generalize BitVec.ofNat 32 child * 0x4000000#32 = base at e hbase
  subst e
  exact h.moveTo hc hbase

/-- What the process is after an `execve` that succeeds. -/
theorem execve_eq_ok (h : execve t ex iSize = .ok t') :
    checkHeader ex iSize = .ok () ∧ t'.code = (changeLdt t ex.aText).code ∧
      t'.data = (changeLdt t ex.aText).data := by
  unfold execve at h
  cases hc : checkHeader ex iSize with
  | error e => rw [hc] at h; cases h
  | ok u => rw [hc] at h; cases h; exact ⟨rfl, rfl, rfl⟩

theorem OwnsSlot.execve (h : OwnsSlot t nr) (ht : execve t ex iSize = .ok t') : OwnsSlot t' nr := by
  obtain ⟨-, hcode, hdata⟩ := execve_eq_ok ht
  have h' := h.changeLdt ex.aText
  exact ⟨h.lt, hcode ▸ h'.code, hdata ▸ h'.data, hcode ▸ h'.codePages, hdata ▸ h'.dataPages⟩

/-- Every process has the slot of its index, whatever was executed. -/
theorem reachable_ownsSlot {s : Tasks} (hs : processes.Reachable s) :
    ∀ nr t, s nr = some t → OwnsSlot t nr := by
  have hset : ∀ {s : Tasks} {i : ℕ} {t₁ : Process}, (∀ nr t, s nr = some t → OwnsSlot t nr) →
      OwnsSlot t₁ i → ∀ nr t, Function.update s i (some t₁) nr = some t → OwnsSlot t nr := by
    intro s i t₁ ih h₁ nr t ht
    by_cases hi : nr = i
    · subst hi
      rw [Function.update_self] at ht
      exact Option.some.inj ht ▸ h₁
    · rw [Function.update_of_ne hi] at ht
      exact ih nr t ht
  refine System.Reachable.invariant (I := fun s => ∀ nr t, s nr = some t → OwnsSlot t nr)
    (fun s h0 => ?_) (fun s e s' ih he => ?_) hs
  · obtain rfl : s = _ := h0
    exact hset (by simp) ⟨by decide, by decide, by decide, by decide, by decide⟩
  · have he : next s e = some s' := he
    cases e with
    | fork nr child =>
      dsimp only [next] at he
      split at he
      · next hc =>
        obtain ⟨t, ht, he⟩ := Option.bind_eq_some_iff.1 he
        obtain ⟨t₁, ht₁, rfl⟩ := Option.map_eq_some_iff.1 he
        refine hset ih ((ih nr t ht).copyMem hc.2.1 ?_)
        cases hm : Execve.copyMem t (BitVec.ofNat 32 child) with
        | error e => rw [hm] at ht₁; cases ht₁
        | ok t₂ => rw [hm] at ht₁; cases ht₁; rfl
      · cases he
    | execve nr ex iSize =>
      obtain ⟨t, ht, rfl⟩ := Option.map_eq_some_iff.1 he
      cases hm : Execve.execve t ex iSize with
      | error e => exact ih
      | ok t₁ => exact hset ih ((ih nr t ht).execve hm)
    | exit nr =>
      obtain rfl := Option.some.inj he
      intro i t ht
      by_cases hi : i = nr
      · subst hi
        rw [Function.update_self] at ht
        cases ht
      · rw [Function.update_of_ne hi] at ht
        exact ih i t ht

/-- What the check of the header says. -/
theorem checkHeader_eq_ok (h : checkHeader ex iSize = .ok ()) :
    (ex.aText + ex.aData + ex.aBss).toNat ≤ 0x3000000 ∧
      (ex.aText + ex.aData + ex.aSyms + 1024).toNat ≤ iSize.toNat := by
  unfold checkHeader at h
  split at h
  · cases h
  · next hn =>
    push Not at hn
    obtain ⟨hm, -, -, hsum, hfile⟩ := hn
    have htxt : ex.txtoff = 1024 := by simp [Exec.txtoff, hm]
    rw [htxt] at hfile
    exact ⟨by simpa [BitVec.le_def] using hsum, by simpa [BitVec.le_def] using hfile⟩

/-! ## Limits -/

theorem toNat_and_pages (x : BitVec 32) : (x &&& 0xfffff000#32).toNat = x.toNat / 4096 * 4096 := by
  have hmask : ∀ i < 32, (0xfffff000#32).getLsbD i = decide (12 ≤ i) := by decide
  have hshift : x &&& 0xfffff000#32 = (x >>> 12) <<< 12 := by
    apply BitVec.eq_of_getLsbD_eq
    intro i hi
    simp only [BitVec.getLsbD_and, hmask i hi, BitVec.getLsbD_shiftLeft, BitVec.getLsbD_ushiftRight, hi]
    by_cases h : 12 ≤ i
    · simp [h, show ¬ i < 12 by omega, show 12 + (i - 12) = i by omega]
    · simp [h, show i < 12 by omega]
  rw [hshift, BitVec.toNat_shiftLeft, BitVec.toNat_ushiftRight, Nat.shiftRight_eq_div_pow,
    Nat.shiftLeft_eq]
  have := x.isLt
  omega

/-- The code limit is the size of the text in whole pages. -/
theorem toNat_codeLimit {textSize : BitVec 32} (h : textSize.toNat ≤ 0x3000000) :
    (codeLimit textSize).toNat = (textSize.toNat + 4095) / 4096 * 4096 := by
  unfold codeLimit
  rw [toNat_and_pages]
  have : (textSize + 4096 - 1).toNat = textSize.toNat + 4095 := by bv_omega
  rw [this]

/-- A segment from the start of the slot that is not longer than it. -/
theorem Descriptor.within_of_lsl {d : Descriptor} (_ : nr < 64)
    (hb : d.getBase.toNat = nr * 0x4000000) (hl : d.lsl.toNat < 0x4000000) :
    d.Within (nr * 0x4000000) 0x4000000 := by
  intro offset ho
  have ho : offset.toNat ≤ d.lsl.toNat := ho
  have hsum : (d.getBase + offset).toNat = nr * 0x4000000 + offset.toNat := by
    rw [BitVec.toNat_add, hb]
    omega
  omega

theorem dirEntries_own {base limit : BitVec 32} (_ : nr < 64) (hb : base.toNat = nr * 0x4000000)
    (hl : limit.toNat ≤ 0x4000000) : ∀ d ∈ dirEntries base limit, 16 * nr ≤ d ∧ d < 16 * nr + 16 := by
  intro d hd
  obtain ⟨k, hk, rfl⟩ := List.mem_map.1 hd
  have hk : k < Mm.dirCount limit.toNat := List.mem_range.1 hk
  unfold Mm.dirCount at hk
  unfold Mm.dirIndex
  omega

/-- **An accepted executable stays in its slot if and only if** it has text and the sums of the check
do not overflow. -/
theorem execve_staysInSlot_iff {s : Tasks} (hs : processes.Reachable s) (hnr : s nr = some t)
    (h : execve t ex iSize = .ok t') :
    StaysInSlot ex iSize t' nr ↔ ex.aText ≠ 0 ∧
      ex.aText.toNat + ex.aData.toNat + ex.aBss.toNat < 2 ^ 32 ∧
      ex.aText.toNat + ex.aData.toNat + ex.aSyms.toNat + 1024 < 2 ^ 32 := by
  obtain ⟨hcheck, hcode, hdata⟩ := execve_eq_ok h
  obtain ⟨hsum, hfile⟩ := checkHeader_eq_ok hcheck
  have ht := reachable_ownsSlot hs nr t hnr
  have ht' := ht.changeLdt ex.aText
  have hlsl : t'.code.lsl.toNat = (codeLimit ex.aText - 1).toNat / 4096 * 4096 + 4095 := by
    rw [hcode]
    exact Descriptor.toNat_lsl_setLimit _ _ ht.codePages
  have hdlsl : t'.data.lsl.toNat = 0x3ffffff := by
    rw [hdata]
    exact Descriptor.toNat_lsl_setLimit _ _ ht.dataPages
  constructor
  · intro hs
    refine ⟨fun h0 => ?_, by have := hs.size; omega, ?_⟩
    · -- the limit of no code is the whole address space
      have hall : t'.code.lsl.toNat = 2 ^ 32 - 1 := by
        rw [hlsl, h0]
        rfl
      have hle : ∀ x : BitVec 32, x ≤ t'.code.lsl := fun x => by
        have := x.isLt
        change x.toNat ≤ t'.code.lsl.toNat
        omega
      have hbase : t'.code.getBase.toNat = nr * 0x4000000 := hcode ▸ ht'.code
      have hout := hs.code 0x4000000#32 (hle _)
      have hn := ht.lt
      rw [BitVec.toNat_add, hbase, show (0x4000000#32).toNat = 0x4000000 from rfl] at hout
      omega
    · have := hs.file
      have := iSize.isLt
      omega
  · rintro ⟨h0, h1, h2⟩
    have hsize : ex.aText.toNat + ex.aData.toNat + ex.aBss.toNat ≤ 0x3000000 := by
      have : (ex.aText + ex.aData + ex.aBss).toNat = ex.aText.toNat + ex.aData.toNat + ex.aBss.toNat := by
        simp only [BitVec.toNat_add]
        omega
      omega
    have hpos : ex.aText.toNat ≠ 0 := fun e => h0 (BitVec.eq_of_toNat_eq e)
    have hlim := toNat_codeLimit (show ex.aText.toNat ≤ 0x3000000 by omega)
    have hl : t'.code.lsl.toNat = (ex.aText.toNat + 4095) / 4096 * 4096 - 1 := by
      rw [hlsl, show (codeLimit ex.aText - 1).toNat = (codeLimit ex.aText).toNat - 1 by bv_omega, hlim]
      omega
    refine ⟨hsize, ?_, ?_, ?_, ?_⟩
    · have : (ex.aText + ex.aData + ex.aSyms + 1024).toNat =
          ex.aText.toNat + ex.aData.toNat + ex.aSyms.toNat + 1024 := by
        rw [BitVec.toNat_add, BitVec.toNat_add, BitVec.toNat_add, show (1024 : BitVec 32).toNat = 1024 from rfl]
        omega
      omega
    · exact Descriptor.within_of_lsl ht.lt (hcode ▸ ht'.code) (by omega)
    · exact Descriptor.within_of_lsl ht.lt (hdata ▸ ht'.data) (by omega)
    · intro d hd
      rcases List.mem_append.1 hd with hd | hd
      · refine dirEntries_own ht.lt (hcode ▸ ht'.code) ?_ d hd
        unfold Descriptor.getLimit
        bv_omega
      · refine dirEntries_own ht.lt (hdata ▸ ht'.data) ?_ d hd
        unfold Descriptor.getLimit
        bv_omega

/-- Task 1 executes a program with two pages of text. -/
theorem execve_staysInSlot_small : ∃ s t t', processes.Reachable s ∧ s 1 = some t ∧
    execve t ⟨zmagic, 0x2000, 0x1000, 0, 0, 0, 0, 0⟩ 0x4000 = .ok t' ∧
    StaysInSlot ⟨zmagic, 0x2000, 0x1000, 0, 0, 0, 0, 0⟩ 0x4000 t' 1 := by
  let s₀ : Tasks := Function.update (fun _ => none) 0 (some initTask)
  let t : Process := { initTask with
    code := ⟨0x9f, 0, 0, 0xfa, 0xc0, 4⟩
    data := ⟨0x9f, 0, 0, 0xf2, 0xc0, 4⟩ }
  have hfork : next s₀ (.fork 0 1) = some (Function.update s₀ 1 (some t)) := rfl
  have hs : processes.Reachable (Function.update s₀ 1 (some t)) := .next (.start rfl) hfork
  have hnr : Function.update s₀ 1 (some t) 1 = some t := Function.update_self ..
  have hok : (execve t ⟨zmagic, 0x2000, 0x1000, 0, 0, 0, 0, 0⟩ 0x4000).isOk = true := by decide
  cases he : execve t ⟨zmagic, 0x2000, 0x1000, 0, 0, 0, 0, 0⟩ 0x4000 with
  | error e => rw [he] at hok; cases hok
  | ok t' => exact ⟨_, t, t', hs, hnr, he, (execve_staysInSlot_iff hs hnr he).2 (by decide)⟩

/-- The sum of 1 GB of text and 3 GB of data is 0: a file with nothing but its header is accepted, and
the code segment of task 1 and the directory entries freed with it reach over the slots after its own. -/
theorem execve_overflow : ∃ s t t', processes.Reachable s ∧ s 1 = some t ∧
    execve t ⟨zmagic, 0x40000000, 0xc0000000, 0, 0, 0, 0, 0⟩ 1024 = .ok t' ∧
    t'.code.lsl = 0x3fffffff#32 ∧ 32 ∈ dirEntries t'.code.getBase t'.code.getLimit ∧
    ¬ StaysInSlot ⟨zmagic, 0x40000000, 0xc0000000, 0, 0, 0, 0, 0⟩ 1024 t' 1 := by
  let s₀ : Tasks := Function.update (fun _ => none) 0 (some initTask)
  let t : Process := { initTask with
    code := ⟨0x9f, 0, 0, 0xfa, 0xc0, 4⟩
    data := ⟨0x9f, 0, 0, 0xf2, 0xc0, 4⟩ }
  have hfork : next s₀ (.fork 0 1) = some (Function.update s₀ 1 (some t)) := rfl
  have hs : processes.Reachable (Function.update s₀ 1 (some t)) := .next (.start rfl) hfork
  have hnr : Function.update s₀ 1 (some t) 1 = some t := Function.update_self ..
  have hok : (execve t ⟨zmagic, 0x40000000, 0xc0000000, 0, 0, 0, 0, 0⟩ 1024).toOption.map
      (fun t' => decide (t'.code.lsl = 0x3fffffff#32 ∧
        32 ∈ dirEntries t'.code.getBase t'.code.getLimit)) = some true := by decide +kernel
  cases he : execve t ⟨zmagic, 0x40000000, 0xc0000000, 0, 0, 0, 0, 0⟩ 1024 with
  | error e => rw [he] at hok; cases hok
  | ok t' =>
    rw [he] at hok
    obtain ⟨hcode, hdir⟩ := of_decide_eq_true (Option.some.inj hok)
    exact ⟨_, t, t', hs, hnr, he, hcode, hdir, fun h => absurd h.size (by decide)⟩

end Linux011.Execve
