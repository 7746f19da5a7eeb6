import Linux011.Exec.Execve

/-!
# Rules for `do_execve`

What a call does before the point of no return, and how it fails.

1. `copyAll`: calls of `copy_strings` one after the other. `Fits`: none of them runs out of the area.
   `copyAll_spec`, `copyAll_outside`.
2. `Along`: what holds up to the point of no return. `Failed`: what holds after an error.
3. `Contract`: what is asked of the file system. The rules of `execError1`, `openExec`, `loadBinary`,
   `splice` and `restart`; `doExecve_rule`.
-/

namespace Linux011.Execve

open Args Bytes

variable {σ ι β φ : Type}

/-! ## Copying -/

/-- A call of `copy_strings`, and the strings it is for. -/
structure Strings where
  fromKmem : ℕ
  argc : ℤ
  argv : Addr
  strings : List (List Byte)

def copyAll (e : Env) : List Strings → BitVec 32 → Machine σ ι φ →
    Except Stop (BitVec 32 × Machine σ ι φ)
  | [], p, x => .ok (p, x)
  | c :: cs, p, x => do
    let (p, x) ← copy e x c.fromKmem c.argc c.argv p
    copyAll e cs p x

/-- The strings of all calls as they are in memory. -/
def laid : List Strings → List (List Byte)
  | [] => []
  | c :: cs => laid cs ++ c.strings

/-- Below `p` there is room for the strings of each call, or none at all is left for it. -/
def Fits : ℕ → List (List (List Byte)) → Prop
  | _, [] => True
  | p, ss :: l => p = 0 ∨ (flat ss).length ≤ p ∧ Fits (p - (flat ss).length) l

/-- The only pointer is null. -/
def Strings.Null (c : Strings) (x : Machine σ ι φ) : Prop :=
  c.argc = 1 ∧
    getLong (Segments.of ⟨x.user, x.kernel⟩ (ptrSeg c.fromKmem x.args.fs)) c.argv = 0

/-- The array points to the strings, or panics the call. -/
def Strings.At (c : Strings) (x : Machine σ ι φ) : Prop :=
  c.argc.toNat = c.strings.length ∧
    (ArgsAt ⟨x.user, x.kernel⟩ c.fromKmem x.args c.argv c.strings ∨ c.Null x)

theorem fits_zero (l : List (List (List Byte))) : Fits 0 l := by
  cases l with
  | nil => trivial
  | cons ss l => exact .inl rfl

theorem fits_of_length_le {p : ℕ} {cs : List Strings} (h : (flat (laid cs)).length ≤ p) :
    Fits p (cs.map Strings.strings) := by
  induction cs generalizing p with
  | nil => trivial
  | cons c cs ih =>
    unfold laid at h
    rw [flat_append, List.length_append] at h
    exact .inr ⟨by omega, ih (by omega)⟩

section Copy

variable {e : Env} {x : Machine σ ι φ} {c : Strings} {cs : List Strings} {p : BitVec 32}

/-- A negative count is none. -/
theorem copy_toNat (e : Env) (x : Machine σ ι φ) (k : ℕ) (argc : ℤ) (argv : Addr) (p : BitVec 32) :
    copy e x k argc argv p = copy e x k argc.toNat argv p := by
  unfold copy copyStrings
  simp only [Int.toNat_natCast]

theorem copy_zero (e : Env) (x : Machine σ ι φ) (k : ℕ) (argc : ℤ) (argv : Addr) :
    copy e x k argc argv 0 = .ok (0, x) := by
  unfold copy copyStrings
  rw [if_pos rfl]

/-- A null pointer. -/
theorem copy_null (h : c.Null x) (hp : p ≠ 0) :
    copy e x c.fromKmem c.argc c.argv p = .error (.copy .argcWrong) := by
  obtain ⟨hargc, hnull⟩ := h
  have hstep : ∀ k, getLong (Segments.of ⟨x.user, x.kernel⟩ (ptrSeg k x.args.fs)) c.argv = 0 →
      copyStrings e.supply ⟨x.user, x.kernel⟩ k 1 c.argv p x.args = .error .argcWrong := by
    intro k hk
    obtain ⟨s, hs⟩ : ∃ s, s = if k = 2 then x.args.setFs .kernel else x.args := ⟨_, rfl⟩
    obtain ⟨s₁, hs₁⟩ : ∃ s₁, s₁ = if k = 1 then s.setFs .kernel else s := ⟨_, rfl⟩
    have hseg : s₁.fs = ptrSeg k x.args.fs := by
      rw [hs₁, hs]
      unfold ptrSeg
      by_cases h1 : k = 1
      · simp [h1, setFs]
      · by_cases h2 : k = 2
        · simp [h2, setFs]
        · simp [h1, h2]
    have hloop : copyLoop e.supply ⟨x.user, x.kernel⟩ k x.args.fs c.argv 1 s ⟨p, 0, 0, 0⟩ =
        .error .argcWrong := by
      rw [copyLoop]
      simp only
      rw [← hs₁, hseg, Nat.mul_zero, BitVec.add_zero, hk, if_pos rfl]
    unfold copyStrings
    rw [if_neg hp]
    simp only
    rw [← hs, show (1 : ℤ).toNat = 1 from rfl, hloop]
  unfold copy
  rw [hargc, hstep _ hnull]

/-- One call, where its strings fit. -/
theorem copy_spec (hW : x.args.Wf) (hle : p.toNat ≤ MAX_ARG_PAGES * 4096) (hat : c.At x)
    (hfit : p.toNat = 0 ∨ (flat c.strings).length ≤ p.toNat) :
    Post (copy e x c.fromKmem c.argc c.argv p)
      (fun r => ∃ s, r.2 = { x with args := s } ∧ Steps e.supply x.args s ∧ s.fs = x.args.fs ∧
        (r.1 ≠ 0 → (flat c.strings).length ≤ p.toNat ∧
          r.1.toNat = p.toNat - (flat c.strings).length ∧
          ∀ bs, x.args.Holds p.toNat bs → s.Holds r.1.toNat (flat c.strings ++ bs)) ∧
        (x.args.Plenty e.supply → (flat c.strings).length < p.toNat → r.1 ≠ 0))
      (fun err => err = .copy .argcWrong ∧ c.Null x) := by
  by_cases hp : p = 0
  · rw [hp, copy_zero]
    exact Post.ok ⟨x.args, rfl, .refl, rfl, fun h => absurd rfl h, fun _ h => absurd h (Nat.not_lt_zero _)⟩
  have hfit := hfit.resolve_left fun h => hp (BitVec.eq_of_toNat_eq h)
  obtain ⟨hlen, hargs | hnull⟩ := hat
  · obtain ⟨r, s, hcopy, hs, hfs, hr⟩ := copyStrings_fit e.supply hW hle hargs hfit
    rw [copy_toNat, hlen]
    unfold copy
    rw [hcopy]
    refine Post.ok ⟨s, rfl, hs, hfs, fun h0 => ?_, fun hplenty hlt h0 => ?_⟩
    · obtain ⟨hr, hh⟩ := hr.resolve_right fun hx => h0 hx.1
      exact ⟨hfit, hr, hh⟩
    · obtain ⟨hr, -⟩ := hr.resolve_right fun hx => hx.2 hplenty
      simp only at h0
      rw [h0] at hr
      have : (0 : BitVec 32).toNat = 0 := rfl
      omega
  · rw [copy_null hnull hp]
    exact Post.error ⟨rfl, hnull⟩

variable (cs) in
/-- All calls, where their strings fit. -/
theorem copyAll_spec (hW : x.args.Wf) (hle : p.toNat ≤ MAX_ARG_PAGES * 4096)
    (hat : ∀ c ∈ cs, c.At x) (hfits : Fits p.toNat (cs.map Strings.strings)) :
    Post (copyAll e cs p x)
      (fun r => ∃ s, r.2 = { x with args := s } ∧ Steps e.supply x.args s ∧ s.fs = x.args.fs ∧
        (r.1 ≠ 0 → r.1.toNat + (flat (laid cs)).length = p.toNat ∧
          ∀ bs, x.args.Holds p.toNat bs → s.Holds r.1.toNat (flat (laid cs) ++ bs)) ∧
        (x.args.Plenty e.supply → (flat (laid cs)).length < p.toNat → r.1 ≠ 0))
      (fun err => err = .copy .argcWrong ∧ ∃ c ∈ cs, c.Null x) := by
  induction cs generalizing x p with
  | nil =>
    refine Post.ok ⟨x.args, rfl, .refl, rfl, fun _ => ⟨rfl, fun bs h => h⟩, fun _ hlt h0 => ?_⟩
    simp only at h0
    rw [h0] at hlt
    exact absurd hlt (Nat.not_lt_zero _)
  | cons c cs ih =>
    obtain ⟨hatc, hat⟩ := List.forall_mem_cons.1 hat
    unfold copyAll
    refine Post.bind ((copy_spec hW hle hatc (hfits.imp_right And.left)).mono (fun _ => id)
      fun err he => ⟨he.1, c, List.mem_cons_self, he.2⟩) fun r hr => ?_
    obtain ⟨p₁, x₁⟩ := r
    obtain ⟨s₁, rfl, hs₁, hfs₁, hr₁, hpl₁⟩ := hr
    simp only at hr₁ hpl₁ ⊢
    have hnext : p₁.toNat ≤ MAX_ARG_PAGES * 4096 ∧ Fits p₁.toNat (cs.map Strings.strings) := by
      by_cases h0 : p₁ = 0
      · rw [h0]
        exact ⟨Nat.zero_le _, fits_zero _⟩
      · obtain ⟨h1, h2, -⟩ := hr₁ h0
        refine ⟨by omega, ?_⟩
        rcases hfits with hp | ⟨-, hfits⟩
        · rw [h2, hp, Nat.zero_sub]
          exact fits_zero _
        · rw [h2]
          exact hfits
    have hat₁ : ∀ c ∈ cs, c.At { x with args := s₁ } := fun c hc => by
      obtain ⟨hl, hargs⟩ := hat c hc
      refine ⟨hl, hargs.imp (fun h => ?_) fun h => ⟨h.1, ?_⟩⟩
      · unfold ArgsAt
        simp only [hfs₁]
        exact h
      · simp only [hfs₁]
        exact h.2
    refine (ih (x := { x with args := s₁ }) (hW.steps hs₁) hnext.1 hat₁ hnext.2).mono (fun r hr => ?_)
      fun err he => ?_
    · obtain ⟨s₂, he₂, hs₂, hfs₂, hr₂, hpl₂⟩ := hr
      refine ⟨s₂, he₂, hs₁.trans hs₂, hfs₂.trans hfs₁, fun h0 => ?_, fun hplenty hlt => ?_⟩
      · obtain ⟨hsum, hh₂⟩ := hr₂ h0
        have hr0 : r.1.toNat ≠ 0 := fun h => h0 (BitVec.eq_of_toNat_eq h)
        have hp0 : p₁ ≠ 0 := by
          rintro rfl
          have : (0 : BitVec 32).toNat = 0 := rfl
          omega
        obtain ⟨h1, h2, hh₁⟩ := hr₁ hp0
        unfold laid
        rw [flat_append, List.length_append]
        refine ⟨by omega, fun bs hbs => ?_⟩
        rw [List.append_assoc]
        exact hh₂ _ (hh₁ bs hbs)
      · unfold laid at hlt
        rw [flat_append, List.length_append] at hlt
        obtain ⟨h1, h2, -⟩ := hr₁ (hpl₁ hplenty (by omega))
        exact hpl₂ (hplenty.steps hs₁) (by omega)
    · obtain ⟨rfl, c', hc', hnull⟩ := he
      refine ⟨rfl, c', List.mem_cons_of_mem _ hc', hnull.1, ?_⟩
      have := hnull.2
      simp only [hfs₁] at this
      exact this

/-- Strings that do not fit lead out of `page[]`, if there are pages enough. -/
theorem copyAll_outside (hW : x.args.Wf) (hle : p.toNat ≤ MAX_ARG_PAGES * 4096)
    (hat : ∀ c ∈ cs, c.argc.toNat = c.strings.length ∧
      ArgsAt ⟨x.user, x.kernel⟩ c.fromKmem x.args c.argv c.strings)
    (hfits : ¬ Fits p.toNat (cs.map Strings.strings)) (hplenty : x.args.Plenty e.supply) :
    copyAll e cs p x = .error (.copy (.outside 0xFFFFF)) := by
  induction cs generalizing x p with
  | nil => exact absurd trivial hfits
  | cons c cs ih =>
    obtain ⟨⟨hlen, hargs⟩, hat⟩ := List.forall_mem_cons.1 hat
    rw [List.map_cons, Fits, not_or] at hfits
    obtain ⟨hp0, hfits⟩ := hfits
    have hp : p ≠ 0 := by
      rintro rfl
      exact hp0 rfl
    unfold copyAll
    by_cases hlt : (flat c.strings).length ≤ p.toNat
    · obtain ⟨r, s, hcopy, hs, hfs, hr⟩ := copyStrings_fit e.supply hW hle hargs hlt
      obtain ⟨hr, -⟩ := hr.resolve_right fun hx => hx.2 hplenty
      have hok : copy e x c.fromKmem c.argc c.argv p = .ok (r, { x with args := s }) := by
        rw [copy_toNat, hlen]
        unfold copy
        rw [hcopy]
      rw [hok]
      refine ih (x := { x with args := s }) (hW.steps hs) (by omega) (fun c' hc' => ?_) ?_
        (hplenty.steps hs)
      · obtain ⟨h1, h2⟩ := hat c' hc'
        refine ⟨h1, ?_⟩
        unfold ArgsAt
        simp only [hfs]
        exact h2
      · rw [hr]
        exact fun h => hfits ⟨hlt, h⟩
    · have hout : copy e x c.fromKmem c.argc c.argv p = .error (.copy (.outside 0xFFFFF)) := by
        rw [copy_toNat, hlen]
        unfold copy
        rw [copyStrings_outside hW hle hargs hp (by omega) hplenty]
      rw [hout]
      rfl

end Copy

/-! ## Before the point of no return -/

/-- The call has only looked for files and copied strings. -/
structure Along (e : Env) (x x' : Machine σ ι φ) : Prop where
  task : x'.task = x.task
  user : x'.user = x.user
  mathOwner : x'.mathOwner = x.mathOwner
  eip : x'.eip = x.eip
  esp : x'.esp = x.esp
  fs : x'.args.fs = x.args.fs
  steps : Steps e.supply x.args x'.args

/-- After an error the process is as it was, the frames that were free are free, and the others have
their contents. -/
structure Failed (x x' : Machine σ ι φ) : Prop where
  task : x'.task = x.task
  user : x'.user = x.user
  mathOwner : x'.mathOwner = x.mathOwner
  eip : x'.eip = x.eip
  esp : x'.esp = x.esp
  fs : x'.args.fs = x.args.fs
  high : x'.args.mem.highMemory = x.args.mem.highMemory
  memMap : x'.args.mem.memMap = x.args.mem.memMap
  phys : ∀ f, x.args.mem.memMap f ≠ 0 → x'.args.mem.phys f = x.args.mem.phys f

/-- The strings are at the top of the argument area. -/
structure Ready (e : Env) (x x' : Machine σ ι φ) (p : BitVec 32) (ss : List (List Byte)) : Prop
    extends Along e x x' where
  place : p.toNat + (flat ss).length = 0x1FFFC
  holds : x'.args.Holds p.toNat (flat ss)

/-- What the file system keeps: `I` when the call has nothing of it, `H` when it has an inode, and `B`
when it has a buffer too. -/
structure Contract (F : Files σ ι β φ) (I : σ → Prop) (H : ι → σ → Prop) (B : ι → β → σ → Prop) :
    Prop where
  namei : ∀ m a f f' r, I f → F.namei m a f = some (r, f') → match r with
    | none => I f'
    | some inode => H inode f'
  bread : ∀ inode f f' r, H inode f →
    F.bread (F.inode f inode).iDev (F.inode f inode).iZone f = some (r, f') → match r with
    | none => H inode f'
    | some bh => B inode bh f'
  brelse : ∀ inode bh f f', B inode bh f → F.brelse bh f = some f' → H inode f'
  iput : ∀ inode f f', H inode f → F.iput inode f = some f' → I f'

/-- Nothing is asked. -/
theorem Contract.trivial (F : Files σ ι β φ) :
    Contract F (fun _ => True) (fun _ _ => True) fun _ _ _ => True where
  namei := by
    intro m a f f' r _ _
    cases r <;> exact True.intro
  bread := by
    intro inode f f' r _ _
    cases r <;> exact True.intro
  brelse := fun _ _ _ _ _ _ => True.intro
  iput := fun _ _ _ _ _ => True.intro

section Rules

variable {F : Files σ ι β φ} {e : Env} {I : σ → Prop} {H : ι → σ → Prop} {B : ι → β → σ → Prop}
  {x₀ x x' : Machine σ ι φ} {inode : ι} {retval : ℤ}
  {Q : ℤ × Machine σ ι φ → Prop} {E : Stop → Prop}

theorem Along.refl (e : Env) (x : Machine σ ι φ) : Along e x x :=
  ⟨rfl, rfl, rfl, rfl, rfl, rfl, .refl⟩

/-- The file system and the kernel's stack may change. -/
theorem Along.setFiles (h : Along e x₀ x) (files : σ) (k : Memory) :
    Along e x₀ { x with files := files, kernel := k } :=
  ⟨h.task, h.user, h.mathOwner, h.eip, h.esp, h.fs, h.steps⟩

theorem Along.setArgs (h : Along e x₀ x) {s : Args} (hs : Steps e.supply x.args s)
    (hfs : s.fs = x.args.fs) : Along e x₀ { x with args := s } :=
  ⟨h.task, h.user, h.mathOwner, h.eip, h.esp, hfs.trans h.fs, h.steps.trans hs⟩

theorem call_rule {α : Type} {r : Option α} {P : α → Prop} (h : ∀ a, r = some a → P a)
    (hE : E .files) : Post (call r) P E := by
  cases r with
  | none => exact Post.error hE
  | some a => exact Post.ok (h a rfl)

/-- **`exec_error1`** gives back every page. -/
theorem execError1_rule (hsz : Sized x₀.args.mem) (h0 : x₀.args.page = fun _ => 0)
    (ha : Along e x₀ x) (hQ : ∀ x', Failed x₀ x' → x'.files = x.files → Q (retval, x')) :
    Post (execError1 x retval) Q E := by
  have hW : x.args.Wf := (Wf.start h0).steps ha.steps
  have hB : Borrowed x₀.args.mem x.args := (Borrowed.start h0).steps hsz ha.steps
  have hfree := freePages_spec hB hW
  unfold execError1
  cases hf : freePages x.args.mem x.args.page with
  | error err => exact (hfree.of_error hf).elim
  | ok m =>
    obtain ⟨hhigh, hmap, hphys⟩ := hfree.of_ok hf
    refine Post.ok (hQ _ ⟨ha.task, ha.user, ha.mathOwner, ha.eip, ha.esp, ha.fs, hhigh, hmap,
      fun f hf => ?_⟩ rfl)
    show m.phys f = x₀.args.mem.phys f
    rw [hphys]
    refine (hB.other f fun i hi he => ?_).2
    -- A page that was taken had been free.
    by_contra hne
    subst he
    exact hf (hB.taken i hi hne).1

/-- **`exec_error2`** also puts the inode. -/
theorem execError2_rule (C : Contract F I H B) (hsz : Sized x₀.args.mem)
    (h0 : x₀.args.page = fun _ => 0) (ha : Along e x₀ x) (hH : H inode x.files) (hE : E .files)
    (hQ : ∀ x', Failed x₀ x' → I x'.files → Q (retval, x')) :
    Post (execError2 F x inode retval) Q E := by
  unfold execError2
  refine Post.bind (call_rule (fun f hf => C.iput inode x.files f hH hf) hE) fun f hI => ?_
  exact execError1_rule hsz h0 (ha.setFiles f x.kernel) fun x' hx' he =>
    hQ x' hx' (by rw [he]; exact hI)

/-- The tests on the file: an error, or its first block. -/
theorem openExec_rule (C : Contract F I H B) (hsz : Sized x₀.args.mem)
    (h0 : x₀.args.page = fun _ => 0) (ha : Along e x₀ x) (hH : H inode x.files) (hE : E .files)
    (hQ : ∀ r x', r < 0 → Failed x₀ x' → I x'.files → Q (r, x'))
    {next : Machine σ ι φ → β → BitVec 16 → BitVec 16 → Except Stop (ℤ × Machine σ ι φ)}
    (hnext : ∀ bh f, Fs.isReg (F.inode x.files inode).iMode →
      mayExecute x.task (F.inode x.files inode) →
      F.bread (F.inode x.files inode).iDev (F.inode x.files inode).iZone x.files = some (some bh, f) →
      B inode bh f → Post (next { x with files := f } bh (effectiveUid x.task (F.inode x.files inode))
        (effectiveGid x.task (F.inode x.files inode))) Q E) :
    Post (openExec F x inode next) Q E := by
  unfold openExec
  simp only
  by_cases h1 : ¬ Fs.isReg (F.inode x.files inode).iMode
  · rw [if_pos h1]
    exact execError2_rule C hsz h0 ha hH hE fun x' => hQ _ x' (by decide)
  rw [if_neg h1]
  by_cases h2 : ¬ mayExecute x.task (F.inode x.files inode)
  · rw [if_pos h2]
    exact execError2_rule C hsz h0 ha hH hE fun x' => hQ _ x' (by decide)
  · rw [if_neg h2]
    refine Post.bind (call_rule (P := fun r =>
      F.bread (F.inode x.files inode).iDev (F.inode x.files inode).iZone x.files = some r)
        (fun _ h => h) hE) fun r hr => ?_
    obtain ⟨bh, f⟩ := r
    have hB := C.bread inode x.files f bh hH hr
    cases bh with
    | none =>
      exact execError2_rule C hsz h0 (ha.setFiles f x.kernel) hB hE fun x' => hQ _ x' (by decide)
    | some bh => exact hnext bh f (not_not.1 h1) (not_not.1 h2) hr hB

end Rules

/-! ## What is asked for -/

/-- `argv` is the address of an array of pointers to the strings that ends with a null pointer, or it is
null and there are no strings. -/
def VectorAt (m : Memory) (argv : Addr) (ss : List (List Byte)) : Prop :=
  argv = 0 ∧ ss = [] ∨
    argv ≠ 0 ∧ StringsAt m m argv ss ∧ getLong m (argv + BitVec.ofNat 32 (4 * ss.length)) = 0

/-- The word at `w` is behind the 1023 bytes at `b`. -/
def Beyond (b w : Addr) : Prop := 1023 ≤ (w - b).toNat ∧ (w - b).toNat + 4 ≤ 2 ^ 32

instance (b w : Addr) : Decidable (Beyond b w) :=
  inferInstanceAs (Decidable (1023 ≤ (w - b).toNat ∧ (w - b).toNat + 4 ≤ 2 ^ 32))

/-- No byte of the kernel's stack is in two variables. -/
structure Locals.Sound (l : Locals) : Prop where
  bufPos : 0 < l.buf.toNat
  bufEnd : l.buf.toNat + 1023 ≤ 2 ^ 32
  filename : Beyond l.buf l.filename
  iArg : Beyond l.buf l.iArg
  iName : Beyond l.buf l.iName
  apart₁ : Bytes.Apart l.iArg l.filename
  apart₂ : Bytes.Apart l.iName l.filename
  apart₃ : Bytes.Apart l.iName l.iArg

/-- The process asks for the program `name` with these arguments and this environment. -/
structure Request (e : Env) (x : Machine σ ι φ) (filename argv envp : Addr) (name : List Byte)
    (args envs : List (List Byte)) : Prop where
  fs : x.args.fs = .user
  name : StringAt x.user filename name
  args : VectorAt x.user argv args
  envs : VectorAt x.user envp envs
  frame : e.locals.Sound

/-- The calls of `copy_strings` for a script. -/
def spliceCalls (e : Env) (s : Script) (argv envp : Addr) (name : List Byte)
    (args envs : List (List Byte)) : List Strings :=
  [⟨0, envs.length, envp, envs⟩, ⟨0, args.length - 1, argv + 4, args.tail⟩,
    ⟨1, 1, e.locals.filename, [name]⟩] ++
  (match s.iArg with
    | none => []
    | some i => [⟨2, 1, e.locals.iArg, [cstring s.buf i]⟩]) ++
  [⟨2, 1, e.locals.iName, [cstring s.buf s.iName]⟩]

/-- The calls of `copy_strings` for a file that begins with these bytes. -/
def calls (e : Env) (data : ℕ → Byte) (argv envp : Addr) (name : List Byte)
    (args envs : List (List Byte)) : List Strings :=
  if isScript data then
    match parse data with
    | none => []
    | some s => spliceCalls e s argv envp name args envs
  else [⟨0, envs.length, envp, envs⟩, ⟨0, args.length, argv, args⟩]

/-- What `argc` is in the end. -/
def finalArgc (data : ℕ → Byte) (argc : ℤ) : ℤ :=
  if isScript data then
    match parse data with
    | none => 0
    | some s => argc - 1 + 1 + (if s.iArg.isSome then 1 else 0) + 1
  else argc

/-- The inode of a path, and the buffer of its first block. -/
def lookupFile (F : Files σ ι β φ) (m : Memory) (a : Addr) (f : σ) : Option (ι × β × σ) :=
  match F.namei m a f with
  | some (some inode, f) =>
    match F.bread (F.inode f inode).iDev (F.inode f inode).iZone f with
    | some (some bh, f) => some (inode, bh, f)
    | _ => none
  | _ => none

/-- The first block of the file. -/
def firstBlock (F : Files σ ι β φ) (x : Machine σ ι φ) (filename : Addr) : Option (ℕ → Byte) :=
  (lookupFile F x.user filename x.files).map fun r => F.data r.2.2 r.2.1

/-- The call copies strings for a file that begins with `data`: the file may be executed and can be
read, and it is a program or a script with an interpreter. -/
inductive Reaches (F : Files σ ι β φ) (x : Machine σ ι φ) (filename : Addr) : (ℕ → Byte) → Prop
  | intro {inode : ι} {bh : β} {f₁ f₂ f₃ : σ}
      (namei : F.namei x.user filename x.files = some (some inode, f₁))
      (regular : Fs.isReg (F.inode f₁ inode).iMode)
      (execute : mayExecute x.task (F.inode f₁ inode))
      (bread : F.bread (F.inode f₁ inode).iDev (F.inode f₁ inode).iZone f₁ = some (some bh, f₂))
      (brelse : F.brelse bh f₂ = some f₃)
      (script : isScript (F.data f₂ bh) = true →
        ∃ s f₄, parse (F.data f₂ bh) = some s ∧ F.iput inode f₃ = some f₄)
      (binary : isScript (F.data f₂ bh) = false →
        checkHeader (header (F.data f₂ bh)) (F.inode f₃ inode).iSize = .ok ()) :
      Reaches F x filename (F.data f₂ bh)

/-- The first block of the program, which is the interpreter if the file is a script. -/
def programOf (F : Files σ ι β φ) (e : Env) (x : Machine σ ι φ) (filename : Addr) :
    Option (ℕ → Byte) := do
  let (inode, bh, f) ← lookupFile F x.user filename x.files
  let data := F.data f bh
  if isScript data then
    let s ← parse data
    let f ← F.brelse bh f
    let f ← F.iput inode f
    let (_, bh, f) ← lookupFile F (e.locals.store x.kernel s)
      (e.locals.buf + BitVec.ofNat 32 s.interp) f
    return F.data f bh
  else return data

section Count

variable {m : Memory} {a argv : Addr} {ss : List (List Byte)} {n : ℕ}

theorem countFrom_spec (h : StringsAt m m a ss)
    (h0 : getLong m (a + BitVec.ofNat 32 (4 * ss.length)) = 0) (hn : ss.length < n) :
    countFrom m n a = some ss.length := by
  induction ss generalizing a n with
  | nil =>
    cases n with
    | zero => exact absurd hn (Nat.not_lt_zero _)
    | succ n =>
      rw [List.length_nil, Nat.mul_zero, BitVec.add_zero] at h0
      exact if_pos h0
  | cons s ss ih =>
    cases n with
    | zero => exact absurd hn (Nat.not_lt_zero _)
    | succ n =>
      have hnext : a + 4 + BitVec.ofNat 32 (4 * ss.length) =
          a + BitVec.ofNat 32 (4 * (s :: ss).length) := by
        simp only [List.length_cons]
        bv_omega
      unfold countFrom
      rw [if_neg h.1, ih h.2.2 (by rw [hnext]; exact h0) (by simpa using hn)]
      rfl

/-- **`count`** counts the strings. -/
theorem count_spec (h : VectorAt m argv ss) : count m argv = .ok ss.length := by
  unfold count
  rcases h with ⟨rfl, rfl⟩ | ⟨hne, hss, h0⟩
  · rw [if_pos rfl]
    rfl
  · rw [if_neg hne, countFrom_spec hss h0 (hss.length_lt h0)]

theorem VectorAt.strings (h : VectorAt m argv ss) : StringsAt m m argv ss := by
  rcases h with ⟨-, rfl⟩ | ⟨-, hss, -⟩
  · trivial
  · exact hss

theorem VectorAt.tail (h : VectorAt m argv ss) : StringsAt m m (argv + 4) ss.tail := by
  have hss := h.strings
  cases ss with
  | nil => trivial
  | cons s ss => exact hss.2.2

end Count

/-! ## The variables of the `#!` section -/

section Frame

variable {l : Locals} {k : Memory} {s : Script} {a b : Addr} {i : ℕ} {t : List Byte}

theorem Beyond.apart (h : Beyond b a) (hi : i < 1023) : 4 ≤ (b + BitVec.ofNat 32 i - a).toNat := by
  obtain ⟨h1, h2⟩ := h
  bv_omega

theorem Beyond.out (h : Beyond b a) {j : ℕ} (hj : j < 4) :
    ¬ (a + BitVec.ofNat 32 j - b).toNat < 1023 := by
  obtain ⟨h1, h2⟩ := h
  bv_omega

theorem Locals.Sound.ne_zero (h : l.Sound) (hi : i < 1023) : l.buf + BitVec.ofNat 32 i ≠ 0 := by
  obtain ⟨h1, h2⟩ : 0 < l.buf.toNat ∧ l.buf.toNat + 1023 ≤ 2 ^ 32 := ⟨h.bufPos, h.bufEnd⟩
  bv_omega

theorem Locals.Sound.store_filename (h : l.Sound) :
    getLong (l.store k s) l.filename = getLong k l.filename := by
  have hout : ∀ j < 4, ¬ (l.filename + BitVec.ofNat 32 j - l.buf).toNat < 1023 := fun j hj =>
    h.filename.out hj
  unfold Locals.store
  rw [getLong_putLong_of_apart h.apart₂, getLong_putLong_of_apart h.apart₁]
  refine getLong_congr (if_neg ?_) (if_neg (hout 1 (by decide))) (if_neg (hout 2 (by decide)))
    (if_neg (hout 3 (by decide)))
  rw [← BitVec.add_zero l.filename]
  exact hout 0 (by decide)

theorem Locals.Sound.store_iArg (h : l.Sound) (hi : s.iArg = some i) :
    getLong (l.store k s) l.iArg = l.buf + BitVec.ofNat 32 i := by
  unfold Locals.store
  rw [getLong_putLong_of_apart h.apart₃, getLong_putLong, hi]

theorem Locals.store_iName (l : Locals) (k : Memory) (s : Script) :
    getLong (l.store k s) l.iName = l.buf + BitVec.ofNat 32 s.iName := by
  unfold Locals.store
  rw [getLong_putLong]

theorem Locals.Sound.store_buf (h : l.Sound) (hi : i < 1023) :
    l.store k s (l.buf + BitVec.ofNat 32 i) = s.buf i := by
  have hsub : (l.buf + BitVec.ofNat 32 i - l.buf).toNat = i := by
    rw [add_sub_cancel_left, BitVec.toNat_ofNat]
    omega
  unfold Locals.store
  rw [putLong_of_le (h.iName.apart hi), putLong_of_le (h.iArg.apart hi)]
  simp only [hsub]
  exact if_pos hi

/-- A string of the line is in the kernel's memory. -/
theorem Locals.Sound.store_string (h : l.Sound) (ht : Ends s.buf i t) :
    StringAt (l.store k s) (l.buf + BitVec.ofNat 32 i) t := by
  obtain ⟨htext, hzero, hlt⟩ := ht
  induction t generalizing i with
  | nil =>
    rw [List.length_nil, Nat.add_zero] at hzero hlt
    exact (h.store_buf hlt).trans hzero
  | cons c t ih =>
    rw [List.length_cons, show i + (t.length + 1) = i + 1 + t.length by omega] at hzero hlt
    refine ⟨htext.1, (h.store_buf (by omega)).trans htext.2.1, ?_⟩
    rw [BitVec.add_assoc, show BitVec.ofNat 32 i + 1 = BitVec.ofNat 32 (i + 1) by
      rw [BitVec.ofNat_add]; rfl]
    exact ih htext.2.2 hzero hlt

end Frame

/-! ## The two ways to the point of no return -/

/-- What follows the copies of the `#!` section. -/
def openInterp (F : Files σ ι β φ) (e : Env)
    (next : ι → Vars → Machine σ ι φ → Except Stop (ℤ × Machine σ ι φ)) (s : Script) (v : Vars)
    (x : Machine σ ι φ) : Except Stop (ℤ × Machine σ ι φ) :=
  if v.p = 0 then execError1 x (-ENOMEM)
  else do
    let oldFs := x.args.fs
    let x := { x with args := x.args.setFs .kernel }
    let (inode, files) ←
      call (F.namei x.kernel (e.locals.buf + BitVec.ofNat 32 s.interp) x.files)
    let x := { x with files := files, args := x.args.setFs oldFs }
    match inode with
    | none => execError1 x (-ENOENT)
    | some inode => next inode v x

section Ways

variable {F : Files σ ι β φ} {e : Env} {I : σ → Prop} {H : ι → σ → Prop} {B : ι → β → σ → Prop}
  {x₀ x x' : Machine σ ι φ} {inode : ι} {filename argv envp : Addr} {name : List Byte}
  {args envs ss : List (List Byte)} {v : Vars} {ex : Exec} {s : Script}
  {next : ι → Vars → Machine σ ι φ → Except Stop (ℤ × Machine σ ι φ)}
  {Q : ℤ × Machine σ ι φ → Prop} {E : Stop → Prop}

variable (name args envs) in
/-- The copies of the `#!` section. -/
theorem splice_eq (hargc : v.argc = args.length) (henvc : v.envc = envs.length) :
    splice F e next argv envp x s v =
      copyAll e (spliceCalls e s argv envp name args envs) v.p
        { x with kernel := e.locals.store x.kernel s } >>= fun r =>
      openInterp F e next s
        { v with p := r.1, argc := v.argc - 1 + 1 + (if s.iArg.isSome then 1 else 0) + 1 } r.2 := by
  unfold splice spliceCalls
  rw [hargc, henvc]
  cases s.iArg with
  | none =>
    simp only [List.append_nil, List.cons_append, List.nil_append, copyAll, bind_assoc,
      Option.isSome_none, Bool.false_eq_true, if_false, add_zero]
    exact bind_congr fun _ => bind_congr fun _ => bind_congr fun _ => bind_congr fun _ => rfl
  | some i =>
    simp only [List.cons_append, List.nil_append, copyAll, bind_assoc, Option.isSome_some, if_true]
    exact bind_congr fun _ => bind_congr fun _ => bind_congr fun _ => bind_congr fun _ =>
      bind_congr fun _ => rfl

/-- The calls of the `#!` section find their strings, but for a name at address 0. -/
theorem spliceCalls_args (hr : Request e x₀ filename argv envp name args envs) (ha : Along e x₀ x)
    (hk : getLong x.kernel e.locals.filename = filename) {iname : List Byte}
    {arg : Option (List Byte)} (hp : Parsed s iname arg) :
    ∀ c ∈ spliceCalls e s argv envp name args envs, c.argc.toNat = c.strings.length ∧
      (ArgsAt ⟨x.user, e.locals.store x.kernel s⟩ c.fromKmem x.args c.argv c.strings ∨
        filename = 0 ∧ c.Null { x with kernel := e.locals.store x.kernel s }) := by
  obtain ⟨hfs, hname, hargs, henvs, hS⟩ := hr
  have hfs : x.args.fs = .user := ha.fs.trans hfs
  -- A string of the line, and the variable that points to it.
  have hline : ∀ a i t, getLong (e.locals.store x.kernel s) a = e.locals.buf + BitVec.ofNat 32 i →
      Ends s.buf i t → ArgsAt ⟨x.user, e.locals.store x.kernel s⟩ 2 x.args a [t] := by
    intro a i t ha hi
    refine ⟨?_, ?_, trivial⟩
    · show getLong (e.locals.store x.kernel s) a ≠ 0
      rw [ha]
      exact hS.ne_zero (by have := hi.lt; omega)
    · show StringAt (e.locals.store x.kernel s) (getLong (e.locals.store x.kernel s) a) t
      rw [ha]
      exact hS.store_string hi
  have huser : ∀ a ss, StringsAt x.user x.user a ss →
      ArgsAt ⟨x.user, e.locals.store x.kernel s⟩ 0 x.args a ss := by
    intro a ss hss
    unfold ArgsAt ptrSeg strSeg
    simp only [hfs]
    exact hss
  rw [← ha.user] at hname hargs henvs
  unfold spliceCalls
  simp only [List.forall_mem_append, List.forall_mem_cons]
  refine ⟨⟨⟨⟨rfl, .inl (huser _ _ henvs.strings)⟩, ⟨?_, .inl (huser _ _ hargs.tail)⟩, ⟨rfl, ?_⟩,
    by simp⟩, ?_⟩, ⟨rfl, .inl (hline _ _ _ (e.locals.store_iName x.kernel s) ?_)⟩, by simp⟩
  · show ((args.length : ℤ) - 1).toNat = args.tail.length
    rw [List.length_tail]
    omega
  · -- The name of the script may be at address 0.
    have hptr : getLong (e.locals.store x.kernel s) e.locals.filename = filename := by
      rw [hS.store_filename, hk]
    by_cases h0 : filename = 0
    · exact .inr ⟨h0, rfl, hptr.trans h0⟩
    · refine .inl ⟨?_, ?_, trivial⟩
      · show getLong (e.locals.store x.kernel s) e.locals.filename ≠ 0
        rw [hptr]
        exact h0
      · show StringAt (Segments.of ⟨x.user, e.locals.store x.kernel s⟩ (strSeg 1 x.args.fs))
          (getLong (e.locals.store x.kernel s) e.locals.filename) name
        rw [hptr, hfs]
        exact hname
  · cases hi : s.iArg with
    | none => simp
    | some i =>
      obtain ⟨t, ht⟩ : ∃ t, Ends s.buf i t := by
        have := hp.iArg
        rw [hi] at this
        cases this with
        | some h => exact ⟨_, h⟩
      simp only [List.mem_singleton, forall_eq]
      rw [cstring_eq ht]
      exact ⟨rfl, .inl (hline _ _ _ (hS.store_iArg hi) ht)⟩
  · rw [cstring_eq hp.iName]
    exact hp.iName

theorem spliceCalls_at (hr : Request e x₀ filename argv envp name args envs) (ha : Along e x₀ x)
    (hk : getLong x.kernel e.locals.filename = filename) {iname : List Byte}
    {arg : Option (List Byte)} (hp : Parsed s iname arg) :
    ∀ c ∈ spliceCalls e s argv envp name args envs,
      c.At { x with kernel := e.locals.store x.kernel s } := by
  intro c hcm
  obtain ⟨hlen, h⟩ := spliceCalls_args hr ha hk hp c hcm
  exact ⟨hlen, h.imp_right And.right⟩

/-- A file that is run with arguments that are there. -/
theorem loadBinary_rule (C : Contract F I H B) (hsz : Sized x₀.args.mem)
    (h0 : x₀.args.page = fun _ => 0) (ha : Along e x₀ x) (hH : H inode x.files) (hE : E .files)
    (hQ : ∀ r x', r < 0 → Failed x₀ x' → I x'.files → Q (r, x'))
    {u g : BitVec 16} (hcommit : checkHeader ex (F.inode x.files inode).iSize = .ok () →
      Post (commit F e x inode ex u g v) Q E) :
    Post (loadBinary F e true argv envp x inode ex u g v) Q E := by
  unfold loadBinary
  simp only [if_true]
  cases hc : checkHeader ex (F.inode x.files inode).iSize with
  | error err => exact execError2_rule C hsz h0 ha hH hE fun x' => hQ _ x' (by decide)
  | ok _ => exact hcommit hc

variable (args envs) in
/-- The two copies for a file that is no script. -/
theorem copy_copy {α : Type} {argc envc : ℤ} (p : BitVec 32) (f : BitVec 32 × Machine σ ι φ → Except Stop α) :
    (copy e x 0 envc envp p >>= fun r => copy e r.2 0 argc argv r.1 >>= f) =
      copyAll e [⟨0, envc, envp, envs⟩, ⟨0, argc, argv, args⟩] p x >>= f := by
  simp only [copyAll, bind_assoc]
  rfl

/-- A file that is no script. -/
theorem loadBinary_copy_rule (C : Contract F I H B) (hsz : Sized x₀.args.mem)
    (h0 : x₀.args.page = fun _ => 0) (hr : Request e x₀ filename argv envp name args envs)
    (ha : Along e x₀ x) (hargs : x.args = x₀.args) (hH : H inode x.files)
    (hfits : checkHeader ex (F.inode x.files inode).iSize = .ok () → Fits 0x1FFFC [envs, args])
    (hE : E .files) (hE' : E (.copy .argcWrong)) (hp : v.p = 0x1FFFC)
    (hargc : v.argc = args.length) (henvc : v.envc = envs.length)
    (hQ : ∀ r x', r < 0 → Failed x₀ x' → I x'.files → Q (r, x'))
    {u g : BitVec 16} (hcommit : ∀ p s, Ready e x₀ { x with args := s } p (args ++ envs) →
      checkHeader ex (F.inode x.files inode).iSize = .ok () →
      Post (commit F e { x with args := s } inode ex u g { v with p := p }) Q E) :
    Post (loadBinary F e false argv envp x inode ex u g v) Q E := by
  obtain ⟨cs, hcs⟩ : ∃ cs : List Strings,
    cs = [⟨0, v.envc, envp, envs⟩, ⟨0, v.argc, argv, args⟩] := ⟨_, rfl⟩
  unfold loadBinary
  simp only [Bool.false_eq_true, if_false]
  cases hc : checkHeader ex (F.inode x.files inode).iSize with
  | error err => exact execError2_rule C hsz h0 ha hH hE fun x' => hQ _ x' (by decide)
  | ok _ =>
    have hat : ∀ c ∈ cs, StringsAt x.user x.user c.argv c.strings ∧ c.fromKmem = 0 ∧
        c.argc.toNat = c.strings.length := by
      rw [hcs, ha.user, hargc, henvc]
      exact List.forall_mem_cons.2 ⟨⟨hr.envs.strings, rfl, rfl⟩,
        List.forall_mem_cons.2 ⟨⟨hr.args.strings, rfl, rfl⟩, fun _ h => by cases h⟩⟩
    have hspec := copyAll_spec cs (e := e) (x := x) (p := v.p) (by rw [hargs]; exact .start h0)
      (by rw [hp]; decide) (fun c hc => by
        obtain ⟨h1, h2, h3⟩ := hat c hc
        refine ⟨h3, .inl ?_⟩
        unfold ArgsAt ptrSeg strSeg
        rw [h2, ha.fs, hr.fs]
        exact h1)
      (by rw [hp, hcs]; exact hfits hc)
    show Post (copy e x 0 v.envc envp v.p >>= fun r => copy e r.2 0 v.argc argv r.1 >>= _) Q E
    rw [copy_copy args envs, ← hcs]
    refine Post.bind (hspec.mono (fun _ => id) fun err he => by rw [he.1]; exact hE') fun r hr' => ?_
    obtain ⟨p, y⟩ := r
    obtain ⟨s, rfl, hs, hfs, hsum, -⟩ := hr'
    have ha' : Along e x₀ { x with args := s } := ha.setArgs hs hfs
    simp only
    by_cases hp0 : p = 0
    · rw [if_pos hp0]
      exact execError2_rule C hsz h0 ha' hH hE fun x' => hQ _ x' (by decide)
    · rw [if_neg hp0]
      obtain ⟨hlen, hholds⟩ := hsum hp0
      have hlaid : laid cs = args ++ envs := by rw [hcs]; rfl
      rw [hp, hlaid] at hlen
      have hh := hholds [] trivial
      rw [List.append_nil, hlaid] at hh
      exact hcommit p s ⟨ha', hlen, hh⟩ hc

/-- **The `#!` section**, up to the inode of the interpreter. -/
theorem splice_rule (C : Contract F I H B) (hsz : Sized x₀.args.mem)
    (h0 : x₀.args.page = fun _ => 0) (hr : Request e x₀ filename argv envp name args envs)
    (ha : Along e x₀ x) (hargs : x.args = x₀.args) (hI : I x.files)
    (hk : getLong x.kernel e.locals.filename = filename) {iname : List Byte}
    {arg : Option (List Byte)} (hs : Parsed s iname arg)
    (hfits : Fits 0x1FFFC ((spliceCalls e s argv envp name args envs).map Strings.strings))
    (hE : E .files) (hE' : E (.copy .argcWrong)) (hp : v.p = 0x1FFFC)
    (hargc : v.argc = args.length) (henvc : v.envc = envs.length)
    (hQ : ∀ r x', r < 0 → Failed x₀ x' → I x'.files → Q (r, x'))
    (hnext : ∀ inode f p t, F.namei (e.locals.store x.kernel s)
        (e.locals.buf + BitVec.ofNat 32 s.interp) x.files = some (some inode, f) → H inode f →
      Ready e x₀ { x with kernel := e.locals.store x.kernel s, args := t, files := f } p
        (laid (spliceCalls e s argv envp name args envs)) →
      Post (next inode
        { v with p := p, argc := v.argc - 1 + 1 + (if s.iArg.isSome then 1 else 0) + 1 }
        { x with kernel := e.locals.store x.kernel s, args := t, files := f }) Q E) :
    Post (splice F e next argv envp x s v) Q E := by
  rw [splice_eq name args envs hargc henvc]
  have hspec := copyAll_spec (spliceCalls e s argv envp name args envs) (e := e)
    (x := { x with kernel := e.locals.store x.kernel s }) (p := v.p) (by rw [hargs]; exact .start h0)
    (by rw [hp]; decide) (spliceCalls_at hr ha hk hs) (by rw [hp]; exact hfits)
  refine Post.bind (hspec.mono (fun _ => id) fun err he => by rw [he.1]; exact hE') fun r hr' => ?_
  obtain ⟨p, y⟩ := r
  obtain ⟨t, rfl, ht, hfs, hsum, -⟩ := hr'
  have ha' : Along e x₀ { x with kernel := e.locals.store x.kernel s, args := t } :=
    (ha.setFiles x.files (e.locals.store x.kernel s)).setArgs ht hfs
  unfold openInterp
  simp only
  by_cases hp0 : p = 0
  · rw [if_pos hp0]
    exact execError1_rule hsz h0 ha' fun x' hx' he => hQ _ x' (by decide) hx' (by rw [he]; exact hI)
  · rw [if_neg hp0]
    obtain ⟨hlen, hholds⟩ := hsum hp0
    rw [hp] at hlen
    have hh := hholds [] trivial
    rw [List.append_nil] at hh
    refine Post.bind (call_rule (P := fun r => F.namei (e.locals.store x.kernel s)
      (e.locals.buf + BitVec.ofNat 32 s.interp) x.files = some r) (fun _ h => h) hE) fun r hr' => ?_
    obtain ⟨inode, f⟩ := r
    have hN := C.namei _ _ x.files f inode hI hr'
    cases inode with
    | none =>
      exact execError1_rule hsz h0 (ha'.setFiles f (e.locals.store x.kernel s)) fun x' hx' he =>
        hQ _ x' (by decide) hx' (by rw [he]; exact hN)
    | some inode =>
      exact hnext inode f p t hr' hN ⟨ha'.setFiles f (e.locals.store x.kernel s), hlen, hh⟩

/-- **From `restart_interp` on.** -/
theorem restart_rule (C : Contract F I H B) (hsz : Sized x₀.args.mem)
    (h0 : x₀.args.page = fun _ => 0) (hr : Request e x₀ filename argv envp name args envs)
    (ha : Along e x₀ x) (hargs : x.args = x₀.args) (hkernel : x.kernel = x₀.kernel)
    (hk : getLong x₀.kernel e.locals.filename = filename) (hH : H inode x.files)
    (hlook : F.namei x₀.user filename x₀.files = some (some inode, x.files))
    (hfits : ∀ data, Reaches F x₀ filename data →
      Fits 0x1FFFC ((calls e data argv envp name args envs).map Strings.strings))
    (hE : E .files) (hE' : E (.copy .argcWrong)) (hp : v.p = 0x1FFFC)
    (hargc : v.argc = args.length) (henvc : v.envc = envs.length)
    (hQ : ∀ r x', r < 0 → Failed x₀ x' → I x'.files → Q (r, x'))
    (hcommit : ∀ data d x' inode u g (v : Vars) size, firstBlock F x₀ filename = some data →
      programOf F e x₀ filename = some d →
      Ready e x₀ x' v.p (laid (calls e data argv envp name args envs)) →
      v.argc = finalArgc data args.length → v.envc = envs.length → H inode x'.files →
      checkHeader (header d) size = .ok () → Post (commit F e x' inode (header d) u g v) Q E) :
    Post (restart F e argv envp inode v x) Q E := by
  refine openExec_rule C hsz h0 ha hH hE hQ fun bh f hreg hexec hread hB => ?_
  rw [ha.task] at hexec
  obtain ⟨data, hdata⟩ : ∃ data, data = F.data f bh := ⟨_, rfl⟩
  have hfile : lookupFile F x₀.user filename x₀.files = some (inode, bh, f) := by
    unfold lookupFile
    simp only [hlook, hread]
  have hfirst : firstBlock F x₀ filename = some data := by
    unfold firstBlock
    rw [hfile, Option.map_some, hdata]
  simp only
  rw [← hdata]
  by_cases hscript : isScript data = true
  · rw [if_pos hscript]
    refine Post.bind (call_rule (P := fun f' => F.brelse bh f = some f') (fun _ h => h) hE)
      fun f₁ hf₁ => ?_
    refine Post.bind (call_rule (P := fun f' => F.iput inode f₁ = some f') (fun _ h => h) hE)
      fun f₂ hf₂ => ?_
    have hI := C.iput inode f₁ f₂ (C.brelse inode bh f f₁ hB hf₁) hf₂
    cases hparse : parse data with
    | none =>
      exact execError1_rule hsz h0 (ha.setFiles f₂ x.kernel) fun x' hx' he =>
        hQ _ x' (by decide) hx' (by rw [he]; exact hI)
    | some s =>
      have hcalls : calls e data argv envp name args envs =
          spliceCalls e s argv envp name args envs := by
        unfold calls
        rw [if_pos hscript, hparse]
      have hfits := hfits data (by
        rw [hdata] at hscript hparse ⊢
        exact ⟨hlook, hreg, hexec, hread, hf₁, fun _ => ⟨s, f₂, hparse, hf₂⟩,
          fun hn => absurd (hscript.symm.trans hn) (by decide)⟩)
      rw [hcalls] at hfits
      obtain ⟨-, iname, arg, -, -, hs⟩ := exists_line hparse
      refine splice_rule C hsz h0 hr (ha.setFiles f₂ x.kernel) hargs hI (by rw [hkernel]; exact hk) hs
        hfits hE hE' hp hargc henvc hQ fun inode' f₃ p t hname hH' hready => ?_
      refine openExec_rule C hsz h0 hready.toAlong hH' hE hQ fun bh' f₄ _ _ hread' hB' => ?_
      refine Post.bind (call_rule (P := fun f' => F.brelse bh' f₄ = some f') (fun _ h => h) hE)
        fun f₅ hf₅ => ?_
      have hH₅ := C.brelse inode' bh' f₄ f₅ hB' hf₅
      have hprogram : programOf F e x₀ filename = some (F.data f₄ bh') := by
        have hint : lookupFile F (e.locals.store x₀.kernel s)
            (e.locals.buf + BitVec.ofNat 32 s.interp) f₂ = some (inode', bh', f₄) := by
          unfold lookupFile
          rw [← hkernel]
          simp only [hname, hread']
        unfold programOf
        rw [hfile]
        simp only [Option.bind_eq_bind, Option.bind_some]
        rw [← hdata, if_pos hscript]
        simp only [hparse, hf₁, hf₂, hint, Option.bind_some]
        rfl
      refine loadBinary_rule C hsz h0 ?_ hH₅ hE hQ fun hc => ?_
      · exact (hready.toAlong.setFiles f₅ (e.locals.store x.kernel s))
      · refine hcommit data (F.data f₄ bh') _ inode' _ _ _ _ hfirst hprogram ?_ ?_ henvc hH₅ hc
        · rw [hcalls]
          exact ⟨hready.toAlong.setFiles f₅ (e.locals.store x.kernel s), hready.place, hready.holds⟩
        · unfold finalArgc
          rw [if_pos hscript, hparse, ← hargc]
  · rw [if_neg hscript]
    refine Post.bind (call_rule (P := fun f' => F.brelse bh f = some f') (fun _ h => h) hE)
      fun f₁ hf₁ => ?_
    have hH₁ := C.brelse inode bh f f₁ hB hf₁
    have hcalls : laid (calls e data argv envp name args envs) = args ++ envs := by
      unfold calls
      rw [if_neg hscript]
      rfl
    have hprogram : programOf F e x₀ filename = some data := by
      unfold programOf
      rw [hfile]
      simp only [Option.bind_eq_bind, Option.bind_some]
      rw [← hdata, if_neg hscript]
      rfl
    have hbinary : isScript (F.data f bh) = false := by
      rw [← hdata]
      simpa using hscript
    have hfits' : checkHeader (header data) (F.inode f₁ inode).iSize = .ok () →
        Fits 0x1FFFC [envs, args] := fun hc => by
      have hfits := hfits data (by
        rw [hdata] at hc ⊢
        exact ⟨hlook, hreg, hexec, hread, hf₁, fun hn => absurd (hbinary.symm.trans hn) (by decide),
          fun _ => hc⟩)
      unfold calls at hfits
      rw [if_neg hscript] at hfits
      exact hfits
    refine loadBinary_copy_rule C hsz h0 hr (ha.setFiles f₁ x.kernel) hargs hH₁ hfits' hE hE' hp hargc
      henvc hQ fun p s hready hc => ?_
    refine hcommit data data _ inode _ _ _ _ hfirst hprogram ?_ ?_ henvc hH₁ hc
    · rw [hcalls]
      exact hready
    · unfold finalArgc
      rw [if_neg hscript, ← hargc]

/-- **`do_execve`** fails, or comes to the point of no return with the strings in place. -/
theorem doExecve_rule (C : Contract F I H B) (hsz : Sized x.args.mem)
    (hr : Request e x filename argv envp name args envs) (hI : I x.files)
    (hfits : ∀ data, Reaches F x filename data →
      Fits 0x1FFFC ((calls e data argv envp name args envs).map Strings.strings))
    (hE : E .files) (hE' : E (.copy .argcWrong)) (hE'' : E .supervisor)
    (hQ : ∀ r x', r < 0 → Failed x x' → I x'.files → Q (r, x'))
    (hcommit : ∀ data d x' inode u g (v : Vars) size, firstBlock F x filename = some data →
      programOf F e (enter e filename x) filename = some d →
      Ready e (enter e filename x) x' v.p (laid (calls e data argv envp name args envs)) →
      v.argc = finalArgc data args.length → v.envc = envs.length → H inode x'.files →
      checkHeader (header d) size = .ok () → Post (commit F e x' inode (header d) u g v) Q E)
    (cs : BitVec 32) : Post (doExecve F e cs filename argv envp x) Q E := by
  unfold doExecve
  by_cases hcs : 0xffff &&& cs ≠ 0xf
  · rw [if_pos hcs]
    exact Post.error hE''
  rw [if_neg hcs]
  obtain ⟨x₁, hx₁⟩ : ∃ x₁, x₁ = enter e filename x := ⟨_, rfl⟩
  have hback : ∀ x', Failed x₁ x' → Failed x x' := by
    rw [hx₁]
    exact fun x' h => ⟨h.task, h.user, h.mathOwner, h.eip, h.esp, h.fs, h.high, h.memMap, h.phys⟩
  have hm : Segments.of ⟨x₁.user, x₁.kernel⟩ x₁.args.fs = x.user := by
    rw [hx₁]
    show Segments.of ⟨x.user, _⟩ x.args.fs = x.user
    rw [hr.fs]
    rfl
  have hr₁ : Request e x₁ filename argv envp name args envs := by
    rw [hx₁]
    exact ⟨hr.fs, hr.name, hr.args, hr.envs, hr.frame⟩
  have hfiles : x₁.files = x.files := by rw [hx₁]; rfl
  have huser : x₁.user = x.user := by rw [hx₁]; rfl
  have hfirst : firstBlock F x₁ filename = firstBlock F x filename := by
    unfold firstBlock
    rw [hfiles, huser]
  simp only
  rw [← hx₁, hm, hfiles]
  rw [← hx₁] at hcommit
  refine Post.bind (call_rule (P := fun r => F.namei x.user filename x.files = some r)
    (fun _ h => h) hE) fun r hname => ?_
  obtain ⟨inode, f⟩ := r
  have hN := C.namei _ _ x.files f inode hI hname
  cases inode with
  | none =>
    refine Post.ok (hQ _ _ (by decide) (hback _ ?_) hN)
    exact ⟨rfl, rfl, rfl, rfl, rfl, rfl, rfl, rfl, fun _ _ => rfl⟩
  | some inode =>
    refine Post.bind (Q := fun n => n = (args.length : ℤ))
      (by rw [count_spec hr.args]; exact Post.ok rfl) fun argc ha => ?_
    refine Post.bind (Q := fun n => n = (envs.length : ℤ))
      (by rw [count_spec hr.envs]; exact Post.ok rfl) fun envc he => ?_
    refine restart_rule C (by rw [hx₁]; exact hsz) (by rw [hx₁]; rfl) hr₁
      ((Along.refl e x₁).setFiles f x₁.kernel) rfl rfl ?_ hN (by rw [huser, hfiles]; exact hname)
      (fun data hd => hfits data ?_) hE hE' rfl ha he
      (fun r x' h0 hf => hQ r x' h0 (hback x' hf)) fun data d x' inode' u g v size hd => ?_
    · rw [hx₁]
      exact getLong_putLong
    · rw [hx₁] at hd
      obtain ⟨h1, h2, h3, h4, h5, h6, h7⟩ := hd
      exact ⟨h1, h2, h3, h4, h5, h6, h7⟩
    · exact hcommit data d x' inode' u g v size (by rw [← hfirst]; exact hd)

/-! ## The copies of a call -/

/-- What follows the copies for a file that is no script. -/
def finishBinary (F : Files σ ι β φ) (e : Env) (inode : ι) (ex : Exec) (u g : BitVec 16)
    (argc envc : ℤ) (r : BitVec 32 × Machine σ ι φ) : Except Stop (ℤ × Machine σ ι φ) :=
  if r.1 = 0 then execError2 F r.2 inode (-ENOMEM) else commit F e r.2 inode ex u g ⟨r.1, argc, envc⟩

variable {bh : β} {f₁ f₂ f₃ f₄ : σ} {data : ℕ → Byte} {cs : BitVec 32}

/-- The way to `restart_interp`. -/
theorem doExecve_eq (hr : Request e x filename argv envp name args envs)
    (hcs : 0xffff &&& cs = 0xf) (hname : F.namei x.user filename x.files = some (some inode, f₁)) :
    doExecve F e cs filename argv envp x = restart F e argv envp inode
      ⟨0x1FFFC, args.length, envs.length⟩ { enter e filename x with files := f₁ } := by
  have hm : Segments.of ⟨(enter e filename x).user, (enter e filename x).kernel⟩
      (enter e filename x).args.fs = x.user := by
    show Segments.of ⟨x.user, _⟩ x.args.fs = x.user
    rw [hr.fs]
    rfl
  unfold doExecve
  rw [if_neg (not_not.2 hcs)]
  simp only
  rw [hm, show (enter e filename x).files = x.files from rfl, hname, count_spec hr.args,
    count_spec hr.envs]
  rfl

theorem openExec_eq
    {next : Machine σ ι φ → β → BitVec 16 → BitVec 16 → Except Stop (ℤ × Machine σ ι φ)}
    (hreg : Fs.isReg (F.inode x.files inode).iMode)
    (hexec : mayExecute x.task (F.inode x.files inode))
    (hread : F.bread (F.inode x.files inode).iDev (F.inode x.files inode).iZone x.files =
      some (some bh, f₂)) :
    openExec F x inode next = next { x with files := f₂ } bh (effectiveUid x.task (F.inode x.files inode))
      (effectiveGid x.task (F.inode x.files inode)) := by
  unfold openExec
  simp only
  rw [if_neg (not_not.2 hreg), if_neg (not_not.2 hexec), hread]
  rfl

theorem doExecve_binary_eq (hr : Request e x filename argv envp name args envs)
    (hcs : 0xffff &&& cs = 0xf) (hname : F.namei x.user filename x.files = some (some inode, f₁))
    (hreg : Fs.isReg (F.inode f₁ inode).iMode) (hexec : mayExecute x.task (F.inode f₁ inode))
    (hread : F.bread (F.inode f₁ inode).iDev (F.inode f₁ inode).iZone f₁ = some (some bh, f₂))
    (hrelse : F.brelse bh f₂ = some f₃) (hbinary : isScript (F.data f₂ bh) = false)
    (hcheck : checkHeader (header (F.data f₂ bh)) (F.inode f₃ inode).iSize = .ok ()) :
    doExecve F e cs filename argv envp x =
      copyAll e (calls e (F.data f₂ bh) argv envp name args envs) 0x1FFFC
        { enter e filename x with files := f₃ } >>=
      finishBinary F e inode (header (F.data f₂ bh)) (effectiveUid x.task (F.inode f₁ inode))
        (effectiveGid x.task (F.inode f₁ inode)) args.length envs.length := by
  rw [doExecve_eq hr hcs hname]
  unfold restart
  rw [openExec_eq (x := { enter e filename x with files := f₁ }) hreg hexec hread]
  simp only
  rw [if_neg (by rw [hbinary]; decide), hrelse]
  show loadBinary F e false argv envp { enter e filename x with files := f₃ } inode _ _ _ _ = _
  unfold loadBinary
  simp only [Bool.false_eq_true, if_false, hcheck]
  unfold calls
  rw [if_neg (by rw [hbinary]; decide), ← copy_copy args envs]
  rfl

theorem doExecve_script_eq (hr : Request e x filename argv envp name args envs)
    (hcs : 0xffff &&& cs = 0xf) (hname : F.namei x.user filename x.files = some (some inode, f₁))
    (hreg : Fs.isReg (F.inode f₁ inode).iMode) (hexec : mayExecute x.task (F.inode f₁ inode))
    (hread : F.bread (F.inode f₁ inode).iDev (F.inode f₁ inode).iZone f₁ = some (some bh, f₂))
    (hrelse : F.brelse bh f₂ = some f₃) (hscript : isScript (F.data f₂ bh) = true)
    (hput : F.iput inode f₃ = some f₄) (hs : parse (F.data f₂ bh) = some s) :
    doExecve F e cs filename argv envp x =
      copyAll e (calls e (F.data f₂ bh) argv envp name args envs) 0x1FFFC
        { enter e filename x with
          files := f₄, kernel := e.locals.store (enter e filename x).kernel s } >>= fun r =>
      openInterp F e (restartInterp F e argv envp) s
        ⟨r.1, args.length - 1 + 1 + (if s.iArg.isSome then 1 else 0) + 1, envs.length⟩ r.2 := by
  rw [doExecve_eq hr hcs hname]
  unfold restart
  rw [openExec_eq (x := { enter e filename x with files := f₁ }) hreg hexec hread]
  simp only
  rw [if_pos hscript, hrelse]
  show (call (F.iput inode f₃) >>= _) = _
  rw [hput]
  show (match parse (F.data f₂ bh) with
    | none => _
    | some s => splice F e (restartInterp F e argv envp) argv envp
        { enter e filename x with files := f₄ } s ⟨0x1FFFC, args.length, envs.length⟩) = _
  rw [hs]
  simp only
  rw [splice_eq name args envs rfl rfl]
  unfold calls
  rw [if_pos hscript, hs]

end Ways

end Linux011.Execve
