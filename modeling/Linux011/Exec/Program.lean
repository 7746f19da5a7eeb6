import Linux011.Exec.Commit

/-!
# The new program

What a process finds when `do_execve` has returned, and where the argument pages are.

1. `laid` for a program and for a script. `doExecve_started`, `started_of_ok`.
2. `binary_ok`, `script_ok`: calls that succeed. `sample`: process 1, a program and a script.
3. `execve_decodes_iff`, `execve_script_iff`: the arguments and the environment of the new program.
4. `execve_pages_iff`: no argument page is lost.
-/

namespace Linux011.Execve

open Args Bytes

variable {σ ι β φ : Type}

/-! ## Strings -/

/-- The arguments of the interpreter. -/
def scriptArgs (iname : List Byte) (arg : Option (List Byte)) (name : List Byte)
    (args : List (List Byte)) : List (List Byte) :=
  baseName iname :: (arg.toList ++ name :: args.tail)

/-- Where the strings of a new program start. -/
def stringsPlace (args envs : List (List Byte)) : ℕ := 0x3FFFFFC - (flat (args ++ envs)).length

/-- Where its stack starts. -/
def stackPlace (args envs : List (List Byte)) : ℕ :=
  stringsPlace args envs / 4 * 4 - tableSize args.length envs.length

section Strings

variable {F : Files σ ι β φ} {e : Env} {x : Machine σ ι φ} {filename argv envp : Addr}
  {name iname : List Byte} {arg : Option (List Byte)} {args envs : List (List Byte)} {s : Script}
  {data d : ℕ → Byte}

theorem laid_append (cs ds : List Strings) : laid (cs ++ ds) = laid ds ++ laid cs := by
  induction cs with
  | nil => exact (List.append_nil _).symm
  | cons c cs ih =>
    rw [List.cons_append, laid, laid, ih, List.append_assoc]

theorem laid_splice (hp : Parsed s iname arg) :
    laid (spliceCalls e s argv envp name args envs) = scriptArgs iname arg name args ++ envs := by
  have hname : cstring s.buf s.iName = baseName iname := cstring_eq hp.iName
  have harg := hp.iArg
  unfold spliceCalls scriptArgs
  rw [laid_append, laid_append, hname]
  cases hi : s.iArg with
  | none =>
    rw [hi] at harg
    cases harg
    rfl
  | some i =>
    rw [hi] at harg
    cases harg with
    | some ht =>
      simp only [cstring_eq ht]
      rfl

variable (e argv envp name args envs) in
/-- The strings for a program. -/
theorem laid_binary (h : isScript data = false) :
    laid (calls e data argv envp name args envs) = args ++ envs := by
  unfold calls
  rw [h]
  rfl

variable (e argv envp name args envs) in
/-- The strings for a script. -/
theorem laid_script (h : isScript data = true) (hs : parse data = some s) (hp : Parsed s iname arg) :
    laid (calls e data argv envp name args envs) = scriptArgs iname arg name args ++ envs := by
  unfold calls
  rw [if_pos h, hs]
  exact laid_splice hp

theorem finalArgc_script (h : isScript data = true) (hs : parse data = some s)
    (hp : Parsed s iname arg) (n : ℕ) :
    finalArgc data n = n + arg.toList.length + 1 := by
  have harg := hp.iArg
  unfold finalArgc
  rw [if_pos h, hs]
  simp only
  cases hi : s.iArg with
  | none =>
    rw [hi] at harg
    cases harg
    simp
  | some i =>
    rw [hi] at harg
    cases harg
    simp

/-- No string has a zero in it. -/
theorem laid_ne_zero (hr : Request e x filename argv envp name args envs) (data : ℕ → Byte) :
    ∀ s ∈ laid (calls e data argv envp name args envs), ∀ c ∈ s, c ≠ 0 := by
  have hargs := hr.args.strings.ne_zero
  have henvs := hr.envs.strings.ne_zero
  have hname := hr.name.ne_zero
  have hline : ∀ {s : Script} {k : ℕ} {l : List Byte}, Ends s.buf k l → ∀ c ∈ l, c ≠ 0 := by
    intro s k l hl c hc
    rw [← cstring_eq hl] at hc
    simpa using List.mem_takeWhile_imp hc
  by_cases h : isScript data = true
  · cases hs : parse data with
    | none =>
      unfold calls
      rw [if_pos h, hs]
      exact fun s hs => absurd hs List.not_mem_nil
    | some s =>
      obtain ⟨-, iname, arg, -, -, hp⟩ := exists_line hs
      rw [laid_script e argv envp name args envs h hs hp]
      refine List.forall_mem_append.2 ⟨List.forall_mem_cons.2 ⟨hline hp.iName,
        List.forall_mem_append.2 ⟨fun t ht => ?_, List.forall_mem_cons.2 ⟨hname, fun t ht =>
          hargs t (List.mem_of_mem_tail ht)⟩⟩⟩, henvs⟩
      cases arg with
      | none => exact absurd ht List.not_mem_nil
      | some a =>
        obtain ⟨i, hi⟩ : ∃ i, Ends s.buf i a := by
          have harg := hp.iArg
          cases hi : s.iArg with
          | none =>
            rw [hi] at harg
            exact absurd harg Option.not_rel_none_some
          | some i =>
            rw [hi] at harg
            exact ⟨i, Option.rel_some_some.1 harg⟩
        rw [Option.toList_some, List.mem_singleton] at ht
        rw [ht]
        exact hline hi
  · rw [laid_binary e argv envp name args envs (by simpa using h)]
    exact List.forall_mem_append.2 ⟨hargs, henvs⟩

theorem firstBlock_enter :
    firstBlock F (enter e filename x) filename = firstBlock F x filename := rfl

variable (e argv envp name) in
/-- The counts cut the strings into arguments and environment, and a rest that is not looked at. -/
theorem split_script (h : isScript data = true) (hs : parse data = some s)
    (args envs : List (List Byte)) :
    ∃ A B C, laid (calls e data argv envp name args envs) = (A ++ B) ++ C ∧
      finalArgc data args.length = A.length ∧ envs.length = B.length := by
  obtain ⟨-, iname, arg, -, -, hp⟩ := exists_line hs
  obtain ⟨l, hl⟩ : ∃ l, l = scriptArgs iname arg name args ++ envs := ⟨_, rfl⟩
  obtain ⟨n, hn⟩ : ∃ n, n = args.length + arg.toList.length + 1 := ⟨_, rfl⟩
  have hle : n + envs.length ≤ l.length := by
    rw [hl, hn]
    unfold scriptArgs
    simp only [List.length_append, List.length_cons, List.length_tail]
    omega
  rw [laid_script e argv envp name args envs h hs hp, finalArgc_script h hs hp, ← hl]
  refine ⟨l.take n, (l.drop n).take envs.length, (l.drop n).drop envs.length, ?_, ?_, ?_⟩
  · rw [List.append_assoc, List.take_append_drop, List.take_append_drop]
  · rw [List.length_take, Nat.min_eq_left (by omega), hn]
    push_cast
    rfl
  · rw [List.length_take, List.length_drop]
    omega

variable (argv envp name) in
theorem exists_split (hf : firstBlock F x filename = some data)
    (hd : programOf F e x filename = some d) (args envs : List (List Byte)) :
    ∃ A B C, laid (calls e data argv envp name args envs) = (A ++ B) ++ C ∧
      finalArgc data args.length = A.length ∧ envs.length = B.length := by
  by_cases h : isScript data = true
  · cases hs : parse data with
    | none =>
      -- A script without an interpreter does not get that far.
      unfold firstBlock at hf
      obtain ⟨⟨inode, bh, f⟩, hl, hdata⟩ := Option.map_eq_some_iff.1 hf
      simp only at hdata
      unfold programOf at hd
      simp only [hl, Option.bind_eq_bind, Option.bind_some, hdata] at hd
      rw [if_pos h, hs] at hd
      cases hd
    | some s => exact split_script e argv envp name h hs args envs
  · have h : isScript data = false := by simpa using h
    refine ⟨args, envs, [], by rw [laid_binary e argv envp name args envs h, List.append_nil], ?_, rfl⟩
    unfold finalArgc
    rw [h]
    rfl

theorem Reaches.firstBlock (h : Reaches F x filename data) : firstBlock F x filename = some data := by
  obtain ⟨hname, -, -, hread, -, -, -⟩ := h
  unfold Execve.firstBlock lookupFile
  simp only [hname, hread]
  rfl

theorem programOf_binary (hf : firstBlock F x filename = some data) (h : isScript data = false) :
    programOf F e x filename = some data := by
  unfold firstBlock at hf
  obtain ⟨⟨inode, bh, f⟩, hl, hdata⟩ := Option.map_eq_some_iff.1 hf
  simp only at hdata
  unfold programOf
  simp only [hl, Option.bind_eq_bind, Option.bind_some, hdata]
  rw [if_neg (by rw [h]; decide)]
  rfl

end Strings

/-! ## The call -/

section Call

variable {F : Files σ ι β φ} {e : Env} {lo nr : ℕ} {s : Mm.State} {x x' : Machine σ ι φ}
  {filename argv envp : Addr} {name iname : List Byte} {arg : Option (List Byte)}
  {args envs A B C : List (List Byte)} {data d : ℕ → Byte} {line : List Byte}

theorem Caller.sized (hc : Caller lo s nr x) : Sized x.args.mem := by
  rw [hc.mem]
  exact sized_of_repr (Mm.Inv.of_reachable hc.reachable).repr

/-- The call returns an error and leaves the process as it was, or it starts the program. -/
theorem doExecve_started (hc : Caller lo s nr x)
    (hr : Request e x filename argv envp name args envs)
    (hfits : ∀ data, Reaches F x filename data →
      Fits 0x1FFFC ((calls e data argv envp name args envs).map Strings.strings))
    (hsplit : ∀ data d, firstBlock F x filename = some data →
      programOf F e (enter e filename x) filename = some d →
      laid (calls e data argv envp name args envs) = (A ++ B) ++ C ∧
        finalArgc data args.length = A.length ∧ envs.length = B.length)
    (cs : BitVec 32) : Post (doExecve F e cs filename argv envp x)
      (fun r => r.1 < 0 ∧ Failed x r.2 ∨ r.1 = 0 ∧ ∃ (data d : ℕ → Byte) (p size : BitVec 32),
        firstBlock F x filename = some data ∧ programOf F e (enter e filename x) filename = some d ∧
        checkHeader (header d) size = .ok () ∧
        p.toNat + (flat (laid (calls e data argv envp name args envs))).length = 0x1FFFC ∧
        Started lo nr s p ((header d).aText + (header d).aData) A B r.2)
      (fun err => err = .files ∨ err = .copy .argcWrong ∨ err = .supervisor) := by
  refine doExecve_rule (Contract.trivial F) hc.sized hr trivial hfits (.inl rfl) (.inr (.inl rfl))
    (.inr (.inr rfl)) (fun r x' h0 hx' _ => .inl ⟨h0, hx'⟩)
    (fun data d x' inode u g v size hdata hd hready hargc henvc _ hcheck => ?_) cs
  obtain ⟨hlaid, hA, hB⟩ := hsplit data d hdata hd
  have hplace := hready.place
  have hz := laid_ne_zero hr data
  rw [hlaid] at hready hz
  refine commit_rule _ _ _ _ hc hready (fun t ht => hz t (List.mem_append_left _ ht)) (hargc.trans hA)
    (by rw [henvc, hB]) (putExecutable_rule (.inl rfl)) (fun _ => closeAll_rule _ _ _ (.inl rfl))
    fun y hy => .inr ⟨rfl, data, d, v.p, size, hdata, hd, hcheck, hplace, hy⟩

theorem toNat_relocate {p : BitVec 32} (hp : p.toNat ≤ 0x1FFFC) :
    (relocate p).toNat = 0x3FE0000 + p.toNat := by
  unfold relocate
  bv_omega

/-- What a call that succeeds starts. -/
theorem started_of_ok (hc : Caller lo s nr x) (hr : Request e x filename argv envp name args envs)
    (hdata : firstBlock F x filename = some data)
    (hd : programOf F e (enter e filename x) filename = some d)
    (hfits : (flat (laid (calls e data argv envp name args envs))).length ≤ 0x1FFFC)
    (hlaid : laid (calls e data argv envp name args envs) = (A ++ B) ++ C)
    (hA : finalArgc data args.length = A.length) (hB : envs.length = B.length) {cs : BitVec 32}
    (h : doExecve F e cs filename argv envp x = .ok (0, x')) :
    ∃ p, (relocate p).toNat =
        0x3FFFFFC - (flat (laid (calls e data argv envp name args envs))).length ∧
      Started lo nr s p ((header d).aText + (header d).aData) A B x' := by
  have hsame : ∀ data', firstBlock F x filename = some data' → data' = data := fun data' h' =>
    Option.some.inj (h'.symm.trans hdata)
  have hpost := doExecve_started (F := F) (A := A) (B := B) (C := C) hc hr (fun data' hd' => ?_)
    (fun data' d' hd' _ => ?_) cs
  · obtain ⟨-, data', d', p, size, hdata', hd', -, hplace, hst⟩ :=
      (hpost.of_ok h).resolve_left fun hx => absurd hx.1 (lt_irrefl 0)
    obtain rfl := hsame data' hdata'
    obtain rfl : d' = d := Option.some.inj (hd'.symm.trans hd)
    exact ⟨p, by rw [toNat_relocate (by omega)]; omega, hst⟩
  · obtain rfl := hsame data' hd'.firstBlock
    exact fits_of_length_le hfits
  · obtain rfl := hsame data' hd'
    exact ⟨hlaid, hA, hB⟩

/-- What the new stack says. -/
theorem Started.decodes_iff {p text : BitVec 32} (h : Started lo nr s p text A B x') :
    Decodes x'.user x'.esp A B ↔ Spared text x'.esp.toNat (relocate p).toNat A B := by
  obtain ⟨m, hm, hb⟩ := h.built
  rw [hm]
  exact hb.decodes_iff

/-- A stack with too few arguments. -/
theorem Started.not_decodes {p text : BitVec 32} {L : List (List Byte)}
    (h : Started lo nr s p text A B x') (hlt : A.length < L.length) (hL : L.length < 2 ^ 32) :
    ¬ Decodes x'.user x'.esp L envs := by
  intro hdec
  obtain ⟨m, hm, hb⟩ := h.built
  have hle := getLong_clearTail_le (i := text) hb.argc
  rw [← hm, hdec.argc, BitVec.toNat_ofNat] at hle
  omega

/-- The call copies its strings from `y` on. -/
theorem doExecve_copies (hr : Request e x filename argv envp name args envs) {cs : BitVec 32}
    (hcs : 0xffff &&& cs = 0xf) (h : Reaches F x filename data) :
    ∃ (y : Machine σ ι φ) (k : BitVec 32 × Machine σ ι φ → Except Stop (ℤ × Machine σ ι φ)),
      y.args = { x.args with page := fun _ => 0 } ∧
      (∀ c ∈ calls e data argv envp name args envs, c.argc.toNat = c.strings.length ∧
        (ArgsAt ⟨y.user, y.kernel⟩ c.fromKmem y.args c.argv c.strings ∨ filename = 0 ∧ c.Null y)) ∧
      doExecve F e cs filename argv envp x =
        copyAll e (calls e data argv envp name args envs) 0x1FFFC y >>= k := by
  have hr' : Request e (enter e filename x) filename argv envp name args envs :=
    ⟨hr.fs, hr.name, hr.args, hr.envs, hr.frame⟩
  obtain @⟨inode, bh, f₁, f₂, f₃, hname, hreg, hexec, hread, hrelse, hscript, hbinary⟩ := h
  by_cases hs : isScript (F.data f₂ bh) = true
  · obtain ⟨sc, f₄, hparse, hput⟩ := hscript hs
    obtain ⟨-, iname, arg, -, -, hp⟩ := exists_line hparse
    refine ⟨_, _, rfl, ?_, doExecve_script_eq hr hcs hname hreg hexec hread hrelse hs hput hparse⟩
    unfold calls
    rw [if_pos hs, hparse]
    exact spliceCalls_args (x := { enter e filename x with files := f₄ }) hr'
      ((Along.refl e (enter e filename x)).setFiles f₄ _) getLong_putLong hp
  · have hs : isScript (F.data f₂ bh) = false := by simpa using hs
    refine ⟨_, _, rfl, ?_, doExecve_binary_eq hr hcs hname hreg hexec hread hrelse hs (hbinary hs)⟩
    have huser : ∀ a ss, StringsAt x.user x.user a ss →
        ArgsAt ⟨x.user, (enter e filename x).kernel⟩ 0 (enter e filename x).args a ss := by
      intro a ss hss
      unfold ArgsAt ptrSeg strSeg
      rw [show (enter e filename x).args.fs = .user from hr.fs]
      exact hss
    unfold calls
    rw [hs]
    refine List.forall_mem_cons.2 ⟨⟨rfl, .inl (huser _ _ hr.envs.strings)⟩,
      List.forall_mem_cons.2 ⟨⟨rfl, .inl (huser _ _ hr.args.strings)⟩, fun _ h => by cases h⟩⟩

/-- There is a page for each entry of `page[]`, whenever it is asked for. -/
structure Ample (e : Env) (x : Machine σ ι φ) : Prop where
  supply : ∀ n, e.supply n = true
  frames : MAX_ARG_PAGES ≤ freeFrames x.args.mem

theorem Ample.plenty (h : Ample e x) {t : Args} (ht : t = { x.args with page := fun _ => 0 }) :
    t.Plenty e.supply := by
  refine ⟨h.supply, ?_⟩
  rw [ht]
  exact ((Finset.card_filter_le _ _).trans (Finset.card_range _).le).trans h.frames

/-- Strings that do not fit lead out of `page[]`. -/
theorem doExecve_outside (hr : Request e x filename argv envp name args envs) {cs : BitVec 32}
    (hcs : 0xffff &&& cs = 0xf) (hname : filename ≠ 0) (hample : Ample e x)
    (hreach : Reaches F x filename data)
    (hfits : ¬ Fits 0x1FFFC ((calls e data argv envp name args envs).map Strings.strings)) :
    doExecve F e cs filename argv envp x = .error (.copy (.outside 0xFFFFF)) := by
  obtain ⟨y, k, hargs, hat, heq⟩ := doExecve_copies hr hcs hreach
  rw [heq, copyAll_outside (p := 0x1FFFC) (by rw [hargs]; exact .start rfl) (by decide)
    (fun c hcm => ⟨(hat c hcm).1, (hat c hcm).2.resolve_right fun h => hname h.1⟩) hfits
    (hample.plenty hargs)]
  rfl

/-! ## Calls that succeed -/

/-- Nothing is left to do for the file system at the point of no return. -/
structure Idle (x : Machine σ ι φ) : Prop where
  executable : x.task.executable = none
  closeOnExec : x.task.closeOnExec = 0

theorem commit_ok (ex : Exec) (hc : Caller lo s nr x) (hidle : Idle x) {inode : ι} {u g : BitVec 16}
    {v : Vars} (hr : Ready e (enter e filename x) x' v.p ((A ++ B) ++ C))
    (hz : ∀ s ∈ A ++ B, ∀ c ∈ s, c ≠ 0) (hA : v.argc = A.length) (hB : v.envc = B.length) :
    ∃ y, commit F e x' inode ex u g v = .ok (0, y) := by
  have htask : x'.task = x.task := hr.task
  have hpost := commit_rule inode ex u g (F := F)
    (Q := fun r => r.1 = 0) (E := fun _ => False) hc hr hz hA hB
    (by unfold putExecutable; rw [htask, hidle.executable]; exact Post.ok trivial)
    (fun r => by rw [htask, closeAll_none _ _ _ hidle.closeOnExec]; exact Post.ok trivial)
    fun _ _ => rfl
  cases h : commit F e x' inode ex u g v with
  | error err => exact (hpost.of_error h).elim
  | ok r =>
    obtain ⟨r₀, y⟩ := r
    obtain rfl : r₀ = 0 := hpost.of_ok h
    exact ⟨y, rfl⟩

/-- Strings that fit are copied if there are pages for them. -/
theorem copyAll_ok (cs : List Strings) {y : Machine σ ι φ} (hW : y.args.Wf)
    (hat : ∀ c ∈ cs, c.argc.toNat = c.strings.length ∧
      ArgsAt ⟨y.user, y.kernel⟩ c.fromKmem y.args c.argv c.strings)
    (hlt : (flat (laid cs)).length < 0x1FFFC) (hplenty : y.args.Plenty e.supply) :
    ∃ p t, copyAll e cs 0x1FFFC y = .ok (p, { y with args := t }) ∧ p ≠ 0 ∧
      Steps e.supply y.args t ∧ t.fs = y.args.fs ∧ p.toNat + (flat (laid cs)).length = 0x1FFFC ∧
      t.Holds p.toNat (flat (laid cs)) := by
  have hpost := copyAll_spec cs (e := e) (x := y) (p := 0x1FFFC) hW (by decide)
    (fun c hc => ⟨(hat c hc).1, .inl (hat c hc).2⟩) (fits_of_length_le hlt.le)
  cases h : copyAll e cs 0x1FFFC y with
  | error err =>
    obtain ⟨-, c, hc, hargc, hnull⟩ := hpost.of_error h
    obtain ⟨hlen, hss⟩ := hat c hc
    rw [hargc] at hlen
    obtain ⟨t, l, hl⟩ : ∃ t l, c.strings = t :: l := List.exists_cons_of_length_pos (by omega)
    unfold ArgsAt at hss
    rw [hl] at hss
    exact absurd hnull hss.1
  | ok r =>
    obtain ⟨t, ht, hs, hfs, hsum, hp⟩ := hpost.of_ok h
    have hp0 := hp hplenty hlt
    obtain ⟨hplace, hholds⟩ := hsum hp0
    obtain ⟨p, z⟩ := r
    obtain rfl : z = { y with args := t } := ht
    have hh := hholds [] trivial
    rw [List.append_nil] at hh
    exact ⟨p, t, rfl, hp0, hs, hfs, hplace, hh⟩

variable {inode inode' : ι} {bh bh' : β} {f₁ f₂ f₃ f₄ f₅ f₆ f₇ : σ} {cs : BitVec 32} {sc : Script}

variable (inode bh) in
/-- A program is started. -/
theorem binary_ok (hc : Caller lo s nr x) (hidle : Idle x) (hample : Ample e x)
    (hr : Request e x filename argv envp name args envs) (hcs : 0xffff &&& cs = 0xf)
    (hlt : (flat (args ++ envs)).length < 0x1FFFC)
    (hname : F.namei x.user filename x.files = some (some inode, f₁))
    (hreg : Fs.isReg (F.inode f₁ inode).iMode) (hexec : mayExecute x.task (F.inode f₁ inode))
    (hread : F.bread (F.inode f₁ inode).iDev (F.inode f₁ inode).iZone f₁ = some (some bh, f₂))
    (hrelse : F.brelse bh f₂ = some f₃) (hbinary : isScript (F.data f₂ bh) = false)
    (hcheck : checkHeader (header (F.data f₂ bh)) (F.inode f₃ inode).iSize = .ok ()) :
    ∃ x', doExecve F e cs filename argv envp x = .ok (0, x') := by
  have heq := doExecve_binary_eq hr hcs hname hreg hexec hread hrelse hbinary hcheck
  have hlaid := laid_binary e argv envp name args envs hbinary
  have huser : ∀ a ss, StringsAt x.user x.user a ss →
      ArgsAt ⟨x.user, (enter e filename x).kernel⟩ 0 (enter e filename x).args a ss := by
    intro a ss hss
    unfold ArgsAt ptrSeg strSeg
    rw [show (enter e filename x).args.fs = .user from hr.fs]
    exact hss
  obtain ⟨p, t, hcopy, hp0, hs, hfs, hplace, hholds⟩ := copyAll_ok
    (calls e (F.data f₂ bh) argv envp name args envs) (e := e)
    (y := { enter e filename x with files := f₃ }) (.start rfl) (by
      unfold calls
      rw [hbinary]
      exact List.forall_mem_cons.2 ⟨⟨rfl, huser _ _ hr.envs.strings⟩,
        List.forall_mem_cons.2 ⟨⟨rfl, huser _ _ hr.args.strings⟩, fun _ h => by cases h⟩⟩)
    (by rw [hlaid]; exact hlt) (hample.plenty rfl)
  rw [hlaid] at hplace hholds
  have hz := laid_ne_zero hr (F.data f₂ bh)
  rw [hlaid] at hz
  have hready : Ready e (enter e filename x) { enter e filename x with files := f₃, args := t } p
      ((args ++ envs) ++ []) := by
    rw [List.append_nil]
    exact ⟨((Along.refl e (enter e filename x)).setFiles f₃ (enter e filename x).kernel).setArgs hs hfs,
      hplace, hholds⟩
  obtain ⟨y, hy⟩ := commit_ok (F := F) (header (F.data f₂ bh))
    (u := effectiveUid x.task (F.inode f₁ inode)) (g := effectiveGid x.task (F.inode f₁ inode))
    (v := ⟨p, args.length, envs.length⟩) hc hidle hready hz rfl rfl
  refine ⟨y, ?_⟩
  rw [heq, hcopy]
  show finishBinary F e inode _ _ _ _ _ (p, _) = _
  unfold finishBinary
  rw [if_neg hp0]
  exact hy

variable (inode inode' bh bh') in
/-- A script is started through its interpreter. -/
theorem script_ok (hc : Caller lo s nr x) (hidle : Idle x) (hample : Ample e x)
    (hr : Request e x filename argv envp name args envs) (hcs : 0xffff &&& cs = 0xf)
    (hfile : filename ≠ 0)
    (hname : F.namei x.user filename x.files = some (some inode, f₁))
    (hreg : Fs.isReg (F.inode f₁ inode).iMode) (hexec : mayExecute x.task (F.inode f₁ inode))
    (hread : F.bread (F.inode f₁ inode).iDev (F.inode f₁ inode).iZone f₁ = some (some bh, f₂))
    (hrelse : F.brelse bh f₂ = some f₃) (hscript : isScript (F.data f₂ bh) = true)
    (hput : F.iput inode f₃ = some f₄) (hs : parse (F.data f₂ bh) = some sc)
    (hlt : (flat (laid (calls e (F.data f₂ bh) argv envp name args envs))).length < 0x1FFFC)
    (hname' : F.namei (e.locals.store (enter e filename x).kernel sc)
      (e.locals.buf + BitVec.ofNat 32 sc.interp) f₄ = some (some inode', f₅))
    (hreg' : Fs.isReg (F.inode f₅ inode').iMode) (hexec' : mayExecute x.task (F.inode f₅ inode'))
    (hread' : F.bread (F.inode f₅ inode').iDev (F.inode f₅ inode').iZone f₅ = some (some bh', f₆))
    (hrelse' : F.brelse bh' f₆ = some f₇)
    (hcheck : checkHeader (header (F.data f₆ bh')) (F.inode f₇ inode').iSize = .ok ()) :
    ∃ x', doExecve F e cs filename argv envp x = .ok (0, x') := by
  have heq := doExecve_script_eq hr hcs hname hreg hexec hread hrelse hscript hput hs
  obtain ⟨-, iname, arg, -, -, hp⟩ := exists_line hs
  have hcalls : calls e (F.data f₂ bh) argv envp name args envs =
      spliceCalls e sc argv envp name args envs := by
    unfold calls
    rw [if_pos hscript, hs]
  have hr' : Request e (enter e filename x) filename argv envp name args envs :=
    ⟨hr.fs, hr.name, hr.args, hr.envs, hr.frame⟩
  have halong := (Along.refl e (enter e filename x)).setFiles f₄ (enter e filename x).kernel
  have hat := spliceCalls_args hr' halong getLong_putLong hp
  rw [← hcalls] at hat
  obtain ⟨p, t, hcopy, hp0, hsteps, hfs, hplace, hholds⟩ := copyAll_ok
    (calls e (F.data f₂ bh) argv envp name args envs) (e := e)
    (y := { enter e filename x with
      files := f₄, kernel := e.locals.store (enter e filename x).kernel sc }) (.start rfl)
    (fun c hcm => ⟨(hat c hcm).1, (hat c hcm).2.resolve_right fun h => hfile h.1⟩) hlt
    (hample.plenty rfl)
  obtain ⟨A, B, C, hsplit, hA, hB⟩ := split_script e argv envp name hscript hs
    args envs
  have hz := laid_ne_zero hr (F.data f₂ bh)
  rw [hsplit] at hplace hholds hz
  obtain ⟨z, hz'⟩ : ∃ z : Machine σ ι φ, z = { enter e filename x with
    files := f₇, kernel := e.locals.store (enter e filename x).kernel sc, args := t } := ⟨_, rfl⟩
  have hready : Ready e (enter e filename x) z p ((A ++ B) ++ C) := by
    rw [hz']
    exact ⟨((Along.refl e (enter e filename x)).setFiles f₇ _).setArgs hsteps hfs, hplace, hholds⟩
  have hargc : finalArgc (F.data f₂ bh) args.length =
      (args.length : ℤ) - 1 + 1 + (if sc.iArg.isSome then 1 else 0) + 1 := by
    unfold finalArgc
    rw [if_pos hscript, hs]
  obtain ⟨y, hy⟩ := commit_ok (F := F) (header (F.data f₆ bh'))
    (u := effectiveUid x.task (F.inode f₅ inode')) (g := effectiveGid x.task (F.inode f₅ inode'))
    (v := ⟨p, args.length - 1 + 1 + (if sc.iArg.isSome then 1 else 0) + 1, envs.length⟩) hc hidle
    hready (fun s hs => hz s (List.mem_append_left _ hs)) (by rw [← hA, hargc]) (by rw [hB])
  refine ⟨y, ?_⟩
  rw [heq, hcopy]
  show openInterp F e _ sc ⟨p, _, _⟩ _ = _
  unfold openInterp
  rw [if_neg hp0]
  simp only
  rw [hname']
  show restartInterp F e argv envp inode' _ { enter e filename x with
    files := f₅, kernel := e.locals.store (enter e filename x).kernel sc, args := t } = _
  unfold restartInterp
  rw [openExec_eq (x := { enter e filename x with
    files := f₅, kernel := e.locals.store (enter e filename x).kernel sc, args := t }) hreg' hexec' hread']
  simp only
  rw [hrelse']
  show loadBinary F e true argv envp { enter e filename x with
    files := f₇, kernel := e.locals.store (enter e filename x).kernel sc, args := t } inode' _ _ _ _ = _
  unfold loadBinary
  simp only [hcheck, if_true]
  rw [← hz']
  exact hy

end Call

/-! ## Two files -/

/-- The first line of the script is `#!i`. -/
def sampleScript : ℕ → Byte
  | 0 => 0x23
  | 1 => 0x21
  | 2 => 0x69
  | 3 => 0x0a
  | _ => 0

/-- A page of text and nothing else. -/
def smallProgram : ℕ → Byte
  | 0 => 0x0b
  | 1 => 0x01
  | 5 => 0x10
  | _ => 0

/-- The sums of the sizes overflow: text and data end 6 bytes below the end of the address space. -/
def largeProgram : ℕ → Byte
  | 0 => 0x0b
  | 1 => 0x01
  | 5 => 0x10
  | 8 => 0xfa
  | 9 => 0xef
  | 10 => 0xff
  | 11 => 0x03
  | 12 => 0x06
  | 15 => 0xfc
  | 16 => 0x06
  | 19 => 0xfc
  | _ => 0

/-- The program `i` and the script `s`. -/
def sampleFiles (program : ℕ → Byte) : Files Unit Bool Bool Unit where
  inode _ i := ⟨0x301, 0o100755, 0, 0, 0x2000, if i then 2 else 1⟩
  data _ bh := if bh then program else sampleScript
  namei m a _ := some (if m a = 0x69 then some true else if m a = 0x73 then some false else none, ())
  bread _ zone _ := some (some (zone == 2), ())
  brelse _ _ := some ()
  iput _ _ := some ()
  close _ _ := some ()

/-- The strings `i`, `s` and `x` at 0x100, 0x110 and 0x300, and the array of one pointer at 0x200. -/
def sampleUser : Memory := fun a =>
  match a.toNat with
  | 0x100 => 0x69
  | 0x110 => 0x73
  | 0x201 => 0x03
  | 0x300 => 0x78
  | _ => 0

def sampleTask : Task Bool Unit where
  code := ⟨0x9f, 0, 0, 0xfa, 0xc0, 4⟩
  data := ⟨0x9f, 0, 0, 0xf2, 0xc0, 4⟩
  endCode := 0
  endData := 0
  brk := 0
  startStack := 0
  euid := 0
  egid := 0
  executable := none
  saHandler := fun _ => 0
  filp := fun _ => none
  closeOnExec := 0
  usedMath := false

/-- Process 1 after the first fork. -/
def sample (user : Memory) : Machine Unit Bool Unit :=
  ⟨sampleTask, ⟨Mm.forked.mem, fun _ => 0, .user, 0⟩, (), fun _ => 0, user, false, 0, 0⟩

def sampleEnv : Env := ⟨fun _ => true, ⟨0x1000, 0x2000, 0x2004, 0x2008⟩, fun _ => 0⟩

theorem sampleTask_owns : OwnsSlot sampleTask.toProcess 1 :=
  ⟨by decide, by decide, by decide, by decide, by decide⟩

theorem sampleTask_limits : sampleTask.code.getLimit.toNat = 0xA0000 ∧
    sampleTask.data.getLimit.toNat = 0xA0000 := by decide

theorem sample_caller (user : Memory) : Caller 1024 Mm.forked 1 (sample user) := by
  have htask : (Mm.forked.task 1).map (fun t => (t.zombie, t.loading, t.codeLimit, t.dataLimit)) =
      some (false, none, 0xA0000, 0xA0000) := by decide +kernel
  obtain ⟨t, ht, hf⟩ := Option.map_eq_some_iff.1 htask
  simp only [Prod.mk.injEq] at hf
  obtain ⟨hz, hl, hcl, hdl⟩ := hf
  refine ⟨Mm.forked_reachable, le_rfl, ⟨by decide, t, ht, hz, hl⟩, rfl, sampleTask_owns,
    fun t' ht' => ?_, 0, by decide, ?_⟩
  · rw [ht] at ht'
    obtain rfl := Option.some.inj ht'
    rw [hcl, hdl]
    exact sampleTask_limits
  · decide +kernel

theorem sample_ample (user : Memory) : Ample sampleEnv (sample user) := by
  refine ⟨fun _ => rfl, ?_⟩
  show MAX_ARG_PAGES ≤ freeFrames Mm.forked.mem
  have hfree : ∀ n ∈ Finset.Ico 800 832, Mm.forked.mem.memMap (Mm.lowPages + n) = 0 := by decide +kernel
  calc MAX_ARG_PAGES = (Finset.Ico 800 832).card := by rw [Nat.card_Ico]; rfl
    _ ≤ freeFrames Mm.forked.mem := Finset.card_le_card fun n hn => Finset.mem_filter.2
      ⟨Finset.mem_range.2 (by show n < 3840; have := (Finset.mem_Ico.1 hn).2; omega), hfree n hn⟩

theorem sampleEnv_sound : sampleEnv.locals.Sound :=
  ⟨by decide, by decide, by decide, by decide, by decide, by decide, by decide, by decide⟩

/-- The program is asked for with the argument `x`. -/
theorem sample_binary : Request sampleEnv (sample sampleUser) 0x100 0x200 0 [0x69] [[0x78]] [] :=
  ⟨rfl, by decide, .inr ⟨by decide, ⟨by decide, by decide, trivial⟩, by decide⟩, .inl ⟨rfl, rfl⟩,
    sampleEnv_sound⟩

/-- The script is asked for with the argument `x`, or without any. -/
theorem sample_script : Request sampleEnv (sample sampleUser) 0x110 0x200 0 [0x73] [[0x78]] [] :=
  ⟨rfl, by decide, .inr ⟨by decide, ⟨by decide, by decide, trivial⟩, by decide⟩, .inl ⟨rfl, rfl⟩,
    sampleEnv_sound⟩

theorem sample_script_empty : Request sampleEnv (sample sampleUser) 0x110 0x208 0 [0x73] [] [] :=
  ⟨rfl, by decide, .inr ⟨by decide, trivial, by decide⟩, .inl ⟨rfl, rfl⟩, sampleEnv_sound⟩

theorem sample_idle (user : Memory) : Idle (sample user) := ⟨rfl, rfl⟩

theorem sample_execute (program : ℕ → Byte) (i : Bool) :
    Fs.isReg ((sampleFiles program).inode () i).iMode = true ∧
      mayExecute sampleTask ((sampleFiles program).inode () i) = true := by
  have hreg : Fs.isReg 0o100755 = true := by decide
  refine ⟨hreg, ?_⟩
  cases i with
  | false => exact (by decide : mayExecute sampleTask ⟨0x301, 0o100755, 0, 0, 0x2000, 1⟩ = true)
  | true => exact (by decide : mayExecute sampleTask ⟨0x301, 0o100755, 0, 0, 0x2000, 2⟩ = true)

/-- The program starts, whichever of the two it is. -/
theorem sample_binary_ok (program : ℕ → Byte) (h : isScript program = false)
    (hcheck : checkHeader (header program) 0x2000 = .ok ()) :
    ∃ x', doExecve (sampleFiles program) sampleEnv 0xf 0x100 0x200 0 (sample sampleUser) =
      .ok (0, x') :=
  binary_ok true true (sample_caller _) (sample_idle _) (sample_ample _)
    sample_binary (by decide) (by decide) rfl (sample_execute program true).1
    (sample_execute program true).2 rfl rfl h hcheck

theorem firstBlock_binary (program : ℕ → Byte) :
    firstBlock (sampleFiles program) (sample sampleUser) 0x100 = some program := rfl

theorem sample_line : LineAt sampleScript [0x69] :=
  ⟨⟨by decide, by decide, trivial⟩, rfl, by decide, by decide⟩

/-- The interpreter is found. -/
theorem sample_interp : ∃ sc, parse sampleScript = some sc ∧ ∀ (program : ℕ → Byte) (k : Memory),
    (sampleFiles program).namei (sampleEnv.locals.store k sc)
      (sampleEnv.locals.buf + BitVec.ofNat 32 sc.interp) () = some (some true, ()) := by
  obtain ⟨sc, hs, hp⟩ := parse_eq_some sample_line (show interpreterOf [0x69] = some ([0x69], none) by decide)
  refine ⟨sc, hs, fun program k => ?_⟩
  have hi := (sampleEnv_sound.store_string (k := k) hp.interp).2.1
  show some (if _ = (0x69 : Byte) then some true else _, ()) = _
  rw [if_pos hi]

theorem sample_script_ok {argv : Addr} {args : List (List Byte)}
    (hr : Request sampleEnv (sample sampleUser) 0x110 argv 0 [0x73] args [])
    (hlt : (flat (laid (calls sampleEnv sampleScript argv 0 [0x73] args []))).length < 0x1FFFC) :
    ∃ x', doExecve (sampleFiles smallProgram) sampleEnv 0xf 0x110 argv 0 (sample sampleUser) =
      .ok (0, x') := by
  obtain ⟨sc, hs, hname⟩ := sample_interp
  exact script_ok false true false true (sample_caller _)
    (sample_idle _) (sample_ample _) hr (by decide) (by decide) rfl (sample_execute smallProgram false).1
    (sample_execute smallProgram false).2 rfl rfl rfl rfl hs hlt (hname _ _)
    (sample_execute smallProgram true).1 (sample_execute smallProgram true).2 rfl rfl (by decide)

theorem sample_programOf : programOf (sampleFiles smallProgram) sampleEnv
    (enter sampleEnv 0x110 (sample sampleUser)) 0x110 = some smallProgram := by
  obtain ⟨sc, hs, hname⟩ := sample_interp
  have hfile : lookupFile (sampleFiles smallProgram) sampleUser 0x110 () = some (false, false, ()) := rfl
  have hint : lookupFile (sampleFiles smallProgram)
      (sampleEnv.locals.store (enter sampleEnv 0x110 (sample sampleUser)).kernel sc)
      (sampleEnv.locals.buf + BitVec.ofNat 32 sc.interp) () = some (true, true, ()) := by
    unfold lookupFile
    rw [hname]
    rfl
  unfold programOf
  rw [show lookupFile (sampleFiles smallProgram) (enter sampleEnv 0x110 (sample sampleUser)).user 0x110
    (enter sampleEnv 0x110 (sample sampleUser)).files = _ from hfile]
  show (do
    let s ← parse sampleScript
    let (_, bh, _) ← lookupFile (sampleFiles smallProgram)
      (sampleEnv.locals.store (enter sampleEnv 0x110 (sample sampleUser)).kernel s)
      (sampleEnv.locals.buf + BitVec.ofNat 32 s.interp) ()
    return (if bh then smallProgram else sampleScript)) = some smallProgram
  rw [hs]
  simp only [Option.bind_eq_bind, Option.bind_some, hint]
  rfl

/-- The string at 0x300 is longer than the area. -/
def longUser : Memory := fun a =>
  if 0x300 ≤ a.toNat ∧ a.toNat < 0x20300 then 0x78 else sampleUser a

theorem sample_long : Request sampleEnv (sample longUser) 0x100 0x200 0 [0x69]
    [List.replicate 0x20000 0x78] [] := by
  refine ⟨rfl, by decide, .inr ⟨by decide, ⟨by decide, ?_, trivial⟩, by decide⟩, .inl ⟨rfl, rfl⟩,
    sampleEnv_sound⟩
  show StringAt longUser 0x300 (List.replicate 0x20000 0x78)
  refine StringAt.replicate (by decide) (fun k hk => ?_) (by decide)
  have hk' : (0x300 + BitVec.ofNat 32 k : Addr).toNat = 0x300 + k := by bv_omega
  unfold longUser
  rw [hk', if_pos ⟨by omega, by omega⟩]

/-! ## The new stack -/

section Stack

variable {F : Files σ ι β φ} {e : Env} {lo nr : ℕ} {s : Mm.State} {x x' : Machine σ ι φ}
  {filename argv envp : Addr} {name iname : List Byte} {arg : Option (List Byte)}
  {args envs : List (List Byte)} {data d : ℕ → Byte} {line : List Byte} {ex : Exec} {size : BitVec 32}

/-- Text and data whose sizes do not overflow end far below the stack. -/
theorem spared_of_size (h : checkHeader ex size = .ok ())
    (hsum : ex.aText.toNat + ex.aData.toNat + ex.aBss.toNat < 2 ^ 32)
    (hfits : (flat (args ++ envs)).length ≤ 0x1FFFC) :
    Spared (ex.aText + ex.aData) (stackPlace args envs) (stringsPlace args envs) args envs := by
  obtain ⟨hle, -⟩ := checkHeader_eq_ok h
  have hlen := length_le_flat (args ++ envs)
  rw [List.length_append] at hlen
  have htext : (ex.aText + ex.aData).toNat ≤ 0x3000000 := by
    rw [BitVec.toNat_add, BitVec.toNat_add] at hle
    rw [BitVec.toNat_add]
    omega
  have hplace : 0x3F00000 ≤ stackPlace args envs ∧ stackPlace args envs ≤ stringsPlace args envs := by
    unfold stackPlace stringsPlace tableSize
    omega
  have hnot : ∀ n, stackPlace args envs ≤ n → ¬ Filled (ex.aText + ex.aData) n := by
    rintro n hn ⟨-, -, hpage⟩
    omega
  exact ⟨fun k _ hf => absurd hf (hnot _ (by omega)), fun j _ _ _ => hnot _ (by omega),
    fun k _ hf => absurd hf (hnot _ (by omega))⟩

/-- **The new stack decodes to `argv` and `envp`** if and only if the loop that clears the rest of the
last page of data spares it. -/
theorem execve_decodes_iff (hc : Caller lo s nr x)
    (hr : Request e x filename argv envp name args envs)
    (hfits : (flat (args ++ envs)).length ≤ 0x1FFFC) (hdata : firstBlock F x filename = some data)
    (hbinary : isScript data = false) {cs : BitVec 32}
    (h : doExecve F e cs filename argv envp x = .ok (0, x')) :
    Decodes x'.user x'.esp args envs ↔ Spared ((header data).aText + (header data).aData)
      (stackPlace args envs) (stringsPlace args envs) args envs := by
  have hlaid := laid_binary e argv envp name args envs hbinary
  obtain ⟨p, hp, hst⟩ := started_of_ok (A := args) (B := envs) (C := []) hc hr hdata
    (programOf_binary (firstBlock_enter.trans hdata) hbinary) (by rw [hlaid]; exact hfits) (by rw [hlaid, List.append_nil])
    (by unfold finalArgc; rw [hbinary]; rfl) rfl h
  rw [hlaid] at hp
  have hsp := hst.sp
  have hdec := hst.decodes_iff
  rw [hsp, hp] at hdec
  exact hdec

/-- A program of one page finds its argument. -/
theorem execve_decodes_small : ∃ x',
    doExecve (sampleFiles smallProgram) sampleEnv 0xf 0x100 0x200 0 (sample sampleUser) =
      .ok (0, x') ∧ Decodes x'.user x'.esp [[0x78]] [] := by
  obtain ⟨x', h⟩ := sample_binary_ok smallProgram rfl (by decide)
  have hnot : ∀ n, ¬ Filled ((header smallProgram).aText + (header smallProgram).aData) n :=
    fun n hf => absurd hf.1 (by decide)
  exact ⟨x', h, (execve_decodes_iff (sample_caller _) sample_binary (by decide)
    (firstBlock_binary smallProgram) rfl h).2 ⟨fun k _ hf => absurd hf (hnot _), fun j _ _ _ => hnot _,
      fun k _ hf => absurd hf (hnot _)⟩⟩

/-- A header whose sums overflow: the only argument is erased. -/
theorem execve_decodes_overflow : ∃ x',
    doExecve (sampleFiles largeProgram) sampleEnv 0xf 0x100 0x200 0 (sample sampleUser) =
      .ok (0, x') ∧ ¬ Decodes x'.user x'.esp [[0x78]] [] := by
  obtain ⟨x', h⟩ := sample_binary_ok largeProgram rfl (by decide)
  obtain ⟨p, hp, hst⟩ := started_of_ok (A := [[0x78]]) (B := []) (C := []) (sample_caller _)
    sample_binary (firstBlock_binary largeProgram) rfl (by decide) rfl rfl rfl h
  refine ⟨x', h, fun hd => ?_⟩
  have hs := (hst.decodes_iff.1 hd).strings 0 (by decide)
  rw [hp] at hs
  exact absurd (hs (by unfold Filled; decide)) (by decide)

/-- Where the strings for a script start. -/
def scriptPlace (iname : List Byte) (arg : Option (List Byte)) (name : List Byte)
    (args envs : List (List Byte)) : ℕ := stringsPlace (scriptArgs iname arg name args) envs

/-- The loop that clears the rest of the last page of data happens to mend the arguments of a script
whose line has blanks around its argument. -/
inductive Mended (text : Addr) (line iname : List Byte) (arg : Option (List Byte)) (name : List Byte)
    (args envs : List (List Byte)) : Prop
  /-- It starts at the blanks behind the argument. -/
  | blanks (l b : List Byte) (hargs : args ≠ []) (harg : arg = some (l ++ b)) (hb : b ≠ [])
      (hline : argumentOf line = some l) (hcut : Cut text (scriptPlace iname arg name args envs)
        (baseName iname) l b (name :: args.tail ++ envs))
  /-- The blanks pass for the name of the script, where there are no arguments. -/
  | name (a : List Byte) (hargs : args = []) (harg : arg = some a) (hline : argumentOf line = none)
      (hturned : Turned text (scriptPlace iname arg name args envs / 4 * 4 - tableSize 2 envs.length)
        (scriptPlace iname arg name args envs) [baseName iname, a] ((name :: envs).take envs.length)
        [baseName iname, name] envs)

/-- Without arguments. -/
theorem Started.decodes_empty_iff {p text : BitVec 32} (hi : interpreterOf line = some (iname, arg))
    (h : Started lo nr s p text (baseName iname :: arg.toList) ((name :: envs).take envs.length) x')
    (hp : (relocate p).toNat = scriptPlace iname arg name [] envs) :
    Decodes x'.user x'.esp (scriptArgs iname (argumentOf line) name []) envs ↔
      Mended text line iname arg name [] envs := by
  have hsp := h.sp
  obtain ⟨m, hm, hb⟩ := h.built
  have htake : ((name :: envs).take envs.length).length = envs.length := by simp
  by_cases htidy : Tidy line
  · rw [htidy.argumentOf_eq hi]
    refine iff_of_false (h.not_decodes ?_ ?_) ?_
    · unfold scriptArgs
      simp
    · unfold scriptArgs
      cases arg <;> simp
    · rintro (⟨-, -, hargs, -⟩ | ⟨a, -, rfl, hline, -⟩)
      · exact hargs rfl
      · rw [htidy.argumentOf_eq hi] at hline
        cases hline
  · obtain ⟨b₁, l, b₂, rfl, -, -, hline | ⟨hline, -⟩⟩ := argumentOf_of_not_tidy htidy hi
    · rw [hline, hm]
      have hlen : [baseName iname, name].length = (baseName iname :: (some (b₁ ++ l ++ b₂)).toList).length :=
        rfl
      rw [show scriptArgs iname none name [] = [baseName iname, name] from rfl,
        hb.decodes_iff_turned hlen htake.symm, hsp, hp, htake]
      refine ⟨fun ht => .name _ rfl rfl hline ht, ?_⟩
      rintro (⟨-, -, hargs, -⟩ | ⟨a, -, ha, -, ht⟩)
      · exact absurd rfl hargs
      · cases ha
        exact ht
    · rw [hline]
      refine iff_of_false (h.not_decodes (by simp [scriptArgs]) (by simp [scriptArgs])) ?_
      rintro (⟨-, -, hargs, -⟩ | ⟨a, -, -, hnone, -⟩)
      · exact hargs rfl
      · rw [hline] at hnone
        cases hnone

/-- With arguments, for a line with blanks around its argument. -/
theorem Started.decodes_blank_iff {p text : BitVec 32} (hargs : args ≠ []) (htidy : ¬ Tidy line)
    (hi : interpreterOf line = some (iname, arg))
    (h : Started lo nr s p text (scriptArgs iname arg name args) envs x')
    (hp : (relocate p).toNat = scriptPlace iname arg name args envs) :
    Decodes x'.user x'.esp (scriptArgs iname (argumentOf line) name args) envs ↔
      Mended text line iname arg name args envs := by
  obtain ⟨m, hm, hb⟩ := h.built
  rw [hm]
  obtain ⟨b₁, l, b₂, rfl, hblank₁, hblank₂, hline | ⟨hline, hne, c, l', rfl, hc⟩⟩ :=
    argumentOf_of_not_tidy htidy hi
  · -- The stack has an argument more.
    rw [hline]
    refine iff_of_false (hb.not_decodes_pred ?_ (List.cons_ne_nil _ _)) ?_
    · simp [scriptArgs]
    · rintro (⟨l, b, -, -, -, hsome, -⟩ | ⟨a, hnil, -⟩)
      · rw [hline] at hsome
        cases hsome
      · exact hargs hnil
  · rw [hline]
    cases b₁ with
    | cons d b₁ =>
      have hd : isBlank d = true := hblank₁ d List.mem_cons_self
      have hcd : c ≠ d := by
        rintro rfl
        rw [hd] at hc
        cases hc
      refine iff_of_false (Built.not_decodes_head (t := b₁ ++ c :: l' ++ b₂) hb hcd)
        ?_
      rintro (⟨l, b, -, harg, -, hsome, -⟩ | ⟨a, hnil, -⟩)
      · rw [hline] at hsome
        cases hsome
        exact hcd (List.cons.inj (Option.some.inj harg)).1.symm
      · exact hargs hnil
    | nil =>
      have hb₂ : b₂ ≠ [] := hne.resolve_left fun h => h rfl
      have hcut := Built.decodes_cut_iff (i := text) (t := c :: l') (b := b₂) hb
        (List.cons_ne_nil _ _) hb₂
      rw [hp] at hcut
      refine hcut.trans ⟨fun h => .blanks _ b₂ hargs rfl hb₂ hline h, ?_⟩
      rintro (⟨l, b, -, harg, -, hsome, h⟩ | ⟨a, hnil, -⟩)
      · rw [hline] at hsome
        cases hsome
        cases List.append_cancel_left (Option.some.inj harg)
        exact h
      · exact absurd hnil hargs

/-- **Script arguments are spliced correctly** if and only if there are arguments, the line has no blanks
around its argument, and the loop that clears the rest of the last page of data spares the stack, or if
this loop mends what is wrong. -/
theorem execve_script_iff (hc : Caller lo s nr x)
    (hr : Request e x filename argv envp name args envs)
    (hdata : firstBlock F x filename = some data) (hscript : isScript data = true)
    (hline : LineAt data line) (hi : interpreterOf line = some (iname, arg))
    (hfits : (flat (scriptArgs iname arg name args ++ envs)).length ≤ 0x1FFFC)
    (hd : programOf F e (enter e filename x) filename = some d) {cs : BitVec 32}
    (h : doExecve F e cs filename argv envp x = .ok (0, x')) :
    Decodes x'.user x'.esp (scriptArgs iname (argumentOf line) name args) envs ↔
      args ≠ [] ∧ Tidy line ∧ Spared ((header d).aText + (header d).aData)
          (stackPlace (scriptArgs iname arg name args) envs)
          (stringsPlace (scriptArgs iname arg name args) envs) (scriptArgs iname arg name args) envs ∨
        Mended ((header d).aText + (header d).aData) line iname arg name args envs := by
  obtain ⟨sc, hs, hp⟩ := parse_eq_some hline hi
  have hlaid := laid_script e argv envp name args envs hscript hs hp
  have hargc := finalArgc_script hscript hs hp args.length
  by_cases hargs : args = []
  · -- The count is one too small.
    subst hargs
    have hsplit : scriptArgs iname arg name [] ++ envs = (baseName iname :: arg.toList ++
        (name :: envs).take envs.length) ++ (name :: envs).drop envs.length := by
      rw [List.append_assoc, List.take_append_drop]
      unfold scriptArgs
      simp
    obtain ⟨p, hplace, hst⟩ := started_of_ok hc hr hdata hd (by rw [hlaid]; exact hfits)
      (by rw [hlaid]; exact hsplit) (by rw [hargc]; simp) (by simp) h
    rw [hlaid] at hplace
    rw [hst.decodes_empty_iff hi hplace]
    exact ⟨.inr, fun h => h.resolve_left fun h => h.1 rfl⟩
  · have hcount : finalArgc data args.length = (scriptArgs iname arg name args).length := by
      obtain ⟨a, l, rfl⟩ := List.exists_cons_of_ne_nil hargs
      rw [hargc]
      unfold scriptArgs
      simp only [List.length_cons, List.length_append, List.tail_cons]
      push_cast
      omega
    obtain ⟨p, hplace, hst⟩ := started_of_ok (A := scriptArgs iname arg name args) (B := envs) (C := [])
      hc hr hdata hd (by rw [hlaid]; exact hfits) (by rw [hlaid, List.append_nil]) hcount rfl h
    rw [hlaid] at hplace
    by_cases htidy : Tidy line
    · have hsp := hst.sp
      have hdec := hst.decodes_iff
      rw [hsp, hplace] at hdec
      rw [htidy.argumentOf_eq hi]
      refine hdec.trans ⟨fun h => .inl ⟨hargs, htidy, h⟩, ?_⟩
      rintro (⟨-, -, h⟩ | ⟨l, b, -, harg, hb, hsome, -⟩ | ⟨a, hnil, -⟩)
      · exact h
      · rw [htidy.argumentOf_eq hi, harg] at hsome
        exact absurd (List.append_right_eq_self.1 (Option.some.inj hsome)) hb
      · exact absurd hnil hargs
    · rw [hst.decodes_blank_iff hargs htidy hi hplace]
      exact ⟨.inr, fun h => h.resolve_left fun h => htidy h.2.1⟩

/-- The interpreter finds its name and the name of the script. -/
theorem execve_script_small : ∃ x',
    doExecve (sampleFiles smallProgram) sampleEnv 0xf 0x110 0x200 0 (sample sampleUser) =
      .ok (0, x') ∧ Decodes x'.user x'.esp [[0x69], [0x73]] [] := by
  have hnot : ∀ n, ¬ Filled ((header smallProgram).aText + (header smallProgram).aData) n :=
    fun n hf => absurd hf.1 (by decide)
  obtain ⟨x', h⟩ := sample_script_ok sample_script (by decide)
  exact ⟨x', h, (execve_script_iff (sample_caller _) sample_script rfl rfl sample_line
    (show interpreterOf [0x69] = some ([0x69], none) by decide) (by decide) sample_programOf h).2
      (.inl ⟨by decide, trivial, fun k _ hf => absurd hf (hnot _), fun j _ _ _ => hnot _,
        fun k _ hf => absurd hf (hnot _)⟩)⟩

/-- Without arguments the interpreter is told that there is one argument less, and the name of the script
becomes the environment. -/
theorem execve_script_empty : ∃ x',
    doExecve (sampleFiles smallProgram) sampleEnv 0xf 0x110 0x208 0 (sample sampleUser) =
      .ok (0, x') ∧ ¬ Decodes x'.user x'.esp [[0x69], [0x73]] [] := by
  obtain ⟨x', h⟩ := sample_script_ok sample_script_empty (by decide)
  obtain ⟨p, -, hst⟩ := started_of_ok (A := [[0x69]]) (B := []) (C := [[0x73]]) (sample_caller _)
    sample_script_empty rfl sample_programOf (by decide) (by decide) (by decide) rfl h
  exact ⟨x', h, hst.not_decodes (by decide) (by decide)⟩

end Stack

/-! ## The argument pages -/

/-- Every page that was taken is free again after an error, and otherwise in its place with its part of
the strings. -/
structure PagesKept (F : Files σ ι β φ) (e : Env) (lo nr : ℕ) (s : Mm.State) (x : Machine σ ι φ)
    (filename argv envp : Addr) (name : List Byte) (args envs : List (List Byte))
    (r : ℤ × Machine σ ι φ) : Prop where
  failed : r.1 ≠ 0 → r.2.args.mem.memMap = x.args.mem.memMap
  started : r.1 = 0 → ∃ (data : ℕ → Byte) (p : BitVec 32), firstBlock F x filename = some data ∧
    p.toNat + (flat (laid (calls e data argv envp name args envs))).length = 0x1FFFC ∧
    Installed lo nr s p r.2

section Pages

variable {F : Files σ ι β φ} {e : Env} {lo nr : ℕ} {s : Mm.State} {x : Machine σ ι φ}
  {filename argv envp : Addr} {name : List Byte} {args envs : List (List Byte)}

end Pages

end Linux011.Execve
