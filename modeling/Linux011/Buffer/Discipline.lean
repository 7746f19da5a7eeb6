import Linux011.Buffer.Contents

/-!
# The discipline of the users of the buffers

1. `State.Disciplined`: blocks are read with `bread`, used while they are held, and released; nobody
   reads ahead; transfers succeed.
2. `Frame.Plain`: the calls that then occur. `stackRefs_le_one`: a process in the middle of a call has
   one reference at most.
3. `Frame.Relies`: the buffers that a frame knows something about. Nobody else can change what it knows:
   `Cache.FrameOk.of_not_relies`, `relied`.
4. `Outcome.frameOk`: what the frames know after a step.
-/

namespace Linux011.Buffer

variable {α : Type*} {n : ℕ}

/-! ## The discipline -/

/-- What a call needs of the buffers that the process holds: `bread` leaves the process with at most
two references to a buffer, and a buffer that is modified is held. -/
def Kind.Bottom (hs : List (Held n)) : Kind n → Prop
  | .bread dev block => hs.countP (fun h => h.dev = dev ∧ h.block = block) ≤ 1
  | .modify bh => ∃ h ∈ hs, h.bh = bh
  | .brelse _ | .syncDev _ | .sysSync | .fileWrite _ => True
  | _ => False

/-- The calls and events of users that follow the discipline `bread`, then read or modify and mark
dirty, then `brelse`, with synchronisations by anybody and without failing transfers. -/
def State.Disciplined (s : State α n) : Event α n → Prop
  | .start (.bread dev block) =>
    Block.InRange block ∧ ∀ p, s.cur = some p → Kind.Bottom (s.held p) (.bread dev block)
  | .start (.brelse (some bh)) | .start (.modify bh) =>
    ∀ p, s.cur = some p → ∃ h ∈ s.held p, h.bh = bh
  | .start (.fileWrite _ blocks) => ∀ block ∈ blocks, Block.InRange block
  | .start (.brelse none) | .start (.syncDev _) | .start .sysSync => True
  | .start _ => False
  | .run (.inode _ block) => Block.InRange block
  | .complete _ uptodate => uptodate = true
  | _ => True

/-! ## Frames -/

/-- No read-ahead, and only block numbers that have sectors. -/
def Frame.Plain : Frame n → Prop
  | .getblk _ block _ | .bread _ block _ => Block.InRange block
  | .breada .. => False
  | .llRwBlock rw _ | .makeRequest _ rw _ _ => rw.ahead = false
  | .fileWrite _ blocks _ => ∀ block ∈ blocks, Block.InRange block
  | _ => True

/-- The frames of a process that are new after a step. -/
def Next.frames : Next n → List (Frame n)
  | .goto f | .sleep f => [f]
  | .call f g => [g, f]
  | .ret _ | .panic => []

/-- A property of frames holds along the stack after a step if it holds of the new frames, of those
below, and of the one that a value is returned to. -/
theorem Continues.forall_mem {P : Frame n → Prop} {nx : Next n} {fs fs' : List (Frame n)}
    (hc : Continues nx fs fs') (hnew : ∀ f ∈ nx.frames, P f) (hold : ∀ f ∈ fs, P f)
    (hret : ∀ v g, nx = .ret v → fs.head? = some g → P (g.receive v)) : ∀ f ∈ fs', P f := by
  cases hc with
  | goto f | sleep f =>
    rintro g (_ | ⟨_, hg⟩)
    · exact hnew _ List.mem_cons_self
    · exact hold g hg
  | call f g =>
    rintro g' (_ | ⟨_, hg⟩)
    · exact hnew _ List.mem_cons_self
    · rcases List.mem_cons.1 hg with rfl | hg
      · exact hnew _ (List.mem_cons_of_mem _ List.mem_cons_self)
      · exact hold g' hg
  | finish v => simp
  | ret v g fs =>
    rintro g' (_ | ⟨_, hg⟩)
    · exact hret v g rfl rfl
    · exact hold g' (List.mem_cons_of_mem _ hg)

theorem Frame.Plain.receive {f : Frame n} (h : f.Plain) (v : Option (Fin n)) : (f.receive v).Plain := by
  unfold Frame.receive
  split <;> first | exact h | (split <;> first | exact h | simp [Frame.Plain])

theorem Frame.Plain.exec {c : Cache α n} {ch : Choice α} {f : Frame n} (h : f.Plain)
    (hch : ∀ dev block, ch = .inode dev block → Block.InRange block) :
    ∀ g ∈ (c.exec ch f).2.frames, g.Plain := by
  cases f with
  | getHashTable dev block pc =>
    cases pc <;> simp only [Cache.exec, Cache.getHashTable] <;> repeat' split
    all_goals simp [Next.frames, Frame.Plain]
  | getblk dev block pc =>
    have hb : Block.InRange block := h
    clear h
    cases pc <;> simp only [Cache.exec, Cache.getblk] <;> repeat' split
    all_goals simp [Next.frames, Frame.Plain, hb]
  | bread dev block pc =>
    have hb : Block.InRange block := h
    clear h
    cases pc <;> simp only [Cache.exec, Cache.bread] <;> repeat' split
    all_goals simp [Next.frames, Frame.Plain, hb, Rw.ahead]
  | breada => exact h.elim
  | brelse buf =>
    cases buf <;> simp only [Cache.exec, Cache.brelse] <;> repeat' split
    all_goals simp [Next.frames, Frame.Plain]
  | llRwBlock rw bh =>
    have ha : rw.ahead = false := h
    clear h
    simp only [Cache.exec, Cache.llRwBlock]
    repeat' split
    all_goals simp [Next.frames, Frame.Plain, ha]
  | makeRequest m rw bh pc =>
    have ha : rw.ahead = false := h
    clear h
    rcases pc with _ | _ | _ | k <;> simp only [Cache.exec, Cache.makeRequest] <;> repeat' split
    all_goals simp [Next.frames, Frame.Plain, ha]
  | syncDev dev pc =>
    cases pc <;> simp only [Cache.exec, Cache.syncDev] <;> repeat' split
    all_goals simp [Next.frames, Frame.Plain, Rw.ahead]
  | sysSync pc =>
    cases pc <;> simp only [Cache.exec, Cache.sysSync] <;> repeat' split
    all_goals simp [Next.frames, Frame.Plain, Rw.ahead]
  | syncInodes pc =>
    cases pc with
    | loop => cases ch <;> simp_all [Cache.exec, Cache.syncInodes, Next.frames, Frame.Plain]
    | _ => simp [Cache.exec, Cache.syncInodes, Next.frames, Frame.Plain]
  | fileWrite dev blocks pc =>
    have hb : ∀ block ∈ blocks, Block.InRange block := h
    clear h
    cases pc with
    | loop => cases blocks <;> simp_all [Cache.exec, Cache.fileWrite, Next.frames, Frame.Plain]
    | copying bh => cases ch <;> simpa [Cache.exec, Cache.fileWrite, Next.frames, Frame.Plain] using hb
    | _ => simpa [Cache.exec, Cache.fileWrite, Next.frames, Frame.Plain] using hb
  | modify bh => cases ch <;> simp [Cache.exec, Cache.modify, Next.frames, Frame.Plain]

/-! ## References of a process in a call -/

/-- A call that makes no calls. -/
def Kind.Leaf : Kind n → Prop
  | .transfer _ _ | .modify _ => True
  | _ => False

theorem Frame.awaits_leaf {f : Frame n} {k : Kind n} (h : f.awaits k) : ¬ f.kind.Leaf := by
  cases f <;> first | exact id | exact h.elim

theorem Frame.refs_leaf {f : Frame n} (h : f.kind.Leaf) (b : Fin n) : f.refs b = 0 := by
  cases f <;> first | rfl | exact h.elim

def Frame.isBreada : Frame n → Bool
  | .breada .. => true
  | _ => false

theorem Frame.Plain.not_breada {f : Frame n} (h : f.Plain) : f.isBreada = false := by
  cases f <;> first | rfl | exact h.elim

/-- Nobody calls `breada`. -/
theorem Frame.awaits_not_breada {f g : Frame n} (h : g.awaits f.kind) : f.isBreada = false := by
  cases f with
  | breada dev first rest pc =>
    exfalso
    cases g <;> first | exact h | (rename_i pc'; cases pc' <;> simp [awaits, kind] at h)
  | _ => rfl

theorem Frame.refs_le_one {f : Frame n} (h : f.isBreada = false) (b : Fin n) : f.refs b ≤ 1 := by
  unfold Frame.refs
  split <;> first | (cases h; done) | (split <;> simp) | simp

/-- While it waits, a frame keeps a reference only through a transfer or a modification. -/
theorem Frame.awaits_refs {g : Frame n} {k : Kind n} (hp : g.isBreada = false) (h : g.awaits k)
    (hk : ¬ k.Leaf) (b : Fin n) : g.refs b = 0 := by
  cases g with
  | bread dev block pc =>
    cases pc with
    | reading bh => obtain rfl := h; exact absurd trivial hk
    | got bh | wait bh => exact h.elim
    | _ => rfl
  | breada => cases hp
  | syncInodes pc =>
    cases pc with
    | modifying bh => obtain rfl := h; exact absurd trivial hk
    | got bh | release bh => exact h.elim
    | _ => rfl
  | fileWrite dev blocks pc =>
    cases pc with
    | got bh | copying bh => exact h.elim
    | _ => rfl
  | getHashTable dev block pc => exact h.elim
  | brelse buf => exact h.elim
  | getblk dev block pc =>
    cases pc with
    | ret bh => exact h.elim
    | _ => rfl
  | _ => rfl

theorem stackRefs_below {f : Frame n} {fs : List (Frame n)} (ht : Typed (f :: fs))
    (hp : ∀ g ∈ fs, g.isBreada = false) (hf : ¬ f.kind.Leaf) (b : Fin n) : stackRefs b fs = 0 := by
  induction fs generalizing f with
  | nil => rfl
  | cons g fs ih =>
    obtain ⟨h1, h2⟩ := List.isChain_cons_cons.1 ht
    have hg := Frame.awaits_refs (hp g List.mem_cons_self) h1 hf b
    have := ih h2 (fun g' hg' => hp g' (List.mem_cons_of_mem _ hg')) (Frame.awaits_leaf h1)
    simp only [stackRefs, List.map_cons, List.sum_cons] at this ⊢
    omega

/-- **A process in the middle of a call has one reference at most**, unless it reads ahead. -/
theorem stackRefs_le_one {fs : List (Frame n)} (ht : Typed fs) (hp : ∀ g ∈ fs, g.isBreada = false)
    (b : Fin n) : stackRefs b fs ≤ 1 := by
  cases fs with
  | nil => exact Nat.zero_le 1
  | cons f fs =>
    have hf := Frame.refs_le_one (hp f List.mem_cons_self) b
    have hfs : ∀ g ∈ fs, g.isBreada = false := fun g hg => hp g (List.mem_cons_of_mem _ hg)
    by_cases hl : f.kind.Leaf
    · have h0 := Frame.refs_leaf hl b
      cases fs with
      | nil => simp [stackRefs, h0]
      | cons g fs =>
        obtain ⟨h1, h2⟩ := List.isChain_cons_cons.1 ht
        have hg := Frame.refs_le_one (hfs g List.mem_cons_self) b
        have := stackRefs_below h2 (fun g' hg' => hfs g' (List.mem_cons_of_mem _ hg'))
          (Frame.awaits_leaf h1) b
        simp only [stackRefs, List.map_cons, List.sum_cons] at this ⊢
        omega
    · have := stackRefs_below ht hfs hl b
      simp only [stackRefs, List.map_cons, List.sum_cons] at this ⊢
      omega

/-! ## What frames rely on -/

/-- The frame takes something about `b` for granted. -/
def Frame.Relies (b : Fin n) : Frame n → Prop
  | .getblk _ _ (.ret bh) => bh = b
  | .bread _ _ (.got bh) | .bread _ _ (.reading bh) | .bread _ _ (.wait bh) => bh = b
  | .makeRequest _ rw bh pc => bh = b ∧ (rw = .read ∨ ∃ k, pc = .scan k)
  | .syncInodes (.got bh) | .syncInodes (.modifying bh) | .syncInodes (.release bh)
  | .fileWrite _ _ (.got bh) | .fileWrite _ _ (.copying bh) | .modify bh => bh = b
  | _ => False

/-- What a frame knows stays true when only another buffer changes. -/
theorem Cache.FrameOk.of_not_relies {c c' : Cache α n} {bh : Fin n} {f : Frame n} (h : c.FrameOk f)
    (hfn : c'.requestFn = c.requestFn)
    (hsame : ∀ b, b ≠ bh → c'.bDev b = c.bDev b ∧ c'.bBlocknr b = c.bBlocknr b ∧
      c'.bUptodate b = c.bUptodate b) (hr : ¬ f.Relies bh) : c'.FrameOk f := by
  have hcar : ∀ b dev block, b ≠ bh → c.Carries b dev block → c'.Carries b dev block :=
    fun b dev block hb hk => ⟨(hsame b hb).1.trans hk.1, (hsame b hb).2.1.trans hk.2⟩
  have hup : ∀ b, b ≠ bh → c.bUptodate b = true → c'.bUptodate b = true :=
    fun b hb hu => (hsame b hb).2.2.trans hu
  cases f with
  | getblk dev block pc =>
    cases pc with
    | ret b => exact hcar b dev block hr h
    | _ => trivial
  | bread dev block pc =>
    cases pc with
    | got b | reading b | wait b => exact hcar b dev block hr h
    | _ => trivial
  | makeRequest m rw b pc =>
    by_cases hb : b = bh
    · have hr' : ¬(rw = .read ∨ ∃ k, pc = .scan k) := fun h' => hr ⟨hb, h'⟩
      exact ⟨fun h' => absurd (.inl h') hr', fun k hk => absurd (.inr ⟨k, hk⟩) hr'⟩
    · refine ⟨fun hrd => ?_, fun k hk => ?_⟩
      · rw [(hsame b hb).1, hfn]; exact h.1 hrd
      · rw [(hsame b hb).2.2]; exact h.2 k hk
  | syncInodes pc =>
    cases pc with
    | got b | modifying b | release b => exact hup b hr h
    | _ => trivial
  | fileWrite dev blocks pc =>
    cases pc with
    | got b | copying b => exact hup b hr h
    | _ => trivial
  | modify b => exact hup b hr h
  | _ => trivial

/-- What a frame knows depends on the keys, the bits `b_uptodate` and the drivers. -/
theorem Cache.FrameOk.congr {c c' : Cache α n} {f : Frame n} (h : c.FrameOk f)
    (hq : c'.toQueues = c.toQueues) (hu : c'.bUptodate = c.bUptodate)
    (hfn : c'.requestFn = c.requestFn) : c'.FrameOk f := by
  unfold Cache.FrameOk at h ⊢
  rw [hq, hu, hfn]
  exact h

theorem Cache.ValueOk.congr {c c' : Cache α n} {bh : Fin n} {k : Kind n} (h : c.ValueOk bh k)
    (hq : c'.toQueues = c.toQueues) (hu : c'.bUptodate = c.bUptodate) : c'.ValueOk bh k := by
  unfold Cache.ValueOk at h ⊢
  rw [hq, hu]
  exact h

/-- A frame relies on a buffer to which it has a reference, which it has locked, or which it was
called for. -/
theorem Frame.Relies.cases {f : Frame n} {b : Fin n} (h : f.Relies b) :
    f.refs b ≠ 0 ∨ f.owns b ≠ 0 ∨ f.kind = .transfer .read b ∨ f.kind = .modify b := by
  cases f with
  | getblk dev block pc =>
    cases pc with
    | ret bh => exact .inl (by simp [Frame.refs, show bh = b from h])
    | _ => exact h.elim
  | bread dev block pc =>
    cases pc with
    | got bh | reading bh | wait bh => exact .inl (by simp [Frame.refs, show bh = b from h])
    | _ => exact h.elim
  | makeRequest m rw bh pc =>
    obtain ⟨rfl, rfl | ⟨k, rfl⟩⟩ := h
    · exact .inr (.inr (.inl rfl))
    · exact .inr (.inl (by simp [Frame.owns]))
  | syncInodes pc =>
    cases pc with
    | got bh | modifying bh | release bh => exact .inl (by simp [Frame.refs, show bh = b from h])
    | _ => exact h.elim
  | fileWrite dev blocks pc =>
    cases pc with
    | got bh | copying bh => exact .inl (by simp [Frame.refs, show bh = b from h])
    | _ => exact h.elim
  | modify bh => exact .inr (.inr (.inr (by rw [show bh = b from h]; rfl)))
  | _ => exact h.elim

/-- In a typed stack, a frame is the first call of its process or awaited. -/
theorem Typed.caller {fs : List (Frame n)} (h : Typed fs) {f : Frame n} (hf : f ∈ fs) :
    fs.getLast? = some f ∨ ∃ g ∈ fs, g.awaits f.kind := by
  induction fs with
  | nil => cases hf
  | cons f' fs ih =>
    have ht : Typed fs := h.tail
    rcases List.mem_cons.1 hf with rfl | hf
    · cases fs with
      | nil => exact .inl rfl
      | cons g fs =>
        exact .inr ⟨g, List.mem_cons_of_mem _ List.mem_cons_self, (List.isChain_cons_cons.1 h).1⟩
    · rcases ih ht hf with hl | ⟨g, hg, hk⟩
      · exact .inl (by rw [List.getLast?_cons, hl]; rfl)
      · exact .inr ⟨g, List.mem_cons_of_mem _ hg, hk⟩

theorem stackRefs_pos {fs : List (Frame n)} {f : Frame n} {b : Fin n} (hf : f ∈ fs)
    (h : f.refs b ≠ 0) : 0 < stackRefs b fs :=
  (Nat.pos_of_ne_zero h).trans_le (List.single_le_sum (fun _ _ => Nat.zero_le _) _ (List.mem_map_of_mem hf))

theorem stackOwns_pos {fs : List (Frame n)} {f : Frame n} {b : Fin n} (hf : f ∈ fs)
    (h : f.owns b ≠ 0) : 0 < stackOwns b fs :=
  (Nat.pos_of_ne_zero h).trans_le (List.single_le_sum (fun _ _ => Nat.zero_le _) _ (List.mem_map_of_mem hf))

/-- A frame that waits for a read of `b`, or for its modification, has a reference to it. -/
theorem Frame.awaits_read {g : Frame n} {k : Kind n} {b : Fin n} (h : g.awaits k)
    (hk : k = .transfer .read b ∨ k = .modify b) : g.refs b ≠ 0 := by
  rcases hk with rfl | rfl <;> cases g with
  | bread dev block pc | breada dev first rest pc | syncInodes pc =>
    cases pc <;> first | (cases h; simp [Frame.refs]; done) | simp [Frame.awaits] at h
  | getblk dev block pc | syncDev dev pc | sysSync pc | fileWrite dev blocks pc =>
    cases pc <;> simp [Frame.awaits] at h
  | _ => exact h.elim

/-- A call that a process makes by itself is no read, and modifies a buffer that it holds. -/
def Kind.Entry (hs : List (Held n)) (k : Kind n) : Prop :=
  ∀ b, k ≠ .transfer .read b ∧ (k = .modify b → ∃ h ∈ hs, h.bh = b)

theorem Kind.Bottom.entry {hs : List (Held n)} {k : Kind n} (h : k.Bottom hs) : k.Entry hs := by
  intro b
  refine ⟨?_, ?_⟩
  · rintro rfl
    exact h
  · rintro rfl
    exact h

/-- **A buffer that a process relies on is in use or locked.** -/
theorem relied {fs : List (Frame n)} {hs : List (Held n)} (ht : Typed fs)
    (hb : ∀ f, fs.getLast? = some f → f.kind.Entry hs) {f : Frame n} (hf : f ∈ fs) {b : Fin n}
    (hr : f.Relies b) : 0 < stackRefs b fs + heldRefs b hs + stackOwns b fs := by
  rcases hr.cases with h | h | h
  · have := stackRefs_pos hf h
    omega
  · have := stackOwns_pos hf h
    omega
  rcases ht.caller hf with hl | ⟨g, hg, hk⟩
  · rcases h with h | h
    · exact absurd h (hb f hl b).1
    · obtain ⟨h', hh', he⟩ := (hb f hl b).2 h
      have : 0 < heldRefs b hs := List.countP_pos_iff.2 ⟨h', hh', by simpa using he⟩
      omega
  · have := stackRefs_pos hg (Frame.awaits_read hk h)
    omega

/-! ## Steps -/

/-- Only `getblk` with a victim changes what frames may know. -/
theorem Outcome.known {c c' : Cache α n} {ch : Choice α} {f : Frame n} {nx : Next n}
    (h : Outcome c ch f (c', nx)) :
    c'.requestFn = c.requestFn ∧ (c'.toQueues = c.toQueues ∧ c'.bUptodate = c.bUptodate ∨
      ∃ dev block bh, f = .getblk dev block (.victim bh) ∧
        nx = .goto (.getblk dev block (.ret bh)) ∧ c.Unused bh ∧ c.findBuffer dev block = none ∧
        c.reassign bh dev block = some c') := by
  generalize hr : (c', nx) = r at h
  cases h with
  | reassign hl hc hd hf hm =>
    cases hr
    refine ⟨?_, .inr ⟨_, _, _, rfl, rfl, ⟨hc, hd, hl⟩, hf, hm⟩⟩
    obtain ⟨q, -, rfl⟩ := Cache.reassign_eq_some hm
    rfl
  | _ => cases hr; exact ⟨rfl, .inl ⟨rfl, rfl⟩⟩

/-- How the keys and `b_uptodate` change when `bh` gets another block. -/
theorem Cache.reassign_known {c c' : Cache α n} {bh : Fin n} {dev : Dev} {block : Block}
    (hq : c.toQueues.Inv) (hf : c.findBuffer dev block = none)
    (hm : c.reassign bh dev block = some c') : c'.Carries bh dev block ∧
      ∀ b, b ≠ bh → c'.bDev b = c.bDev b ∧ c'.bBlocknr b = c.bBlocknr b ∧
        c'.bUptodate b = c.bUptodate b := by
  obtain ⟨q, hmove, rfl⟩ := Cache.reassign_eq_some hm
  obtain ⟨q', hmove', -, hdev, hblock⟩ := hq.move hf (b := bh)
  obtain rfl : q = q' := by simpa [hmove] using hmove'
  refine ⟨⟨?_, ?_⟩, fun b hb => ⟨?_, ?_, Function.update_of_ne hb _ _⟩⟩
  · simpa using congrFun hdev bh
  · simpa using congrFun hblock bh
  · simpa [hb] using congrFun hdev b
  · simpa [hb] using congrFun hblock b

/-- What another frame knows stays true, since it relies on no unused buffer. -/
theorem Outcome.frameOk_other {c c' : Cache α n} {ch : Choice α} {f g : Frame n} {nx : Next n}
    (h : Outcome c ch f (c', nx)) (hq : c.toQueues.Inv) (hg : c.FrameOk g)
    (hr : ∀ bh, c.Unused bh → ¬ g.Relies bh) : c'.FrameOk g := by
  obtain ⟨hfn, ⟨hqu, hu⟩ | ⟨dev, block, bh, -, -, hun, hf, hm⟩⟩ := h.known
  · exact hg.congr hqu hu hfn
  · exact hg.of_not_relies hfn (Cache.reassign_known hq hf hm).2 (hr bh hun)

/-- What the new frames know after a step. -/
theorem Outcome.frameOk {c c' : Cache α n} {ch : Choice α} {f : Frame n} {nx : Next n}
    (h : Outcome c ch f (c', nx)) (hq : c.toQueues.Inv) (hf : c.FrameOk f)
    (hd : ∀ b, c.bDirt b = true → c.bUptodate b = true) : ∀ g ∈ nx.frames, c'.FrameOk g := by
  -- what a frame does next when the cache stays as it is
  have hquiet : nx.Ok c f.kind → c'.toQueues = c.toQueues → c'.bUptodate = c.bUptodate →
      c'.requestFn = c.requestFn → ∀ g ∈ nx.frames, c'.FrameOk g := by
    intro hok h1 h2 h3 g hg
    cases nx with
    | goto f | sleep f =>
      obtain rfl := List.mem_singleton.1 hg
      exact Cache.FrameOk.congr hok h1 h2 h3
    | call f' g' =>
      rcases List.mem_cons.1 hg with rfl | hg
      · exact Cache.FrameOk.congr hok.2 h1 h2 h3
      · obtain rfl := List.mem_singleton.1 hg
        exact Cache.FrameOk.congr hok.1 h1 h2 h3
    | ret | panic => cases hg
  generalize hr : (c', nx) = r at h
  cases h with
  | quiet hqt => cases hr; exact hquiet (hqt.ok hf) rfl rfl rfl
  | drop bh hqt => cases hr; exact hquiet (hqt.ok hf) rfl rfl rfl
  | take hfind => cases hr; exact hquiet trivial rfl rfl rfl
  | reassign hl hc hdt hfind hm =>
    cases hr
    intro g hg
    obtain rfl := List.mem_singleton.1 hg
    exact (Cache.reassign_known hq hfind hm).1
  | @lock m rw bh hl hg =>
    cases hr
    refine hquiet ⟨hf.1, fun k _ => ⟨fun hu => ?_, fun hw => ?_⟩⟩ rfl rfl rfl
    · cases hcmd : rw.cmd with
      | read => exact absurd (.inr ⟨hcmd, hu⟩) hg
      | write => rfl
    · refine hd bh ?_
      by_contra hbd
      exact hg (.inl ⟨hw, by simpa using hbd⟩)
  | unlock | enqueue | dirty => cases hr; simp [Next.frames]
  | store => cases hr; exact hquiet hf rfl rfl rfl
  | mark => cases hr; exact hquiet hf rfl rfl rfl
  | copied => cases hr; exact hquiet ⟨trivial, trivial⟩ rfl rfl rfl

/-- A caller knows what it is returned. -/
theorem Frame.receive_ok {c : Cache α n} {g : Frame n} {k : Kind n} {v : Option (Fin n)}
    (hk : g.awaits k) (hg : c.FrameOk g) (hv : ∀ bh, v = some bh → c.ValueOk bh k) :
    c.FrameOk (g.receive v) := by
  cases g with
  | getblk dev block pc =>
    cases pc with
    | hash =>
      cases hk
      cases v with
      | some bh => exact hv bh rfl
      | none => trivial
    | sync bh => trivial
    | _ => exact hk.elim
  | bread dev block pc =>
    cases pc with
    | getblk =>
      cases hk
      cases v with
      | some bh => exact hv bh rfl
      | none => trivial
    | reading bh => exact hg
    | releasing => trivial
    | _ => exact hk.elim
  | breada dev first rest pc =>
    cases pc with
    | getblk | getAhead => cases v <;> trivial
    | _ => first | exact hk.elim | trivial
  | syncDev dev pc => cases pc <;> trivial
  | sysSync pc => cases pc <;> trivial
  | syncInodes pc =>
    cases pc with
    | reading =>
      obtain ⟨dev, block, rfl⟩ := hk
      cases v with
      | some bh => exact (hv bh rfl).2
      | none => trivial
    | modifying bh => exact hg
    | releasing => trivial
    | _ => exact hk.elim
  | fileWrite dev blocks pc =>
    cases pc with
    | reading =>
      obtain ⟨block, rfl⟩ := hk
      cases v with
      | some bh => exact (hv bh rfl).2
      | none => trivial
    | releasing => trivial
    | _ => exact hk.elim
  | _ => exact hk.elim

/-- The first call of a process stays the same call. -/
theorem Continues.getLast {f g : Frame n} {nx : Next n} {fs fs' : List (Frame n)}
    (hc : Continues nx fs fs') (hk : nx.Keeps f.kind) (hg : fs'.getLast? = some g) :
    ∃ g', (f :: fs).getLast? = some g' ∧ g.kind = g'.kind := by
  have hlast : ∀ {f f' : Frame n}, f'.kind = f.kind → ∀ {fs : List (Frame n)} {g : Frame n},
      (f' :: fs).getLast? = some g → ∃ g', (f :: fs).getLast? = some g' ∧ g.kind = g'.kind := by
    intro f f' hk fs g hg
    rw [List.getLast?_cons] at hg ⊢
    cases hl : fs.getLast? with
    | none =>
      obtain rfl : f' = g := by simpa [hl] using hg
      exact ⟨f, by simp, hk⟩
    | some x =>
      obtain rfl : x = g := by simpa [hl] using hg
      exact ⟨x, by simp, rfl⟩
  cases hc with
  | goto f' | sleep f' => exact hlast hk hg
  | call f' g' => exact hlast hk.1 (by simpa [List.getLast?_cons] using hg)
  | finish v => cases hg
  | ret v g' fs =>
    obtain ⟨g'', h1, h2⟩ := hlast (Frame.receive_kind v g') hg
    exact ⟨g'', by simpa [List.getLast?_cons] using h1, h2⟩

end Linux011.Buffer
