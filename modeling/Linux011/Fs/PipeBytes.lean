import Linux011.Fs.Pipe

/-!
# The bytes in a pipe

`Flow`: the ring holds the bytes that were sent and not claimed, each at its number modulo the size of
the page, except those that a writer still has to store; a byte that a reader still has to copy is in
its place, too. One lemma for each step that claims a chunk or copies a byte (`Flow.claimRead`,
`Flow.claimWrite`, `Flow.copyRead`, `Flow.copyWrite`); all others are `Flow.quiet`.
-/

namespace Linux011.Pipe

variable {ι : Type*} [DecidableEq ι]

/-! ## The bytes -/

/-- Byte `k` is one that the call, on the given end, has claimed and not copied. -/
def Proc.Pends (pr : Proc) (side : End) (k : ℕ) : Prop :=
  pr.side = side ∧ pr.pos ≤ k ∧ k < pr.pos + pr.left

def State.Pending (s : State ι) (side : End) (k : ℕ) : Prop :=
  ∃ p, ∃ pr ∈ s.proc p, pr.Pends side k

/-- What a call relies on. -/
structure Proc.Ok (s : State ι) (pr : Proc) : Prop where
  sum : pr.moved + pr.count = pr.want
  index : ∀ size left, pr.pc = .copy size left → size + left ≤ 4096 ∧
    (0 < left → size = pr.pos % 4096)
  /-- The bytes that are in the pipe were all sent to it within a page of the start of the chunk. -/
  claimed : pr.side = .read → 0 < pr.left → pr.pos + pr.left ≤ s.claimed ∧
    ∃ first ≤ pr.pos, pr.start = first % 4096 ∧ s.sent.length ≤ first + 4095
  /-- No byte of the chunk has been claimed. -/
  sent : pr.side = .write → 0 < pr.left → pr.pos + pr.left ≤ s.sent.length ∧
    ∃ first ≤ pr.pos, pr.start = first % 4096 ∧ s.claimed ≤ first
  rest : pr.side = .write → pr.pc.isDone = false → pr.rest.length = pr.left + pr.count ∧
    ∀ k < pr.left, s.sent[pr.pos + k]? = pr.rest[k]?

/-- The ring holds what was sent and not claimed, but for the bytes that calls still have to copy. -/
structure Flow (s : State ι) : Prop where
  head : s.inode.head = s.sent.length % 4096
  tail : s.inode.tail = s.claimed % 4096
  le : s.claimed ≤ s.sent.length
  room : s.sent.length ≤ s.claimed + 4095
  ok : ∀ p, ∀ pr ∈ s.proc p, pr.Ok s
  apart : ∀ p q, p ≠ q → ∀ pr ∈ s.proc p, ∀ qr ∈ s.proc q, ∀ side k, pr.Pends side k →
    ¬ qr.Pends side k
  cross : ∀ j k, s.Pending .read j → s.Pending .write k → j % 4096 ≠ k % 4096
  stored : ∀ k b, s.sent[k]? = some b → s.claimed ≤ k ∨ s.Pending .read k →
    ¬ s.Pending .write k → s.inode.page (k % 4096) = b
  log : ∀ e ∈ s.log, s.sent[e.1]? = some e.2
  mem_log : ∀ k, k ∈ s.log.map Prod.fst ↔ k < s.claimed ∧ ¬ s.Pending .read k
  nodup : (s.log.map Prod.fst).Nodup

variable {s s' : State ι} {p q : ι} {pr pr' qr : Proc} {side : End} {k : ℕ}

omit [DecidableEq ι] in
theorem Flow.size_eq (h : Flow s) : s.inode.size = s.sent.length - s.claimed := by
  have h1 := h.head
  have h2 := h.tail
  have h3 := h.le
  have h4 := h.room
  unfold Inode.size
  omega

/-- A call other than that of `p` has claimed byte `k` and not copied it. -/
def State.Others (s : State ι) (p : ι) (side : End) (k : ℕ) : Prop :=
  ∃ q, q ≠ p ∧ ∃ qr ∈ s.proc q, qr.Pends side k

theorem pending_iff (hp : s.proc p = some pr) :
    s.Pending side k ↔ pr.Pends side k ∨ s.Others p side k := by
  constructor
  · rintro ⟨q, qr, hq, hk⟩
    by_cases hqp : q = p
    · subst hqp
      rw [hp] at hq
      exact .inl (Option.some.inj hq ▸ hk)
    · exact .inr ⟨q, hqp, qr, hq, hk⟩
  · rintro (hk | ⟨q, -, qr, hq, hk⟩)
    · exact ⟨p, pr, hp, hk⟩
    · exact ⟨q, qr, hq, hk⟩

omit [DecidableEq ι] in
theorem pending_iff_of_left (hp : ∀ pr ∈ s.proc p, pr.left = 0) :
    s.Pending side k ↔ s.Others p side k := by
  constructor
  · rintro ⟨q, qr, hq, hk⟩
    refine ⟨q, ?_, qr, hq, hk⟩
    rintro rfl
    obtain ⟨-, h1, h2⟩ := hk
    rw [hp qr hq] at h2
    omega
  · rintro ⟨q, -, qr, hq, hk⟩
    exact ⟨q, qr, hq, hk⟩

theorem setProc_self : (s.setProc p pr).proc p = some pr := by
  simp [State.setProc]

theorem setProc_of_ne (h : q ≠ p) : (s.setProc p pr).proc q = s.proc q := by
  simp [State.setProc, h]

/-- The process of a call after the call of `p` has changed. -/
theorem proc_cases (h : s'.proc = (s.setProc p pr').proc) (hq : s'.proc q = some qr) :
    (q = p ∧ qr = pr') ∨ (q ≠ p ∧ s.proc q = some qr) := by
  rw [h] at hq
  by_cases hqp : q = p
  · subst hqp
    rw [setProc_self] at hq
    exact .inl ⟨rfl, (Option.some.inj hq).symm⟩
  · rw [setProc_of_ne hqp] at hq
    exact .inr ⟨hqp, hq⟩

theorem pending_setProc (h : s'.proc = (s.setProc p pr').proc) :
    s'.Pending side k ↔ pr'.Pends side k ∨ s.Others p side k := by
  have hp : s'.proc p = some pr' := by rw [h, setProc_self]
  rw [pending_iff hp]
  refine or_congr_right ⟨?_, ?_⟩
  · rintro ⟨q, hqp, qr, hq, hk⟩
    rw [Option.mem_def, h, setProc_of_ne hqp] at hq
    exact ⟨q, hqp, qr, hq, hk⟩
  · rintro ⟨q, hqp, qr, hq, hk⟩
    refine ⟨q, hqp, qr, ?_, hk⟩
    rw [Option.mem_def, h, setProc_of_ne hqp]
    exact hq

theorem Proc.not_pends (h : pr.left = 0) : ¬ pr.Pends side k := by
  rintro ⟨-, h1, h2⟩
  omega

/-- Two calls stay apart when one of them changes to what is apart from the others. -/
theorem Flow.apart_setProc (h : Flow s) (hproc : s'.proc = (s.setProc p pr').proc)
    (hnew : ∀ side k, pr'.Pends side k → ¬ s.Others p side k) :
    ∀ p q, p ≠ q → ∀ pr ∈ s'.proc p, ∀ qr ∈ s'.proc q, ∀ side k, pr.Pends side k →
      ¬ qr.Pends side k := by
  intro a b hab ar har br hbr side k hak hbk
  rcases proc_cases hproc har with ⟨hap, rfl⟩ | ⟨hap, har⟩
  · rcases proc_cases hproc hbr with ⟨hbp, -⟩ | ⟨hbp, hbr⟩
    · exact hab (hap.trans hbp.symm)
    · exact hnew side k hak ⟨b, hbp, br, hbr, hbk⟩
  · rcases proc_cases hproc hbr with ⟨-, rfl⟩ | ⟨hbp, hbr⟩
    · exact hnew side k hbk ⟨a, hap, ar, har, hak⟩
    · exact h.apart a b hab ar har br hbr side k hak hbk

omit [DecidableEq ι] in
theorem Proc.Ok.congr (h : qr.Ok s) (hsent : s'.sent = s.sent) (hclaimed : s'.claimed = s.claimed) :
    qr.Ok s' :=
  ⟨h.sum, h.index, by rw [hclaimed, hsent]; exact h.claimed, by rw [hclaimed, hsent]; exact h.sent,
    by rw [hsent]; exact h.rest⟩

omit [DecidableEq ι] in
/-- A step that claims and copies nothing: only calls between two chunks change. -/
theorem Flow.quiet (h : Flow s)
    (hnew : ∀ q, ∀ qr ∈ s'.proc q, qr ∈ s.proc q ∨ qr.left = 0 ∧ qr.Ok s)
    (hold : ∀ q, ∀ qr ∈ s.proc q, qr ∈ s'.proc q ∨ qr.left = 0)
    (hinode : s'.inode.page = s.inode.page ∧ s'.inode.head = s.inode.head ∧
      s'.inode.tail = s.inode.tail) (hsent : s'.sent = s.sent) (hclaimed : s'.claimed = s.claimed)
    (hlog : s'.log = s.log) : Flow s' := by
  have hback : ∀ q, ∀ qr ∈ s'.proc q, ∀ side k, qr.Pends side k → qr ∈ s.proc q := by
    intro q qr hq side k hk
    exact (hnew q qr hq).resolve_right fun h => Proc.not_pends h.1 hk
  have hpending : ∀ side k, s'.Pending side k ↔ s.Pending side k := by
    intro side k
    constructor
    · rintro ⟨q, qr, hq, hk⟩
      exact ⟨q, qr, hback q qr hq side k hk, hk⟩
    · rintro ⟨q, qr, hq, hk⟩
      exact ⟨q, qr, (hold q qr hq).resolve_right fun h => Proc.not_pends h hk, hk⟩
  obtain ⟨hpage, hhead, htail⟩ := hinode
  refine ⟨by rw [hhead, hsent]; exact h.head, by rw [htail, hclaimed]; exact h.tail,
    by rw [hclaimed, hsent]; exact h.le, by rw [hclaimed, hsent]; exact h.room, ?_, ?_, ?_, ?_, ?_,
    ?_, by rw [hlog]; exact h.nodup⟩
  · intro q qr hq
    have hok : qr.Ok s := by
      rcases hnew q qr hq with hq | ⟨-, hq⟩
      · exact h.ok q qr hq
      · exact hq
    exact hok.congr hsent hclaimed
  · intro a b hab ar har br hbr side k hak hbk
    exact h.apart a b hab ar (hback a ar har side k hak) br (hback b br hbr side k hbk) side k hak hbk
  · intro j k hj hk
    exact h.cross j k ((hpending _ _).1 hj) ((hpending _ _).1 hk)
  · intro k b hb hk hnot
    rw [hpending] at hk hnot
    rw [hclaimed] at hk
    rw [hsent] at hb
    rw [hpage]
    exact h.stored k b hb hk hnot
  · rw [hlog, hsent]
    exact h.log
  · intro k
    rw [hlog, hclaimed, hpending]
    exact h.mem_log k

/-- The call of a process goes on without claiming or copying anything. -/
theorem Flow.setProc (h : Flow s) (hold : ∀ pr ∈ s.proc p, pr.left = 0) (hleft : pr'.left = 0)
    (hok : pr'.Ok s) : Flow (s.setProc p pr') := by
  refine h.quiet (fun q qr hq => ?_) (fun q qr hq => ?_) ⟨rfl, rfl, rfl⟩ rfl rfl rfl
  · rcases proc_cases rfl hq with ⟨-, rfl⟩ | ⟨-, hq⟩
    · exact .inr ⟨hleft, hok⟩
    · exact .inl hq
  · by_cases hqp : q = p
    · exact .inr (hold qr (hqp ▸ hq))
    · exact .inl ((setProc_of_ne hqp).trans hq)

/-! ## A chunk is claimed -/

omit [DecidableEq ι] in
theorem State.Others.pending (h : s.Others p side k) : s.Pending side k := by
  obtain ⟨q, -, qr, hq, hk⟩ := h
  exact ⟨q, qr, hq, hk⟩

omit [DecidableEq ι] in
theorem Flow.claimed_of_pending (h : Flow s) (hk : s.Pending .read k) : k < s.claimed := by
  obtain ⟨q, qr, hq, hqs, h1, h2⟩ := hk
  have := ((h.ok q qr hq).claimed hqs (by omega)).1
  omega

omit [DecidableEq ι] in
theorem Flow.sent_of_pending (h : Flow s) (hk : s.Pending .write k) : k < s.sent.length := by
  obtain ⟨q, qr, hq, hqs, h1, h2⟩ := hk
  have := ((h.ok q qr hq).sent hqs (by omega)).1
  omega

omit [DecidableEq ι] in
/-- What another call relies on, when more is sent. -/
theorem Proc.Ok.of_sent {bs : List Byte} (h : qr.Ok s) (hclaimed : s'.claimed = s.claimed)
    (hsent : s'.sent = s.sent ++ bs) (hread : qr.side = .read → 0 < qr.left →
      ∃ first ≤ qr.pos, qr.start = first % 4096 ∧ s'.sent.length ≤ first + 4095) : qr.Ok s' := by
  refine ⟨h.sum, h.index, fun hr hl => ?_, fun hw hl => ?_, fun hw hd => ?_⟩
  · rw [hclaimed]
    exact ⟨(h.claimed hr hl).1, hread hr hl⟩
  · obtain ⟨h1, h2⟩ := h.sent hw hl
    rw [hclaimed, hsent, List.length_append]
    exact ⟨h1.trans (Nat.le_add_right _ _), h2⟩
  · obtain ⟨h1, h2⟩ := h.rest hw hd
    refine ⟨h1, fun k hk => ?_⟩
    have := (h.sent hw (by omega)).1
    rw [hsent, List.getElem?_append_left (by omega)]
    exact h2 k hk

omit [DecidableEq ι] in
/-- What another call relies on, when more is claimed. -/
theorem Proc.Ok.of_claimed (h : qr.Ok s) (hsent : s'.sent = s.sent) (hle : s.claimed ≤ s'.claimed)
    (hwrite : qr.side = .write → 0 < qr.left →
      ∃ first ≤ qr.pos, qr.start = first % 4096 ∧ s'.claimed ≤ first) : qr.Ok s' := by
  refine ⟨h.sum, h.index, fun hr hl => ?_, fun hw hl => ?_, by rw [hsent]; exact h.rest⟩
  · obtain ⟨h1, h2⟩ := h.claimed hr hl
    rw [hsent]
    exact ⟨h1.trans hle, h2⟩
  · rw [hsent]
    exact ⟨(h.sent hw hl).1, hwrite hw hl⟩

/-- A process claims the bytes from `first` on. -/
structure Proc.Claims (pr pr' : Proc) (first chars : ℕ) : Prop where
  side : pr'.side = pr.side
  pos : pr'.pos = first
  old : pr.left = 0
  new : pr'.left = chars

namespace Proc.Claims

variable {first chars : ℕ}

theorem pends (h : pr.Claims pr' first chars) :
    pr'.Pends side k ↔ pr.side = side ∧ first ≤ k ∧ k < first + chars := by
  unfold Proc.Pends
  rw [h.side, h.pos, h.new]

omit [DecidableEq ι] in
theorem idle (h : pr.Claims pr' first chars) (hp : s.proc p = some pr) :
    ∀ ar ∈ s.proc p, ar.left = 0 := by
  intro ar har
  rw [hp] at har
  exact Option.some.inj har ▸ h.old

/-- These bytes are pending, too. -/
theorem pending (h : pr.Claims pr' first chars) (hp : s.proc p = some pr)
    (hproc : s'.proc = (s.setProc p pr').proc) :
    s'.Pending pr.side k ↔ (first ≤ k ∧ k < first + chars) ∨ s.Pending pr.side k := by
  rw [pending_setProc hproc, pending_iff_of_left (h.idle hp), h.pends]
  exact or_congr_left (and_iff_right rfl)

theorem pending_of_ne (h : pr.Claims pr' first chars) (hp : s.proc p = some pr)
    (hproc : s'.proc = (s.setProc p pr').proc) (hside : pr.side ≠ side) :
    s'.Pending side k ↔ s.Pending side k := by
  rw [pending_setProc hproc, pending_iff_of_left (h.idle hp), h.pends, or_iff_right]
  exact fun hk => hside hk.1

theorem apart (h : pr.Claims pr' first chars) (hs : Flow s)
    (hproc : s'.proc = (s.setProc p pr').proc) (hlt : ∀ k, s.Pending pr.side k → k < first) :
    ∀ p q, p ≠ q → ∀ pr ∈ s'.proc p, ∀ qr ∈ s'.proc q, ∀ side k, pr.Pends side k →
      ¬ qr.Pends side k := by
  refine hs.apart_setProc hproc fun side k hk hother => ?_
  obtain ⟨rfl, h1, -⟩ := h.pends.1 hk
  have := hlt k hother.pending
  omega

end Proc.Claims

omit [DecidableEq ι] in
/-- A chunk that is taken ends before the chunk of a suspended writer. -/
theorem Flow.claimed_before (h : Flow s) {chars : ℕ}
    (hclear : chars ≤ Inode.size { s.inode with head := qr.start }) (hq : s.proc q = some qr)
    (hside : qr.side = .write) (hleft : 0 < qr.left) :
    ∃ first ≤ qr.pos, qr.start = first % 4096 ∧ s.claimed + chars ≤ first := by
  obtain ⟨hsent, first, hfirst, hstart, hclaimed⟩ := (h.ok q qr hq).sent hside hleft
  refine ⟨first, hfirst, hstart, ?_⟩
  have htail := h.tail
  have hroom := h.room
  unfold Inode.size at hclear
  dsimp only at hclear
  omega

omit [DecidableEq ι] in
/-- There is room for a chunk before the place of the chunk of a suspended reader. -/
theorem Flow.sent_before (h : Flow s) {chars : ℕ}
    (hclear : chars ≤ 4095 - Inode.size { s.inode with tail := qr.start }) (hq : s.proc q = some qr)
    (hside : qr.side = .read) (hleft : 0 < qr.left) :
    ∃ first ≤ qr.pos, qr.start = first % 4096 ∧ s.sent.length + chars ≤ first + 4095 := by
  obtain ⟨hclaimed, first, hfirst, hstart, hsent⟩ := (h.ok q qr hq).claimed hside hleft
  refine ⟨first, hfirst, hstart, ?_⟩
  have hhead := h.head
  have hle := h.le
  have hroom := h.room
  unfold Inode.size at hclear
  dsimp only at hclear
  omega

omit [DecidableEq ι] in
/-- What `read_pipe` relies on when it has taken a chunk. -/
theorem Flow.ok_claimRead (h : Flow s) (hp : s.proc p = some pr) (hside : pr.side = .read) {chars : ℕ}
    (hpage : chars ≤ 4096 - s.inode.tail) (hcount : chars ≤ pr.count) (hsent : s'.sent = s.sent)
    (hclaimed : s'.claimed = s.claimed + chars) :
    Proc.Ok s' { pr with
      count := pr.count - chars, moved := pr.moved + chars, pc := .copy s.inode.tail chars,
      pos := s.claimed, start := s.inode.tail } := by
  have hsum := (h.ok p pr hp).sum
  have htail := h.tail
  refine ⟨show pr.moved + chars + (pr.count - chars) = pr.want by omega, ?_, ?_, ?_, ?_⟩
  · intro size left hcopy
    cases hcopy
    exact ⟨by omega, fun _ => htail⟩
  · intro _ _
    rw [hclaimed, hsent]
    exact ⟨le_rfl, s.claimed, le_rfl, htail, h.room⟩
  · intro hw _
    exact absurd (hside.symm.trans hw) (by decide)
  · intro hw _
    exact absurd (hside.symm.trans hw) (by decide)

omit [DecidableEq ι] in
/-- What `write_pipe` relies on when it has made room for a chunk. -/
theorem Flow.ok_claimWrite (h : Flow s) (hp : s.proc p = some pr) (hside : pr.side = .write)
    {chars : ℕ} (hpage : chars ≤ 4096 - s.inode.head) (hcount : chars ≤ pr.count)
    (hrest : pr.rest.length = pr.count) (hsent : s'.sent = s.sent ++ pr.rest.take chars)
    (hclaimed : s'.claimed = s.claimed) :
    Proc.Ok s' { pr with
      count := pr.count - chars, moved := pr.moved + chars, pc := .copy s.inode.head chars,
      pos := s.sent.length, start := s.inode.head } := by
  have hsum := (h.ok p pr hp).sum
  have hhead := h.head
  refine ⟨show pr.moved + chars + (pr.count - chars) = pr.want by omega, ?_, ?_, ?_, ?_⟩
  · intro size left hcopy
    cases hcopy
    exact ⟨by omega, fun _ => hhead⟩
  · intro hr _
    exact absurd (hside.symm.trans hr) (by decide)
  · intro _ _
    rw [hsent, List.length_append, List.length_take, hrest, min_eq_left hcount, hclaimed]
    exact ⟨le_rfl, s.sent.length, le_rfl, hhead, h.le⟩
  · intro _ _
    refine ⟨show pr.rest.length = chars + (pr.count - chars) by omega, fun k hk => ?_⟩
    change k < chars at hk
    show s'.sent[s.sent.length + k]? = pr.rest[k]?
    rw [hsent, List.getElem?_append_right (by omega), Nat.add_sub_cancel_left,
      List.getElem?_take_of_lt hk]

/-- `read_pipe` claims a chunk. -/
theorem Flow.claimRead (h : Flow s) (hp : s.proc p = some pr) (hside : pr.side = .read)
    (hpc : pr.pc = .test) {chars : ℕ}
    (hchars : chars = chunk s.inode.tail pr.count s.inode.size)
    (hclear : ∀ q, ∀ qr ∈ s.proc q, qr.side = .write → 0 < qr.left →
      chars ≤ Inode.size { s.inode with head := qr.start }) :
    Flow { s.setProc p { pr with
        count := pr.count - chars, moved := pr.moved + chars, pc := .copy s.inode.tail chars,
        pos := s.claimed, start := s.inode.tail } with
      inode := { s.inode with tail := (s.inode.tail + chars) % 4096 }
      claimed := s.claimed + chars } := by
  obtain ⟨pr', hpr'⟩ : ∃ pr', pr' = { pr with
    count := pr.count - chars, moved := pr.moved + chars, pc := Pc.copy s.inode.tail chars,
    pos := s.claimed, start := s.inode.tail } := ⟨_, rfl⟩
  obtain ⟨s', hs'⟩ : ∃ s', s' = { s.setProc p pr' with
    inode := { s.inode with tail := (s.inode.tail + chars) % 4096 }
    claimed := s.claimed + chars } := ⟨_, rfl⟩
  have hproc : s'.proc = (s.setProc p pr').proc := by rw [hs']
  have hsize := h.size_eq
  have htail := h.tail
  have hle := h.le
  have hroom := h.room
  have hc1 : chars ≤ 4096 - s.inode.tail := by rw [hchars]; unfold chunk; omega
  have hc2 : chars ≤ pr.count := by rw [hchars]; unfold chunk; omega
  have hc3 : chars ≤ s.inode.size := by rw [hchars]; unfold chunk; omega
  have hc : pr.Claims pr' s.claimed chars := by
    rw [hpr']
    exact ⟨rfl, rfl, by simp [Proc.left, hpc], rfl⟩
  have hbefore : ∀ q, ∀ qr ∈ s.proc q, qr.side = .write → 0 < qr.left →
      ∃ first ≤ qr.pos, qr.start = first % 4096 ∧ s.claimed + chars ≤ first := fun q qr hq hqs hql =>
    h.claimed_before (hclear q qr hq hqs hql) hq hqs hql
  have hread : ∀ k, s'.Pending .read k ↔
      (s.claimed ≤ k ∧ k < s.claimed + chars) ∨ s.Pending .read k := fun k =>
    hside ▸ hc.pending hp hproc
  have hwrite : ∀ k, s'.Pending .write k ↔ s.Pending .write k := fun k =>
    hc.pending_of_ne hp hproc (by rw [hside]; decide)
  rw [← hpr', ← hs']
  have hsent : s'.sent = s.sent := by rw [hs']; rfl
  have hclaimed : s'.claimed = s.claimed + chars := by rw [hs']
  have hlog : s'.log = s.log := by rw [hs']; rfl
  have hpage : s'.inode.page = s.inode.page := by rw [hs']
  refine ⟨?_, ?_, ?_, ?_, fun q qr hq => ?_, ?_, fun j k hj hk => ?_, fun k b hb hk hnot => ?_, ?_,
    fun k => ?_, by rw [hlog]; exact h.nodup⟩
  · rw [hsent, hs']
    exact h.head
  · rw [hclaimed, hs']
    show (s.inode.tail + chars) % 4096 = _
    omega
  · rw [hclaimed, hsent]
    omega
  · rw [hclaimed, hsent]
    omega
  · rcases proc_cases hproc hq with ⟨-, rfl⟩ | ⟨-, hq⟩
    · rw [hpr']
      exact h.ok_claimRead hp hside hc1 hc2 hsent hclaimed
    · refine (h.ok q qr hq).of_claimed hsent (by omega) fun hw hl => ?_
      rw [hclaimed]
      exact hbefore q qr hq hw hl
  · exact hc.apart h hproc fun k hk => h.claimed_of_pending (hside ▸ hk)
  · rw [hwrite] at hk
    rcases (hread j).1 hj with ⟨h1, h2⟩ | hj
    · obtain ⟨q, qr, hq, hqs, h3, h4⟩ := hk
      have := ((h.ok q qr hq).sent hqs (by omega)).1
      obtain ⟨first, hfirst, -, hlt⟩ := hbefore q qr hq hqs (by omega)
      omega
    · exact h.cross j k hj hk
  · rw [hsent] at hb
    rw [hwrite] at hnot
    rw [hpage]
    refine h.stored k b hb ?_ hnot
    rcases hk with hk | hk
    · exact .inl (by omega)
    · exact ((hread k).1 hk).imp_left And.left
  · rw [hlog, hsent]
    exact h.log
  · rw [hlog, hread, hclaimed, h.mem_log]
    constructor
    · rintro ⟨h1, h2⟩
      exact ⟨by omega, by rintro (⟨h3, -⟩ | h3); omega; exact h2 h3⟩
    · rintro ⟨h1, h2⟩
      exact ⟨by by_contra h3; exact h2 (.inl ⟨by omega, h1⟩), fun h3 => h2 (.inr h3)⟩

/-- `write_pipe` makes room for a chunk. -/
theorem Flow.claimWrite (h : Flow s) (hp : s.proc p = some pr) (hside : pr.side = .write)
    (hpc : pr.pc = .test) {chars : ℕ}
    (hchars : chars = chunk s.inode.head pr.count (4095 - s.inode.size))
    (hclear : ∀ q, ∀ qr ∈ s.proc q, qr.side = .read → 0 < qr.left →
      chars ≤ 4095 - Inode.size { s.inode with tail := qr.start }) :
    Flow { s.setProc p { pr with
        count := pr.count - chars, moved := pr.moved + chars, pc := .copy s.inode.head chars,
        pos := s.sent.length, start := s.inode.head } with
      inode := { s.inode with head := (s.inode.head + chars) % 4096 }
      sent := s.sent ++ pr.rest.take chars } := by
  obtain ⟨pr', hpr'⟩ : ∃ pr', pr' = { pr with
    count := pr.count - chars, moved := pr.moved + chars, pc := Pc.copy s.inode.head chars,
    pos := s.sent.length, start := s.inode.head } := ⟨_, rfl⟩
  obtain ⟨s', hs'⟩ : ∃ s', s' = { s.setProc p pr' with
    inode := { s.inode with head := (s.inode.head + chars) % 4096 }
    sent := s.sent ++ pr.rest.take chars } := ⟨_, rfl⟩
  have hproc : s'.proc = (s.setProc p pr').proc := by rw [hs']
  have hsize := h.size_eq
  have hhead := h.head
  have hle := h.le
  have hroom := h.room
  have hok := h.ok p pr hp
  have hc1 : chars ≤ 4096 - s.inode.head := by rw [hchars]; unfold chunk; omega
  have hc2 : chars ≤ pr.count := by rw [hchars]; unfold chunk; omega
  have hc3 : chars ≤ 4095 - s.inode.size := by rw [hchars]; unfold chunk; omega
  have hc : pr.Claims pr' s.sent.length chars := by
    rw [hpr']
    exact ⟨rfl, rfl, by simp [Proc.left, hpc], rfl⟩
  have hrest : pr.rest.length = pr.count := by
    have := (hok.rest hside (by rw [hpc]; rfl)).1
    have := hc.old
    omega
  have hbefore : ∀ q, ∀ qr ∈ s.proc q, qr.side = .read → 0 < qr.left →
      ∃ first ≤ qr.pos, qr.start = first % 4096 ∧ s.sent.length + chars ≤ first + 4095 :=
    fun q qr hq hqs hql => h.sent_before (hclear q qr hq hqs hql) hq hqs hql
  have hwrite : ∀ k, s'.Pending .write k ↔
      (s.sent.length ≤ k ∧ k < s.sent.length + chars) ∨ s.Pending .write k := fun k =>
    hside ▸ hc.pending hp hproc
  have hread : ∀ k, s'.Pending .read k ↔ s.Pending .read k := fun k =>
    hc.pending_of_ne hp hproc (by rw [hside]; decide)
  rw [← hpr', ← hs']
  have hsent : s'.sent = s.sent ++ pr.rest.take chars := by rw [hs']
  have hlength : s'.sent.length = s.sent.length + chars := by
    rw [hsent, List.length_append, List.length_take, hrest, min_eq_left hc2]
  have hget : ∀ k < s.sent.length, s'.sent[k]? = s.sent[k]? := by
    intro k hk
    rw [hsent, List.getElem?_append_left hk]
  have hclaimed : s'.claimed = s.claimed := by rw [hs']; rfl
  have hlog : s'.log = s.log := by rw [hs']; rfl
  have hpage : s'.inode.page = s.inode.page := by rw [hs']
  refine ⟨?_, ?_, ?_, ?_, fun q qr hq => ?_, ?_, fun j k hj hk => ?_, fun k b hb hk hnot => ?_,
    fun e he => ?_, fun k => ?_, by rw [hlog]; exact h.nodup⟩
  · rw [hlength, hs']
    show (s.inode.head + chars) % 4096 = _
    omega
  · rw [hclaimed, hs']
    exact h.tail
  · rw [hclaimed, hlength]
    omega
  · rw [hclaimed, hlength]
    omega
  · rcases proc_cases hproc hq with ⟨-, rfl⟩ | ⟨-, hq⟩
    · rw [hpr']
      exact h.ok_claimWrite hp hside hc1 hc2 hrest hsent hclaimed
    · refine (h.ok q qr hq).of_sent hclaimed hsent fun hr hl => ?_
      rw [hlength]
      exact hbefore q qr hq hr hl
  · exact hc.apart h hproc fun k hk => h.sent_of_pending (hside ▸ hk)
  · rw [hread] at hj
    rcases (hwrite k).1 hk with ⟨h1, h2⟩ | hk
    · obtain ⟨q, qr, hq, hqs, h3, h4⟩ := hj
      have := ((h.ok q qr hq).claimed hqs (by omega)).1
      obtain ⟨first, hfirst, -, hlt⟩ := hbefore q qr hq hqs (by omega)
      omega
    · exact h.cross j k hj hk
  · rw [hclaimed, hread] at hk
    have hklt : k < s'.sent.length := (List.getElem?_eq_some_iff.1 hb).1
    have hlt : k < s.sent.length := by
      by_contra hge
      exact hnot ((hwrite k).2 (.inl ⟨by omega, by omega⟩))
    rw [hget k hlt] at hb
    rw [hpage]
    exact h.stored k b hb hk fun hw => hnot ((hwrite k).2 (.inr hw))
  · rw [hlog] at he
    have he' := h.log e he
    rw [hget _ (List.getElem?_eq_some_iff.1 he').1]
    exact he'
  · rw [hlog, hread, hclaimed]
    exact h.mem_log k

/-- A process has moved the byte at its position. -/
structure Proc.Copies (pr pr' : Proc) (size left : ℕ) : Prop where
  side : pr'.side = pr.side
  pos : pr'.pos = pr.pos + 1
  old : pr.pc = .copy size (left + 1)
  new : pr'.pc = .copy (size + 1) left

namespace Proc.Copies

variable {size left : ℕ}

theorem left_old (h : pr.Copies pr' size left) : pr.left = left + 1 := by
  unfold Proc.left
  rw [h.old]

theorem left_new (h : pr.Copies pr' size left) : pr'.left = left := by
  unfold Proc.left
  rw [h.new]

theorem pends (h : pr.Copies pr' size left) :
    pr'.Pends side k ↔ pr.Pends side k ∧ k ≠ pr.pos := by
  unfold Proc.Pends
  rw [h.left_old, h.left_new, h.side, h.pos]
  constructor
  · rintro ⟨h1, h2, h3⟩
    exact ⟨⟨h1, by omega, by omega⟩, by omega⟩
  · rintro ⟨⟨h1, h2, h3⟩, h4⟩
    exact ⟨h1, by omega, by omega⟩

theorem pends_pos (h : pr.Copies pr' size left) : pr.Pends pr.side pr.pos :=
  ⟨rfl, le_rfl, by rw [h.left_old]; omega⟩

omit [DecidableEq ι] in
theorem index (h : pr.Copies pr' size left) (hok : pr.Ok s) (size' left' : ℕ)
    (hcopy : pr'.pc = .copy size' left') :
    size' + left' ≤ 4096 ∧ (0 < left' → size' = pr'.pos % 4096) := by
  obtain ⟨hle, hsize⟩ := hok.index _ _ h.old
  cases h.new.symm.trans hcopy
  refine ⟨by omega, fun _ => ?_⟩
  have := hsize (by omega)
  rw [h.pos]
  omega

/-- Only that byte is not pending any more. -/
theorem pending (h : pr.Copies pr' size left) (hs : Flow s) (hp : s.proc p = some pr)
    (hproc : s'.proc = (s.setProc p pr').proc) :
    s'.Pending pr.side k ↔ s.Pending pr.side k ∧ k ≠ pr.pos := by
  have hothers : ¬ s.Others p pr.side pr.pos := by
    rintro ⟨q, hqp, qr, hq, hk⟩
    exact hs.apart p q (Ne.symm hqp) pr hp qr hq _ _ h.pends_pos hk
  rw [pending_setProc hproc, pending_iff hp, h.pends]
  constructor
  · rintro (⟨h1, h2⟩ | h1)
    · exact ⟨.inl h1, h2⟩
    · exact ⟨.inr h1, fun hk => hothers (hk ▸ h1)⟩
  · rintro ⟨h1 | h1, h2⟩
    · exact .inl ⟨h1, h2⟩
    · exact .inr h1

theorem pending_of_ne (h : pr.Copies pr' size left) (hp : s.proc p = some pr)
    (hproc : s'.proc = (s.setProc p pr').proc) (hside : pr.side ≠ side) :
    s'.Pending side k ↔ s.Pending side k := by
  rw [pending_setProc hproc, pending_iff hp, h.pends]
  have hnot : ¬ pr.Pends side k := fun hk => hside hk.1
  rw [or_iff_right (fun h => hnot h.1), or_iff_right hnot]

theorem apart (h : pr.Copies pr' size left) (hs : Flow s) (hp : s.proc p = some pr)
    (hproc : s'.proc = (s.setProc p pr').proc) :
    ∀ p q, p ≠ q → ∀ pr ∈ s'.proc p, ∀ qr ∈ s'.proc q, ∀ side k, pr.Pends side k →
      ¬ qr.Pends side k := by
  refine hs.apart_setProc hproc ?_
  rintro side k hk ⟨q, hqp, qr, hq, hqk⟩
  exact hs.apart p q (Ne.symm hqp) pr hp qr hq _ _ (h.pends.1 hk).1 hqk

end Proc.Copies

/-- A byte is copied to the reader. -/
theorem Flow.copyRead (h : Flow s) (hp : s.proc p = some pr) (hside : pr.side = .read)
    {size left : ℕ} (hpc : pr.pc = .copy size (left + 1)) :
    Flow { s.setProc p { pr with pc := .copy (size + 1) left, pos := pr.pos + 1 } with
      log := s.log ++ [(pr.pos, s.inode.page size)] } := by
  obtain ⟨pr', hpr'⟩ : ∃ pr', pr' = { pr with pc := Pc.copy (size + 1) left, pos := pr.pos + 1 } :=
    ⟨_, rfl⟩
  obtain ⟨s', hs'⟩ : ∃ s', s' = { s.setProc p pr' with
    log := s.log ++ [(pr.pos, s.inode.page size)] } := ⟨_, rfl⟩
  have hproc : s'.proc = (s.setProc p pr').proc := by rw [hs']
  have hok := h.ok p pr hp
  have hc : pr.Copies pr' size left := by
    rw [hpr']
    exact ⟨rfl, rfl, hpc, rfl⟩
  have hleft := hc.left_old
  have hleft' := hc.left_new
  obtain ⟨hindex, hsizepos⟩ := hok.index _ _ hpc
  obtain ⟨hpos, first, hfirst, hstart, hpage⟩ := hok.claimed hside (by omega)
  have hread : ∀ k, s'.Pending .read k ↔ s.Pending .read k ∧ k ≠ pr.pos := fun k =>
    hside ▸ hc.pending h hp hproc
  have hwrite : ∀ k, s'.Pending .write k ↔ s.Pending .write k := fun k =>
    hc.pending_of_ne hp hproc (by rw [hside]; decide)
  have hpending : s.Pending .read pr.pos := ⟨p, pr, hp, hside ▸ hc.pends_pos⟩
  -- the byte copied is the one sent under this number
  have hbyte : s.sent[pr.pos]? = some (s.inode.page size) := by
    have hlt : pr.pos < s.sent.length := by
      have := h.le
      omega
    have hget := List.getElem?_eq_getElem hlt
    have hnot : ¬ s.Pending .write pr.pos := fun hw => h.cross _ _ hpending hw rfl
    rw [hget, hsizepos (by omega), h.stored _ _ hget (.inr hpending) hnot]
  rw [← hpr', ← hs']
  have hsent : s'.sent = s.sent := by rw [hs']; rfl
  have hclaimed : s'.claimed = s.claimed := by rw [hs']; rfl
  have hinode : s'.inode = s.inode := by rw [hs']; rfl
  have hlog : s'.log = s.log ++ [(pr.pos, s.inode.page size)] := by rw [hs']
  refine ⟨by rw [hinode, hsent]; exact h.head, by rw [hinode, hclaimed]; exact h.tail,
    by rw [hclaimed, hsent]; exact h.le, by rw [hclaimed, hsent]; exact h.room, ?_, ?_, ?_, ?_, ?_,
    ?_, ?_⟩
  · intro q qr hq
    rcases proc_cases hproc hq with ⟨-, rfl⟩ | ⟨-, hq⟩
    · refine ⟨by rw [hpr']; exact hok.sum, hc.index hok, ?_, ?_, ?_⟩
      · intro _ _
        rw [hclaimed, hsent, hleft', hpr']
        exact ⟨show pr.pos + 1 + left ≤ s.claimed by omega, first, Nat.le_succ_of_le hfirst, hstart, hpage⟩
      · intro hw _
        rw [hpr'] at hw
        exact absurd (hside.symm.trans hw) (by decide)
      · intro hw _
        rw [hpr'] at hw
        exact absurd (hside.symm.trans hw) (by decide)
    · exact (h.ok q qr hq).congr hsent hclaimed
  · exact hc.apart h hp hproc
  · intro j k hj hk
    exact h.cross j k ((hread j).1 hj).1 ((hwrite k).1 hk)
  · intro k b hb hk hnot
    rw [hsent] at hb
    rw [hclaimed, hread] at hk
    rw [hwrite] at hnot
    rw [hinode]
    exact h.stored k b hb (hk.imp_right And.left) hnot
  · intro e he
    rw [hlog, List.mem_append, List.mem_singleton] at he
    rw [hsent]
    rcases he with he | rfl
    · exact h.log e he
    · exact hbyte
  · intro k
    rw [hlog, List.map_append, List.mem_append, h.mem_log, hread, hclaimed]
    show _ ∨ k ∈ [pr.pos] ↔ _
    rw [List.mem_singleton]
    constructor
    · rintro (⟨h1, h2⟩ | rfl)
      · exact ⟨h1, fun h3 => h2 h3.1⟩
      · exact ⟨by omega, fun h3 => h3.2 rfl⟩
    · rintro ⟨h1, h2⟩
      by_cases hk : k = pr.pos
      · exact .inr hk
      · exact .inl ⟨h1, fun h3 => h2 ⟨h3, hk⟩⟩
  · rw [hlog, List.map_append]
    refine List.Nodup.append h.nodup (List.nodup_singleton _) ?_
    intro k hk hk'
    rw [List.map_cons, List.map_nil, List.mem_singleton] at hk'
    subst hk'
    exact ((h.mem_log _).1 hk).2 hpending

/-- A byte is stored by the writer. -/
theorem Flow.copyWrite (h : Flow s) (hp : s.proc p = some pr) (hside : pr.side = .write)
    {size left : ℕ} (hpc : pr.pc = .copy size (left + 1)) {b : Byte} {rest : List Byte}
    (hrest : pr.rest = b :: rest) :
    Flow { s.setProc p { pr with
        rest := rest, pc := .copy (size + 1) left, pos := pr.pos + 1 } with
      inode := { s.inode with page := Function.update s.inode.page size b } } := by
  obtain ⟨pr', hpr'⟩ : ∃ pr', pr' = { pr with
    rest := rest, pc := Pc.copy (size + 1) left, pos := pr.pos + 1 } := ⟨_, rfl⟩
  obtain ⟨s', hs'⟩ : ∃ s', s' = { s.setProc p pr' with
    inode := { s.inode with page := Function.update s.inode.page size b } } := ⟨_, rfl⟩
  have hproc : s'.proc = (s.setProc p pr').proc := by rw [hs']
  have hok := h.ok p pr hp
  have hc : pr.Copies pr' size left := by
    rw [hpr']
    exact ⟨rfl, rfl, hpc, rfl⟩
  have hleft := hc.left_old
  have hleft' := hc.left_new
  obtain ⟨hindex, hsizepos⟩ := hok.index _ _ hpc
  obtain ⟨hpos, first, hfirst, hstart, hclaim⟩ := hok.sent hside (by omega)
  obtain ⟨hlength, hbytes⟩ := hok.rest hside (by rw [hpc]; rfl)
  have hwrite : ∀ k, s'.Pending .write k ↔ s.Pending .write k ∧ k ≠ pr.pos := fun k =>
    hside ▸ hc.pending h hp hproc
  have hread : ∀ k, s'.Pending .read k ↔ s.Pending .read k := fun k =>
    hc.pending_of_ne hp hproc (by rw [hside]; decide)
  have hpending : s.Pending .write pr.pos := ⟨p, pr, hp, hside ▸ hc.pends_pos⟩
  have hbyte : s.sent[pr.pos]? = some b := by
    have := hbytes 0 (by omega)
    rwa [hrest] at this
  rw [← hpr', ← hs']
  have hsent : s'.sent = s.sent := by rw [hs']; rfl
  have hclaimed : s'.claimed = s.claimed := by rw [hs']; rfl
  have hlog : s'.log = s.log := by rw [hs']; rfl
  have hpage : s'.inode.page = Function.update s.inode.page size b := by rw [hs']
  refine ⟨by rw [hs']; exact h.head, by rw [hs']; exact h.tail,
    by rw [hclaimed, hsent]; exact h.le, by rw [hclaimed, hsent]; exact h.room, ?_, ?_, ?_, ?_, ?_,
    ?_, ?_⟩
  · intro q qr hq
    rcases proc_cases hproc hq with ⟨-, rfl⟩ | ⟨-, hq⟩
    · refine ⟨by rw [hpr']; exact hok.sum, hc.index hok, ?_, ?_, ?_⟩
      · intro hr _
        rw [hpr'] at hr
        exact absurd (hside.symm.trans hr) (by decide)
      · intro _ _
        rw [hclaimed, hsent, hleft', hpr']
        exact ⟨show pr.pos + 1 + left ≤ s.sent.length by omega, first, Nat.le_succ_of_le hfirst, hstart, hclaim⟩
      · intro _ _
        rw [hleft', hsent, hpr']
        rw [hrest, List.length_cons] at hlength
        refine ⟨show rest.length = left + pr.count by omega, fun k hk => ?_⟩
        show s.sent[pr.pos + 1 + k]? = rest[k]?
        have := hbytes (k + 1) (by omega)
        rw [hrest, List.getElem?_cons_succ] at this
        rw [show pr.pos + 1 + k = pr.pos + (k + 1) by omega]
        exact this
    · exact (h.ok q qr hq).congr hsent hclaimed
  · exact hc.apart h hp hproc
  · intro j k hj hk
    exact h.cross j k ((hread j).1 hj) ((hwrite k).1 hk).1
  · intro k c hc hk hnot
    rw [hsent] at hc
    rw [hclaimed, hread] at hk
    rw [hpage]
    by_cases hkpos : k = pr.pos
    · subst hkpos
      rw [← hsizepos (by omega), Function.update_self]
      exact Option.some.inj (hbyte.symm.trans hc)
    · -- a byte of the ring or one still to be read is in another place
      have hplace : k % 4096 ≠ size := by
        rw [hsizepos (by omega)]
        rcases hk with hk | hk
        · have := (List.getElem?_eq_some_iff.1 hc).1
          have := h.room
          omega
        · exact h.cross k pr.pos hk hpending
      rw [Function.update_of_ne hplace]
      exact h.stored k c hc hk fun hw => hnot ((hwrite k).2 ⟨hw, hkpos⟩)
  · rw [hlog, hsent]
    exact h.log
  · intro k
    rw [hlog, hread, hclaimed]
    exact h.mem_log k
  · rw [hlog]
    exact h.nodup

theorem Proc.left_of_isDone (h : pr.pc.isDone = true) : pr.left = 0 := by
  unfold Proc.left
  cases hpc : pr.pc with
  | copy size left => rw [hpc] at h; cases h
  | _ => rfl

omit [DecidableEq ι] in
theorem left_of_idle (h : s.idle p = true) : ∀ pr ∈ s.proc p, pr.left = 0 := by
  intro pr hpr
  unfold State.idle at h
  rw [Option.mem_def.1 hpr] at h
  exact Proc.left_of_isDone h

omit [DecidableEq ι] in
theorem Proc.Ok.setPc (h : pr.Ok s) (hleft : pr.left = 0) {pc : Pc} (hnot : ∀ n m, pc ≠ .copy n m)
    (hdone : pc.isDone = true ∨ pr.pc.isDone = false) : Proc.Ok s { pr with pc := pc } := by
  have hleft' : Proc.left { pr with pc := pc } = 0 := by
    unfold Proc.left
    cases pc with
    | copy size left => exact absurd rfl (hnot _ _)
    | _ => rfl
  refine ⟨h.sum, fun n m hpc => absurd hpc (hnot n m), fun _ hl => ?_, fun _ hl => ?_,
    fun hw hd => ?_⟩
  · omega
  · omega
  · have hnd : pr.pc.isDone = false := hdone.resolve_left (by rw [hd]; decide)
    rw [hleft']
    refine ⟨?_, fun k hk => absurd hk (Nat.not_lt_zero k)⟩
    rw [(h.rest hw hnd).1, hleft]

/-- A new call. -/
theorem Flow.call (h : Flow s) (hidle : s.idle p = true) {want : ℕ} {buf : List Byte}
    (hbuf : side = .write → buf.length = want) : Flow (s.call p side want buf) := by
  refine h.setProc (left_of_idle hidle) rfl ⟨Nat.zero_add _, ?_, ?_, ?_, ?_⟩
  · rintro n m ⟨⟩
  · rintro - hl
    exact absurd hl (Nat.lt_irrefl 0)
  · rintro - hl
    exact absurd hl (Nat.lt_irrefl 0)
  · intro hw _
    exact ⟨(hbuf hw).trans (Nat.zero_add _).symm, fun k hk => absurd hk (Nat.not_lt_zero k)⟩

/-- A step of `read_pipe`. -/
theorem Flow.readPipe (h : Flow s) (hp : s.proc p = some pr) (hside : pr.side = .read)
    (hclear : Clear s (.run p)) (hs : s.readPipe p pr = some s') : Flow s' := by
  have hok := h.ok p pr hp
  have hsingle : ∀ {n}, pr.left = n → ∀ ar ∈ s.proc p, ar.left = n := by
    intro n hn ar har
    rw [hp] at har
    exact Option.some.inj har ▸ hn
  unfold State.readPipe at hs
  split at hs
  · rename_i hpc
    have hleft : pr.left = 0 := by simp [Proc.left, hpc]
    have hdone : Flow (s.setProc p { pr with pc := .done pr.moved }) :=
      h.setProc (hsingle hleft) rfl (hok.setPc hleft (by simp) (.inl rfl))
    split_ifs at hs with h1 h2 h3
    · exact Option.some.inj hs ▸ hdone
    · exact Option.some.inj hs ▸ hdone
    · exact Option.some.inj hs ▸ h
    · rw [← Option.some.inj hs]
      refine h.claimRead hp hside hpc rfl ?_
      intro q qr hq hqs hl
      exact (hclear pr hp hpc q qr hq (by omega)).1 hside hqs
  · rename_i size hpc
    have hleft : pr.left = 0 := by simp [Proc.left, hpc]
    rw [← Option.some.inj hs]
    exact h.setProc (hsingle hleft) rfl (hok.setPc hleft (by simp) (.inr (by rw [hpc]; rfl)))
  · rename_i size left hpc
    rw [← Option.some.inj hs]
    exact h.copyRead hp hside hpc
  · cases hs

/-- A step of `write_pipe`. -/
theorem Flow.writePipe (h : Flow s) (hp : s.proc p = some pr) (hside : pr.side = .write)
    (hclear : Clear s (.run p)) (hs : s.writePipe p pr = some s') : Flow s' := by
  have hok := h.ok p pr hp
  have hsingle : ∀ {n}, pr.left = n → ∀ ar ∈ s.proc p, ar.left = n := by
    intro n hn ar har
    rw [hp] at har
    exact Option.some.inj har ▸ hn
  unfold State.writePipe at hs
  split at hs
  · rename_i hpc
    have hleft : pr.left = 0 := by simp [Proc.left, hpc]
    have hdone : ∀ r, Flow (s.setProc p { pr with pc := .done r }) := fun r =>
      h.setProc (hsingle hleft) rfl (hok.setPc hleft (by simp) (.inl rfl))
    split_ifs at hs with h1 h2 h3
    · exact Option.some.inj hs ▸ hdone _
    · rw [← Option.some.inj hs]
      exact (hdone _).quiet (fun _ _ h => .inl h) (fun _ _ h => .inl h) ⟨rfl, rfl, rfl⟩ rfl rfl rfl
    · exact Option.some.inj hs ▸ h
    · rw [← Option.some.inj hs]
      refine h.claimWrite hp hside hpc rfl ?_
      intro q qr hq hqs hl
      exact (hclear pr hp hpc q qr hq (by omega)).2 hside hqs
  · rename_i size hpc
    have hleft : pr.left = 0 := by simp [Proc.left, hpc]
    rw [← Option.some.inj hs]
    exact h.setProc (hsingle hleft) rfl (hok.setPc hleft (by simp) (.inr (by rw [hpc]; rfl)))
  · rename_i size left hpc
    split at hs
    · cases hs
    · rename_i b rest hrest
      rw [← Option.some.inj hs]
      exact h.copyWrite hp hside hpc hrest
  · cases hs

theorem Flow.next {e : Event ι} (h : Flow s) (hclear : Clear s e) (hs : s.next e = some s') :
    Flow s' := by
  have hkeep : ∀ {t : State ι}, t.proc = s.proc → (t.inode.page = s.inode.page ∧
      t.inode.head = s.inode.head ∧ t.inode.tail = s.inode.tail) → t.sent = s.sent →
      t.claimed = s.claimed → t.log = s.log → Flow t := by
    intro t hproc hinode hsent hclaimed hlog
    refine h.quiet (fun q qr hq => .inl ?_) (fun q qr hq => .inl ?_) hinode hsent hclaimed hlog
    · rwa [hproc] at hq
    · rwa [hproc]
  cases e with
  | read p count =>
    dsimp only [State.next] at hs
    split_ifs at hs with hc
    exact Option.some.inj hs ▸ h.call hc.1 (fun hw => by cases hw)
  | write p buf =>
    dsimp only [State.next] at hs
    split_ifs at hs with hc
    exact Option.some.inj hs ▸ h.call hc.1 (fun _ => rfl)
  | run p =>
    dsimp only [State.next] at hs
    cases hp : s.proc p with
    | none => rw [hp] at hs; cases hs
    | some pr =>
      rw [hp] at hs
      dsimp only at hs
      split at hs
      · rename_i hside
        exact h.readPipe hp hside hclear hs
      · rename_i hside
        exact h.writePipe hp hside hclear hs
  | dup p side =>
    dsimp only [State.next] at hs
    split_ifs at hs with hc
    exact Option.some.inj hs ▸ hkeep rfl ⟨rfl, rfl, rfl⟩ rfl rfl rfl
  | close p side =>
    dsimp only [State.next] at hs
    split_ifs at hs with hc
    rw [← Option.some.inj hs]
    unfold State.sysClose
    dsimp only
    split_ifs
    · exact hkeep rfl ⟨rfl, rfl, rfl⟩ rfl rfl rfl
    · exact hkeep rfl ⟨rfl, rfl, rfl⟩ rfl rfl rfl
  | fork p child =>
    dsimp only [State.next] at hs
    split_ifs at hs with hc
    exact Option.some.inj hs ▸ hkeep rfl ⟨rfl, rfl, rfl⟩ rfl rfl rfl

theorem Flow.created {page : ℕ → Byte} : Flow (created p page) where
  head := rfl
  tail := rfl
  le := le_rfl
  room := Nat.zero_le _
  ok _ _ h := by cases h
  apart _ _ _ _ h := by cases h
  cross _ _ h := by obtain ⟨_, _, h, _⟩ := h; cases h
  stored _ _ h := by cases h
  log _ h := by cases h
  mem_log k := ⟨fun h => (by cases h), fun h => absurd h.1 (Nat.not_lt_zero k)⟩
  nodup := List.nodup_nil

theorem reachable_flow (hs : (pipes ι).ReachableWhen Clear s) : Flow s := by
  refine hs.invariant (fun s h => ?_) fun s e s' hI hok hstep => hI.next hok hstep
  obtain ⟨p, page, rfl⟩ := h
  exact .created

end Linux011.Pipe
