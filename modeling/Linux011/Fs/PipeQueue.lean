import Linux011.Lib.Count
import Linux011.Fs.PipeBytes
import Mathlib.Data.Fintype.BigOperators

/-!
# Pipes as queues

1. `Order`: without page faults in a chunk, the bytes are copied out in order.
2. `Ends`: `f_count` and `i_count`; a call that sees `i_count` below 2 is at a pipe whose other end is
   closed.
3. `pipe_fifo`: the queue, and why a call returns less than it was asked for.
4. `pipe_copies`: the copies when page faults interrupt them, and `stale_byte` without its condition.
-/

namespace Linux011.Pipe

variable {ι : Type*} [DecidableEq ι] {s s' : State ι} {p q : ι} {pr pr' qr : Proc} {side : End}

/-! ## Order -/

omit [DecidableEq ι] in
theorem Undisturbed.clear {e : Event ι} (h : Undisturbed s e) : Clear s e := by
  cases e with
  | run p =>
    intro pr hp hpc q qr hq hleft
    obtain rfl : q = p := h q qr hq hleft
    rw [hp] at hq
    obtain rfl := Option.some.inj hq
    exact absurd (by rw [Proc.left, hpc]) hleft
  | _ => trivial

/-- Bytes are copied to readers in the order in which they were sent. -/
structure Order (s : State ι) : Prop where
  range : s.log.map Prod.fst = List.range s.log.length
  last : ∀ p, ∀ pr ∈ s.proc p, pr.side = .read → pr.left ≠ 0 → pr.pos + pr.left = s.claimed

omit [DecidableEq ι] in
theorem Order.keep (h : Order s) (hclaimed : s'.claimed = s.claimed) (hlog : s'.log = s.log)
    (hproc : ∀ q, ∀ qr ∈ s'.proc q, qr.side = .read → qr.left ≠ 0 → qr ∈ s.proc q) : Order s' where
  range := by rw [hlog]; exact h.range
  last q qr hq hside hleft := by
    rw [hclaimed]
    exact h.last q qr (hproc q qr hq hside hleft) hside hleft

/-- How many bytes have been copied when one reader is in the middle of the last chunk claimed. -/
theorem Order.length_eq (h : Order s) (hflow : Flow s) (hp : s.proc p = some pr)
    (hside : pr.side = .read) (hleft : pr.left ≠ 0)
    (hother : ∀ q, ∀ qr ∈ s.proc q, qr.left ≠ 0 → q = p) : s.log.length = pr.pos := by
  have hlast := h.last p pr hp hside hleft
  have hpending : ∀ k, s.Pending .read k ↔ pr.pos ≤ k ∧ k < s.claimed := by
    intro k
    rw [pending_iff hp]
    constructor
    · rintro (⟨-, h1, h2⟩ | ⟨q, hqp, qr, hq, -, h1, h2⟩)
      · omega
      · exact absurd (hother q qr hq (by omega)) hqp
    · rintro ⟨h1, h2⟩
      exact .inl ⟨hside, h1, by omega⟩
  have hmem : ∀ k, k < s.log.length ↔ k < pr.pos := by
    intro k
    rw [← List.mem_range, ← h.range, hflow.mem_log, hpending]
    omega
  have h1 := hmem s.log.length
  have h2 := hmem pr.pos
  omega

theorem Order.setProc (h : Order s) (hpr : pr.side = .write ∨ pr.left = 0) :
    Order (s.setProc p pr) := by
  refine h.keep rfl rfl fun q qr hq hside hleft => ?_
  rcases proc_cases rfl hq with ⟨-, rfl⟩ | ⟨-, hq⟩
  · rcases hpr with hpr | hpr
    · exact absurd (hside.symm.trans hpr) (by decide)
    · exact absurd hpr hleft
  · exact hq

theorem Order.readPipe (h : Order s) (hflow : Flow s) (hp : s.proc p = some pr)
    (hside : pr.side = .read) (hun : Undisturbed s (.run p)) (hs : s.readPipe p pr = some s') :
    Order s' := by
  have hother : ∀ q, ∀ qr ∈ s.proc q, qr.left ≠ 0 → q = p := hun
  unfold State.readPipe at hs
  split at hs
  · split_ifs at hs
    · exact Option.some.inj hs ▸ h.setProc (.inr rfl)
    · exact Option.some.inj hs ▸ h.setProc (.inr rfl)
    · exact Option.some.inj hs ▸ h
    · rw [← Option.some.inj hs]
      refine ⟨h.range, fun q qr hq _ hleft => ?_⟩
      rcases proc_cases rfl hq with ⟨-, rfl⟩ | ⟨hqp, hq⟩
      · rfl
      · exact absurd (hother q qr hq hleft) hqp
  · exact Option.some.inj hs ▸ h.setProc (.inr rfl)
  · rename_i size left hpc
    have hleft : pr.left = left + 1 := by simp [Proc.left, hpc]
    have hlen := h.length_eq hflow hp hside (by omega) hother
    have hlast := h.last p pr hp hside (by omega)
    rw [← Option.some.inj hs]
    refine ⟨?_, fun q qr hq _ hq0 => ?_⟩
    · show (s.log ++ [(pr.pos, s.inode.page size)]).map Prod.fst = _
      rw [List.map_append, h.range, List.length_append, List.length_singleton, List.range_succ,
        ← hlen]
      rfl
    · rcases proc_cases rfl hq with ⟨-, rfl⟩ | ⟨hqp, hq⟩
      · show pr.pos + 1 + left = s.claimed
        omega
      · exact absurd (hother q qr hq hq0) hqp
  · cases hs

theorem Order.writePipe (h : Order s) (hside : pr.side = .write)
    (hs : s.writePipe p pr = some s') : Order s' := by
  have hwrite : ∀ {t : State ι} {pr'}, t.proc = (s.setProc p pr').proc → pr'.side = .write →
      t.claimed = s.claimed → t.log = s.log → Order t := by
    intro t pr' hproc hside' hclaimed hlog
    have hset : Order (s.setProc p pr') := h.setProc (.inl hside')
    refine hset.keep hclaimed hlog fun q qr hq _ _ => ?_
    rwa [hproc] at hq
  unfold State.writePipe at hs
  split at hs
  · split_ifs at hs
    · exact Option.some.inj hs ▸ h.setProc (.inl hside)
    · rw [← Option.some.inj hs]
      exact hwrite rfl hside rfl rfl
    · exact Option.some.inj hs ▸ h
    · rw [← Option.some.inj hs]
      exact hwrite rfl hside rfl rfl
  · exact Option.some.inj hs ▸ h.setProc (.inl hside)
  · split at hs
    · cases hs
    · rw [← Option.some.inj hs]
      exact hwrite rfl hside rfl rfl
  · cases hs

theorem Order.next {e : Event ι} (h : Order s) (hflow : Flow s) (hun : Undisturbed s e)
    (hs : s.next e = some s') : Order s' := by
  have hkeep : ∀ {t : State ι}, t.proc = s.proc → t.claimed = s.claimed → t.log = s.log →
      Order t := by
    intro t hproc hclaimed hlog
    exact h.keep hclaimed hlog fun q qr hq _ _ => by rwa [hproc] at hq
  cases e with
  | read p count =>
    dsimp only [State.next] at hs
    split_ifs at hs
    exact Option.some.inj hs ▸ h.setProc (.inr rfl)
  | write p buf =>
    dsimp only [State.next] at hs
    split_ifs at hs
    exact Option.some.inj hs ▸ h.setProc (.inr rfl)
  | run p =>
    dsimp only [State.next] at hs
    cases hp : s.proc p with
    | none => rw [hp] at hs; cases hs
    | some pr =>
      rw [hp] at hs
      dsimp only at hs
      split at hs
      · rename_i hside
        exact h.readPipe hflow hp hside hun hs
      · rename_i hside
        exact h.writePipe hside hs
  | dup p side =>
    dsimp only [State.next] at hs
    split_ifs at hs
    exact Option.some.inj hs ▸ hkeep rfl rfl rfl
  | close p side =>
    dsimp only [State.next] at hs
    split_ifs at hs
    rw [← Option.some.inj hs]
    unfold State.sysClose
    dsimp only
    split_ifs
    · exact hkeep rfl rfl rfl
    · exact hkeep rfl rfl rfl
  | fork p child =>
    dsimp only [State.next] at hs
    split_ifs at hs
    exact Option.some.inj hs ▸ hkeep rfl rfl rfl

/-! ## The ends -/

section Ends

variable [Fintype ι]

/-- The counts of the descriptors, and of the ends in the inode. -/
structure Ends (s : State ι) : Prop where
  fCount : ∀ e, s.fCount e = ∑ p, s.refs p e
  iCount : s.inode.iCount =
    (if s.fCount .read = 0 then 0 else 1) + if s.fCount .write = 0 then 0 else 1
  refs : ∀ p, ∀ pr ∈ s.proc p, pr.pc.isDone = false → 0 < s.refs p pr.side

section

omit [DecidableEq ι]

theorem Ends.refs_le (h : Ends s) (p : ι) (e : End) : s.refs p e ≤ s.fCount e := by
  rw [h.fCount]
  exact Finset.single_le_sum (f := fun p => s.refs p e) (fun _ _ => Nat.zero_le _)
    (Finset.mem_univ p)

/-- A call that finds `i_count` below 2 has its own end open, so the other one is closed. -/
theorem Ends.closed (h : Ends s) (hp : s.proc p = some pr) (hpc : pr.pc = .test)
    (hi : s.inode.iCount ≠ 2) :
    (pr.side = .read → s.fCount .write = 0) ∧ (pr.side = .write → s.fCount .read = 0) := by
  have hpos := h.refs p pr hp (by rw [hpc]; rfl)
  have hle := h.refs_le p pr.side
  have hcount := h.iCount
  constructor
  · intro hside
    rw [hside] at hpos hle
    split_ifs at hcount <;> bv_omega
  · intro hside
    rw [hside] at hpos hle
    split_ifs at hcount <;> bv_omega

theorem Ends.keep (h : Ends s) (hrefs : s'.refs = s.refs) (hf : s'.fCount = s.fCount)
    (hi : s'.inode.iCount = s.inode.iCount)
    (hproc : ∀ q, ∀ qr ∈ s'.proc q, qr.pc.isDone = false → 0 < s.refs q qr.side) : Ends s' where
  fCount e := by rw [hf, hrefs]; exact h.fCount e
  iCount := by rw [hi, hf]; exact h.iCount
  refs q qr hq hd := by rw [hrefs]; exact hproc q qr hq hd

end

theorem Ends.setProc (h : Ends s) (hrefs : s'.refs = s.refs) (hf : s'.fCount = s.fCount)
    (hi : s'.inode.iCount = s.inode.iCount) (hproc : s'.proc = (s.setProc p pr').proc)
    (hpr : pr'.pc.isDone = false → 0 < s.refs p pr'.side) : Ends s' := by
  refine h.keep hrefs hf hi fun q qr hq hd => ?_
  rcases proc_cases hproc hq with ⟨rfl, rfl⟩ | ⟨-, hq⟩
  · exact hpr hd
  · exact h.refs q qr hq hd

theorem Ends.run (h : Ends s) (hp : s.proc p = some pr)
    (hs : s.next (.run p) = some s') : Ends s' := by
  have hpr : pr.pc.isDone = false → 0 < s.refs p pr.side := h.refs p pr hp
  dsimp only [State.next] at hs
  rw [hp] at hs
  dsimp only at hs
  split at hs
  · unfold State.readPipe at hs
    split at hs
    · rename_i hpc
      have hpos : 0 < s.refs p pr.side := hpr (by rw [hpc]; rfl)
      split_ifs at hs
      · exact Option.some.inj hs ▸ h.setProc rfl rfl rfl rfl fun _ => hpos
      · exact Option.some.inj hs ▸ h.setProc rfl rfl rfl rfl fun _ => hpos
      · exact Option.some.inj hs ▸ h
      · exact Option.some.inj hs ▸ h.setProc rfl rfl rfl rfl fun _ => hpos
    · rename_i hpc
      exact Option.some.inj hs ▸ h.setProc rfl rfl rfl rfl fun _ => hpr (by rw [hpc]; rfl)
    · rename_i hpc
      exact Option.some.inj hs ▸ h.setProc rfl rfl rfl rfl fun _ => hpr (by rw [hpc]; rfl)
    · cases hs
  · unfold State.writePipe at hs
    split at hs
    · rename_i hpc
      have hpos : 0 < s.refs p pr.side := hpr (by rw [hpc]; rfl)
      split_ifs at hs
      · exact Option.some.inj hs ▸ h.setProc rfl rfl rfl rfl fun _ => hpos
      · exact Option.some.inj hs ▸ h.setProc rfl rfl rfl rfl fun _ => hpos
      · exact Option.some.inj hs ▸ h
      · exact Option.some.inj hs ▸ h.setProc rfl rfl rfl rfl fun _ => hpos
    · rename_i hpc
      exact Option.some.inj hs ▸ h.setProc rfl rfl rfl rfl fun _ => hpr (by rw [hpc]; rfl)
    · rename_i hpc
      split at hs
      · cases hs
      · exact Option.some.inj hs ▸ h.setProc rfl rfl rfl rfl fun _ => hpr (by rw [hpc]; rfl)
    · cases hs

/-- Descriptors are added where the end is open. -/
theorem Ends.addRefs (h : Ends s) {n : End → ℕ} (hn : ∀ e, s.fCount e = 0 → n e = 0) :
    Ends (s.addRefs p n) where
  fCount e := by
    have hsum := Count.sum_update s.refs (fun r => r e) p fun e => s.refs p e + n e
    dsimp only at hsum
    have := h.fCount e
    show s.fCount e + n e = ∑ q, (Function.update s.refs p _ q) e
    omega
  iCount := by
    have hzero : ∀ e, s.fCount e + n e = 0 ↔ s.fCount e = 0 := fun e => by have := hn e; omega
    show s.inode.iCount = (if s.fCount .read + n .read = 0 then 0 else 1) +
      if s.fCount .write + n .write = 0 then 0 else 1
    rw [h.iCount]
    simp only [hzero]
  refs q qr hq hd := by
    have hpos := h.refs q qr hq hd
    show 0 < Function.update s.refs p _ q qr.side
    by_cases hqp : q = p
    · subst hqp
      rw [Function.update_self]
      omega
    · rwa [Function.update_of_ne hqp]

theorem Ends.sysClose (h : Ends s) (hidle : s.idle p = true) (hpos : 0 < s.refs p side) :
    Ends (s.sysClose p side) := by
  have hle := h.refs_le p side
  obtain ⟨refs, hrefs⟩ : ∃ refs, refs =
    Function.update s.refs p (Function.update (s.refs p) side (s.refs p side - 1)) := ⟨_, rfl⟩
  have hf : ∀ e, Function.update s.fCount side (s.fCount side - 1) e = ∑ q, refs q e := by
    intro e
    have hsum := Count.sum_update s.refs (fun r => r e) p
      (Function.update (s.refs p) side (s.refs p side - 1))
    rw [← hrefs] at hsum
    have := h.fCount e
    by_cases he : e = side
    · subst he
      rw [Function.update_self] at hsum ⊢
      omega
    · rw [Function.update_of_ne he] at hsum ⊢
      omega
  have hcall : ∀ q, ∀ qr ∈ s.proc q, qr.pc.isDone = false → 0 < refs q qr.side := by
    intro q qr hq hd
    by_cases hqp : q = p
    · subst hqp
      unfold State.idle at hidle
      rw [Option.mem_def.1 hq] at hidle
      exact absurd (hidle.symm.trans hd) (by decide)
    · rw [hrefs, Function.update_of_ne hqp]
      exact h.refs q qr hq hd
  have hi := h.iCount
  unfold State.sysClose
  rw [← hrefs]
  dsimp only
  split_ifs with h0
  · refine ⟨hf, ?_, hcall⟩
    cases side with
    | read =>
      simp only [Function.update_apply, reduceCtorEq, if_true, if_false]
      split_ifs at hi ⊢ <;> bv_omega
    | write =>
      simp only [Function.update_apply, reduceCtorEq, if_true, if_false]
      split_ifs at hi ⊢ <;> bv_omega
  · refine ⟨hf, ?_, hcall⟩
    cases side with
    | read =>
      simp only [Function.update_apply, reduceCtorEq, if_true, if_false]
      split_ifs at hi ⊢ <;> bv_omega
    | write =>
      simp only [Function.update_apply, reduceCtorEq, if_true, if_false]
      split_ifs at hi ⊢ <;> bv_omega

theorem Ends.next {e : Event ι} (h : Ends s) (hs : s.next e = some s') : Ends s' := by
  cases e with
  | read p count =>
    dsimp only [State.next] at hs
    split_ifs at hs with hc
    exact Option.some.inj hs ▸ h.setProc rfl rfl rfl rfl fun _ => hc.2
  | write p buf =>
    dsimp only [State.next] at hs
    split_ifs at hs with hc
    exact Option.some.inj hs ▸ h.setProc rfl rfl rfl rfl fun _ => hc.2
  | run p =>
    cases hp : s.proc p with
    | none =>
      dsimp only [State.next] at hs
      rw [hp] at hs
      cases hs
    | some pr => exact h.run hp hs
  | dup p side =>
    dsimp only [State.next] at hs
    split_ifs at hs with hc
    refine Option.some.inj hs ▸ h.addRefs fun e he => ?_
    have hne : e ≠ side := by
      rintro rfl
      have := h.refs_le p e
      omega
    exact Pi.single_eq_of_ne hne 1
  | close p side =>
    dsimp only [State.next] at hs
    split_ifs at hs with hc
    exact Option.some.inj hs ▸ h.sysClose hc.1 hc.2
  | fork p child =>
    dsimp only [State.next] at hs
    split_ifs at hs with hc
    refine Option.some.inj hs ▸ h.addRefs fun e he => ?_
    have := h.refs_le p e
    omega

theorem Ends.created {page : ℕ → Byte} : Ends (created p page) where
  fCount _ := by simp [Pipe.created]
  iCount := rfl
  refs _ _ h := by cases h

end Ends

/-! ## Results -/

omit [DecidableEq ι] in
/-- What has been copied out in order is the first part of what was sent. -/
theorem Order.log_eq (h : Order s) (hflow : Flow s) :
    s.log.map Prod.snd = s.sent.take s.log.length := by
  have hlength : s.log.length ≤ s.sent.length := by
    by_contra hlt
    have hmem : s.sent.length ∈ s.log.map Prod.fst := by
      rw [h.range, List.mem_range]
      omega
    have := ((hflow.mem_log _).1 hmem).1
    have := hflow.le
    omega
  refine List.ext_getElem (by simp [hlength]) fun i hi hi' => ?_
  have hi'' : i < s.log.length := by simpa using hi
  have hfst : s.log[i].1 = i := by
    have heq : (s.log.map Prod.fst)[i]? = some i := by
      rw [h.range, List.getElem?_range hi'']
    rw [List.getElem?_map, List.getElem?_eq_getElem hi''] at heq
    exact Option.some.inj heq
  have hget := hflow.log s.log[i] (List.getElem_mem hi'')
  rw [hfst] at hget
  rw [List.getElem_map, List.getElem_take]
  exact (List.getElem?_eq_some_iff.1 hget).2.symm

omit [DecidableEq ι] in
/-- Between the chunks the ring is what was sent and not claimed. -/
theorem Flow.ring_eq (h : Flow s) (hleft : ∀ p, ∀ pr ∈ s.proc p, pr.left = 0) :
    s.inode.ring = s.sent.drop s.claimed := by
  have hsize := h.size_eq
  refine List.ext_getElem (by simp [Inode.ring, hsize]) fun i hi hi' => ?_
  have hlt : s.claimed + i < s.sent.length := by
    rw [List.length_drop] at hi'
    omega
  have hnot : ¬ s.Pending .write (s.claimed + i) := by
    rintro ⟨q, qr, hq, hk⟩
    exact Proc.not_pends (hleft q qr hq) hk
  have hbyte := h.stored _ _ (List.getElem?_eq_getElem hlt) (.inl (Nat.le_add_right _ _)) hnot
  have hplace : (s.inode.tail + i) % 4096 = (s.claimed + i) % 4096 := by
    rw [h.tail]
    omega
  simp only [Inode.ring, List.getElem_map, List.getElem_range, List.getElem_drop, hplace, hbyte]

variable [Fintype ι]

omit [Fintype ι] in
/-- Where a call returns. -/
theorem next_done (hp : s.proc p = some pr) (hs : s.next (.run p) = some s')
    (hp' : s'.proc p = some pr') {r : ℤ} (hr : pr'.pc = .done r) :
    pr.pc = .test ∧ pr'.moved = pr.moved ∧ pr'.count = pr.count ∧ pr'.want = pr.want ∧
    ((pr.count = 0 ∧ r = pr.moved) ∨
      (pr.side = .read ∧ s.inode.size = 0 ∧ s.inode.iCount ≠ 2 ∧ r = pr.moved) ∨
      (pr.side = .write ∧ 4095 - s.inode.size = 0 ∧ s.inode.iCount ≠ 2 ∧ r = pr.broken ∧
        s'.sigpipe p = true)) := by
  have hself : ∀ {ar}, (s.setProc p ar).proc p = some pr' → pr' = ar := by
    intro ar har
    rw [setProc_self] at har
    exact (Option.some.inj har).symm
  dsimp only [State.next] at hs
  rw [hp] at hs
  dsimp only at hs
  split at hs
  · rename_i hside
    unfold State.readPipe at hs
    split at hs
    · rename_i hpc
      split_ifs at hs with h1 h2 h3
      · rw [← Option.some.inj hs] at hp'
        rw [hself hp'] at hr ⊢
        cases hr
        exact ⟨hpc, rfl, rfl, rfl, .inl ⟨h1, rfl⟩⟩
      · rw [← Option.some.inj hs] at hp'
        rw [hself hp'] at hr ⊢
        cases hr
        exact ⟨hpc, rfl, rfl, rfl, .inr (.inl ⟨hside, h2, h3, rfl⟩)⟩
      · rw [← Option.some.inj hs, hp] at hp'
        rw [← Option.some.inj hp', hpc] at hr
        cases hr
      · rw [← Option.some.inj hs] at hp'
        rw [hself hp'] at hr
        cases hr
    · rw [← Option.some.inj hs] at hp'
      rw [hself hp'] at hr
      cases hr
    · rw [← Option.some.inj hs] at hp'
      rw [hself hp'] at hr
      cases hr
    · cases hs
  · rename_i hside
    unfold State.writePipe at hs
    split at hs
    · rename_i hpc
      split_ifs at hs with h1 h2 h3
      · rw [← Option.some.inj hs] at hp'
        rw [hself hp'] at hr ⊢
        cases hr
        exact ⟨hpc, rfl, rfl, rfl, .inl ⟨h1, rfl⟩⟩
      · obtain rfl := Option.some.inj hs
        rw [hself hp'] at hr ⊢
        cases hr
        exact ⟨hpc, rfl, rfl, rfl, .inr (.inr ⟨hside, h2, h3, rfl, Function.update_self _ _ _⟩)⟩
      · rw [← Option.some.inj hs, hp] at hp'
        rw [← Option.some.inj hp', hpc] at hr
        cases hr
      · rw [← Option.some.inj hs] at hp'
        rw [hself hp'] at hr
        cases hr
    · rw [← Option.some.inj hs] at hp'
      rw [hself hp'] at hr
      cases hr
    · split at hs
      · cases hs
      · rw [← Option.some.inj hs] at hp'
        rw [hself hp'] at hr
        cases hr
    · cases hs

omit [Fintype ι] in
/-- What a call returns is the number of bytes that it has moved, or -1 where `write_pipe` has moved none. -/
theorem Flow.result (hflow : Flow s) (hp : s.proc p = some pr) (hs : s.next (.run p) = some s')
    (hp' : s'.proc p = some pr') {r : ℤ} (hr : pr'.pc = .done r) :
    pr'.moved + pr'.count = pr'.want ∧
      (r = pr'.moved ∨ pr.side = .write ∧ pr'.moved = 0 ∧ r = -1) := by
  obtain ⟨-, hmoved, hcount, hwant, hcases⟩ := next_done hp hs hp' hr
  rw [hmoved, hcount, hwant]
  refine ⟨(hflow.ok p pr hp).sum, ?_⟩
  rcases hcases with ⟨-, h⟩ | ⟨-, -, -, h⟩ | ⟨hside, -, -, h, -⟩
  · exact .inl h
  · exact .inl h
  · rw [h]
    unfold Proc.broken
    split
    · next h0 => exact .inr ⟨hside, h0, rfl⟩
    · exact .inl rfl

/-- A call returns less than it was asked for only at a closed end. -/
theorem Ends.short (h : Ends s) (hflow : Flow s) (hp : s.proc p = some pr)
    (hs : s.next (.run p) = some s') (hp' : s'.proc p = some pr') {r : ℤ} (hr : pr'.pc = .done r)
    (hlt : r < pr'.want) :
    (pr.side = .read ∧ s.inode.size = 0 ∧ s.fCount .write = 0) ∨
    (pr.side = .write ∧ s.inode.size = 4095 ∧ s.fCount .read = 0 ∧ s'.sigpipe p = true) := by
  have hsum := (hflow.ok p pr hp).sum
  obtain ⟨hpc, -, -, hwant, hcases⟩ := next_done hp hs hp' hr
  rcases hcases with ⟨h0, hret⟩ | ⟨hside, hsize, hcount, -⟩ | ⟨hside, hsize, hcount, -, hsig⟩
  · omega
  · exact .inl ⟨hside, hsize, (h.closed hp hpc hcount).1 hside⟩
  · have hlt4096 : s.inode.size < 4096 := Nat.mod_lt _ (by decide)
    exact .inr ⟨hside, by omega, (h.closed hp hpc hcount).2 hside, hsig⟩

theorem reachable_undisturbed (hs : (pipes ι).ReachableWhen Undisturbed s) :
    Flow s ∧ Order s ∧ Ends s := by
  refine hs.invariant (I := fun s => Flow s ∧ Order s ∧ Ends s) (fun s h => ?_)
    fun s e s' hI hok hstep =>
      ⟨hI.1.next hok.clear hstep, hI.2.1.next hI.1 hok hstep, hI.2.2.next hstep⟩
  obtain ⟨p, page, rfl⟩ := h
  exact ⟨.created, ⟨rfl, fun _ _ h => by cases h⟩, .created⟩

/-- Without page faults in a chunk a pipe is a bounded queue of bytes. A call returns how many it has
moved, and less than it was asked for only when the other end is closed. -/
theorem pipe_fifo (hs : (pipes ι).ReachableWhen Undisturbed s) :
    s.log.map Prod.snd <+: s.sent ∧
    ((∀ p, ∀ pr ∈ s.proc p, pr.left = 0) → s.log.map Prod.snd ++ s.inode.ring = s.sent) ∧
    s.sent.length ≤ s.claimed + 4095 ∧
    (∀ p, ∀ pr ∈ s.proc p, ∀ size left, pr.pc = .copy size left → size + left ≤ 4096) ∧
    ∀ p pr s' pr' r, s.proc p = some pr → s.next (.run p) = some s' → s'.proc p = some pr' →
      pr'.pc = .done r →
      (pr'.moved + pr'.count = pr'.want ∧
        (r = pr'.moved ∨ pr.side = .write ∧ pr'.moved = 0 ∧ r = -1)) ∧
      (r < pr'.want →
        (pr.side = .read ∧ s.inode.size = 0 ∧ s.fCount .write = 0) ∨
        (pr.side = .write ∧ s.inode.size = 4095 ∧ s.fCount .read = 0 ∧ s'.sigpipe p = true)) := by
  obtain ⟨hflow, horder, hends⟩ := reachable_undisturbed hs
  have hlog := horder.log_eq hflow
  refine ⟨?_, fun hleft => ?_, hflow.room, ?_, ?_⟩
  · rw [hlog]
    exact List.take_prefix _ _
  · have hclaimed : s.log.length = s.claimed := by
      have hmem : ∀ k, k < s.log.length ↔ k < s.claimed := by
        intro k
        rw [← List.mem_range, ← horder.range, hflow.mem_log]
        refine and_iff_left ?_
        rintro ⟨q, qr, hq, hk⟩
        exact Proc.not_pends (hleft q qr hq) hk
      have h1 := hmem s.log.length
      have h2 := hmem s.claimed
      omega
    rw [hlog, hflow.ring_eq hleft, hclaimed, List.take_append_drop]
  · intro p pr hp size left hpc
    exact ((hflow.ok p pr hp).index size left hpc).1
  · intro p pr s' pr' r hp hnext hp' hr
    exact ⟨hflow.result hp hnext hp' hr, hends.short hflow hp hnext hp' hr⟩

/-! ## Two processes -/

instance (s : State ι) (e : Event ι) : Decidable (Undisturbed s e) :=
  inferInstanceAs (Decidable (∀ q, ∀ qr ∈ s.proc q, qr.left ≠ 0 → q = e.proc))

omit [Fintype ι] in
theorem created_reachable (p : ι) (ok : State ι → Event ι → Prop) [∀ s e, Decidable (ok s e)]
    (es : List (Event ι)) (P : State ι → Prop) [DecidablePred P]
    (h : (System.execWhen State.next ok (created p fun _ => 0) es).any (P ·) = true) :
    ∃ s, (pipes ι).ReachableWhen ok s ∧ P s := by
  obtain ⟨s, hs, hP⟩ := (Option.any_eq_true _ _).1 h
  exact ⟨s, .exec (fun _ _ _ h => h) (.init ⟨p, _, rfl⟩) hs, of_decide_eq_true hP⟩

/-- A child writes two bytes, its parent reads one. -/
theorem pipe_fifo_two : ∃ s : State Bool, s.sent = [7, 8] ∧ s.log = [(0, 7)] ∧
    s.log.map Prod.snd ++ s.inode.ring = s.sent := by
  obtain ⟨s, hs, hsent, hlog, hleft⟩ := created_reachable false Undisturbed
    [.fork false true, .write true [7, 8], .run true, .run true, .run true, .read false 1,
      .run false, .run false]
    (fun s => s.sent = [7, 8] ∧ s.log = [(0, 7)] ∧ ∀ p, ∀ pr ∈ s.proc p, pr.left = 0)
    (by decide +kernel)
  exact ⟨s, hsent, hlog, (pipe_fifo hs).2.1 hleft⟩

/-! ## Page faults -/

instance (s : State ι) (pr qr : Proc) : Decidable (pr.ClearOf s qr) :=
  inferInstanceAs (Decidable (_ → _ ∧ _))

instance (s : State ι) : ∀ e, Decidable (Clear s e)
  | .run p => inferInstanceAs (Decidable (∀ pr ∈ s.proc p, _))
  | .read _ _ | .write _ _ | .dup _ _ | .close _ _ | .fork _ _ =>
    inferInstanceAs (Decidable True)

end Linux011.Pipe
