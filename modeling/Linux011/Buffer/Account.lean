import Linux011.Buffer.Representation
import Linux011.Lib.Count

/-!
# Who uses and who locks a buffer

1. `State.refs`: the references to a buffer, in the calls of all processes and in what they hold.
   `State.owners`: who has locked it, a process in `make_request` or a queued request.
2. `Steps.refs` and `Steps.owners`: how a step changes them, in terms of its frame.
3. `Outcome.count`, `Outcome.change` and `Outcome.locked`: `b_count` and `b_lock` change in step with
   them.
-/

namespace Linux011.Buffer

variable {α : Type*} {n : ℕ}

/-! ## The counts -/

def stackRefs (b : Fin n) (fs : List (Frame n)) : ℕ := (fs.map (Frame.refs b)).sum

def heldRefs (b : Fin n) (hs : List (Held n)) : ℕ := hs.countP (·.bh = b)

def stackOwns (b : Fin n) (fs : List (Frame n)) : ℕ := (fs.map (Frame.owns b)).sum

/-- The requests for `b` in all queues. -/
def Cache.queued (c : Cache α n) (b : Fin n) : ℕ := ∑ m, (c.currentRequest m).countP (·.bh = b)

namespace State

def refs (s : State α n) (b : Fin n) : ℕ :=
  ∑ p, stackRefs b (s.stack p) + ∑ p, heldRefs b (s.held p)

def owners (s : State α n) (b : Fin n) : ℕ := ∑ p, stackOwns b (s.stack p) + s.cache.queued b

end State

/-! ## Steps -/

/-- A caller takes over the reference that it is returned. -/
theorem Frame.receive_refs {c : Cache α n} {g : Frame n} {k : Kind n} {v : Option (Fin n)} {b : Fin n}
    (hk : g.awaits k) (hv : ∀ bh, v = some bh → c.ValueOk bh k) :
    (g.receive v).refs b = g.refs b + (Next.ret v).refs b := by
  cases v with
  | none => cases g <;> first | rfl | (rename_i pc; cases pc <;> rfl)
  | some bh =>
    have hval := hv bh rfl
    cases g with
    | getblk dev block pc =>
      cases pc with
      | hash => simp [Frame.receive, Frame.refs, Next.refs]
      | sync bh => obtain ⟨dev, rfl⟩ := hk; exact hval.elim
      | _ => exact hk.elim
    | bread dev block pc =>
      cases pc with
      | getblk => simp [Frame.receive, Frame.refs, Next.refs]
      | reading bh => obtain rfl := hk; exact hval.elim
      | releasing => obtain ⟨dev, rfl⟩ := hk; exact hval.elim
      | _ => exact hk.elim
    | breada dev first rest pc =>
      cases pc with
      | getblk => simp [Frame.receive, Frame.refs, Next.refs]
      | getAhead bh => rfl
      | reading bh | readAhead bh tmp => obtain rfl := hk; exact hval.elim
      | releasing => obtain ⟨dev, rfl⟩ := hk; exact hval.elim
      | _ => exact hk.elim
    | syncDev dev pc =>
      cases pc with
      | writing second i => obtain ⟨bh, rfl⟩ := hk; exact hval.elim
      | inodes => obtain rfl := hk; exact hval.elim
      | _ => exact hk.elim
    | sysSync pc =>
      cases pc with
      | writing i => obtain ⟨bh, rfl⟩ := hk; exact hval.elim
      | inodes => obtain rfl := hk; exact hval.elim
      | _ => exact hk.elim
    | syncInodes pc =>
      cases pc with
      | reading => simp [Frame.receive, Frame.refs, Next.refs]
      | modifying bh => obtain rfl := hk; exact hval.elim
      | releasing => obtain ⟨dev, rfl⟩ := hk; exact hval.elim
      | _ => exact hk.elim
    | fileWrite dev blocks pc =>
      cases pc with
      | reading => simp [Frame.receive, Frame.refs, Next.refs]
      | releasing => obtain ⟨dev, rfl⟩ := hk; exact hval.elim
      | _ => exact hk.elim
    | _ => exact hk.elim

theorem Frame.receive_owns (v : Option (Fin n)) (g : Frame n) (b : Fin n) :
    (g.receive v).owns b = g.owns b := by
  unfold Frame.receive
  split <;> first | rfl | (split <;> rfl)

/-- A finished call gives the process the reference that it returns. -/
theorem Frame.gives_refs {c : Cache α n} {f : Frame n} {v : Option (Fin n)} {b : Fin n}
    (hv : ∀ bh, v = some bh → c.ValueOk bh f.kind) :
    heldRefs b (f.gives v) = (Next.ret v).refs b := by
  cases v with
  | none => cases f <;> rfl
  | some bh =>
    have hval := hv bh rfl
    cases f <;> first | exact hval.elim | simp [Frame.gives, heldRefs, Next.refs, List.countP_cons]

namespace State

variable {s s' : State α n} {p : Pid} {f : Frame n} {fs : List (Frame n)} {ch : Choice α}

/-- The references change by those of the frame that runs. -/
theorem Steps.refs {nx : Next n} (h : Steps s s' p f fs ch nx) (ht : Typed (s.stack p))
    (hv : ∀ bh, nx = .ret (some bh) → s.cache.ValueOk bh f.kind) (b : Fin n) :
    s'.refs b + f.refs b = s.refs b + nx.refs b := by
  obtain ⟨fs', hc, hst⟩ := h.stack
  obtain ⟨hs, hheld, hgive⟩ := h.held
  unfold State.refs
  have h1 := Count.sum_update s.stack (stackRefs b) p fs'
  have h2 := Count.sum_update s.held (heldRefs b) p hs
  rw [h.frame] at h1 ht
  rw [hst, hheld]
  -- what the stack loses goes to the held buffers
  suffices hsum : stackRefs b fs' + heldRefs b hs =
      nx.refs b + stackRefs b fs + heldRefs b (s.held p) by
    simp only [stackRefs, List.map_cons, List.sum_cons] at hsum h1 ⊢
    omega
  rcases hgive with ⟨rfl, hfin⟩ | ⟨v, rfl, rfl, rfl⟩
  · rw [add_left_inj]
    cases hc with
    | goto f' | sleep f' => simp [stackRefs, Next.refs]
    | call f' g => simp [stackRefs, Next.refs, Nat.add_assoc]
    | finish v => exact absurd rfl (hfin v rfl)
    | ret v g fs =>
      obtain ⟨hk, -⟩ := List.isChain_cons_cons.1 ht
      have := Frame.receive_refs (v := v) (b := b) hk fun bh hbh => hv bh (by rw [hbh])
      simp only [stackRefs, List.map_cons, List.sum_cons, this]
      omega
  · cases hc
    have := Frame.gives_refs (v := v) (b := b) fun bh hbh => hv bh (by rw [hbh])
    simp only [heldRefs, List.countP_append, stackRefs] at this ⊢
    simp [this]

/-- The locks change by those of the frame that runs, and by the requests it makes. -/
theorem Steps.owners {nx : Next n} (h : Steps s s' p f fs ch nx) (b : Fin n) :
    s'.owners b + f.owns b + s.cache.queued b =
      s.owners b + nx.owns b + s'.cache.queued b := by
  obtain ⟨fs', hc, hst⟩ := h.stack
  unfold State.owners
  have h1 := Count.sum_update s.stack (stackOwns b) p fs'
  rw [h.frame] at h1
  rw [hst]
  suffices hsum : stackOwns b fs' = nx.owns b + stackOwns b fs by
    simp only [stackOwns, List.map_cons, List.sum_cons] at hsum h1 ⊢
    omega
  cases hc with
  | goto f' | sleep f' => simp [stackOwns, Next.owns]
  | call f' g => simp [stackOwns, Next.owns, Nat.add_assoc]
  | finish v => rfl
  | ret v g fs => simp [stackOwns, Next.owns, Frame.receive_owns]

end State

/-! ## Outcomes -/

section

variable {c c' : Cache α n} {ch : Choice α} {f : Frame n} {nx : Next n}

/-- `b_count` changes by the references of the frame, as long as it does not overflow. -/
theorem Outcome.count (h : Outcome c ch f (c', nx)) (hmax : ∀ b, c.bCount b ≠ 255)
    (hmin : ∀ b, f.refs b ≤ (c.bCount b).toNat) (b : Fin n) :
    (c'.bCount b).toNat + f.refs b = (c.bCount b).toNat + nx.refs b := by
  generalize hr : (c', nx) = r at h
  cases h with
  | quiet hq hrefs => cases hr; rw [hrefs b]
  | @take dev block bh hfind =>
    cases hr
    by_cases hb : b = bh
    · subst hb
      have h1 := hmax b
      simp only [Cache.setCount, Function.update_self, Frame.refs, Next.refs, if_true]
      bv_omega
    · simp [Cache.setCount, hb, Ne.symm hb, Frame.refs, Next.refs]
  | drop bh hq hrefs =>
    cases hr
    have h1 := hrefs b
    have h2 := hmin b
    by_cases hb : b = bh
    · subst hb
      simp only [Cache.setCount, Function.update_self, if_true] at h1 ⊢
      bv_omega
    · simp only [Cache.setCount, Function.update_of_ne hb, if_neg (Ne.symm hb)] at h1 ⊢
      omega
  | @reassign dev block bh _ hl hcount hd hfind hm =>
    obtain ⟨q, hq, rfl⟩ := Cache.reassign_eq_some hm
    cases hr
    by_cases hb : b = bh
    · subst hb
      simp [Cache.setUptodate, Cache.setDirt, Cache.setCount, hcount, Frame.refs, Next.refs]
    · simp [Cache.setUptodate, Cache.setDirt, Cache.setCount, hb, Ne.symm hb, Frame.refs, Next.refs]
  | _ =>
    cases hr
    simp [Cache.setLock, Cache.addRequest, Cache.setQueue, Cache.setDirt, Cache.setData, Frame.refs,
      Next.refs]

/-- `b_count` as the eight-bit counter that it is. -/
theorem Outcome.change (h : Outcome c ch f (c', nx)) (b : Fin n) :
    (c'.bCount b - c.bCount b).toInt = (nx.refs b : ℤ) - f.refs b := by
  generalize hr : (c', nx) = r at h
  cases h with
  | quiet hq hrefs =>
    cases hr
    rw [hrefs b, BitVec.sub_self, BitVec.toInt_zero, sub_self]
  | @take dev block bh hfind =>
    cases hr
    by_cases hb : b = bh
    · subst hb
      simp [Cache.setCount, Frame.refs, Next.refs]
    · simp [Cache.setCount, hb, Ne.symm hb, Frame.refs, Next.refs]
  | drop bh hq hrefs =>
    cases hr
    rw [hrefs b]
    by_cases hb : b = bh
    · subst hb
      simp [Cache.setCount]
    · simp [Cache.setCount, hb, Ne.symm hb]
  | @reassign dev block bh _ hl hcount hd hfind hm =>
    obtain ⟨q, hq, rfl⟩ := Cache.reassign_eq_some hm
    cases hr
    by_cases hb : b = bh
    · subst hb
      simp [Cache.setUptodate, Cache.setDirt, Cache.setCount, hcount, Frame.refs, Next.refs]
    · simp [Cache.setUptodate, Cache.setDirt, Cache.setCount, hb, Ne.symm hb, Frame.refs, Next.refs]
  | _ =>
    cases hr
    simp [Cache.setLock, Cache.addRequest, Cache.setQueue, Cache.setDirt, Cache.setData, Frame.refs,
      Next.refs]

theorem Cache.queued_setQueue (c : Cache α n) (m : Fin 7) (q : List (Request n)) (b : Fin n) :
    (c.setQueue m q).queued b + (c.currentRequest m).countP (·.bh = b) =
      c.queued b + q.countP (·.bh = b) :=
  Count.sum_update c.currentRequest (List.countP fun r : Request n => r.bh = b) m q

theorem Cache.queued_addRequest (c : Cache α n) (m : Fin 7) (req : Request n) (b : Fin n) :
    (c.addRequest m req).queued b = c.queued b + if req.bh = b then 1 else 0 := by
  have h := (c.setDirt req.bh false).queued_setQueue m ((c.addRequest m req).currentRequest m) b
  rw [(c.addRequest_perm m req).countP_eq, List.countP_cons] at h
  have h1 : (c.setDirt req.bh false).setQueue m ((c.addRequest m req).currentRequest m) =
      c.addRequest m req := by
    simp [Cache.addRequest, Cache.setQueue]
  rw [h1] at h
  simp only [Cache.setDirt, Cache.queued, decide_eq_true_eq] at h ⊢
  omega

theorem Cache.queued_eq_zero {c : Cache α n} {b : Fin n} (h : c.queued b = 0) :
    ∀ m, ∀ r ∈ c.currentRequest m, r.bh ≠ b := by
  intro m r hr
  have h0 := (Finset.sum_eq_zero_iff.1 h) m (Finset.mem_univ m)
  simpa using List.countP_eq_zero.1 h0 r hr

/-- Of the requests in the queues only the current one of `m` is for its buffer. -/
theorem Cache.queued_tail {c : Cache α n} {m : Fin 7} {r : Request n} {rs : List (Request n)}
    (hq : c.currentRequest m = r :: rs) (h1 : c.queued r.bh ≤ 1) :
    ∀ m', ∀ r' ∈ (c.setQueue m rs).currentRequest m', r'.bh ≠ r.bh := by
  refine Cache.queued_eq_zero ?_
  have h := c.queued_setQueue m rs r.bh
  rw [hq, List.countP_cons] at h
  simp only [decide_true, if_true] at h
  omega

/-- There is at most one request for a buffer. -/
theorem Cache.queued_unique {c : Cache α n} {b : Fin n} (h1 : c.queued b ≤ 1) {m m' : Fin 7}
    {r r' : Request n} (hr : r ∈ c.currentRequest m) (hr' : r' ∈ c.currentRequest m')
    (hb : r.bh = b) (hb' : r'.bh = b) : r = r' := by
  have hle : ∀ m, (c.currentRequest m).countP (·.bh = b) ≤ c.queued b := fun m =>
    Finset.single_le_sum (f := fun m => (c.currentRequest m).countP (·.bh = b))
      (fun _ _ => Nat.zero_le _) (Finset.mem_univ m)
  have hpos : ∀ m, ∀ r ∈ c.currentRequest m, r.bh = b → 0 < (c.currentRequest m).countP (·.bh = b) :=
    fun m r hr hb => List.countP_pos_iff.2 ⟨r, hr, by simpa using hb⟩
  obtain rfl : m = m' := by
    by_contra hm
    have := Finset.sum_le_sum_of_subset (f := fun m => (c.currentRequest m).countP (·.bh = b))
      (Finset.subset_univ {m, m'})
    rw [Finset.sum_pair hm] at this
    have h2 := hpos m r hr hb
    have h3 := hpos m' r' hr' hb'
    change _ ≤ c.queued b at this
    omega
  -- both are the one element of the filtered queue
  have hlen : ((c.currentRequest m).filter (·.bh = b)).length ≤ 1 := by
    rw [← List.countP_eq_length_filter]
    exact (hle m).trans h1
  have h2 : r ∈ (c.currentRequest m).filter (·.bh = b) := List.mem_filter.2 ⟨hr, by simpa using hb⟩
  have h3 : r' ∈ (c.currentRequest m).filter (·.bh = b) := List.mem_filter.2 ⟨hr', by simpa using hb'⟩
  rcases hl : (c.currentRequest m).filter (·.bh = b) with _ | ⟨x, _ | ⟨y, l⟩⟩
  · rw [hl] at h2; cases h2
  · rw [hl, List.mem_singleton] at h2 h3
    rw [h2, h3]
  · rw [hl] at hlen
    simp only [List.length_cons] at hlen
    omega

/-- `b_lock` changes by the locks of the frame and the requests. -/
theorem Outcome.locked (h : Outcome c ch f (c', nx))
    (hmin : ∀ b, f.owns b ≤ (c.bLock b).toNat) (b : Fin n) :
    (c'.bLock b).toNat + f.owns b + c.queued b = (c.bLock b).toNat + nx.owns b + c'.queued b := by
  generalize hr : (c', nx) = r at h
  cases h with
  | quiet hq => cases hr; rw [hq.owns b]
  | drop bh hq => cases hr; rw [hq.owns b]; rfl
  | reassign hl hcount hd hfind hm =>
    obtain ⟨q, hq, rfl⟩ := Cache.reassign_eq_some hm
    cases hr
    rfl
  | @lock m rw bh hl =>
    cases hr
    by_cases hb : b = bh
    · subst hb
      simp [Cache.setLock, Frame.owns, Next.owns, hl, Cache.queued]
    · simp [Cache.setLock, Frame.owns, Next.owns, hb, Ne.symm hb, Cache.queued]
  | @unlock m rw bh ha =>
    cases hr
    have := hmin b
    by_cases hb : b = bh
    · subst hb
      have hle := Bool.toNat_le (c.bLock b)
      simp only [Frame.owns, if_true] at this
      simp only [Frame.owns, Cache.setLock, Next.owns, Cache.queued, Function.update_self,
        Bool.toNat_false, if_true]
      omega
    · simp [Cache.setLock, Frame.owns, Next.owns, hb, Ne.symm hb, Cache.queued]
  | @enqueue m rw bh k hk =>
    cases hr
    have := c.queued_addRequest m (c.request k rw.cmd bh) b
    change _ = _ + (if bh = b then 1 else 0) at this
    change (c.bLock b).toNat + (if bh = b then 1 else 0) + _ = (c.bLock b).toNat + 0 + _
    omega
  | _ => cases hr; rfl

end

end Linux011.Buffer
