import Linux011.Buffer.Discipline

/-!
# The buffer cache as a block store

1. `Stored`: counts and locks agree with their owners, every frame knows what it takes for granted, and
   the contents are related to what was stored.
2. `Stored.run` and `Stored.next`: every step of disciplined users keeps it. `file_write` is allowed
   where what it stores will still be written (`State.Marked`).
3. `bread_stored`: `bread` returns what was last stored.
-/

namespace Linux011.Buffer

variable {α : Type*} {n : ℕ}

/-! ## The invariant -/

namespace State

/-- A holder is in the middle of a modification of `b`. -/
def Touched (s : State α n) (b : Fin n) : Prop := ∃ p, .modify b ∈ s.stack p

structure Stored (s : State α n) : Prop where
  coherent : s.Coherent
  plain : ∀ p, ∀ f ∈ s.stack p, f.Plain
  ok : ∀ p, ∀ f ∈ s.stack p, s.cache.FrameOk f
  bottom : ∀ p f, (s.stack p).getLast? = some f → f.kind.Bottom (s.held p)
  held : ∀ p, ∀ h ∈ s.held p, s.cache.Carries h.bh h.dev h.block ∧ s.cache.bUptodate h.bh = true
  twice : ∀ p b, heldRefs b (s.held p) ≤ 2
  count : ∀ b, s.refs b = (s.cache.bCount b).toNat
  lock : ∀ b, s.owners b = (s.cache.bLock b).toNat
  contents : Contents s.cache s.store s.Touched

/-- If `file_write` stores a byte next, the buffer is dirty or a write that has not moved the byte's
sector is queued. -/
def Marked (s : State α n) : Choice α → Frame n → Prop
  | .write i _, .fileWrite _ _ (.copying bh) => s.cache.bDirt bh = true ∨ s.cache.Pending bh i
  | _, _ => True

variable {s s' : State α n} {p : Pid} {f : Frame n} {fs : List (Frame n)} {ch : Choice α}

theorem refs_le (s : State α n) (p : Pid) (b : Fin n) :
    stackRefs b (s.stack p) + heldRefs b (s.held p) ≤ s.refs b :=
  Nat.add_le_add
    (Finset.single_le_sum (f := fun p => stackRefs b (s.stack p)) (fun _ _ => Nat.zero_le _)
      (Finset.mem_univ p))
    (Finset.single_le_sum (f := fun p => heldRefs b (s.held p)) (fun _ _ => Nat.zero_le _)
      (Finset.mem_univ p))

theorem owners_le (s : State α n) (p : Pid) (b : Fin n) :
    stackOwns b (s.stack p) + s.cache.queued b ≤ s.owners b :=
  Nat.add_le_add_right
    (Finset.single_le_sum (f := fun p => stackOwns b (s.stack p)) (fun _ _ => Nat.zero_le _)
      (Finset.mem_univ p)) _

/-- Nobody has a reference to a buffer that is not in use. -/
theorem refs_eq_zero (hcount : ∀ b, s.refs b = (s.cache.bCount b).toNat) {b : Fin n}
    (hb : s.cache.bCount b = 0) (p : Pid) :
    stackRefs b (s.stack p) = 0 ∧ heldRefs b (s.held p) = 0 := by
  have h1 := s.refs_le p b
  have h2 : s.refs b = 0 := by rw [hcount, hb]; rfl
  omega

/-- A buffer that is not locked has no owner. -/
theorem owners_eq_zero (hlock : ∀ b, s.owners b = (s.cache.bLock b).toNat) {b : Fin n}
    (hb : s.cache.bLock b = false) (p : Pid) :
    stackOwns b (s.stack p) = 0 ∧ s.cache.queued b = 0 := by
  have h1 := s.owners_le p b
  have h2 : s.owners b = 0 := by rw [hlock, hb]; rfl
  omega

/-- A lock has one owner. -/
theorem owners_le_one (hlock : ∀ b, s.owners b = (s.cache.bLock b).toNat)
    (hf : s.stack p = f :: fs) (b : Fin n) :
    f.owns b + s.cache.queued b ≤ (s.cache.bLock b).toNat := by
  have h1 := s.owners_le p b
  rw [hlock, hf] at h1
  simp only [stackOwns, List.map_cons, List.sum_cons] at h1
  omega

theorem queued_le_one (hlock : ∀ b, s.owners b = (s.cache.bLock b).toNat) (b : Fin n) :
    s.cache.queued b ≤ 1 := by
  have h1 := s.owners_le 0 b
  rw [hlock] at h1
  have := Bool.toNat_le (s.cache.bLock b)
  omega

/-- Nobody relies on, and nobody holds, a buffer that is not in use and not locked. -/
theorem not_relies_of_unused (hcount : ∀ b, s.refs b = (s.cache.bCount b).toNat)
    (hlock : ∀ b, s.owners b = (s.cache.bLock b).toNat) (ht : Typed (s.stack p))
    (hb : ∀ f, (s.stack p).getLast? = some f → f.kind.Entry (s.held p)) {b : Fin n}
    (hu : s.cache.Unused b) (hf : f ∈ s.stack p) : ¬ f.Relies b := by
  intro hr
  have h1 := relied ht hb hf hr
  have h2 := refs_eq_zero hcount hu.1 p
  have h3 := owners_eq_zero hlock hu.2.2 p
  omega

theorem not_held_of_unused (hcount : ∀ b, s.refs b = (s.cache.bCount b).toNat) {b : Fin n}
    (hu : s.cache.Unused b) : ∀ x ∈ s.held p, x.bh ≠ b := by
  intro x hx hb
  have h1 : 0 < heldRefs b (s.held p) := List.countP_pos_iff.2 ⟨x, hx, by simpa using hb⟩
  have h2 := refs_eq_zero hcount hu.1 p
  omega

/-- `b_count` does not overflow while every process has few references. -/
theorem count_ne_max (hcount : ∀ b, s.refs b = (s.cache.bCount b).toNat) {b : Fin n} {k : Pid → ℕ}
    (hk : ∀ p, stackRefs b (s.stack p) + heldRefs b (s.held p) ≤ k p) (hsum : ∑ p, k p < 255) :
    s.cache.bCount b ≠ 255 := by
  intro hb
  have h1 : s.refs b ≤ ∑ p, k p := by
    unfold refs
    rw [← Finset.sum_add_distrib]
    exact Finset.sum_le_sum fun p _ => hk p
  have h2 : s.refs b = 255 := by rw [hcount, hb]; rfl
  omega

namespace Stored

/-- A buffer that is not in use and not locked is nobody's. -/
theorem not_relies (h : Stored s) {b : Fin n} (hu : s.cache.Unused b) (hf : f ∈ s.stack p) :
    ¬ f.Relies b :=
  not_relies_of_unused h.count h.lock (h.coherent.typed p) (fun f hf => (h.bottom p f hf).entry) hu hf

theorem not_touched (h : Stored s) {b : Fin n} (hu : s.cache.Unused b) : ¬ s.Touched b :=
  fun ⟨_, hm⟩ => h.not_relies hu hm rfl

/-- `b_count` does not overflow. -/
theorem count_max (h : Stored s) (b : Fin n) : s.cache.bCount b ≠ 255 := by
  refine count_ne_max h.count (k := fun _ => 3) (fun p => ?_) (by simp)
  have h1 := stackRefs_le_one (h.coherent.typed p) (fun f hf => (h.plain p f hf).not_breada) b
  have h2 := h.twice p b
  omega

/-- There is no request for a buffer that is not locked. -/
theorem no_request (h : Stored s) {b : Fin n} (hl : s.cache.bLock b = false) :
    ∀ m, ∀ r ∈ s.cache.currentRequest m, r.bh ≠ b :=
  Cache.queued_eq_zero (owners_eq_zero h.lock hl 0).2

end Stored

/-! ## Steps of processes -/

theorem stored_of_touches_none (h : f.touches = none) : s.stored ch f = s.store := by
  simp [stored, h]

theorem stored_of_not_write (h : ∀ i v, ch ≠ .write i v) : s.stored ch f = s.store := by
  unfold stored
  split
  · next i v _ => exact absurd rfl (h i v)
  · rfl

/-- A modification that has begun goes on until the buffer is marked. -/
theorem modify_mem {b : Fin n} {nx : Next n} {fs' : List (Frame n)} (hc : Continues nx fs fs')
    (h : .modify b ∈ fs) : .modify b ∈ fs' := by
  cases hc with
  | goto f | sleep f => exact List.mem_cons_of_mem _ h
  | call f g => exact List.mem_cons_of_mem _ (List.mem_cons_of_mem _ h)
  | finish v => exact h
  | ret v g fs =>
    rcases List.mem_cons.1 h with rfl | h
    · exact List.mem_cons_self
    · exact List.mem_cons_of_mem _ h

/-- Who is in the middle of a modification stays there, or has marked the buffer. -/
theorem Steps.touched {nx : Next n} (h : Steps s s' p f fs ch nx) {b : Fin n} (ht : s.Touched b) :
    s'.Touched b ∨ s'.cache.bDirt b = true := by
  obtain ⟨q, hm⟩ := ht
  obtain ⟨fs', hc, hst⟩ := h.stack
  by_cases hqp : q = p
  · subst hqp
    rw [h.frame] at hm
    rcases List.mem_cons.1 hm with rfl | hm
    · have ho := h.outcome
      generalize hx : (s'.cache, nx) = x at ho
      generalize s'.cache = c' at hx ⊢
      cases ho with
      | quiet hqt =>
        cases hx
        rcases hqt.idle with hi | rfl
        · cases hi
        · cases hc
          exact .inl ⟨q, by rw [hst]; simp⟩
      | drop bh hqt hrefs =>
        have := hrefs bh
        simp [Frame.refs] at this
      | store =>
        cases hx
        cases hc
        exact .inl ⟨q, by rw [hst]; simp⟩
      | dirty => cases hx; exact .inr (by simp [Cache.setDirt])
    · exact .inl ⟨q, by rw [hst, Function.update_self]; exact modify_mem hc hm⟩
  · exact .inl ⟨q, by rwa [hst, Function.update_of_ne hqp]⟩

/-- The contents after a step of a process. The buffers in the middle of a modification may change,
if those that no longer are have been marked. -/
theorem Steps.contents {nx : Next n} {touched touched' : Fin n → Prop}
    (hs : Steps s s' p f fs ch nx) (h : Contents s.cache s.store touched)
    (hq : s.cache.toQueues.Inv) (hok : s.cache.FrameOk f)
    (hblock : ∀ dev block bh, f = .getblk dev block (.victim bh) → Block.InRange block)
    (hscan : ∀ m rw bh k, f = .makeRequest m rw bh (.scan k) → rw.ahead = false)
    (howns : ∀ b, f.owns b + s.cache.queued b ≤ (s.cache.bLock b).toNat)
    (hunused : ∀ b, s.cache.Unused b →
      ¬ touched b ∧ ∀ m, ∀ r ∈ s.cache.currentRequest m, r.bh ≠ b)
    (hsafe : ∀ bh i v, f.touches = some bh → ch = .write i v →
      touched' bh ∨ s.cache.bDirt bh = true ∨ s.cache.Pending bh i)
    (hkeep : ∀ b, touched b → touched' b ∨ s'.cache.bDirt b = true) :
    Contents s'.cache s'.store touched' := by
  have ho := hs.outcome
  rw [hs.store]
  have hup : ∀ bh, f.touches = some bh → s.cache.bUptodate bh = true := by
    intro bh ht
    cases f with
    | modify b => cases ht; exact hok
    | fileWrite dev blocks pc =>
      cases pc with
      | copying b => cases ht; exact hok
      | _ => cases ht
    | _ => cases ht
  generalize hx : (s'.cache, nx) = x at ho
  generalize hc' : s'.cache = c' at hx hkeep ⊢
  cases ho with
  | quiet hqt =>
    cases hx
    rw [show s.stored ch f = s.store from ?_]
    · exact h.mono hkeep
    · exact hqt.idle.elim stored_of_touches_none fun hn => hs.sleep f hn
  | take hfind =>
    cases hx
    rw [stored_of_touches_none rfl]
    exact (h.setCount _ _).mono hkeep
  | drop bh hqt hrefs =>
    cases hx
    rw [show s.stored ch f = s.store from ?_]
    · exact (h.setCount _ _).mono hkeep
    · exact hqt.idle.elim stored_of_touches_none fun hn => hs.sleep f hn
  | @reassign dev block bh _ hl hcount hd hfind hm =>
    cases hx
    rw [stored_of_touches_none rfl]
    obtain ⟨hnt, hno⟩ := hunused bh ⟨hcount, hd, hl⟩
    exact (h.reassign hq hd hnt hno hfind (hblock dev block bh rfl) hm).mono hkeep
  | lock hl hg =>
    cases hx
    rw [stored_of_touches_none rfl]
    exact (h.setLock _ _).mono hkeep
  | unlock ha =>
    exact absurd ha (by simp [hscan _ _ _ _ rfl])
  | @enqueue m rw bh k hk =>
    cases hx
    rw [stored_of_touches_none rfl]
    have hno : ∀ m, ∀ r ∈ s.cache.currentRequest m, r.bh ≠ bh := by
      refine Cache.queued_eq_zero ?_
      have := howns bh
      simp only [Frame.owns, if_true] at this
      have := Bool.toNat_le (s.cache.bLock bh)
      omega
    refine (h.addRequest hno ?_ (hok.2 _ rfl)).mono hkeep
    have ha := hscan m rw bh _ rfl
    cases rw with
    | read =>
      obtain ⟨h1, h2⟩ := hok.1 rfl
      exact ⟨h1 ▸ m.isLt, by simpa [← h1] using h2⟩
    | write => exact h.driver bh ((hok.2 _ rfl).2 rfl)
    | readA | writeA => cases ha
  | @store _ bh i v ht hw =>
    cases hx
    subst hw
    simp only [stored, ht]
    -- what is stored to counts as touched until then
    have hm : Contents s.cache s.store fun b => touched b ∨ touched' b :=
      h.mono fun b hb => .inl (.inl hb)
    refine (hm.setData hq (hup bh ht) ?_ ?_ v).mono ?_
    · have := howns bh
      have := Bool.toNat_le (s.cache.bLock bh)
      omega
    · exact (hsafe bh i v ht rfl).imp .inr id
    · rintro b (hb | hb)
      · exact hkeep b hb
      · exact .inl hb
  | @mark dev blocks bh =>
    cases hx
    rw [stored_of_touches_none rfl]
    have hm : Contents (s.cache.setDirt bh true) s.store touched := h.setDirt hok fun b _ hb => hb
    exact hm.mono hkeep
  | copied hw =>
    cases hx
    rw [stored_of_not_write hw]
    exact h.mono hkeep
  | @dirty bh hw =>
    cases hx
    rw [stored_of_not_write hw]
    have hm : Contents (s.cache.setDirt bh true) s.store touched := h.setDirt hok fun b _ hb => hb
    exact hm.mono hkeep

/-- The contents after a step of a process. -/
theorem Stored.run_contents (h : Stored s) (hf : s.stack p = f :: fs) (hr : s.run p f fs ch = some s')
    (hmark : s.Marked ch f) : Contents s'.cache s'.store s'.Touched := by
  have hs := Steps.of_run hf hr
  have hplain := h.plain p f (hf ▸ List.mem_cons_self)
  refine hs.contents h.contents h.coherent.queues (h.ok p f (hf ▸ List.mem_cons_self)) ?_ ?_
    (owners_le_one h.lock hf) ?_ ?_ fun b hb => hs.touched hb
  · rintro dev block bh rfl
    exact hplain
  · rintro m rw bh k rfl
    exact hplain
  · exact fun b hb => ⟨h.not_touched hb, h.no_request hb.2.2⟩
  · intro bh i v ht hw
    subst hw
    cases f with
    | modify b =>
      cases ht
      obtain ⟨fs', hc, hst⟩ := hs.stack
      cases hc
      exact .inl ⟨p, by rw [hst]; simp⟩
    | fileWrite dev blocks pc =>
      cases pc with
      | copying b => cases ht; exact .inr hmark
      | _ => cases ht
    | _ => cases ht

section

variable {nx : Next n}

/-- A property of all frames is kept if the new ones have it, and the one that a value is returned to. -/
theorem Steps.forall_frames {Q : Pid → Frame n → Prop} (hs : Steps s s' p f fs ch nx)
    (hnew : ∀ g ∈ nx.frames, Q p g) (hold : ∀ q, ∀ g ∈ s.stack q, Q q g)
    (hret : ∀ v g gs, nx = .ret v → fs = g :: gs → Q p (g.receive v)) :
    ∀ q, ∀ g ∈ s'.stack q, Q q g := by
  intro q g hg
  obtain ⟨fs', hc, hst⟩ := hs.stack
  rw [hst] at hg
  by_cases hqp : q = p
  · subst hqp
    rw [Function.update_self] at hg
    refine hc.forall_mem (P := Q q) hnew (fun g hg => hold q g ?_) (fun v g hv hg => ?_) g hg
    · rw [hs.frame]
      exact List.mem_cons_of_mem _ hg
    · obtain ⟨gs, rfl⟩ := List.head?_eq_some_iff.1 hg
      exact hret v g gs hv rfl
  · exact hold q g (by rwa [Function.update_of_ne hqp] at hg)

/-- The first call of a process stays the same, and so does what it then holds. -/
theorem Steps.forall_last {Q : Pid → Kind n → List (Held n) → Prop} (hs : Steps s s' p f fs ch nx)
    (h : ∀ q g, (s.stack q).getLast? = some g → Q q g.kind (s.held q)) :
    ∀ q g, (s'.stack q).getLast? = some g → Q q g.kind (s'.held q) := by
  intro q g hg
  obtain ⟨fs', hc, hst⟩ := hs.stack
  obtain ⟨hl, hheld, hgive⟩ := hs.held
  rw [hst] at hg
  rw [hheld]
  by_cases hqp : q = p
  · subst hqp
    rw [Function.update_self] at hg ⊢
    rcases hgive with ⟨rfl, -⟩ | ⟨v, rfl, rfl, rfl⟩
    · obtain ⟨g', h1, h2⟩ := hc.getLast hs.outcome.keeps hg
      rw [h2]
      exact h q g' (hs.frame ▸ h1)
    · cases hc
      cases hg
  · rw [Function.update_of_ne hqp] at hg ⊢
    exact h q g hg

/-- What a process holds after a step: what it held, and what its last call has given it. -/
theorem Steps.held_eq (hs : Steps s s' p f fs ch nx) (q : Pid) : s'.held q = s.held q ∨
    q = p ∧ fs = [] ∧ ∃ v, nx = .ret v ∧ s'.held q = f.gives v ++ s.held q := by
  obtain ⟨hl, hheld, hgive⟩ := hs.held
  rw [hheld]
  by_cases hqp : q = p
  · subst hqp
    rw [Function.update_self]
    rcases hgive with ⟨rfl, -⟩ | ⟨v, rfl, rfl, rfl⟩
    · exact .inl rfl
    · exact .inr ⟨rfl, rfl, v, rfl, rfl⟩
  · exact .inl (Function.update_of_ne hqp _ _)

/-- A buffer that is in use keeps its key and its bit `b_uptodate`. -/
theorem Steps.stays (hs : Steps s s' p f fs ch nx) (hq : s.cache.toQueues.Inv) {b : Fin n}
    (hb : ¬ s.cache.Unused b) : s'.cache.bDev b = s.cache.bDev b ∧
      s'.cache.bBlocknr b = s.cache.bBlocknr b ∧ s'.cache.bUptodate b = s.cache.bUptodate b := by
  obtain ⟨-, ⟨e1, e2⟩ | ⟨_, _, bh, -, -, hun, hfind, hm⟩⟩ := hs.outcome.known
  · rw [e1, e2]
    exact ⟨rfl, rfl, rfl⟩
  · exact (Cache.reassign_known hq hfind hm).2 b fun e => hb (e ▸ hun)

/-- What a call returns is as its kind says, before the step and after it. -/
theorem Steps.valueOk (hs : Steps s s' p f fs ch nx) (hok : s.cache.FrameOk f) {bh : Fin n}
    (hn : nx = .ret (some bh)) : s.cache.ValueOk bh f.kind ∧ s'.cache.ValueOk bh f.kind := by
  subst hn
  have h := hs.outcome.valueOk hok
  refine ⟨h, ?_⟩
  obtain ⟨-, ⟨h1, h2⟩ | ⟨_, _, _, -, hn, -⟩⟩ := hs.outcome.known
  · exact h.congr h1 h2
  · cases hn

/-- The frames know what they take for granted after a step as before it. -/
theorem Steps.ok (hs : Steps s s' p f fs ch nx) (hco : Coherent s)
    (hok : ∀ q, ∀ g ∈ s.stack q, s.cache.FrameOk g)
    (hrelies : ∀ q, ∀ g ∈ s.stack q, ∀ b, s.cache.Unused b → ¬ g.Relies b)
    (hdirt : ∀ b, s.cache.bDirt b = true → s.cache.bUptodate b = true) :
    ∀ q, ∀ g ∈ s'.stack q, s'.cache.FrameOk g := by
  have hf : s.cache.FrameOk f := hok p f (hs.frame ▸ List.mem_cons_self)
  have hother : ∀ q, ∀ g ∈ s.stack q, s'.cache.FrameOk g := fun q g hg =>
    hs.outcome.frameOk_other hco.queues (hok q g hg) (hrelies q g hg)
  refine hs.forall_frames (hs.outcome.frameOk hco.queues hf hdirt) hother fun v g gs hv hg => ?_
  subst hg
  obtain ⟨hk, -⟩ := List.isChain_cons_cons.1 (show Typed (f :: g :: gs) from hs.frame ▸ hco.typed p)
  have hm : g ∈ s.stack p := hs.frame ▸ List.mem_cons_of_mem _ List.mem_cons_self
  exact Frame.receive_ok hk (hother p g hm) fun bh hbh => (hs.valueOk hf (by rw [hv, hbh])).2

/-- `b_count` stays the number of references. -/
theorem Steps.count (hs : Steps s s' p f fs ch nx) (ht : Typed (s.stack p))
    (hok : s.cache.FrameOk f) (hcount : ∀ b, s.refs b = (s.cache.bCount b).toNat)
    (hmax : ∀ b, s.cache.bCount b ≠ 255) (b : Fin n) :
    s'.refs b = (s'.cache.bCount b).toNat := by
  have hmin : ∀ b, f.refs b ≤ (s.cache.bCount b).toNat := by
    intro b
    have h1 := s.refs_le p b
    rw [hcount, hs.frame] at h1
    simp only [stackRefs, List.map_cons, List.sum_cons] at h1
    omega
  have h1 := hs.refs ht (fun bh hn => (hs.valueOk hok hn).1) b
  have h2 := hs.outcome.count hmax hmin b
  have h3 := hcount b
  omega

/-- The lock of a buffer stays with its owner. -/
theorem Steps.lock (hs : Steps s s' p f fs ch nx)
    (hlock : ∀ b, s.owners b = (s.cache.bLock b).toNat) (b : Fin n) :
    s'.owners b = (s'.cache.bLock b).toNat := by
  have hmin : ∀ b, f.owns b ≤ (s.cache.bLock b).toNat := by
    intro b
    have h1 := s.owners_le p b
    rw [hlock, hs.frame] at h1
    simp only [stackOwns, List.map_cons, List.sum_cons] at h1
    omega
  have h1 := hs.owners b
  have h2 := hs.outcome.locked hmin b
  have h3 := hlock b
  omega

/-- A second reference is to the block that is read. -/
theorem heldRefs_gives {c : Cache α n} {hs : List (Held n)} {bh : Fin n} {dev : Dev} {block : Block}
    (hx : ∀ x ∈ hs, c.Carries x.bh x.dev x.block) (hbh : c.Carries bh dev block)
    (hcount : hs.countP (fun h => h.dev = dev ∧ h.block = block) ≤ 1)
    (htwice : ∀ b, heldRefs b hs ≤ 2) (b : Fin n) : heldRefs b (⟨bh, dev, block⟩ :: hs) ≤ 2 := by
  by_cases hb : bh = b
  · subst hb
    have hle : heldRefs bh hs ≤ 1 := by
      refine (List.countP_mono_left fun x hm hxb => ?_).trans hcount
      obtain ⟨h1, h2⟩ := hx x hm
      obtain ⟨h3, h4⟩ := hbh
      obtain rfl : x.bh = bh := by simpa using hxb
      simp [← h1, ← h2, ← h3, ← h4]
    simp only [heldRefs, List.countP_cons] at hle ⊢
    split <;> omega
  · simpa [heldRefs, hb] using htwice b

end

theorem Stored.run (h : Stored s) (hf : s.stack p = f :: fs) (hr : s.run p f fs ch = some s')
    (hch : ∀ dev block, ch = .inode dev block → Block.InRange block) (hmark : s.Marked ch f)
    (hco : Coherent s') : Stored s' := by
  have hs := Steps.of_run hf hr
  have hok := h.ok p f (hf ▸ List.mem_cons_self)
  -- what is held stays as it is
  have hkept : ∀ q, ∀ x ∈ s.held q,
      s'.cache.Carries x.bh x.dev x.block ∧ s'.cache.bUptodate x.bh = true := by
    intro q x hx
    obtain ⟨h1, h2⟩ := h.held q x hx
    obtain ⟨e1, e2, e3⟩ := hs.stays h.coherent.queues fun hu => not_held_of_unused h.count hu x hx rfl
    exact ⟨⟨e1.trans h1.1, e2.trans h1.2⟩, e3.trans h2⟩
  -- the first call of a process gives it a buffer only if it is `bread`
  have hgiven : ∀ q, s'.held q = s.held q ∨ ∃ dev block bh,
      s'.held q = ⟨bh, dev, block⟩ :: s.held q ∧ s'.cache.ValueOk bh (.bread dev block) ∧
        Kind.Bottom (s.held q) (.bread dev block : Kind n) := by
    intro q
    rcases hs.held_eq q with he | ⟨rfl, rfl, v, hv, he⟩
    · exact .inl he
    · have hbot := h.bottom q f (by simp [hf])
      cases v with
      | none => exact .inl (by rw [he]; cases f <;> rfl)
      | some bh =>
        have hval := (hs.valueOk hok hv).2
        cases f with
        | bread dev block pc => exact .inr ⟨dev, block, bh, he, hval, hbot⟩
        | getHashTable | getblk | breada => exact hbot.elim
        | _ => exact .inl he
  refine ⟨hco, ?_, hs.ok h.coherent h.ok (fun q g hg b hb => h.not_relies hb hg) h.contents.dirt,
    hs.forall_last (Q := fun _ k hs => k.Bottom hs) h.bottom, fun q x hx => ?_, fun q b => ?_,
    hs.count (h.coherent.typed p) hok h.count h.count_max, hs.lock h.lock, h.run_contents hf hr hmark⟩
  · refine hs.forall_frames (Q := fun _ => Frame.Plain) ?_ h.plain fun v g gs _ hg => ?_
    · exact (h.plain p f (hf ▸ List.mem_cons_self)).exec hch
    · subst hg
      exact (h.plain p g (hf ▸ List.mem_cons_of_mem _ List.mem_cons_self)).receive v
  · rcases hgiven q with he | ⟨dev, block, bh, he, hval, -⟩
    · exact hkept q x (he ▸ hx)
    · rcases List.mem_cons.1 (he ▸ hx) with rfl | hx
      · exact hval
      · exact hkept q x hx
  · rcases hgiven q with he | ⟨dev, block, bh, he, hval, hbot⟩
    · rw [he]
      exact h.twice q b
    · rw [he]
      exact heldRefs_gives (fun x hx => (hkept q x hx).1) hval.1 hbot (h.twice q) b

/-! ## Steps of the drivers -/

end State

namespace Cache

/-- The request after one more sector. -/
def moved (r : Request n) : Request n :=
  { r with
    sector := r.sector + 1
    buffer := r.buffer + 1
    nrSectors := r.nrSectors - 1 }

theorem transfer_eq_some {c c' : Cache α n} {m : Fin 7} (h : c.transfer m = some c') :
    ∃ r rs, c.currentRequest m = r :: rs ∧ r.nrSectors ≠ 0 ∧
      (r.cmd = .read ∧ c' = (c.setData r.bh (Fin.ofNat 2 r.buffer) (c.disk r.dev r.sector)).setQueue m
          (moved r :: rs) ∨
        r.cmd = .write ∧ c' = (c.setDisk r.dev r.sector (c.bData r.bh (Fin.ofNat 2 r.buffer))).setQueue m
          (moved r :: rs)) := by
  unfold transfer at h
  split at h
  · cases h
  · next r rs hq =>
    split at h
    · cases h
    · next hn =>
      refine ⟨r, rs, hq, hn, ?_⟩
      cases hcmd : r.cmd with
      | read =>
        simp only [hcmd] at h
        exact .inl ⟨rfl, by simpa only [moved, hcmd] using (Option.some.inj h).symm⟩
      | write =>
        simp only [hcmd] at h
        exact .inr ⟨rfl, by simpa only [moved, hcmd] using (Option.some.inj h).symm⟩

theorem queued_moved {c : Cache α n} {m : Fin 7} {r : Request n} {rs : List (Request n)}
    (hq : c.currentRequest m = r :: rs) (b : Fin n) :
    (c.setQueue m (moved r :: rs)).queued b = c.queued b := by
  have h1 := c.queued_setQueue m (moved r :: rs) b
  have h2 : (moved r).bh = r.bh := rfl
  rw [hq] at h1
  simp only [List.countP_cons, h2] at h1
  omega

theorem endRequest_eq_some {c c' : Cache α n} {m : Fin 7} (h : c.endRequest m true = some c') :
    ∃ r rs, c.currentRequest m = r :: rs ∧ r.nrSectors = 0 ∧
      c' = ((c.setUptodate r.bh true).setLock r.bh false).setQueue m rs := by
  unfold endRequest at h
  split at h
  · cases h
  · next r rs hq =>
    split at h
    · cases h
    · next hn => exact ⟨r, rs, hq, by simpa using hn, by simpa using h.symm⟩

/-- A read that arrives changes nothing for a frame that does not own the buffer. -/
theorem FrameOk.setUptodate {c : Cache α n} {f : Frame n} (h : c.FrameOk f) {b : Fin n}
    (hb : f.owns b = 0) : (c.setUptodate b true).FrameOk f := by
  have hup : ∀ b', c.bUptodate b' = true → Function.update c.bUptodate b true b' = true := by
    intro b' hu
    by_cases hbb : b' = b
    · subst hbb; simp
    · rwa [Function.update_of_ne hbb]
  cases f with
  | getblk dev block pc => cases pc <;> exact h
  | bread dev block pc => cases pc <;> exact h
  | makeRequest m rw bh pc =>
    refine ⟨h.1, fun k hk => ?_⟩
    subst hk
    have hne : bh ≠ b := by rintro rfl; simp [Frame.owns] at hb
    simpa [Cache.setUptodate, hne] using h.2 k rfl
  | syncInodes pc =>
    cases pc with
    | got bh | modifying bh | release bh => exact hup bh h
    | _ => trivial
  | fileWrite dev blocks pc =>
    cases pc with
    | got bh | copying bh => exact hup bh h
    | _ => trivial
  | modify bh => exact hup bh h
  | _ => trivial

end Cache

namespace State

variable {s s' : State α n}

/-- A transfer is for the same buffers as before. -/
theorem lock_transfer (hlock : ∀ b, s.owners b = (s.cache.bLock b).toNat) {m : Fin 7} {c : Cache α n}
    (hc : s.cache.transfer m = some c) (b : Fin n) :
    owners { s with cache := c } b = (c.bLock b).toNat := by
  obtain ⟨r, rs, hq, hn, hcase⟩ := Cache.transfer_eq_some hc
  have hqueued := Cache.queued_moved hq b
  rcases hcase with ⟨hcmd, rfl⟩ | ⟨hcmd, rfl⟩
  · exact (congrArg _ hqueued).trans (hlock b)
  · exact (congrArg _ hqueued).trans (hlock b)

section

variable {m : Fin 7} {r : Request n} {rs : List (Request n)}

/-- The current request is the only owner of its buffer. -/
theorem owns_current (hlock : ∀ b, s.owners b = (s.cache.bLock b).toNat)
    (hq : s.cache.currentRequest m = r :: rs) : ∀ p, ∀ f ∈ s.stack p, f.owns r.bh = 0 := by
  intro p f hf
  by_contra hne
  have h1 := s.owners_le p r.bh
  have h2 := s.cache.queued_setQueue m rs r.bh
  have h3 := Bool.toNat_le (s.cache.bLock r.bh)
  have h4 := stackOwns_pos hf hne
  rw [hlock] at h1
  rw [hq] at h2
  simp only [List.countP_cons, decide_true, if_true] at h2
  omega

/-- The end of the current request unlocks its buffer. -/
theorem lock_endRequest (hlock : ∀ b, s.owners b = (s.cache.bLock b).toNat)
    (hq : s.cache.currentRequest m = r :: rs) (b : Fin n) :
    owners { s with cache := ((s.cache.setUptodate r.bh true).setLock r.bh false).setQueue m rs } b =
      (Function.update s.cache.bLock r.bh false b).toNat := by
  have h1 := hlock b
  have h2 := s.cache.queued_setQueue m rs b
  rw [hq] at h2
  simp only [List.countP_cons] at h2
  unfold owners at h1 ⊢
  change ∑ p, stackOwns b (s.stack p) + (s.cache.setQueue m rs).queued b = _
  by_cases hb : b = r.bh
  · subst hb
    have h3 := Bool.toNat_le (s.cache.bLock r.bh)
    simp only [decide_true, if_true] at h2
    rw [Function.update_self, Bool.toNat_false]
    omega
  · rw [Function.update_of_ne hb]
    simp only [decide_eq_true_eq, if_neg (Ne.symm hb)] at h2
    omega

end

theorem Stored.transfer (h : Stored s) {m : Fin 7} {c : Cache α n} (hc : s.cache.transfer m = some c) :
    Stored { s with cache := c } := by
  have hco : Coherent { s with cache := c } := h.coherent.next (e := .transfer m) (by simp [next, hc])
  have hlock := lock_transfer h.lock hc
  obtain ⟨r, rs, hq, hn, hcase⟩ := Cache.transfer_eq_some hc
  have h1 := queued_le_one h.lock r.bh
  rcases hcase with ⟨hcmd, rfl⟩ | ⟨hcmd, rfl⟩
  · exact ⟨hco, h.plain, fun p f hf => (h.ok p f hf).congr rfl rfl rfl, h.bottom, h.held, h.twice,
      h.count, hlock, h.contents.transferRead hq hn hcmd h1⟩
  · exact ⟨hco, h.plain, fun p f hf => (h.ok p f hf).congr rfl rfl rfl, h.bottom, h.held, h.twice,
      h.count, hlock, h.contents.transferWrite h.coherent.queues hq hn hcmd h1⟩

/-- What is up to date stays so when a request ends. -/
theorem update_uptodate {c : Cache α n} {b : Fin n} (hb : c.bUptodate b = true) (b' : Fin n) :
    Function.update c.bUptodate b' true b = true := by
  by_cases hbb : b = b'
  · subst hbb; simp
  · rwa [Function.update_of_ne hbb]

theorem Stored.endRequest (h : Stored s) {m : Fin 7} {c : Cache α n}
    (hc : s.cache.endRequest m true = some c) : Stored { s with cache := c } := by
  have hco : Coherent { s with cache := c } :=
    h.coherent.next (e := .complete m true) (by simp [next, hc])
  obtain ⟨r, rs, hq, hn, rfl⟩ := Cache.endRequest_eq_some hc
  have howns := owns_current h.lock hq
  refine ⟨hco, h.plain, fun p f hf => ?_, h.bottom, fun p x hx => ?_, h.twice, h.count,
    lock_endRequest h.lock hq, h.contents.endRequest h.coherent.queues hq hn (queued_le_one h.lock r.bh)⟩
  · exact ((h.ok p f hf).setUptodate (howns p f hf)).congr rfl rfl rfl
  · exact ⟨(h.held p x hx).1, update_uptodate (h.held p x hx).2 r.bh⟩

/-! ## Runs -/

/-- A process gives up one reference. -/
theorem heldRefs_eraseP {hs : List (Held n)} {x : Held n} {bh : Fin n} (hx : x ∈ hs) (hb : x.bh = bh)
    (b : Fin n) : heldRefs b (hs.eraseP (·.bh = bh)) + (if bh = b then 1 else 0) = heldRefs b hs := by
  obtain ⟨y, l₁, l₂, -, hy, rfl, he⟩ := List.exists_of_eraseP hx (p := (·.bh = bh)) (by simpa using hb)
  obtain rfl : y.bh = bh := by simpa using hy
  rw [he]
  simp only [heldRefs, List.countP_append, List.countP_cons, decide_eq_true_eq]
  omega

/-- A process that is in no call begins one, with `g`, and keeps `hs` of the buffers it holds. -/
def enter (s : State α n) (p : Pid) (g : Frame n) (hs : List (Held n)) : State α n :=
  (s.setStack p [g]).setHeld p hs

theorem enter_stack {g f : Frame n} {hs : List (Held n)} {q : Pid} (hf : f ∈ (s.enter p g hs).stack q) :
    f = g ∧ q = p ∨ f ∈ s.stack q ∧ q ≠ p := by
  change f ∈ Function.update s.stack p [g] q at hf
  by_cases hqp : q = p
  · subst hqp; exact .inl ⟨by simpa using hf, rfl⟩
  · exact .inr ⟨by rwa [Function.update_of_ne hqp] at hf, hqp⟩

/-- The first calls after a process has begun one. -/
theorem enter_last {g f : Frame n} {hs : List (Held n)} {q : Pid}
    (hf : ((s.enter p g hs).stack q).getLast? = some f) :
    f = g ∧ q = p ∨ (s.stack q).getLast? = some f ∧ q ≠ p := by
  change (Function.update s.stack p [g] q).getLast? = some f at hf
  by_cases hqp : q = p
  · subst hqp
    rw [Function.update_self] at hf
    exact .inl ⟨by simpa using hf.symm, rfl⟩
  · exact .inr ⟨by rwa [Function.update_of_ne hqp] at hf, hqp⟩

@[simp] theorem enter_held_self {g : Frame n} {hs : List (Held n)} : (s.enter p g hs).held p = hs :=
  Function.update_self ..

theorem enter_held_of_ne {g : Frame n} {hs : List (Held n)} {q : Pid} (h : q ≠ p) :
    (s.enter p g hs).held q = s.held q :=
  Function.update_of_ne h ..

theorem enter_refs {g : Frame n} {hs : List (Held n)} (he : s.stack p = []) {b : Fin n}
    (hrefs : g.refs b + heldRefs b hs = heldRefs b (s.held p)) : (s.enter p g hs).refs b = s.refs b := by
  have h1 := Count.sum_update s.stack (stackRefs b) p [g]
  have h2 := Count.sum_update s.held (heldRefs b) p hs
  simp only [he, stackRefs, List.map_cons, List.map_nil, List.sum_cons, List.sum_nil] at h1
  change ∑ q, stackRefs b (Function.update s.stack p [g] q) +
    ∑ q, heldRefs b (Function.update s.held p hs q) = _
  simp only [refs, stackRefs] at h1 ⊢
  omega

theorem enter_owners {g : Frame n} {hs : List (Held n)} (he : s.stack p = []) {b : Fin n}
    (howns : g.owns b = 0) : (s.enter p g hs).owners b = s.owners b := by
  have h1 := Count.sum_update s.stack (stackOwns b) p [g]
  simp only [he, stackOwns, List.map_cons, List.map_nil, List.sum_cons, List.sum_nil] at h1
  change ∑ q, stackOwns b (Function.update s.stack p [g] q) + s.cache.queued b = _
  simp only [owners, stackOwns] at h1 ⊢
  omega

theorem enter_touched {g : Frame n} {hs : List (Held n)} (he : s.stack p = []) {b : Fin n}
    (h : s.Touched b) : (s.enter p g hs).Touched b := by
  obtain ⟨q, hm⟩ := h
  refine ⟨q, ?_⟩
  change _ ∈ Function.update s.stack p [g] q
  by_cases hqp : q = p
  · subst hqp
    rw [he] at hm
    cases hm
  · rwa [Function.update_of_ne hqp]

/-- What a process keeps when it starts a call, it held before. -/
theorem mem_giveUp {hs : List (Held n)} {c : Call n} {x : Held n} (h : x ∈ giveUp hs c) : x ∈ hs := by
  cases c with
  | brelse buf =>
    cases buf with
    | none => exact h
    | some bh => exact List.mem_of_mem_eraseP h
  | _ => exact h

/-- The references of the process, when it starts a call. -/
theorem giveUp_refs (hs : List (Held n)) {c : Call n}
    (hc : ∀ bh, c = .brelse (some bh) → ∃ x ∈ hs, x.bh = bh) (b : Fin n) :
    c.frame.refs b + heldRefs b (giveUp hs c) = heldRefs b hs := by
  cases c with
  | brelse buf =>
    cases buf with
    | none => exact Nat.zero_add _
    | some bh =>
      obtain ⟨x, hx, hxb⟩ := hc bh rfl
      have h1 := heldRefs_eraseP hx hxb b
      simp only [Call.frame, Frame.refs, giveUp]
      omega
  | _ => exact Nat.zero_add _

theorem frame_owns (c : Call n) (b : Fin n) : c.frame.owns b = 0 := by
  cases c <;> rfl

theorem Stored.start (h : Stored s) {c : Call n} (hd : s.Disciplined (.start c))
    (hs : s.next (.start c) = some s') : Stored s' := by
  have hco := h.coherent.next hs
  obtain ⟨p, hp, he, rfl⟩ := next_start hs
  change Coherent (s.enter p c.frame (giveUp (s.held p) c)) at hco
  change Stored (s.enter p c.frame (giveUp (s.held p) c))
  have hrefs := fun b => giveUp_refs (s.held p) (c := c) (b := b) <| by
    rintro bh rfl
    exact hd p hp
  refine ⟨hco, fun q f hf => ?_, fun q f hf => ?_, fun q f hf => ?_, fun q x hx => ?_, fun q b => ?_,
    fun b => (enter_refs he (hrefs b)).trans (h.count b),
    fun b => (enter_owners he (frame_owns c b)).trans (h.lock b),
    h.contents.mono fun b hb => .inl (enter_touched he hb)⟩
  · rcases enter_stack hf with ⟨rfl, -⟩ | ⟨hf, -⟩
    · cases c with
      | bread dev block => exact hd.1
      | fileWrite dev blocks => exact hd
      | breada => exact hd.elim
      | getblk => exact hd.elim
      | _ => trivial
    · exact h.plain q f hf
  · rcases enter_stack hf with ⟨rfl, -⟩ | ⟨hf, -⟩
    · cases c with
      | modify bh =>
        obtain ⟨x, hx, rfl⟩ := hd p hp
        exact (h.held p x hx).2
      | _ => trivial
    · exact h.ok q f hf
  · rcases enter_last hf with ⟨rfl, rfl⟩ | ⟨hf, hqp⟩
    · rw [enter_held_self]
      cases c with
      | bread dev block => exact hd.2 q hp
      | modify bh => exact hd q hp
      | getHashTable | getblk | breada => exact hd.elim
      | _ => trivial
    · rw [enter_held_of_ne hqp]
      exact h.bottom q f hf
  · by_cases hqp : q = p
    · subst hqp
      rw [enter_held_self] at hx
      exact h.held q x (mem_giveUp hx)
    · rw [enter_held_of_ne hqp] at hx
      exact h.held q x hx
  · by_cases hqp : q = p
    · subst hqp
      rw [enter_held_self]
      have := hrefs b
      have := h.twice q b
      omega
    · rw [enter_held_of_ne hqp]
      exact h.twice q b

/-- Every store of `file_write` is into a marked buffer. -/
def KeepsMark (s : State α n) : Event α n → Prop
  | .run ch =>
    match s.cur.map s.stack with
    | some (f :: _) => s.Marked ch f
    | _ => True
  | _ => True

/-- **Steps of disciplined users keep the contents of the blocks.** -/
theorem Stored.next (h : Stored s) {e : Event α n} (hd : s.Disciplined e) (hk : s.KeepsMark e)
    (hs : s.next e = some s') : Stored s' := by
  have hco := h.coherent.next hs
  cases e with
  | schedule p =>
    obtain ⟨-, rfl⟩ := next_schedule hs
    exact ⟨hco, h.plain, h.ok, h.bottom, h.held, h.twice, h.count, h.lock, h.contents⟩
  | yield =>
    obtain ⟨p, -, -, rfl⟩ := next_yield hs
    exact ⟨hco, h.plain, h.ok, h.bottom, h.held, h.twice, h.count, h.lock, h.contents⟩
  | start c => exact h.start hd hs
  | run ch =>
    obtain ⟨p, f, fs, hp, hf, hr⟩ := next_run hs
    refine h.run hf hr ?_ (by simpa [KeepsMark, hp, hf] using hk) hco
    rintro dev block rfl
    exact hd
  | transfer m =>
    obtain ⟨c, hc, rfl⟩ := next_transfer hs
    exact h.transfer hc
  | complete m uptodate =>
    obtain ⟨c, hc, rfl⟩ := next_complete hs
    obtain rfl : uptodate = true := hd
    exact h.endRequest hc

theorem Init.stored [NeZero n] (h : Init s) : Stored s := by
  have hco := h.coherent
  obtain ⟨blocknr, data, requestFn, disk, h0, rfl⟩ := h
  refine ⟨hco, fun _ _ hf => (List.not_mem_nil hf).elim, fun _ _ hf => (List.not_mem_nil hf).elim,
    fun _ _ hf => by simp [boot] at hf, fun _ _ hx => (List.not_mem_nil hx).elim, fun _ _ => by simp [boot, heldRefs],
    fun b => by simp [boot, refs, stackRefs, heldRefs], fun b => by simp [boot, owners, stackOwns, Cache.queued], ?_⟩
  refine ⟨fun b hu => ?_, fun b hu => ?_, fun b hu => ?_, fun _ _ _ _ _ => rfl, h0, fun b hu => ?_,
    fun b hb => ?_, fun _ _ hr => (List.not_mem_nil hr).elim⟩
  · simp [boot] at hu
  · simp [boot] at hu
  · simp [boot] at hu
  · simp [boot] at hu
  · exact absurd rfl hb

/-! ## The block store -/

/-- The steps of users that follow the discipline, none of which is `file_write`. -/
def Uses (s : State α n) (e : Event α n) : Prop :=
  s.Disciplined e ∧ ∀ dev blocks, e ≠ .start (.fileWrite dev blocks)

/-- Without a call of `file_write` there is no frame of it. -/
theorem noFileWrite_next (h : ∀ p, ∀ f ∈ s.stack p, ∀ dev, f.kind ≠ .fileWrite dev)
    {e : Event α n} (he : ∀ dev blocks, e ≠ .start (.fileWrite dev blocks)) (hs : s.next e = some s') :
    ∀ p, ∀ f ∈ s'.stack p, ∀ dev, f.kind ≠ .fileWrite dev := by
  cases e with
  | schedule p => obtain ⟨-, rfl⟩ := next_schedule hs; exact h
  | yield => obtain ⟨p, -, -, rfl⟩ := next_yield hs; exact h
  | start c =>
    obtain ⟨p, -, he', rfl⟩ := next_start hs
    intro q f hf
    change f ∈ Function.update s.stack p [c.frame] q at hf
    by_cases hqp : q = p
    · subst hqp
      obtain rfl : f = c.frame := by simpa using hf
      cases c with
      | fileWrite dev blocks => exact absurd rfl (he dev blocks)
      | _ => simp [Call.frame, Frame.kind]
    · exact h q f (by rwa [Function.update_of_ne hqp] at hf)
  | run ch =>
    obtain ⟨p, f, fs, -, hf, hr⟩ := next_run hs
    obtain ⟨-, -, ⟨fs', hc, hst⟩, -, -⟩ := run_eq_some hr
    have hk := s.cache.exec_next ch f
    have hnot := h p f (hf ▸ List.mem_cons_self)
    intro q g hg
    rw [hst] at hg
    by_cases hqp : q = p
    · subst hqp
      rw [Function.update_self] at hg
      refine hc.forall_mem (P := fun g => ∀ dev, g.kind ≠ .fileWrite dev) (fun g hg => ?_)
        (fun g hg => h q g (hf ▸ List.mem_cons_of_mem _ hg)) (fun v g _ hg => ?_) g hg
      · generalize (s.cache.exec ch f).2 = nx at hk hg
        cases nx with
        | goto f' | sleep f' =>
          obtain rfl := List.mem_singleton.1 hg
          rw [show g.kind = f.kind from hk]
          exact hnot
        | call f' g' =>
          rcases List.mem_cons.1 hg with rfl | hg
          · intro dev hd
            have := hk.2
            rw [hd] at this
            cases f' <;> first | exact this | (rename_i pc; cases pc <;> simp [Frame.awaits] at this)
          · obtain rfl := List.mem_singleton.1 hg
            rw [hk.1]
            exact hnot
        | ret | panic => cases hg
      · rw [Frame.receive_kind]
        exact h q g (hf ▸ List.mem_cons_of_mem _ (List.mem_of_mem_head? hg))
    · exact h q g (by rwa [Function.update_of_ne hqp] at hg)
  | transfer m => obtain ⟨c, -, rfl⟩ := next_transfer hs; exact h
  | complete m ok => obtain ⟨c, -, rfl⟩ := next_complete hs; exact h

theorem keepsMark_of_noFileWrite (h : ∀ p, ∀ f ∈ s.stack p, ∀ dev, f.kind ≠ .fileWrite dev)
    (e : Event α n) : s.KeepsMark e := by
  unfold KeepsMark
  split
  · split
    · next f fs hf =>
      obtain ⟨p, -, hf⟩ := Option.map_eq_some_iff.1 hf
      unfold Marked
      split
      · exact absurd rfl (h p _ (hf ▸ List.mem_cons_self) _)
      · trivial
    · trivial
  · trivial

/-- What the buffers that processes get and hold contain. -/
theorem Stored.reads (h : Stored s) :
    (∀ p dev block pc fs ch bh, s.stack p = .bread dev block pc :: fs →
      (s.cache.exec ch (.bread dev block pc)).2 = .ret (some bh) →
      s.cache.bData bh = s.store dev block) ∧
    ∀ p, ∀ x ∈ s.held p, s.cache.Carries x.bh x.dev x.block ∧
      s.cache.bData x.bh = s.store x.dev x.block := by
  refine ⟨fun p dev block pc fs ch bh hf hv => ?_, fun p x hx => ?_⟩
  · have ho := s.cache.exec_outcome ch (.bread dev block pc)
    rw [show s.cache.exec ch (.bread dev block pc) =
      ((s.cache.exec ch (.bread dev block pc)).1, .ret (some bh)) by rw [← hv]] at ho
    obtain ⟨⟨rfl, rfl⟩, hu⟩ := ho.valueOk (h.ok p _ (hf ▸ List.mem_cons_self))
    exact funext (h.contents.uptodate bh hu)
  · obtain ⟨hk, hu⟩ := h.held p x hx
    refine ⟨hk, ?_⟩
    obtain ⟨h1, h2⟩ := hk
    rw [← h1, ← h2]
    exact funext (h.contents.uptodate x.bh hu)

instance (hs : List (Held n)) : (k : Kind n) → Decidable (k.Bottom hs)
  | .bread _ _ => Nat.decLe _ _
  | .modify bh => inferInstanceAs (Decidable (∃ h ∈ hs, h.bh = bh))
  | .brelse _ | .syncDev _ | .sysSync | .fileWrite _ => .isTrue trivial
  | .getHashTable _ _ | .getblk _ _ | .breada _ _ | .transfer _ _ | .syncInodes => .isFalse id

instance (block : Block) : Decidable (Block.InRange block) := Nat.decLt _ _

instance (s : State α n) : (e : Event α n) → Decidable (s.Disciplined e)
  | .start (.bread dev block) =>
    inferInstanceAs (Decidable (Block.InRange block ∧
      ∀ p, s.cur = some p → Kind.Bottom (s.held p) (.bread dev block)))
  | .start (.brelse (some bh)) | .start (.modify bh) =>
    inferInstanceAs (Decidable (∀ p, s.cur = some p → ∃ h ∈ s.held p, h.bh = bh))
  | .start (.fileWrite _ blocks) =>
    List.decidableBAll Block.InRange blocks
  | .start (.brelse none) | .start (.syncDev _) | .start .sysSync => .isTrue trivial
  | .start (.getHashTable _ _) | .start (.getblk _ _) | .start (.breada _ _ _) => .isFalse id
  | .run (.inode _ block) => inferInstanceAs (Decidable (Block.InRange block))
  | .complete _ uptodate => inferInstanceAs (Decidable (uptodate = true))
  | .schedule _ | .yield | .run .go | .run .wait | .run (.write _ _) | .transfer _ => .isTrue trivial

instance (s : State α n) (e : Event α n) : Decidable (s.Uses e) :=
  haveI : Decidable (∀ dev blocks, e ≠ .start (.fileWrite dev blocks)) :=
    match e with
    | .start (.fileWrite dev blocks) => .isFalse fun h => h dev blocks rfl
    | .start (.getHashTable ..) | .start (.getblk ..) | .start (.bread ..) | .start (.breada ..)
    | .start (.brelse _) | .start (.syncDev _) | .start .sysSync | .start (.modify _)
    | .schedule _ | .yield | .run _ | .transfer _ | .complete .. => .isTrue (by simp)
  inferInstanceAs (Decidable (_ ∧ _))

end State

/-- **The buffer cache is a block store.** While its users follow the discipline, `bread` returns a
buffer with what was last stored in the block, and that is what the buffer contains as long as it is
held. -/
theorem bread_stored [NeZero n] {s : State α n}
    (h : (bufferCache α n).ReachableWhen State.Uses s) :
    (∀ p dev block pc fs ch bh, s.stack p = .bread dev block pc :: fs →
      (s.cache.exec ch (.bread dev block pc)).2 = .ret (some bh) →
      s.cache.bData bh = s.store dev block) ∧
    ∀ p, ∀ x ∈ s.held p, s.cache.Carries x.bh x.dev x.block ∧
      s.cache.bData x.bh = s.store x.dev x.block := by
  have hI : s.Stored ∧ ∀ p, ∀ f ∈ s.stack p, ∀ dev, f.kind ≠ .fileWrite dev := by
    refine System.ReachableWhen.invariant
      (I := fun s => s.Stored ∧ ∀ p, ∀ f ∈ s.stack p, ∀ dev, f.kind ≠ .fileWrite dev)
      (fun t h0 => ?_) (fun t e t' hI hu hs => ?_) h
    · refine ⟨State.Init.stored h0, ?_⟩
      obtain ⟨_, _, _, _, -, rfl⟩ := h0
      exact fun _ _ hf => (List.not_mem_nil hf).elim
    · exact ⟨hI.1.next hu.1 (State.keepsMark_of_noFileWrite hI.2 e) hs,
        State.noFileWrite_next hI.2 hu.2 hs⟩
  exact hI.1.reads

/-- The process that runs makes `k` steps. -/
def Event.runs (k : ℕ) : List (Event α n) := List.replicate k (.run .go)

/-- The driver of the hard disk does one request. -/
def Event.serve : List (Event α n) := [.transfer 3, .transfer 3, .complete 3 true]

/-- One buffer. A process stores 5 in block 7, reads block 8 into the same buffer, which first is
written, and reads block 7 again. -/
theorem bread_stored_evicted : ∃ s : State ℕ 1,
    (bufferCache ℕ 1).ReachableWhen State.Uses s ∧
    (s.held 0, s.cache.bData 0 0) = ([⟨0, 0x301, 7⟩], 5) ∧
    ∀ x ∈ s.held 0, s.cache.bData x.bh = s.store x.dev x.block := by
  have h : (System.execWhen State.next State.Uses
      (State.boot (n := 1) (fun _ => 0) (fun _ _ => 0) (fun m => m = 3) fun _ _ => 0)
      (.schedule 0 :: .start (.bread 0x301 7) :: Event.runs 13 ++ Event.serve ++
        .schedule 0 :: .run .go :: .start (.modify 0) :: .run (.write 0 5) :: .run .go ::
        .start (.brelse (some 0)) :: .run .go :: .start (.bread 0x301 8) :: Event.runs 16 ++
        Event.serve ++ .schedule 0 :: Event.runs 10 ++ Event.serve ++ .schedule 0 :: .run .go ::
        .start (.brelse (some 0)) :: .run .go :: .start (.bread 0x301 7) :: Event.runs 13 ++
        Event.serve ++ [.schedule 0, .run .go])).map
      (fun s => (s.held 0, s.cache.bData 0 0)) = some ([⟨0, 0x301, 7⟩], 5) := by
    decide +kernel
  obtain ⟨s, hs, he⟩ := Option.map_eq_some_iff.1 h
  have hr : (bufferCache ℕ 1).ReachableWhen State.Uses s :=
    System.ReachableWhen.exec (fun _ _ _ h => h) (.init ⟨_, _, _, _, rfl, rfl⟩) hs
  exact ⟨s, hr, he, fun x hx => ((bread_stored hr).2 0 x hx).2⟩

end Linux011.Buffer
