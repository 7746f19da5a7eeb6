import Linux011.Buffer.Calls

/-!
# The representation invariant of the buffer cache

1. `Outcome.queues`: only `getblk` with a victim touches the queues and keys, and what the victim
   then is.
2. `Coherent`: the queues are well formed, the stacks typed, and a `getblk` that is about to return
   has the buffer it was asked for. `Coherent.next`.
3. `Reachable.coherent`, and the theorem `queues_wellFormed`.
-/

namespace Linux011.Buffer

variable {α : Type*} {n : ℕ}

/-! ## Victims -/

theorem Cache.reassign_eq_some {c c' : Cache α n} {bh : Fin n} {dev : Dev} {block : Block}
    (h : c.reassign bh dev block = some c') :
    ∃ q, c.toQueues.move bh dev block = some q ∧
      c' = { ((c.setCount bh 1).setDirt bh false).setUptodate bh false with toQueues := q } := by
  unfold reassign at h
  dsimp only at h
  split at h
  · cases h
  · next q hq => exact ⟨q, hq, by simpa using h.symm⟩

theorem Frame.atRet_of_touches {f : Frame n} {bh : Fin n} (h : f.touches = some bh) :
    f.atRet = false := by
  unfold Frame.atRet
  split
  · cases h
  · rfl

/-- `bh` is not in use, clean and not locked. -/
def Cache.Unused (c : Cache α n) (bh : Fin n) : Prop :=
  c.bCount bh = 0 ∧ c.bDirt bh = false ∧ c.bLock bh = false

/-- **Only `getblk` changes the queues and keys**, and only of an unused buffer. -/
theorem Outcome.queues {c c' : Cache α n} {ch : Choice α} {f : Frame n} {nx : Next n}
    (h : Outcome c ch f (c', nx)) : c'.toQueues = c.toQueues ∧ nx.atRet = false ∨
      ∃ dev block bh, f = .getblk dev block (.victim bh) ∧
        nx = .goto (.getblk dev block (.ret bh)) ∧ c.Unused bh ∧ c.findBuffer dev block = none ∧
        c.toQueues.move bh dev block = some c'.toQueues := by
  generalize hr : (c', nx) = r at h
  cases h with
  | quiet hq => cases hr; exact .inl ⟨rfl, hq.atRet⟩
  | drop bh hq => cases hr; exact .inl ⟨rfl, hq.atRet⟩
  | reassign hl hc hd hf hm =>
    obtain ⟨q, hq, rfl⟩ := Cache.reassign_eq_some hm
    cases hr
    exact .inr ⟨_, _, _, rfl, rfl, ⟨hc, hd, hl⟩, hf, hq⟩
  | store ht =>
    cases hr
    exact .inl ⟨rfl, Frame.atRet_of_touches ht⟩
  | _ => cases hr; exact .inl ⟨rfl, rfl⟩

/-- What the drivers do does not concern the queues. -/
theorem Cache.transfer_queues {c c' : Cache α n} {m : Fin 7} (h : c.transfer m = some c') :
    c'.toQueues = c.toQueues := by
  unfold transfer at h
  split at h
  · cases h
  · next r rs _ =>
    split at h
    · cases h
    · dsimp only at h
      cases h
      cases r.cmd <;> rfl

theorem Cache.endRequest_queues {c c' : Cache α n} {m : Fin 7} {uptodate : Bool}
    (h : c.endRequest m uptodate = some c') : c'.toQueues = c.toQueues := by
  unfold endRequest at h
  split at h
  · cases h
  · split at h
    · cases h
    · cases h; rfl

/-- What a call returns is as its kind says. -/
theorem Outcome.valueOk {c c' : Cache α n} {ch : Choice α} {f : Frame n} {bh : Fin n}
    (h : Outcome c ch f (c', .ret (some bh))) (hok : c.FrameOk f) : c.ValueOk bh f.kind := by
  generalize hr : (c', Next.ret (some bh)) = r at h
  cases h with
  | quiet hq | drop _ hq => cases hr; exact hq.ok hok
  | _ => cases hr

/-- A frame of `get_hash_table` takes nothing for granted. -/
theorem Frame.ok_of_getHashTable {c : Cache α n} {f : Frame n} {dev : Dev} {block : Block}
    (h : f.kind = .getHashTable dev block) : c.FrameOk f := by
  cases f <;> trivial

theorem Frame.eq_of_atRet {f : Frame n} (h : f.atRet = true) :
    ∃ dev block bh, f = .getblk dev block (.ret bh) := by
  unfold Frame.atRet at h
  split at h
  · exact ⟨_, _, _, rfl⟩
  · cases h

/-- A waiting frame is not about to return from `getblk`. -/
theorem Frame.awaits_atRet {f : Frame n} {k : Kind n} (h : f.awaits k) : f.atRet = false := by
  unfold Frame.atRet
  split
  · exact absurd h id
  · rfl

/-- Below the innermost frame of a typed stack every frame waits. -/
theorem Typed.waiting {f : Frame n} {fs : List (Frame n)} (h : Typed (f :: fs)) :
    ∀ g ∈ fs, ∃ k, g.awaits k := by
  induction fs generalizing f with
  | nil => simp
  | cons g fs ih =>
    obtain ⟨h1, h2⟩ := List.isChain_cons_cons.1 h
    rintro g' (_ | ⟨_, hg⟩)
    · exact ⟨_, h1⟩
    · exact ih h2 g' hg

theorem Frame.receive_atRet {g : Frame n} {k : Kind n} {v : Option (Fin n)} (hk : g.awaits k)
    (h : (g.receive v).atRet = true) : ∃ dev block bh, k = .getHashTable dev block ∧ v = some bh ∧
      g.receive v = .getblk dev block (.ret bh) := by
  cases g with
  | getblk dev block pc =>
    cases pc with
    | hash =>
      cases v with
      | some bh => exact ⟨dev, block, bh, hk, rfl, rfl⟩
      | none => cases h
    | sync bh => cases h
    | _ => exact hk.elim
  | _ =>
    -- another function does not become `getblk`
    obtain ⟨dev, block, bh, he⟩ := Frame.eq_of_atRet h
    have hk' := (congrArg Frame.kind he).symm.trans (Frame.receive_kind v _)
    simp [Frame.kind] at hk'

/-- Where a frame that is about to return from `getblk` comes from, unless `getblk` has just given a
victim away: a call of `get_hash_table` has returned. -/
theorem Continues.atRet {f g : Frame n} {fs fs' : List (Frame n)} {nx : Next n}
    (ht : Typed (f :: fs)) (hc : Continues nx fs fs') (hn : nx.atRet = false) (hg : g ∈ fs')
    (hr : g.atRet = true) : ∃ dev block bh, f.kind = .getHashTable dev block ∧
      nx = .ret (some bh) ∧ g = .getblk dev block (.ret bh) := by
  have htail : ∀ g' ∈ fs, g'.atRet = false := fun g' hg' =>
    Frame.awaits_atRet (ht.waiting g' hg').choose_spec
  have hout : g ∉ fs := fun hgf => by simp [htail g hgf] at hr
  cases hc with
  | goto f' | sleep f' =>
    obtain rfl := (List.mem_cons.1 hg).resolve_right hout
    exact absurd hr (by simpa [Next.atRet] using hn)
  | call f' g' =>
    simp only [Next.atRet, Bool.or_eq_false_iff] at hn
    rcases List.mem_cons.1 hg with rfl | hg
    · simp [hn.2] at hr
    · obtain rfl := (List.mem_cons.1 hg).resolve_right hout
      simp [hn.1] at hr
  | finish v => cases hg
  | ret v g' fs =>
    obtain ⟨h1, -⟩ := List.isChain_cons_cons.1 ht
    rcases List.mem_cons.1 hg with rfl | hg
    · obtain ⟨dev, block, bh, hk, rfl, he⟩ := Frame.receive_atRet h1 hr
      exact ⟨dev, block, bh, hk, rfl, he⟩
    · exact absurd (List.mem_cons_of_mem _ hg) hout

namespace State

/-! ## The invariant -/

structure Coherent (s : State α n) : Prop where
  queues : s.cache.toQueues.Inv
  typed : ∀ p, Typed (s.stack p)
  atRet : ∀ p dev block bh, .getblk dev block (.ret bh) ∈ s.stack p →
    s.cur = some p ∧ s.cache.Carries bh dev block

variable {s s' : State α n}

theorem Coherent.run (h : Coherent s) {p : Pid} {f : Frame n} {fs : List (Frame n)} {ch : Choice α}
    (hp : s.cur = some p) (hf : s.stack p = f :: fs) (hr : s.run p f fs ch = some s')
    (ht : ∀ q, Typed (s'.stack q)) : Coherent s' := by
  obtain ⟨hcache, -, ⟨fs', hc, hst⟩, -, hcur⟩ := run_eq_some hr
  have ho := s.cache.exec_outcome ch f
  rw [show s.cache.exec ch f = (s'.cache, (s.cache.exec ch f).2) by rw [hcache]] at ho
  have htail : ∀ g ∈ fs, g.atRet = false := fun g hg =>
    Frame.awaits_atRet ((hf ▸ h.typed p).waiting g hg).choose_spec
  have hother : ∀ q dev block bh, q ≠ p → .getblk dev block (.ret bh) ∉ s.stack q :=
    fun q dev block bh hq hm => hq (by simpa [hp] using (h.atRet q dev block bh hm).1.symm)
  rcases ho.queues with ⟨hq, hat⟩ | ⟨dev, block, bh, rfl, hnx, hu, hfind, hm⟩
  · refine ⟨hq ▸ h.queues, ht, fun q dev block bh hmem => ?_⟩
    rw [hst] at hmem
    by_cases hqp : q = p
    · subst hqp
      rw [Function.update_self] at hmem
      obtain ⟨dev', block', bh', hk, hv, he⟩ := hc.atRet (hf ▸ h.typed q) hat hmem rfl
      cases he
      rw [hv] at ho hcur
      refine ⟨?_, ?_⟩
      · rcases hcur with hcur | ⟨-, f', hs⟩
        · rw [hcur, hp]
        · cases hs
      · have := ho.valueOk (Frame.ok_of_getHashTable hk)
        rw [hk] at this
        rw [hq]
        exact this
    · rw [Function.update_of_ne hqp] at hmem
      exact absurd hmem (hother q dev block bh hqp)
  · obtain ⟨q, hq, hinv, hdev, hblock⟩ := h.queues.move hfind (b := bh)
    obtain rfl : s'.cache.toQueues = q := by simpa [hm] using hq
    refine ⟨hinv, ht, fun q dev' block' bh' hmem => ?_⟩
    rw [hst] at hmem
    by_cases hqp : q = p
    · subst hqp
      rw [Function.update_self] at hmem
      rw [hnx] at hc hcur
      cases hc
      rcases List.mem_cons.1 hmem with he | hmem
      · cases he
        refine ⟨?_, ?_⟩
        · rcases hcur with hcur | ⟨-, f', hs⟩
          · rw [hcur, hp]
          · cases hs
        · exact ⟨by rw [hdev, Function.update_self], by rw [hblock, Function.update_self]⟩
      · exact absurd (htail _ hmem) (by simp [Frame.atRet])
    · rw [Function.update_of_ne hqp] at hmem
      exact absurd hmem (hother q _ _ _ hqp)

theorem Coherent.next (h : Coherent s) {e : Event α n} (hs : s.next e = some s') :
    Coherent s' := by
  have ht := typed_next h.typed hs
  cases e with
  | schedule p =>
    obtain ⟨hc, rfl⟩ := next_schedule hs
    refine ⟨h.queues, ht, fun q dev block bh hm => ?_⟩
    exact absurd (h.atRet q dev block bh hm).1 (by simp [hc])
  | yield =>
    obtain ⟨p, hc, he, rfl⟩ := next_yield hs
    refine ⟨h.queues, ht, fun q dev block bh hm => ?_⟩
    obtain rfl : p = q := by simpa [hc] using (h.atRet q dev block bh hm).1
    change _ ∈ s.stack p at hm
    simp [he] at hm
  | start c =>
    obtain ⟨p, hc, he, rfl⟩ := next_start hs
    refine ⟨h.queues, ht, fun q dev block bh hm => ?_⟩
    simp only [setStack, setHeld] at hm
    by_cases hqp : q = p
    · subst hqp
      rw [Function.update_self, List.mem_singleton] at hm
      cases c <;> simp [Call.frame] at hm
    · rw [Function.update_of_ne hqp] at hm
      exact h.atRet q dev block bh hm
  | run ch =>
    obtain ⟨p, f, fs, hp, hf, hr⟩ := next_run hs
    exact h.run hp hf hr ht
  | transfer m =>
    obtain ⟨c, hc, rfl⟩ := next_transfer hs
    have hq := Cache.transfer_queues hc
    exact ⟨hq ▸ h.queues, ht, fun q dev block bh hm => hq ▸ h.atRet q dev block bh hm⟩
  | complete m ok =>
    obtain ⟨c, hc, rfl⟩ := next_complete hs
    have hq := Cache.endRequest_queues hc
    exact ⟨hq ▸ h.queues, ht, fun q dev block bh hm => hq ▸ h.atRet q dev block bh hm⟩

theorem Init.coherent [NeZero n] (h : Init s) : Coherent s := by
  obtain ⟨blocknr, data, requestFn, disk, -, rfl⟩ := h
  exact ⟨Queues.inv_init blocknr, fun _ => List.isChain_nil, fun _ _ _ _ hm => by cases hm⟩

end State

/-- Every reachable state is coherent. -/
theorem Reachable.coherent [NeZero n] {s : State α n} (h : (bufferCache α n).Reachable s) :
    s.Coherent := by
  refine System.Reachable.invariant (I := State.Coherent) (fun t h0 => ?_) (fun t e t' hI hs => ?_) h
  · exact State.Init.coherent h0
  · exact hI.next hs

namespace State

/-- The step from `s` to `s'` is the end of a `getblk`, which has given `bh` to another block. -/
def Reassigns (s s' : State α n) (bh : Fin n) : Prop :=
  ∃ p dev block fs, s.stack p = .getblk dev block (.victim bh) :: fs ∧
    s'.stack p = .getblk dev block (.ret bh) :: fs

/-- The step from `s` to `s'` changes the key of `bh`. -/
def Rekeys (s s' : State α n) (bh : Fin n) : Prop :=
  ¬ s.cache.Carries bh (s'.cache.bDev bh) (s'.cache.bBlocknr bh)

variable {s s' : State α n}

theorem Coherent.run_unused (h : Coherent s) {p : Pid} {f : Frame n} {fs : List (Frame n)}
    {ch : Choice α} (hf : s.stack p = f :: fs) (hr : s.run p f fs ch = some s') {bh : Fin n}
    (hb : s.Reassigns s' bh ∨ s.Rekeys s' bh) : s.cache.Unused bh := by
  obtain ⟨hcache, -, ⟨fs', hc, hst⟩, -, -⟩ := run_eq_some hr
  have ho := s.cache.exec_outcome ch f
  rw [show s.cache.exec ch f = (s'.cache, (s.cache.exec ch f).2) by rw [hcache]] at ho
  rcases ho.queues with ⟨hq, hat⟩ | ⟨dev, block, b, rfl, hnx, hu, hfind, hm⟩
  · rcases hb with ⟨q, dev, block, fs₁, h1, h2⟩ | hb
    · rw [hst] at h2
      by_cases hqp : q = p
      · subst hqp
        rw [hf] at h1
        cases h1
        rw [Function.update_self] at h2
        subst h2
        obtain ⟨_, _, _, hk, -, -⟩ := hc.atRet (hf ▸ h.typed q) hat List.mem_cons_self rfl
        cases hk
      · rw [Function.update_of_ne hqp, h1] at h2
        cases h2
    · exact absurd ⟨by rw [hq], by rw [hq]⟩ hb
  · obtain rfl : b = bh := by
      rcases hb with ⟨q, dev', block', fs₁, h1, h2⟩ | hb
      · rw [hst] at h2
        by_cases hqp : q = p
        · subst hqp
          rw [hf] at h1
          cases h1
          rfl
        · rw [Function.update_of_ne hqp, h1] at h2
          cases h2
      · by_contra hne
        obtain ⟨q, hq, -, hdev, hblock⟩ := h.queues.move hfind (b := b)
        obtain rfl : s'.cache.toQueues = q := by simpa [hm] using hq
        refine hb ⟨?_, ?_⟩
        · rw [hdev, Function.update_of_ne (Ne.symm hne)]
        · rw [hblock, Function.update_of_ne (Ne.symm hne)]
    exact hu

/-- A step only gives away, or changes the key of, an unused buffer. -/
theorem Coherent.unused (h : Coherent s) {e : Event α n} (hs : s.next e = some s') {bh : Fin n}
    (hb : s.Reassigns s' bh ∨ s.Rekeys s' bh) : s.cache.Unused bh := by
  -- where the stack and the queues stay, nothing is given away
  have hsame : s'.stack = s.stack → s'.cache.toQueues = s.cache.toQueues → s.cache.Unused bh := by
    intro hst hq
    rcases hb with ⟨q, dev, block, fs₁, h1, h2⟩ | hb
    · rw [hst, h1] at h2
      cases h2
    · exact absurd ⟨by rw [hq], by rw [hq]⟩ hb
  cases e with
  | schedule p => obtain ⟨-, rfl⟩ := next_schedule hs; exact hsame rfl rfl
  | yield => obtain ⟨p, -, -, rfl⟩ := next_yield hs; exact hsame rfl rfl
  | start c =>
    obtain ⟨p, -, he, rfl⟩ := next_start hs
    rcases hb with ⟨q, dev, block, fs₁, h1, h2⟩ | hb
    · by_cases hqp : q = p
      · subst hqp
        rw [he] at h1
        cases h1
      · simp only [setStack, setHeld, Function.update_of_ne hqp, h1] at h2
        cases h2
    · exact absurd ⟨rfl, rfl⟩ hb
  | run ch =>
    obtain ⟨p, f, fs, -, hf, hr⟩ := next_run hs
    exact h.run_unused hf hr hb
  | transfer m =>
    obtain ⟨c, hc, rfl⟩ := next_transfer hs
    exact hsame rfl (Cache.transfer_queues hc)
  | complete m ok =>
    obtain ⟨c, hc, rfl⟩ := next_complete hs
    exact hsame rfl (Cache.endRequest_queues hc)

/-- Whenever `getblk` returns, it returns a buffer that carries the key it was called with. -/
theorem Coherent.getblk (h : Coherent s) {p : Pid} {dev : Dev} {block : Block} {pc : GetblkPc n}
    {fs : List (Frame n)} {ch : Choice α} {v : Option (Fin n)}
    (hf : s.stack p = .getblk dev block pc :: fs)
    (hv : (s.cache.exec ch (.getblk dev block pc)).2 = .ret v) :
    ∃ bh, v = some bh ∧ s.cache.Carries bh dev block := by
  cases pc with
  | ret bh =>
    obtain rfl : v = some bh := by simpa [Cache.exec, Cache.getblk] using hv.symm
    exact ⟨bh, rfl, (h.atRet p dev block bh (hf ▸ List.mem_cons_self)).2⟩
  | scan tmp bh =>
    simp only [Cache.exec, Cache.getblk] at hv
    split at hv <;> split at hv <;> cases hv
  | victim bh =>
    simp only [Cache.exec, Cache.getblk] at hv
    repeat' (split at hv)
    all_goals cases hv
  | _ => cases hv

end State

/-- **The buffer cache is well formed in every reachable state**, whatever processes call: the free
list is one ring through all buffers; the hash queues hold exactly the buffers with a device, each on
the queue of its key, and the others have no neighbours; no two buffers have the same key; `getblk`
returns a buffer that carries the key, and gives only unused buffers to other blocks. -/
theorem queues_wellFormed [NeZero n] {s : State α n} (h : (bufferCache α n).Reachable s) :
    (∃ l, s.cache.FreeRing l) ∧
    (∃ chain, s.cache.Chains (fun bh => s.cache.bDev bh ≠ 0) chain) ∧
    (∀ bh, s.cache.bDev bh = 0 → s.cache.bPrev bh = none ∧ s.cache.bNext bh = none) ∧
    (∀ bh bh', s.cache.bDev bh ≠ 0 → s.cache.bDev bh' = s.cache.bDev bh →
      s.cache.bBlocknr bh' = s.cache.bBlocknr bh → bh' = bh) ∧
    (∀ p dev block pc fs ch v, s.stack p = .getblk dev block pc :: fs →
      (s.cache.exec ch (.getblk dev block pc)).2 = .ret v →
      ∃ bh, v = some bh ∧ s.cache.Carries bh dev block) ∧
    (∀ e s' bh, s.next e = some s' → s.Reassigns s' bh ∨ s.Rekeys s' bh →
      s.cache.Unused bh) := by
  have hc := Reachable.coherent h
  exact ⟨hc.queues.ring, hc.queues.chains, hc.queues.null,
    fun bh bh' hd h1 h2 => hc.queues.unique bh bh' hd ⟨h1, h2⟩,
    fun _ _ _ _ _ _ _ hf hv => hc.getblk hf hv, fun _ _ _ hs hb => hc.unused hs hb⟩

/-- Two buffers; one process calls `getblk(0x301, 7)`, which takes the first buffer. -/
theorem queues_wellFormed_getblk : ∃ s : State ℕ 2,
    (State.boot (fun _ => 0) (fun _ _ => 0) (fun m => m = 3) fun _ _ => 0).steps
      (.schedule 0 :: .start (.getblk 0x301 7) :: List.replicate 5 (.run .go)) = some s ∧
    (s.cache.bDev 0, s.cache.bBlocknr 0, s.cache.freeList) = (0x301, 7, 1) ∧
    ∃ l, s.cache.FreeRing l := by
  have h : ((State.boot (n := 2) (fun _ => 0) (fun _ _ => 0) (fun m => m = 3) fun _ _ => 0).steps
      (.schedule 0 :: .start (.getblk 0x301 7) :: List.replicate 5 (.run .go))).map
      (fun s => (s.cache.bDev 0, s.cache.bBlocknr 0, s.cache.freeList)) = some (0x301, 7, 1) := by
    decide
  obtain ⟨s, hs, he⟩ := Option.map_eq_some_iff.1 h
  exact ⟨s, hs, he, (queues_wellFormed (reachable_steps (.start ⟨_, _, _, _, rfl, rfl⟩) hs)).1⟩

end Linux011.Buffer
