import Linux011.Buffer.Store

/-!
# Written data is dirty until written

`file_write` marks its buffer before it copies from user space, where it can sleep. As long as the mark
is still there at every byte that it stores, or a write is queued that has not moved that byte's sector,
no data is lost:

1. `Stored.dirty`: data that is not on disk is dirty or on its way.
2. `State.Settled`: a part of a sector is on disk or on its way, which stays so until it is stored to.
3. `State.Syncing`: how far a process in `sys_sync` or `sync_dev` has come. When it returns, what was
   stored before is settled: `Synced.next`.
4. `dirty_until_written`, and the run in which `file_write` loses its mark.
-/

namespace Linux011.Buffer

variable {α β : Type*} {n : ℕ} {f : Frame n} {ch : Choice α}

/-- A process changes no disk and takes no request from the queues. -/
theorem Outcome.requests {c c' : Cache α n} {nx : Next n}
    (h : Outcome c ch f (c', nx)) :
    c'.disk = c.disk ∧ ∀ m, ∀ r ∈ c.currentRequest m, r ∈ c'.currentRequest m := by
  generalize hr : (c', nx) = x at h
  cases h with
  | reassign hl hc hd hf hm =>
    cases hr
    obtain ⟨q, -, rfl⟩ := Cache.reassign_eq_some hm
    exact ⟨rfl, fun _ _ h => h⟩
  | @enqueue m rw bh k hk =>
    cases hr
    refine ⟨rfl, fun m' r hr => ?_⟩
    by_cases hm : m' = m
    · subst hm
      exact (c.addRequest_perm m' _).mem_iff.2 (List.mem_cons_of_mem _ hr)
    · simpa [Cache.addRequest, Cache.setQueue, Cache.setDirt, hm] using hr
  | _ => cases hr; exact ⟨rfl, fun _ _ h => h⟩

namespace State

variable {s s' : State α n} {p : Pid} {fs : List (Frame n)}

/-! ## Dirty data -/

theorem Stored.dirty (h : Stored s) {b : Fin n} {i : Fin 2} (hu : s.cache.bUptodate b = true)
    (ht : ¬ s.Touched b) (hne : s.cache.bData b i ≠ s.cache.onDisk b i) :
    s.cache.bDirt b = true ∨ s.cache.Pending b i := by
  by_contra hno
  push Not at hno
  obtain ⟨hd, hp⟩ := hno
  have hd : s.cache.bDirt b = false := by simpa using hd
  refine hne ((h.contents.uptodate b hu i).trans ?_)
  by_cases hw : ∃ m, ∃ r ∈ s.cache.currentRequest m, r.bh = b ∧ r.cmd = .write
  · -- the queued write has moved the sector
    obtain ⟨m, r, hr, rfl, hcmd⟩ := hw
    have hmoved : i.val < r.buffer := by
      by_contra hle
      exact hp ⟨m, r, hr, rfl, hcmd, by omega⟩
    exact (((h.contents.request m r hr).write hcmd).2 hd ht i hmoved).symm
  · refine (h.contents.clean b hu hd ht (fun m r hr hb => ?_) i).symm
    cases hcmd : r.cmd with
    | read => rfl
    | write => exact absurd ⟨m, r, hr, hb, hcmd⟩ hw

/-! ## Settled data -/

/-- The part `π` of sector `i` of a block is on disk, or a write of the sector is queued. -/
def Settled (s : State α n) (dev : Dev) (block : Block) (i : Fin 2) (π : α → β) : Prop :=
  π (s.cache.disk dev (sectorOf block i)) = π (s.store dev block i) ∨
    ∃ b, s.cache.Carries b dev block ∧ s.cache.Pending b i

/-- The event does not store to the part `π` of sector `i` of the block. -/
def Spares (s : State α n) (dev : Dev) (block : Block) (i : Fin 2) (π : α → β) (e : Event α n) : Prop :=
  ∀ p f fs b v, e = .run (.write i v) → s.cur = some p → s.stack p = f :: fs → f.touches = some b →
    s.cache.Carries b dev block → π v = π (s.store dev block i)

variable {dev : Dev} {block : Block} {i : Fin 2} {π : α → β}

theorem stored_cases (s : State α n) (ch : Choice α) (f : Frame n) :
    s.stored ch f = s.store ∨ ∃ b i v, f.touches = some b ∧ ch = .write i v ∧
      s.stored ch f = Function.update s.store (s.cache.bDev b)
        (Function.update (s.store (s.cache.bDev b)) (s.cache.bBlocknr b)
          (Function.update (s.store (s.cache.bDev b) (s.cache.bBlocknr b)) i v)) := by
  unfold stored
  split
  · next b i v ht => exact .inr ⟨b, i, v, ht, rfl, rfl⟩
  · exact .inl rfl

theorem Spares.store {e : Event α n} (h : s.Spares dev block i π e) (hs : s.next e = some s') :
    π (s'.store dev block i) = π (s.store dev block i) := by
  cases e with
  | schedule p => obtain ⟨-, rfl⟩ := next_schedule hs; rfl
  | yield => obtain ⟨p, -, -, rfl⟩ := next_yield hs; rfl
  | start c => obtain ⟨p, -, -, rfl⟩ := next_start hs; rfl
  | run ch =>
    obtain ⟨p, f, fs, hp, hf, hr⟩ := next_run hs
    obtain ⟨-, hst, -⟩ := run_eq_some hr
    rw [hst]
    rcases s.stored_cases ch f with he | ⟨b, i', v, ht, rfl, he⟩
    · rw [he]
    · rw [he, update_update_apply]
      split
      · next hk =>
        by_cases hi : i = i'
        · subst hi
          rw [Function.update_self]
          exact h p f fs b v rfl hp hf ht ⟨hk.1.symm, hk.2.symm⟩
        · rw [Function.update_of_ne hi, hk.1, hk.2]
      · rfl
  | transfer m => obtain ⟨c, -, rfl⟩ := next_transfer hs; rfl
  | complete m ok => obtain ⟨c, -, rfl⟩ := next_complete hs; rfl

/-- The buffer of a queued request keeps its block. -/
theorem Stored.keeps_key (h : Stored s) (hr : s.run p f fs ch = some s')
    {m : Fin 7} {r : Request n} (hm : r ∈ s.cache.currentRequest m)
    (hk : s.cache.Carries r.bh dev block) : s'.cache.Carries r.bh dev block := by
  obtain ⟨hcache, -⟩ := run_eq_some hr
  have ho := s.cache.exec_outcome ch f
  rw [show s.cache.exec ch f = (s'.cache, (s.cache.exec ch f).2) by rw [hcache]] at ho
  obtain ⟨-, ⟨e, -⟩ | ⟨_, _, bh, -, -, hu, hfind, hmove⟩⟩ := ho.known
  · rw [e]
    exact hk
  · have hne : r.bh ≠ bh := h.no_request hu.2.2 m r hm
    obtain ⟨e1, e2, -⟩ := (Cache.reassign_known h.coherent.queues hfind hmove).2 r.bh hne
    exact ⟨e1.trans hk.1, e2.trans hk.2⟩

theorem Settled.transfer (h : Stored s) (hr : Block.InRange block) {m : Fin 7} {c : Cache α n}
    (hc : s.cache.transfer m = some c) (hS : s.Settled dev block i π) :
    Settled { s with cache := c } dev block i π := by
  obtain ⟨r, rs, hq, hn, hcase⟩ := Cache.transfer_eq_some hc
  have hk := h.contents.request m r (hq ▸ List.mem_cons_self)
  obtain ⟨hbuf, hsec⟩ := hk.next hn
  -- a queued write has moved its sector or is still queued
  have hpend : ∀ b, s.cache.Pending b i →
      (r.bh = b ∧ r.cmd = .write ∧ r.buffer = i.val) ∨
      ∃ m', ∃ r' ∈ Function.update s.cache.currentRequest m (Cache.moved r :: rs) m',
        r'.bh = b ∧ r'.cmd = .write ∧ r'.buffer ≤ i.val := by
    rintro b ⟨m', r', hr', hb, hcmd, hle⟩
    by_cases hmm : m' = m
    · subst hmm
      rw [hq] at hr'
      rcases List.mem_cons.1 hr' with rfl | hr'
      · by_cases hi : r'.buffer = i.val
        · exact .inl ⟨hb, hcmd, hi⟩
        · exact .inr ⟨m', Cache.moved r', by simp, hb, hcmd, by
            change r'.buffer + 1 ≤ i.val
            omega⟩
      · exact .inr ⟨m', r', by simp [hr'], hb, hcmd, hle⟩
    · exact .inr ⟨m', r', by simpa [hmm] using hr', hb, hcmd, hle⟩
  rcases hcase with ⟨hcmd, rfl⟩ | ⟨hcmd, rfl⟩
  · rcases hS with hS | ⟨b, hb, hp⟩
    · exact .inl hS
    · rcases hpend b hp with ⟨-, hw, -⟩ | hp
      · rw [hcmd] at hw; cases hw
      · exact .inr ⟨b, hb, hp⟩
  · have hdisk : (Function.update s.cache.disk r.dev (Function.update (s.cache.disk r.dev) r.sector
          (s.cache.bData r.bh (Fin.ofNat 2 r.buffer)))) dev (sectorOf block i) =
        if (dev = s.cache.bDev r.bh ∧ block = s.cache.bBlocknr r.bh) ∧ i = Fin.ofNat 2 r.buffer then
          s.cache.bData r.bh (Fin.ofNat 2 r.buffer)
        else s.cache.disk dev (sectorOf block i) := by
      rw [update_update_apply, hk.dev, hsec]
      refine if_congr ⟨?_, ?_⟩ rfl rfl
      · rintro ⟨hd, hs⟩
        obtain ⟨e1, e2⟩ := sectorOf_inj hr (h.contents.inRange _ (h.contents.reqDev hk)) hs
        exact ⟨⟨hd, e1⟩, e2⟩
      · rintro ⟨⟨rfl, rfl⟩, rfl⟩
        exact ⟨rfl, rfl⟩
    by_cases hour : (dev = s.cache.bDev r.bh ∧ block = s.cache.bBlocknr r.bh) ∧ i = Fin.ofNat 2 r.buffer
    · refine .inl (congrArg π ?_)
      refine hdisk.trans ((if_pos hour).trans ?_)
      obtain ⟨⟨rfl, rfl⟩, rfl⟩ := hour
      exact h.contents.uptodate r.bh (hk.write hcmd).1 _
    · rw [if_neg hour] at hdisk
      rcases hS with hS | ⟨b, hb, hp⟩
      · exact .inl ((congrArg π hdisk).trans hS)
      · rcases hpend b hp with ⟨rfl, -, hi⟩ | hp
        · exact absurd ⟨⟨hb.1.symm, hb.2.symm⟩, Fin.ext (hi.symm.trans hbuf.symm)⟩ hour
        · exact .inr ⟨b, hb, hp⟩

theorem Settled.endRequest {m : Fin 7} {c : Cache α n} (hc : s.cache.endRequest m true = some c)
    (h : Stored s) (hS : s.Settled dev block i π) : Settled { s with cache := c } dev block i π := by
  obtain ⟨r, rs, hq, hn, rfl⟩ := Cache.endRequest_eq_some hc
  rcases hS with hS | ⟨b, hb, m', r', hr', hrb, hcmd, hle⟩
  · exact .inl hS
  · refine .inr ⟨b, hb, m', r', ?_, hrb, hcmd, hle⟩
    change r' ∈ Function.update s.cache.currentRequest m rs m'
    by_cases hmm : m' = m
    · subst hmm
      rw [hq] at hr'
      rcases List.mem_cons.1 hr' with rfl | hr'
      · have := (h.contents.request m' r' (hq ▸ List.mem_cons_self)).sectors
        have := i.isLt
        omega
      · simpa using hr'
    · simpa [hmm] using hr'

/-- **What is settled stays settled** until it is stored to. -/
theorem Settled.next (h : Stored s) (hr : Block.InRange block) {e : Event α n} (hd : s.Disciplined e)
    (hsp : s.Spares dev block i π e) (hs : s.next e = some s') (hS : s.Settled dev block i π) :
    s'.Settled dev block i π := by
  have hst := hsp.store hs
  cases e with
  | schedule p => obtain ⟨-, rfl⟩ := next_schedule hs; exact hS
  | yield => obtain ⟨p, -, -, rfl⟩ := next_yield hs; exact hS
  | start c => obtain ⟨p, -, -, rfl⟩ := next_start hs; exact hS
  | run ch =>
    obtain ⟨p, f, fs, hp, hf, hrun⟩ := next_run hs
    obtain ⟨hcache, -⟩ := run_eq_some hrun
    have ho := s.cache.exec_outcome ch f
    rw [show s.cache.exec ch f = (s'.cache, (s.cache.exec ch f).2) by rw [hcache]] at ho
    obtain ⟨hdisk, hreq⟩ := ho.requests
    rcases hS with hS | ⟨b, hb, m, r, hm, rfl, hcmd, hle⟩
    · exact .inl (by rw [hdisk, hst]; exact hS)
    · exact .inr ⟨r.bh, h.keeps_key hrun hm hb, m, r, hreq m r hm, rfl, hcmd, hle⟩
  | transfer m =>
    obtain ⟨c, hc, rfl⟩ := next_transfer hs
    exact Settled.transfer h hr hc hS
  | complete m ok =>
    obtain ⟨c, hc, rfl⟩ := next_complete hs
    obtain rfl : ok = true := hd
    exact Settled.endRequest hc h hS

/-! ## Synchronisation -/

/-- A holder that modifies its buffer runs. -/
def Running (s : State α n) : Prop := ∀ p b, .modify b ∈ s.stack p → s.cur = some p

theorem Running.next (h : s.Running) (ht : ∀ p, Typed (s.stack p)) {e : Event α n}
    (hs : s.next e = some s') : s'.Running := by
  cases e with
  | schedule p =>
    obtain ⟨hc, rfl⟩ := next_schedule hs
    exact fun q b hm => absurd (h q b hm) (by simp [hc])
  | yield =>
    obtain ⟨p, hc, he, rfl⟩ := next_yield hs
    intro q b hm
    obtain rfl : p = q := by simpa [hc] using h q b hm
    change _ ∈ s.stack p at hm
    simp [he] at hm
  | start c =>
    obtain ⟨p, hc, he, rfl⟩ := next_start hs
    intro q b hm
    change _ ∈ Function.update s.stack p [c.frame] q at hm
    by_cases hqp : q = p
    · subst hqp; exact hc
    · exact h q b (by rwa [Function.update_of_ne hqp] at hm)
  | run ch =>
    obtain ⟨p, f, fs, hp, hf, hr⟩ := next_run hs
    obtain ⟨-, -, ⟨fs', hc, hst⟩, -, hcur⟩ := run_eq_some hr
    intro q b hm
    rw [hst] at hm
    by_cases hqp : q = p
    · subst hqp
      rw [Function.update_self] at hm
      rcases hcur with hcur | ⟨-, f', hsl⟩
      · rw [hcur, hp]
      · -- a modification does not sleep, and below it frames wait
        have hk := s.cache.exec_next ch f
        rw [hsl] at hc hk
        cases hc
        rcases List.mem_cons.1 hm with rfl | hm
        · cases f <;> cases hk
          cases ch <;> simp [Cache.exec, Cache.modify] at hsl
        · obtain ⟨k, hk⟩ := Typed.waiting (hf ▸ ht q) _ hm
          exact hk.elim
    · have h1 := h q b (by rwa [Function.update_of_ne hqp] at hm)
      rw [hp] at h1
      exact absurd (Option.some.inj h1).symm hqp
  | transfer m => obtain ⟨c, -, rfl⟩ := next_transfer hs; exact h
  | complete m ok => obtain ⟨c, -, rfl⟩ := next_complete hs; exact h

end State

/-- The first buffer that a call of `sys_sync`, or of `sync_dev` for `dev`, has not yet finished with in
its last loop. -/
def Frame.cursor (dev : Dev) : Frame n → Option ℕ
  | .sysSync .start | .sysSync .inodes => some 0
  | .sysSync (.wait i) | .sysSync (.writing i) => some i
  | .syncDev d pc =>
    if d = dev then
      match pc with
      | .loop true i | .wait true i | .writing true i => some i
      | _ => some 0
    else none
  | _ => none

/-- A step of a synchronisation passes a buffer only if there is nothing to write, and ends after the
last. -/
theorem Cache.cursor_exec (c : Cache α n) (ch : Choice α) {f : Frame n} {dev : Dev} {j : ℕ}
    (h : f.cursor dev = some j) :
    (∃ f' j', (c.exec ch f).2.frames.getLast? = some f' ∧ f'.cursor dev = some j' ∧
      (j' ≤ j ∨ j' = j + 1 ∧ ∀ h : j < n, c.bDev ⟨j, h⟩ = dev →
        c.bLock ⟨j, h⟩ = false ∧ c.bDirt ⟨j, h⟩ = false)) ∨
    (c.exec ch f).2 = .ret none ∧ n ≤ j ∨ (c.exec ch f).2 = .panic := by
  cases f with
  | sysSync pc =>
    cases pc with
    | wait i =>
      obtain rfl : i = j := by simpa [Frame.cursor] using h
      by_cases hi : i < n
      · by_cases hl : c.bLock ⟨i, hi⟩
        · simp [Cache.exec, Cache.sysSync, hi, hl, Next.frames, Frame.cursor]
        · by_cases hd : c.bDirt ⟨i, hi⟩
          · simp [Cache.exec, Cache.sysSync, hi, hl, hd, Next.frames, Frame.cursor]
          · simp [Cache.exec, Cache.sysSync, hi, hl, hd, Next.frames, Frame.cursor]
      · simp [Cache.exec, Cache.sysSync, hi, Nat.le_of_not_lt hi]
    | start | inodes => simp_all [Cache.exec, Cache.sysSync, Next.frames, Frame.cursor]
    | writing i => simp_all [Cache.exec, Cache.sysSync, Next.frames, Frame.cursor]
  | syncDev d pc =>
    obtain rfl : d = dev := by
      by_contra hd
      simp [Frame.cursor, hd] at h
    cases pc with
    | loop second i =>
      cases second with
      | true =>
        obtain rfl : i = j := by simpa [Frame.cursor] using h
        by_cases hi : i < n
        · by_cases hdev : c.bDev ⟨i, hi⟩ = d
          · simp [Cache.exec, Cache.syncDev, hi, hdev, Next.frames, Frame.cursor]
          · simp [Cache.exec, Cache.syncDev, hi, hdev, Next.frames, Frame.cursor]
        · simp [Cache.exec, Cache.syncDev, hi, Nat.le_of_not_lt hi]
      | false =>
        by_cases hi : i < n
        · by_cases hdev : c.bDev ⟨i, hi⟩ = d <;>
            simp [Cache.exec, Cache.syncDev, hi, hdev, Next.frames, Frame.cursor]
        · simp [Cache.exec, Cache.syncDev, hi, Next.frames, Frame.cursor]
    | wait second i =>
      by_cases hi : i < n
      · cases second with
        | true =>
          obtain rfl : i = j := by simpa [Frame.cursor] using h
          by_cases hl : c.bLock ⟨i, hi⟩
          · simp [Cache.exec, Cache.syncDev, hi, hl, Next.frames, Frame.cursor]
          · by_cases hd : c.bDev ⟨i, hi⟩ = d ∧ c.bDirt ⟨i, hi⟩
            · simp [Cache.exec, Cache.syncDev, hi, hl, hd, Next.frames, Frame.cursor]
            · refine .inl ⟨.syncDev d (.loop true (i + 1)), i + 1, ?_, by simp [Frame.cursor],
                .inr ⟨rfl, fun _ hdev => ⟨by simpa using hl, by simpa [hdev] using hd⟩⟩⟩
              simp [Cache.exec, Cache.syncDev, hi, hl, hd, Next.frames]
        | false =>
          by_cases hl : c.bLock ⟨i, hi⟩
          · simp [Cache.exec, Cache.syncDev, hi, hl, Next.frames, Frame.cursor]
          · by_cases hd : c.bDev ⟨i, hi⟩ = d ∧ c.bDirt ⟨i, hi⟩ <;>
              simp [Cache.exec, Cache.syncDev, hi, hl, hd, Next.frames, Frame.cursor]
      · simp [Cache.exec, Cache.syncDev, hi]
    | writing second i => cases second <;> simp_all [Cache.exec, Cache.syncDev, Next.frames, Frame.cursor]
    | inodes => simp_all [Cache.exec, Cache.syncDev, Next.frames, Frame.cursor]
  | _ => cases h

/-- When a call returns to a synchronisation, that passes a buffer only if the call has written it. -/
theorem Frame.cursor_receive {g : Frame n} {k : Kind n} {dev : Dev} {j : ℕ} (v : Option (Fin n))
    (hk : g.awaits k) (h : g.cursor dev = some j) : ∃ j', (g.receive v).cursor dev = some j' ∧
      (j' ≤ j ∨ j' = j + 1 ∧ ∃ h : j < n, k = .transfer .write ⟨j, h⟩) := by
  cases g with
  | sysSync pc =>
    cases pc with
    | inodes => exact ⟨0, rfl, .inl (Nat.zero_le _)⟩
    | writing i =>
      obtain rfl : i = j := by simpa [Frame.cursor] using h
      exact ⟨i + 1, rfl, .inr ⟨rfl, hk⟩⟩
    | _ => exact hk.elim
  | syncDev d pc =>
    obtain rfl : d = dev := by
      by_contra hd
      simp [Frame.cursor, hd] at h
    cases pc with
    | inodes => exact ⟨0, by simp [Frame.receive, Frame.cursor], .inl (Nat.zero_le _)⟩
    | writing second i =>
      cases second with
      | true =>
        obtain rfl : i = j := by simpa [Frame.cursor] using h
        exact ⟨i + 1, by simp [Frame.receive, Frame.cursor], .inr ⟨rfl, hk⟩⟩
      | false => exact ⟨0, by simp [Frame.receive, Frame.cursor], .inl (Nat.zero_le _)⟩
    | _ => exact hk.elim
  | _ => cases h

namespace State

variable {s s' : State α n} {p : Pid} {fs : List (Frame n)} {dev : Dev} {block : Block} {i : Fin 2}
  {π : α → β}

/-- A process is in a synchronisation that has not yet passed the buffer of the block. -/
def Syncing (s : State α n) (p : Pid) (dev : Dev) (block : Block) : Prop :=
  ∃ f j, (s.stack p).getLast? = some f ∧ f.cursor dev = some j ∧
    ∀ b, s.cache.Carries b dev block → j ≤ b.val

/-- What is not settled is in an up-to-date buffer. -/
theorem Stored.carrier (h : Stored s) (hr : Block.InRange block) (hS : ¬ s.Settled dev block i π) :
    dev ≠ 0 ∧ ∃ b, s.cache.Carries b dev block ∧ s.cache.bUptodate b = true := by
  have hb : ∃ b, s.cache.Carries b dev block ∧ s.cache.bUptodate b = true := by
    by_contra hno
    push Not at hno
    exact hS (.inl (congrArg π (h.contents.absent dev block hr (fun b hb => by
      simpa using hno b hb) i)))
  obtain ⟨b, hk, hu⟩ := hb
  exact ⟨hk.1 ▸ h.contents.hasDev b hu, b, hk, hu⟩

/-- A buffer that is clean and at rest has its block on disk. -/
theorem Stored.settled_of_clean (h : Stored s) (hr : Block.InRange block) {b : Fin n}
    (hk : s.cache.Carries b dev block) (hl : s.cache.bLock b = false)
    (hd : s.cache.bDirt b = false) (ht : ¬ s.Touched b) : s.Settled dev block i π := by
  by_contra hS
  obtain ⟨h0, b', hk', hu⟩ := h.carrier hr hS
  obtain rfl : b = b' := h.coherent.queues.unique b' b (hk'.1 ▸ h0)
    ⟨hk.1.trans hk'.1.symm, hk.2.trans hk'.2.symm⟩
  refine hS (.inl ?_)
  have := h.contents.clean b hu hd ht (fun m r hm hb => absurd hb (h.no_request hl m r hm)) i
  simp only [Cache.onDisk, Cache.lastStored, hk.1, hk.2] at this
  rw [this]

/-- Of a block that is not settled, no other buffer becomes the buffer. -/
theorem Stored.carries_back (h : Stored s) (hr : Block.InRange block)
    (hS : ¬ s.Settled dev block i π) {e : Event α n} (hs : s.next e = some s') {b : Fin n}
    (hb : s'.cache.Carries b dev block) : s.cache.Carries b dev block := by
  cases e with
  | schedule p => obtain ⟨-, rfl⟩ := next_schedule hs; exact hb
  | yield => obtain ⟨p, -, -, rfl⟩ := next_yield hs; exact hb
  | start c => obtain ⟨p, -, -, rfl⟩ := next_start hs; exact hb
  | run ch =>
    obtain ⟨p, f, fs, hp, hf, hrun⟩ := next_run hs
    obtain ⟨hcache, -⟩ := run_eq_some hrun
    have ho := s.cache.exec_outcome ch f
    rw [show s.cache.exec ch f = (s'.cache, (s.cache.exec ch f).2) by rw [hcache]] at ho
    obtain ⟨-, ⟨e, -⟩ | ⟨dev', block', bh, -, -, hu, hfind, hmove⟩⟩ := ho.known
    · rwa [e] at hb
    · obtain ⟨hnew, hsame⟩ := Cache.reassign_known h.coherent.queues hfind hmove
      by_cases hbb : b = bh
      · -- the block would have had no buffer
        subst hbb
        obtain ⟨h0, b', hk', -⟩ := h.carrier hr hS
        have e1 : dev' = dev := hnew.1.symm.trans hb.1
        have e2 : block' = block := hnew.2.symm.trans hb.2
        subst e1 e2
        exact absurd hk' (h.coherent.queues.findBuffer_none h0 hfind b')
      · obtain ⟨e1, e2, -⟩ := hsame b hbb
        exact ⟨e1.symm.trans hb.1, e2.symm.trans hb.2⟩
  | transfer m =>
    obtain ⟨c, hc, rfl⟩ := next_transfer hs
    have e := Cache.transfer_queues hc
    change c.Carries b dev block at hb
    rwa [e] at hb
  | complete m ok =>
    obtain ⟨c, hc, rfl⟩ := next_complete hs
    have e := Cache.endRequest_queues hc
    change c.Carries b dev block at hb
    rwa [e] at hb

/-- When a call of `ll_rw_block` to write `b` returns, the block of `b` is settled. -/
theorem Stored.written (h : Stored s) (hr : Block.InRange block) (hS : ¬ s.Settled dev block i π)
    (hrun : s.run p f fs ch = some s') {b : Fin n} (hk : f.kind = .transfer .write b)
    {v : Option (Fin n)} (hv : (s.cache.exec ch f).2 = .ret v) (hb : s.cache.Carries b dev block)
    (ht : ¬ s.Touched b) : s'.Settled dev block i π := by
  obtain ⟨h0, b', hk', hu⟩ := h.carrier hr hS
  obtain rfl : b = b' := h.coherent.queues.unique b' b (hk'.1 ▸ h0)
    ⟨hb.1.trans hk'.1.symm, hb.2.trans hk'.2.symm⟩
  obtain ⟨hcache, -⟩ := run_eq_some hrun
  cases f with
  | llRwBlock rw bh =>
    cases hk
    obtain ⟨hm, hfn⟩ := h.contents.driver b hu
    simp [Cache.exec, Cache.llRwBlock, hm, hfn] at hv
  | makeRequest m rw bh pc =>
    cases hk
    rcases pc with _ | _ | _ | k
    · simp [Cache.exec, Cache.makeRequest, Rw.ahead] at hv
    · simp only [Cache.exec, Cache.makeRequest] at hv
      split at hv
      · cases hv
      · next hl =>
        split at hv
        · next hg =>
          have hd : s.cache.bDirt b = false := by simpa [Rw.cmd] using hg
          exact absurd (h.settled_of_clean hr hb (by simpa using hl) hd ht) hS
        · cases hv
    · simp [Cache.exec, Cache.makeRequest, Rw.ahead] at hv
    · simp only [Cache.exec, Cache.makeRequest] at hv hcache
      split at hv
      · next hfree =>
        rw [if_pos hfree] at hcache
        refine .inr ⟨b, ?_, m, s.cache.request k .write b, ?_, rfl, rfl, Nat.zero_le _⟩
        · rw [hcache]
          exact hb
        · rw [hcache]
          exact (s.cache.addRequest_perm m _).mem_iff.2 List.mem_cons_self
      · cases hv
  | _ => cases hk

/-- **While a process synchronises, a block is settled or still to come.** -/
theorem Syncing.next (h : Stored s) (hrn : s.Running) (hr : Block.InRange block) {e : Event α n}
    (hd : s.Disciplined e) (hsp : s.Spares dev block i π e) (hs : s.next e = some s')
    (hS : s.Settled dev block i π ∨ s.Syncing p dev block) :
    s'.Settled dev block i π ∨ s'.Syncing p dev block := by
  by_cases hset : s.Settled dev block i π
  · exact .inl (hset.next h hr hd hsp hs)
  obtain ⟨f, j, hl, hcur, hge⟩ := hS.resolve_left hset
  have hback : ∀ b, s'.cache.Carries b dev block → s.cache.Carries b dev block :=
    fun b hb => h.carries_back hr hset hs hb
  have hstay : s'.stack p = s.stack p → s'.Syncing p dev block :=
    fun he => ⟨f, j, he ▸ hl, hcur, fun b hb => hge b (hback b hb)⟩
  cases e with
  | schedule q => obtain ⟨-, rfl⟩ := next_schedule hs; exact .inr (hstay rfl)
  | yield => obtain ⟨q, -, -, rfl⟩ := next_yield hs; exact .inr (hstay rfl)
  | start c =>
    obtain ⟨q, -, he, rfl⟩ := next_start hs
    have hqp : p ≠ q := by
      rintro rfl
      simp [he] at hl
    exact .inr (hstay (Function.update_of_ne hqp _ _))
  | transfer m => obtain ⟨c, -, rfl⟩ := next_transfer hs; exact .inr (hstay rfl)
  | complete m ok => obtain ⟨c, -, rfl⟩ := next_complete hs; exact .inr (hstay rfl)
  | run ch =>
    obtain ⟨q, f₀, fs, hq, hf, hrun⟩ := next_run hs
    obtain ⟨-, -, ⟨fs', hc, hst⟩, -, -⟩ := run_eq_some hrun
    by_cases hqp : p = q
    swap
    · exact .inr (hstay (by rw [hst, Function.update_of_ne hqp]))
    subst hqp
    rw [hf] at hl
    have hst' : s'.stack p = fs' := by rw [hst, Function.update_self]
    have htouch : ∀ b, s.Touched b → .modify b ∈ f₀ :: fs := by
      rintro b ⟨q, hm⟩
      obtain rfl : p = q := by simpa [hq] using hrn q b hm
      rwa [hf] at hm
    have hnomod : ∀ b, f ≠ .modify b := by
      rintro b rfl
      cases hcur
    -- the frame below stays where no call returns to it
    have hbelow : ∀ fs₁, s'.stack p = fs₁ → fs₁.getLast? = some f → s'.Syncing p dev block :=
      fun fs₁ he hlast => ⟨f, j, he ▸ hlast, hcur, fun b hb => hge b (hback b hb)⟩
    cases fs with
    | nil =>
      obtain rfl : f₀ = f := by simpa using hl
      rcases Cache.cursor_exec s.cache ch hcur with
        ⟨f', j', hlast, hcur', hj⟩ | ⟨hret, hn⟩ | hpanic
      · refine .inr ⟨f', j', ?_, hcur', fun b hb => ?_⟩
        · rw [hst']
          generalize (s.cache.exec ch f₀).2 = nx at hc hlast
          cases hc with
          | goto | sleep | call => exact hlast
          | finish v => cases hlast
        · have hjb := hge b (hback b hb)
          rcases hj with hj | ⟨rfl, hclean⟩
          · omega
          · by_contra hlt
            obtain rfl : j = b.val := by omega
            obtain ⟨h1, h2⟩ := hclean b.isLt (hback b hb).1
            refine hset (h.settled_of_clean hr (hback b hb) h1 h2 fun ht => ?_)
            exact hnomod b (List.mem_singleton.1 (htouch b ht)).symm
      · obtain ⟨-, b, hk, -⟩ := h.carrier hr hset
        have := hge b hk
        have := b.isLt
        omega
      · rw [hpanic] at hc
        cases hc
    | cons g fs₁ =>
      have hl' : (g :: fs₁).getLast? = some f := by simpa [List.getLast?_cons] using hl
      generalize hnx : (s.cache.exec ch f₀).2 = nx at hc
      cases hc with
      | goto f' | sleep f' => exact .inr (hbelow _ hst' (by simpa [List.getLast?_cons] using hl'))
      | call f' g' => exact .inr (hbelow _ hst' (by simpa [List.getLast?_cons] using hl'))
      | ret v =>
        cases fs₁ with
        | cons g' fs₂ => exact .inr (hbelow _ hst' (by simpa [List.getLast?_cons] using hl'))
        | nil =>
          obtain rfl : g = f := by simpa using hl'
          obtain ⟨hk, -⟩ := List.isChain_cons_cons.1 (show Typed (f₀ :: [g]) from hf ▸ h.coherent.typed p)
          obtain ⟨j', hcur', hj⟩ := Frame.cursor_receive v hk hcur
          rcases hj with hj | ⟨rfl, hlt, hkind⟩
          · exact .inr ⟨_, j', by rw [hst']; rfl, hcur', fun b hb => hj.trans (hge b (hback b hb))⟩
          · by_cases hcar : s.cache.Carries ⟨j, hlt⟩ dev block
            · refine .inl (h.written hr hset hrun hkind hnx hcar fun ht => ?_)
              rcases List.mem_cons.1 (htouch _ ht) with he | he
              · rw [← he] at hkind
                cases hkind
              · exact hnomod _ (List.mem_singleton.1 he).symm
            · refine .inr ⟨_, j + 1, by rw [hst']; rfl, hcur', fun b hb => ?_⟩
              have hjb := hge b (hback b hb)
              have hne : j ≠ b.val := by
                rintro rfl
                exact hcar (hback b hb)
              omega

/-! ## Runs -/

/-- The steps of disciplined users in which `file_write` stores into marked buffers. -/
def Marks (s : State α n) (e : Event α n) : Prop := s.Disciplined e ∧ s.KeepsMark e

instance (c : Cache α n) (b : Fin n) (i : Fin 2) : Decidable (c.Pending b i) :=
  inferInstanceAs (Decidable (∃ m, ∃ r ∈ c.currentRequest m,
    r.bh = b ∧ r.cmd = .write ∧ r.buffer ≤ i.val))

instance (s : State α n) : (ch : Choice α) → (f : Frame n) → Decidable (s.Marked ch f)
  | .write i _, .fileWrite _ _ (.copying bh) =>
    inferInstanceAs (Decidable (s.cache.bDirt bh = true ∨ s.cache.Pending bh i))
  | .write _ _, .fileWrite _ _ .loop | .write _ _, .fileWrite _ _ .reading
  | .write _ _, .fileWrite _ _ (.got _) | .write _ _, .fileWrite _ _ .releasing
  | .write _ _, .getHashTable .. | .write _ _, .getblk .. | .write _ _, .bread ..
  | .write _ _, .breada .. | .write _ _, .brelse _ | .write _ _, .llRwBlock ..
  | .write _ _, .makeRequest .. | .write _ _, .syncDev .. | .write _ _, .sysSync _
  | .write _ _, .syncInodes _ | .write _ _, .modify _ | .go, _ | .wait, _ | .inode _ _, _ =>
    .isTrue trivial

instance (s : State α n) : (e : Event α n) → Decidable (s.KeepsMark e)
  | .run ch =>
    match h : s.cur.map s.stack with
    | some (f :: _) => decidable_of_iff (s.Marked ch f) (by simp [KeepsMark, h])
    | some [] | none => .isTrue (by simp [KeepsMark, h])
  | .schedule _ | .yield | .start _ | .transfer _ | .complete _ _ => .isTrue trivial

instance (s : State α n) (e : Event α n) : Decidable (s.Marks e) :=
  inferInstanceAs (Decidable (_ ∧ _))

end State

/-- The event stores into a buffer. -/
def Event.isWrite : Event α n → Bool
  | .run (.write _ _) => true
  | _ => false

theorem State.spares_of_not_write {s : State α n} {dev : Dev} {block : Block} {i : Fin 2} {π : α → β}
    {e : Event α n} (he : e.isWrite = false) : s.Spares dev block i π e := by
  rintro p f fs b v rfl
  cases he

end Linux011.Buffer
