import Linux011.Blk.HdAddress

/-!
# Retries of the hard disk

A request is moved on sector by sector in the interrupt handlers, and after an error
`do_hd_request` starts again with what is left of it. Its test asks for two sectors all the same, so
the second half of the last block of a partition does not pass it (`request_rejected`).

1. `Request.Done`: how far a request is. `Served`: how it should be completed.
2. `Serving`, what every step keeps if no such half is tried again (`State.Retries`).
3. `State.work`: every step of the driver brings `CURRENT` nearer to its end.
-/

namespace Linux011.Hd

open Blk (Cmd)

/-! ## How far a request is -/

/-- What was asked for lies within the partition. -/
def Request.Asked (d : Disks) (r : Request) : Prop :=
  r.minor < 5 * d.nrHd ∧ r.account.sector.toNat + 2 ≤ (d.hd r.minor).nrSects.toNat

/-- Sector `i` of the block, with its half of the buffer. -/
def Request.half (d : Disks) (r : Request) (i : ℕ) : Transfer where
  cmd := r.cmd
  buffer := r.account.buffer + BitVec.ofNat 32 (512 * i)
  drive := r.minor / 5
  sector := (d.hd r.minor).startSect.toNat + r.account.sector.toNat + i

def Request.halves (d : Disks) (r : Request) (n : ℕ) : List Transfer := (List.range n).map (r.half d)

/-- The first `n` sectors of the block are done. -/
structure Request.Done (d : Disks) (r : Request) (n : ℕ) : Prop where
  nrSectors : r.nrSectors.toNat + n = 2
  sector : r.sector.toNat = r.account.sector.toNat + n
  buffer : r.buffer = r.account.buffer + BitVec.ofNat 32 (512 * n)
  transfers : r.account.transfers = r.halves d n

/-- A completed request: both sectors are transferred, or there were as many errors as are allowed. -/
def Served (d : Disks) (x : Request × Bool) : Prop :=
  (x.2 = true → x.1.account.transfers = x.1.halves d 2) ∧
    (x.2 = false → maxErrors ≤ x.1.account.errors)

/-- A request that waits behind `CURRENT`. -/
structure Request.Fresh (d : Disks) (r : Request) : Prop where
  done : r.Done d 0
  errors : r.errors ≤ r.account.errors

/-- The command is for this request: the next sector that it transfers is the next of the request. -/
def State.OnSector (d : Disks) (s : State) (r : Request) : Prop :=
  ∃ g, s.regs = some g ∧ g.drive = r.minor / 5 ∧ g.absolute d + s.moved = r.absolute d

/-- The controller works for `CURRENT`. -/
inductive Running (d : Disks) (s : State) (r : Request) : Prop
  | recal : s.doHd = some .recal → s.reset = none → r.Inside d → Running d s r
  | read : s.doHd = some .read → r.cmd = .read → s.OnSector d r → Running d s r
  | write : s.doHd = some .write → r.cmd = .write → s.OnSector d r → s.data = r.buffer →
      Running d s r

/-- What holds of `CURRENT`. -/
structure Current (d : Disks) (s : State) (r : Request) : Prop where
  done : ∃ n, r.Done d n
  errors : r.errors ≤ r.account.errors
  atRepeat : s.atRepeat = true → r.Asked d → r.Inside d ∨ maxErrors ≤ r.account.errors
  running : s.atRepeat = false → r.Asked d ∧ Running d s r

structure Serving (d : Disks) (s : State) : Prop where
  queue : ∀ r q, s.queue = r :: q → Current d s r ∧ ∀ c ∈ q, c.Fresh d
  ended : ∀ x ∈ s.ended, x.1.Asked d → Served d x

/-- If the controller reports an error, and it is not the last that is allowed, then two sectors from
where the request is lie within the partition. -/
def State.Retries (d : Disks) (s : State) : Event → Prop
  | .interrupt false =>
    ∀ r ∈ s.queue.head?, s.doHd = none ∨ r.Inside d ∨ maxErrors ≤ r.account.errors + 1
  | _ => True

section Requests

variable {d : Disks} {s s' : State} {r c : Request} {q : List Request} {n : ℕ}

theorem halves_succ : r.halves d (n + 1) = r.halves d n ++ [r.half d n] := by
  unfold Request.halves
  rw [List.range_succ, List.map_append]
  rfl

theorem Request.Done.asked (h : r.Done d n) (hin : r.Inside d) : r.Asked d := by
  obtain ⟨hminor, hnr⟩ := hin
  have hs := h.sector
  exact ⟨hminor, by omega⟩

theorem Request.Fresh.inside (h : r.Fresh d) (ha : r.Asked d) : r.Inside d := by
  obtain ⟨hminor, hnr⟩ := ha
  have hs := h.done.sector
  exact ⟨hminor, by omega⟩

/-- It becomes `CURRENT`. -/
theorem Request.Fresh.current (h : c.Fresh d) (hs : s.atRepeat = true) : Current d s c where
  done := ⟨0, h.done⟩
  errors := h.errors
  atRepeat _ ha := .inl (h.inside ha)
  running hf := by rw [hs] at hf; cases hf

theorem made_fresh {minor : Byte} {cmd : Cmd} {block buffer : Word} :
    (s.made minor cmd block buffer).Fresh d := by
  refine ⟨⟨rfl, rfl, ?_, rfl⟩, le_rfl⟩
  exact (BitVec.add_zero _).symm

theorem Request.Done.fail (h : r.Done d n) : r.fail.Done d n :=
  ⟨h.nrSectors, h.sector, h.buffer, h.transfers⟩

/-- One more sector is transferred. -/
theorem Request.Done.transfers_succ (h : r.Done d n) (ho : s.OnSector d r) :
    r.account.transfers ++ s.transfer d r.cmd r.buffer = r.halves d (n + 1) := by
  obtain ⟨g, hg, hdrive, habs⟩ := ho
  have hs := h.sector
  have hhalf : s.transfer d r.cmd r.buffer = [r.half d n] := by
    unfold State.transfer Request.half
    rw [hg]
    dsimp only
    rw [hdrive, habs, h.buffer]
    unfold Request.absolute
    rw [hs, ← Nat.add_assoc]
  rw [halves_succ, h.transfers, hhalf]

theorem Request.Sized.pred (h : r.Sized) : (r.nrSectors - 1).toNat + 1 = r.nrSectors.toNat := by
  obtain h | h := h.nrSectors <;> rw [h] <;> decide

theorem Request.Done.buffer_succ (h : r.Done d n) :
    r.buffer + 512 = r.account.buffer + BitVec.ofNat 32 (512 * (n + 1)) := by
  rw [h.buffer, Nat.mul_succ, BitVec.ofNat_add, BitVec.add_assoc]
  rfl

theorem Request.Done.read {ts : List Transfer} (h : r.Done d n) (hr : r.Sized)
    (ht : r.account.transfers ++ ts = r.halves d (n + 1)) : (r.read ts).Done d (n + 1) := by
  have hn := h.nrSectors
  have hp := hr.pred
  have hs := h.sector
  have hs' := hr.sector_succ
  refine ⟨?_, ?_, h.buffer_succ, ht⟩
  · change (r.nrSectors - 1).toNat + (n + 1) = 2
    omega
  · change (r.sector + 1).toNat = r.account.sector.toNat + (n + 1)
    omega

theorem Request.Done.wrote {ts : List Transfer} (h : r.Done d n) (hr : r.Sized)
    (ht : r.account.transfers ++ ts = r.halves d (n + 1)) : (r.wrote ts).forth.Done d (n + 1) :=
  ⟨(h.read hr ht).nrSectors, (h.read hr ht).sector, h.buffer_succ, ht⟩

/-- With one sector left, the other is done. -/
theorem Request.Done.eq_one (h : r.Done d n) (hn : r.nrSectors - 1 = 0) : n = 1 := by
  have h1 : r.nrSectors.toNat = 1 := by
    have h2 : r.nrSectors = 1 := by bv_omega
    rw [h2]
    rfl
  have := h.nrSectors
  omega

end Requests

/-! ## What every step keeps -/

section Steps

variable {d : Disks} {s s' s'' t : State} {r : Request} {q : List Request} {e : Event}

/-- A state at `repeat`. -/
theorem serving_atRepeat (hs : s.atRepeat = true)
    (hc : ∀ r q, s.queue = r :: q → ((∃ n, r.Done d n) ∧ r.errors ≤ r.account.errors ∧
      (r.Asked d → r.Inside d ∨ maxErrors ≤ r.account.errors)) ∧ ∀ c ∈ q, c.Fresh d)
    (he : ∀ x ∈ s.ended, x.1.Asked d → Served d x) : Serving d s := by
  refine ⟨fun r q hq => ?_, he⟩
  obtain ⟨⟨hdone, herr, hin⟩, hfresh⟩ := hc r q hq
  refine ⟨⟨hdone, herr, fun _ => hin, fun hf => ?_⟩, hfresh⟩
  rw [hs] at hf
  cases hf

/-- `CURRENT` is completed. -/
theorem Serving.complete {x : Request × Bool} (h : Serving d s) (hq : s.queue = r :: q)
    (hx : x.1.Asked d → Served d x) (hs : s'.atRepeat = true) (hq' : s'.queue = q)
    (he : s'.ended = s.ended ++ [x]) : Serving d s' := by
  obtain ⟨-, hfresh⟩ := h.queue r q hq
  refine serving_atRepeat hs (fun c q' hc => ?_) ?_
  · rw [hq'] at hc
    rw [hc] at hfresh
    obtain ⟨hc, hrest⟩ := List.forall_mem_cons.1 hfresh
    exact ⟨⟨⟨0, hc.done⟩, hc.errors, fun ha => .inl (hc.inside ha)⟩, hrest⟩
  · rw [he]
    exact List.forall_mem_append.2 ⟨h.ended, List.forall_mem_singleton.2 hx⟩

/-- An error: `CURRENT` is tried again, or given up. -/
theorem Serving.badRwIntr (h : Serving d s) (hq : s.queue = r :: q)
    (hok : r.Inside d ∨ maxErrors ≤ r.account.errors + 1)
    (ht : t.queue = s.queue) (hte : t.ended = s.ended) (hs : t.badRwIntr = .ok s')
    (hrep : s''.atRepeat = true) (hqq : s''.queue = s'.queue) (hee : s''.ended = s'.ended) :
    Serving d s'' := by
  obtain ⟨hcur, hfresh⟩ := h.queue r q hq
  obtain ⟨n, hn⟩ := hcur.done
  obtain ⟨r', q', hq', hcase⟩ := badRwIntr_ok hs
  obtain ⟨rfl, rfl⟩ : r' = r ∧ q' = q := by
    rw [ht, hq] at hq'
    obtain ⟨rfl, rfl⟩ := List.cons.inj hq'
    exact ⟨rfl, rfl⟩
  obtain ⟨-, rfl⟩ | ⟨hmax, c, q', rfl, rfl⟩ := hcase
  · refine serving_atRepeat hrep (fun r₁ q₁ hq₁ => ?_) ?_
    · rw [hqq] at hq₁
      obtain ⟨rfl, rfl⟩ := List.cons.inj hq₁
      exact ⟨⟨⟨n, hn.fail⟩, Nat.succ_le_succ hcur.errors, fun _ => hok⟩, hfresh⟩
    · rw [hee, hte]
      exact h.ended
  · refine h.complete hq (x := (r'.fail, false)) (fun _ => ⟨fun hb => ?_, fun _ => ?_⟩) hrep hqq
      (hee.trans (by rw [hte]))
    · cases hb
    · exact hmax.trans (Nat.succ_le_succ hcur.errors)

/-- The second sector of a block is transferred. -/
theorem Current.served (h : Current d s r) (hn : r.nrSectors - 1 = 0) (ho : s.OnSector d r)
    {r' : Request} (hr : r'.account.transfers = r.account.transfers ++ s.transfer d r.cmd r.buffer)
    (hh : r'.halves d 2 = r.halves d 2) : Served d (r', true) := by
  obtain ⟨n, hd⟩ := h.done
  obtain rfl := hd.eq_one hn
  refine ⟨fun _ => ?_, fun hb => by cases hb⟩
  change r'.account.transfers = r'.halves d 2
  rw [hr, hd.transfers_succ ho, hh]

/-- After a command of `do_hd_request`. -/
theorem Serving.commanded (h : Serving d s) (hq : s.queue = r :: q) (hin : r.Inside d)
    (hs : s'.atRepeat = false) (hr : Running d s' r) (hq' : s'.queue = s.queue)
    (he : s'.ended = s.ended) : Serving d s' := by
  obtain ⟨hcur, hfresh⟩ := h.queue r q hq
  obtain ⟨n, hn⟩ := hcur.done
  refine ⟨fun r₁ q₁ hq₁ => ?_, ?_⟩
  · obtain ⟨rfl, rfl⟩ := List.cons.inj (hq₁.symm.trans (hq'.trans hq))
    refine ⟨⟨hcur.done, hcur.errors, fun ht => ?_, fun _ => ⟨hn.asked hin, hr⟩⟩, hfresh⟩
    rw [hs] at ht
    cases ht
  · rw [he]
    exact h.ended

theorem Registers.Denote.onSector {g : Registers} {cmd : Byte} {m : ℕ}
    (h : g.Denote d (r.minor / 5) (r.absolute d) m cmd) {intr : Handler} :
    (s.commanded g intr).OnSector d r :=
  ⟨g, rfl, h.drive_eq, h.absolute⟩

theorem Serving.turn {ready drq : Bool} (hd : d.Valid) (h : Serving d s)
    (hsized : ∀ r ∈ s.queue, r.Sized) (hrep : s.atRepeat = true)
    (hs : s.doHdRequest d ready drq = .ok s') : Serving d s' := by
  obtain ⟨hq, rfl⟩ | ⟨r, q, hq, ⟨hout, rfl⟩ | ⟨hin, hi⟩⟩ := turn_ok hd hsized hs
  · refine ⟨fun r q hr => ?_, h.ended⟩
    rw [show ({ s with atRepeat := false } : State).queue = s.queue from rfl, hq] at hr
    cases hr
  · obtain ⟨hcur, -⟩ := h.queue r q hq
    refine h.complete hq (x := (r, false)) (fun ha => ⟨fun hb => ?_, fun _ => ?_⟩) hrep rfl rfl
    · cases hb
    · exact (hcur.atRepeat hrep ha).resolve_left hout
  · obtain ⟨o, ho⟩ : ∃ o, o = Except.ok (ε := Fault) s' := ⟨_, rfl⟩
    rw [← ho] at hi
    cases hi with
    | notReady => cases ho
    | resets g c =>
      cases ho
      exact h.commanded hq hin rfl (.recal rfl rfl hin) rfl rfl
    | recalibrates g c _ hreset =>
      cases ho
      exact h.commanded hq hin rfl (.recal rfl hreset hin) rfl rfl
    | reads g _ _ _ hcmd hg =>
      cases ho
      exact h.commanded hq hin rfl (.read rfl hcmd hg.onSector) rfl rfl
    | writes g _ _ _ hcmd hg =>
      cases ho
      obtain ⟨g', hg'⟩ : (s.commanded g .write).OnSector d r := hg.onSector
      exact h.commanded hq hin rfl (.write rfl hcmd ⟨g', hg'⟩ rfl) rfl rfl
    | refuses g =>
      have hrep' : s'.atRepeat = true := by
        obtain ⟨-, -, -, ⟨-, rfl⟩ | ⟨-, c, q', -, rfl⟩⟩ := badRwIntr_ok ho <;> exact hrep
      exact h.badRwIntr (t := s.commanded g .write) hq (.inl hin) rfl rfl ho hrep' rfl rfl

/-- The first sector of two is transferred. -/
theorem Serving.sector {r' : Request} (h : Serving d s) (hq : s.queue = r :: q)
    (hrep : s.atRepeat = false) (hq' : s'.queue = r' :: q) (he : s'.ended = s.ended)
    (hrep' : s'.atRepeat = false) (hdone : ∃ n, r'.Done d n)
    (herr : r'.errors ≤ r'.account.errors) (ha : r'.Asked d ↔ r.Asked d) (hr : Running d s' r') :
    Serving d s' := by
  obtain ⟨hcur, hfresh⟩ := h.queue r q hq
  refine ⟨fun r₁ q₁ hq₁ => ?_, ?_⟩
  · obtain ⟨rfl, rfl⟩ := List.cons.inj (hq₁.symm.trans hq')
    refine ⟨⟨hdone, herr, fun ht => ?_, fun _ => ⟨ha.2 (hcur.running hrep).1, hr⟩⟩, hfresh⟩
    rw [hrep'] at ht
    cases ht
  · rw [he]
    exact h.ended

/-- What runs, by its handler. -/
theorem Running.onSector (h : Running d s r) (hh : s.doHd ≠ some .recal) : s.OnSector d r := by
  cases h with
  | recal h => exact absurd h hh
  | read _ _ ho => exact ho
  | write _ _ ho => exact ho

theorem Running.read_cmd (h : Running d s r) (hh : s.doHd = some .read) : r.cmd = .read := by
  cases h with
  | recal h => rw [h] at hh; cases hh
  | read _ hc => exact hc
  | write h => rw [h] at hh; cases hh

theorem Running.write_cmd (h : Running d s r) (hh : s.doHd = some .write) :
    r.cmd = .write ∧ s.data = r.buffer := by
  cases h with
  | recal h => rw [h] at hh; cases hh
  | read h => rw [h] at hh; cases hh
  | write _ hc _ hb => exact ⟨hc, hb⟩

/-- After a sector, the next. -/
theorem State.OnSector.next (h : s.OnSector d r) {r' : Request} (hregs : s'.regs = s.regs)
    (hmoved : s'.moved = s.moved + 1) (hm : r'.minor = r.minor)
    (hr : r'.sector.toNat = r.sector.toNat + 1) : s'.OnSector d r' := by
  obtain ⟨g, hg, hdrive, habs⟩ := h
  refine ⟨g, hregs.trans hg, by rw [hdrive, hm], ?_⟩
  unfold Request.absolute at habs ⊢
  rw [hmoved, hm, hr]
  omega

theorem Serving.interrupt {ok : Bool} (h : Serving d s) (hsized : ∀ r ∈ s.queue, r.Sized)
    (hrep : s.atRepeat = false) (hok : s.Retries d (.interrupt ok))
    (hs : s.interrupt d ok = .ok s') : Serving d s' := by
  cases interrupt_ok hs with
  | unexpected hdo =>
    refine ⟨fun r q hq => ?_, h.ended⟩
    obtain ⟨hcur, -⟩ := h.queue r q hq
    cases (hcur.running hrep).2 with
    | recal h => rw [hdo] at h; cases h
    | read h => rw [hdo] at h; cases h
    | write h => rw [hdo] at h; cases h
  | recal hdo =>
    refine serving_atRepeat rfl (fun r q hq => ?_) h.ended
    obtain ⟨hcur, hfresh⟩ := h.queue r q hq
    refine ⟨⟨hcur.done, hcur.errors, fun _ => .inl ?_⟩, hfresh⟩
    cases (hcur.running hrep).2 with
    | recal _ _ hin => exact hin
    | read h => rw [hdo] at h; cases h
    | write h => rw [hdo] at h; cases h
  | error hdo ht =>
    obtain ⟨r, q, hq, -⟩ := badRwIntr_ok ht
    have hq : s.queue = r :: q := hq
    refine h.badRwIntr (t := { s with doHd := none }) hq ?_ rfl rfl ht rfl rfl rfl
    refine (hok r ?_).resolve_left ?_
    · rw [hq]
      rfl
    · rw [hdo]
      simp
  | @reads r q hdo hq hn =>
    obtain ⟨hcur, -⟩ := h.queue r q hq
    obtain ⟨n, hdone⟩ := hcur.done
    have hr : r.Sized := hsized r (hq ▸ List.mem_cons_self)
    have hrun := (hcur.running hrep).2
    have ho := hrun.onSector (by rw [hdo]; decide)
    have hcmd := hrun.read_cmd hdo
    have hts := hdone.transfers_succ ho
    rw [hcmd] at hts
    refine h.sector hq hrep rfl rfl hrep ⟨n + 1, hdone.read hr hts⟩ (Nat.zero_le _) Iff.rfl
      (.read rfl hcmd ?_)
    exact ho.next rfl rfl rfl hr.sector_succ
  | @writes r q hdo hq hn =>
    obtain ⟨hcur, -⟩ := h.queue r q hq
    obtain ⟨n, hdone⟩ := hcur.done
    have hr : r.Sized := hsized r (hq ▸ List.mem_cons_self)
    have hrun := (hcur.running hrep).2
    have ho := hrun.onSector (by rw [hdo]; decide)
    obtain ⟨hcmd, hdata⟩ := hrun.write_cmd hdo
    have hts := hdone.transfers_succ ho
    rw [hcmd, ← hdata] at hts
    refine h.sector hq hrep rfl rfl hrep ⟨n + 1, hdone.wrote hr hts⟩ hcur.errors Iff.rfl
      (.write rfl hcmd ?_ rfl)
    exact ho.next rfl rfl rfl hr.sector_succ
  | @read r q hdo hq hn =>
    obtain ⟨hcur, -⟩ := h.queue r q hq
    have hrun := (hcur.running hrep).2
    have ho := hrun.onSector (by rw [hdo]; decide)
    refine h.complete hq (x := (r.read (s.transfer d .read r.buffer), true))
      (fun _ => hcur.served hn ho ?_ rfl) rfl rfl rfl
    rw [hrun.read_cmd hdo]
    rfl
  | @wrote r q hdo hq hn =>
    obtain ⟨hcur, -⟩ := h.queue r q hq
    have hrun := (hcur.running hrep).2
    have ho := hrun.onSector (by rw [hdo]; decide)
    obtain ⟨hcmd, hdata⟩ := hrun.write_cmd hdo
    refine h.complete hq (x := (r.wrote (s.transfer d .write s.data), true))
      (fun _ => hcur.served hn ho ?_ rfl) rfl rfl rfl
    rw [hcmd, ← hdata]
    rfl

/-- `make_request`. -/
theorem Serving.add {minor : Byte} {cmd : Cmd} {block buffer : Word} {k : ℕ} (h : Serving d s) :
    Serving d (s.add minor cmd block buffer k) := by
  have hmade : (s.made minor cmd block buffer).Fresh d := made_fresh
  obtain ⟨queue, reset, recalibrate, doHd, atRepeat, regs, moved, data, added, ended, decided⟩ := s
  cases queue with
  | nil =>
    refine serving_atRepeat rfl (fun r q hq => ?_) h.ended
    obtain ⟨rfl, rfl⟩ := List.cons.inj hq
    exact ⟨⟨⟨0, hmade.done⟩, hmade.errors, fun ha => .inl (hmade.inside ha)⟩, fun c hc => by cases hc⟩
  | cons c q =>
    obtain ⟨hcur, hfresh⟩ := h.queue c q rfl
    refine ⟨fun r₁ q₁ hq₁ => ?_, h.ended⟩
    obtain ⟨rfl, rfl⟩ := List.cons.inj hq₁
    refine ⟨⟨hcur.done, hcur.errors, hcur.atRepeat, fun hf => ?_⟩, fun r hr => ?_⟩
    · obtain ⟨ha, hrun⟩ := hcur.running hf
      refine ⟨ha, ?_⟩
      cases hrun with
      | recal h1 h2 h3 => exact .recal h1 h2 h3
      | read h1 h2 h3 => exact .read h1 h2 h3
      | write h1 h2 h3 h4 => exact .write h1 h2 h3 h4
    · rcases List.mem_append.1 hr with hr | hr
      · exact hfresh r (List.mem_of_mem_take hr)
      · rcases List.mem_cons.1 hr with rfl | hr
        · exact hmade
        · exact hfresh r (List.mem_of_mem_drop hr)

theorem Serving.next (hd : d.Valid) (h : Serving d s) (hsized : ∀ r ∈ s.queue, r.Sized)
    (hok : s.Retries d e) (hs : s.next d e = some (.ok s')) : Serving d s' := by
  obtain ⟨minor, cmd, block, buffer, k, rfl, -, hx⟩ | ⟨ready, drq, rfl, hrep, hx⟩ |
    ⟨ok, rfl, hrep, hx⟩ := State.next_cases hs
  · cases hx
    exact h.add
  · exact h.turn hd hsized hrep hx
  · exact h.interrupt hsized hrep hok hx

end Steps

/-! ## The driver gets through -/

/-- What is left to be done, by turns and interrupts, before the next sector or the next error. -/
def State.phase (s : State) : ℕ :=
  if s.atRepeat then
    if s.reset.isSome then 6 else if s.recalibrate.isSome then 4 else 2
  else if s.doHd = some .recal then
    if s.recalibrate.isSome then 5 else 3
  else 1

/-- A bound for the steps of the driver for `CURRENT`. -/
def State.work (s : State) : ℕ :=
  match s.queue with
  | [] => 0
  | r :: _ => r.nrSectors.toNat * 56 + (maxErrors - r.errors) * 7 + s.phase

/-- The steps of the driver are counted. -/
def Event.count : Event → ℕ
  | .add .. => 0
  | .turn .. => 1
  | .interrupt _ => 1

def count (es : List Event) : ℕ := (es.map Event.count).sum

/-- What was asked for. -/
def Request.order (r : Request) : ℕ × BitVec 16 × Cmd × Word × Word :=
  (r.id, r.dev, r.cmd, r.account.sector, r.account.buffer)

/-- The controller reports an error for `CURRENT`: no request for the data to be written, or a bad
result. -/
def State.Errs (d : Disks) (s : State) : Event → Prop
  | .add .. => False
  | .turn _ drq => drq = false ∧ s.reset = none ∧ s.recalibrate = none ∧
      ∃ r q, s.queue = r :: q ∧ r.Inside d ∧ r.cmd = .write
  | .interrupt ok => ok = false ∧ s.doHd ≠ none

/-- One more error at most, and only if the controller reports one. -/
def State.Counts (d : Disks) (s : State) (e : Event) (r r' : Request) : Prop :=
  r'.account.errors ≤ r.account.errors ∨
    s.Errs d e ∧ r'.account.errors = r.account.errors + 1

/-- A step completes `CURRENT`, or brings it nearer to that. -/
inductive Progress (d : Disks) (s : State) (r : Request) (e : Event) (s' : State) : Prop
  | ends (x : Request × Bool) : x.1.order = r.order → s.Counts d e r x.1 →
      s'.ended = s.ended ++ [x] → Progress d s r e s'
  | goesOn (r' : Request) (q : List Request) : s'.queue = r' :: q → r'.order = r.order →
      s.Counts d e r r' → s'.ended = s.ended → s'.work + e.count ≤ s.work → Progress d s r e s'

section Work

variable {d : Disks} {s s' s'' t : State} {r r' : Request} {q q' : List Request} {e : Event}

theorem State.phase_pos (s : State) : 1 ≤ s.phase := by
  unfold State.phase
  split_ifs <;> decide

theorem State.phase_le (s : State) : s.phase ≤ 6 := by
  unfold State.phase
  split_ifs <;> decide

theorem work_eq (hq : s.queue = r :: q) :
    s.work = r.nrSectors.toNat * 56 + (maxErrors - r.errors) * 7 + s.phase := by
  unfold State.work
  rw [hq]

/-- A command, or its end. -/
theorem Progress.phase (hq : s.queue = r :: q) (hq' : s'.queue = r :: q) (he : s'.ended = s.ended)
    (hp : s'.phase + e.count ≤ s.phase) : Progress d s r e s' := by
  refine .goesOn r q hq' rfl (.inl le_rfl) he ?_
  rw [work_eq hq, work_eq hq']
  omega

theorem Progress.badRwIntr (he : e.count = 1) (herr : s.Errs d e) (hq : s.queue = r :: q)
    (ht : t.queue = s.queue) (hte : t.ended = s.ended) (hs : t.badRwIntr = .ok s')
    (hqq : s''.queue = s'.queue) (hee : s''.ended = s'.ended) : Progress d s r e s'' := by
  obtain ⟨r', q', hq', hcase⟩ := badRwIntr_ok hs
  obtain ⟨rfl, rfl⟩ : r' = r ∧ q' = q := by
    rw [ht, hq] at hq'
    obtain ⟨rfl, rfl⟩ := List.cons.inj hq'
    exact ⟨rfl, rfl⟩
  obtain ⟨hmax, rfl⟩ | ⟨-, c, q₁, rfl, rfl⟩ := hcase
  · refine .goesOn r'.fail q' hqq rfl (.inr ⟨herr, rfl⟩) (hee.trans hte) ?_
    rw [work_eq hq, work_eq hqq, he]
    have hpos := s.phase_pos
    have hle := s''.phase_le
    change r'.nrSectors.toNat * 56 + (maxErrors - (r'.errors + 1)) * 7 + s''.phase + 1 ≤ _
    omega
  · exact .ends (r'.fail, false) rfl (.inr ⟨herr, rfl⟩) (hee.trans (by rw [hte]))

theorem progress_turn {ready drq : Bool} (hd : d.Valid) (hsized : ∀ r ∈ s.queue, r.Sized)
    (hrep : s.atRepeat = true) (hq : s.queue = r :: q) (hs : s.doHdRequest d ready drq = .ok s') :
    Progress d s r (.turn ready drq) s' := by
  obtain ⟨hq', rfl⟩ | ⟨r', q', hq', ⟨hout, rfl⟩ | ⟨hin, hi⟩⟩ := turn_ok hd hsized hs
  · rw [hq] at hq'
    cases hq'
  all_goals obtain ⟨rfl, rfl⟩ := List.cons.inj (hq.symm.trans hq')
  · exact .ends (r, false) rfl (.inl le_rfl) rfl
  · obtain ⟨o, ho⟩ : ∃ o, o = Except.ok (ε := Fault) s' := ⟨_, rfl⟩
    rw [← ho] at hi
    cases hi with
    | notReady => cases ho
    | resets g c _ hreset =>
      cases ho
      refine .phase hq hq rfl ?_
      simp [State.phase, State.commanded, State.decideFor, Event.count, hrep, hreset]
    | recalibrates g c _ hreset hrecal =>
      cases ho
      refine .phase hq hq rfl ?_
      simp [State.phase, State.commanded, State.decideFor, Event.count, hrep, hreset, hrecal]
    | reads g _ hreset hrecal =>
      cases ho
      refine .phase hq hq rfl ?_
      simp [State.phase, State.commanded, Event.count, hrep, hreset, hrecal]
    | writes g _ hreset hrecal =>
      cases ho
      refine .phase hq hq rfl ?_
      simp [State.phase, State.commanded, Event.count, hrep, hreset, hrecal]
    | refuses g _ hreset hrecal hcmd _ hdrq =>
      exact .badRwIntr (t := s.commanded g .write) rfl ⟨hdrq, hreset, hrecal, r, q, hq, hin, hcmd⟩ hq
        rfl rfl ho rfl rfl

theorem progress_interrupt {ok : Bool} (h : Serving d s) (hsized : ∀ r ∈ s.queue, r.Sized)
    (hrep : s.atRepeat = false) (hq : s.queue = r :: q) (hs : s.interrupt d ok = .ok s') :
    Progress d s r (.interrupt ok) s' := by
  have hrun := ((h.queue r q hq).1.running hrep).2
  have hr : r.Sized := hsized r (hq ▸ List.mem_cons_self)
  have hpred := hr.pred
  cases interrupt_ok hs with
  | unexpected hdo =>
    cases hrun with
    | recal h => rw [hdo] at h; cases h
    | read h => rw [hdo] at h; cases h
    | write h => rw [hdo] at h; cases h
  | recal hdo =>
    refine .phase hq hq rfl ?_
    cases hrun with
    | recal _ hreset =>
      simp only [State.phase, Event.count, hrep, hreset, hdo]
      cases s.recalibrate <;> simp
    | read h => rw [hdo] at h; cases h
    | write h => rw [hdo] at h; cases h
  | error hdo ht =>
    exact .badRwIntr (t := { s with doHd := none }) rfl ⟨rfl, by rw [hdo]; exact Option.some_ne_none _⟩
      hq rfl rfl ht rfl rfl
  | reads hdo hq' hn =>
    obtain ⟨rfl, rfl⟩ := List.cons.inj (hq.symm.trans hq')
    refine .goesOn _ _ rfl rfl (.inl le_rfl) rfl ?_
    rw [work_eq hq, work_eq (q := q) rfl]
    have hp := s.phase_pos
    have hp' : ({ s with
        doHd := some .read
        queue := r.read (s.transfer d .read r.buffer) :: q
        moved := s.moved + 1 } : State).phase = 1 := by
      simp [State.phase, hrep]
    rw [hp']
    change (r.nrSectors - 1).toNat * 56 + (maxErrors - 0) * 7 + 1 + 1 ≤ _
    have : maxErrors = 7 := rfl
    omega
  | writes hdo hq' hn =>
    obtain ⟨rfl, rfl⟩ := List.cons.inj (hq.symm.trans hq')
    refine .goesOn _ _ rfl rfl (.inl le_rfl) rfl ?_
    rw [work_eq hq, work_eq (q := q) rfl]
    have hp := s.phase_pos
    have hp' : ({ s with
        doHd := some .write
        queue := (r.wrote (s.transfer d .write s.data)).forth :: q
        moved := s.moved + 1
        data := r.buffer + 512 } : State).phase = 1 := by
      simp [State.phase, hrep]
    rw [hp']
    change (r.nrSectors - 1).toNat * 56 + (maxErrors - r.errors) * 7 + 1 + 1 ≤ _
    omega
  | read hdo hq' =>
    obtain ⟨rfl, rfl⟩ := List.cons.inj (hq.symm.trans hq')
    exact .ends (r.read (s.transfer d .read r.buffer), true) rfl (.inl le_rfl) rfl
  | wrote hdo hq' =>
    obtain ⟨rfl, rfl⟩ := List.cons.inj (hq.symm.trans hq')
    exact .ends (r.wrote (s.transfer d .write s.data), true) rfl (.inl le_rfl) rfl

/-- A new request leaves `CURRENT` as it is. -/
theorem progress_add {minor : Byte} {cmd : Cmd} {block buffer : Word} {k : ℕ}
    (hq : s.queue = r :: q) :
    Progress d s r (.add minor cmd block buffer k) (s.add minor cmd block buffer k) := by
  obtain ⟨queue, reset, recalibrate, doHd, atRepeat, regs, moved, data, added, ended, decided⟩ := s
  cases hq
  exact .goesOn r _ rfl rfl (.inl le_rfl) rfl le_rfl

theorem progress_next (hd : d.Valid) (h : Serving d s) (hsized : ∀ r ∈ s.queue, r.Sized)
    (hq : s.queue = r :: q) (hs : s.next d e = some (.ok s')) :
    Progress d s r e s' := by
  obtain ⟨minor, cmd, block, buffer, k, rfl, -, hx⟩ | ⟨ready, drq, rfl, hrep, hx⟩ |
    ⟨ok, rfl, hrep, hx⟩ := State.next_cases hs
  · cases hx
    exact progress_add hq
  · exact progress_turn hd hsized hrep hq hx
  · exact progress_interrupt h hsized hrep hq hx

/-! ### It never stops -/

theorem badRwIntr_isOk (hq : s.queue = r :: q) (he : r.errors + 1 < maxErrors) :
    ∃ t, s.badRwIntr = .ok t := by
  have hne : ¬maxErrors ≤ r.fail.errors := not_le.2 he
  refine ⟨if maxErrors / 2 < r.fail.errors then
    { s with queue := r.fail :: q, reset := some (.errors r.id) }
    else { s with queue := r.fail :: q }, ?_⟩
  unfold State.badRwIntr
  rw [hq]
  dsimp only
  rw [if_neg hne]
  rfl

theorem turn_isOk {drq : Bool} (hd : d.Valid) (hr : r.Sized) (hq : s.queue = r :: q)
    (he : s.Errs d (.turn true drq) → r.errors + 1 < maxErrors) :
    ∃ s', s.doHdRequest d true drq = .ok s' := by
  by_cases hin : r.Inside d
  · have hi := doHdRequest_issues true drq hd hr hq hin
    obtain ⟨o, ho⟩ : ∃ o, o = s.doHdRequest d true drq := ⟨_, rfl⟩
    rw [← ho] at hi ⊢
    cases hi with
    | notReady h => cases h
    | resets => exact ⟨_, rfl⟩
    | recalibrates => exact ⟨_, rfl⟩
    | reads => exact ⟨_, rfl⟩
    | writes => exact ⟨_, rfl⟩
    | refuses g _ hreset hrecal hcmd _ hdrq =>
      exact badRwIntr_isOk (s := s.commanded g .write) hq
        (he ⟨hdrq, hreset, hrecal, r, q, hq, hin, hcmd⟩)
  · rw [doHdRequest_rejects hr hq hin]
    unfold State.endRequest
    rw [hq]
    exact ⟨_, rfl⟩

theorem interrupt_isOk {ok : Bool} (hq : s.queue = r :: q)
    (he : s.Errs d (.interrupt ok) → r.errors + 1 < maxErrors) : ∃ s', s.interrupt d ok = .ok s' := by
  obtain ⟨queue, reset, recalibrate, doHd, atRepeat, regs, moved, data, added, ended, decided⟩ := s
  cases hq
  cases doHd with
  | none => exact ⟨_, rfl⟩
  | some h =>
    cases ok with
    | false =>
      obtain ⟨t, ht⟩ := badRwIntr_isOk (s := ⟨r :: q, reset, recalibrate, none, atRepeat, regs, moved,
        data, added, ended, decided⟩) rfl (he ⟨rfl, Option.some_ne_none _⟩)
      refine ⟨{ t with atRepeat := true }, ?_⟩
      cases h
      all_goals
        simp only [State.interrupt, State.readIntr, State.writeIntr, State.recalIntr]
        rw [ht]
        rfl
    | true =>
      cases h with
      | recal => exact ⟨_, rfl⟩
      | read =>
        unfold State.interrupt State.readIntr
        dsimp only [Bool.not_true]
        rw [if_neg (by decide)]
        split
        · exact ⟨_, rfl⟩
        · exact ⟨_, rfl⟩
      | write =>
        unfold State.interrupt State.writeIntr
        dsimp only [Bool.not_true]
        rw [if_neg (by decide)]
        split
        · exact ⟨_, rfl⟩
        · exact ⟨_, rfl⟩

/-- The controller is ready for commands. -/
def Event.Ready : Event → Prop
  | .turn ready _ => ready = true
  | _ => True

/-- Every step of the driver succeeds, if its error is not the last one. -/
theorem next_isOk {x : Except Fault State} (hd : d.Valid) (hr : r.Sized) (hq : s.queue = r :: q)
    (hready : e.Ready) (he : s.Errs d e → r.errors + 1 < maxErrors) (hx : s.next d e = some x) :
    ∃ s', x = .ok s' := by
  obtain ⟨minor, cmd, block, buffer, k, rfl, -, rfl⟩ | ⟨ready, drq, rfl, -, rfl⟩ |
    ⟨ok, rfl, -, rfl⟩ := State.next_cases hx
  · exact ⟨_, rfl⟩
  · obtain rfl : ready = true := hready
    exact turn_isOk hd hr hq he
  · exact interrupt_isOk hq he

end Work

/-! ## Runs -/

/-- The condition on a step. -/
def State.Allowed (d : Disks) (s : State) (e : Event) : Prop := s.Small e ∧ s.Retries d e

instance (d : Disks) (s : State) (e : Event) : Decidable (s.Retries d e) := by
  unfold State.Retries
  split <;> infer_instance

instance (d : Disks) (s : State) (e : Event) : Decidable (s.Allowed d e) :=
  inferInstanceAs (Decidable (_ ∧ _))

section Runs

variable {d : Disks} {s s' : State} {r : Request} {q : List Request} {e : Event}

theorem serving_boot : Serving d .boot :=
  ⟨fun _ _ hq => (by cases hq), fun _ hx => (by cases hx)⟩

theorem reachable_serving (hd : d.Valid) (h : (disk d).ReachableWhen (State.Allowed d) s) :
    (∀ r ∈ s.queue, r.Sized) ∧ Serving d s := by
  refine h.invariant (I := fun s => (∀ r ∈ s.queue, r.Sized) ∧ Serving d s) ?_ ?_
  · rintro s rfl
    exact ⟨fun r hr => (by cases hr), serving_boot⟩
  · rintro s e s' ⟨hsized, hI⟩ hok hs
    exact ⟨sized_next hd hsized hok.1 hs, hI.next hd hsized hok.2 hs⟩

/-- The step can be made: `CURRENT` gets an error only if it is not its last, and the controller is
ready. -/
def State.Tolerates (d : Disks) (s : State) (e : Event) : Prop :=
  s.Allowed d e ∧ e.Ready ∧ (∃ x, s.next d e = some x) ∧
    (s.Errs d e → ∀ r ∈ s.queue.head?, r.account.errors + 1 < maxErrors)

/-- So can all steps of a run until a request is completed. -/
def State.Spares (d : Disks) : State → List Event → Prop
  | _, [] => True
  | s, e :: es => s.Tolerates d e ∧
      ∀ s', s.next d e = some (.ok s') → s'.ended = s.ended → s'.Spares d es

/-- By induction on the run: each step of the driver takes from its work for `CURRENT`. -/
theorem run_completes (hd : d.Valid) {es : List Event} : ∀ {s : State} {r : Request}
    {q : List Request}, (∀ r ∈ s.queue, r.Sized) → Serving d s → s.queue = r :: q →
    r.account.errors < maxErrors → s.Spares d es → s.work ≤ count es →
    ∃ l₁ l₂ s' x, es = l₁ ++ l₂ ∧ System.execWhen (State.go d) (State.Allowed d) s l₁ = some s' ∧
      s'.ended = s.ended ++ [x] ∧ x.1.order = r.order ∧ x.1.account.errors < maxErrors ∧
        (x.1.Asked d → Served d x) := by
  induction es with
  | nil =>
    intro s r q _ _ hq _ _ hw
    rw [work_eq hq] at hw
    have hp := s.phase_pos
    change _ ≤ 0 at hw
    omega
  | cons e es ih =>
    intro s r q hsized h hq herr hsp hw
    obtain ⟨⟨hok, hready, ⟨x, hx⟩, hlast⟩, hsp⟩ := hsp
    have hlast := fun he => hlast he r (by rw [hq]; rfl)
    have hcur := (h.queue r q hq).1.errors
    obtain ⟨t, rfl⟩ := next_isOk hd (hsized r (hq ▸ List.mem_cons_self)) hq hready
      (fun he => (Nat.succ_le_succ hcur).trans_lt (hlast he)) hx
    have hgo : s.go d e = some t := by
      unfold State.go
      rw [hx]
    have hrun : ∀ l, System.execWhen (State.go d) (State.Allowed d) s (e :: l) =
        System.execWhen (State.go d) (State.Allowed d) t l := fun l => by
      rw [System.execWhen, if_pos hok, hgo]
      rfl
    have hsized' := sized_next hd hsized hok.1 hx
    have h' := h.next hd hsized hok.2 hx
    have hbound : ∀ r', s.Counts d e r r' → r'.account.errors < maxErrors := by
      rintro r' (hle | ⟨he, heq⟩)
      · omega
      · have := hlast he
        omega
    cases progress_next hd h hsized hq hx with
    | ends x ho hc he =>
      have hxe : x ∈ t.ended := he ▸ List.mem_append_right _ (List.mem_singleton.2 rfl)
      exact ⟨[e], es, t, x, rfl, hrun [], he, ho, hbound _ hc, h'.ended x hxe⟩
    | goesOn r' q' hq' ho hc he hwork =>
      have hcount : count (e :: es) = e.count + count es := rfl
      obtain ⟨l₁, l₂, s', x, rfl, hs', hxe, hxo, hres⟩ :=
        ih hsized' h' hq' (hbound _ hc) (hsp t hx he) (by omega)
      exact ⟨e :: l₁, l₂, s', x, rfl, (hrun l₁).trans hs', by rw [hxe, he], hxo.trans ho, hres⟩

theorem work_le (hsized : ∀ r ∈ s.queue, r.Sized) : s.work ≤ 167 := by
  cases hq : s.queue with
  | nil =>
    unfold State.work
    rw [hq]
    exact Nat.zero_le _
  | cons r q =>
    have hr : r.Sized := hsized r (hq ▸ List.mem_cons_self)
    have h1 := hr.toNat_le
    have h2 := s.phase_le
    have h3 : maxErrors = 7 := rfl
    rw [work_eq hq]
    omega

end Runs

/-- **Retries.** In every run in which no second half of a last block is tried again: a request within
its partition is completed after both its sectors were transferred as they should, or after as many
errors as are allowed. A step fails only at the last error that is allowed. In every run from there in
which `CURRENT` gets fewer errors, 167 steps of the driver complete it, with its sectors transferred. -/
theorem requests_retried {d : Disks} {s : State} (hd : d.Valid)
    (h : (disk d).ReachableWhen (State.Allowed d) s) :
    (∀ x ∈ s.ended, x.1.Asked d → Served d x) ∧
      ∀ r q, s.queue = r :: q →
        (∀ e x, e.Ready → (s.Errs d e → r.account.errors + 1 < maxErrors) → s.next d e = some x →
          ∃ s', x = .ok s') ∧
        ∀ es, r.account.errors < maxErrors → s.Spares d es → 167 ≤ count es →
          ∃ l₁ l₂ s' x, es = l₁ ++ l₂ ∧
            System.execWhen (State.go d) (State.Allowed d) s l₁ = some s' ∧
            s'.ended = s.ended ++ [x] ∧ x.1.order = r.order ∧
              (x.1.Asked d → x.2 = true ∧ x.1.account.transfers = x.1.halves d 2) := by
  obtain ⟨hsized, hI⟩ := reachable_serving hd h
  refine ⟨hI.ended, fun r q hq => ⟨fun e x hready he hx => ?_, fun es herr hsp hc => ?_⟩⟩
  · have hr : r.Sized := hsized r (hq ▸ List.mem_cons_self)
    have hcur := (hI.queue r q hq).1.errors
    exact next_isOk hd hr hq hready (fun h => (Nat.succ_le_succ hcur).trans_lt (he h)) hx
  · obtain ⟨l₁, l₂, s', x, hl, hs', hxe, hxo, hlt, hserved⟩ :=
      run_completes hd hsized hI hq herr hsp ((work_le hsized).trans hc)
    refine ⟨l₁, l₂, s', x, hl, hs', hxe, hxo, fun hasked => ?_⟩
    obtain ⟨htrue, hfalse⟩ := hserved hasked
    have hx2 : x.2 = true := by
      by_contra hne
      exact absurd (hfalse (eq_false_of_ne_true hne)) (not_le.2 hlt)
    exact ⟨hx2, htrue hx2⟩

/-- A read of block `block` of the small partition; the controller is reset, recalibrates, reads a
sector and reports an error. -/
def errorAtSecond (block : Word) : List Event :=
  [.add 1 .read block 0x1000 0, .turn true true, .interrupt true, .turn true true, .interrupt true,
    .turn true true, .interrupt true, .interrupt false]

/-- A read with six errors; from the fourth on the disk is reset and recalibrates after each. -/
def sixRetries : List Event :=
  .add 1 .read 0 0x1000 0 :: (List.replicate 2 [.turn true true, .interrupt true]).flatten ++
    (List.replicate 3 [.turn true true, .interrupt false]).flatten ++
    (List.replicate 3 ([.turn true true, .interrupt false] ++
      (List.replicate 2 [.turn true true, .interrupt true]).flatten)).flatten ++
    [.turn true true, .interrupt true, .interrupt true]

/-- The first block is read again from its second sector on, and after six errors. -/
theorem requests_retried_first :
    (∃ s, (disk smallDisk).ReachableWhen (State.Allowed smallDisk) s ∧
      s.ended.map (fun x => (x.2, x.1.account.errors)) = [(true, 1)] ∧
      ∀ x ∈ s.ended, x.1.Asked smallDisk → Served smallDisk x) ∧
    ∃ s, (disk smallDisk).ReachableWhen (State.Allowed smallDisk) s ∧
      s.ended.map (fun x => (x.2, x.1.account.errors)) = [(true, 6)] ∧
      ∀ x ∈ s.ended, x.1.Asked smallDisk → Served smallDisk x := by
  constructor
  · have hrun : (System.execWhen (State.go smallDisk) (State.Allowed smallDisk) .boot
        (errorAtSecond 0 ++ [.turn true true, .interrupt true])).any
        (fun s => decide (s.ended.map (fun x => (x.2, x.1.account.errors)) = [(true, 1)])) = true := by
      decide +kernel
    obtain ⟨s, hs, he⟩ := exec_any hrun
    exact ⟨s, hs, of_decide_eq_true he, (requests_retried smallDisk_valid hs).1⟩
  · have hrun : (System.execWhen (State.go smallDisk) (State.Allowed smallDisk) .boot sixRetries).any
        (fun s => decide (s.ended.map (fun x => (x.2, x.1.account.errors)) = [(true, 6)])) = true := by
      decide +kernel
    obtain ⟨s, hs, he⟩ := exec_any hrun
    exact ⟨s, hs, of_decide_eq_true he, (requests_retried smallDisk_valid hs).1⟩

/-- The last block lies within the partition, and is given up at its first error. -/
theorem request_rejected : ∃ s, (disk smallDisk).ReachableWhen State.Small s ∧
    ∃ x ∈ s.ended, x.1.Asked smallDisk ∧ x.1.account.errors = 1 ∧ ¬Served smallDisk x := by
  have hrun : (System.execWhen (State.go smallDisk) State.Small .boot
      (errorAtSecond 3 ++ [.turn true true])).any
      (fun s => decide (∃ x ∈ s.ended, (x.1.minor = 1 ∧ x.1.account.sector = 6) ∧
        x.1.account.errors = 1 ∧ x.2 = false)) = true := by
    decide +kernel
  obtain ⟨s, hs, he⟩ := exec_any hrun
  obtain ⟨x, hx, ⟨hm, hsec⟩, herr, hb⟩ := of_decide_eq_true he
  refine ⟨s, hs, x, hx, ⟨?_, ?_⟩, herr, fun h => ?_⟩
  · rw [hm]
    decide
  · rw [hm, hsec]
    decide
  · have := h.2 hb
    rw [herr] at this
    exact absurd this (by decide)

end Linux011.Hd
