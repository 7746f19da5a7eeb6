import Linux011.Mm.Reach
import Mathlib.Data.List.Find

/-!
# Copy-on-write is invisible

1. `cow`: processes fork, read and write bytes of anonymous pages, and exit, with the page faults
   that this takes. A run ends where an operation does not apply or memory runs out.
2. `eager`: the same operations where every process has its own bytes and a fork copies them all.
3. `Rel`: what a page-table entry shows is what the process has there; the operations keep it
   (`cow_simulation`), and so the bytes read are the same in all runs (`cow_invisible`).
-/

namespace Linux011.Mm

open State

/-! ## Bytes -/

/-- Byte `k` of a page. -/
def byteOf (c : ℕ → Word) (k : ℕ) : BitVec 8 := (c (k / 4) >>> (8 * (k % 4))).setWidth 8

/-- Word `w` with byte `k` changed. -/
def setByte (w : Word) (k : ℕ) (b : BitVec 8) : Word :=
  w &&& ~~~(0xff#32 <<< (8 * k)) ||| b.setWidth 32 <<< (8 * k)

theorem getLsbD_ff (x : ℕ) : (0xff#32).getLsbD x = decide (x < 8) := by
  by_cases h : x < 32
  · interval_cases x <;> rfl
  · rw [BitVec.getLsbD_of_ge _ _ (by omega)]
    simp; omega

theorem setByte_byte {w : Word} {j k : ℕ} (b : BitVec 8) (hj : j < 4) (hk : k < 4) :
    (setByte w k b >>> (8 * j)).setWidth 8 =
      if j = k then b else (w >>> (8 * j)).setWidth 8 := by
  ext i hi
  have hn : 8 * j + i < 32 := by omega
  unfold setByte
  simp only [BitVec.getElem_setWidth, BitVec.getLsbD_ushiftRight, BitVec.getLsbD_or,
    BitVec.getLsbD_and, BitVec.getLsbD_not, BitVec.getLsbD_shiftLeft, getLsbD_ff, hn]
  split_ifs with hjk
  · subst hjk
    have h1 : 8 * j + i - 8 * j = i := by omega
    have h2 : ¬ 8 * j + i < 8 * j := by omega
    simp [h1, h2, hi, show i < 32 by omega]
  · simp only [BitVec.getElem_setWidth, BitVec.getLsbD_ushiftRight]
    by_cases hlt : 8 * j + i < 8 * k
    · simp [hlt]
    · have h1 : ¬ 8 * j + i - 8 * k < 8 := by omega
      have h2 : b.getLsbD (8 * j + i - 8 * k) = false := BitVec.getLsbD_of_ge _ _ (by omega)
      simp [hlt, h1, h2]

/-- A page after a store of one byte. -/
theorem byteOf_update (c : ℕ → Word) (k j : ℕ) (b : BitVec 8) :
    byteOf (Function.update c (k / 4) (setByte (c (k / 4)) (k % 4) b)) j =
      if j = k then b else byteOf c j := by
  unfold byteOf
  by_cases hw : j / 4 = k / 4
  · rw [hw, Function.update_self, setByte_byte b (Nat.mod_lt _ (by decide)) (Nat.mod_lt _ (by decide))]
    by_cases hjk : j = k
    · rw [if_pos hjk, if_pos (by rw [hjk])]
    · rw [if_neg hjk, if_neg (by omega)]
  · rw [Function.update_of_ne hw, if_neg]
    rintro rfl
    exact hw rfl

theorem byteOf_zero (k : ℕ) : byteOf (fun _ => 0) k = 0 := by
  unfold byteOf
  simp

/-! ## The two machines -/

/-- What processes do. -/
inductive UserOp
  | fork (nr : ℕ)
  | read (nr offset : ℕ)
  | write (nr offset : ℕ) (b : BitVec 8)
  | exit (nr : ℕ)

/-- What they see of it: nothing, no free slot, the slot of the child, the byte read. The kernel
may also panic. -/
inductive Out
  | done
  | again
  | child (c : ℕ)
  | byte (b : BitVec 8)
  | panic
  deriving DecidableEq

namespace State

/-- A process, not task 0, that can run. -/
def user (s : State) (nr : ℕ) : Option Task :=
  match s.task nr with
  | none => none
  | some t => if 1 ≤ nr ∧ nr < 64 ∧ t.zombie = false ∧ t.loading.isNone then some t else none

/-- The page at `offset` is anonymous: `do_no_page` would not load it from the executable, and it is
not one of the kernel's that the first process has from task 0. -/
def anonymous (s : State) (t : Task) (nr offset : ℕ) : Bool :=
  if present (s.entryAt (startCode nr + offset)) then
    decide (lowPages ≤ pageOf (s.entryAt (startCode nr + offset)))
  else t.executable.isNone || decide (t.endData ≤ offset / 4096 * 4096)

/-- The fault of an access through an absent entry. -/
def faultIn (m : Mem) (address : ℕ) : Except Stop Mem :=
  if present (pte m (dirIndex address) (tblIndex address)) then .ok m
  else getEmptyPage m (address / 4096 * 4096)

/-- The fault of a write through a protected entry. -/
def faultWrite (m : Mem) (address : ℕ) : Except Stop Mem :=
  if writable (pte m (dirIndex address) (tblIndex address)) then .ok m else doWpPage m address

/-- Word `j` of the page at a linear address. -/
def peek (s : State) (address j : ℕ) : Word := s.mem.phys (pageOf (s.entryAt address)) j

/-- The access itself, when the page is there. -/
def finish (s : State) (r : Except Stop Mem) (k : State → State × Out) : Option (State × Out) :=
  match r with
  | .error (.noMemory _) => none
  | .error (.panic _) => some (s, .panic)
  | .ok m => some (k { s with mem := m })

def cowFork (s : State) (nr : ℕ) : Option (State × Out) :=
  match s.fork nr, s.findEmptyProcess with
  | .error _, _ => some (s, .panic)
  | .ok s', none => some (s', .again)
  | .ok s', some c => if (s'.task c).isSome then some (s', .child c) else none

def cowRead (s : State) (nr offset : ℕ) : Option (State × Out) :=
  let a := startCode nr + offset
  s.finish (faultIn s.mem a) fun s =>
    (s.access a none, .byte (byteOf (s.peek a) (offset % 4096)))

def cowWrite (s : State) (nr offset : ℕ) (b : BitVec 8) : Option (State × Out) :=
  let a := startCode nr + offset
  let j := offset % 4096 / 4
  s.finish (faultIn s.mem a >>= fun m => faultWrite m a) fun s =>
    (s.access a (some (j, setByte (s.peek a j) (offset % 4096 % 4) b)), .done)

def cowExit (s : State) (nr : ℕ) : Option (State × Out) :=
  match s.doExit nr with
  | .error _ => some (s, .panic)
  | .ok s' => some (s', .done)

def cowStep (s : State) : UserOp → Option (State × Out)
  | .fork nr => if (s.user nr).isSome then s.cowFork nr else none
  | .read nr offset =>
    match s.user nr with
    | none => none
    | some t => if offset < t.dataLimit ∧ s.anonymous t nr offset then s.cowRead nr offset else none
  | .write nr offset b =>
    match s.user nr with
    | none => none
    | some t => if offset < t.dataLimit ∧ s.anonymous t nr offset then s.cowWrite nr offset b else none
  | .exit nr => if (s.user nr).isSome then s.cowExit nr else none

end State

/-- Fork, access and exit with copy-on-write. -/
def cow : Machine State UserOp Out := ⟨State.cowStep⟩

/-- A process with bytes of its own. -/
structure Proc where
  zombie : Bool
  bytes : ℕ → BitVec 8

/-- A process that has not exited. -/
def live (t : ℕ → Option Proc) (nr : ℕ) : Option Proc := (t nr).filter fun p => !p.zombie

def eagerStep (t : ℕ → Option Proc) : UserOp → Option ((ℕ → Option Proc) × Out)
  | .fork nr =>
    match live t nr, (List.range' 1 63).find? fun c => (t c).isNone with
    | none, _ => none
    | some _, none => some (t, .again)
    | some p, some c => some (Function.update t c (some p), .child c)
  | .read nr offset =>
    match live t nr with
    | none => none
    | some p => some (t, .byte (p.bytes offset))
  | .write nr offset b =>
    match live t nr with
    | none => none
    | some p =>
      some (Function.update t nr (some { p with bytes := Function.update p.bytes offset b }), .done)
  | .exit nr =>
    match live t nr with
    | none => none
    | some p => some (Function.update t nr (some { p with zombie := true }), .done)

/-- The same where fork copies every byte. -/
def eager : Machine (ℕ → Option Proc) UserOp Out := ⟨eagerStep⟩

/-! ## The simulation -/

/-- A page view shows the bytes from `base` on. Nothing is said of the kernel's frames. -/
def Shows (v : PageView) (bytes : ℕ → BitVec 8) (base : ℕ) : Prop :=
  match v with
  | .absent => ∀ k < 4096, bytes (base + k) = 0
  | .low _ => True
  | .page c => ∀ k < 4096, bytes (base + k) = byteOf c k

/-- The relation between the two machines. -/
structure Rel (lo : ℕ) (s : State) (t : ℕ → Option Proc) : Prop where
  inv : Inv lo s
  free : ∀ nr ∈ slots, s.task nr = none → t nr = none
  proc : ∀ nr ∈ slots, ∀ tk, s.task nr = some tk → ∃ p, t nr = some p ∧ p.zombie = tk.zombie ∧
    (tk.zombie = false → ∀ k < 16, ∀ i < 1024,
      Shows (view s.mem (16 * nr + k) i) p.bytes (k * 2 ^ 22 + i * 2 ^ 12))

section Simulation

variable {lo : ℕ} {s s' : State} {t : ℕ → Option Proc} {nr offset : ℕ} {tk : Task} {p : Proc} {o : Out}

theorem Shows.congr {v : PageView} {bytes bytes' : ℕ → BitVec 8} {base : ℕ} (h : Shows v bytes base)
    (hb : ∀ k < 4096, bytes' (base + k) = bytes (base + k)) : Shows v bytes' base := by
  cases v with
  | absent => exact fun k hk => (hb k hk).trans (h k hk)
  | low f => trivial
  | page c => exact fun k hk => (hb k hk).trans (h k hk)

theorem user_eq_some (h : s.user nr = some tk) :
    nr ∈ slots ∧ s.task nr = some tk ∧ tk.zombie = false ∧ tk.loading = none := by
  unfold State.user at h
  cases ht : s.task nr with
  | none => rw [ht] at h; cases h
  | some t' =>
    rw [ht] at h
    simp only at h
    split_ifs at h with hc
    obtain rfl := Option.some.inj h
    exact ⟨mem_slots.2 ⟨hc.1, hc.2.1⟩, rfl, hc.2.2.1, by simpa using hc.2.2.2⟩

/-- A running process and its counterpart. -/
theorem Rel.live (h : Rel lo s t) (hu : s.user nr = some tk) : ∃ p, Mm.live t nr = some p ∧
    t nr = some p ∧ ∀ k < 16, ∀ i < 1024,
      Shows (view s.mem (16 * nr + k) i) p.bytes (k * 2 ^ 22 + i * 2 ^ 12) := by
  obtain ⟨hnr, ht, hz, -⟩ := user_eq_some hu
  obtain ⟨p, hp, hpz, hs⟩ := h.proc nr hnr tk ht
  refine ⟨p, ?_, hp, hs hz⟩
  unfold Mm.live
  rw [hp, Option.filter_some, hpz, hz]
  rfl

/-- Both machines choose the same slot for a child. -/
theorem Rel.find (h : Rel lo s t) :
    ((List.range' 1 63).find? fun c => (t c).isNone) = s.findEmptyProcess := by
  unfold findEmptyProcess
  refine List.find?_congr fun c hc => ?_
  rw [List.mem_range'_1] at hc
  have hc : c ∈ slots := mem_slots.2 (by omega)
  cases ht : s.task c with
  | none =>
    rw [h.free c hc ht]
    rfl
  | some tk =>
    obtain ⟨p, hp, -⟩ := h.proc c hc tk ht
    rw [hp]
    rfl

/-- One page of one process changes, and so do its bytes there. -/
theorem Rel.change (h : Rel lo s t) (hu : s.user nr = some tk) (hp : t nr = some p)
    (ho : offset < tk.dataLimit) {s' : State} (hinv : Inv lo s') (htask : s'.task = s.task)
    (hview : ∀ d ∈ userDirs, ∀ i < 1024,
      ¬ (d = dirIndex (startCode nr + offset) ∧ i = tblIndex (startCode nr + offset)) →
        view s'.mem d i = view s.mem d i)
    {bytes : ℕ → BitVec 8} (hb : ∀ x, x / 4096 ≠ offset / 4096 → bytes x = p.bytes x)
    (hself : Shows (view s'.mem (dirIndex (startCode nr + offset)) (tblIndex (startCode nr + offset)))
      bytes (offset / 4096 * 4096)) :
    Rel lo s' (Function.update t nr (some { p with bytes := bytes })) := by
  obtain ⟨hnr, ht, -, -⟩ := user_eq_some hu
  have hs := mem_slots.1 hnr
  have hlim := (h.inv.limits nr tk ht).2.1
  obtain ⟨hd, -⟩ := dirIndex_offset hs.2 ho hlim
  have hti : tblIndex (startCode nr + offset) = offset / 4096 % 1024 := by
    unfold tblIndex startCode; omega
  refine ⟨hinv, fun c hc hc' => ?_, fun c hc tk' ht' => ?_⟩
  · rw [htask] at hc'
    have hne : c ≠ nr := by rintro rfl; rw [ht] at hc'; cases hc'
    rw [Function.update_of_ne hne]
    exact h.free c hc hc'
  · rw [htask] at ht'
    have hsc := mem_slots.1 hc
    by_cases hne : c = nr
    · subst hne
      obtain ⟨q, hq, hz, hsh⟩ := h.proc c hc tk' ht'
      rw [hp] at hq
      obtain rfl := Option.some.inj hq
      refine ⟨{ p with bytes := bytes }, Function.update_self .., hz, fun hz' k hk i hi => ?_⟩
      by_cases hki : k = offset / 2 ^ 22 ∧ i = offset / 4096 % 1024
      · obtain ⟨rfl, rfl⟩ := hki
        rw [hd, hti] at hself
        rw [show offset / 2 ^ 22 * 2 ^ 22 + offset / 4096 % 1024 * 2 ^ 12 = offset / 4096 * 4096 by
          omega]
        exact hself
      · rw [hview (16 * c + k) (mem_userDirs.2 (by omega)) i hi (by rw [hd, hti]; omega)]
        refine (hsh hz' k hk i hi).congr fun j hj => hb _ ?_
        omega
    · obtain ⟨q, hq, hz, hsh⟩ := h.proc c hc tk' ht'
      refine ⟨q, by rw [Function.update_of_ne hne]; exact hq, hz, fun hz' k hk i hi => ?_⟩
      rw [hview (16 * c + k) (mem_userDirs.2 (by omega)) i hi (by rw [hd]; omega)]
      exact hsh hz' k hk i hi

/-- Memory changes and the bytes of the processes do not. -/
theorem Rel.same (h : Rel lo s t) (hu : s.user nr = some tk) (hp : t nr = some p)
    (ho : offset < tk.dataLimit) {s' : State} (hinv : Inv lo s') (htask : s'.task = s.task)
    (hview : ∀ d ∈ userDirs, ∀ i < 1024,
      ¬ (d = dirIndex (startCode nr + offset) ∧ i = tblIndex (startCode nr + offset)) →
        view s'.mem d i = view s.mem d i)
    (hself : Shows (view s'.mem (dirIndex (startCode nr + offset)) (tblIndex (startCode nr + offset)))
      p.bytes (offset / 4096 * 4096)) : Rel lo s' t := by
  have hr := h.change hu hp ho hinv htask hview (fun _ _ => rfl) hself
  rwa [show some { p with bytes := p.bytes } = t nr from hp.symm, Function.update_eq_self] at hr

/-- What a running process sees at an address. -/
theorem Rel.shows_at (h : Rel lo s t) (hu : s.user nr = some tk) (hp : t nr = some p)
    (ho : offset < tk.dataLimit) :
    dirIndex (startCode nr + offset) ∈ userDirs ∧
      Shows (view s.mem (dirIndex (startCode nr + offset)) (tblIndex (startCode nr + offset)))
        p.bytes (offset / 4096 * 4096) := by
  obtain ⟨hnr, ht, -, -⟩ := user_eq_some hu
  have hs := mem_slots.1 hnr
  have hlim := (h.inv.limits nr tk ht).2.1
  obtain ⟨hd, -⟩ := dirIndex_offset hs.2 ho hlim
  have hti : tblIndex (startCode nr + offset) = offset / 4096 % 1024 := by
    unfold tblIndex startCode; omega
  obtain ⟨q, -, hq, hsh⟩ := h.live hu
  rw [hp] at hq
  obtain rfl := Option.some.inj hq
  have := hsh (offset / 2 ^ 22) (by omega) (offset / 4096 % 1024) (by omega)
  rw [show offset / 2 ^ 22 * 2 ^ 22 + offset / 4096 % 1024 * 2 ^ 12 = offset / 4096 * 4096 by
    omega] at this
  rw [hd, hti]
  exact ⟨mem_userDirs.2 (by omega), this⟩

/-- The entry at an address is present and points to a page of the process. -/
def Mapped (s : State) (address : ℕ) : Prop :=
  present (s.entryAt address) = true ∧ lowPages ≤ pageOf (s.entryAt address)

/-- The view of a mapped entry. -/
theorem Mapped.view_eq {address : ℕ} (h : Mapped s address) :
    view s.mem (dirIndex address) (tblIndex address) =
      .page (s.mem.phys (pageOf (s.entryAt address))) :=
  look_page h.1 h.2

theorem low_le_of_view {address : ℕ} {c : ℕ → Word}
    (h : view s.mem (dirIndex address) (tblIndex address) = .page c) : Mapped s address := by
  unfold view look at h
  split_ifs at h with h1 h2
  exact ⟨h1, by unfold entryAt; omega⟩

/-- The fault through an absent entry maps a zero page, which is what the process had there. -/
theorem Rel.faultIn (h : Rel lo s t) (hu : s.user nr = some tk) (hp : t nr = some p)
    (ho : offset < tk.dataLimit) (han : s.anonymous tk nr offset = true) :
    Post (State.faultIn s.mem (startCode nr + offset))
      (fun m => Rel lo { s with mem := m } t ∧ Mapped { s with mem := m } (startCode nr + offset))
      (fun e => ∃ m, e = .noMemory m) := by
  obtain ⟨hnr, ht, hz, hl⟩ := user_eq_some hu
  have hs := mem_slots.1 hnr
  have hlim := (h.inv.limits nr tk ht).2.1
  obtain ⟨hd, hk⟩ := dirIndex_offset hs.2 ho hlim
  obtain ⟨hdu, hshow⟩ := h.shows_at hu hp ho
  have hn := dirCount_le hlim
  unfold State.faultIn
  unfold State.anonymous at han
  split_ifs with hpres
  · rw [if_pos (show present (s.entryAt _) = true from hpres)] at han
    exact Post.ok ⟨h, hpres, by simpa using han⟩
  · have hv : view s.mem (dirIndex (startCode nr + offset)) (tblIndex (startCode nr + offset)) =
        .absent := look_eq_absent_iff.2 (by simpa using hpres)
    have hge := h.inv.repr.getEmptyPage ((startCode nr + offset) / 4096 * 4096)
      (by rw [dirIndex_page]; exact hdu) (by rw [dirIndex_page, tblIndex_page]; exact hv)
    rw [dirIndex_page, tblIndex_page] at hge
    refine hge.mono (fun m hm => ?_) fun e he => he.imp fun _ hx => hx.1
    obtain ⟨hr, -, -⟩ := hm
    have hview := hr.page _ hdu _ (tblIndex_lt (startCode nr + offset))
    simp only [Space.setPage, and_self, if_true] at hview
    have hinv := h.inv.fillEntry ht hz hl (d := dirIndex (startCode nr + offset)) (by omega)
      (by rw [hd]; omega) hr
    refine ⟨h.same hu hp ho hinv rfl (fun d hd' i hi hne => ?_) ?_, low_le_of_view hview⟩
    · rw [hr.page d hd' i hi]
      simp only [Space.setPage]
      rw [if_neg hne]
      rfl
    · rw [hview]
      rw [hv] at hshow
      exact fun k hk => (hshow k hk).trans (byteOf_zero k).symm

/-- The fault of a write to a protected page leaves the process a page of its own. -/
theorem Rel.faultWrite (h : Rel lo s t) (hu : s.user nr = some tk) (hp : t nr = some p)
    (ho : offset < tk.dataLimit) (hm : Mapped s (startCode nr + offset)) :
    Post (State.faultWrite s.mem (startCode nr + offset))
      (fun m => Rel lo { s with mem := m } t ∧ Mapped { s with mem := m } (startCode nr + offset) ∧
        writable (pte m (dirIndex (startCode nr + offset)) (tblIndex (startCode nr + offset))) = true)
      (fun e => ∃ m, e = .noMemory m) := by
  obtain ⟨hnr, ht, hz, hl⟩ := user_eq_some hu
  obtain ⟨-, hshow⟩ := h.shows_at hu hp ho
  obtain ⟨hdu, htab, hv⟩ := h.inv.entry_facts hnr ht ho hm.1
  unfold State.faultWrite
  split_ifs with hw
  · exact Post.ok ⟨h, hm, hw⟩
  · refine (h.inv.repr.doWpPage hdu htab hm.1).mono (fun m hm' => ?_) fun e he => ⟨_, he⟩
    obtain ⟨hr, -, hw'⟩ := hm'
    have hview := hr.page _ hdu _ (tblIndex_lt (startCode nr + offset))
    simp only [Space.setPage, and_self, if_true] at hview
    refine ⟨h.same hu hp ho (h.inv.changePage hv hr) rfl (fun d hd' i hi hne => ?_) ?_,
      low_le_of_view hview, hw'⟩
    · rw [hr.page d hd' i hi]
      simp only [Space.setPage]
      rw [if_neg hne]
      rfl
    · rw [hview]
      rw [hm.view_eq] at hshow
      exact hshow

/-- The byte found at a mapped entry. -/
theorem Rel.byte_eq (h : Rel lo s t) (hu : s.user nr = some tk) (hp : t nr = some p)
    (ho : offset < tk.dataLimit) (hm : Mapped s (startCode nr + offset)) :
    p.bytes offset = byteOf (s.peek (startCode nr + offset)) (offset % 4096) := by
  obtain ⟨-, hshow⟩ := h.shows_at hu hp ho
  rw [hm.view_eq] at hshow
  have := hshow (offset % 4096) (Nat.mod_lt _ (by decide))
  rw [show offset / 4096 * 4096 + offset % 4096 = offset by omega] at this
  exact this

theorem Rel.load_view (h : Rel lo s t) (hu : s.user nr = some tk) (hp : t nr = some p)
    (ho : offset < tk.dataLimit) (hm : Mapped s (startCode nr + offset)) :
    view (s.access (startCode nr + offset) none).mem (dirIndex (startCode nr + offset))
        (tblIndex (startCode nr + offset)) =
      view s.mem (dirIndex (startCode nr + offset)) (tblIndex (startCode nr + offset)) := by
  obtain ⟨hnr, ht, -, -⟩ := user_eq_some hu
  obtain ⟨hdu, -⟩ := h.shows_at hu hp ho
  obtain ⟨-, htab, -⟩ := h.inv.entry_facts hnr ht ho hm.1
  obtain ⟨hr, -⟩ := h.inv.repr.touchEntry hdu (tblIndex_lt (startCode nr + offset)) htab hm.1 false
  exact hr.page _ hdu _ (tblIndex_lt (startCode nr + offset))

/-- A read changes nothing that processes see. -/
theorem Rel.load (h : Rel lo s t) (hu : s.user nr = some tk) (hp : t nr = some p)
    (ho : offset < tk.dataLimit) (hm : Mapped s (startCode nr + offset)) :
    Rel lo (s.access (startCode nr + offset) none) t := by
  obtain ⟨hnr, ht, -, -⟩ := user_eq_some hu
  obtain ⟨hdu, hshow⟩ := h.shows_at hu hp ho
  obtain ⟨-, htab, -⟩ := h.inv.entry_facts hnr ht ho hm.1
  obtain ⟨hr, -⟩ := h.inv.repr.touchEntry hdu (tblIndex_lt (startCode nr + offset)) htab hm.1 false
  have hinv := h.inv.access hnr ht ho hm.1 none fun hc => by cases hc
  refine h.same hu hp ho hinv rfl (fun d hd i hi _ => hr.page d hd i hi) ?_
  rw [h.load_view hu hp ho hm]
  exact hshow

/-- A write changes one byte of one process. -/
theorem Rel.store (h : Rel lo s t) (hu : s.user nr = some tk) (hp : t nr = some p)
    (ho : offset < tk.dataLimit) (hm : Mapped s (startCode nr + offset))
    (hw : writable (s.entryAt (startCode nr + offset)) = true) (b : BitVec 8) :
    Rel lo (s.access (startCode nr + offset) (some (offset % 4096 / 4,
        setByte (s.peek (startCode nr + offset) (offset % 4096 / 4)) (offset % 4096 % 4) b)))
      (Function.update t nr (some { p with bytes := Function.update p.bytes offset b })) := by
  obtain ⟨hnr, ht, -, -⟩ := user_eq_some hu
  obtain ⟨hdu, hshow⟩ := h.shows_at hu hp ho
  obtain ⟨-, htab, -⟩ := h.inv.entry_facts hnr ht ho hm.1
  obtain ⟨a, ha⟩ : ∃ a, a = startCode nr + offset := ⟨_, rfl⟩
  obtain ⟨v, hv⟩ : ∃ v, v = setByte (s.peek a (offset % 4096 / 4)) (offset % 4096 % 4) b := ⟨_, rfl⟩
  rw [← ha] at hdu hshow htab hm hw ⊢
  rw [← hv]
  have hi := tblIndex_lt a
  obtain ⟨hr, hew⟩ := h.inv.repr.touchEntry hdu hi htab hm.1 true
  have hself := hew.self hdu
  have hst := hr.storeWord hdu hi (by rw [hself, present_touch]; exact hm.1)
    (by rw [hself, writable_touch]; exact hw) (offset % 4096 / 4) v
  rw [hself, pageOf_touch] at hst
  have hinv : Inv lo (s.access a (some (offset % 4096 / 4, v))) := by
    rw [ha] at hm hw ⊢
    exact h.inv.access hnr ht ho hm.1 _ fun _ => hw
  -- The page before the store: marking the entry dirty did not change it.
  have hphys : (s.mem.write (pageOf (pde s.mem (dirIndex a))) (tblIndex a)
      (touch (pte s.mem (dirIndex a) (tblIndex a)) true)).phys
        (pageOf (pte s.mem (dirIndex a) (tblIndex a))) = s.mem.phys (pageOf (s.entryAt a)) := by
    refine h.inv.repr.write_phys hdu htab ?_
    have hps : (dirIndex a, tblIndex a) ∈ userSlots := mem_userSlots.2 ⟨hdu, hi⟩
    by_contra hx
    exact not_pointsTo h.inv.mem (f := pageOf (pte s.mem (dirIndex a) (tblIndex a))) (by omega) hps
      ⟨hm.1, rfl⟩
  rw [hphys] at hst
  rw [hm.view_eq] at hshow
  have hview := hst.page _ hdu _ hi
  simp only [Space.setPage, and_self, if_true] at hview
  refine h.change hu hp ho hinv rfl (fun d hd i hi hne => ?_) (fun x hx => ?_) ?_
  · rw [← ha] at hne
    refine (hst.page d hd i hi).trans ?_
    simp only [Space.setPage]
    rw [if_neg hne]
    rfl
  · rw [Function.update_of_ne]
    rintro rfl
    exact hx rfl
  · rw [← ha]
    rw [show view (s.access a (some (offset % 4096 / 4, v))).mem _ _ = _ from hview]
    intro k hk
    rw [hv, State.peek, byteOf_update (s.mem.phys (pageOf (s.entryAt a))) (offset % 4096) k b]
    by_cases hko : k = offset % 4096
    · rw [if_pos hko, hko, show offset / 4096 * 4096 + offset % 4096 = offset by omega,
        Function.update_self]
    · rw [if_neg hko, Function.update_of_ne (by omega)]
      exact hshow k hk

/-- Fork. -/
theorem Rel.fork (h : Rel lo s t) (hu : s.user nr = some tk) (hp : t nr = some p) {s' : State}
    (hinv : Inv lo s') {c : ℕ} (hc : s.findEmptyProcess = some c) (hf : Forked s s' nr c) :
    Rel lo s' (Function.update t c (some p)) := by
  obtain ⟨hnr, ht, hz, hl⟩ := user_eq_some hu
  obtain ⟨hcs, he⟩ := findEmptyProcess_eq_some hc
  have hs := mem_slots.1 hnr
  have hsc := mem_slots.1 hcs
  obtain ⟨⟨tk', f, ht', htask⟩, hview⟩ := hf
  rw [ht] at ht'
  obtain rfl := Option.some.inj ht'
  refine ⟨hinv, fun k hk hk' => ?_, fun k hk tk₁ ht₁ => ?_⟩
  · rw [htask] at hk'
    by_cases hkc : k = c
    · rw [hkc, Function.update_self] at hk'
      cases hk'
    · rw [Function.update_of_ne hkc] at hk' ⊢
      exact h.free k hk hk'
  · rw [htask] at ht₁
    have hsk := mem_slots.1 hk
    by_cases hkc : k = c
    · subst hkc
      rw [Function.update_self] at ht₁
      obtain rfl := Option.some.inj ht₁
      obtain ⟨q, hq, hqz, hsh⟩ := h.proc nr hnr tk ht
      rw [hp] at hq
      obtain rfl := Option.some.inj hq
      refine ⟨p, Function.update_self .., hqz, fun hz' j hj i hi => ?_⟩
      rw [hview (16 * k + j) (mem_userDirs.2 (by omega)) i hi, if_pos (by omega),
        show (16 * k + j) % 16 = j by omega]
      exact hsh hz' j hj i hi
    · rw [Function.update_of_ne hkc] at ht₁ ⊢
      obtain ⟨q, hq, hqz, hsh⟩ := h.proc k hk tk₁ ht₁
      refine ⟨q, hq, hqz, fun hz' j hj i hi => ?_⟩
      rw [hview (16 * k + j) (mem_userDirs.2 (by omega)) i hi, if_neg (by omega)]
      exact hsh hz' j hj i hi

/-- Exit. -/
theorem Rel.exit (h : Rel lo s t) (hu : s.user nr = some tk) (hp : t nr = some p) {s' : State}
    (hinv : Inv lo s') (hx : Exited s s' nr) :
    Rel lo s' (Function.update t nr (some { p with zombie := true })) := by
  obtain ⟨hnr, ht, -, -⟩ := user_eq_some hu
  obtain ⟨⟨tk', ht', htask⟩, hview⟩ := hx
  refine ⟨hinv, fun k hk hk' => ?_, fun k hk tk₁ ht₁ => ?_⟩
  · rw [htask] at hk'
    by_cases hkn : k = nr
    · rw [hkn, Function.update_self] at hk'
      cases hk'
    · rw [Function.update_of_ne hkn] at hk' ⊢
      exact h.free k hk hk'
  · rw [htask] at ht₁
    have hsk := mem_slots.1 hk
    by_cases hkn : k = nr
    · subst hkn
      rw [Function.update_self] at ht₁
      obtain rfl := Option.some.inj ht₁
      exact ⟨_, Function.update_self .., rfl, fun hc => by cases hc⟩
    · rw [Function.update_of_ne hkn] at ht₁ ⊢
      obtain ⟨q, hq, hqz, hsh⟩ := h.proc k hk tk₁ ht₁
      refine ⟨q, hq, hqz, fun hz' j hj i hi => ?_⟩
      rw [hview (16 * k + j) (mem_userDirs.2 (by omega)) (by omega) i hi]
      exact hsh hz' j hj i hi

/-- What a load or a store needs. -/
theorem Rel.accessed {q : Option (State × Out)} (h : Rel lo s t)
    (hstep : (match s.user nr with
      | none => none
      | some tk => if offset < tk.dataLimit ∧ s.anonymous tk nr offset then q else none) =
        some (s', o)) :
    ∃ tk p, s.user nr = some tk ∧ offset < tk.dataLimit ∧ s.anonymous tk nr offset ∧
      Mm.live t nr = some p ∧ t nr = some p ∧ q = some (s', o) := by
  cases hu : s.user nr with
  | none =>
    rw [hu] at hstep
    cases hstep
  | some tk =>
    rw [hu] at hstep
    obtain ⟨⟨ho, han⟩, hq⟩ := Option.ite_none_right_eq_some.1 hstep
    obtain ⟨p, hlive, hp, -⟩ := h.live hu
    exact ⟨tk, p, rfl, ho, han, hlive, hp, hq⟩

theorem Rel.forkStep (h : Rel lo s t) (hstep : s.cowStep (.fork nr) = some (s', o)) :
    ∃ t', eager.step t (.fork nr) = some (t', o) ∧ Rel lo s' t' := by
  simp only [State.cowStep] at hstep
  split_ifs at hstep with hsome
  obtain ⟨tk, hu⟩ := Option.isSome_iff_exists.1 hsome
  obtain ⟨hnr, ht, hz, hl⟩ := user_eq_some hu
  obtain ⟨p, hlive, hp, -⟩ := h.live hu
  have hfork := h.inv.fork (mem_slots.1 hnr).2 ht hz hl
  unfold State.cowFork at hstep
  simp only [eager, eagerStep, hlive, h.find]
  cases hr : s.fork nr with
  | error e => exact (hfork.of_error hr).elim
  | ok s₁ =>
    obtain ⟨hinv, hcase⟩ := hfork.of_ok hr
    rw [hr] at hstep
    cases hfe : s.findEmptyProcess with
    | none =>
      have hsame : s.fork nr = .ok s := by unfold State.fork; rw [ht, hfe]
      rw [hr] at hsame
      obtain rfl := Except.ok.inj hsame
      rw [hfe] at hstep
      obtain ⟨rfl, rfl⟩ := Prod.mk.inj (Option.some.inj hstep)
      exact ⟨t, rfl, h⟩
    | some c =>
      rw [hfe] at hstep
      simp only at hstep
      split_ifs at hstep with hchild
      obtain ⟨rfl, rfl⟩ := Prod.mk.inj (Option.some.inj hstep)
      obtain ⟨-, he⟩ := findEmptyProcess_eq_some hfe
      rcases hcase with hsame | ⟨c', hc', hf⟩
      · rw [hsame, he] at hchild
        cases hchild
      · rw [hfe] at hc'
        obtain rfl := Option.some.inj hc'
        exact ⟨_, rfl, h.fork hu hp hinv hfe (hf hnr)⟩

theorem Rel.readStep (h : Rel lo s t) (hstep : s.cowStep (.read nr offset) = some (s', o)) :
    ∃ t', eager.step t (.read nr offset) = some (t', o) ∧ Rel lo s' t' := by
  obtain ⟨tk, p, hu, ho, han, hlive, hp, hstep⟩ := h.accessed hstep
  have hfault := h.faultIn hu hp ho han
  unfold State.cowRead State.finish at hstep
  dsimp only at hstep
  simp only [eager, eagerStep, hlive]
  cases hr : State.faultIn s.mem (startCode nr + offset) with
  | error e =>
    obtain ⟨m, rfl⟩ := hfault.of_error hr
    rw [hr] at hstep
    cases hstep
  | ok m =>
    obtain ⟨h₁, hm⟩ := hfault.of_ok hr
    rw [hr] at hstep
    obtain ⟨rfl, rfl⟩ := Prod.mk.inj (Option.some.inj hstep)
    have hu₁ : State.user { s with mem := m } nr = some tk := hu
    rw [h₁.byte_eq hu₁ hp ho hm]
    exact ⟨t, rfl, h₁.load hu₁ hp ho hm⟩

theorem Rel.writeStep {b : BitVec 8} (h : Rel lo s t)
    (hstep : s.cowStep (.write nr offset b) = some (s', o)) :
    ∃ t', eager.step t (.write nr offset b) = some (t', o) ∧ Rel lo s' t' := by
  obtain ⟨tk, p, hu, ho, han, hlive, hp, hstep⟩ := h.accessed hstep
  have hfault : Post
      (State.faultIn s.mem (startCode nr + offset) >>= fun m =>
        State.faultWrite m (startCode nr + offset))
      (fun m => Rel lo { s with mem := m } t ∧ Mapped { s with mem := m } (startCode nr + offset) ∧
        writable (pte m (dirIndex (startCode nr + offset)) (tblIndex (startCode nr + offset))) =
          true)
      (fun e => ∃ m, e = .noMemory m) :=
    (h.faultIn hu hp ho han).bind fun m hm =>
      hm.1.faultWrite (s := { s with mem := m }) hu hp ho hm.2
  unfold State.cowWrite State.finish at hstep
  dsimp only at hstep
  simp only [eager, eagerStep, hlive]
  cases hr : (State.faultIn s.mem (startCode nr + offset) >>= fun m =>
      State.faultWrite m (startCode nr + offset)) with
  | error e =>
    obtain ⟨m, rfl⟩ := hfault.of_error hr
    rw [hr] at hstep
    cases hstep
  | ok m =>
    obtain ⟨h₁, hm, hw⟩ := hfault.of_ok hr
    rw [hr] at hstep
    obtain ⟨rfl, rfl⟩ := Prod.mk.inj (Option.some.inj hstep)
    exact ⟨_, rfl, h₁.store (s := { s with mem := m }) hu hp ho hm hw b⟩

theorem Rel.exitStep (h : Rel lo s t) (hstep : s.cowStep (.exit nr) = some (s', o)) :
    ∃ t', eager.step t (.exit nr) = some (t', o) ∧ Rel lo s' t' := by
  simp only [State.cowStep] at hstep
  split_ifs at hstep with hsome
  obtain ⟨tk, hu⟩ := Option.isSome_iff_exists.1 hsome
  obtain ⟨hnr, ht, hz, hl⟩ := user_eq_some hu
  obtain ⟨p, hlive, hp, -⟩ := h.live hu
  have hexit := h.inv.exited hnr ht hl
  unfold State.cowExit at hstep
  simp only [eager, eagerStep, hlive]
  cases hr : s.doExit nr with
  | error e => exact (hexit.of_error hr).elim
  | ok s₁ =>
    obtain ⟨hinv, hx⟩ := hexit.of_ok hr
    rw [hr] at hstep
    obtain ⟨rfl, rfl⟩ := Prod.mk.inj (Option.some.inj hstep)
    exact ⟨_, rfl, h.exit hu hp hinv hx⟩

end Simulation

/-- **One operation**: whatever the kernel does, the eager machine does with the same output. -/
theorem cow_simulation (lo : ℕ) : cow.Simulation eager (Rel lo) := by
  intro s t e s' o h hstep
  cases e with
  | fork nr => exact h.forkStep hstep
  | read nr offset => exact h.readStep hstep
  | write nr offset b => exact h.writeStep hstep
  | exit nr => exact h.exitStep hstep

/-- The byte shown at offset `k` of a page; zero where there is none yet. -/
def PageView.byte (v : PageView) (k : ℕ) : BitVec 8 :=
  match v with
  | .page c => byteOf c k
  | _ => 0

/-- The processes of a state, each with its own copy of what it sees. -/
def eagerOf (s : State) (nr : ℕ) : Option Proc :=
  (s.task nr).map fun t => ⟨t.zombie, fun offset =>
    (view s.mem (16 * nr + offset / 2 ^ 22) (offset / 4096 % 1024)).byte (offset % 4096)⟩

theorem eagerOf_rel {lo : ℕ} {s : State} (h : Inv lo s) : Rel lo s (eagerOf s) := by
  refine ⟨h, fun nr _ ht => by simp [eagerOf, ht], fun nr _ tk ht => ?_⟩
  refine ⟨_, by rw [eagerOf, ht]; rfl, rfl, fun _ k hk i hi => ?_⟩
  have hat : ∀ j < 4096, (k * 2 ^ 22 + i * 2 ^ 12 + j) / 2 ^ 22 = k ∧
      (k * 2 ^ 22 + i * 2 ^ 12 + j) / 4096 % 1024 = i ∧
        (k * 2 ^ 22 + i * 2 ^ 12 + j) % 4096 = j := fun j hj => by omega
  cases hv : view s.mem (16 * nr + k) i with
  | absent =>
    intro j hj
    obtain ⟨h1, h2, h3⟩ := hat j hj
    simp only [h1, h2, h3, hv]
    rfl
  | low f => trivial
  | page c =>
    intro j hj
    obtain ⟨h1, h2, h3⟩ := hat j hj
    simp only [h1, h2, h3, hv]
    rfl

/-- **Copy-on-write is invisible.** From any state the system can be in, whatever a run of forks,
reads and writes of anonymous pages and exits outputs, the same run outputs when every process
starts with its own copy of what it sees and a fork copies every byte. -/
theorem cow_invisible {lo : ℕ} {s s' : State} {ops : List UserOp} {outs : List Out}
    (h : (memory lo).Reachable s) (hrun : cow.exec s ops = some (s', outs)) :
    ∃ t', eager.exec (eagerOf s) ops = some (t', outs) := by
  obtain ⟨t', ht', -⟩ := (cow_simulation lo).exec ops (eagerOf_rel (Inv.of_reachable h)) hrun
  exact ⟨t', ht'⟩

/-! ## A run -/

/-- The state after an operation that does not panic. -/
def State.after (s : State) (op : Op) : State :=
  match s.run op with
  | .ok s' => s'
  | .error _ => s

theorem Inv.run_after {lo : ℕ} {s : State} {op : Op} (h : Inv lo s) (he : s.Enabled op) :
    s.run op = .ok (s.after op) := by
  unfold State.after
  cases hx : s.run op with
  | ok s' => rfl
  | error p => exact ((h.run he).of_error hx).elim

/-- The machine after the first fork. -/
@[irreducible] def forked : State := boot.after (.fork 0)

/-- Process 1 has a page of its own. -/
def written : State := forked.after (.wpFault 1 0x5000)

theorem memory_after {lo : ℕ} {s : State} {op : Op} (h : (memory lo).Reachable s) (he : s.Enabled op) :
    (memory lo).Reachable (s.after op) :=
  h.next ⟨he, (Inv.of_reachable h).run_after he⟩

theorem boot_enabled : boot.Enabled (.fork 0) :=
  ⟨by decide, _, rfl, rfl, rfl⟩

theorem forked_reachable : (memory 1024).Reachable forked := by
  unfold forked
  exact memory_after (.start boot_init) boot_enabled

/-- Process 1 before its first store. -/
theorem forked_page :
    (forked.task 1).map (fun t => (t.zombie, t.loading, t.dataLimit)) = some (false, none, 0xA0000) ∧
      present (forked.entryAt (startCode 1 + 0x5000)) = true ∧
      writable (forked.entryAt (startCode 1 + 0x5000)) = false := by
  decide +kernel

theorem forked_enabled : forked.Enabled (.wpFault 1 0x5000) := by
  obtain ⟨ht, hp⟩ := forked_page
  obtain ⟨t, ht, hf⟩ := Option.map_eq_some_iff.1 ht
  simp only [Prod.mk.injEq] at hf
  exact ⟨⟨by decide, ⟨by decide, t, ht, hf.1, hf.2.1⟩, t, ht, by rw [hf.2.2]; decide⟩, hp⟩

section Run

variable {lo nr k offset : ℕ} {s s' : State} {tk : Task}

/-- A page that is there is read. -/
theorem read_mapped (hu : s.user nr = some tk) (ho : offset < tk.dataLimit)
    (hm : Mapped s (startCode nr + offset)) : ∃ s', s.cowStep (.read nr offset) =
      some (s', .byte (byteOf (s.peek (startCode nr + offset)) (offset % 4096))) := by
  have han : s.anonymous tk nr offset = true := by
    unfold State.anonymous
    rw [if_pos hm.1]
    exact decide_eq_true hm.2
  have hfault : State.faultIn s.mem (startCode nr + offset) = .ok s.mem := if_pos hm.1
  refine ⟨s.access (startCode nr + offset) none, ?_⟩
  unfold State.cowStep
  dsimp only
  rw [hu]
  dsimp only
  rw [if_pos ⟨ho, han⟩]
  unfold State.cowRead
  dsimp only
  rw [hfault]
  rfl

/-- After a read the page is there with the byte that was read, and no process has changed. -/
theorem read_spec {b : BitVec 8} (h : Inv lo s)
    (hstep : s.cowStep (.read nr offset) = some (s', .byte b)) :
    (∀ k, s'.user k = s.user k) ∧ ∃ tk, s'.user nr = some tk ∧ offset < tk.dataLimit ∧
      Mapped s' (startCode nr + offset) ∧
      byteOf (s'.peek (startCode nr + offset)) (offset % 4096) = b := by
  have hrel := eagerOf_rel h
  obtain ⟨tk, p, hu, ho, han, -, hp, hstep⟩ := hrel.accessed hstep
  have hfault := hrel.faultIn hu hp ho han
  unfold State.cowRead State.finish at hstep
  dsimp only at hstep
  cases hr : State.faultIn s.mem (startCode nr + offset) with
  | error e =>
    obtain ⟨m, rfl⟩ := hfault.of_error hr
    rw [hr] at hstep
    cases hstep
  | ok m =>
    obtain ⟨h₁, hm⟩ := hfault.of_ok hr
    rw [hr] at hstep
    obtain ⟨rfl, hb⟩ := Prod.mk.inj (Option.some.inj hstep)
    have hview := h₁.load_view (show State.user { s with mem := m } nr = some tk from hu) hp ho hm
    rw [hm.view_eq] at hview
    have hm' := low_le_of_view hview
    rw [hm'.view_eq] at hview
    refine ⟨fun k => rfl, tk, hu, ho, hm', ?_⟩
    rw [← Out.byte.inj hb]
    exact congrArg (byteOf · (offset % 4096)) (PageView.page.inj hview)

/-- Nor after a write. -/
theorem write_user {b : BitVec 8} {o : Out} (hstep : s.cowStep (.write nr offset b) = some (s', o)) :
    ∃ tk, s'.user nr = some tk := by
  unfold State.cowStep at hstep
  dsimp only at hstep
  cases hu : s.user nr with
  | none =>
    rw [hu] at hstep
    cases hstep
  | some tk =>
    rw [hu] at hstep
    obtain ⟨-, hstep⟩ := Option.ite_none_right_eq_some.1 hstep
    unfold State.cowWrite State.finish at hstep
    dsimp only at hstep
    split at hstep
    · cases hstep
    · obtain ⟨rfl, -⟩ := Prod.mk.inj (Option.some.inj hstep)
      exact ⟨tk, hu⟩
    · obtain ⟨rfl, -⟩ := Prod.mk.inj (Option.some.inj hstep)
      exact ⟨tk, hu⟩

/-- A process can always exit. -/
theorem exit_exited (h : Inv lo s) (hu : s.user nr = some tk) :
    ∃ s', s.cowStep (.exit nr) = some (s', .done) ∧ Exited s s' nr := by
  obtain ⟨hnr, ht, -, hl⟩ := user_eq_some hu
  have hexit := h.exited hnr ht hl
  unfold State.cowStep State.cowExit
  dsimp only
  rw [hu]
  cases hr : s.doExit nr with
  | error e => exact (hexit.of_error hr).elim
  | ok s₁ => exact ⟨s₁, rfl, (hexit.of_ok hr).2⟩

/-- The other processes stay, with their pages. -/
theorem Exited.other (hx : Exited s s' nr) (hk : k ≠ nr) (hu : s.user k = some tk)
    (hd : dirIndex (startCode k + offset) ∈ userDirs) (hdk : dirIndex (startCode k + offset) / 16 ≠ nr)
    (hm : Mapped s (startCode k + offset)) : s'.user k = some tk ∧ Mapped s' (startCode k + offset) ∧
      s'.peek (startCode k + offset) = s.peek (startCode k + offset) := by
  obtain ⟨⟨tk', -, htask⟩, hview⟩ := hx
  have hsame := hview _ hd hdk _ (tblIndex_lt (startCode k + offset))
  rw [hm.view_eq] at hsame
  have hm' := low_le_of_view hsame
  refine ⟨?_, hm', ?_⟩
  · unfold State.user
    rw [htask, Function.update_of_ne hk]
    exact hu
  · rw [hm'.view_eq] at hsame
    exact PageView.page.inj hsame

theorem cow_inv {op : UserOp} {o : Out} (h : Inv lo s) (hstep : cow.step s op = some (s', o)) :
    Inv lo s' := by
  obtain ⟨t, -, hrel⟩ := cow_simulation lo s (eagerOf s) op s' o (eagerOf_rel h) hstep
  exact hrel.inv

/-- After a write of process 2 and a read of process 1, process 2 can exit, and process 1 reads the same
again. -/
theorem exit_run {b c : BitVec 8} {s₁ s₂ : State} {o : Out}
    (h₁ : s.cowStep (.write 2 0x5000 c) = some (s₁, o)) (hinv₁ : Inv lo s₁)
    (h₂ : s₁.cowStep (.read 1 0x5000) = some (s₂, .byte b)) (hinv₂ : Inv lo s₂) :
    ∃ s', cow.exec s₂ [.exit 2, .read 1 0x5000] = some (s', [.done, .byte b]) := by
  obtain ⟨tk₂, hu₂⟩ := write_user h₁
  obtain ⟨hkeep, tk, hu, ho, hm, hbyte⟩ := read_spec hinv₁ h₂
  obtain ⟨s₃, hexit, hx⟩ := exit_exited hinv₂ ((hkeep 2).trans hu₂)
  obtain ⟨hu', hm', hpeek⟩ := hx.other (by decide) hu (mem_userDirs.2 (by decide)) (by decide) hm
  obtain ⟨s₄, hread⟩ := read_mapped hu' ho hm'
  rw [hpeek, hbyte] at hread
  refine ⟨s₄, ?_⟩
  unfold Machine.exec
  rw [show cow.step s₂ (.exit 2) = _ from hexit]
  dsimp only
  unfold Machine.exec
  rw [show cow.step s₃ (.read 1 0x5000) = _ from hread]
  rfl

end Run

set_option maxRecDepth 100000 in
/-- Process 1 writes a byte and forks; its child writes there, too. -/
theorem child_run : (cow.exec written
    [.write 1 0x5000 7, .fork 1, .write 2 0x5000 9, .read 1 0x5000]).map Prod.snd =
      some [.done, .child 2, .done, .byte 7] := by
  decide +kernel

/-- The child writes a copy of what its father wrote, and its exit leaves the father what it has. -/
theorem cow_invisible_child : ∃ t', eager.exec (eagerOf written)
    ([.write 1 0x5000 7, .fork 1, .write 2 0x5000 9, .read 1 0x5000] ++ [.exit 2, .read 1 0x5000]) =
    some (t', [.done, .child 2, .done, .byte 7] ++ [.done, .byte 7]) := by
  have hwritten : (memory 1024).Reachable written := memory_after forked_reachable forked_enabled
  obtain ⟨⟨s, outs⟩, hrun, houts⟩ := Option.map_eq_some_iff.1 child_run
  obtain rfl : outs = [.done, .child 2, .done, .byte 7] := houts
  -- the states between the operations
  obtain ⟨s₁, o₁, os₁, h₁, hrun₁, hos₁⟩ := Machine.exec_cons_eq_some hrun
  obtain ⟨s₂, o₂, os₂, h₂, hrun₂, rfl⟩ := Machine.exec_cons_eq_some hrun₁
  obtain ⟨s₃, o₃, os₃, h₃, hrun₃, rfl⟩ := Machine.exec_cons_eq_some hrun₂
  obtain ⟨s₄, o₄, os₄, h₄, hrun₄, rfl⟩ := Machine.exec_cons_eq_some hrun₃
  cases hos₁
  cases hrun₄
  have hI₂ := cow_inv (cow_inv (Inv.of_reachable hwritten) h₁) h₂
  have hI₃ := cow_inv hI₂ h₃
  obtain ⟨s', htail⟩ := exit_run h₃ hI₃ h₄ (cow_inv hI₃ h₄)
  exact cow_invisible hwritten (Machine.exec_append hrun htail)

end Linux011.Mm
