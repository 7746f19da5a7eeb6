import Linux011.Lib.Fifo
import Linux011.Lib.Transition

/-!
# Sending on a serial line

`rs_write` of `kernel/chr_drv/serial.c` and the interrupt of `rs_io.s`, below a `tty_write` that does
not change what it writes (`OPOST` and `ECHO` are off), one process after the other. The 8250, the edge
that the interrupt controller waits for, the interrupt and the process take their steps in any order.

1. `Uart`: the registers of the 8250 that have to do with sending.
2. `State.handle`: the interrupt, from one access to a port to the next. `State.run`: `tty_write`.
3. `Inv`: no character is lost, and no interrupt.
4. `State.work`: what is left to do, less after each step that is no new call, signal or request of the
line.
5. `serial_drains`.
-/

namespace Linux011.Serial

abbrev Byte := BitVec 8

/-! ## The 8250 -/

/-- What asks for an interrupt besides the transmitter. -/
inductive Source
  | lineStatus
  | receiver
  | modemStatus
  deriving DecidableEq

structure Uart where
  /-- The transmitter's holding register. -/
  thr : Option Byte
  /-- What is being sent. -/
  shift : Option Byte
  /-- The interrupt enable register. -/
  ier : BitVec 8
  /-- The holding register is empty, and no interrupt has told so. -/
  thre : Bool
  asks : Source → Bool
  /-- What has been sent. -/
  line : List Byte

namespace Uart

variable (u : Uart)

/-- The interrupt identification register. -/
def iir : BitVec 8 :=
  if u.asks .lineStatus && u.ier.getLsbD 2 then 6
  else if u.asks .receiver && u.ier.getLsbD 0 then 4
  else if u.thre && u.ier.getLsbD 1 then 2
  else if u.asks .modemStatus && u.ier.getLsbD 3 then 0
  else 1

/-- The line to the interrupt controller. -/
def int : Bool := !u.iir.getLsbD 0

/-- After `iir` is read. -/
def readIir : Uart := { u with thre := u.thre && !decide (u.iir = 2) }

def setAsks (k : Source) (b : Bool) : Uart := { u with asks := Function.update u.asks k b }

def writeThr (b : Byte) : Uart := { u with thr := some b, thre := false }

/-- An interrupt that is enabled when the holding register is empty comes at once. -/
def writeIer (v : BitVec 8) : Uart :=
  { u with ier := v, thre := u.thre || (v.getLsbD 1 && !u.ier.getLsbD 1 && u.thr.isNone) }

/-- The holding register becomes empty. -/
def move : Option Uart :=
  match u.thr, u.shift with
  | some b, none => some { u with thr := none, shift := some b, thre := true }
  | _, _ => none

def emit : Option Uart := u.shift.map fun b => { u with shift := none, line := u.line ++ [b] }

end Uart

/-! ## The queue -/

/-- The two halves of `PUTCH`. -/
def store (q : Fifo 10 Byte) (c : Byte) : Fifo 10 Byte := { q with buf := Function.update q.buf q.head c }

def inc (q : Fifo 10 Byte) (c : Byte) : Fifo 10 Byte :=
  { q with head := q.head + 1, log := c :: q.log, spoiled := q.spoiled || q.isFull }

/-! ## The interrupt and `tty_write` -/

/-- The labels of `rs_io.s`; `done` is `end`. -/
inductive Handler
  | off
  | repInt
  | modemStatus
  | writeChar
  | readChar
  | lineStatus
  | writeBufferEmpty
  | done
  deriving DecidableEq

inductive Pc
  /-- At the outer loop. -/
  | loop
  /-- In `sleep_if_full`: at its first test, at its loop, and in `interruptible_sleep_on`. -/
  | test
  | sleep
  | asleep
  /-- After it. -/
  | check
  /-- At the inner loop. -/
  | fill
  /-- Between the halves of `PUTCH`. -/
  | stored (c : Byte)
  /-- Before `tty->write(tty)`. -/
  | flush
  deriving DecidableEq

/-- A `tty_write`: what is before `b`, and what is from `b` on. -/
structure Call where
  done : List Byte
  rest : List Byte
  pc : Pc

structure State where
  uart : Uart
  /-- The interrupt controller has seen an edge. -/
  irq : Bool
  handler : Handler
  writeQ : Fifo 10 Byte
  /-- `write_q.proc_list` is the process. -/
  procList : Bool
  /-- Its state is `TASK_INTERRUPTIBLE`. -/
  asleep : Bool
  signal : Bool
  writer : Option Call
  /-- Remembered: the calls that have returned, the last first. -/
  written : List Call

inductive Event
  /-- `tty_write` is called. -/
  | write (buf : List Byte)
  | signal
  /-- The signals of the process are dealt with. -/
  | clear
  | source (k : Source)
  | move
  | emit
  /-- The controller forgets an edge that is gone. -/
  | drop
  /-- The interrupt is taken. -/
  | enter
  | handle
  | run
  deriving DecidableEq

/-- What deals with a source. -/
def Source.handler : Source → Handler
  | .lineStatus => .lineStatus
  | .receiver => .readChar
  | .modemStatus => .modemStatus

/-- `jmp_table` -/
def jmpTable (al : BitVec 8) : Handler :=
  if al = 0 then .modemStatus else if al = 2 then .writeChar else if al = 4 then .readChar else .lineStatus

namespace State

variable (s : State)

def setUart (u : Uart) : State := { s with uart := u, irq := s.irq || (u.int && !s.uart.int) }

def setHandler (h : Handler) : State := { s with handler := h }

def setWriter (w : Call) : State := { s with writer := some w }

/-- `movl $0,(%ebx)`, if there is a process. -/
def wake : State := { s with asleep := s.asleep && !s.procList }

/-- `rs_write` -/
def rsWrite : State :=
  if s.writeQ.isEmpty then s else s.setUart (s.uart.writeIer (s.uart.ier ||| 2))

/-- The interrupt up to its next access to a port. -/
def handle : Option State :=
  match s.handler with
  | .off => none
  | .repInt =>
    let al := s.uart.iir
    let s := s.setUart s.uart.readIir
    some (s.setHandler (if al.getLsbD 0 || decide (6 < al) then .done else jmpTable al))
  | .modemStatus => some ((s.setUart (s.uart.setAsks .modemStatus false)).setHandler .repInt)
  | .readChar => some ((s.setUart (s.uart.setAsks .receiver false)).setHandler .repInt)
  | .lineStatus => some ((s.setUart (s.uart.setAsks .lineStatus false)).setHandler .repInt)
  | .writeChar =>
    if s.writeQ.chars = 0 then some (s.setHandler .writeBufferEmpty)
    else
      let s := if 256 < s.writeQ.chars then s else s.wake
      let s := { s.setUart (s.uart.writeThr s.writeQ.first) with writeQ := s.writeQ.getch }
      some (s.setHandler (if s.writeQ.isEmpty then .writeBufferEmpty else .repInt))
  | .writeBufferEmpty =>
    let s := s.wake
    some ((s.setUart (s.uart.writeIer (s.uart.ier &&& 0x0d))).setHandler .repInt)
  | .done => some (s.setHandler .off)

/-- The call returns. -/
def finish (w : Call) : State := { s with writer := none, written := w :: s.written }

/-- The call up to where an interrupt may come. -/
def run (w : Call) : Option State :=
  match w.pc with
  | .loop => some (if w.rest = [] then s.finish w else s.setWriter { w with pc := .test })
  | .test => some (s.setWriter { w with pc := if s.writeQ.isFull then .sleep else .check })
  | .sleep =>
    if !s.signal && decide (s.writeQ.left < 128) then
      some ({ s with procList := true, asleep := true }.setWriter { w with pc := .asleep })
    else some (s.setWriter { w with pc := .check })
  | .asleep =>
    if s.asleep && !s.signal then none
    else some ({ s with procList := false, asleep := false }.setWriter { w with pc := .sleep })
  | .check => some (if s.signal then s.finish w else s.setWriter { w with pc := .fill })
  | .fill =>
    match w.rest with
    | [] => some (s.setWriter { w with pc := .flush })
    | c :: rest =>
      if s.writeQ.isFull then some (s.setWriter { w with pc := .flush })
      else some ({ s with writeQ := store s.writeQ c }.setWriter ⟨w.done ++ [c], rest, .stored c⟩)
  | .stored c => some ({ s with writeQ := inc s.writeQ c }.setWriter { w with pc := .fill })
  | .flush => some (s.rsWrite.setWriter { w with pc := .loop })

def next : Event → Option State
  | .write buf =>
    if s.handler = .off ∧ s.writer.isNone then some (s.setWriter ⟨[], buf, .loop⟩) else none
  | .signal => some { s with signal := true }
  | .clear => if s.writer.isNone then some { s with signal := false } else none
  | .source k => some (s.setUart (s.uart.setAsks k true))
  | .move => s.uart.move.map s.setUart
  | .emit => s.uart.emit.map s.setUart
  | .drop => if s.irq && !s.uart.int then some { s with irq := false } else none
  | .enter => if s.irq && decide (s.handler = .off) then some { s with irq := false, handler := .repInt } else none
  | .handle => s.handle
  | .run => if s.handler = .off then s.writer.bind s.run else none

/-- After `rs_init`. -/
def boot (thre : Bool) (buf : BitVec 10 → Byte) : State where
  uart := ⟨none, none, 0x0d, thre, fun _ => false, []⟩
  irq := false
  handler := .off
  writeQ := .empty buf
  procList := false
  asleep := false
  signal := false
  writer := none
  written := []

end State

def serial : System State Event where
  init s := ∃ thre buf, s = .boot thre buf
  step s e s' := s.next e = some s'

/-! ## What holds -/

/-- The character that is not in the queue yet. -/
def Call.stored (w : Call) : List Byte :=
  match w.pc with
  | .stored c => [c]
  | _ => []

/-- `tty->write(tty)` is still to come. -/
def Call.Owes (w : Call) : Prop :=
  match w.pc with
  | .fill | .stored _ | .flush => True
  | _ => False

/-- What is known where an interrupt may come. -/
def Call.Ok (w : Call) (s : State) : Prop :=
  match w.pc with
  | .test | .sleep | .asleep => w.rest ≠ []
  | .check => w.rest ≠ [] ∧ (s.signal = true ∨ s.writeQ.left ≠ 0)
  | .stored c => s.writeQ.buf s.writeQ.head = c ∧ s.writeQ.left ≠ 0
  | _ => True

/-- The interrupt looks for causes once more. -/
def Handler.Looping (h : Handler) : Prop := h ≠ .off ∧ h ≠ .done

instance : DecidablePred Handler.Looping := fun h => inferInstanceAs (Decidable (h ≠ .off ∧ h ≠ .done))

namespace State

/-- What the calls have taken from their buffers. -/
def given (s : State) : List Byte :=
  s.written.reverse.flatMap Call.done ++ s.writer.elim [] Call.done

/-- An enabled transmitter asks for an interrupt, or will; it is enabled when there is something to
send. -/
structure Armed (s : State) : Prop where
  on : s.uart.ier = 0x0f → s.uart.thr ≠ none ∨ s.uart.thre = true
  queue : s.writeQ.chars = 0 ∨ (∃ w, s.writer = some w ∧ w.Owes) ∨ s.uart.ier = 0x0f

structure Inv (s : State) : Prop where
  sound : s.writeQ.Sound
  sent : s.uart.line ++ s.uart.shift.toList ++ s.uart.thr.toList = s.writeQ.taken.reverse
  given : s.writeQ.log.reverse ++ s.writer.elim [] Call.stored = s.given
  ier : s.uart.ier = 0x0d ∨ s.uart.ier = 0x0f
  empty : s.uart.thre = true → s.uart.thr = none
  irq : s.uart.int = true → s.irq = true ∨ s.handler.Looping
  transmits : s.handler = .writeChar → s.uart.thr = none ∧ s.uart.thre = false ∧ s.uart.ier = 0x0f
  drained : s.handler = .writeBufferEmpty → s.writeQ.chars = 0
  asks : ∀ k : Source, s.handler = k.handler → s.uart.asks k = true
  armed : s.handler ≠ .writeChar → s.handler ≠ .writeBufferEmpty → s.Armed
  asleep : s.asleep = true → s.procList = true ∧ 256 ≤ s.writeQ.chars
  procList : s.procList = true → ∃ w, s.writer = some w ∧ w.pc = .asleep
  writer : ∀ w, s.writer = some w → w.Ok s
  written : ∀ w ∈ s.written, w.rest = [] ∨ w.pc = .check

end State

namespace Uart

variable {u u' : Uart}

theorem int_eq (h : u.ier = 0x0d ∨ u.ier = 0x0f) : u.int =
    (u.asks .lineStatus || u.asks .receiver || u.thre && u.ier.getLsbD 1 || u.asks .modemStatus) := by
  unfold int iir
  generalize u.asks .lineStatus = a
  generalize u.asks .receiver = b
  generalize u.asks .modemStatus = c
  generalize u.thre = d
  rcases h with h | h <;> rw [h] <;> cases a <;> cases b <;> cases c <;> cases d <;> rfl

/-- What the register tells. -/
theorem iir_cases (h : u.ier = 0x0d ∨ u.ier = 0x0f) :
    (u.iir = 1 ∧ u.int = false) ∨ (u.iir = 6 ∧ u.asks .lineStatus = true) ∨
    (u.iir = 4 ∧ u.asks .receiver = true) ∨ (u.iir = 2 ∧ u.thre = true ∧ u.ier = 0x0f) ∨
    (u.iir = 0 ∧ u.asks .modemStatus = true) := by
  unfold int iir
  generalize u.asks .lineStatus = a
  generalize u.asks .receiver = b
  generalize u.asks .modemStatus = c
  generalize u.thre = d
  rcases h with h | h <;> rw [h] <;> cases a <;> cases b <;> cases c <;> cases d <;> simp

end Uart

namespace State

variable {s s' : State} {u : Uart} {w : Call}

/-- What a call relies on. -/
theorem ok_congr (h : w.Ok s) (hsignal : s'.signal = s.signal)
    (hleft : s.writeQ.left ≠ 0 → s'.writeQ.left ≠ 0)
    (hbuf : s'.writeQ.buf s'.writeQ.head = s.writeQ.buf s.writeQ.head) : w.Ok s' := by
  obtain ⟨done, rest, pc⟩ := w
  cases pc with
  | loop | fill | flush => trivial
  | test | sleep | asleep => exact h
  | check => exact ⟨h.1, h.2.imp hsignal.trans hleft⟩
  | stored c => exact ⟨hbuf.trans h.1, hleft h.2⟩

/-! ## The 8250 and the interrupt -/

/-- No edge is missed. -/
theorem irq_setUart {p : Prop} (h : s.uart.int = true → s.irq = true ∨ p) (hint : u.int = true) :
    (s.setUart u).irq = true ∨ p := by
  show (s.irq || (u.int && !s.uart.int)) = true ∨ p
  rw [hint]
  cases hold : s.uart.int with
  | true =>
    rcases h hold with hirq | hp
    · exact .inl (by rw [hirq, Bool.true_or])
    · exact .inr hp
  | false => exact .inl (by simp)

/-- The registers change, but not what is enabled. -/
theorem Inv.setUart (h : s.Inv)
    (hsent : u.line ++ u.shift.toList ++ u.thr.toList
      = s.uart.line ++ s.uart.shift.toList ++ s.uart.thr.toList)
    (hier : u.ier = s.uart.ier) (hempty : u.thre = true → u.thr = none)
    (hon : s.uart.thr ≠ none ∨ s.uart.thre = true → u.thr ≠ none ∨ u.thre = true)
    (hfree : s.uart.thr = none → s.uart.thre = false → u.thr = none ∧ u.thre = false)
    (hasks : ∀ k : Source, s.handler = k.handler → s.uart.asks k = true → u.asks k = true) :
    (s.setUart u).Inv :=
  { h with
    sent := hsent.trans h.sent
    ier := hier.symm ▸ h.ier
    empty := hempty
    irq := irq_setUart h.irq
    transmits := fun hh => by
      obtain ⟨h1, h2, h3⟩ := h.transmits hh
      exact ⟨(hfree h1 h2).1, (hfree h1 h2).2, hier.trans h3⟩
    asks := fun k hk => hasks k hk (h.asks k hk)
    armed := fun h1 h2 => by
      have harmed := h.armed h1 h2
      exact ⟨fun h0f => hon (harmed.on (hier.symm.trans h0f)), harmed.queue.imp_right
        (Or.imp_right hier.trans)⟩ }

theorem Inv.source (h : s.Inv) (k : Source) {b : Bool} (hb : s.handler = .repInt ∨ b = true) :
    (s.setUart (s.uart.setAsks k b)).Inv := by
  refine h.setUart rfl rfl h.empty id (fun h1 h2 => ⟨h1, h2⟩) fun j hj hasks => ?_
  show Function.update s.uart.asks k b j = true
  rw [Function.update_apply]
  split_ifs
  · rcases hb with hh | hb
    · rw [hh] at hj
      cases j <;> cases hj
    · exact hb
  · exact hasks

theorem Inv.move (h : s.Inv) (hu : s.uart.move = some u) : (s.setUart u).Inv := by
  unfold Uart.move at hu
  split at hu
  · rename_i b hthr hshift
    cases hu
    refine h.setUart ?_ rfl (fun _ => rfl) (fun _ => .inr rfl) (fun hnone => ?_) fun _ _ => id
    · rw [hthr, hshift]
      show s.uart.line ++ [b] ++ [] = s.uart.line ++ [] ++ [b]
      rw [List.append_nil, List.append_nil]
    · rw [hthr] at hnone
      cases hnone
  · cases hu

theorem Inv.emit (h : s.Inv) (hu : s.uart.emit = some u) : (s.setUart u).Inv := by
  unfold Uart.emit at hu
  obtain ⟨b, hshift, rfl⟩ := Option.map_eq_some_iff.1 hu
  refine h.setUart ?_ rfl h.empty id (fun h1 h2 => ⟨h1, h2⟩) fun _ _ => id
  rw [hshift]
  show s.uart.line ++ [b] ++ [] ++ _ = s.uart.line ++ [b] ++ _
  rw [List.append_nil]

/-- The interrupt goes on where it knows no more than the others. -/
theorem Inv.setHandler {l : Handler} (h : s.Inv) (harmed : s.Armed) (h1 : l ≠ .writeChar)
    (h2 : l ≠ .writeBufferEmpty) (hirq : s.uart.int = true → s.irq = true ∨ l.Looping)
    (hasks : ∀ k : Source, l = k.handler → s.uart.asks k = true) : (s.setHandler l).Inv :=
  { h with
    irq := hirq
    transmits := fun hl => absurd hl h1
    drained := fun hl => absurd hl h2
    asks := hasks
    armed := fun _ _ => ⟨harmed.on, harmed.queue⟩ }

theorem Inv.wake (h : s.Inv) : s.wake.Inv :=
  { h with
    asleep := fun ha => h.asleep (Bool.and_eq_true_iff.1 ha).1
    armed := fun h1 h2 => ⟨(h.armed h1 h2).on, (h.armed h1 h2).queue⟩
    writer := fun w hw => h.writer w hw }

/-- Nobody sleeps once the process is woken. -/
theorem Inv.wake_asleep (h : s.Inv) : s.wake.asleep = false := by
  show (s.asleep && !s.procList) = false
  by_contra hne
  obtain ⟨ha, hp⟩ := Bool.and_eq_true_iff.1 (Bool.of_not_eq_false hne)
  rw [(h.asleep ha).1] at hp
  cases hp

/-- `iir` is read. -/
theorem Inv.repInt (h : s.Inv) (hh : s.handler = .repInt) : ((s.setUart s.uart.readIir).setHandler
    (if s.uart.iir.getLsbD 0 || decide (6 < s.uart.iir) then .done else jmpTable s.uart.iir)).Inv := by
  have harmed := h.armed (by rw [hh]; decide) (by rw [hh]; decide)
  have hsame : s.uart.iir ≠ 2 → s.uart.readIir = s.uart := by
    intro hne
    unfold Uart.readIir
    rw [decide_eq_false hne, Bool.not_false, Bool.and_true]
  have hset : s.setUart s.uart = s := by
    unfold State.setUart
    simp
  have hother : ∀ k : Source, s.uart.asks k = true → (s.setHandler k.handler).Inv := by
    intro k hk
    refine h.setHandler harmed ?_ ?_ (fun _ => .inr ?_) fun j hj => ?_
    · cases k <;> decide
    · cases k <;> decide
    · cases k <;> decide
    · obtain rfl : k = j := by cases k <;> cases j <;> first | rfl | cases hj
      exact hk
  rcases Uart.iir_cases h.ier with ⟨hiir, hint⟩ | ⟨hiir, hk⟩ | ⟨hiir, hk⟩ | ⟨hiir, hthre, hier⟩ | ⟨hiir, hk⟩
  · -- no cause is left, and so a new one makes an edge
    rw [hsame (by rw [hiir]; decide), hset, hiir]
    refine h.setHandler harmed (by decide) (by decide) (fun hi => ?_) fun k hk => ?_
    · rw [hint] at hi
      cases hi
    · cases k <;> cases hk
  · rw [hsame (by rw [hiir]; decide), hset, hiir]
    exact hother .lineStatus hk
  · rw [hsame (by rw [hiir]; decide), hset, hiir]
    exact hother .receiver hk
  · have hthr := h.empty hthre
    rw [hiir]
    have hread : s.uart.readIir = { s.uart with thre := false } := by
      unfold Uart.readIir
      rw [hiir, decide_eq_true rfl, Bool.not_true, Bool.and_false]
    rw [hread]
    show ((s.setUart { s.uart with thre := false }).setHandler .writeChar).Inv
    exact { h with
      empty := fun hf => by cases hf
      irq := fun _ => .inr (show Handler.Looping .writeChar by decide)
      transmits := fun _ => ⟨hthr, rfl, hier⟩
      drained := fun hl => by cases hl
      asks := fun k hk => by cases k <;> cases hk
      armed := fun hl _ => absurd rfl hl }
  · rw [hsame (by rw [hiir]; decide), hset, hiir]
    exact hother .modemStatus hk

/-- A character goes to the transmitter. -/
theorem Inv.transmit (h : s.Inv) (hh : s.handler = .writeChar) (hne : s.writeQ.chars ≠ 0)
    (hawake : s.asleep = true → 256 < s.writeQ.chars) :
    let t := { s.setUart (s.uart.writeThr s.writeQ.first) with writeQ := s.writeQ.getch }
    (t.setHandler (if t.writeQ.isEmpty then .writeBufferEmpty else .repInt)).Inv := by
  obtain ⟨hthr, -, hier⟩ := h.transmits hh
  intro t
  have hchars : t.writeQ.chars = s.writeQ.chars - 1 := Fifo.chars_getch hne
  have hleft : s.writeQ.left ≠ 0 → s.writeQ.getch.left ≠ 0 := by
    have h1 := Fifo.chars_add_left (q := s.writeQ)
    have h2 := Fifo.chars_add_left (q := s.writeQ.getch)
    have h3 : s.writeQ.getch.chars = s.writeQ.chars - 1 := hchars
    omega
  have hloop : Handler.Looping (if t.writeQ.isEmpty then .writeBufferEmpty else .repInt) := by
    split_ifs <;> decide
  exact { h with
    sound := h.sound.getch hne
    sent := by
      have hsent := h.sent
      rw [hthr] at hsent
      show s.uart.line ++ s.uart.shift.toList ++ [s.writeQ.first] = (s.writeQ.first :: s.writeQ.taken).reverse
      rw [List.reverse_cons, ← hsent]
      simp
    empty := fun hf => by cases hf
    irq := fun _ => .inr hloop
    transmits := fun hl => by
      change (if t.writeQ.isEmpty then Handler.writeBufferEmpty else .repInt) = .writeChar at hl
      split_ifs at hl
    drained := fun hl => by
      change (if t.writeQ.isEmpty then Handler.writeBufferEmpty else .repInt) = .writeBufferEmpty at hl
      split_ifs at hl with hempty
      exact Fifo.isEmpty_iff.1 hempty
    asks := fun k hk => by
      change (if t.writeQ.isEmpty then Handler.writeBufferEmpty else .repInt) = k.handler at hk
      split_ifs at hk <;> cases k <;> cases hk
    armed := fun _ _ => ⟨fun _ => .inl (Option.some_ne_none _), .inr (.inr hier)⟩
    asleep := fun ha => by
      refine ⟨(h.asleep ha).1, ?_⟩
      have := hawake ha
      show 256 ≤ t.writeQ.chars
      omega
    writer := fun w hw => ok_congr (h.writer w hw) rfl hleft rfl }

theorem ier_masked (h : s.uart.ier = 0x0d ∨ s.uart.ier = 0x0f) : s.uart.ier &&& 0x0d = 0x0d := by
  rcases h with h | h <;> rw [h] <;> decide

/-- The transmitter's interrupt is disabled as nothing is left to send. -/
theorem Inv.disable (h : s.Inv) (hempty : s.writeQ.chars = 0) :
    ((s.setUart (s.uart.writeIer (s.uart.ier &&& 0x0d))).setHandler .repInt).Inv := by
  have hthre : (s.uart.writeIer (s.uart.ier &&& 0x0d)).thre = s.uart.thre := by
    unfold Uart.writeIer
    rw [ier_masked h.ier]
    exact Bool.or_false _
  exact { h with
    ier := .inl (ier_masked h.ier)
    empty := fun ht => h.empty (hthre.symm.trans ht)
    irq := fun _ => .inr (show Handler.Looping .repInt by decide)
    transmits := fun hl => by cases hl
    drained := fun hl => by cases hl
    asks := fun k hk => by cases k <;> cases hk
    armed := fun _ _ => by
      refine ⟨fun h0f => ?_, .inl hempty⟩
      have hmask : s.uart.ier &&& 0x0d = 0x0f := h0f
      rw [ier_masked h.ier] at hmask
      exact absurd hmask (by decide) }

theorem Inv.handle (h : s.Inv) (hs : s.handle = some s') : s'.Inv := by
  unfold State.handle at hs
  cases hh : s.handler with
  | off =>
    rw [hh] at hs
    cases hs
  | repInt =>
    rw [hh] at hs
    cases hs
    exact h.repInt hh
  | modemStatus | readChar | lineStatus =>
    rw [hh] at hs
    cases hs
    have harmed := h.armed (by rw [hh]; decide) (by rw [hh]; decide)
    have hloop : (s.setHandler .repInt).Inv :=
      h.setHandler harmed (by decide) (by decide) (fun _ => .inr (by decide)) fun k hk => by
        cases k <;> cases hk
    exact hloop.source _ (.inl rfl)
  | writeChar =>
    rw [hh] at hs
    dsimp only at hs
    by_cases h0 : s.writeQ.chars = 0
    · rw [if_pos h0] at hs
      cases hs
      exact { h with
        irq := fun _ => .inr (show Handler.Looping .writeBufferEmpty by decide)
        transmits := fun hl => by cases hl
        drained := fun _ => h0
        asks := fun k hk => by cases k <;> cases hk
        armed := fun _ hl => absurd rfl hl }
    rw [if_neg h0] at hs
    by_cases hmany : 256 < s.writeQ.chars
    · rw [if_pos hmany] at hs
      cases hs
      exact h.transmit hh h0 fun _ => hmany
    · rw [if_neg hmany] at hs
      cases hs
      exact h.wake.transmit hh h0 fun ha => by rw [h.wake_asleep] at ha; cases ha
  | writeBufferEmpty =>
    rw [hh] at hs
    cases hs
    exact h.wake.disable (h.drained hh)
  | done =>
    rw [hh] at hs
    cases hs
    have harmed := h.armed (by rw [hh]; decide) (by rw [hh]; decide)
    refine h.setHandler harmed (by decide) (by decide) (fun hi => ?_) fun k hk => ?_
    · rcases h.irq hi with hirq | hloop
      · exact .inl hirq
      · exact absurd hh hloop.2
    · cases k <;> cases hk

/-! ## The process -/

/-- The call goes on, and nothing else. -/
theorem Inv.setWriter {w' : Call} (h : s.Inv) (hw : s.writer = some w) (hdone : w'.done = w.done)
    (hstored : w'.stored = w.stored) (hproc : s.procList = false) (hok : w'.Ok s)
    (howes : w.Owes → w'.Owes ∨ s.writeQ.chars = 0 ∨ s.uart.ier = 0x0f) : (s.setWriter w').Inv :=
  { h with
    given := by
      have hgiven := h.given
      unfold State.given at hgiven ⊢
      rw [hw] at hgiven
      show s.writeQ.log.reverse ++ w'.stored = s.written.reverse.flatMap Call.done ++ w'.done
      rw [hdone, hstored]
      exact hgiven
    armed := fun h1 h2 => by
      refine ⟨(h.armed h1 h2).on, ?_⟩
      rcases (h.armed h1 h2).queue with h0 | ⟨v, hv, hvo⟩ | hier
      · exact .inl h0
      · rw [hw] at hv
        cases hv
        rcases howes hvo with hw' | h0 | hier
        · exact .inr (.inl ⟨w', rfl, hw'⟩)
        · exact .inl h0
        · exact .inr (.inr hier)
      · exact .inr (.inr hier)
    procList := fun hp => by
      rw [show s.procList = true from hp] at hproc
      cases hproc
    writer := fun v hv => by
      cases hv
      exact hok }

theorem Inv.not_procList (h : s.Inv) (hw : s.writer = some w) (hpc : w.pc ≠ .asleep) : s.procList = false := by
  by_contra hne
  obtain ⟨v, hv, hvpc⟩ := h.procList (Bool.of_not_eq_false hne)
  rw [hw] at hv
  cases hv
  exact hpc hvpc

theorem Inv.not_asleep (h : s.Inv) (hproc : s.procList = false) : s.asleep = false := by
  by_contra hne
  have hp := (h.asleep (Bool.of_not_eq_false hne)).1
  rw [hproc] at hp
  cases hp

theorem Inv.finish (h : s.Inv) (hw : s.writer = some w) (hproc : s.procList = false)
    (howes : ¬ w.Owes) (hstored : w.stored = []) (hrest : w.rest = [] ∨ w.pc = .check) : (s.finish w).Inv :=
  { h with
    given := by
      have hgiven := h.given
      unfold State.given at hgiven ⊢
      rw [hw] at hgiven
      show s.writeQ.log.reverse ++ [] = (w :: s.written).reverse.flatMap Call.done ++ []
      change s.writeQ.log.reverse ++ w.stored = s.written.reverse.flatMap Call.done ++ w.done at hgiven
      rw [hstored, List.append_nil] at hgiven
      rw [List.append_nil, List.append_nil, List.reverse_cons, List.flatMap_append, List.flatMap_singleton,
        hgiven]
    armed := fun h1 h2 => by
      refine ⟨(h.armed h1 h2).on, (h.armed h1 h2).queue.imp_right fun hor => .inr (hor.resolve_left ?_)⟩
      rintro ⟨v, hv, hvo⟩
      rw [hw] at hv
      cases hv
      exact howes hvo
    procList := fun hp => by
      rw [show s.procList = true from hp] at hproc
      cases hproc
    writer := fun v hv => by cases hv
    written := fun v hv => by
      rcases List.mem_cons.1 hv with rfl | hv
      · exact hrest
      · exact h.written v hv }

/-- The process goes to sleep, or has woken up. -/
theorem Inv.setAsleep (h : s.Inv) (hw : s.writer = some w) (hpc : w.pc = .asleep) {b : Bool}
    (hchars : b = true → 256 ≤ s.writeQ.chars) : Inv { s with procList := b, asleep := b } :=
  { h with
    armed := fun h1 h2 => ⟨(h.armed h1 h2).on, (h.armed h1 h2).queue⟩
    asleep := fun hb => ⟨hb, hchars hb⟩
    procList := fun _ => ⟨w, hw, hpc⟩
    writer := fun v hv => ok_congr (h.writer v hv) rfl id rfl }

/-- The first half of `PUTCH`: the place is not in the queue yet. -/
theorem contents_store (q : Fifo 10 Byte) (c : Byte) : (store q c).contents = q.contents :=
  Fifo.contents_congr rfl rfl fun _ hk => Function.update_of_ne (Fifo.place_ne_head hk) _ _

theorem inc_eq {q : Fifo 10 Byte} {c : Byte} (h : q.buf q.head = c) : inc q c = q.putch c := by
  unfold inc Fifo.putch
  rw [← h, Function.update_eq_self]

theorem Inv.store (h : s.Inv) {d l : List Byte} {c : Byte} (hw : s.writer = some ⟨d, c :: l, .fill⟩)
    (hleft : s.writeQ.left ≠ 0) :
    ({ s with writeQ := store s.writeQ c }.setWriter ⟨d ++ [c], l, .stored c⟩).Inv :=
  { h with
    sound := ⟨h.sound.order.trans (congrArg _ (contents_store _ c).symm), h.sound.spoiled⟩
    given := by
      have hgiven := h.given
      unfold State.given at hgiven ⊢
      rw [hw] at hgiven
      show s.writeQ.log.reverse ++ [c] = s.written.reverse.flatMap Call.done ++ (d ++ [c])
      rw [← List.append_assoc]
      refine congrArg (· ++ [c]) ?_
      rw [← List.append_nil s.writeQ.log.reverse]
      exact hgiven
    armed := fun h1 h2 => ⟨(h.armed h1 h2).on, .inr (.inl ⟨_, rfl, trivial⟩)⟩
    procList := fun hp => by
      have hproc := h.not_procList hw fun hl => by cases hl
      rw [show s.procList = true from hp] at hproc
      cases hproc
    writer := fun v hv => by
      cases hv
      exact ⟨Function.update_self _ _ _, hleft⟩ }

theorem Inv.inc (h : s.Inv) (hh : s.handler = .off) {d l : List Byte} {c : Byte}
    (hw : s.writer = some ⟨d, l, .stored c⟩) :
    ({ s with writeQ := inc s.writeQ c }.setWriter ⟨d, l, .fill⟩).Inv := by
  obtain ⟨hbuf, hleft⟩ : s.writeQ.buf s.writeQ.head = c ∧ s.writeQ.left ≠ 0 := h.writer _ hw
  have hproc := h.not_procList hw fun hl => by cases hl
  have hasleep := h.not_asleep hproc
  rw [inc_eq hbuf]
  exact { h with
    sound := h.sound.putch hleft
    given := by
      have hgiven := h.given
      unfold State.given at hgiven ⊢
      rw [hw] at hgiven
      show (c :: s.writeQ.log).reverse ++ [] = s.written.reverse.flatMap Call.done ++ d
      rw [List.reverse_cons, List.append_nil]
      exact hgiven
    drained := fun hl => by
      rw [show s.handler = .writeBufferEmpty from hl] at hh
      cases hh
    armed := fun h1 h2 => ⟨(h.armed h1 h2).on, .inr (.inl ⟨_, rfl, trivial⟩)⟩
    asleep := fun ha => by
      rw [show s.asleep = true from ha] at hasleep
      cases hasleep
    procList := fun hp => by
      rw [show s.procList = true from hp] at hproc
      cases hproc
    writer := fun v hv => by
      cases hv
      trivial }

theorem rsWrite_writer : s.rsWrite.writer = s.writer := by
  unfold State.rsWrite
  split_ifs <;> rfl

theorem rsWrite_procList : s.rsWrite.procList = s.procList := by
  unfold State.rsWrite
  split_ifs <;> rfl

/-- `rs_write` enables the interrupt, which comes at once if nothing is being sent. -/
theorem Inv.rsWrite (h : s.Inv) (hh : s.handler = .off) : s.rsWrite.Inv ∧
    (s.rsWrite.writeQ.chars = 0 ∨ s.rsWrite.uart.ier = 0x0f) := by
  unfold State.rsWrite
  by_cases hempty : s.writeQ.isEmpty = true
  · rw [if_pos hempty]
    exact ⟨h, .inl (Fifo.isEmpty_iff.1 hempty)⟩
  rw [if_neg hempty]
  have hon : s.uart.ier ||| 2 = 0x0f := by
    rcases h.ier with hier | hier <;> rw [hier] <;> decide
  have harmed := h.armed (by rw [hh]; decide) (by rw [hh]; decide)
  refine ⟨{ h with
    ier := .inr hon
    empty := fun ht => ?_
    irq := irq_setUart h.irq
    transmits := fun hl => by rw [show s.handler = .writeChar from hl] at hh; cases hh
    armed := fun _ _ => ⟨fun _ => ?_, .inr (.inr hon)⟩ }, .inr hon⟩
  · -- an interrupt that comes at once comes as the register is empty
    change (s.uart.thre || ((s.uart.ier ||| 2).getLsbD 1 && !s.uart.ier.getLsbD 1 && s.uart.thr.isNone)) = true at ht
    rcases Bool.or_eq_true_iff.1 ht with ht | ht
    · exact h.empty ht
    · exact Option.isNone_iff_eq_none.1 (Bool.and_eq_true_iff.1 ht).2
  · show s.uart.thr ≠ none ∨ (s.uart.thre ||
      ((s.uart.ier ||| 2).getLsbD 1 && !s.uart.ier.getLsbD 1 && s.uart.thr.isNone)) = true
    rcases h.ier with hier | hier
    · by_cases hthr : s.uart.thr = none
      · refine .inr ?_
        rw [hier, hthr]
        simp
      · exact .inl hthr
    · refine (harmed.on hier).imp_right fun ht => ?_
      rw [ht, Bool.true_or]

theorem Inv.run (h : s.Inv) (hh : s.handler = .off) (hw : s.writer = some w) (hs : s.run w = some s') :
    s'.Inv := by
  have hok := h.writer w hw
  obtain ⟨d, l, pc⟩ := w
  cases pc with
  | loop =>
    have hproc := h.not_procList hw fun hl => by cases hl
    by_cases hl : l = []
    · subst hl
      cases hs
      exact h.finish hw hproc id rfl (.inl rfl)
    · have hs : some (s.setWriter ⟨d, l, .test⟩) = some s' := by
        rw [← hs]
        exact congrArg some (if_neg hl).symm
      cases hs
      exact h.setWriter hw rfl rfl hproc hl .inl
  | test =>
    have hproc := h.not_procList hw fun hl => by cases hl
    cases hs
    by_cases hfull : s.writeQ.isFull = true
    · rw [if_pos hfull]
      exact h.setWriter hw rfl rfl hproc hok .inl
    · rw [if_neg hfull]
      exact h.setWriter hw rfl rfl hproc ⟨hok, .inr fun h0 => hfull (Fifo.isFull_iff.2 h0)⟩ .inl
  | sleep =>
    have hproc := h.not_procList hw fun hl => by cases hl
    unfold State.run at hs
    dsimp only at hs
    split_ifs at hs with hcond
    · cases hs
      have hleft := of_decide_eq_true (Bool.and_eq_true_iff.1 hcond).2
      have hsum := Fifo.chars_add_left (q := s.writeQ)
      have hin : (s.setWriter ⟨d, l, .asleep⟩).Inv := h.setWriter hw rfl rfl hproc hok .inl
      exact hin.setAsleep rfl rfl fun _ => by show 256 ≤ s.writeQ.chars; omega
    · cases hs
      refine h.setWriter hw rfl rfl hproc ⟨hok, ?_⟩ .inl
      by_contra hnot
      obtain ⟨hsig, hleft⟩ := not_or.1 hnot
      rw [Bool.not_eq_true] at hsig
      have hleft0 : s.writeQ.left = 0 := not_not.1 hleft
      exact hcond (by rw [hsig, hleft0]; rfl)
  | asleep =>
    unfold State.run at hs
    dsimp only at hs
    split_ifs at hs
    cases hs
    have hin : Inv { s with procList := false, asleep := false } :=
      h.setAsleep hw rfl fun hb => by cases hb
    exact hin.setWriter hw rfl rfl rfl hok .inl
  | check =>
    have hproc := h.not_procList hw fun hl => by cases hl
    cases hs
    split_ifs
    · exact h.finish hw hproc id rfl (.inr rfl)
    · exact h.setWriter hw rfl rfl hproc trivial False.elim
  | fill =>
    have hproc := h.not_procList hw fun hl => by cases hl
    cases l with
    | nil =>
      cases hs
      exact h.setWriter hw rfl rfl hproc trivial .inl
    | cons c l =>
      unfold State.run at hs
      dsimp only at hs
      split_ifs at hs with hfull
      · cases hs
        exact h.setWriter hw rfl rfl hproc trivial .inl
      · cases hs
        exact h.store hw fun h0 => hfull (Fifo.isFull_iff.2 h0)
  | stored c =>
    cases hs
    exact h.inc hh hw
  | flush =>
    have hproc := h.not_procList hw fun hl => by cases hl
    cases hs
    obtain ⟨hin, hready⟩ := h.rsWrite hh
    exact hin.setWriter (rsWrite_writer.trans hw) rfl rfl (rsWrite_procList.trans hproc) trivial
      fun _ => .inr hready

/-- A step. -/
theorem Inv.next (h : s.Inv) {e : Event} (hs : s.next e = some s') : s'.Inv := by
  cases e with
  | write buf =>
    unfold State.next at hs
    dsimp only at hs
    split_ifs at hs with hidle
    obtain ⟨hh, hnone⟩ := hidle
    have hnone := Option.isNone_iff_eq_none.1 hnone
    cases hs
    have harmed := h.armed (by rw [hh]; decide) (by rw [hh]; decide)
    exact { h with
      given := by
        have hgiven := h.given
        unfold State.given at hgiven ⊢
        rw [hnone] at hgiven
        exact hgiven
      armed := fun _ _ => by
        refine ⟨harmed.on, harmed.queue.imp_right fun hor => .inr (hor.resolve_left ?_)⟩
        rintro ⟨v, hv, -⟩
        rw [hnone] at hv
        cases hv
      procList := fun hp => by
        obtain ⟨v, hv, -⟩ := h.procList hp
        rw [hnone] at hv
        cases hv
      writer := fun v hv => by
        cases hv
        trivial }
  | signal =>
    cases hs
    exact { h with
      armed := fun h1 h2 => ⟨(h.armed h1 h2).on, (h.armed h1 h2).queue⟩
      writer := fun v hv => by
        have hok := h.writer v hv
        obtain ⟨d, l, pc⟩ := v
        cases pc with
        | check => exact ⟨hok.1, .inl rfl⟩
        | loop | fill | flush => trivial
        | test | sleep | asleep => exact hok
        | stored c => exact hok }
  | clear =>
    unfold State.next at hs
    dsimp only at hs
    split_ifs at hs with hnone
    cases hs
    exact { h with
      armed := fun h1 h2 => ⟨(h.armed h1 h2).on, (h.armed h1 h2).queue⟩
      writer := fun v hv => by
        rw [show s.writer = some v from hv] at hnone
        cases hnone }
  | source k =>
    cases hs
    exact h.source k (.inr rfl)
  | move =>
    obtain ⟨u, hu, rfl⟩ := Option.map_eq_some_iff.1 hs
    exact h.move hu
  | emit =>
    obtain ⟨u, hu, rfl⟩ := Option.map_eq_some_iff.1 hs
    exact h.emit hu
  | drop =>
    unfold State.next at hs
    dsimp only at hs
    split_ifs at hs with hdrop
    cases hs
    have hint := (Bool.and_eq_true_iff.1 hdrop).2
    exact { h with
      irq := fun hi => by
        rw [show s.uart.int = true from hi] at hint
        cases hint
      armed := fun h1 h2 => ⟨(h.armed h1 h2).on, (h.armed h1 h2).queue⟩
      writer := fun v hv => ok_congr (h.writer v hv) rfl id rfl }
  | enter =>
    unfold State.next at hs
    dsimp only at hs
    split_ifs at hs with henter
    cases hs
    have hh := of_decide_eq_true (Bool.and_eq_true_iff.1 henter).2
    have harmed := h.armed (by rw [hh]; decide) (by rw [hh]; decide)
    exact { h with
      irq := fun _ => .inr (show Handler.Looping .repInt by decide)
      transmits := fun hl => by cases hl
      drained := fun hl => by cases hl
      asks := fun k hk => by cases k <;> cases hk
      armed := fun _ _ => ⟨harmed.on, harmed.queue⟩
      writer := fun v hv => ok_congr (h.writer v hv) rfl id rfl }
  | handle => exact h.handle hs
  | run =>
    unfold State.next at hs
    dsimp only at hs
    split_ifs at hs with hh
    obtain ⟨w, hw, hrun⟩ := Option.bind_eq_some_iff.1 hs
    exact h.run hh hw hrun

theorem boot_inv {thre : Bool} {buf : BitVec 10 → Byte} : (boot thre buf).Inv where
  sound := Fifo.sound_empty
  sent := rfl
  given := rfl
  ier := .inl rfl
  empty _ := rfl
  irq hi := by
    have hbit : (boot thre buf).uart.ier.getLsbD 1 = false := by
      show (0x0d : BitVec 8).getLsbD 1 = false
      decide
    rw [Uart.int_eq (.inl rfl), hbit, Bool.and_false] at hi
    cases hi
  transmits hl := by cases hl
  drained hl := by cases hl
  asks k hk := by cases k <;> cases hk
  armed _ _ := ⟨fun h0f => absurd (show (0x0d : BitVec 8) = 0x0f from h0f) (by decide),
    .inl (Fifo.contents_eq_nil.1 Fifo.contents_empty)⟩
  asleep ha := by cases ha
  procList hp := by cases hp
  writer v hv := by cases hv
  written v hv := by cases hv

end State

theorem reachable_inv {s : State} (h : serial.Reachable s) : s.Inv := by
  apply h.invariant
  · rintro s ⟨thre, buf, rfl⟩
    exact State.boot_inv
  · intro s e s' hs hstep
    exact hs.next hstep

/-! ## What is left to do -/

/-- Steps of the transmitter, the interrupt and the call that is being made. -/
def Event.internal : Event → Bool
  | .write _ | .signal | .clear | .source _ => false
  | _ => true

def Uart.work (u : Uart) : ℕ :=
  60 * u.thr.isSome.toNat + 10 * u.shift.isSome.toNat + 20 * u.thre.toNat +
    4 * ((u.asks .lineStatus).toNat + (u.asks .receiver).toNat + (u.asks .modemStatus).toNat)

def Handler.work : Handler → ℕ
  | .off => 0
  | .repInt => 2
  | .modemStatus | .readChar | .lineStatus | .done => 1
  | .writeChar => 21
  | .writeBufferEmpty => 14

def Call.work (w : Call) (s : State) : ℕ :=
  200 * w.rest.length +
    match w.pc with
    | .loop => 8
    | .test => 7
    | .sleep => 6
    | .asleep => if s.asleep && !s.signal then 5 else 7
    | .check => 2
    | .fill => if w.rest = [] ∨ s.writeQ.isFull = true then 50 else 1
    | .stored _ => 160
    | .flush => 39

/-- A bound for the number of internal steps. -/
def State.work (s : State) : ℕ :=
  s.uart.work + 8 * s.irq.toNat + s.handler.work + 100 * s.writeQ.chars +
    (s.writer.elim 0 fun w => w.work s)

namespace State

variable {s s' : State} {u : Uart} {w : Call}

/-- Without a new cause there is no edge. -/
theorem irq_same (h : u.int = true → s.uart.int = true) : (s.setUart u).irq = s.irq := by
  show (s.irq || (u.int && !s.uart.int)) = s.irq
  cases hu : u.int with
  | false => rw [Bool.false_and, Bool.or_false]
  | true => rw [h hu, Bool.not_true, Bool.and_false, Bool.or_false]

/-- There is a cause if there was one. -/
theorem int_mono (h : s.Inv) (u : Uart) (hier : u.ier = 0x0d ∨ u.ier = 0x0f)
    (hasks : ∀ k, u.asks k = true → s.uart.asks k = true)
    (hthre : (u.thre && u.ier.getLsbD 1) = true → (s.uart.thre && s.uart.ier.getLsbD 1) = true) :
    u.int = true → s.uart.int = true := by
  rw [Uart.int_eq hier, Uart.int_eq h.ier]
  simp only [Bool.or_eq_true]
  rintro (((hl | hr) | ht) | hm)
  · exact .inl (.inl (.inl (hasks _ hl)))
  · exact .inl (.inl (.inr (hasks _ hr)))
  · exact .inl (.inr (hthre ht))
  · exact .inr (hasks _ hm)

/-- What the registers and the interrupt have left to do, apart from the rest. -/
theorem work_lt_of (s s' : State) (hchars : s'.writeQ = s.writeQ) (hwriter : s'.writer = s.writer)
    (hasleep : s'.asleep = s.asleep) (hsignal : s'.signal = s.signal)
    (hlt : s'.uart.work + 8 * s'.irq.toNat + s'.handler.work < s.uart.work + 8 * s.irq.toNat + s.handler.work) :
    s'.work < s.work := by
  have hcall : (s'.writer.elim 0 fun w => w.work s') = s.writer.elim 0 fun w => w.work s := by
    unfold Call.work
    rw [hwriter, hasleep, hsignal, hchars]
  unfold State.work
  rw [hcall, hchars]
  omega

/-- A cause more. -/
theorem work_setUart (hlt : u.work + 8 < s.uart.work) : (s.setUart u).work < s.work := by
  apply work_lt_of s (s.setUart u) rfl rfl rfl rfl
  have hirq := Bool.toNat_le (s.setUart u).irq
  show u.work + 8 * (s.setUart u).irq.toNat + s.handler.work < _
  omega

/-- No cause more. -/
theorem work_setUart_same (hint : u.int = true → s.uart.int = true) (hlt : u.work < s.uart.work) :
    (s.setUart u).work < s.work := by
  apply work_lt_of s (s.setUart u) rfl rfl rfl rfl
  rw [irq_same hint]
  show u.work + _ + s.handler.work < _
  omega

theorem work_move (hu : s.uart.move = some u) : (s.setUart u).work < s.work := by
  apply work_setUart
  unfold Uart.move at hu
  split at hu
  · rename_i b hthr hshift
    have hu := Option.some.inj hu
    unfold Uart.work
    rw [← hu, hthr, hshift]
    simp only [Option.isSome_none, Option.isSome_some, Bool.toNat_true, Bool.toNat_false]
    omega
  · cases hu

theorem work_emit (h : s.Inv) (hu : s.uart.emit = some u) : (s.setUart u).work < s.work := by
  unfold Uart.emit at hu
  obtain ⟨b, hshift, hu⟩ := Option.map_eq_some_iff.1 hu
  have hint : u.int = true → s.uart.int = true := by
    rw [← hu]
    exact int_mono h { s.uart with shift := none, line := s.uart.line ++ [b] } h.ier (fun _ => id) id
  apply work_setUart_same hint
  unfold Uart.work
  rw [← hu, hshift]
  simp only [Option.isSome_none, Option.isSome_some, Bool.toNat_true, Bool.toNat_false]
  omega

/-- Another cause is dealt with. -/
theorem work_ack (h : s.Inv) (k : Source) (hk : s.uart.asks k = true) {l : Handler} (hl : l.work = 1)
    (hh : s.handler = l) : ((s.setUart (s.uart.setAsks k false)).setHandler .repInt).work < s.work := by
  apply work_lt_of s ((s.setUart (s.uart.setAsks k false)).setHandler .repInt) rfl rfl rfl rfl
  have hint : (s.uart.setAsks k false).int = true → s.uart.int = true := by
    refine int_mono h (s.uart.setAsks k false) h.ier ?_ id
    intro j hj
    change Function.update s.uart.asks k false j = true at hj
    rw [Function.update_apply] at hj
    split_ifs at hj
    exact hj
  show (s.uart.setAsks k false).work + 8 * (s.setUart (s.uart.setAsks k false)).irq.toNat + 2 < _
  rw [irq_same hint, hh, hl]
  have hless : (s.uart.setAsks k false).work + 4 = s.uart.work := by
    unfold Uart.work Uart.setAsks
    cases k <;> rw [hk] <;> simp <;> omega
  omega

/-- A cause is read. -/
theorem work_repInt (h : s.Inv) (hh : s.handler = .repInt) : ((s.setUart s.uart.readIir).setHandler
    (if s.uart.iir.getLsbD 0 || decide (6 < s.uart.iir) then .done else jmpTable s.uart.iir)).work < s.work := by
  have hint : s.uart.readIir.int = true → s.uart.int = true := by
    refine int_mono h s.uart.readIir h.ier (fun _ => id) fun ht => ?_
    obtain ⟨ht, hon⟩ := Bool.and_eq_true_iff.1 ht
    exact Bool.and_eq_true_iff.2 ⟨(Bool.and_eq_true_iff.1 ht).1, hon⟩
  refine work_lt_of s (s.setUart _ |>.setHandler _) rfl rfl rfl rfl ?_
  show s.uart.readIir.work + 8 * (s.setUart s.uart.readIir).irq.toNat + Handler.work (if s.uart.iir.getLsbD 0 ||
    decide (6 < s.uart.iir) then .done else jmpTable s.uart.iir) < _
  rw [irq_same hint, hh]
  have hsame : s.uart.iir ≠ 2 → s.uart.readIir.work = s.uart.work := by
    intro hne
    unfold Uart.readIir
    rw [decide_eq_false hne, Bool.not_false, Bool.and_true]
  rcases Uart.iir_cases h.ier with ⟨hiir, -⟩ | ⟨hiir, -⟩ | ⟨hiir, -⟩ | ⟨hiir, hthre, -⟩ | ⟨hiir, -⟩
  · rw [hsame (by rw [hiir]; decide), hiir]
    exact Nat.add_lt_add_left (by decide) _
  · rw [hsame (by rw [hiir]; decide), hiir]
    exact Nat.add_lt_add_left (by decide) _
  · rw [hsame (by rw [hiir]; decide), hiir]
    exact Nat.add_lt_add_left (by decide) _
  · -- the cause is gone once it is read
    have hless : s.uart.readIir.work + 20 = s.uart.work := by
      unfold Uart.work Uart.readIir
      rw [hiir, hthre]
      simp only [decide_true, Bool.not_true, Bool.and_false, Bool.toNat_false, Bool.toNat_true]
      omega
    have hnext : Handler.work (if s.uart.iir.getLsbD 0 || decide (6 < s.uart.iir) then .done
        else jmpTable s.uart.iir) = 21 := by
      rw [hiir]
      rfl
    rw [hnext]
    show s.uart.readIir.work + _ + 21 < s.uart.work + _ + 2
    omega
  · rw [hsame (by rw [hiir]; decide), hiir]
    exact Nat.add_lt_add_left (by decide) _

/-- What the call has left to do, whoever sleeps. -/
theorem call_work_le (w : Call) (hsignal : s'.signal = s.signal)
    (hfull : s'.writeQ.isFull = true → s.writeQ.isFull = true) : w.work s' ≤ w.work s + 2 := by
  obtain ⟨d, l, pc⟩ := w
  unfold Call.work
  cases pc with
  | asleep =>
    dsimp only
    rw [hsignal]
    split_ifs <;> omega
  | fill =>
    dsimp only
    by_cases hl : l = [] ∨ s.writeQ.isFull = true
    · rw [if_pos hl]
      split_ifs <;> omega
    · rw [if_neg hl, if_neg (fun hor => hl (hor.imp_right hfull))]
      omega
  | loop | test | sleep | check | stored c | flush => exact Nat.le_add_right _ 2

theorem elim_work_le (s s' : State) (hwriter : s'.writer = s.writer) (hsignal : s'.signal = s.signal)
    (hfull : s'.writeQ.isFull = true → s.writeQ.isFull = true) :
    (s'.writer.elim 0 fun w => w.work s') ≤ (s.writer.elim 0 fun w => w.work s) + 2 := by
  rw [hwriter]
  cases s.writer with
  | none => exact Nat.zero_le _
  | some w => exact call_work_le w hsignal hfull

theorem work_transmit (h : s.Inv) (hh : s.handler = .writeChar) (hne : s.writeQ.chars ≠ 0) {a : Bool} :
    let t := { s.setUart (s.uart.writeThr s.writeQ.first) with writeQ := s.writeQ.getch, asleep := a }
    (t.setHandler (if t.writeQ.isEmpty then .writeBufferEmpty else .repInt)).work < s.work := by
  intro t
  have hcall : (t.writer.elim 0 fun w => w.work t) ≤ (s.writer.elim 0 fun w => w.work s) + 2 := by
    refine elim_work_le s t rfl rfl fun hfull => ?_
    have h1 := Fifo.isFull_iff.1 hfull
    have h2 := Fifo.chars_add_left (q := s.writeQ)
    have h3 := Fifo.chars_add_left (q := s.writeQ.getch)
    have h4 := Fifo.chars_getch hne
    change s.writeQ.getch.left = 0 at h1
    exact Fifo.isFull_iff.2 (by omega)
  have hchars : t.writeQ.chars = s.writeQ.chars - 1 := Fifo.chars_getch hne
  have huart : (s.uart.writeThr s.writeQ.first).work ≤ s.uart.work + 60 := by
    unfold Uart.work Uart.writeThr
    rw [(h.transmits hh).1]
    simp only [Option.isSome_none, Option.isSome_some, Bool.toNat_true, Bool.toNat_false]
    omega
  have hirq : t.irq.toNat ≤ 1 := Bool.toNat_le _
  have hnext : Handler.work (if t.writeQ.isEmpty then .writeBufferEmpty else .repInt) ≤ 14 := by
    split_ifs <;> decide
  unfold State.work
  rw [hh]
  show (s.uart.writeThr s.writeQ.first).work + 8 * t.irq.toNat +
    Handler.work (if t.writeQ.isEmpty then .writeBufferEmpty else .repInt) + 100 * t.writeQ.chars +
    (t.writer.elim 0 fun w => w.work t) < s.uart.work + 8 * s.irq.toNat + 21 + _ + _
  omega

theorem work_disable (h : s.Inv) (hh : s.handler = .writeBufferEmpty) :
    ((s.wake.setUart (s.uart.writeIer (s.uart.ier &&& 0x0d))).setHandler .repInt).work < s.work := by
  have hcall : (s.wake.writer.elim 0 fun w => w.work s.wake) ≤ (s.writer.elim 0 fun w => w.work s) + 2 :=
    elim_work_le s s.wake rfl rfl id
  have huart : (s.uart.writeIer (s.uart.ier &&& 0x0d)).work = s.uart.work := by
    unfold Uart.work Uart.writeIer
    rw [ier_masked h.ier]
    simp
  have hirq := Bool.toNat_le (s.wake.setUart (s.uart.writeIer (s.uart.ier &&& 0x0d))).irq
  unfold State.work
  rw [hh]
  show (s.uart.writeIer (s.uart.ier &&& 0x0d)).work + 8 *
    (s.wake.setUart (s.uart.writeIer (s.uart.ier &&& 0x0d))).irq.toNat + 2 + 100 * s.writeQ.chars +
    (s.wake.writer.elim 0 fun w => w.work s.wake) < s.uart.work + 8 * s.irq.toNat + 14 + _ + _
  omega

theorem work_handle (h : s.Inv) (hs : s.handle = some s') : s'.work < s.work := by
  unfold State.handle at hs
  cases hh : s.handler with
  | off =>
    rw [hh] at hs
    cases hs
  | repInt =>
    rw [hh] at hs
    cases hs
    exact work_repInt h hh
  | modemStatus =>
    rw [hh] at hs
    cases hs
    exact work_ack h .modemStatus (h.asks _ hh) rfl hh
  | readChar =>
    rw [hh] at hs
    cases hs
    exact work_ack h .receiver (h.asks _ hh) rfl hh
  | lineStatus =>
    rw [hh] at hs
    cases hs
    exact work_ack h .lineStatus (h.asks _ hh) rfl hh
  | writeChar =>
    rw [hh] at hs
    dsimp only at hs
    by_cases h0 : s.writeQ.chars = 0
    · rw [if_pos h0] at hs
      cases hs
      apply work_lt_of s (s.setHandler .writeBufferEmpty) rfl rfl rfl rfl
      rw [hh]
      exact Nat.add_lt_add_left (show 14 < 21 by decide) _
    rw [if_neg h0] at hs
    by_cases hmany : 256 < s.writeQ.chars
    · rw [if_pos hmany] at hs
      cases hs
      exact work_transmit h hh h0
    · rw [if_neg hmany] at hs
      cases hs
      exact work_transmit h hh h0
  | writeBufferEmpty =>
    rw [hh] at hs
    cases hs
    exact work_disable h hh
  | done =>
    rw [hh] at hs
    cases hs
    apply work_lt_of s (s.setHandler .off) rfl rfl rfl rfl
    rw [hh]
    exact Nat.add_lt_add_left (show 0 < 1 by decide) _

/-- The call goes on. -/
theorem work_setWriter {w' : Call} (hw : s.writer = some w) (hlt : w'.work s < w.work s) :
    (s.setWriter w').work < s.work := by
  unfold State.work
  rw [hw]
  exact Nat.add_lt_add_left hlt _

theorem work_rsWrite (s : State) : s.rsWrite.uart.work + 8 * s.rsWrite.irq.toNat ≤
    s.uart.work + 8 * s.irq.toNat + 28 := by
  unfold State.rsWrite
  split_ifs
  · omega
  · have hirq := Bool.toNat_le (s.setUart (s.uart.writeIer (s.uart.ier ||| 2))).irq
    have huart : (s.uart.writeIer (s.uart.ier ||| 2)).work ≤ s.uart.work + 20 := by
      have hthre := Bool.toNat_le (s.uart.writeIer (s.uart.ier ||| 2)).thre
      show 60 * s.uart.thr.isSome.toNat + 10 * s.uart.shift.isSome.toNat +
        20 * (s.uart.writeIer (s.uart.ier ||| 2)).thre.toNat + 4 * ((s.uart.asks .lineStatus).toNat +
        (s.uart.asks .receiver).toNat + (s.uart.asks .modemStatus).toNat) ≤ s.uart.work + 20
      unfold Uart.work
      omega
    show (s.uart.writeIer (s.uart.ier ||| 2)).work + 8 *
      (s.setUart (s.uart.writeIer (s.uart.ier ||| 2))).irq.toNat ≤ _
    omega

theorem work_run (h : s.Inv) (hw : s.writer = some w) (hs : s.run w = some s') : s'.work < s.work := by
  have hok := h.writer w hw
  obtain ⟨d, l, pc⟩ := w
  cases pc with
  | loop =>
    by_cases hl : l = []
    · subst hl
      cases hs
      unfold State.work
      rw [hw]
      exact Nat.add_lt_add_left (show 0 < 0 + 8 by decide) _
    · have hs : some (s.setWriter ⟨d, l, .test⟩) = some s' := by
        rw [← hs]
        exact congrArg some (if_neg hl).symm
      cases hs
      exact work_setWriter hw (Nat.add_lt_add_left (show 7 < 8 by decide) _)
  | test =>
    cases hs
    apply work_setWriter hw
    split_ifs
    · exact Nat.add_lt_add_left (show 6 < 7 by decide) _
    · exact Nat.add_lt_add_left (show 2 < 7 by decide) _
  | sleep =>
    unfold State.run at hs
    dsimp only at hs
    split_ifs at hs with hcond
    · cases hs
      have hsignal := (Bool.and_eq_true_iff.1 hcond).1
      unfold State.work
      rw [hw]
      refine Nat.add_lt_add_left ?_ _
      show 200 * l.length + (if true && !s.signal then 5 else 7) < 200 * l.length + 6
      rw [hsignal]
      exact Nat.add_lt_add_left (show 5 < 6 by decide) _
    · cases hs
      exact work_setWriter hw (Nat.add_lt_add_left (show 2 < 6 by decide) _)
  | asleep =>
    unfold State.run at hs
    dsimp only at hs
    split_ifs at hs with hcond
    cases hs
    unfold State.work
    rw [hw]
    refine Nat.add_lt_add_left ?_ _
    show 200 * l.length + 6 < 200 * l.length + if s.asleep && !s.signal then 5 else 7
    rw [if_neg hcond]
    exact Nat.lt_succ_self _
  | check =>
    cases hs
    by_cases hsignal : s.signal = true
    · rw [if_pos hsignal]
      unfold State.work
      rw [hw]
      exact Nat.add_lt_add_left (Nat.lt_add_left _ (show 0 < 2 by decide)) _
    · rw [if_neg hsignal]
      apply work_setWriter hw
      have hfull : s.writeQ.isFull ≠ true := fun hf => hok.2.resolve_left hsignal (Fifo.isFull_iff.1 hf)
      show 200 * l.length + (if l = [] ∨ s.writeQ.isFull = true then 50 else 1) < 200 * l.length + 2
      rw [if_neg (not_or.2 ⟨hok.1, hfull⟩)]
      exact Nat.lt_succ_self _
  | fill =>
    have hflush : (l = [] ∨ s.writeQ.isFull = true) → (s.setWriter ⟨d, l, .flush⟩).work < s.work := by
      intro hor
      apply work_setWriter hw
      show 200 * l.length + 39 < 200 * l.length + if l = [] ∨ s.writeQ.isFull = true then 50 else 1
      rw [if_pos hor]
      exact Nat.add_lt_add_left (by decide) _
    cases l with
    | nil =>
      cases hs
      exact hflush (.inl rfl)
    | cons c l =>
      unfold State.run at hs
      dsimp only at hs
      split_ifs at hs with hfull
      · cases hs
        exact hflush (.inr hfull)
      · cases hs
        unfold State.work
        rw [hw]
        refine Nat.add_lt_add_left ?_ _
        show 200 * l.length + 160 < 200 * (l.length + 1) + _
        omega
  | stored c =>
    cases hs
    have hchars : (inc s.writeQ c).chars = s.writeQ.chars + 1 := by
      rw [inc_eq hok.1]
      exact Fifo.chars_putch hok.2
    unfold State.work
    rw [hw]
    show s.uart.work + 8 * s.irq.toNat + s.handler.work + 100 * (inc s.writeQ c).chars +
      (200 * l.length + if l = [] ∨ (inc s.writeQ c).isFull = true then 50 else 1) <
      s.uart.work + 8 * s.irq.toNat + s.handler.work + 100 * s.writeQ.chars + (200 * l.length + 160)
    rw [hchars]
    split_ifs <;> omega
  | flush =>
    cases hs
    have hline := work_rsWrite s
    have hrest : s.rsWrite.handler = s.handler ∧ s.rsWrite.writeQ = s.writeQ := by
      unfold State.rsWrite
      split_ifs <;> exact ⟨rfl, rfl⟩
    unfold State.work
    rw [hw]
    show s.rsWrite.uart.work + 8 * s.rsWrite.irq.toNat + s.rsWrite.handler.work +
      100 * s.rsWrite.writeQ.chars + (200 * l.length + 8) < _ + 100 * s.writeQ.chars + (200 * l.length + 39)
    rw [hrest.1, hrest.2]
    omega

/-- Each step leaves less to do. -/
theorem work_lt (h : s.Inv) {e : Event} (he : e.internal = true) (hs : s.next e = some s') :
    s'.work < s.work := by
  cases e with
  | write buf => cases he
  | signal => cases he
  | clear => cases he
  | source k => cases he
  | move =>
    obtain ⟨u, hu, rfl⟩ := Option.map_eq_some_iff.1 hs
    exact work_move hu
  | emit =>
    obtain ⟨u, hu, rfl⟩ := Option.map_eq_some_iff.1 hs
    exact work_emit h hu
  | drop =>
    unfold State.next at hs
    dsimp only at hs
    split_ifs at hs with hdrop
    cases hs
    have hirq := (Bool.and_eq_true_iff.1 hdrop).1
    apply work_lt_of s { s with irq := false } rfl rfl rfl rfl
    show s.uart.work + 8 * 0 + s.handler.work < _
    rw [hirq, Bool.toNat_true]
    omega
  | enter =>
    unfold State.next at hs
    dsimp only at hs
    split_ifs at hs with henter
    cases hs
    obtain ⟨hirq, hh⟩ := Bool.and_eq_true_iff.1 henter
    apply work_lt_of s { s with irq := false, handler := .repInt } rfl rfl rfl rfl
    show s.uart.work + 8 * 0 + 2 < _
    rw [hirq, Bool.toNat_true]
    omega
  | handle => exact work_handle h hs
  | run =>
    unfold State.next at hs
    dsimp only at hs
    split_ifs at hs
    obtain ⟨w, hw, hrun⟩ := Option.bind_eq_some_iff.1 hs
    exact work_run h hw hrun

/-! ## Nothing is left out -/

/-- What the call has not taken from its buffer. -/
def pending (s : State) : List Byte := s.writer.elim [] Call.rest

/-- What the calls have taken and are still to take. -/
def asked (s : State) : List Byte := s.given ++ s.pending

theorem asked_setWriter (t : State) {w' : Call} (hw : s.writer = some w) (hwritten : t.written = s.written)
    (hbuf : w'.done ++ w'.rest = w.done ++ w.rest) : (t.setWriter w').asked = s.asked := by
  unfold asked pending State.given
  rw [hw]
  show t.written.reverse.flatMap Call.done ++ w'.done ++ w'.rest =
    s.written.reverse.flatMap Call.done ++ w.done ++ w.rest
  rw [List.append_assoc, hbuf, hwritten, List.append_assoc]

/-- Without a signal, a call takes all of its buffer. -/
theorem asked_run (hw : s.writer = some w) (hsignal : s.signal = false) (hs : s.run w = some s') :
    s'.asked = s.asked := by
  obtain ⟨d, l, pc⟩ := w
  cases pc with
  | loop =>
    by_cases hl : l = []
    · subst hl
      cases hs
      unfold asked pending State.given
      rw [hw]
      show (⟨d, [], .loop⟩ :: s.written).reverse.flatMap Call.done ++ [] ++ [] =
        s.written.reverse.flatMap Call.done ++ d ++ []
      simp
    · have hs : some (s.setWriter ⟨d, l, .test⟩) = some s' := by
        rw [← hs]
        exact congrArg some (if_neg hl).symm
      cases hs
      exact asked_setWriter s hw rfl rfl
  | test =>
    cases hs
    exact asked_setWriter s hw rfl rfl
  | sleep =>
    unfold State.run at hs
    dsimp only at hs
    split_ifs at hs
    · cases hs
      exact asked_setWriter _ hw rfl rfl
    · cases hs
      exact asked_setWriter s hw rfl rfl
  | asleep =>
    unfold State.run at hs
    dsimp only at hs
    split_ifs at hs
    cases hs
    exact asked_setWriter _ hw rfl rfl
  | check =>
    cases hs
    rw [if_neg (by rw [hsignal]; decide)]
    exact asked_setWriter s hw rfl rfl
  | fill =>
    cases l with
    | nil =>
      cases hs
      exact asked_setWriter s hw rfl rfl
    | cons c l =>
      unfold State.run at hs
      dsimp only at hs
      split_ifs at hs
      · cases hs
        exact asked_setWriter s hw rfl rfl
      · cases hs
        exact asked_setWriter _ hw rfl (List.append_assoc d [c] l)
  | stored c =>
    cases hs
    exact asked_setWriter _ hw rfl rfl
  | flush =>
    cases hs
    refine asked_setWriter s.rsWrite hw ?_ rfl
    unfold State.rsWrite
    split_ifs <;> rfl

theorem run_signal (hs : s.run w = some s') : s'.signal = s.signal := by
  obtain ⟨d, l, pc⟩ := w
  cases pc with
  | loop | check =>
    cases hs
    split_ifs <;> rfl
  | test | stored c =>
    cases hs
    rfl
  | sleep =>
    unfold State.run at hs
    dsimp only at hs
    split_ifs at hs <;> cases hs <;> rfl
  | asleep =>
    unfold State.run at hs
    dsimp only at hs
    split_ifs at hs
    cases hs
    rfl
  | fill =>
    cases l with
    | nil =>
      cases hs
      rfl
    | cons c l =>
      unfold State.run at hs
      dsimp only at hs
      split_ifs at hs <;> cases hs <;> rfl
  | flush =>
    cases hs
    show s.rsWrite.signal = s.signal
    unfold State.rsWrite
    split_ifs <;> rfl

/-- The interrupt leaves the call alone. -/
theorem handle_frame (hs : s.handle = some s') :
    s'.writer = s.writer ∧ s'.written = s.written ∧ s'.signal = s.signal := by
  unfold State.handle at hs
  cases hh : s.handler with
  | writeChar =>
    rw [hh] at hs
    dsimp only at hs
    split_ifs at hs <;> cases hs <;> exact ⟨rfl, rfl, rfl⟩
  | off | repInt | modemStatus | readChar | lineStatus | writeBufferEmpty | done =>
    rw [hh] at hs
    cases hs <;> exact ⟨rfl, rfl, rfl⟩

theorem next_asked {e : Event} (he : e.internal = true) (hs : s.next e = some s') :
    s'.signal = s.signal ∧ (s.signal = false → s'.asked = s.asked) := by
  cases e with
  | write buf => cases he
  | signal => cases he
  | clear => cases he
  | source k => cases he
  | move =>
    obtain ⟨u, -, rfl⟩ := Option.map_eq_some_iff.1 hs
    exact ⟨rfl, fun _ => rfl⟩
  | emit =>
    obtain ⟨u, -, rfl⟩ := Option.map_eq_some_iff.1 hs
    exact ⟨rfl, fun _ => rfl⟩
  | drop =>
    unfold State.next at hs
    dsimp only at hs
    split_ifs at hs
    cases hs
    exact ⟨rfl, fun _ => rfl⟩
  | enter =>
    unfold State.next at hs
    dsimp only at hs
    split_ifs at hs
    cases hs
    exact ⟨rfl, fun _ => rfl⟩
  | handle =>
    obtain ⟨hwriter, hwritten, hsignal⟩ := handle_frame hs
    refine ⟨hsignal, fun _ => ?_⟩
    unfold asked pending State.given
    rw [hwriter, hwritten]
  | run =>
    unfold State.next at hs
    dsimp only at hs
    split_ifs at hs
    obtain ⟨w, hw, hrun⟩ := Option.bind_eq_some_iff.1 hs
    exact ⟨run_signal hrun, fun hsignal => asked_run hw hsignal hrun⟩

/-! ## Where no step can follow -/

theorem stuck_run (hok : w.Ok s) (hs : s.run w = none) : w.pc = .asleep ∧ s.asleep = true := by
  obtain ⟨d, l, pc⟩ := w
  cases pc with
  | loop => cases hs
  | test => cases hs
  | sleep =>
    unfold State.run at hs
    dsimp only at hs
    split_ifs at hs
  | asleep =>
    unfold State.run at hs
    dsimp only at hs
    split_ifs at hs with hcond
    exact ⟨rfl, (Bool.and_eq_true_iff.1 hcond).1⟩
  | check => cases hs
  | fill =>
    cases l with
    | nil => cases hs
    | cons c l =>
      unfold State.run at hs
      dsimp only at hs
      split_ifs at hs
  | stored c => cases hs
  | flush => cases hs

theorem stuck_handle (hs : s.handle = none) : s.handler = .off := by
  unfold State.handle at hs
  cases hh : s.handler with
  | off => rfl
  | writeChar =>
    rw [hh] at hs
    dsimp only at hs
    split_ifs at hs
  | repInt | modemStatus | readChar | lineStatus | writeBufferEmpty | done =>
    rw [hh] at hs
    cases hs

/-- Then everything has been sent. -/
theorem Inv.stuck (h : s.Inv) (hs : ∀ e : Event, e.internal = true → s.next e = none) :
    s.writer = none ∧ s.uart.line = s.given := by
  have hshift : s.uart.shift = none :=
    Option.map_eq_none_iff.1 (Option.map_eq_none_iff.1 (hs .emit rfl))
  have hthr : s.uart.thr = none := by
    have hmove : s.uart.move = none := Option.map_eq_none_iff.1 (hs .move rfl)
    unfold Uart.move at hmove
    rw [hshift] at hmove
    cases hthr : s.uart.thr with
    | none => rfl
    | some b =>
      rw [hthr] at hmove
      cases hmove
  have hoff : s.handler = .off := stuck_handle (hs .handle rfl)
  have hirq : s.irq = false := by
    have henter := hs .enter rfl
    unfold State.next at henter
    dsimp only at henter
    split_ifs at henter with hcond
    rw [hoff, decide_eq_true rfl, Bool.and_true, Bool.not_eq_true] at hcond
    exact hcond
  have hint : s.uart.int = false := by
    by_contra hne
    rcases h.irq (Bool.of_not_eq_false hne) with hi | hloop
    · rw [hirq] at hi
      cases hi
    · exact hloop.1 hoff
  have hrun : ∀ w, s.writer = some w → w.pc = .asleep ∧ s.asleep = true := by
    intro w hw
    have hr := hs .run rfl
    unfold State.next at hr
    dsimp only at hr
    rw [if_pos hoff, hw] at hr
    exact stuck_run (h.writer w hw) hr
  have harmed := h.armed (by rw [hoff]; decide) (by rw [hoff]; decide)
  have hchars : s.writeQ.chars = 0 := by
    rcases harmed.queue with h0 | ⟨w, hw, howes⟩ | hier
    · exact h0
    · unfold Call.Owes at howes
      rw [(hrun w hw).1] at howes
      exact howes.elim
    · -- the empty register would ask for an interrupt
      have hthre := (harmed.on hier).resolve_left (not_not.2 hthr)
      rw [Uart.int_eq h.ier, hthre, hier] at hint
      simp at hint
  have hwriter : s.writer = none := by
    cases hw : s.writer with
    | none => rfl
    | some w =>
      have := (h.asleep (hrun w hw).2).2
      omega
  refine ⟨hwriter, ?_⟩
  have hsent := h.sent
  have hgiven := h.given
  have hlog : s.writeQ.log.reverse = s.writeQ.taken.reverse ++ s.writeQ.contents := h.sound.order
  rw [hshift, hthr] at hsent
  rw [hwriter, hlog, Fifo.contents_eq_nil.2 hchars] at hgiven
  calc s.uart.line = s.uart.line ++ [] ++ [] := by rw [List.append_nil, List.append_nil]
    _ = s.writeQ.taken.reverse := hsent
    _ = s.writeQ.taken.reverse ++ [] ++ [] := by rw [List.append_nil, List.append_nil]
    _ = s.given := hgiven

end State

/-- A byte goes the way of all bytes: through the queue, the holding register and the transmitter, in
order. A call that returns before it has taken its whole buffer has found a signal. The transmitter, the
interrupt and the call take no more than `s.work` steps, in whatever order, and where they can take no
more the call has returned and all is sent; without a signal, all that was asked for. -/
theorem serial_drains {s : State} (h : serial.Reachable s) :
    s.uart.line ++ s.uart.shift.toList ++ s.uart.thr.toList ++ s.writeQ.contents ++
      s.writer.elim [] Call.stored = s.given ∧
    (∀ w ∈ s.written, w.rest = [] ∨ w.pc = .check) ∧
    ∀ es s', System.execWhen State.next (fun _ e => e.internal = true) s es = some s' →
      es.length ≤ s.work ∧
      ((∀ e : Event, e.internal = true → s'.next e = none) →
        s'.writer = none ∧ s'.uart.line = s'.given ∧ (s.signal = false → s'.uart.line = s.asked)) := by
  have hinv := reachable_inv h
  refine ⟨?_, hinv.written, fun es s' hes => ?_⟩
  · have horder : s.writeQ.log.reverse = s.writeQ.taken.reverse ++ s.writeQ.contents := hinv.sound.order
    rw [hinv.sent, ← horder]
    exact hinv.given
  obtain ⟨⟨hinv', hsignal, hasked⟩, hwork⟩ := System.execWhen_length
    (I := fun t => t.Inv ∧ t.signal = s.signal ∧ (s.signal = false → t.asked = s.asked)) (m := State.work)
    (fun t e t' ht he hs => by
      obtain ⟨hkept, hasked⟩ := State.next_asked he hs
      exact ⟨⟨ht.1.next hs, hkept.trans ht.2.1, fun h0 =>
        (hasked (ht.2.1.trans h0)).trans (ht.2.2 h0)⟩, State.work_lt ht.1 he hs⟩)
    ⟨hinv, rfl, fun _ => rfl⟩ hes
  refine ⟨by omega, fun hstuck => ?_⟩
  obtain ⟨hnone, hline⟩ := hinv'.stuck hstuck
  refine ⟨hnone, hline, fun h0 => ?_⟩
  rw [hline, ← hasked h0]
  unfold State.asked State.pending
  rw [hnone]
  exact (List.append_nil _).symm

/-- A call of `tty_write` with one byte. -/
def letter : State := (State.boot false fun _ => 0).setWriter ⟨[], [65], .loop⟩

def letterRun : List Event :=
  List.replicate 8 .run ++ [.enter] ++ List.replicate 5 .handle ++ [.move, .emit]

theorem serial_drains_letter : ∃ s', System.execWhen State.next (fun _ e => e.internal = true) letter
    letterRun = some s' ∧ letterRun.length ≤ letter.work ∧ s'.writer = none ∧ s'.uart.line = [65] := by
  have hinit : serial.init (State.boot false fun _ => 0) := ⟨false, _, rfl⟩
  have hstep : serial.step (State.boot false fun _ => 0) (.write [65]) letter := by
    unfold serial State.next
    exact if_pos ⟨rfl, rfl⟩
  obtain ⟨-, -, hruns⟩ := serial_drains ((System.Reachable.start hinit).next hstep)
  have hends : (System.execWhen State.next (fun _ e => e.internal = true) letter letterRun).isSome = true := by
    decide +kernel
  obtain ⟨s', hs'⟩ := Option.isSome_iff_exists.1 hends
  have hnone : ∀ e ∈ [Event.move, .emit, .drop, .enter, .handle, .run],
      ((System.execWhen State.next (fun _ e => e.internal = true) letter letterRun).bind fun s =>
        s.next e).isNone = true := by
    decide +kernel
  obtain ⟨hlength, hdrained⟩ := hruns letterRun s' hs'
  obtain ⟨hwriter, -, hline⟩ := hdrained fun e he => by
    have hmem : e ∈ [Event.move, .emit, .drop, .enter, .handle, .run] := by
      cases e <;> first | decide | cases he
    have hstuck := hnone e hmem
    rw [hs'] at hstuck
    exact Option.isNone_iff_eq_none.1 hstuck
  exact ⟨s', hs', hlength, hwriter, hline rfl⟩

end Linux011.Serial
