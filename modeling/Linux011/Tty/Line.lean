import Linux011.Lib.CallStack
import Linux011.Lib.Fifo
import Linux011.Lib.Sizes
import Linux011.Lib.Transition
import Linux011.Tty.Write

/-!
# Terminals

`kernel/chr_drv/tty_io.c`, and what it uses of `tty_ioctl.c`, `console.c`, `serial.c` and `rs_io.s`. A
process or an interrupt is a stack of frames, and the running one takes a turn of one of its loops at a
time. An interrupt comes between two turns. Processes change only where the code sleeps, or calls
`schedule`, or is back in user mode; `get_fs_byte` and `put_fs_byte` sleep where the page is not there, or
end the process.

1. `Termios`, `TtyStruct`, `Frame`, `State`. What is only remembered is said to be so.
2. `cookTurn`: a turn of `copy_to_cooked`. `State.conTurn`: one of `con_write`.
3. `State.readTurn`, `State.writeTurn`. `State.next`, `lines`. `boot`.
-/

namespace Linux011.Tty

abbrev Byte := BitVec 8

abbrev Queue := Fifo 10 Byte

/-- The console and two serial lines. -/
abbrev Nr := Fin 3

structure Termios where
  cIflag : BitVec 32
  cOflag : BitVec 32
  cCflag : BitVec 32
  cLflag : BitVec 32
  cLine : Byte
  cCc : Fin 17 → Byte

def inlcr : BitVec 32 := 0o100
def igncr : BitVec 32 := 0o200
def icrnl : BitVec 32 := 0o400
def iuclc : BitVec 32 := 0o1000

def opost : BitVec 32 := 0o1
def olcuc : BitVec 32 := 0o2
def onlcr : BitVec 32 := 0o4
def ocrnl : BitVec 32 := 0o10
def onlret : BitVec 32 := 0o40

def b2400 : BitVec 32 := 0o13
def cs8 : BitVec 32 := 0o60

def isig : BitVec 32 := 0o1
def icanon : BitVec 32 := 0o2
def echo : BitVec 32 := 0o10
def echoctl : BitVec 32 := 0o1000
def echoke : BitVec 32 := 0o4000

def vintr : Fin 17 := 0
def vquit : Fin 17 := 1
def verase : Fin 17 := 2
def vkill : Fin 17 := 3
def veof : Fin 17 := 4
def vtime : Fin 17 := 5
def vmin : Fin 17 := 6
def vstart : Fin 17 := 8
def vstop : Fin 17 := 9

/-- `struct tty_struct`, without `pgrp`. -/
structure TtyStruct where
  termios : Termios
  stopped : Bool
  readQ : Queue
  writeQ : Queue
  secondary : Queue
  /-- `secondary.data` -/
  data : BitVec 32
  /-- Remembered: what was put on `write_q`, and which call of `tty_write` has put it there. -/
  puts : List (Option ℕ × Byte)

/-- Where a `copy_to_cooked` is. -/
inductive CookPc
  /-- At its loop. -/
  | loop
  /-- At the loop that kills the line. -/
  | kill
  /-- Before `DEC(tty->secondary.head)` in that loop. -/
  | killed
  /-- The same for a single character. -/
  | erased
  /-- Before `PUTCH(c,tty->secondary)`. -/
  | store (c : Byte)
  deriving DecidableEq

/-- The variables of a `tty_read`. -/
structure Reading where
  tty : Nr
  nr : ℕ
  minimum : ℕ
  /-- What is in the buffer so far. -/
  bytes : List Byte
  /-- Remembered: for each character taken, the settings, and what was on `secondary`, beginning with it. -/
  taken : List (Termios × List Byte)

inductive ReadPc
  /-- At the outer loop. -/
  | loop
  /-- In `sleep_if_empty`. -/
  | sleep
  | asleep
  /-- After `put_fs_byte`, at the end of a turn of the inner loop. -/
  | inner
  deriving DecidableEq

/-- The variables of a `tty_write`. -/
structure Writing where
  /-- Remembered: the number of the call. -/
  call : ℕ
  tty : Nr
  buf : List Byte
  /-- From `b` to the end of the buffer. -/
  rest : List Byte
  /-- What is before `b`. -/
  done : List Byte
  /-- Remembered: the carriage return of a newline is out, and the newline is not. -/
  half : Bool

inductive WritePc
  /-- At the outer loop. -/
  | loop
  /-- In `sleep_if_full`. -/
  | sleep
  | asleep
  /-- At the test of the inner loop. -/
  | fill
  /-- After it, in `get_fs_byte`. -/
  | fetch
  /-- After it. -/
  | flush
  /-- After `tty->write(tty)`. -/
  | written
  /-- In `schedule`. -/
  | resched
  deriving DecidableEq

inductive Frame
  | cook (i : Nr) (pc : CookPc)
  /-- With the characters it has still to take. -/
  | conWrite (nr : ℕ)
  | read (r : Reading) (pc : ReadPc)
  | write (w : Writing) (pc : WritePc)

structure State where
  tty : Nr → TtyStruct
  con : Console
  /-- The static `cr_flag` of `tty_write`. -/
  crFlag : Bool
  /-- What is in memory before `_ctype`. -/
  below : Byte → Byte
  stack : ℕ → List Frame
  /-- The process that runs. -/
  cur : ℕ
  /-- Remembered: the calls of `tty_read` that have returned. -/
  returned : List Reading
  /-- Remembered: how many calls of `tty_write` there were, and those that have returned. -/
  calls : ℕ
  written : List Writing

/-! ## Characters -/

/-- `(_ctype+1)[c] & (_U|_L)`, for a `char` that is signed. -/
def ctype (below : Byte → Byte) (c : Byte) : Byte :=
  if c.toInt < -1 then below c
  else if 65 ≤ c.toInt ∧ c.toInt ≤ 90 then 1
  else if 97 ≤ c.toInt ∧ c.toInt ≤ 122 then 2
  else 0

def tolower (below : Byte → Byte) (c : Byte) : Byte :=
  if ctype below c &&& 1 ≠ 0 then c + 32 else c

def toupper (below : Byte → Byte) (c : Byte) : Byte :=
  if ctype below c &&& 2 ≠ 0 then c - 32 else c

namespace Termios

variable (t : Termios)

def i (f : BitVec 32) : Bool := t.cIflag &&& f != 0

def o (f : BitVec 32) : Bool := t.cOflag &&& f != 0

def l (f : BitVec 32) : Bool := t.cLflag &&& f != 0

/-- A `char` is signed, and `c_cc` is not. -/
def isCc (k : Fin 17) (c : Byte) : Bool := c.toInt == (t.cCc k).toNat

/-- `c==10 || c==EOF_CHAR(tty)`. -/
def ends (c : Byte) : Bool := c == 10 || t.isCc veof c

/-- The rules of `c_iflag`, which ignore some characters. -/
def input (below : Byte → Byte) (c : Byte) : Option Byte :=
  let c :=
    if c = 13 then if t.i icrnl then some 10 else if t.i igncr then none else some c
    else if c = 10 ∧ t.i inlcr then some 13
    else some c
  c.map fun c => if t.i iuclc then tolower below c else c

/-- The rules of `c_oflag`, but for those that may put something before the character. -/
def outputChar (c : Byte) : Byte :=
  if t.o opost then
    if c = 13 ∧ t.o ocrnl then 10 else if c = 10 ∧ t.o onlret then 13 else c
  else c

/-- What is echoed for a character that is taken back. -/
def rubout (c : Byte) : List Byte :=
  if t.l echo then if c.toInt < 32 then [127, 127] else [127] else []

/-- What is echoed for another. -/
def echoOf (c : Byte) : List Byte :=
  if t.l echo then
    if c = 10 then [10, 13]
    else if c.toInt < 32 then if t.l echoctl then [94, c + 64] else []
    else [c]
  else []

end Termios

/-! ## `copy_to_cooked` -/

/-- What a turn of `copy_to_cooked` does. -/
structure Turn where
  tty : TtyStruct
  /-- What it puts on `write_q`; with `ECHO`, it calls `tty->write` then. -/
  echo : List Byte
  /-- Where it goes on. -/
  next : Option CookPc
  /-- It calls `tty->write`. -/
  write : Bool

/-- `PUTCH` on `write_q`, for a call of `tty_write` or an echo. -/
def TtyStruct.putWrite (t : TtyStruct) (call : Option ℕ) (cs : List Byte) : TtyStruct :=
  { t with writeQ := t.writeQ.puts cs, puts := t.puts ++ cs.map (call, ·) }

/-- The last character of `secondary`, unless it ends a line. -/
def TtyStruct.unfinished (t : TtyStruct) : Option Byte :=
  if t.secondary.isEmpty || t.termios.ends t.secondary.last then none else some t.secondary.last

/-- The loop body of `copy_to_cooked`, for the character that was taken from `read_q`. -/
def cookChar (below : Byte → Byte) (t : TtyStruct) (c : Byte) : Turn :=
  match t.termios.input below c with
  | none => ⟨t, [], some .loop, false⟩
  | some c =>
    if t.termios.l icanon ∧ t.termios.isCc vkill c then ⟨t, [], some .kill, false⟩
    else if t.termios.l icanon ∧ t.termios.isCc verase c then
      match t.unfinished with
      | none => ⟨t, [], some .loop, false⟩
      | some c => ⟨t, t.termios.rubout c, some .erased, t.termios.l echo⟩
    else if t.termios.l icanon ∧ t.termios.isCc vstop c then
      ⟨{ t with stopped := true }, [], some .loop, false⟩
    else if t.termios.l icanon ∧ t.termios.isCc vstart c then
      ⟨{ t with stopped := false }, [], some .loop, false⟩
    else if t.termios.l isig ∧ (t.termios.isCc vintr c ∨ t.termios.isCc vquit c) then
      ⟨t, [], some .loop, false⟩
    else
      ⟨if t.termios.ends c then { t with data := t.data + 1 } else t, t.termios.echoOf c,
        some (.store c), t.termios.l echo⟩

def cookTurn (below : Byte → Byte) (t : TtyStruct) : CookPc → Turn
  | .loop =>
    if !t.readQ.isEmpty && !t.secondary.isFull then
      cookChar below { t with readQ := t.readQ.getch } t.readQ.first
    else ⟨t, [], none, false⟩
  | .kill =>
    match t.unfinished with
    | none => ⟨t, [], some .loop, false⟩
    | some c => ⟨t, t.termios.rubout c, some .killed, t.termios.l echo⟩
  | .killed => ⟨{ t with secondary := t.secondary.unput }, [], some .kill, false⟩
  | .erased => ⟨{ t with secondary := t.secondary.unput }, [], some .loop, false⟩
  | .store c => ⟨{ t with secondary := t.secondary.putch c }, [], some .loop, false⟩

namespace State

variable (s : State)

def setTty (i : Nr) (t : TtyStruct) : State := { s with tty := Function.update s.tty i t }

def setStack (fs : List Frame) : State := { s with stack := Function.update s.stack s.cur fs }

/-- `tty->write(tty)`, called from `f`. `rs_write` only lets the line interrupt when it is ready. -/
def output (i : Nr) (f : Frame) : Outcome Frame Unit :=
  if i = 0 then .call f (.conWrite (s.tty 0).writeQ.chars) else .goto f

def cookStep (i : Nr) (pc : CookPc) : State × Outcome Frame Unit :=
  let r := cookTurn s.below (s.tty i) pc
  let s := s.setTty i (r.tty.putWrite none r.echo)
  match r.next with
  | none => (s, .ret ())
  | some pc => (s, if r.write then s.output i (.cook i pc) else .goto (.cook i pc))

/-- A turn of `con_write`. After a reply, which `respond` has put on `read_q` without a look at the room
there, it is in `copy_to_cooked`. -/
def conTurn : ℕ → State × Outcome Frame Unit
  | 0 => ({ s with con := s.con.setCursor }, .ret ())
  | nr + 1 =>
    let t := s.tty 0
    let con := ({ s.con with answers := [] } : Console).conByte (t.termios.cCc verase) t.writeQ.first
    ({ s.setTty 0 { t with writeQ := t.writeQ.getch, readQ := t.readQ.puts con.answers } with con := con },
      if con.answers = [] then .goto (.conWrite nr) else .call (.conWrite nr) (.cook 0 .loop))

/-! ## `tty_read` -/

/-- `tty_read` returns. -/
def endRead (r : Reading) : State × Outcome Frame Unit :=
  ({ s with returned := r :: s.returned }, .ret ())

/-- The body of the inner loop of `tty_read`. -/
def take (r : Reading) : State × Outcome Frame Unit :=
  let t := s.tty r.tty
  let c := t.secondary.first
  let s := s.setTty r.tty { t with
    secondary := t.secondary.getch
    data := if t.termios.ends c then t.data - 1 else t.data }
  let r := { r with taken := r.taken ++ [(t.termios, t.secondary.contents)] }
  if t.termios.isCc veof c ∧ t.termios.l icanon then s.endRead r
  else (s, .goto (.read { r with nr := r.nr - 1, bytes := r.bytes ++ [c] } .inner))

/-- `signal` says if the process has a signal. -/
def readTurn (signal : Bool) (r : Reading) : ReadPc → State × Outcome Frame Unit
  | .loop =>
    let t := s.tty r.tty
    if r.nr = 0 ∨ signal then s.endRead r
    else if t.secondary.isEmpty ∨ (t.termios.l icanon ∧ t.data = 0 ∧ 20 < t.secondary.left) then
      (s, .goto (.read r .sleep))
    else s.take r
  | .sleep =>
    if !signal && (s.tty r.tty).secondary.isEmpty then (s, .goto (.read r .asleep))
    else (s, .goto (.read r .loop))
  | .asleep => (s, .goto (.read r .sleep))
  | .inner =>
    let t := s.tty r.tty
    if 0 < r.nr ∧ !t.secondary.isEmpty then s.take r
    else if t.termios.l icanon then if r.bytes ≠ [] then s.endRead r else (s, .goto (.read r .loop))
    else if r.minimum ≤ r.bytes.length then s.endRead r else (s, .goto (.read r .loop))

/-- `tty_read` up to its loop. -/
def startRead (i : Nr) (nr : ℕ) : Frame :=
  let t := (s.tty i).termios
  let minimum := if t.cCc vtime ≠ 0 ∧ t.cCc vmin = 0 then 1 else (t.cCc vmin).toNat
  .read ⟨i, nr, min minimum nr, [], []⟩ .loop

/-! ## `tty_write` -/

/-- The body of the inner loop of `tty_write` after `get_fs_byte`, for the character `c` of the buffer. -/
def put (w : Writing) (c : Byte) (rest : List Byte) : State × Outcome Frame Unit :=
  let t := s.tty w.tty
  let out := t.termios.outputChar c
  if t.termios.o opost ∧ out = 10 ∧ s.crFlag = false ∧ t.termios.o onlcr then
    ({ s.setTty w.tty (t.putWrite (some w.call) [13]) with crFlag := true },
      .goto (.write { w with half := true } .fill))
  else
    let out := if t.termios.o opost ∧ t.termios.o olcuc then toupper s.below out else out
    ({ s.setTty w.tty (t.putWrite (some w.call) [out]) with crFlag := false },
      .goto (.write { w with rest := rest, done := w.done ++ [c], half := false } .fill))

/-- `tty_write` returns. -/
def finish (w : Writing) : State × Outcome Frame Unit :=
  ({ s with written := w :: s.written }, .ret ())

def writeTurn (signal : Bool) (w : Writing) : WritePc → State × Outcome Frame Unit
  | .loop =>
    if w.rest = [] then s.finish w
    else if (s.tty w.tty).writeQ.isFull then (s, .goto (.write w .sleep))
    else if signal then s.finish w
    else (s, .goto (.write w .fill))
  | .sleep =>
    if !signal && (s.tty w.tty).writeQ.left < 128 then (s, .goto (.write w .asleep))
    else if signal then s.finish w
    else (s, .goto (.write w .fill))
  | .asleep => (s, .goto (.write w .sleep))
  | .fill =>
    if w.rest = [] ∨ (s.tty w.tty).writeQ.isFull then (s, .goto (.write w .flush))
    else (s, .goto (.write w .fetch))
  | .fetch =>
    match w.rest with
    | c :: rest => s.put w c rest
    | [] => (s, .goto (.write w .flush))
  | .flush => (s, s.output w.tty (.write w .written))
  | .written => if w.rest = [] then s.finish w else (s, .goto (.write w .resched))
  | .resched => (s, .goto (.write w .loop))

/-! ## Runs -/

def turn (signal : Bool) : Frame → State × Outcome Frame Unit
  | .cook i pc => s.cookStep i pc
  | .conWrite nr => s.conTurn nr
  | .read r pc => s.readTurn signal r pc
  | .write w pc => s.writeTurn signal w pc

/-- The running process takes a turn. -/
def run (signal : Bool) : Option State :=
  match s.stack s.cur with
  | [] => none
  | f :: fs => ((s.turn signal f).2.resume (fun _ g => g) fs).map (s.turn signal f).1.setStack

end State

/-- The call is where a page fault may have come. -/
def Frame.faults : Frame → Bool
  | .read _ .inner | .write _ .fetch => true
  | _ => false

/-- Another process may run when this one has got here. -/
def Frame.yields : Frame → Bool
  | .read _ .asleep | .read _ .inner | .write _ .asleep | .write _ .fetch | .write _ .resched => true
  | _ => false

/-- What `tty_ioctl` can change. -/
inductive Ioctl
  | setTermios (t : Termios)
  /-- Of a `struct termio`, the flags are short, and there are eight characters. -/
  | setTermio (t : Termios)
  | flushInput
  | flushOutput

def setLow (old new : BitVec 32) : BitVec 32 := old &&& 0xffff0000 ||| new &&& 0xffff

def TtyStruct.ioctl (t : TtyStruct) : Ioctl → TtyStruct
  | .setTermios u => { t with termios := u }
  | .setTermio u => { t with termios := {
      cIflag := setLow t.termios.cIflag u.cIflag
      cOflag := setLow t.termios.cOflag u.cOflag
      cCflag := setLow t.termios.cCflag u.cCflag
      cLflag := setLow t.termios.cLflag u.cLflag
      cLine := u.cLine
      cCc := fun k => if k.val < 8 then u.cCc k else t.termios.cCc k } }
  | .flushInput => { t with readQ := t.readQ.flush }
  | .flushOutput => { t with writeQ := t.writeQ.flush }

inductive Event
  | schedule (p : ℕ)
  | read (i : Nr) (nr : ℕ)
  | write (i : Nr) (buf : List Byte)
  | ioctl (i : Nr) (c : Ioctl)
  /-- An interrupt with input: `put_queue` of the keyboard, or `read_char` of a serial line. -/
  | receive (i : Nr) (cs : List Byte)
  /-- `write_char` of a serial line. -/
  | transmit (i : Nr)
  /-- The process is ended by a page fault. -/
  | exit
  /-- The process that runs takes a turn; `signal` says if it has a signal. -/
  | run (signal : Bool)

namespace State

variable (s : State)

/-- Characters that come in; all are dropped where there is no room for them. -/
def receive (i : Nr) (cs : List Byte) : State :=
  let t := s.tty i
  let s := if cs.length ≤ t.readQ.left then s.setTty i { t with readQ := t.readQ.puts cs } else s
  s.setStack (.cook i .loop :: s.stack s.cur)

def next : Event → Option State
  | .schedule p => if (s.stack s.cur).head?.all Frame.yields then some { s with cur := p } else none
  | .read i nr => if (s.stack s.cur).isEmpty then some (s.setStack [s.startRead i nr]) else none
  | .write i buf =>
    if (s.stack s.cur).isEmpty then
      some (setStack { s with calls := s.calls + 1 } [.write ⟨s.calls, i, buf, buf, [], false⟩ .loop])
    else none
  | .ioctl i c => if (s.stack s.cur).isEmpty then some (s.setTty i ((s.tty i).ioctl c)) else none
  | .receive i cs => some (s.receive i cs)
  | .transmit i =>
    let t := s.tty i
    if i ≠ 0 ∧ !t.writeQ.isEmpty then some (s.setTty i { t with writeQ := t.writeQ.getch }) else none
  | .exit => if (s.stack s.cur).head?.any Frame.faults then some (s.setStack []) else none
  | .run signal => s.run signal

end State

/-- All the queues are empty, and nothing is under way. -/
structure State.Fresh (s : State) : Prop where
  readQ : ∀ i, ∃ buf, (s.tty i).readQ = .empty buf
  writeQ : ∀ i, ∃ buf, (s.tty i).writeQ = .empty buf
  secondary : ∀ i, ∃ buf, (s.tty i).secondary = .empty buf
  data : ∀ i, (s.tty i).data = 0
  puts : ∀ i, (s.tty i).puts = []
  crFlag : s.crFlag = false
  stack : ∀ p, s.stack p = []
  returned : s.returned = []
  calls : s.calls = 0
  written : s.written = []

def lines : System State Event where
  init := State.Fresh
  step s e s' := s.next e = some s'

/-! ## Start -/

/-- `INIT_C_CC`. -/
def initCCc (k : Fin 17) : Byte :=
  [3, 28, 127, 21, 4, 0, 1, 0, 17, 19, 26, 0, 18, 15, 23, 22, 0].getD k 0

/-- An entry of `tty_table`, with these settings. -/
def TtyStruct.ofTermios (t : Termios) : TtyStruct :=
  ⟨t, false, .empty fun _ => 0, .empty fun _ => 0, .empty fun _ => 0, 0, []⟩

def ttyTable : Nr → TtyStruct
  | 0 => .ofTermios ⟨icrnl, opost ||| onlcr, 0, isig ||| icanon ||| echo ||| echoctl ||| echoke, 0, initCCc⟩
  | 1 | 2 => .ofTermios ⟨0, 0, b2400 ||| cs8, 0, 0, initCCc⟩

/-- On an 80-column EGA. -/
def boot : State where
  tty := ttyTable
  con := conInit ⟨0, 10, 3, 80, 3⟩ (fun _ => 0) fun _ => 0
  crFlag := false
  below := fun _ => 0
  stack := fun _ => []
  cur := 0
  returned := []
  calls := 0
  written := []

theorem fresh_boot : boot.Fresh where
  readQ i := match i with
    | 0 | 1 | 2 => ⟨_, rfl⟩
  writeQ i := match i with
    | 0 | 1 | 2 => ⟨_, rfl⟩
  secondary i := match i with
    | 0 | 1 | 2 => ⟨_, rfl⟩
  data i := match i with
    | 0 | 1 | 2 => rfl
  puts i := match i with
    | 0 | 1 | 2 => rfl
  crFlag := rfl
  stack _ := rfl
  returned := rfl
  calls := rfl
  written := rfl

end Linux011.Tty
