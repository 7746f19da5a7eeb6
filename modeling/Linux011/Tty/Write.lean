import Linux011.Tty.Screen

/-!
# The console: `con_write`

What one byte does. The replies to ESC Z are put on `answers`; that `copy_to_cooked` echoes them
to the console again is left out here.

1. `ground`: state 0, printing and the control characters.
2. `escape`: state 1, after an ESC.
3. `command`, `parameter`, `firstParameter`: states 4, 3 and 2, each of which goes on to the one
   before it.
4. `conByte`, `conWrite`.
-/

namespace Linux011.Tty

open X86

namespace Console

variable (con : Console)

/-- At the end of a line: on to the next one. -/
def wrap : Console :=
  lf { con with x := con.x - con.videoNumColumns, pos := con.pos - con.videoSizeRow }

/-- The cell of a character: its attribute is the high byte. -/
def put (c : BitVec 8) : Console :=
  { con with
    ram := con.ram.write16 con.pos (con.attr ++ c)
    pos := con.pos + 2
    x := con.x + 1 }

def printing (c : BitVec 8) : Console :=
  if con.videoNumColumns ≤ con.x then con.wrap.put c else con.put c

def backspace : Console :=
  if con.x ≠ 0 then { con with x := con.x - 1, pos := con.pos - 2 } else con

def tab : Console :=
  let c := 8 - (con.x &&& 7)
  let con := { con with x := con.x + c, pos := con.pos + c <<< 1 }
  if con.videoNumColumns < con.x then con.wrap else con

/-- An eighth of a second, in ticks. -/
def sysbeep : Console := { con with beepcount := 100 / 8 }

/-- State 0. A `char` is signed, `ERASE_CHAR` is not. -/
def ground (verase c : BitVec 8) : Console :=
  if 31 < c.toInt ∧ c.toInt < 127 then con.printing c
  else if c = 27 then { con with state := 1 }
  else if c = 10 ∨ c = 11 ∨ c = 12 then con.lf
  else if c = 13 then con.cr
  else if c.toInt = verase.toNat then con.del
  else if c = 8 then con.backspace
  else if c = 9 then con.tab
  else if c = 7 then con.sysbeep
  else con

/-! ## Escape sequences -/

def saveCur : Console := { con with savedX := con.x, savedY := con.y }

def restoreCur : Console := con.gotoxy con.savedX con.savedY

/-- `respond`, for a terminal that does not echo what `copy_to_cooked` finds. -/
def respond : Console :=
  { con with answers := con.answers ++ [27, 91, 63, 49, 59, 50, 99] }

/-- State 1. The source compares the column, not the character, with `'7'` and `'8'`. -/
def escape (c : BitVec 8) : Console :=
  let con := { con with state := 0 }
  if c = code '[' then { con with state := 2 }
  else if c = code 'E' then con.gotoxy 0 (con.y + 1)
  else if c = code 'M' then con.ri
  else if c = code 'D' then con.lf
  else if c = code 'Z' then con.respond
  else if con.x = 55 then con.saveCur
  else if con.x = 56 then con.restoreCur
  else con

def setPar (i : ℕ) (v : Word) : Console := { con with par := Function.update con.par i v }

/-- `if (par[i]) par[i]--`: the source counts from 1. -/
def fromOne (i : ℕ) : Console := if con.par i ≠ 0 then con.setPar i (con.par i - 1) else con

/-- `if (!par[0]) par[0]++`. -/
def atLeastOne : Console := if con.par 0 = 0 then con.setPar 0 (con.par 0 + 1) else con

/-- `ESC [ r`: the scroll region. -/
def setRegion : Console :=
  let con := con.fromOne 0
  let con := if con.par 1 = 0 then con.setPar 1 con.videoNumLines else con
  if con.par 0 < con.par 1 ∧ con.par 1 ≤ con.videoNumLines then
    { con with top := con.par 0, bottom := con.par 1 }
  else con

/-- The commands, in state 4. The character with the code 96 is the grave accent. -/
def csi (c : BitVec 8) : Console :=
  let one := con.fromOne 0
  let two := one.fromOne 1
  let least := con.atLeastOne
  if c = code 'G' ∨ c = 96 then one.gotoxy (one.par 0) one.y
  else if c = code 'A' then least.gotoxy least.x (least.y - least.par 0)
  else if c = code 'B' ∨ c = code 'e' then least.gotoxy least.x (least.y + least.par 0)
  else if c = code 'C' ∨ c = code 'a' then least.gotoxy (least.x + least.par 0) least.y
  else if c = code 'D' then least.gotoxy (least.x - least.par 0) least.y
  else if c = code 'E' then least.gotoxy 0 (least.y + least.par 0)
  else if c = code 'F' then least.gotoxy 0 (least.y - least.par 0)
  else if c = code 'd' then one.gotoxy one.x (one.par 0)
  else if c = code 'H' ∨ c = code 'f' then two.gotoxy (two.par 1) (two.par 0)
  else if c = code 'J' then con.csiJ (con.par 0)
  else if c = code 'K' then con.csiK (con.par 0)
  else if c = code 'L' then con.csiL (con.par 0)
  else if c = code 'M' then con.csiDeleteLines (con.par 0)
  else if c = code 'P' then con.csiP (con.par 0)
  else if c = code '@' then con.csiAt (con.par 0)
  else if c = code 'm' then con.csiM
  else if c = code 'r' then con.setRegion
  else if c = code 's' then con.saveCur
  else if c = code 'u' then con.restoreCur
  else con

/-- State 4. -/
def command (c : BitVec 8) : Console := csi { con with state := 0 } c

/-- State 3. -/
def parameter (c : BitVec 8) : Console :=
  if c = code ';' ∧ con.npar.toNat < npars - 1 then { con with npar := con.npar + 1 }
  else if (code '0').toInt ≤ c.toInt ∧ c.toInt ≤ (code '9').toInt then
    con.setPar con.npar.toNat (10 * con.par con.npar.toNat + c.signExtend 32 - 48)
  else command { con with state := 4 } c

/-- State 2. -/
def firstParameter (c : BitVec 8) : Console :=
  let con := { con with
    par := fun i => if i < npars then 0 else con.par i
    npar := 0
    state := 3
    ques := decide (c = code '?') }
  if con.ques then con else con.parameter c

/-- One byte of `con_write`. -/
def conByte (verase c : BitVec 8) : Console :=
  match con.state with
  | 0 => con.ground verase c
  | 1 => con.escape c
  | 2 => con.firstParameter c
  | 3 => con.parameter c
  | 4 => con.command c
  | _ => con

/-- `con_write`, on the bytes that are in the `write_q`; `verase` is the terminal's
`ERASE_CHAR`. -/
def conWrite (verase : BitVec 8) (bytes : List (BitVec 8)) : Console :=
  setCursor (bytes.foldl (conByte · verase) con)

end Console

end Linux011.Tty
