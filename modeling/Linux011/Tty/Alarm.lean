import Linux011.Tty.Cooked

/-!
# Terminals: the alarm of a reader

With `VTIME`, `tty_read` uses the alarm of the process for its own timer, and puts the old value back at
its end. At an end-of-file character it returns before that.

1. `Reading`, `State`. A call of `tty_read` takes a turn at a time; between two turns there are ticks,
   signals, input, and calls of `schedule`.
2. `turn_line`: without the timer, the call is that of `Tty.State`.
3. `Kept`, what every step keeps. `alarm_kept_iff`, `alarm_not_kept`.
-/

namespace Linux011.Tty.Alarm

/-- The variables of `tty_read`. -/
structure Reading where
  tty : Nr
  nr : ℕ
  minimum : ℕ
  time : BitVec 32
  flag : Bool
  oldalarm : BitVec 32
  /-- What is in the buffer so far. -/
  bytes : List Byte

inductive Pc
  /-- At the outer loop. -/
  | loop (r : Reading)
  /-- In `sleep_if_empty`. -/
  | sleep (r : Reading)
  | asleep (r : Reading)
  /-- At the inner loop. -/
  | take (r : Reading)
  /-- At its end. -/
  | inner (r : Reading)
  /-- It has returned `ret`, maybe at an end-of-file character. -/
  | done (ret : ℤ) (eof : Bool)

/-- `alarm` and `signal` are those of the process. A `long` is signed, and `jiffies` runs over. -/
structure State where
  jiffies : BitVec 32
  alarm : BitVec 32
  signal : BitVec 32
  tty : Nr → TtyStruct
  pc : Pc
  /-- Remembered: `schedule` has found an alarm expired. -/
  expired : Bool

/-- `1<<(SIGALRM-1)` -/
def alrmMask : BitVec 32 := 1 <<< 13

def eintr : ℤ := 4

namespace State

variable (s : State)

def secondary (r : Reading) : Queue := (s.tty r.tty).secondary

def canon (i : Nr) : Bool := (s.tty i).termios.l icanon

/-- `time` -/
def timer (i : Nr) : BitVec 32 := 10 * ((s.tty i).termios.cCc vtime).setWidth 32

/-- The timer of the call ends before the old alarm. -/
def sooner (time oldalarm : BitVec 32) : Bool := oldalarm == 0 || (time + s.jiffies).slt oldalarm

/-- `tty_read` up to its loop. -/
def ttyRead (channel : ℕ) (nr : ℤ) : State :=
  if h : channel < 3 ∧ 0 ≤ nr then
    let i : Nr := ⟨channel, h.1⟩
    let time := s.timer i
    let minimum := ((s.tty i).termios.cCc vmin).toNat
    let r : Reading := ⟨i, nr.toNat, min minimum nr.toNat, time, false, s.alarm, []⟩
    if time ≠ 0 ∧ minimum = 0 then
      let flag := s.sooner time s.alarm
      { s with
        alarm := if flag then time + s.jiffies else s.alarm
        pc := .loop { r with minimum := min 1 nr.toNat, flag := flag }
        expired := false }
    else { s with pc := .loop r, expired := false }
  else { s with pc := .done (-1) false, expired := false }

/-- `tty_read` after its loop. -/
def finish (r : Reading) : State :=
  { s with
    alarm := r.oldalarm
    pc := .done (if s.signal ≠ 0 ∧ r.bytes = [] then -eintr else r.bytes.length) false }

/-- The outer loop after the inner one. -/
def settle (r : Reading) : State :=
  let flag := s.sooner r.time r.oldalarm
  let timed := r.time ≠ 0 ∧ !s.canon r.tty
  let s := if timed then { s with alarm := if flag then r.time + s.jiffies else r.oldalarm } else s
  let r := if timed then { r with flag := flag } else r
  if s.canon r.tty then
    if r.bytes ≠ [] then s.finish r else { s with pc := .loop r }
  else
    if r.minimum ≤ r.bytes.length then s.finish r else { s with pc := .loop r }

def turn : Option State :=
  match s.pc with
  | .loop r =>
    if r.nr = 0 then some (s.finish r)
    else if r.flag ∧ s.signal &&& alrmMask ≠ 0 then
      some ({ s with signal := s.signal &&& ~~~alrmMask }.finish r)
    else if s.signal ≠ 0 then some (s.finish r)
    else if (s.secondary r).isEmpty ∨
        (s.canon r.tty ∧ (s.tty r.tty).data = 0 ∧ 20 < (s.secondary r).left) then
      some { s with pc := .sleep r }
    else some { s with pc := .take r }
  | .sleep r =>
    if s.signal = 0 ∧ (s.secondary r).isEmpty then some { s with pc := .asleep r }
    else some { s with pc := .loop r }
  | .asleep r => some { s with pc := .sleep r }
  | .take r =>
    let c := (s.secondary r).first
    let t := Function.update s.tty r.tty (s.tty r.tty).taken
    if (s.tty r.tty).termios.isCc veof c ∧ s.canon r.tty then
      some { s with tty := t, pc := .done r.bytes.length true }
    else some { s with tty := t, pc := .inner { r with nr := r.nr - 1, bytes := r.bytes ++ [c] } }
  | .inner r =>
    if 0 < r.nr ∧ !(s.secondary r).isEmpty then some { s with pc := .take r }
    else some (s.settle r)
  | .done _ _ => none

/-- What `schedule` does for the process. -/
def schedule : State :=
  if s.alarm ≠ 0 ∧ s.alarm.slt s.jiffies then
    { s with signal := s.signal ||| alrmMask, alarm := 0, expired := true }
  else s

end State

inductive Event
  | turn
  /-- The interrupt of the timer. -/
  | tick
  | schedule
  | signal (mask : BitVec 32)
  /-- Others put characters on `secondary`, or take some. -/
  | input (i : Nr) (secondary : Queue) (data : BitVec 32)

def Pc.returned : Pc → Bool
  | .done _ _ => true
  | _ => false

/-- Nothing is of interest after the return. -/
def State.next (s : State) (e : Event) : Option State :=
  if s.pc.returned then none
  else
    match e with
    | .turn => s.turn
    | .tick => some { s with jiffies := s.jiffies + 1 }
    | .schedule => some s.schedule
    | .signal mask => some { s with signal := s.signal ||| mask }
    | .input i q d =>
      some { s with tty := Function.update s.tty i { s.tty i with secondary := q, data := d } }

/-- A call of `tty_read`. -/
def call (s₀ : State) (channel : ℕ) (nr : ℤ) : System State Event where
  init s := s = s₀.ttyRead channel nr
  step s e s' := s.next e = some s'

/-! ## The same call without its timer -/

/-- The variables that `Tty.Reading` has as well. -/
def Reading.plain (r : Reading) (taken : List (Termios × List Byte)) : Tty.Reading :=
  ⟨r.tty, r.nr, r.minimum, r.bytes, taken⟩

def Pc.plain : Pc → Option (Reading × ReadPc)
  | .loop r => some (r, .loop)
  | .sleep r => some (r, .sleep)
  | .asleep r => some (r, .asleep)
  | .inner r => some (r, .inner)
  | .take _ | .done _ _ => none

/-- A turn of `Tty.State.readTurn`, where the test of the queue and `GETCH` are one step. -/
def State.whole (s : State) : Option State :=
  s.turn.bind fun s' => match s'.pc with
    | .take _ => s'.turn
    | _ => some s'

/-- The call is where `readTurn` has left it, or returns what it has read. -/
def Pc.Follows (o : Tty.State × Outcome Frame Unit) : Pc → Prop
  | .done ret _ => o.2 = .ret () ∧ ∃ q, o.1.returned.head? = some q ∧
      (ret = q.bytes.length ∨ ret = -eintr ∧ q.bytes = [])
  | pc => ∃ r c taken, pc.plain = some (r, c) ∧ o.2 = .goto (.read (r.plain taken) c)

section Line

variable {s : State} {u : Tty.State} {r : Reading} {c : ReadPc} {channel : ℕ} {nr : ℤ}

theorem follows_finish (taken : List (Termios × List Byte)) :
    (s.finish r).pc.Follows (u.endRead (r.plain taken)) := by
  refine ⟨rfl, r.plain taken, rfl, ?_⟩
  split_ifs with h
  · exact .inr ⟨rfl, h.2⟩
  · exact .inl rfl

theorem follows_goto {pc : Pc} (hpc : pc.plain = some (r, c)) (taken : List (Termios × List Byte)) :
    pc.Follows (u, .goto (.read (r.plain taken) c)) := by
  cases pc with
  | done | take => cases hpc
  | _ => exact ⟨r, c, taken, hpc, rfl⟩

/-- The call begins as one of `Tty.State`. -/
theorem ttyRead_line (hu : u.tty = s.tty) (h : channel < 3 ∧ 0 ≤ nr) :
    ∃ r, (s.ttyRead channel nr).pc = .loop r ∧
      u.startRead ⟨channel, h.1⟩ nr.toNat = .read (r.plain []) .loop := by
  have htimer : ∀ v : BitVec 8, 10 * v.setWidth 32 = (0 : BitVec 32) ↔ v = 0 := by decide
  have hzero : ∀ v : BitVec 8, v.toNat = 0 ↔ v = 0 := by decide
  have hiff : (s.timer ⟨channel, h.1⟩ ≠ 0 ∧ ((s.tty ⟨channel, h.1⟩).termios.cCc vmin).toNat = 0) ↔
      (s.tty ⟨channel, h.1⟩).termios.cCc vtime ≠ 0 ∧ (s.tty ⟨channel, h.1⟩).termios.cCc vmin = 0 :=
    and_congr (not_congr (htimer _)) (hzero _)
  unfold State.ttyRead Tty.State.startRead
  rw [dif_pos h, hu]
  dsimp only
  by_cases h1 : s.timer ⟨channel, h.1⟩ ≠ 0 ∧ ((s.tty ⟨channel, h.1⟩).termios.cCc vmin).toNat = 0
  · rw [if_pos h1, if_pos (hiff.1 h1)]
    exact ⟨_, rfl, rfl⟩
  · rw [if_neg h1, if_neg (mt hiff.2 h1)]
    exact ⟨_, rfl, rfl⟩

/-- The take and what comes after it. -/
theorem take_line (hu : u.tty = s.tty) (hpc : s.pc = .take r) (taken : List (Termios × List Byte)) :
    ∃ s', s.turn = some s' ∧ (u.take (r.plain taken)).1.tty = s'.tty ∧
      s'.pc.Follows (u.take (r.plain taken)) := by
  obtain ⟨t, ht⟩ : ∃ t, t = s.tty r.tty := ⟨_, rfl⟩
  have hturn : s.turn = if t.termios.isCc veof t.secondary.first = true ∧ t.termios.l icanon = true then
      some { s with tty := Function.update s.tty r.tty t.taken, pc := .done r.bytes.length true }
    else some { s with
      tty := Function.update s.tty r.tty t.taken
      pc := .inner { r with nr := r.nr - 1, bytes := r.bytes ++ [t.secondary.first] } } := by
    unfold State.turn
    rw [hpc, ht]
    rfl
  have hut : u.tty r.tty = t := by rw [hu, ht]
  have htake : u.take (r.plain taken) = if t.termios.isCc veof t.secondary.first = true ∧
      t.termios.l icanon = true then (u.setTty r.tty t.taken).endRead ((r.plain taken).take t)
    else (u.setTty r.tty t.taken, .goto (.read { (r.plain taken).take t with
      nr := r.nr - 1, bytes := r.bytes ++ [t.secondary.first] } .inner)) := by
    rw [← hut]
    rfl
  have htty : (u.setTty r.tty t.taken).tty = Function.update s.tty r.tty t.taken := by
    rw [← hu]
    rfl
  rw [hturn, htake]
  split_ifs
  · exact ⟨_, rfl, htty, rfl, _, rfl, .inl rfl⟩
  · exact ⟨_, rfl, htty, { r with nr := r.nr - 1, bytes := r.bytes ++ [t.secondary.first] }, .inner, _,
      rfl, rfl⟩

/-- What `settle` does, but for the timer. -/
theorem settle_line (taken : List (Termios × List Byte)) : ∃ (t : State) (r₁ : Reading),
    t.tty = s.tty ∧ r₁.plain taken = r.plain taken ∧ s.settle r =
      if s.canon r.tty then if r.bytes ≠ [] then t.finish r₁ else { t with pc := .loop r₁ }
      else if r.minimum ≤ r.bytes.length then t.finish r₁ else { t with pc := .loop r₁ } := by
  unfold State.settle
  dsimp only
  by_cases h : r.time ≠ 0 ∧ !s.canon r.tty
  · simp only [if_pos h]
    exact ⟨{ s with alarm := if s.sooner r.time r.oldalarm then r.time + s.jiffies else r.oldalarm },
      { r with flag := s.sooner r.time r.oldalarm }, rfl, rfl, rfl⟩
  · simp only [if_neg h]
    exact ⟨s, r, rfl, rfl, rfl⟩

/-- The turn has an answer `o` of `readTurn`. -/
def State.Turns (s : State) (o : Tty.State × Outcome Frame Unit) : Prop :=
  ∃ s', s.whole = some s' ∧ o.1.tty = s'.tty ∧ s'.pc.Follows o

theorem turns_take {t : State} (hu : u.tty = s.tty) (ht : s.turn = some t) (hpc : t.pc = .take r)
    (htt : t.tty = s.tty) (taken : List (Termios × List Byte)) : s.Turns (u.take (r.plain taken)) := by
  obtain ⟨s', hs', h⟩ := take_line (hu.trans htt.symm) hpc taken
  exact ⟨s', by simp [State.whole, ht, hpc, hs'], h⟩

theorem whole_of_turn {t : State} (ht : s.turn = some t)
    (hpc : t.pc.plain ≠ none ∨ t.pc.returned = true) : s.whole = some t := by
  unfold State.whole
  rw [ht]
  cases hpc' : t.pc with
  | take => simp [hpc', Pc.plain, Pc.returned] at hpc
  | _ => simp [hpc']

theorem turns_finish {t : State} (hu : u.tty = s.tty) (htt : t.tty = s.tty)
    (ht : s.turn = some (t.finish r)) (taken : List (Termios × List Byte)) :
    s.Turns (u.endRead (r.plain taken)) :=
  ⟨_, whole_of_turn ht (.inr rfl), hu.trans htt.symm, follows_finish taken⟩

theorem turns_goto {t : State} (hu : u.tty = s.tty) (htt : t.tty = s.tty) (ht : s.turn = some t)
    (hpc : t.pc.plain = some (r, c)) (taken : List (Termios × List Byte)) :
    s.Turns (u, .goto (.read (r.plain taken) c)) :=
  ⟨_, whole_of_turn ht (.inl (by rw [hpc]; nofun)), hu.trans htt.symm, follows_goto hpc taken⟩

/-- `sleep_if_empty` -/
theorem turn_sleep (hu : u.tty = s.tty) (hpc : s.pc = .sleep r)
    (taken : List (Termios × List Byte)) :
    s.Turns (u.readTurn (decide (s.signal ≠ 0)) (r.plain taken) .sleep) := by
  have hturn : s.turn = if s.signal = 0 ∧ (s.secondary r).isEmpty then some { s with pc := .asleep r }
      else some { s with pc := .loop r } := by
    unfold State.turn
    rw [hpc]
  have hiff : (!decide (s.signal ≠ 0) && (u.tty r.tty).secondary.isEmpty) = true ↔
      s.signal = 0 ∧ (s.secondary r).isEmpty := by
    rw [hu]
    simp [State.secondary]
  by_cases h : s.signal = 0 ∧ (s.secondary r).isEmpty
  · have hread : u.readTurn (decide (s.signal ≠ 0)) (r.plain taken) .sleep =
        (u, .goto (.read (r.plain taken) .asleep)) := if_pos (hiff.2 h)
    rw [hread]
    exact turns_goto (t := { s with pc := .asleep r }) hu rfl (hturn.trans (if_pos h)) rfl taken
  · have hread : u.readTurn (decide (s.signal ≠ 0)) (r.plain taken) .sleep =
        (u, .goto (.read (r.plain taken) .loop)) := if_neg (mt hiff.1 h)
    rw [hread]
    exact turns_goto (t := { s with pc := .loop r }) hu rfl (hturn.trans (if_neg h)) rfl taken

/-- The end of the inner loop. -/
theorem turn_inner (hu : u.tty = s.tty) (hpc : s.pc = .inner r)
    (taken : List (Termios × List Byte)) :
    s.Turns (u.readTurn (decide (s.signal ≠ 0)) (r.plain taken) .inner) := by
  have hturn : s.turn = if 0 < r.nr ∧ !(s.secondary r).isEmpty then some { s with pc := .take r }
      else some (s.settle r) := by
    unfold State.turn
    rw [hpc]
  have hread : u.readTurn (decide (s.signal ≠ 0)) (r.plain taken) .inner =
      if 0 < r.nr ∧ !(u.tty r.tty).secondary.isEmpty then u.take (r.plain taken)
      else if (u.tty r.tty).termios.l icanon then
        if r.bytes ≠ [] then u.endRead (r.plain taken) else (u, .goto (.read (r.plain taken) .loop))
      else if r.minimum ≤ r.bytes.length then u.endRead (r.plain taken)
      else (u, .goto (.read (r.plain taken) .loop)) := rfl
  have hsec : s.secondary r = (u.tty r.tty).secondary := by rw [hu]; rfl
  have hcanon : s.canon r.tty = (u.tty r.tty).termios.l icanon := by rw [hu]; rfl
  rw [hsec] at hturn
  by_cases h : 0 < r.nr ∧ !(u.tty r.tty).secondary.isEmpty
  · rw [hread, if_pos h]
    exact turns_take (t := { s with pc := .take r }) hu (hturn.trans (if_pos h)) rfl rfl taken
  obtain ⟨t, r₁, htt, hr₁, hsettle⟩ := settle_line (s := s) (r := r) taken
  rw [if_neg h, hsettle, hcanon] at hturn
  rw [hread, if_neg h]
  by_cases h1 : (u.tty r.tty).termios.l icanon = true
  · rw [if_pos h1] at hturn ⊢
    by_cases h2 : r.bytes ≠ []
    · rw [if_pos h2] at hturn ⊢
      exact hr₁ ▸ turns_finish hu htt hturn taken
    · rw [if_neg h2] at hturn ⊢
      exact hr₁ ▸ turns_goto (t := { t with pc := .loop r₁ }) hu htt hturn rfl taken
  · rw [if_neg h1] at hturn ⊢
    by_cases h2 : r.minimum ≤ r.bytes.length
    · rw [if_pos h2] at hturn ⊢
      exact hr₁ ▸ turns_finish hu htt hturn taken
    · rw [if_neg h2] at hturn ⊢
      exact hr₁ ▸ turns_goto (t := { t with pc := .loop r₁ }) hu htt hturn rfl taken

/-- The head of the outer loop. -/
theorem turn_loop (hu : u.tty = s.tty) (hpc : s.pc = .loop r)
    (taken : List (Termios × List Byte)) :
    s.Turns (u.readTurn (decide (s.signal ≠ 0)) (r.plain taken) .loop) := by
  have hturn : s.turn =
      if r.nr = 0 then some (s.finish r)
      else if r.flag ∧ s.signal &&& alrmMask ≠ 0 then
        some ({ s with signal := s.signal &&& ~~~alrmMask }.finish r)
      else if s.signal ≠ 0 then some (s.finish r)
      else if (s.secondary r).isEmpty ∨
          (s.canon r.tty ∧ (s.tty r.tty).data = 0 ∧ 20 < (s.secondary r).left) then
        some { s with pc := .sleep r }
      else some { s with pc := .take r } := by
    unfold State.turn
    rw [hpc]
  have hread : u.readTurn (decide (s.signal ≠ 0)) (r.plain taken) .loop =
      if r.nr = 0 ∨ decide (s.signal ≠ 0) then u.endRead (r.plain taken)
      else if (u.tty r.tty).secondary.isEmpty ∨ ((u.tty r.tty).termios.l icanon ∧
          (u.tty r.tty).data = 0 ∧ 20 < (u.tty r.tty).secondary.left) then
        (u, .goto (.read (r.plain taken) .sleep))
      else u.take (r.plain taken) := rfl
  by_cases hnr : r.nr = 0
  · rw [hread, if_pos (.inl hnr)]
    exact turns_finish hu rfl (hturn.trans (if_pos hnr)) taken
  rw [if_neg hnr] at hturn
  by_cases hsig : s.signal ≠ 0
  · rw [hread, if_pos (.inr (decide_eq_true hsig))]
    by_cases hflag : r.flag ∧ s.signal &&& alrmMask ≠ 0
    · exact turns_finish (t := { s with signal := s.signal &&& ~~~alrmMask }) hu rfl
        (hturn.trans (if_pos hflag)) taken
    · exact turns_finish hu rfl (hturn.trans ((if_neg hflag).trans (if_pos hsig))) taken
  -- nothing has come
  have hflag : ¬(r.flag ∧ s.signal &&& alrmMask ≠ 0) := fun hf => hf.2 (by
    rw [not_not.1 hsig]
    exact BitVec.zero_and)
  have hno : ¬(r.nr = 0 ∨ decide (s.signal ≠ 0) = true) := fun hn =>
    hn.elim hnr fun hn => hsig (of_decide_eq_true hn)
  rw [if_neg hflag, if_neg hsig] at hturn
  rw [hread, if_neg hno]
  have hiff : ((s.secondary r).isEmpty ∨
        (s.canon r.tty ∧ (s.tty r.tty).data = 0 ∧ 20 < (s.secondary r).left)) ↔
      ((u.tty r.tty).secondary.isEmpty ∨ ((u.tty r.tty).termios.l icanon ∧
        (u.tty r.tty).data = 0 ∧ 20 < (u.tty r.tty).secondary.left)) := by
    rw [hu]
    rfl
  by_cases h : (u.tty r.tty).secondary.isEmpty ∨ ((u.tty r.tty).termios.l icanon ∧
      (u.tty r.tty).data = 0 ∧ 20 < (u.tty r.tty).secondary.left)
  · rw [if_pos h]
    exact turns_goto (t := { s with pc := .sleep r }) hu rfl (hturn.trans (if_pos (hiff.2 h))) rfl taken
  · rw [if_neg h]
    exact turns_take (t := { s with pc := .take r }) hu (hturn.trans (if_neg (mt hiff.1 h))) rfl rfl
      taken

/-- **The timer apart, the call takes the turns of `Tty.State.readTurn`.** -/
theorem turn_line (hu : u.tty = s.tty) (hpc : s.pc.plain = some (r, c))
    (taken : List (Termios × List Byte)) :
    s.Turns (u.readTurn (decide (s.signal ≠ 0)) (r.plain taken) c) := by
  cases hs : s.pc with
  | take | done => rw [hs] at hpc; cases hpc
  | asleep r' =>
    rw [hs] at hpc
    cases hpc
    refine turns_goto (t := { s with pc := .sleep r }) hu rfl ?_ rfl taken
    unfold State.turn
    rw [hs]
  | sleep r' =>
    rw [hs] at hpc
    cases hpc
    exact turn_sleep hu hs taken
  | inner r' =>
    rw [hs] at hpc
    cases hpc
    exact turn_inner hu hs taken
  | loop r' =>
    rw [hs] at hpc
    cases hpc
    exact turn_loop hu hs taken

end Line

/-! ## What is borrowed -/

/-- The call starts its timer at its beginning. -/
def State.Borrows (s : State) (i : Nr) : Prop :=
  s.timer i ≠ 0 ∧ (s.tty i).termios.cCc vmin = 0 ∧
    (s.alarm = 0 ∨ (s.timer i + s.jiffies).toInt < s.alarm.toInt)

/-- The old alarm has not expired. -/
def State.Pending (s₀ s : State) (_ : Event) : Prop :=
  s₀.alarm = 0 ∨ s.jiffies.toInt ≤ s₀.alarm.toInt

/-- What the alarm is while the timer is not started again. -/
def Lent (s₀ : State) (i : Nr) (s : State) : Prop :=
  (s₀.Borrows i → s.alarm = if s.expired then 0 else s₀.timer i + s₀.jiffies) ∧
  (¬s₀.Borrows i → s.alarm = s₀.alarm)

/-- The variables of a call. -/
structure Reading.Right (s₀ : State) (i : Nr) (s : State) (r : Reading) : Prop where
  tty : r.tty = i
  oldalarm : r.oldalarm = s₀.alarm
  lent : s₀.canon i → Lent s₀ i s

def Pc.Right (s₀ : State) (i : Nr) (s : State) : Pc → Prop
  | .done _ true => s₀.canon i ∧ Lent s₀ i s
  | .done _ false => s.alarm = s₀.alarm
  | .loop r | .sleep r | .asleep r | .take r | .inner r => r.Right s₀ i s

structure Kept (s₀ : State) (i : Nr) (s : State) : Prop where
  termios : ∀ j, (s.tty j).termios = (s₀.tty j).termios
  pc : s.pc.Right s₀ i s

section Steps

variable {s₀ s s' : State} {i : Nr} {r : Reading} {e : Event} {channel : ℕ} {nr : ℤ}

theorem Kept.canon (h : Kept s₀ i s) (j : Nr) : s.canon j = s₀.canon j := by
  unfold State.canon
  rw [h.termios j]

/-- The timer is not the old alarm, but for a timer that is expired, or ends at 0. -/
theorem Lent.alarm_iff (h : Lent s₀ i s) : s.alarm = s₀.alarm ↔ ¬(s₀.Borrows i ∧
    ¬(s₀.alarm = 0 ∧ (s.expired = true ∨ s₀.timer i + s₀.jiffies = 0))) := by
  by_cases hb : s₀.Borrows i
  · obtain ⟨-, -, hsooner⟩ := id hb
    rw [h.1 hb]
    by_cases h0 : s₀.alarm = 0
    · simp only [hb, h0, true_and, not_not]
      cases s.expired <;> simp
    · have hlt := hsooner.resolve_left h0
      refine iff_of_false ?_ fun hn => hn ⟨hb, fun hx => h0 hx.1⟩
      split_ifs
      · exact Ne.symm h0
      · intro he
        rw [he] at hlt
        exact lt_irrefl _ hlt
  · exact iff_of_true (h.2 hb) fun hn => hb hn.1

/-- The state before is no worse. -/
theorem Lent.congr (h : Lent s₀ i s) (ha : s'.alarm = s.alarm) (he : s'.expired = s.expired) :
    Lent s₀ i s' := by
  refine ⟨fun hb => ?_, fun hb => ?_⟩
  · rw [ha, he]
    exact h.1 hb
  · rw [ha]
    exact h.2 hb

theorem Lent.schedule (h : Lent s₀ i s) (hp : State.Pending s₀ s e) : Lent s₀ i s.schedule := by
  unfold State.schedule
  split_ifs with hx
  · refine ⟨fun _ => rfl, fun hb => ?_⟩
    have ha := h.2 hb
    rw [ha, BitVec.slt_iff_toInt_lt] at hx
    exact absurd hx.2 (not_lt.2 (hp.resolve_left hx.1))
  · exact h

theorem Reading.Right.lent_imp (h : r.Right s₀ i s) (hl : Lent s₀ i s → Lent s₀ i s') :
    r.Right s₀ i s' :=
  ⟨h.tty, h.oldalarm, fun hc => hl (h.lent hc)⟩

/-- The alarm does not depend on where the call is. -/
theorem Reading.Right.goto {pc : Pc} (h : r.Right s₀ i s) : r.Right s₀ i { s with pc := pc } :=
  h.lent_imp id

/-- A step of others. -/
theorem Kept.other (h : Kept s₀ i s) (hret : s.pc.returned = false) (hpc : s'.pc = s.pc)
    (ht : ∀ j, (s'.tty j).termios = (s.tty j).termios) (hl : Lent s₀ i s → Lent s₀ i s') :
    Kept s₀ i s' := by
  refine ⟨fun j => (ht j).trans (h.termios j), ?_⟩
  have hright := h.pc
  rw [hpc]
  cases hs : s.pc with
  | done ret eof =>
    rw [hs] at hret
    cases hret
  | loop r | sleep r | asleep r | take r | inner r =>
    rw [hs] at hright
    exact Reading.Right.lent_imp hright hl

/-- The old alarm is put back. -/
theorem Kept.finish (h : Kept s₀ i s) (hr : r.Right s₀ i s) : Kept s₀ i (s.finish r) :=
  ⟨h.termios, hr.oldalarm⟩

/-- A turn that leaves the alarm alone. -/
theorem Kept.goto (h : Kept s₀ i s) {pc : Pc} (hpc : pc.Right s₀ i { s with pc := pc }) :
    Kept s₀ i { s with pc := pc } :=
  ⟨h.termios, hpc⟩

theorem Kept.settle (h : Kept s₀ i s) (hr : r.Right s₀ i s) : Kept s₀ i (s.settle r) := by
  have htty := hr.tty
  have hcanon : s.canon r.tty = s₀.canon i := by rw [h.canon, htty]
  unfold State.settle
  cases hc : s₀.canon i with
  | true =>
    simp only [hcanon, hc, Bool.not_true, Bool.false_eq_true, and_false, if_false, if_true]
    split_ifs
    · exact h.finish hr
    · exact h.goto hr.goto
  | false =>
    -- the timer may be started again, but in this mode the old alarm is put back
    have hraw : ∀ (t : State) (r' : Reading), (∀ j, (t.tty j).termios = (s.tty j).termios) →
        r'.tty = i → r'.oldalarm = s₀.alarm →
        Kept s₀ i (if r'.minimum ≤ r'.bytes.length then t.finish r' else { t with pc := .loop r' }) := by
      intro t r' ht htty' hold'
      split_ifs
      · exact ⟨fun j => (ht j).trans (h.termios j), hold'⟩
      · exact ⟨fun j => (ht j).trans (h.termios j), htty', hold', fun hn => by rw [hc] at hn; cases hn⟩
    by_cases htime : r.time = 0
    · simp only [htime, ne_eq, not_true, false_and, if_false, hcanon, hc, Bool.false_eq_true]
      exact hraw s r (fun _ => rfl) htty hr.oldalarm
    · have hc' : ({ s with
          alarm := if s.sooner r.time r.oldalarm then r.time + s.jiffies else r.oldalarm } : State).canon
            r.tty = false := hcanon.trans hc
      simp only [htime, ne_eq, not_false_eq_true, true_and, hcanon, hc, Bool.not_false, if_true, hc',
        Bool.false_eq_true, if_false]
      exact hraw _ { r with flag := s.sooner r.time r.oldalarm } (fun _ => rfl) htty hr.oldalarm

theorem Kept.turn (h : Kept s₀ i s) (hs : s.turn = some s') : Kept s₀ i s' := by
  have hpc := h.pc
  unfold State.turn at hs
  cases hs' : s.pc with
  | loop r =>
    rw [hs'] at hs hpc
    have hr : r.Right s₀ i s := hpc
    dsimp only at hs
    split_ifs at hs
    · cases hs; exact h.finish hr
    · cases hs; exact ⟨h.termios, hr.oldalarm⟩
    · cases hs; exact h.finish hr
    · cases hs; exact h.goto hr.goto
    · cases hs; exact h.goto hr.goto
  | sleep r =>
    rw [hs'] at hs hpc
    have hr : r.Right s₀ i s := hpc
    dsimp only at hs
    split_ifs at hs
    · cases hs; exact h.goto hr.goto
    · cases hs; exact h.goto hr.goto
  | asleep r =>
    rw [hs'] at hs hpc
    have hr : r.Right s₀ i s := hpc
    cases hs
    exact h.goto hr.goto
  | take r =>
    rw [hs'] at hs hpc
    have hr : r.Right s₀ i s := hpc
    have hcanon := h.canon r.tty
    have ht : ∀ j, (Function.update s.tty r.tty (s.tty r.tty).taken j).termios = (s₀.tty j).termios := by
      intro j
      rw [← h.termios j]
      by_cases hj : j = r.tty
      · subst hj
        rw [Function.update_self]
        rfl
      · rw [Function.update_of_ne hj]
    dsimp only at hs
    split_ifs at hs with heof
    · cases hs
      have hc : s₀.canon i := by rw [← hr.tty, ← hcanon]; exact heof.2
      exact ⟨ht, hc, hr.lent hc⟩
    · cases hs
      exact ⟨ht, hr.tty, hr.oldalarm, hr.lent⟩
  | inner r =>
    rw [hs'] at hs hpc
    have hr : r.Right s₀ i s := hpc
    dsimp only at hs
    split_ifs at hs
    · cases hs; exact h.goto hr.goto
    · cases hs; exact h.settle hr
  | done ret eof =>
    rw [hs'] at hs
    cases hs

theorem Kept.next (h : Kept s₀ i s) (hp : State.Pending s₀ s e) (hs : s.next e = some s') :
    Kept s₀ i s' := by
  unfold State.next at hs
  split at hs
  · cases hs
  next hret =>
  have hret : s.pc.returned = false := Bool.eq_false_iff.2 hret
  cases e with
  | turn => exact h.turn hs
  | tick =>
    cases hs
    exact h.other hret rfl (fun _ => rfl) fun hl => hl.congr rfl rfl
  | schedule =>
    cases hs
    refine h.other hret ?_ (fun _ => ?_) fun hl => hl.schedule hp
    · unfold State.schedule
      split_ifs <;> rfl
    · unfold State.schedule
      split_ifs <;> rfl
  | signal mask =>
    cases hs
    exact h.other hret rfl (fun _ => rfl) fun hl => hl.congr rfl rfl
  | input j q d =>
    cases hs
    refine h.other hret rfl (fun k => ?_) fun hl => hl.congr rfl rfl
    by_cases hk : k = j
    · subst hk
      simp
    · simp [hk]

theorem kept_ttyRead (hc : channel < 3) : Kept s₀ ⟨channel, hc⟩ (s₀.ttyRead channel nr) := by
  unfold State.ttyRead
  by_cases hnr : 0 ≤ nr
  · rw [dif_pos ⟨hc, hnr⟩]
    have hmin : ((s₀.tty ⟨channel, hc⟩).termios.cCc vmin).toNat = 0 ↔
        (s₀.tty ⟨channel, hc⟩).termios.cCc vmin = 0 := by
      rw [← BitVec.toNat_inj]
      rfl
    have hsooner : s₀.sooner (s₀.timer ⟨channel, hc⟩) s₀.alarm = true ↔
        s₀.alarm = 0 ∨ (s₀.timer ⟨channel, hc⟩ + s₀.jiffies).toInt < s₀.alarm.toInt := by
      unfold State.sooner
      rw [Bool.or_eq_true, beq_iff_eq, BitVec.slt_iff_toInt_lt]
    dsimp only
    by_cases htimed : s₀.timer ⟨channel, hc⟩ ≠ 0 ∧ ((s₀.tty ⟨channel, hc⟩).termios.cCc vmin).toNat = 0
    · rw [if_pos htimed]
      refine ⟨fun _ => rfl, rfl, rfl, fun _ => ⟨fun hb => ?_, fun hb => ?_⟩⟩
      · exact if_pos (hsooner.2 hb.2.2)
      · exact if_neg fun hs => hb ⟨htimed.1, hmin.1 htimed.2, hsooner.1 hs⟩
    · rw [if_neg htimed]
      exact ⟨fun _ => rfl, rfl, rfl, fun _ => ⟨fun hb => absurd ⟨hb.1, hmin.2 hb.2.1⟩ htimed, fun _ => rfl⟩⟩
  · rw [dif_neg fun h => hnr h.2]
    exact ⟨fun _ => rfl, rfl⟩

/-- Another channel is refused. -/
theorem refused {ok : State → Event → Prop} (hc : ¬channel < 3)
    (h : (call s₀ channel nr).ReachableWhen ok s) : s.alarm = s₀.alarm ∧ s.pc = .done (-1) false := by
  refine h.invariant (I := fun s => s.alarm = s₀.alarm ∧ s.pc = .done (-1) false) ?_ ?_
  · rintro s rfl
    unfold State.ttyRead
    rw [dif_neg fun h => hc h.1]
    exact ⟨rfl, rfl⟩
  · rintro s e s' ⟨-, hpc⟩ _ hs
    have hs : s.next e = some s' := hs
    have hret : s.pc.returned = true := by
      rw [hpc]
      rfl
    unfold State.next at hs
    rw [if_pos hret] at hs
    cases hs

end Steps

/-- **The alarm of a reader.** When a call of `tty_read` returns and the old alarm has not expired before,
the process has its old alarm, unless the call has started its timer at its beginning and returns at an
end-of-file character; and there was an alarm before, or the timer is not 0 and has not expired. -/
theorem alarm_kept_iff {s₀ s : State} {channel : ℕ} {nr ret : ℤ} {eof : Bool}
    (h : (call s₀ channel nr).ReachableWhen (State.Pending s₀) s) (hret : s.pc = .done ret eof) :
    s.alarm = s₀.alarm ↔ ¬(eof = true ∧ ∃ hc : channel < 3, s₀.Borrows ⟨channel, hc⟩ ∧
      ¬(s₀.alarm = 0 ∧ (s.expired = true ∨ s₀.timer ⟨channel, hc⟩ + s₀.jiffies = 0))) := by
  by_cases hc : channel < 3
  · have hkept : Kept s₀ ⟨channel, hc⟩ s := by
      refine h.invariant (I := Kept s₀ ⟨channel, hc⟩) ?_ fun s e s' hI hp hs => hI.next hp hs
      rintro s rfl
      exact kept_ttyRead hc
    have hpc := hkept.pc
    rw [hret] at hpc
    cases eof with
    | false => exact iff_of_true hpc fun hn => by cases hn.1
    | true =>
      obtain ⟨-, hlent⟩ : s₀.canon ⟨channel, hc⟩ ∧ Lent s₀ ⟨channel, hc⟩ s := hpc
      rw [hlent.alarm_iff]
      simp only [true_and, hc, exists_true_left]
  · obtain ⟨ha, hpc⟩ := refused hc h
    refine iff_of_true ha fun hn => hc ?_
    obtain ⟨-, hc, -⟩ := hn
    exact hc

/-- A terminal in canonical mode, with a timer of one tenth of a second. -/
def timed : Termios where
  cIflag := 0
  cOflag := 0
  cCflag := 0
  cLflag := icanon
  cLine := 0
  cCc k := if k = vtime then 1 else if k = vmin then 0 else initCCc k

/-- A process with this alarm; a line of one character has come in. -/
def atTerminal (jiffies alarm : BitVec 32) (c : Byte) : State where
  jiffies := jiffies
  alarm := alarm
  signal := 0
  tty _ := ⟨timed, false, .empty fun _ => 0, .empty fun _ => 0,
    (Fifo.empty fun _ => 0).putch c, 1, []⟩
  pc := .done 0 false
  expired := false

instance (s₀ s : State) (e : Event) : Decidable (s₀.Pending s e) := inferInstanceAs (Decidable (_ ∨ _))

/-- What the call of `tty_read` comes to. -/
theorem turns_any {s₀ : State} {es : List Event} {P : State → Bool}
    (h : (System.execWhen State.next s₀.Pending (s₀.ttyRead 0 10) es).any (P ·) = true) :
    ∃ s, (call s₀ 0 10).ReachableWhen s₀.Pending s ∧ P s = true := by
  obtain ⟨s, hs, hP⟩ := (Option.any_eq_true _ _).1 h
  exact ⟨s, (System.ReachableWhen.init rfl).exec (fun _ _ _ h => h) hs, hP⟩

def State.returns (s : State) : Option (ℤ × Bool) :=
  match s.pc with
  | .done ret eof => some (ret, eof)
  | _ => none

theorem pc_of_returns {s : State} {ret : ℤ} {eof : Bool} (h : s.returns = some (ret, eof)) :
    s.pc = .done ret eof := by
  unfold State.returns at h
  split at h
  · next hpc => cases h; exact hpc
  · cases h

/-- The line is a newline, and the timer of the call is sooner than the alarm. -/
theorem alarm_kept_newline : ∃ s, (call (atTerminal 1000 5000 10) 0 10).ReachableWhen
    (atTerminal 1000 5000 10).Pending s ∧ s.pc = .done 1 false ∧ s.alarm = 5000 := by
  have hrun : (System.execWhen State.next (atTerminal 1000 5000 10).Pending
      ((atTerminal 1000 5000 10).ttyRead 0 10) [.tick, .turn, .schedule, .turn, .tick, .turn]).any
      (fun s => decide (s.returns = some (1, false))) = true := by
    decide +kernel
  obtain ⟨s, hs, hret⟩ := turns_any hrun
  have hpc := pc_of_returns (of_decide_eq_true hret)
  exact ⟨s, hs, hpc, (alarm_kept_iff hs hpc).2 fun hn => by cases hn.1⟩

/-- It is an end-of-file character: the process gets `SIGALRM` after a tenth of a second. -/
theorem alarm_not_kept : ¬∀ (s₀ s : State) (channel : ℕ) (nr ret : ℤ) (eof : Bool),
    (call s₀ channel nr).ReachableWhen s₀.Pending s → s.pc = .done ret eof → s.alarm = s₀.alarm := by
  intro hall
  have hrun : (System.execWhen State.next (atTerminal 0 0 4).Pending ((atTerminal 0 0 4).ttyRead 0 10)
      [.turn, .turn]).any (fun s => decide (s.returns = some (0, true) ∧ s.alarm = 10)) = true := by
    decide +kernel
  obtain ⟨s, hs, hret⟩ := turns_any hrun
  obtain ⟨hret, halarm⟩ := of_decide_eq_true hret
  have h := hall _ s 0 10 0 true hs (pc_of_returns hret)
  rw [halarm] at h
  cases h

end Linux011.Tty.Alarm
