import Linux011.Tty.Cooked

/-!
# Terminals: the write queue

What `copy_to_cooked` echoes goes on `write_q` without a look at the room there. `tty_write` looks, and
then gets the character with `get_fs_byte`, where a page fault lets others run before it is put. And
`con_write` takes as many characters as there were when it was called, though it may be called again
before it has taken them.

1. `State.Roomy`, `State.Alone`: the conditions on the steps. `Frame.pending`: what a frame has still to
   take. `Frame.fetching`: it has seen room for a character.
2. `Echoed`, the invariant. `queues_kept`.
-/

namespace Linux011.Tty

/-- What it has still to take from the write queue of the console. -/
def Frame.pending : Frame → ℕ
  | .conWrite nr => nr
  | _ => 0

/-- It is a `tty_write` on the tty `i`, between its look at the queue and its `PUTCH`. -/
def Frame.fetching (i : Nr) : Frame → Bool
  | .write w .fetch => w.tty == i
  | _ => false

/-- A call whose turn it is not is there. -/
def State.Fetches (s : State) (i : Nr) : Prop :=
  ∃ p, ∃ f ∈ s.kept (.run false) p, f.fetching i = true

/-- `copy_to_cooked` takes another character, or takes one back. -/
def TtyStruct.Consumes (t : TtyStruct) : CookPc → Prop
  | .loop => t.takes = true
  | .kill => t.unfinished.isSome = true
  | .killed | .erased | .store _ => False

/-- The queue of `t` has room for two characters that are echoed, and for one that a call has looked for. -/
def TtyStruct.EchoRoom (t : TtyStruct) (fetches : Prop) (pc : CookPc) : Prop :=
  t.termios.l echo = true → t.Consumes pc → 2 ≤ t.writeQ.left ∧ (fetches → 2 < t.writeQ.left)

/-- The same for the one character of a call of `tty_write`. -/
def TtyStruct.WriteRoom (t : TtyStruct) (fetches : Prop) : WritePc → Prop
  | .fetch => fetches → 1 < t.writeQ.left
  | _ => True

/-- The queue has room for what the innermost frame may put there, if `fetches` says where calls of
`tty_write` have looked for room. -/
def TopRoomy (tty : Nr → TtyStruct) (fetches : Nr → Prop) : List Frame → Prop
  | .cook i pc :: _ => (tty i).EchoRoom (fetches i) pc
  | .write w pc :: _ => (tty w.tty).WriteRoom (fetches w.tty) pc
  | _ => True

def State.RoomyFor (fetches : Nr → Prop) (s : State) : Event → Prop
  | .run _ => TopRoomy s.tty fetches (s.stack s.cur)
  | _ => True

/-- Where `copy_to_cooked` echoes there is room for two characters, and no `PUTCH` takes the room that
another call of `tty_write` has seen. -/
def State.Roomy (s : State) : Event → Prop := s.RoomyFor s.Fetches

/-- What is echoed on the console is not written from within a `con_write` that has characters to take. -/
def State.Alone (s : State) : Event → Prop :=
  s.AtCook fun i pc fs => i = 0 → (cookTurn s.below (s.tty i) pc).write = true →
    Outcome.total Frame.pending fs = 0

/-- If the frame has seen room for a character, there is. -/
def Frame.Ready (tty : Nr → TtyStruct) (f : Frame) : Prop :=
  ∀ i, f.fetching i = true → (tty i).writeQ.left ≠ 0

/-- The write queues are kept in order, the console has what is still to be taken from it, and there is
room where a `tty_write` has seen it. -/
structure Echoed (s : State) : Prop where
  writeQ : ∀ i, (s.tty i).writeQ.Sound
  pending : Outcome.total Frame.pending (s.stack s.cur) ≤ (s.tty 0).writeQ.chars
  ready : ∀ p, ∀ f ∈ s.stack p, f.Ready s.tty

section Echo

variable {s s' : State} {f : Frame} {fs fs' : List Frame} {i j : Nr} {pc : CookPc} {signal : Bool}
  {e : Event} {nr : ℕ} {t : TtyStruct}

theorem pending_of_isCall (h : f.isCall = true) : f.pending = 0 := by
  cases f with
  | read | write => rfl
  | cook | conWrite => cases h

theorem total_pending_calls (h : ∀ f ∈ fs, f.isCall = true) : Outcome.total Frame.pending fs = 0 :=
  Outcome.total_eq_zero fun f hf => pending_of_isCall (h f hf)

/-- A `con_write` that `copy_to_cooked` calls is to take all that is there. -/
theorem cookStep_pending : (s.cookStep i pc).2.weight Frame.pending (fun _ => 0) =
    if i = 0 ∧ (cookTurn s.below (s.tty i) pc).write = true then
      ((s.cookStep i pc).1.tty 0).writeQ.chars else 0 := by
  rw [cookStep_fst]
  unfold State.cookStep
  dsimp only
  split
  · next hnone =>
    rw [if_neg fun h => cookTurn_turned.stays h.2 hnone]
    rfl
  · dsimp only
    by_cases hwrite : (cookTurn s.below (s.tty i) pc).write = true
    · rw [if_pos hwrite]
      unfold State.output
      by_cases hi : i = 0
      · rw [if_pos hi, if_pos ⟨hi, hwrite⟩]
        rfl
      · rw [if_neg hi, if_neg fun h => hi h.1]
        rfl
    · rw [if_neg hwrite, if_neg fun h => hwrite h.2]
      rfl

theorem conTurn_pending : (s.conTurn (nr + 1)).2.weight Frame.pending (fun _ => 0) = nr := by
  unfold State.conTurn
  dsimp only
  split_ifs
  · rfl
  · exact Nat.zero_add nr

theorem readTurn_pending {r : Reading} (pc : ReadPc) :
    (s.readTurn signal r pc).2.weight Frame.pending (fun _ => 0) = 0 := by
  rcases readTurn_cases (s := s) (r := r) signal pc with (heq | ⟨pc', heq⟩) | ⟨heq, -⟩
  · rw [heq]
    rfl
  · rw [heq]
    rfl
  · rw [heq]
    rcases take_snd (s := s) (r := r) with heq | ⟨r', heq⟩
    · rw [heq]
      rfl
    · rw [heq]
      rfl

/-- `tty_read` leaves the write queues alone. -/
theorem readTurn_writeQ {r : Reading} (signal : Bool) (pc : ReadPc) (j : Nr) :
    ((s.readTurn signal r pc).1.tty j).writeQ = (s.tty j).writeQ := by
  rcases readTurn_cases (s := s) (r := r) signal pc with (heq | ⟨pc', heq⟩) | ⟨heq, -⟩
  · rw [heq]
    rfl
  · rw [heq]
  · rw [heq, take_tty]
    refine setTty_congr TtyStruct.writeQ ?_ j
    rfl

theorem setTty_writeQ : ((s.setTty i t).tty j).writeQ = if j = i then t.writeQ else (s.tty j).writeQ := by
  by_cases hj : j = i
  · rw [hj, setTty_self, if_pos rfl]
  · rw [setTty_of_ne hj, if_neg hj]

theorem put_writeQ {w : Writing} {c : Byte} (rest : List Byte) : ∃ out, ∀ j,
    ((s.put w c rest).1.tty j).writeQ =
      if j = w.tty then (s.tty w.tty).writeQ.putch out else (s.tty j).writeQ := by
  unfold State.put
  dsimp only
  split_ifs <;> exact ⟨_, fun j => setTty_writeQ⟩

/-- `tty_write` puts a character that it has got, or writes, or does nothing to the queues. -/
theorem writeTurn_writeQ {w : Writing} (signal : Bool) (pc : WritePc) :
    (∃ c, pc = .fetch ∧ (s.writeTurn signal w pc).2.weight Frame.pending (fun _ => 0) = 0 ∧
      ∀ j, ((s.writeTurn signal w pc).1.tty j).writeQ =
        if j = w.tty then (s.tty w.tty).writeQ.putch c else (s.tty j).writeQ) ∨
    ((s.writeTurn signal w pc).2.weight Frame.pending (fun _ => 0) ≤ (s.tty 0).writeQ.chars ∧
      ∀ j, ((s.writeTurn signal w pc).1.tty j).writeQ = (s.tty j).writeQ) := by
  rcases writeTurn_cases (s := s) (w := w) signal pc with
    ⟨pc', -, heq⟩ | ⟨heq, -⟩ | ⟨-, -, -, heq⟩ | ⟨c, rest, hpc, -, heq⟩ | ⟨-, heq⟩
  · rw [heq]
    exact .inr ⟨Nat.zero_le _, fun _ => rfl⟩
  · rw [heq]
    exact .inr ⟨Nat.zero_le _, fun _ => rfl⟩
  · rw [heq]
    exact .inr ⟨Nat.zero_le _, fun _ => rfl⟩
  · rw [heq]
    obtain ⟨w', -, hgoto⟩ := put_snd (s := s) (w := w) (c := c) rest
    obtain ⟨out, hout⟩ := put_writeQ (s := s) (w := w) (c := c) rest
    rw [hgoto]
    exact .inl ⟨out, hpc, rfl, hout⟩
  · rw [heq]
    refine .inr ⟨?_, fun _ => rfl⟩
    unfold State.output
    split_ifs
    · exact (Nat.add_zero _).le
    · exact Nat.zero_le _

theorem length_rubout {u : Termios} {c : Byte} : (u.rubout c).length ≤ 2 := by
  unfold Termios.rubout
  split_ifs <;> decide

theorem length_echoOf {u : Termios} {c : Byte} : (u.echoOf c).length ≤ 2 := by
  unfold Termios.echoOf
  split_ifs
  · exact le_rfl
  · exact le_rfl
  · exact Nat.zero_le _
  · exact Nat.le_succ 1
  · exact Nat.zero_le _

theorem length_cookChar {below : Byte → Byte} {c : Byte} : (cookChar below t c).echo.length ≤ 2 := by
  unfold cookChar
  split
  · exact Nat.zero_le _
  split_ifs
  · exact Nat.zero_le _
  · split
    · exact Nat.zero_le _
    · exact length_rubout
  · exact Nat.zero_le _
  · exact Nat.zero_le _
  · exact Nat.zero_le _
  · exact length_echoOf
  · exact length_echoOf

theorem cookChar_quiet {below : Byte → Byte} {c : Byte} (h : t.termios.l echo = false) :
    (cookChar below t c).echo = [] := by
  unfold cookChar
  split
  · rfl
  split_ifs
  · rfl
  · split
    · rfl
    · exact rubout_eq_nil h
  · rfl
  · rfl
  · rfl
  · exact echoOf_eq_nil h
  · exact echoOf_eq_nil h

/-- No more than two characters are echoed in a turn, and those only with `ECHO`. -/
theorem echo_cases (below : Byte → Byte) (t : TtyStruct) (pc : CookPc) : (cookTurn below t pc).echo = [] ∨
    t.termios.l echo = true ∧ t.Consumes pc ∧ (cookTurn below t pc).echo.length ≤ 2 := by
  cases pc with
  | loop =>
    by_cases htakes : t.takes = true
    · have heq : cookTurn below t .loop = cookChar below _ _ := if_pos htakes
      rw [heq]
      by_cases hecho : t.termios.l echo = true
      · exact .inr ⟨hecho, htakes, length_cookChar⟩
      · exact .inl (cookChar_quiet (Bool.eq_false_iff.2 hecho))
    · have heq : cookTurn below t .loop = ⟨t, [], none, false⟩ := if_neg htakes
      rw [heq]
      exact .inl rfl
  | kill =>
    unfold cookTurn
    dsimp only
    split
    · exact .inl rfl
    · next c hc =>
      by_cases hecho : t.termios.l echo = true
      · exact .inr ⟨hecho, by rw [TtyStruct.Consumes, hc]; rfl, length_rubout⟩
      · exact .inl (rubout_eq_nil (Bool.eq_false_iff.2 hecho))
  | killed | erased | store => exact .inl rfl

theorem cookTurn_echo {below : Byte → Byte} : (cookTurn below t pc).echo.length ≤ 2 := by
  rcases echo_cases below t pc with hnil | ⟨-, -, hle⟩
  · rw [hnil]
    exact Nat.zero_le _
  · exact hle

/-- What is echoed has room, and leaves room where a call of `tty_write` has seen it. -/
theorem echo_fits (below : Byte → Byte) {fetches : Prop} (h : t.EchoRoom fetches pc)
    (hready : fetches → t.writeQ.left ≠ 0) : (cookTurn below t pc).echo.length ≤ t.writeQ.left ∧
      (fetches → (cookTurn below t pc).echo.length < t.writeQ.left) := by
  rcases echo_cases below t pc with hnil | ⟨hecho, hconsumes, hle⟩
  · rw [hnil]
    exact ⟨Nat.zero_le _, fun hf => Nat.pos_of_ne_zero (hready hf)⟩
  · obtain ⟨htwo, hthree⟩ := h hecho hconsumes
    exact ⟨hle.trans htwo, fun hf => hle.trans_lt (hthree hf)⟩

theorem Echoed.fetches (h : Echoed s) (hf : s.Fetches i) : (s.tty i).writeQ.left ≠ 0 := by
  obtain ⟨p, f, hmem, hfetching⟩ := hf
  exact h.ready p f (mem_of_kept hmem) i hfetching

theorem cookStep_writeQ : ((s.cookStep i pc).1.tty j).writeQ = if j = i then
    (s.tty i).writeQ.puts (cookTurn s.below (s.tty i) pc).echo else (s.tty j).writeQ := by
  rw [cookStep_fst, setTty_writeQ]
  exact if_congr Iff.rfl (congrArg (fun q => Fifo.puts q _) cookTurn_turned.writeQ) rfl

theorem Echoed.cook (h : Echoed s) (hs : s.stack s.cur = .cook i pc :: fs)
    (hroomy : (s.tty i).EchoRoom (s.Fetches i) pc) (halone : s.Alone (.run signal)) :
    (∀ j, ((s.cookStep i pc).1.tty j).writeQ.Sound) ∧
    (s.cookStep i pc).2.weight Frame.pending (fun _ => 0) + Outcome.total Frame.pending fs ≤
      ((s.cookStep i pc).1.tty 0).writeQ.chars ∧
    ∀ j, s.Fetches j → ((s.cookStep i pc).1.tty j).writeQ.left ≠ 0 := by
  obtain ⟨hfits, hless⟩ := echo_fits s.below hroomy h.fetches
  have hpending := h.pending
  rw [hs, Outcome.total_cons] at hpending
  refine ⟨fun j => ?_, ?_, fun j hj => ?_⟩
  · rw [cookStep_writeQ]
    split_ifs
    · exact (h.writeQ i).puts hfits
    · exact h.writeQ j
  · rw [cookStep_pending]
    split_ifs with hwrite
    · rw [State.AtCook.top halone hs hwrite.1 hwrite.2]
      exact le_rfl
    · rw [cookStep_writeQ]
      split_ifs with hi
      · rw [Fifo.chars_puts hfits, ← hi]
        exact hpending.trans (Nat.le_add_right _ _)
      · exact hpending
  · rw [cookStep_writeQ]
    split_ifs with hi
    · subst hi
      have hlt := hless hj
      have hsum := Fifo.chars_add_left (q := (s.tty j).writeQ)
      have hsum' := Fifo.chars_add_left (q := (s.tty j).writeQ.puts (cookTurn s.below (s.tty j) pc).echo)
      rw [Fifo.chars_puts hfits] at hsum'
      omega
    · exact h.fetches hj

/-- Where a character is taken from a queue, there is room. -/
theorem left_getch {q : Queue} (h : q.chars ≠ 0) : q.getch.left ≠ 0 := by
  have hsum := Fifo.chars_add_left (q := q)
  have hsum' := Fifo.chars_add_left (q := q.getch)
  rw [Fifo.chars_getch h] at hsum'
  omega

theorem Echoed.con (h : Echoed s) (hs : s.stack s.cur = .conWrite nr :: fs) :
    (∀ j, ((s.conTurn nr).1.tty j).writeQ.Sound) ∧
    (s.conTurn nr).2.weight Frame.pending (fun _ => 0) + Outcome.total Frame.pending fs ≤
      ((s.conTurn nr).1.tty 0).writeQ.chars ∧
    ∀ j, s.Fetches j → ((s.conTurn nr).1.tty j).writeQ.left ≠ 0 := by
  have hpending := h.pending
  rw [hs, Outcome.total_cons] at hpending
  cases nr with
  | zero => exact ⟨h.writeQ, hpending, fun _ => h.fetches⟩
  | succ nr =>
    have hpending : nr + 1 + Outcome.total Frame.pending fs ≤ (s.tty 0).writeQ.chars := hpending
    have hchars : (s.tty 0).writeQ.chars ≠ 0 := by omega
    have hwriteQ : ∀ j, ((s.conTurn (nr + 1)).1.tty j).writeQ =
        if j = 0 then (s.tty 0).writeQ.getch else (s.tty j).writeQ := fun j => setTty_writeQ
    refine ⟨fun j => ?_, ?_, fun j hj => ?_⟩
    · rw [hwriteQ]
      split_ifs
      · exact (h.writeQ 0).getch hchars
      · exact h.writeQ j
    · rw [conTurn_pending, hwriteQ, if_pos rfl, Fifo.chars_getch hchars]
      omega
    · rw [hwriteQ]
      split_ifs
      · exact left_getch hchars
      · exact h.fetches hj

theorem Echoed.write {w : Writing} {pc : WritePc} (h : Echoed s) (hs : s.stack s.cur = [.write w pc])
    (hroomy : (s.tty w.tty).WriteRoom (s.Fetches w.tty) pc) :
    (∀ j, ((s.writeTurn signal w pc).1.tty j).writeQ.Sound) ∧
    (s.writeTurn signal w pc).2.weight Frame.pending (fun _ => 0) ≤
      ((s.writeTurn signal w pc).1.tty 0).writeQ.chars ∧
    ∀ j, s.Fetches j → ((s.writeTurn signal w pc).1.tty j).writeQ.left ≠ 0 := by
  rcases writeTurn_writeQ (s := s) (w := w) signal pc with
    ⟨c, rfl, hweight, hwriteQ⟩ | ⟨hweight, hwriteQ⟩
  · have hleft : (s.tty w.tty).writeQ.left ≠ 0 := by
      refine h.ready s.cur _ (hs ▸ List.mem_cons_self) w.tty ?_
      exact beq_self_eq_true w.tty
    refine ⟨fun j => ?_, ?_, fun j hj => ?_⟩
    · rw [hwriteQ]
      split_ifs
      · exact (h.writeQ w.tty).putch hleft
      · exact h.writeQ j
    · rw [hweight]
      exact Nat.zero_le _
    · rw [hwriteQ]
      split_ifs with hw
      · have hlt : 1 < (s.tty w.tty).writeQ.left := hroomy (hw ▸ hj)
        rw [Fifo.left_putch hleft]
        omega
      · exact h.fetches hj
  · refine ⟨fun j => ?_, ?_, fun j hj => ?_⟩
    · rw [hwriteQ]
      exact h.writeQ j
    · rw [hwriteQ]
      exact hweight
    · rw [hwriteQ]
      exact h.fetches hj

theorem Echoed.turn (h : Echoed s) (ho : Ordered s) (hs : s.stack s.cur = f :: fs)
    (hroomy : s.Roomy (.run signal)) (halone : s.Alone (.run signal)) :
    (∀ j, ((s.turn signal f).1.tty j).writeQ.Sound) ∧
    (s.turn signal f).2.weight Frame.pending (fun _ => 0) + Outcome.total Frame.pending fs ≤
      ((s.turn signal f).1.tty 0).writeQ.chars ∧
    ∀ j, s.Fetches j → ((s.turn signal f).1.tty j).writeQ.left ≠ 0 := by
  have hnested : Outcome.Nested Above (f :: fs) := hs ▸ ho.nested s.cur
  have hroomy : TopRoomy s.tty s.Fetches (s.stack s.cur) := hroomy
  rw [hs] at hroomy
  cases f with
  | cook i pc => exact h.cook hs hroomy halone
  | conWrite nr => exact h.con hs
  | read r pc =>
    obtain rfl := nil_of_isCall hnested rfl
    have hwriteQ := readTurn_writeQ (s := s) (r := r) signal pc
    refine ⟨fun j => ?_, ?_, fun j hj => ?_⟩
    · exact (hwriteQ j).symm ▸ h.writeQ j
    · show (s.readTurn signal r pc).2.weight Frame.pending (fun _ => 0) + 0 ≤ _
      rw [readTurn_pending]
      exact Nat.zero_le _
    · exact (hwriteQ j).symm ▸ h.fetches hj
  | write w pc =>
    obtain rfl := nil_of_isCall hnested rfl
    exact h.write hs hroomy

/-- A frame that has seen room has seen it in its turn. -/
theorem turn_ready : (s.turn signal f).2.All (Frame.Ready (s.turn signal f).1.tty) := by
  have hnone : f.isCall = false → (s.turn signal f).2.All (Frame.Ready (s.turn signal f).1.tty) := by
    refine fun hf => (turn_calls hf).mono fun g hg => ?_
    cases g with
    | cook | conWrite => nofun
    | read | write => cases hg
  cases f with
  | cook i pc => exact hnone rfl
  | conWrite nr => exact hnone rfl
  | read r pc => exact readTurn_all pc nofun
  | write w pc =>
    show (s.writeTurn signal w pc).2.All (Frame.Ready (s.writeTurn signal w pc).1.tty)
    rcases writeTurn_cases (s := s) (w := w) signal pc with
      ⟨pc', hpc, heq⟩ | ⟨heq, -⟩ | ⟨-, -, hleft, heq⟩ | ⟨c, rest, -, -, heq⟩ | ⟨-, heq⟩
    · rw [heq]
      intro i hi
      cases pc' with
      | fetch => exact absurd rfl hpc
      | loop | sleep | asleep | fill | flush | written | resched => cases hi
    · rw [heq]
      trivial
    · rw [heq]
      intro i hi
      have hi : (w.tty == i) = true := hi
      rw [← beq_iff_eq.1 hi]
      exact hleft
    · rw [heq]
      obtain ⟨w', -, hgoto⟩ := put_snd (s := s) (w := w) (c := c) rest
      rw [hgoto]
      nofun
    · rw [heq]
      show (s.output w.tty _).All _
      unfold State.output
      split_ifs
      · exact ⟨nofun, nofun⟩
      · nofun

/-- A step that is no turn leaves the queues, or makes room on them. -/
theorem other_writeQ (hs : s.next e = some s') (he : ∀ signal, e ≠ .run signal) (j : Nr) :
    (s'.tty j).writeQ = (s.tty j).writeQ ∨ s.stack s.cur = [] ∧ (s'.tty j).writeQ = (s.tty j).writeQ.flush ∨
      j ≠ 0 ∧ (s.tty j).writeQ.chars ≠ 0 ∧ (s'.tty j).writeQ = (s.tty j).writeQ.getch := by
  cases next_changes hs with
  | schedule | read | write | exit => exact .inl rfl
  | ioctl i c hempty =>
    rw [setTty_writeQ]
    split_ifs with hj
    · subst hj
      cases c with
      | flushOutput => exact .inr (.inl ⟨hempty, rfl⟩)
      | setTermios | setTermio | flushInput => exact .inl rfl
    · exact .inl rfl
  | receive i _ q =>
    refine .inl (setTty_congr TtyStruct.writeQ ?_ j)
    rfl
  | transmit i hi hne =>
    rw [setTty_writeQ]
    split_ifs with hj
    · subst hj
      refine .inr (.inr ⟨hi, fun hzero => ?_, rfl⟩)
      rw [Fifo.isEmpty_iff.2 hzero] at hne
      cases hne
    · exact .inl rfl
  | run signal => exact absurd rfl (he signal)

theorem left_flush {q : Queue} : q.flush.left ≠ 0 := by
  have hsum := Fifo.chars_add_left (q := q.flush)
  rw [Fifo.chars_flush] at hsum
  omega

/-- The console has what is to be taken from it after a step that is no turn. -/
theorem Echoed.other (h : Echoed s) (ho : Ordered s) (hs : s.next e = some s')
    (he : ∀ signal, e ≠ .run signal) :
    Outcome.total Frame.pending (s'.stack s'.cur) ≤ (s'.tty 0).writeQ.chars := by
  cases next_changes hs with
  | schedule p hy =>
    have hzero : Outcome.total Frame.pending (s.stack p) = 0 := by
      by_cases hp : p = s.cur
      · exact total_pending_calls (hp ▸ ho.calls_of_yields hy)
      · exact total_pending_calls (ho.calls p hp)
    show Outcome.total Frame.pending (s.stack p) ≤ _
    rw [hzero]
    exact Nat.zero_le _
  | read | write | exit =>
    rw [setStack_cur]
    exact Nat.zero_le _
  | ioctl i c hempty =>
    show Outcome.total Frame.pending (s.stack s.cur) ≤ _
    rw [hempty]
    exact Nat.zero_le _
  | receive i _ q =>
    obtain ⟨t, ht⟩ : ∃ t, t = { s.tty i with readQ := q } := ⟨_, rfl⟩
    have hwriteQ := setTty_congr (s := s) (i := i) (t := t) TtyStruct.writeQ (by rw [ht])
    rw [← ht, setStack_cur, Outcome.total_cons]
    show 0 + _ ≤ ((s.setTty i t).tty 0).writeQ.chars
    rw [hwriteQ, Nat.zero_add]
    exact h.pending
  | transmit i hi hne =>
    rw [setTty_writeQ, if_neg (Ne.symm hi)]
    exact h.pending
  | run signal => exact absurd rfl (he signal)

theorem Echoed.next (h : Echoed s) (ho : Ordered s) (hroomy : s.Roomy e) (halone : s.Alone e)
    (hs : s.next e = some s') : Echoed s' := by
  by_cases he : ∃ signal, e = .run signal
  · obtain ⟨signal, rfl⟩ := he
    obtain ⟨f, fs, hstack⟩ := stack_of_run hs
    obtain ⟨fs', hfs, hs'⟩ := run_eq_some hstack hs
    obtain ⟨hsound, hpending, hready⟩ := h.turn ho hstack hroomy halone
    have htotal : Outcome.total Frame.pending fs' = _ :=
      Outcome.resume_total (u := fun _ => 0) (fun _ _ _ _ _ => rfl) (fun _ _ _ => rfl) hfs
    have htty : s'.tty = (s.turn signal f).1.tty := hs' ▸ rfl
    refine ⟨fun i => htty ▸ hsound i, ?_, next_frames hs (fun p g hg i hi => ?_) ?_⟩
    · rw [hs', setStack_cur, htotal]
      exact hpending
    · rw [htty]
      exact hready i ⟨p, g, hg, hi⟩
    · intro g gs hg
      obtain ⟨rfl, -⟩ := List.cons.inj (hg.symm.trans hstack)
      rw [htty]
      exact turn_ready
  · have he : ∀ signal, e ≠ .run signal := fun signal heq => he ⟨signal, heq⟩
    have hwriteQ := fun j => other_writeQ hs he j
    refine ⟨fun i => ?_, h.other ho hs he, next_frames hs (fun p f hf i hi => ?_) ?_⟩
    · rcases hwriteQ i with heq | ⟨-, heq⟩ | ⟨-, hchars, heq⟩
      · exact heq ▸ h.writeQ i
      · exact heq ▸ (h.writeQ i).flush
      · exact heq ▸ (h.writeQ i).getch hchars
    · rcases hwriteQ i with heq | ⟨-, heq⟩ | ⟨-, hchars, heq⟩
      · rw [heq]
        exact h.ready p f (mem_of_kept hf) i hi
      · rw [heq]
        exact left_flush
      · rw [heq]
        exact left_getch hchars
    · cases e with
      | run signal => exact absurd rfl (he signal)
      | read | write | receive => nofun
      | schedule | ioctl | transmit | exit => trivial

theorem State.Fresh.echoed (h : s.Fresh) : Echoed s := by
  refine ⟨fun i => ?_, ?_, fun p f hf => ?_⟩
  · obtain ⟨buf, hbuf⟩ := h.writeQ i
    rw [hbuf]
    exact Fifo.sound_empty
  · rw [h.stack]
    exact Nat.zero_le _
  · rw [h.stack] at hf
    cases hf

end Echo

/-- Where there is room for what is echoed, and for what a call of `tty_write` has got, and calls of
`copy_to_cooked` and of `con_write` are not in each other's way. -/
def State.Uncrowded (s : State) (e : Event) : Prop :=
  s.Unshared e ∧ s.Roomy e ∧ s.Alone e

/-- `State.Fetches`, where only the processes before `n` have been in the kernel. -/
def State.FetchesBelow (n : ℕ) (s : State) (i : Nr) : Prop :=
  ∃ p < n, ∃ f ∈ s.kept (.run false) p, f.fetching i = true

instance (n : ℕ) (s : State) (i : Nr) : Decidable (s.FetchesBelow n i) :=
  inferInstanceAs (Decidable (∃ p < n, _))

/-- Only the processes before `n` run. -/
def Event.Below (n : ℕ) : Event → Prop
  | .schedule p => p < n
  | _ => True

/-- `State.Uncrowded`, for the processes before `n`. -/
def State.UncrowdedBelow (n : ℕ) (s : State) (e : Event) : Prop :=
  s.Unshared e ∧ s.RoomyFor (s.FetchesBelow n) e ∧ s.Alone e ∧ e.Below n

/-- The other processes have done nothing. -/
def Quiet (n : ℕ) (s : State) : Prop := s.cur < n ∧ ∀ p, n ≤ p → s.stack p = []

section Below

variable {s s' : State} {e : Event} {n : ℕ} {i : Nr}

theorem Quiet.fetches (h : Quiet n s) (hf : s.Fetches i) : s.FetchesBelow n i := by
  obtain ⟨p, f, hmem, hfetching⟩ := hf
  refine ⟨p, ?_, f, hmem, hfetching⟩
  by_contra hge
  have hstack := mem_of_kept hmem
  rw [h.2 p (by omega)] at hstack
  cases hstack

theorem roomyFor_mono {F G : Nr → Prop} (hFG : ∀ i, F i → G i) (h : s.RoomyFor G e) : s.RoomyFor F e := by
  cases e with
  | run signal =>
    have h : TopRoomy s.tty G (s.stack s.cur) := h
    show TopRoomy s.tty F (s.stack s.cur)
    cases hs : s.stack s.cur with
    | nil => trivial
    | cons f fs =>
      rw [hs] at h
      cases f with
      | cook i pc =>
        exact fun hecho hc => ⟨(h hecho hc).1, fun hf => (h hecho hc).2 (hFG i hf)⟩
      | write w pc =>
        cases pc with
        | fetch => exact fun hf => h (hFG w.tty hf)
        | loop | sleep | asleep | fill | flush | written | resched => trivial
      | conWrite | read => trivial
  | schedule | read | write | ioctl | receive | transmit | exit => trivial

theorem Quiet.next (h : Quiet n s) (he : e.Below n) (hs : s.next e = some s') : Quiet n s' := by
  have hset : ∀ {t : State} {gs : List Frame}, t.stack = s.stack → t.cur = s.cur →
      Quiet n (t.setStack gs) := by
    intro t gs ht hcur
    refine ⟨(congrArg (· < n) hcur).mpr h.1, fun p hp => ?_⟩
    rw [setStack_stack, ht, hcur, if_neg (by have hlt := h.1; omega)]
    exact h.2 p hp
  cases next_changes hs with
  | schedule p => exact ⟨he, h.2⟩
  | ioctl | transmit => exact h
  | read | write | receive | exit => exact hset rfl rfl
  | run signal => exact hset (turn_stack signal).1 (turn_stack signal).2

/-- A run in which only the processes before `n` have been meets the condition. -/
theorem Quiet.uncrowded (h : Quiet n s) (hr : lines.ReachableWhen State.Uncrowded s)
    (hl : lines.Leads (State.UncrowdedBelow n) s s') : lines.ReachableWhen State.Uncrowded s' := by
  suffices Quiet n s' ∧ lines.ReachableWhen State.Uncrowded s' from this.2
  refine hl.invariant (I := fun s => Quiet n s ∧ lines.ReachableWhen State.Uncrowded s)
    (fun s e s' hI hok hs => ?_) ⟨h, hr⟩
  obtain ⟨hshared, hroomy, halone, hbelow⟩ := hok
  exact ⟨hI.1.next hbelow hs,
    hI.2.step ⟨hshared, roomyFor_mono (fun _ => hI.1.fetches) hroomy, halone⟩ hs⟩

end Below

instance (t : TtyStruct) : ∀ pc, Decidable (t.Consumes pc)
  | .loop | .kill => inferInstanceAs (Decidable (_ = true))
  | .killed | .erased | .store _ => .isFalse id

instance (t : TtyStruct) (F : Prop) [Decidable F] (pc : CookPc) : Decidable (t.EchoRoom F pc) :=
  inferInstanceAs (Decidable (_ → t.Consumes pc → _ ∧ (F → _)))

instance (t : TtyStruct) (F : Prop) [Decidable F] : ∀ pc, Decidable (t.WriteRoom F pc)
  | .fetch => inferInstanceAs (Decidable (F → _))
  | .loop | .sleep | .asleep | .fill | .flush | .written | .resched => .isTrue trivial

instance (tty : Nr → TtyStruct) (F : Nr → Prop) [DecidablePred F] : ∀ fs, Decidable (TopRoomy tty F fs)
  | .cook i pc :: _ => inferInstanceAs (Decidable ((tty i).EchoRoom (F i) pc))
  | .write w pc :: _ => inferInstanceAs (Decidable ((tty w.tty).WriteRoom (F w.tty) pc))
  | [] | .conWrite _ :: _ | .read .. :: _ => .isTrue trivial

instance (s : State) (F : Nr → Prop) [DecidablePred F] : ∀ e, Decidable (s.RoomyFor F e)
  | .run _ => inferInstanceAs (Decidable (TopRoomy s.tty F (s.stack s.cur)))
  | .schedule _ | .read .. | .write .. | .ioctl .. | .receive .. | .transmit _ | .exit => .isTrue trivial

instance (n : ℕ) : ∀ e, Decidable (Event.Below n e)
  | .schedule p => inferInstanceAs (Decidable (p < n))
  | .read .. | .write .. | .ioctl .. | .receive .. | .transmit _ | .exit | .run _ => .isTrue trivial

instance (n : ℕ) (s : State) (e : Event) : Decidable (s.UncrowdedBelow n e) :=
  inferInstanceAs (Decidable (s.Unshared e ∧ s.RoomyFor (s.FetchesBelow n) e ∧ s.AtCook _ e ∧ e.Below n))

/-- A serial line that echoes what it reads. -/
def echoing : Termios := ⟨0, 0, b2400 ||| cs8, echo, 0, initCCc⟩

/-- Two characters went out on the serial line 1 for every newline that came in; `k` are to come. -/
structure Flood (k : ℕ) (s : State) : Prop where
  stack : s.stack s.cur = []
  termios : (s.tty 1).termios = echoing
  readQ : (s.tty 1).readQ.contents = []
  secondary : (s.tty 1).secondary.chars + k ≤ 512
  log : (s.tty 1).writeQ.log.length + 2 * k = 1024
  taken : (s.tty 1).writeQ.taken = []

section Flood

variable {s : State} {t : TtyStruct} {below : Byte → Byte} {i : Nr} {pc pc' : CookPc} {fs : List Frame}
  {r : Turn} {signal : Bool} {k : ℕ}

theorem cookChar_newline (ht : t.termios = echoing) : cookChar below t 10 =
    ⟨{ t with data := t.data + 1 }, [10, 13], some (.store 10), true⟩ := by
  unfold cookChar TtyStruct.unfinished
  rw [ht]
  rfl

/-- A turn for a serial line only puts characters on the queues. -/
theorem run_serial (hs : s.stack s.cur = .cook i pc :: fs) (hi : i ≠ 0)
    (hr : cookTurn s.below (s.tty i) pc = r) (hnext : r.next = some pc') :
    s.next (.run signal) =
      some ((s.setTty i (r.tty.putWrite none r.echo)).setStack (.cook i pc' :: fs)) := by
  have hstep : s.cookStep i pc =
      (s.setTty i (r.tty.putWrite none r.echo), .goto (.cook i pc')) := by
    unfold State.cookStep
    rw [hr]
    dsimp only
    rw [hnext]
    dsimp only
    split_ifs
    · unfold State.output
      rw [if_neg hi]
    · rfl
  show s.run signal = _
  unfold State.run
  rw [hs]
  show ((s.cookStep i pc).2.resume _ fs).map (s.cookStep i pc).1.setStack = _
  rw [hstep]
  rfl

theorem cookTurn_done (h : t.readQ.contents = []) : cookTurn below t .loop = ⟨t, [], none, false⟩ := by
  have hempty : t.readQ.isEmpty = true := Fifo.isEmpty_iff.2 (Fifo.contents_eq_nil.1 h)
  unfold cookTurn
  rw [hempty]
  rfl

/-- `copy_to_cooked` returns to where it was called. -/
theorem run_done (hs : s.stack s.cur = [.cook i pc])
    (hr : cookTurn s.below (s.tty i) pc = ⟨t, [], none, false⟩) :
    s.next (.run signal) = some ((s.setTty i t).setStack []) := by
  have hstep : s.cookStep i pc = (s.setTty i t, .ret ()) := by
    unfold State.cookStep
    rw [hr]
    show (s.setTty i (t.putWrite none []), _) = _
    rw [putWrite_nil]
  show s.run signal = _
  unfold State.run
  rw [hs]
  show ((s.cookStep i pc).2.resume _ []).map (s.cookStep i pc).1.setStack = _
  rw [hstep]
  rfl

/-- A newline comes in, is echoed, and is put on `secondary`. -/
theorem Flood.next (h : Flood (k + 1) s) : ∃ s', lines.Leads (fun _ _ => True) s s' ∧ Flood k s' := by
  have hroom : [(10 : Byte)].length ≤ (s.tty 1).readQ.left := by
    have hsum := Fifo.chars_add_left (q := (s.tty 1).readQ)
    rw [Fifo.contents_eq_nil.1 h.readQ] at hsum
    rw [List.length_singleton]
    omega
  have hin : ((s.tty 1).readQ.puts [10]).contents = [10] := by
    rw [Fifo.contents_puts hroom, h.readQ, List.nil_append]
  have hchars : ((s.tty 1).readQ.puts [10]).chars ≠ 0 := by
    rw [← Fifo.length_contents, hin]
    decide
  obtain ⟨hfirst, hrest⟩ := List.cons.inj (hin.symm.trans (Fifo.contents_getch hchars))
  have hsecondary := h.secondary
  have hsum := Fifo.chars_add_left (q := (s.tty 1).secondary)
  have hleft : (s.tty 1).secondary.left ≠ 0 := by omega
  -- The interrupt.
  obtain ⟨t₀, ht₀⟩ : ∃ t : TtyStruct, t = { s.tty 1 with readQ := (s.tty 1).readQ.puts [10] } := ⟨_, rfl⟩
  obtain ⟨s₀, hs₀⟩ : ∃ s₀, s₀ = (s.setTty 1 t₀).setStack [.cook 1 .loop] := ⟨_, rfl⟩
  have h₀ : s.next (.receive 1 [10]) = some s₀ := by
    show some (s.receive 1 [10]) = _
    unfold State.receive
    dsimp only
    rw [if_pos hroom, hs₀, ht₀, ← h.stack]
    rfl
  have htty₀ : s₀.tty 1 = t₀ := by rw [hs₀, setStack_tty, setTty_self]
  -- The character is taken, and echoed.
  obtain ⟨t₁, ht₁⟩ : ∃ t : TtyStruct, t = { t₀ with readQ := t₀.readQ.getch, data := t₀.data + 1 } :=
    ⟨_, rfl⟩
  have hturn₁ : cookTurn s₀.below (s₀.tty 1) .loop = ⟨t₁, [10, 13], some (.store 10), true⟩ := by
    have htakes : (!t₀.readQ.isEmpty && !t₀.secondary.isFull) = true := by
      rw [Bool.and_eq_true, Bool.not_eq_true', Bool.not_eq_true', Bool.eq_false_iff, Bool.eq_false_iff, Ne,
        Ne, Fifo.isEmpty_iff, Fifo.isFull_iff, ht₀]
      exact ⟨hchars, hleft⟩
    have hten : t₀.readQ.first = 10 := by
      rw [ht₀]
      exact hfirst.symm
    unfold cookTurn
    rw [htty₀, if_pos htakes, hten, ht₁]
    refine cookChar_newline ?_
    rw [ht₀]
    exact h.termios
  obtain ⟨t₂, ht₂⟩ : ∃ t : TtyStruct, t = t₁.putWrite none [10, 13] := ⟨_, rfl⟩
  obtain ⟨s₁, hs₁⟩ : ∃ s₁, s₁ = (s₀.setTty 1 t₂).setStack [.cook 1 (.store 10)] := ⟨_, rfl⟩
  have h₁ : s₀.next (.run false) = some s₁ := by
    rw [hs₁, ht₂]
    exact run_serial (by rw [hs₀]; exact setStack_cur) (by decide) hturn₁ rfl
  have htty₁ : s₁.tty 1 = t₂ := by rw [hs₁, setStack_tty, setTty_self]
  -- It is stored.
  obtain ⟨t₃, ht₃⟩ : ∃ t : TtyStruct, t = { t₂ with secondary := t₂.secondary.putch 10 } := ⟨_, rfl⟩
  have hturn₂ : cookTurn s₁.below (s₁.tty 1) (.store 10) = ⟨t₃, [], some .loop, false⟩ := by
    rw [htty₁, ht₃]
    rfl
  obtain ⟨s₂, hs₂⟩ : ∃ s₂, s₂ = (s₁.setTty 1 t₃).setStack [.cook 1 .loop] := ⟨_, rfl⟩
  have h₂ : s₁.next (.run false) = some s₂ := by
    rw [hs₂, ← putWrite_nil t₃ none]
    exact run_serial (by rw [hs₁]; exact setStack_cur) (by decide) hturn₂ rfl
  have htty₂ : s₂.tty 1 = t₃ := by rw [hs₂, setStack_tty, setTty_self]
  -- There is no other.
  have hempty : t₃.readQ.contents = [] := by
    rw [ht₃, ht₂, ht₁, ht₀]
    exact hrest.symm
  obtain ⟨s₃, hs₃⟩ : ∃ s₃, s₃ = (s₂.setTty 1 t₃).setStack [] := ⟨_, rfl⟩
  have h₃ : s₂.next (.run false) = some s₃ := by
    rw [hs₃]
    exact run_done (by rw [hs₂]; exact setStack_cur) (by rw [htty₂]; exact cookTurn_done hempty)
  have htty₃ : s₃.tty 1 = t₃ := by rw [hs₃, setStack_tty, setTty_self]
  refine ⟨s₃, .head ⟨_, trivial, h₀⟩ (.head ⟨_, trivial, h₁⟩ (.head ⟨_, trivial, h₂⟩
    (.single ⟨_, trivial, h₃⟩))), by rw [hs₃]; exact setStack_cur, ?_, htty₃ ▸ hempty, ?_, ?_, ?_⟩
  · rw [htty₃, ht₃, ht₂, ht₁, ht₀]
    exact h.termios
  · rw [htty₃, ht₃, ht₂, ht₁, ht₀]
    show ((s.tty 1).secondary.putch 10).chars + k ≤ 512
    rw [Fifo.chars_putch hleft]
    omega
  · have hlog := h.log
    rw [htty₃, ht₃, ht₂, ht₁, ht₀]
    show (s.tty 1).writeQ.log.length + 2 + 2 * k = 1024
    omega
  · rw [htty₃, ht₃, ht₂, ht₁, ht₀]
    exact h.taken

theorem Flood.leads (h : Flood k s) : ∃ s', lines.Leads (fun _ _ => True) s s' ∧ Flood 0 s' := by
  induction k generalizing s with
  | zero => exact ⟨s, .refl, h⟩
  | succ k ih =>
    obtain ⟨s₁, h₁, hflood⟩ := h.next
    obtain ⟨s', hleads, hend⟩ := ih hflood
    exact ⟨s', h₁.trans hleads, hend⟩

end Flood

end Linux011.Tty
