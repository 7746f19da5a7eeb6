import Linux011.Tty.Line

/-!
# Terminals: who has a character in hand

A `copy_to_cooked` may be called while another one of the same tty has a character in hand: by
`respond`, or by an interrupt. What holds of `secondary` where they do not get into each other's way.

1. `CookStep`: what a turn of `copy_to_cooked` can do. `cookTurn_step`.
2. `State.Unshared`, the condition on the steps. `Ordered`, what it keeps of the stacks.
3. `Frame.OfHand`: a weight of the frames that have a character. How a step changes its total.
4. `Handled`, the invariant. `Handled.next`.
-/

namespace Linux011.Tty

/-! ## Turns of `copy_to_cooked` -/

def TtyStruct.takes (t : TtyStruct) : Bool := !t.readQ.isEmpty && !t.secondary.isFull

/-- A turn from `pc` goes on at `next`, with `data` and `secondary` so changed. -/
inductive CookStep (t : TtyStruct) : CookPc → Option CookPc → BitVec 32 → Queue → Prop
  | done : t.takes = false → CookStep t .loop none t.data t.secondary
  | skip : t.takes = true → CookStep t .loop (some .loop) t.data t.secondary
  | kills : t.takes = true → CookStep t .loop (some .kill) t.data t.secondary
  | erases (c : Byte) : t.takes = true → t.unfinished = some c →
      CookStep t .loop (some .erased) t.data t.secondary
  | stores (c : Byte) (d : BitVec 32) : t.takes = true →
      d = (if t.termios.ends c then t.data + 1 else t.data) →
      CookStep t .loop (some (.store c)) d t.secondary
  | lineEnd : t.unfinished = none → CookStep t .kill (some .loop) t.data t.secondary
  | kill (c : Byte) : t.unfinished = some c → CookStep t .kill (some .killed) t.data t.secondary
  | killed : CookStep t .killed (some .kill) t.data t.secondary.unput
  | erased : CookStep t .erased (some .loop) t.data t.secondary.unput
  | stored (c : Byte) : CookStep t (.store c) (some .loop) t.data (t.secondary.putch c)

/-- What a turn leaves alone, and that an echo is written at once. -/
structure Turned (t : TtyStruct) (r : Turn) : Prop where
  termios : r.tty.termios = t.termios
  writeQ : r.tty.writeQ = t.writeQ
  puts : r.tty.puts = t.puts
  echo : r.write = false → r.echo = []
  stays : r.write = true → r.next ≠ none

section Turn

variable {t : TtyStruct} {below : Byte → Byte} {c : Byte} {pc : CookPc} {call : Option ℕ} {cs : List Byte}

theorem putWrite_nil (t : TtyStruct) (call : Option ℕ) : t.putWrite call [] = t := by
  unfold TtyStruct.putWrite
  rw [List.map_nil, List.append_nil]
  rfl

@[simp] theorem putWrite_termios : (t.putWrite call cs).termios = t.termios := rfl

@[simp] theorem putWrite_secondary : (t.putWrite call cs).secondary = t.secondary := rfl

@[simp] theorem putWrite_data : (t.putWrite call cs).data = t.data := rfl

@[simp] theorem putWrite_writeQ : (t.putWrite call cs).writeQ = t.writeQ.puts cs := rfl

@[simp] theorem putWrite_puts : (t.putWrite call cs).puts = t.puts ++ cs.map (call, ·) := rfl

theorem rubout_eq_nil {u : Termios} (h : u.l echo = false) : u.rubout c = [] := by
  unfold Termios.rubout
  rw [h]
  rfl

theorem echoOf_eq_nil {u : Termios} (h : u.l echo = false) : u.echoOf c = [] := by
  unfold Termios.echoOf
  rw [h]
  rfl

theorem cookChar_turned : Turned t (cookChar below t c) := by
  unfold cookChar
  split
  · exact ⟨rfl, rfl, rfl, fun _ => rfl, nofun⟩
  split_ifs
  · exact ⟨rfl, rfl, rfl, fun _ => rfl, nofun⟩
  · split
    · exact ⟨rfl, rfl, rfl, fun _ => rfl, nofun⟩
    · exact ⟨rfl, rfl, rfl, rubout_eq_nil, fun _ => nofun⟩
  · exact ⟨rfl, rfl, rfl, fun _ => rfl, nofun⟩
  · exact ⟨rfl, rfl, rfl, fun _ => rfl, nofun⟩
  · exact ⟨rfl, rfl, rfl, fun _ => rfl, nofun⟩
  · exact ⟨rfl, rfl, rfl, echoOf_eq_nil, fun _ => nofun⟩
  · exact ⟨rfl, rfl, rfl, echoOf_eq_nil, fun _ => nofun⟩

theorem cookTurn_turned : Turned t (cookTurn below t pc) := by
  cases pc with
  | loop =>
    unfold cookTurn
    split_ifs
    · have h : Turned _ (cookChar below { t with readQ := t.readQ.getch } t.readQ.first) := cookChar_turned
      exact ⟨h.termios, h.writeQ, h.puts, h.echo, h.stays⟩
    · exact ⟨rfl, rfl, rfl, fun _ => rfl, nofun⟩
  | kill =>
    unfold cookTurn
    dsimp only
    split
    · exact ⟨rfl, rfl, rfl, fun _ => rfl, nofun⟩
    · exact ⟨rfl, rfl, rfl, rubout_eq_nil, fun _ => nofun⟩
  | killed => exact ⟨rfl, rfl, rfl, fun _ => rfl, nofun⟩
  | erased => exact ⟨rfl, rfl, rfl, fun _ => rfl, nofun⟩
  | store c => exact ⟨rfl, rfl, rfl, fun _ => rfl, nofun⟩

theorem cookChar_step (h : t.takes = true) :
    CookStep t .loop (cookChar below { t with readQ := t.readQ.getch } c).next
      (cookChar below { t with readQ := t.readQ.getch } c).tty.data
      (cookChar below { t with readQ := t.readQ.getch } c).tty.secondary := by
  unfold cookChar
  split
  · exact .skip h
  dsimp only
  split_ifs
  · exact .kills h
  · split
    · exact .skip h
    · next c' hc => exact .erases c' h hc
  · exact .skip h
  · exact .skip h
  · exact .skip h
  · next hends => exact .stores _ _ h (if_pos hends).symm
  · next hends => exact .stores _ _ h (if_neg hends).symm

theorem cookTurn_step : CookStep t pc (cookTurn below t pc).next (cookTurn below t pc).tty.data
    (cookTurn below t pc).tty.secondary := by
  cases pc with
  | loop =>
    unfold cookTurn
    split_ifs with h
    · exact cookChar_step h
    · exact .done (Bool.eq_false_iff.2 h)
  | kill =>
    unfold cookTurn
    dsimp only
    split
    · next h => exact .lineEnd h
    · next c h => exact .kill c h
  | killed => exact .killed
  | erased => exact .erased
  | store c => exact .stored c

end Turn

/-! ## Turns of processes -/

/-- A character is taken from `secondary`. -/
def TtyStruct.taken (t : TtyStruct) : TtyStruct :=
  { t with
    secondary := t.secondary.getch
    data := if t.termios.ends t.secondary.first then t.data - 1 else t.data }

section Calls

variable {s : State} {signal : Bool} {r : Reading} {w : Writing}

/-- `tty_read` takes a character, or nothing but its place changes. -/
theorem readTurn_cases (signal : Bool) (pc : ReadPc) :
    (s.readTurn signal r pc = s.endRead r ∨ ∃ pc', s.readTurn signal r pc = (s, .goto (.read r pc'))) ∨
    (s.readTurn signal r pc = s.take r ∧ (s.tty r.tty).secondary.isEmpty = false ∧
      (pc = .loop ∧ ¬ ((s.tty r.tty).termios.l icanon = true ∧ (s.tty r.tty).data = 0 ∧
        20 < (s.tty r.tty).secondary.left) ∨ pc = .inner ∧ 0 < r.nr)) := by
  cases pc with
  | loop =>
    unfold State.readTurn
    dsimp only
    split_ifs with h1 h2
    · exact .inl (.inl rfl)
    · exact .inl (.inr ⟨_, rfl⟩)
    · rw [not_or, Bool.not_eq_true] at h2
      exact .inr ⟨rfl, h2.1, .inl ⟨rfl, h2.2⟩⟩
  | sleep =>
    unfold State.readTurn
    dsimp only
    split_ifs <;> exact .inl (.inr ⟨_, rfl⟩)
  | asleep => exact .inl (.inr ⟨_, rfl⟩)
  | inner =>
    unfold State.readTurn
    dsimp only
    split_ifs with h1 h2 h3 h3
    · exact .inr ⟨rfl, by simpa using h1.2, .inr ⟨rfl, h1.1⟩⟩
    · exact .inl (.inl rfl)
    · exact .inl (.inr ⟨_, rfl⟩)
    · exact .inl (.inl rfl)
    · exact .inl (.inr ⟨_, rfl⟩)

/-- `tty_write` puts something on its queue, calls `tty->write`, or returns. -/
theorem writeTurn_cases (signal : Bool) (pc : WritePc) :
    (∃ pc' ≠ .fetch, s.writeTurn signal w pc = (s, .goto (.write w pc'))) ∨
    (s.writeTurn signal w pc = s.finish w ∧ (w.rest = [] ∨ signal = true ∧
      (pc = .loop ∧ (s.tty w.tty).writeQ.isFull = false ∨ pc = .sleep))) ∨
    (pc = .fill ∧ w.rest ≠ [] ∧ (s.tty w.tty).writeQ.left ≠ 0 ∧
      s.writeTurn signal w pc = (s, .goto (.write w .fetch))) ∨
    (∃ c rest, pc = .fetch ∧ w.rest = c :: rest ∧ s.writeTurn signal w pc = s.put w c rest) ∨
    (pc = .flush ∧ s.writeTurn signal w pc = (s, s.output w.tty (.write w .written))) := by
  cases pc with
  | loop =>
    unfold State.writeTurn
    dsimp only
    split_ifs with h1 h2 h3
    · exact .inr (.inl ⟨rfl, .inl h1⟩)
    · exact .inl ⟨.sleep, nofun, rfl⟩
    · exact .inr (.inl ⟨rfl, .inr ⟨h3, .inl ⟨rfl, Bool.eq_false_iff.2 h2⟩⟩⟩)
    · exact .inl ⟨.fill, nofun, rfl⟩
  | sleep =>
    unfold State.writeTurn
    dsimp only
    split_ifs with h1 h2
    · exact .inl ⟨.asleep, nofun, rfl⟩
    · exact .inr (.inl ⟨rfl, .inr ⟨h2, .inr rfl⟩⟩)
    · exact .inl ⟨.fill, nofun, rfl⟩
  | asleep => exact .inl ⟨.sleep, nofun, rfl⟩
  | fill =>
    unfold State.writeTurn
    dsimp only
    split_ifs with h1
    · exact .inl ⟨.flush, nofun, rfl⟩
    · rw [not_or, Fifo.isFull_iff] at h1
      exact .inr (.inr (.inl ⟨rfl, h1.1, h1.2, rfl⟩))
  | fetch =>
    unfold State.writeTurn
    dsimp only
    split
    · next c rest hrest => exact .inr (.inr (.inr (.inl ⟨c, rest, rfl, hrest, rfl⟩)))
    · exact .inl ⟨.flush, nofun, rfl⟩
  | flush => exact .inr (.inr (.inr (.inr ⟨rfl, rfl⟩)))
  | written =>
    unfold State.writeTurn
    dsimp only
    split_ifs with h1
    · exact .inr (.inl ⟨rfl, .inl h1⟩)
    · exact .inl ⟨.resched, nofun, rfl⟩
  | resched => exact .inl ⟨.loop, nofun, rfl⟩

/-- What a turn of `tty_read` that takes a character remembers. -/
def Reading.take (r : Reading) (t : TtyStruct) : Reading :=
  { r with taken := r.taken ++ [(t.termios, t.secondary.contents)] }

theorem take_cases : (s.take r = (s.setTty r.tty (s.tty r.tty).taken).endRead (r.take (s.tty r.tty)) ∧
      (s.tty r.tty).termios.l icanon = true) ∨
    s.take r = (s.setTty r.tty (s.tty r.tty).taken, .goto (.read { r.take (s.tty r.tty) with
      nr := r.nr - 1, bytes := r.bytes ++ [(s.tty r.tty).secondary.first] } .inner)) := by
  unfold State.take
  dsimp only
  by_cases h : (s.tty r.tty).termios.isCc veof (s.tty r.tty).secondary.first = true ∧
      (s.tty r.tty).termios.l icanon = true
  · rw [if_pos h]
    exact .inl ⟨rfl, h.2⟩
  · rw [if_neg h]
    exact .inr rfl

theorem take_snd : (s.take r).2 = .ret () ∨ ∃ r', (s.take r).2 = .goto (.read r' .inner) := by
  rcases take_cases (s := s) (r := r) with ⟨h, -⟩ | h
  · rw [h]
    exact .inl rfl
  · rw [h]
    exact .inr ⟨_, rfl⟩

theorem take_tty : (s.take r).1.tty = (s.setTty r.tty (s.tty r.tty).taken).tty := by
  rcases take_cases (s := s) (r := r) with ⟨h, -⟩ | h
  · rw [h]
    rfl
  · rw [h]

theorem put_snd {c : Byte} (rest : List Byte) : ∃ w', w'.tty = w.tty ∧
    (s.put w c rest).2 = .goto (.write w' .fill) := by
  unfold State.put
  dsimp only
  by_cases h : (s.tty w.tty).termios.o opost = true ∧ (s.tty w.tty).termios.outputChar c = 10 ∧
      s.crFlag = false ∧ (s.tty w.tty).termios.o onlcr = true
  · rw [if_pos h]
    refine ⟨_, ?_, rfl⟩
    rfl
  · rw [if_neg h]
    refine ⟨_, ?_, rfl⟩
    rfl

end Calls

/-! ## Stacks -/

/-- It has a character for `secondary` of the tty `i`. -/
def Frame.storing (i : Nr) : Frame → ℕ
  | .cook j (.store _) => if j = i then 1 else 0
  | _ => 0

/-- It is about to take a character of `secondary` back. -/
def Frame.erasing (i : Nr) : Frame → ℕ
  | .cook j .killed | .cook j .erased => if j = i then 1 else 0
  | _ => 0

/-- A frame of a process. -/
def Frame.isCall : Frame → Bool
  | .read .. | .write .. => true
  | _ => false

/-- There are `n` characters on `secondary` after the last one that ends a line. -/
def TtyStruct.Erasable (t : TtyStruct) (n : ℕ) : Prop :=
  n ≤ t.secondary.chars ∧ ∀ c ∈ t.secondary.contents.drop (t.secondary.chars - n), t.termios.ends c = false

instance (t : TtyStruct) (n : ℕ) : Decidable (t.Erasable n) :=
  inferInstanceAs (Decidable (_ ∧ ∀ c ∈ _, _))

/-- If the innermost frame is a `copy_to_cooked`, `P` holds of it and of those below it. -/
def TopCook (P : Nr → CookPc → List Frame → Prop) : List Frame → Prop
  | .cook i pc :: fs => P i pc fs
  | _ => True

/-- If the step is a turn of `copy_to_cooked`, `P` holds. -/
def State.AtCook (s : State) (P : Nr → CookPc → List Frame → Prop) : Event → Prop
  | .run _ => TopCook P (s.stack s.cur)
  | _ => True

/-- What `copy_to_cooked` may go on with, if `fs` are the frames below it. -/
def TtyStruct.Spares (t : TtyStruct) (i : Nr) (fs : List Frame) : Option CookPc → Prop
  | some (.store _) => Outcome.total (Frame.storing i) fs < t.secondary.left ∧
      Outcome.total (Frame.erasing i) fs = 0
  | some .killed | some .erased => t.Erasable (Outcome.total (Frame.erasing i) fs + 1)
  | _ => True

/-- `copy_to_cooked` takes a character to store only if there is room for it beside those that other
calls have in hand, none of which is about to take one back. It takes one back only if that does not
end a line, nor do those that the other calls will take back. -/
def State.Unshared (s : State) : Event → Prop :=
  s.AtCook fun i pc fs => (s.tty i).Spares i fs (cookTurn s.below (s.tty i) pc).next

/-- What a frame `f` can be that was called, later, from `g`. -/
def Above (f g : Frame) : Prop :=
  f.isCall = false ∧ ∀ i c, f = .cook i (.store c) → g.erasing i = 0

structure Ordered (s : State) : Prop where
  nested : ∀ p, Outcome.Nested Above (s.stack p)
  /-- A process that does not run is in one of its calls, and in nothing else. -/
  calls : ∀ p, p ≠ s.cur → ∀ f ∈ s.stack p, f.isCall = true

section Stack

variable {s s' : State} {f g : Frame} {fs fs' : List Frame} {i : Nr} {pc : CookPc} {signal : Bool}
  {e : Event} {nr : ℕ} {c : Byte} {w : Frame → ℕ}

theorem above_conWrite : Above (.conWrite nr) g :=
  ⟨rfl, nofun⟩

theorem above_loop : Above (.cook i .loop) g :=
  ⟨rfl, nofun⟩

/-- A call of a process is the outermost frame. -/
theorem nil_of_isCall (h : Outcome.Nested Above (f :: fs)) (hf : f.isCall = true) : fs = [] := by
  cases fs with
  | nil => rfl
  | cons g fs =>
    have habove := h.rel (g := g) List.mem_cons_self
    rw [habove.1] at hf
    cases hf

theorem run_eq_some (hs : s.stack s.cur = f :: fs) (h : s.run signal = some s') :
    ∃ fs', (s.turn signal f).2.resume (fun _ g => g) fs = some fs' ∧
      s' = (s.turn signal f).1.setStack fs' := by
  unfold State.run at h
  rw [hs] at h
  obtain ⟨fs', hfs, rfl⟩ := Option.map_eq_some_iff.1 h
  exact ⟨fs', hfs, rfl⟩

theorem stack_of_run (h : s.run signal = some s') : ∃ f fs, s.stack s.cur = f :: fs := by
  cases hs : s.stack s.cur with
  | nil =>
    unfold State.run at h
    rw [hs] at h
    cases h
  | cons f fs => exact ⟨f, fs, rfl⟩

theorem State.AtCook.top {P : Nr → CookPc → List Frame → Prop} (h : s.AtCook P (.run signal))
    (hs : s.stack s.cur = .cook i pc :: fs) : P i pc fs := by
  have h : TopCook P (s.stack s.cur) := h
  rw [hs] at h
  exact h

/-- The condition where a character is stored next. -/
theorem State.Unshared.store (h : s.Unshared (.run signal)) (hs : s.stack s.cur = .cook i pc :: fs)
    (hnext : (cookTurn s.below (s.tty i) pc).next = some (.store c)) :
    Outcome.total (Frame.storing i) fs < (s.tty i).secondary.left ∧
      Outcome.total (Frame.erasing i) fs = 0 := by
  have h := State.AtCook.top h hs
  rw [hnext] at h
  exact h

/-- The condition where one is taken back. -/
theorem State.Unshared.erase (h : s.Unshared (.run signal)) (hs : s.stack s.cur = .cook i pc :: fs)
    (hnext : (cookTurn s.below (s.tty i) pc).next = some .killed ∨
      (cookTurn s.below (s.tty i) pc).next = some .erased) :
    (s.tty i).Erasable (Outcome.total (Frame.erasing i) fs + 1) := by
  have h := State.AtCook.top h hs
  rcases hnext with hnext | hnext
  · rw [hnext] at h
    exact h
  · rw [hnext] at h
    exact h

/-- Where a step of the frame `f` goes on. -/
theorem turn_fits (h : Outcome.Nested Above (f :: fs)) (hs : s.stack s.cur = f :: fs)
    (hok : s.Unshared (.run signal)) : Outcome.Fits Above fs (s.turn signal f).2 := by
  cases f with
  | cook i pc =>
    show Outcome.Fits Above fs (s.cookStep i pc).2
    unfold State.cookStep
    dsimp only
    split
    · exact trivial
    · next pc' hnext =>
      have habove : ∀ g ∈ fs, Above (.cook i pc') g := by
        intro g hg
        refine ⟨rfl, fun j c heq => ?_⟩
        cases heq
        exact Nat.le_zero.1 ((Outcome.le_total hg).trans (hok.store hs hnext).2.le)
      split_ifs
      · unfold State.output
        split_ifs
        · exact ⟨habove, above_conWrite, fun g _ => above_conWrite⟩
        · exact habove
      · exact habove
  | conWrite nr =>
    show Outcome.Fits Above fs (s.conTurn nr).2
    cases nr with
    | zero => exact trivial
    | succ nr =>
      unfold State.conTurn
      dsimp only
      split_ifs
      · exact fun g _ => above_conWrite
      · exact ⟨fun g _ => above_conWrite, above_loop, fun g _ => above_loop⟩
  | read r pc =>
    obtain rfl := nil_of_isCall h rfl
    show Outcome.Fits Above [] (s.readTurn signal r pc).2
    rcases readTurn_cases (s := s) (r := r) signal pc with (heq | ⟨pc', heq⟩) | ⟨heq, -⟩
    · rw [heq]
      exact trivial
    · rw [heq]
      exact nofun
    · rw [heq]
      rcases take_snd (s := s) (r := r) with heq | ⟨r', heq⟩
      · rw [heq]
        exact trivial
      · rw [heq]
        exact nofun
  | write w pc =>
    obtain rfl := nil_of_isCall h rfl
    show Outcome.Fits Above [] (s.writeTurn signal w pc).2
    rcases writeTurn_cases (s := s) (w := w) signal pc with
      ⟨pc', -, heq⟩ | ⟨heq, -⟩ | ⟨-, -, -, heq⟩ | ⟨c, rest, -, -, heq⟩ | ⟨-, heq⟩
    · rw [heq]
      exact nofun
    · rw [heq]
      exact trivial
    · rw [heq]
      exact nofun
    · rw [heq]
      obtain ⟨w', -, heq⟩ := put_snd (s := s) (w := w) (c := c) rest
      rw [heq]
      exact nofun
    · rw [heq]
      show Outcome.Fits Above [] (s.output w.tty _)
      unfold State.output
      split_ifs
      · exact ⟨nofun, above_conWrite, nofun⟩
      · exact nofun

theorem turn_stack (signal : Bool) : (s.turn signal f).1.stack = s.stack ∧ (s.turn signal f).1.cur = s.cur := by
  cases f with
  | cook i pc =>
    show (s.cookStep i pc).1.stack = s.stack ∧ (s.cookStep i pc).1.cur = s.cur
    unfold State.cookStep
    dsimp only
    split <;> exact ⟨rfl, rfl⟩
  | conWrite nr => cases nr <;> exact ⟨rfl, rfl⟩
  | read r pc =>
    show (s.readTurn signal r pc).1.stack = s.stack ∧ (s.readTurn signal r pc).1.cur = s.cur
    rcases readTurn_cases (s := s) (r := r) signal pc with (heq | ⟨pc', heq⟩) | ⟨heq, -⟩
    · rw [heq]
      exact ⟨rfl, rfl⟩
    · rw [heq]
      exact ⟨rfl, rfl⟩
    · rw [heq]
      unfold State.take
      dsimp only
      split_ifs <;> exact ⟨rfl, rfl⟩
  | write w pc =>
    show (s.writeTurn signal w pc).1.stack = s.stack ∧ (s.writeTurn signal w pc).1.cur = s.cur
    rcases writeTurn_cases (s := s) (w := w) signal pc with
      ⟨pc', -, heq⟩ | ⟨heq, -⟩ | ⟨-, -, -, heq⟩ | ⟨c, rest, -, -, heq⟩ | ⟨-, heq⟩
    · rw [heq]
      exact ⟨rfl, rfl⟩
    · rw [heq]
      exact ⟨rfl, rfl⟩
    · rw [heq]
      exact ⟨rfl, rfl⟩
    · rw [heq]
      unfold State.put
      dsimp only
      split_ifs <;> exact ⟨rfl, rfl⟩
    · rw [heq]
      exact ⟨rfl, rfl⟩

/-- A turn that is not of a process leaves no frame of a process. -/
theorem turn_calls (hf : f.isCall = false) :
    (s.turn signal f).2.All fun g => g.isCall = false := by
  cases f with
  | cook i pc =>
    show (s.cookStep i pc).2.All _
    unfold State.cookStep
    dsimp only
    split
    · exact trivial
    · dsimp only
      split_ifs
      · unfold State.output
        split_ifs
        · exact ⟨rfl, rfl⟩
        · exact rfl
      · exact rfl
  | conWrite nr =>
    show (s.conTurn nr).2.All _
    cases nr with
    | zero => exact trivial
    | succ nr =>
      unfold State.conTurn
      dsimp only
      split_ifs
      · exact rfl
      · exact ⟨rfl, rfl⟩
  | read r pc => cases hf
  | write w pc => cases hf

/-- `tty_read` only goes on or returns. -/
theorem readTurn_all {P : Frame → Prop} {r : Reading} (pc : ReadPc) (h : ∀ r' pc, P (.read r' pc)) :
    (s.readTurn signal r pc).2.All P := by
  rcases readTurn_cases (s := s) (r := r) signal pc with (heq | ⟨pc', heq⟩) | ⟨heq, -⟩
  · rw [heq]
    exact trivial
  · rw [heq]
    exact h r pc'
  · rw [heq]
    rcases take_snd (s := s) (r := r) with heq | ⟨r', heq⟩
    · rw [heq]
      exact trivial
    · rw [heq]
      exact h r' _

theorem setStack_stack {p : ℕ} : (s.setStack fs).stack p = if p = s.cur then fs else s.stack p := by
  unfold State.setStack
  by_cases hp : p = s.cur
  · rw [if_pos hp, hp]
    exact Function.update_self _ _ _
  · rw [if_neg hp]
    exact Function.update_of_ne hp _ _

/-- The stack of the process that runs changes. -/
theorem Ordered.setStack (h : Ordered s) (hstack : s'.stack = s.stack) (hcur : s'.cur = s.cur)
    (hfs : Outcome.Nested Above fs) : Ordered (s'.setStack fs) := by
  refine ⟨fun p => ?_, fun p hp f hf => ?_⟩
  · rw [setStack_stack, hstack, hcur]
    split_ifs
    · exact hfs
    · exact h.nested p
  · have hp : p ≠ s.cur := hcur ▸ hp
    rw [setStack_stack, hstack, hcur, if_neg hp] at hf
    exact h.calls p hp f hf

/-- An interrupt with input fills `read_q`, and calls `copy_to_cooked`. -/
theorem receive_eq (cs : List Byte) : ∃ q, s.receive i cs =
    (s.setTty i { s.tty i with readQ := q }).setStack (.cook i .loop :: s.stack s.cur) := by
  unfold State.receive
  dsimp only
  split_ifs
  · exact ⟨_, rfl⟩
  · refine ⟨(s.tty i).readQ, ?_⟩
    have heq : s.setTty i { s.tty i with readQ := (s.tty i).readQ } = s := by
      unfold State.setTty
      show { s with tty := Function.update s.tty i (s.tty i) } = s
      rw [Function.update_eq_self]
    rw [heq]

/-- What each event needs, and what comes of it. -/
inductive State.Changes (s : State) : Event → State → Prop
  | schedule (p : ℕ) (hy : (s.stack s.cur).head?.all Frame.yields = true) :
    s.Changes (.schedule p) { s with cur := p }
  | read (i : Nr) (nr : ℕ) (hempty : s.stack s.cur = []) :
    s.Changes (.read i nr) (s.setStack [s.startRead i nr])
  | write (i : Nr) (buf : List Byte) (hempty : s.stack s.cur = []) :
    s.Changes (.write i buf)
      (State.setStack { s with calls := s.calls + 1 } [.write ⟨s.calls, i, buf, buf, [], false⟩ .loop])
  | ioctl (i : Nr) (c : Ioctl) (hempty : s.stack s.cur = []) :
    s.Changes (.ioctl i c) (s.setTty i ((s.tty i).ioctl c))
  | receive (i : Nr) (cs : List Byte) (q : Queue) : s.Changes (.receive i cs)
    ((s.setTty i { s.tty i with readQ := q }).setStack (.cook i .loop :: s.stack s.cur))
  | transmit (i : Nr) (hi : i ≠ 0) (hne : (s.tty i).writeQ.isEmpty = false) :
    s.Changes (.transmit i) (s.setTty i { s.tty i with writeQ := (s.tty i).writeQ.getch })
  | exit (hy : (s.stack s.cur).head?.any Frame.faults = true) : s.Changes .exit (s.setStack [])
  | run (signal : Bool) {f : Frame} {fs fs' : List Frame} (hstack : s.stack s.cur = f :: fs)
    (hfs : (s.turn signal f).2.resume (fun _ g => g) fs = some fs') :
    s.Changes (.run signal) ((s.turn signal f).1.setStack fs')

theorem next_changes (hs : s.next e = some s') : s.Changes e s' := by
  cases e with
  | schedule p =>
    obtain ⟨hy, ⟨⟩⟩ := Option.ite_none_right_eq_some.1 hs
    exact .schedule p hy
  | read i nr =>
    obtain ⟨hempty, ⟨⟩⟩ := Option.ite_none_right_eq_some.1 hs
    exact .read i nr (List.isEmpty_iff.1 hempty)
  | write i buf =>
    obtain ⟨hempty, ⟨⟩⟩ := Option.ite_none_right_eq_some.1 hs
    exact .write i buf (List.isEmpty_iff.1 hempty)
  | ioctl i c =>
    obtain ⟨hempty, ⟨⟩⟩ := Option.ite_none_right_eq_some.1 hs
    exact .ioctl i c (List.isEmpty_iff.1 hempty)
  | receive i cs =>
    obtain ⟨q, heq⟩ := receive_eq (s := s) (i := i) cs
    obtain rfl := Option.some.inj hs
    exact heq ▸ .receive i cs q
  | transmit i =>
    obtain ⟨⟨hi, hne⟩, ⟨⟩⟩ := Option.ite_none_right_eq_some.1 hs
    exact .transmit i hi (Bool.not_eq_true' _ ▸ hne)
  | exit =>
    obtain ⟨hy, ⟨⟩⟩ := Option.ite_none_right_eq_some.1 hs
    exact .exit hy
  | run signal =>
    obtain ⟨f, fs, hstack⟩ := stack_of_run hs
    obtain ⟨fs', hfs, rfl⟩ := run_eq_some hstack hs
    exact .run signal hstack hfs

/-- A process stops only in a call, or in none. -/
theorem Ordered.calls_of_yields (h : Ordered s) (hy : (s.stack s.cur).head?.all Frame.yields = true) :
    ∀ f ∈ s.stack s.cur, f.isCall = true := by
  intro f hf
  cases hstack : s.stack s.cur with
  | nil =>
    rw [hstack] at hf
    cases hf
  | cons g gs =>
    rw [hstack] at hy hf
    have hy : g.yields = true := hy
    have hg : g.isCall = true := by
      cases g with
      | read | write => rfl
      | cook | conWrite => cases hy
    obtain rfl := nil_of_isCall (hstack ▸ h.nested s.cur) hg
    rw [List.mem_singleton.1 hf]
    exact hg

theorem isCall_of_faults (h : f.faults = true) : f.isCall = true := by
  cases f with
  | read | write => rfl
  | cook | conWrite => cases h

theorem yields_of_faults {o : Option Frame} (h : o.any Frame.faults = true) :
    o.all Frame.yields = true := by
  rcases o with _ | f
  · rfl
  · have h : f.faults = true := h
    show f.yields = true
    unfold Frame.faults at h
    split at h
    · rfl
    · rfl
    · cases h

theorem Ordered.next (h : Ordered s) (hok : s.Unshared e) (hs : s.next e = some s') : Ordered s' := by
  cases next_changes hs with
  | schedule p hy =>
    refine ⟨h.nested, fun q hq f hf => ?_⟩
    by_cases hqc : q = s.cur
    · exact h.calls_of_yields hy f (hqc ▸ hf)
    · exact h.calls q hqc f hf
  | read | write => exact h.setStack rfl rfl (List.pairwise_singleton _ _)
  | exit => exact h.setStack rfl rfl List.Pairwise.nil
  | ioctl | transmit => exact ⟨h.nested, h.calls⟩
  | receive =>
    exact h.setStack rfl rfl (List.pairwise_cons.2 ⟨fun g _ => above_loop, h.nested s.cur⟩)
  | @run signal f fs fs' hstack hfs =>
    have hnested : Outcome.Nested Above (f :: fs) := hstack ▸ h.nested s.cur
    exact h.setStack (turn_stack signal).1 (turn_stack signal).2
      (hnested.resume (fun _ _ _ h => h) (turn_fits hnested hstack hok) hfs)

/-- The frames that a step leaves as they are. -/
def State.kept (s : State) (e : Event) (p : ℕ) : List Frame :=
  if p = s.cur then
    match e with
    | .run _ => (s.stack p).tail
    | .exit => []
    | _ => s.stack p
  else s.stack p

/-- `P` holds of the frames that a step makes. -/
def State.News (s : State) (P : Frame → Prop) : Event → Prop
  | .read i nr => P (s.startRead i nr)
  | .write i buf => P (.write ⟨s.calls, i, buf, buf, [], false⟩ .loop)
  | .receive i _ => P (.cook i .loop)
  | .run signal => ∀ f fs, s.stack s.cur = f :: fs → (s.turn signal f).2.All P
  | .schedule _ | .ioctl .. | .transmit _ | .exit => True

theorem kept_of_ne {p : ℕ} (h : p ≠ s.cur) : s.kept e p = s.stack p := if_neg h

theorem mem_of_kept {p : ℕ} (h : f ∈ s.kept e p) : f ∈ s.stack p := by
  unfold State.kept at h
  split_ifs at h
  · split at h
    · exact List.mem_of_mem_tail h
    · cases h
    · exact h
  · exact h

/-- A frame after a step is an old one, or one that the step makes. -/
theorem next_frames {P : Frame → Prop} (hs : s.next e = some s') (hkept : ∀ p, ∀ f ∈ s.kept e p, P f)
    (hnew : s.News P e) : ∀ p, ∀ f ∈ s'.stack p, P f := by
  have hset : ∀ {t : State} {gs : List Frame}, t.stack = s.stack → t.cur = s.cur →
      (∀ g ∈ gs, P g) → ∀ p, ∀ g ∈ (t.setStack gs).stack p, P g := by
    intro t gs ht hcur hgs p g hg
    rw [setStack_stack, ht, hcur] at hg
    split_ifs at hg with hp
    · exact hgs g hg
    · exact hkept p g (kept_of_ne hp ▸ hg)
  have hsame : s.kept e s.cur = s.stack s.cur → ∀ p, s.kept e p = s.stack p := by
    intro hcur p
    by_cases hp : p = s.cur
    · rw [hp, hcur]
    · exact kept_of_ne hp
  cases next_changes hs with
  | schedule | ioctl | transmit =>
    exact fun p f hf => hkept p f ((hsame (if_pos rfl) p).symm ▸ hf)
  | read => exact hset rfl rfl (List.forall_mem_singleton.2 hnew)
  | write => exact hset rfl rfl (List.forall_mem_singleton.2 hnew)
  | receive i cs q =>
    refine hset rfl rfl (List.forall_mem_cons.2 ⟨hnew, fun g hg => hkept s.cur g ?_⟩)
    exact (hsame (if_pos rfl) s.cur).symm ▸ hg
  | exit => exact hset rfl rfl nofun
  | @run signal f fs fs' hstack hfs =>
    refine hset (turn_stack signal).1 (turn_stack signal).2
      ((hnew f fs hstack).resume (fun g hg => hkept s.cur g ?_) (fun _ _ h => h) hfs)
    show g ∈ if s.cur = s.cur then (s.stack s.cur).tail else _
    rw [if_pos rfl, hstack]
    exact hg

end Stack

/-! ## Weights -/

/-- A weight of the frames that have a character in hand. -/
structure Frame.OfHand (w : Frame → ℕ) : Prop where
  loop : ∀ i, w (.cook i .loop) = 0
  conWrite : ∀ nr, w (.conWrite nr) = 0
  call : ∀ f, f.isCall = true → w f = 0

/-- The weight of what a turn of `f` leaves. -/
def State.after (s : State) (w : Frame → ℕ) : Frame → ℕ
  | .cook i pc => (cookTurn s.below (s.tty i) pc).next.elim 0 fun pc' => w (.cook i pc')
  | _ => 0

/-- What a step that is no turn leaves alone. -/
structure Aside (s : State) (e : Event) (s' : State) : Prop where
  secondary : ∀ i, (s'.tty i).secondary = (s.tty i).secondary
  data : ∀ i, (s'.tty i).data = (s.tty i).data
  /-- `ioctl` is called where nothing else is under way. -/
  termios : (∀ i, (s'.tty i).termios = (s.tty i).termios) ∨
    ∃ i c, e = .ioctl i c ∧ s.stack s.cur = [] ∧ s' = s.setTty i ((s.tty i).ioctl c)
  total : ∀ w, Frame.OfHand w → Outcome.total w (s'.stack s'.cur) = Outcome.total w (s.stack s.cur)

section Weights

variable {s s' : State} {f : Frame} {fs fs' : List Frame} {i j : Nr} {pc : CookPc} {signal : Bool}
  {e : Event} {nr : ℕ} {w : Frame → ℕ} {t : TtyStruct}

theorem ofHand_storing : Frame.OfHand (Frame.storing i) :=
  ⟨fun _ => rfl, fun _ => rfl, fun f hf => by cases f <;> first | rfl | cases hf⟩

theorem ofHand_erasing : Frame.OfHand (Frame.erasing i) :=
  ⟨fun _ => rfl, fun _ => rfl, fun f hf => by cases f <;> first | rfl | cases hf⟩

namespace Frame.OfHand

theorem total_calls (hw : OfHand w) (h : ∀ f ∈ fs, f.isCall = true) : Outcome.total w fs = 0 :=
  Outcome.total_eq_zero fun f hf => hw.call f (h f hf)

theorem turn (hw : OfHand w) (signal : Bool) : (s.turn signal f).2.weight w (fun _ => 0) = s.after w f := by
  cases f with
  | cook i pc =>
    show (s.cookStep i pc).2.weight w (fun _ => 0) = s.after w (.cook i pc)
    unfold State.cookStep State.after
    dsimp only
    split
    · next hnext =>
      rw [hnext]
      rfl
    · next pc' hnext =>
      rw [hnext]
      dsimp only
      split_ifs
      · unfold State.output
        split_ifs
        · show w (.conWrite _) + w (.cook i pc') = w (.cook i pc')
          rw [hw.conWrite, Nat.zero_add]
        · rfl
      · rfl
  | conWrite nr =>
    show (s.conTurn nr).2.weight w (fun _ => 0) = 0
    cases nr with
    | zero => rfl
    | succ nr =>
      unfold State.conTurn
      dsimp only
      split_ifs
      · exact hw.conWrite nr
      · show w (.cook 0 .loop) + w (.conWrite nr) = 0
        rw [hw.loop, hw.conWrite]
  | read r pc =>
    show (s.readTurn signal r pc).2.weight w (fun _ => 0) = 0
    rcases readTurn_cases (s := s) (r := r) signal pc with (heq | ⟨pc', heq⟩) | ⟨heq, -⟩
    · rw [heq]
      rfl
    · rw [heq]
      exact hw.call _ rfl
    · rw [heq]
      rcases take_snd (s := s) (r := r) with heq | ⟨r', heq⟩
      · rw [heq]
        rfl
      · rw [heq]
        exact hw.call _ rfl
  | write v pc =>
    show (s.writeTurn signal v pc).2.weight w (fun _ => 0) = 0
    rcases writeTurn_cases (s := s) (w := v) signal pc with
      ⟨pc', -, heq⟩ | ⟨heq, -⟩ | ⟨-, -, -, heq⟩ | ⟨c, rest, -, -, heq⟩ | ⟨-, heq⟩
    · rw [heq]
      exact hw.call _ rfl
    · rw [heq]
      rfl
    · rw [heq]
      exact hw.call _ rfl
    · rw [heq]
      obtain ⟨v', -, heq⟩ := put_snd (s := s) (w := v) (c := c) rest
      rw [heq]
      exact hw.call _ rfl
    · rw [heq]
      show (s.output v.tty (.write v .written)).weight w (fun _ => 0) = 0
      unfold State.output
      split_ifs
      · show w (.conWrite _) + w (.write v .written) = 0
        rw [hw.conWrite, hw.call _ rfl]
      · exact hw.call _ rfl

/-- A turn changes the weight of the stack by that of its frame. -/
theorem resume (hw : OfHand w)
    (hfs : (s.turn signal f).2.resume (fun _ g => g) fs = some fs') :
    Outcome.total w fs' = s.after w f + Outcome.total w fs := by
  rw [← hw.turn signal]
  exact Outcome.resume_total (fun _ _ _ _ _ => rfl) (fun _ _ _ => rfl) hfs

end Frame.OfHand

theorem setTty_self : (s.setTty i t).tty i = t :=
  Function.update_self _ _ _

theorem setTty_of_ne (h : j ≠ i) : (s.setTty i t).tty j = s.tty j :=
  Function.update_of_ne h _ _

/-- What is the same of the tty `i` is so of all of them. -/
theorem setTty_congr {α : Type} (p : TtyStruct → α) (h : p t = p (s.tty i)) (j : Nr) :
    p ((s.setTty i t).tty j) = p (s.tty j) := by
  by_cases hj : j = i
  · rw [hj, setTty_self, h]
  · rw [setTty_of_ne hj]

theorem setStack_tty : (s.setStack fs).tty = s.tty := rfl

theorem setStack_cur : (s.setStack fs).stack (s.setStack fs).cur = fs :=
  Function.update_self _ _ _

theorem ioctl_secondary {c : Ioctl} : (t.ioctl c).secondary = t.secondary ∧ (t.ioctl c).data = t.data := by
  cases c <;> exact ⟨rfl, rfl⟩

theorem next_aside (ho : Ordered s) (hs : s.next e = some s') (he : ∀ signal, e ≠ .run signal) :
    Aside s e s' := by
  cases next_changes hs with
  | schedule p hy =>
    refine ⟨fun _ => rfl, fun _ => rfl, .inl fun _ => rfl, fun w hw => ?_⟩
    show Outcome.total w (s.stack p) = _
    rw [hw.total_calls (ho.calls_of_yields hy)]
    by_cases hp : p = s.cur
    · rw [hp]
      exact hw.total_calls (ho.calls_of_yields hy)
    · exact hw.total_calls (ho.calls p hp)
  | read _ _ hempty | write _ _ hempty =>
    refine ⟨fun _ => rfl, fun _ => rfl, .inl fun _ => rfl, fun w hw => ?_⟩
    rw [setStack_cur, hempty, Outcome.total_cons, hw.call _ rfl, Nat.zero_add]
  | exit hy =>
    refine ⟨fun _ => rfl, fun _ => rfl, .inl fun _ => rfl, fun w hw => ?_⟩
    rw [setStack_cur, hw.total_calls (ho.calls_of_yields (yields_of_faults hy))]
    rfl
  | ioctl i c hempty =>
    have hsame := ioctl_secondary (t := s.tty i) (c := c)
    exact ⟨setTty_congr TtyStruct.secondary hsame.1, setTty_congr TtyStruct.data hsame.2,
      .inr ⟨i, c, rfl, hempty, rfl⟩, fun _ _ => rfl⟩
  | receive i _ q =>
    obtain ⟨t, ht⟩ : ∃ t, t = { s.tty i with readQ := q } := ⟨_, rfl⟩
    rw [← ht]
    refine ⟨setTty_congr TtyStruct.secondary (by rw [ht]), setTty_congr TtyStruct.data (by rw [ht]),
      .inl (setTty_congr TtyStruct.termios (by rw [ht])), fun w hw => ?_⟩
    rw [setStack_cur, Outcome.total_cons, hw.loop, Nat.zero_add]
  | transmit i =>
    obtain ⟨t, ht⟩ : ∃ t, t = { s.tty i with writeQ := (s.tty i).writeQ.getch } := ⟨_, rfl⟩
    rw [← ht]
    exact ⟨setTty_congr TtyStruct.secondary (by rw [ht]), setTty_congr TtyStruct.data (by rw [ht]),
      .inl (setTty_congr TtyStruct.termios (by rw [ht])), fun _ _ => rfl⟩
  | run signal => exact absurd rfl (he signal)

end Weights

/-! ## Deciding the conditions -/

instance {P : Nr → CookPc → List Frame → Prop} [∀ i pc fs, Decidable (P i pc fs)] :
    ∀ fs, Decidable (TopCook P fs)
  | .cook i pc :: fs => inferInstanceAs (Decidable (P i pc fs))
  | [] | .conWrite _ :: _ | .read .. :: _ | .write .. :: _ => .isTrue trivial

instance {s : State} {P : Nr → CookPc → List Frame → Prop} [∀ i pc fs, Decidable (P i pc fs)] :
    ∀ e, Decidable (s.AtCook P e)
  | .run _ => inferInstanceAs (Decidable (TopCook P (s.stack s.cur)))
  | .schedule _ | .read .. | .write .. | .ioctl .. | .receive .. | .transmit _ | .exit => .isTrue trivial

instance {t : TtyStruct} {i : Nr} {fs : List Frame} : ∀ next, Decidable (t.Spares i fs next)
  | some (.store _) => inferInstanceAs (Decidable (_ ∧ _))
  | some .killed | some .erased => inferInstanceAs (Decidable (t.Erasable _))
  | none | some .loop | some .kill => .isTrue trivial

instance (s : State) (e : Event) : Decidable (s.Unshared e) :=
  inferInstanceAs (Decidable (s.AtCook _ e))

/-! ## Characters in hand -/

/-- `secondary` is kept in order, and has room for the characters in hand, and those that are to be
taken back. -/
structure Handled (s : State) : Prop where
  ordered : Ordered s
  secondary : ∀ i, (s.tty i).secondary.Sound
  room : ∀ i, Outcome.total (Frame.storing i) (s.stack s.cur) ≤ (s.tty i).secondary.left
  erasable : ∀ i, (s.tty i).Erasable (Outcome.total (Frame.erasing i) (s.stack s.cur))

section Hand

variable {s s' : State} {f : Frame} {fs fs' : List Frame} {i j : Nr} {pc : CookPc} {signal : Bool}
  {e : Event} {nr n : ℕ} {t t' : TtyStruct} {c : Byte}

theorem storing_store : Frame.storing i (.cook i (.store c)) = 1 := if_pos rfl

theorem erasing_killed : Frame.erasing i (.cook i .killed) = 1 := if_pos rfl

theorem erasing_erased : Frame.erasing i (.cook i .erased) = 1 := if_pos rfl

theorem storing_of_ne (h : i ≠ j) : Frame.storing j (.cook i pc) = 0 := by
  cases pc with
  | store c => exact if_neg h
  | loop | kill | killed | erased => rfl

theorem erasing_of_ne (h : i ≠ j) : Frame.erasing j (.cook i pc) = 0 := by
  cases pc with
  | killed | erased => exact if_neg h
  | loop | kill | store => rfl

namespace TtyStruct.Erasable

theorem zero : t.Erasable 0 := by
  refine ⟨Nat.zero_le _, fun c hc => ?_⟩
  rw [Nat.sub_zero, ← Fifo.length_contents, List.drop_length] at hc
  cases hc

theorem congr (h : t.Erasable n) (hq : t'.secondary = t.secondary) (ht : t'.termios = t.termios) :
    t'.Erasable n := by
  unfold Erasable
  rw [hq, ht]
  exact h

theorem chars_ne_zero (h : t.Erasable (n + 1)) : t.secondary.chars ≠ 0 := by
  have hle := h.1
  omega

/-- The last character, and those before it. -/
theorem drop_eq (h : t.Erasable (n + 1)) :
    t.secondary.contents.drop (t.secondary.chars - (n + 1)) =
      t.secondary.unput.contents.drop (t.secondary.unput.chars - n) ++ [t.secondary.last] := by
  have hle := h.1
  have hchars := Fifo.chars_unput h.chars_ne_zero
  have hlen := Fifo.length_contents (q := t.secondary.unput)
  have hsub : t.secondary.chars - (n + 1) = t.secondary.unput.chars - n := by omega
  rw [Fifo.contents_unput h.chars_ne_zero, List.drop_append_of_le_length, hsub]
  omega

theorem last (h : t.Erasable (n + 1)) : t.termios.ends t.secondary.last = false := by
  refine h.2 _ ?_
  rw [h.drop_eq]
  exact List.mem_append_right _ List.mem_cons_self

theorem unput (h : t.Erasable (n + 1)) (hq : t'.secondary = t.secondary.unput)
    (ht : t'.termios = t.termios) : t'.Erasable n := by
  have hle := h.1
  have hchars := Fifo.chars_unput h.chars_ne_zero
  unfold Erasable
  rw [hq, ht]
  refine ⟨by omega, fun c hc => h.2 c ?_⟩
  rw [h.drop_eq]
  exact List.mem_append_left _ hc

end TtyStruct.Erasable

/-- A turn of `copy_to_cooked`, under which `a` and `b` are the numbers of the characters that other
calls store and take back. -/
theorem CookStep.kept {next : Option CookPc} {d : BitVec 32} {q : Queue} {a b : ℕ}
    (h : CookStep t pc next d q) (hsound : t.secondary.Sound)
    (hroom : Frame.storing i (.cook i pc) + a ≤ t.secondary.left)
    (herasable : t.Erasable (Frame.erasing i (.cook i pc) + b))
    (hstore : ∀ c, next = some (.store c) → a < t.secondary.left ∧ b = 0)
    (herase : next = some .killed ∨ next = some .erased → t.Erasable (b + 1))
    (hstored : ∀ c, pc = .store c → b = 0) (hq : t'.secondary = q) (ht : t'.termios = t.termios) :
    q.Sound ∧ (next.elim 0 fun pc' => Frame.storing i (.cook i pc')) + a ≤ q.left ∧
      t'.Erasable ((next.elim 0 fun pc' => Frame.erasing i (.cook i pc')) + b) := by
  cases h with
  | done | skip | kills | lineEnd => exact ⟨hsound, hroom, herasable.congr hq ht⟩
  | erases c =>
    refine ⟨hsound, hroom, ?_⟩
    show t'.Erasable (Frame.erasing i (.cook i .erased) + b)
    rw [erasing_erased, Nat.add_comm]
    exact (herase (.inr rfl)).congr hq ht
  | kill c =>
    refine ⟨hsound, hroom, ?_⟩
    show t'.Erasable (Frame.erasing i (.cook i .killed) + b)
    rw [erasing_killed, Nat.add_comm]
    exact (herase (.inl rfl)).congr hq ht
  | stores c =>
    refine ⟨hsound, ?_, herasable.congr hq ht⟩
    show Frame.storing i (.cook i (.store c)) + a ≤ t.secondary.left
    rw [storing_store, Nat.add_comm]
    exact (hstore c rfl).1
  | killed =>
    rw [erasing_killed, Nat.add_comm] at herasable
    refine ⟨hsound.unput herasable.chars_ne_zero, ?_, ?_⟩
    · exact hroom.trans (Fifo.left_le_unput herasable.chars_ne_zero)
    · show t'.Erasable (0 + b)
      rw [Nat.zero_add]
      exact herasable.unput hq ht
  | erased =>
    rw [erasing_erased, Nat.add_comm] at herasable
    refine ⟨hsound.unput herasable.chars_ne_zero, ?_, ?_⟩
    · exact hroom.trans (Fifo.left_le_unput herasable.chars_ne_zero)
    · show t'.Erasable (0 + b)
      rw [Nat.zero_add]
      exact herasable.unput hq ht
  | stored c =>
    rw [storing_store] at hroom
    have hleft : t.secondary.left ≠ 0 := by omega
    refine ⟨hsound.putch hleft, ?_, ?_⟩
    · show 0 + a ≤ (t.secondary.putch c).left
      rw [Fifo.left_putch hleft]
      omega
    · rw [hstored c rfl]
      exact .zero

theorem cookStep_fst : (s.cookStep i pc).1 = s.setTty i
    ((cookTurn s.below (s.tty i) pc).tty.putWrite none (cookTurn s.below (s.tty i) pc).echo) := by
  unfold State.cookStep
  dsimp only
  split <;> rfl

/-- `con_write` leaves `secondary` alone. -/
theorem conTurn_tty (nr : ℕ) : ∀ j, ((s.conTurn nr).1.tty j).secondary = (s.tty j).secondary ∧
    ((s.conTurn nr).1.tty j).termios = (s.tty j).termios ∧
    ((s.conTurn nr).1.tty j).data = (s.tty j).data := by
  intro j
  cases nr with
  | zero => exact ⟨rfl, rfl, rfl⟩
  | succ nr =>
    unfold State.conTurn
    dsimp only
    by_cases hj : j = 0
    · subst hj
      rw [setTty_self]
      exact ⟨rfl, rfl, rfl⟩
    · rw [setTty_of_ne hj]
      exact ⟨rfl, rfl, rfl⟩

/-- So does `tty_write`. -/
theorem writeTurn_tty (signal : Bool) (w : Writing) (pc : WritePc) : ∀ j,
    ((s.writeTurn signal w pc).1.tty j).secondary = (s.tty j).secondary ∧
    ((s.writeTurn signal w pc).1.tty j).termios = (s.tty j).termios ∧
    ((s.writeTurn signal w pc).1.tty j).data = (s.tty j).data := by
  intro j
  rcases writeTurn_cases (s := s) (w := w) signal pc with
    ⟨pc', -, heq⟩ | ⟨heq, -⟩ | ⟨-, -, -, heq⟩ | ⟨c, rest, -, -, heq⟩ | ⟨-, heq⟩
  · rw [heq]
    exact ⟨rfl, rfl, rfl⟩
  · rw [heq]
    exact ⟨rfl, rfl, rfl⟩
  · rw [heq]
    exact ⟨rfl, rfl, rfl⟩
  · rw [heq]
    unfold State.put
    dsimp only
    by_cases hj : j = w.tty
    · subst hj
      split_ifs <;> dsimp only <;> rw [setTty_self] <;> exact ⟨rfl, rfl, rfl⟩
    · split_ifs <;> dsimp only <;> rw [setTty_of_ne hj] <;> exact ⟨rfl, rfl, rfl⟩
  · rw [heq]
    exact ⟨rfl, rfl, rfl⟩

theorem turn_termios (signal : Bool) (j : Nr) : ((s.turn signal f).1.tty j).termios = (s.tty j).termios := by
  cases f with
  | cook i pc =>
    show ((s.cookStep i pc).1.tty j).termios = (s.tty j).termios
    rw [cookStep_fst]
    refine setTty_congr TtyStruct.termios ?_ j
    exact cookTurn_turned.termios
  | conWrite nr => exact (conTurn_tty nr j).2.1
  | read r pc =>
    show ((s.readTurn signal r pc).1.tty j).termios = (s.tty j).termios
    rcases readTurn_cases (s := s) (r := r) signal pc with (heq | ⟨pc', heq⟩) | ⟨heq, -⟩
    · rw [heq]
      rfl
    · rw [heq]
    · rw [heq, take_tty]
      refine setTty_congr TtyStruct.termios ?_ j
      rfl
  | write w pc => exact (writeTurn_tty signal w pc j).2.1

theorem Handled.cook (h : Handled s) (hs : s.stack s.cur = .cook i pc :: fs)
    (hok : s.Unshared (.run signal)) (j : Nr) : ((s.cookStep i pc).1.tty j).secondary.Sound ∧
    s.after (Frame.storing j) (.cook i pc) + Outcome.total (Frame.storing j) fs ≤
      ((s.cookStep i pc).1.tty j).secondary.left ∧
    ((s.cookStep i pc).1.tty j).Erasable
      (s.after (Frame.erasing j) (.cook i pc) + Outcome.total (Frame.erasing j) fs) := by
  have hroom := h.room j
  have herasable := h.erasable j
  rw [hs, Outcome.total_cons] at hroom herasable
  have hnested : Outcome.Nested Above (.cook i pc :: fs) := hs ▸ h.ordered.nested s.cur
  rw [cookStep_fst]
  by_cases hj : j = i
  · subst hj
    rw [setTty_self]
    refine cookTurn_step.kept (h.secondary j) hroom herasable (fun c hc => hok.store hs hc)
      (hok.erase hs) (fun c hc => ?_) rfl cookTurn_turned.termios
    exact Outcome.total_eq_zero fun g hg => (hnested.rel hg).2 j c (by rw [hc])
  · have hne : i ≠ j := Ne.symm hj
    have hstoring : s.after (Frame.storing j) (.cook i pc) = 0 := by
      show ((cookTurn s.below (s.tty i) pc).next.elim 0 fun pc' => Frame.storing j (.cook i pc')) = 0
      cases (cookTurn s.below (s.tty i) pc).next with
      | none => rfl
      | some pc' => exact storing_of_ne hne
    have herasing : s.after (Frame.erasing j) (.cook i pc) = 0 := by
      show ((cookTurn s.below (s.tty i) pc).next.elim 0 fun pc' => Frame.erasing j (.cook i pc')) = 0
      cases (cookTurn s.below (s.tty i) pc).next with
      | none => rfl
      | some pc' => exact erasing_of_ne hne
    rw [setTty_of_ne hj, hstoring, herasing]
    rw [storing_of_ne hne] at hroom
    rw [erasing_of_ne hne] at herasable
    exact ⟨h.secondary j, hroom, herasable⟩

theorem Handled.turn (h : Handled s) (hs : s.stack s.cur = f :: fs) (hok : s.Unshared (.run signal))
    (j : Nr) : ((s.turn signal f).1.tty j).secondary.Sound ∧
    s.after (Frame.storing j) f + Outcome.total (Frame.storing j) fs ≤
      ((s.turn signal f).1.tty j).secondary.left ∧
    ((s.turn signal f).1.tty j).Erasable
      (s.after (Frame.erasing j) f + Outcome.total (Frame.erasing j) fs) := by
  have hroom := h.room j
  have herasable := h.erasable j
  rw [hs, Outcome.total_cons] at hroom herasable
  have hnested : Outcome.Nested Above (f :: fs) := hs ▸ h.ordered.nested s.cur
  cases f with
  | cook i pc => exact h.cook hs hok j
  | conWrite nr =>
    obtain ⟨hq, ht, -⟩ := conTurn_tty (s := s) nr j
    refine ⟨hq ▸ h.secondary j, ?_, herasable.congr hq ht⟩
    show 0 + _ ≤ ((s.conTurn nr).1.tty j).secondary.left
    rw [hq]
    exact hroom
  | read r pc =>
    obtain rfl := nil_of_isCall hnested rfl
    refine ⟨?_, Nat.zero_le _, .zero⟩
    show ((s.readTurn signal r pc).1.tty j).secondary.Sound
    rcases readTurn_cases (s := s) (r := r) signal pc with (heq | ⟨pc', heq⟩) | ⟨heq, hne, -⟩
    · rw [heq]
      exact h.secondary j
    · rw [heq]
      exact h.secondary j
    · rw [heq, take_tty]
      by_cases hj : j = r.tty
      · subst hj
        rw [setTty_self]
        refine (h.secondary r.tty).getch fun hzero => ?_
        rw [Fifo.isEmpty_iff.2 hzero] at hne
        cases hne
      · rw [setTty_of_ne hj]
        exact h.secondary j
  | write w pc =>
    obtain rfl := nil_of_isCall hnested rfl
    obtain ⟨hq, -⟩ := writeTurn_tty (s := s) signal w pc j
    refine ⟨?_, Nat.zero_le _, .zero⟩
    show ((s.writeTurn signal w pc).1.tty j).secondary.Sound
    rw [hq]
    exact h.secondary j

/-- Where calls of `copy_to_cooked` are not in each other's way, nothing is put on `secondary` that has
no room, and nothing taken from it that is not there. -/
theorem Handled.next (h : Handled s) (hok : s.Unshared e) (hs : s.next e = some s') : Handled s' := by
  have ho := h.ordered.next hok hs
  by_cases he : ∃ signal, e = .run signal
  · obtain ⟨signal, rfl⟩ := he
    obtain ⟨f, fs, hstack⟩ := stack_of_run hs
    obtain ⟨fs', hfs, rfl⟩ := run_eq_some hstack hs
    have hturn := h.turn hstack hok
    refine ⟨ho, fun i => (hturn i).1, fun i => ?_, fun i => ?_⟩
    · rw [setStack_cur, ofHand_storing.resume hfs]
      exact (hturn i).2.1
    · rw [setStack_cur, ofHand_erasing.resume hfs]
      exact (hturn i).2.2
  · have ha := next_aside h.ordered hs fun signal heq => he ⟨signal, heq⟩
    refine ⟨ho, fun i => (ha.secondary i).symm ▸ h.secondary i, fun i => ?_, fun i => ?_⟩
    · rw [ha.total _ ofHand_storing, ha.secondary]
      exact h.room i
    · rw [ha.total _ ofHand_erasing]
      rcases ha.termios with htermios | ⟨_, _, -, hempty, -⟩
      · exact (h.erasable i).congr (ha.secondary i) (htermios i)
      · rw [hempty]
        exact .zero

theorem State.Fresh.handled (h : s.Fresh) : Handled s := by
  refine ⟨⟨fun p => ?_, fun p _ f hf => ?_⟩, fun i => ?_, fun i => ?_, fun i => ?_⟩
  · rw [h.stack]
    exact List.Pairwise.nil
  · rw [h.stack] at hf
    cases hf
  · obtain ⟨buf, hbuf⟩ := h.secondary i
    rw [hbuf]
    exact Fifo.sound_empty
  · rw [h.stack]
    exact Nat.zero_le _
  · rw [h.stack]
    exact .zero

end Hand

end Linux011.Tty
