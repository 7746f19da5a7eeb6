import Linux011.Tty.Cooked

/-!
# Terminals: output

That the carriage return of a newline is out is kept in one static `cr_flag`, for all calls of
`tty_write`, and also when the call that set it sleeps or returns.

1. `Termios.translate`: what is to be put on the queue for a character, by the flags alone.
2. `TtyStruct.Adds`: what a step puts on a queue, and which call it is of. `next_adds`.
3. `Numbered`: no two calls have the same number.
4. `State.Whole`: the condition on the steps. `Writing.Good`, what holds of every call.
5. `writes_translated`.
-/

namespace Linux011.Tty

/-- The character is to be a newline with a carriage return before it. -/
def Termios.Newline (t : Termios) (c : Byte) : Prop :=
  t.o opost = true ∧ t.outputChar c = 10 ∧ t.o onlcr = true

instance (t : Termios) (c : Byte) : Decidable (t.Newline c) :=
  inferInstanceAs (Decidable (_ ∧ _ ∧ _))

/-- What a character is on the queue. -/
def Termios.translate (t : Termios) (below : Byte → Byte) (c : Byte) : List Byte :=
  if t.Newline c then [13, 10]
  else if t.o opost ∧ t.o olcuc then [toupper below (t.outputChar c)]
  else [t.outputChar c]

/-- Its second half, or all of it. -/
def Termios.single (t : Termios) (below : Byte → Byte) (c : Byte) : Byte :=
  if t.o opost ∧ t.o olcuc then toupper below (t.outputChar c) else t.outputChar c

section Translation

variable {s : State} {t t' : Termios} {below : Byte → Byte} {c : Byte}

theorem translate_newline (h : t.Newline c) : t.translate below c = [13, 10] := if_pos h

theorem translate_other (h : ¬ t.Newline c) : t.translate below c = [t.single below c] := by
  unfold Termios.translate Termios.single
  rw [if_neg h]
  split_ifs <;> rfl

theorem toupper_newline : toupper below 10 = 10 := by
  have htype : ctype below 10 = 0 := by
    unfold ctype
    rw [if_neg (by decide), if_neg (by decide), if_neg (by decide)]
  unfold toupper
  rw [htype, if_neg (by decide)]

theorem single_newline (h : t.Newline c) : t.single below c = 10 := by
  unfold Termios.single
  rw [h.2.1, toupper_newline]
  split_ifs <;> rfl

/-- The translation is by the output flags. -/
theorem translate_congr (below : Byte → Byte) (h : t'.cOflag = t.cOflag) : t'.translate below = t.translate below ∧
    t'.Newline = t.Newline := by
  obtain ⟨i, o, c, l, n, cc⟩ := t
  obtain ⟨i', o', c', l', n', cc'⟩ := t'
  obtain rfl : o' = o := h
  exact ⟨rfl, rfl⟩

/-- `tty_write` puts the carriage return of a newline, or all else of a character. -/
theorem put_cases (w : Writing) (c : Byte) (rest : List Byte) :
    ((s.tty w.tty).termios.Newline c ∧ s.crFlag = false ∧ s.put w c rest =
      ({ s.setTty w.tty ((s.tty w.tty).putWrite (some w.call) [13]) with crFlag := true },
        .goto (.write { w with half := true } .fill))) ∨
    (((s.tty w.tty).termios.Newline c → s.crFlag = true) ∧ s.put w c rest =
      ({ s.setTty w.tty ((s.tty w.tty).putWrite (some w.call) [(s.tty w.tty).termios.single s.below c]) with
          crFlag := false },
        .goto (.write { w with rest := rest, done := w.done ++ [c], half := false } .fill))) := by
  unfold State.put
  dsimp only
  by_cases h : (s.tty w.tty).termios.o opost = true ∧ (s.tty w.tty).termios.outputChar c = 10 ∧
      s.crFlag = false ∧ (s.tty w.tty).termios.o onlcr = true
  · rw [if_pos h]
    exact .inl ⟨⟨h.1, h.2.1, h.2.2.2⟩, h.2.2.1, rfl⟩
  · rw [if_neg h]
    refine .inr ⟨fun hnewline => Bool.eq_true_of_not_eq_false fun hcr => h ?_, rfl⟩
    exact ⟨hnewline.1, hnewline.2.1, hcr, hnewline.2.2⟩

end Translation

/-! ## What is put on the queues -/

/-- What the call has put on the queue. -/
def TtyStruct.putBy (t : TtyStruct) (call : ℕ) : List Byte :=
  (t.puts.filter fun x => x.1 == some call).map Prod.snd

/-- In a step that makes `t` into `t'`, `l` is put on the queue, or a character is taken from it, or it
is flushed. -/
structure TtyStruct.Adds (t t' : TtyStruct) (l : List (Option ℕ × Byte)) : Prop where
  puts : t'.puts = t.puts ++ l
  queue : t'.writeQ = t.writeQ.puts (l.map Prod.snd) ∨
    l = [] ∧ (t'.writeQ = t.writeQ.getch ∨ t'.writeQ = t.writeQ.flush)

/-- It is of the call `k` of `tty_write`. -/
def Frame.holds (k : ℕ) : Frame → ℕ
  | .write w _ => if w.call = k then 1 else 0
  | _ => 0

/-- The calls have different numbers, those to come have put nothing, and those that have returned are
not on a stack. -/
structure Numbered (s : State) : Prop where
  once : ∀ k p, Outcome.total (Frame.holds k) (s.stack p) ≤ 1
  apart : ∀ k p q, Outcome.total (Frame.holds k) (s.stack p) ≠ 0 →
    Outcome.total (Frame.holds k) (s.stack q) ≠ 0 → p = q
  fresh : ∀ k, s.calls ≤ k → (∀ p, Outcome.total (Frame.holds k) (s.stack p) = 0) ∧
    ∀ i, (s.tty i).putBy k = []
  past : ∀ w ∈ s.written, w.call < s.calls ∧ ∀ p, Outcome.total (Frame.holds w.call) (s.stack p) = 0

section Numbers

variable {s s' : State} {f : Frame} {fs fs' : List Frame} {i : Nr} {signal : Bool} {e : Event}
  {t t' : TtyStruct} {w : Writing} {pc : WritePc} {k : ℕ} {l : List (Option ℕ × Byte)} {c : Byte}
  {rest cs : List Byte} {call : Option ℕ}

theorem putBy_append (h : t'.puts = t.puts ++ l) :
    t'.putBy k = t.putBy k ++ (l.filter fun x => x.1 == some k).map Prod.snd := by
  unfold TtyStruct.putBy
  rw [h, List.filter_append, List.map_append]

theorem putBy_putWrite : (t.putWrite (some k) cs).putBy k = t.putBy k ++ cs := by
  rw [putBy_append putWrite_puts, List.filter_eq_self.2, List.map_map]
  · exact congrArg _ (List.map_id cs)
  · intro x hx
    obtain ⟨c, -, rfl⟩ := List.mem_map.1 hx
    exact beq_self_eq_true _

/-- What others put is not of the call. -/
theorem TtyStruct.Adds.putBy_eq (h : t.Adds t' l) (hl : ∀ x ∈ l, x.1 ≠ some k) : t'.putBy k = t.putBy k := by
  rw [putBy_append h.puts, List.filter_eq_nil_iff.2, List.map_nil, List.append_nil]
  exact fun x hx => by simpa using hl x hx

theorem adds_nil (hputs : t'.puts = t.puts) (hq : t'.writeQ = t.writeQ) : t.Adds t' [] :=
  ⟨by rw [hputs, List.append_nil], .inl hq⟩

theorem adds_putWrite (call : Option ℕ) (cs : List Byte) (hputs : t'.puts = t.puts) (hq : t'.writeQ = t.writeQ) :
    t.Adds (t'.putWrite call cs) (cs.map (call, ·)) := by
  refine ⟨by rw [putWrite_puts, hputs], .inl ?_⟩
  rw [putWrite_writeQ, hq, List.map_map]
  exact congrArg _ (List.map_id cs).symm

/-- Where one tty changes, and no more is put on a queue than `l`. -/
theorem setTty_adds (h : (s.tty i).Adds t l) (j : Nr) :
    ∃ l', (s.tty j).Adds ((s.setTty i t).tty j) l' ∧ ∀ x ∈ l', x ∈ l := by
  by_cases hj : j = i
  · subst hj
    rw [setTty_self]
    exact ⟨l, h, fun _ hx => hx⟩
  · rw [setTty_of_ne hj]
    exact ⟨[], adds_nil rfl rfl, nofun⟩

theorem setTty_adds_nil (h : (s.tty i).Adds t []) (j : Nr) : (s.tty j).Adds ((s.setTty i t).tty j) [] := by
  obtain ⟨l, hl, hsub⟩ := setTty_adds h j
  rw [← List.eq_nil_iff_forall_not_mem.2 fun x hx => List.not_mem_nil (hsub x hx)]
  exact hl

/-- What a turn puts on a queue is an echo, or of the call whose turn it is. -/
theorem turn_adds (signal : Bool) (f : Frame) (i : Nr) :
    ∃ l, (s.tty i).Adds ((s.turn signal f).1.tty i) l ∧
      ∀ x ∈ l, ∀ k, x.1 = some k → f.holds k ≠ 0 := by
  cases f with
  | cook j pc =>
    show ∃ l, (s.tty i).Adds ((s.cookStep j pc).1.tty i) l ∧ _
    rw [cookStep_fst]
    have hturned : Turned (s.tty j) (cookTurn s.below (s.tty j) pc) := cookTurn_turned
    obtain ⟨l, hl, hsub⟩ := setTty_adds (adds_putWrite none _ hturned.puts hturned.writeQ) i
    refine ⟨l, hl, fun x hx k hk => ?_⟩
    obtain ⟨c, -, rfl⟩ := List.mem_map.1 (hsub x hx)
    cases hk
  | conWrite nr =>
    refine ⟨[], ?_, nofun⟩
    show (s.tty i).Adds ((s.conTurn nr).1.tty i) []
    cases nr with
    | zero => exact adds_nil rfl rfl
    | succ nr =>
      unfold State.conTurn
      dsimp only
      refine setTty_adds_nil ⟨?_, .inr ⟨rfl, .inl rfl⟩⟩ i
      rw [List.append_nil]
  | read r pc =>
    refine ⟨[], ?_, nofun⟩
    show (s.tty i).Adds ((s.readTurn signal r pc).1.tty i) []
    rcases readTurn_cases (s := s) (r := r) signal pc with (heq | ⟨pc', heq⟩) | ⟨heq, -⟩
    · rw [heq]
      exact adds_nil rfl rfl
    · rw [heq]
      exact adds_nil rfl rfl
    · rw [heq, take_tty]
      refine setTty_adds_nil ?_ i
      exact adds_nil rfl rfl
  | write w pc =>
    show ∃ l, (s.tty i).Adds ((s.writeTurn signal w pc).1.tty i) l ∧ _
    have hput : ∀ cs, ∃ l, (s.tty i).Adds
        ((s.setTty w.tty ((s.tty w.tty).putWrite (some w.call) cs)).tty i) l ∧
        ∀ x ∈ l, ∀ k, x.1 = some k → Frame.holds k (.write w pc) ≠ 0 := by
      intro cs
      obtain ⟨l, hl, hsub⟩ := setTty_adds (adds_putWrite (some w.call) cs
        (t := s.tty w.tty) rfl rfl) i
      refine ⟨l, hl, fun x hx k hk => ?_⟩
      obtain ⟨c, -, rfl⟩ := List.mem_map.1 (hsub x hx)
      show (if w.call = k then 1 else 0) ≠ 0
      rw [if_pos (Option.some.inj hk)]
      exact one_ne_zero
    rcases writeTurn_cases (s := s) (w := w) signal pc with
      ⟨pc', -, heq⟩ | ⟨heq, -⟩ | ⟨-, -, -, heq⟩ | ⟨c, rest, -, -, heq⟩ | ⟨-, heq⟩
    · exact heq ▸ ⟨[], adds_nil rfl rfl, nofun⟩
    · exact heq ▸ ⟨[], adds_nil rfl rfl, nofun⟩
    · exact heq ▸ ⟨[], adds_nil rfl rfl, nofun⟩
    · rcases put_cases (s := s) w c rest with ⟨-, -, hcase⟩ | ⟨-, hcase⟩
      · rw [heq, hcase]
        exact hput [13]
      · rw [heq, hcase]
        exact hput [(s.tty w.tty).termios.single s.below c]
    · exact heq ▸ ⟨[], adds_nil rfl rfl, nofun⟩

theorem next_adds (hs : s.next e = some s') (i : Nr) : ∃ l, (s.tty i).Adds (s'.tty i) l ∧
    ∀ x ∈ l, ∀ k, x.1 = some k → ∃ signal f fs, e = .run signal ∧ s.stack s.cur = f :: fs ∧
      f.holds k ≠ 0 := by
  cases next_changes hs with
  | schedule | read | write | exit => exact ⟨[], adds_nil rfl rfl, nofun⟩
  | ioctl j c =>
    refine ⟨[], setTty_adds_nil ?_ i, nofun⟩
    cases c with
    | setTermios | setTermio | flushInput => exact adds_nil rfl rfl
    | flushOutput => exact ⟨(List.append_nil _).symm, .inr ⟨rfl, .inr rfl⟩⟩
  | receive j =>
    refine ⟨[], setTty_adds_nil ?_ i, nofun⟩
    exact adds_nil rfl rfl
  | transmit j =>
    refine ⟨[], setTty_adds_nil ?_ i, nofun⟩
    exact ⟨(List.append_nil _).symm, .inr ⟨rfl, .inl rfl⟩⟩
  | @run signal f fs fs' hstack hfs =>
    obtain ⟨l, hl, hheld⟩ := turn_adds (s := s) signal f i
    exact ⟨l, hl, fun x hx k hk => ⟨signal, f, fs, rfl, hstack, hheld x hx k hk⟩⟩

/-- No turn makes another call of `tty_write`. -/
theorem turn_holds (signal : Bool) (f : Frame) (k : ℕ) :
    (s.turn signal f).2.weight (Frame.holds k) (fun _ => 0) ≤ f.holds k := by
  have hnone : f.isCall = false → (s.turn signal f).2.weight (Frame.holds k) (fun _ => 0) = 0 := by
    refine fun hf => Outcome.All.weight ((turn_calls hf).mono fun g hg => ?_)
    cases g with
    | cook | conWrite => rfl
    | read | write => cases hg
  cases f with
  | cook j pc => exact (hnone rfl).le
  | conWrite nr => exact (hnone rfl).le
  | read r pc =>
    refine (Outcome.All.weight ?_).le
    exact readTurn_all pc fun _ _ => rfl
  | write w pc =>
    show (s.writeTurn signal w pc).2.weight (Frame.holds k) (fun _ => 0) ≤ if w.call = k then 1 else 0
    rcases writeTurn_cases (s := s) (w := w) signal pc with
      ⟨pc', -, heq⟩ | ⟨heq, -⟩ | ⟨-, -, -, heq⟩ | ⟨c, rest, -, -, heq⟩ | ⟨-, heq⟩
    · rw [heq]
      exact le_rfl
    · rw [heq]
      exact Nat.zero_le _
    · rw [heq]
      exact le_rfl
    · rcases put_cases (s := s) w c rest with ⟨-, -, hcase⟩ | ⟨-, hcase⟩
      · rw [heq, hcase]
        exact le_rfl
      · rw [heq, hcase]
        exact le_rfl
    · rw [heq]
      show (s.output w.tty (.write w .written)).weight (Frame.holds k) (fun _ => 0) ≤ _
      unfold State.output
      by_cases htty : w.tty = 0
      · rw [if_pos htty]
        exact (Nat.zero_add _).le
      · rw [if_neg htty]
        exact le_rfl

/-- Only a new call of `tty_write` comes on the stacks, with the next number. -/
theorem next_holds (hs : s.next e = some s') (hk : ∀ i buf, e = .write i buf → k ≠ s.calls) (p : ℕ) :
    Outcome.total (Frame.holds k) (s'.stack p) ≤ Outcome.total (Frame.holds k) (s.stack p) := by
  have hset : ∀ {t : State} {gs : List Frame}, t.stack = s.stack → t.cur = s.cur →
      Outcome.total (Frame.holds k) gs ≤ Outcome.total (Frame.holds k) (s.stack s.cur) →
      Outcome.total (Frame.holds k) ((t.setStack gs).stack p) ≤
        Outcome.total (Frame.holds k) (s.stack p) := by
    intro t gs ht hcur hgs
    rw [setStack_stack, ht, hcur]
    split_ifs with hp
    · exact hp ▸ hgs
    · exact le_rfl
  cases next_changes hs with
  | schedule | ioctl | transmit => exact le_rfl
  | read => exact hset rfl rfl (Nat.zero_le _)
  | write i buf =>
    refine hset rfl rfl ?_
    rw [Outcome.total_cons, Outcome.total_nil]
    show (if s.calls = k then 1 else 0) + 0 ≤ _
    rw [if_neg (hk i buf rfl).symm]
    exact Nat.zero_le _
  | receive => exact hset rfl rfl (Nat.zero_add _).le
  | exit => exact hset rfl rfl (Nat.zero_le _)
  | @run signal f fs fs' hstack hfs =>
    refine hset (turn_stack signal).1 (turn_stack signal).2 ?_
    rw [hstack, Outcome.total_cons,
      Outcome.resume_total (u := fun _ => 0) (fun _ _ _ _ _ => rfl) (fun _ _ _ => rfl) hfs]
    exact Nat.add_le_add_right (turn_holds signal f k) _

/-- What is on another stack, or below the innermost frame, is not of the call whose turn it is. -/
theorem Numbered.held (h : Numbered s) (hs : s.stack s.cur = f :: fs) (hf : f.holds k ≠ 0) :
    Outcome.total (Frame.holds k) fs = 0 ∧
      ∀ p, p ≠ s.cur → Outcome.total (Frame.holds k) (s.stack p) = 0 := by
  have honce := h.once k s.cur
  have hne : Outcome.total (Frame.holds k) (s.stack s.cur) ≠ 0 := by
    rw [hs, Outcome.total_cons]
    omega
  rw [hs, Outcome.total_cons] at honce
  refine ⟨by omega, fun p hp => ?_⟩
  by_contra hother
  exact hp (h.apart k p s.cur hother hne)

/-- What a call has put stays what it was where its turn is not. -/
theorem putBy_kept (hs : s.next e = some s')
    (h : ∀ signal f fs, e = .run signal → s.stack s.cur = f :: fs → f.holds k = 0) (i : Nr) :
    (s'.tty i).putBy k = (s.tty i).putBy k := by
  obtain ⟨l, hl, hheld⟩ := next_adds hs i
  refine hl.putBy_eq fun x hx hk => ?_
  obtain ⟨signal, f, fs, he, hstack, hf⟩ := hheld x hx k hk
  exact hf (h signal f fs he hstack)

theorem holds_of_total (h : Outcome.total (Frame.holds k) (s.stack s.cur) = 0) {f : Frame} {fs : List Frame}
    (hs : s.stack s.cur = f :: fs) : f.holds k = 0 := by
  rw [hs, Outcome.total_cons] at h
  omega

theorem next_calls (hs : s.next e = some s') : s'.calls = s.calls ∨ s'.calls = s.calls + 1 := by
  cases next_changes hs with
  | schedule | read | ioctl | receive | transmit | exit => exact .inl rfl
  | write => exact .inr rfl
  | @run signal f fs fs' hstack hfs =>
    refine .inl ?_
    show (s.turn signal f).1.calls = s.calls
    cases f with
    | cook j pc =>
      show (s.cookStep j pc).1.calls = s.calls
      rw [cookStep_fst]
      rfl
    | conWrite nr => cases nr <;> rfl
    | read r pc =>
      show (s.readTurn signal r pc).1.calls = s.calls
      rcases readTurn_cases (s := s) (r := r) signal pc with (heq | ⟨pc', heq⟩) | ⟨heq, -⟩
      · rw [heq]
        rfl
      · rw [heq]
      · rcases take_cases (s := s) (r := r) with ⟨htake, -⟩ | htake
        · rw [heq, htake]
          rfl
        · rw [heq, htake]
          rfl
    | write w pc =>
      show (s.writeTurn signal w pc).1.calls = s.calls
      rcases writeTurn_cases (s := s) (w := w) signal pc with
        ⟨pc', -, heq⟩ | ⟨heq, -⟩ | ⟨-, -, -, heq⟩ | ⟨c, rest, -, -, heq⟩ | ⟨-, heq⟩
      · rw [heq]
      · rw [heq]
        rfl
      · rw [heq]
      · rcases put_cases (s := s) w c rest with ⟨-, -, hcase⟩ | ⟨-, hcase⟩
        · rw [heq, hcase]
          rfl
        · rw [heq, hcase]
          rfl
      · rw [heq]

/-- A call that returns was the innermost frame. -/
theorem next_written (hs : s.next e = some s') (hw : w ∈ s'.written) : w ∈ s.written ∨
    ∃ signal pc fs, e = .run signal ∧ s.stack s.cur = .write w pc :: fs ∧
      s.writeTurn signal w pc = s.finish w ∧ s' = (s.finish w).1.setStack (s'.stack s.cur) ∧
      (s.finish w).2.resume (fun _ g => g) fs = some (s'.stack s.cur) := by
  cases next_changes hs with
  | schedule | read | write | ioctl | receive | transmit | exit => exact .inl hw
  | @run signal f fs fs' hstack hfs =>
    have hcur : ((s.turn signal f).1.setStack fs').stack s.cur = fs' := by
      rw [setStack_stack, (turn_stack signal).2, if_pos rfl]
    have hw : w ∈ (s.turn signal f).1.written := hw
    cases f with
    | cook j pc =>
      have hw : w ∈ (s.cookStep j pc).1.written := hw
      rw [cookStep_fst] at hw
      exact .inl hw
    | conWrite nr => cases nr <;> exact .inl hw
    | read r pc =>
      have hw : w ∈ (s.readTurn signal r pc).1.written := hw
      rcases readTurn_cases (s := s) (r := r) signal pc with (heq | ⟨pc', heq⟩) | ⟨heq, -⟩
      · rw [heq] at hw
        exact .inl hw
      · rw [heq] at hw
        exact .inl hw
      · rcases take_cases (s := s) (r := r) with ⟨htake, -⟩ | htake
        · rw [heq, htake] at hw
          exact .inl hw
        · rw [heq, htake] at hw
          exact .inl hw
    | write v pc =>
      have hw : w ∈ (s.writeTurn signal v pc).1.written := hw
      rcases writeTurn_cases (s := s) (w := v) signal pc with
        ⟨pc', -, heq⟩ | ⟨heq, -⟩ | ⟨-, -, -, heq⟩ | ⟨c, rest, -, -, heq⟩ | ⟨-, heq⟩
      · rw [heq] at hw
        exact .inl hw
      · rw [heq] at hw
        rcases List.mem_cons.1 hw with rfl | hw
        · have hfs : (s.writeTurn signal w pc).2.resume _ fs = some fs' := hfs
          have hturn : (s.turn signal (.write w pc)).1 = (s.finish w).1 := congrArg Prod.fst heq
          rw [heq] at hfs
          refine .inr ⟨signal, pc, fs, rfl, hstack, heq, ?_, ?_⟩
          · rw [hcur, hturn]
          · rw [hcur, hfs]
        · exact .inl hw
      · rw [heq] at hw
        exact .inl hw
      · rcases put_cases (s := s) v c rest with ⟨-, -, hcase⟩ | ⟨-, hcase⟩
        · rw [heq, hcase] at hw
          exact .inl hw
        · rw [heq, hcase] at hw
          exact .inl hw
      · rw [heq] at hw
        exact .inl hw

theorem Numbered.next (h : Numbered s) (hs : s.next e = some s') : Numbered s' := by
  have hle : ∀ {k}, (∀ i buf, e = .write i buf → k ≠ s.calls) → ∀ p,
      Outcome.total (Frame.holds k) (s'.stack p) ≤ Outcome.total (Frame.holds k) (s.stack p) :=
    fun hk p => next_holds hs hk p
  have hcalls := next_calls hs
  -- The number of a new call was on no stack, and is on one.
  have hnew : ∀ i buf, e = .write i buf → s'.calls = s.calls + 1 ∧
      ∀ p, Outcome.total (Frame.holds s.calls) (s'.stack p) ≤ if p = s.cur then 1 else 0 := by
    rintro i buf rfl
    cases next_changes hs with
    | write i buf hempty =>
      refine ⟨rfl, fun p => ?_⟩
      rw [setStack_stack]
      show Outcome.total (Frame.holds s.calls) (if p = s.cur then [.write _ .loop] else s.stack p) ≤ _
      split_ifs with hp
      · show (if s.calls = s.calls then 1 else 0) + 0 ≤ 1
        rw [if_pos rfl]
        exact le_rfl
      · exact ((h.fresh s.calls le_rfl).1 p).le
  have hsplit : ∀ k, (∀ i buf, e = .write i buf → k ≠ s.calls) ∨ k = s.calls ∧ ∃ i buf, e = .write i buf := by
    intro k
    by_cases hw : ∃ i buf, e = .write i buf
    · by_cases hk : k = s.calls
      · exact .inr ⟨hk, hw⟩
      · exact .inl fun _ _ _ => hk
    · exact .inl fun i buf he => absurd ⟨i, buf, he⟩ hw
  refine ⟨fun k p => ?_, fun k p q hp hq => ?_, fun k hk => ?_, fun w hw => ?_⟩
  · rcases hsplit k with hk | ⟨rfl, i, buf, he⟩
    · exact (hle hk p).trans (h.once k p)
    · refine ((hnew i buf he).2 p).trans ?_
      split_ifs <;> decide
  · rcases hsplit k with hk | ⟨rfl, i, buf, he⟩
    · have hp' := hle hk p
      have hq' := hle hk q
      exact h.apart k p q (by omega) (by omega)
    · have hp' := (hnew i buf he).2 p
      have hq' := (hnew i buf he).2 q
      split_ifs at hp' hq' with h₁ h₂
      · rw [h₁, h₂]
      all_goals omega
  · have hk' : ∀ i buf, e = .write i buf → k ≠ s.calls := by
      intro i buf he
      have hsucc := (hnew i buf he).1
      omega
    obtain ⟨hzero, hputs⟩ := h.fresh k (by omega)
    refine ⟨fun p => Nat.le_zero.1 ((hle hk' p).trans (hzero p).le), fun i => ?_⟩
    rw [putBy_kept hs (fun _ _ _ _ hstack => holds_of_total (hzero s.cur) hstack), hputs]
  · rcases next_written hs hw with hw | ⟨signal, pc, fs, rfl, hstack, -, hs', hfs⟩
    · obtain ⟨hlt, hzero⟩ := h.past w hw
      refine ⟨by omega, fun p => Nat.le_zero.1 ((hle (fun _ _ _ => by omega) p).trans (hzero p).le)⟩
    · have hheld : Frame.holds w.call (.write w pc) ≠ 0 := by
        show (if w.call = w.call then 1 else 0) ≠ 0
        rw [if_pos rfl]
        exact one_ne_zero
      obtain ⟨hbelow, hothers⟩ := h.held hstack hheld
      refine ⟨?_, fun p => ?_⟩
      · by_contra hge
        exact hheld (holds_of_total ((h.fresh w.call (by omega)).1 s.cur) hstack)
      · by_cases hp : p = s.cur
        · rw [hp, Outcome.resume_total (u := fun _ => 0) (fun _ _ _ _ _ => rfl) (fun _ _ _ => rfl) hfs,
            hbelow]
          rfl
        · exact Nat.le_zero.1 ((hle nofun p).trans (hothers p hp).le)

theorem State.Fresh.numbered (h : s.Fresh) : Numbered s := by
  have hzero : ∀ k p, Outcome.total (Frame.holds k) (s.stack p) = 0 := fun k p => by
    rw [h.stack]
    rfl
  refine ⟨fun k p => (hzero k p).trans_le zero_le_one, fun k p q hp => absurd (hzero k p) hp,
    fun k _ => ⟨hzero k, fun i => ?_⟩, fun w hw => ?_⟩
  · unfold TtyStruct.putBy
    rw [h.puts]
    rfl
  · rw [h.written] at hw
    cases hw

end Numbers

/-! ## Calls -/

/-- If the innermost frame is a `tty_write`, `P` holds of it. -/
def TopWrite (P : Writing → WritePc → Prop) : List Frame → Prop
  | .write w pc :: _ => P w pc
  | _ => True

/-- `cr_flag` is set for a newline if and only if it was set for it, and a signal does not end a call
that has set it. The flags are not changed. -/
def State.Whole (s : State) : Event → Prop
  | .run signal => TopWrite (fun w pc =>
      (pc = .fetch → ∀ c ∈ w.rest.head?, (s.tty w.tty).termios.Newline c → s.crFlag = w.half) ∧
      (signal = true → pc = .loop ∧ (s.tty w.tty).writeQ.isFull = false ∨ pc = .sleep → w.half = false))
      (s.stack s.cur)
  | .ioctl i c => ((s.tty i).ioctl c).termios.cOflag = (s.tty i).termios.cOflag
  | _ => True

/-- What it has put on the queue is the translation of what is done, and maybe the first half of the
next. -/
structure Writing.Good (t : TtyStruct) (below : Byte → Byte) (w : Writing) : Prop where
  buf : w.done ++ w.rest = w.buf
  out : t.putBy w.call = w.done.flatMap (t.termios.translate below) ++ if w.half then [13] else []
  half : w.half = true → ∃ c rest, w.rest = c :: rest ∧ t.termios.Newline c

def Frame.Wrote (tty : Nr → TtyStruct) (below : Byte → Byte) : Frame → Prop
  | .write w _ => w.Good (tty w.tty) below
  | _ => True

structure Wrote (s : State) : Prop where
  numbered : Numbered s
  frames : ∀ p, ∀ f ∈ s.stack p, f.Wrote s.tty s.below
  written : ∀ w ∈ s.written, w.Good (s.tty w.tty) s.below ∧ w.half = false

section Output

variable {s s' : State} {f : Frame} {fs fs' : List Frame} {i : Nr} {signal : Bool} {e : Event}
  {t t' : TtyStruct} {below : Byte → Byte} {c : Byte} {rest : List Byte} {w : Writing} {pc : WritePc}
  {tty tty' : Nr → TtyStruct}

theorem Writing.Good.congr (h : w.Good t below) (ho : t'.termios.cOflag = t.termios.cOflag)
    (hputs : t'.putBy w.call = t.putBy w.call) : w.Good t' below := by
  obtain ⟨htranslate, hnewline⟩ := translate_congr below ho
  constructor
  · exact h.buf
  · rw [htranslate, hputs]
    exact h.out
  · rw [hnewline]
    exact h.half

/-- A character, or the first half of it, is put on the queue. -/
theorem put_good (h : w.Good (s.tty w.tty) s.below) (hrest : w.rest = c :: rest)
    (hflag : (s.tty w.tty).termios.Newline c → s.crFlag = w.half) :
    (s.put w c rest).2.All (Frame.Wrote (s.put w c rest).1.tty s.below) := by
  have hout := h.out
  rcases put_cases (s := s) w c rest with ⟨hnewline, hcr, hcase⟩ | ⟨hcr, hcase⟩
  · have hhalf : w.half = false := (hflag hnewline).symm.trans hcr
    rw [hhalf, if_neg Bool.false_ne_true, List.append_nil] at hout
    rw [hcase]
    show Writing.Good ((s.setTty w.tty _).tty w.tty) s.below { w with half := true }
    rw [setTty_self]
    refine ⟨h.buf, ?_, fun _ => ⟨c, rest, hrest, hnewline⟩⟩
    rw [putBy_putWrite, hout]
    rfl
  · rw [hcase]
    show Writing.Good ((s.setTty w.tty _).tty w.tty) s.below
      { w with rest := rest, done := w.done ++ [c], half := false }
    rw [setTty_self]
    refine ⟨?_, ?_, nofun⟩
    · show (w.done ++ [c]) ++ rest = w.buf
      rw [← h.buf, hrest, List.append_assoc]
      rfl
    · show _ = (w.done ++ [c]).flatMap ((s.tty w.tty).termios.translate s.below) ++ []
      rw [putBy_putWrite, List.flatMap_append, List.flatMap_singleton, List.append_nil, hout,
        List.append_assoc]
      refine congrArg₂ _ rfl ?_
      by_cases hnewline : (s.tty w.tty).termios.Newline c
      · rw [translate_newline hnewline, ← hflag hnewline, hcr hnewline, if_pos rfl,
          single_newline hnewline]
        rfl
      · have hhalf : w.half = false := by
          refine Bool.eq_false_iff.2 fun hhalf => hnewline ?_
          obtain ⟨c', rest', hrest', hnewline'⟩ := h.half hhalf
          obtain rfl : c = c' := (List.cons.inj (hrest.symm.trans hrest')).1
          exact hnewline'
        rw [hhalf, translate_other hnewline]
        rfl

theorem turn_below : (s.turn signal f).1.below = s.below := by
  cases f with
  | cook i pc =>
    show (s.cookStep i pc).1.below = s.below
    rw [cookStep_fst]
    rfl
  | conWrite nr => cases nr <;> rfl
  | read r pc =>
    show (s.readTurn signal r pc).1.below = s.below
    rcases readTurn_cases (s := s) (r := r) signal pc with (heq | ⟨pc', heq⟩) | ⟨heq, -⟩
    · rw [heq]
      rfl
    · rw [heq]
    · rcases take_cases (s := s) (r := r) with ⟨htake, -⟩ | htake
      · rw [heq, htake]
        rfl
      · rw [heq, htake]
        rfl
  | write w pc =>
    show (s.writeTurn signal w pc).1.below = s.below
    rcases writeTurn_cases (s := s) (w := w) signal pc with
      ⟨pc', -, heq⟩ | ⟨heq, -⟩ | ⟨-, -, -, heq⟩ | ⟨c, rest, -, -, heq⟩ | ⟨-, heq⟩
    · rw [heq]
    · rw [heq]
      rfl
    · rw [heq]
    · rcases put_cases (s := s) w c rest with ⟨-, -, hcase⟩ | ⟨-, hcase⟩
      · rw [heq, hcase]
        rfl
      · rw [heq, hcase]
        rfl
    · rw [heq]

theorem next_below (hs : s.next e = some s') : s'.below = s.below := by
  cases next_changes hs with
  | schedule | read | write | ioctl | receive | transmit | exit => rfl
  | run => exact turn_below

/-- The frames that a turn leaves. -/
theorem turn_wrote (h : f.Wrote s.tty s.below) (hs : s.stack s.cur = f :: fs)
    (hok : s.Whole (.run signal)) :
    (s.turn signal f).2.All (Frame.Wrote (s.turn signal f).1.tty s.below) := by
  have hnone : f.isCall = false → (s.turn signal f).2.All (Frame.Wrote (s.turn signal f).1.tty s.below) := by
    refine fun hf => (turn_calls hf).mono fun g hg => ?_
    cases g with
    | cook | conWrite => trivial
    | read | write => cases hg
  cases f with
  | cook i pc => exact hnone rfl
  | conWrite nr => exact hnone rfl
  | read r pc => exact readTurn_all pc fun _ _ => trivial
  | write w pc =>
    have hok : TopWrite _ (s.stack s.cur) := hok
    rw [hs] at hok
    show (s.writeTurn signal w pc).2.All (Frame.Wrote (s.writeTurn signal w pc).1.tty s.below)
    rcases writeTurn_cases (s := s) (w := w) signal pc with
      ⟨pc', -, heq⟩ | ⟨heq, -⟩ | ⟨-, -, -, heq⟩ | ⟨c, rest, hpc, hrest, heq⟩ | ⟨-, heq⟩
    · rw [heq]
      exact h
    · rw [heq]
      trivial
    · rw [heq]
      exact h
    · rw [heq]
      exact put_good h hrest (hok.1 hpc c (by rw [hrest]; rfl))
    · rw [heq]
      show (s.output w.tty _).All _
      unfold State.output
      split_ifs
      · exact ⟨h, trivial⟩
      · exact h

/-- A call that returns has put all of it. -/
theorem finish_half (h : w.Good (s.tty w.tty) s.below) (hs : s.stack s.cur = .write w pc :: fs)
    (hok : s.Whole (.run signal)) (hfinish : s.writeTurn signal w pc = s.finish w) : w.half = false := by
  have hok : TopWrite _ (s.stack s.cur) := hok
  rw [hs] at hok
  rcases writeTurn_cases (s := s) (w := w) signal pc with
    ⟨pc', -, heq⟩ | ⟨-, hnil | ⟨hsignal, hpc⟩⟩ | ⟨-, -, -, heq⟩ | ⟨c, rest, -, -, heq⟩ | ⟨-, heq⟩
  · rw [heq] at hfinish
    cases congrArg Prod.snd hfinish
  · refine Bool.eq_false_iff.2 fun hhalf => ?_
    obtain ⟨c, rest, hrest, -⟩ := h.half hhalf
    rw [hnil] at hrest
    cases hrest
  · exact hok.2 hsignal hpc
  · rw [heq] at hfinish
    cases congrArg Prod.snd hfinish
  · rw [heq] at hfinish
    obtain ⟨w', -, hput⟩ := put_snd (s := s) (w := w) (c := c) rest
    cases hput.symm.trans (congrArg Prod.snd hfinish)
  · rw [heq] at hfinish
    have hsnd : s.output w.tty (.write w .written) = .ret () := congrArg Prod.snd hfinish
    unfold State.output at hsnd
    split_ifs at hsnd

theorem next_cOflag (hok : s.Whole e) (hs : s.next e = some s') (i : Nr) :
    (s'.tty i).termios.cOflag = (s.tty i).termios.cOflag := by
  cases next_changes hs with
  | schedule | read | write | exit => rfl
  | ioctl => exact setTty_congr (fun t => t.termios.cOflag) hok i
  | receive | transmit =>
    refine setTty_congr (fun t => t.termios.cOflag) ?_ i
    rfl
  | run signal => exact congrArg Termios.cOflag (turn_termios signal i)

theorem holds_self : Frame.holds w.call (.write w pc) = 1 := if_pos rfl

theorem Wrote.next (h : Wrote s) (hok : s.Whole e) (hs : s.next e = some s') : Wrote s' := by
  have hsame : ∀ {w : Writing}, w.Good (s.tty w.tty) s.below →
      (∀ signal f fs, e = .run signal → s.stack s.cur = f :: fs → f.holds w.call = 0) →
      w.Good (s'.tty w.tty) s'.below := by
    intro w hw hheld
    rw [next_below hs]
    exact hw.congr (next_cOflag hok hs w.tty) (putBy_kept hs hheld w.tty)
  refine ⟨h.numbered.next hs, next_frames hs (fun p f hf => ?_) ?_, fun w hw => ?_⟩
  · have hframe := h.frames p f (mem_of_kept hf)
    cases f with
    | cook | conWrite | read => trivial
    | write w pc =>
      refine hsame hframe fun signal g gs he hstack => ?_
      subst he
      by_contra hg
      obtain ⟨hbelow, hothers⟩ := h.numbered.held hstack hg
      have hle : ∀ {fs : List Frame}, Frame.write w pc ∈ fs → Outcome.total (Frame.holds w.call) fs ≠ 0 := by
        intro fs hmem
        have hone : Frame.holds w.call (.write w pc) ≤ _ := Outcome.le_total hmem
        rw [holds_self] at hone
        omega
      by_cases hp : p = s.cur
      · subst hp
        have hmem : Frame.write w pc ∈ (s.stack s.cur).tail := by
          unfold State.kept at hf
          rw [if_pos rfl] at hf
          exact hf
        rw [hstack] at hmem
        exact hle hmem hbelow
      · exact hle (mem_of_kept hf) (hothers p hp)
  · cases e with
    | write i buf =>
      refine ⟨rfl, ?_, nofun⟩
      show (s'.tty i).putBy s.calls = []
      obtain ⟨hzero, hputs⟩ := h.numbered.fresh s.calls le_rfl
      rw [putBy_kept hs (fun _ _ _ _ hstack => holds_of_total (hzero s.cur) hstack), hputs]
    | run signal =>
      intro f fs hstack
      obtain ⟨f', fs₁, hstack'⟩ := stack_of_run hs
      obtain ⟨rfl, rfl⟩ := List.cons.inj (hstack.symm.trans hstack')
      obtain ⟨fs', hfs, rfl⟩ := run_eq_some hstack hs
      rw [show ((s.turn signal f).1.setStack fs').below = s.below from turn_below]
      exact turn_wrote (h.frames s.cur f (hstack ▸ List.mem_cons_self)) hstack hok
    | schedule | read | ioctl | receive | transmit | exit => trivial
  · rcases next_written hs hw with hw | ⟨signal, pc, fs, rfl, hstack, hfinish, hs', -⟩
    · obtain ⟨hgood, hhalf⟩ := h.written w hw
      refine ⟨hsame hgood fun _ _ _ _ hstack => ?_, hhalf⟩
      exact holds_of_total ((h.numbered.past w hw).2 s.cur) hstack
    · have hmem : Frame.write w pc ∈ s.stack s.cur := hstack ▸ List.mem_cons_self
      have hgood : w.Good (s.tty w.tty) s.below := h.frames s.cur (.write w pc) hmem
      refine ⟨?_, finish_half hgood hstack hok hfinish⟩
      rw [hs']
      exact hgood

theorem State.Fresh.wrote (h : s.Fresh) : Wrote s := by
  refine ⟨h.numbered, fun p f hf => ?_, fun w hw => ?_⟩
  · rw [h.stack] at hf
    cases hf
  · rw [h.written] at hw
    cases hw

end Output

/-- Every call of `tty_write` that has returned has put on the queue the translation of what it says
that it wrote, whatever the others wrote; and what is put on a queue in a step is remembered, with the
number of the call. -/
theorem writes_translated {s : State} (h : lines.ReachableWhen State.Whole s) :
    (∀ w ∈ s.written, w.done <+: w.buf ∧
      (s.tty w.tty).putBy w.call = w.done.flatMap ((s.tty w.tty).termios.translate s.below)) ∧
    ∀ e s', s.next e = some s' → ∀ i, ∃ l, (s.tty i).Adds (s'.tty i) l ∧
      ∀ x ∈ l, ∀ k, x.1 = some k → ∃ signal w pc fs,
        e = .run signal ∧ s.stack s.cur = .write w pc :: fs ∧ w.call = k := by
  have hwrote : Wrote s :=
    h.invariant (fun _ hs => State.Fresh.wrote hs) fun _ _ _ hI hok hs => hI.next hok hs
  refine ⟨fun w hw => ?_, fun e s' hs i => ?_⟩
  · obtain ⟨hgood, hhalf⟩ := hwrote.written w hw
    have hout := hgood.out
    rw [hhalf, if_neg Bool.false_ne_true, List.append_nil] at hout
    exact ⟨⟨w.rest, hgood.buf⟩, hout⟩
  · obtain ⟨l, hl, hheld⟩ := next_adds hs i
    refine ⟨l, hl, fun x hx k hk => ?_⟩
    obtain ⟨signal, f, fs, he, hstack, hf⟩ := hheld x hx k hk
    cases f with
    | cook | conWrite | read => exact absurd rfl hf
    | write w pc =>
      refine ⟨signal, w, pc, fs, he, hstack, ?_⟩
      by_contra hne
      exact hf (if_neg hne)

instance {P : Writing → WritePc → Prop} [∀ w pc, Decidable (P w pc)] : ∀ fs, Decidable (TopWrite P fs)
  | .write w pc :: _ => inferInstanceAs (Decidable (P w pc))
  | [] | .cook .. :: _ | .conWrite _ :: _ | .read .. :: _ => .isTrue trivial

instance (s : State) : ∀ e, Decidable (s.Whole e)
  | .run _ => inferInstanceAs (Decidable (TopWrite _ (s.stack s.cur)))
  | .ioctl i c => inferInstanceAs (Decidable (((s.tty i).ioctl c).termios.cOflag = (s.tty i).termios.cOflag))
  | .schedule _ | .read .. | .write .. | .receive .. | .transmit _ | .exit => .isTrue trivial

/-- A letter and a newline on the console, and a newline on a serial line. -/
theorem writes_translated_two : ∃ s : State, s.written.map Writing.buf = [[10], [97, 10]] ∧
    (s.tty 1).writeQ.contents = [10] ∧ (s.tty 0).putBy 0 = [97, 13, 10] ∧
    ∀ w ∈ s.written, w.done <+: w.buf ∧
      (s.tty w.tty).putBy w.call = w.done.flatMap ((s.tty w.tty).termios.translate s.below) := by
  have hrun : (System.execWhen State.next State.Whole boot
      (.write 0 [97, 10] :: List.replicate 14 (.run false) ++ .write 1 [10] ::
        List.replicate 6 (.run false))).any
      (fun s => decide (s.written.map Writing.buf = [[10], [97, 10]] ∧
        (s.tty 1).writeQ.contents = [10] ∧ (s.tty 0).putBy 0 = [97, 13, 10])) = true := by
    decide +kernel
  obtain ⟨s, hs, hend⟩ := (Option.any_eq_true _ _).1 hrun
  obtain ⟨hbuf, hqueue, hputs⟩ := of_decide_eq_true hend
  exact ⟨s, hbuf, hqueue, hputs,
    (writes_translated (.exec (fun _ _ _ h => h) (.init fresh_boot) hs)).1⟩

/-! ## Between the two halves -/

/-- A serial line for text. -/
def serial : Termios := ⟨0, opost ||| onlcr, b2400 ||| cs8, 0, 0, initCCc⟩

/-- Process 0 has the stack `fs`, and process 1 has `gs`; the serial lines are `t` and `u`, and there were
`n` calls of `tty_write`. -/
def two (cr : Bool) (cur : ℕ) (t u : TtyStruct) (fs gs : List Frame) (n : ℕ) (ws : List Writing) : State :=
  { boot with
    tty := Function.update (Function.update boot.tty 2 u) 1 t
    crFlag := cr
    stack := Function.update (Function.update boot.stack 1 gs) 0 fs
    cur := cur
    calls := n
    written := ws }

section Two

variable {cr : Bool} {cur n : ℕ} {t u t' : TtyStruct} {fs gs hs : List Frame} {ws : List Writing} {f g : Frame}
  {w : Writing} {pc : WritePc} {rest : List Byte} {signal : Bool} {s s' : State} {k : ℕ} {c : Byte}

theorem two_setTty_one : (two cr cur t u fs gs n ws).setTty 1 t' = two cr cur t' u fs gs n ws := by
  unfold two State.setTty
  dsimp only
  rw [Function.update_idem]

theorem two_setTty_two : (two cr cur t u fs gs n ws).setTty 2 t' = two cr cur t t' fs gs n ws := by
  unfold two State.setTty
  dsimp only
  rw [Function.update_comm (by decide), Function.update_idem]

theorem two_setStack_zero : (two cr 0 t u fs gs n ws).setStack hs = two cr 0 t u hs gs n ws := by
  unfold two State.setStack
  dsimp only
  rw [Function.update_idem]

theorem two_setStack_one : (two cr 1 t u fs gs n ws).setStack hs = two cr 1 t u fs hs n ws := by
  unfold two State.setStack
  dsimp only
  congr 1
  refine (Function.update_comm (by decide) _ _ _).trans ?_
  rw [Function.update_idem]

theorem two_tty_one : (two cr cur t u fs gs n ws).tty 1 = t := rfl

theorem two_tty_two : (two cr cur t u fs gs n ws).tty 2 = u := rfl

theorem two_stack_zero : (two cr 0 t u fs gs n ws).stack 0 = fs := rfl

theorem two_stack_one : (two cr 1 t u fs gs n ws).stack 1 = gs := rfl

/-- A turn of a `tty_write` that goes on. -/
theorem next_goto (hs : s.stack s.cur = [.write w pc]) (h : s.writeTurn false w pc = (s', .goto g)) :
    s.next (.run false) = some (s'.setStack [g]) := by
  show s.run false = _
  unfold State.run
  rw [hs]
  show ((s.writeTurn false w pc).2.resume _ []).map (s.writeTurn false w pc).1.setStack = _
  rw [h]
  rfl

theorem writeTurn_fill (hrest : w.rest ≠ []) (hleft : (s.tty w.tty).writeQ.left ≠ 0) :
    s.writeTurn signal w .fill = (s, .goto (.write w .fetch)) :=
  if_neg fun h => h.elim hrest fun hfull => hleft (Fifo.isFull_iff.1 hfull)

theorem writeTurn_full (hfull : (s.tty w.tty).writeQ.isFull = true) :
    s.writeTurn signal w .fill = (s, .goto (.write w .flush)) :=
  if_pos (.inr hfull)

theorem writeTurn_fetch (hrest : w.rest = c :: rest) : s.writeTurn signal w .fetch = s.put w c rest := by
  unfold State.writeTurn
  dsimp only
  rw [hrest]

/-- Process 0 gets the next character for the line 1. -/
theorem two_fetch (cr : Bool) (u : TtyStruct) (gs : List Frame) (n : ℕ) (ws : List Writing) (hw : w.tty = 1)
    (hrest : w.rest ≠ []) (hleft : t.writeQ.left ≠ 0) :
    (two cr 0 t u [.write w .fill] gs n ws).next (.run false) =
      some (two cr 0 t u [.write w .fetch] gs n ws) := by
  have hturn : (two cr 0 t u [.write w .fill] gs n ws).writeTurn false w .fill = _ :=
    writeTurn_fill hrest (by rw [hw]; exact hleft)
  rw [next_goto two_stack_zero hturn, two_setStack_zero]

/-- A letter is put on the line 1. -/
theorem two_letter (u : TtyStruct) (gs : List Frame) (n : ℕ) (ws : List Writing) (ht : t.termios = serial)
    (hw : w.tty = 1) (hrest : w.rest = 97 :: rest) :
    (two false 0 t u [.write w .fetch] gs n ws).next (.run false) =
      some (two false 0 (t.putWrite (some w.call) [97]) u
        [.write { w with rest := rest, done := w.done ++ [97], half := false } .fill] gs n ws) := by
  obtain ⟨s, hs⟩ : ∃ s, s = two false 0 t u [.write w .fetch] gs n ws := ⟨_, rfl⟩
  have htty : s.tty w.tty = t := by rw [hs, hw, two_tty_one]
  have hsingle : t.termios.single s.below 97 = 97 := by
    rw [ht]
    rfl
  have hturn : s.writeTurn false w .fetch = _ := writeTurn_fetch hrest
  rcases put_cases (s := s) w 97 rest with ⟨hnewline, -⟩ | ⟨-, hput⟩
  · rw [htty, ht] at hnewline
    exact absurd hnewline (by decide)
  · rw [hput, htty, hsingle] at hturn
    have hnext := next_goto (by rw [hs]; exact two_stack_zero) hturn
    rw [← hs, hnext, hs, hw, two_setTty_one]
    exact congrArg some two_setStack_zero

/-- As many as there is room for. -/
theorem two_letters (u : TtyStruct) (gs : List Frame) (n : ℕ) (ws : List Writing) (ht : t.termios = serial)
    (hw : w.tty = 1) (hhalf : w.half = false) (hrest : w.rest = List.replicate k 97 ++ rest)
    (hleft : k ≤ t.writeQ.left) :
    ∃ t' w', lines.Leads (fun _ _ => True) (two false 0 t u [.write w .fill] gs n ws)
      (two false 0 t' u [.write w' .fill] gs n ws) ∧ t'.termios = serial ∧
      t'.writeQ.left = t.writeQ.left - k ∧ w'.tty = 1 ∧ w'.half = false ∧ w'.rest = rest := by
  induction k generalizing t w with
  | zero => exact ⟨t, w, .refl, ht, rfl, hw, hhalf, hrest⟩
  | succ k ih =>
    have hne : t.writeQ.left ≠ 0 := by omega
    rw [List.replicate_succ, List.cons_append] at hrest
    have hfetch := two_fetch false u gs n ws hw (hrest ▸ List.cons_ne_nil _ _) hne
    have hstep := two_letter u gs n ws ht hw hrest
    have hleft' := Fifo.left_putch (c := (97 : Byte)) hne
    obtain ⟨t', w', hleads, ht', hl, hw', hhalf', hrest'⟩ :=
      ih (t := t.putWrite (some w.call) [97])
        (w := { w with rest := List.replicate k 97 ++ rest, done := w.done ++ [97], half := false })
        ht hw rfl rfl (by
          show k ≤ (t.writeQ.putch 97).left
          omega)
    refine ⟨t', w', .head ⟨_, trivial, hfetch⟩ (.head ⟨_, trivial, hstep⟩ hleads), ht', ?_, hw', hhalf',
      hrest'⟩
    rw [hl]
    show (t.writeQ.putch 97).left - k = _
    omega

/-- The queue of the line 1 gets full between the two halves, and the call lets others run. -/
theorem two_half (u : TtyStruct) (n : ℕ) (ws : List Writing) (ht : t.termios = serial) (hw : w.tty = 1)
    (hrest : w.rest = [10]) (hleft : t.writeQ.left = 1) :
    ∃ t' w', lines.Leads (fun _ _ => True) (two false 0 t u [.write w .fill] [] n ws)
      (two true 1 t' u [.write w' .resched] [] n ws) := by
  have hne : t.writeQ.left ≠ 0 := by omega
  obtain ⟨t', ht'⟩ : ∃ t' : TtyStruct, t' = t.putWrite (some w.call) [13] := ⟨_, rfl⟩
  have hfull : t'.writeQ.isFull = true := by
    rw [ht', Fifo.isFull_iff]
    show (t.writeQ.putch 13).left = 0
    rw [Fifo.left_putch hne, hleft]
  obtain ⟨w', hw', hrest', htty'⟩ : ∃ w' : Writing, w' = { w with half := true } ∧
      w'.rest = [10] ∧ w'.tty = 1 := ⟨_, rfl, hrest, hw⟩
  have h₀ := two_fetch false u [] n ws hw (hrest ▸ List.cons_ne_nil _ _) hne
  -- The carriage return.
  have h₁ : (two false 0 t u [.write w .fetch] [] n ws).next (.run false) =
      some (two true 0 t' u [.write w' .fill] [] n ws) := by
    obtain ⟨s, hs⟩ : ∃ s, s = two false 0 t u [.write w .fetch] [] n ws := ⟨_, rfl⟩
    have htty : s.tty w.tty = t := by rw [hs, hw, two_tty_one]
    have hcr : s.crFlag = false := by
      rw [hs]
      rfl
    have hturn : s.writeTurn false w .fetch = _ := writeTurn_fetch hrest
    rcases put_cases (s := s) w 10 [] with ⟨-, -, hput⟩ | ⟨hset, -⟩
    · rw [hput, htty, ← ht', ← hw'] at hturn
      have hnext := next_goto (by rw [hs]; exact two_stack_zero) hturn
      rw [← hs, hnext, hs, hw, two_setTty_one]
      exact congrArg some two_setStack_zero
    · rw [htty, ht, hcr] at hset
      cases hset (by decide)
  -- No room for the newline.
  have h₂ : (two true 0 t' u [.write w' .fill] [] n ws).next (.run false) =
      some (two true 0 t' u [.write w' .flush] [] n ws) := by
    have hturn : (two true 0 t' u [.write w' .fill] [] n ws).writeTurn false w' .fill = _ :=
      writeTurn_full (by rw [htty']; exact hfull)
    rw [next_goto two_stack_zero hturn, two_setStack_zero]
  have h₃ : (two true 0 t' u [.write w' .flush] [] n ws).next (.run false) =
      some (two true 0 t' u [.write w' .written] [] n ws) := by
    have hturn : (two true 0 t' u [.write w' .flush] [] n ws).writeTurn false w' .flush =
        (two true 0 t' u [.write w' .flush] [] n ws, .goto (.write w' .written)) := by
      unfold State.writeTurn State.output
      dsimp only
      rw [htty']
      rfl
    rw [next_goto two_stack_zero hturn, two_setStack_zero]
  have h₄ : (two true 0 t' u [.write w' .written] [] n ws).next (.run false) =
      some (two true 0 t' u [.write w' .resched] [] n ws) := by
    have hturn : (two true 0 t' u [.write w' .written] [] n ws).writeTurn false w' .written =
        (two true 0 t' u [.write w' .written] [] n ws, .goto (.write w' .resched)) := by
      unfold State.writeTurn
      dsimp only
      rw [hrest']
      rfl
    rw [next_goto two_stack_zero hturn, two_setStack_zero]
  exact ⟨t', w', .head ⟨_, trivial, h₀⟩ (.head ⟨_, trivial, h₁⟩ (.head ⟨_, trivial, h₂⟩
    (.head ⟨_, trivial, h₃⟩ (.head ⟨_, trivial, h₄⟩ (.single ⟨.schedule 1, trivial, rfl⟩)))))⟩

/-- Then a newline that process 1 writes on the line 2 is put there alone. -/
theorem two_alone (t : TtyStruct) (fs : List Frame) (ws : List Writing) (hu : u.termios = serial)
    (hputs : u.puts = []) (hleft : u.writeQ.left ≠ 0) :
    ∃ s : State, lines.Leads (fun _ _ => True) (two true 1 t u fs [] 1 ws) s ∧
      (⟨1, 2, [10], [], [10], false⟩ : Writing) ∈ s.written ∧ (s.tty 2).termios = serial ∧
      (s.tty 2).putBy 1 = [10] := by
  obtain ⟨w, hw⟩ : ∃ w : Writing, w = ⟨1, 2, [10], [10], [], false⟩ := ⟨_, rfl⟩
  obtain ⟨v, hv⟩ : ∃ v : Writing, v = ⟨1, 2, [10], [], [10], false⟩ := ⟨_, rfl⟩
  obtain ⟨u', hu'⟩ : ∃ u' : TtyStruct, u' = u.putWrite (some 1) [10] := ⟨_, rfl⟩
  have hfull : ¬ u.writeQ.isFull = true := fun h => hleft (Fifo.isFull_iff.1 h)
  have h₀ : (two true 1 t u fs [] 1 ws).next (.write 2 [10]) =
      some (two true 1 t u fs [.write w .loop] 2 ws) := by
    rw [hw]
    exact congrArg some two_setStack_one
  have h₁ : (two true 1 t u fs [.write w .loop] 2 ws).next (.run false) =
      some (two true 1 t u fs [.write w .fill] 2 ws) := by
    have hturn : (two true 1 t u fs [.write w .loop] 2 ws).writeTurn false w .loop =
        (two true 1 t u fs [.write w .loop] 2 ws, .goto (.write w .fill)) := by
      unfold State.writeTurn
      dsimp only
      rw [hw, if_neg (List.cons_ne_nil _ _), two_tty_two, if_neg hfull]
      rfl
    rw [next_goto two_stack_one hturn, two_setStack_one]
  have h₂ : (two true 1 t u fs [.write w .fill] 2 ws).next (.run false) =
      some (two true 1 t u fs [.write w .fetch] 2 ws) := by
    have hturn : (two true 1 t u fs [.write w .fill] 2 ws).writeTurn false w .fill = _ :=
      writeTurn_fill (by rw [hw]; exact List.cons_ne_nil _ _) (by rw [hw]; exact hleft)
    rw [next_goto two_stack_one hturn, two_setStack_one]
  have h₃ : (two true 1 t u fs [.write w .fetch] 2 ws).next (.run false) =
      some (two false 1 t u' fs [.write v .fill] 2 ws) := by
    obtain ⟨s, hs⟩ : ∃ s, s = two true 1 t u fs [.write w .fetch] 2 ws := ⟨_, rfl⟩
    have htty : s.tty w.tty = u := by
      rw [hs, hw]
      exact two_tty_two
    have hcr : s.crFlag = true := by
      rw [hs]
      rfl
    have hsingle : u.termios.single s.below 10 = 10 := by
      rw [hu]
      exact single_newline (by decide)
    have hrest : w.rest = [10] := by rw [hw]
    have hturn : s.writeTurn false w .fetch = _ := writeTurn_fetch hrest
    rcases put_cases (s := s) w 10 [] with ⟨-, hclear, -⟩ | ⟨-, hput⟩
    · rw [hcr] at hclear
      cases hclear
    · rw [hput, htty, hsingle] at hturn
      have hnext := next_goto (by rw [hs]; exact two_stack_one) hturn
      have hset : s.setTty w.tty (u.putWrite (some w.call) [10]) =
          two true 1 t u' fs [.write w .fetch] 2 ws := by
        rw [hs, hw, hu']
        exact two_setTty_two
      rw [← hs, hnext, hset, hv, hw]
      exact congrArg some two_setStack_one
  have h₄ : (two false 1 t u' fs [.write v .fill] 2 ws).next (.run false) =
      some (two false 1 t u' fs [.write v .flush] 2 ws) := by
    have hturn : (two false 1 t u' fs [.write v .fill] 2 ws).writeTurn false v .fill =
        (two false 1 t u' fs [.write v .fill] 2 ws, .goto (.write v .flush)) :=
      if_pos (.inl (by rw [hv]))
    rw [next_goto two_stack_one hturn, two_setStack_one]
  have h₅ : (two false 1 t u' fs [.write v .flush] 2 ws).next (.run false) =
      some (two false 1 t u' fs [.write v .written] 2 ws) := by
    have hturn : (two false 1 t u' fs [.write v .flush] 2 ws).writeTurn false v .flush =
        (two false 1 t u' fs [.write v .flush] 2 ws, .goto (.write v .written)) := by
      rw [hv]
      rfl
    rw [next_goto two_stack_one hturn, two_setStack_one]
  obtain ⟨s, hs, hmem, htty⟩ : ∃ s, (two false 1 t u' fs [.write v .written] 2 ws).next (.run false) =
      some s ∧ v ∈ s.written ∧ s.tty 2 = u' := by
    rw [hv]
    exact ⟨_, rfl, List.mem_cons_self, rfl⟩
  refine ⟨s, .head ⟨_, trivial, h₀⟩ (.head ⟨_, trivial, h₁⟩ (.head ⟨_, trivial, h₂⟩
    (.head ⟨_, trivial, h₃⟩ (.head ⟨_, trivial, h₄⟩ (.head ⟨_, trivial, h₅⟩
      (.single ⟨_, trivial, hs⟩)))))), hv ▸ hmem, ?_, ?_⟩
  · rw [htty, hu', putWrite_termios, hu]
  · rw [htty, hu', putBy_putWrite]
    unfold TtyStruct.putBy
    rw [hputs]
    rfl

end Two

/-- 1022 letters and a newline on one serial line: its queue gets full after the carriage return. The
newline of another process on the other line has none. -/
theorem newline_alone : ∃ s : State, lines.Reachable s ∧ ∃ w ∈ s.written,
    (s.tty w.tty).putBy w.call ≠ w.done.flatMap ((s.tty w.tty).termios.translate s.below) := by
  obtain ⟨t, ht⟩ : ∃ t, t = TtyStruct.ofTermios serial := ⟨_, rfl⟩
  obtain ⟨buf, hbuf⟩ : ∃ buf, buf = List.replicate 1022 (97 : Byte) ++ [10] := ⟨_, rfl⟩
  have htermios : t.termios = serial := by rw [ht]; rfl
  have hputs : t.puts = [] := by rw [ht]; rfl
  have hleft : t.writeQ.left = 1023 := by rw [ht]; rfl
  have hboot : boot = two false 0 (boot.tty 1) (boot.tty 2) [] [] 0 [] := by
    have htty : Function.update (Function.update boot.tty 2 (boot.tty 2)) 1 (boot.tty 1) = boot.tty := by
      rw [Function.update_eq_self, Function.update_eq_self]
    have hstack : Function.update (Function.update boot.stack 1 (boot.stack 1)) 0 (boot.stack 0) =
        boot.stack := by
      rw [Function.update_eq_self, Function.update_eq_self]
    show boot = { boot with
      tty := Function.update (Function.update boot.tty 2 (boot.tty 2)) 1 (boot.tty 1)
      stack := Function.update (Function.update boot.stack 1 (boot.stack 1)) 0 (boot.stack 0) }
    rw [htty, hstack]
  have h₀ : lines.Reachable (two false 0 (boot.tty 1) (boot.tty 2) [] [] 0 []) :=
    hboot ▸ .start fresh_boot
  have h₁ : lines.Reachable (two false 0 t (boot.tty 2) [] [] 0 []) := by
    refine h₀.next (e := .ioctl 1 (.setTermios serial)) ?_
    rw [ht]
    exact congrArg some two_setTty_one
  have h₂ : lines.Reachable (two false 0 t t [] [] 0 []) := by
    refine h₁.next (e := .ioctl 2 (.setTermios serial)) ?_
    rw [ht]
    exact congrArg some two_setTty_two
  have h₃ : lines.Reachable (two false 0 t t [.write ⟨0, 1, buf, buf, [], false⟩ .loop] [] 1 []) :=
    h₂.next (e := .write 1 buf) (congrArg some two_setStack_zero)
  have h₄ : lines.Reachable (two false 0 t t [.write ⟨0, 1, buf, buf, [], false⟩ .fill] [] 1 []) := by
    obtain ⟨w, hw, hrest, htty⟩ : ∃ w : Writing, w = ⟨0, 1, buf, buf, [], false⟩ ∧ w.rest ≠ [] ∧
        w.tty = 1 := by
      refine ⟨_, rfl, ?_, rfl⟩
      rw [hbuf]
      exact List.append_ne_nil_of_right_ne_nil _ (List.cons_ne_nil _ _)
    rw [← hw] at h₃ ⊢
    have hfull : ¬ t.writeQ.isFull = true := by
      rw [Fifo.isFull_iff, hleft]
      decide
    have hturn : (two false 0 t t [.write w .loop] [] 1 []).writeTurn false w .loop =
        (two false 0 t t [.write w .loop] [] 1 [], .goto (.write w .fill)) := by
      unfold State.writeTurn
      dsimp only
      rw [if_neg hrest, htty, two_tty_one, if_neg hfull]
      rfl
    refine h₃.next (e := .run false) ?_
    show _ = some _
    rw [next_goto two_stack_zero hturn, two_setStack_zero]
  obtain ⟨t', w', hleads, ht', hl, hw', -, hrest'⟩ := two_letters t [] 1 []
    (w := ⟨0, 1, buf, buf, [], false⟩) (k := 1022) htermios rfl rfl hbuf (by rw [hleft]; decide)
  obtain ⟨t₂, w₂, hleads₂⟩ := two_half t 1 [] ht' hw' hrest' (by rw [hl, hleft])
  obtain ⟨s, hleads₃, hmem, hs, hput⟩ :=
    two_alone t₂ [.write w₂ .resched] [] htermios hputs (by rw [hleft]; decide)
  refine ⟨s, ((h₄.leads hleads).leads hleads₂).leads hleads₃, _, hmem, ?_⟩
  show (s.tty 2).putBy 1 ≠ [10].flatMap ((s.tty 2).termios.translate s.below)
  rw [hput, hs, List.flatMap_singleton, translate_newline (by decide)]
  decide

end Linux011.Tty
