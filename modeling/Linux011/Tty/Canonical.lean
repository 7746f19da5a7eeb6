import Linux011.Tty.Cooked
import Mathlib.Data.List.DropRight

/-!
# Terminals: lines

`data` counts the characters on `secondary` that end a line. A character is counted before it is put
there. `tty_read` looks at `data` before it takes the first character, and not again.

1. `TtyStruct.finished`, the number of lines. `Frame.ending`: a frame has a character that was counted.
2. `Tallied`, the invariant. `lines_counted`.
3. `TtyStruct.lastLine`: the line that has not ended. What a step does to it, `next_lastLine`.
4. `canonical_kept`: `tty_read` returns characters of lines that have ended, and leaves the last line.
-/

namespace Linux011.Tty

/-- The characters on `secondary` that end a line. -/
def TtyStruct.finished (t : TtyStruct) : ℕ := t.secondary.contents.countP t.termios.ends

/-- A character that ends a line is counted, and not yet on `secondary`. -/
def CookPc.ending (u : Termios) : CookPc → ℕ
  | .store c => if u.ends c then 1 else 0
  | _ => 0

def Frame.ending (u : Termios) (i : Nr) : Frame → ℕ
  | .cook j pc => if j = i then pc.ending u else 0
  | _ => 0

/-- As many of the characters on `secondary` end a line after an `ioctl` as before. -/
def State.SameEnds (s : State) : Event → Prop
  | .ioctl i c => ((s.tty i).ioctl c).finished = (s.tty i).finished
  | _ => True

/-- The lines of the tty `i` are counted. -/
def Tallied (i : Nr) (s : State) : Prop :=
  (s.tty i).data = BitVec.ofNat 32 ((s.tty i).finished +
    Outcome.total (Frame.ending (s.tty i).termios i) (s.stack s.cur))

section Lines

variable {s s' : State} {f : Frame} {fs fs' : List Frame} {i j : Nr} {pc : CookPc} {signal : Bool}
  {e : Event} {nr a : ℕ} {t : TtyStruct} {u : Termios} {r : Reading}

theorem ofHand_ending : Frame.OfHand (Frame.ending u i) := by
  refine ⟨fun j => ?_, fun _ => rfl, fun f hf => ?_⟩
  · show (if j = i then 0 else 0) = 0
    split_ifs <;> rfl
  · cases f with
    | read | write => rfl
    | cook | conWrite => cases hf

theorem ending_self : Frame.ending u i (.cook i pc) = pc.ending u := if_pos rfl

theorem ending_of_ne (h : i ≠ j) : Frame.ending u j (.cook i pc) = 0 := if_neg h

/-- A counted character is counted among those in hand. -/
theorem ending_le_storing : Frame.ending u i f ≤ Frame.storing i f := by
  cases f with
  | cook j pc =>
    cases pc with
    | store c =>
      show (if j = i then if u.ends c then 1 else 0 else 0) ≤ if j = i then 1 else 0
      split_ifs <;> decide
    | loop | kill | killed | erased =>
      show (if j = i then 0 else 0) ≤ 0
      split_ifs <;> exact le_rfl
  | conWrite nr => exact le_rfl
  | read r pc => exact le_rfl
  | write w pc => exact le_rfl

theorem total_ending_le : Outcome.total (Frame.ending u i) fs ≤ Outcome.total (Frame.storing i) fs := by
  induction fs with
  | nil => exact le_rfl
  | cons f fs ih =>
    rw [Outcome.total_cons, Outcome.total_cons]
    exact Nat.add_le_add ending_le_storing ih

/-- A turn of `copy_to_cooked`, under which `a` of the characters that other calls have were counted. -/
theorem CookStep.tallied {next : Option CookPc} {d : BitVec 32} {q : Queue}
    (h : CookStep t pc next d q) (hdata : t.data = BitVec.ofNat 32 (t.finished + (pc.ending t.termios + a)))
    (herase : pc = .killed ∨ pc = .erased → ∃ n, t.Erasable (n + 1))
    (hstore : ∀ c, pc = .store c → t.secondary.left ≠ 0) :
    d = BitVec.ofNat 32 (q.contents.countP t.termios.ends +
      ((next.elim 0 fun pc' => pc'.ending t.termios) + a)) := by
  cases h with
  | done | skip | kills | erases | lineEnd | kill => exact hdata
  | stores c d htakes hd =>
    rw [hd]
    show _ = BitVec.ofNat 32 (t.finished + ((if t.termios.ends c then 1 else 0) + a))
    split_ifs
    · have hsucc : t.finished + (1 + a) = t.finished + (0 + a) + 1 := by omega
      rw [hsucc, BitVec.ofNat_add, hdata]
      rfl
    · exact hdata
  | killed =>
    obtain ⟨n, herasable⟩ := herase (.inl rfl)
    have hcontents := Fifo.contents_unput herasable.chars_ne_zero
    rw [hdata]
    unfold TtyStruct.finished
    rw [hcontents, List.countP_append, List.countP_singleton, herasable.last]
    rfl
  | erased =>
    obtain ⟨n, herasable⟩ := herase (.inr rfl)
    have hcontents := Fifo.contents_unput herasable.chars_ne_zero
    rw [hdata]
    unfold TtyStruct.finished
    rw [hcontents, List.countP_append, List.countP_singleton, herasable.last]
    rfl
  | stored c =>
    rw [Fifo.contents_putch (hstore c rfl), List.countP_append, List.countP_singleton, hdata]
    show BitVec.ofNat 32 (t.finished + ((if t.termios.ends c then 1 else 0) + a)) =
      BitVec.ofNat 32 (t.finished + (if t.termios.ends c then 1 else 0) + (0 + a))
    rw [Nat.zero_add, Nat.add_assoc]

theorem taken_finished (h : t.secondary.chars ≠ 0) :
    t.finished = t.taken.finished + if t.termios.ends t.secondary.first then 1 else 0 := by
  unfold TtyStruct.finished
  rw [Fifo.contents_getch h, List.countP_cons]
  rfl

/-- A line that is taken is not counted any more. -/
theorem taken_tallied (h : t.secondary.chars ≠ 0) (hdata : t.data = BitVec.ofNat 32 t.finished) :
    t.taken.data = BitVec.ofNat 32 t.taken.finished := by
  rw [taken_finished h] at hdata
  show (if t.termios.ends t.secondary.first then t.data - 1 else t.data) = _
  rw [hdata]
  split_ifs
  · rw [BitVec.ofNat_add]
    exact BitVec.add_sub_cancel _ _
  · rfl

theorem Tallied.cook (h : Handled s) (ht : Tallied j s) (hs : s.stack s.cur = .cook i pc :: fs) :
    ((s.cookStep i pc).1.tty j).data = BitVec.ofNat 32 (((s.cookStep i pc).1.tty j).finished +
      (s.after (Frame.ending (s.tty j).termios j) (.cook i pc) +
        Outcome.total (Frame.ending (s.tty j).termios j) fs)) := by
  have hroom := h.room i
  have herasable := h.erasable i
  unfold Tallied at ht
  rw [hs, Outcome.total_cons] at hroom herasable ht
  rw [cookStep_fst]
  by_cases hj : j = i
  · subst hj
    rw [ending_self] at ht
    have hstep : CookStep (s.tty j) pc (cookTurn s.below (s.tty j) pc).next _ _ := cookTurn_step
    have hstep := hstep.tallied ht (fun hpc => ?_) fun c hpc => ?_
    · have hafter : s.after (Frame.ending (s.tty j).termios j) (.cook j pc) =
          (cookTurn s.below (s.tty j) pc).next.elim 0 fun pc' => pc'.ending (s.tty j).termios := by
        show ((cookTurn s.below (s.tty j) pc).next.elim 0 fun pc' => Frame.ending _ j (.cook j pc')) = _
        cases (cookTurn s.below (s.tty j) pc).next with
        | none => rfl
        | some pc' => exact ending_self
      rw [hafter, setTty_self, putWrite_data, hstep]
      unfold TtyStruct.finished
      rw [putWrite_secondary, putWrite_termios, cookTurn_turned.termios]
    · rcases hpc with rfl | rfl
      · rw [erasing_killed, Nat.add_comm] at herasable
        exact ⟨_, herasable⟩
      · rw [erasing_erased, Nat.add_comm] at herasable
        exact ⟨_, herasable⟩
    · subst hpc
      rw [storing_store] at hroom
      omega
  · have hafter : s.after (Frame.ending (s.tty j).termios j) (.cook i pc) = 0 := by
      show ((cookTurn s.below (s.tty i) pc).next.elim 0 fun pc' => Frame.ending _ j (.cook i pc')) = 0
      cases (cookTurn s.below (s.tty i) pc).next with
      | none => rfl
      | some pc' => exact ending_of_ne (Ne.symm hj)
    rw [ending_of_ne (Ne.symm hj)] at ht
    rw [hafter, setTty_of_ne hj]
    exact ht

theorem Tallied.turn (h : Handled s) (ht : Tallied j s) (hs : s.stack s.cur = f :: fs) :
    ((s.turn signal f).1.tty j).data = BitVec.ofNat 32 (((s.turn signal f).1.tty j).finished +
      (s.after (Frame.ending (s.tty j).termios j) f +
        Outcome.total (Frame.ending (s.tty j).termios j) fs)) := by
  have hnested : Outcome.Nested Above (f :: fs) := hs ▸ h.ordered.nested s.cur
  cases f with
  | cook i pc => exact ht.cook h hs
  | conWrite nr =>
    obtain ⟨hq, htermios, hdata⟩ := conTurn_tty (s := s) nr j
    unfold Tallied at ht
    rw [hs, Outcome.total_cons] at ht
    show ((s.conTurn nr).1.tty j).data = BitVec.ofNat 32 (((s.conTurn nr).1.tty j).finished + (0 + _))
    unfold TtyStruct.finished
    rw [hq, htermios, hdata]
    exact ht
  | read r pc =>
    obtain rfl := nil_of_isCall hnested rfl
    unfold Tallied at ht
    rw [hs, Outcome.total_cons] at ht
    show ((s.readTurn signal r pc).1.tty j).data =
      BitVec.ofNat 32 ((s.readTurn signal r pc).1.tty j).finished
    have ht : (s.tty j).data = BitVec.ofNat 32 (s.tty j).finished := ht
    rcases readTurn_cases (s := s) (r := r) signal pc with (heq | ⟨pc', heq⟩) | ⟨heq, hne, -⟩
    · rw [heq]
      exact ht
    · rw [heq]
      exact ht
    · rw [heq, take_tty]
      by_cases hj : j = r.tty
      · subst hj
        rw [setTty_self]
        refine taken_tallied (fun hzero => ?_) ht
        rw [Fifo.isEmpty_iff.2 hzero] at hne
        cases hne
      · rw [setTty_of_ne hj]
        exact ht
  | write w pc =>
    obtain rfl := nil_of_isCall hnested rfl
    obtain ⟨hq, htermios, hdata⟩ := writeTurn_tty (s := s) signal w pc j
    unfold Tallied at ht
    rw [hs, Outcome.total_cons] at ht
    show ((s.writeTurn signal w pc).1.tty j).data =
      BitVec.ofNat 32 (((s.writeTurn signal w pc).1.tty j).finished + (0 + _))
    unfold TtyStruct.finished
    rw [hq, htermios, hdata]
    exact ht

theorem Tallied.next (h : Handled s) (ht : Tallied j s) (hends : s.SameEnds e)
    (hs : s.next e = some s') : Tallied j s' := by
  by_cases he : ∃ signal, e = .run signal
  · obtain ⟨signal, rfl⟩ := he
    obtain ⟨f, fs, hstack⟩ := stack_of_run hs
    obtain ⟨fs', hfs, rfl⟩ := run_eq_some hstack hs
    have htermios := turn_termios (s := s) (f := f) signal j
    unfold Tallied
    rw [setStack_cur, setStack_tty, htermios, ofHand_ending.resume hfs]
    exact ht.turn h hstack
  · have ha := next_aside h.ordered hs fun signal heq => he ⟨signal, heq⟩
    unfold Tallied at ht ⊢
    rw [ha.data, ht, ha.total _ ofHand_ending]
    rcases ha.termios with htermios | ⟨i, c, rfl, hempty, rfl⟩
    · unfold TtyStruct.finished
      rw [ha.secondary, htermios]
    · have hfinished : ((s.setTty i ((s.tty i).ioctl c)).tty j).finished = (s.tty j).finished :=
        setTty_congr TtyStruct.finished hends j
      rw [hfinished, hempty]
      rfl

theorem State.Fresh.tallied (h : s.Fresh) : Tallied j s := by
  obtain ⟨buf, hbuf⟩ := h.secondary j
  unfold Tallied TtyStruct.finished
  rw [h.data, hbuf, Fifo.contents_empty, h.stack]
  rfl

end Lines

/-- Calls of `copy_to_cooked` are not in each other's way, and an `ioctl` changes no ends of lines that
are on `secondary`. -/
def State.Counts (s : State) (e : Event) : Prop := s.Unshared e ∧ s.SameEnds e

theorem counts_invariant {s : State} (h : lines.ReachableWhen State.Counts s) :
    Handled s ∧ ∀ i, Tallied i s := by
  refine h.invariant (I := fun s => Handled s ∧ ∀ i, Tallied i s)
    (fun s (hs : s.Fresh) => ⟨hs.handled, fun i => hs.tallied⟩) fun s e s' hI hok hs => ?_
  exact ⟨hI.1.next hok.1 hs, fun i => (hI.2 i).next hI.1 hok.2 hs⟩

instance (s : State) : ∀ e, Decidable (s.SameEnds e)
  | .ioctl i c => inferInstanceAs (Decidable (((s.tty i).ioctl c).finished = (s.tty i).finished))
  | .schedule _ | .read .. | .write .. | .receive .. | .transmit _ | .exit | .run _ => .isTrue trivial

instance (s : State) (e : Event) : Decidable (s.Counts e) :=
  inferInstanceAs (Decidable (s.Unshared e ∧ s.SameEnds e))

/-- The settings of the console with `x` for the end of file. -/
def endsAtX : Termios := { (ttyTable 0).termios with cCc := Function.update initCCc veof 120 }

/-- The tty `i` has `ICANON` set, and more than 20 free places on `secondary`. -/
def Canonical (i : Nr) (s : State) : Prop :=
  (s.tty i).termios.l icanon = true ∧ 20 < (s.tty i).secondary.left

/-- If the innermost frame is at the end of a turn of the inner loop of `tty_read`, and will take another
character of the tty `i`, which is `t`, a line is counted. -/
def TopInner (t : TtyStruct) (i : Nr) : List Frame → Prop
  | .read r .inner :: _ => r.tty = i → 0 < r.nr → t.secondary.isEmpty = false → t.data ≠ 0
  | _ => True

/-- The inner loop of `tty_read` goes on only where a line is counted. -/
def State.Waits (i : Nr) (s : State) : Event → Prop
  | .run _ => TopInner (s.tty i) i (s.stack s.cur)
  | _ => True

/-- The characters on `secondary` after the last one that ends a line. -/
def TtyStruct.lastLine (t : TtyStruct) : List Byte :=
  t.secondary.contents.rtakeWhile fun c => !t.termios.ends c

/-- The last line after a turn of `copy_to_cooked`. -/
def CookPc.edit (t : TtyStruct) : CookPc → List Byte
  | .killed | .erased => t.lastLine.dropLast
  | .store c => if t.termios.ends c then [] else t.lastLine ++ [c]
  | .loop | .kill => t.lastLine

/-- The last line of the tty `i`, which is `t`, after a turn of the innermost frame. -/
def editTop (t : TtyStruct) (i : Nr) : List Frame → List Byte
  | .cook j pc :: _ => if j = i then pc.edit t else t.lastLine
  | _ => t.lastLine

/-- The last line after a step: only `copy_to_cooked` changes it. -/
def State.lineAfter (s : State) (i : Nr) : Event → List Byte
  | .run _ => editTop (s.tty i) i (s.stack s.cur)
  | _ => (s.tty i).lastLine

/-- The characters that were taken. -/
def Reading.heads (r : Reading) : List Byte := r.taken.filterMap fun x => x.2.head?

/-- Whenever a character was taken, a character that ends a line was on `secondary`. -/
def Reading.Ended (r : Reading) : Prop := ∀ x ∈ r.taken, x.2.any x.1.ends = true

/-- What is in the buffer was taken from lines that had ended. -/
structure Reading.Finished (r : Reading) : Prop where
  bytes : r.bytes <+: r.heads
  ended : r.Ended

/-- A `tty_read` that is under way on the tty `i` has taken what is in its buffer, from lines that had
ended. -/
def Frame.Reads (i : Nr) : Frame → Prop
  | .read r _ => r.tty = i → r.bytes = r.heads ∧ r.Ended
  | _ => True

section LastLine

variable {s s' : State} {f : Frame} {fs fs' : List Frame} {i j : Nr} {signal : Bool} {e : Event}
  {t t' : TtyStruct}

/-- The first of some elements counts for the end of them only if the others satisfy `p`, too. -/
theorem rtakeWhile_cons {α : Type} {p : α → Bool} {x : α} {l : List α} (h : ∃ y ∈ x :: l, ¬ p y = true) :
    (x :: l).rtakeWhile p = l.rtakeWhile p := by
  induction l using List.reverseRecOn with
  | nil =>
    obtain ⟨y, hy, hpy⟩ := h
    rw [List.mem_singleton.1 hy] at hpy
    exact List.rtakeWhile_concat_neg p [] x hpy
  | append_singleton l z ih =>
    rw [← List.cons_append]
    by_cases hz : p z = true
    · obtain ⟨y, hy, hpy⟩ := h
      rw [← List.cons_append, List.mem_append] at hy
      rw [List.rtakeWhile_concat_pos p _ z hz, List.rtakeWhile_concat_pos p _ z hz]
      rcases hy with hy | hy
      · rw [ih ⟨y, hy, hpy⟩]
      · rw [List.mem_singleton.1 hy] at hpy
        exact absurd hz hpy
    · rw [List.rtakeWhile_concat_neg p _ z hz, List.rtakeWhile_concat_neg p _ z hz]

theorem lastLine_congr (hq : t'.secondary = t.secondary) (ht : t'.termios = t.termios) :
    t'.lastLine = t.lastLine := by
  unfold TtyStruct.lastLine
  rw [hq, ht]

/-- Erase and kill reach the last line, from its end. -/
theorem unfinished_lastLine : t.unfinished = t.lastLine.getLast? := by
  unfold TtyStruct.unfinished TtyStruct.lastLine
  by_cases hzero : t.secondary.chars = 0
  · rw [Fifo.isEmpty_iff.2 hzero, Fifo.contents_eq_nil.2 hzero]
    rfl
  · have hempty : t.secondary.isEmpty = false := Bool.eq_false_iff.2 fun h => hzero (Fifo.isEmpty_iff.1 h)
    rw [hempty, Bool.false_or, Fifo.contents_unput hzero, List.rtakeWhile_concat]
    by_cases hends : t.termios.ends t.secondary.last = true
    · rw [if_pos hends, hends]
      rfl
    · rw [if_neg hends, if_pos (by rw [Bool.eq_false_iff.2 hends]; rfl), List.getLast?_append]
      rfl

/-- Where a line has ended, what is taken is not of the last one. -/
theorem taken_lastLine (h : t.secondary.contents.any t.termios.ends = true) :
    t.taken.lastLine = t.lastLine := by
  obtain ⟨c, hc, hends⟩ := List.any_eq_true.1 h
  have hchars : t.secondary.chars ≠ 0 := fun hzero => by
    rw [Fifo.contents_eq_nil.2 hzero] at hc
    cases hc
  have hcontents := Fifo.contents_getch hchars
  unfold TtyStruct.lastLine
  rw [hcontents, rtakeWhile_cons ⟨c, hcontents ▸ hc, by rw [hends]; nofun⟩]
  rfl

theorem CookStep.lastLine {pc : CookPc} {next : Option CookPc} {d : BitVec 32} {q : Queue}
    (h : CookStep t pc next d q) (herase : pc = .killed ∨ pc = .erased → ∃ n, t.Erasable (n + 1))
    (hstore : ∀ c, pc = .store c → t.secondary.left ≠ 0) :
    (q.contents.rtakeWhile fun c => !t.termios.ends c) = pc.edit t := by
  have hunput : (∃ n, t.Erasable (n + 1)) →
      (t.secondary.unput.contents.rtakeWhile fun c => !t.termios.ends c) = t.lastLine.dropLast := by
    rintro ⟨n, herasable⟩
    have hlast : (!t.termios.ends t.secondary.last) = true := by
      rw [herasable.last]
      rfl
    unfold TtyStruct.lastLine
    rw [Fifo.contents_unput herasable.chars_ne_zero,
      List.rtakeWhile_concat_pos (fun c => !t.termios.ends c) _ _ hlast, List.dropLast_concat]
  cases h with
  | done | skip | kills | erases | stores | lineEnd | kill => rfl
  | killed => exact hunput (herase (.inl rfl))
  | erased => exact hunput (herase (.inr rfl))
  | stored c =>
    rw [Fifo.contents_putch (hstore c rfl), List.rtakeWhile_concat]
    show _ = if t.termios.ends c then [] else t.lastLine ++ [c]
    cases t.termios.ends c <;> rfl

theorem cook_lastLine {pc : CookPc} (h : Handled s) (hs : s.stack s.cur = .cook j pc :: fs) :
    ((s.cookStep j pc).1.tty i).lastLine = editTop (s.tty i) i (.cook j pc :: fs) := by
  have hroom := h.room j
  have herasable := h.erasable j
  rw [hs, Outcome.total_cons] at hroom herasable
  show _ = if j = i then pc.edit (s.tty i) else (s.tty i).lastLine
  rw [cookStep_fst]
  split_ifs with hj
  · subst hj
    have hstep : CookStep (s.tty j) pc (cookTurn s.below (s.tty j) pc).next _ _ := cookTurn_step
    rw [setTty_self, ← hstep.lastLine (fun hpc => ?_) fun c hpc => ?_]
    · unfold TtyStruct.lastLine
      rw [putWrite_secondary, putWrite_termios, cookTurn_turned.termios]
    · rcases hpc with rfl | rfl
      · rw [erasing_killed, Nat.add_comm] at herasable
        exact ⟨_, herasable⟩
      · rw [erasing_erased, Nat.add_comm] at herasable
        exact ⟨_, herasable⟩
    · subst hpc
      rw [storing_store] at hroom
      omega
  · rw [setTty_of_ne (Ne.symm hj)]

end LastLine

section Ended

variable {s s' : State} {f : Frame} {fs fs' : List Frame} {i : Nr} {pc : ReadPc} {signal : Bool}
  {e : Event} {r : Reading} {t : TtyStruct}

/-- If lines are counted, and one is, a character ends it. -/
theorem any_ends (hdata : t.data = BitVec.ofNat 32 t.finished) (hne : t.data ≠ 0) :
    t.secondary.contents.any t.termios.ends = true := by
  have hpos : 0 < t.finished := by
    refine Nat.pos_of_ne_zero fun hzero => hne ?_
    rw [hdata, hzero]
    rfl
  obtain ⟨c, hc, hends⟩ := List.countP_pos_iff.1 hpos
  exact List.any_eq_true.2 ⟨c, hc, hends⟩

/-- A read takes characters only where a line has ended. -/
theorem take_any (hcanonical : Canonical r.tty s) (ht : Tallied r.tty s) (hs : s.stack s.cur = [.read r pc])
    (hwaits : s.Waits r.tty (.run signal)) (hne : (s.tty r.tty).secondary.isEmpty = false)
    (hpc : pc = .loop ∧ ¬ ((s.tty r.tty).termios.l icanon = true ∧ (s.tty r.tty).data = 0 ∧
      20 < (s.tty r.tty).secondary.left) ∨ pc = .inner ∧ 0 < r.nr) :
    (s.tty r.tty).secondary.contents.any (s.tty r.tty).termios.ends = true := by
  unfold Tallied at ht
  rw [hs, Outcome.total_cons] at ht
  refine any_ends ht ?_
  rcases hpc with ⟨-, hloop⟩ | ⟨rfl, hnr⟩
  · exact fun hzero => hloop ⟨hcanonical.1, hzero, hcanonical.2⟩
  · have hwaits : TopInner (s.tty r.tty) r.tty (s.stack s.cur) := hwaits
    rw [hs] at hwaits
    exact hwaits rfl hnr hne

theorem heads_take (h : t.secondary.isEmpty = false) :
    (r.take t).heads = r.heads ++ [t.secondary.first] := by
  have hchars : t.secondary.chars ≠ 0 := fun hzero => by
    rw [Fifo.isEmpty_iff.2 hzero] at h
    cases h
  show (r.taken ++ [(t.termios, t.secondary.contents)]).filterMap _ = _
  rw [List.filterMap_append, Fifo.contents_getch hchars]
  rfl

theorem ended_take (h : r.Ended) (hany : t.secondary.contents.any t.termios.ends = true) :
    (r.take t).Ended := by
  intro x hx
  rcases List.mem_append.1 hx with hx | hx
  · exact h x hx
  · rw [List.mem_singleton.1 hx]
    exact hany

/-- What a read that has its turn makes of its buffer, and what it returns. -/
theorem readTurn_reads (hcanonical : Canonical i s) (ht : Tallied i s) (hs : s.stack s.cur = [.read r pc])
    (hwaits : s.Waits i (.run signal)) (h : Frame.Reads i (.read r pc))
    (hret : ∀ v ∈ s.returned, v.tty = i → v.Finished) :
    (s.readTurn signal r pc).2.All (Frame.Reads i) ∧
      (∀ v ∈ (s.readTurn signal r pc).1.returned, v.tty = i → v.Finished) ∧
      ((s.readTurn signal r pc).1.tty i).lastLine = (s.tty i).lastLine := by
  have hend : ∀ {t : State} {v : Reading}, t.returned = s.returned → (v.tty = i → v.Finished) →
      ∀ v' ∈ (t.endRead v).1.returned, v'.tty = i → v'.Finished := by
    intro t v ht hv v' hv'
    rcases List.mem_cons.1 hv' with rfl | hv'
    · exact hv
    · exact hret v' (ht ▸ hv')
  rcases readTurn_cases (s := s) (r := r) signal pc with (heq | ⟨pc', heq⟩) | ⟨heq, hne, hpc⟩
  · rw [heq]
    exact ⟨trivial, hend rfl fun hr => ⟨(h hr).1 ▸ List.prefix_rfl, (h hr).2⟩, rfl⟩
  · rw [heq]
    exact ⟨h, hret, rfl⟩
  · have hany : r.tty = i →
        (s.tty r.tty).secondary.contents.any (s.tty r.tty).termios.ends = true := by
      rintro rfl
      exact take_any hcanonical ht hs hwaits hne hpc
    have hline : ((s.take r).1.tty i).lastLine = (s.tty i).lastLine := by
      rw [take_tty]
      by_cases hi : r.tty = i
      · subst hi
        rw [setTty_self, taken_lastLine (hany rfl)]
      · rw [setTty_of_ne (Ne.symm hi)]
    rw [heq]
    refine ⟨?_, ?_, hline⟩
    · rcases take_cases (s := s) (r := r) with ⟨htake, -⟩ | htake
      · rw [htake]
        exact trivial
      · rw [htake]
        intro hr
        refine ⟨?_, ended_take (h hr).2 (hany hr)⟩
        show _ = (r.take (s.tty r.tty)).heads
        rw [heads_take hne, ← (h hr).1]
    · rcases take_cases (s := s) (r := r) with ⟨htake, -⟩ | htake
      · rw [htake]
        refine hend rfl fun hr => ⟨?_, ended_take (h hr).2 (hany hr)⟩
        rw [heads_take hne, ← (h hr).1]
        exact List.prefix_append _ _
      · rw [htake]
        exact hret

/-- No other turn makes a frame of a read, or returns one. -/
theorem turn_returned (signal : Bool) (i : Nr) (f : Frame) (hf : ∀ r pc, f ≠ .read r pc) :
    (s.turn signal f).2.All (Frame.Reads i) ∧ (s.turn signal f).1.returned = s.returned := by
  cases f with
  | cook j pc =>
    refine ⟨(turn_calls rfl).mono fun g hg => ?_, ?_⟩
    · cases g with
      | read | write => cases hg
      | cook | conWrite => trivial
    · show (s.cookStep j pc).1.returned = s.returned
      rw [cookStep_fst]
      rfl
  | conWrite nr =>
    refine ⟨(turn_calls rfl).mono fun g hg => ?_, ?_⟩
    · cases g with
      | read | write => cases hg
      | cook | conWrite => trivial
    · cases nr <;> rfl
  | read r pc => exact absurd rfl (hf r pc)
  | write w pc =>
    show (s.writeTurn signal w pc).2.All _ ∧ (s.writeTurn signal w pc).1.returned = s.returned
    rcases writeTurn_cases (s := s) (w := w) signal pc with
      ⟨pc', -, heq⟩ | ⟨heq, -⟩ | ⟨-, -, -, heq⟩ | ⟨c, rest, -, -, heq⟩ | ⟨-, heq⟩
    · rw [heq]
      exact ⟨trivial, rfl⟩
    · rw [heq]
      exact ⟨trivial, rfl⟩
    · rw [heq]
      exact ⟨trivial, rfl⟩
    · rw [heq]
      obtain ⟨w', -, hw'⟩ := put_snd (s := s) (w := w) (c := c) rest
      refine ⟨hw' ▸ trivial, ?_⟩
      unfold State.put
      dsimp only
      split_ifs <;> rfl
    · rw [heq]
      refine ⟨?_, rfl⟩
      show (s.output w.tty _).All _
      unfold State.output
      split_ifs
      · exact ⟨trivial, trivial⟩
      · exact trivial

end Ended

/-- A run with `ICANON` in which the lines are counted, and the inner loop of `tty_read` waits. -/
def State.ReadsLines (i : Nr) (s : State) (e : Event) : Prop :=
  s.Counts e ∧ Canonical i s ∧ s.Waits i e

/-- The reads of the tty `i`, under way and returned, have what they have from lines that had ended. -/
structure LinesRead (i : Nr) (s : State) : Prop where
  handled : Handled s
  tallied : ∀ j, Tallied j s
  frames : ∀ p, ∀ f ∈ s.stack p, f.Reads i
  returned : ∀ r ∈ s.returned, r.tty = i → r.Finished

section Ended

variable {s s' : State} {f : Frame} {fs fs' : List Frame} {i : Nr} {signal : Bool} {e : Event}

/-- What a turn does to the reads, and to the last line. -/
theorem LinesRead.turn (h : LinesRead i s) (hok : s.ReadsLines i (.run signal))
    (hs : s.stack s.cur = f :: fs) :
    (s.turn signal f).2.All (Frame.Reads i) ∧
      (∀ r ∈ (s.turn signal f).1.returned, r.tty = i → r.Finished) ∧
      ((s.turn signal f).1.tty i).lastLine = editTop (s.tty i) i (f :: fs) := by
  have hnested : Outcome.Nested Above (f :: fs) := hs ▸ h.handled.ordered.nested s.cur
  cases f with
  | cook j pc =>
    obtain ⟨hall, hreturned⟩ := turn_returned (s := s) signal i (.cook j pc) nofun
    exact ⟨hall, hreturned ▸ h.returned, cook_lastLine h.handled hs⟩
  | conWrite nr =>
    obtain ⟨hall, hreturned⟩ := turn_returned (s := s) signal i (.conWrite nr) nofun
    obtain ⟨hq, ht, -⟩ := conTurn_tty (s := s) nr i
    exact ⟨hall, hreturned ▸ h.returned, lastLine_congr hq ht⟩
  | read r pc =>
    obtain rfl := nil_of_isCall hnested rfl
    refine readTurn_reads hok.2.1 (h.tallied i) hs hok.2.2 (h.frames s.cur _ ?_) h.returned
    rw [hs]
    exact List.mem_cons_self
  | write w pc =>
    obtain ⟨hall, hreturned⟩ := turn_returned (s := s) signal i (.write w pc) nofun
    obtain ⟨hq, ht, -⟩ := writeTurn_tty (s := s) signal w pc i
    exact ⟨hall, hreturned ▸ h.returned, lastLine_congr hq ht⟩

theorem LinesRead.next (h : LinesRead i s) (hok : s.ReadsLines i e) (hs : s.next e = some s') :
    LinesRead i s' := by
  refine ⟨h.handled.next hok.1.1 hs, fun j => (h.tallied j).next h.handled hok.1.2 hs,
    next_frames hs (fun p f hf => h.frames p f (mem_of_kept hf)) ?_, ?_⟩
  · cases e with
    | read j nr => exact fun _ => ⟨rfl, nofun⟩
    | run signal => exact fun f fs hstack => (h.turn hok hstack).1
    | schedule | write | receive | ioctl | transmit | exit => trivial
  · cases next_changes hs with
    | run signal hstack hfs => exact (h.turn hok hstack).2.1
    | schedule | read | write | receive | ioctl | transmit | exit => exact h.returned

/-- What a step does to the last line; an `ioctl` may say what ends a line. -/
theorem LinesRead.next_lastLine (h : LinesRead i s) (hok : s.ReadsLines i e) (hs : s.next e = some s')
    (ht : (s'.tty i).termios = (s.tty i).termios) : (s'.tty i).lastLine = s.lineAfter i e := by
  by_cases he : ∃ signal, e = .run signal
  · obtain ⟨signal, rfl⟩ := he
    obtain ⟨f, fs, hstack⟩ := stack_of_run hs
    obtain ⟨fs', hfs, rfl⟩ := run_eq_some hstack hs
    show _ = editTop (s.tty i) i (s.stack s.cur)
    rw [hstack]
    exact (h.turn hok hstack).2.2
  · have ha := next_aside h.handled.ordered hs fun signal heq => he ⟨signal, heq⟩
    have hsame : s.lineAfter i e = (s.tty i).lastLine := by
      cases e with
      | run signal => exact absurd ⟨signal, rfl⟩ he
      | schedule | read | write | receive | ioctl | transmit | exit => rfl
    rw [hsame]
    exact lastLine_congr (ha.secondary i) ht

theorem State.Fresh.linesRead (h : s.Fresh) : LinesRead i s := by
  refine ⟨h.handled, fun j => h.tallied, fun p f hf => ?_, fun r hr => ?_⟩
  · rw [h.stack] at hf
    cases hf
  · rw [h.returned] at hr
    cases hr

end Ended

theorem linesRead_invariant {s : State} {i : Nr} (h : lines.ReachableWhen (State.ReadsLines i) s) :
    LinesRead i s :=
  h.invariant (I := LinesRead i) (fun _ hs => State.Fresh.linesRead hs)
    fun _ _ _ hI hok hs => hI.next hok hs

/-- Every `tty_read` that has returned has returned characters of lines that had ended when it took them.
The line that has not ended stays as it is, but for what `copy_to_cooked` stores and takes back, and it
is from its end that erase and kill take. -/
theorem canonical_kept {s : State} {i : Nr} (h : lines.ReachableWhen (State.ReadsLines i) s) :
    (∀ r ∈ s.returned, r.tty = i → r.Finished) ∧
    (∀ e s', s.ReadsLines i e → s.next e = some s' → (s'.tty i).termios = (s.tty i).termios →
      (s'.tty i).lastLine = s.lineAfter i e) ∧
    (s.tty i).unfinished = (s.tty i).lastLine.getLast? :=
  ⟨(linesRead_invariant h).returned,
    fun _ _ hok hs ht => (linesRead_invariant h).next_lastLine hok hs ht, unfinished_lastLine⟩
instance (s : State) (i : Nr) : Decidable (Canonical i s) :=
  inferInstanceAs (Decidable (_ ∧ _))

instance (t : TtyStruct) (i : Nr) : ∀ fs, Decidable (TopInner t i fs)
  | .read r .inner :: _ => inferInstanceAs (Decidable (r.tty = i → 0 < r.nr → _ → _))
  | [] | .cook .. :: _ | .conWrite _ :: _ | .write .. :: _ | .read _ .loop :: _ | .read _ .sleep :: _
  | .read _ .asleep :: _ => .isTrue trivial

instance (s : State) (i : Nr) : ∀ e, Decidable (s.Waits i e)
  | .run _ => inferInstanceAs (Decidable (TopInner (s.tty i) i (s.stack s.cur)))
  | .schedule _ | .read .. | .write .. | .ioctl .. | .receive .. | .transmit _ | .exit => .isTrue trivial

instance (s : State) (i : Nr) (e : Event) : Decidable (s.ReadsLines i e) :=
  inferInstanceAs (Decidable (s.Counts e ∧ Canonical i s ∧ s.Waits i e))

instance (r : Reading) : Decidable r.Ended := inferInstanceAs (Decidable (∀ x ∈ r.taken, _))

/-- Of `a`, a newline, and `b`, two characters are asked for: the `b` stays. -/
theorem canonical_kept_two : ∃ s : State, ∃ r : Reading, s.returned = [r] ∧ r.bytes = [97, 10] ∧
    r.Finished ∧ (s.tty 0).lastLine = [98] ∧ (s.tty 0).unfinished = some 98 := by
  have hrun : (System.execWhen State.next (State.ReadsLines 0) boot
      (.receive 0 [97, 10, 98] :: List.replicate 14 (.run false) ++ .read 0 2 ::
        List.replicate 3 (.run false))).any
      (fun s => decide (s.returned.map (fun r => (r.tty, r.bytes)) = [(0, [97, 10])] ∧
        (s.tty 0).lastLine = [98])) = true := by
    decide +kernel
  obtain ⟨s, hs, hend⟩ := (Option.any_eq_true _ _).1 hrun
  obtain ⟨hreturned, hline⟩ := of_decide_eq_true hend
  obtain ⟨r, hr, hbytes⟩ := List.map_eq_singleton_iff.1 hreturned
  obtain ⟨hfinished, -, hunfinished⟩ := canonical_kept (.exec (fun _ _ _ h => h) (.init fresh_boot) hs)
  rw [hline] at hunfinished
  exact ⟨s, r, hr, congrArg Prod.snd hbytes,
    hfinished r (hr ▸ List.mem_cons_self) (congrArg Prod.fst hbytes), hline, hunfinished⟩

/-- As many as there are are asked for: the `b` is returned, too. -/
theorem partial_line_read : ∃ s : State, lines.ReachableWhen (fun s _ => Canonical 0 s) s ∧
    ∃ r ∈ s.returned, r.tty = 0 ∧ r.bytes = [97, 10, 98] ∧ ¬ r.Ended ∧ (s.tty 0).lastLine = [] := by
  have hrun : (System.execWhen State.next (fun s _ => Canonical 0 s) boot
      (.receive 0 [97, 10, 98] :: List.replicate 14 (.run false) ++ .read 0 10 ::
        List.replicate 4 (.run false))).any
      (fun s => s.returned.any (fun r => decide (r.tty = 0 ∧ r.bytes = [97, 10, 98] ∧ ¬ r.Ended)) &&
        decide ((s.tty 0).lastLine = [])) = true := by
    decide +kernel
  obtain ⟨s, hs, hend⟩ := (Option.any_eq_true _ _).1 hrun
  obtain ⟨hread, hline⟩ := Bool.and_eq_true_iff.1 hend
  obtain ⟨r, hr, hdec⟩ := List.any_eq_true.1 hread
  obtain ⟨htty, hbytes, hended⟩ := of_decide_eq_true hdec
  exact ⟨s, .exec (fun _ _ _ h => h) (.init fresh_boot) hs, r, hr, htty, hbytes, hended,
    of_decide_eq_true hline⟩

end Linux011.Tty
