import Linux011.Tty.Echo

/-!
# Terminals: `con_write` within `con_write`

`con_write` asks once how many characters there are. The reply to `ESC Z` is echoed before it has taken
them all, by a `con_write` that takes the rest.

1. `State.Begins`: `con_write` is called, whatever is on the queues. `State.Busy`: it has not returned.
2. `Paid`: what the calls have still to take is what is there. `Overdue`: it is more.
3. `con_write_once`.
-/

namespace Linux011.Tty

/-- `con_write` is called. -/
structure State.Begins (s : State) : Prop where
  stack : s.stack s.cur = [.conWrite (s.tty 0).writeQ.chars]
  writeQ : (s.tty 0).writeQ.Sound

def State.Busy (s : State) (_ : Event) : Prop := s.stack s.cur ≠ []

/-- Every character is taken by the call that counted it. -/
structure Paid (s : State) : Prop where
  calls : ∀ f ∈ s.stack s.cur, f.isCall = false
  writeQ : (s.tty 0).writeQ.Sound
  pending : Outcome.total Frame.pending (s.stack s.cur) = (s.tty 0).writeQ.chars

/-- Characters were counted twice. -/
structure Overdue (s : State) : Prop where
  calls : ∀ f ∈ s.stack s.cur, f.isCall = false
  pending : (s.tty 0).writeQ.spoiled = true ∨
    (s.tty 0).writeQ.chars < Outcome.total Frame.pending (s.stack s.cur)

section Reply

variable {s s' : State} {f : Frame} {fs fs' : List Frame} {i j : Nr} {pc : CookPc} {signal : Bool}
  {e : Event} {nr : ℕ} {t : TtyStruct} {below : Byte → Byte} {c : Byte}

/-! ## Steps -/

theorem pending_cook : Frame.pending (.cook i pc) = 0 := rfl

/-- What a turn of `copy_to_cooked` does to the write queue of the console. -/
theorem cookStep_console : ((s.cookStep i pc).1.tty 0).writeQ =
    if i = 0 then (s.tty 0).writeQ.puts (cookTurn s.below (s.tty 0) pc).echo else (s.tty 0).writeQ := by
  rw [cookStep_writeQ]
  by_cases hi : i = 0
  · subst hi
    rfl
  · rw [if_neg (Ne.symm hi), if_neg hi]

/-- If nothing is written, nothing is put on the queue. -/
theorem cookStep_quiet (h : ¬ (i = 0 ∧ (cookTurn s.below (s.tty i) pc).write = true)) :
    ((s.cookStep i pc).1.tty 0).writeQ = (s.tty 0).writeQ ∧
      (s.cookStep i pc).2.weight Frame.pending (fun _ => 0) = 0 := by
  rw [cookStep_pending, if_neg h, cookStep_console]
  refine ⟨?_, rfl⟩
  by_cases hi : i = 0
  · subst hi
    have hwrite : (cookTurn s.below (s.tty 0) pc).write = false :=
      Bool.eq_false_iff.2 fun hwrite => h ⟨rfl, hwrite⟩
    rw [if_pos rfl, cookTurn_turned.echo hwrite]
    rfl
  · exact if_neg hi

/-- While `con_write` has not returned, a step is a turn, or what it has to take stays so. -/
theorem next_busy (hcalls : ∀ f ∈ s.stack s.cur, f.isCall = false) (hbusy : s.Busy e)
    (hs : s.next e = some s') : (∃ signal, e = .run signal) ∨
      (∀ f ∈ s'.stack s'.cur, f.isCall = false) ∧ (s'.tty 0).writeQ = (s.tty 0).writeQ ∧
      Outcome.total Frame.pending (s'.stack s'.cur) = Outcome.total Frame.pending (s.stack s.cur) := by
  cases next_changes hs with
  | schedule p hy =>
    exfalso
    cases hstack : s.stack s.cur with
    | nil => exact hbusy hstack
    | cons f fs =>
      rw [hstack] at hy hcalls
      have hf := hcalls f List.mem_cons_self
      have hy : f.yields = true := hy
      cases f with
      | read | write => cases hf
      | cook | conWrite => cases hy
  | exit hy =>
    obtain ⟨f, hf, hfaults⟩ := (Option.any_eq_true _ _).1 hy
    have hcall := hcalls f (List.mem_of_mem_head? hf)
    rw [isCall_of_faults hfaults] at hcall
    cases hcall
  | read _ _ hempty | write _ _ hempty | ioctl _ _ hempty => exact absurd hempty hbusy
  | receive i _ q =>
    obtain ⟨t, ht⟩ : ∃ t, t = { s.tty i with readQ := q } := ⟨_, rfl⟩
    rw [← ht, setStack_cur]
    refine .inr ⟨List.forall_mem_cons.2 ⟨rfl, hcalls⟩,
      setTty_congr TtyStruct.writeQ (by rw [ht]) 0, ?_⟩
    rw [Outcome.total_cons, pending_cook, Nat.zero_add]
  | transmit i hi =>
    refine .inr ⟨hcalls, ?_, rfl⟩
    rw [setTty_writeQ, if_neg (Ne.symm hi)]
  | run signal => exact .inl ⟨signal, rfl⟩

theorem pending_run (hs : s.stack s.cur = f :: fs)
    (hfs : (s.turn signal f).2.resume (fun _ g => g) fs = some fs') :
    Outcome.total Frame.pending fs' =
      (s.turn signal f).2.weight Frame.pending (fun _ => 0) + Outcome.total Frame.pending fs ∧
    Outcome.total Frame.pending (s.stack s.cur) = f.pending + Outcome.total Frame.pending fs := by
  rw [hs, Outcome.total_cons]
  exact ⟨Outcome.resume_total (fun _ _ _ _ _ => rfl) (fun _ _ _ => rfl) hfs, rfl⟩

/-- `con_write` takes a character that is there. -/
theorem Paid.con (h : Paid s) (hs : s.stack s.cur = .conWrite nr :: fs) :
    ((s.conTurn nr).1.tty 0).writeQ.Sound ∧
    (s.conTurn nr).2.weight Frame.pending (fun _ => 0) + Outcome.total Frame.pending fs =
      ((s.conTurn nr).1.tty 0).writeQ.chars := by
  have hpending := h.pending
  rw [hs, Outcome.total_cons] at hpending
  cases nr with
  | zero => exact ⟨h.writeQ, hpending⟩
  | succ nr =>
    have hpending : nr + 1 + Outcome.total Frame.pending fs = (s.tty 0).writeQ.chars := hpending
    have hchars : (s.tty 0).writeQ.chars ≠ 0 := by omega
    have hwriteQ : ((s.conTurn (nr + 1)).1.tty 0).writeQ = (s.tty 0).writeQ.getch :=
      setTty_writeQ.trans (if_pos rfl)
    rw [hwriteQ, conTurn_pending, Fifo.chars_getch hchars]
    exact ⟨h.writeQ.getch hchars, by omega⟩

/-- Nothing is on the queue when an echo is put there. -/
theorem Paid.cook (h : Paid s) (hs : s.stack s.cur = .cook i pc :: fs)
    (halone : s.Alone (.run signal)) : ((s.cookStep i pc).1.tty 0).writeQ.Sound ∧
    (s.cookStep i pc).2.weight Frame.pending (fun _ => 0) + Outcome.total Frame.pending fs =
      ((s.cookStep i pc).1.tty 0).writeQ.chars := by
  have hpending := h.pending
  rw [hs, Outcome.total_cons, pending_cook, Nat.zero_add] at hpending
  by_cases hwrite : i = 0 ∧ (cookTurn s.below (s.tty i) pc).write = true
  · have hzero := State.AtCook.top halone hs hwrite.1 hwrite.2
    rw [cookStep_pending, if_pos hwrite, hzero, Nat.add_zero, cookStep_console, if_pos hwrite.1]
    refine ⟨h.writeQ.puts (cookTurn_echo.trans ?_), rfl⟩
    have hsum := Fifo.chars_add_left (q := (s.tty 0).writeQ)
    omega
  · obtain ⟨hwriteQ, hweight⟩ := cookStep_quiet hwrite
    rw [hweight, hwriteQ, Nat.zero_add]
    exact ⟨h.writeQ, hpending⟩

theorem Paid.next (h : Paid s) (hbusy : s.Busy e) (halone : s.Alone e) (hs : s.next e = some s') :
    Paid s' := by
  rcases next_busy h.calls hbusy hs with ⟨signal, rfl⟩ | ⟨hcalls, hwriteQ, htotal⟩
  · obtain ⟨f, fs, hstack⟩ := stack_of_run hs
    obtain ⟨fs', hfs, rfl⟩ := run_eq_some hstack hs
    have hcalls := h.calls
    rw [hstack, List.forall_mem_cons] at hcalls
    have hturn : ((s.turn signal f).1.tty 0).writeQ.Sound ∧
        (s.turn signal f).2.weight Frame.pending (fun _ => 0) + Outcome.total Frame.pending fs =
          ((s.turn signal f).1.tty 0).writeQ.chars := by
      cases f with
      | cook i pc => exact h.cook hstack halone
      | conWrite nr => exact h.con hstack
      | read | write => cases hcalls.1
    refine ⟨?_, hturn.1, ?_⟩
    · rw [setStack_cur]
      exact (turn_calls hcalls.1).resume hcalls.2 (fun _ _ h => h) hfs
    · rw [setStack_cur, (pending_run hstack hfs).1]
      exact hturn.2
  · refine ⟨hcalls, hwriteQ.symm ▸ h.writeQ, ?_⟩
    rw [htotal, hwriteQ]
    exact h.pending

/-- What a turn takes from the queue is counted, too. -/
theorem Overdue.turn (h : Overdue s) (hs : s.stack s.cur = f :: fs) :
    ((s.turn signal f).1.tty 0).writeQ.spoiled = true ∨ ((s.turn signal f).1.tty 0).writeQ.chars <
      (s.turn signal f).2.weight Frame.pending (fun _ => 0) + Outcome.total Frame.pending fs := by
  have hpending := h.pending
  have hcalls := h.calls f (hs ▸ List.mem_cons_self)
  rw [hs, Outcome.total_cons] at hpending
  cases f with
  | cook i pc =>
    show ((s.cookStep i pc).1.tty 0).writeQ.spoiled = true ∨ ((s.cookStep i pc).1.tty 0).writeQ.chars <
      (s.cookStep i pc).2.weight Frame.pending (fun _ => 0) + Outcome.total Frame.pending fs
    rw [pending_cook, Nat.zero_add] at hpending
    by_cases hwrite : i = 0 ∧ (cookTurn s.below (s.tty i) pc).write = true
    · rcases hpending with hspoiled | hlt
      · refine .inl ?_
        rw [cookStep_console, if_pos hwrite.1]
        exact Fifo.spoiled_puts hspoiled
      · refine .inr ?_
        rw [cookStep_pending, if_pos hwrite]
        omega
    · obtain ⟨hwriteQ, hweight⟩ := cookStep_quiet hwrite
      rw [hweight, hwriteQ, Nat.zero_add]
      exact hpending
  | conWrite nr =>
    show ((s.conTurn nr).1.tty 0).writeQ.spoiled = true ∨ ((s.conTurn nr).1.tty 0).writeQ.chars <
      (s.conTurn nr).2.weight Frame.pending (fun _ => 0) + Outcome.total Frame.pending fs
    cases nr with
    | zero => exact hpending
    | succ nr =>
      have hwriteQ : ((s.conTurn (nr + 1)).1.tty 0).writeQ = (s.tty 0).writeQ.getch :=
        setTty_writeQ.trans (if_pos rfl)
      rw [hwriteQ, conTurn_pending]
      by_cases hchars : (s.tty 0).writeQ.chars = 0
      · refine .inl ?_
        show ((s.tty 0).writeQ.spoiled || (s.tty 0).writeQ.isEmpty) = true
        rw [Fifo.isEmpty_iff.2 hchars, Bool.or_true]
      · rcases hpending with hspoiled | hlt
        · refine .inl ?_
          show ((s.tty 0).writeQ.spoiled || (s.tty 0).writeQ.isEmpty) = true
          rw [hspoiled, Bool.true_or]
        · have hlt : (s.tty 0).writeQ.chars < nr + 1 + Outcome.total Frame.pending fs := hlt
          rw [Fifo.chars_getch hchars]
          exact .inr (by omega)
  | read | write => cases hcalls

theorem Overdue.next (h : Overdue s) (hbusy : s.Busy e) (hs : s.next e = some s') : Overdue s' := by
  rcases next_busy h.calls hbusy hs with ⟨signal, rfl⟩ | ⟨hcalls, hwriteQ, htotal⟩
  · obtain ⟨f, fs, hstack⟩ := stack_of_run hs
    obtain ⟨fs', hfs, rfl⟩ := run_eq_some hstack hs
    have hcalls := h.calls
    rw [hstack, List.forall_mem_cons] at hcalls
    refine ⟨?_, ?_⟩
    · rw [setStack_cur]
      exact (turn_calls hcalls.1).resume hcalls.2 (fun _ _ h => h) hfs
    · rw [setStack_cur, (pending_run hstack hfs).1]
      exact h.turn hstack
  · refine ⟨hcalls, ?_⟩
    rw [htotal, hwriteQ]
    exact h.pending

/-- An echo that is written before all is taken counts what is left again. -/
theorem Paid.overdue (h : Paid s) (hbusy : s.Busy e) (halone : ¬ s.Alone e) (hs : s.next e = some s') :
    Overdue s' := by
  cases e with
  | run signal =>
    obtain ⟨f, fs, hstack⟩ := stack_of_run hs
    obtain ⟨fs', hfs, rfl⟩ := run_eq_some hstack hs
    have hcalls := h.calls
    rw [hstack, List.forall_mem_cons] at hcalls
    have hnot : ¬ TopCook (fun i pc fs => i = 0 → (cookTurn s.below (s.tty i) pc).write = true →
        Outcome.total Frame.pending fs = 0) (f :: fs) := hstack ▸ halone
    cases f with
    | cook i pc =>
      have hnot : ¬ (i = 0 → (cookTurn s.below (s.tty i) pc).write = true →
        Outcome.total Frame.pending fs = 0) := hnot
      rw [Classical.not_imp, Classical.not_imp] at hnot
      obtain ⟨hi, hwrite, hne⟩ := hnot
      refine ⟨?_, .inr ?_⟩
      · rw [setStack_cur]
        exact (turn_calls hcalls.1).resume hcalls.2 (fun _ _ h => h) hfs
      · rw [setStack_cur, (pending_run hstack hfs).1]
        show ((s.cookStep i pc).1.tty 0).writeQ.chars <
          (s.cookStep i pc).2.weight Frame.pending (fun _ => 0) + Outcome.total Frame.pending fs
        rw [cookStep_pending, if_pos ⟨hi, hwrite⟩]
        omega
    | conWrite nr => exact absurd trivial hnot
    | read | write => cases hcalls.1
  | schedule | read | write | ioctl | receive | transmit | exit => exact absurd trivial halone

theorem State.Begins.paid (h : s.Begins) : Paid s := by
  refine ⟨?_, h.writeQ, ?_⟩
  · rw [h.stack]
    exact List.forall_mem_singleton.2 rfl
  · rw [h.stack]
    exact Nat.add_zero _

/-! ## Runs -/

instance (s : State) (e : Event) : Decidable (s.Busy e) :=
  inferInstanceAs (Decidable (¬ s.stack s.cur = []))

instance (s : State) (e : Event) : Decidable (s.Alone e) :=
  inferInstanceAs (Decidable (s.AtCook _ e))

/-- `con_write` has not returned, and is not called by an echo before it has taken all. -/
def State.BusyAlone (s : State) (e : Event) : Prop := s.Busy e ∧ s.Alone e

instance (s : State) (e : Event) : Decidable (s.BusyAlone e) :=
  inferInstanceAs (Decidable (s.Busy e ∧ s.Alone e))

theorem Paid.run {es : List Event} (h : Paid s)
    (hrun : System.execWhen State.next State.Busy s es = some s') :
    System.execWhen State.next State.BusyAlone s es = some s' ∨ Overdue s' := by
  induction es generalizing s with
  | nil => exact .inl hrun
  | cons e es ih =>
    unfold System.execWhen at hrun ⊢
    split at hrun
    · next hbusy =>
      obtain ⟨t, ht, hrun⟩ := Option.bind_eq_some_iff.1 hrun
      by_cases halone : s.Alone e
      · rw [if_pos ⟨hbusy, halone⟩, ht]
        exact ih (h.next hbusy halone ht) hrun
      · have hleads : lines.Leads State.Busy t s' := .exec (fun _ _ _ h => h) hrun
        exact .inr (hleads.invariant (fun _ _ _ h hbusy hs => h.next hbusy hs)
          (h.overdue hbusy halone ht))
    · cases hrun

end Reply

/-- Whatever is on the queues and whatever comes in: when `con_write` has returned, every character was
taken once and in order, if and only if it was never called by an echo before it had taken all those
that it counted. -/
theorem con_write_once {s s' : State} {es : List Event} (h : s.Begins)
    (hrun : System.execWhen State.next State.Busy s es = some s') (hend : s'.stack s'.cur = []) :
    ((s'.tty 0).writeQ.Sound ∧ (s'.tty 0).writeQ.contents = []) ↔
      System.execWhen State.next State.BusyAlone s es = some s' := by
  constructor
  · rintro ⟨hsound, -⟩
    refine (h.paid.run hrun).resolve_right fun hover => ?_
    have hpending := hover.pending
    rw [hend, hsound.spoiled] at hpending
    rcases hpending with hspoiled | hlt
    · cases hspoiled
    · cases hlt
  · intro halone
    have hleads : lines.Leads State.BusyAlone s s' := .exec (fun _ _ _ h => h) halone
    have hpaid : Paid s' := hleads.invariant (fun _ _ _ h hok hs => h.next hok.1 hok.2 hs) h.paid
    refine ⟨hpaid.writeQ, Fifo.contents_eq_nil.2 ?_⟩
    rw [← hpaid.pending, hend]
    rfl

/-- `con_write` is called for `l` on a console that starts. -/
def begin (l : List Byte) : State :=
  (boot.setTty 0 { boot.tty 0 with writeQ := (boot.tty 0).writeQ.puts l }).setStack [.conWrite l.length]

/-- `ESC Z` comes last: the reply is echoed when nothing is left. -/
theorem con_write_once_reply : ∃ s' : State,
    (s'.tty 0).secondary.contents = [27, 91, 63, 49, 59, 50, 99] ∧ (s'.tty 0).writeQ.Sound ∧
      (s'.tty 0).writeQ.contents = [] := by
  have hbegins : (begin [97, 27, 90]).Begins :=
    ⟨rfl, Fifo.sound_empty.puts (l := [97, 27, 90]) (by decide)⟩
  have hrun : (System.execWhen State.next State.BusyAlone (begin [97, 27, 90])
      (List.replicate 34 (.run false))).any
      (fun s => decide (s.stack s.cur = [] ∧
        (s.tty 0).secondary.contents = [27, 91, 63, 49, 59, 50, 99])) = true := by
    decide +kernel
  obtain ⟨s', hs', hend⟩ := (Option.any_eq_true _ _).1 hrun
  obtain ⟨hend, hsecondary⟩ := of_decide_eq_true hend
  exact ⟨s', hsecondary, (con_write_once hbegins (System.execWhen_mono (fun _ _ h => h.1) hs') hend).2 hs'⟩

/-- A character comes after `ESC Z`: it is printed by the `con_write` of the first echo, and then a
character is taken from an empty queue. -/
theorem reply_takes_rest : ∃ s s' : State, ∃ es : List Event, s.Begins ∧
    System.execWhen State.next State.Busy s es = some s' ∧ s'.stack s'.cur = [] ∧
    ¬ ((s'.tty 0).writeQ.Sound ∧ (s'.tty 0).writeQ.contents = []) := by
  have hbegins : (begin [27, 90, 65]).Begins :=
    ⟨rfl, Fifo.sound_empty.puts (l := [27, 90, 65]) (by decide)⟩
  have hrun : (System.execWhen State.next State.Busy (begin [27, 90, 65])
      (List.replicate 35 (.run false))).any
      (fun s => decide (s.stack s.cur = [] ∧ (s.tty 0).writeQ.spoiled = true)) = true := by
    decide +kernel
  obtain ⟨s', hs', hend⟩ := (Option.any_eq_true _ _).1 hrun
  obtain ⟨hend, hspoiled⟩ := of_decide_eq_true hend
  refine ⟨_, s', _, hbegins, hs', hend, fun h => ?_⟩
  rw [h.1.spoiled] at hspoiled
  cases hspoiled

end Linux011.Tty
