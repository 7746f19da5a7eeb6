import Linux011.Signal.Task

/-!
# SIGKILL and the mask of blocked signals

`sys_ssetmask` never blocks `SIGKILL`, but `do_signal` blocks whatever is in the mask of the handler that
it enters, and `sys_sigaction` stores any mask.

1. What each call does to the bit of `SIGKILL`.
2. `State.Allowed`: no handler is entered with `SIGKILL` in its mask. `sigkill_selected`: exactly then
   `SIGKILL` stays unblocked.
-/

namespace Linux011.Signal

/-! ## Bits -/

theorem getLsbD_sigBit (i j : Fin 32) : (sigBit i).getLsbD j = decide (i = j) := by
  revert i j
  decide

/-- `bsfl` finds the lowest bit. -/
theorem bsf_eq_some {w : SigSet} {i : Fin 32} :
    Task.bsf w = some i ↔ w.getLsbD i = true ∧ ∀ j < i, w.getLsbD j = false := by
  unfold Task.bsf
  rw [List.find?_eq_some_iff_getElem]
  constructor
  · rintro ⟨hi, k, hk, he, hlow⟩
    obtain rfl : (⟨k, by simpa using hk⟩ : Fin 32) = i := by simpa using he
    refine ⟨hi, fun j hj => ?_⟩
    simpa using hlow j.val hj
  · rintro ⟨hi, hlow⟩
    refine ⟨hi, i.val, by simp, by simp, fun j hj => ?_⟩
    simpa using hlow ⟨j, by omega⟩ hj

theorem bsf_isSome {w : SigSet} {i : Fin 32} (h : w.getLsbD i = true) :
    ∃ j ≤ i, Task.bsf w = some j := by
  cases hb : Task.bsf w with
  | none =>
    have := List.find?_eq_none.1 hb i (List.mem_finRange i)
    exact absurd h this
  | some j =>
    refine ⟨j, ?_, rfl⟩
    by_contra hj
    have := (bsf_eq_some.1 hb).2 i (not_le.1 hj)
    rw [h] at this
    cases this

namespace Task

/-- `SIGKILL` is blocked. -/
def KillBlocked (t : Task) : Prop := t.blocked.getLsbD sigkill = true

instance (t : Task) : Decidable t.KillBlocked := inferInstanceAs (Decidable (_ = true))

/-- The signal would enter a handler. -/
def Caught (t : Task) (i : Fin 32) : Prop :=
  (t.sigaction i).saHandler ≠ 0 ∧ (t.sigaction i).saHandler ≠ 1

instance (t : Task) (i : Fin 32) : Decidable (t.Caught i) := inferInstanceAs (Decidable (_ ∧ _))

theorem sigIndex_ne_sigkill {signum : ℤ} {i : Fin 32} (h : sigIndex signum = some i) :
    i ≠ sigkill := by
  unfold sigIndex at h
  split at h
  · cases h
  · next hn =>
    cases h
    intro he
    have := congrArg Fin.val he
    simp only [sigkill] at this
    change (signum - 1).toNat = 8 at this
    omega

@[simp] theorem setAction_blocked (t : Task) (i : Fin 32) (sa : Sigaction) :
    (t.setAction i sa).blocked = t.blocked := rfl

@[simp] theorem sysSignal_blocked (t : Task) (signum : ℤ) (handler restorer : BitVec 32) :
    (t.sysSignal signum handler restorer).1.blocked = t.blocked := by
  unfold sysSignal
  split <;> rfl

@[simp] theorem sysSigaction_blocked (t : Task) (signum : ℤ) (action : Sigaction) :
    (t.sysSigaction signum action).1.blocked = t.blocked := by
  unfold sysSigaction
  split <;> rfl

theorem ssetmask_killBlocked (t : Task) (newmask : BitVec 32) :
    ¬ (t.sysSsetmask newmask).1.KillBlocked := by
  simp [KillBlocked, sysSsetmask, getLsbD_sigBit]

/-- Only a handler changes the mask, and adds its own. -/
theorem doSignal_blocked (t : Task) (i : Fin 32) (r : Regs) :
    (t.doSignal i r).1.blocked =
      if t.Caught i then t.blocked ||| (t.sigaction i).saMask else t.blocked := by
  by_cases h1 : (t.sigaction i).saHandler = 1
  · rw [if_neg fun h : t.Caught i => h.2 h1]
    simp [doSignal, h1]
  · by_cases h0 : (t.sigaction i).saHandler = 0
    · rw [if_neg fun h : t.Caught i => h.1 h0]
      simp [doSignal, h0]
    · have hc : t.Caught i := ⟨h0, h1⟩
      rw [if_pos hc]
      unfold doSignal
      dsimp only
      rw [if_neg h1, if_neg h0]

/-- Whether `SIGKILL` is blocked after a return to user mode. -/
theorem ret_killBlocked (t : Task) (task0 : Bool) (r : Regs) :
    (t.retFromSysCall task0 r).1.KillBlocked ↔ t.KillBlocked ∨ ∃ i, t.select task0 r = some i ∧
      t.Caught i ∧ (t.sigaction i).saMask.getLsbD sigkill = true := by
  unfold retFromSysCall
  cases hs : t.select task0 r with
  | none => simp
  | some i =>
    have hb := doSignal_blocked { t with signal := t.signal &&& ~~~sigBit i } i r
    change _ = if t.Caught i then t.blocked ||| (t.sigaction i).saMask else t.blocked at hb
    simp only [KillBlocked, hb, Option.some.injEq, exists_eq_left']
    by_cases hc : t.Caught i <;> simp [hc]

end Task

/-! ## Runs -/

/-- What an event does to the task. -/
def Event.effect (t : Task) : Event → Task
  | .ssetmask newmask => (t.sysSsetmask newmask).1
  | .signal signum handler restorer => (t.sysSignal signum handler restorer).1
  | .sigaction signum action => (t.sysSigaction signum action).1
  | .raise i => { t with signal := t.signal ||| sigBit i }
  | .ret task0 regs => (t.retFromSysCall task0 regs).1

namespace State

/-- If the event delivers a signal to a handler, `SIGKILL` is not in the mask of that handler. -/
def Allowed (s : State) : Event → Prop
  | .ret task0 r => ∀ i, s.task.select task0 r = some i → s.task.Caught i →
      (s.task.sigaction i).saMask.getLsbD sigkill = false
  | _ => True

instance (s : State) (e : Event) : Decidable (s.Allowed e) := by
  cases e <;> unfold Allowed <;> infer_instance

theorem next_task {s s' : State} {e : Event} (h : s.next e = some s') :
    s'.task = e.effect s.task := by
  unfold next at h
  split at h
  · cases h
  · cases e with
    | ret task0 regs =>
      dsimp only [Event.effect] at h ⊢
      generalize s.task.retFromSysCall task0 regs = r at h ⊢
      split at h <;> cases h <;> rfl
    | _ => cases h; rfl

/-- How the bit of `SIGKILL` changes. -/
theorem killBlocked_next {s s' : State} {e : Event} (h : s.next e = some s')
    (hs : ¬ s.task.KillBlocked) : s'.task.KillBlocked ↔ ¬ s.Allowed e := by
  have ht := next_task h
  cases e with
  | ssetmask newmask =>
    rw [ht]
    exact ⟨fun hk => absurd hk (s.task.ssetmask_killBlocked newmask), fun hk => absurd trivial hk⟩
  | signal signum handler restorer =>
    refine ⟨fun hk => absurd ?_ hs, fun hk => absurd trivial hk⟩
    simpa [Task.KillBlocked, ht, Event.effect] using hk
  | sigaction signum action =>
    refine ⟨fun hk => absurd ?_ hs, fun hk => absurd trivial hk⟩
    simpa [Task.KillBlocked, ht, Event.effect] using hk
  | raise i =>
    refine ⟨fun hk => absurd ?_ hs, fun hk => absurd trivial hk⟩
    simpa [Task.KillBlocked, ht, Event.effect] using hk
  | ret task0 r =>
    rw [ht]
    refine (s.task.ret_killBlocked task0 r).trans ?_
    simp [hs, Allowed]

/-- `SIGKILL` has its default action. -/
def KillDefault (s : State) : Prop := (s.task.sigaction sigkill).saHandler = 0

theorem KillDefault.next {s s' : State} {e : Event} (hd : s.KillDefault) (h : s.next e = some s') :
    s'.KillDefault := by
  have ht := next_task h
  have hset : ∀ {signum : ℤ} {i : Fin 32} {sa : Sigaction}, Task.sigIndex signum = some i →
      ((s.task.setAction i sa).sigaction sigkill).saHandler = 0 := by
    intro signum i sa hi
    simp only [Task.setAction, Function.update_of_ne (Task.sigIndex_ne_sigkill hi).symm]
    exact hd
  unfold KillDefault
  rw [ht]
  cases e with
  | signal signum handler restorer =>
    simp only [Event.effect, Task.sysSignal]
    split
    · exact hd
    · next i hi => exact hset hi
  | sigaction signum action =>
    simp only [Event.effect, Task.sysSigaction]
    split
    · exact hd
    · next i hi => exact hset hi
  | ret task0 r =>
    simp only [Event.effect, Task.retFromSysCall]
    split
    · exact hd
    · next i _ =>
      simp only [Task.doSignal]
      split
      · exact hd
      split
      · exact hd
      · next h1 h0 =>
        have hi : sigkill ≠ i := by
          rintro rfl
          exact h0 hd
        split
        · simp only [Task.setAction, Function.update_of_ne hi]
          exact hd
        · exact hd
  | _ => exact hd

end State

theorem reachable_killDefault {s : State} (hs : signals.ReachableWhen State.Allowed s) :
    ¬ s.task.KillBlocked ∧ s.KillDefault := by
  refine System.ReachableWhen.invariant (I := fun s => ¬ s.task.KillBlocked ∧ s.KillDefault)
    (fun t h0 => ?_) (fun t e t' hI hok ht => ?_) hs
  · obtain rfl : t = .boot := h0
    exact ⟨by decide, rfl⟩
  · exact ⟨fun hk => (State.killBlocked_next ht hI.1).1 hk hok, hI.2.next ht⟩

/-- **`SIGKILL` stays unblocked exactly as long as no handler is entered whose mask contains it.**
Where it is not blocked, a pending `SIGKILL` passes the test on the way back to user mode, is chosen
unless a lower signal is, and ends the task. -/
theorem sigkill_selected {s : State} (hs : signals.ReachableWhen State.Allowed s) :
    ¬ s.task.KillBlocked ∧
    (s.task.signal.getLsbD sigkill = true →
      (s.task.signal &&& ~~~s.task.blocked).getLsbD sigkill = true ∧
      ∀ r, r.cs = 0x0f → r.ss = 0x17 → ∃ i ≤ sigkill, s.task.select false r = some i ∧
        (i = sigkill → (s.task.retFromSysCall false r).2 = some (.exits (sigBit sigkill)))) ∧
    ∀ e s', s.next e = some s' → ¬ s.Allowed e → s'.task.KillBlocked := by
  obtain ⟨hb, hd⟩ := reachable_killDefault hs
  refine ⟨hb, fun hp => ?_, fun e s' hn ho => (State.killBlocked_next hn hb).2 ho⟩
  have hb : s.task.blocked.getLsbD sigkill = false := by simpa [Task.KillBlocked] using hb
  have htest : (s.task.signal &&& ~~~s.task.blocked).getLsbD sigkill = true := by
    simp only [BitVec.getLsbD_and, BitVec.getLsbD_not, hp, hb]
    decide
  refine ⟨htest, fun r hcs hss => ?_⟩
  obtain ⟨i, hi, hbsf⟩ := bsf_isSome htest
  have hsel : s.task.select false r = some i := by simp [Task.select, hcs, hss, hbsf]
  refine ⟨i, hi, hsel, ?_⟩
  rintro rfl
  have hd : (s.task.sigaction sigkill).saHandler = 0 := hd
  have hne : sigkill ≠ sigchld := by decide
  simp [Task.retFromSysCall, hsel, Task.doSignal, hd, hne]

/-- A task catches signal 10 with signal 2 in the mask of the handler, blocks signal 5, and gets `SIGKILL`
when it has entered the handler. -/
theorem sigkill_selected_handler : ∃ s, signals.ReachableWhen State.Allowed s ∧
    s.task.blocked = sigBit 1 ||| sigBit 4 ||| sigBit 9 ∧
    (s.task.signal &&& ~~~s.task.blocked).getLsbD sigkill = true ∧
    ∀ r, r.cs = 0x0f → r.ss = 0x17 → ∃ i ≤ sigkill, s.task.select false r = some i ∧
      (i = sigkill → (s.task.retFromSysCall false r).2 = some (.exits (sigBit sigkill))) := by
  have h : (System.execWhen State.next State.Allowed .boot
      [.sigaction 10 ⟨0x1000, sigBit 1, 0, 0⟩, .ssetmask (sigBit 4), .raise 9,
        .ret false ⟨0, 0, 0, 0, 0x0f, 0, 0, 0x17⟩, .raise sigkill]).any (fun s =>
          decide (s.task.blocked = sigBit 1 ||| sigBit 4 ||| sigBit 9 ∧
            s.task.signal.getLsbD sigkill = true)) = true := by
    decide
  obtain ⟨s, hs, he⟩ := (Option.any_eq_true ..).1 h
  obtain ⟨hblocked, hp⟩ := of_decide_eq_true he
  have hr : signals.ReachableWhen State.Allowed s :=
    (System.ReachableWhen.init rfl).exec (fun _ _ _ h => h) hs
  obtain ⟨htest, hret⟩ := (sigkill_selected hr).2.1 hp
  exact ⟨s, hr, hblocked, htest, hret⟩

/-- A task catches signal 10 with `SIGKILL` in the mask of the handler. When it has entered the handler,
it does not see `SIGKILL` any more, although `schedule` still wakes it up. -/
theorem sigkill_blocked : ∃ s, signals.Reachable s ∧ s.task.KillBlocked ∧
    s.task.signal.getLsbD sigkill = true ∧ s.task.wakes ∧
    ∀ r, s.task.select false r = none := by
  have h : (System.execWhen State.next (fun _ _ => True) .boot
      [.sigaction 10 ⟨0x1000, sigBit sigkill, 0, 0⟩, .raise 9, .ret false ⟨0, 0, 0, 0, 0x0f, 0, 0, 0x17⟩,
        .raise sigkill]).map (fun s => decide (s.task.KillBlocked ∧
          s.task.signal.getLsbD sigkill = true ∧ s.task.wakes ∧
          Task.bsf (s.task.signal &&& ~~~s.task.blocked) = none)) = some true := by
    decide
  obtain ⟨s, hs, he⟩ := Option.map_eq_some_iff.1 h
  simp only [decide_eq_true_eq] at he
  obtain ⟨h1, h2, h3, h4⟩ := he
  refine ⟨s, System.ReachableWhen.exec (fun _ _ _ h => h) (.init rfl) hs, h1, h2, h3, fun r => ?_⟩
  simp [Task.select, h4]

end Linux011.Signal
