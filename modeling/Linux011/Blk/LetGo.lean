import Linux011.Blk.Floppy
import Linux011.Blk.HdRetry

/-!
# Requests that are done with

`end_request` moves `CURRENT` on, and `bad_rw_intr` and `bad_flp_intr` look at `CURRENT->errors` after it.
When they have given up a request, this is the next one, or null.

1. `Avoids`: an outcome without a certain error.
2. The floppy disks: `State.Careful`, `Safe`. There is one timer or handler at a time.
3. The hard disk: `State.Careful`, `Safe`.
4. `drivers_let_go`, `drivers_hold_on`.
-/

namespace Linux011

/-! ## Outcomes -/

/-- There is no error `bad`, and a result has `P`. -/
def Avoids {ε σ : Type} (bad : ε) (P : σ → Prop) : Except ε σ → Prop
  | .ok s => P s
  | .error f => f ≠ bad

section Avoids

variable {ε σ τ : Type} {bad : ε} {P : σ → Prop} {Q : τ → Prop} {x : Except ε σ}

theorem Avoids.bind {f : σ → Except ε τ} (hx : Avoids bad P x) (hf : ∀ s, P s → Avoids bad Q (f s)) :
    Avoids bad Q (x >>= f) := by
  cases x with
  | error e => exact hx
  | ok s => exact hf s hx

theorem Avoids.ne_bad (hx : Avoids bad P x) : x ≠ .error bad := by
  rintro rfl
  exact hx rfl

end Avoids

/-! ## The floppy disks -/

namespace Floppy

open Blk (Cmd)
open Hd (Word Byte Cause Fault)

/-- An error of the request has set `reset` or `recalibrate`. -/
def State.Marked (s : State) (i : ℕ) : Prop :=
  s.reset = some (.errors i) ∨ s.recalibrate = some (.errors i)

/-- What is decided for a request is not decided for the errors of another. -/
def OwnErrors (l : List (ℕ × Cause)) : Prop := ∀ x ∈ l, ∀ i, x.2 = .errors i → x.1 = i

/-- Only the errors of `CURRENT` count. -/
structure Own (s : State) : Prop where
  marked : ∀ i, s.Marked i → ∃ r q, s.queue = r :: q ∧ r.id = i
  decided : OwnErrors s.decided

/-- No timer is pending, and no handler is set. -/
structure Free (s : State) : Prop where
  own : Own s
  doFloppy : s.doFloppy = none
  timers : s.timers = []

/-- `CURRENT` is worked for. -/
structure Working (s : State) : Prop where
  queue : s.queue ≠ []
  unmarked : ∀ i, ¬s.Marked i

/-- There is one timer or handler at a time, and there is a request where `CURRENT` will be used. -/
structure Safe (s : State) : Prop where
  own : Own s
  one : s.doFloppy = none ∧ s.timers.length ≤ 1 ∨ s.timers = []
  working : s.timers ≠ [] ∨ s.doFloppy = some .rw ∨ s.doFloppy = some .seek → Working s

/-- `rw_interrupt` calls `bad_flp_intr`. -/
def State.RwFails (s : State) (a : Answer) : Prop :=
  (s.result a).2.rwGood (s.result a).1 = false ∧ (s.result a).2.st1 &&& 0x02 = 0

/-- `seek_interrupt` calls it. -/
def State.SeekFails (s : State) (a : Answer) : Prop :=
  ((s.outputBytes a.sense).result a).2.seekGood ((s.outputBytes a.sense).result a).1 = false

/-- No request is given up for its errors, and none comes in while the driver works without one. -/
def State.Careful (s : State) : Event → Prop
  | .add .. => s.queue = [] → s.doFloppy = none ∧ s.timers = []
  | .timer .. => True
  | .interrupt a =>
    s.doFloppy = some .rw ∧ { s with doFloppy := none }.RwFails a ∨
      s.doFloppy = some .seek ∧ { s with doFloppy := none }.SeekFails a →
      ∀ r ∈ s.queue.head?, r.errors < maxErrors

/-- Commands and answers may set `reset`. -/
structure Heard (s s' : State) : Prop where
  queue : s'.queue = s.queue
  reset : s'.reset = s.reset ∨ s'.reset = some .device
  recalibrate : s'.recalibrate = s.recalibrate
  doFloppy : s'.doFloppy = s.doFloppy
  timers : s'.timers = s.timers
  decided : s'.decided = s.decided

section Floppies

variable {s s' t : State} {a : Answer} {c : Cause} {i : ℕ} {r : Request} {q : List Request} {ok : Bool}
  {behind : ℕ → Kind}

/-! ### Commands -/

theorem Heard.trans (h : Heard s s') (h' : Heard s' t) : Heard s t where
  queue := h'.queue.trans h.queue
  reset := by
    rcases h'.reset with hr | hr
    · rw [hr]
      exact h.reset
    · exact .inr hr
  recalibrate := h'.recalibrate.trans h.recalibrate
  doFloppy := h'.doFloppy.trans h.doFloppy
  timers := h'.timers.trans h.timers
  decided := h'.decided.trans h.decided

theorem heard_outputBytes : Heard s (s.outputBytes ok) := by
  unfold State.outputBytes
  split
  · exact ⟨rfl, .inl rfl, rfl, rfl, rfl, rfl⟩
  · exact ⟨rfl, .inr rfl, rfl, rfl, rfl, rfl⟩

theorem heard_result : Heard s (s.result a).2 := by
  unfold State.result
  split
  · exact ⟨rfl, .inl rfl, rfl, rfl, rfl, rfl⟩
  · next hreset =>
    refine ⟨rfl, ?_, rfl, rfl, rfl, rfl⟩
    dsimp only
    split
    · left
      cases hr : s.reset with
      | none => rfl
      | some c =>
        rw [hr] at hreset
        exact absurd rfl hreset
    · exact .inr rfl

theorem Heard.marked (h : Heard s s') (hm : s'.Marked i) : s.Marked i := by
  rcases hm with hm | hm
  · rcases h.reset with hr | hr
    · exact .inl (hr.symm.trans hm)
    · cases hr.symm.trans hm
  · exact .inr (h.recalibrate.symm.trans hm)

theorem Own.not_marked_of_nil (h : Own s) (hq : s.queue = []) : ¬s.Marked i := by
  intro hm
  obtain ⟨r, q, hq', -⟩ := h.marked i hm
  rw [hq] at hq'
  cases hq'

theorem ownErrors_append {l : List (ℕ × Cause)} {n : ℕ} (h : OwnErrors l)
    (hc : ∀ i, c = .errors i → n = i) : OwnErrors (l ++ [(n, c)]) := by
  intro x hx i hi
  rcases List.mem_append.1 hx with hx | hx
  · exact h x hx i hi
  · obtain rfl := List.mem_singleton.1 hx
    exact hc i hi

/-- What has set `reset` or `recalibrate` may be acted on. -/
theorem decideFor_decided (h : OwnErrors s.decided)
    (hc : ∀ i, c = .errors i → ∃ r q, s.queue = r :: q ∧ r.id = i) :
    OwnErrors (s.decideFor c).decided := by
  unfold State.decideFor
  split
  · exact h
  · next r q hq =>
    refine ownErrors_append h fun i hi => ?_
    obtain ⟨r', q', hq', hid⟩ := hc i hi
    cases hq.symm.trans hq'
    exact hid

theorem decideFor_queue : (s.decideFor c).queue = s.queue := by
  unfold State.decideFor
  split <;> rfl

theorem decideFor_flags : (s.decideFor c).reset = s.reset ∧
    (s.decideFor c).recalibrate = s.recalibrate ∧ (s.decideFor c).doFloppy = s.doFloppy ∧
    (s.decideFor c).timers = s.timers := by
  unfold State.decideFor
  split <;> exact ⟨rfl, rfl, rfl, rfl⟩

/-- A state in which the hardware is reset or recalibrates. -/
theorem safe_of_recover (hown : Own s) (ht : s.timers = [])
    (hd : s.doFloppy = some .reset ∨ s.doFloppy = some .recal) : Safe s := by
  refine ⟨hown, .inr ht, fun hw => ?_⟩
  rcases hw with hw | hw | hw
  · exact absurd ht hw
  · rcases hd with hd | hd <;> rw [hd] at hw <;> cases hw
  · rcases hd with hd | hd <;> rw [hd] at hw <;> cases hw

theorem safe_resetFloppy (h : OwnErrors s.decided) (ht : s.timers = [])
    (hc : ∀ i, c = .errors i → ∃ r q, s.queue = r :: q ∧ r.id = i) : Safe (s.resetFloppy c) := by
  obtain ⟨hreset, hrecal, hdo, htimers⟩ := decideFor_flags (c := c) (s := { s with
    reset := none
    curSpec1 := none
    curRate := none
    recalibrate := some c
    doFloppy := some .reset })
  refine safe_of_recover ⟨fun i hm => ?_, ?_⟩ (htimers.trans ht) (.inl hdo)
  · rcases hm with hm | hm
    · cases hreset.symm.trans hm
    · have hci : c = .errors i := Option.some.inj (hrecal.symm.trans hm)
      obtain ⟨r, q, hq, hid⟩ := hc i hci
      exact ⟨r, q, decideFor_queue.trans hq, hid⟩
  · exact decideFor_decided h hc

/-- `reset` is only looked at here. -/
theorem safe_orReset (h : Safe s) (ht : s.timers = []) : Safe s.orReset := by
  unfold State.orReset
  split
  · next c hc =>
    refine safe_resetFloppy h.own.decided ht fun i hi => ?_
    subst hi
    exact h.own.marked i (.inl hc)
  · exact h

/-- No errors of a request are acted on. -/
theorem own_of_unmarked (h : ∀ i, ¬s.Marked i) (hd : OwnErrors s.decided) : Own s :=
  ⟨fun i hm => absurd hm (h i), hd⟩

theorem Heard.own (h : Heard s s') (hs : Own s) : Own s' := by
  refine ⟨fun i hm => ?_, ?_⟩
  · rw [h.queue]
    exact hs.marked i (h.marked hm)
  · rw [h.decided]
    exact hs.decided

theorem Heard.working (h : Heard s s') (hs : Working s) : Working s' := by
  refine ⟨?_, fun i hm => hs.unmarked i (h.marked hm)⟩
  rw [h.queue]
  exact hs.queue

theorem Heard.safe (h : Heard s s') (hs : Safe s) : Safe s' := by
  refine ⟨h.own hs.own, ?_, fun hw => ?_⟩
  · rw [h.doFloppy, h.timers]
    exact hs.one
  · rw [h.doFloppy, h.timers] at hw
    exact h.working (hs.working hw)

theorem Heard.free (h : Heard s s') (hs : Free s) : Free s' :=
  ⟨h.own hs.own, h.doFloppy.trans hs.doFloppy, h.timers.trans hs.timers⟩

theorem safe_recalibrateFloppy (h : OwnErrors s.decided) (hreset : s.reset = none) (ht : s.timers = [])
    (hc : ∀ i, c = .errors i → ∃ r q, s.queue = r :: q ∧ r.id = i) :
    Safe (s.recalibrateFloppy a c) := by
  obtain ⟨hreset', hrecal, hdo, htimers⟩ := decideFor_flags (c := c) (s := { s with
    recalibrate := none
    currentTrack := 0
    doFloppy := some .recal })
  refine safe_orReset (heard_outputBytes.safe ?_) (heard_outputBytes.timers.trans (htimers.trans ht))
  refine safe_of_recover ⟨fun i hm => ?_, decideFor_decided h hc⟩ (htimers.trans ht) (.inr hdo)
  rcases hm with hm | hm
  · cases (hreset'.trans hreset).symm.trans hm
  · cases hrecal.symm.trans hm

/-- The handler of a command for `CURRENT`. -/
theorem safe_command {h : Handler} (hw : Working s) (hd : OwnErrors s.decided) (ht : s.timers = []) :
    Safe { s with doFloppy := some h } :=
  ⟨own_of_unmarked hw.unmarked hd, .inr ht, fun _ => ⟨hw.queue, hw.unmarked⟩⟩

theorem avoids_setupRwFloppy (hw : Working s) (hd : OwnErrors s.decided) (ht : s.timers = []) :
    Avoids .null Safe (s.setupRwFloppy a) := by
  unfold State.setupRwFloppy
  split
  · next hq => exact absurd hq hw.queue
  · exact safe_orReset (heard_outputBytes.safe (safe_command hw hd ht))
      (heard_outputBytes.timers.trans ht)

theorem avoids_seekOrRw (hw : Working s) (hd : OwnErrors s.decided) (ht : s.timers = []) :
    Avoids .null Safe (s.seekOrRw a) := by
  unfold State.seekOrRw
  split
  · exact safe_orReset (heard_outputBytes.safe (safe_command hw hd ht))
      (heard_outputBytes.timers.trans ht)
  · exact avoids_setupRwFloppy hw hd ht

theorem avoids_transfer (hw : Working s) (hd : OwnErrors s.decided) (hdo : s.doFloppy = none)
    (ht : s.timers = []) : Avoids .null Safe (s.transfer a) := by
  obtain ⟨t, hwt, hdt, hdot, htt, heq⟩ : ∃ t : State, Working t ∧ OwnErrors t.decided ∧
      t.doFloppy = none ∧ t.timers = [] ∧ s.transfer a =
        if ({ t with curRate := some t.kind.rate } : State).reset.isSome then
          .ok ({ t with curRate := some t.kind.rate } : State).orReset
        else ({ t with curRate := some t.kind.rate } : State).seekOrRw a := by
    by_cases hspec : s.curSpec1 ≠ some s.kind.spec1
    · have hws : Working { s with curSpec1 := some s.kind.spec1 } := ⟨hw.queue, hw.unmarked⟩
      have hh : Heard { s with curSpec1 := some s.kind.spec1 }
        ({ s with curSpec1 := some s.kind.spec1 }.outputBytes a.specify) := heard_outputBytes
      refine ⟨_, hh.working hws, ?_, hh.doFloppy.trans hdo, hh.timers.trans ht, ?_⟩
      · rw [hh.decided]
        exact hd
      · unfold State.transfer
        rw [if_pos hspec]
    · refine ⟨s, hw, hd, hdo, ht, ?_⟩
      unfold State.transfer
      rw [if_neg hspec]
  rw [heq]
  split
  · refine safe_orReset ⟨own_of_unmarked hwt.unmarked hdt, .inr htt, fun hw' => ?_⟩ htt
    rcases hw' with hw' | hw' | hw'
    · exact absurd htt hw'
    · cases hdot.symm.trans hw'
    · cases hdot.symm.trans hw'
  · exact avoids_seekOrRw ⟨hwt.queue, hwt.unmarked⟩ hdt htt

/-- A timer for `CURRENT`. -/
theorem safe_timer {t : Timer} (hw : Working s) (hd : OwnErrors s.decided) (hdo : s.doFloppy = none)
    (ht : s.timers = []) : Safe { s with timers := s.timers ++ [t] } := by
  refine ⟨own_of_unmarked hw.unmarked hd, .inl ⟨hdo, ?_⟩, fun _ => ⟨hw.queue, hw.unmarked⟩⟩
  change (s.timers ++ [t]).length ≤ 1
  rw [ht]
  exact le_rfl

theorem avoids_floppyOn (hw : Working s) (hd : OwnErrors s.decided) (hdo : s.doFloppy = none)
    (ht : s.timers = []) : Avoids .null Safe (s.floppyOnInterrupt a) := by
  unfold State.floppyOnInterrupt
  split
  · exact avoids_transfer hw hd hdo ht
  · exact safe_timer hw hd hdo ht

theorem avoids_addFloppyOn (hw : Working s) (hd : OwnErrors s.decided) (hdo : s.doFloppy = none)
    (ht : s.timers = []) : Avoids .null Safe (s.addFloppyOn a) := by
  unfold State.addFloppyOn
  split
  · exact avoids_floppyOn hw hd hdo ht
  · exact safe_timer hw hd hdo ht

/-! ### `do_fd_request` -/

theorem avoids_fromRepeat : ∀ {q : List Request} {s : State}, (∀ i, ¬s.Marked i) →
    OwnErrors s.decided → s.doFloppy = none → s.timers = [] →
    Avoids .null Safe (fromRepeat behind a s q) := by
  intro q
  induction q with
  | nil =>
    intro s hun hd hdo ht
    refine ⟨own_of_unmarked hun hd, .inr ht, fun hw => ?_⟩
    rcases hw with hw | hw | hw
    · exact absurd ht hw
    · cases hdo.symm.trans hw
    · cases hdo.symm.trans hw
  | cons r q ih =>
    intro s hun hd hdo ht
    unfold fromRepeat
    split
    · exact nofun
    split
    · exact nofun
    dsimp only
    split
    · exact ih hun hd hdo ht
    split
    · exact nofun
    · exact avoids_addFloppyOn ⟨List.cons_ne_nil _ _, hun⟩ hd hdo ht

theorem avoids_doFdRequest (h : Free s) : Avoids .null Safe (s.doFdRequest behind a) := by
  unfold State.doFdRequest
  dsimp only
  split
  · next c hc =>
    refine safe_resetFloppy h.own.decided h.timers fun i hi => ?_
    subst hi
    exact h.own.marked i (.inl hc)
  next hreset =>
  split
  · next c hc =>
    refine safe_recalibrateFloppy h.own.decided hreset h.timers fun i hi => ?_
    subst hi
    exact h.own.marked i (.inr hc)
  · next hrecal =>
    refine avoids_fromRepeat (fun i hm => ?_) h.own.decided h.doFloppy h.timers
    rcases hm with hm | hm
    · cases hreset.symm.trans hm
    · cases hrecal.symm.trans hm

/-! ### Interrupts and timers -/

theorem avoids_endRequest {b : Bool} (hw : Working s) (hd : OwnErrors s.decided)
    (hdo : s.doFloppy = none) (ht : s.timers = []) : Avoids .null Free (s.endRequest b) := by
  unfold State.endRequest
  split
  · next hq => exact absurd hq hw.queue
  · exact ⟨own_of_unmarked hw.unmarked hd, hdo, ht⟩

/-- The errors of `CURRENT` decide, as long as it is not given up. -/
theorem avoids_badFlpIntr (hw : Working s) (hd : OwnErrors s.decided) (hdo : s.doFloppy = none)
    (ht : s.timers = []) (herr : ∀ r ∈ s.queue.head?, r.errors < maxErrors) :
    Avoids .null Free s.badFlpIntr := by
  unfold State.badFlpIntr
  split
  · next hq => exact absurd hq hw.queue
  next r q hq =>
  have hr : ¬maxErrors < r.errors + 1 := Nat.not_lt.2 (herr r (by rw [hq]; rfl))
  dsimp only
  rw [if_neg hr]
  have hown : ∀ t : State, t.queue = { r with errors := r.errors + 1 } :: q →
      (∀ i, t.Marked i → i = r.id) → t.decided = s.decided → Own t := fun t htq hm htd =>
    ⟨fun i hi => ⟨_, _, htq, (hm i hi).symm⟩, by rw [htd]; exact hd⟩
  change Avoids Fault.null Free (Except.ok (if maxErrors / 2 < r.errors + 1 then _ else _))
  split
  · refine ⟨hown _ rfl (fun i hi => ?_) rfl, hdo, ht⟩
    rcases hi with hi | hi
    · cases hi
      rfl
    · exact absurd (.inr hi) (hw.unmarked i)
  · refine ⟨hown _ rfl (fun i hi => ?_) rfl, hdo, ht⟩
    rcases hi with hi | hi
    · exact absurd (.inl hi) (hw.unmarked i)
    · cases hi
      rfl

theorem avoids_rwInterrupt (hw : Working s) (hd : OwnErrors s.decided) (hdo : s.doFloppy = none)
    (ht : s.timers = []) (herr : s.RwFails a → ∀ r ∈ s.queue.head?, r.errors < maxErrors) :
    Avoids .null Safe (s.rwInterrupt behind a) := by
  have hh : Heard s (s.result a).2 := heard_result
  have hwt := hh.working hw
  have hdt : OwnErrors (s.result a).2.decided := by
    rw [hh.decided]
    exact hd
  unfold State.rwInterrupt
  dsimp only
  cases hgood : (s.result a).2.rwGood (s.result a).1 with
  | true =>
    rw [if_pos rfl]
    exact (avoids_endRequest hwt hdt (hh.doFloppy.trans hdo) (hh.timers.trans ht)).bind
      fun t h => avoids_doFdRequest h
  | false =>
    rw [if_neg (by decide)]
    by_cases hst : (s.result a).2.st1 &&& 0x02 = 0
    · rw [if_neg (not_not.2 hst)]
      refine (avoids_badFlpIntr hwt hdt (hh.doFloppy.trans hdo) (hh.timers.trans ht) ?_).bind
        fun t h => avoids_doFdRequest h
      rw [hh.queue]
      exact herr ⟨hgood, hst⟩
    · rw [if_pos hst]
      exact (avoids_endRequest hwt hdt (hh.doFloppy.trans hdo) (hh.timers.trans ht)).bind
        fun t h => avoids_doFdRequest h

theorem avoids_seekInterrupt (hw : Working s) (hd : OwnErrors s.decided) (hdo : s.doFloppy = none)
    (ht : s.timers = []) (herr : s.SeekFails a → ∀ r ∈ s.queue.head?, r.errors < maxErrors) :
    Avoids .null Safe (s.seekInterrupt behind a) := by
  have hh : Heard s ((s.outputBytes a.sense).result a).2 := heard_outputBytes.trans heard_result
  have hwt := hh.working hw
  have hdt : OwnErrors ((s.outputBytes a.sense).result a).2.decided := by
    rw [hh.decided]
    exact hd
  unfold State.seekInterrupt
  dsimp only
  cases hgood : ((s.outputBytes a.sense).result a).2.seekGood ((s.outputBytes a.sense).result a).1 with
  | true =>
    rw [if_pos rfl]
    exact avoids_setupRwFloppy ⟨hwt.queue, hwt.unmarked⟩ hdt (hh.timers.trans ht)
  | false =>
    rw [if_neg (by decide)]
    refine (avoids_badFlpIntr hwt hdt (hh.doFloppy.trans hdo) (hh.timers.trans ht) ?_).bind
      fun t h => avoids_doFdRequest h
    rw [hh.queue]
    exact herr hgood

/-- `reset` or `recalibrate` is changed, but not for errors. -/
theorem Free.unflag (h : Free s) (hq : s'.queue = s.queue) (hm : ∀ i, s'.Marked i → s.Marked i)
    (hdo : s'.doFloppy = s.doFloppy) (ht : s'.timers = s.timers) (hd : s'.decided = s.decided) :
    Free s' := by
  refine ⟨⟨fun i hi => ?_, ?_⟩, hdo.trans h.doFloppy, ht.trans h.timers⟩
  · rw [hq]
    exact h.own.marked i (hm i hi)
  · rw [hd]
    exact h.own.decided

theorem avoids_recalInterrupt (h : Free s) : Avoids .null Safe (s.recalInterrupt behind a) := by
  have hh : Heard s ((s.outputBytes a.sense).result a).2 := heard_outputBytes.trans heard_result
  have hf := hh.free h
  unfold State.recalInterrupt
  dsimp only
  refine avoids_doFdRequest ?_
  split
  · refine hf.unflag rfl (fun i hi => ?_) rfl rfl rfl
    rcases hi with hi | hi
    · exact .inl hi
    · cases hi
  · refine hf.unflag rfl (fun i hi => ?_) rfl rfl rfl
    rcases hi with hi | hi
    · cases hi
    · exact .inr hi

theorem avoids_resetInterrupt (h : Free s) : Avoids .null Safe (s.resetInterrupt behind a) := by
  have hh : Heard s ((s.outputBytes a.sense).result a).2 := heard_outputBytes.trans heard_result
  unfold State.resetInterrupt
  exact avoids_doFdRequest (heard_outputBytes.free (hh.free h))

theorem safe_unexpected (h : Safe s) : Safe (s.unexpectedFloppyInterrupt a) := by
  have hh : Heard s ((s.outputBytes a.sense).result a).2 := heard_outputBytes.trans heard_result
  obtain ⟨hown, hone, hwork⟩ := hh.safe h
  have hsafe : ∀ t : State, t.queue = ((s.outputBytes a.sense).result a).2.queue →
      (∀ i, t.Marked i → ((s.outputBytes a.sense).result a).2.Marked i) →
      t.doFloppy = ((s.outputBytes a.sense).result a).2.doFloppy →
      t.timers = ((s.outputBytes a.sense).result a).2.timers →
      t.decided = ((s.outputBytes a.sense).result a).2.decided → Safe t := by
    intro t hq hm hdo ht hd
    refine ⟨⟨fun i hi => ?_, ?_⟩, ?_, fun hw => ?_⟩
    · rw [hq]
      exact hown.marked i (hm i hi)
    · rw [hd]
      exact hown.decided
    · rw [hdo, ht]
      exact hone
    · rw [hdo, ht] at hw
      obtain ⟨hne, hun⟩ := hwork hw
      exact ⟨by rwa [hq], fun i hi => hun i (hm i hi)⟩
  unfold State.unexpectedFloppyInterrupt
  dsimp only
  split
  · refine hsafe _ rfl (fun i hi => ?_) rfl rfl rfl
    rcases hi with hi | hi
    · exact .inl hi
    · cases hi
  · refine hsafe _ rfl (fun i hi => ?_) rfl rfl rfl
    rcases hi with hi | hi
    · cases hi
    · exact .inr hi

theorem avoids_interrupt (h : Safe s) (hok : s.Careful (.interrupt a)) :
    Avoids .null Safe (s.interrupt behind a) := by
  have hown : Own { s with doFloppy := none } := ⟨h.own.marked, h.own.decided⟩
  unfold State.interrupt
  dsimp only
  cases hdo : s.doFloppy with
  | none =>
    refine safe_unexpected (s := { s with doFloppy := none }) ⟨hown, ?_, fun hw => ?_⟩
    · exact h.one.imp (fun h1 => ⟨rfl, h1.2⟩) id
    · rcases hw with hw | hw | hw
      · obtain ⟨hne, hun⟩ := h.working (.inl hw)
        exact ⟨hne, hun⟩
      · cases hw
      · cases hw
  | some handler =>
    have ht : s.timers = [] := by
      rcases h.one with ⟨hn, -⟩ | ht
      · rw [hdo] at hn
        cases hn
      · exact ht
    cases handler with
    | rw =>
      obtain ⟨hne, hun⟩ := h.working (.inr (.inl hdo))
      exact avoids_rwInterrupt (s := { s with doFloppy := none }) ⟨hne, hun⟩ h.own.decided rfl ht
        fun hf => hok (.inl ⟨hdo, hf⟩)
    | seek =>
      obtain ⟨hne, hun⟩ := h.working (.inr (.inr hdo))
      exact avoids_seekInterrupt (s := { s with doFloppy := none }) ⟨hne, hun⟩ h.own.decided rfl ht
        fun hf => hok (.inr ⟨hdo, hf⟩)
    | recal => exact avoids_recalInterrupt ⟨hown, rfl, ht⟩
    | reset => exact avoids_resetInterrupt ⟨hown, rfl, ht⟩

theorem avoids_timer {n : ℕ} {t : Timer} (h : Safe s) (ht : s.timers[n]? = some t) :
    Avoids .null Safe ({ s with timers := s.timers.eraseIdx n }.fire a t) := by
  have hne : s.timers ≠ [] := by
    intro h0
    rw [h0] at ht
    cases ht
  obtain ⟨hq, hun⟩ := h.working (.inl hne)
  obtain ⟨hdo, hlen⟩ := h.one.resolve_right hne
  have herase : s.timers.eraseIdx n = [] := by
    have hlt : n < s.timers.length := (List.getElem?_eq_some_iff.1 ht).1
    apply List.eq_nil_of_length_eq_zero
    rw [List.length_eraseIdx_of_lt hlt]
    omega
  cases t with
  | floppyOn =>
    exact avoids_floppyOn (s := { s with timers := s.timers.eraseIdx n }) ⟨hq, hun⟩ h.own.decided hdo
      herase
  | transfer =>
    exact avoids_transfer (s := { s with timers := s.timers.eraseIdx n }) ⟨hq, hun⟩ h.own.decided hdo
      herase

theorem avoids_add {minor : Byte} {cmd : Cmd} {block buffer : Word} {k : ℕ} (h : Safe s)
    (hok : s.Careful (.add minor cmd block buffer k a)) :
    Avoids .null Safe (s.add behind minor cmd block buffer k a) := by
  unfold State.add
  dsimp only
  split
  · next hq =>
    obtain ⟨hdo, ht⟩ := hok hq
    refine avoids_doFdRequest ⟨⟨fun i hi => ?_, h.own.decided⟩, hdo, ht⟩
    exact absurd hi (h.own.not_marked_of_nil hq)
  · next c q hq =>
    refine ⟨⟨fun i hi => ?_, h.own.decided⟩, h.one, fun hw => ?_⟩
    · obtain ⟨r, q', hq', hid⟩ := h.own.marked i hi
      cases hq.symm.trans hq'
      exact ⟨_, _, rfl, hid⟩
    · exact ⟨List.cons_ne_nil _ _, (h.working hw).unmarked⟩

/-- One step. -/
theorem avoids_next {e : Event} {x : Except Fault State} (h : Safe s) (hok : s.Careful e)
    (hx : s.next behind e = some x) : Avoids .null Safe x := by
  cases e with
  | add minor cmd block buffer k a =>
    cases hx
    exact avoids_add h hok
  | timer n a =>
    obtain ⟨t, ht, rfl⟩ := Option.map_eq_some_iff.1 hx
    exact avoids_timer h ht
  | interrupt a =>
    cases hx
    exact avoids_interrupt h hok

theorem reachable_safe (h : (floppies behind).ReachableWhen State.Careful s) : Safe s := by
  refine h.invariant (I := Safe) ?_ fun s e s' hI hok hs =>
    (avoids_next hI hok hs : Avoids Fault.null Safe (.ok s'))
  rintro s rfl
  refine ⟨⟨fun i hi => ?_, fun x hx => ?_⟩, .inr rfl, fun hw => ?_⟩
  · rcases hi with hi | hi <;> cases hi
  · cases hx
  · rcases hw with hw | hw | hw
    · exact absurd rfl hw
    · cases hw
    · cases hw

end Floppies

end Floppy

/-! ## The hard disk -/

namespace Hd

open Blk (Cmd)

/-- An error of the request has set `reset` or `recalibrate`. -/
def State.Marked (s : State) (i : ℕ) : Prop :=
  s.reset = some (.errors i) ∨ s.recalibrate = some (.errors i)

/-- A request that is given up for its errors is not the last one, and its errors have not left a
recalibration to be done. One that is rejected has left nothing to be done, and if it is the last one, no
handler is set. -/
def State.Careful (d : Disks) (s : State) : Event → Prop
  | .add .. => True
  | .interrupt ok => ok = false → s.doHd ≠ none → ∀ r q, s.queue = r :: q → maxErrors ≤ r.errors + 1 →
      q ≠ [] ∧ ∀ i, s.recalibrate ≠ some (.errors i)
  | .turn _ drq => ∀ r q, s.queue = r :: q →
      (¬r.Inside d → (∀ i, ¬s.Marked i) ∧ (q = [] → s.doHd = none)) ∧
      (r.Inside d → s.reset = none → s.recalibrate = none → r.cmd = .write → drq = false →
        maxErrors ≤ r.errors + 1 → q ≠ [])

/-- Only the errors of `CURRENT` count; a request that waits had none. -/
structure Own (s : State) : Prop where
  marked : ∀ i, s.Marked i → ∃ r q, s.queue = r :: q ∧ r.id = i
  decided : Floppy.OwnErrors s.decided
  waiting : ∀ r q, s.queue = r :: q → ∀ c ∈ q, c.errors = 0

structure Safe (s : State) : Prop where
  own : Own s
  /-- No handler is set when there is no request. -/
  doHd : s.queue = [] → s.doHd = none
  reset : s.atRepeat = false → s.doHd ≠ none → s.reset = none
  recalibrate : s.atRepeat = false → s.doHd = some .read ∨ s.doHd = some .write →
    s.recalibrate = none

section Disk

variable {d : Disks} {s s' t : State} {r : Request} {q : List Request} {ok : Bool}

theorem safe_atRepeat (hown : Own s) (hdo : s.queue = [] → s.doHd = none) (hrep : s.atRepeat = true) :
    Safe s := by
  refine ⟨hown, hdo, fun hf => ?_, fun hf => ?_⟩
  · rw [hrep] at hf
    cases hf
  · rw [hrep] at hf
    cases hf

theorem unmarked (hreset : s.reset = none) (hrecal : s.recalibrate = none) (i : ℕ) :
    ¬s.Marked i := by
  rintro (hi | hi)
  · cases hreset.symm.trans hi
  · cases hrecal.symm.trans hi

/-- `CURRENT` is completed, and has left nothing to be done. -/
theorem Own.next (h : Own s) (hq : s.queue = r :: q) (hun : ∀ i, ¬s.Marked i) (hq' : s'.queue = q)
    (hreset : s'.reset = s.reset) (hrecal : s'.recalibrate = s.recalibrate)
    (hd : s'.decided = s.decided) : Own s' := by
  have hwait := h.waiting r q hq
  refine ⟨fun i hi => absurd ?_ (hun i), ?_, fun r' q' hr' c hc => hwait c ?_⟩
  · unfold State.Marked at hi
    rwa [hreset, hrecal] at hi
  · rw [hd]
    exact h.decided
  · rw [← hq', hr']
    exact List.mem_cons_of_mem _ hc

/-- `CURRENT` goes on, and nothing is to be done. -/
theorem Own.goOn {r' : Request} (h : Own s) (hq : s.queue = r :: q) (hq' : s'.queue = r' :: q)
    (hreset : s'.reset = none) (hrecal : s'.recalibrate = none) (hd : s'.decided = s.decided) :
    Own s' := by
  have hwait := h.waiting r q hq
  refine ⟨fun i hi => absurd hi (unmarked hreset hrecal i), ?_, fun r₁ q₁ hr₁ => ?_⟩
  · rw [hd]
    exact h.decided
  · obtain ⟨rfl, rfl⟩ := List.cons.inj (hr₁.symm.trans hq')
    exact hwait

/-- An error, when the controller has been reset. -/
theorem avoids_badRwIntr (h : Own s) (hq : s.queue = r :: q) (hreset : s.reset = none)
    (hmax : maxErrors ≤ r.errors + 1 → q ≠ [] ∧ ∀ i, s.recalibrate ≠ some (.errors i)) :
    Avoids .null (fun t => Own t ∧ t.queue ≠ [] ∧ t.atRepeat = s.atRepeat) s.badRwIntr := by
  have hwait := h.waiting r q hq
  have hown : ∀ i, s.recalibrate = some (.errors i) → i = r.id := fun i hi => by
    obtain ⟨r', q', hq', hid⟩ := h.marked i (.inr hi)
    cases hq.symm.trans hq'
    exact hid.symm
  cases hx : s.badRwIntr with
  | error f =>
    rintro rfl
    unfold State.badRwIntr at hx
    rw [hq] at hx
    dsimp only at hx
    split at hx
    · next hge =>
      obtain ⟨c, q', rfl⟩ := List.exists_cons_of_ne_nil (hmax hge).1
      cases hx
    · cases hx
  | ok t =>
    obtain ⟨r', q', hq', hcase⟩ := badRwIntr_ok hx
    obtain ⟨rfl, rfl⟩ := List.cons.inj (hq.symm.trans hq')
    obtain ⟨-, rfl⟩ | ⟨hge, c, q', rfl, rfl⟩ := hcase
    · refine ⟨⟨fun i hi => ⟨r.fail, q, rfl, ?_⟩, h.decided, fun r₁ q₁ hr₁ => ?_⟩,
        List.cons_ne_nil _ _, rfl⟩
      · change r.id = i
        rcases hi with hi | hi
        · dsimp only at hi
          split at hi
          · cases hi
            rfl
          · cases hreset.symm.trans hi
        · exact (hown i hi).symm
      · obtain ⟨rfl, rfl⟩ := List.cons.inj hr₁
        exact hwait
    · have hc : c.errors = 0 := hwait c List.mem_cons_self
      refine ⟨⟨fun i hi => ?_, h.decided, fun r₁ q₁ hr₁ => ?_⟩, List.cons_ne_nil _ _, rfl⟩
      · rcases hi with hi | hi
        · dsimp only at hi
          rw [hc, if_neg (by decide)] at hi
          cases hreset.symm.trans hi
        · exact absurd hi ((hmax hge).2 i)
      · obtain ⟨rfl, rfl⟩ := List.cons.inj hr₁
        exact fun x hx => hwait x (List.mem_cons_of_mem _ hx)

theorem avoids_interrupt (h : Safe s) (hrep : s.atRepeat = false) (hok : s.Careful d (.interrupt ok)) :
    Avoids .null Safe (s.interrupt d ok) := by
  unfold State.interrupt
  dsimp only
  cases hdo : s.doHd with
  | none =>
    refine ⟨⟨h.own.marked, h.own.decided, h.own.waiting⟩, fun _ => rfl, fun _ hn => absurd rfl hn, ?_⟩
    intro _ hn
    rcases hn with hn | hn <;> cases hn
  | some handler =>
    have hne : s.doHd ≠ none := by
      rw [hdo]
      exact Option.some_ne_none _
    obtain ⟨r, q, hq⟩ := List.exists_cons_of_ne_nil (mt h.doHd hne)
    have hreset := h.reset hrep hne
    -- an error is the same for all
    have herr : ok = false → Avoids .null Safe (do
        let s ← { s with doHd := none }.badRwIntr
        pure { s with atRepeat := true }) := fun hf =>
      (avoids_badRwIntr (s := { s with doHd := none }) ⟨h.own.marked, h.own.decided, h.own.waiting⟩ hq
        hreset (hok hf hne r q hq)).bind fun t ht =>
          safe_atRepeat ⟨ht.1.marked, ht.1.decided, ht.1.waiting⟩ (fun hn => absurd hn ht.2.1) rfl
    cases handler with
    | recal =>
      cases ok with
      | false => exact herr rfl
      | true =>
        refine safe_atRepeat (s := { s with doHd := none, atRepeat := true })
          ⟨h.own.marked, h.own.decided, h.own.waiting⟩ (fun _ => rfl) rfl
    | read =>
      have hrecal := h.recalibrate hrep (.inl hdo)
      cases ok with
      | false => exact herr rfl
      | true =>
        unfold State.readIntr
        dsimp only [Bool.not_true]
        rw [if_neg (by decide), hq]
        dsimp only
        split
        · exact ⟨h.own.goOn hq rfl hreset hrecal rfl, fun hn => (by cases hn), fun _ _ => hreset,
            fun _ _ => hrecal⟩
        · exact safe_atRepeat (h.own.next hq (unmarked hreset hrecal) rfl rfl rfl rfl)
            (fun _ => rfl) rfl
    | write =>
      have hrecal := h.recalibrate hrep (.inr hdo)
      cases ok with
      | false => exact herr rfl
      | true =>
        unfold State.writeIntr
        dsimp only [Bool.not_true]
        rw [if_neg (by decide), hq]
        dsimp only
        split
        · exact ⟨h.own.goOn hq rfl hreset hrecal rfl, fun hn => (by cases hn), fun _ _ => hreset,
            fun _ _ => hrecal⟩
        · exact safe_atRepeat (h.own.next hq (unmarked hreset hrecal) rfl rfl rfl rfl)
            (fun _ => rfl) rfl

/-- After a command of `do_hd_request`; what has set `reset` or `recalibrate` may be acted on. -/
theorem safe_commanded {l : List (ℕ × Cause)} (h : Own s) (hq : s.queue = r :: q)
    (hq' : s'.queue = s.queue) (hreset : s'.reset = none)
    (hm : ∀ i, s'.recalibrate = some (.errors i) → s.Marked i)
    (hrecal : s'.recalibrate = none ∨ s'.doHd = some .recal) (hd : s'.decided = s.decided ++ l)
    (hl : ∀ x ∈ l, x.1 = r.id ∧ ∀ i, x.2 = .errors i → s.Marked i) : Safe s' := by
  have hid : ∀ i, s.Marked i → r.id = i := fun i hi => by
    obtain ⟨r', q', hr', hid⟩ := h.marked i hi
    cases hq.symm.trans hr'
    exact hid
  refine ⟨⟨fun i hi => ?_, ?_, ?_⟩, fun hn => ?_, fun _ _ => hreset, fun _ hn => ?_⟩
  · rw [hq']
    rcases hi with hi | hi
    · cases hreset.symm.trans hi
    · exact h.marked i (hm i hi)
  · rw [hd]
    intro x hx i hi
    rcases List.mem_append.1 hx with hx | hx
    · exact h.decided x hx i hi
    · rw [(hl x hx).1]
      exact hid i ((hl x hx).2 i hi)
  · rw [hq']
    exact h.waiting
  · rw [hq', hq] at hn
    cases hn
  · refine hrecal.resolve_right fun hrec => ?_
    rcases hn with hn | hn <;> cases hrec.symm.trans hn

theorem avoids_turn {ready drq : Bool} (hd : d.Valid) (hsized : ∀ r ∈ s.queue, r.Sized) (h : Safe s)
    (hrep : s.atRepeat = true) (hok : s.Careful d (.turn ready drq)) :
    Avoids .null Safe (s.doHdRequest d ready drq) := by
  cases hq : s.queue with
  | nil =>
    have heq : s.doHdRequest d ready drq = .ok { s with atRepeat := false } := by
      unfold State.doHdRequest
      rw [hq]
    rw [heq]
    refine ⟨⟨h.own.marked, h.own.decided, h.own.waiting⟩, h.doHd, fun _ hn => ?_, fun _ hn => ?_⟩
    · exact absurd (h.doHd hq) hn
    · rcases hn with hn | hn <;> cases (h.doHd hq).symm.trans hn
  | cons r q =>
    have hr : r.Sized := hsized r (hq ▸ List.mem_cons_self)
    obtain ⟨hreject, hrefuse⟩ := hok r q hq
    by_cases hin : r.Inside d
    · have hi := doHdRequest_issues ready drq hd hr hq hin
      obtain ⟨o, ho⟩ : ∃ o, o = s.doHdRequest d ready drq := ⟨_, rfl⟩
      rw [← ho] at hi ⊢
      cases hi with
      | notReady => exact nofun
      | resets g c _ hreset =>
        refine safe_commanded h.own hq rfl rfl (fun i hi => .inl ?_) (.inr rfl) rfl
          (List.forall_mem_singleton.2 ⟨rfl, fun i hi => .inl ?_⟩)
        · exact hreset.trans hi
        · rw [hreset]
          exact congrArg some hi
      | recalibrates g c _ hreset hrecal =>
        refine safe_commanded h.own hq rfl hreset (fun i hi => ?_) (.inr rfl) rfl
          (List.forall_mem_singleton.2 ⟨rfl, fun i hi => .inr ?_⟩)
        · cases hi
        · rw [hrecal]
          exact congrArg some hi
      | reads g _ hreset hrecal =>
        exact safe_commanded h.own hq rfl hreset (fun i hi => .inr hi) (.inl hrecal)
          (List.append_nil _).symm (fun x hx => by cases hx)
      | writes g _ hreset hrecal =>
        exact safe_commanded h.own hq rfl hreset (fun i hi => .inr hi) (.inl hrecal)
          (List.append_nil _).symm (fun x hx => by cases hx)
      | refuses g _ hreset hrecal hcmd _ hdrq =>
        have hmax : maxErrors ≤ r.errors + 1 → q ≠ [] ∧ ∀ i, s.recalibrate ≠ some (.errors i) :=
          fun hge => ⟨hrefuse hin hreset hrecal hcmd hdrq hge, fun i hi => by cases hrecal.symm.trans hi⟩
        have hbad := avoids_badRwIntr (s := s.commanded g .write)
          ⟨h.own.marked, h.own.decided, h.own.waiting⟩ hq hreset hmax
        cases hx : (s.commanded g .write).badRwIntr with
        | error f =>
          rw [hx] at hbad
          exact hbad
        | ok t =>
          rw [hx] at hbad
          exact safe_atRepeat hbad.1 (fun hn => absurd hn hbad.2.1) (hbad.2.2.trans hrep)
    · obtain ⟨hun, hlast⟩ := hreject hin
      rw [doHdRequest_rejects hr hq hin]
      unfold State.endRequest
      rw [hq]
      exact safe_atRepeat (h.own.next hq hun rfl rfl rfl rfl) hlast hrep

theorem safe_add {minor : Byte} {cmd : Cmd} {block buffer : Word} {k : ℕ} (h : Safe s) :
    Safe (s.add minor cmd block buffer k) := by
  unfold State.add
  dsimp only
  split
  · next hq =>
    refine safe_atRepeat ⟨fun i hi => ?_, h.own.decided, fun r q hr c hc => ?_⟩ (fun hn => ?_) rfl
    · obtain ⟨r, q, hr, -⟩ := h.own.marked i hi
      cases hq.symm.trans hr
    · cases hr
      cases hc
    · cases hn
  · next c q hq =>
    refine ⟨⟨fun i hi => ?_, h.own.decided, fun r₁ q₁ hr₁ x hx => ?_⟩, fun hn => ?_, h.reset,
      h.recalibrate⟩
    · obtain ⟨r, q', hr, hid⟩ := h.own.marked i hi
      cases hq.symm.trans hr
      exact ⟨c, _, rfl, hid⟩
    · have hwait := h.own.waiting c q hq
      cases hr₁
      rcases List.mem_append.1 hx with hx | hx
      · exact hwait x (List.mem_of_mem_take hx)
      · rcases List.mem_cons.1 hx with rfl | hx
        · rfl
        · exact hwait x (List.mem_of_mem_drop hx)
    · cases hn

/-- One step. -/
theorem avoids_next {e : Event} {x : Except Fault State} (hd : d.Valid)
    (hsized : ∀ r ∈ s.queue, r.Sized) (h : Safe s) (hok : s.Careful d e) (hx : s.next d e = some x) :
    Avoids .null Safe x := by
  obtain ⟨minor, cmd, block, buffer, k, rfl, -, rfl⟩ | ⟨ready, drq, rfl, hrep, rfl⟩ |
    ⟨ok, rfl, hrep, rfl⟩ := State.next_cases hx
  · exact safe_add h
  · exact avoids_turn hd hsized h hrep hok
  · exact avoids_interrupt h hrep hok

theorem reachable_safe (hd : d.Valid)
    (h : (disk d).ReachableWhen (fun s e => s.Small e ∧ s.Careful d e) s) :
    (∀ r ∈ s.queue, r.Sized) ∧ Safe s := by
  refine h.invariant (I := fun s => (∀ r ∈ s.queue, r.Sized) ∧ Safe s) ?_ ?_
  · rintro s rfl
    refine ⟨fun r hr => (by cases hr),
      ⟨fun i hi => ?_, fun x hx => (by cases hx), fun r q hq => (by cases hq)⟩,
      fun _ => rfl, fun _ hn => absurd rfl hn, fun _ hn => ?_⟩
    · rcases hi with hi | hi <;> cases hi
    · rcases hn with hn | hn <;> cases hn
  · rintro s e s' ⟨hsized, hI⟩ hok hs
    exact ⟨sized_next hd hsized hok.1 hs,
      (avoids_next hd hsized hI hok.2 hs : Avoids Fault.null Safe (.ok s'))⟩

end Disk

end Hd

/-! ## Both drivers -/

section Drivers

open Blk (Cmd)
open Hd (Disks Cause Fault disk smallDisk smallDisk_valid)
open Floppy (OwnErrors floppies Answer)

/-- **Requests that are done with.** In every run whose steps are careful, no handler uses a null
`CURRENT`, and the hardware is reset or recalibrates for a request only for its own errors, or for none.
The handlers use no request but `CURRENT`. -/
theorem drivers_let_go {d : Disks} (hd : d.Valid) :
    (∀ s, (disk d).ReachableWhen (fun s e => s.Small e ∧ s.Careful d e) s →
      OwnErrors s.decided ∧ ∀ e, s.Careful d e → s.next d e ≠ some (.error .null)) ∧
    ∀ behind s, (floppies behind).ReachableWhen Floppy.State.Careful s →
      OwnErrors s.decided ∧ ∀ e, s.Careful e → s.next behind e ≠ some (.error .null) := by
  refine ⟨fun s hs => ?_, fun behind s hs => ?_⟩
  · obtain ⟨hsized, hsafe⟩ := Hd.reachable_safe hd hs
    exact ⟨hsafe.own.decided, fun e he hx => (Hd.avoids_next hd hsized hsafe he hx).ne_bad rfl⟩
  · have hsafe := Floppy.reachable_safe hs
    exact ⟨hsafe.own.decided, fun e he hx => (Floppy.avoids_next hsafe he hx).ne_bad rfl⟩

/-- The hardware takes all commands, and no time. -/
def answer (reply : ℕ) (st0 : Hd.Byte) : Answer where
  sense := true
  reply := some reply
  st0 := st0
  st1 := 0
  st2 := 0
  setup := true
  specify := true
  recalibrate := true
  command := true
  ticks := 0
  selected := true

/-- Two requests for a disk of 1.44 MB, and nine errors; after the first four the controller
recalibrates, and after the others it is reset before. -/
def nineErrors : List Floppy.Event :=
  [.add 28 .read 0 0 0 (answer 2 0x20), .add 28 .read 1 0 0 (answer 2 0x20)] ++
    (List.replicate 4 [.interrupt (answer 0 0), .interrupt (answer 2 0x20)]).flatten ++
    (List.replicate 4 [.interrupt (answer 0 0), .interrupt (answer 2 0x20),
      .interrupt (answer 2 0x20)]).flatten ++ [.interrupt (answer 0 0)]

/-- A step that the driver survives. -/
def Floppy.State.go (s : Floppy.State) (e : Floppy.Event) : Option Floppy.State :=
  match s.next (fun _ => ⟨0, 0, 0, 0, 0, 0⟩) e with
  | some (.ok s') => some s'
  | _ => none

theorem Floppy.next_of_go {s s' : Floppy.State} {e : Floppy.Event} (h : s.go e = some s') :
    s.next (fun _ => ⟨0, 0, 0, 0, 0, 0⟩) e = some (.ok s') := by
  unfold Floppy.State.go at h
  split at h
  · next t ht =>
    cases h
    exact ht
  · cases h

/-- A step in which no request gets its last error, and none is rejected. -/
def Hd.State.calm (d : Disks) (s : Hd.State) (e : Hd.Event) : Bool :=
  match e with
  | .add .. => true
  | .interrupt ok => ok || s.queue.all fun r => decide (r.errors + 1 < Hd.maxErrors)
  | .turn _ _ => s.queue.all fun r => decide (r.errors + 1 < Hd.maxErrors ∧ r.Inside d)

theorem Hd.careful_of_calm {d : Disks} {s : Hd.State} {e : Hd.Event} (h : s.calm d e = true) :
    s.Careful d e := by
  cases e with
  | add minor cmd block buffer k => trivial
  | interrupt ok =>
    intro hok _ r q hq hmax
    rw [hok] at h
    have hr := of_decide_eq_true (List.all_eq_true.1 h r (hq ▸ List.mem_cons_self))
    omega
  | turn ready drq =>
    intro r q hq
    obtain ⟨hr, hin⟩ := of_decide_eq_true (List.all_eq_true.1 h r (hq ▸ List.mem_cons_self))
    exact ⟨fun hout => absurd hin hout, fun _ _ _ _ _ hmax => by omega⟩

/-- A step in which no request gets its last error, and none comes in to an empty queue while the driver
works. -/
def Floppy.State.calm (s : Floppy.State) (e : Floppy.Event) : Bool :=
  match e with
  | .add .. => decide (s.queue = [] → s.doFloppy = none ∧ s.timers = [])
  | .timer .. => true
  | .interrupt _ => s.queue.all fun r => decide (r.errors < Floppy.maxErrors)

theorem Floppy.careful_of_calm {s : Floppy.State} {e : Floppy.Event} (h : s.calm e = true) :
    s.Careful e := by
  cases e with
  | add minor cmd block buffer k a =>
    exact of_decide_eq_true (p := s.queue = [] → s.doFloppy = none ∧ s.timers = []) h
  | timer n a => trivial
  | interrupt a =>
    exact fun _ r hr => of_decide_eq_true (List.all_eq_true.1 h r (List.mem_of_mem_head? hr))

/-- Two requests for the hard disk: the first gets five errors, for which the disk is reset and
recalibrates, and is then read. -/
def fiveErrors : List Hd.Event :=
  [.add 1 .read 0 0 0, .turn true true, .add 1 .read 1 0x400 0, .interrupt true] ++
    [.turn true true, .interrupt true] ++
    (List.replicate 4 [.turn true true, .interrupt false]).flatten ++
    (List.replicate 2 [.turn true true, .interrupt true]).flatten ++
    [.turn true true, .interrupt false] ++
    (List.replicate 2 [.turn true true, .interrupt true]).flatten ++
    [.turn true true, .interrupt true, .interrupt true]

/-- Two requests for a floppy disk: the first gets an error, for which the controller recalibrates, and
both are then read. -/
def oneError : List Floppy.Event :=
  [.add 28 .read 0 0 0 (answer 2 0x20), .add 28 .read 1 0 0 (answer 2 0x20), .interrupt (answer 0 0),
    .interrupt (answer 2 0x20), .interrupt (answer 7 0), .interrupt (answer 7 0)]

theorem drivers_let_go_retried :
    (∃ s, (s.ended.map (fun x => (x.1.id, x.2, x.1.account.errors)) = [(0, true, 5)] ∧
        s.queue.map (·.id) = [1] ∧ ((0, Cause.errors 0) : ℕ × Cause) ∈ s.decided) ∧
      (disk smallDisk).ReachableWhen (fun s e => s.Small e ∧ s.Careful smallDisk e) s ∧
      OwnErrors s.decided ∧ ∀ e, s.Careful smallDisk e → s.next smallDisk e ≠ some (.error .null)) ∧
    ∃ s, (s.ended.map (fun x => (x.1.id, x.2, x.1.errors)) = [(0, true, 1), (1, true, 0)] ∧
        ((0, Cause.errors 0) : ℕ × Cause) ∈ s.decided) ∧
      (floppies fun _ => ⟨0, 0, 0, 0, 0, 0⟩).ReachableWhen Floppy.State.Careful s ∧
      OwnErrors s.decided ∧
        ∀ e, s.Careful e → s.next (fun _ => ⟨0, 0, 0, 0, 0, 0⟩) e ≠ some (.error .null) := by
  constructor
  · have hrun : (System.execWhen (Hd.State.go smallDisk)
        (fun s e => s.Small e ∧ s.calm smallDisk e = true) .boot fiveErrors).any
        (fun s => decide (s.ended.map (fun x => (x.1.id, x.2, x.1.account.errors)) = [(0, true, 5)] ∧
          s.queue.map (·.id) = [1] ∧ ((0, Cause.errors 0) : ℕ × Cause) ∈ s.decided)) = true := by
      decide +kernel
    obtain ⟨s, hs, hP⟩ := Hd.exec_any hrun
    have hs' : (disk smallDisk).ReachableWhen (fun s e => s.Small e ∧ s.Careful smallDisk e) s :=
      hs.mono fun _ _ h => ⟨h.1, Hd.careful_of_calm h.2⟩
    exact ⟨s, of_decide_eq_true hP, hs', (drivers_let_go smallDisk_valid).1 s hs'⟩
  · have hrun : (System.execWhen Floppy.State.go (fun s e => s.calm e = true) .boot oneError).any
        (fun s => decide (s.ended.map (fun x => (x.1.id, x.2, x.1.errors)) = [(0, true, 1), (1, true, 0)] ∧
          ((0, Cause.errors 0) : ℕ × Cause) ∈ s.decided)) = true := by
      decide +kernel
    obtain ⟨s, hs, hP⟩ := (Option.any_eq_true _ _).1 hrun
    have hs' : (floppies fun _ => ⟨0, 0, 0, 0, 0, 0⟩).ReachableWhen (fun s e => s.calm e = true) s :=
      (System.ReachableWhen.init rfl).exec (fun _ _ _ h => Floppy.next_of_go h) hs
    have hs'' := hs'.mono fun _ _ => Floppy.careful_of_calm
    exact ⟨s, of_decide_eq_true hP, hs'', (drivers_let_go smallDisk_valid).2 _ s hs''⟩

/-- Six errors of the only request of the hard disk. -/
def sixErrors : List Hd.Event :=
  .add 1 .read 0 0 0 :: (List.replicate 6 [.turn true true, .interrupt false]).flatten ++
    [.turn true true]

/-- At the seventh error of the only request of the hard disk, `CURRENT` is null; after the ninth error of
a request for a floppy disk, the controller recalibrates for the next one. -/
theorem drivers_hold_on :
    (∃ s, (disk smallDisk).ReachableWhen Hd.State.Small s ∧
      s.next smallDisk (.interrupt false) = some (.error .null)) ∧
    ∃ behind s, (floppies behind).Reachable s ∧ ¬OwnErrors s.decided := by
  constructor
  · have hrun : (System.execWhen (Hd.State.go smallDisk) Hd.State.Small .boot sixErrors).any
        (fun s => decide (s.queue.map (·.errors) = [6] ∧ s.atRepeat = false ∧ s.doHd = some .recal)) =
          true := by
      decide +kernel
    obtain ⟨s, hs, hP⟩ := Hd.exec_any hrun
    obtain ⟨herr, hrep, hdo⟩ := of_decide_eq_true hP
    refine ⟨s, hs, ?_⟩
    obtain ⟨queue, reset, recalibrate, doHd, atRepeat, regs, moved, data, added, ended, decided⟩ := s
    cases hrep
    cases hdo
    cases queue with
    | nil => cases herr
    | cons r q =>
      obtain ⟨hr, hq⟩ := List.cons.inj herr
      obtain rfl := List.map_eq_nil_iff.1 hq
      have hge : Hd.maxErrors ≤ r.fail.errors := Nat.succ_le_succ hr.ge
      simp only [Hd.State.next, Hd.State.interrupt, Hd.State.recalIntr, Hd.State.badRwIntr]
      rw [if_neg (by decide), if_pos hge]
      rfl
  · refine ⟨fun _ => ⟨0, 0, 0, 0, 0, 0⟩, ?_⟩
    have hrun : (System.execWhen Floppy.State.go (fun _ _ => True) .boot nineErrors).any
        (fun s => decide (((1, Cause.errors 0) : ℕ × Cause) ∈ s.decided)) = true := by
      decide +kernel
    obtain ⟨s, hs, hP⟩ := (Option.any_eq_true _ _).1 hrun
    refine ⟨s, (System.ReachableWhen.init rfl).exec (fun _ _ _ h => Floppy.next_of_go h) hs, fun h => ?_⟩
    have hne := h (1, .errors 0) (of_decide_eq_true hP) 0 rfl
    cases hne

end Drivers

end Linux011
