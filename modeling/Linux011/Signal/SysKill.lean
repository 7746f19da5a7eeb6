import Linux011.Signal.Task

/-!
# `kill`

`sys_kill` and `send_sig` of `kernel/exit.c`. Its four loops are chained by `else`, and the last `else`
belongs to the `if` in the loop for `pid == -1`: that loop goes on as the last one after the first task
that it may signal, and there is no loop for `pid < -1`.

1. `Proc`, `sendSig`, `killLoop`, `killAll`, `sysKill`.
2. `killLoop_task`, `killLoop_retval`; `KillsAll`: what the loops do.
3. `Kills`: what `kill` should do. `FirstAt`: where the loop for `pid == -1` goes on as the last one.
   `sysKill_kills_iff`.
-/

namespace Linux011.Signal

/-! ## The code -/

/-- The fields of a task that `kill` looks at. -/
structure Proc where
  pid : ℤ
  pgrp : ℤ
  euid : BitVec 16
  signal : SigSet
  deriving DecidableEq

/-- An index into `task[]`. -/
abbrev Nr := Fin 64

inductive Errno
  | eperm
  | einval
  deriving DecidableEq

/-- `p->signal |= 1 << (sig-1)`. -/
def Proc.send (p : Proc) (sig : ℤ) : Proc := { p with signal := p.signal ||| 1 <<< (sig - 1).toNat }

/-- The test of `send_sig`. -/
def Proc.May (current : Proc) (priv : Bool) (p : Proc) : Prop :=
  priv = true ∨ current.euid = p.euid ∨ current.euid = 0

instance (current : Proc) (priv : Bool) (p : Proc) : Decidable (current.May priv p) :=
  inferInstanceAs (Decidable (_ ∨ _))

/-- `send_sig` -/
def sendSig (current : Proc) (sig : ℤ) (p : Option Proc) (priv : Bool) : Except Errno Proc :=
  match p with
  | none => .error .einval
  | some p =>
    if sig < 1 ∨ 32 < sig then .error .einval
    else if current.May priv p then .ok (p.send sig)
    else .error .eperm

/-- `task[]`, and `retval` of `sys_kill`. -/
structure Killing where
  task : Nr → Option Proc
  retval : Option Errno

/-- The slots from the last one down to `task[1]`. -/
def slots : List Nr := (List.finRange 64).tail.reverse

section Code

variable (current : Proc) (sig : ℤ)

/-- `if (err=send_sig(sig,*p,priv)) retval = err;` -/
def Killing.send (s : Killing) (p : Nr) (priv : Bool) : Killing :=
  match sendSig current sig (s.task p) priv with
  | .error e => { s with retval := some e }
  | .ok t => { s with task := Function.update s.task p (some t) }

/-- A loop over the tasks that meet `test`. -/
def killLoop (test : Proc → Bool) (priv : Bool) : List Nr → Killing → Killing
  | [], s => s
  | p :: ps, s =>
    killLoop test priv ps (if (s.task p).any test then s.send current sig p priv else s)

/-- The loop for `pid == -1`. It has an `else`. -/
def killAll (pid : ℤ) : List Nr → Killing → Killing
  | [], s => s
  | p :: ps, s =>
    match sendSig current sig (s.task p) false with
    | .error e => killAll pid ps { s with retval := some e }
    | .ok t =>
      killLoop current sig (fun t => t.pgrp == -pid) false ps
        { s with task := Function.update s.task p (some t) }

/-- `sys_kill` -/
def sysKill (task : Nr → Option Proc) (pid : ℤ) : Killing :=
  let s : Killing := ⟨task, none⟩
  if pid = 0 then killLoop current sig (fun t => t.pgrp == current.pid) true slots s
  else if 0 < pid then killLoop current sig (fun t => t.pid == pid) false slots s
  else if pid = -1 then killAll current sig pid slots s
  else s

end Code

/-! ## The loops -/

theorem slots_nodup : slots.Nodup := by
  apply List.nodup_reverse.2
  exact (List.nodup_finRange 64).tail

theorem mem_slots {i : Nr} : i ∈ slots ↔ i ≠ 0 := by
  revert i
  decide

/-- A task after a loop for the tasks of `P`. -/
def Proc.after (P : Proc → Prop) [DecidablePred P] (sig : ℤ) (t : Proc) : Proc :=
  if P t then t.send sig else t

section Loops

variable {current : Proc} {sig : ℤ} {test : Proc → Bool} {priv : Bool} {ps : List Nr} {s : Killing}
  {p i : Nr} {t : Proc} {pid : ℤ}

theorem sendSig_some (h1 : 1 ≤ sig) (h32 : sig ≤ 32) : sendSig current sig (some t) priv =
    if current.May priv t then .ok (t.send sig) else .error .eperm := by
  unfold sendSig
  dsimp only
  rw [if_neg (by omega)]

theorem Killing.send_of_ne (h : i ≠ p) : (s.send current sig p priv).task i = s.task i := by
  unfold Killing.send
  split
  · rfl
  · exact Function.update_of_ne h _ _

/-- One turn of a loop, at the task. -/
theorem turn_task (h1 : 1 ≤ sig) (h32 : sig ≤ 32) :
    (if (s.task p).any test then s.send current sig p priv else s).task p =
      (s.task p).map (Proc.after (fun t => test t = true ∧ current.May priv t) sig) := by
  cases hp : s.task p with
  | none =>
    rw [Option.any_none, if_neg (by decide), hp]
    rfl
  | some t =>
    rw [Option.any_some, Option.map_some]
    unfold Proc.after
    by_cases ht : test t = true
    · rw [if_pos ht]
      unfold Killing.send
      rw [hp, sendSig_some h1 h32]
      by_cases hm : current.May priv t
      · rw [if_pos hm, if_pos ⟨ht, hm⟩]
        exact Function.update_self ..
      · rw [if_neg hm, if_neg fun h => hm h.2]
        exact hp
    · rw [if_neg ht, if_neg fun h => ht h.1]
      exact hp

theorem turn_of_ne (h : i ≠ p) :
    (if (s.task p).any test then s.send current sig p priv else s).task i = s.task i := by
  split
  · exact Killing.send_of_ne h
  · rfl

theorem turn_retval (h1 : 1 ≤ sig) (h32 : sig ≤ 32) :
    (if (s.task p).any test then s.send current sig p priv else s).retval ≠ none ↔
      s.retval ≠ none ∨ ∃ t, s.task p = some t ∧ test t = true ∧ ¬current.May priv t := by
  cases hp : s.task p with
  | none =>
    rw [Option.any_none, if_neg (by decide)]
    exact ⟨.inl, fun h => h.resolve_right (by rintro ⟨t, ht, -⟩; cases ht)⟩
  | some t =>
    rw [Option.any_some]
    by_cases ht : test t = true
    · rw [if_pos ht]
      unfold Killing.send
      rw [hp, sendSig_some h1 h32]
      by_cases hm : current.May priv t
      · rw [if_pos hm]
        refine ⟨.inl, fun h => h.resolve_right ?_⟩
        rintro ⟨t', ht', -, hm'⟩
        cases ht'
        exact hm' hm
      · rw [if_neg hm]
        exact ⟨fun _ => .inr ⟨t, rfl, ht, hm⟩, fun _ => Option.some_ne_none _⟩
    · rw [if_neg ht]
      refine ⟨.inl, fun h => h.resolve_right ?_⟩
      rintro ⟨t', ht', ht'', -⟩
      cases ht'
      exact ht ht''

theorem killLoop_task (h1 : 1 ≤ sig) (h32 : sig ≤ 32) (hnd : ps.Nodup) :
    (killLoop current sig test priv ps s).task i =
      if i ∈ ps then (s.task i).map (Proc.after (fun t => test t = true ∧ current.May priv t) sig)
      else s.task i := by
  induction ps generalizing s with
  | nil =>
    rw [if_neg List.not_mem_nil]
    rfl
  | cons p ps ih =>
    obtain ⟨hp, hnd⟩ := List.nodup_cons.1 hnd
    unfold killLoop
    rw [ih hnd]
    by_cases hip : i = p
    · subst hip
      rw [if_neg hp, if_pos List.mem_cons_self]
      exact turn_task h1 h32
    · rw [turn_of_ne hip]
      simp only [List.mem_cons, hip, false_or]

theorem killLoop_retval (current : Proc) (test : Proc → Bool) (priv : Bool) (s : Killing)
    (h1 : 1 ≤ sig) (h32 : sig ≤ 32) (hnd : ps.Nodup) :
    (killLoop current sig test priv ps s).retval ≠ none ↔ s.retval ≠ none ∨
      ∃ i ∈ ps, ∃ t, s.task i = some t ∧ test t = true ∧ ¬current.May priv t := by
  induction ps generalizing s with
  | nil =>
    refine ⟨.inl, fun h => h.resolve_right ?_⟩
    rintro ⟨i, hi, -⟩
    cases hi
  | cons p ps ih =>
    obtain ⟨hp, hnd⟩ := List.nodup_cons.1 hnd
    unfold killLoop
    rw [ih _ hnd, turn_retval h1 h32, or_assoc]
    apply or_congr_right
    have hrest : ∀ i ∈ ps, i ≠ p := fun i hi hip => hp (hip ▸ hi)
    constructor
    · rintro (⟨t, ht⟩ | ⟨i, hi, t, ht, h⟩)
      · exact ⟨p, List.mem_cons_self, t, ht⟩
      · rw [turn_of_ne (hrest i hi)] at ht
        exact ⟨i, List.mem_cons_of_mem _ hi, t, ht, h⟩
    · rintro ⟨i, hi, t, ht, h⟩
      rcases List.mem_cons.1 hi with rfl | hi
      · exact .inl ⟨t, ht, h⟩
      · exact .inr ⟨i, hi, t, (turn_of_ne (hrest i hi)).trans ht, h⟩

/-- What the loop for `pid == -1` makes of a table. -/
inductive KillsAll (current : Proc) (sig pid : ℤ) (s : Killing) : List Nr → Killing → Prop
  /-- There is no task that may be signalled. -/
  | nobody {ps : List Nr} {e : Option Errno} :
      (∀ i ∈ ps, ∀ t, s.task i = some t → ¬current.May false t) →
      (e ≠ none ↔ s.retval ≠ none ∨ ps ≠ []) → KillsAll current sig pid s ps ⟨s.task, e⟩
  /-- The first one is at `p`. -/
  | first (xs : List Nr) {ys : List Nr} {p : Nr} {t : Proc} {e : Option Errno} : s.task p = some t →
      current.May false t → (∀ i ∈ xs, ∀ t, s.task i = some t → ¬current.May false t) →
      (e ≠ none ↔ s.retval ≠ none ∨ xs ≠ []) →
      KillsAll current sig pid s (xs ++ p :: ys) (killLoop current sig (fun t => t.pgrp == -pid) false ys
        ⟨Function.update s.task p (some (t.send sig)), e⟩)

theorem KillsAll.cons {r : Killing} {e : Errno} (hno : ∀ t, s.task p = some t → ¬current.May false t)
    (h : KillsAll current sig pid { s with retval := some e } ps r) :
    KillsAll current sig pid s (p :: ps) r := by
  have hcons : ∀ {xs : List Nr} {e' : Option Errno},
      (e' ≠ none ↔ some e ≠ none ∨ xs ≠ []) → (e' ≠ none ↔ s.retval ≠ none ∨ p :: xs ≠ []) :=
    fun h => ⟨fun _ => .inr (List.cons_ne_nil _ _), fun _ => h.2 (.inl (Option.some_ne_none _))⟩
  cases h with
  | nobody hall hret => exact .nobody (List.forall_mem_cons.2 ⟨hno, hall⟩) (hcons hret)
  | first xs ht hm hxs hret =>
    exact .first (p :: xs) ht hm (List.forall_mem_cons.2 ⟨hno, hxs⟩) (hcons hret)

theorem killAll_killsAll (h1 : 1 ≤ sig) (h32 : sig ≤ 32) :
    KillsAll current sig pid s ps (killAll current sig pid ps s) := by
  induction ps generalizing s with
  | nil =>
    refine .nobody (fun i hi => by cases hi) ?_
    exact ⟨.inl, fun h => h.resolve_right fun h => h rfl⟩
  | cons p ps ih =>
    unfold killAll
    cases hp : s.task p with
    | none =>
      refine KillsAll.cons (fun t ht => ?_) ih
      rw [hp] at ht
      cases ht
    | some t =>
      rw [sendSig_some h1 h32]
      by_cases hm : current.May false t
      · rw [if_pos hm]
        refine .first [] hp hm (fun i hi => by cases hi) ?_
        exact ⟨.inl, fun h => h.resolve_right fun h => h rfl⟩
      · rw [if_neg hm]
        refine KillsAll.cons (fun t' ht' => ?_) ih
        rw [hp] at ht'
        cases ht'
        exact hm

end Loops

/-! ## What `kill` should do -/

/-- The tasks that `kill` is for. -/
def Proc.Target (current : Proc) (pid : ℤ) (t : Proc) : Prop :=
  if pid = 0 then t.pgrp = current.pgrp
  else if 0 < pid then t.pid = pid
  else pid = -1 ∨ t.pgrp = -pid

instance (current : Proc) (pid : ℤ) (t : Proc) : Decidable (current.Target pid t) := by
  unfold Proc.Target
  infer_instance

/-- Those of them that may be signalled. -/
def Proc.Reaches (current : Proc) (pid : ℤ) (t : Proc) : Prop :=
  current.Target pid t ∧ current.May (pid == 0) t

instance (current : Proc) (pid : ℤ) (t : Proc) : Decidable (current.Reaches pid t) :=
  inferInstanceAs (Decidable (_ ∧ _))

/-- The targets are signalled, and nothing else is changed; an error is the refusal of a target. -/
structure Kills (current : Proc) (sig pid : ℤ) (task : Nr → Option Proc) (r : Killing) : Prop where
  task_eq : ∀ i, r.task i =
    if i ≠ 0 then (task i).map (Proc.after (current.Reaches pid) sig) else task i
  refused : r.retval ≠ none →
    ∃ i ≠ 0, ∃ t, task i = some t ∧ current.Target pid t ∧ ¬current.May (pid == 0) t

/-- `pid == 0` means the tasks whose group is the number of the caller. For `pid == -1` the loop must
not begin at an empty slot, unless a task refuses, and the tasks in the slots below one that is signalled
must be in group 1. For `pid < -1` there must be nothing to do. In every case the signal may be pending
already. -/
def KillsWhen (current : Proc) (sig pid : ℤ) (task : Nr → Option Proc) : Prop :=
  if pid = 0 then
    ∀ i ≠ 0, ∀ t, task i = some t → t.send sig = t ∨ (t.pgrp = current.pid ↔ t.pgrp = current.pgrp)
  else if 0 < pid then True
  else if pid = -1 then
    (task 63 ≠ none ∨ ∃ i ≠ 0, ∃ t, task i = some t ∧ ¬current.May false t) ∧
      ∀ i ≠ 0, ∀ t, task i = some t → current.May false t →
        (∃ j > i, ∃ t', task j = some t' ∧ current.May false t') → t.send sig = t ∨ t.pgrp = 1
  else
    ∀ i ≠ 0, ∀ t, task i = some t → t.pgrp = -pid → current.May false t → t.send sig = t

section Kill

variable {current : Proc} {sig pid : ℤ} {task : Nr → Option Proc}

theorem after_eq_iff {P Q : Proc → Prop} [DecidablePred P] [DecidablePred Q] {t : Proc} :
    t.after P sig = t.after Q sig ↔ t.send sig = t ∨ (P t ↔ Q t) := by
  unfold Proc.after
  by_cases hP : P t <;> by_cases hQ : Q t
  · simp only [hP, hQ, if_true, iff_self, or_true]
  · simp only [hP, hQ, if_true, if_false, iff_false, not_true, or_false]
  · simp only [hP, hQ, if_true, if_false, false_iff, not_true, or_false]
    exact eq_comm
  · simp only [hP, hQ, if_false, iff_self, or_true]

/-- The tasks are right where the tests agree, or the signal is pending. -/
theorem map_after_eq_iff {P Q : Proc → Prop} [DecidablePred P] [DecidablePred Q] {x : Option Proc} :
    x.map (Proc.after P sig) = x.map (Proc.after Q sig) ↔
      ∀ t, x = some t → t.send sig = t ∨ (P t ↔ Q t) := by
  cases x with
  | none => exact ⟨fun _ t ht => Option.some_ne_none t ht.symm |>.elim, fun _ => rfl⟩
  | some t =>
    rw [Option.map_some, Option.map_some, Option.some_inj, after_eq_iff]
    refine ⟨?_, fun h => h t rfl⟩
    rintro h t' ⟨⟩
    exact h

theorem map_after_eq_self_iff {Q : Proc → Prop} [DecidablePred Q] {x : Option Proc} :
    x = x.map (Proc.after Q sig) ↔ ∀ t, x = some t → Q t → t.send sig = t := by
  cases x with
  | none => exact ⟨fun _ t ht => Option.some_ne_none t ht.symm |>.elim, fun _ => rfl⟩
  | some t =>
    rw [Option.map_some, Option.some_inj]
    unfold Proc.after
    constructor
    · rintro h t' ⟨⟩ hQ
      rw [if_pos hQ] at h
      exact h.symm
    · intro h
      split
      · next hQ => exact (h t rfl hQ).symm
      · rfl

/-- One of the loops that are as they should be. -/
theorem killLoop_kills_iff (current : Proc) (task : Nr → Option Proc) (pid : ℤ) (test : Proc → Bool)
    (h1 : 1 ≤ sig) (h32 : sig ≤ 32)
    (hrefused : ∀ t, test t = true → ¬current.May (pid == 0) t → current.Target pid t) :
    Kills current sig pid task (killLoop current sig test (pid == 0) slots ⟨task, none⟩) ↔
      ∀ i ≠ 0, ∀ t, task i = some t → t.send sig = t ∨
        (test t = true ∧ current.May (pid == 0) t ↔ current.Reaches pid t) := by
  have htask : ∀ i, (killLoop current sig test (pid == 0) slots ⟨task, none⟩).task i =
      if i ≠ 0 then (task i).map (Proc.after (fun t => test t = true ∧ current.May (pid == 0) t) sig)
      else task i := by
    intro i
    rw [killLoop_task h1 h32 slots_nodup]
    simp only [mem_slots]
  constructor
  · intro h i hi
    have hi' := h.task_eq i
    rw [htask, if_pos hi, if_pos hi] at hi'
    exact map_after_eq_iff.1 hi'
  · intro h
    refine ⟨fun i => ?_, fun he => ?_⟩
    · rw [htask]
      by_cases hi : i ≠ 0
      · rw [if_pos hi, if_pos hi]
        exact map_after_eq_iff.2 (h i hi)
      · rw [if_neg hi, if_neg hi]
    · rw [killLoop_retval _ _ _ _ h1 h32 slots_nodup] at he
      obtain ⟨i, hi, t, ht, htest, hm⟩ := he.resolve_left fun h => h rfl
      exact ⟨i, mem_slots.1 hi, t, ht, hrefused t htest hm, hm⟩

/-- A call without a loop. -/
theorem kills_nothing_iff : Kills current sig pid task ⟨task, none⟩ ↔
    ∀ i ≠ 0, ∀ t, task i = some t → current.Reaches pid t → t.send sig = t := by
  constructor
  · intro h i hi
    have hi' := h.task_eq i
    rw [if_pos hi] at hi'
    exact map_after_eq_self_iff.1 hi'
  · refine fun h => ⟨fun i => ?_, fun he => absurd rfl he⟩
    by_cases hi : i ≠ 0
    · rw [if_pos hi]
      exact map_after_eq_self_iff.2 (h i hi)
    · rw [if_neg hi]

theorem slots_gt : slots.Pairwise (· > ·) := by decide +kernel

theorem reaches_neg_one_iff {t : Proc} : current.Reaches (-1) t ↔ current.May false t :=
  ⟨fun h => h.2, fun h => ⟨.inl rfl, h⟩⟩

theorem killsWhen_neg_one_iff : KillsWhen current sig (-1) task ↔
    (task 63 ≠ none ∨ ∃ i ≠ 0, ∃ t, task i = some t ∧ ¬current.May false t) ∧
      ∀ i ≠ 0, ∀ t, task i = some t → current.May false t →
        (∃ j > i, ∃ t', task j = some t' ∧ current.May false t') → t.send sig = t ∨ t.pgrp = 1 :=
  Iff.rfl

/-- The loop for `pid == -1` where there is nobody to signal. -/
theorem nobody_kills_iff {e : Option Errno}
    (hall : ∀ i ≠ 0, ∀ t, task i = some t → ¬current.May false t) (he : e ≠ none) :
    Kills current sig (-1) task ⟨task, e⟩ ↔ KillsWhen current sig (-1) task := by
  rw [killsWhen_neg_one_iff]
  constructor
  · intro h
    obtain ⟨i, hi, t, ht, -, hm⟩ := h.refused he
    exact ⟨.inr ⟨i, hi, t, ht, hm⟩, fun i hi t ht hm => absurd hm (hall i hi t ht)⟩
  · rintro ⟨hocc, -⟩
    refine ⟨fun i => ?_, fun _ => ?_⟩
    · by_cases hi : i ≠ 0
      · rw [if_pos hi]
        exact map_after_eq_self_iff.2 fun t ht h => absurd h.2 (hall i hi t ht)
      · rw [if_neg hi]
    · obtain h | ⟨i, hi, t, ht, hm⟩ := hocc
      · obtain ⟨t, ht⟩ := Option.ne_none_iff_exists'.1 h
        exact ⟨63, by decide, t, ht, .inl rfl, hall 63 (by decide) t ht⟩
      · exact ⟨i, hi, t, ht, .inl rfl, hm⟩

/-- The first task that may be signalled is at `p`, and the loop goes on as the last one. -/
structure FirstAt (current : Proc) (task : Nr → Option Proc) (xs ys : List Nr) (p : Nr) (t : Proc) :
    Prop where
  slots_eq : xs ++ p :: ys = slots
  task_eq : task p = some t
  may : current.May false t
  above : ∀ i ∈ xs, ∀ t, task i = some t → ¬current.May false t

namespace FirstAt

variable {xs ys : List Nr} {p i : Nr} {t t' : Proc} {e : Option Errno}

theorem mem_ys (h : FirstAt current task xs ys p t) (hi : i ∈ ys) : i ≠ 0 ∧ i ≠ p ∧ p > i := by
  have hgt : (xs ++ p :: ys).Pairwise (· > ·) := h.slots_eq ▸ slots_gt
  obtain ⟨-, hgty, -⟩ := List.pairwise_append.1 hgt
  have hip : p > i := (List.pairwise_cons.1 hgty).1 i hi
  refine ⟨mem_slots.1 ?_, ne_of_lt hip, hip⟩
  rw [← h.slots_eq]
  exact List.mem_append_right _ (List.mem_cons_of_mem _ hi)

theorem nodup_ys (h : FirstAt current task xs ys p t) : ys.Nodup := by
  have hnd : (xs ++ p :: ys).Nodup := h.slots_eq ▸ slots_nodup
  exact (List.nodup_cons.1 (List.nodup_append.1 hnd).2.1).2

theorem ne_zero (h : FirstAt current task xs ys p t) : p ≠ 0 :=
  mem_slots.1 (h.slots_eq ▸ List.mem_append_right _ List.mem_cons_self)

/-- The first slot is the last one of the table. -/
theorem head (h : FirstAt current task xs ys p t) : (xs ++ p :: ys).head? = some 63 := by
  rw [h.slots_eq]
  rfl

/-- A task that may be signalled is not above `p`. -/
theorem eq_or_mem (h : FirstAt current task xs ys p t) (hi : i ≠ 0) (ht : task i = some t')
    (hm : current.May false t') : i = p ∨ i ∈ ys := by
  rcases List.mem_append.1 (h.slots_eq.symm ▸ mem_slots.2 hi) with hi | hi
  · exact absurd hm (h.above i hi t' ht)
  · exact List.mem_cons.1 hi

theorem loop_task (h : FirstAt current task xs ys p t) (h1 : 1 ≤ sig) (h32 : sig ≤ 32) (i : Nr) :
    (killLoop current sig (fun t => t.pgrp == - -1) false ys
      ⟨Function.update task p (some (t.send sig)), e⟩).task i =
    if i ∈ ys then
      (task i).map (Proc.after (fun t => (t.pgrp == - -1) = true ∧ current.May false t) sig)
    else if i = p then some (t.send sig) else task i := by
  rw [killLoop_task h1 h32 h.nodup_ys]
  dsimp only
  by_cases hi : i ∈ ys
  · rw [if_pos hi, if_pos hi, Function.update_of_ne (h.mem_ys hi).2.1]
  · rw [if_neg hi, if_neg hi, Function.update_apply]

theorem killsWhen (h : FirstAt current task xs ys p t) (h1 : 1 ≤ sig) (h32 : sig ≤ 32)
    (hret : e ≠ none ↔ xs ≠ [])
    (hk : Kills current sig (-1) task (killLoop current sig (fun t => t.pgrp == - -1) false ys
      ⟨Function.update task p (some (t.send sig)), e⟩)) : KillsWhen current sig (-1) task := by
  refine killsWhen_neg_one_iff.2 ⟨?_, fun i hi t' ht' hm' hj => ?_⟩
  · by_cases hx : xs = []
    · have hhead := h.head
      subst hx
      cases hhead
      exact .inl fun h0 => Option.some_ne_none t (h.task_eq.symm.trans h0)
    · have hretr := (killLoop_retval current (fun t => t.pgrp == - -1) false
        ⟨Function.update task p (some (t.send sig)), e⟩ h1 h32 h.nodup_ys).2 (.inl (hret.2 hx))
      obtain ⟨i, hi, t', ht', -, hm'⟩ := hk.refused hretr
      exact .inr ⟨i, hi, t', ht', hm'⟩
  · obtain rfl | hiy := h.eq_or_mem hi ht' hm'
    · obtain ⟨j, hij, t'', ht'', hm''⟩ := hj
      have hj0 : j ≠ 0 := fun h0 => absurd hij (h0 ▸ Fin.not_lt_zero i)
      obtain rfl | hjy := h.eq_or_mem hj0 ht'' hm''
      · exact absurd hij (lt_irrefl j)
      · exact absurd hij (lt_asymm (h.mem_ys hjy).2.2)
    · have hi' := hk.task_eq i
      rw [h.loop_task h1 h32, if_pos hiy, if_pos hi] at hi'
      refine (map_after_eq_iff.1 hi' t' ht').imp_right fun hiff => ?_
      exact beq_iff_eq.1 (hiff.2 (reaches_neg_one_iff.2 hm')).1

/-- The slots after the loop. -/
theorem kills_task (h : FirstAt current task xs ys p t) (h1 : 1 ≤ sig) (h32 : sig ≤ 32)
    (hone : ∀ i ≠ 0, ∀ t, task i = some t → current.May false t →
      (∃ j > i, ∃ t', task j = some t' ∧ current.May false t') → t.send sig = t ∨ t.pgrp = 1) (i : Nr) :
    (killLoop current sig (fun t => t.pgrp == - -1) false ys
      ⟨Function.update task p (some (t.send sig)), e⟩).task i =
    if i ≠ 0 then (task i).map (Proc.after (current.Reaches (-1)) sig) else task i := by
  rw [h.loop_task h1 h32]
  by_cases hiy : i ∈ ys
  · obtain ⟨hi0, -, hgt⟩ := h.mem_ys hiy
    rw [if_pos hiy, if_pos hi0]
    refine map_after_eq_iff.2 fun t' ht' => ?_
    rw [reaches_neg_one_iff]
    by_cases hm' : current.May false t'
    · refine (hone i hi0 t' ht' hm' ⟨p, hgt, t, h.task_eq, h.may⟩).imp_right fun hp => ?_
      exact ⟨fun _ => hm', fun _ => ⟨beq_iff_eq.2 hp, hm'⟩⟩
    · exact .inr ⟨fun h => h.2, fun h => absurd h hm'⟩
  · rw [if_neg hiy]
    by_cases hip : i = p
    · rw [if_pos hip, hip, if_pos h.ne_zero, h.task_eq, Option.map_some]
      unfold Proc.after
      rw [if_pos (reaches_neg_one_iff.2 h.may)]
    · rw [if_neg hip]
      by_cases hi : i ≠ 0
      · rw [if_pos hi]
        refine map_after_eq_self_iff.2 fun t' ht' hr => ?_
        exact ((h.eq_or_mem hi ht' (reaches_neg_one_iff.1 hr)).elim hip hiy).elim
      · rw [if_neg hi]

theorem kills (h : FirstAt current task xs ys p t) (h1 : 1 ≤ sig) (h32 : sig ≤ 32)
    (hret : e ≠ none ↔ xs ≠ []) (hk : KillsWhen current sig (-1) task) :
    Kills current sig (-1) task (killLoop current sig (fun t => t.pgrp == - -1) false ys
      ⟨Function.update task p (some (t.send sig)), e⟩) := by
  obtain ⟨hocc, hone⟩ := killsWhen_neg_one_iff.1 hk
  refine ⟨h.kills_task h1 h32 hone, fun he => ?_⟩
  rcases (killLoop_retval _ _ _ _ h1 h32 h.nodup_ys).1 he with he | ⟨i, hi, t', ht', -, hm'⟩
  · have hx := hret.1 he
    obtain hne | ⟨i, hi, t', ht', hm'⟩ := hocc
    · obtain ⟨t', ht'⟩ := Option.ne_none_iff_exists'.1 hne
      cases xs with
      | nil => exact absurd rfl hx
      | cons x xs =>
        have hhead := h.head
        cases hhead
        exact ⟨63, by decide, t', ht', .inl rfl, h.above 63 List.mem_cons_self t' ht'⟩
    · exact ⟨i, hi, t', ht', .inl rfl, hm'⟩
  · obtain ⟨hi0, hip, -⟩ := h.mem_ys hi
    dsimp only at ht'
    rw [Function.update_of_ne hip] at ht'
    exact ⟨i, hi0, t', ht', .inl rfl, hm'⟩

end FirstAt

/-- The loop for `pid == -1`. -/
theorem killAll_kills_iff (h1 : 1 ≤ sig) (h32 : sig ≤ 32) :
    Kills current sig (-1) task (killAll current sig (-1) slots ⟨task, none⟩) ↔
      KillsWhen current sig (-1) task := by
  have hk : KillsAll current sig (-1) ⟨task, none⟩ slots (killAll current sig (-1) slots ⟨task, none⟩) :=
    killAll_killsAll h1 h32
  obtain ⟨r, hr⟩ : ∃ r, r = killAll current sig (-1) slots ⟨task, none⟩ := ⟨_, rfl⟩
  obtain ⟨ps, hps⟩ : ∃ ps, ps = slots := ⟨_, rfl⟩
  rw [← hr, ← hps] at hk
  rw [← hr]
  cases hk with
  | nobody hall hret =>
    subst hps
    exact nobody_kills_iff (fun i hi => hall i (mem_slots.2 hi)) (hret.2 (.inr (by decide)))
  | @first xs ys p t e ht hm hxs hret =>
    have hret : e ≠ none ↔ xs ≠ [] := hret.trans (or_iff_right fun h => h rfl)
    have h : FirstAt current task xs ys p t := ⟨hps, ht, hm, hxs⟩
    exact ⟨h.killsWhen h1 h32 hret, h.kills h1 h32 hret⟩

/-- When `kill` does what it should. -/
theorem sysKill_kills_iff (h1 : 1 ≤ sig) (h32 : sig ≤ 32) :
    Kills current sig pid task (sysKill current sig task pid) ↔ KillsWhen current sig pid task := by
  obtain rfl | hpos | rfl | hneg : pid = 0 ∨ 0 < pid ∨ pid = -1 ∨ pid < -1 := by omega
  · have h := killLoop_kills_iff current task 0 (fun t => t.pgrp == current.pid) h1 h32
      fun t _ hm => absurd (.inl rfl) hm
    unfold sysKill KillsWhen
    rw [if_pos rfl, if_pos rfl]
    refine h.trans ⟨fun h i hi t ht => ?_, fun h i hi t ht => ?_⟩
    · refine (h i hi t ht).imp_right fun hiff => ⟨fun he => ?_, fun he => ?_⟩
      · exact (hiff.1 ⟨beq_iff_eq.2 he, .inl rfl⟩).1
      · exact beq_iff_eq.1 (hiff.2 ⟨he, .inl rfl⟩).1
    · refine (h i hi t ht).imp_right fun hiff => ⟨fun he => ?_, fun he => ?_⟩
      · exact ⟨hiff.1 (beq_iff_eq.1 he.1), he.2⟩
      · exact ⟨beq_iff_eq.2 (hiff.2 he.1), he.2⟩
  · have hb : (pid == 0) = false := beq_eq_false_iff_ne.2 (by omega)
    have htarget : ∀ t, current.Target pid t ↔ t.pid = pid := by
      intro t
      unfold Proc.Target
      rw [if_neg (by omega), if_pos hpos]
    have h := killLoop_kills_iff current task pid (fun t => t.pid == pid) h1 h32
      fun t ht _ => (htarget t).2 (beq_iff_eq.1 ht)
    unfold sysKill KillsWhen
    rw [if_neg (by omega), if_pos hpos, if_neg (by omega), if_pos hpos, ← hb]
    refine h.trans (iff_true_intro fun i _ t _ => .inr ?_)
    unfold Proc.Reaches
    rw [htarget, beq_iff_eq]
  · exact killAll_kills_iff h1 h32
  · have hb : (pid == 0) = false := beq_eq_false_iff_ne.2 (by omega)
    have hreach : ∀ t, current.Reaches pid t ↔ t.pgrp = -pid ∧ current.May false t := by
      intro t
      unfold Proc.Reaches Proc.Target
      rw [if_neg (by omega), if_neg (by omega), hb]
      exact and_congr_left' (or_iff_right (by omega))
    unfold sysKill KillsWhen
    rw [if_neg (by omega), if_neg (by omega), if_neg (by omega), if_neg (by omega), if_neg (by omega),
      if_neg (by omega)]
    refine kills_nothing_iff.trans ⟨fun h i hi t ht hp hm => ?_, fun h i hi t ht hr => ?_⟩
    · exact h i hi t ht ((hreach t).2 ⟨hp, hm⟩)
    · exact h i hi t ht ((hreach t).1 hr).1 ((hreach t).1 hr).2

end Kill

/-- The process 7 of a user, in the group of its child 8. -/
def parent : Proc := ⟨7, 8, 100, 0⟩

def child : Proc := ⟨8, 8, 100, 0⟩

def twoProcs (i : Nr) : Option Proc :=
  if i = 1 then some parent else if i = 2 then some child else none

theorem sysKill_kills_child :
    Kills parent 15 8 twoProcs (sysKill parent 15 twoProcs 8) ↔ KillsWhen parent 15 8 twoProcs :=
  sysKill_kills_iff (by decide) (by decide)

/-- `kill(-8, 15)` does nothing. -/
theorem sysKill_misses : ¬∀ (task : Nr → Option Proc) (nr : Nr) (current : Proc) (pid sig : ℤ),
    task nr = some current → 1 ≤ sig → sig ≤ 32 →
      Kills current sig pid task (sysKill current sig task pid) := by
  intro h
  have hk := (h twoProcs 1 parent (-8) 15 rfl (by decide) (by decide)).task_eq 2
  exact absurd hk (by decide)

end Linux011.Signal
