import Linux011.Lib.Chain
import Linux011.Lib.DeltaList
import Linux011.Lib.Sizes
import Linux011.Lib.Transition
import Mathlib.Data.Fintype.Card
import Mathlib.Data.List.FinRange

/-!
# Kernel timers

`add_timer` of `kernel/sched.c` and the part of `do_timer` that counts the timers down. A function that
`do_timer` calls may add timers, and may let interrupts in: `add_timer` itself ends with `sti`.

1. `Timer`, `State`; a function is known by the number of the `add_timer` call that gave it.
2. `addTimer`, with the loop `sink`; `doTimer`, `expire`. `State.next`, `timers`.
3. `sink_eq`: on the list, the loop is `Delta.enqueue`.
4. `Inv`: the differences add up to when the timers are due. `timers_on_time`.
-/

namespace Linux011.Timers

open Delta

abbrev Nr := Fin 64

/-- `struct timer_list`. -/
structure Timer where
  jiffies : ℤ
  fn : Option ℕ
  next : Option Nr

/-- Where a `do_timer` is. -/
inductive Place
  /-- Before the test of the loop. -/
  | loop
  /-- In the function of a timer. -/
  | calling
  deriving DecidableEq

structure State where
  timerList : Nr → Timer
  nextTimer : Option Nr
  /-- The interrupt flag. -/
  enabled : Bool
  /-- The `do_timer`s under way, the innermost first. -/
  stack : List Place
  /-- The ticks so far. -/
  ticks : ℕ
  /-- The calls of `add_timer` so far. -/
  added : ℕ
  /-- For each of them, the tick at which its function is to be called. -/
  due : ℕ → Option ℕ
  /-- The functions called, each with the tick. -/
  calls : List (ℕ × ℕ)

inductive Event
  /-- `add_timer`, without a function if `fn` is false. -/
  | add (jiffies : ℤ) (fn : Bool)
  /-- A clock interrupt. -/
  | tick
  /-- The loop of the innermost `do_timer` goes on. -/
  | loop
  /-- The function returns. -/
  | ret
  /-- The function lets interrupts in. -/
  | sti

def setTimer (f : Nr → Timer) (p : Nr) (t : Timer) : Nr → Timer :=
  Function.update f p t

/-- The while loop of `add_timer`. The list has at most 64 elements. -/
def sink : ℕ → (Nr → Timer) → Nr → Option (Nr → Timer)
  | 0, _, _ => none
  | n + 1, f, p =>
    match (f p).next with
    | none => some f
    | some q =>
      if (f q).jiffies < (f p).jiffies then
        let jiffies := (f p).jiffies - (f q).jiffies
        let g := setTimer f p { f p with fn := (f q).fn, jiffies := (f q).jiffies }
        sink n (setTimer g q { f q with fn := (f p).fn, jiffies := jiffies }) q
      else some f

namespace State

variable (s : State)

/-- `for (p = timer_list ; p < timer_list + TIME_REQUESTS ; p++) if (!p->fn) break;` -/
def freeTimer : Option Nr :=
  (List.finRange 64).find? fun p => (s.timerList p).fn.isNone

/-- `add_timer`; its panic is no step. -/
def addTimer (jiffies : ℤ) (fn : Option ℕ) : Option State :=
  match fn with
  | none => some s
  | some id =>
    if jiffies ≤ 0 then some { s with enabled := true, calls := (id, s.ticks) :: s.calls }
    else s.freeTimer.bind fun p =>
      let f := setTimer s.timerList p ⟨jiffies, some id, s.nextTimer⟩
      (sink 64 f p).map fun f => { s with timerList := f, nextTimer := some p, enabled := true }

/-- `do_timer` up to its loop. -/
def doTimer : State :=
  let s := { s with enabled := false, stack := .loop :: s.stack, ticks := s.ticks + 1 }
  match s.nextTimer with
  | none => s
  | some p =>
    let t := s.timerList p
    { s with timerList := setTimer s.timerList p { t with jiffies := t.jiffies - 1 } }

/-- The function of the timer `p`, the first of the list, is called. -/
def expire (p : Nr) : State :=
  let t := s.timerList p
  { s with
    timerList := setTimer s.timerList p { t with fn := none }
    nextTimer := t.next
    stack := .calling :: s.stack.tail
    calls := t.fn.elim s.calls fun id => (id, s.ticks) :: s.calls }

/-- The first timer, if it is due. -/
def dueTimer : Option Nr :=
  s.nextTimer.filter fun p => (s.timerList p).jiffies ≤ 0

/-- Interrupts are off again only in `do_timer`, and on after it. -/
def next : Event → Option State
  | .add jiffies fn =>
    if s.stack.head? = some .loop then none
    else if fn then
      { s with added := s.added + 1,
               due := Function.update s.due s.added (some (s.ticks + jiffies.toNat)) }.addTimer
        jiffies (some s.added)
    else s.addTimer jiffies none
  | .tick => if s.enabled then some s.doTimer else none
  | .loop =>
    if s.stack.head? = some .loop then
      some (s.dueTimer.elim { s with stack := s.stack.tail, enabled := true } s.expire)
    else none
  | .ret =>
    if s.stack.head? = some .calling then some { s with stack := .loop :: s.stack.tail } else none
  | .sti => if s.stack.head? = some .calling then some { s with enabled := true } else none

end State

def boot : State where
  timerList _ := ⟨0, none, none⟩
  nextTimer := none
  enabled := true
  stack := []
  ticks := 0
  added := 0
  due _ := none
  calls := []

def timers : System State Event where
  init s := s = boot
  step s e s' := s.next e = some s'

/-! ## The claim and its condition -/

/-- Each function is called once, and when it is due. -/
structure OnTime (s : State) : Prop where
  calls : ∀ c ∈ s.calls, s.due c.1 = some c.2
  once : (s.calls.map Prod.fst).Nodup
  /-- None whose time is over is left, and none of this tick once `do_timer` is through. -/
  expired : ∀ id d, s.due id = some d → d < s.ticks ∨ d = s.ticks ∧ s.stack = [] → (id, d) ∈ s.calls
  /-- The others are in the table. -/
  pending : ∀ id d, s.due id = some d → (id, d) ∈ s.calls ∨ ∃ p, (s.timerList p).fn = some id
  /-- `add_timer` fails only for want of an element. -/
  room : ∀ jiffies id, s.addTimer jiffies (some id) = none → ∀ p, (s.timerList p).fn ≠ none

/-- A timer that is added is due after all that are in the list, and no tick comes while one that is
due waits to be called. -/
def InOrder (s : State) : Event → Prop
  | .add jiffies _ => 0 < jiffies →
      ∀ p, ∀ id ∈ (s.timerList p).fn, ∀ d ∈ s.due id, (d : ℤ) < s.ticks + jiffies
  | .tick => s.dueTimer = none
  | _ => True

/-! ## The list -/

abbrev Entry := Option ℕ × ℤ

/-- What the loop of `add_timer` makes of the queue: the new timer is put in front of the first that is
not due before it, and that one keeps its difference. -/
def enqueue (fn : Option ℕ) : ℤ → List Entry → List Entry
  | n, [] => [(fn, n)]
  | n, e :: q => if e.2 < n then e :: enqueue fn (n - e.2) q else (fn, n) :: e :: q

def entry (f : Nr → Timer) (p : Nr) : Entry :=
  ((f p).fn, (f p).jiffies)

def link (f : Nr → Timer) (p : Nr) : Option Nr :=
  (f p).next

section List

variable {f : Nr → Timer} {p q : Nr} {t : Timer} {l : List Nr} {fn : Option ℕ} {n k : ℤ}
  {es : List Entry}

theorem link_setTimer (ht : t.next = (f p).next) : link (setTimer f p t) = link f := by
  funext i
  unfold link setTimer
  by_cases hi : i = p
  · subst hi
    rw [Function.update_self, ht]
  · rw [Function.update_of_ne hi]

theorem map_entry_setTimer (hp : p ∉ l) : l.map (entry (setTimer f p t)) = l.map (entry f) := by
  refine List.map_congr_left fun i hi => ?_
  unfold entry setTimer
  rw [Function.update_of_ne (ne_of_mem_of_not_mem hi hp)]

theorem entry_setTimer_self : entry (setTimer f p t) p = (t.fn, t.jiffies) := by
  unfold entry setTimer
  rw [Function.update_self]

/-- The loop ends, it relinks nothing, and on the list that begins with `p` it does what `enqueue`
does. -/
theorem sink_eq {m : ℕ} (hpath : Path (link f) (link f p) l none) (hp : (p :: l).Nodup)
    (hm : l.length < m) :
    ∃ g, sink m f p = some g ∧ link g = link f ∧
      (p :: l).map (entry g) = enqueue (f p).fn (f p).jiffies (l.map (entry f)) ∧
      ∀ i ∉ p :: l, g i = f i := by
  induction l generalizing f p m with
  | nil =>
    obtain ⟨m, rfl⟩ : ∃ k, m = k + 1 := ⟨m - 1, by simp at hm; omega⟩
    refine ⟨f, ?_, rfl, rfl, fun _ _ => rfl⟩
    have hnone : (f p).next = none := hpath
    unfold sink
    rw [hnone]
  | cons q l ih =>
    obtain ⟨m, rfl⟩ : ∃ k, m = k + 1 := ⟨m - 1, by simp at hm; omega⟩
    have hnext : (f p).next = some q := hpath.1
    obtain ⟨hpq, hpl⟩ := not_or.1 (List.mem_cons.not.1 (List.nodup_cons.1 hp).1)
    have hql := (List.nodup_cons.1 (List.nodup_cons.1 hp).2).1
    unfold sink
    rw [hnext]
    dsimp only
    rw [List.map_cons, enqueue]
    split
    · next hlt =>
      obtain ⟨f₁, hf₁⟩ : ∃ g, g = setTimer f p { f p with fn := (f q).fn, jiffies := (f q).jiffies } :=
        ⟨_, rfl⟩
      obtain ⟨f₂, hf₂⟩ : ∃ g, g = setTimer f₁ q
          { f q with fn := (f p).fn, jiffies := (f p).jiffies - (f q).jiffies } := ⟨_, rfl⟩
      rw [← hf₁, ← hf₂]
      have hlink₁ : link f₁ = link f := hf₁ ▸ link_setTimer rfl
      have hlink : link f₂ = link f := by
        rw [hf₂, ← hlink₁]
        exact link_setTimer (congrFun hlink₁ q).symm
      have hpath₂ : Path (link f₂) (link f₂ q) l none := by
        rw [hlink]
        exact hpath.2
      obtain ⟨g, hg, hlg, hes, hout⟩ := ih (m := m) hpath₂ (List.nodup_cons.1 hp).2
        (Nat.lt_of_succ_lt_succ hm)
      have hf₂q : entry f₂ q = ((f p).fn, (f p).jiffies - (f q).jiffies) :=
        hf₂ ▸ entry_setTimer_self
      have hgp : entry g p = entry f q := by
        have hgp : g p = f₂ p := hout p (List.nodup_cons.1 hp).1
        have hf₂p : f₂ p = f₁ p := hf₂ ▸ Function.update_of_ne hpq _ _
        unfold entry
        rw [hgp, hf₂p, hf₁]
        exact entry_setTimer_self
      have hl : l.map (entry f₂) = l.map (entry f) := by
        rw [hf₂, map_entry_setTimer hql, hf₁, map_entry_setTimer hpl]
      refine ⟨g, hg, hlg.trans hlink, ?_, fun i hi => ?_⟩
      · have hif : (entry f q).2 < (f p).jiffies := hlt
        rw [if_pos hif, List.map_cons, hgp, hes, hl]
        have hfn : (f₂ q).fn = (f p).fn := (Prod.ext_iff.1 hf₂q).1
        have hj : (f₂ q).jiffies = (f p).jiffies - (f q).jiffies := (Prod.ext_iff.1 hf₂q).2
        rw [hfn, hj]
        rfl
      · obtain ⟨hip, hi⟩ := not_or.1 (List.mem_cons.not.1 hi)
        have hiq : i ≠ q := fun h => hi (h ▸ List.mem_cons_self)
        rw [hout i hi, hf₂, hf₁]
        exact (Function.update_of_ne hiq _ _).trans (Function.update_of_ne hip _ _)
    · next hlt =>
      refine ⟨f, rfl, rfl, ?_, fun _ _ => rfl⟩
      have hif : ¬ (entry f q).2 < (f p).jiffies := hlt
      rw [if_neg hif]
      rfl

/-- A timer that is due after all the others goes to the end, and nothing changes for them. -/
theorem enqueue_of_lt {t : ℤ} (fn : Option ℕ) (h : ∀ e ∈ dueAt t es, e.2 < t + n) (hn : 0 < n) :
    ∃ d, 0 < d ∧ enqueue fn n es = es ++ [(fn, d)] ∧
      dueAt t (es ++ [(fn, d)]) = dueAt t es ++ [(fn, t + n)] := by
  induction es generalizing t n with
  | nil => exact ⟨n, hn, rfl, rfl⟩
  | cons e es ih =>
    have he : t + e.2 < t + n := h _ List.mem_cons_self
    have hrest : ∀ e' ∈ dueAt (t + e.2) es, e'.2 < t + e.2 + (n - e.2) := by
      intro e' he'
      have hlt := h e' (List.mem_cons_of_mem _ he')
      omega
    obtain ⟨d, hd, henq, hdue⟩ := ih hrest (by omega)
    refine ⟨d, hd, ?_, ?_⟩
    · rw [enqueue, if_pos (by omega), henq]
      rfl
    · have hsum : t + e.2 + (n - e.2) = t + n := by omega
      rw [List.cons_append, dueAt_cons, dueAt_cons, hdue, hsum]
      rfl

end List

/-! ## The invariant -/

/-- The timers in use are linked from `nextTimer` in the order of `l`. -/
structure Linked (f : Nr → Timer) (p : Option Nr) (l : List Nr) : Prop where
  path : Path (link f) p l none
  used : ∀ i, i ∈ l ↔ (f i).fn ≠ none

/-- The queue `q` and what was called so far, against when the functions are due. -/
structure Sound (s : State) (q : List Entry) : Prop where
  due : ∀ e ∈ dueAt s.ticks q, ∃ id d : ℕ, e = (some id, (d : ℤ)) ∧ s.due id = some d
  pending : ∀ id d, s.due id = some d → (id, d) ∈ s.calls ∨ (some id, (d : ℤ)) ∈ dueAt s.ticks q
  calls : ∀ c ∈ s.calls, s.due c.1 = some c.2
  once : (s.calls.map (fun c => some c.1) ++ q.map Prod.fst).Nodup
  first : ∀ e ∈ q, 0 ≤ e.2
  rest : ∀ e ∈ q.tail, 0 < e.2
  idle : s.stack = [] → ∀ e ∈ q, 0 < e.2
  fresh : ∀ id, s.added ≤ id → s.due id = none

def Inv (s : State) : Prop :=
  ∃ l, Linked s.timerList s.nextTimer l ∧ Sound s (l.map (entry s.timerList))

section Linked

variable {f : Nr → Timer} {p : Option Nr} {i : Nr} {t : Timer} {l : List Nr} {fn : Option ℕ} {n : ℤ}
  {id : ℕ} {es : List Entry}

theorem mem_enqueue {e : Entry} (he : e ∈ enqueue fn n es) :
    e.1 = fn ∨ ∃ e' ∈ es, e'.1 = e.1 := by
  induction es generalizing n with
  | nil => exact .inl (congrArg Prod.fst (List.mem_singleton.1 he))
  | cons a es ih =>
    rw [enqueue] at he
    split at he
    · rcases List.mem_cons.1 he with rfl | he
      · exact .inr ⟨e, List.mem_cons_self, rfl⟩
      · rcases ih he with h | ⟨e', he', h⟩
        · exact .inl h
        · exact .inr ⟨e', List.mem_cons_of_mem _ he', h⟩
    · rcases List.mem_cons.1 he with rfl | he
      · exact .inl rfl
      · exact .inr ⟨e, he, rfl⟩

/-- `add_timer` with a free element. -/
theorem Linked.insert (h : Linked f p l) (n : ℤ) (id : ℕ) (hi : (f i).fn = none) :
    ∃ g, sink 64 (setTimer f i ⟨n, some id, p⟩) i = some g ∧ Linked g (some i) (i :: l) ∧
      (i :: l).map (entry g) = enqueue (some id) n (l.map (entry f)) := by
  have hil : i ∉ l := fun hm => (h.used i).1 hm hi
  obtain ⟨f₁, hf₁⟩ : ∃ f₁, f₁ = setTimer f i ⟨n, some id, p⟩ := ⟨_, rfl⟩
  have hlink : link f₁ = Function.update (link f) i p := by
    funext j
    rw [hf₁]
    unfold link setTimer
    by_cases hj : j = i
    · subst hj
      rw [Function.update_self, Function.update_self]
    · rw [Function.update_of_ne hj, Function.update_of_ne hj]
  have hpath : Path (link f₁) (some i) (i :: l) none := by
    rw [hlink]
    exact h.path.push hil
  have hnodup := hpath.nodup
  have hlength : l.length < 64 := by
    have hcard := hnodup.length_le_card
    rw [Fintype.card_fin, List.length_cons] at hcard
    omega
  obtain ⟨g, hg, hlg, hes, hout⟩ := sink_eq hpath.2 hnodup hlength
  have hentry : (f₁ i).fn = some id ∧ (f₁ i).jiffies = n := by
    rw [hf₁]
    unfold setTimer
    rw [Function.update_self]
    exact ⟨rfl, rfl⟩
  rw [hentry.1, hentry.2, hf₁, map_entry_setTimer hil] at hes
  refine ⟨g, hf₁ ▸ hg, ⟨hlg ▸ hpath, fun j => ?_⟩, hes⟩
  by_cases hj : j ∈ i :: l
  · refine iff_of_true hj fun hnone => ?_
    have hmem : entry g j ∈ enqueue (some id) n (l.map (entry f)) :=
      hes ▸ List.mem_map_of_mem hj
    rcases mem_enqueue hmem with h | ⟨e, he, heq⟩
    · exact absurd (h.symm.trans hnone) (Option.some_ne_none id)
    · obtain ⟨k, hk, rfl⟩ := List.mem_map.1 he
      exact (h.used k).1 hk (heq.trans hnone)
  · refine iff_of_false hj fun hsome => ?_
    have hji : j ≠ i := fun h => hj (h ▸ List.mem_cons_self)
    have hgj : g j = f j := by
      rw [hout j hj, hf₁]
      exact Function.update_of_ne hji _ _
    exact hj (List.mem_cons_of_mem _ ((h.used j).2 (hgj ▸ hsome)))

/-- The first element is freed. -/
theorem Linked.pop (h : Linked f (some i) (i :: l)) :
    Linked (setTimer f i { f i with fn := none }) (f i).next l ∧
      l.map (entry (setTimer f i { f i with fn := none })) = l.map (entry f) := by
  have hil : i ∉ l := (List.nodup_cons.1 h.path.nodup).1
  refine ⟨⟨?_, fun j => ?_⟩, map_entry_setTimer hil⟩
  · have hlink : link (setTimer f i { f i with fn := none }) = link f := link_setTimer rfl
    rw [hlink]
    exact h.path.2
  · unfold setTimer
    by_cases hj : j = i
    · subst hj
      rw [Function.update_self]
      exact iff_of_false hil (fun h => h rfl)
    · rw [Function.update_of_ne hj, ← h.used, List.mem_cons]
      exact ⟨.inr, fun h => h.resolve_left hj⟩

/-- Only the time of an element changes. -/
theorem Linked.update (h : Linked f p l) (hfn : t.fn = (f i).fn) (hnext : t.next = (f i).next) :
    Linked (setTimer f i t) p l := by
  refine ⟨?_, fun j => ?_⟩
  · rw [link_setTimer hnext]
    exact h.path
  · rw [h.used]
    unfold setTimer
    by_cases hj : j = i
    · subst hj
      rw [Function.update_self, hfn]
    · rw [Function.update_of_ne hj]

end Linked

section Steps

variable {s s' : State} {q : List Entry} {id : ℕ} {n d : ℤ} {e : Entry}

/-- The timers of the queue are pending. -/
theorem Sound.mem (h : Sound s q) (he : e ∈ dueAt s.ticks q) :
    ∃ id d : ℕ, e = (some id, (d : ℤ)) ∧ s.due id = some d ∧ some id ∈ q.map Prod.fst := by
  obtain ⟨id, d, rfl, hd⟩ := h.due e he
  refine ⟨id, d, rfl, hd, ?_⟩
  rw [← map_fst_dueAt]
  exact List.mem_map_of_mem he

/-- The timers of the queue are due in the future, or now if a `do_timer` is under way. -/
theorem Sound.le {id d : ℕ} (h : Sound s q) (he : (some id, (d : ℤ)) ∈ dueAt s.ticks q) :
    s.ticks ≤ d ∧ (s.stack = [] → s.ticks < d) := by
  refine ⟨?_, fun hidle => ?_⟩
  · have hle := le_of_mem_dueAt h.first he
    exact Int.ofNat_le.1 hle
  · have hlt := lt_of_mem_dueAt (h.idle hidle) he
    exact Int.ofNat_lt.1 hlt

/-- The loop of `add_timer` ends, and there is no other way to fail. -/
theorem Linked.room {l : List Nr} (hl : Linked s.timerList s.nextTimer l)
    (h : s.addTimer n (some id) = none) (p : Nr) : (s.timerList p).fn ≠ none := by
  unfold State.addTimer at h
  dsimp only at h
  split_ifs at h with hn
  cases hfree : s.freeTimer with
  | none =>
    intro hp
    exact List.find?_eq_none.1 hfree p (List.mem_finRange p) (Option.isNone_iff_eq_none.2 hp)
  | some i =>
    have hi : (s.timerList i).fn = none :=
      Option.isNone_iff_eq_none.1 (List.find?_some (p := fun p => (s.timerList p).fn.isNone) hfree)
    obtain ⟨g, hg, -⟩ := hl.insert n id hi
    have hnone := Option.map_eq_none_iff.1 (Option.bind_eq_none_iff.1 h i hfree)
    exact absurd (hg.symm.trans hnone) (Option.some_ne_none g)

theorem Sound.onTime {l : List Nr} (hl : Linked s.timerList s.nextTimer l)
    (h : Sound s (l.map (entry s.timerList))) : OnTime s := by
  refine ⟨h.calls, ?_, fun id d hd hover => ?_, fun id d hd => ?_, fun _ _ => hl.room⟩
  · have hnodup := (List.nodup_append.1 h.once).1
    have hmap : s.calls.map (fun c => some c.1) = (s.calls.map Prod.fst).map some := by
      rw [List.map_map]
      rfl
    rw [hmap] at hnodup
    exact hnodup.of_map
  · refine (h.pending id d hd).resolve_right fun he => ?_
    have hle := h.le he
    rcases hover with hlt | ⟨heq, hidle⟩
    · omega
    · have hlt := hle.2 hidle
      omega
  · refine (h.pending id d hd).imp_right fun he => ?_
    obtain ⟨id', d', heq, -, hmem⟩ := h.mem he
    obtain rfl := Option.some.inj (Prod.ext_iff.1 heq).1
    rw [List.map_map] at hmem
    obtain ⟨i, -, hi⟩ := List.mem_map.1 hmem
    exact ⟨i, hi⟩

/-- What the queue is about stays, and no `do_timer` ends with a timer due. -/
theorem Sound.congr (h : Sound s q) (hticks : s'.ticks = s.ticks) (hadded : s'.added = s.added)
    (hdue : s'.due = s.due) (hcalls : s'.calls = s.calls)
    (hidle : s'.stack = [] → ∀ e ∈ q, 0 < e.2) : Sound s' q := by
  refine ⟨?_, ?_, ?_, ?_, h.first, h.rest, hidle, ?_⟩
  · rw [hticks, hdue]
    exact h.due
  · rw [hticks, hdue, hcalls]
    exact h.pending
  · rw [hdue, hcalls]
    exact h.calls
  · rw [hcalls]
    exact h.once
  · rw [hadded, hdue]
    exact h.fresh

/-- The number of a call of `add_timer` is new. -/
theorem Sound.unused (h : Sound s q) :
    some s.added ∉ s.calls.map (fun c => some c.1) ++ q.map Prod.fst := by
  have hnone := h.fresh s.added (le_refl _)
  intro hm
  rcases List.mem_append.1 hm with hm | hm
  · obtain ⟨c, hc, heq⟩ := List.mem_map.1 hm
    have hdue := h.calls c hc
    rw [Option.some.inj heq, hnone] at hdue
    cases hdue
  · rw [← map_fst_dueAt (t := s.ticks)] at hm
    obtain ⟨e, he, heq⟩ := List.mem_map.1 hm
    obtain ⟨id, d, rfl, hd⟩ := h.due e he
    rw [Option.some.inj heq, hnone] at hd
    cases hd

theorem Sound.due_update {id d : ℕ} {o : Option ℕ} (h : Sound s q) (hid : s.due id = some d) :
    Function.update s.due s.added o id = some d := by
  rw [Function.update_of_ne, hid]
  rintro rfl
  rw [h.fresh _ (le_refl _)] at hid
  cases hid

theorem Sound.fresh_update {o : Option ℕ} (h : Sound s q) (id : ℕ) (hid : s.added + 1 ≤ id) :
    Function.update s.due s.added o id = none := by
  rw [Function.update_of_ne (by omega)]
  exact h.fresh id (by omega)

/-- `add_timer` calls the function. -/
theorem Sound.add_called (h : Sound s q) (hticks : s'.ticks = s.ticks)
    (hadded : s'.added = s.added + 1)
    (hdue : s'.due = Function.update s.due s.added (some s.ticks))
    (hcalls : s'.calls = (s.added, s.ticks) :: s.calls) (hstack : s'.stack = s.stack) :
    Sound s' q := by
  refine ⟨fun e he => ?_, fun id d hd => ?_, fun c hc => ?_, ?_, h.first, h.rest,
    fun hidle => h.idle (hstack ▸ hidle), ?_⟩
  · rw [hticks] at he
    obtain ⟨id, d, rfl, hd⟩ := h.due e he
    exact ⟨id, d, rfl, hdue ▸ h.due_update hd⟩
  · rw [hticks, hcalls]
    rw [hdue] at hd
    by_cases hid : id = s.added
    · subst hid
      rw [Function.update_self] at hd
      exact .inl (Option.some.inj hd ▸ List.mem_cons_self)
    · rw [Function.update_of_ne hid] at hd
      exact (h.pending id d hd).imp_left (List.mem_cons_of_mem _)
  · rw [hcalls] at hc
    rw [hdue]
    rcases List.mem_cons.1 hc with rfl | hc
    · exact Function.update_self _ _ _
    · exact h.due_update (h.calls c hc)
  · rw [hcalls]
    exact List.nodup_cons.2 ⟨h.unused, h.once⟩
  · rw [hadded, hdue]
    exact h.fresh_update

/-- `add_timer` puts the timer behind all the others. -/
theorem Sound.add_queued (h : Sound s q) (hn : 0 < n)
    (hlt : ∀ e ∈ dueAt s.ticks q, e.2 < s.ticks + n) (hticks : s'.ticks = s.ticks)
    (hadded : s'.added = s.added + 1)
    (hdue : s'.due = Function.update s.due s.added (some (s.ticks + n.toNat)))
    (hcalls : s'.calls = s.calls) (hstack : s'.stack = s.stack) :
    Sound s' (enqueue (some s.added) n q) := by
  obtain ⟨d, hd, hq, hdueAt⟩ := enqueue_of_lt (some s.added) hlt hn
  have hcast : ((s.ticks + n.toNat : ℕ) : ℤ) = s.ticks + n := by omega
  rw [hq]
  have hpos : ∀ {es : List Entry}, (∀ e ∈ es, 0 < e.2) → ∀ e ∈ es ++ [(some s.added, d)], 0 < e.2 := by
    intro es hes e he
    rcases List.mem_append.1 he with he | he
    · exact hes e he
    · rw [List.mem_singleton.1 he]
      exact hd
  refine ⟨fun e he => ?_, fun id d hid => ?_, ?_, ?_, fun e he => ?_, fun e he => ?_,
    fun hidle => hpos (h.idle (hstack ▸ hidle)), ?_⟩
  · rw [hticks, hdueAt] at he
    rw [hdue]
    rcases List.mem_append.1 he with he | he
    · obtain ⟨id, d, rfl, hid⟩ := h.due e he
      exact ⟨id, d, rfl, h.due_update hid⟩
    · rw [List.mem_singleton.1 he, ← hcast]
      exact ⟨s.added, _, rfl, Function.update_self _ _ _⟩
  · rw [hticks, hcalls, hdueAt]
    rw [hdue] at hid
    by_cases hne : id = s.added
    · subst hne
      rw [Function.update_self] at hid
      rw [← Option.some.inj hid, hcast]
      exact .inr (List.mem_append_right _ (List.mem_singleton.2 rfl))
    · rw [Function.update_of_ne hne] at hid
      exact (h.pending id _ hid).imp_right (List.mem_append_left _)
  · rw [hcalls, hdue]
    exact fun c hc => h.due_update (h.calls c hc)
  · rw [hcalls, List.map_append, ← List.append_assoc]
    exact List.nodup_append_comm.1 (List.nodup_cons.2 ⟨h.unused, h.once⟩)
  · rcases List.mem_append.1 he with he | he
    · exact h.first e he
    · rw [List.mem_singleton.1 he]
      exact hd.le
  · cases q with
    | nil => cases he
    | cons e₀ q => exact hpos h.rest e he
  · rw [hadded, hdue]
    exact h.fresh_update

theorem Sound.tick (h : Sound s (e :: q)) (he : 0 < e.2) (hticks : s'.ticks = s.ticks + 1)
    (hadded : s'.added = s.added) (hdue : s'.due = s.due) (hcalls : s'.calls = s.calls)
    (hstack : s'.stack ≠ []) : Sound s' ((e.1, e.2 - 1) :: q) := by
  have hq : dueAt s'.ticks ((e.1, e.2 - 1) :: q) = dueAt s.ticks (e :: q) := by
    rw [hticks, Int.natCast_succ]
    exact dueAt_tick
  refine ⟨?_, ?_, ?_, ?_, fun e' he' => ?_, h.rest, fun hidle => absurd hidle hstack, ?_⟩
  · rw [hq, hdue]
    exact h.due
  · rw [hq, hdue, hcalls]
    exact h.pending
  · rw [hdue, hcalls]
    exact h.calls
  · rw [hcalls]
    exact h.once
  · rcases List.mem_cons.1 he' with rfl | he'
    · show 0 ≤ e.2 - 1
      omega
    · exact (h.rest e' he').le
  · rw [hadded, hdue]
    exact h.fresh

/-- The first timer is due, and its function is called. -/
theorem Sound.expire (h : Sound s (e :: q)) (he : e.2 ≤ 0) (hticks : s'.ticks = s.ticks)
    (hadded : s'.added = s.added) (hdue : s'.due = s.due)
    (hcalls : s'.calls = e.1.elim s.calls fun id => (id, s.ticks) :: s.calls)
    (hstack : s'.stack ≠ []) : Sound s' q := by
  obtain ⟨fn, d⟩ := e
  have hd : d = 0 := le_antisymm he (h.first _ List.mem_cons_self)
  subst hd
  have hpop : dueAt s.ticks ((fn, 0) :: q) = (fn, (s.ticks : ℤ)) :: dueAt s.ticks q := dueAt_pop
  obtain ⟨id, d, heq, hid⟩ := h.due (fn, (s.ticks : ℤ)) (hpop ▸ List.mem_cons_self)
  obtain ⟨rfl, hdt⟩ := Prod.ext_iff.1 heq
  obtain rfl : s.ticks = d := Int.ofNat_inj.1 hdt
  refine ⟨?_, fun id' d' hd' => ?_, fun c hc => ?_, ?_, fun e' he' => (h.rest e' he').le,
    fun e' he' => h.rest e' (List.mem_of_mem_tail he'), fun hidle => absurd hidle hstack, ?_⟩
  · rw [hticks, hdue]
    exact fun e' he' => h.due e' (hpop ▸ List.mem_cons_of_mem _ he')
  · rw [hcalls, hticks]
    rw [hdue] at hd'
    rcases h.pending id' d' hd' with hc | hq
    · exact .inl (List.mem_cons_of_mem _ hc)
    · rw [hpop] at hq
      rcases List.mem_cons.1 hq with heq | hq
      · obtain ⟨h1, h2⟩ := Prod.ext_iff.1 heq
        rw [Option.some.inj h1, Int.ofNat_inj.1 h2]
        exact .inl List.mem_cons_self
      · exact .inr hq
  · rw [hcalls] at hc
    rw [hdue]
    rcases List.mem_cons.1 hc with rfl | hc
    · exact hid
    · exact h.calls c hc
  · rw [hcalls]
    exact List.nodup_middle.1 h.once
  · rw [hadded, hdue]
    exact h.fresh

theorem dueTimer_eq_none (h : s.dueTimer = none) {i : Nr} (hi : s.nextTimer = some i) :
    0 < (s.timerList i).jiffies := by
  unfold State.dueTimer at h
  rw [hi] at h
  have hne := (Option.filter_eq_none_iff.1 h) i rfl
  rw [decide_eq_true_eq] at hne
  omega

/-- With no timer due, all are due in the future. -/
theorem Sound.pos {l : List Nr} (hl : Linked s.timerList s.nextTimer l)
    (h : Sound s (l.map (entry s.timerList))) (hdue : s.dueTimer = none) :
    ∀ e ∈ l.map (entry s.timerList), 0 < e.2 := by
  intro e he
  cases l with
  | nil => cases he
  | cons i l =>
    rcases List.mem_cons.1 he with rfl | he
    · exact dueTimer_eq_none hdue hl.path.1
    · exact h.rest e he

theorem Inv.add {jiffies : ℤ} {fn : Bool} (hI : Inv s) (hok : InOrder s (.add jiffies fn))
    (h : s.next (.add jiffies fn) = some s') : Inv s' := by
  obtain ⟨l, hl, hS⟩ := hI
  unfold State.next at h
  dsimp only at h
  split_ifs at h with hloop hfn
  · unfold State.addTimer at h
    dsimp only at h
    split_ifs at h with hn
    · obtain rfl := Option.some.inj h
      have hzero : jiffies.toNat = 0 := Int.toNat_of_nonpos hn
      exact ⟨l, hl, hS.add_called rfl rfl (by rw [hzero]; rfl) rfl rfl⟩
    · obtain ⟨i, hi, h⟩ := Option.bind_eq_some_iff.1 h
      obtain ⟨f, hf, rfl⟩ := Option.map_eq_some_iff.1 h
      have hfree : (s.timerList i).fn = none :=
        Option.isNone_iff_eq_none.1 (List.find?_some (p := fun p => (s.timerList p).fn.isNone) hi)
      obtain ⟨g, hg, hlinked, hes⟩ := hl.insert jiffies s.added hfree
      obtain rfl : g = f := Option.some.inj (hg.symm.trans hf)
      refine ⟨i :: l, hlinked, ?_⟩
      show Sound _ ((i :: l).map (entry g))
      rw [hes]
      refine hS.add_queued (by omega) (fun e he => ?_) rfl rfl rfl rfl rfl
      obtain ⟨id, d, rfl, hid, hmem⟩ := hS.mem he
      rw [List.map_map] at hmem
      obtain ⟨j, -, hj⟩ := List.mem_map.1 hmem
      exact hok (by omega) j id hj d hid
  · exact Option.some.inj h ▸ ⟨l, hl, hS⟩

theorem Inv.doTimer (hI : Inv s) (hok : s.dueTimer = none) : Inv s.doTimer := by
  obtain ⟨l, hl, hS⟩ := hI
  have hpos := hS.pos hl hok
  unfold State.doTimer
  dsimp only
  split
  · next hnone =>
    cases l with
    | nil =>
      exact ⟨[], hl, nofun, hS.pending, hS.calls, hS.once, nofun, nofun, nofun, hS.fresh⟩
    | cons i l => cases hnone.symm.trans hl.path.1
  · next i hsome =>
    cases l with
    | nil => cases hsome.symm.trans hl.path
    | cons j l =>
      obtain rfl : i = j := Option.some.inj (hsome.symm.trans hl.path.1)
      have hil : i ∉ l := (List.nodup_cons.1 hl.path.nodup).1
      refine ⟨i :: l, hl.update rfl rfl, ?_⟩
      dsimp only
      rw [List.map_cons, entry_setTimer_self, map_entry_setTimer hil]
      exact hS.tick (hpos _ List.mem_cons_self) rfl rfl rfl rfl (List.cons_ne_nil _ _)

theorem Inv.loop (hI : Inv s) :
    Inv (s.dueTimer.elim { s with stack := s.stack.tail, enabled := true } s.expire) := by
  obtain ⟨l, hl, hS⟩ := hI
  cases hdue : s.dueTimer with
  | none => exact ⟨l, hl, hS.congr rfl rfl rfl rfl fun _ => hS.pos hl hdue⟩
  | some i =>
    obtain ⟨hi, hle⟩ := Option.filter_eq_some_iff.1 hdue
    cases l with
    | nil =>
      rw [show s.nextTimer = none from hl.path] at hi
      cases hi
    | cons j l =>
      obtain rfl : j = i := Option.some.inj (hl.path.1.symm.trans hi)
      rw [hi] at hl
      obtain ⟨hlinked, hes⟩ := hl.pop
      refine ⟨l, hlinked, ?_⟩
      show Sound (s.expire j) (l.map (entry (setTimer s.timerList j { s.timerList j with fn := none })))
      rw [hes]
      exact hS.expire (of_decide_eq_true hle) rfl rfl rfl rfl (List.cons_ne_nil _ _)

theorem Inv.next {ev : Event} (hI : Inv s) (hok : InOrder s ev) (h : s.next ev = some s') : Inv s' := by
  cases ev with
  | add jiffies fn => exact hI.add hok h
  | tick =>
    unfold State.next at h
    dsimp only at h
    split_ifs at h
    exact Option.some.inj h ▸ hI.doTimer hok
  | loop =>
    unfold State.next at h
    dsimp only at h
    split_ifs at h
    exact Option.some.inj h ▸ hI.loop
  | ret =>
    obtain ⟨l, hl, hS⟩ := hI
    unfold State.next at h
    dsimp only at h
    split_ifs at h
    obtain rfl := Option.some.inj h
    exact ⟨l, hl, hS.congr rfl rfl rfl rfl nofun⟩
  | sti =>
    obtain ⟨l, hl, hS⟩ := hI
    unfold State.next at h
    dsimp only at h
    split_ifs at h
    obtain rfl := Option.some.inj h
    exact ⟨l, hl, hS.congr rfl rfl rfl rfl hS.idle⟩

end Steps

/-- Where every timer that is added is due after those in the list, and no tick comes before the timers
that are due are called, every function is called once, at its tick. -/
theorem timers_on_time {s : State} (h : timers.ReachableWhen InOrder s) : OnTime s := by
  obtain ⟨l, hl, hS⟩ : Inv s := by
    refine h.invariant (fun s hs => ?_) fun s e s' hI hok hs => hI.next hok hs
    subst hs
    exact ⟨[], ⟨rfl, fun i => iff_of_false (List.not_mem_nil) (fun h => h rfl)⟩, nofun, nofun, nofun,
      List.nodup_nil, nofun, nofun, nofun, fun _ _ => rfl⟩
  exact hS.onTime hl

instance (s : State) : ∀ e, Decidable (InOrder s e)
  | .add jiffies _ => inferInstanceAs (Decidable (0 < jiffies →
      ∀ p, ∀ id ∈ (s.timerList p).fn, ∀ d ∈ s.due id, (d : ℤ) < s.ticks + jiffies))
  | .tick => inferInstanceAs (Decidable (s.dueTimer = none))
  | .loop | .ret | .sti => .isTrue trivial

/-- Two timers; the function of the first adds another, and a tick comes before it returns. -/
theorem timers_on_time_two : ∃ s : State, s.calls = [(2, 6), (1, 5), (0, 2)] ∧ OnTime s := by
  have hrun : (System.execWhen State.next InOrder boot
      [.add 2 true, .add 5 true, .tick, .loop, .tick, .loop, .add 4 true, .tick, .loop, .ret, .loop,
        .tick, .loop, .tick, .loop, .ret, .loop, .tick, .loop]).any
      (fun s => decide (s.calls = [(2, 6), (1, 5), (0, 2)])) = true := by
    decide +kernel
  obtain ⟨s, hs, hcalls⟩ := (Option.any_eq_true _ _).1 hrun
  exact ⟨s, of_decide_eq_true hcalls, timers_on_time (.exec (fun _ _ _ h => h) (.init rfl) hs)⟩

/-- The delays that are added are positive. -/
def Positive (_ : State) : Event → Prop
  | .add jiffies _ => 0 < jiffies
  | _ => True

instance (s : State) : ∀ e, Decidable (Positive s e)
  | .add jiffies _ => inferInstanceAs (Decidable (0 < jiffies))
  | .tick | .loop | .ret | .sti => .isTrue trivial

/-- With five ticks to go for a timer, one of three ticks is added: the first fires after eight. -/
theorem shorter_delays_longer : ∃ s : State, timers.ReachableWhen Positive s ∧ ¬ OnTime s := by
  have hrun : (System.execWhen State.next Positive boot
      [.add 5 true, .add 3 true, .tick, .loop, .tick, .loop, .tick, .loop, .ret, .loop,
        .tick, .loop, .tick, .loop, .tick, .loop, .tick, .loop, .tick, .loop, .ret, .loop]).any
      (fun s => decide (s.calls = [(0, 8), (1, 3)] ∧ s.due 0 = some 5)) = true := by
    decide +kernel
  obtain ⟨s, hs, hcalls⟩ := (Option.any_eq_true _ _).1 hrun
  obtain ⟨hcalls, hdue⟩ := of_decide_eq_true hcalls
  refine ⟨s, .exec (fun _ _ _ h => h) (.init rfl) hs, fun h => ?_⟩
  have hcall := h.calls (0, 8) (hcalls ▸ List.mem_cons_self)
  rw [hdue] at hcall
  cases hcall

end Linux011.Timers
