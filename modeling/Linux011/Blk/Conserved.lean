import Linux011.Blk.Slots
import Linux011.Lib.Sweep
import Mathlib.Data.Fintype.Card
import Mathlib.Data.Prod.Lex

/-!
# No request is lost

1. The steps of `make_request`: `Rep.lockBuffer`, `Rep.repeats`, `Rep.addRequest`; `Rep.endRequest`.
2. `requests_kept`.
-/

namespace Linux011.Blk

variable {ι β : Type*} [DecidableEq ι] [DecidableEq β]

variable {s s' : State ι β} {queue : Major → List Slot} {place : Slot → Place ι}
  {own : β → Option (Owner ι)} {p : ι} {b : β} {i : Slot} {major : Major} {cmd : Cmd} {ahead : Bool}
  {c : Pc β}

section Steps

theorem Rep.lockBuffer (h : Rep s queue place own) (hold : (s.proc p).holds = none)
    (hslot : (s.proc p).slot = none) :
    ∃ own', Rep (s.lockBuffer p major cmd ahead b) queue place own' := by
  unfold State.lockBuffer
  dsimp only
  split
  · exact ⟨own, h.setProc hold hslot rfl rfl⟩
  · next hl =>
    have hb : own b = none := by
      have hlock := h.lock b
      rw [Bool.eq_false_iff.2 hl] at hlock
      exact Option.not_isSome_iff_eq_none.1 (by rw [← hlock]; exact Bool.false_ne_true)
    have hno : ∀ i, own b ≠ some (.slot i) := fun i => by rw [hb]; nofun
    split
    · have hset : ((s.setBh b { s.bh b with lock := true }).unlockBuffer b).setProc p .out =
          (s.setBh b { s.bh b with lock := false }).setProc p .out := by
        unfold State.unlockBuffer State.setBh State.setProc
        dsimp only
        rw [Function.update_self, Function.update_idem]
      rw [hset]
      exact ⟨_, h.setLock hno (.inl ⟨hb, hold⟩) hslot rfl (.inr ⟨rfl, rfl⟩)⟩
    · exact ⟨_, h.setLock hno (.inl ⟨hb, hold⟩) hslot rfl (.inl ⟨rfl, rfl⟩)⟩

omit [DecidableEq ι] [DecidableEq β] in
theorem search_spec (h : s.search cmd = some i) :
    (cmd = .write → i.val < 21) ∧ (s.request i).dev < 0 := by
  unfold State.search at h
  have hi := List.find?_some h
  obtain ⟨hlow, hdev⟩ := Bool.and_eq_true_iff.1 hi
  refine ⟨fun hw => ?_, of_decide_eq_true hdev⟩
  rcases Bool.or_eq_true_iff.1 hlow with hr | hlt
  · rw [hw] at hr
    exact absurd (of_decide_eq_true hr) (by decide)
  · exact of_decide_eq_true hlt

theorem Rep.repeats (h : Rep s queue place own) (hp : s.proc p = .repeating major cmd ahead b) :
    ∃ place' own', Rep (s.repeats p major cmd ahead b) queue place' own' := by
  have hold : (s.proc p).holds = some b := by rw [hp]; rfl
  have hslot : (s.proc p).slot = none := by rw [hp]; rfl
  unfold State.repeats
  split
  · next i hi =>
    obtain ⟨hw, hdev⟩ := search_spec hi
    have hfree : place i = .free := by
      by_contra hne
      have := h.used i hne
      omega
    exact ⟨_, own, h.fill hold hslot hfree (Int.natCast_nonneg _) rfl hw⟩
  · split
    · have hb : own b = some (.proc p) := (h.proc b p).2 hold
      refine ⟨place, _, h.setLock (fun i => ?_) (.inr hb) hslot rfl (.inr ⟨rfl, rfl⟩)⟩
      rw [hb]
      nofun
    · exact ⟨place, own, h⟩

theorem Rep.makeRequest (h : Rep s queue place own) (hp : s.proc p = .out) {rw' : Rw} :
    ∃ own', Rep (s.llRwBlock p rw' b) queue place own' := by
  unfold State.llRwBlock
  split
  · unfold State.makeRequest
    split
    · exact ⟨own, h⟩
    · exact h.lockBuffer (by rw [hp]; rfl) (by rw [hp]; rfl)
  · exact ⟨own, h⟩

def State.before (s : State ι β) (i j : Slot) : Prop := s.inOrder i j = true

instance (s : State ι β) : DecidableRel s.before :=
  fun i j => inferInstanceAs (Decidable (s.inOrder i j = true))

/-- What `IN_ORDER` compares. -/
def Request.key (r : Request β) : ℕ ×ₗ ℤ ×ₗ ℕ :=
  toLex (r.cmd.code, toLex (r.dev, r.sector.toNat))

def State.key (s : State ι β) (i : Slot) : ℕ ×ₗ ℤ ×ₗ ℕ :=
  (s.request i).key

theorem Cmd.code_inj {c d : Cmd} : c.code = d.code ↔ c = d := by
  cases c <;> cases d <;> decide

omit [DecidableEq ι] [DecidableEq β] in
theorem before_iff {i j : Slot} : s.before i j ↔ s.key i < s.key j := by
  unfold State.before State.inOrder State.key Request.key
  simp only [Prod.Lex.toLex_lt_toLex, Bool.or_eq_true, Bool.and_eq_true, decide_eq_true_eq,
    Cmd.code_inj, BitVec.ult]

omit [DecidableEq ι] [DecidableEq β] in
theorem before_congr {s' : State ι β} (h : ∀ j, s'.key j = s.key j) : s'.before = s.before := by
  funext i j
  rw [eq_iff_iff, before_iff, before_iff, h, h]

omit [DecidableEq ι] [DecidableEq β] in
/-- The loop of `add_request` comes to an end, at a request of the queue. -/
theorem place_spec (req : Slot) {tmp : Slot} {l : List Slot} {n : ℕ}
    (h : Path s.links (some tmp) (tmp :: l) none) (hn : (tmp :: l).length ≤ n) :
    ∃ at_ xs ys, s.place req n tmp = some at_ ∧ tmp :: l = xs ++ at_ :: ys ∧
      xs ++ at_ :: req :: ys = tmp :: sweepInsert s.before req tmp l := by
  induction n generalizing tmp l with
  | zero => exact absurd hn (Nat.not_succ_le_zero _)
  | succ n ih =>
    unfold State.place
    have hnext := h.2
    cases l with
    | nil =>
      have hnone : (s.request tmp).next = none := hnext
      rw [hnone]
      exact ⟨tmp, [], [], rfl, rfl, rfl⟩
    | cons c l =>
      have hsome : (s.request tmp).next = some c := hnext.1
      have htest : ((s.inOrder tmp req || !s.inOrder tmp c) && s.inOrder req c) = true ↔
          Admits s.before req tmp c := by
        unfold Admits State.before
        rw [Bool.and_eq_true, Bool.or_eq_true, Bool.not_eq_true', Bool.not_eq_true]
      rw [hsome]
      unfold sweepInsert
      dsimp only
      by_cases ht : ((s.inOrder tmp req || !s.inOrder tmp c) && s.inOrder req c) = true
      · rw [if_pos ht, if_pos (htest.1 ht)]
        exact ⟨tmp, [], c :: l, rfl, rfl, rfl⟩
      · have hpath : Path s.links (some c) (c :: l) none := ⟨rfl, hnext.2⟩
        obtain ⟨a, xs, ys, ha, hl, hins⟩ := ih hpath (Nat.le_of_succ_le_succ hn)
        rw [if_neg ht, if_neg fun h' => ht (htest.2 h'), ← hins]
        exact ⟨a, tmp :: xs, ys, ha, congrArg (tmp :: ·) hl, rfl⟩

/-- The first request stays the first, and the others stay in their order. -/
def Inserted (i : Slot) : List Slot → List Slot → Prop
  | [], l' => l' = [i]
  | a :: l, l' => ∃ xs ys, l = xs ++ ys ∧ l' = a :: xs ++ i :: ys

theorem Inserted.after {a : Slot} {l xs ys : List Slot} (h : l = xs ++ a :: ys) :
    Inserted i l (xs ++ a :: i :: ys) := by
  subst h
  cases xs with
  | nil => exact ⟨[], ys, rfl, rfl⟩
  | cons x xs => exact ⟨xs ++ [a], ys, by simp, by simp⟩

theorem Inserted.mem {l l' : List Slot} (h : Inserted i l l') {j : Slot} :
    j ∈ l' ↔ j ∈ l ∨ j = i := by
  cases l with
  | nil =>
    rw [show l' = [i] from h, List.mem_singleton]
    simp
  | cons a l =>
    obtain ⟨xs, ys, rfl, rfl⟩ := h
    simp only [List.mem_append, List.mem_cons, List.cons_append]
    tauto

omit [DecidableEq ι] [DecidableEq β] in
theorem links_setRequest {r : Request β} :
    (s.setRequest i r).links = Function.update s.links i r.next := by
  funext j
  by_cases hj : j = i
  · subst hj
    rw [Function.update_self]
    exact congrArg Request.next request_self
  · rw [Function.update_of_ne hj]
    exact congrArg Request.next (request_of_ne hj)

/-- Only links are other ones. -/
def State.Relinks (s t : State ι β) : Prop :=
  ∀ j, ∃ x, t.request j = { s.request j with next := x }

section Relinks

omit [DecidableEq ι] [DecidableEq β]

variable {t u : State ι β}

theorem relinks_setRequest (s : State ι β) (i : Slot) (x : Option Slot) :
    s.Relinks (s.setRequest i { s.request i with next := x }) := by
  intro j
  by_cases hj : j = i
  · rw [hj]
    exact ⟨x, request_self⟩
  · exact ⟨(s.request j).next, request_of_ne hj⟩

theorem State.Relinks.trans (h : s.Relinks t) (h' : t.Relinks u) : s.Relinks u := by
  intro j
  obtain ⟨x, hx⟩ := h j
  obtain ⟨y, hy⟩ := h' j
  exact ⟨y, by rw [hy, hx]⟩

theorem State.Relinks.key (h : s.Relinks t) (j : Slot) : t.key j = s.key j := by
  obtain ⟨x, hx⟩ := h j
  unfold State.key
  rw [hx]
  rfl

theorem State.Relinks.same (h : s.Relinks t) (j : Slot) : (t.request j).dev = (s.request j).dev ∧
    (t.request j).cmd = (s.request j).cmd ∧ (t.request j).bh = (s.request j).bh ∧
    (t.request j).id = (s.request j).id := by
  obtain ⟨x, hx⟩ := h j
  rw [hx]
  exact ⟨rfl, rfl, rfl, rfl⟩

end Relinks

/-- `i` is linked behind `c`. -/
def State.linkAfter (t : State ι β) (i c : Slot) : State ι β :=
  let t₁ := t.setRequest i { t.request i with next := (t.request c).next }
  t₁.setRequest c { t₁.request c with next := some i }

omit [DecidableEq ι] [DecidableEq β] in
theorem linkAfter_links {c : Slot} : (s.linkAfter i c).links =
    Function.update (Function.update s.links i (s.links c)) c (some i) := by
  unfold State.linkAfter
  rw [links_setRequest, links_setRequest]
  rfl

omit [DecidableEq ι] [DecidableEq β] in
theorem relinks_linkAfter (s : State ι β) (i c : Slot) : s.Relinks (s.linkAfter i c) :=
  (relinks_setRequest s i _).trans (relinks_setRequest _ c _)

/-- `t` has what `add_request` does before it looks at the queue. -/
structure Readied (s t : State ι β) (i : Slot) : Prop where
  links : t.links = Function.update s.links i none
  current : t.current = s.current
  same : ∀ j, (t.request j).dev = (s.request j).dev ∧ (t.request j).cmd = (s.request j).cmd ∧
    (t.request j).bh = (s.request j).bh
  key : ∀ j, t.key j = s.key j
  id_other : ∀ j ≠ i, (t.request j).id = (s.request j).id
  id_self : (t.request i).id = s.added
  lock : ∀ d, (t.bh d).lock = (s.bh d).lock
  proc : t.proc = s.proc
  added : t.added = s.added + 1
  completed : t.completed = s.completed

omit [DecidableEq ι] in
theorem readied (hbi : (s.request i).bh = some b) : Readied s
    (State.clean { s.setRequest i { s.request i with next := none, id := s.added } with
      added := s.added + 1 } (s.request i).bh) i := by
  obtain ⟨t₀, ht₀⟩ : ∃ t : State ι β,
    t = { s.setRequest i { s.request i with next := none, id := s.added } with
      added := s.added + 1 } := ⟨_, rfl⟩
  obtain ⟨t, ht⟩ : ∃ t, t = t₀.setBh b { t₀.bh b with dirt := false } := ⟨_, rfl⟩
  have hself : t.request i = { s.request i with next := none, id := s.added } := by
    rw [ht, ht₀]
    exact request_self
  have hother : ∀ j ≠ i, t.request j = s.request j := by
    intro j hj
    rw [ht, ht₀]
    exact request_of_ne hj
  rw [← ht₀, hbi]
  change Readied s (t₀.setBh b { t₀.bh b with dirt := false }) i
  rw [← ht]
  refine ⟨?_, by rw [ht, ht₀]; rfl, fun j => ?_, fun j => ?_,
    fun j hj => congrArg Request.id (hother j hj), congrArg Request.id hself, fun d => ?_,
    by rw [ht, ht₀]; rfl, by rw [ht, ht₀]; rfl, by rw [ht, ht₀]; rfl⟩
  · rw [ht, ht₀]
    exact links_setRequest
  · by_cases hj : j = i
    · rw [hj, hself]
      exact ⟨rfl, rfl, rfl⟩
    · rw [hother j hj]
      exact ⟨rfl, rfl, rfl⟩
  · unfold State.key
    by_cases hj : j = i
    · rw [hj, hself]
      rfl
    · rw [hother j hj]
  · have hbh : t.bh = (s.setBh b { s.bh b with dirt := false }).bh := by rw [ht, ht₀]; rfl
    rw [hbh]
    by_cases hd : d = b
    · rw [hd, bh_self]
    · rw [bh_of_ne hd]

section Queue

variable {t : State ι β}

omit [DecidableEq ι] [DecidableEq β] in
theorem Inserted.mem_update {l : List Slot} {m : Major} {j : Slot} (hl : Inserted i (queue major) l) :
    j ∈ Function.update queue major l m ↔ j ∈ queue m ∨ m = major ∧ j = i := by
  by_cases hm : m = major
  · subst hm
    rw [Function.update_self, hl.mem, and_iff_right rfl]
  · rw [Function.update_of_ne hm]
    exact ⟨.inl, fun h => h.resolve_right fun h => hm h.1⟩

omit [DecidableEq ι] [DecidableEq β] in
/-- A request that a process holds is on no queue. -/
theorem Rep.adding_not_mem (h : Rep s queue place own) (hp : s.proc p = .adding major i b)
    (m : Major) : i ∉ queue m := by
  intro hm
  have hq := (h.queued m i).1 hm
  rw [(h.filled p i).2 (by rw [hp]; rfl)] at hq
  cases hq

omit [DecidableEq ι] [DecidableEq β] in
theorem Rep.path_readied (h : Rep s queue place own) (hp : s.proc p = .adding major i b)
    (ht : Readied s t i) (m : Major) : Path t.links (s.current m) (queue m) none := by
  rw [ht.links]
  exact (h.path m).update (h.adding_not_mem hp m) none

/-- The queue is empty. -/
theorem Rep.enqueueFirst (h : Rep s queue place own) (hp : s.proc p = .adding major i b)
    (ht : Readied s t i) (hempty : queue major = []) :
    Rep (State.setProc { t with current := Function.update t.current major (some i) } p .out)
      (Function.update queue major [i]) (Function.update place i (.queued major))
      (Function.update own b (some (.slot i))) := by
  have hl : Inserted i (queue major) [i] := by
    rw [hempty]
    rfl
  refine h.enqueue hp ?_ (fun _ _ => hl.mem_update) ht.same ht.id_other ht.id_self ht.lock ?_
    ht.added ht.completed
  · intro m
    show Path t.links (Function.update t.current major (some i) m) _ none
    by_cases hm : m = major
    · subst hm
      rw [Function.update_self, Function.update_self, ht.links]
      exact ⟨rfl, Function.update_self _ _ _⟩
    · rw [Function.update_of_ne hm, Function.update_of_ne hm, ht.current]
      exact h.path_readied hp ht m
  · show Function.update t.proc p .out = _
    rw [ht.proc]

/-- The request goes behind `c`. -/
theorem Rep.enqueueAfter {xs ys : List Slot} {c : Slot} (h : Rep s queue place own)
    (hp : s.proc p = .adding major i b) (ht : Readied s t i) (hq : queue major = xs ++ c :: ys) :
    Rep ((t.linkAfter i c).setProc p .out) (Function.update queue major (xs ++ c :: i :: ys))
      (Function.update place i (.queued major)) (Function.update own b (some (.slot i))) := by
  have hr := relinks_linkAfter t i c
  have hpath := h.path_readied hp ht
  have hnot := h.adding_not_mem hp
  have hc : c ∈ queue major := by
    rw [hq]
    exact List.mem_append_right _ List.mem_cons_self
  have hdisjoint : ∀ m ≠ major, c ∉ queue m := by
    intro m hm hcm
    have h1 := (h.queued major c).1 hc
    rw [(h.queued m c).1 hcm] at h1
    exact hm (Place.queued.inj h1)
  refine h.enqueue hp ?_ (fun _ _ => (Inserted.after hq).mem_update) ?_ ?_ ?_ ht.lock ?_
    ht.added ht.completed
  · intro m
    show Path (t.linkAfter i c).links (t.current m) _ none
    rw [linkAfter_links, ht.current]
    by_cases hm : m = major
    · subst hm
      rw [Function.update_self]
      exact (hq ▸ hpath m).insertAfter (hq ▸ hnot m)
    · rw [Function.update_of_ne hm]
      exact ((hpath m).update (hnot m) _).update (hdisjoint m hm) _
  · intro j
    obtain ⟨h1, h2, h3, -⟩ := hr.same j
    obtain ⟨g1, g2, g3⟩ := ht.same j
    exact ⟨h1.trans g1, h2.trans g2, h3.trans g3⟩
  · exact fun j hj => (hr.same j).2.2.2.trans (ht.id_other j hj)
  · exact (hr.same i).2.2.2.trans ht.id_self
  · show Function.update t.proc p .out = _
    rw [ht.proc]

end Queue

theorem Rep.addRequest (h : Rep s queue place own) (hp : s.proc p = .adding major i b) :
    ∃ s₁ l, s.addRequest major i = some s₁ ∧
      Rep (s₁.setProc p .out) (Function.update queue major l)
        (Function.update place i (.queued major)) (Function.update own b (some (.slot i))) ∧
      Inserted i (queue major) l ∧ (∀ j, s₁.key j = s.key j) ∧
      l = queueInsert s.before i (queue major) := by
  obtain ⟨t, htc⟩ : ∃ t, t = State.clean
    { s.setRequest i { s.request i with next := none, id := s.added } with
      added := s.added + 1 } (s.request i).bh := ⟨_, rfl⟩
  have ht : Readied s t i := htc ▸ readied (h.adding p major i b hp)
  have hnone (h0 : t.current major = none) :
      s.addRequest major i = some { t with current := Function.update t.current major (some i) } := by
    rw [htc] at h0 ⊢
    unfold State.addRequest
    dsimp only
    rw [h0]
  have hsome (tmp) (h0 : t.current major = some tmp) :
      s.addRequest major i = (t.place i 32 tmp).map fun c => t.linkAfter i c := by
    rw [htc] at h0 ⊢
    unfold State.addRequest
    dsimp only
    rw [h0]
    rfl
  have hq := h.path_readied hp ht major
  rw [← ht.current] at hq
  rcases hcur : t.current major with _ | tmp
  · rw [hnone hcur]
    rw [hcur] at hq
    have hempty : queue major = [] := hq.eq_nil
    refine ⟨_, [i], rfl, h.enqueueFirst hp ht hempty, ?_, ht.key, ?_⟩
    · rw [hempty]
      rfl
    · rw [hempty]
      rfl
  · obtain ⟨l, hl⟩ : ∃ l, queue major = tmp :: l := by
      rw [hcur] at hq
      cases hqm : queue major with
      | nil =>
        rw [hqm] at hq
        cases hq
      | cons a l =>
        rw [hqm] at hq
        exact ⟨l, by rw [Option.some.inj hq.1]⟩
    rw [hcur, hl] at hq
    have hlen : (tmp :: l).length ≤ 32 := hq.nodup.length_le_card
    obtain ⟨c, xs, ys, hplace, hsplit, hkeys⟩ := place_spec i hq hlen
    rw [hsome tmp hcur, hplace, Option.map_some]
    refine ⟨_, xs ++ c :: i :: ys, rfl, h.enqueueAfter hp ht (hl.trans hsplit),
      Inserted.after (hl.trans hsplit), fun j => ((relinks_linkAfter t i c).key j).trans (ht.key j), ?_⟩
    rw [hl]
    simp only [before_congr ht.key] at hkeys
    exact hkeys

end Steps

section Runs

/-- What a step does to the queues. -/
def Serves (s : State ι β) (e : Event ι β) (s' : State ι β) (major : Major)
    (l l' : List Slot) : Prop :=
  l' = l ∨ (∃ p i b, e = .run p ∧ s.proc p = .adding major i b ∧ Inserted i l l') ∨
    ∃ u i, e = .endRequest major u ∧ l = i :: l' ∧
      s'.completed = s.completed ++ [(s.request i).id]

theorem Rep.run (h : Rep s queue place own) (hs : s.run p = some s') :
    ∃ queue' place' own', Rep s' queue' place' own' ∧
      ∀ m, Serves s (.run p) s' m (queue m) (queue' m) := by
  unfold State.run at hs
  split at hs
  · cases hs
  · next major cmd ahead b hp =>
    cases hs
    obtain ⟨own', h'⟩ := h.lockBuffer (p := p) (by rw [hp]; rfl) (by rw [hp]; rfl)
    exact ⟨queue, place, own', h', fun _ => .inl rfl⟩
  · next major cmd ahead b hp =>
    cases hs
    obtain ⟨place', own', h'⟩ := h.repeats hp
    exact ⟨queue, place', own', h', fun _ => .inl rfl⟩
  · next major i b hp =>
    obtain ⟨s₁, l, hadd, h', hins, -⟩ := h.addRequest hp
    rw [hadd] at hs
    cases hs
    refine ⟨_, _, _, h', fun m => ?_⟩
    by_cases hm : m = major
    · subst hm
      rw [Function.update_self]
      exact .inr (.inl ⟨p, i, b, rfl, hp, hins⟩)
    · rw [Function.update_of_ne hm]
      exact .inl rfl

omit [DecidableEq ι] in
theorem Rep.endRequest (h : Rep s queue place own) {uptodate : Bool}
    (hs : s.endRequest major uptodate = some s') :
    ∃ queue' place' own', Rep s' queue' place' own' ∧
      ∀ m, Serves s (.endRequest major uptodate) s' m (queue m) (queue' m) := by
  obtain ⟨i, hcur, hs⟩ := Option.map_eq_some_iff.1 hs
  obtain ⟨rest, hq⟩ : ∃ rest, queue major = i :: rest := by
    have hp := h.path major
    rw [hcur] at hp
    cases hqm : queue major with
    | nil =>
      rw [hqm] at hp
      cases hp
    | cons a l =>
      rw [hqm] at hp
      exact ⟨l, by rw [Option.some.inj hp.1]⟩
  obtain ⟨b, hb⟩ := Option.ne_none_iff_exists'.1
    (h.bh i major ((h.queued major i).1 (hq ▸ List.mem_cons_self)))
  obtain ⟨t, ht⟩ : ∃ t, t = s.finish uptodate (s.request i).bh := ⟨_, rfl⟩
  have htb : t = s.setBh b { s.bh b with uptodate := uptodate, lock := false } := by
    rw [ht, hb]
    rfl
  dsimp only at hs
  rw [← ht] at hs
  have hsame : t.request = s.request ∧ t.current = s.current ∧ t.proc = s.proc ∧
      t.added = s.added ∧ t.completed = s.completed := by
    rw [htb]
    exact ⟨rfl, rfl, rfl, rfl, rfl⟩
  obtain ⟨hrequest, hcurrent, hproc, hadded, hcompleted⟩ := hsame
  have hbh : s'.bh = t.bh := by rw [← hs]; rfl
  have hdone : s'.completed = s.completed ++ [(s.request i).id] := by rw [← hs, hcompleted]
  refine ⟨_, _, _, h.dequeue hq rfl hb ?_ ?_ ?_ ?_ ?_ hdone, fun m => ?_⟩
  · rw [← hs, ← hrequest]
    rfl
  · rw [← hs, hcurrent]
  · intro d
    rw [hbh, htb]
    by_cases hd : d = b
    · rw [if_pos hd, hd, bh_self]
    · rw [if_neg hd, bh_of_ne hd]
  · rw [← hs]
    exact hproc
  · rw [← hs]
    exact hadded
  · by_cases hm : m = major
    · subst hm
      rw [Function.update_self]
      exact .inr (.inr ⟨uptodate, i, rfl, hq, hdone⟩)
    · rw [Function.update_of_ne hm]
      exact .inl rfl

theorem Rep.next (h : Rep s queue place own) {e : Event ι β} (hs : s.next e = some s') :
    ∃ queue' place' own', Rep s' queue' place' own' ∧
      ∀ m, Serves s e s' m (queue m) (queue' m) := by
  cases e with
  | llRwBlock p rw' b =>
    unfold State.next at hs
    dsimp only at hs
    split at hs
    · next hp =>
      cases hs
      obtain ⟨own', h'⟩ := h.makeRequest hp
      exact ⟨queue, place, own', h', fun _ => .inl rfl⟩
    · cases hs
  | run p => exact h.run hs
  | endRequest major uptodate => exact h.endRequest hs
  | advance major errors sector nrSectors =>
    obtain ⟨i, -, rfl⟩ := Option.map_eq_some_iff.1 hs
    exact ⟨queue, place, own, h.advance rfl rfl rfl rfl rfl, fun _ => .inl rfl⟩
  | use b v =>
    cases hs
    exact ⟨queue, place, own, h.setBh rfl, fun _ => .inl rfl⟩

omit [DecidableEq ι] [DecidableEq β] in
theorem Rep.initial (driver : Major → Bool) (bh : β → BufferHead) :
    Rep (initial driver bh : State ι β) (fun _ => []) (fun _ => .free) (fun _ => none) where
  path _ := rfl
  queued _ _ := iff_of_false List.not_mem_nil nofun
  filled _ _ := iff_of_false nofun nofun
  free _ _ := rfl
  used _ h := absurd rfl h
  adding _ _ _ _ h := nomatch h
  lock _ := rfl
  proc _ _ := iff_of_false nofun nofun
  slot _ _ := iff_of_false nofun fun h => nomatch h.1
  bh _ _ h := nomatch h
  write _ h := absurd rfl h
  id_lt _ _ h := nomatch h
  id_inj _ _ _ _ h := nomatch h
  completed_lt _ h := nomatch h
  fresh _ _ h := nomatch h
  all _ h := absurd h (Nat.not_lt_zero _)
  nodup := List.nodup_nil

theorem reachable_rep (h : (requests ι β).Reachable s) :
    ∃ queue place own, Rep s queue place own := by
  refine h.invariant (I := fun s => ∃ queue place own, Rep s queue place own) ?_ ?_
  · rintro s ⟨driver, bh, rfl⟩
    exact ⟨_, _, _, .initial driver bh⟩
  · rintro s e s' ⟨queue, place, own, h⟩ hs
    obtain ⟨queue', place', own', h', -⟩ := h.next hs
    exact ⟨queue', place', own', h'⟩

namespace State

/-- The requests from `current_request` on. -/
def Queue (s : State ι β) (major : Major) (l : List Slot) : Prop :=
  Path s.links (s.current major) l none

def OnQueue (s : State ι β) (i : Slot) (major : Major) : Prop :=
  ∃ l, s.Queue major l ∧ i ∈ l

/-- A call of `make_request` has filled up the slot, and is before the `cli` of `add_request`. -/
def Filling (s : State ι β) (i : Slot) : Prop :=
  ∃ p, (s.proc p).slot = some i

def Holds (s : State ι β) (b : β) : Owner ι → Prop
  | .slot i => (∃ m, s.OnQueue i m) ∧ (s.request i).bh = some b
  | .proc p => (s.proc p).holds = some b

end State

structure Conserved (s : State ι β) : Prop where
  queue : ∀ m, ∃ l, s.Queue m l ∧ l.Nodup
  free : ∀ i, (s.request i).dev = -1 ↔ (∀ m, ¬ s.OnQueue i m) ∧ ¬ s.Filling i
  once : ∀ i m n, s.OnQueue i m → s.OnQueue i n → m = n
  /-- A queued request, or a call of `make_request`, has the lock. -/
  lock : ∀ b, (s.bh b).lock = true ↔ ∃ h, s.Holds b h
  owner : ∀ b h h', s.Holds b h → s.Holds b h' → h = h'
  /-- A request is completed or on a queue. -/
  kept : ∀ n < s.added, n ∈ s.completed ↔ ¬ ∃ i m, s.OnQueue i m ∧ (s.request i).id = n
  single : ∀ i j m n, s.OnQueue i m → s.OnQueue j n → (s.request i).id = (s.request j).id → i = j
  completed : s.completed.Nodup
  /-- The last third of the slots is left to the reads. -/
  write : (Finset.univ.filter fun i =>
    (s.request i).dev ≠ -1 ∧ (s.request i).cmd = .write).card * 3 ≤ 2 * Fintype.card Slot

omit [DecidableEq ι] [DecidableEq β] in
theorem Rep.onQueue (h : Rep s queue place own) {m : Major} :
    s.OnQueue i m ↔ place i = .queued m := by
  rw [← h.queued]
  constructor
  · rintro ⟨l, hl, hi⟩
    rwa [(h.path m).unique hl]
  · exact fun hi => ⟨queue m, h.path m, hi⟩

omit [DecidableEq ι] [DecidableEq β] in
theorem Rep.conserved (h : Rep s queue place own) : Conserved s := by
  have hholds : ∀ b o, s.Holds b o ↔ own b = some o := by
    intro b o
    cases o with
    | slot i =>
      rw [h.slot]
      exact and_congr_left fun _ => exists_congr fun m => h.onQueue
    | proc p => exact (h.proc b p).symm
  refine ⟨fun m => ⟨queue m, h.path m, (h.path m).nodup⟩, ?_, ?_, ?_, ?_, ?_, ?_, h.nodup, ?_⟩
  · intro i
    constructor
    · intro hdev
      have hfree : place i = .free := by
        by_contra hne
        have := h.used i hne
        omega
      refine ⟨fun m hm => ?_, ?_⟩
      · rw [h.onQueue, hfree] at hm
        cases hm
      · rintro ⟨p, hp⟩
        rw [← h.filled, hfree] at hp
        cases hp
    · rintro ⟨hq, hf⟩
      refine h.free i ?_
      rcases hpl : place i with _ | m | p
      · rfl
      · exact absurd (h.onQueue.2 hpl) (hq m)
      · exact absurd ⟨p, (h.filled p i).1 hpl⟩ hf
  · intro i m n hm hn
    rw [h.onQueue] at hm hn
    rw [hm] at hn
    exact Place.queued.inj hn
  · intro b
    rw [h.lock, Option.isSome_iff_exists]
    exact exists_congr fun o => (hholds b o).symm
  · intro b o o' ho ho'
    rw [hholds] at ho ho'
    exact Option.some.inj (ho.symm.trans ho')
  · intro n hn
    constructor
    · rintro hc ⟨i, m, hi, rfl⟩
      exact h.fresh i m (h.onQueue.1 hi) hc
    · intro hno
      refine (h.all n hn).resolve_right ?_
      rintro ⟨i, m, hi, hid⟩
      exact hno ⟨i, m, h.onQueue.2 hi, hid⟩
  · intro i j m n hi hj
    exact h.id_inj i j m n (h.onQueue.1 hi) (h.onQueue.1 hj)
  · have hsub : (Finset.univ.filter fun i => (s.request i).dev ≠ -1 ∧ (s.request i).cmd = .write) ⊆
        Finset.univ.filter fun i : Slot => i.val < 21 := by
      intro i hi
      obtain ⟨-, hdev, hw⟩ := Finset.mem_filter.1 hi
      exact Finset.mem_filter.2 ⟨Finset.mem_univ _, h.write i (fun hf => hdev (h.free i hf)) hw⟩
    have hcard : (Finset.univ.filter fun i : Slot => i.val < 21).card = 21 := by decide
    have hle := Finset.card_le_card hsub
    rw [Fintype.card_fin]
    omega

/-- The slots, the queues and the locks of the buffers agree, whatever the processes and the drivers
do. The first request of a queue stays the first until it is completed, and a request is taken from
its queue only by the `end_request` that completes it. -/
theorem requests_kept (h : (requests ι β).Reachable s) :
    Conserved s ∧ (∀ p m i b, s.proc p = .adding m i b → ∃ s', (requests ι β).step s (.run p) s') ∧
    ∀ e s', (requests ι β).step s e s' → ∀ m l, s.Queue m l →
      ∃ l', s'.Queue m l' ∧ Serves s e s' m l l' := by
  obtain ⟨queue, place, own, h⟩ := reachable_rep h
  refine ⟨h.conserved, ?_, ?_⟩
  · intro p m i b hp
    obtain ⟨s₁, l, hadd, -⟩ := h.addRequest hp
    refine ⟨s₁.setProc p .out, ?_⟩
    show s.run p = _
    unfold State.run
    rw [hp]
    dsimp only
    rw [hadd]
    rfl
  · intro e s' hs m l hl
    obtain ⟨queue', place', own', h', hserves⟩ := h.next hs
    exact ⟨queue' m, h'.path m, (h.path m).unique hl ▸ hserves m⟩

/-- While one request is in service two more come, and the second goes before the first. -/
theorem requests_kept_two : ∃ s : State Bool (Fin 3), s.completed = [0] ∧
    s.current 3 = some 29 ∧ (s.request 29).next = some 30 ∧ Conserved s := by
  have hrun : (System.execWhen State.next (fun _ _ => True)
      (initial (fun m => m = 3)
        fun b => ⟨0x301, 9 - b.val, false, false, false⟩ : State Bool (Fin 3))
      [.llRwBlock true .read 0, .run true, .run true, .llRwBlock true .read 1, .run true, .run true,
        .llRwBlock false .reada 2, .run false, .run false, .llRwBlock true .read 1,
        .endRequest 3 true]).any (fun s => decide (s.completed = [0] ∧ s.current 3 = some 29 ∧
          (s.request 29).next = some 30)) = true := by
    decide +kernel
  obtain ⟨s, hs, hstate⟩ := (Option.any_eq_true _ _).1 hrun
  obtain ⟨h1, h2, h3⟩ := of_decide_eq_true hstate
  have hreach : (requests Bool (Fin 3)).Reachable s :=
    .exec (fun _ _ _ h => h) (.init ⟨_, _, rfl⟩) hs
  exact ⟨s, h1, h2, h3, (requests_kept hreach).1⟩

end Runs

end Linux011.Blk
