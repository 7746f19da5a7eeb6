import Linux011.Blk.Conserved

/-!
# The order of a device queue

1. `State.next_key`: the keys of queued requests change only where a driver is at work.
2. `Orderly`: steps that put requests with even sectors and new keys on a queue, and advance the one
   in service by a sector. `elevator_sweeps`: every queue is the rest of a sweep and the next sweep.
3. `read_first_iff`: when a new read stands before all writes that wait.
-/

namespace Linux011.Blk

variable {ι β : Type*} [DecidableEq ι] [DecidableEq β]

variable {s s' : State ι β} {queue : Major → List Slot} {place : Slot → Place ι}
  {own : β → Option (Owner ι)} {p : ι} {b : β} {i j : Slot} {major m : Major} {cmd : Cmd}
  {ahead : Bool} {e : Event ι β} {l l' : List Slot}

/-! ## Keys -/

theorem request_lockBuffer : (s.lockBuffer p major cmd ahead b).request = s.request := by
  unfold State.lockBuffer
  dsimp only
  split_ifs <;> rfl

theorem request_llRwBlock {rw' : Rw} : (s.llRwBlock p rw' b).request = s.request := by
  unfold State.llRwBlock
  cases s.major b with
  | none => rfl
  | some major =>
    unfold State.makeRequest
    dsimp only
    split_ifs
    · rfl
    · exact request_lockBuffer

theorem Rep.request_repeats (h : Rep s queue place own) (hj : place j = .queued m) :
    (s.repeats p major cmd ahead b).request j = s.request j := by
  unfold State.repeats
  cases hi : s.search cmd with
  | none =>
    dsimp only
    split_ifs <;> rfl
  | some i =>
    have hji : j ≠ i := by
      rintro rfl
      have hused := h.used j (by rw [hj]; exact nofun)
      exact absurd (search_spec hi).2 (not_lt.2 hused)
    exact request_of_ne hji

/-- The key of a queued request changes only where a driver works at it. -/
theorem Rep.next_key (h : Rep s queue place own) (hs : s.next e = some s')
    (hj : place j = .queued m) : s'.key j = s.key j ∨ s.current m = some j ∧
      ((∃ uptodate, e = .endRequest m uptodate) ∨
        ∃ errors sector nrSectors, e = .advance m errors sector nrSectors) := by
  have hmajor : ∀ {n}, s.current n = some j → n = m := by
    intro n hn
    have hp := h.path n
    rw [hn] at hp
    cases hq : queue n with
    | nil =>
      rw [hq] at hp
      cases hp
    | cons a l =>
      rw [hq] at hp
      have hmem : j ∈ queue n := by
        rw [hq, Option.some.inj hp.1]
        exact List.mem_cons_self
      have hn' := (h.queued n j).1 hmem
      rw [hj] at hn'
      exact (Place.queued.inj hn').symm
  cases e with
  | llRwBlock p rw' b =>
    left
    unfold State.next at hs
    dsimp only at hs
    split at hs
    · cases hs
      exact congrArg Request.key (congrFun request_llRwBlock j)
    · cases hs
  | run p =>
    left
    change s.run p = some s' at hs
    unfold State.run at hs
    split at hs
    · cases hs
    · cases hs
      exact congrArg Request.key (congrFun request_lockBuffer j)
    · cases hs
      exact congrArg Request.key (h.request_repeats hj)
    · next major i b hp =>
      obtain ⟨s₁, l, hadd, -, -, hkey, -⟩ := h.addRequest hp
      rw [hadd] at hs
      cases hs
      exact hkey j
  | endRequest major uptodate =>
    obtain ⟨i, hi, rfl⟩ := Option.map_eq_some_iff.1 hs
    by_cases hji : j = i
    · subst hji
      obtain rfl := hmajor hi
      exact .inr ⟨hi, .inl ⟨uptodate, rfl⟩⟩
    · have hfin : (s.finish uptodate (s.request i).bh).request = s.request := by
        cases (s.request i).bh <;> rfl
      refine .inl (congrArg Request.key ((request_of_ne hji).trans ?_))
      rw [hfin]
  | advance major errors sector nrSectors =>
    obtain ⟨i, hi, rfl⟩ := Option.map_eq_some_iff.1 hs
    by_cases hji : j = i
    · subst hji
      obtain rfl := hmajor hi
      exact .inr ⟨hi, .inr ⟨errors, sector, nrSectors, rfl⟩⟩
    · exact .inl (congrArg Request.key (request_of_ne hji))
  | use b v =>
    cases hs
    exact .inl rfl

/-! ## Runs -/

def Request.even (r : Request β) : Prop := r.sector.toNat % 2 = 0

/-- A request that is put on a queue has an even sector and a key that no request there has, and a
request in service is advanced by one sector at most. -/
def Orderly (s : State ι β) : Event ι β → Prop
  | .run p => ∀ major i b, s.proc p = .adding major i b → (s.request i).even ∧
      ∀ l, s.Queue major l → ∀ j ∈ l, s.key j ≠ s.key i
  | .advance major _ sector _ => ∀ i, s.current major = some i →
      sector = (s.request i).sector ∨ (s.request i).even ∧ sector = (s.request i).sector + 1
  | _ => True

/-- A queue is two runs, and the sectors behind the first request are even. -/
structure Sweeps (s : State ι β) (l : List Slot) : Prop where
  runs : TwoRuns (l.map s.key)
  even : ∀ j ∈ l.tail, (s.request j).even

omit [DecidableEq ι] [DecidableEq β] in
theorem even_congr (h : s'.key j = s.key j) (he : (s.request j).even) : (s'.request j).even := by
  have hsector : (s'.request j).sector.toNat = (s.request j).sector.toNat :=
    congrArg (fun k => (ofLex (ofLex k).2).2) h
  unfold Request.even at he ⊢
  rw [hsector]
  exact he

omit [DecidableEq ι] [DecidableEq β] in
theorem Sweeps.congr (h : Sweeps s l) (hk : ∀ j ∈ l, s'.key j = s.key j) : Sweeps s' l := by
  refine ⟨?_, fun j hj => even_congr (hk j (List.mem_of_mem_tail hj)) (h.even j hj)⟩
  rw [List.map_congr_left hk]
  exact h.runs

omit [DecidableEq ι] [DecidableEq β] in
/-- An advance by a sector leaves the order of the keys as it is, since the other sectors are even. -/
theorem Sweeps.advance (h : Sweeps s (i :: l)) (hi : (s.request i).even)
    (hcmd : (s'.request i).cmd = (s.request i).cmd) (hdev : (s'.request i).dev = (s.request i).dev)
    (hsector : (s'.request i).sector = (s.request i).sector + 1)
    (hk : ∀ j ∈ l, s'.key j = s.key j) : Sweeps s' (i :: l) := by
  have heven : ∀ j ∈ l, (s.request j).even := h.even
  refine ⟨?_, fun j hj => even_congr (hk j hj) (heven j hj)⟩
  rw [List.map_cons, List.map_congr_left hk]
  refine TwoRuns.raise h.runs fun y hy hlt => ?_
  obtain ⟨j, hj, rfl⟩ := List.mem_map.1 hy
  have hnat : (s'.request i).sector.toNat = (s.request i).sector.toNat + 1 := by
    unfold Request.even at hi
    rw [hsector]
    bv_omega
  have hje := heven j hj
  unfold State.key Request.key Request.even at *
  rw [hcmd, hdev, hnat]
  simp only [Prod.Lex.toLex_lt_toLex] at hlt ⊢
  omega

omit [DecidableEq ι] [DecidableEq β] in
theorem Rep.head (h : Rep s queue place own) (hq : queue m = i :: l) : s.current m = some i := by
  have hp := h.path m
  rw [hq] at hp
  exact hp.1

/-- The requests behind the first keep their keys. -/
theorem Rep.rest_key (h : Rep s queue place own) (hs : s.next e = some s') (hq : queue m = i :: l)
    (hj : j ∈ l) : s'.key j = s.key j := by
  have hplace : place j = .queued m := by
    rw [← h.queued, hq]
    exact List.mem_cons_of_mem _ hj
  refine (h.next_key hs hplace).resolve_right ?_
  rintro ⟨hcur, -⟩
  have hnd := (h.path m).nodup
  rw [hq] at hnd
  rw [h.head hq] at hcur
  cases hcur
  exact (List.nodup_cons.1 hnd).1 hj

omit [DecidableEq ι] [DecidableEq β] in
/-- A request is not linked to itself. -/
theorem Rep.next_ne (h : Rep s queue place own) (hq : queue m = i :: l) :
    (s.request i).next ≠ some i := by
  have hp := h.path m
  have hnd := hp.nodup
  rw [hq] at hp hnd
  intro hi
  have hl : Path s.links (some i) l none := hi ▸ hp.2
  cases l with
  | nil => cases hl
  | cons a l =>
    obtain rfl : i = a := Option.some.inj hl.1
    exact (List.nodup_cons.1 hnd).1 List.mem_cons_self

theorem run_adding {s₁ : State ι β} (hp : s.proc p = .adding major i b)
    (hadd : s.addRequest major i = some s₁) (hs : s.run p = some s') : s' = s₁.setProc p .out := by
  unfold State.run at hs
  rw [hp] at hs
  dsimp only at hs
  rw [hadd] at hs
  exact (Option.some.inj hs).symm

/-- **One step** keeps every queue in two runs. -/
theorem Sweeps.next (h : Rep s queue place own) (hw : ∀ m, Sweeps s (queue m)) (hok : Orderly s e)
    (hs : s.next e = some s') : ∃ queue' place' own', Rep s' queue' place' own' ∧
      ∀ m, Sweeps s' (queue' m) := by
  by_cases hadd : ∃ p major i b, e = .run p ∧ s.proc p = .adding major i b
  · -- a request is put on a queue
    obtain ⟨p, major, i, b, rfl, hp⟩ := hadd
    obtain ⟨s₁, l, hadd, h', hins, hkey, hl⟩ := h.addRequest hp
    obtain ⟨hi, hnew⟩ := hok major i b hp
    obtain rfl := run_adding hp hadd hs
    refine ⟨_, _, _, h', fun m => ?_⟩
    by_cases hm : m = major
    · subst hm
      rw [Function.update_self]
      refine Sweeps.congr (s := s) ⟨?_, fun j hj => ?_⟩ fun j _ => hkey j
      · rw [hl, map_queueInsert fun i j => (before_iff : s.before i j ↔ _)]
        refine (hw m).runs.insert fun y hy => ?_
        obtain ⟨j, hj, rfl⟩ := List.mem_map.1 hy
        exact (hnew _ (h.path m) j hj).symm
      · have hev := (hw m).even
        cases hq : queue m with
        | nil =>
          rw [hq] at hins
          rw [show l = [i] from hins] at hj
          cases hj
        | cons a rest =>
          rw [hq] at hins hev
          obtain ⟨xs, ys, rfl, rfl⟩ := hins
          rcases List.mem_append.1 (show j ∈ xs ++ i :: ys from hj) with hj | hj
          · exact hev j (List.mem_append_left _ hj)
          · rcases List.mem_cons.1 hj with rfl | hj
            · exact hi
            · exact hev j (List.mem_append_right _ hj)
    · rw [Function.update_of_ne hm]
      exact (hw m).congr fun j _ => hkey j
  · obtain ⟨queue', place', own', h', hserves⟩ := h.next hs
    refine ⟨queue', place', own', h', fun m => ?_⟩
    rcases hserves m with heq | ⟨p, i, b, rfl, hp, -⟩ | ⟨u, i, rfl, hq, -⟩
    · rw [heq]
      cases hq : queue m with
      | nil => exact ⟨twoRuns_nil, nofun⟩
      | cons i l =>
        have hwm := hw m
        rw [hq] at hwm
        have hrest : ∀ j ∈ l, s'.key j = s.key j := fun j hj => h.rest_key hs hq hj
        have hplace : place i = .queued m := by
          rw [← h.queued, hq]
          exact List.mem_cons_self
        rcases h.next_key hs hplace with hi | ⟨hcur, hwork⟩
        · refine hwm.congr fun j hj => ?_
          rcases List.mem_cons.1 hj with rfl | hj
          · exact hi
          · exact hrest j hj
        · rcases hwork with ⟨uptodate, rfl⟩ | ⟨errors, sector, nrSectors, rfl⟩
          · -- a request that is ended does not stay
            obtain ⟨a, ha, hs⟩ := Option.map_eq_some_iff.1 hs
            obtain rfl : a = i := Option.some.inj (ha.symm.trans hcur)
            have hcurrent : s'.current m = (s.request a).next := by
              rw [← hs]
              exact Function.update_self ..
            exact absurd (hcurrent.symm.trans (h'.head (heq.trans hq))) (h.next_ne hq)
          · obtain ⟨a, ha, rfl⟩ := Option.map_eq_some_iff.1 hs
            obtain rfl : a = i := Option.some.inj (ha.symm.trans hcur)
            rcases hok a hcur with hsame | ⟨heven, hsector⟩
            · refine hwm.congr fun j hj => ?_
              rcases List.mem_cons.1 hj with rfl | hj
              · unfold State.key
                rw [request_self]
                unfold Request.key
                rw [hsame]
              · exact hrest j hj
            · exact hwm.advance heven ((congrArg Request.cmd request_self).trans rfl)
                ((congrArg Request.dev request_self).trans rfl)
                ((congrArg Request.sector request_self).trans hsector) hrest
    · exact absurd ⟨p, m, i, b, rfl, hp⟩ hadd
    · have hwm := hw m
      rw [hq] at hwm
      refine Sweeps.congr (s := s) ⟨hwm.runs.tail, fun j hj => ?_⟩ fun j hj => ?_
      · exact hwm.even j (List.mem_of_mem_tail hj)
      · exact h.rest_key hs hq hj

/-- **Elevator order.** A device queue is always the rest of the current sweep and the next sweep,
each of them increasing in `IN_ORDER`. -/
theorem elevator_sweeps (h : (requests ι β).ReachableWhen Orderly s) (hl : s.Queue major l) :
    ∃ xs ys, l = xs ++ ys ∧ xs.Pairwise s.before ∧
      ys.Pairwise s.before := by
  have hinv : ∃ queue place own, Rep s queue place own ∧ ∀ m, Sweeps s (queue m) := by
    refine h.invariant (I := fun s => ∃ queue place own, Rep s queue place own ∧
      ∀ m, Sweeps s (queue m)) ?_ ?_
    · rintro s ⟨driver, bh, rfl⟩
      exact ⟨_, _, _, .initial driver bh, fun m => ⟨twoRuns_nil, nofun⟩⟩
    · rintro s e s' ⟨queue, place, own, h, hw⟩ hok hs
      exact Sweeps.next h hw hok hs
  obtain ⟨queue, place, own, h, hw⟩ := hinv
  have hql := (h.path major).unique hl
  obtain ⟨xs, ys, hmap, hxs, hys⟩ := (hw major).runs
  rw [hql] at hmap
  obtain ⟨xs, ys, rfl, rfl, rfl⟩ := List.map_eq_append_iff.1 hmap
  exact ⟨xs, ys, rfl, (List.pairwise_map.1 hxs).imp before_iff.2,
    (List.pairwise_map.1 hys).imp before_iff.2⟩

section Example

/-- A check that a step is `Orderly`. -/
def State.tidy (s : State Bool (Fin 3)) : Event Bool (Fin 3) → Bool
  | .run p =>
    match s.proc p with
    | .adding major i _ => decide ((s.request i).sector.toNat % 2 = 0 ∧ s.current major ≠ some i ∧
        ∀ j, (s.request j).next ≠ some i ∧ (j ≠ i → ((s.request j).cmd, (s.request j).sector) ≠
          ((s.request i).cmd, (s.request i).sector)))
    | _ => true
  | .advance major _ sector _ =>
    match s.current major with
    | some i => decide ((s.request i).sector.toNat % 2 = 0 ∧ sector = (s.request i).sector + 1)
    | none => true
  | _ => true

theorem orderly_of_tidy {s : State Bool (Fin 3)} {e : Event Bool (Fin 3)} (h : s.tidy e = true) :
    Orderly s e := by
  cases e with
  | run p =>
    intro major i b hp
    unfold State.tidy at h
    dsimp only at h
    rw [hp] at h
    obtain ⟨heven, hcur, hrest⟩ := of_decide_eq_true h
    refine ⟨heven, fun l hl j hj hkey => ?_⟩
    have hij : j ≠ i := by
      rintro rfl
      obtain ⟨xs, ys, rfl⟩ := List.append_of_mem hj
      obtain ⟨q, h1, rfl, -⟩ := path_append.1 hl
      rcases h1.last with hq | ⟨k, -, hk⟩
      · exact hcur hq
      · exact (hrest k).1 hk
    have hcode := congrArg (fun k => (ofLex k).1) hkey
    have hsector := congrArg (fun k => (ofLex (ofLex k).2).2) hkey
    exact (hrest j).2 hij (Prod.ext (Cmd.code_inj.1 hcode) (BitVec.eq_of_toNat_eq hsector))
  | advance major errors sector nrSectors =>
    intro i hi
    unfold State.tidy at h
    dsimp only at h
    rw [hi] at h
    obtain ⟨heven, hsector⟩ := of_decide_eq_true h
    exact .inr ⟨heven, hsector⟩
  | _ => trivial

/-- Behind the request in service stand two that come before it, in order. -/
theorem elevator_sweeps_two : ∃ s : State Bool (Fin 3), s.Queue 3 [31, 29, 30] ∧
    (s.request 31).sector = 19 ∧ ∃ xs ys, [31, 29, 30] = xs ++ ys ∧ xs.Pairwise s.before ∧
      ys.Pairwise s.before := by
  have hrun : (System.execWhen State.next (fun s e => s.tidy e = true)
      (initial (fun m => m = 3)
        fun b => ⟨0x301, 9 - b.val, false, false, false⟩ : State Bool (Fin 3))
      [.llRwBlock true .read 0, .run true, .run true, .llRwBlock true .read 1, .run true, .run true,
        .llRwBlock false .reada 2, .run false, .run false, .advance 3 0 19 1]).any
      (fun s => decide (s.current 3 = some 31 ∧ (s.request 31).next = some 29 ∧
        (s.request 29).next = some 30 ∧ (s.request 30).next = none ∧
          (s.request 31).sector = 19)) = true := by
    decide +kernel
  obtain ⟨s, hs, hstate⟩ := (Option.any_eq_true _ _).1 hrun
  obtain ⟨h1, h2, h3, h4, h5⟩ := of_decide_eq_true hstate
  have hreach : (requests Bool (Fin 3)).ReachableWhen (fun s e => s.tidy e = true) s :=
    .exec (fun _ _ _ h => h) (.init ⟨_, _, rfl⟩) hs
  have hq : s.Queue 3 [31, 29, 30] := ⟨h1, h2, h3, h4⟩
  exact ⟨s, hq, h5, elevator_sweeps (hreach.mono fun _ _ => orderly_of_tidy) hq⟩

end Example

/-! ## Reads and writes -/

def State.write (s : State ι β) (j : Slot) : Prop := (s.request j).cmd = .write

/-- From the request in service up to a write that waits, no two neighbours admit the new one. -/
def State.Passed (s : State ι β) (i : Slot) : List Slot → Prop
  | [] => False
  | a :: l => Overtaken s.before s.write i a l

/-- The sweep in service, which is behind the new request, goes on to a write that waits. -/
def State.SweptPast (s : State ι β) (i : Slot) : List Slot → Prop
  | [] => False
  | a :: l => s.before i a ∧ SweepsTo s.before s.write a l

omit [DecidableEq ι] [DecidableEq β] in
instance : IsStrictOrder Slot s.before where
  irrefl _ h := lt_irrefl _ (before_iff.1 h)
  trans _ _ _ hij hjk := before_iff.2 ((before_iff.1 hij).trans (before_iff.1 hjk))

omit [DecidableEq ι] [DecidableEq β] in
/-- `IN_ORDER` puts reads first. -/
theorem before_of_write (hi : (s.request i).cmd = .read) (hj : s.write j) : s.before i j := by
  rw [before_iff]
  unfold State.key Request.key
  rw [Prod.Lex.toLex_lt_toLex, hi, hj]
  exact .inl Nat.zero_lt_one

omit [DecidableEq ι] [DecidableEq β] in
theorem passed_iff (hi : (s.request i).cmd = .read) (hkey : ∀ j ∈ l, s.key j ≠ s.key i) :
    s.Passed i l ↔ s.SweptPast i l := by
  cases l with
  | nil => exact Iff.rfl
  | cons a l =>
    refine overtaken_iff (fun w => before_of_write hi) fun j hj => ?_
    rw [before_iff, before_iff]
    exact lt_or_gt_of_ne (hkey j hj).symm

/-- A read stands before all writes that wait just where the search for its place stops before the
first of them. So it does, if the keys differ, unless the request in service is behind the read, and
the requests from it up to a write are in order. -/
theorem read_first_iff (h : (requests ι β).Reachable s) (hp : s.proc p = .adding major i b)
    (hread : (s.request i).cmd = .read) (hl : s.Queue major l)
    (hs : (requests ι β).step s (.run p) s') (hl' : s'.Queue major l') :
    ((∀ xs ys, l' = xs ++ i :: ys → ∀ j ∈ xs.tail, (s'.request j).cmd ≠ .write) ↔
      ¬ s.Passed i l) ∧
    ((∀ j ∈ l, s.key j ≠ s.key i) → (s.Passed i l ↔ s.SweptPast i l)) := by
  refine ⟨?_, passed_iff hread⟩
  obtain ⟨queue, place, own, h⟩ := reachable_rep h
  obtain ⟨s₁, q, hadd, h', hins, hkey, hq⟩ := h.addRequest hp
  obtain rfl := run_adding hp hadd hs
  have hpath := h'.path major
  rw [Function.update_self] at hpath
  obtain rfl : q = l' := hpath.unique hl'
  obtain rfl : queue major = l := (h.path major).unique hl
  have hcmd : ∀ j, ((s₁.setProc p .out).request j).cmd = (s.request j).cmd := by
    intro j
    exact Cmd.code_inj.1 (congrArg (fun k => (ofLex k).1) (hkey j))
  simp only [hcmd]
  have hi : i ∉ queue major := by
    intro hi
    have hq := (h.queued major i).1 hi
    rw [(h.filled p i).2 (by rw [hp]; rfl)] at hq
    cases hq
  cases hqm : queue major with
  | nil =>
    rw [hqm] at hq
    refine iff_of_true (fun xs ys he => ?_) id
    rw [hq] at he
    cases xs with
    | nil => exact nofun
    | cons a xs => exact absurd (List.cons_eq_cons.1 he).2 (by simp)
  | cons a l =>
    rw [hqm] at hq hi
    obtain ⟨hia, hil⟩ := not_or.1 fun h => hi (List.mem_cons.2 h)
    have hahead := sweepInsert_ahead (r := s.before) (a := a) (W := s.write) hil
    refine Iff.trans ?_ hahead
    rw [hq]
    constructor
    · exact fun hall xs ys he => hall (a :: xs) ys (congrArg (a :: ·) he)
    · intro hall xs ys he
      cases xs with
      | nil => exact nofun
      | cons c xs => exact hall xs ys (List.cons_eq_cons.1 he).2

deriving instance DecidableEq for Pc

/-- A read that comes after the one in service goes before the write. -/
theorem read_first_second : ∃ s s' : State Bool (Fin 3), s'.Queue 3 [31, 30, 20] ∧
    (s'.request 20).cmd = .write ∧
    ((∀ xs ys, [31, 30, 20] = xs ++ 30 :: ys → ∀ j ∈ xs.tail, (s'.request j).cmd ≠ .write) ↔
      ¬ s.Passed 30 [31, 20]) := by
  have hrun : (System.execWhen State.next (fun _ _ => True)
      (initial (fun m => m = 3)
        fun b => ⟨0x301, if b = 0 then 9 else if b = 1 then 7 else 10, false, true, false⟩ : State Bool (Fin 3))
      [.llRwBlock true .read 0, .run true, .run true, .llRwBlock true .write 1, .run true, .run true,
        .llRwBlock true .read 2, .run true]).any
      (fun s => (s.run true).any fun s' => decide (s.proc true = .adding 3 30 2 ∧
        (s.request 30).cmd = .read ∧ s.current 3 = some 31 ∧ (s.request 31).next = some 20 ∧
        (s.request 20).next = none ∧ s'.current 3 = some 31 ∧ (s'.request 31).next = some 30 ∧
        (s'.request 30).next = some 20 ∧ (s'.request 20).next = none ∧
        (s'.request 20).cmd = .write)) = true := by
    decide +kernel
  obtain ⟨s, hs, hstate⟩ := (Option.any_eq_true _ _).1 hrun
  obtain ⟨s', hs', hstate⟩ := (Option.any_eq_true _ _).1 hstate
  obtain ⟨hp, hread, h1, h2, h3, h4, h5, h6, h7, hwrite⟩ := of_decide_eq_true hstate
  have hreach : (requests Bool (Fin 3)).Reachable s :=
    .exec (fun _ _ _ h => h) (.init ⟨_, _, rfl⟩) hs
  have hl : s.Queue 3 [31, 20] := ⟨h1, h2, h3⟩
  have hl' : s'.Queue 3 [31, 30, 20] := ⟨h4, h5, h6, h7⟩
  exact ⟨s, s', hl', hwrite, (read_first_iff hreach hp hread hl hs' hl').1⟩

/-- While a write is in service, a read goes behind the write that waits. -/
theorem read_first_not : ∃ s s' : State Bool (Fin 3), (requests Bool (Fin 3)).Reachable s ∧
    s.proc true = .adding 3 31 2 ∧ (s.request 31).cmd = .read ∧
    (requests Bool (Fin 3)).step s (.run true) s' ∧ s'.Queue 3 [20, 19, 31] ∧
    (s'.request 19).cmd = .write := by
  have hrun : (System.execWhen State.next (fun _ _ => True)
      (initial (fun m => m = 3)
        fun b => ⟨0x301, if b = 0 then 5 else if b = 1 then 7 else 6, false, true, false⟩ : State Bool (Fin 3))
      [.llRwBlock true .write 0, .run true, .run true, .llRwBlock true .write 1, .run true,
        .run true, .llRwBlock true .read 2, .run true]).any
      (fun s => (s.run true).any fun s' => decide (s.proc true = .adding 3 31 2 ∧
        (s.request 31).cmd = .read ∧ s'.current 3 = some 20 ∧ (s'.request 20).next = some 19 ∧
        (s'.request 19).next = some 31 ∧ (s'.request 31).next = none ∧
        (s'.request 19).cmd = .write)) = true := by
    decide +kernel
  obtain ⟨s, hs, hstate⟩ := (Option.any_eq_true _ _).1 hrun
  obtain ⟨s', hs', hstate⟩ := (Option.any_eq_true _ _).1 hstate
  obtain ⟨hp, hread, h1, h2, h3, h4, hwrite⟩ := of_decide_eq_true hstate
  have hreach : (requests Bool (Fin 3)).Reachable s :=
    .exec (fun _ _ _ h => h) (.init ⟨_, _, rfl⟩) hs
  exact ⟨s, s', hreach, hp, hread, hs', ⟨h1, h2, h3, h4⟩, hwrite⟩

end Linux011.Blk
