import Linux011.Sched.Handing

/-!
# Every child is waited for

1. `fork`, `do_exit` and `sys_waitpid` keep `Inv` and `Codes`.
2. `family_kept`: while init stays, every process has a father that can wait for it, and every exit
   code goes to one `waitpid`. `exit_code_lost`: this `waitpid` can be killed before it hands the code on.
-/

namespace Linux011.Family

section Fork

variable {s s' : State} {i p : Nr} {t u : Task} {pid q : BitVec 32}

theorem usesPid_eq_false (h : s.usesPid pid = false) (ht : s.task i = some t) : t.pid ≠ pid := by
  intro hpid
  have hall := List.any_eq_false.1 h i (List.mem_finRange i)
  rw [ht] at hall
  exact hall (beq_iff_eq.2 hpid)

theorem findPid_unused : ∀ {n : ℕ} {pid : BitVec 32}, s.findPid n pid = some q →
    s.usesPid q = false := by
  intro n
  induction n with
  | zero => rintro pid ⟨⟩
  | succ n ih =>
    intro pid h
    unfold State.findPid at h
    dsimp only at h
    split at h
    · exact ih h
    · next hu => exact Option.some.inj h ▸ Bool.eq_false_iff.2 hu

theorem freeSlot_spec (h : s.freeSlot = some i) : i ≠ 0 ∧ s.task i = none := by
  unfold State.freeSlot at h
  have hi := List.find?_some h
  obtain ⟨hi, hnone⟩ := of_decide_eq_true hi
  exact ⟨hi, Option.isNone_iff_eq_none.1 hnone⟩

/-- A child whose father lives is put into an empty slot. -/
theorem Good.addChild (hI : Inv s) (hC : Codes s) (ht : s.task p = some t) (hp : p ≠ 0)
    (hl : t.Lives) (hi : i ≠ 0) (hnone : s.task i = none) (hpid : s.usesPid u.pid = false)
    (hfather : u.father = t.pid) (hserial : u.serial = s.born) (hfree : s.memMap u.page = 0)
    (hrun : u.state = .running) (hpc : u.pc = .user) :
    Good s { s.setTask i (some u) with
      memMap := Function.update s.memMap u.page 1
      born := s.born + 1 } := by
  have hkeep : ∀ {j v}, s.task j = some v → (s.setTask i (some u)).task j = some v := by
    intro j v hv
    refine (task_of_ne ?_).trans hv
    rintro rfl
    rw [hnone] at hv
    cases hv
  have hpage : ∀ {j v}, j ≠ 0 → s.task j = some v → v.page ≠ u.page := by
    intro j v hj hv he
    have h1 := hI.page j v hj hv
    rw [he, hfree] at h1
    omega
  have hzu : u.state ≠ .zombie := by rw [hrun]; decide
  have hhanding : Handing (Holds (Function.update s.task i (some u))) s.reaped s.delivered s.ended :=
    hC.handing.congr <| holds_update_plain (fun v hv => by rw [hnone] at hv; cases hv) fun n c hc => by
      rw [hpc] at hc
      cases hc
  refine ⟨⟨?_, ?_, ?_, ?_, ?_, ?_, ?_, ?_, ?_, hI.lost⟩,
    .of (hC.recorded.add hnone hzu hserial) hhanding, ?_⟩
  · obtain ⟨v, hv, hv0⟩ := hI.idle
    exact ⟨v, hkeep hv, hv0⟩
  · obtain ⟨v, hv, hv1⟩ := hI.init
    exact ⟨v, hkeep hv, hv1⟩
  · intro j k v w hv hw hvw
    rcases task_cases hv with ⟨rfl, rfl⟩ | ⟨-, hv'⟩ <;>
      rcases task_cases hw with ⟨rfl, rfl⟩ | ⟨-, hw'⟩
    · rfl
    · exact absurd hvw.symm (usesPid_eq_false hpid hw')
    · exact absurd hvw (usesPid_eq_false hpid hv')
    · exact hI.pid j k v w hv' hw' hvw
  · intro j v hj0 hj1 hv
    rcases task_cases hv with ⟨-, rfl⟩ | ⟨-, hv⟩
    · exact ⟨p, t, hp, hkeep ht, hfather.symm, hl⟩
    · obtain ⟨k, w, hk, hw, hpw⟩ := hI.father j v hj0 hj1 hv
      exact ⟨k, w, hk, hkeep hw, hpw⟩
  · intro j v hv
    rcases task_cases hv with ⟨-, rfl⟩ | ⟨-, hv⟩
    · rw [hrun, hpc]
      exact iff_of_false nofun nofun
    · exact hI.gone j v hv
  · intro j k v w hv hw hvw
    rcases task_cases hv with ⟨rfl, rfl⟩ | ⟨-, hv'⟩ <;>
      rcases task_cases hw with ⟨rfl, rfl⟩ | ⟨-, hw'⟩
    · rfl
    · have := hI.born k w hw'
      omega
    · have := hI.born j v hv'
      omega
    · exact hI.serial j k v w hv' hw' hvw
  · intro j v hv
    rcases task_cases hv with ⟨-, rfl⟩ | ⟨-, hv⟩
    · exact hserial ▸ Nat.lt_succ_self _
    · exact Nat.lt_succ_of_lt (hI.born j v hv)
  · intro j v hj hv
    rcases task_cases hv with ⟨-, rfl⟩ | ⟨-, hv⟩
    · exact Function.update_self _ _ _
    · exact (Function.update_of_ne (hpage hj hv) _ _).trans (hI.page j v hj hv)
  · intro j k v w hj hk hv hw hvw
    rcases task_cases hv with ⟨rfl, rfl⟩ | ⟨-, hv'⟩ <;>
      rcases task_cases hw with ⟨rfl, rfl⟩ | ⟨-, hw'⟩
    · rfl
    · exact absurd hvw.symm (hpage hk hw')
    · exact absurd hvw (hpage hj hv')
    · exact hI.pages j k v w hj hk hv' hw' hvw
  · intro j v hv
    exact .inl ⟨v, hkeep hv, rfl, fun hz => ⟨hz, rfl⟩⟩

theorem Good.fork (hI : Inv s) (hC : Codes s) (ht : s.task p = some t) (hp : p ≠ 0) (hl : t.Lives)
    {page : Option ℕ} {room : Bool} (h : s.fork t page room = some s') : Good s s' := by
  unfold State.fork at h
  obtain ⟨pid, hfind, hs⟩ := Option.bind_eq_some_iff.1 h
  have hunused : s.usesPid pid = false := findPid_unused hfind
  have hI' : Inv { s with lastPid := pid } := ⟨hI.idle, hI.init, hI.pid, hI.father, hI.gone,
    hI.serial, hI.born, hI.page, hI.pages, hI.lost⟩
  have hC' : Codes { s with lastPid := pid } := ⟨hC.zombie, hC.alive, hC.exits_lt, hC.exits,
    hC.reaped, hC.nodup, hC.delivered, hC.once, hC.given, hC.pending, hC.ended⟩
  have hsame : Good s { s with lastPid := pid } := ⟨hI', hC', fun i u hu => .inl (.refl hu)⟩
  dsimp only at hs
  split at hs
  · next nr page hslot =>
    split at hs
    · cases hs
    · next hfree =>
      split at hs
      · obtain ⟨hnr, hnone⟩ := freeSlot_spec hslot
        cases hs
        have hg := Good.addChild (s := { s with lastPid := pid }) hI' hC' ht hp hl hnr hnone
          (u := { t with
            pid := pid, father := t.pid, signal := 0, state := .running, page := page,
            serial := s.born, pc := .user })
          hunused rfl rfl (not_not.1 hfree) rfl rfl
        exact ⟨hg.inv, hg.codes, fun j v hv =>
          (hg.keeps j v hv).imp_right fun r => ⟨r.zombie, r.father, r.released, r.page⟩⟩
      · cases hs
        exact hsame
  · cases hs
    exact hsame

end Fork

section Exit

variable {s s' : State} {i j p : Nr} {t u v : Task} {pid code : BitVec 32}

def State.mapTasks (s : State) (f : Nr → Task → Task) : State :=
  { s with task := fun i => (s.task i).map (f i) }

/-- Equal but for the father, the signals and the group. -/
structure Task.Same (t' t : Task) : Prop where
  pid : t'.pid = t.pid
  serial : t'.serial = t.serial
  page : t'.page = t.page
  state : t'.state = t.state
  pc : t'.pc = t.pc
  code : t'.exitCode = t.exitCode

theorem Task.Same.refl : t.Same t :=
  ⟨rfl, rfl, rfl, rfl, rfl, rfl⟩

theorem Task.Same.alike (h : u.Same t) : u.Alike t :=
  ⟨h.serial, h.code, by rw [h.state], fun n c => by rw [h.pc]⟩

theorem Task.Same.lives (h : u.Same t) (ht : t.Lives) : u.Lives :=
  ⟨h.state ▸ ht.1, h.pc ▸ ht.2⟩

section Map

variable {f : Nr → Task → Task}

theorem mapTasks_eq_some (h : (s.mapTasks f).task j = some u) :
    ∃ v, s.task j = some v ∧ u = f j v := by
  obtain ⟨v, hv, rfl⟩ := Option.map_eq_some_iff.1 h
  exact ⟨v, hv, rfl⟩

theorem mapTasks_task (h : s.task j = some v) : (s.mapTasks f).task j = some (f j v) :=
  congrArg (Option.map (f j)) h

theorem Inv.mapTasks (h : Inv s) (hf : ∀ i t, (f i t).Same t)
    (hfather : ∀ i t, (f i t).father = t.father ∨ (f i t).father = 1) : Inv (s.mapTasks f) := by
  refine ⟨?_, ?_, ?_, ?_, ?_, ?_, ?_, ?_, ?_, h.lost⟩
  · obtain ⟨v, hv, hv0⟩ := h.idle
    exact ⟨_, mapTasks_task hv, (hf 0 v).pid.trans hv0⟩
  · obtain ⟨v, hv, hv1, hvl⟩ := h.init
    exact ⟨_, mapTasks_task hv, (hf 1 v).pid.trans hv1, (hf 1 v).lives hvl⟩
  · intro j k u' w' hu' hw' huw
    obtain ⟨u, hu, rfl⟩ := mapTasks_eq_some hu'
    obtain ⟨w, hw, rfl⟩ := mapTasks_eq_some hw'
    exact h.pid j k u w hu hw ((hf j u).pid.symm.trans (huw.trans (hf k w).pid))
  · intro j u' hj0 hj1 hu'
    obtain ⟨u, hu, rfl⟩ := mapTasks_eq_some hu'
    rcases hfather j u with he | he
    · obtain ⟨k, v, hk, hv, hvp, hvl⟩ := h.father j u hj0 hj1 hu
      exact ⟨k, _, hk, mapTasks_task hv, (hf k v).pid.trans (hvp.trans he.symm), (hf k v).lives hvl⟩
    · obtain ⟨v, hv, hv1, hvl⟩ := h.init
      exact ⟨1, _, by decide, mapTasks_task hv, (hf 1 v).pid.trans (hv1.trans he.symm),
        (hf 1 v).lives hvl⟩
  · intro j u' hu'
    obtain ⟨u, hu, rfl⟩ := mapTasks_eq_some hu'
    rw [(hf j u).state, (hf j u).pc]
    exact h.gone j u hu
  · intro j k u' w' hu' hw' huw
    obtain ⟨u, hu, rfl⟩ := mapTasks_eq_some hu'
    obtain ⟨w, hw, rfl⟩ := mapTasks_eq_some hw'
    exact h.serial j k u w hu hw ((hf j u).serial.symm.trans (huw.trans (hf k w).serial))
  · intro j u' hu'
    obtain ⟨u, hu, rfl⟩ := mapTasks_eq_some hu'
    rw [(hf j u).serial]
    exact h.born j u hu
  · intro j u' hj hu'
    obtain ⟨u, hu, rfl⟩ := mapTasks_eq_some hu'
    rw [(hf j u).page]
    exact h.page j u hj hu
  · intro j k u' w' hj hk hu' hw' huw
    obtain ⟨u, hu, rfl⟩ := mapTasks_eq_some hu'
    obtain ⟨w, hw, rfl⟩ := mapTasks_eq_some hw'
    exact h.pages j k u w hj hk hu hw ((hf j u).page.symm.trans (huw.trans (hf k w).page))

theorem Good.mapTasks (hI : Inv s) (hC : Codes s) (hf : ∀ i t, (f i t).Same t)
    (hfather : ∀ i t, (f i t).father = t.father ∨ (f i t).father = 1) : Good s (s.mapTasks f) := by
  refine ⟨hI.mapTasks hf hfather, hC.of_alike rfl rfl rfl rfl rfl ?_ ?_, ?_⟩
  · intro j u hu
    obtain ⟨v, hv, rfl⟩ := mapTasks_eq_some hu
    exact ⟨v, hv, (hf j v).alike⟩
  · intro j v hv
    exact ⟨_, mapTasks_task hv, (hf j v).alike⟩
  · intro j v hv
    refine .inl ⟨_, mapTasks_task hv, (hf j v).serial, fun hz => ?_⟩
    exact ⟨(hf j v).state.trans hz, (hf j v).code⟩

end Map

/-- What `send_sig` of `SIGCHLD` to task `i` does to task `j`. -/
def chld (i j : Nr) (t : Task) : Task :=
  if j = i then { t with signal := t.signal ||| State.sigchld } else t

theorem chld_same : (chld i j t).Same t ∧ (chld i j t).father = t.father := by
  unfold chld
  split
  · exact ⟨⟨rfl, rfl, rfl, rfl, rfl, rfl⟩, rfl⟩
  · exact ⟨.refl, rfl⟩

theorem sendChld_eq : s.sendChld i = s.mapTasks (chld i) := by
  have htask : (s.sendChld i).task = (s.mapTasks (chld i)).task := by
    funext j
    by_cases hj : j = i
    · subst hj
      refine (Function.update_self _ _ _).trans (congrArg (fun g => (s.task j).map g) ?_)
      funext t
      exact (if_pos rfl).symm
    · have hid : chld i j = id := by
        funext t
        exact if_neg hj
      refine (task_of_ne hj).trans ?_
      show s.task j = (s.task j).map (chld i j)
      rw [hid, Option.map_id_fun, id]
  unfold State.sendChld State.setTask State.mapTasks
  exact congrArg (fun g => { s with task := g }) htask

theorem adopt_same : (State.adopt pid t).Same t := by
  unfold State.adopt
  split
  · exact ⟨rfl, rfl, rfl, rfl, rfl, rfl⟩
  · exact .refl

/-- The first loop of `do_exit` changes the father of the children and the signals of init. -/
theorem doExit_eq (s : State) (p : Nr) (t : Task) (code : BitVec 32) : ∃ f : Nr → Task → Task, (∀ i t, (f i t).Same t) ∧
    (∀ i u, (f i u).father = (State.adopt t.pid u).father) ∧
    s.doExit p t code = (s.mapTasks f).setTask p
      (((s.mapTasks f).task p).map fun t => { t with pc := .exiting code }) := by
  unfold State.doExit
  dsimp only
  split
  · refine ⟨fun i u => chld 1 i (State.adopt t.pid u), ?_, ?_, ?_⟩
    · intro i u
      have h1 := (chld_same (i := 1) (j := i) (t := State.adopt t.pid u)).1
      have h2 : (State.adopt t.pid u).Same u := adopt_same
      exact ⟨h1.pid.trans h2.pid, h1.serial.trans h2.serial, h1.page.trans h2.page,
        h1.state.trans h2.state, h1.pc.trans h2.pc, h1.code.trans h2.code⟩
    · exact fun i u => chld_same.2
    · rw [sendChld_eq]
      unfold State.mapTasks
      dsimp only
      simp only [Option.map_map, Function.comp_def]
  · exact ⟨fun _ => State.adopt t.pid, fun _ _ => adopt_same, fun _ _ => rfl, rfl⟩

theorem Good.doExit (hI : Inv s) (hC : Codes s) (ht : s.task p = some t) (hp : p ≠ 1)
    (hpc : t.pc = .user) (hz : t.state ≠ .zombie) : Good s (s.doExit p t code) ∧
      ∀ j u, s.task j = some u → Stays (s.doExit p t code) j u := by
  have hpid : t.pid ≠ 1 := by
    obtain ⟨v, hv, hv1, -⟩ := hI.init
    exact fun h => hp (hI.pid p 1 t v ht hv (h.trans hv1.symm))
  obtain ⟨f, hf, hfather, heq⟩ := doExit_eq s p t code
  obtain ⟨s₁, hs₁⟩ : ∃ s₁ : State, s₁ = s.mapTasks f := ⟨_, rfl⟩
  have hg : Good s s₁ := by
    rw [hs₁]
    refine .mapTasks hI hC hf fun i u => ?_
    rw [hfather]
    unfold State.adopt
    split
    · exact .inr rfl
    · exact .inl rfl
  have ht₁ : s₁.task p = some (f p t) := hs₁ ▸ mapTasks_task ht
  have hz₁ : (f p t).state ≠ .zombie := by
    rw [(hf p t).state]
    exact hz
  rw [heq, ← hs₁, ht₁, Option.map_some]
  have hstays : ∀ j u, s.task j = some u →
      Stays (s₁.setTask p (some { f p t with pc := .exiting code })) j u := by
    intro j u hu
    have h₁ : s₁.task j = some (f j u) := hs₁ ▸ mapTasks_task hu
    obtain ⟨w, hw, hserial, hzombie⟩ := Stays.update (w := { f p t with pc := .exiting code })
      ht₁ rfl (fun h => absurd h hz₁) h₁
    refine ⟨w, hw, hserial.trans (hf j u).serial, fun h => ?_⟩
    obtain ⟨hwz, hwc⟩ := hzombie ((hf j u).state.trans h)
    exact ⟨hwz, hwc.trans (hf j u).code⟩
  refine ⟨⟨hg.inv.update ht₁ rfl rfl rfl rfl (iff_of_false hz₁ nofun) ?_,
    hg.codes.update ht₁ ⟨rfl, rfl, Iff.rfl, fun n c => iff_of_false nofun ?_⟩,
    fun j u hu => .inl (hstays j u hu)⟩, hstays⟩
  · -- the children are adopted by init
    refine fun _ => .inr ⟨hp, fun j u _ _ hu => ?_⟩
    rw [hs₁] at hu
    obtain ⟨v, hv, rfl⟩ := mapTasks_eq_some hu
    rw [hfather, (hf p t).pid]
    unfold State.adopt
    split
    · exact Ne.symm hpid
    · next hne => exact hne
  · rw [(hf p t).pc, hpc]
    nofun

/-- The father is found. -/
theorem tellFather_eq (hI : Inv s) (ht : s.task p = some t) (hp0 : p ≠ 0) (hp1 : p ≠ 1) :
    ∃ i, s.tellFather p t = some (s.sendChld i) := by
  obtain ⟨j, u, hj, hu, hpid, -⟩ := hI.father p t hp0 hp1 ht
  have hne : t.father ≠ 0 := by
    obtain ⟨v, hv, hv0⟩ := hI.idle
    exact fun h => hj (hI.pid j 0 u v hu hv (hpid.trans (h.trans hv0.symm)))
  unfold State.tellFather
  rw [if_pos hne]
  split
  · next i _ => exact ⟨i, rfl⟩
  · next hnone =>
    have hfalse := List.find?_eq_none.1 hnone j (List.mem_finRange j)
    rw [hu] at hfalse
    exact absurd (beq_iff_eq.2 hpid) hfalse

theorem Good.becomeZombie (hI : Inv s) (hC : Codes s) (ht : s.task p = some t) (hp : p ≠ 0)
    (hpc : t.pc = .exiting code) (hz : t.state ≠ .zombie)
    (h : s.becomeZombie p t code = some s') : Good s s' := by
  have hl : ¬ t.Lives := fun hl => hl.2 code hpc
  have hp1 : p ≠ 1 := by
    rintro rfl
    obtain ⟨v, hv, -, hvl⟩ := hI.init
    rw [ht] at hv
    exact hl (Option.some.inj hv ▸ hvl)
  obtain ⟨t', ht'⟩ : ∃ t' : Task, t' = { t with state := .zombie, exitCode := code, pc := .gone } :=
    ⟨_, rfl⟩
  obtain ⟨s₁, hs₁⟩ : ∃ s₁ : State, s₁ = { s.setTask p (some t') with
    exits := Function.update s.exits t.serial (some code) } := ⟨_, rfl⟩
  have hserial : t'.serial = t.serial := by rw [ht']
  have hz' : t'.state = .zombie := by rw [ht']
  have hpc' : t'.pc = .gone := by rw [ht']
  have hcode' : t'.exitCode = code := by rw [ht']
  have hI₁ : Inv s₁ := by
    have hu := hI.update ht (w := t') (by rw [ht']) (by rw [ht']) hserial (by rw [ht'])
      (iff_of_true hz' hpc') fun h => absurd h hl
    rw [hs₁]
    exact ⟨hu.idle, hu.init, hu.pid, hu.father, hu.gone, hu.serial, hu.born, hu.page, hu.pages,
      hu.lost⟩
  have ht₁ : s₁.task p = some t' := hs₁ ▸ task_self
  have hforth : ∀ {j u}, s.task j = some u → j ≠ p → s₁.task j = some u := by
    intro j u hu hj
    rw [hs₁]
    exact (task_of_ne hj).trans hu
  have hC₁ : Codes s₁ := by
    have hrecorded := hC.recorded.exit (w := t') ht (hI.born p t ht)
      (fun j v hv he => hI.serial j p v t hv ht he)
      (fun r hr he => (hC.reaped r hr).2 p t ht he.symm) hserial hz' hcode'
    have hhanding : Handing (Holds (Function.update s.task p (some t'))) s.reaped s.delivered s.ended :=
      hC.handing.congr <| holds_update_plain (fun v hv n c hc => by
        rw [ht] at hv
        cases hv
        rw [hpc] at hc
        cases hc) fun n c hc => by
        rw [hpc'] at hc
        cases hc
    rw [hs₁]
    exact .of hrecorded hhanding
  have hk₁ : ∀ {j u}, s.task j = some u → Stays s₁ j u := by
    intro j u hu
    by_cases hj : j = p
    · subst hj
      rw [ht] at hu
      cases hu
      exact ⟨t', ht₁, hserial, fun h => absurd h hz⟩
    · exact ⟨u, hforth hu hj, rfl, fun h => ⟨h, rfl⟩⟩
  obtain ⟨i, htell⟩ := tellFather_eq hI₁ ht₁ hp hp1
  have hs' : s' = s₁.mapTasks (chld i) := by
    unfold State.becomeZombie at h
    rw [← sendChld_eq]
    rw [hs₁, ht'] at htell ⊢
    exact Option.some.inj (h.symm.trans htell)
  have hg := Good.mapTasks (f := chld i) hI₁ hC₁ (fun _ _ => chld_same.1)
    fun _ _ => .inl chld_same.2
  rw [hs']
  refine ⟨hg.inv, hg.codes, fun j u hu => .inl ?_⟩
  obtain ⟨w, hw, hws, hwz⟩ := hk₁ hu
  refine ⟨_, mapTasks_task hw, chld_same.1.serial.trans hws, fun hzu => ?_⟩
  exact ⟨chld_same.1.state.trans (hwz hzu).1, chld_same.1.code.trans (hwz hzu).2⟩

end Exit

section Waitpid

variable {s s' : State} {i p : Nr} {t t₀ u : Task} {pid options : BitVec 32}

/-- A `waitpid` releases a child. -/
theorem Good.reap (hI : Inv s) (hC : Codes s) (ht : s.task p = some t₀) (hz : t₀.state ≠ .zombie)
    (hplain : t₀.pc.Plain) (hsame : t.Same t₀) (hfather : t.father = t₀.father)
    (hu : s.task i = some u) (hi : i ≠ 0) (hip : i ≠ p) (huz : u.state = .zombie)
    (hchild : u.father = t.pid)
    (h : (s.release i).map (fun s =>
      { s.setTask p (some { t with pc := .reaped u.serial u.exitCode }) with
        reaped := s.reaped ++ [⟨u.serial, u.exitCode, t.serial⟩] }) = some s') : Good s s' := by
  obtain ⟨s₁, hrel, hI₁, htask, hpage, hexits, hreaped, hdelivered, hended, hborn⟩ :=
    hI.release hu hi huz
  obtain ⟨t', ht'⟩ : ∃ t' : Task, t' = { t with pc := .reaped u.serial u.exitCode } := ⟨_, rfl⟩
  have hserial : t'.serial = t₀.serial := by rw [ht']; exact hsame.serial
  have hstate : t'.state = t₀.state := by rw [ht']; exact hsame.state
  have hcode : t'.exitCode = t₀.exitCode := by rw [ht']; exact hsame.code
  have hpc : t'.pc = .reaped u.serial u.exitCode := by rw [ht']
  rw [hrel, ← ht'] at h
  have hs' := Option.some.inj h
  have ht₁ : s₁.task p = some t₀ := by
    rw [htask]
    exact (task_of_ne (Ne.symm hip)).trans ht
  have hI' : Inv s' := by
    have hg := hI₁.update ht₁ (w := t') (by rw [ht']; exact hsame.pid) (by rw [ht']; exact hfather)
      hserial (by rw [ht']; exact hsame.page)
      (iff_of_false (hstate ▸ hz) (by rw [hpc]; nofun))
      fun _ => .inl ⟨hstate ▸ hz, by rw [hpc]; nofun⟩
    rw [← hs']
    exact ⟨hg.idle, hg.init, hg.pid, hg.father, hg.gone, hg.serial, hg.born, hg.page, hg.pages,
      hg.lost⟩
  have htask' : s'.task = Function.update (Function.update s.task i none) p (some t') := by
    rw [← hs']
    show Function.update s₁.task p (some t') = _
    rw [htask]
    rfl
  have hself : s'.task p = some t' := by
    rw [← hs']
    exact task_self
  have hforth : ∀ {j v}, s.task j = some v → j ≠ p → j ≠ i → s'.task j = some v := by
    intro j v hv hjp hji
    rw [← hs']
    refine (task_of_ne hjp).trans ?_
    rw [htask]
    exact (task_of_ne hji).trans hv
  have hexits' : s'.exits = s.exits := by rw [← hs', ← hexits]; rfl
  have hdelivered' : s'.delivered = s.delivered := by rw [← hs', ← hdelivered]; rfl
  have hended' : s'.ended = s.ended := by rw [← hs', ← hended]; rfl
  have hborn' : s'.born = s.born := by rw [← hs', ← hborn]; rfl
  have hreaped' : s'.reaped = s.reaped ++ [⟨u.serial, u.exitCode, t₀.serial⟩] := by
    rw [← hs', ← hreaped, ← hsame.serial]
  have hnew : u.serial ∉ s.reaped.map Reaped.serial := by
    intro hmem
    obtain ⟨r, hr, hru⟩ := List.mem_map.1 hmem
    exact (hC.reaped r hr).2 i u hu hru.symm
  have hrecorded : Recorded s'.task s'.exits s'.born s'.reaped := by
    rw [htask', hexits', hborn', hreaped']
    exact (hC.recorded.release hu huz fun j v hv he => hI.serial j i v u hv hu he).update
      ((Function.update_of_ne (Ne.symm hip) _ _).trans ht) hserial hstate hcode
  have hhanding : Handing (Holds s'.task) s'.reaped s'.delivered s'.ended := by
    rw [htask', hreaped', hdelivered', hended']
    refine hC.handing.take hnew fun {f n c} => (holds_update_some fun v hv => ?_).trans ?_
    · rw [Function.update_of_ne (Ne.symm hip), ht] at hv
      cases hv
      exact hplain.ne.2.2
    · refine or_congr (holds_update_none fun v hv n c hc => ?_) ?_
      · rw [hu] at hv
        cases hv
        rw [(hI.gone i u hu).1 huz] at hc
        cases hc
      · rw [hpc, hserial, Pc.reaped.injEq, eq_comm (a := t₀.serial), eq_comm (a := u.serial),
          eq_comm (a := u.exitCode)]
  refine ⟨hI', .of hrecorded hhanding, ?_⟩
  · intro j v hv
    by_cases hji : j = i
    · subst hji
      rw [hu] at hv
      cases hv
      refine .inr ⟨huz, ⟨p, t₀, ht, hsame.pid.symm.trans hchild.symm, hreaped'⟩, ?_,
        hI.page j u hi hu, ?_⟩
      · rw [← hs']
        refine (task_of_ne hip).trans ?_
        rw [htask]
        exact Function.update_self _ _ _
      · rw [← hs']
        exact hpage
    · by_cases hjp : j = p
      · subst hjp
        rw [ht] at hv
        cases hv
        exact .inl ⟨t', hself, hserial, fun h => absurd h hz⟩
      · exact .inl ⟨v, hforth hv hjp hji, rfl, fun h => ⟨h, rfl⟩⟩

theorem mem_scanOrder (h : i ∈ State.scanOrder p) : i ≠ 0 ∧ i ≠ p :=
  of_decide_eq_true (List.mem_filter.1 h).2

theorem Good.waitpid (hI : Inv s) (hC : Codes s) (ht : s.task p = some t₀)
    (hrun : t₀.state = .running) (hplain : t₀.pc.Plain) (hsame : t.Same t₀)
    (hfather : t.father = t₀.father) (h : s.waitpid p t pid options = some s') : Good s s' := by
  have hz : t₀.state ≠ .zombie := by rw [hrun]; decide
  have hz' : t.state ≠ .zombie := by rw [hsame.state]; exact hz
  have hreturns : Good s (s.setTask p (some { t with pc := .user })) :=
    .update hI hC ht hsame.pid hfather hsame.serial hsame.page hsame.code (iff_of_false hz' hz)
      (.inr ⟨hplain, .inl rfl⟩)
  unfold State.waitpid at h
  split at h
  · next i hfind =>
    split at h
    · cases h
    · next u hu =>
      split at h
      · next huz =>
        obtain ⟨hi, hip⟩ := mem_scanOrder (List.mem_of_find?_eq_some hfind)
        have hsel := List.find?_some hfind
        rw [hu] at hsel
        obtain ⟨hsel, -⟩ := Bool.and_eq_true_iff.1 hsel
        exact .reap hI hC ht hz hplain hsame hfather hu hi hip huz
          (beq_iff_eq.1 (Bool.and_eq_true_iff.1 hsel).1) h
      · exact Option.some.inj h ▸ hreturns
  · split at h
    · split at h
      · exact Option.some.inj h ▸ hreturns
      · refine Option.some.inj h ▸ .update hI hC ht hsame.pid hfather hsame.serial hsame.page
          hsame.code (iff_of_false nofun hz) (.inr ⟨hplain, .inr ⟨pid, options, rfl⟩⟩)
    · exact Option.some.inj h ▸ hreturns

end Waitpid

section Runs

variable {s s' : State} {e : Event} {i p : Nr} {t : Task}

/-- `put_fs_long` gives the exit code to the user program, or ends the call. -/
def Leaves (s : State) (t : Task) (n : ℕ) (c : BitVec 32) (delivered : List (ℕ × BitVec 32))
    (ended : List Reaped) : Prop :=
  delivered = s.delivered ++ [(n, c)] ∧ ended = s.ended ∨
    delivered = s.delivered ∧ ended = s.ended ++ [⟨n, c, t.serial⟩]

theorem Codes.leave (hI : Inv s) (hC : Codes s) (ht : s.task p = some t) {n : ℕ} {c : BitVec 32}
    (hpc : t.pc = .reaped n c) {D : List (ℕ × BitVec 32)} {E : List Reaped} (hl : Leaves s t n c D E) :
    Codes { s.setTask p (some { t with pc := .user }) with delivered := D, ended := E } := by
  refine .of (hC.recorded.update ht rfl rfl rfl) (hC.handing.leave ⟨p, t, ht, rfl, hpc⟩ ?_ ?_ hl)
  · rintro g m d ⟨j, v, hv, hvg, hvc⟩
    rcases task_cases hv with ⟨-, rfl⟩ | ⟨hj, hv⟩
    · cases hvc
    · refine ⟨⟨j, v, hv, hvg, hvc⟩, ?_⟩
      rintro rfl
      exact hj (hC.holder_unique hI hv ht hvc hpc)
  · rintro g m d ⟨j, v, hv, hvg, hvc⟩
    by_cases hj : j = p
    · subst hj
      rw [ht] at hv
      cases hv
      obtain ⟨rfl, rfl⟩ := Pc.reaped.inj (hpc.symm.trans hvc)
      exact .inr ⟨hvg.symm, rfl, rfl⟩
    · exact .inl ⟨j, v, (task_of_ne hj).trans hv, hvg, hvc⟩

theorem Good.leave (hI : Inv s) (hC : Codes s) (ht : s.task p = some t) (hz : t.state ≠ .zombie)
    {n : ℕ} {c : BitVec 32} (hpc : t.pc = .reaped n c) {D : List (ℕ × BitVec 32)} {E : List Reaped}
    (hl : Leaves s t n c D E) :
    Good s { s.setTask p (some { t with pc := .user }) with delivered := D, ended := E } := by
  have hu := hI.update ht (w := { t with pc := .user }) rfl rfl rfl rfl (iff_of_false hz nofun)
    fun _ => .inl ⟨hz, nofun⟩
  exact ⟨⟨hu.idle, hu.init, hu.pid, hu.father, hu.gone, hu.serial, hu.born, hu.page, hu.pages,
    hu.lost⟩, hC.leave hI ht hpc hl, fun j v hv =>
      .inl (.update (w := { t with pc := .user }) ht rfl (fun h => absurd h hz) hv)⟩

/-- A task begins `do_exit`, in a user program or in `put_fs_long`. -/
theorem Good.exit (hI : Inv s) (hC : Codes s) (ht : s.task p = some t) (hp : p ≠ 1)
    (hz : t.state ≠ .zombie) {code : BitVec 32} {s₁ : State} (h : s.endCall p t = some s₁) :
    Good s (s₁.doExit p t code) := by
  unfold State.endCall at h
  split at h
  · next hpc => exact Option.some.inj h ▸ (Good.doExit hI hC ht hp hpc hz).1
  · next n c hpc =>
    have hg := Good.leave hI hC ht hz hpc (.inr ⟨rfl, rfl⟩)
    obtain rfl := Option.some.inj h
    obtain ⟨hg', hstays⟩ := Good.doExit (t := { t with pc := .user }) hg.inv hg.codes task_self hp rfl hz
    refine ⟨hg'.inv, hg'.codes, fun j v hv => .inl ?_⟩
    exact (Stays.update (w := { t with pc := .user }) ht rfl (fun h => absurd h hz) hv).trans
      (hstays j)
  · cases h
  · cases h
  · cases h

theorem Good.next (hI : Inv s) (hC : Codes s) (hok : InitStays s e) (h : s.next e = some s') :
    Good s s' := by
  cases e with
  | fork p page room =>
    obtain ⟨t, ht, h⟩ := Option.bind_eq_some_iff.1 h
    obtain ⟨ht, hp, hrun, hpc⟩ := user_eq_some ht
    refine .fork hI hC ht hp ⟨?_, ?_⟩ h
    · rw [hrun]; decide
    · rw [hpc]; nofun
  | exit p code =>
    obtain ⟨t, ht, h⟩ := Option.bind_eq_some_iff.1 h
    obtain ⟨s₁, hs₁, rfl⟩ := Option.map_eq_some_iff.1 h
    obtain ⟨ht, -, hrun⟩ := current_eq_some ht
    refine .exit hI hC ht ?_ ?_ hs₁
    · rintro rfl
      exact hok code rfl
    · rw [hrun]; decide
  | waitpid p pid options =>
    obtain ⟨t, ht, h⟩ := Option.bind_eq_some_iff.1 h
    obtain ⟨ht, -, hrun, hpc⟩ := user_eq_some ht
    exact .waitpid hI hC ht hrun (.inl hpc) .refl rfl h
  | run p =>
    obtain ⟨t, ht, h⟩ := Option.bind_eq_some_iff.1 h
    obtain ⟨ht, hp, hrun⟩ := current_eq_some ht
    have hz : t.state ≠ .zombie := by rw [hrun]; decide
    unfold State.resume at h
    split at h
    · cases h
    · cases h
    · next pid options hpc =>
      have hplain : t.pc.Plain := .inr ⟨pid, options, hpc⟩
      dsimp only at h
      split at h
      · exact .waitpid hI hC ht hrun hplain
          (t := { t with signal := t.signal &&& ~~~State.sigchld }) ⟨rfl, rfl, rfl, rfl, rfl, rfl⟩ rfl h
      · exact Option.some.inj h ▸ .update hI hC ht rfl rfl rfl rfl rfl Iff.rfl
          (.inr ⟨hplain, .inl rfl⟩)
    · next n c hpc => exact Option.some.inj h ▸ .leave hI hC ht hz hpc (.inl ⟨rfl, rfl⟩)
    · next code hpc => exact .becomeZombie hI hC ht hp hpc hz h
  | sleep p interruptible =>
    obtain ⟨t, ht, rfl⟩ := Option.map_eq_some_iff.1 h
    obtain ⟨ht, -, hrun⟩ := current_eq_some ht
    refine .update hI hC ht rfl rfl rfl rfl rfl (iff_of_false ?_ ?_) (.inl rfl)
    · dsimp only
      split
      · nofun
      · nofun
    · rw [hrun]; decide
  | wake i =>
    obtain ⟨t, ht, rfl⟩ := Option.map_eq_some_iff.1 h
    obtain ⟨ht, hw⟩ := Option.filter_eq_some_iff.1 ht
    refine .update hI hC ht rfl rfl rfl rfl rfl (iff_of_false nofun ?_) (.inl rfl)
    rcases of_decide_eq_true hw with hw | hw
    · rw [hw]; decide
    · rw [hw]; decide
  | signal i signals =>
    obtain ⟨t, ht, rfl⟩ := Option.map_eq_some_iff.1 h
    exact .update hI hC ht rfl rfl rfl rfl rfl Iff.rfl (.inl rfl)
  | setpgrp p pgrp =>
    obtain ⟨t, ht, rfl⟩ := Option.map_eq_some_iff.1 h
    obtain ⟨ht, -⟩ := user_eq_some ht
    exact .update hI hC ht rfl rfl rfl rfl rfl Iff.rfl (.inl rfl)

theorem release_ended {f : State → State} (hf : ∀ s, (f s).ended = s.ended)
    (h : (s.release i).map f = some s') : s'.ended = s.ended := by
  obtain ⟨s₁, h, rfl⟩ := Option.map_eq_some_iff.1 h
  unfold State.release State.freePage at h
  split at h
  · exact Option.some.inj h ▸ hf s
  · split at h
    · cases h
    · split at h
      · cases h
      · exact Option.some.inj h ▸ hf _

theorem becomeZombie_ended {code : BitVec 32} (h : s.becomeZombie p t code = some s') :
    s'.ended = s.ended := by
  unfold State.becomeZombie State.tellFather at h
  dsimp only at h
  split at h
  · split at h
    · exact Option.some.inj h ▸ rfl
    · exact (release_ended (by intro _; rfl) h).trans rfl
  · exact (release_ended (by intro _; rfl) h).trans rfl

theorem waitpid_ended {pid options : BitVec 32} (h : s.waitpid p t pid options = some s') :
    s'.ended = s.ended := by
  unfold State.waitpid at h
  split at h
  · split at h
    · cases h
    · split at h
      · exact release_ended (by intro _; rfl) h
      · exact Option.some.inj h ▸ rfl
  · split at h
    · split at h
      · exact Option.some.inj h ▸ rfl
      · exact Option.some.inj h ▸ rfl
    · exact Option.some.inj h ▸ rfl

theorem fork_ended {page : Option ℕ} {room : Bool} (h : s.fork t page room = some s') :
    s'.ended = s.ended := by
  unfold State.fork at h
  obtain ⟨pid, -, h⟩ := Option.bind_eq_some_iff.1 h
  dsimp only at h
  split at h
  · split at h
    · cases h
    · split at h
      · exact Option.some.inj h ▸ rfl
      · exact Option.some.inj h ▸ rfl
  · exact Option.some.inj h ▸ rfl

/-- Calls of `waitpid` are ended by nothing but an exit out of `put_fs_long`. -/
def Ends (s : State) (e : Event) (s' : State) : Prop :=
  s'.ended = s.ended ∨ ∃ p t n c code, e = .exit p code ∧ s.task p = some t ∧ t.pc = .reaped n c ∧
    s'.ended = s.ended ++ [⟨n, c, t.serial⟩]

theorem Ends.next (h : s.next e = some s') : Ends s e s' := by
  cases e with
  | fork p page room =>
    obtain ⟨t, -, h⟩ := Option.bind_eq_some_iff.1 h
    exact .inl (fork_ended h)
  | exit p code =>
    obtain ⟨t, ht, h⟩ := Option.bind_eq_some_iff.1 h
    obtain ⟨s₁, hs₁, rfl⟩ := Option.map_eq_some_iff.1 h
    obtain ⟨f, -, -, heq⟩ := doExit_eq s₁ p t code
    have hexit : (s₁.doExit p t code).ended = s₁.ended := by
      rw [heq]
      rfl
    unfold State.endCall at hs₁
    split at hs₁
    · cases hs₁
      exact .inl hexit
    · next n c hpc =>
      obtain rfl := Option.some.inj hs₁
      exact .inr ⟨p, t, n, c, code, rfl, (current_eq_some ht).1, hpc, hexit⟩
    · cases hs₁
    · cases hs₁
    · cases hs₁
  | waitpid p pid options =>
    obtain ⟨t, -, h⟩ := Option.bind_eq_some_iff.1 h
    exact .inl (waitpid_ended h)
  | run p =>
    obtain ⟨t, -, h⟩ := Option.bind_eq_some_iff.1 h
    unfold State.resume at h
    split at h
    · cases h
    · cases h
    · dsimp only at h
      split at h
      · exact .inl (waitpid_ended h)
      · exact .inl (Option.some.inj h ▸ rfl)
    · exact .inl (Option.some.inj h ▸ rfl)
    · exact .inl (becomeZombie_ended h)
  | sleep p interruptible =>
    obtain ⟨t, -, rfl⟩ := Option.map_eq_some_iff.1 h
    exact .inl rfl
  | wake i =>
    obtain ⟨t, -, rfl⟩ := Option.map_eq_some_iff.1 h
    exact .inl rfl
  | signal i signals =>
    obtain ⟨t, -, rfl⟩ := Option.map_eq_some_iff.1 h
    exact .inl rfl
  | setpgrp p pgrp =>
    obtain ⟨t, -, rfl⟩ := Option.map_eq_some_iff.1 h
    exact .inl rfl

theorem Ends.mem {r : Reaped} (h : Ends s e s') (hr : r ∈ s.ended) : r ∈ s'.ended := by
  rcases h with h | ⟨_, _, _, _, _, _, _, _, h⟩
  · exact h ▸ hr
  · exact h ▸ List.mem_append_left _ hr

/-- The tasks that are there from the beginning. -/
theorem boot_task {page : ℕ} (h : (boot page).task i = some t) :
    (i = 0 ∧ t = ⟨0, -1, 0, 0, .running, 0, 0, 0, .user⟩) ∨
    (i = 1 ∧ t = ⟨1, 0, 0, 0, .running, 0, page, 1, .user⟩) := by
  unfold boot at h
  dsimp only at h
  split at h
  · next hi => exact .inl ⟨hi, (Option.some.inj h).symm⟩
  · split at h
    · next hi => exact .inr ⟨hi, (Option.some.inj h).symm⟩
    · cases h

theorem boot_inv (page : ℕ) : Inv (boot page) := by
  refine ⟨⟨_, rfl, rfl⟩, ⟨_, rfl, rfl, nofun, nofun⟩, ?_, ?_, ?_, ?_, ?_, ?_, ?_, rfl⟩
  · intro i j t u ht hu h
    rcases boot_task ht with ⟨rfl, rfl⟩ | ⟨rfl, rfl⟩ <;>
      rcases boot_task hu with ⟨rfl, rfl⟩ | ⟨rfl, rfl⟩
    · rfl
    · exact absurd h (by decide : (0 : BitVec 32) ≠ 1)
    · exact absurd h (by decide : (1 : BitVec 32) ≠ 0)
    · rfl
  · intro i t hi0 hi1 ht
    rcases boot_task ht with ⟨hi, -⟩ | ⟨hi, -⟩
    · exact absurd hi hi0
    · exact absurd hi hi1
  · intro i t ht
    rcases boot_task ht with ⟨-, rfl⟩ | ⟨-, rfl⟩
    · exact iff_of_false nofun nofun
    · exact iff_of_false nofun nofun
  · intro i j t u ht hu h
    rcases boot_task ht with ⟨rfl, rfl⟩ | ⟨rfl, rfl⟩ <;>
      rcases boot_task hu with ⟨rfl, rfl⟩ | ⟨rfl, rfl⟩
    · rfl
    · cases h
    · cases h
    · rfl
  · intro i t ht
    rcases boot_task ht with ⟨-, rfl⟩ | ⟨-, rfl⟩
    · exact Nat.zero_lt_two
    · exact Nat.one_lt_two
  · intro i t hi ht
    rcases boot_task ht with ⟨hi0, -⟩ | ⟨-, rfl⟩
    · exact absurd hi0 hi
    · exact Function.update_self page 1 fun _ => 0
  · intro i j t u hi hj ht hu _
    rcases boot_task ht with ⟨hi0, -⟩ | ⟨rfl, -⟩
    · exact absurd hi0 hi
    · rcases boot_task hu with ⟨hj0, -⟩ | ⟨rfl, -⟩
      · exact absurd hj0 hj
      · rfl

theorem boot_codes (page : ℕ) : Codes (boot page) := by
  refine ⟨?_, fun _ _ _ _ => rfl, nofun, nofun, nofun, List.nodup_nil, nofun, List.nodup_nil, ?_,
    nofun, nofun⟩
  · intro i t ht hz
    rcases boot_task ht with ⟨-, rfl⟩ | ⟨-, rfl⟩
    · cases hz
    · cases hz
  · intro i t n c ht hc
    rcases boot_task ht with ⟨-, rfl⟩ | ⟨-, rfl⟩
    · cases hc
    · cases hc

theorem reachable_good (h : family.ReachableWhen InitStays s) : Inv s ∧ Codes s := by
  refine h.invariant (I := fun s => Inv s ∧ Codes s) ?_ ?_
  · rintro s ⟨page, rfl⟩
    exact ⟨boot_inv page, boot_codes page⟩
  · rintro s e s' ⟨hI, hC⟩ hok hs
    have hg := Good.next hI hC hok hs
    exact ⟨hg.inv, hg.codes⟩

/-- What holds of the processes whenever one of them runs. -/
structure Kept (s : State) : Prop where
  /-- The father is there, and can wait. -/
  father : ∀ i t, i ≠ 0 → i ≠ 1 → s.task i = some t →
    ∃ j u, j ≠ 0 ∧ s.task j = some u ∧ u.pid = t.father ∧ u.state ≠ .zombie
  /-- `tell_father` has always found it. -/
  lost : s.lost = []
  /-- Who has exited is a zombie that nobody has waited for, or has been waited for. -/
  exited : ∀ n c, s.exits n = some c →
    (∃ i t, s.task i = some t ∧ t.serial = n ∧ t.state = .zombie ∧ t.exitCode = c ∧
      n ∉ s.reaped.map Reaped.serial) ∨
    ((∃ r ∈ s.reaped, r.serial = n ∧ r.code = c) ∧ ∀ i t, s.task i = some t → t.serial ≠ n)
  reaped : ∀ r ∈ s.reaped, s.exits r.serial = some r.code
  once : (s.reaped.map Reaped.serial).Nodup
  /-- The exit code is delivered once: it is, or a `waitpid` is about to, or this `waitpid` was ended. -/
  delivered : ∀ r ∈ s.reaped, ((r.serial, r.code) ∈ s.delivered ∧ r ∉ s.ended) ∨
    (r.serial ∉ s.delivered.map Prod.fst ∧ r ∉ s.ended ∧
      ∃ i t, s.task i = some t ∧ t.serial = r.father ∧ t.pc = .reaped r.serial r.code) ∨
    (r.serial ∉ s.delivered.map Prod.fst ∧ r ∈ s.ended)
  delivered_once : (s.delivered.map Prod.fst).Nodup
  delivered_reaped : ∀ d ∈ s.delivered, ∃ r ∈ s.reaped, r.serial = d.1 ∧ r.code = d.2
  /-- Its page is in use until then, and `release` can give it back. -/
  page : ∀ i t, i ≠ 0 → s.task i = some t → s.memMap t.page = 1
  release : ∀ i t, i ≠ 0 → s.task i = some t → t.state = .zombie → (s.release i).isSome

theorem Kept.of_inv (hI : Inv s) (hC : Codes s) : Kept s where
  father i t h0 h1 ht := by
    obtain ⟨j, u, hj, hu, hpid, hl⟩ := hI.father i t h0 h1 ht
    exact ⟨j, u, hj, hu, hpid, hl.1⟩
  lost := hI.lost
  exited n c hn := by
    rcases hC.exits n c hn with ⟨i, t, ht, rfl⟩ | hmem
    · have hz : t.state = .zombie := by
        by_contra hz
        rw [hC.alive i t ht hz] at hn
        cases hn
      have hcode := (hC.zombie i t ht hz).symm.trans hn
      refine .inl ⟨i, t, ht, rfl, hz, Option.some.inj hcode, fun hmem => ?_⟩
      obtain ⟨r, hr, hrt⟩ := List.mem_map.1 hmem
      exact (hC.reaped r hr).2 i t ht hrt.symm
    · obtain ⟨r, hr, rfl⟩ := List.mem_map.1 hmem
      have hcode := (hC.reaped r hr).1.symm.trans hn
      exact .inr ⟨⟨r, hr, rfl, Option.some.inj hcode⟩, (hC.reaped r hr).2⟩
  reaped r hr := (hC.reaped r hr).1
  once := hC.nodup
  delivered r hr := by
    by_cases he : r ∈ s.ended
    · exact .inr (.inr ⟨(hC.ended r he).2.1, he⟩)
    · rcases hC.pending r hr with h | h | ⟨i, t, ht, hf, hc⟩
      · exact .inl ⟨h, he⟩
      · exact absurd h he
      · exact .inr (.inl ⟨(hC.given i t _ _ ht hc).1, he, i, t, ht, hf, hc⟩)
  delivered_once := hC.once
  delivered_reaped := hC.delivered
  page := hI.page
  release i t hi ht hz := by
    obtain ⟨s', hs', -⟩ := hI.release ht hi hz
    rw [hs']
    rfl

/-- While init stays, every process has a father that can wait for it. Who exits stays in the table
until a `waitpid` of its father releases it and frees its page, and that happens once; the exit code is
delivered once, unless this `waitpid` ends in `put_fs_long`. -/
theorem family_kept (h : family.ReachableWhen InitStays s) :
    Kept s ∧ ∀ e s', InitStays s e → family.step s e s' → Keeps s s' ∧ Ends s e s' := by
  obtain ⟨hI, hC⟩ := reachable_good h
  exact ⟨.of_inv hI hC, fun e s' hok hs => ⟨(Good.next hI hC hok hs).keeps, .next hs⟩⟩

instance (s : State) : ∀ e, Decidable (InitStays s e)
  | .exit p code => if hp : p = 1
    then .isFalse fun h => h code (hp ▸ rfl)
    else .isTrue fun _ h => hp (Event.exit.inj h).1
  | .fork _ _ _ | .waitpid _ _ _ | .run _ | .sleep _ _ | .wake _ | .signal _ _ | .setpgrp _ _ =>
    .isTrue fun _ h => nomatch h

/-- A child leaves its own child to init, and init waits for both. -/
theorem family_kept_orphan : ∃ s : State, s.delivered = [(3, 0x900), (2, 0x700)] ∧ s.lost = [] ∧
    (s.reaped.map Reaped.serial).Nodup := by
  have hrun : (System.execWhen State.next InitStays (boot 5)
      [.fork 1 (some 6) true, .fork 2 (some 7) true, .waitpid 1 (-1) 0, .exit 2 0x700,
        .sleep 2 false, .exit 3 0x900, .wake 2, .run 2, .run 3, .wake 1, .run 1, .run 1, .waitpid 1 (-1) 0,
        .run 1]).any (fun s => decide (s.delivered = [(3, 0x900), (2, 0x700)])) = true := by
    decide +kernel
  obtain ⟨s, hs, hdelivered⟩ := (Option.any_eq_true _ _).1 hrun
  have hreach : family.ReachableWhen InitStays s :=
    .exec (fun _ _ _ h => h) (.init ⟨5, rfl⟩) hs
  have hkept := (family_kept hreach).1
  exact ⟨s, of_decide_eq_true hdelivered, hkept.lost, hkept.once⟩

/-- A father is killed when it stores the exit code of the child that it has released: nobody is given
this code any more. -/
theorem exit_code_lost : ∃ s : State, family.ReachableWhen InitStays s ∧ s.exits 3 = some 0x700 ∧
    3 ∈ s.reaped.map Reaped.serial ∧
    ∀ s', family.Leads InitStays s s' → 3 ∉ s'.delivered.map Prod.fst := by
  have hrun : (System.execWhen State.next InitStays (boot 5)
      [.fork 1 (some 6) true, .fork 2 (some 7) true, .exit 3 0x700, .run 3, .waitpid 2 (-1) 0,
        .exit 2 11]).any (fun s => decide (s.ended = [⟨3, 0x700, 2⟩])) = true := by
    decide +kernel
  obtain ⟨s, hs, hended⟩ := (Option.any_eq_true _ _).1 hrun
  have hreach : family.ReachableWhen InitStays s :=
    .exec (fun _ _ _ h => h) (.init ⟨5, rfl⟩) hs
  have hmem : (⟨3, 0x700, 2⟩ : Reaped) ∈ s.ended := by
    rw [of_decide_eq_true hended]
    exact List.mem_singleton_self _
  have hC := (reachable_good hreach).2
  have hreaped := (hC.ended _ hmem).1
  refine ⟨s, hreach, (hC.reaped _ hreaped).1, List.mem_map_of_mem hreaped, fun s' hl => ?_⟩
  have hmem' : (⟨3, 0x700, 2⟩ : Reaped) ∈ s'.ended :=
    hl.invariant (I := fun s => (⟨3, 0x700, 2⟩ : Reaped) ∈ s.ended)
      (fun s e s' hm _ hs => (Ends.next hs).mem hm) hmem
  exact ((reachable_good (hreach.leads hl)).2.ended _ hmem').2.1

end Runs

end Linux011.Family
