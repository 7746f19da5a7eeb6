import Linux011.Sched.Family

/-!
# The way of the exit codes

`Codes` in two parts, and what can happen to each.

1. `Recorded`: the codes of the zombies and of the children that were released.
2. `Handing`: who holds the codes of these until they are delivered or lost.
3. `Codes.of`: the parts put together.
-/

namespace Linux011.Family

/-- The exit codes are those of the zombies and of the children that were released. -/
structure Recorded (task : Nr → Option Task) (E : ℕ → Option (BitVec 32)) (born : ℕ)
    (R : List Reaped) : Prop where
  zombie : ∀ i t, task i = some t → t.state = .zombie → E t.serial = some t.exitCode
  alive : ∀ i t, task i = some t → t.state ≠ .zombie → E t.serial = none
  lt : ∀ n c, E n = some c → n < born
  source : ∀ n c, E n = some c → (∃ i t, task i = some t ∧ t.serial = n) ∨ n ∈ R.map Reaped.serial
  released : ∀ r ∈ R, E r.serial = some r.code ∧ ∀ i t, task i = some t → t.serial ≠ r.serial

section Recorded

variable {task : Nr → Option Task} {E : ℕ → Option (BitVec 32)} {born : ℕ} {R : List Reaped}
  {i : Nr} {t u w : Task} {c : BitVec 32}

/-- A new task. -/
theorem Recorded.add (h : Recorded task E born R) (hnone : task i = none) (hz : u.state ≠ .zombie)
    (hserial : u.serial = born) : Recorded (Function.update task i (some u)) E (born + 1) R := by
  have hnew : E born = none := by
    rcases he : E born with _ | c
    · rfl
    · exact absurd (h.lt born c he) (Nat.lt_irrefl _)
  refine ⟨fun j v hv hvz => ?_, fun j v hv hvz => ?_, fun n c hn => Nat.lt_succ_of_lt (h.lt n c hn),
    fun n c hn => ?_, fun r hr => ⟨(h.released r hr).1, fun j v hv => ?_⟩⟩
  · rcases Table.update_some_cases hv with ⟨-, rfl⟩ | ⟨-, hv⟩
    · exact absurd hvz hz
    · exact h.zombie j v hv hvz
  · rcases Table.update_some_cases hv with ⟨-, rfl⟩ | ⟨-, hv⟩
    · exact hserial ▸ hnew
    · exact h.alive j v hv hvz
  · refine (h.source n c hn).imp_left ?_
    rintro ⟨j, v, hv, hvn⟩
    refine ⟨j, v, (Function.update_of_ne ?_ _ _).trans hv, hvn⟩
    rintro rfl
    rw [hnone] at hv
    cases hv
  · rcases Table.update_some_cases hv with ⟨-, rfl⟩ | ⟨-, hv⟩
    · have := h.lt _ _ (h.released r hr).1
      omega
    · exact (h.released r hr).2 j v hv

/-- A task changes elsewhere. -/
theorem Recorded.update (h : Recorded task E born R) (ht : task i = some t)
    (hserial : w.serial = t.serial) (hstate : w.state = t.state) (hcode : w.exitCode = t.exitCode) :
    Recorded (Function.update task i (some w)) E born R := by
  have hback : ∀ {j v}, Function.update task i (some w) j = some v → ∃ x, task j = some x ∧
      v.serial = x.serial ∧ v.state = x.state ∧ v.exitCode = x.exitCode := by
    intro j v hv
    rcases Table.update_some_cases hv with ⟨rfl, rfl⟩ | ⟨-, hv⟩
    · exact ⟨t, ht, hserial, hstate, hcode⟩
    · exact ⟨v, hv, rfl, rfl, rfl⟩
  refine ⟨fun j v hv hvz => ?_, fun j v hv hvz => ?_, h.lt, fun n c hn => ?_,
    fun r hr => ⟨(h.released r hr).1, fun j v hv => ?_⟩⟩
  · obtain ⟨x, hx, hs, hst, hc⟩ := hback hv
    rw [hs, hc]
    exact h.zombie j x hx (hst.symm.trans hvz)
  · obtain ⟨x, hx, hs, hst, -⟩ := hback hv
    rw [hs]
    exact h.alive j x hx (hst ▸ hvz)
  · refine (h.source n c hn).imp_left ?_
    rintro ⟨j, v, hv, hvn⟩
    by_cases hj : j = i
    · subst hj
      rw [ht] at hv
      cases hv
      exact ⟨j, w, Function.update_self _ _ _, hserial.trans hvn⟩
    · exact ⟨j, v, (Function.update_of_ne hj _ _).trans hv, hvn⟩
  · obtain ⟨x, hx, hs, -⟩ := hback hv
    exact hs ▸ (h.released r hr).2 j x hx

/-- A task becomes a zombie. -/
theorem Recorded.exit (h : Recorded task E born R) (ht : task i = some t) (hlt : t.serial < born)
    (hone : ∀ j v, task j = some v → v.serial = t.serial → j = i)
    (hR : ∀ r ∈ R, r.serial ≠ t.serial) (hserial : w.serial = t.serial) (hz : w.state = .zombie)
    (hcode : w.exitCode = c) :
    Recorded (Function.update task i (some w)) (Function.update E t.serial (some c)) born R := by
  have hself : Function.update E t.serial (some c) t.serial = some c := Function.update_self _ _ _
  have hof : ∀ {n}, n ≠ t.serial → Function.update E t.serial (some c) n = E n :=
    fun hn => Function.update_of_ne hn _ _
  have hne : ∀ {j v}, j ≠ i → task j = some v → v.serial ≠ t.serial :=
    fun hj hv he => hj (hone _ _ hv he)
  refine ⟨fun j v hv hvz => ?_, fun j v hv hvz => ?_, fun n d hn => ?_, fun n d hn => ?_,
    fun r hr => ⟨(hof (hR r hr)).trans (h.released r hr).1, fun j v hv => ?_⟩⟩
  · rcases Table.update_some_cases hv with ⟨-, rfl⟩ | ⟨hj, hv⟩
    · rw [hserial, hself, hcode]
    · rw [hof (hne hj hv)]
      exact h.zombie j v hv hvz
  · rcases Table.update_some_cases hv with ⟨-, rfl⟩ | ⟨hj, hv⟩
    · exact absurd hz hvz
    · rw [hof (hne hj hv)]
      exact h.alive j v hv hvz
  · by_cases he : n = t.serial
    · exact he ▸ hlt
    · exact h.lt n d (hof he ▸ hn)
  · by_cases he : n = t.serial
    · exact .inl ⟨i, w, Function.update_self _ _ _, hserial.trans he.symm⟩
    · rw [hof he] at hn
      refine (h.source n d hn).imp_left ?_
      rintro ⟨j, v, hv, hvn⟩
      refine ⟨j, v, (Function.update_of_ne ?_ _ _).trans hv, hvn⟩
      rintro rfl
      rw [ht] at hv
      exact he (hvn.symm.trans (Option.some.inj hv ▸ rfl))
  · rcases Table.update_some_cases hv with ⟨-, rfl⟩ | ⟨-, hv⟩
    · exact hserial ▸ (hR r hr).symm
    · exact (h.released r hr).2 j v hv

/-- A zombie is released. -/
theorem Recorded.release (h : Recorded task E born R) (hu : task i = some u)
    (hz : u.state = .zombie) (hone : ∀ j v, task j = some v → v.serial = u.serial → j = i) {f : ℕ} :
    Recorded (Function.update task i none) E born (R ++ [⟨u.serial, u.exitCode, f⟩]) := by
  refine ⟨fun j v hv hvz => h.zombie j v (Table.update_none_cases hv).2 hvz,
    fun j v hv hvz => h.alive j v (Table.update_none_cases hv).2 hvz, h.lt, fun n c hn => ?_,
    fun r hr => ?_⟩
  · rw [List.map_append, List.mem_append]
    rcases h.source n c hn with ⟨j, v, hv, rfl⟩ | hn
    · by_cases hj : j = i
      · subst hj
        rw [hu] at hv
        cases hv
        exact .inr (.inr (List.mem_singleton_self _))
      · exact .inl ⟨j, v, (Function.update_of_ne hj _ _).trans hv, rfl⟩
    · exact .inr (.inl hn)
  · rcases List.mem_append.1 hr with hr | hr
    · exact ⟨(h.released r hr).1, fun j v hv => (h.released r hr).2 j v (Table.update_none_cases hv).2⟩
    · obtain rfl := List.mem_singleton.1 hr
      refine ⟨h.zombie i u hu hz, fun j v hv he => ?_⟩
      obtain ⟨hj, hv⟩ := Table.update_none_cases hv
      exact hj (hone j v hv he)

end Recorded

/-- The task with serial number `f` is to give the code `c` of its child `n` to the user program. -/
def Holds (task : Nr → Option Task) (f n : ℕ) (c : BitVec 32) : Prop :=
  ∃ i t, task i = some t ∧ t.serial = f ∧ t.pc = .reaped n c

section Holds

variable {task : Nr → Option Task} {i : Nr} {t w : Task} {f n : ℕ} {c : BitVec 32}

theorem holds_update_some (hold : ∀ t, task i = some t → ∀ n c, t.pc ≠ .reaped n c) :
    Holds (Function.update task i (some w)) f n c ↔
      Holds task f n c ∨ w.serial = f ∧ w.pc = .reaped n c := by
  constructor
  · rintro ⟨j, v, hv, hf, hc⟩
    rcases Table.update_some_cases hv with ⟨-, rfl⟩ | ⟨-, hv⟩
    · exact .inr ⟨hf, hc⟩
    · exact .inl ⟨j, v, hv, hf, hc⟩
  · rintro (⟨j, v, hv, hf, hc⟩ | ⟨hf, hc⟩)
    · refine ⟨j, v, (Function.update_of_ne ?_ _ _).trans hv, hf, hc⟩
      rintro rfl
      exact hold v hv n c hc
    · exact ⟨i, w, Function.update_self _ _ _, hf, hc⟩

theorem holds_update_none (hold : ∀ t, task i = some t → ∀ n c, t.pc ≠ .reaped n c) :
    Holds (Function.update task i none) f n c ↔ Holds task f n c := by
  constructor
  · rintro ⟨j, v, hv, hfc⟩
    exact ⟨j, v, (Table.update_none_cases hv).2, hfc⟩
  · rintro ⟨j, v, hv, hf, hc⟩
    refine ⟨j, v, (Function.update_of_ne ?_ _ _).trans hv, hf, hc⟩
    rintro rfl
    exact hold v hv n c hc

/-- A task that holds no code, before or after. -/
theorem holds_update_plain (hold : ∀ t, task i = some t → ∀ n c, t.pc ≠ .reaped n c)
    (hw : ∀ n c, w.pc ≠ .reaped n c) :
    Holds (Function.update task i (some w)) f n c ↔ Holds task f n c :=
  (holds_update_some hold).trans (or_iff_left fun h => hw n c h.2)

end Holds

/-- Each code of a child that was released goes to one father: it is delivered, it is lost, or it is held. -/
structure Handing (holds : ℕ → ℕ → BitVec 32 → Prop) (R : List Reaped) (D : List (ℕ × BitVec 32))
    (L : List Reaped) : Prop where
  nodup : (R.map Reaped.serial).Nodup
  delivered : ∀ d ∈ D, ∃ r ∈ R, r.serial = d.1 ∧ r.code = d.2
  once : (D.map Prod.fst).Nodup
  given : ∀ f n c, holds f n c → n ∉ D.map Prod.fst ∧
    ∃ r ∈ R, r.serial = n ∧ r.code = c ∧ r.father = f
  pending : ∀ r ∈ R, (r.serial, r.code) ∈ D ∨ r ∈ L ∨ holds r.father r.serial r.code
  ended : ∀ r ∈ L, r ∈ R ∧ r.serial ∉ D.map Prod.fst ∧ ∀ f c, ¬holds f r.serial c

section Handing

variable {holds holds' : ℕ → ℕ → BitVec 32 → Prop} {R : List Reaped} {D D' : List (ℕ × BitVec 32)}
  {L L' : List Reaped} {r : Reaped} {f n : ℕ} {c : BitVec 32}

theorem Handing.congr (h : Handing holds R D L) (hh : ∀ {f n c}, holds' f n c ↔ holds f n c) :
    Handing holds' R D L :=
  ⟨h.nodup, h.delivered, h.once, fun f n c hc => h.given f n c (hh.1 hc),
    fun r hr => (h.pending r hr).imp_right fun hr => hr.imp_right hh.2,
    fun r hr => ⟨(h.ended r hr).1, (h.ended r hr).2.1, fun f c hc => (h.ended r hr).2.2 f c (hh.1 hc)⟩⟩

/-- A child is released: the `waitpid` that does it holds its code. -/
theorem Handing.take (h : Handing holds R D L) (hnew : r.serial ∉ R.map Reaped.serial)
    (hh : ∀ {f n c}, holds' f n c ↔ holds f n c ∨ f = r.father ∧ n = r.serial ∧ c = r.code) :
    Handing holds' (R ++ [r]) D L := by
  have hmono : ∀ {q}, q ∈ R → q ∈ R ++ [r] := fun hq => List.mem_append_left _ hq
  have hlast : r ∈ R ++ [r] := List.mem_append_right _ (List.mem_singleton_self _)
  refine ⟨?_, fun d hd => ?_, h.once, fun f n c hc => ?_, fun q hq => ?_, fun q hq => ?_⟩
  · rw [List.map_append, List.map_singleton]
    exact List.nodup_append'.2 ⟨h.nodup, List.nodup_singleton _, List.disjoint_singleton.2 hnew⟩
  · obtain ⟨q, hq, hqd⟩ := h.delivered d hd
    exact ⟨q, hmono hq, hqd⟩
  · rcases hh.1 hc with hc | ⟨rfl, rfl, rfl⟩
    · obtain ⟨hn, q, hq, hqn⟩ := h.given f n c hc
      exact ⟨hn, q, hmono hq, hqn⟩
    · refine ⟨fun hmem => ?_, r, hlast, rfl, rfl, rfl⟩
      obtain ⟨d, hd, hdr⟩ := List.mem_map.1 hmem
      obtain ⟨q, hq, hqd, -⟩ := h.delivered d hd
      exact hnew (List.mem_map.2 ⟨q, hq, hqd.trans hdr⟩)
  · rcases List.mem_append.1 hq with hq | hq
    · exact (h.pending q hq).imp_right fun hq => hq.imp_right fun hq => hh.2 (.inl hq)
    · obtain rfl := List.mem_singleton.1 hq
      exact .inr (.inr (hh.2 (.inr ⟨rfl, rfl, rfl⟩)))
  · obtain ⟨hqR, hqD, hqh⟩ := h.ended q hq
    refine ⟨hmono hqR, hqD, fun f c hc => ?_⟩
    rcases hh.1 hc with hc | ⟨-, hqr, -⟩
    · exact hqh f c hc
    · exact hnew (List.mem_map.2 ⟨q, hqR, hqr⟩)

/-- A code that is held is delivered or lost. -/
theorem Handing.leave (h : Handing holds R D L) (hc : holds f n c)
    (hout : ∀ {g m d}, holds' g m d → holds g m d ∧ m ≠ n)
    (hin : ∀ {g m d}, holds g m d → holds' g m d ∨ g = f ∧ m = n ∧ d = c)
    (hl : D' = D ++ [(n, c)] ∧ L' = L ∨ D' = D ∧ L' = L ++ [⟨n, c, f⟩]) : Handing holds' R D' L' := by
  obtain ⟨hn, r, hr, hrn, hrc, hrf⟩ := h.given f n c hc
  -- what may be new in the two lists
  have hD : ∀ d ∈ D', d ∈ D ∨ d = (n, c) := by
    intro d hd
    rcases hl with ⟨rfl, -⟩ | ⟨rfl, -⟩
    · exact (List.mem_append.1 hd).imp_right List.mem_singleton.1
    · exact .inl hd
  have hL : ∀ q ∈ L', q ∈ L ∨ q = ⟨n, c, f⟩ ∧ D' = D := by
    intro q hq
    rcases hl with ⟨-, rfl⟩ | ⟨hD, rfl⟩
    · exact .inl hq
    · exact (List.mem_append.1 hq).imp_right fun hq => ⟨List.mem_singleton.1 hq, hD⟩
  have hmem : ∀ {m}, m ∈ D'.map Prod.fst → m ∈ D.map Prod.fst ∨ m = n := by
    intro m hm
    obtain ⟨d, hd, rfl⟩ := List.mem_map.1 hm
    rcases hD d hd with hd | rfl
    · exact .inl (List.mem_map_of_mem hd)
    · exact .inr rfl
  refine ⟨h.nodup, fun d hd => ?_, ?_, fun g m d hd => ?_, fun q hq => ?_, fun q hq => ?_⟩
  · rcases hD d hd with hd | rfl
    · exact h.delivered d hd
    · exact ⟨r, hr, hrn, hrc⟩
  · rcases hl with ⟨rfl, -⟩ | ⟨rfl, -⟩
    · rw [List.map_append, List.map_singleton]
      exact List.nodup_append'.2 ⟨h.once, List.nodup_singleton _, List.disjoint_singleton.2 hn⟩
    · exact h.once
  · obtain ⟨hd, hmn⟩ := hout hd
    obtain ⟨hm, hrest⟩ := h.given g m d hd
    exact ⟨fun hm' => (hmem hm').elim hm hmn, hrest⟩
  · rcases h.pending q hq with hd | he | hq
    · refine .inl ?_
      rcases hl with ⟨rfl, -⟩ | ⟨rfl, -⟩
      · exact List.mem_append_left _ hd
      · exact hd
    · refine .inr (.inl ?_)
      rcases hl with ⟨-, rfl⟩ | ⟨-, rfl⟩
      · exact he
      · exact List.mem_append_left _ he
    · rcases hin hq with hq | ⟨hqf, hqn, hqc⟩
      · exact .inr (.inr hq)
      · rcases hl with ⟨rfl, -⟩ | ⟨-, rfl⟩
        · rw [hqn, hqc]
          exact .inl (List.mem_append_right _ (List.mem_singleton_self _))
        · rw [← hqn, ← hqc, ← hqf]
          exact .inr (.inl (List.mem_append_right _ (List.mem_singleton_self _)))
  · rcases hL q hq with hq | ⟨rfl, rfl⟩
    · obtain ⟨hqR, hqD, hqh⟩ := h.ended q hq
      refine ⟨hqR, fun hm => ?_, fun g d hd => hqh g d (hout hd).1⟩
      rcases hmem hm with hm | hm
      · exact hqD hm
      · exact hqh f c (hm ▸ hc)
    · refine ⟨?_, hn, fun g d hd => (hout hd).2 rfl⟩
      rw [← hrn, ← hrc, ← hrf]
      exact hr

end Handing

/-! ## The parts of `Codes` -/

section Parts

variable {s : State}

theorem Codes.recorded (h : Codes s) : Recorded s.task s.exits s.born s.reaped :=
  ⟨h.zombie, h.alive, h.exits_lt, h.exits, h.reaped⟩

theorem Codes.handing (h : Codes s) : Handing (Holds s.task) s.reaped s.delivered s.ended where
  nodup := h.nodup
  delivered := h.delivered
  once := h.once
  given := by
    rintro _ n c ⟨i, t, ht, rfl, hc⟩
    exact h.given i t n c ht hc
  pending := h.pending
  ended r hr := ⟨(h.ended r hr).1, (h.ended r hr).2.1, fun _ c ⟨i, t, ht, _, hc⟩ =>
    (h.ended r hr).2.2 i t c ht hc⟩

theorem Codes.of (hr : Recorded s.task s.exits s.born s.reaped)
    (hh : Handing (Holds s.task) s.reaped s.delivered s.ended) : Codes s where
  zombie := hr.zombie
  alive := hr.alive
  exits_lt := hr.lt
  exits := hr.source
  reaped := hr.released
  nodup := hh.nodup
  delivered := hh.delivered
  once := hh.once
  given i t n c ht hc := hh.given t.serial n c ⟨i, t, ht, rfl, hc⟩
  pending := hh.pending
  ended r hr := ⟨(hh.ended r hr).1, (hh.ended r hr).2.1, fun i t c ht hc =>
    (hh.ended r hr).2.2 t.serial c ⟨i, t, ht, rfl, hc⟩⟩

end Parts

end Linux011.Family
