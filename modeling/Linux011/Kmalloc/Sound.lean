import Linux011.Kmalloc.Objects

/-!
# The objects in use are safe

1. `Inv.write`: what the owners of objects write does not touch the free lists.
2. `kmalloc_sound`.
-/

namespace Linux011.Kmalloc

variable {s s' : State} {chain : Bucket → List ℕ} {free : List ℕ} {objs : ℕ → List ℕ} {k l : Bucket}
  {a b d p len obj : ℕ}

theorem pageOf_within (hp : p % 4096 = 0) (ha : a ∈ slots k p) (hab : a ≤ b) (hb : b < a + k.size) :
    pageOf b = p := by
  obtain ⟨i, rfl, hi⟩ := mem_slots.1 ha
  unfold pageOf
  omega

theorem Inv.write (h : Inv s chain free objs) (hw : s.Within obj a) (v : Option ℕ) :
    Inv { s with mem := Function.update s.mem a v } chain free objs := by
  obtain ⟨len, hlive, k, hk, hle, hlt⟩ := hw
  obtain ⟨l, d, hd, -, hslot, hl⟩ := h.desc hlive
  have hlk : l = k := Option.some.inj (hl.symm.trans hk)
  subst hlk
  have hnot : ∀ {m e}, e ∈ chain m → a ∉ objs e := by
    intro m e he ha
    obtain ⟨hae, hnone⟩ := (h.rep.mem_objs m e he a).1 ha
    have hpage := pageOf_slot (h.rep.page m e he).1 hae
    rw [pageOf_within (h.rep.page l d hd).1 hslot hle hlt] at hpage
    have hde := h.rep.inj l m d e hd he hpage
    subst hde
    have hlm := h.rep.once l m d hd he
    subst hlm
    have hne : a ≠ obj := by
      rintro rfl
      rw [hlive] at hnone
      cases hnone
    rcases slots_apart hae hslot hne with h1 | h1
    · have := size_pos l
      omega
    · omega
  have hr := h.rep
  exact ⟨⟨hr.chains, hr.frees, hr.once, hr.apart, hr.descs, hr.descPages, hr.page, hr.inj, hr.size,
    fun m e he => (hr.lists m e he).update (hnot he) v, hr.mem_objs, hr.refcnt, hr.live⟩, h.busy,
    h.held⟩

theorem Inv.initial : Inv initial (fun _ => []) [] fun _ => [] where
  rep :=
    { chains := fun _ => rfl
      frees := rfl
      once := fun _ _ _ h => nomatch h
      apart := fun _ _ h => nomatch h
      descs := fun _ => iff_of_false
        (fun h => h.elim (fun h => nomatch h) fun ⟨_, h⟩ => nomatch h) fun ⟨_, h, _⟩ => nomatch h
      descPages := fun _ h => nomatch h
      page := fun _ _ h => nomatch h
      inj := fun _ _ _ _ h => nomatch h
      size := fun _ _ h => nomatch h
      lists := fun _ _ h => nomatch h
      mem_objs := fun _ _ h => nomatch h
      refcnt := fun _ _ h => nomatch h
      live := fun _ _ h => nomatch h }
  busy := fun _ _ h => nomatch h
  held := fun _ h => nomatch h

theorem Inv.next {e : Event} (h : Inv s chain free objs) (hs : s.next' e = some s') :
    ∃ chain' free' objs', Inv s' chain' free' objs' := by
  cases e with
  | malloc len descPage page =>
    obtain ⟨⟨t, a⟩, ht, rfl⟩ := Option.map_eq_some_iff.1 hs
    obtain ⟨⟨chain', free', objs', h', -⟩, -⟩ := h.malloc ht
    exact ⟨_, _, _, h'⟩
  | freeS obj size =>
    unfold State.next' at hs
    dsimp only at hs
    split at hs
    · next ho =>
      obtain ⟨t, chain', free', objs', ht, h', -⟩ := h.freeS ho
      rw [hs] at ht
      cases ht
      exact ⟨_, _, _, h'⟩
    · cases hs
  | write obj a v =>
    unfold State.next' at hs
    dsimp only at hs
    split at hs
    · next hw =>
      cases hs
      exact ⟨_, _, _, h.write hw v⟩
    · cases hs

theorem reachable_inv (h : kmalloc.Reachable s) : ∃ chain free objs, Inv s chain free objs := by
  refine h.invariant (I := fun s => ∃ chain free objs, Inv s chain free objs) ?_ ?_
  · rintro s rfl
    exact ⟨_, _, _, .initial⟩
  · rintro s e s' ⟨chain, free, objs, h⟩ hs
    exact h.next hs

/-- The objects in use lie in their pages, apart from each other. -/
structure Placed (s : State) : Prop where
  fits : ∀ a len, s.live a = some len → ∃ k, State.bucket len = some k ∧ len ≤ k.size ∧
    (∀ l, len ≤ Bucket.size l → k ≤ l) ∧ a % k.size = 0 ∧ a + k.size ≤ pageOf a + 4096
  disjoint : ∀ a b m n k l, s.live a = some m → s.live b = some n → State.bucket m = some k →
    State.bucket n = some l → a ≠ b → a + k.size ≤ b ∨ b + l.size ≤ a

theorem Inv.placed (h : Inv s chain free objs) : Placed s where
  fits a len ha := by
    obtain ⟨k, d, hd, hp, hslot, hk⟩ := h.desc ha
    obtain ⟨hle, hmin⟩ := bucket_spec hk
    refine ⟨k, hk, hle, hmin, ?_, ?_⟩
    · obtain ⟨i, hi, -⟩ := mem_slots.1 hslot
      have hdvd : k.size ∣ s.page d :=
        Nat.dvd_trans ⟨_, (size_mul k).symm⟩ (Nat.dvd_of_mod_eq_zero (h.rep.page k d hd).1)
      rw [hi, Nat.add_mul_mod_self_left]
      exact Nat.mod_eq_zero_of_dvd hdvd
    · obtain ⟨i, hi, hlt⟩ := mem_slots.1 hslot
      omega
  disjoint a b m n k l ha hb hk hl hne := by
    obtain ⟨k', d, hd, hpa, hsa, hk'⟩ := h.desc ha
    obtain ⟨l', e, he, hpb, hsb, hl'⟩ := h.desc hb
    have hkk : k' = k := Option.some.inj (hk'.symm.trans hk)
    have hll : l' = l := Option.some.inj (hl'.symm.trans hl)
    subst hkk hll
    by_cases hpage : s.page d = s.page e
    · have hde := h.rep.inj k' l' d e hd he hpage
      subst hde
      have hkl := h.rep.once k' l' d hd he
      subst hkl
      exact slots_apart hsa hsb hne
    · obtain ⟨i, hi, hilt⟩ := mem_slots.1 hsa
      obtain ⟨j, hj, hjlt⟩ := mem_slots.1 hsb
      have hpd := (h.rep.page k' d hd).1
      have hpe := (h.rep.page l' e he).1
      omega

/-- A page is kept for as long as there are objects in it. -/
theorem Inv.held_iff (h : Inv s chain free objs) (hp : p ∉ s.descPages) :
    s.held p = true ↔ ∃ a, (s.live a).isSome ∧ pageOf a = p := by
  constructor
  · intro hheld
    obtain ⟨k, d, hd, rfl⟩ := (h.held p hheld).resolve_left hp
    have hpos : 0 < (s.refcnt d).toNat := by
      rw [Nat.pos_iff_ne_zero]
      intro h0
      exact h.busy k d hd (BitVec.eq_of_toNat_eq h0)
    rw [h.rep.refcnt k d hd] at hpos
    obtain ⟨a, ha⟩ := Finset.card_pos.1 hpos
    obtain ⟨hslot, hlive⟩ := Finset.mem_filter.1 ha
    exact ⟨a, hlive, pageOf_slot (h.rep.page k d hd).1 hslot⟩
  · rintro ⟨a, ha, rfl⟩
    obtain ⟨len, hlen⟩ := Option.isSome_iff_exists.1 ha
    obtain ⟨k, d, hd, hpa, -⟩ := h.desc hlen
    rw [hpa]
    exact (h.rep.page k d hd).2.2.1

/-- The chains, the free lists and the free descriptors are what they should be; the objects in use
lie apart; no page is given back too early or too late, and neither `malloc` nor `free_s` panics. -/
theorem kmalloc_sound (h : kmalloc.Reachable s) :
    (∃ chain free objs, Inv s chain free objs ∧ (∀ k, (chain k).Nodup) ∧ free.Nodup ∧
      ∀ k d, d ∈ chain k → (objs d).Nodup) ∧
    Placed s ∧
    (∀ p, p ∉ s.descPages → (s.held p = true ↔ ∃ a, (s.live a).isSome ∧ pageOf a = p)) ∧
    (∀ len descPage page, len ≤ 4096 → s.Fresh descPage → s.Fresh page → page ≠ descPage →
      ∃ s' a, s.malloc len descPage page = some (s', a) ∧ s.live a = none ∧
        s'.live = Function.update s.live a (some len)) ∧
    ∀ obj size, s.Owns obj size →
      ∃ s', s.freeS obj size = some s' ∧ s'.live = Function.update s.live obj none := by
  obtain ⟨chain, free, objs, h⟩ := reachable_inv h
  refine ⟨⟨chain, free, objs, h, fun k => (h.rep.chains k).nodup, h.rep.frees.nodup,
    fun k d hd => (h.rep.lists k d hd).nodup⟩, h.placed, fun p => h.held_iff, ?_, ?_⟩
  · intro len descPage page hlen hdesc hpage hne
    obtain ⟨s', a, hs'⟩ := h.malloc_some hlen hdesc hpage hne
    obtain ⟨-, hnone, hlive⟩ := h.malloc hs'
    exact ⟨s', a, hs', hnone, hlive⟩
  · intro obj size ho
    obtain ⟨s', -, -, -, hs', -, hlive⟩ := h.freeS ho
    exact ⟨s', hs', hlive⟩

/-- What a list of calls leads to. -/
theorem reachable_exec {P : State → Prop} [DecidablePred P] (es : List Event)
    (h : (System.execWhen State.next' (fun _ _ => True) initial es).any (P ·) = true) :
    ∃ s, kmalloc.Reachable s ∧ P s := by
  obtain ⟨s, hs, hP⟩ := (Option.any_eq_true _ _).1 h
  exact ⟨s, .exec (fun _ _ _ h => h) (.init rfl) hs, of_decide_eq_true hP⟩

/-- Two objects in one page, one of which is written to and freed. -/
theorem kmalloc_sound_two : ∃ s s' : State, s.live 0x101000 = some 20 ∧ s.live 0x101020 = some 30 ∧
    s.held 0x101000 = true ∧ s.freeS 0x101020 0 = some s' ∧ s'.live 0x101000 = some 20 := by
  obtain ⟨s, hs, h1, h2⟩ := reachable_exec
    (P := fun s => s.live 0x101000 = some 20 ∧ s.live 0x101020 = some 30)
    [.malloc 20 0x100000 0x101000, .write 0x101000 0x101004 (some 7), .malloc 30 0x102000 0x103000]
    (by decide +kernel)
  obtain ⟨⟨chain, free, objs, h, -⟩, -, -, -, hfree⟩ := kmalloc_sound hs
  obtain ⟨s', hs', hlive⟩ := hfree 0x101020 0 ⟨30, h2, .inl rfl⟩
  refine ⟨s, s', h1, h2, ?_, hs', ?_⟩
  · obtain ⟨k, d, hd, hp, -⟩ := h.desc h1
    have hheld := (h.rep.page k d hd).2.2.1
    rwa [← hp] at hheld
  · rw [hlive, Function.update_of_ne (by decide), h1]

end Linux011.Kmalloc
