import Linux011.Kmalloc.Sound

/-!
# Interrupts in the search of free_s

1. `interrupted`: a `free_s` whose search is interrupted by calls on other objects.
2. `Ahead.transfer`: such a call leaves the descriptor ahead of the search, if it does not take away
   the one that the search stands on.
3. `interrupted_free`; `search_lost`.
-/

namespace Linux011.Kmalloc

/-- The object that a call is on. -/
def Event.obj : Event → Option ℕ
  | .malloc _ _ _ => none
  | .freeS obj _ => some obj
  | .write obj _ _ => some obj

inductive Interrupt
  /-- The search goes on by a step. -/
  | step
  /-- A complete call at interrupt level. -/
  | call (e : Event)

/-- The descriptor that the search goes on from. -/
def Search.stands : Search → Option ℕ
  | .bucket _ | .found _ _ _ | .panic => none
  | .bdesc _ _ b => b
  | .next _ b => some b

def interrupt (obj size : ℕ) (x : State × Search) : Interrupt → Option (State × Search)
  | .step => some (x.1, x.1.searchStep (pageOf obj) size x.2)
  | .call e => if e.obj = some obj then none else (x.1.next' e).map fun s => (s, x.2)

/-- `free_s` of an object in use, at any point of its search. -/
def interrupted (obj size : ℕ) : System (State × Search) Interrupt where
  init x := kmalloc.Reachable x.1 ∧ x.1.Owns obj size ∧ x.2 = .bucket 0
  step x i x' := interrupt obj size x i = some x'

/-- The call does not free the last object of the page whose descriptor the search stands on. -/
def Steady (x : State × Search) : Interrupt → Prop
  | .call (.freeS o _) => ∀ d ∈ x.2.stands, pageOf o = x.1.page d → x.1.refcnt d ≠ 1
  | _ => True

variable {s s' : State} {chain chain' : Bucket → List ℕ} {free free' : List ℕ}
  {objs objs' : ℕ → List ℕ} {k l : Bucket} {a b d e p n len obj o size : ℕ} {c : Search}
  {x x' : State × Search} {i : Interrupt} {xs ys : List ℕ}

section Transfer

/-- The lists change, but what comes after the descriptor that the search stands on stays. -/
theorem Ahead.transfer (h' : Rep s' chain' free' objs')
    (hdesc : ∀ p, (p ∈ free ∨ ∃ l, p ∈ chain l) → p ∈ free' ∨ ∃ l, p ∈ chain' l)
    (hkeep : ∀ l xs b ys, c.stands = some b → chain l = xs ++ b :: ys →
      ∃ xs' ys', chain' l = xs' ++ b :: ys' ∧ (d ∈ ys → d ∈ ys'))
    (hc : Ahead s chain free k d n c) : ∃ n', Ahead s' chain' free' k d n' c := by
  cases c with
  | bucket j => exact ⟨_, hc.1, Nat.le_refl _⟩
  | bdesc l prev b =>
    obtain ⟨hprev, xs, ys, hl, hpath, hlk, -⟩ := hc
    have hprev' : Desc chain' free' prev := fun p hp => hdesc p (hprev p hp)
    cases b with
    | none =>
      have hys := hpath.eq_nil
      subst hys
      exact ⟨_, hprev', chain' l, [], (List.append_nil _).symm, rfl,
        .inl (hlk.resolve_right fun h => nomatch h.2), Nat.le_refl _⟩
    | some b =>
      cases ys with
      | nil => cases hpath
      | cons y ys =>
        cases hpath.1
        obtain ⟨xs', ys', hl', hmem⟩ := hkeep l xs b ys rfl hl
        have hpath' := h'.chains l
        rw [hl'] at hpath'
        obtain ⟨r, -, rfl, hpath'⟩ := path_append.1 hpath'
        refine ⟨_, hprev', xs', b :: ys', hl', ⟨rfl, hpath'⟩, hlk.imp_right fun h => ⟨h.1, ?_⟩,
          Nat.le_refl _⟩
        rcases List.mem_cons.1 h.2 with rfl | h
        · exact List.mem_cons_self
        · exact List.mem_cons_of_mem _ (hmem h)
  | next l b =>
    obtain ⟨xs, ys, hl, hlk, -⟩ := hc
    obtain ⟨xs', ys', hl', hmem⟩ := hkeep l xs b ys rfl hl
    exact ⟨_, xs', ys', hl', hlk.imp_right fun h => ⟨h.1, hmem h.2⟩, Nat.le_refl _⟩
  | found l prev b => exact ⟨0, fun p hp => hdesc p (hc.1 p hp), hc.2⟩
  | panic => exact hc.elim

/-- Descriptors stay descriptors. -/
theorem Rep.desc_mono (h : Rep s chain free objs) (h' : Rep s' chain' free' objs')
    (hpages : ∀ p ∈ s.descPages, p ∈ s'.descPages) (p : ℕ)
    (hp : p ∈ free ∨ ∃ l, p ∈ chain l) : p ∈ free' ∨ ∃ l, p ∈ chain' l := by
  obtain ⟨q, hq, hpq⟩ := (h.descs p).1 hp
  exact (h'.descs p).2 ⟨q, hpages q hq, hpq⟩

theorem Ahead.malloc (h : Rep s chain free objs) (h' : Rep s' chain' free' objs')
    (hg : Grows s s' chain chain') (hc : Ahead s chain free k d n c) :
    ∃ n', Ahead s' chain' free' k d n' c := by
  refine hc.transfer h' (h.desc_mono h' hg.descPages) fun l xs b ys _ hl => ?_
  obtain ⟨pre, hpre⟩ := hg.suffix l
  exact ⟨pre ++ xs, ys, by rw [hpre, hl, List.append_assoc], id⟩

/-- A descriptor is taken out of a chain, but not the one in question. -/
theorem erase_split (xs ys : List ℕ) (hb : b ≠ e) :
    ∃ xs' ys', (xs ++ b :: ys).erase e = xs' ++ b :: ys' ∧ (d ≠ e → d ∈ ys → d ∈ ys') := by
  by_cases he : e ∈ xs
  · exact ⟨xs.erase e, ys, List.erase_append_left _ he, fun _ h => h⟩
  · refine ⟨xs, ys.erase e, ?_, fun hd h => (List.mem_erase_of_ne hd).2 h⟩
    rw [List.erase_append_right _ he, List.erase_cons_tail (by simpa using hb)]

theorem Ahead.freeS (h : Rep s chain free objs) (h' : Rep s' chain' free' objs')
    (hpages : s'.descPages = s.descPages) (hf : Freed s chain chain' free free' l e)
    (hd : s.refcnt e = 1 → d ≠ e) (hstands : s.refcnt e = 1 → c.stands ≠ some e)
    (hc : Ahead s chain free k d n c) : ∃ n', Ahead s' chain' free' k d n' c := by
  refine hc.transfer h' (h.desc_mono h' fun p hp => hpages ▸ hp) fun m xs b ys hb hm => ?_
  rcases hf with ⟨-, rfl, -⟩ | ⟨hone, -, as, bs, hl, rfl⟩
  · exact ⟨xs, ys, hm, id⟩
  · by_cases hml : m = l
    · subst hml
      have hnd := (h.chains m).nodup
      have hbe : b ≠ e := by
        rintro rfl
        exact hstands hone hb
      have has : e ∉ as := by
        rw [hl] at hnd
        exact fun hmem => (List.nodup_append'.1 hnd).2.2 hmem List.mem_cons_self
      obtain ⟨xs', ys', herase, hmem⟩ := erase_split (d := d) xs ys hbe
      refine ⟨xs', ys', ?_, hmem (hd hone)⟩
      rw [Function.update_self, ← herase, ← hm, hl, List.erase_append_right _ has,
        List.erase_cons_head]
    · rw [Function.update_of_ne hml]
      exact ⟨xs, ys, hm, id⟩

/-- Where two objects of a page are in use, it is not the last one that is freed. -/
theorem Rep.refcnt_ne_one (h : Rep s chain free objs) (hd : d ∈ chain k) {m : ℕ} (hne : o ≠ obj)
    (ho : s.live o = some m) (hpo : pageOf o = s.page d) (hobj : s.live obj = some len)
    (hp : pageOf obj = s.page d) : s.refcnt d ≠ 1 := by
  intro hone
  have hcard := h.refcnt k d hd
  rw [hone] at hcard
  have h1 : o ∈ (slots k (s.page d)).filter fun a => (s.live a).isSome :=
    Finset.mem_filter.2 ⟨(h.live_desc hd ho hpo).1, by rw [ho]; rfl⟩
  have h2 : obj ∈ (slots k (s.page d)).filter fun a => (s.live a).isSome :=
    Finset.mem_filter.2 ⟨(h.live_desc hd hobj hp).1, by rw [hobj]; rfl⟩
  exact hne (Finset.card_le_one.1 (hcard ▸ Nat.le_refl 1) o h1 obj h2)

end Transfer

/-- The object is in use, and its descriptor ahead of the search. -/
structure Watched (obj size : ℕ) (x : State × Search) (chain : Bucket → List ℕ) (free : List ℕ)
    (objs : ℕ → List ℕ) (k : Bucket) (d : ℕ) : Prop where
  inv : Inv x.1 chain free objs
  owns : ∃ len, x.1.live obj = some len ∧ (size = 0 ∨ size = len)
  desc : d ∈ chain k
  page : pageOf obj = x.1.page d
  ahead : ∃ n, Ahead x.1 chain free k d n x.2

section Runs

theorem Watched.size_le {x : State × Search} (h : Watched obj size x chain free objs k d) :
    size ≤ k.size := by
  obtain ⟨len, hlive, hsize⟩ := h.owns
  rcases hsize with rfl | rfl
  · exact Nat.zero_le _
  · exact (bucket_spec (h.inv.rep.live_desc h.desc hlive h.page).2).1

theorem Watched.next (h : Watched obj size x chain free objs k d) (hok : Steady x i)
    (hs : interrupt obj size x i = some x') :
    ∃ chain' free' objs', Watched obj size x' chain' free' objs' k d := by
  obtain ⟨hinv, ⟨len, hlive, hsize⟩, hd, hp, n, hahead⟩ := h
  cases i with
  | step =>
    cases hs
    refine ⟨chain, free, objs, hinv, ⟨len, hlive, hsize⟩, hd, hp, 9 * (2 * x.1.bound + 2), ?_⟩
    rw [hp]
    exact (hahead.enough hinv.rep).step hinv.rep hd
      (Watched.size_le ⟨hinv, ⟨len, hlive, hsize⟩, hd, hp, n, hahead⟩)
  | call ev =>
    unfold interrupt at hs
    dsimp only at hs
    split at hs
    · cases hs
    · next hobj =>
      obtain ⟨s', hs', rfl⟩ := Option.map_eq_some_iff.1 hs
      cases ev with
      | malloc m descPage page =>
        obtain ⟨⟨t, a⟩, ht, rfl⟩ := Option.map_eq_some_iff.1 hs'
        obtain ⟨⟨chain', free', objs', h', hg⟩, hnone, hlive'⟩ := hinv.malloc ht
        have hne : obj ≠ a := by
          rintro rfl
          rw [hlive] at hnone
          cases hnone
        obtain ⟨pre, hpre⟩ := hg.suffix k
        refine ⟨chain', free', objs', h', ⟨len, ?_, hsize⟩, ?_, ?_,
          hahead.malloc hinv.rep h'.rep hg⟩
        · rw [hlive', Function.update_of_ne hne]
          exact hlive
        · rw [hpre]
          exact List.mem_append_right _ hd
        · rw [hg.page k d hd]
          exact hp
      | freeS o sz =>
        have hne : o ≠ obj := fun he => hobj (congrArg some he)
        unfold State.next' at hs'
        dsimp only at hs'
        split at hs'
        · next hown =>
          obtain ⟨m, hlo, hsz⟩ := hown
          obtain ⟨l, e, he, hpo, -⟩ := hinv.desc hlo
          obtain ⟨t, chain', free', objs', h', hlive', hpage, hpages, hf, hres⟩ :=
            hinv.resume he hlo hpo hsz
          have ht : x.1.freeS o sz = some t := hres _ _ ahead_start
          rw [hs'] at ht
          cases ht
          -- the descriptor of the object is not the one that is freed
          have hde : x.1.refcnt e = 1 → d ≠ e := by
            rintro hone rfl
            exact hinv.rep.refcnt_ne_one hd hne hlo hpo hlive hp hone
          have hd' : d ∈ chain' k := by
            rcases hf with ⟨-, rfl, -⟩ | ⟨hone, -, as, bs, hl, rfl⟩
            · exact hd
            · by_cases hkl : k = l
              · subst hkl
                rw [Function.update_self]
                rw [hl] at hd
                exact (List.mem_append.1 hd).elim (List.mem_append_left _)
                  fun hd => List.mem_append_right _ ((List.mem_cons.1 hd).resolve_left (hde hone))
              · rw [Function.update_of_ne hkl]
                exact hd
          refine ⟨chain', free', objs', h', ⟨len, ?_, hsize⟩, hd', ?_,
            hahead.freeS hinv.rep h'.rep hpages hf hde fun hone hst => hok e hst hpo hone⟩
          · rw [hlive', Function.update_of_ne hne.symm]
            exact hlive
          · rw [hpage]
            exact hp
        · cases hs'
      | write o a v =>
        unfold State.next' at hs'
        dsimp only at hs'
        split at hs'
        · next hw =>
          cases hs'
          have h' := hinv.write hw v
          refine ⟨chain, free, objs, h', ⟨len, hlive, hsize⟩, hd, hp, ?_⟩
          exact hahead.transfer h'.rep (fun _ h => h) fun _ xs _ ys _ hl => ⟨xs, ys, hl, id⟩
        · cases hs'

theorem reachable_watched (h : (interrupted obj size).ReachableWhen Steady x) :
    kmalloc.Reachable x.1 ∧ ∃ chain free objs k d, Watched obj size x chain free objs k d := by
  refine h.invariant (I := fun x =>
    kmalloc.Reachable x.1 ∧ ∃ chain free objs k d, Watched obj size x chain free objs k d) ?_ ?_
  · rintro ⟨s, c⟩ ⟨hr, ⟨len, hlive, hsize⟩, rfl⟩
    obtain ⟨chain, free, objs, hinv⟩ := reachable_inv hr
    obtain ⟨k, d, hd, hp, -⟩ := hinv.desc hlive
    exact ⟨hr, chain, free, objs, k, d, hinv, ⟨len, hlive, hsize⟩, hd, hp, _, ahead_start⟩
  · rintro x i x' ⟨hr, chain, free, objs, k, d, h⟩ hok hs
    obtain ⟨chain', free', objs', h'⟩ := h.next hok hs
    refine ⟨?_, chain', free', objs', k, d, h'⟩
    cases i with
    | step =>
      cases hs
      exact hr
    | call e =>
      have hs' : (if e.obj = some obj then none
        else (x.1.next' e).map fun s => (s, x.2)) = some x' := hs
      split at hs'
      · cases hs'
      · obtain ⟨s', hnext, rfl⟩ := Option.map_eq_some_iff.1 hs'
        exact hr.next hnext

/-- While no call takes away the descriptor that the search stands on, the search comes to the
descriptor of the object, and `free_s` ends as if it had been called after the calls that
interrupted it. -/
theorem interrupted_free (h : (interrupted obj size).ReachableWhen Steady x) :
    kmalloc.Reachable x.1 ∧ x.2 ≠ .panic ∧
    (∃ chain free objs, Inv x.1 chain free objs ∧ ∀ k prev d, x.2 = .found k prev d →
      d ∈ chain k ∧ x.1.page d = pageOf obj) ∧
    ∃ s', x.1.resume obj size x.2 = some s' ∧ kmalloc.step x.1 (.freeS obj size) s' := by
  obtain ⟨hr, chain, free, objs, k, d, hinv, ⟨len, hlive, hsize⟩, hd, hp, n, hahead⟩ :=
    reachable_watched h
  refine ⟨hr, ?_, ⟨chain, free, objs, hinv, ?_⟩, ?_⟩
  · intro hc
    rw [hc] at hahead
    exact hahead
  · intro l prev e hc
    rw [hc] at hahead
    obtain ⟨-, rfl, rfl⟩ := hahead
    exact ⟨hd, hp.symm⟩
  · obtain ⟨s', -, -, -, -, -, -, -, -, hres⟩ := hinv.resume hd hlive hp hsize
    refine ⟨s', hres n x.2 hahead, ?_⟩
    show (if x.1.Owns obj size then x.1.freeS obj size else none) = some s'
    rw [if_pos ⟨len, hlive, hsize⟩]
    exact hres _ _ ahead_start

end Runs

/-! ## Two objects -/

instance (x : State × Search) : ∀ i, Decidable (Steady x i)
  | .call (.freeS o _) =>
    inferInstanceAs (Decidable (∀ d ∈ x.2.stands, pageOf o = x.1.page d → x.1.refcnt d ≠ 1))
  | .step | .call (.malloc _ _ _) | .call (.write _ _ _) => inferInstanceAs (Decidable True)

theorem interrupted_exec (obj size : ℕ) (ok : State × Search → Interrupt → Prop)
    [∀ x i, Decidable (ok x i)] {P : State × Search → Prop} [DecidablePred P] (es : List Event)
    (is : List Interrupt)
    (h : (System.execWhen State.next' (fun _ _ => True) initial es).any
      (fun s => decide (s.Owns obj size ∧
        (System.execWhen (interrupt obj size) ok (s, .bucket 0) is).any (P ·) = true)) = true) :
    ∃ x, (interrupted obj size).ReachableWhen ok x ∧ P x := by
  obtain ⟨s, hr, ho, hx⟩ := reachable_exec es h
  obtain ⟨x, hx, hP⟩ := (Option.any_eq_true _ _).1 hx
  exact ⟨x, .exec (fun _ _ _ h => h) (.init ⟨hr, ho, rfl⟩) hx, of_decide_eq_true hP⟩

/-- The search stands on the descriptor of the second object when a third one is made. -/
theorem interrupted_free_malloc : ∃ x : State × Search, x.2 = .bdesc 8 none (some 0x100010) ∧
    x.1.live 0x105000 = some 4096 ∧ ∃ s', x.1.resume 0x101000 4096 x.2 = some s' := by
  obtain ⟨x, hx, hstands, hlive⟩ := interrupted_exec 0x101000 4096 Steady
    (P := fun x => x.2 = .bdesc 8 none (some 0x100010) ∧ x.1.live 0x105000 = some 4096)
    [.malloc 4096 0x100000 0x101000, .malloc 4096 0x102000 0x103000]
    (.replicate 9 .step ++ [.call (.malloc 4096 0x104000 0x105000)]) (by decide +kernel)
  obtain ⟨-, -, -, s', hs', -⟩ := interrupted_free hx
  exact ⟨x, hstands, hlive, s', hs'⟩

/-- In the last bucket, the search comes to its end if it goes on among descriptors of other pages. -/
theorem searchFor_panic {s : State} {page size n : ℕ} {prev b : Option ℕ} {ys : List ℕ}
    (hpath : Path s.next b ys none) (hpage : ∀ y ∈ ys, s.page y ≠ page)
    (hn : 2 * ys.length + 2 ≤ n) : s.searchFor page size n (.bdesc 8 prev b) = .panic := by
  induction ys generalizing n prev b with
  | nil =>
    cases hpath
    obtain ⟨m, rfl⟩ := Nat.exists_eq_add_of_le' hn
    cases m <;> rfl
  | cons y ys ih =>
    obtain ⟨rfl, hpath⟩ := hpath
    rw [List.length_cons] at hn
    obtain ⟨m, rfl⟩ : ∃ m, n = m + 2 := ⟨n - 2, by omega⟩
    have hstep : s.searchStep page size (.bdesc 8 prev (some y)) = .next 8 y :=
      if_neg (hpage y List.mem_cons_self)
    have htwo : s.searchFor page size (m + 2) (.bdesc 8 prev (some y)) =
        s.searchFor page size m (.bdesc 8 (some y) (s.next y)) := by
      change s.searchFor page size (m + 1) (s.searchStep page size (.bdesc 8 prev (some y))) = _
      rw [hstep]
      rfl
    rw [htwo]
    exact ih hpath (fun z hz => hpage z (List.mem_cons_of_mem _ hz)) (by omega)

theorem reachable_kmalloc {obj size : ℕ} {x : State × Search}
    (h : (interrupted obj size).Reachable x) : kmalloc.Reachable x.1 := by
  refine System.Reachable.invariant (I := fun x => kmalloc.Reachable x.1) ?_ ?_ h
  · rintro x ⟨hr, -⟩
    exact hr
  · intro x i x' hr hs
    cases i with
    | step =>
      cases hs
      exact hr
    | call e =>
      have hs' : (if e.obj = some obj then none
        else (x.1.next' e).map fun s => (s, x.2)) = some x' := hs
      split at hs'
      · cases hs'
      · obtain ⟨s', hnext, rfl⟩ := Option.map_eq_some_iff.1 hs'
        exact hr.next hnext

/-- The search stands on the descriptor of the second object when that object is freed. It goes on
among the free descriptors and comes to its end there. -/
theorem search_lost : ∃ x : State × Search, (interrupted 0x101000 4096).Reachable x ∧
    x.1.search (pageOf 0x101000) 4096 x.2 = .panic := by
  obtain ⟨x, hx, hstands, hpages, hother⟩ := interrupted_exec 0x101000 4096 (fun _ _ => True)
    (P := fun x => x.2 = .bdesc 8 none x.1.freeBucketDesc ∧ x.1.descPages = [0x100000] ∧
      ∀ y ∈ stride 16 255 0x100000, x.1.page y = 0x101000 → x.1.chain 8 = some y)
    [.malloc 4096 0x100000 0x101000, .malloc 4096 0x102000 0x103000]
    (.replicate 9 .step ++ [.call (.freeS 0x103000 4096)]) (by decide +kernel)
  obtain ⟨chain, free, objs, hinv⟩ := reachable_inv (reachable_kmalloc hx)
  have hsub : free ⊆ stride 16 255 0x100000 := by
    intro d hd
    obtain ⟨p, hp, hdp⟩ := (hinv.rep.descs d).1 (.inl hd)
    rw [hpages, List.mem_singleton] at hp
    exact hp ▸ hdp
  refine ⟨x, hx, ?_⟩
  rw [hstands]
  refine searchFor_panic hinv.rep.frees (fun y hy hpage => ?_) ?_
  · -- The first descriptor of a chain is not free.
    have hpath := hinv.rep.chains 8
    rw [hother y (hsub hy) hpage] at hpath
    cases hc : chain 8 with
    | nil =>
      rw [hc] at hpath
      cases hpath
    | cons d l =>
      rw [hc] at hpath
      cases hpath.1
      exact hinv.rep.apart 8 y (hc ▸ List.mem_cons_self) hy
  · have hle : free.length ≤ (stride 16 255 0x100000).length :=
      (hinv.rep.frees.nodup.subperm hsub).length_le
    have hlen : (stride 16 255 0x100000).length = 256 := length_stride
    rw [State.bound, hpages, List.length_singleton]
    omega

end Linux011.Kmalloc
