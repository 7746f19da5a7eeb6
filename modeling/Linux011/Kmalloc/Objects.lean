import Linux011.Kmalloc.Buckets

/-!
# The objects

1. `Inv`; `Inv.malloc`.
2. `Ahead`: the descriptor of an object is ahead of the search of `free_s`; `Inv.found`.
3. `Inv.resume`, `Inv.freeS`: `free_s` from any point of its search on.
-/

namespace Linux011.Kmalloc

variable {s s' : State} {chain : Bucket → List ℕ} {free rest : List ℕ} {objs : ℕ → List ℕ}
  {k l : Bucket} {a d e p len size obj : ℕ}

structure Inv (s : State) (chain : Bucket → List ℕ) (free : List ℕ) (objs : ℕ → List ℕ) : Prop where
  rep : Rep s chain free objs
  /-- Only pages with objects in use are kept. -/
  busy : ∀ k d, d ∈ chain k → s.refcnt d ≠ 0
  held : ∀ p, s.held p = true → p ∈ s.descPages ∨ ∃ k, ∃ d ∈ chain k, s.page d = p

/-- What a `malloc` does to the lists. -/
structure Grows (s s' : State) (chain chain' : Bucket → List ℕ) : Prop where
  suffix : ∀ l, ∃ pre, chain' l = pre ++ chain l
  page : ∀ l e, e ∈ chain l → s'.page e = s.page e
  descPages : ∀ p ∈ s.descPages, p ∈ s'.descPages

section Malloc

theorem Grows.refl : Grows s s chain chain :=
  ⟨fun _ => ⟨[], rfl⟩, fun _ _ _ => rfl, fun _ h => h⟩

theorem Grows.congr {t : State} {chain' : Bucket → List ℕ} (h : Grows s s' chain chain')
    (hpage : t.page = s'.page) (hpages : t.descPages = s'.descPages) : Grows s t chain chain' :=
  ⟨h.suffix, fun l e he => by rw [hpage, h.page l e he], fun p hp => hpages ▸ h.descPages p hp⟩

theorem Grows.trans {t : State} {chain' chain'' : Bucket → List ℕ} (h : Grows s s' chain chain')
    (h' : Grows s' t chain' chain'') : Grows s t chain chain'' := by
  refine ⟨fun l => ?_, fun l e he => ?_, fun p hp => h'.descPages p (h.descPages p hp)⟩
  · obtain ⟨pre, hpre⟩ := h.suffix l
    obtain ⟨pre', hpre'⟩ := h'.suffix l
    exact ⟨pre' ++ pre, by rw [hpre', hpre, List.append_assoc]⟩
  · obtain ⟨pre, hpre⟩ := h.suffix l
    rw [h'.page l e (hpre ▸ List.mem_append_right _ he), h.page l e he]

theorem bucket_spec (h : State.bucket len = some k) :
    len ≤ k.size ∧ ∀ l, len ≤ Bucket.size l → k ≤ l := by
  obtain ⟨hle, as, bs, hsplit, hbefore⟩ := List.find?_eq_some_iff_append.1 h
  refine ⟨of_decide_eq_true hle, fun l hl => ?_⟩
  by_contra hlt
  have hsorted : (List.finRange 9).Pairwise (· < ·) := by decide
  rw [hsplit] at hsorted
  have hmem : l ∈ as ++ k :: bs := hsplit ▸ List.mem_finRange l
  have hlas : l ∈ as := by
    rcases List.mem_append.1 hmem with h | h
    · exact h
    · rcases List.mem_cons.1 h with rfl | h
      · exact absurd le_rfl hlt
      · have := List.rel_of_pairwise_cons (List.pairwise_append.1 hsorted).2.1 h
        exact absurd this.le hlt
  have hno := hbefore l hlas
  rw [decide_eq_true hl] at hno
  cases hno

theorem Inv.take (h : Rep s chain free objs) (hbusy : ∀ k e, e ∈ chain k → e ≠ d → s.refcnt e ≠ 0)
    (hheld : ∀ p, s.held p = true → p ∈ s.descPages ∨ ∃ k, ∃ d ∈ chain k, s.page d = p)
    (hd : d ∈ chain k) (hk : State.bucket len = some k) (ht : s.take d len = some (s', a)) :
    (∃ objs', Inv s' chain free objs') ∧ s.live a = none ∧
      s'.live = Function.update s.live a (some len) ∧ s'.page = s.page ∧
      s'.descPages = s.descPages := by
  obtain ⟨b, hb, heq⟩ := Option.map_eq_some_iff.1 ht
  cases heq
  obtain ⟨list, hrep, -, hnone, hadd⟩ := h.take hd hb hk
  refine ⟨⟨_, hrep, ?_, hheld⟩, hnone, rfl, rfl, rfl⟩
  intro l e he
  show Function.update s.refcnt d (s.refcnt d + 1) e ≠ 0
  by_cases hed : e = d
  · rw [hed, Function.update_self]
    intro h0
    rw [h0] at hadd
    exact absurd hadd (Nat.succ_ne_zero _).symm
  · rw [Function.update_of_ne hed]
    exact hbusy l e he hed

/-- The free descriptors, after more were made where there were none. -/
theorem Inv.initBucketDesc (h : Inv s chain free objs) (hs : s.initBucketDesc p = some s') :
    ∃ free', Inv s' chain free' objs ∧ s'.freeBucketDesc.isSome ∧ Grows s s' chain chain ∧
      s'.live = s.live ∧ s'.held = Function.update s.held p true := by
  obtain ⟨t, ht, rfl⟩ := Option.map_eq_some_iff.1 hs
  obtain ⟨⟨-, hp, hnew⟩, ⟨hchain, -, hpages, hlive, hheld⟩, hsame⟩ := getFreePage_eq_some ht
  have hrep := h.rep.getFreePage ht
  have hpnot : p ∉ t.descPages := by
    rw [hpages]
    intro hmem
    rw [(h.rep.descPages p hmem).2] at hnew
    cases hnew
  have hpage : ∀ {k d}, d ∈ chain k → t.page d = s.page d ∧ t.refcnt d = s.refcnt d := by
    intro k d hd
    have hd' := hsame d (h.rep.fresh_desc hnew (.inr ⟨k, hd⟩))
    exact ⟨hd'.1, hd'.2.2.2.1⟩
  refine ⟨_, ⟨hrep.addDescs hp (by rw [hheld, Function.update_self]) hpnot ?_, ?_, ?_⟩, rfl,
    ⟨fun l => ⟨[], rfl⟩, fun l e he => (hpage he).1, fun q hq => ?_⟩, hlive, hheld⟩
  · intro k d hd
    rw [(hpage hd).1]
    exact h.rep.fresh_page hnew hd
  · intro k d hd
    show t.refcnt d ≠ 0
    rw [(hpage hd).2]
    exact h.busy k d hd
  · intro q hq
    have hq' : t.held q = true := hq
    rw [hheld] at hq'
    by_cases hqp : q = p
    · exact .inl (hqp ▸ List.mem_cons_self)
    · rw [Function.update_of_ne hqp] at hq'
      rcases h.held q hq' with hq' | ⟨k, d, hd, hdq⟩
      · refine .inl (List.mem_cons_of_mem _ ?_)
        rw [hpages]
        exact hq'
      · exact .inr ⟨k, d, hd, (hpage hd).1.trans hdq⟩
  · refine List.mem_cons_of_mem _ ?_
    rw [hpages]
    exact hq

/-- A free descriptor gets a page. -/
theorem Inv.addBucket {t : State} (h : Inv s chain (d :: rest) objs)
    (ht : ({ s with
      freeBucketDesc := s.next d
      refcnt := Function.update s.refcnt d 0
      bucketSize := Function.update s.bucketSize d (BitVec.ofNat 16 k.size) } : State).getFreePage
      p = some t)
    (hs' : s' = { t with
      page := Function.update t.page d p
      freeptr := Function.update t.freeptr d (some p)
      mem := linkUp k.size none (4096 / k.size - 1) p t.mem
      next := Function.update t.next d (t.chain k)
      chain := Function.update t.chain k (some d) }) :
    ∃ chain' objs', Rep s' chain' rest objs' ∧ Grows s s' chain chain' ∧ d ∈ chain' k ∧
      (∀ l e, e ∈ chain' l → e ≠ d → s'.refcnt e ≠ 0) ∧
      (∀ q, s'.held q = true → q ∈ s'.descPages ∨ ∃ l, ∃ e ∈ chain' l, s'.page e = q) ∧
      s'.freeptr d = some p ∧ s'.live = s.live := by
  obtain ⟨⟨hp0, hp, hnew⟩, ⟨hchain, hfree, hpages, hlive, hheld⟩, hsame⟩ := getFreePage_eq_some ht
  have hd : pageOf d ≠ p := h.rep.fresh_desc hnew (.inl List.mem_cons_self)
  obtain ⟨-, -, -, href, hsize, -⟩ := hsame d hd
  have hsame' : ∀ e, e ≠ d → pageOf e ≠ p → s'.page e = s.page e ∧ s'.next e = s.next e ∧
      s'.freeptr e = s.freeptr e ∧ s'.refcnt e = s.refcnt e ∧ s'.bucketSize e = s.bucketSize e := by
    intro e hed hep
    obtain ⟨h1, h2, h3, h4, h5, -⟩ := hsame e hep
    rw [hs']
    refine ⟨(Function.update_of_ne hed _ _).trans h1, (Function.update_of_ne hed _ _).trans h2,
      (Function.update_of_ne hed _ _).trans h3, h4.trans (Function.update_of_ne hed _ _),
      h5.trans (Function.update_of_ne hed _ _)⟩
  have hcur : t.chain k = s.chain k := by rw [hchain]
  have hbig : ∀ k : Bucket, k.size < 2 ^ 16 := by decide
  have hrep : Rep s' (Function.update chain k (d :: chain k)) rest
      (Function.update objs d (stride k.size (4096 / k.size - 1) p)) := by
    refine h.rep.addBucket hp hp0 hnew ?_ ?_ ?_ ?_ ?_ ?_ hsame' ?_ ?_
    · rw [hs', hchain]
    · rw [hs']
      exact hfree
    · rw [hs']
      exact hpages
    · rw [hs']
      exact hlive
    · rw [hs']
      exact hheld
    · rw [hs']
      refine ⟨Function.update_self _ _ _, (Function.update_self _ _ _).trans hcur,
        Function.update_self _ _ _, href.trans (Function.update_self _ _ _), ?_⟩
      show (t.bucketSize d).toNat = _
      rw [hsize]
      show (Function.update s.bucketSize d (BitVec.ofNat 16 k.size) d).toNat = _
      rw [Function.update_self, BitVec.toNat_ofNat]
      exact Nat.mod_eq_of_lt (hbig k)
    · intro a ha
      rw [hs']
      have hnot : a ∉ stride k.size (4096 / k.size - 1) p :=
        fun hmem => ha (pageOf_slot hp (List.mem_toFinset.2 hmem))
      exact (linkUp_of_notMem hnot).trans (hsame a ha).2.2.2.2.2
    · rw [hs']
      exact linkUp_path (size_pos k)
  have hmono : ∀ {l e}, e ∈ chain l → e ∈ Function.update chain k (d :: chain k) l := by
    intro l e he
    by_cases hl : l = k
    · subst hl
      rw [Function.update_self]
      exact List.mem_cons_of_mem _ he
    · rw [Function.update_of_ne hl]
      exact he
  have hdk : d ∈ Function.update chain k (d :: chain k) k := by
    rw [Function.update_self]
    exact List.mem_cons_self
  have hne : ∀ {l e}, e ∈ chain l → e ≠ d := by
    rintro l e he rfl
    exact h.rep.apart l e he List.mem_cons_self
  refine ⟨_, _, hrep, ⟨fun l => ?_, fun l e he => ?_, fun q hq => ?_⟩, hdk, ?_, ?_, ?_, ?_⟩
  · by_cases hl : l = k
    · subst hl
      rw [Function.update_self]
      exact ⟨[d], rfl⟩
    · rw [Function.update_of_ne hl]
      exact ⟨[], rfl⟩
  · exact (hsame' e (hne he) (h.rep.fresh_desc hnew (.inr ⟨l, he⟩))).1
  · rw [hs', hpages]
    exact hq
  · intro l e he hed
    have he' : e ∈ chain l := by
      by_cases hl : l = k
      · subst hl
        rw [Function.update_self] at he
        exact (List.mem_cons.1 he).resolve_left hed
      · rwa [Function.update_of_ne hl] at he
    rw [(hsame' e hed (h.rep.fresh_desc hnew (.inr ⟨l, he'⟩))).2.2.2.1]
    exact h.busy l e he'
  · intro q hq
    have hq' : t.held q = true := by rw [hs'] at hq; exact hq
    have hpd : s'.page d = p := by
      rw [hs']
      exact Function.update_self _ _ _
    have hpages' : s'.descPages = s.descPages := by
      rw [hs']
      exact hpages
    rw [hheld] at hq'
    by_cases hqp : q = p
    · exact .inr ⟨k, d, hdk, hpd.trans hqp.symm⟩
    · rw [Function.update_of_ne hqp] at hq'
      rw [hpages']
      rcases h.held q hq' with hq' | ⟨l, e, he, heq⟩
      · exact .inl hq'
      · refine .inr ⟨l, e, hmono he, ?_⟩
        rw [(hsame' e (hne he) (h.rep.fresh_desc hnew (.inr ⟨l, he⟩))).1]
        exact heq
  · rw [hs']
    exact Function.update_self _ _ _
  · rw [hs']
    exact hlive

/-- The state in which `malloc` takes a descriptor from the free ones. -/
theorem Inv.freeDesc (h : Inv s chain free objs)
    (hs : (if s.freeBucketDesc.isNone then s.initBucketDesc p else some s) = some s') :
    ∃ free', Inv s' chain free' objs ∧ s'.freeBucketDesc.isSome ∧ Grows s s' chain chain ∧
      s'.live = s.live ∧ ∀ q, q ≠ p → s'.held q = s.held q := by
  split at hs
  · obtain ⟨free', h', hsome, hgrows, hlive, hheld⟩ := h.initBucketDesc hs
    refine ⟨free', h', hsome, hgrows, hlive, fun q hq => ?_⟩
    rw [hheld, Function.update_of_ne hq]
  · next hnone =>
    cases hs
    exact ⟨free, h, Option.isSome_iff_ne_none.2 fun he => hnone (Option.isNone_iff_eq_none.2 he),
      .refl, rfl, fun _ _ => rfl⟩

theorem Inv.free_cons (h : Inv s chain free objs) (hs : s.freeBucketDesc = some d) :
    ∃ rest, free = d :: rest := by
  have hpath := h.rep.frees
  rw [hs] at hpath
  cases free with
  | nil => cases hpath
  | cons e rest => exact ⟨rest, by rw [Option.some.inj hpath.1]⟩

theorem Inv.malloc {descPage page : ℕ} (h : Inv s chain free objs)
    (hs : s.malloc len descPage page = some (s', a)) :
    (∃ chain' free' objs', Inv s' chain' free' objs' ∧ Grows s s' chain chain') ∧ s.live a = none ∧
      s'.live = Function.update s.live a (some len) := by
  obtain ⟨k, hk, hs⟩ := Option.bind_eq_some_iff.1 hs
  rw [follow_eq (h.rep.chains k) (h.rep.length_lt k), Option.bind_some] at hs
  split at hs
  · next d hfind =>
    have hd := List.mem_of_find?_eq_some hfind
    obtain ⟨⟨objs', h'⟩, hnone, hlive, hpage, hpages⟩ :=
      Inv.take h.rep (fun l e he _ => h.busy l e he) h.held hd hk hs
    exact ⟨⟨_, _, _, h', Grows.refl.congr hpage hpages⟩, hnone, hlive⟩
  · obtain ⟨⟨s₄, d⟩, hnew, ht⟩ := Option.bind_eq_some_iff.1 hs
    obtain ⟨s₁, hs₁, hnew⟩ := Option.bind_eq_some_iff.1 hnew
    obtain ⟨free₁, h₁, -, hgrows₁, hlive₁, -⟩ := h.freeDesc hs₁
    obtain ⟨e, he, hnew⟩ := Option.bind_eq_some_iff.1 hnew
    obtain ⟨rest, rfl⟩ := h₁.free_cons he
    obtain ⟨t, hpage, heq⟩ := Option.map_eq_some_iff.1 hnew
    cases heq
    obtain ⟨chain', objs', hrep, hgrows₄, hd, hbusy, hheld, -, hlive₄⟩ := h₁.addBucket hpage rfl
    obtain ⟨⟨objs'', h'⟩, hnone, hlive, hpage', hpages'⟩ := Inv.take hrep hbusy hheld hd hk ht
    rw [hlive₄, hlive₁] at hnone hlive
    exact ⟨⟨_, _, _, h', (hgrows₁.trans hgrows₄).congr hpage' hpages'⟩, hnone, hlive⟩

/-- A page that `get_free_page` can return. -/
def State.Fresh (s : State) (p : ℕ) : Prop :=
  p ≠ 0 ∧ p % 4096 = 0 ∧ s.held p = false

theorem getFreePage_some (h : s.Fresh p) : ∃ s', s.getFreePage p = some s' := by
  unfold State.getFreePage
  rw [if_neg]
  · exact ⟨_, rfl⟩
  · rw [not_or, not_or, not_not, Bool.not_eq_true]
    exact h

theorem bucket_some (h : len ≤ 4096) : ∃ k, State.bucket len = some k := by
  refine Option.isSome_iff_exists.1
    (List.find?_isSome.2 ⟨8, List.mem_finRange 8, decide_eq_true ?_⟩)
  exact h

/-- `malloc` does not panic where `get_free_page` does not fail. -/
theorem Inv.malloc_some {descPage page : ℕ} (h : Inv s chain free objs) (hlen : len ≤ 4096)
    (hdesc : s.Fresh descPage) (hpage : s.Fresh page) (hne : page ≠ descPage) :
    ∃ s' a, s.malloc len descPage page = some (s', a) := by
  obtain ⟨k, hk⟩ := bucket_some hlen
  unfold State.malloc
  rw [hk, Option.bind_some, follow_eq (h.rep.chains k) (h.rep.length_lt k), Option.bind_some]
  split
  · next d hfind =>
    have hptr := List.find?_some hfind
    obtain ⟨a, ha⟩ := Option.isSome_iff_exists.1 hptr
    unfold State.take
    rw [ha]
    exact ⟨_, _, rfl⟩
  · obtain ⟨s₁, hs₁⟩ : ∃ s₁, (if s.freeBucketDesc.isNone then s.initBucketDesc descPage
        else some s) = some s₁ := by
      split
      · obtain ⟨t, ht⟩ := getFreePage_some hdesc
        unfold State.initBucketDesc
        rw [ht]
        exact ⟨_, rfl⟩
      · exact ⟨s, rfl⟩
    obtain ⟨free₁, h₁, hsome, -, -, hheld⟩ := h.freeDesc hs₁
    obtain ⟨d, hd⟩ := Option.isSome_iff_exists.1 hsome
    obtain ⟨rest, rfl⟩ := h₁.free_cons hd
    obtain ⟨t, ht⟩ := getFreePage_some (s := { s₁ with
      freeBucketDesc := s₁.next d
      refcnt := Function.update s₁.refcnt d 0
      bucketSize := Function.update s₁.bucketSize d (BitVec.ofNat 16 k.size) }) (p := page)
      ⟨hpage.1, hpage.2.1, (hheld page hne).trans hpage.2.2⟩
    obtain ⟨chain', objs', -, -, -, -, -, hptr, -⟩ := h₁.addBucket ht rfl
    unfold State.newBucket
    rw [hs₁, Option.bind_some, hd, Option.bind_some]
    dsimp only
    rw [ht, Option.map_some, Option.bind_some]
    unfold State.take
    dsimp only
    rw [Function.update_self]
    exact ⟨_, _, rfl⟩

end Malloc

/-! ## The search -/

section Free

variable {page : ℕ} {c : Search} {n : ℕ} {xs ys : List ℕ} {prev : Option ℕ}

/-- `prev` may be stale, but it was a descriptor once, and descriptors stay what they are. -/
def Desc (chain : Bucket → List ℕ) (free : List ℕ) (prev : Option ℕ) : Prop :=
  ∀ p, prev = some p → p ∈ free ∨ ∃ l, p ∈ chain l

/-- The search comes to the descriptor `d` of the bucket `k`, in so many steps. -/
def Ahead (s : State) (chain : Bucket → List ℕ) (free : List ℕ) (k : Bucket) (d : ℕ) :
    ℕ → Search → Prop
  | n, .bucket j => j ≤ k.val ∧ (9 - j) * (2 * s.bound + 2) ≤ n
  | n, .bdesc l prev b => Desc chain free prev ∧ ∃ xs ys, chain l = xs ++ ys ∧
    Path s.next b ys none ∧ (l < k ∨ l = k ∧ d ∈ ys) ∧ (8 - l.val) * (2 * s.bound + 2) + 2 * ys.length + 1 ≤ n
  | n, .next l b => ∃ xs ys, chain l = xs ++ b :: ys ∧ (l < k ∨ l = k ∧ d ∈ ys) ∧
    (8 - l.val) * (2 * s.bound + 2) + 2 * ys.length + 2 ≤ n
  | _, .found l prev b => Desc chain free prev ∧ l = k ∧ b = d
  | _, .panic => False

theorem Ahead.step (h : Rep s chain free objs) (hd : d ∈ chain k) (hsize : size ≤ k.size)
    (hc : Ahead s chain free k d (n + 1) c) :
    Ahead s chain free k d n (s.searchStep (s.page d) size c) := by
  have hbound := h.length_lt
  cases c with
  | bucket j =>
    obtain ⟨hj, hn⟩ := hc
    have h9 : j < 9 := by omega
    unfold State.searchStep
    dsimp only
    rw [dif_pos h9]
    have hmul : (9 - j) * (2 * s.bound + 2) = (8 - j) * (2 * s.bound + 2) + (2 * s.bound + 2) := by
      rw [← Nat.succ_mul]
      congr 1
      omega
    split
    · next hlt =>
      have hjk : j ≠ k.val := by
        rintro rfl
        exact absurd hlt (Nat.not_lt.2 hsize)
      refine ⟨by omega, ?_⟩
      rw [show 9 - (j + 1) = 8 - j from by omega]
      omega
    · refine ⟨nofun, [], chain ⟨j, h9⟩, rfl, h.chains _, ?_, ?_⟩
      · rcases Nat.lt_or_eq_of_le hj with hj | rfl
        · exact .inl hj
        · exact .inr ⟨rfl, hd⟩
      · have := hbound ⟨j, h9⟩
        show (8 - j) * _ + _ + _ ≤ n
        omega
  | bdesc l prev b =>
    obtain ⟨hprev, xs, ys, hl, hpath, hlk, hn⟩ := hc
    unfold State.searchStep
    cases b with
    | none =>
      have hys := hpath.eq_nil
      subst hys
      have hlt : l < k := hlk.resolve_right fun h => nomatch h.2
      refine ⟨hlt, ?_⟩
      rw [show 9 - (l.val + 1) = 8 - l.val from by omega]
      rw [List.length_nil] at hn
      omega
    | some b =>
      cases ys with
      | nil => cases hpath
      | cons y ys =>
        obtain ⟨hby, hpath⟩ := hpath
        cases hby
        have hb : b ∈ chain l := hl ▸ List.mem_append_right _ List.mem_cons_self
        dsimp only
        split
        · next hp =>
          have hbd := h.inj l k b d hb hd hp
          subst hbd
          exact ⟨hprev, h.once l k b hb hd, rfl⟩
        · next hp =>
          have hbd : d ≠ b := by
            rintro rfl
            exact hp rfl
          refine ⟨xs, ys, hl, hlk.imp_right fun h => ⟨h.1, ?_⟩, ?_⟩
          · exact (List.mem_cons.1 h.2).resolve_left hbd
          · rw [List.length_cons] at hn
            omega
  | next l b =>
    obtain ⟨xs, ys, hl, hlk, hn⟩ := hc
    have hb : b ∈ chain l := hl ▸ List.mem_append_right _ List.mem_cons_self
    have hpath := h.chains l
    rw [hl] at hpath
    obtain ⟨r, -, -, hpath⟩ := path_append.1 hpath
    refine ⟨?_, xs ++ [b], ys, ?_, hpath, hlk, by omega⟩
    · rintro p ⟨⟩
      exact .inr ⟨l, hb⟩
    · rw [hl, List.append_assoc]
      rfl
  | found l prev b => exact hc
  | panic => exact hc.elim

theorem Ahead.search (h : Rep s chain free objs) (hd : d ∈ chain k) (hsize : size ≤ k.size)
    (hc : Ahead s chain free k d n c) :
    ∃ prev, Desc chain free prev ∧ s.searchFor (s.page d) size n c = .found k prev d := by
  induction n generalizing c with
  | zero =>
    cases c with
    | bucket j =>
      obtain ⟨hj, hn⟩ := hc
      have h9 : 0 < 9 - j := by omega
      have hpos : 0 < (9 - j) * (2 * s.bound + 2) := Nat.mul_pos h9 (Nat.succ_pos _)
      omega
    | bdesc l prev b =>
      obtain ⟨-, xs, ys, -, -, -, hn⟩ := hc
      omega
    | next l b =>
      obtain ⟨xs, ys, -, -, hn⟩ := hc
      omega
    | found l prev b =>
      obtain ⟨hprev, rfl, rfl⟩ := hc
      exact ⟨prev, hprev, rfl⟩
    | panic => exact hc.elim
  | succ n ih =>
    cases c with
    | bucket j => exact ih (hc.step h hd hsize)
    | bdesc l prev b => exact ih (hc.step h hd hsize)
    | next l b => exact ih (hc.step h hd hsize)
    | found l prev b =>
      obtain ⟨hprev, rfl, rfl⟩ := hc
      exact ⟨prev, hprev, rfl⟩
    | panic => exact hc.elim

/-- The number of steps that `search` allows is enough. -/
theorem Ahead.enough (h : Rep s chain free objs) (hc : Ahead s chain free k d n c) :
    Ahead s chain free k d (9 * (2 * s.bound + 2) + 1) c := by
  have hmul : ∀ l : Bucket, (8 - l.val) * (2 * s.bound + 2) ≤ 8 * (2 * s.bound + 2) :=
    fun l => Nat.mul_le_mul_right _ (Nat.sub_le 8 _)
  cases c with
  | bucket j =>
    refine ⟨hc.1, ?_⟩
    have := Nat.mul_le_mul_right (2 * s.bound + 2) (Nat.sub_le 9 j)
    omega
  | bdesc l prev b =>
    obtain ⟨hprev, xs, ys, hl, hpath, hlk, -⟩ := hc
    refine ⟨hprev, xs, ys, hl, hpath, hlk, ?_⟩
    have h1 := h.length_lt l
    have h2 := hmul l
    rw [hl, List.length_append] at h1
    omega
  | next l b =>
    obtain ⟨xs, ys, hl, hlk, -⟩ := hc
    refine ⟨xs, ys, hl, hlk, ?_⟩
    have h1 := h.length_lt l
    have h2 := hmul l
    rw [hl, List.length_append, List.length_cons] at h1
    omega
  | found l prev b => exact hc
  | panic => exact hc.elim

/-- What a `free_s` does to the lists: nothing, or it moves a descriptor to the free ones. -/
def Freed (s : State) (chain chain' : Bucket → List ℕ) (free free' : List ℕ) (k : Bucket)
    (d : ℕ) : Prop :=
  (s.refcnt d ≠ 1 ∧ chain' = chain ∧ free' = free) ∨
    (s.refcnt d = 1 ∧ free' = d :: free ∧
      ∃ xs ys, chain k = xs ++ d :: ys ∧ chain' = Function.update chain k (xs ++ ys))

/-- `free_s` from `found` on does what it should, and `prev` does not matter. -/
theorem Inv.found (h : Inv s chain free objs) (hd : d ∈ chain k) (hlive : s.live obj = some len)
    (hp : pageOf obj = s.page d) :
    ∃ s' chain' free' objs', Inv s' chain' free' objs' ∧ s'.live = Function.update s.live obj none ∧
      s'.page = s.page ∧ s'.descPages = s.descPages ∧ Freed s chain chain' free free' k d ∧
      ∀ prev, Desc chain free prev → s.found obj k prev d = some s' := by
  obtain ⟨hslot, -⟩ := h.rep.live_desc hd hlive hp
  have hrep := h.rep.put hd hslot hlive
  obtain ⟨t, ht⟩ : ∃ t : State, t = { s with
    mem := Function.update s.mem obj (s.freeptr d)
    freeptr := Function.update s.freeptr d (some obj)
    refcnt := Function.update s.refcnt d (s.refcnt d - 1)
    live := Function.update s.live obj none } := ⟨_, rfl⟩
  rw [← ht] at hrep
  have hrefd : t.refcnt d = s.refcnt d - 1 := by
    rw [ht]
    exact Function.update_self _ _ _
  have hrefe : ∀ {e}, e ≠ d → t.refcnt e = s.refcnt e := by
    intro e he
    rw [ht]
    exact Function.update_of_ne he _ _
  have hsame : t.page = s.page ∧ t.held = s.held ∧ t.descPages = s.descPages ∧
      t.live = Function.update s.live obj none := by
    rw [ht]
    exact ⟨rfl, rfl, rfl, rfl⟩
  obtain ⟨hpage, hheld, hpages, hlive'⟩ := hsame
  have hfound : ∀ prev, s.found obj k prev d = if t.refcnt d = 0 then
      (t.unlink k prev d).bind fun s => (s.freePage (s.page d)).map fun s => { s with
        next := Function.update s.next d s.freeBucketDesc
        freeBucketDesc := some d }
      else some t := by
    intro prev
    rw [ht]
    rfl
  have hiff : t.refcnt d = 0 ↔ s.refcnt d = 1 := by
    rw [hrefd]
    constructor
    · intro h0
      bv_omega
    · intro h1
      rw [h1]
      rfl
  by_cases hzero : t.refcnt d = 0
  · -- the last object of the page
    obtain ⟨xs, ys, hk⟩ := List.append_of_mem hd
    obtain ⟨u, hu⟩ : ∃ u, u = t.cutOut k d xs.getLast? := ⟨_, rfl⟩
    obtain ⟨hufree, hupage, -, huref, -, -, huheld, hupages, hulive⟩ :=
      cutOut_same (s := t) (k := k) (d := d) xs.getLast?
    rw [← hu] at hufree hupage huref huheld hupages hulive
    obtain ⟨s', hs'⟩ : ∃ s' : State, s' = { u with
      held := Function.update t.held (t.page d) false
      next := Function.update u.next d t.freeBucketDesc
      freeBucketDesc := some d } := ⟨_, rfl⟩
    have hdrop := hrep.drop hk hzero (hu ▸ hs')
    have hsame' : s'.page = t.page ∧ s'.refcnt = t.refcnt ∧ s'.descPages = t.descPages ∧
        s'.live = t.live ∧ s'.held = Function.update t.held (t.page d) false := by
      rw [hs']
      exact ⟨hupage, huref, hupages, hulive, rfl⟩
    obtain ⟨hpage', href', hpages', hlive'', hheld'⟩ := hsame'
    have hsub : ∀ {l e}, e ∈ Function.update chain k (xs ++ ys) l → e ∈ chain l ∧ e ≠ d := by
      intro l e he
      have hapart := hdrop.apart l e he
      rw [List.mem_cons, not_or] at hapart
      refine ⟨?_, hapart.1⟩
      by_cases hl : l = k
      · subst hl
        rw [Function.update_self] at he
        rw [hk]
        exact (List.mem_append.1 he).elim (List.mem_append_left _)
          fun he => List.mem_append_right _ (List.mem_cons_of_mem _ he)
      · rwa [Function.update_of_ne hl] at he
    refine ⟨s', _, _, _, ⟨hdrop, ?_, ?_⟩, hlive''.trans hlive', hpage'.trans hpage,
      hpages'.trans hpages, .inr ⟨hiff.1 hzero, rfl, xs, ys, hk, rfl⟩, ?_⟩
    · intro l e he
      obtain ⟨he, hed⟩ := hsub he
      rw [href', hrefe hed]
      exact h.busy l e he
    · intro q hq
      rw [hheld'] at hq
      by_cases hqd : q = t.page d
      · rw [hqd, Function.update_self] at hq
        cases hq
      · rw [Function.update_of_ne hqd, hheld] at hq
        rw [hpages', hpages, hpage', hpage]
        rcases h.held q hq with hq | ⟨l, e, he, heq⟩
        · exact .inl hq
        · refine .inr ⟨l, e, ?_, heq⟩
          have hed : e ≠ d := by
            rintro rfl
            exact hqd (by rw [hpage, heq])
          by_cases hl : l = k
          · subst hl
            rw [Function.update_self]
            rw [hk] at he
            exact (List.mem_append.1 he).elim (List.mem_append_left _)
              fun he => List.mem_append_right _ ((List.mem_cons.1 he).resolve_left hed)
          · rwa [Function.update_of_ne hl]
    · intro prev hprev
      have hheldd : u.held (u.page d) = true := by
        rw [huheld, hupage, hheld, hpage]
        exact (h.rep.page k d hd).2.2.1
      rw [hfound, if_pos hzero, hrep.unlink hk hprev, Option.bind_some, ← hu]
      unfold State.freePage
      rw [if_pos hheldd, Option.map_some, hs', huheld, hupage, hufree]
  · refine ⟨t, chain, free, _, ⟨hrep, ?_, ?_⟩, hlive', hpage, hpages,
      .inl ⟨fun h1 => hzero (hiff.2 h1), rfl, rfl⟩, ?_⟩
    · intro l e he
      by_cases hed : e = d
      · rw [hed]
        exact hzero
      · rw [hrefe hed]
        exact h.busy l e he
    · rw [hheld, hpages, hpage]
      exact h.held
    · intro prev _
      rw [hfound, if_neg hzero]

/-- `free_s`, continued from where its descriptor is ahead of it. -/
theorem Inv.resume (h : Inv s chain free objs) (hd : d ∈ chain k) (hlive : s.live obj = some len)
    (hp : pageOf obj = s.page d) (hsize : size = 0 ∨ size = len) :
    ∃ s' chain' free' objs', Inv s' chain' free' objs' ∧ s'.live = Function.update s.live obj none ∧
      s'.page = s.page ∧ s'.descPages = s.descPages ∧ Freed s chain chain' free free' k d ∧
      ∀ n c, Ahead s chain free k d n c → s.resume obj size c = some s' := by
  obtain ⟨-, hk⟩ := h.rep.live_desc hd hlive hp
  have hle : size ≤ k.size := by
    rcases hsize with rfl | rfl
    · exact Nat.zero_le _
    · exact (bucket_spec hk).1
  obtain ⟨s', chain', free', objs', h', hlive', hpage, hpages, hfreed, hfound⟩ :=
    h.found hd hlive hp
  refine ⟨s', chain', free', objs', h', hlive', hpage, hpages, hfreed, fun n c hc => ?_⟩
  obtain ⟨prev, hprev, hsearch⟩ := (hc.enough h.rep).search h.rep hd hle
  unfold State.resume State.search
  rw [hp, hsearch]
  exact hfound prev hprev

/-- At its beginning every descriptor is ahead of the search. -/
theorem ahead_start : Ahead s chain free k d (9 * (2 * s.bound + 2)) (.bucket 0) :=
  ⟨Nat.zero_le _, Nat.le_refl _⟩

/-- The descriptor of an object in use. -/
theorem Inv.desc (h : Inv s chain free objs) (hlive : s.live obj = some len) :
    ∃ k d, d ∈ chain k ∧ pageOf obj = s.page d ∧ obj ∈ slots k (s.page d) ∧
      State.bucket len = some k := by
  obtain ⟨k, hk, d, hd, hslot⟩ := h.rep.live obj len hlive
  exact ⟨k, d, hd, pageOf_slot (h.rep.page k d hd).1 hslot, hslot, hk⟩

theorem Inv.freeS (h : Inv s chain free objs) (ho : s.Owns obj size) :
    ∃ s' chain' free' objs', s.freeS obj size = some s' ∧ Inv s' chain' free' objs' ∧
      s'.live = Function.update s.live obj none := by
  obtain ⟨len, hlive, hsize⟩ := ho
  obtain ⟨k, d, hd, hp, -⟩ := h.desc hlive
  obtain ⟨s', chain', free', objs', h', hlive', -, -, -, hres⟩ := h.resume hd hlive hp hsize
  exact ⟨s', chain', free', objs', hres _ _ ahead_start, h', hlive'⟩

end Free

end Linux011.Kmalloc
