import Linux011.Kmalloc.Malloc
import Mathlib.Data.Finset.Card
import Mathlib.Data.Finset.Image

/-!
# The buckets

1. `slots`: the places for objects in a page.
2. `Rep`: the chains, the free descriptors and the free lists. Its parts: `Listed`, `Describes`.
3. What `malloc` and `free_s` do to these: `Rep.addDescs`, `Rep.addBucket`, `Rep.take`, `Rep.put`,
   `Rep.drop`.
-/

namespace Linux011.Kmalloc

/-! ## Slots -/

section Slots

variable {k l : Bucket} {p a b d : ℕ}

theorem size_pos (k : Bucket) : 0 < k.size := by
  revert k
  decide

theorem size_mul (k : Bucket) : k.size * (4096 / k.size) = 4096 := by
  revert k
  decide

def slots (k : Bucket) (p : ℕ) : Finset ℕ := (stride k.size (4096 / k.size - 1) p).toFinset

theorem mem_slots : a ∈ slots k p ↔ ∃ i, a = p + k.size * i ∧ k.size * i + k.size ≤ 4096 := by
  have hmul := size_mul k
  have hpos : 0 < 4096 / k.size := by
    by_contra h
    rw [Nat.eq_zero_of_not_pos h] at hmul
    omega
  unfold slots
  rw [List.mem_toFinset, mem_stride]
  constructor
  · rintro ⟨i, hi, rfl⟩
    have hle : k.size * (i + 1) ≤ k.size * (4096 / k.size) := Nat.mul_le_mul_left _ (by omega)
    rw [hmul, Nat.mul_succ] at hle
    exact ⟨i, rfl, hle⟩
  · rintro ⟨i, rfl, hi⟩
    have hlt : i + 1 ≤ 4096 / k.size :=
      (Nat.le_div_iff_mul_le (size_pos k)).2 (by rw [Nat.mul_comm, Nat.mul_succ]; exact hi)
    exact ⟨i, by omega, rfl⟩

theorem pageOf_slot (hp : p % 4096 = 0) (ha : a ∈ slots k p) : pageOf a = p := by
  obtain ⟨i, rfl, hi⟩ := mem_slots.1 ha
  have := size_pos k
  unfold pageOf
  omega

theorem pageOf_desc (hp : p % 4096 = 0) (hd : d ∈ stride 16 255 p) : pageOf d = p := by
  obtain ⟨i, hi, rfl⟩ := mem_stride.1 hd
  unfold pageOf
  omega

/-- Two slots of a page do not overlap. -/
theorem slots_apart (ha : a ∈ slots k p) (hb : b ∈ slots k p) (hne : a ≠ b) :
    a + k.size ≤ b ∨ b + k.size ≤ a := by
  obtain ⟨i, rfl, -⟩ := mem_slots.1 ha
  obtain ⟨j, rfl, -⟩ := mem_slots.1 hb
  rcases Nat.lt_trichotomy i j with h | rfl | h
  · have := Nat.mul_le_mul_left k.size (Nat.succ_le_of_lt h)
    rw [Nat.mul_succ] at this
    omega
  · exact absurd rfl hne
  · have := Nat.mul_le_mul_left k.size (Nat.succ_le_of_lt h)
    rw [Nat.mul_succ] at this
    omega

theorem card_slots_le : (slots k p).card ≤ 256 := by
  have h := List.toFinset_card_le (stride k.size (4096 / k.size - 1) p)
  rw [length_stride] at h
  have hdiv : ∀ k : Bucket, 4096 / k.size - 1 + 1 ≤ 256 := by decide
  exact h.trans (hdiv k)

end Slots

/-! ## The lists -/

structure Rep (s : State) (chain : Bucket → List ℕ) (free : List ℕ) (objs : ℕ → List ℕ) : Prop where
  chains : ∀ k, Path s.next (s.chain k) (chain k) none
  frees : Path s.next s.freeBucketDesc free none
  once : ∀ k l d, d ∈ chain k → d ∈ chain l → k = l
  apart : ∀ k d, d ∈ chain k → d ∉ free
  descs : ∀ d, (d ∈ free ∨ ∃ k, d ∈ chain k) ↔ ∃ p ∈ s.descPages, d ∈ stride 16 255 p
  descPages : ∀ p ∈ s.descPages, p % 4096 = 0 ∧ s.held p = true
  page : ∀ k d, d ∈ chain k → s.page d % 4096 = 0 ∧ s.page d ≠ 0 ∧ s.held (s.page d) = true ∧
    s.page d ∉ s.descPages
  inj : ∀ k l d e, d ∈ chain k → e ∈ chain l → s.page d = s.page e → d = e
  size : ∀ k d, d ∈ chain k → (s.bucketSize d).toNat = k.size
  lists : ∀ k d, d ∈ chain k → Path s.mem (s.freeptr d) (objs d) none
  mem_objs : ∀ k d, d ∈ chain k → ∀ a, a ∈ objs d ↔ a ∈ slots k (s.page d) ∧ s.live a = none
  refcnt : ∀ k d, d ∈ chain k →
    (s.refcnt d).toNat = ((slots k (s.page d)).filter fun a => (s.live a).isSome).card
  live : ∀ a len, s.live a = some len →
    ∃ k, State.bucket len = some k ∧ ∃ d ∈ chain k, a ∈ slots k (s.page d)

variable {s s' : State} {chain : Bucket → List ℕ} {free rest : List ℕ} {objs : ℕ → List ℕ}
  {k l : Bucket} {a d e p len : ℕ}

section Parts

/-- What a descriptor of the chain `k` says, with the list `l` of its free objects. -/
structure Describes (s : State) (k : Bucket) (d : ℕ) (l : List ℕ) : Prop where
  page : s.page d % 4096 = 0 ∧ s.page d ≠ 0 ∧ s.held (s.page d) = true ∧ s.page d ∉ s.descPages
  size : (s.bucketSize d).toNat = k.size
  list : Path s.mem (s.freeptr d) l none
  mem_list : ∀ a, a ∈ l ↔ a ∈ slots k (s.page d) ∧ s.live a = none
  refcnt : (s.refcnt d).toNat = ((slots k (s.page d)).filter fun a => (s.live a).isSome).card

theorem Describes.congr {objs : List ℕ} (h : Describes s k d objs)
    (hsame : s'.page d = s.page d ∧ s'.freeptr d = s.freeptr d ∧ s'.refcnt d = s.refcnt d ∧
      s'.bucketSize d = s.bucketSize d)
    (hheld : s'.held (s.page d) = s.held (s.page d)) (hpages : s'.descPages = s.descPages)
    (hlive : s'.live = s.live) (hmem : ∀ a ∈ objs, s'.mem a = s.mem a) : Describes s' k d objs := by
  obtain ⟨hpage, hptr, href, hsize⟩ := hsame
  refine ⟨?_, ?_, ?_, fun a => ?_, ?_⟩
  · rw [hpage, hheld, hpages]
    exact h.page
  · rw [hsize]
    exact h.size
  · rw [hptr]
    exact h.list.congr hmem
  · rw [hpage, hlive]
    exact h.mem_list a
  · rw [hpage, hlive, href]
    exact h.refcnt

/-- The descriptor of a page in which nothing is in use. -/
theorem Describes.fresh (hpage : s.page d % 4096 = 0 ∧ s.page d ≠ 0 ∧ s.held (s.page d) = true ∧
      s.page d ∉ s.descPages) (hsize : (s.bucketSize d).toNat = k.size)
    (hlist : Path s.mem (s.freeptr d) (stride k.size (4096 / k.size - 1) (s.page d)) none)
    (href : s.refcnt d = 0) (hunused : ∀ a ∈ slots k (s.page d), s.live a = none) :
    Describes s k d (stride k.size (4096 / k.size - 1) (s.page d)) where
  page := hpage
  size := hsize
  list := hlist
  mem_list a :=
    ⟨fun ha => ⟨List.mem_toFinset.2 ha, hunused a (List.mem_toFinset.2 ha)⟩,
      fun ha => List.mem_toFinset.1 ha.1⟩
  refcnt := by
    rw [href]
    refine (Finset.card_eq_zero.2 (Finset.filter_eq_empty_iff.2 fun a ha => ?_)).symm
    rw [hunused a ha]
    exact Bool.false_ne_true

/-- Every descriptor is on one list. -/
structure Listed (s : State) (chain : Bucket → List ℕ) (free : List ℕ) : Prop where
  chains : ∀ k, Path s.next (s.chain k) (chain k) none
  frees : Path s.next s.freeBucketDesc free none
  once : ∀ k l d, d ∈ chain k → d ∈ chain l → k = l
  apart : ∀ k d, d ∈ chain k → d ∉ free

theorem mem_push : e ∈ Function.update chain k (d :: chain k) l ↔ l = k ∧ e = d ∨ e ∈ chain l := by
  by_cases hl : l = k
  · subst hl
    rw [Function.update_self, List.mem_cons]
    exact or_congr_left (and_iff_right rfl).symm
  · rw [Function.update_of_ne hl]
    exact ⟨.inr, fun he => he.resolve_left fun he => hl he.1⟩

/-- The first free descriptor is put on a chain. -/
theorem Listed.push (h : Listed s chain (d :: rest))
    (hchain : s'.chain = Function.update s.chain k (some d)) (hfree : s'.freeBucketDesc = s.next d)
    (hnext : s'.next d = s.chain k)
    (hsame : ∀ e, e ≠ d → e ∈ rest ∨ (∃ l, e ∈ chain l) → s'.next e = s.next e) :
    Listed s' (Function.update chain k (d :: chain k)) rest := by
  have hdrest : d ∉ rest := (List.nodup_cons.1 h.frees.nodup).1
  have hne : ∀ {l e}, e ∈ chain l → e ≠ d := by
    rintro l e he rfl
    exact h.apart l e he List.mem_cons_self
  have hkeep : ∀ l, Path s'.next (s.chain l) (chain l) none := fun l =>
    (h.chains l).congr fun e he => hsame e (hne he) (.inr ⟨l, he⟩)
  refine ⟨fun l => ?_, ?_, fun l m e hl hm => ?_, fun l e he => ?_⟩
  · rw [hchain]
    by_cases hl : l = k
    · subst hl
      rw [Function.update_self, Function.update_self]
      refine ⟨rfl, ?_⟩
      rw [hnext]
      exact hkeep l
    · rw [Function.update_of_ne hl, Function.update_of_ne hl]
      exact hkeep l
  · rw [hfree]
    exact h.frees.2.congr fun e he => hsame e (ne_of_mem_of_not_mem he hdrest) (.inl he)
  · rcases mem_push.1 hl with ⟨hlk, he⟩ | hl <;> rcases mem_push.1 hm with ⟨hmk, he'⟩ | hm
    · rw [hlk, hmk]
    · exact absurd he (hne hm)
    · exact absurd he' (hne hl)
    · exact h.once l m e hl hm
  · rcases mem_push.1 he with ⟨-, rfl⟩ | he
    · exact hdrest
    · exact fun hmem => h.apart l e he (List.mem_cons_of_mem _ hmem)

theorem Listed.mem_cut {xs ys : List ℕ} (h : Listed s chain free) (hk : chain k = xs ++ d :: ys) :
    e ∈ Function.update chain k (xs ++ ys) l ↔ e ∈ chain l ∧ e ≠ d := by
  have hd : d ∈ chain k := hk ▸ List.mem_append_right _ List.mem_cons_self
  have hnd := (h.chains k).nodup
  by_cases hl : l = k
  · subst hl
    rw [hk] at hnd ⊢
    obtain ⟨hdnot, -⟩ := List.nodup_cons.1 (List.nodup_middle.1 hnd)
    rw [Function.update_self, List.mem_append, List.mem_append, List.mem_cons]
    refine ⟨fun he => ⟨he.imp_right .inr, ne_of_mem_of_not_mem (List.mem_append.2 he) hdnot⟩, ?_⟩
    exact fun he => he.1.imp_right fun hy => hy.resolve_left he.2
  · rw [Function.update_of_ne hl]
    refine ⟨fun he => ⟨he, ?_⟩, And.left⟩
    rintro rfl
    exact hl (h.once l k e he hd)

/-- A descriptor goes from a chain to the free ones. -/
theorem Listed.pull {xs ys : List ℕ} (h : Listed s chain free) (hk : chain k = xs ++ d :: ys)
    (hcut : Path s'.next (s'.chain k) (xs ++ ys) none) (hchains : ∀ l, l ≠ k → s'.chain l = s.chain l)
    (hfree : s'.freeBucketDesc = some d) (hnext : s'.next d = s.freeBucketDesc)
    (hsame : ∀ e, e ∉ xs → e ≠ d → s'.next e = s.next e) :
    Listed s' (Function.update chain k (xs ++ ys)) (d :: free) := by
  have hd : d ∈ chain k := hk ▸ List.mem_append_right _ List.mem_cons_self
  have hxs : ∀ {e}, e ∈ xs → e ∈ chain k := fun he => hk ▸ List.mem_append_left _ he
  refine ⟨fun l => ?_, ⟨hfree, ?_⟩, fun l m e hl hm => ?_, fun l e he hmem => ?_⟩
  · by_cases hl : l = k
    · subst hl
      rw [Function.update_self]
      exact hcut
    · rw [Function.update_of_ne hl, hchains l hl]
      refine (h.chains l).congr fun e he => hsame e (fun hx => hl (h.once l k e he (hxs hx))) ?_
      rintro rfl
      exact hl (h.once l k e he hd)
  · rw [hnext]
    refine h.frees.congr fun e he => hsame e (fun hx => h.apart k e (hxs hx) he) ?_
    rintro rfl
    exact h.apart k e hd he
  · exact h.once l m e ((h.mem_cut hk).1 hl).1 ((h.mem_cut hk).1 hm).1
  · obtain ⟨he, hed⟩ := (h.mem_cut hk).1 he
    exact h.apart l e he ((List.mem_cons.1 hmem).resolve_left hed)

theorem Rep.listed (h : Rep s chain free objs) : Listed s chain free :=
  ⟨h.chains, h.frees, h.once, h.apart⟩

theorem Rep.describes (h : Rep s chain free objs) (hd : d ∈ chain k) : Describes s k d (objs d) :=
  ⟨h.page k d hd, h.size k d hd, h.lists k d hd, h.mem_objs k d hd, h.refcnt k d hd⟩

/-- The parts put together. -/
theorem Rep.of (hlisted : Listed s chain free)
    (hdescs : ∀ d, (d ∈ free ∨ ∃ k, d ∈ chain k) ↔ ∃ p ∈ s.descPages, d ∈ stride 16 255 p)
    (hpages : ∀ p ∈ s.descPages, p % 4096 = 0 ∧ s.held p = true)
    (hdescribes : ∀ k d, d ∈ chain k → Describes s k d (objs d))
    (hinj : ∀ k l d e, d ∈ chain k → e ∈ chain l → s.page d = s.page e → d = e)
    (hlive : ∀ a len, s.live a = some len →
      ∃ k, State.bucket len = some k ∧ ∃ d ∈ chain k, a ∈ slots k (s.page d)) :
    Rep s chain free objs where
  chains := hlisted.chains
  frees := hlisted.frees
  once := hlisted.once
  apart := hlisted.apart
  descs := hdescs
  descPages := hpages
  page k d hd := (hdescribes k d hd).page
  inj := hinj
  size k d hd := (hdescribes k d hd).size
  lists k d hd := (hdescribes k d hd).list
  mem_objs k d hd := (hdescribes k d hd).mem_list
  refcnt k d hd := (hdescribes k d hd).refcnt
  live := hlive

end Parts

section Lists

theorem Rep.desc_page (h : Rep s chain free objs) (hd : d ∈ free ∨ ∃ k, d ∈ chain k) :
    pageOf d ∈ s.descPages := by
  obtain ⟨p, hp, hdp⟩ := (h.descs d).1 hd
  rw [pageOf_desc (h.descPages p hp).1 hdp]
  exact hp

/-- Every list of descriptors is shorter than the bound of the loops. -/
theorem Rep.length_lt (h : Rep s chain free objs) (k : Bucket) : (chain k).length < s.bound := by
  have hsub : chain k ⊆ s.descPages.flatMap (stride 16 255) := by
    intro d hd
    obtain ⟨p, hp, hdp⟩ := (h.descs d).1 (.inr ⟨k, hd⟩)
    exact List.mem_flatMap.2 ⟨p, hp, hdp⟩
  have hle := ((h.chains k).nodup.subperm hsub).length_le
  have hlen : (s.descPages.flatMap (stride 16 255)).length = 256 * s.descPages.length := by
    generalize s.descPages = pages
    induction pages with
    | nil => rfl
    | cons q pages ih =>
      rw [List.flatMap_cons, List.length_append, length_stride, ih, List.length_cons]
      omega
  unfold State.bound
  omega

/-- The slot of an object in use belongs to the descriptor of its page. -/
theorem Rep.live_desc (h : Rep s chain free objs) (hd : d ∈ chain k) (ha : s.live a = some len)
    (hp : pageOf a = s.page d) : a ∈ slots k (s.page d) ∧ State.bucket len = some k := by
  obtain ⟨l, hl, e, he, hae⟩ := h.live a len ha
  have hpe := pageOf_slot (h.page l e he).1 hae
  have hed := h.inj l k e d he hd (hpe.symm.trans hp)
  subst hed
  have hlk := h.once l k e he hd
  subst hlk
  exact ⟨hae, hl⟩

/-- What `get_free_page` gives is none of the pages in use. -/
theorem Rep.fresh_desc (h : Rep s chain free objs) (hp : s.held p = false)
    (hd : d ∈ free ∨ ∃ k, d ∈ chain k) : pageOf d ≠ p := by
  rintro rfl
  rw [(h.descPages _ (h.desc_page hd)).2] at hp
  cases hp

theorem Rep.fresh_page (h : Rep s chain free objs) (hp : s.held p = false) (hd : d ∈ chain k) :
    s.page d ≠ p := by
  rintro rfl
  rw [(h.page k d hd).2.2.1] at hp
  cases hp

theorem Rep.fresh_obj (h : Rep s chain free objs) (hp : s.held p = false) (hd : d ∈ chain k)
    (ha : a ∈ objs d) : pageOf a ≠ p := by
  rw [pageOf_slot (h.page k d hd).1 ((h.mem_objs k d hd a).1 ha).1]
  exact h.fresh_page hp hd

end Lists

section Pages

theorem getFreePage_eq_some (h : s.getFreePage p = some s') :
    (p ≠ 0 ∧ p % 4096 = 0 ∧ s.held p = false) ∧
    (s'.chain = s.chain ∧ s'.freeBucketDesc = s.freeBucketDesc ∧ s'.descPages = s.descPages ∧
      s'.live = s.live ∧ s'.held = Function.update s.held p true) ∧
    ∀ a, pageOf a ≠ p → s'.page a = s.page a ∧ s'.next a = s.next a ∧ s'.freeptr a = s.freeptr a ∧
      s'.refcnt a = s.refcnt a ∧ s'.bucketSize a = s.bucketSize a ∧ s'.mem a = s.mem a := by
  unfold State.getFreePage at h
  split at h
  · cases h
  · next hp =>
    rw [not_or, not_or, not_not, Bool.not_eq_true] at hp
    cases h
    refine ⟨hp, ⟨rfl, rfl, rfl, rfl, rfl⟩, fun a ha => ?_⟩
    exact ⟨if_neg ha, if_neg ha, if_neg ha, if_neg ha, if_neg ha, if_neg ha⟩

/-- The lists do not reach into a page that is not in use. -/
theorem Rep.getFreePage (h : Rep s chain free objs) (hs : s.getFreePage p = some s') :
    Rep s' chain free objs := by
  obtain ⟨⟨-, -, hp⟩, ⟨hchain, hfree, hpages, hlive, hheld⟩, hsame⟩ := getFreePage_eq_some hs
  have hdesc : ∀ {k d}, d ∈ chain k → _ := fun {k d} hd => hsame d (h.fresh_desc hp (.inr ⟨k, hd⟩))
  have hkeep : ∀ {q}, s.held q = true → s'.held q = true := by
    intro q hq
    rw [hheld]
    by_cases hqp : q = p
    · rw [hqp, Function.update_self]
    · rw [Function.update_of_ne hqp, hq]
  refine ⟨?_, ?_, h.once, h.apart, ?_, ?_, ?_, ?_, ?_, ?_, ?_, ?_, ?_⟩
  · intro k
    rw [hchain]
    exact (h.chains k).congr fun d hd => (hdesc hd).2.1
  · rw [hfree]
    exact h.frees.congr fun d hd => (hsame d (h.fresh_desc hp (.inl hd))).2.1
  · rw [hpages]
    exact h.descs
  · rw [hpages]
    exact fun q hq => ⟨(h.descPages q hq).1, hkeep (h.descPages q hq).2⟩
  · intro k d hd
    obtain ⟨h1, h2, h3, h4⟩ := h.page k d hd
    rw [(hdesc hd).1, hpages]
    exact ⟨h1, h2, hkeep h3, h4⟩
  · intro k l d e hd he
    rw [(hdesc hd).1, (hdesc he).1]
    exact h.inj k l d e hd he
  · intro k d hd
    rw [(hdesc hd).2.2.2.2.1]
    exact h.size k d hd
  · intro k d hd
    rw [(hdesc hd).2.2.1]
    exact (h.lists k d hd).congr fun a ha => (hsame a (h.fresh_obj hp hd ha)).2.2.2.2.2
  · intro k d hd
    rw [(hdesc hd).1, hlive]
    exact h.mem_objs k d hd
  · intro k d hd
    rw [(hdesc hd).1, (hdesc hd).2.2.2.1, hlive]
    exact h.refcnt k d hd
  · intro a len ha
    rw [hlive] at ha
    obtain ⟨k, hk, d, hd, had⟩ := h.live a len ha
    exact ⟨k, hk, d, hd, by rw [(hdesc hd).1]; exact had⟩

/-- A new page of descriptors. -/
theorem Rep.addDescs (h : Rep s chain free objs) (hp : p % 4096 = 0) (hheld : s.held p = true)
    (hnew : p ∉ s.descPages) (hpage : ∀ k d, d ∈ chain k → s.page d ≠ p) :
    Rep { s with
      next := linkUp 16 s.freeBucketDesc 255 p s.next
      freeBucketDesc := some p
      descPages := p :: s.descPages } chain (stride 16 255 p ++ free) objs := by
  have hout : ∀ {d}, d ∈ free ∨ (∃ k, d ∈ chain k) → d ∉ stride 16 255 p := by
    intro d hd hdp
    have hpd := h.desc_page hd
    rw [pageOf_desc hp hdp] at hpd
    exact hnew hpd
  obtain ⟨next, hnext⟩ : ∃ next, next = linkUp 16 s.freeBucketDesc 255 p s.next := ⟨_, rfl⟩
  have hsame : ∀ {d}, d ∈ free ∨ (∃ k, d ∈ chain k) → next d = s.next d := by
    intro d hd
    rw [hnext, linkUp_of_notMem (hout hd)]
  have hlink : Path next (some p) (stride 16 255 p) s.freeBucketDesc := by
    rw [hnext]
    exact linkUp_path (Nat.succ_pos 15)
  rw [← hnext]
  refine ⟨?_, ?_, h.once, ?_, ?_, ?_, ?_, h.inj, h.size, h.lists, h.mem_objs, h.refcnt, h.live⟩
  · exact fun k => (h.chains k).congr fun d hd => hsame (.inr ⟨k, hd⟩)
  · exact path_append.2 ⟨_, hlink, h.frees.congr fun d hd => hsame (.inl hd)⟩
  · intro k d hd hmem
    rcases List.mem_append.1 hmem with hmem | hmem
    · exact hout (.inr ⟨k, hd⟩) hmem
    · exact h.apart k d hd hmem
  · intro d
    constructor
    · rintro (hd | hd)
      · rcases List.mem_append.1 hd with hd | hd
        · exact ⟨p, List.mem_cons_self, hd⟩
        · obtain ⟨q, hq, hdq⟩ := (h.descs d).1 (.inl hd)
          exact ⟨q, List.mem_cons_of_mem _ hq, hdq⟩
      · obtain ⟨q, hq, hdq⟩ := (h.descs d).1 (.inr hd)
        exact ⟨q, List.mem_cons_of_mem _ hq, hdq⟩
    · rintro ⟨q, hq, hdq⟩
      rcases List.mem_cons.1 hq with rfl | hq
      · exact .inl (List.mem_append_left _ hdq)
      · exact ((h.descs d).2 ⟨q, hq, hdq⟩).imp_left (List.mem_append_right _)
  · intro q hq
    rcases List.mem_cons.1 hq with rfl | hq
    · exact ⟨hp, hheld⟩
    · exact h.descPages q hq
  · intro k d hd
    obtain ⟨h1, h2, h3, h4⟩ := h.page k d hd
    refine ⟨h1, h2, h3, fun hmem => ?_⟩
    rcases List.mem_cons.1 hmem with he | hmem
    · exact hpage k d hd he
    · exact h4 hmem

end Pages

section Steps

/-- A free descriptor gets a page and is put on a chain. -/
theorem Rep.addBucket (h : Rep s chain (d :: rest) objs) (hp : p % 4096 = 0) (hp0 : p ≠ 0)
    (hnew : s.held p = false) (hchain : s'.chain = Function.update s.chain k (some d))
    (hfree : s'.freeBucketDesc = s.next d) (hpages : s'.descPages = s.descPages)
    (hlive : s'.live = s.live) (hheld : s'.held = Function.update s.held p true)
    (hself : s'.page d = p ∧ s'.next d = s.chain k ∧ s'.freeptr d = some p ∧ s'.refcnt d = 0 ∧
      (s'.bucketSize d).toNat = k.size)
    (hsame : ∀ e, e ≠ d → pageOf e ≠ p → s'.page e = s.page e ∧ s'.next e = s.next e ∧
      s'.freeptr e = s.freeptr e ∧ s'.refcnt e = s.refcnt e ∧ s'.bucketSize e = s.bucketSize e)
    (hmem : ∀ a, pageOf a ≠ p → s'.mem a = s.mem a)
    (hlinks : Path s'.mem (some p) (stride k.size (4096 / k.size - 1) p) none) :
    Rep s' (Function.update chain k (d :: chain k)) rest
      (Function.update objs d (stride k.size (4096 / k.size - 1) p)) := by
  obtain ⟨hpage, hnext, hptr, href, hsize⟩ := hself
  have hne : ∀ {l e}, e ∈ chain l → e ≠ d := by
    rintro l e he rfl
    exact h.apart l e he List.mem_cons_self
  have hold : ∀ {l e}, e ∈ chain l → _ :=
    fun {l e} he => hsame e (hne he) (h.fresh_desc hnew (.inr ⟨l, he⟩))
  have hlisted : Listed s' (Function.update chain k (d :: chain k)) rest := by
    refine h.listed.push hchain hfree hnext fun e hed he => (hsame e hed (h.fresh_desc hnew ?_)).2.1
    exact he.imp_left (List.mem_cons_of_mem _)
  -- nothing is in use in the new page
  have hunused : ∀ a ∈ slots k p, s.live a = none := by
    intro a ha
    rcases hla : s.live a with _ | len
    · rfl
    · obtain ⟨l, -, e, he, hae⟩ := h.live a len hla
      have hpe := pageOf_slot (h.page l e he).1 hae
      rw [pageOf_slot hp ha] at hpe
      exact absurd hpe.symm (h.fresh_page hnew he)
  have hkeep : ∀ {q}, s.held q = true → s'.held q = true := by
    intro q hq
    rw [hheld]
    by_cases hqp : q = p
    · rw [hqp, Function.update_self]
    · rw [Function.update_of_ne hqp, hq]
  have hpnot : p ∉ s.descPages := by
    intro hmem
    rw [(h.descPages p hmem).2] at hnew
    cases hnew
  have hfresh : Describes s' k d (stride k.size (4096 / k.size - 1) p) := by
    subst hpage
    refine .fresh ⟨hp, hp0, ?_, ?_⟩ hsize ?_ href ?_
    · rw [hheld, Function.update_self]
    · rw [hpages]
      exact hpnot
    · rw [hptr]
      exact hlinks
    · rw [hlive]
      exact hunused
  refine .of hlisted (fun e => ?_) ?_ (fun l e he => ?_) (fun l m e f he hf => ?_) fun a len ha => ?_
  · rw [hpages, ← h.descs, List.mem_cons]
    simp only [mem_push, exists_or, exists_eq_left]
    rw [← or_assoc, or_comm (a := e ∈ rest)]
  · rw [hpages]
    exact fun q hq => ⟨(h.descPages q hq).1, hkeep (h.descPages q hq).2⟩
  · rcases mem_push.1 he with ⟨rfl, rfl⟩ | he
    · rw [Function.update_self]
      exact hfresh
    · rw [Function.update_of_ne (hne he)]
      obtain ⟨h1, -, h3, h4, h5⟩ := hold he
      have hheld' := (h.page l e he).2.2.1
      exact (h.describes he).congr ⟨h1, h3, h4, h5⟩ ((hkeep hheld').trans hheld'.symm) hpages hlive
        fun a ha => hmem a (h.fresh_obj hnew he ha)
  · rcases mem_push.1 he with ⟨-, rfl⟩ | he' <;> rcases mem_push.1 hf with ⟨-, rfl⟩ | hf'
    · exact fun _ => rfl
    · rw [hpage, (hold hf').1]
      exact fun heq => absurd heq.symm (h.fresh_page hnew hf')
    · rw [hpage, (hold he').1]
      exact fun heq => absurd heq (h.fresh_page hnew he')
    · rw [(hold he').1, (hold hf').1]
      exact h.inj l m e f he' hf'
  · rw [hlive] at ha
    obtain ⟨l, hl, e, he, hae⟩ := h.live a len ha
    exact ⟨l, hl, e, mem_push.2 (.inr he), by rw [(hold he).1]; exact hae⟩

/-- The slots of other buckets are in other pages. -/
theorem Rep.other_slot (h : Rep s chain free objs) (hd : d ∈ chain k) (he : e ∈ chain l)
    (hed : e ≠ d) (ha : a ∈ slots k (s.page d)) : a ∉ slots l (s.page e) := by
  intro hae
  have h1 := pageOf_slot (h.page k d hd).1 ha
  rw [pageOf_slot (h.page l e he).1 hae] at h1
  exact hed (h.inj l k e d he hd h1)

/-- The objects of a bucket change in one slot. -/
theorem Rep.setLive (h : Rep s chain free objs) (hd : d ∈ chain k) (ha : a ∈ slots k (s.page d))
    {v : Option ℕ} {mem : ℕ → Option ℕ} {ptr : Option ℕ} {r : BitVec 16} {list : List ℕ}
    (hmem : ∀ b, b ≠ a → mem b = s.mem b) (hlist : Path mem ptr list none)
    (hl : ∀ b, b ∈ list ↔ b ∈ slots k (s.page d) ∧ Function.update s.live a v b = none)
    (hlen : ∀ len, v = some len → State.bucket len = some k)
    (hr : r.toNat =
      ((slots k (s.page d)).filter fun b => (Function.update s.live a v b).isSome).card) :
    Rep { s with
      mem := mem
      freeptr := Function.update s.freeptr d ptr
      refcnt := Function.update s.refcnt d r
      live := Function.update s.live a v } chain free (Function.update objs d list) := by
  have hother : ∀ {l e b}, e ∈ chain l → e ≠ d → b ∈ slots l (s.page e) → b ≠ a := by
    rintro l e b he hed hb rfl
    exact h.other_slot hd he hed ha hb
  refine ⟨h.chains, h.frees, h.once, h.apart, h.descs, h.descPages, h.page, h.inj, h.size, ?_, ?_,
    ?_, ?_⟩
  · intro l e he
    by_cases hed : e = d
    · subst hed
      show Path mem (Function.update s.freeptr e ptr e) _ none
      rw [Function.update_self, Function.update_self]
      exact hlist
    · show Path mem (Function.update s.freeptr d ptr e) _ none
      rw [Function.update_of_ne hed, Function.update_of_ne hed]
      exact (h.lists l e he).congr fun b hb =>
        hmem b (hother he hed ((h.mem_objs l e he b).1 hb).1)
  · intro l e he b
    show _ ↔ _ ∧ Function.update s.live a v b = none
    by_cases hed : e = d
    · subst hed
      have hlk := h.once l k e he hd
      subst hlk
      rw [Function.update_self]
      exact hl b
    · rw [Function.update_of_ne hed, h.mem_objs l e he]
      refine and_congr_right fun hb => ?_
      rw [Function.update_of_ne (hother he hed hb)]
  · intro l e he
    show (Function.update s.refcnt d r e).toNat =
      ((slots l (s.page e)).filter fun b => (Function.update s.live a v b).isSome).card
    by_cases hed : e = d
    · subst hed
      have hlk := h.once l k e he hd
      subst hlk
      rw [Function.update_self]
      exact hr
    · rw [Function.update_of_ne hed, h.refcnt l e he]
      refine congrArg Finset.card (Finset.filter_congr fun b hb => ?_)
      rw [Function.update_of_ne (hother he hed hb)]
  · intro b len hb
    have hb' : Function.update s.live a v b = some len := hb
    by_cases hba : b = a
    · subst hba
      rw [Function.update_self] at hb'
      exact ⟨k, hlen len hb', d, hd, ha⟩
    · rw [Function.update_of_ne hba] at hb'
      exact h.live b len hb'

/-- The first free object of a bucket is taken. -/
theorem Rep.take (h : Rep s chain free objs) (hd : d ∈ chain k) (ha : s.freeptr d = some a)
    (hk : State.bucket len = some k) :
    ∃ list, Rep { s with
      freeptr := Function.update s.freeptr d (s.mem a)
      refcnt := Function.update s.refcnt d (s.refcnt d + 1)
      live := Function.update s.live a (some len) } chain free (Function.update objs d list) ∧
      a ∈ slots k (s.page d) ∧ s.live a = none ∧
      (s.refcnt d + 1).toNat = (s.refcnt d).toNat + 1 := by
  have hpath := h.lists k d hd
  obtain ⟨list, hlist⟩ : ∃ list, objs d = a :: list := by
    cases ho : objs d with
    | nil =>
      rw [ho, path_nil, ha] at hpath
      cases hpath
    | cons b list =>
      rw [ho, path_cons, ha] at hpath
      exact ⟨list, by rw [Option.some.inj hpath.1]⟩
  rw [hlist] at hpath
  obtain ⟨hslot, hnone⟩ := (h.mem_objs k d hd a).1 (hlist ▸ List.mem_cons_self)
  have hfilter : ((slots k (s.page d)).filter fun b =>
      (Function.update s.live a (some len) b).isSome) =
      insert a ((slots k (s.page d)).filter fun b => (s.live b).isSome) := by
    ext b
    rw [Finset.mem_filter, Finset.mem_insert, Finset.mem_filter]
    by_cases hb : b = a
    · subst hb
      rw [Function.update_self]
      exact iff_of_true ⟨hslot, rfl⟩ (.inl rfl)
    · rw [Function.update_of_ne hb]
      exact (or_iff_right hb).symm
  have hnot : a ∉ (slots k (s.page d)).filter fun b => (s.live b).isSome := by
    rw [Finset.mem_filter, hnone]
    exact fun h => Bool.false_ne_true h.2
  have hcard := Finset.card_insert_of_notMem hnot
  rw [← hfilter, ← h.refcnt k d hd] at hcard
  have hle : (s.refcnt d).toNat + 1 ≤ 256 := by
    rw [← hcard]
    exact (Finset.card_filter_le _ _).trans card_slots_le
  have hadd : (s.refcnt d + 1).toNat = (s.refcnt d).toNat + 1 := by
    rw [BitVec.toNat_add]
    exact Nat.mod_eq_of_lt (by simp; omega)
  refine ⟨list, h.setLive hd hslot (fun _ _ => rfl) hpath.2 ?_ ?_ ?_, hslot, hnone, hadd⟩
  · intro b
    have hobj := h.mem_objs k d hd b
    rw [hlist, List.mem_cons] at hobj
    by_cases hb : b = a
    · subst hb
      rw [Function.update_self]
      exact iff_of_false (List.nodup_cons.1 hpath.nodup).1 fun h => nomatch h.2
    · rw [Function.update_of_ne hb, ← hobj]
      exact (or_iff_right hb).symm
  · rintro _ ⟨⟩
    exact hk
  · rw [hadd, hcard]

/-- An object is given back to its bucket. -/
theorem Rep.put (h : Rep s chain free objs) (hd : d ∈ chain k) (ha : a ∈ slots k (s.page d))
    (hlive : s.live a = some len) :
    Rep { s with
      mem := Function.update s.mem a (s.freeptr d)
      freeptr := Function.update s.freeptr d (some a)
      refcnt := Function.update s.refcnt d (s.refcnt d - 1)
      live := Function.update s.live a none } chain free
      (Function.update objs d (a :: objs d)) := by
  have hnot : a ∉ objs d := by
    intro hmem
    have hnone := ((h.mem_objs k d hd a).1 hmem).2
    rw [hlive] at hnone
    cases hnone
  have hmem : a ∈ (slots k (s.page d)).filter fun b => (s.live b).isSome := by
    rw [Finset.mem_filter, hlive]
    exact ⟨ha, rfl⟩
  have hfilter : ((slots k (s.page d)).filter fun b => (Function.update s.live a none b).isSome) =
      ((slots k (s.page d)).filter fun b => (s.live b).isSome).erase a := by
    ext b
    rw [Finset.mem_filter, Finset.mem_erase, Finset.mem_filter]
    by_cases hb : b = a
    · subst hb
      rw [Function.update_self]
      exact iff_of_false (fun h => Bool.false_ne_true h.2) fun h => h.1 rfl
    · rw [Function.update_of_ne hb]
      exact (and_iff_right hb).symm
  have hcard := Finset.card_erase_of_mem hmem
  rw [← hfilter, ← h.refcnt k d hd] at hcard
  have hpos : 0 < (s.refcnt d).toNat := by
    rw [h.refcnt k d hd]
    exact Finset.card_pos.2 ⟨a, hmem⟩
  refine h.setLive hd ha (fun b hb => Function.update_of_ne hb _ _)
    ((h.lists k d hd).push hnot) ?_ nofun ?_
  · intro b
    rw [List.mem_cons]
    by_cases hb : b = a
    · subst hb
      rw [Function.update_self]
      exact iff_of_true (.inl rfl) ⟨ha, rfl⟩
    · rw [Function.update_of_ne hb, ← h.mem_objs k d hd]
      exact or_iff_right hb
  · rw [hcard]
    have hlt := (s.refcnt d).isLt
    bv_omega

/-- `unlink` without the search for the descriptor before. -/
def State.cutOut (s : State) (k : Bucket) (d : ℕ) : Option ℕ → State
  | some p => { s with next := Function.update s.next p (s.next d) }
  | none => { s with chain := Function.update s.chain k (s.next d) }

variable {xs ys : List ℕ} {prev : Option ℕ}

/-- Only the descriptor before it leads to a descriptor. -/
theorem Rep.after_unique (h : Rep s chain free objs) (hk : chain k = xs ++ d :: ys)
    (hprev : ∀ p, prev = some p → p ∈ free ∨ ∃ l, p ∈ chain l) :
    s.after k prev = some d ↔ prev = xs.getLast? := by
  have hpath := h.chains k
  have hd : d ∈ chain k := hk ▸ List.mem_append_right _ List.mem_cons_self
  have hdxs : d ∉ xs := by
    have hnd := hpath.nodup
    rw [hk] at hnd
    exact fun hmem => (List.nodup_append'.1 hnd).2.2 hmem List.mem_cons_self
  constructor
  · intro hafter
    cases prev with
    | none =>
      have hcur : s.chain k = some d := hafter
      rw [hcur, hk] at hpath
      cases xs with
      | nil => rfl
      | cons x xs => exact absurd (List.mem_cons.2 (.inl (Option.some.inj hpath.1))) hdxs
    | some p =>
      have hnext : s.next p = some d := hafter
      rcases hprev p rfl with hp | ⟨l, hp⟩
      · obtain ⟨as, bs, hsplit⟩ := h.frees.next_mem hp hnext
        refine absurd ?_ (h.apart k d hd)
        rw [hsplit]
        exact List.mem_append_right _ (List.mem_cons_of_mem _ List.mem_cons_self)
      · obtain ⟨as, bs, hsplit⟩ := (h.chains l).next_mem hp hnext
        have hl : l = k := by
          refine h.once l k d ?_ hd
          rw [hsplit]
          exact List.mem_append_right _ (List.mem_cons_of_mem _ List.mem_cons_self)
        subst hl
        rw [List.append_cons, hk] at hsplit
        have hnd := (h.chains l).nodup
        rw [hk] at hnd
        have hdys : d ∉ ys := (List.nodup_cons.1 (List.nodup_append'.1 hnd).2.1).1
        obtain ⟨rfl, -⟩ := (List.append_cons_inj_of_notMem hdxs hdys).1 hsplit
        exact (List.getLast?_concat ..).symm
  · rintro rfl
    rw [hk] at hpath
    obtain ⟨r, h1, rfl, -⟩ := path_append.1 hpath
    rcases List.eq_nil_or_concat xs with rfl | ⟨as, p, rfl⟩
    · exact h1
    · rw [List.concat_eq_append, List.getLast?_concat]
      rw [List.concat_eq_append] at h1
      obtain ⟨r, -, rfl, h2⟩ := path_append.1 h1
      exact h2

theorem Rep.unlink (h : Rep s chain free objs) (hk : chain k = xs ++ d :: ys)
    (hprev : ∀ p, prev = some p → p ∈ free ∨ ∃ l, p ∈ chain l) :
    s.unlink k prev d = some (s.cutOut k d xs.getLast?) := by
  have hlast : ∀ p, xs.getLast? = some p → p ∈ chain k := by
    intro p hp
    rw [hk]
    exact List.mem_append_left _ (List.mem_of_getLast? hp)
  have hafter : s.after k xs.getLast? = some d :=
    (h.after_unique hk fun p hp => .inr ⟨k, hlast p hp⟩).2 rfl
  have hbefore : s.before k prev d = some xs.getLast? := by
    unfold State.before
    split
    · rw [follow_eq (h.chains k) (h.length_lt k)]
      refine congrArg some ?_
      have honly : ∀ p ∈ chain k, s.next p = some d → xs.getLast? = some p := by
        intro p hp hnext
        have hprev' : ∀ q, some p = some q → q ∈ free ∨ ∃ l, q ∈ chain l :=
          fun q hq => .inr ⟨k, Option.some.inj hq ▸ hp⟩
        exact ((h.after_unique hk hprev').1 hnext).symm
      rcases hfind : (chain k).find? (fun p => s.next p = some d) with _ | p
      · cases hl : xs.getLast? with
        | none => rfl
        | some p =>
          rw [hl] at hafter
          exact absurd (decide_eq_true hafter) (List.find?_eq_none.1 hfind p (hlast p hl))
      · exact (honly p (List.mem_of_find?_eq_some hfind)
          (of_decide_eq_true (List.find?_some hfind :))).symm
    · next hacc => rw [(h.after_unique hk hprev).1 (not_not.1 hacc)]
  unfold State.unlink
  rw [hbefore, Option.bind_some]
  cases hl : xs.getLast? with
  | some p => rfl
  | none =>
    rw [hl] at hafter
    have hhead : s.chain k = some d := hafter
    dsimp only
    rw [if_neg (not_not.2 hhead)]
    rfl

theorem cutOut_same (o : Option ℕ) : (s.cutOut k d o).freeBucketDesc = s.freeBucketDesc ∧
    (s.cutOut k d o).page = s.page ∧ (s.cutOut k d o).freeptr = s.freeptr ∧
    (s.cutOut k d o).refcnt = s.refcnt ∧ (s.cutOut k d o).bucketSize = s.bucketSize ∧
    (s.cutOut k d o).mem = s.mem ∧ (s.cutOut k d o).held = s.held ∧
    (s.cutOut k d o).descPages = s.descPages ∧ (s.cutOut k d o).live = s.live := by
  cases o with
  | none => exact ⟨rfl, rfl, rfl, rfl, rfl, rfl, rfl, rfl, rfl⟩
  | some p => exact ⟨rfl, rfl, rfl, rfl, rfl, rfl, rfl, rfl, rfl⟩

theorem Rep.cutOut_chain (h : Rep s chain free objs) (hk : chain k = xs ++ d :: ys) :
    Path (s.cutOut k d xs.getLast?).next ((s.cutOut k d xs.getLast?).chain k) (xs ++ ys) none ∧
    (∀ l, l ≠ k → (s.cutOut k d xs.getLast?).chain l = s.chain l) ∧
    ∀ e, e ∉ xs → (s.cutOut k d xs.getLast?).next e = s.next e := by
  have hpath := h.chains k
  rw [hk] at hpath
  rcases List.eq_nil_or_concat xs with rfl | ⟨as, p, rfl⟩
  · refine ⟨?_, fun l hl => Function.update_of_ne hl _ _, fun _ _ => rfl⟩
    show Path s.next (Function.update s.chain k (s.next d) k) ys none
    rw [Function.update_self]
    exact hpath.2
  · rw [List.concat_eq_append] at hpath ⊢
    rw [List.getLast?_concat]
    refine ⟨?_, fun _ _ => rfl, fun e he => ?_⟩
    · rw [List.append_assoc, List.singleton_append] at hpath ⊢
      exact hpath.removeAfter
    · refine Function.update_of_ne ?_ _ _
      rintro rfl
      exact he (List.mem_append_right _ (List.mem_singleton_self _))

/-- A descriptor whose page is not in use goes to the free ones. -/
theorem Rep.drop (h : Rep s chain free objs) (hk : chain k = xs ++ d :: ys)
    (href : s.refcnt d = 0) (hs' : s' = { s.cutOut k d xs.getLast? with
      held := Function.update s.held (s.page d) false
      next := Function.update (s.cutOut k d xs.getLast?).next d s.freeBucketDesc
      freeBucketDesc := some d }) :
    Rep s' (Function.update chain k (xs ++ ys)) (d :: free) objs := by
  obtain ⟨-, hpage, hptr, hrefcnt, hsize, hmem, -, hpages, hlive⟩ :=
    cutOut_same (s := s) (k := k) (d := d) xs.getLast?
  obtain ⟨hcut, hchains, hnexts⟩ := h.cutOut_chain hk
  obtain ⟨t, ht⟩ : ∃ t, t = s.cutOut k d xs.getLast? := ⟨_, rfl⟩
  rw [← ht] at hs' hpage hptr hrefcnt hsize hmem hpages hlive hcut hchains hnexts
  have hd : d ∈ chain k := hk ▸ List.mem_append_right _ List.mem_cons_self
  have hdnot : d ∉ xs ++ ys := by
    have hnd := (h.chains k).nodup
    rw [hk] at hnd
    exact (List.nodup_cons.1 (List.nodup_middle.1 hnd)).1
  have hsub : ∀ {l e}, e ∈ Function.update chain k (xs ++ ys) l ↔ e ∈ chain l ∧ e ≠ d :=
    h.listed.mem_cut hk
  -- the fields that the lists depend on
  have hnext' : s'.next = Function.update t.next d s.freeBucketDesc := by rw [hs']
  have hpage' : s'.page = s.page := by rw [hs', ← hpage]
  have hptr' : s'.freeptr = s.freeptr := by rw [hs', ← hptr]
  have href' : s'.refcnt = s.refcnt := by rw [hs', ← hrefcnt]
  have hsize' : s'.bucketSize = s.bucketSize := by rw [hs', ← hsize]
  have hmem' : s'.mem = s.mem := by rw [hs', ← hmem]
  have hpages' : s'.descPages = s.descPages := by rw [hs', ← hpages]
  have hlive' : s'.live = s.live := by rw [hs', ← hlive]
  have hheld' : ∀ {q}, q ≠ s.page d → s'.held q = s.held q := by
    intro q hq
    rw [hs']
    exact Function.update_of_ne hq _ _
  have hlisted : Listed s' (Function.update chain k (xs ++ ys)) (d :: free) := by
    refine h.listed.pull hk ?_ (fun l hl => ?_) (by rw [hs']) ?_ fun e he hed => ?_
    · rw [hnext', hs']
      exact hcut.update hdnot _
    · rw [hs']
      exact hchains l hl
    · rw [hnext', Function.update_self]
    · rw [hnext', Function.update_of_ne hed, hnexts e he]
  -- nothing is in use in the page
  have hempty : ∀ {a}, a ∈ slots k (s.page d) → s.live a = none := by
    intro a ha
    have hcard := h.refcnt k d hd
    rw [href] at hcard
    have hnone := Finset.filter_eq_empty_iff.1 (Finset.card_eq_zero.1 hcard.symm) ha
    rwa [Bool.not_eq_true, Option.isSome_eq_false_iff, Option.isNone_iff_eq_none] at hnone
  refine .of hlisted (fun e => ?_) (fun q hq => ?_) (fun l e he => ?_) (fun l m e f he hf => ?_)
    fun a len ha => ?_
  · rw [hpages', ← h.descs]
    constructor
    · rintro (he | ⟨l, he⟩)
      · exact (List.mem_cons.1 he).elim (fun he => .inr ⟨k, he ▸ hd⟩) .inl
      · exact .inr ⟨l, (hsub.1 he).1⟩
    · rintro (he | ⟨l, he⟩)
      · exact .inl (List.mem_cons_of_mem _ he)
      · by_cases hed : e = d
        · exact .inl (hed ▸ List.mem_cons_self)
        · exact .inr ⟨l, hsub.2 ⟨he, hed⟩⟩
  · rw [hpages'] at hq
    have hne : q ≠ s.page d := by
      rintro rfl
      exact (h.page k d hd).2.2.2 hq
    rw [hheld' hne]
    exact h.descPages q hq
  · obtain ⟨he, hed⟩ := hsub.1 he
    have hne : s.page e ≠ s.page d := fun heq => hed (h.inj l k e d he hd heq)
    exact (h.describes he).congr
      ⟨congrFun hpage' e, congrFun hptr' e, congrFun href' e, congrFun hsize' e⟩ (hheld' hne) hpages'
      hlive' fun a _ => congrFun hmem' a
  · rw [hpage']
    exact h.inj l m e f (hsub.1 he).1 (hsub.1 hf).1
  · rw [hlive'] at ha
    obtain ⟨l, hl, e, he, hae⟩ := h.live a len ha
    have hed : e ≠ d := by
      rintro rfl
      have hlk := h.once l k e he hd
      subst hlk
      rw [hempty hae] at ha
      cases ha
    exact ⟨l, hl, e, hsub.2 ⟨he, hed⟩, by rw [hpage']; exact hae⟩

end Steps

end Linux011.Kmalloc
