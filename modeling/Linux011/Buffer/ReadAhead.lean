import Linux011.Buffer.Store
import Linux011.Lib.Ensures

/-!
# Reading ahead

`breada`, in a process that runs alone; the drivers work while it sleeps.

1. `Cache.goOn`, `Cache.Interim` and `Cache.Does`: what a stack of calls comes to.
2. `getblk_found`, `getblk_missing` and `read_does`: the calls that `breada` makes.
3. `Ahead`: what the loop keeps. `Ahead.turn`.
4. `breada_ahead_iff`: when a read of each further block has been asked for.
-/

namespace Linux011.Buffer

variable {α : Type*} {n : ℕ}

/-! ## Runs of one process -/

namespace Cache

/-- What follows a step of the innermost frame. -/
def proceed (fs : List (Frame n)) : Cache α n × Next n → Option (Cache α n × List (Frame n))
  | (c, .goto f) => some (c, f :: fs)
  | (c, .call f g) => some (c, g :: f :: fs)
  | (c, .ret v) =>
    match fs with
    | [] => none
    | g :: fs => some (c, g.receive v :: fs)
  | (_, .sleep _) | (_, .panic) => none

/-- The process makes a step, unless it sleeps or has returned. -/
def goOn (σ : Cache α n × List (Frame n)) : Option (Cache α n × List (Frame n)) :=
  match σ.2 with
  | [] => none
  | f :: fs => proceed fs (σ.1.exec .go f)

/-- The drivers work. -/
def Works : Cache α n → Cache α n → Prop :=
  Relation.ReflTransGen fun c c' =>
    ∃ m, c.transfer m = some c' ∨ ∃ uptodate, c.endRequest m uptodate = some c'

/-- The process sleeps if it runs. -/
def Asleep (σ : Cache α n × List (Frame n)) : Prop :=
  ∃ f fs c f', σ.2 = f :: fs ∧ σ.1.exec .go f = (c, .sleep f')

/-- The drivers work while the process sleeps. -/
def Interim (σ σ' : Cache α n × List (Frame n)) : Prop :=
  ∃ c f f' fs c', σ.2 = f :: fs ∧ σ.1.exec .go f = (c, .sleep f') ∧ c.Works c' ∧ σ' = (c', f' :: fs)

/-- The calls of a process come to a state with `Q`. -/
def Does (c : Cache α n) (fs : List (Frame n)) (Q : Cache α n → List (Frame n) → Prop) : Prop :=
  Ensures goOn Asleep Interim (fun σ => Q σ.1 σ.2) (c, fs)

variable {c c' : Cache α n} {f f' g : Frame n} {fs : List (Frame n)} {v : Option (Fin n)}
  {Q R : Cache α n → List (Frame n) → Prop} {dev : Dev} {block : Block} {b bh tmp : Fin n}
  {m : Fin 7} {rw : Rw}

theorem does_goto {e : Cache α n} {r : Frame n} (h : c.exec .go f = (e, .goto r))
    (hd : e.Does (r :: fs) Q) : c.Does (f :: fs) Q :=
  .step (congrArg (proceed _) h) hd

theorem does_call {e : Cache α n} {r : Frame n} (h : c.exec .go f = (e, .call r g))
    (hd : e.Does (g :: r :: fs) Q) : c.Does (f :: fs) Q :=
  .step (congrArg (proceed _) h) hd

theorem does_ret {e : Cache α n} (h : c.exec .go f = (e, .ret v))
    (hd : e.Does (g.receive v :: fs) Q) : c.Does (f :: g :: fs) Q :=
  .step (congrArg (proceed _) h) hd

/-- A sleep ends where the frame does not sleep any more. -/
theorem does_sleep (h : c.exec .go f = (c, .sleep f)) (P : Cache α n → Prop)
    (hwake : ∃ c', c.Works c' ∧ P c')
    (hgo : ∀ c', c.Works c' → (Asleep (c', f :: fs) ↔ ¬ P c'))
    (hd : ∀ c', c.Works c' → P c' → c'.Does (f :: fs) Q) : c.Does (f :: fs) Q := by
  refine .wait ⟨f, fs, c, f, rfl, h⟩ ?_ ?_
  · obtain ⟨c', hc', hp⟩ := hwake
    exact ⟨(c', f :: fs), ⟨c, f, f, fs, c', rfl, h, hc', rfl⟩, fun hs => (hgo c' hc').1 hs hp⟩
  · rintro σ' ⟨c₁, f₁, f', fs', c', hst, hx, hc', rfl⟩ hawake
    obtain ⟨rfl, rfl⟩ := List.cons_eq_cons.1 hst
    obtain ⟨rfl, hf⟩ := Prod.mk.inj (h.symm.trans hx)
    cases hf
    exact hd c' hc' (not_not.1 fun hp => hawake ((hgo c' hc').2 hp))

theorem asleep_iff : Asleep (c, f :: fs) ↔ ∃ f', (c.exec .go f).2 = .sleep f' := by
  constructor
  · rintro ⟨f₁, fs₁, c₁, f', hst, hx⟩
    obtain ⟨rfl, rfl⟩ := List.cons_eq_cons.1 hst
    exact ⟨f', congrArg Prod.snd hx⟩
  · rintro ⟨f', hx⟩
    exact ⟨f, fs, (c.exec .go f).1, f', rfl, Prod.ext rfl hx⟩

/-! ## The drivers -/

/-- What the drivers may have done. -/
structure Worked (c c' : Cache α n) : Prop where
  queues : c'.toQueues = c.toQueues
  count : c'.bCount = c.bCount
  dirt : c'.bDirt = c.bDirt
  requestFn : c'.requestFn = c.requestFn
  lock : ∀ b, c'.bLock b = true →
    c.bLock b = true ∧ c'.queued b = c.queued b ∧ c'.bUptodate b = c.bUptodate b
  queued : ∀ b, c'.queued b ≤ c.queued b
  uptodate : ∀ b, c.queued b = 0 → c'.bUptodate b = c.bUptodate b
  request : ∀ m, ∀ r' ∈ c'.currentRequest m, ∃ r ∈ c.currentRequest m,
    r'.slot = r.slot ∧ r'.bh = r.bh ∧ r'.cmd = r.cmd
  locked : (∀ b, c.queued b ≤ (c.bLock b).toNat) → ∀ b, c'.queued b ≤ (c'.bLock b).toNat

theorem Worked.trans {c₁ c₂ c₃ : Cache α n} (h : Worked c₁ c₂) (h' : Worked c₂ c₃) :
    Worked c₁ c₃ where
  queues := h'.queues.trans h.queues
  count := h'.count.trans h.count
  dirt := h'.dirt.trans h.dirt
  requestFn := h'.requestFn.trans h.requestFn
  lock b hb := by
    obtain ⟨h1, h2, h3⟩ := h'.lock b hb
    obtain ⟨h4, h5, h6⟩ := h.lock b h1
    exact ⟨h4, h2.trans h5, h3.trans h6⟩
  queued b := (h'.queued b).trans (h.queued b)
  uptodate b hb := (h'.uptodate b (Nat.le_zero.1 (hb ▸ h.queued b))).trans (h.uptodate b hb)
  request m r hr := by
    obtain ⟨r₂, hr₂, h1, h2, h3⟩ := h'.request m r hr
    obtain ⟨r₁, hr₁, h4, h5, h6⟩ := h.request m r₂ hr₂
    exact ⟨r₁, hr₁, h1.trans h4, h2.trans h5, h3.trans h6⟩
  locked hb := h'.locked (h.locked hb)

/-- The current request changes, but not what it is for. -/
theorem worked_setQueue {d : Cache α n} {r r' : Request n} {rs : List (Request n)}
    (hq : c.currentRequest m = r :: rs) (hr : r'.slot = r.slot ∧ r'.bh = r.bh ∧ r'.cmd = r.cmd)
    (hqueues : d.toQueues = c.toQueues) (hcount : d.bCount = c.bCount) (hdirt : d.bDirt = c.bDirt)
    (hfn : d.requestFn = c.requestFn) (hlock : d.bLock = c.bLock)
    (huptodate : d.bUptodate = c.bUptodate) (hcur : d.currentRequest = c.currentRequest) :
    Worked c (d.setQueue m (r' :: rs)) := by
  have hqueued : ∀ b, (d.setQueue m (r' :: rs)).queued b = c.queued b := by
    intro b
    have hs := d.queued_setQueue m (r' :: rs) b
    rw [hcur, hq, List.countP_cons, List.countP_cons, hr.2.1] at hs
    have hdq : d.queued b = c.queued b := by
      unfold queued
      rw [hcur]
    omega
  refine ⟨hqueues, hcount, hdirt, hfn, fun b hb => ⟨hlock ▸ hb, hqueued b, congrFun huptodate b⟩,
    fun b => (hqueued b).le, fun b _ => congrFun huptodate b, ?_, fun hl b => ?_⟩
  · intro m' x hx
    change x ∈ Function.update d.currentRequest m _ m' at hx
    by_cases hm : m' = m
    · subst hm
      rw [Function.update_self] at hx
      rcases List.mem_cons.1 hx with rfl | hx
      · exact ⟨r, hq ▸ List.mem_cons_self, hr⟩
      · exact ⟨x, hq ▸ List.mem_cons_of_mem _ hx, rfl, rfl, rfl⟩
    · rw [Function.update_of_ne hm, hcur] at hx
      exact ⟨x, hx, rfl, rfl, rfl⟩
  · rw [hqueued]
    change c.queued b ≤ (d.bLock b).toNat
    rw [hlock]
    exact hl b

theorem worked_transfer (h : c.transfer m = some c') : Worked c c' := by
  unfold transfer at h
  split at h
  · cases h
  · next r rs hq =>
    split at h
    · cases h
    · dsimp only at h
      cases hcmd : r.cmd with
      | read =>
        rw [hcmd] at h
        cases h
        exact worked_setQueue hq ⟨rfl, rfl, hcmd.symm⟩ rfl rfl rfl rfl rfl rfl rfl
      | write =>
        rw [hcmd] at h
        cases h
        exact worked_setQueue hq ⟨rfl, rfl, hcmd.symm⟩ rfl rfl rfl rfl rfl rfl rfl

theorem worked_endRequest {uptodate : Bool} (h : c.endRequest m uptodate = some c') :
    Worked c c' := by
  unfold endRequest at h
  split at h
  · cases h
  · next r rs hq =>
    split at h
    · cases h
    · cases h
      obtain ⟨d, hd⟩ : ∃ d, d = (c.setUptodate r.bh uptodate).setLock r.bh false := ⟨_, rfl⟩
      have hqueued : ∀ b, (d.setQueue m rs).queued b + (if r.bh = b then 1 else 0) = c.queued b := by
        intro b
        have hs := d.queued_setQueue m rs b
        have hdq : d.queued b = c.queued b := by rw [hd]; rfl
        have hdm : d.currentRequest m = r :: rs := by rw [hd]; exact hq
        rw [hdm, List.countP_cons] at hs
        simp only [decide_eq_true_eq] at hs
        omega
      have hlock : ∀ b, d.bLock b = if b = r.bh then false else c.bLock b := by
        intro b
        rw [hd]
        by_cases hb : b = r.bh
        · rw [hb, if_pos rfl]
          exact Function.update_self _ _ _
        · rw [if_neg hb]
          exact Function.update_of_ne hb _ _
      rw [← hd]
      refine ⟨by rw [hd]; rfl, by rw [hd]; rfl, by rw [hd]; rfl, by rw [hd]; rfl, fun b hb => ?_,
        fun b => ?_, fun b hb => ?_, ?_, fun hl b => ?_⟩
      · change d.bLock b = true at hb
        rw [hlock] at hb
        have hbr : b ≠ r.bh := by
          rintro rfl
          rw [if_pos rfl] at hb
          cases hb
        rw [if_neg hbr] at hb
        have hs := hqueued b
        rw [if_neg (Ne.symm hbr)] at hs
        refine ⟨hb, hs, ?_⟩
        rw [hd]
        exact Function.update_of_ne hbr _ _
      · have := hqueued b
        omega
      · have hbr : b ≠ r.bh := by
          rintro rfl
          exact queued_eq_zero hb m r (hq ▸ List.mem_cons_self) rfl
        rw [hd]
        exact Function.update_of_ne hbr _ _
      · intro m' r' hr'
        change r' ∈ Function.update d.currentRequest m rs m' at hr'
        by_cases hm : m' = m
        · subst hm
          rw [Function.update_self] at hr'
          exact ⟨r', hq ▸ List.mem_cons_of_mem _ hr', rfl, rfl, rfl⟩
        · rw [Function.update_of_ne hm, hd] at hr'
          exact ⟨r', hr', rfl, rfl, rfl⟩
      · have hs := hqueued b
        have hb := hl b
        change _ ≤ (d.bLock b).toNat
        rw [hlock]
        by_cases hbr : b = r.bh
        · subst hbr
          rw [if_pos rfl] at hs ⊢
          have := Bool.toNat_le (c.bLock r.bh)
          simp only [Bool.toNat_false]
          omega
        · rw [if_neg (Ne.symm hbr)] at hs
          rw [if_neg hbr]
          omega

theorem Works.worked (h : c.Works c') : Worked c c' := by
  induction h with
  | refl => exact ⟨rfl, rfl, rfl, rfl, fun _ hb => ⟨hb, rfl, rfl⟩, fun _ => le_rfl, fun _ _ => rfl,
      fun m r hr => ⟨r, hr, rfl, rfl, rfl⟩, fun h => h⟩
  | tail _ h ih =>
    obtain ⟨m, h | ⟨uptodate, h⟩⟩ := h
    · exact ih.trans (worked_transfer h)
    · exact ih.trans (worked_endRequest h)

/-- The drivers may come to the request for a buffer. -/
theorem works_unlock (h : c.queued b ≠ 0) : ∃ c', c.Works c' ∧ c'.bLock b = false := by
  obtain ⟨m, -, hm⟩ := Finset.exists_ne_zero_of_sum_ne_zero h
  obtain ⟨r, hr, hb⟩ := List.countP_pos_iff.1 (Nat.pos_of_ne_zero hm)
  replace hb : r.bh = b := of_decide_eq_true hb
  obtain ⟨l, hl⟩ : ∃ l, c.currentRequest m = l := ⟨_, rfl⟩
  rw [hl] at hr
  clear h hm
  induction l generalizing c with
  | nil => cases hr
  | cons a l ih =>
    obtain ⟨c₁, hc₁⟩ : ∃ c₁, c₁ = ((c.setUptodate a.bh false).setLock a.bh false).setQueue m l :=
      ⟨_, rfl⟩
    have hend : c.endRequest m false = some c₁ := by
      unfold endRequest
      rw [hl, hc₁]
      rfl
    by_cases hab : a.bh = b
    · refine ⟨c₁, .single ⟨m, .inr ⟨false, hend⟩⟩, ?_⟩
      rw [hc₁, ← hab]
      exact Function.update_self _ _ _
    · have hrl : r ∈ l := by
        rcases List.mem_cons.1 hr with rfl | hr
        · exact absurd hb hab
        · exact hr
      obtain ⟨c', hc', hlock⟩ := ih (c := c₁) hrl (by rw [hc₁]; exact Function.update_self _ _ _)
      exact ⟨c', .head ⟨m, .inr ⟨false, hend⟩⟩ hc', hlock⟩

end Cache

/-! ## The buffer of a block -/

namespace Queues

variable {q : Queues n} {dev : Dev} {block : Block} {b : Fin n}

theorem findFrom_mem {l : List (Fin n)} {p : Option (Fin n)} {k : ℕ} (hs : Seg q.bNext q.bPrev p l none)
    (h : q.findFrom dev block k l.head? = some b) : b ∈ l := by
  induction l generalizing p k with
  | nil =>
    cases k <;> cases h
  | cons x l ih =>
    cases k with
    | zero => cases h
    | succ k =>
      obtain ⟨-, h2, h3⟩ := hs
      rw [Option.or_none] at h2
      unfold findFrom at h
      dsimp only [List.head?_cons] at h
      split at h
      · cases h
        exact List.mem_cons_self
      · rw [h2] at h
        exact List.mem_cons_of_mem _ (ih h3 h)

/-- `find_buffer` finds the buffer that carries the block, if there is a device. -/
theorem Inv.findBuffer_iff (h : Inv q) :
    q.findBuffer dev block = some b ↔ dev ≠ 0 ∧ q.Carries b dev block := by
  constructor
  · intro hf
    have hc := findBuffer_eq_some hf
    obtain ⟨chain, hchain⟩ := h.chains
    unfold findBuffer at hf
    rw [hchain.head] at hf
    have hmem := findFrom_mem (hchain.seg _) hf
    exact ⟨hc.1 ▸ ((hchain.mem _ b).1 hmem).1, hc⟩
  · rintro ⟨hd, hc⟩
    cases hf : q.findBuffer dev block with
    | none => exact absurd hc (h.findBuffer_none hd hf b)
    | some b' =>
      obtain ⟨rfl, rfl⟩ := hc
      rw [h.unique b b' hd (findBuffer_eq_some hf)]

theorem FreeRing.unique {l l' : List (Fin n)} (h : FreeRing q l) (h' : FreeRing q l') : l = l' := by
  have hlen : l.length = l'.length := by
    have hperm := (List.perm_ext_iff_of_nodup h.nodup h'.nodup).2 fun b =>
      iff_of_true (h.mem b) (h'.mem b)
    exact hperm.length_eq
  exact h.ring.unique h'.ring (h.head.trans h'.head.symm) hlen

end Queues

namespace Cache

variable {c c' : Cache α n} {f f' g : Frame n} {fs : List (Frame n)} {v : Option (Fin n)}
  {Q R : Cache α n → List (Frame n) → Prop} {dev : Dev} {block : Block} {b bh tmp : Fin n}
  {m : Fin 7} {rw : Rw}

/-- The first unused buffer of the free list. -/
def Victim (c : Cache α n) (b : Fin n) : Prop :=
  ∃ xs ys, c.FreeRing (xs ++ b :: ys) ∧ c.Unused b ∧ ∀ x ∈ xs, ¬ c.Unused x

theorem Victim.unique (h : c.Victim b) (h' : c.Victim bh) : b = bh := by
  obtain ⟨xs, ys, hl, hb, hxs⟩ := h
  obtain ⟨xs', ys', hl', hb', hxs'⟩ := h'
  have he := hl.unique hl'
  clear hl hl'
  induction xs generalizing xs' with
  | nil =>
    cases xs' with
    | nil => exact (List.cons_eq_cons.1 he).1
    | cons x xs' => exact absurd ((List.cons_eq_cons.1 he).1 ▸ hb) (hxs' x List.mem_cons_self)
  | cons x xs ih =>
    cases xs' with
    | nil => exact absurd ((List.cons_eq_cons.1 he).1 ▸ hb') (hxs x List.mem_cons_self)
    | cons y xs' =>
      exact ih (fun z hz => hxs z (List.mem_cons_of_mem _ hz)) xs'
        (fun z hz => hxs' z (List.mem_cons_of_mem _ hz)) (List.cons_eq_cons.1 he).2

instance : Decidable (c.Unused b) := inferInstanceAs (Decidable (_ ∧ _ ∧ _))

theorem exists_victim (h : c.toQueues.Inv) (hb : c.Unused b) : ∃ b, c.Victim b := by
  obtain ⟨l, hl⟩ := h.ring
  cases hf : l.find? (fun b => decide (c.Unused b)) with
  | none => exact absurd hb (by simpa using List.find?_eq_none.1 hf b (hl.mem b))
  | some v =>
    obtain ⟨hv, xs, ys, rfl, hxs⟩ := List.find?_eq_some_iff_append.1 hf
    exact ⟨v, xs, ys, hl, of_decide_eq_true hv, fun x hx => by simpa using hxs x hx⟩

/-- The loop of `getblk` stops at the first unused buffer. -/
theorem scan_does {xs zs ys : List (Fin n)} {cand : Option (Fin n)}
    (hl : c.FreeRing (zs ++ (xs ++ b :: ys))) (hb : c.Unused b) (hxs : ∀ x ∈ xs, ¬ c.Unused x)
    (hcand : ∀ x, cand = some x → c.badness x ≠ 0) (htmp : (xs ++ b :: ys).head? = some tmp)
    (hd : c.Does (.getblk dev block (.victim b) :: fs) Q) :
    c.Does (.getblk dev block (.scan tmp cand) :: fs) Q := by
  induction xs generalizing zs tmp cand with
  | nil =>
    obtain rfl : b = tmp := Option.some.inj htmp
    obtain ⟨hcount, hdirt, hlock⟩ := hb
    have hbad : c.badness b = 0 := by
      unfold badness
      rw [hdirt, hlock]
      rfl
    have hbetter : c.better b cand = (some b, true) := by
      unfold better
      rw [if_neg (not_not.2 hcount)]
      cases cand with
      | none => simp [hbad]
      | some x =>
        have hx := hcand x rfl
        simp [hbad, Nat.pos_of_ne_zero hx]
    refine does_goto ?_ hd
    simp only [exec, getblk, hbetter]
    rfl
  | cons x xs ih =>
    obtain rfl : x = tmp := Option.some.inj htmp
    have hx := hxs x List.mem_cons_self
    obtain ⟨y, hy⟩ : ∃ y, (xs ++ b :: ys).head? = some y := by
      cases xs with
      | nil => exact ⟨b, rfl⟩
      | cons a xs => exact ⟨a, rfl⟩
    have hring : (zs ++ x :: (xs ++ b :: ys)) = (zs ++ [x]) ++ (xs ++ b :: ys) := by simp
    have hnext : c.bNextFree x = some y := by
      have h2 : c.bNextFree x =
          (xs ++ b :: ys).head?.or (zs ++ (x :: xs ++ b :: ys)).head? := (Seg.middle hl.ring).2
      rw [h2, hy]
      rfl
    have hlast : some y ≠ some c.freeList := by
      rw [← hl.head, ← hy]
      intro he
      have hnd := hl.nodup
      have hmem : y ∈ xs ++ b :: ys := List.mem_of_mem_head? hy
      have hfst : y ∈ zs ++ [x] := by
        rw [hy] at he
        cases zs with
        | nil => exact List.mem_singleton.2 (Option.some.inj he)
        | cons z zs =>
          rw [Option.some.inj he]
          exact List.mem_cons_self
      rw [List.cons_append, hring] at hnd
      exact List.disjoint_of_nodup_append hnd hfst hmem
    obtain ⟨cand', hbetter, hcand'⟩ : ∃ cand', c.better x cand = (cand', false) ∧
        ∀ z, cand' = some z → c.badness z ≠ 0 := by
      unfold better
      split_ifs with hcount
      · exact ⟨cand, rfl, hcand⟩
      · have hbad : c.badness x ≠ 0 := by
          intro h0
          unfold badness at h0
          refine hx ⟨not_not.1 hcount, ?_, ?_⟩
          · cases hd : c.bDirt x with
            | false => rfl
            | true => rw [hd] at h0; simp at h0
          · cases hd : c.bLock x with
            | false => rfl
            | true => rw [hd] at h0; simp at h0
        cases cand with
        | none => exact ⟨some x, by simp [hbad], fun z hz => Option.some.inj hz ▸ hbad⟩
        | some z =>
          dsimp only
          split_ifs
          · exact ⟨some x, by simp [hbad], fun z hz => Option.some.inj hz ▸ hbad⟩
          · exact ⟨some z, rfl, hcand⟩
    refine does_goto (r := .getblk dev block (.scan y cand')) ?_
      (ih (show c.FreeRing ((zs ++ [x]) ++ (xs ++ b :: ys)) by rw [← hring]; exact hl) (fun z hz => hxs z (List.mem_cons_of_mem _ hz))
        hcand' hy)
    simp only [exec, getblk, hbetter, hnext]
    rw [if_pos ⟨trivial, hlast⟩]

/-- `getblk` of a block that is in the cache may sleep, if its buffer is locked. -/
theorem getblk_found (hinv : c.toQueues.Inv) (hf : c.findBuffer dev block = some b)
    (hwake : c.bLock b = true → c.queued b ≠ 0)
    (hd : ∀ c', (c.setCount b (c.bCount b + 1)).Works c' → c'.bLock b = false →
      (c.bLock b = false → c' = c.setCount b (c.bCount b + 1)) →
      c'.Does (g.receive (some b) :: fs) Q) :
    c.Does (.getblk dev block .atRepeat :: g :: fs) Q := by
  obtain ⟨-, hcarries⟩ := hinv.findBuffer_iff.1 hf
  obtain ⟨d, hdef⟩ : ∃ d, d = c.setCount b (c.bCount b + 1) := ⟨_, rfl⟩
  rw [← hdef] at hd
  have hret : ∀ c', d.Works c' → c'.bLock b = false → c'.Does (g.receive (some b) :: fs) Q →
      c'.Does (.getHashTable dev block (.wait b) :: .getblk dev block .hash :: g :: fs) Q := by
    intro c' hc' hl hq
    have hcar : c'.Carries b dev block := by
      rw [hc'.worked.queues, hdef]
      exact hcarries
    refine does_ret (v := some b) ?_ (does_ret (f := .getblk dev block (.ret b)) rfl hq)
    simp only [exec, getHashTable]
    rw [if_neg (by rw [hl]; exact Bool.false_ne_true), if_pos hcar]
  refine does_call (r := .getblk dev block .hash) (g := .getHashTable dev block .find) rfl ?_
  refine does_goto (e := d) (r := .getHashTable dev block (.wait b)) ?_ ?_
  · simp only [exec, getHashTable, hf]
    rw [hdef]
  cases hl : c.bLock b with
  | false =>
    have hld : d.bLock b = false := by rw [hdef]; exact hl
    exact hret d .refl hld (hd d .refl hld fun _ => rfl)
  | true =>
    have hld : d.bLock b = true := by rw [hdef]; exact hl
    refine does_sleep ?_ (fun c' => c'.bLock b = false) ?_ ?_ ?_
    · simp only [exec, getHashTable]
      rw [if_pos hld]
    · refine works_unlock ?_
      rw [hdef]
      exact hwake hl
    · intro c' hc'
      have hcar : c'.Carries b dev block := by
        rw [hc'.worked.queues, hdef]
        exact hcarries
      rw [asleep_iff]
      simp only [exec, getHashTable]
      cases hl' : c'.bLock b with
      | false =>
        rw [if_neg Bool.false_ne_true, if_pos hcar]
        refine iff_of_false (fun hgo => ?_) (not_not.2 rfl)
        obtain ⟨_, h⟩ := hgo
        cases h
      | true =>
        rw [if_pos rfl]
        exact iff_of_true ⟨_, rfl⟩ Bool.noConfusion
    · intro c' hc' hl'
      refine hret c' hc' hl' (hd c' hc' hl' fun h0 => ?_)
      rw [hl] at h0
      cases h0

/-- `getblk` of a block that is not in the cache takes the first unused buffer. -/
theorem getblk_missing (hinv : c.toQueues.Inv) (hf : c.findBuffer dev block = none) (hv : c.Victim b)
    (hd : ∀ c', c.reassign b dev block = some c' → c'.Does (g.receive (some b) :: fs) Q) :
    c.Does (.getblk dev block .atRepeat :: g :: fs) Q := by
  obtain ⟨xs, ys, hl, hb, hxs⟩ := hv
  obtain ⟨c', hc'⟩ : ∃ c', c.reassign b dev block = some c' := by
    obtain ⟨q, hq, -⟩ := hinv.move hf (b := b)
    refine ⟨{ ((c.setCount b 1).setDirt b false).setUptodate b false with toQueues := q }, ?_⟩
    unfold reassign
    dsimp only
    rw [show (((c.setCount b 1).setDirt b false).setUptodate b false).toQueues.move b dev block =
      some q from hq]
  refine does_call (r := .getblk dev block .hash) (g := .getHashTable dev block .find) rfl ?_
  refine does_ret (e := c) (v := none) ?_ ?_
  · simp only [exec, getHashTable, hf]
  refine does_goto (r := .getblk dev block (.scan c.freeList none)) rfl ?_
  refine scan_does (show c.FreeRing ([] ++ (_ ++ b :: _)) from hl) hb hxs
    (fun _ hx => by cases hx) hl.head ?_
  obtain ⟨hcount, hdirt, hlock⟩ := hb
  refine does_goto (e := c') (r := .getblk dev block (.ret b)) ?_ (does_ret rfl (hd c' hc'))
  simp [exec, getblk, hcount, hdirt, hlock, hf, hc']

/-- What `ll_rw_block` makes of a read of `bh`: nothing, or a request. -/
def Asked (c : Cache α n) (bh : Fin n) (c' : Cache α n) : Prop :=
  c' = c ∧ (¬ c.HasDriver (c.bDev bh) ∨ c.bLock bh = true ∨ c.bUptodate bh = true) ∨
    c.HasDriver (c.bDev bh) ∧ c.bLock bh = false ∧ c.bUptodate bh = false ∧
      ∃ m k, c.slotFree k = true ∧
        c' = (c.setLock bh true).addRequest m ((c.setLock bh true).request k .read bh)

/-- A buffer that is up to date or locked is not asked for again. -/
theorem Asked.eq (h : c.Asked bh c')
    (ha : c.HasDriver (c.bDev bh) → c.bUptodate bh = true ∨ c.bLock bh = true) : c' = c := by
  rcases h with ⟨h, -⟩ | ⟨hdrv, hl, hu, -⟩
  · exact h
  · rw [hl, hu] at ha
    exact absurd (ha hdrv) (by simp)

theorem slots_does {k : ℕ} (hcmd : rw.cmd = .read) (hk : ∃ j < k, c.slotFree j = true)
    (hd : ∀ j, c.slotFree j = true →
      (c.addRequest m (c.request j .read bh)).Does (g.receive none :: fs) Q) :
    c.Does (.makeRequest m rw bh (.scan k) :: g :: fs) Q := by
  induction k with
  | zero =>
    obtain ⟨j, hj, -⟩ := hk
    exact absurd hj (Nat.not_lt_zero _)
  | succ k ih =>
    cases hfree : c.slotFree k with
    | true =>
      refine does_ret ?_ (hd k hfree)
      simp only [exec, makeRequest]
      rw [if_pos hfree, hcmd]
    | false =>
      obtain ⟨j, hj, hfj⟩ := hk
      have hjk : j ≠ k := by
        rintro rfl
        rw [hfree] at hfj
        cases hfj
      refine does_goto (e := c) (r := .makeRequest m rw bh (.scan k)) ?_ (ih ⟨j, by omega, hfj⟩)
      simp only [exec, makeRequest]
      rw [if_neg (by rw [hfree]; exact Bool.false_ne_true)]

theorem read_does (hcmd : rw.cmd = .read) (hlock : c.bLock bh = true → rw.ahead = true)
    (hslot : c.bLock bh = false → ∃ k < 32, c.slotFree k = true)
    (hd : ∀ c', c.Asked bh c' → c'.Does (g.receive none :: fs) Q) :
    c.Does (.llRwBlock rw bh :: g :: fs) Q := by
  by_cases hdr : c.HasDriver (c.bDev bh)
  · obtain ⟨hm, hfn⟩ := hdr
    refine does_goto (e := c) (r := .makeRequest ⟨major (c.bDev bh), hm⟩ rw bh .start) ?_ ?_
    · simp only [exec, llRwBlock]
      rw [dif_pos hm, if_pos hfn]
    cases hl : c.bLock bh with
    | true =>
      refine does_ret (e := c) (v := none) ?_ (hd c (.inl ⟨rfl, .inr (.inl hl)⟩))
      simp only [exec, makeRequest]
      rw [if_pos ⟨hlock hl, hl⟩]
    | false =>
      have hnl : ¬ c.bLock bh = true := by rw [hl]; exact Bool.false_ne_true
      refine does_goto (e := c) (r := .makeRequest ⟨major (c.bDev bh), hm⟩ rw bh .lock) ?_ ?_
      · simp only [exec, makeRequest]
        rw [if_neg fun h => hnl h.2]
      cases hu : c.bUptodate bh with
      | true =>
        refine does_ret (e := c) (v := none) ?_ (hd c (.inl ⟨rfl, .inr (.inr hu)⟩))
        simp only [exec, makeRequest]
        rw [if_neg hnl, if_pos (.inr ⟨hcmd, hu⟩)]
      | false =>
        refine does_goto (e := c.setLock bh true)
          (r := .makeRequest ⟨major (c.bDev bh), hm⟩ rw bh (.scan 32)) ?_ ?_
        · simp only [exec, makeRequest]
          rw [if_neg hnl, if_neg (by simp [hcmd, hu]), hcmd]
          rfl
        · refine slots_does hcmd (hslot hl) fun j hj => hd _ ?_
          exact .inr ⟨⟨hm, hfn⟩, hl, hu, _, j, hj, rfl⟩
  · refine does_ret (e := c) (v := none) ?_ (hd c (.inl ⟨rfl, .inl hdr⟩))
    simp only [exec, llRwBlock]
    split_ifs with hm hfn
    · exact absurd ⟨hm, hfn⟩ hdr
    · rfl
    · rfl

/-! ## The loop -/

/-- What holds of a cache outside of all steps. -/
structure Steady (c : Cache α n) : Prop where
  queues : c.toQueues.Inv
  queued : ∀ b, c.queued b ≤ (c.bLock b).toNat
  noDev : c.requestFn 0 = false
  count : ∀ b, c.bCount b ≠ 255

/-- So do the caches of the disciplined system. -/
theorem steady_of_stored {s : State α n} (h : s.Stored) : s.cache.Steady where
  queues := h.coherent.queues
  queued b := (Nat.le_add_left _ _).trans (h.lock b).le
  noDev := h.contents.noDev
  count := h.count_max

/-- Nothing has to be waited for, and nothing to be written. -/
structure Enough (c : Cache α n) (dev : Dev) (blocks : List Block) : Prop where
  slot : ∃ k < 32, c.slotFree k = true
  buffers : ∃ u v, u ≠ v ∧ c.Unused u ∧ c.Unused v
  unlocked : ∀ block ∈ blocks, ∀ b, c.findBuffer dev block = some b → c.bLock b = false

/-- The block is up to date in the cache. -/
def Up (c : Cache α n) (dev : Dev) (block : Block) : Prop :=
  ∃ b, c.findBuffer dev block = some b ∧ c.bUptodate b = true

/-- The block is up to date, or a read of it is queued. -/
def Served (c : Cache α n) (dev : Dev) (block : Block) : Prop :=
  ∃ b, c.findBuffer dev block = some b ∧
    (c.bUptodate b = true ∨ ∃ m, ∃ r ∈ c.currentRequest m, r.bh = b ∧ r.cmd = .read)

/-- The block is up to date, in a buffer that is not needed for the first block. -/
def Holds (c : Cache α n) (dev : Dev) (first block : Block) : Prop :=
  ∃ b, c.findBuffer dev block = some b ∧ c.bUptodate b = true ∧
    (c.findBuffer dev first = none → ¬ c.Victim b)

/-- The block need not be read, or it is the first block. -/
def Ready (c : Cache α n) (dev : Dev) (first block : Block) : Prop :=
  c.Holds dev first block ∨ block = first ∧ c.HasDriver dev

/-- What the loop keeps, which was entered from `c` with the further blocks `l`. -/
structure Ahead (c : Cache α n) (dev : Dev) (first : Block) (l : List Block) (bh : Fin n)
    (d : Cache α n) : Prop where
  queues : d.toQueues.Inv
  queued : ∀ b, d.queued b ≤ (d.bLock b).toNat
  requestFn : d.requestFn = c.requestFn
  carries : d.Carries bh dev first
  lock : d.bLock bh = true → d.HasDriver dev ∧ d.queued bh ≠ 0 ∧ d.bUptodate bh = false
  reads : ∀ m, ∀ r ∈ d.currentRequest m, r.bh = bh → r.cmd = .read
  slot : ∃ k < 32, ∀ m, ∀ r ∈ d.currentRequest m, r.slot = k → r.bh = bh
  spare : ∃ u, u ≠ bh ∧ d.Unused u
  locked : ∀ b, b ≠ bh → d.bLock b = true → c.bLock b = true ∧ c.Carries b (d.bDev b) (d.bBlocknr b)
  /-- What is up to date was it before. -/
  up : ∀ block ∈ l, (block = first → ¬ c.HasDriver dev) → d.Up dev block → c.Holds dev first block
  /-- What was up to date still is, if it all was. -/
  held : (∀ block ∈ l, c.Ready dev first block) →
    ∀ block ∈ l, c.Holds dev first block → d.Up dev block

section Loop

variable {d d' : Cache α n} {first : Block} {l rest : List Block}

theorem hasDriver_congr (h : c'.requestFn = c.requestFn) : c'.HasDriver dev ↔ c.HasDriver dev := by
  unfold HasDriver
  rw [h]

theorem Ahead.hasDriver (h : Ahead c dev first l bh d) : d.HasDriver dev ↔ c.HasDriver dev :=
  hasDriver_congr h.requestFn

/-- A buffer of the further blocks is not locked, unless it is that of the first block. -/
theorem Ahead.unlocked (h : Ahead c dev first l bh d) (hc : c.Steady)
    (he : c.Enough dev (first :: l)) (hblock : block ∈ l) (hf : d.findBuffer dev block = some b)
    (hb : b ≠ bh) : d.bLock b = false := by
  obtain ⟨hdev, rfl, rfl⟩ := h.queues.findBuffer_iff.1 hf
  by_contra hl
  obtain ⟨hcl, hcar⟩ := h.locked b hb (Bool.not_eq_false _ ▸ hl)
  have hfc := hc.queues.findBuffer_iff.2 ⟨hdev, hcar⟩
  exact absurd (he.unlocked _ (List.mem_cons_of_mem _ hblock) b hfc) (by rw [hcl]; nofun)

theorem Ahead.works (h : Ahead c dev first l bh d) (hc : c.Steady) (he : c.Enough dev (first :: l))
    (hw : d.Works d') : Ahead c dev first l bh d' := by
  have hw := hw.worked
  have hdrv : d'.HasDriver dev ↔ d.HasDriver dev := hasDriver_congr hw.requestFn
  have hfind : ∀ block, d'.findBuffer dev block = d.findBuffer dev block := by
    intro block
    rw [hw.queues]
  -- nothing is read into the buffers of the further blocks, unless into that of the first
  have hup : ∀ block ∈ l, ∀ b, d.findBuffer dev block = some b → b ≠ bh →
      d'.bUptodate b = d.bUptodate b := by
    intro block hblock b hf hb
    refine hw.uptodate b (Nat.le_zero.1 ((h.queued b).trans ?_))
    rw [h.unlocked hc he hblock hf hb]
    rfl
  have hfirst : ∀ block, d.findBuffer dev block = some bh → block = first := by
    intro block hf
    exact (h.queues.findBuffer_iff.1 hf).2.2.symm.trans h.carries.2
  refine ⟨hw.queues ▸ h.queues, hw.locked h.queued, hw.requestFn.trans h.requestFn,
    hw.queues ▸ h.carries, fun hl => ?_, fun m r hr hb => ?_, ?_, ?_, fun b hb hl => ?_, ?_, ?_⟩
  · obtain ⟨hl, hq, hu⟩ := hw.lock bh hl
    obtain ⟨h1, h2, h3⟩ := h.lock hl
    exact ⟨hdrv.2 h1, hq ▸ h2, hu.trans h3⟩
  · obtain ⟨r₁, hr₁, -, h2, h3⟩ := hw.request m r hr
    exact h3.trans (h.reads m r₁ hr₁ (h2.symm.trans hb))
  · obtain ⟨k, hk, hslot⟩ := h.slot
    refine ⟨k, hk, fun m r hr hrk => ?_⟩
    obtain ⟨r₁, hr₁, h1, h2, -⟩ := hw.request m r hr
    exact h2.trans (hslot m r₁ hr₁ (h1.symm.trans hrk))
  · obtain ⟨u, hu, hcount, hdirt, hlock⟩ := h.spare
    refine ⟨u, hu, hw.count ▸ hcount, hw.dirt ▸ hdirt, ?_⟩
    by_contra hl
    have := (hw.lock u (Bool.not_eq_false _ ▸ hl)).1
    rw [hlock] at this
    cases this
  · rw [hw.queues]
    exact h.locked b hb (hw.lock b hl).1
  · rintro block hblock hno ⟨b, hf, hu⟩
    rw [hfind] at hf
    refine h.up block hblock hno ⟨b, hf, ?_⟩
    by_cases hb : b = bh
    · subst hb
      have hnl : d.bLock b = false := by
        by_contra hl
        exact hno (hfirst block hf) (h.hasDriver.1 (h.lock (Bool.not_eq_false _ ▸ hl)).1)
      rw [← hw.uptodate b (Nat.le_zero.1 ((h.queued b).trans (by rw [hnl]; rfl)))]
      exact hu
    · rw [← hup block hblock b hf hb]
      exact hu
  · intro hall block hblock hholds
    obtain ⟨b, hf, hu⟩ := h.held hall block hblock hholds
    refine ⟨b, (hfind block).trans hf, ?_⟩
    by_cases hb : b = bh
    · subst hb
      have hnl : d.bLock b = false := by
        by_contra hl
        rw [(h.lock (Bool.not_eq_false _ ▸ hl)).2.2] at hu
        cases hu
      rw [hw.uptodate b (Nat.le_zero.1 ((h.queued b).trans (by rw [hnl]; rfl)))]
      exact hu
    · rw [hup block hblock b hf hb]
      exact hu

/-- The count of the first block's buffer is no matter. -/
theorem Ahead.setCount (h : Ahead c dev first l bh d) (k : BitVec 8) :
    Ahead c dev first l bh (d.setCount bh k) := by
  obtain ⟨u, hu, hcount, hdirt, hlock⟩ := h.spare
  refine ⟨h.queues, h.queued, h.requestFn, h.carries, h.lock, h.reads, h.slot, ⟨u, hu, ?_, hdirt, hlock⟩,
    h.locked, h.up, h.held⟩
  exact (Function.update_of_ne hu _ _).trans hcount

/-- An unlocked buffer has no request. -/
theorem queued_unlocked (hq : ∀ b, d.queued b ≤ (d.bLock b).toNat) (hl : d.bLock b = false) :
    ∀ m, ∀ r ∈ d.currentRequest m, r.bh ≠ b :=
  queued_eq_zero (Nat.le_zero.1 ((hq b).trans (by rw [hl]; rfl)))

theorem Ahead.slotFree (h : Ahead c dev first l bh d) (hl : d.bLock bh = false) :
    ∃ k < 32, d.slotFree k = true := by
  obtain ⟨k, hk, hslot⟩ := h.slot
  refine ⟨k, hk, decide_eq_true fun m r hr hrk => ?_⟩
  exact queued_unlocked h.queued hl m r hr (hslot m r hr hrk)

/-- A read of the first block may be asked for. -/
theorem Ahead.ask (h : Ahead c dev first l bh d) (ha : d.Asked bh d') :
    Ahead c dev first l bh d' ∧ d'.bCount = d.bCount ∧
      (d'.HasDriver dev → d'.bUptodate bh = true ∨ d'.bLock bh = true) := by
  rcases ha with ⟨rfl, ha⟩ | ⟨hdrv, hl, hu, m, k, -, rfl⟩
  · refine ⟨h, rfl, fun hdrv => ?_⟩
    rw [h.carries.1] at ha
    rcases ha with ha | ha | ha
    · exact absurd hdrv ha
    · exact .inr ha
    · exact .inl ha
  · obtain ⟨r, hr⟩ : ∃ r, r = (d.setLock bh true).request k .read bh := ⟨_, rfl⟩
    have hrb : r.bh = bh := by rw [hr]; rfl
    have hrc : r.cmd = .read := by rw [hr]; rfl
    rw [← hr]
    have hqueued : ∀ b, ((d.setLock bh true).addRequest m r).queued b =
        d.queued b + if bh = b then 1 else 0 := by
      intro b
      rw [queued_addRequest, hrb]
      rfl
    have hmem : ∀ m', ∀ x ∈ ((d.setLock bh true).addRequest m r).currentRequest m',
        x = r ∨ x ∈ d.currentRequest m' := by
      intro m' x hx
      by_cases hm : m' = m
      · subst hm
        exact List.mem_cons.1 (((d.setLock bh true).addRequest_perm m' r).mem_iff.1 hx)
      · exact .inr (by rwa [show ((d.setLock bh true).addRequest m r).currentRequest m' =
          d.currentRequest m' from Function.update_of_ne hm _ _] at hx)
    have hlock : ∀ b, b ≠ bh → ((d.setLock bh true).addRequest m r).bLock b = d.bLock b :=
      fun b hb => Function.update_of_ne hb _ _
    have hself : ((d.setLock bh true).addRequest m r).bLock bh = true := Function.update_self _ _ _
    rw [h.carries.1] at hdrv
    refine ⟨⟨h.queues, fun b => ?_, h.requestFn, h.carries, fun _ => ⟨hdrv, ?_, hu⟩, ?_, ?_, ?_,
      fun b hb hl => h.locked b hb ((hlock b hb).symm.trans hl), h.up, h.held⟩, rfl,
      fun _ => .inr hself⟩
    · rw [hqueued]
      by_cases hb : b = bh
      · subst hb
        have hzero := h.queued b
        rw [hl] at hzero
        rw [hself, if_pos rfl, Nat.le_zero.1 hzero]
        rfl
      · rw [if_neg (Ne.symm hb), hlock b hb]
        exact h.queued b
    · rw [hqueued, if_pos rfl]
      exact Nat.succ_ne_zero _
    · intro m' x hx hxb
      rcases hmem m' x hx with rfl | hx
      · exact hrc
      · exact h.reads m' x hx hxb
    · obtain ⟨k, hk, hslot⟩ := h.slot
      refine ⟨k, hk, fun m' x hx hxk => ?_⟩
      rcases hmem m' x hx with rfl | hx
      · exact hrb
      · exact hslot m' x hx hxk
    · obtain ⟨u, hub, hcount, hdirt, hlu⟩ := h.spare
      refine ⟨u, hub, hcount, ?_, (hlock u hub).trans hlu⟩
      refine (Function.update_of_ne ?_ _ _).trans hdirt
      rw [hrb]
      exact hub

/-- What `getblk` makes of a buffer. -/
theorem reassign_spec (hinv : c.toQueues.Inv) (hf : c.findBuffer dev block = none)
    (h : c.reassign b dev block = some c') :
    c'.toQueues.Inv ∧ c'.bDev = Function.update c.bDev b dev ∧
      c'.bBlocknr = Function.update c.bBlocknr b block ∧
      c'.bCount = Function.update c.bCount b 1 ∧ c'.bDirt = Function.update c.bDirt b false ∧
      c'.bUptodate = Function.update c.bUptodate b false ∧ c'.bLock = c.bLock ∧
      c'.requestFn = c.requestFn ∧ c'.currentRequest = c.currentRequest := by
  obtain ⟨q, hq, rfl⟩ := reassign_eq_some h
  obtain ⟨q', hq', hinv', hdev, hblock⟩ := hinv.move hf (b := b)
  obtain rfl : q = q' := Option.some.inj (hq.symm.trans hq')
  exact ⟨hinv', hdev, hblock, rfl, rfl, rfl, rfl, rfl, rfl⟩

/-- The buffers that are not given away, and are up to date, carry what they carried. -/
theorem up_reassign (hinv : c.toQueues.Inv) (hf : c.findBuffer dev block = none)
    (h : c.reassign bh dev block = some c') (dev' : Dev) (block' : Block) :
    (∃ b, c'.findBuffer dev' block' = some b ∧ c'.bUptodate b = true) ↔
      ∃ b, c.findBuffer dev' block' = some b ∧ c.bUptodate b = true ∧ b ≠ bh := by
  obtain ⟨hinv', hdev, hblock, -, -, hu, -, -, -⟩ := reassign_spec hinv hf h
  have hsame : ∀ b, b ≠ bh → (c'.findBuffer dev' block' = some b ↔ c.findBuffer dev' block' = some b) := by
    intro b hb
    rw [hinv'.findBuffer_iff, hinv.findBuffer_iff]
    unfold Queues.Carries
    rw [hdev, hblock, Function.update_of_ne hb, Function.update_of_ne hb]
  constructor
  · rintro ⟨b, hf', hb⟩
    have hne : b ≠ bh := by
      rintro rfl
      rw [hu, Function.update_self] at hb
      cases hb
    rw [hu, Function.update_of_ne hne] at hb
    exact ⟨b, (hsame b hne).1 hf', hb, hne⟩
  · rintro ⟨b, hf', hb, hne⟩
    refine ⟨b, (hsame b hne).2 hf', ?_⟩
    rw [hu, Function.update_of_ne hne]
    exact hb

/-- The loop is entered with the first block's buffer, which was in the cache. -/
theorem ahead_found (hc : c.Steady) (he : c.Enough dev (first :: l))
    (hf : c.findBuffer dev first = some bh) (k : BitVec 8) :
    Ahead c dev first l bh (c.setCount bh k) := by
  have hl : c.bLock bh = false := he.unlocked first List.mem_cons_self bh hf
  have hnone := queued_unlocked hc.queued hl
  refine ⟨hc.queues, hc.queued, rfl, (hc.queues.findBuffer_iff.1 hf).2, fun h => ?_,
    fun m r hr hb => absurd hb (hnone m r hr), ?_, ?_, fun b _ h => ⟨h, rfl, rfl⟩, ?_, ?_⟩
  · change c.bLock bh = true at h
    rw [hl] at h
    cases h
  · obtain ⟨k, hk, hslot⟩ := he.slot
    exact ⟨k, hk, fun m r hr hrk => absurd hrk (of_decide_eq_true hslot m r hr)⟩
  · obtain ⟨u, v, huv, hu, hv⟩ := he.buffers
    by_cases h : u = bh
    · have hvb : v ≠ bh := fun e => huv (h.trans e.symm)
      exact ⟨v, hvb, (Function.update_of_ne hvb _ _).trans hv.1, hv.2⟩
    · exact ⟨u, h, (Function.update_of_ne h _ _).trans hu.1, hu.2⟩
  · rintro block - - ⟨b, hb, hu⟩
    exact ⟨b, hb, hu, by rw [hf]; nofun⟩
  · rintro - block - ⟨b, hb, hu, -⟩
    exact ⟨b, hb, hu⟩

/-- The loop is entered with a buffer that `getblk` has taken. -/
theorem ahead_missing (hc : c.Steady) (he : c.Enough dev (first :: l))
    (hf : c.findBuffer dev first = none) (hv : c.Victim bh) (h : c.reassign bh dev first = some c') :
    Ahead c dev first l bh c' := by
  obtain ⟨hinv, hdev, hblock, hcount, hdirt, -, hlock, hfn, hcur⟩ := reassign_spec hc.queues hf h
  have hup := fun block => up_reassign hc.queues hf h dev block
  have hl : c.bLock bh = false := by
    obtain ⟨-, -, -, hu, -⟩ := hv
    exact hu.2.2
  have hqueued : ∀ b, c'.queued b = c.queued b := by
    intro b
    unfold queued
    rw [hcur]
  have hnone := queued_unlocked hc.queued hl
  refine ⟨hinv, fun b => ?_, hfn, ⟨?_, ?_⟩, fun h => ?_, fun m r hr hb => ?_, ?_, ?_, fun b hb h => ?_,
    ?_, ?_⟩
  · rw [hqueued, hlock]
    exact hc.queued b
  · rw [hdev, Function.update_self]
  · rw [hblock, Function.update_self]
  · rw [hlock, hl] at h
    cases h
  · rw [hcur] at hr
    exact absurd hb (hnone m r hr)
  · obtain ⟨k, hk, hslot⟩ := he.slot
    refine ⟨k, hk, fun m r hr hrk => ?_⟩
    rw [hcur] at hr
    exact absurd hrk (of_decide_eq_true hslot m r hr)
  · have hkeep : ∀ u, u ≠ bh → c.Unused u → c'.Unused u := by
      rintro u hu ⟨h1, h2, h3⟩
      refine ⟨?_, ?_, ?_⟩
      · rw [hcount, Function.update_of_ne hu]
        exact h1
      · rw [hdirt, Function.update_of_ne hu]
        exact h2
      · rw [hlock]
        exact h3
    obtain ⟨u, v, huv, hu, hv⟩ := he.buffers
    by_cases hub : u = bh
    · have hvb : v ≠ bh := fun e => huv (hub.trans e.symm)
      exact ⟨v, hvb, hkeep v hvb hv⟩
    · exact ⟨u, hub, hkeep u hub hu⟩
  · rw [hlock] at h
    rw [hdev, hblock, Function.update_of_ne hb, Function.update_of_ne hb]
    exact ⟨h, rfl, rfl⟩
  · rintro block - - hu
    obtain ⟨b, hb, hub, hne⟩ := (hup block).1 hu
    exact ⟨b, hb, hub, fun _ h' => hne (h'.unique hv)⟩
  · rintro - block - ⟨b, hb, hub, hno⟩
    exact (hup block).2 ⟨b, hb, hub, fun e => hno hf (e ▸ hv)⟩

/-- The loop is at its start, with the count of the first block's buffer. -/
structure Looping (c : Cache α n) (dev : Dev) (first : Block) (l : List Block) (bh : Fin n)
    (d : Cache α n) : Prop extends Ahead c dev first l bh d where
  count : d.bCount = Function.update c.bCount bh (c.bCount bh + 1)
  asked : d.HasDriver dev → d.bUptodate bh = true ∨ d.bLock bh = true

theorem add_one_ne_zero {k : BitVec 8} (h : k ≠ 255) : k + 1 ≠ 0 := by
  bv_omega

theorem setCount_back : (d.setCount b (d.bCount b + 1)).setCount b (d.bCount b + 1 - 1) = d := by
  unfold Cache.setCount
  dsimp only
  rw [Function.update_idem, BitVec.add_sub_cancel, Function.update_eq_self]

theorem Looping.count_ne_zero (h : Looping c dev first l bh d) (hc : c.Steady) : d.bCount bh ≠ 0 := by
  rw [h.count, Function.update_self]
  exact add_one_ne_zero (hc.count bh)

/-- The block was not in the cache: now it has a buffer, but no request. -/
theorem Looping.missing (h : Looping c dev first l bh d) (hc : c.Steady) (hblock : block ∈ l)
    (hf : d.findBuffer dev block = none)
    (hd : ∀ d', Looping c dev first l bh d' → d'.Does (.breada dev first rest (.ahead bh) :: fs) Q) :
    d.Does (.getblk dev block .atRepeat :: .breada dev first rest (.getAhead bh) :: fs) Q := by
  obtain ⟨u, -, hu⟩ := h.spare
  obtain ⟨v, hv⟩ := exists_victim h.queues hu
  obtain ⟨hvc, hvd, hvl⟩ : d.Unused v := by
    obtain ⟨-, -, -, hv, -⟩ := hv
    exact hv
  have hvb : v ≠ bh := by
    rintro rfl
    exact h.count_ne_zero hc hvc
  refine getblk_missing h.queues hf hv fun c₁ hc₁ => ?_
  obtain ⟨hinv, hdev, hnr, hcnt, hdirt, hup, hlock, hfn, hcur⟩ := reassign_spec h.queues hf hc₁
  have hups := fun block => up_reassign h.queues hf hc₁ dev block
  have hcarries : c₁.Carries bh dev first := by
    unfold Queues.Carries
    rw [hdev, hnr, Function.update_of_ne (Ne.symm hvb), Function.update_of_ne (Ne.symm hvb)]
    exact h.carries
  have hqueued : ∀ b, c₁.queued b = d.queued b := by
    intro b
    unfold queued
    rw [hcur]
  have hubh : c₁.bUptodate bh = d.bUptodate bh := by
    rw [hup]
    exact Function.update_of_ne (Ne.symm hvb) _ _
  have hasked : c₁.HasDriver dev → c₁.bUptodate bh = true ∨ c₁.bLock bh = true := by
    rw [hasDriver_congr hfn, hubh, hlock]
    exact h.asked
  refine does_call (e := c₁) (r := .breada dev first rest (.readAhead bh v))
    (g := .llRwBlock .readA bh) ?_ ?_
  · simp only [exec, Frame.receive, breada]
    rw [if_neg (by rw [hup, Function.update_self]; exact Bool.false_ne_true)]
  -- the request is for `bh`, which is up to date or has one
  refine read_does rfl (fun _ => rfl) (fun hl => ?_) fun c₂ hc₂ => ?_
  · obtain ⟨k, hk, hfree⟩ := h.slotFree (by rw [← hlock]; exact hl)
    refine ⟨k, hk, ?_⟩
    unfold Cache.slotFree at hfree ⊢
    rw [hcur]
    exact hfree
  obtain rfl := hc₂.eq (hcarries.1.symm ▸ hasked)
  refine does_goto (e := c₂.setCount v (c₂.bCount v - 1)) rfl (hd _ ?_)
  have hzero : c₂.bCount v - 1 = 0 := by
    rw [hcnt, Function.update_self]
    rfl
  rw [hzero]
  refine ⟨⟨hinv, fun b => ?_, hfn.trans h.requestFn, hcarries, fun hl => ?_, fun m r hr => ?_, ?_,
    ⟨v, hvb, Function.update_self _ _ _, ?_, hlock ▸ hvl⟩, fun b hb hl => ?_, ?_, ?_⟩, ?_, hasked⟩
  · refine (hqueued b).le.trans ((h.queued b).trans ?_)
    rw [← hlock]
    exact le_rfl
  · obtain ⟨h1, h2, h3⟩ := h.lock (by rw [← hlock]; exact hl)
    exact ⟨(hasDriver_congr hfn).2 h1, (hqueued bh).symm ▸ h2, hubh.trans h3⟩
  · exact h.reads m r (hcur ▸ hr)
  · obtain ⟨k, hk, hslot⟩ := h.slot
    exact ⟨k, hk, fun m r hr => hslot m r (hcur ▸ hr)⟩
  · change c₂.bDirt v = false
    rw [hdirt, Function.update_self]
  · have hl' : d.bLock b = true := by rw [← hlock]; exact hl
    have hbv : b ≠ v := by
      rintro rfl
      rw [hvl] at hl'
      cases hl'
    change c.bLock b = true ∧ c.Carries b (c₂.bDev b) (c₂.bBlocknr b)
    rw [hdev, hnr, Function.update_of_ne hbv, Function.update_of_ne hbv]
    exact h.locked b hb hl'
  · intro x hx hno hux
    obtain ⟨b, hb, hub, -⟩ := (hups x).1 hux
    exact h.up x hx hno ⟨b, hb, hub⟩
  · -- the block was not ready
    intro hall
    refine absurd (hall block hblock) ?_
    rintro (hh | ⟨rfl, hdrv⟩)
    · obtain ⟨b, hb, -⟩ := h.held hall block hblock hh
      rw [hf] at hb
      cases hb
    · have hfb := h.queues.findBuffer_iff.2 ⟨hdrv.ne_zero hc.noDev, h.carries⟩
      rw [hf] at hfb
      cases hfb
  · change Function.update c₂.bCount v 0 = _
    rw [hcnt, Function.update_idem, ← hvc, Function.update_eq_self]
    exact h.count

/-- The block is the first block, whose read may have to be waited for, and tried again. -/
theorem Looping.again (h : Looping c dev first l bh d) (hc : c.Steady)
    (he : c.Enough dev (first :: l)) (hf : d.findBuffer dev block = some bh)
    (hd : ∀ d', Looping c dev first l bh d' → d'.Does (.breada dev first rest (.ahead bh) :: fs) Q) :
    d.Does (.getblk dev block .atRepeat :: .breada dev first rest (.getAhead bh) :: fs) Q := by
  refine getblk_found h.queues hf (fun hl => (h.lock hl).2.1) fun c₁ hw hl _ => ?_
  have h₁ : Ahead c dev first l bh c₁ := (h.toAhead.setCount _).works hc he hw
  have hcnt : c₁.bCount = Function.update d.bCount bh (d.bCount bh + 1) := hw.worked.count
  have hdrop : ∀ c₂, Ahead c dev first l bh c₂ → c₂.bCount = c₁.bCount →
      (c₂.HasDriver dev → c₂.bUptodate bh = true ∨ c₂.bLock bh = true) →
      c₂.Does (.breada dev first rest (.drop bh bh) :: fs) Q := by
    intro c₂ h₂ hcnt₂ hask
    refine does_goto (e := c₂.setCount bh (c₂.bCount bh - 1)) rfl (hd _ ?_)
    refine ⟨h₂.setCount _, ?_, hask⟩
    change Function.update c₂.bCount bh _ = _
    rw [hcnt₂, hcnt, Function.update_self, Function.update_idem, BitVec.add_sub_cancel,
      Function.update_eq_self]
    exact h.count
  cases hu : c₁.bUptodate bh with
  | true =>
    refine does_goto (e := c₁) (r := .breada dev first rest (.drop bh bh)) ?_
      (hdrop c₁ h₁ rfl fun _ => .inl hu)
    simp only [exec, Frame.receive, breada]
    rw [if_pos hu]
  | false =>
    refine does_call (e := c₁) (r := .breada dev first rest (.readAhead bh bh))
      (g := .llRwBlock .readA bh) ?_ ?_
    · simp only [exec, Frame.receive, breada]
      rw [if_neg (by rw [hu]; exact Bool.false_ne_true)]
    refine read_does rfl (fun _ => rfl) h₁.slotFree fun c₂ hc₂ => ?_
    obtain ⟨h₂, hcnt₂, hask⟩ := h₁.ask hc₂
    exact hdrop c₂ h₂ hcnt₂ hask

/-- The block has another buffer: all is as before. -/
theorem Looping.cached (h : Looping c dev first l bh d) (hc : c.Steady)
    (he : c.Enough dev (first :: l)) (hblock : block ∈ l) (hf : d.findBuffer dev block = some b)
    (hb : b ≠ bh) (hd : d.Does (.breada dev first rest (.ahead bh) :: fs) Q) :
    d.Does (.getblk dev block .atRepeat :: .breada dev first rest (.getAhead bh) :: fs) Q := by
  have hl := h.unlocked hc he hblock hf hb
  refine getblk_found h.queues hf (fun hl' => by rw [hl] at hl'; cases hl') fun c₁ _ _ heq => ?_
  obtain rfl := heq hl
  obtain ⟨c₁, hc₁⟩ : ∃ c₁, c₁ = d.setCount b (d.bCount b + 1) := ⟨_, rfl⟩
  rw [← hc₁]
  have hdrop : c₁.Does (.breada dev first rest (.drop bh b) :: fs) Q := by
    refine does_goto (e := c₁.setCount b (c₁.bCount b - 1)) rfl ?_
    have hcb : c₁.bCount b = d.bCount b + 1 := by
      rw [hc₁]
      exact Function.update_self _ _ _
    rw [hcb, hc₁, setCount_back]
    exact hd
  cases hu : c₁.bUptodate b with
  | true =>
    refine does_goto (e := c₁) (r := .breada dev first rest (.drop bh b)) ?_ hdrop
    simp only [exec, Frame.receive, breada]
    rw [if_pos hu]
  | false =>
    refine does_call (e := c₁) (r := .breada dev first rest (.readAhead bh b))
      (g := .llRwBlock .readA bh) ?_ ?_
    · simp only [exec, Frame.receive, breada]
      rw [if_neg (by rw [hu]; exact Bool.false_ne_true)]
    refine read_does rfl (fun _ => rfl) (fun hl => ?_) fun c₂ hc₂ => ?_
    · rw [hc₁] at hl ⊢
      exact h.slotFree hl
    have hasked : c₁.HasDriver (c₁.bDev bh) → c₁.bUptodate bh = true ∨ c₁.bLock bh = true := by
      rw [hc₁]
      exact fun hdrv => h.asked (h.carries.1 ▸ hdrv)
    rw [hc₂.eq hasked]
    exact hdrop

/-- **One turn of the loop.** -/
theorem Looping.turn (h : Looping c dev first l bh d) (hc : c.Steady)
    (he : c.Enough dev (first :: l)) (hblock : block ∈ l)
    (hd : ∀ d', Looping c dev first l bh d' → d'.Does (.breada dev first rest (.ahead bh) :: fs) Q) :
    d.Does (.breada dev first (block :: rest) (.ahead bh) :: fs) Q := by
  refine does_call (r := .breada dev first rest (.getAhead bh))
    (g := .getblk dev block .atRepeat) rfl ?_
  cases hf : d.findBuffer dev block with
  | none => exact h.missing hc hblock hf hd
  | some b =>
    by_cases hb : b = bh
    · subst hb
      exact h.again hc he hf hd
    · exact h.cached hc he hblock hf hb (hd d h)

/-- Each of the blocks takes a turn. -/
theorem Looping.turns (h : Looping c dev first l bh d) (hc : c.Steady)
    (he : c.Enough dev (first :: l)) (hrest : ∀ block ∈ rest, block ∈ l)
    (hd : ∀ d', Looping c dev first l bh d' → d'.Does (.breada dev first [] (.ahead bh) :: fs) Q) :
    d.Does (.breada dev first rest (.ahead bh) :: fs) Q := by
  induction rest generalizing d with
  | nil => exact hd d h
  | cons block rest ih =>
    refine h.turn hc he (hrest block List.mem_cons_self) fun d' h' => ?_
    exact ih h' fun x hx => hrest x (List.mem_cons_of_mem _ hx)

/-- What the reads that were asked for come to. -/
theorem Looping.served_iff (h : Looping c dev first l bh d) (hc : c.Steady)
    (he : c.Enough dev (first :: l)) :
    (∀ block ∈ l, d.Served dev block) ↔ ∀ block ∈ l, c.Ready dev first block := by
  have hfirst : d.HasDriver dev → d.findBuffer dev first = some bh := fun hdrv =>
    h.queues.findBuffer_iff.2 ⟨hdrv.ne_zero (h.requestFn ▸ hc.noDev), h.carries⟩
  constructor
  · intro hall block hblock
    by_cases hready : block = first ∧ c.HasDriver dev
    · exact .inr hready
    have hno : block = first → ¬ c.HasDriver dev := fun e hdrv => hready ⟨e, hdrv⟩
    obtain ⟨b, hf, hu | ⟨m, r, hr, hrb, -⟩⟩ := hall block hblock
    · exact .inl (h.up block hblock hno ⟨b, hf, hu⟩)
    · -- a buffer with a request is locked
      exfalso
      have hl : d.bLock b = true := by
        by_contra hl
        exact queued_unlocked h.queued (Bool.not_eq_true _ ▸ hl) m r hr hrb
      by_cases hb : b = bh
      · subst hb
        refine hno ?_ (h.hasDriver.1 (h.lock hl).1)
        exact (h.queues.findBuffer_iff.1 hf).2.2.symm.trans h.carries.2
      · rw [h.unlocked hc he hblock hf hb] at hl
        cases hl
  · intro hall block hblock
    rcases hall block hblock with hh | ⟨rfl, hdrv⟩
    · obtain ⟨b, hf, hu⟩ := h.held hall block hblock hh
      exact ⟨b, hf, .inl hu⟩
    · have hdrv := h.hasDriver.2 hdrv
      refine ⟨bh, hfirst hdrv, ?_⟩
      rcases h.asked hdrv with hu | hl
      · exact .inl hu
      · obtain ⟨m, -, hm⟩ := Finset.exists_ne_zero_of_sum_ne_zero (h.lock hl).2.1
        obtain ⟨r, hr, hrb⟩ := List.countP_pos_iff.1 (Nat.pos_of_ne_zero hm)
        replace hrb : r.bh = bh := of_decide_eq_true hrb
        exact .inr ⟨m, r, hr, hrb, h.reads m r hr hrb⟩

/-- What `breada` returns: the buffer of its first block, up to date, or null. -/
def Gives (c : Cache α n) (dev : Dev) (first : Block) (bh : Fin n) (d : Cache α n)
    (fs : List (Frame n)) : Prop :=
  ∃ f v, fs = [f] ∧ d.exec .go f = (d, .ret v) ∧
    (v = some bh ∧ d.Carries bh dev first ∧ d.bUptodate bh = true ∧
        d.bCount = Function.update c.bCount bh (c.bCount bh + 1) ∨
      v = none ∧ d.bCount = c.bCount)

/-- The rest of `breada`, when its buffer is not locked any more. -/
theorem Looping.unlocked_gives (h : Looping c dev first l bh d) (hc : c.Steady) (hw : d.Works d')
    (hl : d'.bLock bh = false) :
    d'.Does [.breada dev first [] (.wait bh)] (c.Gives dev first bh) := by
  have hw := hw.worked
  have hnl : ¬ d'.bLock bh = true := by rw [hl]; exact Bool.false_ne_true
  have hcount := hw.count.trans h.count
  cases hu : d'.bUptodate bh with
  | true =>
    refine .done ⟨_, some bh, rfl, ?_, .inl ⟨rfl, hw.queues ▸ h.carries, hu, hcount⟩⟩
    simp only [exec, breada]
    rw [if_neg hnl, if_pos hu]
  | false =>
    refine does_call (e := d') (r := .breada dev first [] .releasing) (g := .brelse (some bh)) ?_ ?_
    · simp only [exec, breada]
      rw [if_neg hnl, if_neg (by rw [hu]; exact Bool.false_ne_true)]
    have hbh : d'.bCount bh = c.bCount bh + 1 := by
      rw [hcount]
      exact Function.update_self _ _ _
    refine does_ret (e := d'.setCount bh (d'.bCount bh - 1)) (v := none) ?_ (.done ?_)
    · simp only [exec, brelse]
      rw [if_neg hnl, if_neg (by rw [hbh]; exact add_one_ne_zero (hc.count bh))]
    · refine ⟨_, none, rfl, rfl, .inr ⟨rfl, ?_⟩⟩
      change Function.update d'.bCount bh _ = _
      rw [hbh, hcount, Function.update_idem, BitVec.add_sub_cancel, Function.update_eq_self]

/-- The end of `breada`. -/
theorem Looping.gives (h : Looping c dev first l bh d) (hc : c.Steady) :
    d.Does [.breada dev first [] (.wait bh)] (c.Gives dev first bh) := by
  cases hl : d.bLock bh with
  | false => exact h.unlocked_gives hc .refl hl
  | true =>
    refine does_sleep ?_ (fun d' => d'.bLock bh = false) (works_unlock (h.lock hl).2.1) ?_ ?_
    · simp only [exec, breada]
      rw [if_pos hl]
    · intro d' _
      rw [asleep_iff]
      simp only [exec, breada]
      cases hl' : d'.bLock bh with
      | false =>
        rw [if_neg Bool.false_ne_true]
        refine iff_of_false (fun hgo => ?_) (not_not.2 rfl)
        obtain ⟨_, h⟩ := hgo
        split_ifs at h
      | true =>
        rw [if_pos rfl]
        exact iff_of_true ⟨_, rfl⟩ Bool.noConfusion
    · exact fun d' hw hl' => h.unlocked_gives hc hw hl'

end Loop

/-- **`breada`** returns the buffer of its first block, up to date, or null, and changes no other
`b_count`. When it waits for this block, all further blocks are up to date or a read of them is queued,
just if they were up to date before or are the first block. -/
theorem breada_ahead_iff {first : Block} {rest : List Block} (hc : c.Steady)
    (he : c.Enough dev (first :: rest)) :
    c.Does [.breada dev first rest .start] fun d fs => ∃ bh,
      fs = [.breada dev first [] (.wait bh)] ∧ d.Does fs (c.Gives dev first bh) ∧
      ((∀ block ∈ rest, d.Served dev block) ↔ ∀ block ∈ rest, c.Ready dev first block) := by
  have hloop : ∀ bh d, Looping c dev first rest bh d →
      d.Does [.breada dev first rest (.ahead bh)] fun d fs => ∃ bh,
        fs = [.breada dev first [] (.wait bh)] ∧ d.Does fs (c.Gives dev first bh) ∧
        ((∀ block ∈ rest, d.Served dev block) ↔ ∀ block ∈ rest, c.Ready dev first block) := by
    intro bh d h
    refine h.turns hc he (fun _ h => h) fun d' h' => ?_
    exact does_goto (e := d') rfl (.done ⟨bh, rfl, h'.gives hc, h'.served_iff hc he⟩)
  -- the first block, which may have to be read
  have hgot : ∀ bh d, Ahead c dev first rest bh d → d.bLock bh = false →
      d.bCount = Function.update c.bCount bh (c.bCount bh + 1) →
      d.Does [.breada dev first rest (.got bh)] fun d fs => ∃ bh,
        fs = [.breada dev first [] (.wait bh)] ∧ d.Does fs (c.Gives dev first bh) ∧
        ((∀ block ∈ rest, d.Served dev block) ↔ ∀ block ∈ rest, c.Ready dev first block) := by
    intro bh d h hl hcount
    cases hu : d.bUptodate bh with
    | true =>
      refine does_goto (e := d) (r := .breada dev first rest (.ahead bh)) ?_
        (hloop bh d ⟨h, hcount, fun _ => .inl hu⟩)
      simp only [exec, breada]
      rw [if_pos hu]
    | false =>
      refine does_call (e := d) (r := .breada dev first rest (.reading bh))
        (g := .llRwBlock .read bh) ?_ ?_
      · simp only [exec, breada]
        rw [if_neg (by rw [hu]; exact Bool.false_ne_true)]
      refine read_does rfl (fun hl' => by rw [hl] at hl'; cases hl') h.slotFree fun d' hd' => ?_
      obtain ⟨h', hcount', hask⟩ := h.ask hd'
      exact hloop bh d' ⟨h', hcount'.trans hcount, hask⟩
  refine does_call (r := .breada dev first rest .getblk) (g := .getblk dev first .atRepeat) rfl ?_
  cases hf : c.findBuffer dev first with
  | some bh =>
    have hl := he.unlocked first List.mem_cons_self bh hf
    refine getblk_found hc.queues hf (fun hl' => by rw [hl] at hl'; cases hl') fun d _ hld heq => ?_
    obtain rfl := heq hl
    exact hgot bh _ (ahead_found hc he hf _) hld rfl
  | none =>
    obtain ⟨u, -, -, hu, -⟩ := he.buffers
    obtain ⟨bh, hv⟩ := exists_victim hc.queues hu
    refine getblk_missing hc.queues hf hv fun d hd => ?_
    have h := ahead_missing hc he hf hv hd
    obtain ⟨-, -, -, hcount, -, -, hlock, -, -⟩ := reassign_spec hc.queues hf hd
    obtain ⟨-, -, -, ⟨hzero, -, hl⟩, -⟩ := hv
    refine hgot bh d h (by rw [hlock]; exact hl) ?_
    rw [hcount, hzero]
    rfl

section Example

/-- Three buffers after boot, with a driver for the hard disk. -/
def booted : State ℕ 3 :=
  State.boot (fun _ => 0) (fun _ _ => 0) (fun m => m = 3) fun _ _ => 0

theorem booted_steady : booted.cache.Steady :=
  ⟨Queues.inv_init _, by decide, rfl, by decide⟩

theorem booted_enough : booted.cache.Enough 0x301 [5, 6] :=
  ⟨⟨0, by decide, by decide⟩, ⟨0, 1, by decide, ⟨rfl, rfl, rfl⟩, rfl, rfl, rfl⟩, fun _ _ _ _ => rfl⟩

/-- The first read of block 5, and ahead of block 6. -/
theorem breada_ahead_booted :
    booted.cache.Does [.breada 0x301 5 [6] .start] fun d fs => ∃ bh,
      fs = [.breada 0x301 5 [] (.wait bh)] ∧ d.Does fs (booted.cache.Gives 0x301 5 bh) ∧
      ((∀ block ∈ [6], d.Served 0x301 block) ↔
        ∀ block ∈ [6], booted.cache.Ready 0x301 5 block) :=
  breada_ahead_iff booted_steady booted_enough

/-- `breada` waits for buffer 0, with no block left to ask for. -/
def waiting : List (Frame 3) → Bool
  | [.breada dev first [] (.wait bh)] => decide (dev = 0x301 ∧ first = 5 ∧ bh = 0)
  | _ => false

theorem waiting_eq {fs : List (Frame 3)} (h : waiting fs = true) :
    fs = [.breada 0x301 5 [] (.wait 0)] := by
  unfold waiting at h
  split at h
  · obtain ⟨rfl, rfl, rfl⟩ := of_decide_eq_true h
    rfl
  · cases h

/-- The disk is not asked for block 6, though it has a buffer now. -/
theorem breada_ahead_not : ∃ s : State ℕ 3,
    booted.steps (.schedule 0 :: .start (.breada 0x301 5 [6]) :: List.replicate 24 (.run .go)) =
      some s ∧
    s.stack 0 = [.breada 0x301 5 [] (.wait 0)] ∧ s.cache.findBuffer 0x301 6 = some 1 ∧
    ¬ s.cache.Served 0x301 6 := by
  have hrun : (booted.steps
      (.schedule 0 :: .start (.breada 0x301 5 [6]) :: List.replicate 24 (.run .go))).any (fun s =>
        waiting (s.stack 0) && decide (s.cache.findBuffer 0x301 6 = some 1 ∧ s.cache.bUptodate 1 = false ∧
          ∀ m, ∀ r ∈ s.cache.currentRequest m, r.bh ≠ 1)) = true := by
    decide +kernel
  obtain ⟨s, hs, hstate⟩ := (Option.any_eq_true _ _).1 hrun
  obtain ⟨hstack, hrest⟩ := Bool.and_eq_true_iff.1 hstate
  obtain ⟨hf, hu, hr⟩ := of_decide_eq_true hrest
  refine ⟨s, hs, waiting_eq hstack, hf, ?_⟩
  rintro ⟨b, hb, hserved⟩
  obtain rfl : b = 1 := Option.some.inj (hb.symm.trans hf)
  rcases hserved with h | ⟨m, r, hm, h, -⟩
  · rw [hu] at h
    cases h
  · exact hr m r hm h

end Example

end Cache

end Linux011.Buffer
