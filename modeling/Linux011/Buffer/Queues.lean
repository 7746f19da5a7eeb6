import Linux011.Lib.Linked
import Linux011.Lib.Sizes
import Mathlib.Algebra.Group.Fin.Basic
import Mathlib.Data.Fintype.Card
import Mathlib.Data.List.FinRange

/-!
# The hash queues and the free list of the buffer cache

The fields of the buffer heads that `remove_from_queues` and `insert_into_queues` work on, for `n`
buffers.

1. `Queues` with `findBuffer`, `removeFromQueues`, `insertIntoQueues`, and `move`: what `getblk` does
   to a buffer that it gives to another block.
2. `FreeRing`: the free list is one ring through all buffers. `FreeRing.move`.
3. `Chains`: the hash queues, for the buffers that are on one. `Chains.unhash`, `Chains.rehash`.
4. `Queues.Inv`, with `Inv.findBuffer_none` and `Inv.move`.
-/

namespace Linux011.Buffer

/-- `b_dev`, 0 if the buffer is free. Every device number that is given to `getblk` is one of 16 bits. -/
abbrev Dev := BitVec 16

/-- `b_blocknr`. -/
abbrev Block := BitVec 32

/-- `_hashfn`. -/
def hashfn (dev : Dev) (block : Block) : Fin 307 :=
  ⟨(dev.setWidth 32 ^^^ block).toNat % 307, Nat.mod_lt _ (by decide)⟩

/-- The links and keys of the buffer heads, `hash_table` and `free_list`. -/
structure Queues (n : ℕ) where
  bBlocknr : Fin n → Block
  bDev : Fin n → Dev
  bPrev : Fin n → Option (Fin n)
  bNext : Fin n → Option (Fin n)
  bPrevFree : Fin n → Option (Fin n)
  bNextFree : Fin n → Option (Fin n)
  hashTable : Fin 307 → Option (Fin n)
  freeList : Fin n

namespace Queues

variable {n : ℕ}

/-- The hash of a buffer's own device and block. -/
def hash (q : Queues n) (bh : Fin n) : Fin 307 := hashfn (q.bDev bh) (q.bBlocknr bh)

/-- The buffer carries `(dev, block)`. -/
def Carries (q : Queues n) (bh : Fin n) (dev : Dev) (block : Block) : Prop :=
  q.bDev bh = dev ∧ q.bBlocknr bh = block

instance (q : Queues n) (bh : Fin n) (dev : Dev) (block : Block) :
    Decidable (q.Carries bh dev block) :=
  inferInstanceAs (Decidable (_ ∧ _))

/-- The loop of `find_buffer` from `tmp` on, for at most so many buffers. -/
def findFrom (q : Queues n) (dev : Dev) (block : Block) : ℕ → Option (Fin n) → Option (Fin n)
  | 0, _ | _, none => none
  | k + 1, some tmp =>
    if q.Carries tmp dev block then some tmp else findFrom q dev block k (q.bNext tmp)

/-- `find_buffer`. -/
def findBuffer (q : Queues n) (dev : Dev) (block : Block) : Option (Fin n) :=
  q.findFrom dev block n (q.hashTable (hashfn dev block))

/-- The first half of `remove_from_queues`: remove from hash-queue. -/
def unhash (q : Queues n) (bh : Fin n) : Queues n :=
  let q := { q with bPrev := storeAt q.bPrev (q.bNext bh) (q.bPrev bh) }
  let q := { q with bNext := storeAt q.bNext (q.bPrev bh) (q.bNext bh) }
  if q.hashTable (q.hash bh) = some bh then
    { q with hashTable := Function.update q.hashTable (q.hash bh) (q.bNext bh) }
  else q

/-- The second half: remove from free list. Without both links it is a panic, "Free block list
corrupted". -/
def unfree (q : Queues n) (bh : Fin n) : Option (Queues n) :=
  match q.bPrevFree bh, q.bNextFree bh with
  | some prev, some next =>
    some { q with
      bNextFree := storeAt q.bNextFree (some prev) (some next)
      bPrevFree := storeAt q.bPrevFree (some next) (some prev)
      freeList := if q.freeList = bh then next else q.freeList }
  | _, _ => none

/-- `remove_from_queues`. -/
def removeFromQueues (q : Queues n) (bh : Fin n) : Option (Queues n) :=
  (q.unhash bh).unfree bh

/-- The first half of `insert_into_queues`: put at end of free list. -/
def refree (q : Queues n) (bh : Fin n) : Queues n :=
  let q := { q with bNextFree := Function.update q.bNextFree bh (some q.freeList) }
  let q := { q with bPrevFree := Function.update q.bPrevFree bh (q.bPrevFree q.freeList) }
  let q := { q with bNextFree := storeAt q.bNextFree (q.bPrevFree q.freeList) (some bh) }
  { q with bPrevFree := Function.update q.bPrevFree q.freeList (some bh) }

/-- The second half: put the buffer in new hash-queue if it has a device. The store through `b_next`
is also made where that is null; then it hits none of the buffer heads. -/
def rehash (q : Queues n) (bh : Fin n) : Queues n :=
  let q := { q with bPrev := Function.update q.bPrev bh none }
  let q := { q with bNext := Function.update q.bNext bh none }
  if q.bDev bh = 0 then q
  else
    let q := { q with bNext := Function.update q.bNext bh (q.hashTable (q.hash bh)) }
    let q := { q with hashTable := Function.update q.hashTable (q.hash bh) (some bh) }
    { q with bPrev := storeAt q.bPrev (q.bNext bh) (some bh) }

/-- `insert_into_queues`. -/
def insertIntoQueues (q : Queues n) (bh : Fin n) : Queues n :=
  (q.refree bh).rehash bh

/-- `bh->b_dev = dev; bh->b_blocknr = block`. -/
def setKey (q : Queues n) (bh : Fin n) (dev : Dev) (block : Block) : Queues n :=
  { q with
    bDev := Function.update q.bDev bh dev
    bBlocknr := Function.update q.bBlocknr bh block }

/-- The end of `getblk`: the buffer changes its queues along with its device and block. -/
def move (q : Queues n) (bh : Fin n) (dev : Dev) (block : Block) : Option (Queues n) :=
  match q.removeFromQueues bh with
  | none => none
  | some q => some ((q.setKey bh dev block).insertIntoQueues bh)

/-! ## The free list -/

/-- The free list is one ring that holds every buffer once, and `l` is its order. -/
structure FreeRing (q : Queues n) (l : List (Fin n)) : Prop where
  nodup : l.Nodup
  mem : ∀ b, b ∈ l
  head : l.head? = some q.freeList
  ring : Ring q.bNextFree q.bPrevFree l

/-- The free list depends on its own fields only. -/
theorem FreeRing.congr {q q' : Queues n} {l : List (Fin n)} (h : FreeRing q l)
    (h1 : q'.bNextFree = q.bNextFree) (h2 : q'.bPrevFree = q.bPrevFree)
    (h3 : q'.freeList = q.freeList) : FreeRing q' l :=
  ⟨h.nodup, h.mem, h3 ▸ h.head, by rw [h1, h2]; exact h.ring⟩

/-- Each buffer of the ring has both links. -/
theorem FreeRing.links {q : Queues n} {xs ys : List (Fin n)} {b : Fin n}
    (h : FreeRing q (xs ++ b :: ys)) :
    ∃ prev next, q.bPrevFree b = some prev ∧ q.bNextFree b = some next := by
  obtain ⟨h1, h2⟩ := Seg.middle h.ring
  have hp : ((xs.getLast?).or (xs ++ b :: ys).getLast?).isSome := by simp
  have hn : ((ys.head?).or (xs ++ b :: ys).head?).isSome := by simp
  obtain ⟨prev, hprev⟩ := Option.isSome_iff_exists.1 hp
  obtain ⟨next, hnext⟩ := Option.isSome_iff_exists.1 hn
  exact ⟨prev, next, h1.trans hprev, h2.trans hnext⟩

/-- Taking a buffer out of the ring and putting it back at the end is possible, and keeps the ring. -/
theorem FreeRing.move {q : Queues n} {l : List (Fin n)} (h : FreeRing q l) (b : Fin n) :
    ∃ q', q.unfree b = some q' ∧ ∃ l', FreeRing (q'.refree b) l' := by
  obtain ⟨xs, ys, rfl⟩ := List.append_of_mem (h.mem b)
  obtain ⟨prev, next, hp, hn⟩ := h.links
  refine ⟨_, by simp only [unfree, hp, hn]; rfl, ?_⟩
  by_cases hne : xs ++ ys = []
  · -- the only buffer: it is linked to itself before and after
    obtain ⟨rfl, rfl⟩ := List.append_eq_nil_iff.1 hne
    obtain ⟨h1, h2, -⟩ := h.ring
    have hb : q.freeList = b := by simpa using h.head.symm
    have e1 : next = b := by simpa [hn] using h2
    have e2 : prev = b := by simpa [hp] using h1
    subst e1 e2
    refine ⟨[prev], by simp, fun x => ?_, by simp [refree, hb], ?_⟩
    · simpa using h.mem x
    · refine ⟨?_, ?_, trivial⟩ <;> simp [refree, hb]
  · obtain ⟨a, zs, hz⟩ := List.exists_cons_of_ne_nil hne
    have nd := (List.perm_middle.nodup_iff.1 h.nodup)
    rw [List.nodup_cons, hz] at nd
    have hring := Ring.unlink h.ring h.nodup hne
    rw [hp, hn, hz] at hring
    have hab : a ≠ b := fun e => nd.1 (e ▸ List.mem_cons_self)
    have hfree : (if q.freeList = b then next else q.freeList) = a := by
      rcases xs with _ | ⟨x, xs⟩
      · have hb : q.freeList = b := by simpa using h.head.symm
        obtain ⟨-, h2⟩ := Seg.middle h.ring
        rw [List.nil_append] at hz
        rw [if_pos hb]
        simpa [hn, hz] using h2
      · obtain ⟨rfl, rfl⟩ := List.cons_eq_cons.1 hz
        have hx : q.freeList = x := by simpa using h.head.symm
        rw [hx, if_neg hab]
    refine ⟨a :: zs ++ [b], ?_, fun x => ?_, ?_, ?_⟩
    · rw [List.nodup_append]
      exact ⟨nd.2, by simp, fun x hx y hy e => nd.1 (by simp_all)⟩
    · have := h.mem x
      rw [← hz]
      simp only [List.mem_append, List.mem_cons, List.not_mem_nil, or_false] at this ⊢
      tauto
    · simp [refree, hfree]
    · have := hring.insertLast nd.2 nd.1
      simp only [refree, hfree]
      rw [Function.update_of_ne hab]
      exact this

/-! ## The hash queues -/

/-- The hash queues: `chain h` lists, in order, the buffers of hash `h` among those with `on`. -/
structure Chains (q : Queues n) (on : Fin n → Prop) (chain : Fin 307 → List (Fin n)) : Prop where
  nodup : ∀ h, (chain h).Nodup
  head : ∀ h, q.hashTable h = (chain h).head?
  seg : ∀ h, Seg q.bNext q.bPrev none (chain h) none
  mem : ∀ h b, b ∈ chain h ↔ on b ∧ q.hash b = h

variable {q : Queues n} {on : Fin n → Prop} {chain : Fin 307 → List (Fin n)}

/-- The neighbours of a buffer are on its own hash queue, and differ from it. -/
theorem Chains.neighbours (h : Chains q on chain) {b x : Fin n} (hb : on b)
    (hx : q.bNext b = some x ∨ q.bPrev b = some x) :
    x ∈ chain (q.hash b) ∧ x ≠ b := by
  obtain ⟨xs, ys, e⟩ := List.append_of_mem ((h.mem (q.hash b) b).2 ⟨hb, rfl⟩)
  have hs := h.seg (q.hash b)
  have nd := h.nodup (q.hash b)
  rw [e] at hs nd ⊢
  obtain ⟨hp, hn⟩ := hs.middle
  rw [Option.or_none] at hp hn
  have nd' := List.nodup_cons.1 (List.perm_middle.nodup_iff.1 nd)
  have hmem : x ∈ xs ++ ys := by
    rcases hx with hx | hx
    · exact List.mem_append_right _ (List.mem_of_mem_head? (hn ▸ hx))
    · exact List.mem_append_left _ (List.mem_of_getLast? (hp ▸ hx))
  refine ⟨?_, fun e => nd'.1 (e ▸ hmem)⟩
  rw [List.perm_middle.mem_iff]
  exact List.mem_cons_of_mem _ hmem

/-- Off the hash queues, removal does nothing. -/
theorem Chains.unhash_of_not (h : Chains q on chain) {b : Fin n} (hb : ¬ on b)
    (hp : q.bPrev b = none) (hn : q.bNext b = none) : q.unhash b = q := by
  have hne : q.hashTable (q.hash b) ≠ some b := by
    intro e
    rw [h.head] at e
    exact hb ((h.mem _ _).1 (List.mem_of_mem_head? e)).1
  unfold unhash
  simp only [hp, hn, storeAt_none]
  exact if_neg hne

/-- Removal takes the buffer, and only it, off its hash queue. -/
theorem Chains.unhash (h : Chains q on chain) {b : Fin n} (hb : on b) :
    ∃ chain', Chains (q.unhash b) (fun x => on x ∧ x ≠ b) chain' := by
  obtain ⟨xs, ys, e⟩ := List.append_of_mem ((h.mem (q.hash b) b).2 ⟨hb, rfl⟩)
  have hs := h.seg (q.hash b)
  have nd := h.nodup (q.hash b)
  have hh := h.head (q.hash b)
  rw [e] at hs nd hh
  obtain ⟨hp, hn⟩ := hs.middle
  rw [Option.or_none] at hp hn
  have nd' := List.nodup_cons.1 (List.perm_middle.nodup_iff.1 nd)
  have hnb : q.bNext b ≠ some b := fun e => (h.neighbours hb (.inl e)).2 rfl
  have hpb : q.bPrev b ≠ some b := fun e => (h.neighbours hb (.inr e)).2 rfl
  have hlinks : (q.unhash b).bPrev = storeAt q.bPrev (q.bNext b) (q.bPrev b) ∧
      (q.unhash b).bNext = storeAt q.bNext (q.bPrev b) (q.bNext b) := by
    unfold Queues.unhash
    simp only [storeAt_of_ne hnb]
    split <;> exact ⟨rfl, rfl⟩
  have htable : (q.unhash b).hashTable =
      Function.update q.hashTable (q.hash b) (xs ++ ys).head? := by
    unfold Queues.unhash hash at *
    simp only [storeAt_of_ne hnb, storeAt_of_ne hpb]
    rcases xs with _ | ⟨x, xs⟩
    · rw [List.nil_append, List.head?_cons] at hh
      rw [if_pos hh, hn]
      rfl
    · rw [List.cons_append, List.head?_cons] at hh
      have hne : q.hashTable (hashfn (q.bDev b) (q.bBlocknr b)) ≠ some b := by
        rw [hh]
        rintro ⟨rfl⟩
        exact nd'.1 (by simp)
      rw [if_neg hne, eq_comm, Function.update_eq_self_iff]
      exact hh.symm
  have hhash : ∀ x, (q.unhash b).hash x = q.hash x := by
    intro x
    unfold Queues.unhash
    dsimp only
    split <;> rfl
  refine ⟨Function.update chain (q.hash b) (xs ++ ys), fun k => ?_, fun k => ?_, fun k => ?_,
    fun k x => ?_⟩
  · by_cases hk : k = q.hash b
    · subst hk; simpa using nd'.2
    · simpa [hk] using h.nodup k
  · rw [htable]
    by_cases hk : k = q.hash b
    · subst hk; simp
    · simpa [hk] using h.head k
  · rw [hlinks.1, hlinks.2]
    by_cases hk : k = q.hash b
    · subst hk; simpa using hs.unlink nd
    · rw [Function.update_of_ne hk]
      refine (h.seg k).congr (fun x hx => storeAt_of_ne fun e => hk ?_)
        fun x hx => storeAt_of_ne fun e => hk ?_
      · exact (((h.mem k x).1 hx).2).symm.trans ((h.mem _ x).1 (h.neighbours hb (.inr e)).1).2
      · exact (((h.mem k x).1 hx).2).symm.trans ((h.mem _ x).1 (h.neighbours hb (.inl e)).1).2
  · rw [hhash]
    by_cases hk : k = q.hash b
    · subst hk
      have hm := h.mem (q.hash b) x
      rw [e, List.perm_middle.mem_iff, List.mem_cons] at hm
      rw [Function.update_self]
      constructor
      · intro hx
        have hxb : x ≠ b := fun e => nd'.1 (e ▸ hx)
        exact ⟨⟨(hm.1 (.inr hx)).1, hxb⟩, (hm.1 (.inr hx)).2⟩
      · rintro ⟨⟨h1, h2⟩, h3⟩
        exact (hm.2 ⟨h1, h3⟩).resolve_left h2
    · rw [Function.update_of_ne hk, h.mem]
      constructor
      · rintro ⟨h1, h2⟩
        exact ⟨⟨h1, fun e => hk (by rw [← h2, e])⟩, h2⟩
      · rintro ⟨⟨h1, -⟩, h2⟩
        exact ⟨h1, h2⟩

/-- Insertion puts a buffer with a device on the hash queue of its key. -/
theorem Chains.rehash (h : Chains q on chain) {b : Fin n} (hb : ¬ on b) :
    ∃ chain', Chains (q.rehash b) (fun x => on x ∨ x = b ∧ q.bDev b ≠ 0) chain' := by
  have hout : ∀ k, b ∉ chain k := fun k hk => hb ((h.mem k b).1 hk).1
  have hcongr : ∀ k, Seg (Function.update q.bNext b none) (Function.update q.bPrev b none) none
      (chain k) none := fun k =>
    (h.seg k).congr (fun x hx => Function.update_of_ne (ne_of_mem_of_not_mem hx (hout k)) _ _)
      (fun x hx => Function.update_of_ne (ne_of_mem_of_not_mem hx (hout k)) _ _)
  by_cases hd : q.bDev b = 0
  · refine ⟨chain, h.nodup, fun k => ?_, fun k => ?_, fun k x => ?_⟩
    · simpa [Queues.rehash, hd] using h.head k
    · simpa [Queues.rehash, hd] using hcongr k
    · simpa [Queues.rehash, hd, hash] using h.mem k x
  · have hnext : ∀ x, (chain (q.hash b)).head? = some x → x ≠ b := fun x e =>
      ne_of_mem_of_not_mem (List.mem_of_mem_head? e) (hout _)
    have hq : q.rehash b = { q with
        bNext := Function.update q.bNext b (chain (q.hash b)).head?
        bPrev := storeAt (Function.update q.bPrev b none) (chain (q.hash b)).head? (some b)
        hashTable := Function.update q.hashTable (q.hash b) (some b) } := by
      have hh := h.head (q.hash b)
      simp only [Queues.rehash, hash] at hh ⊢
      rw [if_neg hd]
      simp [hh]
    rw [hq]
    refine ⟨Function.update chain (q.hash b) (b :: chain (q.hash b)), fun k => ?_, fun k => ?_,
      fun k => ?_, fun k x => ?_⟩
    · by_cases hk : k = q.hash b
      · subst hk; simpa using ⟨hout _, h.nodup _⟩
      · simpa [hk] using h.nodup k
    · by_cases hk : k = q.hash b
      · subst hk; simp
      · simpa [hk] using h.head k
    · by_cases hk : k = q.hash b
      · subst hk
        rw [Function.update_self]
        exact (h.seg _).push (h.nodup _) (hout _)
      · rw [Function.update_of_ne hk]
        refine (h.seg k).congr
          (fun x hx => Function.update_of_ne (ne_of_mem_of_not_mem hx (hout k)) _ _) fun x hx => ?_
        refine (storeAt_of_ne fun e => hk ?_).trans
          (Function.update_of_ne (ne_of_mem_of_not_mem hx (hout k)) _ _)
        exact ((h.mem k x).1 hx).2.symm.trans ((h.mem _ x).1 (List.mem_of_mem_head? e)).2
    · change _ ↔ _ ∧ q.hash x = k
      by_cases hk : k = q.hash b
      · subst hk
        rw [Function.update_self, List.mem_cons, h.mem]
        constructor
        · rintro (rfl | ⟨h1, h2⟩)
          · exact ⟨.inr ⟨rfl, hd⟩, rfl⟩
          · exact ⟨.inl h1, h2⟩
        · rintro ⟨h1 | ⟨rfl, -⟩, h2⟩
          · exact .inr ⟨h1, h2⟩
          · exact .inl rfl
      · rw [Function.update_of_ne hk, h.mem]
        constructor
        · rintro ⟨h1, h2⟩
          exact ⟨.inl h1, h2⟩
        · rintro ⟨h1 | ⟨rfl, -⟩, h2⟩
          · exact ⟨h1, h2⟩
          · exact absurd h2.symm hk

/-! ## The invariant -/

/-- What the links look like whenever no process is inside `move`. -/
structure Inv (q : Queues n) : Prop where
  ring : ∃ l, FreeRing q l
  chains : ∃ chain, Chains q (fun b => q.bDev b ≠ 0) chain
  null : ∀ b, q.bDev b = 0 → q.bPrev b = none ∧ q.bNext b = none
  unique : ∀ b b', q.bDev b ≠ 0 → q.Carries b' (q.bDev b) (q.bBlocknr b) → b' = b

/-- What `find_buffer` finds carries the key. -/
theorem findFrom_eq_some {dev : Dev} {block : Block} {b : Fin n} :
    ∀ {k : ℕ} {p : Option (Fin n)}, q.findFrom dev block k p = some b → q.Carries b dev block
  | 0, _, h => by cases h
  | k + 1, none, h => by cases h
  | k + 1, some tmp, h => by
    unfold findFrom at h
    split at h
    · next hc => cases h; exact hc
    · exact findFrom_eq_some h

theorem findBuffer_eq_some {dev : Dev} {block : Block} {b : Fin n}
    (h : q.findBuffer dev block = some b) : q.Carries b dev block :=
  findFrom_eq_some h

/-- Along a chain short enough, `find_buffer` passes every buffer. -/
theorem findFrom_eq_none {dev : Dev} {block : Block} {l : List (Fin n)} {p : Option (Fin n)}
    {k : ℕ} (hs : Seg q.bNext q.bPrev p l none) (hk : l.length ≤ k)
    (h : q.findFrom dev block k l.head? = none) : ∀ b ∈ l, ¬ q.Carries b dev block := by
  induction l generalizing p k with
  | nil => simp
  | cons x l ih =>
    obtain ⟨k, rfl⟩ : ∃ k', k = k' + 1 := ⟨k - 1, by simp only [List.length_cons] at hk; omega⟩
    obtain ⟨-, h2, h3⟩ := hs
    rw [Option.or_none] at h2
    simp only [List.head?_cons, findFrom] at h
    split at h
    · cases h
    · next hx =>
      rw [h2] at h
      have := ih h3 (by simpa using hk) h
      rintro b (_ | ⟨_, hb⟩)
      · exact hx
      · exact this b hb

/-- **`find_buffer` misses no buffer with a device.** -/
theorem Inv.findBuffer_none (h : Inv q) {dev : Dev} {block : Block} (hd : dev ≠ 0)
    (hf : q.findBuffer dev block = none) (b : Fin n) : ¬ q.Carries b dev block := by
  rintro ⟨rfl, rfl⟩
  obtain ⟨chain, hc⟩ := h.chains
  have hb : b ∈ chain (q.hash b) := (hc.mem _ _).2 ⟨hd, rfl⟩
  refine findFrom_eq_none (hc.seg (q.hash b)) ?_ ?_ b hb ⟨rfl, rfl⟩ (k := n)
  · simpa using (hc.nodup (q.hash b)).length_le_card
  · rw [← hc.head]; exact hf

/-! ## A buffer moves to another block -/

/-- The hash queues depend on their own fields, and on the hashes of the buffers on them. -/
theorem Chains.congr {q' : Queues n} {on' : Fin n → Prop} (h : Chains q on chain)
    (ht : q'.hashTable = q.hashTable) (hn : q'.bNext = q.bNext) (hp : q'.bPrev = q.bPrev)
    (hon : ∀ x, on' x ↔ on x) (hh : ∀ x, on x → q'.hash x = q.hash x) : Chains q' on' chain := by
  refine ⟨h.nodup, fun k => ht ▸ h.head k, fun k => ?_, fun k x => ?_⟩
  · rw [hn, hp]; exact h.seg k
  · rw [h.mem, hon]
    constructor
    · rintro ⟨h1, h2⟩; exact ⟨h1, (hh x h1).trans h2⟩
    · rintro ⟨h1, h2⟩; exact ⟨h1, (hh x h1).symm.trans h2⟩

/-- What the two halves of `remove_from_queues` leave alone. -/
theorem unhash_frame (q : Queues n) (b : Fin n) :
    (q.unhash b).bNextFree = q.bNextFree ∧ (q.unhash b).bPrevFree = q.bPrevFree ∧
      (q.unhash b).freeList = q.freeList ∧ (q.unhash b).bDev = q.bDev ∧
      (q.unhash b).bBlocknr = q.bBlocknr := by
  unfold unhash
  dsimp only
  split <;> simp

theorem unfree_frame {q q' : Queues n} {b : Fin n} (h : q.unfree b = some q') :
    q'.bNext = q.bNext ∧ q'.bPrev = q.bPrev ∧ q'.hashTable = q.hashTable ∧ q'.bDev = q.bDev ∧
      q'.bBlocknr = q.bBlocknr := by
  unfold unfree at h
  split at h
  · cases h; simp
  · cases h

/-- Off its hash queue, a buffer may be given any key. -/
theorem Chains.setKey (h : Chains q on chain) {b : Fin n} (hb : ¬ on b) (dev : Dev)
    (block : Block) : Chains (q.setKey b dev block) on chain := by
  refine h.congr rfl rfl rfl (fun _ => Iff.rfl) fun x hx => ?_
  have hne : x ≠ b := fun e => hb (e ▸ hx)
  simp [hash, Queues.setKey, hne]

/-- The hash queues after removal, whether or not the buffer was on one. -/
theorem Inv.unhash (h : Inv q) (b : Fin n) :
    ∃ chain, Chains (q.unhash b) (fun x => q.bDev x ≠ 0 ∧ x ≠ b) chain := by
  obtain ⟨chain, hc⟩ := h.chains
  by_cases hb : q.bDev b = 0
  · obtain ⟨hp, hn⟩ := h.null b hb
    rw [hc.unhash_of_not (by simpa using hb) hp hn]
    refine ⟨chain, hc.congr rfl rfl rfl (fun x => ?_) fun _ _ => rfl⟩
    have : q.bDev x ≠ 0 → x ≠ b := by rintro hx rfl; exact hx hb
    tauto
  · exact hc.unhash hb

/-- A buffer without a device has no neighbours on the hash queues after removal either. -/
theorem Inv.unhash_null (h : Inv q) {b x : Fin n} (hx : q.bDev x = 0) :
    (q.unhash b).bPrev x = none ∧ (q.unhash b).bNext x = none := by
  obtain ⟨chain, hc⟩ := h.chains
  obtain ⟨hp, hn⟩ := h.null x hx
  by_cases hb : q.bDev b = 0
  · obtain ⟨hp', hn'⟩ := h.null b hb
    rw [hc.unhash_of_not (by simpa using hb) hp' hn']
    exact ⟨hp, hn⟩
  · have hout : ∀ {k}, x ∉ chain k := fun hk => ((hc.mem _ x).1 hk).1 hx
    have hnx : q.bNext b ≠ some x := fun e => hout (hc.neighbours hb (.inl e)).1
    have hpx : q.bPrev b ≠ some x := fun e => hout (hc.neighbours hb (.inr e)).1
    have hnb : q.bNext b ≠ some b := fun e => (hc.neighbours hb (.inl e)).2 rfl
    unfold Queues.unhash
    simp only [storeAt_of_ne hnb]
    split <;> exact ⟨(storeAt_of_ne hnx).trans hp, (storeAt_of_ne hpx).trans hn⟩

/-- **Moving a buffer to a block that no buffer has succeeds and keeps the invariant.** -/
theorem Inv.move (h : Inv q) {b : Fin n} {dev : Dev} {block : Block}
    (hf : q.findBuffer dev block = none) :
    ∃ q', q.move b dev block = some q' ∧ Inv q' ∧ q'.bDev = Function.update q.bDev b dev ∧
      q'.bBlocknr = Function.update q.bBlocknr b block := by
  obtain ⟨l, hl⟩ := h.ring
  obtain ⟨f1, f2, f3, f4, f5⟩ := q.unhash_frame b
  have hlu : FreeRing (q.unhash b) l := hl.congr f1 f2 f3
  obtain ⟨q₁, hq, l', hl'⟩ := hlu.move b
  obtain ⟨g1, g2, g3, g4, g5⟩ := unfree_frame hq
  obtain ⟨chain, hc⟩ := h.unhash b
  have hc₁ : Chains q₁ (fun x => q.bDev x ≠ 0 ∧ x ≠ b) chain :=
    hc.congr g3 g1 g2 (fun _ => Iff.rfl) fun x _ => by simp [hash, g4, g5]
  have hc₂ : Chains ((q₁.setKey b dev block).refree b) (fun x => q.bDev x ≠ 0 ∧ x ≠ b) chain :=
    (hc₁.setKey (by simp) dev block).congr rfl rfl rfl (fun _ => Iff.rfl) fun _ _ => rfl
  obtain ⟨chain', hc'⟩ := hc₂.rehash (b := b) (by simp)
  have hdev : ∀ q₂ : Queues n, (q₂.rehash b).bDev = q₂.bDev ∧
      (q₂.rehash b).bBlocknr = q₂.bBlocknr ∧ (q₂.rehash b).bNextFree = q₂.bNextFree ∧
      (q₂.rehash b).bPrevFree = q₂.bPrevFree ∧ (q₂.rehash b).freeList = q₂.freeList := by
    intro q₂
    unfold Queues.rehash
    dsimp only
    split <;> simp
  have hb1 : ((q₁.setKey b dev block).insertIntoQueues b).bDev = Function.update q.bDev b dev := by
    rw [insertIntoQueues, (hdev _).1, ← f4, ← g4]; rfl
  have hb2 : ((q₁.setKey b dev block).insertIntoQueues b).bBlocknr =
      Function.update q.bBlocknr b block := by
    rw [insertIntoQueues, (hdev _).2.1, ← f5, ← g5]; rfl
  refine ⟨(q₁.setKey b dev block).insertIntoQueues b, by simp only [Queues.move, removeFromQueues, hq],
    ⟨⟨l', ?_⟩, ⟨chain', ?_⟩, fun x hx => ?_, fun x y hx hy => ?_⟩, hb1, hb2⟩
  · obtain ⟨-, -, h1, h2, h3⟩ := hdev ((q₁.setKey b dev block).refree b)
    exact hl'.congr h1 h2 h3
  · refine hc'.congr rfl rfl rfl (fun x => ?_) fun _ _ => rfl
    rw [hb1]
    by_cases hxb : x = b
    · subst hxb; simp [refree, Queues.setKey]
    · simp [hxb]
  · rw [hb1] at hx
    by_cases hxb : x = b
    · subst hxb
      have hd : ((q₁.setKey x dev block).refree x).bDev x = 0 := by
        simpa [refree, Queues.setKey] using hx
      simp [insertIntoQueues, Queues.rehash, hd]
    · rw [Function.update_of_ne hxb] at hx
      obtain ⟨hp, hn⟩ := h.unhash_null (b := b) hx
      rw [← g2] at hp
      rw [← g1] at hn
      have hout : ∀ {k}, x ∉ chain k := fun hk => ((hc₂.mem _ x).1 hk).1.1 hx
      have hhead : ∀ k, q₁.hashTable k ≠ some x := fun k e =>
        hout (List.mem_of_mem_head? ((hc₂.head k) ▸ e))
      unfold insertIntoQueues Queues.rehash
      dsimp only
      split
      · simp [refree, Queues.setKey, hxb, hp, hn]
      · simp only [Function.update_idem, Function.update_self]
        refine ⟨(storeAt_of_ne (hhead _)).trans ?_, ?_⟩ <;>
          simp [refree, Queues.setKey, hxb, hp, hn]
  · rw [hb1, hb2] at hy
    unfold Carries at hy
    rw [hb1, hb2] at hy
    rw [hb1] at hx
    by_cases hxb : x = b
    · subst hxb
      by_contra hyx
      simp only [Function.update_self, Function.update_of_ne hyx] at hx hy
      exact h.findBuffer_none hx hf y hy
    · rw [Function.update_of_ne hxb, Function.update_of_ne hxb] at hy
      rw [Function.update_of_ne hxb] at hx
      by_cases hyb : y = b
      · subst hyb
        simp only [Function.update_self] at hy
        rw [hy.1, hy.2] at hf
        exact absurd ⟨rfl, rfl⟩ (h.findBuffer_none hx hf x)
      · rw [Function.update_of_ne hyb, Function.update_of_ne hyb] at hy
        exact h.unique x y hx hy

/-- The links after `buffer_init`: no buffer has a device, and the free list runs through the heads
in their order in memory. -/
def init [NeZero n] (blocknr : Fin n → Block) : Queues n where
  bBlocknr := blocknr
  bDev _ := 0
  bPrev _ := none
  bNext _ := none
  bPrevFree b := some (b - 1)
  bNextFree b := some (b + 1)
  hashTable _ := none
  freeList := 0

theorem inv_init [NeZero n] (blocknr : Fin n → Block) : Inv (init blocknr) := by
  obtain ⟨m, rfl⟩ := Nat.exists_eq_succ_of_ne_zero (NeZero.ne n)
  have hlast : (List.finRange (m + 1)).getLast? = some (Fin.last m) := by
    simp [List.getLast?_eq_getElem?, Fin.ext_iff]
  have hhead : (List.finRange (m + 1)).head? = some 0 := by simp [List.finRange_succ]
  refine ⟨⟨List.finRange (m + 1), List.nodup_finRange _, List.mem_finRange, hhead, ?_⟩,
    ⟨fun _ => [], fun _ => List.nodup_nil, fun _ => rfl, fun _ => trivial, ?_⟩,
    fun b _ => ⟨rfl, rfl⟩, fun b _ hb => absurd rfl hb⟩
  · unfold Ring
    rw [hlast, hhead]
    refine seg_of_getElem (fun i hi => ?_) fun i hi => ?_
    · rw [List.length_finRange] at hi
      simp only [init, List.getElem_finRange]
      have := Fin.coe_sub_one (n := m) ⟨i, hi⟩
      rcases i with _ | i
      · simp [Fin.ext_iff]
      · have hi' : i < m + 1 := by omega
        simp [Fin.ext_iff, this, hi']
    · rw [List.length_finRange] at hi
      simp only [init, List.getElem_finRange]
      have := Fin.val_add_one (n := m) ⟨i, hi⟩
      by_cases hm : i = m
      · subst hm
        simp [Fin.ext_iff, this]
      · have hi' : i < m := by omega
        simp [Fin.ext_iff, this, hm, hi']
  · intro k b
    simp [init]

end Queues

end Linux011.Buffer
