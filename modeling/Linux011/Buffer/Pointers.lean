import Linux011.Buffer.Representation

/-!
# The pointers that the queues of the buffer cache follow

The functions on the queues once more, each load and store through a pointer tested.

1. `loadVia`, `storeVia`; `findVia`, `removeVia`, `insertVia`.
2. `removeVia_ok`: `remove_from_queues` follows no null pointer.
3. `insertVia_iff`: `insert_into_queues` follows one where the hash queue is empty.
4. `move_valid_iff`.
-/

namespace Linux011.Buffer

inductive Fault
  /-- A load or a store through a null pointer. -/
  | null
  /-- "Free block list corrupted" -/
  | freeList
  deriving DecidableEq

namespace Queues

variable {n : ℕ}

/-- `p->f`. -/
def loadVia {γ : Type*} (f : Fin n → γ) : Option (Fin n) → Except Fault γ
  | some x => .ok (f x)
  | none => .error .null

/-- `p->f = v`. -/
def storeVia {γ : Type*} (f : Fin n → γ) (p : Option (Fin n)) (v : γ) :
    Except Fault (Fin n → γ) :=
  match p with
  | some x => .ok (Function.update f x v)
  | none => .error .null

/-! ## The functions -/

/-- The loop of `find_buffer` from `tmp` on. -/
def findFromVia (q : Queues n) (dev : Dev) (block : Block) :
    ℕ → Option (Fin n) → Except Fault (Option (Fin n))
  | 0, _ => .ok none
  | k + 1, tmp =>
    if tmp = none then .ok none
    else do
      let d ← loadVia q.bDev tmp
      let b ← loadVia q.bBlocknr tmp
      if d = dev ∧ b = block then return tmp
      else do
        let next ← loadVia q.bNext tmp
        findFromVia q dev block k next

/-- `find_buffer`. -/
def findVia (q : Queues n) (dev : Dev) (block : Block) : Except Fault (Option (Fin n)) :=
  q.findFromVia dev block n (q.hashTable (hashfn dev block))

/-- `if (bh->b_next) bh->b_next->b_prev = bh->b_prev`. -/
def unhashNext (q : Queues n) (bh : Fin n) : Except Fault (Queues n) :=
  if q.bNext bh ≠ none then do
    let f ← storeVia q.bPrev (q.bNext bh) (q.bPrev bh)
    return { q with bPrev := f }
  else .ok q

/-- `if (bh->b_prev) bh->b_prev->b_next = bh->b_next`. -/
def unhashPrev (q : Queues n) (bh : Fin n) : Except Fault (Queues n) :=
  if q.bPrev bh ≠ none then do
    let f ← storeVia q.bNext (q.bPrev bh) (q.bNext bh)
    return { q with bNext := f }
  else .ok q

/-- Remove from hash-queue. -/
def unhashVia (q : Queues n) (bh : Fin n) : Except Fault (Queues n) := do
  let q ← q.unhashNext bh
  let q ← q.unhashPrev bh
  if q.hashTable (q.hash bh) = some bh then
    return { q with hashTable := Function.update q.hashTable (q.hash bh) (q.bNext bh) }
  else return q

/-- Remove from free list. Both pointers are tested before they are followed. -/
def unfreeVia (q : Queues n) (bh : Fin n) : Except Fault (Queues n) :=
  match q.bPrevFree bh, q.bNextFree bh with
  | some prev, some next => do
    let f ← storeVia q.bNextFree (some prev) (some next)
    let g ← storeVia q.bPrevFree (some next) (some prev)
    return { q with
      bNextFree := f
      bPrevFree := g
      freeList := if q.freeList = bh then next else q.freeList }
  | _, _ => .error .freeList

/-- `remove_from_queues`. -/
def removeVia (q : Queues n) (bh : Fin n) : Except Fault (Queues n) := do
  let q ← q.unhashVia bh
  q.unfreeVia bh

/-- Put at end of free list. -/
def refreeVia (q : Queues n) (bh : Fin n) : Except Fault (Queues n) := do
  let q := { q with bNextFree := Function.update q.bNextFree bh (some q.freeList) }
  let q := { q with bPrevFree := Function.update q.bPrevFree bh (q.bPrevFree q.freeList) }
  let f ← storeVia q.bNextFree (q.bPrevFree q.freeList) (some bh)
  let q := { q with bNextFree := f }
  return { q with bPrevFree := Function.update q.bPrevFree q.freeList (some bh) }

/-- Put the buffer in new hash-queue if it has a device. -/
def rehashVia (q : Queues n) (bh : Fin n) : Except Fault (Queues n) := do
  let q := { q with bPrev := Function.update q.bPrev bh none }
  let q := { q with bNext := Function.update q.bNext bh none }
  if q.bDev bh = 0 then return q
  else do
    let q := { q with bNext := Function.update q.bNext bh (q.hashTable (q.hash bh)) }
    let q := { q with hashTable := Function.update q.hashTable (q.hash bh) (some bh) }
    let f ← storeVia q.bPrev (q.bNext bh) (some bh)
    return { q with bPrev := f }

/-- `insert_into_queues`. -/
def insertVia (q : Queues n) (bh : Fin n) : Except Fault (Queues n) := do
  let q ← q.refreeVia bh
  q.rehashVia bh

/-- What `getblk` asks of the queues of a block follows no null pointer: the search, and moving a
buffer to the block. -/
structure Valid (q : Queues n) (bh : Fin n) (dev : Dev) (block : Block) : Prop where
  find : ∃ r, q.findVia dev block = .ok r
  remove : ∃ q', q.removeVia bh = .ok q'
  insert : ∀ q', q.removeVia bh = .ok q' → ∃ q'', (q'.setKey bh dev block).insertVia bh = .ok q''

/-! ## What they do -/

variable {q q' : Queues n} {bh : Fin n} {dev : Dev} {block : Block}

theorem findFromVia_eq (k : ℕ) (tmp : Option (Fin n)) :
    q.findFromVia dev block k tmp = .ok (q.findFrom dev block k tmp) := by
  induction k generalizing tmp with
  | zero => rfl
  | succ k ih =>
    cases tmp with
    | none => rfl
    | some x =>
      unfold findFromVia findFrom
      rw [if_neg (Option.some_ne_none x)]
      show (if q.Carries x dev block then Except.ok (some x) else q.findFromVia dev block k (q.bNext x)) = _
      split_ifs
      · rfl
      · exact ih _

theorem findVia_eq : q.findVia dev block = .ok (q.findBuffer dev block) :=
  findFromVia_eq n _

theorem unhashNext_eq :
    q.unhashNext bh = .ok { q with bPrev := storeAt q.bPrev (q.bNext bh) (q.bPrev bh) } := by
  unfold unhashNext
  cases h : q.bNext bh <;> rfl

theorem unhashPrev_eq :
    q.unhashPrev bh = .ok { q with bNext := storeAt q.bNext (q.bPrev bh) (q.bNext bh) } := by
  unfold unhashPrev
  cases h : q.bPrev bh <;> rfl

theorem unhashVia_eq : q.unhashVia bh = .ok (q.unhash bh) := by
  unfold unhashVia
  rw [unhashNext_eq]
  show (do
    let q ← unhashPrev { q with bPrev := storeAt q.bPrev (q.bNext bh) (q.bPrev bh) } bh
    if q.hashTable (q.hash bh) = some bh then
      return { q with hashTable := Function.update q.hashTable (q.hash bh) (q.bNext bh) }
    else return q : Except Fault (Queues n)) = _
  rw [unhashPrev_eq]
  unfold unhash
  exact (apply_ite Except.ok _ _ _).symm

theorem unfreeVia_eq (h : q.unfree bh = some q') : q.unfreeVia bh = .ok q' := by
  cases hp : q.bPrevFree bh with
  | none => simp [unfree, hp] at h
  | some prev =>
    cases hn : q.bNextFree bh with
    | none => simp [unfree, hp, hn] at h
    | some next =>
      simp only [unfree, hp, hn, Option.some.injEq] at h
      unfold unfreeVia
      rw [hp, hn, ← h]
      rfl

/-- `remove_from_queues` follows no null pointer. -/
theorem removeVia_ok (h : q.removeFromQueues bh = some q') : q.removeVia bh = .ok q' := by
  unfold removeVia
  rw [unhashVia_eq]
  exact unfreeVia_eq h

theorem refreeVia_eq (h : (Function.update q.bPrevFree bh (q.bPrevFree q.freeList)) q.freeList ≠ none) :
    q.refreeVia bh = .ok (q.refree bh) := by
  obtain ⟨x, hx⟩ := Option.ne_none_iff_exists'.1 h
  unfold refreeVia refree
  dsimp only
  rw [hx]
  rfl

/-- `insert_into_queues` stores through the first pointer of the hash queue, whether it is null or
not. -/
theorem rehashVia_iff : (∃ q', q.rehashVia bh = .ok q') ↔
    q.bDev bh = 0 ∨ q.hashTable (q.hash bh) ≠ none := by
  unfold rehashVia
  dsimp only
  by_cases hd : q.bDev bh = 0
  · rw [if_pos hd]
    exact ⟨fun _ => .inl hd, fun _ => ⟨_, rfl⟩⟩
  · rw [if_neg hd, Function.update_self]
    have hhash : ∀ f g : Fin n → Option (Fin n), hash { q with bPrev := f, bNext := g } bh = q.hash bh :=
      fun _ _ => rfl
    rw [hhash]
    cases hh : q.hashTable (q.hash bh) with
    | none =>
      refine ⟨?_, fun h => absurd rfl (h.resolve_left hd)⟩
      rintro ⟨q', h⟩
      cases h
    | some x => exact ⟨fun _ => .inr (Option.some_ne_none x), fun _ => ⟨_, rfl⟩⟩

/-! ## Moving a buffer -/

theorem Inv.unfree (h : Inv q) (bh : Fin n) :
    ∃ q', q.removeFromQueues bh = some q' ∧ q'.bPrevFree bh ≠ none ∧
      q'.bPrevFree q'.freeList ≠ none := by
  obtain ⟨l, hl⟩ := h.ring
  obtain ⟨f1, f2, f3, -, -⟩ := q.unhash_frame bh
  obtain ⟨q', hq, l', hl'⟩ := (hl.congr f1 f2 f3).move bh
  have hprev : q'.bPrevFree bh ≠ none := by
    unfold Queues.unfree at hq
    split at hq
    · next prev next hp hn =>
      cases hq
      show (Function.update (q.unhash bh).bPrevFree next (some prev)) bh ≠ none
      by_cases he : bh = next
      · rw [he, Function.update_self]
        exact Option.some_ne_none _
      · rw [Function.update_of_ne he, hp]
        exact Option.some_ne_none _
    · cases hq
  refine ⟨q', hq, hprev, ?_⟩
  by_cases he : q'.freeList = bh
  · rw [he]
    exact hprev
  · obtain ⟨xs, ys, rfl⟩ := List.append_of_mem (hl'.mem bh)
    obtain ⟨prev, next, hp, -⟩ := hl'.links
    have hset : (q'.refree bh).bPrevFree bh = q'.bPrevFree q'.freeList := by
      unfold refree
      dsimp only
      rw [Function.update_of_ne (Ne.symm he), Function.update_self]
    rw [← hset, hp]
    exact Option.some_ne_none _

/-- The hash queue of a key is empty when the buffer is off it, unless another buffer is on it. -/
theorem Inv.hashTable (h : Inv q) (hq : q.removeFromQueues bh = some q') (k : Fin 307) :
    q'.hashTable k ≠ none ↔ ∃ b, b ≠ bh ∧ q.bDev b ≠ 0 ∧ q.hash b = k := by
  obtain ⟨chain, hc⟩ := h.unhash bh
  obtain ⟨-, -, g3, -, -⟩ := unfree_frame hq
  obtain ⟨-, -, -, f4, f5⟩ := q.unhash_frame bh
  have hhash : ∀ x, (q.unhash bh).hash x = q.hash x := by
    intro x
    unfold hash
    rw [f4, f5]
  rw [g3, hc.head]
  constructor
  · intro hne
    obtain ⟨b, hb⟩ := Option.ne_none_iff_exists'.1 hne
    obtain ⟨⟨hd, hx⟩, hk⟩ := (hc.mem k b).1 (List.mem_of_mem_head? hb)
    exact ⟨b, hx, hd, (hhash b).symm.trans hk⟩
  · rintro ⟨b, hx, hd, hk⟩ hnil
    have hm := (hc.mem k b).2 ⟨⟨hd, hx⟩, (hhash b).trans hk⟩
    rw [List.head?_eq_none_iff.1 hnil] at hm
    cases hm

/-- **Where moving a buffer follows a null pointer**: at the end of `insert_into_queues`, if no other
buffer is on the hash queue of the block. -/
theorem Inv.valid_iff (h : Inv q) :
    q.Valid bh dev block ↔ dev = 0 ∨ ∃ b, b ≠ bh ∧ q.bDev b ≠ 0 ∧ q.hash b = hashfn dev block := by
  obtain ⟨q', hq, hprev, hfree⟩ := h.unfree bh
  have hremove := removeVia_ok hq
  have hinsert : (∃ q'', (q'.setKey bh dev block).insertVia bh = .ok q'') ↔
      dev = 0 ∨ ∃ b, b ≠ bh ∧ q.bDev b ≠ 0 ∧ q.hash b = hashfn dev block := by
    have hne : Function.update (q'.setKey bh dev block).bPrevFree bh
        ((q'.setKey bh dev block).bPrevFree (q'.setKey bh dev block).freeList)
        (q'.setKey bh dev block).freeList ≠ none := by
      show Function.update q'.bPrevFree bh (q'.bPrevFree q'.freeList) q'.freeList ≠ none
      by_cases he : q'.freeList = bh
      · rw [he, Function.update_self]
        exact hprev
      · rw [Function.update_of_ne he]
        exact hfree
    have heq : (q'.setKey bh dev block).insertVia bh =
        ((q'.setKey bh dev block).refree bh).rehashVia bh := by
      unfold insertVia
      rw [refreeVia_eq hne]
      rfl
    have hdev : ((q'.setKey bh dev block).refree bh).bDev bh = dev := Function.update_self ..
    have hnr : ((q'.setKey bh dev block).refree bh).bBlocknr bh = block := Function.update_self ..
    have hkey : ((q'.setKey bh dev block).refree bh).hash bh = hashfn dev block := by
      unfold hash
      rw [hdev, hnr]
    rw [heq, rehashVia_iff, hdev, hkey]
    exact or_congr_right (h.hashTable hq _)
  rw [← hinsert]
  constructor
  · exact fun hv => hv.insert q' hremove
  · refine fun hi => ⟨⟨_, findVia_eq⟩, ⟨q', hremove⟩, fun q₁ h₁ => ?_⟩
    rw [hremove] at h₁
    cases h₁
    exact hi

end Queues

open Queues

variable {α : Type*} {n : ℕ}

/-- **The pointers of the hash queues**: in every reachable state moving a buffer to a block follows
valid pointers only if and only if another buffer is on the hash queue of the block. -/
theorem move_valid_iff [NeZero n] {s : State α n} (h : (bufferCache α n).Reachable s) (bh : Fin n)
    (dev : Dev) (block : Block) :
    s.cache.toQueues.Valid bh dev block ↔
      dev = 0 ∨ ∃ b, b ≠ bh ∧ s.cache.bDev b ≠ 0 ∧ s.cache.hash b = hashfn dev block :=
  (Reachable.coherent h).queues.valid_iff

/-- Two buffers, the first with block 7 of device 0x301: the second is moved to block 929, which has
the same hash. -/
theorem move_valid_second : ∃ s : State ℕ 2, (bufferCache ℕ 2).Reachable s ∧
    s.cache.bDev 0 = 0x301 ∧ s.cache.bBlocknr 0 = 7 ∧ s.cache.toQueues.Valid 1 0x301 929 := by
  have h : ((State.boot (n := 2) (fun _ => 0) (fun _ _ => 0) (fun m => m = 3) fun _ _ => 0).steps
      (.schedule 0 :: .start (.getblk 0x301 7) :: List.replicate 5 (.run .go))).map
      (fun s => (s.cache.bDev 0, s.cache.bBlocknr 0)) = some (0x301, 7) := by
    decide
  obtain ⟨s, hs, he⟩ := Option.map_eq_some_iff.1 h
  obtain ⟨hdev, hnr⟩ := Prod.mk.inj he
  have hr : (bufferCache ℕ 2).Reachable s :=
    reachable_steps (.start ⟨_, _, _, _, rfl, rfl⟩) hs
  have hhash : s.cache.hash 0 = hashfn 0x301 929 := by
    unfold Queues.hash
    rw [hdev, hnr]
    decide
  refine ⟨s, hr, hdev, hnr, (move_valid_iff hr 1 0x301 929).2 (.inr ⟨0, by decide, ?_, hhash⟩)⟩
  rw [hdev]
  decide

/-- After `buffer_init` the first `getblk` of all moves its buffer to an empty hash queue. -/
theorem first_move_null : ∃ s : State ℕ 2, (bufferCache ℕ 2).Reachable s ∧
    s.cache.findBuffer 0x301 7 = none ∧ s.cache.Unused 0 ∧ ¬ s.cache.toQueues.Valid 0 0x301 7 := by
  refine ⟨State.boot (fun _ => 0) (fun _ _ => 0) (fun m => m = 3) fun _ _ => 0,
    .start ⟨_, _, _, _, rfl, rfl⟩, by decide, ⟨rfl, rfl, rfl⟩, fun h => ?_⟩
  rcases (Queues.inv_init _).valid_iff.1 h with hd | ⟨b, -, hd, -⟩
  · exact absurd hd (by decide)
  · exact hd rfl

end Linux011.Buffer
