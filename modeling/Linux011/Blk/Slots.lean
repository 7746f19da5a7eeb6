import Linux011.Blk.Request

/-!
# The slots, the queues and the locks

1. `Rep`: where every slot and the lock of every buffer is.
2. Its parts, with what keeps each: `Named`, `Locks`, `Stored`.
3. What a step can do to all of them: `Rep.setLock`, `Rep.fill`, `Rep.enqueue`, `Rep.dequeue`.
-/

namespace Linux011.Blk

variable {ι β : Type*} [DecidableEq ι] [DecidableEq β]

/-- Where a slot is. -/
inductive Place (ι : Type*)
  | free
  | queued (major : Major)
  /-- Filled up by a process that is about to call `add_request`. -/
  | filled (p : ι)

/-- Who has locked a buffer. -/
inductive Owner (ι : Type*)
  | slot (i : Slot)
  | proc (p : ι)

def Pc.holds : Pc β → Option β
  | .out | .locking _ _ _ _ => none
  | .repeating _ _ _ b | .adding _ _ b => some b

def Pc.slot : Pc β → Option Slot
  | .out | .locking _ _ _ _ | .repeating _ _ _ _ => none
  | .adding _ i _ => some i

def State.links (s : State ι β) : Slot → Option Slot :=
  fun i => (s.request i).next

structure Rep (s : State ι β) (queue : Major → List Slot) (place : Slot → Place ι)
    (own : β → Option (Owner ι)) : Prop where
  path : ∀ m, Path s.links (s.current m) (queue m) none
  queued : ∀ m i, i ∈ queue m ↔ place i = .queued m
  filled : ∀ p i, place i = .filled p ↔ (s.proc p).slot = some i
  free : ∀ i, place i = .free → (s.request i).dev = -1
  used : ∀ i, place i ≠ .free → 0 ≤ (s.request i).dev
  adding : ∀ p m i b, s.proc p = .adding m i b → (s.request i).bh = some b
  lock : ∀ b, (s.bh b).lock = (own b).isSome
  proc : ∀ b p, own b = some (.proc p) ↔ (s.proc p).holds = some b
  slot : ∀ b i, own b = some (.slot i) ↔ (∃ m, place i = .queued m) ∧ (s.request i).bh = some b
  bh : ∀ i m, place i = .queued m → (s.request i).bh ≠ none
  write : ∀ i, place i ≠ .free → (s.request i).cmd = .write → i.val < 21
  id_lt : ∀ i m, place i = .queued m → (s.request i).id < s.added
  id_inj : ∀ i j m n, place i = .queued m → place j = .queued n →
    (s.request i).id = (s.request j).id → i = j
  completed_lt : ∀ n ∈ s.completed, n < s.added
  fresh : ∀ i m, place i = .queued m → (s.request i).id ∉ s.completed
  all : ∀ n < s.added, n ∈ s.completed ∨ ∃ i m, place i = .queued m ∧ (s.request i).id = n
  nodup : s.completed.Nodup

variable {s s' : State ι β} {queue : Major → List Slot} {place : Slot → Place ι}
  {own : β → Option (Owner ι)} {p : ι} {b : β} {i : Slot} {major : Major} {cmd : Cmd} {ahead : Bool}
  {c : Pc β}

/-! ## Names, locks and what a slot holds

Each of the three is kept by lemmas of its own, of which the steps below are made. -/

/-- Every number given out is completed, or is on one request that waits. -/
structure Named (waits : Slot → Prop) (id : Slot → ℕ) (added : ℕ) (completed : List ℕ) : Prop where
  lt : ∀ i, waits i → id i < added
  inj : ∀ i j, waits i → waits j → id i = id j → i = j
  completed_lt : ∀ n ∈ completed, n < added
  fresh : ∀ i, waits i → id i ∉ completed
  all : ∀ n < added, n ∈ completed ∨ ∃ i, waits i ∧ id i = n
  nodup : completed.Nodup

section Named

variable {waits waits' : Slot → Prop} {id id' : Slot → ℕ} {added : ℕ} {completed : List ℕ} {i : Slot}

theorem Named.congr (h : Named waits id added completed) (hw : ∀ j, waits' j ↔ waits j)
    (hid : ∀ j, waits j → id' j = id j) : Named waits' id' added completed := by
  refine ⟨fun j hj => ?_, fun j k hj hk hjk => ?_, h.completed_lt, fun j hj => ?_, fun n hn => ?_,
    h.nodup⟩
  · rw [hid j ((hw j).1 hj)]
    exact h.lt j ((hw j).1 hj)
  · rw [hid j ((hw j).1 hj), hid k ((hw k).1 hk)] at hjk
    exact h.inj j k ((hw j).1 hj) ((hw k).1 hk) hjk
  · rw [hid j ((hw j).1 hj)]
    exact h.fresh j ((hw j).1 hj)
  · refine (h.all n hn).imp_right ?_
    rintro ⟨j, hj, hjn⟩
    exact ⟨j, (hw j).2 hj, (hid j hj).trans hjn⟩

/-- A request begins to wait, under the next number. -/
theorem Named.add (h : Named waits id added completed) (hi : ¬waits i)
    (hw : ∀ j, waits' j ↔ waits j ∨ j = i) (hid : ∀ j, j ≠ i → id' j = id j) (hnew : id' i = added) :
    Named waits' id' (added + 1) completed := by
  have hold : ∀ {j}, waits j → id' j = id j := fun {j} hj => hid j fun hji => hi (hji ▸ hj)
  have hlt : ∀ {j}, waits j → id' j < added := fun {j} hj => (hold hj).trans_lt (h.lt j hj)
  refine ⟨fun j hj => ?_, fun j k hj hk hjk => ?_, fun n hn => Nat.lt_succ_of_lt (h.completed_lt n hn),
    fun j hj => ?_, fun n hn => ?_, h.nodup⟩
  · rcases (hw j).1 hj with hj | rfl
    · exact Nat.lt_succ_of_lt (hlt hj)
    · rw [hnew]
      exact Nat.lt_succ_self _
  · rcases (hw j).1 hj with hj | hj <;> rcases (hw k).1 hk with hk | hk
    · rw [hold hj, hold hk] at hjk
      exact h.inj j k hj hk hjk
    · rw [hk, hnew] at hjk
      exact absurd hjk (hlt hj).ne
    · rw [hj, hnew] at hjk
      exact absurd hjk.symm (hlt hk).ne
    · rw [hj, hk]
  · rcases (hw j).1 hj with hj | rfl
    · rw [hold hj]
      exact h.fresh j hj
    · rw [hnew]
      exact fun hn => Nat.lt_irrefl _ (h.completed_lt _ hn)
  · rcases Nat.lt_succ_iff_lt_or_eq.1 hn with hn | rfl
    · rcases h.all n hn with hn | ⟨j, hj, hjn⟩
      · exact .inl hn
      · exact .inr ⟨j, (hw j).2 (.inl hj), (hold hj).trans hjn⟩
    · exact .inr ⟨i, (hw i).2 (.inr rfl), hnew⟩

/-- A request that waits is completed. -/
theorem Named.complete (h : Named waits id added completed) (hi : waits i)
    (hw : ∀ j, waits' j ↔ j ≠ i ∧ waits j) (hid : ∀ j, j ≠ i → id' j = id j) :
    Named waits' id' added (completed ++ [id i]) := by
  refine ⟨fun j hj => ?_, fun j k hj hk hjk => ?_, fun n hn => ?_, fun j hj hn => ?_, fun n hn => ?_, ?_⟩
  · obtain ⟨hji, hj⟩ := (hw j).1 hj
    rw [hid j hji]
    exact h.lt j hj
  · obtain ⟨hji, hj⟩ := (hw j).1 hj
    obtain ⟨hki, hk⟩ := (hw k).1 hk
    rw [hid j hji, hid k hki] at hjk
    exact h.inj j k hj hk hjk
  · rcases List.mem_append.1 hn with hn | hn
    · exact h.completed_lt n hn
    · rw [List.mem_singleton.1 hn]
      exact h.lt i hi
  · obtain ⟨hji, hj⟩ := (hw j).1 hj
    rw [hid j hji] at hn
    rcases List.mem_append.1 hn with hn | hn
    · exact h.fresh j hj hn
    · exact hji (h.inj j i hj hi (List.mem_singleton.1 hn))
  · rcases h.all n hn with hn | ⟨j, hj, hjn⟩
    · exact .inl (List.mem_append_left _ hn)
    · by_cases hji : j = i
      · rw [hji] at hjn
        exact .inl (List.mem_append_right _ (List.mem_singleton.2 hjn.symm))
      · exact .inr ⟨j, (hw j).2 ⟨hji, hj⟩, (hid j hji).trans hjn⟩
  · refine List.nodup_append'.2 ⟨h.nodup, List.nodup_singleton _, ?_⟩
    exact List.disjoint_singleton.2 (h.fresh i hi)

end Named

/-- A buffer is locked for its owner: for the process that holds it, or for the slot that serves it. -/
structure Locks (own : β → Option (Owner ι)) (lock : β → Bool) (holds : ι → Option β)
    (serves : Slot → β → Prop) : Prop where
  lock : ∀ b, lock b = (own b).isSome
  proc : ∀ b p, own b = some (.proc p) ↔ holds p = some b
  slot : ∀ b i, own b = some (.slot i) ↔ serves i b

section Locks

variable {lock lock' : β → Bool} {holds holds' : ι → Option β} {serves serves' : Slot → β → Prop}

omit [DecidableEq ι] [DecidableEq β] in
theorem Locks.congr (h : Locks own lock holds serves) (hh : ∀ q, holds' q = holds q)
    (hs : ∀ j d, serves' j d ↔ serves j d) : Locks own lock holds' serves' :=
  ⟨h.lock, fun d q => by rw [h.proc, hh], fun d j => by rw [h.slot, hs]⟩

omit [DecidableEq ι] in
/-- The lock goes from a process to a slot. -/
theorem Locks.toSlot (h : Locks own lock holds serves) (hp : holds p = some b)
    (hl : ∀ d, lock' d = lock d) (hself : holds' p = none) (hother : ∀ q, q ≠ p → holds' q = holds q)
    (hs : ∀ j d, serves' j d ↔ serves j d ∨ j = i ∧ d = b) :
    Locks (Function.update own b (some (.slot i))) lock' holds' serves' := by
  have hb : own b = some (.proc p) := (h.proc b p).2 hp
  refine ⟨fun d => ?_, fun d q => ?_, fun d j => ?_⟩
  · rw [hl, h.lock]
    by_cases hd : d = b
    · rw [hd, hb, Function.update_self]
      rfl
    · rw [Function.update_of_ne hd]
  · by_cases hq : q = p
    · rw [hq, hself]
      refine iff_of_false (fun he => ?_) nofun
      by_cases hd : d = b
      · rw [hd, Function.update_self] at he
        cases he
      · rw [Function.update_of_ne hd, h.proc, hp] at he
        exact hd (Option.some.inj he).symm
    · rw [hother q hq, ← h.proc]
      by_cases hd : d = b
      · rw [hd, Function.update_self, hb]
        exact iff_of_false nofun fun he => hq (Owner.proc.inj (Option.some.inj he)).symm
      · rw [Function.update_of_ne hd]
  · rw [hs]
    by_cases hd : d = b
    · subst hd
      rw [Function.update_self]
      constructor
      · rintro ⟨⟩
        exact .inr ⟨rfl, rfl⟩
      · rintro (hj | ⟨rfl, -⟩)
        · rw [← h.slot, hb] at hj
          cases hj
        · rfl
    · rw [Function.update_of_ne hd, h.slot]
      exact ⟨.inl, fun hj => hj.resolve_right fun hj => hd hj.2⟩

omit [DecidableEq ι] in
/-- A slot gives its lock up. -/
theorem Locks.free (h : Locks own lock holds serves) (hi : serves i b)
    (hone : ∀ d, serves i d → d = b) (hl : ∀ d, lock' d = if d = b then false else lock d)
    (hs : ∀ j d, serves' j d ↔ j ≠ i ∧ serves j d) :
    Locks (Function.update own b none) lock' holds serves' := by
  have hb : own b = some (.slot i) := (h.slot b i).2 hi
  refine ⟨fun d => ?_, fun d q => ?_, fun d j => ?_⟩
  · rw [hl]
    by_cases hd : d = b
    · rw [if_pos hd, hd, Function.update_self]
      rfl
    · rw [if_neg hd, Function.update_of_ne hd]
      exact h.lock d
  · rw [← h.proc]
    by_cases hd : d = b
    · rw [hd, Function.update_self, hb]
      exact iff_of_false nofun nofun
    · rw [Function.update_of_ne hd]
  · rw [hs]
    by_cases hd : d = b
    · subst hd
      rw [Function.update_self]
      refine iff_of_false nofun fun ⟨hji, hj⟩ => ?_
      rw [← h.slot, hb] at hj
      exact hji (Owner.slot.inj (Option.some.inj hj)).symm
    · rw [Function.update_of_ne hd, h.slot]
      exact ⟨fun hj => ⟨fun hji => hd (hone d (hji ▸ hj)), hj⟩, And.right⟩

omit [DecidableEq ι] in
/-- The lock of a buffer goes to a process or from it. -/
theorem Locks.set {v : Bool} (h : Locks own lock holds serves) (hno : ∀ j, own b ≠ some (.slot j))
    (hbefore : own b = none ∧ holds p = none ∨ own b = some (.proc p)) (hself : lock' b = v)
    (hafter : v = true ∧ holds' p = some b ∨ v = false ∧ holds' p = none)
    (hl : ∀ d, d ≠ b → lock' d = lock d) (hother : ∀ q, q ≠ p → holds' q = holds q) :
    Locks (Function.update own b (if v then some (.proc p) else none)) lock' holds' serves := by
  -- the process holds no other buffer
  have hp : ∀ {d}, d ≠ b → holds p ≠ some d := by
    intro d hd hp
    rcases hbefore with ⟨-, hn⟩ | hb
    · rw [hn] at hp
      cases hp
    · rw [(h.proc b p).1 hb] at hp
      exact hd (Option.some.inj hp).symm
  refine ⟨fun d => ?_, fun d q => ?_, fun d j => ?_⟩
  · by_cases hd : d = b
    · subst hd
      rw [Function.update_self, hself]
      cases v <;> rfl
    · rw [hl d hd, Function.update_of_ne hd]
      exact h.lock d
  · by_cases hd : d = b
    · subst hd
      rw [Function.update_self]
      by_cases hq : q = p
      · subst hq
        rcases hafter with ⟨hl, hh⟩ | ⟨hl, hh⟩
        · rw [hl, hh]
          exact iff_of_true rfl rfl
        · rw [hl, hh]
          exact iff_of_false nofun nofun
      · rw [hother q hq, ← h.proc]
        refine iff_of_false ?_ ?_
        · split
          · exact fun he => hq (Owner.proc.inj (Option.some.inj he)).symm
          · nofun
        · rcases hbefore with ⟨hn, -⟩ | hb
          · rw [hn]
            nofun
          · rw [hb]
            exact fun he => hq (Owner.proc.inj (Option.some.inj he)).symm
    · rw [Function.update_of_ne hd, h.proc]
      by_cases hq : q = p
      · subst hq
        refine iff_of_false (hp hd) ?_
        rcases hafter with ⟨-, hh⟩ | ⟨-, hh⟩
        · rw [hh]
          exact fun he => hd (Option.some.inj he).symm
        · rw [hh]
          nofun
      · rw [hother q hq]
  · by_cases hd : d = b
    · subst hd
      rw [Function.update_self]
      refine iff_of_false ?_ fun hj => hno j ((h.slot d j).2 hj)
      split <;> nofun
    · rw [Function.update_of_ne hd]
      exact h.slot d j

end Locks

/-- `dev` of the free slots and of the others; a write has one of the first slots. -/
structure Stored (place : Slot → Place ι) (request : Slot → Request β) : Prop where
  free : ∀ i, place i = .free → (request i).dev = -1
  used : ∀ i, place i ≠ .free → 0 ≤ (request i).dev
  write : ∀ i, place i ≠ .free → (request i).cmd = .write → i.val < 21

omit [DecidableEq ι] [DecidableEq β] in
/-- A slot goes elsewhere. -/
theorem Stored.update {request request' : Slot → Request β} {x : Place ι} (h : Stored place request)
    (hother : ∀ j, j ≠ i → (request' j).dev = (request j).dev ∧ (request' j).cmd = (request j).cmd)
    (hfree : x = .free → (request' i).dev = -1)
    (hused : x ≠ .free → 0 ≤ (request' i).dev ∧ ((request' i).cmd = .write → i.val < 21)) :
    Stored (Function.update place i x) request' := by
  refine ⟨fun j hj => ?_, fun j hj => ?_, fun j hj hw => ?_⟩ <;> by_cases hji : j = i
  · rw [hji, Function.update_self] at hj
    exact hji ▸ hfree hj
  · rw [Function.update_of_ne hji] at hj
    rw [(hother j hji).1]
    exact h.free j hj
  · rw [hji, Function.update_self] at hj
    exact hji ▸ (hused hj).1
  · rw [Function.update_of_ne hji] at hj
    rw [(hother j hji).1]
    exact h.used j hj
  · subst hji
    rw [Function.update_self] at hj
    exact (hused hj).2 hw
  · rw [Function.update_of_ne hji] at hj
    rw [(hother j hji).2] at hw
    exact h.write j hj hw

omit [DecidableEq ι] in
theorem update_queued {x : Place ι} {j : Slot} {m : Major} (hx : ∀ m, x ≠ .queued m) :
    Function.update place i x j = .queued m ↔ j ≠ i ∧ place j = .queued m := by
  by_cases hj : j = i
  · rw [hj, Function.update_self]
    exact iff_of_false (hx m) fun h => h.1 rfl
  · rw [Function.update_of_ne hj]
    exact (and_iff_right hj).symm

/-- The slot is on a queue. -/
def Place.Waits (place : Slot → Place ι) (i : Slot) : Prop := ∃ m, place i = .queued m

section Parts

omit [DecidableEq ι] [DecidableEq β]

theorem Rep.named (h : Rep s queue place own) :
    Named (Place.Waits place) (fun i => (s.request i).id) s.added s.completed where
  lt := fun i ⟨m, hi⟩ => h.id_lt i m hi
  inj := fun i j ⟨m, hi⟩ ⟨n, hj⟩ => h.id_inj i j m n hi hj
  completed_lt := h.completed_lt
  fresh := fun i ⟨m, hi⟩ => h.fresh i m hi
  all := fun n hn => (h.all n hn).imp_right fun ⟨i, m, hi, hid⟩ => ⟨i, ⟨m, hi⟩, hid⟩
  nodup := h.nodup

theorem Rep.locks (h : Rep s queue place own) :
    Locks own (fun b => (s.bh b).lock) (fun p => (s.proc p).holds)
      (fun i b => Place.Waits place i ∧ (s.request i).bh = some b) :=
  ⟨h.lock, h.proc, h.slot⟩

theorem Rep.stored (h : Rep s queue place own) : Stored place s.request := ⟨h.free, h.used, h.write⟩

/-- The parts put together. -/
theorem Rep.of (hpath : ∀ m, Path s.links (s.current m) (queue m) none)
    (hqueued : ∀ m i, i ∈ queue m ↔ place i = .queued m)
    (hfilled : ∀ p i, place i = .filled p ↔ (s.proc p).slot = some i)
    (hadding : ∀ p m i b, s.proc p = .adding m i b → (s.request i).bh = some b)
    (hbh : ∀ i m, place i = .queued m → (s.request i).bh ≠ none) (hstored : Stored place s.request)
    (hlocks : Locks own (fun b => (s.bh b).lock) (fun p => (s.proc p).holds)
      (fun i b => Place.Waits place i ∧ (s.request i).bh = some b))
    (hnamed : Named (Place.Waits place) (fun i => (s.request i).id) s.added s.completed) :
    Rep s queue place own where
  path := hpath
  queued := hqueued
  filled := hfilled
  free := hstored.free
  used := hstored.used
  adding := hadding
  lock := hlocks.lock
  proc := hlocks.proc
  slot := hlocks.slot
  bh := hbh
  write := hstored.write
  id_lt i m hi := hnamed.lt i ⟨m, hi⟩
  id_inj i j m n hi hj := hnamed.inj i j ⟨m, hi⟩ ⟨n, hj⟩
  completed_lt := hnamed.completed_lt
  fresh i m hi := hnamed.fresh i ⟨m, hi⟩
  all n hn := (hnamed.all n hn).imp_right fun ⟨i, ⟨m, hi⟩, hid⟩ => ⟨i, m, hi, hid⟩
  nodup := hnamed.nodup

end Parts

/-! ## Steps -/

section Steps

omit [DecidableEq ι] [DecidableEq β] in
theorem request_self {r : Request β} : (s.setRequest i r).request i = r :=
  Function.update_self _ _ _

omit [DecidableEq ι] [DecidableEq β] in
theorem request_of_ne {j : Slot} {r : Request β} (hj : j ≠ i) :
    (s.setRequest i r).request j = s.request j :=
  Function.update_of_ne hj _ _

omit [DecidableEq ι] in
theorem bh_self {v : BufferHead} : (s.setBh b v).bh b = v :=
  Function.update_self _ _ _

omit [DecidableEq ι] in
theorem bh_of_ne {d : β} {v : BufferHead} (hd : d ≠ b) : (s.setBh b v).bh d = s.bh d :=
  Function.update_of_ne hd _ _

omit [DecidableEq β] in
/-- A process goes from one place to another without a buffer in either. -/
theorem Rep.setProc (h : Rep s queue place own) (hold : (s.proc p).holds = none)
    (hslot : (s.proc p).slot = none) (hc : c.holds = none) (hcs : c.slot = none) :
    Rep (s.setProc p c) queue place own := by
  refine ⟨h.path, h.queued, ?_, h.free, h.used, ?_, h.lock, ?_, h.slot, h.bh, h.write, h.id_lt,
    h.id_inj, h.completed_lt, h.fresh, h.all, h.nodup⟩
  · intro q i
    rw [h.filled]
    by_cases hq : q = p
    · subst hq
      show _ ↔ (Function.update s.proc q c q).slot = some i
      rw [Function.update_self, hslot, hcs]
    · show _ ↔ (Function.update s.proc p c q).slot = some i
      rw [Function.update_of_ne hq]
  · intro q m i b hq
    by_cases hqp : q = p
    · subst hqp
      have hself : (s.setProc q c).proc q = c := Function.update_self _ _ _
      rw [← hself, hq] at hcs
      cases hcs
    · exact h.adding q m i b ((Function.update_of_ne hqp _ _).symm.trans hq)
  · intro b q
    rw [h.proc]
    by_cases hq : q = p
    · subst hq
      show _ ↔ (Function.update s.proc q c q).holds = some b
      rw [Function.update_self, hold, hc]
    · show _ ↔ (Function.update s.proc p c q).holds = some b
      rw [Function.update_of_ne hq]

omit [DecidableEq ι] in
/-- A buffer changes, but not its lock. -/
theorem Rep.setBh (h : Rep s queue place own) {v : BufferHead} (hv : v.lock = (s.bh b).lock) :
    Rep (s.setBh b v) queue place own := by
  refine ⟨h.path, h.queued, h.filled, h.free, h.used, h.adding, ?_, h.proc, h.slot, h.bh, h.write,
    h.id_lt, h.id_inj, h.completed_lt, h.fresh, h.all, h.nodup⟩
  intro d
  rw [← h.lock]
  by_cases hd : d = b
  · rw [hd, bh_self]
    exact hv
  · rw [bh_of_ne hd]

/-- The lock of a buffer goes to a process or from it. -/
theorem Rep.setLock (h : Rep s queue place own) {v : BufferHead} (hno : ∀ i, own b ≠ some (.slot i))
    (hbefore : own b = none ∧ (s.proc p).holds = none ∨ own b = some (.proc p))
    (hslot : (s.proc p).slot = none) (hcs : c.slot = none)
    (hafter : v.lock = true ∧ c.holds = some b ∨ v.lock = false ∧ c.holds = none) :
    Rep ((s.setBh b v).setProc p c) queue place
      (Function.update own b (if v.lock then some (.proc p) else none)) := by
  have hproc : ∀ q, q ≠ p → ((s.setBh b v).setProc p c).proc q = s.proc q :=
    fun q hq => Function.update_of_ne hq _ _
  have hself : ((s.setBh b v).setProc p c).proc p = c := Function.update_self _ _ _
  have hbh : ((s.setBh b v).setProc p c).bh b = v := Function.update_self _ _ _
  have hlocks : Locks (Function.update own b (if v.lock then some (.proc p) else none))
      (fun d => (((s.setBh b v).setProc p c).bh d).lock)
      (fun q => (((s.setBh b v).setProc p c).proc q).holds)
      (fun i d => Place.Waits place i ∧ (s.request i).bh = some d) := by
    refine h.locks.set hno hbefore (congrArg BufferHead.lock hbh) ?_ (fun d hd => ?_) fun q hq =>
      congrArg Pc.holds (hproc q hq)
    · rw [hself]
      exact hafter
    · exact congrArg BufferHead.lock (Function.update_of_ne hd _ _)
  refine .of h.path h.queued (fun q i => ?_) (fun q m i d hq => ?_) h.bh h.stored hlocks h.named
  · rw [h.filled]
    by_cases hq : q = p
    · rw [hq, hself, hslot, hcs]
    · rw [hproc q hq]
  · by_cases hqp : q = p
    · rw [hqp, hself] at hq
      rw [hq] at hcs
      cases hcs
    · rw [hproc q hqp] at hq
      exact h.adding q m i d hq

omit [DecidableEq β] in
/-- A process fills up a free slot. -/
theorem Rep.fill (h : Rep s queue place own) {r : Request β} (hb : (s.proc p).holds = some b)
    (hslot : (s.proc p).slot = none) (hi : place i = .free) (hdev : 0 ≤ r.dev) (hrb : r.bh = some b)
    (hwrite : r.cmd = .write → i.val < 21) :
    Rep ((s.setRequest i r).setProc p (.adding major i b)) queue
      (Function.update place i (.filled p)) own := by
  obtain ⟨s', hs'⟩ : ∃ s', s' = (s.setRequest i r).setProc p (.adding major i b) := ⟨_, rfl⟩
  have hreq : ∀ j, j ≠ i → s'.request j = s.request j := by
    intro j hj
    rw [hs']
    exact Function.update_of_ne hj _ _
  have hself : s'.request i = r := by
    rw [hs']
    exact Function.update_self _ _ _
  have hproc : ∀ q, q ≠ p → s'.proc q = s.proc q := by
    intro q hq
    rw [hs']
    exact Function.update_of_ne hq _ _
  have hp : s'.proc p = .adding major i b := by
    rw [hs']
    exact Function.update_self _ _ _
  -- no queue sees the slot, before or after
  have hfree : ∀ {j m}, place j = .queued m → j ≠ i := by
    rintro j m hj rfl
    rw [hi] at hj
    cases hj
  have hqueued : ∀ {j m}, Function.update place i (.filled p) j = .queued m ↔ place j = .queued m :=
    (update_queued fun _ h => by cases h).trans ⟨And.right, fun hj => ⟨hfree hj, hj⟩⟩
  have hwaits : ∀ j, Place.Waits (Function.update place i (.filled p)) j ↔ Place.Waits place j :=
    fun j => exists_congr fun m => hqueued
  have hrest : s'.current = s.current ∧ s'.bh = s.bh ∧ s'.added = s.added ∧
      s'.completed = s.completed := by
    rw [hs']
    exact ⟨rfl, rfl, rfl, rfl⟩
  obtain ⟨hcur, hbh, hadd, hcomp⟩ := hrest
  have hstored : Stored (Function.update place i (.filled p)) s'.request := by
    refine h.stored.update (fun j hj => ?_) nofun fun _ => ?_
    · rw [hreq j hj]
      exact ⟨rfl, rfl⟩
    · rw [hself]
      exact ⟨hdev, hwrite⟩
  have hlocks : Locks own (fun d => (s'.bh d).lock) (fun q => (s'.proc q).holds)
      (fun j d => Place.Waits (Function.update place i (.filled p)) j ∧ (s'.request j).bh = some d) := by
    rw [hbh]
    refine h.locks.congr (fun q => ?_) fun j d => ?_
    · by_cases hq : q = p
      · rw [hq, hp, hb]
        rfl
      · rw [hproc q hq]
    · rw [hwaits]
      refine and_congr_right fun ⟨m, hj⟩ => ?_
      rw [hreq j (hfree hj)]
  have hnamed : Named (Place.Waits (Function.update place i (.filled p))) (fun j => (s'.request j).id)
      s'.added s'.completed := by
    rw [hadd, hcomp]
    exact h.named.congr hwaits fun j ⟨m, hj⟩ => congrArg Request.id (hreq j (hfree hj))
  rw [← hs']
  refine .of (fun m => ?_) (fun m j => ?_) (fun q j => ?_) (fun q m j d hq => ?_) (fun j m hj => ?_)
    hstored hlocks hnamed
  · rw [hcur]
    refine (h.path m).congr fun j hj => ?_
    exact congrArg Request.next (hreq j (hfree ((h.queued m j).1 hj)))
  · rw [h.queued, hqueued]
  · by_cases hq : q = p
    · subst hq
      rw [hp]
      by_cases hj : j = i
      · subst hj
        rw [Function.update_self]
        exact iff_of_true rfl rfl
      · rw [Function.update_of_ne hj, h.filled, hslot]
        exact iff_of_false nofun fun he => hj (Option.some.inj he).symm
    · rw [hproc q hq, ← h.filled]
      by_cases hj : j = i
      · subst hj
        rw [Function.update_self, hi]
        exact iff_of_false (fun he => hq (Place.filled.inj he).symm) nofun
      · rw [Function.update_of_ne hj]
  · by_cases hqp : q = p
    · rw [hqp, hp] at hq
      cases hq
      rw [hself]
      exact hrb
    · rw [hproc q hqp] at hq
      have hj : j ≠ i := by
        rintro rfl
        have hjf := (h.filled q j).2 (by rw [hq]; rfl)
        rw [hi] at hjf
        cases hjf
      rw [hreq j hj]
      exact h.adding q m j d hq
  · have hj := hqueued.1 hj
    rw [hreq j (hfree hj)]
    exact h.bh j m hj

/-- A filled slot is put on the queue: the lock of its buffer goes from the process to it. -/
theorem Rep.enqueue {queue' : Major → List Slot} (h : Rep s queue place own)
    (hp : s.proc p = .adding major i b)
    (hpath : ∀ m, Path s'.links (s'.current m) (queue' m) none)
    (hmem : ∀ m j, j ∈ queue' m ↔ j ∈ queue m ∨ m = major ∧ j = i)
    (hreq : ∀ j, (s'.request j).dev = (s.request j).dev ∧ (s'.request j).cmd = (s.request j).cmd ∧
      (s'.request j).bh = (s.request j).bh)
    (hid : ∀ j, j ≠ i → (s'.request j).id = (s.request j).id) (hnew : (s'.request i).id = s.added)
    (hlock : ∀ d, (s'.bh d).lock = (s.bh d).lock) (hproc : s'.proc = Function.update s.proc p .out)
    (hadded : s'.added = s.added + 1) (hcompleted : s'.completed = s.completed) :
    Rep s' queue' (Function.update place i (.queued major))
      (Function.update own b (some (.slot i))) := by
  have hi : place i = .filled p := (h.filled p i).2 (by rw [hp]; rfl)
  have hbi : (s.request i).bh = some b := h.adding p major i b hp
  have hqueued : ∀ {j m}, Function.update place i (.queued major) j = .queued m ↔
      place j = .queued m ∨ m = major ∧ j = i := by
    intro j m
    by_cases hj : j = i
    · subst hj
      rw [Function.update_self, hi]
      constructor
      · rintro ⟨⟩
        exact .inr ⟨rfl, rfl⟩
      · rintro (h | ⟨rfl, -⟩)
        · cases h
        · rfl
    · rw [Function.update_of_ne hj]
      exact ⟨.inl, fun h => h.resolve_right fun h => hj h.2⟩
  have hwaits : ∀ j, Place.Waits (Function.update place i (.queued major)) j ↔
      Place.Waits place j ∨ j = i := by
    intro j
    constructor
    · rintro ⟨m, hj⟩
      exact (hqueued.1 hj).imp (fun hj => ⟨m, hj⟩) And.right
    · rintro (⟨m, hj⟩ | hj)
      · exact ⟨m, hqueued.2 (.inl hj)⟩
      · exact ⟨major, hqueued.2 (.inr ⟨rfl, hj⟩)⟩
  have hself : s'.proc p = .out := by rw [hproc, Function.update_self]
  have hother : ∀ q, q ≠ p → s'.proc q = s.proc q := by
    intro q hq
    rw [hproc, Function.update_of_ne hq]
  have hstored : Stored (Function.update place i (.queued major)) s'.request := by
    refine h.stored.update (fun j _ => ⟨(hreq j).1, (hreq j).2.1⟩) nofun fun _ => ?_
    have hne : place i ≠ .free := by
      rw [hi]
      nofun
    rw [(hreq i).1, (hreq i).2.1]
    exact ⟨h.used i hne, h.write i hne⟩
  have hlocks : Locks (Function.update own b (some (.slot i))) (fun d => (s'.bh d).lock)
      (fun q => (s'.proc q).holds)
      (fun j d => Place.Waits (Function.update place i (.queued major)) j ∧
        (s'.request j).bh = some d) := by
    refine h.locks.toSlot (by rw [hp]; rfl) hlock (congrArg Pc.holds hself)
      (fun q hq => congrArg Pc.holds (hother q hq)) fun j d => ?_
    rw [hwaits, (hreq j).2.2, or_and_right]
    refine or_congr_right (and_congr_right ?_)
    rintro rfl
    rw [hbi]
    exact Option.some_inj.trans eq_comm
  have hnamed : Named (Place.Waits (Function.update place i (.queued major)))
      (fun j => (s'.request j).id) s'.added s'.completed := by
    rw [hadded, hcompleted]
    refine h.named.add (fun ⟨m, hm⟩ => ?_) hwaits hid hnew
    rw [hi] at hm
    cases hm
  refine .of hpath (fun m j => ?_) (fun q j => ?_) (fun q m j d hq => ?_) (fun j m hj => ?_) hstored
    hlocks hnamed
  · rw [hmem, hqueued, h.queued]
  · by_cases hj : j = i
    · subst hj
      rw [Function.update_self]
      refine iff_of_false nofun fun he => ?_
      by_cases hq : q = p
      · rw [hq, hself] at he
        cases he
      · rw [hother q hq, ← h.filled, hi] at he
        exact hq (Place.filled.inj he).symm
    · rw [Function.update_of_ne hj, h.filled]
      by_cases hq : q = p
      · rw [hq, hself, hp]
        exact iff_of_false (fun he => hj (Option.some.inj he).symm) nofun
      · rw [hother q hq]
  · rw [(hreq j).2.2]
    by_cases hqp : q = p
    · rw [hqp, hself] at hq
      cases hq
    · rw [hother q hqp] at hq
      exact h.adding q m j d hq
  · rw [(hreq j).2.2]
    rcases hqueued.1 hj with hj | ⟨-, rfl⟩
    · exact h.bh j m hj
    · rw [hbi]
      nofun

omit [DecidableEq ι] in
/-- The first request of a queue is completed. -/
theorem Rep.dequeue {rest : List Slot} {r : Request β} (h : Rep s queue place own)
    (hq : queue major = i :: rest) (hr : s.request i = r) (hb : r.bh = some b)
    (hreq : s'.request = Function.update s.request i { r with dev := -1 })
    (hcurrent : s'.current = Function.update s.current major r.next)
    (hlock : ∀ d, (s'.bh d).lock = if d = b then false else (s.bh d).lock)
    (hproc : s'.proc = s.proc) (hadded : s'.added = s.added)
    (hcompleted : s'.completed = s.completed ++ [r.id]) :
    Rep s' (Function.update queue major rest) (Function.update place i .free)
      (Function.update own b none) := by
  subst hr
  have hi : place i = .queued major := (h.queued major i).1 (hq ▸ List.mem_cons_self)
  have hnodup : (i :: rest).Nodup := hq ▸ (h.path major).nodup
  have hirest : i ∉ rest := (List.nodup_cons.1 hnodup).1
  have hself : s'.request i = { s.request i with dev := -1 } := by rw [hreq, Function.update_self]
  have hother : ∀ j, j ≠ i → s'.request j = s.request j := by
    intro j hj
    rw [hreq, Function.update_of_ne hj]
  have hlinks : s'.links = s.links := by
    funext j
    by_cases hj : j = i
    · subst hj
      exact (congrArg Request.next hself).trans rfl
    · exact congrArg Request.next (hother j hj)
  have hqueued : ∀ {j m}, Function.update place i .free j = .queued m ↔ j ≠ i ∧ place j = .queued m :=
    update_queued fun _ h => by cases h
  have hwaits : ∀ j, Place.Waits (Function.update place i .free) j ↔ j ≠ i ∧ Place.Waits place j :=
    fun j => (exists_congr fun m => hqueued).trans exists_and_left
  have hstored : Stored (Function.update place i .free) s'.request := by
    refine h.stored.update (fun j hj => ?_) (fun _ => ?_) fun hne => absurd rfl hne
    · rw [hother j hj]
      exact ⟨rfl, rfl⟩
    · rw [hself]
  have hlocks : Locks (Function.update own b none) (fun d => (s'.bh d).lock)
      (fun q => (s'.proc q).holds)
      (fun j d => Place.Waits (Function.update place i .free) j ∧ (s'.request j).bh = some d) := by
    rw [hproc]
    refine h.locks.free ⟨⟨major, hi⟩, hb⟩ (fun d hd => ?_) hlock fun j d => ?_
    · rw [hb] at hd
      exact (Option.some.inj hd.2).symm
    · rw [hwaits, and_assoc]
      refine and_congr_right fun hj => ?_
      rw [hother j hj]
  have hnamed : Named (Place.Waits (Function.update place i .free)) (fun j => (s'.request j).id)
      s'.added s'.completed := by
    rw [hadded, hcompleted]
    exact h.named.complete ⟨major, hi⟩ hwaits fun j hj => congrArg Request.id (hother j hj)
  refine .of (fun m => ?_) (fun m j => ?_) (fun q j => ?_) (fun q m j d hpq => ?_) (fun j m hj => ?_)
    hstored hlocks hnamed
  · rw [hlinks, hcurrent]
    by_cases hm : m = major
    · subst hm
      rw [Function.update_self, Function.update_self]
      have hp := h.path m
      rw [hq] at hp
      exact hp.2
    · rw [Function.update_of_ne hm, Function.update_of_ne hm]
      exact h.path m
  · rw [hqueued]
    by_cases hm : m = major
    · subst hm
      rw [Function.update_self, ← h.queued, hq, List.mem_cons]
      constructor
      · exact fun hj => ⟨ne_of_mem_of_not_mem hj hirest, .inr hj⟩
      · exact fun hj => hj.2.resolve_left hj.1
    · rw [Function.update_of_ne hm, h.queued]
      refine ⟨fun hj => ⟨?_, hj⟩, And.right⟩
      rintro rfl
      rw [hi] at hj
      exact hm (Place.queued.inj hj).symm
  · rw [hproc, ← h.filled]
    by_cases hj : j = i
    · subst hj
      rw [Function.update_self, hi]
      exact iff_of_false nofun nofun
    · rw [Function.update_of_ne hj]
  · rw [hproc] at hpq
    have hj := (h.filled q j).2 (by rw [hpq]; rfl)
    have hji : j ≠ i := by
      rintro rfl
      rw [hi] at hj
      cases hj
    rw [hother j hji]
    exact h.adding q m j d hpq
  · obtain ⟨hji, hj⟩ := hqueued.1 hj
    rw [hother j hji]
    exact h.bh j m hj

omit [DecidableEq ι] [DecidableEq β] in
/-- A driver changes what it keeps of its progress in a request. -/
theorem Rep.advance (h : Rep s queue place own) {r : Request β} (hdev : r.dev = (s.request i).dev)
    (hcmd : r.cmd = (s.request i).cmd) (hbh : r.bh = (s.request i).bh)
    (hnext : r.next = (s.request i).next) (hid : r.id = (s.request i).id) :
    Rep (s.setRequest i r) queue place own := by
  have hsame : ∀ j, ((s.setRequest i r).request j).dev = (s.request j).dev ∧
      ((s.setRequest i r).request j).cmd = (s.request j).cmd ∧
      ((s.setRequest i r).request j).bh = (s.request j).bh ∧
      ((s.setRequest i r).request j).next = (s.request j).next ∧
      ((s.setRequest i r).request j).id = (s.request j).id := by
    intro j
    by_cases hj : j = i
    · rw [hj, request_self]
      exact ⟨hdev, hcmd, hbh, hnext, hid⟩
    · rw [request_of_ne hj]
      exact ⟨rfl, rfl, rfl, rfl, rfl⟩
  refine ⟨fun m => (h.path m).congr fun j _ => (hsame j).2.2.2.1, h.queued, h.filled, ?_, ?_, ?_,
    h.lock, h.proc, ?_, ?_, ?_, ?_, ?_, h.completed_lt, ?_, ?_, h.nodup⟩
  · intro j hj
    rw [(hsame j).1]
    exact h.free j hj
  · intro j hj
    rw [(hsame j).1]
    exact h.used j hj
  · intro q m j d hq
    rw [(hsame j).2.2.1]
    exact h.adding q m j d hq
  · intro d j
    rw [(hsame j).2.2.1]
    exact h.slot d j
  · intro j m hj
    rw [(hsame j).2.2.1]
    exact h.bh j m hj
  · intro j hj
    rw [(hsame j).2.1]
    exact h.write j hj
  · intro j m hj
    rw [(hsame j).2.2.2.2]
    exact h.id_lt j m hj
  · intro j k m n hj hk
    rw [(hsame j).2.2.2.2, (hsame k).2.2.2.2]
    exact h.id_inj j k m n hj hk
  · intro j m hj
    rw [(hsame j).2.2.2.2]
    exact h.fresh j m hj
  · intro n hn
    refine (h.all n hn).imp_right ?_
    rintro ⟨j, m, hj, hjn⟩
    exact ⟨j, m, hj, (hsame j).2.2.2.2.trans hjn⟩

end Steps

end Linux011.Blk
