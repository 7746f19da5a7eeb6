import Mathlib.Algebra.BigOperators.Fin
import Linux011.Fs.References
import Linux011.Fs.SelfWait

/-!
# `get_empty_inode`

It looks for an inode that is not in use. One that is dirty it writes out, over and over when the
inode has no device. An inode loses its device when the disk has been changed, also one in use.

1. `Cleanly`: the condition on a step: no inode without a device becomes dirty.
2. `Kept`: an inode has as many references as it counts, and is clean when it has none.
3. `getEmptyInode_returns`; `getEmptyInode_endless`: a run in which it does not.
-/

namespace Linux011.Inodes

open Buffer (Dev Block Pid Cache)

variable {α : Type*} {n : ℕ}

/-! ## The condition -/

/-- `iput` is about to clear the inode. -/
def Freeing (j : Ino) (fs : List (Frame n)) : Prop :=
  fs.head? = some (.iput j .free) ∨ fs.head? = some (.freeInode j .start)

/-- An inode that has lost its device is not marked dirty, unless it is cleared at once, and none is
cleared that has another user. `i_count` does not overflow. -/
def Cleanly (u : Use α n) : UseEvent α n → Prop
  | .step (.run _) =>
    let t := u.state.tables
    ∀ p f fs, u.state.cur = some p → u.state.stack p = f :: fs →
      (∀ j, f.strands t = some j → f = .truncate j .done ∧ fs.head? = some (.iput j .truncating)) ∧
      (∀ j, f.frees t = some j → (t.inode j).iCount.toNat ≤ 1) ∧
      ∀ j, f.grabs t = some j → (t.inode j).iCount ≠ 0xffff
  | .change i _ _ dirt => dirt = true → (u.state.tables.inode i).stray = false
  | .share i _ => (u.state.tables.inode i).iCount ≠ 0xffff
  | _ => True

/-! ## The references of the processes -/

/-- Every frame has what it needs, from its callers or from its process, and no caller is `iput` at
`repeat`. -/
def Backed (held : Ino → ℕ) : List (Frame n) → Prop
  | [] => True
  | f :: fs => (∀ j, f.needs = some j → 0 < held j + Outcome.total (Frame.inodeRefs j) fs) ∧
      (∀ i, fs.head? ≠ some (.iput i .repeat)) ∧ Backed held fs

/-- The references of a process. -/
def Use.own (u : Use α n) (p : Pid) (j : Ino) : ℕ :=
  u.held p j + Outcome.total (Frame.inodeRefs j) (u.state.stack p)

/-- The references are counted; an inode without any is clean and not locked, and one without a
device is clean, but while it is cleared. -/
structure Kept (u : Use α n) : Prop where
  counted : ∀ j, ∑ p, u.own p j ≤ (u.state.tables.inode j).iCount.toNat
  backed : ∀ p, Backed (u.held p) (u.state.stack p)
  unused : ∀ j, (u.state.tables.inode j).iCount = 0 →
    (u.state.tables.inode j).iDirt = false ∧ (u.state.tables.inode j).iLock = false
  stray : ∀ j, (u.state.tables.inode j).stray = true → (u.state.tables.inode j).iDirt = true →
    ∃ p, u.state.cur = some p ∧ Freeing j (u.state.stack p)
  ready : ∀ p i fs, u.state.cur = some p → u.state.stack p = .iput i .repeat :: fs →
    (u.state.tables.inode i).iLock = false
  asleep : ∀ p i, u.state.cur ≠ some p → (u.state.stack p).head? ≠ some (.iput i .repeat)

namespace Frame

theorem receive_needs (v : Val n) (f : Frame n) : (f.receive v).needs = f.needs := by
  unfold receive
  split
  all_goals first
    | rfl
    | (split <;> rfl)
    | (rename_i c _ _; cases c <;> first | rfl | (split <;> rfl))
    | (rename_i c _ _ _; cases c <;> first | rfl | (split <;> rfl))
    | (rename_i c _ _ _ _; cases c <;> first | rfl | (split <;> rfl))

theorem receive_inodeRefs (v : Val n) (f : Frame n) (j : Ino) :
    (f.receive v).inodeRefs j ≤ f.inodeRefs j + v.inodeRefs j := by
  unfold receive
  split
  all_goals first
    | exact Nat.le_add_right _ _
    | (split <;> first | exact Nat.le_add_right _ _ | exact Nat.zero_le _ | exact (Nat.zero_add _).ge)
    | (rename_i c _ _; cases c <;> first | exact Nat.zero_le _ | (split <;> exact Nat.zero_le _))

theorem receive_ne_repeat (v : Val n) (f : Frame n) (i : Ino) (h : f ≠ .iput i .repeat) :
    f.receive v ≠ .iput i .repeat := by
  unfold receive
  split <;> first | exact h | (intro hf; cases hf) | (split <;> (intro hf; cases hf))

end Frame

namespace Use

variable {held : Pid → Ino → ℕ} {p q : Pid} {i j : Ino} {k : ℕ}

theorem set_apply : set held p i k q j = if q = p ∧ j = i then k else held q j := by
  unfold set
  by_cases hq : q = p
  · subst hq
    rw [Function.update_self]
    by_cases hj : j = i
    · rw [hj, Function.update_self, if_pos ⟨rfl, rfl⟩]
    · rw [Function.update_of_ne hj, if_neg fun h => hj h.2]
  · rw [Function.update_of_ne hq, if_neg fun h => hq h.1]

theorem add_some : add held p (some i) q j = held q j + if q = p ∧ j = i then 1 else 0 := by
  change set held p i (held p i + 1) q j = _
  rw [set_apply]
  split
  · next h => rw [h.1, h.2]
  · rfl

theorem le_add {r : Option Ino} : held q j ≤ add held p r q j := by
  cases r with
  | none => exact le_rfl
  | some i =>
    rw [add_some]
    exact Nat.le_add_right _ _

theorem add_of_ne {r : Option Ino} (h : q ≠ p) : add held p r q = held q := by
  cases r with
  | none => rfl
  | some i => exact Function.update_of_ne h _ _

end Use

theorem Use.caller_eq_some {s : State α n} {p : Pid} (h : Use.caller s = some p) :
    s.cur = some p ∧ s.stack p = [] := by
  obtain ⟨hp, he⟩ := Option.filter_eq_some_iff.1 h
  exact ⟨hp, List.isEmpty_iff.1 he⟩

/-- What a process does where it has to be in no call, and not to be refused. -/
theorem Use.guarded {β : Type*} {s : State α n} {c : Pid → Prop} [DecidablePred c]
    {f : Pid → Option β} {v : β}
    (h : (match Use.caller s with
      | none => none
      | some p => if c p then none else f p) = some v) :
    ∃ p, s.cur = some p ∧ s.stack p = [] ∧ ¬ c p ∧ f p = some v := by
  cases hp : Use.caller s with
  | none =>
    rw [hp] at h
    cases h
  | some p =>
    rw [hp] at h
    obtain ⟨hcur, hstack⟩ := Use.caller_eq_some hp
    obtain ⟨hc, hf⟩ := Option.ite_none_left_eq_some.1 h
    exact ⟨p, hcur, hstack, hc, hf⟩

/-- A process that is in no call changes an inode. -/
theorem State.next_touch {s : State α n} {p : Pid} (hcur : s.cur = some p) (hp : s.stack p = [])
    (x : Touch n) : s.next (.touch x) = some { s with tables := State.touch s.tables x } := by
  simp only [State.next]
  rw [hcur]
  dsimp only
  rw [hp]
  rfl

namespace Call

theorem frame_inodeRefs (c : Call n) (h : c.static = false) (j : Ino) :
    c.frame.inodeRefs j = if c.takes = true ∧ c.target = some j then 1 else 0 := by
  cases c with
  | findEntry dir name =>
    change (if dir = j then 1 else 0) = _
    simp only [takes, target, Option.some.injEq, true_and]
  | iput i =>
    change (if i = j then 1 else 0) = _
    simp only [takes, target, Option.some.injEq, true_and]
  | readInode | writeInode | freeInode => cases h
  | _ => rfl

theorem frame_needs (c : Call n) (h : c.static = false) {j : Ino} (hj : c.frame.needs = some j) :
    c.target = some j ∧ c.takes = false := by
  cases c with
  | createBlock | addEntry | truncate => exact ⟨hj, rfl⟩
  | readInode | writeInode | freeInode => cases h
  | _ => cases hj

theorem frame_ne_repeat (c : Call n) (i : Ino) : c.frame ≠ .iput i .repeat := by
  cases c <;> (intro h; cases h)

end Call

/-! ## A step of a process -/

variable {u : Use α n} {p : Pid} {f : Frame n} {fs fs' : List (Frame n)} {o : Next n} {j : Ino}
  {held held' : Ino → ℕ}

theorem Backed.mono (h : Backed held fs) (hle : ∀ j, held j ≤ held' j) : Backed held' fs := by
  induction fs with
  | nil => trivial
  | cons f fs ih =>
    refine ⟨fun j hj => (h.1 j hj).trans_le ?_, h.2.1, ih h.2.2⟩
    exact Nat.add_le_add_right (hle j) _

theorem returned_eq_none (h : ∀ v, o ≠ .ret v) : returned f fs o = none := by
  unfold returned
  split
  · exact absurd rfl (h _)
  · exact absurd rfl (h _)
  · rfl

theorem add_returned {held : Pid → Ino → ℕ} {v : Val n} :
    Use.add held p (returned f fs (.ret v)) p j ≤
      held p j + f.leaves j + if fs = [] then v.inodeRefs j else 0 := by
  unfold returned
  split
  · next _ dir _ _ _ _ =>
    rw [Use.add_some]
    change _ ≤ held p j + (if dir = j then 1 else 0) + _
    by_cases hj : dir = j
    · rw [if_pos ⟨rfl, hj.symm⟩, if_pos hj]
      exact Nat.le_add_right _ _
    · rw [if_neg fun h => hj h.2.symm]
      omega
  · next i _ heq =>
    cases heq
    cases fs with
    | nil =>
      change Use.add held p (some i) p j ≤ _
      rw [Use.add_some, if_pos rfl]
      change _ ≤ _ + if i = j then 1 else 0
      by_cases hj : i = j
      · rw [if_pos ⟨rfl, hj.symm⟩, if_pos hj]
        omega
      · rw [if_neg fun h => hj h.2.symm]
        omega
    | cons g gs =>
      change held p j ≤ _
      omega
  · change held p j ≤ _
    omega

/-- The references that a call returns are those of its caller, or of the process. -/
theorem own_resume (held : Pid → Ino → ℕ) (hr : o.resume Frame.receive fs = some fs') :
    Use.add held p (returned f fs o) p j + Outcome.total (Frame.inodeRefs j) fs' ≤
      held p j + (o.weight (Frame.inodeRefs j) (fun v => v.inodeRefs j + f.leaves j) +
        Outcome.total (Frame.inodeRefs j) fs) := by
  cases o with
  | goto f' | sleep f' =>
    obtain rfl := Option.some.inj hr
    rw [returned_eq_none (fun _ h => by cases h), Outcome.total_cons]
    exact le_rfl
  | call f' g =>
    obtain rfl := Option.some.inj hr
    rw [returned_eq_none (fun _ h => by cases h), Outcome.total_cons, Outcome.total_cons]
    change held p j + _ ≤ held p j + (g.inodeRefs j + f'.inodeRefs j + _)
    omega
  | ret v =>
    have hret : Use.add held p (returned f fs (.ret v)) p j ≤ _ := add_returned
    change _ ≤ held p j + (v.inodeRefs j + f.leaves j + _)
    cases fs with
    | nil =>
      obtain rfl := Option.some.inj hr
      rw [if_pos rfl] at hret
      rw [Outcome.total_nil]
      omega
    | cons g gs =>
      obtain rfl := Option.some.inj hr
      rw [if_neg (List.cons_ne_nil _ _)] at hret
      have hrec := g.receive_inodeRefs v j
      rw [Outcome.total_cons, Outcome.total_cons]
      omega
  | panic => cases hr

/-- A step keeps what frames need. -/
theorem Backed.resume {t : Tables α n} (h : Backed held (f :: fs)) (hb : Backs f o) (hy : Ready t o)
    (hr : o.resume Frame.receive fs = some fs') : Backed held fs' := by
  cases o with
  | goto f' | sleep f' =>
    obtain rfl := Option.some.inj hr
    exact ⟨fun j hj => h.1 j (hb j hj), h.2⟩
  | call f' g =>
    obtain rfl := Option.some.inj hr
    refine ⟨fun j hj => ?_, fun i hi => (hy i).1 (Option.some.inj hi),
      fun j hj => h.1 j (hb.1 j hj), h.2⟩
    rw [Outcome.total_cons]
    obtain hf | hf := hb.2 j hj
    · have hpos := h.1 j hf
      omega
    · omega
  | ret v =>
    cases fs with
    | nil =>
      obtain rfl := Option.some.inj hr
      trivial
    | cons g gs =>
      obtain rfl := Option.some.inj hr
      refine ⟨fun j hj => ?_, h.2.2.2⟩
      rw [Frame.receive_needs] at hj
      exact h.2.2.1 j hj
  | panic => cases hr

/-- `iput` comes to `repeat` by a step of its own. -/
theorem Backed.ready {t : Tables α n} {i : Ino} {gs : List (Frame n)} (h : Backed held (f :: fs))
    (hy : Ready t o) (ho : ∀ f', o ≠ .sleep f') (hr : o.resume Frame.receive fs = some fs')
    (hfs : fs' = .iput i .repeat :: gs) : (t.inode i).iLock = false := by
  subst hfs
  cases o with
  | goto f' =>
    obtain ⟨rfl, -⟩ := List.cons.inj (Option.some.inj hr)
    exact hy i rfl
  | sleep f' => exact absurd rfl (ho f')
  | call f' g =>
    obtain ⟨rfl, -⟩ := List.cons.inj (Option.some.inj hr)
    exact absurd rfl (hy i).2
  | ret v =>
    cases fs with
    | nil => cases hr
    | cons g gs' =>
      obtain ⟨hg, -⟩ := List.cons.inj (Option.some.inj hr)
      exact absurd hg (g.receive_ne_repeat v i fun hg => h.2.1 i (congrArg some hg))
  | panic => cases hr

/-- An inode without a device that is dirty was so before, unless the step has made it so. -/
theorem Effect.stray {t : Tables α n} {m : MInode} (h : Effect t f j m) (hs : m.stray = true)
    (hd : m.iDirt = true) :
    (t.inode j).stray = true ∧ (t.inode j).iDirt = true ∨ f.strands t = some j := by
  cases h with
  | keep | lock | unlock | drop | grab => exact .inl ⟨hs, hd⟩
  | clean | revoke | close | free | take => cases hd
  | mark d hn hm => exact .inr (hm hs)
  | name dev nr hname =>
    unfold MInode.stray at hs
    dsimp only at hs
    rw [Bool.and_eq_true, beq_iff_eq] at hs
    exact .inr (hname hs.1 hd)

/-- An inode is clean and not locked when it is not in use. -/
theorem Effect.unused {t : Tables α n} {m : MInode} (h : Effect t f j m)
    (hneeds : f.needs = some j → (t.inode j).iCount ≠ 0)
    (hmax : f.grabs t = some j → (t.inode j).iCount ≠ 0xffff)
    (hstray : (t.inode j).stray = true → (t.inode j).iDirt = false)
    (hj : (t.inode j).iCount = 0 → (t.inode j).iDirt = false ∧ (t.inode j).iLock = false)
    (hm : m.iCount = 0) : m.iDirt = false ∧ m.iLock = false := by
  cases h with
  | keep d => exact hj hm
  | clean | revoke => exact ⟨rfl, (hj hm).2⟩
  | lock h =>
    obtain h | h := h
    · exact absurd hm (hneeds h)
    · rw [(hj hm).1] at h
      cases h
  | unlock => exact ⟨(hj hm).1, rfl⟩
  | mark d h => exact absurd hm (hneeds h)
  | drop hl hc h =>
    change (t.inode j).iCount - 1 = 0 at hm
    have hone : (t.inode j).iCount = 1 := by bv_omega
    exact ⟨(h hone).elim id hstray, hl⟩
  | close hl => exact ⟨rfl, hl⟩
  | free => exact ⟨rfl, rfl⟩
  | take => cases hm
  | grab h =>
    have hj := hmax h
    change (t.inode j).iCount + 1 = 0 at hm
    exact absurd (by bv_omega) hj
  | name => exact hj hm

/-- What `iput` clears has no device, so `free_inode` only clears its entry. -/
theorem Freeing.exec {t : Tables α n} (ch : Chance α) (h : Freeing j (f :: fs))
    (hs : (t.inode j).stray = true) :
    (t.exec ch f).1.inode j = .zero ∨
      t.exec ch f = (t, .call (.iput j .freeing) (.freeInode j .start)) := by
  obtain h | h := h
  · obtain rfl := Option.some.inj h
    exact .inr rfl
  · obtain rfl := Option.some.inj h
    have hdev : (t.inode j).iDev = 0 := by
      unfold MInode.stray at hs
      rw [Bool.and_eq_true, beq_iff_eq] at hs
      exact hs.1
    refine .inl ?_
    change (t.freeInode j .start).1.inode j = .zero
    simp only [Tables.freeInode]
    rw [if_pos hdev]
    exact Function.update_self _ _ _

theorem sum_le_of_step {w w' : Pid → ℕ} {c c' : ℕ} (h : ∑ q, w q ≤ c) (hq : ∀ q, q ≠ p → w' q = w q)
    (hp : w' p + c ≤ w p + c') : ∑ q, w' q ≤ c' := by
  rw [← Finset.add_sum_erase _ _ (Finset.mem_univ p)] at h ⊢
  have hsum : ∑ q ∈ Finset.univ.erase p, w' q = ∑ q ∈ Finset.univ.erase p, w q :=
    Finset.sum_congr rfl fun q hmem => hq q (Finset.ne_of_mem_erase hmem)
  omega

/-- The state after a step of `p`; the tables of `r` are those after the step. -/
def State.resumed (s : State α n) (p : Pid) (fs : List (Frame n)) (r : Tables α n × Next n) :
    State α n :=
  { s.setStack p fs with
    tables := r.1
    cur := match r.2 with
      | .sleep _ => none
      | _ => s.cur }

@[simp] theorem State.resumed_stack (s : State α n) (r : Tables α n × Next n) :
    (s.resumed p fs r).stack p = fs := by
  change Function.update s.stack p fs p = fs
  rw [Function.update_self]

theorem State.resumed_stack_of_ne {q : Pid} (hq : q ≠ p) (s : State α n)
    (r : Tables α n × Next n) : (s.resumed p fs r).stack q = s.stack q := by
  change Function.update s.stack p fs q = s.stack q
  rw [Function.update_of_ne hq]

theorem State.run_eq_some {s s' : State α n} {ch : Chance α} : s.run p f fs ch = some s' ↔
    ∃ fs', (s.tables.exec ch f).2.resume Frame.receive fs = some fs' ∧
      s.resumed p fs' (s.tables.exec ch f) = s' :=
  Option.map_eq_some_iff

namespace Kept

theorem own_le (h : Kept u) (p : Pid) (j : Ino) : u.own p j ≤ (u.state.tables.inode j).iCount.toNat :=
  (Finset.single_le_sum (fun _ _ => Nat.zero_le _) (Finset.mem_univ p)).trans (h.counted j)

theorem run {ch : Chance α} {s : State α n} (h : Kept u) (hok : Cleanly u (.step (.run ch)))
    (hcur : u.state.cur = some p) (hp : u.state.stack p = f :: fs)
    (hs : u.state.run p f fs ch = some s) :
    Kept ⟨s, Use.add u.held p (returned f fs (u.state.tables.exec ch f).2)⟩ := by
  obtain ⟨hstrands, hfree, hmax⟩ := hok p f fs hcur hp
  have hbacked : Backed (u.held p) (f :: fs) := hp ▸ h.backed p
  have hown : ∀ j, u.held p j + (f.inodeRefs j + Outcome.total (Frame.inodeRefs j) fs) ≤
      (u.state.tables.inode j).iCount.toNat := by
    intro j
    have hle := h.own_le p j
    unfold Use.own at hle
    rw [hp, Outcome.total_cons] at hle
    exact hle
  have hneeds : ∀ j, f.needs = some j → (u.state.tables.inode j).iCount ≠ 0 := by
    intro j hj h0
    have hpos := hbacked.1 j hj
    have hle := hown j
    rw [h0] at hle
    change _ ≤ 0 at hle
    omega
  have hdoes := u.state.tables.exec_does ch f (fun j => by have hle := hown j; omega)
    (fun i hf => h.ready p i fs hcur (hf ▸ hp)) hfree hmax
  -- While `iput` clears an inode, the others without a device are clean.
  have hclean : ∀ j, (u.state.tables.inode j).stray = true →
      (u.state.tables.inode j).iDirt = true → Freeing j (f :: fs) := by
    intro j hj hd
    obtain ⟨q, hq, hfr⟩ := h.stray j hj hd
    obtain rfl := Option.some.inj (hcur.symm.trans hq)
    rwa [hp] at hfr
  obtain ⟨fs', hr, rfl⟩ := State.run_eq_some.1 hs
  obtain ⟨r, hexec⟩ : ∃ r, r = u.state.tables.exec ch f := ⟨_, rfl⟩
  rw [← hexec] at hdoes hr ⊢
  constructor
  case counted =>
    intro j
    refine sum_le_of_step (p := p) (h.counted j) (fun q hq => ?_) ?_
    · unfold Use.own
      dsimp only
      rw [Use.add_of_ne hq, State.resumed_stack_of_ne hq]
    · unfold Use.own
      dsimp only
      rw [State.resumed_stack, hp, Outcome.total_cons]
      change _ ≤ _ + (r.1.inode j).iCount.toNat
      have hrefs := hdoes.refs j
      have hres := own_resume (p := p) (f := f) (j := j) u.held hr
      omega
  case backed =>
    intro q
    dsimp only
    by_cases hq : q = p
    · subst hq
      rw [State.resumed_stack]
      exact (hbacked.resume hdoes.backs hdoes.ready hr).mono fun _ => Use.le_add
    · rw [State.resumed_stack_of_ne hq, Use.add_of_ne hq]
      exact h.backed q
  case unused =>
    intro j hj
    by_cases hd : (u.state.tables.inode j).stray = true ∧ (u.state.tables.inode j).iDirt = true
    · change (r.1.inode j).iCount = 0 at hj
      change (r.1.inode j).iDirt = false ∧ (r.1.inode j).iLock = false
      obtain hz | he := (hclean j hd.1 hd.2).exec ch hd.1
      · rw [← hexec] at hz
        rw [hz]
        exact ⟨rfl, rfl⟩
      · rw [hexec, he] at hj ⊢
        exact h.unused j hj
    · exact (hdoes.effect j).unused (hneeds j) (hmax j)
        (fun hs => Bool.eq_false_iff.2 fun hdirt => hd ⟨hs, hdirt⟩) (h.unused j) hj
  case stray =>
    intro j hj hd
    obtain ⟨hj', hd'⟩ | hst := (hdoes.effect j).stray hj hd
    · obtain hz | he := (hclean j hj' hd').exec ch hj'
      · change (r.1.inode j).iDirt = true at hd
        rw [hexec, hz] at hd
        cases hd
      · rw [hexec, he] at hr ⊢
        obtain rfl := Option.some.inj hr
        refine ⟨p, hcur, .inr ?_⟩
        rw [State.resumed_stack]
        rfl
    · obtain ⟨rfl, hhead⟩ := hstrands j hst
      obtain ⟨gs, rfl⟩ := List.head?_eq_some_iff.1 hhead
      rw [hexec] at hr ⊢
      obtain rfl := Option.some.inj hr
      refine ⟨p, hcur, .inl ?_⟩
      rw [State.resumed_stack]
      rfl
  case ready =>
    intro q i gs hq hgs
    have hwake : ∀ f', r.2 ≠ .sleep f' := by
      intro f' hsl
      unfold State.resumed at hq
      rw [hsl] at hq
      cases hq
    have hpq : q = p := by
      unfold State.resumed at hq
      dsimp only at hq
      split at hq
      · cases hq
      · exact (Option.some.inj (hcur.symm.trans hq)).symm
    subst hpq
    rw [State.resumed_stack] at hgs
    exact hbacked.ready hdoes.ready hwake hr hgs
  case asleep =>
    intro q i hq
    by_cases hqp : q = p
    · subst hqp
      obtain ⟨f', hsl⟩ : ∃ f', r.2 = .sleep f' := by
        unfold State.resumed at hq
        dsimp only at hq
        split at hq
        · next f' hsl => exact ⟨f', hsl⟩
        · exact absurd hcur hq
      have hready := hdoes.ready
      rw [hsl] at hr hready
      obtain rfl := Option.some.inj hr
      rw [State.resumed_stack]
      exact fun hi => hready i (Option.some.inj hi)
    · rw [State.resumed_stack_of_ne hqp]
      exact h.asleep q i fun hc => hqp (Option.some.inj (hc.symm.trans hcur))

/-- A process that is in no call clears nothing. -/
theorem clean (h : Kept u) (hidle : ∀ p, u.state.cur = some p → u.state.stack p = [])
    (hj : (u.state.tables.inode j).stray = true) : (u.state.tables.inode j).iDirt = false := by
  rw [Bool.eq_false_iff]
  intro hd
  obtain ⟨p, hp, hfr⟩ := h.stray j hj hd
  unfold Freeing at hfr
  rw [hidle p hp] at hfr
  obtain hfr | hfr := hfr <;> cases hfr

theorem iCount_ne_zero (h : Kept u) (hp : u.held p j ≠ 0) : (u.state.tables.inode j).iCount ≠ 0 := by
  intro h0
  have hle := h.own_le p j
  unfold Use.own at hle
  rw [h0] at hle
  change _ ≤ 0 at hle
  omega

/-- What the processes, their calls and the inodes are is all that matters. -/
theorem congr {s : State α n} (h : Kept u) (hi : s.tables.inode = u.state.tables.inode)
    (hst : s.stack = u.state.stack) (hc : s.cur = u.state.cur) : Kept ⟨s, u.held⟩ where
  counted j := by
    unfold Use.own
    dsimp only
    rw [hi, hst]
    exact h.counted j
  backed p := by
    dsimp only
    rw [hst]
    exact h.backed p
  unused j := by
    dsimp only
    rw [hi]
    exact h.unused j
  stray j := by
    dsimp only
    rw [hi, hst, hc]
    exact h.stray j
  ready := by
    dsimp only
    rw [hi, hst, hc]
    exact h.ready
  asleep := by
    dsimp only
    rw [hst, hc]
    exact h.asleep

/-- A process that is in no call changes an inode and the references of the process `q`. -/
theorem touch {i : Ino} {m : MInode} {held : Pid → Ino → ℕ} {q : Pid} (h : Kept u)
    (hcur : u.state.cur = some p) (hp : u.state.stack p = [])
    (hother : ∀ q', q' ≠ q → held q' = u.held q') (hback : Backed (held q) (u.state.stack q))
    (hne : ∀ j, j ≠ i → held q j = u.held q j)
    (hcount : held q i + (u.state.tables.inode i).iCount.toNat ≤ u.held q i + m.iCount.toNat)
    (hunused : m.iCount = 0 → m.iDirt = false ∧ (u.state.tables.inode i).iLock = false)
    (hstray : m.stray = true → m.iDirt = false) :
    Kept ⟨{ u.state with tables := State.touch u.state.tables (.inode i m) }, held⟩ := by
  have hself : (State.touch u.state.tables (.inode i m)).inode i =
      { m with iLock := (u.state.tables.inode i).iLock } := Function.update_self _ _ _
  have hset : ∀ j, j ≠ i →
      (State.touch u.state.tables (.inode i m)).inode j = u.state.tables.inode j :=
    fun j hj => Function.update_of_ne hj _ _
  have hidle : ∀ p, u.state.cur = some p → u.state.stack p = [] := by
    intro p' hp'
    rw [← Option.some.inj (hcur.symm.trans hp')]
    exact hp
  constructor
  case counted =>
    intro j
    refine sum_le_of_step (p := q) (h.counted j) (fun q' hq => ?_) ?_
    · unfold Use.own
      dsimp only
      rw [hother q' hq]
    · unfold Use.own
      dsimp only
      by_cases hj : j = i
      · subst hj
        rw [hself]
        dsimp only
        omega
      · rw [hset j hj, hne j hj]
  case backed =>
    intro q'
    by_cases hq : q' = q
    · rw [hq]
      exact hback
    · dsimp only
      rw [hother q' hq]
      exact h.backed q'
  case unused =>
    intro j hj
    dsimp only at hj ⊢
    by_cases hji : j = i
    · subst hji
      rw [hself] at hj ⊢
      exact hunused hj
    · rw [hset j hji] at hj ⊢
      exact h.unused j hj
  case stray =>
    intro j hj hd
    dsimp only at hj hd
    by_cases hji : j = i
    · subst hji
      rw [hself] at hj hd
      rw [hstray hj] at hd
      cases hd
    · rw [hset j hji] at hj hd
      rw [h.clean hidle hj] at hd
      cases hd
  case ready =>
    intro p' i' fs hp' hst
    rw [hidle p' hp'] at hst
    cases hst
  case asleep => exact h.asleep

/-- A reference goes from one process to another. -/
theorem give {i : Ino} {q : Pid} (h : Kept u) (hp : u.state.stack p = []) (hi : u.held p i ≠ 0) :
    Kept ⟨u.state, Use.add (Use.set u.held p i (u.held p i - 1)) q (some i)⟩ := by
  have hle : ∀ q' j, q' ≠ p →
      u.held q' j ≤ Use.add (Use.set u.held p i (u.held p i - 1)) q (some i) q' j := by
    intro q' j hq
    rw [Use.add_some, Use.set_apply, if_neg fun hc => hq hc.1]
    exact Nat.le_add_right _ _
  refine ⟨fun j => ?_, fun q' => ?_, h.unused, h.stray, h.ready, h.asleep⟩
  · -- `q` counts one more than without the reference of `p`
    have hown : ∀ q', Use.own ⟨u.state, Use.set u.held p i (u.held p i - 1)⟩ q' j =
        u.own q' j - if q' = p ∧ j = i then 1 else 0 := by
      intro q'
      unfold Use.own
      dsimp only
      rw [Use.set_apply]
      split
      · next hc =>
        rw [hc.1, hc.2]
        omega
      · rfl
    have hadd : ∀ q', Use.own ⟨u.state, Use.add (Use.set u.held p i (u.held p i - 1)) q (some i)⟩ q' j =
        Use.own ⟨u.state, Use.set u.held p i (u.held p i - 1)⟩ q' j +
          if q' = q ∧ j = i then 1 else 0 := by
      intro q'
      unfold Use.own
      dsimp only
      rw [Use.add_some]
      omega
    have hpos : (if j = i then 1 else 0) ≤ u.own p j := by
      unfold Use.own
      split
      · next hc =>
        rw [hc]
        omega
      · exact Nat.zero_le _
    have hc := h.own_le p j
    have hwithout : ∑ q', Use.own ⟨u.state, Use.set u.held p i (u.held p i - 1)⟩ q' j ≤
        (u.state.tables.inode j).iCount.toNat - if j = i then 1 else 0 := by
      refine sum_le_of_step (p := p) (h.counted j) (fun q' hq => ?_) ?_
      · rw [hown, if_neg fun hc => hq hc.1]
        rfl
      · rw [hown]
        simp only [true_and]
        omega
    refine sum_le_of_step (p := q) hwithout (fun q' hq => ?_) ?_
    · rw [hadd, if_neg fun hc => hq hc.1]
      rfl
    · rw [hadd]
      simp only [true_and]
      omega
  · dsimp only
    by_cases hq : q' = p
    · rw [hq, hp]
      trivial
    · exact (h.backed q').mono fun j => hle q' j hq

/-- A process starts a call, with the reference to the inode that it gets. -/
theorem call {c : Call n} (h : Kept u) (hcur : u.state.cur = some p) (hp : u.state.stack p = [])
    (hstatic : c.static = false) (hheld : ∀ i, c.target = some i → u.held p i ≠ 0) :
    Kept ⟨u.state.setStack p [c.frame],
      if c.takes then c.target.elim u.held fun i => Use.set u.held p i (u.held p i - 1)
        else u.held⟩ := by
  obtain ⟨held, hdef⟩ : ∃ held, held = if c.takes then
      c.target.elim u.held fun i => Use.set u.held p i (u.held p i - 1) else u.held := ⟨_, rfl⟩
  rw [← hdef]
  have hidle : ∀ p, u.state.cur = some p → u.state.stack p = [] := by
    intro p' hp'
    rw [← Option.some.inj (hcur.symm.trans hp')]
    exact hp
  have hself : (u.state.setStack p [c.frame]).stack p = [c.frame] := by
    change Function.update u.state.stack p _ p = _
    rw [Function.update_self]
  have hset : ∀ q, q ≠ p → (u.state.setStack p [c.frame]).stack q = u.state.stack q := by
    intro q hq
    change Function.update u.state.stack p _ q = _
    rw [Function.update_of_ne hq]
  have hgiven : ∀ q j, held q j + (if q = p then c.frame.inodeRefs j else 0) = u.held q j := by
    intro q j
    rw [c.frame_inodeRefs hstatic, hdef]
    cases htakes : c.takes with
    | false => simp
    | true =>
      cases htarget : c.target with
      | none => simp
      | some i =>
        have hpos := hheld i htarget
        change Use.set u.held p i (u.held p i - 1) q j + _ = _
        rw [Use.set_apply]
        by_cases hq : q = p ∧ j = i
        · obtain ⟨rfl, rfl⟩ := hq
          simp only [and_self, if_true]
          omega
        · rw [if_neg hq]
          split
          · next hqp => rw [if_neg fun hc => hq ⟨hqp, (Option.some.inj hc.2).symm⟩, Nat.add_zero]
          · rfl
  constructor
  case counted =>
    intro j
    refine sum_le_of_step (p := p) (h.counted j) (fun q hq => ?_) ?_
    · have hg := hgiven q j
      rw [if_neg hq] at hg
      unfold Use.own
      dsimp only
      rw [hset q hq, ← hg, Nat.add_zero]
    · have hg := hgiven p j
      rw [if_pos rfl] at hg
      unfold Use.own
      dsimp only
      rw [hself, hp, Outcome.total_cons, ← hg]
      change _ + (u.state.tables.inode j).iCount.toNat ≤ _ + (u.state.tables.inode j).iCount.toNat
      rw [Outcome.total_nil]
      omega
  case backed =>
    intro q
    dsimp only
    by_cases hq : q = p
    · rw [hq, hself]
      refine ⟨fun j hj => ?_, fun _ => nofun, trivial⟩
      obtain ⟨htarget, htakes⟩ := c.frame_needs hstatic hj
      have hpos := hheld j htarget
      rw [hdef, htakes]
      exact Nat.add_pos_left (Nat.pos_of_ne_zero hpos) _
    · rw [hset q hq]
      refine (h.backed q).mono fun j => ?_
      have hg := hgiven q j
      rw [if_neg hq] at hg
      exact hg.ge
  case unused => exact h.unused
  case stray =>
    intro j hj hd
    have hfalse : (u.state.tables.inode j).iDirt = false := h.clean hidle hj
    exact absurd (hfalse.symm.trans hd) Bool.false_ne_true
  case ready =>
    intro q i fs hq hst
    obtain rfl := Option.some.inj (hcur.symm.trans hq)
    dsimp only at hst
    rw [hself] at hst
    exact absurd (List.cons.inj hst).1 (c.frame_ne_repeat i)
  case asleep =>
    intro q i hq
    have hqp : q ≠ p := by
      rintro rfl
      exact hq hcur
    dsimp only
    rw [hset q hqp]
    exact h.asleep q i hq

theorem init (h : (usage α n).init u) : Kept u := by
  obtain ⟨hi, hzero, hheld⟩ := h
  constructor
  case counted =>
    intro j
    have hown : ∀ p, u.own p j = 0 := by
      intro p
      unfold Use.own
      rw [hheld, hi.stack p]
      rfl
    rw [Finset.sum_eq_zero fun p _ => hown p]
    exact Nat.zero_le _
  case backed =>
    intro p
    rw [hi.stack p]
    trivial
  case unused =>
    intro j _
    rw [hzero j]
    exact ⟨rfl, rfl⟩
  case stray =>
    intro j _ hd
    rw [hzero j] at hd
    cases hd
  case ready =>
    intro p i fs hp
    rw [hi.cur] at hp
    cases hp
  case asleep =>
    intro p i _
    rw [hi.stack p]
    exact nofun

/-- Another process runs, or none does. -/
theorem switch {c : Option Pid} (h : Kept u) (hidle : ∀ p, u.state.cur = some p → u.state.stack p = [])
    (hone : u.state.cur = none ∨ c = none) : Kept ⟨{ u.state with cur := c }, u.held⟩ where
  counted := h.counted
  backed := h.backed
  unused := h.unused
  stray j hj hd := by
    rw [h.clean hidle hj] at hd
    cases hd
  ready p i fs hp hst := by
    obtain hcur | hc := hone
    · refine absurd (congrArg List.head? hst) (h.asleep p i ?_)
      rw [hcur]
      exact nofun
    · dsimp only at hp
      rw [hc] at hp
      cases hp
  asleep p i _ := by
    by_cases hp : u.state.cur = some p
    · dsimp only
      rw [hidle p hp]
      exact nofun
    · exact h.asleep p i hp

/-- A step of the file system. -/
theorem stepped {e : Event α n} {u' : Use α n} (h : Kept u) (hok : Cleanly u (.step e))
    (hs : u.next (.step e) = some u') : Kept u' := by
  cases e with
  | start | touch => cases hs
  | schedule p =>
    simp only [Use.next, State.next] at hs
    split at hs
    · next hcur =>
      obtain rfl := Option.some.inj hs
      refine h.switch (fun p hp => ?_) (.inl hcur)
      rw [hcur] at hp
      cases hp
    · cases hs
  | yield =>
    simp only [Use.next, State.next] at hs
    split at hs
    · next p hcur =>
      split at hs
      · next hp =>
        obtain rfl := Option.some.inj hs
        refine h.switch (fun q hq => ?_) (.inr rfl)
        obtain rfl := Option.some.inj (hcur.symm.trans hq)
        exact List.isEmpty_iff.1 hp
      · cases hs
    · cases hs
  | run ch =>
    obtain ⟨s, hnext, rfl⟩ := Option.map_eq_some_iff.1 hs
    simp only [State.next] at hnext
    split at hnext
    · next p hcur =>
      split at hnext
      · next f fs hp =>
        have hcollect : u.collect (.run ch) =
            Use.add u.held p (returned f fs (u.state.tables.exec ch f).2) := by
          unfold Use.collect
          dsimp only
          rw [hcur]
          dsimp only
          rw [hp]
        rw [hcollect]
        exact h.run hok hcur hp hnext
      · cases hnext
    · cases hnext
  | transfer m | complete m uptodate =>
    obtain ⟨s, hnext, rfl⟩ := Option.map_eq_some_iff.1 hs
    obtain ⟨c, -, rfl⟩ := Option.map_eq_some_iff.1 hnext
    exact h.congr rfl rfl rfl

theorem next {e : UseEvent α n} {u' : Use α n} (h : Kept u) (hok : Cleanly u e)
    (hs : u.next e = some u') : Kept u' := by
  cases e with
  | step e => exact h.stepped hok hs
  | call c =>
    obtain ⟨p, hcur, hp, hc, hs⟩ := Use.guarded hs
    obtain ⟨hstatic, htarget⟩ := not_or.1 hc
    obtain ⟨s, hnext, rfl⟩ := Option.map_eq_some_iff.1 hs
    have hs : s = u.state.setStack p [c.frame] := by
      simp only [State.next] at hnext
      rw [hcur] at hnext
      dsimp only at hnext
      rw [hp] at hnext
      exact (Option.some.inj hnext).symm
    subst hs
    refine h.call hcur hp (Bool.eq_false_iff.2 hstatic) fun i hi h0 => htarget ?_
    rw [hi]
    simpa using h0
  | change i d mount dirt =>
    obtain ⟨p, hcur, hp, hheld, hs⟩ := Use.guarded hs
    rw [State.next_touch hcur hp] at hs
    obtain rfl := Option.some.inj hs
    refine h.touch (q := p) hcur hp (fun _ _ => rfl) (hp ▸ trivial) (fun _ _ => rfl) le_rfl
      (fun h0 => absurd h0 (h.iCount_ne_zero hheld)) fun hst => ?_
    have hclean := h.clean (fun q hq => by rwa [← Option.some.inj (hcur.symm.trans hq)]) hst
    cases dirt with
    | false =>
      dsimp only
      rw [hclean]
      rfl
    | true =>
      have hno : (u.state.tables.inode i).stray = false := hok rfl
      exact absurd (hno.symm.trans hst) Bool.false_ne_true
  | newInode i d dev nr =>
    obtain ⟨p, hcur, hp, hc, hs⟩ := Use.guarded hs
    obtain ⟨hheld, -, hdev⟩ := not_or.1 hc |>.imp_right not_or.1
    rw [State.next_touch hcur hp] at hs
    obtain rfl := Option.some.inj hs
    refine h.touch (q := p) hcur hp (fun _ _ => rfl) (hp ▸ trivial) (fun _ _ => rfl) le_rfl
      (fun h0 => absurd h0 (h.iCount_ne_zero hheld)) fun hst => ?_
    unfold MInode.stray at hst
    rw [Bool.and_eq_true, beq_iff_eq] at hst
    exact absurd hst.1 hdev
  | pipe i =>
    obtain ⟨p, hcur, hp, hc, hs⟩ := Use.guarded hs
    obtain ⟨-, -, hone⟩ := not_or.1 hc |>.imp_right not_or.1
    rw [State.next_touch hcur hp] at hs
    obtain rfl := Option.some.inj hs
    refine h.touch (q := p) hcur hp (fun q hq => Use.add_of_ne hq) (hp ▸ trivial) (fun j hj => ?_) ?_
      (fun h0 => absurd (show (2 : BitVec 16) = 0 from h0) (by decide)) fun hst => ?_
    · rw [Use.add_some, if_neg fun hc => hj hc.2, Nat.add_zero]
    · rw [Use.add_some, if_pos ⟨rfl, rfl⟩, not_not.1 hone]
      rfl
    · unfold MInode.stray at hst
      rw [Bool.and_eq_true] at hst
      cases hst.2
  | noPage i =>
    obtain ⟨p, hcur, hp, hc, hs⟩ := Use.guarded hs
    simp only [not_or, not_not, Bool.not_eq_true] at hc
    obtain ⟨hheld, hdev, hone, hpipe, hlock⟩ := hc
    rw [State.next_touch hcur hp] at hs
    obtain rfl := Option.some.inj hs
    have hclean := h.clean (j := i) (fun q hq => by rwa [← Option.some.inj (hcur.symm.trans hq)])
      (by unfold MInode.stray; rw [hdev, hpipe]; rfl)
    refine h.touch (q := p) hcur hp (fun q hq => ?_) (hp ▸ trivial) (fun j hj => ?_) ?_
      (fun _ => ⟨hclean, hlock⟩) fun _ => hclean
    · exact Function.update_of_ne hq _ _
    · rw [Use.set_apply, if_neg fun hc => hj hc.2]
    · rw [Use.set_apply, if_pos ⟨rfl, rfl⟩, hone]
      change _ + 1 ≤ _ + 0
      omega
  | share i q =>
    obtain ⟨p, hcur, hp, hheld, hs⟩ := Use.guarded hs
    rw [State.next_touch hcur hp] at hs
    obtain rfl := Option.some.inj hs
    have hmax : (u.state.tables.inode i).iCount ≠ 0xffff := hok
    refine h.touch (q := q) hcur hp (fun q' hq => Use.add_of_ne hq)
      ((h.backed q).mono fun _ => Use.le_add) (fun j hj => ?_) ?_ (fun h0 => ?_) fun hst => ?_
    · rw [Use.add_some, if_neg fun hc => hj hc.2, Nat.add_zero]
    · rw [Use.add_some, if_pos ⟨rfl, rfl⟩]
      dsimp only
      rw [Tables.toNat_succ hmax]
      omega
    · change (u.state.tables.inode i).iCount + 1 = 0 at h0
      exact absurd (by bv_omega) hmax
    · exact h.clean (fun q hq => by rwa [← Option.some.inj (hcur.symm.trans hq)]) hst
  | give i q =>
    obtain ⟨p, hcur, hp, hheld, hs⟩ := Use.guarded hs
    obtain rfl := Option.some.inj hs
    exact h.give hp hheld
  | touch x =>
    cases x with
    | inode i m => cases hs
    | super s m | buffer bh uptodate dirt =>
      obtain ⟨s, hnext, rfl⟩ := Option.map_eq_some_iff.1 hs
      simp only [State.next] at hnext
      split at hnext
      · split at hnext
        · obtain rfl := Option.some.inj hnext
          exact h.congr rfl rfl rfl
        · cases hnext
      · cases hnext

end Kept

/-! ## The search -/

namespace Tables

variable (t : Tables α n)

theorem pick_ne_none (k : ℕ) (last i : Ino) : (t.pick k last (some i)).2 ≠ none := by
  induction k generalizing last i with
  | zero => exact nofun
  | succ k ih =>
    unfold pick
    dsimp only
    split_ifs
    · exact nofun
    · exact ih _ _
    · exact ih _ _

/-- The search finds an inode that is not in use, if it comes by one. -/
theorem pick_spec (k : ℕ) (last : Ino) (inode : Option Ino)
    (hin : ∀ i, inode = some i → (t.inode i).iCount = 0) :
    match (t.pick k last inode).2 with
    | some i => (t.inode i).iCount = 0
    | none => ∀ m < k, (t.inode (last + 1 + Fin.ofNat 32 m)).iCount ≠ 0 := by
  induction k generalizing last inode with
  | zero =>
    unfold pick
    split
    · next i hi => exact hin i hi
    · exact fun m hm => absurd hm (Nat.not_lt_zero m)
  | succ k ih =>
    unfold pick
    dsimp only
    by_cases h0 : (t.inode (last + 1)).iCount = 0
    · rw [if_pos h0]
      split_ifs
      · exact h0
      · have hrest := ih (last + 1) (some (last + 1)) fun i hi => by
          rw [← Option.some.inj hi]
          exact h0
        split at hrest
        · exact hrest
        · next hi => exact absurd hi (t.pick_ne_none k _ _)
    rw [if_neg h0]
    have hrest := ih (last + 1) inode hin
    split at hrest
    · exact hrest
    · intro m hm
      cases m with
      | zero =>
        rw [show (Fin.ofNat 32 0 : Ino) = 0 from rfl, add_zero]
        exact h0
      | succ m =>
        have hnext : last + 1 + Fin.ofNat 32 (m + 1) = last + 1 + 1 + Fin.ofNat 32 m := by
          ext
          simp only [Fin.val_add, Fin.val_ofNat]
          omega
        rw [hnext]
        exact hrest m (Nat.lt_of_succ_lt_succ hm)

theorem pick_eq_some (hfree : ∃ i, (t.inode i).iCount = 0) (last : Ino) :
    ∃ i, (t.pick 32 last none).2 = some i ∧ (t.inode i).iCount = 0 := by
  have hspec := t.pick_spec 32 last none nofun
  split at hspec
  · next i hi => exact ⟨i, hi, hspec⟩
  · obtain ⟨i, hi⟩ := hfree
    have hround : last + 1 + Fin.ofNat 32 (i - (last + 1)).val = i := by
      rw [Fin.ofNat_val_eq_self, add_sub_cancel]
    have hne := hspec (i - (last + 1)).val (Fin.isLt _)
    rw [hround] at hne
    exact absurd hi hne

/-- The step of `get_empty_inode` that searches. -/
theorem exec_pick {i : Ino} (ch : Chance α) (h : (t.pick 32 t.lastInode none).2 = some i) :
    t.exec ch (.getEmptyInode .pick) =
      ({ t with lastInode := (t.pick 32 t.lastInode none).1 }, .goto (.getEmptyInode (.wait i))) := by
  change t.getEmptyInode .pick = _
  simp only [getEmptyInode]
  rw [h]

end Tables

namespace Use

/-- The process that runs makes a step for each of the chances. -/
def runs (u : Use α n) : List (Chance α) → Option (Use α n)
  | [] => some u
  | ch :: chs => (u.next (.step (.run ch))).bind fun u => u.runs chs

/-- `get_empty_inode`, which `p` is in below `fs`, returns after finitely many steps, whatever is read
in them: an inode that was clean, not locked and without a reference. -/
def Gets (u : Use α n) (p : Pid) (fs : List (Frame n)) : Prop :=
  ∃ k, ∀ chs : List (Chance α), chs.length = k → ∃ u' i, u.runs chs = some u' ∧
    (Outcome.ret (.inode i)).resume Frame.receive fs = some (u'.state.stack p) ∧
    (u.state.tables.inode i).iDirt = false ∧ (u.state.tables.inode i).iLock = false ∧
    (∀ q, u.own q i = 0) ∧ u'.state.tables.inode i = { MInode.zero with iCount := 1 }

theorem next_run {ch : Chance α} {r : Tables α n × Next n} (hcur : u.state.cur = some p)
    (hp : u.state.stack p = f :: fs) (hexec : u.state.tables.exec ch f = r)
    (hr : r.2.resume Frame.receive fs = some fs') :
    u.next (.step (.run ch)) =
      some ⟨u.state.resumed p fs' r, add u.held p (returned f fs r.2)⟩ := by
  subst hexec
  simp only [next, State.next, collect]
  rw [hcur]
  dsimp only
  rw [hp]
  dsimp only
  rw [State.run_eq_some.2 ⟨fs', hr, rfl⟩]
  rfl

end Use

theorem Kept.gets (h : Kept u) (hcur : u.state.cur = some p)
    (hp : u.state.stack p = .getEmptyInode .pick :: fs)
    (hfree : ∃ i, (u.state.tables.inode i).iCount = 0) : u.Gets p fs := by
  obtain ⟨i, hpick, hi⟩ := u.state.tables.pick_eq_some hfree u.state.tables.lastInode
  obtain ⟨hdirt, hlock⟩ := h.unused i hi
  obtain ⟨t, ht⟩ : ∃ t, t = { u.state.tables with
      lastInode := (u.state.tables.pick 32 u.state.tables.lastInode none).1 } := ⟨_, rfl⟩
  have hti : t.inode i = u.state.tables.inode i := by rw [ht]
  have hsearch : ∀ ch, u.state.tables.exec ch (.getEmptyInode .pick) =
      (t, .goto (.getEmptyInode (.wait i))) := by
    intro ch
    rw [u.state.tables.exec_pick ch hpick, ht]
  have htake : ∀ ch, t.exec ch (.getEmptyInode (.wait i)) =
      (t.setInode i { MInode.zero with iCount := 1 }, .ret (.inode i)) := by
    intro ch
    change t.getEmptyInode (.wait i) = _
    simp only [Tables.getEmptyInode]
    rw [hti, hlock, hdirt, hi]
    rfl
  obtain ⟨fs', hret⟩ : ∃ fs', (Outcome.ret (.inode i)).resume Frame.receive fs = some fs' := by
    cases fs <;> exact ⟨_, rfl⟩
  refine ⟨2, fun chs hchs => ?_⟩
  obtain ⟨ch, ch', rfl⟩ := List.length_eq_two.1 hchs
  have hfirst := Use.next_run hcur hp (hsearch ch) rfl
  have hsecond := Use.next_run (p := p)
    (u := ⟨u.state.resumed p (.getEmptyInode (.wait i) :: fs) (t, .goto (.getEmptyInode (.wait i))),
      u.held⟩) hcur (State.resumed_stack _ _) (htake ch') hret
  refine ⟨_, i, Option.bind_eq_some_iff.2 ⟨_, hfirst, Option.bind_eq_some_iff.2 ⟨_, hsecond, rfl⟩⟩, ?_,
    hdirt, hlock, fun q => ?_, ?_⟩
  · rw [hret]
    dsimp only
    rw [State.resumed_stack]
  · have hle := h.own_le q i
    rw [hi] at hle
    exact Nat.le_zero.1 hle
  · change (t.setInode i _).inode i = _
    exact Function.update_self _ _ _

/-- `get_empty_inode` returns in every state that is reached by steps that leave no inode dirty
without a device. -/
theorem getEmptyInode_returns (h : (usage α n).ReachableWhen Cleanly u)
    (hcur : u.state.cur = some p) (hp : u.state.stack p = .getEmptyInode .pick :: fs)
    (hfree : ∃ i, (u.state.tables.inode i).iCount = 0) : u.Gets p fs :=
  Kept.gets (h.invariant (fun _ h => Kept.init h) fun _ _ _ h hok hs => h.next hok hs) hcur hp hfree

/-! ## The loop -/

/-- `get_empty_inode` wants the inode `i`, which is dirty and without a device, and `write_inode` does
not write it. -/
structure Use.Spins (u : Use α n) (p : Pid) (fs : List (Frame n)) (i : Ino) : Prop where
  cur : u.state.cur = some p
  stack : u.state.stack p = .getEmptyInode (.wait i) :: fs ∨
    u.state.stack p = .writeInode i .lock :: .getEmptyInode (.writing i) :: fs
  lock : (u.state.tables.inode i).iLock = false
  dirt : (u.state.tables.inode i).iDirt = true
  dev : (u.state.tables.inode i).iDev = 0

theorem Use.Spins.next {i : Ino} (h : u.Spins p fs i) (ch : Chance α) :
    ∃ u', u.next (.step (.run ch)) = some u' ∧ u'.Spins p fs i := by
  obtain hp | hp := h.stack
  · have hexec : u.state.tables.exec ch (.getEmptyInode (.wait i)) =
        (u.state.tables, .call (.getEmptyInode (.writing i)) (.writeInode i .lock)) := by
      change u.state.tables.getEmptyInode (.wait i) = _
      simp only [Tables.getEmptyInode]
      rw [h.lock, h.dirt]
      rfl
    refine ⟨_, Use.next_run h.cur hp hexec rfl, h.cur, .inr ?_, h.lock, h.dirt, h.dev⟩
    exact State.resumed_stack _ _
  · have hexec : u.state.tables.exec ch (.writeInode i .lock) =
        (u.state.tables.lockInode i false, .ret .void) := by
      change u.state.tables.writeInode i .lock = _
      simp only [Tables.writeInode]
      rw [h.lock, if_neg Bool.false_ne_true, if_pos (.inr h.dev)]
    have hinode : (u.state.tables.lockInode i false).inode i =
        { u.state.tables.inode i with iLock := false } := Function.update_self _ _ _
    refine ⟨_, Use.next_run h.cur hp hexec rfl, h.cur, .inl (State.resumed_stack _ _), ?_, ?_, ?_⟩
    · exact congrArg MInode.iLock hinode
    · exact (congrArg MInode.iDirt hinode).trans h.dirt
    · exact (congrArg MInode.iDev hinode).trans h.dev

theorem Use.Spins.runs {i : Ino} (chs : List (Chance α)) (h : u.Spins p fs i) :
    ∃ u', u.runs chs = some u' ∧ u'.Spins p fs i := by
  induction chs generalizing u with
  | nil => exact ⟨u, rfl, h⟩
  | cons ch chs ih =>
    obtain ⟨u', hu', hs⟩ := h.next ch
    obtain ⟨u'', hruns, hs⟩ := ih hs
    exact ⟨u'', Option.bind_eq_some_iff.2 ⟨u', hu', hruns⟩, hs⟩

theorem resume_ret_length {v : Val n} (h : (Outcome.ret v).resume Frame.receive fs = some fs') :
    fs'.length = fs.length := by
  cases fs <;> (obtain rfl := Option.some.inj h; rfl)

/-- When the only inode that is not in use is dirty and has no device, `get_empty_inode` does not
return. -/
theorem getEmptyInode_endless {i : Ino} (ch : Chance α) (hcur : u.state.cur = some p)
    (hp : u.state.stack p = .getEmptyInode .pick :: fs)
    (hi : ∀ j, (u.state.tables.inode j).iCount = 0 ↔ j = i)
    (hlock : (u.state.tables.inode i).iLock = false) (hdirt : (u.state.tables.inode i).iDirt = true)
    (hdev : (u.state.tables.inode i).iDev = 0) : ¬u.Gets p fs := by
  rintro ⟨k, hk⟩
  obtain ⟨j, hpick, hj⟩ := u.state.tables.pick_eq_some ⟨i, (hi i).2 rfl⟩ u.state.tables.lastInode
  rw [(hi j).1 hj] at hpick
  obtain ⟨u', i', hruns, hret, -⟩ := hk (List.replicate k ch) List.length_replicate
  have hlen := resume_ret_length hret
  cases k with
  | zero =>
    obtain rfl := Option.some.inj hruns
    rw [hp, List.length_cons] at hlen
    omega
  | succ k =>
    have hfirst := Use.next_run hcur hp (u.state.tables.exec_pick ch hpick) rfl
    obtain ⟨u₁, hu₁, hrest⟩ := Option.bind_eq_some_iff.1 hruns
    have hspins : u₁.Spins p fs i := by
      obtain rfl := Option.some.inj (hfirst.symm.trans hu₁)
      exact ⟨hcur, .inl (State.resumed_stack _ _), hlock, hdirt, hdev⟩
    obtain ⟨u₂, hruns', hs⟩ := hspins.runs (List.replicate k ch)
    obtain rfl := Option.some.inj (hruns'.symm.trans hrest)
    obtain hst | hst := hs.stack
    · rw [hst, List.length_cons] at hlen
      omega
    · rw [hst, List.length_cons, List.length_cons] at hlen
      omega

/-! ## From boot -/

/-- The tables at boot. -/
def Use.boot : Use Unit 3 := ⟨Inodes.boot, fun _ _ => 0⟩

theorem Use.boot_init : (usage Unit 3).init Use.boot := ⟨Inodes.boot_init, fun _ => rfl, rfl⟩

/-- A step that marks, clears and takes no inode, or marks one that has a device. -/
def Use.calm (u : Use α n) : UseEvent α n → Bool
  | .step (.run _) =>
    match u.state.cur.map u.state.stack with
    | some (f :: _) =>
      (f.strands u.state.tables).isNone && (f.frees u.state.tables).isNone &&
        (f.grabs u.state.tables).isNone
    | _ => true
  | .change i _ _ _ => !(u.state.tables.inode i).stray
  | .share _ _ => false
  | _ => true

theorem Use.cleanly_of_calm {e : UseEvent α n} (h : u.calm e = true) : Cleanly u e := by
  cases e with
  | change i d mount dirt => exact fun _ => by simpa [Use.calm] using h
  | share i q => cases h
  | step e =>
    cases e with
    | run ch =>
      intro p f fs hcur hp
      simp only [Use.calm, hcur, Option.map_some, hp, Bool.and_eq_true, Option.isNone_iff_eq_none] at h
      obtain ⟨⟨hs, hf⟩, hg⟩ := h
      refine ⟨fun j hj => ?_, fun j hj => ?_, fun j hj => ?_⟩
      · cases hs.symm.trans hj
      · cases hf.symm.trans hj
      · cases hg.symm.trans hj
    | _ => trivial
  | _ => trivial

def steps (es : List (Event Unit 3)) : List (UseEvent Unit 3) := es.map .step

/-- The root is mounted and in use. -/
def rooted : List (UseEvent Unit 3) :=
  [.step (.schedule 0), .call (.readSuper 0x301)] ++
    steps (runs 28 ++ transferred ++ runs 18 ++ transferred ++ runs 17 ++ transferred ++ runs 4) ++
    [.call (.iget 0x301 1)] ++ steps (runs 54 ++ transferred ++ runs 5)

/-- Two inodes are for new files on a floppy disk. -/
def created : List (UseEvent Unit 3) :=
  [.call .getEmptyInode] ++ steps (runs 2) ++ [.newInode 2 reads.dInode 0x200 1] ++
    [.call .getEmptyInode] ++ steps (runs 2) ++ [.newInode 3 reads.dInode 0x200 2]

/-- The disk has been changed. -/
def invalidated : List (UseEvent Unit 3) :=
  .call (.checkDiskChange 0x200) :: List.replicate 50 (.step (.run { reads with bit := true }))

/-- One of the inodes without a device is given back, the root is changed, and another inode is
wanted. -/
def wanted : List (UseEvent Unit 3) :=
  [.call (.iput 2), .step (.run reads), .change 1 reads.dInode false true, .call .getEmptyInode]

/-- `get_empty_inode` is about to look for an inode. -/
def picking : List (Frame 3) → Bool
  | [.getEmptyInode .pick] => true
  | _ => false

theorem picking_eq {fs : List (Frame 3)} (h : picking fs = true) : fs = [.getEmptyInode .pick] := by
  unfold picking at h
  split at h
  · rfl
  · cases h

/-- The root is dirty, one inode in use has lost its device, and so has one that is not in use. -/
theorem getEmptyInode_returns_changed : ∃ u : Use Unit 3,
    ((u.state.tables.inode 1).iDirt = true ∧ (u.state.tables.inode 1).iDev = 0x301 ∧
      (u.state.tables.inode 3).stray = true ∧ (u.state.tables.inode 3).iCount = 1 ∧
      (u.state.tables.inode 2).iNum = 1 ∧ (u.state.tables.inode 2).iCount = 0) ∧ u.Gets 0 [] := by
  have hrun : (System.execWhen Use.next (fun u e => u.calm e = true) Use.boot
      (rooted ++ created ++ invalidated ++ wanted)).any (fun u =>
        picking (u.state.stack 0) && decide (u.state.cur = some 0 ∧
          (u.state.tables.inode 1).iDirt = true ∧ (u.state.tables.inode 1).iDev = 0x301 ∧
          (u.state.tables.inode 3).stray = true ∧ (u.state.tables.inode 3).iCount = 1 ∧
          (u.state.tables.inode 2).iNum = 1 ∧ (u.state.tables.inode 2).iCount = 0)) = true := by
    decide +kernel
  obtain ⟨u, hu, hstate⟩ := (Option.any_eq_true _ _).1 hrun
  obtain ⟨hstack, hstate⟩ := Bool.and_eq_true_iff.1 hstate
  obtain ⟨hcur, hinodes⟩ := of_decide_eq_true hstate
  have hreach : (usage Unit 3).ReachableWhen (fun u e => u.calm e = true) u :=
    .exec (fun _ _ _ h => h) (.init Use.boot_init) hu
  exact ⟨u, hinodes, getEmptyInode_returns (hreach.mono fun _ _ => Use.cleanly_of_calm) hcur
    (picking_eq hstack) ⟨2, hinodes.2.2.2.2.2⟩⟩

/-- Process 0 takes all inodes, and one is for a new file on a floppy disk. -/
def allTaken : List (UseEvent Unit 3) :=
  [.step (.schedule 0)] ++
    (List.replicate 32 [.call .getEmptyInode, .step (.run reads), .step (.run reads)]).flatten ++
    [.newInode 1 reads.dInode 0x200 1]

/-- The inode without a device is changed, and is given back. -/
def givenBack : List (UseEvent Unit 3) :=
  [.change 1 reads.dInode false true, .call (.iput 1), .step (.run reads), .call .getEmptyInode]

/-- The inode that is left is dirty, and cannot be written. -/
theorem getEmptyInode_not : ¬∀ (u : Use Unit 3) (p : Pid) (fs : List (Frame 3)),
    (usage Unit 3).Reachable u → u.state.cur = some p →
      u.state.stack p = .getEmptyInode .pick :: fs → (∃ i, (u.state.tables.inode i).iCount = 0) →
        u.Gets p fs := by
  intro hall
  have hrun : (System.execWhen Use.next (fun _ _ => True) Use.boot
      (allTaken ++ invalidated ++ givenBack)).any (fun u =>
        picking (u.state.stack 0) &&
          decide (u.state.cur = some 0 ∧ (∀ j, (u.state.tables.inode j).iCount = 0 ↔ j = 1) ∧
            (u.state.tables.inode 1).iLock = false ∧ (u.state.tables.inode 1).iDirt = true ∧
              (u.state.tables.inode 1).iDev = 0)) = true := by
    decide +kernel
  obtain ⟨u, hu, hstate⟩ := (Option.any_eq_true _ _).1 hrun
  obtain ⟨hstack, hstate⟩ := Bool.and_eq_true_iff.1 hstate
  obtain ⟨hcur, hi, hlock, hdirt, hdev⟩ := of_decide_eq_true hstate
  have hp := picking_eq hstack
  have hreach : (usage Unit 3).Reachable u := .exec (fun _ _ _ h => h) (.init Use.boot_init) hu
  exact getEmptyInode_endless reads hcur hp hi hlock hdirt hdev
    (hall u 0 [] hreach hcur hp ⟨1, (hi 1).2 rfl⟩)

end Linux011.Inodes
