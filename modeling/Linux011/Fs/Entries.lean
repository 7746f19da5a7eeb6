import Linux011.Fs.Volume

/-!
# Entries of a directory

`find_entry` and `add_entry` of `fs/namei.c` on a directory, in a process that no other comes between.
Which calls of `bread` fail is left open (`Dir.reads`).

1. `Dir`; `bmap` and `createBlock`, with failing reads.
2. `findEntry`, `addEntry`.
3. `create_spec`: the volume after `create_block`.
4. `findLoop_spec`, `addLoop_spec`: what the two loops come to.
5. `gaps_iff`: which directories they go through without a null pointer.
-/

namespace Linux011.Zones

open Linux011.Fs (Byte)

/-! ## Data -/

/-- Why a call does not return. -/
inductive Fault
  /-- A null pointer to a buffer is followed. -/
  | null
  /-- "_bmap: block>big" -/
  | blockBig
  /-- It runs for longer than it is watched. -/
  | endless
  deriving DecidableEq

abbrev Name := List Byte

/-- A directory. The reads for one of its blocks are those of the tables above it and of the block
itself, numbered by how many tables are below: whether they succeed. -/
structure Dir where
  vol : Volume
  nr : ℕ
  reads : ℕ → ℕ → Bool

/-- What the directory is to the process, as far as it concerns `..`. -/
inductive Above
  | plain
  /-- It is `current->root`. -/
  | root
  /-- It is the root of a device that is mounted on another directory. -/
  | mount (d : Dir)

namespace Dir

variable (d : Dir)

/-! ## Blocks -/

/-- `_bmap` from a slot on, without `create`. -/
def walk (ok : ℕ → Bool) : Slot → List ℕ → ℕ
  | slot, [] => d.vol.get slot
  | slot, k :: ks =>
    if d.vol.get slot ≠ 0 ∧ ok (ks.length + 1) = true then walk ok (.entry (d.vol.get slot) k) ks
    else 0

def bmap (block : ℕ) : Except Fault ℕ :=
  match bmapPath block with
  | none => .error .blockBig
  | some p => .ok (d.walk (d.reads block) (.zone d.nr p.1) p.2)

/-- The zone in a slot, a new one if there is none, and whether it is new. -/
def fill (slot : Slot) : (ℕ × Bool) × Dir :=
  if d.vol.get slot = 0 then
    let (z, v) := d.vol.takeZone
    if z = 0 then ((0, false), { d with vol := v }) else ((z, true), { d with vol := v.install slot z })
  else ((d.vol.get slot, false), d)

/-- `_bmap` from a slot on, with `create`. The buffer of a new table need not be read. -/
def create (ok : ℕ → Bool) : Slot → List ℕ → Dir → (ℕ × Bool) × Dir
  | slot, [], d => d.fill slot
  | slot, k :: ks, d =>
    let ((z, new), d) := d.fill slot
    if z ≠ 0 ∧ (new || ok (ks.length + 1)) = true then create ok (.entry z k) ks d
    else ((0, false), d)

def createBlock (block : ℕ) : Except Fault ((ℕ × Bool) × Dir) :=
  match bmapPath block with
  | none => .error .blockBig
  | some p => .ok (create (d.reads block) (.zone d.nr p.1) p.2 d)

/-! ## `find_entry` -/

/-- `match`, for entry `k` of the block. -/
def sameName (name : Name) (z k : ℕ) : Bool :=
  if d.vol.entry z (8 * k) = 0 ∨ 14 < name.length then false
  else if name.length < 14 ∧ d.vol.data z (16 * k + 2 + name.length) ≠ 0 then false
  else name == (List.range name.length).map fun j => d.vol.data z (16 * k + 2 + j)

/-- The head of the loop of `find_entry`; `de` is entry `k` of the block `bh`. -/
def advance (i : ℕ) (bh : Option ℕ) (k : ℕ) : Except Fault (Option ℕ × ℕ) :=
  match bh with
  | none => .error .null
  | some z =>
    if k < 64 then .ok (some z, k)
    else do
      let block ← d.bmap (i / 64)
      if block ≠ 0 ∧ d.reads (i / 64) 0 = true then return (some block, 0) else return (none, k)

/-- The loop of `find_entry`, at most so many times. -/
def findLoop (name : Name) (entries : ℕ) :
    ℕ → ℕ → Option ℕ → ℕ → Except Fault (Option (ℕ × ℕ))
  | 0, _, _, _ => .error .endless
  | n + 1, i, bh, k =>
    if entries ≤ i then .ok none
    else do
      let (bh, k) ← d.advance i bh k
      match bh with
      | none => findLoop name entries n (i + 64) none k
      | some z =>
        if d.sameName name z k then return some (z, k)
        else findLoop name entries n (i + 1) (some z) (k + 1)

/-- `find_entry` once it has the directory that it searches. -/
def scan (name : Name) (entries fuel : ℕ) : Except Fault (Option (ℕ × ℕ)) :=
  let block := (d.vol.inode d.nr).iZone 0
  if block ≠ 0 ∧ d.reads 0 0 = true then d.findLoop name entries fuel 0 (some block) 0 else .ok none

/-- `..` in `find_entry`. -/
def dotdot (up : Above) (name : Name) : Dir × Name :=
  if name = [0x2e, 0x2e] then
    match up with
    | .plain => (d, name)
    | .root => (d, name.take 1)
    | .mount d => (d, name)
  else (d, name)

/-- `find_entry`: the block and the entry in it, and the directory. The number of entries is that of
the directory before `..`. -/
def findEntry (up : Above) (name : Name) (fuel : ℕ) : Except Fault (Option (ℕ × ℕ) × Dir) :=
  let name := name.take 14
  let entries := (d.vol.inode d.nr).iSize / 16
  if name = [] then .ok (none, d)
  else do
    let (d, name) := d.dotdot up name
    let r ← d.scan name entries fuel
    return (r, d)

/-! ## `add_entry` -/

/-- What the head of the loop of `add_entry` comes to. -/
inductive Head
  /-- There is no block, and none can be made. -/
  | stop
  /-- The block cannot be read. -/
  | gap
  | entry (z k : ℕ)

def room (i : ℕ) (bh : Option ℕ) (k : ℕ) : Except Fault (Head × Dir) :=
  match bh with
  | none => .error .null
  | some z =>
    if k < 64 then .ok (.entry z k, d)
    else do
      let ((block, new), d') ← d.createBlock (i / 64)
      if block = 0 then return (.stop, d')
      else if (new || d.reads (i / 64) 0) = true then return (.entry block 0, d')
      else return (.gap, d')

/-- Entry `i` becomes the last one, if it is behind the end of the directory. -/
def extend (i z k : ℕ) : Dir :=
  if (d.vol.inode d.nr).iSize ≤ i * 16 then
    { d with vol := (d.vol.set (.entry z (8 * k)) 0).setSize d.nr ((i + 1) * 16) }
  else d

/-- The name and its padding in an entry. -/
def putName (name : Name) (z k : ℕ) : Dir :=
  { d with vol := d.vol.setData z fun a =>
      if 16 * k + 2 ≤ a ∧ a < 16 * k + 16 then name.getD (a - (16 * k + 2)) 0 else d.vol.data z a }

/-- The loop of `add_entry`, at most so many times. -/
def addLoop (name : Name) :
    ℕ → ℕ → Option ℕ → ℕ → Dir → Except Fault (Option (ℕ × ℕ) × Dir)
  | 0, _, _, _, _ => .error .endless
  | n + 1, i, bh, k, d => do
    let (head, d) ← d.room i bh k
    match head with
    | .stop => return (none, d)
    | .gap => addLoop name n (i + 64) none k d
    | .entry z k =>
      let d := d.extend i z k
      if d.vol.entry z (8 * k) = 0 then return (some (z, k), d.putName name z k)
      else addLoop name n (i + 1) (some z) (k + 1) d

def addEntry (name : Name) (fuel : ℕ) : Except Fault (Option (ℕ × ℕ) × Dir) :=
  let name := name.take 14
  let block := (d.vol.inode d.nr).iZone 0
  if name ≠ [] ∧ block ≠ 0 ∧ d.reads 0 0 = true then addLoop name fuel 0 (some block) 0 d
  else .ok (none, d)

/-! ## The loop of `find_entry` -/

/-- The zone of a block, 0 if there is none. -/
def zone (block : ℕ) : ℕ :=
  ((bmapPath block).map fun p => d.walk (d.reads block) (.zone d.nr p.1) p.2).getD 0

/-- The zone of a block that can be read. -/
def zoneAt (block : ℕ) : Option ℕ :=
  if d.zone block ≠ 0 ∧ d.reads block 0 = true then some (d.zone block) else none

/-- Entry `i` can be read, and has the name. -/
def Match (name : Name) (i : ℕ) : Prop :=
  ∃ z, d.zoneAt (i / 64) = some z ∧ d.sameName name z (i % 64) = true

/-- The first entry with the name, out of those that can be read. -/
def Examined (name : Name) (entries : ℕ) : Option (ℕ × ℕ) → Prop
  | none => ∀ i < entries, ¬ d.Match name i
  | some (z, k) => ∃ i < entries, d.zoneAt (i / 64) = some z ∧ i % 64 = k ∧ d.Match name i ∧
      ∀ j < i, ¬ d.Match name j

/-- The loop gets past block `b`, if it gets there: it is not too big, and if it is missing it is the
last one. -/
def Passes (entries b : ℕ) : Prop :=
  b < 7 + 512 + 512 * 512 ∧ (d.zoneAt b = none → entries ≤ 64 * (b + 1))

variable {d} {name : Name} {entries n i b k z : ℕ}

theorem bmapPath_none : bmapPath b = none ↔ 7 + 512 + 512 * 512 ≤ b := by
  unfold bmapPath
  split_ifs <;> simp <;> omega

theorem bmap_eq : d.bmap b =
    if b < 7 + 512 + 512 * 512 then .ok (d.zone b) else .error .blockBig := by
  unfold bmap zone
  cases h : bmapPath b with
  | none => rw [if_neg (not_lt.2 (bmapPath_none.1 h))]
  | some p =>
    have hb : b < 7 + 512 + 512 * 512 := by
      by_contra hn
      rw [bmapPath_none.2 (not_lt.1 hn)] at h
      cases h
    rw [if_pos hb]
    rfl

theorem zone_eq_zero_of_big (h : 7 + 512 + 512 * 512 ≤ b) : d.zone b = 0 := by
  unfold zone
  rw [bmapPath_none.2 h]
  rfl

theorem advance_here (h : k < 64) : d.advance i (some z) k = .ok (some z, k) := if_pos h

theorem advance_block (hi : i / 64 = b) (hk : ¬ k < 64) : d.advance i (some z) k =
    if b < 7 + 512 + 512 * 512 then
      match d.zoneAt b with
      | none => .ok (none, k)
      | some y => .ok (some y, 0)
    else .error .blockBig := by
  unfold advance zoneAt
  dsimp only
  rw [if_neg hk, hi, bmap_eq]
  split_ifs
  · exact if_pos ‹_›
  · exact if_neg ‹_›
  · rfl

theorem findLoop_null (hn : 0 < n) (hi : i < entries) :
    d.findLoop name entries n i none k = .error .null := by
  obtain ⟨m, rfl⟩ := Nat.exists_eq_succ_of_ne_zero hn.ne'
  unfold findLoop
  rw [if_neg (not_le.2 hi)]
  rfl

/-- The loop at entry `k` of block `b`. -/
theorem findLoop_spec (name : Name) (entries : ℕ) (hi : i = 64 * b + k) (hk : k ≤ 64) (hz : d.zoneAt b = some z)
    (hn : entries - i < n) (hmiss : ∀ j < i, ¬ d.Match name j) :
    ((∀ b' > b, 64 * b' < entries → (∀ j < 64 * b', ¬ d.Match name j) → d.Passes entries b') ∧
      ∃ r, d.findLoop name entries n i (some z) k = .ok r ∧ d.Examined name entries r) ∨
    (¬ (∀ b' > b, 64 * b' < entries → (∀ j < 64 * b', ¬ d.Match name j) → d.Passes entries b') ∧
      ∃ f, d.findLoop name entries n i (some z) k = .error f) := by
  induction n generalizing i b k z with
  | zero => exact absurd hn (Nat.not_lt_zero _)
  | succ n ih =>
    unfold findLoop
    by_cases hend : entries ≤ i
    · rw [if_pos hend]
      refine .inl ⟨fun b' hb' hlt => ?_, none, rfl, fun j hj => hmiss j (hj.trans_le hend)⟩
      omega
    rw [if_neg hend]
    rw [not_le] at hend
    -- The turn once `de` is within a block.
    have here : ∀ b₁ k₁ z₁, i = 64 * b₁ + k₁ → k₁ < 64 → d.zoneAt b₁ = some z₁ →
        ((∀ b' > b₁, 64 * b' < entries → (∀ j < 64 * b', ¬ d.Match name j) → d.Passes entries b') ∧
          ∃ r, (if d.sameName name z₁ k₁ = true then Except.ok (some (z₁, k₁))
            else d.findLoop name entries n (i + 1) (some z₁) (k₁ + 1)) = .ok r ∧
            d.Examined name entries r) ∨
        (¬ (∀ b' > b₁, 64 * b' < entries → (∀ j < 64 * b', ¬ d.Match name j) →
            d.Passes entries b') ∧
          ∃ f, (if d.sameName name z₁ k₁ = true then Except.ok (some (z₁, k₁))
            else d.findLoop name entries n (i + 1) (some z₁) (k₁ + 1)) = .error f) := by
      intro b₁ k₁ z₁ hi₁ hk₁ hz₁
      have hdiv : i / 64 = b₁ := by omega
      have hmod : i % 64 = k₁ := by omega
      by_cases hsame : d.sameName name z₁ k₁ = true
      · have hmatch : d.Match name i := ⟨z₁, hdiv ▸ hz₁, hmod ▸ hsame⟩
        rw [if_pos hsame]
        refine .inl ⟨fun b' hb' _ hnone => absurd hmatch (hnone i (by omega)), _, rfl, ?_⟩
        exact ⟨i, hend, hdiv ▸ hz₁, hmod, hmatch, hmiss⟩
      · rw [if_neg hsame]
        refine ih (by omega) hk₁ hz₁ (by omega) fun j hj => ?_
        obtain hj | rfl := Nat.lt_succ_iff_lt_or_eq.1 hj
        · exact hmiss j hj
        · rintro ⟨y, hy, hname⟩
          rw [hdiv, hz₁] at hy
          cases hy
          rw [hmod] at hname
          exact hsame hname
    by_cases hk64 : k < 64
    · rw [advance_here hk64]
      exact here b k z hi hk64 hz
    -- At the end of a block the next one is looked for.
    have hdiv : i / 64 = b + 1 := by omega
    have hreach : ∀ j < 64 * (b + 1), ¬ d.Match name j := fun j hj => hmiss j (by omega)
    rw [advance_block hdiv hk64]
    by_cases hbig : b + 1 < 7 + 512 + 512 * 512
    case neg =>
      rw [if_neg hbig]
      exact .inr ⟨fun h => hbig (h (b + 1) (Nat.lt_succ_self b) (by omega) hreach).1, _, rfl⟩
    rw [if_pos hbig]
    cases hz₁ : d.zoneAt (b + 1) with
    | some y =>
      have hpass : d.Passes entries (b + 1) := ⟨hbig, fun h => by rw [hz₁] at h; cases h⟩
      obtain ⟨hall, hrun⟩ | ⟨hall, hrun⟩ := here (b + 1) 0 y (by omega) (by decide) hz₁
      · refine .inl ⟨fun b' hb' hlt hnone => ?_, hrun⟩
        obtain hb' | rfl := Nat.lt_or_eq_of_le (Nat.succ_le_of_lt hb')
        · exact hall b' hb' hlt hnone
        · exact hpass
      · exact .inr ⟨fun h => hall fun b' hb' => h b' (Nat.lt_of_succ_lt hb'), hrun⟩
    | none =>
      by_cases hlast : entries ≤ 64 * (b + 1 + 1)
      · refine .inl ⟨fun b' hb' hlt _ => ?_, none, ?_, fun j hj => ?_⟩
        · have hb : b' = b + 1 := by omega
          rw [hb]
          exact ⟨hbig, fun _ => hlast⟩
        · obtain ⟨m, rfl⟩ := Nat.exists_eq_succ_of_ne_zero (show n ≠ 0 by omega)
          change d.findLoop name entries (m + 1) (i + 64) none k = _
          unfold findLoop
          rw [if_pos (by omega)]
        · by_cases hji : j < i
          · exact hmiss j hji
          · rintro ⟨y, hy, -⟩
            rw [show j / 64 = b + 1 by omega, hz₁] at hy
            cases hy
      · refine .inr ⟨fun h => hlast ?_, .null, ?_⟩
        · exact (h (b + 1) (Nat.lt_succ_self b) (by omega) hreach).2 hz₁
        · exact findLoop_null (by omega) (by omega)

theorem scan_eq (h : d.zoneAt 0 = some z) (fuel : ℕ) :
    d.scan name entries fuel = d.findLoop name entries fuel 0 (some z) 0 := by
  unfold zoneAt at h
  split_ifs at h with hz
  cases h
  exact if_pos hz

/-- `find_entry` returns, and has examined all entries of the directory that it searches. -/
def Finds (d : Dir) (up : Above) (name : Name) : Prop :=
  let entries := (d.vol.inode d.nr).iSize / 16
  let q := d.dotdot up (name.take 14)
  ∀ fuel > entries, ∃ r, d.findEntry up name fuel = .ok r ∧ (name ≠ [] → q.1.Examined q.2 entries r.1)

/-- Where the first block can be read, `find_entry` is right if and only if the blocks that it gets to
without a match are there. -/
theorem finds_iff {up : Above} (hfirst : (d.dotdot up (name.take 14)).1.zoneAt 0 ≠ none) :
    d.Finds up name ↔ (name ≠ [] →
      let entries := (d.vol.inode d.nr).iSize / 16
      let q := d.dotdot up (name.take 14)
      ∀ b > 0, 64 * b < entries → (∀ j < 64 * b, ¬ q.1.Match q.2 j) → q.1.Passes entries b) := by
  unfold Finds findEntry
  dsimp only
  by_cases hname : name = []
  · rw [hname]
    exact iff_of_true (fun fuel _ => ⟨_, rfl, fun h => absurd rfl h⟩) fun h => absurd rfl h
  have htake : name.take 14 ≠ [] := by simpa using hname
  simp only [if_neg htake, ne_eq, hname, not_false_eq_true, true_imp_iff]
  obtain ⟨z, hz⟩ := Option.ne_none_iff_exists'.1 hfirst
  obtain ⟨q, hq⟩ : ∃ q, q = d.dotdot up (name.take 14) := ⟨_, rfl⟩
  rw [← hq] at hz ⊢
  obtain ⟨e, he⟩ : ∃ e, e = (d.vol.inode d.nr).iSize / 16 := ⟨_, rfl⟩
  rw [← he]
  have hspec := fun n (hn : e < n) => findLoop_spec (d := q.1) q.2 e
    (show 0 = 64 * 0 + 0 from rfl) (by decide) hz (show e - 0 < n from hn)
    (fun j hj => absurd hj (Nat.not_lt_zero j))
  constructor
  · intro h
    obtain ⟨r, hr, -⟩ := h (e + 1) (Nat.lt_succ_self e)
    obtain ⟨hall, -⟩ | ⟨-, f, hf⟩ := hspec (e + 1) (Nat.lt_succ_self e)
    · exact hall
    · rw [scan_eq hz, hf] at hr
      cases hr
  · intro h fuel hfuel
    obtain ⟨-, r, hr, hex⟩ | ⟨hall, -⟩ := hspec fuel hfuel
    · refine ⟨(r, q.1), ?_, hex⟩
      rw [scan_eq hz, hr]
      rfl
    · exact absurd h hall

end Dir

/-! ## `create_block` -/

namespace Volume

variable {v v₁ v₂ v' : Volume} {W : ℕ → ℕ → Prop}

theorem Grows.trans (h₁ : v.Grows v₁ W) (h₂ : v₁.Grows v₂ W) : v.Grows v₂ W where
  holds a ha := by
    obtain ⟨ha₁, hs₁⟩ := h₁.holds a ha
    obtain ⟨ha₂, hs₂⟩ := h₂.holds a ha₁
    exact ⟨ha₂, hs₂.trans hs₁⟩
  zone a ha hz := by
    have hz₁ := h₁.zone a ha hz
    exact (h₂.zone a (h₁.holds a ha).1 (hz₁ ▸ hz)).trans hz₁
  marked z hz := h₂.marked z (h₁.marked z hz)
  has nr off b a hW h := h₂.has nr off b a hW (h₁.has nr off b a hW h)

/-- What `create_block` leaves as it is. -/
structure Keeps (v v' : Volume) : Prop where
  sound : v'.Sound
  grows : v.Grows v' fun _ _ => False
  size : ∀ nr, (v'.inode nr).iSize = (v.inode nr).iSize
  mode : ∀ nr, (v'.inode nr).iMode = (v.inode nr).iMode

theorem Keeps.refl (hv : v.Sound) : v.Keeps v where
  sound := hv
  grows := (Same.of_get (fun _ => rfl) fun _ _ => rfl : v.Same v).grows (fun _ h => h)
    fun _ _ _ _ _ _ => rfl
  size _ := rfl
  mode _ := rfl

theorem Keeps.trans (h₁ : v.Keeps v₁) (h₂ : v₁.Keeps v₂) : v.Keeps v₂ where
  sound := h₂.sound
  grows := h₁.grows.trans h₂.grows
  size nr := (h₂.size nr).trans (h₁.size nr)
  mode nr := (h₂.mode nr).trans (h₁.mode nr)

/-- Taking a zone changes the map only. -/
theorem takeZone_snd : ∃ m, v.takeZone.2 = { v with zmap := m } ∧
    ∀ b, v.zmap b = true → m b = true := by
  unfold takeZone
  cases v.searchZmap 8 0 with
  | none => exact ⟨v.zmap, rfl, fun _ h => h⟩
  | some b =>
    refine ⟨Function.update v.zmap b true, ?_, fun c hc => ?_⟩
    · dsimp only
      split <;> rfl
    · by_cases h : c = b
      · rw [h, Function.update_self]
      · rw [Function.update_of_ne h, hc]

theorem Sound.takeZone (hv : v.Sound) : v.Keeps v.takeZone.2 := by
  obtain ⟨m, hm, hgrow⟩ := takeZone_snd (v := v)
  have hsame : v.Same { v with zmap := m } := .of_get (fun _ => rfl) fun _ _ => rfl
  rw [hm]
  exact ⟨hv.of_same hsame rfl rfl hgrow, hsame.grows (fun z h => ⟨h.first, h.last, hgrow _ h.bit⟩)
    fun _ _ _ _ _ _ => rfl, fun _ => rfl, fun _ => rfl⟩

theorem set_iSize {s : Slot} {z : ℕ} (nr : ℕ) :
    ((v.set s z).inode nr).iSize = (v.inode nr).iSize := by
  cases s with
  | zone m k =>
    by_cases h : nr = m
    · subst h
      simp [set, setInode]
    · simp [set, setInode, h]
  | entry block k => rfl

theorem set_iMode {s : Slot} {z : ℕ} (nr : ℕ) :
    ((v.set s z).inode nr).iMode = (v.inode nr).iMode := by
  cases s with
  | zone m k =>
    by_cases h : nr = m
    · subst h
      simp [set, setInode]
    · simp [set, setInode, h]
  | entry block k => rfl

theorem Sound.install_keeps {a : Addr} {z : ℕ} (hv : v.Sound) (ha : v.Holds a)
    (ha0 : a.zone v = 0) (hz : v.Fresh z) : v.Keeps (v.install (a.slot v) z) where
  sound := hv.install ha hz
  grows := hv.install_grows ha ha0 hz
  size nr := set_iSize nr
  mode nr := set_iMode nr

end Volume

namespace Dir

variable {d d' : Dir} {a : Addr} {ks : List ℕ} {ok : ℕ → Bool}

theorem fill_spec (hv : d.vol.Sound) (ha : d.vol.Holds a) (ha0 : a.zone d.vol = 0) :
    ∃ v, d.vol.Keeps v ∧ (d.fill (a.slot d.vol) = ((0, false), { d with vol := v }) ∨
      ∃ z, z ≠ 0 ∧ d.fill (a.slot d.vol) = ((z, true), { d with vol := v }) ∧
        v.Holds a ∧ a.zone v = z ∧ ∀ k, v.entry z k = 0) := by
  have hget : d.vol.get (a.slot d.vol) = 0 := ha0
  unfold fill
  rw [if_pos hget]
  rcases ht : d.vol.takeZone with ⟨z, v⟩
  have hkeep : d.vol.Keeps v := by
    have h := hv.takeZone
    rw [ht] at h
    exact h
  dsimp only
  by_cases hz : z = 0
  · rw [if_pos hz]
    exact ⟨v, hkeep, .inl rfl⟩
  · rw [if_neg hz]
    have htakes := hv.take ht hz
    have hav := (htakes.same.holds a).2 ha
    obtain ⟨hslot, hzone⟩ := htakes.same.zone a ha
    have hav0 : a.zone v = 0 := hzone.trans ha0
    have hins := Volume.install_holds htakes.sound hav hav0 htakes.fresh hav
    rw [if_pos rfl] at hins
    rw [← hslot]
    refine ⟨_, hkeep.trans (htakes.sound.install_keeps hav hav0 htakes.fresh), .inr
      ⟨z, hz, rfl, hins.1, hins.2.2, fun k => ?_⟩⟩
    exact Volume.get_install_entry hav htakes.fresh k

/-- What `create_block` comes to: the zone that is there, or none, or a new one that is empty. -/
theorem create_spec (ok : ℕ → Bool) (hv : d.vol.Sound) (ha : d.vol.Holds a) (hvalid : (a.extend ks).Valid) :
    ∃ z new v, create ok (a.slot d.vol) ks d = ((z, new), { d with vol := v }) ∧ d.vol.Keeps v ∧
      (z ≠ 0 → v.Holds (a.extend ks) ∧ (a.extend ks).zone v = z) ∧
      if d.walk ok (a.slot d.vol) ks = 0 then z = 0 ∨ new = true ∧ ∀ k, v.entry z k = 0
      else z = d.walk ok (a.slot d.vol) ks ∧ new = false ∧ v = d.vol := by
  induction ks generalizing a d with
  | nil =>
    unfold create walk
    by_cases ha0 : a.zone d.vol = 0
    · simp only [if_pos (show d.vol.get (a.slot d.vol) = 0 from ha0)]
      obtain ⟨v, hkeep, hfill | ⟨z, hz, hfill, hav, hzone, hempty⟩⟩ := fill_spec hv ha ha0
      · exact ⟨0, false, v, hfill, hkeep, fun h => absurd rfl h, .inl rfl⟩
      · exact ⟨z, true, v, hfill, hkeep, fun _ => ⟨hav, hzone⟩, .inr ⟨rfl, hempty⟩⟩
    · simp only [if_neg (show ¬ d.vol.get (a.slot d.vol) = 0 from ha0)]
      exact ⟨_, false, d.vol, if_neg ha0, .refl hv, fun _ => ⟨ha, rfl⟩, rfl, rfl, rfl⟩
  | cons k ks ih =>
    have hk : (a.child k).Valid := Addr.Valid.of_extend hvalid
    by_cases ha0 : a.zone d.vol = 0
    · have hget : d.vol.get (a.slot d.vol) = 0 := ha0
      have hwalk : d.walk ok (a.slot d.vol) (k :: ks) = 0 := by
        unfold walk
        rw [if_neg fun h => h.1 hget]
      simp only [if_pos hwalk]
      unfold create
      obtain ⟨v, hkeep, hfill | ⟨z, hz, hfill, hav, hzone, hempty⟩⟩ := fill_spec hv ha ha0
      · rw [hfill]
        exact ⟨0, false, v, if_neg fun h => h.1 rfl, hkeep, fun h => absurd rfl h, .inl rfl⟩
      · rw [hfill]
        have hchild : v.Holds (a.child k) := hav.child (by rw [hzone]; exact hz) hk.2.1 hk.2.2
        obtain ⟨y, new, v', hc, hkeep', hholds, hlast⟩ :=
          ih (d := { d with vol := v }) hkeep.sound hchild hvalid
        have hslot : (a.child k).slot v = .entry z k := by
          rw [← hzone]
          rfl
        rw [hslot] at hc hlast
        have hzero : walk { d with vol := v } ok (.entry z k) ks = 0 := by
          cases ks with
          | nil => exact hempty k
          | cons _ _ =>
            unfold walk
            exact if_neg fun h => h.1 (hempty k)
        rw [if_pos hzero] at hlast
        refine ⟨y, new, v', ?_, hkeep.trans hkeep', hholds, hlast⟩
        dsimp only
        rw [if_pos ⟨hz, rfl⟩]
        exact hc
    · have hget : d.vol.get (a.slot d.vol) ≠ 0 := ha0
      have hfill : d.fill (a.slot d.vol) = ((a.zone d.vol, false), d) := if_neg hget
      unfold create walk
      rw [hfill]
      dsimp only
      by_cases hok : ok (ks.length + 1) = true
      · rw [if_pos ⟨ha0, by simpa using hok⟩, if_pos ⟨hget, hok⟩]
        exact ih hv (ha.child ha0 hk.2.1 hk.2.2) hvalid
      · rw [if_neg (by simp [hok]), if_neg (by simp [hok])]
        exact ⟨0, false, d.vol, rfl, .refl hv, fun h => absurd rfl h, .inl rfl⟩

theorem createBlock_spec {b : ℕ} (hv : d.vol.Sound) (hfile : (d.vol.inode d.nr).isFile = true)
    (hb : b < 7 + 512 + 512 * 512) :
    ∃ z new v, d.createBlock b = .ok ((z, new), { d with vol := v }) ∧ d.vol.Keeps v ∧
      (z ≠ 0 → ∃ a, blockAddr d.nr b = some a ∧ v.Holds a ∧ a.zone v = z) ∧
      if d.zone b = 0 then z = 0 ∨ new = true ∧ ∀ k, v.entry z k = 0
      else z = d.zone b ∧ new = false ∧ v = d.vol := by
  obtain ⟨p, hp⟩ : ∃ p, bmapPath b = some p := by
    cases h : bmapPath b with
    | none => exact absurd hb (not_lt.2 (bmapPath_none.1 h))
    | some p => exact ⟨p, rfl⟩
  have haddr : blockAddr d.nr b = some ((Addr.root d.nr p.1).extend p.2) := by
    unfold blockAddr
    rw [hp]
    rfl
  obtain ⟨hvalid, -⟩ := blockAddr_spec haddr
  have ha : d.vol.Holds (.root d.nr p.1) := ⟨hfile, Addr.Valid.of_extend hvalid, trivial⟩
  obtain ⟨z, new, v, hc, hkeep, hholds, hlast⟩ := create_spec (d.reads b) hv ha hvalid
  have hzone : d.zone b = d.walk (d.reads b) (.zone d.nr p.1) p.2 := by
    unfold zone
    rw [hp]
    rfl
  refine ⟨z, new, v, ?_, hkeep, fun hz => ⟨_, haddr, hholds hz⟩, ?_⟩
  · unfold createBlock
    rw [hp]
    exact congrArg Except.ok hc
  · rw [hzone]
    exact hlast

/-! ## The loop of `add_entry` -/

/-- Entry `i` can be read, and is in use. -/
def Taken (d : Dir) (i : ℕ) : Prop :=
  i * 16 < (d.vol.inode d.nr).iSize ∧
    ∃ z, d.zoneAt (i / 64) = some z ∧ d.vol.entry z (8 * (i % 64)) ≠ 0

/-- The loop gets past block `b`, if it gets there: it is not too big, and if it is there it can be
read. -/
def Opens (d : Dir) (b : ℕ) : Prop :=
  b < 7 + 512 + 512 * 512 ∧ (d.zone b ≠ 0 → d.reads b 0 = true)

variable {name : Name} {n i b k z : ℕ}

theorem extend_eq (h : i * 16 < (d.vol.inode d.nr).iSize) : d.extend i z k = d :=
  if_neg (not_le.2 h)

theorem entry_extend (h : (d.vol.inode d.nr).iSize ≤ i * 16 ∨ d.vol.entry z (8 * k) = 0) :
    (d.extend i z k).vol.entry z (8 * k) = 0 := by
  unfold extend
  by_cases hend : (d.vol.inode d.nr).iSize ≤ i * 16
  · rw [if_pos hend]
    exact get_set_self (v := d.vol) (s := .entry z (8 * k)) (by decide)
  · rw [if_neg hend]
    exact h.resolve_left hend

theorem zoneAt_eq_some : d.zoneAt b = some z ↔ d.zone b = z ∧ z ≠ 0 ∧ d.reads b 0 = true := by
  unfold zoneAt
  constructor
  · intro h
    split_ifs at h with hz
    cases h
    exact ⟨rfl, hz⟩
  · rintro ⟨rfl, hz⟩
    exact if_pos hz

/-- The loop at entry `k` of block `b`. -/
theorem addLoop_spec (name : Name) (hv : d.vol.Sound) (hfile : (d.vol.inode d.nr).isFile = true)
    (hi : i = 64 * b + k) (hk : k ≤ 64) (hz : d.zoneAt b = some z)
    (hn : ((d.vol.inode d.nr).iSize + 15) / 16 - i < n) (htaken : ∀ j < i, d.Taken j) :
    ((∀ b' > b, (∀ j < 64 * b', d.Taken j) → d.Opens b') ∧
      ∃ r, addLoop name n i (some z) k d = .ok r) ∨
    (¬ (∀ b' > b, (∀ j < 64 * b', d.Taken j) → d.Opens b') ∧
      ∃ f, addLoop name n i (some z) k d = .error f) := by
  induction n generalizing i b k z with
  | zero => exact absurd hn (Nat.not_lt_zero _)
  | succ n ih =>
    unfold addLoop
    -- The turn once `de` is within a block.
    have here : ∀ b₁ k₁ z₁, i = 64 * b₁ + k₁ → k₁ < 64 → d.zoneAt b₁ = some z₁ →
        ((∀ b' > b₁, (∀ j < 64 * b', d.Taken j) → d.Opens b') ∧
          ∃ r, (if (d.extend i z₁ k₁).vol.entry z₁ (8 * k₁) = 0 then
              Except.ok (some (z₁, k₁), (d.extend i z₁ k₁).putName name z₁ k₁)
            else addLoop name n (i + 1) (some z₁) (k₁ + 1) (d.extend i z₁ k₁)) = .ok r) ∨
        (¬ (∀ b' > b₁, (∀ j < 64 * b', d.Taken j) → d.Opens b') ∧
          ∃ f, (if (d.extend i z₁ k₁).vol.entry z₁ (8 * k₁) = 0 then
              Except.ok (some (z₁, k₁), (d.extend i z₁ k₁).putName name z₁ k₁)
            else addLoop name n (i + 1) (some z₁) (k₁ + 1) (d.extend i z₁ k₁)) = .error f) := by
      intro b₁ k₁ z₁ hi₁ hk₁ hz₁
      have hdiv : i / 64 = b₁ := by omega
      have hmod : i % 64 = k₁ := by omega
      by_cases hfree : (d.vol.inode d.nr).iSize ≤ i * 16 ∨ d.vol.entry z₁ (8 * k₁) = 0
      · rw [if_pos (entry_extend hfree)]
        refine .inl ⟨fun b' hb' hall => ?_, _, rfl⟩
        obtain ⟨hlt, y, hy, hne⟩ := hall i (by omega)
        rw [hdiv, hz₁] at hy
        cases hy
        rw [hmod] at hne
        obtain h | h := hfree
        · exact absurd hlt (not_lt.2 h)
        · exact absurd h hne
      · obtain ⟨hlt, hne⟩ := not_or.1 hfree
        rw [extend_eq (not_le.1 hlt), if_neg hne]
        refine ih (by omega) hk₁ hz₁ (by omega) fun j hj => ?_
        obtain hj | rfl := Nat.lt_succ_iff_lt_or_eq.1 hj
        · exact htaken j hj
        · exact ⟨not_le.1 hlt, z₁, hdiv ▸ hz₁, hmod ▸ hne⟩
    by_cases hk64 : k < 64
    · rw [show d.room i (some z) k = .ok (.entry z k, d) from if_pos hk64]
      exact here b k z hi hk64 hz
    -- At the end of a block the next one is looked for, or made.
    have hdiv : i / 64 = b + 1 := by omega
    have hreach : ∀ j < 64 * (b + 1), d.Taken j := fun j hj => htaken j (by omega)
    by_cases hbig : b + 1 < 7 + 512 + 512 * 512
    case neg =>
      have hcreate : d.createBlock (b + 1) = .error .blockBig := by
        unfold createBlock
        rw [bmapPath_none.2 (not_lt.1 hbig)]
      have hroom : d.room i (some z) k = .error .blockBig := by
        unfold room
        dsimp only
        rw [if_neg hk64, hdiv, hcreate]
        rfl
      rw [hroom]
      exact .inr ⟨fun h => hbig (h (b + 1) (Nat.lt_succ_self b) hreach).1, _, rfl⟩
    obtain ⟨y, new, v, hcreate, -, -, hlast⟩ := createBlock_spec hv hfile hbig
    have hroom : d.room i (some z) k = (if y = 0 then .ok (.stop, { d with vol := v })
        else if (new || d.reads (b + 1) 0) = true then .ok (.entry y 0, { d with vol := v })
        else .ok (.gap, { d with vol := v })) := by
      unfold room
      dsimp only
      rw [if_neg hk64, hdiv, hcreate]
      rfl
    rw [hroom]
    by_cases hzero : d.zone (b + 1) = 0
    · -- Whatever has come of the hole, the loop ends here.
      rw [if_pos hzero] at hlast
      have hall : ∀ b' > b, (∀ j < 64 * b', d.Taken j) → d.Opens b' := by
        intro b' hb' hall
        obtain hb' | rfl := Nat.lt_or_eq_of_le (Nat.succ_le_of_lt hb')
        · obtain ⟨-, x, hx, -⟩ := hall (64 * (b + 1)) (by omega)
          rw [Nat.mul_div_cancel_left _ (by decide)] at hx
          obtain ⟨rfl, hx0, -⟩ := zoneAt_eq_some.1 hx
          exact absurd hzero hx0
        · exact ⟨hbig, fun h => absurd hzero h⟩
      by_cases hy : y = 0
      · rw [if_pos hy]
        exact .inl ⟨hall, _, rfl⟩
      · obtain ⟨rfl, hempty⟩ := hlast.resolve_left hy
        rw [if_neg hy, Bool.true_or, if_pos rfl]
        refine .inl ⟨hall, _, if_pos (entry_extend (.inr ?_))⟩
        exact hempty 0
    · rw [if_neg hzero] at hlast
      obtain ⟨rfl, rfl, rfl⟩ := hlast
      rw [if_neg hzero]
      by_cases hread : d.reads (b + 1) 0 = true
      · have hz₁ : d.zoneAt (b + 1) = some (d.zone (b + 1)) := zoneAt_eq_some.2 ⟨rfl, hzero, hread⟩
        rw [if_pos (by simpa using hread)]
        obtain ⟨hall, hrun⟩ | ⟨hall, hrun⟩ := here (b + 1) 0 _ (by omega) (by decide) hz₁
        · refine .inl ⟨fun b' hb' hb'all => ?_, hrun⟩
          obtain hb' | rfl := Nat.lt_or_eq_of_le (Nat.succ_le_of_lt hb')
          · exact hall b' hb' hb'all
          · exact ⟨hbig, fun _ => hread⟩
        · exact .inr ⟨fun h => hall fun b' hb' => h b' (Nat.lt_of_succ_lt hb'), hrun⟩
      · rw [if_neg (by simpa using hread)]
        refine .inr ⟨fun h => hread ((h (b + 1) (Nat.lt_succ_self b) hreach).2 hzero), ?_⟩
        cases n with
        | zero => exact ⟨.endless, rfl⟩
        | succ n => exact ⟨.null, rfl⟩

/-- `add_entry` returns. -/
def Adds (d : Dir) (name : Name) : Prop :=
  ∀ fuel > (d.vol.inode d.nr).iSize / 16 + 1, ∃ r, d.addEntry name fuel = .ok r

theorem adds_iff (hv : d.vol.Sound) (hfile : (d.vol.inode d.nr).isFile = true)
    (hfirst : d.zoneAt 0 ≠ none) :
    d.Adds name ↔ (name ≠ [] → ∀ b > 0, (∀ j < 64 * b, d.Taken j) → d.Opens b) := by
  unfold Adds addEntry
  dsimp only
  by_cases hname : name = []
  · rw [hname]
    exact iff_of_true (fun fuel _ => ⟨_, if_neg fun h => h.1 rfl⟩) fun h => absurd rfl h
  obtain ⟨z, hz⟩ := Option.ne_none_iff_exists'.1 hfirst
  obtain ⟨hzone, hz0, hread⟩ := zoneAt_eq_some.1 hz
  have hblock : (d.vol.inode d.nr).iZone 0 = z := hzone
  have htake : name.take 14 ≠ [] := by simpa using hname
  rw [hblock]
  simp only [if_pos (show name.take 14 ≠ [] ∧ z ≠ 0 ∧ d.reads 0 0 = true from ⟨htake, hz0, hread⟩)]
  have hspec := fun n (hn : (d.vol.inode d.nr).iSize / 16 + 1 < n) =>
    addLoop_spec (name.take 14) hv hfile (show 0 = 64 * 0 + 0 from rfl) (by decide) hz
      (show ((d.vol.inode d.nr).iSize + 15) / 16 - 0 < n by omega)
      (fun j hj => absurd hj (Nat.not_lt_zero j))
  constructor
  · intro h _
    obtain ⟨r, hr⟩ := h _ (Nat.lt_succ_self _)
    obtain ⟨hall, -⟩ | ⟨-, f, hf⟩ := hspec _ (Nat.lt_succ_self _)
    · exact hall
    · rw [hf] at hr
      cases hr
  · intro h fuel hfuel
    obtain ⟨-, hrun⟩ | ⟨hall, -⟩ := hspec fuel hfuel
    · exact hrun
    · exact absurd (h hname) hall

/-- Holes and failing reads do no harm as long as `find_entry` finds its name before a block that is
missing, or has no entry behind that block, and `add_entry` finds a free entry before a block that
cannot be read. -/
theorem gaps_iff (up : Above) (name : Name) (hv : d.vol.Sound) (hfile : (d.vol.inode d.nr).isFile = true)
    (hfirst : d.zoneAt 0 ≠ none) (hup : (d.dotdot up (name.take 14)).1.zoneAt 0 ≠ none) :
    (d.Finds up name ↔ (name ≠ [] →
      let entries := (d.vol.inode d.nr).iSize / 16
      let q := d.dotdot up (name.take 14)
      ∀ b > 0, 64 * b < entries → (∀ j < 64 * b, ¬ q.1.Match q.2 j) → q.1.Passes entries b)) ∧
    (d.Adds name ↔ (name ≠ [] → ∀ b > 0, (∀ j < 64 * b, d.Taken j) → d.Opens b)) :=
  ⟨finds_iff hup, adds_iff hv hfile hfirst⟩

end Dir

/-! ## A directory with a hole -/

/-- Directory 1 has zone 3 as its first block, and no other. -/
def holed (size : ℕ) : Dir where
  vol :=
    { firstdatazone := 3
      nzones := 16
      zmapBlocks := 1
      zmap := fun b => b = 0 ∨ b = 1
      data := fun _ _ => 0
      inode := fun nr =>
        if nr = 1 then ⟨0o040755, fun k => if k = 0 then 3 else 0, size⟩ else ⟨0, fun _ => 0, 0⟩ }
  nr := 1
  reads _ _ := true

theorem holed_zone {size : ℕ} {a : Addr} (hz : a.zone (holed size).vol ≠ 0) : a = .root 1 0 := by
  cases a with
  | child up k => exact absurd rfl hz
  | root nr k =>
    change ((holed size).vol.inode nr).iZone k ≠ 0 at hz
    unfold holed at hz
    dsimp only at hz
    split_ifs at hz with hnr
    · dsimp only at hz
      split_ifs at hz with hk
      · rw [hnr, hk]
      · exact absurd rfl hz
    · exact absurd rfl hz

theorem holed_sound {size : ℕ} : (holed size).vol.Sound where
  firstdatazone_pos := show 0 < 3 by decide
  nzones_lt := show 16 < 2 ^ 16 by decide
  zmap_zero := rfl
  marked a _ hz := by
    rw [holed_zone hz]
    exact ⟨le_rfl, show 3 < 16 by decide, rfl⟩
  distinct a b _ _ hz hab := by
    rw [hab] at hz
    exact (holed_zone (hab ▸ hz)).trans (holed_zone hz).symm

theorem gaps_iff_holed : (holed 2048).Finds .plain [0x78] ∧ (holed 2048).Adds [0x78] := by
  have h := Dir.gaps_iff (d := holed 2048) .plain [0x78] holed_sound rfl (by decide)
    (by decide)
  refine ⟨h.1.2 fun _ b hb hlt _ => ⟨?_, fun _ => ?_⟩, h.2.2 fun _ b hb hall => ?_⟩
  · change 64 * b < 128 at hlt
    omega
  · change 64 * b < 128 at hlt
    change 128 ≤ 64 * (b + 1)
    omega
  · obtain ⟨-, z, -, hne⟩ := hall 0 (by omega)
    exact absurd rfl hne

/-- Behind a hole with entries after it `find_entry` follows a null pointer. -/
theorem gaps_not : (holed 3072).findEntry .plain [0x78] 193 = .error .null ∧
    ¬ ∀ (d : Dir) (up : Above) (name : Name), d.vol.Sound → (d.vol.inode d.nr).isFile = true →
      d.zoneAt 0 ≠ none → (d.dotdot up (name.take 14)).1.zoneAt 0 ≠ none →
      d.Finds up name ∧ d.Adds name := by
  have hnull : (holed 3072).findEntry .plain [0x78] 193 = .error .null := rfl
  refine ⟨hnull, fun h => ?_⟩
  obtain ⟨hfind, -⟩ := h (holed 3072) .plain [0x78] holed_sound rfl (by decide) (by decide)
  obtain ⟨r, hr, -⟩ := hfind 193 (by decide)
  rw [hnull] at hr
  cases hr

end Linux011.Zones
