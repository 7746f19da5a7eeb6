import Linux011.Mm.Page
import Linux011.Lib.Fold

/-!
# Page tables

The functions of `mm/memory.c` that read and change page tables. The page directory `pg_dir` is
frame 0; a page table is an ordinary frame. Linear addresses are numbers below `2 ^ 32`.
-/

namespace Linux011.Mm

/-- `*dir` for directory index `d`. -/
def pde (m : Mem) (d : ℕ) : Word := m.phys 0 d

/-- The entry at index `i` of the table of directory entry `d`, zero where there is no table. -/
def pte (m : Mem) (d i : ℕ) : Word :=
  if present (pde m d) then m.phys (pageOf (pde m d)) i else 0

/-- `(address >> 20) & 0xffc`, as an index. -/
def dirIndex (address : ℕ) : ℕ := address / 2 ^ 22 % 1024

/-- `(address >> 12) & 0x3ff`. -/
def tblIndex (address : ℕ) : ℕ := address / 2 ^ 12 % 1024

theorem dirIndex_lt (address : ℕ) : dirIndex address < 1024 := Nat.mod_lt _ (by decide)

theorem tblIndex_lt (address : ℕ) : tblIndex address < 1024 := Nat.mod_lt _ (by decide)

/-- Why a function does not return normally: `panic`, or no free page. In the second case the
memory at that point matters: `copy_page_tables` returns -1, the page fault handlers call `oom`. -/
inductive Stop
  | panic (p : Panic)
  | noMemory (m : Mem)

/-- `free_page` inside a function that may also run out of memory. -/
def liftPanic : Except Panic Mem → Except Stop Mem
  | .ok m => .ok m
  | .error p => .error (.panic p)

/-! ## `free_page_tables` -/

/-- The inner loop body: `if (1 & *pg_table) free_page(…); *pg_table = 0`. -/
def freeEntry (t : ℕ) (m : Mem) (i : ℕ) : Except Panic Mem := do
  let m' ← if present (m.phys t i) then freePage m (pageOf (m.phys t i)) else .ok m
  return m'.write t i 0

/-- The outer loop body for directory index `d`. -/
def freeDir (m : Mem) (d : ℕ) : Except Panic Mem :=
  if present (pde m d) then do
    let m₁ ← (List.range 1024).foldlM (freeEntry (pageOf (pde m d))) m
    let m₂ ← freePage m₁ (pageOf (pde m₁ d))
    return m₂.write 0 d 0
  else .ok m

/-- The number of directory entries for `size` bytes: `(size + 0x3fffff) >> 22`, in 32 bits. -/
def dirCount (size : ℕ) : ℕ := (size + 0x3fffff) % 2 ^ 32 / 2 ^ 22

def freePageTables (m : Mem) (from_ size : ℕ) : Except Panic Mem :=
  if from_ % 2 ^ 22 ≠ 0 then .error .freeWrongAlignment
  else if from_ = 0 then .error .freeSwapperMemory
  else (List.range (dirCount size)).foldlM (fun m k => freeDir m (dirIndex from_ + k)) m

/-! ## `copy_page_tables` -/

/-- The inner loop body, from table `ft` to table `tt`. -/
def copyEntry (ft tt : ℕ) (m : Mem) (i : ℕ) : Mem :=
  if present (m.phys ft i) then
    let thisPage := protect (m.phys ft i)
    let m := m.write tt i thisPage
    if 0x100000 < thisPage.toNat then
      (m.write ft i thisPage).setMap (pageOf thisPage) (m.memMap (pageOf thisPage) + 1)
    else m
  else m

/-- The outer loop body; `nr` entries are copied. -/
def copyDir (fd td nr : ℕ) (m : Mem) : Except Stop Mem :=
  if present (pde m td) then .error (.panic .copyAlreadyExist)
  else if present (pde m fd) then
    match getFreePage m with
    | none => .error (.noMemory m)
    | some (tt, m') =>
      .ok ((List.range nr).foldl (copyEntry (pageOf (pde m fd)) tt) (m'.write 0 td (entry tt)))
  else .ok m

/-- `copy_page_tables`; the return value -1 is `noMemory`. -/
def copyPageTables (m : Mem) (from_ to_ size : ℕ) : Except Stop Mem :=
  if from_ % 2 ^ 22 ≠ 0 ∨ to_ % 2 ^ 22 ≠ 0 then .error (.panic .copyWrongAlignment)
  else (List.range (dirCount size)).foldlM
    (fun m k => copyDir (dirIndex from_ + k) (dirIndex to_ + k)
      (if from_ = 0 then 0xA0 else 1024) m) m

/-! ## Page faults -/

/-- `put_page`; `none` where it returns 0. -/
def putPage (m : Mem) (page address : ℕ) : Option Mem :=
  if present (pde m (dirIndex address)) then
    some (m.write (pageOf (pde m (dirIndex address))) (tblIndex address) (entry page))
  else
    match getFreePage m with
    | none => none
    | some (tmp, m') =>
      some ((m'.write 0 (dirIndex address) (entry tmp)).write tmp (tblIndex address) (entry page))

/-- `un_wp_page` on entry `i` of table `t`. -/
def unWpPage (m : Mem) (t i : ℕ) : Except Stop Mem :=
  let oldPage := pageOf (m.phys t i)
  if lowPages ≤ oldPage ∧ m.memMap oldPage = 1 then .ok (m.write t i (unprotect (m.phys t i)))
  else
    match getFreePage m with
    | none => .error (.noMemory m)
    | some (newPage, m') =>
      let m₁ := if lowPages ≤ oldPage then m'.setMap oldPage (m'.memMap oldPage - 1) else m'
      let m₂ := m₁.write t i (entry newPage)
      .ok (m₂.fill newPage (m₂.phys oldPage))

def doWpPage (m : Mem) (address : ℕ) : Except Stop Mem :=
  unWpPage m (pageOf (pde m (dirIndex address))) (tblIndex address)

def writeVerify (m : Mem) (address : ℕ) : Except Stop Mem :=
  if present (pde m (dirIndex address)) then
    let t := pageOf (pde m (dirIndex address))
    let e := m.phys t (tblIndex address)
    if present e ∧ ¬ writable e then unWpPage m t (tblIndex address) else .ok m
  else .ok m

def getEmptyPage (m : Mem) (address : ℕ) : Except Stop Mem :=
  match getFreePage m with
  | none => .error (.noMemory m)
  | some (tmp, m') =>
    match putPage m' tmp address with
    | some m'' => .ok m''
    | none => do
      let m'' ← liftPanic (freePage m' tmp)
      .error (.noMemory m'')

/-- The page table at `to_page`, made if it is missing. -/
def toTable (m : Mem) (td : ℕ) : Except Stop (ℕ × Mem) :=
  if present (pde m td) then .ok (pageOf (pde m td), m)
  else
    match getFreePage m with
    | none => .error (.noMemory m)
    | some (to_, m') => .ok (to_, m'.write 0 td (entry to_))

/-- `try_to_share`: the page at offset `address` of the task starting at `pStart` is shared with the
one starting at `start`. `false` is the return value 0. -/
def tryToShare (m : Mem) (address pStart start : ℕ) : Except Stop (Bool × Mem) :=
  let fd := dirIndex address + dirIndex pStart
  let td := dirIndex address + dirIndex start
  let i := tblIndex address
  if ¬ present (pde m fd) then .ok (false, m)
  else
    let ft := pageOf (pde m fd)
    let e := m.phys ft i
    if ¬ present e ∨ dirty e then .ok (false, m)
    else if m.highMemory ≤ pageOf e ∨ pageOf e < lowPages then .ok (false, m)
    else do
      let (tt, m) ← toTable m td
      if present (m.phys tt i) then .error (.panic .toPageAlreadyExists)
      else
        let m := m.write ft i (protect (m.phys ft i))
        let m := m.write tt i (m.phys ft i)
        .ok (true, m.setMap (pageOf e) (m.memMap (pageOf e) + 1))

end Linux011.Mm
