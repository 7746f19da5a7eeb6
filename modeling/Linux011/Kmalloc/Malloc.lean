import Linux011.Lib.Chain
import Linux011.Lib.Sizes
import Linux011.Lib.Transition
import Mathlib.Data.List.FinRange

/-!
# The kernel's malloc

`lib/malloc.c`. Pointers are addresses, with `none` for null. A bucket descriptor is known by its
address, too; its fields are kept apart from the words of the pages that the objects are in.

1. `State`, `getFreePage`, `freePage`.
2. `malloc`, with `init_bucket_desc`.
3. `freeS`: `Search` is its search, one step of which is what no interrupt can come into, and
   `found` the rest.
4. `State.next`, `kmalloc`.
-/

namespace Linux011.Kmalloc

/-- An index into `bucket_dir`. -/
abbrev Bucket := Fin 9

def Bucket.size (k : Bucket) : ℕ := 16 * 2 ^ k.val

structure State where
  /-- `bucket_dir`. -/
  chain : Bucket → Option ℕ
  freeBucketDesc : Option ℕ
  page : ℕ → ℕ
  next : ℕ → Option ℕ
  freeptr : ℕ → Option ℕ
  refcnt : ℕ → BitVec 16
  bucketSize : ℕ → BitVec 16
  /-- The words of the memory, as pointers. -/
  mem : ℕ → Option ℕ
  /-- The pages that `get_free_page` has given and `free_page` has not got back. -/
  held : ℕ → Bool
  /-- Those of them that hold descriptors. -/
  descPages : List ℕ
  /-- The objects in use, with the lengths that were asked for. -/
  live : ℕ → Option ℕ

/-- The page an address is in. -/
def pageOf (a : ℕ) : ℕ := a / 4096 * 4096

namespace State

variable (s : State)

/-- No chain is longer than there are descriptors. -/
def bound : ℕ := 256 * s.descPages.length + 1

/-- `get_free_page`, which clears the page; `page` is what it returns. -/
def getFreePage (page : ℕ) : Option State :=
  if page = 0 ∨ page % 4096 ≠ 0 ∨ s.held page = true then none
  else some { s with
    page := fun a => if pageOf a = page then 0 else s.page a
    next := fun a => if pageOf a = page then none else s.next a
    freeptr := fun a => if pageOf a = page then none else s.freeptr a
    refcnt := fun a => if pageOf a = page then 0 else s.refcnt a
    bucketSize := fun a => if pageOf a = page then 0 else s.bucketSize a
    mem := fun a => if pageOf a = page then none else s.mem a
    held := Function.update s.held page true }

/-- `free_page`; `none` is its panic. -/
def freePage (page : ℕ) : Option State :=
  if s.held page = true then some { s with held := Function.update s.held page false } else none

/-! ## Malloc -/

def initBucketDesc (page : ℕ) : Option State :=
  (s.getFreePage page).map fun s => { s with
    next := linkUp 16 s.freeBucketDesc 255 page s.next
    freeBucketDesc := some page
    descPages := page :: s.descPages }

/-- The smallest bucket for a length. -/
def bucket (len : ℕ) : Option Bucket :=
  (List.finRange 9).find? fun k => len ≤ k.size

/-- The part of `malloc` that allocates a new bucket. The pages are what `get_free_page` returns,
for descriptors and for objects. -/
def newBucket (k : Bucket) (descPage page : ℕ) : Option (State × ℕ) :=
  (if s.freeBucketDesc.isNone then s.initBucketDesc descPage else some s).bind fun s =>
    s.freeBucketDesc.bind fun bdesc =>
      let s := { s with
        freeBucketDesc := s.next bdesc
        refcnt := Function.update s.refcnt bdesc 0
        bucketSize := Function.update s.bucketSize bdesc (BitVec.ofNat 16 k.size) }
      (s.getFreePage page).map fun s =>
        ({ s with
          page := Function.update s.page bdesc page
          freeptr := Function.update s.freeptr bdesc (some page)
          mem := linkUp k.size none (4096 / k.size - 1) page s.mem
          next := Function.update s.next bdesc (s.chain k)
          chain := Function.update s.chain k (some bdesc) }, bdesc)

/-- The end of `malloc`: the first free object of the bucket. -/
def take (bdesc len : ℕ) : Option (State × ℕ) :=
  (s.freeptr bdesc).map fun retval =>
    ({ s with
      freeptr := Function.update s.freeptr bdesc (s.mem retval)
      refcnt := Function.update s.refcnt bdesc (s.refcnt bdesc + 1)
      live := Function.update s.live retval (some len) }, retval)

/-- `none` is a panic. -/
def malloc (len descPage page : ℕ) : Option (State × ℕ) :=
  (bucket len).bind fun k =>
    (follow s.next (fun bdesc => (s.freeptr bdesc).isSome) s.bound (s.chain k)).bind fun
      | some bdesc => s.take bdesc len
      | none => (s.newBucket k descPage page).bind fun (s, bdesc) => s.take bdesc len

end State

/-! ## Free -/

/-- Where `free_s` is in its search; `k` counts the buckets. -/
inductive Search
  /-- At the head of the outer loop. -/
  | bucket (k : ℕ)
  /-- At the test of the inner loop. -/
  | bdesc (k : Bucket) (prev bdesc : Option ℕ)
  /-- Before it goes on to the next descriptor. -/
  | next (k : Bucket) (bdesc : ℕ)
  | found (k : Bucket) (prev : Option ℕ) (bdesc : ℕ)
  | panic
  deriving DecidableEq

namespace State

variable (s : State)

def searchStep (page size : ℕ) : Search → Search
  | .bucket k =>
    if h : k < 9 then
      let bdir : Bucket := ⟨k, h⟩
      if bdir.size < size then .bucket (k + 1) else .bdesc bdir none (s.chain bdir)
    else .panic
  | .bdesc k _ none => .bucket (k + 1)
  | .bdesc k prev (some bdesc) => if s.page bdesc = page then .found k prev bdesc else .next k bdesc
  | .next k bdesc => .bdesc k (some bdesc) (s.next bdesc)
  | .found k prev bdesc => .found k prev bdesc
  | .panic => .panic

def searchFor (page size : ℕ) : ℕ → Search → Search
  | _, .found k prev bdesc => .found k prev bdesc
  | _, .panic => .panic
  | 0, c => c
  | n + 1, c => searchFor page size n (s.searchStep page size c)

/-- The search, if nothing interrupts it; it ends within so many steps. -/
def search (page size : ℕ) (c : Search) : Search :=
  s.searchFor page size (9 * (2 * s.bound + 2) + 1) c

/-- What comes after `prev`, or first in the chain. -/
def after (k : Bucket) : Option ℕ → Option ℕ
  | some prev => s.next prev
  | none => s.chain k

/-- The descriptor before `bdesc`, where `prev` may not be accurate any more. -/
def before (k : Bucket) (prev : Option ℕ) (bdesc : ℕ) : Option (Option ℕ) :=
  if s.after k prev ≠ some bdesc then
    follow s.next (fun p => s.next p = some bdesc) s.bound (s.chain k)
  else some prev

/-- Take a descriptor out of its chain; `none` is a panic. -/
def unlink (k : Bucket) (prev : Option ℕ) (bdesc : ℕ) : Option State :=
  (s.before k prev bdesc).bind fun
    | some p => some { s with next := Function.update s.next p (s.next bdesc) }
    | none =>
      if s.chain k ≠ some bdesc then none
      else some { s with chain := Function.update s.chain k (s.next bdesc) }

/-- `free_s` from `found` on. -/
def found (obj : ℕ) (k : Bucket) (prev : Option ℕ) (bdesc : ℕ) : Option State :=
  let s := { s with
    mem := Function.update s.mem obj (s.freeptr bdesc)
    freeptr := Function.update s.freeptr bdesc (some obj)
    refcnt := Function.update s.refcnt bdesc (s.refcnt bdesc - 1)
    live := Function.update s.live obj none }
  if s.refcnt bdesc = 0 then
    (s.unlink k prev bdesc).bind fun s => (s.freePage (s.page bdesc)).map fun s => { s with
      next := Function.update s.next bdesc s.freeBucketDesc
      freeBucketDesc := some bdesc }
  else some s

/-- What is left of `free_s`, if nothing interrupts it. -/
def resume (obj size : ℕ) (c : Search) : Option State :=
  match s.search (pageOf obj) size c with
  | .found k prev bdesc => s.found obj k prev bdesc
  | _ => none

def freeS (obj size : ℕ) : Option State :=
  s.resume obj size (.bucket 0)

end State

inductive Event
  | malloc (len descPage page : ℕ)
  | freeS (obj size : ℕ)
  /-- The owner of an object writes to it. -/
  | write (obj a : ℕ) (v : Option ℕ)

namespace State

variable (s : State)

/-- A call on a live object, with the length it was asked for or 0. -/
def Owns (obj size : ℕ) : Prop :=
  ∃ len ∈ s.live obj, size = 0 ∨ size = len

/-- The address is in the object. -/
def Within (obj a : ℕ) : Prop :=
  ∃ len ∈ s.live obj, ∃ k ∈ bucket len, obj ≤ a ∧ a < obj + k.size

instance (obj size : ℕ) : Decidable (s.Owns obj size) :=
  inferInstanceAs (Decidable (∃ len ∈ s.live obj, _))

instance (obj a : ℕ) : Decidable (s.Within obj a) :=
  inferInstanceAs (Decidable (∃ len ∈ s.live obj, ∃ k ∈ bucket len, _))

def next' : State → Event → Option State
  | s, .malloc len descPage page => (s.malloc len descPage page).map Prod.fst
  | s, .freeS obj size => if s.Owns obj size then s.freeS obj size else none
  | s, .write obj a v =>
    if s.Within obj a then some { s with mem := Function.update s.mem a v } else none

end State

/-- Before the first call. -/
def initial : State where
  chain _ := none
  freeBucketDesc := none
  page _ := 0
  next _ := none
  freeptr _ := none
  refcnt _ := 0
  bucketSize _ := 0
  mem _ := none
  held _ := false
  descPages := []
  live _ := none

def kmalloc : System State Event where
  init s := s = initial
  step s e s' := s.next' e = some s'

end Linux011.Kmalloc
