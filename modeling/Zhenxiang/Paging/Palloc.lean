import Zhenxiang.Paging.Pages

/-! palloc in the hands of any number of threads: bitmap_scan and bitmap_set are two steps, and
the lock of a pool is taken by the functions that call palloc. A thread that finds a lock
taken does not go on; the timer may come between any two steps. -/
namespace Zhenxiang.Paging
open Lib

/-- A call of memory.c that takes or gives back frames. get_kernel_pages, get_user_pages and
sys_malloc are malloc_page under the lock of the pool, and sys_free is mfree_page under it. -/
inductive Request where
  | mallocPage (pf : PoolFlags) (pgCnt : Nat)
  | getAPage (pf : PoolFlags)
  | getAPageWithoutOpvaddrbitmap (pf : PoolFlags)
  | mfreePage (pf : PoolFlags) (pgCnt : Nat)
  deriving DecidableEq

/-- The pool whose lock is taken. -/
def Request.pool : Request → PoolFlags
  | .mallocPage pf _ | .getAPage pf | .getAPageWithoutOpvaddrbitmap pf | .mfreePage pf _ => pf

/-- Where a thread goes on; left counts the pages still to be done. -/
inductive PallocPc where
  | out
  | acquire (r : Request)
  | scan (r : Request) (left : Nat)
  | set (r : Request) (left bitIdx : Nat)
  | map (r : Request) (left : Nat)
  | scanTable (r : Request) (left : Nat)
  | setTable (r : Request) (left bitIdx : Nat)
  | pfree (r : Request) (left : Nat)
  | release (r : Request)
  deriving DecidableEq

/-- The bitmaps and locks of the two pools. The frames palloc has returned and pfree has not
been given are in the list given, which no function reads. -/
structure Pools where
  bits : PoolFlags → Nat → Bool
  holder : PoolFlags → Option Nat
  holderRepeatNr : PoolFlags → Nat
  pc : Nat → PallocPc
  given : PoolFlags → List Nat

/-- What a step may find or choose: the next call of the thread, whether vaddr_get finds the
pages, whether the directory entry of a page is present, and the next frame to give back. -/
structure Choice where
  request : Request
  vaddr : Bool
  present : Bool
  frame : Nat

/-- bitmap_scan for one bit. -/
def scanOne (bits : Nat → Bool) (len : Nat) : Option Nat := (List.range len).find? fun i => !bits i

namespace Pools

def goto (s : Pools) (t : Nat) (p : PallocPc) : Pools := { s with pc := Function.update s.pc t p }

def lock (s : Pools) (pf : PoolFlags) (holder : Option Nat) (nr : Nat) : Pools :=
  { s with
    holder := Function.update s.holder pf holder
    holderRepeatNr := Function.update s.holderRepeatNr pf nr }

/-- bitmap_set to 1, and the frame is returned. -/
def give (s : Pools) (pf : PoolFlags) (bitIdx : Nat) : Pools :=
  { s with
    bits := Function.update s.bits pf (Function.update (s.bits pf) bitIdx true)
    given := Function.update s.given pf (bitIdx :: s.given pf) }

/-- pfree. -/
def take (s : Pools) (pf : PoolFlags) (bitIdx : Nat) : Pools :=
  { s with
    bits := Function.update s.bits pf (Function.update (s.bits pf) bitIdx false)
    given := Function.update s.given pf ((s.given pf).erase bitIdx) }

/-- Behind lock_acquire. -/
def enter (vaddr : Bool) : Request → PallocPc
  | .mallocPage pf pgCnt => if vaddr then .scan (.mallocPage pf pgCnt) pgCnt else .release (.mallocPage pf pgCnt)
  | .mfreePage pf pgCnt => .pfree (.mfreePage pf pgCnt) pgCnt
  | r => .scan r 1

/-- When palloc returns NULL; get_a_page returns without lock_release. -/
def failed : Request → PallocPc
  | .getAPage _ => .out
  | r => .release r

variable (len : PoolFlags → Nat)

/-- The next step of a thread. The page tables of the kernel's half are there from the start;
page_table_add takes a frame for a missing one from the kernel pool. -/
def advance (s : Pools) (t : Nat) (c : Choice) : Option Pools :=
  match s.pc t with
  | .out => some (s.goto t (.acquire c.request))
  | .acquire r =>
    if s.holder r.pool = none then
      some ((s.lock r.pool (some t) 1).goto t (enter c.vaddr r))
    else if s.holder r.pool = some t then
      some ((s.lock r.pool (some t) (s.holderRepeatNr r.pool + 1)).goto t (enter c.vaddr r))
    else
      none
  | .scan r 0 => some (s.goto t (.release r))
  | .scan r (left + 1) =>
    match scanOne (s.bits r.pool) (len r.pool) with
    | none => some (s.goto t (failed r))
    | some bitIdx => some (s.goto t (.set r left bitIdx))
  | .set r left bitIdx => some ((s.give r.pool bitIdx).goto t (.map r left))
  | .map r left =>
    if r.pool = .user ∧ c.present = false then
      some (s.goto t (.scanTable r left))
    else
      some (s.goto t (.scan r left))
  | .scanTable r left =>
    match scanOne (s.bits .kernel) (len .kernel) with
    | none => some (s.goto t (.scan r left))
    | some bitIdx => some (s.goto t (.setTable r left bitIdx))
  | .setTable r left bitIdx => some ((s.give .kernel bitIdx).goto t (.scan r left))
  | .pfree r 0 => some (s.goto t (.release r))
  | .pfree r (left + 1) =>
    if c.frame ∈ s.given r.pool then
      some ((s.take r.pool c.frame).goto t (.pfree r left))
    else
      none
  | .release r =>
    if 1 < s.holderRepeatNr r.pool then
      some ((s.lock r.pool (some t) (s.holderRepeatNr r.pool - 1)).goto t .out)
    else
      some ((s.lock r.pool none 0).goto t .out)

end Pools

/-- Both pools empty, nobody in memory.c. -/
def poolsStart : Pools := ⟨fun _ _ => false, fun _ => none, fun _ => 0, fun _ => .out, fun _ => []⟩

variable (len : PoolFlags → Nat)

def PoolsStep (s t : Pools) : Prop := ∃ task c, s.advance len task c = some t

/-- No frame of a pool is returned twice without having been given back. -/
def FramesUnique (s : Pools) : Prop := ∀ pf, (s.given pf).Nodup

/-- The thread is between bitmap_scan and bitmap_set on that pool. -/
def PallocPc.Between (pf : PoolFlags) : PallocPc → Prop
  | .set r _ _ => r.pool = pf
  | .setTable _ _ _ => pf = .kernel
  | _ => False

/-- The same, in page_table_add. -/
def PallocPc.BetweenTable : PallocPc → Prop
  | .setTable _ _ _ => True
  | _ => False

/-- Of two scans of the kernel pool that are under way at once, neither is for a page table. -/
def PallocCareful (s : Pools) (task : Nat) : Prop :=
  match s.pc task with
  | .scan r (_ + 1) => r.pool = .kernel → ∀ u, ¬ (s.pc u).BetweenTable
  | .scanTable _ _ => ∀ u, ¬ (s.pc u).Between .kernel
  | _ => True

def CarefulPoolsStep (s t : Pools) : Prop := ∃ task c, PallocCareful s task ∧ s.advance len task c = some t

end Zhenxiang.Paging
