import Zhenxiang.Lib.Bytes

/-! Two-level paging of a 32-bit processor with frames of 4096 bytes, read off physical memory, and the window
through which a page directory that is its own last page table shows all its page tables. -/
namespace Zhenxiang.Lib

/-- The frame an address lies in, or an entry points to. -/
def frameOf (w : Nat) : Nat := w / 4096 * 4096

/-- The kernel reads and writes what is present, a user program what all three low flags (present, writable,
user) let it. -/
inductive Access where
  | supervisor
  | user
  deriving DecidableEq, Repr

def Access.admits : Access → Nat → Bool
  | .supervisor, w => w % 2 == 1
  | .user, w => w % 8 == 7

def dirEntry (m : Buf) (dir v : Nat) : Nat := word m (dir + 4 * (v / 2 ^ 22))

def pageEntry (m : Buf) (dir v : Nat) : Nat := word m (frameOf (dirEntry m dir v) + 4 * (v / 2 ^ 12 % 2 ^ 10))

/-- The physical address of the virtual address v under the page directory at dir. -/
def pageWalk (x : Access) (m : Buf) (dir v : Nat) : Option Nat :=
  if x.admits (dirEntry m dir v) = true ∧ x.admits (pageEntry m dir v) = true then
    some (frameOf (pageEntry m dir v) + v % 4096)
  else none

variable {x : Access} {m r : Buf} {dir v a b f i j o n : Nat}

theorem Access.admits_supervisor {w : Nat} : Access.supervisor.admits w = true ↔ w % 2 = 1 := by
  simp [Access.admits]

theorem Access.admits_user {w : Nat} : Access.user.admits w = true ↔ w % 8 = 7 := by
  simp [Access.admits]

/-! The page directory is the page table of the last four megabytes. -/

theorem frameOf_add (aligned : f % 4096 = 0) (low : o < 4096) : frameOf (f + o) = f := by
  unfold frameOf
  omega

theorem frameOf_mod (w : Nat) : frameOf w % 4096 = 0 := Nat.mul_mod_left _ _

/-- A page directory whose last entry points to itself. -/
structure SelfMapped (m : Buf) (dir : Nat) : Prop where
  aligned : dir % 4096 = 0
  last : word m (dir + 4 * 1023) = dir + 7

theorem SelfMapped.dirEntry (self : SelfMapped m dir) (hi : i < 1024) (ho : o < 4096) :
    dirEntry m dir (0xffc00000 + i * 4096 + o) = dir + 7 := by
  have last : (0xffc00000 + i * 4096 + o) / 2 ^ 22 = 1023 := by omega
  rw [Lib.dirEntry, last, self.last]

theorem SelfMapped.pageEntry (self : SelfMapped m dir) (hi : i < 1024) (ho : o < 4096) :
    pageEntry m dir (0xffc00000 + i * 4096 + o) = word m (dir + 4 * i) := by
  have idx : (0xffc00000 + i * 4096 + o) / 2 ^ 12 % 2 ^ 10 = i := by omega
  rw [Lib.pageEntry, self.dirEntry hi ho, frameOf_add self.aligned (by decide), idx]

/-- The page i of the window is the page table of the directory entry i. -/
theorem SelfMapped.window (self : SelfMapped m dir) (hi : i < 1024) (ho : o < 4096) :
    pageWalk x m dir (0xffc00000 + i * 4096 + o) =
      if x.admits (word m (dir + 4 * i)) = true then some (frameOf (word m (dir + 4 * i)) + o) else none := by
  have aligned := self.aligned
  have admitted : x.admits (dir + 7) = true := by
    cases x
    · exact Access.admits_supervisor.2 (by omega)
    · exact Access.admits_user.2 (by omega)
  have off : (0xffc00000 + i * 4096 + o) % 4096 = o := by omega
  simp only [pageWalk, self.dirEntry hi ho, self.pageEntry hi ho, admitted, true_and, off]

/-- Its last page is the page directory. -/
theorem SelfMapped.last_page (self : SelfMapped m dir) (ho : o < 4096) :
    pageWalk x m dir (0xfffff000 + o) = some (dir + o) := by
  have window := self.window (x := x) (i := 1023) (by decide) ho
  have aligned := self.aligned
  rw [show 0xffc00000 + 1023 * 4096 + o = 0xfffff000 + o by omega, self.last] at window
  rw [window, frameOf_add aligned (by decide), if_pos]
  cases x
  · exact Access.admits_supervisor.2 (by omega)
  · exact Access.admits_user.2 (by omega)

/-! Memory written byte by byte. -/

theorem blit_none (m src : Buf) (o : Nat) : blit m o 0 src = m :=
  funext fun _ => blit_of_not_mem (by omega)

theorem blit_next (m src : Buf) (o n : Nat) : Function.update (blit m o n src) (o + n) (src n) = blit m o (n + 1) src := by
  funext a
  by_cases last : a = o + n
  · rw [last, Function.update_self, blit_of_mem (by omega) (by omega), Nat.add_sub_cancel_left]
  · rw [Function.update_of_ne last]
    by_cases low : o ≤ a ∧ a < o + n
    · rw [blit_of_mem low.1 low.2, blit_of_mem low.1 (by omega)]
    · rw [blit_of_not_mem (by omega), blit_of_not_mem (by omega)]

/-! Memory that differs within one frame only. -/

def SameBut (f : Nat) (m r : Buf) : Prop := ∀ a, frameOf a ≠ f → r a = m a

theorem SameBut.refl : SameBut f m m := fun _ _ => rfl

theorem SameBut.trans {q : Buf} (h : SameBut f m r) (k : SameBut f r q) : SameBut f m q :=
  fun a out => (k a out).trans (h a out)

theorem sameBut_blit (aligned : f % 4096 = 0) (low : o + n ≤ 4096) : SameBut f m (blit m (f + o) n r) := by
  intro a out
  refine blit_of_not_mem ?_
  unfold frameOf at out
  omega

theorem SameBut.word (same : SameBut f m r) (aligned : b % 4096 = 0) (other : b ≠ f) (low : o + 4 ≤ 4096) :
    word r (b + o) = word m (b + o) := by
  refine word_congr fun k hk => same _ ?_
  rw [Nat.add_assoc, frameOf_add aligned (by omega)]
  exact other

end Zhenxiang.Lib
