import Zhenxiang.Paging.RamBoot

/-! What programs reach through the page tables. -/
namespace Zhenxiang.Paging
open Lib Kernel

variable {M : Machine} {s : Ram} {t : VM} {dir : Nat → Nat}

theorem Mine.split {p v : Nat} (mine : Mine p v) : Mine p (v / pgSize * pgSize + v % pgSize) := by
  rwa [page_split]

end Zhenxiang.Paging
