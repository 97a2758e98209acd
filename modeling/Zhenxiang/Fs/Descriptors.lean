import Zhenxiang.Fs.DirOpen
import Zhenxiang.Fs.CallBooks

/-! What the calls on descriptors do with numbers that are no descriptor of the task. -/
namespace Zhenxiang.Fs
open Lib Kernel

/-- sys_read with the address of the buffer, which is asserted before the descriptor is looked up. -/
def sysReadTo (fd : Int) (buf : UInt32) (count : Nat) : Sys (Int × List UInt8) := do
  if fd < 0 then
    pure (-1, [])
  else
    assert (buf ≠ 0)
    sysRead fd count

/-- The values of enum whence. -/
def Whence.ofByte (whence : UInt8) : Whence :=
  if whence = 1 then .seekSet else if whence = 2 then .seekCur else .seekEnd

/-- sys_lseek with any byte for whence. -/
def sysLseekBy (fd offset : Int) (whence : UInt8) : Sys Int := do
  if fd < 0 then
    pure (-1)
  else
    assert (0 < whence ∧ whence < 4)
    sysLseek fd offset (.ofByte whence)

/-- fd is no descriptor of the running task: out of range, closed, or of an emptied slot. -/
def InvalidFd (s : FileSys) (fd : Int) : Prop :=
  fd < 0 ∨ maxFilesOpenPerProc ≤ fd ∨ s.fdTable s.current fd.toNat = -1 ∨
    ∃ g < maxFileOpen, s.fdTable s.current fd.toNat = (g : Int) ∧ (s.fileTable g).fdInode = none

/-- The call comes back with this answer and has changed nothing. -/
def Rejects {α : Type} (c : Sys α) (answer : α) (s : FileSys) : Prop :=
  Succeeds c (fun r t => r = answer ∧ t = s) s

/-- The descriptor fd with its slot g is closed, and the inode of the slot has one reference less. -/
structure Released (s t : FileSys) (fd : Int) (g : Nat) : Prop where
  global : Global s fd g
  fdTable : t.fdTable = (s.setFd fd.toNat (-1)).fdTable
  fileTable : t.fileTable = Function.update s.fileTable g { s.fileTable g with fdInode := none }
  others : ∀ p, (s.fileTable g).fdInode ≠ some p →
    t.inode p = s.inode p ∧ (p ∈ t.openInodes ↔ p ∈ s.openInodes)
  disk : t.disk = s.disk ∧ t.blockBitmap = s.blockBitmap ∧ t.inodeBitmap = s.inodeBitmap

variable (P : Partition)

/-- What the calls on fd should do, whatever their other arguments are. -/
structure DescriptorSafe (s : FileSys) (fd : Int) : Prop where
  read : InvalidFd s fd → ∀ buf count, Rejects (sysReadTo fd buf count) (-1, []) s
  lseek : InvalidFd s fd → ∀ offset whence, Rejects (sysLseekBy fd offset whence) (-1) s
  close : InvalidFd s fd → Rejects (sysClose fd) (-1) s
  write : InvalidFd s fd → fd ≠ 1 → ∀ buf count, Rejects (sysWrite P fd buf count) (-1) s
  closed : ¬ InvalidFd s fd → Succeeds (sysClose fd) (fun r t => r = 0 ∧ ∃ g, Released s t fd g) s

/-- fd is above the standard descriptors and of a slot whose inode is open, and in the kernel's heap
if this is the last reference to it. -/
def GoodFd (s : FileSys) (fd : Int) : Prop :=
  2 < fd ∧ ∃ g o, Global s fd g ∧ (s.fileTable g).fdInode = some o ∧ o ∈ s.openInodes ∧
    (decr (s.inode o).iOpenCnts = 0 → o ∈ s.live ∧ s.owner o = none)

section
variable {s : FileSys} {fd : Int} {o : Nat}

theorem Global.nonneg {g : Nat} (h : Global s fd g) : 0 ≤ s.fdTable s.current fd.toNat := by
  rw [h.entry]
  exact Int.natCast_nonneg g

theorem GoodFd.valid (h : GoodFd s fd) : ¬ InvalidFd s fd := by
  obtain ⟨high, g, o, global, used, -, -⟩ := h
  have entry := global.entry
  rintro (neg | out | closed | ⟨k, hk, other, empty⟩)
  · omega
  · have := global.localFd
    omega
  · omega
  · rw [entry, Int.natCast_inj] at other
    rw [← other, used] at empty
    cases empty

theorem succeeds_fdLocal2global {Q : Nat → FileSys → Prop} :
    Succeeds (fdLocal2global fd.toNat) Q s ↔ ∃ g, Global s fd g ∧ Q g s := by
  simp only [Succeeds, fdLocal2global, wp_bind, wp_check, wp_get, wp_assert, wp_pure]
  constructor
  · rintro ⟨inside, low⟩
    have low : fd.toNat < maxFilesOpenPerProc := not_not.mp low
    obtain ⟨hq, range⟩ := inside low
    have range := not_not.mp range
    exact ⟨_, ⟨low, (Int.toNat_of_nonneg range.1).symm, (Int.toNat_lt range.1).2 range.2⟩, hq range⟩
  · rintro ⟨g, global, hq⟩
    have range : 0 ≤ s.fdTable s.current fd.toNat ∧ s.fdTable s.current fd.toNat < maxFileOpen := by
      rw [global.entry]
      exact ⟨Int.natCast_nonneg g, Int.ofNat_lt.2 global.high⟩
    have slot : (s.fdTable s.current fd.toNat).toNat = g := by rw [global.entry, Int.toNat_natCast]
    rw [slot]
    exact ⟨fun _ => ⟨fun _ => hq, fun out => out range⟩, fun out => out global.localFd⟩

theorem succeeds_fdInode {f : File} {Q : Nat → FileSys → Prop} :
    Succeeds (fdInode f) Q s ↔ ∃ o, f.fdInode = some o ∧ o ∈ s.openInodes ∧ Q o s := by
  unfold fdInode
  cases used : f.fdInode with
  | none => simp [Succeeds]
  | some o =>
    simp only [Succeeds, wp_bind, wp_get, wp_check, wp_pure]
    constructor
    · rintro ⟨hq, out⟩
      exact ⟨o, rfl, not_not.mp out, hq (not_not.mp out)⟩
    · rintro ⟨p, same, mem, hq⟩
      obtain rfl := Option.some.inj same
      exact ⟨fun _ => hq, fun out => out mem⟩

theorem succeeds_kernelFree {Q : PUnit → FileSys → Prop} {p : Nat} :
    Succeeds (kernelFree (some p)) Q s ↔ p ∈ s.live ∧ s.owner p = none ∧ Q ⟨⟩ (s.free p) := by
  constructor
  · intro h
    simp only [Succeeds, kernelFree, setPgdir, sysFree, wp_bind, wp_get, wp_modify, wp_check, Function.update_self,
      if_true, wp_set] at h
    obtain ⟨live, dead⟩ := h
    have mem : p ∈ s.live := not_not.mp dead
    obtain ⟨kernel, user⟩ := live mem
    refine ⟨mem, not_not.mp user, ?_⟩
    have done := kernel (not_not.mp user)
    simpa only [FileSys.free, Function.update_idem, Function.update_eq_self] using done
  · rintro ⟨live, kernel, hq⟩
    exact wp_freeKernel live kernel hq

/-- What inode_close needs. -/
def ClosesInode (s : FileSys) (o : Nat) : Prop :=
  o ∈ s.openInodes ∧ (decr (s.inode o).iOpenCnts = 0 → o ∈ s.live ∧ s.owner o = none)

theorem ClosesInode.of_succeeds {Q : Unit → FileSys → Prop} (h : Succeeds (inodeClose o) Q s) : ClosesInode s o := by
  rw [Succeeds, inodeClose, wp_bind, wp_get, wp_bind, wp_check] at h
  have mem : o ∈ s.openInodes := not_not.mp h.2
  refine ⟨mem, fun last => ?_⟩
  have closing := h.1 mem
  rw [modifyInode, wp_bind, wp_modify, wp_bind, wp_get, FileSys.setInode_self, if_pos last, wp_bind, wp_modify] at closing
  obtain ⟨live, kernel, -⟩ := succeeds_kernelFree.mp closing
  exact ⟨live, kernel⟩

theorem GoodFd.of_succeeds {Q : FileSys → Prop} (h : Succeeds (sysClose fd) (fun r t => r = 0 ∧ Q t) s) : GoodFd s fd := by
  rw [Succeeds, sysClose, wp_ite] at h
  obtain ⟨close, low⟩ := h
  have high : 2 < fd := by
    by_contra no
    exact absurd ((wp_pure _).mp (low no)).1 (by decide : ¬ (-1 : Int) = 0)
  have closing := close high
  rw [wp_bind] at closing
  obtain ⟨g, global, slot⟩ := succeeds_fdLocal2global.mp closing
  rw [fileClose, wp_bind, wp_bind, wp_get, wp_bind] at slot
  obtain ⟨o, used, mem, rest⟩ := succeeds_fdInode.mp slot
  rw [modifyInode, wp_bind, wp_modify, wp_bind] at rest
  have needs := (ClosesInode.of_succeeds rest).2
  rw [FileSys.setInode_self] at needs
  exact ⟨high, g, o, global, used, mem, needs⟩

/-- What inode_close leaves alone. -/
structure ClosedInode (s t : FileSys) (o : Nat) : Prop where
  fileTable : t.fileTable = s.fileTable
  fdTable : t.fdTable = s.fdTable
  current : t.current = s.current
  others : ∀ p, p ≠ o → t.inode p = s.inode p ∧ (p ∈ t.openInodes ↔ p ∈ s.openInodes)
  disk : t.disk = s.disk ∧ t.blockBitmap = s.blockBitmap ∧ t.inodeBitmap = s.inodeBitmap

theorem inodeClose_closed (h : ClosesInode s o) : Succeeds (inodeClose o) (fun _ t => ClosedInode s t o) s := by
  obtain ⟨mem, last⟩ := h
  by_cases zero : decr (s.inode o).iOpenCnts = 0
  · obtain ⟨live, kernel⟩ := last zero
    exact wp_inodeClose_last mem zero live kernel ⟨rfl, rfl, rfl, fun p hp =>
      ⟨FileSys.setInode_of_ne s _ hp, List.mem_erase_of_ne hp⟩, rfl, rfl, rfl⟩
  · exact wp_inodeClose_kept mem zero ⟨rfl, rfl, rfl, fun p hp => ⟨FileSys.setInode_of_ne s _ hp, Iff.rfl⟩, rfl, rfl, rfl⟩

theorem GoodFd.closed (h : GoodFd s fd) : Succeeds (sysClose fd) (fun r t => r = 0 ∧ ∃ g, Released s t fd g) s := by
  obtain ⟨high, g, o, global, used, mem, last⟩ := h
  let s' := s.setInode o { s.inode o with writeDeny := false }
  have closes : ClosesInode s' o := ⟨mem, by rw [FileSys.setInode_self]; exact last⟩
  rw [Succeeds, sysClose, if_pos high, wp_bind]
  refine succeeds_fdLocal2global.mpr ⟨g, global, ?_⟩
  rw [fileClose, wp_bind, wp_bind, wp_get, wp_bind]
  refine succeeds_fdInode.mpr ⟨o, used, mem, ?_⟩
  rw [modifyInode, wp_bind, wp_modify, wp_bind]
  refine wp_post (inodeClose_closed closes) fun _ t ht => ?_
  rw [setFile, wp_bind, wp_modify, wp_pure, wp_bind, wp_modify, wp_pure]
  refine ⟨rfl, g, global, ?_, ?_, fun p hp => ?_, ht.disk⟩
  · simp only [FileSys.setFd, FileSys.setSlot, ht.fdTable, ht.current]
    rfl
  · simp only [FileSys.setFd, FileSys.setSlot, ht.fileTable]
    rfl
  · have ne : p ≠ o := fun eq => hp (by rw [used, eq])
    obtain ⟨same, opened⟩ := ht.others p ne
    exact ⟨same.trans (FileSys.setInode_of_ne s _ ne), opened⟩

/-- A number that is not negative is looked up before it is found to be no descriptor. -/
theorem sysReadTo_invalid (h : InvalidFd s fd) (nonneg : ¬ fd < 0) : ¬ Rejects (sysReadTo fd 1 0) (-1, []) s := by
  intro rejects
  rw [Rejects, Succeeds, sysReadTo, if_neg nonneg, wp_bind, wp_assert, sysRead, if_neg nonneg, wp_bind] at rejects
  obtain ⟨g, global, reads⟩ := succeeds_fdLocal2global.mp (rejects.1 (by decide))
  rw [fileRead, wp_bind, wp_get, wp_bind] at reads
  obtain ⟨o, used, -, -⟩ := succeeds_fdInode.mp reads
  have entry := global.entry
  rcases h with neg | out | closed | ⟨k, hk, other, empty⟩
  · exact nonneg neg
  · have := global.localFd
    omega
  · omega
  · rw [entry, Int.natCast_inj] at other
    rw [← other, used] at empty
    cases empty

theorem negative_safe (neg : fd < 0) : DescriptorSafe P s fd := by
  have low : ¬ 2 < fd := by omega
  constructor
  · intro _ buf count
    simp [Rejects, Succeeds, sysReadTo, if_pos neg]
  · intro _ offset whence
    simp [Rejects, Succeeds, sysLseekBy, if_pos neg]
  · intro _
    simp [Rejects, Succeeds, sysClose, if_neg low]
  · intro _ _ buf count
    simp [Rejects, Succeeds, sysWrite, if_pos neg]
  · exact fun valid => absurd (.inl neg) valid

/-- Of the numbers that are no descriptors only the negative ones are rejected; fd_local2global looks
up the others, and asserts or uses what it finds. -/
theorem descriptorSafe_iff (s : FileSys) (fd : Int) : DescriptorSafe P s fd ↔ fd < 0 ∨ GoodFd s fd := by
  constructor
  · intro h
    by_cases neg : fd < 0
    · exact .inl neg
    · by_cases invalid : InvalidFd s fd
      · exact absurd (h.read invalid 1 0) (sysReadTo_invalid invalid neg)
      · exact .inr (GoodFd.of_succeeds (h.closed invalid))
  · rintro (neg | good)
    · exact negative_safe P neg
    · have valid := good.valid
      exact ⟨fun no => absurd no valid, fun no => absurd no valid, fun no => absurd no valid, fun no => absurd no valid,
        fun _ => good.closed⟩

end

/-- A main thread that has opened nothing. -/
def noFiles : FileSys := booting (fun _ => 0) (fun _ => none) fun _ => 1

/-- The entry 3 is -1; sys_read fails the ASSERT of fd_local2global. -/
theorem descriptorSafe_closed_fails : ¬ DescriptorSafe ⟨1, 700, false⟩ noFiles 3 := by
  intro h
  have invalid : InvalidFd noFiles 3 := .inr (.inr (.inl rfl))
  exact sysReadTo_invalid invalid (by decide) (h.read invalid 1 0)

end Zhenxiang.Fs
