import Zhenxiang.Fs.Syscall

/-! What the functions that work on the disk, the bitmaps and the contents of inodes leave
alone in memory. Their buffers are in their hands, and are all given back on the way out. -/
namespace Zhenxiang.Fs
open Lib Kernel

/-- What an inode may become where nothing is taken away from files. -/
class Grows (K : Inode → Inode → Prop) : Prop extends IsTrans Inode K where
  grow : ∀ i j, j.iNo = i.iNo → j.writeDeny = i.writeDeny → i.iSize ≤ j.iSize → K i j

/-- What an inode may become where entries are taken out of directories. -/
class Shrinks (K : Inode → Inode → Prop) : Prop extends Grows K where
  shrink : ∀ i j, j.iNo = i.iNo → j.writeDeny = i.writeDeny → K i j

/-- Nothing in memory has changed but the disk's bitmaps, the sectors and sizes of inodes,
and blocks of the heap that were not there before. -/
structure Same (K : Inode → Inode → Prop) (s t : FileSys) : Prop where
  inode : ∀ o, K (s.inode o) (t.inode o)
  counts : ∀ o, (t.inode o).iOpenCnts = (s.inode o).iOpenCnts
  openInodes : t.openInodes = s.openInodes
  rootInode : t.rootInode = s.rootInode
  dirInode : t.dirInode = s.dirInode
  fileTable : t.fileTable = s.fileTable
  fdTable : t.fdTable = s.fdTable
  cwdInodeNr : t.cwdInodeNr = s.cwdInodeNr
  pgdir : t.pgdir = s.pgdir
  current : t.current = s.current
  handles : t.handles = s.handles
  nextBlock : s.nextBlock ≤ t.nextBlock
  owner : ∀ p < s.nextBlock, t.owner p = s.owner p

/-- The buffers in hand, newest first, on top of the blocks that were there before. -/
structure InHand (bufs base : List Nat) (s : FileSys) : Prop where
  live : s.live = bufs ++ base
  nodup : s.live.Nodup
  below : ∀ p ∈ s.live, p < s.nextBlock
  mine : ∀ p ∈ bufs, s.owner p = s.pgdir s.current

/-- The computation gives back the buffers in hand and those it gets itself, and changes
nothing else. -/
def Quiet (K : Inode → Inode → Prop) (bufs : List Nat) {α : Type} (c : Sys α) : Prop :=
  ∀ base s, InHand bufs base s →
    wp c (fun _ t => Same K s t ∧ t.live = base) (· ≠ .heapAssertion) s

variable {α β : Type} {K : Inode → Inode → Prop} {bufs base : List Nat} {s t u : FileSys}

theorem Same.refl [Grows K] (s : FileSys) : Same K s s :=
  ⟨fun _ => Grows.grow _ _ rfl rfl (Nat.le_refl _), fun _ => rfl, rfl, rfl, rfl, rfl, rfl, rfl,
    rfl, rfl, rfl, Nat.le_refl _, fun _ _ => rfl⟩

theorem Same.trans [Grows K] (h : Same K s t) (k : Same K t u) : Same K s u where
  inode o := trans_of K (h.inode o) (k.inode o)
  counts o := (k.counts o).trans (h.counts o)
  openInodes := k.openInodes.trans h.openInodes
  rootInode := k.rootInode.trans h.rootInode
  dirInode := k.dirInode.trans h.dirInode
  fileTable := k.fileTable.trans h.fileTable
  fdTable := k.fdTable.trans h.fdTable
  cwdInodeNr := k.cwdInodeNr.trans h.cwdInodeNr
  pgdir := k.pgdir.trans h.pgdir
  current := k.current.trans h.current
  handles := k.handles.trans h.handles
  nextBlock := h.nextBlock.trans k.nextBlock
  owner p hp := (k.owner p (hp.trans_le h.nextBlock)).trans (h.owner p hp)

/-- A change of the disk, the bitmaps or the oracle. -/
theorem Same.of_disk [Grows K] (h : ∃ disk blocks inodes oracle,
    t = { s with disk := disk, blockBitmap := blocks, inodeBitmap := inodes, oracle := oracle }) :
    Same K s t := by
  obtain ⟨_, _, _, _, rfl⟩ := h
  exact ⟨fun _ => Grows.grow _ _ rfl rfl (Nat.le_refl _), fun _ => rfl, rfl, rfl, rfl, rfl, rfl,
    rfl, rfl, rfl, rfl, Nat.le_refl _, fun _ _ => rfl⟩

/-- A change of one inode's contents. -/
theorem Same.setInode [Grows K] {o : Nat} {i : Inode} (h : K (s.inode o) i)
    (cnts : i.iOpenCnts = (s.inode o).iOpenCnts) : Same K s (s.setInode o i) := by
  refine ⟨fun p => ?_, fun p => ?_, rfl, rfl, rfl, rfl, rfl, rfl, rfl, rfl, rfl, Nat.le_refl _,
    fun _ _ => rfl⟩
  · by_cases hp : p = o
    · subst hp
      rw [FileSys.setInode_self]
      exact h
    · rw [FileSys.setInode_of_ne s i hp]
      exact (Same.refl s).inode p
  · by_cases hp : p = o
    · subst hp
      rw [FileSys.setInode_self]
      exact cnts
    · rw [FileSys.setInode_of_ne s i hp]

/-- What is in hand before a quiet step is in hand after it. -/
theorem InHand.same (h : InHand bufs base s) (k : Same K s t) (live : t.live = bufs ++ base) :
    InHand bufs base t where
  live := live
  nodup := live ▸ h.live ▸ h.nodup
  below p hp := (h.below p (h.live ▸ live ▸ hp)).trans_le k.nextBlock
  mine p hp := by
    have hlive : p ∈ s.live := h.live ▸ List.mem_append_left _ hp
    rw [k.owner p (h.below p hlive), k.pgdir, k.current]
    exact h.mine p hp

/-- Nothing in hand: all the blocks are somebody else's. -/
theorem InHand.nil (nodup : s.live.Nodup) (below : ∀ p ∈ s.live, p < s.nextBlock) :
    InHand [] s.live s :=
  ⟨rfl, nodup, below, by simp⟩

/-- What sysMalloc answers and leaves behind. -/
theorem sysMalloc_spec (s : FileSys) (E : Fault → Prop) : wp sysMalloc (fun r t =>
    (r = none ∧ t = { s with oracle := t.oracle }) ∨
    (r = some s.nextBlock ∧ s.live.length < 2 ^ 28 ∧ t = { s with
      oracle := t.oracle
      nextBlock := s.nextBlock + 1
      live := s.nextBlock :: s.live
      owner := Function.update s.owner s.nextBlock (s.pgdir s.current) })) E s := by
  simp only [sysMalloc, ask, wp_bind, wp_get, wp_set, wp_ite, wp_pure]
  refine ⟨fun _ => Or.inl ⟨trivial, trivial⟩, fun h => Or.inr ⟨trivial, ?_, trivial⟩⟩
  exact Nat.lt_of_not_le fun hle => h (Or.inr hle)

/-- A new block, on top of those in hand. -/
theorem InHand.malloc (h : InHand bufs base s) (ht : t = { s with
      oracle := t.oracle
      nextBlock := s.nextBlock + 1
      live := s.nextBlock :: s.live
      owner := Function.update s.owner s.nextBlock (s.pgdir s.current) }) :
    InHand (s.nextBlock :: bufs) base t := by
  have fresh : s.nextBlock ∉ s.live := fun hp => Nat.lt_irrefl _ (h.below _ hp)
  rw [ht]
  refine ⟨?_, ?_, fun p hp => ?_, fun p hp => ?_⟩
  · simp only [h.live, List.cons_append]
  · exact List.nodup_cons.2 ⟨fresh, h.nodup⟩
  · rcases List.mem_cons.1 hp with rfl | hp
    · exact Nat.lt_succ_self _
    · exact Nat.lt_succ_of_lt (h.below p hp)
  · rcases List.mem_cons.1 hp with rfl | hp
    · exact Function.update_self ..
    · have hlive : p ∈ s.live := h.live ▸ List.mem_append_left _ hp
      have hne : p ≠ s.nextBlock := fun heq => fresh (heq ▸ hlive)
      exact (Function.update_of_ne hne _ _).trans (h.mine p hp)

theorem Same.malloc [Grows K] (ht : t = { s with
      oracle := t.oracle
      nextBlock := s.nextBlock + 1
      live := s.nextBlock :: s.live
      owner := Function.update s.owner s.nextBlock (s.pgdir s.current) }) : Same K s t := by
  rw [ht]
  exact ⟨(Same.refl s).inode, fun _ => rfl, rfl, rfl, rfl, rfl, rfl, rfl, rfl, rfl, rfl,
    Nat.le_succ _, fun p hp => Function.update_of_ne (Nat.ne_of_lt hp) _ _⟩

/-- A block of the running task can be given back. -/
theorem wp_sysFree {p : Nat} {Q : PUnit → FileSys → Prop} {E : Fault → Prop} (live : p ∈ s.live)
    (mine : s.owner p = s.pgdir s.current) :
    wp (sysFree (some p)) Q E s ↔ Q ⟨⟩ (s.free p) := by
  simp only [sysFree, wp_bind, wp_get, wp_check, wp_ite, wp_set, live, mine]
  by_cases h : s.pgdir s.current = none <;> simp [h]

/-! The rules. -/
namespace Quiet

protected theorem pure [Grows K] (a : α) : Quiet K [] (pure a : Sys α) :=
  fun _ s h => (wp_pure _).2 ⟨.refl s, h.live⟩

protected theorem throw {e : Fault} (h : e ≠ .heapAssertion) : Quiet K bufs (throw e : Sys α) :=
  fun _ _ _ => (wp_throw _).2 h

protected theorem bind [Grows K] {c : Sys α} {f : α → Sys β} (h : Quiet K [] c)
    (k : ∀ a, Quiet K bufs (f a)) : Quiet K bufs (c >>= f) := by
  intro base s hs
  rw [wp_bind]
  apply wp_post (h (bufs ++ base) s ⟨by simpa using hs.live, hs.nodup, hs.below, by simp⟩)
  rintro a t ⟨same, live⟩
  apply wp_post (k a base t (hs.same same live))
  rintro b u ⟨same', live'⟩
  exact ⟨same.trans same', live'⟩

protected theorem map [Grows K] {c : Sys α} {f : α → β} (h : Quiet K bufs c) :
    Quiet K bufs (f <$> c) := by
  intro base s hs
  rw [wp_map]
  exact h base s hs

protected theorem get_bind {f : FileSys → Sys α} (h : ∀ s, Quiet K bufs (f s)) :
    Quiet K bufs (get >>= f) :=
  fun base s hs => (wp_bind _ _).2 (wp_get.2 (h s base s hs))

protected theorem check_bind {p : Prop} [Decidable p] {e : Fault} {f : Unit → Sys α}
    (h : e ≠ .heapAssertion) (k : p → Quiet K bufs (f ())) : Quiet K bufs (check p e >>= f) := by
  intro base s hs
  rw [wp_bind, wp_check]
  exact ⟨fun hp => k hp base s hs, fun _ => h⟩

protected theorem assert_bind {p : Prop} [Decidable p] {f : Unit → Sys α}
    (k : p → Quiet K bufs (f ())) : Quiet K bufs (assert p >>= f) :=
  .check_bind (by decide) k

protected theorem modify [Grows K] {f : FileSys → FileSys} (h : ∀ s, Same K s (f s))
    (live : ∀ s, (f s).live = s.live) : Quiet K [] (modify f : Sys PUnit) :=
  fun _ s hs => (wp_modify _).2 ⟨h s, (live s).trans hs.live⟩

protected theorem ite {p : Prop} [Decidable p] {c d : Sys α} (h : p → Quiet K bufs c)
    (k : ¬ p → Quiet K bufs d) : Quiet K bufs (if p then c else d) := by
  split
  · exact h ‹_›
  · exact k ‹_›

protected theorem forRange [Grows K] {n : Nat} {body : Nat → Sys Unit}
    (h : ∀ k, Quiet K [] (body k)) : Quiet K [] (forRange n body) := by
  induction n with
  | zero => exact .pure ()
  | succ n ih => exact .bind ih fun _ => h n

theorem malloc_bind [Grows K] {f : Option Nat → Sys α} (h : Quiet K bufs (f none))
    (k : ∀ p, Quiet K (p :: bufs) (f (some p))) : Quiet K bufs (sysMalloc >>= f) := by
  intro base s hs
  rw [wp_bind]
  apply wp_post (sysMalloc_spec s _)
  rintro r t (⟨rfl, ht⟩ | ⟨rfl, -, ht⟩)
  · have same : Same K s t := .of_disk ⟨_, _, _, _, ht⟩
    have live : t.live = bufs ++ base := by rw [ht]; exact hs.live
    apply wp_post (h base t (hs.same same live))
    rintro a u ⟨same', live'⟩
    exact ⟨same.trans same', live'⟩
  · apply wp_post (k _ base t (hs.malloc ht))
    rintro a u ⟨same', live'⟩
    exact ⟨(Same.malloc ht).trans same', live'⟩

/-- The newest buffer goes back first. -/
theorem free_bind [Grows K] {p : Nat} {f : PUnit → Sys α} (k : Quiet K bufs (f ⟨⟩)) :
    Quiet K (p :: bufs) (sysFree (some p) >>= f) := by
  intro base s hs
  have live : p ∈ s.live := by simp [hs.live]
  rw [wp_bind, wp_sysFree live (hs.mine p List.mem_cons_self)]
  have rest : (s.free p).live = bufs ++ base := by
    rw [FileSys.free, hs.live, List.cons_append, List.erase_cons_head]
  have same : Same K s (s.free p) :=
    ⟨(Same.refl s).inode, fun _ => rfl, rfl, rfl, rfl, rfl, rfl, rfl, rfl, rfl, rfl,
      Nat.le_refl _, fun _ _ => rfl⟩
  have left : InHand bufs base (s.free p) :=
    ⟨rest, hs.nodup.erase p, fun q hq => hs.below q (List.mem_of_mem_erase hq),
      fun q hq => hs.mine q (List.mem_cons_of_mem p hq)⟩
  apply wp_post (k base _ left)
  rintro a u ⟨same', live'⟩
  exact ⟨same.trans same', live'⟩

theorem free [Grows K] (p : Nat) : Quiet K [p] (sysFree (some p)) := by
  have h := free_bind (p := p) (f := pure) (Quiet.pure (K := K) PUnit.unit)
  rwa [bind_pure] at h

end Quiet

variable [Grows K] (P : Partition)

theorem ask_quiet : Quiet K [] ask := by
  intro base s h
  simp only [ask, wp_bind, wp_get, wp_set, wp_pure]
  exact ⟨.of_disk ⟨_, _, _, _, rfl⟩, h.live⟩

theorem ideRead_quiet (lba secCnt : Nat) : Quiet K [] (ideRead lba secCnt) :=
  .assert_bind fun _ => .assert_bind fun _ => .get_bind fun _ => .pure _

theorem ideWrite_quiet (lba : Nat) (buf : Buf) (secCnt : Nat) :
    Quiet K [] (ideWrite lba buf secCnt) :=
  .assert_bind fun _ => .assert_bind fun _ =>
    .modify (fun _ => .of_disk ⟨_, _, _, _, rfl⟩) fun _ => rfl

theorem bitmapScan_quiet (asserts : Bool) (bits : Nat → Bool) (len : Nat) :
    Quiet K [] (bitmapScan asserts bits len) := by
  unfold bitmapScan
  split
  · exact .assert_bind fun _ => .pure _
  · exact .pure _

theorem bitmapSet_quiet (bits : Nat → Bool) (len bitIdx : Nat) (value : Bool) :
    Quiet K [] (bitmapSet bits len bitIdx value) :=
  .check_bind (by decide) fun _ => .pure _

theorem bitmapSync_quiet (bitIdx : Nat) (btmp : BitmapType) :
    Quiet K [] (bitmapSync P bitIdx btmp) := by
  apply Quiet.get_bind
  intro s
  cases btmp
  · exact ideWrite_quiet _ _ _
  · exact ideWrite_quiet _ _ _

theorem setBlockBitmap_quiet (bits : Nat → Bool) :
    Quiet K [] (modify fun s => { s with blockBitmap := bits } : Sys PUnit) :=
  .modify (fun _ => .of_disk ⟨_, _, _, _, rfl⟩) fun _ => rfl

theorem setInodeBitmap_quiet (bits : Nat → Bool) :
    Quiet K [] (modify fun s => { s with inodeBitmap := bits } : Sys PUnit) :=
  .modify (fun _ => .of_disk ⟨_, _, _, _, rfl⟩) fun _ => rfl

theorem inodeBitmapAlloc_quiet : Quiet K [] (inodeBitmapAlloc P) := by
  unfold inodeBitmapAlloc
  generalize 512 * Partition.inodeBitmapSects = len
  refine .get_bind fun s => .bind (bitmapScan_quiet _ _ _) fun r => ?_
  cases r with
  | none => exact .pure _
  | some bitIdx =>
    refine .get_bind fun s => .bind (bitmapSet_quiet _ _ _ _) fun bits => ?_
    exact .bind (setInodeBitmap_quiet bits) fun _ => .pure _

theorem blockBitmapAlloc_quiet : Quiet K [] (blockBitmapAlloc P) := by
  refine .get_bind fun s => .bind (bitmapScan_quiet _ _ _) fun r => ?_
  cases r with
  | none => exact .pure _
  | some bitIdx =>
    refine .get_bind fun s => .bind (bitmapSet_quiet _ _ _ _) fun bits => ?_
    exact .bind (setBlockBitmap_quiet bits) fun _ => .pure _

theorem blockBitmapFree_quiet (lba : Nat) : Quiet K [] (blockBitmapFree P lba) := by
  refine .get_bind fun s => .bind (bitmapSet_quiet _ _ _ _) fun bits => ?_
  exact .bind (setBlockBitmap_quiet bits) fun _ => bitmapSync_quiet P _ _

theorem inodeBitmapClear_quiet (inodeNo : Nat) : Quiet K [] (inodeBitmapClear inodeNo) := by
  refine .get_bind fun s => .bind (bitmapSet_quiet _ _ _ _) fun bits => ?_
  exact setInodeBitmap_quiet bits

theorem inodeLocate_quiet (inodeNo : Nat) : Quiet K [] (inodeLocate P inodeNo) :=
  .assert_bind fun _ => .pure _

theorem writeSlot_quiet (pos : InodePosition) (slot : Buf) (bufSize : Nat) : Quiet K [] (writeSlot P pos slot bufSize) :=
  .assert_bind fun _ => .check_bind (by decide) fun _ => .bind (ideRead_quiet _ _) fun _ => ideWrite_quiet _ _ _

theorem inodeSync_quiet (inode : Inode) (bufSize : Nat) : Quiet K [] (inodeSync P inode bufSize) :=
  .bind (inodeLocate_quiet P _) fun _ => writeSlot_quiet P _ _ _

theorem inodeDelete_quiet (inodeNo bufSize : Nat) : Quiet K [] (inodeDelete P inodeNo bufSize) :=
  .bind (inodeLocate_quiet P _) fun _ => writeSlot_quiet P _ _ _

theorem readTable_quiet (lba : Nat) : Quiet K [] (readTable lba) :=
  .bind (ideRead_quiet _ _) fun _ => .pure _

theorem collectBlocks_quiet (inode : Inode) : Quiet K [] (collectBlocks inode) :=
  .ite (fun _ => .bind (readTable_quiet _) fun _ => .pure _) fun _ => .pure _

theorem releaseBlocks_quiet (inode : Inode) : Quiet K [] (releaseBlocks P inode) := by
  have each : ∀ lba, Quiet K [] (do
      if lba ≠ 0 then
        assert (0 < blockBitmapIdx P lba)
        blockBitmapFree P lba : Sys Unit) := fun lba =>
    .ite (fun _ => .assert_bind fun _ => blockBitmapFree_quiet P lba) fun _ => .pure _
  have blocks : ∀ (n : Nat) (allBlocks : Nat → Nat), Quiet K [] (forRange n fun blockIdx => do
      if allBlocks blockIdx ≠ 0 then
        assert (0 < blockBitmapIdx P (allBlocks blockIdx))
        blockBitmapFree P (allBlocks blockIdx) : Sys Unit) := fun n allBlocks =>
    .forRange fun k => each (allBlocks k)
  refine .bind (collectBlocks_quiet _) fun allBlocks => .ite (fun _ => ?_) fun _ => blocks _ _
  exact .assert_bind fun _ => .bind (blockBitmapFree_quiet P _) fun _ => blocks _ _

theorem releaseNumber_quiet (inodeNo : Nat) : Quiet K [] (releaseNumber P inodeNo) := by
  refine .get_bind fun s => .bind (bitmapSet_quiet _ _ _ _) fun bits => ?_
  refine .bind (setInodeBitmap_quiet bits) fun _ => .bind (bitmapSync_quiet P _ _) fun _ => ?_
  apply Quiet.malloc_bind
  · exact .check_bind (by decide) fun h => absurd h (by decide)
  intro ioBuf
  exact .check_bind (by decide) fun _ => .bind (inodeDelete_quiet P _ _) fun _ => .free ioBuf

theorem searchBlocks_quiet (allBlocks : Nat → Nat) (name : CStr) (rounds : Nat) :
    ∀ blockIdx, Quiet K [] (searchBlocks allBlocks name rounds blockIdx) := by
  induction rounds with
  | zero => exact fun _ => .pure _
  | succ k ih =>
    intro blockIdx
    refine .ite (fun _ => ih _) fun _ => .bind (ideRead_quiet _ _) fun buf => ?_
    cases findEntry buf name with
    | none => exact ih _
    | some idx => exact .pure _

theorem searchDirEntry_quiet (pdir : Dir) (name : CStr) : Quiet K [] (searchDirEntry pdir name) := by
  apply Quiet.malloc_bind
  · exact .pure _
  intro blocks
  refine .get_bind fun s => .bind (collectBlocks_quiet _) fun allBlocks => ?_
  apply Quiet.malloc_bind
  · exact .check_bind (by decide) fun h => absurd h (by decide)
  intro buf
  refine .check_bind (by decide) fun _ => .bind (searchBlocks_quiet _ _ _ _) fun found => ?_
  exact .free_bind (.free_bind (.pure _))

theorem createDirEntry_quiet (filename : CStr) (inodeNo fileType : Nat) :
    Quiet K [] (createDirEntry filename inodeNo fileType) :=
  .assert_bind fun _ => .pure _

/-! Growing a directory. -/

theorem modifyInode_quiet {o : Nat} {f : Inode → Inode} (h : ∀ i, K i (f i))
    (cnts : ∀ i, (f i).iOpenCnts = i.iOpenCnts) : Quiet K [] (modifyInode o f) :=
  .modify (fun _ => .setInode (h _) (cnts _)) fun _ => rfl

theorem setSector_quiet (o idx lba : Nat) :
    Quiet K [] (modifyInode o fun i => i.setSector idx lba) :=
  modifyInode_quiet (fun _ => Grows.grow _ _ rfl rfl (Nat.le_refl _)) fun _ => rfl

theorem growSize_quiet (o n : Nat) :
    Quiet K [] (modifyInode o fun i => { i with iSize := i.iSize + n }) :=
  modifyInode_quiet (fun _ => Grows.grow _ _ rfl rfl (Nat.le_add_right _ _)) fun _ => rfl

theorem growDir_quiet (dirInode blockIdx : Nat) (allBlocks : Nat → Nat) :
    Quiet K [] (growDir P dirInode blockIdx allBlocks) := by
  refine .bind (blockBitmapAlloc_quiet P) fun r => ?_
  cases r with
  | none => exact .pure _
  | some blockLba =>
    refine .bind (bitmapSync_quiet P _ _) fun _ => .ite (fun _ => ?_) fun _ => .ite (fun _ => ?_) fun _ => ?_
    · exact .bind (setSector_quiet _ _ _) fun _ => .pure _
    · refine .bind (setSector_quiet _ _ _) fun _ => .bind (blockBitmapAlloc_quiet P) fun r => ?_
      cases r with
      | none =>
        refine .get_bind fun s => .bind (bitmapSet_quiet _ _ _ _) fun bits => ?_
        exact .bind (setBlockBitmap_quiet bits) fun _ => .bind (setSector_quiet _ _ _) fun _ => .pure _
      | some first =>
        exact .bind (bitmapSync_quiet P _ _) fun _ => .bind (ideWrite_quiet _ _ _) fun _ => .pure _
    · exact .get_bind fun s => .bind (ideWrite_quiet _ _ _) fun _ => .pure _

theorem insertEntry_quiet (dirInode : Nat) (de : DirEntry) (allBlocks : Nat → Nat) (rounds : Nat) :
    ∀ blockIdx, Quiet K [] (insertEntry P dirInode de allBlocks rounds blockIdx) := by
  induction rounds with
  | zero => exact fun _ => .pure _
  | succ k ih =>
    intro blockIdx
    refine .ite (fun _ => .bind (growDir_quiet P _ _ _) fun r => ?_) fun _ =>
      .bind (ideRead_quiet _ _) fun buf => ?_
    · cases r with
      | none => exact .pure _
      | some blockLba =>
        exact .bind (ideWrite_quiet _ _ _) fun _ => .bind (growSize_quiet _ _) fun _ => .pure _
    · cases freeEntry buf with
      | none => exact ih _
      | some idx =>
        exact .bind (ideWrite_quiet _ _ _) fun _ => .bind (growSize_quiet _ _) fun _ => .pure _

theorem syncDirEntry_quiet (parentDir : Dir) (de : DirEntry) :
    Quiet K [] (syncDirEntry P parentDir de) :=
  .get_bind fun _ => .assert_bind fun _ => insertEntry_quiet P _ _ _ _ _

theorem createOnDisk_quiet (parentDir : Dir) (filename : CStr) (inodeNo newFileInode : Nat) :
    Quiet K [] (createOnDisk P parentDir filename inodeNo newFileInode) := by
  refine .bind (createDirEntry_quiet _ _ _) fun de => .bind (syncDirEntry_quiet P _ _) fun r => ?_
  refine .ite (fun _ => .get_bind fun s => ?_) fun _ => .pure _
  exact .bind (inodeSync_quiet P _ _) fun _ => .bind (inodeSync_quiet P _ _) fun _ =>
    .bind (bitmapSync_quiet P _ _) fun _ => .pure _

theorem makeDir_quiet (parentDir : Dir) (dirname : CStr) : Quiet K [] (makeDir P parentDir dirname) := by
  unfold makeDir
  refine .bind (inodeBitmapAlloc_quiet P) fun r => ?_
  cases r with
  | none => exact .pure _
  | some inodeNo =>
    refine .bind (blockBitmapAlloc_quiet P) fun r => ?_
    cases r with
    | none => exact .bind (inodeBitmapClear_quiet _) fun _ => .pure _
    | some blockLba =>
      refine .assert_bind fun _ => .bind (bitmapSync_quiet P _ _) fun _ => .get_bind fun s => ?_
      refine .bind (ideWrite_quiet _ _ _) fun _ => .bind (createDirEntry_quiet _ _ _) fun de => ?_
      refine .bind (syncDirEntry_quiet P _ _) fun r => .ite (fun _ => .get_bind fun s => ?_) fun _ => ?_
      · exact .bind (inodeSync_quiet P _ _) fun _ => .bind (inodeSync_quiet P _ _) fun _ =>
          .bind (bitmapSync_quiet P _ _) fun _ => .pure _
      · exact .bind (inodeBitmapClear_quiet _) fun _ => .pure _

/-! Paths. -/

theorem parseName_quiet (subPath : Option CStr) : Quiet K [] (parseName subPath) := by
  cases subPath with
  | none => exact .pure _
  | some path => exact .check_bind (by decide) fun _ => .pure _

theorem depthFrom_quiet (rounds : Nat) : ∀ subPath, Quiet K [] (depthFrom rounds subPath) := by
  induction rounds with
  | zero => exact fun _ => .throw (by decide)
  | succ k ih =>
    intro subPath
    refine .bind (parseName_quiet _) fun r => .ite (fun _ => .pure _) fun _ => ?_
    exact .bind (ih _) fun _ => .pure _

theorem pathDepthCnt_quiet (pathname : CStr) : Quiet K [] (pathDepthCnt pathname) := by
  refine .bind (parseName_quiet _) fun r => .ite (fun _ => ?_) fun _ => ?_
  · exact .bind ask_quiet fun _ => .pure _
  · exact .bind (depthFrom_quiet _ _) fun _ => .pure _

/-! Open files. -/

theorem firstBlock_quiet (inode : Nat) : Quiet K [] (firstBlock P inode) := by
  unfold firstBlock
  refine .get_bind fun s => .ite (fun _ => .bind (blockBitmapAlloc_quiet P) fun r => ?_) fun _ => .pure _
  cases r with
  | none => exact .pure _
  | some blockLba =>
    exact .bind (setSector_quiet _ _ _) fun _ => .assert_bind fun _ =>
      .bind (bitmapSync_quiet P _ _) fun _ => .pure _

theorem addDirect_quiet (inode rounds : Nat) :
    ∀ blockIdx allBlocks, Quiet K [] (addDirect P inode rounds blockIdx allBlocks) := by
  induction rounds with
  | zero => exact fun _ _ => .pure _
  | succ k ih =>
    intro blockIdx allBlocks
    refine .bind (blockBitmapAlloc_quiet P) fun r => ?_
    cases r with
    | none => exact .pure _
    | some blockLba =>
      exact .get_bind fun _ => .assert_bind fun _ => .bind (setSector_quiet _ _ _) fun _ =>
        .bind (bitmapSync_quiet P _ _) fun _ => ih _ _

theorem addCrossing_quiet (inode rounds : Nat) :
    ∀ blockIdx allBlocks, Quiet K [] (addCrossing P inode rounds blockIdx allBlocks) := by
  induction rounds with
  | zero => exact fun _ _ => .pure _
  | succ k ih =>
    intro blockIdx allBlocks
    refine .bind (blockBitmapAlloc_quiet P) fun r => ?_
    cases r with
    | none => exact .pure _
    | some blockLba =>
      refine .ite (fun _ => .get_bind fun _ => .assert_bind fun _ => ?_) fun _ => ?_
      · exact .bind (setSector_quiet _ _ _) fun _ => .bind (bitmapSync_quiet P _ _) fun _ => ih _ _
      · exact .bind (bitmapSync_quiet P _ _) fun _ => ih _ _

theorem addIndirect_quiet (rounds : Nat) :
    ∀ blockIdx allBlocks, Quiet K [] (addIndirect P rounds blockIdx allBlocks) := by
  induction rounds with
  | zero => exact fun _ _ => .pure _
  | succ k ih =>
    intro blockIdx allBlocks
    refine .bind (blockBitmapAlloc_quiet P) fun r => ?_
    cases r with
    | none => exact .pure _
    | some blockLba => exact .bind (bitmapSync_quiet P _ _) fun _ => ih _ _

theorem blocksForWrite_quiet (inode count : Nat) : Quiet K [] (blocksForWrite P inode count) := by
  refine .get_bind fun s => .assert_bind fun _ => .ite (fun _ => ?_) fun _ => .ite (fun _ => ?_) fun _ =>
    .ite (fun _ => ?_) fun _ => ?_
  · refine .ite (fun _ => .pure _) fun _ => .assert_bind fun _ => ?_
    exact .bind (readTable_quiet _) fun _ => .pure _
  · exact .check_bind (by decide) fun _ => .assert_bind fun _ => addDirect_quiet P _ _ _ _
  · refine .bind (blockBitmapAlloc_quiet P) fun r => ?_
    cases r with
    | none => exact .pure _
    | some indirectBlockTable =>
      refine .assert_bind fun _ => .bind (setSector_quiet _ _ _) fun _ => ?_
      refine .bind (addCrossing_quiet P _ _ _ _) fun r => ?_
      cases r with
      | none => exact .pure _
      | some allBlocks => exact .bind (ideWrite_quiet _ _ _) fun _ => .pure _
  · refine .assert_bind fun _ => .bind (readTable_quiet _) fun _ => .bind (addIndirect_quiet P _ _ _) fun r => ?_
    cases r with
    | none => exact .pure _
    | some allBlocks => exact .bind (ideWrite_quiet _ _ _) fun _ => .pure _

theorem writeLoop_quiet (inode : Nat) (allBlocks : Nat → Nat) (rounds : Nat) :
    ∀ first src sizeLeft, Quiet K [] (writeLoop inode allBlocks rounds first src sizeLeft) := by
  induction rounds with
  | zero =>
    intro first src sizeLeft
    cases sizeLeft with
    | zero => exact .pure _
    | succ n => exact .throw (by decide)
  | succ k ih =>
    intro first src sizeLeft
    cases sizeLeft with
    | zero => exact .pure _
    | succ n =>
      refine .get_bind fun s => .check_bind (by decide) fun _ => .ite (fun _ => ?_) fun _ => ?_
      · exact .bind (ideRead_quiet _ _) fun _ => .bind (ideWrite_quiet _ _ _) fun _ =>
          .bind (growSize_quiet _ _) fun _ => ih _ _ _
      · exact .bind (.pure _) fun _ => .bind (ideWrite_quiet _ _ _) fun _ =>
          .bind (growSize_quiet _ _) fun _ => ih _ _ _

theorem blocksForRead_quiet (inode : Inode) (first last : Nat) :
    Quiet K [] (blocksForRead inode first last) := by
  refine .ite (fun _ => .pure _) fun _ => .ite (fun _ => ?_) fun _ => ?_
  · exact .bind (readTable_quiet _) fun _ => .pure _
  · exact .assert_bind fun _ => .bind (readTable_quiet _) fun _ => .pure _

theorem childNameFrom_quiet (allBlocks : Nat → Nat) (inodeNo rounds : Nat) :
    ∀ blockIdx, Quiet K [] (childNameFrom allBlocks inodeNo rounds blockIdx) := by
  induction rounds with
  | zero => exact fun _ => .pure _
  | succ k ih =>
    intro blockIdx
    refine .ite (fun _ => ih _) fun _ => .bind (ideRead_quiet _ _) fun buf => ?_
    cases childName buf inodeNo with
    | none => exact ih _
    | some name => exact .pure _

/-! Taking entries out of a directory. -/
section Shrinking
omit [Grows K]
variable [Shrinks K]

theorem dropBlock_quiet (dirInode blockIdx : Nat) (allBlocks : Nat → Nat) :
    Quiet K [] (dropBlock P dirInode blockIdx allBlocks) := by
  refine .bind (blockBitmapFree_quiet P _) fun _ => .ite (fun _ => ?_) fun _ => .ite (fun _ => ?_) fun _ => ?_
  · exact setSector_quiet _ _ _
  · exact .throw (by decide)
  · exact .get_bind fun _ => ideWrite_quiet _ _ _

theorem shrinkSize_quiet (o n : Nat) :
    Quiet K [] (modifyInode o fun i => { i with iSize := i.iSize - n }) :=
  modifyInode_quiet (fun _ => Shrinks.shrink _ _ rfl rfl) fun _ => rfl

theorem deleteFrom_quiet (dirInode inodeNo : Nat) (allBlocks : Nat → Nat) (rounds : Nat) :
    ∀ blockIdx, Quiet K [] (deleteFrom P dirInode inodeNo allBlocks rounds blockIdx) := by
  induction rounds with
  | zero => exact fun _ => .pure _
  | succ k ih =>
    intro blockIdx
    refine .ite (fun _ => ih _) fun _ => .bind (ideRead_quiet _ _) fun buf => .assert_bind fun _ => ?_
    cases (scanBlock buf inodeNo).found with
    | nil => exact ih _
    | cons idx _ =>
      have rest : Quiet K [] (do
          assert (dirEntrySize ≤ ((← get).inode dirInode).iSize)
          modifyInode dirInode fun i => { i with iSize := i.iSize - dirEntrySize }
          inodeSync P ((← get).inode dirInode) 1024
          pure true) :=
        .get_bind fun _ => .assert_bind fun _ => .bind (shrinkSize_quiet _ _) fun _ =>
          .get_bind fun _ => .bind (inodeSync_quiet P _ _) fun _ => .pure _
      refine .ite (fun _ => .bind (dropBlock_quiet P _ _ _) fun _ => rest) fun _ => ?_
      exact .bind (ideWrite_quiet _ _ _) fun _ => rest

theorem deleteDirEntry_quiet (pdir : Dir) (inodeNo : Nat) :
    Quiet K [] (deleteDirEntry P pdir inodeNo) :=
  .get_bind fun _ => .bind (collectBlocks_quiet _) fun _ => deleteFrom_quiet P _ _ _ _ _

end Shrinking

end Zhenxiang.Fs
