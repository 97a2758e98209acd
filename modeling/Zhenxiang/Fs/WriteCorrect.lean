import Zhenxiang.Fs.FileWrite

/-! The size limit of file_write, and what a write that fails leaves behind. -/
namespace Zhenxiang.Fs
open Lib Kernel

variable (P : Partition)

/-- A consistent file behind a descriptor, on a partition whose bitmap marks the block of the
root directory and what is not on the disk. -/
structure FileGood (s : FileSys) (fd o : Nat) : Prop where
  slot : (s.fileTable fd).fdInode = some o
  opened : o ∈ s.openInodes
  sound : FileSound P s (s.inode o)
  onDisk : FreeOnDisk P s
  root : s.blockBitmap 0 = true

/-- The blocks that a file needs for count bytes more. -/
def neededBlocks (i : Inode) (count : Nat) : Nat := (if i.iSectors 0 = 0 then 1 else 0) + addedBlocks i.iSize count

/-- The blocks of a file and its table. -/
def Owned (disk : Buf) (i : Inode) (lba : Nat) : Prop :=
  lba ≠ 0 ∧ (lba = i.iSectors 12 ∨ ∃ k < 140, lba = blockAddrs disk i k)

section Steps
variable {P} {s t : FileSys} {fd o count : Nat}

theorem sector_byte (d : Buf) (lba : Nat) {k : Nat} (low : k < 512) : sector d lba k = d (512 * lba + k) :=
  if_pos (by omega)

theorem blockAddrs_carry {d e : Buf} {i j : Inode} {k : Nat} (room : k < 140) (same : j.iSectors = i.iSectors)
    (table : i.iSectors 12 ≠ 0 → ∀ m < 512, e (512 * i.iSectors 12 + m) = d (512 * i.iSectors 12 + m)) :
    blockAddrs e j k = blockAddrs d i k := by
  by_cases own : k < 12
  · rw [blockAddrs_direct own, blockAddrs_direct own, same]
  · rw [blockAddrs, blockAddrs, if_neg own, if_neg own, same]
    split
    · next there =>
      apply word_congr
      intro m hm
      rw [Nat.add_assoc]
      exact table there _ (by omega)
    · rfl

/-- The same table and no fewer marks on the blocks of the file. -/
theorem FileSound.carry {i : Inode} (fits : P.Fits) (sound : FileSound P s i)
    (table : i.iSectors 12 ≠ 0 → sector t.disk (i.iSectors 12) = sector s.disk (i.iSectors 12))
    (marks : ∀ lba, Owned s.disk i lba → BlockUsed P s lba → BlockUsed P t lba) : FileSound P t i := by
  have addrs : ∀ k < 140, blockAddrs t.disk i k = blockAddrs s.disk i k := by
    intro k room
    apply blockAddrs_carry room rfl
    intro there m hm
    have byte := congrFun (table there) m
    rwa [sector_byte _ _ hm, sector_byte _ _ hm] at byte
  refine ⟨sound.size, sound.new, ?_, sound.unused, sound.table, ?_, ?_, ?_⟩
  · intro started k hk room
    have used := sound.used started k hk room
    rw [addrs k room]
    exact marks _ ⟨used.ne_zero fits, .inr ⟨k, room, rfl⟩⟩ used
  · intro there
    exact marks _ ⟨there, .inl rfl⟩ (sound.tableUsed there)
  · intro k hk room
    rw [addrs k room]
    exact sound.apart k hk room
  · intro j hj roomj k hk roomk
    rw [addrs j roomj, addrs k roomk]
    exact sound.once j hj roomj k hk roomk

/-- The state in which the blocks of the file are taken on. -/
structure Started (P : Partition) (s t : FileSys) (o : Nat) : Prop where
  frame : ∃ bits d, DataSame P s.disk d ∧ t = s.patch bits d o (t.inode o)
  number : (t.inode o).iNo = (s.inode o).iNo
  size : (t.inode o).iSize = (s.inode o).iSize
  there : (t.inode o).iSectors 0 ≠ 0
  sound : FileSound P t (t.inode o)
  onDisk : FreeOnDisk P t
  count : freeCount P t.blockBitmap + (if (s.inode o).iSectors 0 = 0 then 1 else 0) = freeCount P s.blockBitmap
  bytes : fileBytes t.disk (t.inode o) 0 (s.inode o).iSize = fileBytes s.disk (s.inode o) 0 (s.inode o).iSize
  same : (s.inode o).iSectors 0 ≠ 0 → t = s

/-- The block of a first write becomes the block 0 of the file. -/
theorem Started.first (fits : P.Fits) (onDisk : FreeOnDisk P s) (sound : FileSound P s (s.inode o))
    (new : (s.inode o).iSectors 0 = 0) {a : Nat} (clear : BlockFree P s a) {d : Buf} (data : DataSame P s.disk d) :
    Started P s (s.patch (Function.update s.blockBitmap a true) d o ((s.inode o).setSector 0 (P.dataStartLba + a))) o := by
  have size := sound.new new
  have low := onDisk _ clear
  have marked : BlockUsed P (s.patch (Function.update s.blockBitmap a true) d o
      ((s.inode o).setSector 0 (P.dataStartLba + a))) (P.dataStartLba + a) := by
    have one : FreeBits P s [a] := .cons (o := o) (d := d) (i := s.inode o) clear .nil
    rw [← markBits_nil (Function.update s.blockBitmap a true), markBits_cons]
    exact blockUsed_new onDisk one List.mem_cons_self
  have none_behind : (s.inode o).iSectors 12 = 0 := by
    by_contra there
    have := sound.table.1 there
    omega
  have sizes : ((s.inode o).setSector 0 (P.dataStartLba + a)).iSize = 0 := size
  have twelve : ((s.inode o).setSector 0 (P.dataStartLba + a)).iSectors 12 = 0 :=
    (setSector_of_ne _ _ (by decide)).trans none_behind
  have zero : ((s.inode o).setSector 0 (P.dataStartLba + a)).iSectors 0 = P.dataStartLba + a := setSector_self ..
  have addr : blockAddrs d ((s.inode o).setSector 0 (P.dataStartLba + a)) 0 = P.dataStartLba + a :=
    (blockAddrs_direct (by decide)).trans zero
  constructor
  · refine ⟨Function.update s.blockBitmap a true, d, data, ?_⟩
    rw [FileSys.patch_inode]
  · rw [FileSys.patch_inode]
    rfl
  · rw [FileSys.patch_inode]
    rfl
  · rw [FileSys.patch_inode, zero]
    exact marked.ne_zero fits
  · rw [FileSys.patch_inode]
    refine ⟨by omega, fun none => ?_, ?_, ?_, ?_, ?_, ?_, ?_⟩
    · exact sizes
    · intro _ k hk _
      obtain rfl : k = 0 := by omega
      exact addr.symm ▸ marked
    · intro k own behind
      rw [setSector_of_ne _ _ (by omega)]
      exact sound.unused k own (by omega)
    · omega
    · intro there
      exact (there twelve).elim
    · intro k _ _ there
      rw [twelve]
      exact there
    · intro j hj _ k hk _ _ _
      omega
  · exact onDisk.mark
  · rw [if_pos new]
    exact freeCount_update clear
  · rw [size]
    rfl
  · intro started
    exact (started new).elim

theorem Started.refl (sound : FileSound P s (s.inode o)) (onDisk : FreeOnDisk P s) (there : (s.inode o).iSectors 0 ≠ 0) :
    Started P s s o where
  frame := ⟨s.blockBitmap, s.disk, .refl _, (s.patch_self o).symm⟩
  number := rfl
  size := rfl
  there := there
  sound := sound
  onDisk := onDisk
  count := by rw [if_neg there, Nat.add_zero]
  bytes := rfl
  same _ := rfl

/-- A first write finds no free block and changes nothing, or the file has its first block. -/
theorem firstBlock_spec (fits : P.Fits) (onDisk : FreeOnDisk P s) (sound : FileSound P s (s.inode o))
    (root : s.blockBitmap 0 = true) :
    wp (firstBlock P o) (fun r t => (r = false ∧ t = s ∧ (s.inode o).iSectors 0 = 0 ∧ freeCount P s.blockBitmap = 0) ∨
        r = true ∧ Started P s t o)
      (fun _ => P.scanAsserts = true ∧ (s.inode o).iSectors 0 = 0 ∧ freeCount P s.blockBitmap = 0) s := by
  unfold firstBlock
  rw [wp_bind, wp_get, wp_ite]
  constructor
  · intro new
    rw [wp_bind]
    apply wp_mono blockBitmapAlloc_spec
    · rintro r t (⟨rfl, rfl, none⟩ | ⟨a, clear, rfl, rfl⟩)
      · exact (wp_pure _).2 (.inl ⟨rfl, rfl, new, freeCount_zero.2 none⟩)
      · have idx := clear.idx fits
        have other : a ≠ 0 := by
          intro zero
          have := clear.2
          rw [zero, root] at this
          cases this
        dsimp only
        rw [idx, wp_bind, modifyInode, wp_modify, wp_bind, wp_assert]
        refine ⟨fun _ => ?_, fun zero => (zero other).elim⟩
        rw [wp_bind]
        apply wp_mono (bitmapSync_spec fits clear.1) ?_ fun _ none => none.elim
        rintro - t ⟨d, rfl, data⟩
        exact (wp_pure _).2 (.inr ⟨rfl, .first fits onDisk sound new clear data⟩)
    · rintro f ⟨-, on, none⟩
      exact ⟨on, new, freeCount_zero.2 none⟩
  · intro started
    exact (wp_pure _).2 (.inr ⟨rfl, .refl sound onDisk started⟩)

/-- inode_sync keeps to the table of inodes, or overruns a buffer that is too short. -/
theorem inodeSync_ends (fits : P.Fits) (i : Inode) (bufSize : Nat) :
    wp (inodeSync P i bufSize) (fun _ t => BufferHolds bufSize (i.iNo % 256) ∧
        ∃ d, t = { s with disk := d } ∧ DataSame P s.disk d)
      (fun f => f = .undefined ∧ ¬ BufferHolds bufSize (i.iNo % 256)) s := by
  have low : i.iNo % 256 < 4096 := by omega
  rw [inodeSync, wp_bind, wp_inodeLocate low]
  apply wp_post (writeSlot_ends fits low _ bufSize)
  rintro - t ⟨wide, rfl⟩
  refine ⟨wide, _, rfl, fun k hk => ?_⟩
  obtain ⟨pos, inside, room, start⟩ := slotSects_spec P low
  apply blit_of_not_mem
  rw [start]
  simp only [Partition.dataStartLba] at hk
  simp only [Partition.inodeSize] at room ⊢
  omega

theorem inodeSync_frame (fits : P.Fits) (i : Inode) {bufSize : Nat} (wide : BufferHolds bufSize (i.iNo % 256)) :
    Succeeds (inodeSync P i bufSize) (fun _ t => ∃ d, t = { s with disk := d } ∧ DataSame P s.disk d) s :=
  wp_mono (inodeSync_ends fits i bufSize) (fun _ _ done => done.2) fun _ out => out.2 wide

/-- What the data loop leaves of a file that is ready: its addresses, and its bytes as far as
the addresses have been recorded. -/
theorem WriteReady.loop {w : FileSys} {limit : Nat} {b : Nat → Nat} (ready : WriteReady P s t o count limit b)
    (disk : w.disk = t.disk) (inode : w.inode o = t.inode o) (small : (s.inode o).iSize + count < 140 * 512)
    (old : (s.inode o).iSize / 512 < limit) (most : limit = 12 ∨ limit = 140) (buf : Buf) :
    Succeeds (writeLoop o b count true buf count) (fun _ u => ∃ d,
      u = w.patch w.blockBitmap d o ((t.inode o).extend count) ∧
      (∀ k < 140, blockAddrs d ((t.inode o).extend count) k = blockAddrs t.disk (t.inode o) k) ∧
      ((s.inode o).iSize + count ≤ 512 * limit → fileBytes d ((t.inode o).extend count) 0 ((s.inode o).iSize + count) =
        fileBytes s.disk (s.inode o) 0 (s.inode o).iSize ++ (List.range count).map buf)) w := by
  generalize size : (s.inode o).iSize = z at small old
  have sizes := ready.size.trans size
  -- the blocks that the loop writes to
  have target : ∀ m < count, b ((z + m) / 512) ≤ maxLba ∧
      ((t.inode o).iSectors 12 ≠ 0 → b ((z + m) / 512) ≠ (t.inode o).iSectors 12) := by
    intro m hm
    by_cases recorded : (z + m) / 512 < limit
    · have addr := ready.blocks ((z + m) / 512) (by omega) (by omega) recorded
      rw [addr]
      exact ⟨(ready.used _ (by omega) recorded).disk, fun _ => ready.apart _ (by omega) recorded⟩
    · obtain rfl : limit = 12 := by omega
      obtain ⟨-, lost⟩ := ready.lost rfl
      rw [(lost _ (Nat.le_of_not_lt recorded)).1]
      exact ⟨Nat.zero_le _, fun there => there.symm⟩
  have run := writeLoop_bytes (t := w) (o := o) (b := b) count count true buf (Nat.le_refl _)
  rw [inode, sizes, disk] at run
  apply wp_post (run (by omega) (fun m hm => (target m hm).1) fun no => by cases no)
  rintro - u ⟨d, rfl, written⟩
  have addrs : ∀ k < 140, blockAddrs d ((t.inode o).extend count) k = blockAddrs t.disk (t.inode o) k := by
    intro k room
    refine blockAddrs_carry (i := t.inode o) room rfl fun there m hm => ?_
    apply written.others
    intro l hl
    have other := (target l hl).2 there
    omega
  refine ⟨d, rfl, addrs, fun whole => ?_⟩
  have recorded : ∀ m < count, (z + m) / 512 < limit ∧ (z + m) / 512 ≤ (z + count) / 512 ∧
      b ((z + m) / 512) = blockAddrs t.disk (t.inode o) ((z + m) / 512) := by
    intro m hm
    exact ⟨by omega, by omega, ready.blocks _ (by omega) (by omega) (by omega)⟩
  have apart : ∀ m < count, ∀ l < count, b ((z + m) / 512) = b ((z + l) / 512) → (z + m) / 512 = (z + l) / 512 := by
    intro m hm l hl same
    obtain ⟨lowm, inm, addrm⟩ := recorded m hm
    obtain ⟨lowl, inl, addrl⟩ := recorded l hl
    rw [addrm, addrl] at same
    exact ready.once _ (by omega) lowm _ (by omega) lowl same
  rw [fileBytes_add, Nat.zero_add]
  congr 1
  · apply List.map_congr_left
    intro j mem
    have before := List.mem_range.1 mem
    have room : j / 512 < 140 := by omega
    have kept := congrFun (ready.kept (j / 512) (by omega)) (j % 512)
    rw [sector_byte _ _ (Nat.mod_lt _ (by decide)), sector_byte _ _ (Nat.mod_lt _ (by decide))] at kept
    rw [Nat.zero_add, fileByte, fileByte, addrs _ room, ← kept]
    by_cases last : j / 512 = z / 512
    · have block := ready.blocks (z / 512) (by omega) (by omega) old
      have byte := written.before apart (j % 512) (by omega)
      rw [last, ← block]
      exact byte
    · apply written.others
      intro m hm
      obtain ⟨low, inside, addr⟩ := recorded m hm
      have other : blockAddrs t.disk (t.inode o) (j / 512) ≠ b ((z + m) / 512) := by
        intro same
        rw [addr] at same
        have equal := ready.once _ (by omega) (by omega) _ (by omega) low same
        omega
      omega
  · apply List.map_congr_left
    intro m mem
    have hm := List.mem_range.1 mem
    obtain ⟨low, inside, addr⟩ := recorded m hm
    rw [fileByte, addrs _ (by omega), ← addr]
    exact written.bytes apart m hm

/-- The heap and the tasks are as they were. -/
structure HeapSame (s t : FileSys) : Prop where
  live : t.live = s.live
  owner : t.owner = s.owner
  pgdir : t.pgdir = s.pgdir
  current : t.current = s.current

theorem HeapSame.trans {u : FileSys} (h : HeapSame s t) (k : HeapSame t u) : HeapSame s u :=
  ⟨k.live.trans h.live, k.owner.trans h.owner, k.pgdir.trans h.pgdir, k.current.trans h.current⟩

theorem HeapSame.patch (s : FileSys) (bits : Nat → Bool) (d : Buf) (o : Nat) (i : Inode) :
    HeapSame s (s.patch bits d o i) := ⟨rfl, rfl, rfl, rfl⟩

/-- Both buffers are given back. -/
theorem wp_freeBuffers {x : Int} {Q : Int → FileSys → Prop} {E : Fault → Prop} (heap : HeapSame s.withBlock.withBlock t)
    (post : ∀ u, u.disk = t.disk → u.blockBitmap = t.blockBitmap → u.inode = t.inode → Q x u) :
    wp (do sysFree (some (s.nextBlock + 1)); sysFree (some s.nextBlock); pure x) Q E t := by
  have newer : s.nextBlock ≠ s.nextBlock + 1 := by omega
  have pgdir : t.pgdir t.current = s.pgdir s.current := by
    rw [heap.pgdir, heap.current]
    rfl
  have outer : t.owner (s.nextBlock + 1) = t.pgdir t.current := by
    rw [heap.owner, pgdir]
    exact Function.update_self ..
  have inner : t.owner s.nextBlock = t.pgdir t.current := by
    rw [heap.owner, pgdir]
    exact (Function.update_of_ne newer _ _).trans (Function.update_self ..)
  have listed : t.live = (s.nextBlock + 1) :: s.nextBlock :: s.live := heap.live
  rw [wp_bind, wp_sysFree (listed ▸ List.mem_cons_self) outer, wp_bind,
    wp_sysFree (s := t.free (s.nextBlock + 1)) ?_ inner, wp_pure]
  · exact post _ rfl rfl rfl
  · show s.nextBlock ∈ t.live.erase (s.nextBlock + 1)
    rw [listed, List.erase_cons_head]
    exact List.mem_cons_self

/-- What a write is to do: the file is longer by count bytes, those of the buffer, and its blocks
are marked as used. -/
structure BytesAdded (P : Partition) (s t : FileSys) (o count : Nat) (buf : Buf) : Prop where
  size : (t.inode o).iSize = (s.inode o).iSize + count
  blocks : ∀ k, 512 * k < (s.inode o).iSize + count → BlockUsed P t (blockAddrs t.disk (t.inode o) k)
  bytes : fileBytes t.disk (t.inode o) 0 ((s.inode o).iSize + count) =
    fileBytes s.disk (s.inode o) 0 (s.inode o).iSize ++ (List.range count).map buf

/-- file_write behind the allocation of its buffers. -/
def fileWriteBody (P : Partition) (fd o : Nat) (file : File) (ioBuf blocks : Nat) (buf : Buf) (count : Nat) : Sys Int := do
  if (← firstBlock P o) = false then
    pure (-1)
  else
    match ← blocksForWrite P o count with
    | none => pure (-1)
    | some allBlocks =>
      setFile fd { file with fdPos := (((← get).inode o).iSize + 2 ^ 32 - 1) % 2 ^ 32 }
      writeLoop o allBlocks count true buf count
      inodeSync P ((← get).inode o) 512
      sysFree (some blocks)
      sysFree (some ioBuf)
      pure count

theorem wp_fileWrite (slot : (s.fileTable fd).fdInode = some o) (opened : o ∈ s.openInodes) (buf : Buf)
    {Q : Int → FileSys → Prop} {E : Fault → Prop} :
    wp (fileWrite P fd buf count) Q E s ↔
      if 512 * 140 < ((s.inode o).iSize + count) % 2 ^ 32 then Q (-1) s
      else if MallocOk s then
        if MallocOk s.withBlock then wp (fileWriteBody P fd o (s.fileTable fd) s.nextBlock (s.nextBlock + 1) buf count) Q E
          s.withBlock.withBlock
        else Q (-1) s.withBlock.afterMalloc
      else Q (-1) s.afterMalloc := by
  unfold fileWrite
  rw [wp_bind, wp_get]
  dsimp only
  rw [wp_bind, wp_fdInode_iff slot opened, wp_bind, wp_get]
  split
  · exact wp_pure _
  · by_cases first : MallocOk s
    · rw [wp_bind, first.run, if_pos first]
      dsimp only
      by_cases second : MallocOk s.withBlock
      · rw [wp_bind, second.run, if_pos second]
        rfl
      · rw [wp_bind, wp_sysMalloc, if_neg second, if_neg second]
        exact wp_pure _
    · rw [wp_bind, wp_sysMalloc, if_neg first, if_neg first]
      exact wp_pure _

theorem HeapSame.started {u : FileSys} (h : Started P s u o) : HeapSame s u := by
  obtain ⟨bits, d, -, frame⟩ := h.frame
  rw [frame]
  exact .patch ..

theorem WriteReady.heap {limit : Nat} {b : Nat → Nat} (ready : WriteReady P s t o count limit b) : HeapSame s t := by
  rw [ready.frame]
  exact .patch ..

/-- The slot of an open inode lies in two sectors of the inode table, and file_write hands
inode_sync a buffer of one. -/
def SlotStraddles (s : FileSys) (o : Nat) : Prop := Straddles ((s.inode o).iNo % 256)

instance (s : FileSys) (o : Nat) : Decidable (SlotStraddles s o) := inferInstanceAs (Decidable (Straddles _))

theorem bufferHolds_one {inodeNo : Nat} : BufferHolds 512 inodeNo ↔ ¬ Straddles inodeNo := by
  unfold BufferHolds
  split <;> simp [*]

/-- With enough free blocks and below the limit the bytes are written, behind a new table with the
block 12 missing; then the inode goes to its slot, unless that overruns the buffer. -/
theorem fileWriteBody_ends (fits : P.Fits) (good : FileGood P s fd o) (small : (s.inode o).iSize + count < 140 * 512)
    (enough : neededBlocks (s.inode o) count ≤ freeCount P s.blockBitmap) (file : File) (buf : Buf) :
    wp (fileWriteBody P fd o file s.nextBlock (s.nextBlock + 1) buf count) (fun r t => ¬ SlotStraddles s o ∧ r = count ∧
        (t.inode o).iSize = (s.inode o).iSize + count ∧
        ((s.inode o).iSize + count ≤ 512 * recordedTo (s.inode o).iSize count → BytesAdded P s t o count buf) ∧
        (recordedTo (s.inode o).iSize count = 12 → blockAddrs t.disk (t.inode o) 12 = 0))
      (fun _ => SlotStraddles s o) s.withBlock.withBlock := by
  have sound : FileSound P s.withBlock.withBlock (s.inode o) :=
    good.sound.carry fits (fun _ => rfl) fun _ _ used => ⟨used.data, used.disk, used.used⟩
  unfold fileWriteBody
  rw [wp_bind]
  apply wp_mono (firstBlock_spec (s := s.withBlock.withBlock) fits good.onDisk sound good.root)
  · rintro r t (⟨-, -, new, none⟩ | ⟨rfl, started⟩)
    · have zero : freeCount P s.blockBitmap = 0 := none
      have first : (s.inode o).iSectors 0 = 0 := new
      rw [neededBlocks, if_pos first] at enough
      omega
    · have needed : addedBlocks (s.inode o).iSize count ≤ freeCount P t.blockBitmap := by
        have count_left : freeCount P t.blockBitmap + (if (s.inode o).iSectors 0 = 0 then 1 else 0) =
          freeCount P s.blockBitmap := started.count
        rw [neededBlocks] at enough
        omega
      have number : (t.inode o).iNo = (s.inode o).iNo := started.number
      have size : (t.inode o).iSize = (s.inode o).iSize := started.size
      have bytes : fileBytes t.disk (t.inode o) 0 (s.inode o).iSize = fileBytes s.disk (s.inode o) 0 (s.inode o).iSize :=
        started.bytes
      rw [← size] at needed small bytes ⊢
      rw [if_neg (by decide), wp_bind]
      apply wp_mono (blocksForWrite_spec fits started.onDisk started.sound started.there small)
      · rintro r u outcome
        cases outcome with
        | full u few => omega
        | ready u b _ ready =>
          dsimp only
          have heap : HeapSame s.withBlock.withBlock u := (HeapSame.started started).trans ready.heap
          rw [wp_bind, wp_get, wp_bind, setFile, wp_modify, wp_bind]
          have limit : recordedTo (t.inode o).iSize count = 12 ∧ (t.inode o).iSize / 512 < 12 ∧
              12 ≤ ((t.inode o).iSize + count) / 512 ∨ recordedTo (t.inode o).iSize count = 140 := by
            unfold recordedTo
            split
            · next crossing => exact .inl ⟨rfl, crossing⟩
            · exact .inr rfl
          apply wp_mono (ready.loop (w := u.setSlot fd _) rfl rfl small (by omega) (by omega) buf) ?_
            fun _ none => none.elim
          rintro - v ⟨d, rfl, addrs, data⟩
          rw [wp_bind, wp_get, wp_bind]
          have synced : ((u.inode o).extend count).iNo % 256 = (s.inode o).iNo % 256 := by
            rw [← number, ← ready.number]
            rfl
          rw [FileSys.patch_inode]
          apply wp_mono (inodeSync_ends fits _ 512) ?_ fun f out => ?_
          rotate_left
          · rw [synced, bufferHolds_one, not_not] at out
            exact out.2
          rintro - v ⟨wide, e, rfl, same⟩
          rw [synced, bufferHolds_one] at wide
          apply wp_freeBuffers
          · exact ⟨heap.live, heap.owner, heap.pgdir, heap.current⟩
          intro v disk bits inode
          have at_o : v.inode o = (u.inode o).extend count := by
            rw [inode]
            exact FileSys.setInode_self ..
          have marks : v.blockBitmap = u.blockBitmap := bits
          have on_disk : v.disk = e := disk
          have final : ∀ k < 140, blockAddrs v.disk (v.inode o) k = blockAddrs u.disk (u.inode o) k := by
            intro k room
            rw [← addrs k room, at_o, on_disk]
            refine blockAddrs_carry (i := (u.inode o).extend count) room rfl fun there m _ => ?_
            have low := (ready.table there).data
            exact same _ (Nat.le_trans (Nat.mul_le_mul_left _ low) (Nat.le_add_right _ _))
          have used : ∀ k ≤ ((t.inode o).iSize + count) / 512, k < recordedTo (t.inode o).iSize count →
              BlockUsed P v (blockAddrs v.disk (v.inode o) k) := by
            intro k high low
            have there := ready.used k high low
            rw [final k (by omega)]
            exact ⟨there.data, there.disk, marks ▸ there.used⟩
          have longer : (v.inode o).iSize = (t.inode o).iSize + count := by
            rw [at_o, ← ready.size]
            rfl
          refine ⟨wide, rfl, longer, fun whole => ⟨longer.trans (by rw [size]), fun k hk => ?_, ?_⟩, fun lost => ?_⟩
          · rw [← size] at hk
            exact used k (by omega) (by omega)
          · rw [← size, ← bytes, ← data whole, at_o, on_disk]
            apply List.map_congr_left
            intro j mem
            have inside := List.mem_range.1 mem
            have there := (used (j / 512) (by omega) (by omega)).data
            rw [at_o, on_disk] at there
            have addr := final (j / 512) (by omega)
            rw [at_o, on_disk, ← addrs _ (by omega)] at addr
            rw [Nat.zero_add, fileByte, fileByte, addr]
            exact same _ (by omega)
          · rw [final 12 (by decide)]
            exact ((ready.lost lost).2 12 (Nat.le_refl _)).2 (by decide)
      · rintro f ⟨-, few⟩
        omega
  · rintro f ⟨-, new, none⟩
    have zero : freeCount P s.blockBitmap = 0 := none
    have first : (s.inode o).iSectors 0 = 0 := new
    rw [neededBlocks, if_pos first] at enough
    omega

theorem fileWriteBody_spec (fits : P.Fits) (good : FileGood P s fd o) (small : (s.inode o).iSize + count < 140 * 512)
    (enough : neededBlocks (s.inode o) count ≤ freeCount P s.blockBitmap) (within : ¬ SlotStraddles s o) (file : File)
    (buf : Buf) : Succeeds (fileWriteBody P fd o file s.nextBlock (s.nextBlock + 1) buf count) (fun r t => r = count ∧
        (t.inode o).iSize = (s.inode o).iSize + count ∧
        ((s.inode o).iSize + count ≤ 512 * recordedTo (s.inode o).iSize count → BytesAdded P s t o count buf) ∧
        (recordedTo (s.inode o).iSize count = 12 → blockAddrs t.disk (t.inode o) 12 = 0))
      s.withBlock.withBlock :=
  wp_mono (fileWriteBody_ends fits good small enough file buf) (fun _ _ done => done.2) fun _ out => within out

/-- A sum that has wrapped asks for no more blocks. -/
theorem blocksForWrite_wraps (less : ((s.inode o).iSize + count) % 2 ^ 32 ≤ (s.inode o).iSize) :
    Returns (blocksForWrite P o count) (fun r t => r ≠ none ∧ (t.inode o).iSize = (s.inode o).iSize) s := by
  have table : ∀ lba, Returns (readTable lba) (fun _ t => t = s) s := by
    intro lba
    unfold readTable
    rw [Returns, wp_bind]
    exact wp_ideRead trivial ((wp_pure _).2 rfl)
  unfold blocksForWrite
  rw [Returns, wp_bind, wp_get]
  dsimp only
  rw [wp_bind, wp_assert]
  refine ⟨fun _ => ?_, fun _ => trivial⟩
  generalize ((s.inode o).iSize + count) % 2 ^ 32 = w at less ⊢
  have added : w / 512 + 1 - ((s.inode o).iSize / 512 + 1) = 0 := by omega
  rw [added, wp_ite]
  constructor
  · intro _
    rw [wp_ite]
    refine ⟨fun _ => (wp_pure _).2 ⟨Option.some_ne_none _, rfl⟩, fun _ => ?_⟩
    rw [wp_bind, wp_assert]
    refine ⟨fun _ => ?_, fun _ => trivial⟩
    rw [wp_bind]
    apply wp_post (table _)
    rintro b t rfl
    exact (wp_pure _).2 ⟨Option.some_ne_none _, rfl⟩
  · intro fewer
    rw [wp_ite]
    constructor
    · intro _
      rw [wp_bind, wp_check]
      refine ⟨fun _ => ?_, fun _ => trivial⟩
      rw [wp_bind, wp_assert]
      exact ⟨fun _ => (wp_pure _).2 ⟨Option.some_ne_none _, rfl⟩, fun _ => trivial⟩
    · intro many
      rw [if_neg (by omega), wp_bind, wp_assert]
      refine ⟨fun _ => ?_, fun _ => trivial⟩
      rw [wp_bind]
      apply wp_post (table _)
      rintro b t rfl
      rw [wp_bind]
      refine (wp_pure _).2 ?_
      dsimp only
      rw [wp_bind]
      unfold ideWrite
      rw [wp_bind, wp_assert, wp_bind, wp_assert, wp_modify]
      exact ⟨fun _ => ⟨fun _ => (wp_pure _).2 ⟨Option.some_ne_none _, rfl⟩, fun _ => trivial⟩, fun _ => trivial⟩

/-- What the data loop writes lies within 140 blocks. -/
theorem writeLoop_bound {b : Nat → Nat} (rounds n : Nat) (first : Bool) (src : Buf) :
    Returns (writeLoop o b rounds first src n) (fun _ _ => n = 0 ∨ (s.inode o).iSize + n ≤ 140 * 512) s := by
  induction rounds generalizing s n first src with
  | zero =>
    cases n with
    | zero =>
      unfold writeLoop
      exact (wp_pure _).2 (.inl rfl)
    | succ left =>
      unfold writeLoop
      exact (wp_throw _).2 trivial
  | succ rounds ih =>
    by_cases pos : 0 < n
    · rw [writeLoop_step o b rounds first src pos, Returns, wp_bind, wp_get]
      dsimp only
      rw [wp_bind, wp_check]
      refine ⟨fun inside => ?_, fun _ => trivial⟩
      have read : Returns (if first = true then ideRead (b ((s.inode o).iSize / 512)) 1 else pure fun _ => 0)
          (fun _ u => u = s) s := by
        cases first with
        | true =>
          rw [if_pos rfl]
          exact wp_ideRead trivial rfl
        | false =>
          rw [if_neg (by decide)]
          exact (wp_pure _).2 rfl
      rw [wp_bind]
      apply wp_post read
      rintro io u rfl
      rw [wp_bind]
      unfold ideWrite
      rw [wp_bind, wp_assert, wp_bind, wp_assert, wp_modify]
      refine ⟨fun _ => ⟨fun _ => ?_, fun _ => trivial⟩, fun _ => trivial⟩
      rw [wp_bind, modifyInode, wp_modify]
      apply wp_post (ih _ _ _)
      intro _ _ bound
      rw [FileSys.setInode_self] at bound
      have longer : (u.inode o).iSize + min n (512 - (u.inode o).iSize % 512) +
          (n - min n (512 - (u.inode o).iSize % 512)) ≤ 140 * 512 ∨ n - min n (512 - (u.inode o).iSize % 512) = 0 :=
        bound.symm
      omega
    · unfold writeLoop
      rw [Nat.eq_zero_of_not_pos pos]
      exact (wp_pure _).2 (.inl rfl)

/-- When the sum of size and count wraps, or comes to the limit itself, file_write does not return. -/
theorem fileWriteBody_stuck (fits : P.Fits) (good : FileGood P s fd o) (bound : count < 2 ^ 32)
    (beyond : 140 * 512 ≤ (s.inode o).iSize + count) (admitted : ((s.inode o).iSize + count) % 2 ^ 32 ≤ 512 * 140)
    (file : File) (buf : Buf) :
    Returns (fileWriteBody P fd o file s.nextBlock (s.nextBlock + 1) buf count) (fun r t => r = -1 ∧
        t = s.withBlock.withBlock ∧ (s.inode o).iSectors 0 = 0 ∧ freeCount P s.blockBitmap = 0) s.withBlock.withBlock := by
  have sound : FileSound P s.withBlock.withBlock (s.inode o) :=
    good.sound.carry fits (fun _ => rfl) fun _ _ used => ⟨used.data, used.disk, used.used⟩
  have small := good.sound.size
  unfold fileWriteBody
  rw [Returns, wp_bind]
  apply wp_mono (firstBlock_spec (s := s.withBlock.withBlock) fits good.onDisk sound good.root) ?_ fun _ _ => trivial
  rintro r t (⟨rfl, rfl, new, none⟩ | ⟨rfl, started⟩)
  · rw [if_pos rfl]
    exact (wp_pure _).2 ⟨rfl, rfl, new, none⟩
  · have size : (t.inode o).iSize = (s.inode o).iSize := started.size
    rw [if_neg (by decide), wp_bind]
    by_cases limit : (s.inode o).iSize + count = 140 * 512
    · unfold blocksForWrite
      rw [wp_bind, wp_get]
      dsimp only
      rw [wp_bind, wp_assert, size, limit]
      exact ⟨fun inside => absurd inside (by decide), fun _ => trivial⟩
    · have less : ((t.inode o).iSize + count) % 2 ^ 32 ≤ (t.inode o).iSize := by
        rw [size]
        omega
      apply wp_post (blocksForWrite_wraps less)
      rintro r u ⟨taken, same⟩
      obtain ⟨b, rfl⟩ := Option.ne_none_iff_exists'.1 taken
      dsimp only
      rw [wp_bind, wp_get, wp_bind, setFile, wp_modify, wp_bind]
      apply wp_post (writeLoop_bound _ _ _ _)
      rintro - v inside
      have inside : count = 0 ∨ (u.inode o).iSize + count ≤ 140 * 512 := inside
      omega

end Steps

/-- What is expected of file_write in one state: beyond the limit it fails and changes nothing,
else it writes all bytes. -/
def LimitExact (s : FileSys) (fd o count : Nat) (buf : Buf) : Prop :=
  Succeeds (fileWrite P fd buf count) (fun r t =>
    if 140 * 512 < (s.inode o).iSize + count then r = -1 ∧ t = { s with oracle := t.oracle }
    else r = count ∧ BytesAdded P s t o count buf) s

/-- Beyond the limit the sum does not wrap, or the first buffer cannot be had; within it the
bytes do not come to the limit itself and do not go from the inode's own blocks to one behind
them, there is memory for both buffers, and the slot of the inode lies in one sector. -/
def LimitHolds (s : FileSys) (o count : Nat) : Prop :=
  if 140 * 512 < (s.inode o).iSize + count then (s.inode o).iSize + count < 2 ^ 32 ∨ ¬ MallocOk s
  else (s.inode o).iSize + count ≠ 140 * 512 ∧ (12 * 512 ≤ (s.inode o).iSize ∨ (s.inode o).iSize + count ≤ 12 * 512) ∧
    MallocOk s ∧ MallocOk s.withBlock ∧ ¬ SlotStraddles s o

section Limit
variable {P} {s : FileSys} {fd o count : Nat} {buf : Buf}

/-- With enough free blocks file_write keeps its limit exactly under these conditions. -/
theorem file_write_limit (fits : P.Fits) (good : FileGood P s fd o) (bound : count < 2 ^ 32)
    (enough : (s.inode o).iSize + count ≤ 140 * 512 → neededBlocks (s.inode o) count ≤ freeCount P s.blockBitmap) :
    LimitExact P s fd o count buf ↔ LimitHolds s o count := by
  have small := good.sound.size
  unfold LimitExact LimitHolds
  rw [Succeeds, wp_fileWrite good.slot good.opened]
  by_cases beyond : 140 * 512 < (s.inode o).iSize + count
  · simp only [if_pos beyond]
    by_cases wraps : (s.inode o).iSize + count < 2 ^ 32
    · rw [Nat.mod_eq_of_lt wraps, if_pos (by omega)]
      exact ⟨fun _ => .inl wraps, fun _ => ⟨trivial, trivial⟩⟩
    · rw [if_neg (by omega)]
      by_cases first : MallocOk s
      · rw [if_pos first]
        refine ⟨fun run => ?_, fun holds => (holds.elim wraps fun fails => fails first).elim⟩
        by_cases second : MallocOk s.withBlock
        · rw [if_pos second] at run
          obtain ⟨r, t, ends, -⟩ := succeeds_iff.1 run
          have stuck := returns_iff.1 (fileWriteBody_stuck fits good bound (by omega) (by omega) _ buf) r t ends
          have empty := good.sound.new stuck.2.2.1
          omega
        · rw [if_neg second, FileSys.afterMalloc, if_neg second] at run
          -- the first buffer is not given back
          have live : s.nextBlock :: s.live = s.live := congrArg FileSys.live run.2
          have longer := congrArg List.length live
          rw [List.length_cons] at longer
          omega
      · rw [if_neg first]
        refine ⟨fun _ => .inr first, fun _ => ⟨trivial, ?_⟩⟩
        rw [FileSys.afterMalloc, if_neg first]
  · have admitted : ((s.inode o).iSize + count) % 2 ^ 32 ≤ 512 * 140 := by
      rw [Nat.mod_eq_of_lt (by omega)]
      omega
    simp only [if_neg beyond]
    rw [if_neg (Nat.not_lt.2 admitted)]
    by_cases first : MallocOk s
    · rw [if_pos first]
      by_cases second : MallocOk s.withBlock
      · rw [if_pos second]
        by_cases limit : (s.inode o).iSize + count = 140 * 512
        · refine ⟨fun run => ?_, fun holds => (holds.1 limit).elim⟩
          obtain ⟨r, t, ends, result, -⟩ := succeeds_iff.1 run
          have stuck := returns_iff.1 (fileWriteBody_stuck fits good bound (by omega) admitted _ buf) r t ends
          have failed := stuck.1
          omega
        · have spec := fileWriteBody_ends fits good (by omega) (enough (by omega)) (s.fileTable fd) buf
          refine ⟨fun run => ?_, fun holds => wp_mono spec ?_ fun _ out => holds.2.2.2.2 out⟩
          · have ended := wp_mono spec (fun _ _ done => done) fun _ _ => trivial
            obtain ⟨r, t, -, ⟨-, wrote⟩, within, -, -, -, lost⟩ := succeeds_iff.1 (Succeeds.and_returns run ended)
            refine ⟨limit, ?_, first, second, within⟩
            by_contra crossing
            have behind : recordedTo (s.inode o).iSize count = 12 := if_pos (by omega)
            exact (wrote.blocks 12 (by omega)).ne_zero fits (lost behind)
          · rintro r t ⟨-, result, -, wrote, -⟩
            refine ⟨result, wrote ?_⟩
            have own := holds.2.1
            unfold recordedTo
            split <;> omega
      · rw [if_neg second]
        refine ⟨fun run => ?_, fun holds => (second holds.2.2.2.1).elim⟩
        have result := run.1
        omega
    · rw [if_neg first]
      refine ⟨fun run => ?_, fun holds => (first holds.2.2.1).elim⟩
      have result := run.1
      omega

end Limit

/-- What a failed write is to leave alone. -/
structure Untouched (s t : FileSys) (o : Nat) : Prop where
  size : (t.inode o).iSize = (s.inode o).iSize
  sectors : ∀ k < 13, (t.inode o).iSectors k = (s.inode o).iSectors k
  bitmap : t.blockBitmap = s.blockBitmap
  bitmapSectors : ∀ k < P.blockBitmapSects, sector t.disk (P.blockBitmapLba + k) = sector s.disk (P.blockBitmapLba + k)
  table : (s.inode o).iSectors 12 ≠ 0 → sector t.disk ((s.inode o).iSectors 12) = sector s.disk ((s.inode o).iSectors 12)

/-- A later state with the same file: blocks on the disk have been freed, but none of the file and
not that of the root directory. -/
structure Freed (t u : FileSys) (o : Nat) : Prop where
  inode : u.inode o = t.inode o
  fileTable : u.fileTable = t.fileTable
  openInodes : u.openInodes = t.openInodes
  table : (t.inode o).iSectors 12 ≠ 0 → sector u.disk ((t.inode o).iSectors 12) = sector t.disk ((t.inode o).iSectors 12)
  marks : ∀ bit, bit = 0 ∨ Owned t.disk (t.inode o) (P.dataStartLba + bit) → u.blockBitmap bit = t.blockBitmap bit
  onDisk : FreeOnDisk P u

/-- What is expected of file_write when it fails: nothing has changed, and once there are enough
free blocks the file can be written to. -/
def WriteAtomic (s : FileSys) (fd o count : Nat) (buf : Buf) : Prop :=
  Returns (fileWrite P fd buf count) (fun r t => r = -1 → Untouched P s t o ∧ ∀ u count' buf', Freed P t u o →
    (u.inode o).iSize + count' < 140 * 512 → neededBlocks (u.inode o) count' ≤ freeCount P u.blockBitmap →
    MallocOk u → MallocOk u.withBlock → Succeeds (fileWrite P fd buf' count') (fun r _ => r = count') u) s

/-- Some blocks are free, but not as many as the write needs. -/
def RunsOut (s : FileSys) (o count : Nat) : Prop :=
  (s.inode o).iSize + count < 140 * 512 ∧ MallocOk s ∧ MallocOk s.withBlock ∧ 0 < freeCount P s.blockBitmap ∧
    freeCount P s.blockBitmap < neededBlocks (s.inode o) count

/-- The sum is beyond the limit, there is no memory for a buffer, or the write needs a block and
none is free: it fails at once. -/
def Refused (s : FileSys) (o count : Nat) : Prop :=
  512 * 140 < ((s.inode o).iSize + count) % 2 ^ 32 ∨ ¬ MallocOk s ∨ ¬ MallocOk s.withBlock ∨
    freeCount P s.blockBitmap = 0 ∧ ((s.inode o).iSectors 0 = 0 ∨
      (s.inode o).iSize + count < 140 * 512 ∧ 0 < addedBlocks (s.inode o).iSize count)

/-- The file is below the limit, and it has a block or the disk has one for it behind that of the
root directory. -/
def Extensible (i : Inode) : Prop := i.iSize < 140 * 512 ∧ (i.iSectors 0 ≠ 0 ∨ P.dataStartLba < maxLba)

/-- A write fails at once, and a later one is to overrun the buffer it hands to inode_sync. -/
def OverrunLater (s : FileSys) (o count : Nat) : Prop :=
  SlotStraddles s o ∧ Refused P s o count ∧ Extensible P (s.inode o)

section Failure
variable {P} {s t : FileSys} {fd o count : Nat} {buf : Buf}

/-- The file and the bitmap are the same, and so are the open files. -/
structure FileSame (s t : FileSys) : Prop where
  disk : t.disk = s.disk
  bitmap : t.blockBitmap = s.blockBitmap
  inode : t.inode = s.inode
  fileTable : t.fileTable = s.fileTable
  openInodes : t.openInodes = s.openInodes

theorem FileSame.afterMalloc (s : FileSys) : FileSame s s.afterMalloc := by
  unfold FileSys.afterMalloc
  split
  · exact ⟨rfl, rfl, rfl, rfl, rfl⟩
  · exact ⟨rfl, rfl, rfl, rfl, rfl⟩

theorem FileSame.untouched (h : FileSame s t) : Untouched P s t o := by
  refine ⟨?_, fun k _ => ?_, h.bitmap, fun k _ => ?_, fun _ => ?_⟩
  · rw [h.inode]
  · rw [h.inode]
  · rw [h.disk]
  · rw [h.disk]

/-- The file is as consistent as it was. -/
theorem FileGood.later (fits : P.Fits) (good : FileGood P s fd o) {u : FileSys} (h : FileSame s t) (freed : Freed P t u o) :
    FileGood P u fd o := by
  have inode : u.inode o = s.inode o := by rw [freed.inode, h.inode]
  have marks : ∀ bit, bit = 0 ∨ Owned s.disk (s.inode o) (P.dataStartLba + bit) →
      u.blockBitmap bit = s.blockBitmap bit := by
    intro bit kept
    rw [← h.bitmap]
    apply freed.marks
    rwa [h.disk, h.inode]
  refine ⟨?_, ?_, ?_, freed.onDisk, ?_⟩
  · rw [freed.fileTable, h.fileTable]
    exact good.slot
  · rw [freed.openInodes, h.openInodes]
    exact good.opened
  · rw [inode]
    apply good.sound.carry fits
    · intro there
      have table := freed.table
      rw [h.inode, h.disk] at table
      exact table there
    · intro lba owned used
      have back : P.dataStartLba + (lba - P.dataStartLba) = lba := Nat.add_sub_of_le used.data
      refine ⟨used.data, used.disk, ?_⟩
      rw [marks _ (.inr (back.symm ▸ owned))]
      exact used.used
  · rw [marks 0 (.inl rfl)]
    exact good.root

theorem fileWrite_ends (fits : P.Fits) (good : FileGood P s fd o) (small : (s.inode o).iSize + count < 140 * 512)
    (enough : neededBlocks (s.inode o) count ≤ freeCount P s.blockBitmap) (first : MallocOk s)
    (second : MallocOk s.withBlock) :
    wp (fileWrite P fd buf count) (fun r _ => ¬ SlotStraddles s o ∧ r = count) (fun _ => SlotStraddles s o) s := by
  have admitted : ((s.inode o).iSize + count) % 2 ^ 32 ≤ 512 * 140 := by
    rw [Nat.mod_eq_of_lt (by omega)]
    omega
  rw [wp_fileWrite good.slot good.opened, if_neg (Nat.not_lt.2 admitted), if_pos first, if_pos second]
  apply wp_post (fileWriteBody_ends fits good small enough (s.fileTable fd) buf)
  rintro r t ⟨within, result, -⟩
  exact ⟨within, result⟩

/-- With too few free blocks all of them are taken before the write fails. -/
theorem fileWriteBody_full (fits : P.Fits) (good : FileGood P s fd o) (small : (s.inode o).iSize + count < 140 * 512)
    (few : freeCount P s.blockBitmap < neededBlocks (s.inode o) count) (file : File) (buf : Buf) :
    wp (fileWriteBody P fd o file s.nextBlock (s.nextBlock + 1) buf count) (fun r t => r = -1 ∧
        freeCount P t.blockBitmap = 0 ∧ (freeCount P s.blockBitmap = 0 → t = s.withBlock.withBlock))
      (fun _ => P.scanAsserts = true) s.withBlock.withBlock := by
  have sound : FileSound P s.withBlock.withBlock (s.inode o) :=
    good.sound.carry fits (fun _ => rfl) fun _ _ used => ⟨used.data, used.disk, used.used⟩
  unfold fileWriteBody
  rw [wp_bind]
  apply wp_mono (firstBlock_spec (s := s.withBlock.withBlock) fits good.onDisk sound good.root)
  · rintro r t (⟨rfl, rfl, -, none⟩ | ⟨rfl, started⟩)
    · rw [if_pos rfl]
      exact (wp_pure _).2 ⟨rfl, none, fun _ => rfl⟩
    · have size : (t.inode o).iSize = (s.inode o).iSize := started.size
      have left : freeCount P t.blockBitmap + (if (s.inode o).iSectors 0 = 0 then 1 else 0) = freeCount P s.blockBitmap :=
        started.count
      rw [← size] at small
      rw [neededBlocks, ← size] at few
      rw [if_neg (by decide), wp_bind]
      apply wp_mono (blocksForWrite_spec fits started.onDisk started.sound started.there small)
      · rintro r u outcome
        cases outcome with
        | full u less all same =>
          refine (wp_pure _).2 ⟨rfl, all, fun zero => ?_⟩
          have there : (s.inode o).iSectors 0 ≠ 0 := by
            intro new
            rw [if_pos new] at left
            omega
          have start := started.same there
          rw [same (by omega), start]
        | ready u b enough _ => omega
      · rintro f ⟨on, -⟩
        exact on
  · rintro f ⟨on, -⟩
    exact on

/-- file_write fails without a trace, unless some blocks are free but too few. -/
theorem fileWrite_untouched (fits : P.Fits) (good : FileGood P s fd o) (bound : count < 2 ^ 32) (holds : ¬ RunsOut P s o count) :
    Returns (fileWrite P fd buf count) (fun r t => r = -1 → FileSame s t ∧ Refused P s o count) s := by
  rw [Returns, wp_fileWrite good.slot good.opened]
  have start : FileSame s s.withBlock.withBlock := ⟨rfl, rfl, rfl, rfl, rfl⟩
  split
  · next beyond => exact fun _ => ⟨⟨rfl, rfl, rfl, rfl, rfl⟩, .inl beyond⟩
  · next admitted =>
    by_cases first : MallocOk s
    · rw [if_pos first]
      by_cases second : MallocOk s.withBlock
      · rw [if_pos second]
        by_cases small : (s.inode o).iSize + count < 140 * 512
        · by_cases enough : neededBlocks (s.inode o) count ≤ freeCount P s.blockBitmap
          · have spec := fileWriteBody_ends fits good small enough (s.fileTable fd) buf
            apply wp_mono spec ?_ fun _ _ => trivial
            rintro r t ⟨-, result, -⟩ failed
            omega
          · have none : freeCount P s.blockBitmap = 0 := by
              by_contra some_free
              exact holds ⟨small, first, second, Nat.pos_of_ne_zero some_free, Nat.lt_of_not_le enough⟩
            have spec := fileWriteBody_full fits good small (Nat.lt_of_not_le enough) (s.fileTable fd) buf
            apply wp_mono spec ?_ fun _ _ => trivial
            rintro r t ⟨-, -, same⟩ -
            rw [same none]
            refine ⟨start, .inr (.inr (.inr ⟨none, ?_⟩))⟩
            by_cases new : (s.inode o).iSectors 0 = 0
            · exact .inl new
            · rw [neededBlocks, if_neg new] at enough
              exact .inr ⟨small, by omega⟩
        · apply wp_post (fileWriteBody_stuck fits good bound (Nat.le_of_not_lt small) (by omega) _ buf)
          rintro r t ⟨-, rfl, new, none⟩ -
          exact ⟨start, .inr (.inr (.inr ⟨none, .inl new⟩))⟩
      · rw [if_neg second]
        have after := FileSame.afterMalloc s.withBlock
        exact fun _ => ⟨⟨after.disk, after.bitmap, after.inode, after.fileTable, after.openInodes⟩, .inr (.inr (.inl second))⟩
    · rw [if_neg first]
      exact fun _ => ⟨.afterMalloc s, .inr (.inl first)⟩

theorem Refused.fails (fits : P.Fits) (quiet : P.scanAsserts = false) (good : FileGood P s fd o)
    (refused : Refused P s o count) : Succeeds (fileWrite P fd buf count) (fun r _ => r = -1) s := by
  rw [Succeeds, wp_fileWrite good.slot good.opened]
  split
  · rfl
  · next admitted =>
    by_cases first : MallocOk s
    · rw [if_pos first]
      by_cases second : MallocOk s.withBlock
      · rw [if_pos second]
        have asserts : ∀ f : Fault, P.scanAsserts = true → False := fun _ on => absurd on (by simp [quiet])
        obtain beyond | fails | fails | ⟨none, new | ⟨small, more⟩⟩ := refused
        · exact (admitted beyond).elim
        · exact (fails first).elim
        · exact (fails second).elim
        · have sound : FileSound P s.withBlock.withBlock (s.inode o) :=
            good.sound.carry fits (fun _ => rfl) fun _ _ used => ⟨used.data, used.disk, used.used⟩
          unfold fileWriteBody
          rw [wp_bind]
          apply wp_mono (firstBlock_spec (s := s.withBlock.withBlock) fits good.onDisk sound good.root) ?_
            fun f out => asserts f out.1
          rintro r t (⟨rfl, -, -, -⟩ | ⟨-, started⟩)
          · rw [if_pos rfl]
            exact (wp_pure _).2 rfl
          · have left : freeCount P t.blockBitmap + (if (s.inode o).iSectors 0 = 0 then 1 else 0) = freeCount P s.blockBitmap :=
              started.count
            rw [if_pos new] at left
            omega
        · have few : freeCount P s.blockBitmap < neededBlocks (s.inode o) count := by
            rw [neededBlocks]
            omega
          exact wp_mono (fileWriteBody_full fits good small few (s.fileTable fd) buf) (fun _ _ done => done.1) asserts
      · rw [if_neg second]
    · rw [if_neg first]

theorem RunsOut.not_atomic (fits : P.Fits) (quiet : P.scanAsserts = false) (good : FileGood P s fd o)
    (out : RunsOut P s o count) : ¬ WriteAtomic P s fd o count buf := by
  obtain ⟨small, first, second, some_free, few⟩ := out
  intro atomic
  have admitted : ((s.inode o).iSize + count) % 2 ^ 32 ≤ 512 * 140 := by
    rw [Nat.mod_eq_of_lt (by omega)]
    omega
  have run : Succeeds (fileWrite P fd buf count) (fun r t => r = -1 ∧ freeCount P t.blockBitmap = 0) s := by
    rw [Succeeds, wp_fileWrite good.slot good.opened, if_neg (Nat.not_lt.2 admitted), if_pos first, if_pos second]
    apply wp_mono (fileWriteBody_full fits good small few (s.fileTable fd) buf)
    · rintro r t ⟨failed, none, -⟩
      exact ⟨failed, none⟩
    · intro f on
      rw [quiet] at on
      cases on
  obtain ⟨r, t, ends, failed, none⟩ := succeeds_iff.1 run
  have same := (returns_iff.1 atomic r t ends failed).1.bitmap
  rw [same] at none
  omega

/-- The same file with memory for the buffers, and with a free block when it has none. -/
def laterState (s : FileSys) (o : Nat) : FileSys :=
  { s with
    blockBitmap := if (s.inode o).iSectors 0 = 0 then Function.update s.blockBitmap 1 false else s.blockBitmap
    oracle := fun _ => 1
    live := [] }

theorem Partition.Fits.sects_pos (fits : P.Fits) : 0 < P.blockBitmapSects := by
  obtain ⟨boot, room, inside⟩ := fits
  simp only [maxLba] at inside
  have free : P.freeSects = P.secCnt - 611 := by
    simp only [Partition.freeSects, Partition.usedSects, Partition.inodeBitmapSects, Partition.inodeTableSects]
    omega
  have bits : 1 ≤ P.blockBitmapBitLen ∧ P.blockBitmapBitLen ≤ P.secCnt := by
    simp only [Partition.blockBitmapBitLen, free, divRoundUp]
    rw [Nat.mod_eq_of_lt (by omega)]
    omega
  rw [Partition.blockBitmapSects, divRoundUp, Nat.mod_eq_of_lt (by omega)]
  omega

theorem laterState_freed (good : FileGood P s fd o) (h : FileSame s t) (more : Extensible P (s.inode o)) :
    Freed P t (laterState s o) o := by
  refine ⟨congrFun h.inode.symm o, h.fileTable.symm, h.openInodes.symm, fun _ => by rw [h.disk]; rfl, ?_, ?_⟩
  · intro bit kept
    rw [h.bitmap]
    rw [h.disk, h.inode] at kept
    by_cases new : (s.inode o).iSectors 0 = 0
    · have size := good.sound.new new
      have none_behind : (s.inode o).iSectors 12 = 0 := by
        by_contra there
        have := good.sound.table.1 there
        omega
      have nothing : ∀ lba, ¬ Owned s.disk (s.inode o) lba := by
        rintro lba ⟨there, rfl | ⟨k, room, rfl⟩⟩
        · exact there none_behind
        · by_cases own : k < 12
          · rw [blockAddrs_direct own] at there
            by_cases first : k = 0
            · exact there (first ▸ new)
            · exact there (good.sound.unused k own (by omega))
          · rw [blockAddrs, if_neg own, if_neg (by simp [none_behind])] at there
            exact there rfl
      have root : bit = 0 := kept.resolve_right (nothing _)
      show (if (s.inode o).iSectors 0 = 0 then Function.update s.blockBitmap 1 false else s.blockBitmap) bit = _
      rw [if_pos new, root]
      exact Function.update_of_ne (by decide) ..
    · exact congrFun (if_neg new) bit
  · rintro bit ⟨low, clear⟩
    by_cases new : (s.inode o).iSectors 0 = 0
    · have bits : (laterState s o).blockBitmap = Function.update s.blockBitmap 1 false := if_pos new
      rw [bits] at clear
      by_cases one : bit = 1
      · have disk := more.2.resolve_left fun started => started new
        omega
      · rw [Function.update_of_ne one] at clear
        exact good.onDisk bit ⟨low, clear⟩
    · have bits : (laterState s o).blockBitmap = s.blockBitmap := if_neg new
      rw [bits] at clear
      exact good.onDisk bit ⟨low, clear⟩

theorem laterState_enough (fits : P.Fits) :
    neededBlocks ((laterState s o).inode o) 0 ≤ freeCount P (laterState s o).blockBitmap := by
  have inode : (laterState s o).inode o = s.inode o := rfl
  have none_added : addedBlocks (s.inode o).iSize 0 = 0 := by
    rw [addedBlocks, if_neg (by omega), Nat.add_zero, Nat.add_zero, Nat.sub_self]
  rw [inode, neededBlocks, none_added]
  by_cases new : (s.inode o).iSectors 0 = 0
  · have bits : (laterState s o).blockBitmap = Function.update s.blockBitmap 1 false := if_pos new
    have some_free : freeCount P (laterState s o).blockBitmap ≠ 0 := by
      intro zero
      have sects := fits.sects_pos
      exact freeCount_zero.1 zero 1 ⟨by omega, by rw [bits]; exact Function.update_self ..⟩
    rw [if_pos new]
    omega
  · rw [if_neg new]
    exact Nat.zero_le _

theorem OverrunLater.not_atomic (fits : P.Fits) (quiet : P.scanAsserts = false) (good : FileGood P s fd o)
    (bound : count < 2 ^ 32) (later : OverrunLater P s o count) : ¬ WriteAtomic P s fd o count buf := by
  obtain ⟨straddles, refused, more⟩ := later
  intro atomic
  by_cases out : RunsOut P s o count
  · exact out.not_atomic fits quiet good atomic
  · have fails : Succeeds (fileWrite P fd buf count) (fun r _ => r = -1) s := refused.fails fits quiet good
    obtain ⟨r, t, run, failed, untouched⟩ := succeeds_iff.1 (fails.and_returns (fileWrite_untouched fits good bound out))
    have same := (untouched failed).1
    have freed := laterState_freed good same more
    have first : MallocOk (laterState s o) := ⟨Nat.one_ne_zero, Nat.two_pow_pos 28⟩
    have second : MallocOk (laterState s o).withBlock := ⟨Nat.one_ne_zero, (by decide : 1 < 2 ^ 28)⟩
    have writes := (returns_iff.1 atomic r t run failed).2 (laterState s o) 0 buf freed more.1 (laterState_enough fits)
      first second
    have ends : Returns (fileWrite P fd buf 0) (fun r _ => ¬ SlotStraddles (laterState s o) o ∧ r = (0 : Nat)) (laterState s o) :=
      wp_mono (fileWrite_ends fits (good.later fits same freed) more.1 (laterState_enough fits) first second)
        (fun _ _ done => done) fun _ _ => trivial
    obtain ⟨_, _, -, -, within, -⟩ := succeeds_iff.1 (writes.and_returns ends)
    exact within straddles

/-- A file that has no block, on a disk without one for it, is not written to later. -/
theorem Freed.none_free (good : FileGood P s fd o) {u : FileSys} (same : FileSame s t) (freed : Freed P t u o)
    (full : ¬ P.dataStartLba < maxLba) : freeCount P u.blockBitmap = 0 := by
  refine freeCount_zero.2 fun bit free => ?_
  have low := freed.onDisk bit free
  obtain rfl : bit = 0 := by omega
  have marked : u.blockBitmap 0 = true := by
    rw [freed.marks 0 (.inl rfl), same.bitmap]
    exact good.root
  have clear := free.2
  rw [marked] at clear
  cases clear

/-- file_write is atomic on failure exactly if the free blocks are enough or there are none, and
no failed write is to be followed by one that overruns its buffer. -/
theorem file_write_atomic (fits : P.Fits) (quiet : P.scanAsserts = false) (good : FileGood P s fd o) (bound : count < 2 ^ 32) :
    WriteAtomic P s fd o count buf ↔ ¬ RunsOut P s o count ∧ ¬ OverrunLater P s o count := by
  constructor
  · intro atomic
    exact ⟨fun out => out.not_atomic fits quiet good atomic, fun later => later.not_atomic fits quiet good bound atomic⟩
  · rintro ⟨holds, fine⟩
    apply wp_post (fileWrite_untouched fits good bound holds)
    rintro r t same failed
    obtain ⟨same, refused⟩ := same failed
    refine ⟨same.untouched, fun u count' buf' freed small enough first second => ?_⟩
    have inode : u.inode o = s.inode o := by rw [freed.inode, same.inode]
    have within : ¬ SlotStraddles u o := by
      intro straddles
      rw [SlotStraddles, inode] at straddles
      refine fine ⟨straddles, refused, by rw [← inode]; omega, ?_⟩
      by_contra none
      rw [not_or, not_not] at none
      have zero := freed.none_free good same none.2
      rw [neededBlocks, inode, if_pos none.1] at enough
      omega
    exact wp_mono (fileWrite_ends fits (good.later fits same freed) small enough first second)
      (fun _ _ done => done.2) fun _ out => within out

end Failure

/-- A file of ten bytes, on a disk with blocks to spare. -/
def oneFile : FileSys :=
  { blank with
    openInodes := [0]
    inode := fun _ => ⟨5, 10, 1, false, fun k => if k = 0 then 700 else 0⟩
    fileTable := fun _ => ⟨0, 1, some 0⟩
    blockBitmap := fun bit => decide (bit = 0 ∨ 87 ≤ bit)
    oracle := fun _ => 1 }

theorem oneFile_good : FileGood somePartition oneFile 3 0 := by
  refine ⟨rfl, List.mem_cons_self, ?_, ?_, rfl⟩
  · have sole : ∀ k ≤ (oneFile.inode 0).iSize / 512, k = 0 := fun k hk => Nat.le_zero.1 hk
    refine ⟨by decide, fun none => absurd none (by decide), ?_, ?_, by decide, fun there => absurd rfl there, ?_, ?_⟩
    · intro _ k hk _
      rw [sole k hk]
      exact ⟨by decide, by decide, by decide⟩
    · intro k _ behind
      have other : k ≠ 0 := Nat.pos_iff_ne_zero.1 behind
      exact if_neg other
    · intro k _ _ there
      exact there
    · intro j hj _ k hk _ _ _
      rw [sole j hj, sole k hk]
  · rintro bit ⟨-, clear⟩
    have low : ¬ (bit = 0 ∨ 87 ≤ bit) := of_decide_eq_false clear
    have room : 613 + 86 ≤ maxLba := by decide
    have start : somePartition.dataStartLba = 613 := rfl
    omega

theorem file_write_limit_five : LimitExact somePartition oneFile 3 0 5 (fun _ => 1) :=
  (file_write_limit somePartition_fits oneFile_good (by decide) fun _ => Nat.zero_le _).2
    ⟨by decide, by decide, by decide, by decide⟩

/-- The sum of 10 and 2^32 - 5 is taken for 5, and the write runs off the end of all_blocks. -/
theorem write_limit_wraps : FileGood somePartition oneFile 3 0 ∧ ¬ LimitExact somePartition oneFile 3 0 (2 ^ 32 - 5) fun _ => 1 := by
  refine ⟨oneFile_good, fun exact_limit => ?_⟩
  rw [LimitExact, Succeeds, wp_fileWrite oneFile_good.slot oneFile_good.opened, if_neg (by decide), if_pos (by decide),
    if_pos (by decide)] at exact_limit
  obtain ⟨r, t, ends, -⟩ := succeeds_iff.1 exact_limit
  have stuck := returns_iff.1 (fileWriteBody_stuck somePartition_fits oneFile_good (by decide) (by decide) (by decide) _ _) r t ends
  exact absurd stuck.2.2 (by decide)

/-- The same file with no free block. -/
def fullDisk : FileSys := { oneFile with blockBitmap := fun _ => true }

theorem fullDisk_good : FileGood somePartition fullDisk 3 0 where
  slot := rfl
  opened := List.mem_cons_self
  sound := oneFile_good.sound.carry somePartition_fits (fun _ => rfl) fun _ _ used => ⟨used.data, used.disk, rfl⟩
  onDisk _ free := absurd free.2 Bool.false_ne_true.symm
  root := rfl

/-- A write that needs two more blocks fails and leaves all as it was. -/
theorem file_write_atomic_full : WriteAtomic somePartition fullDisk 3 0 1100 (fun _ => 1) ∧
    Succeeds (fileWrite somePartition 3 (fun _ => 1) 1100) (fun r _ => r = -1) fullDisk := by
  have none_free : freeCount somePartition fullDisk.blockBitmap = 0 := by
    rw [freeCount, Finset.card_eq_zero, Finset.filter_eq_empty_iff]
    exact fun _ _ clear => absurd clear Bool.false_ne_true.symm
  have refused : Refused somePartition fullDisk 0 1100 := .inr (.inr (.inr ⟨none_free, .inr ⟨by decide, by decide⟩⟩))
  refine ⟨(file_write_atomic somePartition_fits rfl fullDisk_good (by decide)).2 ⟨?_, ?_⟩,
    refused.fails somePartition_fits rfl fullDisk_good⟩
  · rintro ⟨-, -, -, some_free, -⟩
    exact absurd none_free (Nat.ne_of_gt some_free)
  · rintro ⟨straddles, -⟩
    exact absurd straddles (by decide)

/-- The same file, with the bit 5 the only one that is clear. -/
def lastBlock : FileSys := { oneFile with blockBitmap := fun bit => decide (bit ≠ 5) }

theorem lastBlock_good : FileGood somePartition lastBlock 3 0 where
  slot := rfl
  opened := List.mem_cons_self
  sound := oneFile_good.sound.carry somePartition_fits (fun _ => rfl) fun lba _ used => by
    have more : ∀ bit, oneFile.blockBitmap bit = true → lastBlock.blockBitmap bit = true := by
      intro bit marked
      have high : bit = 0 ∨ 87 ≤ bit := of_decide_eq_true marked
      exact decide_eq_true (by omega)
    exact ⟨used.data, used.disk, more _ used.used⟩
  onDisk bit free := by
    have clear : lastBlock.blockBitmap bit = false := free.2
    have sole : bit = 5 := by simpa [lastBlock] using clear
    rw [sole]
    decide
  root := rfl

/-- A write that needs two blocks takes the last one and fails. -/
theorem failed_write_keeps_block : FileGood somePartition lastBlock 3 0 ∧
    ¬ WriteAtomic somePartition lastBlock 3 0 1100 fun _ => 1 := by
  have one : freeCount somePartition lastBlock.blockBitmap = 1 := by
    rw [freeCount, Finset.card_eq_one]
    refine ⟨5, Finset.ext fun bit => ?_⟩
    have clear : lastBlock.blockBitmap bit = false ↔ bit = 5 := by
      simp only [lastBlock, decide_eq_false_iff_not, not_not]
    rw [Finset.mem_filter, Finset.mem_range, Finset.mem_singleton, clear]
    refine ⟨And.right, fun five => ⟨?_, five⟩⟩
    rw [five]
    decide
  have needed : neededBlocks (lastBlock.inode 0) 1100 = 2 := by decide
  refine ⟨lastBlock_good, RunsOut.not_atomic somePartition_fits rfl lastBlock_good ?_⟩
  refine ⟨by decide, by decide, by decide, ?_, ?_⟩
  · rw [one]
    decide
  · rw [one, needed]
    decide

end Zhenxiang.Fs
