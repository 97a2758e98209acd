import Zhenxiang.Fs.FileGrow

/-! file_write against the bytes of the file. -/
namespace Zhenxiang.Fs
open Lib Kernel

variable (P : Partition)

/-- A file whose blocks 0 .. i_size / 512 are allocated and no others, or one that has never
been written to. -/
structure FileSound (s : FileSys) (i : Inode) : Prop where
  size : i.iSize ≤ 140 * 512
  new : i.iSectors 0 = 0 → i.iSize = 0
  used : i.iSectors 0 ≠ 0 → ∀ k ≤ i.iSize / 512, k < 140 → BlockUsed P s (blockAddrs s.disk i k)
  unused : ∀ k < 12, i.iSize / 512 < k → i.iSectors k = 0
  table : i.iSectors 12 ≠ 0 ↔ 12 ≤ i.iSize / 512
  tableUsed : i.iSectors 12 ≠ 0 → BlockUsed P s (i.iSectors 12)
  apart : ∀ k ≤ i.iSize / 512, k < 140 → blockAddrs s.disk i k ≠ 0 → blockAddrs s.disk i k ≠ i.iSectors 12
  once : ∀ j ≤ i.iSize / 512, j < 140 → ∀ k ≤ i.iSize / 512, k < 140 → blockAddrs s.disk i j ≠ 0 →
    blockAddrs s.disk i j = blockAddrs s.disk i k → j = k

/-- The positions whose blocks file_write records: with blocks of its own before the call and
indirect ones behind it, only those of its own. -/
def recordedTo (size count : Nat) : Nat := if size / 512 < 12 ∧ 12 ≤ (size + count) / 512 then 12 else 140

/-- The blocks that a file with blocks needs for count bytes more. -/
def addedBlocks (size count : Nat) : Nat :=
  (size + count) / 512 - size / 512 + if size / 512 < 12 ∧ 12 ≤ (size + count) / 512 then 1 else 0

/-- Behind the allocations: all_blocks holds the blocks from the last old one on, up to the
position limit, where they are recorded. -/
structure WriteReady (s t : FileSys) (o count limit : Nat) (b : Nat → Nat) : Prop where
  frame : t = s.patch t.blockBitmap t.disk o (t.inode o)
  number : (t.inode o).iNo = (s.inode o).iNo
  size : (t.inode o).iSize = (s.inode o).iSize
  used : ∀ k ≤ ((s.inode o).iSize + count) / 512, k < limit → BlockUsed P t (blockAddrs t.disk (t.inode o) k)
  once : ∀ j ≤ ((s.inode o).iSize + count) / 512, j < limit → ∀ k ≤ ((s.inode o).iSize + count) / 512, k < limit →
    blockAddrs t.disk (t.inode o) j = blockAddrs t.disk (t.inode o) k → j = k
  apart : ∀ k ≤ ((s.inode o).iSize + count) / 512, k < limit →
    blockAddrs t.disk (t.inode o) k ≠ (t.inode o).iSectors 12
  kept : ∀ k ≤ (s.inode o).iSize / 512, sector t.disk (blockAddrs t.disk (t.inode o) k) =
    sector s.disk (blockAddrs s.disk (s.inode o) k)
  table : (t.inode o).iSectors 12 ≠ 0 → BlockUsed P t ((t.inode o).iSectors 12)
  blocks : ∀ k, (s.inode o).iSize / 512 ≤ k → k ≤ ((s.inode o).iSize + count) / 512 → k < limit →
    b k = blockAddrs t.disk (t.inode o) k
  lost : limit = 12 → (t.inode o).iSectors 12 ≠ 0 ∧ ∀ k, 12 ≤ k → b k = 0 ∧
    (k < 140 → blockAddrs t.disk (t.inode o) k = 0)

section Ready
variable {P} {s t : FileSys} {o count : Nat}

theorem BlockUsed.mark {all : List Nat} {lba : Nat} {d : Buf} {i : Inode} (used : BlockUsed P s lba) :
    BlockUsed P (s.patch (markBits s.blockBitmap all) d o i) lba where
  data := used.data
  disk := used.disk
  used := by
    have set := used.used
    show markBits s.blockBitmap all (lba - P.dataStartLba) = true
    rw [markBits, set, Bool.true_or]

theorem blockUsed_new (onDisk : FreeOnDisk P s) {all : List Nat} (free : FreeBits P s all) {bit : Nat}
    (mem : bit ∈ all) {d : Buf} {i : Inode} :
    BlockUsed P (s.patch (markBits s.blockBitmap all) d o i) (P.dataStartLba + bit) where
  data := Nat.le_add_right _ _
  disk := onDisk _ (free.free bit mem)
  used := by
    show markBits s.blockBitmap all (P.dataStartLba + bit - P.dataStartLba) = true
    rw [Nat.add_sub_cancel_left, markBits, decide_eq_true mem, Bool.or_true]

/-- What follows from the addresses: the old ones, and behind them new blocks one after the
other. -/
theorem WriteReady.of_addrs (fits : P.Fits) (onDisk : FreeOnDisk P s) (sound : FileSound P s (s.inode o))
    (started : (s.inode o).iSectors 0 ≠ 0) (small : (s.inode o).iSize + count < 140 * 512) {limit : Nat}
    (old : (s.inode o).iSize / 512 < limit)
    {all new : List Nat} (free : FreeBits P s all) (sub : new.Sublist all)
    (len : new.length = ((s.inode o).iSize + count) / 512 - (s.inode o).iSize / 512)
    {d : Buf} {i : Inode} (number : i.iNo = (s.inode o).iNo) (size : i.iSize = (s.inode o).iSize)
    (addrs : ∀ k ≤ ((s.inode o).iSize + count) / 512, k < limit → blockAddrs d i k =
      if k ≤ (s.inode o).iSize / 512 then blockAddrs s.disk (s.inode o) k
      else P.dataStartLba + new.getD (k - ((s.inode o).iSize / 512 + 1)) 0)
    (apartOld : ∀ k ≤ (s.inode o).iSize / 512, blockAddrs s.disk (s.inode o) k ≠ i.iSectors 12)
    (apartNew : ∀ bit ∈ new, P.dataStartLba + bit ≠ i.iSectors 12)
    (table : i.iSectors 12 ≠ 0 → BlockUsed P (s.patch (markBits s.blockBitmap all) d o i) (i.iSectors 12))
    (data : ∀ lba, P.dataStartLba ≤ lba → lba ≠ i.iSectors 12 → sector d lba = sector s.disk lba)
    {b : Nat → Nat} (blocks : ∀ k, (s.inode o).iSize / 512 ≤ k → k ≤ ((s.inode o).iSize + count) / 512 → k < limit →
      b k = blockAddrs d i k)
    (lost : limit = 12 → i.iSectors 12 ≠ 0 ∧ ∀ k, 12 ≤ k → b k = 0 ∧ (k < 140 → blockAddrs d i k = 0)) :
    WriteReady P s (s.patch (markBits s.blockBitmap all) d o i) o count limit b := by
  have disk : (s.patch (markBits s.blockBitmap all) d o i).disk = d := rfl
  have member : ∀ k, (s.inode o).iSize / 512 < k → k ≤ ((s.inode o).iSize + count) / 512 →
      new.getD (k - ((s.inode o).iSize / 512 + 1)) 0 ∈ new := by
    intro k low high
    rw [List.getD_eq_getElem _ _ (by omega)]
    exact List.getElem_mem _
  have oldUsed : ∀ k ≤ (s.inode o).iSize / 512, BlockUsed P s (blockAddrs s.disk (s.inode o) k) :=
    fun k hk => sound.used started k hk (by omega)
  have there : ∀ k ≤ (s.inode o).iSize / 512, blockAddrs s.disk (s.inode o) k ≠ 0 :=
    fun k hk => (oldUsed k hk).ne_zero fits
  constructor
  · rw [FileSys.patch_inode]
    rfl
  · rw [FileSys.patch_inode]
    exact number
  · rw [FileSys.patch_inode]
    exact size
  · intro k high low
    rw [FileSys.patch_inode, disk, addrs k high low]
    split
    · next hk => exact (oldUsed k hk).mark
    · next hk => exact blockUsed_new onDisk free (sub.subset (member k (Nat.lt_of_not_le hk) high))
  · intro j hj lowj k hk lowk same
    rw [FileSys.patch_inode, disk, addrs j hj lowj, addrs k hk lowk] at same
    have unlike : ∀ m ≤ (s.inode o).iSize / 512, ∀ n, (s.inode o).iSize / 512 < n →
        n ≤ ((s.inode o).iSize + count) / 512 → blockAddrs s.disk (s.inode o) m ≠
          P.dataStartLba + new.getD (n - ((s.inode o).iSize / 512 + 1)) 0 := by
      intro m hm n low high
      exact (oldUsed m hm).ne_free (free.free _ (sub.subset (member n low high)))
    by_cases oldj : j ≤ (s.inode o).iSize / 512 <;> by_cases oldk : k ≤ (s.inode o).iSize / 512
    · rw [if_pos oldj, if_pos oldk] at same
      exact sound.once j oldj (by omega) k oldk (by omega) (there j oldj) same
    · rw [if_pos oldj, if_neg oldk] at same
      exact (unlike j oldj k (Nat.lt_of_not_le oldk) hk same).elim
    · rw [if_neg oldj, if_pos oldk] at same
      exact (unlike k oldk j (Nat.lt_of_not_le oldj) hj same.symm).elim
    · rw [if_neg oldj, if_neg oldk] at same
      have equal := Nat.add_left_cancel same
      rw [List.getD_eq_getElem _ _ (by omega), List.getD_eq_getElem _ _ (by omega)] at equal
      have index := (free.nodup.sublist sub).getElem_inj_iff.1 equal
      omega
  · intro k high low
    rw [FileSys.patch_inode, disk, addrs k high low]
    split
    · next hk => exact apartOld k hk
    · next hk => exact apartNew _ (member k (Nat.lt_of_not_le hk) high)
  · intro k hk
    rw [FileSys.patch_inode, disk, addrs k (by omega) (by omega), if_pos hk]
    exact data _ (oldUsed k hk).data (apartOld k hk)
  · rw [FileSys.patch_inode]
    exact table
  · rw [FileSys.patch_inode]
    exact blocks
  · rw [FileSys.patch_inode]
    exact lost

/-- How blocksForWrite ends: it finds too few free blocks and leaves none, or all is ready. -/
inductive WriteOutcome (P : Partition) (s : FileSys) (o count : Nat) : Option (Nat → Nat) → FileSys → Prop where
  | full (t : FileSys) (few : freeCount P s.blockBitmap < addedBlocks (s.inode o).iSize count)
      (all : freeCount P t.blockBitmap = 0) (same : freeCount P s.blockBitmap = 0 → t = s) :
      WriteOutcome P s o count none t
  | ready (t : FileSys) (b : Nat → Nat) (enough : addedBlocks (s.inode o).iSize count ≤ freeCount P s.blockBitmap)
      (ready : WriteReady P s t o count (recordedTo (s.inode o).iSize count) b) : WriteOutcome P s o count (some b) t

theorem recordFrom_new {limit k : Nat} {f : Nat → Nat} {h : Nat} {new : List Nat} :
    recordFrom limit f h (new.map (P.dataStartLba + ·)) k =
      if h ≤ k ∧ k < h + new.length ∧ k < limit then P.dataStartLba + new.getD (k - h) 0 else f k := by
  rw [recordFrom, List.length_map]
  by_cases here : h ≤ k ∧ k < h + new.length ∧ k < limit
  · rw [if_pos here, if_pos here, List.getD_eq_getElem _ _ (by rw [List.length_map]; omega), List.getElem_map,
      List.getD_eq_getElem _ _ (by omega)]
  · rw [if_neg here, if_neg here]

theorem recordAt_sectors {i : Inode} {h k : Nat} {new : List Nat} :
    (i.recordAt h (new.map (P.dataStartLba + ·))).iSectors k =
      if h ≤ k ∧ k < h + new.length ∧ k < 12 then P.dataStartLba + new.getD (k - h) 0 else i.iSectors k :=
  recordFrom_new

theorem blockAddrs_direct {d : Buf} {i : Inode} {k : Nat} (low : k < 12) : blockAddrs d i k = i.iSectors k := if_pos low

/-- A file whose last block has room is ready as it is. -/
theorem WriteReady.same (fits : P.Fits) (onDisk : FreeOnDisk P s) (sound : FileSound P s (s.inode o))
    (started : (s.inode o).iSectors 0 ≠ 0) (small : (s.inode o).iSize + count < 140 * 512)
    (enough : ((s.inode o).iSize + count) / 512 = (s.inode o).iSize / 512) {b : Nat → Nat}
    (block : b ((s.inode o).iSize / 512) = blockAddrs s.disk (s.inode o) ((s.inode o).iSize / 512)) :
    WriteReady P s s o count (recordedTo (s.inode o).iSize count) b := by
  have limit : recordedTo (s.inode o).iSize count = 140 := by
    rw [recordedTo, if_neg (by omega)]
  have there : ∀ k ≤ (s.inode o).iSize / 512, blockAddrs s.disk (s.inode o) k ≠ 0 :=
    fun k hk => (sound.used started k hk (by omega)).ne_zero fits
  have whole : s.patch (markBits s.blockBitmap []) s.disk o (s.inode o) = s := by
    rw [markBits_nil, FileSys.patch_self]
  rw [limit]
  have ready : WriteReady P s (s.patch (markBits s.blockBitmap []) s.disk o (s.inode o)) o count 140 b := by
    apply WriteReady.of_addrs fits onDisk sound started small (by omega) .nil (List.Sublist.refl _)
    · rw [List.length_nil, enough, Nat.sub_self]
    · rfl
    · rfl
    · intro k high low
      rw [if_pos (by omega)]
    · intro k hk
      exact sound.apart k hk (by omega) (there k hk)
    · intro bit mem
      cases mem
    · rw [whole]
      exact sound.tableUsed
    · intro lba _ _
      rfl
    · intro k from_last to_last _
      have last : k = (s.inode o).iSize / 512 := by omega
      rw [last]
      exact block
    · intro twelve
      cases twelve
  rwa [whole] at ready

/-- Blocks of the inode's own are added. -/
theorem WriteReady.direct (fits : P.Fits) (onDisk : FreeOnDisk P s) (sound : FileSound P s (s.inode o))
    (started : (s.inode o).iSectors 0 ≠ 0) (more : ((s.inode o).iSize + count) / 512 < 12)
    {new : List Nat} {d : Buf} (free : FreeBits P s new)
    (len : new.length = ((s.inode o).iSize + count) / 512 - (s.inode o).iSize / 512) (data : DataSame P s.disk d) :
    WriteReady P s (s.patch (markBits s.blockBitmap new) d o
        ((s.inode o).recordAt ((s.inode o).iSize / 512 + 1) (new.map (P.dataStartLba + ·)))) o count
      (recordedTo (s.inode o).iSize count)
      (recordFrom 12 (oneBlock ((s.inode o).iSize / 512) ((s.inode o).iSectors ((s.inode o).iSize / 512)))
        ((s.inode o).iSize / 512 + 1) (new.map (P.dataStartLba + ·))) := by
  have limit : recordedTo (s.inode o).iSize count = 140 := by
    rw [recordedTo, if_neg (by omega)]
  have none_behind : (s.inode o).iSectors 12 = 0 := by
    by_contra there
    have := sound.table.1 there
    omega
  have table : ((s.inode o).recordAt ((s.inode o).iSize / 512 + 1) (new.map (P.dataStartLba + ·))).iSectors 12 = 0 := by
    rw [recordAt_sectors, if_neg (by omega)]
    exact none_behind
  have there : ∀ k ≤ (s.inode o).iSize / 512, blockAddrs s.disk (s.inode o) k ≠ 0 :=
    fun k hk => (sound.used started k hk (by omega)).ne_zero fits
  rw [limit]
  apply WriteReady.of_addrs fits onDisk sound started (by omega) (by omega) free (List.Sublist.refl _) len
  · rfl
  · rfl
  · intro k high _
    rw [blockAddrs_direct (by omega), recordAt_sectors]
    by_cases old : k ≤ (s.inode o).iSize / 512
    · rw [if_pos old, if_neg (by omega), blockAddrs_direct (by omega)]
    · rw [if_neg old, if_pos (by omega)]
  · intro k hk
    rw [table]
    exact there k hk
  · intro bit mem
    rw [table]
    exact (blockUsed_new (o := o) (d := d) (i := s.inode o) onDisk free mem).ne_zero fits
  · intro behind
    exact (behind table).elim
  · intro lba low _
    exact sector_congr fun k _ => data _ (by omega)
  · intro k from_last high _
    rw [blockAddrs_direct (by omega), recordAt_sectors, recordFrom_new]
    by_cases last : k = (s.inode o).iSize / 512
    · rw [if_neg (by omega), if_neg (by omega), last, oneBlock, if_pos rfl]
    · rw [if_pos (by omega), if_pos (by omega)]
  · intro twelve
    cases twelve

/-- The addresses in a table that has been written from all_blocks. -/
theorem blockAddrs_written {d : Buf} {i : Inode} {b : Nat → Nat} (there : i.iSectors 12 ≠ 0) {k : Nat} (high : 12 ≤ k)
    (room : k < 140) (small : b k < 2 ^ 32) :
    blockAddrs (blit d (512 * i.iSectors 12) (512 * 1) (tableBytes b)) i k = b k := by
  have behind : ¬ k < 12 := by omega
  have back : k - 12 + 12 = k := by omega
  rw [blockAddrs, if_neg behind, if_pos there, word_blit_in (by omega) (by omega), Nat.add_sub_cancel_left, tableBytes,
    word_ofWords, back, Nat.mod_eq_of_lt small]

/-- Writing the table leaves the other sectors of the data area. -/
theorem sector_table {d buf : Buf} {table lba : Nat} (data : DataSame P s.disk d) (low : P.dataStartLba ≤ lba)
    (other : lba ≠ table) : sector (blit d (512 * table) (512 * 1) buf) lba = sector s.disk lba := by
  apply sector_congr
  intro k hk
  rw [blit_of_not_mem (by omega)]
  exact data _ (by omega)

/-- With a new table, of the blocks behind the inode's own none is recorded. -/
theorem WriteReady.crossing (fits : P.Fits) (onDisk : FreeOnDisk P s) (sound : FileSound P s (s.inode o))
    (started : (s.inode o).iSectors 0 ≠ 0) (small : (s.inode o).iSize + count < 140 * 512)
    (own : (s.inode o).iSize / 512 < 12) (more : 12 ≤ ((s.inode o).iSize + count) / 512)
    {c : Nat} {new : List Nat} {d : Buf} (free : FreeBits P s (c :: new))
    (len : new.length = ((s.inode o).iSize + count) / 512 - (s.inode o).iSize / 512) (data : DataSame P s.disk d)
    {b : Nat → Nat} (recorded : b = recordFrom 12 (oneBlock ((s.inode o).iSize / 512) ((s.inode o).iSectors ((s.inode o).iSize / 512)))
        ((s.inode o).iSize / 512 + 1) (new.map (P.dataStartLba + ·))) :
    WriteReady P s (s.patch (markBits s.blockBitmap (c :: new))
        (blit d (512 * (P.dataStartLba + c)) (512 * 1) (tableBytes b)) o
        (((s.inode o).setSector 12 (P.dataStartLba + c)).recordAt ((s.inode o).iSize / 512 + 1)
          (new.map (P.dataStartLba + ·)))) o count (recordedTo (s.inode o).iSize count) b := by
  have limit : recordedTo (s.inode o).iSize count = 12 := if_pos ⟨own, more⟩
  generalize table : P.dataStartLba + c = T
  have used : BlockUsed P (s.patch (markBits s.blockBitmap (c :: new)) (blit d (512 * T) (512 * 1) (tableBytes b)) o
      (((s.inode o).setSector 12 T).recordAt ((s.inode o).iSize / 512 + 1) (new.map (P.dataStartLba + ·)))) T :=
    table ▸ blockUsed_new onDisk free List.mem_cons_self
  have there : T ≠ 0 := used.ne_zero fits
  have named : (((s.inode o).setSector 12 T).recordAt ((s.inode o).iSize / 512 + 1)
      (new.map (P.dataStartLba + ·))).iSectors 12 = T := by
    rw [recordAt_sectors, if_neg (by omega)]
    exact setSector_self ..
  have behind : ∀ k, 12 ≤ k → b k = 0 := by
    intro k high
    rw [recorded, recordFrom_new, if_neg (by omega), oneBlock, if_neg (by omega)]
  rw [limit]
  apply WriteReady.of_addrs fits onDisk sound started small (by omega) free (List.sublist_cons_self c new) len
  · rfl
  · rfl
  · intro k high low
    rw [blockAddrs_direct low, recordAt_sectors, setSector_of_ne _ _ (by omega)]
    by_cases old : k ≤ (s.inode o).iSize / 512
    · rw [if_pos old, if_neg (by omega), blockAddrs_direct low]
    · rw [if_neg old, if_pos (by omega)]
  · intro k hk
    rw [named, ← table]
    exact (sound.used started k hk (by omega)).ne_free (free.free c List.mem_cons_self)
  · intro bit mem
    rw [named, ← table]
    intro same
    have equal := Nat.add_left_cancel same
    subst equal
    exact (List.nodup_cons.1 free.nodup).1 mem
  · rw [named]
    exact fun _ => used
  · intro lba low other
    rw [named] at other
    exact sector_table data low other
  · intro k from_last high low
    rw [blockAddrs_direct low, recordAt_sectors, recorded, recordFrom_new, setSector_of_ne _ _ (by omega)]
    by_cases last : k = (s.inode o).iSize / 512
    · rw [if_neg (by omega), if_neg (by omega), last, oneBlock, if_pos rfl]
    · rw [if_pos (by omega), if_pos (by omega)]
  · intro _
    rw [named]
    refine ⟨there, fun k high => ⟨behind k high, fun room => ?_⟩⟩
    have zero := behind k high
    have written := blockAddrs_written (d := d) (b := b) (named.symm ▸ there) high room (by omega)
    rw [named] at written
    rw [written, zero]

/-- Blocks behind an existing table are added. -/
theorem WriteReady.indirect (fits : P.Fits) (onDisk : FreeOnDisk P s) (sound : FileSound P s (s.inode o))
    (started : (s.inode o).iSectors 0 ≠ 0) (small : (s.inode o).iSize + count < 140 * 512)
    (behind : 12 ≤ (s.inode o).iSize / 512) {new : List Nat} {d : Buf} (free : FreeBits P s new)
    (len : new.length = ((s.inode o).iSize + count) / 512 - (s.inode o).iSize / 512) (data : DataSame P s.disk d)
    {b : Nat → Nat} (recorded : b = recordFrom 140 (withTable (fun _ => 0) fun k =>
        word (sector s.disk ((s.inode o).iSectors 12)) (4 * k)) ((s.inode o).iSize / 512 + 1)
          (new.map (P.dataStartLba + ·))) :
    WriteReady P s (s.patch (markBits s.blockBitmap new)
        (blit d (512 * (s.inode o).iSectors 12) (512 * 1) (tableBytes b)) o (s.inode o)) o count
      (recordedTo (s.inode o).iSize count) b := by
  have limit : recordedTo (s.inode o).iSize count = 140 := by
    rw [recordedTo, if_neg (by omega)]
  have there := sound.table.2 behind
  have some_block : ∀ k ≤ (s.inode o).iSize / 512, blockAddrs s.disk (s.inode o) k ≠ 0 :=
    fun k hk => (sound.used started k hk (by omega)).ne_zero fits
  have tableUsed := sound.tableUsed there
  have old : ∀ k, 12 ≤ k → k ≤ (s.inode o).iSize / 512 → b k = blockAddrs s.disk (s.inode o) k := by
    intro k high low
    have not_own : ¬ k < 12 := by omega
    rw [recorded, recordFrom_new, if_neg (by omega), withTable, if_neg not_own]
    exact blockAddrs_table high (by omega) (some_block k low)
  have fresh : ∀ k, (s.inode o).iSize / 512 < k → k ≤ ((s.inode o).iSize + count) / 512 →
      b k = P.dataStartLba + new.getD (k - ((s.inode o).iSize / 512 + 1)) 0 := by
    intro k high low
    rw [recorded, recordFrom_new, if_pos (by omega)]
  have addrs : ∀ k ≤ ((s.inode o).iSize + count) / 512, 12 ≤ k →
      blockAddrs (blit d (512 * (s.inode o).iSectors 12) (512 * 1) (tableBytes b)) (s.inode o) k = b k := by
    intro k high low
    apply blockAddrs_written there low (by omega)
    by_cases was : k ≤ (s.inode o).iSize / 512
    · have bound := (sound.used started k was (by omega)).disk
      rw [old k low was]
      simp only [maxLba] at bound
      omega
    · have mem : new.getD (k - ((s.inode o).iSize / 512 + 1)) 0 ∈ new := by
        rw [List.getD_eq_getElem _ _ (by omega)]
        exact List.getElem_mem _
      have bound := onDisk _ (free.free _ mem)
      rw [fresh k (Nat.lt_of_not_le was) high]
      simp only [maxLba] at bound
      omega
  rw [limit]
  apply WriteReady.of_addrs fits onDisk sound started small (by omega) free (List.Sublist.refl _) len
  · rfl
  · rfl
  · intro k high _
    by_cases was : k ≤ (s.inode o).iSize / 512
    · rw [if_pos was]
      by_cases own : k < 12
      · rw [blockAddrs_direct own, blockAddrs_direct own]
      · rw [addrs k high (by omega), old k (by omega) was]
    · rw [if_neg was, addrs k high (by omega), fresh k (Nat.lt_of_not_le was) high]
  · intro k hk
    exact sound.apart k hk (by omega) (some_block k hk)
  · intro bit mem
    exact (tableUsed.ne_free (free.free bit mem)).symm
  · intro _
    exact tableUsed.mark
  · intro lba low other
    exact sector_table data low other
  · intro k from_last high _
    exact (addrs k high (by omega)).symm
  · intro twelve
    cases twelve

/-- The blocks for count bytes more, on a disk with too few free blocks or with enough. -/
theorem blocksForWrite_spec (fits : P.Fits) (onDisk : FreeOnDisk P s) (sound : FileSound P s (s.inode o))
    (started : (s.inode o).iSectors 0 ≠ 0) (small : (s.inode o).iSize + count < 140 * 512) :
    wp (blocksForWrite P o count) (fun r t => WriteOutcome P s o count r t)
      (fun _ => P.scanAsserts = true ∧ freeCount P s.blockBitmap < addedBlocks (s.inode o).iSize count) s := by
  have whole : ((s.inode o).iSize + count) % 2 ^ 32 = (s.inode o).iSize + count := Nat.mod_eq_of_lt (by omega)
  have there : ∀ k ≤ (s.inode o).iSize / 512, blockAddrs s.disk (s.inode o) k ≠ 0 :=
    fun k hk => (sound.used started k hk (by omega)).ne_zero fits
  unfold blocksForWrite
  rw [wp_bind, wp_get]
  dsimp only
  rw [whole, wp_bind, wp_assert]
  refine ⟨fun _ => ?_, fun out => (out (by omega)).elim⟩
  simp only [Nat.add_sub_cancel, Nat.add_right_cancel_iff, Nat.add_sub_add_right]
  rw [wp_ite]
  constructor
  · intro same
    have none_added : addedBlocks (s.inode o).iSize count ≤ freeCount P s.blockBitmap := by
      rw [addedBlocks, if_neg (by omega)]
      omega
    rw [wp_ite]
    constructor
    · intro own
      have block : oneBlock ((s.inode o).iSize / 512) ((s.inode o).iSectors ((s.inode o).iSize / 512))
          ((s.inode o).iSize / 512) = blockAddrs s.disk (s.inode o) ((s.inode o).iSize / 512) := by
        rw [oneBlock, if_pos rfl, blockAddrs_direct (by omega)]
      exact (wp_pure _).2 (.ready _ _ none_added (.same fits onDisk sound started small same block))
    · intro behind
      have table := sound.table.2 (by omega)
      rw [wp_bind, wp_assert]
      refine ⟨fun _ => ?_, fun none => (none table).elim⟩
      rw [wp_bind, wp_readTable (sound.tableUsed table).disk]
      have not_own : ¬ (s.inode o).iSize / 512 < 12 := by omega
      have block : withTable (fun _ => 0) (fun k => word (sector s.disk ((s.inode o).iSectors 12)) (4 * k))
          ((s.inode o).iSize / 512) = blockAddrs s.disk (s.inode o) ((s.inode o).iSize / 512) := by
        rw [withTable, if_neg not_own]
        exact blockAddrs_table (by omega) (by omega) (there _ (Nat.le_refl _))
      exact (wp_pure _).2 (.ready _ _ none_added (.same fits onDisk sound started small same block))
  · intro grows
    rw [wp_ite]
    constructor
    · intro direct
      have added : addedBlocks (s.inode o).iSize count = ((s.inode o).iSize + count) / 512 - (s.inode o).iSize / 512 := by
        rw [addedBlocks, if_neg (by omega), Nat.add_zero]
      have last := there _ (Nat.le_refl _)
      rw [blockAddrs_direct (by omega)] at last
      rw [wp_bind, wp_check]
      refine ⟨fun _ => ?_, fun out => (out (by omega)).elim⟩
      rw [wp_bind, wp_assert]
      refine ⟨fun _ => ?_, fun none => (none last).elim⟩
      rw [addDirect_eq _ _ _ (by omega), added]
      apply wp_post (addCrossing_spec fits _ _ _ fun k low high own => sound.unused k own (by omega))
      rintro r t outcome
      cases outcome with
      | full t few all same => exact .full t (added.symm ▸ few) all same
      | grown new d free len data =>
        exact .ready _ _ (added.trans len.symm ▸ free.length_le) (.direct fits onDisk sound started (by omega) free len data)
    · intro many
      rw [wp_ite]
      constructor
      · intro own
        have added : addedBlocks (s.inode o).iSize count =
            ((s.inode o).iSize + count) / 512 - (s.inode o).iSize / 512 + 1 := by
          rw [addedBlocks, if_pos (by omega)]
        have absent : (s.inode o).iSectors 12 = 0 := by
          by_contra there
          have := sound.table.1 there
          omega
        rw [added, wp_bind]
        apply wp_mono blockBitmapAlloc_spec
        · rintro r t (⟨rfl, rfl, none⟩ | ⟨c, clear, rfl, rfl⟩)
          · have zero := freeCount_zero.2 none
            exact (wp_pure _).2 (.full _ (by omega) zero fun _ => rfl)
          · have one := freeCount_update clear
            have low := onDisk _ clear
            dsimp only
            rw [wp_bind, wp_assert]
            refine ⟨fun _ => ?_, fun used => (used absent).elim⟩
            rw [wp_bind, modifyInode, wp_modify, wp_bind]
            apply wp_mono (addCrossing_spec (s := s.patch (Function.update s.blockBitmap c true) s.disk o
              ((s.inode o).setSector 12 (P.dataStartLba + c))) fits _ _ _ ?_)
            · rintro r t outcome
              rw [FileSys.patch_inode] at outcome
              cases outcome with
              | full t few all _ =>
                have less : freeCount P (Function.update s.blockBitmap c true) <
                  ((s.inode o).iSize + count) / 512 - (s.inode o).iSize / 512 := few
                exact (wp_pure _).2 (.full t (by omega) all fun zero => by omega)
              | grown new d free len data =>
                dsimp only
                rw [FileSys.patch_patch, wp_bind, wp_ideWrite_iff low (by decide), wp_pure]
                have ready := WriteReady.crossing fits onDisk sound started small (by omega) (by omega)
                  (FreeBits.cons clear free) len data rfl
                rw [← markBits_cons] at ready
                have enough := (FreeBits.cons clear free).length_le
                rw [List.length_cons, len] at enough
                exact .ready _ _ (by omega) ready
            · rintro f ⟨on, few⟩
              have less : freeCount P (Function.update s.blockBitmap c true) <
                ((s.inode o).iSize + count) / 512 - (s.inode o).iSize / 512 := few
              exact ⟨on, by omega⟩
            · intro k low high own
              rw [FileSys.patch_inode, setSector_of_ne _ _ (by omega)]
              exact sound.unused k own (by omega)
        · rintro f ⟨-, on, none⟩
          have zero := freeCount_zero.2 none
          exact ⟨on, by omega⟩
      · intro behind
        have added : addedBlocks (s.inode o).iSize count = ((s.inode o).iSize + count) / 512 - (s.inode o).iSize / 512 := by
          rw [addedBlocks, if_neg (by omega), Nat.add_zero]
        have table := sound.table.2 (by omega)
        have low := (sound.tableUsed table).disk
        rw [wp_bind, wp_assert]
        refine ⟨fun _ => ?_, fun none => (none table).elim⟩
        rw [wp_bind, wp_readTable low, wp_bind, added]
        apply wp_post (addIndirect_spec (o := o) fits _ _ _ (by omega))
        rintro r t outcome
        cases outcome with
        | full t few all same => exact (wp_pure _).2 (.full t (added.symm ▸ few) all same)
        | grown new d free len data =>
          dsimp only
          rw [wp_bind, wp_ideWrite_iff low (by decide), wp_pure]
          exact .ready _ _ (added.trans len.symm ▸ free.length_le) (.indirect fits onDisk sound started small (by omega) free len data rfl)

/-! The data loop. -/

theorem writeLoop_step (o : Nat) (b : Nat → Nat) (rounds : Nat) (first : Bool) (src : Buf) {n : Nat} (pos : 0 < n) :
    writeLoop o b (rounds + 1) first src n = (do
      let iSize := ((← get).inode o).iSize
      check (iSize / 512 < 140) .undefined
      let ioBuf ← (if first = true then ideRead (b (iSize / 512)) 1 else pure fun _ => 0)
      ideWrite (b (iSize / 512)) (blit ioBuf (iSize % 512) (min n (512 - iSize % 512)) src) 1
      modifyInode o fun i => { i with iSize := i.iSize + min n (512 - iSize % 512) }
      writeLoop o b rounds false (slice src (min n (512 - iSize % 512))) (n - min n (512 - iSize % 512))) := by
  cases n with
  | zero => cases pos
  | succ n => cases first with
    | true => rfl
    | false => rfl

/-- The inode with bytes more. -/
def Inode.extend (i : Inode) (n : Nat) : Inode := { i with iSize := i.iSize + n }

theorem Inode.extend_extend (i : Inode) (n m : Nat) : (i.extend n).extend m = i.extend (n + m) := by
  simp only [extend, Nat.add_assoc]

/-- The disk after n bytes have been written from the position pos on: other sectors are the
same, and with different blocks for different positions the bytes are in them, behind what was
in the first one. -/
structure BytesWritten (b : Nat → Nat) (pos n : Nat) (src : Buf) (d e : Buf) : Prop where
  others : ∀ a, (∀ m < n, a < 512 * b ((pos + m) / 512) ∨ 512 * b ((pos + m) / 512) + 512 ≤ a) → e a = d a
  bytes : (∀ m < n, ∀ l < n, b ((pos + m) / 512) = b ((pos + l) / 512) → (pos + m) / 512 = (pos + l) / 512) →
    ∀ m < n, e (512 * b ((pos + m) / 512) + (pos + m) % 512) = src m
  before : (∀ m < n, ∀ l < n, b ((pos + m) / 512) = b ((pos + l) / 512) → (pos + m) / 512 = (pos + l) / 512) →
    ∀ m < pos % 512, e (512 * b (pos / 512) + m) = d (512 * b (pos / 512) + m)

theorem BytesWritten.zero (b : Nat → Nat) (pos : Nat) (src d : Buf) : BytesWritten b pos 0 src d d :=
  ⟨fun _ _ => rfl, fun _ m hm => absurd hm (Nat.not_lt_zero m), fun _ _ _ => rfl⟩

/-- A chunk inside one block, and the rest. -/
theorem BytesWritten.chunk {b : Nat → Nat} {pos n c : Nat} {src d e f : Buf} (some_bytes : 0 < c) (inside : pos % 512 + c ≤ 512)
    (more : c ≤ n) (full : c < n → pos % 512 + c = 512)
    (here : ∀ m < c, e (512 * b (pos / 512) + (pos % 512 + m)) = src m)
    (kept : ∀ m < pos % 512, e (512 * b (pos / 512) + m) = d (512 * b (pos / 512) + m))
    (away : ∀ a, a < 512 * b (pos / 512) ∨ 512 * b (pos / 512) + 512 ≤ a → e a = d a)
    (rest : BytesWritten b (pos + c) (n - c) (slice src c) e f) : BytesWritten b pos n src d f := by
  have shift : ∀ m < n - c, pos + c + m = pos + (c + m) := fun m _ => Nat.add_assoc _ _ _
  have later : ∀ m < n - c, (pos + c + m) / 512 ≠ pos / 512 := by
    intro m hm
    have block := full (by omega)
    omega
  have apart : (∀ m < n, ∀ l < n, b ((pos + m) / 512) = b ((pos + l) / 512) → (pos + m) / 512 = (pos + l) / 512) →
      ∀ k < 512, f (512 * b (pos / 512) + k) = e (512 * b (pos / 512) + k) := by
    intro inj k hk
    apply rest.others
    intro m hm
    have other : b ((pos + c + m) / 512) ≠ b (pos / 512) := by
      intro same
      rw [shift m hm] at same
      have equal := inj (c + m) (by omega) 0 (by omega) same
      exact later m hm (by rw [shift m hm]; exact equal)
    omega
  have injRest : (∀ m < n, ∀ l < n, b ((pos + m) / 512) = b ((pos + l) / 512) → (pos + m) / 512 = (pos + l) / 512) →
      ∀ m < n - c, ∀ l < n - c, b ((pos + c + m) / 512) = b ((pos + c + l) / 512) →
        (pos + c + m) / 512 = (pos + c + l) / 512 := by
    intro inj m hm l hl same
    rw [shift m hm, shift l hl] at same ⊢
    exact inj _ (by omega) _ (by omega) same
  constructor
  · intro a out
    rw [rest.others a ?_]
    · exact away a (out 0 (by omega))
    · intro m hm
      rw [shift m hm]
      exact out (c + m) (by omega)
  · intro inj m hm
    by_cases first : m < c
    · have block : (pos + m) / 512 = pos / 512 := by omega
      have offset : (pos + m) % 512 = pos % 512 + m := by omega
      rw [block, offset, apart inj _ (by omega)]
      exact here m first
    · have back : pos + c + (m - c) = pos + m := by omega
      have place : c + (m - c) = m := by omega
      have byte := rest.bytes (injRest inj) (m - c) (by omega)
      rwa [back, slice, place] at byte
  · intro inj m hm
    rw [apart inj m (by omega)]
    exact kept m hm

/-- The data loop writes n bytes behind the end of the file. -/
theorem writeLoop_bytes {b : Nat → Nat} (rounds n : Nat) (first : Bool) (src : Buf) (enough : n ≤ rounds)
    (room : (t.inode o).iSize + n ≤ 140 * 512) (low : ∀ m < n, b (((t.inode o).iSize + m) / 512) ≤ maxLba)
    (aligned : first = false → 0 < n → (t.inode o).iSize % 512 = 0) :
    Succeeds (writeLoop o b rounds first src n) (fun _ u => ∃ d,
      u = t.patch t.blockBitmap d o ((t.inode o).extend n) ∧ BytesWritten b (t.inode o).iSize n src t.disk d) t := by
  induction rounds generalizing t n first src with
  | zero =>
    obtain rfl := Nat.le_zero.1 enough
    unfold writeLoop
    exact (wp_pure _).2 ⟨t.disk, (t.patch_self o).symm, .zero ..⟩
  | succ rounds ih =>
    by_cases pos : 0 < n
    · rw [writeLoop_step o b rounds first src pos, Succeeds, wp_bind, wp_get]
      dsimp only
      have here := low 0 pos
      rw [Nat.add_zero] at here
      rw [wp_bind, wp_check]
      refine ⟨fun _ => ?_, fun out => (out (by omega)).elim⟩
      generalize size : (t.inode o).iSize = z at room low aligned here
      generalize chunk : min n (512 - z % 512) = c
      have read : Succeeds (if first = true then ideRead (b (z / 512)) 1 else pure fun _ => 0) (fun io u =>
          u = t ∧ ∀ m < z % 512, io m = t.disk (512 * b (z / 512) + m)) t := by
        cases first with
        | true =>
          rw [if_pos rfl]
          refine (wp_ideRead_iff here (by decide)).2 ⟨rfl, fun m hm => ?_⟩
          exact if_pos (by omega)
        | false =>
          rw [if_neg (by decide)]
          refine (wp_pure _).2 ⟨rfl, fun m hm => ?_⟩
          have start := aligned rfl pos
          omega
      rw [wp_bind]
      apply wp_post read
      rintro io u ⟨rfl, old⟩
      rw [wp_bind, wp_ideWrite_iff here (by decide), wp_bind, modifyInode, wp_modify]
      generalize written : blit u.disk (512 * b (z / 512)) (512 * 1) (blit io (z % 512) c src) = e
      have rest := ih (t := u.patch u.blockBitmap e o ((u.inode o).extend c)) (n - c) false (slice src c) (by omega)
      rw [FileSys.patch_inode] at rest
      have grown : ((u.inode o).extend c).iSize = z + c := by rw [← size]; rfl
      rw [grown] at rest
      apply wp_post (rest (by omega) ?_ (by omega))
      · rintro - v ⟨d, rfl, bytes⟩
        have whole : c + (n - c) = n := by omega
        refine ⟨d, ?_, .chunk (c := c) (e := e) (by omega) (by omega) (by omega) (by omega) ?_ ?_ ?_ bytes⟩
        · rw [FileSys.patch_patch, Inode.extend_extend, whole]
          rfl
        · intro m hm
          rw [← written, blit_of_mem (by omega) (by omega), Nat.add_sub_cancel_left, blit_of_mem (by omega) (by omega),
            Nat.add_sub_cancel_left]
        · intro m hm
          rw [← written, blit_of_mem (by omega) (by omega), Nat.add_sub_cancel_left, blit_of_not_mem (by omega)]
          exact old m hm
        · intro a out
          rw [← written]
          exact blit_of_not_mem (by omega)
      · intro m hm
        have shift : z + c + m = z + (c + m) := Nat.add_assoc _ _ _
        rw [shift]
        exact low (c + m) (by omega)
    · obtain rfl := Nat.eq_zero_of_not_pos pos
      unfold writeLoop
      exact (wp_pure _).2 ⟨t.disk, (t.patch_self o).symm, .zero ..⟩

end Ready
end Zhenxiang.Fs
