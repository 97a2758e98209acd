import Zhenxiang.Fs.InodeTable
import Zhenxiang.Lib.Slots

/-! The entries of a directory, as a scan of its blocks finds them, against sync_dir_entry. -/
namespace Zhenxiang.Fs
open Lib Kernel

/-- The addresses of the blocks of an inode, as search_dir_entry collects them. -/
def blockAddrs (disk : Buf) (i : Inode) (k : Nat) : Nat :=
  if k < 12 then i.iSectors k
  else if i.iSectors 12 ≠ 0 then word disk (512 * i.iSectors 12 + 4 * (k - 12)) else 0

/-- What ide_read of one sector puts into the buffer. -/
def sector (disk : Buf) (lba : Nat) : Buf := fun k => if k < 512 * 1 then disk (512 * lba + k) else 0

/-- The bytes of the entry idx of a block. -/
def entryBytes (b : Buf) (idx : Nat) : List UInt8 :=
  (List.range dirEntrySize).map fun k => b (dirEntrySize * idx + k)

/-- The entry idx of a block, if it is in use. -/
def liveEntry (b : Buf) (idx : Nat) : List (List UInt8) :=
  if entryFType b idx ≠ ftUnknown then [entryBytes b idx] else []

def blockEntries (b : Buf) : List (List UInt8) := (List.range dirEntrysPerSec).flatMap (liveEntry b)

/-- The live entries in the block at the position k, if there is one. -/
def entriesAt (disk : Buf) (i : Inode) (k : Nat) : List (List UInt8) :=
  if blockAddrs disk i k = 0 then [] else blockEntries (sector disk (blockAddrs disk i k))

def liveEntries (disk : Buf) (i : Inode) : List (List UInt8) := (List.range 140).flatMap (entriesAt disk i)

variable (P : Partition)

def BlockFree (s : FileSys) (bit : Nat) : Prop := bit < 4096 * P.blockBitmapSects ∧ s.blockBitmap bit = false

/-- Every clear bit of the block bitmap is that of a sector of the disk, be it behind the partition's end. -/
def FreeOnDisk (s : FileSys) : Prop := ∀ bit, BlockFree P s bit → P.dataStartLba + bit ≤ maxLba

/-- A block of the data area that is marked as used. -/
structure BlockUsed (s : FileSys) (lba : Nat) : Prop where
  data : P.dataStartLba ≤ lba
  disk : lba ≤ maxLba
  used : s.blockBitmap (lba - P.dataStartLba) = true

/-- A directory whose blocks are marked as used and each at one position. -/
structure DirFits (s : FileSys) (i : Inode) : Prop where
  aligned : i.iSize % dirEntrySize = 0
  blocks : ∀ k < 140, blockAddrs s.disk i k ≠ 0 → BlockUsed P s (blockAddrs s.disk i k)
  table : i.iSectors 12 ≠ 0 → BlockUsed P s (i.iSectors 12)
  apart : ∀ k < 140, blockAddrs s.disk i k ≠ 0 → blockAddrs s.disk i k ≠ i.iSectors 12
  once : ∀ j < 140, ∀ k < 140, blockAddrs s.disk i j ≠ 0 → blockAddrs s.disk i j = blockAddrs s.disk i k → j = k

/-- An entry as create_dir_entry makes it. -/
structure EntryFits (de : DirEntry) : Prop where
  used : de.fType ≠ ftUnknown
  fType : de.fType < 2 ^ 32

/-- The directory holds the new entry besides the old ones, and every block that held an old
one. -/
structure EntryAdded (s t : FileSys) (o : Nat) (de : DirEntry) : Prop where
  entries : (liveEntries t.disk (t.inode o)).Perm (entryBytes (encodeEntry de) 0 :: liveEntries s.disk (s.inode o))
  size : (t.inode o).iSize = (s.inode o).iSize + dirEntrySize
  kept : ∀ k < 140, entriesAt s.disk (s.inode o) k ≠ [] →
    ∃ j < 140, blockAddrs t.disk (t.inode o) j = blockAddrs s.disk (s.inode o) k

/-- All blocks the inode names itself are there and have no free slot. -/
def DirectFull (s : FileSys) (i : Inode) : Prop :=
  ∀ k < 12, i.iSectors k ≠ 0 ∧ freeEntry (sector s.disk (i.iSectors k)) = none

def DirFull (s : FileSys) (i : Inode) : Prop :=
  ∀ k < 140, blockAddrs s.disk i k ≠ 0 ∧ freeEntry (sector s.disk (blockAddrs s.disk i k)) = none

/-- There is no block for the entry: none at all, or only one when a table is needed too. -/
def TooFewBlocks (s : FileSys) (i : Inode) : Prop :=
  (∀ bit, ¬ BlockFree P s bit) ∨
    DirectFull s i ∧ ∀ a b, BlockFree P s a → BlockFree P s b → a = b

/-- What is expected of sync_dir_entry in one state; the ASSERT of bitmap_scan may stop it when
the bitmap is full. -/
def SyncCorrect (s : FileSys) (dir : Dir) (de : DirEntry) : Prop :=
  wp (syncDirEntry P dir de) (fun added t =>
      if added then EntryAdded s t (s.inodeOf dir) de
      else DirFull s (s.inode (s.inodeOf dir)) ∨ TooFewBlocks P s (s.inode (s.inodeOf dir)))
    (fun f => f = .assertion ∧ P.scanAsserts = true ∧ TooFewBlocks P s (s.inode (s.inodeOf dir))) s

section Allocation
variable {P} {s : FileSys}

theorem Partition.Fits.sects (fits : P.Fits) : P.blockBitmapSects ≤ 40 := by
  obtain ⟨boot, room, inside⟩ := fits
  simp only [maxLba] at inside
  simp only [Partition.blockBitmapSects, Partition.blockBitmapBitLen, Partition.freeSects, Partition.usedSects,
    Partition.inodeBitmapSects, Partition.inodeTableSects, divRoundUp]
  omega

/-- The bit of a block is found again from its address. -/
theorem blockBitmapIdx_data {bit : Nat} (h : bit < 2 ^ 32) : blockBitmapIdx P (P.dataStartLba + bit) = bit := by
  rw [blockBitmapIdx, Nat.add_assoc, Nat.add_sub_cancel_left, Nat.add_mod_right, Nat.mod_eq_of_lt h]

theorem BlockFree.idx (fits : P.Fits) {bit : Nat} (clear : BlockFree P s bit) :
    blockBitmapIdx P (P.dataStartLba + bit) = bit := by
  have sects := fits.sects
  have inside := clear.1
  exact blockBitmapIdx_data (by omega)

/-- bitmap_scan finds a clear bit if there is one among the bits of the bitmap. -/
theorem bitmapScan_spec (asserts : Bool) (bits : Nat → Bool) (n : Nat) :
    wp (bitmapScan asserts bits n) (fun r t => t = s ∧
        ((r = none ∧ ∀ bit < 8 * n, bits bit = true) ∨ ∃ bit < 8 * n, bits bit = false ∧ r = some bit))
      (fun f => f = .assertion ∧ asserts = true ∧ ∀ bit < 8 * n, bits bit = true) s := by
  unfold bitmapScan
  split
  · next byte =>
    have full : ∀ bit < 8 * n, bits bit = true := by
      intro bit room
      by_contra clear
      apply List.find?_eq_none.1 byte (bit / 8) (List.mem_range.2 (by omega))
      apply List.any_eq_true.2
      refine ⟨bit % 8, List.mem_range.2 (Nat.mod_lt _ (by decide)), ?_⟩
      rw [Nat.div_add_mod]
      simpa using clear
    rw [wp_bind, wp_assert, wp_pure]
    constructor
    · intro _
      exact ⟨rfl, Or.inl ⟨rfl, full⟩⟩
    · intro on
      exact ⟨rfl, by simpa using on, full⟩
  · next i byte =>
    have found := List.find?_some byte
    have room := List.mem_range.1 (List.mem_of_find?_eq_some byte)
    rw [wp_pure]
    refine ⟨rfl, Or.inr ?_⟩
    cases first : (List.range 8).find? fun j => !bits (8 * i + j) with
    | none =>
      obtain ⟨j, hj, clear⟩ := List.any_eq_true.1 found
      exact (List.find?_eq_none.1 first j hj clear).elim
    | some j =>
      have clear := List.find?_some first
      have low := List.mem_range.1 (List.mem_of_find?_eq_some first)
      exact ⟨8 * i + j, by omega, by simpa using clear, rfl⟩

theorem wp_bitmapSet {bits : Nat → Bool} {n bit : Nat} {value : Bool} {Q : (Nat → Bool) → FileSys → Prop}
    {E : Fault → Prop} (h : bit < 8 * n) :
    wp (bitmapSet bits n bit value) Q E s ↔ Q (Function.update bits bit value) s := by
  rw [bitmapSet, wp_bind, wp_check, wp_pure]
  exact ⟨fun run => run.1 h, fun post => ⟨fun _ => post, fun out => (out h).elim⟩⟩

/-- block_bitmap_alloc takes a free block, or there is none. -/
theorem blockBitmapAlloc_spec :
    wp (blockBitmapAlloc P) (fun r t => (r = none ∧ t = s ∧ ∀ bit, ¬ BlockFree P s bit) ∨
        ∃ bit, BlockFree P s bit ∧ r = some (P.dataStartLba + bit) ∧
          t = { s with blockBitmap := Function.update s.blockBitmap bit true })
      (fun f => f = .assertion ∧ P.scanAsserts = true ∧ ∀ bit, ¬ BlockFree P s bit) s := by
  have size : 8 * (512 * P.blockBitmapSects) = 4096 * P.blockBitmapSects := by omega
  have none_free : (∀ bit < 8 * (512 * P.blockBitmapSects), s.blockBitmap bit = true) →
      ∀ bit, ¬ BlockFree P s bit := by
    intro full bit ⟨room, clear⟩
    rw [full bit (size ▸ room)] at clear
    cases clear
  unfold blockBitmapAlloc
  dsimp only
  rw [wp_bind, wp_get, wp_bind]
  apply wp_mono (bitmapScan_spec P.scanAsserts s.blockBitmap (512 * P.blockBitmapSects))
  · rintro r t ⟨rfl, ⟨rfl, full⟩ | ⟨bit, room, clear, rfl⟩⟩
    · exact (wp_pure _).2 (Or.inl ⟨rfl, rfl, none_free full⟩)
    · dsimp only
      rw [wp_bind, wp_get, wp_bind, wp_bitmapSet room, wp_bind, wp_modify, wp_pure]
      exact Or.inr ⟨bit, ⟨size ▸ room, clear⟩, rfl, rfl⟩
  · rintro f ⟨rfl, on, full⟩
    exact ⟨rfl, on, none_free full⟩

/-- Writing one sector of the block bitmap leaves the data area alone. -/
theorem bitmapSync_spec (fits : P.Fits) {bit : Nat} (h : bit < 4096 * P.blockBitmapSects) :
    Succeeds (bitmapSync P bit .blockBitmap) (fun _ t => ∃ d, t = { s with disk := d } ∧
      ∀ k, 512 * P.dataStartLba ≤ k → d k = s.disk k) s := by
  have table := fits.table
  have inside := fits.inside
  have before : P.blockBitmapLba + P.blockBitmapSects + 609 = P.dataStartLba := by
    simp only [Partition.dataStartLba, Partition.inodeTableLba, Partition.inodeBitmapLba, Partition.inodeBitmapSects,
      Partition.inodeTableSects]
  have low : P.blockBitmapLba + bit / 4096 ≤ maxLba := by
    simp only [Partition.inodeTableLba, Partition.inodeBitmapLba] at table
    omega
  rw [bitmapSync, Succeeds, wp_bind, wp_get]
  apply (wp_ideWrite_iff low (by decide)).2
  refine ⟨_, rfl, ?_⟩
  intro k hk
  exact blit_of_not_mem (by omega)

end Allocation

/-! What sync_dir_entry does. -/

/-- The memory of a directory with an entry more, and its disk. -/
def FileSys.withEntry (s : FileSys) (bits : Nat → Bool) (disk : Buf) (o : Nat) (i : Inode) : FileSys :=
  { s with blockBitmap := bits, disk := disk }.setInode o { i with iSize := i.iSize + dirEntrySize }

/-- The first sector of a new block of entries. -/
def newBlock (de : DirEntry) : Buf := blit (fun _ => 0) 0 dirEntrySize (encodeEntry de)

variable (P : Partition) in
/-- The ways in which sync_dir_entry ends, for the inode i at the pointer o. -/
inductive SyncOutcome (s : FileSys) (o : Nat) (i : Inode) (de : DirEntry) : Bool → FileSys → Prop where
  | slot (k idx : Nat) (hk : k < 12) (there : i.iSectors k ≠ 0)
      (clear : freeEntry (sector s.disk (i.iSectors k)) = some idx) :
      SyncOutcome s o i de true (s.withEntry s.blockBitmap
        (blit s.disk (512 * i.iSectors k + dirEntrySize * idx) dirEntrySize (encodeEntry de)) o i)
  | direct (k bit : Nat) (d : Buf) (hk : k < 12) (absent : i.iSectors k = 0) (clear : BlockFree P s bit)
      (low : P.dataStartLba + bit ≤ maxLba) (data : ∀ m, 512 * P.dataStartLba ≤ m → d m = s.disk m) :
      SyncOutcome s o i de true (s.withEntry (Function.update s.blockBitmap bit true)
        (blit d (512 * (P.dataStartLba + bit)) 512 (newBlock de)) o (i.setSector k (P.dataStartLba + bit)))
  | indirect (a b : Nat) (d : Buf) (bits : Nat → Bool) (full : DirectFull s i) (clear : BlockFree P s a)
      (other : BlockFree P s b) (apart : a ≠ b) (low : P.dataStartLba + b ≤ maxLba) (data : ∀ m, 512 * P.dataStartLba ≤ m → d m = s.disk m) :
      SyncOutcome s o i de true (s.withEntry bits
        (blit (blit d (512 * (P.dataStartLba + a)) 512
            (tableBytes (Function.update (fun k => if k < 12 then i.iSectors k else 0) 12 (P.dataStartLba + b))))
          (512 * (P.dataStartLba + b)) 512 (newBlock de)) o (i.setSector 12 (P.dataStartLba + a)))
  | noRoom (t : FileSys) (few : TooFewBlocks P s i) : SyncOutcome s o i de false t

variable (P : Partition) in
/-- An ASSERT of bitmap_scan or of ide_write has failed. -/
def SyncStops (s : FileSys) (i : Inode) (f : Fault) : Prop :=
  f = .assertion ∧ (P.scanAsserts = true ∧ TooFewBlocks P s i ∨ ¬ FreeOnDisk P s)

section Outcome
variable {P : Partition} {s : FileSys} {o : Nat} {i : Inode} {de : DirEntry}

/-- The write of a sector, wherever it is to go. -/
theorem wp_writeSector {t : FileSys} {lba : Nat} {buf : Buf} {Q : Unit → FileSys → Prop} {E : Fault → Prop}
    (written : lba ≤ maxLba → Q () { t with disk := blit t.disk (512 * lba) (512 * 1) buf }) (stopped : maxLba < lba → E .assertion) :
    wp (ideWrite lba buf 1) Q E t := by
  by_cases low : lba ≤ maxLba
  · exact (wp_ideWrite_iff low (by decide)).2 (written low)
  · rw [ideWrite, wp_bind, wp_assert]
    exact ⟨fun inside => (low inside).elim, fun _ => stopped (Nat.lt_of_not_le low)⟩

/-- Storing the new entry in its new block. -/
theorem wp_storeNew {t : FileSys} {lba : Nat} {E : Fault → Prop} {Q : Bool → FileSys → Prop}
    (stored : lba ≤ maxLba → Q true (t.withEntry t.blockBitmap (blit t.disk (512 * lba) 512 (newBlock de)) o (t.inode o)))
    (stopped : maxLba < lba → E .assertion) :
    wp (do
        ideWrite lba (blit (fun _ => 0) 0 dirEntrySize (encodeEntry de)) 1
        modifyInode o fun i => { i with iSize := i.iSize + dirEntrySize }
        pure true) Q E t := by
  rw [wp_bind]
  refine wp_writeSector (fun low => ?_) stopped
  rw [modifyInode, wp_bind, wp_modify, wp_pure]
  exact stored low

theorem BlockFree.stops {bit : Nat} (clear : BlockFree P s bit) (high : maxLba < P.dataStartLba + bit) : SyncStops P s i .assertion :=
  ⟨rfl, .inr fun low => Nat.not_lt.2 (low bit clear) high⟩

/-- A block for a position of the inode's own. -/
theorem growDirect_spec (fits : P.Fits) (at_o : s.inode o = i) {k : Nat} (hk : k < 12)
    (blocks : Nat → Nat) :
    wp (growDir P o k blocks) (fun r t => (r = none ∧ TooFewBlocks P s i) ∨
        ∃ bit d, BlockFree P s bit ∧ r = some (P.dataStartLba + bit) ∧
          (∀ m, 512 * P.dataStartLba ≤ m → d m = s.disk m) ∧
          t = { s with blockBitmap := Function.update s.blockBitmap bit true, disk := d }.setInode o
            (i.setSector k (P.dataStartLba + bit)))
      (SyncStops P s i) s := by
  rw [growDir, wp_bind]
  apply wp_mono blockBitmapAlloc_spec
  · rintro r t (⟨rfl, rfl, few⟩ | ⟨bit, clear, rfl, rfl⟩)
    · exact (wp_pure _).2 (Or.inl ⟨rfl, Or.inl few⟩)
    · dsimp only
      rw [clear.idx fits, wp_bind]
      apply wp_mono (bitmapSync_spec fits clear.1) ?_ fun _ none => none.elim
      rintro _ t ⟨d, rfl, data⟩
      rw [if_pos hk, modifyInode, wp_bind, wp_modify, wp_pure]
      refine Or.inr ⟨bit, d, clear, rfl, data, ?_⟩
      rw [← at_o]
  · rintro f ⟨rfl, on, few⟩
    exact ⟨rfl, .inl ⟨on, .inl few⟩⟩

/-- A block for the first position of the table, with a new table. -/
theorem growIndirect_spec (fits : P.Fits) (at_o : s.inode o = i) (full : DirectFull s i) :
    wp (growDir P o 12 fun k => if k < 12 then i.iSectors k else 0) (fun r t => (r = none ∧ TooFewBlocks P s i) ∨
        ∃ a b d bits, BlockFree P s a ∧ P.dataStartLba + a ≤ maxLba ∧ BlockFree P s b ∧ a ≠ b ∧ r = some (P.dataStartLba + b) ∧
          (∀ m, 512 * P.dataStartLba ≤ m → d m = s.disk m) ∧
          t = { s with
            blockBitmap := bits
            disk := blit d (512 * (P.dataStartLba + a)) 512
              (tableBytes (Function.update (fun k => if k < 12 then i.iSectors k else 0) 12
                (P.dataStartLba + b))) }.setInode
            o (i.setSector 12 (P.dataStartLba + a)))
      (SyncStops P s i) s := by
  rw [growDir, wp_bind]
  apply wp_mono blockBitmapAlloc_spec
  · rintro r t (⟨rfl, rfl, few⟩ | ⟨a, clear, rfl, rfl⟩)
    · exact (wp_pure _).2 (Or.inl ⟨rfl, Or.inl few⟩)
    · dsimp only
      rw [clear.idx fits, wp_bind]
      apply wp_mono (bitmapSync_spec fits clear.1) ?_ fun _ none => none.elim
      rintro _ t ⟨d, rfl, data⟩
      rw [if_neg (by decide), if_pos rfl, modifyInode, wp_bind, wp_modify, wp_bind]
      -- what is free now was free before and is not the first block
      have was_free : ∀ {b : Nat}, b < 4096 * P.blockBitmapSects →
          Function.update s.blockBitmap a true b = false → BlockFree P s b ∧ a ≠ b := by
        intro b room now
        have hab : b ≠ a := by
          intro he
          rw [he, Function.update_self] at now
          cases now
        rw [Function.update_of_ne hab] at now
        exact ⟨⟨room, now⟩, hab.symm⟩
      have few_left : (∀ bit, ¬ BlockFree P { s with blockBitmap := Function.update s.blockBitmap a true } bit) →
          TooFewBlocks P s i := by
        intro none_left
        refine Or.inr ⟨full, fun x y hx hy => ?_⟩
        have only : ∀ z, BlockFree P s z → z = a := by
          intro z hz
          by_contra hza
          exact none_left z ⟨hz.1, (Function.update_of_ne hza ..).trans hz.2⟩
        rw [only x hx, only y hy]
      apply wp_mono blockBitmapAlloc_spec
      · rintro r t (⟨rfl, rfl, few⟩ | ⟨b, again, rfl, rfl⟩)
        · have room : a < 8 * (512 * P.blockBitmapSects) := by
            have low_bit := clear.1
            omega
          dsimp only
          rw [wp_bind, wp_get, wp_bind, wp_bitmapSet room, wp_bind, wp_modify, modifyInode, wp_bind, wp_modify,
            wp_pure]
          exact Or.inl ⟨rfl, few_left few⟩
        · obtain ⟨free, apart⟩ := was_free again.1 again.2
          dsimp only
          rw [free.idx fits, wp_bind]
          apply wp_mono (bitmapSync_spec fits free.1) ?_ fun _ none => none.elim
          rintro _ t ⟨d', rfl, data'⟩
          rw [wp_bind]
          refine wp_writeSector (fun low => (wp_pure _).2 ?_) fun high => clear.stops high
          refine Or.inr ⟨a, b, d', Function.update (Function.update s.blockBitmap a true) b true, clear, low, free, apart, rfl,
            fun m hm => (data' m hm).trans (data m hm), ?_⟩
          rw [← at_o]
          rfl
      · rintro f ⟨rfl, on, few⟩
        exact ⟨rfl, .inl ⟨on, few_left few⟩⟩
  · rintro f ⟨rfl, on, few⟩
    exact ⟨rfl, .inl ⟨on, .inl few⟩⟩

theorem wp_readSector {lba : Nat} {Q : Buf → FileSys → Prop} {E : Fault → Prop} (low : lba ≤ maxLba) :
    wp (ideRead lba 1) Q E s ↔ Q (sector s.disk lba) s := wp_ideRead_iff low (by decide)

theorem blit_sector {disk slot : Buf} {lba off n : Nat} (room : off + n ≤ 512) :
    blit disk (512 * lba) (512 * 1) (blit (sector disk lba) off n slot) = blit disk (512 * lba + off) n slot :=
  blit_blit room

theorem withEntry_after (bits : Nat → Bool) (d : Buf) (x : Inode) (p n : Nat) (b : Buf) :
    let t := { s with blockBitmap := bits, disk := d }.setInode o x
    t.withEntry t.blockBitmap (blit t.disk p n b) o (t.inode o) = s.withEntry bits (blit d p n b) o x := by
  simp [FileSys.withEntry, FileSys.setInode]

/-- The main loop, from a block before which every one is there and full. -/
theorem insertEntry_spec (fits : P.Fits) (dir : DirFits P s i) (at_o : s.inode o = i) (n : Nat) :
    ∀ k, n + k = 140 → k ≤ 12 →
      (∀ j < k, i.iSectors j ≠ 0 ∧ freeEntry (sector s.disk (i.iSectors j)) = none) →
      wp (insertEntry P o de (fun k => if k < 12 then i.iSectors k else 0) n k)
        (fun added t => SyncOutcome P s o i de added t) (SyncStops P s i) s := by
  induction n with
  | zero =>
    intro k rounds low _
    omega
  | succ n ih =>
    intro k rounds low before
    rw [insertEntry, wp_ite]
    rcases Nat.lt_or_eq_of_le low with hk | rfl
    · rw [if_pos hk]
      constructor
      · intro absent
        rw [wp_bind]
        apply wp_post (growDirect_spec fits at_o hk _)
        rintro r t (⟨rfl, few⟩ | ⟨bit, d, clear, rfl, data, rfl⟩)
        · exact (wp_pure _).2 (.noRoom _ few)
        · refine wp_storeNew (fun low => ?_) fun high => clear.stops high
          rw [withEntry_after]
          exact .direct k bit d hk absent clear low data
      · intro there
        have addr : blockAddrs s.disk i k = i.iSectors k := if_pos hk
        have lba := (dir.blocks k (by omega) (by rwa [addr])).disk
        rw [addr] at lba
        rw [wp_bind, wp_readSector lba]
        cases clear : freeEntry (sector s.disk (i.iSectors k)) with
        | some idx =>
          have slot := List.mem_range.1 (List.mem_of_find?_eq_some clear)
          have room : dirEntrySize * idx + dirEntrySize ≤ 512 := by
            simp only [dirEntrysPerSec, dirEntrySize] at slot ⊢
            omega
          dsimp only
          rw [wp_bind, wp_ideWrite_iff lba (by decide), modifyInode, wp_bind, wp_modify, wp_pure, blit_sector room]
          have outcome : SyncOutcome P s o _ de true _ := .slot k idx hk there clear
          rw [← at_o] at outcome ⊢
          exact outcome
        | none =>
          dsimp only
          apply ih (k + 1) (by omega) hk
          intro j hj
          rcases Nat.lt_succ_iff_lt_or_eq.1 hj with earlier | rfl
          · exact before j earlier
          · exact ⟨there, clear⟩
    · rw [if_neg (by decide)]
      refine ⟨fun _ => ?_, fun there => (there rfl).elim⟩
      rw [wp_bind]
      apply wp_post (growIndirect_spec fits at_o before)
      rintro r t (⟨rfl, few⟩ | ⟨a, b, d, bits, clear, -, other, apart, rfl, data, rfl⟩)
      · exact (wp_pure _).2 (.noRoom _ few)
      · refine wp_storeNew (fun low => ?_) fun high => other.stops high
        rw [withEntry_after]
        exact .indirect a b d bits before clear other apart low data

theorem syncDirEntry_spec (fits : P.Fits) {dir : Dir} (wf : DirFits P s (s.inode (s.inodeOf dir))) :
    wp (syncDirEntry P dir de)
      (fun added t => SyncOutcome P s (s.inodeOf dir) (s.inode (s.inodeOf dir)) de added t)
      (SyncStops P s (s.inode (s.inodeOf dir))) s := by
  rw [syncDirEntry, wp_bind, wp_get]
  dsimp only
  rw [wp_bind, wp_assert]
  refine ⟨fun _ => ?_, fun odd => (odd wf.aligned).elim⟩
  exact insertEntry_spec fits wf rfl 140 0 rfl (Nat.zero_le 12) fun j hj => absurd hj (Nat.not_lt_zero j)

end Outcome

/-! What a scan finds afterwards. -/
section Scan
variable {disk d b slot : Buf} {de : DirEntry}

theorem entryFType_encode (fits : EntryFits de) : word (encodeEntry de) 20 = de.fType := by
  have shifted : word (encodeEntry de) 20 =
      word (ofWords fun i => if i = 0 then de.iNo else if i = 1 then de.fType else 0) (4 * 1) := by
    apply word_congr
    intro k hk
    have behind : ¬ 20 + k < 16 := by omega
    have place : 20 + k - 16 = 4 * 1 + k := by omega
    rw [encodeEntry, if_neg behind, place]
  rw [shifted, word_ofWords]
  exact Nat.mod_eq_of_lt fits.fType

/-- The entry written into a slot of a block. -/
theorem liveEntry_blit (fits : EntryFits de) (idx : Nat) :
    liveEntry (blit b (dirEntrySize * idx) dirEntrySize (encodeEntry de)) idx = [entryBytes (encodeEntry de) 0] := by
  have kind : entryFType (blit b (dirEntrySize * idx) dirEntrySize (encodeEntry de)) idx = de.fType := by
    rw [entryFType, word_blit_in (by omega) (by simp only [dirEntrySize]; omega), Nat.add_sub_cancel_left]
    exact entryFType_encode fits
  have bytes : entryBytes (blit b (dirEntrySize * idx) dirEntrySize (encodeEntry de)) idx =
      entryBytes (encodeEntry de) 0 := by
    apply List.map_congr_left
    intro k hk
    have low := List.mem_range.1 hk
    rw [blit_of_mem (by omega) (by omega), Nat.add_sub_cancel_left, Nat.mul_zero, Nat.zero_add]
  rw [liveEntry, kind, if_pos fits.used, bytes]

theorem liveEntry_blit_other {idx j : Nat} (other : j ≠ idx) :
    liveEntry (blit b (dirEntrySize * idx) dirEntrySize slot) j = liveEntry b j := by
  have apart : dirEntrySize * j + dirEntrySize ≤ dirEntrySize * idx ∨
      dirEntrySize * idx + dirEntrySize ≤ dirEntrySize * j := by
    simp only [dirEntrySize]
    omega
  have kind : entryFType (blit b (dirEntrySize * idx) dirEntrySize slot) j = entryFType b j :=
    word_blit_out (by simp only [dirEntrySize] at apart ⊢; omega)
  have bytes : entryBytes (blit b (dirEntrySize * idx) dirEntrySize slot) j = entryBytes b j := by
    apply List.map_congr_left
    intro k hk
    have low := List.mem_range.1 hk
    exact blit_of_not_mem (by omega)
  rw [liveEntry, kind, bytes, liveEntry]

/-- Writing an entry into a slot not in use adds it to the block. -/
theorem blockEntries_blit (fits : EntryFits de) {idx : Nat} (room : idx < dirEntrysPerSec)
    (clear : entryFType b idx = ftUnknown) :
    (blockEntries (blit b (dirEntrySize * idx) dirEntrySize (encodeEntry de))).Perm
      (entryBytes (encodeEntry de) 0 :: blockEntries b) := by
  apply flatMap_insert List.nodup_range (List.mem_range.2 room)
  · have none_here : liveEntry b idx = [] := if_neg (not_not.2 clear)
    rw [liveEntry_blit fits, none_here]
  · intro j _ other
    exact liveEntry_blit_other other

/-- A new block holds the new entry and no other. -/
theorem blockEntries_new (fits : EntryFits de) : blockEntries (newBlock de) = [entryBytes (encodeEntry de) 0] := by
  have zero : blockEntries (fun _ => 0) = [] := by
    rw [blockEntries, List.flatMap_eq_nil_iff]
    intro idx _
    rfl
  have added : (blockEntries (blit (fun _ => 0) (dirEntrySize * 0) dirEntrySize (encodeEntry de))).Perm _ :=
    blockEntries_blit fits (by decide) rfl
  rw [zero] at added
  exact List.perm_singleton.1 added

theorem sector_blit_same {lba off n : Nat} (room : off + n ≤ 512) :
    sector (blit disk (512 * lba + off) n slot) lba = blit (sector disk lba) off n slot := by
  funext k
  by_cases here : off ≤ k ∧ k < off + n
  · have low : k < 512 * 1 := by omega
    have place : 512 * lba + k - (512 * lba + off) = k - off := by omega
    rw [sector, if_pos low, blit_of_mem (by omega) (by omega), blit_of_mem here.1 here.2, place]
  · rw [blit_of_not_mem (by omega), sector, sector]
    split
    · exact blit_of_not_mem (by omega)
    · rfl

theorem sector_blit_other {lba a off n : Nat} (room : off + n ≤ 512) (other : lba ≠ a) :
    sector (blit disk (512 * a + off) n slot) lba = sector disk lba := by
  funext k
  rw [sector, sector]
  split
  · exact blit_of_not_mem (by omega)
  · rfl

/-- Reading a whole sector that has just been written. -/
theorem blockEntries_sector_blit {lba : Nat} : blockEntries (sector (blit disk (512 * lba) 512 slot) lba) = blockEntries slot := by
  have same : ∀ k < 512, sector (blit disk (512 * lba) 512 slot) lba k = slot k := by
    intro k hk
    have low : k < 512 * 1 := by omega
    rw [sector, if_pos low, blit_of_mem (by omega) (by omega), Nat.add_sub_cancel_left]
  apply List.flatMap_congr
  intro idx hidx
  have room : dirEntrySize * idx + dirEntrySize ≤ 512 := by
    have low := List.mem_range.1 hidx
    simp only [dirEntrysPerSec, dirEntrySize] at low ⊢
    omega
  have kind : entryFType (sector (blit disk (512 * lba) 512 slot) lba) idx = entryFType slot idx := by
    apply word_congr
    intro k hk
    exact same _ (by simp only [dirEntrySize] at room ⊢; omega)
  have bytes : entryBytes (sector (blit disk (512 * lba) 512 slot) lba) idx = entryBytes slot idx := by
    apply List.map_congr_left
    intro k hk
    have low := List.mem_range.1 hk
    exact same _ (by omega)
  rw [liveEntry, kind, bytes, liveEntry]

theorem sector_congr {lba : Nat} (same : ∀ k < 512, d (512 * lba + k) = disk (512 * lba + k)) :
    sector d lba = sector disk lba := by
  funext k
  rw [sector, sector]
  split
  · exact same k (by omega)
  · rfl

end Scan

section Results
variable {P : Partition} {s : FileSys} {o : Nat} {i : Inode} {de : DirEntry}

theorem withEntry_inode (bits : Nat → Bool) (d : Buf) :
    (s.withEntry bits d o i).inode o = { i with iSize := i.iSize + dirEntrySize } :=
  FileSys.setInode_self ..

theorem setSector_self (i : Inode) (k lba : Nat) : (i.setSector k lba).iSectors k = lba := Function.update_self ..

theorem setSector_of_ne (i : Inode) {k m : Nat} (lba : Nat) (h : m ≠ k) :
    (i.setSector k lba).iSectors m = i.iSectors m := Function.update_of_ne h ..

/-- A block in use is not one that is free. -/
theorem BlockUsed.ne_free {lba bit : Nat} (used : BlockUsed P s lba) (clear : BlockFree P s bit) :
    lba ≠ P.dataStartLba + bit := by
  intro he
  have set := used.used
  rw [he, Nat.add_sub_cancel_left, clear.2] at set
  cases set

theorem BlockUsed.ne_zero (fits : P.Fits) {lba : Nat} (used : BlockUsed P s lba) : lba ≠ 0 := by
  have start := used.data
  have boot := fits.boot
  simp only [Partition.dataStartLba, Partition.inodeTableLba, Partition.inodeBitmapLba, Partition.blockBitmapLba] at start
  omega

/-- The table's words do not change when other blocks are written. -/
theorem blockAddrs_indirect {d : Buf} {j : Inode} {k : Nat} (hk : 12 ≤ k) (room : k < 140)
    (table : j.iSectors 12 = i.iSectors 12)
    (same : i.iSectors 12 ≠ 0 → sector d (i.iSectors 12) = sector s.disk (i.iSectors 12)) :
    blockAddrs d j k = blockAddrs s.disk i k := by
  have high : ¬ k < 12 := by omega
  rw [blockAddrs, blockAddrs, if_neg high, if_neg high, table]
  split
  · next there =>
    have bytes := congrFun (same there)
    apply word_congr
    intro m hm
    have here := bytes (4 * (k - 12) + m)
    have low : 4 * (k - 12) + m < 512 * 1 := by omega
    rwa [sector, sector, if_pos low, if_pos low, ← Nat.add_assoc] at here
  · rfl

/-- The entry goes into a slot of a block of the directory. -/
theorem slot_added (wf : DirFits P s i) (at_o : s.inode o = i) (fits : EntryFits de) {k idx : Nat} (hk : k < 12)
    (there : i.iSectors k ≠ 0) (clear : freeEntry (sector s.disk (i.iSectors k)) = some idx) :
    EntryAdded s (s.withEntry s.blockBitmap
      (blit s.disk (512 * i.iSectors k + dirEntrySize * idx) dirEntrySize (encodeEntry de)) o i) o de := by
  subst at_o
  have slot := List.mem_range.1 (List.mem_of_find?_eq_some clear)
  have unused : entryFType (sector s.disk ((s.inode o).iSectors k)) idx = ftUnknown := by
    simpa using List.find?_some clear
  have room : dirEntrySize * idx + dirEntrySize ≤ 512 := by
    simp only [dirEntrysPerSec, dirEntrySize] at slot ⊢
    omega
  have at_k : blockAddrs s.disk (s.inode o) k = (s.inode o).iSectors k := if_pos hk
  generalize disk : blit s.disk (512 * (s.inode o).iSectors k + dirEntrySize * idx) dirEntrySize (encodeEntry de) = d
  have others : ∀ lba, lba ≠ (s.inode o).iSectors k → sector d lba = sector s.disk lba := by
    intro lba other
    rw [← disk]
    exact sector_blit_other room other
  have addrs : ∀ j < 140, blockAddrs d { s.inode o with iSize := (s.inode o).iSize + dirEntrySize } j =
      blockAddrs s.disk (s.inode o) j := by
    intro j hj
    by_cases low : j < 12
    · rw [blockAddrs, blockAddrs, if_pos low, if_pos low]
    · apply blockAddrs_indirect (Nat.le_of_not_lt low) hj rfl
      intro _
      apply others
      intro he
      exact wf.apart k (by omega) (at_k ▸ there) (at_k.trans he.symm)
  refine ⟨?_, ?_, ?_⟩
  · rw [withEntry_inode]
    show (liveEntries d _).Perm _
    apply flatMap_insert List.nodup_range (List.mem_range.2 (show k < 140 by omega))
    · rw [entriesAt, entriesAt, addrs k (by omega), at_k, if_neg there, if_neg there, ← disk, sector_blit_same room]
      exact blockEntries_blit fits slot unused
    · intro j hj other
      have low := List.mem_range.1 hj
      rw [entriesAt, entriesAt, addrs j low]
      split
      · rfl
      · next here =>
        rw [others]
        intro he
        exact other (wf.once j low k (by omega) here (he.trans at_k.symm))
  · rw [withEntry_inode]
  · intro j hj _
    refine ⟨j, hj, ?_⟩
    rw [withEntry_inode]
    show blockAddrs d _ j = _
    exact addrs j hj

/-- A new block at a position where there was none adds the entry in it. -/
theorem new_block_added {disk d : Buf} {i j : Inode} {k lba : Nat} (hk : k < 140) (absent : blockAddrs disk i k = 0)
    (addr : blockAddrs d j k = lba) (there : lba ≠ 0) (block : blockEntries (sector d lba) = [entryBytes (encodeEntry de) 0])
    (addrs : ∀ m < 140, m ≠ k → blockAddrs d j m = blockAddrs disk i m)
    (sectors : ∀ m < 140, blockAddrs disk i m ≠ 0 → sector d (blockAddrs disk i m) = sector disk (blockAddrs disk i m)) :
    (liveEntries d j).Perm (entryBytes (encodeEntry de) 0 :: liveEntries disk i) := by
  apply flatMap_insert List.nodup_range (List.mem_range.2 hk)
  · rw [entriesAt, entriesAt, absent, addr, if_neg there, if_pos rfl, block]
  · intro m hm other
    have low := List.mem_range.1 hm
    rw [entriesAt, entriesAt, addrs m low other]
    split
    · rfl
    · next here => rw [sectors m low here]

/-- Writing the bitmap and a free block leaves the blocks in use as they were. -/
theorem sector_kept {d slot : Buf} {lba bit : Nat} (data : ∀ m, 512 * P.dataStartLba ≤ m → d m = s.disk m)
    (used : BlockUsed P s lba) (clear : BlockFree P s bit) :
    sector (blit d (512 * (P.dataStartLba + bit)) 512 slot) lba = sector s.disk lba := by
  have other := used.ne_free clear
  have start := used.data
  have away : sector (blit d (512 * (P.dataStartLba + bit) + 0) 512 slot) lba = sector d lba :=
    sector_blit_other (Nat.le_refl _) other
  rw [Nat.add_zero] at away
  rw [away]
  apply sector_congr
  intro k _
  exact data _ (by omega)

theorem direct_added (parts : P.Fits) (wf : DirFits P s i) (at_o : s.inode o = i) (fits : EntryFits de) {k bit : Nat}
    {d : Buf} (hk : k < 12) (absent : i.iSectors k = 0) (clear : BlockFree P s bit)
    (data : ∀ m, 512 * P.dataStartLba ≤ m → d m = s.disk m) (bits : Nat → Bool) :
    EntryAdded s (s.withEntry bits (blit d (512 * (P.dataStartLba + bit)) 512 (newBlock de)) o
      (i.setSector k (P.dataStartLba + bit))) o de := by
  subst at_o
  generalize disk : blit d (512 * (P.dataStartLba + bit)) 512 (newBlock de) = d'
  have kept : ∀ lba, BlockUsed P s lba → sector d' lba = sector s.disk lba := by
    intro lba used
    rw [← disk]
    exact sector_kept data used clear
  have low_k : k < 140 := by omega
  have none_there : blockAddrs s.disk (s.inode o) k = 0 := (if_pos hk).trans absent
  have start : P.dataStartLba + bit ≠ 0 := by
    have boot := parts.boot
    simp only [Partition.dataStartLba, Partition.inodeTableLba, Partition.inodeBitmapLba, Partition.blockBitmapLba]
    omega
  have addrs : ∀ size : Nat, ∀ m < 140, m ≠ k →
      blockAddrs d' { (s.inode o).setSector k (P.dataStartLba + bit) with iSize := size } m =
        blockAddrs s.disk (s.inode o) m := by
    intro size m hm other
    by_cases low : m < 12
    · rw [blockAddrs, blockAddrs, if_pos low, if_pos low]
      exact Function.update_of_ne other ..
    · apply blockAddrs_indirect (Nat.le_of_not_lt low) hm
      · exact Function.update_of_ne (by omega) ..
      · intro table
        exact kept _ (wf.table table)
  have addr : ∀ size : Nat, blockAddrs d' { (s.inode o).setSector k (P.dataStartLba + bit) with iSize := size } k =
      P.dataStartLba + bit := by
    intro size
    rw [blockAddrs, if_pos hk]
    exact Function.update_self ..
  have block : blockEntries (sector d' (P.dataStartLba + bit)) = [entryBytes (encodeEntry de) 0] := by
    rw [← disk, blockEntries_sector_blit]
    exact blockEntries_new fits
  refine ⟨?_, ?_, ?_⟩
  · rw [withEntry_inode]
    exact new_block_added low_k none_there (addr _) start block (addrs _) fun m hm here => kept _ (wf.blocks m hm here)
  · rw [withEntry_inode]
    rfl
  · intro m hm held
    have other : m ≠ k := by
      intro he
      subst he
      exact held (if_pos none_there)
    refine ⟨m, hm, ?_⟩
    rw [withEntry_inode]
    exact addrs _ m hm other

/-- The entries in blocks the inode names itself, and those in blocks of its table. -/
theorem liveEntries_split (disk : Buf) (i : Inode) : liveEntries disk i =
    liveEntries disk (i.setSector 12 0) ++ (List.range 128).flatMap fun k => entriesAt disk i (12 + k) := by
  apply flatMap_range_first (m := 12) (n := 128)
  · intro k hk
    have other : k ≠ 12 := by omega
    have same : blockAddrs disk (i.setSector 12 0) k = blockAddrs disk i k := by
      rw [blockAddrs, blockAddrs, if_pos hk, if_pos hk]
      exact setSector_of_ne i 0 other
    rw [entriesAt, entriesAt, same]
  · intro k hk
    have high : ¬ k < 12 := by omega
    have gone : blockAddrs disk (i.setSector 12 0) k = 0 := by
      rw [blockAddrs, if_neg high]
      exact if_neg (not_not.2 (setSector_self ..))
    rw [entriesAt, if_pos gone]

/-- A new table has the address of the new block and no other. -/
theorem newTable_addrs (parts : P.Fits) (i : Inode) (de : DirEntry) (d : Buf) (size : Nat) {a b : Nat}
    (low : P.dataStartLba + b ≤ maxLba) (apart : a ≠ b) {m : Nat} (hm : 12 ≤ m) (room : m < 140) :
    blockAddrs (blit (blit d (512 * (P.dataStartLba + a)) 512
        (tableBytes (Function.update (fun k => if k < 12 then i.iSectors k else 0) 12 (P.dataStartLba + b))))
      (512 * (P.dataStartLba + b)) 512 (newBlock de)) { i.setSector 12 (P.dataStartLba + a) with iSize := size } m =
      if m = 12 then P.dataStartLba + b else 0 := by
  generalize table : tableBytes (Function.update (fun k => if k < 12 then i.iSectors k else 0) 12
    (P.dataStartLba + b)) = t
  generalize disk : blit (blit d (512 * (P.dataStartLba + a)) 512 t) (512 * (P.dataStartLba + b)) 512 (newBlock de) = d'
  have boot := parts.boot
  have start : 0 < P.dataStartLba := by
    simp only [Partition.dataStartLba, Partition.inodeTableLba, Partition.inodeBitmapLba, Partition.blockBitmapLba]
    omega
  have named : (i.setSector 12 (P.dataStartLba + a)).iSectors 12 = P.dataStartLba + a := setSector_self ..
  have words : ∀ k < 128, word d' (512 * (P.dataStartLba + a) + 4 * k) =
      if k = 0 then P.dataStartLba + b else 0 := by
    intro k hk
    have value : word t (4 * k) = if k = 0 then P.dataStartLba + b else 0 := by
      rw [← table, tableBytes, word_ofWords]
      by_cases first : k = 0
      · subst first
        simp only [maxLba] at low
        rw [Nat.zero_add, Function.update_self, if_pos rfl, Nat.mod_eq_of_lt (by omega)]
      · have high : ¬ k + 12 < 12 := by omega
        rw [Function.update_of_ne (by omega), if_neg high, if_neg first, Nat.zero_mod]
    rw [← disk, word_blit_out (by omega), word_blit_in (by omega) (by omega), Nat.add_sub_cancel_left, value]
  have high : ¬ m < 12 := by omega
  have there : (i.setSector 12 (P.dataStartLba + a)).iSectors 12 ≠ 0 := by
    rw [named]
    omega
  rw [blockAddrs, if_neg high, if_pos there, named, words (m - 12) (by omega)]
  by_cases first : m = 12
  · subst first
    rfl
  · have later : m - 12 ≠ 0 := by omega
    rw [if_neg later, if_neg first]

/-- After a new table has been made, a scan finds what the inode's own blocks held and the
new entry: whatever an old table led to is lost. -/
theorem indirect_entries (parts : P.Fits) (wf : DirFits P s i) (fits : EntryFits de) (size : Nat) {a b : Nat} {d : Buf}
    (clear : BlockFree P s a) (other : BlockFree P s b) (apart : a ≠ b) (low : P.dataStartLba + b ≤ maxLba)
    (data : ∀ m, 512 * P.dataStartLba ≤ m → d m = s.disk m) :
    (liveEntries (blit (blit d (512 * (P.dataStartLba + a)) 512
        (tableBytes (Function.update (fun k => if k < 12 then i.iSectors k else 0) 12 (P.dataStartLba + b))))
      (512 * (P.dataStartLba + b)) 512 (newBlock de)) { i.setSector 12 (P.dataStartLba + a) with iSize := size }).Perm
      (entryBytes (encodeEntry de) 0 :: liveEntries s.disk (i.setSector 12 0)) := by
  have addrs (m : Nat) (hm : 12 ≤ m) (room : m < 140) :=
    newTable_addrs parts i de d size low apart hm room
  generalize table : tableBytes (Function.update (fun k => if k < 12 then i.iSectors k else 0) 12
    (P.dataStartLba + b)) = t at addrs ⊢
  generalize disk : blit (blit d (512 * (P.dataStartLba + a)) 512 t) (512 * (P.dataStartLba + b)) 512 (newBlock de) = d'
    at addrs ⊢
  have boot := parts.boot
  have start : 0 < P.dataStartLba := by
    simp only [Partition.dataStartLba, Partition.inodeTableLba, Partition.inodeBitmapLba, Partition.blockBitmapLba]
    omega
  have base : ∀ m, 12 ≤ m → blockAddrs s.disk (i.setSector 12 0) m = 0 := by
    intro m hm
    have high : ¬ m < 12 := by omega
    rw [blockAddrs, if_neg high]
    exact if_neg (not_not.2 (setSector_self ..))
  have own : ∀ m < 12, ∀ x : Nat, (i.setSector 12 x).iSectors m = i.iSectors m :=
    fun m hm x => setSector_of_ne i x (by omega)
  have block : blockEntries (sector d' (P.dataStartLba + b)) = [entryBytes (encodeEntry de) 0] := by
    rw [← disk, blockEntries_sector_blit]
    exact blockEntries_new fits
  refine new_block_added (k := 12) (by decide) (base 12 (Nat.le_refl _)) (addrs 12 (Nat.le_refl _) (by decide)) ?_ block ?_ ?_
  · rw [if_pos rfl]
    omega
  · intro m hm not_first
    by_cases low_m : m < 12
    · rw [blockAddrs, blockAddrs, if_pos low_m, if_pos low_m, own m low_m, own m low_m]
    · rw [addrs m (by omega) hm, base m (by omega), if_neg not_first]
  · intro m hm here
    have low_m : m < 12 := by
      by_contra high
      exact here (base m (by omega))
    have same : blockAddrs s.disk (i.setSector 12 0) m = blockAddrs s.disk i m := by
      rw [blockAddrs, blockAddrs, if_pos low_m, if_pos low_m]
      exact own m low_m _
    rw [same] at here ⊢
    have used := wf.blocks m hm here
    have away : sector (blit (blit d (512 * (P.dataStartLba + a)) 512 t) (512 * (P.dataStartLba + b) + 0) 512 (newBlock de))
        (blockAddrs s.disk i m) = sector (blit d (512 * (P.dataStartLba + a)) 512 t) (blockAddrs s.disk i m) :=
      sector_blit_other (Nat.le_refl _) (used.ne_free other)
    rw [Nat.add_zero, disk] at away
    rw [away]
    exact sector_kept data used clear

/-- With a new table the entry is added exactly when an old table led to no entry. -/
theorem indirect_added (parts : P.Fits) (wf : DirFits P s i) (at_o : s.inode o = i) (fits : EntryFits de) {a b : Nat}
    {d : Buf} (clear : BlockFree P s a) (other : BlockFree P s b) (apart : a ≠ b) (low : P.dataStartLba + b ≤ maxLba)
    (data : ∀ m, 512 * P.dataStartLba ≤ m → d m = s.disk m) (bits : Nat → Bool) :
    EntryAdded s (s.withEntry bits
        (blit (blit d (512 * (P.dataStartLba + a)) 512
            (tableBytes (Function.update (fun k => if k < 12 then i.iSectors k else 0) 12 (P.dataStartLba + b))))
          (512 * (P.dataStartLba + b)) 512 (newBlock de)) o (i.setSector 12 (P.dataStartLba + a))) o de ↔
      ∀ k < 140, 12 ≤ k → entriesAt s.disk i k = [] := by
  subst at_o
  have found := indirect_entries parts wf fits ((s.inode o).iSize + dirEntrySize) clear other apart low data
  have split := liveEntries_split s.disk (s.inode o)
  constructor
  · intro added k room high
    have entries := added.entries
    rw [withEntry_inode] at entries
    have lengths := (found.symm.trans entries).length_eq
    rw [split] at lengths
    simp only [List.length_cons, List.length_append] at lengths
    have none_behind : (List.range 128).flatMap (fun k => entriesAt s.disk (s.inode o) (12 + k)) = [] :=
      List.eq_nil_of_length_eq_zero (by omega)
    have here := List.flatMap_eq_nil_iff.1 none_behind (k - 12) (List.mem_range.2 (by omega))
    rwa [Nat.add_sub_cancel' high] at here
  · intro none_behind
    have behind : (List.range 128).flatMap (fun k => entriesAt s.disk (s.inode o) (12 + k)) = [] := by
      rw [List.flatMap_eq_nil_iff]
      intro k hk
      have low := List.mem_range.1 hk
      exact none_behind (12 + k) (by omega) (Nat.le_add_right 12 k)
    refine ⟨?_, ?_, ?_⟩
    · rw [withEntry_inode, split, behind, List.append_nil]
      exact found
    · rw [withEntry_inode]
      rfl
    · intro k hk held
      have low : k < 12 := by
        by_contra high
        exact held (none_behind k hk (Nat.le_of_not_lt high))
      refine ⟨k, hk, ?_⟩
      rw [withEntry_inode, blockAddrs, blockAddrs, if_pos low, if_pos low]
      exact setSector_of_ne (s.inode o) _ (by omega)

/-- The directory needs a new block behind its own twelve, two blocks are free, and its table
leads to an entry. -/
structure TableLost (s : FileSys) (i : Inode) : Prop where
  full : DirectFull s i
  behind : ∃ k < 140, 12 ≤ k ∧ entriesAt s.disk i k ≠ []
  room : ∃ a b, BlockFree P s a ∧ BlockFree P s b ∧ a ≠ b

/-- The new table takes the place of the old one. -/
theorem TableLost.not_correct {dir : Dir} (lost : TableLost (P := P) s (s.inode (s.inodeOf dir))) (parts : P.Fits)
    (wf : DirFits P s (s.inode (s.inodeOf dir))) (fits : EntryFits de) : ¬ SyncCorrect P s dir de := by
  intro correct
  obtain ⟨full, ⟨k, hk, high, held⟩, a, b, ha, hb, apart⟩ := lost
  have enough : ¬ TooFewBlocks P s (s.inode (s.inodeOf dir)) := by
    intro few
    rcases few with none_free | ⟨_, one⟩
    · exact none_free a ha
    · exact apart (one a b ha hb)
  cases run : syncDirEntry P dir de s with
  | error f => exact enough ((wp_of_error run).1 correct).2.2
  | ok r =>
    obtain ⟨added, t⟩ := r
    have wanted := (wp_of_ok run).1 correct
    have outcome := (wp_of_ok run).1 (syncDirEntry_spec parts wf)
    cases outcome with
    | slot k idx low there clear => cases (full k low).2.symm.trans clear
    | direct k bit d own absent clear low data => exact (full k own).1 absent
    | indirect a b d bits _ clear other apart low data =>
      have empty := (indirect_added parts wf rfl fits clear other apart low data bits).1 wanted
      exact held (empty k hk high)
    | noRoom t few => exact enough few

/-- Where the clear bits of the bitmap lie on the disk, sync_dir_entry adds exactly the new entry, except where it
replaces a table that leads to entries. -/
theorem sync_dir_entry_correct (P : Partition) (parts : P.Fits) (s : FileSys) (dir : Dir) (de : DirEntry)
    (wf : DirFits P s (s.inode (s.inodeOf dir))) (onDisk : FreeOnDisk P s) (fits : EntryFits de) :
    SyncCorrect P s dir de ↔ ¬ TableLost (P := P) s (s.inode (s.inodeOf dir)) := by
  constructor
  · intro correct lost
    exact lost.not_correct parts wf fits correct
  · intro intact
    refine wp_mono (syncDirEntry_spec parts wf) (fun added t outcome => ?_) ?_
    swap
    · rintro f ⟨rfl, full | off⟩
      · exact ⟨rfl, full⟩
      · exact (off onDisk).elim
    cases outcome with
    | slot k idx low there clear => exact slot_added wf rfl fits low there clear
    | direct k bit d own absent clear low data => exact direct_added parts wf rfl fits own absent clear data _
    | indirect a b d bits full clear other apart low data =>
      apply (indirect_added parts wf rfl fits clear other apart low data bits).2
      intro k hk high
      by_contra held
      exact intact ⟨full, ⟨k, hk, high, held⟩, a, b, clear, other, apart⟩
    | noRoom t few => exact Or.inr few

end Results

def oneMore : DirEntry := ⟨[122], 300, ftRegular⟩

theorem oneMore_fits : EntryFits oneMore := ⟨by decide, by decide⟩

/-! A root directory with three entries and a freed slot before the last of them, as on a freshly formatted partition:
its first block is the sector 613, and the bit 88 behind the end of the partition is clear. -/

def rootWord (j : Nat) : Nat :=
  if j < 613 * 128 then 0
  else if j = 613 * 128 then 0x2e
  else if j = 613 * 128 + 6 then 0x2e2e
  else if j = 613 * 128 + 18 then 0x61
  else if j = 613 * 128 + 5 ∨ j = 613 * 128 + 11 then ftDirectory
  else if j = 613 * 128 + 23 then ftRegular
  else if j = 613 * 128 + 22 then 1
  else 0

def rootDir : FileSys :=
  { blank with
    disk := ofWords rootWord
    blockBitmap := fun bit => decide (bit = 0 ∨ 89 ≤ bit) }.setInode
    0 ⟨0, 3 * dirEntrySize, 1, false, fun k => if k = 0 then 613 else 0⟩

theorem rootDir_fits : DirFits somePartition rootDir (rootDir.inode 0) := by
  have addrs : ∀ k < 140, blockAddrs rootDir.disk (rootDir.inode 0) k = if k = 0 then 613 else 0 := by decide +kernel
  have used : BlockUsed somePartition rootDir 613 := ⟨by decide, by decide, by decide⟩
  refine ⟨by decide, ?_, ?_, ?_, ?_⟩
  · intro k hk there
    rw [addrs k hk] at there ⊢
    split at there
    · next first => rwa [if_pos first]
    · exact (there rfl).elim
  · exact fun there => (there rfl).elim
  · intro k hk there
    have table : (rootDir.inode 0).iSectors 12 = 0 := rfl
    rwa [table]
  · intro j hj k hk there same
    rw [addrs j hj] at there same
    rw [addrs k hk] at same
    grind

theorem rootDir_onDisk : FreeOnDisk somePartition rootDir := by
  intro bit clear
  have inside := clear.1
  have sects : somePartition.blockBitmapSects = 1 := by decide
  have start : somePartition.dataStartLba = 613 := by decide
  rw [sects] at inside
  rw [start, maxLba]
  omega

theorem sync_dir_entry_correct_root : (liveEntries rootDir.disk (rootDir.inode 0)).length = 3 ∧
    Succeeds (syncDirEntry somePartition .root oneMore) (fun added t => added = true ∧ EntryAdded rootDir t 0 oneMore) rootDir := by
  have root : rootDir.inodeOf .root = 0 := rfl
  have fits : DirFits somePartition rootDir (rootDir.inode (rootDir.inodeOf .root)) := by
    rw [root]
    exact rootDir_fits
  have correct : SyncCorrect somePartition rootDir .root oneMore := by
    apply (sync_dir_entry_correct somePartition somePartition_fits rootDir .root oneMore fits rootDir_onDisk oneMore_fits).2
    intro lost
    exact (lost.full 1 (by decide)).1 rfl
  have run : Succeeds (syncDirEntry somePartition .root oneMore) (fun added _ => added = true) rootDir := by decide +kernel
  refine ⟨by decide +kernel, ?_⟩
  obtain ⟨added, t, run, rfl⟩ := succeeds_iff.1 run
  have post := (wp_of_ok run).1 correct
  rw [if_pos rfl, root] at post
  exact (wp_of_ok run).2 ⟨rfl, post⟩

/-! A directory with 273 entries: twelve blocks of its own and one behind its table. -/

/-- Its root directory's first block begins at the sector 613; the table is the sector 625. -/
def crowdedWord (j : Nat) : Nat :=
  let sec := j / 128
  let m := j % 128
  if sec = 625 then if m = 0 then 626 else 0
  else if m % 6 = 0 then
    if j = 613 * 128 then 0x2e else if j = 613 * 128 + 6 then 0x2e2e else (sec - 548) + 256 * (m / 6 + 65)
  else if m % 6 = 4 then (sec - 613) * 21 + m / 6
  else if m % 6 = 5 then if j < 613 * 128 + 12 then ftDirectory else ftRegular
  else 0

def crowded : FileSys :=
  { blank with
    disk := ofWords crowdedWord
    blockBitmap := fun bit => decide (bit < 14 ∨ somePartition.blockBitmapBitLen ≤ bit) }.setInode
    0 ⟨0, 273 * dirEntrySize, 1, false, fun k => if k < 13 then 613 + k else 0⟩

theorem blockAddrs_crowded : ∀ k < 140,
    blockAddrs crowded.disk (crowded.inode 0) k = if k < 12 then 613 + k else if k = 12 then 626 else 0 := by
  decide +kernel

/-- The blocks from 627 on are free. -/
theorem crowded_bitmap (bit : Nat) :
    crowded.blockBitmap bit = decide (bit < 14 ∨ somePartition.blockBitmapBitLen ≤ bit) := rfl

theorem crowded_fits : DirFits somePartition crowded (crowded.inode 0) := by
  have start : somePartition.dataStartLba = 613 := by decide
  have used : ∀ lba, 613 ≤ lba → lba ≤ 626 → BlockUsed somePartition crowded lba := by
    intro lba low high
    refine ⟨start ▸ low, high.trans (by decide), ?_⟩
    rw [crowded_bitmap, start, decide_eq_true_eq]
    omega
  have table : (crowded.inode 0).iSectors 12 = 625 := by decide
  refine ⟨by decide, ?_, ?_, ?_, ?_⟩
  · intro k hk there
    rw [blockAddrs_crowded k hk] at there ⊢
    apply used <;> grind
  · intro _
    rw [table]
    exact used _ (by decide) (by decide)
  · intro k hk there
    rw [table]
    grind [blockAddrs_crowded k hk]
  · intro j hj k hk there same
    grind [blockAddrs_crowded j hj, blockAddrs_crowded k hk]

theorem crowded_lost : TableLost (P := somePartition) crowded (crowded.inode 0) := by
  have free : ∀ bit, 14 ≤ bit → bit < 88 → BlockFree somePartition crowded bit := by
    intro bit low high
    have len : somePartition.blockBitmapBitLen = 88 := by decide
    have sects : somePartition.blockBitmapSects = 1 := by decide
    refine ⟨by omega, ?_⟩
    rw [crowded_bitmap, decide_eq_false_iff_not]
    omega
  refine ⟨?_, ?_, ?_⟩
  · unfold DirectFull
    decide +kernel
  · exact ⟨12, by decide, by decide, by decide +kernel⟩
  · exact ⟨14, 15, free 14 (by decide) (by decide), free 15 (by decide) (by decide), by decide⟩

/-- The call answers true, and a scan finds 253 entries where 273 and the new one should be. -/
theorem table_overwritten : ¬ SyncCorrect somePartition crowded .root oneMore ∧
    (liveEntries crowded.disk (crowded.inode 0)).length = 273 ∧
    Succeeds (syncDirEntry somePartition .root oneMore) (fun added t =>
      added = true ∧ (liveEntries t.disk (t.inode 0)).length = 253) crowded := by
  refine ⟨?_, ?_, ?_⟩
  · exact (show TableLost crowded (crowded.inode (crowded.inodeOf .root)) from crowded_lost).not_correct somePartition_fits crowded_fits oneMore_fits
  · decide +kernel
  · decide +kernel

end Zhenxiang.Fs
