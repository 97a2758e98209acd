import Zhenxiang.Fs.WriteCorrect

/-! delete_dir_entry against the entries of a directory. -/
namespace Zhenxiang.Fs
open Lib Kernel

variable (P : Partition)

/-- The block at the position k. -/
def blockAt (disk : Buf) (i : Inode) (k : Nat) : Buf := sector disk (blockAddrs disk i k)

/-- There is an entry in use at the index idx of the block at the position k. -/
structure LiveAt (disk : Buf) (i : Inode) (k idx : Nat) : Prop where
  position : k < 140
  index : idx < dirEntrysPerSec
  there : blockAddrs disk i k ≠ 0
  used : entryFType (blockAt disk i k) idx ≠ ftUnknown

/-- It is an entry other than "." and "..", of the inode number n. -/
structure Names (disk : Buf) (i : Inode) (n k idx : Nat) : Prop extends LiveAt disk i k idx where
  notDot : entryNamed (blockAt disk i k) idx dot = false
  notDotDot : entryNamed (blockAt disk i k) idx dotDot = false
  number : entryINo (blockAt disk i k) idx = n

/-- A well-formed directory: its size counts the entries, ".." is in the block of ".", there is a
table only with blocks in it, and no two other entries have one inode number. -/
structure DirGood (s : FileSys) (i : Inode) : Prop extends DirFits P s i where
  size : i.iSize = dirEntrySize * (liveEntries s.disk i).length
  inside : ∀ lba, Owned s.disk i lba → lba < P.dataStartLba + 4096 * P.blockBitmapSects
  dots : ∀ k idx, LiveAt s.disk i k idx → entryNamed (blockAt s.disk i k) idx dotDot = true →
    ∃ m, LiveAt s.disk i k m ∧ entryNamed (blockAt s.disk i k) m dot = true
  behind : i.iSectors 12 ≠ 0 → ∃ k, 12 ≤ k ∧ k < 140 ∧ blockAddrs s.disk i k ≠ 0
  single : ∀ n k idx k' idx', Names s.disk i n k idx → Names s.disk i n k' idx' → k' = k ∧ idx' = idx

/-- The block at the position k holds no other entry. -/
def Sole (disk : Buf) (i : Inode) (k idx : Nat) : Prop := ∀ m, LiveAt disk i k m → m = idx

/-- The indirect block at the position j stays when the entry is taken out. -/
structure Remains (disk : Buf) (i : Inode) (k idx j : Nat) : Prop where
  low : 12 ≤ j
  high : j < 140
  there : blockAddrs disk i j ≠ 0
  kept : j = k → ¬ Sole disk i k idx

/-- The directory without the entry idx of the block at the position k. Its block is released if
that held no other entry, and the table if no indirect block remains. -/
structure EntryRemoved (s t : FileSys) (o k idx : Nat) : Prop where
  entries : (liveEntries s.disk (s.inode o)).Perm
    (entryBytes (blockAt s.disk (s.inode o) k) idx :: liveEntries t.disk (t.inode o))
  size : (t.inode o).iSize + dirEntrySize = (s.inode o).iSize
  bitmap : ∀ bit, t.blockBitmap bit = true ↔ s.blockBitmap bit = true ∧
    ¬ (Sole s.disk (s.inode o) k idx ∧ P.dataStartLba + bit = blockAddrs s.disk (s.inode o) k) ∧
    ¬ ((¬ ∃ j, Remains s.disk (s.inode o) k idx j) ∧ P.dataStartLba + bit = (s.inode o).iSectors 12)
  table : (t.inode o).iSectors 12 ≠ 0 ↔ ∃ j, Remains s.disk (s.inode o) k idx j

/-- What is expected of delete_dir_entry for the entry idx of the block at the position k. -/
def DeleteCorrect (s : FileSys) (dir : Dir) (n k idx : Nat) : Prop :=
  Succeeds (deleteDirEntry P dir n) (fun r t => r = true ∧ EntryRemoved P s t (s.inodeOf dir) k idx) s

/-- If an indirect block is to be released, the first position of the table is in use and another
indirect block remains. -/
def DeleteHolds (disk : Buf) (i : Inode) (k idx : Nat) : Prop :=
  12 ≤ k → Sole disk i k idx → blockAddrs disk i 12 ≠ 0 ∧ ∃ j, Remains disk i k idx j

section Scan
variable {b : Buf} {idx n : Nat}

/-- A test that one number passes alone. -/
theorem filter_range_single {m k : Nat} {p : Nat → Bool} (low : k < m) (only : ∀ j < m, p j = true ↔ j = k) :
    (List.range m).filter p = [k] := by
  apply List.perm_singleton.1
  apply (List.perm_ext_iff_of_nodup (List.nodup_range.filter p) (List.nodup_singleton k)).2
  intro j
  rw [List.mem_filter, List.mem_range, List.mem_singleton]
  constructor
  · rintro ⟨inside, passes⟩
    exact (only j inside).1 passes
  · rintro rfl
    exact ⟨low, (only j low).2 rfl⟩

/-- What a block is searched for: an entry in use that is neither "." nor "..", of the number n. -/
def wantedEntry (b : Buf) (n idx : Nat) : Bool :=
  decide (entryFType b idx ≠ ftUnknown) && (!entryNamed b idx dot && !entryNamed b idx dotDot) &&
    decide (entryINo b idx = n)

theorem scanBlock_found (b : Buf) (n : Nat) :
    (scanBlock b n).found = (List.range dirEntrysPerSec).filter (wantedEntry b n) := by
  simp only [scanBlock, List.filter_filter]
  apply List.filter_congr
  intro idx _
  simp only [wantedEntry, Bool.and_comm, Bool.and_left_comm]

theorem wantedEntry_iff {disk : Buf} {i : Inode} {k : Nat} (position : k < 140) (there : blockAddrs disk i k ≠ 0)
    (index : idx < dirEntrysPerSec) : wantedEntry (blockAt disk i k) n idx = true ↔ Names disk i n k idx := by
  simp only [wantedEntry, Bool.and_eq_true, decide_eq_true_eq, Bool.not_eq_true']
  constructor
  · rintro ⟨⟨used, notDot, notDotDot⟩, number⟩
    exact ⟨⟨position, index, there, used⟩, notDot, notDotDot, number⟩
  · intro names
    exact ⟨⟨names.used, names.notDot, names.notDotDot⟩, names.number⟩

end Scan

section Entry
variable {P} {s : FileSys} {i : Inode} {n k idx : Nat}

theorem DirGood.found (good : DirGood P s i) (names : Names s.disk i n k idx) :
    (scanBlock (blockAt s.disk i k) n).found = [idx] := by
  rw [scanBlock_found]
  apply filter_range_single names.index
  intro m inside
  rw [wantedEntry_iff names.position names.there inside]
  constructor
  · intro other
    exact (good.single n k idx k m names other).2
  · rintro rfl
    exact names

theorem DirGood.found_before (good : DirGood P s i) (names : Names s.disk i n k idx) {j : Nat} (before : j < k)
    (there : blockAddrs s.disk i j ≠ 0) : (scanBlock (blockAt s.disk i j) n).found = [] := by
  rw [scanBlock_found, List.filter_eq_nil_iff]
  intro m mem other
  have position : j < 140 := before.trans names.position
  have elsewhere := (wantedEntry_iff position there (List.mem_range.1 mem)).1 other
  have same := (good.single n k idx j m names elsewhere).1
  omega

/-- The test of the code for a block that is to be released. -/
theorem DirGood.sole (good : DirGood P s i) (names : Names s.disk i n k idx) :
    ((scanBlock (blockAt s.disk i k) n).dirEntryCnt = 1 ∧ (scanBlock (blockAt s.disk i k) n).isDirFirstBlock = false) ↔
      Sole s.disk i k idx := by
  have live : ∀ m, m ∈ ((List.range dirEntrysPerSec).filter fun m => entryFType (blockAt s.disk i k) m ≠ ftUnknown) ↔
      LiveAt s.disk i k m := by
    intro m
    rw [List.mem_filter, List.mem_range, decide_eq_true_eq]
    exact ⟨fun h => ⟨names.position, h.1, names.there, h.2⟩, fun h => ⟨h.index, h.used⟩⟩
  simp only [scanBlock]
  generalize list : (List.range dirEntrysPerSec).filter (fun m => entryFType (blockAt s.disk i k) m ≠ ftUnknown) = used at live ⊢
  have nodup : used.Nodup := list ▸ List.nodup_range.filter _
  constructor
  · rintro ⟨one, notFirst⟩ m other
    have noDot : ∀ m, LiveAt s.disk i k m → entryNamed (blockAt s.disk i k) m dot = false := by
      intro m there
      have here := List.any_eq_false.1 notFirst m ((live m).2 there)
      exact Bool.eq_false_iff.2 here
    have noDotDot : ∀ m, LiveAt s.disk i k m → entryNamed (blockAt s.disk i k) m dotDot = false := by
      intro m there
      by_contra parent
      obtain ⟨l, first, named⟩ := good.dots k m there (Bool.eq_true_of_not_eq_false parent)
      rw [noDot l first] at named
      cases named
    obtain ⟨only, plain⟩ := List.length_eq_one_iff.1 one
    have all : ∀ m, LiveAt s.disk i k m → m = only := by
      intro m there
      have mem : m ∈ used.filter fun m => !entryNamed (blockAt s.disk i k) m dot && !entryNamed (blockAt s.disk i k) m dotDot := by
        rw [List.mem_filter, noDot m there, noDotDot m there]
        exact ⟨(live m).2 there, rfl⟩
      rw [plain] at mem
      exact List.mem_singleton.1 mem
    rw [all m other, all idx names.toLiveAt]
  · intro sole
    have single : used = [idx] := by
      apply List.perm_singleton.1
      apply (List.perm_ext_iff_of_nodup nodup (List.nodup_singleton idx)).2
      intro m
      rw [live, List.mem_singleton]
      exact ⟨sole m, fun same => same ▸ names.toLiveAt⟩
    rw [single]
    simp [names.notDot, names.notDotDot]

/-! The blocks and the computation. -/

/-- all_blocks as delete_dir_entry fills it. -/
def collected (disk : Buf) (i : Inode) (k : Nat) : Nat :=
  if k < 12 then i.iSectors k
  else if i.iSectors 12 ≠ 0 then word (sector disk (i.iSectors 12)) (4 * (k - 12)) else 0

theorem collected_eq {disk : Buf} (room : k < 140) : collected disk i k = blockAddrs disk i k := by
  unfold collected blockAddrs
  split
  · rfl
  · split
    · exact word_sector (by omega)
    · rfl

theorem wp_collectBlocks {Q : (Nat → Nat) → FileSys → Prop} {E : Fault → Prop}
    (low : i.iSectors 12 ≠ 0 → i.iSectors 12 ≤ maxLba) : wp (collectBlocks i) Q E s ↔ Q (collected s.disk i) s := by
  unfold collectBlocks
  by_cases there : i.iSectors 12 ≠ 0
  · have all : collected s.disk i = fun k => if k < 12 then i.iSectors k
        else word (sector s.disk (i.iSectors 12)) (4 * (k - 12)) := by
      funext k
      rw [collected, if_pos there]
    rw [if_pos there, wp_bind, wp_readTable (low there), wp_pure, all]
  · have all : collected s.disk i = fun k => if k < 12 then i.iSectors k else 0 := by
      funext k
      rw [collected, if_neg there]
    rw [if_neg there, wp_pure, all]

/-- The end of delete_dir_entry, common to both ways of taking an entry out. -/
def shrinkDir (P : Partition) (o : Nat) : Sys Bool := do
  assert (dirEntrySize ≤ ((← get).inode o).iSize)
  modifyInode o fun i => { i with iSize := i.iSize - dirEntrySize }
  inodeSync P ((← get).inode o) 1024
  pure true

/-- The blocks before the one with the entry are passed over. -/
theorem wp_deleteFrom_skip {o : Nat} {Q : Bool → FileSys → Prop} {E : Fault → Prop} (good : DirGood P s i)
    (names : Names s.disk i n k idx) (j : Nat) (before : j ≤ k) :
    wp (deleteFrom P o n (collected s.disk i) (140 - j) j) Q E s ↔
      wp (deleteFrom P o n (collected s.disk i) (140 - k) k) Q E s := by
  induction h : k - j generalizing j with
  | zero =>
    obtain rfl : j = k := by omega
    exact Iff.rfl
  | succ d ih =>
    have position := names.position
    have rounds : 140 - j = 140 - (j + 1) + 1 := by omega
    rw [rounds, deleteFrom, collected_eq (by omega)]
    by_cases none : blockAddrs s.disk i j = 0
    · rw [if_pos none]
      exact ih (j + 1) (by omega) (by omega)
    · have low := (good.blocks j (by omega) none).disk
      have found : (scanBlock (sector s.disk (blockAddrs s.disk i j)) n).found = [] :=
        good.found_before names (by omega) none
      rw [if_neg none, wp_bind, wp_readSector low]
      dsimp only
      rw [found, wp_bind, wp_assert]
      have rest := ih (j + 1) (by omega) (by omega)
      constructor
      · intro run
        exact rest.1 (run.1 (Nat.zero_le 1))
      · intro run
        exact ⟨fun _ => rest.2 run, fun many => (many (Nat.zero_le 1)).elim⟩

theorem wp_deleteDirEntry {dir : Dir} {Q : Bool → FileSys → Prop} {E : Fault → Prop}
    (good : DirGood P s (s.inode (s.inodeOf dir))) (names : Names s.disk (s.inode (s.inodeOf dir)) n k idx) :
    wp (deleteDirEntry P dir n) Q E s ↔ wp (
      if (scanBlock (blockAt s.disk (s.inode (s.inodeOf dir)) k) n).dirEntryCnt = 1 ∧
          (scanBlock (blockAt s.disk (s.inode (s.inodeOf dir)) k) n).isDirFirstBlock = false then do
        dropBlock P (s.inodeOf dir) k (collected s.disk (s.inode (s.inodeOf dir)))
        shrinkDir P (s.inodeOf dir)
      else do
        ideWrite (blockAddrs s.disk (s.inode (s.inodeOf dir)) k)
          (blit (blockAt s.disk (s.inode (s.inodeOf dir)) k) (dirEntrySize * idx) dirEntrySize fun _ => 0) 1
        shrinkDir P (s.inodeOf dir)) Q E s := by
  have low := (good.blocks k names.position names.there).disk
  have rounds : 140 - k = 140 - (k + 1) + 1 := by
    have position := names.position
    omega
  have found : (scanBlock (sector s.disk (blockAddrs s.disk (s.inode (s.inodeOf dir)) k)) n).found = [idx] := good.found names
  unfold deleteDirEntry
  rw [wp_bind, wp_get]
  dsimp only
  rw [wp_bind, wp_collectBlocks fun there => (good.table there).disk,
    wp_deleteFrom_skip good names 0 (Nat.zero_le k), rounds, deleteFrom, collected_eq names.position,
    if_neg names.there, wp_bind, wp_readSector low]
  dsimp only
  rw [found, wp_bind, wp_assert]
  constructor
  · intro run
    exact run.1 (Nat.le_refl 1)
  · intro run
    exact ⟨fun _ => run, fun many => (many (Nat.le_refl 1)).elim⟩

theorem blockBitmapFree_spec {lba : Nat} (fits : P.Fits) (used : BlockUsed P s lba)
    (inside : lba < P.dataStartLba + 4096 * P.blockBitmapSects) :
    Succeeds (blockBitmapFree P lba) (fun _ t => ∃ d, DataSame P s.disk d ∧
      t = { s with blockBitmap := Function.update s.blockBitmap (lba - P.dataStartLba) false, disk := d }) s := by
  have low := used.data
  have high := used.disk
  have idx : blockBitmapIdx P lba = lba - P.dataStartLba := by
    have small : lba - P.dataStartLba < 2 ^ 32 := by
      simp only [maxLba] at high
      omega
    have bit := blockBitmapIdx_data (P := P) small
    rwa [Nat.add_sub_of_le low] at bit
  unfold blockBitmapFree
  rw [Succeeds, wp_bind, wp_get, idx, wp_bind, wp_bitmapSet (by omega), wp_bind, wp_modify]
  apply wp_post (bitmapSync_spec fits (by omega))
  rintro - t ⟨d, rfl, data⟩
  exact ⟨d, data, rfl⟩

theorem shrinkDir_spec {o : Nat} (fits : P.Fits) (room : dirEntrySize ≤ (s.inode o).iSize) :
    Succeeds (shrinkDir P o) (fun r t => r = true ∧ ∃ d, DataSame P s.disk d ∧ t.disk = d ∧ t.blockBitmap = s.blockBitmap ∧
      t.inode o = { s.inode o with iSize := (s.inode o).iSize - dirEntrySize }) s := by
  unfold shrinkDir
  rw [Succeeds, wp_bind, wp_get, wp_bind, wp_assert]
  refine ⟨fun _ => ?_, fun small => small room⟩
  rw [wp_bind, modifyInode, wp_modify, wp_bind, wp_get, wp_bind]
  apply wp_post (inodeSync_frame fits _ (bufferHolds_two _))
  rintro - t ⟨d, rfl, data⟩
  exact (wp_pure _).2 ⟨rfl, d, data, rfl, rfl, FileSys.setInode_self ..⟩

theorem sector_data {d e : Buf} {lba : Nat} (data : DataSame P d e) (low : P.dataStartLba ≤ lba) :
    sector e lba = sector d lba :=
  sector_congr fun m _ => data _ (by omega)

/-- Taking the entry out of its slot. -/
theorem blockEntries_erase {b : Buf} (index : idx < dirEntrysPerSec) (used : entryFType b idx ≠ ftUnknown) :
    (blockEntries b).Perm (entryBytes b idx :: blockEntries (blit b (dirEntrySize * idx) dirEntrySize fun _ => 0)) := by
  apply flatMap_insert List.nodup_range (List.mem_range.2 index)
  · have gone : entryFType (blit b (dirEntrySize * idx) dirEntrySize fun _ => 0) idx = ftUnknown := by
      rw [entryFType, word_blit_in (by omega) (by simp only [dirEntrySize]; omega)]
      rfl
    have none_here : liveEntry (blit b (dirEntrySize * idx) dirEntrySize fun _ => 0) idx = [] := if_neg (not_not.2 gone)
    have here : liveEntry b idx = [entryBytes b idx] := if_pos used
    rw [here, none_here]
  · intro j _ other
    exact (liveEntry_blit_other other).symm

/-- The only entry of a block. -/
theorem blockEntries_sole {disk : Buf} (live : LiveAt disk i k idx) (sole : Sole disk i k idx) :
    (blockEntries (blockAt disk i k)).Perm [entryBytes (blockAt disk i k) idx] := by
  have none : (List.range dirEntrysPerSec).flatMap (fun _ => ([] : List (List UInt8))) = [] :=
    List.flatMap_eq_nil_iff.2 fun _ _ => rfl
  rw [← none]
  apply flatMap_insert List.nodup_range (List.mem_range.2 live.index)
  · rw [liveEntry, if_pos live.used]
  · intro m mem other
    apply if_neg
    intro used
    exact other (sole m ⟨live.position, List.mem_range.1 mem, live.there, used⟩)

/-- The other blocks keep their entries. -/
theorem liveEntries_erase {disk d : Buf} {j : Inode} {e : List UInt8} (room : k < 140)
    (here : (entriesAt disk i k).Perm (e :: entriesAt d j k))
    (addrs : ∀ m < 140, m ≠ k → blockAddrs d j m = blockAddrs disk i m)
    (sectors : ∀ m < 140, m ≠ k → blockAddrs disk i m ≠ 0 → sector d (blockAddrs disk i m) = sector disk (blockAddrs disk i m)) :
    (liveEntries disk i).Perm (e :: liveEntries d j) := by
  apply flatMap_insert List.nodup_range (List.mem_range.2 room) here
  intro m mem other
  have low := List.mem_range.1 mem
  rw [entriesAt, entriesAt, addrs m low other]
  split
  · rfl
  · next there => rw [sectors m low other there]

theorem DirGood.room (good : DirGood P s i) (live : LiveAt s.disk i k idx) : dirEntrySize ≤ i.iSize := by
  have mem : entryBytes (blockAt s.disk i k) idx ∈ liveEntries s.disk i := by
    rw [liveEntries, List.mem_flatMap]
    refine ⟨k, List.mem_range.2 live.position, ?_⟩
    rw [entriesAt, if_neg live.there, blockEntries, List.mem_flatMap]
    refine ⟨idx, List.mem_range.2 live.index, ?_⟩
    have here : liveEntry (blockAt s.disk i k) idx = [entryBytes (blockAt s.disk i k) idx] := if_pos live.used
    exact here.symm ▸ List.mem_singleton_self _
  have some_entry := List.length_pos_of_mem mem
  rw [good.size]
  exact Nat.le_mul_of_pos_right _ some_entry

theorem Remains.table {disk : Buf} {j : Nat} (h : Remains disk i k idx j) : i.iSectors 12 ≠ 0 := by
  intro none
  have high : ¬ j < 12 := Nat.not_lt.2 h.low
  apply h.there
  rw [blockAddrs, if_neg high, if_neg (not_not.2 none)]

/-- Unless the last of the indirect blocks goes, there is one exactly if there is a table. -/
theorem DirGood.remains (good : DirGood P s i) (kept : 12 ≤ k → ¬ Sole s.disk i k idx) :
    i.iSectors 12 ≠ 0 ↔ ∃ j, Remains s.disk i k idx j := by
  constructor
  · intro there
    obtain ⟨j, low, high, used⟩ := good.behind there
    exact ⟨j, low, high, used, fun same => kept (same ▸ low)⟩
  · rintro ⟨j, h⟩
    exact h.table

theorem Partition.Fits.start (fits : P.Fits) (bit : Nat) : P.dataStartLba + bit ≠ 0 := by
  have boot := fits.boot
  simp only [Partition.dataStartLba, Partition.inodeTableLba, Partition.inodeBitmapLba, Partition.blockBitmapLba]
  omega

/-- The bits after a block has been given back. -/
theorem update_true_iff {bits : Nat → Bool} {lba bit : Nat} (low : P.dataStartLba ≤ lba) :
    Function.update bits (lba - P.dataStartLba) false bit = true ↔ bits bit = true ∧ P.dataStartLba + bit ≠ lba := by
  by_cases here : bit = lba - P.dataStartLba
  · rw [here, Function.update_self]
    have back : P.dataStartLba + (lba - P.dataStartLba) = lba := Nat.add_sub_of_le low
    constructor
    · intro clear
      cases clear
    · intro both
      exact (both.2 back).elim
  · rw [Function.update_of_ne here]
    exact ⟨fun set => ⟨set, by omega⟩, fun both => both.1⟩

/-- The entry is erased in its slot. -/
theorem entry_erased {o : Nat} {t : FileSys} {e : Buf} (fits : P.Fits) (good : DirGood P s (s.inode o))
    (names : Names s.disk (s.inode o) n k idx) (crowd : ¬ Sole s.disk (s.inode o) k idx)
    (data : DataSame P (blit s.disk (512 * blockAddrs s.disk (s.inode o) k + dirEntrySize * idx) dirEntrySize fun _ => 0) e)
    (disk : t.disk = e) (bits : t.blockBitmap = s.blockBitmap)
    (inode : t.inode o = { s.inode o with iSize := (s.inode o).iSize - dirEntrySize }) : EntryRemoved P s t o k idx := by
  have size := good.room names.toLiveAt
  have remains : (s.inode o).iSectors 12 ≠ 0 ↔ ∃ j, Remains s.disk (s.inode o) k idx j := good.remains fun _ => crowd
  have used := good.blocks k names.position names.there
  have room : dirEntrySize * idx + dirEntrySize ≤ 512 := by
    have index := names.index
    simp only [dirEntrysPerSec, dirEntrySize] at index ⊢
    omega
  have others : ∀ lba, P.dataStartLba ≤ lba → lba ≠ blockAddrs s.disk (s.inode o) k → sector e lba = sector s.disk lba :=
    fun lba low other => (sector_data data low).trans (sector_blit_other room other)
  have addrs : ∀ m < 140, blockAddrs e (t.inode o) m = blockAddrs s.disk (s.inode o) m := by
    intro m high
    refine blockAddrs_carry high (by rw [inode]) fun there l hl => ?_
    have table := congrFun (others _ (good.table there).data (good.apart k names.position names.there).symm) l
    rwa [sector_byte _ _ hl, sector_byte _ _ hl] at table
  refine ⟨?_, ?_, ?_, ?_⟩
  · rw [disk]
    apply liveEntries_erase names.position
    · rw [entriesAt, entriesAt, addrs k names.position, if_neg names.there, if_neg names.there,
        sector_data data used.data, sector_blit_same room]
      exact blockEntries_erase names.index names.used
    · intro m high _
      exact addrs m high
    · intro m high other there
      apply others _ (good.blocks m high there).data
      intro same
      exact other (good.once m high k names.position there same)
  · rw [inode]
    exact Nat.sub_add_cancel size
  · intro bit
    rw [bits]
    refine ⟨fun set => ⟨set, fun sole => crowd sole.1, fun last => ?_⟩, fun set => set.1⟩
    exact last.1 (remains.1 (last.2 ▸ fits.start bit))
  · rw [inode]
    exact remains

/-- The block of the entry goes, and with it its address; the table stays. -/
theorem block_dropped {o : Nat} {t : FileSys} {d e : Buf} {j : Inode} (fits : P.Fits) (good : DirGood P s (s.inode o))
    (names : Names s.disk (s.inode o) n k idx) (sole : Sole s.disk (s.inode o) k idx)
    (remains : (s.inode o).iSectors 12 ≠ 0 ↔ ∃ m, Remains s.disk (s.inode o) k idx m)
    (gone : blockAddrs d j k = 0) (addrs : ∀ m < 140, m ≠ k → blockAddrs d j m = blockAddrs s.disk (s.inode o) m)
    (sectors : ∀ lba, P.dataStartLba ≤ lba → lba ≠ (s.inode o).iSectors 12 → sector d lba = sector s.disk lba)
    (data : DataSame P d e) (disk : t.disk = e) (table : j.iSectors 12 = (s.inode o).iSectors 12)
    (size : j.iSize = (s.inode o).iSize) (inode : t.inode o = { j with iSize := j.iSize - dirEntrySize })
    (bits : t.blockBitmap = Function.update s.blockBitmap (blockAddrs s.disk (s.inode o) k - P.dataStartLba) false) :
    EntryRemoved P s t o k idx := by
  have room := good.room names.toLiveAt
  have low := (good.blocks k names.position names.there).data
  have same : ∀ m < 140, blockAddrs e (t.inode o) m = blockAddrs d j m := by
    intro m high
    refine blockAddrs_carry high (by rw [inode]) fun there l hl => ?_
    have start := (good.table (table ▸ there)).data
    rw [← table] at start
    exact data _ (by omega)
  refine ⟨?_, ?_, ?_, ?_⟩
  · rw [disk]
    apply liveEntries_erase names.position
    · have none_left : entriesAt e (t.inode o) k = [] := if_pos ((same k names.position).trans gone)
      rw [none_left, entriesAt, if_neg names.there]
      exact blockEntries_sole names.toLiveAt sole
    · intro m high other
      rw [same m high]
      exact addrs m high other
    · intro m high _ there
      have start := (good.blocks m high there).data
      exact (sector_data data start).trans (sectors _ start (good.apart m high there))
  · rw [inode]
    show j.iSize - dirEntrySize + dirEntrySize = _
    rw [size]
    exact Nat.sub_add_cancel room
  · intro bit
    rw [bits, update_true_iff low]
    constructor
    · rintro ⟨set, other⟩
      exact ⟨set, fun both => other both.2, fun last => last.1 (remains.1 (last.2 ▸ fits.start bit))⟩
    · rintro ⟨set, other, -⟩
      exact ⟨set, fun here => other ⟨sole, here⟩⟩
  · rw [inode]
    show j.iSectors 12 ≠ 0 ↔ _
    rw [table]
    exact remains

/-- The three ways of taking the entry out. -/
theorem deleteDirEntry_spec {dir : Dir} (fits : P.Fits) (good : DirGood P s (s.inode (s.inodeOf dir)))
    (names : Names s.disk (s.inode (s.inodeOf dir)) n k idx)
    (ends : 12 ≤ k → Sole s.disk (s.inode (s.inodeOf dir)) k idx → blockAddrs s.disk (s.inode (s.inodeOf dir)) 12 ≠ 0) :
    Succeeds (deleteDirEntry P dir n) (fun r t => r = true ∧
      (DeleteHolds s.disk (s.inode (s.inodeOf dir)) k idx → EntryRemoved P s t (s.inodeOf dir) k idx) ∧
      (12 ≤ k → (t.inode (s.inodeOf dir)).iSectors 12 = (s.inode (s.inodeOf dir)).iSectors 12)) s := by
  have room := good.room names.toLiveAt
  have used := good.blocks k names.position names.there
  rw [Succeeds, wp_deleteDirEntry good names]
  generalize s.inodeOf dir = o at *
  by_cases sole : Sole s.disk (s.inode o) k idx
  · have inside := good.inside _ ⟨names.there, .inr ⟨k, names.position, rfl⟩⟩
    rw [if_pos ((good.sole names).2 sole)]
    unfold dropBlock
    rw [wp_bind, wp_bind, collected_eq names.position]
    apply wp_post (blockBitmapFree_spec fits used inside)
    rintro - t ⟨d, data, rfl⟩
    rw [wp_ite]
    constructor
    · intro own
      have own_addr : blockAddrs s.disk (s.inode o) k = (s.inode o).iSectors k := blockAddrs_direct own
      rw [modifyInode, wp_modify]
      apply wp_post (shrinkDir_spec fits ?_)
      · rintro r t ⟨done, e, same, disk, bits, inode⟩
        have data' : DataSame P d e := same
        rw [FileSys.setInode_self] at inode
        refine ⟨done, fun _ => ?_, fun behind => absurd own (Nat.not_lt.2 behind)⟩
        apply block_dropped fits good names sole (j := (s.inode o).setSector k 0) ?_ ?_ ?_ ?_ data' disk ?_ rfl inode bits
        · exact good.remains fun behind => absurd own (Nat.not_lt.2 behind)
        · exact (blockAddrs_direct own).trans (setSector_self ..)
        · intro m high other
          by_cases low : m < 12
          · rw [blockAddrs_direct low, blockAddrs_direct low]
            exact setSector_of_ne _ _ other
          · apply blockAddrs_indirect (s := s) (Nat.le_of_not_lt low) high
            · exact setSector_of_ne _ _ (by omega)
            · intro there
              exact sector_data data (good.table there).data
        · intro lba low _
          exact sector_data data low
        · exact setSector_of_ne _ _ (by omega)
      · rw [FileSys.setInode_self]
        exact room
    · intro high
      have behind := Nat.le_of_not_lt high
      have there : (s.inode o).iSectors 12 ≠ 0 := by
        intro none
        apply names.there
        rw [blockAddrs, if_neg high, if_neg (not_not.2 none)]
      rw [collected_eq (by decide), if_neg (ends behind sole), wp_bind, wp_get,
        wp_ideWrite_iff (good.table there).disk (by decide)]
      refine wp_post (shrinkDir_spec fits (by exact room)) ?_
      rintro r t ⟨done, e, same, disk, bits, inode⟩
      have written : ∀ m < 140, 12 ≤ m → blockAddrs (blit d (512 * (s.inode o).iSectors 12) (512 * 1)
          (tableBytes (Function.update (collected s.disk (s.inode o)) k 0))) (s.inode o) m =
            Function.update (collected s.disk (s.inode o)) k 0 m := by
        intro m low_m high_m
        apply blockAddrs_written there high_m low_m
        by_cases here : m = k
        · rw [here, Function.update_self]
          exact Nat.two_pow_pos 32
        · rw [Function.update_of_ne here, collected, if_neg (Nat.not_lt.2 high_m), if_pos there]
          exact word_lt _ _
      refine ⟨done, fun holds => ?_, fun _ => by rw [inode]⟩
      have left := (holds behind sole).2
      apply block_dropped fits good names sole (j := s.inode o) ?_ ?_ ?_ ?_ same disk rfl rfl inode bits
      · exact ⟨fun _ => left, fun h => h.elim fun _ h => h.table⟩
      · exact (written k names.position behind).trans (Function.update_self ..)
      · intro m low other
        by_cases own : m < 12
        · rw [blockAddrs_direct own, blockAddrs_direct own]
        · have old : collected s.disk (s.inode o) m = blockAddrs s.disk (s.inode o) m := collected_eq low
          exact ((written m low (Nat.le_of_not_lt own)).trans (Function.update_of_ne other ..)).trans old
      · intro lba low other
        exact sector_table data low other
  · rw [if_neg fun drop => sole ((good.sole names).1 drop), wp_bind, wp_ideWrite_iff used.disk (by decide)]
    have slot : dirEntrySize * idx + dirEntrySize ≤ 512 := by
      have index := names.index
      simp only [dirEntrysPerSec, dirEntrySize] at index ⊢
      omega
    refine wp_post (shrinkDir_spec fits (by exact room)) ?_
    rintro r t ⟨done, e, same, disk, bits, inode⟩
    refine ⟨done, fun _ => ?_, fun _ => by rw [inode]⟩
    have data : DataSame P (blit s.disk (512 * blockAddrs s.disk (s.inode o) k + dirEntrySize * idx) dirEntrySize fun _ => 0) e := by
      rw [← blit_sector slot]
      exact same
    exact entry_erased fits good names sole data disk bits inode

/-- With the first position of the table free, the loop that counts the indirect blocks does not end. -/
theorem deleteDirEntry_hangs {dir : Dir} (good : DirGood P s (s.inode (s.inodeOf dir)))
    (names : Names s.disk (s.inode (s.inodeOf dir)) n k idx) (behind : 12 ≤ k)
    (sole : Sole s.disk (s.inode (s.inodeOf dir)) k idx) (none : blockAddrs s.disk (s.inode (s.inodeOf dir)) 12 = 0) :
    ¬ DeleteCorrect P s dir n k idx := by
  intro correct
  unfold DeleteCorrect at correct
  rw [Succeeds, wp_deleteDirEntry good names, if_pos ((good.sole names).2 sole), wp_bind] at correct
  unfold dropBlock at correct
  have unused : collected s.disk (s.inode (s.inodeOf dir)) 12 = 0 := (collected_eq (by decide)).trans none
  rw [wp_bind, if_neg (Nat.not_lt.2 behind), unused, if_pos rfl] at correct
  obtain ⟨_, t, -, stuck⟩ := succeeds_iff.1 correct
  exact (wp_throw _).1 stuck

/-- An entry of an indirect block is taken out correctly exactly if its block stays, or the first
position of the table is in use and another indirect block is left. -/
theorem delete_dir_entry_correct {dir : Dir} (fits : P.Fits) (good : DirGood P s (s.inode (s.inodeOf dir)))
    (names : Names s.disk (s.inode (s.inodeOf dir)) n k idx) :
    DeleteCorrect P s dir n k idx ↔ DeleteHolds s.disk (s.inode (s.inodeOf dir)) k idx := by
  constructor
  · intro correct behind sole
    have first : blockAddrs s.disk (s.inode (s.inodeOf dir)) 12 ≠ 0 :=
      fun none => deleteDirEntry_hangs good names behind sole none correct
    refine ⟨first, ?_⟩
    obtain ⟨r, t, -, ⟨-, removed⟩, -, -, kept⟩ := succeeds_iff.1 (wp_and correct (deleteDirEntry_spec fits good names fun _ _ => first))
    have high : ¬ k < 12 := Nat.not_lt.2 behind
    apply removed.table.1
    rw [kept behind]
    intro none
    apply names.there
    rw [blockAddrs, if_neg high, if_neg (not_not.2 none)]
  · intro holds
    apply wp_post (deleteDirEntry_spec fits good names fun behind sole => (holds behind sole).1)
    rintro r t ⟨done, removed, -⟩
    exact ⟨done, removed holds⟩

end Entry

/-! Directories with "." and ".." in the sector 613, a table in the sector 614, and an entry alone in
the sector 615, at the second position of the table. -/

/-- The first position of the table is free, or names the sector 616 with one more entry. -/
def behindWord (first j : Nat) : Nat :=
  if j = 613 * 128 then 0x2e
  else if j = 613 * 128 + 6 then 0x2e2e
  else if j = 613 * 128 + 5 ∨ j = 613 * 128 + 11 then ftDirectory
  else if j = 614 * 128 then first
  else if j = 614 * 128 + 1 then 615
  else if j = 615 * 128 then 65
  else if j = 615 * 128 + 4 then 7
  else if j = 616 * 128 then 66
  else if j = 616 * 128 + 4 then 8
  else if j = 615 * 128 + 5 ∨ j = 616 * 128 + 5 then ftRegular
  else 0

def behindDir (first size : Nat) : FileSys :=
  { blank with
    disk := ofWords (behindWord first)
    blockBitmap := fun bit => decide (bit < 4 ∨ somePartition.blockBitmapBitLen ≤ bit) }.setInode
    0 ⟨0, size * dirEntrySize, 1, false, fun k => if k = 0 then 613 else if k = 12 then 614 else 0⟩

theorem behindDir_bitmap (first size bit : Nat) :
    (behindDir first size).blockBitmap bit = decide (bit < 4 ∨ somePartition.blockBitmapBitLen ≤ bit) := rfl

theorem behindDir_addrs {first size : Nat} (h : first = 616 ∧ size = 4 ∨ first = 0 ∧ size = 3) : ∀ k < 140,
    blockAddrs (behindDir first size).disk ((behindDir first size).inode 0) k =
      if k = 0 then 613 else if k = 12 then first else if k = 13 then 615 else 0 := by
  obtain ⟨rfl, rfl⟩ | ⟨rfl, rfl⟩ := h
  · decide +kernel
  · decide +kernel

/-- The types and inode numbers of the entries. -/
theorem behindDir_blocks {first size : Nat} (h : first = 616 ∧ size = 4 ∨ first = 0 ∧ size = 3) : ∀ idx < dirEntrysPerSec,
    (entryFType (sector (behindDir first size).disk 613) idx ≠ ftUnknown → idx = 0 ∨ idx = 1) ∧
    (entryFType (sector (behindDir first size).disk 615) idx ≠ ftUnknown → idx = 0) ∧
    (entryFType (sector (behindDir first size).disk 616) idx ≠ ftUnknown → idx = 0) := by
  obtain ⟨rfl, rfl⟩ | ⟨rfl, rfl⟩ := h
  · decide +kernel
  · decide +kernel

theorem behindDir_names {first size : Nat} (h : first = 616 ∧ size = 4 ∨ first = 0 ∧ size = 3) :
    entryNamed (sector (behindDir first size).disk 613) 0 dot = true ∧
    entryNamed (sector (behindDir first size).disk 613) 1 dotDot = true ∧
    entryNamed (sector (behindDir first size).disk 615) 0 dot = false ∧
    entryFType (sector (behindDir first size).disk 615) 0 = ftRegular ∧
    entryNamed (sector (behindDir first size).disk 615) 0 dotDot = false ∧
    entryNamed (sector (behindDir first size).disk 616) 0 dotDot = false ∧
    entryFType (sector (behindDir first size).disk 613) 0 = ftDirectory ∧
    entryINo (sector (behindDir first size).disk 615) 0 = 7 ∧ entryINo (sector (behindDir first size).disk 616) 0 = 8 ∧
    (liveEntries (behindDir first size).disk ((behindDir first size).inode 0)).length = size := by
  obtain ⟨rfl, rfl⟩ | ⟨rfl, rfl⟩ := h
  · decide +kernel
  · decide +kernel

theorem behindDir_live {first size k idx : Nat} (h : first = 616 ∧ size = 4 ∨ first = 0 ∧ size = 3)
    (live : LiveAt (behindDir first size).disk ((behindDir first size).inode 0) k idx) :
    k = 0 ∧ (idx = 0 ∨ idx = 1) ∧ blockAt (behindDir first size).disk ((behindDir first size).inode 0) k =
        sector (behindDir first size).disk 613 ∨
    k = 13 ∧ idx = 0 ∧ blockAt (behindDir first size).disk ((behindDir first size).inode 0) k =
        sector (behindDir first size).disk 615 ∨
    k = 12 ∧ idx = 0 ∧ blockAt (behindDir first size).disk ((behindDir first size).inode 0) k =
        sector (behindDir first size).disk 616 := by
  have addr := behindDir_addrs h k live.position
  have there := live.there
  obtain ⟨root, alone, more⟩ := behindDir_blocks h idx live.index
  have used := live.used
  rw [addr] at there
  rw [blockAt, addr] at used ⊢
  by_cases zero : k = 0
  · rw [if_pos zero] at used ⊢
    exact .inl ⟨zero, root used, rfl⟩
  · rw [if_neg zero] at there used ⊢
    by_cases twelve : k = 12
    · rw [if_pos twelve] at there used ⊢
      have named : first = 616 := by omega
      subst named
      exact .inr (.inr ⟨twelve, more used, rfl⟩)
    · rw [if_neg twelve] at there used ⊢
      have thirteen : k = 13 := by
        by_contra other
        exact there (if_neg other)
      rw [if_pos thirteen] at used ⊢
      exact .inr (.inl ⟨thirteen, alone used, rfl⟩)

theorem behindDir_entry {first size n k idx : Nat} (h : first = 616 ∧ size = 4 ∨ first = 0 ∧ size = 3)
    (names : Names (behindDir first size).disk ((behindDir first size).inode 0) n k idx) :
    k = 13 ∧ idx = 0 ∧ n = 7 ∨ k = 12 ∧ idx = 0 ∧ n = 8 := by
  obtain ⟨isDot, isDotDot, -, -, -, -, -, seven, eight, -⟩ := behindDir_names h
  have number := names.number
  obtain ⟨-, rfl | rfl, block⟩ | ⟨here, rfl, block⟩ | ⟨here, rfl, block⟩ := behindDir_live h names.toLiveAt
  · have other := names.notDot
    rw [block, isDot] at other
    cases other
  · have other := names.notDotDot
    rw [block, isDotDot] at other
    cases other
  · rw [block, seven] at number
    exact .inl ⟨here, rfl, number.symm⟩
  · rw [block, eight] at number
    exact .inr ⟨here, rfl, number.symm⟩

theorem behindDir_good {first size : Nat} (h : first = 616 ∧ size = 4 ∨ first = 0 ∧ size = 3) :
    DirGood somePartition (behindDir first size) ((behindDir first size).inode 0) := by
  have start : somePartition.dataStartLba = 613 := by decide
  have addrs := behindDir_addrs h
  have used : ∀ lba, 613 ≤ lba → lba ≤ 616 → BlockUsed somePartition (behindDir first size) lba := by
    intro lba low high
    refine ⟨start ▸ low, high.trans (by decide), ?_⟩
    rw [behindDir_bitmap, start, decide_eq_true_eq]
    omega
  have table : ((behindDir first size).inode 0).iSectors 12 = 614 := rfl
  obtain ⟨isDot, -, -, -, notDotDot, notDotDot', dotUsed, -, -, count⟩ := behindDir_names h
  refine ⟨⟨?_, ?_, ?_, ?_, ?_⟩, ?_, ?_, ?_, ?_, ?_⟩
  · exact Nat.mul_mod_left ..
  · intro k hk there
    rw [addrs k hk] at there ⊢
    apply used <;> grind
  · intro _
    rw [table]
    exact used _ (by decide) (by decide)
  · intro k hk there
    rw [table]
    grind
  · intro j hj k hk there same
    grind
  · rw [count]
    exact Nat.mul_comm ..
  · rintro lba ⟨nonzero, rfl | ⟨k, hk, rfl⟩⟩
    · rw [table, start]
      decide
    · have sects : somePartition.blockBitmapSects = 1 := by decide
      rw [addrs k hk, start, sects] at *
      split_ifs <;> omega
  · intro k idx live parent
    obtain ⟨rfl, -, block⟩ | ⟨-, rfl, block⟩ | ⟨-, rfl, block⟩ := behindDir_live h live
    · rw [block]
      have first_used : entryFType (blockAt (behindDir first size).disk ((behindDir first size).inode 0) 0) 0 ≠ ftUnknown := by
        rw [block, dotUsed]
        decide
      exact ⟨0, ⟨live.position, by decide, live.there, first_used⟩, isDot⟩
    · rw [block, notDotDot] at parent
      cases parent
    · rw [block, notDotDot'] at parent
      cases parent
  · intro _
    exact ⟨13, by decide, by decide, addrs 13 (by decide) ▸ by simp⟩
  · intro n k idx k' idx' names names'
    have here := behindDir_entry h names
    have there := behindDir_entry h names'
    omega

theorem behindDir_seven {first size : Nat} (h : first = 616 ∧ size = 4 ∨ first = 0 ∧ size = 3) :
    Names (behindDir first size).disk ((behindDir first size).inode 0) 7 13 0 := by
  obtain ⟨-, -, notDot, regular, notDotDot, -, -, seven, -⟩ := behindDir_names h
  have addr : blockAddrs (behindDir first size).disk ((behindDir first size).inode 0) 13 = 615 := behindDir_addrs h 13 (by decide)
  have block : blockAt (behindDir first size).disk ((behindDir first size).inode 0) 13 =
      sector (behindDir first size).disk 615 := by
    rw [blockAt, addr]
  rw [← block] at notDot regular notDotDot seven
  refine ⟨⟨by decide, by decide, ?_, ?_⟩, notDot, notDotDot, seven⟩
  · rw [addr]
    decide
  · rw [regular]
    decide

theorem behindDir_sole {first size : Nat} (h : first = 616 ∧ size = 4 ∨ first = 0 ∧ size = 3) :
    Sole (behindDir first size).disk ((behindDir first size).inode 0) 13 0 := by
  intro m live
  have here := behindDir_live h live
  omega

/-- The block is released, and the table keeps its first one. -/
theorem delete_dir_entry_correct_second : DeleteCorrect somePartition (behindDir 616 4) .root 7 13 0 := by
  have root : (behindDir 616 4).inodeOf .root = 0 := rfl
  have good : DirGood somePartition (behindDir 616 4) ((behindDir 616 4).inode ((behindDir 616 4).inodeOf .root)) :=
    root ▸ behindDir_good (.inl ⟨rfl, rfl⟩)
  have first : blockAddrs (behindDir 616 4).disk ((behindDir 616 4).inode 0) 12 = 616 :=
    behindDir_addrs (.inl ⟨rfl, rfl⟩) 12 (by decide)
  apply (delete_dir_entry_correct somePartition_fits good (root ▸ behindDir_seven (.inl ⟨rfl, rfl⟩))).2
  intro _ _
  rw [root]
  have there : blockAddrs (behindDir 616 4).disk ((behindDir 616 4).inode 0) 12 ≠ 0 := by
    rw [first]
    decide
  exact ⟨there, 12, by decide, by decide, there, fun no => absurd no (by decide)⟩

/-- Without a first one the call does not return. -/
theorem delete_never_returns : DirGood somePartition (behindDir 0 3) ((behindDir 0 3).inode 0) ∧
    ¬ DeleteCorrect somePartition (behindDir 0 3) .root 7 13 0 := by
  have root : (behindDir 0 3).inodeOf .root = 0 := rfl
  have good := (behindDir_good (.inr ⟨rfl, rfl⟩) : DirGood somePartition (behindDir 0 3) ((behindDir 0 3).inode 0))
  refine ⟨good, ?_⟩
  refine deleteDirEntry_hangs (P := somePartition) (root ▸ good) (root ▸ behindDir_seven (.inr ⟨rfl, rfl⟩)) (by decide) ?_ ?_
  · exact root ▸ behindDir_sole (.inr ⟨rfl, rfl⟩)
  · exact root ▸ behindDir_addrs (.inr ⟨rfl, rfl⟩) 12 (by decide)

end Zhenxiang.Fs
