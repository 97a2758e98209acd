import Zhenxiang.Fs.Books

/-! The inode table on disk: inode_sync and inode_delete against the way inode_open reads a
slot. -/
namespace Zhenxiang.Fs
open Lib Kernel

variable (P : Partition)

/-- What inode_open does to read an inode that is not open, apart from its buffers. -/
def inodeLoad (inodeNo : Nat) : Sys Inode := do
  let pos ← inodeLocate P inodeNo
  let buf ← ideRead pos.secLba (if pos.twoSec then 2 else 1)
  pure (decodeInode buf pos.offSize)

/-- The fields of a struct inode are 32 bits wide. -/
structure Inode.Words (i : Inode) : Prop where
  size : i.iSize < 2 ^ 32
  sectors : ∀ k < 13, i.iSectors k < 2 ^ 32

/-- What inode_sync leaves of an inode. -/
def Inode.onDisk (i : Inode) : Inode :=
  { i with iOpenCnts := 0, writeDeny := false, iSectors := fun k => if k < 13 then i.iSectors k else 0 }

/-- The slot of the inode number holds that inode with null list links, and the other slots
are read as before. -/
structure SlotWritten (s : FileSys) (inodeNo : Nat) (i : Inode) (t : FileSys) : Prop where
  slot : Succeeds (inodeLoad P inodeNo) (fun j _ => j = i) t
  links : ∀ k, 68 ≤ k → k < Partition.inodeSize →
    t.disk (512 * P.inodeTableLba + Partition.inodeSize * inodeNo + k) = 0
  others : ∀ m < 4096, m ≠ inodeNo → ∀ j,
    Succeeds (inodeLoad P m) (fun i _ => i = j) t ↔ Succeeds (inodeLoad P m) (fun i _ => i = j) s

/-- An inode without a number, as memset leaves it. -/
def Inode.zero : Inode := ⟨0, 0, 0, false, fun _ => 0⟩

/-- The slot lies in two sectors. -/
def Straddles (inodeNo : Nat) : Prop := 512 - inodeNo * Partition.inodeSize % 512 < Partition.inodeSize

instance (inodeNo : Nat) : Decidable (Straddles inodeNo) := inferInstanceAs (Decidable (_ < _))

/-- The buffer has room for the sectors of the slot. -/
def BufferHolds (bufSize inodeNo : Nat) : Prop := (if Straddles inodeNo then 1024 else 512) ≤ bufSize

instance (bufSize inodeNo : Nat) : Decidable (BufferHolds bufSize inodeNo) := inferInstanceAs (Decidable (_ ≤ _))

/-- What is expected of inode_sync and inode_delete for one inode number, with a buffer for the
sectors of the slot they write. -/
structure TableCorrect (inodeNo : Nat) : Prop where
  sync : ∀ P : Partition, P.Fits → ∀ (s : FileSys) (i : Inode) (bufSize : Nat), i.iNo = inodeNo → i.Words →
    BufferHolds bufSize (inodeNo % 256) →
    Succeeds (inodeSync P i bufSize) (fun _ t => SlotWritten P s inodeNo i.onDisk t) s
  delete : ∀ P : Partition, P.Fits → ∀ (s : FileSys) (bufSize : Nat), BufferHolds bufSize inodeNo →
    Succeeds (inodeDelete P inodeNo bufSize) (fun _ t => SlotWritten P s inodeNo Inode.zero t) s

/-- The inode table lies inside the partition. -/
theorem Partition.Fits.table {P : Partition} (fits : P.Fits) :
    P.inodeTableLba + Partition.inodeTableSects ≤ P.startLba + P.secCnt := by
  obtain ⟨boot, room, inside⟩ := fits
  simp only [maxLba] at inside
  have free : P.freeSects = P.secCnt - 611 := by
    simp only [Partition.freeSects, Partition.usedSects, Partition.inodeBitmapSects, Partition.inodeTableSects]
    omega
  simp only [Partition.inodeTableLba, Partition.inodeBitmapLba, Partition.blockBitmapLba, Partition.blockBitmapSects,
    Partition.blockBitmapBitLen, Partition.inodeBitmapSects, Partition.inodeTableSects, free, divRoundUp]
  omega

/-- Where the slot of an inode number begins on the disk. -/
def slotStart (inodeNo : Nat) : Nat := 512 * P.inodeTableLba + Partition.inodeSize * inodeNo

/-- What inode_locate answers. -/
def slotPosition (inodeNo : Nat) : InodePosition where
  twoSec := Straddles inodeNo
  secLba := P.inodeTableLba + inodeNo * Partition.inodeSize / 512
  offSize := inodeNo * Partition.inodeSize % 512

variable {P} {s : FileSys} {inodeNo : Nat}

theorem wp_inodeLocate {Q : InodePosition → FileSys → Prop} {E : Fault → Prop} (h : inodeNo < 4096) :
    wp (inodeLocate P inodeNo) Q E s ↔ Q (slotPosition P inodeNo) s := by
  simp only [inodeLocate, wp_bind, wp_assert, wp_pure]
  constructor
  · rintro ⟨hq, -⟩
    exact hq h
  · intro hq
    exact ⟨fun _ => hq, fun hn => (hn h).elim⟩

theorem wp_ideRead_iff {lba secCnt : Nat} {Q : Buf → FileSys → Prop} {E : Fault → Prop}
    (low : lba ≤ maxLba) (pos : 0 < secCnt) :
    wp (ideRead lba secCnt) Q E s ↔
      Q (fun k => if k < 512 * secCnt then s.disk (512 * lba + k) else 0) s := by
  unfold ideRead
  rw [wp_bind, wp_assert, wp_bind, wp_assert, wp_bind, wp_get, wp_pure]
  exact ⟨fun h => (h.1 low).1 pos, fun h => ⟨fun _ => ⟨fun _ => h, fun hn => (hn pos).elim⟩, fun hn => (hn low).elim⟩⟩

theorem wp_ideWrite_iff {lba secCnt : Nat} {buf : Buf} {Q : Unit → FileSys → Prop} {E : Fault → Prop}
    (low : lba ≤ maxLba) (pos : 0 < secCnt) :
    wp (ideWrite lba buf secCnt) Q E s ↔
      Q () { s with disk := blit s.disk (512 * lba) (512 * secCnt) buf } := by
  unfold ideWrite
  rw [wp_bind, wp_assert, wp_bind, wp_assert, wp_modify]
  exact ⟨fun h => (h.1 low).1 pos, fun h => ⟨fun _ => ⟨fun _ => h, fun hn => (hn pos).elim⟩, fun hn => (hn low).elim⟩⟩

/-- The state behind a sys_malloc that answers. -/
def FileSys.withBlock (s : FileSys) : FileSys :=
  { s with
    oracle := fun k => s.oracle (k + 1)
    nextBlock := s.nextBlock + 1
    live := s.nextBlock :: s.live
    owner := Function.update s.owner s.nextBlock (s.pgdir s.current) }

/-- The next sys_malloc answers. -/
def MallocOk (s : FileSys) : Prop := s.oracle 0 ≠ 0 ∧ s.live.length < 2 ^ 28

instance (s : FileSys) : Decidable (MallocOk s) := inferInstanceAs (Decidable (_ ∧ _))

/-- The state behind a sys_malloc. -/
def FileSys.afterMalloc (s : FileSys) : FileSys :=
  if MallocOk s then s.withBlock else { s with oracle := fun k => s.oracle (k + 1) }

theorem wp_sysMalloc {Q : Option Nat → FileSys → Prop} {E : Fault → Prop} :
    wp sysMalloc Q E s ↔ Q (if MallocOk s then some s.nextBlock else none) s.afterMalloc := by
  unfold sysMalloc ask
  rw [wp_bind, wp_bind, wp_get, wp_bind, wp_set, wp_pure, wp_bind, wp_get, wp_ite, wp_bind, wp_set, wp_pure, wp_pure]
  by_cases ok : MallocOk s
  · have answers : ¬ (s.oracle 0 = 0 ∨ 2 ^ 28 ≤ s.live.length) := by
      have := ok.1
      have := ok.2
      omega
    rw [FileSys.afterMalloc, if_pos ok, if_pos ok]
    exact ⟨fun run => run.2 answers, fun post => ⟨fun none => (answers none).elim, fun _ => post⟩⟩
  · have fails : s.oracle 0 = 0 ∨ 2 ^ 28 ≤ s.live.length := by
      rw [MallocOk] at ok
      omega
    rw [FileSys.afterMalloc, if_neg ok, if_neg ok]
    exact ⟨fun run => run.1 fails, fun post => ⟨fun _ => post, fun answers => (answers fails).elim⟩⟩

theorem MallocOk.run (h : MallocOk s) {Q : Option Nat → FileSys → Prop} {E : Fault → Prop} :
    wp sysMalloc Q E s ↔ Q (some s.nextBlock) s.withBlock := by
  rw [wp_sysMalloc, FileSys.afterMalloc, if_pos h, if_pos h]

/-- The one or two sectors of a slot. -/
def slotSects (P : Partition) (inodeNo : Nat) : Nat := if (slotPosition P inodeNo).twoSec then 2 else 1

/-- The sectors of a slot are sectors of the table, and the slot lies in them. -/
theorem slotSects_spec (P : Partition) (h : inodeNo < 4096) : 0 < slotSects P inodeNo ∧
    (slotPosition P inodeNo).secLba + slotSects P inodeNo ≤ P.inodeTableLba + Partition.inodeTableSects ∧
    (slotPosition P inodeNo).offSize + Partition.inodeSize ≤ 512 * slotSects P inodeNo ∧
    slotStart P inodeNo = 512 * (slotPosition P inodeNo).secLba + (slotPosition P inodeNo).offSize := by
  have two : (slotPosition P inodeNo).twoSec = true ↔ 512 - inodeNo * 76 % 512 < 76 := decide_eq_true_iff
  simp only [slotSects, two, slotStart]
  simp only [slotPosition, Partition.inodeSize, Partition.inodeTableSects]
  split <;> omega

theorem inodeLoad_spec (fits : P.Fits) (h : inodeNo < 4096) :
    Succeeds (inodeLoad P inodeNo) (fun i t => i = slotAt P s.disk inodeNo ∧ t = s) s := by
  have table := fits.table
  have disk := fits.inside
  obtain ⟨pos, inside, -, -⟩ := slotSects_spec P h
  have read := slotAt_read P s.disk inodeNo
  have lba : (slotPosition P inodeNo).secLba ≤ maxLba := by omega
  rw [inodeLoad, Succeeds, wp_bind, wp_inodeLocate h, wp_bind]
  apply (wp_ideRead_iff lba pos).2
  exact (wp_pure _).2 ⟨read, rfl⟩

theorem inodeLoad_iff (fits : P.Fits) (h : inodeNo < 4096) (j : Inode) :
    Succeeds (inodeLoad P inodeNo) (fun i _ => i = j) s ↔ slotAt P s.disk inodeNo = j := by
  obtain ⟨i, t, run, hi, -⟩ := succeeds_iff.1 (inodeLoad_spec (s := s) fits h)
  rw [Succeeds, wp_of_ok run, hi]

/-- Patching a piece of a run of bytes and writing the run back is patching the piece. -/
theorem blit_blit {disk slot : Buf} {base len off n : Nat} (room : off + n ≤ len) :
    blit disk base len (blit (fun k => if k < len then disk (base + k) else 0) off n slot) =
      blit disk (base + off) n slot := by
  funext k
  by_cases run : base ≤ k ∧ k < base + len
  · have back : base + (k - base) = k := by omega
    have low : k - base < len := by omega
    rw [blit_of_mem run.1 run.2]
    by_cases here : base + off ≤ k ∧ k < base + off + n
    · rw [blit_of_mem here.1 here.2, blit_of_mem (by omega) (by omega), Nat.sub_sub]
    · rw [blit_of_not_mem (by omega), blit_of_not_mem (by omega), if_pos low, back]
  · rw [blit_of_not_mem (by omega), blit_of_not_mem (by omega)]

theorem bufferHolds_iff {bufSize : Nat} : 512 * slotSects P inodeNo ≤ bufSize ↔ BufferHolds bufSize inodeNo := by
  have two : (slotPosition P inodeNo).twoSec = true ↔ Straddles inodeNo := decide_eq_true_iff
  simp only [slotSects, BufferHolds, two]
  split <;> rfl

/-- Reading the sectors of a slot, patching them and writing them back changes the bytes of
the slot and no others, or the buffer is overrun. -/
theorem writeSlot_ends (fits : P.Fits) (h : inodeNo < 4096) (slot : Buf) (bufSize : Nat) :
    wp (writeSlot P (slotPosition P inodeNo) slot bufSize) (fun _ t => BufferHolds bufSize inodeNo ∧
        t = { s with disk := blit s.disk (slotStart P inodeNo) Partition.inodeSize slot })
      (fun f => f = .undefined ∧ ¬ BufferHolds bufSize inodeNo) s := by
  have table := fits.table
  have disk := fits.inside
  obtain ⟨pos, inside, room, start⟩ := slotSects_spec P h
  have sects : (if (slotPosition P inodeNo).twoSec then 2 else 1) = slotSects P inodeNo := rfl
  have lba : (slotPosition P inodeNo).secLba ≤ maxLba := by omega
  have bound : (slotPosition P inodeNo).secLba ≤ P.startLba + P.secCnt := by omega
  rw [start, ← blit_blit room, writeSlot, wp_bind, wp_assert]
  refine ⟨fun _ => ?_, fun hn => (hn bound).elim⟩
  rw [sects, wp_bind, wp_check]
  refine ⟨fun wide => ?_, fun short => ⟨rfl, fun wide => short (bufferHolds_iff.2 wide)⟩⟩
  rw [wp_bind, wp_ideRead_iff lba pos, wp_ideWrite_iff lba pos]
  exact ⟨bufferHolds_iff.1 wide, rfl⟩

theorem writeSlot_spec (fits : P.Fits) (h : inodeNo < 4096) (slot : Buf) {bufSize : Nat}
    (wide : BufferHolds bufSize inodeNo) : Succeeds (writeSlot P (slotPosition P inodeNo) slot bufSize) (fun _ t =>
      t = { s with disk := blit s.disk (slotStart P inodeNo) Partition.inodeSize slot }) s :=
  wp_mono (writeSlot_ends fits h slot bufSize) (fun _ _ done => done.2) fun _ out => out.2 wide

/-- Two sectors are enough for every slot. -/
theorem bufferHolds_two (inodeNo : Nat) : BufferHolds 1024 inodeNo := by
  unfold BufferHolds
  split <;> decide

theorem slotAt_blit_other {m : Nat} {disk slot : Buf} (other : m ≠ inodeNo) :
    slotAt P (blit disk (slotStart P inodeNo) Partition.inodeSize slot) m = slotAt P disk m := by
  apply decodeInode_congr
  intro k hk
  apply blit_of_not_mem
  simp only [slotStart, Partition.inodeSize] at *
  omega

theorem slotAt_blit {disk slot : Buf} :
    slotAt P (blit disk (slotStart P inodeNo) Partition.inodeSize slot) inodeNo = decodeInode slot 0 := by
  apply decodeInode_congr
  intro k hk
  have here : slotStart P inodeNo = 512 * P.inodeTableLba + Partition.inodeSize * inodeNo := rfl
  rw [← here, blit_of_mem (Nat.le_add_right _ _) (by omega)]
  congr 1
  omega

/-- After the patch of a slot: what its bytes decode to is read back, and nothing else has
changed. -/
theorem slotWritten_blit (fits : P.Fits) (h : inodeNo < 4096) {slot : Buf}
    (links : ∀ k, 68 ≤ k → k < Partition.inodeSize → slot k = 0) :
    SlotWritten P s inodeNo (decodeInode slot 0)
      { s with disk := blit s.disk (slotStart P inodeNo) Partition.inodeSize slot } where
  slot := (inodeLoad_iff fits h _).2 slotAt_blit
  links k low high := by
    have here : slotStart P inodeNo = 512 * P.inodeTableLba + Partition.inodeSize * inodeNo := rfl
    rw [← here]
    apply (blit_of_mem (Nat.le_add_right _ _) (by omega)).trans
    rw [Nat.add_sub_cancel_left]
    exact links k low high
  others m hm other j := by
    rw [inodeLoad_iff fits hm, inodeLoad_iff fits hm, slotAt_blit_other other]

theorem decode_encode {i : Inode} (no : i.iNo < 4096) (words : i.Words) (cnts : i.iOpenCnts = 0)
    (deny : i.writeDeny = false) : decodeInode (encodeInode i) 0 = i.onDisk := by
  have read : ∀ k, word (encodeInode i) (4 * k) = (if k = 0 then i.iNo
      else if k = 1 then i.iSize else if k = 2 then i.iOpenCnts else if k = 3 then i.writeDeny.toNat
      else if k < 17 then i.iSectors (k - 4) else 0) % 2 ^ 32 := word_ofWords _
  have w0 := read 0
  have w1 := read 1
  have w2 := read 2
  have w3 := read 3
  have sectors : ∀ k < 13, word (encodeInode i) (16 + 4 * k) = i.iSectors k := by
    intro k hk
    have wk := read (4 + k)
    have here : 4 * (4 + k) = 16 + 4 * k := by omega
    rw [here, if_neg (by omega), if_neg (by omega), if_neg (by omega), if_neg (by omega), if_pos (by omega),
      Nat.add_sub_cancel_left, Nat.mod_eq_of_lt (words.sectors k hk)] at wk
    exact wk
  simp only [if_true, Nat.mod_eq_of_lt words.size, reduceIte, Nat.one_ne_zero, deny, cnts] at w0 w1 w2 w3
  rw [Nat.mod_eq_of_lt (no.trans (by decide))] at w0
  simp only [decodeInode, Inode.onDisk, Nat.zero_add, Inode.mk.injEq]
  refine ⟨w0, w1, w2, ?_, ?_⟩
  · rw [w3]
    rfl
  · funext k
    split
    · exact sectors k ‹_›
    · rfl

theorem encodeInode_links (i : Inode) : ∀ k, 68 ≤ k → k < Partition.inodeSize → encodeInode i k = 0 := by
  intro k low high
  unfold Partition.inodeSize at high
  simp only [encodeInode, ofWords]
  rw [if_neg (by omega), if_neg (by omega), if_neg (by omega), if_neg (by omega), if_neg (by omega)]
  simp [byteAt]

theorem inodeDelete_spec (fits : P.Fits) (h : inodeNo < 4096) {bufSize : Nat} (wide : BufferHolds bufSize inodeNo) :
    Succeeds (inodeDelete P inodeNo bufSize) (fun _ t => SlotWritten P s inodeNo Inode.zero t) s := by
  rw [inodeDelete, Succeeds, wp_bind, wp_inodeLocate h]
  apply wp_post (writeSlot_spec fits h _ wide)
  rintro - t rfl
  have zero : decodeInode (fun _ => 0) 0 = Inode.zero := by
    simp [decodeInode, Inode.zero, word]
  rw [← zero]
  exact slotWritten_blit fits h fun _ _ _ => rfl

/-- The inode number goes through a uint8_t, and the slot it names is the one that is written. -/
theorem inodeSync_spec (fits : P.Fits) {i : Inode} (h : i.iNo < 4096) (words : i.Words) {bufSize : Nat}
    (wide : BufferHolds bufSize (i.iNo % 256)) :
    Succeeds (inodeSync P i bufSize) (fun _ t => SlotWritten P s (i.iNo % 256) i.onDisk t) s := by
  have low : i.iNo % 256 < 4096 := by omega
  rw [inodeSync, Succeeds, wp_bind, wp_inodeLocate low]
  apply wp_post (writeSlot_spec fits low _ wide)
  rintro - t rfl
  have decoded : decodeInode (encodeInode { i with iOpenCnts := 0, writeDeny := false }) 0 = i.onDisk :=
    decode_encode h ⟨words.size, words.sectors⟩ rfl rfl
  rw [← decoded]
  exact slotWritten_blit fits low (encodeInode_links _)

/-- A partition of 700 sectors behind the boot sector. -/
def somePartition : Partition := ⟨1, 700, false⟩

theorem somePartition_fits : somePartition.Fits := ⟨by decide, by decide, by decide⟩

/-- A disk full of zeros. -/
def blank : FileSys := booting (fun _ => 0) (fun _ => none) fun _ => 0

theorem slotAt_blank (P : Partition) (inodeNo : Nat) : slotAt P blank.disk inodeNo = Inode.zero := by
  simp [slotAt, decodeInode, Inode.zero, word, blank, booting]

/-- The inode is written over the slot of another number, and its own slot stays as it was. -/
theorem not_tableCorrect (h : inodeNo < 4096) (high : 256 ≤ inodeNo) : ¬ TableCorrect inodeNo := by
  intro correct
  have fits := somePartition_fits
  have words : (inodeInit inodeNo).Words := ⟨Nat.two_pow_pos 32, fun _ _ => Nat.two_pow_pos 32⟩
  have wide := bufferHolds_two (inodeNo % 256)
  have wanted := correct.sync somePartition fits blank (inodeInit inodeNo) 1024 rfl words wide
  have done := inodeSync_spec (s := blank) fits (i := inodeInit inodeNo) h words wide
  obtain ⟨_, t, -, expected, actual⟩ := succeeds_iff.1 (wp_and wanted done)
  have elsewhere : inodeNo ≠ inodeNo % 256 := by omega
  have before := (inodeLoad_iff fits h Inode.zero).2 (slotAt_blank somePartition inodeNo)
  have after := (inodeLoad_iff fits h _).1 ((actual.others inodeNo h elsewhere _).2 before)
  have stored := (inodeLoad_iff fits h _).1 expected.slot
  have no : (0 : Nat) = inodeNo := congrArg Inode.iNo (after.symm.trans stored)
  omega

/-- inode_sync and inode_delete keep to their slot, and inode_sync is read back, exactly for
the inode numbers below 256. -/
theorem inode_table_correct (inodeNo : Nat) (h : inodeNo < 4096) :
    TableCorrect inodeNo ↔ inodeNo < 256 := by
  constructor
  · intro correct
    by_contra high
    exact not_tableCorrect h (Nat.le_of_not_lt high) correct
  · intro low
    refine ⟨fun P fits s i bufSize no words wide => ?_, fun P fits s bufSize wide => inodeDelete_spec fits h wide⟩
    subst no
    have spec := inodeSync_spec (s := s) fits h words wide
    rwa [Nat.mod_eq_of_lt low] at spec

/-- The slot of the inode 6 lies in two sectors. -/
theorem inode_table_correct_straddling : Straddles 6 ∧ TableCorrect 6 := by
  refine ⟨by decide, (inode_table_correct 6 (by decide)).2 ?_⟩
  decide

/-- The inode 300 is written over the slot of the inode 44. -/
theorem inode_sync_wraps : ¬ TableCorrect 300 ∧
    Succeeds (inodeSync somePartition (inodeInit 300) 1024) (fun _ t =>
      (slotAt somePartition t.disk 300).iNo = 0 ∧ (slotAt somePartition t.disk 44).iNo = 300) blank := by
  constructor
  · exact not_tableCorrect (by decide) (by decide)
  · decide +kernel

end Zhenxiang.Fs
