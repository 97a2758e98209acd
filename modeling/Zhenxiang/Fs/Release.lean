import Zhenxiang.Fs.DirOpen
import Zhenxiang.Fs.Mount

/-! inode_release: the blocks of an inode, its number and its slot in the table are given back. -/
namespace Zhenxiang.Fs
open Lib Kernel

variable (P : Partition)

/-- A byte of the block bitmap on disk. -/
def InBlockBitmap (k : Nat) : Prop := 512 * P.blockBitmapLba ≤ k ∧ k < 512 * (P.blockBitmapLba + P.blockBitmapSects)

/-- A byte of the inode bitmap on disk. -/
def InInodeBitmap (k : Nat) : Prop :=
  512 * P.inodeBitmapLba ≤ k ∧ k < 512 * (P.inodeBitmapLba + Partition.inodeBitmapSects)

/-- The block bitmap on disk is the one in memory. -/
def BlockSynced (s : FileSys) : Prop :=
  ∀ k < 512 * P.blockBitmapSects, s.disk (512 * P.blockBitmapLba + k) = bitmapByte s.blockBitmap k

def InodeSynced (s : FileSys) : Prop :=
  ∀ k < 512 * Partition.inodeBitmapSects, s.disk (512 * P.inodeBitmapLba + k) = bitmapByte s.inodeBitmap k

/-- A block of the inode i, or its indirect table, has the bit b. -/
def Owns (disk : Buf) (i : Inode) (b : Nat) : Prop :=
  (∃ k < 140, blockAddrs disk i k = P.dataStartLba + b) ∨ i.iSectors 12 = P.dataStartLba + b

/-- A block of the data area, with its bit set, and not the first block of the root directory. -/
structure OwnBlock (s : FileSys) (lba : Nat) : Prop extends BlockUsed P s lba where
  inside : lba < P.dataStartLba + 4096 * P.blockBitmapSects
  notRoot : lba ≠ P.dataStartLba

/-- A consistent partition with an inode n other than the root that is allocated. -/
structure Releasable (s : FileSys) (n : Nat) : Prop where
  small : n < 4096
  notRoot : n ≠ 0
  allocated : s.inodeBitmap n = true
  number : (inodeView P s n).iNo = n
  blocks : ∀ k < 140, blockAddrs s.disk (inodeView P s n) k ≠ 0 → OwnBlock P s (blockAddrs s.disk (inodeView P s n) k)
  table : (inodeView P s n).iSectors 12 ≠ 0 → OwnBlock P s ((inodeView P s n).iSectors 12)
  synced : BlockSynced P s
  inodes : InodesFit s

/-- The calls of sys_malloc on the way are answered: two to open the inode if it is not open, and one
for io_buf. -/
def ReleaseAnswered (s : FileSys) (n : Nat) : Prop :=
  if openInode s n = none then MallocAnswers s 0 0 ∧ MallocAnswers s 1 1 ∧ MallocAnswers s 2 1 else MallocAnswers s 0 0

/-- Another disk and other bitmaps under the same memory. -/
def FileSys.withDisk (s : FileSys) (disk : Buf) (blockBits inodeBits : Nat → Bool) : FileSys :=
  { s with disk := disk, blockBitmap := blockBits, inodeBitmap := inodeBits }

/-- The inode i of number n is given back: its blocks, its table, its number and its slot. -/
structure GivenBack (s : FileSys) (i : Inode) (n : Nat) (t : FileSys) : Prop where
  blockBits : ∀ b, t.blockBitmap b = true ↔ s.blockBitmap b = true ∧ ¬ Owns P s.disk i b
  inodeBits : t.inodeBitmap = Function.update s.inodeBitmap n false
  blockSynced : BlockSynced P t
  inodeSynced : InodeSynced P t
  slot : ∀ k < Partition.inodeSize, t.disk (slotStart P n + k) = 0
  others : ∀ k, ¬ InBlockBitmap P k → ¬ InInodeBitmap P k →
    ¬ (slotStart P n ≤ k ∧ k < slotStart P n + Partition.inodeSize) → t.disk k = s.disk k

/-- After inode_release, the memory is as before but for the buffers that have come and gone. -/
structure InodeReleased (s : FileSys) (n : Nat) (t : FileSys) : Prop extends GivenBack P s (inodeView P s n) n t where
  memory : ∃ calls, Idle (s.withDisk t.disk t.blockBitmap t.inodeBitmap) calls t

section
variable {P} {s t u v : FileSys} {n o k : Nat} {i : Inode}

theorem bitmapByte_update {bits : Nat → Bool} {bit k : Nat} {value : Bool} (other : k ≠ bit / 8) :
    bitmapByte (Function.update bits bit value) k = bitmapByte bits k := by
  have same (j : Nat) (hj : j ∈ List.range 8) : Function.update bits bit value (8 * k + j) = bits (8 * k + j) := by
    have low := List.mem_range.1 hj
    exact Function.update_of_ne (by omega) _ _
  unfold bitmapByte
  congr 1
  exact List.foldl_ext _ _ _ fun acc j hj => by rw [same j hj]

variable (P) in
/-- The disk with the sector of the block bitmap written that holds a bit. -/
def bitmapDisk (disk : Buf) (bits : Nat → Bool) (bit : Nat) : Buf :=
  blit disk (512 * (P.blockBitmapLba + bit / 4096)) 512 fun k => bitmapByte bits (512 * (bit / 4096) + k)

/-- One call of bitmap_sync for a block writes the sector of the bitmap that holds its bit. -/
theorem wp_syncBlock (fits : P.Fits) {bit : Nat} (h : bit < 4096 * P.blockBitmapSects) {Q : Unit → FileSys → Prop}
    {E : Fault → Prop} : wp (bitmapSync P bit .blockBitmap) Q E s ↔
      Q () { s with disk := bitmapDisk P s.disk s.blockBitmap bit } := by
  have table := fits.table
  have inside := fits.inside
  have low : P.blockBitmapLba + bit / 4096 ≤ maxLba := by
    simp only [Partition.inodeTableLba, Partition.inodeBitmapLba] at table
    omega
  rw [bitmapSync, wp_bind, wp_get]
  exact wp_ideWrite_iff low (by decide)

/-- Bits of the block bitmap have been cleared, in memory and on disk, and nothing else has changed. -/
structure BitsCleared (P : Partition) (s : FileSys) (freed : Nat → Prop) (t : FileSys) : Prop where
  same : ∃ bits disk, t = { s with blockBitmap := bits, disk := disk }
  bits : ∀ b, t.blockBitmap b = true ↔ s.blockBitmap b = true ∧ ¬ freed b
  synced : BlockSynced P t
  others : ∀ k, ¬ InBlockBitmap P k → t.disk k = s.disk k

theorem BitsCleared.start (synced : BlockSynced P s) : BitsCleared P s (fun _ => False) s :=
  ⟨⟨_, _, rfl⟩, fun b => by simp, synced, fun _ _ => rfl⟩

theorem BitsCleared.congr {freed freed' : Nat → Prop} (h : BitsCleared P s freed t) (same : ∀ b, freed b ↔ freed' b) :
    BitsCleared P s freed' t :=
  ⟨h.same, fun b => by rw [h.bits, same], h.synced, h.others⟩

theorem BitsCleared.step {freed : Nat → Prop} {lba : Nat} (fits : P.Fits) (h : BitsCleared P s freed t)
    (own : OwnBlock P s lba) :
    Succeeds (do assert (0 < blockBitmapIdx P lba); blockBitmapFree P lba)
      (fun _ u => BitsCleared P s (fun b => freed b ∨ lba = P.dataStartLba + b) u) t := by
  obtain ⟨bit, rfl⟩ : ∃ bit, lba = P.dataStartLba + bit := ⟨lba - P.dataStartLba, by have := own.data; omega⟩
  have room : bit < 4096 * P.blockBitmapSects := by
    have := own.inside
    omega
  have small : bit < 2 ^ 32 := by
    have := own.disk
    simp only [maxLba] at this
    omega
  have pos : 0 < bit := by
    have := own.notRoot
    omega
  have inside : bit < 8 * (512 * P.blockBitmapSects) := by omega
  rw [Succeeds, blockBitmapIdx_data small, wp_bind, wp_assert]
  refine ⟨fun _ => ?_, fun no => no pos⟩
  rw [blockBitmapFree, blockBitmapIdx_data small, wp_bind, wp_get, wp_bind, wp_bitmapSet inside, wp_bind, wp_modify,
    wp_syncBlock fits room]
  refine ⟨?_, fun b => ?_, fun k hk => ?_, fun k hk => ?_⟩
  · obtain ⟨bits, disk, rfl⟩ := h.same
    exact ⟨_, _, rfl⟩
  · by_cases here : b = bit
    · simp [here]
    · have there : P.dataStartLba + bit ≠ P.dataStartLba + b := by omega
      simp only [Function.update_of_ne here, h.bits, there, or_false]
  · by_cases sect : 512 * (bit / 4096) ≤ k ∧ k < 512 * (bit / 4096) + 512
    · dsimp only [bitmapDisk]
      rw [blit_of_mem (by omega) (by omega)]
      congr 1
      omega
    · dsimp only [bitmapDisk]
      rw [blit_of_not_mem (by omega), bitmapByte_update (by omega)]
      exact h.synced k hk
  · unfold InBlockBitmap at hk
    dsimp only [bitmapDisk]
    rw [blit_of_not_mem (by omega)]
    exact h.others k hk

/-- The bits that the loop over the blocks has cleared, after the first k of them. -/
def freedBefore (P : Partition) (disk : Buf) (i : Inode) (k b : Nat) : Prop :=
  i.iSectors 12 = P.dataStartLba + b ∨ ∃ j < k, blockAddrs disk i j = P.dataStartLba + b

theorem releaseBlocks_spec (fits : P.Fits) (synced : BlockSynced P s)
    (blocks : ∀ k < 140, blockAddrs s.disk i k ≠ 0 → OwnBlock P s (blockAddrs s.disk i k))
    (table : i.iSectors 12 ≠ 0 → OwnBlock P s (i.iSectors 12)) :
    Succeeds (releaseBlocks P i) (fun _ t => BitsCleared P s (Owns P s.disk i) t) s := by
  have start (b : Nat) : P.dataStartLba + b ≠ 0 := fits.start b
  have loop (n : Nat) (few : n ≤ 140) (t : FileSys) (h : BitsCleared P s (freedBefore P s.disk i 0) t) :
      Succeeds (forRange n fun blockIdx => do
        if collected s.disk i blockIdx ≠ 0 then
          assert (0 < blockBitmapIdx P (collected s.disk i blockIdx))
          blockBitmapFree P (collected s.disk i blockIdx)) (fun _ u => BitsCleared P s (freedBefore P s.disk i n) u) t := by
    refine wp_forRange (fun k u => BitsCleared P s (freedBefore P s.disk i k) u) h fun k u hk hu => ?_
    rw [collected_eq (by omega), wp_ite]
    have next (b : Nat) : freedBefore P s.disk i k b ∨ blockAddrs s.disk i k = P.dataStartLba + b ↔
        freedBefore P s.disk i (k + 1) b := by
      unfold freedBefore
      rw [or_assoc]
      refine or_congr_right ⟨?_, ?_⟩
      · rintro (⟨j, hj, at_j⟩ | at_k)
        · exact ⟨j, by omega, at_j⟩
        · exact ⟨k, by omega, at_k⟩
      · rintro ⟨j, hj, at_j⟩
        rcases Nat.lt_succ_iff_lt_or_eq.mp hj with lt | rfl
        · exact .inl ⟨j, lt, at_j⟩
        · exact .inr at_j
    refine ⟨fun there => ?_, fun hole => ?_⟩
    · exact wp_post (hu.step fits (blocks k (by omega) there)) fun _ v hv => hv.congr next
    · rw [not_not] at hole
      refine (wp_pure _).mpr (hu.congr fun b => ?_)
      rw [← next, hole, or_iff_left (start b).symm]
  have whole (n : Nat) (cover : n = 140 ∨ ∀ k, n ≤ k → k < 140 → blockAddrs s.disk i k = 0) (few : n ≤ 140) (b : Nat) :
      freedBefore P s.disk i n b ↔ Owns P s.disk i b := by
    unfold freedBefore Owns
    rw [or_comm]
    refine or_congr_left ⟨fun ⟨j, hj, at_j⟩ => ⟨j, Nat.lt_of_lt_of_le hj few, at_j⟩, fun ⟨j, hj, at_j⟩ => ⟨j, ?_, at_j⟩⟩
    rcases cover with rfl | holes
    · exact hj
    · by_contra behind
      exact start b (at_j.symm.trans (holes j (Nat.le_of_not_lt behind) hj))
  have none_yet (there : i.iSectors 12 = 0) (b : Nat) : False ↔ freedBefore P s.disk i 0 b := by
    simp [freedBefore, there, (start b).symm]
  have table_only (b : Nat) : (False ∨ i.iSectors 12 = P.dataStartLba + b) ↔ freedBefore P s.disk i 0 b := by
    simp [freedBefore]
  rw [Succeeds, releaseBlocks, wp_bind, wp_collectBlocks fun there => (table there).disk]
  by_cases there : i.iSectors 12 ≠ 0
  · simp only [if_pos there]
    rw [← bind_assoc, wp_bind]
    refine wp_post ((BitsCleared.start synced).step fits (table there)) fun _ t ht => ?_
    exact wp_post (loop 140 (Nat.le_refl _) t (ht.congr table_only)) fun _ u hu =>
      hu.congr (whole 140 (.inl rfl) (Nat.le_refl _))
  · have none : i.iSectors 12 = 0 := not_not.mp there
    have holes (k : Nat) (high : 12 ≤ k) (_ : k < 140) : blockAddrs s.disk i k = 0 := by
      rw [blockAddrs, if_neg (Nat.not_lt.mpr high), if_neg there]
    simp only [if_neg there]
    exact wp_post (loop 12 (by decide) s ((BitsCleared.start synced).congr (none_yet none))) fun _ u hu =>
      hu.congr (whole 12 (.inr holes) (by decide))

/-- What releaseNumber leaves: the bit of the number is cleared and its slot is zero. -/
structure NumberReleased (P : Partition) (s : FileSys) (n : Nat) (t : FileSys) : Prop where
  inodeBits : t.inodeBitmap = Function.update s.inodeBitmap n false
  inodeSynced : InodeSynced P t
  slot : ∀ k < Partition.inodeSize, t.disk (slotStart P n + k) = 0
  others : ∀ k, ¬ InInodeBitmap P k → ¬ (slotStart P n ≤ k ∧ k < slotStart P n + Partition.inodeSize) → t.disk k = s.disk k
  memory : Idle (s.withDisk t.disk s.blockBitmap t.inodeBitmap) 1 t

variable (P) in
/-- The disk with the slot of an inode number set to zero. -/
def zeroDisk (disk : Buf) (n : Nat) : Buf := blit disk (slotStart P n) Partition.inodeSize fun _ => 0

variable (P) in
/-- The disk with the inode bitmap written after the bit of a number is cleared. -/
def numberDisk (s : FileSys) (n : Nat) : Buf :=
  blit s.disk (512 * (P.inodeBitmapLba + n / 4096)) (512 * 1) fun k =>
    bitmapByte (Function.update s.inodeBitmap n false) (512 * (n / 4096) + k)

variable (P) in
def FileSys.clearNumber (s : FileSys) (n : Nat) : FileSys :=
  { s with inodeBitmap := Function.update s.inodeBitmap n false, disk := numberDisk P s n }

/-- inode_delete with its buffer, which is not checked for NULL. -/
theorem zeroSlot_spec (fits : P.Fits) (small : n < 4096) :
    wp (do
        let ioBuf ← sysMalloc
        check (ioBuf.isSome = true) .undefined
        inodeDelete P n 1024
        sysFree ioBuf)
      (fun _ t => MallocAnswers s 0 0 ∧ Idle { s with disk := zeroDisk P s.disk n } 1 t)
      (fun _ => ¬ MallocAnswers s 0 0) s := by
  have ok : MallocOk s ↔ MallocAnswers s 0 0 := Iff.rfl
  rw [wp_bind, wp_sysMalloc, wp_bind, wp_check, FileSys.afterMalloc, ← ok]
  by_cases answered : MallocOk s
  · rw [if_pos answered, if_pos answered]
    refine ⟨fun _ => ?_, fun none => (none rfl).elim⟩
    rw [wp_bind, inodeDelete, wp_bind, wp_inodeLocate small]
    refine wp_mono (writeSlot_spec fits small _ (bufferHolds_two n)) ?_ fun _ no => no.elim
    rintro - t rfl
    refine (wp_sysFree ?_ ?_).2 ⟨answered, ⟨⟨s.inode, s.dirInode, s.nextBlock + 1, Function.update s.owner s.nextBlock
      (s.pgdir s.current), fun k => s.oracle (k + 1), ?_⟩, fun _ _ => rfl, fun _ _ => rfl, fun p hp => ?_,
      Nat.le_succ _, fun j => congrArg s.oracle (Nat.add_comm j 1)⟩⟩
    · exact List.mem_cons_self
    · exact Function.update_self ..
    · simp only [FileSys.free, FileSys.withBlock, List.erase_cons_head, zeroDisk]
    · exact Function.update_of_ne (Nat.ne_of_lt hp) _ _
  · rw [if_neg answered]
    exact ⟨fun some => (Bool.false_ne_true some).elim, fun _ => answered⟩

theorem clearNumber_answers : MallocAnswers (s.clearNumber P n) 0 0 ↔ MallocAnswers s 0 0 := by
  unfold MallocAnswers FileSys.clearNumber
  dsimp only
  exact Iff.rfl

theorem clearNumber_with (disk : Buf) : { s.clearNumber P n with disk := disk } =
    s.withDisk disk s.blockBitmap (Function.update s.inodeBitmap n false) := by
  unfold FileSys.clearNumber FileSys.withDisk
  rfl

theorem releaseNumber_spec (fits : P.Fits) (small : n < 4096) :
    wp (releaseNumber P n) (fun _ t => MallocAnswers s 0 0 ∧ NumberReleased P s n t) (fun _ => ¬ MallocAnswers s 0 0) s := by
  have tableEnd := fits.table
  have inside := fits.inside
  have behind : P.inodeTableLba = P.inodeBitmapLba + 1 := rfl
  have low : P.inodeBitmapLba + n / 4096 ≤ maxLba := by
    simp only [Partition.inodeTableSects] at tableEnd
    omega
  have first : n / 4096 = 0 := Nat.div_eq_of_lt small
  have start : slotStart P n = 512 * P.inodeTableLba + Partition.inodeSize * n := rfl
  unfold releaseNumber
  rw [wp_bind, wp_get, wp_bind, wp_bitmapSet (by unfold Partition.inodeBitmapSects; omega), wp_bind, wp_modify, wp_bind,
    bitmapSync, wp_bind, wp_get, wp_ideWrite_iff low (by decide)]
  have zeroed := zeroSlot_spec (s := s.clearNumber P n) fits small
  rw [clearNumber_answers, clearNumber_with] at zeroed
  change wp _ _ _ (s.clearNumber P n)
  refine wp_mono zeroed (fun _ t ht => ?_) fun _ no => no
  obtain ⟨answered, idle⟩ := ht
  refine ⟨answered, ?_⟩
  have bits : t.inodeBitmap = Function.update s.inodeBitmap n false := by
    obtain ⟨inode, dirInode, nextBlock, owner, oracle, same⟩ := idle.same
    exact congrArg FileSys.inodeBitmap same
  have disk : t.disk = zeroDisk P (numberDisk P s n) n := idle.disk
  constructor
  · exact bits
  · intro k hk
    unfold Partition.inodeBitmapSects at hk
    rw [disk, bits, zeroDisk, blit_of_not_mem (by omega), numberDisk, blit_of_mem (by omega) (by omega), first]
    congr 1
    omega
  · intro k hk
    rw [disk, zeroDisk, blit_of_mem (Nat.le_add_right _ _) (Nat.add_lt_add_left hk _)]
  · intro k notBitmap notSlot
    unfold InInodeBitmap Partition.inodeBitmapSects at notBitmap
    rw [disk, zeroDisk, blit_of_not_mem (by omega), numberDisk, blit_of_not_mem (by omega)]
  · rw [disk, bits]
    exact idle

theorem withDisk_withDisk (disk disk' : Buf) (blockBits blockBits' inodeBits inodeBits' : Nat → Bool) :
    (s.withDisk disk blockBits inodeBits).withDisk disk' blockBits' inodeBits' =
      s.withDisk disk' blockBits' inodeBits' := rfl

theorem withDisk_answers (disk : Buf) (blockBits inodeBits : Nat → Bool) (j more : Nat) :
    MallocAnswers (s.withDisk disk blockBits inodeBits) j more ↔ MallocAnswers s j more := Iff.rfl

theorem Idle.blockBitmap (h : Idle s k u) : u.blockBitmap = s.blockBitmap := by
  obtain ⟨_, _, _, _, _, rfl⟩ := h.same
  rfl

theorem Idle.inodeBitmap (h : Idle s k u) : u.inodeBitmap = s.inodeBitmap := by
  obtain ⟨_, _, _, _, _, rfl⟩ := h.same
  rfl

/-- Between the opening of the inode and its closing. -/
theorem giveBack_spec (fits : P.Fits) (small : n < 4096) (synced : BlockSynced P s)
    (blocks : ∀ k < 140, blockAddrs s.disk i k ≠ 0 → OwnBlock P s (blockAddrs s.disk i k))
    (table : i.iSectors 12 ≠ 0 → OwnBlock P s (i.iSectors 12)) :
    wp (do releaseBlocks P i; releaseNumber P n)
      (fun _ t => MallocAnswers s 0 0 ∧ GivenBack P s i n t ∧ Idle (s.withDisk t.disk t.blockBitmap t.inodeBitmap) 1 t)
      (fun _ => ¬ MallocAnswers s 0 0) s := by
  have inodesBehind : P.inodeBitmapLba = P.blockBitmapLba + P.blockBitmapSects := rfl
  have tableBehind : P.inodeTableLba = P.inodeBitmapLba + 1 := rfl
  have start : slotStart P n = 512 * P.inodeTableLba + Partition.inodeSize * n := rfl
  rw [wp_bind]
  refine wp_mono (releaseBlocks_spec fits synced blocks table) ?_ fun _ no => no.elim
  rintro - t₁ cleared
  obtain ⟨bits, disk, same⟩ := cleared.same
  have state : t₁ = s.withDisk disk bits s.inodeBitmap := same
  have answers : MallocAnswers t₁ 0 0 ↔ MallocAnswers s 0 0 := by rw [state, withDisk_answers]
  have inodes : t₁.inodeBitmap = s.inodeBitmap := by rw [state, FileSys.withDisk]
  rw [← answers]
  refine wp_post (releaseNumber_spec fits small) ?_
  rintro - t ⟨answered, given⟩
  have idle := given.memory
  have blockBits : t.blockBitmap = t₁.blockBitmap := idle.blockBitmap
  have memory : Idle (s.withDisk t.disk t.blockBitmap t.inodeBitmap) 1 t := by
    rw [state, withDisk_withDisk] at idle
    rw [blockBits, state]
    exact idle
  refine ⟨answered, ⟨fun b => ?_, ?_, fun k hk => ?_, given.inodeSynced, given.slot,
    fun k noBlock noInode noSlot => ?_⟩, memory⟩
  · rw [blockBits]
    exact cleared.bits b
  · rw [given.inodeBits, inodes]
  · rw [blockBits, given.others, cleared.synced k hk]
    · unfold InInodeBitmap
      omega
    · omega
  · rw [given.others k noInode noSlot, cleared.others k noBlock]

theorem OwnBlock.congr {lba : Nat} (h : OwnBlock P s lba) (same : u.blockBitmap = s.blockBitmap) : OwnBlock P u lba :=
  ⟨⟨h.data, h.disk, same ▸ h.used⟩, h.inside, h.notRoot⟩

theorem InodesFit.withDisk (fit : InodesFit s) (disk : Buf) (blockBits inodeBits : Nat → Bool) :
    InodesFit (s.withDisk disk blockBits inodeBits) := ⟨fit.below, fit.counted⟩

/-- An inode that was open before is as before when it is closed. -/
theorem inodeClose_shared (fit : InodesFit s) (found : openInode s n = some o) (idle : Idle (s.addRef o) k t) :
    Succeeds (inodeClose o) (fun _ v => Idle s k v) t := by
  have mem := (openInode_mem found).1
  obtain ⟨pos, bound⟩ := fit.counted o mem
  have opened : o ∈ t.openInodes := idle.openInodes ▸ mem
  have self : t.inode o = { s.inode o with iOpenCnts := incr (s.inode o).iOpenCnts } :=
    (idle.inode o (fit.below o mem)).trans (FileSys.setInode_self ..)
  have count : decr (t.inode o).iOpenCnts = (s.inode o).iOpenCnts := by
    rw [self]
    exact decr_incr bound
  apply wp_inodeClose_kept opened (count ▸ Nat.ne_of_gt pos)
  rw [count, self]
  obtain ⟨⟨_, _, _, _, _, rfl⟩, inodes, dirs, owners, grown, rest⟩ := idle
  refine ⟨?_, ?_, dirs, owners, grown, rest⟩
  · simp only [FileSys.setInode, FileSys.addRef]
    exact ⟨_, _, _, _, _, rfl⟩
  · intro p hp
    by_cases hpo : p = o
    · subst hpo
      exact Function.update_self ..
    · exact (Function.update_of_ne hpo _ _).trans ((inodes p hp).trans (FileSys.setInode_of_ne _ _ hpo))

/-- The state behind an inode_open that has read the inode into a new block. -/
def FileSys.afterLoad (s : FileSys) (i : Inode) (owner : Nat → Option Nat) : FileSys :=
  { (s.setInode s.nextBlock i).pushInode s.nextBlock with
    oracle := fun j => s.oracle (j + 2)
    nextBlock := s.nextBlock + 2
    live := s.nextBlock :: s.live
    owner := owner }

/-- An inode that was read gives its block back when it is closed. -/
theorem inodeClose_loaded {owner : Nat → Option Nat} (kernel : owner s.nextBlock = none)
    (older : ∀ p < s.nextBlock, owner p = s.owner p) (one : i.iOpenCnts = 1) (idle : Idle (s.afterLoad i owner) k t) :
    Succeeds (inodeClose s.nextBlock) (fun _ v => Idle s (2 + k) v) t := by
  have opened : t.openInodes = s.nextBlock :: s.openInodes := idle.openInodes
  have live : t.live = s.nextBlock :: s.live := idle.live
  have below : s.nextBlock < (s.afterLoad i owner).nextBlock := Nat.lt_add_of_pos_right (by decide)
  have content : t.inode s.nextBlock = i := (idle.inode _ below).trans (Function.update_self ..)
  have last : decr (t.inode s.nextBlock).iOpenCnts = 0 := by
    rw [content, one]
    exact decr_one
  apply wp_inodeClose_last (opened ▸ List.mem_cons_self) last (live ▸ List.mem_cons_self)
    ((idle.owner _ below).trans kernel)
  obtain ⟨⟨_, _, _, _, _, rfl⟩, inodes, dirs, owners, grown, rest⟩ := idle
  have later {p : Nat} (hp : p < s.nextBlock) : p < (s.afterLoad i owner).nextBlock := hp.trans below
  refine ⟨?_, fun p hp => ?_, fun b hb => dirs b (later hb), fun p hp => (owners p (later hp)).trans (older p hp),
    below.le.trans grown, fun j => (rest j).trans (congrArg s.oracle (by omega))⟩
  · have closed : (s.nextBlock :: s.openInodes).erase s.nextBlock = s.openInodes := List.erase_cons_head ..
    have freed : (s.nextBlock :: s.live).erase s.nextBlock = s.live := List.erase_cons_head ..
    simp only [FileSys.free, FileSys.setInode, FileSys.removeInode, FileSys.afterLoad, FileSys.pushInode, closed, freed]
    exact ⟨_, _, _, _, _, rfl⟩
  · exact (Function.update_of_ne (Nat.ne_of_lt hp) _ _).trans
      ((inodes p (later hp)).trans (Function.update_of_ne (Nat.ne_of_lt hp) _ _))

/-- What is given back of the open inode is given back of the inode, once it is closed. -/
theorem GivenBack.closed (h : GivenBack P u i n t) (disk : u.disk = s.disk) (blockBits : u.blockBitmap = s.blockBitmap)
    (inodeBits : u.inodeBitmap = s.inodeBitmap) (sectors : i.iSectors = (inodeView P s n).iSectors)
    (idle : Idle (s.withDisk t.disk t.blockBitmap t.inodeBitmap) k v) : InodeReleased P s n v := by
  have disk' : v.disk = t.disk := idle.disk
  have blockBits' : v.blockBitmap = t.blockBitmap := idle.blockBitmap
  have inodeBits' : v.inodeBitmap = t.inodeBitmap := idle.inodeBitmap
  have owns (b : Nat) : Owns P u.disk i b ↔ Owns P s.disk (inodeView P s n) b := by
    simp only [Owns, blockAddrs, disk, sectors]
  refine ⟨⟨fun b => ?_, ?_, ?_, ?_, ?_, fun k noBlock noInode noSlot => ?_⟩, k, ?_⟩
  · rw [blockBits', h.blockBits, blockBits, owns]
  · rw [inodeBits', h.inodeBits, inodeBits]
  · simpa only [BlockSynced, disk', blockBits'] using h.blockSynced
  · simpa only [InodeSynced, disk', inodeBits'] using h.inodeSynced
  · simpa only [disk'] using h.slot
  · rw [disk', h.others k noBlock noInode noSlot, disk]
  · rw [disk', blockBits', inodeBits']
    exact idle

theorem addRef_withDisk (disk : Buf) (blockBits inodeBits : Nat → Bool) :
    (s.addRef o).withDisk disk blockBits inodeBits = (s.withDisk disk blockBits inodeBits).addRef o := rfl

theorem afterLoad_withDisk {owner : Nat → Option Nat} (disk : Buf) (blockBits inodeBits : Nat → Bool) :
    (s.afterLoad i owner).withDisk disk blockBits inodeBits = (s.withDisk disk blockBits inodeBits).afterLoad i owner := rfl

theorem Releasable.blocksOf (own : Releasable P s n) (disk : u.disk = s.disk) (blockBits : u.blockBitmap = s.blockBitmap)
    (sectors : i.iSectors = (inodeView P s n).iSectors) :
    (∀ k < 140, blockAddrs u.disk i k ≠ 0 → OwnBlock P u (blockAddrs u.disk i k)) ∧
      (i.iSectors 12 ≠ 0 → OwnBlock P u (i.iSectors 12)) ∧ BlockSynced P u := by
  have blocks := own.blocks
  have table := own.table
  have synced := own.synced
  have same (k : Nat) : blockAddrs u.disk i k = blockAddrs s.disk (inodeView P s n) k := by
    simp only [blockAddrs, disk, sectors]
  refine ⟨fun k hk there => ?_, fun there => ?_, ?_⟩
  · rw [same] at there ⊢
    exact (blocks k hk there).congr blockBits
  · rw [sectors] at there ⊢
    exact (table there).congr blockBits
  · simpa only [BlockSynced, disk, blockBits] using synced

/-- inode_release frees what the inode owns exactly when its calls of sys_malloc are answered. -/
theorem inodeRelease_frees (fits : P.Fits) (own : Releasable P s n) :
    Succeeds (inodeRelease P n) (fun _ t => InodeReleased P s n t) s ↔ ReleaseAnswered s n := by
  have small := own.small
  have number := own.number
  unfold inodeRelease ReleaseAnswered
  apply succeeds_exact
  rw [wp_bind]
  cases found : openInode s n with
  | some o =>
    have view : inodeView P s n = s.inode o := by rw [inodeView, found]
    have self : (s.addRef o).inode o = { s.inode o with iOpenCnts := incr (s.inode o).iOpenCnts } := FileSys.setInode_self ..
    have sectors : ((s.addRef o).inode o).iSectors = (inodeView P s n).iSectors := by rw [self, view]
    have named : ((s.addRef o).inode o).iNo = n := by
      rw [self]
      rwa [view] at number
    rw [if_neg (Option.some_ne_none o), wp_inodeOpen_found found, wp_bind, wp_get, wp_bind, wp_assert]
    refine ⟨fun _ => ?_, fun other => (other named).elim⟩
    obtain ⟨blocks, table, synced⟩ := own.blocksOf (u := s.addRef o) rfl rfl sectors
    rw [← bind_assoc, wp_bind]
    refine wp_mono (giveBack_spec fits small synced blocks table) ?_ fun _ no => no
    rintro - t ⟨answered, given, idle⟩
    rw [addRef_withDisk] at idle
    refine wp_mono (inodeClose_shared (own.inodes.withDisk t.disk t.blockBitmap t.inodeBitmap) found idle) (fun _ v hv => ?_) fun _ no => no.elim
    exact iff_of_true (given.closed rfl rfl rfl sectors hv) answered
  | none =>
    have view : inodeView P s n = slotAt P s.disk n := by rw [inodeView, found]
    rw [if_pos rfl]
    refine wp_mono (inodeOpen_loads fits small found) ?_ fun _ no all => no ⟨all.1, all.2.1⟩
    rintro _ t ⟨⟨first, second⟩, rfl, kernel, older, state⟩
    have loaded : t = s.afterLoad { slotAt P s.disk n with iOpenCnts := 1 } t.owner := state
    have self : t.inode s.nextBlock = { slotAt P s.disk n with iOpenCnts := 1 } := by
      rw [loaded]
      exact Function.update_self ..
    have sectors : (t.inode s.nextBlock).iSectors = (inodeView P s n).iSectors := by rw [self, view]
    have named : (t.inode s.nextBlock).iNo = n := by
      rw [self]
      rwa [view] at number
    have disk : t.disk = s.disk := (congrArg FileSys.disk state).trans rfl
    have blockBits : t.blockBitmap = s.blockBitmap := (congrArg FileSys.blockBitmap state).trans rfl
    have inodeBits : t.inodeBitmap = s.inodeBitmap := (congrArg FileSys.inodeBitmap state).trans rfl
    have third : MallocAnswers t 0 0 ↔ MallocAnswers s 2 1 := by
      rw [loaded]
      exact Iff.rfl
    rw [wp_bind, wp_get, wp_bind, wp_assert]
    refine ⟨fun _ => ?_, fun other => (other named).elim⟩
    obtain ⟨blocks, table, synced⟩ := own.blocksOf disk blockBits sectors
    rw [← bind_assoc, wp_bind]
    refine wp_mono (giveBack_spec fits small synced blocks table) ?_ fun _ no all => no (third.2 all.2.2)
    rintro - u ⟨answered, given, idle⟩
    rw [loaded, afterLoad_withDisk] at idle
    have closed := inodeClose_loaded (s := s.withDisk u.disk u.blockBitmap u.inodeBitmap) kernel older rfl idle
    refine wp_mono closed (fun _ v hv => ?_) fun _ no => no.elim
    exact iff_of_true (given.closed disk blockBits inodeBits sectors hv) ⟨first, second, third.1 answered⟩

end

/-- A partition with one file of inode number 1: block 614, and block 616 behind the table in block 615. -/
def indirectFile (oracle : Nat → Nat) : FileSys where
  disk k := match k with
    | 1536 => 15 | 2560 => 3 | 2636 => 1 | 2652 => 0x66 | 2653 => 2 | 2700 => 0x67 | 2701 => 2
    | 314880 => 0x68 | 314881 => 2 | _ => 0
  blockBitmap b := b < 4
  inodeBitmap b := b < 2
  inode _ := ⟨0, 48, 1, false, fun _ => 0⟩
  openInodes := []
  rootInode := 0
  dirInode _ := 0
  fileTable _ := ⟨0, 0, none⟩
  fdTable _ _ := -1
  cwdInodeNr _ := 0
  pgdir _ := none
  current := 0
  nextBlock := 1
  live := []
  owner _ := none
  handles := []
  oracle := oracle

theorem indirectFile_releasable (oracle : Nat → Nat) : Releasable smallPartition (indirectFile oracle) 1 := by
  have data : smallPartition.dataStartLba = 613 := by decide
  have own (lba : Nat) (low : 614 ≤ lba) (high : lba ≤ 616) : OwnBlock smallPartition (indirectFile oracle) lba := by
    have used : lba - smallPartition.dataStartLba < 4 := by omega
    refine ⟨⟨by omega, high.trans (by decide), ?_⟩, high.trans_lt (by decide), by omega⟩
    simp only [indirectFile, used, decide_true]
  have addrs : ∀ k < 140,
      let lba := blockAddrs (indirectFile fun _ => 0).disk (slotAt smallPartition (indirectFile fun _ => 0).disk 1) k
      lba ≠ 0 → 614 ≤ lba ∧ lba ≤ 616 := by decide +kernel
  constructor
  · decide
  · decide
  · rfl
  · rfl
  · intro k hk there
    exact own _ (addrs k hk there).1 (addrs k hk there).2
  · exact fun _ => own 615 (by decide) (by decide)
  · have synced : ∀ k < 512, (indirectFile fun _ => 0).disk (512 * smallPartition.blockBitmapLba + k) =
        bitmapByte (indirectFile fun _ => 0).blockBitmap k := by decide +kernel
    exact synced
  · exact ⟨fun _ out => (List.not_mem_nil out).elim, fun _ out => (List.not_mem_nil out).elim⟩

theorem inodeRelease_frees_indirect :
    Succeeds (inodeRelease smallPartition 1)
      (fun _ t => InodeReleased smallPartition (indirectFile fun _ => 1) 1 t) (indirectFile fun _ => 1) ↔
        ReleaseAnswered (indirectFile fun _ => 1) 1 :=
  inodeRelease_frees ⟨by decide, by decide, by decide⟩ (indirectFile_releasable fun _ => 1)

/-- io_buf is not checked for NULL. -/
theorem inodeRelease_unanswered : ∃ s, Releasable smallPartition s 1 ∧
    ¬ Succeeds (inodeRelease smallPartition 1) (fun _ t => InodeReleased smallPartition s 1 t) s := by
  refine ⟨indirectFile fun k => if k = 2 then 0 else 1, indirectFile_releasable _, fun done => ?_⟩
  have faults : ¬ Succeeds (inodeRelease smallPartition 1) (fun _ _ => True) (indirectFile fun k => if k = 2 then 0 else 1) := by
    decide +kernel
  exact faults (wp_post done fun _ _ _ => trivial)

end Zhenxiang.Fs
