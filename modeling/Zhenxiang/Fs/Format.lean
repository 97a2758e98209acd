import Zhenxiang.Fs.InodeTable

/-! The layout partition_format gives a partition, and the block bitmap it writes. -/
namespace Zhenxiang.Fs
open Lib Kernel

variable (P : Partition)

/-- Nothing that partition_format computes leaves the 32 bits. -/
structure Partition.NoOverflow : Prop where
  inside : P.startLba + P.secCnt ≤ 2 ^ 32
  round : P.freeSects + 4095 < 2 ^ 32

/-- The sectors from data_start_lba to the end of the partition. -/
def Partition.dataSects : Nat := P.startLba + P.secCnt - P.dataStartLba

/-- The sectors from lba on hold the bytes of that buffer. -/
def SectorsHold (disk : Buf) (lba secCnt : Nat) (buf : Buf) : Prop :=
  ∀ k < 512 * secCnt, disk (512 * lba + k) = buf k

/-- Every piece of the metadata is in its place, and no other sector has changed. -/
structure Formatted (s t : FileSys) : Prop where
  superBlock : SectorsHold t.disk (P.startLba + 1) 1 (superBlock P)
  blockBitmap : SectorsHold t.disk P.blockBitmapLba P.blockBitmapSects (formatBlockBitmap P)
  inodeBitmap : SectorsHold t.disk P.inodeBitmapLba Partition.inodeBitmapSects (Function.update (fun _ => 0) 0 1)
  inodeTable : SectorsHold t.disk P.inodeTableLba Partition.inodeTableSects
    (blit (fun _ => 0) 0 Partition.inodeSize (encodeInode (formatRootInode P)))
  root : SectorsHold t.disk P.dataStartLba 1 (dotEntries 0 0)
  elsewhere : ∀ k, k < 512 * (P.startLba + 1) ∨ 512 * (P.dataStartLba + 1) ≤ k → t.disk k = s.disk k

/-- A clear bit of the block bitmap. -/
def FormatClear (i : Nat) : Prop :=
  i < 4096 * P.blockBitmapSects ∧ bitOf (formatBlockBitmap P) i = false

/-- The pieces of the metadata follow each other inside the partition. -/
structure Contiguous : Prop where
  blockBitmap : P.startLba + 1 + 1 = P.blockBitmapLba
  inodeBitmap : P.blockBitmapLba + P.blockBitmapSects = P.inodeBitmapLba
  inodeTable : P.inodeBitmapLba + Partition.inodeBitmapSects = P.inodeTableLba
  data : P.inodeTableLba + Partition.inodeTableSects = P.dataStartLba
  some : 0 < P.blockBitmapSects
  inside : P.dataStartLba < P.startLba + P.secCnt

/-- What is expected of partition_format. On a partition of the disk it returns. -/
def FormatCorrect : Prop :=
  Contiguous P ∧ (∀ s : FileSys, Returns (partitionFormat P) (fun _ t => Formatted P s t) s) ∧
    (P.Fits → ∀ s : FileSys, MallocOk s → Succeeds (partitionFormat P) (fun _ t => Formatted P s t) s) ∧
    ∀ i, FormatClear P i ↔ 1 ≤ i ∧ i < P.dataSects

/-- With the sectors besides the boot sector, super block, inode bitmap and inode table, f of
them: the r sectors behind the last full 4096 are fewer than the sectors of the bitmap at the
first estimate, and not by 4096. -/
def Partition.LosesSector : Prop :=
  let f := P.secCnt - Partition.usedSects
  let sects := (f + 4095) / 4096
  f + 4096 < 4096 * sects + sects ∧ 4096 * sects + sects < f + 4096 + 4096

section Geometry
variable {P}

theorem divRoundUp_eq {x : Nat} (h : x + 4095 < 2 ^ 32) : divRoundUp x 4096 = (x + 4095) / 4096 := by
  rw [divRoundUp, Nat.mod_eq_of_lt]
  · rfl
  · exact h

theorem Partition.NoOverflow.sizes (fits : P.NoOverflow) (room : 613 ≤ P.secCnt) :
    P.freeSects = P.secCnt - 611 ∧ P.blockBitmapBitLen = P.freeSects - (P.freeSects + 4095) / 4096 ∧
      P.blockBitmapSects = (P.blockBitmapBitLen + 4095) / 4096 := by
  obtain ⟨inside, round⟩ := fits
  have len : P.blockBitmapBitLen = P.freeSects - (P.freeSects + 4095) / 4096 := by
    rw [Partition.blockBitmapBitLen, divRoundUp_eq round]
  have less : P.blockBitmapBitLen ≤ P.freeSects := len ▸ Nat.sub_le _ _
  refine ⟨?_, len, ?_⟩
  · have low : P.secCnt - 611 < 2 ^ 32 := by omega
    have sum : P.secCnt + 2 ^ 32 - 611 = P.secCnt - 611 + 2 ^ 32 := by omega
    calc P.freeSects = (P.secCnt + 2 ^ 32 - 611) % 2 ^ 32 := rfl
      _ = P.secCnt - 611 := by rw [sum, Nat.add_mod_right, Nat.mod_eq_of_lt low]
  · rw [Partition.blockBitmapSects, divRoundUp_eq (by omega)]

theorem Partition.dataStart_eq : P.dataStartLba = P.startLba + 611 + P.blockBitmapSects := by
  simp only [Partition.dataStartLba, Partition.inodeTableLba, Partition.inodeBitmapLba, Partition.blockBitmapLba,
    Partition.inodeBitmapSects, Partition.inodeTableSects]
  omega

/-- The bits of the last byte of the length that the loop clears. -/
theorem lowBits : ∀ last < 8, ∀ m < 8,
    ((UInt8.ofNat (256 - 2 ^ (last + 1))).toNat / 2 ^ m % 2 == 1) = false ↔ m ≤ last := by
  decide

/-- The bits of a byte of ones. -/
theorem allBits : ∀ m < 8, ((0xff : UInt8).toNat / 2 ^ m % 2 == 1) = true := by
  decide

/-- Behind the byte of the bit blockBitmapBitLen all bits are set up to the end of the sector,
and in this byte the low ones are clear, that bit included. -/
theorem bitOf_format (i : Nat) (room : i / 8 < P.blockBitmapBitLen / 8 + (512 - P.blockBitmapBitLen / 8 % 512)) :
    bitOf (formatBlockBitmap P) i = false ↔
      i ≤ P.blockBitmapBitLen ∧ (i = 0 → P.blockBitmapBitLen < 8) := by
  have low : i % 8 < 8 := Nat.mod_lt _ (by decide)
  have last : P.blockBitmapBitLen % 8 < 8 := Nat.mod_lt _ (by decide)
  simp only [bitOf, formatBlockBitmap]
  by_cases here : i / 8 = P.blockBitmapBitLen / 8
  · rw [here, Function.update_self, lowBits _ last _ low]
    omega
  · rw [Function.update_of_ne here]
    by_cases behind : P.blockBitmapBitLen / 8 ≤ i / 8
    · rw [blit_of_mem behind room, allBits _ low]
      simp only [Bool.true_eq_false, false_iff]
      omega
    · rw [blit_of_not_mem (by omega)]
      by_cases first : i / 8 = 0
      · rw [first, Function.update_self]
        have bit : ∀ m < 8, ((1 : UInt8).toNat / 2 ^ m % 2 == 1) = false ↔ m ≠ 0 := by decide
        rw [bit _ low]
        omega
      · rw [Function.update_of_ne first]
        simp only [UInt8.toNat_zero, Nat.zero_div, Nat.zero_mod]
        constructor
        · intro _
          omega
        · intro _
          rfl

/-- The clear bits of the bitmap that fits into its sectors. -/
theorem formatClear_iff (fits : P.NoOverflow) (room : 613 ≤ P.secCnt) (i : Nat) : FormatClear P i ↔
    i < 4096 * P.blockBitmapSects ∧ i ≤ P.blockBitmapBitLen ∧ (i = 0 → P.blockBitmapBitLen < 8) := by
  obtain ⟨-, -, sects⟩ := fits.sizes room
  unfold FormatClear
  constructor
  · rintro ⟨inside, clear⟩
    exact ⟨inside, (bitOf_format i (by omega)).1 clear⟩
  · rintro ⟨inside, clear⟩
    exact ⟨inside, (bitOf_format i (by omega)).2 clear⟩

/-- f sectors, a first estimate of (f + 4095) / 4096 sectors for the bitmap of n bits, and then
b of them. -/
theorem estimate_iff {f n b : Nat} (many : 2 ≤ f) (len : n = f - (f + 4095) / 4096) (sects : b = (n + 4095) / 4096) :
    (∀ i, i < 4096 * b ∧ i ≤ n ∧ (i = 0 → n < 8) ↔ 1 ≤ i ∧ i < f - b) ↔
      f + 4096 < 4096 * ((f + 4095) / 4096) + (f + 4095) / 4096 ∧
        4096 * ((f + 4095) / 4096) + (f + 4095) / 4096 < f + 4096 + 4096 := by
  have pos : 1 ≤ n := by omega
  have upper : n ≤ 4096 * b := by omega
  have lower : 4096 * b < n + 4096 := by omega
  have first : n + (f + 4095) / 4096 = f := by omega
  have top : 4096 * ((f + 4095) / 4096) < f + 4096 := by omega
  have bottom : f ≤ 4096 * ((f + 4095) / 4096) := by omega
  generalize (f + 4095) / 4096 = c at first top bottom ⊢
  clear len sects
  constructor
  · intro right
    have strict : n ≠ 4096 * b := by
      intro full
      have bit := (right n).2 ⟨pos, by omega⟩
      omega
    have more : n < f - b := ((right n).1 ⟨by omega, Nat.le_refl n, by omega⟩).2
    have least : ¬ n + 1 < f - b := by
      intro next
      have bit := (right (n + 1)).2 ⟨by omega, next⟩
      omega
    omega
  · intro ⟨few, once⟩ i
    have sects : c = b + 1 := by omega
    have large : 8 ≤ n := by omega
    constructor
    · intro ⟨inside, low, zero⟩
      omega
    · intro ⟨one, low⟩
      omega

/-- The bitmap is right exactly when its second estimate is one sector less than the first and
the bit that is cleared in addition is in it. -/
theorem clear_iff (fits : P.NoOverflow) (room : 613 ≤ P.secCnt) :
    (∀ i, FormatClear P i ↔ 1 ≤ i ∧ i < P.dataSects) ↔ P.LosesSector := by
  obtain ⟨free, len, sects⟩ := fits.sizes room
  have data : P.dataSects = P.freeSects - P.blockBitmapSects := by
    simp only [Partition.dataSects, Partition.dataStart_eq, free]
    omega
  have used : Partition.usedSects = 611 := by decide
  simp only [formatClear_iff fits room, Partition.LosesSector, used, data, ← free]
  have many : 2 ≤ P.freeSects := by omega
  exact estimate_iff many len sects

theorem contiguous (fits : P.NoOverflow) (room : 613 ≤ P.secCnt) : Contiguous P := by
  obtain ⟨free, len, sects⟩ := fits.sizes room
  have data := P.dataStart_eq
  constructor <;> first | rfl | omega

/-! What is on the disk afterwards. -/

variable {disk : Buf} {lba secCnt : Nat} {buf : Buf}

theorem sectorsHold_blit (disk : Buf) (lba secCnt : Nat) (buf : Buf) :
    SectorsHold (blit disk (512 * lba) (512 * secCnt) buf) lba secCnt buf := by
  intro k hk
  rw [blit_of_mem (by omega) (by omega), Nat.add_sub_cancel_left]

theorem SectorsHold.blit_other (h : SectorsHold disk lba secCnt buf) {l n : Nat} (b : Buf)
    (apart : lba + secCnt ≤ l ∨ l + n ≤ lba) : SectorsHold (blit disk (512 * l) (512 * n) b) lba secCnt buf := by
  intro k hk
  rw [blit_of_not_mem (by omega)]
  exact h k hk

variable {good : Prop} {E : Fault → Prop} {s : FileSys}

/-- A write that is on the disk when all is well, and of which nothing is asked otherwise. -/
theorem wp_ideWrite_good (bad : ¬ good → ∀ e, E e) {Q : Unit → FileSys → Prop}
    (low : good → lba ≤ maxLba ∧ 0 < secCnt) (h : Q () { s with disk := blit s.disk (512 * lba) (512 * secCnt) buf }) :
    wp (ideWrite lba buf secCnt) Q E s := by
  by_cases ok : good
  · exact (wp_ideWrite_iff (low ok).1 (low ok).2).2 h
  · unfold ideWrite
    rw [wp_bind, wp_assert, wp_bind, wp_assert, wp_modify]
    exact ⟨fun _ => ⟨fun _ => h, fun _ => bad ok _⟩, fun _ => bad ok _⟩

theorem wp_sysMalloc_good (ok : good → MallocOk s) {Q : Option Nat → FileSys → Prop}
    (failed : ¬ good → ∀ t, Q none t) (h : Q (some s.nextBlock) s.withBlock) : wp sysMalloc Q E s := by
  by_cases answers : MallocOk s
  · exact answers.run.2 h
  · rw [wp_sysMalloc, if_neg answers]
    exact failed (fun yes => answers (ok yes)) _

/-- The pieces of the metadata and the root directory do not overlap. -/
theorem Contiguous.formatted (c : Contiguous P) (s t : FileSys)
    (disk : t.disk = blit (blit (blit (blit (blit s.disk (512 * (P.startLba + 1)) (512 * 1) (superBlock P))
        (512 * P.blockBitmapLba) (512 * P.blockBitmapSects) (formatBlockBitmap P))
        (512 * P.inodeBitmapLba) (512 * Partition.inodeBitmapSects) (Function.update (fun _ => 0) 0 1))
        (512 * P.inodeTableLba) (512 * Partition.inodeTableSects)
          (blit (fun _ => 0) 0 Partition.inodeSize (encodeInode (formatRootInode P))))
        (512 * P.dataStartLba) (512 * 1) (dotEntries 0 0)) : Formatted P s t := by
  obtain ⟨blocks, inodes, table, data, -, -⟩ := c
  constructor
  · rw [disk]
    exact ((((sectorsHold_blit _ _ _ _).blit_other _ (by omega)).blit_other _ (by omega)).blit_other _ (by omega)).blit_other
      _ (by omega)
  · rw [disk]
    exact (((sectorsHold_blit _ _ _ _).blit_other _ (by omega)).blit_other _ (by omega)).blit_other _ (by omega)
  · rw [disk]
    exact ((sectorsHold_blit _ _ _ _).blit_other _ (by omega)).blit_other _ (by omega)
  · rw [disk]
    exact (sectorsHold_blit _ _ _ _).blit_other _ (by omega)
  · rw [disk]
    exact sectorsHold_blit _ _ _ _
  · intro k out
    rw [disk, blit_of_not_mem (by omega), blit_of_not_mem (by omega), blit_of_not_mem (by omega),
      blit_of_not_mem (by omega), blit_of_not_mem (by omega)]

theorem Partition.Fits.noOverflow (fits : P.Fits) : P.NoOverflow := by
  obtain ⟨boot, room, inside⟩ := fits
  simp only [maxLba] at inside
  have free : P.freeSects = P.secCnt - 611 := by
    simp only [Partition.freeSects, Partition.usedSects, Partition.inodeBitmapSects, Partition.inodeTableSects]
    omega
  refine ⟨?_, ?_⟩
  · omega
  · rw [free]
    omega

/-- A run of partition_format that returns has formatted the partition, and on a partition of
the disk it returns. -/
theorem partitionFormat_spec (c : Contiguous P) (bad : ¬ (P.Fits ∧ MallocOk s) → ∀ e, E e) :
    wp (partitionFormat P) (fun _ t => Formatted P s t) E s := by
  have place : P.Fits ∧ MallocOk s → ∀ lba, lba ≤ P.dataStartLba → lba ≤ maxLba := by
    intro ok lba low
    have last := ok.1.inside
    have data := c.inside
    omega
  have small : P.Fits ∧ MallocOk s → P.blockBitmapSects < 2 ^ 18 := by
    intro ok
    have last := ok.1.inside
    have data := c.inside
    rw [P.dataStart_eq] at data
    simp only [maxLba] at last
    omega
  unfold partitionFormat
  rw [wp_bind, wp_check]
  constructor
  · intro _
    rw [wp_bind]
    apply wp_sysMalloc_good And.right
    · intro failed t
      rw [wp_bind, wp_check]
      exact ⟨fun some => absurd some (by decide), fun _ => bad failed _⟩
    · rw [wp_bind, wp_check]
      refine ⟨fun _ => ?_, fun none => (none rfl).elim⟩
      rw [wp_bind]
      apply wp_ideWrite_good bad fun ok => ⟨place ok _ (by rw [P.dataStart_eq]; omega), by decide⟩
      rw [wp_bind]
      apply wp_ideWrite_good bad fun ok => ⟨place ok _ (by rw [← c.data, ← c.inodeTable, ← c.inodeBitmap]; omega), c.some⟩
      rw [wp_bind]
      apply wp_ideWrite_good bad fun ok => ⟨place ok _ (by rw [← c.data, ← c.inodeTable]; omega), by decide⟩
      rw [wp_bind]
      apply wp_ideWrite_good bad fun ok => ⟨place ok _ (by rw [← c.data]; omega), by decide⟩
      rw [wp_bind]
      apply wp_ideWrite_good bad fun ok => ⟨place ok _ (Nat.le_refl _), by decide⟩
      apply (wp_sysFree List.mem_cons_self (Function.update_self ..)).2
      exact c.formatted s _ rfl
  · intro large
    apply bad
    intro ok
    have := small ok
    omega

/-- partition_format is correct exactly when the sector its bitmap loses is the one whose bit it
clears too much. -/
theorem partition_format_correct (P : Partition) (fits : P.NoOverflow) (room : 613 ≤ P.secCnt) :
    FormatCorrect P ↔ P.LosesSector := by
  have c := contiguous fits room
  rw [FormatCorrect, clear_iff fits room]
  constructor
  · intro correct
    exact correct.2.2.2
  · intro loses
    refine ⟨c, fun s => ?_, fun parts s ok => ?_, loses⟩
    · exact partitionFormat_spec c fun _ _ => trivial
    · exact partitionFormat_spec c fun failed => (failed ⟨parts, ok⟩).elim

end Geometry

/-- 4097 sectors besides the other metadata: the bitmap is first two sectors and then one. -/
theorem partition_format_correct_two : FormatCorrect ⟨1, 4708, false⟩ :=
  (partition_format_correct ⟨1, 4708, false⟩ ⟨by decide, by decide⟩ (by decide)).2 ⟨by decide, by decide⟩

/-- On a partition of 700 sectors the data area has 88 sectors, and the bit 88 is clear. -/
theorem bit_beyond_clear : ¬ FormatCorrect somePartition ∧ somePartition.dataSects = 88 ∧
    FormatClear somePartition 88 := by
  have fits := somePartition_fits.noOverflow
  refine ⟨fun correct => ?_, by decide, by decide, by decide⟩
  have loses := (clear_iff fits (by decide)).1 correct.2.2.2
  exact absurd loses.1 (by decide)

end Zhenxiang.Fs
