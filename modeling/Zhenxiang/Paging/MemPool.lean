import Zhenxiang.Paging.Pages

/-! mem_pool_init of memory.c: how it divides the memory above the first two megabytes between
the kernel pool and the user pool, and where it puts the three bitmaps. -/
namespace Zhenxiang.Paging
open Lib Kernel

def memBitmapBase : UInt32 := 0xc009a000

/-- struct bitmap as memory.c fills it in: bits is an address. -/
structure BitmapAt where
  btmpBytesLen : UInt32
  bits : UInt32
  deriving DecidableEq, Repr

structure Pool where
  poolBitmap : BitmapAt
  phyAddrStart : UInt32
  poolSize : UInt32
  deriving DecidableEq, Repr

structure MemPools where
  kernelPool : Pool
  userPool : Pool
  kernelVaddr : BitmapAt
  mem : Nat → UInt8

def bitmapInit (b : BitmapAt) (mem : Nat → UInt8) : Nat → UInt8 := fun a =>
  if b.bits.toNat ≤ a ∧ a < b.bits.toNat + b.btmpBytesLen.toNat then 0 else mem a

/-- The page counts are uint16_t: the number of free pages is cut to 16 bits. -/
def memPoolInit (allMem : UInt32) (mem : Nat → UInt8) : MemPools :=
  let pageTableSize : UInt32 := 4096 * 256
  let usedMem : UInt32 := pageTableSize + 0x100000
  let freeMem := allMem - usedMem
  let allFreePages : UInt16 := (freeMem / 4096).toUInt16
  let kernelFreePages := allFreePages / 2
  let userFreePages := allFreePages - kernelFreePages
  let kbmLength := kernelFreePages.toUInt32 / 8
  let ubmLength := userFreePages.toUInt32 / 8
  let kpStart := usedMem
  let upStart := kpStart + kernelFreePages.toUInt32 * 4096
  let kernelBitmap : BitmapAt := ⟨kbmLength, memBitmapBase⟩
  let userBitmap : BitmapAt := ⟨ubmLength, memBitmapBase + kbmLength⟩
  let vaddrBitmap : BitmapAt := ⟨kbmLength, memBitmapBase + kbmLength + ubmLength⟩
  { kernelPool := ⟨kernelBitmap, kpStart, kernelFreePages.toUInt32 * 4096⟩
    userPool := ⟨userBitmap, upStart, userFreePages.toUInt32 * 4096⟩
    kernelVaddr := vaddrBitmap
    mem := bitmapInit vaddrBitmap (bitmapInit userBitmap (bitmapInit kernelBitmap mem)) }

/-- The bytes of b. -/
def BitmapAt.Holds (b : BitmapAt) (a : Nat) : Prop :=
  b.bits.toNat ≤ a ∧ a < b.bits.toNat + b.btmpBytesLen.toNat

instance (b : BitmapAt) (a : Nat) : Decidable (b.Holds a) := inferInstanceAs (Decidable (_ ∧ _))

/-- The bytes of the frames of a pool. -/
def Pool.Holds (p : Pool) (a : Nat) : Prop :=
  p.phyAddrStart.toNat ≤ a ∧ a < p.phyAddrStart.toNat + p.poolSize.toNat

/-- The first byte of the frame that palloc gives for bit i. -/
def Pool.frame (p : Pool) (i : Nat) : Nat := p.phyAddrStart.toNat + i * pgSize

/-- The number of the frames that a pool gives out. -/
def Pool.managed (p : Pool) : Nat := 8 * p.poolBitmap.btmpBytesLen.toNat

def Pool.OwnFrames (p : Pool) : Prop := ∀ i < p.managed, ∀ k < pgSize, p.Holds (p.frame i + k)

/-- The four pages in front of the main thread's PCB. -/
def BitmapAt.Fits (b : BitmapAt) : Prop := ∀ a, b.Holds a → 0xc009a000 ≤ a ∧ a < 0xc009e000

/-- What the comments of memory.c ask of the layout for allMem bytes of memory. -/
structure Layout (allMem : UInt32) (p : MemPools) : Prop where
  inside : ∀ a, p.kernelPool.Holds a ∨ p.userPool.Holds a → 0x200000 ≤ a ∧ a < allMem.toNat
  apart : ∀ a, ¬ (p.kernelPool.Holds a ∧ p.userPool.Holds a)
  kernelFrames : p.kernelPool.OwnFrames
  userFrames : p.userPool.OwnFrames
  kernelFits : p.kernelPool.poolBitmap.Fits
  userFits : p.userPool.poolBitmap.Fits
  vaddrFits : p.kernelVaddr.Fits
  bitmapsApart : ∀ a, ¬ (p.kernelPool.poolBitmap.Holds a ∧ p.userPool.poolBitmap.Holds a) ∧
    ¬ (p.kernelPool.poolBitmap.Holds a ∧ p.kernelVaddr.Holds a) ∧
    ¬ (p.userPool.poolBitmap.Holds a ∧ p.kernelVaddr.Holds a)
  unmanaged : (allMem.toNat - 0x200000) / pgSize < p.kernelPool.managed + p.userPool.managed + 16

/-- all_free_pages, after the cut to 16 bits. -/
def freePages (allMem : UInt32) : Nat := (allMem.toNat - 0x200000) / pgSize % 2 ^ 16

section
variable {allMem : UInt32} (low : 0x400000 ≤ allMem) (mem : Nat → UInt8)
include low

theorem allFreePages_toNat :
    ((allMem - (4096 * 256 + 0x100000)) / 4096).toUInt16.toNat = freePages allMem := by
  have hl : 0x400000 ≤ allMem.toNat := low
  have hs : (allMem - (4096 * 256 + 0x100000)).toNat = allMem.toNat - 0x200000 :=
    UInt32.toNat_sub_of_le _ _ (by rw [UInt32.le_iff_toNat_le]; simp; omega)
  rw [UInt32.toNat_toUInt16, UInt32.toNat_div, hs]
  rfl

/-- The fields that mem_pool_init sets as numbers: with 16-bit counts nothing else overflows. -/
structure PoolValues (n : Nat) (p : MemPools) : Prop where
  kernelStart : p.kernelPool.phyAddrStart.toNat = kStart
  kernelSize : p.kernelPool.poolSize.toNat = n / 2 * pgSize
  userStart : p.userPool.phyAddrStart.toNat = kStart + n / 2 * pgSize
  userSize : p.userPool.poolSize.toNat = (n - n / 2) * pgSize
  kernelLen : p.kernelPool.poolBitmap.btmpBytesLen.toNat = n / 2 / 8
  userLen : p.userPool.poolBitmap.btmpBytesLen.toNat = (n - n / 2) / 8
  vaddrLen : p.kernelVaddr.btmpBytesLen.toNat = n / 2 / 8
  kernelBits : p.kernelPool.poolBitmap.bits.toNat = 0xc009a000
  userBits : p.userPool.poolBitmap.bits.toNat = 0xc009a000 + n / 2 / 8
  vaddrBits : p.kernelVaddr.bits.toNat = 0xc009a000 + n / 2 / 8 + (n - n / 2) / 8

theorem memPoolInit_values : PoolValues (freePages allMem) (memPoolInit allMem mem) := by
  have hn := allFreePages_toNat low
  have hlt : freePages allMem < 2 ^ 16 := Nat.mod_lt _ (by decide)
  simp only [memPoolInit]
  generalize ((allMem - (4096 * 256 + 0x100000)) / 4096).toUInt16 = c at *
  have hk : (c / 2).toUInt32.toNat = freePages allMem / 2 := by
    rw [UInt16.toNat_toUInt32, UInt16.toNat_div, hn]
    rfl
  have hu : (c - c / 2).toUInt32.toNat = freePages allMem - freePages allMem / 2 := by
    have half : c / 2 ≤ c := by
      rw [UInt16.le_iff_toNat_le, UInt16.toNat_div]
      exact Nat.div_le_self _ _
    rw [UInt16.toNat_toUInt32, UInt16.toNat_sub_of_le _ _ half, UInt16.toNat_div, hn]
    rfl
  generalize (c / 2).toUInt32 = k at *
  generalize (c - c / 2).toUInt32 = u at *
  generalize freePages allMem = n at *
  constructor <;>
    simp [UInt32.toNat_add, UInt32.toNat_mul, UInt32.toNat_div, hk, hu, memBitmapBase, kStart, pgSize] <;> omega

end

/-- A frame of a bit below managed ends in the pool, whose length the division by 8 rounds down. -/
theorem ownFrames {p : Pool} {pages : Nat} (size : p.poolSize.toNat = pages * pgSize)
    (len : p.poolBitmap.btmpBytesLen.toNat = pages / 8) : p.OwnFrames := by
  intro i hi k hk
  have frames : i + 1 ≤ pages := by
    unfold Pool.managed at hi
    omega
  have last : (i + 1) * pgSize ≤ pages * pgSize := Nat.mul_le_mul_right _ frames
  rw [Nat.add_mul] at last
  unfold Pool.Holds Pool.frame
  omega

/-- The layout of mem_pool_init is correct below 258 MB, where the count of free pages fits in 16
bits; from there on at least 2^16 frames are lost. -/
theorem memPoolInit_layout (allMem : UInt32) (mem : Nat → UInt8) (low : 4 * 1024 * 1024 ≤ allMem)
    (high : allMem ≤ 512 * 1024 * 1024) :
    Layout allMem (memPoolInit allMem mem) ↔ allMem < 258 * 1024 * 1024 := by
  have v := memPoolInit_values low mem
  have hl : 0x400000 ≤ allMem.toNat := low
  have hh : allMem.toNat ≤ 0x20000000 := high
  have hc : allMem < 258 * 1024 * 1024 ↔ allMem.toNat < 0x10200000 := Iff.rfl
  have hn : freePages allMem = (allMem.toNat - 0x200000) / 4096 % 65536 := rfl
  rw [hc]
  constructor
  · intro h
    have lost := h.unmanaged
    simp only [Pool.managed, v.kernelLen, v.userLen, pgSize] at lost
    omega
  · intro small
    have kp := v.kernelStart
    have ks := v.kernelSize
    have us := v.userStart
    have uz := v.userSize
    have kl := v.kernelLen
    have ul := v.userLen
    have vl := v.vaddrLen
    have kb := v.kernelBits
    have ub := v.userBits
    have vb := v.vaddrBits
    simp only [kStart, pgSize] at kp ks us uz
    constructor
    case kernelFrames => exact ownFrames v.kernelSize v.kernelLen
    case userFrames => exact ownFrames v.userSize v.userLen
    all_goals
      simp only [Pool.Holds, BitmapAt.Fits, BitmapAt.Holds, Pool.managed, pgSize]
      omega

theorem memPoolInit_layout_32mb :
    Layout (32 * 1024 * 1024) (memPoolInit (32 * 1024 * 1024) fun _ => 0) ↔
      (32 * 1024 * 1024 : UInt32) < 258 * 1024 * 1024 :=
  memPoolInit_layout (32 * 1024 * 1024) (fun _ => 0) (by decide) (by decide)

/-- With 512 MB the count of free pages, 130560, is cut to 65024. -/
theorem memPoolInit_loses_frames :
    ¬ Layout (512 * 1024 * 1024) (memPoolInit (512 * 1024 * 1024) fun _ => 0) := fun h =>
  absurd h.unmanaged (by decide)

end Zhenxiang.Paging
