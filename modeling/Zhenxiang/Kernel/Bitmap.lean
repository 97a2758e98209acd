import Zhenxiang.Kernel.Debug

/-! The bitmaps of lib/kernel/bitmap.c. What lies behind the bytes of a bitmap is whatever the
memory holds there. -/
namespace Zhenxiang.Kernel
open Lib

/-- btmp_bytes_len and the memory from bits on. The number of a bit is an int; no pool, address
space or disk of this kernel comes near 2^31 pages or blocks. -/
structure Bitmap where
  btmpBytesLen : Nat
  bits : Nat → UInt8
  small : 8 * btmpBytesLen < 2 ^ 31

def bitmapScanTest (btmp : Bitmap) (bitIdx : Nat) : Bool :=
  (btmp.bits (bitIdx / 8)).toNat.testBit (bitIdx % 8)

/-- The loop over the bytes that are 0xff, for at most so many rounds. -/
def skipFull (btmp : Bitmap) : Nat → Nat → Nat
  | 0, idxByte => idxByte
  | rounds + 1, idxByte =>
    if btmp.bits idxByte = 0xff ∧ idxByte < btmp.btmpBytesLen then skipFull btmp rounds (idxByte + 1)
    else idxByte

/-- The loop over the set bits at the bottom of a byte. -/
def skipSet (byte : UInt8) : Nat → Nat → Nat
  | 0, idxBit => idxBit
  | rounds + 1, idxBit => if byte.toNat.testBit idxBit then skipSet byte rounds (idxBit + 1) else idxBit

/-- The loop of bit_left rounds that counts successive clear bits; -1 when it ends. -/
def scanRun (btmp : Bitmap) (cnt : Nat) : Nat → Nat → Nat → Int
  | 0, _, _ => -1
  | bitLeft + 1, nextBit, count =>
    let count := if bitmapScanTest btmp nextBit then 0 else count + 1
    if count = cnt then (nextBit : Int) - cnt + 1 else scanRun btmp cnt bitLeft (nextBit + 1) count

def bitmapScan (btmp : Bitmap) (cnt : Nat) : Except Fault Int :=
  let idxByte := skipFull btmp btmp.btmpBytesLen 0
  if idxByte < btmp.btmpBytesLen then
    let bitIdxStart := idxByte * 8 + skipSet (btmp.bits idxByte) 8 0
    if cnt = 1 then
      .ok bitIdxStart
    else
      .ok (scanRun btmp cnt (btmp.btmpBytesLen * 8 - bitIdxStart) (bitIdxStart + 1) 1)
  else
    .error .assertion

/-- The cnt bits from start are all in the bitmap and all clear. -/
def FreeRun (btmp : Bitmap) (cnt start : Nat) : Prop :=
  ∀ k < cnt, start + k < 8 * btmp.btmpBytesLen ∧ bitmapScanTest btmp (start + k) = false

/-- The bytes of the two bitmaps are the same; what lies behind them may differ. -/
def SameBytes (btmp other : Bitmap) : Prop :=
  btmp.btmpBytesLen = other.btmpBytesLen ∧ ∀ k < btmp.btmpBytesLen, btmp.bits k = other.bits k

/-- What a caller expects of bitmap_scan. -/
structure ScanCorrect (btmp : Bitmap) (cnt : Nat) : Prop where
  returns : ∃ r, bitmapScan btmp cnt = .ok r
  least : ∀ start : Nat, bitmapScan btmp cnt = .ok start ↔
    FreeRun btmp cnt start ∧ ∀ s < start, ¬ FreeRun btmp cnt s
  failure : bitmapScan btmp cnt = .ok (-1) ↔ ∀ s, ¬ FreeRun btmp cnt s
  inside : ∀ other, SameBytes btmp other → bitmapScan other cnt = bitmapScan btmp cnt

/-- All bits from start to the end of the bitmap are clear. -/
def FreeTail (btmp : Bitmap) (start : Nat) : Prop :=
  ∀ i < 8 * btmp.btmpBytesLen, start ≤ i → bitmapScanTest btmp i = false

/-- Some bit is clear; and when there is no run of cnt bits, then the last bits are no run of
cnt - 1 bits. -/
def Scannable (btmp : Bitmap) (cnt : Nat) : Prop :=
  (∃ i < 8 * btmp.btmpBytesLen, bitmapScanTest btmp i = false) ∧
    ((∃ s, FreeRun btmp cnt s) ∨ 8 * btmp.btmpBytesLen + 1 < cnt ∨
      ¬ FreeTail btmp (8 * btmp.btmpBytesLen + 1 - cnt))

variable {btmp other : Bitmap} {cnt : Nat}

theorem skipFull_spec (rounds idxByte : Nat) (h : idxByte ≤ btmp.btmpBytesLen)
    (enough : btmp.btmpBytesLen ≤ idxByte + rounds) :
    skipFull btmp rounds idxByte ≤ btmp.btmpBytesLen ∧
      (∀ k, idxByte ≤ k → k < skipFull btmp rounds idxByte → btmp.bits k = 0xff) ∧
      (skipFull btmp rounds idxByte < btmp.btmpBytesLen →
        btmp.bits (skipFull btmp rounds idxByte) ≠ 0xff) := by
  induction rounds generalizing idxByte with
  | zero =>
    simp only [skipFull]
    exact ⟨h, fun k hk hk' => by omega, fun hlt => by omega⟩
  | succ rounds ih =>
    simp only [skipFull]
    split
    · obtain ⟨full, inside⟩ := ‹_ ∧ _›
      obtain ⟨bound, below, stop⟩ := ih (idxByte + 1) inside (by omega)
      refine ⟨bound, fun k hk hk' => ?_, stop⟩
      rcases Nat.eq_or_lt_of_le hk with rfl | hlt
      · exact full
      · exact below k hlt hk'
    · refine ⟨h, fun k hk hk' => by omega, fun hlt full => ?_⟩
      exact ‹¬ (_ ∧ _)› ⟨full, hlt⟩

theorem skipSet_spec (byte : UInt8) (rounds idxBit : Nat) :
    (∀ k, idxBit ≤ k → k < skipSet byte rounds idxBit → byte.toNat.testBit k = true) ∧
      (skipSet byte rounds idxBit < idxBit + rounds →
        byte.toNat.testBit (skipSet byte rounds idxBit) = false) ∧
      idxBit ≤ skipSet byte rounds idxBit ∧ skipSet byte rounds idxBit ≤ idxBit + rounds := by
  induction rounds generalizing idxBit with
  | zero =>
    simp only [skipSet]
    exact ⟨fun k hk hk' => by omega, fun hlt => by omega, Nat.le_refl _, Nat.le_refl _⟩
  | succ rounds ih =>
    simp only [skipSet]
    split
    · obtain ⟨below, stop, ge, le⟩ := ih (idxBit + 1)
      refine ⟨fun k hk hk' => ?_, fun hlt => stop (by omega), by omega, by omega⟩
      rcases Nat.eq_or_lt_of_le hk with rfl | hlt
      · assumption
      · exact below k hlt hk'
    · exact ⟨fun k hk hk' => by omega, fun _ => eq_false_of_ne_true ‹_›, Nat.le_refl _, by omega⟩

theorem full_testBit {i : Nat} (h : i < 8) : (0xff : UInt8).toNat.testBit i = true := by
  have ones : (0xff : UInt8).toNat = 2 ^ 8 - 1 := rfl
  rw [ones, Nat.testBit_two_pow_sub_one]
  exact decide_eq_true h

/-- A byte other than 0xff has a clear bit. -/
theorem skipSet_lt {byte : UInt8} (h : byte ≠ 0xff) : skipSet byte 8 0 < 8 := by
  obtain ⟨below, -, -, le⟩ := skipSet_spec byte 8 0
  apply Nat.lt_of_le_of_ne (by omega)
  intro all
  apply h
  apply UInt8.toNat_inj.1
  apply Nat.eq_of_testBit_eq
  intro i
  by_cases hi : i < 8
  · rw [below i (Nat.zero_le i) (by omega), full_testBit hi]
  · have wide : 2 ^ 8 ≤ 2 ^ i := Nat.pow_le_pow_right (by decide) (by omega)
    rw [Nat.testBit_lt_two_pow (byte.toNat_lt.trans_le wide),
      Nat.testBit_lt_two_pow ((0xff : UInt8).toNat_lt.trans_le wide)]

/-- The first loops end at the first clear bit, when there is one. -/
theorem firstClear_spec (h : ∃ i < 8 * btmp.btmpBytesLen, bitmapScanTest btmp i = false) :
    ∃ start < 8 * btmp.btmpBytesLen, bitmapScanTest btmp start = false ∧
      (∀ i < start, bitmapScanTest btmp i = true) ∧
      bitmapScan btmp cnt = .ok (if cnt = 1 then (start : Int) else
        scanRun btmp cnt (8 * btmp.btmpBytesLen - start) (start + 1) 1) := by
  obtain ⟨bound, full, stop⟩ := @skipFull_spec btmp btmp.btmpBytesLen 0 (Nat.zero_le _) (by omega)
  generalize hr : skipFull btmp btmp.btmpBytesLen 0 = idxByte at bound full stop
  have inside : idxByte < btmp.btmpBytesLen := by
    apply Nat.lt_of_le_of_ne bound
    rintro rfl
    obtain ⟨i, hi, clear⟩ := h
    have set : bitmapScanTest btmp i = true := by
      rw [bitmapScanTest, full (i / 8) (Nat.zero_le _) (by omega)]
      exact full_testBit (Nat.mod_lt i (by decide))
    rw [clear] at set
    cases set
  have lt := skipSet_lt (stop inside)
  obtain ⟨below, clear, -, -⟩ := skipSet_spec (btmp.bits idxByte) 8 0
  generalize hj : skipSet (btmp.bits idxByte) 8 0 = idxBit at lt below clear
  refine ⟨idxByte * 8 + idxBit, by omega, ?_, fun i hi => ?_, ?_⟩
  · have byte : (idxByte * 8 + idxBit) / 8 = idxByte := by omega
    have bit : (idxByte * 8 + idxBit) % 8 = idxBit := by omega
    rw [bitmapScanTest, byte, bit]
    exact clear (by omega)
  · by_cases same : i / 8 = idxByte
    · rw [bitmapScanTest, same]
      exact below _ (Nat.zero_le _) (by omega)
    · rw [bitmapScanTest, full (i / 8) (Nat.zero_le _) (by omega)]
      exact full_testBit (Nat.mod_lt i (by decide))
  · simp only [bitmapScan, hr, hj, if_pos inside, Nat.mul_comm btmp.btmpBytesLen 8]
    split <;> rfl

/-- The cnt bits from start are clear, in the bitmap or behind it. -/
def AllClear (btmp : Bitmap) (cnt start : Nat) : Prop :=
  ∀ k < cnt, bitmapScanTest btmp (start + k) = false

/-- Before the bit nextBit there is no run of cnt clear bits, and count is the number of clear
bits right before it. -/
structure Counted (btmp : Bitmap) (cnt nextBit count : Nat) : Prop where
  le : count ≤ nextBit
  few : count < cnt
  clear : AllClear btmp count (nextBit - count)
  all : count < nextBit → bitmapScanTest btmp (nextBit - count - 1) = true
  none_before : ∀ s, s + cnt ≤ nextBit → ¬ AllClear btmp cnt s

theorem Counted.set {nextBit count : Nat} (h : Counted btmp cnt nextBit count)
    (set : bitmapScanTest btmp nextBit = true) : Counted btmp cnt (nextBit + 1) 0 where
  le := Nat.zero_le _
  few := Nat.zero_lt_of_lt h.few
  clear k hk := by omega
  all _ := set
  none_before s hs run := by
    rcases Nat.eq_or_lt_of_le hs with heq | hlt
    · have last := run (cnt - 1) (by have := h.few; omega)
      have here : s + (cnt - 1) = nextBit := by
        have := h.few
        omega
      rw [here, set] at last
      cases last
    · exact h.none_before s (by omega) run

/-- A run that ends with the bit nextBit is one longer than what was counted. -/
theorem Counted.run {nextBit count s : Nat} (h : Counted btmp cnt nextBit count)
    (hs : s + cnt = nextBit + 1) (run : AllClear btmp cnt s) : count + 1 = cnt := by
  have few := h.few
  have le := h.le
  by_contra short
  have set := h.all (by omega)
  have clear := run (nextBit - count - 1 - s) (by omega)
  have here : s + (nextBit - count - 1 - s) = nextBit - count - 1 := by omega
  rw [here, set] at clear
  cases clear

theorem Counted.succ {nextBit count : Nat} (h : Counted btmp cnt nextBit count)
    (clear : bitmapScanTest btmp nextBit = false) :
    AllClear btmp (count + 1) (nextBit + 1 - (count + 1)) := by
  have le := h.le
  intro k hk
  by_cases last : k = count
  · subst last
    have here : nextBit + 1 - (k + 1) + k = nextBit := by omega
    rw [here]
    exact clear
  · have here : nextBit + 1 - (count + 1) + k = nextBit - count + k := by omega
    rw [here]
    exact h.clear k (by omega)

/-- The loop finds the first run of cnt clear bits before the bit nextBit + bitLeft. -/
theorem scanRun_spec (bitLeft nextBit count : Nat) (h : Counted btmp cnt nextBit count) :
    (∃ s : Nat, scanRun btmp cnt bitLeft nextBit count = s ∧ s + cnt ≤ nextBit + bitLeft ∧
        AllClear btmp cnt s ∧ ∀ r < s, ¬ AllClear btmp cnt r) ∨
      (scanRun btmp cnt bitLeft nextBit count = -1 ∧
        ∀ s, s + cnt ≤ nextBit + bitLeft → ¬ AllClear btmp cnt s) := by
  induction bitLeft generalizing nextBit count with
  | zero => exact Or.inr ⟨rfl, h.none_before⟩
  | succ bitLeft ih =>
    have few := h.few
    have le := h.le
    have rounds : nextBit + 1 + bitLeft = nextBit + (bitLeft + 1) := by omega
    simp only [scanRun]
    cases bit : bitmapScanTest btmp nextBit with
    | true =>
      rw [if_pos rfl, if_neg (by omega), ← rounds]
      exact ih (nextBit + 1) 0 (h.set bit)
    | false =>
      have longer := h.succ bit
      rw [if_neg Bool.false_ne_true]
      split
      · rename_i found
        refine Or.inl ⟨nextBit + 1 - cnt, by omega, by omega, ?_, fun r hr => ?_⟩
        · rw [← found]
          exact longer
        · exact h.none_before r (by omega)
      · rename_i short
        rw [← rounds]
        apply ih (nextBit + 1) (count + 1)
        refine ⟨by omega, by omega, longer, fun hlt => ?_, fun s hs run => ?_⟩
        · have here : nextBit + 1 - (count + 1) - 1 = nextBit - count - 1 := by omega
          rw [here]
          exact h.all (by omega)
        · rcases Nat.eq_or_lt_of_le hs with heq | hlt
          · exact short (h.run heq run)
          · exact h.none_before s (by omega) run

theorem FreeRun.allClear {s : Nat} (h : FreeRun btmp cnt s) : AllClear btmp cnt s :=
  fun k hk => (h k hk).2

theorem freeRun_iff {s : Nat} (pos : 0 < cnt) :
    FreeRun btmp cnt s ↔ s + cnt ≤ 8 * btmp.btmpBytesLen ∧ AllClear btmp cnt s := by
  constructor
  · intro h
    have last := (h (cnt - 1) (by omega)).1
    exact ⟨by omega, h.allClear⟩
  · rintro ⟨inside, clear⟩ k hk
    exact ⟨by omega, clear k hk⟩

/-- bitmap_scan takes the bit behind the bitmap into account. -/
theorem bitmapScan_spec (pos : 0 < cnt)
    (free : ∃ i < 8 * btmp.btmpBytesLen, bitmapScanTest btmp i = false) :
    (∃ s : Nat, bitmapScan btmp cnt = .ok s ∧ (cnt = 1 → s < 8 * btmp.btmpBytesLen) ∧
        s + cnt ≤ 8 * btmp.btmpBytesLen + 1 ∧ AllClear btmp cnt s ∧ ∀ r < s, ¬ AllClear btmp cnt r) ∨
      (bitmapScan btmp cnt = .ok (-1) ∧ cnt ≠ 1 ∧
        ∀ s, s + cnt ≤ 8 * btmp.btmpBytesLen + 1 → ¬ AllClear btmp cnt s) := by
  obtain ⟨start, inside, clear, first, scan⟩ := @firstClear_spec btmp cnt free
  rw [scan]
  by_cases one : cnt = 1
  · rw [if_pos one]
    subst one
    refine Or.inl ⟨start, rfl, fun _ => inside, by omega, fun k hk => ?_, fun r hr run => ?_⟩
    · obtain rfl : k = 0 := by omega
      exact clear
    · have bit := run 0 (by omega)
      rw [Nat.add_zero, first r hr] at bit
      cases bit
  · rw [if_neg one]
    have counted : Counted btmp cnt (start + 1) 1 := by
      refine ⟨by omega, by omega, fun k hk => ?_, fun _ => first _ (by omega), fun s hs run => ?_⟩
      · have here : start + 1 - 1 + k = start := by omega
        rw [here]
        exact clear
      · have bit := run 0 pos
        rw [Nat.add_zero, first s (by omega)] at bit
        cases bit
    have rounds : start + 1 + (8 * btmp.btmpBytesLen - start) = 8 * btmp.btmpBytesLen + 1 := by omega
    rcases scanRun_spec (8 * btmp.btmpBytesLen - start) (start + 1) 1 counted with
      ⟨s, hs, bound, run, least⟩ | ⟨hs, none⟩
    · exact Or.inl ⟨s, by rw [hs], fun h => (one h).elim, by omega, run, least⟩
    · exact Or.inr ⟨by rw [hs], one, by rwa [rounds] at none⟩

theorem bitmapScan_full (h : ¬ ∃ i < 8 * btmp.btmpBytesLen, bitmapScanTest btmp i = false) :
    bitmapScan btmp cnt = .error .assertion := by
  obtain ⟨bound, -, stop⟩ := @skipFull_spec btmp btmp.btmpBytesLen 0 (Nat.zero_le _) (by omega)
  apply if_neg
  intro inside
  apply h
  have lt := skipSet_lt (stop inside)
  have clear := (skipSet_spec (btmp.bits (skipFull btmp btmp.btmpBytesLen 0)) 8 0).2.1
  generalize skipSet (btmp.bits (skipFull btmp btmp.btmpBytesLen 0)) 8 0 = idxBit at lt clear
  generalize skipFull btmp btmp.btmpBytesLen 0 = idxByte at inside clear
  refine ⟨idxByte * 8 + idxBit, by omega, ?_⟩
  have byte : (idxByte * 8 + idxBit) / 8 = idxByte := by omega
  have bit : (idxByte * 8 + idxBit) % 8 = idxBit := by omega
  rw [bitmapScanTest, byte, bit]
  exact clear (by omega)

theorem Scannable.spec (pos : 0 < cnt) (h : Scannable btmp cnt) :
    (∃ s : Nat, bitmapScan btmp cnt = .ok s ∧ FreeRun btmp cnt s ∧ ∀ r < s, ¬ FreeRun btmp cnt r) ∨
      (bitmapScan btmp cnt = .ok (-1) ∧ ∀ s, ¬ FreeRun btmp cnt s) := by
  obtain ⟨free, room⟩ := h
  rcases bitmapScan_spec pos free with ⟨s, scan, single, bound, clear, least⟩ | ⟨scan, -, none⟩
  · refine Or.inl ⟨s, scan, (freeRun_iff pos).2 ⟨?_, clear⟩, fun r hr run => least r hr run.allClear⟩
    rcases room with ⟨r, run⟩ | long | busy
    · by_contra outside
      have inside := ((freeRun_iff pos).1 run).1
      exact least r (by omega) run.allClear
    · omega
    · by_contra outside
      apply busy
      intro i hi hs
      have bit := clear (i - s) (by omega)
      have here : s + (i - s) = i := by omega
      rwa [here] at bit
  · refine Or.inr ⟨scan, fun s run => ?_⟩
    obtain ⟨inside, clear⟩ := (freeRun_iff pos).1 run
    exact none s (by omega) clear

theorem SameBytes.test {i : Nat} (h : SameBytes btmp other) (hi : i < 8 * btmp.btmpBytesLen) :
    bitmapScanTest other i = bitmapScanTest btmp i := by
  rw [bitmapScanTest, bitmapScanTest, h.2 (i / 8) (by omega)]

theorem SameBytes.freeRun {s : Nat} (h : SameBytes btmp other) :
    FreeRun other cnt s ↔ FreeRun btmp cnt s := by
  have len := h.1
  constructor
  · intro run k hk
    obtain ⟨inside, clear⟩ := run k hk
    exact ⟨by omega, by rwa [← h.test (by omega)]⟩
  · intro run k hk
    obtain ⟨inside, clear⟩ := run k hk
    exact ⟨by omega, by rwa [h.test inside]⟩

theorem SameBytes.scannable (h : SameBytes btmp other) (hs : Scannable btmp cnt) :
    Scannable other cnt := by
  have len := h.1
  obtain ⟨⟨i, hi, clear⟩, room⟩ := hs
  refine ⟨⟨i, by omega, by rwa [h.test hi]⟩, ?_⟩
  rcases room with ⟨s, run⟩ | long | busy
  · exact Or.inl ⟨s, h.freeRun.2 run⟩
  · exact Or.inr (Or.inl (by omega))
  · refine Or.inr (Or.inr fun tail => busy fun i hi hs => ?_)
    rw [← h.test hi]
    exact tail i (by omega) (by omega)

/-- The same bitmap with nothing but clear bits behind it. -/
def clearBehind (btmp : Bitmap) : Bitmap :=
  { btmp with bits := fun k => if k < btmp.btmpBytesLen then btmp.bits k else 0 }

theorem clearBehind_same (btmp : Bitmap) : SameBytes btmp (clearBehind btmp) :=
  ⟨rfl, fun _ hk => (if_pos hk).symm⟩

theorem clearBehind_test {i : Nat} (hi : 8 * btmp.btmpBytesLen ≤ i) :
    bitmapScanTest (clearBehind btmp) i = false := by
  have outside : ¬ i / 8 < btmp.btmpBytesLen := by omega
  simp [bitmapScanTest, clearBehind, outside]

/-- bitmap_scan does what its callers expect exactly when some bit of the bitmap is clear and a
run of cnt clear bits is not looked for in vain up to the bit behind the last one. -/
theorem bitmap_scan_correct (btmp : Bitmap) (cnt : Nat) (pos : 0 < cnt) :
    ScanCorrect btmp cnt ↔ Scannable btmp cnt := by
  constructor
  · intro correct
    have free : ∃ i < 8 * btmp.btmpBytesLen, bitmapScanTest btmp i = false := by
      by_contra full
      obtain ⟨r, hr⟩ := correct.returns
      rw [bitmapScan_full full] at hr
      cases hr
    refine ⟨free, ?_⟩
    by_contra room
    simp only [not_or, not_exists, not_not, Nat.not_lt] at room
    obtain ⟨none, short, tail⟩ := room
    have same := clearBehind_same btmp
    have scan : bitmapScan (clearBehind btmp) cnt = .ok (-1) :=
      (correct.inside _ same).trans (correct.failure.2 none)
    -- the bit behind the bitmap completes the run at its end
    have run : AllClear (clearBehind btmp) cnt (8 * btmp.btmpBytesLen + 1 - cnt) := by
      intro k hk
      by_cases inside : 8 * btmp.btmpBytesLen + 1 - cnt + k < 8 * btmp.btmpBytesLen
      · rw [same.test inside]
        exact tail _ inside (Nat.le_add_right _ _)
      · exact clearBehind_test (Nat.le_of_not_lt inside)
    obtain ⟨i, hi, clear⟩ := free
    have free' : ∃ i < 8 * (clearBehind btmp).btmpBytesLen, bitmapScanTest (clearBehind btmp) i = false :=
      ⟨i, hi, by rwa [same.test hi]⟩
    rcases bitmapScan_spec pos free' with ⟨s, found, -⟩ | ⟨-, -, missing⟩
    · rw [scan] at found
      have := Except.ok.inj found
      omega
    · refine missing _ ?_ run
      have len : (clearBehind btmp).btmpBytesLen = btmp.btmpBytesLen := rfl
      omega
  · intro scannable
    have spec := scannable.spec pos
    refine ⟨?_, fun start => ?_, ?_, fun other same => ?_⟩
    · rcases spec with ⟨s, scan, -⟩ | ⟨scan, -⟩
      · exact ⟨s, scan⟩
      · exact ⟨-1, scan⟩
    · rcases spec with ⟨s, scan, run, least⟩ | ⟨scan, none⟩
      · rw [scan]
        constructor
        · intro heq
          obtain rfl : s = start := Int.ofNat.inj (Except.ok.inj heq)
          exact ⟨run, least⟩
        · rintro ⟨run', least'⟩
          have : s = start := Nat.le_antisymm
            (Nat.le_of_not_lt fun hlt => least start hlt run')
            (Nat.le_of_not_lt fun hlt => least' s hlt run)
          rw [this]
      · rw [scan]
        constructor
        · intro heq
          have := Except.ok.inj heq
          omega
        · rintro ⟨run, -⟩
          exact (none start run).elim
    · rcases spec with ⟨s, scan, run, -⟩ | ⟨scan, none⟩
      · rw [scan]
        constructor
        · intro heq
          have := Except.ok.inj heq
          omega
        · intro none
          exact (none s run).elim
      · exact ⟨fun _ => none, fun _ => scan⟩
    · rcases spec with ⟨s, scan, run, least⟩ | ⟨scan, none⟩
      · rcases (same.scannable scannable).spec pos with ⟨r, scan', run', least'⟩ | ⟨-, none'⟩
        · have : r = s := Nat.le_antisymm
            (Nat.le_of_not_lt fun hlt => least' s hlt (same.freeRun.2 run))
            (Nat.le_of_not_lt fun hlt => least r hlt (same.freeRun.1 run'))
          rw [scan, scan', this]
        · exact (none' s (same.freeRun.2 run)).elim
      · rcases (same.scannable scannable).spec pos with ⟨r, -, run', -⟩ | ⟨scan', -⟩
        · exact (none r (same.freeRun.1 run')).elim
        · rw [scan, scan']

/-- Eight bits, the last of them clear. -/
def lastBitFree : Bitmap := ⟨1, fun k => if k = 0 then 0x7f else 0, by decide⟩

theorem bitmap_scan_last_bit : ScanCorrect lastBitFree 1 := by
  apply (bitmap_scan_correct lastBitFree 1 Nat.one_pos).2
  refine ⟨⟨7, by decide, by decide⟩, Or.inl ⟨7, fun k hk => ?_⟩⟩
  obtain rfl : k = 0 := by omega
  exact ⟨by decide, by decide⟩

/-- Two bits are found at the last one, the second of them behind the bitmap; and a bitmap with
no clear bit stops the kernel. -/
theorem bitmap_scan_past_end : ¬ ScanCorrect lastBitFree 2 ∧
    bitmapScan lastBitFree 2 = .ok 7 ∧ ¬ FreeRun lastBitFree 2 7 ∧
    bitmapScan ⟨1, fun _ => 0xff, by decide⟩ 1 = .error .assertion := by
  have scan : bitmapScan lastBitFree 2 = .ok 7 := by decide
  have outside : ¬ FreeRun lastBitFree 2 7 := fun run => absurd (run 1 (by decide)).1 (by decide)
  refine ⟨fun correct => ?_, scan, outside, by decide⟩
  exact outside ((correct.least 7).1 scan).1

end Zhenxiang.Kernel
