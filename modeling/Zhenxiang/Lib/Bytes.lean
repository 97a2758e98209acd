import Mathlib

/-! Memory as a function from addresses to bytes, and little-endian 32-bit words in it. -/
namespace Zhenxiang.Lib

abbrev Buf := Nat → UInt8

/-- The byte k of the word v. -/
def byteAt (v k : Nat) : UInt8 := UInt8.ofNat (v / 256 ^ k)

def word (b : Buf) (o : Nat) : Nat :=
  (b o).toNat + 256 * (b (o + 1)).toNat + 65536 * (b (o + 2)).toNat +
    16777216 * (b (o + 3)).toNat

/-- An array of words. -/
def ofWords (f : Nat → Nat) : Buf := fun k => byteAt (f (k / 4)) (k % 4)

/-- memcpy of n bytes of src to the offset o of dst. -/
def blit (dst : Buf) (o n : Nat) (src : Buf) : Buf :=
  fun k => if o ≤ k ∧ k < o + n then src (k - o) else dst k

def slice (b : Buf) (o : Nat) : Buf := fun k => b (o + k)

variable {b c : Buf} {o n p : Nat}

theorem word_lt (b : Buf) (o : Nat) : word b o < 2 ^ 32 := by
  have h0 := (b o).toNat_lt
  have h1 := (b (o + 1)).toNat_lt
  have h2 := (b (o + 2)).toNat_lt
  have h3 := (b (o + 3)).toNat_lt
  unfold word
  omega

theorem word_congr (h : ∀ k < 4, b (o + k) = c (p + k)) : word b o = word c p := by
  have h0 := h 0 (by omega)
  have h1 := h 1 (by omega)
  have h2 := h 2 (by omega)
  have h3 := h 3 (by omega)
  simp only [Nat.add_zero] at h0
  simp only [word, h0, h1, h2, h3]

@[simp] theorem word_slice : word (slice b o) p = word b (o + p) :=
  word_congr fun k _ => by simp only [slice, Nat.add_assoc]

theorem byteAt_toNat (v k : Nat) : (byteAt v k).toNat = v / 256 ^ k % 256 := by
  simp [byteAt]

@[simp] theorem word_ofWords (f : Nat → Nat) (i : Nat) :
    word (ofWords f) (4 * i) = f i % 2 ^ 32 := by
  have digit : ∀ k < 4, ofWords f (4 * i + k) = byteAt (f i) k := by
    intro k hk
    simp only [ofWords]
    congr 2 <;> omega
  have d0 := digit 0 (by omega)
  simp only [Nat.add_zero] at d0
  simp only [word, d0, digit 1 (by omega), digit 2 (by omega), digit 3 (by omega), byteAt_toNat]
  omega

theorem blit_of_mem {dst src : Buf} {k : Nat} (h : o ≤ k) (hk : k < o + n) :
    blit dst o n src k = src (k - o) := if_pos ⟨h, hk⟩

theorem blit_of_not_mem {dst src : Buf} {k : Nat} (h : k < o ∨ o + n ≤ k) :
    blit dst o n src k = dst k := if_neg (by omega)

theorem word_blit_in {dst src : Buf} (h : o ≤ p) (hp : p + 4 ≤ o + n) :
    word (blit dst o n src) p = word src (p - o) :=
  word_congr fun k hk => by
    rw [blit_of_mem (by omega) (by omega), Nat.sub_add_comm h]

theorem word_blit_out {dst src : Buf} (h : p + 4 ≤ o ∨ o + n ≤ p) :
    word (blit dst o n src) p = word dst p :=
  word_congr fun k hk => blit_of_not_mem (by omega)

end Zhenxiang.Lib
