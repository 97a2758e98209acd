import Zhenxiang.Kernel.Print
import Zhenxiang.Kernel.Render

/-! put_int against itoa to the base 16. The buffer gets all eight digits; what is skipped are
the digits above the highest that is not 0. -/
namespace Zhenxiang.Kernel
open Lib

variable {s : IntPrinter}

theorem hexChar {edx : UInt32} (small : edx.toNat < 16) :
    (if (9 : UInt32).toBitVec.slt edx.toBitVec then edx - 10 + 0x41 else edx + 0x30).toUInt8 = digitChar edx.toNat := by
  obtain ⟨k, few, rfl⟩ : ∃ k < 16, edx = UInt32.ofNat k := ⟨edx.toNat, small, UInt32.ofNat_toNat.symm⟩
  clear small
  interval_cases k <;> rfl

theorem low_digit (eax : UInt32) : (eax &&& 0xf).toNat = eax.toNat % 16 := by
  rw [UInt32.toNat_and]
  exact Nat.and_two_pow_sub_one_eq_mod eax.toNat 4

theorem shr_four (eax : UInt32) : (eax >>> 4).toNat = eax.toNat / 16 := by
  rw [UInt32.toNat_shiftRight]
  exact Nat.shiftRight_eq_div_pow eax.toNat 4

theorem based4bits_spec {n : Nat} {eax : UInt32} (few : n ≤ 8) :
    Succeeds (based4bits n eax (UInt32.ofNat n - 1)) (fun edi t => edi + 1 = 0 ∧ t.sent = s.sent ∧
      ∀ j, t.buffer j = if j < n then digitChar (eax.toNat / 16 ^ (n - 1 - j) % 16) else s.buffer j) s := by
  induction n generalizing s eax with
  | zero => exact (wp_pure _).2 ⟨rfl, rfl, fun j => (if_neg (Nat.not_lt_zero j)).symm⟩
  | succ n ih =>
    have at_edi : UInt32.ofNat (n + 1) - 1 = UInt32.ofNat n := by
      rw [UInt32.ofNat_add]
      exact UInt32.add_sub_cancel ..
    have index : (UInt32.ofNat n).toNat = n := Nat.mod_eq_of_lt (by omega)
    have digit : (eax &&& 0xf).toNat < 16 := by
      rw [low_digit]
      exact Nat.mod_lt _ (by decide)
    rw [based4bits, Succeeds, wp_bind, wp_modify, at_edi, index]
    rw [hexChar digit, low_digit]
    refine wp_post (ih (by omega)) ?_
    rintro edi t ⟨last, sent, buffer⟩
    refine ⟨last, sent, fun j => ?_⟩
    rw [buffer, shr_four]
    by_cases below : j < n
    · rw [if_pos below, if_pos (by omega), Nat.div_div_eq_div_mul, ← Nat.pow_succ', show (n - 1 - j).succ = n + 1 - 1 - j by omega]
    · rw [if_neg below]
      dsimp only
      rw [Function.update_apply]
      by_cases here : j = n
      · rw [if_pos here, if_pos (by omega), here, Nat.add_sub_cancel, Nat.sub_self, Nat.pow_zero, Nat.div_one]
      · rw [if_neg here, if_neg (by omega)]

/-- Comparing an index of the buffer with 8. -/
theorem index_less {j : Nat} (small : j ≤ 8) : (UInt32.ofNat j).toBitVec.slt 8 = decide (j < 8) := by
  interval_cases j <;> rfl

theorem putEachNum_spec {fuel j : Nat} (inside : j < 8) (enough : 8 - j ≤ fuel) :
    Succeeds (putEachNum fuel (s.buffer j) (UInt32.ofNat j))
      (fun _ t => t.sent = s.sent ++ (List.range' j (8 - j)).map s.buffer) s := by
  induction fuel generalizing s j with
  | zero => omega
  | succ fuel ih =>
    have next : UInt32.ofNat j + 1 = UInt32.ofNat (j + 1) := (UInt32.ofNat_add j 1).symm
    have index : (UInt32.ofNat (j + 1)).toNat = j + 1 := Nat.mod_eq_of_lt (by omega)
    rw [putEachNum, send, Succeeds, wp_bind, wp_modify, wp_bind, wp_get, next, index, index_less inside]
    have first : List.range' j (8 - j) = j :: List.range' (j + 1) (8 - (j + 1)) := by
      rw [show 8 - j = 8 - (j + 1) + 1 by omega, List.range'_succ]
    by_cases more : j + 1 < 8
    · rw [if_pos (decide_eq_true more)]
      refine wp_post (ih (s := { s with sent := s.sent ++ [s.buffer j] }) more (by omega)) ?_
      rintro _ t sent
      rw [sent, first, List.map_cons, List.append_assoc]
      rfl
    · rw [if_neg (by simpa using more)]
      refine (wp_pure _).2 ?_
      rw [first, show 8 - (j + 1) = 0 by omega]
      rfl

theorem putEachNum_full {cl : UInt8} : Succeeds (putEachNum 8 cl 8) (fun _ t => t.sent = s.sent ++ [cl]) s := by
  rw [putEachNum, send, Succeeds, wp_bind, wp_modify, wp_bind, wp_get]
  rw [if_neg (by decide)]
  exact (wp_pure _).2 rfl

/-- The zeros from j up to e are skipped. -/
theorem skipPrefix0_spec {fuel j e : Nat} {Q : Unit → IntPrinter → Prop} (upto : j ≤ e) (inside : e ≤ 8)
    (enough : e - j < fuel) (zeros : ∀ k, j ≤ k → k < e → s.buffer k = 0x30)
    (rest : if e = 8 then Succeeds (putEachNum 8 0x30 8) Q s
      else s.buffer e ≠ 0x30 ∧ Succeeds (putEachNum 8 (s.buffer e) (UInt32.ofNat e)) Q s) :
    Succeeds (skipPrefix0 fuel (UInt32.ofNat j)) Q s := by
  induction fuel generalizing j with
  | zero => exact (Nat.not_lt_zero _ enough).elim
  | succ fuel ih =>
    have index : (UInt32.ofNat j).toNat = j := Nat.mod_eq_of_lt (by omega)
    have next : UInt32.ofNat j + 1 = UInt32.ofNat (j + 1) := (UInt32.ofNat_add j 1).symm
    have ends : UInt32.ofNat j = 8 ↔ j = 8 := by
      rw [← UInt32.toNat_inj, index]
      rfl
    rw [skipPrefix0]
    by_cases last : j = 8
    · obtain rfl : e = 8 := by omega
      rw [if_pos (ends.2 last), last]
      rwa [if_pos rfl] at rest
    · rw [if_neg fun h => last (ends.1 h), Succeeds, wp_bind, wp_get, index]
      dsimp only
      by_cases zero : j < e
      · rw [if_pos (zeros j (Nat.le_refl j) zero), next]
        exact ih (by omega) (by omega) fun k low high => zeros k (by omega) high
      · obtain rfl : j = e := by omega
        rw [if_neg last] at rest
        rw [if_neg rest.1, UInt32.add_sub_cancel]
        exact rest.2

theorem digitChar_zero_iff {d : Nat} (small : d < 16) : digitChar d = 0x30 ↔ d = 0 := by
  decide +revert

theorem putInt_spec (value : UInt32) :
    Succeeds (putInt value) (fun _ t => t.sent = s.sent ++ numeral 16 value.toNat) s := by
  rw [putInt, Succeeds, wp_bind]
  refine wp_mono (based4bits_spec (Nat.le_refl 8)) ?_ fun _ no => no.elim
  rintro edi t ⟨start, sent, buffer⟩
  rw [start, ← sent]
  have chars (j : Nat) (hj : j < 8) : t.buffer j = digitChar ((Nat.digits 16 value.toNat).getD (7 - j) 0) := by
    rw [buffer, if_pos hj, Nat.getD_digits _ _ (by decide)]
  have few : (Nat.digits 16 value.toNat).length ≤ 8 := (Nat.digits_length_le_iff (by decide) _).2 value.toNat_lt
  generalize count : (Nat.digits 16 value.toNat).length = n at few
  refine skipPrefix0_spec (j := 0) (e := 8 - n) (Nat.zero_le _) (Nat.sub_le ..) (by omega) (fun k _ high => ?_) ?_
  · rw [chars k (by omega), List.getD_eq_default _ _ (by omega)]
    rfl
  by_cases zero : n = 0
  · have none : value.toNat = 0 := Nat.digits_eq_nil_iff_eq_zero.1 (List.eq_nil_of_length_eq_zero (count.trans zero))
    rw [if_pos (by omega), none]
    exact putEachNum_full
  · have some_value : value.toNat ≠ 0 := by
      intro none
      rw [none, Nat.digits_zero] at count
      exact zero count.symm
    have highest : (Nat.digits 16 value.toNat).getD (n - 1) 0 ≠ 0 := by
      have last := Nat.getLast_digit_ne_zero 16 some_value
      rw [List.getLast_eq_getElem] at last
      rw [List.getD_eq_getElem _ _ (by omega)]
      simpa only [count] using last
    have small (i : Nat) : (Nat.digits 16 value.toNat).getD i 0 < 16 := by
      rw [Nat.getD_digits _ _ (by decide)]
      exact Nat.mod_lt _ (by decide)
    rw [if_neg (by omega)]
    refine ⟨?_, wp_post (putEachNum_spec (by omega) (by omega)) ?_⟩
    · rw [chars _ (by omega), show 7 - (8 - n) = n - 1 by omega]
      exact fun is => highest ((digitChar_zero_iff (small _)).1 is)
    · rintro _ u sent'
      rw [sent']
      congr 1
      rw [numeral, if_neg some_value]
      apply List.ext_getElem
      · rw [List.length_map, List.length_range', List.length_map, List.length_reverse, count]
        omega
      · intro i hi hj
        rw [List.length_map, List.length_range'] at hi
        rw [List.getElem_map, List.getElem_map, List.getElem_range', List.getElem_reverse, chars _ (by omega),
          List.getD_eq_getElem _ _ (by omega)]
        congr 2
        omega

/-- put_int sends to put_char what itoa to the base 16 puts into the buffer at p. -/
theorem hex_printers_agree (value : UInt32) (s : IntPrinter) (m : Buf) (p : Nat) :
    Succeeds (putInt value) (fun _ t => t.sent = s.sent ++ numeral 16 value.toNat) s ∧
    Succeeds (itoa 32 value p 16) (fun r t => r = p + (numeral 16 value.toNat).length ∧
      t = overlay m p (numeral 16 value.toNat)) m :=
  ⟨putInt_spec value, itoa_spec (by decide) (by decide) (by decide) (Nat.lt_trans value.toNat_lt (by decide))⟩

example : numeral 16 0x12ab = [0x31, 0x32, 0x41, 0x42] := by decide +kernel

end Zhenxiang.Kernel
