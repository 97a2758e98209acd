import Zhenxiang.Boot.Loader

/-! What the detection of memory leaves behind. The buffer has room for 12 descriptors, and the ends are
compared as signed numbers. -/
namespace Zhenxiang.Boot
open Lib Kernel

variable {s : Loader} {d : Ards} {l rest : List Ards} {m : Buf}

theorem ardsBuf_eq : ardsBuf = 0xb0a := rfl

/-! The descriptors in memory. -/

/-- The words of the descriptors that are read later. -/
def Laid (m : Buf) (l : List Ards) : Prop :=
  ∀ i (h : i < l.length), word m (ardsBuf + 20 * i) = (l.get ⟨i, h⟩).baseAddLow.toNat ∧
    word m (ardsBuf + 20 * i + 8) = (l.get ⟨i, h⟩).lengthLow.toNat

theorem Laid.snoc (h : Laid m l) (d : Ards) : Laid (blit m (ardsBuf + 20 * l.length) 20 d.bytes) (l ++ [d]) := by
  intro i hi
  rw [List.length_append, List.length_singleton] at hi
  rcases Nat.lt_succ_iff_lt_or_eq.1 hi with old | rfl
  · rw [word_blit_out (by omega), word_blit_out (by omega)]
    have before := h i old
    simp only [List.get_eq_getElem, List.getElem_append_left old] at before ⊢
    exact before
  · have base := word_ofWords (fun k => ([d.baseAddLow, d.baseAddHigh, d.lengthLow, d.lengthHigh, d.type].getD k 0).toNat) 0
    have length := word_ofWords (fun k => ([d.baseAddLow, d.baseAddHigh, d.lengthLow, d.lengthHigh, d.type].getD k 0).toNat) 2
    rw [word_blit_in (by omega) (by omega), word_blit_in (by omega) (by omega), Nat.sub_self,
      show ardsBuf + 20 * l.length + 8 - (ardsBuf + 20 * l.length) = 8 from by omega]
    simp only [List.get_eq_getElem, List.getElem_concat_length]
    exact ⟨base.trans (Nat.mod_eq_of_lt d.baseAddLow.toNat_lt), length.trans (Nat.mod_eq_of_lt d.lengthLow.toNat_lt)⟩

theorem e820MemGetLoop_spec {done : List Ards} (some_left : rest ≠ []) (laid : Laid s.mem done)
    (room : done.length ≤ 12) (count : s.ardsNr = UInt16.ofNat done.length) :
    wp (e820MemGetLoop rest (UInt16.ofNat (ardsBuf + 20 * done.length)))
      (fun _ t => (done ++ rest).length ≤ 12 ∧ Laid t.mem (done ++ rest) ∧ t.ardsNr = UInt16.ofNat (done ++ rest).length)
      (fun _ => ¬(done ++ rest).length ≤ 12) s := by
  induction rest generalizing done s with
  | nil => exact (some_left rfl).elim
  | cons d rest ih =>
    have di : (UInt16.ofNat (ardsBuf + 20 * done.length)).toNat = ardsBuf + 20 * done.length :=
      UInt16.toNat_ofNat_of_lt' (show _ < 65536 by have := ardsBuf_eq; omega)
    have whole : (done ++ d :: rest).length = done.length + rest.length + 1 := by
      rw [List.length_append, List.length_cons, Nat.add_assoc]
    rw [e820MemGetLoop, wp_bind, int15, wp_bind, wp_check, di, ardsBufSize]
    refine ⟨fun fits => ?_, fun outside => ?_⟩
    · have more : (done ++ [d]).length = done.length + 1 := List.length_append
      have next : UInt16.ofNat (ardsBuf + 20 * done.length) + 20 = UInt16.ofNat (ardsBuf + 20 * (done ++ [d]).length) := by
        rw [more, Nat.mul_succ, ← Nat.add_assoc]
        exact (UInt16.ofNat_add _ 20).symm
      have counted : s.ardsNr + 1 = UInt16.ofNat (done ++ [d]).length := by
        rw [more, count, UInt16.ofNat_add]
        rfl
      have stored := laid.snoc d
      rw [wp_modify, wp_bind, wp_modify]
      dsimp only
      by_cases last : rest = []
      · rw [if_neg (not_not.2 last), wp_pure, last]
        exact ⟨by omega, stored, counted⟩
      · have behind : done ++ d :: rest = done ++ [d] ++ rest := List.append_cons ..
        rw [if_pos last, next, behind]
        refine @ih _ (done ++ [d]) last ?_ (by omega) ?_
        · exact stored
        · exact counted
    · omega

/-! The greatest end. -/

theorem signed_value (x : UInt32) :
    x.toInt32.toInt = if 2 * x.toNat < 2 ^ 32 then (x.toNat : Int) else (x.toNat : Int) - (2 ^ 32 : Nat) :=
  BitVec.toInt_eq_toNat_cond x.toBitVec

/-- An end from 2^31 on is negative as a signed number, and is passed long. -/
theorem maxEdx_toNat {edx : UInt32} (small : edx.toNat < 2 ^ 31) (eax : UInt32) :
    (maxEdx edx eax).toNat = if eax.toNat < 2 ^ 31 then max edx.toNat eax.toNat else edx.toNat := by
  have bound := eax.toNat_lt
  rw [maxEdx, apply_ite UInt32.toNat]
  simp only [Int32.le_iff_toInt_le, signed_value]
  rw [if_pos (show 2 * edx.toNat < 2 ^ 32 by omega)]
  by_cases low : eax.toNat < 2 ^ 31
  · rw [if_pos low, if_pos (show 2 * eax.toNat < 2 ^ 32 by omega)]
    split <;> omega
  · rw [if_neg low, if_neg (show ¬2 * eax.toNat < 2 ^ 32 by omega), if_pos (by omega)]

/-- base_add_low + length_low. -/
def Ards.endLow (d : Ards) : UInt32 := d.baseAddLow + d.lengthLow

/-- The greatest end as an unsigned number. -/
def greatest (l : List Ards) : Nat := (l.map fun d => d.endLow.toNat).foldr max 0

theorem dword_laid {done : List Ards} (laid : Laid s.mem (done ++ d :: rest)) (short : done.length < 12) :
    dword s (UInt32.ofNat (ardsBuf + 20 * done.length)) + dword s (UInt32.ofNat (ardsBuf + 20 * done.length) + 8) =
      d.endLow := by
  have at_done := laid done.length (by rw [List.length_append, List.length_cons]; omega)
  have here : (done ++ d :: rest).get ⟨done.length, by rw [List.length_append, List.length_cons]; omega⟩ = d := by
    rw [List.get_eq_getElem, List.getElem_append_right (Nat.le_refl _)]
    simp
  rw [here] at at_done
  have ebx : (UInt32.ofNat (ardsBuf + 20 * done.length)).toNat = ardsBuf + 20 * done.length :=
    UInt32.toNat_ofNat_of_lt' (show _ < 4294967296 by have := ardsBuf_eq; omega)
  have second : (UInt32.ofNat (ardsBuf + 20 * done.length) + 8).toNat = ardsBuf + 20 * done.length + 8 := by
    rw [UInt32.toNat_add, ebx, show (8 : UInt32).toNat = 8 from rfl]
    exact Nat.mod_eq_of_lt (show _ < 4294967296 by have := ardsBuf_eq; omega)
  rw [dword, dword, ebx, second, at_done.1, at_done.2, UInt32.ofNat_toNat, UInt32.ofNat_toNat]
  rfl

theorem findMaxMemArea_spec {done : List Ards} {edx : UInt32} {rounds : Nat} (laid : Laid s.mem (done ++ rest))
    (short : (done ++ rest).length ≤ 12) (some_left : rest ≠ []) (enough : rest.length ≤ rounds) :
    Succeeds (findMaxMemArea rounds (UInt16.ofNat rest.length) (UInt32.ofNat (ardsBuf + 20 * done.length)) edx)
      (fun r t => t = s ∧ r = rest.foldl (fun e d => maxEdx e d.endLow) edx) s := by
  induction rest generalizing done edx rounds with
  | nil => exact (some_left rfl).elim
  | cons d rest ih =>
    obtain ⟨rounds, rfl⟩ := Nat.exists_eq_succ_of_ne_zero (Nat.ne_of_gt (Nat.lt_of_lt_of_le (Nat.succ_pos _) enough))
    have whole : (done ++ d :: rest).length = done.length + rest.length + 1 := by
      rw [List.length_append, List.length_cons, Nat.add_assoc]
    have fewer : UInt16.ofNat (d :: rest).length - 1 = UInt16.ofNat rest.length := by
      rw [List.length_cons, UInt16.ofNat_add]
      exact UInt16.add_sub_cancel _ _
    have count : (UInt16.ofNat rest.length).toNat = rest.length := UInt16.toNat_ofNat_of_lt' (show _ < 65536 by omega)
    have more : (done ++ [d]).length = done.length + 1 := List.length_append
    have next : UInt32.ofNat (ardsBuf + 20 * done.length) + 20 = UInt32.ofNat (ardsBuf + 20 * (done ++ [d]).length) := by
      rw [more, Nat.mul_succ, ← Nat.add_assoc]
      exact (UInt32.ofNat_add _ 20).symm
    rw [findMaxMemArea, Succeeds, wp_bind, wp_get]
    simp only [dword_laid laid (show done.length < 12 by omega), fewer, List.foldl_cons]
    by_cases last : rest = []
    · rw [last, if_pos (show UInt16.ofNat ([] : List Ards).length = 0 from rfl)]
      exact (wp_pure _).2 ⟨rfl, rfl⟩
    · have turns : UInt16.ofNat rest.length ≠ 0 := by
        intro zero
        rw [zero] at count
        exact last (List.length_eq_zero_iff.1 count.symm)
      rw [if_neg turns, next]
      refine @ih (done ++ [d]) _ rounds ?_ ?_ last (Nat.le_of_succ_le_succ enough)
      · rw [← List.append_cons]
        exact laid
      · rw [← List.append_cons]
        exact short

theorem le_greatest (mem : d ∈ l) : d.endLow.toNat ≤ greatest l := by
  induction l with
  | nil => exact (List.not_mem_nil mem).elim
  | cons c l ih =>
    rcases List.mem_cons.1 mem with rfl | mem
    · exact Nat.le_max_left _ _
    · exact (ih mem).trans (Nat.le_max_right _ _)

theorem fold_small {edx : UInt32} (small : edx.toNat < 2 ^ 31) (l : List Ards) :
    (l.foldl (fun e d => maxEdx e d.endLow) edx).toNat < 2 ^ 31 := by
  induction l generalizing edx with
  | nil => exact small
  | cons d l ih =>
    rw [List.foldl_cons]
    apply ih
    rw [maxEdx_toNat small]
    split <;> omega

theorem fold_greatest {edx : UInt32} (small : edx.toNat < 2 ^ 31) (all : ∀ d ∈ l, d.endLow.toNat < 2 ^ 31) :
    (l.foldl (fun e d => maxEdx e d.endLow) edx).toNat = max edx.toNat (greatest l) := by
  induction l generalizing edx with
  | nil => exact (Nat.max_zero _).symm
  | cons d l ih =>
    have first := all d List.mem_cons_self
    have step : (maxEdx edx d.endLow).toNat = max edx.toNat d.endLow.toNat := by
      rw [maxEdx_toNat small, if_pos first]
    rw [List.foldl_cons, ih (by rw [step]; omega) fun c mem => all c (List.mem_cons_of_mem d mem), step, Nat.max_assoc]
    rfl

/-- The fold gives the greatest end exactly if no end is too great. -/
theorem fold_eq_iff (l : List Ards) :
    (l.foldl (fun e d => maxEdx e d.endLow) 0).toNat = greatest l ↔ ∀ d ∈ l, d.endLow.toNat < 2 ^ 31 := by
  constructor
  · intro eq d mem
    have below := @fold_small 0 (by decide) l
    have upper := le_greatest mem
    omega
  · intro all
    rw [fold_greatest (by decide) all]
    exact Nat.zero_max _

/-! The whole detection. -/

theorem memDetect_spec {ards : List Ards} (some_one : ards ≠ []) (fresh : s.ardsNr = 0) :
    wp (memDetect ards)
      (fun _ t => ards.length ≤ 12 ∧ t.totalMemBytes = ards.foldl (fun e d => maxEdx e d.endLow) 0)
      (fun _ => ¬ards.length ≤ 12) s := by
  have collected := @e820MemGetLoop_spec s ards [] some_one (fun i h => (Nat.not_lt_zero i h).elim)
    (Nat.zero_le _) fresh
  rw [memDetect, wp_bind]
  refine wp_mono collected ?_ fun _ long => long
  rintro - t ⟨short, laid, count⟩
  rw [List.nil_append] at short laid count
  rw [wp_bind, wp_get, wp_bind, count]
  refine wp_mono (@findMaxMemArea_spec _ ards [] 0 (2 ^ 16) laid short some_one (short.trans (by decide))) ?_ fun _ never => never.elim
  rintro edx u ⟨-, rfl⟩
  exact (wp_modify _).2 ⟨short, rfl⟩

/-- Every descriptor is stored inside ards_buf, and total_mem_bytes is the greatest end of all. -/
def DetectsMemory (ards : List Ards) (s : Loader) : Prop :=
  Succeeds (memDetect ards) (fun _ t => t.totalMemBytes.toNat = greatest ards) s

theorem mem_detected {ards : List Ards} (some_one : ards ≠ []) (below_4G : ∀ d ∈ ards, d.base + d.length < 2 ^ 32)
    (fresh : s.ardsNr = 0) : DetectsMemory ards s ↔
      ards.length ≤ 12 ∧ ∀ d ∈ ards, d.baseAddLow.toNat + d.lengthLow.toNat < 2 ^ 31 := by
  have ends : ∀ d ∈ ards, d.endLow.toNat = d.baseAddLow.toNat + d.lengthLow.toNat := by
    intro d mem
    have low := below_4G d mem
    rw [Ards.base, Ards.length] at low
    rw [Ards.endLow, UInt32.toNat_add]
    exact Nat.mod_eq_of_lt (by omega)
  have bounds : (∀ d ∈ ards, d.endLow.toNat < 2 ^ 31) ↔ ∀ d ∈ ards, d.baseAddLow.toNat + d.lengthLow.toNat < 2 ^ 31 :=
    forall₂_congr fun d mem => by rw [ends d mem]
  refine succeeds_exact (wp_mono (memDetect_spec some_one fresh) ?_ ?_)
  · rintro - t ⟨short, total⟩
    rw [total, fold_eq_iff, bounds]
    exact (and_iff_right short).symm
  · intro _ long both
    exact long both.1

/-- The memory below 640 KB, and that from 1 MB up to the end given. -/
def twoAreas (endOfMemory : UInt32) : List Ards :=
  [⟨0, 0, 0x9fc00, 0, 1⟩, ⟨0x100000, 0, endOfMemory - 0x100000, 0, 1⟩]

def atStart : Loader := ⟨fun _ => 0, 0, 0⟩

theorem mem_detected_1G : (∀ d ∈ twoAreas 0x40000000, d.base + d.length < 2 ^ 32) ∧
    (DetectsMemory (twoAreas 0x40000000) atStart ↔ (twoAreas 0x40000000).length ≤ 12 ∧
      ∀ d ∈ twoAreas 0x40000000, d.baseAddLow.toNat + d.lengthLow.toNat < 2 ^ 31) :=
  ⟨by decide, mem_detected (by decide) (by decide) rfl⟩

/-- With 2 GB of memory the second area is passed long. -/
theorem mem_undetected_2G : ¬∀ (ards : List Ards) (s : Loader), ards ≠ [] → (∀ d ∈ ards, d.base + d.length < 2 ^ 32) →
    s.ardsNr = 0 → DetectsMemory ards s := by
  intro claim
  obtain ⟨_, t, run, total⟩ := succeeds_iff.1 (claim (twoAreas 0x80000000) atStart (by decide) (by decide) rfl)
  have spec := (wp_of_ok run).1 (memDetect_spec (by decide) rfl)
  rw [spec.2] at total
  exact absurd total (by decide +kernel)

end Zhenxiang.Boot
