import Zhenxiang.Kernel.Stdio
import Zhenxiang.Lib.Text

/-! vsprintf against the text it should give. It stores no NUL of its own: the one behind the
text is there when strcpy left it, or when the buffer held it before. -/
namespace Zhenxiang.Kernel
open Lib

variable {m : Buf}

/-! string.c -/

theorem wp_loadChar {p : Nat} {Q : UInt8 → Buf → Prop} {E : Fault → Prop} : wp (loadChar p) Q E m ↔ Q (m p) m := by
  rw [loadChar, wp_bind, wp_get, wp_pure]

theorem wp_storeChar {p : Nat} {c : UInt8} {Q : Unit → Buf → Prop} {E : Fault → Prop} :
    wp (storeChar p c) Q E m ↔ Q () (overlay m p [c]) := by
  rw [overlay_singleton]
  exact wp_modify _

theorem strcpyFrom_spec {l : List UInt8} {fuel dst src : Nat} (text : CString m src l) (enough : l.length < fuel)
    (away : src + l.length < dst ∨ dst + l.length < src) :
    Succeeds (strcpyFrom fuel dst src) (fun _ t => t = overlay m dst (l ++ [0])) m := by
  induction l generalizing m fuel dst src with
  | nil =>
    obtain ⟨fuel, rfl⟩ := Nat.exists_eq_add_one_of_ne_zero (Nat.ne_of_gt enough)
    rw [strcpyFrom, Succeeds, wp_bind, wp_loadChar, wp_bind, wp_storeChar, text.first_nil, if_neg (not_not.2 rfl)]
    exact (wp_pure _).2 rfl
  | cons v l ih =>
    obtain ⟨fuel, rfl⟩ := Nat.exists_eq_add_one_of_ne_zero (Nat.ne_of_gt (Nat.zero_lt_of_lt enough))
    have len : (v :: l).length = l.length + 1 := List.length_cons
    obtain ⟨first, solid⟩ := text.head
    rw [strcpyFrom, Succeeds, wp_bind, wp_loadChar, wp_bind, wp_storeChar, first, if_pos solid]
    have rest : CString (overlay m dst [v]) (src + 1) l := text.tail.overlay (by
      rw [List.length_singleton]
      omega)
    refine wp_post (ih rest (by omega) (by omega)) ?_
    rintro _ t rfl
    exact overlay_append

theorem strcpy_spec {l : List UInt8} {dst src : Nat} (text : CString m src l) (small : l.length < 2 ^ 32) (hd : dst ≠ 0)
    (hs : src ≠ 0) (away : src + l.length < dst ∨ dst + l.length < src) :
    Succeeds (strcpy dst src) (fun _ t => t = overlay m dst (l ++ [0])) m := by
  rw [strcpy, Succeeds, wp_bind, wp_assert]
  exact ⟨fun _ => strcpyFrom_spec text small away, fun no => no ⟨hd, hs⟩⟩

theorem strlenFrom_spec {l : List UInt8} {fuel p : Nat} (text : CString m p l) (enough : l.length < fuel) :
    Succeeds (strlenFrom fuel p) (fun r t => r = p + l.length + 1 ∧ t = m) m := by
  induction l generalizing fuel p with
  | nil =>
    obtain ⟨fuel, rfl⟩ := Nat.exists_eq_add_one_of_ne_zero (Nat.ne_of_gt enough)
    rw [strlenFrom, Succeeds, wp_bind, wp_loadChar, text.first_nil, if_neg (not_not.2 rfl)]
    exact (wp_pure _).2 ⟨rfl, rfl⟩
  | cons v l ih =>
    obtain ⟨fuel, rfl⟩ := Nat.exists_eq_add_one_of_ne_zero (Nat.ne_of_gt (Nat.zero_lt_of_lt enough))
    have len : (v :: l).length = l.length + 1 := List.length_cons
    obtain ⟨first, solid⟩ := text.head
    rw [strlenFrom, Succeeds, wp_bind, wp_loadChar, first, if_pos solid]
    refine wp_post (ih text.tail (by omega)) ?_
    rintro _ t ⟨rfl, rfl⟩
    exact ⟨by omega, rfl⟩

theorem strlen_spec {l : List UInt8} {str : Nat} (text : CString m str l) (small : l.length < 2 ^ 32) (hs : str ≠ 0) :
    Succeeds (strlen str) (fun r t => r.toNat = l.length ∧ t = m) m := by
  rw [strlen, Succeeds, wp_bind, wp_assert]
  refine ⟨fun _ => ?_, fun no => no hs⟩
  rw [wp_bind]
  refine wp_post (strlenFrom_spec text small) ?_
  rintro _ t ⟨rfl, rfl⟩
  refine (wp_pure _).2 ⟨?_, rfl⟩
  rw [show str + l.length + 1 - str - 1 = l.length by omega]
  exact Nat.mod_eq_of_lt small

theorem strlenFrom_keeps {fuel p : Nat} : Returns (strlenFrom fuel p) (fun _ t => t = m) m := by
  induction fuel generalizing p with
  | zero => exact (wp_throw _).2 trivial
  | succ fuel ih =>
    rw [strlenFrom, Returns, wp_bind, wp_loadChar, wp_ite]
    exact ⟨fun _ => ih, fun _ => (wp_pure _).2 rfl⟩

theorem strlen_keeps {str : Nat} : Returns (strlen str) (fun _ t => t = m) m := by
  rw [strlen, Returns, wp_bind, wp_assert]
  refine ⟨fun _ => ?_, fun _ => trivial⟩
  rw [wp_bind]
  exact wp_post strlenFrom_keeps fun _ _ same => (wp_pure _).2 same

/-! itoa -/

theorem digit_char (d : UInt32) :
    (if d < 10 then (d + 0x30).toUInt8 else (d - 10 + 0x41).toUInt8) = digitChar d.toNat := by
  apply UInt8.toNat_inj.1
  have limit : (d < 10) ↔ d.toNat < 10 := UInt32.lt_iff_toNat_lt
  by_cases low : d.toNat < 10
  · rw [if_pos (limit.2 low), digitChar, if_pos low]
    simp
    omega
  · have ten : (d - 10).toNat = d.toNat - 10 := UInt32.toNat_sub_of_le _ _ (UInt32.le_iff_toNat_le.2 (Nat.not_lt.1 low))
    rw [if_neg fun less => low (limit.1 less), digitChar, if_neg low]
    rw [UInt32.toNat_toUInt8, UInt32.toNat_add, ten, Nat.add_comm]
    simp

theorem itoa_spec {depth p : Nat} {value : UInt32} {base : UInt8} (hb : 1 < base.toNat) (small : base.toNat ≤ 36)
    (pos : 0 < depth) (enough : value.toNat < base.toNat ^ depth) :
    Succeeds (itoa depth value p base) (fun r t => r = p + (numeral base.toNat value.toNat).length ∧
      t = overlay m p (numeral base.toNat value.toNat)) m := by
  induction depth generalizing m value p with
  | zero => cases pos
  | succ depth ih =>
    have known : base ≠ 0 := by
      rintro rfl
      exact absurd hb (by decide)
    have quotient : (value / base.toUInt32).toNat = value.toNat / base.toNat := by
      rw [UInt32.toNat_div, UInt8.toNat_toUInt32]
    have remainder : (value % base.toUInt32).toNat = value.toNat % base.toNat := by
      rw [UInt32.toNat_mod, UInt8.toNat_toUInt32]
    have digit := digit_char (value % base.toUInt32)
    rw [remainder] at digit
    -- the character of the lowest digit, behind those of the others
    have last {u : Buf} {q : Nat} : Succeeds (do
        storeChar q (if value % base.toUInt32 < 10 then (value % base.toUInt32 + 0x30).toUInt8
          else (value % base.toUInt32 - 10 + 0x41).toUInt8)
        pure (q + 1)) (fun r t => r = q + 1 ∧ t = overlay u q [digitChar (value.toNat % base.toNat)]) u := by
      rw [Succeeds, wp_bind, digit, wp_storeChar]
      exact (wp_pure _).2 ⟨rfl, rfl⟩
    rw [itoa, Succeeds, wp_bind, wp_check]
    refine ⟨fun _ => ?_, fun no => (no known).elim⟩
    dsimp only
    by_cases more : value / base.toUInt32 ≠ 0
    · have more' : value.toNat / base.toNat ≠ 0 := by
        rw [← quotient]
        exact fun zero => more (UInt32.toNat_inj.1 zero)
      have deeper : 0 < depth := by
        rcases Nat.eq_zero_or_pos depth with rfl | deeper
        · rw [Nat.zero_add, Nat.pow_one] at enough
          exact (more' (Nat.div_eq_of_lt enough)).elim
        · exact deeper
      rw [if_pos more, wp_bind]
      have enough' : (value / base.toUInt32).toNat < base.toNat ^ depth := by
        rw [quotient]
        exact Nat.div_lt_of_lt_mul (by rwa [Nat.mul_comm, ← Nat.pow_succ])
      refine wp_mono (ih (m := m) (p := p) deeper enough') ?_ fun _ no => no.elim
      rintro q u ⟨rfl, rfl⟩
      refine wp_post last ?_
      rintro r t ⟨rfl, rfl⟩
      rw [quotient, numeral_step hb more', List.length_append, List.length_singleton]
      exact ⟨Nat.add_assoc .., overlay_append⟩
    · have less : value.toNat < base.toNat := by
        have zero : value.toNat / base.toNat = 0 := by
          rw [← quotient, not_not.1 more]
          rfl
        exact Nat.lt_of_div_eq_zero (Nat.zero_lt_of_lt hb) zero
      rw [if_neg more, wp_bind, wp_pure, numeral_small less]
      refine wp_post last ?_
      rintro r t ⟨rfl, rfl⟩
      rw [Nat.mod_eq_of_lt less]
      exact ⟨rfl, rfl⟩

/-! The sign of an argument. -/

theorem negative_iff (arg : UInt32) : arg.toInt32 < 0 ↔ arg.toInt32.toInt < 0 := by
  rw [Int32.lt_iff_toInt_lt]
  rfl

theorem natAbs_negative {arg : UInt32} (h : arg.toInt32.toInt < 0) : (0 - arg).toNat = arg.toInt32.toInt.natAbs := by
  have def_toInt : arg.toInt32.toInt = arg.toBitVec.toInt := rfl
  rw [def_toInt, BitVec.toInt_eq_toNat_cond] at h ⊢
  have small := arg.toNat_lt
  have same : arg.toBitVec.toNat = arg.toNat := rfl
  rw [same] at h ⊢
  split at h
  · omega
  · next big =>
    rw [if_neg big, UInt32.toNat_sub]
    simp
    omega

theorem natAbs_positive {arg : UInt32} (h : ¬ arg.toInt32.toInt < 0) : arg.toNat = arg.toInt32.toInt.natAbs := by
  have def_toInt : arg.toInt32.toInt = arg.toBitVec.toInt := rfl
  rw [def_toInt, BitVec.toInt_eq_toNat_cond] at h ⊢
  have small := arg.toNat_lt
  have same : arg.toBitVec.toNat = arg.toNat := rfl
  rw [same] at h ⊢
  split at h
  · next low => rw [if_pos low, Int.natAbs_natCast]
  · omega
/-! The pieces of a format. -/

/-- An ordinary character, or a conversion with its argument: a string at an address, or a word. -/
inductive Piece where
  | ordinary (c : UInt8)
  | str (ptr : UInt32) (text : List UInt8)
  | chr (arg : UInt32)
  | dec (arg : UInt32)
  | hex (arg : UInt32)

namespace Piece

def format : Piece → List UInt8
  | ordinary c => [c]
  | str _ _ => [0x25, 0x73]
  | chr _ => [0x25, 0x63]
  | dec _ => [0x25, 0x64]
  | hex _ => [0x25, 0x78]

def args : Piece → List UInt32
  | ordinary _ => []
  | str arg _ | chr arg | dec arg | hex arg => [arg]

/-- A number in decimal, with a sign if it is negative. -/
def decimal (v : Int) : List UInt8 := if v < 0 then 0x2d :: numeral 10 v.natAbs else numeral 10 v.natAbs

/-- What the piece stands for. -/
def text : Piece → List UInt8
  | ordinary c => [c]
  | str _ text => text
  | chr arg => [arg.toUInt8]
  | dec arg => decimal arg.toInt32.toInt
  | hex arg => numeral 16 arg.toNat

def Ok : Piece → Prop
  | ordinary c => c ≠ 0 ∧ c ≠ 0x25
  | str _ text => 0 ∉ text
  | chr arg => arg.toUInt8 ≠ 0
  | dec _ | hex _ => True

/-- strcpy leaves a NUL behind the string. -/
def nul : Piece → List UInt8
  | str _ _ => [0]
  | _ => []

theorem solid {p : Piece} (ok : p.Ok) : 0 ∉ p.text := by
  cases p with
  | ordinary c => exact fun mem => ok.1 (List.mem_singleton.1 mem).symm
  | str ptr text => exact ok
  | chr arg => exact fun mem => ok (List.mem_singleton.1 mem).symm
  | dec arg =>
    have digits := numeral_solid (n := arg.toInt32.toInt.natAbs) (by decide : 1 < 10) (by decide)
    rw [text, decimal]
    split
    · exact List.not_mem_cons_of_ne_of_not_mem (by decide) digits
    · exact digits
  | hex arg => exact numeral_solid (by decide) (by decide)

end Piece

def formatOf (ps : List Piece) : List UInt8 := ps.flatMap Piece.format

def argsOf (ps : List Piece) : List UInt32 := ps.flatMap Piece.args

/-- The text of the whole format. -/
def rendering (ps : List Piece) : List UInt8 := ps.flatMap Piece.text

/-- The NUL that the last piece leaves. -/
def lastNul (ps : List Piece) : List UInt8 := (ps.getLast?.map Piece.nul).getD []

/-- The string argument is in memory, apart from the n bytes at buf and the one behind. -/
def Readable (m : Buf) (buf n : Nat) : Piece → Prop
  | .str ptr text => ptr ≠ 0 ∧ CString m ptr.toNat text ∧ text.length < 2 ^ 32 ∧
      (ptr.toNat + text.length < buf ∨ buf + n < ptr.toNat)
  | _ => True

section Step
variable {fuel i buf : Nat} {ap : List UInt32} {rest : List UInt8} {Q : Unit → Buf → Prop} {E : Fault → Prop}

theorem decimal_eq (arg : UInt32) : Piece.decimal arg.toInt32.toInt =
    if arg.toInt32 < 0 then 0x2d :: numeral 10 (0 - arg).toNat else numeral 10 arg.toNat := by
  rw [Piece.decimal]
  by_cases negative : arg.toInt32.toInt < 0
  · rw [if_pos negative, if_pos ((negative_iff arg).2 negative), natAbs_negative negative]
  · rw [if_neg negative, if_neg fun h => negative ((negative_iff arg).1 h), natAbs_positive negative]

/-- One turn of the loop, for each kind of piece. -/
theorem piece_step {p : Piece} (ok : p.Ok) (here : CString m i (p.format ++ rest))
    (readable : Readable m buf p.text.length p) (pos : buf ≠ 0)
    (next : wp (vsprintfFrom fuel (i + p.format.length) (overlay m buf (p.text ++ p.nul) (i + p.format.length))
      (buf + p.text.length) ap) Q E (overlay m buf (p.text ++ p.nul))) :
    wp (vsprintfFrom (fuel + 1) i (m i) buf (p.args ++ ap)) Q E m := by
  rw [vsprintfFrom]
  cases p with
  | ordinary c =>
    rw [here.head.1, if_neg ok.1, if_pos ok.2, wp_bind, wp_storeChar, wp_bind, wp_loadChar]
    exact next
  | str ptr text =>
    obtain ⟨known, string, small, away⟩ := readable
    have letter : m (i + 1) = 0x73 := here.tail.head.1
    have known' : ptr.toNat ≠ 0 := fun zero => known (UInt32.toNat_inj.1 zero)
    rw [here.head.1, if_neg (by decide), if_neg (by decide), wp_bind, wp_loadChar, letter, if_pos rfl, wp_bind]
    refine (wp_pure _).2 ?_
    dsimp only
    rw [wp_bind]
    refine wp_mono (strcpy_spec string small pos known' away) ?_ fun _ no => no.elim
    rintro _ t rfl
    have still : CString (overlay m buf (text ++ [0])) ptr.toNat text := string.overlay (by
      rw [List.length_append, List.length_singleton]
      exact away.imp_right fun behind => behind)
    rw [wp_bind]
    refine wp_mono (strlen_spec still small known') ?_ fun _ no => no.elim
    rintro len t ⟨count, rfl⟩
    rw [wp_bind, wp_loadChar, count]
    exact next
  | chr arg =>
    have letter : m (i + 1) = 0x63 := here.tail.head.1
    rw [here.head.1, if_neg (by decide), if_neg (by decide), wp_bind, wp_loadChar, letter, if_neg (by decide), if_pos rfl,
      wp_bind]
    refine (wp_pure _).2 ?_
    dsimp only
    rw [wp_bind, wp_storeChar, wp_bind, wp_loadChar]
    exact next
  | dec arg =>
    have letter : m (i + 1) = 0x64 := here.tail.head.1
    rw [here.head.1, if_neg (by decide), if_neg (by decide), wp_bind, wp_loadChar, letter, if_neg (by decide),
      if_neg (by decide), if_pos rfl, wp_bind]
    refine (wp_pure _).2 ?_
    have number (v : UInt32) : v.toNat < (10 : UInt8).toNat ^ 32 := Nat.lt_trans v.toNat_lt (by decide)
    rw [show (Piece.dec arg).nul = [] from rfl, List.append_nil, Piece.text, decimal_eq] at next
    dsimp only
    by_cases negative : arg.toInt32 < 0
    · rw [if_pos negative] at next ⊢
      rw [wp_bind, wp_storeChar, wp_bind]
      refine wp_mono (itoa_spec (by decide) (by decide) (by decide) (number _)) ?_ fun _ no => no.elim
      rintro q t ⟨rfl, rfl⟩
      rw [show (10 : UInt8).toNat = 10 from rfl]
      have joined := overlay_append (m := m) (p := buf) (a := [0x2d]) (c := numeral 10 (0 - arg).toNat)
      rw [List.length_singleton, List.singleton_append] at joined
      rw [List.length_cons, Nat.add_comm _ 1, ← Nat.add_assoc] at next
      rw [joined, wp_bind, wp_loadChar]
      exact next
    · rw [if_neg negative] at next ⊢
      rw [wp_bind]
      refine wp_mono (itoa_spec (by decide) (by decide) (by decide) (number _)) ?_ fun _ no => no.elim
      rintro q t ⟨rfl, rfl⟩
      rw [wp_bind, wp_loadChar]
      exact next
  | hex arg =>
    have letter : m (i + 1) = 0x78 := here.tail.head.1
    rw [here.head.1, if_neg (by decide), if_neg (by decide), wp_bind, wp_loadChar, letter, if_neg (by decide),
      if_neg (by decide), if_neg (by decide), if_pos rfl, wp_bind]
    refine (wp_pure _).2 ?_
    dsimp only
    rw [wp_bind]
    have number : arg.toNat < (16 : UInt8).toNat ^ 32 := Nat.lt_trans arg.toNat_lt (by decide)
    refine wp_mono (itoa_spec (by decide) (by decide) (by decide) number) ?_ fun _ no => no.elim
    rintro q t ⟨rfl, rfl⟩
    rw [show (Piece.hex arg).nul = [] from rfl, List.append_nil] at next
    rw [wp_bind, wp_loadChar]
    exact next

end Step

/-! Whole formats. -/

theorem Piece.nul_length (p : Piece) : p.nul.length ≤ 1 := by
  cases p with
  | str ptr text => exact Nat.le_refl 1
  | _ => exact Nat.zero_le 1

theorem Piece.format_pos (p : Piece) : 0 < p.format.length := by
  cases p <;> exact Nat.zero_lt_succ _

theorem numeral_pos {base n : Nat} : 0 < (numeral base n).length := by
  rw [numeral]
  split
  · exact Nat.zero_lt_one
  · next pos =>
    rw [List.length_map, List.length_reverse]
    exact List.length_pos_iff.2 (Nat.digits_ne_nil_iff_ne_zero.2 pos)

/-- Every piece stores something. -/
theorem Piece.stores (p : Piece) : 0 < p.text.length + p.nul.length := by
  cases p with
  | ordinary c => exact Nat.zero_lt_one
  | str ptr text => exact Nat.zero_lt_succ _
  | chr arg => exact Nat.zero_lt_one
  | dec arg =>
    rw [Piece.text, Piece.decimal]
    split
    · exact Nat.zero_lt_succ _
    · exact Nat.add_pos_left numeral_pos _
  | hex arg => exact Nat.add_pos_left numeral_pos _

theorem lastNul_append (ps : List Piece) (p : Piece) : lastNul (ps ++ [p]) = p.nul := by
  rw [lastNul, List.getLast?_append, List.getLast?_singleton]
  rfl

theorem rendering_stores {ps : List Piece} (some_piece : ps ≠ []) : 0 < (rendering ps ++ lastNul ps).length := by
  obtain ⟨init, p, rfl⟩ := (List.eq_nil_or_concat ps).resolve_left some_piece
  have stores := p.stores
  rw [List.concat_eq_append, lastNul_append, rendering, List.flatMap_append, List.flatMap_singleton, List.length_append,
    List.length_append]
  omega

theorem vsprintfFrom_spec {ps : List Piece} {fuel i buf : Nat} (ok : ∀ p ∈ ps, p.Ok) (format : CString m i (formatOf ps))
    (away : i + (formatOf ps).length < buf ∨ buf + (rendering ps).length < i)
    (readable : ∀ p ∈ ps, Readable m buf (rendering ps).length p) (enough : ps.length < fuel) (pos : buf ≠ 0) :
    Succeeds (vsprintfFrom fuel i (m i) buf (argsOf ps)) (fun _ t => t = overlay m buf (rendering ps ++ lastNul ps)) m := by
  induction ps generalizing m fuel i buf with
  | nil =>
    obtain ⟨fuel, rfl⟩ := Nat.exists_eq_add_one_of_ne_zero (Nat.ne_of_gt enough)
    rw [vsprintfFrom, if_pos format.first_nil]
    exact (wp_pure _).2 overlay_nil.symm
  | cons p ps ih =>
    obtain ⟨fuel, rfl⟩ := Nat.exists_eq_add_one_of_ne_zero (Nat.ne_of_gt (Nat.zero_lt_of_lt enough))
    have formats : formatOf (p :: ps) = p.format ++ formatOf ps := List.flatMap_cons
    have texts : rendering (p :: ps) = p.text ++ rendering ps := List.flatMap_cons
    have args : argsOf (p :: ps) = p.args ++ argsOf ps := List.flatMap_cons
    have nul := p.nul_length
    have letters := p.format_pos
    have stored : (p.text ++ p.nul).length = p.text.length + p.nul.length := List.length_append
    rw [formats] at format away
    rw [texts] at away readable
    rw [List.length_append, List.length_append] at away
    rw [List.length_append] at readable
    have count : (p :: ps).length = ps.length + 1 := List.length_cons
    have mine : Readable m buf p.text.length p := by
      have whole := readable p List.mem_cons_self
      cases p with
      | str ptr text => exact ⟨whole.1, whole.2.1, whole.2.2.1, whole.2.2.2.imp_right fun behind => by omega⟩
      | _ => trivial
    rw [args]
    apply piece_step (ok p List.mem_cons_self) format mine pos
    have rest : CString (overlay m buf (p.text ++ p.nul)) (i + p.format.length) (formatOf ps) :=
      format.drop.overlay (by omega)
    have readable' : ∀ q ∈ ps, Readable (overlay m buf (p.text ++ p.nul)) (buf + p.text.length) (rendering ps).length q := by
      intro q mem
      have whole := readable q (List.mem_cons_of_mem _ mem)
      cases q with
      | str ptr text =>
        obtain ⟨known, string, small, apart⟩ := whole
        exact ⟨known, string.overlay (by omega), small, by omega⟩
      | _ => trivial
    refine wp_post (ih (fun q mem => ok q (List.mem_cons_of_mem _ mem)) rest (by omega) readable' (by omega) (by omega)) ?_
    rintro _ t rfl
    rw [texts, List.append_assoc]
    cases ps with
    | nil =>
      have last : lastNul [p] = p.nul := lastNul_append [] p
      rw [last]
      exact overlay_nil
    | cons q ps =>
      have same : lastNul (p :: q :: ps) = lastNul (q :: ps) := by rw [lastNul, lastNul, List.getLast?_cons_cons]
      have stores := rendering_stores (List.cons_ne_nil q ps)
      rw [same]
      exact overlay_overlay (by omega)

/-- What a caller of vsprintf provides: the format and the strings, apart from the buffer str. -/
structure Call (m : Buf) (str format : Nat) (ps : List Piece) : Prop where
  ok : ∀ p ∈ ps, p.Ok
  letters : CString m format (formatOf ps)
  apart : format + (formatOf ps).length < str ∨ str + (rendering ps).length < format
  strings : ∀ p ∈ ps, Readable m str (rendering ps).length p
  room : (formatOf ps).length < 2 ^ 32 ∧ (rendering ps).length < 2 ^ 32
  known : str ≠ 0

/-- The text is in the buffer with a NUL behind it, nothing else has changed, and its length is returned. -/
def Renders (m : Buf) (str format : Nat) (ps : List Piece) : Prop :=
  Succeeds (vsprintf str format (argsOf ps)) (fun r t => r.toNat = (rendering ps).length ∧ CString t str (rendering ps) ∧
    ∀ k, k < str ∨ str + (rendering ps).length < k → t k = m k) m

variable {str format : Nat} {ps : List Piece}

theorem wp_vsprintf (call : Call m str format ps) {Q : UInt32 → Buf → Prop} {E : Fault → Prop} :
    wp (vsprintf str format (argsOf ps)) Q E m ↔ wp (strlen str) Q E (overlay m str (rendering ps ++ lastNul ps)) := by
  have pieces : ps.length ≤ (formatOf ps).length := by
    rw [formatOf, List.length_flatMap]
    have count := List.length_le_sum_of_one_le (ps.map fun p => p.format.length) (by
      intro n mem
      obtain ⟨p, -, rfl⟩ := List.mem_map.1 mem
      exact p.format_pos)
    rwa [List.length_map] at count
  have loop : Succeeds (vsprintfFrom (2 ^ 32) format (m format) str (argsOf ps)) _ m :=
    vsprintfFrom_spec call.ok call.letters call.apart call.strings (Nat.lt_of_le_of_lt pieces call.room.1) call.known
  obtain ⟨_, t, run, rfl⟩ := succeeds_iff.1 loop
  rw [vsprintf, wp_bind, wp_loadChar, wp_bind, wp_of_ok run]

theorem rendering_solid (call : Call m str format ps) : 0 ∉ rendering ps := by
  intro mem
  obtain ⟨p, piece, zero⟩ := List.mem_flatMap.1 mem
  exact Piece.solid (call.ok p piece) zero

theorem lastNul_cases (ps : List Piece) :
    (lastNul ps = [0] ∧ ∃ init ptr text, ps = init ++ [.str ptr text]) ∨
      (lastNul ps = [] ∧ ¬ ∃ init ptr text, ps = init ++ [.str ptr text]) := by
  rcases List.eq_nil_or_concat ps with rfl | ⟨init, p, rfl⟩
  · exact .inr ⟨rfl, fun ⟨init, ptr, text, eq⟩ => by simp at eq⟩
  · rw [List.concat_eq_append, lastNul_append]
    cases p with
    | str ptr text => exact .inl ⟨rfl, init, ptr, text, rfl⟩
    | _ => exact .inr ⟨rfl, fun ⟨init', ptr, text, eq⟩ => by simp at eq⟩

theorem nul_of_renders (call : Call m str format ps) (renders : Renders m str format ps) :
    m (str + (rendering ps).length) = 0 ∨ ∃ init ptr text, ps = init ++ [.str ptr text] := by
  rw [Renders, Succeeds, wp_vsprintf call] at renders
  obtain ⟨_, t, run, -, string, -⟩ := succeeds_iff.1 renders
  rcases lastNul_cases ps with ⟨-, ends⟩ | ⟨none, -⟩
  · exact .inr ends
  · have same := returns_iff.1 strlen_keeps _ t run
    have nul := string.nul
    left
    rwa [same, none, List.append_nil, overlay_of_not_mem (.inr (Nat.le_refl _))] at nul

/-- The result is right exactly when the format ends in %s or the buffer holds a NUL where the text ends. -/
theorem vsprintf_renders (call : Call m str format ps) :
    Renders m str format ps ↔ m (str + (rendering ps).length) = 0 ∨ ∃ init ptr text, ps = init ++ [.str ptr text] := by
  refine ⟨nul_of_renders call, fun nul => ?_⟩
  have whole : (rendering ps ++ lastNul ps).length = (rendering ps).length + (lastNul ps).length := List.length_append
  rw [Renders, Succeeds, wp_vsprintf call]
  have string : CString (overlay m str (rendering ps ++ lastNul ps)) str (rendering ps) := by
    refine ⟨fun k hk => ?_, ?_, rendering_solid call⟩
    · rw [overlay_get (by omega)]
      simp only [List.get_eq_getElem, List.getElem_append_left hk]
    · rcases lastNul_cases ps with ⟨one, -⟩ | ⟨none, no⟩
      · rw [overlay_get (by rw [whole, one]; exact Nat.lt_succ_self _)]
        simp [one]
      · rw [overlay_of_not_mem (by rw [whole, none]; exact .inr (Nat.le_refl _))]
        exact nul.resolve_right no
  refine wp_post (strlen_spec string call.room.2 call.known) ?_
  rintro r t ⟨len, rfl⟩
  refine ⟨len, string, fun k outside => overlay_of_not_mem ?_⟩
  have one : (lastNul ps).length ≤ 1 := by
    rcases lastNul_cases ps with ⟨eq, -⟩ | ⟨eq, -⟩ <;> rw [eq] <;> decide
  omega

/-- The format %d at 100 in a memory that is otherwise full of one byte. -/
def staleMemory (stale : UInt8) : Buf := fun k =>
  if k = 100 then 0x25 else if k = 101 then 0x64 else if k = 102 then 0 else stale

theorem staleMemory_call (stale : UInt8) : Call (staleMemory stale) 200 100 [.dec (0 - 2 ^ 31)] where
  ok := by simp [Piece.Ok]
  letters := by
    refine ⟨fun k hk => ?_, rfl, by decide⟩
    have few : k < 2 := hk
    interval_cases k <;> rfl
  apart := by decide +kernel
  strings := by simp [Readable]
  room := by decide +kernel
  known := by decide

theorem vsprintf_renders_lowest : Renders (staleMemory 0) 200 100 [.dec (0 - 2 ^ 31)] :=
  (vsprintf_renders (staleMemory_call 0)).2 (.inl rfl)

theorem vsprintf_not_renders : ¬ ∀ m str format ps, Call m str format ps → Renders m str format ps := by
  intro always
  rcases nul_of_renders (staleMemory_call 1) (always _ _ _ _ (staleMemory_call 1)) with nul | ⟨init, ptr, text, ends⟩
  · revert nul
    decide +kernel
  · have last := congrArg lastNul ends
    rw [lastNul_append] at last
    cases last

end Zhenxiang.Kernel
