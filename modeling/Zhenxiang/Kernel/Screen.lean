import Zhenxiang.Kernel.Print
import Zhenxiang.Lib.Terminal

/-! put_char against a terminal of 25 rows of 80 cells. -/
namespace Zhenxiang.Kernel
open Lib

/-- A character and its attribute. -/
abbrev Cell := UInt8 × UInt8

abbrev Screen := Terminal Cell 80 25

def blankCell : Cell := (0x20, 0x07)

/-- What a byte means to the terminal. -/
def inputOf (c : UInt8) : Input Cell :=
  if c = 0xd ∨ c = 0xa then .newline
  else if c = 0x8 then .backspace
  else .glyph (c, 0x07)

namespace Console

def cursor (s : Console) : Nat := 256 * (s.crt 0x0e).toNat + (s.crt 0x0f).toNat

def cellAt (s : Console) (i : Nat) : Cell := (s.video (2 * i), s.video (2 * i + 1))

/-- What is on the screen. -/
def screen (s : Console) (h : s.cursor < 80 * 25) : Screen := ⟨s.cursor, h, fun i => s.cellAt i⟩

end Console

structure Shows (s : Console) (t : Screen) : Prop where
  cursor : s.cursor = t.cursor
  cell : ∀ i : Fin (80 * 25), s.cellAt i = t.cell i

/-- From s to t everything stored is in the text page. -/
def InPage (s t : Console) : Prop := ∃ new, t.stored = new ++ s.stored ∧ ∀ o ∈ new, o < 4000

variable {s t u : Console} {bx : UInt16}

theorem InPage.refl : InPage s s := ⟨[], rfl, nofun⟩

theorem InPage.trans (h : InPage s t) (h' : InPage t u) : InPage s u := by
  obtain ⟨new, stored, inside⟩ := h
  obtain ⟨new', stored', inside'⟩ := h'
  refine ⟨new' ++ new, by rw [stored', stored, List.append_assoc], fun o mem => ?_⟩
  rcases List.mem_append.1 mem with late | early
  · exact inside' o late
  · exact inside o early

/-! The instructions. -/

theorem jumpLess_eq {a b : UInt16} (ha : a.toNat < 2 ^ 15) (hb : b.toNat < 2 ^ 15) :
    jumpLess a b = decide (a.toNat < b.toNat) := by
  have ha' : a.toBitVec.toInt = a.toNat := BitVec.toInt_eq_toNat_of_lt (by change 2 * a.toNat < _; omega)
  have hb' : b.toBitVec.toInt = b.toNat := BitVec.toInt_eq_toNat_of_lt (by change 2 * b.toNat < _; omega)
  rw [jumpLess, BitVec.slt, ha', hb']
  exact decide_eq_decide.2 Int.ofNat_lt

theorem shl_one (h : bx.toNat < 2 ^ 15) : (bx <<< 1).toNat = 2 * bx.toNat := by
  rw [UInt16.toNat_shiftLeft, show (1 : UInt16).toNat % 16 = 1 from rfl, Nat.shiftLeft_eq]
  omega

theorem shr_one : (bx >>> 1).toNat = bx.toNat / 2 := by
  rw [UInt16.toNat_shiftRight, show (1 : UInt16).toNat % 16 = 1 from rfl, Nat.shiftRight_eq_div_pow]

theorem add_one (h : bx.toNat < 2 ^ 16 - 1) : (bx + 1).toNat = bx.toNat + 1 := by
  rw [UInt16.toNat_add, show (1 : UInt16).toNat = 1 from rfl]
  omega

theorem wp_storeVideo {o : Nat} {v : UInt8} {Q : Unit → Console → Prop} {E : Fault → Prop} :
    wp (storeVideo o v) Q E s ↔ Q () { s with video := Function.update s.video o v, stored := o :: s.stored } :=
  wp_modify _

theorem wp_gsStore {o : Nat} {v : UInt8} {Q : Unit → Console → Prop} {E : Fault → Prop} (inside : o < 4000)
    (h : Q () { s with video := Function.update s.video o v, stored := o :: s.stored }) : wp (gsStore o v) Q E s := by
  rw [gsStore, wp_bind, wp_check]
  refine ⟨fun _ => wp_storeVideo.2 h, fun no => (no ?_).elim⟩
  rw [videoLimit]
  omega

theorem setCursor_spec : Succeeds (setCursor bx)
    (fun _ t => t.cursor = bx.toNat ∧ t.video = s.video ∧ t.stored = s.stored) s := by
  rw [setCursor, Succeeds, wp_bind, outCrt, outCrt, wp_modify, wp_modify]
  refine ⟨?_, rfl, rfl⟩
  have high : (bx >>> 8).toUInt8.toNat = bx.toNat / 256 := by
    have small := bx.toNat_lt
    rw [UInt16.toNat_toUInt8, UInt16.toNat_shiftRight, show (8 : UInt16).toNat % 16 = 8 from rfl,
      Nat.shiftRight_eq_div_pow]
    omega
  have low : bx.toUInt8.toNat = bx.toNat % 256 := UInt16.toNat_toUInt8 bx
  dsimp only [Console.cursor]
  rw [Function.update_of_ne (by decide), Function.update_self, Function.update_self, high, low]
  omega

theorem InPage.store {o : Nat} {v : UInt8} (h : InPage s t) (inside : o < 4000) :
    InPage s { t with video := Function.update t.video o v, stored := o :: t.stored } := by
  refine h.trans ⟨[o], rfl, fun x mem => ?_⟩
  rw [List.mem_singleton.1 mem]
  exact inside

/-! Scrolling. -/

theorem movsd_spec {k : Nat} (hk : k < 960) : Succeeds (movsd k) (fun _ t => t.crt = s.crt ∧ InPage s t ∧
    ∀ x, t.video x = if 4 * k ≤ x ∧ x < 4 * k + 4 then s.video (x + 160) else s.video x) s := by
  rw [movsd, Succeeds, wp_bind, wp_get]
  apply wp_mono (wp_forRange (fun j (t : Console) => t.crt = s.crt ∧ InPage s t ∧
    ∀ x, t.video x = if 4 * k ≤ x ∧ x < 4 * k + j then s.video (x + 160) else s.video x) ?_ ?_) (fun _ _ h => h)
    fun _ no => no
  · refine ⟨rfl, .refl, fun x => ?_⟩
    rw [if_neg (by omega)]
  · rintro j t hj ⟨crt, page, copied⟩
    rw [wp_storeVideo]
    refine ⟨crt, page.store (by omega), fun x => ?_⟩
    dsimp only
    rw [Function.update_apply]
    by_cases here : x = 4 * k + j
    · rw [if_pos here, if_pos (by omega), here]
      congr 1
      omega
    · rw [if_neg here, copied]
      by_cases old : 4 * k ≤ x ∧ x < 4 * k + j
      · rw [if_pos old, if_pos (by omega)]
      · rw [if_neg old, if_neg (by omega)]

theorem rollScreen_spec : Succeeds rollScreen (fun _ t => t.cursor = 1920 ∧ InPage s t ∧
    ∀ i < 2000, t.cellAt i = if i + 80 < 2000 then s.cellAt (i + 80) else blankCell) s := by
  rw [rollScreen, Succeeds, wp_bind]
  refine wp_mono (wp_forRange (fun k (t : Console) => t.crt = s.crt ∧ InPage s t ∧
    ∀ x, t.video x = if x < 4 * k then s.video (x + 160) else s.video x) ?_ ?_) ?_ fun _ no => no
  · refine ⟨rfl, .refl, fun x => ?_⟩
    rw [if_neg (by omega)]
  · rintro k t hk ⟨crt, page, copied⟩
    refine wp_post (movsd_spec hk) ?_
    rintro _ u ⟨crt', page', moved⟩
    refine ⟨crt'.trans crt, page.trans page', fun x => ?_⟩
    rw [moved]
    by_cases here : 4 * k ≤ x ∧ x < 4 * k + 4
    · rw [if_pos here, if_pos (by omega), copied, if_neg (by omega)]
    · rw [if_neg here, copied]
      by_cases old : x < 4 * k
      · rw [if_pos old, if_pos (by omega)]
      · rw [if_neg old, if_neg (by omega)]
  rintro _ t ⟨crt, page, copied⟩
  rw [wp_bind]
  refine wp_mono (wp_forRange (fun k (u : Console) => u.crt = s.crt ∧ InPage s u ∧
    ∀ i, u.cellAt i = if 1920 ≤ i ∧ i < 1920 + k then blankCell else t.cellAt i) ?_ ?_) ?_ fun _ no => no
  · refine ⟨crt, page, fun i => ?_⟩
    rw [if_neg (by omega)]
  · rintro k u hk ⟨crt, page, cleared⟩
    rw [wp_bind]
    apply wp_gsStore (by omega)
    apply wp_gsStore (by omega)
    refine ⟨crt, (page.store (by omega)).store (by omega), fun i => ?_⟩
    have cell := cleared i
    dsimp only [Console.cellAt] at cell ⊢
    by_cases here : i = 1920 + k
    · rw [if_pos (by omega), Function.update_of_ne (by omega), show 2 * i = 3840 + 2 * k by omega,
        Function.update_self, Function.update_self]
      rfl
    · rw [Function.update_of_ne (by omega), Function.update_of_ne (by omega), Function.update_of_ne (by omega),
        Function.update_of_ne (by omega), cell]
      by_cases old : 1920 ≤ i ∧ i < 1920 + k
      · rw [if_pos old, if_pos (by omega)]
      · rw [if_neg old, if_neg (by omega)]
  rintro _ u ⟨-, page, cleared⟩
  refine wp_post setCursor_spec ?_
  rintro _ v ⟨cursor, video, stored⟩
  obtain ⟨new, eq, inside⟩ := page
  refine ⟨cursor, ⟨new, stored.trans eq, inside⟩, fun i hi => ?_⟩
  have same : v.cellAt i = u.cellAt i := by rw [Console.cellAt, Console.cellAt, video]
  rw [same, cleared]
  by_cases last : i + 80 < 2000
  · rw [if_neg (by omega), if_pos last, Console.cellAt, Console.cellAt, copied, copied, if_pos (by omega),
      if_pos (by omega)]
    congr 2
  · rw [if_pos (by omega), if_neg last]

/-! The labels. The cells that a label starts from are those of cell. -/
section Labels
variable {cell : Fin (80 * 25) → Cell}

theorem rollScreen_shows (shown : ∀ i : Fin (80 * 25), s.cellAt i = cell i) :
    Succeeds rollScreen (fun _ t => InPage s t ∧
      Shows t (Terminal.moveTo blankCell cell 2000 (by decide) (by decide))) s := by
  refine wp_post rollScreen_spec ?_
  rintro _ t ⟨cursor, page, rolled⟩
  refine ⟨page, cursor, fun i => ?_⟩
  rw [rolled i i.isLt]
  change _ = Terminal.scrolled blankCell cell i
  rw [Terminal.scrolled]
  by_cases last : i.val + 80 < 2000
  · rw [if_pos last, dif_pos last, ← shown]
  · rw [if_neg last, dif_neg last]

theorem setCursor_shows (shown : ∀ i : Fin (80 * 25), s.cellAt i = cell i) (inside : bx.toNat < 80 * 25) :
    Succeeds (setCursor bx) (fun _ t => InPage s t ∧ Shows t ⟨bx.toNat, inside, cell⟩) s := by
  refine wp_post setCursor_spec ?_
  rintro _ t ⟨cursor, video, stored⟩
  refine ⟨⟨[], stored, nofun⟩, cursor, fun i => ?_⟩
  change _ = cell i
  rw [← shown, Console.cellAt, Console.cellAt, video]

theorem isLineFeed_shows (shown : ∀ i : Fin (80 * 25), s.cellAt i = cell i) {n : Nat} (upto : n ≤ 80 * 25)
    (next : bx.toNat < 2000 ∧ n = (bx.toNat / 80 + 1) * 80 ∨ bx.toNat = 2000 ∧ n = 2000) :
    Succeeds (isLineFeed bx) (fun _ t => InPage s t ∧
      Shows t (Terminal.moveTo blankCell cell n (by decide) upto)) s := by
  have column : (bx % 80).toNat = bx.toNat % 80 := UInt16.toNat_mod ..
  have row : (bx - bx % 80).toNat = bx.toNat - bx.toNat % 80 := by
    rw [UInt16.toNat_sub_of_le _ _ (UInt16.le_iff_toNat_le.2 (by omega)), column]
  have start : (bx - bx % 80 + 80).toNat = bx.toNat - bx.toNat % 80 + 80 := by
    rw [UInt16.toNat_add, row, show (80 : UInt16).toNat = 80 from rfl]
    omega
  rw [isLineFeed, jumpLess_eq (by omega) (by decide), show (2000 : UInt16).toNat = 2000 from rfl]
  by_cases less : (bx - bx % 80 + 80).toNat < 2000
  · have target : n = (bx - bx % 80 + 80).toNat := by omega
    subst target
    rw [if_pos (decide_eq_true less), Terminal.moveTo, dif_pos (show _ < 80 * 25 from less)]
    exact setCursor_shows shown less
  · have target : n = 2000 := by omega
    subst target
    rw [if_neg (by simpa using less)]
    exact rollScreen_shows shown

theorem wp_drawn {o : Nat} {c : UInt8} {bx : UInt16} {K : Kern Console Unit} {Q : Unit → Console → Prop}
    {E : Fault → Prop} (at_bx : bx.toNat = 2 * o) (inside : o < 2000)
    (h : ∀ t, InPage s t → (∀ i, t.cellAt i = if i = o then (c, 0x07) else s.cellAt i) →
      wp K Q E t) :
    wp (do gsStore bx.toNat c; gsStore (bx + 1).toNat 0x07; K) Q E s := by
  have next : (bx + 1).toNat = 2 * o + 1 := by
    rw [add_one (by omega), at_bx]
  rw [wp_bind, at_bx]
  apply wp_gsStore (by omega)
  rw [wp_bind, next]
  apply wp_gsStore (by omega)
  refine h _ ((InPage.refl.store (by omega)).store (by omega)) fun i => ?_
  dsimp only [Console.cellAt]
  by_cases here : i = o
  · rw [if_pos here, here, Function.update_of_ne (by omega), Function.update_self, Function.update_self]
  · rw [if_neg here, Function.update_of_ne (by omega), Function.update_of_ne (by omega),
      Function.update_of_ne (by omega), Function.update_of_ne (by omega)]

theorem putOther_shows {t : Screen} {cl : UInt8} (shows : Shows s t) (at_bx : bx.toNat = t.cursor) :
    Succeeds (putOther bx cl) (fun _ u => InPage s u ∧ Shows u (t.step blankCell (.glyph (cl, 0x07)))) s := by
  have inside : t.cursor < 2000 := t.inside
  have offset : (bx <<< 1).toNat = 2 * t.cursor := by rw [shl_one (by omega), at_bx]
  have back : ((bx <<< 1 + 1) >>> 1 + 1).toNat = t.cursor + 1 := by
    have half : ((bx <<< 1 + 1) >>> 1).toNat = t.cursor := by
      rw [shr_one, add_one (by omega), offset]
      omega
    rw [add_one (by omega), half]
  rw [putOther]
  refine wp_drawn offset inside fun u page drawn => ?_
  have shown (i : Fin (80 * 25)) : u.cellAt i = Function.update t.cell ⟨t.cursor, t.inside⟩ (cl, 0x07) i := by
    rw [drawn, Function.update_apply, shows.cell]
    simp only [Fin.ext_iff]
  dsimp only
  rw [jumpLess_eq (by omega) (by decide), show (2000 : UInt16).toNat = 2000 from rfl, back]
  by_cases less : t.cursor + 1 < 2000
  · rw [if_pos (decide_eq_true less), Terminal.step, Terminal.moveTo, dif_pos (show _ < 80 * 25 from less)]
    refine wp_post (setCursor_shows shown (by rw [back]; exact less)) ?_
    rintro _ v ⟨page', cursor, cell⟩
    exact ⟨page.trans page', cursor.trans back, cell⟩
  · rw [if_neg (by simpa using less)]
    refine wp_post (isLineFeed_shows shown (n := t.cursor + 1) t.inside (.inr ⟨by omega, by omega⟩)) ?_
    rintro _ v ⟨page', shows'⟩
    exact ⟨page.trans page', shows'⟩

theorem isBackspace_shows {t : Screen} (shows : Shows s t) (at_bx : bx.toNat = t.cursor) (away : t.cursor ≠ 0) :
    Succeeds (isBackspace bx) (fun _ u => InPage s u ∧ Shows u (t.step blankCell .backspace)) s := by
  have inside : t.cursor < 2000 := t.inside
  have less : (bx - 1).toNat = t.cursor - 1 := by
    rw [UInt16.toNat_sub_of_le _ _ (UInt16.le_iff_toNat_le.2 (by
      rw [show (1 : UInt16).toNat = 1 from rfl]
      omega)), at_bx]
    rfl
  have offset : ((bx - 1) <<< 1).toNat = 2 * (t.cursor - 1) := by rw [shl_one (by omega), less]
  have half : (((bx - 1) <<< 1 + 1) >>> 1).toNat = t.cursor - 1 := by
    rw [shr_one, add_one (by omega), offset]
    omega
  rw [isBackspace]
  refine wp_drawn offset (by omega) fun u page drawn => ?_
  rw [Terminal.step, if_neg away]
  have back : t.cursor - 1 < 80 * 25 := by omega
  have shown (i : Fin (80 * 25)) : u.cellAt i = Function.update t.cell ⟨t.cursor - 1, back⟩ blankCell i := by
    rw [drawn, Function.update_apply, shows.cell]
    simp only [Fin.ext_iff, blankCell]
  refine wp_post (setCursor_shows shown (by rw [half]; exact back)) ?_
  rintro _ v ⟨page', cursor, cell⟩
  exact ⟨page.trans page', cursor.trans half, cell⟩

theorem cursor_eq : ((s.crt 0x0e).toUInt16 <<< 8 ||| (s.crt 0x0f).toUInt16).toNat = s.cursor := by
  have high := (s.crt 0x0e).toNat_lt
  have low := (s.crt 0x0f).toNat_lt
  have shift : ((s.crt 0x0e).toUInt16 <<< 8).toNat = (s.crt 0x0e).toNat <<< 8 := by
    rw [UInt16.toNat_shiftLeft, show (8 : UInt16).toNat % 16 = 8 from rfl, UInt8.toNat_toUInt16, Nat.shiftLeft_eq]
    omega
  rw [UInt16.toNat_or, shift, UInt8.toNat_toUInt16, ← Nat.shiftLeft_add_eq_or_of_lt low, Nat.shiftLeft_eq, Console.cursor]
  omega

/-- One byte, unless it is a backspace on the first cell. -/
theorem putChar_shows {t : Screen} {c : UInt8} (shows : Shows s t) (ok : c = 0x8 → t.cursor ≠ 0) :
    Succeeds (putChar c) (fun _ u => InPage s u ∧ Shows u (t.step blankCell (inputOf c))) s := by
  have inside : t.cursor < 2000 := t.inside
  have at_bx := (cursor_eq (s := s)).trans shows.cursor
  rw [putChar, Succeeds, wp_bind, wp_get, wp_bind, wp_get]
  dsimp only
  generalize (s.crt 0x0e).toUInt16 <<< 8 ||| (s.crt 0x0f).toUInt16 = bx at at_bx ⊢
  have line : Succeeds (isLineFeed bx) (fun _ u => InPage s u ∧ Shows u (t.step blankCell .newline)) s :=
    isLineFeed_shows shows.cell t.next_row_upto (.inl ⟨by omega, by rw [at_bx]⟩)
  rw [inputOf]
  by_cases cr : c = 0xd
  · rw [if_pos cr, if_pos (.inl cr)]
    exact line
  · rw [if_neg cr]
    by_cases lf : c = 0xa
    · rw [if_pos lf, if_pos (.inr lf)]
      exact line
    · rw [if_neg lf, if_neg (not_or.2 ⟨cr, lf⟩)]
      by_cases bs : c = 0x8
      · rw [if_pos bs, if_pos bs]
        exact isBackspace_shows shows at_bx (ok bs)
      · rw [if_neg bs, if_neg bs]
        exact putOther_shows shows at_bx

/-- The offset behind the first cell is 0xfffe, which is not in the segment. -/
theorem putChar_underrun {Q : Unit → Console → Prop} (first : s.cursor = 0) : ¬ Succeeds (putChar 0x8) Q s := by
  have at_bx : (s.crt 0x0e).toUInt16 <<< 8 ||| (s.crt 0x0f).toUInt16 = 0 :=
    UInt16.toNat_inj.1 (cursor_eq.trans first)
  rw [putChar, Succeeds, wp_bind, wp_get, wp_bind, wp_get]
  dsimp only
  rw [at_bx, if_neg (by decide), if_neg (by decide), if_pos rfl, isBackspace, wp_bind, gsStore, wp_bind, wp_check]
  exact fun fault => fault.2 (by decide)

end Labels

/-! Streams of bytes. -/

def Console.play (t : Screen) (cs : List UInt8) : Screen := cs.foldl (fun t c => t.step blankCell (inputOf c)) t

/-- After each byte the page shows the terminal, its cursor is on a cell, and only the page was stored to. -/
def Tracks : Console → Screen → List UInt8 → Prop
  | _, _, [] => True
  | s, t, c :: cs => Succeeds (putChar c) (fun _ u => InPage s u ∧ Shows u (t.step blankCell (inputOf c)) ∧
      Tracks u (t.step blankCell (inputOf c)) cs) s

theorem tracks_of_no_underrun {t : Screen} {cs : List UInt8} (shows : Shows s t)
    (ok : ∀ before rest, cs = before ++ 0x8 :: rest → (Console.play t before).cursor ≠ 0) : Tracks s t cs := by
  induction cs generalizing s t with
  | nil => trivial
  | cons c cs ih =>
    have here : c = 0x8 → t.cursor ≠ 0 := by
      rintro rfl
      exact ok [] cs rfl
    refine wp_post (putChar_shows shows here) ?_
    rintro _ u ⟨page, shows'⟩
    refine ⟨page, shows', ih shows' fun before rest eq => ?_⟩
    exact ok (c :: before) rest (by rw [eq, List.cons_append])

theorem no_underrun_of_tracks {t : Screen} {before rest : List UInt8} (shows : Shows s t)
    (tracks : Tracks s t (before ++ 0x8 :: rest)) : (Console.play t before).cursor ≠ 0 := by
  induction before generalizing s t with
  | nil =>
    intro first
    exact putChar_underrun (shows.cursor.trans first) tracks
  | cons c before ih =>
    obtain ⟨_, u, -, -, shows', tracks'⟩ := succeeds_iff.1 tracks
    exact ih shows' tracks'

/-- put_char is the terminal for as long as no backspace comes with the cursor on the first cell. -/
theorem console_is_terminal (h : s.cursor < 80 * 25) (cs : List UInt8) :
    Tracks s (s.screen h) cs ↔
      ∀ before rest, cs = before ++ 0x8 :: rest → (Console.play (s.screen h) before).cursor ≠ 0 := by
  have shows : Shows s (s.screen h) := ⟨rfl, fun _ => rfl⟩
  constructor
  · rintro tracks before rest rfl
    exact no_underrun_of_tracks shows tracks
  · exact tracks_of_no_underrun shows

def clearConsole : Console := ⟨fun _ => 0, fun k => if k % 2 = 0 then 0x20 else 0x07, []⟩

theorem console_is_terminal_clear : Tracks clearConsole (clearConsole.screen (by decide)) [0x61, 0x8] := by
  refine (console_is_terminal (by decide) [0x61, 0x8]).2 ?_
  rintro (_ | ⟨c, _ | ⟨d, before⟩⟩) rest eq
  · cases eq
  · obtain ⟨rfl, -⟩ := List.cons.inj eq
    decide
  · simp at eq

/-- A backspace on the first cell of a clear screen. -/
theorem console_not_terminal : ¬ ∀ (s : Console) (h : s.cursor < 80 * 25) (cs : List UInt8), Tracks s (s.screen h) cs :=
  fun always => putChar_underrun rfl (always clearConsole (by decide) [0x8])

end Zhenxiang.Kernel
