import Zhenxiang.Device.Keyboard

/-! The flags of the handler against the keys held down. A flag stands for two keys and is
cleared when either of them goes up. -/
namespace Zhenxiang.Device
open Lib

variable {s : Keyboard} {b : Board}

/-- A fact about all keys that can be checked key by key. -/
theorem Key.all {P : Bool → UInt8 → Prop}
    (h : ∀ ext : Bool, ∀ n < 128, 0 < n → n ≠ 0x60 → P ext (UInt8.ofNat n)) (k : Key) : P k.ext k.code := by
  obtain ⟨pos, low, other⟩ := k.known
  have key := h k.ext k.code.toNat (UInt8.lt_iff_toNat_lt.1 low) (UInt8.lt_iff_toNat_lt.1 pos)
    fun eq => other (UInt8.toNat_inj.1 eq)
  rwa [UInt8.ofNat_toNat] at key

theorem Key.eq_iff {k l : Key} : k = l ↔ k.ext = l.ext ∧ k.code = l.code := by
  cases k
  cases l
  simp

/-- The code that the handler sees, with the prefix merged in. -/
def codeOf (ext : Bool) (code : UInt8) : UInt16 := if ext then 0xe000 ||| code.toUInt16 else code.toUInt16

/-- The codes that onMake is called for. -/
def Handled (scancode : UInt16) : Prop :=
  0x00 < scancode ∧ scancode < 0x3b ∨ scancode = altRMake ∨ scancode = ctrlRMake

instance (scancode : UInt16) : Decidable (Handled scancode) := inferInstanceAs (Decidable (_ ∨ _))

/-! The bytes of a key. -/

theorem second_byte (idle : s.extScancode = false) (ext : Bool) (data : UInt8) (solid : data.toUInt16 ≠ 0xe0) :
    ((if ext then [0xe0] else []) ++ [data]).foldl Keyboard.intrKeyboardHandler s =
      if codeOf ext data &&& 0x0080 ≠ 0 then s.onBreak (codeOf ext data)
      else if Handled (codeOf ext data) then s.onMake (codeOf ext data)
      else { s with printed := s.printed ++ ["unknown key\n"] } := by
  have same : { s with extScancode := false } = s := by rw [← idle]
  cases ext with
  | true =>
    have started : s.intrKeyboardHandler 0xe0 = { s with extScancode := true } := by
      rw [Keyboard.intrKeyboardHandler]
      exact if_pos (by decide)
    simp only [if_true, List.singleton_append, List.foldl_cons, List.foldl_nil]
    rw [started, Keyboard.intrKeyboardHandler, if_neg solid]
    dsimp only
    rw [if_pos rfl, same, idle]
    rfl
  | false =>
    simp only [Bool.false_eq_true, if_false, List.nil_append, List.foldl_cons, List.foldl_nil]
    rw [Keyboard.intrKeyboardHandler, if_neg solid]
    dsimp only
    rw [idle, if_neg Bool.false_ne_true, same]
    rfl

theorem press_eq (idle : s.extScancode = false) (k : Key) : s.play (.press k) =
    if Handled (codeOf k.ext k.code) then s.onMake (codeOf k.ext k.code)
    else { s with printed := s.printed ++ ["unknown key\n"] } := by
  have solid : k.code.toUInt16 ≠ 0xe0 := k.all (P := fun _ code => code.toUInt16 ≠ 0xe0) (by decide +kernel)
  have make : codeOf k.ext k.code &&& 0x0080 = 0 :=
    k.all (P := fun ext code => codeOf ext code &&& 0x0080 = 0) (by decide +kernel)
  exact (second_byte idle k.ext k.code solid).trans (if_neg (not_not.2 make))

theorem release_eq (idle : s.extScancode = false) (k : Key) :
    s.play (.release k) = s.onBreak (codeOf k.ext (k.code ||| 0x80)) := by
  have solid : (k.code ||| 0x80).toUInt16 ≠ 0xe0 :=
    k.all (P := fun _ code => (code ||| 0x80).toUInt16 ≠ 0xe0) (by decide +kernel)
  have up : codeOf k.ext (k.code ||| 0x80) &&& 0x0080 ≠ 0 :=
    k.all (P := fun ext code => codeOf ext (code ||| 0x80) &&& 0x0080 ≠ 0) (by decide +kernel)
  exact (second_byte idle k.ext (k.code ||| 0x80) solid).trans (if_pos up)

/-! What a key does. -/

def Key.isCtrl (k : Key) : Bool := k = .ctrlL ∨ k = .ctrlR

def Key.isShift (k : Key) : Bool := k = .shiftL ∨ k = .shiftR

def Key.isAlt (k : Key) : Bool := k = .altL ∨ k = .altR

theorem codeOf_inj {k l : Key} : codeOf k.ext k.code = codeOf l.ext l.code ↔ k = l := by
  have back : ∀ k : Key, (decide (0xe000 ≤ codeOf k.ext k.code), (codeOf k.ext k.code).toUInt8) = (k.ext, k.code) := fun k =>
    k.all (P := fun ext code => (decide (0xe000 ≤ codeOf ext code), (codeOf ext code).toUInt8) = (ext, code)) (by decide +kernel)
  constructor
  · intro same
    have both := (back k).symm.trans (same ▸ back l)
    exact Key.eq_iff.2 ⟨congrArg Prod.fst both, congrArg Prod.snd both⟩
  · intro same
    rw [same]

theorem isCtrl_iff (k : Key) : k.isCtrl = true ↔ codeOf k.ext k.code = ctrlLMake ∨ codeOf k.ext k.code = ctrlRMake := by
  rw [Key.isCtrl, decide_eq_true_iff, ← codeOf_inj, ← codeOf_inj]
  exact Iff.rfl

theorem isShift_iff (k : Key) :
    k.isShift = true ↔ codeOf k.ext k.code = shiftLMake ∨ codeOf k.ext k.code = shiftRMake := by
  rw [Key.isShift, decide_eq_true_iff, ← codeOf_inj, ← codeOf_inj]
  exact Iff.rfl

theorem isAlt_iff (k : Key) : k.isAlt = true ↔ codeOf k.ext k.code = altLMake ∨ codeOf k.ext k.code = altRMake := by
  rw [Key.isAlt, decide_eq_true_iff, ← codeOf_inj, ← codeOf_inj]
  exact Iff.rfl

/-! No key is of two kinds. -/

theorem ctrl_apart {k : Key} (ctrl : k.isCtrl = true) : k.isShift = false ∧ k.isAlt = false ∧ k ≠ .capsLock := by
  rcases of_decide_eq_true ctrl with rfl | rfl <;> decide

theorem shift_apart {k : Key} (shift : k.isShift = true) : k.isCtrl = false ∧ k.isAlt = false ∧ k ≠ .capsLock := by
  rcases of_decide_eq_true shift with rfl | rfl <;> decide

theorem alt_apart {k : Key} (alt : k.isAlt = true) : k.isCtrl = false ∧ k.isShift = false ∧ k ≠ .capsLock := by
  rcases of_decide_eq_true alt with rfl | rfl <;> decide

theorem release_spec (idle : s.extScancode = false) (k : Key) : s.play (.release k) =
    { s with ctrlStatus := s.ctrlStatus && !k.isCtrl, shiftStatus := s.shiftStatus && !k.isShift,
             altStatus := s.altStatus && !k.isAlt } := by
  have make : codeOf k.ext (k.code ||| 0x80) &&& 0xff7f = codeOf k.ext k.code :=
    k.all (P := fun ext code => codeOf ext (code ||| 0x80) &&& 0xff7f = codeOf ext code) (by decide +kernel)
  rw [release_eq idle, Keyboard.onBreak]
  simp only [make, ← isCtrl_iff, ← isShift_iff, ← isAlt_iff]
  by_cases ctrl : k.isCtrl = true
  · obtain ⟨noShift, noAlt, -⟩ := ctrl_apart ctrl
    rw [if_pos ctrl, ctrl, noShift, noAlt]
    simp
  · by_cases shift : k.isShift = true
    · rw [if_neg ctrl, if_pos shift, Bool.eq_false_iff.2 ctrl, shift, (shift_apart shift).2.1]
      simp
    · by_cases alt : k.isAlt = true
      · rw [if_neg ctrl, if_neg shift, if_pos alt, Bool.eq_false_iff.2 ctrl, Bool.eq_false_iff.2 shift, alt]
        simp
      · rw [if_neg ctrl, if_neg shift, if_neg alt, Bool.eq_false_iff.2 ctrl, Bool.eq_false_iff.2 shift,
          Bool.eq_false_iff.2 alt]
        simp

/-! What a press does. -/

/-- The character that onMake finds in the map. -/
theorem curChar_eq (k : Key) (handled : Handled (codeOf k.ext k.code)) (shift caps : Bool) :
    (if shiftFor (codeOf k.ext k.code) shift caps then
        (keymap.getD (codeOf k.ext k.code &&& 0x00ff).toNat (0, 0)).2
      else (keymap.getD (codeOf k.ext k.code &&& 0x00ff).toNat (0, 0)).1) =
      ((charsOf k.ext k.code).map (charWith shift caps)).getD 0 :=
  k.all (P := fun ext code => Handled (codeOf ext code) → ∀ shift caps : Bool,
    (if shiftFor (codeOf ext code) shift caps then (keymap.getD (codeOf ext code &&& 0x00ff).toNat (0, 0)).2
      else (keymap.getD (codeOf ext code &&& 0x00ff).toNat (0, 0)).1) =
      ((charsOf ext code).map (charWith shift caps)).getD 0) (by decide +kernel) handled shift caps

theorem chars_handled {k : Key} (chars : (charsOf k.ext k.code).isSome) : Handled (codeOf k.ext k.code) :=
  k.all (P := fun ext code => (charsOf ext code).isSome → Handled (codeOf ext code)) (by decide +kernel) chars

theorem charWith_ne (k : Key) (shift caps : Bool) {chars : UInt8 × UInt8} (found : charsOf k.ext k.code = some chars) :
    charWith shift caps chars ≠ 0 := by
  have all := k.all (P := fun ext code => ∀ shift caps : Bool,
    (charsOf ext code).all fun chars => charWith shift caps chars != 0) (by decide +kernel) shift caps
  rw [found] at all
  exact bne_iff_ne.1 all

theorem press_char (idle : s.extScancode = false) {k : Key} {chars : UInt8 × UInt8}
    (found : charsOf k.ext k.code = some chars) : s.play (.press k) =
      if nextPos s.kbdBuf.head = s.kbdBuf.tail then s
      else { s with kbdBuf := s.kbdBuf.put (charWith s.shiftStatus s.capsLockStatus chars) } := by
  have handled := chars_handled (k := k) (by rw [found]; rfl)
  have value := curChar_eq k handled s.shiftStatus s.capsLockStatus
  rw [found] at value
  rw [press_eq idle, if_pos handled, Keyboard.onMake]
  simp only [value]
  exact if_pos (charWith_ne k _ _ found)

/-- onMake looks at the low byte of the code only, which tells the keys it is called for apart. -/
def LowByte (scancode : UInt16) : Prop :=
  (scancode &&& 0x00ff = ctrlLMake ↔ scancode = ctrlLMake ∨ scancode = ctrlRMake) ∧
  (scancode &&& 0x00ff = shiftLMake ∨ scancode &&& 0x00ff = shiftRMake ↔
    scancode = shiftLMake ∨ scancode = shiftRMake) ∧
  (scancode &&& 0x00ff = altLMake ∨ scancode &&& 0x00ff = altRMake ↔ scancode = altLMake ∨ scancode = altRMake) ∧
  (scancode &&& 0x00ff = capsLockMake ↔ scancode = capsLockMake)

instance (scancode : UInt16) : Decidable (LowByte scancode) := inferInstanceAs (Decidable (_ ∧ _))

theorem low_byte (k : Key) (handled : Handled (codeOf k.ext k.code)) : LowByte (codeOf k.ext k.code) :=
  k.all (P := fun ext code => Handled (codeOf ext code) → LowByte (codeOf ext code)) (by decide +kernel) handled

theorem plain_of {P : Key → Prop} {k : Key} (holds : P k)
    (fails : ∀ l ∈ [Key.shiftL, .shiftR, .ctrlL, .ctrlR, .altL, .altR, .capsLock], ¬P l) :
    k.isCtrl = false ∧ k.isShift = false ∧ k.isAlt = false ∧ k ≠ .capsLock := by
  simp only [List.forall_mem_cons, List.not_mem_nil, false_imp_iff, implies_true, and_true] at fails
  obtain ⟨shiftL, shiftR, ctrlL, ctrlR, altL, altR, capsLock⟩ := fails
  refine ⟨decide_eq_false ?_, decide_eq_false ?_, decide_eq_false ?_, ?_⟩
  · rintro (rfl | rfl)
    · exact ctrlL holds
    · exact ctrlR holds
  · rintro (rfl | rfl)
    · exact shiftL holds
    · exact shiftR holds
  · rintro (rfl | rfl)
    · exact altL holds
    · exact altR holds
  · rintro rfl
    exact capsLock holds

theorem press_other (idle : s.extScancode = false) {k : Key} (none_found : charsOf k.ext k.code = none) :
    s.play (.press k) =
      { s with ctrlStatus := s.ctrlStatus || k.isCtrl, shiftStatus := s.shiftStatus || k.isShift,
               altStatus := s.altStatus || k.isAlt,
               capsLockStatus := if k = .capsLock then !s.capsLockStatus else s.capsLockStatus,
               printed := if Handled (codeOf k.ext k.code) then s.printed else s.printed ++ ["unknown key\n"] } := by
  rw [press_eq idle]
  by_cases handled : Handled (codeOf k.ext k.code)
  · obtain ⟨ctrlLow, shiftLow, altLow, capsLow⟩ := low_byte k handled
    have value := curChar_eq k handled s.shiftStatus s.capsLockStatus
    rw [none_found] at value
    have caps_iff : codeOf k.ext k.code = capsLockMake ↔ k = .capsLock := codeOf_inj (l := .capsLock)
    rw [if_pos handled, if_pos handled, Keyboard.onMake]
    simp only [value, Option.map_none, Option.getD_none, or_self, ctrlLow, shiftLow, altLow, capsLow, ← isCtrl_iff, ← isShift_iff, ← isAlt_iff, caps_iff]
    rw [if_neg (by decide)]
    by_cases ctrl : k.isCtrl = true
    · obtain ⟨noShift, noAlt, noCaps⟩ := ctrl_apart ctrl
      rw [if_pos ctrl, if_neg noCaps, ctrl, noShift, noAlt]
      simp
    · by_cases shift : k.isShift = true
      · obtain ⟨noCtrl, noAlt, noCaps⟩ := shift_apart shift
        rw [if_neg ctrl, if_pos shift, if_neg noCaps, noCtrl, shift, noAlt]
        simp
      · by_cases alt : k.isAlt = true
        · obtain ⟨noCtrl, noShift, noCaps⟩ := alt_apart alt
          rw [if_neg ctrl, if_neg shift, if_pos alt, if_neg noCaps, noCtrl, noShift, alt]
          simp
        · rw [if_neg ctrl, if_neg shift, if_neg alt, Bool.eq_false_iff.2 ctrl, Bool.eq_false_iff.2 shift,
            Bool.eq_false_iff.2 alt]
          simp only [Bool.or_false]
          split <;> rfl
  · obtain ⟨noCtrl, noShift, noAlt, noCaps⟩ := plain_of (P := fun k => ¬Handled (codeOf k.ext k.code)) handled (by decide)
    rw [if_neg handled, if_neg handled, if_neg noCaps, noCtrl, noShift, noAlt]
    simp

/-! Whole runs. -/

def Key.twin (k : Key) : Option Key :=
  if k = .shiftL then some .shiftR else if k = .shiftR then some .shiftL
  else if k = .ctrlL then some .ctrlR else if k = .ctrlR then some .ctrlL
  else if k = .altL then some .altR else if k = .altR then some .altL
  else none

/-- The three flags tell whether one of their two keys is held. -/
def Agrees (s : Keyboard) (b : Board) : Prop :=
  s.shiftStatus = b.shiftHeld ∧ s.ctrlStatus = b.ctrlHeld ∧ s.altStatus = b.altHeld

def Keyboard.contents (s : Keyboard) : List UInt8 := ringContents bufsize s.kbdBuf.buf s.kbdBuf.head s.kbdBuf.tail

/-- A press stores the character of the key if there is room, and a thread takes the oldest one. -/
def Stored (s : Keyboard) (b : Board) : KeyEvent → Prop
  | .press k => (s.play (.press k)).contents =
      if nextPos s.kbdBuf.head = s.kbdBuf.tail then s.contents else s.contents ++ (b.typed k).toList
  | .release k => (s.play (.release k)).contents = s.contents
  | .getchar => (s.play .getchar).contents = s.contents.tail

/-- The flags and the buffer after every event of a run. -/
def Decodes (s : Keyboard) (b : Board) : List KeyEvent → Prop
  | [] => True
  | e :: es => Agrees (s.play e) (b.step e) ∧ Stored s b e ∧ Decodes (s.play e) (b.step e) es

/-- No key of a pair goes up while the other one is held. -/
def Alone (b : Board) (es : List KeyEvent) : Prop :=
  ∀ before k rest, es = before ++ .release k :: rest →
    ∀ t, k.twin = some t → (before.foldl Board.step b).held t = false

structure Tracks (s : Keyboard) (b : Board) : Prop where
  agrees : Agrees s b
  caps : s.capsLockStatus = b.caps
  idle : s.extScancode = false
  head_lt : s.kbdBuf.head < bufsize
  tail_lt : s.kbdBuf.tail < bufsize

theorem pair_press (held : Key → Bool) (k x y : Key) :
    (Function.update held k true x || Function.update held k true y) = ((held x || held y) || decide (k = x ∨ k = y)) := by
  rcases eq_or_ne x k with rfl | hx
  · simp
  · rcases eq_or_ne y k with rfl | hy
    · simp
    · simp [Function.update_of_ne hx, Function.update_of_ne hy, hx.symm, hy.symm]

theorem pair_release {held : Key → Bool} {k x y : Key} (left : k = x → held y = false) (right : k = y → held x = false) :
    (Function.update held k false x || Function.update held k false y) = ((held x || held y) && !decide (k = x ∨ k = y)) := by
  rcases eq_or_ne x k with rfl | hx
  · rcases eq_or_ne y x with rfl | hy
    · simp
    · simp [Function.update_of_ne hy, left rfl]
  · rcases eq_or_ne y k with rfl | hy
    · simp [Function.update_of_ne hx, right rfl]
    · simp [Function.update_of_ne hx, Function.update_of_ne hy, hx.symm, hy.symm]

theorem contents_put (h : Tracks s b) (room : nextPos s.kbdBuf.head ≠ s.kbdBuf.tail) (char : UInt8) :
    ({ s with kbdBuf := s.kbdBuf.put char } : Keyboard).contents = s.contents ++ [char] :=
  ringContents_put h.head_lt h.tail_lt room char

theorem contents_take (h : Tracks s b) : (s.play .getchar).contents = s.contents.tail := by
  show ringContents bufsize s.kbdBuf.take.buf s.kbdBuf.take.head s.kbdBuf.take.tail = _
  rw [IoQueue.take]
  by_cases empty : s.kbdBuf.head = s.kbdBuf.tail
  · have none_used : s.contents = [] := List.length_eq_zero_iff.1
      ((ringContents_length s.kbdBuf.buf).trans ((ringLength_zero h.head_lt h.tail_lt).2 empty))
    rw [if_pos empty]
    exact none_used.trans (by rw [none_used, List.tail_nil])
  · rw [if_neg empty, Keyboard.contents, ringContents_take s.kbdBuf.buf h.head_lt h.tail_lt empty, List.tail_cons]
    rfl

theorem shift_press (b : Board) (k : Key) : (b.step (.press k)).shiftHeld = (b.shiftHeld || k.isShift) :=
  pair_press b.held k _ _

theorem ctrl_press (b : Board) (k : Key) : (b.step (.press k)).ctrlHeld = (b.ctrlHeld || k.isCtrl) :=
  pair_press b.held k _ _

theorem alt_press (b : Board) (k : Key) : (b.step (.press k)).altHeld = (b.altHeld || k.isAlt) :=
  pair_press b.held k _ _

theorem press_tracks (h : Tracks s b) (k : Key) : Tracks (s.play (.press k)) (b.step (.press k)) ∧ Stored s b (.press k) := by
  obtain ⟨shift, ctrl, alt⟩ := h.agrees
  rw [Stored, Board.typed]
  cases found : charsOf k.ext k.code with
  | none =>
    rw [press_other h.idle found, Option.map_none, Option.toList_none, List.append_nil, ite_self]
    refine ⟨⟨⟨?_, ?_, ?_⟩, ?_, h.idle, h.head_lt, h.tail_lt⟩, rfl⟩
    · rw [shift_press, shift]
    · rw [ctrl_press, ctrl]
    · rw [alt_press, alt]
    · rw [h.caps]
      rfl
  | some chars =>
    obtain ⟨noCtrl, noShift, noAlt, noCaps⟩ :=
      plain_of (P := fun k => (charsOf k.ext k.code).isSome) (show (charsOf k.ext k.code).isSome by rw [found]; rfl) (by decide)
    have agrees : Agrees s (b.step (.press k)) := by
      refine ⟨?_, ?_, ?_⟩
      · rw [shift_press, noShift, Bool.or_false, shift]
      · rw [ctrl_press, noCtrl, Bool.or_false, ctrl]
      · rw [alt_press, noAlt, Bool.or_false, alt]
    have caps : s.capsLockStatus = (b.step (.press k)).caps := h.caps.trans (if_neg noCaps).symm
    rw [press_char h.idle found, Option.map_some, Option.toList_some, ← shift, ← h.caps]
    by_cases full : nextPos s.kbdBuf.head = s.kbdBuf.tail
    · rw [if_pos full, if_pos full]
      exact ⟨⟨agrees, caps, h.idle, h.head_lt, h.tail_lt⟩, rfl⟩
    · rw [if_neg full, if_neg full]
      exact ⟨⟨agrees, caps, h.idle, Nat.mod_lt _ (by decide), h.tail_lt⟩, contents_put h full _⟩

theorem release_tracks (h : Tracks s b) {k : Key} (alone : ∀ t, k.twin = some t → b.held t = false) :
    Tracks (s.play (.release k)) (b.step (.release k)) ∧ Stored s b (.release k) := by
  obtain ⟨shift, ctrl, alt⟩ := h.agrees
  rw [Stored, release_spec h.idle]
  refine ⟨⟨⟨?_, ?_, ?_⟩, h.caps, h.idle, h.head_lt, h.tail_lt⟩, rfl⟩
  · rw [shift]
    exact (pair_release (fun eq => alone _ (by rw [eq]; rfl)) fun eq => alone _ (by rw [eq]; rfl)).symm
  · rw [ctrl]
    exact (pair_release (fun eq => alone _ (by rw [eq]; rfl)) fun eq => alone _ (by rw [eq]; rfl)).symm
  · rw [alt]
    exact (pair_release (fun eq => alone _ (by rw [eq]; rfl)) fun eq => alone _ (by rw [eq]; rfl)).symm

theorem getchar_tracks (h : Tracks s b) : Tracks (s.play .getchar) (b.step .getchar) ∧ Stored s b .getchar := by
  refine ⟨⟨h.agrees, h.caps, h.idle, ?_, ?_⟩, contents_take h⟩
  · rw [Keyboard.play, IoQueue.take]
    split
    · exact h.head_lt
    · exact h.head_lt
  · rw [Keyboard.play, IoQueue.take]
    split
    · exact h.tail_lt
    · exact Nat.mod_lt _ (by decide)

theorem pair_lost {held : Key → Bool} {k t x y : Key} {flag : Bool} (pair : k = x ∧ t = y ∨ k = y ∧ t = x)
    (apart : x ≠ y) (kept : held t = true) :
    (flag && !decide (k = x ∨ k = y)) ≠ (Function.update held k false x || Function.update held k false y) := by
  rcases pair with ⟨rfl, rfl⟩ | ⟨rfl, rfl⟩
  · rw [Function.update_of_ne apart.symm, kept]
    simp
  · rw [Function.update_of_ne apart, kept]
    simp

/-- The flag of a pair is cleared although the other key is held. -/
theorem release_loses (h : Tracks s b) {k t : Key} (twin : k.twin = some t) (kept : b.held t = true) :
    ¬Agrees (s.play (.release k)) (b.step (.release k)) := by
  rintro ⟨shift, ctrl, alt⟩
  rw [release_spec h.idle] at shift ctrl alt
  rw [Key.twin] at twin
  split_ifs at twin with shiftL shiftR ctrlL ctrlR altL altR
  · obtain rfl := Option.some.inj twin
    exact pair_lost (Or.inl ⟨shiftL, rfl⟩) (show Key.shiftL ≠ .shiftR by decide) kept shift
  · obtain rfl := Option.some.inj twin
    exact pair_lost (Or.inr ⟨shiftR, rfl⟩) (show Key.shiftL ≠ .shiftR by decide) kept shift
  · obtain rfl := Option.some.inj twin
    exact pair_lost (Or.inl ⟨ctrlL, rfl⟩) (show Key.ctrlL ≠ .ctrlR by decide) kept ctrl
  · obtain rfl := Option.some.inj twin
    exact pair_lost (Or.inr ⟨ctrlR, rfl⟩) (show Key.ctrlL ≠ .ctrlR by decide) kept ctrl
  · obtain rfl := Option.some.inj twin
    exact pair_lost (Or.inl ⟨altL, rfl⟩) (show Key.altL ≠ .altR by decide) kept alt
  · obtain rfl := Option.some.inj twin
    exact pair_lost (Or.inr ⟨altR, rfl⟩) (show Key.altL ≠ .altR by decide) kept alt

theorem alone_cons (b : Board) (e : KeyEvent) (es : List KeyEvent) : Alone b (e :: es) ↔
    (∀ k, e = .release k → ∀ t, k.twin = some t → b.held t = false) ∧ Alone (b.step e) es := by
  constructor
  · intro all
    refine ⟨fun k eq => ?_, fun before k rest eq => ?_⟩
    · exact all [] k es (by rw [eq, List.nil_append])
    · exact all (e :: before) k rest (by rw [eq, List.cons_append])
  · rintro ⟨now, later⟩ before k rest eq
    cases before with
    | nil => exact now k (List.cons.inj eq).1
    | cons first before =>
      obtain ⟨rfl, tail⟩ := List.cons.inj eq
      exact later before k rest tail

theorem decodes_iff (h : Tracks s b) (es : List KeyEvent) : Decodes s b es ↔ Alone b es := by
  induction es generalizing s b with
  | nil => exact ⟨fun _ before k rest eq => absurd eq.symm (by simp), fun _ => trivial⟩
  | cons e es ih =>
    rw [Decodes, alone_cons]
    by_cases alone : ∀ k, e = .release k → ∀ t, k.twin = some t → b.held t = false
    · have step : Tracks (s.play e) (b.step e) ∧ Stored s b e := by
        cases e with
        | press k => exact press_tracks h k
        | release k => exact release_tracks h (alone k rfl)
        | getchar => exact getchar_tracks h
      rw [ih step.1]
      exact ⟨fun ⟨_, _, rest⟩ => ⟨alone, rest⟩, fun ⟨_, rest⟩ => ⟨step.1.agrees, step.2, rest⟩⟩
    · refine ⟨fun ⟨agrees, _⟩ => absurd agrees ?_, fun ⟨now, _⟩ => absurd now alone⟩
      push Not at alone
      obtain ⟨k, rfl, t, twin, held⟩ := alone
      exact release_loses h twin (Bool.not_eq_false _ ▸ held)

/-- The flags tell the keys held after every event, and the buffer gets the characters typed, exactly if
no shift, ctrl or alt key goes up while the other of its kind is held. -/
theorem keyboard_decodes (q : IoQueue) (printed : List String) (es : List KeyEvent) :
    Decodes (keyboardInit q printed) .idle es ↔ Alone .idle es :=
  decodes_iff ⟨⟨rfl, rfl, rfl⟩, rfl, rfl, Nat.zero_lt_succ _, Nat.zero_lt_succ _⟩ es

/-- Both shift keys go down and the left one comes up again. -/
theorem keyboard_loses_shift : ¬Decodes (keyboardInit ⟨⟨none, 0, 1, []⟩, none, none, fun _ => 0, 0, 0⟩ []) .idle
    [.press .shiftL, .press .shiftR, .release .shiftL] := by
  rintro ⟨-, -, -, -, ⟨shift, -, -⟩, -⟩
  exact absurd shift (by decide +kernel)

end Zhenxiang.Device
