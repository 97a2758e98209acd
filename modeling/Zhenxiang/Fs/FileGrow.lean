import Zhenxiang.Fs.FileRead

/-! The blocks that file_write takes for a growing file. -/
namespace Zhenxiang.Fs
open Lib Kernel

variable (P : Partition)

/-- How many bits of the block bitmap are clear. -/
def freeCount (bits : Nat → Bool) : Nat :=
  ((Finset.range (4096 * P.blockBitmapSects)).filter fun bit => bits bit = false).card

/-- Free blocks, each of them once. -/
structure FreeBits (s : FileSys) (new : List Nat) : Prop where
  nodup : new.Nodup
  free : ∀ bit ∈ new, BlockFree P s bit

def markBits (bits : Nat → Bool) (new : List Nat) : Nat → Bool := fun bit => bits bit || decide (bit ∈ new)

/-- The data area is the same. -/
def DataSame (d e : Buf) : Prop := ∀ k, 512 * P.dataStartLba ≤ k → e k = d k

/-- The state with other bits, another disk and another inode. -/
def FileSys.patch (s : FileSys) (bits : Nat → Bool) (disk : Buf) (o : Nat) (i : Inode) : FileSys :=
  { s with blockBitmap := bits, disk := disk }.setInode o i

/-- The addresses put at the positions from k on, below a limit. -/
def recordFrom (limit : Nat) (f : Nat → Nat) (k : Nat) (addrs : List Nat) : Nat → Nat :=
  fun j => if k ≤ j ∧ j < k + addrs.length ∧ j < limit then addrs.getD (j - k) 0 else f j

/-- The inode with the addresses of new blocks among its own. -/
def Inode.recordAt (i : Inode) (k : Nat) (addrs : List Nat) : Inode :=
  { i with iSectors := recordFrom 12 i.iSectors k addrs }

section Allocation
variable {P} {s t : FileSys} {o : Nat}

@[simp] theorem FileSys.patch_inode (s : FileSys) (bits : Nat → Bool) (disk : Buf) (o : Nat) (i : Inode) :
    (s.patch bits disk o i).inode o = i := FileSys.setInode_self ..

theorem FileSys.patch_patch (s : FileSys) (bits bits' : Nat → Bool) (disk disk' : Buf) (o : Nat) (i j : Inode) :
    (s.patch bits disk o i).patch bits' disk' o j = s.patch bits' disk' o j := by
  simp only [patch, setInode, Function.update_idem]

theorem FileSys.patch_self (s : FileSys) (o : Nat) : s.patch s.blockBitmap s.disk o (s.inode o) = s := by
  simp only [patch, setInode, Function.update_eq_self]

/-- A change of bits and disk alone. -/
theorem patch_same (s : FileSys) (bits : Nat → Bool) (d : Buf) (o : Nat) :
    { s with blockBitmap := bits, disk := d } = s.patch bits d o (s.inode o) := by
  simp only [FileSys.patch, FileSys.setInode, Function.update_eq_self]

theorem markBits_nil (bits : Nat → Bool) : markBits bits [] = bits := by
  funext bit
  simp [markBits]

theorem markBits_cons (bits : Nat → Bool) (a : Nat) (new : List Nat) :
    markBits (Function.update bits a true) new = markBits bits (a :: new) := by
  funext bit
  by_cases here : bit = a
  · simp [markBits, here]
  · simp [markBits, here]

theorem freeCount_update {bit : Nat} (clear : BlockFree P s bit) :
    freeCount P (Function.update s.blockBitmap bit true) + 1 = freeCount P s.blockBitmap := by
  have mem : bit ∈ (Finset.range (4096 * P.blockBitmapSects)).filter fun b => s.blockBitmap b = false :=
    Finset.mem_filter.2 ⟨Finset.mem_range.2 clear.1, clear.2⟩
  have rest : ((Finset.range (4096 * P.blockBitmapSects)).filter fun b => Function.update s.blockBitmap bit true b = false) =
      ((Finset.range (4096 * P.blockBitmapSects)).filter fun b => s.blockBitmap b = false).erase bit := by
    ext b
    by_cases here : b = bit
    · simp [here]
    · simp [here]
  rw [freeCount, rest]
  exact Finset.card_erase_add_one mem

theorem freeCount_zero : freeCount P s.blockBitmap = 0 ↔ ∀ bit, ¬ BlockFree P s bit := by
  rw [freeCount, Finset.card_eq_zero, Finset.filter_eq_empty_iff]
  constructor
  · intro none bit free
    exact none (Finset.mem_range.2 free.1) free.2
  · intro none bit inside clear
    exact none bit ⟨Finset.mem_range.1 inside, clear⟩

theorem BlockFree.of_mark {bit a : Nat} {d : Buf} {i : Inode}
    (free : BlockFree P (s.patch (Function.update s.blockBitmap a true) d o i) bit) : BlockFree P s bit ∧ bit ≠ a := by
  have clear : Function.update s.blockBitmap a true bit = false := free.2
  have other : bit ≠ a := by
    intro same
    rw [same, Function.update_self] at clear
    cases clear
  rw [Function.update_of_ne other] at clear
  exact ⟨⟨free.1, clear⟩, other⟩

theorem recordFrom_nil (limit : Nat) (f : Nat → Nat) (k : Nat) : recordFrom limit f k [] = f := by
  funext j
  rw [recordFrom, if_neg]
  simp only [List.length_nil]
  omega

theorem recordFrom_cons (limit : Nat) (f : Nat → Nat) (k a : Nat) (addrs : List Nat) :
    recordFrom limit (if k < limit then Function.update f k a else f) (k + 1) addrs =
      recordFrom limit f k (a :: addrs) := by
  funext j
  simp only [recordFrom, List.length_cons]
  by_cases here : j = k
  · subst here
    by_cases low : j < limit
    · simp [low]
    · simp [low]
  · have first : (if k < limit then Function.update f k a else f) j = f j := by
      split
      · exact Function.update_of_ne here ..
      · rfl
    rw [first]
    by_cases later : k + 1 ≤ j
    · have shift : j - k = j - (k + 1) + 1 := by omega
      rw [shift, List.getD_cons_succ]
      have same : (k + 1 ≤ j ∧ j < k + 1 + addrs.length ∧ j < limit) ↔ (k ≤ j ∧ j < k + (addrs.length + 1) ∧ j < limit) := by
        omega
      simp only [same]
    · rw [if_neg (by omega), if_neg (by omega)]

/-- What a loop of allocations that needs n blocks comes to: the addresses of the new blocks are
recorded, or all blocks are taken and it was too few. -/
inductive GrowOutcome (P : Partition) (s : FileSys) (o n k limit : Nat) (grown : List Nat → Inode) (b : Nat → Nat) :
    Option (Nat → Nat) → FileSys → Prop where
  | full (t : FileSys) (few : freeCount P s.blockBitmap < n) (all : freeCount P t.blockBitmap = 0)
      (same : freeCount P s.blockBitmap = 0 → t = s) : GrowOutcome P s o n k limit grown b none t
  | grown (new : List Nat) (d : Buf) (free : FreeBits P s new) (len : new.length = n) (data : DataSame P s.disk d) :
      GrowOutcome P s o n k limit grown b (some (recordFrom limit b k (new.map (P.dataStartLba + ·))))
        (s.patch (markBits s.blockBitmap new) d o (grown (new.map (P.dataStartLba + ·))))

/-- One block and its bit on the disk. -/
theorem FreeBits.cons {a : Nat} {d : Buf} {i : Inode} {new : List Nat} (clear : BlockFree P s a)
    (free : FreeBits P (s.patch (Function.update s.blockBitmap a true) d o i) new) : FreeBits P s (a :: new) where
  nodup := List.nodup_cons.2 ⟨fun mem => (free.free a mem).of_mark.2 rfl, free.nodup⟩
  free bit mem := by
    rcases List.mem_cons.1 mem with rfl | mem
    · exact clear
    · exact (free.free bit mem).of_mark.1

theorem FreeBits.nil : FreeBits P s [] := ⟨List.nodup_nil, fun _ mem => by cases mem⟩

theorem FreeBits.length_le {new : List Nat} (free : FreeBits P s new) : new.length ≤ freeCount P s.blockBitmap := by
  rw [← List.toFinset_card_of_nodup free.nodup]
  apply Finset.card_le_card
  intro bit mem
  have clear := free.free bit (List.mem_toFinset.1 mem)
  exact Finset.mem_filter.2 ⟨Finset.mem_range.2 clear.1, clear.2⟩

theorem DataSame.refl (d : Buf) : DataSame P d d := fun _ _ => rfl

theorem DataSame.trans {d e f : Buf} (h : DataSame P d e) (k : DataSame P e f) : DataSame P d f :=
  fun m hm => (k m hm).trans (h m hm)

theorem FreeOnDisk.mark (onDisk : FreeOnDisk P s) {a : Nat} {d : Buf} {i : Inode} :
    FreeOnDisk P (s.patch (Function.update s.blockBitmap a true) d o i) :=
  fun bit free => onDisk bit free.of_mark.1

/-- No blocks are needed. -/
theorem GrowOutcome.zero {k limit : Nat} {grown : List Nat → Inode} {b : Nat → Nat} (same : grown [] = s.inode o) :
    GrowOutcome P s o 0 k limit grown b (some b) s := by
  have done : GrowOutcome P s o 0 k limit grown b _ _ := .grown [] s.disk .nil rfl (.refl _)
  rwa [List.map_nil, recordFrom_nil, markBits_nil, same, FileSys.patch_self] at done

/-- What is left to do after the first of the blocks. -/
theorem GrowOutcome.cons {n k limit : Nat} {grown grown' : List Nat → Inode} {b : Nat → Nat} {a : Nat} {d : Buf} {i : Inode}
    (clear : BlockFree P s a) (data : DataSame P s.disk d)
    (next : ∀ addrs, grown (( P.dataStartLba + a) :: addrs) = grown' addrs) {r : Option (Nat → Nat)} {t : FileSys}
    (rest : GrowOutcome P (s.patch (Function.update s.blockBitmap a true) d o i) o n (k + 1) limit grown'
      (if k < limit then Function.update b k (P.dataStartLba + a) else b) r t) :
    GrowOutcome P s o (n + 1) k limit grown b r t := by
  have count := freeCount_update clear
  cases rest with
  | full t few all same =>
    have less : freeCount P (Function.update s.blockBitmap a true) < n := few
    exact .full t (by omega) all fun none => by omega
  | grown new d' free len data' =>
    have more : (a :: new).length = n + 1 := by rw [List.length_cons, len]
    have all : GrowOutcome P s o (n + 1) k limit grown b _ _ :=
      .grown (a :: new) d' (free.cons clear) more (data.trans data')
    rw [List.map_cons, ← recordFrom_cons, next, ← markBits_cons] at all
    rw [FileSys.patch_patch]
    exact all

/-- The second loop, whatever the positions; behind the inode's own blocks it records nothing. -/
theorem addCrossing_spec (fits : P.Fits) (n k : Nat) (b : Nat → Nat)
    (absent : ∀ j, k ≤ j → j < k + n → j < 12 → (s.inode o).iSectors j = 0) :
    wp (addCrossing P o n k b) (fun r t => GrowOutcome P s o n k 12 ((s.inode o).recordAt k) b r t)
      (fun _ => P.scanAsserts = true ∧ freeCount P s.blockBitmap < n) s := by
  induction n generalizing s k b with
  | zero =>
    unfold addCrossing
    rw [wp_pure]
    exact .zero (by rw [Inode.recordAt, recordFrom_nil])
  | succ n ih =>
    unfold addCrossing
    rw [wp_bind]
    apply wp_mono blockBitmapAlloc_spec
    · rintro r t (⟨rfl, rfl, none⟩ | ⟨a, clear, rfl, rfl⟩)
      · have zero := freeCount_zero.2 none
        exact (wp_pure _).2 (.full _ (by omega) zero fun _ => rfl)
      · have idx := clear.idx fits
        have count := freeCount_update clear
        dsimp only
        rw [idx, wp_ite]
        constructor
        · intro low
          have free : (s.inode o).iSectors k = 0 := absent k (Nat.le_refl k) (by omega) low
          rw [wp_bind, wp_get, wp_bind, wp_assert]
          refine ⟨fun _ => ?_, fun used => (used free).elim⟩
          rw [wp_bind, modifyInode, wp_modify, wp_bind]
          apply wp_mono (bitmapSync_spec fits clear.1) ?_ fun _ none => none.elim
          rintro - t ⟨d, rfl, data⟩
          have next : ∀ addrs, (s.inode o).recordAt k ((P.dataStartLba + a) :: addrs) =
              ((s.inode o).setSector k (P.dataStartLba + a)).recordAt (k + 1) addrs := by
            intro addrs
            rw [Inode.recordAt, ← recordFrom_cons, if_pos low]
            rfl
          apply wp_mono (ih (s := s.patch (Function.update s.blockBitmap a true) d o
            ((s.inode o).setSector k (P.dataStartLba + a))) (k + 1) _ ?_)
          · intro r t rest
            rw [FileSys.patch_inode] at rest
            have recorded : (if k < 12 then Function.update b k (P.dataStartLba + a) else b) =
                Function.update b k (P.dataStartLba + a) := if_pos low
            exact .cons clear data next (recorded ▸ rest)
          · rintro f ⟨on, few⟩
            have less : freeCount P (Function.update s.blockBitmap a true) < n := few
            exact ⟨on, by omega⟩
          · intro j from_next before high
            rw [FileSys.patch_inode, setSector_of_ne _ _ (by omega)]
            exact absent j (by omega) (by omega) high
        · intro high
          rw [wp_bind]
          apply wp_mono (bitmapSync_spec fits clear.1) ?_ fun _ none => none.elim
          rintro - t ⟨d, rfl, data⟩
          have next : ∀ addrs, (s.inode o).recordAt k ((P.dataStartLba + a) :: addrs) =
              (s.inode o).recordAt (k + 1) addrs := by
            intro addrs
            rw [Inode.recordAt, ← recordFrom_cons, if_neg high]
            rfl
          rw [patch_same]
          apply wp_mono (ih (k + 1) b ?_)
          · intro r t rest
            rw [FileSys.patch_inode] at rest
            have recorded : (if k < 12 then Function.update b k (P.dataStartLba + a) else b) = b := if_neg high
            exact .cons clear data next (recorded.symm ▸ rest)
          · rintro f ⟨on, few⟩
            have less : freeCount P (Function.update s.blockBitmap a true) < n := few
            exact ⟨on, by omega⟩
          · intro j from_next before high
            rw [FileSys.patch_inode]
            exact absent j (by omega) (by omega) high
    · rintro f ⟨-, on, none⟩
      have zero := freeCount_zero.2 none
      exact ⟨on, by omega⟩

/-- The first loop is the second one for positions among the inode's own. -/
theorem addDirect_eq (n k : Nat) (b : Nat → Nat) (low : k + n ≤ 12) : addDirect P o n k b = addCrossing P o n k b := by
  induction n generalizing k b with
  | zero => rfl
  | succ n ih =>
    have here : k < 12 := by omega
    unfold addDirect addCrossing
    simp only [if_pos here, ih (k + 1) _ (by omega)]

theorem addIndirect_spec (fits : P.Fits) (n k : Nat) (b : Nat → Nat) (room : k + n ≤ 140) :
    wp (addIndirect P n k b) (fun r t => GrowOutcome P s o n k 140 (fun _ => s.inode o) b r t)
      (fun _ => P.scanAsserts = true ∧ freeCount P s.blockBitmap < n) s := by
  induction n generalizing s k b with
  | zero =>
    unfold addIndirect
    rw [wp_pure]
    exact .zero rfl
  | succ n ih =>
    unfold addIndirect
    rw [wp_bind]
    apply wp_mono blockBitmapAlloc_spec
    · rintro r t (⟨rfl, rfl, none⟩ | ⟨a, clear, rfl, rfl⟩)
      · have zero := freeCount_zero.2 none
        exact (wp_pure _).2 (.full _ (by omega) zero fun _ => rfl)
      · have idx := clear.idx fits
        have count := freeCount_update clear
        have low : k < 140 := by omega
        dsimp only
        rw [idx, wp_bind]
        apply wp_mono (bitmapSync_spec fits clear.1) ?_ fun _ none => none.elim
        rintro - t ⟨d, rfl, data⟩
        rw [patch_same]
        apply wp_mono (ih (k + 1) _ (by omega))
        · intro r t rest
          rw [FileSys.patch_inode] at rest
          have recorded : (if k < 140 then Function.update b k (P.dataStartLba + a) else b) =
              Function.update b k (P.dataStartLba + a) := if_pos low
          exact .cons clear data (fun _ => rfl) (recorded ▸ rest)
        · rintro f ⟨on, few⟩
          have less : freeCount P (Function.update s.blockBitmap a true) < n := few
          exact ⟨on, by omega⟩
    · rintro f ⟨-, on, none⟩
      have zero := freeCount_zero.2 none
      exact ⟨on, by omega⟩

end Allocation
end Zhenxiang.Fs
