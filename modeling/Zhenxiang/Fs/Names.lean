import Zhenxiang.Fs.Resolve

/-! The names in a directory: filename has 16 bytes, and a name of 16 bytes is accepted too. -/
namespace Zhenxiang.Fs
open Lib Kernel

/-! What strcmp makes of an entry. -/

/-- A name that create_dir_entry accepts. -/
structure NameFits (name : CStr) : Prop where
  accepted : name.length ≤ maxFileNameLen
  no_zero : 0 ∉ name

/-- The bytes of the entry lie at an offset. -/
def EntryAt (b : Buf) (o : Nat) (de : DirEntry) : Prop := ∀ m < dirEntrySize, b (o + m) = encodeEntry de m

/-- The name in the entry ends: in filename itself, or with the lowest byte of i_no. -/
def NameEnds (name : CStr) (iNo : Nat) : Prop := name.length < maxFileNameLen ∨ iNo % 256 = 0

instance (name : CStr) (iNo : Nat) : Decidable (NameEnds name iNo) := inferInstanceAs (Decidable (_ ∨ _))

section Strings
variable {b : Buf} {o : Nat} {name : CStr} {de : DirEntry}

theorem streq_iff : streq b o name = true ↔ (∀ j < name.length, b (o + j) = name.getD j 0) ∧ b (o + name.length) = 0 := by
  induction name generalizing o with
  | nil => simp [streq]
  | cons c cs ih =>
    have shift (j : Nat) : o + 1 + j = o + (j + 1) := by omega
    rw [streq, Bool.and_eq_true, beq_iff_eq, ih]
    simp only [shift]
    constructor
    · rintro ⟨first, rest, ends⟩
      refine ⟨fun j hj => ?_, ends⟩
      cases j with
      | zero => exact first
      | succ j => exact rest j (Nat.lt_of_succ_lt_succ hj)
    · rintro ⟨all, ends⟩
      exact ⟨all 0 (Nat.succ_pos _), fun j hj => all (j + 1) (Nat.succ_lt_succ hj), ends⟩

theorem getD_ne_zero {j : Nat} (no_zero : 0 ∉ name) (hj : j < name.length) : name.getD j 0 ≠ 0 := by
  rw [List.getD_eq_getElem _ _ hj]
  exact fun zero => no_zero (zero ▸ List.getElem_mem hj)

theorem encodeEntry_name {m : Nat} (hm : m < 16) : encodeEntry de m = de.filename.getD m 0 := if_pos hm

theorem encodeEntry_behind : encodeEntry de 16 = 0 ↔ de.iNo % 256 = 0 := by
  have low : encodeEntry de 16 = byteAt de.iNo 0 := rfl
  rw [low, ← UInt8.toNat_inj, byteAt_toNat, Nat.pow_zero, Nat.div_one]
  rfl

/-- strcmp takes the entry for its own name, if that ends, and for no other. -/
theorem streq_entry (h : EntryAt b o de) (own : NameFits de.filename) (fits : NameFits name) :
    streq b o name = true ↔ name = de.filename ∧ NameEnds de.filename de.iNo := by
  have stored (m : Nat) (hm : m < 16) : b (o + m) = de.filename.getD m 0 := by
    rw [h m (hm.trans (by decide)), encodeEntry_name hm]
  have room : de.filename.length ≤ 16 := own.accepted
  have room' : name.length ≤ 16 := fits.accepted
  rw [streq_iff]
  constructor
  · rintro ⟨same, ends⟩
    have len : name.length = de.filename.length := by
      rcases Nat.lt_trichotomy name.length de.filename.length with less | equal | more
      · rw [stored _ (by omega)] at ends
        exact (getD_ne_zero own.no_zero less ends).elim
      · exact equal
      · have byte := same _ more
        rw [stored _ (by omega), List.getD_eq_default _ _ (Nat.le_refl _)] at byte
        exact (getD_ne_zero fits.no_zero more byte.symm).elim
    refine ⟨List.ext_getElem len fun j hj hj' => ?_, ?_⟩
    · have byte := same j hj
      rw [stored j (by omega), List.getD_eq_getElem _ _ hj, List.getD_eq_getElem _ _ hj'] at byte
      exact byte.symm
    · rcases Nat.lt_or_eq_of_le own.accepted with short | full
      · exact .inl short
      · rw [len, full] at ends
        exact .inr (encodeEntry_behind.1 ((h 16 (by decide)).symm.trans ends))
  · rintro ⟨rfl, ends⟩
    refine ⟨fun j hj => stored j (by omega), ?_⟩
    rcases Nat.lt_or_eq_of_le room with short | full
    · rw [stored _ short, List.getD_eq_default _ _ (Nat.le_refl _)]
    · rw [full, h 16 (by decide), encodeEntry_behind]
      exact ends.resolve_left (by rw [full]; decide)

end Strings

/-! Slots. -/

/-- The address of a block and an index in it. -/
abbrev Slot := Nat × Nat

/-- The slot is in use in the directory. -/
def SlotUsed (disk : Buf) (i : Inode) (slot : Slot) : Prop := ∃ k, blockAddrs disk i k = slot.1 ∧ LiveAt disk i k slot.2

def namedAt (disk : Buf) (i : Inode) (name : CStr) (k : Nat) : Option Slot :=
  if blockAddrs disk i k = 0 then none
  else (findEntry (blockAt disk i k) name).map fun idx => (blockAddrs disk i k, idx)

/-- The first slot that strcmp takes for the name, in use or not. -/
def firstNamed (disk : Buf) (i : Inode) (name : CStr) : Option Slot := (List.range 140).findSome? (namedAt disk i name)

/-- The inode number and the type in a slot. -/
def slotFields (disk : Buf) (slot : Slot) : Nat × Nat :=
  (entryINo (sector disk slot.1) slot.2, entryFType (sector disk slot.1) slot.2)

/-- The positions before k have blocks without a free slot. -/
def FullBefore (s : FileSys) (i : Inode) (k : Nat) : Prop :=
  ∀ j < k, i.iSectors j ≠ 0 ∧ freeEntry (sector s.disk (i.iSectors j)) = none

/-- A slot that comes before the first free one answers to the name. -/
def AnsweredBefore (s : FileSys) (i : Inode) (name : CStr) : Prop :=
  ∃ k < 12, ∃ idx < dirEntrysPerSec, FullBefore s i k ∧ i.iSectors k ≠ 0 ∧
    (∀ m ≤ idx, entryFType (sector s.disk (i.iSectors k)) m ≠ ftUnknown) ∧
    entryNamed (sector s.disk (i.iSectors k)) idx name = true

/-- The slot is in use now and was not before. -/
def NewSlot (s t : FileSys) (o : Nat) (slot : Slot) : Prop :=
  SlotUsed t.disk (t.inode o) slot ∧ ¬ SlotUsed s.disk (s.inode o) slot

/-- There is one new slot; a search for n1 returns it, with its number and type, and one for n2
returns nothing or another slot. -/
def NamesKept (s t : FileSys) (dir : Dir) (n1 n2 : CStr) (iNo fType : Nat) : Prop :=
  ∃ slot, (∀ other, NewSlot s t (s.inodeOf dir) other ↔ other = slot) ∧
    (firstNamed t.disk (t.inode (s.inodeOf dir)) n1 = some slot ∧
      Succeeds (searchDirEntry dir n1) (fun r _ => r = some (iNo, fType)) t) ∧
    (firstNamed t.disk (t.inode (s.inodeOf dir)) n2 ≠ some slot ∧
      Returns (searchDirEntry dir n2) (fun r _ => r = none ∨
        r = (firstNamed t.disk (t.inode (s.inodeOf dir)) n2).map (slotFields t.disk)) t)

section Search
variable {s t u : FileSys} {disk d b : Buf} {i j : Inode} {name : CStr} {de : DirEntry} {k idx lba : Nat}

theorem findSome?_range {α : Type} (f : Nat → Option α) (n : Nat) (a : α) :
    (List.range n).findSome? f = some a ↔ ∃ k < n, f k = some a ∧ ∀ m < k, f m = none := by
  induction n with
  | zero => simp
  | succ n ih =>
    rw [List.range_succ, List.findSome?_append, List.findSome?_singleton]
    cases front : (List.range n).findSome? f with
    | some c =>
      rw [Option.some_or, ← front, ih]
      constructor
      · rintro ⟨k, hk, here⟩
        exact ⟨k, Nat.lt_succ_of_lt hk, here⟩
      · rintro ⟨k, hk, here, before⟩
        rcases Nat.lt_succ_iff_lt_or_eq.1 hk with less | rfl
        · exact ⟨k, less, here, before⟩
        · rw [List.findSome?_eq_none_iff.2 fun m hm => before m (List.mem_range.1 hm)] at front
          cases front
    | none =>
      have none_there : ∀ m < n, f m = none := fun m hm => List.findSome?_eq_none_iff.1 front m (List.mem_range.2 hm)
      rw [Option.none_or]
      constructor
      · exact fun here => ⟨n, Nat.lt_succ_self n, here, none_there⟩
      · rintro ⟨k, hk, here, -⟩
        rcases Nat.lt_succ_iff_lt_or_eq.1 hk with less | rfl
        · rw [none_there k less] at here
          cases here
        · exact here

theorem findEntry_eq : findEntry b name = some idx ↔
    idx < dirEntrysPerSec ∧ entryNamed b idx name = true ∧ ∀ m < idx, entryNamed b m name = false := by
  rw [findEntry, List.find?_range_eq_some]
  simp only [List.mem_range, Bool.not_eq_eq_eq_not, Bool.not_true]
  tauto

/-- search_dir_entry returns the fields of that slot. -/
theorem foundAt_named (hk : k < 140) :
    foundAt (collected disk i) disk name k = (namedAt disk i name k).map (slotFields disk) := by
  rw [foundAt, namedAt, collected_eq hk]
  split
  · rfl
  · rw [Option.map_map]
    rfl

theorem findSome?_foundAt : (List.range' 0 140).findSome? (foundAt (collected disk i) disk name) =
    (firstNamed disk i name).map (slotFields disk) := by
  rw [firstNamed, List.map_findSome?, ← List.range_eq_range']
  refine Option.ext fun found => ?_
  rw [findSome?_range, findSome?_range]
  refine exists_congr fun k => and_congr_right fun hk => ?_
  rw [foundAt_named hk]
  refine and_congr_right fun _ => forall₂_congr fun m hm => ?_
  rw [foundAt_named (hm.trans hk)]
  rfl

/-- The entry is in the slot (lba, idx) of the disk d and the inode j, which was the first free one. -/
structure Placed (s : FileSys) (i : Inode) (de : DirEntry) (d : Buf) (j : Inode) (k idx lba : Nat) : Prop where
  position : k ≤ 12
  index : idx < dirEntrysPerSec
  addr : blockAddrs d j k = lba
  there : lba ≠ 0
  entry : EntryAt (sector d lba) (dirEntrySize * idx) de
  full : FullBefore s i k
  stop : k < 12 → i.iSectors k = 0 ∨ freeEntry (sector s.disk (i.iSectors k)) = some idx
  before : ∀ m < k, blockAddrs d j m = i.iSectors m ∧ sector d (i.iSectors m) = sector s.disk (i.iSectors m)
  apart : ∀ m < k, i.iSectors m ≠ lba
  earlier : ∀ m < idx, k < 12 ∧ i.iSectors k = lba ∧ ∀ x < dirEntrySize,
    sector d lba (dirEntrySize * m + x) = sector s.disk lba (dirEntrySize * m + x)
  blocks : ∀ m < 140, blockAddrs d j m ≤ maxLba
  table : j.iSectors 12 ≤ maxLba
  fresh : ¬ SlotUsed s.disk i (lba, idx)
  only : ∀ slot, SlotUsed d j slot → slot = (lba, idx) ∨ SlotUsed s.disk i slot

theorem entryNamed_congr {b c : Buf} {m : Nat} (same : ∀ x < dirEntrySize, b (dirEntrySize * m + x) = c (dirEntrySize * m + x))
    (fits : NameFits name) : entryNamed b m name = entryNamed c m name := by
  have room : name.length < dirEntrySize := Nat.lt_of_le_of_lt fits.accepted (by decide)
  rw [Bool.eq_iff_iff, entryNamed, entryNamed, streq_iff, streq_iff, same _ room]
  refine and_congr_left fun _ => forall₂_congr fun j hj => ?_
  rw [same j (hj.trans room)]

theorem FullBefore.used (full : FullBefore s i k) {m idx : Nat} (hm : m < k) (index : idx < dirEntrysPerSec) :
    entryFType (sector s.disk (i.iSectors m)) idx ≠ ftUnknown := by
  simpa using List.find?_eq_none.1 (full m hm).2 idx (List.mem_range.2 index)

/-- A search returns the new slot when it answers to the name and no slot before it does. -/
theorem Placed.first (h : Placed s i de d j k idx lba) (fits : NameFits name) :
    firstNamed d j name = some (lba, idx) ↔
      entryNamed (sector d lba) idx name = true ∧ ¬ AnsweredBefore s i name := by
  obtain ⟨position, index, addr, there, -, full, stop, before, apart, earlier, -, -, -, -⟩ := h
  have position' : k < 140 := by omega
  have at_k : namedAt d j name k = (findEntry (sector d lba) name).map fun idx => (lba, idx) := by
    rw [namedAt, blockAt, addr, if_neg there]
  have at_before (m : Nat) (hm : m < k) : namedAt d j name m =
      (findEntry (sector s.disk (i.iSectors m)) name).map fun idx => (i.iSectors m, idx) := by
    rw [namedAt, blockAt, (before m hm).1, if_neg (full m hm).1, (before m hm).2]
  rw [firstNamed, findSome?_range]
  constructor
  · rintro ⟨m, hm, here, none_before⟩
    have found : findEntry (sector d lba) name = some idx := by
      rw [namedAt] at here
      split at here
      · cases here
      · obtain ⟨x, found, same⟩ := Option.map_eq_some_iff.1 here
        obtain ⟨rfl, rfl⟩ := Prod.mk.inj same
        exact found
    obtain ⟨-, named, first⟩ := findEntry_eq.1 found
    have low : m ≤ k := by
      by_contra later
      have none_at := none_before k (by omega)
      rw [at_k, found] at none_at
      cases none_at
    have none_there (m' : Nat) (hm' : m' < k) : findEntry (sector s.disk (i.iSectors m')) name = none := by
      rcases Nat.lt_or_eq_of_le low with less | rfl
      · rw [at_before m less] at here
        obtain ⟨x, -, same⟩ := Option.map_eq_some_iff.1 here
        exact (apart m less (Prod.mk.inj same).1).elim
      · exact Option.map_eq_none_iff.1 ((at_before m' hm').symm.trans (none_before m' hm'))
    refine ⟨named, ?_⟩
    rintro ⟨k', hk', idx', index', full', there', used, named'⟩
    rcases Nat.lt_trichotomy k' k with less | rfl | more
    · have unnamed := List.find?_eq_none.1 (none_there k' less) idx' (List.mem_range.2 index')
      exact unnamed named'
    · rcases stop hk' with absent | free
      · exact there' absent
      · have unused : entryFType (sector s.disk (i.iSectors k')) idx = ftUnknown := by
          simpa using List.find?_some free
        have less : idx' < idx := by
          by_contra behind
          exact used idx (Nat.le_of_not_lt behind) unused
        obtain ⟨-, same, bytes⟩ := earlier idx' less
        have answers := first idx' less
        rw [entryNamed_congr bytes fits, ← same, named'] at answers
        cases answers
    · rcases stop (by omega) with absent | free
      · exact (full' k more).1 absent
      · rw [(full' k more).2] at free
        cases free
  · rintro ⟨named, unanswered⟩
    refine ⟨k, position', ?_, fun m hm => ?_⟩
    · rw [at_k, findEntry_eq.2 ⟨index, named, fun m hm => ?_⟩]
      · rfl
      · obtain ⟨low, same, bytes⟩ := earlier m hm
        rw [entryNamed_congr bytes fits, ← Bool.not_eq_true]
        intro answers
        refine unanswered ⟨k, low, m, hm.trans index, full, same ▸ there, fun x hx => ?_, same ▸ answers⟩
        rcases stop low with absent | free
        · exact (there (same ▸ absent)).elim
        · have unused := (List.find?_range_eq_some.1 free).2.2 x (by omega)
          simpa using unused
    · rw [at_before m hm]
      refine Option.map_eq_none_iff.2 (List.find?_eq_none.2 fun x hx answers => ?_)
      have index' := List.mem_range.1 hx
      exact unanswered ⟨m, by omega, x, index', fun j hj => full j (hj.trans hm), (full m hm).1,
        fun y hy => full.used hm (by omega), answers⟩

theorem DirFits.block_low {P : Partition} (wf : DirFits P s i) {m : Nat} (hm : m < 140) : blockAddrs s.disk i m ≤ maxLba := by
  by_cases absent : blockAddrs s.disk i m = 0
  · exact absent ▸ Nat.zero_le _
  · exact (wf.blocks m hm absent).disk

theorem DirFits.table_low {P : Partition} (wf : DirFits P s i) : i.iSectors 12 ≤ maxLba := by
  by_cases absent : i.iSectors 12 = 0
  · exact absent ▸ Nat.zero_le _
  · exact (wf.table absent).disk

/-- A free slot of a block of the directory. -/
theorem slot_placed {P : Partition} (wf : DirFits P s i) (de : DirEntry) (size : Nat) (hk : k < 12) (full : FullBefore s i k)
    (there : i.iSectors k ≠ 0) (clear : freeEntry (sector s.disk (i.iSectors k)) = some idx) :
    Placed s i de (blit s.disk (512 * i.iSectors k + dirEntrySize * idx) dirEntrySize (encodeEntry de))
      { i with iSize := size } k idx (i.iSectors k) := by
  have slot := List.mem_range.1 (List.mem_of_find?_eq_some clear)
  have unused : entryFType (sector s.disk (i.iSectors k)) idx = ftUnknown := by simpa using List.find?_some clear
  have room : dirEntrySize * idx + dirEntrySize ≤ 512 := by
    simp only [dirEntrysPerSec, dirEntrySize] at slot ⊢
    omega
  have at_k : blockAddrs s.disk i k = i.iSectors k := if_pos hk
  generalize disk : blit s.disk (512 * i.iSectors k + dirEntrySize * idx) dirEntrySize (encodeEntry de) = d
  have here : sector d (i.iSectors k) = blit (sector s.disk (i.iSectors k)) (dirEntrySize * idx) dirEntrySize (encodeEntry de) := by
    rw [← disk, sector_blit_same room]
  have others {lba : Nat} (other : lba ≠ i.iSectors k) : sector d lba = sector s.disk lba := by
    rw [← disk]
    exact sector_blit_other room other
  have addrs (m : Nat) (hm : m < 140) : blockAddrs d { i with iSize := size } m = blockAddrs s.disk i m := by
    by_cases low : m < 12
    · rw [blockAddrs, blockAddrs, if_pos low, if_pos low]
    · apply blockAddrs_indirect (Nat.le_of_not_lt low) hm rfl
      exact fun _ => others fun he => wf.apart k (by omega) (at_k ▸ there) (at_k.trans he.symm)
  have outside {m x : Nat} (other : m ≠ idx) (hx : x < dirEntrySize) :
      sector d (i.iSectors k) (dirEntrySize * m + x) = sector s.disk (i.iSectors k) (dirEntrySize * m + x) := by
    rw [here]
    apply blit_of_not_mem
    simp only [dirEntrySize] at hx ⊢
    omega
  have apart (m : Nat) (hm : m < k) : i.iSectors m ≠ i.iSectors k := by
    intro he
    have at_m : blockAddrs s.disk i m = i.iSectors m := if_pos (hm.trans hk)
    exact Nat.ne_of_lt hm (wf.once m (by omega) k (by omega) (at_m ▸ (full m hm).1) (at_m.trans (he.trans at_k.symm)))
  constructor
  · exact hk.le
  · exact slot
  · exact (addrs k (by omega)).trans at_k
  · exact there
  · intro m hm
    rw [here, blit_of_mem (Nat.le_add_right _ _) (Nat.add_lt_add_left hm _), Nat.add_sub_cancel_left]
  · exact full
  · exact fun _ => .inr clear
  · intro m hm
    exact ⟨(addrs m (by omega)).trans (if_pos (hm.trans hk)), others (apart m hm)⟩
  · exact apart
  · exact fun m hm => ⟨hk, rfl, fun x hx => outside (Nat.ne_of_lt hm) hx⟩
  · exact fun m hm => (addrs m hm).trans_le (wf.block_low hm)
  · exact wf.table_low
  · rintro ⟨m, addr, live⟩
    have used := live.used
    rw [blockAt, addr, unused] at used
    exact used rfl
  · rintro ⟨lba, x⟩ ⟨m, addr, live⟩
    have used := live.used
    rw [blockAt] at used
    rw [addrs m live.position] at addr used
    have there' : blockAddrs s.disk i m ≠ 0 := addrs m live.position ▸ live.there
    by_cases same : blockAddrs s.disk i m = i.iSectors k
    · by_cases at_idx : x = idx
      · exact .inl (Prod.ext (addr.symm.trans same) at_idx)
      · refine .inr ⟨m, addr, live.position, live.index, there', ?_⟩
        have kind : entryFType (sector d (i.iSectors k)) x = entryFType (sector s.disk (i.iSectors k)) x := by
          apply word_congr
          intro y hy
          rw [Nat.add_assoc]
          exact outside at_idx (by simp only [dirEntrySize]; omega)
        rw [same] at used
        rw [blockAt, same, ← kind]
        exact used
    · rw [others same] at used
      exact .inr ⟨m, addr, live.position, live.index, there', used⟩

/-- The first slot of a new block. -/
theorem block_placed {P : Partition} (parts : P.Fits) (wf : DirFits P s i) {bit : Nat} (hk : k ≤ 12) (full : FullBefore s i k)
    (absent : k < 12 → i.iSectors k = 0) (clear : BlockFree P s bit) (low : P.dataStartLba + bit ≤ maxLba) (addr : blockAddrs d j k = P.dataStartLba + bit)
    (block : ∀ x < 512, sector d (P.dataStartLba + bit) x = newBlock de x)
    (addrs : ∀ m < 140, m ≠ k → blockAddrs d j m = blockAddrs s.disk i m ∨ k < m ∧ blockAddrs d j m = 0)
    (kept : ∀ lba, BlockUsed P s lba → sector d lba = sector s.disk lba) (table : j.iSectors 12 ≤ maxLba) :
    Placed s i de d j k 0 (P.dataStartLba + bit) := by
  have own (m : Nat) (hm : m < k) : blockAddrs s.disk i m = i.iSectors m := if_pos (hm.trans_le hk)
  have used (m : Nat) (hm : m < k) : BlockUsed P s (i.iSectors m) := by
    have there := (full m hm).1
    rw [← own m hm] at there ⊢
    exact wf.blocks m (by omega) there
  constructor
  · exact hk
  · decide
  · exact addr
  · exact parts.start bit
  · intro m hm
    rw [block _ (by simp only [dirEntrySize] at hm ⊢; omega), newBlock, blit_of_mem (Nat.zero_le _) (by omega)]
    congr 1
    omega
  · exact full
  · exact fun hk => .inl (absent hk)
  · intro m hm
    refine ⟨?_, kept _ (used m hm)⟩
    rw [← own m hm]
    exact (addrs m (by omega) (Nat.ne_of_lt hm)).resolve_right fun behind => Nat.lt_asymm hm behind.1
  · exact fun m hm => (used m hm).ne_free clear
  · exact fun m hm => (Nat.not_lt_zero m hm).elim
  · intro m hm
    by_cases here : m = k
    · rw [here, addr]
      exact low
    · rcases addrs m hm here with same | ⟨-, gone⟩
      · exact same ▸ wf.block_low hm
      · exact gone ▸ Nat.zero_le _
  · exact table
  · rintro ⟨m, addr', live⟩
    exact (wf.blocks m live.position live.there).ne_free clear addr'
  · rintro ⟨lba, x⟩ ⟨m, addr', live⟩
    have index := live.index
    have live_used := live.used
    rw [blockAt] at live_used
    by_cases here : m = k
    · rw [here, addr] at addr' live_used
      by_cases first : x = 0
      · exact .inl (Prod.ext addr'.symm first)
      · have zero : entryFType (sector d (P.dataStartLba + bit)) x = word (fun _ => 0) (dirEntrySize * x + 20) := by
          apply word_congr
          intro y hy
          have inside : dirEntrySize * x + 20 + y < 512 := by
            simp only [dirEntrysPerSec, dirEntrySize] at index ⊢
            omega
          rw [block _ inside, newBlock, blit_of_not_mem]
          simp only [dirEntrySize]
          omega
        exact (live_used zero).elim
    · rcases addrs m live.position here with same | ⟨-, gone⟩
      · have there' : blockAddrs s.disk i m ≠ 0 := same ▸ live.there
        rw [same] at addr' live_used
        rw [kept _ (wf.blocks m live.position there')] at live_used
        exact .inr ⟨m, addr', live.position, index, there', live_used⟩
      · exact (live.there gone).elim

theorem sector_newBlock {lba x : Nat} (hx : x < 512) : sector (blit disk (512 * lba) 512 (newBlock de)) lba x = newBlock de x := by
  have low : x < 512 * 1 := by omega
  rw [sector, if_pos low, blit_of_mem (Nat.le_add_right _ _) (by omega), Nat.add_sub_cancel_left]

/-- What a successful sync_dir_entry leaves behind. -/
def Stores (s : FileSys) (o : Nat) (i : Inode) (de : DirEntry) (t : FileSys) : Prop :=
  (∃ k idx lba, Placed s i de t.disk (t.inode o) k idx lba) ∧ ∃ bits disk j, t = s.withEntry bits disk o j

theorem insertEntry_stores {P : Partition} {o : Nat} (fits : P.Fits) (wf : DirFits P s i) (at_o : s.inode o = i) (n : Nat) :
    ∀ k, n + k = 140 → k ≤ 12 → FullBefore s i k →
      Returns (insertEntry P o de (fun k => if k < 12 then i.iSectors k else 0) n k)
        (fun added t => added = true → Stores s o i de t) s := by
  induction n with
  | zero =>
    intro k rounds low _
    omega
  | succ n ih =>
    intro k rounds low before
    rw [insertEntry, Returns, wp_ite]
    rcases Nat.lt_or_eq_of_le low with hk | rfl
    · rw [if_pos hk]
      constructor
      · intro absent
        rw [wp_bind]
        refine wp_mono (growDirect_spec fits at_o hk _) ?_ fun _ _ => trivial
        rintro r t (⟨rfl, few⟩ | ⟨bit, d, clear, rfl, data, rfl⟩)
        · exact (wp_pure _).2 fun out => (Bool.false_ne_true out).elim
        · refine wp_storeNew (fun on_disk => ?_) fun _ => trivial
          rw [withEntry_after]
          refine fun _ => ⟨⟨k, 0, P.dataStartLba + bit, ?_⟩, _, _, _, rfl⟩
          rw [withEntry_inode]
          have kept (lba : Nat) (used : BlockUsed P s lba) :
              sector (blit d (512 * (P.dataStartLba + bit)) 512 (newBlock de)) lba = sector s.disk lba :=
            sector_kept data used clear
          apply block_placed fits wf low before (fun _ => absent) clear on_disk
          · exact (if_pos hk).trans (setSector_self ..)
          · exact fun x hx => sector_newBlock hx
          · intro m hm other
            by_cases low_m : m < 12
            · left
              rw [blockAddrs, blockAddrs, if_pos low_m, if_pos low_m]
              exact setSector_of_ne i _ other
            · left
              apply blockAddrs_indirect (Nat.le_of_not_lt low_m) hm
              · exact setSector_of_ne i _ (by omega)
              · exact fun table => kept _ (wf.table table)
          · exact kept
          · exact (setSector_of_ne i _ (by omega)).trans_le wf.table_low
      · intro there
        have addr : blockAddrs s.disk i k = i.iSectors k := if_pos hk
        have lba := (wf.blocks k (by omega) (by rwa [addr])).disk
        rw [addr] at lba
        rw [wp_bind, wp_readSector lba]
        cases clear : freeEntry (sector s.disk (i.iSectors k)) with
        | some idx =>
          have slot := List.mem_range.1 (List.mem_of_find?_eq_some clear)
          have room : dirEntrySize * idx + dirEntrySize ≤ 512 := by
            simp only [dirEntrysPerSec, dirEntrySize] at slot ⊢
            omega
          dsimp only
          rw [wp_bind, wp_ideWrite_iff lba (by decide), modifyInode, wp_bind, wp_modify, wp_pure, blit_sector room]
          have placed := slot_placed wf de (i.iSize + dirEntrySize) hk before there clear
          refine fun _ => ⟨⟨k, idx, i.iSectors k, ?_⟩, s.blockBitmap,
            blit s.disk (512 * i.iSectors k + dirEntrySize * idx) dirEntrySize (encodeEntry de), i, ?_⟩
          · dsimp only
            rw [FileSys.setInode_self, at_o]
            exact placed
          · dsimp only
            rw [at_o]
            rfl
        | none =>
          dsimp only
          apply ih (k + 1) (by omega) hk
          intro j hj
          rcases Nat.lt_succ_iff_lt_or_eq.1 hj with earlier | rfl
          · exact before j earlier
          · exact ⟨there, clear⟩
    · rw [if_neg (by decide)]
      refine ⟨fun _ => ?_, fun there => (there rfl).elim⟩
      rw [wp_bind]
      refine wp_mono (growIndirect_spec fits at_o before) ?_ fun _ _ => trivial
      rintro r t (⟨rfl, few⟩ | ⟨a, b, d, bits, clear, low_a, other, apart, rfl, data, rfl⟩)
      · exact (wp_pure _).2 fun out => (Bool.false_ne_true out).elim
      · refine wp_storeNew (fun low_b => ?_) fun _ => trivial
        rw [withEntry_after]
        refine fun _ => ⟨⟨12, 0, P.dataStartLba + b, ?_⟩, _, _, _, rfl⟩
        rw [withEntry_inode]
        have addrs (m : Nat) (hm : 12 ≤ m) (room : m < 140) :=
          newTable_addrs fits i de d (i.iSize + dirEntrySize) low_b apart hm room
        apply block_placed fits wf low before (fun less => (Nat.lt_irrefl _ less).elim) other low_b
        · exact (addrs 12 (Nat.le_refl _) (by decide)).trans (if_pos rfl)
        · exact fun x hx => sector_newBlock hx
        · intro m hm not_first
          by_cases low_m : m < 12
          · left
            rw [blockAddrs, blockAddrs, if_pos low_m, if_pos low_m]
            exact setSector_of_ne i _ (by omega)
          · exact .inr ⟨by omega, (addrs m (by omega) hm).trans (if_neg not_first)⟩
        · intro lba used
          have away : sector (blit (blit d (512 * (P.dataStartLba + a)) 512
              (tableBytes (Function.update (fun k => if k < 12 then i.iSectors k else 0) 12 (P.dataStartLba + b))))
              (512 * (P.dataStartLba + b) + 0) 512 (newBlock de)) lba = _ := sector_blit_other (Nat.le_refl _) (used.ne_free other)
          rw [Nat.add_zero] at away
          exact away.trans (sector_kept data used clear)
        · exact (setSector_self i 12 (P.dataStartLba + a)).trans_le low_a

/-- The inode number and the type are read back. -/
theorem Placed.fields (h : Placed s i de d j k idx lba) (fits : EntryFits de) (number : de.iNo < 2 ^ 32) :
    slotFields d (lba, idx) = (de.iNo, de.fType) := by
  have entry := h.entry
  have number' : word (encodeEntry de) 16 = de.iNo := by
    have words : word (encodeEntry de) 16 =
        word (ofWords fun i => if i = 0 then de.iNo else if i = 1 then de.fType else 0) (4 * 0) := by
      apply word_congr
      intro x hx
      rw [encodeEntry, if_neg (by omega)]
      congr 1
      omega
    rw [words, word_ofWords, if_pos rfl, Nat.mod_eq_of_lt number]
  have at_16 : entryINo (sector d lba) idx = word (encodeEntry de) 16 := by
    apply word_congr
    intro x hx
    rw [Nat.add_assoc]
    exact entry (16 + x) (by simp only [dirEntrySize]; omega)
  have at_20 : entryFType (sector d lba) idx = word (encodeEntry de) 20 := by
    apply word_congr
    intro x hx
    rw [Nat.add_assoc]
    exact entry (20 + x) (by simp only [dirEntrySize]; omega)
  rw [slotFields, at_16, at_20, number', entryFType_encode fits]

theorem Placed.slot_used (h : Placed s i de d j k idx lba) (fits : EntryFits de) (number : de.iNo < 2 ^ 32) :
    SlotUsed d j (lba, idx) := by
  have fields := h.fields fits number
  have position := h.position
  have addr := h.addr
  have kind : entryFType (sector d lba) idx = de.fType := (Prod.mk.inj fields).2
  refine ⟨k, addr, by omega, h.index, addr ▸ h.there, ?_⟩
  rw [blockAt, addr, kind]
  exact fits.used

end Search

section Kept
variable {P : Partition} {s t : FileSys} {dir : Dir} {n1 n2 : CStr} {iNo fType : Nat}

/-- Two names that create_dir_entry accepts, and an entry it makes of the first. -/
structure Entered (n1 n2 : CStr) (iNo fType : Nat) : Prop where
  first : NameFits n1
  second : NameFits n2
  different : n1 ≠ n2
  number : iNo ≠ 0 ∧ iNo < 2 ^ 32
  kind : fType ≠ ftUnknown ∧ fType < 2 ^ 8

/-- The new entry is found when its name ends, sys_malloc answers and no earlier slot answers to it. -/
def FoundAgain (s : FileSys) (dir : Dir) (n1 : CStr) (iNo : Nat) : Prop :=
  NameEnds n1 iNo ∧ ¬ AnsweredBefore s (s.inode (s.inodeOf dir)) n1 ∧ MallocAnswers s 0 0 ∧ MallocAnswers s 1 1

theorem syncDirEntry_stores (fits : P.Fits) (wf : DirFits P s (s.inode (s.inodeOf dir)))
    (added : (do let de ← createDirEntry n1 iNo fType; syncDirEntry P dir de) s = .ok (true, t)) :
    Stores s (s.inodeOf dir) (s.inode (s.inodeOf dir)) ⟨n1, iNo, fType⟩ t := by
  have stores : Returns (do let de ← createDirEntry n1 iNo fType; syncDirEntry P dir de)
      (fun added t => added = true → Stores s (s.inodeOf dir) (s.inode (s.inodeOf dir)) ⟨n1, iNo, fType⟩ t) s := by
    rw [Returns, wp_bind, createDirEntry, wp_bind, wp_assert]
    refine ⟨fun _ => (wp_pure _).2 ?_, fun _ => trivial⟩
    rw [syncDirEntry, wp_bind, wp_get]
    dsimp only
    rw [wp_bind, wp_assert]
    refine ⟨fun _ => ?_, fun _ => trivial⟩
    exact insertEntry_stores fits wf rfl 140 0 rfl (Nat.zero_le 12) fun j hj => (Nat.not_lt_zero j hj).elim
  exact returns_iff.1 stores true t added rfl

/-- A search returns the fields of the first slot that answers to the name. -/
theorem searchDirEntry_first (name : CStr) (table : (t.inode (t.inodeOf dir)).iSectors 12 ≤ maxLba)
    (blocks : ∀ k < 140, blockAddrs t.disk (t.inode (t.inodeOf dir)) k ≤ maxLba) :
    wp (searchDirEntry dir name) (fun r _ => (MallocAnswers t 0 0 ∧ MallocAnswers t 1 1 ∧
        r = (firstNamed t.disk (t.inode (t.inodeOf dir)) name).map (slotFields t.disk)) ∨ ¬ MallocAnswers t 0 0 ∧ r = none)
      (fun _ => ¬ MallocAnswers t 1 1) t := by
  refine wp_mono (searchDirEntry_found table blocks) ?_ fun _ fault => fault.2
  rintro r u (⟨first, second, found, -⟩ | ⟨unanswered, found, -⟩)
  · exact .inl ⟨first, second, found.trans findSome?_foundAt⟩
  · exact .inr ⟨unanswered, found⟩

/-- The names are kept exactly when the new entry is found: the other name never leads to it. -/
theorem names_kept (fits : P.Fits) (wf : DirFits P s (s.inode (s.inodeOf dir))) (entered : Entered n1 n2 iNo fType)
    (added : (do let de ← createDirEntry n1 iNo fType; syncDirEntry P dir de) s = .ok (true, t)) :
    NamesKept s t dir n1 n2 iNo fType ↔ FoundAgain s dir n1 iNo := by
  obtain ⟨first, second, different, number, kind⟩ := entered
  have entryFits : EntryFits ⟨n1, iNo, fType⟩ := ⟨kind.1, kind.2.trans (by decide)⟩
  obtain ⟨⟨k, idx, lba, placed⟩, bits, disk, j, state⟩ := syncDirEntry_stores fits wf added
  have same_dir : t.inodeOf dir = s.inodeOf dir := by
    rw [state]
    cases dir <;> rfl
  have answers (m more : Nat) : MallocAnswers t m more ↔ MallocAnswers s m more := by
    rw [state]
    exact Iff.rfl
  have fields := placed.fields entryFits number.2
  have new (other : Slot) : NewSlot s t (s.inodeOf dir) other ↔ other = (lba, idx) := by
    constructor
    · rintro ⟨used, fresh⟩
      exact (placed.only other used).resolve_right fresh
    · rintro rfl
      exact ⟨placed.slot_used entryFits number.2, placed.fresh⟩
  have found {name : CStr} (nameFits : NameFits name) : firstNamed t.disk (t.inode (s.inodeOf dir)) name = some (lba, idx) ↔
      (name = n1 ∧ NameEnds n1 iNo) ∧ ¬ AnsweredBefore s (s.inode (s.inodeOf dir)) name := by
    rw [placed.first nameFits, entryNamed, streq_entry placed.entry first nameFits]
  have search (name : CStr) := searchDirEntry_first name (same_dir.symm ▸ placed.table) (same_dir.symm ▸ placed.blocks)
  rw [same_dir] at search
  have other_name : firstNamed t.disk (t.inode (s.inodeOf dir)) n2 ≠ some (lba, idx) ∧
      Returns (searchDirEntry dir n2) (fun r _ => r = none ∨
        r = (firstNamed t.disk (t.inode (s.inodeOf dir)) n2).map (slotFields t.disk)) t := by
    refine ⟨fun here => different ((found second).1 here).1.1.symm, ?_⟩
    refine wp_mono (search n2) ?_ fun _ _ => trivial
    rintro r - (⟨-, -, same⟩ | ⟨-, none⟩)
    · exact .inr same
    · exact .inl none
  have own_name (here : firstNamed t.disk (t.inode (s.inodeOf dir)) n1 = some (lba, idx)) :
      Succeeds (searchDirEntry dir n1) (fun r _ => r = some (iNo, fType)) t ↔ MallocAnswers s 0 0 ∧ MallocAnswers s 1 1 := by
    apply succeeds_exact
    refine wp_mono (search n1) ?_ fun _ fault both => fault ((answers 1 1).2 both.2)
    rintro r - (⟨one, two, same⟩ | ⟨unanswered, none⟩)
    · refine iff_of_true ?_ ⟨(answers 0 0).1 one, (answers 1 1).1 two⟩
      rw [same, here, Option.map_some, fields]
    · refine iff_of_false ?_ fun both => unanswered ((answers 0 0).2 both.1)
      rw [none]
      exact (Option.some_ne_none _).symm
  constructor
  · rintro ⟨slot, only, ⟨here, run⟩, -⟩
    obtain rfl : (lba, idx) = slot := (only _).1 ((new _).2 rfl)
    obtain ⟨⟨-, ends⟩, unanswered⟩ := (found first).1 here
    exact ⟨ends, unanswered, (own_name here).1 run⟩
  · rintro ⟨ends, unanswered, mallocs⟩
    have here := (found first).2 ⟨⟨rfl, ends⟩, unanswered⟩
    exact ⟨(lba, idx), new, ⟨here, (own_name here).2 mallocs⟩, other_name⟩

end Kept

/-- A name of 16 bytes. -/
def longName : CStr := List.replicate 16 97

theorem longName_fits : NameFits longName := ⟨by decide, by decide⟩

/-- A root directory with three entries and a freed slot, and calls of sys_malloc that are answered. -/
def namesDir : FileSys := { rootDir with oracle := fun _ => 1 }

theorem DirFits.withOracle {P : Partition} {s : FileSys} {i : Inode} (h : DirFits P s i) (oracle : Nat → Nat) :
    DirFits P { s with oracle := oracle } i where
  aligned := h.aligned
  blocks k hk there := ⟨(h.blocks k hk there).data, (h.blocks k hk there).disk, (h.blocks k hk there).used⟩
  table there := ⟨(h.table there).data, (h.table there).disk, (h.table there).used⟩
  apart := h.apart
  once := h.once

theorem namesDir_fits : DirFits somePartition namesDir (namesDir.inode (namesDir.inodeOf .root)) := by
  have root : namesDir.inode (namesDir.inodeOf .root) = rootDir.inode 0 := rfl
  rw [root]
  exact rootDir_fits.withOracle fun _ => 1

/-- Only the entries before the freed slot could answer. -/
theorem namesDir_unanswered : ¬ AnsweredBefore namesDir (namesDir.inode (namesDir.inodeOf .root)) longName := by
  rintro ⟨k, hk, idx, -, -, there, used, named⟩
  have first : k = 0 := by
    by_contra other
    exact there (if_neg other)
  subst first
  have low : idx < 2 := by
    by_contra behind
    exact used 2 (by omega) (by decide +kernel)
  have unnamed : ∀ m < 2, entryNamed (sector namesDir.disk ((namesDir.inode (namesDir.inodeOf .root)).iSectors 0)) m longName = false := by
    decide +kernel
  rw [unnamed idx low] at named
  cases named

/-- The name of 16 bytes is found, as the lowest byte of the inode number 256 ends it. -/
theorem names_kept_low_byte : ∃ t,
    (do let de ← createDirEntry longName 256 ftRegular; syncDirEntry somePartition .root de) namesDir = .ok (true, t) ∧
      NamesKept namesDir t .root longName dot 256 ftRegular := by
  have run : Succeeds (do let de ← createDirEntry longName 256 ftRegular; syncDirEntry somePartition .root de)
      (fun added _ => added = true) namesDir := by decide +kernel
  obtain ⟨added, t, run, rfl⟩ := succeeds_iff.1 run
  have entered : Entered longName dot 256 ftRegular := ⟨longName_fits, ⟨by decide, by decide⟩, by decide, by decide, by decide⟩
  refine ⟨t, run, (names_kept somePartition_fits namesDir_fits entered run).2 ?_⟩
  exact ⟨.inr (by decide), namesDir_unanswered, by decide, by decide⟩

/-- The bytes of i_no run on the name. -/
theorem names_lost : ∃ t,
    (do let de ← createDirEntry longName 300 ftRegular; syncDirEntry somePartition .root de) namesDir = .ok (true, t) ∧
      ¬ NamesKept namesDir t .root longName dot 300 ftRegular := by
  have run : Succeeds (do let de ← createDirEntry longName 300 ftRegular; syncDirEntry somePartition .root de)
      (fun added t => added = true ∧ firstNamed t.disk (t.inode (namesDir.inodeOf .root)) longName = none) namesDir := by
    decide +kernel
  obtain ⟨added, t, run, rfl, lost⟩ := succeeds_iff.1 run
  refine ⟨t, run, ?_⟩
  rintro ⟨slot, -, ⟨here, -⟩, -⟩
  rw [lost] at here
  cases here

end Zhenxiang.Fs
