import Zhenxiang.Fs.DirDelete
import Zhenxiang.Fs.Syscall

/-! dir_read of dir.c with sys_readdir and sys_rewinddir, on directories that are open as streams. -/
namespace Zhenxiang.Fs
open Lib Kernel

/-- The file system with dir_pos and dir_buf of every struct dir. No directory comes near 2^32 bytes. -/
structure Streams where
  fs : FileSys
  dirPos : Dir → Nat
  dirBuf : Dir → Buf

def onFs {α : Type} (c : Sys α) : Kern Streams α := zoom Streams.fs (fun s t => { s with fs := t }) c

def Streams.setPos (s : Streams) (dir : Dir) (pos : Nat) : Streams :=
  { s with dirPos := Function.update s.dirPos dir pos }

def Streams.setBuf (s : Streams) (dir : Dir) (buf : Buf) : Streams :=
  { s with dirBuf := Function.update s.dirBuf dir buf }

/-- The loop over the slots of a block from idx on: cur_dir_entry_pos at its end, and the slot at
which it has come to an entry that was not returned yet. -/
def scanSlots (buf : Buf) (dirPos : Nat) : Nat → Nat → Nat → Nat × Option Nat
  | 0, _, cur => (cur, none)
  | n + 1, idx, cur =>
    if entryFType buf idx ≠ ftUnknown then
      if cur < dirPos then scanSlots buf dirPos n (idx + 1) (cur + dirEntrySize) else (cur, some idx)
    else
      scanSlots buf dirPos n (idx + 1) cur

/-- The loop over the blocks, with all_blocks ending after n more of them. -/
def readBlocks (dir : Dir) (iSize : Nat) (allBlocks : Nat → Nat) : Nat → Nat → Nat → Kern Streams (Option Nat)
  | n, blockIdx, cur => do
    let dirPos := (← get).dirPos dir
    if dirPos < iSize then
      match n with
      | 0 => throw .undefined
      | n + 1 =>
        if allBlocks blockIdx = 0 then
          readBlocks dir iSize allBlocks n (blockIdx + 1) cur
        else
          let buf ← onFs (ideRead (allBlocks blockIdx) 1)
          modify fun s => s.setBuf dir buf
          match scanSlots buf dirPos dirEntrysPerSec 0 cur with
          | (cur, none) => readBlocks dir iSize allBlocks n (blockIdx + 1) cur
          | (cur, some idx) =>
            assert (cur = dirPos)
            modify fun s => s.setPos dir (dirPos + dirEntrySize)
            pure (some idx)
    else
      pure none

/-- The slot of dir_buf that the returned pointer is for. -/
def dirRead (dir : Dir) : Kern Streams (Option Nat) := do
  let s ← get
  let inode := s.fs.inode (s.fs.inodeOf dir)
  let allBlocks ← onFs (collectBlocks inode)
  readBlocks dir inode.iSize allBlocks 140 0 0

def sysReaddir (dir : Dir) : Kern Streams (Option Nat) := dirRead dir

def sysRewinddir (dir : Dir) : Kern Streams Unit := modify fun s => s.setPos dir 0

/-- The entries that so many calls of sys_readdir return, read when the call comes back. -/
def readEntries (dir : Dir) : Nat → Kern Streams (List (Option (List UInt8)))
  | 0 => pure []
  | n + 1 => do
    let slot ← sysReaddir dir
    let s ← get
    let rest ← readEntries dir n
    pure (slot.map (entryBytes (s.dirBuf dir)) :: rest)

/-- A directory whose size is that of its live entries and whose blocks ide_read takes. -/
structure DirCounted (disk : Buf) (i : Inode) : Prop where
  size : i.iSize = dirEntrySize * (liveEntries disk i).length
  table : i.iSectors 12 ≠ 0 → i.iSectors 12 ≤ maxLba
  blocks : ∀ k < 140, blockAddrs disk i k ≤ maxLba

/-- With m entries returned before and c of them passed, the slots from idx on hold the next one, or
all of theirs are passed. -/
theorem scanSlots_spec (buf : Buf) (n : Nat) : ∀ idx c m, c ≤ m →
    match ((List.range' idx n).flatMap (liveEntry buf))[m - c]? with
    | some e => ∃ slot, scanSlots buf (dirEntrySize * m) n idx (dirEntrySize * c) = (dirEntrySize * m, some slot) ∧
        entryBytes buf slot = e
    | none => scanSlots buf (dirEntrySize * m) n idx (dirEntrySize * c) =
        (dirEntrySize * (c + ((List.range' idx n).flatMap (liveEntry buf)).length), none) := by
  induction n with
  | zero =>
    intro idx c m _
    rfl
  | succ n ih =>
    intro idx c m hc
    rw [List.range'_succ, List.flatMap_cons, scanSlots, liveEntry]
    by_cases used : entryFType buf idx ≠ ftUnknown
    · rw [if_pos used, if_pos used, List.singleton_append]
      rcases Nat.lt_or_eq_of_le hc with before | here
      · have lt : dirEntrySize * c < dirEntrySize * m := Nat.mul_lt_mul_of_pos_left before (by decide)
        obtain ⟨d, hd⟩ : ∃ d, m - c = d + 1 := ⟨m - c - 1, by omega⟩
        have next := ih (idx + 1) (c + 1) m before
        rw [show m - (c + 1) = d by omega] at next
        rw [if_pos lt, hd, List.getElem?_cons_succ, List.length_cons]
        rw [Nat.mul_add, Nat.mul_one] at next
        rw [show c + (((List.range' (idx + 1) n).flatMap (liveEntry buf)).length + 1) =
          c + 1 + ((List.range' (idx + 1) n).flatMap (liveEntry buf)).length by omega]
        exact next
      · subst here
        rw [if_neg (Nat.lt_irrefl _), Nat.sub_self, List.getElem?_cons_zero]
        exact ⟨idx, rfl, rfl⟩
    · rw [if_neg used, if_neg used, List.nil_append]
      exact ih (idx + 1) c m hc

section
variable {disk : Buf} {i : Inode} {dir : Dir} {m : Nat}

/-- What a call of dir_read does that begins when m entries have been returned: wanted is the next one. -/
def Reads (dir : Dir) (m : Nat) (wanted : Option (List UInt8)) (s : Streams) (slot : Option Nat) (t : Streams) : Prop :=
  t.fs = s.fs ∧ slot.map (entryBytes (t.dirBuf dir)) = wanted ∧
    t.dirPos dir = dirEntrySize * if wanted.isSome then m + 1 else m

/-- The scan from the block k on, where c entries stand in front of it. -/
theorem readBlocks_spec (low : ∀ k < 140, blockAddrs disk i k ≤ maxLba) (n : Nat) : ∀ k c s, k + n = 140 → c ≤ m →
    s.fs.disk = disk → s.dirPos dir = dirEntrySize * m →
    Succeeds (readBlocks dir (dirEntrySize * (c + ((List.range' k n).flatMap (entriesAt disk i)).length))
        (collected disk i) n k (dirEntrySize * c))
      (fun slot t => Reads dir m ((List.range' k n).flatMap (entriesAt disk i))[m - c]? s slot t) s := by
  induction n with
  | zero =>
    intro k c s _ hc _ pos
    have done : ¬ dirEntrySize * m < dirEntrySize * (c + 0) := Nat.not_lt.mpr (Nat.mul_le_mul_left _ hc)
    rw [Succeeds, readBlocks, wp_bind, wp_get, pos]
    exact (wp_ite _ _).mpr ⟨fun more => absurd more done, fun _ => (wp_pure _).mpr ⟨rfl, rfl, pos⟩⟩
  | succ n ih =>
    intro k c s room hc on pos
    rw [List.range'_succ, List.flatMap_cons, Succeeds, readBlocks, wp_bind, wp_get, pos, wp_ite]
    have at_k : collected disk i k = blockAddrs disk i k := collected_eq (by omega)
    constructor
    · intro more
      rw [at_k, wp_ite]
      constructor
      · intro hole
        have none : entriesAt disk i k = [] := if_pos hole
        rw [none, List.nil_append]
        exact ih (k + 1) c s (by omega) hc on pos
      · intro there
        have here : entriesAt disk i k = (List.range' 0 dirEntrysPerSec).flatMap (liveEntry (sector disk (blockAddrs disk i k))) := by
          rw [entriesAt, if_neg there, blockEntries, List.range_eq_range']
        have slots := scanSlots_spec (sector disk (blockAddrs disk i k)) dirEntrysPerSec 0 c m hc
        rw [← here] at slots
        rw [wp_bind, onFs, wp_zoom, wp_readSector (low k (by omega)), wp_bind, wp_modify, on]
        cases found : (entriesAt disk i k)[m - c]? with
        | some e =>
          rw [found] at slots
          obtain ⟨slot, scan, bytes⟩ := slots
          obtain ⟨inside, _⟩ := List.getElem?_eq_some_iff.mp found
          rw [scan, List.getElem?_append_left inside, found]
          simp only [wp_bind, wp_assert, wp_modify, wp_pure]
          refine ⟨fun _ => ⟨rfl, ?_, Function.update_self ..⟩, fun no => absurd trivial no⟩
          simp only [Streams.setPos, Streams.setBuf, Function.update_self, Option.map_some, bytes]
        | none =>
          rw [found] at slots
          have behind := List.getElem?_eq_none_iff.mp found
          rw [slots, List.getElem?_append_right behind]
          have passed : m - c - (entriesAt disk i k).length = m - (c + (entriesAt disk i k).length) := by omega
          have total : c + (entriesAt disk i k ++ (List.range' (k + 1) n).flatMap (entriesAt disk i)).length =
              c + (entriesAt disk i k).length + ((List.range' (k + 1) n).flatMap (entriesAt disk i)).length := by
            rw [List.length_append, Nat.add_assoc]
          rw [passed, total]
          exact ih (k + 1) (c + (entriesAt disk i k).length) (s.setBuf dir (sector disk (blockAddrs disk i k)))
            (by omega) (by omega) on pos
    · intro done
      have all := Nat.le_of_mul_le_mul_left (Nat.not_lt.mp done) (by decide : 0 < dirEntrySize)
      rw [List.getElem?_eq_none (by omega), wp_pure]
      exact ⟨rfl, rfl, pos⟩

theorem dirRead_spec {s : Streams} (wf : DirCounted s.fs.disk (s.fs.inode (s.fs.inodeOf dir)))
    (pos : s.dirPos dir = dirEntrySize * m) :
    Succeeds (dirRead dir)
      (fun slot t => Reads dir m (liveEntries s.fs.disk (s.fs.inode (s.fs.inodeOf dir)))[m]? s slot t) s := by
  have scan := readBlocks_spec (m := m) wf.blocks 140 0 0 s rfl (Nat.zero_le m) rfl pos
  rw [Nat.zero_add, Nat.sub_zero, ← List.range_eq_range', ← liveEntries, ← wf.size] at scan
  rw [Succeeds, dirRead, wp_bind, wp_get, wp_bind, onFs, wp_zoom, wp_collectBlocks wf.table]
  exact scan

theorem readEntries_spec (n : Nat) : ∀ m s, DirCounted s.fs.disk (s.fs.inode (s.fs.inodeOf dir)) →
    m ≤ (liveEntries s.fs.disk (s.fs.inode (s.fs.inodeOf dir))).length → s.dirPos dir = dirEntrySize * m →
    Succeeds (readEntries dir n) (fun entries t => t.fs = s.fs ∧ entries =
      (List.range' m n).map fun k => (liveEntries s.fs.disk (s.fs.inode (s.fs.inodeOf dir)))[k]?) s := by
  induction n with
  | zero => exact fun m s _ _ _ => (wp_pure _).mpr ⟨rfl, rfl⟩
  | succ n ih =>
    intro m s wf hm pos
    rw [Succeeds, readEntries, wp_bind, sysReaddir]
    refine wp_post (dirRead_spec wf pos) fun slot t ht => ?_
    obtain ⟨same, entry, next⟩ := ht
    rw [wp_bind, wp_get, wp_bind]
    simp only [wp_pure]
    rw [List.range'_succ, List.map_cons, entry]
    generalize hL : liveEntries s.fs.disk (s.fs.inode (s.fs.inodeOf dir)) = L at *
    rcases Nat.lt_or_eq_of_le hm with more | done
    · rw [List.getElem?_eq_getElem more, Option.isSome_some, if_pos rfl] at next
      refine wp_post (ih (m + 1) t (same ▸ wf) (by rw [same, hL]; exact more) next) fun rest u hu => ?_
      rw [same, hL] at hu
      exact ⟨hu.1, congrArg _ hu.2⟩
    · rw [List.getElem?_eq_none (Nat.le_of_eq done.symm), Option.isSome_none, if_neg (by decide)] at next
      refine wp_post (ih m t (same ▸ wf) (by rw [same, hL]; exact hm) next) fun rest u hu => ?_
      rw [same, hL] at hu
      refine ⟨hu.1, congrArg _ (hu.2.trans (List.ext_getElem (by simp) fun j hj _ => ?_))⟩
      -- behind the last entry both lists hold nothing but none
      simp only [List.getElem_map, List.getElem_range']
      rw [List.getElem?_eq_none (by omega), List.getElem?_eq_none (by omega)]

end

/-- After sys_rewinddir the calls of sys_readdir return the live entries in the order of their blocks
and slots, each once, and then NULL for ever. -/
theorem readdir_enumerates (dir : Dir) (s : Streams) (wf : DirCounted s.fs.disk (s.fs.inode (s.fs.inodeOf dir)))
    (calls : Nat) :
    Succeeds (do sysRewinddir dir; readEntries dir calls) (fun entries t => t.fs = s.fs ∧ entries =
      (List.range calls).map fun k => (liveEntries s.fs.disk (s.fs.inode (s.fs.inodeOf dir)))[k]?) s := by
  rw [Succeeds, wp_bind, sysRewinddir, wp_modify, List.range_eq_range']
  exact readEntries_spec calls 0 (s.setPos dir 0) wf (Nat.zero_le _) (Function.update_self ..)

/-- A root directory as partition_format makes it, with its block at 620. -/
def formattedRoot : Streams where
  fs := { booting (blit (fun _ => 0) (512 * 620) 512 (dotEntries 0 0)) (fun _ => none) fun _ => 1 with
    inode := fun _ => ⟨0, 48, 1, false, fun k => if k = 0 then 620 else 0⟩ }
  dirPos _ := 24
  dirBuf _ _ := 0

theorem formattedRoot_counted :
    DirCounted formattedRoot.fs.disk (formattedRoot.fs.inode (formattedRoot.fs.inodeOf .root)) where
  size := by decide +kernel
  table := by decide +kernel
  blocks := by decide +kernel

theorem readdir_enumerates_root :
    Succeeds (do sysRewinddir .root; readEntries .root 3) (fun entries t => t.fs = formattedRoot.fs ∧ entries =
      (List.range 3).map fun k =>
        (liveEntries formattedRoot.fs.disk (formattedRoot.fs.inode (formattedRoot.fs.inodeOf .root)))[k]?)
      formattedRoot :=
  readdir_enumerates .root formattedRoot formattedRoot_counted 3

end Zhenxiang.Fs
