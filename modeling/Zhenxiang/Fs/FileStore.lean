import Zhenxiang.Fs.Descriptors
import Zhenxiang.Fs.FileExtent
import Zhenxiang.Lib.Trace

/-! sys_write, sys_read and sys_lseek of all tasks against rows of bytes. -/
namespace Zhenxiang.Fs
open Lib Kernel

/-! The store that the open files stand for. -/

/-- A row of bytes for every file; file, flag and pos belong to the slots of the file table, and fds has the
descriptors of the tasks. Behind a write the position is that of the last byte there was before it, so it can be -1. -/
structure Store where
  bytes : Nat → List UInt8
  file : Nat → Option Nat
  flag : Nat → Nat
  pos : Nat → Int
  fds : Nat → Nat → Int
  task : Nat

inductive FileCall where
  | run (task : Nat)
  | write (fd : Int) (buf : Buf) (count : Nat)
  | read (fd : Int) (count : Nat)
  | lseek (fd offset : Int) (whence : Whence)

abbrev FileAnswer := Int × List UInt8

namespace Store

def slot (a : Store) (fd : Int) : Nat := (a.fds a.task fd.toNat).toNat

def write (a : Store) (g o : Nat) (data : List UInt8) : FileAnswer × Store :=
  if canWrite (a.flag g) = true ∧ (a.bytes o).length + data.length ≤ 140 * 512 then
    ((data.length, []), { a with
      bytes := Function.update a.bytes o (a.bytes o ++ data)
      pos := Function.update a.pos g ((a.bytes o).length - 1) })
  else ((-1, []), a)

def read (a : Store) (g o count : Nat) : FileAnswer × Store :=
  if a.pos g = (a.bytes o).length then ((-1, []), a)
  else
    let data := ((a.bytes o).drop (a.pos g).toNat).take count
    ((data.length, data), { a with pos := Function.update a.pos g (a.pos g + data.length) })

/-- Only the bytes that are there can be sought. -/
def lseek (a : Store) (g o : Nat) (offset : Int) (whence : Whence) : FileAnswer × Store :=
  let target : Int := match whence with
    | .seekSet => offset
    | .seekCur => a.pos g + offset
    | .seekEnd => (a.bytes o).length + offset
  if 0 ≤ target ∧ target < (a.bytes o).length then ((target, []), { a with pos := Function.update a.pos g target })
  else ((-1, []), a)

def perform (a : Store) (c : FileCall) : FileAnswer × Store :=
  match c with
  | .run task => ((0, []), { a with task := task })
  | .write fd buf count =>
    match a.file (a.slot fd) with
    | none => ((-1, []), a)
    | some o => a.write (a.slot fd) o ((List.range count).map buf)
  | .read fd count =>
    match a.file (a.slot fd) with
    | none => ((-1, []), a)
    | some o => a.read (a.slot fd) o count
  | .lseek fd offset whence =>
    match a.file (a.slot fd) with
    | none => ((-1, []), a)
    | some o => a.lseek (a.slot fd) o offset whence

/-- The answers of the calls, and the store behind them. -/
def run (a : Store) : List FileCall → List FileAnswer × Store
  | [] => ([], a)
  | c :: cs =>
    let rest := (a.perform c).2.run cs
    ((a.perform c).1 :: rest.1, rest.2)

end Store

/-! The calls on the file system. -/

variable (P : Partition)

def performFile : FileCall → Sys FileAnswer
  | .run task => do
    modify fun s => { s with current := task }
    pure (0, [])
  | .write fd buf count => do
    let ret ← sysWrite P fd buf count
    pure (ret, [])
  | .read fd count => sysRead fd count
  | .lseek fd offset whence => do
    let ret ← sysLseek fd offset whence
    pure (ret, [])

/-- The descriptor fd of the running task is for the slot g, which is for the file o. -/
structure Handle (s : FileSys) (fd : Int) (g o : Nat) : Prop where
  nonneg : 0 ≤ fd
  global : Global s fd g
  file : (s.fileTable g).fdInode = some o

/-- The conditions under which file_write and file_read do what they should, as far as the bytes end below the limit
or the call has to fail; there are enough free blocks and memory for the buffers, and inode_sync does not overrun the
one it is handed. -/
def FileAllowed (s : FileSys) : FileCall → Prop
  | .run _ => True
  | .write fd _ count => fd ≠ 1 ∧ ∃ g o, Handle s fd g o ∧ (s.inode o).iSize + count < 2 ^ 32 ∧
    (canWrite (s.fileTable g).fdFlag = true → (s.inode o).iSize + count ≠ 140 * 512 ∧
      ((s.inode o).iSize + count < 140 * 512 →
        (12 ≤ (s.inode o).iSize / 512 ∨ ((s.inode o).iSize + count) / 512 < 12) ∧
        neededBlocks (s.inode o) count ≤ freeCount P s.blockBitmap ∧ MallocOk s ∧ MallocOk s.withBlock ∧ ¬ SlotStraddles s o))
  | .read fd count => ∃ g o, Handle s fd g o ∧ 0 < count ∧ (s.fileTable g).fdPos + count < 2 ^ 32 ∧
    (s.fileTable g).fdPos ≤ (s.inode o).iSize ∧ ((s.fileTable g).fdPos < (s.inode o).iSize →
      (s.fileTable g).fdPos + wanted s g o count < 139 * 512 ∧ MallocOk s ∧ MallocOk s.afterMalloc)
  | .lseek fd offset _ => (∃ g o, Handle s fd g o) ∧ -2 ^ 31 ≤ offset ∧ offset < 2 ^ 31

def FileStep (s : FileSys) (e : FileCall × FileAnswer) (t : FileSys) : Prop :=
  FileAllowed P s e.1 ∧ performFile P e.1 s = .ok (e.2, t)

def IsOpen (s : FileSys) (o : Nat) : Prop := ∃ g < maxFileOpen, (s.fileTable g).fdInode = some o

/-- The open files are consistent, no two of them share a block, and they hold what the store does. -/
structure Files (s : FileSys) (a : Store) : Prop where
  sound : ∀ o, IsOpen s o → FileSound P s (s.inode o)
  opened : ∀ o, IsOpen s o → o ∈ s.openInodes
  small : ∀ o, IsOpen s o → (s.inode o).iSize < 140 * 512
  apart : ∀ o p, IsOpen s o → IsOpen s p → o ≠ p → ∀ lba, Extent s.disk (s.inode o) lba → ¬ Extent s.disk (s.inode p) lba
  onDisk : FreeOnDisk P s
  root : s.blockBitmap 0 = true
  bytes : ∀ o, IsOpen s o → a.bytes o = fileBytes s.disk (s.inode o) 0 (s.inode o).iSize
  file : ∀ g < maxFileOpen, a.file g = (s.fileTable g).fdInode
  flag : ∀ g < maxFileOpen, a.flag g = (s.fileTable g).fdFlag
  within : ∀ g < maxFileOpen, ∀ o, (s.fileTable g).fdInode = some o → -1 ≤ a.pos g ∧ a.pos g ≤ (s.inode o).iSize
  pos : ∀ g < maxFileOpen, ∀ o, (s.fileTable g).fdInode = some o → ((s.fileTable g).fdPos : Int) = a.pos g % 2 ^ 32
  fds : a.fds = s.fdTable
  task : a.task = s.current

section Frames
variable {P} {s t : FileSys} {fd g o p count : Nat} {a : Store}

/-! What file_read leaves alone. -/

/-- Only one position has changed, and the heap. -/
structure OnlyPos (s : FileSys) (fd pos : Nat) (t : FileSys) : Prop where
  disk : t.disk = s.disk
  bitmap : t.blockBitmap = s.blockBitmap
  inode : t.inode = s.inode
  moved : SlotMoved s fd pos t

theorem OnlyPos.refl (s : FileSys) (fd : Nat) : OnlyPos s fd (s.fileTable fd).fdPos s :=
  ⟨rfl, rfl, rfl, rfl, (Function.update_eq_self ..).symm, rfl, rfl⟩

theorem sysMalloc_heap : Returns sysMalloc (fun _ t => ∃ n l w f, t = { s with nextBlock := n, live := l, owner := w, oracle := f }) s := by
  rw [Returns, wp_sysMalloc, FileSys.afterMalloc]
  split
  · exact ⟨_, _, _, _, rfl⟩
  · exact ⟨_, _, _, _, rfl⟩

theorem sysFree_heap (q : Option Nat) : Returns (sysFree q) (fun _ t => ∃ l, t = { s with live := l }) s := by
  cases q with
  | none => exact (wp_throw _).2 trivial
  | some q =>
    rw [sysFree, Returns]
    simp only [wp_bind, wp_get, wp_check, wp_ite, wp_set]
    exact ⟨fun _ => ⟨fun _ => ⟨fun _ => ⟨_, rfl⟩, fun _ => trivial⟩, fun _ => ⟨fun _ => ⟨_, rfl⟩, fun _ => trivial⟩⟩, fun _ => trivial⟩

theorem fileRead_frame : Returns (fileRead fd count) (fun _ t => ∃ pos, OnlyPos s fd pos t) s := by
  rw [fileRead, Returns, wp_bind, wp_get]
  dsimp only
  rw [wp_bind]
  refine wp_fdInode trivial fun o _ _ => ?_
  rw [wp_bind, wp_get, wp_ite]
  refine ⟨fun _ => (wp_pure _).2 ⟨_, .refl s fd⟩, fun _ => ?_⟩
  rw [wp_bind]
  refine wp_post sysMalloc_heap ?_
  rintro ioBuf _ ⟨n, l, w, f, rfl⟩
  rw [wp_bind]
  refine wp_post sysMalloc_heap ?_
  rintro r _ ⟨n, l, w, f, rfl⟩
  cases r with
  | none => exact (wp_pure _).2 ⟨_, rfl, rfl, rfl, rfl, (Function.update_eq_self ..).symm, rfl, rfl⟩
  | some blocks =>
    dsimp only
    rw [wp_bind, wp_assert]
    refine ⟨fun _ => ?_, fun _ => trivial⟩
    rw [wp_bind]
    refine wp_post (blocksForRead_returns _ _ _) ?_
    rintro addrs _ rfl
    rw [wp_bind, wp_assert]
    refine ⟨fun _ => ?_, fun _ => trivial⟩
    rw [wp_bind]
    refine wp_post (readLoop_spec fd addrs _ trivial trivial trivial _ _) ?_
    rintro data _ ⟨rfl, -⟩
    rw [wp_bind]
    refine wp_post (sysFree_heap _) ?_
    rintro - _ ⟨l, rfl⟩
    rw [wp_bind]
    refine wp_post (sysFree_heap _) ?_
    rintro - _ ⟨l, rfl⟩
    exact (wp_pure _).2 ⟨_, rfl, rfl, rfl, rfl, rfl, rfl, rfl⟩

/-! The other files. -/

/-- A file none of whose blocks has changed. -/
theorem FileSound.kept {i : Inode} (fits : P.Fits) (sound : FileSound P s i) (marks : ∀ bit, s.blockBitmap bit = true → t.blockBitmap bit = true)
    (same : ∀ lba, Extent s.disk i lba → sector t.disk lba = sector s.disk lba) :
    FileSound P t i ∧ (∀ lba, Extent t.disk i lba → Extent s.disk i lba) ∧
      fileBytes t.disk i 0 i.iSize = fileBytes s.disk i 0 i.iSize := by
  have table : i.iSectors 12 ≠ 0 → sector t.disk (i.iSectors 12) = sector s.disk (i.iSectors 12) :=
    fun there => same _ ⟨there, .inl rfl⟩
  have addrs : ∀ k < 140, blockAddrs t.disk i k = blockAddrs s.disk i k := by
    intro k room
    refine blockAddrs_carry room rfl fun there m hm => ?_
    have byte := congrFun (table there) m
    rwa [sector_byte _ _ hm, sector_byte _ _ hm] at byte
  refine ⟨sound.carry fits table fun lba _ used => ⟨used.data, used.disk, marks _ used.used⟩, ?_, ?_⟩
  · rintro lba ⟨there, table | ⟨k, hk, room, place⟩⟩
    · exact ⟨there, .inl table⟩
    · exact ⟨there, .inr ⟨k, hk, room, by rw [place, addrs k room]⟩⟩
  · refine List.map_congr_left fun j mem => ?_
    have inside := List.mem_range.1 mem
    have size := sound.size
    have started : i.iSectors 0 ≠ 0 := fun new => by
      have empty := sound.new new
      omega
    have room : j / 512 < 140 := by omega
    have there := (sound.used started (j / 512) (by omega) room).ne_zero fits
    have byte := congrFun (same _ ⟨there, .inr ⟨j / 512, by omega, room, rfl⟩⟩) (j % 512)
    rw [sector_byte _ _ (Nat.mod_lt _ (by decide)), sector_byte _ _ (Nat.mod_lt _ (by decide))] at byte
    rw [Nat.zero_add, fileByte, fileByte, addrs _ room]
    exact byte

theorem SlotMoved.open (moved : SlotMoved s g count t) : IsOpen t o ↔ IsOpen s o := by
  have slots (k : Nat) : (t.fileTable k).fdInode = (s.fileTable k).fdInode := by
    rw [moved.fileTable]
    by_cases here : k = g
    · rw [here, Function.update_self]
    · rw [Function.update_of_ne here]
  simp only [IsOpen, slots]

theorem SlotMoved.slots (moved : SlotMoved s g count t) (k : Nat) : (t.fileTable k).fdInode = (s.fileTable k).fdInode ∧
    (t.fileTable k).fdFlag = (s.fileTable k).fdFlag ∧ (t.fileTable k).fdPos = if k = g then count else (s.fileTable k).fdPos := by
  rw [moved.fileTable]
  by_cases here : k = g
  · rw [here, Function.update_self, if_pos rfl]
    exact ⟨rfl, rfl, rfl⟩
  · rw [Function.update_of_ne here, if_neg here]
    exact ⟨rfl, rfl, rfl⟩

/-! One call. -/

/-- A block in use that is of no open file. -/
def Outside (P : Partition) (s : FileSys) (lba : Nat) : Prop :=
  BlockUsed P s lba ∧ ∀ o, IsOpen s o → ¬ Extent s.disk (s.inode o) lba

def Elsewhere (P : Partition) (s t : FileSys) : Prop :=
  ∀ lba, Outside P s lba → Outside P t lba ∧ sector t.disk lba = sector s.disk lba

theorem Handle.open {x : Int} (h : Handle s x g o) : IsOpen s o := ⟨g, h.global.high, h.file⟩

theorem Handle.slot {x : Int} (h : Handle s x g o) (files : Files P s a) : a.slot x = g := by
  rw [Store.slot, files.task, files.fds, h.global.entry]
  exact Int.toNat_natCast g

theorem Handle.store {x : Int} (h : Handle s x g o) (files : Files P s a) : a.file g = some o := by
  rw [files.file g h.global.high, h.file]

theorem Files.length (files : Files P s a) (here : IsOpen s o) : (a.bytes o).length = (s.inode o).iSize := by
  rw [files.bytes o here, fileBytes, List.length_map, List.length_range]

theorem Files.sought (fits : P.Fits) (files : Files P s a) {pos : Nat} (moved : OnlyPos s g pos t) {q : Int}
    (within : ∀ o, (s.fileTable g).fdInode = some o → -1 ≤ q ∧ q ≤ (s.inode o).iSize) (same : (pos : Int) = q % 2 ^ 32) :
    Files P t { a with pos := Function.update a.pos g q } ∧ Elsewhere P s t := by
  obtain ⟨disk, bitmap, inode, slots⟩ := moved
  have here (o : Nat) : IsOpen t o ↔ IsOpen s o := slots.open
  have used {lba : Nat} (h : BlockUsed P s lba) : BlockUsed P t lba := ⟨h.data, h.disk, by rw [bitmap]; exact h.used⟩
  refine ⟨⟨fun o ho => ?_, fun o ho => ?_, fun o ho => ?_, fun o p ho hp => ?_, ?_, ?_, fun o ho => ?_, fun k hk => ?_, fun k hk => ?_,
    fun k hk o file => ?_, fun k hk o file => ?_, ?_, ?_⟩, fun lba out => ⟨⟨used out.1, fun o ho => ?_⟩, ?_⟩⟩
  · rw [inode]
    exact (files.sound o ((here o).1 ho)).carry fits (fun _ => by rw [disk]) fun _ _ => used
  · rw [slots.openInodes]
    exact files.opened o ((here o).1 ho)
  · rw [inode]
    exact files.small o ((here o).1 ho)
  · rw [inode, disk]
    exact files.apart o p ((here o).1 ho) ((here p).1 hp)
  · intro bit free
    exact files.onDisk bit ⟨free.1, by rw [← bitmap]; exact free.2⟩
  · rw [bitmap]
    exact files.root
  · rw [inode, disk]
    exact files.bytes o ((here o).1 ho)
  · rw [(slots.slots k).1]
    exact files.file k hk
  · rw [(slots.slots k).2.1]
    exact files.flag k hk
  · rw [(slots.slots k).1] at file
    rw [inode]
    by_cases there : k = g
    · subst there
      dsimp only
      rw [Function.update_self]
      exact within o file
    · dsimp only
      rw [Function.update_of_ne there]
      exact files.within k hk o file
  · rw [(slots.slots k).1] at file
    rw [(slots.slots k).2.2]
    by_cases there : k = g
    · subst there
      dsimp only
      rw [Function.update_self, if_pos rfl]
      exact same
    · dsimp only
      rw [Function.update_of_ne there, if_neg there]
      exact files.pos k hk o file
  · exact files.fds.trans slots.fdTable.symm
  · exact files.task.trans slots.current.symm
  · rw [inode, disk]
    exact out.2 o ((here o).1 ho)
  · rw [disk]

/-- A write to one of the files. -/
theorem Files.appended (fits : P.Fits) (files : Files P s a) {x : Int} {buf : Buf} (handle : Handle s x g o)
    (below : (s.inode o).iSize + count < 140 * 512) (app : Appended P s g o count buf t) :
    Files P t { a with
      bytes := Function.update a.bytes o (a.bytes o ++ (List.range count).map buf)
      pos := Function.update a.pos g ((a.bytes o).length - 1) } ∧ Elsewhere P s t := by
  obtain ⟨added, grew, slots⟩ := app
  have here (p : Nat) : IsOpen t p ↔ IsOpen s p := slots.open
  have self := handle.open
  have untouched (p : Nat) (hp : IsOpen s p) (other : p ≠ o) (lba : Nat) (mine : Extent s.disk (s.inode p) lba) :
      BlockUsed P s lba ∧ ¬ Extent s.disk (s.inode o) lba :=
    ⟨mine.used (files.sound p hp), files.apart p o hp self other lba mine⟩
  -- the other files are as they were
  have kept (p : Nat) (hp : IsOpen s p) (other : p ≠ o) := (files.sound p hp).kept fits grew.marks fun lba mine =>
    grew.kept lba (untouched p hp other lba mine).1 (untouched p hp other lba mine).2
  have apart (p : Nat) (hp : IsOpen s p) (other : p ≠ o) (lba : Nat) (long : Extent t.disk (t.inode o) lba) :
      ¬ Extent t.disk (t.inode p) lba := by
    intro mine
    rw [grew.inodes p other] at mine
    have before := (kept p hp other).2.1 lba mine
    obtain ⟨used, out⟩ := untouched p hp other lba before
    exact (grew.reach lba long).ne used out rfl
  have size := files.length self
  refine ⟨⟨fun p hp => ?_, fun p hp => ?_, fun p hp => ?_, fun p q hp hq ne lba => ?_, grew.onDisk, grew.marks 0 files.root, fun p hp => ?_,
    fun k hk => ?_, fun k hk => ?_, fun k hk p file => ?_, fun k hk p file => ?_, ?_, ?_⟩, fun lba out => ⟨⟨?_, fun p hp => ?_⟩, ?_⟩⟩
  · by_cases same : p = o
    · rw [same]
      exact grew.sound
    · rw [grew.inodes p same]
      exact (kept p ((here p).1 hp) same).1
  · rw [slots.openInodes]
    exact files.opened p ((here p).1 hp)
  · by_cases same : p = o
    · rw [same, grew.size]
      exact below
    · rw [grew.inodes p same]
      exact files.small p ((here p).1 hp)
  · by_cases first : p = o
    · rw [first] at ne ⊢
      exact apart q ((here q).1 hq) ne.symm lba
    · by_cases second : q = o
      · rw [second]
        exact fun mine long => apart p ((here p).1 hp) first lba long mine
      · intro mine yours
        rw [grew.inodes p first] at mine
        rw [grew.inodes q second] at yours
        exact files.apart p q ((here p).1 hp) ((here q).1 hq) ne lba ((kept p ((here p).1 hp) first).2.1 lba mine)
          ((kept q ((here q).1 hq) second).2.1 lba yours)
  · dsimp only
    by_cases same : p = o
    · rw [same, Function.update_self, grew.size, added.bytes, files.bytes o self]
    · rw [Function.update_of_ne same, grew.inodes p same, (kept p ((here p).1 hp) same).2.2]
      exact files.bytes p ((here p).1 hp)
  · rw [(slots.slots k).1]
    exact files.file k hk
  · rw [(slots.slots k).2.1]
    exact files.flag k hk
  · rw [(slots.slots k).1] at file
    have longer : (s.inode p).iSize ≤ (t.inode p).iSize := by
      by_cases same : p = o
      · rw [same, grew.size]
        exact Nat.le_add_right _ _
      · rw [grew.inodes p same]
    dsimp only
    by_cases there : k = g
    · subst there
      obtain rfl : o = p := Option.some.inj (handle.file.symm.trans file)
      rw [Function.update_self, size]
      omega
    · rw [Function.update_of_ne there]
      have within := files.within k hk p file
      omega
  · rw [(slots.slots k).1] at file
    rw [(slots.slots k).2.2]
    dsimp only
    by_cases there : k = g
    · rw [if_pos there, there, Function.update_self, size]
      omega
    · rw [if_neg there, Function.update_of_ne there]
      exact files.pos k hk p file
  · exact files.fds.trans slots.fdTable.symm
  · exact files.task.trans slots.current.symm
  · exact ⟨out.1.data, out.1.disk, grew.marks _ out.1.used⟩
  · by_cases same : p = o
    · rw [same]
      exact fun long => (grew.reach lba long).ne out.1 (out.2 o self) rfl
    · rw [grew.inodes p same]
      exact fun mine => out.2 p ((here p).1 hp) ((kept p ((here p).1 hp) same).2.1 lba mine)
  · exact grew.kept lba out.1 (out.2 o self)

theorem fileBytes_slice (d : Buf) (i : Inode) (pos size n : Nat) :
    ((fileBytes d i 0 size).drop pos).take n = fileBytes d i pos (min n (size - pos)) := by
  apply List.ext_getElem
  · simp only [fileBytes, List.length_take, List.length_drop, List.length_map, List.length_range]
  · intro k _ _
    simp only [fileBytes, List.getElem_take, List.getElem_drop, List.getElem_map, List.getElem_range, Nat.zero_add]

theorem Files.position (files : Files P s a) {x : Int} (handle : Handle s x g o)
    (inside : (s.fileTable g).fdPos ≤ (s.inode o).iSize) : a.pos g = (s.fileTable g).fdPos := by
  have within := files.within g handle.global.high o handle.file
  have pos := files.pos g handle.global.high o handle.file
  have small := files.small o handle.open
  omega

theorem Files.fits (fits : P.Fits) (files : Files P s a) {x : Int} (handle : Handle s x g o) (some_bytes : 0 < (s.inode o).iSize)
    (inside : (s.fileTable g).fdPos ≤ (s.inode o).iSize) : FileFits s g o := by
  have sound := files.sound o handle.open
  have small := files.small o handle.open
  have started : (s.inode o).iSectors 0 ≠ 0 := fun new => by
    have empty := sound.new new
    omega
  refine ⟨handle.file, files.opened o handle.open, small, fun k hk => ?_, fun behind => ?_, inside⟩
  · have used := sound.used started k hk (by omega)
    exact ⟨used.ne_zero fits, used.disk⟩
  · exact (sound.tableUsed (sound.table.2 behind)).disk

theorem read_refines (fits : P.Fits) (files : Files P s a) {x : Int} (allowed : FileAllowed P s (.read x count)) :
    Succeeds (sysRead x count) (fun r t => r = (a.perform (.read x count)).1 ∧ Files P t (a.perform (.read x count)).2 ∧
      Elsewhere P s t) s := by
  obtain ⟨g, o, handle, some_bytes, whole, inside, memory⟩ := allowed
  have position := files.position handle inside
  have size := files.length handle.open
  rw [sysRead, if_neg (Int.not_lt.2 handle.nonneg), Succeeds, wp_bind]
  refine succeeds_fdLocal2global.2 ⟨g, handle.global, ?_⟩
  rw [Store.perform, handle.slot files, handle.store files]
  dsimp only
  rw [Store.read, position, size]
  by_cases ends : (s.fileTable g).fdPos = (s.inode o).iSize
  · -- nothing is left
    have more : (s.inode o).iSize < ((s.fileTable g).fdPos + count) % 2 ^ 32 := by
      rw [Nat.mod_eq_of_lt whole]
      omega
    have none_left : sizeToRead (s.fileTable g).fdPos (s.inode o).iSize count = 0 := by
      rw [sizeToRead, if_pos more, ends]
      omega
    rw [if_pos (by rw [ends]), fileRead, wp_bind, wp_get]
    dsimp only
    rw [wp_bind, wp_fdInode_iff handle.file (files.opened o handle.open), wp_bind, wp_get, if_pos ⟨more, none_left⟩, wp_pure]
    exact ⟨rfl, files, fun lba out => ⟨out, rfl⟩⟩
  · obtain ⟨reach, first, second⟩ := memory (by omega)
    have ok := files.fits fits handle (by omega) inside
    have small := files.small o handle.open
    have amount : sizeToRead (s.fileTable g).fdPos (s.inode o).iSize count = wanted s g o count := by
      rw [sizeToRead_eq small inside (by omega), if_pos whole, wanted]
    have pos : 0 < wanted s g o count := by
      rw [wanted]
      omega
    have left : wanted s g o count ≤ (s.inode o).iSize - (s.fileTable g).fdPos := Nat.min_le_right ..
    rw [if_neg (by omega)]
    refine wp_post ((fileRead_bytes ok amount pos (by omega) reach first second).and_returns fileRead_frame) ?_
    rintro r t ⟨⟨rfl, moved⟩, pos', frame⟩
    rw [(frame.moved.slots g).2.2, if_pos rfl] at moved
    have data : ((a.bytes o).drop (s.fileTable g).fdPos).take count =
        fileBytes s.disk (s.inode o) (s.fileTable g).fdPos (wanted s g o count) := by
      rw [files.bytes o handle.open]
      exact fileBytes_slice s.disk (s.inode o) _ _ count
    have len : (fileBytes s.disk (s.inode o) (s.fileTable g).fdPos (wanted s g o count)).length = wanted s g o count := by
      rw [fileBytes, List.length_map, List.length_range]
    have place : ((s.fileTable g).fdPos : Int).toNat = (s.fileTable g).fdPos := Int.toNat_natCast _
    dsimp only
    rw [place, data, len]
    refine ⟨rfl, files.sought fits frame (fun p same => ?_) ?_⟩
    · obtain rfl : o = p := Option.some.inj (handle.file.symm.trans same)
      omega
    · omega

theorem write_refines (fits : P.Fits) (files : Files P s a) {x : Int} {buf : Buf} (allowed : FileAllowed P s (.write x buf count)) :
    Succeeds (sysWrite P x buf count) (fun r t => (r, []) = (a.perform (.write x buf count)).1 ∧
      Files P t (a.perform (.write x buf count)).2 ∧ Elsewhere P s t) s := by
  obtain ⟨no_console, g, o, handle, whole, memory⟩ := allowed
  have size := files.length handle.open
  have same : Files P s a ∧ Elsewhere P s s := ⟨files, fun lba out => ⟨out, rfl⟩⟩
  rw [sysWrite, if_neg (Int.not_lt.2 handle.nonneg), if_neg no_console, Succeeds, wp_bind]
  refine succeeds_fdLocal2global.2 ⟨g, handle.global, ?_⟩
  rw [Store.perform, handle.slot files, handle.store files]
  dsimp only
  rw [Store.write, files.flag g handle.global.high, List.length_map, List.length_range, size, wp_bind, wp_get]
  by_cases writes : canWrite (s.fileTable g).fdFlag = true
  · obtain ⟨limit, small⟩ := memory writes
    rw [if_pos writes]
    by_cases below : (s.inode o).iSize + count < 140 * 512
    · obtain ⟨own, enough, first, second, within⟩ := small below
      have good : FileGood P s g o :=
        ⟨handle.file, files.opened o handle.open, files.sound o handle.open, files.onDisk, files.root⟩
      rw [if_pos ⟨writes, Nat.le_of_lt below⟩]
      refine wp_post (fileWrite_appends fits good below own enough first second within) ?_
      rintro r t ⟨rfl, app⟩
      have appended := files.appended fits handle below app
      rw [size] at appended
      exact ⟨rfl, appended⟩
    · rw [if_neg fun both => below (by omega), wp_fileWrite handle.file (files.opened o handle.open),
        Nat.mod_eq_of_lt whole, if_pos (by omega)]
      exact ⟨rfl, same⟩
  · rw [if_neg writes, if_neg fun both => writes both.1, wp_pure]
    exact ⟨rfl, same⟩

theorem toInt32_small {n : Int} (low : -2 ^ 31 ≤ n) (high : n < 2 ^ 31) : toInt32 n = n := by
  unfold toInt32
  rw [Int.bmod_def]
  omega

/-- Sums that leave the range of an int32_t come out on the other side of it. -/
theorem toInt32_sum {n m : Int} (low : -1 ≤ n) (high : n < 2 ^ 20) (low' : -2 ^ 31 ≤ m) (high' : m < 2 ^ 31) {l : Int} (short : l < 2 ^ 20) :
    (toInt32 (n + m) < 0 ∨ l < toInt32 (n + m) ↔ n + m < 0 ∨ l < n + m) ∧
      (¬ (n + m < 0 ∨ l < n + m) → toInt32 (n + m) = n + m) := by
  unfold toInt32
  rw [Int.bmod_def]
  omega

/-- The end of sys_lseek, with a position that has come out of 32-bit sums. -/
theorem seek_refines (fits : P.Fits) (files : Files P s a) {x : Int} (handle : Handle s x g o) {newPos target : Int}
    (out : newPos < 0 ∨ ((s.inode o).iSize - 1 : Int) < newPos ↔ target < 0 ∨ ((s.inode o).iSize - 1 : Int) < target)
    (same : ¬ (target < 0 ∨ ((s.inode o).iSize - 1 : Int) < target) → newPos = target) :
    Succeeds (if newPos < 0 ∨ ((s.inode o).iSize - 1 : Int) < newPos then pure (-1) else do
        setFile g { s.fileTable g with fdPos := newPos.toNat }
        pure newPos)
      (fun r t =>
        let result := if 0 ≤ target ∧ target < (a.bytes o).length then
          ((target, []), { a with pos := Function.update a.pos g target }) else (((-1, []), a) : FileAnswer × Store)
        (r, []) = result.1 ∧ Files P t result.2 ∧ Elsewhere P s t) s := by
  have size := files.length handle.open
  have small := files.small o handle.open
  rw [Succeeds, wp_ite]
  constructor
  · intro beyond
    have beyond := out.1 beyond
    rw [if_neg (by omega), wp_pure]
    exact ⟨rfl, files, fun lba away => ⟨away, rfl⟩⟩
  · intro inside
    have inside : ¬ (target < 0 ∨ ((s.inode o).iSize - 1 : Int) < target) := fun no => inside (out.2 no)
    obtain rfl := same inside
    rw [if_pos (by omega), wp_bind, setFile, wp_modify, wp_pure]
    have moved : OnlyPos s g newPos.toNat (s.setSlot g { s.fileTable g with fdPos := newPos.toNat }) :=
      ⟨rfl, rfl, rfl, rfl, rfl, rfl, rfl⟩
    refine ⟨rfl, files.sought fits moved (q := newPos) (fun p file => ?_) (by omega)⟩
    obtain rfl : o = p := Option.some.inj (handle.file.symm.trans file)
    omega

theorem lseek_refines (fits : P.Fits) (files : Files P s a) {x offset : Int} {whence : Whence}
    (allowed : FileAllowed P s (.lseek x offset whence)) :
    Succeeds (sysLseek x offset whence) (fun r t => (r, []) = (a.perform (.lseek x offset whence)).1 ∧
      Files P t (a.perform (.lseek x offset whence)).2 ∧ Elsewhere P s t) s := by
  obtain ⟨⟨g, o, handle⟩, low, high⟩ := allowed
  have small := files.small o handle.open
  have within := files.within g handle.global.high o handle.file
  have pos := files.pos g handle.global.high o handle.file
  have length : toInt32 (s.inode o).iSize = (s.inode o).iSize := toInt32_small (by omega) (by omega)
  have last : toInt32 ((s.inode o).iSize - 1) = (s.inode o).iSize - 1 := toInt32_small (by omega) (by omega)
  -- the position before the first byte is 0xffffffff in memory
  have here : toInt32 (s.fileTable g).fdPos = a.pos g := by
    unfold toInt32
    rw [Int.bmod_def]
    omega
  rw [sysLseek, if_neg (Int.not_lt.2 handle.nonneg), Succeeds, wp_bind]
  refine succeeds_fdLocal2global.2 ⟨g, handle.global, ?_⟩
  rw [wp_bind, wp_get]
  dsimp only
  rw [wp_bind, wp_fdInode_iff handle.file (files.opened o handle.open), wp_bind, wp_get]
  rw [Store.perform, handle.slot files, handle.store files]
  dsimp only
  rw [length, last, here]
  cases whence with
  | seekSet => exact seek_refines fits files handle Iff.rfl fun _ => rfl
  | seekCur =>
    obtain ⟨out, same⟩ := toInt32_sum (l := (s.inode o).iSize - 1) within.1 (by omega) low high (by omega)
    exact seek_refines fits files handle out same
  | seekEnd =>
    obtain ⟨out, same⟩ := toInt32_sum (n := (s.inode o).iSize) (l := (s.inode o).iSize - 1) (by omega) (by omega) low high (by omega)
    have refines := seek_refines fits files handle out same
    have size := files.length handle.open
    rw [← size] at refines ⊢
    exact refines

/-- An allowed call returns, with what the store answers. -/
theorem perform_refines (fits : P.Fits) (files : Files P s a) {c : FileCall} (allowed : FileAllowed P s c) :
    Succeeds (performFile P c) (fun r t => r = (a.perform c).1 ∧ Files P t (a.perform c).2 ∧ Elsewhere P s t) s := by
  cases c with
  | run task =>
    rw [performFile, Succeeds, wp_bind, wp_modify, wp_pure]
    exact ⟨rfl, ⟨fun o ho => (files.sound o ho).carry fits (fun _ => rfl) fun _ _ used => ⟨used.data, used.disk, used.used⟩,
      files.opened, files.small, files.apart, files.onDisk, files.root, files.bytes, files.file, files.flag, files.within, files.pos,
      files.fds, rfl⟩, fun lba out => ⟨⟨⟨out.1.data, out.1.disk, out.1.used⟩, out.2⟩, rfl⟩⟩
  | write x buf count =>
    rw [performFile, Succeeds, wp_bind]
    exact wp_post (write_refines fits files allowed) fun r t post => (wp_pure _).2 post
  | read x count => exact read_refines fits files allowed
  | lseek x offset whence =>
    rw [performFile, Succeeds, wp_bind]
    exact wp_post (lseek_refines fits files allowed) fun r t post => (wp_pure _).2 post

end Frames

/-! A file of ten bytes and a new one. -/

def twoFiles : FileSys :=
  { oneFile with
    openInodes := [1, 0]
    inode := fun o => if o = 0 then ⟨5, 10, 1, false, fun k => if k = 0 then 700 else 0⟩ else ⟨7, 0, 1, false, fun _ => 0⟩
    fileTable := fun k => if k = 3 then ⟨0, 2, some 0⟩ else if k = 4 then ⟨0, 2, some 1⟩ else ⟨0, 0, none⟩
    fdTable := fun _ k => if k < 5 then k else -1 }

def twoStore : Store where
  bytes o := fileBytes twoFiles.disk (twoFiles.inode o) 0 (twoFiles.inode o).iSize
  file k := (twoFiles.fileTable k).fdInode
  flag k := (twoFiles.fileTable k).fdFlag
  pos _ := 0
  fds := twoFiles.fdTable
  task := twoFiles.current

theorem twoFiles_open {o : Nat} (here : IsOpen twoFiles o) : o = 0 ∨ o = 1 := by
  obtain ⟨k, -, file⟩ := here
  simp only [twoFiles] at file
  split at file
  · exact .inl (Option.some.inj file).symm
  · split at file
    · exact .inr (Option.some.inj file).symm
    · cases file

theorem twoFiles_good : Files somePartition twoFiles twoStore := by
  have new : FileSound somePartition twoFiles (twoFiles.inode 1) := by
    refine ⟨by decide, fun _ => rfl, fun started => absurd rfl started, fun _ _ _ => rfl, by decide, fun there => absurd rfl there,
      fun k _ _ there => there, fun j hj _ k hk _ _ _ => ?_⟩
    rw [Nat.le_zero.1 hj, Nat.le_zero.1 hk]
  have marks : twoFiles.blockBitmap = oneFile.blockBitmap := rfl
  have old : FileSound somePartition twoFiles (twoFiles.inode 0) := oneFile_good.sound.carry somePartition_fits (fun _ => rfl)
    fun _ _ used => ⟨used.data, used.disk, by rw [marks]; exact used.used⟩
  have empty (lba : Nat) : ¬ Extent twoFiles.disk (twoFiles.inode 1) lba := by
    rintro ⟨there, table | ⟨k, hk, -, place⟩⟩
    · exact there table
    · rw [Nat.le_zero.1 hk] at place
      exact there place
  have cases_of {p : Nat → Prop} (first : p 0) (second : p 1) (o : Nat) (here : IsOpen twoFiles o) : p o := by
    rcases twoFiles_open here with rfl | rfl
    · exact first
    · exact second
  refine ⟨cases_of old new, cases_of (by decide) (by decide), cases_of (by decide) (by decide), fun o p ho hp ne lba mine yours => ?_,
    oneFile_good.onDisk, rfl, fun _ _ => rfl, fun _ _ => rfl, fun _ _ => rfl, fun k _ o _ => ?_, fun k _ o _ => ?_, rfl, rfl⟩
  · rcases twoFiles_open ho with rfl | rfl
    · rcases twoFiles_open hp with rfl | rfl
      · exact ne rfl
      · exact empty lba yours
    · exact empty lba mine
  · have pos : twoStore.pos k = 0 := rfl
    omega
  · have pos : (twoFiles.fileTable k).fdPos = 0 := by
      simp only [twoFiles]
      split
      · rfl
      · split <;> rfl
    rw [pos]
    rfl

/-- The state behind a call. -/
def behindCall (c : FileCall) (s : FileSys) : FileSys :=
  match performFile somePartition c s with
  | .ok (_, t) => t
  | .error _ => s

theorem behindCall_step {s : FileSys} {a : Store} {c : FileCall} (files : Files somePartition s a) (allowed : FileAllowed somePartition s c) :
    ∃ r, FileStep somePartition s (c, r) (behindCall c s) ∧ Files somePartition (behindCall c s) (a.perform c).2 := by
  obtain ⟨r, t, run, -, next, -⟩ := succeeds_iff.1 (perform_refines somePartition_fits files allowed)
  have behind : behindCall c s = t := by
    unfold behindCall
    rw [run]
  rw [behind]
  exact ⟨r, ⟨allowed, run⟩, next⟩

def fiveBytes : FileCall := .write 4 (fun _ => 7) 5

theorem fiveBytes_allowed : FileAllowed somePartition twoFiles fiveBytes := by
  have blocks : neededBlocks (twoFiles.inode 1) 5 ≤ freeCount somePartition twoFiles.blockBitmap := by
    have one : neededBlocks (twoFiles.inode 1) 5 = 1 := by decide
    have clear : BlockFree somePartition twoFiles 1 := ⟨by decide, by decide⟩
    have counted := freeCount_update clear
    omega
  exact ⟨by decide, 4, 1, ⟨by decide, ⟨by decide, by decide, by decide⟩, rfl⟩, by decide,
    fun _ => ⟨by decide, fun _ => ⟨.inr (by decide), blocks, by decide, by decide, by decide⟩⟩⟩

/-- In a run of calls of any tasks on the open files every answer is that of the store, which keeps a row of bytes
for every file; the calls do return, and no block in use besides those of the open files changes. -/
theorem files_refine {P : Partition} {s t : FileSys} {a : Store} {es : List (FileCall × FileAnswer)} (fits : P.Fits) (files : Files P s a)
    (run : Trace (FileStep P) s es t) :
    es.map Prod.snd = (a.run (es.map Prod.fst)).1 ∧ Files P t (a.run (es.map Prod.fst)).2 ∧
      (∀ c, FileAllowed P t c → ∃ r u, FileStep P t (c, r) u) ∧
      ∀ lba, BlockUsed P s lba → (∀ o, IsOpen s o → ¬ Extent s.disk (s.inode o) lba) → sector t.disk lba = sector s.disk lba := by
  induction run generalizing a with
  | nil s =>
    refine ⟨rfl, files, fun c allowed => ?_, fun _ _ _ => rfl⟩
    obtain ⟨r, u, run, -⟩ := succeeds_iff.1 (perform_refines fits files allowed)
    exact ⟨r, u, allowed, run⟩
  | @cons s m t e es step rest ih =>
    obtain ⟨c, r⟩ := e
    obtain ⟨allowed, run⟩ := step
    obtain ⟨answer, next, elsewhere⟩ := (wp_of_ok run).1 (perform_refines fits files allowed)
    obtain ⟨answers, last, returns, same⟩ := ih next
    refine ⟨?_, last, returns, fun lba used out => ?_⟩
    · simp only [List.map_cons, Store.run, ← answers, ← answer]
    · obtain ⟨still, here⟩ := elsewhere lba ⟨used, out⟩
      rw [same lba still.1 still.2, here]

def inTurn : List FileCall := [fiveBytes, .run 1, .lseek 4 1 .seekSet, .read 4 3, .write 3 (fun _ => 9) 2]

/-- One task writes to the new file, and another one reads from it and writes to the other file. -/
theorem files_refine_two : ∃ es t, Trace (FileStep somePartition) twoFiles es t ∧
    es.map Prod.snd = [(5, []), (0, []), (1, []), (3, [7, 7, 7]), (2, [])] ∧
    fileBytes t.disk (t.inode 1) 0 (t.inode 1).iSize = [7, 7, 7, 7, 7] ∧
    fileBytes t.disk (t.inode 0) 0 (t.inode 0).iSize = List.replicate 10 0 ++ [9, 9] := by
  have handle {s : FileSys} {fd g o : Nat} (fds : s.fdTable s.current fd = g) (low : fd < 8) (high : g < maxFileOpen)
      (file : (s.fileTable g).fdInode = some o) : Handle s fd g o :=
    ⟨Int.natCast_nonneg fd, ⟨low, fds, high⟩, file⟩
  obtain ⟨r₁, step₁, files₁⟩ := behindCall_step twoFiles_good fiveBytes_allowed
  obtain ⟨r₂, step₂, files₂⟩ := behindCall_step (c := .run 1) files₁ trivial
  obtain ⟨r₃, step₃, files₃⟩ := behindCall_step (c := .lseek 4 1 .seekSet) files₂
    ⟨⟨4, 1, handle (by decide +kernel) (by decide) (by decide) (by decide +kernel)⟩, by decide, by decide⟩
  obtain ⟨r₄, step₄, files₄⟩ := behindCall_step (c := .read 4 3) files₃
    ⟨4, 1, handle (by decide +kernel) (by decide) (by decide) (by decide +kernel), by decide, by decide +kernel, by decide +kernel,
      fun _ => ⟨by decide +kernel, by decide +kernel, by decide +kernel⟩⟩
  obtain ⟨r₅, step₅, -⟩ := behindCall_step (c := .write 3 (fun _ => 9) 2) files₄
    ⟨by decide, 3, 0, handle (by decide +kernel) (by decide) (by decide) (by decide +kernel), by decide +kernel,
      fun _ => ⟨by decide +kernel, fun _ => ⟨.inr (by decide +kernel),
        le_trans (by decide +kernel : _ ≤ 0) (Nat.zero_le _), by decide +kernel, by decide +kernel, by decide +kernel⟩⟩⟩
  have run := Trace.cons step₁ (.cons step₂ (.cons step₃ (.cons step₄ (.cons step₅ (.nil _)))))
  obtain ⟨answers, files, -⟩ := files_refine somePartition_fits twoFiles_good run
  have calls : List.map Prod.fst [(fiveBytes, r₁), (.run 1, r₂), (.lseek 4 1 .seekSet, r₃), (.read 4 3, r₄),
      (.write 3 (fun _ => 9) 2, r₅)] = inTurn := rfl
  rw [calls] at answers files
  have stored : (twoStore.run inTurn).1 = [(5, []), (0, []), (1, []), (3, [7, 7, 7]), (2, [])] ∧
      (twoStore.run inTurn).2.bytes 1 = [7, 7, 7, 7, 7] ∧
      (twoStore.run inTurn).2.bytes 0 = List.replicate 10 0 ++ [9, 9] := by decide
  refine ⟨_, _, run, answers.trans stored.1, ?_, ?_⟩
  · exact (files.bytes 1 ⟨4, by decide, by decide +kernel⟩).symm.trans stored.2.1
  · exact (files.bytes 0 ⟨3, by decide, by decide +kernel⟩).symm.trans stored.2.2

/-! Writing, and reading from the start. -/

namespace Store
variable {a : Store} {o : Nat} {fd : Int}

theorem run_append (a : Store) (cs ds : List FileCall) :
    a.run (cs ++ ds) = ((a.run cs).1 ++ ((a.run cs).2.run ds).1, ((a.run cs).2.run ds).2) := by
  induction cs generalizing a with
  | nil => rfl
  | cons c cs ih => simp only [List.cons_append, run, ih]

/-- The bytes a call of sys_write is given. -/
def given (w : Buf × Nat) : List UInt8 := (List.range w.2).map w.1

theorem given_length (w : Buf × Nat) : (given w).length = w.2 := by rw [given, List.length_map, List.length_range]

theorem run_writes (file : a.file (a.slot fd) = some o) (writes : canWrite (a.flag (a.slot fd)) = true) (ws : List (Buf × Nat))
    (room : (a.bytes o ++ ws.flatMap given).length ≤ 140 * 512) :
    ∃ b : Store, a.run (ws.map fun w => .write fd w.1 w.2) = (ws.map fun w => ((w.2 : Int), []), b) ∧
      b.bytes o = a.bytes o ++ ws.flatMap given ∧ b.file = a.file ∧ b.slot fd = a.slot fd := by
  induction ws generalizing a with
  | nil => exact ⟨a, rfl, (List.append_nil _).symm, rfl, rfl⟩
  | cons w ws ih =>
    rw [List.flatMap_cons, ← List.append_assoc] at room
    have first : (a.bytes o).length + (given w).length ≤ 140 * 512 := by
      rw [List.length_append, List.length_append] at room
      omega
    have step : a.perform (.write fd w.1 w.2) = (((w.2 : Int), []), { a with
        bytes := Function.update a.bytes o (a.bytes o ++ given w)
        pos := Function.update a.pos (a.slot fd) ((a.bytes o).length - 1) }) := by
      rw [perform, file]
      dsimp only
      rw [← given, write, if_pos ⟨writes, first⟩, given_length]
    obtain ⟨b, rest, bytes, files, slot⟩ := ih (a := (a.perform (.write fd w.1 w.2)).2) (by rw [step]; exact file)
      (by rw [step]; exact writes) (by rw [step]; simpa using room)
    refine ⟨b, ?_, ?_, ?_, ?_⟩
    · rw [List.map_cons, run, rest, step]
      rfl
    · rw [bytes, step, List.flatMap_cons, ← List.append_assoc]
      simp only [Function.update_self]
    · rw [files, step]
    · rw [slot, step]
      rfl

theorem run_reads (file : a.file (a.slot fd) = some o) (counts : List Nat) {n : Nat} (pos : a.pos (a.slot fd) = n)
    (inside : n ≤ (a.bytes o).length) :
    (a.run (counts.map (.read fd))).1.flatMap Prod.snd = ((a.bytes o).drop n).take counts.sum := by
  induction counts generalizing a n with
  | nil => rw [List.sum_nil, List.take_zero]; rfl
  | cons c counts ih =>
    have step : a.perform (.read fd c) = a.read (a.slot fd) o c := by
      rw [perform, file]
    rw [List.map_cons, run, List.flatMap_cons, step, read, pos, List.sum_cons]
    by_cases ends : n = (a.bytes o).length
    · rw [if_pos (by rw [ends])]
      have rest := ih file pos inside
      rw [rest, ends, List.drop_length, List.take_nil, List.take_nil]
      rfl
    · rw [if_neg (by omega)]
      dsimp only
      rw [Int.toNat_natCast]
      generalize taken : ((a.bytes o).drop n).take c = data
      have len : data.length = min c ((a.bytes o).length - n) := by rw [← taken, List.length_take, List.length_drop]
      have rest := ih (a := { a with pos := Function.update a.pos (a.slot fd) (n + data.length) }) (n := n + data.length) file
        (Function.update_self ..) (by dsimp only; omega)
      dsimp only at rest
      rw [rest, List.take_add, taken, ← List.drop_drop]
      congr 2
      by_cases short : c ≤ (a.bytes o).length - n
      · rw [len, Nat.min_eq_left short]
      · rw [len, Nat.min_eq_right (by omega), List.drop_eq_nil_of_le (by rw [List.length_drop]), List.drop_eq_nil_of_le]
        rw [List.length_drop]
        omega

theorem run_round_trip (file : a.file (a.slot fd) = some o) (writes : canWrite (a.flag (a.slot fd)) = true) (ws : List (Buf × Nat))
    (counts : List Nat) (room : (a.bytes o ++ ws.flatMap given).length ≤ 140 * 512) (some_bytes : a.bytes o ++ ws.flatMap given ≠ []) :
    ∃ answers : List FileAnswer, (a.run (ws.map (fun w => .write fd w.1 w.2) ++ .lseek fd 0 .seekSet :: counts.map (.read fd))).1 =
      ws.map (fun w => ((w.2 : Int), [])) ++ (0, []) :: answers ∧
        answers.flatMap Prod.snd = (a.bytes o ++ ws.flatMap given).take counts.sum := by
  obtain ⟨b, run, bytes, files, slot⟩ := run_writes file writes ws room
  have there : b.file (b.slot fd) = some o := by rw [files, slot, file]
  have pos : (0 : Int) < (b.bytes o).length := by
    rw [bytes]
    exact Int.ofNat_lt.2 (List.length_pos_iff.2 some_bytes)
  obtain ⟨sought, behind⟩ : ∃ c : Store, c = { b with pos := Function.update b.pos (b.slot fd) 0 } := ⟨_, rfl⟩
  have step : b.perform (.lseek fd 0 .seekSet) = ((0, []), sought) := by
    rw [behind, perform, there]
    dsimp only
    rw [lseek.eq_def]
    exact if_pos ⟨Int.le_refl 0, pos⟩
  rw [run_append, run]
  refine ⟨_, by rw [Store.run, step], ?_⟩
  have start : sought.pos (sought.slot fd) = (0 : Nat) := by
    rw [behind]
    exact Function.update_self ..
  have same : sought.bytes = b.bytes := by rw [behind]
  have read := run_reads (by rw [behind]; exact there) counts start (Nat.zero_le _)
  rw [List.drop_zero, same, bytes] at read
  exact read

end Store

/-- What has been written through a descriptor, by calls of any sizes, is read back from the start by calls of any
sizes, behind what the file held before. -/
theorem written_bytes_read_back {P : Partition} {s t : FileSys} {a : Store} {fd : Int} {g o : Nat} {ws : List (Buf × Nat)}
    {counts : List Nat} {es : List (FileCall × FileAnswer)} (fits : P.Fits) (files : Files P s a) (handle : Handle s fd g o)
    (writes : canWrite (s.fileTable g).fdFlag = true)
    (room : (fileBytes s.disk (s.inode o) 0 (s.inode o).iSize ++ ws.flatMap Store.given).length ≤ 140 * 512)
    (some_bytes : fileBytes s.disk (s.inode o) 0 (s.inode o).iSize ++ ws.flatMap Store.given ≠ [])
    (run : Trace (FileStep P) s es t)
    (calls : es.map Prod.fst = ws.map (fun w => .write fd w.1 w.2) ++ .lseek fd 0 .seekSet :: counts.map (.read fd)) :
    ∃ answers : List FileAnswer, es.map Prod.snd = ws.map (fun w => ((w.2 : Int), [])) ++ (0, []) :: answers ∧
      answers.flatMap Prod.snd = (fileBytes s.disk (s.inode o) 0 (s.inode o).iSize ++ ws.flatMap Store.given).take counts.sum := by
  have store : a.file (a.slot fd) = some o := by rw [handle.slot files, handle.store files]
  have flag : canWrite (a.flag (a.slot fd)) = true := by rwa [handle.slot files, files.flag g handle.global.high]
  rw [← files.bytes o handle.open] at room some_bytes ⊢
  rw [(files_refine fits files run).1, calls]
  exact Store.run_round_trip store flag ws counts room some_bytes

theorem written_bytes_read_back_five : ∃ es t answers, Trace (FileStep somePartition) twoFiles es t ∧
    es.map Prod.snd = (5, []) :: (0, []) :: answers ∧ answers.flatMap Prod.snd = [7, 7, 7] := by
  obtain ⟨r, step, files⟩ := behindCall_step twoFiles_good fiveBytes_allowed
  have handle {s : FileSys} (fds : s.fdTable s.current 4 = 4) (file : (s.fileTable 4).fdInode = some 1) : Handle s 4 4 1 :=
    ⟨by decide, ⟨by decide, fds, by decide⟩, file⟩
  obtain ⟨r', step', files'⟩ := behindCall_step (c := .lseek 4 0 .seekSet) files
    ⟨⟨4, 1, handle (by decide +kernel) (by decide +kernel)⟩, by decide, by decide⟩
  obtain ⟨r'', step'', -⟩ := behindCall_step (c := .read 4 3) files'
    ⟨4, 1, handle (by decide +kernel) (by decide +kernel), by decide, by decide +kernel, by decide +kernel,
      fun _ => ⟨by decide +kernel, by decide +kernel, by decide +kernel⟩⟩
  have run := Trace.cons step (.cons step' (.cons step'' (.nil _)))
  have calls : List.map Prod.fst [(fiveBytes, r), (.lseek 4 0 .seekSet, r'), (.read 4 3, r'')] =
      List.map (fun w => FileCall.write 4 w.1 w.2) [(fun _ => 7, 5)] ++ .lseek 4 0 .seekSet :: List.map (FileCall.read 4) [3] := rfl
  obtain ⟨answers, all, data⟩ := written_bytes_read_back somePartition_fits twoFiles_good (handle rfl rfl) (by decide) (by decide)
    (by decide) run calls
  exact ⟨_, _, answers, run, all, data⟩

end Zhenxiang.Fs
