import Zhenxiang.Fs.DirEntries

/-! file_read against the bytes of the file. -/
namespace Zhenxiang.Fs
open Lib Kernel

/-- The byte j of a file, through the block it is in. -/
def fileByte (disk : Buf) (i : Inode) (j : Nat) : UInt8 := disk (512 * blockAddrs disk i (j / 512) + j % 512)

/-- n bytes of a file from a position on. -/
def fileBytes (disk : Buf) (i : Inode) (pos n : Nat) : List UInt8 :=
  (List.range n).map fun j => fileByte disk i (pos + j)

/-- An open file whose blocks 0 .. i_size / 512 are allocated on the disk. -/
structure FileFits (s : FileSys) (fd o : Nat) : Prop where
  slot : (s.fileTable fd).fdInode = some o
  opened : o ∈ s.openInodes
  size : (s.inode o).iSize < 140 * 512
  blocks : ∀ k ≤ (s.inode o).iSize / 512, blockAddrs s.disk (s.inode o) k ≠ 0 ∧ blockAddrs s.disk (s.inode o) k ≤ maxLba
  table : 12 ≤ (s.inode o).iSize / 512 → (s.inode o).iSectors 12 ≤ maxLba
  pos : (s.fileTable fd).fdPos ≤ (s.inode o).iSize

/-- The bytes of the file from the position fd_pos on that are to be read. -/
def wanted (s : FileSys) (fd o count : Nat) : Nat := min count ((s.inode o).iSize - (s.fileTable fd).fdPos)

/-- What is expected of file_read in one state: -1 at the end of the file, else the bytes wanted,
their number, and fd_pos behind them. -/
def ReadCorrect (s : FileSys) (fd o count : Nat) : Prop :=
  Succeeds (fileRead fd count) (fun r t =>
    if (s.fileTable fd).fdPos = (s.inode o).iSize then r.1 = -1 ∧ (t.fileTable fd).fdPos = (s.fileTable fd).fdPos
    else r.1 = wanted s fd o count ∧ r.2 = fileBytes s.disk (s.inode o) (s.fileTable fd).fdPos (wanted s fd o count) ∧
      (t.fileTable fd).fdPos = (s.fileTable fd).fdPos + wanted s fd o count) s

/-- The sum of position and count is below 2^32, the bytes wanted end before the block 139, and
there is memory for both buffers. At the end of the file the sum is enough, and without it the
call still fails as it should when the second buffer cannot be had. -/
def ReadHolds (s : FileSys) (fd o count : Nat) : Prop :=
  if (s.fileTable fd).fdPos = (s.inode o).iSize then
    (s.fileTable fd).fdPos + count < 2 ^ 32 ∨ ¬ MallocOk s.afterMalloc
  else
    (s.fileTable fd).fdPos + count < 2 ^ 32 ∧ (s.fileTable fd).fdPos + wanted s fd o count < 139 * 512 ∧
      MallocOk s ∧ MallocOk s.afterMalloc

section Reading
variable {s : FileSys} {fd o count : Nat}

theorem wp_fdInode_iff {f : File} {Q : Nat → FileSys → Prop} {E : Fault → Prop} (slot : f.fdInode = some o)
    (opened : o ∈ s.openInodes) : wp (fdInode f) Q E s ↔ Q o s := by
  unfold fdInode
  rw [slot]
  dsimp only
  rw [wp_bind, wp_get, wp_bind, wp_check, wp_pure]
  exact ⟨fun run => run.1 opened, fun post => ⟨fun _ => post, fun out => (out opened).elim⟩⟩

theorem wp_readTable {lba : Nat} {Q : (Nat → Nat) → FileSys → Prop} {E : Fault → Prop} (low : lba ≤ maxLba) :
    wp (readTable lba) Q E s ↔ Q (fun k => word (sector s.disk lba) (4 * k)) s := by
  unfold readTable
  rw [wp_bind, wp_ideRead_iff low (by decide), wp_pure]
  rfl

theorem word_sector {disk : Buf} {lba k : Nat} (room : k + 4 ≤ 512) : word (sector disk lba) k = word disk (512 * lba + k) := by
  apply word_congr
  intro j hj
  have low : k + j < 512 * 1 := by omega
  rw [sector, if_pos low, Nat.add_assoc]

/-- The addresses in a table that has been read. -/
theorem blockAddrs_table {disk : Buf} {i : Inode} {k : Nat} (high : 12 ≤ k) (room : k < 140) (there : blockAddrs disk i k ≠ 0) :
    word (sector disk (i.iSectors 12)) (4 * (k - 12)) = blockAddrs disk i k := by
  have behind : ¬ k < 12 := by omega
  have table : i.iSectors 12 ≠ 0 := by
    intro none
    rw [blockAddrs, if_neg behind, if_neg (not_not.2 none)] at there
    exact there rfl
  rw [word_sector (by omega), blockAddrs, if_neg behind, if_pos table]

/-- all_blocks holds the addresses of the blocks from first to last. -/
theorem blocksForRead_spec {i : Inode} {first last : Nat} (room : last < 140)
    (blocks : ∀ k ≤ last, blockAddrs s.disk i k ≠ 0 ∧ blockAddrs s.disk i k ≤ maxLba)
    (table : 12 ≤ last → i.iSectors 12 ≤ maxLba) :
    Succeeds (blocksForRead i first last) (fun b t => t = s ∧
      ∀ k, first ≤ k → k ≤ last → b k = blockAddrs s.disk i k) s := by
  unfold blocksForRead
  dsimp only
  by_cases direct : last < 12
  · rw [if_pos direct, Succeeds, wp_pure]
    refine ⟨rfl, fun k low high => ?_⟩
    have own : k < 12 := by omega
    dsimp only
    rw [if_pos ⟨low, high, own⟩, blockAddrs, if_pos own]
  · have low := table (by omega)
    have collected : ∀ k, first ≤ k → k ≤ last → withTable (fun k => if first ≤ k ∧ k ≤ last ∧ k < 12 then i.iSectors k else 0)
        (fun k => word (sector s.disk (i.iSectors 12)) (4 * k)) k = blockAddrs s.disk i k := by
      intro k from_first to_last
      rw [withTable]
      by_cases own : k < 12
      · rw [if_pos own, if_pos ⟨from_first, to_last, own⟩, blockAddrs, if_pos own]
      · rw [if_neg own]
        exact blockAddrs_table (by omega) (by omega) (blocks k to_last).1
    rw [if_neg direct]
    by_cases one : first = last
    · rw [if_pos one, Succeeds, wp_bind]
      apply (wp_readTable low).2
      exact (wp_pure _).2 ⟨rfl, collected⟩
    · have there : i.iSectors 12 ≠ 0 := by
        intro none
        apply (blocks last (Nat.le_refl _)).1
        rw [blockAddrs, if_neg direct, if_neg (not_not.2 none)]
      rw [if_neg one, Succeeds, wp_bind, wp_assert]
      refine ⟨fun _ => ?_, fun none => (none there).elim⟩
      rw [wp_bind]
      apply (wp_readTable low).2
      exact (wp_pure _).2 ⟨rfl, collected⟩

/-- The position of an open file moved on. -/
def FileSys.seek (s : FileSys) (fd n : Nat) : FileSys :=
  s.setSlot fd { s.fileTable fd with fdPos := (s.fileTable fd).fdPos + n }

theorem FileSys.seek_pos (s : FileSys) (fd n : Nat) : ((s.seek fd n).fileTable fd).fdPos = (s.fileTable fd).fdPos + n := by
  rw [seek, setSlot_self]

theorem FileSys.seek_seek (s : FileSys) (fd m n : Nat) : (s.seek fd m).seek fd n = s.seek fd (m + n) := by
  rw [seek, seek, setSlot_self, setSlot_setSlot, seek]
  simp only [Nat.add_assoc]

theorem FileSys.seek_zero (s : FileSys) (fd : Nat) : s.seek fd 0 = s := by
  rw [seek, Nat.add_zero]
  exact s.setSlot_same fd

theorem fileBytes_add (disk : Buf) (i : Inode) (pos m n : Nat) :
    fileBytes disk i pos (m + n) = fileBytes disk i pos m ++ fileBytes disk i (pos + m) n := by
  simp only [fileBytes, List.range_add, List.map_append, List.map_map, Function.comp_def, Nat.add_assoc]

/-- A chunk inside one block. -/
theorem fileBytes_chunk {disk : Buf} {i : Inode} {pos n : Nat} (inside : pos % 512 + n ≤ 512) :
    fileBytes disk i pos n =
      (List.range n).map fun k => sector disk (blockAddrs disk i (pos / 512)) (pos % 512 + k) := by
  apply List.map_congr_left
  intro k hk
  have low := List.mem_range.1 hk
  have block : (pos + k) / 512 = pos / 512 := by omega
  have offset : (pos + k) % 512 = pos % 512 + k := by omega
  have room : pos % 512 + k < 512 * 1 := by omega
  rw [fileByte, block, offset, sector, if_pos room]

theorem readLoop_step (fd : Nat) (blocks : Nat → Nat) (rounds : Nat) {n : Nat} (pos : 0 < n) :
    readLoop fd blocks (rounds + 1) n = (do
      let file := (← get).fileTable fd
      check (file.fdPos / 512 < 140) .undefined
      let ioBuf ← ideRead (blocks (file.fdPos / 512)) 1
      setFile fd { file with fdPos := file.fdPos + min n (512 - file.fdPos % 512) }
      let rest ← readLoop fd blocks rounds (n - min n (512 - file.fdPos % 512))
      pure ((List.range (min n (512 - file.fdPos % 512))).map (fun k => ioBuf (file.fdPos % 512 + k)) ++ rest)) := by
  cases n with
  | zero => cases pos
  | succ n => rfl

/-- The data loop reads the bytes from fd_pos on; a round takes at least one of them. -/
theorem readLoop_bytes {i : Inode} {blocks : Nat → Nat} (rounds n : Nat) (enough : n ≤ rounds)
    (room : (s.fileTable fd).fdPos + n ≤ 140 * 512)
    (addrs : ∀ k, (s.fileTable fd).fdPos / 512 ≤ k → 512 * k < (s.fileTable fd).fdPos + n →
      blocks k = blockAddrs s.disk i k ∧ blocks k ≤ maxLba) :
    Succeeds (readLoop fd blocks rounds n) (fun r t =>
      r = fileBytes s.disk i (s.fileTable fd).fdPos n ∧ t = s.seek fd n) s := by
  induction rounds generalizing s n with
  | zero =>
    obtain rfl := Nat.le_zero.1 enough
    unfold readLoop
    exact (wp_pure _).2 ⟨rfl, (s.seek_zero fd).symm⟩
  | succ rounds ih =>
    cases n with
    | zero =>
      unfold readLoop
      exact (wp_pure _).2 ⟨rfl, (s.seek_zero fd).symm⟩
    | succ left =>
      generalize size : left + 1 = n at enough room addrs ⊢
      have pos : 0 < n := by omega
      rw [readLoop_step fd blocks rounds pos]
      generalize chunk : min n (512 - (s.fileTable fd).fdPos % 512) = c
      have split : n = c + (n - c) := by omega
      obtain ⟨here, low⟩ := addrs ((s.fileTable fd).fdPos / 512) (Nat.le_refl _) (by omega)
      have rest := ih (s := s.seek fd c) (n - c) (by omega)
      rw [FileSys.seek_pos, FileSys.seek_seek] at rest
      have later := rest (by omega) fun k from_first to_last => addrs k (by omega) (by omega)
      rw [Succeeds, wp_bind, wp_get]
      dsimp only
      rw [wp_bind, wp_check]
      refine ⟨fun _ => ?_, fun out => (out (by omega)).elim⟩
      rw [wp_bind]
      apply (wp_ideRead_iff low (by decide)).2
      rw [wp_bind, setFile, wp_modify, chunk, wp_bind]
      apply wp_post later
      rintro r t ⟨rfl, rfl⟩
      have first : fileBytes s.disk i (s.fileTable fd).fdPos c = _ := fileBytes_chunk (by omega)
      have whole := fileBytes_add s.disk i (s.fileTable fd).fdPos c (n - c)
      rw [← split, first, ← here] at whole
      refine (wp_pure _).2 ⟨whole.symm, ?_⟩
      rw [← split]

/-- What the data loop reads lies within 140 blocks. -/
theorem readLoop_bound {blocks : Nat → Nat} (rounds n : Nat) : Returns (readLoop fd blocks rounds n)
    (fun _ _ => n = 0 ∨ (s.fileTable fd).fdPos + n ≤ 140 * 512) s := by
  induction rounds generalizing s n with
  | zero =>
    cases n with
    | zero =>
      unfold readLoop
      exact (wp_pure _).2 (.inl rfl)
    | succ left =>
      unfold readLoop
      exact (wp_throw _).2 trivial
  | succ rounds ih =>
    cases n with
    | zero =>
      unfold readLoop
      exact (wp_pure _).2 (.inl rfl)
    | succ left =>
      generalize size : left + 1 = n
      have pos : 0 < n := by omega
      rw [readLoop_step fd blocks rounds pos, Returns, wp_bind, wp_get]
      dsimp only
      rw [wp_bind, wp_check]
      refine ⟨fun inside => ?_, fun _ => trivial⟩
      rw [wp_bind]
      apply wp_ideRead trivial
      have rest := ih (s := s.seek fd (min n (512 - (s.fileTable fd).fdPos % 512)))
        (n - min n (512 - (s.fileTable fd).fdPos % 512))
      rw [FileSys.seek_pos] at rest
      rw [wp_bind, setFile, wp_modify, wp_bind]
      apply wp_post rest
      rintro r t bound
      apply (wp_pure _).2
      omega

/-- How many bytes the function takes to be read. -/
theorem sizeToRead_eq {pos size : Nat} (small : size < 140 * 512) (inside : pos ≤ size) (bound : count < 2 ^ 32) :
    sizeToRead pos size count = if pos + count < 2 ^ 32 then min count (size - pos) else count := by
  unfold sizeToRead
  by_cases wraps : pos + count < 2 ^ 32
  · rw [if_pos wraps, Nat.mod_eq_of_lt wraps]
    have diff : (size + 2 ^ 32 - pos) % 2 ^ 32 = size - pos := by omega
    rw [diff]
    split <;> omega
  · rw [if_neg wraps, if_neg]
    omega

theorem afterMalloc_fileTable (s : FileSys) : s.afterMalloc.fileTable = s.fileTable := by
  unfold FileSys.afterMalloc
  split <;> rfl

theorem blocksForRead_returns (i : Inode) (first last : Nat) :
    Returns (blocksForRead i first last) (fun _ t => t = s) s := by
  have read : ∀ direct : Nat → Nat, Returns (do pure (withTable direct (← readTable (i.iSectors 12))))
      (fun _ t => t = s) s := by
    intro direct
    unfold readTable
    rw [Returns, wp_bind, wp_bind]
    apply wp_ideRead trivial
    exact (wp_pure _).2 ((wp_pure _).2 rfl)
  unfold blocksForRead
  dsimp only
  rw [Returns, wp_ite]
  refine ⟨fun _ => (wp_pure _).2 rfl, fun _ => ?_⟩
  rw [wp_ite]
  refine ⟨fun _ => read _, fun _ => ?_⟩
  rw [wp_bind, wp_assert]
  exact ⟨fun _ => read _, fun _ => trivial⟩

/-- Nothing is asked of a computation of which nothing is asked. -/
theorem returns_any {α : Type} (c : Sys α) : Returns c (fun _ _ => True) s :=
  returns_iff.2 fun _ _ _ => trivial

/-- The ways in which file_read returns. -/
theorem fileRead_returns (wf : FileFits s fd o) : Returns (fileRead fd count) (fun r _ =>
    (r.1 = -1 ∧ ((s.inode o).iSize < ((s.fileTable fd).fdPos + count) % 2 ^ 32 ∧
        sizeToRead (s.fileTable fd).fdPos (s.inode o).iSize count = 0 ∨ ¬ MallocOk s.afterMalloc)) ∨
    (r.1 = sizeToRead (s.fileTable fd).fdPos (s.inode o).iSize count ∧ MallocOk s ∧ MallocOk s.afterMalloc ∧
      ((s.fileTable fd).fdPos + sizeToRead (s.fileTable fd).fdPos (s.inode o).iSize count) % 2 ^ 32 / 512 < 139 ∧
      (sizeToRead (s.fileTable fd).fdPos (s.inode o).iSize count = 0 ∨
        (s.fileTable fd).fdPos + sizeToRead (s.fileTable fd).fdPos (s.inode o).iSize count ≤ 140 * 512))) s := by
  unfold fileRead
  rw [Returns, wp_bind, wp_get]
  dsimp only
  rw [wp_bind, wp_fdInode_iff wf.slot wf.opened, wp_bind, wp_get]
  generalize sizeToRead (s.fileTable fd).fdPos (s.inode o).iSize count = size
  rw [wp_ite]
  constructor
  · intro empty
    exact (wp_pure _).2 (.inl ⟨rfl, .inl empty⟩)
  · intro _
    rw [wp_bind, wp_sysMalloc, wp_bind, wp_sysMalloc]
    by_cases second : MallocOk s.afterMalloc
    · rw [if_pos second]
      dsimp only
      rw [wp_bind, wp_assert]
      refine ⟨fun blocks => ?_, fun _ => trivial⟩
      rw [wp_bind]
      apply wp_post (blocksForRead_returns _ _ _)
      rintro addrs t rfl
      rw [wp_bind, wp_assert]
      refine ⟨fun first => ?_, fun _ => trivial⟩
      have first : MallocOk s := by
        by_contra none
        rw [if_neg none] at first
        cases first
      rw [wp_bind]
      apply wp_post (readLoop_bound size size)
      rintro data u bound
      rw [afterMalloc_fileTable, afterMalloc_fileTable] at bound
      rw [wp_bind]
      apply wp_post (returns_any _)
      rintro - v -
      rw [wp_bind]
      apply wp_post (returns_any _)
      rintro - w -
      exact (wp_pure _).2 (.inr ⟨rfl, first, second, blocks.2, bound⟩)
    · rw [if_neg second]
      exact (wp_pure _).2 (.inl ⟨rfl, .inr second⟩)

/-- With memory for its buffers and the blocks in reach file_read returns the bytes. -/
theorem fileRead_bytes (wf : FileFits s fd o) {size : Nat}
    (amount : sizeToRead (s.fileTable fd).fdPos (s.inode o).iSize count = size) (pos : 0 < size)
    (inside : (s.fileTable fd).fdPos + size ≤ (s.inode o).iSize) (reach : (s.fileTable fd).fdPos + size < 139 * 512)
    (first : MallocOk s) (second : MallocOk s.afterMalloc) :
    Succeeds (fileRead fd count) (fun r t => r = ((size : Int), fileBytes s.disk (s.inode o) (s.fileTable fd).fdPos size) ∧
      (t.fileTable fd).fdPos = (s.fileTable fd).fdPos + size) s := by
  have whole : ((s.fileTable fd).fdPos + size) % 2 ^ 32 = (s.fileTable fd).fdPos + size := Nat.mod_eq_of_lt (by omega)
  have after : s.afterMalloc = s.withBlock := if_pos first
  unfold fileRead
  rw [Succeeds, wp_bind, wp_get]
  dsimp only
  rw [wp_bind, wp_fdInode_iff wf.slot wf.opened, wp_bind, wp_get, amount, wp_ite]
  refine ⟨fun empty => absurd empty.2 (by omega), fun _ => ?_⟩
  rw [wp_bind, first.run, wp_bind]
  apply (after ▸ second).run.2
  dsimp only
  rw [whole, wp_bind, wp_assert]
  refine ⟨fun _ => ?_, fun out => (out (by omega)).elim⟩
  rw [wp_bind]
  have blocks : Succeeds (blocksForRead (s.inode o) ((s.fileTable fd).fdPos / 512)
      (((s.fileTable fd).fdPos + size) / 512)) _ s.withBlock.withBlock :=
    blocksForRead_spec (by omega) (fun k hk => wf.blocks k (by omega)) fun high => wf.table (by omega)
  apply wp_post blocks
  rintro addrs t ⟨rfl, collected⟩
  rw [wp_bind, wp_assert]
  refine ⟨fun _ => ?_, fun none => (none rfl).elim⟩
  rw [wp_bind]
  apply wp_post (readLoop_bytes (i := s.inode o) size size (Nat.le_refl _) ?_ ?_)
  · rintro data u ⟨rfl, rfl⟩
    rw [wp_bind, wp_sysFree List.mem_cons_self (Function.update_self ..), wp_bind, wp_sysFree, wp_pure]
    · exact ⟨rfl, FileSys.seek_pos s fd size⟩
    · have newer : s.nextBlock ≠ s.nextBlock + 1 := by omega
      exact (List.mem_erase_of_ne newer).2 (List.mem_cons_of_mem _ List.mem_cons_self)
    · have newer : s.nextBlock ≠ s.nextBlock + 1 := by omega
      exact (Function.update_of_ne newer _ _).trans (Function.update_self ..)
  · show (s.fileTable fd).fdPos + size ≤ 140 * 512
    omega
  · intro k from_first before_last
    have here : k ≤ ((s.fileTable fd).fdPos + size) / 512 := by
      have bound : 512 * k < (s.fileTable fd).fdPos + size := before_last
      omega
    have addr := collected k from_first here
    exact ⟨addr, addr ▸ (wf.blocks k (by omega)).2⟩

/-- file_read fails at the end of the file, and without memory for all_blocks. -/
theorem fileRead_fails (wf : FileFits s fd o)
    (fails : (s.inode o).iSize < ((s.fileTable fd).fdPos + count) % 2 ^ 32 ∧
        sizeToRead (s.fileTable fd).fdPos (s.inode o).iSize count = 0 ∨ ¬ MallocOk s.afterMalloc) :
    Succeeds (fileRead fd count) (fun r t => r.1 = -1 ∧ t.fileTable = s.fileTable) s := by
  unfold fileRead
  rw [Succeeds, wp_bind, wp_get]
  dsimp only
  rw [wp_bind, wp_fdInode_iff wf.slot wf.opened, wp_bind, wp_get, wp_ite]
  refine ⟨fun _ => (wp_pure _).2 ⟨rfl, rfl⟩, fun more => ?_⟩
  rw [wp_bind, wp_sysMalloc, wp_bind, wp_sysMalloc, if_neg (fails.resolve_left more)]
  exact (wp_pure _).2 ⟨rfl, (afterMalloc_fileTable _).trans (afterMalloc_fileTable s)⟩

/-- file_read is correct exactly when the sum of position and count does not wrap, the bytes
wanted end before the block 139, and there is memory. -/
theorem file_read_correct (s : FileSys) (fd o count : Nat) (wf : FileFits s fd o) (pos : 0 < count)
    (bound : count < 2 ^ 32) : ReadCorrect s fd o count ↔ ReadHolds s fd o count := by
  have small := wf.size
  have inside := wf.pos
  have amount := sizeToRead_eq small inside bound
  constructor
  · intro correct
    obtain ⟨r, t, run, right⟩ := succeeds_iff.1 correct
    have ways := returns_iff.1 (fileRead_returns wf) r t run
    unfold ReadHolds
    by_cases finished : (s.fileTable fd).fdPos = (s.inode o).iSize
    · rw [if_pos finished] at right ⊢
      rcases ways with ⟨-, ⟨behind, -⟩ | none⟩ | ⟨result, -⟩
      · left
        omega
      · exact .inr none
      · have := right.1
        omega
    · rw [if_neg finished] at right ⊢
      have some_wanted : 0 < wanted s fd o count := by
        unfold wanted
        omega
      have result := right.1
      rcases ways with ⟨failed, -⟩ | ⟨-, first, second, reach, fits⟩
      · omega
      · by_cases wraps : (s.fileTable fd).fdPos + count < 2 ^ 32
        · rw [if_pos wraps] at amount
          have same : sizeToRead (s.fileTable fd).fdPos (s.inode o).iSize count = wanted s fd o count := amount
          rw [same] at reach
          have most : wanted s fd o count ≤ count := Nat.min_le_left _ _
          refine ⟨wraps, ?_, first, second⟩
          omega
        · rw [if_neg wraps] at amount
          omega
  · intro holds
    unfold ReadHolds at holds
    unfold ReadCorrect
    by_cases finished : (s.fileTable fd).fdPos = (s.inode o).iSize
    · simp only [if_pos finished] at holds ⊢
      apply wp_post (fileRead_fails wf ?_)
      · rintro r t ⟨failed, same⟩
        exact ⟨failed, by rw [same]⟩
      · by_cases wraps : (s.fileTable fd).fdPos + count < 2 ^ 32
        · left
          rw [if_pos wraps] at amount
          rw [Nat.mod_eq_of_lt wraps]
          omega
        · exact .inr (holds.resolve_left wraps)
    · simp only [if_neg finished] at holds ⊢
      obtain ⟨wraps, reach, first, second⟩ := holds
      rw [if_pos wraps] at amount
      have size : sizeToRead (s.fileTable fd).fdPos (s.inode o).iSize count = wanted s fd o count := amount
      have least : wanted s fd o count ≤ (s.inode o).iSize - (s.fileTable fd).fdPos := Nat.min_le_right _ _
      have some_wanted : 0 < wanted s fd o count := by
        unfold wanted
        omega
      apply wp_post (fileRead_bytes wf size some_wanted (by omega) reach first second)
      rintro r t ⟨rfl, moved⟩
      exact ⟨rfl, rfl, moved⟩

end Reading

/-- A file of ten bytes, open at the position 1. -/
def tenBytes : FileSys :=
  { blank with
    openInodes := [0]
    inode := fun _ => ⟨5, 10, 1, false, fun k => if k = 0 then 700 else 0⟩
    fileTable := fun _ => ⟨1, 0, some 0⟩
    oracle := fun _ => 1 }

theorem tenBytes_fits : FileFits tenBytes 3 0 where
  slot := rfl
  opened := List.mem_cons_self
  size := by decide
  blocks k hk := by
    obtain rfl : k = 0 := Nat.le_zero.1 hk
    decide
  table high := absurd high (by decide)
  pos := by decide

theorem file_read_correct_nine : ReadCorrect tenBytes 3 0 20 :=
  (file_read_correct tenBytes 3 0 20 tenBytes_fits (by decide) (by decide)).2
    ⟨by decide, by decide, by decide, by decide⟩

/-- At the position 1 a request for 2^32 - 1 bytes is taken for one that ends at 0. -/
theorem read_past_end : FileFits tenBytes 3 0 ∧ ¬ ReadCorrect tenBytes 3 0 (2 ^ 32 - 1) := by
  refine ⟨tenBytes_fits, fun correct => ?_⟩
  obtain ⟨r, t, run, -⟩ := succeeds_iff.1 correct
  rcases returns_iff.1 (fileRead_returns tenBytes_fits) r t run with ⟨-, ⟨behind, -⟩ | none⟩ | ⟨-, -, -, -, bound⟩
  · exact absurd behind (by decide)
  · exact none (by decide)
  · exact absurd bound (by decide)

end Zhenxiang.Fs
