import Zhenxiang.Fs.WriteCorrect

/-! Which blocks a write touches, and that the file is as consistent behind it as before. -/
namespace Zhenxiang.Fs
open Lib Kernel

/-- The blocks of a file, up to its last one, and its table. -/
def Extent (d : Buf) (i : Inode) (lba : Nat) : Prop :=
  lba ≠ 0 ∧ (lba = i.iSectors 12 ∨ ∃ k ≤ i.iSize / 512, k < 140 ∧ lba = blockAddrs d i k)

variable {P : Partition} {s t u : FileSys} {fd o count : Nat} {buf : Buf}

theorem Extent.used {i : Inode} {lba : Nat} (sound : FileSound P s i) (h : Extent s.disk i lba) : BlockUsed P s lba := by
  obtain ⟨there, rfl | ⟨k, hk, room, rfl⟩⟩ := h
  · exact sound.tableUsed there
  · by_cases new : i.iSectors 0 = 0
    · have empty := sound.new new
      obtain rfl : k = 0 := by omega
      rw [blockAddrs_direct (by decide)] at there
      exact (there new).elim
    · exact sound.used new k hk room

/-- A block that a write to the file may touch. -/
def Reach (P : Partition) (s : FileSys) (o lba : Nat) : Prop :=
  Extent s.disk (s.inode o) lba ∨ ∃ bit, BlockFree P s bit ∧ lba = P.dataStartLba + bit

theorem Reach.ne {lba other : Nat} (reach : Reach P s o other) (used : BlockUsed P s lba)
    (out : ¬ Extent s.disk (s.inode o) lba) : lba ≠ other := by
  rintro rfl
  rcases reach with inside | ⟨bit, clear, same⟩
  · exact out inside
  · exact used.ne_free clear same

/-! The block of a first write. -/

/-- The first block is there already, or a free one is taken. -/
inductive FirstTaken (P : Partition) (s : FileSys) (o : Nat) : FileSys → Prop where
  | there : FirstTaken P s o s
  | taken (a : Nat) (d : Buf) (new : (s.inode o).iSectors 0 = 0) (clear : BlockFree P s a) (data : DataSame P s.disk d) :
      FirstTaken P s o (s.patch (Function.update s.blockBitmap a true) d o ((s.inode o).setSector 0 (P.dataStartLba + a)))

theorem firstBlock_takes (fits : P.Fits) (onDisk : FreeOnDisk P s) :
    Returns (firstBlock P o) (fun r t => r = true → FirstTaken P s o t) s := by
  rw [firstBlock, Returns, wp_bind, wp_get, wp_ite]
  constructor
  · intro new
    rw [wp_bind]
    refine wp_mono blockBitmapAlloc_spec ?_ fun _ _ => trivial
    rintro r t (⟨rfl, rfl, -⟩ | ⟨a, clear, rfl, rfl⟩)
    · exact (wp_pure _).2 fun no => by cases no
    · have idx := clear.idx fits
      dsimp only
      rw [idx, wp_bind, modifyInode, wp_modify, wp_bind, wp_assert]
      refine ⟨fun _ => ?_, fun _ => trivial⟩
      rw [wp_bind]
      refine wp_post (bitmapSync_spec fits clear.1).returns ?_
      rintro - t ⟨d, rfl, data⟩
      exact (wp_pure _).2 fun _ => .taken a d new clear data
  · exact fun _ => (wp_pure _).2 fun _ => .there

/-! The blocks behind it. -/

/-- What blocks_for_write comes to where no table has to be made: new blocks behind the old ones. -/
structure Taken (P : Partition) (s : FileSys) (o count : Nat) (t : FileSys) (new : List Nat) : Prop where
  free : FreeBits P s new
  frame : t = s.patch (markBits s.blockBitmap new) t.disk o (t.inode o)
  len : new.length = ((s.inode o).iSize + count) / 512 - (s.inode o).iSize / 512
  size : (t.inode o).iSize = (s.inode o).iSize
  table : (t.inode o).iSectors 12 = (s.inode o).iSectors 12
  old : ∀ k ≤ (s.inode o).iSize / 512, blockAddrs t.disk (t.inode o) k = blockAddrs s.disk (s.inode o) k
  fresh : ∀ k, (s.inode o).iSize / 512 < k → k ≤ ((s.inode o).iSize + count) / 512 →
    blockAddrs t.disk (t.inode o) k = P.dataStartLba + new.getD (k - ((s.inode o).iSize / 512 + 1)) 0
  data : ∀ lba, P.dataStartLba ≤ lba → lba ≠ (s.inode o).iSectors 12 → sector t.disk lba = sector s.disk lba
  unused : ∀ k < 12, ((s.inode o).iSize + count) / 512 < k → (t.inode o).iSectors k = 0
  number : (t.inode o).iNo = (s.inode o).iNo

theorem Taken.same (sound : FileSound P s (s.inode o)) (enough : ((s.inode o).iSize + count) / 512 = (s.inode o).iSize / 512) :
    Taken P s o count s [] where
  free := .nil
  frame := by rw [markBits_nil, FileSys.patch_self]
  len := by rw [enough, Nat.sub_self, List.length_nil]
  size := rfl
  table := rfl
  old _ _ := rfl
  fresh k low high := by omega
  data _ _ _ := rfl
  unused k own high := sound.unused k own (by omega)
  number := rfl

theorem Taken.direct (sound : FileSound P s (s.inode o)) (more : ((s.inode o).iSize + count) / 512 < 12)
    {new : List Nat} {d : Buf} (free : FreeBits P s new)
    (len : new.length = ((s.inode o).iSize + count) / 512 - (s.inode o).iSize / 512) (data : DataSame P s.disk d) :
    Taken P s o count (s.patch (markBits s.blockBitmap new) d o
      ((s.inode o).recordAt ((s.inode o).iSize / 512 + 1) (new.map (P.dataStartLba + ·)))) new := by
  refine ⟨free, by rw [FileSys.patch_inode]; rfl, len, by rw [FileSys.patch_inode]; rfl, ?_, fun k hk => ?_, fun k low high => ?_,
    fun lba low _ => ?_, fun k own high => ?_, by rw [FileSys.patch_inode]; rfl⟩
  · rw [FileSys.patch_inode, recordAt_sectors, if_neg (by omega)]
  · rw [FileSys.patch_inode, blockAddrs_direct (by omega), blockAddrs_direct (by omega), recordAt_sectors, if_neg (by omega)]
  · rw [FileSys.patch_inode, blockAddrs_direct (by omega), recordAt_sectors, if_pos (by omega)]
  · exact sector_congr fun k _ => data _ (by omega)
  · rw [FileSys.patch_inode, recordAt_sectors, if_neg (by omega)]
    exact sound.unused k own (by omega)

theorem Taken.indirect (fits : P.Fits) (onDisk : FreeOnDisk P s) (sound : FileSound P s (s.inode o))
    (started : (s.inode o).iSectors 0 ≠ 0) (small : (s.inode o).iSize + count < 140 * 512)
    (behind : 12 ≤ (s.inode o).iSize / 512) {new : List Nat} {d : Buf} (free : FreeBits P s new)
    (len : new.length = ((s.inode o).iSize + count) / 512 - (s.inode o).iSize / 512) (data : DataSame P s.disk d)
    {b : Nat → Nat} (recorded : b = recordFrom 140 (withTable (fun _ => 0) fun k =>
        word (sector s.disk ((s.inode o).iSectors 12)) (4 * k)) ((s.inode o).iSize / 512 + 1)
          (new.map (P.dataStartLba + ·))) :
    Taken P s o count (s.patch (markBits s.blockBitmap new)
      (blit d (512 * (s.inode o).iSectors 12) (512 * 1) (tableBytes b)) o (s.inode o)) new := by
  have there := sound.table.2 behind
  have ready := WriteReady.indirect fits onDisk sound started small behind free len data recorded
  have limit : recordedTo (s.inode o).iSize count = 140 := if_neg (by omega)
  rw [limit] at ready
  -- the table holds what all_blocks does
  have held : ∀ k, 12 ≤ k → k ≤ ((s.inode o).iSize + count) / 512 →
      blockAddrs (blit d (512 * (s.inode o).iSectors 12) (512 * 1) (tableBytes b)) (s.inode o) k =
        if k ≤ (s.inode o).iSize / 512 then blockAddrs s.disk (s.inode o) k
        else P.dataStartLba + new.getD (k - ((s.inode o).iSize / 512 + 1)) 0 := by
    intro k high low
    have value : b k = if k ≤ (s.inode o).iSize / 512 then blockAddrs s.disk (s.inode o) k
        else P.dataStartLba + new.getD (k - ((s.inode o).iSize / 512 + 1)) 0 := by
      rw [recorded, recordFrom_new]
      by_cases old : k ≤ (s.inode o).iSize / 512
      · have not_own : ¬ k < 12 := by omega
        rw [if_neg (by omega), if_pos old, withTable, if_neg not_own]
        exact blockAddrs_table high (by omega) ((sound.used started k old (by omega)).ne_zero fits)
      · rw [if_pos (by omega), if_neg old]
    have bound : b k < 2 ^ 32 := by
      rw [value]
      split
      · next old =>
        have low := (sound.used started k old (by omega)).disk
        simp only [maxLba] at low
        omega
      · next behind =>
        have mem : new.getD (k - ((s.inode o).iSize / 512 + 1)) 0 ∈ new := by
          rw [List.getD_eq_getElem _ _ (by omega)]
          exact List.getElem_mem _
        have low := onDisk _ (free.free _ mem)
        simp only [maxLba] at low
        omega
    rw [blockAddrs_written there high (by omega) bound, value]
  refine ⟨free, by rw [FileSys.patch_inode]; rfl, len, by rw [FileSys.patch_inode], by rw [FileSys.patch_inode], fun k hk => ?_,
    fun k low high => ?_, fun lba low other => sector_table data low other, fun k own high => by omega, by rw [FileSys.patch_inode]⟩
  · rw [FileSys.patch_inode]
    by_cases own : k < 12
    · rw [blockAddrs_direct own, blockAddrs_direct own]
    · have value := held k (by omega) (by omega)
      rwa [if_pos hk] at value
  · have value := held k (by omega) high
    rw [if_neg (by omega)] at value
    rw [FileSys.patch_inode]
    exact value

/-- Where the write does not go from the inode's own blocks to one behind them. -/
theorem blocksForWrite_takes (fits : P.Fits) (onDisk : FreeOnDisk P s) (sound : FileSound P s (s.inode o))
    (started : (s.inode o).iSectors 0 ≠ 0) (small : (s.inode o).iSize + count < 140 * 512)
    (whole : 12 ≤ (s.inode o).iSize / 512 ∨ ((s.inode o).iSize + count) / 512 < 12) :
    Returns (blocksForWrite P o count) (fun r t => r ≠ none → ∃ new, Taken P s o count t new) s := by
  have sum : ((s.inode o).iSize + count) % 2 ^ 32 = (s.inode o).iSize + count := Nat.mod_eq_of_lt (by omega)
  rw [blocksForWrite, Returns, wp_bind, wp_get]
  dsimp only
  rw [sum, wp_bind, wp_assert]
  refine ⟨fun _ => ?_, fun _ => trivial⟩
  simp only [Nat.add_sub_cancel, Nat.add_right_cancel_iff, Nat.add_sub_add_right]
  rw [wp_ite]
  constructor
  · intro same
    have taken := Taken.same sound same
    rw [wp_ite, wp_pure]
    refine ⟨fun _ _ => ⟨[], taken⟩, fun _ => ?_⟩
    rw [wp_bind, wp_assert]
    refine ⟨fun table => ?_, fun _ => trivial⟩
    rw [wp_bind, wp_readTable (sound.tableUsed table).disk, wp_pure]
    exact fun _ => ⟨[], taken⟩
  · intro grows
    rw [wp_ite]
    constructor
    · intro direct
      rw [wp_bind, wp_check]
      refine ⟨fun _ => ?_, fun _ => trivial⟩
      rw [wp_bind, wp_assert]
      refine ⟨fun _ => ?_, fun _ => trivial⟩
      rw [addDirect_eq _ _ _ (by omega)]
      refine wp_mono (addCrossing_spec fits _ _ _ fun k low high own => sound.unused k own (by omega)) ?_ fun _ _ => trivial
      rintro r t outcome some_blocks
      cases outcome with
      | full t few all same => exact (some_blocks rfl).elim
      | grown new d free len data => exact ⟨new, .direct sound (by omega) free len data⟩
    · intro many
      rw [wp_ite]
      refine ⟨fun own => by omega, fun behind => ?_⟩
      rw [wp_bind, wp_assert]
      refine ⟨fun table => ?_, fun _ => trivial⟩
      have low := (sound.tableUsed table).disk
      rw [wp_bind, wp_readTable low, wp_bind]
      refine wp_mono (addIndirect_spec (o := o) fits _ _ _ (by omega)) ?_ fun _ _ => trivial
      rintro r t outcome
      cases outcome with
      | full t few all same => exact (wp_pure _).2 fun no => (no rfl).elim
      | grown new d free len data =>
        dsimp only
        rw [wp_bind, wp_ideWrite_iff low (by decide), wp_pure]
        exact fun _ => ⟨new, .indirect fits onDisk sound started small (by omega) free len data rfl⟩

/-! Both together, and the data. -/

/-- What a write that is carried out leaves of the blocks and the inodes. -/
structure Grew (P : Partition) (s : FileSys) (o count : Nat) (t : FileSys) : Prop where
  sound : FileSound P t (t.inode o)
  onDisk : FreeOnDisk P t
  marks : ∀ bit, s.blockBitmap bit = true → t.blockBitmap bit = true
  inodes : ∀ p, p ≠ o → t.inode p = s.inode p
  size : (t.inode o).iSize = (s.inode o).iSize + count
  reach : ∀ lba, Extent t.disk (t.inode o) lba → Reach P s o lba
  kept : ∀ lba, BlockUsed P s lba → ¬ Extent s.disk (s.inode o) lba → sector t.disk lba = sector s.disk lba

theorem BlockFree.of_patch {bit : Nat} {bits : Nat → Bool} {d : Buf} {i : Inode} (more : ∀ b, s.blockBitmap b = true → bits b = true)
    (clear : BlockFree P (s.patch bits d o i) bit) : BlockFree P s bit := by
  refine ⟨clear.1, Bool.eq_false_iff.2 fun set => ?_⟩
  have now : bits bit = false := clear.2
  rw [more bit set] at now
  cases now

theorem update_marks (bits : Nat → Bool) (a : Nat) : ∀ b, bits b = true → Function.update bits a true b = true := by
  intro b set
  by_cases here : b = a
  · rw [here, Function.update_self]
  · rwa [Function.update_of_ne here]

theorem markBits_marks (bits : Nat → Bool) (new : List Nat) : ∀ b, bits b = true → markBits bits new b = true := by
  intro b set
  rw [markBits, set, Bool.true_or]

/-- The file when it has its first block, seen from before. -/
structure FirstSeen (P : Partition) (s : FileSys) (o : Nat) (t : FileSys) : Prop where
  marks : ∀ bit, s.blockBitmap bit = true → t.blockBitmap bit = true
  free : ∀ bit, BlockFree P t bit → BlockFree P s bit
  inodes : ∀ p, p ≠ o → t.inode p = s.inode p
  data : DataSame P s.disk t.disk
  table : (t.inode o).iSectors 12 = (s.inode o).iSectors 12
  reach : ∀ k ≤ (s.inode o).iSize / 512, k < 140 → blockAddrs t.disk (t.inode o) k ≠ 0 →
    Reach P s o (blockAddrs t.disk (t.inode o) k)

theorem FirstTaken.seen (sound : FileSound P s (s.inode o)) (h : FirstTaken P s o t) : FirstSeen P s o t := by
  cases h with
  | there => exact ⟨fun _ set => set, fun _ free => free, fun _ _ => rfl, .refl _, rfl, fun k hk room there =>
      .inl ⟨there, .inr ⟨k, hk, room, rfl⟩⟩⟩
  | taken a d new clear data =>
    have empty := sound.new new
    refine ⟨update_marks s.blockBitmap a, fun bit free => free.of_patch (update_marks s.blockBitmap a),
      fun p other => Function.update_of_ne other .., data, ?_, fun k hk room _ => .inr ⟨a, clear, ?_⟩⟩
    · rw [FileSys.patch_inode]
      exact setSector_of_ne _ _ (by decide)
    · obtain rfl : k = 0 := by omega
      rw [FileSys.patch_inode, blockAddrs_direct (by decide)]
      exact setSector_self ..

theorem Grew.assemble (fits : P.Fits) {t₁ t₂ v : FileSys} {new : List Nat} {b : Nat → Nat} (seen : FirstSeen P s o t₁)
    (started : Started P s t₁ o) (taken : Taken P t₁ o count t₂ new) (ready : WriteReady P t₁ t₂ o count 140 b)
    (small : (s.inode o).iSize + count < 140 * 512)
    (whole : 12 ≤ (s.inode o).iSize / 512 ∨ ((s.inode o).iSize + count) / 512 < 12)
    (bits : v.blockBitmap = t₂.blockBitmap) (inode : v.inode = Function.update t₂.inode o ((t₂.inode o).extend count))
    (addrs : ∀ k < 140, blockAddrs v.disk (v.inode o) k = blockAddrs t₂.disk (t₂.inode o) k)
    (data : ∀ lba, P.dataStartLba ≤ lba → (∀ m < count, lba ≠ b (((s.inode o).iSize + m) / 512)) →
      sector v.disk lba = sector t₂.disk lba) : Grew P s o count v := by
  have size₁ : (t₁.inode o).iSize = (s.inode o).iSize := started.size
  have at_o : v.inode o = (t₂.inode o).extend count := by rw [inode, Function.update_self]
  have size : (v.inode o).iSize = (s.inode o).iSize + count := by
    rw [at_o, ← size₁, ← taken.size]
    rfl
  have sectors (k : Nat) : (v.inode o).iSectors k = (t₂.inode o).iSectors k := by rw [at_o]; rfl
  have more : ∀ bit, t₁.blockBitmap bit = true → t₂.blockBitmap bit = true := by
    rw [taken.frame]
    exact markBits_marks t₁.blockBitmap new
  have used : ∀ k ≤ ((s.inode o).iSize + count) / 512, BlockUsed P v (blockAddrs v.disk (v.inode o) k) := by
    intro k hk
    have there := ready.used k (by rw [size₁]; exact hk) (by omega)
    rw [addrs k (by omega)]
    exact ⟨there.data, there.disk, bits ▸ there.used⟩
  -- what a block of the longer file was before
  have was : ∀ k ≤ ((s.inode o).iSize + count) / 512, Reach P s o (blockAddrs v.disk (v.inode o) k) := by
    intro k hk
    by_cases old : k ≤ (s.inode o).iSize / 512
    · have there := (used k hk).ne_zero fits
      rw [addrs k (by omega), taken.old k (by rw [size₁]; exact old)] at there ⊢
      exact seen.reach k old (by omega) there
    · rw [addrs k (by omega), taken.fresh k (by rw [size₁]; omega) (by rw [size₁]; exact hk), size₁]
      have mem : new.getD (k - ((s.inode o).iSize / 512 + 1)) 0 ∈ new := by
        have len := taken.len
        rw [size₁] at len
        rw [List.getD_eq_getElem _ _ (by omega)]
        exact List.getElem_mem _
      exact .inr ⟨_, seen.free _ (taken.free.free _ mem), rfl⟩
  have table : (v.inode o).iSectors 12 = (s.inode o).iSectors 12 := by rw [sectors, taken.table, seen.table]
  refine ⟨⟨by omega, fun new => ?_, fun _ k hk room => used k (by omega), fun k own high => ?_, ?_, fun there => ?_,
    fun k hk room there => ?_, fun j hj roomj k hk roomk _ same => ?_⟩, fun bit free => ?_, fun bit set => ?_,
    fun p other => ?_, size, ?_, fun lba used_s out => ?_⟩
  · have there := (used 0 (Nat.zero_le _)).ne_zero fits
    rw [blockAddrs_direct (by decide)] at there
    exact (there new).elim
  · rw [sectors]
    exact taken.unused k own (by rw [size₁]; omega)
  · have first := started.sound.table
    rw [size₁, seen.table] at first
    rw [table, first]
    omega
  · have there' : (t₂.inode o).iSectors 12 ≠ 0 := by rwa [← sectors]
    have used := ready.table there'
    rw [sectors]
    exact ⟨used.data, used.disk, bits ▸ used.used⟩
  · rw [addrs k room, sectors]
    exact ready.apart k (by rw [size₁]; omega) room
  · rw [addrs j roomj, addrs k roomk] at same
    exact ready.once j (by rw [size₁]; omega) roomj k (by rw [size₁]; omega) roomk same
  · refine started.onDisk bit ⟨free.1, ?_⟩
    rw [← Bool.not_eq_true]
    intro set
    have now := free.2
    rw [bits, more bit set] at now
    cases now
  · rw [bits]
    exact more bit (seen.marks bit set)
  · rw [inode, Function.update_of_ne other]
    have frame := congrFun (congrArg FileSys.inode taken.frame) p
    rw [frame]
    exact (Function.update_of_ne other ..).trans (seen.inodes p other)
  · rintro lba ⟨there, same | ⟨k, hk, room, same⟩⟩
    · rw [same, table] at there ⊢
      exact .inl ⟨there, .inl rfl⟩
    · rw [same]
      exact was k (by omega)
  · have behind := used_s.data
    have not_table : lba ≠ (s.inode o).iSectors 12 := by
      rintro rfl
      exact out ⟨used_s.ne_zero fits, .inl rfl⟩
    rw [data lba behind fun m hm => ?_, taken.data lba behind (by rw [seen.table]; exact not_table)]
    · exact sector_congr fun k _ => seen.data _ (by omega)
    · have block := ready.blocks (((s.inode o).iSize + m) / 512) (by rw [size₁]; omega) (by rw [size₁]; omega) (by omega)
      rw [block, ← addrs _ (by omega)]
      exact (was _ (by omega)).ne used_s out

/-- The tables of fs.c and the tasks are as they were, but for one position. -/
structure SlotMoved (s : FileSys) (fd pos : Nat) (t : FileSys) : Prop where
  openInodes : t.openInodes = s.openInodes
  fileTable : t.fileTable = Function.update s.fileTable fd { s.fileTable fd with fdPos := pos }
  fdTable : t.fdTable = s.fdTable
  current : t.current = s.current

theorem wp_freeBoth {x : Int} {Q : Int → FileSys → Prop} {E : Fault → Prop} (heap : HeapSame s.withBlock.withBlock t)
    (post : Q x { t with live := s.live }) :
    wp (do sysFree (some (s.nextBlock + 1)); sysFree (some s.nextBlock); pure x) Q E t := by
  have newer : s.nextBlock ≠ s.nextBlock + 1 := by omega
  have pgdir : t.pgdir t.current = s.pgdir s.current := by
    rw [heap.pgdir, heap.current]
    rfl
  have outer : t.owner (s.nextBlock + 1) = t.pgdir t.current := by
    rw [heap.owner, pgdir]
    exact Function.update_self ..
  have inner : t.owner s.nextBlock = t.pgdir t.current := by
    rw [heap.owner, pgdir]
    exact (Function.update_of_ne newer _ _).trans (Function.update_self ..)
  have listed : t.live = (s.nextBlock + 1) :: s.nextBlock :: s.live := heap.live
  have one : (t.free (s.nextBlock + 1)).live = s.nextBlock :: s.live := by
    rw [FileSys.free, listed]
    exact List.erase_cons_head ..
  have both : (t.free (s.nextBlock + 1)).free s.nextBlock = { t with live := s.live } := by
    rw [FileSys.free, one, List.erase_cons_head]
    rfl
  rw [wp_bind, wp_sysFree (listed ▸ List.mem_cons_self) outer, wp_bind,
    wp_sysFree (s := t.free (s.nextBlock + 1)) (one ▸ List.mem_cons_self) inner, wp_pure, both]
  exact post

theorem Grew.withBlock (h : Grew P s.withBlock.withBlock o count t) : Grew P s o count t :=
  ⟨h.sound, h.onDisk, h.marks, h.inodes, h.size, h.reach, fun lba used => h.kept lba ⟨used.data, used.disk, used.used⟩⟩

theorem fileWriteBody_grows (buf : Buf) (fits : P.Fits) (good : FileGood P s fd o) (small : (s.inode o).iSize + count < 140 * 512)
    (whole : 12 ≤ (s.inode o).iSize / 512 ∨ ((s.inode o).iSize + count) / 512 < 12) :
    Returns (fileWriteBody P fd o (s.fileTable fd) s.nextBlock (s.nextBlock + 1) buf count) (fun r t => r = count →
      Grew P s o count t ∧ SlotMoved s fd (((s.inode o).iSize + 2 ^ 32 - 1) % 2 ^ 32) t ∧ t.live = s.live) s.withBlock.withBlock := by
  have sound : FileSound P s.withBlock.withBlock (s.inode o) :=
    good.sound.carry fits (fun _ => rfl) fun _ _ used => ⟨used.data, used.disk, used.used⟩
  have full : Returns (firstBlock P o) (fun r t => r = false ∨ Started P s.withBlock.withBlock t o) s.withBlock.withBlock := by
    refine wp_mono (firstBlock_spec (s := s.withBlock.withBlock) fits good.onDisk sound good.root) ?_ fun _ _ => trivial
    rintro r t (⟨no, -⟩ | ⟨-, started⟩)
    · exact .inl no
    · exact .inr started
  rw [fileWriteBody, Returns, wp_bind]
  refine wp_post (wp_and full (firstBlock_takes (s := s.withBlock.withBlock) fits good.onDisk)) ?_
  rintro r t ⟨outcome, takes⟩
  rw [wp_ite, wp_pure]
  refine ⟨fun _ no => by omega, fun yes => ?_⟩
  have yes : r = true := Bool.of_not_eq_false yes
  have started := outcome.resolve_left fun no => by rw [no] at yes; cases yes
  have seen := (takes yes).seen sound
  have size : (t.inode o).iSize = (s.inode o).iSize := started.size
  rw [wp_bind]
  have ready : Returns (blocksForWrite P o count) (fun r u => WriteOutcome P t o count r u) t :=
    wp_mono (blocksForWrite_spec fits started.onDisk started.sound started.there (by rw [size]; exact small))
      (fun _ _ outcome => outcome) fun _ _ => trivial
  have taken := blocksForWrite_takes fits started.onDisk started.sound started.there (by rw [size]; exact small)
    (by rw [size]; exact whole)
  refine wp_post (wp_and ready taken) ?_
  rintro r u ⟨outcome, taken⟩
  cases outcome with
  | full u => exact (wp_pure _).2 fun no => by omega
  | ready u b _ ready =>
    obtain ⟨new, taken⟩ := taken (Option.some_ne_none b)
    have limit : recordedTo (t.inode o).iSize count = 140 := by
      rw [recordedTo, size, if_neg (by omega)]
    rw [limit] at ready
    have heap : HeapSame s.withBlock.withBlock u := (HeapSame.started started).trans ready.heap
    dsimp only
    rw [wp_bind, wp_get, wp_bind, setFile, wp_modify, wp_bind]
    generalize position : (((u.inode o).iSize + 2 ^ 32 - 1) % 2 ^ 32) = pos
    generalize moved : u.setSlot fd { s.fileTable fd with fdPos := pos } = w
    have disk : w.disk = u.disk := by rw [← moved]; rfl
    have inode : w.inode o = u.inode o := by rw [← moved]; rfl
    have sizes : (w.inode o).iSize = (s.inode o).iSize := by rw [inode, ready.size, size]
    have known := ready.loop disk inode (by rw [size]; exact small) (by rw [size]; omega) (.inr rfl) buf
    have written := writeLoop_bytes (t := w) (o := o) (b := b) count count true buf (Nat.le_refl _) (by rw [sizes]; omega)
      (fun m hm => by
        rw [sizes, ready.blocks _ (by rw [size]; omega) (by rw [size]; omega) (by omega)]
        exact (ready.used _ (by rw [size]; omega) (by omega)).disk) fun no => by cases no
    refine wp_post (known.and_returns written.returns).returns ?_
    rintro - v ⟨⟨d, rfl, addrs, -⟩, d', same, bytes⟩
    obtain rfl : d = d' := congrArg FileSys.disk same
    rw [wp_bind, wp_get, wp_bind]
    refine wp_mono (inodeSync_ends fits _ 512) ?_ fun _ _ => trivial
    rintro - v ⟨-, e, rfl, synced⟩
    refine wp_freeBoth (t := { w.patch w.blockBitmap d o ((u.inode o).extend count) with disk := e }) ?_ fun _ => ⟨?_, ?_, rfl⟩
    · rw [← moved]
      exact ⟨heap.live, heap.owner, heap.pgdir, heap.current⟩
    · have carried : ∀ k < 140, blockAddrs e ((u.inode o).extend count) k = blockAddrs u.disk (u.inode o) k := by
        intro k room
        rw [← addrs k room]
        refine blockAddrs_carry room rfl fun there m _ => synced _ ?_
        have behind := (ready.table there).data
        exact Nat.le_trans (Nat.mul_le_mul_left _ behind) (Nat.le_add_right _ _)
      refine Grew.withBlock (.assemble fits seen started taken ready small whole ?_ ?_ ?_ ?_)
      · rw [← moved]
        rfl
      · rw [← moved]
        rfl
      · intro k room
        rw [← carried k room]
        exact congrArg (fun i => blockAddrs e i k) (Function.update_self ..)
      · intro lba behind other
        rw [← disk]
        refine sector_congr fun k hk => (synced _ (by omega)).trans (bytes.others _ fun m hm => ?_)
        have apart := other m hm
        rw [sizes]
        change lba ≠ b (((s.inode o).iSize + m) / 512) at apart
        omega
    · have start : u.openInodes = s.openInodes ∧ u.fileTable = s.fileTable ∧ u.fdTable = s.fdTable ∧ u.current = s.current := by
        obtain ⟨bits, e, -, frame⟩ := started.frame
        rw [ready.frame, frame]
        exact ⟨rfl, rfl, rfl, rfl⟩
      rw [← moved]
      refine ⟨start.1, ?_, start.2.2.1, start.2.2.2⟩
      rw [← position, ready.size, size]
      show Function.update u.fileTable fd _ = _
      rw [start.2.1]

/-- A write to a consistent file that does not go from the inode's own blocks to one behind them: with enough free
blocks and memory its bytes are behind those of the file, and all that was in use besides is the same. -/
structure Appended (P : Partition) (s : FileSys) (fd o count : Nat) (buf : Buf) (t : FileSys) : Prop where
  added : BytesAdded P s t o count buf
  grew : Grew P s o count t
  opened : SlotMoved s fd (((s.inode o).iSize + 2 ^ 32 - 1) % 2 ^ 32) t

theorem fileWrite_appends (fits : P.Fits) (good : FileGood P s fd o) (small : (s.inode o).iSize + count < 140 * 512)
    (whole : 12 ≤ (s.inode o).iSize / 512 ∨ ((s.inode o).iSize + count) / 512 < 12)
    (enough : neededBlocks (s.inode o) count ≤ freeCount P s.blockBitmap) (first : MallocOk s) (second : MallocOk s.withBlock)
    (within : ¬ SlotStraddles s o) : Succeeds (fileWrite P fd buf count) (fun r t => r = count ∧ Appended P s fd o count buf t) s := by
  have admitted : ((s.inode o).iSize + count) % 2 ^ 32 ≤ 512 * 140 := by
    rw [Nat.mod_eq_of_lt (by omega)]
    omega
  rw [Succeeds, wp_fileWrite good.slot good.opened, if_neg (Nat.not_lt.2 admitted), if_pos first, if_pos second]
  refine wp_post ((fileWriteBody_spec fits good small enough within (s.fileTable fd) buf).and_returns
    (fileWriteBody_grows buf fits good small whole)) ?_
  rintro r t ⟨⟨result, -, bytes, -⟩, grows⟩
  obtain ⟨grew, opened, -⟩ := grows result
  refine ⟨result, bytes ?_, grew, opened⟩
  rw [recordedTo, if_neg (by omega)]
  omega

end Zhenxiang.Fs
