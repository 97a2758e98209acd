import Zhenxiang.Fs.Quiet

/-! Who holds the open inodes and the blocks of the heap. A call may have directories, bare
references to inodes and other blocks in hand; the books say that together with the file
table, the handles and the root directory they account for everything. -/
namespace Zhenxiang.Fs
open Lib Kernel

/-- The slots of the file table for an inode. -/
def slotsFor (s : FileSys) (o : Nat) : Nat :=
  (List.range maxFileOpen).countP fun fd => (s.fileTable fd).fdInode == some o

/-- The struct dirs of a list for an inode. -/
def dirsFor (s : FileSys) (dirs : List Nat) (o : Nat) : Nat :=
  dirs.countP fun b => s.dirInode b == o

def refs (s : FileSys) (dirs raw : List Nat) (o : Nat) : Nat :=
  slotsFor s o + dirsFor s s.handles o + dirsFor s dirs o + raw.count o +
    if o = s.rootInode then 1 else 0

structure Counts (dirs raw : List Nat) (s : FileSys) : Prop where
  exact : ∀ o ∈ s.openInodes, (s.inode o).iOpenCnts = refs s dirs raw o
  held : ∀ o, o ∈ s.openInodes ↔ 0 < refs s dirs raw o

/-- What the books are to say besides: that the counts are exact, and that the open inodes
are in the kernel's heap. -/
structure Mode where
  counted : Prop
  kernel : Prop

structure Books (m : Mode) (dirs raw rest : List Nat) (s : FileSys) : Prop where
  live : s.live.Perm (s.openInodes ++ (s.handles ++ (dirs ++ rest)))
  nodup : s.live.Nodup
  below : ∀ p ∈ s.live, p < s.nextBlock
  cap : s.live.length ≤ 2 ^ 28
  kernel : m.kernel → ∀ o ∈ s.openInodes, s.owner o = none
  counts : m.counted → Counts dirs raw s

/-- With the inodes in the kernel's heap the ASSERT of sys_free does not fail. -/
def Mode.Tolerates (m : Mode) (e : Fault) : Prop := m.kernel → e ≠ .heapAssertion

/-- What a call leaves alone besides the open inodes. -/
structure Rest (K : Inode → Inode → Prop) (s t : FileSys) : Prop where
  inode : ∀ o < s.nextBlock, K (s.inode o) (t.inode o)
  rootInode : t.rootInode = s.rootInode
  dirInode : ∀ b < s.nextBlock, t.dirInode b = s.dirInode b
  pgdir : t.pgdir = s.pgdir
  current : t.current = s.current
  handles : t.handles = s.handles
  nextBlock : s.nextBlock ≤ t.nextBlock
  owner : ∀ p < s.nextBlock, t.owner p = s.owner p

/-- The same for what does not touch the tables of open files either. -/
structure Still (K : Inode → Inode → Prop) (s t : FileSys) : Prop extends Rest K s t where
  fileTable : t.fileTable = s.fileTable
  fdTable : t.fdTable = s.fdTable

def Dir.blocks : Dir → List Nat
  | .root => []
  | .heap block => [block]

/-- A struct dir of the running task. -/
def Mine (s : FileSys) (d : Dir) : Prop := ∀ b ∈ d.blocks, s.owner b = s.pgdir s.current

variable {K : Inode → Inode → Prop} [Grows K] {m : Mode} {dirs raw rest : List Nat}
  {s t u : FileSys} {o p : Nat}

theorem Rest.refl (s : FileSys) : Rest K s s :=
  ⟨fun _ _ => Grows.grow _ _ rfl rfl (Nat.le_refl _), rfl, fun _ _ => rfl, rfl, rfl, rfl,
    Nat.le_refl _, fun _ _ => rfl⟩

theorem Rest.trans (h : Rest K s t) (k : Rest K t u) : Rest K s u where
  inode o ho := trans_of K (h.inode o ho) (k.inode o (ho.trans_le h.nextBlock))
  rootInode := k.rootInode.trans h.rootInode
  dirInode b hb := (k.dirInode b (hb.trans_le h.nextBlock)).trans (h.dirInode b hb)
  pgdir := k.pgdir.trans h.pgdir
  current := k.current.trans h.current
  handles := k.handles.trans h.handles
  nextBlock := h.nextBlock.trans k.nextBlock
  owner p hp := (k.owner p (hp.trans_le h.nextBlock)).trans (h.owner p hp)

theorem Still.refl (s : FileSys) : Still K s s := ⟨.refl s, rfl, rfl⟩

theorem Still.trans (h : Still K s t) (k : Still K t u) : Still K s u :=
  ⟨h.toRest.trans k.toRest, k.fileTable.trans h.fileTable, k.fdTable.trans h.fdTable⟩

omit [Grows K] in
theorem Same.still (h : Same K s t) : Still K s t where
  inode o _ := h.inode o
  rootInode := h.rootInode
  dirInode b _ := congrFun h.dirInode b
  pgdir := h.pgdir
  current := h.current
  handles := h.handles
  nextBlock := h.nextBlock
  owner := h.owner
  fileTable := h.fileTable
  fdTable := h.fdTable

/-- Only an inode's count changes. -/
theorem Still.setCnts (o cnts : Nat) :
    Still K s (s.setInode o { s.inode o with iOpenCnts := cnts }) := by
  refine ⟨⟨fun p _ => ?_, rfl, fun _ _ => rfl, rfl, rfl, rfl, Nat.le_refl _, fun _ _ => rfl⟩, rfl, rfl⟩
  by_cases hp : p = o
  · subst hp
    rw [FileSys.setInode_self]
    exact Grows.grow _ _ rfl rfl (Nat.le_refl _)
  · rw [FileSys.setInode_of_ne s _ hp]
    exact (Rest.refl s).inode p ‹_›

omit [Grows K] in
theorem Mine.still {d : Dir} (h : Mine s d) (k : Rest K s t) (below : ∀ b ∈ d.blocks, b < s.nextBlock) :
    Mine t d := by
  intro b hb
  rw [k.owner b (below b hb), k.pgdir, k.current]
  exact h b hb

/-! Counting references. -/

theorem refs_congr (tables : t.fileTable = s.fileTable) (handles : t.handles = s.handles)
    (dirInode : ∀ b ∈ s.handles ++ dirs, t.dirInode b = s.dirInode b) (root : t.rootInode = s.rootInode) :
    refs t dirs raw o = refs s dirs raw o := by
  have same : ∀ l : List Nat, (∀ b ∈ l, b ∈ s.handles ++ dirs) → dirsFor t l o = dirsFor s l o := by
    intro l hl
    apply List.countP_congr
    intro b hb
    rw [dirInode b (hl b hb)]
  simp only [refs, slotsFor, tables, handles, root]
  rw [same s.handles fun b => List.mem_append_left _, same dirs fun b => List.mem_append_right _]

theorem refs_cons_raw : refs s dirs (p :: raw) o = refs s dirs raw o + if o = p then 1 else 0 := by
  simp only [refs, List.count_cons, beq_iff_eq, eq_comm (a := p)]
  omega

theorem refs_cons_dir :
    refs s (p :: dirs) raw o = refs s dirs raw o + if o = s.dirInode p then 1 else 0 := by
  simp only [refs, dirsFor, List.countP_cons, beq_iff_eq, eq_comm (b := o)]
  omega

theorem slotsFor_le (s : FileSys) (o : Nat) : slotsFor s o ≤ maxFileOpen := by
  have h := List.countP_le_length (l := List.range maxFileOpen)
    (p := fun fd => (s.fileTable fd).fdInode == some o)
  rwa [List.length_range] at h

theorem Books.refs_le (h : Books m dirs raw rest s) (few : raw.length < 2 ^ 28) :
    refs s dirs raw o + 1 < 2 ^ 32 := by
  have slots := slotsFor_le s o
  have handles : dirsFor s s.handles o ≤ s.handles.length := List.countP_le_length
  have hand : dirsFor s dirs o ≤ dirs.length := List.countP_le_length
  have pointers : raw.count o ≤ raw.length := List.count_le_length
  have blocks := h.live.length_eq
  have cap := h.cap
  simp only [List.length_append] at blocks
  have root : (if o = s.rootInode then 1 else 0) ≤ 1 := by split <;> omega
  unfold maxFileOpen at slots
  unfold refs
  omega

/-! Reading the books. -/

theorem Books.mem_live (h : Books m dirs raw rest s) :
    p ∈ s.live ↔ p ∈ s.openInodes ∨ p ∈ s.handles ∨ p ∈ dirs ∨ p ∈ rest := by
  rw [h.live.mem_iff]
  simp only [List.mem_append]

theorem Books.open_live (h : Books m dirs raw rest s) (ho : o ∈ s.openInodes) : o ∈ s.live :=
  h.mem_live.2 (Or.inl ho)

theorem Books.open_below (h : Books m dirs raw rest s) (ho : o ∈ s.openInodes) : o < s.nextBlock :=
  h.below o (h.open_live ho)

theorem Books.open_nodup (h : Books m dirs raw rest s) : s.openInodes.Nodup :=
  (List.nodup_append.1 (h.live.nodup_iff.1 h.nodup)).1

/-- The order of what is in hand does not matter. -/
theorem Books.perm (h : Books m dirs raw rest s) {dirs' raw' rest' : List Nat} (hd : dirs.Perm dirs')
    (hraw : raw.Perm raw') (hr : rest.Perm rest') : Books m dirs' raw' rest' s := by
  have same : ∀ o, refs s dirs' raw' o = refs s dirs raw o := by
    intro o
    simp only [refs, dirsFor, hd.countP_eq, hraw.count_eq]
  refine ⟨h.live.trans (((hd.append hr).append_left _).append_left _), h.nodup, h.below, h.cap,
    h.kernel, fun hm => ⟨fun o ho => ?_, fun o => ?_⟩⟩
  · rw [same]
    exact (h.counts hm).exact o ho
  · rw [same]
    exact (h.counts hm).held o

theorem Books.inHand (h : Books m dirs raw rest s) : InHand [] s.live s := .nil h.nodup h.below

omit [Grows K] in
/-- After a quiet computation the books are as before. -/
theorem Books.same (h : Books m dirs raw rest s) (k : Same K s t) (live : t.live = s.live) :
    Books m dirs raw rest t where
  live := by
    rw [live, k.openInodes, k.handles]
    exact h.live
  nodup := live ▸ h.nodup
  below p hp := (h.below p (live ▸ hp)).trans_le k.nextBlock
  cap := live ▸ h.cap
  kernel hm o ho := by
    rw [k.openInodes] at ho
    rw [k.owner o (h.open_below ho)]
    exact h.kernel hm o ho
  counts hm := by
    have refs : ∀ o, refs t dirs raw o = refs s dirs raw o := fun o =>
      refs_congr k.fileTable k.handles (fun b _ => congrFun k.dirInode b) k.rootInode
    refine ⟨fun o ho => ?_, fun o => ?_⟩
    · rw [k.openInodes] at ho
      rw [refs, k.counts]
      exact (h.counts hm).exact o ho
    · rw [refs, k.openInodes]
      exact (h.counts hm).held o

variable {α : Type}

omit [Grows K] in
theorem Quiet.books {c : Sys α} (q : Quiet K [] c) (h : Books m dirs raw rest s) :
    wp c (fun _ t => Books m dirs raw rest t ∧ Still K s t) m.Tolerates s := by
  apply wp_mono (q s.live s h.inHand)
  · rintro a t ⟨same, live⟩
    exact ⟨h.same same live, same.still⟩
  · exact fun e he _ => he

/-! Blocks. -/

theorem perm_under (a : List Nat) (b c d : List Nat) :
    (p :: (a ++ (b ++ (c ++ d)))).Perm (a ++ (b ++ (c ++ p :: d))) :=
  List.perm_middle.symm.trans <| ((List.perm_middle.symm.trans
    ((List.perm_middle.symm).append_left b))).append_left a

/-- A new block, of whichever heap. -/
theorem Books.malloc (h : Books m dirs raw rest s) (room : s.live.length < 2 ^ 28)
    {heap : Option Nat} (ht : t = { s with
      oracle := t.oracle
      nextBlock := s.nextBlock + 1
      live := s.nextBlock :: s.live
      owner := Function.update s.owner s.nextBlock heap }) :
    Books m dirs raw (s.nextBlock :: rest) t := by
  have fresh : s.nextBlock ∉ s.live := fun hp => Nat.lt_irrefl _ (h.below _ hp)
  rw [ht]
  refine ⟨(h.live.cons _).trans (perm_under ..), List.nodup_cons.2 ⟨fresh, h.nodup⟩,
    fun p hp => ?_, room, fun hm o ho => ?_, fun hm => ⟨(h.counts hm).exact, (h.counts hm).held⟩⟩
  · rcases List.mem_cons.1 hp with rfl | hp
    · exact Nat.lt_succ_self _
    · exact Nat.lt_succ_of_lt (h.below p hp)
  · exact (Function.update_of_ne (Nat.ne_of_lt (h.open_below ho)) _ _).trans (h.kernel hm o ho)

theorem Still.malloc {heap : Option Nat} (ht : t = { s with
      oracle := t.oracle
      nextBlock := s.nextBlock + 1
      live := s.nextBlock :: s.live
      owner := Function.update s.owner s.nextBlock heap }) : Still K s t := by
  rw [ht]
  exact ⟨⟨(Rest.refl s).inode, rfl, fun _ _ => rfl, rfl, rfl, rfl, Nat.le_succ _,
    fun p hp => Function.update_of_ne (Nat.ne_of_lt hp) _ _⟩, rfl, rfl⟩

theorem sysMalloc_books (h : Books m dirs raw rest s) : wp sysMalloc (fun r t => Still K s t ∧
    (r = none ∧ Books m dirs raw rest t ∨ r = some s.nextBlock ∧
      Books m dirs raw (s.nextBlock :: rest) t ∧ t.owner s.nextBlock = t.pgdir t.current))
    m.Tolerates s := by
  apply wp_post (sysMalloc_spec s _)
  rintro r t (⟨rfl, ht⟩ | ⟨rfl, room, ht⟩)
  · have same : Same K s t := .of_disk ⟨_, _, _, _, ht⟩
    exact ⟨same.still, Or.inl ⟨rfl, h.same same (by rw [ht])⟩⟩
  · refine ⟨.malloc ht, Or.inr ⟨rfl, h.malloc room ht, ?_⟩⟩
    rw [ht]
    exact Function.update_self ..

/-- A block that is given back was nobody else's. -/
theorem Books.free (h : Books m dirs raw (p :: rest) s) :
    Books m dirs raw rest (s.free p) where
  live := by
    have hp := (h.live.trans (perm_under ..).symm).erase p
    rwa [List.erase_cons_head] at hp
  nodup := h.nodup.erase p
  below q hq := h.below q (List.mem_of_mem_erase hq)
  cap := (List.length_erase_le).trans h.cap
  kernel := h.kernel
  counts hm := ⟨(h.counts hm).exact, (h.counts hm).held⟩

theorem sysFree_books (h : Books m dirs raw (p :: rest) s)
    (mine : m.kernel → s.owner p = s.pgdir s.current) :
    wp (sysFree (some p)) (fun _ t => Books m dirs raw rest t ∧ Still K s t) m.Tolerates s := by
  have live : p ∈ s.live := h.mem_live.2 (by simp)
  have after : Books m dirs raw rest (s.free p) ∧ Still K s (s.free p) :=
    ⟨h.free, ⟨(Rest.refl s).inode, rfl, fun _ _ => rfl, rfl, rfl, rfl, Nat.le_refl _,
      fun _ _ => rfl⟩, rfl, rfl⟩
  simp only [sysFree, wp_bind, wp_get, wp_check, wp_ite, wp_set]
  refine ⟨fun _ => ⟨fun task => ⟨fun _ => after, fun ho hm => ?_⟩, fun _ => ⟨fun _ => after, ?_⟩⟩, ?_⟩
  · exact (ho ((mine hm).trans task)).elim
  · exact fun _ _ => by decide
  · exact fun hn => (hn live).elim

/-! Opening and closing inodes. -/

theorem kernelMalloc_spec (s : FileSys) (E : Fault → Prop) : wp kernelMalloc (fun r t =>
    (r = none ∧ t = { s with oracle := t.oracle }) ∨
    (r = some s.nextBlock ∧ s.live.length < 2 ^ 28 ∧ t = { s with
      oracle := t.oracle
      nextBlock := s.nextBlock + 1
      live := s.nextBlock :: s.live
      owner := Function.update s.owner s.nextBlock none })) E s := by
  simp only [kernelMalloc, setPgdir, wp_bind, wp_get, wp_modify, wp_pure]
  apply wp_post (sysMalloc_spec _ _)
  rintro r t (⟨rfl, ht⟩ | ⟨rfl, room, ht⟩)
  · rw [ht]
    exact Or.inl ⟨rfl, by simp⟩
  · rw [ht]
    exact Or.inr ⟨rfl, room, by simp⟩

variable (P : Partition)

/-- The slot that inode_locate finds, in one sector or in two. -/
theorem slotAt_read (disk : Buf) (inodeNo : Nat) :
    let off := inodeNo * Partition.inodeSize
    let twoSec : Bool := 512 - off % 512 < Partition.inodeSize
    let secCnt := if twoSec then 2 else 1
    decodeInode (fun k => if k < 512 * secCnt then disk (512 * (P.inodeTableLba + off / 512) + k) else 0)
      (off % 512) = slotAt P disk inodeNo := by
  intro off twoSec secCnt
  apply decodeInode_congr
  intro k hk
  have size : Partition.inodeSize = 76 := rfl
  have inside : off % 512 + k < 512 * secCnt := by
    simp only [secCnt, twoSec, decide_eq_true_eq]
    split <;> omega
  rw [if_pos inside]
  congr 1
  rw [Nat.mul_comm Partition.inodeSize]
  omega

theorem wp_ideRead {lba secCnt : Nat} {Q : Buf → FileSys → Prop} {E : Fault → Prop}
    (fails : E .assertion)
    (h : Q (fun k => if k < 512 * secCnt then s.disk (512 * lba + k) else 0) s) :
    wp (ideRead lba secCnt) Q E s := by
  simp only [ideRead, wp_bind, wp_assert, wp_get, wp_pure]
  exact ⟨fun _ => ⟨fun _ => h, fun _ => fails⟩, fun _ => fails⟩

/-- An inode that was open is counted once more, any other one is read from the disk. -/
theorem inodeOpen_spec (inodeNo : Nat) (s : FileSys) : wp (inodeOpen P inodeNo) (fun o t =>
    (o ∈ s.openInodes ∧ (s.inode o).iNo = inodeNo ∧
      t = s.setInode o { s.inode o with iOpenCnts := incr (s.inode o).iOpenCnts }) ∨
    (o = s.nextBlock ∧ (∀ p ∈ s.openInodes, (s.inode p).iNo ≠ inodeNo) ∧ inodeNo < 4096 ∧
      s.live.length < 2 ^ 28 ∧ t.owner o = none ∧ (∀ p < o, t.owner p = s.owner p) ∧
      t = { (s.setInode o { slotAt P s.disk inodeNo with iOpenCnts := 1 }).pushInode o with
        oracle := t.oracle
        nextBlock := s.nextBlock + 2
        live := o :: s.live
        owner := t.owner })) (· ≠ .heapAssertion) s := by
  simp only [inodeOpen, wp_bind, wp_get]
  cases found : s.openInodes.find? fun o => (s.inode o).iNo = inodeNo with
  | some o =>
    have hno := List.find?_some found
    simp only [modifyInode, wp_bind, wp_modify, wp_pure]
    exact Or.inl ⟨List.mem_of_find?_eq_some found, by simpa using hno, trivial⟩
  | none =>
    have missed : ∀ p ∈ s.openInodes, (s.inode p).iNo ≠ inodeNo := by
      intro p hp
      simpa using List.find?_eq_none.1 found p hp
    simp only [inodeLocate, wp_bind, wp_assert, wp_pure]
    refine ⟨fun small => ?_, fun _ => by decide⟩
    apply wp_post (kernelMalloc_spec s _)
    rintro r t₁ h₁
    apply wp_post (sysMalloc_spec t₁ _)
    rintro buf t₂ (⟨rfl, -⟩ | ⟨rfl, -, ht₂⟩)
    · exact wp_check.2 ⟨fun h => absurd h (by decide), fun _ => by decide⟩
    apply wp_check.2
    refine ⟨fun _ => ?_, fun _ => by decide⟩
    apply wp_ideRead (by decide)
    rcases h₁ with ⟨rfl, -⟩ | ⟨rfl, room, ht₁⟩
    · exact (wp_throw _).2 (by decide)
    have next : t₁.nextBlock = s.nextBlock + 1 := by rw [ht₁]
    have live : t₂.live = t₁.nextBlock :: s.nextBlock :: s.live := by rw [ht₂, ht₁]
    have mine : t₂.owner t₁.nextBlock = t₂.pgdir t₂.current := by
      rw [ht₂]
      exact Function.update_self ..
    have older : ∀ p ≤ s.nextBlock, t₂.owner p = t₁.owner p := by
      intro p hp
      rw [ht₂]
      exact Function.update_of_ne (by omega) _ _
    simp only [modifyInode, wp_bind, wp_modify, wp_pure]
    refine (wp_sysFree ?_ ?_).2 ?_
    · simp only [FileSys.setInode, FileSys.pushInode, live, List.mem_cons_self]
    · exact mine
    refine Or.inr ⟨trivial, missed, small, room, ?_, fun p hp => ?_, ?_⟩
    · apply (older _ (Nat.le_refl _)).trans
      rw [ht₁]
      exact Function.update_self ..
    · apply (older p (Nat.le_of_lt hp)).trans
      rw [ht₁]
      exact Function.update_of_ne (Nat.ne_of_lt hp) _ _
    · have disk : t₂.disk = s.disk := by rw [ht₂, ht₁]
      rw [disk, slotAt_read]
      simp only [FileSys.setInode, FileSys.pushInode, FileSys.free, live, List.erase_cons_head, FileSys.mk.injEq, and_true, true_and]
      rw [ht₂, ht₁]
      simp only [and_self]

theorem incr_of_lt {n : Nat} (h : n + 1 < 2 ^ 32) : incr n = n + 1 := Nat.mod_eq_of_lt h

theorem decr_of_pos {n : Nat} (h : n < 2 ^ 32) (pos : 0 < n) : decr n = n - 1 := by
  unfold decr
  omega

/-- One more reference to an inode that is open already. -/
theorem Books.reopen (h : Books m dirs raw rest s) (few : raw.length < 2 ^ 28) (ho : o ∈ s.openInodes) :
    Books m dirs (o :: raw) rest
      (s.setInode o { s.inode o with iOpenCnts := incr (s.inode o).iOpenCnts }) where
  live := h.live
  nodup := h.nodup
  below := h.below
  cap := h.cap
  kernel := h.kernel
  counts hm := by
    have same : ∀ p, refs (s.setInode o { s.inode o with iOpenCnts := incr (s.inode o).iOpenCnts })
        dirs (o :: raw) p = refs s dirs raw p + if p = o then 1 else 0 := fun p =>
      (refs_congr rfl rfl (fun _ _ => rfl) rfl).trans refs_cons_raw
    refine ⟨fun p hp => ?_, fun p => ?_⟩
    · rw [same]
      by_cases hpo : p = o
      · subst hpo
        rw [FileSys.setInode_self, if_pos rfl, (h.counts hm).exact p ho]
        exact incr_of_lt (h.refs_le few)
      · rw [FileSys.setInode_of_ne s _ hpo, if_neg hpo]
        exact (h.counts hm).exact p hp
    · rw [same]
      have held := (h.counts hm).held p
      by_cases hpo : p = o
      · subst hpo
        simp [FileSys.setInode, ho]
      · rw [if_neg hpo]
        exact held

/-- The first reference to an inode. -/
theorem Books.load (h : Books m dirs raw rest s) (room : s.live.length < 2 ^ 28) {i : Inode}
    (cnts : i.iOpenCnts = 1) (kernel : t.owner s.nextBlock = none)
    (older : ∀ p < s.nextBlock, t.owner p = s.owner p)
    (ht : t = { (s.setInode s.nextBlock i).pushInode s.nextBlock with
      oracle := t.oracle
      nextBlock := s.nextBlock + 2
      live := s.nextBlock :: s.live
      owner := t.owner }) :
    Books m dirs (s.nextBlock :: raw) rest t := by
  have fresh : s.nextBlock ∉ s.live := fun hp => Nat.lt_irrefl _ (h.below _ hp)
  have notOpen : s.nextBlock ∉ s.openInodes := fun hp => fresh (h.open_live hp)
  have live : t.live = s.nextBlock :: s.live := by rw [ht]
  have opened : t.openInodes = s.nextBlock :: s.openInodes := by rw [ht]; rfl
  have handles : t.handles = s.handles := by rw [ht]; rfl
  refine ⟨?_, live ▸ List.nodup_cons.2 ⟨fresh, h.nodup⟩, fun p hp => ?_, live ▸ room,
    fun hm o ho => ?_, fun hm => ?_⟩
  · rw [live, opened, handles]
    exact h.live.cons _
  · have next : t.nextBlock = s.nextBlock + 2 := by rw [ht]
    rw [next]
    rcases List.mem_cons.1 (live ▸ hp) with rfl | hp
    · omega
    · have := h.below p hp
      omega
  · rcases List.mem_cons.1 (opened ▸ ho) with rfl | ho
    · exact kernel
    · rw [older o (h.open_below ho)]
      exact h.kernel hm o ho
  · have same : ∀ p, refs t dirs (s.nextBlock :: raw) p =
        refs s dirs raw p + if p = s.nextBlock then 1 else 0 := fun p =>
      (refs_congr (by rw [ht]; rfl) handles (fun _ _ => by rw [ht]; rfl) (by rw [ht]; rfl)).trans
        refs_cons_raw
    have unheld : refs s dirs raw s.nextBlock = 0 := by
      have held := (h.counts hm).held s.nextBlock
      exact Nat.eq_zero_of_not_pos fun pos => notOpen (held.2 pos)
    have inode : t.inode = Function.update s.inode s.nextBlock i := by rw [ht]; rfl
    refine ⟨fun p hp => ?_, fun p => ?_⟩
    · rw [same, inode]
      by_cases hpo : p = s.nextBlock
      · subst hpo
        rw [Function.update_self, if_pos rfl, unheld, cnts]
      · rw [Function.update_of_ne hpo, if_neg hpo]
        apply (h.counts hm).exact
        exact (List.mem_cons.1 (opened ▸ hp)).resolve_left hpo
    · rw [same, opened, List.mem_cons, (h.counts hm).held p]
      by_cases hpo : p = s.nextBlock
      · simp [hpo]
      · simp [hpo]

theorem Still.load {i : Inode} (older : ∀ p < s.nextBlock, t.owner p = s.owner p)
    (ht : t = { (s.setInode s.nextBlock i).pushInode s.nextBlock with
      oracle := t.oracle
      nextBlock := s.nextBlock + 2
      live := s.nextBlock :: s.live
      owner := t.owner }) : Still K s t := by
  have inode : t.inode = Function.update s.inode s.nextBlock i := by rw [ht]; rfl
  refine ⟨⟨fun p hp => ?_, by rw [ht]; rfl, fun b _ => by rw [ht]; rfl, by rw [ht]; rfl,
    by rw [ht]; rfl, by rw [ht]; rfl, ?_, older⟩, by rw [ht]; rfl, by rw [ht]; rfl⟩
  · rw [inode, Function.update_of_ne (Nat.ne_of_lt hp)]
    exact (Rest.refl s).inode p hp
  · rw [ht]
    exact Nat.le_add_right _ 2

theorem inodeOpen_books (h : Books m dirs raw rest s) (few : raw.length < 2 ^ 28) (inodeNo : Nat) :
    wp (inodeOpen P inodeNo) (fun o t => Books m dirs (o :: raw) rest t ∧ Still K s t ∧
      o ∈ t.openInodes) m.Tolerates s := by
  apply wp_mono (inodeOpen_spec P inodeNo s)
  · rintro o t (⟨ho, -, rfl⟩ | ⟨rfl, -, -, room, kernel, older, ht⟩)
    · exact ⟨h.reopen few ho, .setCnts o _, ho⟩
    · refine ⟨h.load room rfl kernel older ht, .load older ht, ?_⟩
      rw [ht]
      exact List.mem_cons_self
  · exact fun e he _ => he

theorem wp_kernelFree {Q : PUnit → FileSys → Prop} (live : p ∈ s.live)
    (kernel : m.kernel → s.owner p = none) (hq : Q ⟨⟩ (s.free p)) :
    wp (kernelFree (some p)) Q m.Tolerates s := by
  simp only [kernelFree, setPgdir, sysFree, FileSys.free, wp_bind, wp_get, wp_modify, wp_check, wp_ite, wp_set,
    Function.update_self, Function.update_idem, Function.update_eq_self]
  refine ⟨fun _ => ⟨fun _ => ⟨fun _ => hq, fun ho hm => ?_⟩, fun hn => (hn trivial).elim⟩,
    fun hn => (hn live).elim⟩
  exact (ho (kernel hm)).elim

theorem Books.decr_cnts (h : Books m dirs (o :: raw) rest s) (hm : m.counted)
    (few : (o :: raw).length < 2 ^ 28) (ho : o ∈ s.openInodes) :
    decr (s.inode o).iOpenCnts = refs s dirs raw o := by
  have bound := h.refs_le few (o := o)
  rw [(h.counts hm).exact o ho, refs_cons_raw, if_pos rfl] at *
  exact decr_of_pos (Nat.lt_of_succ_lt bound) (Nat.succ_pos _)

/-- One reference less to an inode that stays open. -/
theorem Books.unref (h : Books m dirs (o :: raw) rest s) (few : (o :: raw).length < 2 ^ 28)
    (ho : o ∈ s.openInodes) (left : decr (s.inode o).iOpenCnts ≠ 0) :
    Books m dirs raw rest
      (s.setInode o { s.inode o with iOpenCnts := decr (s.inode o).iOpenCnts }) where
  live := h.live
  nodup := h.nodup
  below := h.below
  cap := h.cap
  kernel := h.kernel
  counts hm := by
    have same : ∀ p, refs (s.setInode o { s.inode o with iOpenCnts := decr (s.inode o).iOpenCnts })
        dirs raw p = refs s dirs raw p := fun p => refs_congr rfl rfl (fun _ _ => rfl) rfl
    have now := h.decr_cnts hm few ho
    obtain ⟨exact, held⟩ := h.counts hm
    refine ⟨fun p hp => ?_, fun p => ?_⟩
    · rw [same]
      by_cases hpo : p = o
      · subst hpo
        rw [FileSys.setInode_self]
        exact now
      · rw [FileSys.setInode_of_ne s _ hpo, exact p hp, refs_cons_raw, if_neg hpo, Nat.add_zero]
    · rw [same]
      by_cases hpo : p = o
      · subst hpo
        exact ⟨fun _ => Nat.pos_of_ne_zero (now ▸ left), fun _ => ho⟩
      · have hp := held p
        rwa [refs_cons_raw, if_neg hpo, Nat.add_zero] at hp

/-- The last reference to an inode is gone. -/
theorem Books.remove (h : Books m dirs (o :: raw) rest s) (few : (o :: raw).length < 2 ^ 28)
    (ho : o ∈ s.openInodes) (last : decr (s.inode o).iOpenCnts = 0) {i : Inode} :
    Books m dirs raw rest (((s.setInode o i).removeInode o).free o) where
  live := by
    have hp := h.live.erase o
    rwa [List.erase_append_left _ ho] at hp
  nodup := h.nodup.erase o
  below p hp := h.below p (List.mem_of_mem_erase hp)
  cap := List.length_erase_le.trans h.cap
  kernel hm p hp := h.kernel hm p (List.mem_of_mem_erase hp)
  counts hm := by
    have same : ∀ p, refs (((s.setInode o i).removeInode o).free o) dirs raw p = refs s dirs raw p :=
      fun p => refs_congr rfl rfl (fun _ _ => rfl) rfl
    have now := (h.decr_cnts hm few ho).symm.trans last
    obtain ⟨exact, held⟩ := h.counts hm
    have stays : ∀ p, p ∈ (((s.setInode o i).removeInode o).free o).openInodes ↔
        p ≠ o ∧ p ∈ s.openInodes := fun p => h.open_nodup.mem_erase_iff
    refine ⟨fun p hp => ?_, fun p => ?_⟩
    · obtain ⟨hpo, hp⟩ := (stays p).1 hp
      have inode : (((s.setInode o i).removeInode o).free o).inode p = s.inode p :=
        FileSys.setInode_of_ne s i hpo
      rw [same, inode, exact p hp, refs_cons_raw, if_neg hpo, Nat.add_zero]
    · rw [same, stays]
      by_cases hpo : p = o
      · subst hpo
        simp [now]
      · have hp := held p
        rw [refs_cons_raw, if_neg hpo, Nat.add_zero] at hp
        simp [hpo, hp]

/-- What closing an inode leaves. -/
def FileSys.dropRef (s : FileSys) (o : Nat) : FileSys :=
  let less := s.setInode o { s.inode o with iOpenCnts := decr (s.inode o).iOpenCnts }
  if decr (s.inode o).iOpenCnts = 0 then (less.removeInode o).free o else less

theorem inodeClose_spec (h : o ∈ s.openInodes → o ∈ s.live ∧ (m.kernel → s.owner o = none)) :
    wp (inodeClose o) (fun _ t => o ∈ s.openInodes ∧ t = s.dropRef o) m.Tolerates s := by
  simp only [inodeClose, modifyInode, wp_bind, wp_get, wp_check, wp_modify, wp_ite, wp_pure]
  refine ⟨fun ho => ⟨fun last => ?_, fun left => ?_⟩, fun _ _ => by decide⟩
  · rw [FileSys.setInode_self] at last
    apply wp_kernelFree
    · exact (h ho).1
    · exact (h ho).2
    · rw [FileSys.dropRef, if_pos last]
      exact ⟨ho, rfl⟩
  · rw [FileSys.setInode_self] at left
    rw [FileSys.dropRef, if_neg left]
    exact ⟨ho, rfl⟩

theorem Books.dropRef (h : Books m dirs (o :: raw) rest s) (few : (o :: raw).length < 2 ^ 28)
    (ho : o ∈ s.openInodes) : Books m dirs raw rest (s.dropRef o) := by
  unfold FileSys.dropRef
  split
  · exact h.remove few ho ‹_›
  · exact h.unref few ho ‹_›

theorem Still.dropRef (s : FileSys) (o : Nat) : Still K s (s.dropRef o) := by
  have cnts := Still.setCnts (K := K) (s := s) o (decr (s.inode o).iOpenCnts)
  unfold FileSys.dropRef
  split
  · exact ⟨⟨cnts.inode, rfl, fun _ _ => rfl, rfl, rfl, rfl, Nat.le_refl _, fun _ _ => rfl⟩, rfl, rfl⟩
  · exact cnts

theorem FileSys.dropRef_setSlot (s : FileSys) (fd : Nat) (f : File) (o : Nat) :
    (s.setSlot fd f).dropRef o = (s.dropRef o).setSlot fd f := by
  have inode : (s.setSlot fd f).inode = s.inode := rfl
  unfold FileSys.dropRef
  rw [inode]
  by_cases h : decr (s.inode o).iOpenCnts = 0
  · rw [if_pos h, if_pos h]
    rfl
  · rw [if_neg h, if_neg h]
    rfl

attribute [irreducible] FileSys.dropRef

theorem Books.closable (h : Books m dirs raw rest s) (ho : o ∈ s.openInodes) :
    o ∈ s.live ∧ (m.kernel → s.owner o = none) :=
  ⟨h.open_live ho, fun hm => h.kernel hm o ho⟩

theorem inodeClose_books (h : Books m dirs (o :: raw) rest s) (few : (o :: raw).length < 2 ^ 28) :
    wp (inodeClose o) (fun _ t => Books m dirs raw rest t ∧ Still K s t) m.Tolerates s := by
  apply wp_post (inodeClose_spec h.closable)
  rintro - t ⟨ho, ht⟩
  rw [ht]
  exact ⟨h.dropRef few ho, .dropRef s o⟩

/-! Opening and closing directories. -/

theorem Books.fresh (h : Books m dirs raw (p :: rest) s) :
    p ∉ s.openInodes ∧ p ∉ s.handles ++ dirs ∧ p ∉ rest := by
  have nodup := (h.live.trans (perm_under ..).symm).nodup_iff.1 h.nodup
  have new := (List.nodup_cons.1 nodup).1
  simp only [List.mem_append, not_or] at new ⊢
  exact ⟨new.1, ⟨new.2.1, new.2.2.1⟩, new.2.2.2⟩

/-- A block becomes a struct dir, which takes over a reference. -/
theorem Books.adopt (h : Books m dirs (o :: raw) (p :: rest) s) :
    Books m (p :: dirs) raw rest (s.setDirInode p o) where
  live := h.live.trans ((List.perm_middle.append_left _).append_left _)
  nodup := h.nodup
  below := h.below
  cap := h.cap
  kernel := h.kernel
  counts hm := by
    have same : ∀ q, refs (s.setDirInode p o) (p :: dirs) raw q =
        refs s dirs (o :: raw) q := by
      intro q
      have others : refs (s.setDirInode p o) dirs raw q = refs s dirs raw q := by
        refine refs_congr rfl rfl (fun b hb => ?_) rfl
        have hne : b ≠ p := fun he => h.fresh.2.1 (he ▸ hb)
        exact Function.update_of_ne hne _ _
      rw [refs_cons_dir, refs_cons_raw, FileSys.setDirInode_self, others]
    refine ⟨fun q hq => ?_, fun q => ?_⟩
    · rw [same]
      exact (h.counts hm).exact q hq
    · rw [same]
      exact (h.counts hm).held q

/-- A struct dir is taken apart again. -/
theorem Books.disown (h : Books m (p :: dirs) raw rest s) :
    Books m dirs (s.dirInode p :: raw) (p :: rest) s where
  live := h.live.trans ((List.perm_middle.symm.append_left _).append_left _)
  nodup := h.nodup
  below := h.below
  cap := h.cap
  kernel := h.kernel
  counts hm := by
    have same : ∀ q, refs s dirs (s.dirInode p :: raw) q = refs s (p :: dirs) raw q := by
      intro q
      rw [refs_cons_dir, refs_cons_raw]
    refine ⟨fun q hq => ?_, fun q => ?_⟩
    · rw [same]
      exact (h.counts hm).exact q hq
    · rw [same]
      exact (h.counts hm).held q

theorem dirOpen_books (h : Books m dirs raw rest s) (few : raw.length < 2 ^ 28) (inodeNo : Nat) :
    wp (dirOpen P inodeNo) (fun d t => Books m (d.blocks ++ dirs) raw rest t ∧ Still K s t ∧
      Mine t d ∧ d ≠ .root) m.Tolerates s := by
  unfold dirOpen
  rw [wp_bind]
  apply wp_post (sysMalloc_books (K := K) h)
  rintro r t ⟨still, ⟨rfl, -⟩ | ⟨rfl, books, mine⟩⟩
  · exact (wp_throw _).2 fun _ => by decide
  rw [wp_bind]
  apply wp_post (inodeOpen_books (K := K) P books few inodeNo)
  rintro o u ⟨books', still', -⟩
  simp only [wp_bind, wp_modify, wp_pure]
  have below : s.nextBlock < t.nextBlock := books.below _ (books.mem_live.2 (by simp))
  refine ⟨books'.adopt, ?_, ?_, by simp⟩
  · have all := still.trans still'
    refine ⟨⟨all.inode, all.rootInode, fun b hb => ?_, all.pgdir, all.current, all.handles,
      all.nextBlock, all.owner⟩, all.fileTable, all.fdTable⟩
    exact (Function.update_of_ne (Nat.ne_of_lt hb) _ _).trans (all.dirInode b hb)
  · intro b hb
    obtain rfl : b = s.nextBlock := List.mem_singleton.1 hb
    have task : u.pgdir u.current = t.pgdir t.current := by rw [still'.pgdir, still'.current]
    exact (still'.owner _ below).trans (mine.trans task.symm)

theorem dirClose_books {d : Dir} (h : Books m (d.blocks ++ dirs) raw rest s)
    (few : raw.length + 1 < 2 ^ 28) (mine : m.kernel → Mine s d) :
    wp (dirClose d) (fun _ t => Books m dirs raw rest t ∧ Still K s t) m.Tolerates s := by
  cases d with
  | root => exact (wp_pure _).2 ⟨h, .refl s⟩
  | heap b =>
    simp only [dirClose, wp_bind, wp_get, wp_check]
    refine ⟨fun _ => ?_, fun _ _ => by decide⟩
    apply wp_post (inodeClose_books (K := K) (Books.disown h) few)
    rintro - t ⟨books, still⟩
    have live : b ∈ s.live := h.mem_live.2 (by simp [Dir.blocks])
    apply wp_post (sysFree_books (K := K) books fun hm => ?_)
    · rintro - u ⟨books', still'⟩
      exact ⟨books', still.trans still'⟩
    · exact (mine hm).still still.toRest (fun q hq => h.below q (List.mem_singleton.1 hq ▸ live)) b
        (List.mem_singleton_self b)

/-! Looking for a file. -/

/-- Since s nothing has changed but that there is a directory in hand. -/
structure Holds (K : Inode → Inode → Prop) (m : Mode) (dirs raw rest : List Nat) (s : FileSys) (d : Dir)
    (t : FileSys) : Prop where
  books : Books m (d.blocks ++ dirs) raw rest t
  still : Still K s t
  mine : Mine t d

variable {α : Type} {d : Dir}

theorem Holds.quiet (h : Holds K m dirs raw rest s d t) {c : Sys α} (q : Quiet K [] c) :
    wp c (fun _ u => Holds K m dirs raw rest s d u) m.Tolerates t := by
  apply wp_post (q.books h.books)
  rintro a u ⟨books, still⟩
  refine ⟨books, h.still.trans still, h.mine.still still.toRest fun b hb => ?_⟩
  exact h.books.below b (h.books.mem_live.2 (by simp [hb]))

/-- One directory is closed and another one opened. -/
theorem Holds.move (h : Holds K m dirs raw rest s d t) (few : raw.length + 1 < 2 ^ 28) (inodeNo : Nat) :
    wp (dirClose d) (fun _ u => wp (dirOpen P inodeNo)
      (fun d' v => Holds K m dirs raw rest s d' v) m.Tolerates u) m.Tolerates t := by
  apply wp_post (dirClose_books (K := K) h.books few fun _ => h.mine)
  rintro - u ⟨books, still⟩
  apply wp_post (dirOpen_books (K := K) P books (Nat.lt_of_succ_lt few) inodeNo)
  rintro d' v ⟨books', still', mine, -⟩
  exact ⟨books', h.still.trans (still.trans still'), mine⟩

theorem searchLoop_books (few : raw.length + 1 < 2 ^ 28) (rounds : Nat) :
    ∀ name subPath searchedPath d iNo parentInodeNo t, Holds K m dirs raw rest s d t →
      wp (searchLoop P rounds name subPath searchedPath d iNo parentInodeNo)
        (fun r u => Holds K m dirs raw rest s r.2.parentDir u) m.Tolerates t := by
  induction rounds with
  | zero =>
    intro _ _ _ _ _ _ t _
    exact (wp_throw _).2 fun _ => by decide
  | succ k ih =>
    intro name subPath searchedPath d iNo parentInodeNo t h
    unfold searchLoop
    split
    · simp only [wp_bind, wp_pure]
      exact h.move P few parentInodeNo
    · rw [wp_bind, wp_assert]
      refine ⟨fun _ => ?_, fun _ _ => by decide⟩
      rw [wp_bind, wp_check]
      refine ⟨fun _ => ?_, fun _ _ => by decide⟩
      rw [wp_bind]
      apply wp_post (h.quiet (searchDirEntry_quiet d name))
      intro r t₁ h₁
      cases r with
      | none => exact (wp_pure _).2 h₁
      | some found =>
        obtain ⟨iNo', fType⟩ := found
        rw [wp_bind]
        apply wp_post (h₁.quiet (parseName_quiet subPath))
        intro next t₂ h₂
        simp only [wp_ite]
        refine ⟨fun _ => ?_, fun _ => ⟨fun _ => (wp_pure _).2 h₂, fun _ => ih _ _ _ _ _ _ _ h₂⟩⟩
        simp only [wp_bind, wp_get]
        apply wp_post (h₂.move P few iNo')
        intro _ u hu
        apply wp_post hu
        intro d' v hv
        exact ih _ _ _ _ _ _ _ hv

theorem searchFile_books (h : Books m dirs raw rest s) (few : raw.length + 1 < 2 ^ 28) (pathname : CStr) :
    wp (searchFile P pathname) (fun r t => Holds K m dirs raw rest s r.2.parentDir t)
      m.Tolerates s := by
  have start : Holds K m dirs raw rest s .root s := ⟨h, .refl s, by simp [Mine, Dir.blocks]⟩
  unfold searchFile
  split
  · exact (wp_pure _).2 start
  · rw [wp_bind, wp_assert]
    refine ⟨fun _ => ?_, fun _ _ => by decide⟩
    rw [wp_bind]
    apply wp_post (start.quiet ask_quiet)
    intro iNo t₁ h₁
    rw [wp_bind]
    apply wp_post (h₁.quiet (parseName_quiet _))
    intro next t₂ h₂
    exact searchLoop_books P few _ _ _ _ _ _ _ t₂ h₂

end Zhenxiang.Fs
