import Zhenxiang.Fs.Books

/-! The books of opening, creating and closing files. -/
namespace Zhenxiang.Fs
open Lib Kernel

/-- Where opening a file may set write_deny. -/
class Opens (K : Inode → Inode → Prop) : Prop extends Grows K where
  deny : ∀ i b, K i { i with writeDeny := b }

variable {K : Inode → Inode → Prop} {m : Mode} {dirs raw rest : List Nat}
  {s t u : FileSys} {o p fd : Nat} {f : File}

/-! Slots of the file table. -/

/-- Two predicates that differ at one member of a list at most. -/
theorem countP_agree {l : List Nat} (g g' : Nat → Bool) (nodup : l.Nodup) (hfd : fd ∈ l)
    (agree : ∀ k, k ≠ fd → g' k = g k) :
    l.countP g' + (if g fd then 1 else 0) = l.countP g + if g' fd then 1 else 0 := by
  induction l with
  | nil => cases hfd
  | cons a l ih =>
    obtain ⟨ha, nodup⟩ := List.nodup_cons.1 nodup
    simp only [List.countP_cons]
    rcases List.mem_cons.1 hfd with rfl | hfd
    · have same : l.countP g' = l.countP g := by
        apply List.countP_congr
        intro k hk
        rw [agree k fun he => ha (he ▸ hk)]
      omega
    · have hne : a ≠ fd := fun he => ha (he ▸ hfd)
      rw [agree a hne]
      have := ih nodup hfd
      omega

/-- A slot that is overwritten is lost to one inode and won by another. -/
theorem slotsFor_setSlot (hfd : fd < maxFileOpen) :
    slotsFor (s.setSlot fd f) o + (if (s.fileTable fd).fdInode = some o then 1 else 0) =
      slotsFor s o + if f.fdInode = some o then 1 else 0 := by
  have h := countP_agree (fun k => (s.fileTable k).fdInode == some o)
    (fun k => ((s.setSlot fd f).fileTable k).fdInode == some o) List.nodup_range
    (List.mem_range.2 hfd) fun k hk => by rw [FileSys.setSlot_of_ne s f hk]
  unfold slotsFor
  simpa only [FileSys.setSlot_self, beq_iff_eq] using h

theorem refs_setSlot (dirs raw : List Nat) (hfd : fd < maxFileOpen) :
    refs (s.setSlot fd f) dirs raw o + (if (s.fileTable fd).fdInode = some o then 1 else 0) =
      refs s dirs raw o + if f.fdInode = some o then 1 else 0 := by
  have slots := slotsFor_setSlot (s := s) (f := f) (o := o) hfd
  have hdirs : ∀ l, dirsFor (s.setSlot fd f) l o = dirsFor s l o := fun _ => rfl
  have handles : (s.setSlot fd f).handles = s.handles := rfl
  have root : (s.setSlot fd f).rootInode = s.rootInode := rfl
  simp only [refs, hdirs, handles, root]
  omega

theorem Books.setSlot (h : Books m dirs raw rest s) {raw' : List Nat}
    (same : m.counted → ∀ o, refs (s.setSlot fd f) dirs raw' o = refs s dirs raw o) :
    Books m dirs raw' rest (s.setSlot fd f) where
  live := h.live
  nodup := h.nodup
  below := h.below
  cap := h.cap
  kernel := h.kernel
  counts hm := by
    refine ⟨fun o ho => ?_, fun o => ?_⟩
    · rw [same hm]
      exact (h.counts hm).exact o ho
    · rw [same hm]
      exact (h.counts hm).held o

/-- A free slot takes over a reference. -/
theorem Books.fill (h : Books m dirs (o :: raw) rest s) (hfd : fd < maxFileOpen)
    (free : (s.fileTable fd).fdInode = none) (hf : f.fdInode = some o) :
    Books m dirs raw rest (s.setSlot fd f) := by
  apply h.setSlot
  intro _ p
  have slot := refs_setSlot (s := s) (f := f) (o := p) dirs raw hfd
  rw [refs_cons_raw]
  simp only [free, hf, Option.some.injEq, reduceCtorEq, if_false, Nat.add_zero, eq_comm (a := o)] at slot
  exact slot

/-- A slot gives its reference back. -/
theorem Books.empty (h : Books m dirs raw rest s) (hfd : fd < maxFileOpen)
    (used : (s.fileTable fd).fdInode = some o) (hf : f.fdInode = none) :
    Books m dirs (o :: raw) rest (s.setSlot fd f) := by
  apply h.setSlot
  intro _ p
  have slot := refs_setSlot (s := s) (f := f) (o := p) dirs raw hfd
  rw [refs_cons_raw]
  simp only [used, hf, Option.some.injEq, reduceCtorEq, if_false, Nat.add_zero, eq_comm (a := o)] at slot
  exact slot

/-- The inode of a slot stays. -/
theorem Books.keepSlot (h : Books m dirs raw rest s) (hfd : fd < maxFileOpen)
    (hf : f.fdInode = (s.fileTable fd).fdInode) : Books m dirs raw rest (s.setSlot fd f) := by
  apply h.setSlot
  intro _ p
  have slot := refs_setSlot (s := s) (f := f) (o := p) dirs raw hfd
  rw [hf] at slot
  omega

/-- The task's own table does not matter. -/
theorem Books.setFd (h : Books m dirs raw rest s) (i : Nat) (v : Int) :
    Books m dirs raw rest (s.setFd i v) where
  live := h.live
  nodup := h.nodup
  below := h.below
  cap := h.cap
  kernel := h.kernel
  counts hm := by
    have same : ∀ o, refs (s.setFd i v) dirs raw o = refs s dirs raw o := fun o =>
      refs_congr rfl rfl (fun _ _ => rfl) rfl
    refine ⟨fun o ho => ?_, fun o => ?_⟩
    · rw [same]
      exact (h.counts hm).exact o ho
    · rw [same]
      exact (h.counts hm).held o

/-- An inode's contents change, or those of one that is not open yet. -/
theorem Books.setInode (h : Books m dirs raw rest s) {i : Inode}
    (cnts : o ∈ s.openInodes → i.iOpenCnts = (s.inode o).iOpenCnts) :
    Books m dirs raw rest (s.setInode o i) where
  live := h.live
  nodup := h.nodup
  below := h.below
  cap := h.cap
  kernel := h.kernel
  counts hm := by
    have same : ∀ p, refs (s.setInode o i) dirs raw p = refs s dirs raw p := fun p =>
      refs_congr rfl rfl (fun _ _ => rfl) rfl
    refine ⟨fun p hp => ?_, fun p => ?_⟩
    · rw [same]
      by_cases hpo : p = o
      · subst hpo
        rw [FileSys.setInode_self, cnts hp]
        exact (h.counts hm).exact p hp
      · rw [FileSys.setInode_of_ne s i hpo]
        exact (h.counts hm).exact p hp
    · rw [same]
      exact (h.counts hm).held p

section Tables
variable [Grows K]

theorem Rest.setSlot (s : FileSys) (fd : Nat) (f : File) : Rest K s (s.setSlot fd f) :=
  ⟨(Rest.refl s).inode, rfl, fun _ _ => rfl, rfl, rfl, rfl, Nat.le_refl _, fun _ _ => rfl⟩

theorem Rest.setFd (s : FileSys) (i : Nat) (v : Int) : Rest K s (s.setFd i v) :=
  ⟨(Rest.refl s).inode, rfl, fun _ _ => rfl, rfl, rfl, rfl, Nat.le_refl _, fun _ _ => rfl⟩

theorem Rest.setInode {i : Inode} (h : o < s.nextBlock → K (s.inode o) i) : Rest K s (s.setInode o i) := by
  refine ⟨fun p hp => ?_, rfl, fun _ _ => rfl, rfl, rfl, rfl, Nat.le_refl _, fun _ _ => rfl⟩
  by_cases hpo : p = o
  · subst hpo
    rw [FileSys.setInode_self]
    exact h hp
  · rw [FileSys.setInode_of_ne s i hpo]
    exact (Rest.refl s).inode p hp

/-! The tables after a file is opened. -/

/-- No entry of the running task's table is free. -/
def FullTable (s : FileSys) : Prop :=
  ∀ i, 3 ≤ i → i < maxFilesOpenPerProc → s.fdTable s.current i ≠ -1

/-- What pcb_fd_install does. -/
def Installed (s t : FileSys) (fd : Nat) (ret : Int) : Prop :=
  (ret = -1 ∧ t = s ∧ FullTable s) ∨ ∃ i, 3 ≤ i ∧ i < maxFilesOpenPerProc ∧
    s.fdTable s.current i = -1 ∧ ret = i ∧ t = s.setFd i fd

theorem pcbFdInstall_spec (s : FileSys) (fd : Nat) (E : Fault → Prop) :
    wp (pcbFdInstall fd) (fun ret t => Installed s t fd ret) E s := by
  simp only [pcbFdInstall, wp_bind, wp_get]
  cases found : (List.range' 3 (maxFilesOpenPerProc - 3)).find? fun i => s.fdTable s.current i = -1 with
  | none =>
    refine (wp_pure _).2 (Or.inl ⟨rfl, rfl, fun i low high => ?_⟩)
    have used := List.find?_eq_none.1 found i (List.mem_range'_1.2 ⟨low, high⟩)
    simpa using used
  | some i =>
    have mem := List.mem_of_find?_eq_some found
    have free := List.find?_some found
    simp only [wp_bind, wp_set, wp_pure]
    rw [List.mem_range'_1] at mem
    exact Or.inr ⟨i, mem.1, mem.2, by simpa using free, rfl, rfl⟩

/-- A slot of the file table is free. -/
def FreeSlot (s : FileSys) : Prop :=
  ∃ fd, 3 ≤ fd ∧ fd < maxFileOpen ∧ (s.fileTable fd).fdInode = none

theorem getFreeSlotInGlobal_spec (s : FileSys) (E : Fault → Prop) :
    wp getFreeSlotInGlobal (fun r t => t = s ∧ (r = none → ¬ FreeSlot s) ∧ ∀ fd, r = some fd →
      3 ≤ fd ∧ fd < maxFileOpen ∧ (s.fileTable fd).fdInode = none) E s := by
  simp only [getFreeSlotInGlobal, wp_bind, wp_get, wp_pure]
  refine ⟨trivial, fun none => ?_, fun fd found => ?_⟩
  · rintro ⟨fd, low, high, free⟩
    have used := List.find?_eq_none.1 none fd (List.mem_range'_1.2 ⟨low, high⟩)
    simp [free] at used
  · have mem := List.mem_of_find?_eq_some found
    have free := List.find?_some found
    rw [List.mem_range'_1] at mem
    exact ⟨mem.1, mem.2, by simpa using free⟩

/-- A slot that was free holds an open file, and a free entry of the task's table its number.
The answer is -1 and there is no such entry when the table is full, or access is denied. -/
structure TookSlot (s t : FileSys) (flag : Nat) (ret : Int) (denied : Prop) (fd o : Nat) : Prop where
  low : 3 ≤ fd
  high : fd < maxFileOpen
  free : (s.fileTable fd).fdInode = none
  table : t.fileTable = Function.update s.fileTable fd ⟨0, flag, some o⟩
  fds : (ret = -1 ∧ t.fdTable = s.fdTable ∧ (FullTable s ∨ denied)) ∨ ¬ denied ∧ ∃ i, 3 ≤ i ∧
    i < maxFilesOpenPerProc ∧ s.fdTable s.current i = -1 ∧ ret = i ∧ t.fdTable = (s.setFd i fd).fdTable

/-- No slot in use has changed, and no task's table. -/
structure SameFiles (s t : FileSys) : Prop where
  inode : ∀ fd, (t.fileTable fd).fdInode = (s.fileTable fd).fdInode
  used : ∀ fd, (s.fileTable fd).fdInode ≠ none → t.fileTable fd = s.fileTable fd
  fds : t.fdTable = s.fdTable

/-- What the tables are after an attempt to open a file, which takes a slot or not. -/
def Opened (s t : FileSys) (flag : Nat) (ret : Int) (takes denied : Prop) : Prop :=
  (ret = -1 ∧ SameFiles s t ∧ ¬ takes) ∨ takes ∧ ∃ fd o, TookSlot s t flag ret denied fd o

omit [Grows K] in
theorem Still.sameFiles (h : Still K s t) : SameFiles s t :=
  ⟨fun fd => by rw [h.fileTable], fun fd _ => by rw [h.fileTable], h.fdTable⟩

/-- The end of file_open and file_create: the slot is filled already. -/
theorem TookSlot.install {flag : Nat} {ret : Int} {denied : Prop} (h : Installed t u fd ret)
    (allowed : ¬ denied) (low : 3 ≤ fd) (high : fd < maxFileOpen) (free : (s.fileTable fd).fdInode = none)
    (table : t.fileTable = Function.update s.fileTable fd ⟨0, flag, some o⟩)
    (fds : t.fdTable = s.fdTable) (current : t.current = s.current) :
    TookSlot s u flag ret denied fd o := by
  refine ⟨low, high, free, ?_, ?_⟩
  · rcases h with ⟨-, rfl, -⟩ | ⟨i, -, -, -, -, rfl⟩
    · exact table
    · exact table
  · rcases h with ⟨hr, rfl, full⟩ | ⟨i, hlow, hhigh, empty, hr, rfl⟩
    · refine Or.inl ⟨hr, fds, Or.inl ?_⟩
      simpa only [FullTable, fds, current] using full
    · refine Or.inr ⟨allowed, i, hlow, hhigh, ?_, hr, ?_⟩
      · rw [← fds, ← current]
        exact empty
      · simp only [FileSys.setFd, fds, current]

theorem Books.installed {ret : Int} (h : Books m dirs raw rest s) (k : Installed s t fd ret) :
    Books m dirs raw rest t ∧ Rest K s t := by
  rcases k with ⟨-, rfl, -⟩ | ⟨i, -, -, -, -, rfl⟩
  · exact ⟨h, .refl t⟩
  · exact ⟨h.setFd i fd, .setFd s i fd⟩

end Tables

section Opening
variable [Opens K] (P : Partition)

/-- file_open finds that somebody may be writing the file. -/
def Denied (s : FileSys) (inodeNo flag : Nat) : Prop :=
  canWrite flag = true ∧ ∃ o t, inodeOpen P inodeNo s = .ok (o, t) ∧ (t.inode o).writeDeny = true

theorem fileOpen_books (h : Books m dirs raw rest s) (few : raw.length < 2 ^ 28)
    (inodeNo flag : Nat) : wp (fileOpen P inodeNo flag) (fun ret t => Books m dirs raw rest t ∧
      Rest K s t ∧ Opened s t flag ret (FreeSlot s) (Denied P s inodeNo flag)) m.Tolerates s := by
  unfold fileOpen
  rw [wp_bind]
  apply wp_post (getFreeSlotInGlobal_spec s _)
  rintro r s ⟨rfl, full, slot⟩
  cases r with
  | none => exact (wp_pure _).2 ⟨h, .refl s, Or.inl ⟨rfl, (Still.refl (K := K) s).sameFiles, full rfl⟩⟩
  | some fd =>
    obtain ⟨low, high, free⟩ := slot fd rfl
    rw [wp_bind]
    apply wp_post (wp_run (inodeOpen_books (K := K) P h few inodeNo))
    rintro o t ⟨⟨books, still, -⟩, run⟩
    have filled : Books m dirs raw rest (t.setSlot fd ⟨0, flag, some o⟩) :=
      books.fill high (still.fileTable ▸ free) rfl
    have kept : Rest K s (t.setSlot fd ⟨0, flag, some o⟩) := still.toRest.trans (.setSlot t fd _)
    have table : (t.setSlot fd ⟨0, flag, some o⟩).fileTable =
        Function.update s.fileTable fd ⟨0, flag, some o⟩ := by rw [← still.fileTable]; rfl
    have takes : FreeSlot s := ⟨fd, low, high, free⟩
    have same : ∀ {p v}, inodeOpen P inodeNo s = .ok (p, v) → p = o ∧ v = t := by
      intro p v other
      cases run.symm.trans other
      exact ⟨rfl, rfl⟩
    simp only [setFile, modifyInode, wp_bind, wp_modify, wp_ite, wp_get, wp_pure]
    refine ⟨fun writing => ⟨fun quiet => ?_, fun busy => ⟨filled, kept, Or.inr ⟨takes, fd, o, low, high, free,
      table, Or.inl ⟨rfl, still.fdTable, Or.inr ⟨writing, o, t, run, ?_⟩⟩⟩⟩⟩, fun reading => ?_⟩
    · -- the file may be written from now on
      have denied := filled.setInode (o := o) (i := { t.inode o with writeDeny := true }) fun _ => rfl
      apply wp_post (pcbFdInstall_spec _ fd _)
      intro ret v inst
      obtain ⟨books', rest'⟩ := denied.installed (K := K) inst
      refine ⟨books', kept.trans (Rest.trans (.setInode fun _ => Opens.deny _ true) rest'), Or.inr ⟨takes, fd, o, ?_⟩⟩
      refine .install inst ?_ low high free table still.fdTable still.current
      rintro ⟨-, p, v, open', deny⟩
      obtain ⟨rfl, rfl⟩ := same open'
      exact absurd (quiet.symm.trans deny) (by decide)
    · have still_denied : (t.setSlot fd ⟨0, flag, some o⟩).inode = t.inode := rfl
      simpa [still_denied] using busy
    · apply wp_post (pcbFdInstall_spec _ fd _)
      intro ret v inst
      obtain ⟨books', rest'⟩ := filled.installed (K := K) inst
      exact ⟨books', kept.trans rest', Or.inr ⟨takes, fd, o, .install inst (fun d => reading d.1) low high free table
        still.fdTable still.current⟩⟩

theorem fileClose_books (h : Books m dirs raw rest s) (few : raw.length + 1 < 2 ^ 28)
    (high : fd < maxFileOpen) : wp (fileClose fd) (fun _ t => Books m dirs raw rest t ∧ Rest K s t ∧
      ∃ o ∈ s.openInodes, (s.fileTable fd).fdInode = some o ∧ t.fdTable = s.fdTable ∧
        t.fileTable = Function.update s.fileTable fd { s.fileTable fd with fdInode := none })
      m.Tolerates s := by
  simp only [fileClose, wp_bind, wp_get]
  cases used : (s.fileTable fd).fdInode with
  | none =>
    simp only [fdInode, used]
    exact (wp_throw _).2 fun _ => by decide
  | some o =>
    simp only [fdInode, used, modifyInode, setFile, wp_bind, wp_get, wp_check, wp_modify, wp_pure]
    refine ⟨fun ho => ?_, fun _ _ => by decide⟩
    have books : Books m dirs raw rest (s.setInode o { s.inode o with writeDeny := false }) :=
      h.setInode fun _ => rfl
    apply wp_post (inodeClose_spec books.closable)
    rintro - t ⟨-, ht⟩
    rw [ht]
    have emptied := (books.empty (f := { s.fileTable fd with fdInode := none }) high used rfl).dropRef few ho
    rw [FileSys.dropRef_setSlot] at emptied
    have still : Still K (s.setInode o { s.inode o with writeDeny := false }) _ := .dropRef _ o
    refine ⟨emptied, ?_, o, ho, rfl, (FileSys.setSlot_fdTable ..).trans still.fdTable, ?_⟩
    · exact Rest.trans (.setInode fun _ => Opens.deny _ false) (still.toRest.trans (.setSlot _ fd _))
    · exact congrArg (Function.update · fd { s.fileTable fd with fdInode := none }) still.fileTable

end Opening

/-! Creating a file. -/

variable (P : Partition)

/-- The exit of file_create that keeps io_buf: there is no inode number left. -/
def CreateStarved (s : FileSys) : Prop :=
  ∃ ioBuf t u, sysMalloc s = .ok (some ioBuf, t) ∧ inodeBitmapAlloc P t = .ok (none, u)

theorem Rest.mine (h : Rest K s t) (hp : p < s.nextBlock) (mine : s.owner p = s.pgdir s.current) :
    t.owner p = t.pgdir t.current := by
  rw [h.owner p hp, h.pgdir, h.current]
  exact mine

theorem SameFiles.trans (h : SameFiles s t) (k : SameFiles t u) : SameFiles s u where
  inode fd := (k.inode fd).trans (h.inode fd)
  used fd hfd := by
    have hfd' : (t.fileTable fd).fdInode ≠ none := by rw [h.inode fd]; exact hfd
    exact (k.used fd hfd').trans (h.used fd hfd)
  fds := k.fds.trans h.fds

/-- The new inode is open, and its slot holds the reference. -/
theorem Books.enlist (h : Books m dirs raw (p :: rest) s) (high : fd < maxFileOpen)
    (free : (s.fileTable fd).fdInode = none) (hf : f.fdInode = some p)
    (k : Same K (s.setSlot fd f) t) (live : t.live = s.live) (kernel : m.kernel → s.owner p = none)
    {i : Inode} (cnts : i.iOpenCnts = 1) :
    Books m dirs raw rest ((t.pushInode p).setInode p i) := by
  have inLive : p ∈ s.live := h.mem_live.2 (by simp)
  have below : p < s.nextBlock := h.below p inLive
  have opened : t.openInodes = s.openInodes := k.openInodes
  have handles : t.handles = s.handles := k.handles
  have owner : ∀ q < s.nextBlock, t.owner q = s.owner q := k.owner
  refine ⟨?_, ?_, fun q hq => ?_, ?_, fun hm q hq => ?_, fun hm => ?_⟩
  · have perm := h.live.trans (perm_under ..).symm
    rw [← live, ← opened, ← handles] at perm
    exact perm
  · exact live.symm ▸ h.nodup
  · exact (h.below q (live ▸ hq)).trans_le k.nextBlock
  · exact live.symm ▸ h.cap
  · rcases List.mem_cons.1 hq with rfl | hq
    · exact (owner q below).trans (kernel hm)
    · exact (owner q (h.open_below (opened ▸ hq))).trans (h.kernel hm q (opened ▸ hq))
  · have same : ∀ q, refs ((t.pushInode p).setInode p i) dirs raw q =
        refs s dirs raw q + if q = p then 1 else 0 := by
      intro q
      have slot := refs_setSlot (s := s) (f := f) (o := q) dirs raw high
      simp only [free, hf, Option.some.injEq, reduceCtorEq, if_false, Nat.add_zero,
        eq_comm (a := p)] at slot
      rw [← slot]
      exact refs_congr k.fileTable k.handles (fun b _ => congrFun k.dirInode b) k.rootInode
    have unheld : refs s dirs raw p = 0 :=
      Nat.eq_zero_of_not_pos fun pos => h.fresh.1 (((h.counts hm).held p).2 pos)
    refine ⟨fun q hq => ?_, fun q => ?_⟩
    · rw [same]
      by_cases hqp : q = p
      · subst hqp
        rw [FileSys.setInode_self, if_pos rfl, unheld, cnts]
      · rw [FileSys.setInode_of_ne _ i hqp, if_neg hqp, Nat.add_zero]
        have hq' : q ∈ s.openInodes := opened ▸ (List.mem_cons.1 hq).resolve_left hqp
        exact (k.counts q).trans ((h.counts hm).exact q hq')
    · have mem : q ∈ ((t.pushInode p).setInode p i).openInodes ↔ q = p ∨ q ∈ s.openInodes := by
        rw [← opened]
        exact List.mem_cons
      rw [same, mem, (h.counts hm).held q]
      by_cases hqp : q = p
      · simp [hqp]
      · simp [hqp]

/-- The slot is given up again. -/
theorem Books.unslot {g : File} (h : Books m dirs raw rest s) (high : fd < maxFileOpen)
    (free : (s.fileTable fd).fdInode = none) (hg : g.fdInode = none)
    (k : Same K (s.setSlot fd f) t) (live : t.live = s.live) :
    Books m dirs raw rest (t.setSlot fd g) where
  live := by
    have handles : t.handles = s.handles := k.handles
    have opened : t.openInodes = s.openInodes := k.openInodes
    have perm := h.live
    rw [← live, ← opened, ← handles] at perm
    exact perm
  nodup := live.symm ▸ h.nodup
  below q hq := (h.below q (live ▸ hq)).trans_le k.nextBlock
  cap := live.symm ▸ h.cap
  kernel hm q hq := by
    have hq' : q ∈ s.openInodes := k.openInodes ▸ hq
    exact (k.owner q (h.open_below hq')).trans (h.kernel hm q hq')
  counts hm := by
    have same : ∀ q, refs (t.setSlot fd g) dirs raw q = refs s dirs raw q := by
      intro q
      have before := refs_setSlot (s := s) (f := f) (o := q) dirs raw high
      have after := refs_setSlot (s := t) (f := g) (o := q) dirs raw high
      have between : refs t dirs raw q = refs (s.setSlot fd f) dirs raw q :=
        refs_congr k.fileTable k.handles (fun b _ => congrFun k.dirInode b) k.rootInode
      have slot : t.fileTable fd = f := by rw [k.fileTable, FileSys.setSlot_self]
      simp only [free, hg, slot, reduceCtorEq, if_false, Nat.add_zero] at before after
      omega
    have opened : (t.setSlot fd g).openInodes = s.openInodes := k.openInodes
    refine ⟨fun q hq => ?_, fun q => ?_⟩
    · rw [same]
      exact (k.counts q).trans ((h.counts hm).exact q (opened ▸ hq))
    · rw [same, opened]
      exact (h.counts hm).held q

variable [Grows K]

/-- The struct inode of a file that is not created after all goes back, and its number. -/
theorem giveUp_books {inode ioBuf inodeNo : Nat} (h : Books m dirs raw (inode :: ioBuf :: rest) s)
    (inode_mine : s.owner inode = s.pgdir s.current) (buf_mine : s.owner ioBuf = s.pgdir s.current) :
    wp (do sysFree (some inode); inodeBitmapClear inodeNo; sysFree (some ioBuf); pure (-1) : Sys Int)
      (fun ret t => ret = -1 ∧ Books m dirs raw rest t ∧ Still K s t) m.Tolerates s := by
  have below : ioBuf < s.nextBlock := h.below _ (h.mem_live.2 (by simp))
  rw [wp_bind]
  apply wp_post (sysFree_books (K := K) h fun _ => inode_mine)
  rintro - t ⟨books, still⟩
  rw [wp_bind]
  apply wp_post ((inodeBitmapClear_quiet (K := K) inodeNo).books books)
  rintro - u ⟨books', still'⟩
  rw [wp_bind]
  apply wp_post (sysFree_books (K := K) books' fun _ => (still.trans still').mine below buf_mine)
  rintro - v ⟨books'', still''⟩
  exact (wp_pure _).2 ⟨rfl, books'', still.trans (still'.trans still'')⟩

omit [Grows K] in
theorem Rest.setNew (h : Rest K s t) (new : s.nextBlock ≤ o) {i : Inode} : Rest K s (t.setInode o i) := by
  refine ⟨fun p hp => ?_, h.rootInode, h.dirInode, h.pgdir, h.current, h.handles, h.nextBlock, h.owner⟩
  rw [FileSys.setInode_of_ne t i (Nat.ne_of_lt (hp.trans_le new))]
  exact h.inode p hp

omit [Grows K] in
theorem Rest.push (h : Rest K s t) (o : Nat) : Rest K s (t.pushInode o) :=
  ⟨h.inode, h.rootInode, h.dirInode, h.pgdir, h.current, h.handles, h.nextBlock, h.owner⟩

/-- A slot that was filled and emptied again. -/
theorem SameFiles.refill {f g : File} (free : (s.fileTable fd).fdInode = none) (hg : g.fdInode = none)
    (table : t.fileTable = Function.update (Function.update s.fileTable fd f) fd g)
    (fds : t.fdTable = s.fdTable) : SameFiles s t := by
  have others : ∀ k, k ≠ fd → t.fileTable k = s.fileTable k := by
    intro k hk
    rw [table, Function.update_of_ne hk, Function.update_of_ne hk]
  have self : t.fileTable fd = g := by rw [table, Function.update_self]
  refine ⟨fun k => ?_, fun k hk => others k fun he => hk (he ▸ free), fds⟩
  by_cases hk : k = fd
  · rw [hk, self, hg, free]
  · rw [others k hk]

/-- The second half of file_create finds a slot for the file and a place for its entry. -/
def Installs (s : FileSys) (parentDir : Dir) (filename : CStr) (flag inodeNo inode : Nat) : Prop :=
  ∃ fd t, getFreeSlotInGlobal s = .ok (some fd, s) ∧
    createOnDisk P parentDir filename inodeNo inode (s.setSlot fd ⟨0, flag, some inode⟩) = .ok (true, t)

theorem installNew_books {inode ioBuf inodeNo : Nat} {parentDir : Dir} {filename : CStr} {flag : Nat}
    (h : Books m dirs raw (inode :: ioBuf :: rest) t)
    (kept : Still K s t) (new : s.nextBlock ≤ inode)
    (heap : m.kernel → t.pgdir t.current = none ∨ ¬ Installs P t parentDir filename flag inodeNo inode)
    (inode_mine : t.owner inode = t.pgdir t.current) (buf_mine : t.owner ioBuf = t.pgdir t.current) :
    wp (installNew P parentDir filename flag inodeNo inode ioBuf) (fun ret u =>
      Books m dirs raw rest u ∧ Rest K s u ∧
        Opened s u flag ret (Installs P t parentDir filename flag inodeNo inode) False) m.Tolerates t := by
  unfold installNew
  rw [wp_bind]
  apply wp_post (wp_run (getFreeSlotInGlobal_spec t _))
  rintro r t ⟨⟨rfl, -, slot⟩, found⟩
  cases r with
  | none =>
    apply wp_post (giveUp_books (K := K) h inode_mine buf_mine)
    rintro ret u ⟨rfl, books, still⟩
    refine ⟨books, (kept.trans still).toRest, Or.inl ⟨rfl, (kept.trans still).sameFiles, ?_⟩⟩
    rintro ⟨fd, -, found', -⟩
    cases found.symm.trans found'
  | some fd =>
    obtain ⟨low, high, free⟩ := slot fd rfl
    have inode_below : inode < t.nextBlock := h.below _ (h.mem_live.2 (by simp))
    have buf_below : ioBuf < t.nextBlock := h.below _ (h.mem_live.2 (by simp))
    simp only [setFile]
    rw [wp_bind, wp_modify, wp_bind]
    apply wp_mono (wp_run (createOnDisk_quiet (K := K) P parentDir filename inodeNo inode _ _
      (.nil (s := t.setSlot fd ⟨0, flag, some inode⟩) h.nodup h.below))) ?_ fun _ he _ => he
    rintro done u ⟨⟨same, live⟩, run⟩
    have since : Rest K t u := Rest.trans (.setSlot t fd _) same.still.toRest
    rw [wp_ite]
    refine ⟨fun yes => ?_, fun no => ?_⟩
    · have installs : Installs P t parentDir filename flag inodeNo inode := ⟨fd, u, found, yes ▸ run⟩
      have enlisted := h.enlist high free rfl same live
        (fun hm => inode_mine.trans ((heap hm).resolve_right fun no => no installs))
        (i := { u.inode inode with iOpenCnts := 1 }) rfl
      have kept' : Rest K s ((u.pushInode inode).setInode inode { u.inode inode with iOpenCnts := 1 }) :=
        ((kept.toRest.trans since).push inode).setNew new
      simp only [modifyInode, wp_bind, wp_modify]
      apply wp_post (sysFree_books (K := K) enlisted fun _ => since.mine buf_below buf_mine)
      rintro - v ⟨books, still⟩
      apply wp_post (pcbFdInstall_spec v fd _)
      intro ret w inst
      obtain ⟨books', rest'⟩ := books.installed (K := K) inst
      refine ⟨books', kept'.trans (still.toRest.trans rest'), Or.inr ⟨installs, fd, inode, ?_⟩⟩
      have table : v.fileTable = Function.update s.fileTable fd ⟨0, flag, some inode⟩ := by
        rw [← kept.fileTable]
        exact still.fileTable.trans same.fileTable
      have fds : v.fdTable = s.fdTable := by
        rw [← kept.fdTable]
        exact still.fdTable.trans same.fdTable
      exact .install inst id low high (kept.fileTable ▸ free) table fds (kept'.trans still.toRest).current
    · have books : Books m dirs raw (inode :: ioBuf :: rest) (u.setSlot fd ⟨0, 0, none⟩) :=
        h.unslot high free rfl same live
      rw [wp_bind, wp_modify]
      apply wp_post (giveUp_books (K := K) books (since.mine inode_below inode_mine)
        (since.mine buf_below buf_mine))
      rintro ret v ⟨rfl, books', still⟩
      have since' : Rest K s v := kept.toRest.trans
        (since.trans (Rest.trans (.setSlot u fd ⟨0, 0, none⟩) still.toRest))
      refine ⟨books', since', Or.inl ⟨rfl, .refill (f := ⟨0, flag, some inode⟩) (g := ⟨0, 0, none⟩)
        (kept.fileTable ▸ free) rfl ?_ ?_, ?_⟩⟩
      · rw [still.fileTable, ← kept.fileTable]
        exact congrArg (Function.update · fd ⟨0, 0, none⟩) same.fileTable
      · rw [still.fdTable, ← kept.fdTable]
        exact same.fdTable
      · rintro ⟨fd', v, found', made⟩
        cases found.symm.trans found'
        cases run.symm.trans made
        exact no rfl

/-- file_create makes the file. -/
def Makes (s : FileSys) (parentDir : Dir) (filename : CStr) (flag : Nat) : Prop :=
  ∃ ioBuf t inodeNo u inode v, sysMalloc s = .ok (some ioBuf, t) ∧
    inodeBitmapAlloc P t = .ok (some inodeNo, u) ∧ sysMalloc u = .ok (some inode, v) ∧
    Installs P (v.setInode inode (inodeInit inodeNo)) parentDir filename flag inodeNo inode

theorem fileCreate_books {parentDir : Dir} {filename : CStr} {flag : Nat} (h : Books m dirs raw rest s)
    (heap : m.kernel → s.pgdir s.current = none ∨ ¬ Makes P s parentDir filename flag) :
    wp (fileCreate P parentDir filename flag) (fun ret t => ∃ lost,
      Books m dirs raw (lost ++ rest) t ∧ Rest K s t ∧
        Opened s t flag ret (Makes P s parentDir filename flag) False ∧
        (lost ≠ [] ↔ CreateStarved P s)) m.Tolerates s := by
  unfold fileCreate
  rw [wp_bind]
  apply wp_post (wp_run (sysMalloc_books (K := K) h))
  rintro r s₁ ⟨⟨still₁, ⟨rfl, books₁⟩ | ⟨rfl, books₁, mine₁⟩⟩, run₁⟩
  · refine (wp_pure _).2 ⟨[], books₁, still₁.toRest, Or.inl ⟨rfl, still₁.sameFiles, ?_⟩, by simp, ?_⟩
    · rintro ⟨_, _, _, _, _, _, malloc, -⟩
      cases run₁.symm.trans malloc
    · rintro ⟨_, _, _, malloc, -⟩
      cases run₁.symm.trans malloc
  rw [wp_bind]
  apply wp_post (wp_run ((inodeBitmapAlloc_quiet (K := K) P).books books₁))
  rintro r s₂ ⟨⟨books₂, still₂⟩, run₂⟩
  cases r with
  | none =>
    refine (wp_pure _).2 ⟨[_], books₂, (still₁.trans still₂).toRest,
      Or.inl ⟨rfl, (still₁.trans still₂).sameFiles, ?_⟩, fun _ => ⟨_, _, _, run₁, run₂⟩, by simp⟩
    rintro ⟨_, _, _, _, _, _, malloc, full, -⟩
    cases run₁.symm.trans malloc
    cases run₂.symm.trans full
  | some inodeNo =>
    have fed : ¬ CreateStarved P s := by
      rintro ⟨_, _, _, malloc, full⟩
      cases run₁.symm.trans malloc
      cases run₂.symm.trans full
    have buf_below : s.nextBlock < s₁.nextBlock := books₁.below _ (books₁.mem_live.2 (by simp))
    have buf_mine : s₂.owner s.nextBlock = s₂.pgdir s₂.current := still₂.mine buf_below mine₁
    rw [wp_bind]
    apply wp_post (wp_run (sysMalloc_books (K := K) books₂))
    rintro r s₃ ⟨⟨still₃, ⟨rfl, books₃⟩ | ⟨rfl, books₃, inode_mine⟩⟩, run₃⟩
    · rw [wp_bind]
      apply wp_post ((inodeBitmapClear_quiet (K := K) inodeNo).books books₃)
      rintro - t ⟨books, still⟩
      have kept := still₁.trans (still₂.trans (still₃.trans still))
      have mine := (still₃.trans still).mine (buf_below.trans_le still₂.nextBlock) buf_mine
      rw [wp_bind]
      apply wp_post (sysFree_books (K := K) books fun _ => mine)
      rintro - u ⟨books', still'⟩
      refine (wp_pure _).2 ⟨[], books', (kept.trans still').toRest,
        Or.inl ⟨rfl, (kept.trans still').sameFiles, ?_⟩, by simp [fed]⟩
      rintro ⟨_, _, _, _, _, _, malloc, alloc, malloc', -⟩
      cases run₁.symm.trans malloc
      cases run₂.symm.trans alloc
      cases run₃.symm.trans malloc'
    · -- from here on the new inode is in hand, too
      have kept : Still K s s₃ := still₁.trans (still₂.trans still₃)
      have older : s.nextBlock ≤ s₂.nextBlock := (still₁.trans still₂).nextBlock
      have books := books₃.setInode (i := inodeInit inodeNo) fun ho => (books₃.fresh.1 ho).elim
      have init : Still K s (s₃.setInode s₂.nextBlock (inodeInit inodeNo)) :=
        ⟨kept.toRest.setNew older, kept.fileTable, kept.fdTable⟩
      have makes : Makes P s parentDir filename flag ↔
          Installs P (s₃.setInode s₂.nextBlock (inodeInit inodeNo)) parentDir filename flag inodeNo s₂.nextBlock := by
        constructor
        · rintro ⟨_, _, _, _, _, _, malloc, alloc, malloc', installs⟩
          cases run₁.symm.trans malloc
          cases run₂.symm.trans alloc
          cases run₃.symm.trans malloc'
          exact installs
        · exact fun installs => ⟨_, _, _, _, _, _, run₁, run₂, run₃, installs⟩
      have heap₃ : m.kernel → s₃.pgdir s₃.current = none ∨ ¬ Installs P
          (s₃.setInode s₂.nextBlock (inodeInit inodeNo)) parentDir filename flag inodeNo s₂.nextBlock := by
        rw [kept.pgdir, kept.current, ← makes]
        exact heap
      rw [wp_bind, wp_modify]
      apply wp_post (installNew_books P books init older heap₃ inode_mine
        (still₃.mine (buf_below.trans_le still₂.nextBlock) buf_mine))
      rintro ret t ⟨books', rest', opened⟩
      exact ⟨[], books', rest', by rw [makes]; exact opened, by simp [fed]⟩

/-! Writing and reading. -/

/-- Where file_write goes on to allocate its buffers. -/
def WriteFits (s : FileSys) (fd count inode : Nat) : Prop :=
  (s.fileTable fd).fdInode = some inode ∧ inode ∈ s.openInodes ∧
    ((s.inode inode).iSize + count) % 2 ^ 32 ≤ 512 * 140

/-- The exits of file_write that keep its buffers: no memory for all_blocks, or no block on
the disk. -/
def WriteStarved (s : FileSys) (fd count : Nat) : Prop :=
  ∃ inode ioBuf t, WriteFits s fd count inode ∧ sysMalloc s = .ok (some ioBuf, t) ∧
    ((∃ u, sysMalloc t = .ok (none, u)) ∨
      ∃ blocks u, sysMalloc t = .ok (some blocks, u) ∧
        ((∃ v, firstBlock P inode u = .ok (false, v)) ∨
          ∃ v w, firstBlock P inode u = .ok (true, v) ∧
            blocksForWrite P inode count v = .ok (none, w)))

/-- The exit of file_read that keeps io_buf: no memory for all_blocks. -/
def ReadStarved (s : FileSys) (fd count : Nat) : Prop :=
  ∃ inode ioBuf t u, (s.fileTable fd).fdInode = some inode ∧ inode ∈ s.openInodes ∧
    ¬ ((s.inode inode).iSize < ((s.fileTable fd).fdPos + count) % 2 ^ 32 ∧
      sizeToRead (s.fileTable fd).fdPos (s.inode inode).iSize count = 0) ∧
    sysMalloc s = .ok (some ioBuf, t) ∧ sysMalloc t = .ok (none, u)

theorem wp_fdInode {Q : Nat → FileSys → Prop} {E : Fault → Prop} (undef : E .undefined)
    (h : ∀ o, f.fdInode = some o → o ∈ s.openInodes → Q o s) : wp (fdInode f) Q E s := by
  unfold fdInode
  cases used : f.fdInode with
  | none => exact (wp_throw _).2 undef
  | some o =>
    simp only [wp_bind, wp_get, wp_check, wp_pure]
    exact ⟨fun ho => h o used ho, fun _ => undef⟩

/-- The last steps of file_write. -/
theorem freeBoth_books {a b : Nat} {α : Type} (x : α) (h : Books m dirs raw (a :: b :: rest) s)
    (a_mine : s.owner a = s.pgdir s.current) (b_mine : s.owner b = s.pgdir s.current) :
    wp (do sysFree (some a); sysFree (some b); pure x : Sys α)
      (fun y t => y = x ∧ Books m dirs raw rest t ∧ Still K s t) m.Tolerates s := by
  have below : b < s.nextBlock := h.below _ (h.mem_live.2 (by simp))
  rw [wp_bind]
  apply wp_post (sysFree_books (K := K) h fun _ => a_mine)
  rintro - t ⟨books, still⟩
  rw [wp_bind]
  apply wp_post (sysFree_books (K := K) books fun _ => still.mine below b_mine)
  rintro - u ⟨books', still'⟩
  exact (wp_pure _).2 ⟨rfl, books', still.trans still'⟩

/-- file_write leaves fd_pos as it is, or sets it below the size the file had before the
data loop. -/
def Wrote (K : Inode → Inode → Prop) (s t : FileSys) (fd : Nat) : Prop :=
  t.fdTable = s.fdTable ∧ (t.fileTable = s.fileTable ∨ ∃ o i, (s.fileTable fd).fdInode = some o ∧
    K (s.inode o) i ∧ K i (t.inode o) ∧ t.fileTable = Function.update s.fileTable fd
      { s.fileTable fd with fdPos := (i.iSize + 2 ^ 32 - 1) % 2 ^ 32 })

theorem fileWrite_books (h : Books m dirs raw rest s) (high : fd < maxFileOpen) (buf : Buf) (count : Nat) :
    wp (fileWrite P fd buf count) (fun _ t => ∃ lost, Books m dirs raw (lost ++ rest) t ∧
      Rest K s t ∧ Wrote K s t fd ∧ (lost ≠ [] ↔ WriteStarved P s fd count)) m.Tolerates s := by
  simp only [fileWrite]
  rw [wp_bind, wp_get, wp_bind]
  apply wp_fdInode fun _ => by decide
  intro o used ho
  rw [wp_bind, wp_get]
  have only : ∀ {inode}, WriteFits s fd count inode → inode = o := by
    rintro inode ⟨used', -, -⟩
    exact Option.some.inj (used'.symm.trans used)
  split
  · refine (wp_pure _).2 ⟨[], h, .refl s, ⟨rfl, Or.inl rfl⟩, by simp, ?_⟩
    rintro ⟨inode, _, _, fits, -⟩
    obtain rfl := only fits
    exact absurd fits.2.2 (by omega)
  have fits : WriteFits s fd count o := ⟨used, ho, by omega⟩
  rw [wp_bind]
  apply wp_post (wp_run (sysMalloc_books (K := K) h))
  rintro r s₁ ⟨⟨still₁, ⟨rfl, books₁⟩ | ⟨rfl, books₁, mine₁⟩⟩, run₁⟩
  · refine (wp_pure _).2 ⟨[], books₁, still₁.toRest, ⟨still₁.fdTable, Or.inl still₁.fileTable⟩, by simp, ?_⟩
    rintro ⟨_, _, _, -, malloc, -⟩
    cases run₁.symm.trans malloc
  rw [wp_bind]
  apply wp_post (wp_run (sysMalloc_books (K := K) books₁))
  rintro r s₂ ⟨⟨still₂, ⟨rfl, books₂⟩ | ⟨rfl, books₂, mine₂⟩⟩, run₂⟩
  · have kept := still₁.trans still₂
    refine (wp_pure _).2 ⟨[_], books₂, kept.toRest, ⟨kept.fdTable, Or.inl kept.fileTable⟩,
      fun _ => ⟨o, _, _, fits, run₁, Or.inl ⟨_, run₂⟩⟩, by simp⟩
  rw [wp_bind]
  apply wp_post (wp_run ((firstBlock_quiet (K := K) P o).books books₂))
  rintro found s₃ ⟨⟨books₃, still₃⟩, run₃⟩
  rw [wp_ite]
  refine ⟨fun full => ?_, fun got => ?_⟩
  · subst full
    have kept := still₁.trans (still₂.trans still₃)
    exact (wp_pure _).2 ⟨[_, _], books₃, kept.toRest, ⟨kept.fdTable, Or.inl kept.fileTable⟩,
      fun _ => ⟨o, _, _, fits, run₁, Or.inr ⟨_, _, run₂, Or.inl ⟨_, run₃⟩⟩⟩, by simp⟩
  rw [wp_bind]
  apply wp_post (wp_run ((blocksForWrite_quiet (K := K) P o count).books books₃))
  rintro r s₄ ⟨⟨books₄, still₄⟩, run₄⟩
  have kept := still₁.trans (still₂.trans (still₃.trans still₄))
  obtain rfl : found = true := by simpa using got
  cases r with
  | none =>
    exact (wp_pure _).2 ⟨[_, _], books₄, kept.toRest, ⟨kept.fdTable, Or.inl kept.fileTable⟩,
      fun _ => ⟨o, _, _, fits, run₁, Or.inr ⟨_, _, run₂, Or.inr ⟨_, _, run₃, run₄⟩⟩⟩, by simp⟩
  | some allBlocks =>
    have fed : ¬ WriteStarved P s fd count := by
      rintro ⟨inode, _, _, fits', malloc, rest⟩
      obtain rfl := only fits'
      cases run₁.symm.trans malloc
      rcases rest with ⟨_, malloc'⟩ | ⟨_, _, malloc', ⟨_, first⟩ | ⟨_, _, first, more⟩⟩
      · cases run₂.symm.trans malloc'
      · cases run₂.symm.trans malloc'
        cases run₃.symm.trans first
      · cases run₂.symm.trans malloc'
        cases run₃.symm.trans first
        cases run₄.symm.trans more
    have below : o < s.nextBlock := h.open_below ho
    have below₁ : s.nextBlock < s₁.nextBlock := books₁.below _ (books₁.mem_live.2 (by simp))
    have below₂ : s₁.nextBlock < s₂.nextBlock := books₂.below _ (books₂.mem_live.2 (by simp))
    have mine₁' := (still₂.trans (still₃.trans still₄)).mine below₁ mine₁
    have mine₂' := (still₃.trans still₄).mine below₂ mine₂
    rw [wp_bind, wp_get, wp_bind, setFile, wp_modify, wp_bind]
    have moved := books₄.keepSlot
      (f := { s.fileTable fd with fdPos := ((s₄.inode o).iSize + 2 ^ 32 - 1) % 2 ^ 32 }) high
      (by rw [kept.fileTable])
    apply wp_post ((writeLoop_quiet (K := K) o allBlocks count true buf count).books moved)
    rintro - s₅ ⟨books₅, still₅⟩
    rw [wp_bind, wp_get, wp_bind]
    apply wp_post ((inodeSync_quiet (K := K) P _ _).books books₅)
    rintro - s₆ ⟨books₆, still₆⟩
    have since : Rest K s₄ s₆ := Rest.trans (.setSlot s₄ fd _) (still₅.trans still₆).toRest
    apply wp_post (freeBoth_books (K := K) (count : Int) books₆
      (since.mine (below₂.trans_le (still₃.trans still₄).nextBlock) mine₂')
      (since.mine (below₁.trans_le (still₂.trans (still₃.trans still₄)).nextBlock) mine₁'))
    rintro ret t ⟨-, books, still⟩
    have after : Rest K s₄ t := since.trans still.toRest
    refine ⟨[], books, kept.toRest.trans after, ⟨?_, Or.inr ⟨o, s₄.inode o, used, kept.inode o below,
      after.inode o (below.trans_le kept.nextBlock), ?_⟩⟩, by simp [fed]⟩
    · exact (still₅.trans (still₆.trans still)).fdTable.trans kept.fdTable
    · rw [(still₅.trans (still₆.trans still)).fileTable]
      exact congrArg (Function.update · fd _) kept.fileTable

/-- The data loop of file_read moves fd_pos past what it has read, which lies within the
140 blocks. -/
theorem readLoop_spec (fd : Nat) (allBlocks : Nat → Nat) (rounds : Nat) {E : Fault → Prop}
    (fails : E .assertion) (undef : E .undefined) (endless : E .diverges) :
    ∀ sizeLeft s, wp (readLoop fd allBlocks rounds sizeLeft) (fun data t =>
      t = s.setSlot fd { s.fileTable fd with fdPos := (s.fileTable fd).fdPos + sizeLeft } ∧
      data.length = sizeLeft ∧ (0 < sizeLeft → (s.fileTable fd).fdPos + sizeLeft ≤ 512 * 140)) E s := by
  have nothing : ∀ rounds s, wp (readLoop fd allBlocks rounds 0) (fun data t =>
      t = s.setSlot fd { s.fileTable fd with fdPos := (s.fileTable fd).fdPos + 0 } ∧
      data.length = 0 ∧ (0 < 0 → (s.fileTable fd).fdPos + 0 ≤ 512 * 140)) E s := by
    intro rounds s
    cases rounds <;> exact (wp_pure _).2 ⟨(s.setSlot_same fd).symm, rfl, fun h => absurd h (by decide)⟩
  induction rounds with
  | zero =>
    intro sizeLeft s
    cases sizeLeft with
    | zero => exact nothing 0 s
    | succ n => exact (wp_throw _).2 endless
  | succ k ih =>
    intro sizeLeft s
    cases sizeLeft with
    | zero => exact nothing (k + 1) s
    | succ n =>
      simp only [readLoop]
      rw [wp_bind, wp_get, wp_bind, wp_check]
      refine ⟨fun inside => ?_, fun _ => undef⟩
      rw [wp_bind]
      apply wp_ideRead fails
      rw [wp_bind, setFile, wp_modify, wp_bind]
      generalize hchunk : min (n + 1) (512 - (s.fileTable fd).fdPos % 512) = chunk
      have some_read : 0 < chunk ∧ chunk ≤ n + 1 ∧ (s.fileTable fd).fdPos % 512 + chunk ≤ 512 := by omega
      apply wp_post (ih (n + 1 - chunk) _)
      rintro data t ⟨ht, len, within⟩
      simp only [FileSys.setSlot_self, FileSys.setSlot_setSlot] at ht within
      have total : (s.fileTable fd).fdPos + chunk + (n + 1 - chunk) = (s.fileTable fd).fdPos + (n + 1) := by
        omega
      rw [total] at ht within
      refine (wp_pure _).2 ⟨ht, ?_, fun _ => ?_⟩
      · rw [List.length_append, List.length_map, List.length_range, len]
        omega
      · by_cases more : 0 < n + 1 - chunk
        · exact within more
        · omega

/-- file_read moves fd_pos past what it has read. -/
def DidRead (s t : FileSys) (fd count : Nat) : Prop :=
  t.fdTable = s.fdTable ∧ (t.fileTable = s.fileTable ∨ ∃ o size, (s.fileTable fd).fdInode = some o ∧
    size = sizeToRead (s.fileTable fd).fdPos (s.inode o).iSize count ∧
    (0 < size → (s.fileTable fd).fdPos + size ≤ 512 * 140) ∧
    t.fileTable = Function.update s.fileTable fd
      { s.fileTable fd with fdPos := (s.fileTable fd).fdPos + size })

theorem fileRead_books (h : Books m dirs raw rest s) (high : fd < maxFileOpen) (count : Nat) :
    wp (fileRead fd count) (fun _ t => ∃ lost, Books m dirs raw (lost ++ rest) t ∧
      Rest K s t ∧ DidRead s t fd count ∧ (lost ≠ [] ↔ ReadStarved s fd count)) m.Tolerates s := by
  simp only [fileRead]
  rw [wp_bind, wp_get, wp_bind]
  apply wp_fdInode fun _ => by decide
  intro o used ho
  rw [wp_bind, wp_get]
  have only : ∀ {inode}, (s.fileTable fd).fdInode = some inode → inode = o :=
    fun used' => Option.some.inj (used'.symm.trans used)
  split
  · refine (wp_pure _).2 ⟨[], h, .refl s, ⟨rfl, Or.inl rfl⟩, by simp, ?_⟩
    rintro ⟨inode, _, _, _, used', -, more, -⟩
    obtain rfl := only used'
    exact (more ‹_›).elim
  rename_i more
  rw [wp_bind]
  apply wp_post (wp_run (sysMalloc_books (K := K) h))
  rintro ioBuf s₁ ⟨h₁, run₁⟩
  rw [wp_bind]
  have books₁ : ∃ bufs, Books m dirs raw (bufs ++ rest) s₁ ∧ Still K s s₁ ∧
      (ioBuf = none ∧ bufs = [] ∨ ioBuf = some s.nextBlock ∧ bufs = [s.nextBlock] ∧
        s₁.owner s.nextBlock = s₁.pgdir s₁.current) := by
    rcases h₁ with ⟨still₁, ⟨rfl, books₁⟩ | ⟨rfl, books₁, mine₁⟩⟩
    · exact ⟨[], books₁, still₁, Or.inl ⟨rfl, rfl⟩⟩
    · exact ⟨[_], books₁, still₁, Or.inr ⟨rfl, rfl, mine₁⟩⟩
  obtain ⟨bufs, books₁, still₁, answer⟩ := books₁
  apply wp_post (wp_run (sysMalloc_books (K := K) books₁))
  rintro r s₂ ⟨⟨still₂, ⟨rfl, books₂⟩ | ⟨rfl, books₂, mine₂⟩⟩, run₂⟩
  · have kept := still₁.trans still₂
    refine (wp_pure _).2 ⟨bufs, books₂, kept.toRest, ⟨kept.fdTable, Or.inl kept.fileTable⟩, ?_⟩
    rcases answer with ⟨rfl, rfl⟩ | ⟨rfl, rfl, -⟩
    · refine ⟨by simp, ?_⟩
      rintro ⟨_, _, _, _, -, -, -, malloc, -⟩
      cases run₁.symm.trans malloc
    · exact ⟨fun _ => ⟨o, _, _, _, used, ho, more, run₁, run₂⟩, by simp⟩
  have fed : ¬ ReadStarved s fd count := by
    rintro ⟨_, _, _, _, -, -, -, malloc, malloc'⟩
    cases run₁.symm.trans malloc
    cases run₂.symm.trans malloc'
  rw [wp_bind, wp_assert]
  refine ⟨fun _ => ?_, fun _ _ => by decide⟩
  rw [wp_bind]
  apply wp_post ((blocksForRead_quiet (K := K) (s.inode o) _ _).books books₂)
  rintro allBlocks s₃ ⟨books₃, still₃⟩
  rw [wp_bind, wp_assert]
  refine ⟨fun got => ?_, fun _ _ => by decide⟩
  rcases answer with ⟨rfl, -⟩ | ⟨rfl, rfl, mine₁⟩
  · cases got
  have kept := still₁.trans (still₂.trans still₃)
  have below₁ : s.nextBlock < s₁.nextBlock := books₁.below _ (books₁.mem_live.2 (by simp))
  have below₂ : s₁.nextBlock < s₂.nextBlock := books₂.below _ (books₂.mem_live.2 (by simp))
  rw [wp_bind]
  apply wp_post (readLoop_spec fd allBlocks _ (fun _ => by decide) (fun _ => by decide) (fun _ => by decide) _ _)
  rintro data s₄ ⟨ht, -, within⟩
  have books₄ : Books m dirs raw (s₁.nextBlock :: s.nextBlock :: rest) s₄ := by
    rw [ht]
    exact books₃.keepSlot high rfl
  have since : Rest K s₃ s₄ := by
    rw [ht]
    exact .setSlot s₃ fd _
  apply wp_post (freeBoth_books (K := K) _ books₄
    ((still₃.toRest.trans since).mine below₂ mine₂)
    (((still₂.trans still₃).toRest.trans since).mine below₁ mine₁))
  rintro ret t ⟨-, books, still⟩
  refine ⟨[], books, kept.toRest.trans (since.trans still.toRest), ⟨?_, Or.inr ⟨o, _, used, rfl, ?_, ?_⟩⟩, by simp [fed]⟩
  · rw [still.fdTable, ht]
    exact kept.fdTable
  · rw [kept.fileTable] at within
    exact within
  · rw [still.fileTable, ht, kept.fileTable]
    exact congrArg (Function.update · fd _) kept.fileTable

end Zhenxiang.Fs
