import Zhenxiang.Fs.PathBooks

/-! Runs of calls: what each call leaves behind, the counts of the open inodes, and the
heap they live in. -/
namespace Zhenxiang.Fs
open Lib Kernel

variable {K : Inode → Inode → Prop} {m : Mode} {dirs raw rest : List Nat} {s t u : FileSys} {c : Call}
  (P : Partition)

/-! What a call leaves behind that nothing gives back later. -/

/-- A struct dir. -/
def LeavesDir (s : FileSys) : Call → Prop
  | .opened pathname flags => LeavesParent P s pathname flags
  | _ => False

/-- A reference to an inode. -/
def LeavesRef (s : FileSys) : Call → Prop
  | .stat path => StatFinds P s path
  | _ => False

/-- A buffer. -/
def LeavesBlock (s : FileSys) : Call → Prop
  | .opened pathname flags => LeavesBuffer P s pathname flags
  | .write fd _ count => ∃ globalFd, Writes s fd globalFd ∧ WriteStarved P s globalFd count
  | .read fd count => ∃ globalFd, 0 ≤ fd ∧ Global s fd globalFd ∧ ReadStarved s globalFd count
  | .getcwd _ => CwdLeaves s
  | _ => False

/-- What a call does to the file table and the tables of the tasks. -/
def Touches (K : Inode → Inode → Prop) (s t : FileSys) : Call → Prop
  | .opened pathname flags =>
      ∃ ret, Opened s t flags ret (TakesSlot P s pathname flags) (AccessDenied P s pathname flags)
  | .close fd => Closed s t fd
  | .write fd _ _ => (t.fileTable = s.fileTable ∧ t.fdTable = s.fdTable) ∨
      ∃ globalFd, Writes s fd globalFd ∧ Wrote K s t globalFd
  | .read fd count => (t.fileTable = s.fileTable ∧ t.fdTable = s.fdTable) ∨
      ∃ globalFd, 0 ≤ fd ∧ Global s fd globalFd ∧ DidRead s t globalFd count
  | .lseek fd _ _ => t = s ∨ ∃ globalFd, 0 ≤ fd ∧ Global s fd globalFd ∧ Sought s t globalFd
  | _ => t.fileTable = s.fileTable ∧ t.fdTable = s.fdTable

/-- The books after a call. -/
structure Balance (K : Inode → Inode → Prop) (m : Mode) (rest : List Nat) (s : FileSys) (c : Call)
    (dirs raw lost : List Nat) (t : FileSys) : Prop where
  books : Books m dirs raw (lost ++ rest) t
  kept : Rest K s { t with handles := s.handles }
  touches : Touches P K s t c
  dir : dirs ≠ [] ↔ LeavesDir P s c
  ref : raw ≠ [] ↔ LeavesRef P s c
  block : lost ≠ [] ↔ LeavesBlock P s c

theorem Rest.withHandles (h : Rest K s t) : Rest K s { t with handles := s.handles } :=
  ⟨h.inode, h.rootInode, h.dirInode, h.pgdir, h.current, rfl, h.nextBlock, h.owner⟩

/-- For a call that leaves nothing behind. -/
theorem Balance.clean (books : Books m [] [] rest t) (kept : Rest K s { t with handles := s.handles })
    (touches : Touches P K s t c) (dir : ¬ LeavesDir P s c) (ref : ¬ LeavesRef P s c)
    (block : ¬ LeavesBlock P s c) : Balance P K m rest s c [] [] [] t :=
  ⟨books, kept, touches, by simp [dir], by simp [ref], by simp [block]⟩

theorem Balance.still (books : Books m [] [] rest t) (still : Still K s t) (touches : Touches P K s t c)
    (dir : ¬ LeavesDir P s c) (ref : ¬ LeavesRef P s c) (block : ¬ LeavesBlock P s c) :
    Balance P K m rest s c [] [] [] t := .clean P books still.toRest.withHandles touches dir ref block

/-- A call that opens a directory hands it over. -/
theorem Books.give {b : Nat} (h : Books m (b :: dirs) raw rest s) :
    Books m dirs raw rest { s with handles := b :: s.handles } where
  live := h.live.trans (by
    rw [← List.append_assoc, List.cons_append]
    simpa using (@List.perm_middle _ b s.handles (dirs ++ rest)).append_left s.openInodes)
  nodup := h.nodup
  below := h.below
  cap := h.cap
  kernel := h.kernel
  counts hm := by
    have same : ∀ o, refs { s with handles := b :: s.handles } dirs raw o = refs s (b :: dirs) raw o := by
      intro o
      simp only [refs, slotsFor, dirsFor, List.countP_cons]
      omega
    refine ⟨fun o ho => ?_, fun o => ?_⟩
    · rw [same]
      exact (h.counts hm).exact o ho
    · rw [same]
      exact (h.counts hm).held o

/-- A call that closes one takes it from its owner. -/
theorem Books.take {b : Nat} (h : Books m dirs raw rest s) (hb : b ∈ s.handles) :
    Books m (b :: dirs) raw rest { s with handles := s.handles.erase b } where
  live := h.live.trans (by
    apply List.Perm.append_left
    exact ((List.perm_cons_erase hb).append_right _).trans (by simpa using List.perm_middle.symm))
  nodup := h.nodup
  below := h.below
  cap := h.cap
  kernel := h.kernel
  counts hm := by
    have same : ∀ o, refs { s with handles := s.handles.erase b } (b :: dirs) raw o = refs s dirs raw o := by
      intro o
      have split : dirsFor s s.handles o = dirsFor s (b :: s.handles.erase b) o :=
        (List.perm_cons_erase hb).countP_eq _
      simp only [refs, slotsFor, dirsFor, List.countP_cons] at split ⊢
      omega
    refine ⟨fun o ho => ?_, fun o => ?_⟩
    · rw [same]
      exact (h.counts hm).exact o ho
    · rw [same]
      exact (h.counts hm).held o

/-- Closing a directory does not look at the handles. -/
theorem wp_dirClose_handles {d : Dir} {handles : List Nat} {Q : Unit → FileSys → Prop} {E : Fault → Prop}
    (h : wp (dirClose d) Q E { s with handles := handles }) :
    wp (dirClose d) (fun a t => Q a { t with handles := handles } ∧ t.handles = s.handles) E s := by
  cases d with
  | root => exact (wp_pure _).2 ⟨(wp_pure _).1 h, rfl⟩
  | heap b =>
    simp only [dirClose, inodeClose, modifyInode, kernelFree, setPgdir, sysFree, wp_bind, wp_get, wp_check,
      wp_modify, wp_ite, wp_set, wp_pure, FileSys.setInode, FileSys.removeInode, FileSys.free, and_true] at h ⊢
    exact h

theorem closedir_books [Grows K] (h : Books m [] [] rest s) {dir : Option Dir}
    (closable : Closable s (.closedir dir)) (mine : m.kernel → dir = none) :
    wp (perform P (.closedir dir)) (fun _ t => Books m [] [] rest t ∧
      Rest K s { t with handles := s.handles } ∧ t.fileTable = s.fileTable ∧ t.fdTable = s.fdTable)
      m.Tolerates s := by
  simp only [perform]
  match dir with
  | none => exact (wp_pure _).2 ⟨h, .refl s, rfl, rfl⟩
  | some .root => exact (wp_pure _).2 ⟨h, .refl s, rfl, rfl⟩
  | some (.heap b) =>
    have taken : Books m ((Dir.heap b).blocks ++ []) [] rest { s with handles := s.handles.erase b } :=
      h.take closable
    have closed := dirClose_books (K := K) taken (by decide) fun hm => by cases mine hm
    simp only [sysClosedir]
    rw [wp_bind, wp_bind]
    apply wp_post (wp_dirClose_handles closed)
    rintro - t ⟨⟨books, still⟩, same⟩
    refine (wp_pure _).2 ((wp_modify _).2 ⟨?_, ?_, still.fileTable, still.fdTable⟩)
    · rw [same]
      exact books
    · exact ⟨still.inode, still.rootInode, still.dirInode, still.pgdir, still.current, rfl, still.nextBlock,
        still.owner⟩

theorem perform_books [Shrinks K] [Opens K] (h : Books m [] [] rest s) (c : Call) (closable : Closable s c)
    (mine : m.kernel → ∀ d, c ≠ .closedir (some d))
    (heap : m.kernel → ∀ pathname flags, c = .opened pathname flags →
      s.pgdir s.current = none ∨ ¬ MakesFile P s pathname flags) :
    wp (perform P c) (fun _ t => ∃ dirs raw lost, Balance P K m rest s c dirs raw lost t)
      m.Tolerates s := by
  cases c with
  | opened pathname flags =>
    simp only [perform]
    rw [wp_bind]
    apply wp_post (sysOpen_books (K := K) P h (by decide) pathname flags fun hm => heap hm pathname flags rfl)
    rintro ret t ⟨kept, dirs, lost, books, opened, dir, block⟩
    refine (wp_pure _).2 ⟨dirs, [], lost, ?_, kept.withHandles, ⟨ret, opened⟩, dir, by simp [LeavesRef], block⟩
    simpa using books
  | close fd =>
    simp only [perform]
    rw [wp_bind]
    apply wp_post (sysClose_books (K := K) h (by decide) fd)
    rintro ret t ⟨books, kept, closed⟩
    exact (wp_pure _).2 ⟨[], [], [], .clean P books kept.withHandles closed id id id⟩
  | write fd buf count =>
    simp only [perform]
    rw [wp_bind]
    apply wp_post (sysWrite_books (K := K) P h fd buf count)
    rintro ret t ⟨lost, books, kept, wrote, block⟩
    exact (wp_pure _).2 ⟨[], [], lost, books, kept.withHandles, wrote, by simp [LeavesDir],
      by simp [LeavesRef], block⟩
  | read fd count =>
    simp only [perform]
    rw [wp_bind]
    apply wp_post (sysRead_books (K := K) h fd count)
    rintro ret t ⟨lost, books, kept, read, block⟩
    exact (wp_pure _).2 ⟨[], [], lost, books, kept.withHandles, read, by simp [LeavesDir],
      by simp [LeavesRef], block⟩
  | lseek fd offset whence =>
    simp only [perform]
    rw [wp_bind]
    apply wp_post (sysLseek_books (K := K) h fd offset whence)
    rintro ret t ⟨books, kept, sought⟩
    exact (wp_pure _).2 ⟨[], [], [], .clean P books kept.withHandles sought id id id⟩
  | unlink pathname =>
    simp only [perform]
    rw [wp_bind]
    apply wp_post (sysUnlink_books (K := K) P h pathname)
    rintro ret t ⟨books, still⟩
    exact (wp_pure _).2 ⟨[], [], [], .still P books still ⟨still.fileTable, still.fdTable⟩ id id id⟩
  | mkdir pathname =>
    simp only [perform]
    rw [wp_bind]
    apply wp_post (sysMkdir_books (K := K) P h pathname)
    rintro ret t ⟨books, still⟩
    exact (wp_pure _).2 ⟨[], [], [], .still P books still ⟨still.fileTable, still.fdTable⟩ id id id⟩
  | opendir name =>
    simp only [perform]
    rw [wp_bind]
    apply wp_post (sysOpendir_books (K := K) P h name)
    rintro ret t ⟨books, still⟩
    match ret with
    | none => exact (wp_pure _).2 ⟨[], [], [], .still P books still ⟨still.fileTable, still.fdTable⟩ id id id⟩
    | some .root =>
      exact (wp_pure _).2 ⟨[], [], [], .still P books still ⟨still.fileTable, still.fdTable⟩ id id id⟩
    | some (.heap b) =>
      refine (wp_modify _).2 ⟨[], [], [], .clean P (books.give) ?_ ⟨still.fileTable, still.fdTable⟩ id id id⟩
      exact still.toRest.withHandles
  | closedir dir =>
    apply wp_post (closedir_books (K := K) P h closable ?_)
    · rintro - t ⟨books, kept, tables⟩
      exact ⟨[], [], [], .clean P books kept tables id id id⟩
    · intro hm
      cases dir with
      | none => rfl
      | some d => exact (mine hm d rfl).elim
  | rmdir pathname =>
    simp only [perform]
    rw [wp_bind]
    apply wp_post (sysRmdir_books (K := K) P h pathname)
    rintro ret t ⟨books, still⟩
    exact (wp_pure _).2 ⟨[], [], [], .still P books still ⟨still.fileTable, still.fdTable⟩ id id id⟩
  | chdir path =>
    simp only [perform]
    rw [wp_bind]
    apply wp_post (sysChdir_books (K := K) P h path)
    rintro ret t ⟨books, still⟩
    exact (wp_pure _).2 ⟨[], [], [], .still P books still ⟨still.fileTable, still.fdTable⟩ id id id⟩
  | stat path =>
    simp only [perform]
    rw [wp_bind]
    apply wp_post (sysStat_books (K := K) P h path)
    rintro ret t ⟨raw, books, still, ref⟩
    exact (wp_pure _).2 ⟨[], raw, [], books, still.toRest.withHandles, ⟨still.fileTable, still.fdTable⟩,
      by simp [LeavesDir], ref, by simp [LeavesBlock]⟩
  | getcwd size =>
    simp only [perform]
    rw [wp_bind]
    apply wp_post (sysGetcwd_books (K := K) P h size)
    rintro ret t ⟨lost, books, still, block⟩
    exact (wp_pure _).2 ⟨[], [], lost, books, still.toRest.withHandles, ⟨still.fileTable, still.fdTable⟩,
      by simp [LeavesDir], by simp [LeavesRef], block⟩

end Zhenxiang.Fs
