import Zhenxiang.Fs.Accounts

/-! The descriptors of tasks that share slots of the file table after a fork. -/
namespace Zhenxiang.Fs
open Lib Kernel

/-! fork.c, as far as the file system sees it. -/

/-- Each descriptor of the new task counts. -/
def updateInodeOpenCnt (thread : Nat) : Sys Unit :=
  forRange (maxFilesOpenPerProc - 3) fun k => do
    let s ← get
    let globalFd := s.fdTable thread (3 + k)
    assert (globalFd < maxFileOpen)
    if globalFd ≠ -1 then
      let inode ← fdInode (s.fileTable globalFd.toNat)
      modifyInode inode fun i => { i with iOpenCnts := incr i.iOpenCnts }

/-- The running task's PCB is copied, and the copy gets a page directory of its own. -/
def copyProcess (childThread pgdir : Nat) : Sys Unit := do
  modify fun s => { s with
    fdTable := Function.update s.fdTable childThread (s.fdTable s.current)
    cwdInodeNr := Function.update s.cwdInodeNr childThread (s.cwdInodeNr s.current)
    pgdir := Function.update s.pgdir childThread (some pgdir) }
  updateInodeOpenCnt childThread

/-! Descriptors. -/

structure Descriptor (s : FileSys) (task fd globalFd : Nat) : Prop where
  low : 3 ≤ fd
  high : fd < maxFilesOpenPerProc
  entry : s.fdTable task fd = globalFd

/-- Descriptors and slots belong together; whatever is counted beyond the slots comes from
descriptors that share one. -/
structure Descriptors (raw : List Nat) (s : FileSys) : Prop where
  entry : ∀ task fd, 3 ≤ fd → fd < maxFilesOpenPerProc → s.fdTable task fd = -1 ∨
    ∃ globalFd, Descriptor s task fd globalFd
  used : ∀ task fd globalFd, Descriptor s task fd globalFd →
    3 ≤ globalFd ∧ globalFd < maxFileOpen ∧ (s.fileTable globalFd).fdInode ≠ none
  held : ∀ globalFd, (s.fileTable globalFd).fdInode ≠ none → ∃ task fd, Descriptor s task fd globalFd
  shared : ∀ o ∈ raw, ∃ globalFd a b i j, (a, i) ≠ (b, j) ∧ Descriptor s a i globalFd ∧
    Descriptor s b j globalFd ∧ (s.fileTable globalFd).fdInode = some o

/-- Descriptors, slots and the counts of the inodes agree. -/
structure Sharing (dirs raw rest : List Nat) (s : FileSys) : Prop where
  books : Books ⟨True, False⟩ dirs raw rest s
  descriptors : Descriptors raw s

variable {dirs raw rest : List Nat} {s t : FileSys} {task fd globalFd o : Nat} (P : Partition)

theorem Descriptor.unique {g k : Nat} (h : Descriptor s task fd g) (h' : Descriptor s task fd k) : g = k :=
  Int.ofNat.inj (h.entry.symm.trans h'.entry)

theorem Descriptor.congr (h : Descriptor s task fd globalFd) (fds : t.fdTable = s.fdTable) :
    Descriptor t task fd globalFd := ⟨h.low, h.high, by rw [fds]; exact h.entry⟩

/-- Nothing changes but what is in the slots besides the inodes. -/
theorem Descriptors.congr (h : Descriptors raw s) (fds : t.fdTable = s.fdTable)
    (slots : ∀ g, (t.fileTable g).fdInode = (s.fileTable g).fdInode) : Descriptors raw t where
  entry task fd low high := by
    rw [fds]
    exact (h.entry task fd low high).imp_right fun ⟨g, hg⟩ => ⟨g, hg.congr fds⟩
  used task fd g hg := by
    rw [slots]
    exact h.used task fd g (hg.congr fds.symm)
  held g hg := by
    rw [slots] at hg
    obtain ⟨task, fd, hd⟩ := h.held g hg
    exact ⟨task, fd, hd.congr fds⟩
  shared o ho := by
    obtain ⟨g, a, b, i, j, hne, ha, hb, hg⟩ := h.shared o ho
    exact ⟨g, a, b, i, j, hne, ha.congr fds, hb.congr fds, (slots g).trans hg⟩

theorem setFd_apply (s : FileSys) (i : Nat) (v : Int) (task j : Nat) :
    (s.setFd i v).fdTable task j = if task = s.current ∧ j = i then v else s.fdTable task j := by
  unfold FileSys.setFd
  by_cases htask : task = s.current
  · subst htask
    by_cases hj : j = i
    · simp [hj]
    · simp [hj]
  · simp [htask]

/-- A descriptor other than the one that was installed or closed. -/
theorem Descriptor.other {i g : Nat} {v : Int} (hne : ¬ (task = s.current ∧ fd = i))
    (fds : t.fdTable = (s.setFd i v).fdTable) : Descriptor t task fd g ↔ Descriptor s task fd g := by
  have entry : t.fdTable task fd = s.fdTable task fd := by rw [fds, setFd_apply, if_neg hne]
  constructor
  · rintro ⟨low, high, h⟩
    exact ⟨low, high, entry.symm.trans h⟩
  · rintro ⟨low, high, h⟩
    exact ⟨low, high, entry.trans h⟩

/-- A free slot becomes a file's and a free entry its descriptor. -/
theorem Descriptors.install {flag i : Nat} (h : Descriptors raw s) (low : 3 ≤ fd) (high : fd < maxFileOpen)
    (free : (s.fileTable fd).fdInode = none)
    (table : t.fileTable = Function.update s.fileTable fd ⟨0, flag, some o⟩)
    (ilow : 3 ≤ i) (ihigh : i < maxFilesOpenPerProc) (empty : s.fdTable s.current i = -1)
    (fds : t.fdTable = (s.setFd i fd).fdTable) : Descriptors raw t := by
  have new : Descriptor t s.current i fd := ⟨ilow, ihigh, by rw [fds, setFd_apply, if_pos ⟨rfl, rfl⟩]⟩
  have noOld : ∀ {task j g}, Descriptor s task j g → ¬ (task = s.current ∧ j = i) := by
    rintro task j g hd ⟨rfl, rfl⟩
    have entry := hd.entry
    rw [empty] at entry
    omega
  have slot : ∀ {g}, (s.fileTable g).fdInode ≠ none → (t.fileTable g).fdInode = (s.fileTable g).fdInode := by
    intro g hg
    rw [table, Function.update_of_ne]
    rintro rfl
    exact hg free
  refine ⟨fun task j jlow jhigh => ?_, fun task j g hd => ?_, fun g hg => ?_, fun p hp => ?_⟩
  · by_cases hj : task = s.current ∧ j = i
    · obtain ⟨rfl, rfl⟩ := hj
      exact Or.inr ⟨fd, new⟩
    · rw [fds, setFd_apply, if_neg hj]
      exact (h.entry task j jlow jhigh).imp_right fun ⟨g, hg⟩ => ⟨g, (Descriptor.other hj fds).2 hg⟩
  · by_cases hj : task = s.current ∧ j = i
    · obtain ⟨rfl, rfl⟩ := hj
      obtain rfl := hd.unique new
      refine ⟨low, high, ?_⟩
      rw [table, Function.update_self]
      simp
    · have used := h.used task j g ((Descriptor.other hj fds).1 hd)
      rw [slot used.2.2]
      exact used
  · by_cases hgf : g = fd
    · subst hgf
      exact ⟨s.current, i, new⟩
    · rw [table, Function.update_of_ne hgf] at hg
      obtain ⟨task, j, hd⟩ := h.held g hg
      exact ⟨task, j, (Descriptor.other (noOld hd) fds).2 hd⟩
  · obtain ⟨g, a, b, x, y, hne, ha, hb, hg⟩ := h.shared p hp
    refine ⟨g, a, b, x, y, hne, (Descriptor.other (noOld ha) fds).2 ha, (Descriptor.other (noOld hb) fds).2 hb, ?_⟩
    exact (slot (h.used a x g ha).2.2).trans hg

/-- Nobody else has the slot of the descriptor. -/
def Unshared (s : FileSys) (task fd : Nat) : Prop :=
  ∀ g, Descriptor s task fd g → ∀ b j, Descriptor s b j g → b = task ∧ j = fd

/-- A descriptor that shares its slot with no other is closed. -/
theorem Descriptors.close {f : File} (h : Descriptors raw s) (alone : Unshared s s.current fd)
    (hd : Descriptor s s.current fd globalFd) (hf : f.fdInode = none)
    (table : t.fileTable = Function.update s.fileTable globalFd f)
    (fds : t.fdTable = (s.setFd fd (-1)).fdTable) : Descriptors raw t := by
  have closed : t.fdTable s.current fd = -1 := by rw [fds, setFd_apply, if_pos ⟨rfl, rfl⟩]
  have gone : ∀ {g}, ¬ Descriptor t s.current fd g := by
    intro g hg
    have entry := hg.entry
    rw [closed] at entry
    omega
  have others : ∀ {b j g}, Descriptor t b j g → ¬ (b = s.current ∧ j = fd) := by
    rintro b j g hg ⟨rfl, rfl⟩
    exact gone hg
  have slot : ∀ {b j g}, Descriptor s b j g → ¬ (b = s.current ∧ j = fd) →
      (t.fileTable g).fdInode = (s.fileTable g).fdInode := by
    intro b j g hg hne
    rw [table, Function.update_of_ne]
    rintro rfl
    exact hne (alone _ hd b j hg)
  refine ⟨fun b j jlow jhigh => ?_, fun b j g hg => ?_, fun g hg => ?_, fun p hp => ?_⟩
  · by_cases hj : b = s.current ∧ j = fd
    · obtain ⟨rfl, rfl⟩ := hj
      exact Or.inl closed
    · rw [fds, setFd_apply, if_neg hj]
      exact (h.entry b j jlow jhigh).imp_right fun ⟨g, hg⟩ => ⟨g, (Descriptor.other hj fds).2 hg⟩
  · have old := (Descriptor.other (others hg) fds).1 hg
    rw [slot old (others hg)]
    exact h.used b j g old
  · by_cases hgf : g = globalFd
    · rw [hgf, table, Function.update_self] at hg
      exact absurd hf hg
    · rw [table, Function.update_of_ne hgf] at hg
      obtain ⟨b, j, hb⟩ := h.held g hg
      refine ⟨b, j, (Descriptor.other ?_ fds).2 hb⟩
      rintro ⟨rfl, rfl⟩
      exact hgf (hb.unique hd)
  · obtain ⟨g, a, b, x, y, hne, ha, hb, hg⟩ := h.shared p hp
    -- a slot with two descriptors is not the one that is closed
    have two : ∀ {c z}, Descriptor s c z g → ¬ (c = s.current ∧ z = fd) := by
      rintro c z hc ⟨rfl, rfl⟩
      obtain ⟨rfl, rfl⟩ := alone g hc a x ha
      obtain ⟨rfl, rfl⟩ := alone g hc b y hb
      exact hne rfl
    exact ⟨g, a, b, x, y, hne, (Descriptor.other (two ha) fds).2 ha, (Descriptor.other (two hb) fds).2 hb,
      (slot ha (two ha)).trans hg⟩

/-! The calls that parent and child make. -/

/-- A sys_close of a descriptor that shares its slot with no other, a sys_open that does not
keep a slot without a descriptor, sys_read or sys_lseek. -/
def Careful (s : FileSys) : Call → Prop
  | .opened pathname flags =>
      TakesSlot P s pathname flags → ¬ AccessDenied P s pathname flags ∧ ¬ FullTable s
  | .close fd => Unshared s s.current fd.toNat
  | .read _ _ | .lseek _ _ _ => True
  | _ => False

/-- No descriptor loses its inode, and those that share a slot stay. -/
structure Keeps (s t : FileSys) : Prop where
  inode : ∀ task fd g, Descriptor s task fd g → Descriptor t task fd g →
    (t.fileTable g).fdInode = (s.fileTable g).fdInode
  shared : ∀ task fd g, Descriptor s task fd g → ¬ Unshared s task fd → Descriptor t task fd g

theorem Keeps.congr (fds : t.fdTable = s.fdTable) (slots : ∀ g, (t.fileTable g).fdInode = (s.fileTable g).fdInode) :
    Keeps s t := ⟨fun _ _ g _ _ => slots g, fun _ _ _ hd _ => hd.congr fds⟩

theorem Sharing.open (h : Sharing dirs raw rest s) (few : raw.length + 1 < 2 ^ 28) {pathname : CStr} {flags : Nat}
    (careful : Careful P s (.opened pathname flags)) : Returns (sysOpen P pathname flags) (fun _ t =>
      (∃ dirs' rest', Sharing dirs' raw rest' t) ∧ Keeps s t) s := by
  apply wp_mono (sysOpen_books (K := Anything) P h.books few pathname flags fun hm => hm.elim)
  · rintro ret t ⟨-, lostDirs, lost, books, opened, -, -⟩
    rcases opened with ⟨-, same, -⟩ | ⟨takes, fd, o, took⟩
    · exact ⟨⟨_, _, books, h.descriptors.congr same.fds same.inode⟩, .congr same.fds same.inode⟩
    · obtain ⟨allowed, room⟩ := careful takes
      rcases took.fds with ⟨-, -, stuck⟩ | ⟨-, i, low, high, empty, -, fds⟩
      · exact (stuck.elim room allowed).elim
      refine ⟨⟨_, _, books, h.descriptors.install took.low took.high took.free took.table low high empty fds⟩, ?_, ?_⟩
      · rintro task j g hd -
        rw [took.table, Function.update_of_ne]
        rintro rfl
        exact (h.descriptors.used task j g hd).2.2 took.free
      · intro task j g hd _
        refine (Descriptor.other ?_ fds).2 hd
        rintro ⟨rfl, rfl⟩
        have entry := hd.entry
        rw [empty] at entry
        omega
  · exact fun _ _ => trivial

theorem Sharing.close (h : Sharing dirs raw rest s) (few : raw.length + 1 < 2 ^ 28) {fd : Int}
    (alone : Unshared s s.current fd.toNat) : Returns (sysClose fd) (fun _ t =>
      (∃ dirs' rest', Sharing dirs' raw rest' t) ∧ Keeps s t) s := by
  apply wp_mono (sysClose_books (K := Anything) h.books few fd) ?_ fun _ _ => trivial
  rintro ret t ⟨books, -, ⟨-, table, fds⟩ | ⟨high, g, o, global, used, table, fds⟩⟩
  · have slots : ∀ g, (t.fileTable g).fdInode = (s.fileTable g).fdInode := fun g => by rw [table]
    exact ⟨⟨_, _, books, h.descriptors.congr fds slots⟩, .congr fds slots⟩
  · have hd : Descriptor s s.current fd.toNat g := ⟨by omega, global.localFd, global.entry⟩
    refine ⟨⟨_, _, books, h.descriptors.close alone hd rfl table fds⟩, ?_, ?_⟩
    · intro b j k hk hk'
      rw [table, Function.update_of_ne]
      rintro rfl
      obtain ⟨rfl, rfl⟩ := alone k hd b j hk
      have entry := hk'.entry
      rw [fds, setFd_apply, if_pos ⟨rfl, rfl⟩] at entry
      omega
    · intro b j k hk shared
      refine (Descriptor.other ?_ fds).2 hk
      rintro ⟨rfl, rfl⟩
      exact shared alone

theorem Sharing.read (h : Sharing dirs raw rest s) (fd : Int) (count : Nat) :
    Returns (sysRead fd count) (fun _ t => (∃ dirs' rest', Sharing dirs' raw rest' t) ∧ Keeps s t) s := by
  apply wp_mono (sysRead_books (K := Anything) h.books fd count) ?_ fun _ _ => trivial
  rintro ret t ⟨lost, books, -, read, -⟩
  have same : t.fdTable = s.fdTable ∧ ∀ g, (t.fileTable g).fdInode = (s.fileTable g).fdInode := by
    rcases read with ⟨table, fds⟩ | ⟨g, -, -, fds, table | ⟨o, size, -, -, -, table⟩⟩
    · exact ⟨fds, fun g => by rw [table]⟩
    · exact ⟨fds, fun g => by rw [table]⟩
    · refine ⟨fds, fun k => ?_⟩
      rw [table]
      by_cases hk : k = g
      · rw [hk, Function.update_self]
      · rw [Function.update_of_ne hk]
  exact ⟨⟨_, _, books, h.descriptors.congr same.1 same.2⟩, .congr same.1 same.2⟩

theorem Sharing.lseek (h : Sharing dirs raw rest s) (fd offset : Int) (whence : Whence) :
    Returns (sysLseek fd offset whence) (fun _ t => (∃ dirs' rest', Sharing dirs' raw rest' t) ∧ Keeps s t) s := by
  apply wp_mono (sysLseek_books (K := Anything) h.books fd offset whence) ?_ fun _ _ => trivial
  rintro ret t ⟨books, -, sought⟩
  have same : t.fdTable = s.fdTable ∧ ∀ g, (t.fileTable g).fdInode = (s.fileTable g).fdInode := by
    rcases sought with rfl | ⟨g, -, -, o, newPos, -, -, -, -, rfl⟩
    · exact ⟨rfl, fun _ => rfl⟩
    · refine ⟨rfl, fun k => ?_⟩
      by_cases hk : k = g
      · rw [hk, FileSys.setSlot_self]
      · rw [FileSys.setSlot_of_ne _ _ hk]
  exact ⟨⟨_, _, books, h.descriptors.congr same.1 same.2⟩, .congr same.1 same.2⟩

theorem Sharing.perform {c : Call} (h : Sharing dirs raw rest s) (few : raw.length + 1 < 2 ^ 28)
    (careful : Careful P s c) : Returns (perform P c)
      (fun _ t => (∃ dirs' rest', Sharing dirs' raw rest' t) ∧ Keeps s t) s := by
  cases c with
  | opened pathname flags =>
    simp only [Fs.perform, Returns, wp_bind, wp_pure]
    exact h.open P few careful
  | close fd =>
    simp only [Fs.perform, Returns, wp_bind, wp_pure]
    exact h.close few careful
  | read fd count =>
    simp only [Fs.perform, Returns, wp_bind, wp_pure]
    exact h.read fd count
  | lseek fd offset whence =>
    simp only [Fs.perform, Returns, wp_bind, wp_pure]
    exact h.lseek fd offset whence
  | _ => exact careful.elim

/-! The fork. -/

/-- The counts go up by one for each descriptor. -/
theorem updateInodeOpenCnt_books {thread : Nat} (h : Books ⟨True, False⟩ dirs raw rest s)
    (few : raw.length + maxFilesOpenPerProc < 2 ^ 28)
    (entry : ∀ fd, 3 ≤ fd → fd < maxFilesOpenPerProc → s.fdTable thread fd = -1 ∨
      ∃ g, Descriptor s thread fd g) :
    Returns (updateInodeOpenCnt thread) (fun _ t => ∃ extra, Books ⟨True, False⟩ dirs (extra ++ raw) rest t ∧
      Still Anything s t ∧ extra.length ≤ maxFilesOpenPerProc - 3 ∧
      ∀ o ∈ extra, ∃ fd g, Descriptor s thread fd g ∧ (s.fileTable g).fdInode = some o) s := by
  unfold updateInodeOpenCnt
  apply wp_forRange (fun k t => ∃ extra, Books ⟨True, False⟩ dirs (extra ++ raw) rest t ∧
    Still Anything s t ∧ extra.length ≤ k ∧
    ∀ o ∈ extra, ∃ fd g, Descriptor s thread fd g ∧ (s.fileTable g).fdInode = some o)
  · exact ⟨[], h, .refl s, Nat.le_refl 0, by simp⟩
  · rintro k t hk ⟨extra, books, still, len, from'⟩
    have bound : k < maxFilesOpenPerProc := by omega
    have room : (extra ++ raw).length < 2 ^ 28 := by
      rw [List.length_append]
      omega
    rw [wp_bind, wp_get, wp_bind, wp_assert]
    refine ⟨fun _ => ?_, fun _ => trivial⟩
    rw [wp_ite]
    refine ⟨fun valid => ?_, fun _ => (wp_pure _).2 ⟨extra, books, still, by omega, from'⟩⟩
    obtain ⟨g, hd⟩ := (entry (3 + k) (by omega) (by unfold maxFilesOpenPerProc at *; omega)).resolve_left
      (by rw [← still.fdTable]; exact valid)
    have global : (t.fdTable thread (3 + k)).toNat = g := by
      rw [still.fdTable, hd.entry]
      exact Int.toNat_natCast g
    rw [wp_bind, global]
    apply wp_fdInode trivial
    intro o used ho
    rw [modifyInode, wp_modify]
    refine ⟨o :: extra, books.reopen room ho, still.trans (.setCnts o _), by simp [len], fun p hp => ?_⟩
    rcases List.mem_cons.1 hp with rfl | hp
    · exact ⟨3 + k, g, hd, by rw [← still.fileTable]; exact used⟩
    · exact from' p hp

/-- The copy of the PCB. -/
theorem Descriptors.copy {child : Nat} (h : Descriptors raw s) (fresh : ∀ fd g, ¬ Descriptor s child fd g)
    (table : t.fileTable = s.fileTable)
    (fds : t.fdTable = Function.update s.fdTable child (s.fdTable s.current)) : Descriptors raw t := by
  have old : ∀ {b j g}, Descriptor s b j g → Descriptor t b j g := by
    rintro b j g hd
    have hne : b ≠ child := by
      rintro rfl
      exact fresh j g hd
    exact ⟨hd.low, hd.high, by rw [fds, Function.update_of_ne hne]; exact hd.entry⟩
  have origin : ∀ {b j g}, Descriptor t b j g → ∃ a, Descriptor s a j g := by
    rintro b j g ⟨low, high, entry⟩
    rw [fds] at entry
    by_cases hb : b = child
    · subst hb
      rw [Function.update_self] at entry
      exact ⟨s.current, low, high, entry⟩
    · rw [Function.update_of_ne hb] at entry
      exact ⟨b, low, high, entry⟩
  refine ⟨fun b j low high => ?_, fun b j g hd => ?_, fun g hg => ?_, fun o ho => ?_⟩
  · have source : ∃ a, t.fdTable b j = s.fdTable a j := by
      by_cases hb : b = child
      · subst hb
        exact ⟨s.current, by rw [fds, Function.update_self]⟩
      · exact ⟨b, by rw [fds, Function.update_of_ne hb]⟩
    obtain ⟨a, same⟩ := source
    rw [same]
    exact (h.entry a j low high).imp_right fun ⟨g, hg⟩ => ⟨g, low, high, same.trans hg.entry⟩
  · obtain ⟨a, ha⟩ := origin hd
    rw [table]
    exact h.used a j g ha
  · rw [table] at hg
    obtain ⟨b, j, hd⟩ := h.held g hg
    exact ⟨b, j, old hd⟩
  · obtain ⟨g, a, b, x, y, hne, ha, hb, hg⟩ := h.shared o ho
    exact ⟨g, a, b, x, y, hne, old ha, old hb, by rw [table]; exact hg⟩

/-- After the fork the child has the descriptors of the parent, and the counts agree. -/
theorem Sharing.fork {child pgdir : Nat} (h : Sharing dirs raw rest s)
    (few : raw.length + maxFilesOpenPerProc < 2 ^ 28) (fresh : ∀ fd g, ¬ Descriptor s child fd g) :
    Returns (copyProcess child pgdir) (fun _ t => ∃ extra, extra.length ≤ maxFilesOpenPerProc - 3 ∧
      Sharing dirs (extra ++ raw) rest t ∧ t.fileTable = s.fileTable ∧
      t.fdTable = Function.update s.fdTable child (s.fdTable s.current)) s := by
  unfold copyProcess
  rw [Returns, wp_bind, wp_modify]
  generalize hu : ({ s with
    fdTable := Function.update s.fdTable child (s.fdTable s.current)
    cwdInodeNr := Function.update s.cwdInodeNr child (s.cwdInodeNr s.current)
    pgdir := Function.update s.pgdir child (some pgdir) } : FileSys) = u
  have books : Books ⟨True, False⟩ dirs raw rest u := by
    rw [← hu]
    exact ⟨h.books.live, h.books.nodup, h.books.below, h.books.cap, fun hm => hm.elim,
      fun hm => ⟨(h.books.counts hm).exact, (h.books.counts hm).held⟩⟩
  have table : u.fileTable = s.fileTable := by rw [← hu]
  have fds : u.fdTable = Function.update s.fdTable child (s.fdTable s.current) := by rw [← hu]
  have copied : Descriptors raw u := h.descriptors.copy fresh table fds
  apply wp_post (updateInodeOpenCnt_books books few fun fd => copied.entry child fd)
  rintro - t ⟨extra, books', still, len, from'⟩
  refine ⟨extra, len, ⟨books', ?_⟩, still.fileTable.trans table, still.fdTable.trans fds⟩
  have slots : ∀ g, (t.fileTable g).fdInode = (u.fileTable g).fdInode := fun g => by rw [still.fileTable]
  have kept := copied.congr still.fdTable slots
  refine ⟨kept.entry, kept.used, kept.held, fun o ho => ?_⟩
  rcases List.mem_append.1 ho with ho | ho
  · obtain ⟨fd, g, hd, hg⟩ := from' o ho
    have parent : Descriptor s s.current fd g := by
      refine ⟨hd.low, hd.high, ?_⟩
      have entry := hd.entry
      rwa [fds, Function.update_self] at entry
    have other : s.current ≠ child := by
      intro he
      exact fresh fd g (he ▸ parent)
    refine ⟨g, s.current, child, fd, fd, by simp [other], ⟨hd.low, hd.high, ?_⟩, hd.congr still.fdTable,
      (slots g).trans hg⟩
    rw [still.fdTable, fds, Function.update_of_ne other]
    exact parent.entry
  · exact kept.shared o ho

/-- A state in which a process may fork. A descriptor takes an entry of a PCB, and a PCB a
page, so that there are fewer than 2^27. -/
def ParentState (s : FileSys) : Prop :=
  ∃ dirs raw rest, raw.length < 2 ^ 27 ∧ Sharing dirs raw rest s

def CarefulStep (parent child : Nat) (s t : FileSys) : Prop :=
  ∃ task c, (task = parent ∨ task = child) ∧ Careful P (s.run task) c ∧ perform P c (s.run task) = .ok ((), t)

/-- The inode of root_dir or of a struct dir in the heap. -/
def OfDirectory (s : FileSys) (o : Nat) : Prop := o = s.rootInode ∨ ∃ b ∈ s.live, s.dirInode b = o

/-- What parent and child may rely on: the descriptors they had at the fork refer to the same
inodes, every descriptor refers to an open inode, and only inodes with a descriptor are open. -/
structure SharedSafely (s₀ : FileSys) (parent child : Nat) (s : FileSys) : Prop where
  inherited : ∀ fd g, Descriptor s₀ parent fd g → Descriptor s parent fd g ∧ Descriptor s child fd g ∧
    (s.fileTable g).fdInode = (s₀.fileTable g).fdInode
  open' : ∀ task fd g, Descriptor s task fd g → ∃ o ∈ s.openInodes, (s.fileTable g).fdInode = some o
  last : ∀ o ∈ s.openInodes, ¬ OfDirectory s o → ∃ task fd g, Descriptor s task fd g ∧
    (s.fileTable g).fdInode = some o

theorem slotsFor_pos (h : 0 < slotsFor s o) : ∃ g, (s.fileTable g).fdInode = some o := by
  obtain ⟨g, -, hg⟩ := List.countP_pos_iff.1 h
  exact ⟨g, by simpa using hg⟩

theorem slot_counts {g : Nat} (high : g < maxFileOpen) (h : (s.fileTable g).fdInode = some o) :
    0 < slotsFor s o := by
  apply List.countP_pos_iff.2
  exact ⟨g, List.mem_range.2 high, by simp [h]⟩

theorem Sharing.open_of_descriptor (h : Sharing dirs raw rest s) {g : Nat} (hd : Descriptor s task fd g) :
    ∃ o ∈ s.openInodes, (s.fileTable g).fdInode = some o := by
  obtain ⟨-, high, used⟩ := h.descriptors.used task fd g hd
  obtain ⟨o, ho⟩ := Option.ne_none_iff_exists'.1 used
  refine ⟨o, ((h.books.counts trivial).held o).2 ?_, ho⟩
  have pos := slot_counts high ho
  unfold refs
  omega

theorem Sharing.descriptor_of_open (h : Sharing dirs raw rest s) (ho : o ∈ s.openInodes)
    (file : ¬ OfDirectory s o) : ∃ task fd g, Descriptor s task fd g ∧ (s.fileTable g).fdInode = some o := by
  have pos := ((h.books.counts trivial).held o).1 ho
  have noDir : ∀ l : List Nat, (∀ b ∈ l, b ∈ s.live) → dirsFor s l o = 0 := by
    intro l hl
    apply List.countP_eq_zero.2
    intro b hb eq
    exact file (Or.inr ⟨b, hl b hb, by simpa using eq⟩)
  have noHandle := noDir s.handles fun b hb => h.books.mem_live.2 (Or.inr (Or.inl hb))
  have noLost := noDir dirs fun b hb => h.books.mem_live.2 (Or.inr (Or.inr (Or.inl hb)))
  have noRoot : o ≠ s.rootInode := fun he => file (Or.inl he)
  rw [refs, noHandle, noLost, if_neg noRoot] at pos
  by_cases slots : 0 < slotsFor s o
  · obtain ⟨g, hg⟩ := slotsFor_pos slots
    obtain ⟨task, fd, hd⟩ := h.descriptors.held g (by simp [hg])
    exact ⟨task, fd, g, hd, hg⟩
  · have extra : o ∈ raw := List.count_pos_iff.1 (by omega)
    obtain ⟨g, a, -, i, -, -, hd, -, hg⟩ := h.descriptors.shared o extra
    exact ⟨a, i, g, hd, hg⟩

theorem Sharing.run (h : Sharing dirs raw rest s) (task : Nat) : Sharing dirs raw rest (s.run task) :=
  ⟨⟨h.books.live, h.books.nodup, h.books.below, h.books.cap, h.books.kernel,
    fun hm => ⟨(h.books.counts hm).exact, (h.books.counts hm).held⟩⟩,
    h.descriptors.congr rfl fun _ => rfl⟩

theorem Sharing.step {parent child : Nat} (h : Sharing dirs raw rest s) (few : raw.length + 1 < 2 ^ 28)
    (step : CarefulStep P parent child s t) : (∃ dirs' rest', Sharing dirs' raw rest' t) ∧ Keeps s t := by
  obtain ⟨task, c, -, careful, run⟩ := step
  obtain ⟨sharing, keeps⟩ := (wp_of_ok run).1 ((h.run task).perform P few careful)
  refine ⟨sharing, fun b j g hd hd' => ?_, fun b j g hd shared => ?_⟩
  · exact keeps.inode b j g (hd.congr rfl) hd'
  · exact keeps.shared b j g (hd.congr rfl) fun alone => shared fun k hk c x hx =>
      alone k (hk.congr rfl) c x (hx.congr rfl)

theorem fork_shares {s₀ s₁ : FileSys} {parent child pgdir : Nat} (state : ParentState s₀)
    (fresh : ∀ fd g, ¬ Descriptor s₀ child fd g)
    (fork : copyProcess child pgdir (s₀.run parent) = .ok ((), s₁))
    (run : Relation.ReflTransGen (CarefulStep P parent child) s₁ s) :
    SharedSafely s₀ parent child s ∧ ∀ t, CarefulStep P parent child s t → Keeps s t := by
  obtain ⟨dirs, raw₀, rest, few, sharing⟩ := state
  obtain ⟨extra, len, sharing₁, table, fds⟩ := (wp_of_ok fork).1
    ((sharing.run parent).fork (by unfold maxFilesOpenPerProc; omega) fun fd g hd => fresh fd g (hd.congr rfl))
  have few₁ : (extra ++ raw₀).length + 1 < 2 ^ 28 := by
    unfold maxFilesOpenPerProc at len
    rw [List.length_append]
    omega
  have two : ∀ {fd g}, Descriptor s₀ parent fd g → parent ≠ child := by
    rintro fd g hd rfl
    exact fresh fd g hd
  have kept : (∃ dirs' rest', Sharing dirs' (extra ++ raw₀) rest' s) ∧ ∀ fd g, Descriptor s₀ parent fd g →
      Descriptor s parent fd g ∧ Descriptor s child fd g ∧ (s.fileTable g).fdInode = (s₀.fileTable g).fdInode := by
    induction run with
    | refl =>
      refine ⟨⟨dirs, rest, sharing₁⟩, fun fd g hd => ⟨⟨hd.low, hd.high, ?_⟩, ⟨hd.low, hd.high, ?_⟩, by rw [table]; rfl⟩⟩
      · rw [fds, Function.update_of_ne (two hd)]
        exact hd.entry
      · rw [fds, Function.update_self]
        exact hd.entry
    | tail _ step ih =>
      obtain ⟨⟨dirs', rest', sharing'⟩, inherited⟩ := ih
      obtain ⟨sharing'', keeps⟩ := sharing'.step P few₁ step
      refine ⟨sharing'', fun fd g hd => ?_⟩
      obtain ⟨mine, yours, same⟩ := inherited fd g hd
      have mine' := keeps.shared parent fd g mine fun alone => two hd (alone g mine child fd yours).1.symm
      have yours' := keeps.shared child fd g yours fun alone => two hd (alone g yours parent fd mine).1
      exact ⟨mine', yours', (keeps.inode parent fd g mine mine').trans same⟩
  obtain ⟨⟨dirs', rest', sharing'⟩, inherited⟩ := kept
  refine ⟨⟨inherited, fun task fd g => sharing'.open_of_descriptor, fun o => sharing'.descriptor_of_open⟩,
    fun t step => (sharing'.step P few₁ step).2⟩

/-! A fork on the small partition. -/

theorem Mounted.parentState (h : Mounted P s) : ParentState s := by
  obtain ⟨slots, fds, rest, books⟩ := h.books P
  have none : ∀ {task fd g}, ¬ Descriptor s task fd g := by
    intro task fd g hd
    have entry := hd.entry
    rw [fds task fd hd.low] at entry
    omega
  exact ⟨[], [], rest, by decide, ⟨books.live, books.nodup, books.below, books.cap, fun hm => hm.elim, books.counts⟩,
    fun task fd low _ => Or.inl (fds task fd low), fun _ _ _ hd => (none hd).elim,
    fun g hg => absurd (slots g) hg, by simp⟩

theorem ParentState.step {c : Call} (h : ParentState s) (careful : Careful P (s.run task) c)
    (run : perform P c (s.run task) = .ok ((), t)) : ParentState t := by
  obtain ⟨dirs, raw, rest, few, sharing⟩ := h
  obtain ⟨⟨dirs', rest', sharing'⟩, -⟩ := (wp_of_ok run).1 ((sharing.run task).perform P (by omega) careful)
  exact ⟨dirs', raw, rest', few, sharing'⟩

/-- The main thread creates a file, a process opens it, too, and forks. -/
theorem forked {Q : FileSys → Prop} (run : Succeeds (filesysInit smallPartition) (fun _ a =>
      Succeeds (perform smallPartition (.opened pathF 4)) (fun _ b => b.fdTable 1 3 = -1 ∧
        Succeeds (perform smallPartition (.opened pathF 0)) (fun _ s₀ =>
          (∀ fd < maxFilesOpenPerProc, 3 ≤ fd → s₀.fdTable 2 fd = -1) ∧ s₀.fdTable 1 3 = 4 ∧
          Succeeds (copyProcess 2 1) (fun _ s₁ => Q s₁) (s₀.run 1)) (b.run 1)) (a.run 0)) firstBoot) :
    ∃ s₀ s₁, ParentState s₀ ∧ (∀ fd g, ¬ Descriptor s₀ 2 fd g) ∧ Descriptor s₀ 1 3 4 ∧
      copyProcess 2 1 (s₀.run 1) = .ok ((), s₁) ∧ Q s₁ := by
  obtain ⟨a, mounted, run⟩ := Mounted.of_run run
  obtain ⟨_, b, created, empty, run⟩ := succeeds_iff.1 run
  obtain ⟨_, s₀, opened, fresh, entry, run⟩ := succeeds_iff.1 run
  obtain ⟨_, s₁, fork, hq⟩ := succeeds_iff.1 run
  obtain ⟨-, fds, -⟩ := mounted.books
  have first : Careful smallPartition (a.run 0) (.opened pathF 4) := by
    refine fun _ => ⟨?_, fun full => full 3 (by decide) (by decide) (fds 0 3 (by decide))⟩
    rintro ⟨_, _, _, ⟨off, -⟩, -⟩
    cases off
  have second : Careful smallPartition (b.run 1) (.opened pathF 0) := by
    refine fun _ => ⟨?_, fun full => full 3 (by decide) (by decide) empty⟩
    rintro ⟨_, _, _, -, writing, -⟩
    cases writing
  refine ⟨s₀, s₁, ((mounted.parentState smallPartition).step smallPartition first created).step smallPartition second opened,
    fun fd g hd => ?_, ⟨by decide, by decide, entry⟩, fork, hq⟩
  have none := fresh fd hd.high hd.low
  rw [hd.entry] at none
  omega

-- The runs below nest several calls.
set_option synthInstance.maxSize 1024

/-- The child seeks in the empty file that both have open; sys_lseek answers -1 and nothing moves. -/
theorem fork_shares_lseek : ∃ s₀ s : FileSys, SharedSafely s₀ 1 2 s ∧ Descriptor s 1 3 4 ∧ Descriptor s 2 3 4 := by
  obtain ⟨s₀, s₁, state, fresh, opened, fork, run⟩ := forked (Q := fun s₁ =>
    Succeeds (perform smallPartition (.lseek 3 0 .seekSet)) (fun _ _ => True) (s₁.run 2)) (by decide +kernel)
  obtain ⟨_, s, sought, -⟩ := succeeds_iff.1 run
  have step : CarefulStep smallPartition 1 2 s₁ s := ⟨2, .lseek 3 0 .seekSet, Or.inr rfl, trivial, sought⟩
  have shared := (fork_shares smallPartition state fresh fork (.single step)).1
  exact ⟨s₀, s, shared, (shared.inherited 3 4 opened).1, (shared.inherited 3 4 opened).2.1⟩

/-- The child closes the descriptor it has inherited: the parent's refers to no inode any more. -/
theorem child_closes_parents_slot : ∃ s₀ s₁ s, ParentState s₀ ∧ (∀ fd g, ¬ Descriptor s₀ 2 fd g) ∧
    copyProcess 2 1 (s₀.run 1) = .ok ((), s₁) ∧ perform smallPartition (.close 3) (s₁.run 2) = .ok ((), s) ∧
    Descriptor s₀ 1 3 4 ∧ Descriptor s 1 3 4 ∧ (s.fileTable 4).fdInode = none := by
  obtain ⟨s₀, s₁, state, fresh, opened, fork, run⟩ := forked (Q := fun s₁ =>
    Succeeds (perform smallPartition (.close 3))
      (fun _ s => s.fdTable 1 3 = 4 ∧ (s.fileTable 4).fdInode = none) (s₁.run 2)) (by decide +kernel)
  obtain ⟨_, s, closed, entry, gone⟩ := succeeds_iff.1 run
  exact ⟨s₀, s₁, s, state, fresh, fork, closed, opened, ⟨by decide, by decide, entry⟩, gone⟩

end Zhenxiang.Fs
