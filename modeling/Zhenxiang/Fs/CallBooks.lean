import Zhenxiang.Fs.FileBooks

/-! The books of the system calls, with what each of them leaves behind. -/
namespace Zhenxiang.Fs
open Lib Kernel

variable {K : Inode → Inode → Prop} {m : Mode} {dirs raw rest : List Nat} {s t u : FileSys}
  {α : Type} (P : Partition)

section Growing
variable [Grows K]

theorem inodeRelease_books (h : Books m dirs raw rest s) (few : raw.length + 1 < 2 ^ 28) (inodeNo : Nat) :
    wp (inodeRelease P inodeNo) (fun _ t => Books m dirs raw rest t ∧ Still K s t) m.Tolerates s := by
  unfold inodeRelease
  rw [wp_bind]
  apply wp_post (inodeOpen_books (K := K) P h (Nat.lt_of_succ_lt few) inodeNo)
  rintro o t₁ ⟨books₁, still₁, -⟩
  rw [wp_bind, wp_get, wp_bind, wp_assert]
  refine ⟨fun _ => ?_, fun _ _ => by decide⟩
  rw [wp_bind]
  apply wp_post ((releaseBlocks_quiet (K := K) P _).books books₁)
  rintro - t₂ ⟨books₂, still₂⟩
  rw [wp_bind]
  apply wp_post ((releaseNumber_quiet (K := K) P inodeNo).books books₂)
  rintro - t₃ ⟨books₃, still₃⟩
  apply wp_post (inodeClose_books (K := K) books₃ few)
  rintro - t₄ ⟨books₄, still₄⟩
  exact ⟨books₄, still₁.trans (still₂.trans (still₃.trans still₄))⟩

omit [Grows K] in
theorem Holds.below {d : Dir} (h : Holds K m dirs raw rest s d t) : ∀ b ∈ d.blocks, b < t.nextBlock :=
  fun _ hb => h.books.below _ (h.books.mem_live.2 (by simp [hb]))

theorem Holds.next {d : Dir} {raw' rest' : List Nat} (h : Holds K m dirs raw rest s d t)
    (books : Books m (d.blocks ++ dirs) raw' rest' u) (still : Still K t u) :
    Holds K m dirs raw' rest' s d u :=
  ⟨books, h.still.trans still, h.mine.still still.toRest h.below⟩

/-- The end of a search that gives back its directory. -/
theorem Holds.close {d : Dir} (h : Holds K m dirs raw rest s d t) (few : raw.length + 1 < 2 ^ 28) :
    wp (dirClose d) (fun _ u => Books m dirs raw rest u ∧ Still K s u) m.Tolerates t := by
  apply wp_post (dirClose_books (K := K) h.books few fun _ => h.mine)
  rintro - u ⟨books, still⟩
  exact ⟨books, h.still.trans still⟩

theorem Holds.close_pure {d : Dir} (h : Holds K m dirs raw rest s d t) (few : raw.length + 1 < 2 ^ 28)
    (a : α) : wp (do dirClose d; pure a : Sys α)
      (fun b u => b = a ∧ Books m dirs raw rest u ∧ Still K s u) m.Tolerates t := by
  rw [wp_bind]
  apply wp_post (h.close few)
  rintro - u ⟨books, still⟩
  exact (wp_pure _).2 ⟨rfl, books, still⟩

end Growing

/-! sys_open. -/

/-- sys_open has searched the whole path and has found no directory at its end. -/
def Searched (s : FileSys) (pathname : CStr) (inodeNo : Option Nat) (record : PathSearchRecord)
    (t : FileSys) : Prop :=
  pathname.getLast? ≠ some slash ∧ ∃ depth t₁ t₂, pathDepthCnt pathname s = .ok (depth, t₁) ∧
    searchFile P pathname t₁ = .ok ((inodeNo, record), t₂) ∧ record.fileType ≠ ftDirectory ∧
    pathDepthCnt record.searchedPath t₂ = .ok (depth, t)

/-- sys_open comes to file_create. -/
def Creates (s : FileSys) (pathname : CStr) (flags : Nat) (record : PathSearchRecord) (t : FileSys) : Prop :=
  hasFlag flags oCreat = true ∧ Searched P s pathname none record t

/-- sys_open comes to file_open. -/
def Finds (s : FileSys) (pathname : CStr) (flags inodeNo : Nat) (record : PathSearchRecord)
    (t : FileSys) : Prop :=
  hasFlag flags oCreat = false ∧ Searched P s pathname (some inodeNo) record t

/-- An existing file is opened, and the struct dir of its directory is not closed. -/
def LeavesParent (s : FileSys) (pathname : CStr) (flags : Nat) : Prop :=
  ∃ inodeNo record t, Finds P s pathname flags inodeNo record t ∧ record.parentDir ≠ .root

/-- sys_open makes a new file. -/
def MakesFile (s : FileSys) (pathname : CStr) (flags : Nat) : Prop :=
  ∃ record t, Creates P s pathname flags record t ∧ Makes P t record.parentDir (lastName pathname) flags

/-- The buffer of file_create is not given back. -/
def LeavesBuffer (s : FileSys) (pathname : CStr) (flags : Nat) : Prop :=
  ∃ record t, Creates P s pathname flags record t ∧ CreateStarved P t

/-- sys_open fills a slot of the file table. -/
def TakesSlot (s : FileSys) (pathname : CStr) (flags : Nat) : Prop :=
  MakesFile P s pathname flags ∨ ∃ inodeNo record t, Finds P s pathname flags inodeNo record t ∧ FreeSlot t

/-- The file that sys_open finds may not be written now. -/
def AccessDenied (s : FileSys) (pathname : CStr) (flags : Nat) : Prop :=
  ∃ inodeNo record t, Finds P s pathname flags inodeNo record t ∧ Denied P t inodeNo flags

theorem Searched.unique {pathname : CStr} {a b : Option Nat} {q r : PathSearchRecord}
    (h : Searched P s pathname a q t) (k : Searched P s pathname b r u) : a = b ∧ q = r ∧ t = u := by
  obtain ⟨-, _, _, _, h₁, h₂, -, h₃⟩ := h
  obtain ⟨-, _, _, _, k₁, k₂, -, k₃⟩ := k
  cases h₁.symm.trans k₁
  cases h₂.symm.trans k₂
  cases h₃.symm.trans k₃
  exact ⟨rfl, rfl, rfl⟩

theorem TookSlot.before {flag fd o : Nat} {ret : Int} {denied : Prop} (h : Still K s t)
    (k : TookSlot t u flag ret denied fd o) : TookSlot s u flag ret denied fd o := by
  refine ⟨k.low, k.high, h.fileTable ▸ k.free, h.fileTable ▸ k.table, ?_⟩
  simpa only [FileSys.setFd, FullTable, h.fdTable, h.current] using k.fds

theorem TookSlot.after {flag fd o : Nat} {ret : Int} {denied : Prop} (h : TookSlot s t flag ret denied fd o)
    (k : Still K t u) : TookSlot s u flag ret denied fd o :=
  ⟨h.low, h.high, h.free, k.fileTable.trans h.table, by simpa only [k.fdTable] using h.fds⟩

theorem Opened.before {flag : Nat} {ret : Int} {takes denied : Prop} (h : Still K s t)
    (k : Opened t u flag ret takes denied) : Opened s u flag ret takes denied := by
  rcases k with ⟨hr, same, none⟩ | ⟨takes, fd, o, took⟩
  · exact Or.inl ⟨hr, h.sameFiles.trans same, none⟩
  · exact Or.inr ⟨takes, fd, o, took.before h⟩

theorem Opened.after {flag : Nat} {ret : Int} {takes denied : Prop} (h : Opened s t flag ret takes denied)
    (k : Still K t u) : Opened s u flag ret takes denied := by
  rcases h with ⟨hr, same, none⟩ | ⟨takes, fd, o, took⟩
  · exact Or.inl ⟨hr, same.trans k.sameFiles, none⟩
  · exact Or.inr ⟨takes, fd, o, took.after k⟩

theorem Opened.congr {flag : Nat} {ret : Int} {takes denied takes' denied' : Prop}
    (h : Opened s t flag ret takes denied) (ht : takes ↔ takes') (hd : denied ↔ denied') :
    Opened s t flag ret takes' denied' := by
  rwa [← ht, ← hd]

/-- What sys_open leaves behind: the struct dir of a directory that is not closed, the
buffer of a file_create that finds no inode number. -/
def OpenLeaves (m : Mode) (dirs raw rest : List Nat) (s : FileSys) (pathname : CStr) (flags : Nat)
    (ret : Int) (t : FileSys) : Prop :=
  ∃ lostDirs lost, Books m (lostDirs ++ dirs) raw (lost ++ rest) t ∧
    Opened s t flags ret (TakesSlot P s pathname flags) (AccessDenied P s pathname flags) ∧
    (lostDirs ≠ [] ↔ LeavesParent P s pathname flags) ∧ (lost ≠ [] ↔ LeavesBuffer P s pathname flags)

/-- Neither file_open nor file_create is called. -/
theorem OpenLeaves.nothing [Grows K] {pathname : CStr} {flags : Nat} (books : Books m dirs raw rest t)
    (still : Still K s t) (notFound : ∀ a r u, ¬ Finds P s pathname flags a r u)
    (found : ∀ r u, ¬ Creates P s pathname flags r u) :
    OpenLeaves P m dirs raw rest s pathname flags (-1) t := by
  refine ⟨[], [], books, Or.inl ⟨rfl, still.sameFiles, ?_⟩, ⟨by simp, ?_⟩, ⟨by simp, ?_⟩⟩
  · rintro (⟨r, v, creates, -⟩ | ⟨a, r, v, finds, -⟩)
    · exact found r v creates
    · exact notFound a r v finds
  · rintro ⟨a, r, v, finds, -⟩
    exact (notFound a r v finds).elim
  · rintro ⟨r, v, creates, -⟩
    exact (found r v creates).elim

/-- An exit before anything is opened or created. -/
theorem OpenLeaves.early [Grows K] {pathname : CStr} {flags : Nat} {d : Dir}
    (h : Holds K m dirs raw rest s d t) (few : raw.length + 1 < 2 ^ 28)
    (notFound : ∀ a r u, ¬ Finds P s pathname flags a r u)
    (found : ∀ r u, ¬ Creates P s pathname flags r u) :
    wp (do dirClose d; pure (-1) : Sys Int) (fun ret u => Rest K s u ∧
      OpenLeaves P m dirs raw rest s pathname flags ret u) m.Tolerates t := by
  apply wp_post (h.close_pure few (-1))
  rintro ret u ⟨rfl, books, still⟩
  exact ⟨still.toRest, .nothing P books still notFound found⟩

theorem sysOpen_books [Opens K] (h : Books m dirs raw rest s) (few : raw.length + 1 < 2 ^ 28)
    (pathname : CStr) (flags : Nat)
    (heap : m.kernel → s.pgdir s.current = none ∨ ¬ MakesFile P s pathname flags) :
    wp (sysOpen P pathname flags) (fun ret t => Rest K s t ∧
      OpenLeaves P m dirs raw rest s pathname flags ret t) m.Tolerates s := by
  unfold sysOpen
  rw [wp_bind, wp_check]
  refine ⟨fun _ => ?_, fun _ _ => by decide⟩
  rw [wp_ite]
  refine ⟨fun slashed => ?_, fun plain => ?_⟩
  · exact (wp_pure _).2 ⟨.refl s, .nothing P h (Still.refl (K := K) s) (fun _ _ _ finds => absurd slashed finds.2.1)
      fun _ _ creates => absurd slashed creates.2.1⟩
  rw [wp_bind, wp_assert]
  refine ⟨fun _ => ?_, fun _ _ => by decide⟩
  rw [wp_bind]
  apply wp_post (wp_run ((pathDepthCnt_quiet (K := K) pathname).books h))
  rintro depth t₁ ⟨⟨books₁, still₁⟩, run₁⟩
  rw [wp_bind]
  apply wp_post (wp_run (searchFile_books (K := K) P books₁ few pathname))
  rintro ⟨inodeNo, record⟩ t₂ ⟨holds₂, run₂⟩
  have holds₂ : Holds K m dirs raw rest s record.parentDir t₂ :=
    ⟨holds₂.books, still₁.trans holds₂.still, holds₂.mine⟩
  -- any search that ends as the sys_open goes on is this one
  have same : ∀ {a r u}, Searched P s pathname a r u → a = inodeNo ∧ r = record ∧
      record.fileType ≠ ftDirectory ∧ pathDepthCnt record.searchedPath t₂ = .ok (depth, u) := by
    rintro a r u ⟨-, _, _, _, depth', search, plain', depth''⟩
    cases run₁.symm.trans depth'
    cases run₂.symm.trans search
    exact ⟨rfl, rfl, plain', depth''⟩
  rw [wp_ite]
  refine ⟨fun directory => ?_, fun plainFile => ?_⟩
  · exact OpenLeaves.early P holds₂ few (fun a r u finds => absurd directory (same finds.2).2.2.1)
      fun r u creates => absurd directory (same creates.2).2.2.1
  rw [wp_bind]
  apply wp_post (wp_run (holds₂.quiet (pathDepthCnt_quiet (K := K) record.searchedPath)))
  rintro depth' t₃ ⟨holds₃, run₃⟩
  rw [wp_ite]
  refine ⟨fun short => ?_, fun whole => ?_⟩
  · have never : ∀ {a r u}, ¬ Searched P s pathname a r u := by
      intro a r u search
      cases run₃.symm.trans (same search).2.2.2
      exact short rfl
    exact OpenLeaves.early P holds₃ few (fun a r u finds => never finds.2) fun r u creates => never creates.2
  obtain rfl : depth = depth' := not_ne_iff.1 whole
  have searched : Searched P s pathname inodeNo record t₃ :=
    ⟨plain, depth, t₁, t₂, run₁, run₂, plainFile, run₃⟩
  cases inodeNo with
  | none =>
    have missing : ∀ a r u, ¬ Finds P s pathname flags a r u := fun a r u finds => by cases (same finds.2).1
    simp only [wp_ite]
    refine ⟨fun off => ?_, fun on => ?_⟩
    · refine OpenLeaves.early P holds₃ few missing fun r u creates => ?_
      rw [creates.1] at off
      cases off
    have on : hasFlag flags oCreat = true := by simpa using on
    have creates : Creates P s pathname flags record t₃ := ⟨on, searched⟩
    have one : ∀ {r u}, Creates P s pathname flags r u → r = record ∧ u = t₃ := by
      intro r u other
      obtain ⟨-, rfl, rfl⟩ := other.2.unique P searched
      exact ⟨rfl, rfl⟩
    have makes : Makes P t₃ record.parentDir (lastName pathname) flags ↔ TakesSlot P s pathname flags := by
      constructor
      · exact fun makes => Or.inl ⟨record, t₃, creates, makes⟩
      · rintro (⟨r, u, other, makes⟩ | ⟨a, r, u, finds, -⟩)
        · obtain ⟨rfl, rfl⟩ := one other
          exact makes
        · exact (missing a r u finds).elim
    have allowed : False ↔ AccessDenied P s pathname flags :=
      ⟨False.elim, fun ⟨a, r, u, finds, _⟩ => missing a r u finds⟩
    rw [wp_bind]
    apply wp_post (fileCreate_books (K := K) P holds₃.books fun hm => ?_)
    · rintro ret t₄ ⟨lost, books₄, rest₄, opened, starved⟩
      rw [wp_bind]
      apply wp_post (dirClose_books (K := K) books₄ few fun _ => holds₃.mine.still rest₄ holds₃.below)
      rintro - t₅ ⟨books₅, still₅⟩
      refine (wp_pure _).2 ⟨holds₃.still.toRest.trans (rest₄.trans still₅.toRest), [], lost, books₅,
        ((opened.before holds₃.still).after still₅).congr makes allowed, ⟨by simp, ?_⟩, fun hl => ?_, ?_⟩
      · rintro ⟨a, r, u, finds, -⟩
        exact (missing a r u finds).elim
      · exact ⟨record, t₃, creates, starved.1 hl⟩
      · rintro ⟨r, u, other, hu⟩
        obtain ⟨rfl, rfl⟩ := one other
        exact starved.2 hu
    · rw [holds₃.still.pgdir, holds₃.still.current]
      exact (heap hm).imp_right fun never makes => never ⟨record, t₃, creates, makes⟩
  | some iNo =>
    have present : ∀ r u, ¬ Creates P s pathname flags r u := fun r u creates => by cases (same creates.2).1
    simp only [wp_ite]
    refine ⟨fun on => ?_, fun off => ?_⟩
    · refine OpenLeaves.early P holds₃ few (fun a r u finds => ?_) present
      rw [finds.1] at on
      cases on
    have off : hasFlag flags oCreat = false := by simpa using off
    have finds : Finds P s pathname flags iNo record t₃ := ⟨off, searched⟩
    have one : ∀ {a r u}, Finds P s pathname flags a r u → a = iNo ∧ r = record ∧ u = t₃ := by
      intro a r u other
      obtain ⟨ha, rfl, rfl⟩ := other.2.unique P searched
      exact ⟨Option.some.inj ha, rfl, rfl⟩
    have takes : FreeSlot t₃ ↔ TakesSlot P s pathname flags := by
      constructor
      · exact fun free => Or.inr ⟨iNo, record, t₃, finds, free⟩
      · rintro (⟨r, u, creates, -⟩ | ⟨a, r, u, other, free⟩)
        · exact (present r u creates).elim
        · obtain ⟨-, -, rfl⟩ := one other
          exact free
    have denied : Denied P t₃ iNo flags ↔ AccessDenied P s pathname flags := by
      constructor
      · exact fun denied => ⟨iNo, record, t₃, finds, denied⟩
      · rintro ⟨a, r, u, other, denied⟩
        obtain ⟨rfl, -, rfl⟩ := one other
        exact denied
    apply wp_post (fileOpen_books (K := K) P holds₃.books (by omega) iNo flags)
    rintro ret t₄ ⟨books₄, rest₄, opened⟩
    -- nobody has the struct dir of the directory any more
    refine ⟨holds₃.still.toRest.trans rest₄, record.parentDir.blocks, [], books₄,
      (opened.before holds₃.still).congr takes denied, ⟨fun hb => ?_, ?_⟩, by simp, ?_⟩
    · exact ⟨iNo, record, t₃, finds, fun root => hb (by rw [root]; rfl)⟩
    · rintro ⟨a, r, u, other, below⟩
      obtain ⟨-, rfl, -⟩ := one other
      cases hd : r.parentDir with
      | root => exact absurd hd below
      | heap b => simp [Dir.blocks]
    · rintro ⟨r, u, creates, -⟩
      exact (present r u creates).elim

/-! Descriptors. -/

/-- The slot of a descriptor of the running task. -/
structure Global (s : FileSys) (fd : Int) (globalFd : Nat) : Prop where
  localFd : fd.toNat < maxFilesOpenPerProc
  entry : s.fdTable s.current fd.toNat = globalFd
  high : globalFd < maxFileOpen

theorem Global.unique {fd : Int} {a b : Nat} (h : Global s fd a) (k : Global s fd b) : a = b :=
  Int.ofNat.inj (h.entry.symm.trans k.entry)

theorem wp_fdLocal2global {fd : Int} {Q : Nat → FileSys → Prop} {E : Fault → Prop} (undef : E .undefined)
    (fails : E .assertion) (h : ∀ globalFd, Global s fd globalFd → Q globalFd s) :
    wp (fdLocal2global fd.toNat) Q E s := by
  unfold fdLocal2global
  simp only [wp_bind, wp_check, wp_get, wp_assert, wp_pure]
  refine ⟨fun low => ⟨fun inside => h _ ⟨low, ?_, ?_⟩, fun _ => fails⟩, fun _ => undef⟩
  · exact (Int.toNat_of_nonneg inside.1).symm
  · exact (Int.toNat_lt inside.1).2 inside.2

/-- sys_close empties the slot and the entry of the task's table. -/
def Closed (s t : FileSys) (fd : Int) : Prop :=
  (¬ 2 < fd ∧ t.fileTable = s.fileTable ∧ t.fdTable = s.fdTable) ∨
    2 < fd ∧ ∃ globalFd o, Global s fd globalFd ∧ (s.fileTable globalFd).fdInode = some o ∧
      t.fileTable = Function.update s.fileTable globalFd { s.fileTable globalFd with fdInode := none } ∧
      t.fdTable = (s.setFd fd.toNat (-1)).fdTable

theorem sysClose_books [Opens K] (h : Books m dirs raw rest s) (few : raw.length + 1 < 2 ^ 28) (fd : Int) :
    wp (sysClose fd) (fun _ t => Books m dirs raw rest t ∧ Rest K s t ∧ Closed s t fd)
      m.Tolerates s := by
  unfold sysClose
  rw [wp_ite]
  refine ⟨fun high => ?_, fun low => (wp_pure _).2 ⟨h, .refl s, Or.inl ⟨low, rfl, rfl⟩⟩⟩
  rw [wp_bind]
  apply wp_fdLocal2global (fun _ => by decide) fun _ => by decide
  intro globalFd global
  rw [wp_bind]
  apply wp_post (fileClose_books (K := K) h few global.high)
  rintro ret t ⟨books, kept, o, ho, used, fds, table⟩
  rw [wp_bind, wp_modify]
  refine (wp_pure _).2 ⟨books.setFd _ _, kept.trans (.setFd t _ _),
    Or.inr ⟨high, globalFd, o, global, used, table, ?_⟩⟩
  simp only [FileSys.setFd, fds, kept.current]

/-- sys_write comes to a file that may be written. -/
def Writes (s : FileSys) (fd : Int) (globalFd : Nat) : Prop :=
  0 ≤ fd ∧ fd ≠ 1 ∧ Global s fd globalFd ∧ canWrite (s.fileTable globalFd).fdFlag = true

theorem sysWrite_books [Grows K] (h : Books m dirs raw rest s) (fd : Int) (buf : Buf) (count : Nat) :
    wp (sysWrite P fd buf count) (fun _ t => ∃ lost, Books m dirs raw (lost ++ rest) t ∧ Rest K s t ∧
      ((t.fileTable = s.fileTable ∧ t.fdTable = s.fdTable) ∨
        ∃ globalFd, Writes s fd globalFd ∧ Wrote K s t globalFd) ∧
      (lost ≠ [] ↔ ∃ globalFd, Writes s fd globalFd ∧ WriteStarved P s globalFd count))
      m.Tolerates s := by
  unfold sysWrite
  rw [wp_ite]
  refine ⟨fun low => (wp_pure _).2 ⟨[], h, .refl s, Or.inl ⟨rfl, rfl⟩, by simp, ?_⟩, fun high => ?_⟩
  · rintro ⟨_, ⟨nonneg, -⟩, -⟩
    omega
  rw [wp_ite]
  refine ⟨fun console => ?_, fun file => ?_⟩
  · rw [wp_bind, wp_check]
    refine ⟨fun _ => (wp_pure _).2 ⟨[], h, .refl s, Or.inl ⟨rfl, rfl⟩, by simp, ?_⟩, fun _ _ => by decide⟩
    rintro ⟨_, ⟨-, notConsole, -⟩, -⟩
    exact absurd console notConsole
  rw [wp_bind]
  apply wp_fdLocal2global (fun _ => by decide) fun _ => by decide
  intro globalFd global
  rw [wp_bind, wp_get, wp_ite]
  refine ⟨fun may => ?_, fun mayNot => (wp_pure _).2 ⟨[], h, .refl s, Or.inl ⟨rfl, rfl⟩, by simp, ?_⟩⟩
  · have writes : Writes s fd globalFd := ⟨not_lt.1 high, file, global, may⟩
    apply wp_post (fileWrite_books (K := K) P h global.high buf count)
    rintro ret t ⟨lost, books, kept, wrote, starved⟩
    refine ⟨lost, books, kept, Or.inr ⟨globalFd, writes, wrote⟩, fun hl => ⟨_, writes, starved.1 hl⟩, ?_⟩
    rintro ⟨other, other_writes, hungry⟩
    exact starved.2 (global.unique other_writes.2.2.1 ▸ hungry)
  · rintro ⟨other, ⟨-, -, other_global, may⟩, -⟩
    exact absurd (global.unique other_global ▸ may) mayNot

theorem sysRead_books [Grows K] (h : Books m dirs raw rest s) (fd : Int) (count : Nat) :
    wp (sysRead fd count) (fun _ t => ∃ lost, Books m dirs raw (lost ++ rest) t ∧ Rest K s t ∧
      ((t.fileTable = s.fileTable ∧ t.fdTable = s.fdTable) ∨
        ∃ globalFd, 0 ≤ fd ∧ Global s fd globalFd ∧ DidRead s t globalFd count) ∧
      (lost ≠ [] ↔ ∃ globalFd, 0 ≤ fd ∧ Global s fd globalFd ∧ ReadStarved s globalFd count))
      m.Tolerates s := by
  unfold sysRead
  rw [wp_ite]
  refine ⟨fun low => (wp_pure _).2 ⟨[], h, .refl s, Or.inl ⟨rfl, rfl⟩, by simp, ?_⟩, fun high => ?_⟩
  · rintro ⟨_, nonneg, -⟩
    omega
  rw [wp_bind]
  apply wp_fdLocal2global (fun _ => by decide) fun _ => by decide
  intro globalFd global
  apply wp_post (fileRead_books (K := K) h global.high count)
  rintro ret t ⟨lost, books, kept, read, starved⟩
  have nonneg := not_lt.1 high
  refine ⟨lost, books, kept, Or.inr ⟨globalFd, nonneg, global, read⟩,
    fun hl => ⟨_, nonneg, global, starved.1 hl⟩, ?_⟩
  rintro ⟨other, -, other_global, hungry⟩
  exact starved.2 (global.unique other_global ▸ hungry)

/-- sys_lseek moves fd_pos to a place below the size as an int32_t. -/
def Sought (s t : FileSys) (globalFd : Nat) : Prop :=
  ∃ o, ∃ newPos : Int, (s.fileTable globalFd).fdInode = some o ∧ o ∈ s.openInodes ∧ 0 ≤ newPos ∧
    newPos ≤ toInt32 (toInt32 (s.inode o).iSize - 1) ∧
    t = s.setSlot globalFd { s.fileTable globalFd with fdPos := newPos.toNat }

theorem sysLseek_books [Grows K] (h : Books m dirs raw rest s) (fd offset : Int) (whence : Whence) :
    wp (sysLseek fd offset whence) (fun _ t => Books m dirs raw rest t ∧ Rest K s t ∧
      (t = s ∨ ∃ globalFd, 0 ≤ fd ∧ Global s fd globalFd ∧ Sought s t globalFd)) m.Tolerates s := by
  unfold sysLseek
  rw [wp_ite]
  refine ⟨fun _ => (wp_pure _).2 ⟨h, .refl s, Or.inl rfl⟩, fun high => ?_⟩
  rw [wp_bind]
  apply wp_fdLocal2global (fun _ => by decide) fun _ => by decide
  intro globalFd global
  rw [wp_bind, wp_get, wp_bind]
  apply wp_fdInode fun _ => by decide
  intro o used ho
  rw [wp_bind, wp_get]
  rw [wp_ite]
  refine ⟨fun _ => (wp_pure _).2 ⟨h, .refl s, Or.inl rfl⟩, fun inside => ?_⟩
  rw [wp_bind, setFile, wp_modify]
  refine (wp_pure _).2 ⟨h.keepSlot global.high rfl, .setSlot s _ _,
    Or.inr ⟨globalFd, not_lt.1 high, global, o, _, used, ho, not_lt.1 fun hn => inside (Or.inl hn),
      not_lt.1 fun hn => inside (Or.inr hn), rfl⟩⟩

end Zhenxiang.Fs
