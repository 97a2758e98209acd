import Zhenxiang.Fs.Runs

/-! The books of a partition that has just been mounted. -/
namespace Zhenxiang.Fs
open Lib Kernel

/-- The kernel before any file or directory is open. -/
structure Fresh (s : FileSys) : Prop where
  openInodes : s.openInodes = []
  handles : s.handles = []
  fileTable : ∀ fd, (s.fileTable fd).fdInode = none
  fdTable : ∀ task fd, 3 ≤ fd → s.fdTable task fd = -1
  nodup : s.live.Nodup
  below : ∀ p ∈ s.live, p < s.nextBlock
  cap : s.live.length ≤ 2 ^ 28

variable {K : Inode → Inode → Prop} {s t : FileSys} {α : Type} (P : Partition)

theorem Fresh.same (h : Fresh s) (k : Same K s t) (live : t.live = s.live) : Fresh t where
  openInodes := k.openInodes.trans h.openInodes
  handles := k.handles.trans h.handles
  fileTable fd := k.fileTable ▸ h.fileTable fd
  fdTable task fd := k.fdTable ▸ h.fdTable task fd
  nodup := live ▸ h.nodup
  below p hp := (h.below p (live ▸ hp)).trans_le k.nextBlock
  cap := live ▸ h.cap

theorem Fresh.quiet {c : Sys α} (h : Fresh s) (q : Quiet K [] c) : Returns c (fun _ t => Fresh t) s := by
  apply wp_mono (q s.live s (.nil h.nodup h.below))
  · rintro a t ⟨same, live⟩
    exact h.same same live
  · exact fun _ _ => trivial

theorem Fresh.malloc (h : Fresh s) : Returns sysMalloc (fun _ t => Fresh t) s := by
  apply wp_post (sysMalloc_spec s _)
  rintro r t (⟨-, ht⟩ | ⟨-, room, ht⟩)
  · rw [ht]
    exact ⟨h.openInodes, h.handles, h.fileTable, h.fdTable, h.nodup, h.below, h.cap⟩
  · have new : s.nextBlock ∉ s.live := fun hp => Nat.lt_irrefl _ (h.below _ hp)
    rw [ht]
    refine ⟨h.openInodes, h.handles, h.fileTable, h.fdTable, List.nodup_cons.2 ⟨new, h.nodup⟩, fun p hp => ?_, room⟩
    rcases List.mem_cons.1 hp with rfl | hp
    · exact Nat.lt_succ_self _
    · exact Nat.lt_succ_of_lt (h.below p hp)

/-- Nothing is asked of the contents of inodes here. -/
def Anything : Inode → Inode → Prop := fun _ _ => True

instance : IsTrans Inode Anything := ⟨fun _ _ _ _ _ => trivial⟩

instance : Shrinks Anything where
  grow _ _ _ _ _ := trivial
  shrink _ _ _ _ := trivial

instance : Opens Anything where
  deny _ _ := trivial

theorem partitionFormat_quiet [Grows K] : Quiet K [] (partitionFormat P) := by
  refine .check_bind (by decide) fun _ => ?_
  apply Quiet.malloc_bind
  · exact .check_bind (by decide) fun h => absurd h (by decide)
  intro buf
  refine .check_bind (by decide) fun _ => ?_
  exact .bind (ideWrite_quiet _ _ _) fun _ => .bind (ideWrite_quiet _ _ _) fun _ =>
    .bind (ideWrite_quiet _ _ _) fun _ => .bind (ideWrite_quiet _ _ _) fun _ =>
    .bind (ideWrite_quiet _ _ _) fun _ => .free buf

theorem mountPartition_fresh (h : Fresh s) : Returns (mountPartition P) (fun _ t => Fresh t) s := by
  unfold mountPartition
  rw [Returns, wp_bind]
  apply wp_post h.malloc
  intro sbBuf t₁ h₁
  rw [wp_bind, wp_check]
  refine ⟨fun _ => ?_, fun _ => trivial⟩
  rw [wp_bind]
  apply wp_post (wp_forRange (n := 3) (fun _ u => Fresh u) h₁ fun k u _ hu => ?_)
  · intro _ t₂ h₂
    rw [wp_bind]
    apply wp_ideRead trivial
    rw [wp_bind]
    apply wp_ideRead trivial
    exact (wp_modify _).2 ⟨rfl, h₂.handles, h₂.fileTable, h₂.fdTable, h₂.nodup, h₂.below, h₂.cap⟩
  · rw [wp_bind]
    apply wp_post hu.malloc
    intro block v hv
    rw [wp_assert]
    exact ⟨fun _ => hv, fun _ => trivial⟩

theorem slotsFor_empty (h : ∀ fd, (s.fileTable fd).fdInode = none) (o : Nat) : slotsFor s o = 0 := by
  apply List.countP_eq_zero.2
  intro fd _
  rw [h fd]
  simp

/-- The only reference is that of root_dir. -/
theorem refs_empty (slots : ∀ fd, (s.fileTable fd).fdInode = none) (handles : s.handles = []) (o : Nat) :
    refs s [] [] o = if o = s.rootInode then 1 else 0 := by
  have noDirs : dirsFor s [] o = 0 := rfl
  rw [refs, slotsFor_empty slots, handles, noDirs, List.count_nil]
  omega

/-- The root directory is the one open inode. -/
theorem openRootDir_books (h : Fresh s) : Returns (openRootDir P) (fun _ t =>
    Books ⟨True, True⟩ [] [] s.live t ∧ t.handles = [] ∧ (∀ fd, (t.fileTable fd).fdInode = none) ∧
      ∀ task fd, 3 ≤ fd → t.fdTable task fd = -1) s := by
  unfold openRootDir
  rw [Returns, wp_bind]
  apply wp_mono (inodeOpen_spec P 0 s) ?_ fun _ _ => trivial
  rintro o t (⟨ho, -⟩ | ⟨rfl, -, -, room, kernel, -, ht⟩)
  · rw [h.openInodes] at ho
    cases ho
  rw [wp_modify]
  have live : t.live = s.nextBlock :: s.live := by rw [ht]
  have opened : t.openInodes = [s.nextBlock] := by
    rw [ht]
    exact congrArg _ h.openInodes
  have handles : t.handles = [] := by
    rw [ht]
    exact h.handles
  have slots : ∀ fd, (t.fileTable fd).fdInode = none := by
    rw [ht]
    exact h.fileTable
  have cnts : (t.inode s.nextBlock).iOpenCnts = 1 := by
    rw [ht]
    simp only [FileSys.pushInode, FileSys.setInode_self]
  have next : t.nextBlock = s.nextBlock + 2 := by rw [ht]
  have new : s.nextBlock ∉ s.live := fun hp => Nat.lt_irrefl _ (h.below _ hp)
  have one : ∀ q, refs { t with rootInode := s.nextBlock } [] [] q = if q = s.nextBlock then 1 else 0 :=
    refs_empty (s := { t with rootInode := s.nextBlock }) slots handles
  refine ⟨⟨?_, ?_, fun p hp => ?_, ?_, fun _ q hq => ?_, fun _ => ⟨fun q hq => ?_, fun q => ?_⟩⟩, handles, slots, ?_⟩
  · simp only [live, opened, handles, List.nil_append, List.singleton_append]
    exact .refl _
  · exact live ▸ List.nodup_cons.2 ⟨new, h.nodup⟩
  · rcases List.mem_cons.1 (live ▸ hp) with rfl | hp
    · simp [next]
    · have := h.below p hp
      simp only [next]
      omega
  · exact live ▸ room
  · obtain rfl : q = s.nextBlock := List.mem_singleton.1 (opened ▸ hq)
    exact kernel
  · obtain rfl : q = s.nextBlock := List.mem_singleton.1 (opened ▸ hq)
    rw [one, if_pos rfl]
    exact cnts
  · have mem : q ∈ t.openInodes ↔ q = s.nextBlock := opened ▸ List.mem_singleton
    rw [one, mem]
    by_cases hq : q = s.nextBlock <;> simp [hq]
  · rw [ht]
    exact h.fdTable

theorem Mounted.books (h : Mounted P s) : (∀ fd, (s.fileTable fd).fdInode = none) ∧
    (∀ task fd, 3 ≤ fd → s.fdTable task fd = -1) ∧ ∃ rest, Books ⟨True, True⟩ [] [] rest s := by
  obtain ⟨disk, pgdir, oracle, run⟩ := h
  have fresh : Fresh (booting disk pgdir oracle) :=
    ⟨rfl, rfl, fun _ => rfl, fun task fd high => if_neg (by omega), List.nodup_nil, by simp [booting],
      by simp [booting]⟩
  have init : Returns (filesysInit P) (fun _ t => (∀ fd, (t.fileTable fd).fdInode = none) ∧
      (∀ task fd, 3 ≤ fd → t.fdTable task fd = -1) ∧ ∃ rest, Books ⟨True, True⟩ [] [] rest t)
      (booting disk pgdir oracle) := by
    unfold filesysInit
    rw [Returns, wp_bind]
    apply wp_post (fresh.quiet (partitionFormat_quiet (K := Anything) P))
    intro _ t₁ h₁
    rw [wp_bind]
    apply wp_post (mountPartition_fresh P h₁)
    intro _ t₂ h₂
    rw [wp_bind]
    apply wp_post (openRootDir_books P h₂)
    rintro - t₃ ⟨books, handles, slots, fds⟩
    refine (wp_modify _).2 ⟨fun _ => rfl, fds, t₂.live, books.live, books.nodup, books.below,
      books.cap, books.kernel, fun hm => ?_⟩
    have same : ∀ q, refs { t₃ with fileTable := fun fd => { t₃.fileTable fd with fdInode := none } }
        [] [] q = refs t₃ [] [] q := by
      intro q
      apply Eq.trans _ (refs_empty slots handles q).symm
      apply refs_empty
      · exact fun _ => rfl
      · exact handles
    refine ⟨fun q hq => ?_, fun q => ?_⟩
    · rw [same]
      exact (books.counts hm).exact q hq
    · rw [same]
      exact (books.counts hm).held q
  exact returns_iff.1 init () s run

/-! A small partition, on which runs can be carried out. -/

def smallPartition : Partition := ⟨1, 700, false⟩

def firstBoot : FileSys := booting (fun _ => 0) (fun task => if task = 1 then some 1 else none) fun _ => 1

/-- What holds after a run from the first boot holds of some mounted state. -/
theorem Mounted.of_run {Q : FileSys → Prop} (h : Succeeds (filesysInit smallPartition) (fun _ s => Q s) firstBoot) :
    ∃ s, Mounted smallPartition s ∧ Q s := by
  obtain ⟨_, s, run, hs⟩ := succeeds_iff.1 h
  exact ⟨s, ⟨_, _, _, run⟩, hs⟩

/-- Calls one after the other, each by some task. -/
def performAll : List (Nat × Call) → Sys Unit
  | [] => pure ()
  | (task, c) :: calls => do
    modify fun s => s.run task
    perform P c
    performAll calls

theorem performAll_steps {calls : List (Nat × Call)} {step : FileSys → FileSys → Prop}
    (each : ∀ x ∈ calls, ∀ s t, perform P x.2 (s.run x.1) = .ok ((), t) → step s t)
    (h : performAll P calls s = .ok ((), t)) : Relation.ReflTransGen step s t := by
  induction calls generalizing s with
  | nil =>
    cases h
    exact .refl
  | cons x calls ih =>
    have run := (runs_iff (c := performAll P (x :: calls))).1 h
    simp only [performAll, Succeeds, wp_bind, wp_modify] at run
    obtain ⟨_, u, first, rest⟩ := succeeds_iff.1 run
    obtain ⟨_, v, more, -, rfl⟩ := succeeds_iff.1 rest
    exact .head (each x List.mem_cons_self s u first) (ih (fun y hy => each y (List.mem_cons_of_mem _ hy)) more)

/-- What holds after calls on the small partition holds of some reachable state. -/
theorem reachable_of_run {calls : List (Nat × Call)} {step : FileSys → FileSys → Prop} {Q : FileSys → Prop}
    (each : ∀ x ∈ calls, ∀ s t, perform smallPartition x.2 (s.run x.1) = .ok ((), t) → step s t)
    (h : Succeeds (do filesysInit smallPartition; performAll smallPartition calls) (fun _ t => Q t) firstBoot) :
    ∃ t, Reachable (Mounted smallPartition) step t ∧ Q t := by
  rw [Succeeds, wp_bind] at h
  obtain ⟨_, s, init, rest⟩ := succeeds_iff.1 h
  obtain ⟨_, t, run, ht⟩ := succeeds_iff.1 rest
  have mounted : Mounted smallPartition s := ⟨_, _, _, init⟩
  exact ⟨t, (Reachable.start mounted).trans (performAll_steps smallPartition each run), ht⟩

/-- Calls that close no directory are steps. -/
theorem callStep_of_plain {calls : List (Nat × Call)} (plain : ∀ x ∈ calls, ∀ d, x.2 ≠ .closedir d) :
    ∀ x ∈ calls, ∀ s t, perform P x.2 (s.run x.1) = .ok ((), t) → CallStep P s t := by
  rintro ⟨task, c⟩ hx s t run
  refine ⟨task, c, ?_, run⟩
  cases c with
  | closedir d => exact (plain _ hx d rfl).elim
  | _ => trivial

end Zhenxiang.Fs
