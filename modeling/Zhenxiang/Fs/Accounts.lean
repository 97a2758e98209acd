import Zhenxiang.Fs.Mount

/-! What the books say about runs: the counts of the open inodes, the balance of the heap,
and the heap the open inodes live in. -/
namespace Zhenxiang.Fs
open Lib Kernel

variable {m : Mode} {rest : List Nat} {s t : FileSys} {c : Call} (P : Partition)

theorem Books.run (h : Books m [] [] rest s) (task : Nat) : Books m [] [] rest (s.run task) :=
  ⟨h.live, h.nodup, h.below, h.cap, h.kernel, fun hm => ⟨(h.counts hm).exact, (h.counts hm).held⟩⟩

/-- The books of a call that returns. -/
theorem Books.call (h : Books m [] [] rest s) (closable : Closable s c)
    (mine : m.kernel → ∀ d, c ≠ .closedir (some d))
    (heap : m.kernel → ∀ pathname flags, c = .opened pathname flags →
      s.pgdir s.current = none ∨ ¬ MakesFile P s pathname flags)
    (run : perform P c s = .ok ((), t)) : ∃ dirs raw lost, Balance P Anything m rest s c dirs raw lost t := by
  have after := perform_books (K := Anything) P h c closable mine heap
  exact (wp_of_ok run).1 after

/-! The counts of the open inodes. -/

/-- i_open_cnts is the number of slots and handles for the inode, and one for root_dir, and
an inode is open only as long as there are any. -/
structure CountsExact (s : FileSys) : Prop where
  exact : ∀ o ∈ s.openInodes,
    (s.inode o).iOpenCnts = slotsFor s o + dirsFor s s.handles o + if o = s.rootInode then 1 else 0
  held : ∀ o, slotsFor s o + dirsFor s s.handles o + (if o = s.rootInode then 1 else 0) = 0 →
    o ∉ s.openInodes

/-- No existing file of a directory other than the root is opened, and sys_stat finds
nothing but the root. -/
def TidyStep (s t : FileSys) : Prop :=
  ∃ task c, Closable s c ∧ ¬ LeavesDir P (s.run task) c ∧ ¬ LeavesRef P (s.run task) c ∧
    perform P c (s.run task) = .ok ((), t)

theorem Books.countsExact (h : Books m [] [] rest s) (hm : m.counted) : CountsExact s := by
  have same : ∀ o, refs s [] [] o = slotsFor s o + dirsFor s s.handles o + if o = s.rootInode then 1 else 0 := by
    intro o
    simp [refs, dirsFor]
  refine ⟨fun o ho => ?_, fun o none ho => ?_⟩
  · rw [← same]
    exact (h.counts hm).exact o ho
  · have pos := ((h.counts hm).held o).1 ho
    rw [same, none] at pos
    exact absurd pos (by decide)

theorem TidyStep.books (h : Books ⟨True, False⟩ [] [] rest s) (step : TidyStep P s t) :
    ∃ rest', Books ⟨True, False⟩ [] [] rest' t := by
  obtain ⟨task, c, closable, noDir, noRef, run⟩ := step
  obtain ⟨dirs, raw, lost, balance⟩ := (h.run task).call P closable (fun hm => hm.elim) (fun hm => hm.elim) run
  obtain rfl : dirs = [] := by
    by_contra hd
    exact noDir (balance.dir.1 hd)
  obtain rfl : raw = [] := by
    by_contra hr
    exact noRef (balance.ref.1 hr)
  exact ⟨_, balance.books⟩

theorem open_counts (h : Reachable (Mounted P) (TidyStep P) s) : CountsExact s := by
  have books : ∃ rest, Books ⟨True, False⟩ [] [] rest s := by
    refine h.invariant (I := fun s => ∃ rest, Books ⟨True, False⟩ [] [] rest s) ?_ ?_
    · intro s mounted
      obtain ⟨-, -, rest, books⟩ := mounted.books P
      exact ⟨rest, books.live, books.nodup, books.below, books.cap, fun hm => hm.elim,
        fun _ => books.counts trivial⟩
    · rintro s t ⟨rest, books⟩ step
      exact step.books P books
  obtain ⟨rest, books⟩ := books
  exact books.countsExact trivial

/-- "/f". -/
def pathF : CStr := [47, 102]

/-- sys_open with O_CREAT keeps the counts. -/
theorem open_counts_create : ∃ s : FileSys, CountsExact s ∧ s.openInodes.length = 2 := by
  have run : Succeeds (do filesysInit smallPartition; performAll smallPartition [(0, .opened pathF 6)])
      (fun _ t => t.openInodes.length = 2) firstBoot := by decide +kernel
  have each : ∀ x ∈ [(0, Call.opened pathF 6)], ∀ s t,
      perform smallPartition x.2 (s.run x.1) = .ok ((), t) → TidyStep smallPartition s t := by
    intro x hx s t run
    obtain rfl := List.mem_singleton.1 hx
    refine ⟨0, .opened pathF 6, trivial, ?_, id, run⟩
    rintro ⟨_, _, _, ⟨off, -⟩, -⟩
    cases off
  obtain ⟨t, reach, two⟩ := reachable_of_run each run
  exact ⟨t, open_counts smallPartition reach, two⟩

/-- A file is created and closed, and sys_stat looks at it: its inode stays open. -/
theorem stat_keeps_reference : ∃ s, Reachable (Mounted smallPartition) (CallStep smallPartition) s ∧
    ¬ CountsExact s := by
  have run : Succeeds (do
      filesysInit smallPartition
      performAll smallPartition [(0, .opened pathF 6), (0, .close 3), (0, .stat pathF)])
      (fun _ t => ∃ o ∈ t.openInodes, slotsFor t o = 0 ∧ dirsFor t t.handles o = 0 ∧ o ≠ t.rootInode)
      firstBoot := by decide +kernel
  obtain ⟨t, reach, o, ho, slots, handles, root⟩ :=
    reachable_of_run (callStep_of_plain smallPartition (by simp)) run
  refine ⟨t, reach, fun h => h.held o ?_ ho⟩
  rw [slots, handles, if_neg root]

/-! The balance of the heap. -/

/-- The heap and the lists of open inodes and handles fit together. -/
structure WellFormed (s : FileSys) : Prop where
  nodup : s.live.Nodup
  below : ∀ p ∈ s.live, p < s.nextBlock
  cap : s.live.length ≤ 2 ^ 28
  used : (s.openInodes ++ s.handles).Subperm s.live

/-- A live block that is neither an open inode nor a handle. -/
def Other (s : FileSys) (p : Nat) : Prop := p ∈ s.live ∧ p ∉ s.openInodes ∧ p ∉ s.handles

/-- The blocks gained and lost are those of open inodes and handles. -/
def Balanced (s t : FileSys) : Prop := ∀ p, Other t p ↔ Other s p

theorem WellFormed.books (h : WellFormed s) : ∃ rest, Books ⟨False, False⟩ [] [] rest s := by
  obtain ⟨l, perm, sub⟩ := h.used
  obtain ⟨rest, split⟩ := sub.exists_perm_append
  refine ⟨rest, ?_, h.nodup, h.below, h.cap, fun hm => hm.elim, fun hm => hm.elim⟩
  rw [List.nil_append, ← List.append_assoc]
  exact split.trans (perm.append_right rest)

theorem Books.wellFormed {dirs raw : List Nat} (h : Books m dirs raw rest s) : WellFormed s := by
  refine ⟨h.nodup, h.below, h.cap, ?_⟩
  have sub : (s.openInodes ++ s.handles).Sublist (s.openInodes ++ (s.handles ++ (dirs ++ rest))) := by
    rw [← List.append_assoc]
    exact List.sublist_append_left ..
  exact sub.subperm.trans h.live.symm.subperm

/-- The blocks in hand, and those of nobody known. -/
theorem Books.other {dirs raw : List Nat} (h : Books m dirs raw rest s) (p : Nat) :
    Other s p ↔ p ∈ dirs ∨ p ∈ rest := by
  have nodup := h.live.nodup_iff.1 h.nodup
  unfold Other
  rw [h.mem_live]
  simp only [List.nodup_append, List.mem_append] at nodup
  constructor
  · rintro ⟨live, notOpen, noHandle⟩
    tauto
  · intro hp
    refine ⟨Or.inr (Or.inr hp), fun ho => ?_, fun hh => ?_⟩
    · exact nodup.2.2 p ho p (Or.inr hp) rfl
    · exact nodup.2.1.2.2 p hh p hp rfl

theorem heap_balance (wf : WellFormed s) (closable : Closable s c) (run : perform P c s = .ok ((), t)) :
    Balanced s t ↔ ¬ LeavesDir P s c ∧ ¬ LeavesBlock P s c := by
  obtain ⟨rest, books⟩ := wf.books
  obtain ⟨dirs, raw, lost, balance⟩ := books.call P closable (fun hm => hm.elim) (fun hm => hm.elim) run
  have before : ∀ p, Other s p ↔ p ∈ rest := fun p => by simpa using books.other p
  have after := balance.books.other
  rw [← balance.dir, ← balance.block, not_not, not_not]
  constructor
  · intro same
    have nodup := (balance.books.live.nodup_iff.1 balance.books.nodup)
    simp only [List.nodup_append, List.mem_append] at nodup
    have old : ∀ p, p ∈ dirs ∨ p ∈ lost → p ∈ rest := by
      intro p hp
      rw [← before, ← same p, after, List.mem_append]
      tauto
    refine ⟨List.eq_nil_iff_forall_not_mem.2 fun p hp => ?_, List.eq_nil_iff_forall_not_mem.2 fun p hp => ?_⟩
    · exact nodup.2.1.2.1.2.2 p hp p (Or.inr (old p (Or.inl hp))) rfl
    · exact nodup.2.1.2.1.2.1.2.2 p hp p (old p (Or.inr hp)) rfl
  · rintro ⟨rfl, rfl⟩ p
    rw [before, after]
    simp

/-- sys_mkdir gives back all it has allocated. -/
theorem heap_balance_mkdir : ∃ s t, Mounted smallPartition s ∧
    perform smallPartition (.mkdir pathF) s = .ok ((), t) ∧ Balanced s t := by
  have run : Succeeds (filesysInit smallPartition) (fun _ s =>
      Succeeds (perform smallPartition (.mkdir pathF)) (fun _ _ => True) s) firstBoot := by decide +kernel
  obtain ⟨s, mounted, called⟩ := Mounted.of_run run
  obtain ⟨_, t, called, -⟩ := succeeds_iff.1 called
  obtain ⟨-, -, rest, books⟩ := mounted.books
  exact ⟨s, t, mounted, called, (heap_balance smallPartition (c := .mkdir pathF) books.wellFormed trivial called).2 ⟨id, id⟩⟩

/-- In the root directory sys_getcwd keeps its buffer. -/
theorem getcwd_keeps_buffer : ∃ s t, Mounted smallPartition s ∧ WellFormed s ∧
    perform smallPartition (.getcwd 512) s = .ok ((), t) ∧ ¬ Balanced s t := by
  have run : Succeeds (filesysInit smallPartition) (fun _ s =>
      Succeeds (perform smallPartition (.getcwd 512))
        (fun _ t => ∃ p ∈ t.live, p ∉ s.live ++ t.openInodes ++ t.handles) s) firstBoot := by decide +kernel
  obtain ⟨s, mounted, called⟩ := Mounted.of_run run
  obtain ⟨_, t, called, p, live, new⟩ := succeeds_iff.1 called
  simp only [List.mem_append, not_or] at new
  obtain ⟨-, -, rest, books⟩ := mounted.books
  exact ⟨s, t, mounted, books.wellFormed, called, fun same => new.1.1 ((same p).1 ⟨live, new.1.2, new.2⟩).1⟩

/-! The heap of the open inodes. -/

/-- sys_open, sys_stat, sys_unlink and sys_close, as long as no process makes a file. -/
def Considerate (s : FileSys) : Call → Prop
  | .opened pathname flags => s.pgdir s.current = none ∨ ¬ MakesFile P s pathname flags
  | .stat _ | .unlink _ | .close _ => True
  | _ => False

def ConsiderateStep (s t : FileSys) : Prop :=
  ∃ task c, Considerate P (s.run task) c ∧ perform P c (s.run task) = .ok ((), t)

theorem Considerate.closable (h : Considerate P s c) : Closable s c := by
  cases c with
  | closedir d => exact h.elim
  | _ => trivial

/-- What a considerate call does when the open inodes are in the kernel's heap. -/
theorem Considerate.books (h : Considerate P s c) (books : Books ⟨False, True⟩ [] [] rest s) :
    wp (perform P c) (fun _ t => (∃ dirs raw rest', Books ⟨False, True⟩ dirs raw rest' t) ∧ t.pgdir = s.pgdir)
      (· ≠ .heapAssertion) s := by
  apply wp_mono (perform_books (K := Anything) P books c (h.closable P) ?_ ?_)
  · rintro - t ⟨dirs, raw, lost, balance⟩
    exact ⟨⟨dirs, raw, _, balance.books⟩, balance.kept.pgdir⟩
  · exact fun e he => he trivial
  · rintro - d rfl
    exact h
  · rintro - pathname flags rfl
    exact h

/-- A lost struct dir is only a lost block here. -/
theorem Books.forget {dirs raw : List Nat} (h : Books ⟨False, True⟩ dirs raw rest s) :
    Books ⟨False, True⟩ [] [] (dirs ++ rest) s :=
  ⟨h.live, h.nodup, h.below, h.cap, h.kernel, fun hm => hm.elim⟩

theorem ConsiderateStep.books (h : Books ⟨False, True⟩ [] [] rest s) (step : ConsiderateStep P s t) :
    ∃ rest', Books ⟨False, True⟩ [] [] rest' t := by
  obtain ⟨task, c, considerate, run⟩ := step
  obtain ⟨⟨dirs, raw, rest', books⟩, -⟩ := (wp_of_ok run).1 (considerate.books P (h.run task))
  exact ⟨_, books.forget⟩

/-- The open inodes are in the kernel's heap, no considerate call fails the ASSERT of sys_free,
and every call restores the pgdir of its task. -/
theorem open_inodes_kernel (h : Reachable (Mounted P) (ConsiderateStep P) s) :
    (∀ o ∈ s.openInodes, s.owner o = none) ∧
    (∀ task c, Considerate P (s.run task) c → perform P c (s.run task) ≠ .error .heapAssertion) ∧
    ∀ task c t, Closable s c → perform P c (s.run task) = .ok ((), t) → t.pgdir = s.pgdir := by
  have books : ∃ rest, Books ⟨False, True⟩ [] [] rest s := by
    refine h.invariant (I := fun s => ∃ rest, Books ⟨False, True⟩ [] [] rest s) ?_ ?_
    · intro s mounted
      obtain ⟨-, -, rest, books⟩ := mounted.books P
      exact ⟨rest, books.live, books.nodup, books.below, books.cap, fun _ => books.kernel trivial,
        fun hm => hm.elim⟩
    · rintro s t ⟨rest, books⟩ step
      exact step.books P books
  obtain ⟨rest, books⟩ := books
  refine ⟨books.kernel trivial, fun task c considerate run => ?_, fun task c t closable run => ?_⟩
  · exact (wp_of_error run).1 (considerate.books P (books.run task)) rfl
  · have loose : Books ⟨False, False⟩ [] [] rest (s.run task) :=
      ⟨books.live, books.nodup, books.below, books.cap, fun hm => hm.elim, fun hm => hm.elim⟩
    obtain ⟨dirs, raw, lost, balance⟩ := loose.call P closable (fun hm => hm.elim) (fun hm => hm.elim) run
    exact balance.kept.pgdir

/-- A kernel thread creates a file. -/
theorem open_inodes_kernel_create : ∃ s : FileSys, s.openInodes.length = 2 ∧ ∀ o ∈ s.openInodes, s.owner o = none := by
  have run : Succeeds (filesysInit smallPartition) (fun _ s => s.pgdir 0 = none ∧
      Succeeds (perform smallPartition (.opened pathF 6)) (fun _ t => t.openInodes.length = 2) (s.run 0))
      firstBoot := by decide +kernel
  obtain ⟨s, mounted, kernel, called⟩ := Mounted.of_run run
  obtain ⟨_, t, called, two⟩ := succeeds_iff.1 called
  have step : ConsiderateStep smallPartition s t := ⟨0, .opened pathF 6, Or.inl kernel, called⟩
  exact ⟨t, two, (open_inodes_kernel smallPartition (.step (.start mounted) step)).1⟩

/-- A process creates a file: the new inode is in its own heap, and its sys_close fails the
ASSERT of sys_free. -/
theorem process_creates_inode : ∃ s, Reachable (Mounted smallPartition) (CallStep smallPartition) s ∧
    (∃ o ∈ s.openInodes, s.owner o = some 1) ∧
    perform smallPartition (.close 3) (s.run 1) = .error .heapAssertion := by
  have run : Succeeds (do
      filesysInit smallPartition
      performAll smallPartition [(1, .opened pathF 6)])
      (fun _ t => (∃ o ∈ t.openInodes, t.owner o = some 1) ∧
        wp (perform smallPartition (.close 3)) (fun _ _ => False) (· = .heapAssertion) (t.run 1))
      firstBoot := by decide +kernel
  obtain ⟨t, reach, owned, fails⟩ := reachable_of_run (callStep_of_plain smallPartition (by simp)) run
  refine ⟨t, reach, owned, ?_⟩
  cases called : perform smallPartition (.close 3) (t.run 1) with
  | ok r => exact ((wp_of_ok called).1 fails).elim
  | error e => rw [(wp_of_error called).1 fails]

end Zhenxiang.Fs
