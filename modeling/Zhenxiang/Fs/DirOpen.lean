import Zhenxiang.Fs.DirDelete

/-! Opening and closing directories. What dir_open takes from the heap and adds to the open
inodes is what dir_close gives back. -/
namespace Zhenxiang.Fs
open Lib Kernel

/-- The call of sys_malloc behind k others is answered when there are more blocks in use. -/
def MallocAnswers (s : FileSys) (k more : Nat) : Prop := s.oracle k ≠ 0 ∧ s.live.length + more < 2 ^ 28

instance (s : FileSys) (k more : Nat) : Decidable (MallocAnswers s k more) := inferInstanceAs (Decidable (_ ∧ _))

/-- The open inode of a number. -/
def openInode (s : FileSys) (n : Nat) : Option Nat := s.openInodes.find? fun o => (s.inode o).iNo = n

variable (P : Partition)

/-- The inode of a number: in memory when it is open, otherwise in its slot of the table. -/
def inodeView (s : FileSys) (n : Nat) : Inode :=
  match openInode s n with
  | some o => s.inode o
  | none => slotAt P s.disk n

/-- The open inodes are in blocks of the heap, and i_open_cnts counts somebody. -/
structure InodesFit (s : FileSys) : Prop where
  below : ∀ o ∈ s.openInodes, o < s.nextBlock
  counted : ∀ o ∈ s.openInodes, 0 < (s.inode o).iOpenCnts ∧ (s.inode o).iOpenCnts < 2 ^ 32

/-- After k calls of sys_malloc all that was taken is given back. -/
structure Idle (s : FileSys) (k : Nat) (u : FileSys) : Prop where
  same : ∃ inode dirInode nextBlock owner oracle, u = { s with
    inode := inode
    dirInode := dirInode
    nextBlock := nextBlock
    owner := owner
    oracle := oracle }
  inode : ∀ o < s.nextBlock, u.inode o = s.inode o
  dirInode : ∀ b < s.nextBlock, u.dirInode b = s.dirInode b
  owner : ∀ p < s.nextBlock, u.owner p = s.owner p
  nextBlock : s.nextBlock ≤ u.nextBlock
  oracle : ∀ j, u.oracle j = s.oracle (k + j)

/-- One more reference to an open inode. -/
def FileSys.addRef (s : FileSys) (o : Nat) : FileSys :=
  s.setInode o { s.inode o with iOpenCnts := incr (s.inode o).iOpenCnts }

/-- The inode n has been opened as a directory: it is the root directory, it was open before, or
its slot has been read into a new block. -/
inductive OpenDir (s : FileSys) (n k : Nat) : Dir → FileSys → Prop where
  | root {u : FileSys} (number : (s.inode s.rootInode).iNo = n) (idle : Idle s k u) : OpenDir s n k .root u
  | shared {u : FileSys} (b o : Nat) (found : openInode s n = some o) (new : s.nextBlock ≤ b) (below : b < u.nextBlock)
      (inode : u.dirInode b = o) (mine : u.owner b = s.pgdir s.current)
      (idle : Idle ({ s with live := b :: s.live }.addRef o) k u) : OpenDir s n k (.heap b) u
  | loaded {u : FileSys} (b o : Nat) (missed : openInode s n = none) (new : s.nextBlock ≤ b) (above : b < o)
      (below : o < u.nextBlock) (inode : u.dirInode b = o) (content : u.inode o = { slotAt P s.disk n with iOpenCnts := 1 })
      (mine : u.owner b = s.pgdir s.current) (kernel : u.owner o = none)
      (idle : Idle { s with live := o :: b :: s.live, openInodes := o :: s.openInodes } k u) : OpenDir s n k (.heap b) u

/-- How many blocks dir_open takes. -/
def openBlocks (s : FileSys) (n : Nat) : Nat := if openInode s n = none then 2 else 1

def dirBlocks (s : FileSys) (n : Nat) : Dir → Nat
  | .root => 0
  | .heap _ => openBlocks s n

/-- How many calls of sys_malloc dir_open makes. -/
def openCalls (s : FileSys) (n : Nat) : Nat := if openInode s n = none then 3 else 1

/-- Those calls are answered. -/
def Openable (s : FileSys) (n k : Nat) : Prop :=
  MallocAnswers s k 0 ∧ (openInode s n = none → MallocAnswers s (k + 1) 1 ∧ MallocAnswers s (k + 2) 2)

instance (s : FileSys) (n k : Nat) : Decidable (Openable s n k) := inferInstanceAs (Decidable (_ ∧ _))

variable {P} {s u : FileSys} {n k o : Nat}

/-! Blocks of the kernel. -/

def FileSys.withKernelBlock (s : FileSys) : FileSys :=
  { s.withBlock with owner := Function.update s.owner s.nextBlock none }

/-- The state behind a sys_malloc for the kernel. -/
def FileSys.afterKernelMalloc (s : FileSys) : FileSys :=
  if MallocOk s then s.withKernelBlock else { s with oracle := fun k => s.oracle (k + 1) }

theorem wp_kernelMalloc {Q : Option Nat → FileSys → Prop} {E : Fault → Prop} :
    wp kernelMalloc Q E s ↔ Q (if MallocOk s then some s.nextBlock else none) s.afterKernelMalloc := by
  have ok : ∀ pgdir : Nat → Option Nat, MallocOk { s with pgdir := pgdir } ↔ MallocOk s := fun _ => Iff.rfl
  unfold kernelMalloc setPgdir
  rw [wp_bind, wp_get, wp_bind, wp_modify, wp_bind, wp_sysMalloc, wp_bind, wp_modify, wp_pure]
  simp only [FileSys.afterKernelMalloc, FileSys.afterMalloc, ok]
  split <;> simp [FileSys.withBlock, FileSys.withKernelBlock]

theorem wp_inodeOpen_found (found : openInode s n = some o) {Q : Nat → FileSys → Prop} {E : Fault → Prop} :
    wp (inodeOpen P n) Q E s ↔ Q o (s.addRef o) := by
  unfold openInode at found
  unfold inodeOpen
  rw [wp_bind, wp_get]
  simp only [found]
  rw [modifyInode, wp_bind, wp_modify, wp_pure]
  rfl

/-- Reading an inode takes a block for it and, for a while, a buffer. -/
theorem inodeOpen_loads (fits : P.Fits) (small : n < 4096) (missed : openInode s n = none) :
    wp (inodeOpen P n) (fun o t => (MallocAnswers s 0 0 ∧ MallocAnswers s 1 1) ∧ o = s.nextBlock ∧ t.owner o = none ∧
        (∀ p < o, t.owner p = s.owner p) ∧
        t = { (s.setInode o { slotAt P s.disk n with iOpenCnts := 1 }).pushInode o with
          oracle := fun j => s.oracle (j + 2)
          nextBlock := s.nextBlock + 2
          live := o :: s.live
          owner := t.owner })
      (fun _ => ¬ (MallocAnswers s 0 0 ∧ MallocAnswers s 1 1)) s := by
  have table := fits.table
  have disk := fits.inside
  obtain ⟨pos, inside, -, -⟩ := slotSects_spec P small
  have lba : (slotPosition P n).secLba ≤ maxLba := by omega
  unfold openInode at missed
  unfold inodeOpen
  rw [wp_bind, wp_get]
  simp only [missed]
  rw [wp_bind, wp_inodeLocate small, wp_bind, wp_kernelMalloc, wp_bind, wp_sysMalloc, wp_bind, wp_check]
  by_cases first : MallocOk s
  · rw [FileSys.afterKernelMalloc, if_pos first, if_pos first]
    have answered : MallocOk s.withKernelBlock ↔ MallocAnswers s 1 1 := Iff.rfl
    by_cases second : MallocOk s.withKernelBlock
    · rw [if_pos second, FileSys.afterMalloc, if_pos second]
      refine ⟨fun _ => ?_, fun none => (none rfl).elim⟩
      rw [wp_bind]
      apply (wp_ideRead_iff lba pos).2
      dsimp only
      rw [modifyInode, wp_bind, wp_modify, wp_bind, wp_modify, wp_bind]
      apply (wp_sysFree List.mem_cons_self (Function.update_self ..)).2
      rw [wp_pure]
      have older : ∀ p ≤ s.nextBlock, s.withKernelBlock.withBlock.owner p = Function.update s.owner s.nextBlock none p :=
        fun p hp => Function.update_of_ne (Nat.ne_of_lt (Nat.lt_succ_of_le hp)) _ _
      refine ⟨⟨first, answered.1 second⟩, rfl, ?_, ?_, ?_⟩
      · exact (older _ (Nat.le_refl _)).trans (Function.update_self ..)
      · intro p hp
        exact (older p (Nat.le_of_lt hp)).trans (Function.update_of_ne (Nat.ne_of_lt hp) _ _)
      · rw [← slotAt_read P s.disk n, FileSys.free]
        simp only [FileSys.setInode, FileSys.pushInode, FileSys.withBlock, List.erase_cons_head]
        rfl
    · rw [if_neg second]
      exact ⟨fun none => (Bool.false_ne_true none).elim, fun _ both => second (answered.2 both.2)⟩
  · refine ⟨fun _ => ?_, fun _ both => first both.1⟩
    rw [if_neg first, wp_bind]
    apply (wp_ideRead_iff lba pos).2
    exact (wp_throw _).2 fun both => first both.1

/-! Between two directories. -/

theorem Idle.refl (s : FileSys) : Idle s 0 s :=
  ⟨⟨_, _, _, _, _, rfl⟩, fun _ _ => rfl, fun _ _ => rfl, fun _ _ => rfl, Nat.le_refl _, fun j => by rw [Nat.zero_add]⟩

theorem Idle.disk (h : Idle s k u) : u.disk = s.disk := by
  obtain ⟨_, _, _, _, _, rfl⟩ := h.same
  rfl

theorem Idle.openInodes (h : Idle s k u) : u.openInodes = s.openInodes := by
  obtain ⟨_, _, _, _, _, rfl⟩ := h.same
  rfl

theorem Idle.live (h : Idle s k u) : u.live = s.live := by
  obtain ⟨_, _, _, _, _, rfl⟩ := h.same
  rfl

theorem Idle.task (h : Idle s k u) : u.pgdir u.current = s.pgdir s.current := by
  obtain ⟨_, _, _, _, _, rfl⟩ := h.same
  rfl

theorem Idle.openInode (h : Idle s k u) (fit : InodesFit s) (n : Nat) : openInode u n = openInode s n := by
  unfold Fs.openInode
  rw [h.openInodes]
  apply List.find?_congr
  intro o ho
  rw [h.inode o (fit.below o ho)]

theorem Idle.answers (h : Idle s k u) (j more : Nat) : MallocAnswers u j more ↔ MallocAnswers s (k + j) more := by
  unfold MallocAnswers
  rw [h.oracle, h.live]

theorem openInode_mem (found : openInode s n = some o) : o ∈ s.openInodes ∧ (s.inode o).iNo = n :=
  ⟨List.mem_of_find?_eq_some found, by simpa using List.find?_some found⟩

/-- dir_open opens the directory when its calls of sys_malloc are answered, and only then. -/
theorem dirOpen_spec (fits : P.Fits) (fit : InodesFit s) (small : n < 4096) (idle : Idle s k u) :
    wp (dirOpen P n) (fun d t => Openable s n k ∧ d ≠ .root ∧ OpenDir P s n (k + openCalls s n) d t)
      (fun _ => ¬ Openable s n k) u := by
  have first : MallocOk u ↔ MallocAnswers s k 0 := idle.answers 0 0
  have calls : ∀ j more, MallocAnswers u j more ↔ MallocAnswers s (k + j) more := idle.answers
  have opened := idle.openInode fit n
  have disk := idle.disk
  unfold dirOpen
  rw [wp_bind, wp_sysMalloc]
  by_cases ok : MallocOk u
  · rw [if_pos ok, FileSys.afterMalloc, if_pos ok]
    dsimp only
    have same : openInode u.withBlock n = openInode s n := opened
    rw [wp_bind]
    cases found : openInode s n with
    | some o =>
      rw [wp_inodeOpen_found (same.trans found), wp_bind, wp_modify, wp_pure]
      have never : openInode s n ≠ none := by
        rw [found]
        exact Option.some_ne_none o
      refine ⟨⟨first.1 ok, fun missed => (never missed).elim⟩, Dir.noConfusion, ?_⟩
      rw [openCalls, if_neg never]
      have old := fit.below o (openInode_mem found).1
      obtain ⟨⟨inode, dirInode, nextBlock, owner, oracle, rfl⟩, inodes, dirs, owners, grown, rest⟩ := idle
      refine .shared nextBlock o found grown (Nat.lt_succ_self _) (Function.update_self ..) (Function.update_self ..)
        ⟨⟨_, _, _, _, _, rfl⟩, ?_, ?_, ?_, ?_, ?_⟩
      · intro p hp
        have here : inode p = s.inode p := inodes p hp
        have there : inode o = s.inode o := inodes o old
        simp only [FileSys.setDirInode, FileSys.addRef, FileSys.setInode, FileSys.withBlock]
        rw [there]
        by_cases hpo : p = o
        · rw [hpo, Function.update_self, Function.update_self]
        · rw [Function.update_of_ne hpo, Function.update_of_ne hpo, here]
      · intro b hb
        exact (Function.update_of_ne (Nat.ne_of_lt (hb.trans_le grown)) _ _).trans (dirs b hb)
      · intro p hp
        exact (Function.update_of_ne (Nat.ne_of_lt (hp.trans_le grown)) _ _).trans (owners p hp)
      · exact grown.trans (Nat.le_succ _)
      · intro j
        exact (rest (j + 1)).trans (congrArg s.oracle (by omega))
    | none =>
      have two : MallocAnswers u.withBlock 0 0 ∧ MallocAnswers u.withBlock 1 1 ↔ MallocAnswers s (k + 1) 1 ∧ MallocAnswers s (k + 2) 2 :=
        and_congr (calls 1 1) (calls 2 2)
      apply wp_mono (inodeOpen_loads fits small (same.trans found))
      · rintro o t ⟨both, rfl, kernel, older, ht⟩
        rw [wp_bind, wp_modify, wp_pure]
        refine ⟨⟨first.1 ok, fun _ => two.1 both⟩, Dir.noConfusion, ?_⟩
        rw [openCalls, if_pos found]
        generalize t.owner = owner' at *
        obtain ⟨⟨inode, dirInode, nextBlock, owner, oracle, rfl⟩, inodes, dirs, owners, grown, rest⟩ := idle
        subst ht
        refine .loaded nextBlock (nextBlock + 1) found grown (Nat.lt_succ_self _)
          (Nat.lt_add_of_pos_right Nat.two_pos) (Function.update_self ..) ?_ ?_ kernel
          ⟨⟨_, _, _, _, _, rfl⟩, ?_, ?_, ?_, ?_, ?_⟩
        · exact Function.update_self ..
        · exact (older nextBlock (Nat.lt_succ_self _)).trans (Function.update_self ..)
        · intro p hp
          exact (Function.update_of_ne (Nat.ne_of_lt (Nat.lt_succ_of_lt (hp.trans_le grown))) _ _).trans (inodes p hp)
        · intro b hb
          exact (Function.update_of_ne (Nat.ne_of_lt (hb.trans_le grown)) _ _).trans (dirs b hb)
        · intro p hp
          have low := hp.trans_le grown
          have kept : owner' p = Function.update owner nextBlock (s.pgdir s.current) p := older p (Nat.lt_succ_of_lt low)
          exact kept.trans ((Function.update_of_ne (Nat.ne_of_lt low) _ _).trans (owners p hp))
        · exact grown.trans (Nat.le_add_right nextBlock 3)
        · intro j
          exact (rest (j + 3)).trans (congrArg s.oracle (by omega))
      · intro e fails openable
        exact fails (two.2 (openable.2 found))
  · rw [if_neg ok]
    exact (wp_throw _).2 fun openable => ok (first.2 openable.1)

/-- A block of the kernel can be given back. -/
theorem wp_freeKernel {p : Nat} {Q : PUnit → FileSys → Prop} {E : Fault → Prop} (live : p ∈ s.live)
    (kernel : s.owner p = none) (hq : Q ⟨⟩ (s.free p)) : wp (kernelFree (some p)) Q E s := by
  unfold kernelFree setPgdir
  rw [wp_bind, wp_get, wp_bind, wp_modify, wp_bind]
  refine (wp_sysFree ?_ ?_).2 ?_
  · exact live
  · exact kernel.trans (Function.update_self s.current none s.pgdir).symm
  rw [wp_modify]
  simpa only [FileSys.free, Function.update_idem, Function.update_eq_self] using hq

theorem wp_inodeClose_kept {Q : Unit → FileSys → Prop} {E : Fault → Prop} (mem : o ∈ s.openInodes)
    (left : decr (s.inode o).iOpenCnts ≠ 0)
    (hq : Q () (s.setInode o { s.inode o with iOpenCnts := decr (s.inode o).iOpenCnts })) :
    wp (inodeClose o) Q E s := by
  unfold inodeClose modifyInode
  rw [wp_bind, wp_get, wp_bind, wp_check]
  refine ⟨fun _ => ?_, fun out => (out mem).elim⟩
  rw [wp_bind, wp_modify, wp_bind, wp_get, FileSys.setInode_self, if_neg left]
  exact (wp_pure _).2 hq

theorem wp_inodeClose_last {Q : Unit → FileSys → Prop} {E : Fault → Prop} (mem : o ∈ s.openInodes)
    (last : decr (s.inode o).iOpenCnts = 0) (live : o ∈ s.live) (kernel : s.owner o = none)
    (hq : Q () (((s.setInode o { s.inode o with iOpenCnts := decr (s.inode o).iOpenCnts }).removeInode o).free o)) :
    wp (inodeClose o) Q E s := by
  unfold inodeClose modifyInode
  rw [wp_bind, wp_get, wp_bind, wp_check]
  refine ⟨fun _ => ?_, fun out => (out mem).elim⟩
  rw [wp_bind, wp_modify, wp_bind, wp_get, FileSys.setInode_self, if_pos last, wp_bind, wp_modify]
  exact wp_freeKernel live kernel hq

theorem decr_incr {c : Nat} (h : c < 2 ^ 32) : decr (incr c) = c := by
  unfold decr incr
  omega

theorem decr_one : decr 1 = 0 := by
  decide

/-- What has been taken is given back. -/
theorem dirClose_spec {d : Dir} (fit : InodesFit s) (h : OpenDir P s n k d u) :
    Succeeds (dirClose d) (fun _ t => Idle s k t) u := by
  cases h with
  | root _ idle => exact (wp_pure _).2 idle
  | shared b o found new below inode mine idle =>
    have mem := (openInode_mem found).1
    obtain ⟨pos, bound⟩ := fit.counted o mem
    have old := fit.below o mem
    have opened : o ∈ u.openInodes := idle.openInodes ▸ mem
    have live : u.live = b :: s.live := idle.live
    have task : u.pgdir u.current = s.pgdir s.current := idle.task
    have self : u.inode o = { s.inode o with iOpenCnts := incr (s.inode o).iOpenCnts } :=
      (idle.inode o old).trans (FileSys.setInode_self ..)
    have count : decr (u.inode o).iOpenCnts = (s.inode o).iOpenCnts := by
      rw [self]
      exact decr_incr bound
    have here : b ∈ u.live := live ▸ List.mem_cons_self
    unfold dirClose
    rw [Succeeds, wp_bind, wp_get, wp_bind, wp_check]
    refine ⟨fun _ => ?_, fun out => (out here).elim⟩
    rw [wp_bind, inode]
    apply wp_inodeClose_kept opened (count ▸ Nat.ne_of_gt pos)
    refine (wp_sysFree ?_ ?_).2 ?_
    · exact here
    · exact mine.trans task.symm
    rw [count, self]
    obtain ⟨⟨_, _, _, _, _, rfl⟩, inodes, dirs, owners, grown, rest⟩ := idle
    refine ⟨?_, ?_, dirs, owners, grown, rest⟩
    · have freed : (b :: s.live).erase b = s.live := List.erase_cons_head ..
      simp only [FileSys.free, FileSys.setInode, FileSys.addRef, freed]
      exact ⟨_, _, _, _, _, rfl⟩
    · intro p hp
      by_cases hpo : p = o
      · subst hpo
        exact Function.update_self ..
      · exact (Function.update_of_ne hpo _ _).trans ((inodes p hp).trans (FileSys.setInode_of_ne _ _ hpo))
  | loaded b o missed new above below inode content mine kernel idle =>
    have opened : u.openInodes = o :: s.openInodes := idle.openInodes
    have live : u.live = o :: b :: s.live := idle.live
    have task : u.pgdir u.current = s.pgdir s.current := idle.task
    have here : b ∈ u.live := live ▸ List.mem_cons_of_mem o List.mem_cons_self
    have mem : o ∈ u.openInodes := opened ▸ List.mem_cons_self
    have held : o ∈ u.live := live ▸ List.mem_cons_self
    have last : decr (u.inode o).iOpenCnts = 0 := by
      rw [content]
      exact decr_one
    unfold dirClose
    rw [Succeeds, wp_bind, wp_get, wp_bind, wp_check]
    refine ⟨fun _ => ?_, fun out => (out here).elim⟩
    rw [wp_bind, inode]
    apply wp_inodeClose_last mem last held kernel
    have left : u.live.erase o = b :: s.live := by
      rw [live, List.erase_cons_head]
    refine (wp_sysFree ?_ ?_).2 ?_
    · have rest : b ∈ u.live.erase o := left ▸ List.mem_cons_self
      exact rest
    · exact mine.trans task.symm
    obtain ⟨⟨_, _, _, _, _, rfl⟩, inodes, dirs, owners, grown, rest⟩ := idle
    refine ⟨?_, ?_, dirs, owners, grown, rest⟩
    · have closed : (o :: s.openInodes).erase o = s.openInodes := List.erase_cons_head ..
      have freed : (b :: s.live).erase b = s.live := List.erase_cons_head ..
      dsimp only at left
      simp only [FileSys.free, FileSys.setInode, FileSys.removeInode, left, freed, closed]
      exact ⟨_, _, _, _, _, rfl⟩
    · intro p hp
      have hpo : p ≠ o := Nat.ne_of_lt (hp.trans_le (new.trans (Nat.le_of_lt above)))
      exact (Function.update_of_ne hpo _ _).trans (inodes p hp)

/-! An open directory. -/

variable {t : FileSys} {d : Dir} {j : Nat}

theorem Idle.trans (h : Idle s k u) (next : Idle u j t) : Idle s (k + j) t where
  same := by
    obtain ⟨_, _, _, _, _, rfl⟩ := h.same
    obtain ⟨_, _, _, _, _, rfl⟩ := next.same
    exact ⟨_, _, _, _, _, rfl⟩
  inode o ho := (next.inode o (ho.trans_le h.nextBlock)).trans (h.inode o ho)
  dirInode b hb := (next.dirInode b (hb.trans_le h.nextBlock)).trans (h.dirInode b hb)
  owner p hp := (next.owner p (hp.trans_le h.nextBlock)).trans (h.owner p hp)
  nextBlock := h.nextBlock.trans next.nextBlock
  oracle m := (next.oracle m).trans ((h.oracle (j + m)).trans (congrArg s.oracle (Nat.add_assoc k j m).symm))

/-- Buffers that come and go do not matter to it. -/
theorem OpenDir.idle (h : OpenDir P s n k d u) (next : Idle u j t) : OpenDir P s n (k + j) d t := by
  cases h with
  | root number idle => exact .root number (idle.trans next)
  | shared b o found new below inode mine idle =>
    exact .shared b o found new (below.trans_le next.nextBlock) ((next.dirInode b below).trans inode)
      ((next.owner b below).trans mine) (idle.trans next)
  | loaded b o missed new above below inode content mine kernel idle =>
    have older := above.trans below
    exact .loaded b o missed new above (below.trans_le next.nextBlock) ((next.dirInode b older).trans inode)
      ((next.inode o below).trans content) ((next.owner b older).trans mine) ((next.owner o below).trans kernel)
      (idle.trans next)

theorem OpenDir.disk (h : OpenDir P s n k d u) : u.disk = s.disk := by
  cases h with
  | root _ idle => exact idle.disk
  | shared _ _ _ _ _ _ _ idle => exact idle.disk
  | loaded _ _ _ _ _ _ _ _ _ _ idle => exact idle.disk

theorem OpenDir.answers (h : OpenDir P s n k d u) (j more : Nat) :
    MallocAnswers u j more ↔ MallocAnswers s (k + j) (dirBlocks s n d + more) := by
  cases h with
  | root _ idle =>
    rw [dirBlocks, Nat.zero_add]
    exact idle.answers j more
  | shared b o found _ _ _ _ idle =>
    have blocks : openBlocks s n = 1 := if_neg (by simp [found])
    rw [idle.answers, dirBlocks, blocks]
    simp only [MallocAnswers, FileSys.addRef, FileSys.setInode, List.length_cons]
    omega
  | loaded b o missed _ _ _ _ _ _ _ idle =>
    rw [idle.answers, dirBlocks, openBlocks, if_pos missed]
    simp only [MallocAnswers, List.length_cons]
    omega

/-- The directory's inode is an open one, of its number and as it was found. -/
theorem OpenDir.inode (h : OpenDir P s n k d u) (fit : InodesFit s) (root : openInode s (s.inode s.rootInode).iNo = some s.rootInode) :
    u.inodeOf d ∈ u.openInodes ∧ ∃ cnts, u.inode (u.inodeOf d) = { inodeView P s n with iOpenCnts := cnts } := by
  cases h with
  | root number idle =>
    have mem := (openInode_mem root).1
    have inode := idle.inode _ (fit.below _ mem)
    rw [number] at root
    have view : inodeView P s n = s.inode s.rootInode := by
      rw [inodeView, root]
    have same : u.rootInode = s.rootInode := by
      obtain ⟨_, _, _, _, _, rfl⟩ := idle.same
      rfl
    rw [FileSys.inodeOf, same, idle.openInodes, inode, view]
    exact ⟨mem, _, rfl⟩
  | shared b o found _ _ inode _ idle =>
    have mem := (openInode_mem found).1
    have self := (idle.inode o (fit.below o mem)).trans (FileSys.setInode_self ..)
    have view : inodeView P s n = s.inode o := by
      rw [inodeView, found]
    rw [FileSys.inodeOf, inode, idle.openInodes, self, view]
    exact ⟨mem, _, rfl⟩
  | loaded b o missed _ _ _ inode content _ _ idle =>
    have view : inodeView P s n = slotAt P s.disk n := by
      rw [inodeView, missed]
    rw [FileSys.inodeOf, inode, idle.openInodes, content, view]
    exact ⟨List.mem_cons_self, _, rfl⟩

end Zhenxiang.Fs
