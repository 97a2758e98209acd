import Zhenxiang.Fs.CallBooks

/-! The books of the calls on directories and paths. -/
namespace Zhenxiang.Fs
open Lib Kernel

variable {K : Inode → Inode → Prop} {m : Mode} {dirs raw rest : List Nat} {s t u : FileSys}
  {α : Type} (P : Partition)

section Shrinking
variable [Shrinks K]

/-- The middle of sys_unlink and dir_remove, from io_buf on. -/
theorem removeEntry_books {ioBuf : Nat} {f : PUnit → Sys α} {Q : α → FileSys → Prop}
    (h : Books m dirs [] (ioBuf :: rest) s) (mine : s.owner ioBuf = s.pgdir s.current)
    (parentDir : Dir) (inodeNo : Nat)
    (next : ∀ t, Books m dirs [] rest t → Still K s t → wp (f ⟨⟩) Q m.Tolerates t) :
    wp (do let _ ← deleteDirEntry P parentDir inodeNo; inodeRelease P inodeNo
           let x ← sysFree (some ioBuf); f x) Q m.Tolerates s := by
  have below : ioBuf < s.nextBlock := h.below _ (h.mem_live.2 (by simp))
  rw [wp_bind]
  apply wp_post ((deleteDirEntry_quiet (K := K) P parentDir inodeNo).books h)
  rintro - t ⟨books, still⟩
  rw [wp_bind]
  apply wp_post (inodeRelease_books (K := K) P books (by decide) inodeNo)
  rintro - u ⟨books', still'⟩
  rw [wp_bind]
  apply wp_post (sysFree_books (K := K) books' fun _ => (still.trans still').mine below mine)
  rintro - v ⟨books'', still''⟩
  exact next v books'' (still.trans (still'.trans still''))

theorem sysUnlink_books (h : Books m dirs [] rest s) (pathname : CStr) :
    wp (sysUnlink P pathname) (fun _ t => Books m dirs [] rest t ∧ Still K s t) m.Tolerates s := by
  have few : ([] : List Nat).length + 1 < 2 ^ 28 := by decide
  unfold sysUnlink
  rw [wp_bind, wp_assert]
  refine ⟨fun _ => ?_, fun _ _ => by decide⟩
  rw [wp_bind]
  apply wp_post (searchFile_books (K := K) P h few pathname)
  rintro ⟨inodeNo, record⟩ t₁ holds
  have close : ∀ {u} (a : Int), Holds K m dirs [] rest s record.parentDir u →
      wp (do dirClose record.parentDir; pure a : Sys Int)
        (fun _ v => Books m dirs [] rest v ∧ Still K s v) m.Tolerates u := by
    intro u a hu
    exact wp_post (hu.close_pure few a) fun _ _ hv => hv.2
  cases inodeNo with
  | none => exact close (-1) holds
  | some iNo =>
    simp only
    rw [wp_bind, wp_assert]
    refine ⟨fun _ => ?_, fun _ _ => by decide⟩
    rw [wp_ite]
    refine ⟨fun _ => close (-1) holds, fun _ => ?_⟩
    rw [wp_bind, wp_get, wp_ite]
    refine ⟨fun _ => close (-1) holds, fun _ => ?_⟩
    rw [wp_bind]
    apply wp_post (sysMalloc_books (K := K) holds.books)
    rintro r t₂ ⟨still₂, ⟨rfl, books₂⟩ | ⟨rfl, books₂, mine₂⟩⟩
    · exact close (-1) (holds.next books₂ still₂)
    · apply removeEntry_books (K := K) P books₂ mine₂ record.parentDir iNo
      intro t₃ books₃ still₃
      exact close 0 (holds.next books₃ (still₂.trans still₃))

theorem dirRemove_books (h : Books m dirs [] rest s) (parentDir childDir : Dir) :
    wp (dirRemove P parentDir childDir) (fun _ t => Books m dirs [] rest t ∧ Still K s t)
      m.Tolerates s := by
  unfold dirRemove
  rw [wp_bind, wp_get, wp_bind, wp_assert]
  refine ⟨fun _ => ?_, fun _ _ => by decide⟩
  rw [wp_bind]
  apply wp_post (sysMalloc_books (K := K) h)
  rintro r t ⟨still, ⟨rfl, books⟩ | ⟨rfl, books, mine⟩⟩
  · exact (wp_pure _).2 ⟨books, still⟩
  · apply removeEntry_books (K := K) P books mine
    intro u books' still'
    exact (wp_pure _).2 ⟨books', still.trans still'⟩

theorem sysRmdir_books (h : Books m dirs [] rest s) (pathname : CStr) :
    wp (sysRmdir P pathname) (fun _ t => Books m dirs [] rest t ∧ Still K s t) m.Tolerates s := by
  have few : ([] : List Nat).length + 1 < 2 ^ 28 := by decide
  unfold sysRmdir
  rw [wp_bind]
  apply wp_post (searchFile_books (K := K) P h few pathname)
  rintro ⟨inodeNo, record⟩ t₁ holds
  cases inodeNo with
  | none => exact wp_post (holds.close_pure few (-1)) fun _ _ hv => hv.2
  | some iNo =>
    simp only
    rw [wp_bind, wp_assert]
    refine ⟨fun _ => ?_, fun _ _ => by decide⟩
    rw [wp_bind]
    apply wp_post (dirOpen_books (K := K) P holds.books (by decide) iNo)
    rintro dir t₂ ⟨books₂, still₂, mine₂, -⟩
    have holds₂ : Holds K m (record.parentDir.blocks ++ dirs) [] rest t₂ dir t₂ := ⟨books₂, .refl t₂, mine₂⟩
    rw [wp_bind]
    apply wp_post (holds₂.quiet (Quiet.get_bind fun _ => .pure _ : Quiet K [] (dirIsEmpty dir)))
    intro empty t₃ holds₃
    have close : ∀ {v} (a : Int), Holds K m (record.parentDir.blocks ++ dirs) [] rest t₂ dir v →
        wp (do dirClose dir; dirClose record.parentDir; pure a : Sys Int)
          (fun _ w => Books m dirs [] rest w ∧ Still K s w) m.Tolerates v := by
      intro v a hv
      rw [wp_bind]
      apply wp_post (hv.close few)
      rintro - w ⟨books, still⟩
      have holds' := holds.next books (still₂.trans still)
      exact wp_post (holds'.close_pure few a) fun _ _ hx => hx.2
    rw [wp_ite]
    refine ⟨fun _ => close (-1) holds₃, fun _ => ?_⟩
    rw [wp_bind]
    apply wp_post (dirRemove_books (K := K) P holds₃.books record.parentDir dir)
    rintro ret t₄ ⟨books₄, still₄⟩
    exact close ret (holds₃.next books₄ still₄)

end Shrinking

section Growing
variable [Grows K]

theorem sysMkdir_books (h : Books m dirs [] rest s) (pathname : CStr) :
    wp (sysMkdir P pathname) (fun _ t => Books m dirs [] rest t ∧ Still K s t) m.Tolerates s := by
  have few : ([] : List Nat).length + 1 < 2 ^ 28 := by decide
  unfold sysMkdir
  rw [wp_bind]
  apply wp_post (sysMalloc_books (K := K) h)
  rintro r t₁ ⟨still₁, ⟨rfl, books₁⟩ | ⟨rfl, books₁, mine₁⟩⟩
  · exact (wp_pure _).2 ⟨books₁, still₁⟩
  have below₁ : s.nextBlock < t₁.nextBlock := books₁.below _ (books₁.mem_live.2 (by simp))
  simp only
  rw [wp_bind]
  apply wp_post (searchFile_books (K := K) P books₁ few pathname)
  rintro ⟨inodeNo, record⟩ t₂ holds₂
  have leave : ∀ {v} (a : Int), Holds K m dirs [] (s.nextBlock :: rest) t₁ record.parentDir v →
      wp (do dirClose record.parentDir; sysFree (some s.nextBlock); pure a : Sys Int)
        (fun _ w => Books m dirs [] rest w ∧ Still K s w) m.Tolerates v := by
    intro v a hv
    rw [wp_bind]
    apply wp_post (hv.close few)
    rintro - w ⟨books, still⟩
    rw [wp_bind]
    apply wp_post (sysFree_books (K := K) books fun _ => still.mine below₁ mine₁)
    rintro - x ⟨books', still'⟩
    exact (wp_pure _).2 ⟨books', still₁.trans (still.trans still')⟩
  cases inodeNo with
  | some _ => exact leave (-1) holds₂
  | none =>
    simp only
    rw [wp_bind]
    apply wp_post (holds₂.quiet (pathDepthCnt_quiet pathname))
    intro depth t₃ holds₃
    rw [wp_bind]
    apply wp_post (holds₃.quiet (pathDepthCnt_quiet record.searchedPath))
    intro depth' t₄ holds₄
    rw [wp_ite]
    refine ⟨fun _ => leave (-1) holds₄, fun _ => ?_⟩
    rw [wp_bind, wp_check]
    refine ⟨fun _ => ?_, fun _ _ => by decide⟩
    rw [wp_bind]
    apply wp_post (holds₄.quiet (makeDir_quiet P record.parentDir _))
    intro ret t₅ holds₅
    exact leave ret holds₅

/-- The handle that is returned is the caller's. -/
theorem sysOpendir_books (h : Books m dirs [] rest s) (name : CStr) :
    wp (sysOpendir P name) (fun r t => Books m ((r.getD .root).blocks ++ dirs) [] rest t ∧ Still K s t)
      m.Tolerates s := by
  have few : ([] : List Nat).length + 1 < 2 ^ 28 := by decide
  unfold sysOpendir
  rw [wp_bind, wp_assert]
  refine ⟨fun _ => ?_, fun _ _ => by decide⟩
  rw [wp_ite]
  refine ⟨fun _ => (wp_pure _).2 ⟨h, .refl s⟩, fun _ => ?_⟩
  rw [wp_bind]
  apply wp_post (searchFile_books (K := K) P h few name)
  rintro ⟨inodeNo, record⟩ t₁ holds
  have close : wp (do dirClose record.parentDir; pure none : Sys (Option Dir)) (fun r v =>
      Books m ((r.getD .root).blocks ++ dirs) [] rest v ∧ Still K s v) m.Tolerates t₁ := by
    apply wp_post (holds.close_pure few none)
    rintro r v ⟨rfl, books, still⟩
    exact ⟨books, still⟩
  cases inodeNo with
  | none => exact close
  | some iNo =>
    simp only [wp_ite]
    refine ⟨fun _ => ?_, fun _ => close⟩
    rw [wp_bind]
    apply wp_post (dirOpen_books (K := K) P holds.books (by decide) iNo)
    rintro dir t₂ ⟨books₂, still₂, -, -⟩
    rw [wp_bind]
    -- the two struct dirs change places
    have swapped : Books m (record.parentDir.blocks ++ (dir.blocks ++ dirs)) [] rest t₂ := by
      apply books₂.perm ?_ (.refl _) (.refl _)
      simp only [← List.append_assoc]
      exact List.perm_append_comm.append_right dirs
    apply wp_post (dirClose_books (K := K) swapped few fun _ => holds.mine.still still₂.toRest holds.below)
    rintro - t₃ ⟨books₃, still₃⟩
    exact (wp_pure _).2 ⟨books₃, holds.still.trans (still₂.trans still₃)⟩

theorem sysChdir_books (h : Books m dirs [] rest s) (path : CStr) :
    wp (sysChdir P path) (fun _ t => Books m dirs [] rest t ∧ Still K s t) m.Tolerates s := by
  have few : ([] : List Nat).length + 1 < 2 ^ 28 := by decide
  unfold sysChdir
  rw [wp_bind]
  apply wp_post (searchFile_books (K := K) P h few path)
  rintro ⟨inodeNo, record⟩ t₁ holds
  have close : ∀ {v} (a : Int), Holds K m dirs [] rest s record.parentDir v →
      wp (do dirClose record.parentDir; pure a : Sys Int)
        (fun _ w => Books m dirs [] rest w ∧ Still K s w) m.Tolerates v := by
    intro v a hv
    exact wp_post (hv.close_pure few a) fun _ _ hx => hx.2
  cases inodeNo with
  | none => exact close (-1) holds
  | some iNo =>
    simp only [wp_ite]
    refine ⟨fun _ => ?_, fun _ => close (-1) holds⟩
    rw [wp_bind, wp_modify]
    have books := holds.books
    exact close 0 (holds.next ⟨books.live, books.nodup, books.below, books.cap, books.kernel,
        fun hm => ⟨(books.counts hm).exact, (books.counts hm).held⟩⟩
      ⟨⟨(Rest.refl t₁).inode, rfl, fun _ _ => rfl, rfl, rfl, rfl, Nat.le_refl _, fun _ _ => rfl⟩, rfl, rfl⟩)

/-- sys_stat has found what the path names and opens its inode. -/
def StatFinds (s : FileSys) (path : CStr) : Prop :=
  isRootName path = false ∧ ∃ inodeNo record t, searchFile P path s = .ok ((some inodeNo, record), t)

/-- One reference is left behind exactly when something is found. -/
theorem sysStat_books (h : Books m dirs [] rest s) (path : CStr) :
    wp (sysStat P path) (fun _ t => ∃ raw, Books m dirs raw rest t ∧ Still K s t ∧
      (raw ≠ [] ↔ StatFinds P s path)) m.Tolerates s := by
  have few : ([] : List Nat).length + 1 < 2 ^ 28 := by decide
  unfold sysStat
  rw [wp_ite]
  refine ⟨fun root => ?_, fun below => ?_⟩
  · rw [wp_bind, wp_get]
    refine (wp_pure _).2 ⟨[], h, .refl s, by simp, fun hf => ?_⟩
    rw [hf.1] at root
    cases root
  have below : isRootName path = false := by simpa using below
  rw [wp_bind]
  apply wp_post (wp_run (searchFile_books (K := K) P h few path))
  rintro ⟨inodeNo, record⟩ t₁ ⟨holds, run⟩
  cases inodeNo with
  | none =>
    simp only
    apply wp_post (holds.close_pure few _)
    rintro r v ⟨-, books, still⟩
    refine ⟨[], books, still, by simp, ?_⟩
    rintro ⟨-, _, _, _, run'⟩
    cases run.symm.trans run'
  | some iNo =>
    simp only
    rw [wp_bind]
    apply wp_post (inodeOpen_books (K := K) P holds.books (by decide) iNo)
    rintro o t₂ ⟨books₂, still₂, -⟩
    rw [wp_bind, wp_get]
    apply wp_post ((holds.next books₂ still₂).close_pure (by simp) _)
    rintro r v ⟨-, books, still⟩
    exact ⟨[o], books, still, fun _ => ⟨below, iNo, record, t₁, run⟩, by simp⟩

theorem getParentDirInodeNr_books (h : Books m dirs [] rest s) (childInodeNr : Nat) :
    wp (getParentDirInodeNr P childInodeNr) (fun _ t => Books m dirs [] rest t ∧ Still K s t)
      m.Tolerates s := by
  unfold getParentDirInodeNr
  rw [wp_bind]
  apply wp_post (inodeOpen_books (K := K) P h (by decide) childInodeNr)
  rintro o t₁ ⟨books₁, still₁, -⟩
  rw [wp_bind, wp_get, wp_bind, wp_assert]
  refine ⟨fun _ => ?_, fun _ _ => by decide⟩
  rw [wp_bind]
  apply wp_post (inodeClose_books (K := K) books₁ (by simp))
  rintro - t₂ ⟨books₂, still₂⟩
  rw [wp_bind]
  apply wp_ideRead fun _ => by decide
  rw [wp_bind, wp_assert]
  exact ⟨fun _ => (wp_pure _).2 ⟨books₂, still₁.trans still₂⟩, fun _ _ => by decide⟩

theorem getChildDirName_books (h : Books m dirs [] rest s) (pInodeNr cInodeNr : Nat) :
    wp (getChildDirName P pInodeNr cInodeNr) (fun _ t => Books m dirs [] rest t ∧ Still K s t)
      m.Tolerates s := by
  unfold getChildDirName
  rw [wp_bind]
  apply wp_post (inodeOpen_books (K := K) P h (by decide) pInodeNr)
  rintro o t₁ ⟨books₁, still₁, -⟩
  rw [wp_bind, wp_get, wp_bind]
  apply wp_post ((collectBlocks_quiet (K := K) _).books books₁)
  rintro allBlocks t₂ ⟨books₂, still₂⟩
  rw [wp_bind]
  apply wp_post (inodeClose_books (K := K) books₂ (by simp))
  rintro - t₃ ⟨books₃, still₃⟩
  apply wp_post ((childNameFrom_quiet (K := K) allBlocks cInodeNr _ _).books books₃)
  rintro name t₄ ⟨books₄, still₄⟩
  exact ⟨books₄, still₁.trans (still₂.trans (still₃.trans still₄))⟩

theorem pathUp_books (rounds : Nat) : ∀ childInodeNr s, Books m dirs [] rest s →
    wp (pathUp P rounds childInodeNr) (fun _ t => Books m dirs [] rest t ∧ Still K s t)
      m.Tolerates s := by
  induction rounds with
  | zero =>
    intro _ _ _
    exact (wp_throw _).2 fun _ => by decide
  | succ k ih =>
    intro childInodeNr s h
    unfold pathUp
    rw [wp_ite]
    refine ⟨fun _ => (wp_pure _).2 ⟨h, .refl s⟩, fun _ => ?_⟩
    rw [wp_bind]
    apply wp_post (getParentDirInodeNr_books (K := K) P h childInodeNr)
    rintro parent t₁ ⟨books₁, still₁⟩
    rw [wp_bind]
    apply wp_post (getChildDirName_books (K := K) P books₁ parent childInodeNr)
    rintro name t₂ ⟨books₂, still₂⟩
    cases name with
    | none => exact (wp_pure _).2 ⟨books₂, still₁.trans still₂⟩
    | some name =>
      simp only
      rw [wp_bind]
      apply wp_post (ih parent t₂ books₂)
      rintro names t₃ ⟨books₃, still₃⟩
      have kept := still₁.trans (still₂.trans still₃)
      cases names <;> exact (wp_pure _).2 ⟨books₃, kept⟩

/-- At the root sys_getcwd returns while it holds io_buf. -/
def CwdLeaves (s : FileSys) : Prop :=
  s.cwdInodeNr s.current = 0 ∧ ∃ ioBuf t, sysMalloc s = .ok (some ioBuf, t)

theorem sysGetcwd_books (h : Books m dirs [] rest s) (size : Nat) :
    wp (sysGetcwd P size) (fun _ t => ∃ lost, Books m dirs [] (lost ++ rest) t ∧ Still K s t ∧
      (lost ≠ [] ↔ CwdLeaves s)) m.Tolerates s := by
  unfold sysGetcwd
  rw [wp_bind]
  apply wp_post (wp_and (wp_run (sysMalloc_books (K := K) h)) (sysMalloc_spec s _))
  rintro r t₁ ⟨⟨⟨still₁, alloc⟩, run₁⟩, spec⟩
  have cwd : t₁.cwdInodeNr t₁.current = s.cwdInodeNr s.current := by
    rcases spec with ⟨-, ht⟩ | ⟨-, -, ht⟩ <;> rw [ht]
  rcases alloc with ⟨rfl, books₁⟩ | ⟨rfl, books₁, mine₁⟩
  · refine (wp_pure _).2 ⟨[], books₁, still₁, by simp, ?_⟩
    rintro ⟨-, _, _, run⟩
    cases run₁.symm.trans run
  have below₁ : s.nextBlock < t₁.nextBlock := books₁.below _ (books₁.mem_live.2 (by simp))
  simp only
  rw [wp_bind, wp_get, wp_bind, wp_assert]
  refine ⟨fun _ => ?_, fun _ _ => by decide⟩
  rw [wp_ite, cwd]
  refine ⟨fun root => ?_, fun below => ?_⟩
  · exact (wp_pure _).2 ⟨[_], books₁, still₁, fun _ => ⟨root, _, _, run₁⟩, by simp⟩
  have home : ¬ CwdLeaves s := fun hl => below hl.1
  have giveBack : ∀ {u} (a : Option CStr), Books m dirs [] (s.nextBlock :: rest) u → Still K t₁ u →
      wp (do sysFree (some s.nextBlock); pure a : Sys (Option CStr)) (fun _ v => ∃ lost,
        Books m dirs [] (lost ++ rest) v ∧ Still K s v ∧ (lost ≠ [] ↔ CwdLeaves s)) m.Tolerates u := by
    intro u a books still
    rw [wp_bind]
    apply wp_post (sysFree_books (K := K) books fun _ => still.mine below₁ mine₁)
    rintro - v ⟨books', still'⟩
    exact (wp_pure _).2 ⟨[], books', still₁.trans (still.trans still'), by simp [home]⟩
  rw [wp_bind]
  apply wp_post (pathUp_books (K := K) P maxPathLen _ t₁ books₁)
  rintro names t₂ ⟨books₂, still₂⟩
  cases names with
  | none => exact giveBack none books₂ still₂
  | some names =>
    simp only
    rw [wp_bind, wp_check]
    refine ⟨fun _ => ?_, fun _ _ => by decide⟩
    rw [wp_bind, wp_assert]
    exact ⟨fun _ => giveBack _ books₂ still₂, fun _ _ => by decide⟩

end Growing

end Zhenxiang.Fs
