import Zhenxiang.Fs.Resolve

/-! Where search_file stops, for every tree and every way in which its calls of sys_malloc are
answered. -/
namespace Zhenxiang.Fs
open Lib Kernel

/-- An absolute path whose components fit into filename. -/
structure PathFits (path : CStr) : Prop where
  absolute : path.head? = some slash
  short : path.length < maxPathLen
  names : ∀ name ∈ components path, FileName name

/-- The directory is open. -/
structure OpenOn (s : FileSys) (dir : Dir) (d : Nat) : Prop where
  mem : s.inodeOf dir ∈ s.openInodes
  number : (s.inode (s.inodeOf dir)).iNo = d

/-- Behind the first question, which is for the contents of dir_e. -/
def FileSys.asked (s : FileSys) : FileSys := { s with oracle := fun k => s.oracle (k + 1) }

/-- How a search ends: in a fault, at a directory where the last of the names is not found, at a
regular file of that name with names behind it, or at the directory the path denotes. -/
inductive SearchEnd where
  | fault
  | missed (d : Nat) (names : List CStr) (k : Nat)
  | file (n d : Nat) (names rest : List CStr) (k : Nat)
  | dir (n parent : Nat) (names : List CStr) (k : Nat)

/-- The search of the directory d, opened from its parent and taking so many blocks, after k calls
of sys_malloc. Without a buffer for the block addresses nothing is found. -/
def searchEnd (s : FileSys) (look : Nat → CStr → Option (Nat × FileKind)) :
    Nat → Nat → Nat → List CStr → List CStr → Nat → SearchEnd
  | parent, d, _, done, [], k => if Openable s parent k then .dir d parent done (k + openCalls s parent) else .fault
  | _, d, blocks, done, name :: rest, k =>
    if MallocAnswers s k blocks then
      if MallocAnswers s (k + 1) (blocks + 1) then
        match look d name with
        | none => .missed d (done ++ [name]) (k + 2)
        | some (n, .regular) => .file n d (done ++ [name]) rest (k + 2)
        | some (n, .directory) =>
          if Openable s n (k + 2) then
            searchEnd s look d n (openBlocks s n) (done ++ [name]) rest (k + 2 + openCalls s n)
          else .fault
      else .fault
    else .missed d (done ++ [name]) (k + 1)

variable (P : Partition)

/-- What search_file answers and leaves behind when it ends so. The parent directory is the root
directory's own struct dir just behind the first name. -/
def SearchGot (s : FileSys) (tree : Tree) (r : Option Nat × PathSearchRecord) (t : FileSys) : SearchEnd → Prop
  | .fault => False
  | .missed d names k => r.1 = none ∧ r.2.fileType = ftUnknown ∧ r.2.searchedPath = joinNames names ∧
    tree.isDir d ∧ (r.2.parentDir = .root ↔ names.length = 1) ∧ OpenDir P s d k r.2.parentDir t
  | .file n d names _ k => r.1 = some n ∧ r.2.fileType = ftRegular ∧ r.2.searchedPath = joinNames names ∧
    tree.isDir d ∧ (r.2.parentDir = .root ↔ names.length = 1) ∧ OpenDir P s d k r.2.parentDir t
  | .dir n parent _ k => r.1 = some n ∧ r.2.fileType = ftDirectory ∧
    tree.isDir parent ∧ OpenDir P s parent k r.2.parentDir t

variable {P} {s u : FileSys} {tree : Tree} {d n k : Nat} {dir : Dir}

theorem DirStored.cnts {disk : Buf} {i : Inode} {look : CStr → Option (Nat × FileKind)} (h : DirStored disk i look)
    (cnts : Nat) : DirStored disk { i with iOpenCnts := cnts } look := by
  have live : ∀ k idx, LiveAt disk { i with iOpenCnts := cnts } k idx ↔ LiveAt disk i k idx := fun k idx =>
    ⟨fun l => ⟨l.position, l.index, l.there, l.used⟩, fun l => ⟨l.position, l.index, l.there, l.used⟩⟩
  refine ⟨h.table, h.blocks, fun k idx l => h.kinds k idx ((live k idx).1 l), ?_, h.unused⟩
  intro name proper n kind
  rw [h.names name proper n kind]
  constructor
  · rintro ⟨k, idx, l, rest⟩
    exact ⟨k, idx, (live k idx).2 l, rest⟩
  · rintro ⟨k, idx, l, rest⟩
    exact ⟨k, idx, (live k idx).1 l, rest⟩

theorem Stored.rootNumber (h : Stored P s tree) : (s.inode s.rootInode).iNo = 0 := (openInode_mem h.root).2

theorem Stored.openDir (h : Stored P s tree) (isDir : tree.isDir d) (open_d : OpenDir P s d k dir u) :
    OpenOn u dir d ∧ DirStored u.disk (u.inode (u.inodeOf dir)) (tree.lookup d) := by
  have root : openInode s (s.inode s.rootInode).iNo = some s.rootInode := by
    rw [h.rootNumber]
    exact h.root
  obtain ⟨mem, cnts, inode⟩ := open_d.inode h.inodes root
  rw [open_d.disk, inode]
  refine ⟨⟨mem, ?_⟩, (h.dir d isDir).cnts cnts⟩
  rw [inode]
  exact (h.number d isDir).2

theorem joinNames_snoc (names : List CStr) (name : CStr) :
    joinNames (names ++ [name]) = joinNames names ++ slash :: name := by
  rw [joinNames, joinNames, List.flatMap_append, List.flatMap_singleton]

theorem asInt_small {n : Nat} (small : n < 4096) : asInt n = some n := by
  unfold asInt
  exact if_neg (by omega)

/-- search_dir_entry in an open directory of the tree. -/
theorem Stored.searchDirEntry (h : Stored P s tree) (isDir : tree.isDir d) (open_d : OpenDir P s d k dir u) {name : CStr}
    (proper : FileName name) :
    wp (searchDirEntry dir name) (fun r t =>
        (MallocAnswers s k (dirBlocks s d dir) ∧ MallocAnswers s (k + 1) (dirBlocks s d dir + 1) ∧
          r = (tree.lookup d name).map (fun e => (e.1, e.2.fileType)) ∧ OpenDir P s d (k + 2) dir t) ∨
        (¬ MallocAnswers s k (dirBlocks s d dir) ∧ r = none ∧ OpenDir P s d (k + 1) dir t))
      (fun _ => MallocAnswers s k (dirBlocks s d dir) ∧ ¬ MallocAnswers s (k + 1) (dirBlocks s d dir + 1)) u := by
  have first := open_d.answers 0 0
  have second := open_d.answers 1 1
  rw [Nat.add_zero, Nat.add_zero] at first
  rw [← first, ← second]
  apply wp_post (searchDirEntry_spec (h.openDir isDir open_d).2 proper)
  rintro r t (⟨one, two, found, next⟩ | ⟨none, missed, next⟩)
  · exact Or.inl ⟨one, two, found, open_d.idle next⟩
  · exact Or.inr ⟨none, missed, open_d.idle next⟩

/-! The loop. -/

/-- The loop is in the directory d, behind the names done and before the names to come. -/
structure Searching (P : Partition) (s : FileSys) (tree : Tree) (parent d k : Nat) (dir : Dir) (done names : List CStr)
    (u : FileSys) : Prop where
  proper : ∀ name ∈ names, FileName name
  short : (joinNames (done ++ names)).length < maxPathLen
  parentDir : tree.isDir parent
  isDir : tree.isDir d
  start : dir = .root ↔ done = []
  opened : OpenDir P s d k dir u

theorem remaining_nil {name : CStr} {subPath : Option CStr} (h : remaining name subPath = []) : name = [] := by
  unfold remaining at h
  split at h
  · assumption
  · cases h

theorem remaining_cons {name next : CStr} {subPath : Option CStr} {rest : List CStr}
    (h : remaining name subPath = next :: rest) : name ≠ [] ∧ name = next ∧ componentsOf subPath = rest := by
  unfold remaining at h
  split at h
  · cases h
  · exact ⟨‹_›, (List.cons.inj h).1, (List.cons.inj h).2⟩

/-- The end of the loop: the parent directory is opened again. -/
theorem searchDone_spec (fits : P.Fits) (stored : Stored P s tree) {parent blocks iNo : Nat} {done : List CStr}
    (here : iNo = d) (h : Searching P s tree parent d k dir done [] u) (searchedPath : CStr) :
    wp (do
        dirClose dir
        let parentDir ← dirOpen P parent
        pure (asInt iNo, (⟨searchedPath, parentDir, ftDirectory⟩ : PathSearchRecord)))
      (fun r t => SearchGot P s tree r t (searchEnd s tree.lookup parent d blocks done [] k))
      (fun _ => searchEnd s tree.lookup parent d blocks done [] k = .fault) u := by
  subst here
  rw [wp_bind]
  apply wp_mono (dirClose_spec stored.inodes h.opened)
  · intro _ t idle
    rw [wp_bind]
    apply wp_mono (dirOpen_spec fits stored.inodes (stored.number parent h.parentDir).1 idle)
    · rintro parentDir v ⟨openable, -, opened⟩
      rw [wp_pure, searchEnd, if_pos openable]
      exact ⟨asInt_small (stored.number iNo h.isDir).1, rfl, h.parentDir, opened⟩
    · intro _ closed
      rw [searchEnd, if_neg closed]
  · exact fun _ none => none.elim

/-- The loop ends as told by the tree and the answers of sys_malloc. -/
theorem searchLoop_ends (fits : P.Fits) (stored : Stored P s tree) (rounds : Nat) :
    ∀ names name subPath done parent d dir iNo k u, remaining name subPath = names → names.length < rounds →
      (names = [] → iNo = d) → Searching P s tree parent d k dir done names u →
      wp (searchLoop P rounds name subPath (joinNames done) dir iNo parent)
        (fun r t => SearchGot P s tree r t (searchEnd s tree.lookup parent d (dirBlocks s d dir) done names k))
        (fun _ => searchEnd s tree.lookup parent d (dirBlocks s d dir) done names k = .fault) u := by
  induction rounds with
  | zero =>
    intro names _ _ _ _ _ _ _ _ _ _ less
    exact (Nat.not_lt_zero _ less).elim
  | succ rounds ih =>
    intro names name subPath done parent d dir iNo k u parsed less here h
    unfold searchLoop
    cases names with
    | nil =>
      rw [if_pos (remaining_nil parsed)]
      exact searchDone_spec fits stored (here rfl) h _
    | cons next rest =>
      obtain ⟨some_byte, rfl, behind⟩ := remaining_cons parsed
      have proper := h.proper name List.mem_cons_self
      have whole := h.short
      have room : (joinNames done).length < 512 := by
        rw [joinNames, List.flatMap_append, List.length_append] at whole
        exact Nat.lt_of_le_of_lt (Nat.le_add_right _ _) whole
      have first : dir = .root ↔ (done ++ [name]).length = 1 := by
        rw [h.start, List.length_append, List.length_singleton, Nat.add_eq_right, List.length_eq_zero_iff]
      rw [if_neg some_byte, wp_bind, wp_assert]
      refine ⟨fun _ => ?_, fun long => (long room).elim⟩
      rw [wp_bind, wp_check]
      refine ⟨fun _ => ?_, fun long => (long proper.short).elim⟩
      rw [← joinNames_snoc, wp_bind, searchEnd]
      apply wp_mono (stored.searchDirEntry h.isDir h.opened proper)
      · rintro r t (⟨one, two, rfl, opened⟩ | ⟨unanswered, rfl, opened⟩)
        · rw [if_pos one, if_pos two]
          cases has : tree.lookup d name with
          | none => exact (wp_pure _).2 ⟨rfl, rfl, rfl, h.isDir, first, opened⟩
          | some found =>
            obtain ⟨n, kind⟩ := found
            have small := stored.numbers d name n kind h.isDir proper has
            have later : ∀ name ∈ rest, FileName name := fun name mem => h.proper name (List.mem_cons_of_mem _ mem)
            dsimp only [Option.map_some]
            rw [wp_bind]
            apply wp_mono (parseName_spec fun name mem => Nat.le_of_lt (later name (behind ▸ mem)).short)
            · rintro ⟨name', subPath'⟩ v ⟨rfl, parsed'⟩
              rw [behind] at parsed'
              cases kind with
              | regular =>
                have other : FileKind.regular.fileType ≠ ftDirectory := by decide
                have regular : FileKind.regular.fileType = ftRegular := rfl
                rw [if_neg other, if_pos regular, asInt_small small]
                exact (wp_pure _).2 ⟨rfl, rfl, rfl, h.isDir, first, opened⟩
              | directory =>
                have directory : FileKind.directory.fileType = ftDirectory := rfl
                have on := (stored.openDir h.isDir opened).1
                rw [if_pos directory, wp_bind, wp_get]
                dsimp only
                rw [on.number, wp_bind]
                apply wp_mono (dirClose_spec stored.inodes opened)
                · intro _ w idle
                  rw [wp_bind]
                  apply wp_mono (dirOpen_spec fits stored.inodes small idle)
                  · rintro dir' x ⟨openable, heap, opened'⟩
                    have blocks : dirBlocks s n dir' = openBlocks s n := by
                      cases dir' with
                      | root => exact (heap rfl).elim
                      | heap b => rfl
                    have start : Searching P s tree d n (k + 2 + openCalls s n) dir' (done ++ [name]) rest x := by
                      refine ⟨later, ?_, h.isDir, tree.subdir h.isDir has, ?_, opened'⟩
                      · rw [List.append_assoc, List.singleton_append]
                        exact whole
                      · exact ⟨fun root => (heap root).elim, fun none => (List.append_ne_nil_of_right_ne_nil _ (List.cons_ne_nil _ _) none).elim⟩
                    have run := ih rest name' subPath' (done ++ [name]) d n dir' n _ x parsed' (Nat.lt_of_succ_lt_succ less)
                      (fun _ => rfl) start
                    rw [blocks] at run
                    rw [if_pos openable]
                    exact run
                  · intro _ closed
                    rw [if_neg closed]
                · exact fun _ none => none.elim
            · exact fun _ none => none.elim
        · rw [if_neg unanswered]
          exact (wp_pure _).2 ⟨rfl, rfl, rfl, h.isDir, first, opened⟩
      · rintro e ⟨one, two⟩
        rw [if_pos one, if_neg two]

/-! The search from the root directory. -/

theorem Stored.asked (h : Stored P s tree) : Stored P s.asked tree :=
  ⟨⟨h.inodes.below, h.inodes.counted⟩, h.root, h.number, h.dir, h.numbers⟩

variable {path : CStr}

theorem PathFits.joinNames_le (wf : PathFits path) : (joinNames (components path)).length ≤ path.length := by
  cases path with
  | nil => exact (nomatch wf.absolute)
  | cons c rest =>
    obtain rfl : c = slash := Option.some.inj wf.absolute
    exact joinNames_length rest

/-- Past the test for the names of the root directory. -/
theorem wp_searchFile {Q : Option Nat × PathSearchRecord → FileSys → Prop} {E : Fault → Prop} (wf : PathFits path)
    (below : isRootName path = false) : wp (searchFile P path) Q E s ↔
      wp (searchLoop P (path.length + 1) (pathParse path).1 (pathParse path).2 [] .root (s.oracle 0) 0) Q E s.asked := by
  have long : 1 < path.length := by
    cases path with
    | nil => exact (nomatch wf.absolute)
    | cons c rest =>
      obtain rfl : c = slash := Option.some.inj wf.absolute
      cases rest with
      | nil => cases below
      | cons _ _ => exact Nat.succ_lt_succ (Nat.succ_pos _)
  have fits : (pathParse path).1.length ≤ maxFileNameLen := by
    by_cases empty : (pathParse path).1 = []
    · rw [empty]
      exact Nat.zero_le _
    · refine Nat.le_of_lt (wf.names _ ?_).short
      rw [← pathParse_remaining path, remaining, if_neg empty]
      exact List.mem_cons_self
  have whole : path.head? = some slash ∧ 1 < path.length ∧ path.length < maxPathLen := ⟨wf.absolute, long, wf.short⟩
  unfold searchFile
  rw [below, if_neg Bool.false_ne_true, wp_bind, wp_assert, wp_bind, ask, wp_bind, wp_get, wp_bind, wp_set, wp_pure,
    wp_bind, parseName, wp_bind, wp_check, wp_pure]
  exact ⟨fun run => (run.1 whole).1 fits, fun run => ⟨fun _ => ⟨fun _ => run, fun bad => (bad fits).elim⟩, fun bad => (bad whole).elim⟩⟩

/-- How the search for a path ends. -/
def pathEnd (s : FileSys) (tree : Tree) (path : CStr) : SearchEnd :=
  searchEnd s.asked tree.lookup 0 0 0 [] (components path) 0

/-- search_file on a path with a name, other than those of the root directory. -/
theorem searchFile_ends (fits : P.Fits) (stored : Stored P s tree) (wf : PathFits path) (below : isRootName path = false)
    (some_name : components path ≠ []) :
    wp (searchFile P path) (fun r t => SearchGot P s.asked tree r t (pathEnd s tree path))
      (fun _ => pathEnd s tree path = .fault) s := by
  have bound := wf.joinNames_le
  have short : (joinNames ([] ++ components path)).length < maxPathLen := bound.trans_lt wf.short
  have few : (components path).length < path.length + 1 :=
    Nat.lt_succ_of_le ((length_le_joinNames _).trans bound)
  have start : Searching P s.asked tree 0 0 0 .root [] (components path) s.asked :=
    ⟨wf.names, short, tree.root, tree.root, ⟨fun _ => rfl, fun _ => rfl⟩, .root stored.rootNumber (.refl s.asked)⟩
  rw [wp_searchFile wf below]
  exact searchLoop_ends fits stored.asked _ _ _ _ [] 0 0 .root _ 0 s.asked (pathParse_remaining path) few
    (fun none => (some_name none).elim) start

end Zhenxiang.Fs
