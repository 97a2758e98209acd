import Zhenxiang.Fs.SearchEnd

/-! search_file against the walk along the components of its path. -/
namespace Zhenxiang.Fs
open Lib Kernel

variable (P : Partition)

/-- What search_file is to answer for what its path denotes. -/
def SearchAnswer (r : Option Nat × PathSearchRecord) (t : FileSys) : Walked Nat CStr FileKind → Prop
  | .found n kind parent => r.1 = some n ∧ r.2.fileType = kind.fileType ∧ OpenOn t r.2.parentDir parent
  | .missing names d => r.1 = none ∧ r.2.searchedPath = joinNames names ∧ OpenOn t r.2.parentDir d
  | .blocked => r.1 = none

/-- The value that dir_e.i_no holds at the start. -/
def FileSys.garbage (s : FileSys) (iNo : Nat) : FileSys := { s with oracle := Function.update s.oracle 0 iNo }

/-- The answer of search_file, whatever dir_e holds at the start. -/
def SearchCorrect (s : FileSys) (tree : Tree) (path : CStr) : Prop :=
  ∀ iNo, Succeeds (searchFile P path) (fun r t => SearchAnswer r t (tree.resolve (components path))) (s.garbage iNo)

/-- The calls of sys_malloc on the way are answered, and no regular file is on it. A search that
gets no buffer takes the name for missing; that may be the right answer all the same. -/
def Served (s : FileSys) (look : Nat → CStr → Option (Nat × FileKind)) :
    Nat → Nat → Nat → List CStr → Nat → Prop
  | parent, _, _, [], k => Openable s parent k
  | _, d, blocks, name :: rest, k =>
    if MallocAnswers s k blocks then
      MallocAnswers s (k + 1) (blocks + 1) ∧
        match look d name with
        | none => True
        | some (_, .regular) => rest = []
        | some (n, .directory) => Openable s n (k + 2) ∧
          Served s look d n (openBlocks s n) rest (k + 2 + openCalls s n)
    else look d name = none ∨ walk look FileKind.leads d d .directory [] (name :: rest) = .blocked

/-- The path has a component or is one of the names of the root directory, and the search is served. -/
def SearchHolds (s : FileSys) (tree : Tree) (path : CStr) : Prop :=
  isRootName path = true ∨ components path ≠ [] ∧ Served s.asked tree.lookup 0 0 0 (components path) 0

variable {P} {s : FileSys} {tree : Tree} {path : CStr}

/-! The end of a search and the walk. -/

/-- Without a buffer the name is taken for missing. -/
theorem search_unanswered {parent d : Nat} {done rest : List CStr} {name : CStr} {r : Option Nat × PathSearchRecord}
    {t : FileSys} (unfound : r.1 = none) (searched : r.2.searchedPath = joinNames (done ++ [name]))
    (on : OpenOn t r.2.parentDir d) : SearchAnswer r t
        (walk tree.lookup FileKind.leads parent d .directory done (name :: rest)) ↔
      tree.lookup d name = none ∨ walk tree.lookup FileKind.leads d d .directory [] (name :: rest) = .blocked := by
  have blocked : walk tree.lookup FileKind.leads d d .directory [] (name :: rest) = .blocked ↔
      walk tree.lookup FileKind.leads parent d .directory done (name :: rest) = .blocked := walk_blocked parent done
  rw [blocked]
  cases has : tree.lookup d name with
  | none =>
    rw [walk_lacks rfl has]
    exact ⟨fun _ => Or.inl rfl, fun _ => ⟨unfound, searched, on⟩⟩
  | some found =>
    rw [walk_next rfl has]
    cases ends : walk tree.lookup FileKind.leads d found.1 found.2 (done ++ [name]) rest with
    | found n kind parent' =>
      constructor
      · intro answer
        cases unfound.symm.trans answer.1
      · rintro (lacks | blocked) <;> contradiction
    | missing names d' =>
      obtain ⟨more, some_name, rfl⟩ := walk_missing ends
      constructor
      · intro answer
        have same := congrArg List.length (searched.symm.trans answer.2.1)
        have longer := length_le_joinNames more
        have pos := List.length_pos_of_ne_nil some_name
        simp only [joinNames, List.flatMap_append, List.length_append] at same longer
        omega
      · rintro (lacks | blocked) <;> contradiction
    | blocked => exact ⟨fun _ => Or.inr rfl, fun _ => unfound⟩

theorem searchEnd_fault {names : List CStr} : ∀ {parent d blocks k : Nat} {done : List CStr},
    searchEnd s tree.lookup parent d blocks done names k = .fault → ¬ Served s tree.lookup parent d blocks names k := by
  induction names with
  | nil =>
    intro parent d blocks k done ends served
    have openable : Openable s parent k := served
    rw [searchEnd, if_pos openable] at ends
    cases ends
  | cons name rest ih =>
    intro parent d blocks k done ends served
    rw [searchEnd] at ends
    rw [Served] at served
    split at ends
    · next one =>
      rw [if_pos one] at served
      rw [if_pos served.1] at ends
      cases has : tree.lookup d name with
      | none =>
        rw [has] at ends
        cases ends
      | some found =>
        obtain ⟨n, kind⟩ := found
        rw [has] at ends served
        cases kind with
        | regular => cases ends
        | directory =>
          dsimp only at ends
          rw [if_pos served.2.1] at ends
          exact ih ends served.2.2
    · cases ends

/-- The answer is that of the walk exactly when the search is served. -/
theorem answer_iff_served (stored : Stored P s tree) {r : Option Nat × PathSearchRecord} {t : FileSys}
    {names : List CStr} : ∀ {parent d blocks k : Nat} {done : List CStr},
    SearchGot P s tree r t (searchEnd s tree.lookup parent d blocks done names k) →
      (SearchAnswer r t (walk tree.lookup FileKind.leads parent d .directory done names) ↔
        Served s tree.lookup parent d blocks names k) := by
  induction names with
  | nil =>
    intro parent d blocks k done got
    rw [searchEnd] at got
    split at got
    · next openable =>
      obtain ⟨number, fileType, isDir, opened⟩ := got
      exact ⟨fun _ => openable, fun _ => ⟨number, fileType, (stored.openDir isDir opened).1⟩⟩
    · exact got.elim
  | cons name rest ih =>
    intro parent d blocks k done got
    rw [searchEnd] at got
    rw [Served]
    split at got
    · next one =>
      rw [if_pos one]
      split at got
      · next two =>
        cases has : tree.lookup d name with
        | none =>
          rw [has] at got
          obtain ⟨none, -, searched, isDir, -, opened⟩ := got
          rw [walk_lacks rfl has]
          exact ⟨fun _ => ⟨two, trivial⟩, fun _ => ⟨none, searched, (stored.openDir isDir opened).1⟩⟩
        | some found =>
          obtain ⟨n, kind⟩ := found
          rw [has] at got
          rw [walk_next rfl has]
          cases kind with
          | regular =>
            obtain ⟨number, fileType, -, isDir, -, opened⟩ := got
            have on := (stored.openDir isDir opened).1
            cases rest with
            | nil => exact ⟨fun _ => ⟨two, rfl⟩, fun _ => ⟨number, fileType, on⟩⟩
            | cons next more =>
              rw [walk_stops rfl]
              constructor
              · intro none
                cases number.symm.trans none
              · exact fun served => (List.cons_ne_nil _ _ served.2).elim
          | directory =>
            dsimp only at got
            split at got
            · next openable =>
              exact (ih got).trans ⟨fun served => ⟨two, openable, served⟩, fun served => served.2.2⟩
            · exact got.elim
      · exact got.elim
    · next unanswered =>
      rw [if_neg unanswered]
      obtain ⟨none, -, searched, isDir, -, opened⟩ := got
      exact search_unanswered none searched (stored.openDir isDir opened).1

/-! The search from the root directory. -/

theorem garbage_asked (s : FileSys) (iNo : Nat) : (s.garbage iNo).asked = s.asked := by
  unfold FileSys.asked FileSys.garbage
  congr 1

theorem Stored.garbage (h : Stored P s tree) (iNo : Nat) : Stored P (s.garbage iNo) tree :=
  ⟨⟨h.inodes.below, h.inodes.counted⟩, h.root, h.number, h.dir, h.numbers⟩

theorem searchRoot_correct (stored : Stored P s tree) (root : isRootName path = true) : SearchCorrect P s tree path := by
  intro iNo
  have on : OpenOn (s.garbage iNo) .root 0 := ⟨(openInode_mem stored.root).1, stored.rootNumber⟩
  have found : tree.resolve (components path) = .found 0 .directory 0 := by
    unfold isRootName at root
    simp only [Bool.or_eq_true, beq_iff_eq] at root
    rcases root with (rfl | rfl) | rfl
    · rfl
    · exact walk_next rfl (tree.self tree.root)
    · obtain ⟨p, -, parent, zero, -⟩ := tree.parent tree.root
      rw [zero rfl] at parent
      exact walk_next rfl parent
  unfold searchFile
  rw [if_pos root, found]
  exact (wp_pure _).2 ⟨rfl, rfl, on⟩

/-- A path of slashes gives back what dir_e holds. -/
theorem searchFile_slashes (wf : PathFits path) (below : isRootName path = false) (empty : components path = []) :
    ¬ SearchCorrect P s tree path := by
  intro correct
  have run := correct 1
  rw [empty, Succeeds, wp_searchFile wf below, searchLoop, if_pos (remaining_nil ((pathParse_remaining path).trans empty)),
    wp_bind] at run
  obtain ⟨_, t, _, rest⟩ := succeeds_iff.1 run
  rw [wp_bind] at rest
  obtain ⟨_, u, _, last⟩ := succeeds_iff.1 rest
  have answer := (wp_pure _).1 last
  have one : asInt 1 = some 1 := by decide
  cases one.symm.trans answer.1

/-- search_file agrees with the walk along the components of the path, except where a regular file is
on the way, dir_e is read unwritten or a call of sys_malloc is not answered. -/
theorem search_file_correct (fits : P.Fits) (stored : Stored P s tree) (wf : PathFits path) :
    SearchCorrect P s tree path ↔ SearchHolds s tree path := by
  cases root : isRootName path with
  | true => exact ⟨fun _ => Or.inl root, fun _ => searchRoot_correct stored root⟩
  | false =>
    by_cases empty : components path = []
    · constructor
      · exact fun correct => (searchFile_slashes wf root empty correct).elim
      · rintro (named | ⟨some_name, -⟩)
        · exact (Bool.false_ne_true (root.symm.trans named)).elim
        · exact (some_name empty).elim
    · have exact_run : ∀ iNo, Succeeds (searchFile P path) (fun r t => SearchAnswer r t (tree.resolve (components path)))
          (s.garbage iNo) ↔ Served s.asked tree.lookup 0 0 0 (components path) 0 := by
        intro iNo
        have run := searchFile_ends fits (stored.garbage iNo) wf root empty
        rw [pathEnd, garbage_asked] at run
        apply succeeds_exact
        exact wp_mono run (fun r t got => answer_iff_served stored.asked got) fun _ ends => searchEnd_fault ends
      constructor
      · exact fun correct => Or.inr ⟨empty, (exact_run 0).1 (correct 0)⟩
      · rintro (named | ⟨-, served⟩)
        · exact (Bool.false_ne_true (root.symm.trans named)).elim
        · exact fun iNo => (exact_run iNo).2 served

/-! A root directory with a file "f" and a directory "a". -/

/-- The slots of the inodes 1 and 5 begin at the words 659 and 735; the directories are in the sectors
613 and 614, the file in 615. -/
def smallWord (j : Nat) : Nat :=
  if j = 659 then 1
  else if j = 660 then 2 * dirEntrySize
  else if j = 663 then 614
  else if j = 735 then 5
  else if j = 736 then 3
  else if j = 739 then 615
  else if j = 613 * 128 then 0x2e
  else if j = 613 * 128 + 6 then 0x2e2e
  else if j = 613 * 128 + 12 then 0x66
  else if j = 613 * 128 + 16 then 5
  else if j = 613 * 128 + 17 then ftRegular
  else if j = 613 * 128 + 18 then 0x61
  else if j = 613 * 128 + 22 ∨ j = 614 * 128 + 4 then 1
  else if j = 614 * 128 then 0x2e
  else if j = 614 * 128 + 6 then 0x2e2e
  else if j = 613 * 128 + 5 ∨ j = 613 * 128 + 11 ∨ j = 613 * 128 + 23 ∨ j = 614 * 128 + 5 ∨ j = 614 * 128 + 11 then
    ftDirectory
  else if j = 615 * 128 then 0x636261
  else 0

def small : FileSys :=
  { blank with
    disk := ofWords smallWord
    blockBitmap := fun bit => decide (bit < 3 ∨ somePartition.blockBitmapBitLen ≤ bit)
    inodeBitmap := fun bit => decide (bit = 0 ∨ bit = 1 ∨ bit = 5)
    openInodes := [0]
    nextBlock := 1
    live := [0]
    oracle := fun _ => 1 }.setInode 0 ⟨0, 4 * dirEntrySize, 1, false, fun k => if k = 0 then 613 else 0⟩

def smallLookup (d : Nat) (name : CStr) : Option (Nat × FileKind) :=
  if d = 0 then
    if name = dot ∨ name = dotDot then some (0, .directory)
    else if name = [0x66] then some (5, .regular)
    else if name = [0x61] then some (1, .directory)
    else none
  else if name = dot then some (1, .directory)
  else if name = dotDot then some (0, .directory)
  else none

def smallTree : Tree where
  isDir d := d < 2
  lookup := smallLookup
  root := by decide
  subdir := by
    intro d name n _ found
    unfold smallLookup at found
    grind
  self := by
    intro d isDir
    unfold smallLookup
    grind [dot, dotDot]
  parent := by
    intro d isDir
    refine ⟨0, by decide, ?_, fun _ => rfl, fun other => ⟨[0x61], by decide, by decide, ?_⟩⟩
    · unfold smallLookup
      grind [dot, dotDot]
    · unfold smallLookup
      grind [dot, dotDot]
  file := by
    intro d name n _ found
    unfold smallLookup at found
    grind
  single := by
    intro d d' name name' n kind kind' _ _ h1 h2 h3 h4 found found'
    unfold smallLookup at found found'
    grind

theorem streq_unique {b : Buf} {o : Nat} {xs ys : CStr} (hx : 0 ∉ xs) (hy : 0 ∉ ys) (h : streq b o xs = true)
    (h' : streq b o ys = true) : xs = ys := by
  induction xs generalizing o ys with
  | nil =>
    cases ys with
    | nil => rfl
    | cons y ys =>
      rw [streq, beq_iff_eq] at h
      rw [streq, Bool.and_eq_true, beq_iff_eq, h] at h'
      exact (hy (h'.1 ▸ List.mem_cons_self)).elim
  | cons x xs ih =>
    rw [streq, Bool.and_eq_true, beq_iff_eq] at h
    cases ys with
    | nil =>
      rw [streq, beq_iff_eq, h.1] at h'
      exact (hx (h' ▸ List.mem_cons_self)).elim
    | cons y ys =>
      rw [streq, Bool.and_eq_true, beq_iff_eq] at h'
      rw [ih (fun m => hx (List.mem_cons_of_mem _ m)) (fun m => hy (List.mem_cons_of_mem _ m)) h.2 h'.2, ← h.1, ← h'.1]

/-- The slots of a block hold the entries of a list and are free behind them. -/
def slotHolds (b : Buf) (entries : List (CStr × Nat × FileKind)) (idx : Nat) : Bool :=
  match entries[idx]? with
  | some (name, n, kind) => entryNamed b idx name && entryINo b idx == n && entryFType b idx == kind.fileType && !name.contains 0
  | none => entryFType b idx == ftUnknown && b (dirEntrySize * idx) == 0

theorem slotHolds_some {b : Buf} {entries : List (CStr × Nat × FileKind)} {idx n : Nat} {name : CStr} {kind : FileKind}
    (h : slotHolds b entries idx = true) (entry : entries[idx]? = some (name, n, kind)) :
    entryNamed b idx name = true ∧ entryINo b idx = n ∧ entryFType b idx = kind.fileType ∧ 0 ∉ name := by
  rw [slotHolds, entry] at h
  simpa [and_assoc] using h

theorem slotHolds_none {b : Buf} {entries : List (CStr × Nat × FileKind)} {idx : Nat}
    (h : slotHolds b entries idx = true) (entry : entries[idx]? = none) :
    entryFType b idx = ftUnknown ∧ b (dirEntrySize * idx) = 0 := by
  rw [slotHolds, entry] at h
  simpa using h

/-- A directory with one block, whose first entries are those of a list. -/
theorem dirStored_block {disk : Buf} {i : Inode} {look : CStr → Option (Nat × FileKind)}
    (entries : List (CStr × Nat × FileKind)) (table : i.iSectors 12 ≤ maxLba)
    (blocks : ∀ k < 140, blockAddrs disk i k ≤ maxLba ∧ (k ≠ 0 → blockAddrs disk i k = 0)) (there : blockAddrs disk i 0 ≠ 0)
    (slots : ∀ idx < dirEntrysPerSec, slotHolds (blockAt disk i 0) entries idx = true)
    (room : entries.length ≤ dirEntrysPerSec) (known : ∀ name n kind, look name = some (n, kind) ↔ (name, n, kind) ∈ entries) :
    DirStored disk i look := by
  have first : ∀ k < 140, blockAddrs disk i k ≠ 0 → k = 0 := by
    intro k hk here
    by_contra other
    exact here ((blocks k hk).2 other)
  have live : ∀ k idx, LiveAt disk i k idx → k = 0 ∧ ∃ name n kind, entries[idx]? = some (name, n, kind) := by
    intro k idx l
    obtain rfl := first k l.position l.there
    cases at_idx : entries[idx]? with
    | none => exact (l.used (slotHolds_none (slots idx l.index) at_idx).1).elim
    | some e => exact ⟨rfl, e.1, e.2.1, e.2.2, rfl⟩
  refine ⟨table, fun k hk => (blocks k hk).1, ?_, ?_, ?_⟩
  · intro k idx l
    obtain ⟨rfl, _, _, kind, at_idx⟩ := live k idx l
    exact ⟨kind, (slotHolds_some (slots idx l.index) at_idx).2.2.1⟩
  · intro name proper n kind
    rw [known]
    constructor
    · intro mem
      obtain ⟨idx, at_idx⟩ := List.mem_iff_getElem?.1 mem
      have index : idx < dirEntrysPerSec := (List.getElem?_eq_some_iff.1 at_idx).1.trans_le room
      obtain ⟨named, number, fType, -⟩ := slotHolds_some (slots idx index) at_idx
      refine ⟨0, idx, ⟨by decide, index, there, ?_⟩, named, number, fType⟩
      rw [fType]
      exact kind.used
    · rintro ⟨k, idx, l, named, rfl, fType⟩
      obtain ⟨rfl, name', n', kind', at_idx⟩ := live k idx l
      obtain ⟨named', number, fType', no_zero⟩ := slotHolds_some (slots idx l.index) at_idx
      rw [streq_unique proper.no_zero no_zero named named', number, FileKind.fileType_inj (fType.symm.trans fType')]
      exact List.mem_of_getElem? at_idx
  · intro k hk here idx index unused
    obtain rfl := first k hk here
    cases at_idx : entries[idx]? with
    | none => exact (slotHolds_none (slots idx index) at_idx).2
    | some e =>
      have used := (slotHolds_some (slots idx index) at_idx).2.2.1
      exact (e.2.2.used (used.symm.trans unused)).elim

theorem small_stored : Stored somePartition small smallTree := by
  have root : openInode small 0 = some small.rootInode := by decide
  have sub : openInode small 1 = none := by decide
  have view0 : inodeView somePartition small 0 = small.inode 0 := by
    rw [inodeView, root]
    rfl
  have view1 : inodeView somePartition small 1 = slotAt somePartition small.disk 1 := by
    rw [inodeView, sub]
  have two : ∀ d, smallTree.isDir d → d = 0 ∨ d = 1 := by
    intro d isDir
    have less : d < 2 := isDir
    omega
  refine ⟨⟨by decide, by decide⟩, root, ?_, ?_, ?_⟩
  · intro d isDir
    obtain rfl | rfl := two d isDir
    · rw [view0]
      decide
    · rw [view1]
      decide +kernel
  · intro d isDir
    obtain rfl | rfl := two d isDir
    · rw [view0]
      refine dirStored_block [(dot, 0, .directory), (dotDot, 0, .directory), ([0x66], 5, .regular), ([0x61], 1, .directory)]
        (by decide) (by decide +kernel) (by decide +kernel) (by decide +kernel) (by decide) ?_
      intro name n kind
      simp only [smallTree, smallLookup]
      grind [dot, dotDot]
    · rw [view1]
      refine dirStored_block [(dot, 1, .directory), (dotDot, 0, .directory)] (by decide +kernel) (by decide +kernel)
        (by decide +kernel) (by decide +kernel) (by decide) ?_
      intro name n kind
      simp only [smallTree, smallLookup]
      grind [dot, dotDot]
  · intro d name n kind isDir proper found
    have known : smallLookup d name = some (n, kind) := found
    unfold smallLookup at known
    grind

/-- "/a//../f/". -/
def upAndDown : CStr := [47, 0x61, 47, 47, 46, 46, 47, 0x66, 47]

theorem upAndDown_fits : PathFits upAndDown := by
  have names : components upAndDown = [[0x61], dotDot, [0x66]] := by decide
  refine ⟨by decide, by decide, ?_⟩
  rw [names]
  intro name mem
  simp only [List.mem_cons, List.not_mem_nil, or_false] at mem
  rcases mem with rfl | rfl | rfl <;> exact ⟨by decide, by decide, by decide⟩

theorem search_file_correct_up : SearchCorrect somePartition small smallTree upAndDown := by
  have names : components upAndDown = [[0x61], dotDot, [0x66]] := by decide
  apply (search_file_correct somePartition_fits small_stored upAndDown_fits).2
  refine Or.inr ⟨by decide, ?_⟩
  rw [names, Served, if_pos (by decide)]
  refine ⟨by decide, ⟨by decide, by decide⟩, ?_⟩
  rw [Served, if_pos (by decide)]
  refine ⟨by decide, ⟨by decide, by decide⟩, ?_⟩
  rw [Served, if_pos (by decide)]
  exact ⟨by decide, rfl⟩

/-- For "//" the search gives back what was in dir_e, and for "/f/x" it gives back the file "f". -/
theorem search_stops_at_file : Stored somePartition small smallTree ∧
    PathFits [47, 47] ∧ ¬ SearchCorrect somePartition small smallTree [47, 47] ∧
    PathFits [47, 0x66, 47, 0x78] ∧ ¬ SearchCorrect somePartition small smallTree [47, 0x66, 47, 0x78] := by
  have empty : components [47, 47] = [] := by decide
  have slashes : PathFits [47, 47] := by
    refine ⟨by decide, by decide, ?_⟩
    rw [empty]
    exact fun _ none => (List.not_mem_nil none).elim
  have names : components [47, 0x66, 47, 0x78] = [[0x66], [0x78]] := by decide
  have behind : PathFits [47, 0x66, 47, 0x78] := by
    refine ⟨by decide, by decide, ?_⟩
    rw [names]
    intro name mem
    simp only [List.mem_cons, List.not_mem_nil, or_false] at mem
    rcases mem with rfl | rfl <;> exact ⟨by decide, by decide, by decide⟩
  refine ⟨small_stored, slashes, searchFile_slashes slashes (by decide) empty, behind, ?_⟩
  intro correct
  have blocked : smallTree.resolve (components [47, 0x66, 47, 0x78]) = .blocked := by
    rw [names]
    rfl
  have answer := correct 1
  rw [blocked] at answer
  have found : Succeeds (searchFile somePartition [47, 0x66, 47, 0x78]) (fun r _ => r.1 = some 5) (small.garbage 1) := by
    decide +kernel
  obtain ⟨r, t, _, none, five⟩ := succeeds_iff.1 (wp_and answer found)
  cases none.symm.trans five

end Zhenxiang.Fs
