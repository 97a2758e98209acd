import Zhenxiang.Fs.DirOpen
import Zhenxiang.Lib.Walk

/-! What a path denotes: a tree of directories apart from the disk, the walk along the names of a
path, and how the disk holds a tree. -/
namespace Zhenxiang.Fs
open Lib Kernel

/-! Names. -/

/-- The names between the slashes. -/
def components (path : CStr) : List CStr := (path.splitOn slash).filter fun name => name ≠ []

/-- The names, each behind a slash. -/
def joinNames (names : List CStr) : CStr := names.flatMap fun name => slash :: name

/-- A name that fits into filename and is ended by a zero byte there. -/
structure FileName (name : CStr) : Prop where
  some_byte : name ≠ []
  short : name.length < maxFileNameLen
  no_zero : 0 ∉ name

/-- The components of what is left to parse. -/
def componentsOf (subPath : Option CStr) : List CStr := (subPath.map components).getD []

/-- The components still to come when a name has been parsed. -/
def remaining (name : CStr) (subPath : Option CStr) : List CStr :=
  if name = [] then [] else name :: componentsOf subPath

section Names
variable {name path : CStr}

theorem components_slash (path : CStr) : components (slash :: path) = components path := by
  have split := List.splitOn_append_cons_self (a := slash) [] path
  rw [List.nil_append, List.splitOn_nil] at split
  rw [components, split]
  exact List.filter_cons_of_neg (by simp)

theorem components_last (some_byte : name ≠ []) (no_slash : slash ∉ name) : components name = [name] := by
  rw [components, List.splitOn_eq_singleton no_slash]
  exact List.filter_cons_of_pos (by simpa using some_byte)

theorem components_next (some_byte : name ≠ []) (no_slash : slash ∉ name) (path : CStr) :
    components (name ++ slash :: path) = name :: components path := by
  rw [components, List.splitOn_append_cons_self, List.filter_append]
  exact congrArg (· ++ components path) (components_last some_byte no_slash)

theorem components_dropWhile (path : CStr) : components (path.dropWhile (· == slash)) = components path := by
  induction path with
  | nil => rfl
  | cons c rest ih =>
    by_cases h : c = slash
    · subst h
      rw [List.dropWhile_cons_of_pos (by simp), ih, components_slash]
    · rw [List.dropWhile_cons_of_neg (by simpa using h)]

/-- path_parse splits off the first component. -/
theorem pathParse_remaining (path : CStr) :
    remaining (pathParse path).1 (pathParse path).2 = components path := by
  rw [← components_dropWhile path]
  simp only [pathParse]
  have head := List.head?_dropWhile_not (· == slash) path
  generalize path.dropWhile (· == slash) = start at *
  have no_slash : slash ∉ start.takeWhile (· != slash) := by
    intro mem
    simpa using List.mem_takeWhile_imp mem
  have whole : start.takeWhile (· != slash) ++ start.dropWhile (· != slash) = start := List.takeWhile_append_dropWhile
  have behind := List.head?_dropWhile_not (· != slash) start
  generalize start.takeWhile (· != slash) = name at *
  generalize start.dropWhile (· != slash) = rest at *
  cases rest with
  | nil =>
    rw [List.append_nil] at whole
    subst whole
    rw [remaining]
    split
    · next empty =>
      rw [empty]
      rfl
    · next some_byte => exact (components_last some_byte no_slash).symm
  | cons c more =>
    obtain rfl : c = slash := by simpa using behind
    rw [remaining]
    split
    · next empty =>
      rw [← whole, empty] at head
      simp at head
    · next some_byte =>
      rw [← whole, components_next some_byte no_slash]
      exact congrArg _ (components_slash more)

theorem parseName_spec {s : FileSys} {subPath : Option CStr}
    (short : ∀ name ∈ componentsOf subPath, name.length ≤ maxFileNameLen) :
    Succeeds (parseName subPath) (fun r t => t = s ∧ remaining r.1 r.2 = componentsOf subPath) s := by
  cases subPath with
  | none => exact (wp_pure _).2 ⟨rfl, rfl⟩
  | some path =>
    have parsed := pathParse_remaining path
    simp only [parseName]
    rw [Succeeds, wp_bind, wp_check]
    have fits : (pathParse path).1.length ≤ maxFileNameLen := by
      by_cases empty : (pathParse path).1 = []
      · rw [empty]
        exact Nat.zero_le _
      · apply short
        rw [remaining, if_neg empty] at parsed
        rw [componentsOf, Option.map_some, Option.getD_some, ← parsed]
        exact List.mem_cons_self
    exact ⟨fun _ => (wp_pure _).2 ⟨rfl, parsed⟩, fun long => (long fits).elim⟩

theorem splitOn_join (path : CStr) : (path.splitOn slash).flatMap (fun name => slash :: name) = slash :: path := by
  induction path with
  | nil => rfl
  | cons c rest ih =>
    rw [List.splitOn_cons_eq_if_modifyHead]
    split
    · next h =>
      obtain rfl : c = slash := by simpa using h
      rw [List.flatMap_cons, ih]
      rfl
    · cases parts : rest.splitOn slash with
      | nil => exact (List.splitOn_ne_nil slash rest parts).elim
      | cons first others =>
        rw [parts, List.flatMap_cons] at ih
        have tail : first ++ others.flatMap (fun name => slash :: name) = rest := (List.cons.inj ih).2
        rw [List.modifyHead_cons, List.flatMap_cons, List.cons_append, List.cons_append, tail]

/-- The components of a path are no longer than the path. -/
theorem joinNames_length (path : CStr) : (joinNames (components (slash :: path))).length ≤ (slash :: path).length := by
  rw [components_slash, ← splitOn_join path]
  exact (List.filter_sublist.flatMap _).length_le

theorem length_le_joinNames (names : List CStr) : names.length ≤ (joinNames names).length := by
  induction names with
  | nil => exact Nat.zero_le _
  | cons name rest ih =>
    rw [joinNames, List.flatMap_cons, List.length_append, List.length_cons, List.length_cons]
    exact (Nat.succ_le_succ ih).trans (by rw [joinNames]; omega)

/-- path_depth_cnt counts the components. -/
theorem depthFrom_spec {s : FileSys} (rounds : Nat) : ∀ subPath, (componentsOf subPath).length < rounds →
    (∀ name ∈ componentsOf subPath, name.length ≤ maxFileNameLen) →
      Succeeds (depthFrom rounds subPath) (fun r t => r = (componentsOf subPath).length ∧ t = s) s := by
  induction rounds with
  | zero => exact fun _ less => (Nat.not_lt_zero _ less).elim
  | succ rounds ih =>
    intro subPath less short
    rw [depthFrom, Succeeds, wp_bind]
    apply wp_post (parseName_spec short)
    rintro ⟨name, rest⟩ t ⟨rfl, parsed⟩
    dsimp only at parsed ⊢
    rw [remaining] at parsed
    by_cases empty : name = []
    · rw [if_pos empty] at parsed ⊢
      rw [← parsed]
      exact (wp_pure _).2 ⟨rfl, rfl⟩
    · rw [if_neg empty] at parsed ⊢
      rw [← parsed] at less short ⊢
      rw [wp_bind]
      apply wp_post (ih rest (Nat.lt_of_succ_lt_succ less) fun name mem => short name (List.mem_cons_of_mem _ mem))
      rintro depth u ⟨rfl, rfl⟩
      exact (wp_pure _).2 ⟨Nat.add_comm 1 _, rfl⟩

theorem pathDepthCnt_spec {s : FileSys} (some_name : components path ≠ [])
    (short : ∀ name ∈ components path, name.length ≤ maxFileNameLen) :
    Succeeds (pathDepthCnt path) (fun r t => r = (components path).length ∧ t = s) s := by
  rw [pathDepthCnt, Succeeds, wp_bind]
  have parse := @parseName_spec s (some path) short
  apply wp_post parse
  rintro ⟨name, rest⟩ t ⟨rfl, parsed⟩
  have whole : componentsOf (some path) = components path := rfl
  dsimp only at parsed ⊢
  rw [whole, remaining] at parsed
  by_cases empty : name = []
  · rw [if_pos empty] at parsed
    exact (some_name parsed.symm).elim
  · rw [if_neg empty] at parsed ⊢
    rw [← parsed] at short
    have few : (componentsOf rest).length < path.length + 1 := by
      have bound := (length_le_joinNames (components (slash :: path))).trans (joinNames_length path)
      rw [components_slash, ← parsed, List.length_cons, List.length_cons] at bound
      exact bound
    rw [wp_bind]
    apply wp_post (depthFrom_spec (path.length + 1) rest few fun name mem => short name (List.mem_cons_of_mem _ mem))
    rintro depth u ⟨rfl, rfl⟩
    rw [← parsed]
    exact (wp_pure _).2 ⟨Nat.add_comm 1 _, rfl⟩

end Names

/-! Trees. -/

inductive FileKind where
  | regular
  | directory
  deriving DecidableEq

def FileKind.fileType : FileKind → Nat
  | .regular => ftRegular
  | .directory => ftDirectory

theorem FileKind.used (kind : FileKind) : kind.fileType ≠ ftUnknown := by
  cases kind <;> decide

theorem FileKind.fileType_inj {kind kind' : FileKind} (h : kind.fileType = kind'.fileType) : kind = kind' := by
  cases kind <;> cases kind' <;> first | rfl | cases h

/-- Names lead on from directories. -/
def FileKind.leads : FileKind → Bool
  | .regular => false
  | .directory => true

/-- What the names in the directories lead to, by inode number. Besides "." and ".." there is one
name for each file. -/
structure Tree where
  isDir : Nat → Prop
  lookup : Nat → CStr → Option (Nat × FileKind)
  root : isDir 0
  subdir : ∀ {d name n}, isDir d → lookup d name = some (n, .directory) → isDir n
  self : ∀ {d}, isDir d → lookup d dot = some (d, .directory)
  parent : ∀ {d}, isDir d → ∃ p, isDir p ∧ lookup d dotDot = some (p, .directory) ∧ (d = 0 → p = 0) ∧
    (d ≠ 0 → ∃ name, name ≠ dot ∧ name ≠ dotDot ∧ lookup p name = some (d, .directory))
  file : ∀ {d name n}, isDir d → lookup d name = some (n, .regular) → ¬ isDir n
  single : ∀ {d d' name name' n kind kind'}, isDir d → isDir d' → name ≠ dot → name ≠ dotDot → name' ≠ dot →
    name' ≠ dotDot → lookup d name = some (n, kind) → lookup d' name' = some (n, kind') → d = d' ∧ name = name'

/-- What a path denotes: the walk along its components from the root directory. -/
def Tree.resolve (tree : Tree) (names : List CStr) : Walked Nat CStr FileKind :=
  walk tree.lookup FileKind.leads 0 0 .directory [] names

/-- The entries in the blocks of an inode are those of a directory of the tree. -/
structure DirStored (disk : Buf) (i : Inode) (look : CStr → Option (Nat × FileKind)) : Prop where
  table : i.iSectors 12 ≤ maxLba
  blocks : ∀ k < 140, blockAddrs disk i k ≤ maxLba
  kinds : ∀ k idx, LiveAt disk i k idx → ∃ kind : FileKind, entryFType (blockAt disk i k) idx = kind.fileType
  names : ∀ name, FileName name → ∀ n kind, look name = some (n, kind) ↔ ∃ k idx, LiveAt disk i k idx ∧
    entryNamed (blockAt disk i k) idx name = true ∧ entryINo (blockAt disk i k) idx = n ∧
    entryFType (blockAt disk i k) idx = kind.fileType
  unused : ∀ k < 140, blockAddrs disk i k ≠ 0 → ∀ idx < dirEntrysPerSec,
    entryFType (blockAt disk i k) idx = ftUnknown → blockAt disk i k (dirEntrySize * idx) = 0

/-- The partition holds the tree; inodes that are open are taken as they are in memory. -/
structure Stored (P : Partition) (s : FileSys) (tree : Tree) : Prop where
  inodes : InodesFit s
  root : openInode s 0 = some s.rootInode
  number : ∀ d, tree.isDir d → d < 4096 ∧ (inodeView P s d).iNo = d
  dir : ∀ d, tree.isDir d → DirStored s.disk (inodeView P s d) (tree.lookup d)
  numbers : ∀ d name n kind, tree.isDir d → FileName name → tree.lookup d name = some (n, kind) → n < 4096

/-! Looking for a name in one directory. -/

/-- The number and type of an entry of that name in the block at the position k. -/
def foundAt (blocks : Nat → Nat) (disk : Buf) (name : CStr) (k : Nat) : Option (Nat × Nat) :=
  if blocks k = 0 then none
  else (findEntry (sector disk (blocks k)) name).map fun idx =>
    (entryINo (sector disk (blocks k)) idx, entryFType (sector disk (blocks k)) idx)

section Lookup
variable {s u : FileSys} {disk : Buf} {i : Inode} {look : CStr → Option (Nat × FileKind)} {name : CStr}

theorem searchBlocks_spec {blocks : Nat → Nat} (n k : Nat) (low : ∀ j, j < k + n → blocks j ≤ maxLba) :
    Succeeds (searchBlocks blocks name n k)
      (fun r t => t = s ∧ r = (List.range' k n).findSome? (foundAt blocks s.disk name)) s := by
  induction n generalizing k with
  | zero => exact (wp_pure _).2 ⟨rfl, rfl⟩
  | succ n ih =>
    have later := ih (k + 1) fun j hj => low j (by omega)
    rw [List.range'_succ, List.findSome?_cons]
    unfold searchBlocks
    by_cases absent : blocks k = 0
    · rw [if_pos absent, foundAt, if_pos absent]
      exact later
    · rw [if_neg absent, foundAt, if_neg absent, Succeeds, wp_bind]
      apply (wp_ideRead_iff (low k (by omega)) Nat.one_pos).2
      have buf : (fun m => if m < 512 * 1 then s.disk (512 * blocks k + m) else 0) = sector s.disk (blocks k) := rfl
      rw [buf]
      cases findEntry (sector s.disk (blocks k)) name with
      | none => exact later
      | some idx => exact (wp_pure _).2 ⟨rfl, rfl⟩

/-- An entry with a name is in use. -/
theorem DirStored.live (h : DirStored disk i look) (proper : FileName name) {k idx : Nat} (position : k < 140)
    (there : blockAddrs disk i k ≠ 0) (found : findEntry (blockAt disk i k) name = some idx) :
    LiveAt disk i k idx ∧ entryNamed (blockAt disk i k) idx name = true := by
  have named := List.find?_some found
  have index := List.mem_range.1 (List.mem_of_find?_eq_some found)
  refine ⟨⟨position, index, there, fun unused => ?_⟩, named⟩
  have empty := h.unused k position there idx index unused
  cases name with
  | nil => exact proper.some_byte rfl
  | cons c rest =>
    rw [entryNamed, streq, empty, Bool.and_eq_true, beq_iff_eq] at named
    exact proper.no_zero (named.1 ▸ List.mem_cons_self)

/-- The first entry of the name is the one the tree knows. -/
theorem DirStored.found (h : DirStored disk i look) (proper : FileName name) :
    (List.range' 0 140).findSome? (foundAt (collected disk i) disk name) =
      (look name).map fun e => (e.1, e.2.fileType) := by
  have at_block : ∀ k < 140, foundAt (collected disk i) disk name k = if blockAddrs disk i k = 0 then none
      else (findEntry (blockAt disk i k) name).map fun idx =>
        (entryINo (blockAt disk i k) idx, entryFType (blockAt disk i k) idx) := by
    intro k hk
    rw [foundAt, collected_eq hk]
    rfl
  have positions : ∀ k, k ∈ List.range' 0 140 ↔ k < 140 := by
    intro k
    rw [List.mem_range'_1]
    omega
  cases found : (List.range' 0 140).findSome? (foundAt (collected disk i) disk name) with
  | some e =>
    obtain ⟨k, mem, here⟩ := List.exists_of_findSome?_eq_some found
    have hk := (positions k).1 mem
    rw [at_block k hk] at here
    split at here
    · cases here
    · next there =>
      obtain ⟨idx, entry, rfl⟩ := Option.map_eq_some_iff.1 here
      obtain ⟨live, named⟩ := h.live proper hk there entry
      obtain ⟨kind, fType⟩ := h.kinds k idx live
      rw [(h.names name proper _ kind).2 ⟨k, idx, live, named, rfl, fType⟩, fType]
      rfl
  | none =>
    cases known : look name with
    | none => rfl
    | some e =>
      obtain ⟨k, idx, live, named, -, -⟩ := (h.names name proper e.1 e.2).1 known
      have here := List.findSome?_eq_none_iff.1 found k ((positions k).2 live.position)
      rw [at_block k live.position, if_neg live.there, Option.map_eq_none_iff] at here
      exact (List.find?_eq_none.1 here idx (List.mem_range.2 live.index) named).elim

/-- Two buffers have been taken and given back. -/
theorem Idle.buffers (u : FileSys) :
    Idle u 2 ((u.withBlock.withBlock.free (u.nextBlock + 1)).free u.nextBlock) := by
  refine ⟨?_, fun _ _ => rfl, fun _ _ => rfl, ?_, Nat.le_add_right _ 2, fun j => congrArg u.oracle (by omega)⟩
  · have second : ((u.nextBlock + 1) :: u.nextBlock :: u.live).erase (u.nextBlock + 1) = u.nextBlock :: u.live :=
      List.erase_cons_head ..
    have first : (u.nextBlock :: u.live).erase u.nextBlock = u.live := List.erase_cons_head ..
    simp only [FileSys.free, FileSys.withBlock, second, first]
    exact ⟨_, _, _, _, _, rfl⟩
  · intro p hp
    exact (Function.update_of_ne (Nat.ne_of_lt (Nat.lt_succ_of_lt hp)) _ _).trans
      (Function.update_of_ne (Nat.ne_of_lt hp) _ _)

/-- search_dir_entry returns the first entry of the name when both buffers can be had. Without the
first one it finds nothing. -/
theorem searchDirEntry_found {d : Dir} (table : (u.inode (u.inodeOf d)).iSectors 12 ≤ maxLba)
    (blocks : ∀ k < 140, blockAddrs u.disk (u.inode (u.inodeOf d)) k ≤ maxLba) :
    wp (searchDirEntry d name) (fun r t =>
        (MallocAnswers u 0 0 ∧ MallocAnswers u 1 1 ∧ r = (List.range' 0 140).findSome?
          (foundAt (collected u.disk (u.inode (u.inodeOf d))) u.disk name) ∧ Idle u 2 t) ∨
        (¬ MallocAnswers u 0 0 ∧ r = none ∧ Idle u 1 t))
      (fun _ => MallocAnswers u 0 0 ∧ ¬ MallocAnswers u 1 1) u := by
  unfold searchDirEntry
  rw [wp_bind, wp_sysMalloc]
  by_cases first : MallocOk u
  · rw [if_pos first, FileSys.afterMalloc, if_pos first]
    dsimp only
    rw [wp_bind, wp_get, wp_bind]
    have inode : u.withBlock.inode (u.withBlock.inodeOf d) = u.inode (u.inodeOf d) := by
      cases d <;> rfl
    rw [inode, wp_collectBlocks fun _ => table, wp_bind, wp_sysMalloc, wp_bind, wp_check]
    by_cases second : MallocOk u.withBlock
    · rw [if_pos second, FileSys.afterMalloc, if_pos second]
      refine ⟨fun _ => ?_, fun none => (none rfl).elim⟩
      rw [wp_bind]
      have low : ∀ j, j < 0 + 140 → collected u.disk (u.inode (u.inodeOf d)) j ≤ maxLba := by
        intro j hj
        rw [Nat.zero_add] at hj
        rw [collected_eq hj]
        exact blocks j hj
      apply wp_mono (searchBlocks_spec 140 0 low)
      · rintro r t ⟨rfl, rfl⟩
        rw [wp_bind]
        refine (wp_sysFree ?_ ?_).2 ?_
        · exact List.mem_cons_self
        · exact Function.update_self ..
        have left : (u.withBlock.withBlock.free (u.nextBlock + 1)).live = u.nextBlock :: u.live :=
          List.erase_cons_head ..
        have owner : u.withBlock.withBlock.owner u.nextBlock = u.pgdir u.current :=
          (Function.update_of_ne (Nat.ne_of_lt (Nat.lt_succ_self _)) _ _).trans (Function.update_self ..)
        rw [wp_bind]
        refine (wp_sysFree ?_ ?_).2 ?_
        · exact left ▸ List.mem_cons_self
        · exact owner
        exact (wp_pure _).2 (Or.inl ⟨first, second, rfl, .buffers u⟩)
      · exact fun _ none => none.elim
    · rw [if_neg second]
      exact ⟨fun none => (Bool.false_ne_true none).elim, fun _ => ⟨first, second⟩⟩
  · rw [if_neg first, FileSys.afterMalloc, if_neg first]
    refine (wp_pure _).2 (Or.inr ⟨first, rfl, ?_⟩)
    exact ⟨⟨_, _, _, _, _, rfl⟩, fun _ _ => rfl, fun _ _ => rfl, fun _ _ => rfl, Nat.le_refl _,
      fun j => congrArg u.oracle (Nat.add_comm j 1)⟩

theorem searchDirEntry_spec {d : Dir} (h : DirStored u.disk (u.inode (u.inodeOf d)) look) (proper : FileName name) :
    wp (searchDirEntry d name) (fun r t =>
        (MallocAnswers u 0 0 ∧ MallocAnswers u 1 1 ∧ r = (look name).map (fun e => (e.1, e.2.fileType)) ∧ Idle u 2 t) ∨
        (¬ MallocAnswers u 0 0 ∧ r = none ∧ Idle u 1 t))
      (fun _ => MallocAnswers u 0 0 ∧ ¬ MallocAnswers u 1 1) u := by
  rw [← h.found proper]
  exact searchDirEntry_found h.table h.blocks

end Lookup

end Zhenxiang.Fs
