import Zhenxiang.Fs.File

/-! Path names and the search for a file in fs.c. -/
namespace Zhenxiang.Fs
open Lib Kernel

def slash : UInt8 := 47

def maxPathLen : Nat := 512

/-- The first name of a path and the rest, which is NULL when the path ends there. -/
def pathParse (pathname : CStr) : CStr × Option CStr :=
  let start := pathname.dropWhile (· == slash)
  let rest := start.dropWhile (· != slash)
  (start.takeWhile (· != slash), if rest = [] then none else some rest)

/-- What path_parse leaves in a name[16] that holds nothing yet. -/
def parseName (subPath : Option CStr) : Sys (CStr × Option CStr) :=
  match subPath with
  | none => pure ([], none)
  | some path => do
    let parsed := pathParse path
    check (parsed.1.length ≤ maxFileNameLen) .undefined
    pure parsed

/-- The rounds of path_depth_cnt behind the first. -/
def depthFrom : Nat → Option CStr → Sys Nat
  | 0, _ => throw .diverges
  | rounds + 1, subPath => do
    let (name, rest) ← parseName subPath
    if name = [] then
      pure 0
    else
      pure (1 + (← depthFrom rounds rest))

/-- The array name is not initialised, so a path without a name counts one or none. -/
def pathDepthCnt (pathname : CStr) : Sys Nat := do
  let (name, rest) ← parseName (some pathname)
  if name = [] then
    pure (if (← ask) = 0 then 0 else 1)
  else
    pure (1 + (← depthFrom (pathname.length + 1) rest))

structure PathSearchRecord where
  searchedPath : CStr
  parentDir : Dir
  fileType : Nat

variable (P : Partition)

/-- An i_no returned as an int; none is -1. -/
def asInt (iNo : Nat) : Option Nat := if iNo % 2 ^ 32 = 2 ^ 32 - 1 then none else some iNo

/-- The loop of search_file, with the variables it changes. The two numbers are the i_no
in dir_e and parent_inode_no. A round takes at least one character off the path. -/
def searchLoop : Nat → CStr → Option CStr → CStr → Dir → Nat → Nat →
    Sys (Option Nat × PathSearchRecord)
  | 0, _, _, _, _, _, _ => throw .diverges
  | rounds + 1, name, subPath, searchedPath, parentDir, iNo, parentInodeNo => do
    if name = [] then
      dirClose parentDir
      let parentDir ← dirOpen P parentInodeNo
      pure (asInt iNo, ⟨searchedPath, parentDir, ftDirectory⟩)
    else
      assert (searchedPath.length < 512)
      check (name.length < maxFileNameLen) .undefined
      let searchedPath := searchedPath ++ slash :: name
      match ← searchDirEntry parentDir name with
      | none => pure (none, ⟨searchedPath, parentDir, ftUnknown⟩)
      | some (iNo, fType) =>
        let (name, subPath) ← parseName subPath
        if fType = ftDirectory then
          let s ← get
          let parentInodeNo := (s.inode (s.inodeOf parentDir)).iNo
          dirClose parentDir
          let parentDir ← dirOpen P iNo
          searchLoop rounds name subPath searchedPath parentDir iNo parentInodeNo
        else if fType = ftRegular then
          pure (asInt iNo, ⟨searchedPath, parentDir, ftRegular⟩)
        else
          searchLoop rounds name subPath searchedPath parentDir iNo parentInodeNo

/-- "/", "/." and "/..". -/
def isRootName (pathname : CStr) : Bool :=
  pathname == [slash] || pathname == slash :: dot || pathname == slash :: dotDot

/-- The inode number, or none for -1. The i_no in dir_e is not initialised: a path
without a name gives back whatever is there. -/
def searchFile (pathname : CStr) : Sys (Option Nat × PathSearchRecord) := do
  if isRootName pathname = true then
    pure (some 0, ⟨[], .root, ftDirectory⟩)
  else
    assert (pathname.head? = some slash ∧ 1 < pathname.length ∧ pathname.length < maxPathLen)
    let iNo ← ask
    let (name, subPath) ← parseName (some pathname)
    searchLoop P (pathname.length + 1) name subPath [] .root iNo 0

end Zhenxiang.Fs
