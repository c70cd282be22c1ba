/-
  Xv6.Fs.Dir — directories and paths (kernel/fs.c: dirlookup .. namex; kernel/sysfile.c:
  isdirempty, create).

  A directory is a file of 16-byte entries: the inode number, then the name, of at most DIRSIZ
  bytes, padded with 0. A C string is the list of its bytes before the 0.
-/

import Xv6.Fs.Inode
import Xv6.Str

namespace Xv6.Fs

variable (sb : Superblock)

structure Dirent where
  inum : Nat
  name : List UInt8
  deriving DecidableEq, Repr

def Dirent.ofBytes (l : List UInt8) : Dirent where
  inum := (l.getD 0 0).toNat + 256 * (l.getD 1 0).toNat
  name := Str.cstr (fun k => l.getD (k + 2) 0) 0 DIRSIZ

/-- Its bytes: `strncpy(de.name, name, DIRSIZ)`, `de.inum = inum`. -/
def Dirent.byte (e : Dirent) (k : Nat) : UInt8 :=
  if k < 2 then byteOf e.inum k else if k < 16 then Str.strncpy (Str.mem e.name) (fun _ => 0) 0 DIRSIZ (k - 2) else 0

def namecmp (s t : List UInt8) : Bool := Str.strncmp (Str.mem s) (Str.mem t) 0 DIRSIZ == 0

def readDirent (p : Panic) (j off : Nat) : M Dirent := do
  let (r, buf) ← readi sb j none off 16
  if r ≠ 16 then throw p
  return .ofBytes buf

/-- The loop of `dirlookup`: the first entry in use with this name, and its offset. -/
def dirlookupFrom (j : Nat) (name : List UInt8) : Nat → Nat → M (Option (Nat × Nat))
  | 0, _ => return none
  | n + 1, off => do
    if off < (← inode j).d.size then do
      let de ← readDirent sb .dirlookupRead j off
      if de.inum ≠ 0 ∧ namecmp name de.name = true then do
        let k ← iget de.inum
        return some (k, off)
      dirlookupFrom j name n (off + 16)
    else return none

def dirlookup (j : Nat) (name : List UInt8) : M (Option (Nat × Nat)) := do
  let x := (← inode j).d
  if x.type ≠ T_DIR then throw .dirlookupNotDir
  dirlookupFrom sb j name (x.size / 16 + 1) 0

/-- The offset of the first entry from `off` on that is not in use, or the end. -/
def emptyFrom (j : Nat) : Nat → Nat → M Nat
  | 0, off => return off
  | n + 1, off => do
    if off < (← inode j).d.size then do
      let de ← readDirent sb .dirlinkRead j off
      if de.inum = 0 then return off
      emptyFrom j n (off + 16)
    else return off

def dirlink (j : Nat) (name : List UInt8) (inum : Nat) : M Bool := do
  match ← dirlookup sb j name with
  | some (k, _) => do
    iput sb k
    return false
  | none => do
    let off ← emptyFrom sb j ((← inode j).d.size / 16 + 1) 0
    let r ← writei sb j (Dirent.byte ⟨inum, name⟩) none off 16
    return r == 16

def isdiremptyFrom (j : Nat) : Nat → Nat → M Bool
  | 0, _ => return true
  | n + 1, off => do
    if off < (← inode j).d.size then do
      let de ← readDirent sb .isdirempty j off
      if de.inum ≠ 0 then return false
      isdiremptyFrom j n (off + 16)
    else return true

def isdirempty (j : Nat) : M Bool := do isdiremptyFrom sb j ((← inode j).d.size / 16 + 1) 32

/-! ## Paths -/

def slash : UInt8 := 0x2f

def dot : List UInt8 := [0x2e]

def dotdot : List UInt8 := [0x2e, 0x2e]

def skipelem (path : List UInt8) : Option (List UInt8 × List UInt8) :=
  let p := path.dropWhile (· = slash)
  if p = [] then none
  else some ((p.takeWhile (· ≠ slash)).take DIRSIZ, (p.dropWhile (· ≠ slash)).dropWhile (· = slash))

/-- The loop of `namex` at the inode in entry `j`, for at most `fuel` path elements. -/
def namexFrom (nameiparent : Bool) : Nat → Nat → List UInt8 → List UInt8 → M (Option (Nat × List UInt8))
  | 0, _, _, _ => return none
  | fuel + 1, j, path, name =>
    match skipelem path with
    | none => do
      if nameiparent then do
        iput sb j
        return none
      return some (j, name)
    | some (name, path) => do
      ilock sb j
      if (← inode j).d.type ≠ T_DIR then do
        iunlockput sb j
        return none
      if nameiparent ∧ path = [] then do
        iunlock j
        return some (j, name)
      match ← dirlookup sb j name with
      | none => do
        iunlockput sb j
        return none
      | some (next, _) => do
        iunlockput sb j
        namexFrom nameiparent fuel next path name

def namex (cwd : Nat) (path : List UInt8) (nameiparent : Bool) : M (Option (Nat × List UInt8)) := do
  let j ← if path.head? = some slash then iget ROOTINO else idup cwd
  namexFrom sb nameiparent (path.length + 1) j path []

@[grind] def namei (cwd : Nat) (path : List UInt8) : M (Option Nat) := do return (← namex sb cwd path false).map (·.1)

@[grind] def nameiparent (cwd : Nat) (path : List UInt8) : M (Option (Nat × List UInt8)) := namex sb cwd path true

/-! ## Creating -/

/-- `nlink++` and `nlink--` of a `short`. -/
def incr (n : Nat) : Nat := (n + 1) % 2 ^ 16
def decr (n : Nat) : Nat := (n + 2 ^ 16 - 1) % 2 ^ 16

def setNlink (j : Nat) (f : Nat → Nat) : M Unit := do
  setCopy j fun x => { x with nlink := f x.nlink }
  iupdate sb j

def linkDots (j dp : Nat) : M Bool := do
  if ← dirlink sb j dot (← inode j).inum then dirlink sb j dotdot (← inode dp).inum
  else return false

/-- The failure exit of `create`: de-allocate the new inode. -/
def createFail (j dp : Nat) : M (Option Nat) := do
  setNlink sb j fun _ => 0
  iunlockput sb j
  iunlockput sb dp
  return none

/-- `create` from where the new inode is there, in entry `j`. -/
def createIn (dp j : Nat) (name : List UInt8) (type major minor : Nat) : M (Option Nat) := do
  ilock sb j
  setCopy j fun x => { x with major, minor, nlink := 1 }
  iupdate sb j
  let dots ← if type = T_DIR then linkDots sb j dp else pure true
  if dots = false then createFail sb j dp
  else if (← dirlink sb dp name (← inode j).inum) = false then createFail sb j dp
  else do
    if type = T_DIR then setNlink sb dp incr
    iunlockput sb dp
    return some j

def create (cwd : Nat) (path : List UInt8) (type major minor : Nat) : M (Option Nat) := do
  match ← nameiparent sb cwd path with
  | none => return none
  | some (dp, name) => do
    ilock sb dp
    match ← dirlookup sb dp name with
    | some (j, _) => do
      iunlockput sb dp
      ilock sb j
      let t := (← inode j).d.type
      if type = T_FILE ∧ (t = T_FILE ∨ t = T_DEVICE) then return some j
      iunlockput sb j
      return none
    | none =>
      match ← ialloc sb type with
      | none => do
        iunlockput sb dp
        return none
      | some j => createIn sb dp j name type major minor

end Xv6.Fs
