/-
  Xv6.Mkfs.Model — mkfs/mkfs.c, which makes the image of a file system from a list of files.

  The image is a file that the blocks are written to; `rsect` of a block past its end dies.
  `sec * BSIZE` is a `uint`, so that block numbers wrap at 2^22. Integers are kept as values:
  `xshort` and `xint` put their bytes in the order in which the layout functions of
  `Xv6.Fs.Layout` store and read them. What the tool prints, and a failing `lseek`, `write` or
  `read` of the image short of its end, is left out.
-/

import Xv6.Fs.Dir

namespace Xv6.Mkfs

open Fs (Dinode Dirent Superblock)

def NINODES : Nat := 200

def nbitmap : Nat := FSSIZE / BPB + 1
def ninodeblocks : Nat := NINODES / IPB + 1
def nlog : Nat := LOGSIZE

/-- Number of meta blocks (boot, sb, nlog, inode, bitmap). -/
def nmeta : Nat := 2 + nlog + ninodeblocks + nbitmap

def nblocks : Nat := FSSIZE - nmeta

def FSMAGIC : Nat := 0x10203040

/-- The fields of `sb` that the kernel reads after `fsinit`. -/
def sb : Superblock where
  size := FSSIZE
  ninodes := NINODES
  inodestart := 2 + nlog
  bmapstart := 2 + nlog + ninodeblocks

def sbBlock : Block :=
  let put (b : Block) (k v : Nat) := setWord b (4 * k) v
  put (put (put (put (put (put (put (put (fun _ => 0) 0 FSMAGIC) 1 FSSIZE) 2 nblocks) 3 NINODES) 4 nlog) 5 2) 6 (2 + nlog))
    7 (2 + nlog + ninodeblocks)

structure St where
  img : Disk
  /-- Blocks in the image file. -/
  len : Nat
  freeinode : Nat
  freeblock : Nat

inductive Fail where
  | die
  | assert
  deriving DecidableEq, Repr

abbrev M := Lib.Prog St Fail

def assert (p : Prop) [Decidable p] : M Unit := if p then pure () else throw .assert

def wsect (sec : Nat) (buf : Block) : M Unit := modify fun s =>
  { s with img := Function.update s.img (sec % 2 ^ 22) buf, len := max s.len (sec % 2 ^ 22 + 1) }

def rsect (sec : Nat) : M Block := do
  let s ← get
  if sec % 2 ^ 22 < s.len then return s.img (sec % 2 ^ 22) else throw .die

def winode (inum : Nat) (ip : Dinode) : M Unit := do
  let bn := Fs.IBLOCK sb inum
  let buf ← rsect bn
  wsect bn (Fs.putDinode buf (inum % IPB * 64) ip)

def rinode (inum : Nat) : M Dinode := do
  let buf ← rsect (Fs.IBLOCK sb inum)
  return Fs.readDinode buf (inum % IPB * 64)

/-- `freeinode++`. -/
def newinode : M Nat := do
  let s ← get
  modify fun s => { s with freeinode := s.freeinode + 1 }
  return s.freeinode

/-- `freeblock++`. -/
def newblock : M Nat := do
  let s ← get
  modify fun s => { s with freeblock := s.freeblock + 1 }
  return s.freeblock

def ialloc (type : Nat) : M Nat := do
  let inum ← newinode
  winode inum { Dinode.zero with type, nlink := 1 }
  return inum

def balloc (used : Nat) : M Unit := do
  assert (used < BPB)
  wsect sb.bmapstart ((List.range used).foldl Fs.mark fun _ => 0)

/-- Block `fbn` by the word of the indirect block, allocated if there is none. -/
def imapWord (din : Dinode) (fbn : Nat) : M (Dinode × Nat) := do
  let indirect ← rsect (din.addr NDIRECT)
  if word indirect (4 * (fbn - NDIRECT)) = 0 then do
    let x ← newblock
    let indirect := setWord indirect (4 * (fbn - NDIRECT)) x
    wsect (din.addr NDIRECT) indirect
    return (din, word indirect (4 * (fbn - NDIRECT)))
  return (din, word indirect (4 * (fbn - NDIRECT)))

/-- Block `fbn` of the file, allocated if there is none; and the inode. -/
def imap (din : Dinode) (fbn : Nat) : M (Dinode × Nat) := do
  if fbn < NDIRECT then do
    if din.addr fbn = 0 then do
      let x ← newblock
      let din := din.setAddr fbn x
      return (din, din.addr fbn)
    return (din, din.addr fbn)
  if din.addr NDIRECT = 0 then do
    let x ← newblock
    imapWord (din.setAddr NDIRECT x) fbn
  else imapWord din fbn

/-- The loop of `iappend`, for at most `fuel` rounds: each moves at least one byte. -/
def appendLoop : Nat → Dinode → Nat → List UInt8 → M (Dinode × Nat)
  | 0, din, off, _ => return (din, off)
  | fuel + 1, din, off, p =>
    if p = [] then return (din, off)
    else do
      let fbn := off / BSIZE
      assert (fbn < MAXFILE)
      let (din, x) ← imap din fbn
      let n1 := min p.length ((fbn + 1) * BSIZE - off)
      let buf ← rsect x
      wsect x (Fs.splice buf (off - fbn * BSIZE) n1 fun k => p.getD k 0)
      appendLoop fuel din (off + n1) (p.drop n1)

def iappend (inum : Nat) (p : List UInt8) : M Unit := do
  let din ← rinode inum
  let (din, off) ← appendLoop p.length din din.size p
  winode inum { din with size := off }

/-! ## The program -/

/-- An argument, and what the calls of `read` on the file yield; `none` if it cannot be opened. -/
structure File where
  argv : List UInt8
  nul : 0 ∉ argv
  data : Option (List (List UInt8))

def userSlash : List UInt8 := [0x75, 0x73, 0x65, 0x72, 0x2f]

def underscore : UInt8 := 0x5f

/-- The name without the directory. -/
def File.base (f : File) : List UInt8 := if f.argv.take 5 = userSlash then f.argv.drop 5 else f.argv

def File.shortname (f : File) : List UInt8 := if f.base.head? = some underscore then f.base.tail else f.base

def dirent (inum : Nat) (name : List UInt8) : List UInt8 := (List.range 16).map (Dirent.byte ⟨inum, name⟩)

def copyin (inum : Nat) : List (List UInt8) → M Unit
  | [] => return ()
  | c :: cs =>
    if c.take BSIZE = [] then return ()
    else do
      iappend inum (c.take BSIZE)
      copyin inum cs

/-- One turn of `main`'s loop. -/
def addFile (rootino : Nat) (f : File) : M Unit := do
  assert (Fs.slash ∉ f.base)
  match f.data with
  | none => throw .die
  | some chunks => do
    assert (f.shortname.length ≤ DIRSIZ)
    let inum ← ialloc T_FILE
    iappend rootino (dirent inum f.shortname)
    copyin inum chunks

def blank : M Unit := do
  modify fun s => { s with freeblock := nmeta }
  Lib.forFrom (fun i => wsect i fun _ => 0) 0 FSSIZE
  wsect 1 sbBlock

/-- Fix size of root inode dir. -/
def fixRoot (rootino : Nat) : M Unit := do
  let din ← rinode rootino
  winode rootino { din with size := (din.size / BSIZE + 1) * BSIZE }

def main (files : List File) : M Unit := do
  blank
  let rootino ← ialloc T_DIR
  assert (rootino = ROOTINO)
  iappend rootino (dirent rootino Fs.dot)
  iappend rootino (dirent rootino Fs.dotdot)
  files.forM (addFile rootino)
  fixRoot rootino
  let s ← get
  balloc s.freeblock

/-- The image file is empty, and `freeinode` is 1. -/
def start : St := ⟨fun _ _ => 0, 0, 1, 0⟩

end Xv6.Mkfs
