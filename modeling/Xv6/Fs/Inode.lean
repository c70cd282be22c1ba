/-
  Xv6.Fs.Inode — blocks and inodes (kernel/fs.c: balloc .. writei), over what the buffer cache
  shows of the disk, the inode table and the log's counters.

  A call runs from start to end, so the sleep-locks of inodes and buffers are left out. A
  buffer that is changed is changed for every later `bread`; `log_write` puts its block in the
  transaction, and `end_op` of the last operation writes the transaction home.

  The source of `writei` and the destination of `readi` are kernel memory or user memory, of
  which `lim` says how many bytes from its start on are mapped: a copy that goes further
  fails, after the bytes that are.
-/

import Xv6.Fs.Layout
import Xv6.Lib.First
import Xv6.Lib.Prog

namespace Xv6.Fs

/-- `struct inode`: an entry of the inode table, with its copy of the inode. -/
structure Inode where
  inum : Nat
  ref : Nat
  valid : Bool
  d : Dinode

structure Core where
  /-- What `bread` returns of each block. -/
  disk : Disk
  itable : Nat → Inode
  /-- `log.outstanding`. -/
  outstanding : Nat
  /-- The blocks in the transaction. -/
  logged : Nat → Bool
  /-- What has been written home: the disk after a crash and recovery. -/
  home : Disk
  /-- History, which nothing reads: every state the disk has had so, the latest first. -/
  past : List Disk

inductive Panic where
  /-- "log_write outside of trans". -/
  | logWrite
  /-- "freeing free block". -/
  | bfree
  /-- "iget: no inodes". -/
  | iget
  /-- "ilock". -/
  | ilock
  /-- "ilock: no type". -/
  | ilockNoType
  /-- "iunlock". -/
  | iunlock
  /-- "bmap: out of range". -/
  | bmap
  /-- "dirlookup not DIR". -/
  | dirlookupNotDir
  /-- "dirlookup read". -/
  | dirlookupRead
  /-- "dirlink read". -/
  | dirlinkRead
  /-- "isdirempty: readi". -/
  | isdirempty
  /-- "unlink: nlink < 1". -/
  | unlinkNlink
  /-- "unlink: writei". -/
  | unlinkWritei
  deriving DecidableEq, Repr

abbrev M := Lib.Prog Core Panic

/-! ## The log -/

@[grind] def begin_op : M Unit := modify fun s => { s with outstanding := s.outstanding + 1 }

def Core.commit (s : Core) : Disk := fun b => if s.logged b then s.disk b else s.home b

def end_op : M Unit := modify fun s =>
  if s.outstanding - 1 = 0 then
    { s with outstanding := 0, logged := fun _ => false, home := s.commit, past := s.commit :: s.past }
  else { s with outstanding := s.outstanding - 1 }

def bread (b : Nat) : M Block := do return (← get).disk b

def setBuf (b : Nat) (x : Block) : M Unit := modify fun s => { s with disk := Function.update s.disk b x }

/-- Without the panic "too big a transaction", for which see `Xv6.Log.Reservation`. -/
def log_write (b : Nat) : M Unit := do
  if (← get).outstanding < 1 then throw .logWrite
  modify fun s => { s with logged := Function.update s.logged b true }

def bwrite (b : Nat) (x : Block) : M Unit := do
  setBuf b x
  log_write b

/-! ## Blocks -/

variable (sb : Superblock)

def bzero (b : Nat) : M Unit := bwrite b fun _ => 0

/-- The loop of `balloc` over the bitmap blocks, `n` of which are left, from block `b` on. -/
def ballocFrom : Nat → Nat → M Nat
  | 0, _ => return 0
  | n + 1, b => do
    let bp ← bread (BBLOCK sb b)
    match Lib.first (fun bi => !marked bp bi) 0 (min BPB (sb.size - b)) with
    | some bi => do
      bwrite (BBLOCK sb b) (mark bp bi)
      bzero (b + bi)
      return b + bi
    | none => ballocFrom n (b + BPB)

def balloc : M Nat := ballocFrom sb ((sb.size + BPB - 1) / BPB) 0

def bfree (b : Nat) : M Unit := do
  let bp ← bread (BBLOCK sb b)
  if marked bp (b % BPB) then bwrite (BBLOCK sb b) (unmark bp (b % BPB))
  else throw .bfree

/-! ## The inode table -/

def inode (j : Nat) : M Inode := do return (← get).itable j

def setInode (j : Nat) (ip : Inode) : M Unit := modify fun s => { s with itable := Function.update s.itable j ip }

def setCopy (j : Nat) (f : Dinode → Dinode) : M Unit := do
  let ip ← inode j
  setInode j { ip with d := f ip.d }

def iupdate (j : Nat) : M Unit := do
  let ip ← inode j
  let bp ← bread (IBLOCK sb ip.inum)
  bwrite (IBLOCK sb ip.inum) (putDinode bp (ip.inum % IPB * 64) ip.d)

def iget (inum : Nat) : M Nat := do
  let t := (← get).itable
  match Lib.first (fun j => decide (0 < (t j).ref) && (t j).inum == inum) 0 NINODE with
  | some j => do
    setInode j { t j with ref := (t j).ref + 1 }
    return j
  | none =>
    match Lib.first (fun j => (t j).ref == 0) 0 NINODE with
    | some j => do
      setInode j { t j with inum := inum, ref := 1, valid := false }
      return j
    | none => throw .iget

def ialloc (type : Nat) : M (Option Nat) := do
  let d := (← get).disk
  match Lib.first (fun i => (dinode sb d i).type == 0) 1 (sb.ninodes - 1) with
  | some i => do
    bwrite (IBLOCK sb i) (putDinode (d (IBLOCK sb i)) (i % IPB * 64) { Dinode.zero with type })
    return some (← iget i)
  | none => return none

def idup (j : Nat) : M Nat := do
  let ip ← inode j
  setInode j { ip with ref := ip.ref + 1 }
  return j

def ilock (j : Nat) : M Unit := do
  let ip ← inode j
  if ip.ref < 1 then throw .ilock
  if ip.valid = false then do
    let x := dinode sb (← get).disk ip.inum
    setInode j { ip with valid := true, d := x }
    if x.type = 0 then throw .ilockNoType

def iunlock (j : Nat) : M Unit := do
  if (← inode j).ref < 1 then throw .iunlock

/-! ## The blocks of an inode -/

/-- `ip->addrs[k]`, allocated if there is none; 0 if out of disk space. -/
@[grind] def bmapAddr (j k : Nat) : M Nat := do
  let addr := (← inode j).d.addr k
  if addr = 0 then do
    let addr ← balloc sb
    if addr = 0 then return 0
    setCopy j fun x => x.setAddr k addr
    return addr
  return addr

@[grind] def bmap (j bn : Nat) : M Nat := do
  if bn < NDIRECT then return ← bmapAddr sb j bn
  let bn := bn - NDIRECT
  if bn < NINDIRECT then do
    let ind ← bmapAddr sb j NDIRECT
    if ind = 0 then return 0
    let addr := word (← bread ind) (4 * bn)
    if addr = 0 then do
      let addr ← balloc sb
      if addr ≠ 0 then do
        let bp ← bread ind
        bwrite ind (setWord bp (4 * bn) addr)
      return addr
    return addr
  throw .bmap

/-- `if(ip->addrs[i]) { bfree(..); ip->addrs[i] = 0; }` -/
def freeDirect (j i : Nat) : M Unit := do
  let addr := (← inode j).d.addr i
  if addr ≠ 0 then do
    bfree sb addr
    setCopy j fun x => x.setAddr i 0

def itrunc (j : Nat) : M Unit := do
  Lib.forFrom (freeDirect sb j) 0 NDIRECT
  let ind := (← inode j).d.addr NDIRECT
  if ind ≠ 0 then do
    let each (k : Nat) : M Unit := do
      let addr := word (← bread ind) (4 * k)
      if addr ≠ 0 then bfree sb addr
    Lib.forFrom each 0 NINDIRECT
    bfree sb ind
    setCopy j fun x => x.setAddr NDIRECT 0
  setCopy j fun x => { x with size := 0 }
  iupdate sb j

def iput (j : Nat) : M Unit := do
  let ip ← inode j
  if ip.ref = 1 ∧ ip.valid = true ∧ ip.d.nlink = 0 then do
    itrunc sb j
    setCopy j fun x => { x with type := 0 }
    iupdate sb j
    setInode j { ← inode j with valid := false }
  let ip ← inode j
  setInode j { ip with ref := ip.ref - 1 }

@[grind] def iunlockput (j : Nat) : M Unit := do
  iunlock j
  iput sb j

/-! ## Contents -/

/-- Whether `n` bytes of user memory are within its mapped part; kernel memory is. -/
def within (n : Nat) : Option Nat → Bool
  | none => true
  | some lim => n ≤ lim

/-- The loop of `readi`, for at most `fuel` rounds: each moves at least one byte. -/
def readiLoop (j : Nat) (lim : Option Nat) : Nat → Nat → Nat → Nat → List UInt8 → M (Int × List UInt8)
  | 0, tot, _, _, buf => return (tot, buf)
  | fuel + 1, tot, off, n, buf =>
    if tot < n then do
      let addr ← bmap sb j (off / BSIZE)
      if addr = 0 then return (tot, buf)
      let bp ← bread addr
      let m := min (n - tot) (BSIZE - off % BSIZE)
      if within (tot + m) lim then
        readiLoop j lim fuel (tot + m) (off + m) n (buf ++ (List.range m).map fun k => bp (off % BSIZE + k))
      else return (-1, buf)
    else return (tot, buf)

def readi (j : Nat) (lim : Option Nat) (off n : Nat) : M (Int × List UInt8) := do
  let size := (← inode j).d.size
  if size < off ∨ (off + n) % 2 ^ 32 < off then return (0, [])
  let n := if size < (off + n) % 2 ^ 32 then size - off else n
  readiLoop sb j lim n 0 off n []

/-- The loop of `writei`: what has been written, and the offset it has come to. -/
@[grind] def writeiLoop (j : Nat) (src : Nat → UInt8) (lim : Option Nat) : Nat → Nat → Nat → Nat → M (Nat × Nat)
  | 0, tot, off, _ => return (tot, off)
  | fuel + 1, tot, off, n =>
    if tot < n then do
      let addr ← bmap sb j (off / BSIZE)
      if addr = 0 then return (tot, off)
      let bp ← bread addr
      let m := min (n - tot) (BSIZE - off % BSIZE)
      if within (tot + m) lim then do
        bwrite addr (splice bp (off % BSIZE) m fun k => src (tot + k))
        writeiLoop j src lim fuel (tot + m) (off + m) n
      else do
        -- the bytes before the first one that is not mapped are in the buffer
        setBuf addr (splice bp (off % BSIZE) (lim.getD 0 - tot) fun k => src (tot + k))
        return (tot, off)
    else return (tot, off)

def writei (j : Nat) (src : Nat → UInt8) (lim : Option Nat) (off n : Nat) : M Int := do
  let size := (← inode j).d.size
  if size < off ∨ (off + n) % 2 ^ 32 < off then return -1
  if MAXFILE * BSIZE < (off + n) % 2 ^ 32 then return -1
  let (tot, off) ← writeiLoop sb j src lim n 0 off n
  setCopy j fun x => if x.size < off then { x with size := off } else x
  iupdate sb j
  return tot

end Xv6.Fs
