/-
  Xv6.Fs.Sys — open files and the system calls (kernel/file.c, kernel/sysfile.c, pipealloc and
  pipeclose of kernel/pipe.c, and what fork and exit of kernel/proc.c do with files).

  A call is atomic. Its arguments are what it takes from outside: a string as the bytes mapped at
  its address (`argstr` looks for the 0 among the first MAXPATH), the mapped length of a buffer,
  whether `kalloc` has a page, whether a user pointer is good. The data in pipes and the devices
  are left out: reading and writing them returns anything.

  A pipe has a number of its own, although its page is used again; `freed` counts how often the
  page has been given to `kfree` for this pipe.
-/

import Xv6.Fs.Dir
import Xv6.Lib.System

namespace Xv6.Fs

inductive FType where
  | none
  | pipe
  | inode
  | device
  deriving DecidableEq, Repr

/-- `struct file`; `ip` is an entry of the inode table. -/
structure File where
  type : FType
  ref : Nat
  readable : Bool
  writable : Bool
  pipe : Nat
  ip : Nat
  off : Nat
  major : Nat
  deriving DecidableEq, Repr

structure Pipe where
  readopen : Bool
  writeopen : Bool
  /-- History. -/
  freed : Nat
  deriving DecidableEq, Repr

inductive PState where
  | unused
  | used
  | zombie
  deriving DecidableEq, Repr

/-- What a process has to do with files. -/
structure Proc where
  state : PState
  ofile : Nat → Option Nat
  cwd : Nat

structure St where
  core : Core
  ftable : Nat → File
  pipes : Nat → Pipe
  npipes : Nat
  proc : Nat → Proc

inductive SysPanic where
  | fs (e : Panic)
  /-- "filedup". -/
  | filedup
  /-- "fileclose". -/
  | fileclose
  /-- "fileread". -/
  | fileread
  /-- "filewrite". -/
  | filewrite
  deriving DecidableEq, Repr

abbrev Sys := Lib.Prog St SysPanic

variable (sb : Superblock)

/-- A function of fs.c. -/
def fs {α : Type} (c : M α) : Sys α := Lib.onPart St.core (fun s core => { s with core }) .fs c

/-! ## The file table -/

def setFile (f : Nat) (x : File) : Sys Unit := modify fun s => { s with ftable := Function.update s.ftable f x }

def setPipe (i : Nat) (x : Pipe) : Sys Unit := modify fun s => { s with pipes := Function.update s.pipes i x }

def setProc (p : Nat) (x : Proc) : Sys Unit := modify fun s => { s with proc := Function.update s.proc p x }

def setFd (p fd : Nat) (f : Option Nat) : Sys Unit := do
  let x := (← get).proc p
  setProc p { x with ofile := Function.update x.ofile fd f }

def filealloc : Sys (Option Nat) := do
  let t := (← get).ftable
  match Lib.first (fun f => (t f).ref == 0) 0 NFILE with
  | some f => do
    setFile f { t f with ref := 1 }
    return some f
  | none => return none

def filedup (f : Nat) : Sys Nat := do
  let x := (← get).ftable f
  if x.ref < 1 then throw .filedup
  setFile f { x with ref := x.ref + 1 }
  return f

def pipeclose (i : Nat) (writable : Bool) : Sys Unit := do
  let x := (← get).pipes i
  let x := if writable then { x with writeopen := false } else { x with readopen := false }
  if x.readopen = false ∧ x.writeopen = false then setPipe i { x with freed := x.freed + 1 }
  else setPipe i x

def fileclose (f : Nat) : Sys Unit := do
  let ff := (← get).ftable f
  if ff.ref < 1 then throw .fileclose
  if 0 < ff.ref - 1 then setFile f { ff with ref := ff.ref - 1 }
  else do
    setFile f { ff with ref := 0, type := .none }
    match ff.type with
    | .pipe => pipeclose ff.pipe ff.writable
    | .inode | .device => do
      fs begin_op
      fs (iput sb ff.ip)
      fs end_op
    | .none => pure ()

/-- `fileread(f, addr, n)`, with `lim` bytes mapped at `addr`. A pipe or a device returns `r`. -/
def fileread (f : Nat) (lim : Nat) (n r : Int) : Sys Int := do
  let x := (← get).ftable f
  if x.readable = false then return -1
  match x.type with
  | .pipe => return r
  | .device => return if toInt16 x.major < 0 ∨ (NDEV : Int) ≤ toInt16 x.major then -1 else r
  | .inode => do
    fs (ilock sb x.ip)
    let (r, _) ← fs (readi sb x.ip (some lim) x.off (n % 2 ^ 32).toNat)
    if 0 < r then setFile f { x with off := (x.off + r.toNat) % 2 ^ 32 }
    fs (iunlock x.ip)
    return r
  | .none => throw .fileread

/-- The loop of `filewrite`, with `i` bytes written; a round writes at least one byte or is the
    last one. -/
def filewriteFrom (f : Nat) (src : Nat → UInt8) (lim n : Nat) : Nat → Nat → Sys Nat
  | 0, i => return i
  | fuel + 1, i => do
    if i < n then do
      let n1 := min (n - i) ((MAXOPBLOCKS - 1 - 1 - 2) / 2 * BSIZE)
      fs begin_op
      let x := (← get).ftable f
      fs (ilock sb x.ip)
      let r ← fs (writei sb x.ip (fun k => src (i + k)) (some (lim - i)) x.off n1)
      if 0 < r then setFile f { x with off := (x.off + r.toNat) % 2 ^ 32 }
      fs (iunlock x.ip)
      fs end_op
      if r ≠ n1 then return i
      filewriteFrom f src lim n fuel (i + n1)
    else return i

/-- `filewrite(f, addr, n)`, with the `lim` bytes `src` mapped at `addr`. -/
def filewrite (f : Nat) (src : Nat → UInt8) (lim : Nat) (n r : Int) : Sys Int := do
  let x := (← get).ftable f
  if x.writable = false then return -1
  match x.type with
  | .pipe => return r
  | .device => return if toInt16 x.major < 0 ∨ (NDEV : Int) ≤ toInt16 x.major then -1 else r
  | .inode => do
    let i ← filewriteFrom sb f src lim n.toNat n.toNat 0
    return if (i : Int) = n then n else -1
  | .none => throw .filewrite

/-! ## Descriptors -/

def argfd (p : Nat) (fd : Int) : Sys (Option Nat) := do
  let s ← get
  return if fd < 0 ∨ (NOFILE : Int) ≤ fd then none else (s.proc p).ofile fd.toNat

def fdalloc (p f : Nat) : Sys (Option Nat) := do
  let o := ((← get).proc p).ofile
  match Lib.first (fun fd => (o fd).isNone) 0 NOFILE with
  | some fd => do
    setFd p fd (some f)
    return some fd
  | none => return none

/-- The string at the address where `mem` is mapped. -/
def argstr (mem : List UInt8) : Option (List UInt8) :=
  let s := (mem.take MAXPATH).takeWhile (· ≠ 0)
  if s.length < (mem.take MAXPATH).length then some s else none

def sys_dup (p : Nat) (fd : Int) : Sys Int := do
  match ← argfd p fd with
  | none => return -1
  | some f =>
    match ← fdalloc p f with
    | none => return -1
    | some fd => do
      let _ ← filedup f
      return fd

def sys_read (p : Nat) (fd : Int) (lim : Nat) (n r : Int) : Sys Int := do
  match ← argfd p fd with
  | none => return -1
  | some f => fileread sb f lim n r

def sys_write (p : Nat) (fd : Int) (src : Nat → UInt8) (lim : Nat) (n r : Int) : Sys Int := do
  match ← argfd p fd with
  | none => return -1
  | some f => filewrite sb f src lim n r

def sys_close (p : Nat) (fd : Int) : Sys Int := do
  match ← argfd p fd with
  | none => return -1
  | some f => do
    setFd p fd.toNat none
    fileclose sb f
    return 0

/-! ## Names -/

/-- The failure exit `bad` of `sys_link`: take back the link count. -/
def linkBad (j : Nat) : M Bool := do
  ilock sb j
  setNlink sb j decr
  iunlockput sb j
  return false

def link (cwd : Nat) (old new : List UInt8) : M Bool := do
  match ← namei sb cwd old with
  | none => return false
  | some j => do
    ilock sb j
    if (← inode j).d.type = T_DIR then do
      iunlockput sb j
      return false
    setNlink sb j incr
    iunlock j
    match ← nameiparent sb cwd new with
    | none => linkBad sb j
    | some (dp, name) => do
      ilock sb dp
      if ← dirlink sb dp name (← inode j).inum then do
        iunlockput sb dp
        iput sb j
        return true
      else do
        iunlockput sb dp
        linkBad sb j

def unlink (cwd : Nat) (path : List UInt8) : M Bool := do
  match ← nameiparent sb cwd path with
  | none => return false
  | some (dp, name) => do
    ilock sb dp
    if namecmp name dot ∨ namecmp name dotdot then do
      iunlockput sb dp
      return false
    match ← dirlookup sb dp name with
    | none => do
      iunlockput sb dp
      return false
    | some (j, off) => do
      ilock sb j
      if toInt16 (← inode j).d.nlink < 1 then throw .unlinkNlink
      let full ← if (← inode j).d.type = T_DIR then do pure !(← isdirempty sb j) else pure false
      if full then do
        iunlockput sb j
        iunlockput sb dp
        return false
      if (← writei sb dp (fun _ => 0) none off 16) ≠ 16 then throw .unlinkWritei
      if (← inode j).d.type = T_DIR then setNlink sb dp decr
      iunlockput sb dp
      setNlink sb j decr
      iunlockput sb j
      return true

def result (ok : Bool) : Int := if ok then 0 else -1

/-- A call that is one transaction. -/
@[grind] def transaction {α : Type} (c : M α) : Sys α := do
  fs begin_op
  let r ← fs c
  fs end_op
  return r

def sys_link (p : Nat) (old new : List UInt8) : Sys Int := do
  match argstr old, argstr new with
  | some old, some new => do
    let cwd := ((← get).proc p).cwd
    return result (← transaction (link sb cwd old new))
  | _, _ => return -1

def sys_unlink (p : Nat) (path : List UInt8) : Sys Int := do
  match argstr path with
  | some path => do
    let cwd := ((← get).proc p).cwd
    return result (← transaction (unlink sb cwd path))
  | none => return -1

def createPut (cwd : Nat) (path : Option (List UInt8)) (type major minor : Nat) : M Bool := do
  match path with
  | none => return false
  | some path =>
    match ← create sb cwd path type major minor with
    | none => return false
    | some j => do
      iunlockput sb j
      return true

def sys_mkdir (p : Nat) (path : List UInt8) : Sys Int := do
  let cwd := ((← get).proc p).cwd
  return result (← transaction (createPut sb cwd (argstr path) T_DIR 0 0))

def sys_mknod (p : Nat) (path : List UInt8) (major minor : Int) : Sys Int := do
  let cwd := ((← get).proc p).cwd
  return result (← transaction
    (createPut sb cwd (argstr path) T_DEVICE (major % 2 ^ 16).toNat (minor % 2 ^ 16).toNat))

/-- The directory to change to. -/
def findDir (cwd : Nat) (path : List UInt8) : M (Option Nat) := do
  match ← namei sb cwd path with
  | none => return none
  | some j => do
    ilock sb j
    if (← inode j).d.type ≠ T_DIR then do
      iunlockput sb j
      return none
    iunlock j
    iput sb cwd
    return some j

def sys_chdir (p : Nat) (path : List UInt8) : Sys Int := do
  let x := (← get).proc p
  match argstr path with
  | none => transaction (return -1)
  | some path =>
    match ← transaction (findDir sb x.cwd path) with
    | none => return -1
    | some j => do
      setProc p { x with cwd := j }
      return 0

/-- The inode to open. -/
def openInode (cwd : Nat) (path : List UInt8) (omode : Nat) : M (Option Nat) := do
  let r ← do
    if omode &&& O_CREATE ≠ 0 then create sb cwd path T_FILE 0 0
    else
      match ← namei sb cwd path with
      | none => pure none
      | some j => do
        ilock sb j
        if (← inode j).d.type = T_DIR ∧ omode ≠ O_RDONLY then do
          iunlockput sb j
          pure none
        else pure (some j)
  match r with
  | none => return none
  | some j => do
    let x := (← inode j).d
    if x.type = T_DEVICE ∧ (toInt16 x.major < 0 ∨ (NDEV : Int) ≤ toInt16 x.major) then do
      iunlockput sb j
      return none
    return some j

/-- A file and a descriptor for it, or neither. -/
def fileAndFd (p : Nat) : Sys (Option (Nat × Nat)) := do
  match ← filealloc with
  | none => return none
  | some f =>
    match ← fdalloc p f with
    | none => do
      fileclose sb f
      return none
    | some fd => return some (f, fd)

def sys_open (p : Nat) (path : List UInt8) (omode : Nat) : Sys Int := do
  match argstr path with
  | none => return -1
  | some path => do
    let cwd := ((← get).proc p).cwd
    fs begin_op
    match ← fs (openInode sb cwd path omode) with
    | none => do
      fs end_op
      return -1
    | some j =>
      match ← fileAndFd sb p with
      | none => do
        fs (iunlockput sb j)
        fs end_op
        return -1
      | some (f, fd) => do
        let x := (← fs (inode j)).d
        let old := (← get).ftable f
        let old := if x.type = T_DEVICE then { old with type := .device, major := x.major }
          else { old with type := .inode, off := 0 }
        setFile f { old with
          ip := j
          readable := omode &&& O_WRONLY = 0
          writable := omode &&& O_WRONLY ≠ 0 ∨ omode &&& O_RDWR ≠ 0 }
        if omode &&& O_TRUNC ≠ 0 ∧ x.type = T_FILE then fs (itrunc sb j)
        fs (iunlock j)
        fs end_op
        return fd

/-! ## Pipes -/

/-- Two files on a new pipe; `mem` says whether `kalloc` has a page. -/
def pipealloc (mem : Bool) : Sys (Option (Nat × Nat)) := do
  match ← filealloc with
  | none => return none
  | some f0 =>
    match ← filealloc with
    | none => do
      fileclose sb f0
      return none
    | some f1 => do
      if mem = false then do
        fileclose sb f0
        fileclose sb f1
        return none
      let i := (← get).npipes
      modify fun s => { s with npipes := i + 1 }
      setPipe i ⟨true, true, 0⟩
      setFile f0 { (← get).ftable f0 with type := .pipe, readable := true, writable := false, pipe := i }
      setFile f1 { (← get).ftable f1 with type := .pipe, readable := false, writable := true, pipe := i }
      return some (f0, f1)

/-- `good` says whether both descriptors can be stored in user memory. -/
def sys_pipe (p : Nat) (mem good : Bool) : Sys Int := do
  match ← pipealloc sb mem with
  | none => return -1
  | some (rf, wf) =>
    match ← fdalloc p rf with
    | none => do
      fileclose sb rf
      fileclose sb wf
      return -1
    | some fd0 =>
      match ← fdalloc p wf with
      | none => do
        setFd p fd0 none
        fileclose sb rf
        fileclose sb wf
        return -1
      | some fd1 => do
        if good = false then do
          setFd p fd0 none
          setFd p fd1 none
          fileclose sb rf
          fileclose sb wf
          return -1
        return 0

/-! ## Processes -/

/-- `np->ofile[i] = filedup(p->ofile[i])`. -/
def dupFd (p np fd : Nat) : Sys Unit := do
  match ((← get).proc p).ofile fd with
  | none => pure ()
  | some f => do
    let f ← filedup f
    setFd np fd (some f)

/-- `mem` says whether there is memory for the child. -/
def fork (p : Nat) (mem : Bool) : Sys Int := do
  let t := (← get).proc
  match Lib.first (fun q => (t q).state == .unused) 0 NPROC with
  | none => return -1
  | some np => do
    if mem = false then return -1
    Lib.forFrom (dupFd p np) 0 NOFILE
    let cwd ← fs (idup (t p).cwd)
    setProc np { (← get).proc np with state := .used, cwd }
    return np

/-- What `exec` does with files: it reads the inode, here and there, and drops it. -/
def execRead (cwd : Nat) (path : List UInt8) (reads : List (Nat × Nat)) : M Unit := do
  match ← namei sb cwd path with
  | none => return ()
  | some j => do
    ilock sb j
    reads.forM fun (off, n) => do
      let _ ← readi sb j none off (n % 2 ^ 32)
    iunlockput sb j

/-- `if(p->ofile[fd]) { fileclose(f); p->ofile[fd] = 0; }` -/
def closeFd (p fd : Nat) : Sys Unit := do
  match ((← get).proc p).ofile fd with
  | none => pure ()
  | some f => do
    fileclose sb f
    setFd p fd none

def exit (p : Nat) : Sys Unit := do
  Lib.forFrom (closeFd sb p) 0 NOFILE
  transaction (iput sb ((← get).proc p).cwd)
  setProc p { (← get).proc p with state := .zombie }

/-! ## Runs -/

/-- A system call, with its arguments and what it takes from outside. -/
inductive Call where
  | dup (fd : Int)
  | read (fd : Int) (lim : Nat) (n r : Int)
  | write (fd : Int) (src : Nat → UInt8) (lim : Nat) (n r : Int)
  | close (fd : Int)
  | link (old new : List UInt8)
  | unlink (path : List UInt8)
  | «open» (path : List UInt8) (omode : Nat)
  | mkdir (path : List UInt8)
  | mknod (path : List UInt8) (major minor : Int)
  | chdir (path : List UInt8)
  | pipe (mem good : Bool)
  | fork (mem : Bool)
  | exec (path : List UInt8) (reads : List (Nat × Nat)) (r : Int)
  | exit
  /-- `wait` finds the zombie `q`. -/
  | wait (q : Nat)

/-- The call, made by process `p`, and what it returns. -/
def call (p : Nat) : Call → Sys Int
  | .dup fd => sys_dup p fd
  | .read fd lim n r => sys_read sb p fd lim n r
  | .write fd src lim n r => sys_write sb p fd src lim n r
  | .close fd => sys_close sb p fd
  | .link old new => sys_link sb p old new
  | .unlink path => sys_unlink sb p path
  | .open path omode => sys_open sb p path omode
  | .mkdir path => sys_mkdir sb p path
  | .mknod path major minor => sys_mknod sb p path major minor
  | .chdir path => sys_chdir sb p path
  | .pipe mem good => sys_pipe sb p mem good
  | .fork mem => fork p mem
  | .exec path reads r => do
    match argstr path with
    | none => return -1
    | some path => do
      let cwd := ((← get).proc p).cwd
      transaction (execRead sb cwd path reads)
      return r
  | .exit => do
    exit sb p
    return 0
  | .wait q => do
    let x := (← get).proc q
    if x.state = .zombie then do
      setProc q { x with state := .unused }
      return q
    return -1

/-- After boot: process 0 in the root directory, with nothing open. -/
def boot (d : Disk) : St where
  core :=
    { disk := d
      itable := fun j => if j = 0 then ⟨ROOTINO, 1, false, .zero⟩ else ⟨0, 0, false, .zero⟩
      outstanding := 0
      logged := fun _ => false
      home := d
      past := [d] }
  ftable _ := ⟨.none, 0, false, false, 0, 0, 0, 0⟩
  pipes _ := ⟨false, false, 0⟩
  npipes := 0
  proc p := ⟨if p = 0 then .used else .unused, fun _ => none, 0⟩

def Call.isExit : Call → Bool
  | .exit => true
  | _ => false

/-- The state after the call of a process that is there; process 0 does not exit. A call that
    panics leads nowhere. -/
def next (s : St) (a : Nat × Call) : Option St :=
  if a.1 < NPROC ∧ (s.proc a.1).state = .used ∧ (a.2.isExit = true → a.1 ≠ 0) then
    match call sb a.1 a.2 s with
    | .ok (_, s') => some s'
    | .error _ => none
  else none

/-- Runs from an image that satisfies `image`: any process makes any call, one after the other. -/
def sys (image : Disk → Prop) : Lib.Sys St (Nat × Call) := .ofFn (fun s => ∃ d, image d ∧ s = boot d) (next sb)

variable {sb}

theorem next_some {s s' : St} {a : Nat × Call} (h : next sb s a = some s') :
    a.1 < NPROC ∧ (s.proc a.1).state = .used ∧ (a.2.isExit = true → a.1 ≠ 0) ∧ ∃ r, call sb a.1 a.2 s = .ok (r, s') := by
  unfold next at h
  split at h
  · rename_i hc
    split at h
    · rename_i r t hr
      cases h
      exact ⟨hc.1, hc.2.1, hc.2.2, r, hr⟩
    · cases h
  · cases h

end Xv6.Fs
