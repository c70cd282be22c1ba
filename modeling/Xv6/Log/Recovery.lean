/-
  Xv6.Log.Recovery — the redo log on disk (kernel/log.c: write_log, write_head, read_head,
  install_trans, commit, recover_from_log), as sequences of block writes.

  `g.start` and `g.nlog` are `log.start` and `log.size`: block `start` is the header and the
  blocks after it hold logged data. A home block is one outside that area. `bwrite` is
  synchronous, so a program is the list of its writes in order; each write replaces one block, of
  two sectors, and the disk writes a sector at once or not at all (`tear`).

  A block in the log area is cached only as it is on disk, since `bwrite` follows every change of
  it, so `bread` of it is the disk's contents. A home block of the running transaction is pinned
  in the cache: `write_log`'s `from` buffer is the transaction's `data`.
-/

import Xv6.Disk.Block
import Xv6.Lib.Crash

namespace Xv6.Log

structure Geom where
  start : Nat
  nlog : Nat
  pos : 0 < nlog

def Geom.InLog (g : Geom) (b : Nat) : Prop := g.start ≤ b ∧ b < g.start + g.nlog

instance (g : Geom) (b : Nat) : Decidable (g.InLog b) := inferInstanceAs (Decidable (_ ∧ _))

/-- What `log.lh` may hold: distinct home blocks, no more than the header and the log
    area have room for. -/
structure Fits (g : Geom) (lh : List Nat) : Prop where
  nodup : lh.Nodup
  room : lh.length ≤ min LOGSIZE (g.nlog - 1)
  home : ∀ b ∈ lh, ¬ g.InLog b
  uint : ∀ b ∈ lh, b < 2 ^ 32

/-- A transaction when `commit` starts: the block numbers in `log.lh` and the cached
    contents of those blocks. -/
structure Txn (g : Geom) where
  lh : List Nat
  data : Nat → Block
  fits : Fits g lh

/-- A write marked `i` is the first `write_head` of transaction `i`. -/
abbrev Write := Lib.Wr Nat Block Nat

variable (g : Geom)

/-- `write_log` from iteration `tail` on, `bs` being the blocks left. -/
def writeLog (data : Nat → Block) : List Nat → Nat → List Write
  | [], _ => []
  | b :: bs, tail => ⟨g.start + tail + 1, data b, none⟩ :: writeLog data bs (tail + 1)

def writeHead (d : Disk) (lh : List Nat) (mark : Option Nat) : Write := ⟨g.start, putHead lh (d g.start), mark⟩

/-- `install_trans` from iteration `tail` on, `bs` being the blocks left. -/
def installTrans : Disk → List Nat → Nat → List Write
  | _, [], _ => []
  | d, b :: bs, tail =>
    let w : Write := ⟨b, d (g.start + tail + 1), none⟩
    w :: installTrans (w.run d) bs (tail + 1)

def commit (d : Disk) (i : Nat) (T : Txn g) : List Write :=
  if T.lh = [] then []
  else
    let log := writeLog g T.data T.lh 0
    let d1 := Lib.runAll d log
    let head := writeHead g d1 T.lh (some i)
    let d2 := head.run d1
    let inst := installTrans g d2 T.lh 0
    log ++ head :: (inst ++ [writeHead g (Lib.runAll d2 inst) [] none])

def recoverFromLog (d : Disk) : List Write :=
  let inst := installTrans g d (readHead (d g.start)) 0
  inst ++ [writeHead g (Lib.runAll d inst) [] none]

/-- The writes of committing `Ts` one after the other, the first being number `i`. -/
def commitAll : Disk → Nat → List (Txn g) → List Write
  | _, _, [] => []
  | d, i, T :: Ts => commit g d i T ++ commitAll (Lib.runAll d (commit g d i T)) (i + 1) Ts

/-- `Reboots g d d'`: from `d`, any number of runs of `recover_from_log`, each stopped by
    a crash, may leave `d'`. -/
inductive Reboots : Disk → Disk → Prop
  | refl (d : Disk) : Reboots d d
  | crash {d e f : Disk} {ms : List Nat} : Lib.Crash tear d (recoverFromLog g d) ms e → Reboots e f → Reboots d f

/-- What a run of `recover_from_log` that completes leaves. -/
def recovered (d : Disk) : Disk := Lib.runAll d (recoverFromLog g d)

/-! ## What the log is for -/

variable {g}

/-- The home blocks after `T`: its new contents, the rest as before. -/
def Txn.apply (T : Txn g) (d : Disk) : Disk := fun b => if b ∈ T.lh then T.data b else d b

/-- The home blocks after the transactions `Ts`, in order. -/
def applyAll (d : Disk) (Ts : List (Txn g)) : Disk := Ts.foldl (fun d T => T.apply d) d

end Xv6.Log
