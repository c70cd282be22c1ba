/-
  Xv6.Console.Model — console input (kernel/console.c: `consoleintr` and `consoleread`), and
  the line editor it stands for.

  A section under `cons.lock` is one step: a call of `consoleintr`, and what `consoleread`
  does from taking the lock, or waking up with it, until it sleeps or returns. A process that
  sleeps on `&cons.r` may look again at any time; if `cons.r == cons.w` still holds it goes
  back to sleep. `copyout` succeeds. The echo is left out.

  The history has the reference editor, fed with the same characters, and what was read: each
  byte taken from the buffer with the number of the call that took it, and the calls that are
  over with what they returned.
-/

import Xv6.Lib.Ring
import Xv6.Lib.System

namespace Xv6.Console

open Function (update)

def INPUT_BUF_SIZE : Nat := 128

def LF : UInt8 := 10
def CR : UInt8 := 13
/-- `C('D')`: end-of-file. -/
def EOT : UInt8 := 4
/-- `C('P')`: print the process list. -/
def DLE : UInt8 := 16
/-- `C('U')`: kill line. -/
def NAK : UInt8 := 21
/-- `C('H')`: backspace. -/
def BS : UInt8 := 8
def DEL : UInt8 := 127

/-! ## The code -/

structure Cons where
  buf : Nat → UInt8
  r : BitVec 32
  w : BitVec 32
  e : BitVec 32

/-- The loop of `C('U')`. It ends at `cons.w` at the latest, `cons.e - cons.w` turns on. -/
def killLine (buf : Nat → UInt8) (w : BitVec 32) : Nat → BitVec 32 → BitVec 32
  | 0, e => e
  | turns + 1, e =>
    if e ≠ w ∧ buf ((e - 1).toNat % INPUT_BUF_SIZE) ≠ LF then killLine buf w turns (e - 1) else e

def consoleintr (k : Cons) (c : UInt8) : Cons :=
  if c = DLE then k
  else if c = NAK then { k with e := killLine k.buf k.w (k.e - k.w).toNat k.e }
  else if c = BS ∨ c = DEL then
    if k.e ≠ k.w then { k with e := k.e - 1 } else k
  else if c ≠ 0 ∧ (k.e - k.r).toNat < INPUT_BUF_SIZE then
    let c := if c = CR then LF else c
    let k := { k with buf := update k.buf (k.e.toNat % INPUT_BUF_SIZE) c, e := k.e + 1 }
    if c = LF ∨ c = EOT ∨ (k.e - k.r).toNat = INPUT_BUF_SIZE then { k with w := k.e } else k
  else k

/-- How a section of `consoleread` ends, with `n` bytes still wanted and `got` copied out. -/
inductive Stop where
  /-- At `cons.r == cons.w`. -/
  | empty (n : Nat) (got : List UInt8)
  /-- Out of the loop. -/
  | ended (n : Nat) (got : List UInt8)

def readLoop (target : Nat) : Nat → List UInt8 → Cons → Stop × Cons
  | 0, got, k => (.ended 0 got, k)
  | n + 1, got, k =>
    if k.r = k.w then (.empty (n + 1) got, k)
    else
      let c := k.buf (k.r.toNat % INPUT_BUF_SIZE)
      let k := { k with r := k.r + 1 }
      if c = EOT then (.ended (n + 1) got, if n + 1 < target then { k with r := k.r - 1 } else k)
      else if c = LF then (.ended n (got ++ [c]), k)
      else readLoop target n (got ++ [c]) k

inductive Pc where
  | out
  /-- In `consoleread`, to take the lock, at first or in `sleep`. -/
  | read (target n : Nat) (got : List UInt8)
  deriving DecidableEq, Repr

structure St (N : Nat) where
  cons : Cons
  pc : Fin N → Pc
  killed : Fin N → Bool
  /-- What the last call returned. -/
  ret : Fin N → Int
  /-- What it copied out. -/
  got : Fin N → List UInt8

inductive Act (N : Nat) where
  | intr (c : UInt8)
  | call (p : Fin N) (n : Int)
  | run (p : Fin N)
  | kill (p : Fin N)

variable {N : Nat}

def St.return (s : St N) (p : Fin N) (r : Int) (got : List UInt8) : St N :=
  { s with pc := update s.pc p .out, ret := update s.ret p r, got := update s.got p got }

def consoleread (s : St N) (p : Fin N) (target n : Nat) (got : List UInt8) : St N :=
  match readLoop target n got s.cons with
  | (.ended n got, k) => { s with cons := k }.return p (target - n) got
  | (.empty n got, k) =>
    if s.killed p then { s with cons := k }.return p (-1) got
    else { s with cons := k, pc := update s.pc p (.read target n got) }

def next (s : St N) : Act N → Option (St N)
  | .intr c => some { s with cons := consoleintr s.cons c }
  | .call p n => if s.pc p = .out then some { s with pc := update s.pc p (.read n.toNat n.toNat []) } else none
  | .run p =>
    match s.pc p with
    | .out => none
    | .read target n got => some (consoleread s p target n got)
  | .kill p => some { s with killed := update s.killed p true }

def init (N : Nat) (buf : Nat → UInt8) (start : BitVec 32) : St N where
  cons := ⟨buf, start, start, start⟩
  pc := fun _ => .out
  killed := fun _ => false
  ret := fun _ => 0
  got := fun _ => []

/-- At boot the indices are 0; here they may start anywhere, so that they wrap soon. -/
def sys (N : Nat) (buf : Nat → UInt8) (start : BitVec 32) : Lib.Sys (St N) (Act N) := .ofFn (· = init N buf start) next

/-! ## The reference -/

/-- A line editor: the lines committed so far and the one being typed. -/
structure Editor where
  committed : List (List UInt8)
  line : List UInt8

/-- A character comes in while `unread` of the committed bytes have not been read. -/
def Editor.input (d : Editor) (unread : Nat) (c : UInt8) : Editor :=
  if c = DLE then d
  else if c = NAK then { d with line := [] }
  else if c = BS ∨ c = DEL then { d with line := d.line.dropLast }
  else if c = 0 ∨ unread + d.line.length = INPUT_BUF_SIZE then d
  else
    let c := if c = CR then LF else c
    let line := d.line ++ [c]
    if c = LF ∨ c = EOT ∨ unread + line.length = INPUT_BUF_SIZE then ⟨d.committed ++ [line], []⟩ else { d with line }

/-- A call of `consoleread` that is over. -/
structure Read where
  call : Nat
  size : Nat
  ret : Int
  got : List UInt8
  /-- It took a `C('D')`. -/
  eof : Bool

structure Hist (N : Nat) where
  editor : Editor
  takes : List (Nat × UInt8)
  reads : List Read
  /-- The number of the process's last call. -/
  call : Fin N → Nat
  calls : Nat

def Pc.size : Pc → Nat
  | .out => 0
  | .read target _ _ => target

def note (s : St N) (a : Act N) (s' : St N) (h : Hist N) : Hist N :=
  match a with
  | .intr c => { h with editor := h.editor.input (h.editor.committed.flatten.length - h.takes.length) c }
  | .call p _ => { h with call := update h.call p h.calls, calls := h.calls + 1 }
  | .run p =>
    let taken := Lib.pending s.cons.buf INPUT_BUF_SIZE s.cons.r s'.cons.r
    { h with
      takes := h.takes ++ taken.map (h.call p, ·)
      reads := if s'.pc p = .out then h.reads ++ [⟨h.call p, (s.pc p).size, s'.ret p, s'.got p, EOT ∈ taken⟩] else h.reads }
  | .kill _ => h

def Hist.start : Hist N := ⟨⟨[], []⟩, [], [], fun _ => 0, 0⟩

def traced (N : Nat) (buf : Nat → UInt8) (start : BitVec 32) : Lib.Sys (St N × Hist N) (Act N) :=
  (sys N buf start).traced .start note

def Pc.got : Pc → List UInt8
  | .out => []
  | .read _ _ got => got

def unread : Nat → List (List UInt8) → List (List UInt8)
  | _, [] => []
  | k, l :: ls => if k < l.length then l.drop k :: ls else unread (k - l.length) ls

def Pc.wants : Pc → Nat
  | .out => 0
  | .read _ n _ => n

/-- A read that wants `n` bytes and finds a line `l`, or the rest of one, has got nothing before. If
    `l` was committed because the buffer filled, without a newline or a `C('D')`, the read wants no
    more than `l`, or nothing more is committed. -/
def Fits (n : Nat) (got : List UInt8) : List (List UInt8) → Prop
  | [] => True
  | l :: ls => got = [] ∧ (ls = [] ∨ n ≤ l.length ∨ l.getLast? = some LF ∨ l.getLast? = some EOT)

instance (n : Nat) (got : List UInt8) : ∀ ls, Decidable (Fits n got ls)
  | [] => .isTrue trivial
  | _ :: _ => inferInstanceAs (Decidable (_ ∧ _))

/-- No read goes on behind a line that was committed because the buffer filled. -/
def Within (x : St N × Hist N) : Act N → Prop
  | .run p => Fits (x.1.pc p).wants (x.1.pc p).got (unread x.2.takes.length x.2.editor.committed)
  | _ => True

instance (x : St N × Hist N) : ∀ a, Decidable (Within x a)
  | .run _ => inferInstanceAs (Decidable (Fits _ _ _))
  | .intr _ | .call _ _ | .kill _ => .isTrue trivial

end Xv6.Console
