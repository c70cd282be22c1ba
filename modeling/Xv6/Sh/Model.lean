/-
  Xv6.Sh.Model — the shell's parser (user/sh.c: gettoken .. nulterminate).

  The line is the list of its bytes before the NUL; a pointer into it is a position, and `es`
  is its length, where there is the NUL. The state is the caller's `*ps`. A command points to
  its words by their first byte and the byte after their last, which `nulterminate` overwrites.
  The loops and the recursion take fuel, and stop with `fuel` when it is used up. `malloc` does
  not fail, and the stack has no end.
-/

import Xv6.Param
import Xv6.Lib.Prog

namespace Xv6.Sh

def MAXARGS : Nat := 10

/-! ## Characters -/

def whitespace : List UInt8 := [0x20, 0x09, 0x0d, 0x0a, 0x0b]

def symbols : List UInt8 := [0x3c, 0x7c, 0x3e, 0x26, 0x3b, 0x28, 0x29]

def bar : UInt8 := 0x7c
def lparen : UInt8 := 0x28
def rparen : UInt8 := 0x29
def semi : UInt8 := 0x3b
def amp : UInt8 := 0x26
def lt : UInt8 := 0x3c
def gt : UInt8 := 0x3e

/-- What `gettoken` returns for ">>". -/
def plus : UInt8 := 0x2b

/-- What `gettoken` returns for a word. -/
def letterA : UInt8 := 0x61

/-! ## Commands -/

/-- `struct cmd`: `execcmd`, `redircmd`, `pipecmd`, `listcmd`, `backcmd`. -/
inductive Cmd where
  | exec (argv : List (Nat × Nat))
  | redir (cmd : Cmd) (file efile mode fd : Nat)
  | pipe (left right : Cmd)
  | list (left right : Cmd)
  | back (cmd : Cmd)
  deriving DecidableEq, Repr

/-- `cmd->argv[argc] = q; cmd->eargv[argc] = eq`, for the `execcmd` inside the redirections. -/
def Cmd.push (q eq : Nat) : Cmd → Cmd
  | .exec argv => .exec (argv ++ [(q, eq)])
  | .redir cmd file efile mode fd => .redir (cmd.push q eq) file efile mode fd
  | cmd => cmd

inductive Panic where
  /-- "missing file for redirection". -/
  | missingFile
  /-- "parseblock". -/
  | parseblock
  /-- "syntax - missing )". -/
  | missingParen
  /-- "syntax". -/
  | syn
  /-- "too many args". -/
  | tooManyArgs
  /-- No panic of the shell: the model has run out of fuel. -/
  | fuel
  deriving DecidableEq, Repr

abbrev M := Lib.Prog Nat Panic

variable (b : List UInt8)

def deref (s : Nat) : UInt8 := b.getD s 0

/-! ## Tokens -/

/-- `while(s < es && p(*s)) s++`, with `n = es - s`. -/
def skip (p : UInt8 → Bool) : Nat → Nat → Nat
  | 0, s => s
  | n + 1, s => if p (deref b s) then skip p n (s + 1) else s

def skipWhitespace (s : Nat) : Nat := skip b whitespace.contains (b.length - s) s

def skipWord (s : Nat) : Nat := skip b (fun c => !whitespace.contains c && !symbols.contains c) (b.length - s) s

/-- The switch of `gettoken`: the token, and where it ends. -/
def token (s : Nat) : UInt8 × Nat :=
  let c := deref b s
  if c = 0 then (0, s)
  else if c ∈ [bar, lparen, rparen, semi, amp, lt] then (c, s + 1)
  else if c = gt then if deref b (s + 1) = gt then (plus, s + 2) else (gt, s + 1)
  else (letterA, skipWord b s)

def gettoken : M (UInt8 × Nat × Nat) := do
  let q := skipWhitespace b (← get)
  let (ret, eq) := token b q
  set (skipWhitespace b eq)
  return (ret, q, eq)

def peek (toks : List UInt8) : M Bool := do
  let s := skipWhitespace b (← get)
  set s
  return deref b s ≠ 0 && toks.contains (deref b s)

/-! ## The parser -/

def redircmd (tok : UInt8) (cmd : Cmd) (q eq : Nat) : Cmd :=
  if tok = lt then .redir cmd q eq O_RDONLY 0
  else if tok = gt then .redir cmd q eq (O_WRONLY ||| O_CREATE ||| O_TRUNC) 1
  else if tok = plus then .redir cmd q eq (O_WRONLY ||| O_CREATE) 1
  else cmd

def parseredirs : Nat → Cmd → M Cmd
  | 0, _ => throw .fuel
  | fuel + 1, cmd => do
    if ← peek b [lt, gt] then do
      let (tok, _) ← gettoken b
      let (w, q, eq) ← gettoken b
      if w ≠ letterA then throw .missingFile
      parseredirs fuel (redircmd tok cmd q eq)
    else return cmd

/-- The loop of `parseexec`. -/
def parseargs : Nat → Cmd → Nat → M Cmd
  | 0, _, _ => throw .fuel
  | fuel + 1, ret, argc => do
    if ← peek b [bar, rparen, amp, semi] then return ret
    let (tok, q, eq) ← gettoken b
    if tok = 0 then return ret
    if tok ≠ letterA then throw .syn
    if MAXARGS ≤ argc + 1 then throw .tooManyArgs
    let ret ← parseredirs b (b.length + 1) (ret.push q eq)
    parseargs fuel ret (argc + 1)

/-- The loop of `parseline`. -/
def parsebacks : Nat → Cmd → M Cmd
  | 0, _ => throw .fuel
  | fuel + 1, cmd => do
    if ← peek b [amp] then do
      let _ ← gettoken b
      parsebacks fuel (.back cmd)
    else return cmd

mutual

def parseline : Nat → M Cmd
  | 0 => throw .fuel
  | fuel + 1 => do
    let cmd ← parsepipe fuel
    let cmd ← parsebacks b (b.length + 1) cmd
    if ← peek b [semi] then do
      let _ ← gettoken b
      let right ← parseline fuel
      return .list cmd right
    else return cmd

def parsepipe : Nat → M Cmd
  | 0 => throw .fuel
  | fuel + 1 => do
    let cmd ← parseexec fuel
    if ← peek b [bar] then do
      let _ ← gettoken b
      let right ← parsepipe fuel
      return .pipe cmd right
    else return cmd

def parseexec : Nat → M Cmd
  | 0 => throw .fuel
  | fuel + 1 => do
    if ← peek b [lparen] then parseblock fuel
    else do
      let ret ← parseredirs b (b.length + 1) (.exec [])
      parseargs b (b.length + 1) ret 0

def parseblock : Nat → M Cmd
  | 0 => throw .fuel
  | fuel + 1 => do
    if !(← peek b [lparen]) then throw .parseblock
    let _ ← gettoken b
    let cmd ← parseline fuel
    if !(← peek b [rparen]) then throw .missingParen
    let _ ← gettoken b
    parseredirs b (b.length + 1) cmd

end

def nulterminate : Cmd → List UInt8 → List UInt8
  | .exec argv, b => argv.foldl (fun b arg => b.set arg.2 0) b
  | .redir cmd _ efile _ _, b => (nulterminate cmd b).set efile 0
  | .pipe left right, b => nulterminate right (nulterminate left b)
  | .list left right, b => nulterminate right (nulterminate left b)
  | .back cmd, b => nulterminate cmd b

/-- `parsecmd` up to the test for leftovers. -/
def parseall : M Cmd := do
  let cmd ← parseline b (4 * b.length + 4)
  let _ ← peek b []
  if (← get) ≠ b.length then throw .syn
  return cmd

def parsecmd : Except Panic (Cmd × List UInt8) := do
  let (cmd, _) ← parseall b 0
  return (cmd, nulterminate cmd b)

end Xv6.Sh
