/-
  Xv6.Printf.Model — formatted output (kernel/printf.c: printint, printptr, printf; user/printf.c:
  printint, printptr, vprintf).

  A format is the list of its bytes before the NUL; so is a string argument. A function returns
  the characters it passes to `consputc` or `putc`, a `printf` round by round of its loop over the
  format. A store past the end of a local buffer stops the call. The kernel's `pr.lock` is left
  out, and `write` does not fail.
-/

import Mathlib.Data.List.GetD

namespace Xv6.Printf

/-! ## Characters -/

def percent : UInt8 := 0x25
def minus : UInt8 := 0x2d
def zero : UInt8 := 0x30
def chD : UInt8 := 0x64
def chL : UInt8 := 0x6c
def chP : UInt8 := 0x70
def chS : UInt8 := 0x73
def chU : UInt8 := 0x75
def chX : UInt8 := 0x78

def null : List UInt8 := [0x28, 0x6e, 0x75, 0x6c, 0x6c, 0x29]

def decimals : List UInt8 := [0x30, 0x31, 0x32, 0x33, 0x34, 0x35, 0x36, 0x37, 0x38, 0x39]

/-! ## Numbers -/

inductive Fault where
  /-- A store to `buf[i]`, where `buf` ends before `i`. -/
  | overflow (i : Nat)
  /-- The argument list has no argument of this type here. -/
  | arg
  | fuel
  deriving DecidableEq, Repr

def BUF : Nat := 16

/-- `buf[i++] = c`; `buf` is what has been stored. -/
def store (buf : List UInt8) (c : UInt8) : Except Fault (List UInt8) :=
  if buf.length < BUF then .ok (buf ++ [c]) else .error (.overflow buf.length)

/-- `do { buf[i++] = digits[x % base]; } while((x /= base) != 0);` -/
def digitLoop (digits : List UInt8) (base : Nat) : Nat → Nat → List UInt8 → Except Fault (List UInt8)
  | 0, _, _ => .error .fuel
  | fuel + 1, x, buf => do
    let buf ← store buf (digits.getD (x % base) 0)
    if x / base ≠ 0 then digitLoop digits base fuel (x / base) buf else return buf

/-- Both `printint`s, for integers of `w` bits: `x` is unsigned of that width. -/
def printintAt {w : Nat} (digits : List UInt8) (xx : BitVec w) (base : Nat) (sign : Bool) :
    Except Fault (List UInt8) := do
  let neg := sign && decide (xx.toInt < 0)
  let x := if neg then -xx else xx
  let buf ← digitLoop digits base w x.toNat []
  let buf ← if neg then store buf minus else pure buf
  return buf.reverse

/-- `for (i = 0; i < 16; i++, x <<= 4) putc(digits[x >> 60]);` with `n` rounds left. -/
def ptrLoop (digits : List UInt8) : Nat → BitVec 64 → List UInt8
  | 0, _ => []
  | n + 1, x => digits.getD (x >>> 60).toNat 0 :: ptrLoop digits n (x <<< 4)

/-- Both `printptr`s. -/
def printptrWith (digits : List UInt8) (x : BitVec 64) : List UInt8 := zero :: chX :: ptrLoop digits 16 x

/-! ## Directives -/

/-- An argument: an `int` or `uint`, a 64-bit integer or pointer, a string or 0. -/
inductive Arg where
  | int (v : BitVec 32)
  | long (v : BitVec 64)
  | str (s : Option (List UInt8))
  deriving DecidableEq, Repr

def argInt : List Arg → Except Fault (BitVec 32 × List Arg)
  | .int v :: ap => .ok (v, ap)
  | _ => .error .arg

def argLong : List Arg → Except Fault (BitVec 64 × List Arg)
  | .long v :: ap => .ok (v, ap)
  | _ => .error .arg

def argStr : List Arg → Except Fault (Option (List UInt8) × List Arg)
  | .str s :: ap => .ok (s, ap)
  | _ => .error .arg

/-- What a `printf` calls: `printint` with an `int` or a `uint64` converted to its parameter, and
`printptr`. -/
structure Calls where
  int : BitVec 32 → Nat → Bool → Except Fault (List UInt8)
  long : BitVec 64 → Nat → Bool → Except Fault (List UInt8)
  ptr : BitVec 64 → List UInt8

def Calls.ofInt (o : Calls) (base : Nat) (sign : Bool) (skip : Nat) (ap : List Arg) :
    Except Fault (List UInt8 × List Arg × Nat) := do
  let (v, ap) ← argInt ap
  return (← o.int v base sign, ap, skip)

def Calls.ofLong (o : Calls) (base : Nat) (sign : Bool) (skip : Nat) (ap : List Arg) :
    Except Fault (List UInt8 × List Arg × Nat) := do
  let (v, ap) ← argLong ap
  return (← o.long v base sign, ap, skip)

/-- The branches on the characters after a '%', the same in both: the output, the arguments left,
and what is added to `i`. -/
def directive (o : Calls) (c0 c1 c2 : UInt8) (ap : List Arg) : Except Fault (List UInt8 × List Arg × Nat) :=
  if c0 = chD then o.ofInt 10 true 0 ap
  else if c0 = chL ∧ c1 = chD then o.ofLong 10 true 1 ap
  else if c0 = chL ∧ c1 = chL ∧ c2 = chD then o.ofLong 10 true 2 ap
  else if c0 = chU then o.ofInt 10 false 0 ap
  else if c0 = chL ∧ c1 = chU then o.ofLong 10 false 1 ap
  else if c0 = chL ∧ c1 = chL ∧ c2 = chU then o.ofLong 10 false 2 ap
  else if c0 = chX then o.ofInt 16 false 0 ap
  else if c0 = chL ∧ c1 = chX then o.ofLong 16 false 1 ap
  else if c0 = chL ∧ c1 = chL ∧ c2 = chX then o.ofLong 16 false 2 ap
  else if c0 = chP then do
    let (v, ap) ← argLong ap
    return (o.ptr v, ap, 0)
  else if c0 = chS then do
    let (s, ap) ← argStr ap
    return (s.getD null, ap, 0)
  else if c0 = percent then return ([percent], ap, 0)
  else return ([percent, c0], ap, 0)

/-! ## The kernel -/

namespace Kernel

def digits : List UInt8 := decimals ++ [0x61, 0x62, 0x63, 0x64, 0x65, 0x66]

@[grind] def printint (xx : BitVec 64) (base : Nat) (sign : Bool) : Except Fault (List UInt8) := printintAt digits xx base sign

def printptr (x : BitVec 64) : List UInt8 := printptrWith digits x

/-- An `int` is sign-extended to the parameter of `printint`, whatever the directive. -/
def calls : Calls where
  int v := printint (v.signExtend 64)
  long v := printint v
  ptr := printptr

def printfFrom (fmt : List UInt8) : Nat → Nat → List Arg → Except Fault (List (List UInt8))
  | 0, _, _ => .error .fuel
  | fuel + 1, i, ap =>
    let cx := fmt.getD i 0
    if cx = 0 then return []
    else if cx ≠ percent then do
      return [cx] :: (← printfFrom fmt fuel (i + 1) ap)
    else
      let i := i + 1
      let c0 := fmt.getD i 0
      let c1 := if c0 ≠ 0 then fmt.getD (i + 1) 0 else 0
      let c2 := if c1 ≠ 0 then fmt.getD (i + 2) 0 else 0
      -- `else if(c0 == 0) break;`, which no branch before it takes
      if c0 = 0 then return []
      else do
        let (out, ap, skip) ← directive calls c0 c1 c2 ap
        return out :: (← printfFrom fmt fuel (i + skip + 1) ap)

def printf (fmt : List UInt8) (ap : List Arg) : Except Fault (List (List UInt8)) := printfFrom fmt (fmt.length + 1) 0 ap

end Kernel

/-! ## The user library -/

namespace User

def digits : List UInt8 := decimals ++ [0x41, 0x42, 0x43, 0x44, 0x45, 0x46]

def printint (xx : BitVec 32) (base : Nat) (sgn : Bool) : Except Fault (List UInt8) := printintAt digits xx base sgn

def printptr (x : BitVec 64) : List UInt8 := printptrWith digits x

/-- A `uint64` loses its high half in the parameter of `printint`. -/
def calls : Calls where
  int v := printint v
  long v := printint (v.setWidth 32)
  ptr := printptr

/-- The loop over the format; `state` is 0 or '%'. -/
def vprintfFrom (fmt : List UInt8) : Nat → Nat → UInt8 → List Arg → Except Fault (List (List UInt8))
  | 0, _, _, _ => .error .fuel
  | fuel + 1, i, state, ap =>
    let c0 := fmt.getD i 0
    if c0 = 0 then return []
    else if state = 0 then
      if c0 = percent then vprintfFrom fmt fuel (i + 1) percent ap
      else do
        return [c0] :: (← vprintfFrom fmt fuel (i + 1) 0 ap)
    else if state = percent then do
      let c1 := if c0 ≠ 0 then fmt.getD (i + 1) 0 else 0
      let c2 := if c1 ≠ 0 then fmt.getD (i + 2) 0 else 0
      let (out, ap, skip) ← directive calls c0 c1 c2 ap
      return out :: (← vprintfFrom fmt fuel (i + skip + 1) 0 ap)
    else vprintfFrom fmt fuel (i + 1) state ap

def vprintf (fmt : List UInt8) (ap : List Arg) : Except Fault (List (List UInt8)) :=
  vprintfFrom fmt (fmt.length + 1) 0 0 ap

end User

end Xv6.Printf
