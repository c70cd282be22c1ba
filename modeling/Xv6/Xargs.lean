/-
  Xv6.Xargs — the commands that xargs runs (user/xargs.c, and gets of user/ulib.c).

  The standard input is what is left of a stream that all processes share. A process runs the
  loop of `main`; the child that could not `exec` goes on with it, and its parent is in `wait`
  until the child is at its end. What the processes do is a list of events. `execs k` says
  whether call `k` of `exec` replaces the child. `fork` does not fail, and the programs that
  are started do not read the standard input.
-/

import Xv6.Param
import Xv6.Lib.Lines
import Mathlib.Data.List.Forall2
import Mathlib.Data.List.TakeWhile

namespace Xv6.Xargs

def newline : UInt8 := 0x0a

def cr : UInt8 := 0x0d

/-! ## The program -/

/-- A word of `command_argv`. -/
inductive Ptr where
  | null
  /-- A pointer to a string of the caller's `argv`. -/
  | str (s : List UInt8)
  /-- A pointer to `line`. -/
  | line
  /-- Any other word that was on the stack; 0 is `null`. -/
  | stale (p : { p : Nat // p ≠ 0 })
  deriving DecidableEq, Repr

/-- One call of `exec`: by a child `depth` forks below the first process, with the array and the string in `line`. -/
structure Call where
  depth : Nat
  path : List UInt8
  argv : List Ptr
  line : List UInt8
  deriving DecidableEq, Repr

inductive Event where
  /-- A process takes these bytes of the input, in one `gets`. -/
  | gets (depth : Nat) (bytes : List UInt8)
  | exec (c : Call)
  deriving DecidableEq, Repr

/-- The loop of `gets`, for at most `n` bytes: what goes to the buffer, and the rest of the input. -/
def getsFrom : Nat → List UInt8 → List UInt8 × List UInt8
  | 0, input => ([], input)
  | _ + 1, [] => ([], [])
  | n + 1, c :: input =>
    if c = newline ∨ c = cr then ([c], input)
    else
      let (buf, rest) := getsFrom n input
      (c :: buf, rest)

def gets (max : Nat) (input : List UInt8) : List UInt8 × List UInt8 := getsFrom (max - 1) input

def linesize : Nat := 32

def strip (buf : List UInt8) : List UInt8 := buf.takeWhile (· != 0)

def chomp (line : List UInt8) : List UInt8 :=
  if line.getLast? = some newline ∨ line.getLast? = some cr then line.dropLast else line

/-- What the loop leaves: the events, the calls of `exec` so far, and the rest of the input. -/
structure Result where
  events : List Event
  calls : Nat
  rest : List UInt8

/-- The loop of a process `depth` forks below the first, for at most `n` rounds. -/
def loop (argc : Nat) (command : List UInt8) (execs : Nat → Bool) : Nat → Nat → List Ptr → Nat → List UInt8 → Result
  | 0, _, _, k, input => ⟨[], k, input⟩
  | n + 1, depth, argv, k, input =>
    let (buf, rest) := gets linesize input
    let line := strip buf
    if line = [] then ⟨[.gets depth buf], k, rest⟩
    else
      let argv := argv.set (argc - 1) .line
      -- the child fails to `exec` and takes up the loop; the parent waits for it
      let child := if execs k then ⟨[], k + 1, rest⟩ else loop argc command execs n (depth + 1) argv (k + 1) rest
      let parent := loop argc command execs n depth argv child.calls child.rest
      ⟨.gets depth buf :: .exec ⟨depth + 1, command, argv, chomp line⟩ :: child.events ++ parent.events, parent.calls,
        parent.rest⟩

/-- `for(i = 2; i < argc; i++) command_argv[i-1] = argv[i]`. -/
def setArgs : Nat → List (List UInt8) → List Ptr → List Ptr
  | _, [], argv => argv
  | i, a :: as, argv => setArgs (i + 1) as (argv.set i (.str a))

/-- `main` with `argv[1] = command` and the arguments `more`, where the array was `stack` before. -/
def main (command : List UInt8) (more : List (List UInt8)) (stack : List Ptr) (execs : Nat → Bool) (input : List UInt8) :
    List Event :=
  let argc := more.length + 2
  let argv := setArgs 1 more (stack.set 0 (.str command))
  (loop argc command execs (input.length + 1) 0 argv 0 input).events

/-! ## What it is for -/

/-- The lines of the input, the last one possibly without newline. -/
def lines (s : List UInt8) : List (List UInt8) :=
  Lib.terminated newline s ++ if Lib.remainder newline s = [] then [] else [Lib.remainder newline s]

def calls (es : List Event) : List Call := es.filterMap fun
  | .exec c => some c
  | .gets .. => none

/-- The right call for a line: of a child of the first process, with the arguments, the line and a null pointer. -/
structure Right (command : List UInt8) (more : List (List UInt8)) (c : Call) (l : List UInt8) : Prop where
  depth : c.depth = 1
  path : c.path = command
  argv : c.argv.take (more.length + 3) = .str command :: more.map .str ++ [.line, .null]
  line : c.line = l

/-- The command is run once per line, in order, and only the first process takes input. -/
structure RunsEachLine (command : List UInt8) (more : List (List UInt8)) (input : List UInt8) (es : List Event) : Prop where
  calls : List.Forall₂ (Right command more) (calls es) (lines input)
  parent : ∀ d bytes, .gets d bytes ∈ es → bytes ≠ [] → d = 0

/-- The lines fit in the buffer, with their newline if they have one, and have no '\r'. -/
structure Fits (input : List UInt8) : Prop where
  cr : cr ∉ input
  terminated : ∀ l ∈ Lib.terminated newline input, l.length + 2 ≤ linesize
  remainder : (Lib.remainder newline input).length + 1 ≤ linesize

/-! ## Lines -/

section

variable {l r s : List UInt8}

theorem lines_last (h : newline ∉ s) : lines s = if s = [] then [] else [s] := by
  simp only [lines, Lib.terminated_of_not_mem h, Lib.remainder_of_not_mem h, List.nil_append]

theorem lines_line (h : newline ∉ l) : lines (l ++ newline :: r) = l :: lines r := by
  simp only [lines, Lib.terminated_line h, Lib.remainder_line h, List.cons_append]

theorem lines_ne_nil (h : s ≠ []) : lines s ≠ [] := by
  cases Lib.line_cases newline s with
  | inl hs =>
    rw [lines_last hs, if_neg h]
    simp
  | inr hs =>
    obtain ⟨l, r, rfl, hl⟩ := hs
    rw [lines_line hl]
    simp

theorem fits_line (h : newline ∉ l) :
    Fits (l ++ newline :: r) ↔ (Xargs.cr ∉ l ∧ l.length + 2 ≤ linesize) ∧ Fits r := by
  constructor
  · intro ⟨hcr, ht, hr⟩
    rw [Lib.terminated_line h] at ht
    rw [Lib.remainder_line h] at hr
    simp only [List.mem_append, List.mem_cons, not_or] at hcr
    exact ⟨⟨hcr.1, ht l (List.mem_cons_self ..)⟩, hcr.2.2, fun l' hl' => ht l' (List.mem_cons_of_mem _ hl'), hr⟩
  · intro ⟨⟨hcr, hlen⟩, hr⟩
    refine ⟨?_, ?_, ?_⟩
    · simp only [List.mem_append, List.mem_cons, not_or]
      exact ⟨hcr, by decide, hr.cr⟩
    · rw [Lib.terminated_line h]
      intro l' hl'
      cases hl' with
      | head => exact hlen
      | tail _ hl' => exact hr.terminated l' hl'
    · rw [Lib.remainder_line h]
      exact hr.remainder

theorem fits_last (h : newline ∉ s) : Fits s ↔ Xargs.cr ∉ s ∧ s.length + 1 ≤ linesize := by
  constructor
  · intro hf
    have := hf.remainder
    rw [Lib.remainder_of_not_mem h] at this
    exact ⟨hf.cr, this⟩
  · intro ⟨hcr, hlen⟩
    refine ⟨hcr, ?_, ?_⟩
    · rw [Lib.terminated_of_not_mem h]
      exact fun _ hl => absurd hl List.not_mem_nil
    · rwa [Lib.remainder_of_not_mem h]

theorem fits_nil : Fits [] := (fits_last List.not_mem_nil).mpr ⟨List.not_mem_nil, by decide⟩

end

/-! ## gets -/

/-- What `gets` leaves in the buffer: a text without '\n' and '\r', and the one it stopped at if there was room. -/
structure Got (n : Nat) (input text stop rest : List UInt8) : Prop where
  run : getsFrom n input = (text ++ stop, rest)
  split : input = text ++ stop ++ rest
  plain : newline ∉ text ∧ cr ∉ text
  kind : stop = [] ∨ stop = [newline] ∨ stop = [cr]
  room : text.length + stop.length ≤ n
  full : stop = [] → rest ≠ [] → text.length = n

theorem got (n : Nat) (input : List UInt8) : ∃ text stop rest, Got n input text stop rest := by
  induction n generalizing input with
  | zero => exact ⟨[], [], input, rfl, rfl, ⟨List.not_mem_nil, List.not_mem_nil⟩, .inl rfl, Nat.le_refl _, fun _ _ => rfl⟩
  | succ n ih =>
    cases input with
    | nil =>
      exact ⟨[], [], [], rfl, rfl, ⟨List.not_mem_nil, List.not_mem_nil⟩, .inl rfl, Nat.zero_le _, fun _ h => absurd rfl h⟩
    | cons c input =>
      by_cases hc : c = newline ∨ c = cr
      · refine ⟨[], [c], input, if_pos hc, rfl, ⟨List.not_mem_nil, List.not_mem_nil⟩, ?_, by simp, nofun⟩
        cases hc with
        | inl hc => exact .inr (.inl (by rw [hc]))
        | inr hc => exact .inr (.inr (by rw [hc]))
      · obtain ⟨text, stop, rest, h⟩ := ih input
        refine ⟨c :: text, stop, rest, ?_, ?_, ?_, h.kind, ?_, ?_⟩
        · rw [getsFrom, if_neg hc, h.run]
          rfl
        · exact congrArg (c :: ·) h.split
        · rw [not_or] at hc
          exact ⟨List.not_mem_cons_of_ne_of_not_mem (Ne.symm hc.1) h.plain.1,
            List.not_mem_cons_of_ne_of_not_mem (Ne.symm hc.2) h.plain.2⟩
        · have := h.room
          simp only [List.length_cons]
          omega
        · intro hs hr
          simp only [List.length_cons, h.full hs hr]

theorem getsFrom_line {n : Nat} {l r : List UInt8} (hl : newline ∉ l) (hcr : cr ∉ l) (hn : l.length < n) :
    getsFrom n (l ++ newline :: r) = (l ++ [newline], r) := by
  induction l generalizing n with
  | nil =>
    obtain ⟨n, rfl⟩ := Nat.exists_eq_add_one.mpr hn
    rfl
  | cons c l ih =>
    obtain ⟨n, rfl⟩ := Nat.exists_eq_add_one.mpr (Nat.zero_lt_of_lt hn)
    rw [List.mem_cons, not_or] at hl hcr
    have hc : ¬ (c = newline ∨ c = cr) := not_or.mpr ⟨Ne.symm hl.1, Ne.symm hcr.1⟩
    rw [List.cons_append, getsFrom, if_neg hc, ih hl.2 hcr.2 (Nat.lt_of_succ_lt_succ hn)]
    rfl

theorem getsFrom_last {n : Nat} {s : List UInt8} (hs : newline ∉ s) (hcr : cr ∉ s) (hn : s.length ≤ n) :
    getsFrom n s = (s, []) := by
  induction s generalizing n with
  | nil => cases n <;> rfl
  | cons c s ih =>
    obtain ⟨n, rfl⟩ := Nat.exists_eq_add_one.mpr (Nat.zero_lt_of_lt hn)
    rw [List.mem_cons, not_or] at hs hcr
    have hc : ¬ (c = newline ∨ c = cr) := not_or.mpr ⟨Ne.symm hs.1, Ne.symm hcr.1⟩
    rw [getsFrom, if_neg hc, ih hs.2 hcr.2 (Nat.le_of_succ_le_succ hn)]

theorem chomp_got {n : Nat} {input text stop rest : List UInt8} (h : Got n input text stop rest) :
    chomp (text ++ stop) = text := by
  unfold chomp
  obtain hs | hs | hs := h.kind
  · rw [hs, List.append_nil, if_neg]
    rintro (hl | hl)
    · exact h.plain.1 (List.mem_of_getLast? hl)
    · exact h.plain.2 (List.mem_of_getLast? hl)
  · rw [hs, if_pos (.inl (by simp)), List.dropLast_concat]
  · rw [hs, if_pos (.inr (by simp)), List.dropLast_concat]

/-! ## The loop -/

/-- The bytes that the processes take of the input, with who takes them. -/
def takes (es : List Event) : List (Nat × List UInt8) := es.filterMap fun
  | .gets d bytes => if bytes = [] then none else some (d, bytes)
  | .exec _ => none

theorem calls_append (es es' : List Event) : calls (es ++ es') = calls es ++ calls es' := List.filterMap_append

theorem takes_append (es es' : List Event) : takes (es ++ es') = takes es ++ takes es' := List.filterMap_append

theorem mem_takes {es : List Event} {d : Nat} {bytes : List UInt8} :
    (d, bytes) ∈ takes es ↔ .gets d bytes ∈ es ∧ bytes ≠ [] := by
  unfold takes
  rw [List.mem_filterMap]
  constructor
  · intro ⟨e, he, h⟩
    cases e with
    | exec c => cases h
    | gets d' bytes' =>
      simp only at h
      split at h
      · cases h
      · cases h
        exact ⟨he, ‹_›⟩
  · intro ⟨he, hne⟩
    exact ⟨_, he, if_neg hne⟩

section

variable (argc : Nat) (command : List UInt8) (execs : Nat → Bool) (n d : Nat) (argv : List Ptr) (k : Nat) {input : List UInt8}

theorem loop_nil : let r := loop argc command execs n d argv k []
    r.rest = [] ∧ calls r.events = [] ∧ takes r.events = [] := by
  cases n <;> exact ⟨rfl, rfl, rfl⟩

/-- One round, while there is input: what is in the buffer, and what the child and the parent do then. -/
theorem loop_succ (h0 : 0 ∉ input) (hne : input ≠ []) : ∃ text stop rest, Got (linesize - 1) input text stop rest ∧
    text ++ stop ≠ [] ∧ let argv' := argv.set (argc - 1) .line
    let child := if execs k then ⟨[], k + 1, rest⟩ else loop argc command execs n (d + 1) argv' (k + 1) rest
    let parent := loop argc command execs n d argv' child.calls child.rest
    loop argc command execs (n + 1) d argv k input =
      ⟨.gets d (text ++ stop) :: .exec ⟨d + 1, command, argv', text⟩ :: child.events ++ parent.events,
        parent.calls, parent.rest⟩ := by
  obtain ⟨text, stop, rest, h⟩ := got (linesize - 1) input
  have hbytes : text ++ stop ≠ [] := by
    intro he
    obtain ⟨rfl, rfl⟩ := List.append_eq_nil_iff.mp he
    have hrest := h.split
    rw [List.append_nil, List.nil_append] at hrest
    exact absurd (h.full rfl (hrest ▸ hne)) (by decide)
  have hstrip : strip (text ++ stop) = text ++ stop := by
    apply List.takeWhile_eq_self_iff.mpr
    intro c hc
    apply bne_iff_ne.mpr
    intro e
    apply h0
    rw [h.split, ← e]
    exact List.mem_append_left _ hc
  refine ⟨text, stop, rest, h, hbytes, ?_⟩
  rw [loop]
  simp only [gets, h.run, hstrip, if_neg hbytes, chomp_got h]

variable {argc command execs n d argv k}

theorem Got.rest_lt {m : Nat} {text stop rest : List UInt8} (h : Got m input text stop rest) (hb : text ++ stop ≠ []) :
    rest.length < input.length := by
  have := List.length_pos_iff.mpr hb
  rw [h.split, List.length_append]
  omega

theorem Got.rest_zero {m : Nat} {text stop rest : List UInt8} (h : Got m input text stop rest) (h0 : 0 ∉ input) : 0 ∉ rest :=
  fun hm => h0 (h.split ▸ List.mem_append_right _ hm)

theorem loop_rest (h0 : 0 ∉ input) (hn : input.length < n) : (loop argc command execs n d argv k input).rest = [] := by
  induction n generalizing d argv k input with
  | zero => omega
  | succ n ih =>
    by_cases hne : input = []
    · rw [hne]
      exact (loop_nil ..).1
    · obtain ⟨text, stop, rest, h, hb, heq⟩ := loop_succ argc command execs n d argv k h0 hne
      have hlt := h.rest_lt hb
      rw [heq]
      by_cases he : execs k
      · simp only [if_pos he]
        exact ih (h.rest_zero h0) (by omega)
      · simp only [if_neg he]
        rw [ih (h.rest_zero h0) (by omega)]
        exact (loop_nil ..).1

variable (argc command execs n d argv k) in
/-- One round, as the calls and the takers see it: one process goes on, the child if its `exec` has failed. -/
theorem loop_round (h0 : 0 ∉ input) (hne : input ≠ []) (hn : input.length ≤ n) :
    ∃ text stop rest, Got (linesize - 1) input text stop rest ∧ text ++ stop ≠ [] ∧
      let argv' := argv.set (argc - 1) .line
      let es := (loop argc command execs (n + 1) d argv k input).events
      let next := (loop argc command execs n (if execs k then d else d + 1) argv' (k + 1) rest).events
      calls es = ⟨d + 1, command, argv', text⟩ :: calls next ∧ takes es = (d, text ++ stop) :: takes next := by
  obtain ⟨text, stop, rest, h, hb, heq⟩ := loop_succ argc command execs n d argv k h0 hne
  refine ⟨text, stop, rest, h, hb, ?_⟩
  have hlt := h.rest_lt hb
  have hcalls : ∀ b c es, calls (.gets d b :: .exec c :: es) = c :: calls es := fun _ _ _ => rfl
  have htakes : ∀ c es, takes (.gets d (text ++ stop) :: .exec c :: es) = (d, text ++ stop) :: takes es := by
    intro c es
    simp only [takes, List.filterMap_cons, if_neg hb]
  rw [heq]
  by_cases he : execs k
  · simp only [if_pos he, List.cons_append, List.nil_append, hcalls, htakes, and_self]
  · have hrest : (loop argc command execs n (d + 1) (argv.set (argc - 1) .line) (k + 1) rest).rest = [] :=
      loop_rest (h.rest_zero h0) (by omega)
    obtain ⟨-, hc, ht⟩ := loop_nil argc command execs n d (argv.set (argc - 1) .line)
      (loop argc command execs n (d + 1) (argv.set (argc - 1) .line) (k + 1) rest).calls
    simp only [if_neg he, hrest, List.cons_append, hcalls, htakes, calls_append, takes_append, hc, ht, List.append_nil, and_self]

/-! ## Lines and rounds -/

theorem Got.lines_le {m : Nat} {text stop rest : List UInt8} (h : Got m input text stop rest) :
    (lines input).length ≤ (lines rest).length + 1 := by
  by_cases hs : stop = [newline]
  · rw [h.split, hs, List.append_assoc, List.singleton_append, lines_line h.plain.1, List.length_cons]
  · have hnl : newline ∉ text ++ stop := by
      rw [List.mem_append, not_or]
      refine ⟨h.plain.1, ?_⟩
      obtain h' | h' | h' := h.kind
      · rw [h']
        exact List.not_mem_nil
      · exact absurd h' hs
      · rw [h']
        decide
    rw [h.split]
    cases Lib.line_cases newline rest with
    | inl hr =>
      rw [lines_last (by rw [List.mem_append, not_or]; exact ⟨hnl, hr⟩)]
      split <;> simp
    | inr hr =>
      obtain ⟨l, r, rfl, hl⟩ := hr
      rw [← List.append_assoc, lines_line hl, lines_line (by rw [List.mem_append, not_or]; exact ⟨hnl, hl⟩)]
      simp

theorem lines_le_calls (h0 : 0 ∉ input) (hn : input.length < n) :
    (lines input).length ≤ (calls (loop argc command execs n d argv k input).events).length := by
  induction n generalizing d argv k input with
  | zero => omega
  | succ n ih =>
    by_cases hne : input = []
    · rw [hne]
      exact Nat.zero_le _
    · obtain ⟨text, stop, rest, h, hb, hc, -⟩ := loop_round argc command execs n d argv k h0 hne (Nat.le_of_lt_succ hn)
      have hlt := h.rest_lt hb
      rw [hc, List.length_cons]
      calc (lines input).length
        _ ≤ (lines rest).length + 1 := h.lines_le
        _ ≤ _ := Nat.add_le_add_right (ih (h.rest_zero h0) (by omega)) 1

section

variable {text stop rest l r : List UInt8} (h : Got (linesize - 1) (l ++ newline :: r) text stop rest)
include h

theorem Got.of_line (hl : newline ∉ l) (hcr : cr ∉ l) (hlen : l.length + 2 ≤ linesize) : text = l ∧ rest = r := by
  have hrun : getsFrom (linesize - 1) (l ++ newline :: r) = (l ++ [newline], r) := getsFrom_line hl hcr (by omega)
  obtain ⟨hbuf, hrest⟩ := Prod.mk.inj (h.run.symm.trans hrun)
  refine ⟨?_, hrest⟩
  have := chomp_got h
  rw [hbuf, chomp, if_pos (.inl (by simp)), List.dropLast_concat] at this
  exact this.symm

/-- What it takes of a line that does not fit is not the line, or it leaves the newline. -/
theorem Got.not_line (hbad : ¬ (cr ∉ l ∧ l.length + 2 ≤ linesize)) (ht : text = l) : rest = newline :: r := by
  have hlen : ¬ l.length + 2 ≤ linesize := fun hlen => hbad ⟨ht ▸ h.plain.2, hlen⟩
  have hroom := h.room
  rw [ht] at hroom
  have hstop : stop = [] := List.eq_nil_of_length_eq_zero (by omega)
  have hsplit := h.split
  rw [ht, hstop, List.append_nil] at hsplit
  exact (List.append_cancel_left hsplit).symm

end

theorem Got.of_last {text stop rest : List UInt8} (h : Got (linesize - 1) input text stop rest) (hl : newline ∉ input)
    (hcr : cr ∉ input) (hlen : input.length + 1 ≤ linesize) : text = input ∧ rest = [] := by
  have hrun : getsFrom (linesize - 1) input = (input, []) := getsFrom_last hl hcr (by omega)
  obtain ⟨hbuf, hrest⟩ := Prod.mk.inj (h.run.symm.trans hrun)
  refine ⟨?_, hrest⟩
  have hplain : stop = [] := by
    obtain h' | h' | h' := h.kind
    · exact h'
    · rw [h'] at hbuf
      exact absurd (hbuf ▸ List.mem_append_right _ (List.mem_cons_self ..)) hl
    · rw [h'] at hbuf
      exact absurd (hbuf ▸ List.mem_append_right _ (List.mem_cons_self ..)) hcr
  rw [← hbuf, hplain, List.append_nil]

end

/-! ## The arguments -/

section

variable {command : List UInt8} {more : List (List UInt8)} {argv stack : List Ptr}

/-- The array has the command and its arguments, and room for the line and a null pointer. -/
structure Args (command : List UInt8) (more : List (List UInt8)) (argv : List Ptr) : Prop where
  strings : argv.take (more.length + 1) = .str command :: more.map .str
  room : more.length + 2 < argv.length

/-- The word after the line is null. -/
def Ends (more : List (List UInt8)) (argv : List Ptr) : Prop := argv[more.length + 2]? = some .null

theorem Args.set (h : Args command more argv) : Args command more (argv.set (more.length + 1) .line) := by
  refine ⟨?_, ?_⟩
  · rw [List.take_set_of_le (Nat.le_refl _), h.strings]
  · rw [List.length_set]
    exact h.room

theorem ends_set : Ends more (argv.set (more.length + 1) .line) ↔ Ends more argv := by
  unfold Ends
  rw [List.getElem?_set_ne (by omega)]

theorem right_iff (h : Args command more argv) {text l : List UInt8} :
    Right command more ⟨1, command, argv.set (more.length + 1) .line, text⟩ l ↔ Ends more argv ∧ text = l := by
  have hroom := h.room
  have htake : (argv.set (more.length + 1) .line).take (more.length + 3) =
      .str command :: more.map .str ++ [.line, argv[more.length + 2]] := by
    rw [List.take_add_one, List.take_add_one, List.take_set_of_le (Nat.le_refl _), h.strings]
    rw [List.getElem?_set_self (by omega), List.getElem?_set_ne (by omega), List.getElem?_eq_getElem hroom]
    simp
  have hends : Ends more argv ↔ argv[more.length + 2] = .null := by
    rw [Ends, List.getElem?_eq_getElem hroom, Option.some_inj]
  constructor
  · intro hr
    have := hr.argv
    simp only [htake] at this
    refine ⟨hends.mpr ?_, hr.line⟩
    simpa using this
  · intro ⟨he, ht⟩
    refine ⟨rfl, rfl, ?_, ht⟩
    rw [htake, hends.mp he]

theorem setArgs_eq {i : Nat} {as : List (List UInt8)} (h : i + as.length ≤ argv.length) :
    setArgs i as argv = argv.take i ++ as.map .str ++ argv.drop (i + as.length) := by
  induction as generalizing i argv with
  | nil => simp [setArgs]
  | cons a as ih =>
    rw [List.length_cons] at h
    rw [setArgs, ih (by rw [List.length_set]; omega), List.take_add_one, List.take_set_of_le (Nat.le_refl _)]
    rw [List.getElem?_set_self (by omega), List.drop_set_of_lt (by omega)]
    simp only [Option.toList_some, List.append_assoc, List.cons_append, List.nil_append, List.map_cons, List.length_cons]
    rw [Nat.add_right_comm, Nat.add_assoc]

theorem args_setArgs (command : List UInt8) (h : more.length + 2 < stack.length) :
    Args command more (setArgs 1 more (stack.set 0 (.str command))) ∧
    (Ends more (setArgs 1 more (stack.set 0 (.str command))) ↔ Ends more stack) := by
  obtain ⟨p, stack, rfl⟩ := List.exists_cons_of_ne_nil (List.ne_nil_of_length_pos (by omega : 0 < stack.length))
  rw [List.length_cons] at h
  rw [List.set_cons_zero, setArgs_eq (by rw [List.length_cons]; omega)]
  refine ⟨⟨?_, ?_⟩, ?_⟩
  · simp
  · simp only [List.length_append, List.length_drop, List.length_map, List.length_cons, List.take_succ_cons, List.take_zero,
      List.length_nil]
    omega
  · unfold Ends
    rw [List.getElem?_append_right (by simp), List.getElem?_drop]
    simp [Nat.add_comm 1]

end

/-! ## The whole run -/

section

variable {command : List UInt8} {more : List (List UInt8)} {execs : Nat → Bool} {n k : Nat} {argv : List Ptr}
  {input text stop rest l r : List UInt8}

/-- What the first process should do with the input, for the calls and the takers of a run. -/
def Good (command : List UInt8) (more : List (List UInt8)) (es : List Event) (input : List UInt8) : Prop :=
  List.Forall₂ (Right command more) (calls es) (lines input) ∧ ∀ x ∈ takes es, x.1 = 0

/-- When it does that: the next calls of `exec` are from `k` on. -/
def Allowed (more : List (List UInt8)) (argv : List Ptr) (execs : Nat → Bool) (k : Nat) (input : List UInt8) : Prop :=
  (input = [] ∨ Ends more argv) ∧ Fits input ∧ ∀ i, i + 1 < (lines input).length → execs (k + i) = true

/-- What happens after a round of the first process that has left `rest`: it goes on, or the child does. -/
def after (command : List UInt8) (more : List (List UInt8)) (execs : Nat → Bool) (n : Nat) (argv : List Ptr) (k : Nat)
    (rest : List UInt8) : List Event :=
  (loop (more.length + 2) command execs n (if execs k then 0 else 1) (argv.set (more.length + 1) .line) (k + 1) rest).events

theorem not_good_child (h0 : 0 ∉ r) (hn : r.length < n) (hr : r ≠ []) :
    ¬ ∀ x ∈ takes (loop (more.length + 2) command execs n 1 argv k r).events, x.1 = 0 := by
  intro h
  obtain ⟨n, rfl⟩ := Nat.exists_eq_add_one.mpr (Nat.zero_lt_of_lt hn)
  obtain ⟨text, stop, rest, -, -, -, ht⟩ := loop_round (more.length + 2) command execs n 1 argv k h0 hr (Nat.le_of_lt_succ hn)
  rw [ht] at h
  exact absurd (h _ (List.mem_cons_self ..)) Nat.one_ne_zero

theorem allowed_line (hl : newline ∉ l) (hfit : cr ∉ l ∧ l.length + 2 ≤ linesize) :
    Allowed more argv execs k (l ++ newline :: r) ↔
      Ends more argv ∧ (r ≠ [] → execs k = true) ∧ Fits r ∧ ∀ i, i + 1 < (lines r).length → execs (k + 1 + i) = true := by
  unfold Allowed
  rw [fits_line hl, lines_line hl, List.length_cons]
  constructor
  · intro ⟨he, ⟨_, hf⟩, hx⟩
    refine ⟨he.resolve_left (by simp), ?_, hf, ?_⟩
    · intro hr
      exact hx 0 (Nat.succ_lt_succ (List.length_pos_iff.mpr (lines_ne_nil hr)))
    · intro i hi
      have := hx (i + 1) (Nat.succ_lt_succ hi)
      rwa [Nat.add_comm i 1, ← Nat.add_assoc] at this
  · intro ⟨he, hk, hf, hx⟩
    refine ⟨.inr he, ⟨hfit, hf⟩, ?_⟩
    intro i hi
    cases i with
    | zero =>
      apply hk
      intro hr
      rw [hr] at hi
      exact absurd hi (by decide)
    | succ i =>
      rw [Nat.add_comm i 1, ← Nat.add_assoc]
      exact hx i (Nat.lt_of_succ_lt_succ hi)

theorem good_line (hargv : Args command more argv) (h0 : 0 ∉ r) (hn : r.length < n) (hl : newline ∉ l) (ht : text = l)
    {es : List Event} (hfit : cr ∉ l ∧ l.length + 2 ≤ linesize)
    (hcalls : calls es =
      ⟨1, command, argv.set (more.length + 1) .line, text⟩ :: calls (after command more execs n argv k r))
    (htakes : takes es = (0, text ++ stop) :: takes (after command more execs n argv k r))
    (ih : Good command more (loop (more.length + 2) command execs n 0 (argv.set (more.length + 1) .line) (k + 1) r).events r ↔
      Allowed more (argv.set (more.length + 1) .line) execs (k + 1) r) :
    Good command more es (l ++ newline :: r) ↔ Allowed more argv execs k (l ++ newline :: r) := by
  rw [allowed_line hl hfit]
  unfold Good
  unfold after at hcalls htakes
  rw [hcalls, htakes, lines_line hl, List.forall₂_cons, right_iff hargv, List.forall_mem_cons]
  by_cases hx : execs k = true
  · rw [if_pos hx]
    unfold Good Allowed at ih
    rw [ends_set] at ih
    constructor
    · intro ⟨⟨⟨he, _⟩, hc⟩, _, htk⟩
      exact ⟨he, fun _ => hx, (ih.mp ⟨hc, htk⟩).2⟩
    · intro ⟨he, _, hf, hi⟩
      obtain ⟨hc, htk⟩ := ih.mpr ⟨.inr he, hf, hi⟩
      exact ⟨⟨⟨he, ht⟩, hc⟩, rfl, htk⟩
  · rw [if_neg hx]
    by_cases hr : r = []
    · obtain ⟨-, hc, htk⟩ := loop_nil (more.length + 2) command execs n 1 (argv.set (more.length + 1) .line) (k + 1)
      rw [hr, hc, htk]
      constructor
      · intro ⟨⟨⟨he, _⟩, _⟩, _⟩
        exact ⟨he, fun h => absurd rfl h, fits_nil, fun i hi => absurd hi (Nat.not_lt_zero _)⟩
      · intro ⟨he, _⟩
        exact ⟨⟨⟨he, ht⟩, .nil⟩, rfl, fun _ h => absurd h List.not_mem_nil⟩
    · constructor
      · intro ⟨_, _, htk⟩
        exact absurd htk (not_good_child h0 hn hr)
      · intro ⟨_, hk, _⟩
        exact absurd (hk hr) hx

theorem good_last (hargv : Args command more argv) (hl : newline ∉ input) (hne : input ≠ [])
    (h : Got (linesize - 1) input text stop rest) {es : List Event}
    (hcalls : calls es =
      ⟨1, command, argv.set (more.length + 1) .line, text⟩ :: calls (after command more execs n argv k rest))
    (htakes : takes es = (0, text ++ stop) :: takes (after command more execs n argv k rest)) :
    Good command more es input ↔ Allowed more argv execs k input := by
  unfold Good Allowed
  rw [hcalls, htakes, lines_last hl, if_neg hne, fits_last hl, List.forall₂_cons, right_iff hargv, List.forall_mem_cons]
  constructor
  · intro ⟨⟨⟨he, ht⟩, _⟩, _⟩
    have hroom := h.room
    have hplain := h.plain.2
    rw [ht] at hroom hplain
    simp only [linesize] at hroom ⊢
    exact ⟨.inr he, ⟨hplain, by omega⟩, fun i hi => absurd hi (by simp)⟩
  · intro ⟨he, hfit, _⟩
    obtain ⟨ht, rfl⟩ := h.of_last hl hfit.1 hfit.2
    obtain ⟨-, hc, htk⟩ := loop_nil (more.length + 2) command execs n (if execs k then 0 else 1)
      (argv.set (more.length + 1) .line) (k + 1)
    unfold after
    rw [hc, htk]
    exact ⟨⟨⟨he.resolve_left hne, ht⟩, .nil⟩, rfl, fun _ hx => absurd hx List.not_mem_nil⟩

theorem loop_good_iff (hargv : Args command more argv) (h0 : 0 ∉ input) (hn : input.length < n) :
    Good command more (loop (more.length + 2) command execs n 0 argv k input).events input ↔ Allowed more argv execs k input := by
  induction n generalizing argv k input with
  | zero => omega
  | succ n ih =>
    by_cases hne : input = []
    · obtain ⟨-, hc, htk⟩ := loop_nil (more.length + 2) command execs (n + 1) 0 argv k
      rw [hne, Good, hc, htk]
      constructor
      · intro _
        exact ⟨.inl rfl, fits_nil, fun i hi => absurd hi (Nat.not_lt_zero _)⟩
      · intro _
        exact ⟨.nil, fun _ h => absurd h List.not_mem_nil⟩
    · obtain ⟨text, stop, rest, h, hb, hc, ht⟩ :=
        loop_round (more.length + 2) command execs n 0 argv k h0 hne (Nat.le_of_lt_succ hn)
      have hlt := h.rest_lt hb
      obtain hl | ⟨l, r, rfl, hl⟩ := Lib.line_cases newline input
      · exact good_last hargv hl hne h hc ht
      · by_cases hfit : cr ∉ l ∧ l.length + 2 ≤ linesize
        · obtain ⟨htext, rfl⟩ := h.of_line hl hfit.1 hfit.2
          exact good_line hargv (h.rest_zero h0) (by omega) hl htext hfit hc ht (ih hargv.set (h.rest_zero h0) (by omega))
        · constructor
          · intro ⟨hcalls, _⟩
            rw [hc, lines_line hl] at hcalls
            cases hcalls with
            | cons hright hcalls =>
              have hrest := h.not_line hfit hright.line
              -- the newline alone makes one more call than there are lines
              have hle : (lines rest).length ≤ (lines r).length := by
                rw [← hcalls.length_eq]
                exact lines_le_calls (h.rest_zero h0) (by omega)
              have hlen : (lines rest).length = (lines r).length + 1 := by
                rw [hrest]
                exact congrArg List.length (lines_line (l := []) List.not_mem_nil)
              omega
          · intro ⟨_, hf, _⟩
            exact absurd ((fits_line hl).mp hf).1 hfit

end

/-- The command is run once per line with the right arguments, and only the first process takes input, iff there is
    no input or the word after the line happened to be null, every line fits in the buffer and has no '\r', and no
    call of `exec` fails but that for the last line. -/
theorem xargs_runs_iff (command : List UInt8) (more : List (List UInt8)) (hargs : more.length + 2 < MAXARG)
    (stack : List Ptr) (hstack : stack.length = 32) (execs : Nat → Bool) (input : List UInt8) (h0 : 0 ∉ input) :
    RunsEachLine command more input (main command more stack execs input) ↔
      (input = [] ∨ stack[more.length + 2]? = some .null) ∧ Fits input ∧
        ∀ i, i + 1 < (lines input).length → execs i = true := by
  have hroom : more.length + 2 < stack.length := by
    rw [hstack]
    exact hargs
  obtain ⟨hargv, hends⟩ := args_setArgs command hroom
  have hgood : Good command more (main command more stack execs input) input ↔ Allowed more _ execs 0 input :=
    loop_good_iff hargv h0 (Nat.lt_succ_self input.length)
  unfold Good Allowed at hgood
  simp only [hends, Nat.zero_add] at hgood
  refine Iff.trans ?_ hgood
  constructor
  · intro ⟨hc, hp⟩
    refine ⟨hc, ?_⟩
    intro ⟨d, bytes⟩ hx
    obtain ⟨hm, hb⟩ := mem_takes.mp hx
    exact hp d bytes hm hb
  · intro ⟨hc, hp⟩
    refine ⟨hc, ?_⟩
    intro d bytes hm hb
    exact hp (d, bytes) (mem_takes.mpr ⟨hm, hb⟩)

instance (command : List UInt8) (more : List (List UInt8)) (c : Call) (l : List UInt8) : Decidable (Right command more c l) :=
  decidable_of_iff (c.depth = 1 ∧ c.path = command ∧
      c.argv.take (more.length + 3) = .str command :: more.map .str ++ [.line, .null] ∧ c.line = l)
    ⟨fun ⟨h1, h2, h3, h4⟩ => ⟨h1, h2, h3, h4⟩, fun h => ⟨h.depth, h.path, h.argv, h.line⟩⟩

def twoLines : List UInt8 := [0x61, 0x0a, 0x62, 0x0a]

/-- On a stack of null pointers both lines are run, the second `exec` failing. -/
theorem xargs_runs_two : RunsEachLine [0x65] [] twoLines (main [0x65] [] (List.replicate 32 .null) (· == 0) twoLines) :=
  (xargs_runs_iff [0x65] [] (by decide) (List.replicate 32 .null) rfl (· == 0) twoLines (by decide)).mpr
    ⟨.inr (by decide), ⟨by decide, by decide, by decide⟩, fun i hi => by
      have : i + 1 < 2 := hi
      have hi : i = 0 := by omega
      rw [hi]
      rfl⟩

/-- On other words the array has no end; a line of 31 bytes is followed by an empty one that is not in the input; and
    the child whose `exec` has failed takes the second line. -/
theorem xargs_wrong :
    ¬ RunsEachLine [0x65] [] twoLines (main [0x65] [] (List.replicate 32 (.stale ⟨1, by decide⟩)) (fun _ => true) twoLines) ∧
    ¬ RunsEachLine [0x65] [] (List.replicate 31 0x61 ++ [newline])
      (main [0x65] [] (List.replicate 32 .null) (fun _ => true) (List.replicate 31 0x61 ++ [newline])) ∧
    ¬ RunsEachLine [0x65] [] twoLines (main [0x65] [] (List.replicate 32 .null) (fun _ => false) twoLines) :=
  ⟨fun h => absurd h.calls (by decide +kernel), fun h => absurd h.calls (by decide +kernel),
    fun h => absurd h.calls (by decide +kernel)⟩

end Xv6.Xargs
