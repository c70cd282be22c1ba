/-
  Xv6.Sh.Words — the words of a command after nulterminate (see `Xv6.Sh.Parser`).

  Every word that the parser keeps was recognised by `gettoken` at its first byte. The bytes
  that `nulterminate` overwrites come right after words, so they are of no word.
-/

import Xv6.Sh.Parser

namespace Xv6.Sh

/-- The words that a command points to: each `argv[i]` with `eargv[i]`, each `file` with `efile`. -/
def Cmd.words : Cmd → List (Nat × Nat)
  | .exec argv => argv
  | .redir cmd file efile _ _ => cmd.words ++ [(file, efile)]
  | .pipe left right => left.words ++ right.words
  | .list left right => left.words ++ right.words
  | .back cmd => cmd.words

theorem Cmd.ends_eq (cmd : Cmd) : cmd.ends = cmd.words.map (·.2) := by
  induction cmd with
  | exec argv => rfl
  | redir cmd file efile mode fd ih => rw [Cmd.ends, Cmd.words, ih, List.map_append]; rfl
  | pipe left right ihl ihr | list left right ihl ihr => rw [Cmd.ends, Cmd.words, ihl, ihr, List.map_append]
  | back cmd ih => exact ih

section

variable {b w : List UInt8} {cmd : Cmd} {t : Tree} {q eq : Nat} {a : Nat × Nat}

theorem Denotes.words (h : Denotes b cmd t) (ha : a ∈ cmd.words) : ∃ w, Word b a.1 a.2 w := by
  induction h with
  | exec h =>
    obtain ⟨i, hi, rfl⟩ := List.getElem_of_mem ha
    exact ⟨_, (List.forall₂_iff_get.mp h).2 i hi (h.length_eq ▸ hi)⟩
  | redir _ hw ih =>
    cases List.mem_append.mp ha with
    | inl ha => exact ih ha
    | inr ha =>
      cases List.mem_singleton.mp ha
      exact ⟨_, hw⟩
  | pipe _ _ ihl ihr => exact (List.mem_append.mp ha).elim ihl ihr
  | list _ _ ihl ihr => exact (List.mem_append.mp ha).elim ihl ihr
  | back _ ih => exact ih ha

theorem Word.cons (h : Word b q eq w) : ∃ c cs, b.drop q = c :: cs ∧ isWord c = true := by
  cases hd : b.drop q with
  | nil =>
    have := h.bytes
    rw [hd] at this
    exact absurd this.symm h.ne
  | cons c cs =>
    refine ⟨c, cs, rfl, ?_⟩
    by_contra hc
    have := h.bytes
    rw [hd, List.takeWhile_cons_of_neg hc] at this
    exact h.ne this.symm

theorem Word.text (h : Word b q eq w) : (b.drop q).take (eq - q) = w := by
  have hp : w <+: b.drop q := h.bytes ▸ ( List.takeWhile_prefix _)
  rw [h.stop, Nat.add_sub_cancel_left]
  exact (List.prefix_iff_eq_take.mp hp).symm

theorem Word.gettoken (hb : 0 ∉ b) (h : Word b q eq w) :
    Sh.gettoken b q = .ok ((letterA, q, eq), skipWhitespace b eq) := by
  obtain ⟨c, cs, hd, hc⟩ := h.cons
  obtain ⟨hderef, hlt, -⟩ := deref_of_drop hd
  have hskip : skipWhitespace b q = q := by
    have := skip_eq (b := b) (s := q) whitespace.contains (n := b.length - q) (by omega)
    rw [skipWhitespace, this, hd, List.takeWhile_cons_of_neg (by rw [(symbol_word hc).2.2]; simp)]
    rfl
  obtain ⟨e, he, -, -, hw⟩ := token_next hb (.word hd hc)
  have heq : e = eq := by
    rw [(hw _ rfl).stop, h.bytes, h.stop]
  simp only [Sh.gettoken, bind, get, getThe, MonadStateOf.get, StateT.get, StateT.bind, pure, Except.pure, Except.bind,
    hskip, he, heq]
  rfl

theorem Word.not_end {q' eq' : Nat} {w' : List UInt8} (hb : 0 ∉ b) (h : Word b q eq w) (h' : Word b q' eq' w') :
    ¬ (q ≤ eq' ∧ eq' < eq) := by
  intro ⟨hle, hlt⟩
  have hstop := h.stop
  have hi : eq' - q < w.length := by omega
  have hmem : w[eq' - q] ∈ w := List.getElem_mem hi
  have hbyte := h.deref.1 (eq' - q) hi
  rw [Nat.add_sub_cancel' hle] at hbyte
  have hp : w <+: b.drop q := h.bytes ▸ ( List.takeWhile_prefix _)
  cases h'.deref.2 with
  | inl h0 => exact hb (List.mem_of_mem_drop (hp.subset (hbyte.symm.trans h0 ▸ hmem)))
  | inr h0 =>
    rw [hbyte, h.mem _ hmem] at h0
    cases h0

end

/-- What `nulterminate` is for, for one word of the command and the line it has left. -/
structure Terminated (b : List UInt8) (cmd : Cmd) (buf : List UInt8) (q eq : Nat) : Prop where
  /-- The parser got it from `gettoken`. -/
  recognised : gettoken b q = .ok ((letterA, q, eq), skipWhitespace b eq)
  /-- It has its terminator. -/
  ended : deref buf eq = 0
  /-- No terminator is inside it. -/
  whole : ∀ e ∈ cmd.ends, ¬ (q ≤ e ∧ e < eq)
  string : cstr buf q = (b.drop q).take (eq - q)

/-- For every line of bytes without NUL that the parser takes, every argument and every file name of the command
    is, read as a string after `nulterminate`, exactly the word that `gettoken` recognised. -/
theorem parsecmd_words (b : List UInt8) (hb : 0 ∉ b) (cmd : Cmd) (buf : List UInt8) (h : parsecmd b = .ok (cmd, buf)) :
    ∀ a ∈ cmd.words, Terminated b cmd buf a.1 a.2 := by
  intro a ha
  cases hp : parseall b 0 with
  | error e =>
    rw [parsecmd, hp] at h
    cases h
  | ok r =>
    rw [parsecmd, hp] at h
    cases h
    obtain ⟨t, -, hd⟩ := (wp_parseall hb).of_ok hp
    obtain ⟨w, hw⟩ := hd.words ha
    have hend : a.2 ∈ r.1.ends := by
      rw [Cmd.ends_eq]
      exact List.mem_map_of_mem ha
    refine ⟨hw.gettoken hb, ?_, ?_, ?_⟩
    · rw [nulterminate_eq, deref_zeroed, if_pos hend]
    · intro e he
      rw [Cmd.ends_eq] at he
      obtain ⟨a', ha', rfl⟩ := List.mem_map.mp he
      obtain ⟨w', hw'⟩ := hd.words ha'
      exact hw.not_end hb hw'
    · rw [nulterminate_eq, hw.cstr hb hend fun _ => hd.ends, hw.text]

def outLine : List UInt8 := [0x61, 0x3e, 0x62]

def outCmd : Cmd := .redir (.exec [(0, 1)]) 2 3 (O_WRONLY ||| O_CREATE ||| O_TRUNC) 1

/-- In "a>b" the ">" becomes the terminator of `a`. -/
theorem parsecmd_words_redir : parsecmd outLine = .ok (outCmd, [0x61, 0, 0x62]) ∧
    ∀ a ∈ outCmd.words, Terminated outLine outCmd [0x61, 0, 0x62] a.1 a.2 :=
  ⟨by decide, parsecmd_words outLine (by decide) outCmd [0x61, 0, 0x62] (by decide)⟩

end Xv6.Sh
