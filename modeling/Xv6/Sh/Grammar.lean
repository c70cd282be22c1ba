/-
  Xv6.Sh.Grammar — the shell's command language, and that the lexer of the parser (see
  `Xv6.Sh.Model`) finds its tokens.

  `lex` splits a line into tokens: a word is a run of bytes that are neither whitespace nor
  symbols, with none such before or after it. `Derives` is the grammar

    line ::= pipe '&'* [';' line]
    pipe ::= exec ['|' pipe]
    exec ::= '(' line ')' redir* | redir* (word redir*)*
    redir ::= ('<' | '>' | '>>') word

  with the tree of each derivation. `Rest` is what is left: `peek` looks at the first token and
  `gettoken` takes it.
-/

import Xv6.Sh.Model
import Mathlib.Data.List.GetD
import Mathlib.Data.List.TakeWhile

namespace Xv6.Sh

/-! ## Tokens -/

inductive Token where
  | bar
  | lparen
  | rparen
  | semi
  | amp
  | lt
  | gt
  | gtgt
  | word (w : List UInt8)
  deriving DecidableEq, Repr

def isWord (c : UInt8) : Bool := !whitespace.contains c && !symbols.contains c

/-- The word read so far, if there is one, before `ts`. -/
def flush (w : List UInt8) (ts : List Token) : List Token := if w = [] then ts else .word w :: ts

/-- The symbols that are a token by themselves whatever follows. -/
def symbol (c : UInt8) : Option Token :=
  if c = Sh.bar then some .bar
  else if c = Sh.lparen then some .lparen
  else if c = Sh.rparen then some .rparen
  else if c = Sh.semi then some .semi
  else if c = Sh.amp then some .amp
  else if c = Sh.lt then some .lt
  else none

/-- The tokens of the line, after the bytes `w` of a word. -/
def lexFrom (w : List UInt8) : List UInt8 → List Token
  | [] => flush w []
  | c :: cs =>
    match symbol c with
    | some t => flush w (t :: lexFrom [] cs)
    | none =>
      if c = Sh.gt then flush w (match cs with
        | [] => [.gt]
        | d :: ds => if d = Sh.gt then .gtgt :: lexFrom [] ds else .gt :: lexFrom [] (d :: ds))
      else if whitespace.contains c then flush w (lexFrom [] cs)
      else lexFrom (w ++ [c]) cs

def lex (b : List UInt8) : List Token := lexFrom [] b

/-! ## The grammar -/

/-- A command with its words. -/
inductive Tree where
  | exec (argv : List (List UInt8))
  | redir (cmd : Tree) (file : List UInt8) (mode fd : Nat)
  | pipe (left right : Tree)
  | list (left right : Tree)
  | back (cmd : Tree)
  deriving DecidableEq, Repr

/-- A redirection: the file, the mode and the file descriptor. -/
abbrev Redir := List UInt8 × Nat × Nat

inductive Redirs : List Token → List Redir → Prop where
  | nil : Redirs [] []
  | read {w ts rs} : Redirs ts rs → Redirs (.lt :: .word w :: ts) ((w, O_RDONLY, 0) :: rs)
  | write {w ts rs} : Redirs ts rs → Redirs (.gt :: .word w :: ts) ((w, O_WRONLY ||| O_CREATE ||| O_TRUNC, 1) :: rs)
  | append {w ts rs} : Redirs ts rs → Redirs (.gtgt :: .word w :: ts) ((w, O_WRONLY ||| O_CREATE, 1) :: rs)

inductive Args : List Token → List (List UInt8) → List Redir → Prop where
  | nil : Args [] [] []
  | cons {w us rs ts ws rs'} : Redirs us rs → Args ts ws rs' → Args (.word w :: us ++ ts) (w :: ws) (rs ++ rs')

/-- The redirections around a command, the last outermost. -/
def Tree.wrap (t : Tree) (rs : List Redir) : Tree := rs.foldl (fun t r => .redir t r.1 r.2.1 r.2.2) t

/-- `n` times `&`. -/
def Tree.backs (t : Tree) : Nat → Tree
  | 0 => t
  | n + 1 => .back (t.backs n)

inductive Cat where
  | line
  | pipe
  | exec

/-- The derivations and their trees. -/
inductive Derives : Cat → List Token → Tree → Prop where
  | line {ts t} (n : Nat) : Derives .pipe ts t → Derives .line (ts ++ List.replicate n .amp) (t.backs n)
  | list {ts t us u} (n : Nat) : Derives .pipe ts t → Derives .line us u →
      Derives .line (ts ++ List.replicate n .amp ++ .semi :: us) (.list (t.backs n) u)
  | one {ts t} : Derives .exec ts t → Derives .pipe ts t
  | pipe {ts t us u} : Derives .exec ts t → Derives .pipe us u → Derives .pipe (ts ++ .bar :: us) (.pipe t u)
  | block {ts t us rs} : Derives .line ts t → Redirs us rs → Derives .exec (.lparen :: ts ++ .rparen :: us) (t.wrap rs)
  | args {us rs ts ws rs'} : Redirs us rs → Args ts ws rs' → ws.length < MAXARGS →
      Derives .exec (us ++ ts) ((Tree.exec ws).wrap (rs ++ rs'))

/-- What `gettoken` returns. -/
def Token.code : Token → UInt8
  | .bar => Sh.bar
  | .lparen => Sh.lparen
  | .rparen => Sh.rparen
  | .semi => Sh.semi
  | .amp => Sh.amp
  | .lt => Sh.lt
  | .gt => Sh.gt
  | .gtgt => plus
  | .word _ => letterA

/-- What `peek` sees of a symbol. -/
@[grind] def Token.char : Token → Option UInt8
  | .gtgt => some Sh.gt
  | .word _ => none
  | t => some t.code

/-! ## Splitting a line -/

theorem symbol_some {c : UInt8} {t : Token} (h : symbol c = some t) : isWord c = false ∧ c ≠ 0 ∧
    c ∈ [bar, lparen, rparen, semi, amp, lt] ∧ t.code = c ∧ t.char = some c ∧ ∀ w, t ≠ .word w := by
  unfold symbol at h
  repeat
    split at h
    · subst c; cases h; simp; decide
  cases h

theorem symbol_none {c : UInt8} (h : symbol c = none) : c ∉ [bar, lparen, rparen, semi, amp, lt] := by
  intro hm
  simp only [List.mem_cons, List.not_mem_nil, or_false] at hm
  rcases hm with rfl | rfl | rfl | rfl | rfl | rfl <;> cases h

theorem byte_cases (c : UInt8) : (∃ t, symbol c = some t) ∨ c = gt ∨ whitespace.contains c = true ∨ isWord c = true := by
  cases hs : symbol c with
  | some t => exact .inl ⟨t, rfl⟩
  | none =>
    right
    by_cases hg : c = gt
    · exact .inl hg
    · right
      by_cases hw : whitespace.contains c = true
      · exact .inl hw
      · right
        have h := symbol_none hs
        have hsym : symbols.contains c = false := by
          rw [List.contains_eq_mem, decide_eq_false_iff_not]
          intro hm
          simp only [symbols, List.mem_cons, List.not_mem_nil, or_false] at hm
          rcases hm with rfl | rfl | rfl | rfl | rfl | rfl | rfl
          all_goals first | exact hg rfl | exact h (by decide)
        rw [isWord, hsym]
        simp only [Bool.not_eq_true] at hw
        rw [hw]
        rfl

theorem symbol_whitespace {c : UInt8} (h : whitespace.contains c = true) : symbol c = none ∧ c ≠ gt ∧ isWord c = false := by
  rw [List.contains_iff_mem] at h
  simp only [whitespace, List.mem_cons, List.not_mem_nil, or_false] at h
  rcases h with rfl | rfl | rfl | rfl | rfl <;> decide

theorem symbol_word {c : UInt8} (h : isWord c = true) : symbol c = none ∧ c ≠ gt ∧ whitespace.contains c = false := by
  refine ⟨?_, ?_, ?_⟩
  · cases hs : symbol c with
    | none => rfl
    | some t =>
      rw [(symbol_some hs).1] at h
      cases h
  · rintro rfl
    exact absurd h (by decide)
  · rw [isWord, Bool.and_eq_true, Bool.not_eq_true'] at h
    exact h.1

theorem flush_nil (ts : List Token) : flush [] ts = ts := rfl

section

variable {c : UInt8} {w cs : List UInt8}

theorem lexFrom_symbol {t : Token} (h : symbol c = some t) : lexFrom w (c :: cs) = flush w (t :: lex cs) := by
  rw [lexFrom.eq_def]
  simp only [h, lex]

/-- The tokens from a ">" on. -/
def lexGt : List UInt8 → List Token
  | [] => [.gt]
  | d :: ds => if d = Sh.gt then .gtgt :: lex ds else .gt :: lex (d :: ds)

theorem lexFrom_gt : lexFrom w (gt :: cs) = flush w (lexGt cs) := by
  rw [lexFrom.eq_def]
  cases cs <;> rfl

theorem lexFrom_whitespace (h : whitespace.contains c = true) : lexFrom w (c :: cs) = flush w (lex cs) := by
  obtain ⟨h1, h2, -⟩ := symbol_whitespace h
  rw [lexFrom.eq_def]
  simp only [h1, if_neg h2, h, if_true, lex]

theorem lexFrom_push (h : isWord c = true) : lexFrom w (c :: cs) = lexFrom (w ++ [c]) cs := by
  obtain ⟨h1, h2, h3⟩ := symbol_word h
  rw [lexFrom.eq_def]
  simp only [h1, if_neg h2, h3, Bool.false_eq_true, if_false]

end

theorem lexFrom_flush {c : UInt8} (h : isWord c = false) (w cs : List UInt8) :
    lexFrom w (c :: cs) = flush w (lex (c :: cs)) := by
  rcases byte_cases c with ⟨t, ht⟩ | rfl | hw | hw
  · rw [lex, lexFrom_symbol ht, lexFrom_symbol ht, flush_nil]
  · rw [lex, lexFrom_gt, lexFrom_gt, flush_nil]
  · rw [lex, lexFrom_whitespace hw, lexFrom_whitespace hw, flush_nil]
  · rw [h] at hw
    cases hw

theorem lexFrom_word {w u : List UInt8} (h : w ≠ [] ∨ ∃ c cs, u = c :: cs ∧ isWord c = true) :
    lexFrom w u = .word (w ++ u.takeWhile isWord) :: lex (u.dropWhile isWord) := by
  induction u generalizing w with
  | nil =>
    have hw : w ≠ [] := h.resolve_right (by rintro ⟨c, cs, h, -⟩; cases h)
    rw [lexFrom, flush, if_neg hw, List.takeWhile_nil, List.append_nil, List.dropWhile_nil]
    rfl
  | cons c cs ih =>
    cases hc : isWord c with
    | true =>
      have := ih (w := w ++ [c]) (.inl (by simp))
      rw [List.append_assoc, List.singleton_append] at this
      rw [List.takeWhile_cons_of_pos hc, List.dropWhile_cons_of_pos hc, ← this, lexFrom_push hc]
    | false =>
      have hw : w ≠ [] := h.resolve_right (by
        rintro ⟨d, ds, h, hd⟩
        cases h
        rw [hc] at hd
        cases hd)
      rw [lexFrom_flush hc, flush, if_neg hw, List.takeWhile_cons_of_neg (by rw [hc]; simp),
        List.dropWhile_cons_of_neg (by rw [hc]; simp), List.append_nil]

theorem lex_dropWhile (u : List UInt8) : lex (u.dropWhile whitespace.contains) = lex u := by
  induction u with
  | nil => rfl
  | cons c cs ih =>
    cases hc : whitespace.contains c with
    | true =>
      rw [List.dropWhile_cons_of_pos hc, ih]
      exact (lexFrom_whitespace (w := []) hc).symm
    | false => rw [List.dropWhile_cons_of_neg (by rw [hc]; simp)]

/-! ## The lexer of the parser -/

/-- The bytes from `q` to before `eq` are the word `w`, and no longer one. -/
structure Word (b : List UInt8) (q eq : Nat) (w : List UInt8) : Prop where
  ne : w ≠ []
  mem : ∀ c ∈ w, isWord c = true
  bytes : (b.drop q).takeWhile isWord = w
  stop : eq = q + w.length

/-- At position `s` the tokens `ts` are left. -/
structure Rest (b : List UInt8) (s : Nat) (ts : List Token) : Prop where
  le : s ≤ b.length
  left : lex (b.drop s) = ts

/-- The next token starts with one of `toks`. -/
@[grind] def looks (toks : List UInt8) : List Token → Bool
  | [] => false
  | t :: _ => t.char.any toks.contains

section

variable {b : List UInt8} {s : Nat} {ts us : List Token} {t : Token}

theorem skip_eq (p : UInt8 → Bool) {n : Nat} (h : s + n = b.length) : skip b p n s = s + ((b.drop s).takeWhile p).length := by
  induction n generalizing s with
  | zero =>
    rw [List.drop_eq_nil_of_le (by omega)]
    rfl
  | succ n ih =>
    have hlt : s < b.length := by omega
    have hd : deref b s = b[s] := List.getD_eq_getElem _ _ hlt
    rw [skip, List.drop_eq_getElem_cons hlt, hd, List.takeWhile_cons]
    split
    · rw [ih (by omega), List.length_cons]
      omega
    · rfl

theorem skip_le (p : UInt8 → Bool) (h : s ≤ b.length) : s + ((b.drop s).takeWhile p).length ≤ b.length := by
  have := (List.takeWhile_sublist (l := b.drop s) p).length_le
  rw [List.length_drop] at this
  omega

theorem drop_skip (p : UInt8 → Bool) : b.drop (s + ((b.drop s).takeWhile p).length) = (b.drop s).dropWhile p := by
  rw [← List.drop_drop]
  calc (b.drop s).drop ((b.drop s).takeWhile p).length
    _ = ((b.drop s).takeWhile p ++ (b.drop s).dropWhile p).drop ((b.drop s).takeWhile p).length := by
        rw [List.takeWhile_append_dropWhile]
    _ = (b.drop s).dropWhile p := List.drop_left

theorem Rest.skip (h : Rest b s ts) : Rest b (skipWhitespace b s) ts ∧ s ≤ skipWhitespace b s ∧
    ∀ c cs, b.drop (skipWhitespace b s) = c :: cs → whitespace.contains c = false := by
  have he : skipWhitespace b s = s + ((b.drop s).takeWhile whitespace.contains).length := skip_eq _ (by have := h.le; omega)
  rw [he]
  refine ⟨⟨skip_le _ h.le, ?_⟩, Nat.le_add_right _ _, fun c cs hc => ?_⟩
  · rw [drop_skip, lex_dropWhile]
    exact h.left
  · rw [drop_skip] at hc
    have := List.head_dropWhile_not whitespace.contains (l := b.drop s) (by rw [hc]; simp)
    simpa only [hc, List.head_cons] using this

theorem deref_of_drop {c : UInt8} {cs : List UInt8} (h : b.drop s = c :: cs) : deref b s = c ∧ s < b.length ∧
    b.drop (s + 1) = cs := by
  have hlt : s < b.length := by
    by_contra hn
    rw [List.drop_eq_nil_of_le (by omega)] at h
    cases h
  rw [List.drop_eq_getElem_cons hlt] at h
  cases h
  exact ⟨List.getD_eq_getElem _ _ hlt, hlt, rfl⟩

theorem deref_of_end (h : b.drop s = []) : deref b s = 0 := List.getD_eq_default _ _ (List.drop_eq_nil_iff.mp h)

/-- What is at a position where no whitespace is: nothing, or a token. -/
inductive Next (b : List UInt8) (s : Nat) : List Token → Prop where
  | nil : b.drop s = [] → Next b s []
  | symbol {c cs t} : b.drop s = c :: cs → Sh.symbol c = some t → Next b s (t :: lex cs)
  | gt {cs} : b.drop s = Sh.gt :: cs → cs.head? ≠ some Sh.gt → Next b s (.gt :: lex cs)
  | gtgt {cs} : b.drop s = Sh.gt :: Sh.gt :: cs → Next b s (.gtgt :: lex cs)
  | word {c cs} : b.drop s = c :: cs → isWord c = true →
      Next b s (.word ((b.drop s).takeWhile isWord) :: lex ((b.drop s).dropWhile isWord))

theorem Rest.next (h : Rest b s ts) (hw : ∀ c cs, b.drop s = c :: cs → whitespace.contains c = false) : Next b s ts := by
  have hl := h.left
  cases hd : b.drop s with
  | nil =>
    rw [hd] at hl
    rw [← hl]
    exact .nil hd
  | cons c cs =>
    rw [hd] at hl
    rcases byte_cases c with ⟨t, ht⟩ | rfl | hc | hc
    · rw [← hl, lex, lexFrom_symbol ht, flush_nil]
      exact .symbol hd ht
    · rw [← hl, lex, lexFrom_gt, flush_nil]
      cases cs with
      | nil => exact .gt hd (by simp)
      | cons d ds =>
        rw [lexGt]
        split
        · subst d
          exact .gtgt hd
        · rename_i hne
          exact .gt hd (by simpa using hne)
    · rw [hw c cs hd] at hc
      cases hc
    · rw [← hl, lex, lexFrom_word (.inr ⟨c, cs, rfl, hc⟩), ← hd, List.nil_append]
      exact .word hd hc

end

section

variable {b : List UInt8} (hb : 0 ∉ b) {E : Panic → Prop} {s : Nat} {ts us : List Token} {t : Token}
include hb

theorem ne_zero {c : UInt8} {cs : List UInt8} (h : b.drop s = c :: cs) : c ≠ 0 := by
  rintro rfl
  exact hb (List.mem_of_mem_drop (h ▸ List.mem_cons_self ..))

-- `all`, since there are only 256 bytes and `decide` would try each of them for `∀ c`
theorem wp_peek {toks : List UInt8} (h : Rest b s ts) (ht : toks.all (!isWord ·) = true) {Q : Bool → Nat → Prop}
    (hQ : ∀ s', s ≤ s' → Rest b s' ts → Q (looks toks ts) s') : Lib.Wp E (peek b toks) s Q := by
  obtain ⟨h1, h2, h3⟩ := h.skip
  have hl : (decide (deref b (skipWhitespace b s) ≠ 0) && toks.contains (deref b (skipWhitespace b s))) = looks toks ts := by
    cases h1.next h3 with
    | nil hd => rw [deref_of_end hd]; rfl
    | symbol hd hs =>
      rw [(deref_of_drop hd).1, looks, (symbol_some hs).2.2.2.2.1]
      simp [ne_zero hb hd]
    | gt hd _ => rw [(deref_of_drop hd).1]; rfl
    | gtgt hd => rw [(deref_of_drop hd).1]; rfl
    | @word c cs hd hc =>
      have : c ∉ toks := fun hm => by
        have := List.all_eq_true.mp ht c hm
        rw [hc] at this
        cases this
      rw [(deref_of_drop hd).1, looks]
      simp [this, Token.char]
  have := hQ _ h2 h1
  rw [← hl] at this
  exact this

theorem token_next (h : Next b s (t :: us)) :
    ∃ e, token b s = (t.code, e) ∧ s < e ∧ Rest b e us ∧ ∀ w, t = .word w → Word b s e w := by
  cases h with
  | @symbol c cs _ hd hs =>
    obtain ⟨h1, h2, h3⟩ := deref_of_drop hd
    obtain ⟨-, hne, hmem, hcode, -, hword⟩ := symbol_some hs
    refine ⟨s + 1, ?_, Nat.lt_succ_self s, ⟨h2, by rw [h3]⟩, fun w hw => absurd hw (hword w)⟩
    simp only [token, h1, if_neg hne, if_pos hmem, hcode]
  | @gt cs hd hne =>
    obtain ⟨h1, h2, h3⟩ := deref_of_drop hd
    refine ⟨s + 1, ?_, Nat.lt_succ_self s, ⟨h2, by rw [h3]⟩, nofun⟩
    have hd1 : deref b (s + 1) ≠ Sh.gt := by
      cases cs with
      | nil => rw [deref_of_end h3]; decide
      | cons d ds =>
        rw [(deref_of_drop h3).1]
        simpa using hne
    simp only [token, h1, if_neg hd1]
    rfl
  | @gtgt cs hd =>
    obtain ⟨h1, -, h3⟩ := deref_of_drop hd
    obtain ⟨h4, h5, h6⟩ := deref_of_drop h3
    refine ⟨s + 2, ?_, by omega, ⟨h5, by rw [h6]⟩, nofun⟩
    simp only [token, h1, h4]
    rfl
  | @word c cs hd hc =>
    obtain ⟨h1, h2, h3⟩ := deref_of_drop hd
    obtain ⟨hs, hg, -⟩ := symbol_word hc
    have he : skipWord b s = s + ((b.drop s).takeWhile isWord).length := skip_eq _ (by omega)
    have hne : (b.drop s).takeWhile isWord ≠ [] := by rw [hd, List.takeWhile_cons_of_pos hc]; simp
    have hpos := List.length_pos_iff.mpr hne
    refine ⟨skipWord b s, ?_, by omega, ?_, fun w hw => ?_⟩
    · simp only [token, h1, if_neg (ne_zero hb hd), if_neg (symbol_none hs), if_neg hg]
      rfl
    · rw [he]
      exact ⟨skip_le _ (by omega), by rw [drop_skip]⟩
    · cases hw
      exact ⟨hne, fun c hc => (List.mem_takeWhile_imp hc), rfl, he⟩

omit hb in
theorem wp_gettoken_nil (h : Rest b s []) {Q : UInt8 × Nat × Nat → Nat → Prop}
    (hQ : ∀ q s', s ≤ s' → Rest b s' [] → Q (0, q, q) s') : Lib.Wp E (gettoken b) s Q := by
  obtain ⟨h1, h2, h3⟩ := h.skip
  have hn : b.drop (skipWhitespace b s) = [] := by
    generalize hts : ([] : List Token) = ts at h1
    cases h1.next h3 with
    | nil hd => exact hd
    | _ => cases hts
  have ht : token b (skipWhitespace b s) = (0, skipWhitespace b s) := by
    rw [token, deref_of_end hn]
    rfl
  obtain ⟨h4, h5, -⟩ := h1.skip
  have := hQ (skipWhitespace b s) _ (Nat.le_trans h2 h5) h4
  simp only [gettoken, Lib.wp_bind, Lib.wp_get, ht]
  exact this

theorem wp_gettoken (h : Rest b s (t :: us)) {Q : UInt8 × Nat × Nat → Nat → Prop}
    (hQ : ∀ q eq s', s < s' → Rest b s' us → (∀ w, t = .word w → Word b q eq w) → Q (t.code, q, eq) s') :
    Lib.Wp E (gettoken b) s Q := by
  obtain ⟨h1, h2, h3⟩ := h.skip
  obtain ⟨e, he, hlt, hr, hword⟩ := token_next hb (h1.next h3)
  obtain ⟨h4, h5, -⟩ := hr.skip
  have := hQ (skipWhitespace b s) e (skipWhitespace b e) (by omega) h4 hword
  simp only [gettoken, Lib.wp_bind, Lib.wp_get, he]
  exact this

end

end Xv6.Sh
