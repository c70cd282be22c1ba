/-
  Xv6.Sh.Parser — the shell's parser accepts its grammar, and nothing else (see `Xv6.Sh.Model` and
  `Xv6.Sh.Grammar`).

  What the parser takes has a derivation (by induction on the fuel: `wp_parse`), and what has one
  it takes if nothing follows that it would take too (by induction on the derivation:
  `Derives.parses`).
-/

import Xv6.Sh.Grammar
import Mathlib.Data.List.Forall2
import Mathlib.Data.List.Induction

namespace Xv6.Sh

open Lib (Wp wp_bind wp_ite wp_get)

/-- The command's pointers lead to the words of the tree. -/
inductive Denotes (b : List UInt8) : Cmd → Tree → Prop where
  | exec {argv ws} : List.Forall₂ (fun a w => Word b a.1 a.2 w) argv ws → Denotes b (.exec argv) (.exec ws)
  | redir {c t q eq w mode fd} : Denotes b c t → Word b q eq w → Denotes b (.redir c q eq mode fd) (.redir t w mode fd)
  | pipe {l r l' r'} : Denotes b l l' → Denotes b r r' → Denotes b (.pipe l r) (.pipe l' r')
  | list {l r l' r'} : Denotes b l l' → Denotes b r r' → Denotes b (.list l r) (.list l' r')
  | back {c t} : Denotes b c t → Denotes b (.back c) (.back t)

section

variable {b : List UInt8} {cmd : Cmd} {t : Tree} {q eq : Nat} {w : List UInt8} {ws : List (List UInt8)} {rs : List Redir}

theorem Tree.wrap_append (t : Tree) (rs rs' : List Redir) : t.wrap (rs ++ rs') = (t.wrap rs).wrap rs' := List.foldl_append

theorem Denotes.push (hd : Denotes b cmd ((Tree.exec ws).wrap rs)) (hw : Word b q eq w) :
    Denotes b (cmd.push q eq) ((Tree.exec (ws ++ [w])).wrap rs) := by
  induction rs using List.reverseRecOn generalizing cmd with
  | nil =>
    cases hd with
    | exec h => exact .exec (List.rel_append h (.cons hw .nil))
  | append_singleton rs r ih =>
    rw [Tree.wrap_append] at hd ⊢
    cases hd with
    | redir hd hw' => exact .redir (ih hd) hw'

theorem Tree.backs_succ (t : Tree) (n : Nat) : (Tree.back t).backs n = t.backs (n + 1) := by
  induction n with
  | zero => rfl
  | succ n ih =>
    show Tree.back _ = Tree.back _
    rw [ih]

end

/-! ## Loops -/

section

variable {b : List UInt8} (hb : 0 ∉ b) {E : Panic → Prop} {s fuel : Nat} {ts us vs : List Token} {cmd : Cmd} {t : Tree}

def redirOf (w : List UInt8) : Token → Option Redir
  | .lt => some (w, O_RDONLY, 0)
  | .gt => some (w, O_WRONLY ||| O_CREATE ||| O_TRUNC, 1)
  | .gtgt => some (w, O_WRONLY ||| O_CREATE, 1)
  | _ => none

theorem Redirs.cons {w : List UInt8} {op : Token} {r : Redir} {rs : List Redir} (h : redirOf w op = some r) (hr : Redirs ts rs) :
    Redirs (op :: .word w :: ts) (r :: rs) := by
  cases op with
  | lt => cases h; exact .read hr
  | gt => cases h; exact .write hr
  | gtgt => cases h; exact .append hr
  | _ => cases h

theorem Redirs.cases {rs : List Redir} (h : Redirs ts rs) : (ts = [] ∧ rs = []) ∨
    ∃ op w us r rs', ts = op :: .word w :: us ∧ rs = r :: rs' ∧ redirOf w op = some r ∧ Redirs us rs' := by
  cases h with
  | nil => exact .inl ⟨rfl, rfl⟩
  | read h => exact .inr ⟨_, _, _, _, _, rfl, rfl, rfl, h⟩
  | write h => exact .inr ⟨_, _, _, _, _, rfl, rfl, rfl, h⟩
  | append h => exact .inr ⟨_, _, _, _, _, rfl, rfl, rfl, h⟩

theorem looks_of_redirOf {op : Token} {w : List UInt8} {r : Redir} (h : redirOf w op = some r) :
    looks [lt, gt] (op :: ts) = true := by
  cases op with
  | lt => rfl
  | gt => rfl
  | gtgt => rfl
  | _ => cases h

theorem Denotes.redircmd {w : List UInt8} {op : Token} {r : Redir} {q eq : Nat} (h : redirOf w op = some r) (hd : Denotes b cmd t)
    (hw : Word b q eq w) : Denotes b (redircmd op.code cmd q eq) (t.wrap [r]) := by
  cases op with
  | lt => cases h; exact .redir hd hw
  | gt => cases h; exact .redir hd hw
  | gtgt => cases h; exact .redir hd hw
  | _ => cases h

theorem looks_redir (h : looks [lt, gt] ts = true) (w : List UInt8) : ∃ op us r, ts = op :: us ∧ redirOf w op = some r := by
  cases ts with
  | nil => cases h
  | cons op us =>
    cases op with
    | lt => exact ⟨_, _, _, rfl, rfl⟩
    | gt => exact ⟨_, _, _, rfl, rfl⟩
    | gtgt => exact ⟨_, _, _, rfl, rfl⟩
    | word w => cases h
    | _ =>
      rw [looks] at h
      exact absurd h (by decide)

theorem looks_symbol {c : UInt8} {x : Token} (h : looks [c] ts = true) (hx : symbol c = some x) : ∃ us, ts = x :: us := by
  cases ts with
  | nil => cases h
  | cons y us =>
    have hy : ∀ d, y.char = some d → d = c := by
      intro d hd
      rw [looks, hd] at h
      simpa using h
    cases y with
    | word w => cases h
    | gt => cases hy _ rfl; cases hx
    | gtgt => cases hy _ rfl; cases hx
    | _ =>
      cases hy _ rfl
      cases hx
      exact ⟨us, rfl⟩

theorem Token.code_ne (x : Token) : x.code ≠ 0 := by
  cases x with
  | word w => exact (by decide : letterA ≠ 0)
  | _ => decide

theorem word_of_code {x : Token} (h : x.code = letterA) : ∃ w, x = .word w := by
  cases x with
  | word w => exact ⟨w, rfl⟩
  | _ => exact absurd h (by decide)

include hb

theorem wp_accept {α : Type} {c : UInt8} {x : Token} (hc : symbol c = some x) {k k' : M α} {Q : α → Nat → Prop} (h : Rest b s ts)
    (hyes : ∀ us s', ts = x :: us → s < s' → Rest b s' us → Wp E k s' Q)
    (hno : looks [c] ts = false → ∀ s', s ≤ s' → Rest b s' ts → Wp E k' s' Q) :
    Wp E (do if ← peek b [c] then do let _ ← gettoken b; k else k') s Q := by
  rw [wp_bind]
  refine wp_peek hb h (by simp [(symbol_some hc).1]) fun s1 hs1 h1 => wp_ite (fun hl => ?_) fun hl => ?_
  · obtain ⟨us, rfl⟩ := looks_symbol hl hc
    rw [wp_bind]
    exact wp_gettoken hb h1 fun _ _ s2 hs2 h2 _ => hyes us s2 rfl (by omega) h2
  · exact hno (by simpa using hl) s1 hs1 h1

theorem wp_parseredirs (h : Rest b s ts) (hf : b.length - s < fuel) (hd : Denotes b cmd t) :
    Wp (· ≠ .fuel) (parseredirs b fuel cmd) s fun cmd' s' => ∃ us vs rs, ts = us ++ vs ∧ s ≤ s' ∧ Rest b s' vs ∧
      Redirs us rs ∧ Denotes b cmd' (t.wrap rs) := by
  induction fuel generalizing s ts cmd t with
  | zero => omega
  | succ fuel ih =>
    rw [parseredirs, wp_bind]
    refine wp_peek hb h (by decide) fun s1 hs1 h1 => wp_ite (fun hl => ?_) fun _ => ⟨[], ts, [], rfl, hs1, h1, .nil, hd⟩
    obtain ⟨op, ts, -, rfl, -⟩ := looks_redir hl []
    rw [wp_bind]
    refine wp_gettoken hb h1 fun _ _ s2 hs2 h2 _ => ?_
    rw [wp_bind]
    cases ts with
    | nil => exact wp_gettoken_nil h2 fun _ _ _ _ => (by decide : Panic.missingFile ≠ .fuel)
    | cons x ts =>
      refine wp_gettoken hb h2 fun q eq s3 hs3 h3 hw => ?_
      refine wp_ite (fun _ => (by decide : Panic.missingFile ≠ .fuel)) fun hx => ?_
      obtain ⟨w, rfl⟩ := word_of_code (not_not.mp hx)
      obtain ⟨_, _, r, he, hr⟩ := looks_redir hl w
      cases he
      have hle := h3.le
      refine (ih h3 (by omega) (hd.redircmd hr (hw w rfl))).mono fun cmd' s' ⟨us, vs, rs, he, hs', h', hrs, hd'⟩ => ?_
      subst he
      exact ⟨op :: .word w :: us, vs, r :: rs, rfl, by omega, h', .cons hr hrs, hd'⟩

theorem Redirs.parses {us vs : List Token} {rs : List Redir} (hr : Redirs us rs) (hv : looks [lt, gt] vs = false)
    (h : Rest b s (us ++ vs)) (hf : b.length - s < fuel) (hd : Denotes b cmd t) :
    Wp E (parseredirs b fuel cmd) s fun cmd' s' => s ≤ s' ∧ Rest b s' vs ∧ Denotes b cmd' (t.wrap rs) := by
  induction fuel generalizing s us rs cmd t with
  | zero => omega
  | succ fuel ih =>
    rw [parseredirs, wp_bind]
    refine wp_peek hb h (by decide) fun s1 hs1 h1 => ?_
    rcases hr.cases with ⟨rfl, rfl⟩ | ⟨op, w, us, r, rs, rfl, rfl, hop, hr⟩
    · rw [List.nil_append] at h1 ⊢
      rw [hv]
      exact ⟨hs1, h1, hd⟩
    · have hl : looks [lt, gt] (op :: .word w :: us ++ vs) = true := looks_of_redirOf hop
      rw [hl]
      refine wp_ite (fun _ => ?_) fun hn => absurd rfl hn
      rw [wp_bind]
      refine wp_gettoken hb h1 fun _ _ s2 hs2 h2 _ => ?_
      rw [wp_bind]
      refine wp_gettoken hb h2 fun q eq s3 hs3 h3 hw => ?_
      refine wp_ite (fun hn => absurd rfl hn) fun _ => ?_
      have hle := h3.le
      refine (ih hr h3 (by omega) (hd.redircmd hop (hw w rfl))).mono fun cmd' s' ⟨hs', h', hd'⟩ => ?_
      exact ⟨by omega, h', hd'⟩

theorem wp_parsebacks (h : Rest b s ts) (hf : b.length - s < fuel) (hd : Denotes b cmd t) :
    Wp (· ≠ .fuel) (parsebacks b fuel cmd) s fun cmd' s' => ∃ n vs, ts = List.replicate n .amp ++ vs ∧ s ≤ s' ∧
      Rest b s' vs ∧ Denotes b cmd' (t.backs n) := by
  induction fuel generalizing s ts cmd t with
  | zero => omega
  | succ fuel ih =>
    rw [parsebacks]
    refine wp_accept hb rfl h (fun us s1 e hs1 h1 => ?_) fun _ s1 hs1 h1 => ⟨0, ts, rfl, hs1, h1, hd⟩
    subst e
    have hle := h1.le
    refine (ih h1 (by omega) hd.back).mono fun cmd' s' ⟨n, vs, he, hs', h', hd'⟩ => ?_
    subst he
    exact ⟨n + 1, vs, rfl, by omega, h', Tree.backs_succ t n ▸ hd'⟩

theorem backs_parses {n : Nat} (hv : looks [amp] vs = false) (h : Rest b s (List.replicate n .amp ++ vs))
    (hf : b.length - s < fuel) (hd : Denotes b cmd t) :
    Wp E (parsebacks b fuel cmd) s fun cmd' s' => s ≤ s' ∧ Rest b s' vs ∧ Denotes b cmd' (t.backs n) := by
  induction fuel generalizing s n cmd t with
  | zero => omega
  | succ fuel ih =>
    rw [parsebacks]
    cases n with
    | zero => exact wp_accept hb rfl h (fun us s1 e => by cases e; cases hv) fun _ s1 hs1 h1 => ⟨hs1, h1, hd⟩
    | succ n =>
      refine wp_accept hb rfl h (fun us s1 e hs1 h1 => ?_) nofun
      cases e
      have hle := h1.le
      refine (ih h1 (by omega) hd.back).mono fun cmd' s' ⟨hs', h', hd'⟩ => ?_
      exact ⟨by omega, h', Tree.backs_succ t n ▸ hd'⟩

theorem wp_parseargs {ws : List (List UInt8)} {rs : List Redir} (h : Rest b s ts) (hf : b.length - s < fuel)
    (hd : Denotes b cmd ((Tree.exec ws).wrap rs)) (hws : ws.length < MAXARGS) :
    Wp (· ≠ .fuel) (parseargs b fuel cmd ws.length) s fun cmd' s' => ∃ us vs ws' rs', ts = us ++ vs ∧ s ≤ s' ∧ Rest b s' vs ∧
      Args us ws' rs' ∧ (ws ++ ws').length < MAXARGS ∧ Denotes b cmd' ((Tree.exec (ws ++ ws')).wrap (rs ++ rs')) := by
  induction fuel generalizing s ts cmd ws rs with
  | zero => omega
  | succ fuel ih =>
    -- the loop stops before any of "|)&;" and at the end
    have stop : ∀ s', s ≤ s' → Rest b s' ts → ∃ us vs ws' rs', ts = us ++ vs ∧ s ≤ s' ∧ Rest b s' vs ∧ Args us ws' rs' ∧
        (ws ++ ws').length < MAXARGS ∧ Denotes b cmd ((Tree.exec (ws ++ ws')).wrap (rs ++ rs')) := fun s' hs' h' =>
      ⟨[], ts, [], [], rfl, hs', h', .nil, by rwa [List.append_nil], by rwa [List.append_nil, List.append_nil]⟩
    rw [parseargs, wp_bind]
    refine wp_peek hb h (by decide) fun s1 hs1 h1 => wp_ite (fun _ => stop s1 hs1 h1) fun _ => ?_
    rw [wp_bind]
    cases ts with
    | nil => exact wp_gettoken_nil h1 fun _ s2 hs2 h2 => stop s2 (by omega) h2
    | cons x ts =>
      refine wp_gettoken hb h1 fun q eq s2 hs2 h2 hw => ?_
      refine wp_ite (fun hx => absurd hx x.code_ne) fun _ => ?_
      refine wp_ite (fun _ => (by decide : Panic.syn ≠ .fuel)) fun hx => ?_
      obtain ⟨w, rfl⟩ := word_of_code (not_not.mp hx)
      refine wp_ite (fun _ => (by decide : Panic.tooManyArgs ≠ .fuel)) fun hlt => ?_
      rw [wp_bind]
      refine (wp_parseredirs hb h2 (by omega) (hd.push (hw w rfl))).mono fun cmd2 s3 ⟨us, vs, rs2, he, hs3, h3, hr, hd2⟩ => ?_
      subst he
      rw [← Tree.wrap_append] at hd2
      have hle := h3.le
      have hlen : (ws ++ [w]).length = ws.length + 1 := by simp
      have hgo := ih h3 (by omega) hd2 (by omega)
      rw [hlen] at hgo
      refine hgo.mono fun cmd' s' ⟨us', vs', ws', rs', he, hs', h', ha, hl, hd'⟩ => ?_
      subst he
      rw [List.append_assoc] at hl hd'
      rw [List.append_assoc] at hd'
      exact ⟨.word w :: us ++ us', vs', w :: ws', rs2 ++ rs', by simp, by omega, h', .cons hr ha, hl, hd'⟩

/-- Nothing follows, or one of `toks`. -/
def Follow (toks : List UInt8) (vs : List Token) : Prop := vs = [] ∨ looks toks vs = true

omit hb in
theorem Follow.mono {toks toks' : List UInt8} (h : Follow toks vs) (hs : toks ⊆ toks') : Follow toks' vs := by
  rcases h with rfl | h
  · exact .inl rfl
  · right
    cases vs with
    | nil => cases h
    | cons x vs =>
      rw [looks, Option.any_eq_true] at h ⊢
      obtain ⟨c, hc, hm⟩ := h
      exact ⟨c, hc, List.contains_iff_mem.mpr (hs (List.contains_iff_mem.mp hm))⟩

omit hb in
theorem Follow.not_looks {toks toks' : List UInt8} (h : Follow toks vs) (hd : toks.all (!toks'.contains ·) = true) :
    looks toks' vs = false := by
  rcases h with rfl | h
  · rfl
  · cases vs with
    | nil => cases h
    | cons x vs =>
      rw [looks, Option.any_eq_true] at h
      obtain ⟨c, hc, hm⟩ := h
      rw [looks, hc]
      simpa using List.all_eq_true.mp hd c (List.contains_iff_mem.mp hm)

omit hb in
theorem Follow.ne {toks : List UInt8} {x : Token} (h : Follow toks vs) (hx : looks toks (x :: us) = false) : vs ≠ x :: us := by
  rintro rfl
  rcases h with h | h
  · cases h
  · rw [hx] at h
    cases h

theorem Args.parses {ws ws' : List (List UInt8)} {rs rs' : List Redir} (ha : Args us ws' rs')
    (hv : Follow [bar, rparen, amp, semi] vs)
    (h : Rest b s (us ++ vs)) (hf : b.length - s < fuel) (hd : Denotes b cmd ((Tree.exec ws).wrap rs))
    (hws : (ws ++ ws').length < MAXARGS) :
    Wp E (parseargs b fuel cmd ws.length) s fun cmd' s' => s ≤ s' ∧ Rest b s' vs ∧
      Denotes b cmd' ((Tree.exec (ws ++ ws')).wrap (rs ++ rs')) := by
  induction fuel generalizing s us cmd ws rs ws' rs' with
  | zero => omega
  | succ fuel ih =>
    rw [parseargs, wp_bind]
    refine wp_peek hb h (by decide) fun s1 hs1 h1 => ?_
    cases ha with
    | nil =>
      rw [List.nil_append] at h1 ⊢
      rw [List.append_nil, List.append_nil]
      rcases hv with rfl | hv
      · refine wp_ite (fun hn => absurd hn (by decide)) fun _ => ?_
        rw [wp_bind]
        exact wp_gettoken_nil h1 fun _ s2 hs2 h2 => ⟨by omega, h2, hd⟩
      · rw [hv]
        exact ⟨hs1, h1, hd⟩
    | @cons w us rs2 us' ws' rs' hr ha =>
      refine wp_ite (fun hn => absurd hn (by simp [looks, Token.char])) fun _ => ?_
      rw [wp_bind, List.cons_append, List.cons_append] at *
      refine wp_gettoken hb h1 fun q eq s2 hs2 h2 hw => ?_
      refine wp_ite (fun hx => absurd hx (Token.code_ne _)) fun _ => ?_
      refine wp_ite (fun hx => absurd rfl hx) fun _ => ?_
      have hlen : (ws ++ w :: ws').length = ws.length + ws'.length + 1 := by simp; omega
      refine wp_ite (fun hx => ?_) fun _ => ?_
      · rw [hlen] at hws
        omega
      rw [wp_bind]
      have hlook : looks [lt, gt] (us' ++ vs) = false := by
        cases ha with
        | nil => exact hv.not_looks (by decide)
        | cons => rfl
      rw [List.append_assoc] at h2
      refine (hr.parses hb hlook h2 (by omega) (hd.push (hw w rfl))).mono fun cmd2 s3 ⟨hs3, h3, hd2⟩ => ?_
      rw [← Tree.wrap_append] at hd2
      have hle := h3.le
      have hgo := ih ha h3 (by omega) hd2 (by rwa [List.append_assoc])
      rw [List.length_append] at hgo
      refine hgo.mono fun cmd' s' ⟨hs', h', hd'⟩ => ?_
      rw [List.append_assoc, List.append_assoc] at hd'
      exact ⟨by omega, h', hd'⟩

end

/-! ## The parser takes derivations only -/

/-- Tokens of the category `c` have been taken. -/
def Took (b : List UInt8) (c : Cat) (s : Nat) (ts : List Token) (cmd : Cmd) (s' : Nat) : Prop :=
  ∃ us vs t, ts = us ++ vs ∧ s ≤ s' ∧ Rest b s' vs ∧ Derives c us t ∧ Denotes b cmd t

/-- `parse` takes tokens of the category `c`, with `n` left of the fuel at the end of the line. -/
def Takes (b : List UInt8) (c : Cat) (n fuel : Nat) (parse : Nat → M Cmd) : Prop :=
  ∀ s ts, Rest b s ts → 4 * (b.length - s) + n ≤ fuel → Wp (· ≠ .fuel) (parse fuel) s (Took b c s ts)

section

variable {b : List UInt8} (hb : 0 ∉ b) {fuel : Nat}
include hb

theorem wp_parseline (hpipe : Takes b .pipe 3 fuel (parsepipe b)) (hline : Takes b .line 4 fuel (parseline b)) :
    Takes b .line 4 (fuel + 1) (parseline b) := by
  intro s ts h hf
  rw [parseline, wp_bind]
  refine (hpipe s ts h (by omega)).mono fun cmd s1 ⟨us, vs, t, he, hs1, h1, hder, hd⟩ => ?_
  subst he
  rw [wp_bind]
  refine (wp_parsebacks hb h1 (by omega) hd).mono fun cmd s2 ⟨n, vs, he, hs2, h2, hd⟩ => ?_
  subst he
  refine wp_accept hb rfl h2 (fun vs s3 e hs3 h3 => ?_) fun _ s3 hs3 h3 => ?_
  · subst e
    have hle := h3.le
    rw [wp_bind]
    refine (hline s3 vs h3 (by omega)).mono fun right s4 ⟨us', vs, u, he, hs4, h4, hder', hd'⟩ => ?_
    subst he
    exact ⟨us ++ List.replicate n .amp ++ .semi :: us', vs, .list (t.backs n) u, by simp, by omega, h4, .list n hder hder',
      .list hd hd'⟩
  · exact ⟨us ++ List.replicate n .amp, vs, t.backs n, by simp, by omega, h3, .line n hder, hd⟩

theorem wp_parsepipe (hexec : Takes b .exec 2 fuel (parseexec b)) (hpipe : Takes b .pipe 3 fuel (parsepipe b)) :
    Takes b .pipe 3 (fuel + 1) (parsepipe b) := by
  intro s ts h hf
  rw [parsepipe, wp_bind]
  refine (hexec s ts h (by omega)).mono fun cmd s1 ⟨us, vs, t, he, hs1, h1, hder, hd⟩ => ?_
  subst he
  refine wp_accept hb rfl h1 (fun vs s2 e hs2 h2 => ?_) fun _ s2 hs2 h2 => ?_
  · subst e
    have hle := h2.le
    rw [wp_bind]
    refine (hpipe s2 vs h2 (by omega)).mono fun right s3 ⟨us', vs, u, he, hs3, h3, hder', hd'⟩ => ?_
    subst he
    exact ⟨us ++ .bar :: us', vs, .pipe t u, by simp, by omega, h3, .pipe hder hder', .pipe hd hd'⟩
  · exact ⟨us, vs, t, rfl, by omega, h2, .one hder, hd⟩

theorem wp_parseexec (hblock : Takes b .exec 1 fuel (parseblock b)) : Takes b .exec 2 (fuel + 1) (parseexec b) := by
  intro s ts h hf
  rw [parseexec, wp_bind]
  refine wp_peek hb h (by decide) fun s1 hs1 h1 => wp_ite (fun _ => ?_) fun _ => ?_
  · refine (hblock s1 ts h1 (by omega)).mono fun cmd s2 ⟨us, vs, t, he, hs2, h2, hder, hd⟩ => ?_
    exact ⟨us, vs, t, he, by omega, h2, hder, hd⟩
  · rw [wp_bind]
    refine (wp_parseredirs hb h1 (by omega) (.exec .nil)).mono fun ret s2 ⟨us, vs, rs, he, hs2, h2, hr, hd⟩ => ?_
    subst he
    refine (wp_parseargs hb h2 (by omega) hd (by decide)).mono fun cmd s3 ⟨us', vs, ws, rs', he, hs3, h3, ha, hlt, hd⟩ => ?_
    subst he
    exact ⟨us ++ us', vs, _, by simp, by omega, h3, .args hr ha hlt, hd⟩

theorem wp_parseblock (hline : Takes b .line 4 fuel (parseline b)) : Takes b .exec 1 (fuel + 1) (parseblock b) := by
  intro s ts h hf
  rw [parseblock, wp_bind]
  refine wp_peek hb h (by decide) fun s1 hs1 h1 => ?_
  refine wp_ite (fun _ => (by decide : Panic.parseblock ≠ .fuel)) fun hl => ?_
  obtain ⟨ts, rfl⟩ := looks_symbol (by simpa using hl) rfl
  rw [wp_bind]
  refine wp_gettoken hb h1 fun _ _ s2 hs2 h2 _ => ?_
  have hle := h2.le
  rw [wp_bind]
  refine (hline s2 ts h2 (by omega)).mono fun cmd s3 ⟨us, vs, t, he, hs3, h3, hder, hd⟩ => ?_
  subst he
  rw [wp_bind]
  refine wp_peek hb h3 (by decide) fun s4 hs4 h4 => ?_
  refine wp_ite (fun _ => (by decide : Panic.missingParen ≠ .fuel)) fun hl => ?_
  obtain ⟨vs, rfl⟩ := looks_symbol (by simpa using hl) rfl
  rw [wp_bind]
  refine wp_gettoken hb h4 fun _ _ s5 hs5 h5 _ => ?_
  refine (wp_parseredirs hb h5 (by omega) hd).mono fun cmd s6 ⟨us', vs, rs, he, hs6, h6, hr, hd⟩ => ?_
  subst he
  exact ⟨.lparen :: us ++ .rparen :: us', vs, _, by simp, by omega, h6, .block hder hr, hd⟩

/-- What the parser takes has a derivation, and the fuel lasts: each round of the four functions takes a token. -/
theorem wp_parse (fuel : Nat) : Takes b .line 4 fuel (parseline b) ∧ Takes b .pipe 3 fuel (parsepipe b) ∧
    Takes b .exec 2 fuel (parseexec b) ∧ Takes b .exec 1 fuel (parseblock b) := by
  induction fuel with
  | zero => refine ⟨?_, ?_, ?_, ?_⟩ <;> intro s ts h hf <;> omega
  | succ fuel ih =>
    obtain ⟨hline, hpipe, hexec, hblock⟩ := ih
    exact ⟨wp_parseline hb hpipe hline, wp_parsepipe hb hexec hpipe, wp_parseexec hb hblock, wp_parseblock hb hline⟩

end

/-! ## The parser takes every derivation -/

def parse (b : List UInt8) : Cat → Nat → M Cmd
  | .line => parseline b
  | .pipe => parsepipe b
  | .exec => parseexec b

def level : Cat → Nat
  | .line => 4
  | .pipe => 3
  | .exec => 2

theorem level_succ {c : Cat} {n fuel : Nat} (h : n + level c ≤ fuel) : ∃ f, fuel = f + 1 :=
  ⟨fuel - 1, by cases c <;> simp only [level] at h <;> omega⟩

/-- The symbols that may follow a category. -/
def follow : Cat → List UInt8
  | .line => [rparen]
  | .pipe => [rparen, amp, semi]
  | .exec => [bar, rparen, amp, semi]

section

variable {b : List UInt8} (hb : 0 ∉ b) {E : Panic → Prop} {s fuel : Nat} {us vs : List Token} {t : Tree} {c : Cat}

theorem looks_args {ws : List (List UInt8)} {rs rs' : List Redir} (hr : Redirs us rs) {ts : List Token} (ha : Args ts ws rs')
    (hv : Follow (follow .exec) vs) : looks [lparen] (us ++ ts ++ vs) = false := by
  rcases hr.cases with ⟨rfl, rfl⟩ | ⟨op, w, us, r, rs, rfl, rfl, hop, -⟩
  · cases ha with
    | nil => exact hv.not_looks (by decide)
    | cons => rfl
  · cases op with
    | lt => rfl
    | gt => rfl
    | gtgt => rfl
    | _ => cases hop

include hb

/-- What has a derivation is taken, if nothing follows that could be part of it. -/
theorem Derives.parses (hder : Derives c us t) (hv : Follow (follow c) vs) (h : Rest b s (us ++ vs))
    (hf : 4 * (b.length - s) + level c ≤ fuel) :
    Wp E (parse b c fuel) s fun cmd s' => s ≤ s' ∧ Rest b s' vs ∧ Denotes b cmd t := by
  induction hder generalizing s fuel vs with
  | @line ts t n hp ih =>
    obtain ⟨fuel, rfl⟩ := level_succ hf
    simp only [level] at hf ih
    simp only [parse] at ih ⊢
    rw [parseline, wp_bind]
    rw [List.append_assoc] at h
    have hfol : Follow (follow .pipe) (List.replicate n .amp ++ vs) := by
      cases n with
      | zero => exact hv.mono (by decide)
      | succ n => exact .inr rfl
    refine (ih hfol h (by omega)).mono fun cmd s1 ⟨hs1, h1, hd⟩ => ?_
    rw [wp_bind]
    refine (backs_parses hb (hv.not_looks (by decide)) h1 (by omega) hd).mono fun cmd s2 ⟨hs2, h2, hd⟩ => ?_
    exact wp_accept hb rfl h2 (fun _ _ e => absurd e (hv.ne rfl)) fun _ s3 hs3 h3 => ⟨by omega, h3, hd⟩
  | @list ts t us u n hp hl ihp ihl =>
    obtain ⟨fuel, rfl⟩ := level_succ hf
    simp only [level] at hf ihp ihl
    simp only [parse] at ihp ihl ⊢
    rw [parseline, wp_bind]
    rw [List.append_assoc, List.append_assoc, List.cons_append] at h
    have hfol : Follow (follow .pipe) (List.replicate n .amp ++ .semi :: (us ++ vs)) := by
      cases n with
      | zero => exact .inr rfl
      | succ n => exact .inr rfl
    refine (ihp hfol h (by omega)).mono fun cmd s1 ⟨hs1, h1, hd⟩ => ?_
    rw [wp_bind]
    refine (backs_parses hb rfl h1 (by omega) hd).mono fun cmd s2 ⟨hs2, h2, hd⟩ => ?_
    refine wp_accept hb rfl h2 (fun _ s3 e hs3 h3 => ?_) nofun
    cases e
    have hle := h3.le
    rw [wp_bind]
    refine (ihl hv h3 (by omega)).mono fun right s4 ⟨hs4, h4, hd'⟩ => ?_
    exact ⟨by omega, h4, .list hd hd'⟩
  | @one ts t he ih =>
    obtain ⟨fuel, rfl⟩ := level_succ hf
    simp only [level] at hf ih
    simp only [parse] at ih ⊢
    rw [parsepipe, wp_bind]
    refine (ih (hv.mono (by decide)) h (by omega)).mono fun cmd s1 ⟨hs1, h1, hd⟩ => ?_
    exact wp_accept hb rfl h1 (fun _ _ e => absurd e (hv.ne rfl)) fun _ s2 hs2 h2 => ⟨by omega, h2, hd⟩
  | @pipe ts t us u he hp ihe ihp =>
    obtain ⟨fuel, rfl⟩ := level_succ hf
    simp only [level] at hf ihe ihp
    simp only [parse] at ihe ihp ⊢
    rw [parsepipe, wp_bind]
    rw [List.append_assoc, List.cons_append] at h
    refine (ihe (.inr rfl) h (by omega)).mono fun cmd s1 ⟨hs1, h1, hd⟩ => ?_
    refine wp_accept hb rfl h1 (fun _ s2 e hs2 h2 => ?_) nofun
    cases e
    have hle := h2.le
    rw [wp_bind]
    refine (ihp hv h2 (by omega)).mono fun right s3 ⟨hs3, h3, hd'⟩ => ?_
    exact ⟨by omega, h3, .pipe hd hd'⟩
  | @block ts t us rs hl hr ih =>
    obtain ⟨fuel, rfl⟩ : ∃ f, fuel = f + 2 := ⟨fuel - 2, by simp only [level] at hf; omega⟩
    simp only [level] at hf ih
    simp only [parse] at ih ⊢
    rw [parseexec, wp_bind]
    rw [List.append_assoc, List.cons_append, List.cons_append] at h
    refine wp_peek hb h (by decide) fun s1 hs1 h1 => ?_
    refine wp_ite (fun _ => ?_) fun hn => absurd rfl hn
    rw [parseblock, wp_bind]
    refine wp_peek hb h1 (by decide) fun s2 hs2 h2 => ?_
    refine wp_ite (fun hn => absurd hn (by simp [looks, Token.char, Token.code])) fun _ => ?_
    rw [wp_bind]
    refine wp_gettoken hb h2 fun _ _ s3 hs3 h3 _ => ?_
    have hle := h3.le
    rw [wp_bind]
    refine (ih (.inr rfl) h3 (by omega)).mono fun cmd s4 ⟨hs4, h4, hd⟩ => ?_
    rw [wp_bind]
    refine wp_peek hb h4 (by decide) fun s5 hs5 h5 => ?_
    refine wp_ite (fun hn => absurd hn (by simp [looks, Token.char, Token.code])) fun _ => ?_
    rw [wp_bind]
    refine wp_gettoken hb h5 fun _ _ s6 hs6 h6 _ => ?_
    refine (hr.parses hb (hv.not_looks (by decide)) h6 (by omega) hd).mono fun cmd s7 ⟨hs7, h7, hd⟩ => ?_
    exact ⟨by omega, h7, hd⟩
  | @args us rs ts ws rs' hr ha hlt =>
    obtain ⟨fuel, rfl⟩ := level_succ hf
    simp only [parse]
    rw [parseexec, wp_bind]
    refine wp_peek hb h (by decide) fun s1 hs1 h1 => ?_
    rw [looks_args hr ha hv]
    refine wp_ite (fun hn => absurd hn (by decide)) fun _ => ?_
    rw [wp_bind]
    rw [List.append_assoc] at h1
    have hlook : looks [lt, gt] (ts ++ vs) = false := by
      cases ha with
      | nil => exact hv.not_looks (by decide)
      | cons => rfl
    refine (hr.parses hb hlook h1 (by omega) (.exec .nil)).mono fun ret s2 ⟨hs2, h2, hd⟩ => ?_
    refine (ha.parses hb hv h2 (by omega) hd hlt).mono fun cmd s3 ⟨hs3, h3, hd⟩ => ?_
    exact ⟨by omega, h3, hd⟩

end

/-! ## The strings of the command -/

def cstr (b : List UInt8) (q : Nat) : List UInt8 := (b.drop q).takeWhile (· != 0)

/-- The command with the strings it points to. -/
def Cmd.tree (b : List UInt8) : Cmd → Tree
  | .exec argv => .exec (argv.map fun a => cstr b a.1)
  | .redir cmd file _ mode fd => .redir (cmd.tree b) (cstr b file) mode fd
  | .pipe left right => .pipe (left.tree b) (right.tree b)
  | .list left right => .list (left.tree b) (right.tree b)
  | .back cmd => .back (cmd.tree b)

/-- Where `nulterminate` writes. -/
def Cmd.ends : Cmd → List Nat
  | .exec argv => argv.map (·.2)
  | .redir cmd _ efile _ _ => cmd.ends ++ [efile]
  | .pipe left right => left.ends ++ right.ends
  | .list left right => left.ends ++ right.ends
  | .back cmd => cmd.ends

/-- The bytes at `es` overwritten. -/
def zeroed (es : List Nat) (b : List UInt8) : List UInt8 := es.foldl (fun b e => b.set e 0) b

theorem nulterminate_eq (cmd : Cmd) (b : List UInt8) : nulterminate cmd b = zeroed cmd.ends b := by
  induction cmd generalizing b with
  | exec argv => rw [nulterminate, Cmd.ends, zeroed, List.foldl_map]
  | redir cmd file efile mode fd ih => rw [nulterminate, ih, Cmd.ends, zeroed, zeroed, List.foldl_append]; rfl
  | pipe left right ihl ihr | list left right ihl ihr =>
    rw [nulterminate, ihl, ihr, Cmd.ends, zeroed, zeroed, zeroed, List.foldl_append]
  | back cmd ih => rw [nulterminate, ih, Cmd.ends]

theorem deref_zeroed (es : List Nat) (b : List UInt8) (i : Nat) : deref (zeroed es b) i = if i ∈ es then 0 else deref b i := by
  induction es generalizing b with
  | nil => rfl
  | cons e es ih =>
    show deref (zeroed es (b.set e 0)) i = _
    rw [ih]
    by_cases hi : i ∈ es
    · rw [if_pos hi, if_pos (List.mem_cons_of_mem _ hi)]
    · rw [if_neg hi]
      simp only [deref, List.getD_eq_getElem?_getD, List.getElem?_set, List.mem_cons, hi, or_false]
      grind

section

variable {b : List UInt8} {cmd : Cmd} {t : Tree} {q eq : Nat} {w : List UInt8}

theorem drop_of_deref {c : UInt8} {s : Nat} (h : deref b s = c) (hc : c ≠ 0) : b.drop s = c :: b.drop (s + 1) := by
  have hlt : s < b.length := by
    by_contra hn
    exact hc (h ▸ List.getD_eq_default _ _ (by omega))
  rw [List.drop_eq_getElem_cons hlt, ← h, deref, List.getD_eq_getElem _ _ hlt]

theorem cstr_eq (h : ∀ i, (hi : i < w.length) → deref b (q + i) = w[i] ∧ w[i] ≠ 0) (he : deref b (q + w.length) = 0) :
    cstr b q = w := by
  induction w generalizing q with
  | nil =>
    rw [List.length_nil, Nat.add_zero] at he
    rw [cstr]
    cases hd : b.drop q with
    | nil => rfl
    | cons c cs =>
      rw [← (deref_of_drop hd).1, he]
      rfl
  | cons c w ih =>
    obtain ⟨h0, hne⟩ := h 0 (by simp)
    rw [cstr, drop_of_deref (by simpa using h0) (by simpa using hne), List.takeWhile_cons_of_pos (by simpa using hne)]
    refine congrArg (c :: ·) (ih (fun i hi => ?_) ?_)
    · have := h (i + 1) (by simpa using hi)
      rwa [Nat.add_right_comm, Nat.add_assoc]
    · rwa [List.length_cons, Nat.add_comm w.length, ← Nat.add_assoc] at he

theorem Word.deref (h : Word b q eq w) : (∀ i, (hi : i < w.length) → Sh.deref b (q + i) = w[i]) ∧
    (Sh.deref b eq = 0 ∨ isWord (Sh.deref b eq) = false) := by
  have hd : b.drop q = w ++ b.drop eq := by
    have := drop_skip (b := b) (s := q) isWord
    rw [h.bytes, ← h.stop] at this
    rw [this, ← h.bytes, List.takeWhile_append_dropWhile]
  refine ⟨fun i hi => ?_, ?_⟩
  · have : (b.drop q)[i]? = some w[i] := by rw [hd, List.getElem?_append_left hi, List.getElem?_eq_getElem hi]
    rw [List.getElem?_drop] at this
    rw [Sh.deref, List.getD_eq_getElem?_getD, this]
    rfl
  · cases hc : b.drop eq with
    | nil => exact .inl (deref_of_end hc)
    | cons c cs =>
      right
      rw [(deref_of_drop hc).1]
      have := List.head_dropWhile_not isWord (l := b.drop q) (by
        rw [← drop_skip, h.bytes, ← h.stop, hc]
        simp)
      simpa only [← drop_skip, h.bytes, ← h.stop, hc, List.head_cons] using this

theorem Denotes.ends (h : Denotes b cmd t) {e : Nat} (he : e ∈ cmd.ends) : deref b e = 0 ∨ isWord (deref b e) = false := by
  induction h with
  | exec h =>
    obtain ⟨a, ha, rfl⟩ := List.mem_map.mp he
    obtain ⟨i, hi, rfl⟩ := List.getElem_of_mem ha
    exact ((List.forall₂_iff_get.mp h).2 i hi (h.length_eq ▸ hi)).deref.2
  | redir hd hw ih =>
    rcases List.mem_append.mp he with he | he
    · exact ih he
    · rw [List.mem_singleton.mp he]
      exact hw.deref.2
  | pipe _ _ ihl ihr => exact (List.mem_append.mp he).elim ihl ihr
  | list _ _ ihl ihr => exact (List.mem_append.mp he).elim ihl ihr
  | back _ ih => exact ih he

/-- Where the line has been cut behind words only, and behind this one, the string is the word. -/
theorem Word.cstr (hb : 0 ∉ b) (h : Word b q eq w) {es : List Nat} (he : eq ∈ es)
    (hes : ∀ e ∈ es, Sh.deref b e = 0 ∨ isWord (Sh.deref b e) = false) : Sh.cstr (zeroed es b) q = w := by
  have hp : w <+: b.drop q := h.bytes ▸ ( List.takeWhile_prefix _)
  refine cstr_eq (fun i hi => ?_) ?_
  · have hm : w[i] ∈ w := List.getElem_mem hi
    have hne : w[i] ≠ 0 := fun h0 => hb (List.mem_of_mem_drop (hp.subset (h0 ▸ hm)))
    refine ⟨?_, hne⟩
    rw [deref_zeroed, if_neg, h.deref.1 i hi]
    intro hin
    rcases h.deref.1 i hi ▸ hes _ hin with h0 | h0
    · exact hne h0
    · rw [h.mem _ hm] at h0
      cases h0
  · rw [deref_zeroed, ← h.stop, if_pos he]

theorem Denotes.tree_zeroed (hb : 0 ∉ b) (h : Denotes b cmd t) {es : List Nat} (hsub : cmd.ends ⊆ es)
    (hes : ∀ e ∈ es, deref b e = 0 ∨ isWord (deref b e) = false) : cmd.tree (zeroed es b) = t := by
  induction h with
  | @exec argv ws h =>
    refine congrArg Tree.exec (List.ext_getElem (by rw [List.length_map, h.length_eq]) fun i hi hi' => ?_)
    rw [List.length_map] at hi
    rw [List.getElem_map]
    exact ((List.forall₂_iff_get.mp h).2 i hi hi').cstr hb (hsub (List.mem_map.mpr ⟨_, List.getElem_mem hi, rfl⟩)) hes
  | redir hd hw ih =>
    rw [Cmd.tree, ih (fun e he => hsub (List.mem_append_left _ he)), hw.cstr hb (hsub (List.mem_append_right _ (by simp))) hes]
  | pipe _ _ ihl ihr =>
    rw [Cmd.tree, ihl (fun e he => hsub (List.mem_append_left _ he)), ihr (fun e he => hsub (List.mem_append_right _ he))]
  | list _ _ ihl ihr =>
    rw [Cmd.tree, ihl (fun e he => hsub (List.mem_append_left _ he)), ihr (fun e he => hsub (List.mem_append_right _ he))]
  | back _ ih => rw [Cmd.tree, ih hsub]

theorem Denotes.tree (hb : 0 ∉ b) (h : Denotes b cmd t) : cmd.tree (nulterminate cmd b) = t := by
  rw [nulterminate_eq]
  exact h.tree_zeroed hb (List.Subset.refl _) fun _ => h.ends

end

/-! ## The shell's parser -/

section

variable {b : List UInt8} {E : Panic → Prop} {s : Nat} {ts : List Token} {t : Tree}

/-- After whitespace, the line is at its end iff there are no tokens left. -/
theorem wp_peek_end (h : Rest b s ts) : Wp E (peek b []) s fun _ s' => s' = b.length ↔ ts = [] := by
  obtain ⟨h1, -, h3⟩ := h.skip
  show skipWhitespace b s = b.length ↔ ts = []
  generalize skipWhitespace b s = s' at h1 h3
  have hle := h1.le
  have hlt : ∀ {c cs}, b.drop s' = c :: cs → s' ≠ b.length := fun hd => Nat.ne_of_lt (deref_of_drop hd).2.1
  cases h1.next h3 with
  | nil hd => exact ⟨fun _ => rfl, fun _ => Nat.le_antisymm hle (List.drop_eq_nil_iff.mp hd)⟩
  | symbol hd => exact ⟨fun h => absurd h (hlt hd), nofun⟩
  | gt hd => exact ⟨fun h => absurd h (hlt hd), nofun⟩
  | gtgt hd => exact ⟨fun h => absurd h (hlt hd), nofun⟩
  | word hd => exact ⟨fun h => absurd h (hlt hd), nofun⟩

theorem wp_parseall (hb : 0 ∉ b) :
    Wp (· ≠ .fuel) (parseall b) 0 fun cmd _ => ∃ t, Derives .line (lex b) t ∧ Denotes b cmd t := by
  have h : Rest b 0 (lex b) := ⟨Nat.zero_le _, rfl⟩
  rw [parseall, wp_bind]
  refine ((wp_parse hb _).1 0 _ h (by omega)).mono fun cmd s ⟨us, vs, t, he, _, h1, hder, hd⟩ => ?_
  rw [wp_bind]
  refine (wp_peek_end h1).mono fun _ s' hs' => ?_
  rw [wp_bind, wp_get]
  refine wp_ite (fun _ => (by decide : Panic.syn ≠ .fuel)) fun hn => ?_
  rw [hs'.mp (not_not.mp hn), List.append_nil] at he
  exact ⟨t, he ▸ hder, hd⟩

theorem Derives.parseall (hb : 0 ∉ b) (hder : Derives .line (lex b) t) :
    Wp E (Sh.parseall b) 0 fun cmd _ => Denotes b cmd t := by
  have h : Rest b 0 (lex b ++ []) := ⟨Nat.zero_le _, by rw [List.append_nil]; rfl⟩
  rw [Sh.parseall, wp_bind]
  have hgo : Wp E (parse b .line (4 * b.length + 4)) 0 fun cmd s' => 0 ≤ s' ∧ Rest b s' [] ∧ Denotes b cmd t :=
    hder.parses hb (.inl rfl) h (by simp [level])
  refine Wp.mono hgo fun cmd s ⟨_, h1, hd⟩ => ?_
  rw [wp_bind]
  refine (wp_peek_end h1).mono fun _ s' hs' => ?_
  rw [wp_bind, wp_get]
  exact wp_ite (fun hn => absurd (hs'.mpr rfl) hn) fun _ => hd

end

/-- For every line of bytes without NUL, the parser returns the tree of the only derivation of the line's tokens,
    or it panics and there is no derivation. It does not run out of fuel. -/
theorem parsecmd_grammar (b : List UInt8) (hb : 0 ∉ b) :
    match parsecmd b with
    | .ok (cmd, buf) => ∀ t, Derives .line (lex b) t ↔ t = cmd.tree buf
    | .error e => e ≠ .fuel ∧ ∀ t, ¬ Derives .line (lex b) t := by
  have hsound := wp_parseall hb
  have hcomplete := fun t (h : Derives .line (lex b) t) => h.parseall (E := fun _ => False) hb
  rw [parsecmd]
  cases hp : parseall b 0 with
  | error e => exact ⟨hsound.of_error hp, fun t ht => (hcomplete t ht).of_error hp⟩
  | ok r =>
    obtain ⟨cmd, s⟩ := r
    obtain ⟨t, hder, hd⟩ := hsound.of_ok hp
    refine fun t' => ⟨fun ht' => ?_, fun ht' => ?_⟩
    · exact (((hcomplete t' ht').of_ok hp).tree hb).symm
    · rw [ht', hd.tree hb]
      exact hder

/-- "a>b" is taken, and its tree is `a` with its output to `b`. -/
theorem parsecmd_grammar_redir :
    match parsecmd [0x61, 0x3e, 0x62] with
    | .ok (cmd, buf) => ∀ t, Derives .line (lex [0x61, 0x3e, 0x62]) t ↔ t = cmd.tree buf
    | .error e => e ≠ .fuel ∧ ∀ t, ¬ Derives .line (lex [0x61, 0x3e, 0x62]) t :=
  parsecmd_grammar [0x61, 0x3e, 0x62] (by decide)

example : (parsecmd [0x61, 0x3e, 0x62]).map (fun r => r.1.tree r.2) =
    .ok (.redir (.exec [[0x61]]) [0x62] (O_WRONLY ||| O_CREATE ||| O_TRUNC) 1) := by
  decide

end Xv6.Sh
