/-
  Xv6.Grep.Match — the regular expressions of grep (user/grep.c: match, matchhere, matchstar).

  A string is the list of its bytes before the NUL, so `*text == '\0'` is the end of the list.
  `matchstar`, and `matchbyte` for the last test of `matchhere`, take the rest of the pattern as the
  function that matches it. The meaning of a pattern is the product of the languages of its items.
-/

import Mathlib.Computability.Language

open scoped Computability

namespace Xv6.Grep

def caret : UInt8 := 0x5e
def star : UInt8 := 0x2a
def dollar : UInt8 := 0x24
def dot : UInt8 := 0x2e

/-! ## The matcher -/

def matchstar (here : List UInt8 → Bool) (c : UInt8) : List UInt8 → Bool
  | [] => here []
  | t :: text => here (t :: text) || ((t == c || c == dot) && matchstar here c text)

/-- One byte that `c` matches, and then what `here` matches. -/
def matchbyte (here : List UInt8 → Bool) (c : UInt8) : List UInt8 → Bool
  | [] => false
  | t :: text => (c == dot || c == t) && here text

def matchhere : List UInt8 → List UInt8 → Bool
  | [], _ => true
  | [c], text => if c = dollar then text.isEmpty else matchbyte (matchhere []) c text
  | c :: d :: re, text => if d = star then matchstar (matchhere re) c text else matchbyte (matchhere (d :: re)) c text

/-- The loop of `match`: `re` at every suffix of the text. -/
def search (re : List UInt8) : List UInt8 → Bool
  | [] => matchhere re []
  | t :: text => matchhere re (t :: text) || search re text

def match_ (re text : List UInt8) : Bool :=
  match re with
  | [] => search [] text
  | c :: re => if c = caret then matchhere re text else search (c :: re) text

/-! ## The meaning of a pattern -/

inductive Item where
  | one (c : UInt8)
  | star (c : UInt8)
  deriving DecidableEq, Repr

/-- The items of a pattern without its `^`, and whether it ends with the anchor `$`. -/
def parse : List UInt8 → List Item × Bool
  | [] => ([], false)
  | [c] => if c = dollar then ([], true) else ([.one c], false)
  | c :: d :: re =>
    if d = Grep.star then (.star c :: (parse re).1, (parse re).2) else (.one c :: (parse (d :: re)).1, (parse (d :: re)).2)

/-- The byte `c` of a pattern stands for `x`. -/
def Accepts (c x : UInt8) : Prop := c = dot ∨ c = x

/-- The strings of one byte that `c` stands for. -/
def byteLang (c : UInt8) : Language UInt8 := {w | ∃ x, Accepts c x ∧ w = [x]}

def Item.lang : Item → Language UInt8
  | .one c => byteLang c
  | .star c => (byteLang c)∗

def lang (items : List Item) : Language UInt8 := (items.map Item.lang).prod

/-- A prefix of the text is in the language, and all of it if there is an end anchor. -/
def Here (p : List Item × Bool) (text : List UInt8) : Prop :=
  ∃ u v, text = u ++ v ∧ u ∈ lang p.1 ∧ (p.2 = true → v = [])

/-- What a pattern is to find. -/
def Found : List UInt8 → List UInt8 → Prop
  | [], text => ∃ t, t <:+ text ∧ Here (parse []) t
  | c :: re, text => if c = caret then Here (parse re) text else ∃ t, t <:+ text ∧ Here (parse (c :: re)) t

theorem mem_star {c : UInt8} {w : List UInt8} : w ∈ (byteLang c)∗ ↔ ∀ x ∈ w, Accepts c x := by
  rw [Language.mem_kstar]
  constructor
  · intro ⟨L, hw, hL⟩ x hx
    subst hw
    obtain ⟨y, hy, hxy⟩ := List.mem_flatten.mp hx
    obtain ⟨z, hz, hyz⟩ := hL y hy
    rw [hyz, List.mem_singleton] at hxy
    exact hxy ▸ hz
  · intro h
    refine ⟨w.map fun x => [x], ?_, ?_⟩
    · induction w with
      | nil => rfl
      | cons x w ih =>
        rw [List.map_cons, List.flatten_cons, ← ih fun y hy => h y (List.mem_cons_of_mem x hy)]
        rfl
    · intro y hy
      obtain ⟨x, hx, rfl⟩ := List.mem_map.mp hy
      exact ⟨x, h x hx, rfl⟩

theorem here_nil {text : List UInt8} : Here ([], false) text :=
  ⟨[], text, rfl, Language.nil_mem_one, fun h => nomatch h⟩

theorem here_end {text : List UInt8} : Here ([], true) text ↔ text = [] := by
  constructor
  · intro ⟨u, v, htext, hu, hv⟩
    rw [htext, hv rfl, List.append_nil]
    exact hu
  · intro h
    exact ⟨[], [], h, Language.nil_mem_one, fun _ => rfl⟩

theorem here_cons {i : Item} {items : List Item} {e : Bool} {text : List UInt8} :
    Here (i :: items, e) text ↔ ∃ u v, text = u ++ v ∧ u ∈ i.lang ∧ Here (items, e) v := by
  constructor
  · intro ⟨w, v, htext, hw, hv⟩
    obtain ⟨a, ha, b, hb, hab⟩ := Language.mem_mul.mp hw
    refine ⟨a, b ++ v, ?_, ha, b, v, rfl, hb, hv⟩
    rw [htext, ← hab, List.append_assoc]
  · intro ⟨a, w, htext, ha, b, v, hw, hb, hv⟩
    refine ⟨a ++ b, v, ?_, Language.append_mem_mul ha hb, hv⟩
    rw [htext, hw, List.append_assoc]

/-! ## The matcher is right -/

theorem matchstar_iff {here : List UInt8 → Bool} {c : UInt8} {text : List UInt8} :
    matchstar here c text = true ↔ ∃ u v, text = u ++ v ∧ (∀ x ∈ u, Accepts c x) ∧ here v = true := by
  induction text with
  | nil =>
    constructor
    · intro h
      exact ⟨[], [], rfl, fun x hx => absurd hx List.not_mem_nil, h⟩
    · intro ⟨u, v, htext, _, hv⟩
      rw [(List.append_eq_nil_iff.mp htext.symm).2] at hv
      exact hv
  | cons t text ih =>
    simp only [matchstar, Bool.or_eq_true, Bool.and_eq_true, beq_iff_eq, ih]
    constructor
    · intro h
      rcases h with h | ⟨ht, u, v, htext, hu, hv⟩
      · exact ⟨[], t :: text, rfl, fun x hx => absurd hx List.not_mem_nil, h⟩
      · refine ⟨t :: u, v, by rw [htext]; rfl, ?_, hv⟩
        intro x hx
        cases hx with
        | head => exact ht.elim (fun h => .inr h.symm) .inl
        | tail _ hx => exact hu x hx
    · intro ⟨u, v, htext, hu, hv⟩
      cases u with
      | nil =>
        left
        rw [htext]
        exact hv
      | cons x u =>
        obtain ⟨rfl, rfl⟩ := List.cons.inj htext
        right
        refine ⟨(hu t List.mem_cons_self).elim .inr fun h => .inl h.symm, u, v, rfl, ?_, hv⟩
        intro x hx
        exact hu x (List.mem_cons_of_mem t hx)

theorem matchbyte_iff {here : List UInt8 → Bool} {c : UInt8} {text : List UInt8} :
    matchbyte here c text = true ↔ ∃ u v, text = u ++ v ∧ u ∈ byteLang c ∧ here v = true := by
  constructor
  · intro h
    cases text with
    | nil => cases h
    | cons t text =>
      simp only [matchbyte, Bool.and_eq_true, Bool.or_eq_true, beq_iff_eq] at h
      exact ⟨[t], text, rfl, ⟨t, h.1, rfl⟩, h.2⟩
  · intro ⟨u, v, htext, ⟨x, hx, hu⟩, hv⟩
    subst htext hu
    simp only [List.cons_append, List.nil_append, matchbyte, Bool.and_eq_true, Bool.or_eq_true, beq_iff_eq]
    exact ⟨hx, hv⟩

theorem matchhere_iff (re text : List UInt8) : matchhere re text = true ↔ Here (parse re) text := by
  induction re using parse.induct generalizing text with
  | case1 => exact iff_of_true rfl here_nil
  | case2 =>
    simp only [matchhere, parse, if_true, List.isEmpty_iff]
    exact here_end.symm
  | case3 c hc =>
    simp only [matchhere, parse, if_neg hc, matchbyte_iff, here_cons, Item.lang, here_nil]
  | case4 c re ih =>
    simp only [matchhere, parse, if_true, matchstar_iff, here_cons, Item.lang, mem_star, ih]
  | case5 c d re hd ih =>
    simp only [matchhere, parse, if_neg hd, matchbyte_iff, here_cons, Item.lang, ih]

theorem search_iff (re text : List UInt8) : search re text = true ↔ ∃ t, t <:+ text ∧ Here (parse re) t := by
  induction text with
  | nil =>
    simp only [search, matchhere_iff, List.suffix_nil]
    exact ⟨fun h => ⟨[], rfl, h⟩, fun ⟨t, ht, h⟩ => ht ▸ h⟩
  | cons x text ih =>
    simp only [search, Bool.or_eq_true, matchhere_iff, ih, List.suffix_cons_iff]
    constructor
    · intro h
      rcases h with h | ⟨t, ht, h⟩
      · exact ⟨x :: text, .inl rfl, h⟩
      · exact ⟨t, .inr ht, h⟩
    · intro ⟨t, ht, h⟩
      rcases ht with ht | ht
      · exact .inl (ht ▸ h)
      · exact .inr ⟨t, ht, h⟩

/-- The matcher is sound and complete. -/
theorem match_iff (re text : List UInt8) : match_ re text = true ↔ Found re text := by
  cases re with
  | nil => exact search_iff [] text
  | cons c re =>
    simp only [match_, Found]
    split
    · exact matchhere_iff re text
    · exact search_iff (c :: re) text

end Xv6.Grep
