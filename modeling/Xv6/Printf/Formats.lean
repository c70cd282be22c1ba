/-
  Xv6.Printf.Formats — what the two `printf`s make of a format.

  A format is read into items (`parse`): characters, conversions by their names, unknown
  directives; a '%' at the end of the format stands for nothing. Filled with the arguments, items
  are pieces, and each piece has a text of its own (`Piece.right`).
-/

import Xv6.Printf.Numeral

namespace Xv6.Printf

/-! ## Formats -/

/-- How a number is written. -/
inductive Num where
  | signed | unsigned | hex
  deriving DecidableEq, Repr

def Num.base : Num → Nat
  | .hex => 16
  | _ => 10

def Num.sign : Num → Bool
  | .signed => true
  | _ => false

inductive Conv where
  | int (k : Num)
  | long (k : Num)
  | ptr
  | str
  | percent
  deriving DecidableEq, Repr

/-- The conversions by name: "d", "ld", "lld", "u", "lu", "llu", "x", "lx", "llx", "p", "s", "%". -/
def names : List (List UInt8 × Conv) :=
  [([chD], .int .signed), ([chL, chD], .long .signed), ([chL, chL, chD], .long .signed),
    ([chU], .int .unsigned), ([chL, chU], .long .unsigned), ([chL, chL, chU], .long .unsigned),
    ([chX], .int .hex), ([chL, chX], .long .hex), ([chL, chL, chX], .long .hex),
    ([chP], .ptr), ([chS], .str), ([percent], .percent)]

/-- The conversion whose name the text starts with. -/
def named (t : List UInt8) : Option (List UInt8 × Conv) := names.find? fun e => e.1.isPrefixOf t

inductive Item where
  | char (c : UInt8)
  | conv (c : Conv)
  /-- A directive that is none: '%' and the character. -/
  | unknown (c : UInt8)
  deriving DecidableEq, Repr

def parse : List UInt8 → List Item
  | [] => []
  | c :: t =>
    if c ≠ percent then .char c :: parse t
    else
      match t with
      | [] => []
      | c0 :: t' =>
        match named (c0 :: t') with
        | some e => .conv e.2 :: parse (t'.drop (e.1.length - 1))
        | none => .unknown c0 :: parse t'
termination_by t => t.length
decreasing_by all_goals simp <;> omega

/-- An item with its argument. -/
inductive Piece where
  | char (c : UInt8)
  | unknown (c : UInt8)
  | percent
  | int (k : Num) (v : BitVec 32)
  | long (k : Num) (v : BitVec 64)
  | ptr (v : BitVec 64)
  | str (s : Option (List UInt8))
  deriving DecidableEq, Repr

/-- The items with their arguments, if the arguments match. -/
def fill : List Item → List Arg → Option (List Piece)
  | [], [] => some []
  | .char c :: is, ap => (fill is ap).map (.char c :: ·)
  | .unknown c :: is, ap => (fill is ap).map (.unknown c :: ·)
  | .conv .percent :: is, ap => (fill is ap).map (.percent :: ·)
  | .conv (.int k) :: is, .int v :: ap => (fill is ap).map (.int k v :: ·)
  | .conv (.long k) :: is, .long v :: ap => (fill is ap).map (.long k v :: ·)
  | .conv .ptr :: is, .long v :: ap => (fill is ap).map (.ptr v :: ·)
  | .conv .str :: is, .str s :: ap => (fill is ap).map (.str s :: ·)
  | _, _ => none

def pointer (digits : List UInt8) (v : Nat) : List UInt8 :=
  zero :: chX :: (List.range 16).map fun i => digits.getD (v / 16 ^ (15 - i) % 16) 0

/-- The text that stands for the piece. -/
def Piece.right (digits : List UInt8) : Piece → List UInt8
  | .char c => [c]
  | .unknown c => [Printf.percent, c]
  | .percent => [Printf.percent]
  | .int k v => wanted digits v k.base k.sign
  | .long k v => wanted digits v k.base k.sign
  | .ptr v => pointer digits v.toNat
  | .str s => s.getD null

/-- What a `printf` prints for the piece. -/
def Piece.render (o : Calls) : Piece → Except Fault (List UInt8)
  | .char c => .ok [c]
  | .unknown c => .ok [Printf.percent, c]
  | .percent => .ok [Printf.percent]
  | .int k v => o.int v k.base k.sign
  | .long k v => o.long v k.base k.sign
  | .ptr v => .ok (o.ptr v)
  | .str s => .ok (s.getD null)

/-! ## Reading a directive -/

variable {o : Calls} {fmt t : List UInt8} {ap : List Arg} {ps : List Piece}

def Conv.run (o : Calls) (skip : Nat) (ap : List Arg) : Conv → Except Fault (List UInt8 × List Arg × Nat)
  | .int k => o.ofInt k.base k.sign skip ap
  | .long k => o.ofLong k.base k.sign skip ap
  | .ptr => do
    let (v, ap) ← argLong ap
    return (o.ptr v, ap, skip)
  | .str => do
    let (s, ap) ← argStr ap
    return (s.getD null, ap, skip)
  | .percent => return ([Printf.percent], ap, skip)

theorem directive_named {c0 : UInt8} {e : List UInt8 × Conv} (h : named (c0 :: t) = some e) :
    directive o c0 (t.getD 0 0) (t.getD 1 0) ap = e.2.run o (e.1.length - 1) ap := by
  have hpre : e.1 <+: c0 :: t := by
    rw [← List.isPrefixOf_iff_prefix]
    exact List.find?_some (p := fun e : List UInt8 × Conv => e.1.isPrefixOf (c0 :: t)) h
  have hmem : e ∈ names := List.mem_of_find?_eq_some h
  obtain ⟨rest, hrest⟩ := hpre
  -- one case for each name, whose characters are those of the text
  simp only [names, List.mem_cons, List.not_mem_nil, or_false] at hmem
  rcases hmem with rfl | rfl | rfl | rfl | rfl | rfl | rfl | rfl | rfl | rfl | rfl | rfl <;>
    simp only [List.cons_append, List.nil_append, List.cons.injEq] at hrest <;>
    obtain ⟨rfl, rfl⟩ := hrest <;> rfl

theorem eq_cons_of_getD {c : UInt8} (hc : c ≠ 0) (h : t.getD 0 0 = c) : ∃ t', t = c :: t' := by
  cases t with
  | nil => exact absurd h.symm hc
  | cons a t => exact ⟨t, congrArg (· :: t) h⟩

theorem directive_unknown {c0 : UInt8} (h : named (c0 :: t) = none) :
    directive o c0 (t.getD 0 0) (t.getD 1 0) ap = .ok ([percent, c0], ap, 0) := by
  have hnot : ∀ e ∈ names, ∀ r, e.1 ++ r ≠ c0 :: t := by
    intro e he r hr
    exact List.find?_eq_none.mp h e he (List.isPrefixOf_iff_prefix.mpr ⟨r, hr⟩)
  -- names of one, two and three characters
  have h1 : ∀ c, ∀ k, ([c], k) ∈ names → ¬ c0 = c := by
    intro c k hk hc
    exact hnot _ hk t (congrArg (· :: t) hc.symm)
  have h2 : ∀ c, ∀ k, ([chL, c], k) ∈ names → c ≠ 0 → ¬ (c0 = chL ∧ t.getD 0 0 = c) := by
    intro c k hk hc ⟨e0, e1⟩
    obtain ⟨t', rfl⟩ := eq_cons_of_getD hc e1
    exact hnot _ hk t' (congrArg (· :: c :: t') e0.symm)
  have h3 : ∀ c, ∀ k, ([chL, chL, c], k) ∈ names → c ≠ 0 → ¬ (c0 = chL ∧ t.getD 0 0 = chL ∧ t.getD 1 0 = c) := by
    intro c k hk hc ⟨e0, e1, e2⟩
    obtain ⟨t', rfl⟩ := eq_cons_of_getD (by decide) e1
    obtain ⟨t'', rfl⟩ := eq_cons_of_getD hc e2
    exact hnot _ hk t'' (congrArg (· :: chL :: c :: t'') e0.symm)
  rw [directive, if_neg (h1 chD (.int .signed) (by decide)), if_neg (h2 chD (.long .signed) (by decide) (by decide)),
    if_neg (h3 chD (.long .signed) (by decide) (by decide)), if_neg (h1 chU (.int .unsigned) (by decide)),
    if_neg (h2 chU (.long .unsigned) (by decide) (by decide)), if_neg (h3 chU (.long .unsigned) (by decide) (by decide)),
    if_neg (h1 chX (.int .hex) (by decide)), if_neg (h2 chX (.long .hex) (by decide) (by decide)),
    if_neg (h3 chX (.long .hex) (by decide) (by decide)), if_neg (h1 chP .ptr (by decide)),
    if_neg (h1 chS .str (by decide)), if_neg (h1 percent .percent (by decide))]
  rfl

theorem run_eq {c : Conv} {is : List Item} (skip : Nat) (h : fill (.conv c :: is) ap = some ps) :
    ∃ p qs ap', ps = p :: qs ∧ fill is ap' = some qs ∧ c.run o skip ap = (do return (← p.render o, ap', skip)) := by
  cases c with
  | percent =>
    obtain ⟨qs, hqs, rfl⟩ := Option.map_eq_some_iff.mp h
    exact ⟨.percent, qs, ap, rfl, hqs, rfl⟩
  | int k =>
    match ap, h with
    | .int v :: ap, h =>
      obtain ⟨qs, hqs, rfl⟩ := Option.map_eq_some_iff.mp h
      exact ⟨.int k v, qs, ap, rfl, hqs, rfl⟩
  | long k =>
    match ap, h with
    | .long v :: ap, h =>
      obtain ⟨qs, hqs, rfl⟩ := Option.map_eq_some_iff.mp h
      exact ⟨.long k v, qs, ap, rfl, hqs, rfl⟩
  | ptr =>
    match ap, h with
    | .long v :: ap, h =>
      obtain ⟨qs, hqs, rfl⟩ := Option.map_eq_some_iff.mp h
      exact ⟨.ptr v, qs, ap, rfl, hqs, rfl⟩
  | str =>
    match ap, h with
    | .str s :: ap, h =>
      obtain ⟨qs, hqs, rfl⟩ := Option.map_eq_some_iff.mp h
      exact ⟨.str s, qs, ap, rfl, hqs, rfl⟩

/-! ## The loops -/

theorem parse_char {c : UInt8} (h : c ≠ percent) : parse (c :: t) = .char c :: parse t := by
  rw [parse.eq_def]
  exact if_pos h

theorem parse_named {c0 : UInt8} {e : List UInt8 × Conv} (h : named (c0 :: t) = some e) :
    parse (percent :: c0 :: t) = .conv e.2 :: parse (t.drop (e.1.length - 1)) := by
  rw [parse, if_neg (not_not.mpr rfl)]
  simp only [h]

theorem parse_unknown {c0 : UInt8} (h : named (c0 :: t) = none) :
    parse (percent :: c0 :: t) = .unknown c0 :: parse t := by
  rw [parse, if_neg (not_not.mpr rfl)]
  simp only [h]

theorem parse_percent : parse [percent] = [] := by
  rw [parse, if_neg (not_not.mpr rfl)]

theorem directive_eq {c0 : UInt8} (h : fill (parse (percent :: c0 :: t)) ap = some ps) :
    ∃ p qs ap' skip, ps = p :: qs ∧ fill (parse (t.drop skip)) ap' = some qs ∧
      directive o c0 (t.getD 0 0) (t.getD 1 0) ap = (do return (← p.render o, ap', skip)) := by
  cases hn : named (c0 :: t) with
  | none =>
    rw [parse_unknown hn] at h
    obtain ⟨qs, hqs, rfl⟩ := Option.map_eq_some_iff.mp h
    exact ⟨.unknown c0, qs, ap, 0, rfl, hqs, directive_unknown hn⟩
  | some e =>
    rw [parse_named hn] at h
    obtain ⟨p, qs, ap', hps, hqs, hrun⟩ := run_eq (e.1.length - 1) h
    exact ⟨p, qs, ap', e.1.length - 1, hps, hqs, (directive_named hn).trans hrun⟩

theorem getD_eq_drop {i : Nat} (k : Nat) : fmt.getD (i + k) 0 = (fmt.drop i).getD k 0 := by
  rw [List.getD_eq_getElem?_getD, List.getD_eq_getElem?_getD, List.getElem?_drop]

/-- Where the first character looked at is the end of the text, so is the second. -/
theorem second_eq (h0 : (0 : UInt8) ∉ t) : (if t.getD 0 0 ≠ 0 then t.getD 1 0 else 0) = t.getD 1 0 := by
  cases t with
  | nil => rfl
  | cons c t =>
    have : c ≠ 0 := fun h => h0 (h ▸ List.mem_cons_self)
    exact if_pos this

theorem percent_ne : percent ≠ 0 := by decide

theorem fill_nil (h : fill [] ap = some ps) : ps = [] := by
  cases ap with
  | nil => exact (Option.some.inj h).symm
  | cons => cases h

/-- A loop over the format, by its rounds: `f fuel i ap`. A directive takes one round, or two. -/
structure Scans (o : Calls) (fmt : List UInt8) (f : Nat → Nat → List Arg → Except Fault (List (List UInt8))) : Prop where
  stop : ∀ {n i ap}, fmt.getD i 0 = 0 → f (n + 1) i ap = .ok []
  char : ∀ {n i ap}, fmt.getD i 0 ≠ 0 → fmt.getD i 0 ≠ percent →
    f (n + 1) i ap = (do return [fmt.getD i 0] :: (← f n (i + 1) ap))
  last : ∀ {n i ap}, fmt.getD i 0 = percent → fmt.getD (i + 1) 0 = 0 → f (n + 2) i ap = .ok []
  directive : ∀ {n i ap}, fmt.getD i 0 = percent → fmt.getD (i + 1) 0 ≠ 0 → ∃ m ≥ n, m < n + 2 ∧
    f (n + 2) i ap = (do
      let c1 := fmt.getD (i + 1 + 1) 0
      let (out, ap, skip) ← directive o (fmt.getD (i + 1) 0) c1 (if c1 ≠ 0 then fmt.getD (i + 1 + 2) 0 else 0) ap
      return out :: (← f m (i + 1 + skip + 1) ap))

theorem kernel_scans : Scans Kernel.calls fmt (Kernel.printfFrom fmt) where
  stop h := by simp only [Kernel.printfFrom, h, if_true, pure, Except.pure]
  char h0 hp := by simp only [Kernel.printfFrom, h0, hp, ne_eq, not_false_eq_true, if_true, if_false]
  last hp h0 := by simp only [Kernel.printfFrom, hp, h0, percent_ne, ne_eq, not_true_eq_false, if_true, if_false, pure,
    Except.pure]
  directive {n _ _} hp h0 := ⟨n + 1, Nat.le_succ _, Nat.lt_succ_self _, by
    rw [Kernel.printfFrom]
    simp only [hp, h0, percent_ne, ne_eq, not_true_eq_false, not_false_eq_true, if_true, if_false]⟩

theorem user_scans : Scans User.calls fmt fun fuel i ap => User.vprintfFrom fmt fuel i 0 ap where
  stop h := by simp only [User.vprintfFrom, h, if_true, pure, Except.pure]
  char h0 hp := by simp only [User.vprintfFrom, h0, hp, if_true, if_false]
  last hp h0 := by simp only [User.vprintfFrom, hp, h0, percent_ne, if_true, if_false, pure, Except.pure]
  directive {n _ _} hp h0 := ⟨n, Nat.le_refl _, by omega, by
    rw [User.vprintfFrom]
    simp only [hp, percent_ne, if_true, if_false]
    rw [User.vprintfFrom]
    simp only [h0, percent_ne, ne_eq, not_false_eq_true, if_true, if_false]⟩

section
variable (h0 : 0 ∉ fmt)
include h0

theorem Scans.eq {f : Nat → Nat → List Arg → Except Fault (List (List UInt8))} {i fuel : Nat} (hs : Scans o fmt f)
    (hfuel : (fmt.drop i).length < fuel) (h : fill (parse (fmt.drop i)) ap = some ps) :
    f fuel i ap = ps.mapM (Piece.render o) := by
  induction fuel using Nat.strongRecOn generalizing i ap ps with
  | _ fuel ih =>
    have hmem : ∀ c ∈ fmt.drop i, c ≠ 0 := fun c hc e => h0 (e ▸ List.mem_of_mem_drop hc)
    have hget : ∀ k, fmt.getD (i + k) 0 = (fmt.drop i).getD k 0 := getD_eq_drop
    have hnext : ∀ k, fmt.drop (i + k) = (fmt.drop i).drop k := fun k => List.drop_drop.symm
    have hcx : fmt.getD i 0 = (fmt.drop i).getD 0 0 := hget 0
    obtain ⟨fuel, rfl⟩ : ∃ n, fuel = n + 1 := ⟨fuel - 1, by omega⟩
    generalize fmt.drop i = t at *
    match t with
    | [] =>
      rw [parse] at h
      rw [hs.stop hcx, fill_nil h]
      rfl
    | c :: t =>
      have hcx : fmt.getD i 0 = c := hcx
      have hc : c ≠ 0 := hmem c List.mem_cons_self
      by_cases hp : c ≠ percent
      · rw [parse_char hp] at h
        obtain ⟨qs, hqs, rfl⟩ := Option.map_eq_some_iff.mp h
        rw [hs.char (hcx ▸ hc) (hcx ▸ hp), hcx, List.mapM_cons,
          ih fuel (Nat.lt_succ_self _) (by rw [hnext]; exact Nat.lt_of_succ_lt_succ hfuel) (by rw [hnext]; exact hqs)]
        rfl
      · obtain rfl : c = percent := not_not.mp hp
        obtain ⟨fuel, rfl⟩ : ∃ n, fuel = n + 1 := ⟨fuel - 1, by simp only [List.length_cons] at hfuel; omega⟩
        match t with
        | [] =>
          rw [parse_percent] at h
          rw [hs.last hcx (hget 1), fill_nil h]
          rfl
        | c0 :: t =>
          have ht : (0 : UInt8) ∉ t := fun hm => hmem 0 (List.mem_cons_of_mem _ (List.mem_cons_of_mem _ hm)) rfl
          have e0 : fmt.getD (i + 1) 0 = c0 := hget 1
          have e1 : fmt.getD (i + 1 + 1) 0 = t.getD 0 0 := hget 2
          have e2 : fmt.getD (i + 1 + 2) 0 = t.getD 1 0 := hget 3
          obtain ⟨m, hm, hm', hf⟩ := @hs.directive _ _ ap hcx (e0 ▸ hmem c0 (List.mem_cons_of_mem _ List.mem_cons_self))
          obtain ⟨p, qs, ap', skip, rfl, hqs, hd⟩ := directive_eq h
          have hdrop : fmt.drop (i + 1 + skip + 1) = t.drop skip := by
            rw [show i + 1 + skip + 1 = i + (skip + 2) by omega, hnext]
            rfl
          have hrest : f m (i + 1 + skip + 1) ap' = qs.mapM (Piece.render o) := by
            apply ih m hm'
            · rw [hdrop, List.length_drop]
              simp only [List.length_cons] at hfuel
              omega
            · rw [hdrop]
              exact hqs
          rw [hf, e0, e1, e2, List.mapM_cons, ← hrest]
          dsimp only
          rw [second_eq ht, hd]
          cases p.render o with
          | error e => rfl
          | ok out => rfl

theorem kernel_printf_eq (h : fill (parse fmt) ap = some ps) :
    Kernel.printf fmt ap = ps.mapM (Piece.render Kernel.calls) :=
  kernel_scans.eq h0 (Nat.lt_succ_self _) h

theorem user_vprintf_eq (h : fill (parse fmt) ap = some ps) :
    User.vprintf fmt ap = ps.mapM (Piece.render User.calls) :=
  user_scans.eq h0 (Nat.lt_succ_self _) h

end

/-! ## Equal numerals -/

/-- Sixteen different digits, none of them a minus sign. -/
structure Alphabet (digits : List UInt8) : Prop where
  inj : ∀ d < 16, digits.idxOf (digits.getD d 0) = d
  minus : ∀ d < 16, digits.getD d 0 ≠ minus

theorem kernel_alphabet : Alphabet Kernel.digits := ⟨by decide, by decide⟩

theorem user_alphabet : Alphabet User.digits := ⟨by decide, by decide⟩

section
variable {digits : List UInt8} (ha : Alphabet digits) {base : Nat} (hb : 1 < base) (hb' : base ≤ 16)
include ha hb hb'

theorem numeral_inj {x y : Nat} : numeral digits base x = numeral digits base y ↔ x = y := by
  constructor
  · intro h
    -- the places are read back from the characters
    have hback : ∀ z, ((numeral digits base z).map digits.idxOf).reverse = places base z := by
      intro z
      rw [numeral, List.map_map, List.map_reverse, List.reverse_reverse, List.map_congr_left (g := id) ?_, List.map_id]
      intro d hd
      have := places_lt hb hd
      exact ha.inj d (by omega)
    have hval : ∀ z, Nat.ofDigits base ((numeral digits base z).map digits.idxOf).reverse = z := by
      intro z
      rw [hback, ofDigits_places]
    rw [← hval x, h, hval y]
  · intro h
    rw [h]

theorem minus_not_mem {x : Nat} : minus ∉ numeral digits base x := by
  intro h
  obtain ⟨d, hd, e⟩ := List.mem_map.mp h
  have := places_lt hb (List.mem_reverse.mp hd)
  exact ha.minus d (by omega) e

theorem signed_inj {v v' : Int} : signed digits base v = signed digits base v' ↔ v = v' := by
  constructor
  · intro h
    have hno : ∀ {x y : Nat}, minus :: numeral digits base x ≠ numeral digits base y := by
      intro x y e
      exact minus_not_mem ha hb hb' (e ▸ List.mem_cons_self)
    unfold signed at h
    split at h <;> split at h
    · have := (numeral_inj ha hb hb').mp (List.cons.inj h).2
      omega
    · exact absurd h hno
    · exact absurd h.symm hno
    · have := (numeral_inj ha hb hb').mp h
      omega
  · intro h
    rw [h]

theorem wanted_inj {w w' : Nat} {xx : BitVec w} {yy : BitVec w'} {sign : Bool} :
    wanted digits xx base sign = wanted digits yy base sign ↔
      if sign then xx.toInt = yy.toInt else xx.toNat = yy.toNat := by
  cases sign with
  | true => exact signed_inj ha hb hb'
  | false => exact numeral_inj ha hb hb'

end

/-- The place of 16^(k+1) in sixteen times a number is its place of 16^k, also modulo 2^64. -/
theorem shift_place (a : Nat) {k : Nat} (hk : k < 15) : a * 16 % 2 ^ 64 / 16 ^ (k + 1) % 16 = a / 16 ^ k % 16 := by
  have hdvd : 16 ^ (k + 1) * 16 ∣ 2 ^ 64 := by
    rw [← Nat.pow_succ, show (2 : Nat) ^ 64 = 16 ^ 16 by decide]
    exact Nat.pow_dvd_pow 16 (by omega)
  calc a * 16 % 2 ^ 64 / 16 ^ (k + 1) % 16
      = a * 16 % 2 ^ 64 % (16 ^ (k + 1) * 16) / 16 ^ (k + 1) := (Nat.mod_mul_right_div_self ..).symm
    _ = a * 16 % (16 ^ (k + 1) * 16) / 16 ^ (k + 1) := by rw [Nat.mod_mod_of_dvd _ hdvd]
    _ = a * 16 / (16 ^ k * 16) % 16 := Nat.mod_mul_right_div_self ..
    _ = a / 16 ^ k % 16 := by rw [Nat.mul_div_mul_right _ _ (by decide)]

theorem ptrLoop_eq {digits : List UInt8} {n : Nat} (hn : n ≤ 16) (x : BitVec 64) :
    ptrLoop digits n x = (List.range n).map fun i => digits.getD (x.toNat / 16 ^ (15 - i) % 16) 0 := by
  induction n generalizing x with
  | zero => rfl
  | succ n ih =>
    rw [ptrLoop, ih (by omega), List.range_succ_eq_map, List.map_cons, List.map_map]
    congr 1
    · have := x.isLt
      congr 1
      simp only [BitVec.toNat_ushiftRight, Nat.shiftRight_eq_div_pow]
      omega
    · apply List.map_congr_left
      intro i hi
      have hi : i < n := List.mem_range.mp hi
      obtain ⟨k, hk⟩ : ∃ k, 15 - i = k + 1 := ⟨14 - i, by omega⟩
      have hk' : 15 - (i + 1) = k := by omega
      simp only [Function.comp, hk, Nat.succ_eq_add_one, hk', BitVec.toNat_shiftLeft, Nat.shiftLeft_eq]
      rw [show (2 : Nat) ^ 4 = 16 by rfl, shift_place _ (by omega)]

theorem printptrWith_eq {digits : List UInt8} (x : BitVec 64) : printptrWith digits x = pointer digits x.toNat := by
  rw [printptrWith, ptrLoop_eq (Nat.le_refl _), pointer]

/-! ## The pieces that are right -/

theorem Num.base_gt (k : Num) : 1 < k.base := by cases k <;> decide

theorem Num.base_le (k : Num) : k.base ≤ 16 := by cases k <;> decide

theorem length_wanted_int {digits : List UInt8} (v : BitVec 32) (k : Num) :
    (wanted digits v k.base k.sign).length ≤ BUF := by
  have hlt := v.isLt
  have hpow : 2 ^ 32 ≤ k.base ^ 15 := by cases k <;> decide
  have habs : v.toInt.natAbs < k.base ^ 15 := by
    rw [BitVec.toInt_eq_toNat_cond]
    split <;> omega
  have hshort : ∀ {x}, x < k.base ^ 15 → (numeral digits k.base x).length ≤ 15 := by
    intro x hx
    rw [length_numeral]
    exact (length_places_le_iff k.base_gt).mpr hx
  unfold wanted signed BUF
  split
  · split
    · exact Nat.succ_le_succ (hshort habs)
    · exact Nat.le_succ_of_le (hshort habs)
  · exact Nat.le_succ_of_le (hshort (by omega))

theorem toNat_signExtend_iff (v : BitVec 32) : (v.signExtend 64).toNat = v.toNat ↔ v.toNat < 2 ^ 31 := by
  have h : (v.signExtend 64).toInt = v.toInt := BitVec.toInt_signExtend_of_le (by decide)
  have h1 := v.isLt
  have h2 := (v.signExtend 64).isLt
  rw [BitVec.toInt_eq_toNat_cond, BitVec.toInt_eq_toNat_cond] at h
  split at h <;> split at h <;> omega

theorem toInt_setWidth_iff (v : BitVec 64) :
    (v.setWidth 32).toInt = v.toInt ↔ -2 ^ 31 ≤ v.toInt ∧ v.toInt < 2 ^ 31 := by
  have h1 := v.isLt
  have h2 : (v.setWidth 32).toNat = v.toNat % 2 ^ 32 := BitVec.toNat_setWidth ..
  rw [BitVec.toInt_eq_toNat_cond, BitVec.toInt_eq_toNat_cond, h2]
  split <;> split <;> omega

theorem toNat_setWidth_iff (v : BitVec 64) : (v.setWidth 32).toNat = v.toNat ↔ v.toNat < 2 ^ 32 := by
  rw [BitVec.toNat_setWidth]
  omega

/-- Its sign does not change it, and it has room in the buffer. -/
def KernelFine : Piece → Prop
  | .int .signed _ => True
  | .int _ v => v.toNat < 2 ^ 31
  | .long k v => Short v k.base k.sign
  | _ => True

/-- It fits in an `int`, or in a `uint`. -/
def UserFine : Piece → Prop
  | .long .signed v => -2 ^ 31 ≤ v.toInt ∧ v.toInt < 2 ^ 31
  | .long _ v => v.toNat < 2 ^ 32
  | _ => True

theorem kernel_int_iff (k : Num) (v : BitVec 32) :
    Kernel.printint (v.signExtend 64) k.base k.sign = .ok (wanted Kernel.digits v k.base k.sign) ↔
      KernelFine (.int k v) := by
  rw [Kernel.printint, printintAt_ok_iff k.base_gt (by decide), wanted_inj kernel_alphabet k.base_gt k.base_le]
  have hsame : (if k.sign then (v.signExtend 64).toInt = v.toInt else (v.signExtend 64).toNat = v.toNat) ↔
      KernelFine (.int k v) := by
    cases k with
    | signed => exact iff_of_true (BitVec.toInt_signExtend_of_le (by decide)) trivial
    | unsigned => exact toNat_signExtend_iff v
    | hex => exact toNat_signExtend_iff v
  rw [hsame]
  constructor
  · intro ⟨_, h⟩
    exact h
  · intro h
    refine ⟨?_, h⟩
    rw [(wanted_inj kernel_alphabet k.base_gt k.base_le).mpr (hsame.mpr h)]
    exact length_wanted_int v k

theorem kernel_render_iff (p : Piece) : p.render Kernel.calls = .ok (p.right Kernel.digits) ↔ KernelFine p := by
  cases p with
  | int k v => exact kernel_int_iff k v
  | long k v =>
    have h : Kernel.printint v k.base k.sign = .ok (wanted Kernel.digits v k.base k.sign) ↔ Short v k.base k.sign := by
      rw [Kernel.printint, printintAt_ok_iff k.base_gt (by decide), and_iff_left rfl, length_wanted_le_iff k.base_gt]
    exact h
  | ptr v => exact iff_of_true (congrArg Except.ok (printptrWith_eq v)) trivial
  | _ => exact iff_of_true rfl trivial

theorem user_render_iff (p : Piece) : p.render User.calls = .ok (p.right User.digits) ↔ UserFine p := by
  cases p with
  | int k v =>
    have h : User.printint v k.base k.sign = .ok (wanted User.digits v k.base k.sign) :=
      (printintAt_ok_iff k.base_gt (by decide)).mpr ⟨length_wanted_int v k, rfl⟩
    exact iff_of_true h trivial
  | long k v =>
    have h : User.printint (v.setWidth 32) k.base k.sign = .ok (wanted User.digits v k.base k.sign) ↔
        UserFine (.long k v) := by
      rw [User.printint, printintAt_ok_iff k.base_gt (by decide), and_iff_right (length_wanted_int _ k),
        wanted_inj user_alphabet k.base_gt k.base_le]
      cases k with
      | signed => exact toInt_setWidth_iff v
      | unsigned => exact toNat_setWidth_iff v
      | hex => exact toNat_setWidth_iff v
    exact h
  | ptr v => exact iff_of_true (congrArg Except.ok (printptrWith_eq v)) trivial
  | _ => exact iff_of_true rfl trivial

theorem mapM_ok_iff {f : Piece → Except Fault (List UInt8)} {g : Piece → List UInt8} :
    ps.mapM f = .ok (ps.map g) ↔ ∀ p ∈ ps, f p = .ok (g p) := by
  induction ps with
  | nil => exact iff_of_true rfl fun _ h => nomatch h
  | cons p ps ih =>
    rw [List.mapM_cons, List.forall_mem_cons, ← ih, List.map_cons]
    cases f p with
    | error e => exact iff_of_false (fun h => nomatch h) fun h => nomatch h.1
    | ok out =>
      cases ps.mapM f with
      | error e => exact iff_of_false (fun h => nomatch h) fun h => nomatch h.2
      | ok outs =>
        change Except.ok (out :: outs) = _ ↔ _
        simp only [Except.ok.injEq, List.cons.injEq]

/-! ## Both -/

/-- Hexadecimal letters in lower case. -/
def lower (c : UInt8) : UInt8 := if 0x41 ≤ c ∧ c ≤ 0x46 then c + 0x20 else c

/-- Two outputs agree but for the case of hexadecimal letters. -/
def SameButCase (k u : List (List UInt8)) : Prop := k.flatten.map lower = u.flatten.map lower

theorem lower_digit (d : Nat) : lower (Kernel.digits.getD d 0) = lower (User.digits.getD d 0) := by
  rcases Nat.lt_or_ge d 16 with h | h
  · have : ∀ d < 16, lower (Kernel.digits.getD d 0) = lower (User.digits.getD d 0) := by decide
    exact this d h
  · rw [List.getD_eq_default _ _ h, List.getD_eq_default _ _ h]

theorem lower_numeral (base x : Nat) :
    (numeral Kernel.digits base x).map lower = (numeral User.digits base x).map lower := by
  rw [numeral, numeral, List.map_map, List.map_map]
  exact List.map_congr_left fun d _ => lower_digit d

theorem lower_wanted {w : Nat} (xx : BitVec w) (base : Nat) (sign : Bool) :
    (wanted Kernel.digits xx base sign).map lower = (wanted User.digits xx base sign).map lower := by
  unfold wanted signed
  split
  · split
    · rw [List.map_cons, List.map_cons, lower_numeral]
    · exact lower_numeral _ _
  · exact lower_numeral _ _

theorem lower_right (p : Piece) : (p.right Kernel.digits).map lower = (p.right User.digits).map lower := by
  cases p with
  | int k v => exact lower_wanted v _ _
  | long k v => exact lower_wanted v _ _
  | ptr v =>
    simp only [Piece.right, pointer, List.map_cons, List.map_map]
    congr 2
    exact List.map_congr_left fun i _ => lower_digit _
  | _ => rfl

theorem sameButCase_right : SameButCase (ps.map (Piece.right Kernel.digits)) (ps.map (Piece.right User.digits)) := by
  unfold SameButCase
  rw [List.map_flatten, List.map_flatten, List.map_map, List.map_map]
  exact congrArg List.flatten (List.map_congr_left fun p _ => lower_right p)

/-- Right in both: a 32-bit argument of "%u" or "%x" below 2^31, a 64-bit one in the range of an
`int`, or of a `uint` if it is printed as unsigned. -/
def Narrow : Piece → Prop
  | .int .signed _ => True
  | .int _ v => v.toNat < 2 ^ 31
  | .long .signed v => -2 ^ 31 ≤ v.toInt ∧ v.toInt < 2 ^ 31
  | .long _ v => v.toNat < 2 ^ 32
  | _ => True

theorem short_of_userFine {k : Num} {v : BitVec 64} (h : UserFine (.long k v)) : Short v k.base k.sign := by
  cases k with
  | signed =>
    obtain ⟨h1, h2⟩ := h
    have hnat : ¬ v.toInt < 0 → v.toNat = v.toInt.natAbs := toNat_of_nonneg
    simp only [Short, Num.base, Num.sign, true_and]
    split <;> omega
  | unsigned =>
    have h : v.toNat < 2 ^ 32 := h
    simp only [Short, Num.base, Num.sign, Bool.false_eq_true, false_and, if_false]
    omega
  | hex =>
    have h : v.toNat < 2 ^ 32 := h
    simp only [Short, Num.base, Num.sign, Bool.false_eq_true, false_and, if_false]
    omega

theorem narrow_iff (p : Piece) : KernelFine p ∧ UserFine p ↔ Narrow p := by
  cases p with
  | int k v => cases k <;> exact and_iff_left trivial
  | long k v =>
    have h : KernelFine (.long k v) ∧ UserFine (.long k v) ↔ UserFine (.long k v) :=
      and_iff_right_of_imp short_of_userFine
    rw [h]
    cases k <;> rfl
  | _ => exact iff_of_true ⟨trivial, trivial⟩ trivial

/-- Both print the format with each directive replaced by its text, and so the same but for the
case of hexadecimal letters, iff every number is narrow. -/
theorem printfs_right_iff (fmt : List UInt8) (ap : List Arg) (ps : List Piece) (h0 : 0 ∉ fmt)
    (h : fill (parse fmt) ap = some ps) :
    (∃ k u, Kernel.printf fmt ap = .ok k ∧ User.vprintf fmt ap = .ok u ∧
      k = ps.map (Piece.right Kernel.digits) ∧ u = ps.map (Piece.right User.digits) ∧ SameButCase k u) ↔
    ∀ p ∈ ps, Narrow p := by
  have hk : Kernel.printf fmt ap = .ok (ps.map (Piece.right Kernel.digits)) ↔ ∀ p ∈ ps, KernelFine p := by
    rw [kernel_printf_eq h0 h, mapM_ok_iff]
    exact forall₂_congr fun p _ => kernel_render_iff p
  have hu : User.vprintf fmt ap = .ok (ps.map (Piece.right User.digits)) ↔ ∀ p ∈ ps, UserFine p := by
    rw [user_vprintf_eq h0 h, mapM_ok_iff]
    exact forall₂_congr fun p _ => user_render_iff p
  constructor
  · intro ⟨k, u, ek, eu, rk, ru, _⟩ p hp
    subst rk ru
    exact (narrow_iff p).mp ⟨hk.mp ek p hp, hu.mp eu p hp⟩
  · intro hn
    have hall : ∀ p ∈ ps, KernelFine p ∧ UserFine p := fun p hp => (narrow_iff p).mpr (hn p hp)
    exact ⟨_, _, hk.mpr fun p hp => (hall p hp).1, hu.mpr fun p hp => (hall p hp).2, rfl, rfl, sameButCase_right⟩

/-- "%x%ld" of 255 and -7. -/
theorem printfs_right_hex_long : ∃ k u, Kernel.printf [percent, chX, percent, chL, chD] [.int 255, .long (-7)] = .ok k ∧
    User.vprintf [percent, chX, percent, chL, chD] [.int 255, .long (-7)] = .ok u ∧
    k = [.int .hex 255, .long .signed (-7)].map (Piece.right Kernel.digits) ∧
    u = [.int .hex 255, .long .signed (-7)].map (Piece.right User.digits) ∧ SameButCase k u := by
  have hx : named [chX, percent, chL, chD] = some ([chX], .int .hex) := rfl
  have hd : named [chL, chD] = some ([chL, chD], .long .signed) := rfl
  have hfill : fill (parse [percent, chX, percent, chL, chD]) [.int 255, .long (-7)] =
      some [.int .hex 255, .long .signed (-7)] := by
    rw [parse_named hx, List.length_singleton, List.drop_zero, parse_named hd]
    simp only [List.length_cons, List.length_nil, List.drop_succ_cons, List.drop_nil, parse]
    rfl
  refine (printfs_right_iff _ _ _ (by decide) hfill).mpr ?_
  simp only [List.forall_mem_cons, List.not_mem_nil, IsEmpty.forall_iff, implies_true, and_true]
  exact ⟨by unfold Narrow; decide, by unfold Narrow; decide⟩

/-- "%x" of 2^31 is widened with its sign in the kernel, and "%ld" of 2^32 loses its high half in
the user library: "ffffffff80000000" against "80000000", and "4294967296" against "0". -/
theorem printfs_differ :
    (fill (parse [percent, chX]) [.int 0x80000000] = some [.int .hex 0x80000000] ∧
      ¬ ∃ k u, Kernel.printf [percent, chX] [.int 0x80000000] = .ok k ∧
        User.vprintf [percent, chX] [.int 0x80000000] = .ok u ∧ SameButCase k u) ∧
    (fill (parse [percent, chL, chD]) [.long 0x100000000] = some [.long .signed 0x100000000] ∧
      ¬ ∃ k u, Kernel.printf [percent, chL, chD] [.long 0x100000000] = .ok k ∧
        User.vprintf [percent, chL, chD] [.long 0x100000000] = .ok u ∧ SameButCase k u) := by
  have hx : named [chX] = some ([chX], .int .hex) := rfl
  have hd : named [chL, chD] = some ([chL, chD], .long .signed) := rfl
  have kx : Kernel.printf [percent, chX] [.int 0x80000000] =
      .ok [List.replicate 8 0x66 ++ 0x38 :: List.replicate 7 0x30] := by decide +kernel
  have ux : User.vprintf [percent, chX] [.int 0x80000000] = .ok [0x38 :: List.replicate 7 0x30] := by decide +kernel
  have kd : Kernel.printf [percent, chL, chD] [.long 0x100000000] =
      .ok [[0x34, 0x32, 0x39, 0x34, 0x39, 0x36, 0x37, 0x32, 0x39, 0x36]] := by decide +kernel
  have ud : User.vprintf [percent, chL, chD] [.long 0x100000000] = .ok [[0x30]] := by decide +kernel
  refine ⟨⟨?_, ?_⟩, ⟨?_, ?_⟩⟩
  · rw [parse_named hx, List.length_singleton, List.drop_zero, parse]
    rfl
  · intro ⟨k, u, hk, hu, hs⟩
    cases kx.symm.trans hk
    cases ux.symm.trans hu
    revert hs
    unfold SameButCase
    decide
  · rw [parse_named hd]
    change fill (.conv (.long .signed) :: parse []) _ = _
    rw [parse]
    rfl
  · intro ⟨k, u, hk, hu, hs⟩
    cases kd.symm.trans hk
    cases ud.symm.trans hu
    revert hs
    unfold SameButCase
    decide

end Xv6.Printf
