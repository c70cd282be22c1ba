/-
  Xv6.Printf.Numeral — what `printint` prints, and when it stays in its buffer.

  The numeral of a number is the list of its digits, most significant first (`Nat.digits`), with a
  minus sign in front of those of a negative one.
-/

import Mathlib.Data.Nat.Digits.Lemmas
import Xv6.Printf.Model

namespace Xv6.Printf

/-! ## Numerals -/

/-- The digits of `x`, least significant first; 0 has one. -/
def places (base x : Nat) : List Nat := if x = 0 then [0] else Nat.digits base x

def numeral (digits : List UInt8) (base x : Nat) : List UInt8 := (places base x).reverse.map (digits.getD · 0)

def signed (digits : List UInt8) (base : Nat) (v : Int) : List UInt8 :=
  if v < 0 then minus :: numeral digits base v.natAbs else numeral digits base v.natAbs

/-- The numeral of an integer of `w` bits, taken as signed or as unsigned. -/
def wanted {w : Nat} (digits : List UInt8) (xx : BitVec w) (base : Nat) (sign : Bool) : List UInt8 :=
  if sign then signed digits base xx.toInt else numeral digits base xx.toNat

variable {digits : List UInt8} {base x y fuel : Nat} {buf : List UInt8}

theorem places_of_lt (h : x < base) : places base x = [x] := by
  unfold places
  split
  · rename_i h0
    rw [h0]
  · rename_i h0
    exact Nat.digits_of_lt base x h0 h

theorem places_of_ge (hb : 1 < base) (h : base ≤ x) : places base x = (x % base) :: places base (x / base) := by
  have hx : x ≠ 0 := by omega
  have hq : x / base ≠ 0 := by
    intro h0
    rw [Nat.div_eq_zero_iff] at h0
    omega
  rw [places, places, if_neg hx, if_neg hq, Nat.digits_def' hb (by omega)]

theorem places_lt (hb : 1 < base) {d : Nat} (hd : d ∈ places base x) : d < base := by
  unfold places at hd
  split at hd
  · rw [List.mem_singleton] at hd
    omega
  · exact Nat.digits_lt_base hb hd

theorem ofDigits_places : Nat.ofDigits base (places base x) = x := by
  unfold places
  split
  · rename_i h0
    rw [h0]
    rfl
  · exact Nat.ofDigits_digits base x

theorem length_places_pos (hb : 1 < base) : 0 < (places base x).length := by
  rcases Nat.lt_or_ge x base with h | h
  · rw [places_of_lt h]
    exact Nat.zero_lt_one
  · rw [places_of_ge hb h]
    exact Nat.succ_pos _

theorem length_places_le_iff (hb : 1 < base) {k : Nat} : (places base x).length ≤ k + 1 ↔ x < base ^ (k + 1) := by
  unfold places
  split
  · rename_i h0
    have : 0 < base ^ (k + 1) := Nat.pow_pos (by omega)
    rw [h0, List.length_singleton]
    omega
  · exact Nat.digits_length_le_iff hb x

@[simp] theorem length_numeral : (numeral digits base x).length = (places base x).length := by
  rw [numeral, List.length_map, List.length_reverse]

theorem numeral_head (hb : 1 < base) (hx : x ≠ 0) : ∃ d t, 0 < d ∧ d < base ∧
    numeral digits base x = digits.getD d 0 :: t := by
  have hne : Nat.digits base x ≠ [] := Nat.digits_ne_nil_iff_ne_zero.mpr hx
  have hp : places base x = (Nat.digits base x).dropLast ++ [(Nat.digits base x).getLast hne] := by
    rw [places, if_neg hx, List.dropLast_append_getLast]
  refine ⟨(Nat.digits base x).getLast hne, ((Nat.digits base x).dropLast.reverse.map (digits.getD · 0)), ?_, ?_, ?_⟩
  · exact Nat.pos_of_ne_zero (Nat.getLast_digit_ne_zero base hx)
  · exact Nat.digits_lt_base hb (List.getLast_mem hne)
  · rw [numeral, hp, List.reverse_append, List.reverse_singleton, List.singleton_append, List.map_cons]

theorem wanted_head {w : Nat} {xx : BitVec w} {sign : Bool} (hb : 1 < base)
    (hd : ∀ d, 0 < d → d < base → digits.getD d 0 ≠ zero) (h : (wanted digits xx base sign).head? = some zero) :
    xx = 0 := by
  -- a numeral of something else starts with another digit
  have hnum : ∀ x, (numeral digits base x).head? = some zero → x = 0 := by
    intro x hx
    by_contra h0
    obtain ⟨d, t, hpos, hlt, e⟩ : ∃ d t, 0 < d ∧ d < base ∧ numeral digits base x = digits.getD d 0 :: t :=
      numeral_head hb h0
    rw [e, List.head?_cons, Option.some.injEq] at hx
    exact hd d hpos hlt hx
  unfold wanted at h
  split at h
  · unfold signed at h
    split at h
    · rw [List.head?_cons] at h
      exact absurd h (by decide)
    · have := hnum _ h
      exact BitVec.eq_of_toInt_eq (by simpa using this)
  · exact BitVec.eq_of_toNat_eq (by simpa using hnum _ h)

/-! ## printint -/

theorem store_eq (c : UInt8) :
    store buf c = if buf.length + 1 ≤ BUF then .ok (buf ++ [c]) else .error (.overflow buf.length) := rfl

/-- By induction on the fuel, of which a number of at most that many digits needs no more. -/
theorem digitLoop_eq (hb : 1 < base) (hx : x < base ^ (fuel + 1)) (hbuf : buf.length ≤ BUF) :
    digitLoop digits base (fuel + 1) x buf =
      if buf.length + (places base x).length ≤ BUF then .ok (buf ++ (places base x).map (digits.getD · 0))
      else .error (.overflow BUF) := by
  induction fuel generalizing x buf with
  | zero =>
    rw [Nat.zero_add, Nat.pow_one] at hx
    have hq : ¬ x / base ≠ 0 := by simp [Nat.div_eq_of_lt hx]
    simp only [digitLoop, hq, if_false, store_eq, places_of_lt hx, List.length_singleton, List.map_singleton,
      Nat.mod_eq_of_lt hx]
    split
    · rfl
    · have : buf.length = BUF := by omega
      rw [this]
      rfl
  | succ fuel ih =>
    rw [digitLoop, store_eq]
    by_cases hroom : buf.length + 1 ≤ BUF
    · rw [if_pos hroom]
      change (if x / base ≠ 0 then digitLoop digits base (fuel + 1) (x / base) (buf ++ [digits.getD (x % base) 0])
        else .ok (buf ++ [digits.getD (x % base) 0])) = _
      by_cases hlt : x < base
      · rw [if_neg (by simp [Nat.div_eq_of_lt hlt]), places_of_lt hlt, Nat.mod_eq_of_lt hlt]
        exact (if_pos hroom).symm
      · have hge : base ≤ x := by omega
        have hq : x / base ≠ 0 := Nat.div_ne_zero_iff.mpr ⟨by omega, hge⟩
        have hlen : (buf ++ [digits.getD (x % base) 0]).length = buf.length + 1 := by simp
        rw [if_pos hq, ih (Nat.div_lt_of_lt_mul (by rwa [← Nat.pow_succ'])) (by omega), places_of_ge hb hge, hlen,
          List.length_cons, List.map_cons, List.append_assoc, List.singleton_append, Nat.add_assoc,
          Nat.add_comm 1 (places base (x / base)).length]
    · -- the buffer is full and there is at least one more digit
      have hfull : buf.length = BUF := by omega
      have hpos := length_places_pos (x := x) hb
      rw [if_neg hroom, if_neg (by omega), hfull]
      rfl

section
variable {w : Nat} {xx : BitVec w} {sign : Bool}

/-- The negation wraps to the magnitude, that of the least integer as well. -/
theorem toNat_neg_of_neg (h : xx.toInt < 0) : (-xx).toNat = xx.toInt.natAbs := by
  have hlt := xx.isLt
  rw [BitVec.toInt_eq_toNat_cond] at h ⊢
  split at h
  · omega
  · rename_i hbig
    rw [if_neg hbig, BitVec.toNat_neg, Nat.mod_eq_of_lt (by omega)]
    omega

theorem toNat_of_nonneg (h : ¬ xx.toInt < 0) : xx.toNat = xx.toInt.natAbs := by
  have hlt := xx.isLt
  rw [BitVec.toInt_eq_toNat_cond] at h ⊢
  split
  · omega
  · rename_i hbig
    rw [if_neg hbig] at h
    omega

/-- The numeral if there is room for it; if not, the first store that fails is to `buf[16]`. -/
theorem printintAt_eq (hb : 1 < base) (hw : 0 < w) :
    printintAt digits xx base sign =
      if (wanted digits xx base sign).length ≤ BUF then .ok (wanted digits xx base sign)
      else .error (.overflow BUF) := by
  obtain ⟨v, rfl⟩ : ∃ v, w = v + 1 := ⟨w - 1, by omega⟩
  have hfuel : ∀ x : BitVec (v + 1), x.toNat < base ^ (v + 1) := by
    intro x
    exact Nat.lt_of_lt_of_le x.isLt (Nat.pow_le_pow_left hb _)
  unfold printintAt wanted
  by_cases hneg : sign = true ∧ xx.toInt < 0
  · obtain ⟨hs, hlt⟩ := hneg
    subst hs
    simp only [Bool.true_and, hlt, decide_true, if_true, signed]
    rw [digitLoop_eq hb (hfuel _) (Nat.zero_le _), toNat_neg_of_neg hlt, List.length_cons, length_numeral,
      List.length_nil, Nat.zero_add, List.nil_append]
    by_cases hroom : (places base xx.toInt.natAbs).length ≤ BUF
    · rw [if_pos hroom]
      change (do let buf ← store _ minus; return buf.reverse) = _
      rw [store_eq, List.length_map]
      by_cases hroom' : (places base xx.toInt.natAbs).length + 1 ≤ BUF
      · rw [if_pos hroom', if_pos hroom']
        change Except.ok (List.reverse _) = _
        rw [List.reverse_append, List.reverse_singleton, List.singleton_append, numeral, List.map_reverse]
      · rw [if_neg hroom', if_neg hroom']
        have : (places base xx.toInt.natAbs).length = BUF := by omega
        rw [this]
        rfl
    · rw [if_neg hroom, if_neg (by omega)]
      rfl
  · have hfalse : (sign && decide (xx.toInt < 0)) = false := by
      cases sign <;> simp_all
    have hwant : (if sign = true then signed digits base xx.toInt else numeral digits base xx.toNat) =
        numeral digits base xx.toNat := by
      cases sign with
      | false => rfl
      | true =>
        have hge : ¬ xx.toInt < 0 := fun h => hneg ⟨rfl, h⟩
        rw [if_pos rfl, signed, if_neg hge, toNat_of_nonneg hge]
    simp only [hfalse, hwant, Bool.false_eq_true, if_false]
    rw [digitLoop_eq hb (hfuel _) (Nat.zero_le _), length_numeral, List.length_nil, Nat.zero_add, List.nil_append]
    split
    · change Except.ok (List.reverse _) = _
      rw [numeral, List.map_reverse]
    · rfl

theorem printintAt_ok_iff (hb : 1 < base) (hw : 0 < w) {out : List UInt8} :
    printintAt digits xx base sign = .ok out ↔
      (wanted digits xx base sign).length ≤ BUF ∧ wanted digits xx base sign = out := by
  rw [printintAt_eq hb hw]
  split
  · rename_i h
    simp [h]
  · rename_i h
    simp [h]

end

/-! ## The kernel's -/

theorem digits_ne_zero (hb : base ≤ 16) : ∀ d, 0 < d → d < base → Kernel.digits.getD d 0 ≠ zero := by
  have h : ∀ d < 16, 0 < d → Kernel.digits.getD d 0 ≠ zero := by decide
  intro d hpos hlt
  exact h d (by omega) hpos

/-- At most 16 characters: 15 digits after a minus sign, 16 without one. -/
def Short (xx : BitVec 64) (base : Nat) (sign : Bool) : Prop :=
  if sign ∧ xx.toInt < 0 then xx.toInt.natAbs < base ^ 15 else xx.toNat < base ^ 16

theorem length_wanted_le_iff (hb : 1 < base) {xx : BitVec 64} {sign : Bool} :
    (wanted digits xx base sign).length ≤ BUF ↔ Short xx base sign := by
  unfold wanted Short
  cases sign with
  | false =>
    simp only [Bool.false_eq_true, if_false, false_and]
    rw [length_numeral]
    exact length_places_le_iff hb
  | true =>
    simp only [if_true, true_and, signed]
    split
    · rw [List.length_cons, length_numeral]
      exact Nat.add_le_add_iff_right.trans (length_places_le_iff hb)
    · rename_i h
      rw [length_numeral, ← toNat_of_nonneg h]
      exact length_places_le_iff hb

/-- `printint` always ends. It prints the numeral of the value, without a leading zero and with
every store inside `buf`, iff the numeral has at most 16 characters. -/
theorem printint_iff (xx : BitVec 64) (base : Nat) (hbase : base = 10 ∨ base = 16) (sign : Bool) :
    Kernel.printint xx base sign ≠ .error .fuel ∧
    ((∃ out, Kernel.printint xx base sign = .ok out ∧ out = wanted Kernel.digits xx base sign ∧
        (out.head? = some zero → xx = 0)) ↔ Short xx base sign) := by
  have hb : 1 < base := by omega
  have hlen : (wanted Kernel.digits xx base sign).length ≤ BUF ↔ Short xx base sign := length_wanted_le_iff hb
  constructor
  · intro h
    rw [Kernel.printint, printintAt_eq hb (by omega)] at h
    split at h <;> cases h
  · rw [← hlen]
    constructor
    · intro ⟨out, hout, _⟩
      exact ((printintAt_ok_iff hb (by omega)).mp hout).1
    · intro hlen
      refine ⟨_, (printintAt_ok_iff hb (by omega)).mpr ⟨hlen, rfl⟩, rfl, ?_⟩
      exact wanted_head hb (digits_ne_zero (by omega))

theorem printint_iff_ten : Short 1234567890 10 true ∧ ∃ out, Kernel.printint 1234567890 10 true = .ok out ∧
    out = wanted Kernel.digits 1234567890#64 10 true ∧ (out.head? = some zero → 1234567890#64 = 0) := by
  have hshort : Short 1234567890 10 true := by
    unfold Short
    decide
  exact ⟨hshort, (printint_iff 1234567890 10 (.inl rfl) true).2.mpr hshort⟩

/-- 10^16 has 17 digits, and the last store is past the end of the buffer. -/
theorem printint_overflows : Kernel.printint 10000000000000000 10 false = .error (.overflow 16) ∧
    ¬ ∃ out, Kernel.printint 10000000000000000 10 false = .ok out := by
  have h : Kernel.printint 10000000000000000 10 false = .error (.overflow 16) := by decide +kernel
  refine ⟨h, ?_⟩
  intro ⟨out, hout⟩
  rw [h] at hout
  cases hout

end Xv6.Printf
