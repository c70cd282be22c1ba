/-
  Xv6.Lib.Places — trees of nodes that point to each other.

  `next p i` is the child of node `p` at index `i`; a place is the list of indices from the root
  to a node, and `nodeAt` the node there. `Tree n`: no node is at two places, down to depth `n`.
-/

import Mathlib.Data.Option.Basic
import Mathlib.Data.List.Induction

namespace Xv6.Lib

variable {P I : Type}

def nodeAt (next : P → I → Option P) : P → List I → Option P
  | p, [] => some p
  | p, i :: l => (next p i).bind fun q => nodeAt next q l

/-- No node is at two places of depth `n` at most. -/
def Tree (next : P → I → Option P) (root : P) (n : Nat) : Prop :=
  ∀ l l' p, l.length ≤ n → l'.length ≤ n → nodeAt next root l = some p → nodeAt next root l' = some p → l = l'

/-- The node is at a place of depth `n` at most. -/
def InTree (next : P → I → Option P) (root : P) (n : Nat) (p : P) : Prop := ∃ l, l.length ≤ n ∧ nodeAt next root l = some p

variable {next next' : P → I → Option P} {root p q : P} {l l' : List I} {i : I} {n m : Nat}

theorem nodeAt_cons : nodeAt next p (i :: l) = (next p i).bind fun q => nodeAt next q l := rfl

theorem nodeAt_append : nodeAt next p (l ++ l') = (nodeAt next p l).bind fun q => nodeAt next q l' := by
  induction l generalizing p with
  | nil => rfl
  | cons i l ih =>
    rw [List.cons_append, nodeAt_cons, nodeAt_cons, Option.bind_assoc]
    exact Option.bind_congr fun q _ => ih

theorem nodeAt_snoc : nodeAt next p (l ++ [i]) = (nodeAt next p l).bind fun q => next q i := by
  rw [nodeAt_append]
  refine Option.bind_congr fun q _ => ?_
  rw [nodeAt_cons]
  cases next q i <;> rfl

theorem inTree_self : InTree next root n root := ⟨[], Nat.zero_le _, rfl⟩

theorem InTree.mono (h : InTree next root n p) (hn : n ≤ m) : InTree next root m p := by
  obtain ⟨l, hl, hp⟩ := h
  exact ⟨l, Nat.le_trans hl hn, hp⟩

/-! ## The same pointers -/

theorem nodeAt_congr (h : ∀ l p i, l.length < n → nodeAt next root l = some p → next' p i = next p i) (hl : l.length ≤ n) :
    nodeAt next' root l = nodeAt next root l := by
  induction l using List.reverseRecOn with
  | nil => rfl
  | append_singleton l i ih =>
    rw [List.length_append, List.length_singleton] at hl
    rw [nodeAt_snoc, nodeAt_snoc, ih (by omega)]
    exact Option.bind_congr fun q hq => h l q i (by omega) hq

theorem Tree.congr (h : Tree next root n) (hl : ∀ l, l.length ≤ n → nodeAt next' root l = nodeAt next root l) :
    Tree next' root n := by
  intro l l' p h1 h2 hp hp'
  rw [hl l h1] at hp
  rw [hl l' h2] at hp'
  exact h l l' p h1 h2 hp hp'

theorem inTree_congr (hl : ∀ l, l.length ≤ n → nodeAt next' root l = nodeAt next root l) :
    InTree next' root n p ↔ InTree next root n p := by
  constructor
  · rintro ⟨l, h, hp⟩
    exact ⟨l, h, by rw [← hl l h]; exact hp⟩
  · rintro ⟨l, h, hp⟩
    exact ⟨l, h, by rw [hl l h]; exact hp⟩

/-! ## One more node -/

/-- Node `q`, which was nowhere in the tree, becomes the child of the node at place `l`. -/
theorem nodeAt_grow [DecidableEq (List I)] (ht : Tree next root n) (hp : nodeAt next root l = some p) (hl : l.length < n)
    (hnone : next p i = none) (hq : ¬ InTree next root n q) (hself : next' p i = some q)
    (hothers : ∀ k, k ≠ i → next' p k = next p k)
    (hnew : ∀ k, next' q k = none) (hrest : ∀ r k, r ≠ p → r ≠ q → next' r k = next r k) (hl' : l'.length ≤ n) :
    nodeAt next' root l' = if l' = l ++ [i] then some q else nodeAt next root l' := by
  induction l' using List.reverseRecOn with
  | nil => rw [if_neg (List.append_ne_nil_of_right_ne_nil l (List.cons_ne_nil i [])).symm]; rfl
  | append_singleton l' k ih =>
    rw [List.length_append, List.length_singleton] at hl'
    rw [nodeAt_snoc, nodeAt_snoc, ih (by omega)]
    by_cases e : l' = l ++ [i]
    · -- below the new node there is nothing, as there was
      have hold : nodeAt next root l' = none := by rw [e, nodeAt_snoc, hp]; exact hnone
      rw [if_pos e, hold, Option.bind_some, hnew, if_neg]
      · rfl
      · intro h
        have := congrArg List.length h
        rw [e] at this
        simp at this
    · rw [if_neg e]
      cases hr : nodeAt next root l' with
      | none =>
        rw [if_neg]
        · rfl
        · intro h
          rw [(List.append_inj' h rfl).1, hp] at hr
          cases hr
      | some r =>
        rw [Option.bind_some, Option.bind_some]
        have hrq : r ≠ q := fun h => hq (h ▸ ⟨l', by omega, hr⟩)
        by_cases hrp : r = p
        · have hll : l' = l := ht l' l p (by omega) (by omega) (hrp ▸ hr) hp
          subst hrp
          by_cases hk : k = i
          · rw [hk, hself, hll, if_pos rfl]
          · rw [hothers k hk, if_neg]
            intro h
            exact hk (List.cons.inj (List.append_inj' h rfl).2).1
        · rw [hrest r k hrp hrq, if_neg]
          intro h
          rw [(List.append_inj' h rfl).1, hp] at hr
          exact hrp (Option.some.inj hr).symm

/-! ## Subtrees -/

theorem Tree.child (h : Tree next root (n + 1)) (hq : next root i = some q) : Tree next q n := by
  intro l l' p hl hl' hp hp'
  have hi : ∀ {l}, nodeAt next q l = some p → nodeAt next root (i :: l) = some p := fun h => by
    rw [nodeAt_cons, hq]
    exact h
  exact (List.cons.inj (h (i :: l) (i :: l') p (by simpa using hl) (by simpa using hl') (hi hp) (hi hp'))).2

theorem InTree.child (h : InTree next q n p) (hq : next root i = some q) : InTree next root (n + 1) p := by
  obtain ⟨l, hl, hp⟩ := h
  exact ⟨i :: l, by simpa using hl, by rw [nodeAt_cons, hq]; exact hp⟩

theorem inTree_succ : InTree next root (n + 1) p ↔ p = root ∨ ∃ i q, next root i = some q ∧ InTree next q n p := by
  constructor
  · rintro ⟨l, hl, hp⟩
    cases l with
    | nil => exact .inl (Option.some.inj hp).symm
    | cons i l =>
      rw [nodeAt_cons, Option.bind_eq_some_iff] at hp
      obtain ⟨q, hq, hp⟩ := hp
      exact .inr ⟨i, q, hq, l, by simpa using hl, hp⟩
  · rintro (rfl | ⟨i, q, hq, h⟩)
    · exact inTree_self
    · exact h.child hq

theorem inTree_zero : InTree next root 0 p ↔ p = root := by
  constructor
  · rintro ⟨l, hl, hp⟩
    rw [List.eq_nil_of_length_eq_zero (Nat.le_zero.mp hl)] at hp
    exact (Option.some.inj hp).symm
  · rintro rfl
    exact inTree_self

theorem Tree.root_not_below (h : Tree next root (n + 1)) (hq : next root i = some q) : ¬ InTree next q n root := by
  rintro ⟨l, hl, hp⟩
  have := h (i :: l) [] root (by simpa using hl) (Nat.zero_le _) (by rw [nodeAt_cons, hq]; exact hp) rfl
  cases this

theorem Tree.children_apart (h : Tree next root (n + 1)) {k : I} {r : P} (hq : next root i = some q) (hr : next root k = some r)
    (hp : InTree next q n p) (hp' : InTree next r n p) : i = k := by
  obtain ⟨l, hl, hp⟩ := hp
  obtain ⟨l', hl', hp'⟩ := hp'
  have := h (i :: l) (k :: l') p (by simpa using hl) (by simpa using hl') (by rw [nodeAt_cons, hq]; exact hp)
    (by rw [nodeAt_cons, hr]; exact hp')
  exact (List.cons.inj this).1

end Xv6.Lib
