/-
  Xv6.Vm.Tree — a page table as a map from page numbers to entries.

  `next` is the table below an entry, so that the tables of a page table are a tree of pages
  (`Lib.Tree`). `entry` is the entry of a page number, 0 where there is no table for it. Memory
  changes by `Tables.frame`, `Tables.grow` and `Tables.set`.
-/

import Xv6.Lib.Places
import Xv6.Vm.Model

namespace Xv6.Vm

open Function (update update_self update_of_ne)
open Lib (nodeAt InTree inTree_congr)

def next (m : Nat → Page) (p i : Nat) : Option Nat :=
  if i < 512 ∧ (m p).pte i &&& PTE_V ≠ 0 then some (ppn ((m p).pte i)) else none

/-- The indices down to the table of level `l`. -/
@[grind] def indices (va : Nat) : Nat → List Nat
  | 0 => []
  | l + 1 => PX (l + 1) va :: indices va l

/-- The table with the entry of page number `n`. -/
def tableOf (m : Nat → Page) (root n : Nat) : Option Nat := nodeAt (next m) root (indices (n * PGSIZE) 2)

def entry (m : Nat → Page) (root n : Nat) : Nat := ((tableOf m root n).map fun p => (m p).pte (PX 0 (n * PGSIZE))).getD 0

/-- The page is one of the tables. -/
def IsTable (m : Nat → Page) (root p : Nat) : Prop := InTree (next m) root 2 p

/-- The kernel may have the page on its free list. -/
@[grind] def Mem.Owns (s : Mem) (p : Nat) : Prop := s.kend ≤ p * PGSIZE ∧ p * PGSIZE < PHYSTOP

instance (s : Mem) (p : Nat) : Decidable (s.Owns p) := inferInstanceAs (Decidable (_ ∧ _))

structure Mem.Ok (s : Mem) : Prop where
  nodup : s.free.Nodup
  owns : ∀ p ∈ s.free, s.Owns p

structure Tables (s : Mem) (root : Nat) : Prop where
  tree : Lib.Tree (next s.page) root 2
  used : ∀ p, IsTable s.page root p → p ∉ s.free
  owns : ∀ p, IsTable s.page root p → s.Owns p
  inner : ∀ p i, InTree (next s.page) root 1 p → i < 512 → (s.page p).pte i &&& PTE_V ≠ 0 →
    (s.page p).pte i &&& (PTE_R ||| PTE_W ||| PTE_X) = 0
  low : ∀ i, next s.page root i ≠ none → i < 256

theorem Mem.Owns.lt {s : Mem} {p : Nat} (h : s.Owns p) : p < 2 ^ 52 := by
  have hs : PHYSTOP = 2281701376 := rfl
  have hlt : p * 4096 < PHYSTOP := h.2
  omega

variable {m m' : Nat → Page} {s s' : Mem} {root p q i n va : Nat} {l : List Nat}

theorem length_indices (va l : Nat) : (indices va l).length = l := by
  induction l with
  | zero => rfl
  | succ l ih => rw [indices, List.length_cons, ih]

theorem indices_page (va l : Nat) : indices (va / PGSIZE * PGSIZE) l = indices va l := by
  induction l with
  | zero => rfl
  | succ l ih => rw [indices, indices, ih, ← PX_page_of_va]

theorem next_congr (h : m' p = m p) : next m' p i = next m p i := by
  unfold next
  rw [h]

theorem next_eq_some : next m p i = some q ↔ i < 512 ∧ (m p).pte i &&& PTE_V ≠ 0 ∧ ppn ((m p).pte i) = q := by
  unfold next
  split
  · rename_i h
    rw [Option.some.injEq]
    exact ⟨fun e => ⟨h.1, h.2, e⟩, fun e => e.2.2⟩
  · rename_i h
    exact iff_of_false (fun e => nomatch e) fun e => h ⟨e.1, e.2.1⟩

theorem isTable_of_tableOf (h : tableOf m root n = some p) : IsTable m root p := ⟨_, Nat.le_of_eq (length_indices _ 2), h⟩

theorem entry_of_table (h : tableOf m root n = some p) : entry m root n = (m p).pte (PX 0 (n * PGSIZE)) := by
  rw [entry, h]
  rfl

theorem entry_of_none (h : tableOf m root n = none) : entry m root n = 0 := by
  rw [entry, h]
  rfl

theorem tableOf_of_valid (h : entry m root n &&& PTE_V ≠ 0) : ∃ p, tableOf m root n = some p := by
  cases hp : tableOf m root n with
  | none =>
    rw [entry_of_none hp] at h
    exact absurd (Nat.zero_and _) h
  | some p => exact ⟨p, rfl⟩

/-! ## Page numbers -/

theorem page_lt (h : va < MAXVA) : va / PGSIZE < MAXVA / PGSIZE :=
  Nat.div_lt_div_of_lt_of_dvd (by decide) h

theorem mul_lt (h : n < MAXVA / PGSIZE) : n * PGSIZE < MAXVA := by
  simp only [MAXVA, PGSIZE] at *
  omega

theorem page_inj {n n' : Nat} (h : n < MAXVA / PGSIZE) (h' : n' < MAXVA / PGSIZE)
    (hi : indices (n * PGSIZE) 2 = indices (n' * PGSIZE) 2) (h0 : PX 0 (n * PGSIZE) = PX 0 (n' * PGSIZE)) : n = n' := by
  simp only [indices, List.cons.injEq, and_true] at hi
  have := page_eq_of_PX (mul_lt h) (mul_lt h') hi.1 hi.2 h0
  rwa [Nat.mul_div_cancel _ (by decide), Nat.mul_div_cancel _ (by decide)] at this

/-! ## Memory that is no table changes -/

section

variable (h : ∀ p, IsTable m root p → m' p = m p)
include h

theorem nodeAt_frame (hl : l.length ≤ 2) : nodeAt (next m') root l = nodeAt (next m) root l :=
  Lib.nodeAt_congr (fun l p _ hl hp => next_congr (h p ⟨l, by omega, hp⟩)) hl

theorem isTable_frame : IsTable m' root p ↔ IsTable m root p :=
  inTree_congr fun _ hl => nodeAt_frame h hl

theorem entry_frame : entry m' root n = entry m root n := by
  have ht : tableOf m' root n = tableOf m root n := nodeAt_frame h (Nat.le_of_eq (length_indices _ 2))
  cases hp : tableOf m root n with
  | none => rw [entry_of_none hp, entry_of_none (ht.trans hp)]
  | some p => rw [entry_of_table hp, entry_of_table (ht.trans hp), h p (isTable_of_tableOf hp)]

end

theorem Tables.frame (h : Tables s root) (hp : ∀ p, IsTable s.page root p → s'.page p = s.page p) (hk : s'.kend = s.kend)
    (hf : ∀ p, IsTable s.page root p → p ∉ s'.free) : Tables s' root := by
  have hat : ∀ l, l.length ≤ 2 → nodeAt (next s'.page) root l = nodeAt (next s.page) root l :=
    fun _ hl => nodeAt_frame hp hl
  refine ⟨h.tree.congr hat, fun p ht => hf p ((isTable_frame hp).mp ht), fun p ht => ?_, fun p i ht => ?_, fun i => ?_⟩
  · have := h.owns p ((isTable_frame hp).mp ht)
    rwa [Mem.Owns, hk]
  · have ht1 : InTree (next s.page) root 1 p := (inTree_congr fun l hl => hat l (by omega)).mp ht
    rw [hp p (ht1.mono (by omega))]
    exact h.inner p i ht1
  · rw [next_congr (hp root Lib.inTree_self)]
    exact h.low i

/-! ## An entry of the last level -/

section

variable {v : Nat} (h : Tables s root) (hp : tableOf s.page root n = some p)
  (hs : s'.page = update s.page p ((s.page p).setPte (PX 0 (n * PGSIZE)) v))
include h hp

theorem Tables.ne_of_inner {q : Nat} (hq : InTree (next s.page) root 1 q) : q ≠ p := by
  rintro rfl
  obtain ⟨l, hl, hq⟩ := hq
  have := h.tree l _ q (by omega) (Nat.le_of_eq (length_indices _ 2)) hq hp
  have := congrArg List.length this
  rw [length_indices] at this
  omega

include hs

theorem Tables.nodeAt_set (hl : l.length ≤ 2) : nodeAt (next s'.page) root l = nodeAt (next s.page) root l := by
  refine Lib.nodeAt_congr (fun l q i hl hq => next_congr ?_) hl
  rw [hs, update_of_ne (h.ne_of_inner hp ⟨l, by omega, hq⟩)]

theorem Tables.isTable_set {q : Nat} : IsTable s'.page root q ↔ IsTable s.page root q :=
  inTree_congr fun _ hl => h.nodeAt_set hp hs hl

theorem Tables.set (hk : s'.kend = s.kend) (hf : ∀ p, IsTable s.page root p → p ∉ s'.free) : Tables s' root := by
  have hat : ∀ l, l.length ≤ 2 → nodeAt (next s'.page) root l = nodeAt (next s.page) root l :=
    fun _ hl => h.nodeAt_set hp hs hl
  refine ⟨h.tree.congr hat, fun q ht => hf q ((h.isTable_set hp hs).mp ht), fun q ht => ?_, fun q i ht => ?_, fun i => ?_⟩
  · have := h.owns q ((h.isTable_set hp hs).mp ht)
    rwa [Mem.Owns, hk]
  · have ht1 : InTree (next s.page) root 1 q := (inTree_congr fun l hl => hat l (by omega)).mp ht
    rw [hs, update_of_ne (h.ne_of_inner hp ht1)]
    exact h.inner q i ht1
  · have hroot : s'.page root = s.page root := by rw [hs, update_of_ne (h.ne_of_inner hp Lib.inTree_self)]
    rw [next_congr hroot]
    exact h.low i

theorem Tables.entry_set_self (hv : v < 2 ^ 64) : entry s'.page root n = v := by
  have ht : tableOf s'.page root n = some p := (h.nodeAt_set hp hs (Nat.le_of_eq (length_indices _ 2))).trans hp
  rw [entry_of_table ht, hs, update_self, Page.pte_setPte_self _ _ hv]

theorem Tables.entry_set_of_ne {n' : Nat} (hn : n < MAXVA / PGSIZE) (hn' : n' < MAXVA / PGSIZE) (hne : n' ≠ n) :
    entry s'.page root n' = entry s.page root n' := by
  have ht : tableOf s'.page root n' = tableOf s.page root n' := h.nodeAt_set hp hs (Nat.le_of_eq (length_indices _ 2))
  cases hq : tableOf s.page root n' with
  | none => rw [entry_of_none hq, entry_of_none (ht.trans hq)]
  | some q =>
    rw [entry_of_table hq, entry_of_table (ht.trans hq), hs]
    by_cases e : q = p
    · subst e
      -- the same table, so another index
      have hi := h.tree _ _ q (Nat.le_of_eq (length_indices _ 2)) (Nat.le_of_eq (length_indices _ 2)) hq hp
      rw [update_self, Page.pte_setPte_of_ne _ _ fun h0 => hne (page_inj hn' hn hi h0)]
    · rw [update_of_ne e]

end

/-! ## A new table -/

theorem pte_grow (hq : q < 2 ^ 52)
    (hs : m' = update (update m q fun _ => 0) p ((m p).setPte i (PA2PTE (q * PGSIZE) ||| PTE_V))) :
    (m' p).pte i = PA2PTE (q * PGSIZE) ||| PTE_V ∧ IsPte (PA2PTE (q * PGSIZE) ||| PTE_V) q 0 := by
  have hpte : IsPte (PA2PTE (q * PGSIZE) ||| PTE_V) q 0 := by
    have := isPte hq (by decide : 0 < 1024)
    rwa [Nat.or_zero] at this
  refine ⟨?_, hpte⟩
  rw [hs, update_self, Page.pte_setPte_self _ _ hpte.lt]

section

variable (h : Tables s root) (hp : nodeAt (next s.page) root l = some p) (hl : l.length < 2) (hi : i < 512)
  (hnone : (s.page p).pte i &&& PTE_V = 0) (hq : ¬ IsTable s.page root q) (hq52 : q < 2 ^ 52)
  (hs : s'.page = update (update s.page q fun _ => 0) p ((s.page p).setPte i (PA2PTE (q * PGSIZE) ||| PTE_V)))
include h hp hl hi hnone hq hq52 hs

theorem Tables.nodeAt_grow {l' : List Nat} (hl' : l'.length ≤ 2) :
    nodeAt (next s'.page) root l' = if l' = l ++ [i] then some q else nodeAt (next s.page) root l' := by
  have hpq : p ≠ q := fun e => hq (e ▸ ⟨l, by omega, hp⟩)
  obtain ⟨hpte, hent⟩ := pte_grow hq52 hs
  refine Lib.nodeAt_grow h.tree hp hl ?_ hq ?_ (fun k hk => ?_) (fun k => ?_) (fun r k hrp hrq => ?_) hl'
  · rw [next, if_neg fun hc => hc.2 hnone]
  · rw [next_eq_some, hpte]
    exact ⟨hi, hent.valid, hent.ppn⟩
  · unfold next
    rw [hs, update_self, Page.pte_setPte_of_ne _ _ hk]
  · unfold next
    rw [hs, update_of_ne hpq.symm, update_self, Page.pte_zero, Nat.zero_and, if_neg fun hc => hc.2 rfl]
  · refine next_congr ?_
    rw [hs, update_of_ne hrp, update_of_ne hrq]

theorem Tables.isTable_grow {r : Nat} : IsTable s'.page root r ↔ IsTable s.page root r ∨ r = q := by
  have hnew : nodeAt (next s.page) root (l ++ [i]) = none := by
    rw [Lib.nodeAt_snoc, hp]
    show next s.page p i = none
    rw [next, if_neg fun hc => hc.2 hnone]
  have hlen : (l ++ [i]).length ≤ 2 := by rw [List.length_append, List.length_singleton]; omega
  constructor
  · rintro ⟨l', hl', hr⟩
    rw [h.nodeAt_grow hp hl hi hnone hq hq52 hs hl'] at hr
    split at hr
    · exact .inr (Option.some.inj hr).symm
    · exact .inl ⟨l', hl', hr⟩
  · rintro (⟨l', hl', hr⟩ | rfl)
    · refine ⟨l', hl', ?_⟩
      rw [h.nodeAt_grow hp hl hi hnone hq hq52 hs hl', if_neg, hr]
      rintro rfl
      rw [hnew] at hr
      cases hr
    · exact ⟨l ++ [i], hlen, by rw [h.nodeAt_grow hp hl hi hnone hq hq52 hs hlen, if_pos rfl]⟩

theorem Tables.entry_grow : entry s'.page root n = entry s.page root n := by
  have hlen := Nat.le_of_eq (length_indices (n * PGSIZE) 2)
  have ht : tableOf s'.page root n = _ := h.nodeAt_grow hp hl hi hnone hq hq52 hs hlen
  by_cases e : indices (n * PGSIZE) 2 = l ++ [i]
  · have hold : tableOf s.page root n = none := by
      rw [tableOf, e, Lib.nodeAt_snoc, hp]
      show next s.page p i = none
      rw [next, if_neg fun hc => hc.2 hnone]
    have hpq : q ≠ p := fun e => hq (e ▸ ⟨l, by omega, hp⟩)
    rw [if_pos e] at ht
    rw [entry_of_none hold, entry_of_table ht, hs, update_of_ne hpq, update_self, Page.pte_zero]
  · rw [if_neg e] at ht
    cases hr : tableOf s.page root n with
    | none => rw [entry_of_none hr, entry_of_none (ht.trans hr)]
    | some r =>
      have hrp : r ≠ p := fun e => by
        subst e
        have := congrArg List.length (h.tree _ l r hlen (by omega) hr hp)
        rw [length_indices] at this
        omega
      have hrq : r ≠ q := fun e => hq (e ▸ isTable_of_tableOf hr)
      rw [entry_of_table hr, entry_of_table (ht.trans hr), hs, update_of_ne hrp, update_of_ne hrq]

theorem Tables.grow (hk : s'.kend = s.kend) (hf : ∀ r, IsTable s.page root r ∨ r = q → r ∉ s'.free) (ho : s.Owns q)
    (hlow : l = [] → i < 256) : Tables s' root := by
  have hpq : p ≠ q := fun e => hq (e ▸ ⟨l, by omega, hp⟩)
  have hat : ∀ l' : List Nat, l'.length ≤ 2 → nodeAt (next s'.page) root l' =
      if l' = l ++ [i] then some q else nodeAt (next s.page) root l' := fun _ => h.nodeAt_grow hp hl hi hnone hq hq52 hs
  obtain ⟨hpte, hent⟩ := pte_grow hq52 hs
  have htable := fun r => h.isTable_grow (r := r) hp hl hi hnone hq hq52 hs
  refine ⟨fun l1 l2 r h1 h2 hr1 hr2 => ?_, fun r hr => hf r ((htable r).mp hr), fun r hr => ?_, fun r k hr hk' => ?_,
    fun k hk' => ?_⟩
  · rw [hat l1 h1] at hr1
    rw [hat l2 h2] at hr2
    by_cases e1 : l1 = l ++ [i]
    · by_cases e2 : l2 = l ++ [i]
      · rw [e1, e2]
      · rw [if_pos e1] at hr1
        rw [if_neg e2, ← hr1] at hr2
        exact absurd ⟨l2, h2, hr2⟩ hq
    · rw [if_neg e1] at hr1
      by_cases e2 : l2 = l ++ [i]
      · rw [if_pos e2] at hr2
        rw [← hr2] at hr1
        exact absurd ⟨l1, h1, hr1⟩ hq
      · rw [if_neg e2] at hr2
        exact h.tree l1 l2 r h1 h2 hr1 hr2
  · rw [Mem.Owns, hk]
    rcases (htable r).mp hr with hr | rfl
    · exact h.owns r hr
    · exact ho
  · by_cases erq : r = q
    · -- nothing in the new table is valid
      rw [erq, hs, update_of_ne hpq.symm, update_self, Page.pte_zero, Nat.zero_and]
      exact fun hc => absurd rfl hc
    · have hr1 : InTree (next s.page) root 1 r := by
        obtain ⟨l', hl', hr⟩ := hr
        rw [hat l' (by omega)] at hr
        split at hr
        · exact absurd (Option.some.inj hr).symm erq
        · exact ⟨l', hl', hr⟩
      by_cases erp : r = p
      · subst erp
        by_cases eki : k = i
        · intro _
          rw [eki, hpte, ← and_flags _ _ rfl, hent.flags]
          rfl
        · rw [hs, update_self, Page.pte_setPte_of_ne _ _ eki]
          exact h.inner r k hr1 hk'
      · rw [hs, update_of_ne erp, update_of_ne erq]
        exact h.inner r k hr1 hk'
  · by_cases erp : root = p
    · subst erp
      have hl0 : l = [] := h.tree l [] root (by omega) (Nat.zero_le _) hp rfl
      by_cases eki : k = i
      · rw [eki]
        exact hlow hl0
      · refine h.low k ?_
        unfold next at hk' ⊢
        rwa [hs, update_self, Page.pte_setPte_of_ne _ _ eki] at hk'
    · have erq : root ≠ q := fun e => hq (e ▸ Lib.inTree_self)
      refine h.low k ?_
      have : s'.page root = s.page root := by rw [hs, update_of_ne erp, update_of_ne erq]
      rwa [next_congr this] at hk'

end

end Xv6.Vm
