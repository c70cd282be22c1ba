/-
  Xv6.Lib.Dlist — a circular doubly linked list through a head. A pointer is `none` for the
  head and `some b` for the node `b`.

  `Ring k l`: the `next` pointers from the head pass through the nodes `l`, in order and
  each once, and the `prev` pointers lead back.
-/

import Mathlib.Data.List.Induction

namespace Xv6.Lib

open Function (update update_of_ne)

structure Links (α : Type) where
  next : Option α → Option α
  prev : Option α → Option α

/-- From `p` on, the pointers `f` pass through `l` and then lead to the head. -/
def Traverses {α : Type} (f : Option α → Option α) : Option α → List α → Prop
  | p, [] => f p = none
  | p, b :: l => f p = some b ∧ Traverses f (some b) l

/-- `for(b = f(p); b != head; b = f(b)) if(test(b)) return b`, for at most so many nodes. -/
def scan {α : Type} (f : Option α → Option α) (test : α → Bool) : Nat → Option α → Option α
  | 0, _ => none
  | fuel + 1, p =>
    match f p with
    | none => none
    | some b => if test b then some b else scan f test fuel (some b)

theorem test_of_scan {α : Type} {f : Option α → Option α} {test : α → Bool} {fuel : Nat} {p : Option α} {b : α}
    (h : scan f test fuel p = some b) : test b = true := by
  induction fuel generalizing p with
  | zero => cases h
  | succ fuel ih =>
    rw [scan] at h
    split at h
    · cases h
    · split at h
      · cases h
        assumption
      · exact ih h

theorem Traverses.scan_eq {α : Type} {f : Option α → Option α} {p : Option α} {l : List α} (h : Traverses f p l)
    (test : α → Bool) {fuel : Nat} (hf : l.length < fuel) : scan f test fuel p = l.find? test := by
  induction l generalizing p fuel with
  | nil =>
    obtain ⟨fuel, rfl⟩ : ∃ m, fuel = m + 1 := ⟨fuel - 1, by simp at hf; omega⟩
    have h : f p = none := h
    simp [scan, h]
  | cons b l ih =>
    obtain ⟨fuel, rfl⟩ : ∃ m, fuel = m + 1 := ⟨fuel - 1, by simp at hf; omega⟩
    have ih := ih h.2 (show l.length < fuel by simp at hf; omega)
    rw [scan, h.1, List.find?_cons]
    cases ht : test b <;> simp [ht, ih]

namespace Links

variable {α : Type}

/-- From `p` through `l` to `q`, and back. -/
def Seg (k : Links α) : Option α → List α → Option α → Prop
  | p, [], q => k.next p = q ∧ k.prev q = p
  | p, b :: l, q => k.next p = some b ∧ k.prev (some b) = p ∧ Seg k (some b) l q

structure Ring (k : Links α) (l : List α) : Prop where
  nodup : l.Nodup
  seg : k.Seg none l none

variable {k k' : Links α} {p q : Option α} {l m : List α} {b : α}

theorem seg_append : k.Seg p (l ++ b :: m) q ↔ k.Seg p l (some b) ∧ k.Seg (some b) m q := by
  induction l generalizing p with
  | nil => exact and_assoc.symm
  | cons c l ih =>
    constructor
    · rintro ⟨h1, h2, h3⟩
      obtain ⟨h3, h4⟩ := ih.mp h3
      exact ⟨⟨h1, h2, h3⟩, h4⟩
    · rintro ⟨⟨h1, h2, h3⟩, h4⟩
      exact ⟨h1, h2, ih.mpr ⟨h3, h4⟩⟩

theorem Seg.congr (h : k.Seg p l q) (hn : ∀ x, x = p ∨ x ∈ l.map some → k'.next x = k.next x)
    (hp : ∀ x, x = q ∨ x ∈ l.map some → k'.prev x = k.prev x) : k'.Seg p l q := by
  induction l generalizing p with
  | nil => exact ⟨(hn p (.inl rfl)).trans h.1, (hp q (.inl rfl)).trans h.2⟩
  | cons c l ih =>
    refine ⟨(hn p (.inl rfl)).trans h.1, (hp _ (.inr (by simp))).trans h.2.1, ih h.2.2 (fun x hx => ?_) (fun x hx => ?_)⟩
    · exact hn x (.inr (by rcases hx with rfl | hx <;> simp_all))
    · exact hp x (by rcases hx with rfl | hx <;> simp_all)

theorem Seg.next_mem (h : k.Seg p l q) : k.next p = q ∨ ∃ c ∈ l, k.next p = some c := by
  cases l with
  | nil => exact .inl h.1
  | cons c l => exact .inr ⟨c, by simp, h.1⟩

theorem Seg.prev_mem (h : k.Seg p l q) : k.prev q = p ∨ ∃ c ∈ l, k.prev q = some c := by
  induction l generalizing p with
  | nil => exact .inl h.2
  | cons c l ih =>
    rcases ih h.2.2 with h' | ⟨d, hd, h'⟩
    · exact .inr ⟨c, by simp, h'⟩
    · exact .inr ⟨d, by simp [hd], h'⟩

theorem Seg.forth (h : k.Seg p l none) : Traverses k.next p l := by
  induction l generalizing p with
  | nil => exact h.1
  | cons c l ih => exact ⟨h.1, ih h.2.2⟩

theorem Seg.back (h : k.Seg none l q) : Traverses k.prev q l.reverse := by
  induction l using List.reverseRecOn generalizing q with
  | nil => exact h.2
  | append_singleton l c ih =>
    obtain ⟨h1, h2⟩ := seg_append.mp h
    rw [List.reverse_append]
    exact ⟨h2.2, ih h1⟩

theorem Ring.forth (h : k.Ring l) : Traverses k.next none l := h.seg.forth

theorem Ring.back (h : k.Ring l) : Traverses k.prev none l.reverse := h.seg.back

variable [DecidableEq α]

/-- `b->next = head.next; b->prev = head; head.next->prev = b; head.next = b`. -/
def insert (k : Links α) (b : α) : Links α :=
  let next := update k.next (some b) (k.next none)
  let prev := update k.prev (some b) none
  let prev := update prev (next none) (some b)
  ⟨update next none (some b), prev⟩

/-- `b->next->prev = b->prev; b->prev->next = b->next`. -/
def unlink (k : Links α) (b : α) : Links α :=
  let prev := update k.prev (k.next (some b)) (k.prev (some b))
  ⟨update k.next (prev (some b)) (k.next (some b)), prev⟩

theorem insert_next (k : Links α) (b : α) (x : Option α) :
    (k.insert b).next x = if x = none then some b else if x = some b then k.next none else k.next x := by
  by_cases h1 : x = none
  · simp [insert, h1]
  · by_cases h2 : x = some b <;> simp [insert, h1, h2]

theorem insert_prev (k : Links α) (b : α) (x : Option α) :
    (k.insert b).prev x = if x = k.next none then some b else if x = some b then none else k.prev x := by
  have h : update k.next (some b) (k.next none) none = k.next none :=
    update_of_ne (Option.some_ne_none b).symm ..
  by_cases h1 : x = k.next none
  · simp [insert, h1]
  · rw [if_neg h1]
    by_cases h2 : x = some b
    · rw [if_pos h2, h2]
      simp [insert, update_of_ne (h2 ▸ h1)]
    · simp [insert, h1, h2]

theorem Ring.insert (h : k.Ring l) (hb : b ∉ l) : (k.insert b).Ring (b :: l) := by
  have hne : some b ≠ k.next none := by
    rcases h.seg.next_mem with h' | ⟨c, hc, h'⟩ <;> rw [h']
    · nofun
    · rintro e
      cases e
      exact hb hc
  refine ⟨List.nodup_cons.mpr ⟨hb, h.nodup⟩, by simp [insert_next], by simp [insert_prev, hne], ?_⟩
  have hseg := h.seg
  cases l with
  | nil =>
    have hnone : k.next none = none := hseg.1
    exact ⟨by simp [insert_next, hnone], by simp [insert_prev, hnone]⟩
  | cons c l =>
    obtain ⟨h1, -, h3⟩ := hseg
    have hc : c ≠ b := fun e => hb (by simp [e])
    have hcl := (List.nodup_cons.mp h.nodup).1
    refine ⟨by simp [insert_next, h1], by simp [insert_prev, h1], h3.congr (fun x hx => ?_) (fun x hx => ?_)⟩
    · have h4 : x ≠ none := by rintro rfl; simp at hx
      have h5 : x ≠ some b := by rintro rfl; simp_all
      rw [insert_next, if_neg h4, if_neg h5]
    · have h4 : x ≠ k.next none := by
        rw [h1]
        rintro rfl
        simp_all
      have h5 : x ≠ some b := by rintro rfl; simp_all
      rw [insert_prev, if_neg h4, if_neg h5]

theorem Seg.unlink (h1 : k.Seg p l (some b)) (h2 : k.Seg (some b) m q) (hd : (l ++ b :: m).Nodup)
    (hp : p ∉ (l ++ b :: m).map some) (hq : q ∉ (l ++ b :: m).map some) : (k.unlink b).Seg p (l ++ m) q := by
  have hne : some b ≠ k.next (some b) := by
    rcases h2.next_mem with h' | ⟨c, hc, h'⟩ <;> rw [h']
    · exact fun e => hq (by simp [← e])
    · rintro e
      cases e
      exact (List.nodup_cons.mp (List.nodup_append.mp hd).2.1).1 hc
  have hnext : ∀ x, (k.unlink b).next x = if x = k.prev (some b) then k.next (some b) else k.next x := fun x => by
    by_cases h : x = k.prev (some b) <;> simp [Links.unlink, update_of_ne hne, h]
  have hprev : ∀ x, (k.unlink b).prev x = if x = k.next (some b) then k.prev (some b) else k.prev x := fun x => by
    by_cases h : x = k.next (some b) <;> simp [Links.unlink, h]
  induction l generalizing p with
  | nil =>
    cases m with
    | nil => exact ⟨by rw [hnext, h1.2, if_pos rfl]; exact h2.1, by rw [hprev, h2.1, if_pos rfl]; exact h1.2⟩
    | cons c m =>
      refine ⟨by rw [hnext, h1.2, if_pos rfl]; exact h2.1, by rw [hprev, h2.1, if_pos rfl]; exact h1.2,
        h2.2.2.congr (fun x hx => ?_) (fun x hx => ?_)⟩
      · rw [hnext, h1.2, if_neg]
        rintro rfl
        simp_all
      · rw [hprev, h2.1, if_neg]
        rintro rfl
        simp_all
  | cons a l ih =>
    refine ⟨?_, ?_, ih h1.2.2 (by simp_all) (by simp_all) (by simp_all)⟩
    · rw [hnext, if_neg]
      · exact h1.1
      · rcases h1.2.2.prev_mem with h' | ⟨c, hc, h'⟩ <;> rw [h']
        · exact fun e => hp (by simp [e])
        · exact fun e => hp (by simp [e, hc])
    · rw [hprev, if_neg]
      · exact h1.2.1
      · rcases h2.next_mem with h' | ⟨c, hc, h'⟩ <;> rw [h']
        · exact fun e => hq (by simp [← e])
        · rintro e
          cases e
          exact (List.nodup_cons.mp hd).1 (by simp [hc])

theorem Ring.unlink (h : k.Ring (l ++ b :: m)) : (k.unlink b).Ring (l ++ m) := by
  obtain ⟨h1, h2⟩ := seg_append.mp h.seg
  refine ⟨h.nodup.sublist (by simp), h1.unlink h2 h.nodup (by simp) (by simp)⟩

end Links

end Xv6.Lib
