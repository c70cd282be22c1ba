/-
  Xv6.Lib.Cycle — loops along the pointers of a circular list.

  `Cycle next a l`: from `a` the pointers pass through `l` and lead back to `a`.

  - `Cycle.rotate`: a cycle can start at any of its nodes;
-/

import Mathlib.Data.List.Chain

namespace Xv6.Lib

variable {α : Type}

/-- `for(; !stop(p); prev = p, p = next(p));`, for at most so many nodes: where it stops, and the node before. -/
def walk (next : α → α) (stop : α → Bool) : Nat → α → α → Option (α × α)
  | 0, _, _ => none
  | n + 1, prev, p => if stop p then some (prev, p) else walk next stop n p (next p)

def Cycle (next : α → α) (a : α) (l : List α) : Prop := List.IsChain (next · = ·) (a :: l ++ [a])

variable {next : α → α} {stop : α → Bool} {a f x prev : α} {l m : List α} {n : Nat}

theorem walk_chain (h : List.IsChain (next · = ·) (prev :: l ++ [x])) (hl : ∀ z ∈ l, stop z = false) (hx : stop x = true)
    (hn : l.length < n) : walk next stop n prev (next prev) = some ((prev :: l).getLast (List.cons_ne_nil _ _), x) := by
  induction l generalizing prev n with
  | nil =>
    obtain ⟨n, rfl⟩ := Nat.exists_eq_add_one.mpr hn
    have hp : next prev = x := by simpa using h
    rw [walk, hp, if_pos hx]
    rfl
  | cons c l ih =>
    obtain ⟨n, rfl⟩ := Nat.exists_eq_add_one.mpr (Nat.zero_lt_of_lt hn)
    obtain ⟨hp, hc⟩ := List.isChain_cons_cons.mp h
    have hstop : stop c = false := hl c (List.mem_cons_self ..)
    rw [walk, hp, hstop, if_neg Bool.false_ne_true, List.getLast_cons (List.cons_ne_nil _ _)]
    exact ih hc (fun z hz => hl z (List.mem_cons_of_mem _ hz)) (Nat.lt_of_succ_lt_succ hn)

theorem Cycle.rotate (h : Cycle next a l) (hf : f ∈ a :: l) : ∃ m, Cycle next f m ∧ (f :: m).Perm (a :: l) := by
  cases hf with
  | head => exact ⟨l, h, List.Perm.refl _⟩
  | tail _ hf =>
    obtain ⟨l₁, l₂, rfl⟩ := List.append_of_mem hf
    refine ⟨l₂ ++ a :: l₁, ?_, ?_⟩
    · unfold Cycle at h ⊢
      have h1 : List.IsChain (next · = ·) ((a :: l₁) ++ [f]) := by
        apply h.infix
        exact ⟨[], l₂ ++ [a], by simp⟩
      have h2 : List.IsChain (next · = ·) (f :: l₂ ++ [a]) := by
        apply h.infix
        exact ⟨a :: l₁, [], by simp⟩
      have := List.isChain_split.mpr ⟨h2, h1⟩
      simpa using this
    · have : (f :: l₂ ++ a :: l₁).Perm (a :: l₁ ++ f :: l₂) := List.perm_append_comm
      simpa using this

theorem next_getLast (h : List.IsChain (next · = ·) (prev :: l ++ [x])) :
    next ((prev :: l).getLast (List.cons_ne_nil _ _)) = x := by
  have := (List.isChain_append.mp h).2.2
  exact this _ (List.getLast?_eq_getLast_of_ne_nil (List.cons_ne_nil _ _) ▸ rfl) _ rfl

/-- Once around: the loop stops, and where it has started only if it would stop at no other node. -/
theorem Cycle.walk (h : Cycle next f l) (stop : α → Bool) (n : Nat) (hf : stop f = true) (hnot : f ∉ l) (hn : l.length < n) :
    ∃ y x, Lib.walk next stop n f (next f) = some (y, x) ∧ y ∈ f :: l ∧ next y = x ∧ x ∈ f :: l ∧ stop x = true ∧
      (x = f → ∀ z ∈ l, stop z = false) := by
  cases hfind : l.find? stop with
  | none =>
    have hl : ∀ z ∈ l, stop z = false := by simpa using hfind
    exact ⟨_, f, walk_chain h hl hf hn, List.getLast_mem _, next_getLast h, List.mem_cons_self .., hf, fun _ => hl⟩
  | some x =>
    obtain ⟨hx, l₁, l₂, rfl, hl⟩ := List.find?_eq_some_iff_append.mp hfind
    have hl : ∀ z ∈ l₁, stop z = false := by simpa using hl
    have hchain : List.IsChain (next · = ·) (f :: l₁ ++ [x]) := by
      apply h.infix
      exact ⟨[], l₂ ++ [f], by simp⟩
    have hmem : x ∈ l₁ ++ x :: l₂ := List.mem_append_right _ (List.mem_cons_self ..)
    refine ⟨_, x, walk_chain hchain hl hx (by simp only [List.length_append] at hn; omega), ?_, next_getLast hchain,
      List.mem_cons_of_mem _ hmem, hx, ?_⟩
    · have hlast : (f :: l₁).getLast (List.cons_ne_nil _ _) ∈ f :: l₁ := List.getLast_mem _
      have hsub : f :: l₁ ⊆ f :: (l₁ ++ x :: l₂) := List.cons_subset_cons _ (List.subset_append_left ..)
      exact hsub hlast
    · intro e
      exact absurd (e ▸ hmem) hnot

/-- A loop that starts at a node and has one node to stop at stops there. -/
theorem Cycle.walk_to (h : Cycle next a l) (prev : α) (hf : f ∈ a :: l) (hx : x ∈ a :: l)
    (hstop : ∀ z ∈ a :: l, stop z = true ↔ z = x)
    (hn : l.length + 1 < n) : ∃ y, Lib.walk next stop n prev f = some (y, x) := by
  obtain ⟨m, hm, hperm⟩ := h.rotate hf
  obtain ⟨n, rfl⟩ := Nat.exists_eq_add_one.mpr (Nat.zero_lt_of_lt hn)
  rw [Lib.walk]
  by_cases hfx : stop f = true
  · rw [if_pos hfx, (hstop f hf).mp hfx]
    exact ⟨prev, rfl⟩
  · rw [if_neg hfx]
    have hxm : x ∈ m := by
      have := hperm.mem_iff.mpr hx
      rw [List.mem_cons] at this
      exact this.resolve_left fun e => hfx ((hstop f hf).mpr e.symm)
    have hsx : stop x = true := (hstop x hx).mpr rfl
    obtain ⟨z, hz⟩ : ∃ z, m.find? stop = some z := by
      cases hfind : m.find? stop with
      | some z => exact ⟨z, rfl⟩
      | none =>
        have := List.find?_eq_none.mp hfind x hxm
        exact absurd hsx this
    have hzx : z = x := by
      have hmem : z ∈ a :: l := hperm.mem_iff.mp (List.mem_cons_of_mem _ (List.mem_of_find?_eq_some hz))
      exact (hstop z hmem).mp (List.find?_some hz)
    obtain ⟨-, m₁, m₂, rfl, hm₁⟩ := List.find?_eq_some_iff_append.mp hz
    have hchain : List.IsChain (next · = ·) (f :: m₁ ++ [x]) := by
      apply hm.infix
      exact ⟨[], m₂ ++ [f], by simp [hzx]⟩
    have hlen := hperm.length_eq
    simp only [List.length_cons, List.length_append] at hlen
    exact ⟨_, walk_chain hchain (by simpa using hm₁) hsx (by omega)⟩

end Xv6.Lib
