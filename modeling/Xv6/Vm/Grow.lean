/-
  Xv6.Vm.Grow — `growproc` and what it reports.

  Growth ends for want of memory before it gets to the trapframe.
-/

import Xv6.Vm.Pages

namespace Xv6.Vm

open Lib (Wp wp_bind wp_ite wp_get wp_modify)

variable {E : Panic → Prop} {s s' t : Mem} {root a b k n p : Nat} {f : Nat → Nat} {c : Nat → Page}

/-! ## uvmdealloc -/

def pagesOf (sz : Nat) : Nat := PGROUNDUP sz / PGSIZE

theorem PGROUNDUP_eq (sz : Nat) : PGROUNDUP sz = pagesOf sz * PGSIZE := by
  rw [pagesOf, PGROUNDUP, Nat.mul_div_cancel _ (by decide)]

theorem wp_uvmdealloc {oldsz newsz : Nat} (h : Pages s root (pagesOf oldsz)) (hlt : newsz < oldsz)
    (hle : pagesOf newsz ≤ pagesOf oldsz) :
    Wp E (uvmdealloc root oldsz newsz) s fun r s' => r = newsz ∧ Shrunk root (pagesOf newsz) (pagesOf oldsz) s s' := by
  unfold uvmdealloc
  rw [if_neg (Nat.not_le.mpr hlt)]
  refine wp_ite (fun hdown => ?_) fun hdown => ?_
  · have hnp : ofInt ((PGROUNDUP oldsz - PGROUNDUP newsz) / PGSIZE) = pagesOf oldsz - pagesOf newsz := by
      have := h.lt
      rw [PGROUNDUP_eq, PGROUNDUP_eq, ← Nat.sub_mul, Nat.mul_div_cancel _ (by decide), ofInt]
      simp only [TRAPFRAME, TRAMPOLINE, MAXVA, PGSIZE] at this
      rw [Nat.mod_eq_of_lt (by omega), if_pos (by omega)]
    have hmax : pagesOf newsz + (pagesOf oldsz - pagesOf newsz) ≤ MAXVA / PGSIZE := by
      have := h.bounds
      omega
    rw [hnp, PGROUNDUP_eq newsz]
    simp only [wp_bind]
    refine (wp_uvmunmap h.tables hmax (fun n _ h2 => h.leaf n (by omega)) fun p hp => ?_).mono fun _ s' he =>
      ⟨rfl, h.shrunk hle he⟩
    obtain ⟨_, n, _, h2, rfl⟩ := mem_freed.mp hp
    exact ⟨h.owns n (by omega), h.untabled n (by omega)⟩
  · have heq : pagesOf newsz = pagesOf oldsz := by
      rw [PGROUNDUP_eq, PGROUNDUP_eq] at hdown
      have := Nat.le_of_mul_le_mul_right (Nat.not_lt.mp hdown) (by decide : 0 < PGSIZE)
      omega
    refine ⟨rfl, h.shrunk hle ?_⟩
    rw [heq, Nat.sub_self, freed_zero, within_zero]
    exact .same h.tables rfl rfl rfl

/-! ## uvmalloc -/

theorem flags_ne_valid (xperm : Nat) : PTE_R ||| PTE_U ||| xperm ||| PTE_V ≠ PTE_V := fun e => by
  have hbit := congrArg (Nat.testBit · 1) e
  rw [Nat.or_assoc, Nat.or_assoc, Nat.testBit_or, show PTE_R.testBit 1 = true by decide, Bool.true_or] at hbit
  exact absurd hbit (by decide)

theorem pagesOf_mul (h : a < TRAPFRAME / PGSIZE) : pagesOf (a * PGSIZE) = a := by
  simp only [pagesOf, PGROUNDUP, TRAPFRAME, TRAMPOLINE, MAXVA, PGSIZE] at *
  omega

/-- The number of pages, of a size that need not be a `uint64` when it is rounded up. -/
def pagesUp (sz : Nat) : Nat := (sz + (PGSIZE - 1)) / PGSIZE

theorem pagesOf_eq_up {sz : Nat} (h : pagesUp sz < TRAPFRAME / PGSIZE) : pagesOf sz = pagesUp sz := by
  simp only [pagesOf, pagesUp, PGROUNDUP, TRAPFRAME, TRAMPOLINE, MAXVA, PGSIZE] at *
  omega

theorem pagesOf_le_up (sz : Nat) : pagesOf sz ≤ pagesUp sz := by
  simp only [pagesOf, pagesUp, PGROUNDUP, PGSIZE]
  omega

theorem pagesUp_mono {sz sz' : Nat} (h : sz ≤ sz') : pagesUp sz ≤ pagesUp sz' := by
  simp only [pagesUp, PGSIZE]
  omega

theorem wp_undo {s0 : Mem} (h : Added root b a f c s0 s) :
    Wp E (uvmdealloc root (a * PGSIZE) (b * PGSIZE)) s fun _ s' => Added root b b f c s0 s' := by
  have hlt := h.pages.lt
  have hle := h.le
  have ha := pagesOf_mul hlt
  have hb : pagesOf (b * PGSIZE) = b := pagesOf_mul (by omega)
  rcases Nat.eq_or_lt_of_le hle with rfl | hba
  · rw [uvmdealloc, if_pos (Nat.le_refl _)]
    exact h
  · have hw : Wp E (uvmdealloc root (a * PGSIZE) (b * PGSIZE)) s _ :=
      wp_uvmdealloc (by rw [ha]; exact h.pages) (Nat.mul_lt_mul_of_pos_right hba (by decide)) (by rw [ha, hb]; exact hle)
    refine hw.mono fun r s' ⟨_, hs⟩ => ?_
    rw [ha, hb] at hs
    exact h.undo hs

/-- The flags of the pages that `uvmalloc` makes. -/
def userFlags (xperm : Nat) : Nat := PTE_R ||| PTE_U ||| xperm ||| PTE_V

theorem wp_uvmallocFrom {s0 : Mem} {newsz xperm rounds : Nat} (hperm : xperm < 1024)
    (h : Added root b a (fun _ => userFlags xperm) (fun _ _ => 0) s0 s) (hle : a ≤ pagesUp newsz)
    (hrounds : pagesUp newsz ≤ a + rounds) :
    Wp E (uvmallocFrom root (b * PGSIZE) newsz xperm rounds (a * PGSIZE)) s fun r s' =>
      r = newsz ∧ Added root b (pagesUp newsz) (fun _ => userFlags xperm) (fun _ _ => 0) s0 s' ∨
        r = 0 ∧ Added root b b (fun _ => userFlags xperm) (fun _ _ => 0) s0 s' := by
  induction rounds generalizing s a with
  | zero =>
    have : a = pagesUp newsz := by omega
    exact .inl ⟨rfl, this ▸ h⟩
  | succ rounds ih =>
    have hsmall := h.pages.lt
    have hf : PTE_R ||| PTE_U ||| xperm < 1024 := Nat.or_lt_two_pow (n := 10) (by decide) hperm
    rw [uvmallocFrom]
    refine wp_ite (fun hlt => ?_) fun hge => ?_
    · have hnext : (a * PGSIZE + PGSIZE) % 2 ^ 64 = (a + 1) * PGSIZE := by
        simp only [TRAPFRAME, TRAMPOLINE, MAXVA, PGSIZE] at *
        omega
      have hle' : a + 1 ≤ pagesUp newsz := by
        simp only [pagesUp, PGSIZE] at *
        omega
      simp only [wp_bind]
      refine wp_kalloc.mono fun r s1 hr => ?_
      rcases hr with ⟨rfl, h1, h2, h3⟩ | ⟨p, rfl, hfree, hpage, hk⟩
      · simp only [wp_bind]
        exact (wp_undo (h.trans (.same h.pages h1 h2 h3))).mono fun _ s' hs => .inr ⟨rfl, hs⟩
      · simp only [wp_bind, wp_setPage]
        set s2 : Mem := Mem.mk (Function.update s1.page p fun _ => 0) s1.free s1.kend s1.deny with hs2
        have htook : TookPage p (fun _ => 0) s s2 := ⟨hfree, by rw [hs2]; dsimp only; rw [hpage, Function.update_idem], hk⟩
        refine (wp_mapPage hf (flags_ne_valid xperm) h.pages htook).mono fun r s3 hr => ?_
        rcases hr with ⟨rfl, hg⟩ | ⟨hr, hb⟩
        · rw [if_neg (not_not.mpr rfl), hnext]
          exact ih (h.trans hg) hle' (by omega)
        · rw [if_pos hr]
          have howns : s3.Owns p := by
            rw [Mem.Owns, hb.kend, htook.kend]
            exact h.pages.ok.owns p htook.mem
          simp only [wp_bind]
          refine (wp_kfree howns).mono fun _ s4 ⟨h1, h2, h3⟩ => ?_
          exact (wp_undo (h.trans (htook.returned h.pages hb h1 h2 h3))).mono fun _ s' hs => .inr ⟨rfl, hs⟩
    · have hsize : pagesUp newsz = a := by
        simp only [pagesUp, PGSIZE] at *
        omega
      rw [hsize]
      exact .inl ⟨rfl, h⟩

section

variable {oldsz newsz xperm : Nat} (hperm : xperm < 1024) (h : Pages s root (pagesOf oldsz)) (hle : oldsz ≤ newsz)
include hperm h hle

theorem wp_uvmalloc : Wp E (uvmalloc root oldsz newsz xperm) s fun r s' =>
      r = newsz ∧ newsz ≤ TRAPFRAME ∧ Added root (pagesOf oldsz) (pagesOf newsz) (fun _ => userFlags xperm) (fun _ _ => 0) s s' ∨
        r = 0 ∧ Added root (pagesOf oldsz) (pagesOf oldsz) (fun _ => userFlags xperm) (fun _ _ => 0) s s' := by
  rw [uvmalloc, if_neg (Nat.not_lt.mpr hle), PGROUNDUP_eq]
  refine (wp_uvmallocFrom hperm (.refl h) ((pagesOf_le_up oldsz).trans (pagesUp_mono hle)) ?_).mono fun r s' hr => ?_
  · simp only [pagesUp, PGSIZE]
    omega
  · rcases hr with ⟨rfl, hg⟩ | hr
    · have hlt := hg.pages.lt
      refine .inl ⟨rfl, ?_, by rw [pagesOf_eq_up hlt]; exact hg⟩
      simp only [pagesUp, TRAPFRAME, TRAMPOLINE, MAXVA, PGSIZE] at *
      omega
    · exact .inr hr

end

/-! ## growproc -/

/-- The user memory of a process of size `sz`. -/
structure Space (s : Mem) (root sz : Nat) : Prop where
  pages : Pages s root (pagesOf sz)
  size : sz ≤ TRAPFRAME

theorem le_pagesOf {sz : Nat} (h : sz ≤ TRAPFRAME) : sz ≤ pagesOf sz * PGSIZE := by
  simp only [pagesOf, PGROUNDUP, TRAPFRAME, TRAMPOLINE, MAXVA, PGSIZE] at *
  omega

theorem Space.lt {sz : Nat} (h : Space s root sz) : sz < 2 ^ 32 := by
  have hle := h.pages.le
  have hsz := le_pagesOf h.size
  have hs : PHYSTOP / PGSIZE = 557056 := by decide
  simp only [PGSIZE] at *
  omega

/-- What a caller of `growproc` may conclude from what it returns. -/
structure Reports (s s' : Mem) (root sz : Nat) (n r : Int) (sz' : Nat) : Prop where
  ret : r = 0 ∨ r = -1
  size : r = 0 → (sz' : Int) = sz + n
  kept : r = 0 → ∀ k, k < pagesOf sz → k < pagesOf sz' → mapping s'.page root k = mapping s.page root k ∧
    ∀ p f, mapping s.page root k = some (p, f) → s'.page p = s.page p
  zero : r = 0 → ∀ k, pagesOf sz ≤ k → k < pagesOf sz' → ∃ p f, mapping s'.page root k = some (p, f) ∧ s'.page p = fun _ => 0
  unmapped : r = 0 → ∀ k, pagesOf sz' ≤ k → k < TRAPFRAME / PGSIZE → mapping s'.page root k = none ∧
    ∀ p f, mapping s.page root k = some (p, f) → p ∈ s'.free
  failed : r = -1 → sz' = sz ∧ mapping s'.page root = mapping s.page root ∧
    ∀ k < pagesOf sz, ∀ p f, mapping s.page root k = some (p, f) → s'.page p = s.page p
  space : Space s' root sz'

theorem Pages.mapping_eq (h : Pages s root k) (hn : n < k) :
    mapping s.page root n = some (ppn (entry s.page root n), PTE_FLAGS (entry s.page root n)) := by
  have hlt := h.bounds
  rw [mapping_of_lt (by omega)]
  exact decode_eq_some.mpr ⟨(h.leaf n hn).1, rfl, rfl⟩

theorem Pages.mapping_none (h : Pages s root k) (h1 : k ≤ n) (h2 : n < TRAPFRAME / PGSIZE) : mapping s.page root n = none := by
  have hmax := h.bounds
  rw [mapping_of_lt (by omega)]
  exact decode_eq_none.mpr (h.above n h1 h2)

theorem Added.mapping_eq (h : Added root a b f c s s') (hs : Pages s root a) (hout : n < a ∨ b ≤ n) :
    mapping s'.page root n = mapping s.page root n := by
  have hlt := hs.lt
  have hle := h.le
  by_cases hn : n < MAXVA / PGSIZE
  · by_cases hin : n < a ∨ TRAPFRAME / PGSIZE ≤ n
    · rw [mapping_of_lt hn, mapping_of_lt hn, h.entries n hn hin]
    · rw [h.pages.mapping_none (by omega) (by omega), hs.mapping_none (by omega) (by omega)]
  · rw [mapping_of_ge hn, mapping_of_ge hn]

theorem Added.kept (h : Added root a b f c s s') (hs : Pages s root a) (hn : n < a) {p g : Nat}
    (hm : mapping s.page root n = some (p, g)) :
    s'.page p = s.page p := by
  rw [hs.mapping_eq hn, Option.some.injEq, Prod.mk.injEq] at hm
  rw [← hm.1]
  exact h.others _ (hs.unfree n hn) (hs.untabled n hn)

theorem Added.reports {sz sz' : Nat} {n : Int} (h : Added root (pagesOf sz) (pagesOf sz') f (fun _ _ => 0) s s')
    (hs : Space s root sz) (hsz : (sz' : Int) = sz + n) (hle : sz' ≤ TRAPFRAME) : Reports s s' root sz n 0 sz' where
  ret := .inl rfl
  size _ := hsz
  kept _ k h1 _ := ⟨h.mapping_eq hs.pages (.inl h1), fun _ _ hm => h.kept hs.pages h1 hm⟩
  zero _ k h1 h2 := ⟨_, _, h.pages.mapping_eq h2, h.content k h1 h2⟩
  unmapped _ k h1 h2 := by
    refine ⟨h.pages.mapping_none h1 h2, fun p f hm => ?_⟩
    rw [hs.pages.mapping_none (Nat.le_trans h.le h1) h2] at hm
    cases hm
  failed e := absurd e (by decide)
  space := ⟨h.pages, hle⟩

theorem Added.reports_failed {sz : Nat} {n : Int} (h : Added root (pagesOf sz) (pagesOf sz) f c s s') (hs : Space s root sz) :
    Reports s s' root sz n (-1) sz where
  ret := .inr rfl
  size e := absurd e (by decide)
  kept e := absurd e (by decide)
  zero e := absurd e (by decide)
  unmapped e := absurd e (by decide)
  failed _ := ⟨rfl, funext fun k => h.mapping_eq hs.pages (Nat.lt_or_ge ..), fun _ hk _ _ hm => h.kept hs.pages hk hm⟩
  space := ⟨h.pages, hs.size⟩

theorem Shrunk.reports {sz sz' : Nat} {n : Int} (h : Shrunk root (pagesOf sz') (pagesOf sz) s s') (hs : Space s root sz)
    (hle : pagesOf sz' ≤ pagesOf sz) (hsz : (sz' : Int) = sz + n) (hsize : sz' ≤ TRAPFRAME) : Reports s s' root sz n 0 sz' where
  ret := .inl rfl
  size _ := hsz
  kept _ k h1 h2 := by
    have hlt := hs.pages.bounds
    refine ⟨?_, fun p f hm => ?_⟩
    · rw [mapping_of_lt (by omega), mapping_of_lt (by omega), h.entries k (by omega), within, if_neg (by omega)]
    · rw [hs.pages.mapping_eq h1, Option.some.injEq, Prod.mk.injEq] at hm
      rw [← hm.1]
      refine h.others _ (hs.pages.untabled k h1) fun n' h1' h2' e => ?_
      have := hs.pages.inj n' h2' k h1 e
      omega
  zero _ k h1 h2 := absurd (Nat.lt_of_lt_of_le h2 hle) (Nat.not_lt.mpr h1)
  unmapped _ k h1 h2 := by
    refine ⟨h.pages.mapping_none h1 h2, fun p f hm => ?_⟩
    by_cases hk : k < pagesOf sz
    · rw [hs.pages.mapping_eq hk, Option.some.injEq, Prod.mk.injEq] at hm
      exact (h.free p).mpr (.inr ⟨k, h1, hk, hm.1⟩)
    · rw [hs.pages.mapping_none (Nat.le_of_not_lt hk) h2] at hm
      cases hm
  failed e := absurd e (by decide)
  space := ⟨h.pages, hsize⟩

theorem pagesOf_mono {sz sz' : Nat} (h : sz ≤ sz') (hsz : sz' + PGSIZE < 2 ^ 64) : pagesOf sz ≤ pagesOf sz' := by
  simp only [pagesOf, PGROUNDUP, PGSIZE] at *
  omega

theorem Pages.size {sz : Nat} (h : Pages s root (pagesOf sz)) (hsz : sz + PGSIZE < 2 ^ 64) : sz ≤ TRAPFRAME := by
  have := h.lt
  simp only [pagesOf, PGROUNDUP, TRAPFRAME, TRAMPOLINE, MAXVA, PGSIZE] at *
  omega

theorem wp_growproc {sz : Nat} {n : Int} (h : Space s root sz) (hmax : n < 2 ^ 31) (hpos : 0 ≤ (sz : Int) + n) :
    Wp E (growproc root sz n) s fun r s' => Reports s s' root sz n r.1 r.2 := by
  have hlt := h.lt
  have hadd : (addInt sz n : Int) = sz + n := by
    rw [addInt]
    omega
  have hbound : addInt sz n + PGSIZE < 2 ^ 64 := by
    simp only [PGSIZE]
    omega
  unfold growproc
  refine wp_ite (fun hn => ?_) fun hn => wp_ite (fun hn' => ?_) fun hn' => ?_
  · simp only [wp_bind]
    refine (wp_uvmalloc (by decide) h.pages (by omega)).mono fun r s' hr => ?_
    rcases hr with ⟨rfl, -, hg⟩ | ⟨rfl, hg⟩
    · rw [if_neg (by omega)]
      exact hg.reports h hadd (hg.pages.size hbound)
    · rw [if_pos rfl]
      exact hg.reports_failed h
  · have hle : pagesOf (addInt sz n) ≤ pagesOf sz := pagesOf_mono (by omega) (by simp only [PGSIZE]; omega)
    simp only [wp_bind]
    refine (wp_uvmdealloc h.pages (by omega) hle).mono fun r s' ⟨hr, hs⟩ => ?_
    subst hr
    exact hs.reports h hle hadd (hs.pages.size hbound)
  · exact (Added.refl (f := fun _ => 0) h.pages).reports h (by omega) h.size

/-- The new size would be negative: nothing happens, and `growproc` returns 0. -/
theorem growproc_negative {sz : Nat} {n : Int} (h : Space s root sz) (hmin : -2 ^ 31 ≤ n) (hneg : (sz : Int) + n < 0) :
    growproc root sz n s = .ok ((0, sz), s) := by
  have hlt := h.lt
  have hwrap : sz ≤ addInt sz n := by
    rw [addInt]
    omega
  rw [growproc, if_neg (by omega), if_pos (by omega), uvmdealloc, if_pos hwrap]
  rfl

/-- `growproc` returns, and what it reports is so iff the new size is not negative. -/
theorem growproc_reports {sz : Nat} {n : Int} (h : Space s root sz) (hmin : -2 ^ 31 ≤ n) (hmax : n < 2 ^ 31) :
    ∃ r sz' s', growproc root sz n s = .ok ((r, sz'), s') ∧ (Reports s s' root sz n r sz' ↔ 0 ≤ (sz : Int) + n) := by
  by_cases hpos : 0 ≤ (sz : Int) + n
  · obtain ⟨⟨r, sz'⟩, s', hrun, hr⟩ := (wp_growproc (E := fun _ => False) h hmax hpos).returns
    exact ⟨r, sz', s', hrun, iff_of_true hr hpos⟩
  · refine ⟨0, sz, s, growproc_negative h hmin (by omega), iff_of_false (fun hr => ?_) hpos⟩
    have := hr.size rfl
    omega

/-! ## Enough memory -/

/-- The next `m` calls of `kalloc` succeed. -/
def Room (m : Nat) (s : Mem) : Prop := m ≤ s.free.length ∧ ∀ n, s.deny n = false

theorem wp_kalloc_room (h : Room (n + 1) s) : Wp E kalloc s fun r s' => (∃ p, r = some p) ∧ Room n s' := by
  simp only [kalloc, wp_bind, wp_get, wp_modify, h.2, Bool.false_eq_true, if_false]
  have hle := h.1
  cases hfree : s.free with
  | nil =>
    rw [hfree] at hle
    cases hle
  | cons p l =>
    rw [hfree] at hle
    exact ⟨⟨p, rfl⟩, Nat.le_of_succ_le_succ hle, fun _ => rfl⟩

theorem wp_walkFrom_room {level va : Nat} (h : Room (n + level) s) :
    Wp E (walkFrom va true level p) s fun r s' => (∃ x, r = some x) ∧ Room n s' := by
  induction level generalizing s p with
  | zero => exact ⟨⟨_, rfl⟩, h⟩
  | succ level ih =>
    simp only [walkFrom, wp_bind, wp_pte]
    refine wp_ite (fun _ => ih ⟨Nat.le_of_succ_le h.1, h.2⟩) fun _ => ?_
    simp only [if_true, wp_bind]
    refine (wp_kalloc_room h).mono fun r s' h' => ?_
    obtain ⟨⟨q, rfl⟩, h'⟩ := h'
    simp only [wp_bind, wp_setPage, wp_setPte]
    exact ih h'

/-- A page takes three at most, two of them for tables. -/
theorem wp_uvmallocFrom_room {newsz xperm rounds : Nat} (h : Room (n + 3 * rounds) s) :
    Wp (fun _ => True) (uvmallocFrom root b newsz xperm rounds a) s fun r s' => r = newsz ∧ Room n s' := by
  induction rounds generalizing s a with
  | zero => exact ⟨rfl, h⟩
  | succ rounds ih =>
    simp only [uvmallocFrom]
    refine wp_ite (fun _ => ?_) fun _ => ⟨rfl, Nat.le_trans (Nat.le_add_right ..) h.1, h.2⟩
    simp only [wp_bind]
    refine (wp_kalloc_room (n := n + 3 * rounds + 2) h).mono fun r s1 h1 => ?_
    obtain ⟨⟨q, rfl⟩, h1⟩ := h1
    simp only [mappages, Nat.div_self (show 0 < PGSIZE by decide), mappagesFrom, walk, wp_bind, wp_setPage]
    refine wp_ite (fun _ => trivial) fun _ => wp_ite (fun _ => trivial) fun _ => wp_ite (fun _ => trivial) fun _ => ?_
    simp only [wp_bind]
    refine wp_ite (fun _ => trivial) fun _ => ?_
    have h1 : Room (n + 3 * rounds + 2) { s1 with page := Function.update s1.page q fun _ => 0 } := h1
    refine (wp_walkFrom_room h1).mono fun r s2 h2 => ?_
    obtain ⟨⟨x, rfl⟩, h2⟩ := h2
    simp only [wp_bind, wp_pte]
    refine wp_ite (fun _ => trivial) fun _ => ?_
    exact wp_ite (fun _ => ih h2) fun _ => ih h2

/-! ## Small processes -/

theorem IsPageTable.space (h : IsPageTable s root) (hp : s.page root = fun _ => 0) : Space s root 0 := by
  refine ⟨⟨h.ok, h.tables, ?_, ?_, ?_, ?_, ?_, fun n _ _ => by rw [entry_empty hp, Nat.zero_and]⟩, Nat.zero_le _⟩
  all_goals exact fun n hn => absurd hn (Nat.not_lt_zero n)

theorem tiny_space : Space tiny tinyRoot 0 := tiny_isPageTable.space rfl

theorem growproc_reports_tiny : ∃ r sz' s', growproc tinyRoot 0 4096 tiny = .ok ((r, sz'), s') ∧
    (Reports tiny s' tinyRoot 0 4096 r sz' ↔ 0 ≤ ((0 : Nat) : Int) + 4096) := growproc_reports tiny_space (by decide) (by decide)

/-- A process of one page. -/
def tinyGrown : Mem := match growproc tinyRoot 0 4096 tiny with
  | .ok (_, s') => s'
  | .error _ => tiny

theorem tinyGrown_space : Space tinyGrown tinyRoot 4096 := by
  obtain ⟨⟨r, sz'⟩, s', hrun, hr⟩ := (wp_growproc (E := fun _ => False) tiny_space (n := 4096) (by decide) (by decide)).returns
  have hret : (match growproc tinyRoot 0 4096 tiny with | .ok (r, _) => r | .error _ => (1, 0)) = (0, 4096) := by decide +kernel
  rw [hrun] at hret
  cases hret
  rw [tinyGrown, hrun]
  exact hr.space

/-- A process of one page that gives back two: `growproc` returns 0, and the size is the same. -/
theorem growproc_below_zero : Space tinyGrown tinyRoot 4096 ∧
    growproc tinyRoot 4096 (-8192) tinyGrown = .ok ((0, 4096), tinyGrown) ∧
    ¬ Reports tinyGrown tinyGrown tinyRoot 4096 (-8192) 0 4096 :=
  ⟨tinyGrown_space, growproc_negative tinyGrown_space (by decide) (by decide), fun h => absurd (h.size rfl) (by decide)⟩

end Xv6.Vm
