/-
  Xv6.Vm.Pages — user memory, and whose pages are whose.

  `Pages k`: user memory is the pages below `k`, at distinct physical pages that are neither free
  nor tables, and nothing is mapped above up to the trapframe. There are fewer physical pages than
  page numbers below the trapframe.
-/

import Xv6.Vm.PageMap
import Mathlib.Data.Finset.Card

namespace Xv6.Vm

variable {E : Panic → Prop} {s s' t : Mem} {root a b k n p : Nat} {f : Nat → Nat} {c : Nat → Page} {g : Page}

/-- User memory is `k` pages. -/
structure Pages (s : Mem) (root k : Nat) : Prop where
  ok : s.Ok
  tables : Tables s root
  leaf : ∀ n < k, IsLeaf (entry s.page root n)
  owns : ∀ n < k, s.Owns (ppn (entry s.page root n))
  unfree : ∀ n < k, ppn (entry s.page root n) ∉ s.free
  untabled : ∀ n < k, ¬ IsTable s.page root (ppn (entry s.page root n))
  inj : ∀ n < k, ∀ n' < k, ppn (entry s.page root n) = ppn (entry s.page root n') → n = n'
  above : ∀ n, k ≤ n → n < TRAPFRAME / PGSIZE → entry s.page root n &&& PTE_V = 0

theorem Pages.le (h : Pages s root k) : k ≤ PHYSTOP / PGSIZE := by
  have hlt : ∀ n ∈ Finset.range k, ppn (entry s.page root n) ∈ Finset.range (PHYSTOP / PGSIZE) := fun n hn => by
    have hp := Nat.div_lt_div_of_lt_of_dvd (by decide : PGSIZE ∣ PHYSTOP) (h.owns n (Finset.mem_range.mp hn)).2
    rw [Nat.mul_div_cancel _ (by decide)] at hp
    exact Finset.mem_range.mpr hp
  have hinj : Set.InjOn (fun n => ppn (entry s.page root n)) (Finset.range k) := fun n hn n' hn' e =>
    h.inj n (Finset.mem_range.mp hn) n' (Finset.mem_range.mp hn') e
  have := Finset.card_le_card_of_injOn _ hlt hinj
  rwa [Finset.card_range, Finset.card_range] at this

theorem Pages.lt (h : Pages s root k) : k < TRAPFRAME / PGSIZE := Nat.lt_of_le_of_lt h.le (by decide)

theorem Pages.bounds (h : Pages s root k) : k < TRAPFRAME / PGSIZE ∧ TRAPFRAME / PGSIZE < MAXVA / PGSIZE := ⟨h.lt, by decide⟩

/-! ## Whose pages -/

/-- The page is a table, or one of the `k` pages of the user. -/
def Owned (m : Nat → Page) (root k p : Nat) : Prop := IsTable m root p ∨ ∃ n < k, ppn (entry m root n) = p

theorem Pages.owned_unfree (h : Pages s root k) (hp : Owned s.page root k p) : p ∉ s.free := by
  rcases hp with hp | ⟨n, hn, rfl⟩
  · exact h.tables.used p hp
  · exact h.unfree n hn

theorem Pages.kept (h : Pages s root k) (hok : s'.Ok) (hk : s'.kend = s.kend)
    (hsame : ∀ p, Owned s.page root k p → s'.page p = s.page p)
    (hun : ∀ p, Owned s.page root k p → p ∉ s'.free) : Pages s' root k := by
  have htab : ∀ p, IsTable s.page root p → s'.page p = s.page p := fun p hp => hsame p (.inl hp)
  have he : ∀ n, entry s'.page root n = entry s.page root n := fun n => entry_frame htab
  refine ⟨hok, h.tables.frame htab hk fun p hp => hun p (.inl hp), ?_, ?_, ?_, ?_, ?_, ?_⟩
  · simp only [he]
    exact h.leaf
  · simp only [he, Mem.Owns, hk]
    exact h.owns
  · simp only [he]
    exact fun n hn => hun _ (.inr ⟨n, hn, rfl⟩)
  · simp only [he, isTable_frame htab]
    exact h.untabled
  · simp only [he]
    exact h.inj
  · simp only [he]
    exact h.above

/-! ## More pages -/

theorem Pages.grow (h : Pages s root a) (hb : a ≤ b ∧ b ≤ a + 1) (hok : s'.Ok) (ht : Tables s' root) (hk : s'.kend = s.kend)
    (hent : ∀ n < TRAPFRAME / PGSIZE, ¬ (a ≤ n ∧ n < b) → entry s'.page root n = entry s.page root n)
    (hold : ∀ n < a, ppn (entry s.page root n) ∉ s'.free ∧ ¬ IsTable s'.page root (ppn (entry s.page root n)))
    (hnew : ∀ n, a ≤ n → n < b → IsLeaf (entry s'.page root n) ∧ s'.Owns (ppn (entry s'.page root n)) ∧
      ppn (entry s'.page root n) ∉ s'.free ∧ ¬ IsTable s'.page root (ppn (entry s'.page root n)) ∧
      ∀ n' < a, ppn (entry s.page root n') ≠ ppn (entry s'.page root n)) : Pages s' root b := by
  have hlt := h.lt
  have hsame : ∀ n < a, entry s'.page root n = entry s.page root n := fun n hn => hent n (by omega) (by omega)
  refine ⟨hok, ht, fun n hn => ?leaf, fun n hn => ?owns, fun n hn => ?unfree, fun n hn => ?untabled, fun n hn n' hn' e => ?inj,
    fun n h1 h2 => ?above⟩
  case leaf =>
    by_cases hna : n < a
    · rw [hsame n hna]
      exact h.leaf n hna
    · exact (hnew n (by omega) hn).1
  case owns =>
    by_cases hna : n < a
    · rw [hsame n hna, Mem.Owns, hk]
      exact h.owns n hna
    · exact (hnew n (by omega) hn).2.1
  case unfree =>
    by_cases hna : n < a
    · rw [hsame n hna]
      exact (hold n hna).1
    · exact (hnew n (by omega) hn).2.2.1
  case untabled =>
    by_cases hna : n < a
    · rw [hsame n hna]
      exact (hold n hna).2
    · exact (hnew n (by omega) hn).2.2.2.1
  case inj =>
    by_cases hna : n < a <;> by_cases hna' : n' < a
    · rw [hsame n hna, hsame n' hna'] at e
      exact h.inj n hna n' hna' e
    · rw [hsame n hna] at e
      exact absurd e ((hnew n' (by omega) hn').2.2.2.2 n hna)
    · rw [hsame n' hna'] at e
      exact absurd e.symm ((hnew n (by omega) hn).2.2.2.2 n' hna')
    · omega
  case above =>
    rw [hent n (by omega) (by omega)]
    exact h.above n (by omega) h2

/-- User memory has got the pages from `a` to `b`, with flags `f` and contents `c`; they come from the free list, as do the
    tables that are new. -/
structure Added (root a b : Nat) (f : Nat → Nat) (c : Nat → Page) (s s' : Mem) : Prop where
  pages : Pages s' root b
  le : a ≤ b
  entries : ∀ n < MAXVA / PGSIZE, n < a ∨ TRAPFRAME / PGSIZE ≤ n → entry s'.page root n = entry s.page root n
  fresh : ∀ n, a ≤ n → n < b → ppn (entry s'.page root n) ∈ s.free
  flags : ∀ n, a ≤ n → n < b → PTE_FLAGS (entry s'.page root n) = f n
  content : ∀ n, a ≤ n → n < b → s'.page (ppn (entry s'.page root n)) = c n
  others : ∀ p, p ∉ s.free → ¬ IsTable s.page root p → s'.page p = s.page p
  free : ∀ p ∈ s'.free, p ∈ s.free
  used : ∀ p ∈ s.free, p ∈ s'.free ∨ Owned s'.page root b p
  tabled : ∀ p, IsTable s.page root p → IsTable s'.page root p
  newTables : ∀ p, IsTable s'.page root p → IsTable s.page root p ∨ p ∈ s.free
  kend : s'.kend = s.kend

theorem Added.entry_lt (h : Added root a b f c s s') (hs : Pages s root a) (hn : n < a) :
    entry s'.page root n = entry s.page root n := by
  have hlt := hs.bounds
  exact h.entries n (by omega) (.inl hn)

theorem Added.page_lt (h : Added root a b f c s s') (hs : Pages s root a) (hn : n < a) :
    s'.page (ppn (entry s.page root n)) = s.page (ppn (entry s.page root n)) := h.others _ (hs.unfree n hn) (hs.untabled n hn)

theorem Added.refl (h : Pages s root a) : Added root a a f c s s :=
  ⟨h, Nat.le_refl a, fun _ _ _ => rfl, fun _ h1 h2 => absurd h2 (Nat.not_lt.mpr h1), fun _ h1 h2 => absurd h2 (Nat.not_lt.mpr h1),
    fun _ h1 h2 => absurd h2 (Nat.not_lt.mpr h1), fun _ _ _ => rfl, fun _ h => h, fun _ h => .inl h, fun _ h => h,
      fun _ h => .inl h, rfl⟩

theorem Added.trans {d : Nat} (h : Added root a b f c s t) (h' : Added root b d f c t s') : Added root a d f c s s' := by
  have hb := h.pages.lt
  have hd := h'.pages.lt
  have hle := h.le
  have hle' := h'.le
  have hold : ∀ n < b, entry s'.page root n = entry t.page root n := fun n hn => h'.entry_lt h.pages hn
  refine ⟨h'.pages, by omega, fun n hn hout => ?_, fun n h1 h2 => ?_, fun n h1 h2 => ?_, fun n h1 h2 => ?_, fun p hp ht => ?_,
    fun p hp => h.free p (h'.free p hp), fun p hp => ?_, fun p hp => h'.tabled p (h.tabled p hp), fun p hp => ?_,
      h'.kend.trans h.kend⟩
  · rw [h'.entries n hn (by omega), h.entries n hn hout]
  · by_cases hn : n < b
    · rw [hold n hn]
      exact h.fresh n h1 hn
    · exact h.free _ (h'.fresh n (by omega) h2)
  · by_cases hn : n < b
    · rw [hold n hn]
      exact h.flags n h1 hn
    · exact h'.flags n (by omega) h2
  · by_cases hn : n < b
    · rw [hold n hn, h'.page_lt h.pages hn]
      exact h.content n h1 hn
    · exact h'.content n (by omega) h2
  · have ht' : ¬ IsTable t.page root p := fun hc => (h.newTables p hc).elim ht hp
    rw [h'.others p (fun hc => hp (h.free p hc)) ht', h.others p hp ht]
  · rcases h.used p hp with hp | hp | ⟨n, hn, rfl⟩
    · exact h'.used p hp
    · exact .inr (.inl (h'.tabled p hp))
    · exact .inr (.inr ⟨n, by omega, by rw [hold n hn]⟩)
  · rcases h'.newTables p hp with hp | hp
    · exact h.newTables p hp
    · exact .inr (h.free p hp)

/-- The first free page has been taken, and is now `g`. -/
structure TookPage (p : Nat) (g : Page) (s s' : Mem) : Prop where
  free : s.free = p :: s'.free
  page : s'.page = Function.update s.page p g
  kend : s'.kend = s.kend

theorem TookPage.same (h : TookPage p g s s') {q : Nat} (hq : q ∉ s.free) : s'.page q = s.page q := by
  have hne : q ≠ p := fun e => hq (by rw [h.free, e]; exact List.mem_cons_self)
  rw [h.page, Function.update_of_ne hne]

theorem TookPage.mem (h : TookPage p g s s') : p ∈ s.free := by
  rw [h.free]
  exact List.mem_cons_self

theorem TookPage.sub (h : TookPage p g s s') {q : Nat} (hq : q ∈ s'.free) : q ∈ s.free := by
  rw [h.free]
  exact List.mem_cons_of_mem _ hq

section

variable (h : TookPage p g s s') (hs : Pages s root a)
include h hs

theorem TookPage.tables (q : Nat) (hq : IsTable s.page root q) : s'.page q = s.page q := h.same (hs.tables.used q hq)

theorem TookPage.entry_eq (n : Nat) : entry s'.page root n = entry s.page root n := entry_frame (h.tables hs)

theorem TookPage.isTable (q : Nat) : IsTable s'.page root q ↔ IsTable s.page root q := isTable_frame (h.tables hs)

theorem TookPage.apart : s'.Owns p ∧ p ∉ s'.free ∧ ¬ IsTable s'.page root p := by
  have hnd := hs.ok.nodup
  rw [h.free, List.nodup_cons] at hnd
  refine ⟨?_, hnd.1, fun hc => hs.tables.used p ((h.isTable hs p).mp hc) h.mem⟩
  rw [Mem.Owns, h.kend]
  exact hs.ok.owns p h.mem

theorem TookPage.isPageTable : IsPageTable s' root := by
  have hnd := hs.ok.nodup
  rw [h.free, List.nodup_cons] at hnd
  refine ⟨⟨hnd.2, fun q hq => ?_⟩, hs.tables.frame (h.tables hs) h.kend fun q hq hc => hs.tables.used q hq (h.sub hc)⟩
  rw [Mem.Owns, h.kend]
  exact hs.ok.owns q (h.sub hq)

end

theorem Became.sub (h : Became root s s' f) {q : Nat} (hq : q ∈ s'.free) : q ∈ s.free := by
  obtain ⟨l, hl, _⟩ := h.taken
  rw [hl]
  exact List.mem_append_right _ hq

theorem TookPage.became_used {u : Mem} (h : TookPage p g s t) (hb : Became root t u f) {q : Nat} (hq : q ∈ s.free) :
    q = p ∨ q ∈ u.free ∨ IsTable u.page root q := by
  obtain ⟨l, hl, htables⟩ := hb.taken
  rw [h.free, List.mem_cons, hl, List.mem_append] at hq
  rcases hq with hq | hq | hq
  · exact .inl hq
  · exact .inr (.inr ((htables q).mpr (.inr hq)))
  · exact .inr (.inl hq)

section

variable {u : Mem} (h : TookPage p g s t) (hs : Pages s root a) (hb : Became root t u f)
include h hs hb

theorem TookPage.became_newTables {q : Nat} (hq : IsTable u.page root q) : IsTable s.page root q ∨ q ∈ t.free := by
  obtain ⟨l, hl, htables⟩ := hb.taken
  rw [hl]
  exact ((htables q).mp hq).imp (h.isTable hs q).mp (List.mem_append_left _)

theorem TookPage.became_tabled {q : Nat} (hq : IsTable s.page root q) : IsTable u.page root q := by
  obtain ⟨l, _, htables⟩ := hb.taken
  exact (htables q).mpr (.inl ((h.isTable hs q).mpr hq))

theorem TookPage.became_others {q : Nat} (hq : q ∉ s.free) (hqt : ¬ IsTable s.page root q) : u.page q = s.page q := by
  have hqt' : ¬ IsTable u.page root q := fun hc => (h.became_newTables hs hb hc).elim hqt fun hf => hq (h.sub hf)
  rw [hb.others q hqt', h.same hq]

theorem TookPage.became_apart : p ∉ u.free ∧ ¬ IsTable u.page root p := by
  obtain ⟨_, hpfree, _⟩ := h.apart hs
  exact ⟨fun hc => hpfree (hb.sub hc),
    fun hc => (h.became_newTables hs hb hc).elim (fun ht => hs.tables.used p ht h.mem) hpfree⟩

end

theorem TookPage.mapped {perm : Nat} (h : TookPage p g s t) (hs : Pages s root a) (hperm : perm < 1024)
    (hleaf : perm ||| PTE_V ≠ PTE_V)
    (hb : Became root t s' (within a 1 (leaf (p * PGSIZE) perm) (entry t.page root))) :
    Added root a (a + 1) (fun _ => perm ||| PTE_V) (fun _ => g) s s' := by
  obtain ⟨howns, _, _⟩ := h.apart hs
  obtain ⟨hpf, hpt⟩ := h.became_apart hs hb
  have hlt := hs.bounds
  have hent : ∀ n < MAXVA / PGSIZE, ¬ (a ≤ n ∧ n < a + 1) → entry s'.page root n = entry s.page root n := fun n hn hout => by
    rw [hb.entries n hn, within, if_neg hout, h.entry_eq hs]
  -- the entry of the new page
  have hpte : IsPte (entry s'.page root a) p perm := by
    have hp64 : p * PGSIZE < 2 ^ 64 := Nat.lt_trans howns.2 (by decide)
    have hl : IsPte (leaf (p * PGSIZE) perm 0) _ _ := isPte_leaf hperm
    rw [Nat.zero_mul, Nat.add_zero, Nat.mod_eq_of_lt hp64, Nat.mul_div_cancel _ (by decide)] at hl
    rwa [hb.entries a (by omega), within, if_pos ⟨Nat.le_refl a, Nat.lt_succ_self a⟩, Nat.sub_self]
  have hnew : ∀ n, a ≤ n → n < a + 1 → n = a := fun n h1 h2 => by omega
  refine ⟨?pages, Nat.le_succ a, fun n hn hout => hent n hn (by omega), fun n h1 h2 => ?fresh, fun n h1 h2 => ?flags,
    fun n h1 h2 => ?content,
    fun q hq hqt => h.became_others hs hb hq hqt, fun q hq => h.sub (hb.sub hq), fun q hq => ?used,
    fun q hq => h.became_tabled hs hb hq, fun q hq => (h.became_newTables hs hb hq).imp_right h.sub, hb.kend.trans h.kend⟩
  case pages =>
    refine hs.grow ⟨Nat.le_succ a, Nat.le_refl _⟩ hb.ok hb.tables (hb.kend.trans h.kend) (fun n hn => hent n (by omega))
      (fun n hn => ⟨fun hc => ?_, fun hc => ?_⟩) fun n h1 h2 => ?_
    · exact hs.unfree n hn (h.sub (hb.sub hc))
    · exact (h.became_newTables hs hb hc).elim (hs.untabled n hn) fun hf => hs.unfree n hn (h.sub hf)
    · rw [hnew n h1 h2, hpte.ppn, Mem.Owns, hb.kend]
      refine ⟨⟨hpte.valid, ?_⟩, howns, hpf, hpt, fun n' hn' e => hs.unfree n' hn' (by rw [e]; exact h.mem)⟩
      rw [hpte.flags]
      exact hleaf
  case fresh =>
    rw [hnew n h1 h2, hpte.ppn]
    exact h.mem
  case flags =>
    rw [hnew n h1 h2]
    exact hpte.flags
  case content =>
    rw [hnew n h1 h2, hpte.ppn, hb.others p hpt, h.page, Function.update_self]
  case used =>
    rcases h.became_used hb hq with rfl | hq | hq
    · exact .inr (.inr ⟨a, Nat.lt_succ_self a, hpte.ppn⟩)
    · exact .inl hq
    · exact .inr (.inl hq)

theorem TookPage.returned {u : Mem} (h : TookPage p g s t) (hs : Pages s root a) (hb : Became root t u (entry t.page root))
    (hpage : s'.page = Function.update u.page p fun _ => 1) (hfree : s'.free = p :: u.free) (hk : s'.kend = u.kend) :
    Added root a a f c s s' := by
  obtain ⟨hpf, hpt⟩ := h.became_apart hs hb
  have hlt := hs.bounds
  have he : Entries root u s' (entry u.page root) [p] := .kfree hb.tables hpt hpage hfree hk
  have hok : s'.Ok := by
    refine he.ok hb.ok (List.nodup_singleton p) fun q hq => ?_
    rw [List.mem_singleton] at hq
    rw [hq, Mem.Owns, hb.kend, h.kend]
    exact ⟨hs.ok.owns p h.mem, hpf⟩
  have hent : ∀ n < MAXVA / PGSIZE, entry s'.page root n = entry s.page root n := fun n hn => by
    rw [he.entries n hn, hb.entries n hn, h.entry_eq hs]
  have hnone : ∀ n, a ≤ n → ¬ n < a := fun n h1 => Nat.not_lt.mpr h1
  refine ⟨?pages, Nat.le_refl a, fun n hn _ => hent n hn, fun n h1 h2 => absurd h2 (hnone n h1),
    fun n h1 h2 => absurd h2 (hnone n h1),
    fun n h1 h2 => absurd h2 (hnone n h1), fun q hq hqt => ?others, fun q hq => ?free, fun q hq => ?used,
    fun q hq => (he.tabled q).mpr (h.became_tabled hs hb hq),
    fun q hq => (h.became_newTables hs hb ((he.tabled q).mp hq)).imp_right h.sub, hk.trans (hb.kend.trans h.kend)⟩
  case pages =>
    refine hs.grow ⟨Nat.le_refl a, Nat.le_succ a⟩ hok he.tables (hk.trans (hb.kend.trans h.kend))
      (fun n hn _ => hent n (by omega))
      (fun n hn => ⟨fun hc => ?_, fun hc => ?_⟩) fun n h1 h2 => absurd h2 (hnone n h1)
    · rw [hfree, List.mem_cons] at hc
      rcases hc with hc | hc
      · exact hs.unfree n hn (by rw [hc]; exact h.mem)
      · exact hs.unfree n hn (h.sub (hb.sub hc))
    · exact (h.became_newTables hs hb ((he.tabled _).mp hc)).elim (hs.untabled n hn) fun hf => hs.unfree n hn (h.sub hf)
  case others =>
    have hqp : q ∉ [p] := fun hc => hq (List.mem_singleton.mp hc ▸ h.mem)
    have hqt' : ¬ IsTable u.page root q := fun hc => (h.became_newTables hs hb hc).elim hqt fun hf => hq (h.sub hf)
    rw [he.others q hqt' hqp, h.became_others hs hb hq hqt]
  case free =>
    rw [hfree, List.mem_cons] at hq
    rcases hq with rfl | hq
    · exact h.mem
    · exact h.sub (hb.sub hq)
  case used =>
    rcases h.became_used hb hq with rfl | hq | hq
    · exact .inl (by rw [hfree]; exact List.mem_cons_self)
    · exact .inl (by rw [hfree]; exact List.mem_cons_of_mem _ hq)
    · exact .inr (.inl ((he.tabled q).mpr hq))

theorem Added.same (hs : Pages s root a) (hp : s'.page = s.page) (hf : s'.free = s.free) (hk : s'.kend = s.kend) :
    Added root a a f c s s' := by
  have hkept : Pages s' root a := hs.kept ⟨by rw [hf]; exact hs.ok.nodup,
    by rw [hf]; simp only [Mem.Owns, hk]; exact hs.ok.owns⟩ hk
    (fun p _ => by rw [hp]) fun p hp' => by rw [hf]; exact hs.owned_unfree hp'
  have hnone : ∀ n, a ≤ n → ¬ n < a := fun n h1 => Nat.not_lt.mpr h1
  refine ⟨hkept, Nat.le_refl a, fun n _ _ => by rw [hp], fun n h1 h2 => absurd h2 (hnone n h1),
    fun n h1 h2 => absurd h2 (hnone n h1),
    fun n h1 h2 => absurd h2 (hnone n h1), fun q _ _ => by rw [hp], fun q hq => hf ▸ hq, fun q hq => .inl (by rw [hf]; exact hq),
    fun q hq => by rw [hp]; exact hq, fun q hq => .inl (by rw [hp] at hq; exact hq), hk⟩

theorem wp_mapPage {perm : Nat} (hperm : perm < 1024) (hleaf : perm ||| PTE_V ≠ PTE_V) (hs : Pages s root a)
    (h : TookPage p g s t) :
    Lib.Wp E (mappages root (a * PGSIZE) PGSIZE (p * PGSIZE) perm) t fun r s' =>
      r = 0 ∧ Added root a (a + 1) (fun _ => perm ||| PTE_V) (fun _ => g) s s' ∨ r ≠ 0 ∧
        Became root t s' (entry t.page root) := by
  have hlt := hs.bounds
  have hpa : p * PGSIZE < 2 ^ 64 := Nat.lt_trans (h.apart hs).1.2 (by decide)
  have ht := h.isPageTable hs
  have hw : Lib.Wp E (mappages root (a * PGSIZE) (1 * PGSIZE) (p * PGSIZE) perm) t _ :=
    wp_mappages ht.ok ht.tables Nat.one_pos (by omega) (by omega) hpa fun ⟨n, h1, h2, hv⟩ => by
      rw [h.entry_eq hs, hs.above n (by omega) (by omega)] at hv
      exact absurd rfl hv
  rw [Nat.one_mul] at hw
  refine hw.mono fun r s' ⟨j, hj, hb⟩ => ?_
  rcases hj with ⟨rfl, rfl⟩ | ⟨rfl, hj⟩
  · exact .inl ⟨rfl, h.mapped hs hperm hleaf hb⟩
  · obtain rfl : j = 0 := by omega
    rw [within_zero] at hb
    exact .inr ⟨by decide, hb⟩

/-! ## Fewer pages -/

/-- User memory has shrunk from `a` to `b` pages. -/
structure Shrunk (root b a : Nat) (s s' : Mem) : Prop where
  pages : Pages s' root b
  entries : ∀ n < MAXVA / PGSIZE, entry s'.page root n = within b (a - b) (fun _ => 0) (entry s.page root) n
  free : ∀ p, p ∈ s'.free ↔ p ∈ s.free ∨ ∃ n, b ≤ n ∧ n < a ∧ ppn (entry s.page root n) = p
  others : ∀ p, ¬ IsTable s.page root p → (∀ n, b ≤ n → n < a → ppn (entry s.page root n) ≠ p) → s'.page p = s.page p
  tabled : ∀ p, IsTable s'.page root p ↔ IsTable s.page root p
  kend : s'.kend = s.kend

theorem Pages.shrunk (h : Pages s root a) (hle : b ≤ a)
    (he : Entries root s s' (within b (a - b) (fun _ => 0) (entry s.page root)) (freed (entry s.page root) b (a - b) true)) :
    Shrunk root b a s s' := by
  have hlt := h.bounds
  have hfreed : ∀ p, p ∈ freed (entry s.page root) b (a - b) true ↔ ∃ n, b ≤ n ∧ n < a ∧
    ppn (entry s.page root n) = p := fun p => by
    rw [mem_freed, Nat.add_sub_cancel' hle]
    exact and_iff_right rfl
  have hbelow : ∀ n < b, entry s'.page root n = entry s.page root n := fun n hn => by
    rw [he.entries n (by omega), within, if_neg (by omega)]
  have hok : s'.Ok := by
    refine he.ok h.ok (freed_nodup fun n n' _ h2 _ h2' e => h.inj n (by omega) n' (by omega) e) fun p hp => ?_
    obtain ⟨n, _, hn, rfl⟩ := (hfreed p).mp hp
    exact ⟨h.owns n hn, h.unfree n hn⟩
  have hfree : ∀ p, p ∈ s'.free ↔ p ∈ s.free ∨ ∃ n, b ≤ n ∧ n < a ∧ ppn (entry s.page root n) = p := fun p => by
    rw [he.free, List.mem_append, hfreed]
    exact or_comm
  refine ⟨⟨hok, he.tables, fun n hn => ?_, fun n hn => ?_, fun n hn => ?_, fun n hn => ?_, fun n hn n' hn' e => ?_,
    fun n h1 h2 => ?_⟩,
    he.entries, hfree, fun p hp hno => he.others p hp fun hc => ?_, he.tabled, he.kend⟩
  · rw [hbelow n hn]
    exact h.leaf n (by omega)
  · rw [hbelow n hn, Mem.Owns, he.kend]
    exact h.owns n (by omega)
  · rw [hbelow n hn, hfree]
    rintro (hc | ⟨n', h1, h2, e⟩)
    · exact h.unfree n (by omega) hc
    · have := h.inj n' h2 n (by omega) e
      omega
  · rw [hbelow n hn, he.tabled]
    exact h.untabled n (by omega)
  · rw [hbelow n hn, hbelow n' hn'] at e
    exact h.inj n (by omega) n' (by omega) e
  · rw [he.entries n (by omega), within]
    split
    · exact Nat.zero_and _
    · exact h.above n (by omega) h2
  · obtain ⟨n, h1, h2, e⟩ := (hfreed p).mp hc
    exact hno n h1 h2 e

theorem Added.undo (h : Added root b a f c s t) (h' : Shrunk root b a t s') : Added root b b f c s s' := by
  have hlt := h.pages.bounds
  have hnone : ∀ n, b ≤ n → ¬ n < b := fun n h1 => Nat.not_lt.mpr h1
  have hle := h.le
  refine ⟨h'.pages, Nat.le_refl b, fun n hn hout => ?_, fun n h1 h2 => absurd h2 (hnone n h1),
    fun n h1 h2 => absurd h2 (hnone n h1),
    fun n h1 h2 => absurd h2 (hnone n h1), fun q hq hqt => ?_, fun q hq => ?_, fun q hq => ?_,
    fun q hq => (h'.tabled q).mpr (h.tabled q hq), fun q hq => h.newTables q ((h'.tabled q).mp hq), h'.kend.trans h.kend⟩
  · rw [h'.entries n hn, within, if_neg (by omega), h.entries n hn hout]
  · have hqt' : ¬ IsTable t.page root q := fun hc => (h.newTables q hc).elim hqt hq
    have hnew : ∀ n, b ≤ n → n < a → ppn (entry t.page root n) ≠ q := fun n h1 h2 e => hq (e ▸ h.fresh n h1 h2)
    rw [h'.others q hqt' hnew, h.others q hq hqt]
  · rcases (h'.free q).mp hq with hq | ⟨n, h1, h2, rfl⟩
    · exact h.free q hq
    · exact h.fresh n h1 h2
  · rcases h.used q hq with hq | hq | ⟨n, hn, rfl⟩
    · exact .inl ((h'.free q).mpr (.inl hq))
    · exact .inr (.inl ((h'.tabled q).mpr hq))
    · by_cases hnb : n < b
      · refine .inr (.inr ⟨n, hnb, ?_⟩)
        rw [h'.entries n (by omega), within, if_neg (by omega)]
      · exact .inl ((h'.free _).mpr (.inr ⟨n, by omega, hn, rfl⟩))

end Xv6.Vm
