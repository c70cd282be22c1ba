/-
  Xv6.Vm.MapSpecs — what `kalloc`, `kfree`, `walk`, `mappages`, `uvmunmap` and `freewalk` do to the
  map that a page table is.

  `Became f`: the entries of the page table are `f`; the pages taken off the free list are its new
  tables, and no other page has changed.
-/

import Xv6.Vm.Tree

namespace Xv6.Vm

open Function (update update_self update_of_ne)
open Lib (Wp wp_bind wp_ite wp_get nodeAt InTree nodeAt_cons)

variable {E : Panic → Prop} {s s' t : Mem} {root p q i n va : Nat} {l : List Nat} {f g : Nat → Nat}

/-! ## Memory -/

@[simp] theorem wp_pte {Q : Nat → Mem → Prop} : Wp E (pte p i) s Q = Q ((s.page p).pte i) s := rfl

@[simp] theorem wp_setPage {h : Page} {Q : Unit → Mem → Prop} :
    Wp E (setPage p h) s Q = Q () { s with page := update s.page p h } := rfl

@[simp] theorem wp_setPte {v : Nat} {Q : Unit → Mem → Prop} :
    Wp E (setPte p i v) s Q = Q () { s with page := update s.page p ((s.page p).setPte i v) } := rfl

/-- `kalloc` fails and nothing happens, or takes the first page of the free list. -/
theorem wp_kalloc : Wp E kalloc s fun r s' =>
    (r = none ∧ s'.page = s.page ∧ s'.free = s.free ∧ s'.kend = s.kend) ∨
      ∃ p, r = some p ∧ s.free = p :: s'.free ∧ s'.page = update s.page p (fun _ => 5) ∧ s'.kend = s.kend := by
  simp only [kalloc, wp_bind, wp_get, Lib.wp_modify]
  refine wp_ite (fun _ => .inl ⟨rfl, rfl, rfl, rfl⟩) fun _ => ?_
  split
  · rename_i h
    exact .inl ⟨rfl, rfl, rfl, rfl⟩
  · rename_i p l h
    exact .inr ⟨p, rfl, h, rfl, rfl⟩

theorem wp_kfree (h : s.Owns p) : Wp E (kfree (p * PGSIZE)) s fun _ s' =>
    s'.page = update s.page p (fun _ => 1) ∧ s'.free = p :: s.free ∧ s'.kend = s.kend := by
  have hp : p * PGSIZE / PGSIZE = p := Nat.mul_div_cancel _ (by decide)
  simp only [kfree, wp_bind, wp_get]
  refine wp_ite (fun hbad => ?_) fun _ => ?_
  · rcases hbad with hbad | hbad | hbad
    · exact absurd (Nat.mul_mod_left ..) hbad
    · exact absurd h.1 (Nat.not_le.mpr hbad)
    · exact absurd h.2 (Nat.not_lt.mpr hbad)
  · simp only [wp_bind, wp_setPage, Lib.wp_modify, hp, and_self]

theorem update_congr {v : Nat} (h : f n = g n) : update f i v n = update g i v n := by
  simp only [Function.update_apply, h]

/-! ## The same tables -/

/-- The entries are `f`; these pages have gone to the free list, and no other page that is no table has changed. -/
structure Entries (root : Nat) (s s' : Mem) (f : Nat → Nat) (freed : List Nat) : Prop where
  tables : Tables s' root
  entries : ∀ n < MAXVA / PGSIZE, entry s'.page root n = f n
  kend : s'.kend = s.kend
  free : s'.free = freed ++ s.free
  tabled : ∀ p, IsTable s'.page root p ↔ IsTable s.page root p
  others : ∀ p, ¬ IsTable s.page root p → p ∉ freed → s'.page p = s.page p

theorem Entries.same (ht : Tables s root) (hp : s'.page = s.page) (hf : s'.free = s.free) (hk : s'.kend = s.kend) :
    Entries root s s' (entry s.page root) [] :=
  ⟨ht.frame (fun p _ => by rw [hp]) hk fun p h => by rw [hf]; exact ht.used p h, fun n _ => by rw [hp], hk, hf,
    fun p => by rw [hp],
    fun p _ _ => by rw [hp]⟩

theorem Entries.trans {l' : List Nat} (h : Entries root s t f l) (h' : Entries root t s' g l') :
    Entries root s s' g (l' ++ l) := by
  refine ⟨h'.tables, h'.entries, h'.kend.trans h.kend, by rw [h'.free, h.free, List.append_assoc],
    fun p => (h'.tabled p).trans (h.tabled p),
    fun p hp hl => ?_⟩
  rw [List.mem_append, not_or] at hl
  rw [h'.others p (fun ht => hp ((h.tabled p).mp ht)) hl.1, h.others p hp hl.2]

theorem Entries.congr (h : Entries root s s' f l) (hfg : ∀ n < MAXVA / PGSIZE, f n = g n) : Entries root s s' g l :=
  ⟨h.tables, fun n hn => (h.entries n hn).trans (hfg n hn), h.kend, h.free, h.tabled, h.others⟩

theorem Entries.ok (h : Entries root s s' f l) (hok : s.Ok) (hnd : l.Nodup) (ho : ∀ p ∈ l, s.Owns p ∧ p ∉ s.free) : s'.Ok := by
  constructor
  · rw [h.free]
    exact List.nodup_append.mpr ⟨hnd, hok.nodup, fun p hp q hq e => (ho p hp).2 (e ▸ hq)⟩
  · intro p hp
    rw [h.free, List.mem_append] at hp
    rw [Mem.Owns, h.kend]
    exact hp.elim (fun hp => (ho p hp).1) (hok.owns p)

theorem Entries.kfree (ht : Tables s root) (hq : ¬ IsTable s.page root q) (hp : s'.page = update s.page q fun _ => 1)
    (hf : s'.free = q :: s.free) (hk : s'.kend = s.kend) : Entries root s s' (entry s.page root) [q] := by
  have hsame : ∀ p, IsTable s.page root p → s'.page p = s.page p := fun p h => by
    have hne : p ≠ q := fun e => hq (e ▸ h)
    rw [hp, update_of_ne hne]
  refine ⟨ht.frame hsame hk fun p h hc => ?_, fun n _ => entry_frame hsame, hk, hf, fun p => isTable_frame hsame,
    fun p _ hpq => ?_⟩
  · rw [hf, List.mem_cons] at hc
    exact hc.elim (fun e => hq (e ▸ h)) (ht.used p h)
  · rw [List.mem_singleton] at hpq
    rw [hp, update_of_ne hpq]

theorem Entries.set {v : Nat} (ht : Tables s root) (hp : tableOf s.page root n = some p) (hn : n < MAXVA / PGSIZE)
    (hv : v < 2 ^ 64) (hs : s'.page = update s.page p ((s.page p).setPte (PX 0 (n * PGSIZE)) v)) (hf : s'.free = s.free)
    (hk : s'.kend = s.kend) : Entries root s s' (update (entry s.page root) n v) [] := by
  refine ⟨ht.set hp hs hk fun r hr => by rw [hf]; exact ht.used r hr, fun k hkn => ?_, hk, hf,
    fun r => ht.isTable_set hp hs, fun r hr _ => ?_⟩
  · by_cases e : k = n
    · rw [e, update_self, ht.entry_set_self hp hs hv]
    · rw [update_of_ne e, ht.entry_set_of_ne hp hs hn hkn e]
  · have hrp : r ≠ p := fun e => hr (e ▸ isTable_of_tableOf hp)
    rw [hs, update_of_ne hrp]

/-! ## walk -/

theorem wp_walkFrom_find {level : Nat} : Wp E (walkFrom va false level p) s fun r s' =>
    s = s' ∧ r = (nodeAt (next s.page) p (indices va level)).map fun q => (q, PX 0 va) := by
  induction level generalizing p with
  | zero => exact ⟨rfl, rfl⟩
  | succ level ih =>
    simp only [walkFrom, wp_bind, wp_pte, indices, nodeAt_cons]
    refine wp_ite (fun hv => ?_) fun hv => ?_
    · rw [next, if_pos ⟨PX_lt .., hv⟩]
      exact ih
    · rw [next, if_neg fun hc : _ ∧ _ => hv hc.2, if_neg (by decide)]
      exact ⟨rfl, rfl⟩

theorem wp_walk_find (hva : va < MAXVA) : Wp E (walk root va false) s fun r s' =>
    s = s' ∧ r = (tableOf s.page root (va / PGSIZE)).map fun q => (q, PX 0 va) := by
  rw [walk]
  rw [if_neg (Nat.not_le.mpr hva), tableOf, indices_page]
  exact wp_walkFrom_find

structure Became (root : Nat) (s s' : Mem) (f : Nat → Nat) : Prop where
  ok : s'.Ok
  tables : Tables s' root
  entries : ∀ n < MAXVA / PGSIZE, entry s'.page root n = f n
  kend : s'.kend = s.kend
  taken : ∃ l, s.free = l ++ s'.free ∧ ∀ p, IsTable s'.page root p ↔ IsTable s.page root p ∨ p ∈ l
  others : ∀ p, ¬ IsTable s'.page root p → s'.page p = s.page p

theorem Entries.became (h : Entries root s s' f []) (hok : s.Ok) : Became root s s' f :=
  ⟨h.ok hok .nil fun _ hp => absurd hp List.not_mem_nil, h.tables, h.entries, h.kend,
    ⟨[], h.free.symm, fun p => by simp [h.tabled]⟩,
    fun p hp => h.others p (fun ht => hp ((h.tabled p).mpr ht)) List.not_mem_nil⟩

theorem Became.trans (h : Became root s t f) (h' : Became root t s' g) : Became root s s' g := by
  obtain ⟨l, hl, hlt⟩ := h.taken
  obtain ⟨l', hl', hlt'⟩ := h'.taken
  refine ⟨h'.ok, h'.tables, h'.entries, h'.kend.trans h.kend, ⟨l ++ l', by rw [hl, hl', List.append_assoc], fun p => ?_⟩,
    fun p hp => ?_⟩
  · rw [hlt', hlt, List.mem_append, or_assoc]
  · rw [h'.others p hp, h.others p fun ht => hp ((hlt' p).mpr (.inl ht))]

theorem Became.congr (h : Became root s s' f) (hfg : ∀ n < MAXVA / PGSIZE, f n = g n) : Became root s s' g :=
  ⟨h.ok, h.tables, fun n hn => (h.entries n hn).trans (hfg n hn), h.kend, h.taken, h.others⟩

theorem Became.table {q : Nat} (hok : s.Ok) (ht : Tables s root) (hp : nodeAt (next s.page) root l = some p) (hl : l.length < 2)
    (hi : i < 512) (hnone : (s.page p).pte i &&& PTE_V = 0) (hlow : l = [] → i < 256) (hfree : s.free = q :: s'.free)
    (hs : s'.page = update (update s.page q fun _ => 0) p ((s.page p).setPte i (PA2PTE (q * PGSIZE) ||| PTE_V)))
    (hk : s'.kend = s.kend) : Became root s s' (entry s.page root) := by
  have hqf : q ∈ s.free := by rw [hfree]; exact List.mem_cons_self
  have hq : ¬ IsTable s.page root q := fun h => ht.used q h hqf
  have ho := hok.owns q hqf
  have hnd := hok.nodup
  rw [hfree, List.nodup_cons] at hnd
  have htable := fun r => ht.isTable_grow (r := r) hp hl hi hnone hq ho.lt hs
  refine ⟨⟨hnd.2, fun r hr => ?_⟩, ht.grow hp hl hi hnone hq ho.lt hs hk (fun r hr => ?_) ho hlow, fun n _ => ?_, hk,
    ⟨[q], hfree, fun r => ?_⟩,
    fun r hr => ?_⟩
  · rw [Mem.Owns, hk]
    exact hok.owns r (by rw [hfree]; exact List.mem_cons_of_mem _ hr)
  · rcases hr with hr | rfl
    · exact fun hc => ht.used r hr (by rw [hfree]; exact List.mem_cons_of_mem _ hc)
    · exact hnd.1
  · exact ht.entry_grow hp hl hi hnone hq ho.lt hs
  · rw [htable, List.mem_singleton]
  · rw [htable, not_or] at hr
    have hrp : r ≠ p := fun e => hr.1 (e ▸ ⟨l, by omega, hp⟩)
    rw [hs, update_of_ne hrp, update_of_ne hr.2]

theorem PX_two_lt (hva : va < MAXVA) : PX 2 va < 256 := by
  rw [PX_eq]
  simp only [PGSIZE, MAXVA] at *
  omega

theorem wp_walkFrom_alloc {level : Nat} (hok : s.Ok) (ht : Tables s root) (hva : va < MAXVA)
    (hp : nodeAt (next s.page) root l = some p) (hl : l.length + level = 2) (hpath : l ++ indices va level = indices va 2) :
    Wp E (walkFrom va true level p) s fun r s' => Became root s s' (entry s.page root) ∧
      (r = none ∨ ∃ q, r = some (q, PX 0 va) ∧ nodeAt (next s'.page) root (indices va 2) = some q) := by
  induction level generalizing s p l with
  | zero =>
    rw [indices, List.append_nil] at hpath
    exact ⟨(Entries.same ht rfl rfl rfl).became hok, .inr ⟨p, rfl, by rw [← hpath]; exact hp⟩⟩
  | succ level ih =>
    have hpath' : (l ++ [PX (level + 1) va]) ++ indices va level = indices va 2 := by
      rw [List.append_assoc]
      exact hpath
    have hlen : (l ++ [PX (level + 1) va]).length + level = 2 := by
      rw [List.length_append, List.length_singleton]
      omega
    simp only [walkFrom, wp_bind, wp_pte]
    refine wp_ite (fun hv => ?_) fun hv => ?_
    · refine ih hok ht ?_ hlen hpath'
      rw [Lib.nodeAt_snoc, hp]
      exact next_eq_some.mpr ⟨PX_lt .., hv, rfl⟩
    · simp only [if_true, wp_bind]
      refine wp_kalloc.mono fun r s1 hr => ?_
      rcases hr with ⟨rfl, h1, h2, h3⟩ | ⟨q, rfl, hfree, hpage, hk⟩
      · exact ⟨(Entries.same ht h1 h2 h3).became hok, .inl rfl⟩
      · have hqf : q ∈ s.free := by rw [hfree]; exact List.mem_cons_self
        have hpq : p ≠ q := fun e => ht.used p ⟨l, by omega, hp⟩ (e ▸ hqf)
        have hlow : l = [] → PX (level + 1) va < 256 := fun h0 => by
          rw [h0, List.length_nil] at hl
          rw [show level + 1 = 2 by omega]
          exact PX_two_lt hva
        simp only [wp_bind, wp_setPage, wp_setPte]
        -- the state with the new table in place
        set s2 : Mem := Mem.mk (update (update s1.page q fun _ => 0) p
          (Page.setPte (update s1.page q (fun _ => 0) p) (PX (level + 1) va) (PA2PTE (q * PGSIZE) ||| PTE_V)))
          s1.free s1.kend s1.deny with hs2
        have hpage2 : s2.page = update (update s.page q fun _ => 0) p
            ((s.page p).setPte (PX (level + 1) va) (PA2PTE (q * PGSIZE) ||| PTE_V)) := by
          rw [hs2]
          dsimp only
          rw [hpage, Function.update_idem, update_of_ne hpq]
        have hnone : (s.page p).pte (PX (level + 1) va) &&& PTE_V = 0 := not_not.mp hv
        have hb : Became root s s2 (entry s.page root) :=
          .table hok ht hp (by omega) (PX_lt ..) hnone hlow hfree hpage2 hk
        have hq : ¬ IsTable s.page root q := fun h => ht.used q h hqf
        have hat : nodeAt (next s2.page) root (l ++ [PX (level + 1) va]) = some q := by
          rw [ht.nodeAt_grow hp (by omega) (PX_lt ..) hnone hq (hok.owns q hqf).lt hpage2 (by omega), if_pos rfl]
        refine (ih hb.ok hb.tables hat hlen hpath').mono fun r s' ⟨h1, h2⟩ =>
          ⟨(hb.trans h1).congr fun n hn => hb.entries n hn, h2⟩

theorem wp_walk_alloc (hok : s.Ok) (ht : Tables s root) (hva : va < MAXVA) :
    Wp E (walk root va true) s fun r s' => Became root s s' (entry s.page root) ∧
      (r = none ∨ ∃ q, r = some (q, PX 0 va) ∧ tableOf s'.page root (va / PGSIZE) = some q) := by
  rw [walk, if_neg (Nat.not_le.mpr hva)]
  simp only [tableOf, indices_page]
  exact wp_walkFrom_alloc (l := []) hok ht hva rfl rfl rfl

/-! ## mappages -/

/-- The entry that `mappages` makes for the `i`th page. -/
def leaf (pa perm i : Nat) : Nat := PA2PTE ((pa + i * PGSIZE) % 2 ^ 64) ||| perm ||| PTE_V

theorem leaf_succ (pa perm i : Nat) : leaf ((pa + PGSIZE) % 2 ^ 64) perm i = leaf pa perm (i + 1) := by
  rw [leaf, leaf, Nat.mod_add_mod, Nat.add_assoc, Nat.succ_mul, Nat.add_comm PGSIZE]

theorem leaf_lt {perm : Nat} (pa i : Nat) (h : perm < 2 ^ 64) : leaf pa perm i < 2 ^ 64 := by
  refine Nat.or_lt_two_pow (Nat.or_lt_two_pow ?_ h) (by decide)
  rw [PA2PTE, Nat.shiftLeft_eq, Nat.shiftRight_eq_div_pow]
  omega

/-- The entries `f` with those of `k` pages from `a` on replaced. -/
def within (a k : Nat) (g f : Nat → Nat) (n : Nat) : Nat := if a ≤ n ∧ n < a + k then g (n - a) else f n

theorem within_zero (a : Nat) : within a 0 g f = f := by
  funext n
  rw [within, if_neg (by omega)]

theorem within_succ (a k : Nat) : within a (k + 1) g f = within (a + 1) k (fun i => g (i + 1)) (update f a (g 0)) := by
  funext n
  unfold within
  by_cases e : n = a
  · rw [e, if_pos ⟨Nat.le_refl a, by omega⟩, if_neg (by omega), update_self, Nat.sub_self]
  · rw [update_of_ne e]
    by_cases h : a + 1 ≤ n ∧ n < a + 1 + k
    · rw [if_pos h, if_pos ⟨by omega, by omega⟩, show n - a = n - (a + 1) + 1 by omega]
    · rw [if_neg h, if_neg (by omega)]

theorem within_congr {f' : Nat → Nat} (a k : Nat) (h : f n = f' n) : within a k g f n = within a k g f' n := by
  rw [within, within, h]

theorem wp_mappagesRound {perm a k pa last : Nat} {Q : Int → Mem → Prop} (hok : s.Ok) (ht : Tables s root)
    (ha : a < MAXVA / PGSIZE)
    (hperm : perm < 2 ^ 64) (hpa : pa < 2 ^ 64) (hE : entry s.page root a &&& PTE_V ≠ 0 → E .remap)
    (hfail : ∀ t, Became root s t (entry s.page root) → Q (-1) t)
    (hset : ∀ t, Became root s t (update (entry s.page root) a (leaf pa perm 0)) →
      Wp E (if a * PGSIZE = last then pure 0
        else mappagesFrom root perm last k ((a * PGSIZE + PGSIZE) % 2 ^ 64) ((pa + PGSIZE) % 2 ^ 64)) t Q) :
    Wp E (mappagesFrom root perm last (k + 1) (a * PGSIZE) pa) s Q := by
  have hleaf : PA2PTE pa ||| perm ||| PTE_V = leaf pa perm 0 := by
    rw [leaf, Nat.zero_mul, Nat.add_zero, Nat.mod_eq_of_lt hpa]
  simp only [mappagesFrom, wp_bind]
  refine (wp_walk_alloc hok ht (mul_lt ha)).mono fun r s1 ⟨hb, hr⟩ => ?_
  rcases hr with rfl | ⟨p, rfl, hp⟩
  · exact hfail s1 hb
  · rw [Nat.mul_div_cancel _ (by decide)] at hp
    simp only [wp_bind, wp_pte]
    rw [← entry_of_table hp, hb.entries a ha]
    refine wp_ite (fun hv => hE hv) fun _ => ?_
    simp only [wp_bind, wp_setPte]
    rw [hleaf]
    refine hset _ (.congr (hb.trans (Entries.became (.set hb.tables hp ha (leaf_lt pa 0 hperm) ?page ?free ?kend) hb.ok))
      fun n hn => update_congr (hb.entries n hn))
    all_goals rfl

/-- The last round is the one at `last`; a failure of `walk` ends the loop after `j` pages. -/
theorem wp_mappagesFrom {perm a k pa last : Nat} (hok : s.Ok) (ht : Tables s root) (ha : a + k < MAXVA / PGSIZE)
    (hlast : last = (a + k) * PGSIZE) (hperm : perm < 2 ^ 64) (hpa : pa < 2 ^ 64)
    (hE : (∃ n, a ≤ n ∧ n ≤ a + k ∧ entry s.page root n &&& PTE_V ≠ 0) → E .remap) :
    Wp E (mappagesFrom root perm last (k + 1) (a * PGSIZE) pa) s fun r s' => ∃ j, (r = 0 ∧ j = k + 1 ∨ r = -1 ∧ j ≤ k) ∧
      Became root s s' (within a j (leaf pa perm) (entry s.page root)) := by
  induction k generalizing s a pa with
  | zero =>
    refine wp_mappagesRound hok ht ha hperm hpa (fun hv => hE ⟨a, Nat.le_refl _, Nat.le_refl _, hv⟩)
      (fun t hb => ?_) fun t hb => ?_
    · exact ⟨0, .inr ⟨rfl, Nat.le_refl _⟩, hb.congr fun n _ => by rw [within_zero]⟩
    · rw [if_pos (by rw [hlast, Nat.add_zero])]
      exact ⟨1, .inl ⟨rfl, rfl⟩, hb.congr fun n _ => by rw [within_succ, within_zero]⟩
  | succ k ih =>
    refine wp_mappagesRound hok ht (by omega) hperm hpa (fun hv => hE ⟨a, Nat.le_refl _, by omega, hv⟩)
      (fun t hb => ?_) fun t hb => ?_
    · exact ⟨0, .inr ⟨rfl, Nat.zero_le _⟩, hb.congr fun n _ => by rw [within_zero]⟩
    · have hne : ¬ a * PGSIZE = last := by
        rw [hlast]
        simp only [PGSIZE]
        omega
      have hnext : (a * PGSIZE + PGSIZE) % 2 ^ 64 = (a + 1) * PGSIZE := by
        simp only [PGSIZE, MAXVA] at *
        omega
      rw [if_neg hne, hnext]
      refine (ih hb.ok hb.tables (by omega) (by rw [hlast, Nat.add_right_comm]; rfl) (Nat.mod_lt _ (by decide)) ?_).mono ?_
      · rintro ⟨n, h1, h2, hv⟩
        rw [hb.entries n (by omega), update_of_ne (by omega)] at hv
        exact hE ⟨n, by omega, by omega, hv⟩
      · rintro r s' ⟨j, hj, hb'⟩
        refine ⟨j + 1, ?_, (hb.trans hb').congr fun n hn => ?_⟩
        · rcases hj with ⟨h1, h2⟩ | ⟨h1, h2⟩
          · exact .inl ⟨h1, by omega⟩
          · exact .inr ⟨h1, by omega⟩
        · have hleaf : leaf ((pa + PGSIZE) % 2 ^ 64) perm = fun i => leaf pa perm (i + 1) := funext (leaf_succ pa perm)
          rw [within_succ, within_congr _ _ (hb.entries n hn), hleaf]

theorem wp_mappages {perm a k pa : Nat} (hok : s.Ok) (ht : Tables s root) (hk : 0 < k) (ha : a + k ≤ MAXVA / PGSIZE)
    (hperm : perm < 2 ^ 64) (hpa : pa < 2 ^ 64)
    (hE : (∃ n, a ≤ n ∧ n < a + k ∧ entry s.page root n &&& PTE_V ≠ 0) → E .remap) :
    Wp E (mappages root (a * PGSIZE) (k * PGSIZE) pa perm) s fun r s' => ∃ j, (r = 0 ∧ j = k ∨ r = -1 ∧ j < k) ∧
      Became root s s' (within a j (leaf pa perm) (entry s.page root)) := by
  obtain ⟨k, rfl⟩ := Nat.exists_eq_add_of_lt hk
  have hlast : (a * PGSIZE + (0 + k + 1) * PGSIZE - PGSIZE) % 2 ^ 64 = (a + k) * PGSIZE := by
    simp only [PGSIZE, MAXVA] at *
    omega
  have hne : ¬ (0 + k + 1) * PGSIZE = 0 := by
    simp only [PGSIZE]
    omega
  unfold mappages
  rw [if_neg (not_not.mpr (Nat.mul_mod_left ..)), if_neg (not_not.mpr (Nat.mul_mod_left ..)), if_neg hne, hlast,
    Nat.mul_div_cancel _ (by decide), Nat.zero_add]
  refine (wp_mappagesFrom hok ht (by omega) rfl hperm hpa ?_).mono ?_
  · rintro ⟨n, h1, h2, hv⟩
    exact hE ⟨n, h1, by omega, hv⟩
  · rintro r s' ⟨j, hj, hb⟩
    refine ⟨j, ?_, hb⟩
    rcases hj with ⟨h1, h2⟩ | ⟨h1, h2⟩
    · exact .inl ⟨h1, by omega⟩
    · exact .inr ⟨h1, by omega⟩

/-! ## uvmunmap -/

def IsLeaf (e : Nat) : Prop := e &&& PTE_V ≠ 0 ∧ PTE_FLAGS e ≠ PTE_V

/-- The pages that `uvmunmap` frees, the last one first. -/
def freed (f : Nat → Nat) (a k : Nat) (do_free : Bool) : List Nat :=
  if do_free then ((List.range k).map fun i => ppn (f (a + i))).reverse else []

theorem freed_zero (a : Nat) (do_free : Bool) : freed f a 0 do_free = [] := by
  cases do_free <;> rfl

theorem freed_succ (a k : Nat) (do_free : Bool) : freed f a (k + 1) do_free =
    freed f (a + 1) k do_free ++ freed f a 1 do_free := by
  cases do_free with
  | false => rfl
  | true =>
    have h : ∀ i, a + 1 + i = a + (i + 1) := fun i => by omega
    simp only [freed, if_true, List.range_succ_eq_map, List.map_cons, List.map_map, List.reverse_cons, h]
    rfl

theorem freed_congr {a k : Nat} {do_free : Bool} (h : ∀ n, a ≤ n → n < a + k → f n = g n) :
    freed f a k do_free = freed g a k do_free := by
  unfold freed
  congr 2
  refine List.map_congr_left fun i hi => ?_
  rw [h (a + i) (by omega) (Nat.add_lt_add_left (List.mem_range.mp hi) a)]

theorem mem_freed {a k : Nat} {do_free : Bool} :
    p ∈ freed f a k do_free ↔ do_free = true ∧ ∃ n, a ≤ n ∧ n < a + k ∧ ppn (f n) = p := by
  cases do_free with
  | false => simp [freed]
  | true =>
    simp only [freed, if_true, List.mem_reverse, List.mem_map, List.mem_range, true_and]
    constructor
    · rintro ⟨i, hi, e⟩
      exact ⟨a + i, by omega, by omega, e⟩
    · rintro ⟨n, h1, h2, e⟩
      exact ⟨n - a, by omega, by rw [Nat.add_sub_cancel' h1]; exact e⟩

theorem wp_uvmunmapRound {a k stop : Nat} {do_free : Bool} {Q : Unit → Mem → Prop} (ht : Tables s root) (ha : a < MAXVA / PGSIZE)
    (hstop : a * PGSIZE < stop) (hleaf : IsLeaf (entry s.page root a))
    (hfree : do_free = true → s.Owns (ppn (entry s.page root a)) ∧ ¬ IsTable s.page root (ppn (entry s.page root a)))
    (hset : ∀ t, Entries root s t (update (entry s.page root) a 0) (freed (entry s.page root) a 1 do_free) →
      Wp E (uvmunmapFrom root do_free stop k ((a * PGSIZE + PGSIZE) % 2 ^ 64)) t Q) :
    Wp E (uvmunmapFrom root do_free stop (k + 1) (a * PGSIZE)) s Q := by
  obtain ⟨p, hp⟩ := tableOf_of_valid hleaf.1
  simp only [uvmunmapFrom]
  rw [if_pos hstop]
  simp only [wp_bind]
  refine (wp_walk_find (mul_lt ha)).mono fun r s' ⟨hs, hr⟩ => ?_
  subst hs
  rw [Nat.mul_div_cancel _ (by decide), hp] at hr
  subst hr
  simp only [Option.map_some, wp_bind, wp_pte]
  rw [← entry_of_table hp, if_neg hleaf.1, if_neg hleaf.2, PTE2PA_eq]
  cases do_free with
  | false =>
    simp only [Bool.false_eq_true, if_false, wp_bind, wp_setPte]
    exact hset _ (.set ht hp ha (by decide) rfl rfl rfl)
  | true =>
    obtain ⟨ho, hnt⟩ := hfree rfl
    simp only [if_true, wp_bind, wp_setPte]
    refine (wp_kfree ho).mono fun _ s1 ⟨h1, h2, h3⟩ => ?_
    have hk : Entries root s s1 _ [_] := .kfree ht hnt h1 h2 h3
    have hsame : ∀ p, IsTable s.page root p → s1.page p = s.page p := fun q hq => by
      have hne : q ≠ ppn (entry s.page root a) := fun e => hnt (e ▸ hq)
      rw [h1, update_of_ne hne]
    have hp1 : tableOf s1.page root a = some p := (nodeAt_frame hsame (Nat.le_of_eq (length_indices _ 2))).trans hp
    refine hset _ (.congr (hk.trans (.set hk.tables hp1 ha (by decide : 0 < 2 ^ 64) ?page ?free ?kend))
      fun n hn => update_congr (hk.entries n hn))
    all_goals rfl

theorem wp_uvmunmapFrom {a k stop : Nat} {do_free : Bool} (ht : Tables s root) (ha : a + k ≤ MAXVA / PGSIZE)
    (hstop : stop = (a + k) * PGSIZE) (hleaf : ∀ n, a ≤ n → n < a + k → IsLeaf (entry s.page root n))
    (hfree : ∀ p ∈ freed (entry s.page root) a k do_free, s.Owns p ∧ ¬ IsTable s.page root p) :
    Wp E (uvmunmapFrom root do_free stop k (a * PGSIZE)) s fun _ s' =>
      Entries root s s' (within a k (fun _ => 0) (entry s.page root)) (freed (entry s.page root) a k do_free) := by
  induction k generalizing s a with
  | zero =>
    rw [freed_zero, within_zero]
    exact .same ht rfl rfl rfl
  | succ k ih =>
    have hlt : a * PGSIZE < stop := by
      rw [hstop]
      simp only [PGSIZE]
      omega
    have hnext : (a * PGSIZE + PGSIZE) % 2 ^ 64 = (a + 1) * PGSIZE := by
      simp only [PGSIZE, MAXVA] at *
      omega
    refine wp_uvmunmapRound ht (by omega) hlt (hleaf a (Nat.le_refl a) (by omega)) (fun hd => ?_) fun t hb => ?_
    · exact hfree _ (mem_freed.mpr ⟨hd, a, Nat.le_refl a, by omega, rfl⟩)
    · rw [hnext]
      have he : ∀ n, a + 1 ≤ n → n < a + 1 + k → entry t.page root n = entry s.page root n := fun n h1 h2 => by
        rw [hb.entries n (by omega), update_of_ne (by omega)]
      refine (ih hb.tables (by omega) (by rw [hstop, Nat.add_right_comm]; rfl) (fun n h1 h2 => ?_)
        fun p hp => ?_).mono fun _ s' hb' => ?_
      · rw [he n h1 h2]
        exact hleaf n (by omega) (by omega)
      · obtain ⟨hd, n, h1, h2, e⟩ := mem_freed.mp hp
        rw [he n h1 h2] at e
        rw [hb.tabled, Mem.Owns, hb.kend]
        exact hfree p (mem_freed.mpr ⟨hd, n, by omega, by omega, e⟩)
      · rw [freed_succ, ← freed_congr he]
        exact (hb.trans hb').congr fun n hn => by rw [within_succ, within_congr _ _ (hb.entries n hn)]

theorem wp_uvmunmap {a k : Nat} {do_free : Bool} (ht : Tables s root) (ha : a + k ≤ MAXVA / PGSIZE)
    (hleaf : ∀ n, a ≤ n → n < a + k → IsLeaf (entry s.page root n))
    (hfree : ∀ p ∈ freed (entry s.page root) a k do_free, s.Owns p ∧ ¬ IsTable s.page root p) :
    Wp E (uvmunmap root (a * PGSIZE) k do_free) s fun _ s' =>
      Entries root s s' (within a k (fun _ => 0) (entry s.page root)) (freed (entry s.page root) a k do_free) := by
  have hstop : (a * PGSIZE + k * PGSIZE) % 2 ^ 64 = (a + k) * PGSIZE := by
    simp only [PGSIZE, MAXVA] at *
    omega
  unfold uvmunmap
  rw [if_neg (not_not.mpr (Nat.mul_mod_left ..)), hstop]
  exact wp_uvmunmapFrom ht ha rfl hleaf hfree

/-! ## freewalk -/

/-- A page table of this many levels below `p`, without leaves. -/
structure Bare (s : Mem) (lev p : Nat) : Prop where
  tree : Lib.Tree (next s.page) p lev
  owns : ∀ q, InTree (next s.page) p lev q → s.Owns q
  inner : ∀ l q i, l.length ≤ lev → nodeAt (next s.page) p l = some q → i < 512 → (s.page q).pte i &&& PTE_V ≠ 0 →
    l.length < lev ∧ (s.page q).pte i &&& (PTE_R ||| PTE_W ||| PTE_X) = 0

theorem Bare.child {lev c : Nat} (h : Bare s (lev + 1) p) (hc : next s.page p i = some c) : Bare s lev c := by
  refine ⟨h.tree.child hc, fun q hq => h.owns q (hq.child hc), fun l q k hl hq hk hv => ?_⟩
  have := h.inner (i :: l) q k (by simpa using hl) (by rw [nodeAt_cons, hc]; exact hq) hk hv
  exact ⟨by simpa using this.1, this.2⟩

theorem Bare.frame {lev : Nat} (h : Bare s lev p) (hp : ∀ q, InTree (next s.page) p lev q → s'.page q = s.page q)
    (hk : s'.kend = s.kend) :
    Bare s' lev p ∧ ∀ q, InTree (next s'.page) p lev q ↔ InTree (next s.page) p lev q := by
  have hat : ∀ l, l.length ≤ lev → nodeAt (next s'.page) p l = nodeAt (next s.page) p l := fun l hl =>
    Lib.nodeAt_congr (fun l q _ hl hq => next_congr (hp q ⟨l, by omega, hq⟩)) hl
  refine ⟨⟨h.tree.congr hat, fun q hq => ?_, fun l q i hl hq hi hv => ?_⟩, fun q => Lib.inTree_congr hat⟩
  · rw [Mem.Owns, hk]
    exact h.owns q ((Lib.inTree_congr hat).mp hq)
  · rw [hat l hl] at hq
    rw [hp q ⟨l, hl, hq⟩] at hv ⊢
    exact h.inner l q i hl hq hi hv

/-- The pages of `S` have gone to the free list, each once, and no other has changed. -/
structure Freed (S : Nat → Prop) (s s' : Mem) : Prop where
  kend : s'.kend = s.kend
  free : ∃ l, s'.free = l ++ s.free ∧ l.Nodup ∧ ∀ q, q ∈ l ↔ S q
  others : ∀ q, ¬ S q → s'.page q = s.page q

theorem Freed.ok {S : Nat → Prop} (h : Freed S s s') (hok : s.Ok) (ho : ∀ q, S q → s.Owns q ∧ q ∉ s.free) : s'.Ok := by
  obtain ⟨l, hl, hnd, hS⟩ := h.free
  constructor
  · rw [hl]
    exact List.nodup_append.mpr ⟨hnd, hok.nodup, fun p hp q hq e => (ho p ((hS p).mp hp)).2 (e ▸ hq)⟩
  · intro q hq
    rw [hl, List.mem_append] at hq
    rw [Mem.Owns, h.kend]
    exact hq.elim (fun hq => (ho q ((hS q).mp hq)).1) (hok.owns q)

/-- In the subtree of one of the first `n` entries. -/
def Below (m : Nat → Page) (lev p n q : Nat) : Prop :=
  ∃ k c i, lev = k + 1 ∧ i < n ∧ next m p i = some c ∧ InTree (next m) c k q

theorem inTree_iff_below {m : Nat → Page} {lev : Nat} : InTree (next m) p lev q ↔ q = p ∨ Below m lev p 512 q := by
  cases lev with
  | zero =>
    rw [Lib.inTree_zero]
    refine (or_iff_left ?_).symm
    rintro ⟨k, _, _, e, _⟩
    cases e
  | succ k =>
    rw [Lib.inTree_succ]
    refine or_congr_right ⟨?_, ?_⟩
    · rintro ⟨i, c, hc, hq⟩
      exact ⟨k, c, i, rfl, (next_eq_some.mp hc).1, hc, hq⟩
    · rintro ⟨_, c, i, e, _, hc, hq⟩
      cases e
      exact ⟨i, c, hc, hq⟩

/-- What the loop of `freewalk` has done after `n` entries. -/
structure Walked (s : Mem) (lev p n : Nat) (t : Mem) : Prop where
  kend : t.kend = s.kend
  free : ∃ l, t.free = l ++ s.free ∧ l.Nodup ∧ ∀ q, q ∈ l ↔ Below s.page lev p n q
  others : ∀ q, q ≠ p → ¬ Below s.page lev p n q → t.page q = s.page q
  rest : ∀ i, n ≤ i → (t.page p).pte i = (s.page p).pte i

theorem Walked.skip {lev : Nat} (h : Walked s lev p n t) (hn : next s.page p n = none) : Walked s lev p (n + 1) t := by
  have hb : ∀ q, Below s.page lev p (n + 1) q ↔ Below s.page lev p n q := fun q => by
    constructor
    · rintro ⟨k, c, i, e, hi, hc, hq⟩
      refine ⟨k, c, i, e, ?_, hc, hq⟩
      rcases Nat.lt_succ_iff_lt_or_eq.mp hi with hi | rfl
      · exact hi
      · rw [hn] at hc
        cases hc
    · rintro ⟨k, c, i, e, hi, hc, hq⟩
      exact ⟨k, c, i, e, by omega, hc, hq⟩
  obtain ⟨l, hl, hnd, hS⟩ := h.free
  exact ⟨h.kend, ⟨l, hl, hnd, fun q => (hS q).trans (hb q).symm⟩, fun q hq hnb => h.others q hq fun hc => hnb ((hb q).mpr hc),
    fun i hi => h.rest i (by omega)⟩

theorem below_succ {m : Nat → Page} {k c : Nat} (hn : next m p n = some c) :
    Below m (k + 1) p (n + 1) q ↔ Below m (k + 1) p n q ∨ InTree (next m) c k q := by
  constructor
  · rintro ⟨_, c', i, e, hi, hc, hq⟩
    cases e
    rcases Nat.lt_succ_iff_lt_or_eq.mp hi with hi | rfl
    · exact .inl ⟨k, c', i, rfl, hi, hc, hq⟩
    · rw [hn] at hc
      cases hc
      exact .inr hq
  · rintro (⟨_, c', i, e, hi, hc, hq⟩ | hq)
    · exact ⟨_, c', i, e, by omega, hc, hq⟩
    · exact ⟨k, c, n, rfl, by omega, hn, hq⟩

theorem Bare.apart {k c : Nat} (h : Bare s (k + 1) p) (hc : next s.page p n = some c) (hq : InTree (next s.page) c k q) :
    q ≠ p ∧ ¬ Below s.page (k + 1) p n q := by
  constructor
  · rintro rfl
    exact h.tree.root_not_below hc hq
  · rintro ⟨_, c', i, e, hi, hc', hq'⟩
    cases e
    have := h.tree.children_apart hc hc' hq hq'
    omega

theorem Walked.child {k c : Nat} {u : Mem} (hbare : Bare s (k + 1) p) (h : Walked s (k + 1) p n t) (hc : next s.page p n = some c)
    (hf : Freed (InTree (next s.page) c k) t u) (hs : s'.page = update u.page p ((u.page p).setPte n 0))
    (hfree : s'.free = u.free) (hk : s'.kend = u.kend) : Walked s (k + 1) p (n + 1) s' := by
  obtain ⟨l, hl, hnd, hS⟩ := h.free
  obtain ⟨l', hl', hnd', hS'⟩ := hf.free
  refine ⟨hk.trans (hf.kend.trans h.kend), ⟨l' ++ l, by rw [hfree, hl', hl, List.append_assoc], ?_, fun q => ?_⟩,
    fun q hqp hq => ?_,
    fun i hi => ?_⟩
  · refine List.nodup_append.mpr ⟨hnd', hnd, fun a ha b hb e => ?_⟩
    subst e
    exact (hbare.apart hc ((hS' a).mp ha)).2 ((hS a).mp hb)
  · rw [List.mem_append, hS', hS, below_succ hc]
    exact or_comm
  · rw [below_succ hc, not_or] at hq
    rw [hs, update_of_ne hqp, hf.others q hq.2, h.others q hqp hq.1]
  · have hp : ¬ InTree (next s.page) c k p := fun hc' => (hbare.apart hc hc').1 rfl
    rw [hs, update_self, Page.pte_setPte_of_ne _ _ (by omega), hf.others p hp, h.rest i (by omega)]

theorem wp_freewalkTable {lev : Nat} (h : Bare s lev p)
    (hbelow : ∀ k c t, lev = k + 1 → Bare t k c → Wp E (freewalk lev c) t fun _ u => Freed (InTree (next t.page) c k) t u) :
    Wp E (freewalk (lev + 1) p) s fun _ s' => Freed (InTree (next s.page) p lev) s s' := by
  rw [freewalk]
  simp only [wp_bind]
  refine Wp.mono (Lib.wp_forFrom (Walked s lev p) ?start fun n t _ hn hw => ?round) fun _ t hw => ?stop
  case start =>
    have hnone : ∀ q, ¬ Below s.page lev p 0 q := fun q ⟨_, _, _, _, hi, _⟩ => Nat.not_lt_zero _ hi
    exact ⟨rfl, ⟨[], rfl, .nil, fun q => iff_of_false List.not_mem_nil (hnone q)⟩, fun _ _ _ => rfl, fun _ _ => rfl⟩
  case round =>
    simp only [wp_bind, wp_pte]
    rw [hw.rest n (Nat.le_refl n)]
    by_cases hv : (s.page p).pte n &&& PTE_V ≠ 0
    · -- the entry points to a table
      obtain ⟨hlev, hrwx⟩ := h.inner [] p n (Nat.zero_le _) rfl (by omega) hv
      obtain ⟨k, rfl⟩ := Nat.exists_eq_add_of_lt hlev
      rw [List.length_nil, Nat.zero_add] at *
      have hc : next s.page p n = some (ppn ((s.page p).pte n)) := next_eq_some.mpr ⟨by omega, hv, rfl⟩
      obtain ⟨hbare, hin⟩ := (h.child hc).frame (fun q hq => hw.others q (h.apart hc hq).1 (h.apart hc hq).2) hw.kend
      rw [if_pos ⟨hv, hrwx⟩]
      simp only [wp_bind, wp_setPte]
      refine (hbelow k _ t rfl hbare).mono fun _ u hf => ?_
      rw [funext fun q => propext (hin q)] at hf
      exact .child h hw hc hf rfl rfl rfl
    · rw [if_neg fun hc => hv hc.1, if_neg hv]
      refine hw.skip ?_
      rw [next, if_neg fun hc => hv hc.2]
  case stop =>
    have howns : t.Owns p := by
      rw [Mem.Owns, hw.kend]
      exact h.owns p Lib.inTree_self
    refine (wp_kfree howns).mono fun _ s' hs => ?_
    obtain ⟨l, hl, hnd, hS⟩ := hw.free
    have hp : p ∉ l := fun hc => by
      obtain ⟨k, c, i, rfl, _, hc, hq⟩ := (hS p).mp hc
      exact h.tree.root_not_below hc hq
    refine ⟨hs.2.2.trans hw.kend, ⟨p :: l, by rw [hs.2.1, hl]; rfl, List.nodup_cons.mpr ⟨hp, hnd⟩, fun q => ?_⟩, fun q hq => ?_⟩
    · rw [List.mem_cons, hS, inTree_iff_below]
    · rw [inTree_iff_below, not_or] at hq
      rw [hs.1, update_of_ne hq.1]
      exact hw.others q hq.1 hq.2

theorem wp_freewalk {lev : Nat} (h : Bare s lev p) :
    Wp E (freewalk (lev + 1) p) s fun _ s' => Freed (InTree (next s.page) p lev) s s' := by
  induction lev generalizing s p with
  | zero => exact wp_freewalkTable h fun _ _ _ e => nomatch e
  | succ lev ih =>
    refine wp_freewalkTable h fun k c t e hb => ?_
    cases e
    exact ih hb

theorem Tables.page_of_place (h : Tables s root) (hl : l.length = 2) (hq : nodeAt (next s.page) root l = some q) (hi : i < 512) :
    ∃ n < MAXVA / PGSIZE, entry s.page root n = (s.page q).pte i := by
  match l, hl with
  | [a, b], _ =>
    rw [nodeAt_cons, Option.bind_eq_some_iff] at hq
    obtain ⟨p, hp, hq⟩ := hq
    have ha : a < 256 := h.low a (by rw [hp]; exact Option.some_ne_none p)
    have hb : b < 512 := by
      rw [nodeAt_cons, Option.bind_eq_some_iff] at hq
      obtain ⟨_, hb, _⟩ := hq
      exact (next_eq_some.mp hb).1
    have hidx : indices ((a * 512 ^ 2 + b * 512 + i) * PGSIZE) 2 = [a, b] ∧ PX 0 ((a * 512 ^ 2 + b * 512 + i) * PGSIZE) = i := by
      simp only [indices, PX_page, List.cons.injEq, and_true]
      omega
    refine ⟨a * 512 ^ 2 + b * 512 + i, by simp only [MAXVA, PGSIZE]; omega, ?_⟩
    have ht : tableOf s.page root (a * 512 ^ 2 + b * 512 + i) = some q := by
      rw [tableOf, hidx.1, nodeAt_cons, hp]
      exact hq
    rw [entry_of_table ht, hidx.2]

theorem Tables.bare (h : Tables s root) (hno : ∀ n < MAXVA / PGSIZE, entry s.page root n &&& PTE_V = 0) : Bare s 2 root := by
  refine ⟨h.tree, h.owns, fun l q i hl hq hi hv => ?_⟩
  by_cases h2 : l.length = 2
  · obtain ⟨n, hn, he⟩ := h.page_of_place h2 hq hi
    exact absurd (he ▸ hno n hn) hv
  · exact ⟨by omega, h.inner q i ⟨l, by omega, hq⟩ hi hv⟩

end Xv6.Vm
