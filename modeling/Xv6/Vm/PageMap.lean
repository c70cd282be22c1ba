/-
  Xv6.Vm.PageMap — a three-level page table refines a map from page numbers to physical pages
  with flags.

  `mapping` is the map that a page table stands for. Its tables form a tree of distinct pages, and
  stay one whatever calls of `kalloc` fail, so that `freewalk`, once nothing is mapped, puts each
  table on the free list once. A mapping with no flag besides `PTE_V` can be made but not removed.
-/

import Xv6.Vm.MapSpecs
import Mathlib.Data.List.Nodup

namespace Xv6.Vm

abbrev PageMap := Nat → Option (Nat × Nat)

/-- What an entry maps its page to. -/
def decode (e : Nat) : Option (Nat × Nat) := if e &&& PTE_V ≠ 0 then some (ppn e, PTE_FLAGS e) else none

def mapping (m : Nat → Page) (root : Nat) : PageMap := fun n => if n < MAXVA / PGSIZE then decode (entry m root n) else none

/-- `k` pages from `a` on are mapped to those from `pa` on. -/
def PageMap.add (f : PageMap) (a k pa perm : Nat) : PageMap := fun n =>
  if a ≤ n ∧ n < a + k then some ((pa + (n - a) * PGSIZE) % 2 ^ 64 / PGSIZE, perm ||| PTE_V) else f n

def PageMap.remove (f : PageMap) (a k : Nat) : PageMap := fun n => if a ≤ n ∧ n < a + k then none else f n

variable {s s' : Mem} {root n : Nat} {f : Nat → Nat}

theorem decode_eq_none {e : Nat} : decode e = none ↔ e &&& PTE_V = 0 := by
  unfold decode
  split
  · rename_i h
    exact iff_of_false (fun e => nomatch e) h
  · rename_i h
    exact iff_of_true rfl (not_not.mp h)

theorem decode_eq_some {e p f : Nat} : decode e = some (p, f) ↔ e &&& PTE_V ≠ 0 ∧ ppn e = p ∧ PTE_FLAGS e = f := by
  unfold decode
  split
  · rename_i h
    rw [Option.some.injEq, Prod.mk.injEq]
    exact (and_iff_right h).symm
  · rename_i h
    exact iff_of_false (fun e => nomatch e) fun e => h e.1

theorem mapping_of_lt {m : Nat → Page} (hn : n < MAXVA / PGSIZE) : mapping m root n = decode (entry m root n) := if_pos hn

theorem mapping_of_ge {m : Nat → Page} (hn : ¬ n < MAXVA / PGSIZE) : mapping m root n = none := if_neg hn

theorem mapping_congr {m m' : Nat → Page} (h : ∀ n < MAXVA / PGSIZE, entry m' root n = entry m root n) :
    mapping m' root = mapping m root := by
  funext n
  by_cases hn : n < MAXVA / PGSIZE
  · rw [mapping_of_lt hn, mapping_of_lt hn, h n hn]
  · rw [mapping_of_ge hn, mapping_of_ge hn]

theorem isPte_leaf {pa perm i : Nat} (hperm : perm < 1024) : IsPte (leaf pa perm i)
    ((pa + i * PGSIZE) % 2 ^ 64 / PGSIZE) perm := by
  have hp : PA2PTE ((pa + i * PGSIZE) % 2 ^ 64) = PA2PTE ((pa + i * PGSIZE) % 2 ^ 64 / PGSIZE * PGSIZE) := by
    rw [PA2PTE_eq, PA2PTE, Nat.shiftLeft_eq, Nat.shiftRight_eq_div_pow, Nat.mul_comm]
    rfl
  rw [leaf, hp]
  exact isPte (Nat.div_lt_of_lt_mul (Nat.mod_lt _ (by decide))) hperm

theorem mapping_add {a k pa perm : Nat} (hk : a + k ≤ MAXVA / PGSIZE) (hperm : perm < 1024)
    (h : ∀ n < MAXVA / PGSIZE, entry s'.page root n = within a k (leaf pa perm) (entry s.page root) n) :
    mapping s'.page root = (mapping s.page root).add a k pa perm := by
  funext n
  unfold PageMap.add
  by_cases hin : a ≤ n ∧ n < a + k
  · have hpte : IsPte (leaf pa perm (n - a)) _ perm := isPte_leaf hperm
    rw [if_pos hin, mapping_of_lt (by omega), h n (by omega), within, if_pos hin]
    exact decode_eq_some.mpr ⟨hpte.valid, hpte.ppn, hpte.flags⟩
  · rw [if_neg hin]
    by_cases hn : n < MAXVA / PGSIZE
    · rw [mapping_of_lt hn, mapping_of_lt hn, h n hn, within, if_neg hin]
    · rw [mapping_of_ge hn, mapping_of_ge hn]

theorem mapping_remove {a k : Nat}
    (h : ∀ n < MAXVA / PGSIZE, entry s'.page root n = within a k (fun _ => 0) (entry s.page root) n) :
    mapping s'.page root = (mapping s.page root).remove a k := by
  funext n
  unfold PageMap.remove
  by_cases hn : n < MAXVA / PGSIZE
  · rw [mapping_of_lt hn, mapping_of_lt hn, h n hn, within]
    by_cases hin : a ≤ n ∧ n < a + k
    · rw [if_pos hin, if_pos hin]
      exact decode_eq_none.mpr (Nat.zero_and _)
    · rw [if_neg hin, if_neg hin]
  · rw [mapping_of_ge hn, mapping_of_ge hn, ite_self]

/-- What holds of a page table: its tables form a tree of pages that are not free. -/
structure IsPageTable (s : Mem) (root : Nat) : Prop where
  ok : s.Ok
  tables : Tables s root

/-- With `do_free` the pages go back to the kernel, so it must own them, and nothing else use them. -/
structure Freeable (s : Mem) (root a k : Nat) : Prop where
  owns : ∀ n, a ≤ n → n < a + k → ∀ p f, mapping s.page root n = some (p, f) → s.Owns p ∧ p ∉ s.free ∧ ¬ IsTable s.page root p
  inj : ∀ n n', a ≤ n → n < a + k → a ≤ n' → n' < a + k → ∀ p f f', mapping s.page root n = some (p, f) →
    mapping s.page root n' = some (p, f') → n = n'

theorem freed_nodup {a k : Nat} {do_free : Bool} (hinj : ∀ n n', a ≤ n → n < a + k → a ≤ n' → n' < a + k →
      ppn (f n) = ppn (f n') → n = n') :
    (freed f a k do_free).Nodup := by
  cases do_free with
  | false => exact .nil
  | true =>
    unfold freed
    rw [if_pos rfl, List.nodup_reverse]
    refine (List.nodup_map_iff_inj_on List.nodup_range).mpr fun i hi j hj e => ?_
    rw [List.mem_range] at hi hj
    have := hinj _ _ (Nat.le_add_right a i) (Nat.add_lt_add_left hi a) (Nat.le_add_right a j) (Nat.add_lt_add_left hj a) e
    omega

structure RefinesMap (s : Mem) (root : Nat) : Prop where
  /-- `walk` without `alloc`. -/
  walk_find : ∀ va < MAXVA, ∃ r, walk root va false s = .ok (r, s) ∧ (r = none → mapping s.page root (va / PGSIZE) = none) ∧
    ∀ p i, r = some (p, i) → (s.page p).pte i = entry s.page root (va / PGSIZE)
  walk_alloc : ∀ va < MAXVA, Lib.Wp (fun _ => False) (walk root va true) s fun r s' => IsPageTable s' root ∧
    mapping s'.page root = mapping s.page root ∧ ∀ e, r = some e → walk root va false s' = .ok (some e, s')
  /-- The entries of different pages are different. -/
  same_entry : ∀ va < MAXVA, ∀ va' < MAXVA, ∀ e e', walk root va false s = .ok (some e, s) →
    walk root va' false s = .ok (some e', s) →
    (e = e' ↔ va / PGSIZE = va' / PGSIZE)
  map : ∀ a k pa perm, a + k ≤ MAXVA / PGSIZE → pa < 2 ^ 64 → perm < 1024 →
    Lib.Wp (fun e => e = .mappagesZero ∧ k = 0 ∨ e = .remap ∧ ∃ n, a ≤ n ∧ n < a + k ∧ mapping s.page root n ≠ none)
      (mappages root (a * PGSIZE) (k * PGSIZE) pa perm) s fun r s' => IsPageTable s' root ∧
        ∃ j, (r = 0 ∧ j = k ∨ r = -1 ∧ j < k) ∧ mapping s'.page root = (mapping s.page root).add a j pa perm
  unmap : ∀ a k do_free, a + k ≤ MAXVA / PGSIZE →
    (∀ n, a ≤ n → n < a + k → ∃ p f, mapping s.page root n = some (p, f) ∧ f ≠ PTE_V) →
    (do_free = true → Freeable s root a k) →
    Lib.Wp (fun _ => False) (uvmunmap root (a * PGSIZE) k do_free) s fun _ s' => IsPageTable s' root ∧
      mapping s'.page root = (mapping s.page root).remove a k
  /-- Each table goes to the free list once. -/
  free : (∀ n, mapping s.page root n = none) → Lib.Wp (fun _ => False) (freewalk 3 root) s fun _ s' => s'.Ok ∧
    ∃ l, s'.free = l ++ s.free ∧ l.Nodup ∧ ∀ p, p ∈ l ↔ IsTable s.page root p

theorem Became.isPageTable (h : Became root s s' f) : IsPageTable s' root := ⟨h.ok, h.tables⟩

theorem walk_find {va : Nat} (hva : va < MAXVA) :
    walk root va false s = .ok ((tableOf s.page root (va / PGSIZE)).map fun q => (q, PX 0 va), s) := by
  obtain ⟨r, s', hrun, rfl, rfl⟩ := (wp_walk_find (E := fun _ => False) hva).returns
  exact hrun

section

variable (h : IsPageTable s root)
include h

theorem IsPageTable.same_entry {va va' : Nat} {e e' : Nat × Nat} (hva : va < MAXVA) (hva' : va' < MAXVA)
    (he : walk root va false s = .ok (some e, s)) (he' : walk root va' false s = .ok (some e', s)) :
    e = e' ↔ va / PGSIZE = va' / PGSIZE := by
  rw [walk_find hva, Except.ok.injEq, Prod.mk.injEq, Option.map_eq_some_iff] at he
  rw [walk_find hva', Except.ok.injEq, Prod.mk.injEq, Option.map_eq_some_iff] at he'
  obtain ⟨⟨p, hp, rfl⟩, -⟩ := he
  obtain ⟨⟨p', hp', rfl⟩, -⟩ := he'
  constructor
  · intro heq
    obtain ⟨rfl, hi⟩ := Prod.mk.inj heq
    -- one table is at one place
    have hl := h.tables.tree _ _ p (Nat.le_of_eq (length_indices _ 2)) (Nat.le_of_eq (length_indices _ 2)) hp hp'
    refine page_inj (page_lt hva) (page_lt hva') hl ?_
    rwa [← PX_page_of_va, ← PX_page_of_va]
  · intro hn
    rw [← hn, hp] at hp'
    cases hp'
    rw [PX_page_of_va 0 va, PX_page_of_va 0 va', hn]

theorem IsPageTable.walk_alloc {va : Nat} (hva : va < MAXVA) :
    Lib.Wp (fun _ => False) (walk root va true) s fun r s' => IsPageTable s' root ∧
      mapping s'.page root = mapping s.page root ∧ ∀ e, r = some e → walk root va false s' = .ok (some e, s') := by
  refine (wp_walk_alloc h.ok h.tables hva).mono fun r s' ⟨hb, hr⟩ => ⟨hb.isPageTable, mapping_congr hb.entries, fun e he => ?_⟩
  rcases hr with rfl | ⟨q, rfl, hq⟩
  · cases he
  · cases he
    rw [walk_find hva, hq]
    rfl

theorem IsPageTable.map {a k pa perm : Nat} (hk : a + k ≤ MAXVA / PGSIZE) (hpa : pa < 2 ^ 64) (hperm : perm < 1024) :
    Lib.Wp (fun e => e = .mappagesZero ∧ k = 0 ∨ e = .remap ∧ ∃ n, a ≤ n ∧ n < a + k ∧ mapping s.page root n ≠ none)
      (mappages root (a * PGSIZE) (k * PGSIZE) pa perm) s fun r s' => IsPageTable s' root ∧
        ∃ j, (r = 0 ∧ j = k ∨ r = -1 ∧ j < k) ∧ mapping s'.page root = (mapping s.page root).add a j pa perm := by
  rcases Nat.eq_zero_or_pos k with rfl | hpos
  · unfold mappages
    rw [if_neg (not_not.mpr (Nat.mul_mod_left ..)), Nat.zero_mul, if_neg (not_not.mpr (Nat.zero_mod _)), if_pos rfl]
    exact .inl ⟨rfl, rfl⟩
  · refine (wp_mappages h.ok h.tables hpos hk (by omega) hpa ?_).mono ?_
    · rintro ⟨n, h1, h2, hv⟩
      refine .inr ⟨rfl, n, h1, h2, fun hc => ?_⟩
      rw [mapping_of_lt (by omega), decode_eq_none] at hc
      exact hv hc
    · rintro r s' ⟨j, hj, hb⟩
      refine ⟨hb.isPageTable, j, hj, mapping_add ?_ hperm hb.entries⟩
      rcases hj with ⟨-, rfl⟩ | ⟨-, hj⟩ <;> omega

theorem IsPageTable.unmap {a k : Nat} {do_free : Bool} (hk : a + k ≤ MAXVA / PGSIZE)
    (hmap : ∀ n, a ≤ n → n < a + k → ∃ p f, mapping s.page root n = some (p, f) ∧ f ≠ PTE_V)
    (hfree : do_free = true → Freeable s root a k) :
    Lib.Wp (fun _ => False) (uvmunmap root (a * PGSIZE) k do_free) s fun _ s' => IsPageTable s' root ∧
      mapping s'.page root = (mapping s.page root).remove a k := by
  have hleaf : ∀ n, a ≤ n → n < a + k → IsLeaf (entry s.page root n) := fun n h1 h2 => by
    obtain ⟨p, f, hm, hf⟩ := hmap n h1 h2
    rw [mapping_of_lt (by omega), decode_eq_some] at hm
    exact ⟨hm.1, by rw [hm.2.2]; exact hf⟩
  have hat : ∀ n, a ≤ n → n < a + k → mapping s.page root n = some (ppn (entry s.page root n), PTE_FLAGS (entry s.page root n)) :=
    fun n h1 h2 => by
      rw [mapping_of_lt (by omega)]
      exact decode_eq_some.mpr ⟨(hleaf n h1 h2).1, rfl, rfl⟩
  have howns : ∀ p ∈ freed (entry s.page root) a k do_free, s.Owns p ∧ p ∉ s.free ∧ ¬ IsTable s.page root p := fun p hp => by
    obtain ⟨hd, n, h1, h2, rfl⟩ := mem_freed.mp hp
    exact (hfree hd).owns n h1 h2 _ _ (hat n h1 h2)
  refine (wp_uvmunmap h.tables hk hleaf fun p hp => ⟨(howns p hp).1, (howns p hp).2.2⟩).mono fun _ s' hb => ?_
  refine ⟨⟨hb.ok h.ok ?_ fun p hp => ⟨(howns p hp).1, (howns p hp).2.1⟩, hb.tables⟩, mapping_remove hb.entries⟩
  cases do_free with
  | false => exact .nil
  | true =>
    refine freed_nodup fun n n' h1 h2 h1' h2' e => ?_
    exact (hfree rfl).inj n n' h1 h2 h1' h2' _ _ _ (hat n h1 h2) (by rw [e]; exact hat n' h1' h2')

theorem IsPageTable.free (hno : ∀ n, mapping s.page root n = none) :
    Lib.Wp (fun _ => False) (freewalk 3 root) s fun _ s' => s'.Ok ∧
      ∃ l, s'.free = l ++ s.free ∧ l.Nodup ∧ ∀ p, p ∈ l ↔ IsTable s.page root p := by
  have hbare : Bare s 2 root := h.tables.bare fun n hn => by
    have := hno n
    rwa [mapping_of_lt hn, decode_eq_none] at this
  refine (wp_freewalk hbare).mono fun _ s' hf => ?_
  have hok : s'.Ok := hf.ok h.ok fun q hq => ⟨h.tables.owns q hq, h.tables.used q hq⟩
  exact ⟨hok, hf.free⟩

end

/-- A page table refines a map. -/
theorem page_table_refines (h : IsPageTable s root) : RefinesMap s root where
  walk_find va hva := by
    refine ⟨_, walk_find hva, fun hr => ?_, fun p i hr => ?_⟩
    · rw [Option.map_eq_none_iff] at hr
      rw [mapping_of_lt (page_lt hva), decode_eq_none, entry_of_none hr, Nat.zero_and]
    · obtain ⟨q, hq, e⟩ := Option.map_eq_some_iff.mp hr
      cases e
      rw [entry_of_table hq, ← PX_page_of_va]
  walk_alloc va hva := h.walk_alloc hva
  same_entry va hva va' hva' e e' := h.same_entry hva hva'
  map a k pa perm := h.map
  unmap a k do_free := h.unmap
  free := h.free

/-! ## A small memory -/

theorem nodeAt_empty {m : Nat → Page} {l : List Nat} {q : Nat} (hp : m root = fun _ => 0)
    (h : Lib.nodeAt (next m) root l = some q) :
    l = [] ∧ q = root := by
  cases l with
  | nil => exact ⟨rfl, (Option.some.inj h).symm⟩
  | cons i l =>
    rw [Lib.nodeAt_cons, next, hp, Page.pte_zero, Nat.zero_and, if_neg fun hc => hc.2 rfl] at h
    cases h

theorem entry_empty {m : Nat → Page} (hp : m root = fun _ => 0) (n : Nat) : entry m root n = 0 := by
  cases h : tableOf m root n with
  | none => exact entry_of_none h
  | some q =>
    have := congrArg List.length (nodeAt_empty hp h).1
    rw [length_indices] at this
    cases this

theorem Tables.empty (hp : s.page root = fun _ => 0) (ho : s.Owns root) (hf : root ∉ s.free) : Tables s root := by
  have hat : ∀ {l q}, Lib.nodeAt (next s.page) root l = some q → l = [] ∧ q = root := nodeAt_empty hp
  have hnext : ∀ i, next s.page root i = none := fun i => by
    rw [next, hp, Page.pte_zero, Nat.zero_and, if_neg fun hc => hc.2 rfl]
  refine ⟨fun l l' q _ _ h h' => (hat h).1.trans (hat h').1.symm, ?_, ?_, ?_, fun i h => absurd (hnext i) h⟩
  · rintro q ⟨l, _, h⟩
    rw [(hat h).2]
    exact hf
  · rintro q ⟨l, _, h⟩
    rw [(hat h).2]
    exact ho
  · rintro q i ⟨l, _, h⟩ _ hv
    rw [(hat h).2, hp, Page.pte_zero] at hv
    exact absurd (Nat.zero_and _) hv

/-- Four pages, of which three are free and one is an empty page table. -/
def tiny : Mem := ⟨fun _ _ => 0, [524289, 524290, 524291], KERNBASE, fun _ => false⟩

def tinyRoot : Nat := 524288

theorem tiny_isPageTable : IsPageTable tiny tinyRoot :=
  ⟨⟨by decide, by decide⟩, .empty rfl (by decide) (by decide)⟩

theorem page_table_refines_tiny : RefinesMap tiny tinyRoot := page_table_refines tiny_isPageTable

/-- Page 0 is mapped with these flags: what it is mapped to, and how `uvmunmap` of it ends. -/
def tinyUnmap (perm : Nat) : Option (Int × Option (Nat × Nat) × Option Panic) :=
  match mappages tinyRoot 0 PGSIZE KERNBASE perm tiny with
  | .ok (r, s') => some (r, mapping s'.page tinyRoot 0, match uvmunmap tinyRoot 0 1 false s' with
    | .ok _ => none
    | .error e => some e)
  | .error _ => none

/-- Without flags the entry is no leaf to `uvmunmap`. -/
theorem unmap_without_flags : IsPageTable tiny tinyRoot ∧ tinyUnmap 0 = some (0, some (tinyRoot, PTE_V), some .notLeaf) :=
  ⟨tiny_isPageTable, by decide +kernel⟩

example : tinyUnmap PTE_R = some (0, some (tinyRoot, PTE_R ||| PTE_V), none) := by decide +kernel

end Xv6.Vm
