/-
  Xv6.Vm.Copy — `copyout`, `copyin` and `copyinstr` against user memory.

  User memory is bytes at virtual addresses (`user`); an address is readable when its page is
  below `MAXVA` and mapped with `PTE_V` and `PTE_U`, and writable with `PTE_W` besides. A round of
  the loops is a chunk of one page (`Chunk`).
-/

import Xv6.Vm.PageMap

namespace Xv6.Vm

open Lib (Wp wp_bind wp_ite wp_get)

variable {E : Panic → Prop} {m : Nat → Page} {s s' : Mem} {root va len max a : Nat}

/-! ## User memory -/

def phys (m : Nat → Page) (root a : Nat) : Nat × Nat := (ppn (entry m root (a / PGSIZE)), a % PGSIZE)

def user (m : Nat → Page) (root a : Nat) : UInt8 := m (phys m root a).1 (phys m root a).2

def Readable (m : Nat → Page) (root a : Nat) : Prop :=
  a < MAXVA ∧ entry m root (a / PGSIZE) &&& PTE_V ≠ 0 ∧ entry m root (a / PGSIZE) &&& PTE_U ≠ 0

def Writable (m : Nat → Page) (root a : Nat) : Prop := Readable m root a ∧ entry m root (a / PGSIZE) &&& PTE_W ≠ 0

instance : Decidable (Readable m root a) := inferInstanceAs (Decidable (_ ∧ _))
instance : Decidable (Writable m root a) := inferInstanceAs (Decidable (_ ∧ _))

theorem lt_MAXVA_iff (a : Nat) : a < MAXVA ↔ a / PGSIZE < MAXVA / PGSIZE := by
  simp only [MAXVA, PGSIZE]
  omega

theorem readable_page {a' : Nat} (h : a / PGSIZE = a' / PGSIZE) : Readable m root a ↔ Readable m root a' := by
  rw [Readable, Readable, lt_MAXVA_iff, h, ← lt_MAXVA_iff]

theorem writable_page {a' : Nat} (h : a / PGSIZE = a' / PGSIZE) : Writable m root a ↔ Writable m root a' := by
  rw [Writable, Writable, readable_page h, h]

/-- A round copies `n` of the `len` bytes that are left, all of one page. -/
structure Chunk (va len n : Nat) : Prop where
  pos : 0 < n
  le : n ≤ len
  page : ∀ j < n, (va + j) / PGSIZE = va / PGSIZE
  offset : ∀ j < n, (va + j) % PGSIZE = va - PGROUNDDOWN va + j
  next : va < MAXVA → len - n = 0 ∨ (PGROUNDDOWN va + PGSIZE) % 2 ^ 64 = va + n

theorem chunk (va : Nat) (hlen : 0 < len) : Chunk va len (min (PGSIZE - (va - PGROUNDDOWN va)) len) := by
  simp only [PGROUNDDOWN, PGSIZE]
  refine ⟨by omega, by omega, fun j hj => ?_, fun j hj => ?_, fun hva => ?_⟩
  · simp only [PGSIZE]
    omega
  · simp only [PGSIZE, PGROUNDDOWN]
    omega
  · simp only [PGSIZE, PGROUNDDOWN, MAXVA] at *
    omega

theorem down_page (va : Nat) : PGROUNDDOWN va / PGSIZE = va / PGSIZE := Nat.mul_div_cancel _ (by decide)

/-- No readable page is at physical address 0. -/
def Nonzero (m : Nat → Page) (root : Nat) : Prop := ∀ a, Readable m root a → (phys m root a).1 ≠ 0

theorem wp_walkaddr : Wp E (walkaddr root va) s fun r s' =>
    s = s' ∧ r = if Readable s.page root va then ppn (entry s.page root (va / PGSIZE)) * PGSIZE else 0 := by
  unfold walkaddr
  refine wp_ite (fun hva => ?_) fun hva => ?_
  · rw [if_neg fun hc => Nat.not_lt.mpr hva hc.1]
    exact ⟨rfl, rfl⟩
  · simp only [wp_bind]
    refine (wp_walk_find (Nat.not_le.mp hva)).mono fun r s' ⟨hs, hr⟩ => ?_
    subst hs
    cases hp : tableOf s.page root (va / PGSIZE) with
    | none =>
      rw [hp] at hr
      subst hr
      rw [if_neg fun hc => hc.2.1 (by rw [entry_of_none hp, Nat.zero_and])]
      exact ⟨rfl, rfl⟩
    | some p =>
      rw [hp] at hr
      subst hr
      simp only [Option.map_some, wp_bind, wp_pte]
      rw [PX_page_of_va, ← entry_of_table hp]
      refine wp_ite (fun hv => ?_) fun hv => wp_ite (fun hu => ?_) fun hu => ?_
      · rw [if_neg fun hc => hc.2.1 hv]
        exact ⟨rfl, rfl⟩
      · rw [if_neg fun hc => hc.2.2 hu]
        exact ⟨rfl, rfl⟩
      · rw [if_pos ⟨Nat.not_le.mp hva, hv, hu⟩, PTE2PA_eq]
        exact ⟨rfl, rfl⟩

theorem wp_walkaddr_down (h0 : Nonzero s.page root) : Wp E (walkaddr root (PGROUNDDOWN va)) s fun r s' => s = s' ∧
    (Readable s.page root va ∧ r ≠ 0 ∧ r / PGSIZE = ppn (entry s.page root (va / PGSIZE)) ∨ ¬ Readable s.page root va ∧
      r = 0) := by
  refine wp_walkaddr.mono fun r s' ⟨hs, hr⟩ => ⟨hs, ?_⟩
  rw [down_page] at hr
  by_cases hread : Readable s.page root va
  · have hne : ppn (entry s.page root (va / PGSIZE)) ≠ 0 := h0 va hread
    rw [if_pos ((readable_page (down_page va)).mpr hread)] at hr
    subst hr
    exact .inl ⟨hread, Nat.mul_ne_zero hne (by decide), Nat.mul_div_cancel _ (by decide)⟩
  · rw [if_neg fun hc => hread ((readable_page (down_page va)).mp hc)] at hr
    exact .inr ⟨hread, hr⟩

/-! ## copyin -/

def bytes (m : Nat → Page) (root va len : Nat) : List UInt8 := (List.range len).map fun j => user m root (va + j)

theorem bytes_zero : bytes m root va 0 = [] := rfl

theorem bytes_chunk {n : Nat} (h : n ≤ len) : bytes m root va len = bytes m root va n ++ bytes m root (va + n) (len - n) := by
  have hlen : len = n + (len - n) := by omega
  unfold bytes
  rw [hlen, List.range_add, List.map_append, List.map_map, Nat.add_sub_cancel_left]
  simp only [Function.comp_def, Nat.add_assoc]

theorem Chunk.read {n : Nat} (h : Chunk va len n) {j : Nat} (hj : j < n) :
    m (ppn (entry m root (va / PGSIZE))) (va - PGROUNDDOWN va + j) = user m root (va + j) := by
  rw [user, phys, h.page j hj, h.offset j hj]

/-- The result of `copyin`, when `dst` has been read before. -/
structure CopiedIn (m : Nat → Page) (root va len : Nat) (dst : List UInt8) (r : Int × List UInt8) : Prop where
  ok : (∀ j < len, Readable m root (va + j)) → r = (0, dst ++ bytes m root va len)
  bad : (∃ j < len, ¬ Readable m root (va + j)) → r.1 = -1

theorem CopiedIn.done {dst : List UInt8} : CopiedIn m root va 0 dst (0, dst) :=
  ⟨fun _ => by rw [bytes_zero, List.append_nil], fun ⟨_, hj, _⟩ => absurd hj (Nat.not_lt_zero _)⟩

theorem CopiedIn.step {n next : Nat} {dst : List UInt8} {r : Int × List UInt8} (hc : Chunk va len n) (hread : Readable m root va)
    (hnext : len - n = 0 ∨ next = va + n) (h : CopiedIn m root next (len - n) (dst ++ bytes m root va n) r) :
    CopiedIn m root va len dst r := by
  constructor
  · intro hall
    rw [bytes_chunk hc.le, ← List.append_assoc]
    rcases hnext with hz | rfl
    · rw [hz] at h ⊢
      have hr := h.ok fun j hj => absurd hj (Nat.not_lt_zero j)
      rwa [bytes_zero] at hr ⊢
    · exact h.ok fun j hj => by rw [Nat.add_assoc]; exact hall (n + j) (by omega)
  · rintro ⟨j, hj, hbad⟩
    -- the bad byte is not in this chunk
    have hn : n ≤ j := Nat.le_of_not_lt fun hn => hbad ((readable_page (hc.page j hn)).mpr hread)
    rcases hnext with hz | rfl
    · omega
    · exact h.bad ⟨j - n, by omega, by rw [Nat.add_assoc, Nat.add_sub_cancel' hn]; exact hbad⟩

theorem wp_copyinFrom {fuel : Nat} {dst : List UInt8} (h0 : Nonzero s.page root) (hfuel : len ≤ fuel) :
    Wp E (copyinFrom root fuel va len dst) s fun r s' => s = s' ∧ CopiedIn s.page root va len dst r := by
  induction fuel generalizing va len dst with
  | zero =>
    rw [Nat.le_zero.mp hfuel]
    exact ⟨rfl, .done⟩
  | succ fuel ih =>
    rw [copyinFrom]
    refine wp_ite (fun hpos => ?_) fun hpos => ?_
    · have hc := chunk va hpos
      simp only [wp_bind]
      refine (wp_walkaddr_down h0).mono fun pa s' ⟨hs, hpa⟩ => ?_
      subst hs
      rcases hpa with ⟨hread, hne, hpa⟩ | ⟨hread, rfl⟩
      · rw [if_neg hne]
        simp only [wp_bind, wp_get, hpa]
        set n := min (PGSIZE - (va - PGROUNDDOWN va)) len
        have hbytes : (List.range n).map (fun j => s.page (ppn (entry s.page root (va / PGSIZE))) (va - PGROUNDDOWN va + j)) =
            bytes s.page root va n := List.map_congr_left fun j hj => hc.read (List.mem_range.mp hj)
        have hleft : len - n ≤ fuel := by
          have := hc.pos
          omega
        rw [hbytes]
        exact (ih hleft).mono fun r s' ⟨hs, hr⟩ => ⟨hs, hr.step hc hread (hc.next hread.1)⟩
      · rw [if_pos rfl]
        exact ⟨rfl, fun hall => absurd (hall 0 hpos) hread, fun _ => rfl⟩
    · rw [Nat.eq_zero_of_not_pos hpos]
      exact ⟨rfl, .done⟩

theorem wp_copyin (h0 : Nonzero s.page root) :
    Wp E (copyin root va len) s fun r s' => s = s' ∧ CopiedIn s.page root va len [] r := wp_copyinFrom h0 (Nat.le_refl len)

/-! ## copyout -/

/-- The pages that the user can write are different for different pages of user memory, and no tables. -/
structure Apart (m : Nat → Page) (root : Nat) : Prop where
  inj : ∀ a a', Writable m root a → Writable m root a' → (phys m root a).1 = (phys m root a').1 → a / PGSIZE = a' / PGSIZE
  table : ∀ a, Writable m root a → ¬ IsTable m root (phys m root a).1

/-- The `j`th byte and those before it are writable. -/
def Reached (m : Nat → Page) (root va j : Nat) : Prop := ∀ i ≤ j, Writable m root (va + i)

/-- What `copyout` does, up to the first page that is not writable. -/
structure CopiedOut (root va len : Nat) (src : Nat → UInt8) (s s' : Mem) (r : Int) : Prop where
  ok : (∀ j < len, Writable s.page root (va + j)) → r = 0
  bad : (∃ j < len, ¬ Writable s.page root (va + j)) → r = -1
  written : ∀ j < len, Reached s.page root va j → s'.page (phys s.page root (va + j)).1 (phys s.page root (va + j)).2 = src j
  others : ∀ p o, s'.page p o ≠ s.page p o → ∃ j < len, Reached s.page root va j ∧ phys s.page root (va + j) = (p, o)
  rest : s'.free = s.free ∧ s'.kend = s.kend ∧ s'.deny = s.deny

theorem CopiedOut.done {src : Nat → UInt8} : CopiedOut root va 0 src s s 0 :=
  ⟨fun _ => rfl, fun ⟨_, hj, _⟩ => absurd hj (Nat.not_lt_zero _), fun _ hj => absurd hj (Nat.not_lt_zero _),
    fun _ _ h => absurd rfl h,
    rfl, rfl, rfl⟩

theorem CopiedOut.stop {src : Nat → UInt8} (hpos : 0 < len) (hw : ¬ Writable s.page root va) :
    CopiedOut root va len src s s (-1) :=
  ⟨fun hall => absurd (hall 0 hpos) hw, fun _ => rfl, fun _ _ hr => absurd (hr 0 (Nat.zero_le _)) hw, fun _ _ h => absurd rfl h,
    rfl, rfl, rfl⟩

def putChunk (s : Mem) (root va n : Nat) (src : Nat → UInt8) : Mem :=
  { s with
    page := Function.update s.page (phys s.page root va).1
      ((s.page (phys s.page root va).1).put (va - PGROUNDDOWN va) n src) }

section

variable {m' : Nat → Page} (h : ∀ p, IsTable m root p → m' p = m p)
include h

theorem phys_frame (a : Nat) : phys m' root a = phys m root a := by
  rw [phys, phys, entry_frame h]

theorem readable_frame (a : Nat) : Readable m' root a ↔ Readable m root a := by
  rw [Readable, Readable, entry_frame h]

theorem writable_frame (a : Nat) : Writable m' root a ↔ Writable m root a := by
  rw [Writable, Writable, readable_frame h, entry_frame h]

theorem Apart.frame (hap : Apart m root) : Apart m' root := by
  refine ⟨fun a a' ha ha' e => ?_, fun a ha => ?_⟩
  · rw [phys_frame h, phys_frame h] at e
    exact hap.inj a a' ((writable_frame h a).mp ha) ((writable_frame h a').mp ha') e
  · rw [phys_frame h, isTable_frame h]
    exact hap.table a ((writable_frame h a).mp ha)

end

section

variable {src : Nat → UInt8} {n : Nat} (hap : Apart s.page root) (hw : Writable s.page root va)
include hap hw

theorem tables_putChunk (p : Nat) (hp : IsTable s.page root p) : (putChunk s root va n src).page p = s.page p := by
  have hne : p ≠ (phys s.page root va).1 := fun e => hap.table va hw (e ▸ hp)
  exact Function.update_of_ne hne ..

theorem phys_putChunk (a : Nat) : phys (putChunk s root va n src).page root a = phys s.page root a :=
  phys_frame (tables_putChunk hap hw) a

theorem writable_putChunk (a : Nat) : Writable (putChunk s root va n src).page root a ↔ Writable s.page root a :=
  writable_frame (tables_putChunk hap hw) a

theorem apart_putChunk : Apart (putChunk s root va n src).page root := hap.frame (tables_putChunk hap hw)

end

theorem Apart.phys_inj {a' : Nat} (h : Apart m root) (ha : Writable m root a) (ha' : Writable m root a')
    (e : phys m root a = phys m root a') : a = a' := by
  have hpage := h.inj a a' ha ha' (congrArg Prod.fst e)
  have hoff : a % PGSIZE = a' % PGSIZE := congrArg Prod.snd e
  rw [← Nat.div_add_mod a PGSIZE, ← Nat.div_add_mod a' PGSIZE, hpage, hoff]

theorem Chunk.phys {n j : Nat} (h : Chunk va len n) (hj : j < n) :
    phys m root (va + j) = ((phys m root va).1, va - PGROUNDDOWN va + j) := by
  rw [Vm.phys, h.page j hj, h.offset j hj]
  rfl

theorem Chunk.put_self {n j : Nat} {src : Nat → UInt8} (h : Chunk va len n) (hj : j < n) :
    (putChunk s root va n src).page (Vm.phys s.page root (va + j)).1 (Vm.phys s.page root (va + j)).2 = src j := by
  rw [h.phys hj, putChunk]
  dsimp only
  rw [Function.update_self, Page.put, if_pos (by omega), Nat.add_sub_cancel_left]

theorem Chunk.put_ne {n p o : Nat} {src : Nat → UInt8} (h : Chunk va len n)
    (hne : (putChunk s root va n src).page p o ≠ s.page p o) :
    ∃ j < n, Vm.phys s.page root (va + j) = (p, o) := by
  unfold putChunk at hne
  dsimp only at hne
  by_cases hp : p = (Vm.phys s.page root va).1
  · rw [hp, Function.update_self, Page.put] at hne
    by_cases ho : va - PGROUNDDOWN va ≤ o ∧ o < va - PGROUNDDOWN va + n
    · refine ⟨o - (va - PGROUNDDOWN va), by omega, ?_⟩
      rw [h.phys (by omega), hp, Nat.add_sub_cancel' ho.1]
    · rw [if_neg ho] at hne
      exact absurd rfl hne
  · rw [Function.update_of_ne hp] at hne
    exact absurd rfl hne

section

variable (hap : Apart s.page root)
include hap

theorem CopiedOut.step {n next : Nat} {src : Nat → UInt8} {r : Int} (hc : Chunk va len n)
    (hw : Writable s.page root va) (hnext : len - n = 0 ∨ next = va + n)
    (h : CopiedOut root next (len - n) (fun j => src (n + j)) (putChunk s root va n src) s' r) :
    CopiedOut root va len src s s' r := by
  have hchunk : ∀ j < n, Writable s.page root (va + j) := fun j hj => (writable_page (hc.page j hj)).mpr hw
  have hwr : ∀ a, Writable (putChunk s root va n src).page root a ↔ Writable s.page root a := writable_putChunk hap hw
  have hph : ∀ a, phys (putChunk s root va n src).page root a = phys s.page root a := phys_putChunk hap hw
  -- what is left lies behind the chunk
  have hleft : ∀ j < len - n, next + j = va + (n + j) := fun j hj => by
    rcases hnext with hz | rfl <;> omega
  have hreach : ∀ j < len - n, Reached (putChunk s root va n src).page root next j ↔ Reached s.page root va (n + j) := by
    intro j hj
    constructor
    · intro hr i hi
      by_cases hin : i < n
      · exact hchunk i hin
      · have := (hwr _).mp (hr (i - n) (by omega))
        rwa [hleft (i - n) (by omega), Nat.add_sub_cancel' (Nat.le_of_not_lt hin)] at this
    · intro hr i hi
      rw [hwr, hleft i (by omega)]
      exact hr (n + i) (by omega)
  refine ⟨fun hall => h.ok fun j hj => ?_, ?_, fun j hj hr => ?_, fun p o hne => ?_, h.rest⟩
  · rw [hwr, hleft j hj]
    exact hall (n + j) (by omega)
  · rintro ⟨j, hj, hbad⟩
    have hn : n ≤ j := Nat.le_of_not_lt fun hn => hbad (hchunk j hn)
    refine h.bad ⟨j - n, by omega, ?_⟩
    rw [hwr, hleft (j - n) (by omega), Nat.add_sub_cancel' hn]
    exact hbad
  · by_cases hn : j < n
    · -- a later round does not write there
      have hput : (putChunk s root va n src).page (phys s.page root (va + j)).1 (phys s.page root (va + j)).2 = src j :=
        hc.put_self hn
      rw [← hput]
      by_contra hne
      obtain ⟨k, hk, hrk, e⟩ := h.others _ _ hne
      rw [hph, hleft k hk] at e
      have := hap.phys_inj ((hreach k hk).mp hrk (n + k) (Nat.le_refl _)) (hr j (Nat.le_refl j)) e
      omega
    · have hj' : j - n < len - n := by omega
      have hidx : n + (j - n) = j := Nat.add_sub_cancel' (Nat.le_of_not_lt hn)
      have := h.written (j - n) hj' ((hreach _ hj').mpr (by rw [hidx]; exact hr))
      rwa [hph, hleft _ hj', hidx] at this
  · by_cases hput : s'.page p o = (putChunk s root va n src).page p o
    · obtain ⟨j, hj, e⟩ := hc.put_ne (hput ▸ hne)
      have := hc.le
      exact ⟨j, by omega, fun i hi => hchunk i (by omega), e⟩
    · obtain ⟨j, hj, hr, e⟩ := h.others p o hput
      rw [hph, hleft j hj] at e
      exact ⟨n + j, by omega, (hreach j hj).mp hr, e⟩

theorem wp_copyoutFrom {fuel k : Nat} {src : Nat → UInt8} (hfuel : len ≤ fuel) :
    Wp E (copyoutFrom root src fuel va k len) s fun r s' => CopiedOut root va len (fun j => src (k + j)) s s' r := by
  induction fuel generalizing s va len k with
  | zero =>
    rw [Nat.le_zero.mp hfuel]
    exact .done
  | succ fuel ih =>
    rw [copyoutFrom]
    refine wp_ite (fun hpos => ?_) fun hpos => ?_
    · have hc := chunk va hpos
      have hdown : Writable s.page root (PGROUNDDOWN va) ↔ Writable s.page root va := writable_page (down_page va)
      refine wp_ite (fun hva => ?_) fun hva => ?_
      · exact .stop hpos fun hw => Nat.not_lt.mpr hva (hdown.mpr hw).1.1
      · simp only [wp_bind]
        refine (wp_walk_find (Nat.not_le.mp hva)).mono fun x s' ⟨hs, hx⟩ => ?_
        subst hs
        rw [down_page] at hx
        cases hp : tableOf s.page root (va / PGSIZE) with
        | none =>
          rw [hp] at hx
          subst hx
          exact .stop hpos fun hw => hw.1.2.1 (by rw [entry_of_none hp, Nat.zero_and])
        | some p =>
          rw [hp] at hx
          subst hx
          simp only [Option.map_some, wp_bind, wp_pte]
          rw [PX_page_of_va, down_page, ← entry_of_table hp]
          refine wp_ite (fun hbad => ?_) fun hok => ?_
          · refine .stop hpos fun hw => ?_
            rcases hbad with hbad | hbad | hbad
            · exact hw.1.2.1 hbad
            · exact hw.1.2.2 hbad
            · exact hw.2 hbad
          · rw [not_or, not_or] at hok
            have hw : Writable s.page root va := hdown.mp ⟨⟨Nat.not_le.mp hva, by rw [down_page]; exact hok.1,
              by rw [down_page]; exact hok.2.1⟩,
              by rw [down_page]; exact hok.2.2⟩
            simp only [wp_bind, wp_get, wp_setPage]
            set n := min (PGSIZE - (va - PGROUNDDOWN va)) len
            have hleft : len - n ≤ fuel := by
              have := hc.pos
              omega
            refine (ih (s := putChunk s root va n fun j => src (k + j)) (apart_putChunk hap hw) hleft).mono fun r s' hr => ?_
            refine .step hap hc hw (hc.next hw.1.1) ?_
            simp only [Nat.add_assoc] at hr
            exact hr
    · rw [Nat.eq_zero_of_not_pos hpos]
      exact .done

theorem wp_copyout {src : Nat → UInt8} :
    Wp E (copyout root va src len) s fun r s' => CopiedOut root va len src s s' r := by
  refine (wp_copyoutFrom hap (Nat.le_refl len)).mono fun r s' h => ?_
  simp only [Nat.zero_add] at h
  exact h

/-! ## Exact and confined -/

section

variable {src : Nat → UInt8} {r : Int} (h : CopiedOut root va len src s s' r)
include h

theorem CopiedOut.tables (p : Nat) (hp : IsTable s.page root p) : s'.page p = s.page p := by
  funext o
  by_contra hne
  obtain ⟨j, _, hr, e⟩ := h.others p o hne
  refine hap.table (va + j) (hr j (Nat.le_refl j)) ?_
  rw [e]
  exact hp

theorem CopiedOut.user
    (hall : ∀ j < len, Writable s.page root (va + j)) {j : Nat} (hj : j < len) : user s'.page root (va + j) = src j := by
  rw [Vm.user, phys_frame (h.tables hap)]
  exact h.written j hj fun i hi => hall i (by omega)

theorem CopiedOut.user_ne
    (ha : Writable s.page root a) (hne : ∀ j < len, a ≠ va + j) : Vm.user s'.page root a = Vm.user s.page root a := by
  rw [Vm.user, Vm.user, phys_frame (h.tables hap)]
  by_contra hch
  obtain ⟨j, hj, hr, e⟩ := h.others _ _ hch
  exact hne j hj (hap.phys_inj ha (hr j (Nat.le_refl j)) e.symm)

theorem CopiedOut.nonzero (h0 : Nonzero s.page root) : Nonzero s'.page root := by
  intro a ha
  rw [phys_frame (h.tables hap)]
  exact h0 a ((readable_frame (h.tables hap) a).mp ha)

end

end

/-- The bytes from `va` to `va + len` satisfy `P`. -/
def InRange (P : Nat → Prop) (va len : Nat) : Prop := ∀ a, va ≤ a → a < va + len → P a

theorem inRange_iff {P : Nat → Prop} : InRange P va len ↔ ∀ j < len, P (va + j) := by
  constructor
  · exact fun h j hj => h (va + j) (by omega) (by omega)
  · intro h a h1 h2
    have := h (a - va) (by omega)
    rwa [Nat.add_sub_cancel' h1] at this

/-- What `copyout` returns and does to memory. -/
structure CopyoutSpec (root va len : Nat) (src : Nat → UInt8) (s s' : Mem) (r : Int) : Prop where
  ret : r = 0 ∧ InRange (Writable s.page root) va len ∨ r = -1 ∧ ¬ InRange (Writable s.page root) va len
  written : r = 0 → InRange (fun a => s'.page (phys s.page root a).1 (phys s.page root a).2 = src (a - va)) va len
  /-- Nothing else changes. -/
  others : ∀ p o, InRange (fun a => phys s.page root a ≠ (p, o)) va len → s'.page p o = s.page p o
  /-- What may have changed, also when the range is not writable, comes before the first bad page. -/
  confined : ∀ p o, s'.page p o ≠ s.page p o → ∃ a, va ≤ a ∧ a < va + len ∧ phys s.page root a = (p, o) ∧
    ∀ a', va ≤ a' → a' ≤ a → Writable s.page root a'
  rest : s'.free = s.free ∧ s'.kend = s.kend ∧ s'.deny = s.deny
  copyin : r = 0 → Vm.copyin root va len s' = .ok ((0, (List.range len).map src), s')

structure CopyinSpec (root va len : Nat) (s : Mem) (r : Int × List UInt8) : Prop where
  ret : r.1 = 0 ∧ InRange (Readable s.page root) va len ∨ r.1 = -1 ∧ ¬ InRange (Readable s.page root) va len
  read : r.1 = 0 → r.2 = bytes s.page root va len

theorem CopiedIn.spec {r : Int × List UInt8} (h : CopiedIn s.page root va len [] r) : CopyinSpec root va len s r := by
  by_cases hall : InRange (Readable s.page root) va len
  · have := h.ok (inRange_iff.mp hall)
    rw [this]
    exact ⟨.inl ⟨rfl, hall⟩, fun _ => rfl⟩
  · have hbad := h.bad (by rw [inRange_iff] at hall; simpa using hall)
    refine ⟨.inr ⟨hbad, hall⟩, fun h0 => ?_⟩
    rw [hbad] at h0
    cases h0

theorem CopiedOut.spec {src : Nat → UInt8} {r : Int} (hap : Apart s.page root) (h0 : Nonzero s.page root)
    (h : CopiedOut root va len src s s' r) : CopyoutSpec root va len src s s' r := by
  have hret : r = 0 ∧ InRange (Writable s.page root) va len ∨ r = -1 ∧ ¬ InRange (Writable s.page root) va len := by
    by_cases hall : InRange (Writable s.page root) va len
    · exact .inl ⟨h.ok (inRange_iff.mp hall), hall⟩
    · exact .inr ⟨h.bad (by rw [inRange_iff] at hall; simpa using hall), hall⟩
  have hall : r = 0 → ∀ j < len, Writable s.page root (va + j) := fun e => by
    rcases hret with ⟨_, hall⟩ | ⟨e', _⟩
    · exact inRange_iff.mp hall
    · rw [e] at e'
      cases e'
  refine ⟨hret, fun e => ?_, fun p o hno => ?_, fun p o hne => ?_, h.rest, fun e => ?_⟩
  · rw [inRange_iff]
    intro j hj
    rw [Nat.add_sub_cancel_left]
    exact h.written j hj fun i hi => hall e i (by omega)
  · by_contra hne
    obtain ⟨j, hj, _, hjp⟩ := h.others p o hne
    exact hno (va + j) (by omega) (by omega) hjp
  · obtain ⟨j, hj, hr, hjp⟩ := h.others p o hne
    refine ⟨va + j, by omega, by omega, hjp, fun a' h1 h2 => ?_⟩
    have := hr (a' - va) (by omega)
    rwa [Nat.add_sub_cancel' h1] at this
  · have hw : Wp (fun _ => False) (Vm.copyin root va len) s' _ := wp_copyin (h.nonzero hap h0)
    obtain ⟨x, t, hrun, hs, hin⟩ := hw.returns
    subst hs
    have hread : ∀ j < len, Readable s'.page root (va + j) := fun j hj =>
      (readable_frame (h.tables hap) _).mpr (hall e j hj).1
    rw [hrun, hin.ok hread]
    congr 3
    exact List.map_congr_left fun j hj => h.user hap (hall e) (List.mem_range.mp hj)

/-- `copyout` and `copyin` against user memory. -/
theorem copy_exact (hap : Apart s.page root) (h0 : Nonzero s.page root) (va len : Nat) (src : Nat → UInt8) :
    (∃ r s', copyout root va src len s = .ok (r, s') ∧ CopyoutSpec root va len src s s' r) ∧
      ∃ r, copyin root va len s = .ok (r, s) ∧ CopyinSpec root va len s r := by
  constructor
  · have hw : Wp (fun _ => False) (copyout root va src len) s _ := wp_copyout hap
    obtain ⟨r, s', hrun, h⟩ := hw.returns
    exact ⟨r, s', hrun, h.spec hap h0⟩
  · have hw : Wp (fun _ => False) (copyin root va len) s _ := wp_copyin h0
    obtain ⟨r, s', hrun, hs, h⟩ := hw.returns
    subst hs
    exact ⟨r, hrun, h.spec⟩

/-! ## One page of user memory -/

def mapZero (p : Nat) : M Int := mappages tinyRoot 0 PGSIZE (p * PGSIZE) (PTE_R ||| PTE_W ||| PTE_U)

def oneMapped (p : Nat) : Mem := match mapZero p tiny with
  | .ok (_, s') => s'
  | .error _ => tiny

theorem oneMapped_became {p : Nat} (hp : p < 2 ^ 52) (hrun : ∃ s', mapZero p tiny = .ok (0, s')) :
    Became tinyRoot tiny (oneMapped p) (within 0 1 (leaf (p * PGSIZE) (PTE_R ||| PTE_W ||| PTE_U)) fun _ => 0) := by
  obtain ⟨s', hrun⟩ := hrun
  have hpa : p * PGSIZE < 2 ^ 64 := by
    simp only [PGSIZE]
    omega
  have hone : oneMapped p = s' := by rw [oneMapped, hrun]
  have hw : Wp (fun _ => True) (mapZero p) tiny _ :=
    wp_mappages (a := 0) (k := 1) tiny_isPageTable.ok tiny_isPageTable.tables (by decide) (by decide)
      (by decide) hpa fun _ => trivial
  obtain ⟨j, hj, hb⟩ := hw.of_ok hrun
  rw [hone]
  rcases hj with ⟨_, rfl⟩ | ⟨h, _⟩
  · exact hb.congr fun n _ => within_congr 0 1 (entry_empty rfl n)
  · cases h

theorem oneMapped_readable {p a : Nat} (hp : p < 2 ^ 52) (hrun : ∃ s', mapZero p tiny = .ok (0, s'))
    (h : Readable (oneMapped p).page tinyRoot a) : a / PGSIZE = 0 ∧ (phys (oneMapped p).page tinyRoot a).1 = p := by
  have hb := oneMapped_became hp hrun
  have he := hb.entries _ (page_lt h.1)
  have ha : a / PGSIZE = 0 := by
    by_contra hne
    have hv := h.2.1
    rw [he, within, if_neg (by omega), Nat.zero_and] at hv
    exact hv rfl
  have hpte : IsPte (leaf (p * PGSIZE) (PTE_R ||| PTE_W ||| PTE_U) 0) _ _ := isPte_leaf (by decide)
  refine ⟨ha, ?_⟩
  rw [ha] at he
  rw [phys, ha, he, within, if_pos ⟨Nat.le_refl 0, by decide⟩, Nat.sub_self, hpte.ppn, Nat.zero_mul, Nat.add_zero,
    Nat.mod_eq_of_lt (by simp only [PGSIZE]; omega), Nat.mul_div_cancel _ (by decide)]

theorem mapZero_ok {p : Nat} (h : (match mapZero p tiny with | .ok (r, _) => r | .error _ => 1) = 0) :
    ∃ s', mapZero p tiny = .ok (0, s') := by
  split at h
  · rename_i r s' hrun
    exact ⟨s', by rw [hrun, h]⟩
  · cases h

theorem oneMapped_nonzero {p : Nat} (hp : p < 2 ^ 52) (h0 : p ≠ 0) (hrun : ∃ s', mapZero p tiny = .ok (0, s')) :
    Nonzero (oneMapped p).page tinyRoot := fun a h => by
  rw [(oneMapped_readable hp hrun h).2]
  exact h0

theorem oneMapped_apart : Apart (oneMapped 524300).page tinyRoot := by
  have hrun : ∃ s', mapZero 524300 tiny = .ok (0, s') := mapZero_ok (by decide +kernel)
  have hread := fun a => oneMapped_readable (a := a) (by decide) hrun
  refine ⟨fun a a' h h' _ => (hread a h.1).1.trans (hread a' h'.1).1.symm, fun a h ht => ?_⟩
  obtain ⟨l, hl, htables⟩ := (oneMapped_became (by decide) hrun).taken
  rw [(hread a h.1).2, htables] at ht
  rcases ht with ⟨k, _, hk⟩ | hmem
  · exact absurd (nodeAt_empty rfl hk).2 (by decide)
  · have hmem : 524300 ∈ tiny.free := by
      rw [hl]
      exact List.mem_append_left _ hmem
    revert hmem
    decide

theorem copy_exact_tiny :
    (∃ r s', copyout tinyRoot 0 (fun _ => 7) 8 (oneMapped 524300) = .ok (r, s') ∧
      CopyoutSpec tinyRoot 0 8 (fun _ => 7) (oneMapped 524300) s' r) ∧
      ∃ r, copyin tinyRoot 0 8 (oneMapped 524300) = .ok (r, oneMapped 524300) ∧ CopyinSpec tinyRoot 0 8 (oneMapped 524300) r :=
  copy_exact oneMapped_apart (oneMapped_nonzero (by decide) (by decide) (mapZero_ok (by decide +kernel))) 0 8 fun _ => 7

/-- `copyout` and then `copyin`, what they return. -/
def outIn (s : Mem) : Option (Int × Int) := match copyout tinyRoot 0 (fun _ => 0) 8 s with
  | .ok (r, s') => match copyin tinyRoot 0 8 s' with
    | .ok (x, _) => some (r, x.1)
    | .error _ => none
  | .error _ => none

/-- A table of the page table is the user's page: `copyout` succeeds, and then nothing is mapped. -/
theorem copyout_into_table : IsPageTable (oneMapped 524290) tinyRoot ∧ Nonzero (oneMapped 524290).page tinyRoot ∧
    (∀ a a', Readable (oneMapped 524290).page tinyRoot a → Readable (oneMapped 524290).page tinyRoot a' →
      a / PGSIZE = a' / PGSIZE) ∧
    outIn (oneMapped 524290) = some (0, -1) := by
  have hrun : ∃ s', mapZero 524290 tiny = .ok (0, s') := mapZero_ok (by decide +kernel)
  have hread := fun a => oneMapped_readable (a := a) (by decide) hrun
  exact ⟨(oneMapped_became (by decide) hrun).isPageTable, oneMapped_nonzero (by decide) (by decide) hrun,
    fun a a' h h' => (hread a h).1.trans (hread a' h').1.symm, by decide +kernel⟩

end Xv6.Vm
