/-
  Xv6.Vm.Strings — `copyinstr`, `fetchstr` and `argstr` against user memory.

  `StrAt k`: a string of `k` bytes is there, in readable pages with its NUL. `copyinstr` returns 0
  iff there is one with `k < max`, having written exactly the string and its NUL; otherwise -1,
  having written `max` bytes at most.
-/

import Xv6.Vm.Copy

namespace Xv6.Vm

variable {E : Panic → Prop} {m : Nat → Page} {s s' : Mem} {root va max k : Nat}

theorem slice_succ (g : Page) (o n : Nat) :
    (List.range (n + 1)).map (fun j => g (o + j)) = g o :: (List.range n).map fun j => g (o + 1 + j) := by
  rw [List.range_succ_eq_map, List.map_cons, List.map_map]
  simp only [Function.comp_def, Nat.succ_eq_add_one, Nat.add_assoc, Nat.add_comm 1, Nat.add_zero]

/-- The inner loop finds the first 0 of the `n` bytes, or copies all of them. -/
theorem copyinstrPage_eq (g : Page) (n o : Nat) (dst : List UInt8) :
    (∃ k < n, (∀ j < k, g (o + j) ≠ 0) ∧ g (o + k) = 0 ∧
      copyinstrPage g n o dst = (true, dst ++ (List.range (k + 1)).map fun j => g (o + j))) ∨
    (∀ j < n, g (o + j) ≠ 0) ∧ copyinstrPage g n o dst = (false, dst ++ (List.range n).map fun j => g (o + j)) := by
  induction n generalizing o dst with
  | zero => exact .inr ⟨fun j hj => absurd hj (Nat.not_lt_zero j),
    by rw [copyinstrPage, List.range_zero, List.map_nil, List.append_nil]⟩
  | succ n ih =>
    have hrest : ∀ k, (∀ j < k, g (o + 1 + j) ≠ 0) → g o ≠ 0 → ∀ j < k + 1, g (o + j) ≠ 0 := fun k h h0 j hj => by
      cases j with
      | zero => exact h0
      | succ j =>
        have := h j (by omega)
        rwa [Nat.add_right_comm] at this
    rw [copyinstrPage]
    by_cases h0 : g o = 0
    · refine .inl ⟨0, Nat.succ_pos n, fun j hj => absurd hj (Nat.not_lt_zero j), h0, ?_⟩
      rw [if_pos h0, slice_succ, List.range_zero, List.map_nil, h0]
    · rw [if_neg h0]
      rcases ih (o + 1) (dst ++ [g o]) with ⟨k, hk, hne, hz, e⟩ | ⟨hne, e⟩
      · refine .inl ⟨k + 1, by omega, hrest k hne h0, ?_, ?_⟩
        · rwa [Nat.add_right_comm] at hz
        · rw [e, slice_succ g o (k + 1), List.append_assoc]
          rfl
      · refine .inr ⟨hrest n hne h0, ?_⟩
        rw [e, slice_succ, List.append_assoc]
        rfl

/-! ## copyinstr -/

/-- The user has a string of `k` bytes at `va`. -/
structure StrAt (m : Nat → Page) (root va k : Nat) : Prop where
  readable : ∀ j ≤ k, Readable m root (va + j)
  nonzero : ∀ j < k, user m root (va + j) ≠ 0
  nul : user m root (va + k) = 0

theorem StrAt.unique {k' : Nat} (h : StrAt m root va k) (h' : StrAt m root va k') : k = k' := by
  rcases Nat.lt_trichotomy k k' with hlt | heq | hgt
  · exact absurd h.nul (h'.nonzero k hlt)
  · exact heq
  · exact absurd h'.nul (h.nonzero k' hgt)

/-- The result of `copyinstr`, when `dst` has been written before. -/
structure CopiedStr (m : Nat → Page) (root va max : Nat) (dst : List UInt8) (r : Int × List UInt8) : Prop where
  ok : ∀ k < max, StrAt m root va k → r = (0, dst ++ bytes m root va (k + 1))
  bad : (∀ k < max, ¬ StrAt m root va k) → r.1 = -1 ∧ r.2.length ≤ dst.length + max

theorem CopiedStr.done {dst : List UInt8} : CopiedStr m root va 0 dst (-1, dst) :=
  ⟨fun k hk => absurd hk (Nat.not_lt_zero k), fun _ => ⟨rfl, Nat.le_refl _⟩⟩

theorem CopiedStr.found {dst : List UInt8} (hk : k < max) (h : StrAt m root va k) :
    CopiedStr m root va max dst (0, dst ++ bytes m root va (k + 1)) :=
  ⟨fun k' _ h' => by rw [h.unique h'], fun hno => absurd h (hno k hk)⟩

theorem CopiedStr.stop {dst : List UInt8} (h : ¬ Readable m root va) : CopiedStr m root va max dst (-1, dst) :=
  ⟨fun _ _ h' => absurd (h'.readable 0 (Nat.zero_le _)) h, fun _ => ⟨rfl, Nat.le_add_right _ _⟩⟩

theorem length_bytes (m : Nat → Page) (root va n : Nat) : (bytes m root va n).length = n := by
  rw [bytes, List.length_map, List.length_range]

theorem CopiedStr.step {n next : Nat} {dst : List UInt8} {r : Int × List UInt8} (hc : Chunk va max n) (hread : Readable m root va)
    (hne : ∀ j < n, user m root (va + j) ≠ 0) (hnext : max - n = 0 ∨ next = va + n)
    (h : CopiedStr m root next (max - n) (dst ++ bytes m root va n) r) : CopiedStr m root va max dst r := by
  have hle := hc.le
  -- a string from `va` on is one from the next chunk on
  have hstr : ∀ j < max - n, StrAt m root next j ↔ StrAt m root va (n + j) := by
    intro j hj
    have hat : ∀ i, next + i = va + (n + i) := fun i => by rcases hnext with hz | rfl <;> omega
    constructor
    · intro hs
      refine ⟨fun i hi => ?_, fun i hi => ?_, by rw [← hat]; exact hs.nul⟩
      · by_cases hin : i < n
        · exact (readable_page (hc.page i hin)).mpr hread
        · have := hs.readable (i - n) (by omega)
          rwa [hat, Nat.add_sub_cancel' (Nat.le_of_not_lt hin)] at this
      · by_cases hin : i < n
        · exact hne i hin
        · have := hs.nonzero (i - n) (by omega)
          rwa [hat, Nat.add_sub_cancel' (Nat.le_of_not_lt hin)] at this
    · intro hs
      exact ⟨fun i hi => by rw [hat]; exact hs.readable (n + i) (by omega),
        fun i hi => by rw [hat]; exact hs.nonzero (n + i) (by omega),
        by rw [hat]; exact hs.nul⟩
  constructor
  · intro k hk hs
    have hn : n ≤ k := Nat.le_of_not_lt fun hn => hne k hn hs.nul
    have hidx : n + (k - n) = k := Nat.add_sub_cancel' hn
    have hk' : k - n < max - n := by omega
    have hva : next = va + n := by rcases hnext with hz | h <;> omega
    rw [h.ok (k - n) hk' ((hstr _ hk').mpr (by rw [hidx]; exact hs)), List.append_assoc, hva, bytes_chunk (by omega : n ≤ k + 1),
      show k + 1 - n = k - n + 1 by omega]
  · intro hno
    obtain ⟨h1, h2⟩ := h.bad fun j hj hs => hno (n + j) (by omega) ((hstr j hj).mp hs)
    rw [List.length_append, length_bytes] at h2
    exact ⟨h1, by omega⟩

theorem wp_copyinstrFrom {fuel : Nat} {dst : List UInt8} (h0 : Nonzero s.page root) (hfuel : max ≤ fuel) :
    Lib.Wp E (copyinstrFrom root fuel va max dst) s fun r s' => s = s' ∧ CopiedStr s.page root va max dst r := by
  induction fuel generalizing va max dst with
  | zero =>
    rw [Nat.le_zero.mp hfuel]
    exact ⟨rfl, .done⟩
  | succ fuel ih =>
    rw [copyinstrFrom]
    refine Lib.wp_ite (fun hpos => ?_) fun hpos => ?_
    · have hc := chunk va hpos
      simp only [Lib.wp_bind]
      refine (wp_walkaddr_down h0).mono fun pa s' ⟨hs, hpa⟩ => ?_
      subst hs
      rcases hpa with ⟨hread, hne, hpa⟩ | ⟨hread, rfl⟩
      · rw [if_neg hne]
        simp only [Lib.wp_bind, Lib.wp_get, hpa]
        set n := min (PGSIZE - (va - PGROUNDDOWN va)) max
        have hslice : ∀ l ≤ n,
            (List.range l).map (fun j => s.page (ppn (entry s.page root (va / PGSIZE))) (va - PGROUNDDOWN va + j)) =
            bytes s.page root va l := fun l hl => List.map_congr_left fun j hj => hc.read (by have := List.mem_range.mp hj; omega)
        rcases copyinstrPage_eq (s.page (ppn (entry s.page root (va / PGSIZE)))) n (va - PGROUNDDOWN va) dst with
          ⟨k, hk, hnz, hz, e⟩ | ⟨hnz, e⟩
        · have hle := hc.le
          rw [e, hslice (k + 1) hk]
          refine ⟨rfl, .found (by omega) ⟨fun j hj => (readable_page (hc.page j (by omega))).mpr hread, fun j hj => ?_, ?_⟩⟩
          · rw [← hc.read (by omega)]
            exact hnz j hj
          · rw [← hc.read hk]
            exact hz
        · have hleft : max - n ≤ fuel := by
            have := hc.pos
            omega
          rw [e, hslice n (Nat.le_refl n)]
          refine (ih hleft).mono fun r s' ⟨hs, hr⟩ => ⟨hs, hr.step hc hread (fun j hj => ?_) (hc.next hread.1)⟩
          rw [← hc.read hj]
          exact hnz j hj
      · rw [if_pos rfl]
        exact ⟨rfl, .stop hread⟩
    · rw [Nat.eq_zero_of_not_pos hpos]
      exact ⟨rfl, .done⟩

theorem wp_copyinstr (h0 : Nonzero s.page root) :
    Lib.Wp E (copyinstr root va max) s fun r s' => s = s' ∧ CopiedStr s.page root va max [] r :=
  wp_copyinstrFrom h0 (Nat.le_refl max)

/-! ## fetchstr -/

theorem StrAt.bytes_eq (h : StrAt m root va k) : bytes m root va (k + 1) = bytes m root va k ++ [0] := by
  rw [bytes_chunk (Nat.le_add_right k 1), Nat.add_sub_cancel_left]
  congr 1
  rw [← h.nul]
  rfl

theorem StrAt.strlen (h : StrAt m root va k) : strlen (bytes m root va (k + 1)) = k := by
  have hne : ∀ b ∈ bytes m root va k, decide (b ≠ 0) = true := fun b hb => by
    obtain ⟨j, hj, rfl⟩ := List.mem_map.mp hb
    exact decide_eq_true (h.nonzero j (List.mem_range.mp hj))
  rw [Vm.strlen, h.bytes_eq, List.takeWhile_append_of_pos hne, List.takeWhile_cons_of_neg (by decide), List.append_nil,
    length_bytes]

/-- The result of `fetchstr`. -/
structure Fetched (m : Nat → Page) (root va : Nat) (max : Int) (r : Int × List UInt8) : Prop where
  ok : ∀ k : Nat, k < max → StrAt m root va k → r = ((k : Int), bytes m root va k ++ [0])
  bad : (∀ k : Nat, k < max → ¬ StrAt m root va k) → r.1 = -1 ∧ r.2.length ≤ max

theorem wp_fetchstr {max : Int} (h0 : Nonzero s.page root) (hmax : 0 ≤ max) (hint : max < 2 ^ 31) :
    Lib.Wp E (fetchstr root va max) s fun r s' => s = s' ∧ Fetched s.page root va max r := by
  obtain ⟨n, rfl⟩ := Int.eq_ofNat_of_zero_le hmax
  have hn : ((n : Int) % 2 ^ 64).toNat = n := by omega
  simp only [fetchstr, Lib.wp_bind, hn]
  refine (wp_copyinstr h0).mono fun r s' ⟨hs, hr⟩ => ?_
  subst hs
  by_cases hk : ∃ k < n, StrAt s.page root va k
  · obtain ⟨k, hk, hstr⟩ := hk
    rw [hr.ok k hk hstr]
    dsimp only
    rw [if_neg (by decide), List.nil_append, hstr.strlen, hstr.bytes_eq]
    refine ⟨rfl, fun k' _ h' => by rw [hstr.unique h'], fun hno => absurd hstr (hno k (by omega))⟩
  · have hno : ∀ k < n, ¬ StrAt s.page root va k := fun k hk' hs => hk ⟨k, hk', hs⟩
    obtain ⟨h1, h2⟩ := hr.bad hno
    rw [List.length_nil, Nat.zero_add] at h2
    obtain ⟨r, buf⟩ := r
    subst h1
    dsimp only
    rw [if_pos (by decide)]
    exact ⟨rfl, fun k hk' hs => absurd hs (hno k (by omega)), fun _ => ⟨rfl, by dsimp only at h2 ⊢; omega⟩⟩

/-- What `copyinstr`, `fetchstr` and `argstr` return and write. -/
structure StringSpec (root : Nat) (s : Mem) : Prop where
  copyinstr : ∀ va max, ∃ r, Vm.copyinstr root va max s = .ok (r, s) ∧
    (r.1 = 0 ↔ ∃ k < max, StrAt s.page root va k) ∧
    (∀ k < max, StrAt s.page root va k → r.2 = bytes s.page root va k ++ [0]) ∧
    (r.1 ≠ 0 → r.1 = -1 ∧ r.2.length ≤ max)
  fetchstr : ∀ va (max : Int), 0 ≤ max → max < 2 ^ 31 →
    ∃ r, Vm.fetchstr root va max s = .ok (r, s) ∧ Fetched s.page root va max r
  argstr : ∀ reg n (max : Int), n < 6 → 0 ≤ max → max < 2 ^ 31 →
    ∃ r, Vm.argstr root reg n max s = .ok (r, s) ∧ Fetched s.page root (reg n) max r

/-- `copyinstr` equals its specification. -/
theorem copyinstr_exact (h0 : Nonzero s.page root) : StringSpec root s := by
  refine ⟨fun va max => ?_, fun va max hmax hint => ?_, fun reg n max hn hmax hint => ?_⟩
  · have hw : Lib.Wp (fun _ => False) (copyinstr root va max) s _ := wp_copyinstr h0
    obtain ⟨r, t, hrun, hs, h⟩ := hw.returns
    subst hs
    refine ⟨r, hrun, ?_⟩
    by_cases hk : ∃ k < max, StrAt s.page root va k
    · obtain ⟨k, hk, hstr⟩ := hk
      rw [h.ok k hk hstr, List.nil_append]
      refine ⟨iff_of_true rfl ⟨k, hk, hstr⟩, fun k' hk' h' => ?_, fun hne => absurd rfl hne⟩
      rw [hstr.unique h', h'.bytes_eq]
    · have hno : ∀ k < max, ¬ StrAt s.page root va k := fun k hk' hs => hk ⟨k, hk', hs⟩
      obtain ⟨h1, h2⟩ := h.bad hno
      rw [List.length_nil, Nat.zero_add] at h2
      rw [h1]
      exact ⟨iff_of_false (by decide) hk, fun k hk' hs => absurd hs (hno k hk'), fun _ => ⟨rfl, h2⟩⟩
  · have hw : Lib.Wp (fun _ => False) (fetchstr root va max) s _ := wp_fetchstr h0 hmax hint
    obtain ⟨r, t, hrun, hs, h⟩ := hw.returns
    subst hs
    exact ⟨r, hrun, h⟩
  · have hw : Lib.Wp (fun _ => False) (fetchstr root (reg n) max) s _ := wp_fetchstr h0 hmax hint
    obtain ⟨r, t, hrun, hs, h⟩ := hw.returns
    subst hs
    refine ⟨r, ?_, h⟩
    rw [argstr, argraw, if_pos hn]
    exact hrun

theorem copyinstr_exact_tiny : StringSpec tinyRoot (oneMapped 524300) :=
  copyinstr_exact (oneMapped_nonzero (by decide) (by decide) (mapZero_ok (by decide +kernel)))

end Xv6.Vm
