/-
  Xv6.Malloc.Heap — malloc and free keep the heap in order (see `Xv6.Malloc.Blocks`).

  `Ok base s free live`: from `base` the headers lead through the blocks `free`, ascending and
  with gaps, and back; they and the blocks `live` have each byte that the kernel has given, once,
  and no other.
-/

import Xv6.Malloc.Blocks

namespace Xv6.Malloc

open Function (update update_self update_of_ne)
open Lib (Wp wp_bind wp_get Prog)

variable {σ ε : Type}

def obtained (s : Heap σ) : List Block := s.asks.filterMap fun k => k.got.map (⟨·, k.nu⟩)

/-- The block is aligned, not empty, and behind the header at `base`. -/
structure Fit (base : Nat) (b : Block) : Prop where
  pos : 0 < b.size
  above : base + hsize ≤ b.addr
  aligned : hsize ∣ b.addr

theorem Fit.lt {base : Nat} {b : Block} (h : Fit base b) : base < b.addr := by
  have := h.above
  simp only [hsize] at this
  omega

structure Ok (base : Nat) (s : Heap σ) (free live : List Block) : Prop where
  linked : Linked s.hdr base (⟨base, 0⟩ :: free)
  ascending : (⟨base, 0⟩ :: free : List Block).Pairwise Before
  freep : s.freep ∈ base :: free.map (·.addr)
  sizes : ∀ b ∈ live, (s.hdr b.addr).size = b.size
  fit : ∀ b ∈ free ++ live, Fit base b
  cover : ∀ u, count u (free ++ live) = count u (obtained s)
  apart : ∀ u, count u (obtained s) ≤ 1
  total : units (free ++ live) = units (obtained s)
  bound : units (obtained s) < 2 ^ 32

section

variable {E : Stop ε → Prop} {base fuel : Nat} {s : Heap σ} {free live live' : List Block} {b : Block}

theorem Ok.perm (h : Ok base s free live) (hp : live.Perm live') : Ok base s free live' where
  linked := h.linked
  ascending := h.ascending
  freep := h.freep
  sizes c hc := h.sizes c (hp.mem_iff.mpr hc)
  fit c hc := h.fit c ((hp.append_left free).mem_iff.mpr hc)
  cover u := by rw [← h.cover u, count, count, (hp.append_left free).countP_eq]
  apart := h.apart
  total := by
    rw [← h.total]
    exact ((hp.append_left free).map _).sum_nat.symm
  bound := h.bound

theorem Ok.freep_ne (h : Ok base s free live) (hbase : 0 < base) : s.freep ≠ 0 := by
  have hmem := h.freep
  intro h0
  rw [h0] at hmem
  cases hmem with
  | head => exact Nat.lt_irrefl 0 hbase
  | tail _ hmem =>
    obtain ⟨c, hc, hc0⟩ := List.mem_map.mp hmem
    have := (h.fit c (List.mem_append_left _ hc)).lt
    omega

theorem Ok.apart_of (h : Ok base s free live) {l : List Block} (hperm : (b :: l).Perm (free ++ live)) {c : Block} (hc : c ∈ l) :
    b.stop ≤ c.addr ∨ c.stop ≤ b.addr := by
  have hcount : ∀ u, count u (b :: l) ≤ 1 := by
    intro u
    rw [count, hperm.countP_eq]
    exact (h.cover u).trans_le (h.apart u)
  exact apart_of_count hcount hc (h.fit b (hperm.mem_iff.mp (List.mem_cons_self ..))).pos
    (h.fit c (hperm.mem_iff.mp (List.mem_cons_of_mem _ hc))).pos

section

variable (h : Ok base s free (b :: live))
include h

theorem Ok.disjoint {c : Block} (hc : c ∈ free ++ live) : b.stop ≤ c.addr ∨ c.stop ≤ b.addr :=
  h.apart_of List.perm_middle.symm hc

/-- Where a block that is to be freed lies: between the blocks of the list. -/
theorem Ok.cut : ∃ P p Q, Cut b.addr (⟨base, 0⟩ :: free) P p Q ∧ p.stop ≤ b.addr ∧ ∀ c ∈ Q, b.stop ≤ c.addr := by
  have hb := h.fit b (by simp)
  have hbase : base < b.addr := hb.lt
  have hstop : ∀ c : Block, 0 < c.size → c.addr < c.stop := by
    intro c hc
    simp only [Block.stop, hsize]
    omega
  have hdis : ∀ c ∈ free, b.stop ≤ c.addr ∨ c.stop ≤ b.addr := fun c hc => h.disjoint (List.mem_append_left _ hc)
  have hpos : ∀ c ∈ free, c.addr < c.stop := fun c hc => hstop c (h.fit c (List.mem_append_left _ hc)).pos
  have hbstop := hstop b hb.pos
  have hne : ∀ c ∈ free, c.addr ≠ b.addr := by
    intro c hc
    have := hdis c hc
    have := hpos c hc
    omega
  obtain ⟨P, p, Q, hcut⟩ := exists_cut h.ascending hbase hne
  refine ⟨P, p, Q, hcut, ?_, ?_⟩
  · have hp : p ∈ (⟨base, 0⟩ :: free : List Block) := by rw [hcut.eq]; simp
    have hlt := hcut.prev
    cases hp with
    | head =>
      simp only [Block.stop]
      omega
    | tail _ hp =>
      have := hdis p hp
      omega
  · intro c hc
    have hlt := hcut.above c hc
    have hmem : c ∈ free := mem_free (by rw [hcut.eq]; simp [hc]) (by omega)
    have := hdis c hmem
    have := hpos c hmem
    omega

theorem Ok.link {P Q : List Block} {p : Block} (hcut : Cut b.addr (⟨base, 0⟩ :: free) P p Q)
    (hpb : p.stop ≤ b.addr) (hQ : ∀ c ∈ Q, b.stop ≤ c.addr) :
    ∃ free', Ok base
        { s with hdr := linkPrev (linkNext s.hdr b.addr (s.hdr p.addr).ptr) b.addr p.addr, freep := p.addr } free' live ∧
      free'.length ≤ free.length + 1 ∧ ∃ x ∈ free', b.size ≤ x.size := by
  have hb := h.fit b (by simp)
  have hunits : units (b :: free) < 2 ^ 32 := by
    have htotal := h.total
    have hbound := h.bound
    simp only [units_append, units_cons] at htotal ⊢
    omega
  obtain ⟨free', hin⟩ := linkedIn h.linked (h.sizes b (by simp)) hb.lt hcut hpb hQ hunits
  have hold : ∀ c ∈ b :: free, c ∈ free ++ b :: live := by
    intro c hc
    cases hc with
    | head => simp
    | tail _ hc => exact List.mem_append_left _ hc
  refine ⟨free', ⟨hin.linked, hin.ascending, hin.prev, ?_, ?_, ?_, h.apart, ?_, h.bound⟩, hin.length, hin.large hb.pos⟩
  · intro c hc
    have hsep : ∀ d ∈ b :: free, c.addr ≠ d.addr := by
      have hperm : (b :: live).Perm (c :: b :: live.erase c) :=
        ((List.perm_cons_erase hc).cons b).trans (List.Perm.swap ..)
      intro d hd
      have hmem : d ∈ free ++ b :: live.erase c := by
        cases hd with
        | head => simp
        | tail _ hd => exact List.mem_append_left _ hd
      have hdis := (h.perm hperm).disjoint hmem
      have hcpos := (h.fit c (by simp [hc])).pos
      have hdpos := (h.fit d (hold d hd)).pos
      simp only [Block.stop, hsize] at hdis
      omega
    have hbase : c.addr ≠ base := Nat.ne_of_gt (h.fit c (by simp [hc])).lt
    have := hin.others c.addr hbase hsep
    dsimp only
    rw [this]
    exact h.sizes c (List.mem_cons_of_mem _ hc)
  · intro c hc
    obtain hc | hc := List.mem_append.mp hc
    · obtain ⟨d, hd, hcd, hle⟩ := hin.grown c hc
      have := h.fit d (hold d hd)
      exact ⟨Nat.lt_of_lt_of_le this.pos hle, hcd ▸ this.above, hcd ▸ this.aligned⟩
    · exact h.fit c (by simp [hc])
  · intro u
    have hcover := h.cover u
    have hcount := hin.count u
    simp only [count_append, count_cons] at hcover hcount ⊢
    exact Eq.trans (by omega) hcover
  · have htotal := h.total
    have hsum := hin.units
    simp only [units_append, units_cons] at htotal hsum ⊢
    exact Eq.trans (by omega) htotal

theorem Ok.wp_free (hfuel : free.length + 1 < fuel) :
    Wp E (Malloc.free fuel (b.addr + hsize)) s fun _ s' => s'.asks = s.asks ∧
      ∃ free', Ok base s' free' live ∧ free'.length ≤ free.length + 1 ∧ ∃ x ∈ free', b.size ≤ x.size := by
  obtain ⟨P, p, Q, hcut, hpb, hQ⟩ := h.cut
  have hbase : base < b.addr := (h.fit b (by simp)).lt
  refine (Malloc.wp_free (wp_freeSearch hcut h.linked hbase h.freep hfuel)).mono fun _ s' hs => ?_
  subst hs
  exact ⟨rfl, h.link hcut hpb hQ⟩

end

/-! ## New memory -/

/-- A region that the heap does not have yet, and that does not make it too large. -/
structure Fresh (base : Nat) (s : Heap σ) (b : Block) : Prop where
  fit : Fit base b
  new : ∀ u, covers u b = true → count u (obtained s) = 0
  room : units (obtained s) + b.size < 2 ^ 32

/-- The heap with one more call of `sbrk`. -/
def Heap.ask (s : Heap σ) (nu : Nat) (n : Int) (got : Option Nat) (os : σ) : Heap σ :=
  { s with os := os, asks := ⟨nu, n, got, s.os, os⟩ :: s.asks }

theorem Fit.covers (h : Fit base b) : Malloc.covers b.addr b = true := by
  have := h.pos
  simp only [covers_iff, Block.stop, hsize]
  omega

theorem Ok.addr_ne (h : Ok base s free live) (hb : Fresh base s b) {c : Block} (hc : c ∈ free ++ live) : c.addr ≠ b.addr := by
  intro e
  have hpos : 0 < count c.addr (free ++ live) := List.countP_pos_iff.mpr ⟨c, hc, (h.fit c hc).covers⟩
  have := hb.new b.addr hb.fit.covers
  rw [h.cover, e, this] at hpos
  exact Nat.lt_irrefl 0 hpos

theorem Ok.grow (h : Ok base s free live) (hb : Fresh base s b) (n : Int) (os : σ) :
    Ok base { s.ask b.size n (some b.addr) os with hdr := update s.hdr b.addr { s.hdr b.addr with size := b.size } }
      free (b :: live) := by
  have hne : ∀ c ∈ free ++ live, c.addr ≠ b.addr := fun c hc => h.addr_ne hb hc
  refine ⟨h.linked.congr ?_, h.ascending, h.freep, ?_, ?_, ?_, ?_, ?_, ?_⟩
  · intro c hc
    refine update_of_ne ?_ ..
    cases hc with
    | head => exact Nat.ne_of_lt hb.fit.lt
    | tail _ hc => exact hne c (List.mem_append_left _ hc)
  · intro c hc
    cases hc with
    | head => simp only [update_self]
    | tail _ hc =>
      dsimp only
      rw [update_of_ne (hne c (List.mem_append_right _ hc))]
      exact h.sizes c hc
  · intro c hc
    obtain rfl | hc := List.mem_cons.mp (List.perm_middle.mem_iff.mp hc)
    · exact hb.fit
    · exact h.fit c hc
  · intro u
    have hcover := h.cover u
    show count u (free ++ b :: live) = count u (b :: obtained s)
    simp only [count_append, count_cons] at hcover ⊢
    omega
  · intro u
    show count u (b :: obtained s) ≤ 1
    rw [count_cons]
    split
    · rw [hb.new u ‹_›]
    · exact h.apart u
  · have htotal := h.total
    show units (free ++ b :: live) = units (b :: obtained s)
    simp only [units_append, units_cons] at htotal ⊢
    omega
  · show units (b :: obtained s) < 2 ^ 32
    have := hb.room
    rw [units_cons]
    omega

theorem Ok.refused (h : Ok base s free live) (nu : Nat) (n : Int) (os : σ) : Ok base (s.ask nu n none os) free live :=
  ⟨h.linked, h.ascending, h.freep, h.sizes, h.fit, h.cover, h.apart, h.total, h.bound⟩

variable {sbrk : Int → Prog σ ε (Option Nat)} {nu : Nat}

/-- What `sbrk` gives for `morecore(nu)` is a fresh region. -/
def Gives (E : Stop ε → Prop) (sbrk : Int → Prog σ ε (Option Nat)) (base nu : Nat) (s : Heap σ) : Prop :=
  ∀ n, Wp (fun e => E (.os e)) (sbrk n) s.os fun got _ => ∀ a, got = some a → Fresh base s ⟨a, nu⟩

theorem Ok.wp_morecore (h : Ok base s free live) (hbase : 0 < base) (hg : Gives E sbrk base (if nu < 4096 then 4096 else nu) s)
    (hfuel : free.length + 1 < fuel) :
    Wp E (morecore sbrk fuel nu) s fun r s' => (r = 0 ∧ Ok base s' free live) ∨
      (r ≠ 0 ∧ r = s'.freep ∧ ∃ free', Ok base s' free' live ∧ free'.length ≤ free.length + 1 ∧ ∃ x ∈ free', nu ≤ x.size) := by
  simp only [morecore, callSbrk, wp_bind, wp_get, Lib.wp_onPart, Lib.wp_modify, Lib.wp_pure]
  generalize hw : (if nu < 4096 then 4096 else nu) = w at hg
  have hle : nu ≤ w := by
    rw [← hw]
    split <;> omega
  refine (hg (toInt (w * hsize))).mono fun got os hfresh => ?_
  cases got with
  | none => exact .inl ⟨rfl, h.refused w _ os⟩
  | some a =>
    have hb := hfresh a rfl
    have hmod : w % 2 ^ 32 = w := by
      have := hb.room
      exact Nat.mod_eq_of_lt (by simp only at this; omega)
    simp only [wp_bind, wp_setSize, hmod]
    refine ((h.grow hb _ os).wp_free hfuel).mono fun _ s' ⟨hasks, free', hok, hlen, x, hx, hxsize⟩ => ?_
    right
    exact ⟨hok.freep_ne hbase, rfl, free', hok, hlen, x, hx, Nat.le_trans hle hxsize⟩

/-! ## Taking a block -/

theorem Ok.next (h : Ok base s free live) {y x : Nat} (hy : y ∈ base :: free.map (·.addr)) (hyx : (s.hdr y).ptr = x)
    (hx : x ≠ base) : ∃ A c d D, (⟨base, 0⟩ :: free : List Block) = A ++ c :: d :: D ∧ c.addr = y ∧ d.addr = x := by
  obtain ⟨c, hc, rfl⟩ : ∃ c ∈ (⟨base, 0⟩ :: free : List Block), c.addr = y := List.mem_map.mp hy
  obtain ⟨A, C, hlist⟩ := List.append_of_mem hc
  have hl := h.linked
  rw [hlist] at hl
  rw [hl.header] at hyx
  cases C with
  | nil => exact absurd hyx.symm hx
  | cons d D => exact ⟨A, c, d, D, hlist, rfl, hyx⟩

theorem Ok.live_ne (h : Ok base s free live) {c d : Block} (hd : d ∈ free) (hc : c ∈ live) {u : Nat}
    (hu : d.addr ≤ u ∧ u < d.stop) :
    c.addr ≠ u := by
  have hcpos := (h.fit c (List.mem_append_right _ hc)).pos
  have := h.apart_of ((List.perm_cons_erase hd).symm.append_right live) (List.mem_append_right _ hc)
  simp only [Block.stop, hsize] at this hu
  omega

/-- A free block `d`, the block `c` of the list before it, and the rest. -/
structure Found (base : Nat) (free A : List Block) (c d : Block) (D : List Block) : Prop where
  list : (⟨base, 0⟩ :: free : List Block) = A ++ c :: d :: D
  low : ∀ a ∈ A, a.addr < c.addr
  lt : Before c d
  high : ∀ e ∈ D, Before d e
  mem : d ∈ free

theorem Ok.found (h : Ok base s free live) {A D : List Block} {c d : Block}
    (hlist : (⟨base, 0⟩ :: free : List Block) = A ++ c :: d :: D) : Found base free A c d D := by
  have hasc := h.ascending
  rw [hlist] at hasc
  obtain ⟨-, hcd, hA⟩ := List.pairwise_append.mp hasc
  obtain ⟨hc, hd⟩ := List.pairwise_cons.mp hcd
  refine ⟨hlist, fun a ha => (hA a ha c (List.mem_cons_self ..)).lt, hc d (List.mem_cons_self ..),
    (List.pairwise_cons.mp hd).1, ?_⟩
  have hmem : d ∈ (⟨base, 0⟩ :: free : List Block) := by rw [hlist]; simp
  have hcmem : c ∈ (⟨base, 0⟩ :: free : List Block) := by rw [hlist]; simp
  have hle : base ≤ c.addr := by
    cases hcmem with
    | head => exact Nat.le_refl _
    | tail _ hcmem => exact Nat.le_of_lt (h.fit c (List.mem_append_left _ hcmem)).lt
  exact mem_free hmem (Nat.lt_of_le_of_lt hle (hc d (List.mem_cons_self ..)).lt)

theorem Found.replace {A D : List Block} {c d : Block} (h : Found base free A c d D) (M : List Block) :
    ∃ free', A ++ c :: (M ++ D) = ⟨base, 0⟩ :: free' ∧ (∀ e ∈ free', e ∈ free ∨ e ∈ M) ∧
      (∀ u, count u free' + count u [d] = count u free + count u M) ∧ units free' + d.size = units free + units M := by
  have hlist := h.list
  obtain ⟨B, hB, rfl⟩ : ∃ B, A ++ c :: (M ++ D) = ⟨base, 0⟩ :: (B ++ (M ++ D)) ∧ free = B ++ d :: D := by
    cases A with
    | nil =>
      obtain ⟨hc, rfl⟩ := List.cons.inj hlist
      exact ⟨[], by rw [hc]; rfl, rfl⟩
    | cons a A =>
      obtain ⟨ha, rfl⟩ : (⟨base, 0⟩ : Block) = a ∧ free = A ++ c :: d :: D := List.cons.inj hlist
      exact ⟨A ++ [c], by rw [ha]; simp, by simp⟩
  refine ⟨B ++ (M ++ D), hB, ?_, ?_, ?_⟩
  · intro e he
    simp only [List.mem_append, List.mem_cons] at he ⊢
    tauto
  · intro u
    simp only [count_append, count_cons, count_nil]
    omega
  · simp only [units_append, units_cons]
    omega

section

variable {A D : List Block} {c d : Block}

section

variable (h : Ok base s free live) (hf : Found base free A c d D)
include h hf

theorem Ok.split {M : List Block} {hdr : Nat → Header}
    (hl : Linked hdr base (A ++ c :: (M ++ D))) (hasc : (A ++ c :: (M ++ D)).Pairwise Before) (hb : (hdr b.addr).size = b.size)
    (hlive : ∀ e ∈ live, (hdr e.addr).size = (s.hdr e.addr).size) (hfit : ∀ e ∈ b :: M, Fit base e)
    (hcount : ∀ u, count u (b :: M) = count u [d]) (hunits : units (b :: M) = d.size) :
    ∃ free', Ok base { s with hdr := hdr, freep := c.addr } free' (b :: live) := by
  obtain ⟨free', hlist, hsub, hcount', hunits'⟩ := hf.replace M
  rw [hlist] at hl hasc
  refine ⟨free', hl, hasc, ?_, ?_, ?_, ?_, h.apart, ?_, h.bound⟩
  · have : c ∈ (⟨base, 0⟩ :: free' : List Block) := by rw [← hlist]; simp
    exact List.mem_map_of_mem (f := Block.addr) this
  · intro e he
    cases he with
    | head => exact hb
    | tail _ he => exact (hlive e he).trans (h.sizes e he)
  · intro e he
    obtain he | he := List.mem_append.mp he
    · obtain he | he := hsub e he
      · exact h.fit e (List.mem_append_left _ he)
      · exact hfit e (List.mem_cons_of_mem _ he)
    · obtain rfl | he := List.mem_cons.mp he
      · exact hfit e (List.mem_cons_self ..)
      · exact h.fit e (List.mem_append_right _ he)
  · intro u
    have hcover := h.cover u
    have h1 := hcount u
    have h2 := hcount' u
    simp only [count_append, count_cons] at hcover h1 h2 ⊢
    exact Eq.trans (by omega) hcover
  · have htotal := h.total
    simp only [units_append, units_cons] at htotal hunits hunits' ⊢
    exact Eq.trans (by omega) htotal

theorem Ok.take_whole :
    ∃ free', Ok base { s with hdr := update s.hdr c.addr { s.hdr c.addr with ptr := (s.hdr d.addr).ptr }, freep := c.addr }
      free' (d :: live) := by
  have hl := h.linked
  have hasc := h.ascending
  rw [hf.list] at hl hasc
  obtain ⟨hAl, hc, hd, hD⟩ := linked_append.mp hl
  have hcd := hf.lt.lt
  refine h.split hf (M := []) (linked_append.mpr ⟨hAl.congr fun a ha => ?_, ?_, hD.congr fun e he => ?_⟩)
    (hasc.sublist ((List.Sublist.refl A).append ((List.sublist_cons_self d D).cons_cons c))) ?_ (fun e he => ?_)
    (fun e he => ?_) (fun _ => rfl) rfl
  · exact update_of_ne (Nat.ne_of_lt (hf.low a ha)) ..
  · rw [update_self, hd, hc]
    rfl
  · exact update_of_ne (Nat.ne_of_gt (Nat.lt_trans hcd (hf.high e he).lt)) ..
  · rw [update_of_ne (Nat.ne_of_gt hcd), hd]
  · by_cases hec : e.addr = c.addr
    · rw [hec, update_self]
    · rw [update_of_ne hec]
  · rw [List.mem_singleton.mp he]
    exact h.fit d (List.mem_append_left _ hf.mem)

theorem Ok.take_end {n : Nat} (hn : 0 < n) (hlt : n < d.size) (ptr : Nat) : ∃ free', Ok base { s with
        hdr := update (update s.hdr d.addr { s.hdr d.addr with size := d.size - n })
          (d.addr + hsize * (d.size - n)) ⟨ptr, n⟩, freep := c.addr }
      free' (⟨d.addr + hsize * (d.size - n), n⟩ :: live) := by
  have hl := h.linked
  have hasc := h.ascending
  rw [hf.list] at hl hasc
  obtain ⟨hAl, hc, hd, hD⟩ := linked_append.mp hl
  have hcd := hf.lt.lt
  have hdfit := h.fit d (List.mem_append_left _ hf.mem)
  -- the new header is inside the block
  have hin : d.addr < d.addr + hsize * (d.size - n) ∧ d.addr + hsize * (d.size - n) < d.stop := by
    simp only [Block.stop, hsize]
    omega
  have hsame : ∀ x, x < d.addr ∨ d.stop < x → update (update s.hdr d.addr { s.hdr d.addr with size := d.size - n })
      (d.addr + hsize * (d.size - n)) ⟨ptr, n⟩ x = s.hdr x := by
    intro x hx
    rw [update_of_ne (by omega), update_of_ne (by omega)]
  refine h.split hf (M := [⟨d.addr, d.size - n⟩]) (linked_append.mpr ⟨hAl.congr fun a ha => ?_, ?_, ?_, hD.congr fun e he => ?_⟩)
    ?_ (by rw [update_self]) (fun e he => ?_) (fun e he => ?_) (fun u => ?_) ?_
  · exact hsame a.addr (.inl (Nat.lt_trans (hf.low a ha) hcd))
  · rw [hsame c.addr (.inl hcd), hc]
    rfl
  · dsimp only
    rw [update_of_ne (by omega), update_self, hd]
    rfl
  · exact hsame e.addr (.inr (hf.high e he))
  · obtain ⟨hA, hcD, hAc⟩ := List.pairwise_append.mp hasc
    obtain ⟨hc', hdD⟩ := List.pairwise_cons.mp hcD
    have hD' := (List.pairwise_cons.mp hdD).2
    refine List.pairwise_append.mpr ⟨hA, List.pairwise_cons.mpr ⟨?_, List.pairwise_cons.mpr ⟨?_, hD'⟩⟩, ?_⟩
    · intro e he
      cases he with
      | head => exact hf.lt
      | tail _ he => exact hc' e (List.mem_cons_of_mem _ he)
    · intro e he
      have := hf.high e he
      simp only [Before, Block.stop, hsize] at this ⊢
      omega
    · intro a ha e he
      cases he with
      | head => exact hAc a ha c (List.mem_cons_self ..)
      | tail _ he =>
        cases he with
        | head => exact hAc a ha d (by simp)
        | tail _ he => exact hAc a ha e (List.mem_cons_of_mem _ (List.mem_cons_of_mem _ he))
  · rw [update_of_ne (h.live_ne hf.mem he ⟨Nat.le_of_lt hin.1, hin.2⟩),
      update_of_ne (h.live_ne hf.mem he ⟨Nat.le_refl _, by omega⟩)]
  · cases he with
    | head => exact ⟨hn, Nat.le_trans hdfit.above (Nat.le_add_right _ _), Nat.dvd_add hdfit.aligned (Nat.dvd_mul_right _ _)⟩
    | tail _ he =>
      rw [List.mem_singleton.mp he]
      exact ⟨Nat.sub_pos_of_lt hlt, hdfit.above, hdfit.aligned⟩
  · have hjoin : count u [⟨d.addr, d.size - n⟩, ⟨d.addr + hsize * (d.size - n), n⟩] = count u [d] := by
      rw [← count_join rfl]
      simp only [Nat.sub_add_cancel (Nat.le_of_lt hlt)]
    simp only [count_cons] at hjoin ⊢
    omega
  · simp only [units_cons, units_nil]
    omega

end

end

theorem Ok.wp_take (h : Ok base s free live) {n y x : Nat} (hn : 0 < n) (hx : n ≤ (s.hdr x).size)
    (hy : y ∈ base :: free.map (·.addr)) (hyx : (s.hdr y).ptr = x) :
    Wp E (take n y x) s fun r s' => ∃ free' b, Ok base s' free' (b :: live) ∧ b.size = n ∧ r = b.addr + hsize := by
  have hxbase : x ≠ base := by
    intro e
    rw [e, h.linked.1] at hx
    exact absurd hn (Nat.not_lt.mpr hx)
  obtain ⟨A, c, d, D, hlist, rfl, rfl⟩ := h.next hy hyx hxbase
  have hf := h.found hlist
  have hd : (s.hdr d.addr).size = d.size := by
    have hl := h.linked
    rw [hlist] at hl
    rw [(linked_append.mp hl).2.2.1]
  have hbound : d.size < 2 ^ 32 := by
    have htotal := h.total
    have hlt := h.bound
    have hsize : units [d] ≤ units free := by
      obtain ⟨l₁, l₂, hfree⟩ := List.append_of_mem hf.mem
      rw [hfree]
      simp only [units_append, units_cons, units_nil]
      omega
    simp only [units_append, units_cons, units_nil] at htotal hsize
    omega
  simp only [take, wp_bind, wp_load]
  refine Lib.wp_ite (fun hwhole => ?_) fun hmore => ?_
  · obtain ⟨free', hok⟩ := h.take_whole hf
    simp only [wp_bind, wp_setPtr, wp_setFreep]
    exact ⟨free', d, hok, by omega, rfl⟩
  · rw [hd] at hx hmore ⊢
    have hlt : n < d.size := by omega
    obtain ⟨free', hok⟩ := h.take_end hf hn hlt (s.hdr (d.addr + hsize * (d.size - n))).ptr
    have hne : d.addr + hsize * (d.size - n) ≠ d.addr := by
      simp only [hsize]
      omega
    simp only [wp_bind, wp_setSize, wp_setFreep, Nat.mod_eq_of_lt (by omega : d.size - n < 2 ^ 32),
      Nat.mod_eq_of_lt (by omega : n < 2 ^ 32), update_of_ne hne]
    exact ⟨free', _, hok, rfl, rfl⟩

/-! ## malloc -/

/-- Where the loop of `malloc` does something else than go on. -/
def halts (s : Heap σ) (n p : Nat) : Bool := n ≤ (s.hdr p).size || p == s.freep

theorem search_walk (sbrk : Int → Prog σ ε (Option Nat)) {n k prevp p y x : Nat} (fuel : Nat)
    (h : Lib.walk (fun a => (s.hdr a).ptr) (halts s n) k prevp p = some (y, x)) :
    ∃ j, search sbrk n (fuel + k) prevp p s = search sbrk n (fuel + j + 1) y x s := by
  induction k generalizing prevp p with
  | zero => cases h
  | succ k ih =>
    rw [Lib.walk] at h
    split at h
    · cases h
      exact ⟨k, rfl⟩
    · rename_i hgo
      simp only [halts, Bool.or_eq_true, decide_eq_true_eq, beq_iff_eq, not_or] at hgo
      obtain ⟨j, hj⟩ := ih h
      refine ⟨j, hj ▸ ?_⟩
      have hrun : search sbrk n (fuel + (k + 1)) prevp p s = (if n ≤ (s.hdr p).size then take n prevp p
          else if p = s.freep then do
            let p ← morecore sbrk (fuel + k) n
            if p = 0 then return 0
            search sbrk n (fuel + k) p (← load p).ptr
          else search sbrk n (fuel + k) p (s.hdr p).ptr : M σ ε Nat) s := rfl
      rw [hrun, if_neg hgo.1, if_neg hgo.2]

/-- Once around the list from `freep`: the loop comes to a block that is large enough, or back to `freep` if there is none. -/
theorem Ok.around (h : Ok base s free live) (sbrk : Int → Prog σ ε (Option Nat)) (n : Nat) {fuel : Nat}
    (hfuel : free.length + 1 ≤ fuel) :
    ∃ y x j, search sbrk n fuel s.freep (s.hdr s.freep).ptr s = search sbrk n (fuel - (free.length + 1) + j + 1) y x s ∧
      y ∈ base :: free.map (·.addr) ∧ (s.hdr y).ptr = x ∧
      (n ≤ (s.hdr x).size ∨ (x = s.freep ∧ (s.hdr x).size < n ∧ ∀ b ∈ free, b.size < n)) := by
  have hcycle : Lib.Cycle (fun a => (s.hdr a).ptr) base (free.map (·.addr)) := h.linked.isChain
  obtain ⟨m, hm, hperm⟩ := hcycle.rotate h.freep
  have hnodup : (s.freep :: m).Nodup := by
    refine hperm.nodup_iff.mpr ?_
    have : ((⟨base, 0⟩ :: free : List Block).map (·.addr)).Pairwise (· ≠ ·) :=
      List.pairwise_map.mpr (h.ascending.imp fun hb => Nat.ne_of_lt hb.lt)
    exact this
  have hlen : m.length = free.length := by
    have := hperm.length_eq
    simpa using this
  obtain ⟨y, x, hwalk, hy, hyx, hx, hstop, hall⟩ := hm.walk (halts s n) (free.length + 1) (by simp [halts])
    (List.nodup_cons.mp hnodup).1 (by omega)
  obtain ⟨j, hj⟩ := search_walk sbrk (fuel - (free.length + 1)) hwalk
  rw [Nat.sub_add_cancel hfuel] at hj
  refine ⟨y, x, j, hj, hperm.mem_iff.mp hy, hyx, ?_⟩
  by_cases hsize : n ≤ (s.hdr x).size
  · exact .inl hsize
  · right
    simp only [halts, Bool.or_eq_true, decide_eq_true_eq, beq_iff_eq, hsize, false_or] at hstop
    refine ⟨hstop, Nat.lt_of_not_le hsize, ?_⟩
    intro b hb
    have hheader : (s.hdr b.addr).size = b.size := by
      obtain ⟨l₁, l₂, hfree⟩ := List.append_of_mem (List.mem_cons_of_mem (⟨base, 0⟩ : Block) hb)
      have hl := h.linked
      rw [hfree] at hl
      rw [hl.header]
    by_cases he : b.addr = s.freep
    · rw [← hheader, he, ← hstop]
      omega
    · have hmem : b.addr ∈ m := by
        have : b.addr ∈ base :: free.map (·.addr) := List.mem_cons_of_mem _ (List.mem_map_of_mem hb)
        exact (List.mem_cons.mp (hperm.mem_iff.mpr this)).resolve_left he
      have := hall hstop b.addr hmem
      simp only [halts, Bool.or_eq_false_iff, decide_eq_false_iff_not] at this
      omega

/-- What `malloc` leaves: a heap with one more live block, of the size asked for, or with none more. -/
def Result (base : Nat) (live : List Block) (n r : Nat) (s' : Heap σ) : Prop :=
  (r = 0 ∧ ∃ free', Ok base s' free' live) ∨ ∃ free' b, Ok base s' free' (b :: live) ∧ b.size = n ∧ r = b.addr + hsize

theorem Ok.wp_search_around (h : Ok base s free live) {n fuel : Nat} (hn : 0 < n) (hfuel : free.length + 1 ≤ fuel)
    (hmore : (∀ b ∈ free, b.size < n) → ∀ m ≥ fuel - (free.length + 1), Wp E (do
        let p ← morecore sbrk m n
        if p = 0 then return 0
        search sbrk n m p (← load p).ptr) s fun r s' => Result base live n r s') :
    Wp E (search sbrk n fuel s.freep (s.hdr s.freep).ptr) s fun r s' => Result base live n r s' := by
  obtain ⟨y, x, j, hrun, hy, hyx, hcase⟩ := h.around sbrk n hfuel
  unfold Wp
  rw [hrun]
  have hw : Wp E (search sbrk n (fuel - (free.length + 1) + j + 1) y x) s fun r s' => Result base live n r s' := by
    simp only [search, wp_bind, wp_get]
    obtain hx | ⟨hxf, hxsize, hall⟩ := hcase
    · rw [if_pos hx]
      exact (h.wp_take hn hx hy hyx).mono fun r s' hr => .inr hr
    · rw [if_neg (Nat.not_le.mpr hxsize), if_pos hxf]
      exact hmore hall _ (Nat.le_add_right ..)
  exact hw

theorem Ok.wp_search (h : Ok base s free live) {n fuel : Nat} (hbase : 0 < base) (hn : 0 < n)
    (hg : Gives E sbrk base (if n < 4096 then 4096 else n) s) (hfuel : 2 * free.length + 3 ≤ fuel) :
    Wp E (search sbrk n fuel s.freep (s.hdr s.freep).ptr) s fun r s' => Result base live n r s' := by
  refine h.wp_search_around hn (by omega) fun _ m hm => ?_
  rw [wp_bind]
  refine (h.wp_morecore hbase hg (by omega)).mono fun r s' hr => ?_
  obtain ⟨rfl, hok⟩ | ⟨hne, rfl, free', hok, hlen, b, hb, hle⟩ := hr
  · rw [if_pos rfl]
    exact .inl ⟨rfl, free, hok⟩
  · rw [if_neg hne]
    simp only [wp_bind, wp_load]
    exact hok.wp_search_around hn (by omega) fun hall => absurd (hall b hb) (Nat.not_lt.mpr hle)

def Untouched (s : Heap σ) : Prop := s.freep = 0 ∧ obtained s = []

theorem Untouched.ok (h : Untouched s) (base : Nat) (hdr : Nat → Header) (hb : hdr base = ⟨base, 0⟩) :
    Ok base { s with hdr := hdr, freep := base } [] [] where
  linked := ⟨hb, trivial⟩
  ascending := List.pairwise_singleton ..
  freep := List.mem_cons_self ..
  sizes _ hc := absurd hc List.not_mem_nil
  fit _ hc := absurd hc List.not_mem_nil
  cover u := congrArg (count u) h.2.symm
  apart u := by
    have : obtained { s with hdr := hdr, freep := base } = [] := h.2
    rw [this]
    exact Nat.zero_le 1
  total := congrArg units h.2.symm
  bound := by
    have : obtained { s with hdr := hdr, freep := base } = [] := h.2
    rw [this]
    exact Nat.two_pow_pos 32

theorem wp_malloc_untouched (h : Untouched s) (hbase : 0 < base) {nbytes : Nat} (hg : Gives E sbrk base (wanted nbytes) s)
    (hfuel : 3 ≤ fuel) :
    Wp E (malloc sbrk base fuel nbytes) s fun r s' => Result base [] (nunits nbytes) r s' := by
  simp only [malloc, wp_bind, wp_get]
  rw [if_pos h.1]
  simp only [wp_bind, wp_setPtr, wp_setFreep, wp_setSize, wp_get, wp_load, update_self, Function.update_idem]
  have hok := h.ok base (update s.hdr base ⟨base, 0⟩) (update_self ..)
  have hg' : Gives E sbrk base (wanted nbytes) { s with hdr := update s.hdr base ⟨base, 0⟩, freep := base } :=
    fun n => (hg n).mono fun got _ hgot a ha => ⟨(hgot a ha).fit, (hgot a ha).new, (hgot a ha).room⟩
  have hw : Wp E (search sbrk (nunits nbytes) fuel base (update s.hdr base ⟨base, 0⟩ base).ptr)
      { s with hdr := update s.hdr base ⟨base, 0⟩, freep := base } fun r s' => Result base [] (nunits nbytes) r s' :=
    hok.wp_search hbase (Nat.succ_pos _) hg' (by simpa using hfuel)
  rw [update_self] at hw
  exact hw

theorem Ok.wp_malloc (h : Ok base s free live) (hbase : 0 < base) {nbytes : Nat} (hg : Gives E sbrk base (wanted nbytes) s)
    (hfuel : 2 * free.length + 3 ≤ fuel) :
    Wp E (malloc sbrk base fuel nbytes) s fun r s' => Result base live (nunits nbytes) r s' := by
  have hne : s.freep ≠ 0 := h.freep_ne hbase
  simp only [malloc, wp_bind, wp_get]
  rw [if_neg hne]
  exact h.wp_search hbase (Nat.succ_pos _) hg hfuel

end

end Xv6.Malloc
