/-
  Xv6.Malloc.Blocks — the list of free blocks in memory, and how free links a block into it.

  A block is its address and its size in units. `Linked hdr z l`: the headers of the blocks `l`
  hold their sizes and lead from one to the next, and from the last to `z`. The memory of blocks
  is compared by `count u`: how many of them have the byte `u`.
-/

import Xv6.Malloc.Model
import Xv6.Lib.Cycle

namespace Xv6.Malloc

open Function (update update_self update_of_ne update_idem)

structure Block where
  addr : Nat
  size : Nat
  deriving DecidableEq, Repr

/-- The first address after it. -/
def Block.stop (b : Block) : Nat := b.addr + hsize * b.size

def covers (u : Nat) (b : Block) : Bool := b.addr ≤ u && u < b.stop

def count (u : Nat) (bs : List Block) : Nat := bs.countP (covers u)

def units (bs : List Block) : Nat := (bs.map (·.size)).sum

/-- There is a gap between the blocks. -/
def Before (b c : Block) : Prop := b.stop < c.addr

/-- The address of the first block, and `z` if there is none. -/
def first (z : Nat) : List Block → Nat
  | [] => z
  | b :: _ => b.addr

def Linked (hdr : Nat → Header) (z : Nat) : List Block → Prop
  | [] => True
  | b :: l => hdr b.addr = ⟨first z l, b.size⟩ ∧ Linked hdr z l

section

variable {u z : Nat} {b c : Block} {l m : List Block} {hdr hdr' : Nat → Header}

/-! ## Counting -/

@[simp] theorem count_nil : count u [] = 0 := rfl

theorem count_cons : count u (b :: l) = count u l + if covers u b then 1 else 0 := List.countP_cons ..

@[simp] theorem count_append : count u (l ++ m) = count u l + count u m := List.countP_append

@[simp] theorem units_nil : units [] = 0 := rfl

@[simp] theorem units_cons : units (b :: l) = b.size + units l := List.sum_cons

@[simp] theorem units_append : units (l ++ m) = units l + units m := by simp [units]

theorem covers_iff : covers u b = true ↔ b.addr ≤ u ∧ u < b.stop := by
  rw [covers, Bool.and_eq_true, decide_eq_true_eq, decide_eq_true_eq]

theorem count_join (h : b.stop = c.addr) : count u (⟨b.addr, b.size + c.size⟩ :: l) = count u (b :: c :: l) := by
  have hiff : ∀ d : Block, (if covers u d then 1 else 0) = if d.addr ≤ u ∧ u < d.addr + 16 * d.size then 1 else 0 := by
    intro d
    simp only [covers_iff, Block.stop, hsize]
  simp only [count_cons, hiff]
  simp only [Block.stop, hsize] at h
  rw [← h]
  split_ifs <;> omega

theorem count_empty (a : Nat) : count u (⟨a, 0⟩ :: l) = count u l := by
  rw [count_cons, if_neg]
  · rfl
  · simp only [covers_iff, Block.stop, hsize]
    omega

theorem apart_of_count (h : ∀ u, count u (b :: l) ≤ 1) (hc : c ∈ l) (hb0 : 0 < b.size) (hc0 : 0 < c.size) :
    b.stop ≤ c.addr ∨ c.stop ≤ b.addr := by
  by_contra hn
  simp only [Block.stop, hsize] at hn
  have hb : covers (max b.addr c.addr) b = true := by
    simp only [covers_iff, Block.stop, hsize]
    omega
  have hcov : covers (max b.addr c.addr) c = true := by
    simp only [covers_iff, Block.stop, hsize]
    omega
  have hpos : 0 < count (max b.addr c.addr) l := List.countP_pos_iff.mpr ⟨c, hc, hcov⟩
  have := h (max b.addr c.addr)
  rw [count_cons, if_pos hb] at this
  omega

/-! ## The list in memory -/

theorem first_append : first z (l ++ m) = first (first z m) l := by
  cases l <;> rfl

theorem linked_append : Linked hdr z (l ++ m) ↔ Linked hdr (first z m) l ∧ Linked hdr z m := by
  induction l with
  | nil => exact ⟨fun h => ⟨trivial, h⟩, And.right⟩
  | cons b l ih =>
    simp only [List.cons_append, Linked, ih, first_append, and_assoc]

theorem Linked.congr (h : Linked hdr z l) (he : ∀ b ∈ l, hdr' b.addr = hdr b.addr) : Linked hdr' z l := by
  induction l with
  | nil => trivial
  | cons b l ih =>
    refine ⟨?_, ih h.2 fun c hc => he c (List.mem_cons_of_mem _ hc)⟩
    rw [he b (List.mem_cons_self ..)]
    exact h.1

theorem Linked.isChain (h : Linked hdr z l) : List.IsChain (fun a c => (hdr a).ptr = c) (l.map (·.addr) ++ [z]) := by
  induction l with
  | nil => exact List.isChain_singleton z
  | cons b l ih =>
    have hnext : (hdr b.addr).ptr = first z l := by rw [h.1]
    cases l with
    | nil => exact List.isChain_cons_cons.mpr ⟨hnext, List.isChain_singleton z⟩
    | cons c l => exact List.isChain_cons_cons.mpr ⟨hnext, ih h.2⟩

theorem Linked.header (h : Linked hdr z (l ++ b :: m)) : hdr b.addr = ⟨first z m, b.size⟩ := (linked_append.mp h).2.1

end

/-! ## The place for a block -/

/-- A list in ascending order, cut before the address `v`. -/
structure Cut (v : Nat) (l P : List Block) (p : Block) (Q : List Block) : Prop where
  eq : l = P ++ p :: Q
  ascending : l.Pairwise Before
  below : ∀ c ∈ P, c.addr < v
  prev : p.addr < v
  above : ∀ c ∈ Q, v < c.addr

theorem Before.lt {b c : Block} (h : Before b c) : b.addr < c.addr := by
  unfold Before Block.stop at h
  omega

theorem exists_cut {v : Nat} {b : Block} {l : List Block} (hasc : (b :: l).Pairwise Before) (hb : b.addr < v)
    (hne : ∀ c ∈ l, c.addr ≠ v) : ∃ P p Q, Cut v (b :: l) P p Q := by
  induction l generalizing b with
  | nil => exact ⟨[], b, [], rfl, hasc, fun _ h => absurd h List.not_mem_nil, hb, fun _ h => absurd h List.not_mem_nil⟩
  | cons c l ih =>
    obtain ⟨hbl, hcl⟩ := List.pairwise_cons.mp hasc
    have hcv := hne c (List.mem_cons_self ..)
    by_cases hc : c.addr < v
    · obtain ⟨P, p, Q, h⟩ := ih hcl hc fun d hd => hne d (List.mem_cons_of_mem _ hd)
      refine ⟨b :: P, p, Q, congrArg (b :: ·) h.eq, hasc, ?_, h.prev, h.above⟩
      intro d hd
      cases hd with
      | head => exact hb
      | tail _ hd => exact h.below d hd
    · refine ⟨[], b, c :: l, rfl, hasc, fun _ h => absurd h List.not_mem_nil, hb, ?_⟩
      intro d hd
      cases hd with
      | head => omega
      | tail _ hd =>
        have := ((List.pairwise_cons.mp hcl).1 d hd).lt
        omega

section

variable {hdr : Nat → Header} {base v : Nat} {l P Q : List Block} {p : Block}

theorem first_above {c : Block} {C : List Block} (base : Nat) (hasc : (c :: C).Pairwise Before) :
    (C = [] ∧ first base C = base) ∨ (∃ d ∈ C, first base C = d.addr ∧ c.addr < d.addr) := by
  cases C with
  | nil => exact .inl ⟨rfl, rfl⟩
  | cons d C =>
    right
    exact ⟨d, List.mem_cons_self .., rfl, ((List.pairwise_cons.mp hasc).1 d (List.mem_cons_self ..)).lt⟩

theorem Cut.stops_iff (h : Cut v l P p Q) (hl : Linked hdr base l) (hbase : ∀ c ∈ l, base ≤ c.addr) (hv : base < v) {a : Nat}
    (ha : a ∈ l.map (·.addr)) : stops hdr v a = true ↔ a = p.addr := by
  obtain ⟨c, hc, rfl⟩ := List.mem_map.mp ha
  have hcb := hbase c hc
  have hp := h.prev
  have hpairs := h.ascending
  rw [h.eq] at hl hc hpairs
  simp only [stops, Bool.or_eq_true, Bool.and_eq_true, decide_eq_true_eq]
  obtain hc | hc := List.mem_append.mp hc
  · -- below `p`: the next one is not above `v`
    obtain ⟨A, C, rfl⟩ := List.append_of_mem hc
    rw [List.append_assoc, List.cons_append] at hl hpairs
    have hlt := h.below c hc
    have hcp : Before c p := (List.pairwise_cons.mp (List.pairwise_append.mp hpairs).2.1).1 p (by simp)
    have hnext : c.addr < first base (C ++ p :: Q) ∧ first base (C ++ p :: Q) < v := by
      cases C with
      | nil => exact ⟨hcp.lt, hp⟩
      | cons d C =>
        have hcd : Before c d := (List.pairwise_cons.mp (List.pairwise_append.mp hpairs).2.1).1 d (by simp)
        exact ⟨hcd.lt, h.below d (by simp)⟩
    have := hcp.lt
    rw [hl.header]
    simp only
    omega
  · cases hc with
    | head =>
      have hasc := (List.pairwise_append.mp hpairs).2.1
      rw [hl.header]
      refine iff_of_true ?_ rfl
      dsimp only
      obtain ⟨_, hf⟩ | ⟨d, hd, hf, -⟩ := first_above base hasc
      · omega
      · have := h.above d hd
        omega
    | tail _ hc =>
      -- above `v`
      obtain ⟨A, C, rfl⟩ := List.append_of_mem hc
      have hlt := h.above c hc
      have hl' : Linked hdr base ((P ++ p :: A) ++ c :: C) := by simpa using hl
      have hasc : (c :: C).Pairwise Before := by
        have : ((P ++ p :: A) ++ c :: C).Pairwise Before := by simpa using hpairs
        exact (List.pairwise_append.mp this).2.1
      rw [hl'.header]
      simp only
      obtain ⟨_, hf⟩ | ⟨d, hd, hf, hcd⟩ := first_above base hasc
      · omega
      · omega

end

/-! ## The loop of free -/

section

variable {σ ε : Type} {E : Stop ε → Prop} {s : Heap σ}

theorem freeSearch_walk {bp fuel prev p x y : Nat}
    (h : Lib.walk (fun a => (s.hdr a).ptr) (stops s.hdr bp) fuel prev p = some (y, x)) :
    (freeSearch bp fuel p : M σ ε Nat) s = .ok (x, s) := by
  induction fuel generalizing prev p with
  | zero => cases h
  | succ fuel ih =>
    rw [Lib.walk] at h
    have hrun : (freeSearch bp (fuel + 1) p : M σ ε Nat) s =
        (if stops s.hdr bp p then pure p else freeSearch bp fuel (s.hdr p).ptr : M σ ε Nat) s := rfl
    rw [hrun]
    split at h
    · rename_i hs
      cases h
      rw [if_pos hs]
      rfl
    · rename_i hs
      rw [if_neg hs]
      exact ih h

theorem wp_freeSearch {base v f fuel : Nat} {free P Q : List Block} {p : Block} (h : Cut v (⟨base, 0⟩ :: free) P p Q)
    (hl : Linked s.hdr base (⟨base, 0⟩ :: free)) (hv : base < v) (hf : f ∈ base :: free.map (·.addr))
    (hfuel : free.length + 1 < fuel) : Lib.Wp E (freeSearch v fuel f) s fun r s' => r = p.addr ∧ s' = s := by
  have hcycle : Lib.Cycle (fun a => (s.hdr a).ptr) base (free.map (·.addr)) := hl.isChain
  have hbase : ∀ c ∈ (⟨base, 0⟩ :: free : List Block), base ≤ c.addr := by
    intro c hc
    cases hc with
    | head => exact Nat.le_refl _
    | tail _ hc => exact Nat.le_of_lt ((List.pairwise_cons.mp h.ascending).1 c hc).lt
  have hp : p.addr ∈ base :: free.map (·.addr) := by
    have : p ∈ (⟨base, 0⟩ :: free : List Block) := by rw [h.eq]; simp
    exact List.mem_map_of_mem (f := Block.addr) this
  obtain ⟨y, hy⟩ := hcycle.walk_to f hf hp (fun a ha => h.stops_iff hl hbase hv ha) (by rw [List.length_map]; exact hfuel)
  unfold Lib.Wp
  rw [freeSearch_walk hy]
  exact ⟨rfl, rfl⟩

end

/-! ## Linking a block in -/

/-- The headers after the block at `bp` has been joined with the one after it, or leads to it. -/
def linkNext (hdr : Nat → Header) (bp next : Nat) : Nat → Header :=
  if bp + hsize * (hdr bp).size = next then
    update hdr bp ⟨(hdr next).ptr, ((hdr bp).size + (hdr next).size) % 2 ^ 32⟩
  else update hdr bp ⟨next, (hdr bp).size⟩

/-- The headers after the block at `p` has been joined with the one at `bp`, or leads to it. -/
def linkPrev (hdr : Nat → Header) (bp p : Nat) : Nat → Header :=
  if p + hsize * (hdr p).size = bp then update hdr p ⟨(hdr bp).ptr, ((hdr p).size + (hdr bp).size) % 2 ^ 32⟩
  else update hdr p ⟨bp, (hdr p).size⟩

theorem wp_free {σ ε : Type} {E : Stop ε → Prop} {s : Heap σ} {fuel bp p : Nat}
    (h : Lib.Wp E (freeSearch bp fuel s.freep) s fun r s' => r = p ∧ s' = s) :
    Lib.Wp E (free fuel (bp + hsize)) s fun _ s' =>
      s' = { s with hdr := linkPrev (linkNext s.hdr bp (s.hdr p).ptr) bp p, freep := p } := by
  simp only [free, Nat.add_sub_cancel, Lib.wp_bind, Lib.wp_get]
  refine h.mono fun r s' hr => ?_
  obtain ⟨rfl, rfl⟩ := hr
  simp only [wp_load]
  unfold linkNext linkPrev
  refine Lib.wp_ite (fun hn => ?_) fun hn => ?_ <;>
    simp only [hn, ↓reduceIte, Lib.wp_bind, wp_load, wp_setSize, wp_setPtr, update_self, update_idem] <;>
    refine Lib.wp_ite (fun hp => ?_) fun hp => ?_ <;>
    simp only [hp, ↓reduceIte, Lib.wp_bind, wp_load, wp_setSize, wp_setPtr, wp_setFreep, update_self, update_idem]

/-- The blocks `X` in place of `Y`: ascending, linked, with the same memory. -/
structure Joined (hdr : Nat → Header) (base : Nat) (Y X : List Block) : Prop where
  linked : Linked hdr base X
  ascending : X.Pairwise Before
  count : ∀ u, count u X = count u Y
  units : units X = units Y
  /-- Every block is one of those before, or has grown. -/
  grown : ∀ c ∈ X, ∃ d ∈ Y, c.addr = d.addr ∧ d.size ≤ c.size
  length : X.length ≤ Y.length

section

variable {hdr : Nat → Header} {base : Nat} {b p : Block} {Q : List Block}

theorem linkPrev_eq (bp p : Nat) : linkPrev hdr bp p = linkNext hdr p bp := rfl

theorem linkNext_of_ne {a bp next : Nat} (ha : a ≠ bp) : linkNext hdr bp next a = hdr a := by
  unfold linkNext
  split <;> exact update_of_ne ha ..

theorem joined (hl : Linked hdr base Q) (hasc : Q.Pairwise Before) (hsize : (hdr b.addr).size = b.size)
    (hend : Q = [] → b.stop ≠ base)
    (hQ : ∀ c ∈ Q, b.stop ≤ c.addr ∧ b.addr < c.addr) (hunits : units (b :: Q) < 2 ^ 32) :
    ∃ X, first base X = b.addr ∧ (b.stop ≠ first base Q → X = b :: Q) ∧ (∀ c ∈ b :: Q, ∃ x ∈ X, c.size ≤ x.size) ∧
      Joined (linkNext hdr b.addr (first base Q)) base (b :: Q) X := by
  have hstop : b.addr + Malloc.hsize * (hdr b.addr).size = b.stop := by rw [hsize, Block.stop]
  have hothers : ∀ h, ∀ c ∈ Q, update hdr b.addr h c.addr = hdr c.addr := by
    intro h c hc
    have := (hQ c hc).2
    exact update_of_ne (by omega) ..
  unfold linkNext
  rw [hstop]
  by_cases hjoin : b.stop = first base Q
  · cases Q with
    | nil => exact absurd hjoin (hend rfl)
    | cons q Q =>
      obtain ⟨hqQ, hQQ⟩ := List.pairwise_cons.mp hasc
      have hqaddr : b.stop = q.addr := hjoin
      have hfirst : first base (q :: Q) = q.addr := rfl
      have hsum : b.size + q.size < 2 ^ 32 := by
        simp only [units_cons] at hunits
        omega
      rw [if_pos hjoin, hfirst, hl.1, hsize]
      dsimp only
      rw [Nat.mod_eq_of_lt hsum]
      refine ⟨⟨b.addr, b.size + q.size⟩ :: Q, rfl, fun h => absurd hjoin h, ?_, ?_, ?_, ?_, ?_, ?_, Nat.le_succ _⟩
      · intro c hc
        obtain rfl | rfl | hc : c = b ∨ c = q ∨ c ∈ Q := by simpa using hc
        · exact ⟨_, List.mem_cons_self .., Nat.le_add_right _ _⟩
        · exact ⟨_, List.mem_cons_self .., Nat.le_add_left _ _⟩
        · exact ⟨c, List.mem_cons_of_mem _ hc, Nat.le_refl _⟩
      · exact ⟨update_self .., hl.2.congr fun c hc => hothers _ c (List.mem_cons_of_mem _ hc)⟩
      · refine List.pairwise_cons.mpr ⟨?_, hQQ⟩
        intro c hc
        have := hqQ c hc
        simp only [Before, Block.stop] at this hqaddr ⊢
        rw [Nat.mul_add, ← Nat.add_assoc, hqaddr]
        exact this
      · exact fun u => count_join hqaddr
      · simp only [units_cons]
        omega
      · intro c hc
        cases hc with
        | head => exact ⟨b, List.mem_cons_self .., rfl, Nat.le_add_right _ _⟩
        | tail _ hc => exact ⟨c, List.mem_cons_of_mem _ (List.mem_cons_of_mem _ hc), rfl, Nat.le_refl _⟩
  · rw [if_neg hjoin]
    refine ⟨b :: Q, rfl, fun _ => rfl, fun c hc => ⟨c, hc, Nat.le_refl _⟩, ?_, ?_, fun _ => rfl, rfl,
      fun c hc => ⟨c, hc, rfl, Nat.le_refl _⟩, Nat.le_refl _⟩
    · exact ⟨by rw [update_self, hsize], hl.congr (hothers _)⟩
    · refine List.pairwise_cons.mpr ⟨?_, hasc⟩
      intro c hc
      cases Q with
      | nil => cases hc
      | cons q Q =>
        have hbq : Before b q := Nat.lt_of_le_of_ne (hQ q (List.mem_cons_self ..)).1 hjoin
        cases hc with
        | head => exact hbq
        | tail _ hc => exact Nat.lt_trans hbq ((List.pairwise_cons.mp hasc).1 c hc).lt

theorem Joined.trans_cons {hdr' : Nat → Header} {X X' Y : List Block} (h : Joined hdr base Y X)
    (h' : Joined hdr' base (p :: X) X') :
    Joined hdr' base (p :: Y) X' := by
  refine ⟨h'.linked, h'.ascending, fun u => ?_, ?_, fun c hc => ?_, Nat.le_trans h'.length (Nat.succ_le_succ h.length)⟩
  · rw [h'.count, count_cons, h.count, ← count_cons]
  · rw [h'.units, units_cons, h.units, ← units_cons]
  · obtain ⟨d, hd, hcd, hle⟩ := h'.grown c hc
    cases hd with
    | head => exact ⟨p, List.mem_cons_self .., hcd, hle⟩
    | tail _ hd =>
      obtain ⟨e, he, hde, hle'⟩ := h.grown d hd
      exact ⟨e, List.mem_cons_of_mem _ he, hcd.trans hde, Nat.le_trans hle' hle⟩

/-- Joining the blocks after `P` keeps `P`. -/
theorem Joined.append {P X Y : List Block} (h : Joined hdr base Y X) (hP : Linked hdr (first base X) P)
    (hasc : P.Pairwise Before) (hY : ∀ c ∈ P, ∀ d ∈ Y, Before c d) : Joined hdr base (P ++ Y) (P ++ X) where
  linked := linked_append.mpr ⟨hP, h.linked⟩
  ascending := by
    refine List.pairwise_append.mpr ⟨hasc, h.ascending, fun c hc x hx => ?_⟩
    obtain ⟨d, hd, e, -⟩ := h.grown x hx
    rw [Before, e]
    exact hY c hc d hd
  count u := by rw [count_append, count_append, h.count]
  units := by rw [units_append, units_append, h.units]
  grown c hc := by
    obtain hc | hc := List.mem_append.mp hc
    · exact ⟨c, List.mem_append_left _ hc, rfl, Nat.le_refl _⟩
    · obtain ⟨d, hd, hcd⟩ := h.grown c hc
      exact ⟨d, List.mem_append_right _ hd, hcd⟩
  length := by simpa using h.length

/-- The two steps from `p` on: `b` is joined with what comes after it, and `p` with that. -/
theorem joined_both (hl : Linked hdr base (p :: Q)) (hasc : (p :: Q).Pairwise Before) (hsize : (hdr b.addr).size = b.size)
    (hbase : base < b.addr) (hpb : p.stop ≤ b.addr) (hlt : p.addr < b.addr)
    (hQ : ∀ c ∈ Q, b.stop ≤ c.addr ∧ b.addr < c.addr) (hunits : units (p :: b :: Q) < 2 ^ 32) :
    ∃ X, first base X = p.addr ∧ (p.stop ≠ b.addr → X.head? = some p) ∧ (∃ x ∈ X, b.size ≤ x.size) ∧
      Joined (linkPrev (linkNext hdr b.addr (hdr p.addr).ptr) b.addr p.addr) base (p :: b :: Q) X := by
  have hptr : (hdr p.addr).ptr = first base Q := by rw [hl.1]
  rw [hptr, linkPrev_eq]
  rw [units_cons] at hunits
  obtain ⟨Y, hfirstY, -, hlarge, hj⟩ := joined hl.2 (List.pairwise_cons.mp hasc).2 hsize
    (fun _ => by simp only [Block.stop]; omega) hQ (by omega)
  have hp : (linkNext hdr b.addr (first base Q) p.addr).size = p.size := by rw [linkNext_of_ne (by omega), hl.1]
  have hY : ∀ c ∈ Y, b.addr ≤ c.addr := fun c hc => by
    obtain ⟨d, hd, hcd, -⟩ := hj.grown c hc
    cases hd with
    | head => omega
    | tail _ hd =>
      have := (hQ d hd).2
      omega
  obtain ⟨y, hy, hysize⟩ := hlarge b (List.mem_cons_self ..)
  obtain ⟨X, hfirst, hkeep, hlarge', hX⟩ := joined hj.linked hj.ascending hp (fun e => by rw [e] at hy; cases hy)
    (fun c hc => ⟨Nat.le_trans hpb (hY c hc), Nat.lt_of_lt_of_le hlt (hY c hc)⟩) (by rw [units_cons, hj.units]; exact hunits)
  obtain ⟨x, hx, hxsize⟩ := hlarge' y (List.mem_cons_of_mem _ hy)
  rw [hfirstY] at hX hkeep
  exact ⟨X, hfirst, fun h => by rw [hkeep h]; rfl, ⟨x, hx, Nat.le_trans hysize hxsize⟩, hj.trans_cons hX⟩

theorem mem_free {free : List Block} {c : Block} (hc : c ∈ (⟨base, 0⟩ :: free : List Block)) (hlt : base < c.addr) :
    c ∈ free := by
  cases hc with
  | head => exact absurd hlt (Nat.lt_irrefl _)
  | tail _ hc => exact hc

/-- The free blocks after `b` has been linked in. -/
structure LinkedIn (base : Nat) (hdr hdr' : Nat → Header) (free : List Block) (b p : Block) (free' : List Block) : Prop where
  linked : Linked hdr' base (⟨base, 0⟩ :: free')
  ascending : (⟨base, 0⟩ :: free' : List Block).Pairwise Before
  prev : p.addr ∈ base :: free'.map (·.addr)
  count : ∀ u, count u free' = count u (b :: free)
  units : units free' = units (b :: free)
  grown : ∀ c ∈ free', ∃ d ∈ b :: free, c.addr = d.addr ∧ d.size ≤ c.size
  large : 0 < b.size → ∃ x ∈ free', b.size ≤ x.size
  length : free'.length ≤ free.length + 1
  others : ∀ a, a ≠ base → (∀ d ∈ b :: free, a ≠ d.addr) → hdr' a = hdr a

theorem LinkedIn.of_joined {free free' P : List Block} {hdr' : Nat → Header}
    (h : Joined hdr' base (P ++ p :: b :: Q) (⟨base, 0⟩ :: free')) (heq : ⟨base, 0⟩ :: free = P ++ p :: Q)
    (hprev : p.addr ∈ base :: free'.map (·.addr)) (hlarge : ∃ x ∈ (⟨base, 0⟩ :: free' : List Block), b.size ≤ x.size)
    (hsame : ∀ a, a ≠ b.addr → a ≠ p.addr → hdr' a = hdr a) : LinkedIn base hdr hdr' free b p free' where
  linked := h.linked
  ascending := h.ascending
  prev := hprev
  count u := by
    have h1 := h.count u
    have h2 : Malloc.count u free = Malloc.count u (P ++ p :: Q) := by rw [← heq, count_empty]
    rw [count_empty] at h1
    simp only [count_append, count_cons] at *
    omega
  units := by
    have h1 := h.units
    have h2 := congrArg Malloc.units heq
    simp only [units_append, units_cons] at *
    omega
  grown c hc := by
    have hlt := ((List.pairwise_cons.mp h.ascending).1 c hc).lt
    obtain ⟨d, hd, hcd, hle⟩ := h.grown c (List.mem_cons_of_mem _ hc)
    refine ⟨d, ?_, hcd, hle⟩
    by_cases e : d = b
    · exact e ▸ List.mem_cons_self ..
    · have hd : d ∈ P ++ p :: Q := by simpa [e] using hd
      exact List.mem_cons_of_mem _ (mem_free (heq ▸ hd) (hcd ▸ hlt))
  large hpos := by
    obtain ⟨x, hx, hle⟩ := hlarge
    cases hx with
    | head => exact absurd hle (Nat.not_le.mpr hpos)
    | tail _ hx => exact ⟨x, hx, hle⟩
  length := by
    have h1 := h.length
    have h2 := congrArg List.length heq
    simp only [List.length_append, List.length_cons] at h1 h2
    omega
  others a ha hne := by
    refine hsame a (hne b (List.mem_cons_self ..)) fun e => ?_
    have hp : p ∈ (⟨base, 0⟩ :: free : List Block) := by rw [heq]; simp
    cases hp with
    | head => exact ha e
    | tail _ hp => exact hne p (List.mem_cons_of_mem _ hp) e

theorem linkedIn {free P : List Block} (hl : Linked hdr base (⟨base, 0⟩ :: free)) (hsize : (hdr b.addr).size = b.size)
    (hbase : base < b.addr) (hcut : Cut b.addr (⟨base, 0⟩ :: free) P p Q) (hpb : p.stop ≤ b.addr)
    (hQ : ∀ c ∈ Q, b.stop ≤ c.addr) (hunits : units (b :: free) < 2 ^ 32) :
    ∃ free', LinkedIn base hdr (linkPrev (linkNext hdr b.addr (hdr p.addr).ptr) b.addr p.addr) free b p free' := by
  have hasc := hcut.ascending
  have hL := congrArg units hcut.eq
  rw [hcut.eq] at hl hasc
  simp only [units_append, units_cons] at hL hunits
  obtain ⟨hPl, hpQ⟩ := linked_append.mp hl
  obtain ⟨hPasc, hpQasc, hPQ⟩ := List.pairwise_append.mp hasc
  obtain ⟨X, hfirst, hhead, ⟨x, hx, hle⟩, hX⟩ := joined_both hpQ hpQasc hsize hbase hpb hcut.prev
    (fun c hc => ⟨hQ c hc, hcut.above c hc⟩) (by simp only [units_cons]; omega)
  set hdr' := linkPrev (linkNext hdr b.addr (hdr p.addr).ptr) b.addr p.addr with hdef
  have hsame : ∀ a, a ≠ b.addr → a ≠ p.addr → hdr' a = hdr a := by
    intro a h1 h2
    rw [hdef, linkPrev_eq, linkNext_of_ne h2, linkNext_of_ne h1]
  have hcp : ∀ c ∈ P, Before c p := fun c hc => hPQ c hc p (List.mem_cons_self ..)
  have hall : Joined hdr' base (P ++ p :: b :: Q) (P ++ X) := by
    refine hX.append ?_ hPasc fun c hc d hd => ?_
    · rw [hfirst]
      exact hPl.congr fun c hc => hsame c.addr (Nat.ne_of_lt (hcut.below c hc)) (Nat.ne_of_lt (hcp c hc).lt)
    · obtain rfl | rfl | hd : d = p ∨ d = b ∨ d ∈ Q := by simpa using hd
      · exact hcp c hc
      · exact Nat.lt_trans (hcp c hc) hcut.prev
      · exact hPQ c hc d (List.mem_cons_of_mem _ hd)
  obtain ⟨free', hlist⟩ : ∃ free', P ++ X = ⟨base, 0⟩ :: free' := by
    cases P with
    | nil =>
      have hp : (⟨base, 0⟩ : Block) = p := (List.cons.inj hcut.eq).1
      obtain ⟨Y, rfl⟩ := List.head?_eq_some_iff.mp (hhead (by rw [← hp]; exact Nat.ne_of_lt hbase))
      exact ⟨Y, by rw [hp]; rfl⟩
    | cons c P =>
      have hc : (⟨base, 0⟩ : Block) = c := (List.cons.inj hcut.eq).1
      exact ⟨P ++ X, by rw [hc]; rfl⟩
  refine ⟨free', .of_joined (hlist ▸ hall) hcut.eq ?_ ⟨x, hlist ▸ List.mem_append_right _ hx, hle⟩ hsame⟩
  obtain ⟨c, X, rfl⟩ := List.exists_cons_of_ne_nil (List.ne_nil_of_mem hx)
  have hmem : c ∈ (⟨base, 0⟩ :: free' : List Block) := by rw [← hlist]; simp
  exact hfirst ▸ List.mem_map_of_mem (f := Block.addr) hmem

end

end Xv6.Malloc
