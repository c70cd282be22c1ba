/-
  Xv6.Malloc.Runs — every sequence of malloc and free (see `Xv6.Malloc.Heap`).

  Here the system gives a region or refuses, as the run says: `ans` is what a call of `sbrk`
  would return. The user frees pointers that it has got and not freed yet, and writes to the
  bytes it has asked for.
-/

import Xv6.Lib.System
import Xv6.Malloc.Heap

namespace Xv6.Malloc

structure Alloc where
  ptr : Nat
  n : Nat
  deriving DecidableEq, Repr

def Alloc.block (a : Alloc) : Block := ⟨a.ptr - hsize, nunits a.n⟩

/-- The user may write this byte. -/
def Alloc.usable (a : Alloc) (u : Nat) : Bool := a.ptr ≤ u && u < a.ptr + a.n

structure St where
  /-- The system is its next answer. -/
  heap : Heap (Option Nat)
  live : List Alloc

inductive Call where
  | malloc (nbytes fuel : Nat) (ans : Option Nat)
  | free (ptr fuel : Nat)
  | write (f : Nat → Header)

def answer (_ : Int) : Lib.Prog (Option Nat) Empty (Option Nat) := get

def next (base : Nat) (s : St) : Call → Option St
  | .malloc nbytes fuel ans =>
    match malloc answer base fuel nbytes { s.heap with os := ans } with
    | .ok (r, h) => some ⟨h, if r = 0 then s.live else ⟨r, nbytes⟩ :: s.live⟩
    | .error _ => none
  | .free ptr fuel =>
    match (free fuel ptr : M _ Empty Unit) s.heap with
    | .ok (_, h) => some ⟨h, s.live.eraseP (·.ptr == ptr)⟩
    | .error _ => none
  | .write f => some { s with heap := { s.heap with hdr := fun a => if s.live.any (·.usable a) then f a else s.heap.hdr a } }

def start (s : St) : Prop := s.heap.freep = 0 ∧ s.heap.asks = [] ∧ s.live = []

def sys (base : Nat) : Lib.Sys St Call := Lib.Sys.ofFn start (next base)

/-- A region that the heap does not have yet, aligned and behind `base`. -/
structure Region (base : Nat) (s : Heap σ) (b : Block) : Prop where
  fit : Fit base b
  new : ∀ u, covers u b = true → count u (obtained s) = 0

/-- What is taken for granted of the calls: `sbrk` gives new regions, and live pointers are freed. -/
def Proper (base : Nat) (s : St) : Call → Prop
  | .malloc nbytes _ ans => nbytes < 2 ^ 32 ∧ ∀ a, ans = some a → Region base s.heap ⟨a, wanted nbytes⟩
  | .free ptr _ => ∃ a ∈ s.live, a.ptr = ptr
  | .write _ => True

/-- The sizes of all regions together stay below 2^32 units. -/
def Small (s : St) : Call → Prop
  | .malloc nbytes _ ans => ∀ a, ans = some a → units (obtained s.heap) + wanted nbytes < 2 ^ 32
  | _ => True

/-! ## What the heap is for -/

/-- The free blocks `free`: from `base` around, ascending and with gaps; they and the live blocks have each byte that
    was obtained, once, and no other; and what the user may write is in no header. -/
structure Represents (base : Nat) (s : St) (free : List Block) : Prop where
  circular : Lib.Cycle (fun a => (s.heap.hdr a).ptr) base (free.map (·.addr))
  sizes : ∀ b ∈ free, (s.heap.hdr b.addr).size = b.size
  ascending : (⟨base, 0⟩ :: free : List Block).Pairwise Before
  partition : ∀ u, count u (free ++ s.live.map Alloc.block) = if (obtained s.heap).any (covers u) then 1 else 0
  usable : ∀ a ∈ s.live, ∀ u, a.usable u = true → covers u a.block = true ∧
    count u (free ++ (s.live.erase a).map Alloc.block) = 0 ∧
    base + hsize ≤ u ∧ ∀ b ∈ free ++ s.live.map Alloc.block, ¬ (b.addr ≤ u ∧ u < b.addr + hsize)

/-! ## More fuel does not matter -/

section

variable {σ ε α β : Type} {m n bp p prevp base nu ap nbytes : Nat} {sbrk : Int → Lib.Prog σ ε (Option Nat)}

/-- Where `c` returns, `c'` returns the same. -/
def Extends (c c' : M σ ε α) : Prop := ∀ s r, c s = .ok r → c' s = .ok r

theorem Extends.refl (c : M σ ε α) : Extends c c := fun _ _ h => h

theorem Extends.bind {c c' : M σ ε α} {f f' : α → M σ ε β} (hc : Extends c c') (hf : ∀ a, Extends (f a) (f' a)) :
    Extends (c >>= f) (c' >>= f') := by
  intro s r h
  have hbind : ∀ (c : M σ ε α) (f : α → M σ ε β), (c >>= f) s = (c s >>= fun x => f x.1 x.2) := fun _ _ => rfl
  rw [hbind] at h ⊢
  cases hs : c s with
  | error e =>
    rw [hs] at h
    cases h
  | ok x =>
    rw [hs] at h
    rw [hc s x hs]
    exact hf x.1 x.2 r h

theorem Extends.ite {q : Prop} [Decidable q] {c c' d d' : M σ ε α} (hc : Extends c c') (hd : Extends d d') :
    Extends (if q then c else d) (if q then c' else d') := by
  split
  · exact hc
  · exact hd

theorem freeSearch_extends (h : m ≤ n) : Extends (freeSearch bp m p : M σ ε Nat) (freeSearch bp n p) := by
  induction m generalizing n p with
  | zero => exact fun _ _ h => nomatch h
  | succ m ih =>
    obtain ⟨n, rfl⟩ := Nat.exists_eq_add_one.mpr (Nat.zero_lt_of_lt h)
    exact (Extends.refl _).bind fun s => .ite (.refl _) (ih (Nat.le_of_succ_le_succ h))

theorem free_extends (h : m ≤ n) : Extends (free m ap : M σ ε Unit) (free n ap) :=
  (Extends.refl _).bind fun _ => (freeSearch_extends h).bind fun _ => .refl _

theorem morecore_extends (h : m ≤ n) : Extends (morecore sbrk m nu) (morecore sbrk n nu) := by
  refine (Extends.refl _).bind fun got => ?_
  cases got with
  | none => exact .refl _
  | some p => exact (Extends.refl _).bind fun _ => (free_extends h).bind fun _ => .refl _

theorem search_extends (h : m ≤ n) : Extends (search sbrk nu m prevp p) (search sbrk nu n prevp p) := by
  induction m generalizing n prevp p with
  | zero => exact fun _ _ h => nomatch h
  | succ m ih =>
    obtain ⟨n, rfl⟩ := Nat.exists_eq_add_one.mpr (Nat.zero_lt_of_lt h)
    have hmn := Nat.le_of_succ_le_succ h
    refine (Extends.refl _).bind fun s => .ite (.refl _) (.ite ?_ (ih hmn))
    exact (morecore_extends hmn).bind fun p => .ite (.refl _) ((Extends.refl _).bind fun _ => ih hmn)

theorem malloc_extends (h : m ≤ n) : Extends (malloc sbrk base m nbytes) (malloc sbrk base n nbytes) := by
  refine (Extends.refl _).bind fun s => ?_
  have hrest : Extends (do
      let prevp := (← get).freep
      search sbrk (nunits nbytes) m prevp (← load prevp).ptr) (do
      let prevp := (← get).freep
      search sbrk (nunits nbytes) n prevp (← load prevp).ptr) :=
    (Extends.refl _).bind fun _ => (Extends.refl _).bind fun _ => search_extends h
  split
  · exact (Extends.refl _).bind fun _ => (Extends.refl _).bind fun _ => (Extends.refl _).bind fun _ => hrest
  · exact hrest

end

/-! ## One call -/

section

variable {base : Nat} {s s' : St} {free : List Block} {a : Alloc}

theorem Ok.usable (h : Ok base s.heap free (s.live.map Alloc.block)) (ha : a ∈ s.live) {u : Nat} (hu : a.usable u = true) :
    covers u a.block = true ∧ count u (free ++ (s.live.erase a).map Alloc.block) = 0 ∧ base + hsize ≤ u ∧
      ∀ b ∈ free ++ s.live.map Alloc.block, ¬ (b.addr ≤ u ∧ u < b.addr + hsize) := by
  have hfit := h.fit a.block (List.mem_append_right _ (List.mem_map_of_mem ha))
  have habove := hfit.above
  simp only [Alloc.usable, Bool.and_eq_true, decide_eq_true_eq] at hu
  simp only [Alloc.block, hsize] at habove
  have hcov : covers u a.block = true := by
    simp only [covers_iff, Block.stop, Alloc.block, nunits, hsize]
    omega
  have hperm : (free ++ s.live.map Alloc.block).Perm (a.block :: (free ++ (s.live.erase a).map Alloc.block)) :=
    (((List.perm_cons_erase ha).map Alloc.block).append_left free).trans List.perm_middle
  have hzero : count u (free ++ (s.live.erase a).map Alloc.block) = 0 := by
    have hcount : count u (free ++ s.live.map Alloc.block) ≤ 1 := (h.cover u).trans_le (h.apart u)
    rw [count, hperm.countP_eq] at hcount
    change count u (a.block :: _) ≤ 1 at hcount
    rw [count_cons, if_pos hcov] at hcount
    omega
  refine ⟨hcov, hzero, by simp only [hsize]; omega, ?_⟩
  intro b hb hin
  obtain rfl | hb' := List.mem_cons.mp (hperm.mem_iff.mp hb)
  · simp only [Alloc.block, hsize] at hin
    omega
  · have hbpos := (h.fit b hb).pos
    have hbcov : covers u b = true := by
      simp only [covers_iff, Block.stop, hsize] at hin ⊢
      omega
    have : 0 < count u (free ++ (s.live.erase a).map Alloc.block) := List.countP_pos_iff.mpr ⟨b, hb', hbcov⟩
    omega

/-- The state of every run: nothing has been done, or the heap is in order. -/
def Inv (base : Nat) (s : St) : Prop :=
  (Untouched s.heap ∧ s.live = []) ∨ ∃ free, Ok base s.heap free (s.live.map Alloc.block)

theorem Ok.answer {live : List Block} (h : Ok base s.heap free live) (ans : Option Nat) :
    Ok base { s.heap with os := ans } free live :=
  ⟨h.linked, h.ascending, h.freep, h.sizes, h.fit, h.cover, h.apart, h.total, h.bound⟩

theorem gives {E : Stop Empty → Prop} {nbytes : Nat} {ans : Option Nat} {fuel : Nat}
    (hp : Proper base s (.malloc nbytes fuel ans))
    (hs : Small s (.malloc nbytes fuel ans)) : Gives E Malloc.answer base (wanted nbytes) { s.heap with os := ans } := by
  intro n got hgot
  exact ⟨(hp.2 got hgot).fit, (hp.2 got hgot).new, hs got hgot⟩

theorem Inv.malloc_returns (h : Inv base s) (hbase : 0 < base) {nbytes : Nat} {ans : Option Nat}
    (hp : Proper base s (.malloc nbytes 0 ans)) (hs : Small s (.malloc nbytes 0 ans)) :
    ∃ fuel, ∀ n, fuel ≤ n → ∃ s', next base s (.malloc nbytes n ans) = some s' ∧ Inv base s' := by
  have hresult : ∃ fuel, ∀ n, fuel ≤ n → ∃ r h',
      Malloc.malloc Malloc.answer base n nbytes { s.heap with os := ans } = .ok (r, h') ∧
      Result base (s.live.map Alloc.block) (nunits nbytes) r h' := by
    obtain ⟨hu, hl⟩ | ⟨free, hok⟩ := h
    · rw [hl]
      have hu' : Untouched { s.heap with os := ans } := hu
      exact ⟨3, fun n hn => (wp_malloc_untouched (E := fun _ => False) hu' hbase (gives hp hs) hn).returns⟩
    · exact ⟨_, fun n hn => ((hok.answer ans).wp_malloc (E := fun _ => False) hbase (gives hp hs) hn).returns⟩
  obtain ⟨fuel, hfuel⟩ := hresult
  refine ⟨fuel, fun n hn => ?_⟩
  obtain ⟨r, h', hrun, hr⟩ := hfuel n hn
  refine ⟨_, by rw [next, hrun], ?_⟩
  right
  obtain ⟨rfl, free', hok⟩ | ⟨free', b, hok, hb, rfl⟩ := hr
  · exact ⟨free', hok⟩
  · refine ⟨free', ?_⟩
    have hne : b.addr + hsize ≠ 0 := by simp only [hsize]; omega
    have hblock : Alloc.block ⟨b.addr + hsize, nbytes⟩ = b := by
      rw [Alloc.block, Nat.add_sub_cancel, ← hb]
    simp only [if_neg hne, List.map_cons, hblock]
    exact hok

theorem Inv.free_returns (h : Inv base s) {ptr : Nat} (hp : Proper base s (.free ptr 0)) :
    ∃ fuel, ∀ n, fuel ≤ n → ∃ s', next base s (.free ptr n) = some s' ∧ Inv base s' := by
  obtain ⟨a, ha, hptr⟩ := hp
  obtain ⟨_, hl⟩ | ⟨free, hok⟩ := h
  · rw [hl] at ha
    cases ha
  · obtain ⟨x, l₁, l₂, -, hx, hlive, herase⟩ := List.exists_of_eraseP ha (p := fun y => y.ptr == ptr) (by simp [hptr])
    have hperm : (s.live.map Alloc.block).Perm (x.block :: (s.live.eraseP (·.ptr == ptr)).map Alloc.block) := by
      rw [herase, hlive]
      exact (List.perm_middle.map Alloc.block)
    have hok' := hok.perm hperm
    have hxptr : x.block.addr + hsize = ptr := by
      have := (hok'.fit x.block (by simp)).above
      simp only [beq_iff_eq] at hx
      simp only [Alloc.block, hsize] at this ⊢
      omega
    refine ⟨free.length + 2, fun n hn => ?_⟩
    obtain ⟨_, h', hrun, -, free', hok'', -⟩ :=
      (hok'.wp_free (ε := Empty) (E := fun _ => False) (by omega : free.length + 1 < n)).returns
    rw [hxptr] at hrun
    exact ⟨_, by rw [next, hrun], .inr ⟨free', hok''⟩⟩

theorem Inv.write (h : Inv base s) {f : Nat → Header} (hn : next base s (.write f) = some s') : Inv base s' := by
  cases hn
  obtain ⟨hu, hl⟩ | ⟨free, hok⟩ := h
  · exact .inl ⟨hu, hl⟩
  · right
    -- no header is where the user may write
    have hsame : ∀ x, (x = base ∨ ∃ b ∈ free ++ s.live.map Alloc.block, x = b.addr) →
        (if s.live.any (·.usable x) then f x else s.heap.hdr x) = s.heap.hdr x := by
      intro x hx
      rw [if_neg]
      intro hany
      obtain ⟨a, ha, hu⟩ := List.any_eq_true.mp hany
      obtain ⟨-, -, hlow, hhead⟩ := hok.usable ha hu
      simp only [hsize] at hlow hhead
      obtain rfl | ⟨b, hb, rfl⟩ := hx
      · omega
      · exact hhead b hb ⟨Nat.le_refl _, by omega⟩
    refine ⟨free, hok.linked.congr ?_, hok.ascending, hok.freep, ?_, hok.fit, hok.cover, hok.apart, hok.total, hok.bound⟩
    · intro b hb
      cases hb with
      | head => exact hsame base (.inl rfl)
      | tail _ hb => exact hsame b.addr (.inr ⟨b, List.mem_append_left _ hb, rfl⟩)
    · intro b hb
      have := hsame b.addr (.inr ⟨b, List.mem_append_right _ hb, rfl⟩)
      dsimp only
      rw [this]
      exact hok.sizes b hb

theorem Inv.next (h : Inv base s) (hbase : 0 < base) {c : Call} (hp : Proper base s c) (hs : Small s c)
    (hn : next base s c = some s') : Inv base s' := by
  cases c with
  | malloc nbytes fuel ans =>
    -- with more fuel the call ends in the same state
    obtain ⟨F, hF⟩ := h.malloc_returns hbase hp hs
    obtain ⟨t, ht, hinv⟩ := hF (max F fuel) (Nat.le_max_left ..)
    simp only [Malloc.next] at hn ht
    cases hrun : Malloc.malloc Malloc.answer base fuel nbytes { s.heap with os := ans } with
    | error e =>
      rw [hrun] at hn
      cases hn
    | ok r =>
      rw [malloc_extends (Nat.le_max_right F fuel) _ _ hrun] at ht
      rw [hrun] at hn
      cases hn
      cases ht
      exact hinv
  | free ptr fuel =>
    obtain ⟨F, hF⟩ := h.free_returns hp
    obtain ⟨t, ht, hinv⟩ := hF (max F fuel) (Nat.le_max_left ..)
    simp only [Malloc.next] at hn ht
    cases hrun : (Malloc.free fuel ptr : M _ Empty Unit) s.heap with
    | error e =>
      rw [hrun] at hn
      cases hn
    | ok r =>
      rw [free_extends (Nat.le_max_right F fuel) _ _ hrun] at ht
      rw [hrun] at hn
      cases hn
      cases ht
      exact hinv
  | write f => exact h.write hn

theorem Ok.represents (h : Ok base s.heap free (s.live.map Alloc.block)) : Represents base s free where
  circular := h.linked.isChain
  sizes b hb := by
    obtain ⟨l₁, l₂, hfree⟩ := List.append_of_mem (List.mem_cons_of_mem (⟨base, 0⟩ : Block) hb)
    have hl := h.linked
    rw [hfree] at hl
    rw [hl.header]
  ascending := h.ascending
  partition u := by
    rw [h.cover]
    split
    · rename_i hany
      have hpos : 0 < count u (obtained s.heap) := List.countP_pos_iff.mpr (List.any_eq_true.mp hany)
      have := h.apart u
      omega
    · rename_i hany
      refine List.countP_eq_zero.mpr fun b hb hc => hany (List.any_eq_true.mpr ⟨b, hb, hc⟩)
  usable _ ha _ hu := h.usable ha hu

end

/-- In every run whose regions are new, with less than 2^32 units in all, and in which live pointers are freed: before
    the first call there is nothing; afterwards the free list is in order, it and the live blocks are what was obtained,
    and the user's bytes are its own. Every proper call returns. -/
theorem malloc_represents (base : Nat) (hbase : 0 < base) (s : St)
    (hs : ((sys base).restrict fun s c => Proper base s c ∧ Small s c).Reach s) :
    ((Untouched s.heap ∧ s.live = []) ∨ ∃ free, Represents base s free) ∧
    (∀ nbytes ans, Proper base s (.malloc nbytes 0 ans) → Small s (.malloc nbytes 0 ans) →
      ∃ fuel, ∀ n, fuel ≤ n → (next base s (.malloc nbytes n ans)).isSome = true) ∧
    ∀ a ∈ s.live, ∃ fuel, ∀ n, fuel ≤ n → (next base s (.free a.ptr n)).isSome = true := by
  have hinv : Inv base s := by
    refine Lib.Sys.invariant ?_ ?_ hs
    · intro s ⟨hfreep, hasks, hlive⟩
      exact .inl ⟨⟨hfreep, by rw [obtained, hasks]; rfl⟩, hlive⟩
    · intro s c s' _ h ⟨hnext, hp, hsmall⟩
      exact h.next hbase hp hsmall hnext
  refine ⟨?_, ?_, ?_⟩
  · obtain h | ⟨free, hok⟩ := hinv
    · exact .inl h
    · exact .inr ⟨free, hok.represents⟩
  · intro nbytes ans hp hsmall
    obtain ⟨fuel, hfuel⟩ := hinv.malloc_returns hbase hp hsmall
    refine ⟨fuel, fun n hn => ?_⟩
    obtain ⟨s', hs', -⟩ := hfuel n hn
    rw [hs']
    rfl
  · intro a ha
    obtain ⟨fuel, hfuel⟩ := hinv.free_returns ⟨a, ha, rfl⟩
    refine ⟨fuel, fun n hn => ?_⟩
    obtain ⟨s', hs', -⟩ := hfuel n hn
    rw [hs']
    rfl

/-! ## Two runs -/

/-- A test for proper calls: a new region comes after all others. -/
def proper (base : Nat) (s : St) : Call → Bool
  | .malloc nbytes _ ans => nbytes < 2 ^ 32 &&
      ans.all fun a => base + hsize ≤ a && a % hsize == 0 && (obtained s.heap).all fun c => c.stop ≤ a
  | .free ptr _ => s.live.any (·.ptr == ptr)
  | .write _ => true

theorem proper_of (base : Nat) (s : St) (c : Call) (h : proper base s c = true) : Proper base s c := by
  cases c with
  | malloc nbytes fuel ans =>
    simp only [proper, Bool.and_eq_true, decide_eq_true_eq] at h
    refine ⟨h.1, ?_⟩
    intro a ha
    rw [ha] at h
    simp only [Option.all_some, Bool.and_eq_true, decide_eq_true_eq, beq_iff_eq, List.all_eq_true] at h
    obtain ⟨-, ⟨habove, hdvd⟩, hnew⟩ := h
    refine ⟨⟨?_, habove, Nat.dvd_of_mod_eq_zero hdvd⟩, ?_⟩
    · exact wanted_pos nbytes
    · intro u hu
      refine List.countP_eq_zero.mpr fun c hc hcu => ?_
      have := hnew c hc
      rw [covers_iff] at hu hcu
      simp only at hu
      omega
  | free ptr fuel =>
    obtain ⟨a, ha, hptr⟩ := List.any_eq_true.mp h
    exact ⟨a, ha, by simpa using hptr⟩
  | write f => trivial

def empty : St := ⟨⟨fun _ => ⟨0, 0⟩, 0, none, []⟩, []⟩

/-- A test for calls that keep the heap small: no second region. -/
def small (s : St) : Call → Bool
  | .malloc _ _ ans => ans.isNone || (obtained s.heap).isEmpty
  | _ => true

theorem small_of (s : St) (c : Call) (hp : Proper 64 s c) (h : small s c = true) : Small s c := by
  cases c with
  | malloc nbytes fuel ans =>
    intro a ha
    rw [ha] at h
    simp only [small, Option.isNone_some, Bool.false_or, List.isEmpty_iff] at h
    have hle := wanted_le hp.1
    rw [h, units_nil, Nat.zero_add]
    omega
  | free ptr fuel => trivial
  | write f => trivial

/-- Two blocks are taken from one region, and the first is freed. -/
def shortRun : List Call := [.malloc 100 8 (some 4096), .malloc 50 8 none, .free 69520 8]

theorem shortRun_reach : ∃ s, ((sys 64).restrict fun s c => Proper 64 s c ∧ Small s c).Reach s ∧ s.live = [⟨69440, 50⟩] := by
  have hrun : (Lib.Sys.runAll (next 64) (fun s c => proper 64 s c && small s c) empty shortRun).map (·.live) =
      some [⟨69440, 50⟩] := by decide +kernel
  obtain ⟨s, hs, hlive⟩ := Option.map_eq_some_iff.mp hrun
  refine ⟨s, Lib.Sys.reach_of_runAll (fun s c h => ?_) (.init ⟨rfl, rfl, rfl⟩) hs, hlive⟩
  rw [Bool.and_eq_true] at h
  have hp := proper_of 64 s c h.1
  exact ⟨hp, small_of s c hp h.2⟩

theorem malloc_represents_short : ∃ s : St, s.live = [⟨69440, 50⟩] ∧
    ((Untouched s.heap ∧ s.live = []) ∨ ∃ free, Represents 64 s free) ∧
    (∀ nbytes ans, Proper 64 s (.malloc nbytes 0 ans) → Small s (.malloc nbytes 0 ans) →
      ∃ fuel, ∀ n, fuel ≤ n → (next 64 s (.malloc nbytes n ans)).isSome = true) ∧
    ∀ a ∈ s.live, ∃ fuel, ∀ n, fuel ≤ n → (next 64 s (.free a.ptr n)).isSome = true := by
  obtain ⟨s, hs, hlive⟩ := shortRun_reach
  exact ⟨s, hlive, malloc_represents 64 (by decide) s hs⟩

/-- Sixteen regions of 2^28 + 1 units, one right after the other, each taken whole; then all are freed. -/
def wrapRun : List Call :=
  (List.range 16).map (fun i => .malloc (2 ^ 32 - 1) 8 (some (4096 + i * (hsize * (2 ^ 28 + 1))))) ++
    (List.range 16).map fun i => .free (4096 + i * (hsize * (2 ^ 28 + 1)) + hsize) 8

/-- They become one free block of 2^32 + 16 units, whose size is kept as 16. -/
theorem malloc_size_wraps : ∃ s, ((sys 64).restrict (Proper 64)).Reach s ∧ s.live = [] ∧ ¬ Untouched s.heap ∧
    ¬ ∃ free, Represents 64 s free := by
  have hrun : (Lib.Sys.runAll (next 64) (proper 64) empty wrapRun).map
      (fun s => (s.live, s.heap.freep, s.heap.hdr 64, s.heap.hdr 4096, (obtained s.heap).any (covers 8192))) =
      some ([], 4096, ⟨4096, 0⟩, ⟨64, 16⟩, true) := by decide +kernel
  obtain ⟨s, hs, hfacts⟩ := Option.map_eq_some_iff.mp hrun
  simp only [Prod.mk.injEq] at hfacts
  obtain ⟨hlive, hfreep, hbase, hblock, hgot⟩ := hfacts
  refine ⟨s, Lib.Sys.reach_of_runAll (proper_of 64) (.init ⟨rfl, rfl, rfl⟩) hs, hlive, ?_, ?_⟩
  · intro hu
    exact absurd (hfreep.symm.trans hu.1) (by decide)
  · intro ⟨free, h⟩
    -- the list can only be the one block
    have hone : ∃ b, free = [b] ∧ b.addr = 4096 ∧ b.size = 16 := by
      have hcycle := h.circular
      have hasc := h.ascending
      have hsizes := h.sizes
      cases free with
      | nil =>
        have : (s.heap.hdr 64).ptr = 64 := (List.isChain_cons_cons.mp hcycle).1
        rw [hbase] at this
        cases this
      | cons b free =>
        obtain ⟨hfirst, hrest⟩ := List.isChain_cons_cons.mp hcycle
        have hb : b.addr = 4096 := by
          have hfirst : (s.heap.hdr 64).ptr = b.addr := hfirst
          rw [← hfirst, hbase]
        cases free with
        | nil =>
          refine ⟨b, rfl, hb, ?_⟩
          rw [← hsizes b (List.mem_cons_self ..), hb, hblock]
        | cons c free =>
          have hc : (s.heap.hdr b.addr).ptr = c.addr := (List.isChain_cons_cons.mp hrest).1
          rw [hb, hblock] at hc
          have := ((List.pairwise_cons.mp hasc).1 c (by simp)).lt
          rw [← hc] at this
          exact absurd this (Nat.lt_irrefl _)
    obtain ⟨b, rfl, hb, hsize⟩ := hone
    have hcount := h.partition 8192
    rw [hgot, hlive, if_pos rfl, count_append, count_cons, if_neg] at hcount
    · cases hcount
    · simp only [covers_iff, Block.stop, hb, hsize, Malloc.hsize]
      decide

end Xv6.Malloc
