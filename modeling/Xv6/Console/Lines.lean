/-
  Xv6.Console.Lines — what is read from the console is what the line editor has committed (see
  `Xv6.Console.Model`).
-/

import Xv6.Console.Model
import Xv6.Lib.Update

namespace Xv6.Console

open Function (update update_self update_of_ne comp_def)
open Lib (pending pending_length pending_self update_ind)

variable {N : Nat}

/-! ## Editing -/

theorem size_dvd : INPUT_BUF_SIZE ∣ 2 ^ 32 := by decide

/-- The buffer holds the bytes not yet read and the line being typed. -/
structure Sound (k : Cons) (u l : List UInt8) : Prop where
  room : (k.w - k.r).toNat + (k.e - k.w).toNat ≤ INPUT_BUF_SIZE
  unread : pending k.buf INPUT_BUF_SIZE k.r k.w = u
  line : pending k.buf INPUT_BUF_SIZE k.w k.e = l
  plain : LF ∉ l

section

variable {k : Cons} {u l : List UInt8}

theorem Sound.lengths (h : Sound k u l) : (k.w - k.r).toNat = u.length ∧ (k.e - k.w).toNat = l.length := by
  rw [← h.unread, ← h.line, pending_length, pending_length]
  exact ⟨rfl, rfl⟩

theorem Sound.fits (h : Sound k u l) : (k.w - k.r).toNat + (k.e - k.w).toNat < 2 ^ 32 :=
  Nat.lt_of_le_of_lt h.room (by decide)

theorem Sound.total (h : Sound k u l) : (k.e - k.r).toNat = u.length + l.length := by
  rw [Lib.ring_between h.fits, h.lengths.1, h.lengths.2]

/-- With no newline in the line being typed, the loop takes all of it back. -/
theorem killLine_eq (buf : Nat → UInt8) (w : BitVec 32) {turns : Nat} {e : BitVec 32} (ht : (e - w).toNat = turns)
    (hl : LF ∉ pending buf INPUT_BUF_SIZE w e) : killLine buf w turns e = w := by
  induction turns generalizing e with
  | zero =>
    by_contra hne
    have := Lib.ring_pos (Ne.symm hne)
    rw [killLine] at this
    omega
  | succ turns ih =>
    have hne : w ≠ e := fun h => by
      rw [h, BitVec.sub_self] at ht
      cases ht
    obtain ⟨hlen, hpend⟩ := Lib.pending_unpush (r := buf) size_dvd hne
    rw [hpend, List.mem_append, List.mem_singleton, not_or] at hl
    rw [killLine, if_pos ⟨hne.symm, Ne.symm hl.2⟩]
    exact ih (by omega) hl.1

def Cons.store (k : Cons) (c : UInt8) : Cons :=
  { k with buf := update k.buf (k.e.toNat % INPUT_BUF_SIZE) c, e := k.e + 1 }

section

variable (h : Sound k u l) (hroom : (k.e - k.r).toNat < INPUT_BUF_SIZE)
include h hroom

theorem Sound.store (c : UInt8) :
    pending (k.store c).buf INPUT_BUF_SIZE k.r k.w = u ∧
    pending (k.store c).buf INPUT_BUF_SIZE k.w (k.e + 1) = l ++ [c] ∧ (k.e + 1 - k.w).toNat = l.length + 1 := by
  have hlen := h.lengths
  have hsize : INPUT_BUF_SIZE + 1 < 2 ^ 32 := by decide
  have hall := Lib.pending_store (r := k.buf) size_dvd hroom c
  rw [Lib.pending_between size_dvd h.fits, Lib.pending_between (r := k.buf) size_dvd h.fits, h.unread, h.line] at hall
  obtain ⟨h1, h2⟩ := List.append_inj hall (by rw [pending_length]; exact hlen.1)
  have hadv : (k.e - k.w).toNat + 1 < 2 ^ 32 := by
    have := h.room
    omega
  refine ⟨h1, ?_, by rw [Lib.ring_advance hadv, hlen.2]⟩
  refine (Lib.pending_push size_dvd hadv).trans ?_
  exact congrArg₂ (fun a b => a ++ [b]) h2 (update_self ..)

theorem Sound.type {c : UInt8} (hc : c ≠ LF) :
    Sound (k.store c) u (l ++ [c]) := by
  obtain ⟨h1, h2, h3⟩ := h.store hroom c
  have hlen := h.lengths
  have htotal := h.total
  refine ⟨?_, h1, h2, fun hm => ?_⟩
  · show (k.w - k.r).toNat + (k.e + 1 - k.w).toNat ≤ INPUT_BUF_SIZE
    omega
  · rcases List.mem_append.mp hm with hm | hm
    · exact h.plain hm
    · exact hc (List.mem_singleton.mp hm).symm

theorem Sound.commit (c : UInt8) :
    Sound { k.store c with w := (k.store c).e } (u ++ (l ++ [c])) [] := by
  obtain ⟨h1, h2, h3⟩ := h.store hroom c
  have hlen := h.lengths
  have htotal := h.total
  have hsize : INPUT_BUF_SIZE < 2 ^ 32 := by decide
  have hfits : (k.w - k.r).toNat + (k.e + 1 - k.w).toNat < 2 ^ 32 := by omega
  refine ⟨?_, ?_, pending_self, List.not_mem_nil⟩
  · show (k.e + 1 - k.r).toNat + (k.e + 1 - (k.e + 1)).toNat ≤ INPUT_BUF_SIZE
    rw [BitVec.sub_self, Lib.ring_between hfits]
    exact (by omega : (k.w - k.r).toNat + (k.e + 1 - k.w).toNat ≤ INPUT_BUF_SIZE)
  · rw [← h2]
    refine (Lib.pending_between size_dvd hfits).trans ?_
    rw [h1]

end

theorem Sound.intr {d : Editor} (h : Sound k u d.line) (c : UInt8) : ∃ v,
    Sound (consoleintr k c) (u ++ v) (d.input u.length c).line ∧ d.committed <+: (d.input u.length c).committed ∧
    (d.input u.length c).committed.flatten = d.committed.flatten ++ v := by
  have hlen := h.lengths
  have htotal := h.total
  have hroom := h.room
  unfold consoleintr Editor.input
  split
  · exact ⟨[], by rwa [List.append_nil], by simp⟩
  split
  · refine ⟨[], ?_, by simp⟩
    have hk := killLine_eq k.buf k.w hlen.2 (h.line ▸ h.plain)
    rw [hlen.2, hk, List.append_nil]
    refine ⟨?_, h.unread, pending_self, List.not_mem_nil⟩
    show (k.w - k.r).toNat + (k.w - k.w).toNat ≤ INPUT_BUF_SIZE
    rw [BitVec.sub_self]
    exact Nat.le_trans (Nat.le_add_right ..) hroom
  split
  · refine ⟨[], ?_, by simp⟩
    rw [List.append_nil]
    split
    · rename_i hne
      obtain ⟨h1, h2⟩ := Lib.pending_unpush (r := k.buf) size_dvd (Ne.symm hne)
      have hl : d.line.dropLast = pending k.buf INPUT_BUF_SIZE k.w (k.e - 1) := by
        rw [← h.line, h2, List.dropLast_concat]
      refine ⟨?_, h.unread, hl.symm, fun hm => h.plain (List.dropLast_subset _ hm)⟩
      show (k.w - k.r).toNat + (k.e - 1 - k.w).toNat ≤ INPUT_BUF_SIZE
      omega
    · rename_i he
      have he : k.e = k.w := by simpa using he
      have hl : d.line = [] := by rw [← h.line, he, pending_self]
      have hd : d.line.dropLast = d.line := by rw [hl]; rfl
      rw [hd]
      exact h
  by_cases hc : c ≠ 0 ∧ (k.e - k.r).toNat < INPUT_BUF_SIZE
  · have hn : ¬ (c = 0 ∨ u.length + d.line.length = INPUT_BUF_SIZE) := by
      rintro (h0 | h0)
      · exact hc.1 h0
      · omega
    simp only [if_pos hc, if_neg hn]
    generalize (if c = CR then LF else c) = c
    have hfull : (k.e + 1 - k.r).toNat = INPUT_BUF_SIZE ↔ u.length + (d.line ++ [c]).length = INPUT_BUF_SIZE := by
      have hsize : INPUT_BUF_SIZE + 1 < 2 ^ 32 := by decide
      rw [Lib.ring_advance (by omega), List.length_append, List.length_singleton, htotal, Nat.add_assoc]
    by_cases hend : c = LF ∨ c = EOT ∨ (k.e + 1 - k.r).toNat = INPUT_BUF_SIZE
    · rw [if_pos hend, if_pos (by rwa [hfull] at hend)]
      exact ⟨d.line ++ [c], h.commit hc.2 c, List.prefix_append .., by simp⟩
    · rw [if_neg hend, if_neg (by rwa [hfull] at hend)]
      exact ⟨[], by rw [List.append_nil]; exact h.type hc.2 fun e => hend (.inl e), by simp⟩
  · have hn : c = 0 ∨ u.length + d.line.length = INPUT_BUF_SIZE := by
      by_contra hn
      rw [not_or] at hn
      exact hc ⟨hn.1, by omega⟩
    rw [if_neg hc, if_pos hn]
    exact ⟨[], by rwa [List.append_nil], by simp⟩

end

/-! ## Reading -/

/-- What a section takes, with `v` left: bytes up to a newline, copied out; or a `C('D')`, if the
    call has nothing yet. -/
def Took (target n : Nat) (got t v : List UInt8) : Stop → Prop
  | .empty n' got' => v = [] ∧ EOT ∉ t ∧ LF ∉ t ∧ got' = got ++ t ∧ n' + t.length = n
  | .ended n' got' => (EOT ∉ t ∧ LF ∉ t.dropLast ∧ got' = got ++ t ∧ n' + t.length = n) ∨
    (t = [EOT] ∧ got' = got ∧ n' = n ∧ n = target ∧ 0 < n)

/-- Where a section leaves the buffer. -/
structure Taken (k k' : Cons) (u t v : List UInt8) : Prop where
  same : k' = { k with r := k'.r }
  all : u = t ++ v
  taken : pending k.buf INPUT_BUF_SIZE k.r k'.r = t
  left : pending k.buf INPUT_BUF_SIZE k'.r k.w = v

theorem Taken.none {k : Cons} {u : List UInt8} (hu : pending k.buf INPUT_BUF_SIZE k.r k.w = u) : Taken k k u [] u :=
  ⟨rfl, rfl, pending_self, hu⟩

theorem Taken.cons {k k' : Cons} {u t v : List UInt8} {c : UInt8} (h : Taken { k with r := k.r + 1 } k' u t v)
    (hc : k.buf (k.r.toNat % INPUT_BUF_SIZE) = c) (hu : u.length + 1 < 2 ^ 32) : Taken k k' (c :: u) (c :: t) v := by
  have hone : pending k.buf INPUT_BUF_SIZE k.r (k.r + 1) = [c] := by
    rw [Lib.pending_push size_dvd (by rw [BitVec.sub_self]; decide), pending_self, hc]
    rfl
  have hlen : (k'.r - (k.r + 1)).toNat = t.length := by rw [← h.taken, pending_length]
  have hone' : (k.r + 1 - k.r).toNat = 1 := by
    have := congrArg List.length hone
    rwa [pending_length] at this
  have hle : t.length ≤ u.length := by rw [h.all, List.length_append]; omega
  refine ⟨h.same, by rw [h.all]; rfl, ?_, h.left⟩
  rw [Lib.pending_between (m := k.r + 1) size_dvd (by omega), hone]
  exact congrArg (c :: ·) h.taken

theorem readLoop_spec {target n : Nat} (hn : n ≤ target) (got : List UInt8) {u : List UInt8} {k : Cons}
    (hu : pending k.buf INPUT_BUF_SIZE k.r k.w = u) :
    ∃ t v, Taken k (readLoop target n got k).2 u t v ∧ Took target n got t v (readLoop target n got k).1 := by
  induction n generalizing got u k with
  | zero => exact ⟨[], u, .none hu, .inl ⟨List.not_mem_nil, List.not_mem_nil, by simp, rfl⟩⟩
  | succ n ih =>
    rw [readLoop]
    split
    · rename_i hr
      have hu0 : u = [] := by rw [← hu, hr, pending_self]
      exact ⟨[], u, .none hu, hu0, List.not_mem_nil, List.not_mem_nil, by simp, rfl⟩
    · rename_i hr
      have hpop := Lib.pending_pop (r := k.buf) size_dvd hr
      rw [hu] at hpop
      have hlen : (k.w - k.r).toNat = u.length := by rw [← hu, pending_length]
      generalize hc : k.buf (k.r.toNat % INPUT_BUF_SIZE) = c at hpop
      generalize hu1 : pending k.buf INPUT_BUF_SIZE (k.r + 1) k.w = u1 at hpop
      have hbound : u1.length + 1 < 2 ^ 32 := by
        have := (k.w - k.r).isLt
        rw [hlen, hpop] at this
        exact this
      have hone : Taken k { k with r := k.r + 1 } u [c] u1 := by
        rw [hpop]
        exact (Taken.none (k := { k with r := k.r + 1 }) hu1).cons hc hbound
      dsimp only
      split
      · rename_i heot
        split
        · -- put back
          rw [BitVec.add_sub_cancel]
          exact ⟨[], u, .none hu, .inl ⟨List.not_mem_nil, List.not_mem_nil, by simp, rfl⟩⟩
        · exact ⟨[c], u1, hone, .inr ⟨by rw [heot], rfl, rfl, by omega, by omega⟩⟩
      · rename_i heot
        split
        · exact ⟨[c], u1, hone, .inl ⟨by simp [Ne.symm heot], by simp, rfl, rfl⟩⟩
        · rename_i hlf
          obtain ⟨t, v, h1, h2⟩ := ih (by omega) (got ++ [c]) (k := { k with r := k.r + 1 }) hu1
          refine ⟨c :: t, v, by rw [hpop]; exact h1.cons hc hbound, ?_⟩
          generalize (readLoop target n (got ++ [c]) { k with r := k.r + 1 }).1 = stop at h2
          cases stop with
          | empty n' got' =>
            obtain ⟨h3, h4, h5, h6, h7⟩ := h2
            exact ⟨h3, by simp [h4, Ne.symm heot], by simp [h5, Ne.symm hlf], by simp [h6], by simp; omega⟩
          | ended n' got' =>
            rcases h2 with ⟨h4, h5, h6, h7⟩ | ⟨-, -, -, h7, -⟩
            · refine .inl ⟨by simp [h4, Ne.symm heot], ?_, by simp [h6], by simp; omega⟩
              cases t with
              | nil => simp
              | cons d t => simpa [Ne.symm hlf] using h5
            · omega

/-! ## Calls -/

def took (call : Nat) (takes : List (Nat × UInt8)) : List UInt8 := (takes.filter (·.1 = call)).map (·.2)

/-- What a call that is over has to show: it copied out what it took, up to a newline and without
    a `C('D')`, and returned how much that is, or -1 when killed; if it took a `C('D')`, it wanted
    something, copied out nothing and returned 0. -/
structure Read.Fine (rd : Read) (takes : List (Nat × UInt8)) : Prop where
  took : took rd.call takes = rd.got ++ if rd.eof then [EOT] else []
  data : EOT ∉ rd.got
  line : LF ∉ rd.got.dropLast
  size : rd.got.length ≤ rd.size
  ret : rd.ret = rd.got.length ∨ rd.ret = -1
  eof : rd.eof = true → rd.got = [] ∧ rd.ret = 0 ∧ 0 < rd.size

structure Going (target n : Nat) (got : List UInt8) (call : Nat) (h : Hist N) : Prop where
  sum : n + got.length = target
  data : EOT ∉ got
  line : LF ∉ got
  took : took call h.takes = got
  lt : call < h.calls
  new : call ∉ h.reads.map (·.call)

structure Calls (pc : Fin N → Pc) (h : Hist N) : Prop where
  going : ∀ p target n got, pc p = .read target n got → Going target n got (h.call p) h
  apart : ∀ p q, pc p ≠ .out → pc q ≠ .out → h.call p = h.call q → p = q
  fine : ∀ rd ∈ h.reads, rd.Fine h.takes
  lt : ∀ rd ∈ h.reads, rd.call < h.calls
  nodup : (h.reads.map (·.call)).Nodup
  takesLt : ∀ t ∈ h.takes, t.1 < h.calls
  eofs : (h.takes.filter (·.2 = EOT)).map (·.1) = (h.reads.filter (·.eof)).map (·.call)

section

variable {pc pc' : Fin N → Pc} {h h' : Hist N} {p : Fin N} {i j : Nat} {ts : List (Nat × UInt8)} {t : List UInt8}

theorem took_append_self : took i (ts ++ t.map (i, ·)) = took i ts ++ t := by
  simp [took, List.filter_map, comp_def]

theorem took_append_of_ne (h : i ≠ j) : took i (ts ++ t.map (j, ·)) = took i ts := by
  simp [took, List.filter_map, comp_def, h.symm]

theorem eofs_append : ((ts ++ t.map (i, ·)).filter (·.2 = EOT)).map (·.1) =
    (ts.filter (·.2 = EOT)).map (·.1) ++ (t.filter (· = EOT)).map fun _ => i := by
  simp [List.filter_map, comp_def]

theorem Calls.edit (hc : Calls pc h) (d : Editor) : Calls pc { h with editor := d } :=
  ⟨fun p target n got hp => have hg := hc.going p target n got hp; ⟨hg.1, hg.2, hg.3, hg.4, hg.5, hg.6⟩, hc.2, hc.3, hc.4, hc.5,
    hc.6, hc.7⟩

theorem Calls.enter (hc : Calls pc h) (hp : pc p = .out) (n : Nat) :
    Calls (update pc p (.read n n [])) { h with call := update h.call p h.calls, calls := h.calls + 1 } := by
  have hnew : took h.calls h.takes = [] := by
    rw [took, List.filter_eq_nil_iff.mpr, List.map_nil]
    intro t ht
    have := hc.takesLt t ht
    simp
    omega
  refine ⟨fun q target m got hq => ?_, fun q r hq hr e => ?_, hc.fine, fun rd hr => ?_, hc.nodup, fun t ht => ?_, hc.eofs⟩
  · by_cases e : q = p
    · subst e
      rw [update_self] at hq
      cases hq
      refine ⟨rfl, List.not_mem_nil, List.not_mem_nil, ?_, ?_, fun hm => ?_⟩
      · simpa using hnew
      · simp
      · obtain ⟨rd, hrd, e⟩ := List.mem_map.mp hm
        have := hc.lt rd hrd
        simp at e
        omega
    · rw [update_of_ne e] at hq
      have hg := hc.going q target m got hq
      refine ⟨hg.sum, hg.data, hg.line, ?_, ?_, ?_⟩
      · simpa [update_of_ne e] using hg.took
      · have := hg.lt
        simp [update_of_ne e]
        omega
      · simpa [update_of_ne e] using hg.new
  · -- the new call's number is above those of the calls in progress
    have hlt : ∀ q, q ≠ p → update pc p (.read n n []) q ≠ .out → h.call q < h.calls := fun q hqp hq => by
      rw [update_of_ne hqp] at hq
      cases hpc : pc q with
      | out => exact absurd hpc hq
      | read target m got => exact (hc.going q target m got hpc).lt
    by_cases h1 : q = p <;> by_cases h2 : r = p
    · rw [h1, h2]
    · have := hlt r h2 hr
      simp [h1, update_of_ne h2] at e
      omega
    · have := hlt q h1 hq
      simp [h2, update_of_ne h1] at e
      omega
    · simp only [update_of_ne h1, update_of_ne h2] at hq hr e
      exact hc.apart q r hq hr e
  · have := hc.lt rd hr
    show rd.call < h.calls + 1
    omega
  · have := hc.takesLt t ht
    show t.1 < h.calls + 1
    omega

theorem Calls.others (hc : Calls pc h) (hp : pc p ≠ .out) {q : Fin N} (e : q ≠ p) {target n : Nat} {got : List UInt8}
    (hq : pc q = .read target n got) {rds : List Read} (hr : ∀ rd ∈ rds, rd ∈ h.reads ∨ rd.call = h.call p) :
    Going target n got (h.call q) { h with takes := h.takes ++ t.map (h.call p, ·), reads := rds } := by
  have hg := hc.going q target n got hq
  have hne : h.call q ≠ h.call p := fun h1 => e (hc.apart q p (by rw [hq]; nofun) hp h1)
  refine ⟨hg.sum, hg.data, hg.line, (took_append_of_ne hne).trans hg.took, hg.lt, fun hm => ?_⟩
  obtain ⟨rd, hrd, h1⟩ := List.mem_map.mp hm
  rcases hr rd hrd with h2 | h2
  · exact hg.new (List.mem_map.mpr ⟨rd, h2, h1⟩)
  · exact hne (h1.symm.trans h2)

theorem Read.Fine.keep {rd : Read} (hf : rd.Fine ts) (hne : rd.call ≠ i) : rd.Fine (ts ++ t.map (i, ·)) :=
  ⟨(took_append_of_ne hne).trans hf.took, hf.data, hf.line, hf.size, hf.ret, hf.eof⟩

theorem Calls.keep (hc : Calls pc h) {target n : Nat} {got : List UInt8} (hp : pc p = .read target n got) :
    (∀ rd ∈ h.reads, rd.Fine (h.takes ++ t.map (h.call p, ·))) ∧ ∀ x ∈ h.takes ++ t.map (h.call p, ·), x.1 < h.calls := by
  have hg := hc.going p target n got hp
  refine ⟨fun rd hr => (hc.fine rd hr).keep fun e => hg.new (List.mem_map.mpr ⟨rd, hr, e⟩), fun x hx => ?_⟩
  rcases List.mem_append.mp hx with hx | hx
  · exact hc.takesLt x hx
  · obtain ⟨c, -, rfl⟩ := List.mem_map.mp hx
    exact hg.lt

theorem Calls.wait (hc : Calls pc h) {target n n' : Nat} {got : List UInt8} (hp : pc p = .read target n got) (h1 : EOT ∉ t)
    (h2 : LF ∉ t) (h3 : n' + t.length = n) :
    Calls (update pc p (.read target n' (got ++ t))) { h with takes := h.takes ++ t.map (h.call p, ·) } := by
  have hg := hc.going p target n got hp
  have hp' : pc p ≠ .out := by rw [hp]; nofun
  have hin : ∀ q, update pc p (.read target n' (got ++ t)) q ≠ .out → pc q ≠ .out := fun q =>
    update_ind q (fun _ => hp') fun q _ => id
  refine ⟨fun q target' m got' hq => ?_, fun q r hq hr => hc.apart q r (hin q hq) (hin r hr), (hc.keep hp).1, hc.lt, hc.nodup,
    (hc.keep hp).2, ?_⟩
  · by_cases e : q = p
    · subst e
      rw [update_self] at hq
      cases hq
      refine ⟨?_, by simp [hg.data, h1], by simp [hg.line, h2], took_append_self.trans (by rw [hg.took]), hg.lt, hg.new⟩
      have := hg.sum
      rw [List.length_append]
      omega
    · rw [update_of_ne e] at hq
      exact hc.others hp' e hq fun rd hr => .inl hr
  · have hnil : t.filter (· = EOT) = [] := List.filter_eq_nil_iff.mpr fun c hct => by simpa using fun e : c = EOT => h1 (e ▸ hct)
    rw [eofs_append, hnil, hc.eofs, List.map_nil, List.append_nil]

theorem Calls.leave (hc : Calls pc h) {target n : Nat} {got : List UInt8} (hp : pc p = .read target n got) {rd : Read}
    (hcall : rd.call = h.call p) (hf : rd.Fine (h.takes ++ t.map (h.call p, ·)))
    (heof : t.filter (· = EOT) = if rd.eof then [EOT] else []) :
    Calls (update pc p .out) { h with takes := h.takes ++ t.map (h.call p, ·), reads := h.reads ++ [rd] } := by
  have hg := hc.going p target n got hp
  have hp' : pc p ≠ .out := by rw [hp]; nofun
  have hin : ∀ q, update pc p .out q ≠ .out → q ≠ p ∧ pc q ≠ .out := fun q =>
    update_ind q (fun hq => absurd rfl hq) fun q e hq => ⟨e, hq⟩
  have hmem : ∀ rd' ∈ h.reads ++ [rd], rd' ∈ h.reads ∨ rd' = rd := fun rd' hr => by simpa using hr
  refine ⟨fun q target' m got' hq => ?_, fun q r hq hr => hc.apart q r (hin q hq).2 (hin r hr).2, fun rd' hr => ?_,
    fun rd' hr => ?_, ?_, (hc.keep hp).2, ?_⟩
  · have e := (hin q (by rw [hq]; nofun)).1
    rw [update_of_ne e] at hq
    refine hc.others hp' e hq fun rd' hr => ?_
    rcases hmem rd' hr with hr | rfl
    · exact .inl hr
    · exact .inr hcall
  · rcases hmem rd' hr with hr | rfl
    · exact (hc.keep hp).1 rd' hr
    · exact hf
  · rcases hmem rd' hr with hr | rfl
    · exact hc.lt rd' hr
    · rw [hcall]
      exact hg.lt
  · rw [List.map_append, List.map_singleton, hcall]
    exact List.nodup_append.mpr ⟨hc.nodup, by simp, fun a ha b hb e => hg.new (by simp at hb; rw [← hb, ← e]; exact ha)⟩
  · rw [eofs_append, heof, hc.eofs, List.filter_append, List.map_append]
    cases he : rd.eof <;> simp [he, hcall]

end

/-! ## Steps -/

/-- How a call ends that has `got` when its last section takes `t`. -/
def Ends (target n : Nat) (got t : List UInt8) (r : Int) (got' : List UInt8) : Prop :=
  (EOT ∉ t ∧ LF ∉ t.dropLast ∧ got' = got ++ t ∧ t.length ≤ n ∧ (r = target - (n - t.length : Nat) ∨ r = -1)) ∨
  (t = [EOT] ∧ got' = got ∧ r = 0 ∧ n = target ∧ 0 < n)

theorem consoleread_cases (s : St N) (p : Fin N) {target n : Nat} (got : List UInt8) {u : List UInt8} (hn : n ≤ target)
    (hu : pending s.cons.buf INPUT_BUF_SIZE s.cons.r s.cons.w = u) : ∃ t v k', Taken s.cons k' u t v ∧
    ((EOT ∉ t ∧ LF ∉ t ∧ ∃ n', n' + t.length = n ∧
      consoleread s p target n got = { s with cons := k', pc := update s.pc p (.read target n' (got ++ t)) }) ∨
    ∃ r got', Ends target n got t r got' ∧ consoleread s p target n got = { s with cons := k' }.return p r got') := by
  obtain ⟨t, v, h1, h2⟩ := readLoop_spec hn got hu
  refine ⟨t, v, _, h1, ?_⟩
  unfold consoleread
  rcases hrl : readLoop target n got s.cons with ⟨stop, k'⟩
  rw [hrl] at h2
  cases stop with
  | ended n' got' =>
    refine .inr ⟨_, got', ?_, rfl⟩
    rcases h2 with ⟨h3, h4, h5, h6⟩ | ⟨h3, h4, h5, h6, h7⟩
    · exact .inl ⟨h3, h4, h5, by omega, .inl (by rw [← h6, Nat.add_sub_cancel])⟩
    · exact .inr ⟨h3, h4, by omega, h6, h7⟩
  | empty n' got' =>
    obtain ⟨-, h3, h4, h5, h6⟩ := h2
    dsimp only
    split
    · exact .inr ⟨-1, got', .inl ⟨h3, fun hm => h4 (List.dropLast_subset _ hm), h5, by omega, .inr rfl⟩, rfl⟩
    · exact .inl ⟨h3, h4, n', h6, by rw [h5]⟩

theorem Going.fine {target n call : Nat} {got got' t : List UInt8} {r : Int} {h : Hist N} (hg : Going target n got call h)
    (he : Ends target n got t r got') :
    Read.Fine ⟨call, target, r, got', EOT ∈ t⟩ (h.takes ++ t.map (call, ·)) ∧
    t.filter (· = EOT) = if decide (EOT ∈ t) then [EOT] else [] := by
  have hsum := hg.sum
  rcases he with ⟨h1, h2, rfl, h4, h5⟩ | ⟨rfl, rfl, rfl, h4, h5⟩
  · have hnil : t.filter (· = EOT) = [] := List.filter_eq_nil_iff.mpr fun c hct => by simpa using fun e : c = EOT => h1 (e ▸ hct)
    refine ⟨⟨?_, ?_, ?_, ?_, ?_, ?_⟩, by simp [h1, hnil]⟩
    · rw [took_append_self, hg.took]
      simp [h1]
    · simp [hg.data, h1]
    · show LF ∉ (got ++ t).dropLast
      cases t with
      | nil => simpa using fun hm => hg.line (List.dropLast_subset _ hm)
      | cons c t =>
        rw [List.dropLast_append_of_ne_nil (by simp)]
        simpa [hg.line] using h2
    · show (got ++ t).length ≤ target
      rw [List.length_append]
      omega
    · show r = ((got ++ t).length : Nat) ∨ r = -1
      rw [List.length_append]
      omega
    · simp [h1]
  · have hgot : got' = [] := List.length_eq_zero_iff.mp (by omega)
    refine ⟨⟨?_, ?_, ?_, ?_, ?_, ?_⟩, by simp⟩
    · rw [took_append_self, hg.took]
      simp
    · exact hg.data
    · simp [hgot]
    · show got'.length ≤ target
      omega
    · exact .inl (by simp [hgot])
    · exact fun _ => ⟨hgot, rfl, by show 0 < target; omega⟩

structure Inv (x : St N × Hist N) : Prop where
  buf : ∃ u, Sound x.1.cons u x.2.editor.line ∧ x.2.editor.committed.flatten = x.2.takes.map (·.2) ++ u
  calls : Calls x.1.pc x.2

theorem unread_length {lines : List (List UInt8)} {takes : List (Nat × UInt8)} {u : List UInt8}
    (h : lines.flatten = takes.map (·.2) ++ u) : lines.flatten.length - takes.length = u.length := by
  rw [h, List.length_append, List.length_map, Nat.add_sub_cancel_left]

theorem Sound.take {k k' : Cons} {u l t v : List UInt8} (h : Sound k u l) (ht : Taken k k' u t v) : Sound k' v l := by
  have hr : (k.w - k'.r).toNat ≤ (k.w - k.r).toNat := by
    rw [← pending_length (r := k.buf) (n := INPUT_BUF_SIZE), ← pending_length (r := k.buf) (n := INPUT_BUF_SIZE), ht.left,
      h.unread, ht.all, List.length_append]
    omega
  rw [ht.same]
  exact ⟨Nat.le_trans (Nat.add_le_add_right hr _) h.room, ht.left, h.line, h.plain⟩

theorem inv_next {s s' : St N} {h : Hist N} {a : Act N} (hi : Inv (s, h)) (hs : next s a = some s') :
    Inv (s', note s a s' h) := by
  obtain ⟨⟨u, hsound, hcom⟩, hc⟩ := hi
  cases a with
  | intr c =>
    cases hs
    obtain ⟨v, h1, -, h2⟩ := hsound.intr c
    have hlen := unread_length hcom
    refine ⟨⟨u ++ v, ?_, ?_⟩, hc.edit _⟩
    · simp only [note, hlen]
      exact h1
    · simp only [note, hlen]
      rw [h2, ← List.append_assoc]
      exact congrArg (· ++ v) hcom
  | call p n =>
    rw [next] at hs
    split at hs
    · cases hs
      exact ⟨⟨u, hsound, hcom⟩, hc.enter ‹_› _⟩
    · cases hs
  | kill p =>
    cases hs
    exact ⟨⟨u, hsound, hcom⟩, hc⟩
  | run p =>
    rw [next] at hs
    split at hs
    · cases hs
    rename_i target n got hpc
    have hg := hc.going p target n got hpc
    have hn : n ≤ target := by
      have := hg.sum
      omega
    obtain ⟨t, v, k', ht, hcase⟩ := consoleread_cases s p _ hn hsound.unread
    have hbuf : ∃ u', Sound k' u' h.editor.line ∧
        h.editor.committed.flatten = (h.takes ++ t.map (h.call p, ·)).map (·.2) ++ u' := by
      refine ⟨v, hsound.take ht, ?_⟩
      have hmap : (t.map (h.call p, ·)).map (·.2) = t := by simp [comp_def]
      rw [List.map_append, hmap, List.append_assoc, ← ht.all]
      exact hcom
    cases hs
    rcases hcase with ⟨h1, h2, n', h3, h4⟩ | ⟨r, got', h1, h2⟩
    · rw [h4]
      refine ⟨?_, ?_⟩
      · simp only [note, ht.taken]
        exact hbuf
      · simp only [note, ht.taken, update_self, reduceCtorEq, if_false]
        exact hc.wait hpc h1 h2 h3
    · obtain ⟨hf, heof⟩ := hg.fine h1
      rw [h2]
      refine ⟨?_, ?_⟩
      · simp only [note, St.return, ht.taken]
        exact hbuf
      · simp only [note, St.return, ht.taken, update_self, if_true, hpc, Pc.size]
        exact hc.leave hpc rfl hf heof

theorem inv_reach {buf : Nat → UInt8} {start : BitVec 32} {x : St N × Hist N} (hx : (traced N buf start).Reach x) : Inv x := by
  refine Lib.Sys.invariant (I := Inv) ?_ ?_ hx
  · rintro ⟨s, h⟩ ⟨rfl, rfl⟩
    refine ⟨⟨[], ⟨?_, pending_self, pending_self, List.not_mem_nil⟩, rfl⟩, ⟨nofun, fun p _ hp => absurd rfl hp, nofun, nofun,
      List.nodup_nil, nofun, rfl⟩⟩
    show (start - start).toNat + (start - start).toNat ≤ INPUT_BUF_SIZE
    rw [BitVec.sub_self]
    decide
  · intro y a y' _ hi ⟨hs, hn⟩
    have := inv_next hi hs
    rwa [← hn] at this

/-! ## One line -/

theorem unread_cases (k : Nat) (ls : List (List UInt8)) : ls.flatten.length ≤ k ∨
    ∃ before a l after, ls = before ++ (a ++ l) :: after ∧ before.flatten.length + a.length = k ∧ unread k ls = l :: after := by
  induction ls generalizing k with
  | nil => exact .inl (Nat.zero_le _)
  | cons m ls ih =>
    by_cases hk : k < m.length
    · refine .inr ⟨[], m.take k, m.drop k, ls, by rw [List.take_append_drop]; rfl, ?_, by rw [unread, if_pos hk]⟩
      rw [List.length_take]
      simp
      omega
    · rcases ih (k - m.length) with hle | ⟨before, a, l, after, hls, hlen, hun⟩
      · refine .inl ?_
        rw [List.flatten_cons, List.length_append]
        omega
      · refine .inr ⟨m :: before, a, l, after, by rw [hls]; rfl, ?_, by rw [unread, if_neg hk, hun]⟩
        rw [List.flatten_cons, List.length_append]
        omega

/-- The bytes that the call has got are of one of the lines, and stand side by side in what was
    taken. -/
def OneLine (call : Nat) (got : List UInt8) (lines : List (List UInt8)) (takes : List (Nat × UInt8)) : Prop :=
  got = [] ∨ ∃ before a b after ts ts', lines = before ++ (a ++ got ++ b) :: after ∧
    takes = ts ++ got.map (call, ·) ++ ts' ∧ ts.map (·.2) = before.flatten ++ a

section

variable {call : Nat} {got t v : List UInt8} {lines lines' : List (List UInt8)} {takes : List (Nat × UInt8)}

theorem OneLine.mono (h : OneLine call got lines takes) (hl : lines <+: lines') (ts : List (Nat × UInt8)) :
    OneLine call got lines' (takes ++ ts) := by
  refine h.imp_right fun ⟨before, a, b, after, us, us', h1, h2, h3⟩ => ?_
  obtain ⟨more, rfl⟩ := hl
  exact ⟨before, a, b, after ++ more, us, us' ++ ts, by rw [h1]; simp, by rw [h2]; simp, h3⟩

theorem OneLine.infix (h : OneLine call got lines takes) (hne : got ≠ []) : ∃ l ∈ lines, got <:+: l := by
  obtain ⟨before, a, b, after, -, -, rfl, -, -⟩ := h.resolve_left hne
  exact ⟨_, by simp, a, b, rfl⟩

theorem length_le_of_ends {l : List UInt8} (hp : t <+: l ∨ l <+: t) (h1 : EOT ∉ t) (h2 : LF ∉ t.dropLast)
    (hl : l.getLast? = some LF ∨ l.getLast? = some EOT) : t.length ≤ l.length := by
  rcases hp with hp | ⟨m, rfl⟩
  · exact hp.length_le
  · cases m with
    | nil => simp
    | cons c m =>
      rcases hl with hl | hl <;> have hmem := List.mem_of_getLast? hl
      · rw [List.dropLast_append_of_ne_nil (by simp)] at h2
        exact absurd (List.mem_append_left _ hmem) h2
      · exact absurd (List.mem_append_left _ hmem) h1

theorem OneLine.take {n : Nat} (hcom : lines.flatten = takes.map (·.2) ++ (t ++ v)) (hn : t.length ≤ n) (h1 : EOT ∉ t)
    (h2 : LF ∉ t.dropLast) (hw : Fits n [] (unread takes.length lines)) :
    OneLine call t lines (takes ++ t.map (call, ·)) := by
  by_cases ht : t = []
  · exact .inl ht
  rcases unread_cases takes.length lines with hle | ⟨before, a, l, after, rfl, hlen, hun⟩
  · have hpos := List.length_pos_iff.mpr ht
    have := congrArg List.length hcom
    simp only [List.length_append, List.length_map] at this
    omega
  · -- up to `a` everything was taken before
    have hsplit : (before.flatten ++ a) ++ (l ++ after.flatten) = takes.map (·.2) ++ (t ++ v) := by
      rw [← hcom]
      simp
    obtain ⟨h3, h4⟩ := List.append_inj hsplit (by rw [List.length_append, List.length_map, hlen])
    have hp : t <+: l ∨ l <+: t :=
      List.prefix_or_prefix_of_prefix (h4 ▸ List.prefix_append t v) (List.prefix_append l after.flatten)
    have hle : t.length ≤ l.length := by
      rw [hun] at hw
      rcases hw.2 with rfl | hnl | hend
      · have := congrArg List.length h4
        simp at this
        omega
      · omega
      · exact length_le_of_ends hp h1 h2 hend
    obtain ⟨b, rfl⟩ : t <+: l := hp.elim id fun h => (h.eq_of_length_le hle) ▸ List.prefix_refl _
    exact .inr ⟨before, a, b, after, takes, [], by rw [List.append_assoc a], by simp, h3.symm⟩

end

/-- The bytes of each read are of one line. -/
structure Lined (x : St N × Hist N) : Prop where
  ended : ∀ rd ∈ x.2.reads, OneLine rd.call rd.got x.2.editor.committed x.2.takes
  going : ∀ p, OneLine (x.2.call p) (x.1.pc p).got x.2.editor.committed x.2.takes

theorem lined_run {s : St N} {h : Hist N} {p : Fin N} {target n : Nat} {got t u v : List UInt8} (hl : Lined (s, h))
    (hpc : s.pc p = .read target n got) (hw : Within (s, h) (.run p)) (hu : u = t ++ v)
    (hcom : h.editor.committed.flatten = h.takes.map (·.2) ++ u) (hn : t.length ≤ n) (h1 : EOT ∉ t) (h2 : LF ∉ t.dropLast) :
    OneLine (h.call p) (got ++ t) h.editor.committed (h.takes ++ t.map (h.call p, ·)) := by
  have hw : Fits n got (unread h.takes.length h.editor.committed) := by
    simp only [Within, hpc] at hw
    exact hw
  by_cases hg : got = []
  · rw [hg]
    exact .take (hu ▸ hcom) hn h1 h2 (hg ▸ hw)
  · -- there is nothing to take
    rcases unread_cases h.takes.length h.editor.committed with hle | ⟨-, -, l, ls, -, -, hun⟩
    · have ht : t = [] := by
        have := congrArg List.length hcom
        simp only [hu, List.length_append, List.length_map] at this
        exact List.length_eq_zero_iff.mp (by omega)
      have hgo := hl.going p
      rw [ht, List.append_nil]
      rw [hpc] at hgo
      exact hgo.mono (List.prefix_refl _) _
    · rw [hun] at hw
      exact absurd hw.1 hg

theorem lined_next {s s' : St N} {h : Hist N} {a : Act N} (hi : Inv (s, h)) (hl : Lined (s, h)) (ha : Within (s, h) a)
    (hs : next s a = some s') : Lined (s', note s a s' h) := by
  obtain ⟨⟨u, hsound, hcom⟩, hc⟩ := hi
  cases a with
  | intr c =>
    cases hs
    have hlen := unread_length hcom
    obtain ⟨v, -, hpre, -⟩ := hsound.intr c
    have hmono : ∀ {call got}, OneLine call got h.editor.committed h.takes →
        OneLine call got (h.editor.input u.length c).committed h.takes := fun hg => by
      simpa using hg.mono hpre []
    simp only [note, hlen]
    exact ⟨fun rd hr => hmono (hl.ended rd hr), fun p => hmono (hl.going p)⟩
  | kill p =>
    cases hs
    exact ⟨hl.ended, hl.going⟩
  | call p n =>
    rw [next] at hs
    split at hs
    · cases hs
      refine ⟨hl.ended, fun q => ?_⟩
      by_cases e : q = p
      · subst e
        simp only [note, update_self]
        exact .inl rfl
      · simpa only [note, update_of_ne e] using hl.going q
    · cases hs
  | run p =>
    rw [next] at hs
    split at hs
    · cases hs
    rename_i target n got hpc
    have hg := hc.going p target n got hpc
    have hn : n ≤ target := by
      have := hg.sum
      omega
    obtain ⟨t, v, k', htk, hcase⟩ := consoleread_cases s p got hn hsound.unread
    have hkeep : ∀ {call got}, OneLine call got h.editor.committed h.takes →
        OneLine call got h.editor.committed (h.takes ++ t.map (h.call p, ·)) := fun hg => hg.mono (List.prefix_refl _) _
    cases hs
    rcases hcase with ⟨h1, h2, n', h3, h4⟩ | ⟨r, got', h1, h2⟩
    · rw [h4]
      refine ⟨?_, fun q => ?_⟩
      · simp only [note, htk.taken, update_self, reduceCtorEq, if_false]
        exact fun rd hr => hkeep (hl.ended rd hr)
      · simp only [note, htk.taken]
        refine update_ind q ?_ fun q _ => hkeep (hl.going q)
        exact lined_run hl hpc ha htk.all hcom (by omega) h1 fun hm => h2 (List.dropLast_subset _ hm)
    · rw [h2]
      refine ⟨?_, fun q => ?_⟩
      · simp only [note, St.return, htk.taken, update_self, if_true]
        intro rd hr
        rcases List.mem_append.mp hr with hr | hr
        · exact hkeep (hl.ended rd hr)
        · rw [List.mem_singleton.mp hr]
          rcases h1 with ⟨h3, h4, rfl, h5, -⟩ | ⟨-, rfl, -, h5, -⟩
          · exact lined_run hl hpc ha htk.all hcom h5 h3 h4
          · have hsum := hg.sum
            exact .inl (List.length_eq_zero_iff.mp (show got'.length = 0 by omega))
      · simp only [note, St.return, htk.taken]
        exact update_ind q (.inl rfl) fun q _ => hkeep (hl.going q)

theorem lined_reach {buf : Nat → UInt8} {start : BitVec 32} {x : St N × Hist N}
    (hx : ((traced N buf start).restrict Within).Reach x) : Lined x := by
  refine Lib.Sys.invariant (I := Lined) ?_ ?_ hx
  · rintro ⟨s, h⟩ ⟨rfl, rfl⟩
    exact ⟨nofun, fun _ => .inl rfl⟩
  · intro y a y' hr hl ⟨⟨hs, hn⟩, ha⟩
    have := lined_next (inv_reach hr.mono) hl ha hs
    rwa [← hn] at this

/-- In every run the indices stay in order, what was taken and what is in the buffer is what the editor has
    committed, a character typed takes nothing back from it, and every read that is over is fine, each `C('D')`
    being taken by the one read it ends. If no read goes on behind a line that filled the buffer, a read's bytes are
    of one line. -/
theorem line_discipline (N : Nat) (buf : Nat → UInt8) (start : BitVec 32) :
    (∀ x, (traced N buf start).Reach x → let k := x.1.cons
      (k.w - k.r).toNat ≤ (k.e - k.r).toNat ∧ (k.e - k.r).toNat ≤ INPUT_BUF_SIZE ∧
      x.2.editor.committed.flatten = x.2.takes.map (·.2) ++ pending k.buf INPUT_BUF_SIZE k.r k.w ∧
      x.2.editor.line = pending k.buf INPUT_BUF_SIZE k.w k.e ∧
      (∀ c, pending k.buf INPUT_BUF_SIZE k.r k.w <+:
        pending (consoleintr k c).buf INPUT_BUF_SIZE (consoleintr k c).r (consoleintr k c).w) ∧
      (∀ rd ∈ x.2.reads, rd.Fine x.2.takes) ∧ (x.2.reads.map (·.call)).Nodup ∧
      (x.2.takes.filter (·.2 = EOT)).map (·.1) = (x.2.reads.filter (·.eof)).map (·.call)) ∧
    ∀ x, ((traced N buf start).restrict Within).Reach x →
      ∀ rd ∈ x.2.reads, OneLine rd.call rd.got x.2.editor.committed x.2.takes := by
  refine ⟨fun x hx => ?_, fun x hx => (lined_reach hx).ended⟩
  obtain ⟨⟨u, hs, hcom⟩, hc⟩ := inv_reach hx
  have hroom := hs.room
  have hb := Lib.ring_between hs.fits
  refine ⟨by omega, by omega, by rw [hs.unread]; exact hcom, hs.line.symm, fun c => ?_, hc.fine, hc.nodup, hc.eofs⟩
  obtain ⟨v, hs', -⟩ := hs.intr c
  rw [hs.unread, hs'.unread]
  exact List.prefix_append ..

def oneLine : List (Act 1) := [.intr 97, .intr 98, .intr BS, .intr CR, .call 0 10, .run 0]

theorem line_discipline_one_line : ∃ x : St 1 × Hist 1, ((traced 1 (fun _ => 0) 0).restrict Within).Reach x ∧
    x.2.takes = [(0, 97), (0, LF)] ∧
    ∃ rd ∈ x.2.reads, rd.Fine x.2.takes ∧ OneLine rd.call rd.got x.2.editor.committed x.2.takes := by
  have hrun : ∃ x : St 1 × Hist 1, ((traced 1 (fun _ => 0) 0).restrict Within).Reach x ∧
      decide (x.2.takes = [(0, 97), (0, LF)] ∧ x.2.reads.length = 1) = true :=
    Lib.Sys.reach_traced (traced 1 _ _) rfl (fun x a => decide (Within x a)) (fun _ _ h => of_decide_eq_true h) rfl oneLine _
      (by decide +kernel)
  obtain ⟨x, hr, hq⟩ := hrun
  obtain ⟨ht, hlen⟩ := of_decide_eq_true hq
  obtain ⟨rd, hrd⟩ := List.exists_mem_of_length_pos (hlen ▸ Nat.one_pos)
  exact ⟨x, hr, ht, rd, hrd, ((line_discipline 1 _ _).1 x hr.mono).2.2.2.2.2.1 rd hrd, (line_discipline 1 _ _).2 x hr rd hrd⟩

/-- More than the buffer holds is typed. Process 0 reads as much of it as fits, process 1 the rest,
    and then process 0 goes on with the next line. -/
def longLine : List (Act 2) :=
  List.replicate 128 (.intr 97) ++ [.call 0 200, .run 0, .intr 120, .intr LF, .call 1 10, .run 1, .intr 121, .intr LF, .run 0]

/-- The read of process 0 returns bytes of two lines. -/
theorem lines_mixed : ∃ x : St 2 × Hist 2, (traced 2 (fun _ => 0) 0).Reach x ∧
    x.2.editor.committed = [List.replicate 128 97, [120, LF], [121, LF]] ∧
    ∃ rd ∈ x.2.reads, rd.got = List.replicate 128 97 ++ [121, LF] ∧ ¬ OneLine rd.call rd.got x.2.editor.committed x.2.takes := by
  have hrun : ∃ x : St 2 × Hist 2, ((traced 2 (fun _ => 0) 0).restrict fun _ _ => True).Reach x ∧
      decide (x.2.editor.committed = [List.replicate 128 97, [120, LF], [121, LF]] ∧
        ∃ rd ∈ x.2.reads, rd.got = List.replicate 128 97 ++ [121, LF] ∧ ∀ l ∈ x.2.editor.committed, ¬ rd.got <:+: l) = true :=
    Lib.Sys.reach_traced (traced 2 _ _) rfl (fun _ _ => true) (fun _ _ _ => trivial) rfl longLine _ (by decide +kernel)
  obtain ⟨x, hx, hq⟩ := hrun
  obtain ⟨hcom, rd, hrd, hgot, hno⟩ := of_decide_eq_true hq
  refine ⟨x, hx.mono, hcom, rd, hrd, hgot, fun hone => ?_⟩
  obtain ⟨l, hl, hin⟩ := hone.infix (by rw [hgot]; simp)
  exact hno l hl hin

end Xv6.Console
