/-
  Xv6.Fs.Shared — processes that write to one open file (kernel/file.c, filewrite).

  The processes share a `struct file` on an inode that nobody else has open. A call writes its
  buffer in rounds, each of them atomic under the inode's lock; rounds of several calls come in
  any order, and between them anything may happen that leaves the inode and the offset alone.
-/

import Xv6.Fs.CallSteps
import Xv6.Fs.DirMap

namespace Xv6.Fs

open Function (update update_self)

variable {sb : Superblock} {E : Panic → Prop}

/-! ## Rounds -/

/-- `n1`. -/
def chunkSize (n i : Nat) : Nat := min (n - i) ((MAXOPBLOCKS - 1 - 1 - 2) / 2 * BSIZE)

/-- One round of the loop of `filewrite`, with `i` bytes written before: what `writei` returns. -/
def filewriteRound (sb : Superblock) (f : Nat) (src : Nat → UInt8) (lim n i : Nat) : Sys Int := do
  fs begin_op
  let x := (← get).ftable f
  fs (ilock sb x.ip)
  let r ← fs (writei sb x.ip (fun k => src (i + k)) (some (lim - i)) x.off (chunkSize n i))
  if 0 < r then setFile f { x with off := (x.off + r.toNat) % 2 ^ 32 }
  fs (iunlock x.ip)
  fs end_op
  return r

theorem filewriteFrom_succ (f : Nat) (src : Nat → UInt8) (lim n fuel i : Nat) :
    filewriteFrom sb f src lim n (fuel + 1) i =
      if i < n then do
        let r ← filewriteRound sb f src lim n i
        if r ≠ chunkSize n i then return i
        filewriteFrom sb f src lim n fuel (i + chunkSize n i)
      else return i := by
  rw [filewriteFrom]
  split
  · unfold filewriteRound
    simp only [bind_assoc]
    congr 1
    funext _
    congr 1
    funext s
    congr 1
    funext _
    congr 1
    funext r
    split
    · simp only [bind_assoc, pure_bind]
      rfl
    · simp only [bind_assoc, pure_bind]
      rfl
  · rfl

/-! ## Contents -/

/-- The list with `w` written over it from place `o` on. -/
def overlay {α : Type} (l : List α) (o : Nat) (w : List α) : List α := l.take o ++ w ++ l.drop (o + w.length)

theorem overlay_nil {α : Type} (l : List α) (o : Nat) : overlay l o [] = l := by
  rw [overlay, List.append_nil, List.length_nil, Nat.add_zero, List.take_append_drop]

theorem overlay_overlay {α : Type} {l w : List α} {o : Nat} (c : List α) (h : o + w.length ≤ (overlay l o w).length) :
    overlay (overlay l o w) (o + w.length) c = overlay l o (w ++ c) := by
  have ho : o ≤ l.length := by
    simp only [overlay, List.length_append, List.length_take, List.length_drop] at h
    omega
  have hlen : (l.take o ++ w).length = o + w.length := by
    rw [List.length_append, List.length_take, Nat.min_eq_left ho]
  have hdrop : (l.take o ++ w ++ l.drop (o + w.length)).drop (o + w.length + c.length) = l.drop (o + (w ++ c).length) := by
    rw [List.drop_append, List.drop_eq_nil_of_le (by omega), List.nil_append, hlen, List.drop_drop, List.length_append]
    congr 1
    omega
  unfold overlay
  rw [hdrop, List.take_left' hlen, List.append_assoc (l.take o)]

def Node.contents (v : Node) : List UInt8 := (List.range v.size).map v.byte

theorem Node.length_contents (v : Node) : v.contents.length = v.size := by simp [Node.contents]

theorem Node.contents_write {v : Node} {off tot : Nat} {src : Nat → UInt8} (h : off ≤ v.size) :
    (v.write off tot tot src).contents = overlay v.contents off ((List.range tot).map src) := by
  rw [overlay, List.length_map, List.length_range]
  have hsize : (v.write off tot tot src).contents.length = max v.size (off + tot) := Node.length_contents _
  refine List.ext_getElem ?_ fun k hk hk' => ?_
  · simp only [hsize, List.length_append, List.length_take, List.length_drop, List.length_map, List.length_range,
      v.length_contents]
    omega
  · have hget : (v.write off tot tot src).contents[k] = if off ≤ k ∧ k < off + tot ∧ k < max v.size (off + tot)
        then src (k - off) else v.byte k := by simp [Node.contents, Node.write]
    rw [hget]
    rw [hsize] at hk
    simp only [Node.contents, List.getElem_append, List.length_append, List.length_take, List.length_map, List.length_range,
      List.getElem_take, List.getElem_drop, List.getElem_map, List.getElem_range, Nat.min_eq_left h]
    by_cases hlt : k < off
    · rw [if_neg (by omega), dif_pos (by omega), dif_pos hlt]
    · by_cases hin : k < off + tot
      · rw [if_pos ⟨by omega, hin, hk⟩, dif_pos hin, dif_neg hlt]
      · rw [if_neg (by omega), dif_neg hin]
        exact congrArg v.byte (by omega)

/-! ## One round -/

/-- File `f` is on inode `i`, which is in entry `j` of the inode table. -/
structure Attached (sb : Superblock) (i j f : Nat) (s : St) : Prop where
  inv : Inv sb s.core
  ref : 0 < refs s.core j
  inum : (s.core.itable j).inum = i
  ip : (s.ftable f).ip = j

/-- What a round that writes its whole chunk leaves. -/
structure Appended (sb : Superblock) (i j f : Nat) (src : Nat → UInt8) (c : Nat) (s s' : St) : Prop where
  attached : Attached sb i j f s'
  within : (s.ftable f).off ≤ (view sb s.core.disk i).size
  view : view sb s'.core.disk i = (view sb s.core.disk i).write (s.ftable f).off c c src
  off : (s'.ftable f).off = (s.ftable f).off + c

theorem wp_writei_within {s : Core} {j : Nat} {src : Nat → UInt8} {lim : Option Nat} {off n : Nat} :
    Lib.Wp (fun _ => True) (writei sb j src lim off n) s fun r _ => r ≠ -1 → off ≤ (s.itable j).d.size := by
  rw [writei, Lib.wp_bind, wp_inode]
  refine Lib.wp_ite (fun _ hr => absurd rfl hr) fun h => ?_
  have hoff : off ≤ (s.itable j).d.size := by omega
  unfold Lib.Wp
  split
  · exact fun _ => hoff
  · trivial

theorem wp_unlock_end {s : St} {j : Nat} (hr : 0 < refs s.core j) (r : Int) :
    Lib.Wp (Ev E) (do fs (iunlock j); fs end_op; return r) s fun r' s' =>
      r' = r ∧ s'.ftable = s.ftable ∧ s'.core.disk = s.core.disk ∧ s'.core.itable = s.core.itable := by
  simp only [Lib.wp_bind, wp_core]
  refine (wp_iunlock hr).mono fun _ t e => ?_
  subst e
  rw [end_op, Lib.wp_modify]
  split <;> exact ⟨rfl, rfl, rfl, rfl⟩

theorem wp_filewriteRound (hL : Layout sb) {i j f : Nat} {s : St} (h : Attached sb i j f s) {src : Nat → UInt8}
    {lim n k : Nat} :
    Lib.Wp (Ev fun _ => True) (filewriteRound sb f src lim n k) s fun r s' =>
      r = chunkSize n k → Appended sb i j f (fun o => src (k + o)) (chunkSize n k) s s' := by
  obtain ⟨hI, href, hinum, hip⟩ := h
  have hI0 : Inv sb { s.core with outstanding := s.core.outstanding + 1 } := hI.congr rfl rfl
  simp only [filewriteRound, Lib.wp_bind, Lib.wp_get, wp_core, hip]
  rw [begin_op, Lib.wp_modify]
  refine (wp_ilock (h := refs s.core) hI0.table href fun _ => trivial).mono fun _ t ⟨htab, hrefs, hj, _⟩ => ?_
  have ht : Inv sb t := hI0.more htab fun k => Nat.le_of_eq (congrFun hrefs k).symm
  have hj : Holds t j i := hinum ▸ hj
  have hview : view sb t.disk = view sb s.core.disk := by rw [htab.still.disk]
  have ho : 0 < t.outstanding := htab.still.out ▸ Nat.succ_pos _
  have hn : chunkSize n k < 2 ^ 32 := Nat.lt_of_le_of_lt (Nat.min_le_right ..) (by decide)
  refine ((wp_writei hL ht hj ho hn).and wp_writei_within).mono fun r u ⟨hr, hwithin⟩ => ?_
  rcases hr with ⟨hr, hu, -⟩ | ⟨tot, w, hr, hwrote, hc⟩
  · subst hu
    refine Lib.wp_ite (fun hpos => by omega) fun _ => ?_
    have hpos : 0 < refs t j := hj.ref
    exact (wp_unlock_end (s := { s with core := t }) hpos r).mono fun r' s' ⟨h1, _⟩ hcs => by omega
  · have hju : Holds u j i := hc.holds hj
    have hpos : 0 < refs u j := hju.ref
    have hdisk : view sb u.disk i = (view sb s.core.disk i).write (s.ftable f).off tot w fun o => src (k + o) := by
      rw [changed_view hc, hview]
    have hi := (hc.inv.mid i).lt hju
    have hfits : (s.ftable f).off + tot ≤ MAXFILE * BSIZE := by
      have htype := ((hc.inv.mid i).copy_eq hju).2
      have hsize := (hc.inv.sound i hi htype).size
      rw [← view_size hi htype, hdisk] at hsize
      exact Nat.le_trans (Nat.le_max_right ..) hsize
    have hstart : (s.ftable f).off ≤ (view sb s.core.disk i).size := by
      have hcopy := (ht.mid i).copy_eq hj
      rw [← hview, view_size ((ht.mid i).lt hj) hcopy.2, ← hcopy.1]
      exact hwithin (by omega)
    have hle := hwrote.le
    have hlen := hwrote.le_n
    have hmax : MAXFILE * BSIZE < 2 ^ 32 := by decide
    refine Lib.wp_when
      (fun t => t.core = u ∧ (t.ftable f).ip = j ∧ (tot = chunkSize n k → (t.ftable f).off = (s.ftable f).off + tot))
      (fun hr0 => ?_) (fun hr0 => ⟨rfl, hip, fun _ => show (s.ftable f).off = _ by omega⟩) fun t ⟨e, hy, hoff⟩ => ?_
    · simp only [wp_setFile, update_self, hr, Int.toNat_natCast]
      exact ⟨trivial, trivial, fun _ => Nat.mod_eq_of_lt (by omega)⟩
    · subst e
      refine (wp_unlock_end hpos r).mono fun r' s' ⟨h1, h2, h3, h4⟩ hcs => ?_
      obtain rfl : tot = chunkSize n k := by omega
      obtain rfl : w = chunkSize n k := by omega
      refine ⟨⟨hc.inv.congr h3 h4, ?_, ?_, by rw [h2]; exact hy⟩, hstart, by rw [h3]; exact hdisk, by rw [h2]; exact hoff rfl⟩
      · rw [refs, h4]
        exact hju.ref
      · rw [h4]
        exact hju.inum

/-! ## Calls -/

/-- A call of `filewrite` that has written `i` of its `n` bytes. -/
structure Write where
  id : Nat
  src : Nat → UInt8
  lim : Nat
  n : Nat
  i : Nat

def Write.buffer (w : Write) (k : Nat) : List UInt8 := (List.range k).map w.src

structure Shared where
  st : St
  /-- The call that each process is in. -/
  call : Nat → Option Write
  ncalls : Nat
  /-- A call has failed. -/
  failed : Bool
  /-- The chunks that were written, with the number of the call. -/
  chunks : List (Nat × List UInt8)
  /-- The calls that have returned `n`, with their buffers. -/
  done : List (Nat × List UInt8)

/-- The inode and the offset are left alone. -/
structure Elsewhere (sb : Superblock) (i j f : Nat) (s s' : St) : Prop where
  attached : Attached sb i j f s'
  view : view sb s'.core.disk i = view sb s.core.disk i
  off : (s'.ftable f).off = (s.ftable f).off

inductive SharedAct where
  | call (p : Nat) (src : Nat → UInt8) (lim n : Nat)
  | round (p : Nat)
  | ret (p : Nat)
  | other (s : St)

inductive SharedStep (sb : Superblock) (i j f : Nat) (x : Shared) : SharedAct → Shared → Prop
  | call {p n lim : Nat} {src : Nat → UInt8} : x.call p = none →
      SharedStep sb i j f x (.call p src lim n)
        { x with call := update x.call p (some ⟨x.ncalls, src, lim, n, 0⟩), ncalls := x.ncalls + 1 }
  | round {p : Nat} {w : Write} {s' : St} : x.call p = some w → w.i < w.n →
      filewriteRound sb f w.src w.lim w.n w.i x.st = .ok ((chunkSize w.n w.i : Nat), s') →
      SharedStep sb i j f x (.round p) { x with
        st := s'
        call := update x.call p (some { w with i := w.i + chunkSize w.n w.i })
        chunks := x.chunks ++ [(w.id, (List.range (chunkSize w.n w.i)).map fun o => w.src (w.i + o))] }
  | fail {p : Nat} {w : Write} {r : Int} {s' : St} : x.call p = some w → w.i < w.n →
      filewriteRound sb f w.src w.lim w.n w.i x.st = .ok (r, s') → r ≠ chunkSize w.n w.i →
      SharedStep sb i j f x (.round p) { x with st := s', call := update x.call p none, failed := true }
  | ret {p : Nat} {w : Write} : x.call p = some w → ¬ w.i < w.n →
      SharedStep sb i j f x (.ret p) { x with
        call := update x.call p none
        done := x.done ++ [(w.id, w.buffer w.n)] }
  | other {s' : St} : Elsewhere sb i j f x.st s' → SharedStep sb i j f x (.other s') { x with st := s' }

def shared (sb : Superblock) (i j f : Nat) (s : St) : Lib.Sys Shared SharedAct :=
  ⟨(· = ⟨s, fun _ => none, 0, false, [], []⟩), SharedStep sb i j f⟩

/-- What a call has written. -/
def Shared.writtenBy (x : Shared) (id : Nat) : List UInt8 := ((x.chunks.filter fun c => c.1 = id).map Prod.snd).flatten

/-- All that has been written. -/
def Shared.written (x : Shared) : List UInt8 := (x.chunks.map Prod.snd).flatten

/-- The file, the offset and the calls, from the state `s` on. -/
structure Shared.Inv (sb : Superblock) (i j f : Nat) (s : St) (x : Shared) : Prop where
  attached : Attached sb i j f x.st
  contents : (view sb x.st.core.disk i).contents = overlay (view sb s.core.disk i).contents (s.ftable f).off x.written
  off : (x.st.ftable f).off = (s.ftable f).off + x.written.length
  fresh : ∀ c ∈ x.chunks, c.1 < x.ncalls
  call : ∀ p w, x.call p = some w → w.id < x.ncalls ∧ w.i ≤ w.n ∧ x.writtenBy w.id = w.buffer w.i
  unique : ∀ p q w v, x.call p = some w → x.call q = some v → w.id = v.id → p = q
  done : ∀ c ∈ x.done, c.1 < x.ncalls ∧ x.writtenBy c.1 = c.2
  idle : ∀ c ∈ x.done, ∀ p w, x.call p = some w → w.id ≠ c.1

section

variable {i j f : Nat} {s s' : St} {x x' : Shared}

theorem Shared.written_append {c : Nat × List UInt8} (h : x'.chunks = x.chunks ++ [c]) : x'.written = x.written ++ c.2 := by
  rw [written, h, List.map_append, List.flatten_append]
  simp [written]

theorem Shared.writtenBy_append {c : Nat × List UInt8} (h : x'.chunks = x.chunks ++ [c]) (id : Nat) :
    x'.writtenBy id = if c.1 = id then x.writtenBy id ++ c.2 else x.writtenBy id := by
  rw [writtenBy, h, List.filter_append, List.map_append, List.flatten_append]
  split <;> rename_i hc <;> simp [writtenBy, hc]

theorem Shared.Inv.start (h : Attached sb i j f s) : Shared.Inv sb i j f s ⟨s, fun _ => none, 0, false, [], []⟩ where
  attached := h
  contents := (overlay_nil _ _).symm
  off := rfl
  fresh := nofun
  call := nofun
  unique := nofun
  done := nofun
  idle := nofun

theorem Shared.Inv.writtenBy_fresh (h : Shared.Inv sb i j f s x) : x.writtenBy x.ncalls = [] := by
  have hnone : x.chunks.filter (fun c => c.1 = x.ncalls) = [] := List.filter_eq_nil_iff.mpr fun c hc => by
    have := h.fresh c hc
    simp only [decide_eq_true_eq]
    omega
  rw [writtenBy, hnone]
  rfl

theorem update_some {α : Type} {g : Nat → Option α} {p q : Nat} {v : Option α} {w : α} (h : update g p v q = some w) :
    q = p ∧ v = some w ∨ q ≠ p ∧ g q = some w := by
  by_cases e : q = p
  · subst e
    rw [update_self] at h
    exact .inl ⟨rfl, h⟩
  · rw [Function.update_of_ne e] at h
    exact .inr ⟨e, h⟩

theorem Shared.Inv.enter (h : Shared.Inv sb i j f s x) (p : Nat) (src : Nat → UInt8) (lim n : Nat) :
    Shared.Inv sb i j f s
      { x with call := update x.call p (some ⟨x.ncalls, src, lim, n, 0⟩), ncalls := x.ncalls + 1 } where
  attached := h.attached
  contents := h.contents
  off := h.off
  fresh c hc := Nat.lt_succ_of_lt (h.fresh c hc)
  call q w hq := by
    rcases update_some hq with ⟨-, hw⟩ | ⟨-, hw⟩
    · cases hw
      exact ⟨Nat.lt_succ_self _, Nat.zero_le _, h.writtenBy_fresh⟩
    · obtain ⟨h1, h2, h3⟩ := h.call q w hw
      exact ⟨Nat.lt_succ_of_lt h1, h2, h3⟩
  unique q r w v hq hr hid := by
    rcases update_some hq with ⟨hqp, hw⟩ | ⟨-, hw⟩ <;> rcases update_some hr with ⟨hrp, hv⟩ | ⟨-, hv⟩
    · rw [hqp, hrp]
    · cases hw
      exact absurd hid.symm (Nat.ne_of_lt (h.call r v hv).1)
    · cases hv
      exact absurd hid (Nat.ne_of_lt (h.call q w hw).1)
    · exact h.unique q r w v hw hv hid
  done c hc := ⟨Nat.lt_succ_of_lt (h.done c hc).1, (h.done c hc).2⟩
  idle c hc q w hq := by
    rcases update_some hq with ⟨-, hw⟩ | ⟨-, hw⟩
    · cases hw
      exact Nat.ne_of_gt (h.done c hc).1
    · exact h.idle c hc q w hw

theorem Shared.Inv.round (hL : Layout sb) (h : Shared.Inv sb i j f s x) {p : Nat} {w : Write} (hp : x.call p = some w)
    (hlt : w.i < w.n) (hrun : filewriteRound sb f w.src w.lim w.n w.i x.st = .ok ((chunkSize w.n w.i : Nat), s')) :
    Shared.Inv sb i j f s { x with
      st := s'
      call := update x.call p (some { w with i := w.i + chunkSize w.n w.i })
      chunks := x.chunks ++ [(w.id, (List.range (chunkSize w.n w.i)).map fun o => w.src (w.i + o))] } := by
  have ha := (wp_filewriteRound hL h.attached).of_ok hrun rfl
  obtain ⟨hid, hle, hby⟩ := h.call p w hp
  have hwithin := ha.within
  rw [← Node.length_contents, h.contents, h.off] at hwithin
  have hchunk : chunkSize w.n w.i ≤ w.n - w.i := Nat.min_le_left ..
  -- only this call has written
  have hothers : ∀ id, w.id ≠ id → Shared.writtenBy { x with
      st := s'
      call := update x.call p (some { w with i := w.i + chunkSize w.n w.i })
      chunks := x.chunks ++ [(w.id, (List.range (chunkSize w.n w.i)).map fun o => w.src (w.i + o))] } id = x.writtenBy id :=
    fun id hne => (writtenBy_append rfl id).trans (if_neg hne)
  refine ⟨ha.attached, ?_, ?_, ?_, ?_, ?_, ?_, ?_⟩
  · rw [written_append rfl, ha.view, Node.contents_write ha.within, h.contents, h.off, overlay_overlay _ hwithin]
  · rw [written_append rfl, ha.off, h.off, List.length_append, List.length_map, List.length_range, Nat.add_assoc]
  · intro c hc
    rcases List.mem_append.mp hc with hc | hc
    · exact h.fresh c hc
    · rw [List.mem_singleton.mp hc]
      exact hid
  · intro q v hq
    rcases update_some hq with ⟨-, hv⟩ | ⟨hne, hv⟩
    · cases hv
      refine ⟨hid, by dsimp only; omega, (writtenBy_append rfl w.id).trans ?_⟩
      rw [if_pos rfl, hby, Write.buffer, Write.buffer, List.range_add, List.map_append, List.map_map]
      rfl
    · obtain ⟨h1, h2, h3⟩ := h.call q v hv
      exact ⟨h1, h2, (hothers v.id fun e => hne (h.unique q p v w hv hp e.symm)).trans h3⟩
  · intro q r v u hq hr hvu
    rcases update_some hq with ⟨hqp, hv⟩ | ⟨-, hv⟩ <;> rcases update_some hr with ⟨hrp, hu⟩ | ⟨-, hu⟩
    · rw [hqp, hrp]
    · cases hv
      exact hqp.trans (h.unique p r w u hp hu hvu)
    · cases hu
      exact (h.unique q p v w hv hp hvu).trans hrp.symm
    · exact h.unique q r v u hv hu hvu
  · intro c hc
    obtain ⟨h1, h2⟩ := h.done c hc
    exact ⟨h1, (hothers c.1 (h.idle c hc p w hp)).trans h2⟩
  · intro c hc q v hq
    rcases update_some hq with ⟨-, hv⟩ | ⟨-, hv⟩
    · cases hv
      exact h.idle c hc p w hp
    · exact h.idle c hc q v hv

theorem Shared.Inv.leave (h : Shared.Inv sb i j f s x) {p : Nat} {w : Write} (hp : x.call p = some w) (hge : ¬ w.i < w.n) :
    Shared.Inv sb i j f s { x with call := update x.call p none, done := x.done ++ [(w.id, w.buffer w.n)] } := by
  obtain ⟨hid, hle, hby⟩ := h.call p w hp
  have hall : w.i = w.n := Nat.le_antisymm hle (Nat.le_of_not_lt hge)
  have hcall : ∀ q v, update x.call p none q = some v → q ≠ p ∧ x.call q = some v := fun q v hq => by
    rcases update_some hq with ⟨-, hv⟩ | hv
    · cases hv
    · exact hv
  refine ⟨h.attached, h.contents, h.off, h.fresh, fun q v hq => h.call q v (hcall q v hq).2,
    fun q r v u hq hr => h.unique q r v u (hcall q v hq).2 (hcall r u hr).2, ?_, ?_⟩
  · intro c hc
    rcases List.mem_append.mp hc with hc | hc
    · exact h.done c hc
    · rw [List.mem_singleton.mp hc]
      exact ⟨hid, hall ▸ hby⟩
  · intro c hc q v hq
    obtain ⟨hne, hv⟩ := hcall q v hq
    rcases List.mem_append.mp hc with hc | hc
    · exact h.idle c hc q v hv
    · rw [List.mem_singleton.mp hc]
      exact fun e => hne (h.unique q p v w hv hp e)

theorem Shared.Inv.other (h : Shared.Inv sb i j f s x) (he : Elsewhere sb i j f x.st s') :
    Shared.Inv sb i j f s { x with st := s' } where
  attached := he.attached
  contents := (congrArg Node.contents he.view).trans h.contents
  off := he.off.trans h.off
  fresh := h.fresh
  call := h.call
  unique := h.unique
  done := h.done
  idle := h.idle

theorem Shared.Inv.step (hL : Layout sb) (h : Shared.Inv sb i j f s x) {a : SharedAct} (hs : SharedStep sb i j f x a x')
    (hok : x'.failed = false) : Shared.Inv sb i j f s x' := by
  cases hs with
  | call hp => exact h.enter ..
  | round hp hlt hrun => exact h.round hL hp hlt hrun
  | fail => cases hok
  | ret hp hge => exact h.leave hp hge
  | other he => exact h.other he

theorem SharedStep.failed {a : SharedAct} (hs : SharedStep sb i j f x a x') (h : x.failed = true) : x'.failed = true := by
  cases hs <;> first | exact h | rfl

theorem Shared.inv (hL : Layout sb) (h : Attached sb i j f s) (hr : (shared sb i j f s).Reach x) :
    x.failed = true ∨ Shared.Inv sb i j f s x := by
  refine Lib.Sys.invariant (I := fun x => x.failed = true ∨ Shared.Inv sb i j f s x) (fun x hx => ?_)
    (fun x a x' _ hx hs => ?_) hr
  · rw [hx]
    exact .inr (.start h)
  · rcases hx with hx | hx
    · exact .inl (SharedStep.failed hs hx)
    · cases hf : x'.failed with
      | true => exact .inl rfl
      | false => exact .inr (hx.step hL hs hf)

/-- Any number of calls, as long as none has failed. -/
theorem shared_offset (hL : Layout sb) (h : Attached sb i j f s) (hr : (shared sb i j f s).Reach x) (hok : x.failed = false) :
    (view sb x.st.core.disk i).contents =
      (view sb s.core.disk i).contents.take (s.ftable f).off ++ x.written ++
        (view sb s.core.disk i).contents.drop ((s.ftable f).off + x.written.length) ∧
    (x.st.ftable f).off = (s.ftable f).off + x.written.length ∧
    (∀ c ∈ x.done, x.writtenBy c.1 = c.2) ∧
    ∀ p w, x.call p = some w → x.writtenBy w.id = w.buffer w.i := by
  rcases Shared.inv hL h hr with hf | hI
  · rw [hok] at hf
    cases hf
  · exact ⟨hI.contents, hI.off, fun c hc => (hI.done c hc).2, fun p w hp => (hI.call p w hp).2.2⟩

end

/-- A file with the bytes 8 and 9 is opened again; file 0 is at its start. -/
def twoBytes : List (Nat × Call) :=
  [(0, .open slashF (O_CREATE ||| O_RDWR)), (0, .write 0 (fun o => if o = 0 then 8 else 9) 2 2 0), (0, .close 0),
    (0, .open slashF O_RDWR)]

/-- What was behind the chunks stays: the file is not its beginning and the chunks. -/
theorem shared_offset_rest : ∃ s x, (sys tinySb (Image tinySb)).Reach s ∧ Attached tinySb 2 1 0 s ∧
    (shared tinySb 2 1 0 s).Reach x ∧ x.failed = false ∧
    (view tinySb x.st.core.disk 2).contents ≠ (view tinySb s.core.disk 2).contents.take (s.ftable 0).off ++ x.written := by
  obtain ⟨s, hs, ht⟩ : ∃ s, (sys tinySb (Image tinySb)).Reach s ∧ _ := Lib.Sys.reach_of_any twoBytes
    (fun s => decide (Lib.Wp (fun _ => False) (filewriteRound tinySb 0 (fun _ => 7) 1 1 0) s fun r s' => r = 1 ∧
      (view tinySb s'.core.disk 2).contents = [7, 9] ∧ (s.ftable 0).off = 0 ∧ (s.ftable 0).ip = 1 ∧
      (s.core.itable 1).inum = 2 ∧ 0 < (s.core.itable 1).ref))
    ⟨_, tiny_image, rfl⟩ (by decide +kernel)
  obtain ⟨_, s', hrun, rfl, hafter, hoff, hip, hinum, href⟩ := (of_decide_eq_true ht).returns
  let w : Write := ⟨0, fun _ => 7, 1, 1, 0⟩
  have hx : (shared tinySb 2 1 0 s).Reach ⟨s, update (fun _ => none) 0 (some w), 1, false, [], []⟩ :=
    .step (.init rfl) (.call rfl)
  have hx := hx.step (SharedStep.round (p := 0) (w := w) rfl Nat.one_pos hrun)
  refine ⟨s, _, hs, ⟨(world_reach tiny_layout hs).ready.inv, href, hinum, hip⟩, hx, rfl, fun e => ?_⟩
  rw [hoff] at e
  have e : [7, 9] = [(7 : UInt8)] := hafter.symm.trans e
  cases e

def sevens : Write := ⟨0, fun _ => 7, 3073, 3073, 0⟩

/-- Process 0 writes `sevens` in two rounds, and process 1 a five between them. -/
theorem shared_offset_overwrite : ∃ s x, Attached tinySb 2 1 0 s ∧ (shared tinySb 2 1 0 s).Reach x ∧ x.failed = false ∧
    x.written = sevens.buffer 3072 ++ [5, 7] ∧ (x.st.ftable 0).off = 3074 ∧ x.writtenBy 0 = sevens.buffer 3073 := by
  obtain ⟨s, hs, ht⟩ : ∃ s, (sys tinySb (Image tinySb)).Reach s ∧ _ := Lib.Sys.reach_of_any twoBytes
    (fun s => decide (Lib.Wp (fun _ => False) (do
        let a ← filewriteRound tinySb 0 (fun _ => 7) 3073 3073 0
        let b ← filewriteRound tinySb 0 (fun _ => 5) 1 1 0
        let c ← filewriteRound tinySb 0 (fun _ => 7) 3073 3073 3072
        return (a, b, c)) s fun r _ => r = (3072, 1, 1) ∧
      (s.ftable 0).off = 0 ∧ (s.ftable 0).ip = 1 ∧ (s.core.itable 1).inum = 2 ∧ 0 < (s.core.itable 1).ref))
    ⟨_, tiny_image, rfl⟩ (by decide +kernel)
  have hw := of_decide_eq_true ht
  simp only [Lib.wp_bind, Lib.wp_pure] at hw
  obtain ⟨a, s1, h1, hw⟩ := hw.returns
  obtain ⟨b, s2, h2, hw⟩ := hw.returns
  obtain ⟨c, s3, h3, hr, hoff, hip, hinum, href⟩ := hw.returns
  cases hr
  have ha : Attached tinySb 2 1 0 s := ⟨(world_reach tiny_layout hs).ready.inv, href, hinum, hip⟩
  obtain ⟨x, hx, hok, hwritten, hdone⟩ : ∃ x, (shared tinySb 2 1 0 s).Reach x ∧ x.failed = false ∧
      x.written = sevens.buffer 3072 ++ [5, 7] ∧ x.done = [(0, sevens.buffer 3073)] := by
    let w : Write := ⟨1, fun _ => 5, 1, 1, 0⟩
    have hx : (shared tinySb 2 1 0 s).Reach ⟨s, update (fun _ => none) 0 (some sevens), 1, false, [], []⟩ :=
      .step (.init rfl) (.call rfl)
    have hx : (shared tinySb 2 1 0 s).Reach ⟨s, update (update (fun _ => none) 0 (some sevens)) 1 (some w), 2, false, [], []⟩ :=
      .step hx (.call rfl)
    have hx := hx.step (SharedStep.round (p := 0) (w := sevens) rfl (by decide) h1)
    rw [show chunkSize sevens.n sevens.i = 3072 by decide] at hx
    have hx := hx.step (SharedStep.round (p := 1) (w := w) rfl (by decide) h2)
    rw [show chunkSize w.n w.i = 1 by decide] at hx
    have hlast : chunkSize sevens.n 3072 = 1 := by decide
    have hx := hx.step (SharedStep.round (p := 0) (w := { sevens with i := 3072 }) rfl (by decide) (by rw [hlast]; exact h3))
    rw [hlast] at hx
    have hx := hx.step (SharedStep.ret (p := 0) (w := { sevens with i := 3073 }) rfl (Nat.lt_irrefl 3073))
    refine ⟨_, hx, rfl, ?_, rfl⟩
    simp only [Shared.written, List.nil_append, List.cons_append, List.map_cons, List.map_nil, List.flatten_cons,
      List.flatten_nil]
    rfl
  obtain ⟨-, hend, hcalls, -⟩ := shared_offset tiny_layout ha hx hok
  refine ⟨s, x, ha, hx, hok, hwritten, ?_, ?_⟩
  · rw [hend, hoff, hwritten]
    simp [Write.buffer]
  · simpa only using hcalls (0, sevens.buffer 3073) (by rw [hdone]; exact List.mem_singleton_self _)

end Xv6.Fs
