/-
  Xv6.Fs.DirMap — a directory is a finite map from names to inode numbers (kernel/fs.c: dirlookup,
  dirlink; kernel/sysfile.c: sys_unlink).

  Names count by their first DIRSIZ bytes (`cut`). `DirRun` is any sequence of `dirlink` and of
  clearing the entry that `dirlookup` has found, and `DirEvent.apply` what each of them does to a
  map.
-/

import Xv6.Fs.Contents
import Xv6.Str

namespace Xv6.Fs

variable {sb : Superblock} {E : Panic → Prop} {s s' t t' : Core} {i j k e : Nat} {v : Node} {name n : List UInt8} {inum : Nat}

/-! ## The entries as a map -/

theorem namecmp_entry : namecmp n (v.entry e).name = true ↔ (v.entry e).name = cut n := by
  rw [namecmp_iff, show cut (v.entry e).name = (v.entry e).name from cut_of_le Str.length_cstr_le Str.zero_not_mem_cstr]
  exact eq_comm

namespace Node

/-- No two entries in use have one name. -/
def Distinct (v : Node) : Prop :=
  ∀ e f, e < v.slots → f < v.slots → (v.entry e).inum ≠ 0 → (v.entry f).inum ≠ 0 → (v.entry e).name = (v.entry f).name → e = f

theorem Distinct.find_iff (h : v.Distinct) : v.find n = some e ↔ e < v.slots ∧ (v.entry e).inum ≠ 0 ∧
    (v.entry e).name = cut n := by
  constructor
  · intro hf
    obtain ⟨h1, h2, h3⟩ := find_some hf
    exact ⟨h1, h2, namecmp_entry.mp h3⟩
  · rintro ⟨h1, h2, h3⟩
    cases hf : v.find n with
    | none =>
      have := find_none hf h1 h2
      rw [namecmp_entry.mpr h3] at this
      cases this
    | some f =>
      obtain ⟨g1, g2, g3⟩ := find_some hf
      rw [h f e g1 h1 g2 h2 ((namecmp_entry.mp g3).trans h3.symm)]

theorem Distinct.lookup_iff (h : v.Distinct) :
    v.lookup n = some k ↔ k ≠ 0 ∧ ∃ e < v.slots, v.entry e = ⟨k, cut n⟩ := by
  rw [lookup, Option.map_eq_some_iff]
  constructor
  · rintro ⟨e, he, rfl⟩
    obtain ⟨h1, h2, h3⟩ := h.find_iff.mp he
    exact ⟨h2, e, h1, by rw [← h3]⟩
  · rintro ⟨hk, e, h1, h2⟩
    exact ⟨e, h.find_iff.mpr ⟨h1, by rw [h2]; exact hk, by rw [h2]⟩, by rw [h2]⟩

theorem lookup_cut : v.lookup (cut n) = v.lookup n := by
  have : v.named (cut n) = v.named n := by
    funext e
    rw [Bool.eq_iff_iff, named_iff, named_iff, namecmp_entry, namecmp_entry, cut_cut]
  rw [lookup, lookup, find, find, this]

end Node

section

variable (hv : v.Distinct) (hw : v.size % 16 = 0)
include hv hw

theorem distinct_link (hnone : v.find name = none) (he : e ≤ v.slots) (hi : inum < 2 ^ 16) :
    (v.setEntry e ⟨inum, name⟩).Distinct := by
  have hne : ∀ f < v.slots, (v.entry f).inum ≠ 0 → (v.entry f).name ≠ cut name := fun f hf hu hn => by
    have := hv.find_iff.mpr ⟨hf, hu, hn⟩
    rw [hnone] at this
    cases this
  intro f g hf hg uf ug hfg
  rw [slots_setEntry hw] at hf hg
  by_cases ef : f = e
  · by_cases eg : g = e
    · rw [ef, eg]
    · rw [ef, entry_link hi, entry_setEntry_of_ne eg] at hfg
      rw [entry_setEntry_of_ne eg] at ug
      exact absurd hfg.symm (hne g (by omega) ug)
  · rw [entry_setEntry_of_ne ef] at uf hfg
    by_cases eg : g = e
    · rw [eg, entry_link hi] at hfg
      exact absurd hfg (hne f (by omega) uf)
    · rw [entry_setEntry_of_ne eg] at ug hfg
      exact hv f g (by omega) (by omega) uf ug hfg

theorem lookup_link (hnone : v.find name = none) (he : e ≤ v.slots) (hfree : e < v.slots → (v.entry e).inum = 0)
    (hi : inum < 2 ^ 16) (hpos : 0 < inum) :
    (v.setEntry e ⟨inum, name⟩).lookup n = if cut n = cut name then some inum else v.lookup n := by
  have hd := distinct_link hv hw hnone he hi
  refine Option.ext fun k => ?_
  rw [hd.lookup_iff, slots_setEntry hw]
  by_cases hn : cut n = cut name
  · rw [if_pos hn, Option.some.injEq]
    constructor
    · rintro ⟨hk, f, hf, hfk⟩
      by_cases ef : f = e
      · rw [ef, entry_link hi] at hfk
        exact congrArg Dirent.inum hfk
      · rw [entry_setEntry_of_ne ef] at hfk
        have := hv.find_iff (e := f) (n := name) |>.mpr ⟨by omega, by rw [hfk]; exact hk, by rw [hfk, hn]⟩
        rw [hnone] at this
        cases this
    · rintro rfl
      exact ⟨by omega, e, by omega, by rw [entry_link hi, hn]⟩
  · rw [if_neg hn, hv.lookup_iff]
    refine and_congr_right fun hk => ⟨?_, ?_⟩
    · rintro ⟨f, hf, hfk⟩
      by_cases ef : f = e
      · rw [ef, entry_link hi] at hfk
        exact absurd (congrArg Dirent.name hfk).symm hn
      · rw [entry_setEntry_of_ne ef] at hfk
        exact ⟨f, by omega, hfk⟩
    · rintro ⟨f, hf, hfk⟩
      have ef : f ≠ e := fun ef => hk (by
        have := hfree (ef ▸ hf)
        rwa [← ef, hfk] at this)
      exact ⟨f, by omega, by rw [entry_setEntry_of_ne ef, hfk]⟩

theorem distinct_clear (he : e < v.slots) : (v.setEntry e ⟨0, []⟩).Distinct := by
  intro f g hf hg uf ug hfg
  rw [slots_setEntry hw] at hf hg
  have ef : f ≠ e := fun ef => uf (by rw [ef]; exact entry_setEntry_zero [])
  have eg : g ≠ e := fun eg => ug (by rw [eg]; exact entry_setEntry_zero [])
  rw [entry_setEntry_of_ne ef] at uf hfg
  rw [entry_setEntry_of_ne eg] at ug hfg
  exact hv f g (by omega) (by omega) uf ug hfg

theorem lookup_clear (hfind : v.find name = some e) :
    (v.setEntry e ⟨0, []⟩).lookup n = if cut n = cut name then none else v.lookup n := by
  obtain ⟨he, hu, hname⟩ := hv.find_iff.mp hfind
  have hd := distinct_clear hv hw he
  refine Option.ext fun k => ?_
  have hne : ∀ {f c}, k ≠ 0 → (v.setEntry e ⟨0, []⟩).entry f = ⟨k, c⟩ → f ≠ e := fun hk hfk ef => hk (by
    rw [ef] at hfk
    rw [← entry_setEntry_zero (v := v) (e := e) [], hfk])
  rw [hd.lookup_iff, slots_setEntry hw]
  by_cases hn : cut n = cut name
  · rw [if_pos hn]
    refine iff_of_false ?_ (fun hc => nomatch hc)
    rintro ⟨hk, f, hf, hfk⟩
    have ef := hne hk hfk
    rw [entry_setEntry_of_ne ef] at hfk
    exact ef (hv f e (by omega) he (by rw [hfk]; exact hk) hu (by rw [hfk, hname, hn]))
  · rw [if_neg hn, hv.lookup_iff]
    refine and_congr_right fun hk => ⟨?_, ?_⟩
    · rintro ⟨f, hf, hfk⟩
      rw [entry_setEntry_of_ne (hne hk hfk)] at hfk
      exact ⟨f, by omega, hfk⟩
    · rintro ⟨f, hf, hfk⟩
      have ef : f ≠ e := fun ef => hn (by
        rw [ef] at hfk
        rw [← hname, hfk])
      exact ⟨f, by omega, by rw [entry_setEntry_of_ne ef, hfk]⟩

end

/-! ## Sequences of operations -/

/-- `memset(&de, 0, sizeof(de)); if(writei(dp, 0, &de, off, sizeof(de)) != sizeof(de)) panic("unlink: writei");` -/
def clearEntry (sb : Superblock) (j off : Nat) : M Unit := do
  if (← writei sb j (fun _ => 0) none off 16) ≠ 16 then throw .unlinkWritei

inductive DirEvent where
  | link (name : List UInt8) (inum : Nat) (ok : Bool)
  | clear (name : List UInt8)
  deriving DecidableEq, Repr

/-- A map, by the parts of names that count, after the event. -/
def DirEvent.apply (m : List UInt8 → Option Nat) : DirEvent → List UInt8 → Option Nat
  | .link name inum true => Function.update m (cut name) (some inum)
  | .link _ _ false => m
  | .clear name => Function.update m (cut name) none

/-- The directory is open, in a transaction, and as it was. -/
structure Resumed (sb : Superblock) (i j : Nat) (s t : Core) : Prop where
  inv : Inv sb t
  holds : Holds t j i
  out : 0 < t.outstanding
  same : view sb t.disk i = view sb s.disk i

/-- Operations on directory `i`, from `s` on, and others between that leave it alone. -/
inductive DirRun (sb : Superblock) (i : Nat) (s : Core) : List DirEvent → Core → Prop
  | start : DirRun sb i s [] s
  | link {evs : List DirEvent} {t u t' : Core} {j : Nat} {name : List UInt8} {inum : Nat} {r : Bool} :
      DirRun sb i s evs t → Resumed sb i j t u → 0 ∉ name → 0 < inum → inum < 2 ^ 16 →
      dirlink sb j name inum u = .ok (r, t') → DirRun sb i s (evs ++ [.link name inum r]) t'
  /-- `sys_unlink` looks the name up in `u`, and clears the entry in `u'`. -/
  | clear {evs : List DirEvent} {t u w u' t' : Core} {j k off : Nat} {name : List UInt8} :
      DirRun sb i s evs t → Resumed sb i j t u → dirlookup sb j name u = .ok (some (k, off), w) → Resumed sb i j u u' →
      clearEntry sb j off u' = .ok ((), t') → DirRun sb i s (evs ++ [.clear name]) t'

/-- What `dirlookup` gives in a directory that is the map `m`. -/
def LooksUp (sb : Superblock) (i j : Nat) (m : List UInt8 → Option Nat) (t : Core) (name : List UInt8) : Prop :=
  match m (cut name) with
  | none => dirlookup sb j name t = .ok (none, t)
  | some inum => ∃ e < (view sb t.disk i).slots, (view sb t.disk i).entry e = ⟨inum, cut name⟩ ∧
    ((∃ k t', dirlookup sb j name t = .ok (some (k, 16 * e), t') ∧ (t'.itable k).inum = inum) ∨
      (dirlookup sb j name t = .error .iget ∧ ∀ k < NINODE, 0 < refs t k))

/-- What `dirlink` does in a directory that is the map `m`. -/
structure Links (sb : Superblock) (i : Nat) (m : List UInt8 → Option Nat) (t : Core) (name : List UInt8) (inum : Nat) (r : Bool)
    (t' : Core) : Prop where
  ok : r = true ↔ m (cut name) = none ∧
    ((∃ e < (view sb t.disk i).slots, ((view sb t.disk i).entry e).inum = 0) ∨ Appendable sb t.disk (dinode sb t.disk i))
  map : ∀ n, (view sb t'.disk i).lookup n = if r = true ∧ cut n = cut name then some inum else m (cut n)
  size : (view sb t.disk i).size < (view sb t'.disk i).size →
    ∀ e < (view sb t.disk i).slots, ((view sb t.disk i).entry e).inum ≠ 0

/-- The directory is the map `m`. -/
structure IsMap (m : List UInt8 → Option Nat) (v : Node) : Prop where
  type : v.type = T_DIR
  whole : v.size % 16 = 0
  distinct : v.Distinct
  lookup : ∀ n, v.lookup n = m (cut n)

variable {m : List UInt8 → Option Nat} {u : Core} {evs : List DirEvent}

theorem Resumed.openDir (h : Resumed sb i j t u) (hm : IsMap m (view sb t.disk i)) : OpenDir sb u j i :=
  ⟨h.inv, h.holds, by rw [h.same]; exact hm.type, by rw [h.same]; exact hm.whole⟩

theorem changed_view {v : Node} (h : Changed sb i v s s') : view sb s'.disk i = v := by
  rw [h.view, Function.update_self]

theorem IsMap.link (hm : IsMap m (view sb t.disk i)) (hpos : 0 < inum) (hi : inum < 2 ^ 16) {r : Bool}
    (hl : Dirlinked sb i name inum t r t') :
    IsMap (DirEvent.apply m (.link name inum r)) (view sb t'.disk i) ∧ Links sb i m t name inum r t' := by
  have hmap : (view sb t.disk i).find name = none ↔ m (cut name) = none := by
    rw [← hm.lookup, Node.lookup, Option.map_eq_none_iff]
  cases hl with
  | there e _ he hc =>
    have hv := changed_view hc
    rw [hv]
    have hnot : m (cut name) ≠ none := fun h => by
      rw [hmap.mpr h] at he
      cases he
    refine ⟨hm, iff_of_false (by decide) fun h => hnot h.1, fun n => ?_, fun h => ?_⟩
    · rw [hv, hm.lookup, if_neg (by simp)]
    · rw [hv] at h
      exact absurd h (Nat.lt_irrefl _)
  | full _ hnone hused hroom hc =>
    have hv := changed_view hc
    rw [hv]
    refine ⟨hm, iff_of_false (by decide) ?_, fun n => ?_, fun _ => hused⟩
    · rintro ⟨-, ⟨e, he, h0⟩ | h⟩
      · exact hused e he h0
      · exact hroom h
    · rw [hv, hm.lookup, if_neg (by simp)]
  | linked e _ hnone he hfree hused hroom hc =>
    have hv := changed_view hc
    have hlook : ∀ n, (view sb t'.disk i).lookup n = if cut n = cut name then some inum else m (cut n) := fun n => by
      rw [hv, lookup_link hm.distinct hm.whole hnone he hfree hi hpos, hm.lookup]
    refine ⟨⟨?_, ?_, ?_, fun n => ?_⟩, iff_of_true rfl ⟨hmap.mp hnone, ?_⟩, fun n => ?_, fun h => ?_⟩
    · rw [hv]; exact hm.type
    · rw [hv]; exact size_setEntry hm.whole
    · rw [hv]; exact distinct_link hm.distinct hm.whole hnone he hi
    · rw [hlook, DirEvent.apply, Function.update_apply]
    · exact hroom.imp_left fun h => ⟨e, h, hfree h⟩
    · rw [hlook]
      simp
    · -- the size grows only if the entry is past the end
      have hlt : ¬ e < (view sb t.disk i).slots := fun hlt => by
        have hsz := hm.whole
        rw [hv] at h
        have : max (view sb t.disk i).size (16 * e + 16) = (view sb t.disk i).size := Nat.max_eq_left (by
          unfold Node.slots at hlt
          omega)
        exact absurd h (by show ¬ _ < max _ _; omega)
      exact fun l hl => hused l (by omega)

theorem IsMap.clear (hm : IsMap m v) (he : v.find name = some e) : IsMap (DirEvent.apply m (.clear name))
    (v.setEntry e ⟨0, []⟩) := by
  refine ⟨hm.type, size_setEntry hm.whole, distinct_clear hm.distinct hm.whole (find_some he).1, fun n => ?_⟩
  rw [lookup_clear hm.distinct hm.whole he, hm.lookup, DirEvent.apply, Function.update_apply]

theorem wp_clearEntry (hL : Layout sb) (h : OpenDir sb s j i) (ho : 0 < s.outstanding) (he : e < (view sb s.disk i).slots) :
    Lib.Wp E (clearEntry sb j (16 * e)) s fun _ s' => Changed sb i ((view sb s.disk i).setEntry e ⟨0, []⟩) s s' := by
  simp only [clearEntry, Lib.wp_bind]
  rw [← zero_byte]
  refine (wp_writeDirent hL h ho (Nat.le_of_lt he)).mono fun r t hr => ?_
  rcases hr with ⟨rfl, -, hc⟩ | ⟨-, hle, -, -⟩
  · rw [if_neg (by simp)]
    exact hc
  · omega

theorem OpenDir.dirlinked (h : OpenDir sb s j i) (hL : Layout sb) (ho : 0 < s.outstanding) {r : Bool}
    (hrun : dirlink sb j name inum s = .ok (r, s')) : Dirlinked sb i name inum s r s' := by
  have hw : Lib.Wp (fun _ => True) (dirlink sb j name inum) s _ := h.wp_dirlink hL ho fun _ _ => trivial
  exact hw.of_ok hrun

theorem OpenDir.found (h : OpenDir sb s j i) {off : Nat} (hrun : dirlookup sb j name s = .ok (some (k, off), s')) :
    ∃ e, (view sb s.disk i).find name = some e ∧ off = 16 * e := by
  have hw : Lib.Wp (fun _ => True) (dirlookup sb j name) s fun r _ =>
      ∀ k off, r = some (k, off) → ∃ e, (view sb s.disk i).find name = some e ∧ off = 16 * e :=
    h.wp_dirlookup (fun _ k off h => nomatch h) fun e he => .of_forall fun l _ k off h => ⟨e, he, by cases h; rfl⟩
  exact hw.of_ok hrun k off rfl

theorem DirRun.isMap (hL : Layout sb) (hm : IsMap m (view sb s.disk i)) (h : DirRun sb i s evs t) :
    IsMap (evs.foldl DirEvent.apply m) (view sb t.disk i) := by
  induction h with
  | start => exact hm
  | link _ hres _ hpos hi hrun ih =>
    have hl := (hres.openDir ih).dirlinked hL hres.out hrun
    rw [← hres.same] at ih
    rw [List.foldl_append]
    exact (ih.link hpos hi hl).1
  | clear _ hres hlook hres' hrun ih =>
    obtain ⟨e, he, rfl⟩ := (hres.openDir ih).found hlook
    rw [← hres.same] at ih
    have hopen' := hres'.openDir ih
    rw [← hres'.same] at ih he
    have hc := (wp_clearEntry (E := fun _ => True) hL hopen' hres'.out (find_some he).1).of_ok hrun
    rw [List.foldl_append, changed_view hc]
    exact ih.clear he

theorem IsMap.looksUp (hm : IsMap m (view sb t.disk i)) (h : OpenDir sb t j i) : LooksUp sb i j m t name := by
  have hfind := hm.lookup name
  rw [Node.lookup] at hfind
  unfold LooksUp
  split
  · rename_i hnone
    rw [hnone, Option.map_eq_none_iff] at hfind
    have hw : Lib.Wp (fun _ => False) (dirlookup sb j name) t fun r t' => r = none ∧ t = t' :=
      h.wp_dirlookup (fun _ => ⟨rfl, rfl⟩) fun e he => by
        rw [hfind] at he
        cases he
    obtain ⟨r, t', hrun, rfl, rfl⟩ := hw.returns
    exact hrun
  · rename_i inum hsome
    rw [hsome, Option.map_eq_some_iff] at hfind
    obtain ⟨e, he, hinum⟩ := hfind
    obtain ⟨hlt, -, hname⟩ := hm.distinct.find_iff.mp he
    refine ⟨e, hlt, by rw [← hinum, ← hname], ?_⟩
    have hw : Lib.Wp (fun p => p = .iget ∧ ∀ k < NINODE, 0 < refs t k) (dirlookup sb j name) t fun r t' =>
        ∃ k, r = some (k, 16 * e) ∧ (t'.itable k).inum = inum :=
      h.wp_dirlookup (fun hnone => by
        rw [hnone] at he
        cases he) fun e' he' => by
        rw [he] at he'
        cases he'
        refine (wp_iget_took fun hfull => ⟨rfl, hfull⟩).mono fun l t' ht => ⟨l, rfl, ?_⟩
        rw [ht.inum, hinum]
    rcases hw.ok_or_error with ⟨r, t', hrun, k, rfl, hk⟩ | ⟨p, hrun, rfl, hfull⟩
    · exact .inl ⟨k, t', hrun, hk⟩
    · exact .inr ⟨hrun, hfull⟩

/-- From a directory without double names: there never are any, `dirlookup` finds what was linked last and not
    cleared since, and a `dirlink` succeeds iff the name is new and there is room, and changes that one name. It may
    panic only where it finds the name and the inode table is full. -/
theorem dir_is_map (hL : Layout sb) (htype : (view sb s.disk i).type = T_DIR) (hwhole : (view sb s.disk i).size % 16 = 0)
    (hd : (view sb s.disk i).Distinct) (hrun : DirRun sb i s evs t) (hres : Resumed sb i j t u) :
    (view sb u.disk i).Distinct ∧
      (∀ name, LooksUp sb i j (evs.foldl DirEvent.apply (view sb s.disk i).lookup) u name) ∧
      ∀ name inum, 0 ∉ name → 0 < inum → inum < 2 ^ 16 →
        (∃ r t', dirlink sb j name inum u = .ok (r, t') ∧
          Links sb i (evs.foldl DirEvent.apply (view sb s.disk i).lookup) u name inum r t') ∨
        (dirlink sb j name inum u = .error .iget ∧ (view sb u.disk i).lookup name ≠ none ∧ ∀ k < NINODE, 0 < refs u k) := by
  have hm := hrun.isMap hL ⟨htype, hwhole, hd, fun n => Node.lookup_cut.symm⟩
  have hopen := hres.openDir hm
  rw [← hres.same] at hm
  refine ⟨hm.distinct, fun name => hm.looksUp hopen, fun name inum _ hpos hi => ?_⟩
  have hw : Lib.Wp (fun p => p = .iget ∧ (view sb u.disk i).lookup name ≠ none ∧ ∀ k < NINODE, 0 < refs u k)
      (dirlink sb j name inum) u (Dirlinked sb i name inum u) :=
    hopen.wp_dirlink hL hres.out fun hne hfull => ⟨rfl, fun hc => hne (Option.map_eq_none_iff.mp hc), hfull⟩
  rcases hw.ok_or_error with ⟨r, t', hrun, hl⟩ | ⟨p, hrun, rfl, hne, hfull⟩
  · exact .inl ⟨r, t', hrun, (hm.link hpos hi hl).2⟩
  · exact .inr ⟨hrun, hne, hfull⟩

theorem tinyOpen_inv : Inv tinySb tinyOpen := by
  refine ⟨⟨tinyOpen_mid.blocks, tinyOpen_mid.table, fun k hk _ => tiny_flat.sound hk, fun _ _ h => absurd rfl h⟩,
    fun i hi _ ht hn => ?_⟩
  have e : i = ROOTINO := tiny_type hi ht
  rw [e, tinyOpen_root] at hn
  cases hn

theorem tinyOpen_distinct : (view tinySb tinyOpen.disk ROOTINO).Distinct := by
  have hslots : (view tinySb tinyOpen.disk ROOTINO).slots = 2 := by
    rw [Node.slots, show tinyOpen.disk = tiny 0x3f from rfl, tiny_view_root]
    rfl
  intro e f he hf _ _ hef
  rw [hslots] at he hf
  have h1 : (view tinySb tinyOpen.disk ROOTINO).entry e = _ := tiny_entry ⟨e, he⟩
  have h2 : (view tinySb tinyOpen.disk ROOTINO).entry f = _ := tiny_entry ⟨f, hf⟩
  rw [h1, h2] at hef
  have hall : ∀ e f : Fin 2, (if e = 0 then dot else dotdot) = (if f = 0 then dot else dotdot) → e = f := by decide
  exact congrArg Fin.val (hall ⟨e, he⟩ ⟨f, hf⟩ hef)

/-- A name is linked in the root directory of the small image, and found. -/
theorem dir_is_map_tiny : ∃ t, DirRun tinySb ROOTINO tinyOpen [.link [0x66] 3 true] t ∧
    ∃ k t', dirlookup tinySb 0 [0x66] t = .ok (some (k, 32), t') ∧ (t'.itable k).inum = 3 := by
  have hstart : Resumed tinySb ROOTINO 0 tinyOpen tinyOpen := ⟨tinyOpen_inv, tinyOpen_holds, by decide, rfl⟩
  have hview : view tinySb tinyOpen.disk ROOTINO = _ := tiny_view_root
  have htype : (view tinySb tinyOpen.disk ROOTINO).type = T_DIR := by rw [hview]
  have hwhole : (view tinySb tinyOpen.disk ROOTINO).size % 16 = 0 := by rw [hview]; rfl
  have hok : Lib.Wp (fun _ => False) (dirlink tinySb 0 [0x66] 3) tinyOpen fun r t => r = true ∧
      Lib.Wp (fun _ => False) (dirlookup tinySb 0 [0x66]) t fun r _ => r.map (·.2) = some 32 := by decide +kernel
  obtain ⟨_, t, hrun, rfl, hok⟩ := hok.returns
  have hlinked := OpenDir.dirlinked ⟨tinyOpen_inv, tinyOpen_holds, htype, hwhole⟩ tiny_layout (by decide) hrun
  have hres : Resumed tinySb ROOTINO 0 t t := by
    cases hlinked with
    | linked e _ _ _ _ _ _ hc => exact ⟨hc.inv, hc.holds tinyOpen_holds, by rw [hc.logs.out]; decide, rfl⟩
  have hdir : DirRun tinySb ROOTINO tinyOpen [.link [0x66] 3 true] t :=
    .link .start hstart (by decide) (by decide) (by decide) hrun
  obtain ⟨-, hlook, -⟩ := dir_is_map tiny_layout htype hwhole tinyOpen_distinct hdir hres
  obtain ⟨e, -, -, h⟩ := hlook [0x66]
  obtain ⟨_, t', hrun', hoff⟩ := hok.returns
  obtain ⟨⟨k, _⟩, rfl, rfl⟩ := Option.map_eq_some_iff.mp hoff
  refine ⟨t, hdir, k, t', hrun', ?_⟩
  rcases h with ⟨k', u, h, hinum⟩ | ⟨h, -⟩
  · rw [hrun', Except.ok.injEq, Prod.mk.injEq, Option.some.injEq, Prod.mk.injEq] at h
    rw [h.1.1, h.2]
    exact hinum
  · rw [hrun'] at h
    cases h

/-! ## No entry of the inode table left -/

def crowdSb : Superblock := ⟨32, 64, 2, 7⟩

def crowdInode (i : Nat) : Dinode :=
  if i = ROOTINO then ⟨T_DIR, 0, 0, 1, 48, fun k => if k.val = 0 then 8 else 0⟩
  else if i = 0 then .zero
  else if i ≤ 51 then ⟨T_DEVICE, 0, 0, 1, 0, fun _ => 0⟩
  else .zero

/-- Inodes from block 2 on, the bitmap in block 7, and in block 8 the root directory, in which "f" is inode 51. -/
def crowdDisk : Disk := fun b o =>
  if b = 7 then (if o = 0 then 0xff else if o = 1 then 1 else 0)
  else if b = 8 then
    if o < 32 then tinyDots o else if o < 48 then Dirent.byte ⟨51, [0x66]⟩ (o - 32) else 0
  else (crowdInode ((b - 2) * IPB + o / 64)).byte (o % 64)

/-- In a transaction, with inode `j + 1` in each entry `j` of the inode table. -/
def crowded : Core where
  disk := crowdDisk
  itable j := if j < NINODE then ⟨j + 1, 1, j == 0, crowdInode (j + 1)⟩ else ⟨0, 0, false, .zero⟩
  outstanding := 1
  logged _ := false
  home := crowdDisk
  past := [crowdDisk]

theorem crowdInode_fits (i : Nat) : (crowdInode i).Fits := by
  unfold crowdInode
  split_ifs
  · exact ⟨by decide, by decide, by decide, by decide, by decide, fun k => by dsimp only; split <;> omega⟩
  all_goals exact ⟨by decide, by decide, by decide, by decide, by decide, fun _ => Nat.two_pow_pos 32⟩

theorem crowd_dinode (hi : i < 64) : dinode crowdSb crowdDisk i = crowdInode i := by
  have hb : IBLOCK crowdSb i = i / 16 + 2 := rfl
  have hm : i % IPB = i % 16 := rfl
  rw [dinode, hb, ← readDinode_putDinode (fun _ => 0) (i % IPB * 64) (crowdInode_fits i)]
  refine readDinode_congr fun k h1 h2 => ?_
  obtain ⟨n, rfl⟩ := Nat.exists_eq_add_of_le h1
  rw [putDinode_byte (by omega), crowdDisk, if_neg (by omega), if_neg (by omega)]
  have e : (i / 16 + 2 - 2) * IPB + (i % IPB * 64 + n) / 64 = i := by
    show (i / 16 + 2 - 2) * 16 + _ = i
    omega
  rw [e, show (i % IPB * 64 + n) % 64 = n by omega]

theorem crowdInode_alive (h : (crowdInode i).type ≠ 0) : (crowdInode i).nlink = 1 := by
  unfold crowdInode at h ⊢
  split_ifs at h ⊢ <;> first | rfl | exact absurd rfl h

theorem crowd_flat : Flat crowdSb crowdDisk := by
  have hroot : dinode crowdSb crowdDisk ROOTINO = crowdInode ROOTINO := crowd_dinode (by decide)
  refine ⟨by rw [hroot]; rfl, fun q hq => ?_, by rw [hroot]; decide, fun i hi hne => ?_⟩
  · have h : ∀ q : Fin (NDIRECT + 1), (crowdInode ROOTINO).addr q = if q.val = 0 then 8 else 0 := by decide
    rw [hroot]
    exact h ⟨q, by omega⟩
  · rw [crowd_dinode hi, crowdInode, if_neg hne]
    split_ifs <;> exact ⟨rfl, fun q _ => by unfold Dinode.addr; split <;> rfl⟩

theorem crowded_ref {k : Nat} (h : 0 < (crowded.itable k).ref) : k < NINODE ∧ (crowded.itable k).inum = k + 1 := by
  by_cases hk : k < NINODE
  · exact ⟨hk, by simp [crowded, hk]⟩
  · simp [crowded, hk] at h

theorem crowded_inv : Inv crowdSb crowded := by
  have hbit : ∀ b : Fin 32, bit crowdSb crowdDisk b = decide (b.val ≤ dataStart crowdSb) := by decide
  have hlt : ∀ {k}, 0 < (crowded.itable k).ref → (crowded.itable k).inum < 64 := fun h => by
    have : NINODE = 50 := rfl
    have := crowded_ref h
    omega
  refine ⟨⟨crowd_flat.blocks (by decide) (by decide) fun b hb => hbit ⟨b, hb⟩, ⟨fun k hk => ?_, fun j k hj hk e => ?_,
    fun k hk => hlt hk, fun _ _ => rfl, fun k hk hv => ?_⟩, fun k hk _ => crowd_flat.sound hk, fun _ _ h => absurd rfl h⟩,
    fun i hi _ ht hn => ?_⟩
  · simp [crowded, Nat.not_lt.mpr hk]
  · rw [(crowded_ref hj).2, (crowded_ref hk).2] at e
    exact Nat.succ.inj e
  · have hk0 : k = 0 := by simpa [crowded, (crowded_ref hk).1] using hv
    subst hk0
    exact ⟨(crowd_dinode (i := 1) (by decide)).symm, by decide⟩
  · have hd : dinode crowdSb crowded.disk i = crowdInode i := crowd_dinode hi
    rw [hd] at ht hn
    rw [crowdInode_alive ht] at hn
    cases hn

theorem crowd_view_root : (view crowdSb crowdDisk ROOTINO).type = T_DIR ∧ (view crowdSb crowdDisk ROOTINO).size = 48 := by
  have hroot : dinode crowdSb crowdDisk ROOTINO = crowdInode ROOTINO := crowd_dinode (by decide)
  rw [view_eq (by decide), node_of_type crowd_flat.root_ne, hroot]
  exact ⟨rfl, rfl⟩

def crowdEntry (e : Fin 3) : Dirent :=
  if e.val = 0 then ⟨ROOTINO, dot⟩ else if e.val = 1 then ⟨ROOTINO, dotdot⟩ else ⟨51, [0x66]⟩

theorem crowd_entry (e : Fin 3) : (view crowdSb crowdDisk ROOTINO).entry e = crowdEntry e := by
  have hval : ∀ e : Fin 3, Dirent.ofBytes ((List.range 16).map fun k => crowdDisk 8 (16 * e + k)) = crowdEntry e := by decide
  rw [crowd_flat.entry (by decide) (by rw [crowd_dinode (by decide)]; have := e.isLt; show _ ≤ 48; omega)]
  exact hval e

theorem crowd_slots : (view crowdSb crowdDisk ROOTINO).slots = 3 := by rw [Node.slots, crowd_view_root.2]

theorem crowd_distinct : (view crowdSb crowdDisk ROOTINO).Distinct := by
  have hall : ∀ e f, (crowdEntry e).name = (crowdEntry f).name → e = f := by decide
  intro e f he hf _ _ hef
  rw [crowd_slots] at he hf
  rw [crowd_entry ⟨e, he⟩, crowd_entry ⟨f, hf⟩] at hef
  exact congrArg Fin.val (hall ⟨e, he⟩ ⟨f, hf⟩ hef)

/-- "f" is in the root directory, and neither found nor refused: `iget` panics. -/
theorem dirlookup_crowded : OpenDir crowdSb crowded 0 ROOTINO ∧ (view crowdSb crowded.disk ROOTINO).Distinct ∧
    (view crowdSb crowded.disk ROOTINO).lookup [0x66] = some 51 ∧ dirlookup crowdSb 0 [0x66] crowded = .error .iget ∧
    dirlink crowdSb 0 [0x66] 3 crowded = .error .iget := by
  refine ⟨⟨crowded_inv, ⟨by decide, rfl, rfl⟩, crowd_view_root.1, ?_⟩, crowd_distinct, ?_,
    Lib.Wp.panics (by decide +kernel), Lib.Wp.panics (by decide +kernel)⟩
  · rw [show (view crowdSb crowded.disk ROOTINO).size = 48 from crowd_view_root.2]
  · exact crowd_distinct.lookup_iff.mpr ⟨by decide, 2, by rw [crowd_slots]; decide, crowd_entry 2⟩

end Xv6.Fs
