/-
  Xv6.Fs.Paths — path resolution is component-wise lookup (kernel/fs.c: skipelem, namex, namei,
  nameiparent).
-/

import Xv6.Fs.DirMap

namespace Xv6.Fs

/-! ## Components -/

def components (path : List UInt8) : List (List UInt8) := ((path.splitOn slash).filter (· ≠ [])).map (·.take DIRSIZ)

theorem components_append (p q : List UInt8) : components (p ++ slash :: q) = components p ++ components q := by
  unfold components List.splitOn
  rw [List.splitOnP_append_cons (p := fun x => x == slash) p q (beq_self_eq_true slash), List.filter_append, List.map_append]

theorem components_nil : components [] = [] := rfl

theorem components_cons_slash (p : List UInt8) : components (slash :: p) = components p := components_append [] p

theorem components_of_free {p : List UInt8} (h : ∀ c ∈ p, c ≠ slash) (hne : p ≠ []) : components p = [p.take DIRSIZ] := by
  unfold components List.splitOn
  rw [List.splitOnP_eq_singleton fun x hx => beq_eq_false_iff_ne.mpr (h x hx), List.filter_cons_of_pos (by simpa using hne)]
  rfl

theorem components_dropWhile (p : List UInt8) : components (p.dropWhile (· = slash)) = components p := by
  induction p with
  | nil => rfl
  | cons c p ih =>
    by_cases hc : c = slash
    · rw [List.dropWhile_cons_of_pos (by simpa using hc), ih, hc, components_cons_slash]
    · rw [List.dropWhile_cons_of_neg (by simpa using hc)]

theorem components_skipelem (path : List UInt8) :
    match skipelem path with
    | none => components path = []
    | some (name, rest) => components path = name :: components rest := by
  unfold skipelem
  dsimp only
  rw [← components_dropWhile path]
  set p := path.dropWhile (· = slash) with hp
  by_cases hne : p = []
  · rw [if_pos hne]
    rw [hne]
    rfl
  · rw [if_neg hne]
    have hfree : ∀ c ∈ p.takeWhile (· ≠ slash), c ≠ slash := fun c hc => by
      simpa using List.mem_takeWhile_imp hc
    have hword : p.takeWhile (· ≠ slash) ≠ [] := by
      obtain ⟨c, q, hcq⟩ := List.exists_cons_of_ne_nil hne
      have hc : c ≠ slash := by simpa using head_dropWhile hcq
      rw [hcq, List.takeWhile_cons_of_pos (by simpa using hc)]
      exact List.cons_ne_nil _ _
    dsimp only
    rw [components_dropWhile (p.dropWhile (· ≠ slash))]
    conv_lhs => rw [← List.takeWhile_append_dropWhile (p := fun c => decide (c ≠ slash)) (l := p)]
    -- the word ends at the end of the path or at a slash
    rcases hrest : p.dropWhile (· ≠ slash) with _ | ⟨c, r⟩
    · rw [List.append_nil, components_nil, components_of_free hfree hword]
    · have hc : c = slash := by simpa using head_dropWhile hrest
      rw [hc, components_append, components_cons_slash, components_of_free hfree hword]
      rfl

/-! ## The walk -/

/-- One name is looked up in inode `i`. -/
def descend (V : Nat → Node) (i : Nat) (name : List UInt8) : Option Nat :=
  if (V i).type = T_DIR then (V i).lookup name else none

/-- The inode that the names lead to from inode `i`; none if one is looked up in an inode that is no directory, or is
    not there. -/
def resolve (V : Nat → Node) (i : Nat) (names : List (List UInt8)) : Option Nat := names.foldlM (descend V) i

/-- The directory that all but the last name lead to, and that name. -/
def resolveParent (V : Nat → Node) (i : Nat) (names : List (List UInt8)) : Option (Nat × List UInt8) :=
  match names.getLast? with
  | none => none
  | some name => (resolve V i names.dropLast).bind fun k => if (V k).type = T_DIR then some (k, name) else none

def origin (cwd : Nat) (path : List UInt8) : Nat := if path.head? = some slash then ROOTINO else cwd

section

variable {V : Nat → Node} {fuel i : Nat} {path name : List UInt8}

theorem resolve_cons (n : List UInt8) (ns : List (List UInt8)) :
    resolve V i (n :: ns) = (descend V i n).bind fun k => resolve V k ns := List.foldlM_cons ..

theorem resolveParent_cons (n : List UInt8) {ns : List (List UInt8)} (hne : ns ≠ []) :
    resolveParent V i (n :: ns) = (descend V i n).bind fun k => resolveParent V k ns := by
  obtain ⟨m, ms, rfl⟩ := List.exists_cons_of_ne_nil hne
  unfold resolveParent
  rw [List.getLast?_cons_cons, List.dropLast_cons_of_ne_nil (List.cons_ne_nil m ms), resolve_cons]
  cases hlast : (m :: ms).getLast? with
  | none => simp at hlast
  | some l =>
    dsimp only
    rw [Option.bind_assoc]

theorem resolveParent_single (n : List UInt8) : resolveParent V i [n] = if (V i).type = T_DIR then some (i, n) else none := rfl

theorem dropWhile_slash (p : List UInt8) :
    (p.dropWhile (· = slash)).dropWhile (· = slash) = p.dropWhile (· = slash) := by
  induction p with
  | nil => rfl
  | cons c p ih =>
    by_cases hc : c = slash
    · rw [List.dropWhile_cons_of_pos (by simpa using hc), ih]
    · rw [List.dropWhile_cons_of_neg (by simpa using hc), List.dropWhile_cons_of_neg (by simpa using hc)]

theorem skipelem_rest {rest : List UInt8} (h : skipelem path = some (name, rest)) : rest = [] ↔ components rest = [] := by
  constructor
  · rintro rfl
    rfl
  · intro hc
    by_contra hne
    unfold skipelem at h
    dsimp only at h
    split at h
    · cases h
    · cases h
      -- it does not start with a slash
      have hs := components_skipelem (((path.dropWhile (· = slash)).dropWhile (· ≠ slash)).dropWhile (· = slash))
      unfold skipelem at hs
      dsimp only at hs
      rw [dropWhile_slash, if_neg hne] at hs
      rw [hs] at hc
      cases hc

theorem walkFrom_file (name : List UInt8) (hfuel : path.length < fuel) :
    (walkFrom V false fuel i path name).map (·.1) = resolve V i (components path) := by
  induction fuel generalizing i path name with
  | zero => omega
  | succ fuel ih =>
    have hc := components_skipelem path
    unfold walkFrom
    cases hs : skipelem path with
    | none =>
      rw [hs] at hc
      rw [hc]
      rfl
    | some np =>
      obtain ⟨n, rest⟩ := np
      rw [hs] at hc
      dsimp only at hc ⊢
      rw [hc, resolve_cons, descend]
      by_cases ht : (V i).type = T_DIR
      · rw [if_neg (not_not.mpr ht), if_neg (by simp), if_pos ht, Node.lookup]
        cases (V i).find n with
        | none => rfl
        | some e => exact ih _ (by have := (skipelem_some hs).1; omega)
      · rw [if_pos ht, if_neg ht]
        rfl

theorem walkFrom_dir (name : List UInt8) (hfuel : path.length < fuel) :
    walkFrom V true fuel i path name = resolveParent V i (components path) := by
  induction fuel generalizing i path name with
  | zero => omega
  | succ fuel ih =>
    have hc := components_skipelem path
    unfold walkFrom
    cases hs : skipelem path with
    | none =>
      rw [hs] at hc
      rw [hc]
      rfl
    | some np =>
      obtain ⟨n, rest⟩ := np
      have hrest := skipelem_rest hs
      rw [hs] at hc
      dsimp only at hc ⊢
      rw [hc]
      by_cases hlast : rest = []
      · rw [hrest.mp hlast, resolveParent_single]
        by_cases ht : (V i).type = T_DIR
        · rw [if_neg (not_not.mpr ht), if_pos ⟨rfl, hlast⟩, if_pos ht]
        · rw [if_pos ht, if_neg ht]
      · rw [resolveParent_cons n fun h => hlast (hrest.mpr h), descend]
        by_cases ht : (V i).type = T_DIR
        · rw [if_neg (not_not.mpr ht), if_neg fun h => hlast h.2, if_pos ht, Node.lookup]
          cases (V i).find n with
          | none => rfl
          | some e => exact ih _ (by have := (skipelem_some hs).1; omega)
        · rw [if_pos ht, if_neg ht]
          rfl

end

/-! ## References -/

/-- The references to inode `i`. -/
def refcount (s : Core) (i : Nat) : Nat := ∑ k ∈ Finset.range NINODE, if (s.itable k).inum = i then refs s k else 0

variable {sb : Superblock} {s s' : Core} {i l : Nat}

theorem refcount_same (ht : Tabled sb (refs s) s s') (hr : refs s' = refs s) (k : Nat) : refcount s' k = refcount s k := by
  refine Finset.sum_congr rfl fun j _ => ?_
  rw [hr]
  rcases Nat.eq_zero_or_pos (refs s j) with h0 | hpos
  · rw [h0, ite_self, ite_self]
  · rw [ht.ext.inum j hpos]

theorem refcount_more (ht : Tabled sb (refs s) s s') (hr : refs s' = refs s + one l) (hi : (s'.itable l).inum = i) (k : Nat) :
    refcount s' k = refcount s k + if i = k then 1 else 0 := by
  have hl : l ∈ Finset.range NINODE := by
    rw [Finset.mem_range]
    exact ht.table.lt_NINODE (pos_of_refs hr)
  have hterm : ∀ j, (if (s'.itable j).inum = k then refs s' j else 0) =
      (if (s.itable j).inum = k then refs s j else 0) + if j = l then (if i = k then 1 else 0) else 0 := fun j => by
    rw [hr, Pi.add_apply]
    by_cases e : j = l
    · subst e
      rw [one_self, if_pos rfl, hi]
      rcases Nat.eq_zero_or_pos (refs s j) with h0 | hpos
      · rw [h0, ite_self, Nat.zero_add, Nat.zero_add]
      · rw [← ht.ext.inum j hpos, hi]
        split <;> omega
    · rw [one_of_ne e, if_neg e, Nat.add_zero, Nat.add_zero]
      rcases Nat.eq_zero_or_pos (refs s j) with h0 | hpos
      · rw [h0, ite_self, ite_self]
      · rw [ht.ext.inum j hpos]
  unfold refcount
  rw [Finset.sum_congr rfl fun j _ => hterm j, Finset.sum_add_distrib, Finset.sum_ite_eq', if_pos hl]

/-- All entries of the inode table but one at most are in use: `iget` may panic. -/
def Crowded (s : Core) : Prop := ∃ j, ∀ k < NINODE, 0 < (refs s + one j) k

/-- The inode that is returned has one reference more, and no inode another. -/
structure Refers (s : Core) (r : Option Nat) (s' : Core) : Prop where
  disk : s'.disk = s.disk
  count : ∀ k, refcount s' k = refcount s k + if r = some k then 1 else 0

theorem Refers.nothing (ht : Tabled sb (refs s) s s') (hr : refs s' = refs s) : Refers s none s' :=
  ⟨ht.still.disk, fun k => by rw [refcount_same ht hr, if_neg (fun h => nomatch h), Nat.add_zero]⟩

theorem Refers.entry (ht : Tabled sb (refs s) s s') (hr : refs s' = refs s + one l) (hi : (s'.itable l).inum = i) :
    Refers s (some i) s' :=
  ⟨ht.still.disk, fun k => by simp only [refcount_more ht hr hi, Option.some.injEq]⟩

section

variable {cwd : Nat} {path : List UInt8} (hL : Layout sb) (hr : Ready sb (refs s) s) (hc : 0 < refs s cwd)
  (hd : Dirs sb (view sb s.disk)) (hcl : Closed (view sb s.disk))
include hL hr hc hd hcl

theorem namex_run (parent : Bool) :
    Lib.Wp (fun p => p = .iget ∧ Crowded s) (namex sb cwd path parent) s fun r s' =>
      r.map (fun p => ((s'.itable p.1).inum, p.2)) = walk (view sb s.disk) (s.itable cwd).inum path parent ∧
        Refers s ((walk (view sb s.disk) (s.itable cwd).inum path parent).map (·.1)) s' := by
  refine (wp_namex hL (fun hj => ⟨rfl, hj⟩) hr hc hd fun _ => hcl).mono fun r t ⟨ht, h⟩ => ?_
  rcases h with ⟨hw, rfl, hrefs⟩ | ⟨i, nm, l, hw, rfl, hrefs, hi, -⟩ <;> rw [hw]
  · exact ⟨rfl, .nothing ht hrefs⟩
  · exact ⟨by rw [Option.map_some, hi], .entry ht hrefs hi⟩

theorem namei_run :
    Lib.Wp (fun p => p = .iget ∧ Crowded s) (namei sb cwd path) s fun r s' =>
      r.map (fun l => (s'.itable l).inum) = (walk (view sb s.disk) (s.itable cwd).inum path false).map (·.1) ∧
        Refers s ((walk (view sb s.disk) (s.itable cwd).inum path false).map (·.1)) s' := by
  simp only [namei, Lib.wp_bind, Lib.wp_pure]
  refine (namex_run hL hr hc hd hcl false).mono fun r t ⟨hw, h⟩ => ⟨?_, h⟩
  rw [← hw, Option.map_map, Option.map_map]
  rfl

end

/-- `namei` returns the inode that the components lead to from the root or the current directory, or none;
    `nameiparent` the directory before the last component, and that; references are as they were but for the one
    returned; and it does not matter how many slashes there are. -/
theorem namei_resolves {cwd : Nat} (hL : Layout sb) (hr : Ready sb (refs s) s) (hc : 0 < refs s cwd)
    (hd : Dirs sb (view sb s.disk)) (hcl : Closed (view sb s.disk)) (path : List UInt8) :
    ((∃ r s', namei sb cwd path s = .ok (r, s') ∧
        r.map (fun l => (s'.itable l).inum) = resolve (view sb s.disk) (origin (s.itable cwd).inum path) (components path) ∧
        Refers s (resolve (view sb s.disk) (origin (s.itable cwd).inum path) (components path)) s') ∨
      (namei sb cwd path s = .error .iget ∧ Crowded s)) ∧
    ((∃ r s', nameiparent sb cwd path s = .ok (r, s') ∧
        r.map (fun p => ((s'.itable p.1).inum, p.2)) =
          resolveParent (view sb s.disk) (origin (s.itable cwd).inum path) (components path) ∧
        Refers s ((resolveParent (view sb s.disk) (origin (s.itable cwd).inum path) (components path)).map (·.1)) s') ∨
      (nameiparent sb cwd path s = .error .iget ∧ Crowded s)) ∧
    components (slash :: path) = components path ∧ components (path ++ [slash]) = components path ∧
    ∀ q, components (path ++ slash :: slash :: q) = components (path ++ slash :: q) := by
  refine ⟨?_, ?_, components_cons_slash path, ?_, fun q => ?_⟩
  · rw [← walkFrom_file [] (Nat.lt_succ_self path.length)]
    rcases (namei_run hL hr hc hd hcl).ok_or_error with h | ⟨p, hp, rfl, hfull⟩
    · exact .inl h
    · exact .inr ⟨hp, hfull⟩
  · rw [← walkFrom_dir [] (Nat.lt_succ_self path.length)]
    rcases (namex_run hL hr hc hd hcl true).ok_or_error with h | ⟨p, hp, rfl, hfull⟩
    · exact .inl h
    · exact .inr ⟨hp, hfull⟩
  · rw [components_append, components_nil, List.append_nil]
  · rw [components_append, components_append, components_cons_slash]

theorem tinyOpen_closed : Closed (view tinySb tinyOpen.disk) := by
  have hroot : (view tinySb tinyOpen.disk ROOTINO).type ≠ 0 := by
    rw [show tinyOpen.disk = tiny 0x3f from rfl, tiny_view_root]
    decide
  refine ⟨hroot, fun i hi e he hne => ?_⟩
  have e0 : i = ROOTINO := tiny_view_type (by rw [show tiny _ = tinyOpen.disk from rfl, hi]; decide)
  subst e0
  have hslots : (view tinySb tinyOpen.disk ROOTINO).slots = 2 := by
    rw [Node.slots, show tinyOpen.disk = tiny 0x3f from rfl, tiny_view_root]
    rfl
  rw [hslots] at he
  rw [show (view tinySb tinyOpen.disk ROOTINO).entry e = _ from tiny_entry ⟨e, he⟩]
  exact hroot

theorem tinyOpen_ready : Ready tinySb (refs tinyOpen) tinyOpen := by
  refine ⟨tinyOpen_inv, fun _ => Nat.le_refl _, fun k hk => ?_, fun i _ ht hn => ?_⟩
  · rw [tinyOpen_ref hk]
    exact tinyOpen_closed.root
  · have e : i = ROOTINO := tiny_view_type ht
    rw [e, show tinyOpen.disk = tiny 0x3f from rfl, tiny_view_root] at hn
    cases hn

/-- "//.//.." leads to the root. -/
theorem namei_resolves_tiny : ∃ r s', namei tinySb 0 [0x2f, 0x2f, 0x2e, 0x2f, 0x2f, 0x2e, 0x2e] tinyOpen = .ok (r, s') ∧
    refcount s' ROOTINO = refcount tinyOpen ROOTINO + 1 := by
  have hres : resolve (view tinySb tinyOpen.disk) (origin (tinyOpen.itable 0).inum [0x2f, 0x2f, 0x2e, 0x2f, 0x2f, 0x2e, 0x2e])
      (components [0x2f, 0x2f, 0x2e, 0x2f, 0x2f, 0x2e, 0x2e]) = some ROOTINO := by decide +kernel
  rcases (namei_resolves tiny_layout tinyOpen_ready (by decide : 0 < refs tinyOpen 0) tiny_image.dirs tinyOpen_closed
    [0x2f, 0x2f, 0x2e, 0x2f, 0x2f, 0x2e, 0x2e]).1 with ⟨r, s', hrun, -, hrefs⟩ | ⟨-, j, hfull⟩
  · refine ⟨r, s', hrun, ?_⟩
    rw [hrefs.count, hres, if_pos rfl]
  · -- two entries of the table are not in use
    have h1 := hfull 1 (by decide)
    have h2 := hfull 2 (by decide)
    have e1 : refs tinyOpen 1 = 0 := rfl
    have e2 : refs tinyOpen 2 = 0 := rfl
    rw [Pi.add_apply, e1] at h1
    rw [Pi.add_apply, e2] at h2
    by_cases e : 1 = j
    · rw [one_of_ne (by omega)] at h2
      omega
    · rw [one_of_ne e] at h1
      omega

theorem crowd_view_type (ht : (view crowdSb crowdDisk i).type = T_DIR) : i = ROOTINO := by
  have hlt : i < crowdSb.ninodes := lt_of_type (by rw [ht]; decide)
  rw [view_type hlt, crowd_dinode hlt, crowdInode] at ht
  by_contra hne
  rw [if_neg hne] at ht
  split_ifs at ht <;> cases ht

theorem crowd_alive (hi : i < 52) (h0 : i ≠ 0) : (view crowdSb crowdDisk i).type ≠ 0 := by
  have htype : ∀ i : Fin 52, i ≠ 0 → (crowdInode i).type ≠ 0 := by decide
  have hlt : i < crowdSb.ninodes := show i < 64 by omega
  rw [view_type hlt, crowd_dinode hlt]
  exact htype ⟨i, hi⟩ fun e => h0 (congrArg Fin.val e)

theorem crowd_entry_lt {e : Nat} (he : e < (view crowdSb crowdDisk ROOTINO).slots) :
    ((view crowdSb crowdDisk ROOTINO).entry e).inum < 52 := by
  have hlt : ∀ e, (crowdEntry e).inum < 52 := by decide
  rw [crowd_slots] at he
  rw [crowd_entry ⟨e, he⟩]
  exact hlt _

/-- "/f" is there, and `namei` panics. -/
theorem namei_crowded : Ready crowdSb (refs crowded) crowded ∧ 0 < refs crowded 0 ∧
    Dirs crowdSb (view crowdSb crowded.disk) ∧ Closed (view crowdSb crowded.disk) ∧
    resolve (view crowdSb crowded.disk) (origin (crowded.itable 0).inum [0x2f, 0x66]) (components [0x2f, 0x66]) = some 51 ∧
    namei crowdSb 0 [0x2f, 0x66] crowded = .error .iget := by
  refine ⟨.of_inv crowded_inv fun k hk => ?_, by decide, ⟨fun i _ hi => ?_, fun i _ hi e he => ⟨?_, fun _ => rfl⟩⟩,
    ⟨crowd_alive (by decide) (by decide), fun i hi e he hne => ?_⟩, by decide +kernel, Lib.Wp.panics (by decide +kernel)⟩
  · obtain ⟨hlt, e⟩ := crowded_ref hk
    have : NINODE = 50 := rfl
    exact crowd_alive (by omega) (by omega)
  · obtain rfl := crowd_view_type hi
    rw [show (view crowdSb crowded.disk ROOTINO).size = 48 from crowd_view_root.2]
  · obtain rfl := crowd_view_type hi
    exact Nat.lt_trans (crowd_entry_lt he) (by decide)
  · obtain rfl := crowd_view_type hi
    exact crowd_alive (crowd_entry_lt he) hne

end Xv6.Fs
