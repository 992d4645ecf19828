/-
# New directories

`sys_mkdir` of any string. `nameiView` and `mkdirView` are `namei` and `sys_mkdir` on what the file
system shows alone: no dentries, no counts, and memory for everything. The code does to the view what
`mkdirView` says (`sysMkdir_wp`), or nothing is seen of it, for want of memory.

Key definitions: `nameiView`, `mkdirView`, `mkdirAllView`.
Key theorems: `sysMkdir_wp`, `mkdirAll_view`, `sysMkdir_kind`.
-/
import Coffer.Vfs.Open

namespace Coffer
namespace Fs

open Lib Lib.Cmd

variable {s t : Fs} {X : ℕ → ℕ} {U : Set ℕ} {cs : List Str}

/-! ### On the view -/

/-- `namei`: the names that the path leads to, if there is something. A path of slashes only makes it
follow a null pointer. -/
def nameiView (v : View) (path : Str) : Option (Option (List Str)) :=
  match findRoot (strlcpy path) with
  | none => some none
  | some p =>
    if components [] p = [] ∧ p ≠ [] then none
    else if v.kind (namesOf p) = none ∨ trailing (components [] p) = true ∧ v.kind (namesOf p) ≠ some .dir then
      some none
    else some (some (namesOf p))

/-- `lookup` and `ramfs_mkdir`: a new directory where the path leads to nothing. -/
def makeView (v : View) (path : Str) : Option View :=
  if path = [] then some v
  else
    match lastSlash (strlcpy path), lastSlash path with
    | some (dir, _), some (_, name) =>
      match nameiView v (dirPath dir) with
      | none => none
      | some none => some v
      | some (some cs) =>
        some (if v.kind cs = some .dir ∧ name.length ≤ nameMax then addView v (cs ++ [name]) .dir else v)
    | _, _ => none

/-- `sys_mkdir`. -/
def mkdirView (v : View) (path : Str) : Option View :=
  match nameiView v path with
  | none => none
  | some (some _) => some v
  | some none => makeView v path

/-- The directories are made one by one. -/
def mkdirAllView (v : View) (paths : List Str) : Option View := paths.foldlM mkdirView v

/-- `mkdir_dir_for_fetch`. -/
def mkdirFetchView (v : View) (pathname stack : Str) : Option View :=
  if mkdirStrays pathname stack then none else mkdirAllView v (mkdirPaths pathname stack)

/-- At most there are more directories. -/
def MoreDirs (v w : View) : Prop := ∀ es, w es = v es ∨ v es = none ∧ w es = some (.dir, [])

theorem MoreDirs.refl (v : View) : MoreDirs v v := fun _ => Or.inl rfl

theorem MoreDirs.trans {v w x : View} (h : MoreDirs v w) (h' : MoreDirs w x) : MoreDirs v x := fun es => by
  rcases h es with he | ⟨hn, he⟩ <;> rcases h' es with he' | ⟨hn', he'⟩
  · exact Or.inl (he'.trans he)
  · exact Or.inr ⟨he ▸ hn', he'⟩
  · exact Or.inr ⟨hn, he'.trans he⟩
  · rw [he] at hn'
    cases hn'

theorem MoreDirs.some {v w : View} (h : MoreDirs v w) {x : VType × List UInt8} (hx : v cs = some x) : w cs = some x := by
  rcases h cs with he | ⟨hn, -⟩
  · exact he.trans hx
  · rw [hx] at hn
    cases hn

theorem moreDirs_add (v : View) (es : List Str) : MoreDirs v (addView v es .dir) := fun ds => by
  unfold addView
  split_ifs with hnone
  · by_cases hds : ds = es
    · subst hds
      exact Or.inr ⟨hnone, Function.update_self ..⟩
    · exact Or.inl (Function.update_of_ne hds ..)
  · exact Or.inl rfl

theorem moreDirs_make {v w : View} {path : Str} (h : makeView v path = some w) : MoreDirs v w := by
  unfold makeView at h
  split at h
  · exact Option.some.inj h ▸ MoreDirs.refl v
  split at h
  · split at h
    · cases h
    · exact Option.some.inj h ▸ MoreDirs.refl v
    · rw [← Option.some.inj h]
      split_ifs
      · exact moreDirs_add v _
      · exact MoreDirs.refl v
  · cases h

theorem moreDirs_mkdirAll {v w : View} {paths : List Str} (h : mkdirAllView v paths = some w) : MoreDirs v w := by
  induction paths generalizing v with
  | nil => exact Option.some.inj h ▸ MoreDirs.refl v
  | cons path paths ih =>
    rw [mkdirAllView, List.foldlM_cons] at h
    obtain ⟨u, hu, hw⟩ := Option.bind_eq_some_iff.mp h
    refine MoreDirs.trans ?_ (ih hw)
    unfold mkdirView at hu
    split at hu
    · cases hu
    · exact Option.some.inj hu ▸ MoreDirs.refl v
    · exact moreDirs_make hu

/-- **The directories for a fetch** change nothing that is there. -/
theorem moreDirs_fetch {v w : View} {pathname stack : Str} (h : mkdirFetchView v pathname stack = some w) :
    MoreDirs v w := by
  unfold mkdirFetchView at h
  split at h
  · cases h
  · exact moreDirs_mkdirAll h

/-! ### The code -/

/-- `namei` finds what `nameiView` does. -/
theorem namei_view (h : Cache s X U) (path : Str) :
    wp (namei path) (fun r t => Onward s t ∧ match r with
      | .ok d => Cache t (give X d) U ∧ ∃ cs, nameiView s.view path = some (some cs)
      | .error _ => Cache t X U ∧ nameiView s.view path ≠ some (some []) ∧
          (Plenty s → nameiView s.view path = some none))
      (fun _ => Plenty s → nameiView s.view path = none) s := by
  refine wp_mono_fault (namei_wp h path) (fun r t ht => ?_) fun e he hpl => ?_
  · unfold nameiView
    rcases hp : findRoot (strlcpy path) with _ | p
    · rw [hp] at ht
      obtain ⟨rfl, rfl⟩ := ht
      exact ⟨Onward.refl _, h, nofun, fun _ => rfl⟩
    rw [hp] at ht
    obtain ⟨hroot, ho, ht⟩ := ht
    refine ⟨ho, ?_⟩
    dsimp only
    rw [if_neg fun h0 => h0.2 (hroot h0.1), ← kind_view]
    cases r with
    | ok d =>
      obtain ⟨hc, hpl, hs⟩ := ht
      obtain ⟨x, y, z, ha⟩ := hc.names.at hpl
      refine ⟨hc, namesOf p, if_neg ?_⟩
      rintro (hn | ⟨htr, hn⟩)
      · rw [← ho.kind, ha.kind] at hn
        cases hn
      · exact hn (hs htr)
    | error e =>
      refine ⟨ht.1, fun hfound => ?_, fun hpl => if_pos ?_⟩
      · split_ifs at hfound with hno
        · cases Option.some.inj hfound
        have hnil : namesOf p = [] := Option.some.inj (Option.some.inj hfound)
        rw [hnil] at hno ht
        rcases ht.2 with ⟨hn, -⟩ | ⟨-, hs | hn⟩
        · exact hno (Or.inl (h.names.tree.kind_eq_none.mpr hn))
        · exact hno (Or.inr hs)
        · exact hn.1 rfl
      · rcases ht.2 with ⟨hno, -⟩ | ⟨-, hs | hno⟩
        · exact Or.inl (h.names.tree.kind_eq_none.mpr hno)
        · exact Or.inr hs
        · exact absurd hpl hno.2
  · rcases he with he | ⟨-, p, hp, hcomps, hne⟩
    · exact absurd hpl he.2
    · rw [nameiView, hp]
      exact if_pos ⟨hcomps, hne⟩

theorem makeDir_wp (h : Cache s X U) (path : Str) :
    wp (lookup path >>= fun r => match r with
        | .error e => pure (.error e)
        | .ok (ddp, name) => vnodeOf ddp >>= fun v => match vnAccessWrite v with
          | .error e => drele ddp >>= fun _ => pure (.error e)
          | .ok _ => ramfsCreate v.vData name .dir >>= fun r => drele ddp >>= fun _ => pure r)
      (fun (_ : Except Errno Unit) t => Cache t X U ∧ Grows s t ∧
        (t.view = s.view ∨ makeView s.view path = some t.view) ∧ (Plenty s → makeView s.view path = some t.view))
      (fun _ => Plenty s → makeView s.view path = none) s := by
  rw [wp_bind]
  refine wp_mono_fault (lookup_wp h path) (fun r t ht => ?_) fun e he hpl => ?_
  · obtain ⟨ho, ht⟩ := ht
    rcases r with e | ⟨ddp, name⟩
    · refine ⟨ht.1, ho.grows, Or.inl ho.view, fun hpl => ?_⟩
      rw [ho.view, makeView]
      rcases ht.2 with h0 | ⟨dir, base, dir', name, hl, hl', hk⟩
      · exact if_pos h0
      by_cases h0 : path = []
      · exact if_pos h0
      rw [if_neg h0, hl, hl']
      dsimp only
      rcases hp : findRoot (strlcpy (dirPath dir)) with _ | p
      · rw [nameiView, hp]
      replace hk := hk p hp hpl
      rw [kind_view] at hk
      have hcomps : components [] p ≠ [] := by
        intro hcomps
        rw [namesOf, hcomps, ← kind_view] at hk
        exact hk h.names.tree.kind_nil
      rw [nameiView, hp]
      dsimp only
      rw [if_neg fun h0 => hcomps h0.1]
      split_ifs
      · rfl
      · exact congrArg some (if_neg fun h0 => hk h0.1)
    · obtain ⟨dir, base, dir', p, x, y, hl, hl', hp, hroot, hc, hplaced, hx, hy, hyd⟩ := ht
      obtain ⟨x', y', z, ha⟩ := hc.names.at hplaced
      obtain rfl : x = x' := Option.some.inj (hx.symm.trans ha.dentry)
      obtain rfl : y = y' := Option.some.inj (hy.symm.trans ha.vnode)
      have hk : s.view.kind (namesOf p) = some .dir := by rw [← kind_view, ← ho.kind, ha.kind, hyd]
      have hmake : makeView s.view path =
          some (if name.length ≤ nameMax then addView s.view (namesOf p ++ [name]) .dir else s.view) := by
        have hne : path ≠ [] := by
          rintro rfl
          cases hl'
        have hfound : nameiView s.view (dirPath dir) = some (some (namesOf p)) := by
          rw [nameiView, hp]
          dsimp only
          rw [if_neg fun h0 => h0.2 (hroot h0.1), hk]
          simp
        rw [makeView, if_neg hne, hl, hl']
        simp only [hfound, hk, true_and]
      refine makeNode_wp hc ha hyd (by decide) fun r u hu => ?_
      obtain ⟨hcu, hg, hu⟩ := hu
      refine ⟨hcu, ho.grows.trans hg, ?_⟩
      rw [hmake]
      cases r with
      | error e =>
        obtain ⟨-, hv, -, hwhy⟩ := hu
        refine ⟨Or.inl (hv.trans ho.view), fun hpl => ?_⟩
        rw [if_neg (not_le.mpr (hwhy.resolve_right fun hno => hno (ho.plenty hpl))), hv, ho.view]
      | ok _ =>
        obtain ⟨hlen, hv, -⟩ := hu
        rw [if_pos hlen, hv, ho.view]
        exact ⟨Or.inr rfl, fun _ => rfl⟩
  · rcases he with he | ⟨-, h0, hno⟩
    · exact absurd hpl he.2
    rw [makeView, if_neg h0]
    rcases hno with hl | hl | ⟨dir, base, hl, p, hp, hcomps, hne⟩
    · rw [hl]
    · rw [hl]
      split
      · rename_i hl'
        cases hl'
      · rfl
    · rw [hl]
      rcases lastSlash path with _ | ⟨dir', name⟩
      · rfl
      · dsimp only
        rw [nameiView, hp]
        dsimp only
        rw [if_pos ⟨hcomps, hne⟩]

/-- **`sys_mkdir`** does to the view what `mkdirView` says, if there is memory. -/
theorem sysMkdir_wp (h : Cache s X U) (path : Str) :
    wp (sysMkdir path) (fun _ t => Cache t X U ∧ Grows s t ∧
        (t.view = s.view ∨ nameiView s.view path ≠ some (some []) ∧ makeView s.view path = some t.view) ∧
        (Plenty s → mkdirView s.view path = some t.view))
      (fun _ => Plenty s → mkdirView s.view path = none) s := by
  unfold sysMkdir
  rw [wp_bind]
  refine wp_mono_fault (namei_view h path) (fun r t ht => ?_) fun e he hpl => ?_
  · obtain ⟨ho, ht⟩ := ht
    cases r with
    | ok dp =>
      obtain ⟨hc, cs, hfound⟩ := ht
      dsimp only
      rw [wp_bind]
      refine wp_mono (hc.drele_wp (give_pos ..)) fun _ u hu => ?_
      obtain ⟨ho', hc', -⟩ := hu
      rw [take_give] at hc'
      have hv : u.view = s.view := ho'.view.trans ho.view
      refine ⟨hc', ho.grows.trans ho'.grows, Or.inl hv, fun _ => ?_⟩
      rw [mkdirView, hfound, hv]
    | error e =>
      obtain ⟨hc, hroot, hwhy⟩ := ht
      refine wp_mono_fault (makeDir_wp hc path) (fun _ u hu => ?_) fun e he hpl => ?_
      · obtain ⟨hcu, hg, hv, hmade⟩ := hu
        rw [ho.view] at hv hmade
        refine ⟨hcu, ho.grows.trans hg, hv.imp_right (And.intro hroot), fun hpl => ?_⟩
        rw [mkdirView, hwhy hpl]
        exact hmade (ho.plenty hpl)
      · rw [mkdirView, hwhy hpl, ← ho.view]
        exact he (ho.plenty hpl)
  · rw [mkdirView, he hpl]

/-- `mkdirAll` does what `mkdirAllView` says, if there is memory. -/
theorem mkdirAll_view (h : Cache s X U) (paths : List Str) :
    wp (mkdirAll paths) (fun _ t => Cache t X U ∧ Grows s t ∧ (Plenty s → mkdirAllView s.view paths = some t.view))
      (fun _ => Plenty s → mkdirAllView s.view paths = none) s := by
  induction paths generalizing s with
  | nil => exact ⟨h, Grows.refl s, fun _ => rfl⟩
  | cons path paths ih =>
    rw [mkdirAll, wp_bind]
    refine wp_mono_fault (sysMkdir_wp h path) (fun _ u hu => ?_) fun _ he hpl => ?_
    · obtain ⟨hc, hg, -, hv⟩ := hu
      refine wp_mono_fault (ih hc) (fun _ t ht => ?_) fun _ he hpl => ?_
      · refine ⟨ht.1, hg.trans ht.2.1, fun hpl => ?_⟩
        rw [mkdirAllView, List.foldlM_cons, hv hpl]
        exact ht.2.2 (hg.plenty hpl)
      · rw [mkdirAllView, List.foldlM_cons, hv hpl]
        exact he (hg.plenty hpl)
    · rw [mkdirAllView, List.foldlM_cons, he hpl]
      rfl

/-! ### Paths that spell names -/

section Spells

variable {path c : Str} (v : View)

theorem Spells.nameiView (h : Spells path cs) :
    nameiView v path = some (if v.kind cs = none then none else some cs) := by
  have hno : ¬ (Coffer.components [] (join cs).tail = [] ∧ (join cs).tail ≠ []) := fun h0 =>
    h.not_slashes ⟨_, h.findRoot, h0⟩
  rw [Fs.nameiView, h.findRoot]
  dsimp only
  rw [if_neg hno, h.namesOf, h.components, trailing_flagged]
  simp only [Bool.false_eq_true, false_and, or_false]
  split_ifs <;> rfl

theorem Spells.makeView (h : Spells path (cs ++ [c])) : makeView v path =
    some (if v.kind cs = some .dir ∧ c.length ≤ nameMax then addView v (cs ++ [c]) .dir else v) := by
  obtain ⟨dir, hl, hl', hd⟩ := h.lastSlash_strlcpy
  have hne : path ≠ [] := by
    rintro rfl
    cases hl'
  rw [Fs.makeView, if_neg hne, hl, hl']
  simp only [hd.nameiView]
  split_ifs <;> simp_all

/-- `sys_mkdir` and the kinds: at most the one at the path changes, from nothing to a directory. -/
theorem sysMkdir_kind (h : Cache s X U) (hp : Spells path cs) (hlen : ∀ c ∈ cs, c.length ≤ nameMax) :
    wp (sysMkdir path) (fun _ t => Cache t X U ∧ Grows s t ∧ (∀ es, es ≠ cs → t.kind es = s.kind es) ∧
        (t.kind cs = s.kind cs ∨ s.kind cs = none ∧ t.kind cs = some .dir) ∧
        (Plenty s → s.kind cs.dropLast = some .dir → t.kind cs ≠ none))
      (fun _ => ¬ Plenty s) s := by
  have hfind := hp.nameiView s.view
  rw [kind_view]
  rcases List.eq_nil_or_concat cs with rfl | ⟨ds, c, rfl⟩
  · -- the root directory is there already
    have hroot : s.view.kind [] = some .dir := kind_view s ▸ h.names.tree.kind_nil
    rw [hroot, if_neg (by simp)] at hfind
    refine wp_mono_fault (sysMkdir_wp h path) (fun _ t ht => ?_) fun _ he hpl => ?_
    · obtain ⟨hc, hg, hv, -⟩ := ht
      replace hv := hv.resolve_right fun hr => hr.1 hfind
      rw [kind_view t, hv]
      exact ⟨hc, hg, fun _ _ => rfl, Or.inl rfl, fun _ _ => by rw [hroot]; simp⟩
    · rw [mkdirView, hfind] at he
      cases he hpl
  · rw [List.concat_eq_append] at *
    have hmake := hp.makeView s.view
    have hkind (es : List Str) : (addView s.view (ds ++ [c]) .dir).kind es =
        if s.view.kind (ds ++ [c]) = none ∧ es = ds ++ [c] then some .dir else s.view.kind es := by
      simp only [addView, View.kind, Option.map_eq_none_iff]
      split_ifs <;> simp_all
    have hc := hlen c (by simp)
    refine wp_mono_fault (sysMkdir_wp h path) (fun _ t ht => ?_) fun _ he hpl => ?_
    · obtain ⟨hct, hg, hv, hall⟩ := ht
      have hone : t.view = s.view ∨ t.view = addView s.view (ds ++ [c]) .dir := by
        refine hv.elim Or.inl fun hr => ?_
        have hw := hr.2
        rw [hmake, Option.some.injEq] at hw
        split_ifs at hw
        · exact Or.inr hw.symm
        · exact Or.inl hw.symm
      rw [List.dropLast_concat, kind_view t]
      refine ⟨hct, hg, fun es hes => ?_, ?_, fun hpl hdir hnone => ?_⟩
      · rcases hone with hv | hv
        · rw [hv]
        · rw [hv, hkind, if_neg fun he => hes he.2]
      · rcases hone with hv | hv
        · exact Or.inl (by rw [hv])
        · rw [hv, hkind]
          split_ifs with he
          · exact Or.inr ⟨he.1, rfl⟩
          · exact Or.inl rfl
      · have hw := hall hpl
        rw [mkdirView, hfind] at hw
        by_cases hk : s.view.kind (ds ++ [c]) = none
        · rw [if_pos hk] at hw
          dsimp only at hw
          rw [hmake, if_pos ⟨hdir, hc⟩, Option.some.injEq] at hw
          rw [← hw, hkind, if_pos ⟨hk, rfl⟩] at hnone
          cases hnone
        · rw [if_neg hk] at hw
          exact hk ((Option.some.inj hw).symm ▸ hnone)
    · rw [mkdirView, hfind] at he
      split_ifs at he
      · rw [hmake] at he
        cases he hpl
      · cases he hpl

end Spells

end Fs
end Coffer
