/-
# Unlinking

`sys_unlink` takes the node of a regular file out of its directory and frees it, and takes the dentry out of the hash
table. The dentry itself stays as long as an open file refers to it, and with it the vnode, whose node is gone: it is one
of the dentries `U` of `Cache` then (`Cache.remove`). `sysUnlink_wp` says which one.

That the dentry an open file refers to is the one a path leads to does not change while a path is looked up, as no
dentry changes its path (`Steady`).

Key definitions: `Steady`, `UnlinkPost`.
Key theorems: `Steady.placed`, `Cache.remove`, `sysUnlink_wp`.
-/
import Coffer.Vfs.Open

namespace Coffer
namespace Fs

open Lib Lib.Cmd

variable {s t : Fs} {X X' : ℕ → ℕ} {U : Set ℕ} {d e : ℕ} {cs : List Str}

/-! ### Dentries keep their paths -/

/-- Dentries that are still there have the path and the vnode they had, and vnodes the node. -/
structure Steady (s t : Fs) : Prop where
  next : s.next ≤ t.next
  dentry : ∀ {e x'}, e < s.next → t.dentries e = some x' →
    ∃ x, s.dentries e = some x ∧ x'.dPath = x.dPath ∧ x'.dVnode = x.dVnode
  vnode : ∀ {v y'}, v < s.next → t.vnodes v = some y' → ∃ y, s.vnodes v = some y ∧ y'.vData = y.vData

namespace Steady

theorem refl (s : Fs) : Steady s s := ⟨le_refl _, fun _ hx => ⟨_, hx, rfl, rfl⟩, fun _ hy => ⟨_, hy, rfl⟩⟩

theorem trans (a b c : Fs) (h : Steady a b) (h' : Steady b c) : Steady a c where
  next := h.next.trans h'.next
  dentry {e x'} he hx := by
    obtain ⟨x₁, hx₁, hp₁, hv₁⟩ := h'.dentry (he.trans_le h.next) hx
    obtain ⟨x, hx, hp, hv⟩ := h.dentry he hx₁
    exact ⟨x, hx, hp₁.trans hp, hv₁.trans hv⟩
  vnode {v y'} hv hy := by
    obtain ⟨y₁, hy₁, hd₁⟩ := h'.vnode (hv.trans_le h.next) hy
    obtain ⟨y, hy, hd⟩ := h.vnode hv hy₁
    exact ⟨y, hy, hd₁.trans hd⟩

theorem of_eq (hd : t.dentries = s.dentries) (hv : t.vnodes = s.vnodes) (hn : s.next ≤ t.next) : Steady s t :=
  ⟨hn, fun _ hx => ⟨_, hd ▸ hx, rfl, rfl⟩, fun _ hy => ⟨_, hv ▸ hy, rfl⟩⟩

/-- A dentry changes its count, or is freed. -/
theorem setDentry {x : Dentry} (hx : s.dentries d = some x) {x' : Option Dentry}
    (h : ∀ w ∈ x', w.dPath = x.dPath ∧ w.dVnode = x.dVnode) : Steady s (s.setDentry d x') where
  next := le_refl _
  dentry {e w} he hw := by
    by_cases hed : e = d
    · subst hed
      rw [setDentry_self] at hw
      exact ⟨x, hx, h w hw⟩
    · rw [setDentry_other s x' hed] at hw
      exact ⟨w, hw, rfl, rfl⟩
  vnode _ hy := ⟨_, hy, rfl⟩

/-- A vnode changes its count, or is freed. -/
theorem setVnode {v : ℕ} {y : Vnode} (hy : s.vnodes v = some y) {y' : Option Vnode} (h : ∀ w ∈ y', w.vData = y.vData) :
    Steady s (s.setVnode v y') where
  next := le_refl _
  dentry _ hx := ⟨_, hx, rfl, rfl⟩
  vnode {u w} hu hw := by
    by_cases huv : u = v
    · subst huv
      rw [setVnode_self] at hw
      exact ⟨y, hy, h w hw⟩
    · rw [setVnode_other s y' huv] at hw
      exact ⟨w, hw, rfl⟩

/-- New objects do not matter. -/
theorem of_new (hd : ∀ {e}, e < s.next → t.dentries e = s.dentries e) (hv : ∀ {v}, v < s.next → t.vnodes v = s.vnodes v)
    (hn : s.next ≤ t.next) : Steady s t :=
  ⟨hn, fun he hx => ⟨_, hd he ▸ hx, rfl, rfl⟩, fun hu hy => ⟨_, hv hu ▸ hy, rfl⟩⟩

variable {α β : Type}

theorem bind {m : FsM α} {k : α → FsM β} (h : Keeps Steady m) (hk : ∀ a, Keeps Steady (k a)) : Keeps Steady (m >>= k) :=
  Keeps.of_bind trans h hk

theorem pure (a : α) : Keeps Steady (Pure.pure a : FsM α) := Keeps.of_pure refl a

theorem load (f : Fs → Option α) (e : FsFault) : Keeps Steady (Cmd.load f e) := Keeps.of_load refl f e

theorem ite {c : Prop} [Decidable c] {m m' : FsM α} (h : Keeps Steady m) (h' : Keeps Steady m') :
    Keeps Steady (if c then m else m') := by
  split
  · exact h
  · exact h'

theorem kmalloc : Keeps Steady Fs.kmalloc := fun _ => of_eq rfl rfl (le_refl _)

theorem vref (v : ℕ) : Keeps Steady (vref v) := by
  intro s
  rw [Fs.vref, wp_bind, getVnode, wp_load_iff]
  refine ⟨fun y hy => ?_, fun _ => trivial⟩
  have hsame : ∀ w ∈ some { y with vRefcnt := (y.vRefcnt + 1) }, w.vData = y.vData := by
    rintro w ⟨⟩
    rfl
  exact setVnode hy hsame

theorem vrele (v : ℕ) : Keeps Steady (vrele v) := by
  intro s
  rcases hy : s.vnodes v with _ | y
  · rw [Fs.vrele, wp_bind, getVnode, wp_load_iff]
    refine ⟨fun y hy' => ?_, fun _ => trivial⟩
    rw [hy] at hy'
    cases hy'
  · rw [wp_ok (vrele_ok hy)]
    refine setVnode hy fun w hw => ?_
    unfold vdec at hw
    split at hw
    · cases hw
      rfl
    · cases hw

theorem dref (d : ℕ) : Keeps Steady (dref d) := by
  intro s
  rw [Fs.dref, wp_bind, getDentry, wp_load_iff]
  refine ⟨fun x hx => ?_, fun _ => trivial⟩
  have hsame : ∀ w ∈ some { x with dRefcnt := x.dRefcnt + 1 }, w.dPath = x.dPath ∧ w.dVnode = x.dVnode := by
    rintro w ⟨⟩
    exact ⟨rfl, rfl⟩
  exact setDentry hx hsame

theorem unhash (f : Fs → List ℕ) : Keeps Steady (modify fun s => { s with hash := f s } : FsM Unit) :=
  fun _ => of_eq rfl rfl (le_refl _)

/-- The end of a dentry: its last count is written and it is freed, with what is released between the two. -/
theorem free (d : ℕ) : Keeps Steady (putDentry d none) := by
  intro s
  refine ⟨le_refl _, fun {e w} he hw => ?_, fun _ hy => ⟨_, hy, rfl⟩⟩
  by_cases hed : e = d
  · subst hed
    replace hw : Function.update s.dentries e none e = some w := hw
    rw [Function.update_self] at hw
    cases hw
  · replace hw : Function.update s.dentries d none e = some w := hw
    rw [Function.update_of_ne hed] at hw
    exact ⟨w, hw, rfl, rfl⟩

theorem dreleUpTo (n d : ℕ) : Keeps Steady (dreleUpTo n d) := by
  induction n generalizing d with
  | zero => exact fun _ => trivial
  | succ n ih =>
    intro s
    rw [Fs.dreleUpTo, wp_bind, getDentry, wp_load_iff]
    refine ⟨fun x hx => ?_, fun _ => trivial⟩
    rw [wp_bind, wp_ok (putDentry_ok ..)]
    have hone : Steady s (s.setDentry d (some { x with dRefcnt := x.dRefcnt - 1 })) :=
      setDentry hx fun w hw => by cases hw; exact ⟨rfl, rfl⟩
    refine wp_mono (ite (pure _) (bind (unhash _) fun _ => bind ?_ fun _ => bind (vrele _) fun _ => free d) _)
      fun _ t ht => trans _ _ _ hone ht
    cases x.dParent with
    | none => exact pure _
    | some p => exact ih p

theorem drele (d : ℕ) : Keeps Steady (drele d) := dreleUpTo _ _

theorem dentryAlloc (parent v : ℕ) (path : Str) : Keeps Steady (dentryAlloc parent v path) := by
  have hnew : Keeps Steady (do
      let d ← newId
      Fs.dref parent
      putDentry d (some ⟨1, path, v, some parent⟩)
      modify fun s => { s with hash := d :: s.hash }
      Pure.pure (some d) : FsM (Option ℕ)) := by
    intro s
    have hid : newId s = .ok (s.next, { s with next := s.next + 1 }) := rfl
    rw [wp_bind, wp_ok hid, wp_bind]
    refine wp_mono (dref parent _) fun _ t ht => ?_
    rw [wp_bind, wp_ok (putDentry_ok ..), wp_bind, wp_modify, wp_pure]
    -- the new dentry has a number that was not given before
    refine ⟨(Nat.le_succ _).trans ht.next, fun {e w} he hw => ?_, fun hu hy => ht.vnode (Nat.lt_succ_of_lt hu) hy⟩
    replace hw : Function.update t.dentries s.next _ e = some w := hw
    rw [Function.update_of_ne (Nat.ne_of_lt he)] at hw
    exact ht.dentry (Nat.lt_succ_of_lt he) hw
  refine bind kmalloc fun _ => ite (pure _) (bind kmalloc fun _ => ite (pure _) ?_)
  exact bind (vref _) fun _ => hnew

theorem dentryLookup (path : Str) : Keeps Steady (dentryLookup path) := by
  refine bind (Keeps.of_get refl) fun s => ?_
  cases s.hash.find? fun d => (s.dentries d).map Dentry.dPath = some path with
  | none => exact pure _
  | some d => exact bind (dref d) fun _ => pure _

theorem vnodeOf (d : ℕ) : Keeps Steady (vnodeOf d) := bind (load _ _) fun _ => load _ _

theorem findChild (name : Str) (ns : List ℕ) : Keeps Steady (findChild name ns) := by
  induction ns with
  | nil => exact pure _
  | cons n ns ih => exact bind (load _ _) fun _ => ite (pure _) ih

theorem ramfsLookup (dvp : Vnode) (name : Str) : Keeps Steady (ramfsLookup dvp name) := by
  have hnew (y : Vnode) : Keeps Steady (do
      let v ← newId
      putVnode v (some y)
      Pure.pure (Except.ok v) : FsM (Except Errno ℕ)) :=
    fun s => of_new (fun _ => rfl) (fun hv => Function.update_of_ne (Nat.ne_of_lt hv) ..) (Nat.le_succ _)
  refine ite (pure _) (bind (load _ _) fun dnp => bind (findChild _ _) fun r => ?_)
  cases r with
  | none => exact pure _
  | some n => exact bind kmalloc fun _ => ite (fun _ => trivial) (bind (load _ _) fun _ => hnew _)

theorem childDentry (ddp : ℕ) (name node : Str) : Keeps Steady (childDentry ddp name node) := by
  refine bind (dentryLookup _) fun r => ?_
  cases r with
  | some dp => exact pure _
  | none =>
    refine bind (vnodeOf _) fun _ => bind (ramfsLookup _ _) fun r => ?_
    cases r with
    | error e => exact pure _
    | ok vp =>
      refine bind (dentryAlloc _ _ _) fun dp => bind (vrele _) fun _ => ?_
      cases dp with
      | none => exact pure _
      | some dp => exact pure _

theorem nameiFollowLink (dp : ℕ) (node name fp : Str) (len : ℕ) : Keeps Steady (nameiFollowLink dp node name fp len) := by
  refine bind (vnodeOf _) fun _ => bind ?_ fun link => ite (pure _) ?_
  · exact bind (load _ _) fun _ => ite (fun _ => trivial) (pure _)
  · dsimp only
    cases pathConv (fp.take (len + (node.length - name.length - 1))) link with
    | error e => exact fun _ => trivial
    | ok r =>
      cases r with
      | error e => exact pure _
      | ok full => exact pure _

theorem walk (fp : Str) (len ddp : ℕ) (dp : Option ℕ) (node : Str) (p : List (Str × Bool)) :
    Keeps Steady (walk fp len ddp dp node p) := by
  induction p generalizing ddp dp node with
  | nil =>
    cases dp with
    | none => exact fun _ => trivial
    | some dp => exact pure _
  | cons c p ih =>
    refine bind (childDentry _ _ _) fun r => ?_
    cases r with
    | error e => exact bind (drele _) fun _ => pure _
    | ok dp =>
      refine bind (drele _) fun _ => bind (vnodeOf _) fun v => ite ?_ (ite ?_ (ih _ _ _))
      · exact bind (nameiFollowLink _ _ _ _ _) fun _ => bind (drele _) fun _ => pure _
      · exact bind (drele _) fun _ => pure _

theorem nameiLoop (n : ℕ) (fp : Str) : Keeps Steady (nameiLoop n fp) := by
  induction n generalizing fp with
  | zero => exact pure _
  | succ n ih =>
    rw [Fs.nameiLoop]
    cases findRoot fp with
    | none => exact pure _
    | some p =>
      refine bind (dentryLookup _) fun r => ?_
      cases r with
      | some dp => exact pure _
      | none =>
        refine bind (Keeps.of_get refl) fun _ => bind (dref _) fun _ => bind (walk _ _ _ _ _ _) fun r => ?_
        rcases r with e | (dp | fp)
        · exact pure _
        · exact pure _
        · exact ih fp

theorem lookup (path : Str) : Keeps Steady (lookup path) := by
  refine ite (pure _) ?_
  cases lastSlash (strlcpy path) with
  | none => exact fun _ => trivial
  | some x =>
    cases lastSlash path with
    | none => exact fun _ => trivial
    | some y =>
      refine bind (nameiLoop _ _) fun r => ?_
      cases r with
      | error e => exact pure _
      | ok dp => exact bind (vnodeOf _) fun _ => ite (bind (drele _) fun _ => pure _) (pure _)

/-- A dentry that is held stays where it is. -/
theorem placed (h : Steady s t) (hs : Cache s X U) (ht : Cache t X' U) (hp : Placed s e cs) (he : 1 ≤ X' e) :
    Placed t e cs := by
  obtain ⟨x, hx, hpath⟩ := hp.path
  obtain ⟨x', hx'⟩ := Option.isSome_iff_exists.mp (ht.isSome he)
  obtain ⟨w, hw, hpw, -⟩ := h.dentry (hs.counts.dent_lt hx) hx'
  obtain rfl : x = w := Option.some.inj (hx.symm.trans hw)
  refine ⟨ht.names.hashed (by rw [hx']; rfl) fun hU => (hs.names.dead hU).2.1 hp.mem, hp.names, x', hx', ?_⟩
  rw [hpw, hpath]

/-- And it was there before. -/
theorem placed_back (h : Steady s t) (hs : Cache s X U) (ht : Cache t X' U) (hp : Placed t e cs) (he : 1 ≤ X e) :
    Placed s e cs := by
  obtain ⟨x', hx', hpath⟩ := hp.path
  obtain ⟨x, hx⟩ := Option.isSome_iff_exists.mp (hs.isSome he)
  obtain ⟨w, hw, hpw, -⟩ := h.dentry (hs.counts.dent_lt hx) hx'
  obtain rfl : x = w := Option.some.inj (hx.symm.trans hw)
  refine ⟨hs.names.hashed (by rw [hx]; rfl) fun hU => (ht.names.dead hU).2.1 hp.mem, hp.names, x, hx, ?_⟩
  rw [← hpw, hpath]

end Steady

/-! ### A node is removed -/

section Remove

variable {p : ℕ} {c : Str} {x x' : Dentry} {y y' : Vnode} {z z' : RamNode}

/-- **A node is removed, and its dentry leaves the hash table.** The dentry is now one of those whose nodes are gone. -/
theorem Cache.remove (h : Cache s X U) (hp : Placed s d (cs ++ [c])) (ha : At s d (cs ++ [c]) x y z) (hreg : y.vType ≠ .dir)
    (hz : s.nodes p = some z') (hr : s.resolve 0 cs = some p) :
    y.vData ∈ z'.rnChild ∧ z.rnChild = [] ∧ Cache ((s.removeNode p z' y.vData).unhash d) X (insert d U) := by
  have htree := h.names.tree
  have hleaf : z.rnChild = [] := by
    by_contra hne
    exact hreg (ha.type.trans (htree.dir ha.node hne))
  have hmem : y.vData ∈ z'.rnChild := by
    have hres := ha.resolve
    rw [resolve_concat, hr, Option.bind_some] at hres
    obtain ⟨w, -, hw, hc, -⟩ := childOf_some hres
    rw [hz] at hw
    cases hw
    exact hc
  refine ⟨hmem, hleaf, h.counts.congr rfl rfl (le_refl _), ?_⟩
  have hpn := parent_ne_leaf hz ha.node hmem hleaf
  -- another dentry in the hash table stands for another node
  have hother {e : ℕ} {es : List Str} {w : Dentry} {u : Vnode} {q : RamNode} (he : e ∈ s.hash) (hed : e ≠ d)
      (hb : At s e es w u q) : u.vData ≠ y.vData := by
    intro hu
    have hes : es = cs ++ [c] := resolve_unique htree hb.resolve (by rw [hu]; exact ha.resolve)
    exact hed (h.names.placed_unique ⟨he, hp.names, w, hb.dentry, by rw [hb.path, hes]⟩ hp)
  have hhash {e : ℕ} (he : e ∈ ((s.removeNode p z' y.vData).unhash d).hash) : e ∈ s.hash ∧ e ≠ d := by
    have := List.mem_filter.mp he
    exact ⟨this.1, by simpa using this.2⟩
  have hroot : s.mRoot ≠ d := by
    intro he
    obtain ⟨w, hw, hpw⟩ := h.names.placed_root.path
    obtain ⟨w', hw', hpw'⟩ := hp.path
    rw [he, hw'] at hw
    cases hw
    have := pathOf_inj (by simp) hp.names (hpw.symm.trans hpw')
    simp at this
  have hshape : SameShape (s.removeNode p z' y.vData) ((s.removeNode p z' y.vData).unhash d) := SameShape.of_eq rfl
  refine ⟨?_, ?_, ?_, ?_, ?_, ?_, ?_, h.names.data_lt⟩
  · exact hshape.tree (htree.remove hz ha.node hmem hleaf) (le_refl _)
  · intro n q hq
    by_cases hn : n = y.vData
    · subst hn
      rw [show ((s.removeNode p z' y.vData).unhash d).nodes y.vData = none from removeNode_self ..] at hq
      cases hq
    · by_cases hnp : n = p
      · subst hnp
        rw [show ((s.removeNode n z' y.vData).unhash d).nodes n = _ from removeNode_parent hpn z'] at hq
        cases hq
        have hok := h.names.ok hz
        exact ⟨hok.size, hok.buf, hok.shown⟩
      · rw [show ((s.removeNode p z' y.vData).unhash d).nodes n = _ from removeNode_other z' hn hnp] at hq
        exact h.names.ok hq
  · obtain ⟨hm, hw⟩ := h.names.root
    exact ⟨List.mem_filter.mpr ⟨hm, decide_eq_true hroot⟩, hw⟩
  · intro e he
    obtain ⟨he, hed⟩ := hhash he
    obtain ⟨es, w, u, q, hb⟩ := h.names.place he
    have hne := hother he hed hb
    have hres : ((s.removeNode p z' y.vData).unhash d).resolve 0 es = some u.vData :=
      (hshape.resolve 0 es).trans (htree.resolve_remove hz ha.node hmem hleaf hb.resolve hne)
    by_cases hup : u.vData = p
    · have hq : q = z' := by
        have := hb.node
        rw [hup, hz] at this
        cases this
        rfl
      refine ⟨es, w, u, { z' with rnChild := z'.rnChild.erase y.vData }, hb.dentry, hb.vnode, ?_, hb.names, hb.path, hres,
        by rw [hb.type, hq], by rw [← hb.size, hq], hb.mode, hb.vRoot⟩
      rw [hup]
      exact removeNode_parent hpn z'
    · exact ⟨es, w, u, q, hb.dentry, hb.vnode, (removeNode_other z' hne hup).trans hb.node, hb.names, hb.path, hres, hb.type,
        hb.size, hb.mode, hb.vRoot⟩
  · intro e e' w w' he he' hw hw' hpath
    exact h.names.uniq (hhash he).1 (hhash he').1 hw hw' hpath
  · intro e he hU
    rw [Set.mem_insert_iff, not_or] at hU
    exact List.mem_filter.mpr ⟨h.names.hashed he hU.2, by simpa using hU.1⟩
  · intro e he
    rcases Set.mem_insert_iff.mp he with rfl | he
    · refine ⟨h.counts.dent_lt ha.dentry, fun hm => (hhash hm).2 rfl, fun {w u} hw hu => ?_⟩
      obtain rfl : x = w := Option.some.inj (ha.dentry.symm.trans hw)
      obtain rfl : y = u := Option.some.inj (ha.vnode.symm.trans hu)
      exact removeNode_self ..
    · obtain ⟨hlt, hnot, hdead⟩ := h.names.dead he
      refine ⟨hlt, fun hm => hnot (hhash hm).1, fun {w u} hw hu => ?_⟩
      have hnone := hdead hw hu
      by_cases hn : u.vData = y.vData
      · rw [hn]
        exact removeNode_self ..
      · have hnp : u.vData ≠ p := by
          intro hp
          rw [hp, hz] at hnone
          cases hnone
        exact (removeNode_other z' hn hnp).trans hnone

end Remove

/-! ### `sys_unlink` -/

/-- What `sys_unlink` says after it. `d` is the dentry of the file that was removed. -/
def UnlinkPost (s : Fs) (X : ℕ → ℕ) (U : Set ℕ) (cs : List Str) (r : Except Errno Unit) (t : Fs) : Prop :=
  Grows s t ∧ match r with
    | .error _ => Cache t X U ∧ t.nodes = s.nodes
    | .ok _ => ∃ d, Cache t X (insert d U) ∧ (∀ e, 1 ≤ X e → (Placed s e cs ↔ e = d)) ∧
        (∃ bytes, s.view cs = some (.reg, bytes)) ∧
        (Distinct s → Distinct t ∧ t.view = Function.update s.view cs none)

theorem ramfsRemoveNode_ok {p n : ℕ} {x y : RamNode} (hx : s.nodes p = some x) (hy : s.nodes n = some y)
    (hn : n ∈ x.rnChild) (hpn : p ≠ n) : ramfsRemoveNode p n s = .ok (.ok (), s.removeNode p x n) := by
  have hput (a : Fs) (i : ℕ) (z : Option RamNode) :
      putNode i z a = .ok ((), { a with nodes := Function.update a.nodes i z }) := rfl
  rw [ramfsRemoveNode, bind_of_ok (getNode_ok hx), if_neg (List.ne_nil_of_mem hn), if_pos hn, bind_of_ok (hput ..)]
  have hy' : Function.update s.nodes p (some { x with rnChild := x.rnChild.erase n }) n = some y := by
    rw [Function.update_of_ne (Ne.symm hpn), hy]
  refine (bind_of_ok (getNode_ok (s := { s with
    nodes := Function.update s.nodes p (some { x with rnChild := x.rnChild.erase n }) }) hy')).trans ?_
  rw [bind_of_ok (hput ..)]
  rfl

theorem removeNode_grows (s : Fs) (p : ℕ) (x : RamNode) (n d : ℕ) : Grows s ((s.removeNode p x n).unhash d) :=
  ⟨rfl, rfl, rfl, rfl, rfl, rfl, rfl, rfl, le_refl _, le_refl _⟩

/-- The last steps of `sys_unlink`: the two dentries are released. -/
theorem release_both {ddp dp : ℕ} {α : Type} {r : α} {E : FsFault → Prop} (h : Cache s (give (give X ddp) dp) U) :
    wp (drele ddp >>= fun _ => drele dp >>= fun _ => pure r) (fun a t => a = r ∧ Onward s t ∧ Cache t X U) E s := by
  have hpos : 1 ≤ give (give X ddp) dp ddp := (give_pos X ddp).trans (le_give ..)
  rw [wp_bind]
  refine wp_mono (h.drele_wp hpos) fun _ t ht => ?_
  obtain ⟨ho, hc, -⟩ := ht
  rw [take_give_comm (give_pos ..), take_give] at hc
  rw [wp_bind]
  refine wp_mono (hc.drele_wp (give_pos ..)) fun _ u hu => ?_
  obtain ⟨ho', hc', -⟩ := hu
  rw [take_give] at hc'
  exact ⟨rfl, Onward.trans _ _ _ ho ho', hc'⟩

/-- **`sys_unlink`** of a full path. -/
theorem sysUnlink_wp {path : Str} (h : FullPath path cs) (hc : Cache s X U) :
    wp (sysUnlink path) (UnlinkPost s X U cs) (fun e => e = .panic ∧ ¬ Plenty s) s := by
  have hfail {u : Fs} (e : Errno) (ho : Onward s u) (hcu : Cache u X U) : UnlinkPost s X U cs (.error e) u :=
    ⟨ho.grows, hcu, ho.nodes⟩
  unfold sysUnlink
  rw [wp_bind]
  refine wp_mono (wp_keeps (Steady.lookup path) (h.lookup_wp hc)) fun r t ht => ?_
  obtain ⟨⟨ho, ht⟩, hst⟩ := ht
  rcases r with e | ⟨ddp, name⟩
  · exact hfail e ho ht.1
  obtain ⟨ds, xd, yd, zd, hct, hpd, had, hyd, hne, hnil, -, hlast⟩ := ht
  simp only [hlast]
  rw [wp_bind]
  refine wp_mono_fault (wp_keeps (Steady.childDentry ddp name (pathOf cs))
    (childDentry_wp hct hpd (give_pos ..) h.names hne)) (fun r u hu => ?_) fun e he => ⟨he.1, not_plenty ho he.2⟩
  obtain ⟨⟨ho', hu⟩, hst'⟩ := hu
  have ho2 := Onward.trans _ _ _ ho ho'
  have hsteady := Steady.trans _ _ _ hst hst'
  cases r with
  | error e =>
    simp only
    rw [wp_bind]
    refine wp_mono (hu.1.drele_wp (give_pos ..)) fun _ w hw => ?_
    obtain ⟨ho3, hc3, -⟩ := hw
    rw [take_give] at hc3
    exact hfail e (Onward.trans _ _ _ ho2 ho3) hc3
  | ok dp =>
    obtain ⟨hcu, hpu, hdp⟩ := hu
    obtain ⟨x, y, z, ha⟩ := hcu.names.at hdp
    obtain ⟨x', y', z', ha'⟩ := hcu.names.at hpu
    -- the directory is still the directory it was
    have hdir : y'.vType = .dir := by
      have hr := ha'.resolve
      rw [(SameShape.of_eq ho'.nodes).resolve, had.resolve] at hr
      have hn := ha'.node
      rw [ho'.nodes, ← Option.some.inj hr, had.node] at hn
      rw [ha'.type, ← Option.some.inj hn, ← had.type, hyd]
    simp only
    rw [wp_bind, wp_ok (vnodeOf_ok ha.dentry ha.vnode), wp_bind, wp_ok (vnodeOf_ok ha'.dentry ha'.vnode)]
    split
    · rename_i e _
      rw [give_comm] at hcu
      refine (wp_mono (release_both hcu) fun _ w hw => ?_ : wp _ _ _ u)
      obtain ⟨rfl, ho3, hc3⟩ := hw
      exact hfail e (Onward.trans _ _ _ ho2 ho3) hc3
    · rename_i herr
      have hnd : y.vType ≠ .dir := by
        intro hd
        rw [if_pos hd] at herr
        cases herr
      have hname : name ≠ [] := by
        intro h0
        have heq := hnil h0
        subst heq
        obtain rfl := hcu.names.placed_unique hdp hpu
        obtain rfl : x = x' := Option.some.inj (ha.dentry.symm.trans ha'.dentry)
        obtain rfl : y = y' := Option.some.inj (ha.vnode.symm.trans ha'.vnode)
        exact hnd hdir
      obtain rfl := hne hname
      obtain ⟨hmem, hleaf, hcr⟩ := hcu.remove hdp ha hnd ha'.node ha'.resolve
      have hpn := parent_ne_leaf ha'.node ha.node hmem hleaf
      have hrun : dentryRemove dp (u.removeNode y'.vData z' y.vData) =
          .ok ((), (u.removeNode y'.vData z' y.vData).unhash dp) := rfl
      rw [wp_bind, wp_ok (ramfsRemoveNode_ok ha'.node ha.node hmem hpn), wp_bind, wp_ok hrun]
      refine (wp_mono (release_both hcr) fun _ w hw => ?_ : wp _ _ _ _)
      obtain ⟨rfl, ho3, hc3⟩ := hw
      have hg := (ho2.grows.trans (removeNode_grows u y'.vData z' y.vData dp)).trans ho3.grows
      have hview := ho2.view
      refine ⟨hg, dp, hc3, fun e he => ⟨fun hpe => ?_, fun hed => ?_⟩, ?_, fun hd => ?_⟩
      · have hpe' := hsteady.placed hc hcu hpe (he.trans ((le_give X ddp e).trans (le_give _ dp e)))
        exact hcu.names.placed_unique hpe' hdp
      · subst hed
        exact hsteady.placed_back hc hcu hdp he
      · have hreg : z.rnType = .reg := by
          have hl := hcu.names.tree.noLink ha.node
          rw [ha.type] at hnd
          cases ht : z.rnType with
          | reg => rfl
          | dir => exact absurd ht hnd
          | lnk => exact absurd ht hl
        refine ⟨z.contents, ?_⟩
        rw [← hview, view_eq ha.resolve ha.node, hreg]
      · have hdu := ho2.distinct hd
        have htree := hcu.names.tree
        have hshape : SameShape (u.removeNode y'.vData z' y.vData) ((u.removeNode y'.vData z' y.vData).unhash dp) :=
          SameShape.of_eq rfl
        refine ⟨ho3.distinct (hshape.distinct (Distinct.remove htree ha'.node ha.node hmem hleaf hdu)), ?_⟩
        rw [ho3.view, view_of_nodes (s := u.removeNode y'.vData z' y.vData)
          (t := (u.removeNode y'.vData z' y.vData).unhash dp) rfl, htree.view_remove ha'.node ha.node hmem hleaf hdu ha.resolve, hview]

end Fs
end Coffer
