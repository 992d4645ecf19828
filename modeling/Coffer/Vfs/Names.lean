/-
# The dentry cache names the nodes

A dentry in the hash table stands for the node that its path leads to, and no two of them have one
path: `Names`. Of the dentries that are not in the hash table, the set `U`, the nodes are gone: they were
unlinked. With the reference counts this is what lookups rest on and keep: `Cache`.

`namei_wp`: `namei` returns the dentry of the node that the path leads to, with a reference for the
caller, or fails if the path leads nowhere or there is no memory. It stops for want of memory, and on
a path of slashes that is not the root.

Key definitions: `At`, `Names`, `Cache`, `Placed`, `Plenty`.
Key theorems: `Cache.drele`, `childDentry_wp`, `walk_wp`, `namei_wp`, `lookup_wp`.
-/
import Coffer.Vfs.Counts
import Coffer.Vfs.Tree

namespace Coffer

variable {E : FsFault → Prop} {comps : List (Str × Bool)} {ddp e : ℕ} {path : Str}

/-- The buffer of a node is there if it has a size or shows something. -/
structure RamNode.Ok (z : RamNode) : Prop where
  size : z.rnSize < 2 ^ 64
  buf : 0 < z.rnBufsize → z.rnBuf.isSome
  shown : 0 < z.rnSize → z.rnBuf.isSome

namespace Fs

open Lib Lib.Cmd

/-! ### What the hash table stands for -/

/-- The dentry `d` with its vnode stands for the node that the names `cs` lead to. -/
structure At (s : Fs) (d : ℕ) (cs : List Str) (x : Dentry) (y : Vnode) (z : RamNode) : Prop where
  dentry : s.dentries d = some x
  vnode : s.vnodes x.dVnode = some y
  node : s.nodes y.vData = some z
  names : ∀ c ∈ cs, IsName c
  path : x.dPath = pathOf cs
  resolve : s.resolve 0 cs = some y.vData
  type : y.vType = z.rnType
  size : z.rnSize = toU64 y.vSize
  mode : vnAccessWrite y = .ok ()
  vRoot : y.vRoot = true → cs = []

/-- The hash table has the dentries of nodes by their paths; the nodes of the other dentries, those of
`U`, are gone. -/
structure Names (s : Fs) (U : Set ℕ) : Prop where
  tree : Tree s
  ok : ∀ {n z}, s.nodes n = some z → z.Ok
  root : s.mRoot ∈ s.hash ∧ ∃ x, s.dentries s.mRoot = some x ∧ x.dPath = ['/']
  place : ∀ {d}, d ∈ s.hash → ∃ cs x y z, At s d cs x y z
  uniq : ∀ {d e x x'}, d ∈ s.hash → e ∈ s.hash → s.dentries d = some x → s.dentries e = some x' →
    x.dPath = x'.dPath → d = e
  hashed : ∀ {d}, (s.dentries d).isSome → d ∉ U → d ∈ s.hash
  dead : ∀ {d}, d ∈ U → d < s.next ∧ d ∉ s.hash ∧
    ∀ {x y}, s.dentries d = some x → s.vnodes x.dVnode = some y → s.nodes y.vData = none
  data_lt : ∀ {v y}, s.vnodes v = some y → y.vData < s.next

/-- The dentry `d` is in the hash table, with the path of `cs`. -/
structure Placed (s : Fs) (d : ℕ) (cs : List Str) : Prop where
  mem : d ∈ s.hash
  names : ∀ c ∈ cs, IsName c
  path : ∃ x, s.dentries d = some x ∧ x.dPath = pathOf cs

variable {s t : Fs} {X : ℕ → ℕ} {U : Set ℕ} {d : ℕ} {cs : List Str}

theorem Names.at (h : Names s U) (hd : Placed s d cs) : ∃ x y z, At s d cs x y z := by
  obtain ⟨cs', x, y, z, ha⟩ := h.place hd.mem
  obtain ⟨x', hx', hp⟩ := hd.path
  rw [ha.dentry] at hx'
  cases hx'
  obtain rfl := pathOf_inj ha.names hd.names (ha.path.symm.trans hp)
  exact ⟨x, y, z, ha⟩

theorem Names.placed_root (h : Names s U) : Placed s s.mRoot [] := by
  obtain ⟨hm, x, hx, hp⟩ := h.root
  exact ⟨hm, by simp, x, hx, hp⟩

/-- Two dentries of one path are one. -/
theorem Names.placed_unique (h : Names s U) (hd : Placed s d cs) (he : Placed s e cs) : d = e := by
  obtain ⟨x, hx, hp⟩ := hd.path
  obtain ⟨x', hx', hp'⟩ := he.path
  exact h.uniq hd.mem he.mem hx hx' (hp.trans hp'.symm)

/-- The state with nothing changed that the cache is about. -/
structure SameCache (s t : Fs) : Prop where
  dentries : t.dentries = s.dentries
  vnodes : t.vnodes = s.vnodes
  nodes : t.nodes = s.nodes
  hash : t.hash = s.hash
  mRoot : t.mRoot = s.mRoot
  next : s.next ≤ t.next

theorem At.congr {x : Dentry} {y : Vnode} {z : RamNode} (h : At s d cs x y z) (hs : SameCache s t) :
    At t d cs x y z where
  dentry := hs.dentries ▸ h.dentry
  vnode := hs.vnodes ▸ h.vnode
  node := hs.nodes ▸ h.node
  names := h.names
  path := h.path
  resolve := by rw [(SameShape.of_eq hs.nodes).resolve, h.resolve]
  type := h.type
  size := h.size
  mode := h.mode
  vRoot := h.vRoot

theorem Names.congr (h : Names s U) (hs : SameCache s t) : Names t U where
  tree := (SameShape.of_eq hs.nodes).tree h.tree hs.next
  ok := by
    rw [hs.nodes]
    exact h.ok
  root := by
    rw [hs.mRoot, hs.hash, hs.dentries]
    exact h.root
  place {d} hd := by
    rw [hs.hash] at hd
    obtain ⟨cs, x, y, z, ha⟩ := h.place hd
    exact ⟨cs, x, y, z, ha.congr hs⟩
  uniq := by
    rw [hs.hash, hs.dentries]
    exact h.uniq
  hashed := by
    rw [hs.hash, hs.dentries]
    exact h.hashed
  dead {d} hd := by
    rw [hs.hash, hs.dentries, hs.vnodes, hs.nodes]
    obtain ⟨hlt, hd⟩ := h.dead hd
    exact ⟨lt_of_lt_of_le hlt hs.next, hd⟩
  data_lt {v y} hy := by
    rw [hs.vnodes] at hy
    exact lt_of_lt_of_le (h.data_lt hy) hs.next

theorem Placed.congr (h : Placed s d cs) (hs : SameCache s t) : Placed t d cs :=
  ⟨hs.hash ▸ h.mem, h.names, hs.dentries ▸ h.path⟩

/-! ### Dentries are released -/

theorem At.released {x x' : Dentry} {y y' : Vnode} {z : RamNode} (h : At s d cs x y z) (hn : t.nodes = s.nodes)
    (hx : t.dentries d = some x') (hx' : x' = recount x x'.dRefcnt) (hy : t.vnodes x'.dVnode = some y')
    (hy' : y' = { y with vRefcnt := y'.vRefcnt }) : At t d cs x' y' z := by
  refine ⟨hx, hy, ?_, h.names, ?_, ?_, ?_, ?_, ?_, ?_⟩
  · rw [hn, hy']
    exact h.node
  · rw [hx']
    exact h.path
  · rw [(SameShape.of_eq hn).resolve, hy']
    exact h.resolve
  · rw [hy']
    exact h.type
  · rw [hy']
    exact h.size
  · rw [hy']
    exact h.mode
  · rw [hy']
    exact h.vRoot

theorem Names.released (h : Names s U) (hr : Released s t) (hn : t.nodes = s.nodes) (hm : t.mRoot = s.mRoot)
    (hc : Counts t X ∅) (hX : 0 < X t.mRoot) : Names t U := by
  have hpath {i : ℕ} {z x : Dentry} (hz : t.dentries i = some z) (hx : s.dentries i = some x) :
      z = recount x z.dRefcnt := by
    obtain ⟨z₀, hz₀, he⟩ := hr.dent hz
    rw [hx] at hz₀
    cases hz₀
    exact he
  refine ⟨?_, ?_, ?_, ?_, ?_, ?_, ?_, ?_⟩
  · exact (SameShape.of_eq hn).tree h.tree (le_of_eq hr.next.symm)
  · rw [hn]
    exact h.ok
  · obtain ⟨-, hsome⟩ := hc.ext hX
    obtain ⟨z, hz⟩ := Option.isSome_iff_exists.mp hsome
    obtain ⟨hmem, x, hx, hp⟩ := h.root
    refine ⟨hr.kept (hm ▸ hmem) hsome, z, hz, ?_⟩
    rw [hm] at hz
    rw [hpath hz hx]
    exact hp
  · intro d hd
    obtain ⟨cs, x, y, z, ha⟩ := h.place (hr.hash.subset hd)
    obtain ⟨x', hx'⟩ := Option.isSome_iff_exists.mp (hr.hashed hd (by rw [ha.dentry]; rfl))
    have he := hpath hx' ha.dentry
    obtain ⟨y', hy'⟩ := hc.vnode hx'
    obtain ⟨y₀, hy₀, hye⟩ := hr.vnode hy'
    rw [he, show (recount x x'.dRefcnt).dVnode = x.dVnode from rfl, ha.vnode] at hy₀
    cases hy₀
    exact ⟨cs, x', y', z, ha.released hn hx' he hy' hye⟩
  · intro d e x x' hd he hx hx' hp
    obtain ⟨z, hz, hzx⟩ := hr.dent hx
    obtain ⟨z', hz', hzx'⟩ := hr.dent hx'
    rw [hzx, hzx'] at hp
    exact h.uniq (hr.hash.subset hd) (hr.hash.subset he) hz hz' hp
  · intro d hd hU
    obtain ⟨z, hz⟩ := Option.isSome_iff_exists.mp hd
    obtain ⟨z₀, hz₀, -⟩ := hr.dent hz
    exact hr.kept (h.hashed (by rw [hz₀]; rfl) hU) hd
  · intro d hd
    obtain ⟨hlt, hnot, hdead⟩ := h.dead hd
    refine ⟨by rw [hr.next]; exact hlt, fun hmem => hnot (hr.hash.subset hmem), ?_⟩
    intro x y hx hy
    obtain ⟨z, hz, hzx⟩ := hr.dent hx
    obtain ⟨y₀, hy₀, hye⟩ := hr.vnode hy
    rw [hzx] at hy₀
    have hnone := hdead hz hy₀
    rw [hn, hye]
    exact hnone
  · intro v y hy
    obtain ⟨y₀, hy₀, hye⟩ := hr.vnode hy
    have hlt := h.data_lt hy₀
    rw [hr.next, hye]
    exact hlt

/-- A dentry that is left in its table stays in the hash table. -/
theorem Placed.released (h : Placed s d cs) (hr : Released s t) (hd : (t.dentries d).isSome) : Placed t d cs := by
  obtain ⟨z, hz⟩ := Option.isSome_iff_exists.mp hd
  obtain ⟨x, hx, hp⟩ := h.path
  obtain ⟨z₀, hz₀, he⟩ := hr.dent hz
  rw [hx] at hz₀
  cases hz₀
  refine ⟨hr.kept h.mem hd, h.names, z, hz, ?_⟩
  rw [he]
  exact hp

/-! ### The cache -/

/-- The counts and the names of the cache are in order. The reference of the mount to its root is not
one of `X`. -/
structure Cache (s : Fs) (X : ℕ → ℕ) (U : Set ℕ) : Prop where
  counts : Counts s (give X s.mRoot) ∅
  names : Names s U

theorem Cache.congr (h : Cache s X U) (hs : SameCache s t) : Cache t X U where
  counts := by
    rw [hs.mRoot]
    exact h.counts.congr hs.dentries hs.vnodes hs.next
  names := h.names.congr hs

theorem Cache.ref {x : Dentry} (h : Cache s X U) (hx : s.dentries d = some x) :
    dref d s = .ok ((), s.setDentry d (some (recount x (x.dRefcnt + 1)))) ∧
      Cache (s.setDentry d (some (recount x (x.dRefcnt + 1)))) (give X d) U := by
  obtain ⟨hrun, hc⟩ := h.counts.ref hx (Finset.notMem_empty d)
  have hc' : Counts (s.setDentry d (some (recount x (x.dRefcnt + 1)))) (give (give X d) s.mRoot) ∅ := by
    rw [give_comm]
    exact hc
  exact ⟨hrun, hc', h.names.released (Released.recount hx _) rfl rfl hc' (give_pos _ _)⟩

theorem take_give_comm (h : 1 ≤ X d) : take (give X e) d = give (take X d) e := by
  funext i
  by_cases hd : i = d
  · by_cases he : i = e
    · subst hd he
      simp only [take, give, Function.update_self]
      omega
    · subst hd
      simp [take, give, he]
  · by_cases he : i = e
    · subst he
      simp [take, give, hd]
    · simp [take, give, hd, he]

theorem Cache.drele (h : Cache s X U) (hX : 1 ≤ X d) :
    ∃ t, drele d s = .ok ((), t) ∧ Cache t (take X d) U ∧ Released s t ∧ Lookups s t := by
  obtain ⟨t, ht, hc, hr⟩ := drele_spec h.counts (hX.trans (le_give X s.mRoot d))
  have hl : Lookups s t := (Lookups.rules.drele d).of_run ht
  have hc' : Counts t (give (take X d) t.mRoot) ∅ := by
    rw [hl.mRoot, ← take_give_comm hX]
    exact hc
  exact ⟨t, ht, ⟨hc', h.names.released hr hl.nodes hl.mRoot hc' (give_pos _ _)⟩, hr, hl⟩

/-- What is held from outside is there. -/
theorem Cache.isSome (h : Cache s X U) (hX : 1 ≤ X d) : (s.dentries d).isSome :=
  (h.counts.ext (lt_of_lt_of_le (Nat.lt_of_lt_of_le Nat.one_pos hX) (le_give X s.mRoot d))).2

/-! ### A new dentry -/

section Add

variable {p n : ℕ} {x : Dentry} {y : Vnode} {z : RamNode} {name : Str}

/-- The vnode that `ramfs_lookup` makes for a node. -/
def newVnode (n : ℕ) (z : RamNode) : Vnode := ⟨n, z.rnType, false, 0o7777, toOff z.rnSize, 1⟩

theorem newVnode_mode (n : ℕ) (z : RamNode) : vnAccessWrite (newVnode n z) = .ok () :=
  if_neg (show ¬ (0o7777 &&& 0o222 : ℕ) = 0 by decide)

theorem addDentry_resolve (s : Fs) (p : ℕ) (x : Dentry) (path : Str) (y : Vnode) (n : ℕ) (cs : List Str) :
    (s.addDentry p x path y).resolve n cs = s.resolve n cs :=
  SameShape.resolve (SameShape.of_eq (s := s) (t := s.addDentry p x path y) rfl) n cs

/-- Old dentries stand for what they stood for. -/
theorem At.add {x₀ : Dentry} {y₀ : Vnode} {z₀ : RamNode} (hc : Counts s X ∅) (hx : s.dentries p = some x)
    (path : Str) (y : Vnode) (h : At s d cs x₀ y₀ z₀) :
    ∃ c, At (s.addDentry p x path y) d cs (recount x₀ c) y₀ z₀ := by
  have hd : d ≠ s.next + 1 := by
    have := hc.dent_lt h.dentry
    omega
  have hv : (s.addDentry p x path y).vnodes x₀.dVnode = some y₀ := by
    rw [addDentry_vnode_old _ _ _ _ _ (Nat.ne_of_lt (hc.vnode_lt h.vnode))]
    exact h.vnode
  obtain ⟨x₁, hx₁⟩ := Option.isSome_iff_exists.mp (show ((s.addDentry p x path y).dentries d).isSome by
    rw [addDentry_old _ _ _ _ _ hd, recount_isSome hx, h.dentry]
    rfl)
  rcases addDentry_inv hx hx₁ with ⟨he, -⟩ | ⟨-, z₁, hz₁, he, -⟩
  · exact absurd he hd
  · rw [h.dentry] at hz₁
    cases hz₁
    rw [he] at hx₁
    have hres := (addDentry_resolve s p x path y 0 cs).trans h.resolve
    exact ⟨_, hx₁, hv, h.node, h.names, h.path, hres, h.type, h.size, h.mode, h.vRoot⟩

/-- A dentry for a child of a directory that is in the hash table. -/
theorem Names.add (h : Names s U) (hc : Counts s X ∅) (hx : s.dentries p = some x) (hnames : ∀ c ∈ cs, IsName c)
    (hy : s.resolve 0 cs = some n) (hz : s.nodes n = some z)
    (hnew : ∀ e ∈ s.hash, ∀ w, s.dentries e = some w → w.dPath ≠ pathOf cs) :
    Names (s.addDentry p x (pathOf cs) (newVnode n z)) U := by
  have hold {i : ℕ} {w : Dentry} (hw : s.dentries i = some w) : i ≠ s.next + 1 := by
    have := hc.dent_lt hw
    omega
  have hmem {i : ℕ} (hi : i ∈ (s.addDentry p x (pathOf cs)
      (newVnode n z)).hash) : i = s.next + 1 ∨ i ∈ s.hash :=
    List.mem_cons.mp hi
  have hsize : z.rnSize = toU64 (toOff z.rnSize) := by
    have := (h.ok hz).size
    unfold toU64 toOff
    omega
  have hnew' : At (s.addDentry p x (pathOf cs) (newVnode n z)) (s.next + 1) cs
      ⟨1, pathOf cs, s.next, some p⟩ (newVnode n z) z :=
    ⟨addDentry_new .., addDentry_vnode .., hz, hnames, rfl, (addDentry_resolve ..).trans hy, rfl,
      hsize, newVnode_mode n z, fun h => by cases h⟩
  refine ⟨?_, h.ok, ?_, ?_, ?_, ?_, ?_, ?_⟩
  · refine SameShape.tree (s := s) (SameShape.of_eq ?_) h.tree (Nat.le_add_right _ 2)
    rfl
  · obtain ⟨hm, w, hw, hp⟩ := h.root
    refine ⟨List.mem_cons_of_mem _ hm, ?_⟩
    obtain ⟨cs', x', y', z', ha⟩ := h.place hm
    obtain ⟨c, ha'⟩ := ha.add hc hx (pathOf cs) (newVnode n z)
    obtain rfl : w = x' := Option.some.inj (hw.symm.trans ha.dentry)
    exact ⟨_, ha'.dentry, hp⟩
  · intro e he
    rcases hmem he with rfl | he
    · exact ⟨_, _, _, _, hnew'⟩
    · obtain ⟨cs', x', y', z', ha⟩ := h.place he
      obtain ⟨c, ha'⟩ := ha.add hc hx (pathOf cs) (newVnode n z)
      exact ⟨_, _, _, _, ha'⟩
  · intro e e' w w' he he' hw hw' hp
    have hother {i j : ℕ} {v v' : Dentry} (hi : i = s.next + 1) (hj : j ∈ s.hash)
        (hv : (s.addDentry p x (pathOf cs) (newVnode n z)).dentries i = some v)
        (hv' : (s.addDentry p x (pathOf cs) (newVnode n z)).dentries j = some v') :
        v.dPath ≠ v'.dPath := by
      subst hi
      rw [addDentry_new] at hv
      cases hv
      obtain ⟨cs', x', y', z', ha⟩ := h.place hj
      rcases addDentry_inv hx hv' with ⟨hj', -⟩ | ⟨-, v₀, hv₀, hve, -⟩
      · exact absurd hj' (hold ha.dentry)
      · rw [hve]
        exact Ne.symm (hnew j hj v₀ hv₀)
    rcases hmem he with rfl | he
    · rcases hmem he' with rfl | he'
      · rfl
      · exact absurd hp (hother rfl he' hw hw')
    · rcases hmem he' with rfl | he'
      · exact absurd hp.symm (hother rfl he hw' hw)
      · rcases addDentry_inv hx hw with ⟨rfl, -⟩ | ⟨-, w₀, hw₀, hwe, -⟩
        · obtain ⟨_, _, _, _, ha⟩ := h.place he
          exact absurd rfl (hold ha.dentry)
        · rcases addDentry_inv hx hw' with ⟨rfl, -⟩ | ⟨-, w₀', hw₀', hwe', -⟩
          · obtain ⟨_, _, _, _, ha⟩ := h.place he'
            exact absurd rfl (hold ha.dentry)
          · rw [hwe, hwe'] at hp
            exact h.uniq he he' hw₀ hw₀' hp
  · intro e he hU
    obtain ⟨w, hw⟩ := Option.isSome_iff_exists.mp he
    rcases addDentry_inv hx hw with ⟨rfl, -⟩ | ⟨-, w₀, hw₀, -⟩
    · exact List.mem_cons_self ..
    · exact List.mem_cons_of_mem _ (h.hashed (by rw [hw₀]; rfl) hU)
  · intro e he
    obtain ⟨hlt, hnot, hdead⟩ := h.dead he
    refine ⟨Nat.lt_add_right 2 hlt, fun hm => ?_, ?_⟩
    · rcases hmem hm with rfl | hm
      · omega
      · exact hnot hm
    · intro w v hw hv
      rcases addDentry_inv hx hw with ⟨rfl, -⟩ | ⟨-, w₀, hw₀, hwe, -⟩
      · omega
      · obtain ⟨v₀, hv₀⟩ := hc.vnode hw₀
        rw [hwe] at hv
        have hsame := (addDentry_vnode_old s p x (pathOf cs)
          (newVnode n z) (Nat.ne_of_lt (hc.vnode_lt hv₀))).symm.trans hv
        exact hdead hw₀ hsame
  · intro v w hw
    show w.vData < s.next + 2
    by_cases hv : v = s.next
    · subst hv
      rw [addDentry_vnode] at hw
      cases hw
      have := h.tree.node_lt hz
      show n < s.next + 2
      omega
    · rw [addDentry_vnode_old _ _ _ _ _ hv] at hw
      have := h.data_lt hw
      omega

/-- A dentry from before the new one. -/
theorem Placed.add (h : Placed s d cs) (hc : Counts s X ∅) (hx : s.dentries p = some x) :
    Placed (s.addDentry p x path y) d cs := by
  obtain ⟨w, hw, hp⟩ := h.path
  have hd : d ≠ s.next + 1 := by
    have := hc.dent_lt hw
    omega
  refine ⟨List.mem_cons_of_mem _ h.mem, h.names, ?_⟩
  obtain ⟨w', hw'⟩ := Option.isSome_iff_exists.mp (show ((s.addDentry p x path y).dentries d).isSome by
    rw [addDentry_old _ _ _ _ _ hd, recount_isSome hx, hw]
    rfl)
  rcases addDentry_inv hx hw' with ⟨he, -⟩ | ⟨-, w₀, hw₀, he, -⟩
  · exact absurd he hd
  · rw [hw] at hw₀
    cases hw₀
    exact ⟨w', hw', by rw [he]; exact hp⟩

end Add

/-! ### The allocator -/

/-- The allocator has memory for every further request. -/
def Plenty (s : Fs) : Prop := ∀ i, s.asked ≤ i → (s.mem i).granted = true

/-- A lookup, and requests to the allocator. -/
structure Onward (s t : Fs) : Prop extends Lookups s t where
  asked : s.asked ≤ t.asked

namespace Onward

theorem refl (s : Fs) : Onward s s := ⟨Lookups.refl s, le_refl _⟩

theorem trans (a b c : Fs) (h : Onward a b) (h' : Onward b c) : Onward a c :=
  ⟨Lookups.trans a b c h.toLookups h'.toLookups, h.asked.trans h'.asked⟩

theorem plenty (h : Onward s t) (hp : Plenty s) : Plenty t := fun i hi => by
  rw [h.mem]
  exact hp i (h.asked.trans hi)

theorem rules : LookupRules fun _ m => Keeps Onward m where
  pure a := Keeps.of_pure refl a
  bind h hk := Keeps.of_bind trans h hk
  fault _ := Keeps.of_fault _
  get := Keeps.of_get refl
  find f := Keeps.of_load refl f _
  putDentry d x := fun s => ⟨(Lookups.rules.putDentry d x s : _), le_refl _⟩
  putVnode v x := fun s => ⟨(Lookups.rules.putVnode v x s : _), le_refl _⟩
  setHash f := fun s => ⟨(Lookups.rules.setHash f s : _), le_refl _⟩
  kmalloc := fun s => ⟨(Lookups.rules.kmalloc s : _), Nat.le_succ _⟩
  newId := fun s => ⟨(Lookups.rules.newId s : _), le_refl _⟩

end Onward

/-- A fact about a run, with the frame of it. -/
theorem wp_keeps {α : Type} {m : FsM α} {R : Fs → Fs → Prop} {Q : α → Fs → Prop}
    (hm : Keeps R m) (h : wp m Q E s) : wp m (fun a t => Q a t ∧ R s t) E s :=
  wp_mono_fault (wp_and h (hm s)) (fun _ _ => id) fun _ => And.left

/-! ### The steps of a lookup -/

/-- `dentry_lookup`: the dentry with the path and a reference to it, or there is none. -/
theorem dentryLookup_wp (h : Cache s X U) (path : Str) :
    wp (dentryLookup path) (fun r t => match r with
      | none => t = s ∧ ∀ e ∈ s.hash, ∀ w, s.dentries e = some w → w.dPath ≠ path
      | some d => Cache t (give X d) U ∧ Released s t ∧ d ∈ t.hash ∧ ∃ x, t.dentries d = some x ∧ x.dPath = path)
      (fun _ => False) s := by
  unfold dentryLookup
  rw [wp_bind, wp_get]
  cases hf : s.hash.find? fun d => (s.dentries d).map Dentry.dPath = some path with
  | none =>
    refine ⟨rfl, fun e he w hw hp => ?_⟩
    have := List.find?_eq_none.mp hf e he
    simp [hw, hp] at this
  | some d =>
    have hd := List.find?_some hf
    obtain ⟨x, hx, hp⟩ := Option.map_eq_some_iff.mp (of_decide_eq_true hd)
    obtain ⟨hrun, hc⟩ := h.ref hx
    simp only
    rw [wp_bind, wp_ok hrun, wp_pure]
    exact ⟨hc, Released.recount hx _, List.mem_of_find?_eq_some hf, _, setDentry_self .., hp⟩

theorem findChild_ok (name : Str) {l : List ℕ} (hl : ∀ i ∈ l, (s.nodes i).isSome) :
    findChild name l s = .ok (l.find? fun i => (s.nodes i).map RamNode.rnName = some name, s) := by
  induction l with
  | nil => rfl
  | cons i l ih =>
    obtain ⟨z, hz⟩ := Option.isSome_iff_exists.mp (hl i (List.mem_cons_self ..))
    rw [findChild, bind_of_ok (getNode_ok hz), List.find?_cons, hz]
    by_cases hn : z.rnName = name
    · rw [if_pos hn, Option.map_some, hn, decide_eq_true rfl]
      rfl
    · rw [if_neg hn, Option.map_some, ih fun j hj => hl j (List.mem_cons_of_mem _ hj)]
      simp [hn]

/-- The state with a new vnode. -/
def addVnode (s : Fs) (y : Vnode) : Fs :=
  { s with vnodes := Function.update s.vnodes s.next (some y), next := s.next + 1 }

/-- `ramfs_lookup` in a directory that is there. -/
theorem ramfsLookup_wp {name : Str} {dv : Vnode} {z : RamNode} (ht : Tree s) (hz : s.nodes dv.vData = some z) :
    wp (ramfsLookup dv name) (fun r t => match r with
      | .error e => t = s ∧ e = .enoent ∧ (name ≠ [] → s.childOf dv.vData name = none)
      | .ok v => name ≠ [] ∧ v = s.next ∧ ∃ n y, s.childOf dv.vData name = some n ∧ s.nodes n = some y ∧
          t = s.ask.addVnode (newVnode n y))
      (fun e => e = .panic ∧ ¬ Plenty s) s := by
  unfold ramfsLookup
  refine wp_ite (fun h0 => ⟨rfl, rfl, fun hne => absurd h0 hne⟩) fun h0 => ?_
  rw [wp_bind, wp_ok (getNode_ok hz), wp_bind, wp_ok (findChild_ok name fun i hi => (ht.child hz hi).2)]
  have hchild : s.childOf dv.vData name =
      z.rnChild.find? fun i => (s.nodes i).map RamNode.rnName = some name := by
    rw [childOf, hz]
    rfl
  cases hf : z.rnChild.find? fun i => (s.nodes i).map RamNode.rnName = some name with
  | none => exact ⟨rfl, rfl, fun _ => hchild.trans hf⟩
  | some n =>
    simp only
    obtain ⟨y, hy⟩ := Option.isSome_iff_exists.mp (ht.child hz (List.mem_of_find?_eq_some hf)).2
    rw [wp_bind, wp_ok (kmalloc_ok s)]
    refine wp_ite (fun hg => ⟨rfl, fun hp => ?_⟩) fun _ => ?_
    · have := hp s.asked (le_refl _)
      rw [this] at hg
      cases hg
    · rw [wp_bind, wp_ok (getNode_ok (show s.ask.nodes n = some y from hy))]
      exact ⟨h0, rfl, n, y, hchild.trans hf, hy, rfl⟩

/-- The end of `childDentry`: a dentry for the new vnode `y`, or no memory for it. -/
theorem allocChild_wp {p : ℕ} {x : Dentry} {y : Vnode} (hc : Counts s X ∅) (hx : s.dentries p = some x)
    (hy : y.vRefcnt = 1) :
    wp (dentryAlloc p s.next path >>= fun dp => vput s.next >>= fun _ => match dp with
        | none => pure (.error .enomem)
        | some dp => pure (.ok dp))
      (fun (r : Except Errno ℕ) t => match r with
        | .error e => e = .enomem ∧ ¬ Plenty s ∧ SameCache s t
        | .ok d => d = s.next + 1 ∧ t = s.ask.ask.addDentry p x path y)
      (fun _ => False) (s.addVnode y) := by
  have hp : p ≠ s.next + 1 := by
    have := hc.dent_lt hx
    omega
  -- a refused request leaves only the new vnode, which `vput` frees
  have hfail (a : ℕ) : wp (vput s.next >>= fun _ => (pure (.error .enomem) : FsM (Except Errno ℕ)))
      (fun r t => match r with
        | .error e => e = .enomem ∧ ¬ Plenty s ∧ SameCache s t
        | .ok d => d = s.next + 1 ∧ t = s.ask.ask.addDentry p x path y)
      (fun _ => False) { s.addVnode y with asked := a } ↔ ¬ Plenty s := by
    have hv : ({ s.addVnode y with asked := a } : Fs).vnodes s.next = some y := Function.update_self ..
    rw [wp_bind, vput, wp_ok (vrele_ok hv), wp_pure, vdec, if_neg (by rw [hy]; decide)]
    refine ⟨fun h => h.2.1, fun h => ⟨rfl, h, rfl, ?_, rfl, rfl, rfl, Nat.le_succ _⟩⟩
    show Function.update (Function.update s.vnodes s.next (some y)) s.next none = s.vnodes
    rw [Function.update_idem, ← hc.fresh_vnode (le_refl _), Function.update_eq_self]
  unfold dentryAlloc
  rw [wp_bind, wp_bind, wp_ok (kmalloc_ok _)]
  refine wp_ite (fun hg => ?_) fun hg => ?_
  · refine (hfail _).mpr fun hpl => ?_
    rw [show (s.addVnode y).mem (s.addVnode y).asked = s.mem s.asked from rfl, hpl _ (le_refl _)] at hg
    cases hg
  rw [wp_bind, wp_ok (kmalloc_ok _)]
  refine wp_ite (fun hg' => ?_) fun hg' => ?_
  · refine (hfail _).mpr fun hpl => ?_
    rw [show (s.addVnode y).ask.mem (s.addVnode y).ask.asked = s.mem (s.asked + 1) from rfl,
      hpl _ (Nat.le_succ _)] at hg'
    cases hg'
  have hv : (s.addVnode y).ask.ask.vnodes s.next = some y := Function.update_self ..
  have hnew (a : Fs) : newId a = .ok (a.next, { a with next := a.next + 1 }) := rfl
  have hdref (a : Fs) (ha : a.dentries = s.dentries) :
      dref p a = .ok ((), a.setDentry p (some (recount x (x.dRefcnt + 1)))) := dref_ok (by rw [ha]; exact hx)
  rw [wp_bind, wp_ok (vref_ok hv), wp_bind, wp_ok (hnew _), wp_bind]
  refine (wp_ok (hdref _ ?_)).mpr ?_
  · rfl
  rw [wp_bind, wp_ok (putDentry_ok ..), wp_bind, wp_modify, wp_pure, wp_bind, vput]
  have hv' : Function.update (Function.update s.vnodes s.next (some y)) s.next
      (some { y with vRefcnt := y.vRefcnt + 1 }) s.next = some { y with vRefcnt := y.vRefcnt + 1 } :=
    Function.update_self ..
  refine (wp_ok (vrele_ok hv')).mpr ?_
  rw [wp_pure]
  refine ⟨rfl, ?_⟩
  have hy' : vdec { y with vRefcnt := y.vRefcnt + 1 } = some y := by
    have hpos : 0 < y.vRefcnt + 1 - 1 := by omega
    rw [vdec, if_pos hpos]
    simp
  rw [hy']
  show ({ s.ask.ask.addDentry p x path y with
    vnodes := Function.update (Function.update (Function.update s.vnodes s.next (some y)) s.next
      (some { y with vRefcnt := y.vRefcnt + 1 })) s.next (some y) } : Fs) = _
  rw [Function.update_idem, Function.update_idem]
  rfl

theorem vnodeOf_ok {x : Dentry} {y : Vnode} (hx : s.dentries d = some x) (hy : s.vnodes x.dVnode = some y) :
    vnodeOf d s = .ok (y, s) := by
  rw [vnodeOf, bind_of_ok (getDentry_ok hx)]
  exact getVnode_ok hy

/-- **A component.** The dentry of `name` in the directory `ddp`, from the hash table or new, with a
reference to it; `ds` are the names that lead to it. -/
theorem childDentry_wp {name : Str} {ds : List Str} (h : Cache s X U) (hd : Placed s ddp cs)
    (hX : 1 ≤ X ddp) (hds : ∀ c ∈ ds, IsName c) (hname : name ≠ [] → ds = cs ++ [name]) :
    wp (childDentry ddp name (pathOf ds)) (fun r t => Onward s t ∧ match r with
      | .ok dp => Cache t (give X dp) U ∧ Placed t ddp cs ∧ Placed t dp ds
      | .error e => Cache t X U ∧ Placed t ddp cs ∧
          (e = .enoent ∧ ds ≠ cs ∧ (name ≠ [] → s.resolve 0 ds = none) ∨ e = .enomem ∧ ¬ Plenty s))
      (fun e => e = .panic ∧ ¬ Plenty s) s := by
  suffices hmain : wp (childDentry ddp name (pathOf ds)) (fun r t => match r with
      | .ok dp => Cache t (give X dp) U ∧ Placed t ddp cs ∧ Placed t dp ds
      | .error e => Cache t X U ∧ Placed t ddp cs ∧
          (e = .enoent ∧ ds ≠ cs ∧ (name ≠ [] → s.resolve 0 ds = none) ∨ e = .enomem ∧ ¬ Plenty s))
      (fun e => e = .panic ∧ ¬ Plenty s) s from
    wp_mono (wp_keeps (Onward.rules.childDentry _ _ _) hmain) fun _ _ hq => ⟨hq.2, hq.1⟩
  obtain ⟨x, y, z, ha⟩ := h.names.at hd
  unfold childDentry
  rw [wp_bind]
  refine wp_mono_fault (dentryLookup_wp h (pathOf ds)) (fun r t hr => ?_) fun _ hf => hf.elim
  cases r with
  | some dp =>
    obtain ⟨hc, hrel, hmem, hpath⟩ := hr
    rw [wp_pure]
    have hddp : (t.dentries ddp).isSome := hc.isSome (hX.trans (le_give X dp ddp))
    exact ⟨hc, hd.released hrel hddp, hmem, hds, hpath⟩
  | none =>
    obtain ⟨ht, hnone⟩ := hr
    rw [ht, wp_bind, wp_ok (vnodeOf_ok ha.dentry ha.vnode), wp_bind]
    refine wp_mono (ramfsLookup_wp h.names.tree ha.node) fun r t hr => ?_
    cases r with
    | error e =>
      obtain ⟨ht, rfl, hchild⟩ := hr
      rw [ht]
      refine ⟨h, hd, Or.inl ⟨rfl, ?_, fun hne => ?_⟩⟩
      · rintro rfl
        exact hnone ddp hd.mem x ha.dentry ha.path
      · rw [hname hne, resolve_concat, ha.resolve]
        exact hchild hne
    | ok v =>
      obtain ⟨hne, rfl, n, w, hchild, hw, rfl⟩ := hr
      have hask : SameCache s s.ask := ⟨rfl, rfl, rfl, rfl, rfl, le_refl _⟩
      have hask3 : SameCache s s.ask.ask.ask := ⟨rfl, rfl, rfl, rfl, rfl, le_refl _⟩
      refine wp_mono_fault (allocChild_wp (h.congr hask).counts ha.dentry rfl) (fun r t hr => ?_)
        fun _ hf => hf.elim
      cases r with
      | error e =>
        obtain ⟨rfl, hpl, hsame⟩ := hr
        have hsame' : SameCache s t :=
          ⟨hsame.dentries, hsame.vnodes, hsame.nodes, hsame.hash, hsame.mRoot, hsame.next⟩
        refine ⟨h.congr hsame', hd.congr hsame', Or.inr ⟨rfl, fun hp => hpl fun i hi => hp i ?_⟩⟩
        exact (Nat.le_succ _).trans hi
      | ok dp =>
        obtain ⟨rfl, rfl⟩ := hr
        have h3 := h.congr hask3
        have hds' : s.resolve 0 ds = some n := by
          rw [hname hne, resolve_concat, ha.resolve]
          exact hchild
        have hcounts := h3.counts.alloc (y := newVnode n w) ha.dentry (pathOf ds) rfl
        have hnames := h3.names.add h3.counts ha.dentry hds
          (((SameShape.of_eq (s := s) (t := s.ask.ask.ask) rfl).resolve 0 ds).trans hds') hw hnone
        refine ⟨⟨?_, hnames⟩, (hd.congr hask3).add h3.counts ha.dentry, List.mem_cons_self .., hds, _,
          addDentry_new .., rfl⟩
        rw [give_comm]
        exact hcounts

/-! ### From a path to a dentry -/

/-- The type of the node that the names lead to. -/
def kind (s : Fs) (cs : List Str) : Option VType := (s.resolve 0 cs).bind fun n => (s.nodes n).map RamNode.rnType

theorem SameShape.kind (h : SameShape s t) : t.kind = s.kind := by
  have htype (n : ℕ) : (t.nodes n).map RamNode.rnType = (s.nodes n).map RamNode.rnType := by
    have := congrArg (Option.map fun a => a.2.1) (h n)
    rw [Option.map_map, Option.map_map] at this
    exact this
  funext cs
  simp only [Fs.kind, h.resolve, htype]

theorem Tree.kind_eq_none (h : Tree s) : s.kind cs = none ↔ s.resolve 0 cs = none := by
  constructor
  · intro hk
    by_contra hr
    obtain ⟨n, hn⟩ := Option.ne_none_iff_exists'.mp hr
    obtain ⟨z, hz⟩ := Option.isSome_iff_exists.mp (h.resolve_some hn)
    rw [kind, hn, Option.bind_some, hz] at hk
    cases hk
  · intro hr
    rw [kind, hr]
    rfl

theorem Tree.kind_nil (h : Tree s) : s.kind [] = some .dir := by
  obtain ⟨z, hz, hd⟩ := h.root
  rw [kind, resolve, Option.bind_some, hz, Option.map_some, hd]

theorem At.kind {d : ℕ} {w : Dentry} {y : Vnode} {z : RamNode} (h : At s d cs w y z) : s.kind cs = some y.vType := by
  rw [Fs.kind, h.resolve, Option.bind_some, h.node, Option.map_some, h.type]

theorem Onward.kind (h : Onward s t) : t.kind = s.kind := (SameShape.of_eq h.nodes).kind

/-- The path ends with a `/`. -/
def trailing (p : List (Str × Bool)) : Bool := p.getLast?.any Prod.snd

theorem trailing_flagged (cs : List Str) : trailing (flagged cs) = false := by
  induction cs with
  | nil => rfl
  | cons c cs ih =>
    cases cs with
    | nil => rfl
    | cons d cs =>
      rw [flagged]
      have hne : flagged (d :: cs) ≠ [] := by cases cs <;> simp [flagged]
      rw [trailing, List.getLast?_cons_of_ne_nil hne]
      exact ih

/-- What a lookup of `cs` may fail for: there is no such node, and then the error is `ENOENT` if there
is a directory for it; or it is no directory where the path ends with a `/`, or there is no memory, and
then the error is another. -/
def LookupFails (s : Fs) (cs : List Str) (slash : Bool) (e : Errno) : Prop :=
  s.resolve 0 cs = none ∧ (e = .enoent ∨ s.kind cs.dropLast ≠ some .dir) ∨
    e ≠ .enoent ∧ (slash = true ∧ s.kind cs ≠ some .dir ∨ cs ≠ [] ∧ ¬ Plenty s)

/-- What a lookup returns: a dentry in the hash table with the path of `cs`, and a reference to it, or
an error. `slash`: the path ended with a `/`. -/
def LookupPost (s : Fs) (X : ℕ → ℕ) (U : Set ℕ) (cs : List Str) (slash : Bool) (r : Except Errno ℕ) (t : Fs) : Prop :=
  Onward s t ∧ match r with
    | .ok d => Cache t (give X d) U ∧ Placed t d cs ∧ (slash = true → s.kind cs = some .dir)
    | .error e => Cache t X U ∧ LookupFails s cs slash e

theorem strlcat_eq {a b : Str} (h : a.length + b.length ≤ pathMax - 1) : strlcat a b = a ++ b := by
  unfold strlcat
  rw [List.take_of_length_le (by omega)]

/-- `drele` of a reference, as a step. -/
theorem Cache.drele_wp (h : Cache s X U) (hX : 1 ≤ X d) :
    wp (Fs.drele d) (fun _ t => Onward s t ∧ Cache t (take X d) U ∧ Released s t) E s := by
  obtain ⟨t, ht, hc, hr, -⟩ := h.drele hX
  have ho : Onward s t := (Onward.rules.drele d).of_run ht
  exact (wp_ok ht).mpr ⟨ho, hc, hr⟩

theorem not_plenty (ho : Onward s t) (h : ¬ Plenty t) : ¬ Plenty s := fun hp => h (ho.plenty hp)

theorem LookupFails.of_onward {slash : Bool} {e : Errno} (h : LookupFails t cs slash e) (ho : Onward s t) :
    LookupFails s cs slash e := by
  rw [LookupFails, ho.kind, (SameShape.of_eq ho.nodes).resolve] at h
  exact h.imp_right (And.imp_right (Or.imp_right (And.imp_right (not_plenty ho))))

theorem take_take_give (h : 1 ≤ X d) : take (take (give X e) d) e = take X d := by
  rw [take_give_comm h, take_give]

theorem Cache.resolve_none (h : Cache s X U) (hd : Placed s d cs) {x : Dentry} {y : Vnode} (hx : s.dentries d = some x)
    (hy : s.vnodes x.dVnode = some y) (hdir : y.vType ≠ .dir) {c : Str} (ds : List Str) :
    s.resolve 0 (cs ++ c :: ds) = none := by
  obtain ⟨x', y', z, ha⟩ := h.names.at hd
  obtain rfl : x = x' := Option.some.inj (hx.symm.trans ha.dentry)
  obtain rfl : y = y' := Option.some.inj (hy.symm.trans ha.vnode)
  rw [resolve_append, ha.resolve, Option.bind_some, resolve]
  rcases hch : s.childOf y.vData c with _ | m
  · rfl
  · obtain ⟨w, hw, hwd⟩ := h.names.tree.dir_of_childOf hch
    rw [ha.node] at hw
    cases hw
    exact absurd (ha.type.trans hwd) hdir

/-- What is there is in a directory. -/
theorem Tree.kind_dropLast (h : Tree s) (hcs : s.resolve 0 cs ≠ none) : s.kind cs.dropLast = some .dir := by
  rcases List.eq_nil_or_concat cs with rfl | ⟨ds, c, rfl⟩
  · exact h.kind_nil
  rw [List.concat_eq_append, resolve_concat] at hcs
  obtain ⟨m, hm⟩ := Option.ne_none_iff_exists'.mp hcs
  obtain ⟨n, hn, hc⟩ := Option.bind_eq_some_iff.mp hm
  obtain ⟨z, hz, hd⟩ := h.dir_of_childOf hc
  rw [List.concat_eq_append, List.dropLast_concat, kind, hn, Option.bind_some, hz, Option.map_some, hd]

/-- What the walk from `ddp` returns, which gives up the reference to `ddp`. -/
def WalkPost (s : Fs) (X : ℕ → ℕ) (U : Set ℕ) (ddp : ℕ) (cs : List Str) (slash : Bool) (r : Except Errno (ℕ ⊕ Str))
    (t : Fs) : Prop :=
  Onward s t ∧ match r with
    | .ok (.inl d) => Cache t (give (take X ddp) d) U ∧ Placed t d cs ∧ (slash = true → s.kind cs = some .dir)
    | .ok (.inr _) => False
    | .error e => Cache t (take X ddp) U ∧ LookupFails s cs slash e

theorem trailing_cons (c : Str × Bool) (comps : List (Str × Bool)) :
    trailing (c :: comps) = if comps = [] then c.2 else trailing comps := by
  cases comps with
  | nil => rfl
  | cons c comps => simp [trailing]

/-- The rest of the walk, once a component was found and the directory before it released. -/
theorem WalkPost.cons {u : Fs} {dp : ℕ} {c : Str × Bool} {r : Except Errno (ℕ ⊕ Str)}
    (hX : 1 ≤ X ddp) (ho : Onward s u) (hlast : comps = [] → c.2 = true → s.kind cs = some .dir)
    (h : WalkPost u (take (give X dp) ddp) U dp cs (trailing comps) r t) :
    WalkPost s X U ddp cs (trailing (c :: comps)) r t := by
  obtain ⟨ho', h⟩ := h
  have htake : take (take (give X dp) ddp) dp = take X ddp := take_take_give hX
  rw [htake, ho.kind] at h
  refine ⟨Onward.trans s u t ho ho', ?_⟩
  rw [trailing_cons]
  rcases r with e | (d | fp)
  · refine ⟨h.1, (h.2.of_onward ho).imp_right (And.imp_right (Or.imp_left fun hs => ⟨?_, hs.2⟩))⟩
    rw [if_neg, hs.1]
    rintro rfl
    exact Bool.false_ne_true hs.1
  · refine ⟨h.1, h.2.1, fun hs => ?_⟩
    by_cases hcomps : comps = []
    · rw [if_pos hcomps] at hs
      exact hlast hcomps hs
    · rw [if_neg hcomps] at hs
      exact h.2.2 hs
  · exact h

/-- A file in the middle of the path, or at the end with a slash behind it. -/
theorem WalkPost.notDir {u : Fs} {dp : ℕ} {c : Str × Bool} {x : Dentry} {y : Vnode}
    {z : RamNode} (hX : 1 ≤ X ddp) (ho : Onward s u) (hc : Cache u (take (give X dp) ddp) U) (hp : Placed u dp cs)
    (ha : At u dp cs x y z) (hslash : c.2 = true) (hdir : y.vType ≠ .dir) :
    wp (Fs.drele dp >>= fun _ => pure (.error .enotdir))
      (WalkPost s X U ddp (cs ++ comps.map Prod.fst) (trailing (c :: comps))) E u := by
  have hX' : 1 ≤ take (give X dp) ddp dp := by
    rw [take_give_comm hX]
    exact give_pos ..
  rw [wp_bind]
  refine wp_mono (hc.drele_wp hX') fun _ v hv => ?_
  obtain ⟨ho', hc', -⟩ := hv
  rw [take_take_give hX] at hc'
  refine ⟨Onward.trans s u v ho ho', hc', ?_⟩
  rw [trailing_cons]
  have hk : s.kind cs ≠ some .dir := by
    rw [← ho.kind, ha.kind]
    simpa using hdir
  have hnone {e : Str} (ds : List Str) : s.resolve 0 (cs ++ e :: ds) = none := by
    rw [← (SameShape.of_eq ho.nodes).resolve]
    exact hc.resolve_none hp ha.dentry ha.vnode hdir _
  cases comps with
  | nil =>
    refine Or.inr ⟨by decide, Or.inl ⟨hslash, ?_⟩⟩
    rwa [List.map_nil, List.append_nil]
  | cons c' comps =>
    refine Or.inl ⟨hnone _, Or.inr ?_⟩
    rw [List.map_cons, List.dropLast_append_of_ne_nil (by simp)]
    cases comps with
    | nil => rwa [List.map_nil, List.dropLast_singleton, List.append_nil]
    | cons c'' comps =>
      rw [List.map_cons, List.dropLast_cons_cons, kind, hnone]
      simp

/-- **The walk.** By induction on the components: each is looked up in the directory before, which is
then released. The reference to the directory it starts from is given up. -/
theorem walk_wp (fp : Str) (len : ℕ) {dp : Option ℕ} (h : Cache s X U)
    (hd : Placed s ddp cs) (hX : 1 ≤ X ddp) (hnames : ∀ c ∈ comps, IsName c.1)
    (hlen : (join (cs ++ comps.map Prod.fst)).length ≤ pathMax - 1) (hnone : dp = none → comps ≠ [])
    (hsome : ∀ d, dp = some d → d = ddp) :
    wp (walk fp len ddp dp (join cs) comps) (WalkPost s X U ddp (cs ++ comps.map Prod.fst) (trailing comps))
      (fun e => e = .panic ∧ ¬ Plenty s) s := by
  induction comps generalizing s X ddp dp cs with
  | nil =>
    rcases dp with _ | d
    · exact absurd rfl (hnone rfl)
    · obtain rfl := hsome d rfl
      have hgive : give (take X d) d = X := by
        rw [← take_give_comm hX, take_give]
      rw [walk, wp_pure]
      refine ⟨Onward.refl s, ?_⟩
      simp only [hgive, List.map_nil, List.append_nil]
      exact ⟨h, hd, nofun⟩
  | cons c comps ih =>
    obtain ⟨name, slash⟩ := c
    have hname : IsName name := hnames _ (List.mem_cons_self ..)
    have hrest : ∀ c ∈ comps, IsName c.1 := fun c hc => hnames c (List.mem_cons_of_mem _ hc)
    have happ : cs ++ ((name, slash) :: comps).map Prod.fst = (cs ++ [name]) ++ comps.map Prod.fst := by
      simp
    rw [happ] at hlen ⊢
    have hnode : strlcat (strlcat (join cs) ['/']) name = join (cs ++ [name]) := by
      rw [join_append, join_concat, List.length_append, List.length_append, List.length_append] at hlen
      rw [strlcat_eq (a := join cs) (by omega), strlcat_eq (by rw [List.length_append]; omega), join_concat]
    have hpath : join (cs ++ [name]) = pathOf (cs ++ [name]) := by
      rw [pathOf_concat, join_concat]
    have hds : ∀ c ∈ cs ++ [name], IsName c := by
      intro c hc
      rcases List.mem_append.mp hc with hc | hc
      · exact hd.names c hc
      · rw [List.mem_singleton.mp hc]
        exact hname
    rw [walk, hnode, wp_bind, hpath]
    refine wp_mono (childDentry_wp h hd hX hds fun _ => rfl) fun r t ht => ?_
    obtain ⟨ho, ht⟩ := ht
    cases r with
    | error e =>
      obtain ⟨hc, hdt, hwhy⟩ := ht
      simp only
      rw [wp_bind]
      refine wp_mono (hc.drele_wp hX) fun _ u hu => ?_
      obtain ⟨ho', hc', -⟩ := hu
      refine ⟨Onward.trans s t u ho ho', hc', ?_⟩
      rcases hwhy with ⟨rfl, -, hres⟩ | ⟨rfl, hpl⟩
      · refine Or.inl ⟨?_, Or.inl rfl⟩
        rw [resolve_append, hres hname.ne]
        rfl
      · exact Or.inr ⟨by decide, Or.inr ⟨by simp, hpl⟩⟩
    | ok dp =>
      obtain ⟨hc, hdt, hdp⟩ := ht
      have hX' : 1 ≤ give X dp ddp := hX.trans (le_give X dp ddp)
      simp only
      rw [wp_bind]
      refine wp_mono (hc.drele_wp hX') fun _ u hu => ?_
      obtain ⟨ho', hc', hrel⟩ := hu
      have ho2 : Onward s u := Onward.trans s t u ho ho'
      have hX2 : 1 ≤ take (give X dp) ddp dp := by
        rw [take_give_comm hX]
        exact give_pos ..
      have hdp' : Placed u dp (cs ++ [name]) := hdp.released hrel (hc'.isSome hX2)
      obtain ⟨x, y, z, ha⟩ := hc'.names.at hdp'
      rw [wp_bind, wp_ok (vnodeOf_ok ha.dentry ha.vnode)]
      refine wp_ite (fun hl => ?_) fun _ => wp_ite (fun hsl => ?_) fun hsl => ?_
      · exact absurd (ha.type.symm.trans hl) (hc'.names.tree.noLink ha.node)
      · exact WalkPost.notDir (c := (name, slash)) hX ho2 hc' hdp' ha hsl.1 hsl.2
      · rw [← hpath]
        refine wp_mono_fault (ih hc' hdp' hX2 hrest hlen (by simp) (by simp)) (fun r v hv => ?_) fun e he =>
          ⟨he.1, not_plenty ho2 he.2⟩
        refine WalkPost.cons (c := (name, slash)) hX ho2 (fun hcomps hs => ?_) hv
        have hdir : y.vType = .dir := by
          by_contra hdir
          exact hsl ⟨hs, hdir⟩
        rw [hcomps, List.map_nil, List.append_nil, ← ho2.kind, ha.kind, hdir]

/-- The names in a path. -/
def namesOf (p : Str) : List Str := (components [] p).map Prod.fst

theorem namesOf_isName (p : Str) : ∀ c ∈ namesOf p, IsName c := by
  intro c hc
  obtain ⟨x, hx, rfl⟩ := List.mem_map.mp hc
  exact components_isName (by simp) p x hx

theorem findRoot_some {p : Str} (h : findRoot path = some p) : p.length + 1 ≤ path.length := by
  unfold findRoot at h
  split at h
  · rename_i hh
    cases path with
    | nil => cases hh
    | cons a path =>
      cases h
      split
      · rw [List.tail_cons, List.length_tail, List.length_cons]
        omega
      · rw [List.tail_cons, List.length_cons]
  · cases h

theorem strlcpy_length (path : Str) : (strlcpy path).length ≤ pathMax - 1 := List.length_take_le ..

/-- The path is one of slashes only, and is not the root. -/
def Slashes (path : Str) : Prop := ∃ p, findRoot (strlcpy path) = some p ∧ components [] p = [] ∧ p ≠ []

/-- **`namei`.** -/
theorem namei_wp (h : Cache s X U) (path : Str) :
    wp (namei path) (fun r t => match findRoot (strlcpy path) with
      | none => t = s ∧ r = .error .enotdir
      | some p => (components [] p = [] → p = []) ∧ LookupPost s X U (namesOf p) (trailing (components [] p)) r t)
      (fun e => e = .panic ∧ ¬ Plenty s ∨ e = .null ∧ Slashes path) s := by
  unfold namei
  rw [nameiLoop]
  cases hp : findRoot (strlcpy path) with
  | none => exact ⟨rfl, rfl⟩
  | some p =>
    have hlen : p.length + 1 ≤ pathMax - 1 := (findRoot_some hp).trans (strlcpy_length path)
    have hcat : strlcat ['/'] p = '/' :: p := strlcat_eq (by rw [List.length_singleton]; omega)
    simp only [hcat]
    rw [wp_bind]
    refine wp_mono_fault (wp_keeps (Onward.rules.dentryLookup _) (dentryLookup_wp h ('/' :: p))) (fun r t hr => ?_)
      fun _ hf => hf.elim
    obtain ⟨hr, ho⟩ := hr
    cases r with
    | some d =>
      obtain ⟨hc, -, hmem, x, hx, hpath⟩ := hr
      obtain ⟨cs, x', y, z, ha⟩ := hc.names.place hmem
      obtain rfl : x = x' := Option.some.inj (hx.symm.trans ha.dentry)
      have htail : p = (pathOf cs).tail := by
        rw [← ha.path, hpath]
        rfl
      have hcomps : components [] p = flagged cs := by
        rw [htail, components_pathOf ha.names]
      have hcs : namesOf p = cs := by
        rw [namesOf, hcomps, flagged_fst]
      refine ⟨fun h0 => ?_, ho, hc, ⟨hmem, namesOf_isName p, x, hx, ?_⟩, fun hs => ?_⟩
      · rw [namesOf, h0] at hcs
        rw [htail, ← hcs]
        rfl
      · rw [hcs]
        exact ha.path
      · rw [hcomps, trailing_flagged] at hs
        cases hs
    | none =>
      obtain ⟨ht, hno⟩ := hr
      have hplaced := h.names.placed_root
      obtain ⟨x, hx, hxp⟩ := hplaced.path
      obtain ⟨hrun, hc⟩ := h.ref hx
      have hne : p ≠ [] := by
        rintro rfl
        exact hno s.mRoot hplaced.mem x hx hxp
      rw [ht]
      simp only
      rw [wp_bind, wp_get, wp_bind, wp_ok hrun, wp_bind]
      by_cases hcomps : components [] p = []
      · -- nothing to walk over, and no dentry at the end
        rw [hcomps]
        exact Or.inr ⟨rfl, p, hp, hcomps, hne⟩
      have hone : Onward s (s.setDentry s.mRoot (some (recount x (x.dRefcnt + 1)))) :=
        (Onward.rules.dref s.mRoot).of_run hrun
      have hroot' : Placed (s.setDentry s.mRoot (some (recount x (x.dRefcnt + 1)))) s.mRoot [] :=
        hc.names.placed_root
      have hjoin : (join ([] ++ namesOf p)).length ≤ pathMax - 1 := by
        have hl := components_length [] p
        rw [List.nil_append, namesOf]
        rw [List.length_nil] at hl
        omega
      refine wp_mono_fault (walk_wp _ _ hc hroot' (give_pos ..) (components_isName (by simp) p) hjoin
        (fun _ => hcomps) (by simp)) (fun r u hu => ?_) fun e he =>
          Or.inl ⟨he.1, not_plenty hone he.2⟩
      obtain ⟨ho', hu⟩ := hu
      have hon := Onward.trans _ _ _ hone ho'
      rw [take_give, List.nil_append] at hu
      have hroot (h0 : components [] p = []) : p = [] := absurd h0 hcomps
      rcases r with e | (d | fp)
      · exact ⟨hroot, hon, hu.1, hu.2.of_onward hone⟩
      · refine ⟨hroot, hon, hu.1, hu.2.1, fun hs => ?_⟩
        rw [← hone.kind]
        exact hu.2.2 hs
      · exact hu.elim

/-- The path of the directory in `lookup`. -/
def dirPath (dir : Str) : Str := if dir = [] then ['/'] else dir

/-- `lookup` has no path to look up. -/
def NoDir (path : Str) : Prop :=
  path ≠ [] ∧ (lastSlash (strlcpy path) = none ∨ lastSlash path = none ∨
    ∃ dir base, lastSlash (strlcpy path) = some (dir, base) ∧ Slashes (dirPath dir))

/-- **`lookup`.** The directory of a path, with a reference to it, and the name in it. -/
theorem lookup_wp (h : Cache s X U) (path : Str) :
    wp (lookup path) (fun r t => Onward s t ∧ match r with
      | .ok (ddp, name) => ∃ dir base dir' p x y, lastSlash (strlcpy path) = some (dir, base) ∧
          lastSlash path = some (dir', name) ∧ findRoot (strlcpy (dirPath dir)) = some p ∧
          (components [] p = [] → p = []) ∧ Cache t (give X ddp) U ∧ Placed t ddp (namesOf p) ∧ t.dentries ddp = some x ∧
          t.vnodes x.dVnode = some y ∧ y.vType = .dir
      | .error _ => Cache t X U ∧ (path = [] ∨ ∃ dir base dir' name, lastSlash (strlcpy path) = some (dir, base) ∧
          lastSlash path = some (dir', name) ∧
          ∀ p, findRoot (strlcpy (dirPath dir)) = some p → Plenty s → s.kind (namesOf p) ≠ some .dir))
      (fun e => e = .panic ∧ ¬ Plenty s ∨ e = .null ∧ NoDir path) s := by
  unfold lookup
  refine wp_ite (fun h0 => ⟨Onward.refl s, h, Or.inl h0⟩) fun h0 => ?_
  rcases hl : lastSlash (strlcpy path) with _ | ⟨dir, base⟩
  · exact Or.inr ⟨rfl, h0, Or.inl hl⟩
  rcases hl' : lastSlash path with _ | ⟨dir', name⟩
  · exact Or.inr ⟨rfl, h0, Or.inr (Or.inl hl')⟩
  simp only
  rw [wp_bind]
  refine wp_mono_fault (namei_wp h (dirPath dir)) (fun r t hr => ?_) fun e he =>
    he.imp_right fun hn => ⟨hn.1, h0, Or.inr (Or.inr ⟨dir, base, hl, hn.2⟩)⟩
  rcases hp : findRoot (strlcpy (dirPath dir)) with _ | p
  · rw [hp] at hr
    obtain ⟨rfl, rfl⟩ := hr
    refine ⟨Onward.refl _, h, Or.inr ⟨dir, base, dir', name, rfl, rfl, fun p hp' => ?_⟩⟩
    rw [hp] at hp'
    cases hp'
  rw [hp] at hr
  obtain ⟨hroot, ho, hr⟩ := hr
  cases r with
  | error e =>
    refine ⟨ho, hr.1, Or.inr ⟨dir, base, dir', name, rfl, rfl, fun p₁ hp₁ hpl hk => ?_⟩⟩
    obtain rfl : p = p₁ := Option.some.inj (hp.symm.trans hp₁)
    rcases hr.2 with ⟨hno, -⟩ | ⟨-, ⟨-, hs⟩ | hq⟩
    · rw [h.names.tree.kind_eq_none.mpr hno] at hk
      cases hk
    · exact hs hk
    · exact hq.2 hpl
  | ok ddp =>
    obtain ⟨hc, hheld, -⟩ := hr
    obtain ⟨x, y, z, ha⟩ := hc.names.at hheld
    simp only
    rw [wp_bind, wp_ok (vnodeOf_ok ha.dentry ha.vnode)]
    refine wp_ite (fun hnd => ?_) fun hdir => ?_
    · rw [wp_bind]
      refine wp_mono (hc.drele_wp (give_pos ..)) fun _ u hu => ?_
      obtain ⟨ho', hc', -⟩ := hu
      rw [take_give] at hc'
      refine ⟨Onward.trans s t u ho ho', hc', Or.inr ⟨dir, base, dir', name, rfl, rfl, fun p₁ hp₁ _ hk => ?_⟩⟩
      obtain rfl : p = p₁ := Option.some.inj (hp.symm.trans hp₁)
      rw [← ho.kind, ha.kind] at hk
      exact hnd (Option.some.inj hk)
    · exact ⟨ho, dir, base, dir', p, x, y, rfl, rfl, hp, hroot, hc, hheld, ha.dentry, ha.vnode, not_not.mp hdir⟩

/-! ### The first state -/

section Init

variable (mem : ℕ → Answer) (addr : ℕ → ℕ) (around : ℤ → Bool)

theorem init_tree : Tree (Fs.init mem addr around) := by
  have hnode {n : ℕ} {x : RamNode} (hx : (Fs.init mem addr around).nodes n = some x) :
      n = 0 ∧ x = ⟨['/'], .dir, none, 0, 0, []⟩ := by
    simpa [Fs.init, eq_comm] using hx
  refine ⟨⟨_, rfl, rfl⟩, ?_, ?_, ?_, ?_, ?_, ?_⟩
  · intro n x hx
    rw [(hnode hx).1]
    exact Nat.succ_pos 3
  · intro n x c hx hc
    rw [(hnode hx).2] at hc
    cases hc
  · intro n x hx _
    rw [(hnode hx).2]
  · intro n x hx
    rw [(hnode hx).2]
    simp
  · intro n x hx
    rw [(hnode hx).2]
    exact List.nodup_nil
  · intro n m x y c hx _ hc
    rw [(hnode hx).2] at hc
    cases hc

theorem init_counts : Counts (Fs.init mem addr around) (give (fun _ => 0) 2) ∅ := by
  have hdent {d : ℕ} {x : Dentry} (hx : (Fs.init mem addr around).dentries d = some x) :
      d = 2 ∧ x = ⟨1, ['/'], 1, none⟩ := by
    simpa [Fs.init, eq_comm] using hx
  have hvnode {v : ℕ} {y : Vnode} (hy : (Fs.init mem addr around).vnodes v = some y) :
      v = 1 ∧ y = ⟨0, .dir, true, 0o40700, 0, 1⟩ := by
    simpa [Fs.init, eq_comm] using hy
  have hkids (d : ℕ) : (Fs.init mem addr around).kids ∅ d = 0 := by
    refine held_eq_zero.mpr fun i _ => ?_
    simp only [kidOwn, Fs.init, Finset.notMem_empty, if_false]
    split <;> simp
  refine ⟨?_, ?_, ?_, ?_, ?_, ?_, ?_⟩
  · intro d x hx
    rw [(hdent hx).1]
    show 2 < 4
    norm_num
  · intro v y hy
    rw [(hvnode hy).1]
    show 1 < 4
    norm_num
  · intro d x hx
    rw [(hdent hx).2]
    exact ⟨_, rfl⟩
  · intro v y hy
    obtain ⟨rfl, rfl⟩ := hvnode hy
    have : (Fs.init mem addr around).vrefs 1 = 1 := by
      rw [vrefs, show (Fs.init mem addr around).next = 4 from rfl, held_succ, held_succ, held_succ, held_succ]
      simp [held, vnodeOwn, Fs.init]
    rw [this]
    rfl
  · intro d x p hx _ hp
    rw [(hdent hx).2] at hp
    cases hp
  · intro d x hx _
    obtain ⟨rfl, rfl⟩ := hdent hx
    rw [hkids]
    decide
  · intro d hd
    by_cases h2 : d = 2
    · subst h2
      exact ⟨Finset.notMem_empty 2, rfl⟩
    · simp [give, h2] at hd

/-- **The cache is in order after `vfs_init`.** -/
theorem Cache.init : Cache (Fs.init mem addr around) (fun _ => 0) ∅ where
  counts := init_counts mem addr around
  names := by
    have hat : At (Fs.init mem addr around) 2 [] ⟨1, ['/'], 1, none⟩ ⟨0, .dir, true, 0o40700, 0, 1⟩
        ⟨['/'], .dir, none, 0, 0, []⟩ :=
      ⟨rfl, rfl, rfl, by simp, rfl, rfl, rfl, rfl, if_neg (by decide), fun _ => rfl⟩
    refine ⟨init_tree mem addr around, ?_, ⟨List.mem_singleton_self 2, _, rfl, rfl⟩, ?_, ?_, ?_, ?_, ?_⟩
    · intro n z hz
      obtain ⟨rfl, rfl⟩ : n = 0 ∧ z = ⟨['/'], .dir, none, 0, 0, []⟩ := by simpa [Fs.init, eq_comm] using hz
      exact ⟨by norm_num, fun h => absurd h (lt_irrefl 0), fun h => absurd h (lt_irrefl 0)⟩
    · intro d hd
      obtain rfl := List.mem_singleton.mp hd
      exact ⟨_, _, _, _, hat⟩
    · intro d e x x' hd he _ _ _
      rw [List.mem_singleton.mp hd, List.mem_singleton.mp he]
    · intro d hd _
      refine List.mem_singleton.mpr ?_
      by_contra h2
      simp [Fs.init, h2] at hd
    · intro d hd
      cases hd
    · intro v y hy
      obtain ⟨-, rfl⟩ : v = 1 ∧ y = ⟨0, .dir, true, 0o40700, 0, 1⟩ := by simpa [Fs.init, eq_comm] using hy
      exact Nat.succ_pos 3

end Init

end Fs
end Coffer
