/-
# Opening a file

`sys_open` finds the dentry of a path, or makes the node first, and makes a file object that holds a reference to the
dentry. The cache stays in order, with one more reference for the new file (`sysOpen_wp`). The path is one that
`task_conv` returns: names with a `/` before each, and perhaps one at the end (`Clean`).

Key definitions: `Framed`, `Clean`, `OpenResult`.
Key theorems: `Cache.setRamFile`, `openDentry_wp`, `sysOpen_wp`.
-/
import Coffer.Vfs.Conv
import Coffer.Vfs.Create
import Coffer.Vfs.View

namespace Coffer
namespace Fs

open Lib Lib.Cmd

variable {flags : Flags}

variable {s t : Fs} {X : ℕ → ℕ} {U : Set ℕ} {d : ℕ} {cs : List Str} {name : Str} {type : VType}

/-! ### The contents of a file -/

section Contents

variable {x : Dentry} {y : Vnode} {z : RamNode} {file : RamFile}

/-- Sizes of vnodes do not matter to the counts. -/
theorem Counts.setRamFile {Z : Finset ℕ} {v : ℕ} (h : Counts s X Z) (hy : s.vnodes v = some y) (z : RamNode)
    (file : RamFile) : Counts (s.setRamFile v y z file) X Z := by
  have hv {i : ℕ} {w : Vnode} (hw : (s.setRamFile v y z file).vnodes i = some w) :
      ∃ w₀, s.vnodes i = some w₀ ∧ w.vRefcnt = w₀.vRefcnt := by
    by_cases hi : i = v
    · subst hi
      rw [setRamFile_vnode] at hw
      cases hw
      exact ⟨y, hy, rfl⟩
    · rw [setRamFile_vnode_other s y z file hi] at hw
      exact ⟨w, hw, rfl⟩
  refine ⟨h.dent_lt, fun hw => ?_, fun hx => ?_, fun hw => ?_, h.parent, h.count, h.ext⟩
  · obtain ⟨w₀, hw₀, -⟩ := hv hw
    exact h.vnode_lt hw₀
  · obtain ⟨w, hw⟩ := h.vnode hx
    rename_i i x
    by_cases hi : x.dVnode = v
    · rw [hi]
      exact ⟨_, setRamFile_vnode ..⟩
    · exact ⟨w, (setRamFile_vnode_other s y z file hi).trans hw⟩
  · obtain ⟨w₀, hw₀, he⟩ := hv hw
    rw [he]
    exact h.vcount hw₀

/-- **New contents keep the cache in order**: no other dentry in the hash table stands for the node. -/
theorem Cache.setRamFile (h : Cache s X U) (hp : Placed s d cs) (ha : At s d cs x y z)
    (hsize : file.rnSize = toU64 file.vSize) (hok : (withFileNode z file).Ok) :
    Cache (s.setRamFile x.dVnode y z file) X U where
  counts := h.counts.setRamFile ha.vnode z file
  names := by
    have hshape := setRamFile_shape ha.node x.dVnode file
    have hself {e : ℕ} {es : List Str} {w : Dentry} {u : Vnode} {q : RamNode} (he : e ∈ s.hash) (hb : At s e es w u q)
        (hu : u.vData = y.vData) : e = d := by
      have hes : es = cs := resolve_unique h.names.tree hb.resolve (by rw [hu]; exact ha.resolve)
      exact h.names.uniq he hp.mem hb.dentry ha.dentry (by rw [hb.path, ha.path, hes])
    refine ⟨hshape.tree h.names.tree le_rfl, ?_, h.names.root, ?_, h.names.uniq, h.names.hashed, ?_, ?_⟩
    · intro n q hq
      by_cases hn : n = y.vData
      · subst hn
        rw [setRamFile_node] at hq
        cases hq
        exact hok
      · rw [setRamFile_node_other s x.dVnode z file hn] at hq
        exact h.names.ok hq
    · intro e he
      obtain ⟨es, w, u, q, hb⟩ := h.names.place he
      by_cases hu : u.vData = y.vData
      · obtain rfl := hself he hb hu
        obtain rfl : x = w := Option.some.inj (ha.dentry.symm.trans hb.dentry)
        obtain rfl : y = u := Option.some.inj (ha.vnode.symm.trans hb.vnode)
        refine ⟨es, x, { y with vSize := file.vSize }, withFileNode z file, hb.dentry, setRamFile_vnode .., ?_, hb.names,
          hb.path, (hshape.resolve 0 es).trans hb.resolve, ha.type, hsize, hb.mode, hb.vRoot⟩
        exact setRamFile_node ..
      · have hv : w.dVnode ≠ x.dVnode := by
          intro hv
          have huy := hb.vnode
          rw [hv, ha.vnode] at huy
          cases huy
          exact hu rfl
        exact ⟨es, w, u, q, hb.dentry, (setRamFile_vnode_other s y z file hv).trans hb.vnode,
          (setRamFile_node_other s x.dVnode z file hu).trans hb.node, hb.names, hb.path,
          (hshape.resolve 0 es).trans hb.resolve, hb.type, hb.size, hb.mode, hb.vRoot⟩
    · intro e he
      obtain ⟨hlt, hnot, hdead⟩ := h.names.dead he
      refine ⟨hlt, hnot, fun {w u} hw hu => ?_⟩
      -- a dentry whose node is gone does not stand for this one
      by_cases hv : w.dVnode = x.dVnode
      · have hnone := hdead hw (hv ▸ ha.vnode)
        rw [ha.node] at hnone
        cases hnone
      · have hu' := (setRamFile_vnode_other s y z file hv).symm.trans hu
        have hnone := hdead hw hu'
        have hne : u.vData ≠ y.vData := by
          intro he
          rw [he, ha.node] at hnone
          cases hnone
        exact (setRamFile_node_other s x.dVnode z file hne).trans hnone
    · intro v u hu
      by_cases hv : v = x.dVnode
      · subst hv
        rw [setRamFile_vnode] at hu
        cases hu
        have hlt := h.names.data_lt ha.vnode
        exact hlt
      · rw [setRamFile_vnode_other s y z file hv] at hu
        exact h.names.data_lt hu

theorem Placed.setRamFile {e : ℕ} {es : List Str} (h : Placed s e es) (v : ℕ) (y : Vnode) (z : RamNode) (file : RamFile) :
    Placed (s.setRamFile v y z file) e es := ⟨h.mem, h.names, h.path⟩

end Contents

/-! ### Contents in order -/

section Order

variable {z : RamNode} {v : Vnode} {file : RamFile} {copies : List Copy} {a : Answer}

/-- `ramfs_truncate` leaves a node in order. -/
theorem truncate_order (hz : z.Ok) {length : ℤ} (hr : (ramFile z v).truncate length a = .ok (file, copies)) :
    file.rnSize = toU64 file.vSize ∧ (withFileNode z file).Ok := by
  obtain ⟨hsize, hv⟩ := RamFile.truncate_sizes hr
  have hlt : toU64 length < 2 ^ 64 := by unfold toU64; omega
  suffices hb : (0 < file.rnBufsize → file.rnBuf.isSome) ∧ (0 < file.rnSize → file.rnBuf.isSome) from
    ⟨by rw [hsize, hv], by show file.rnSize < _; rw [hsize]; exact hlt, hb.1, hb.2⟩
  rw [hsize]
  unfold RamFile.truncate at hr
  dsimp only at hr
  split at hr
  · rename_i h0
    simp only [Except.ok.injEq, Prod.mk.injEq] at hr
    rw [← hr.1, h0]
    refine ⟨fun hpos => ?_, fun hpos => absurd hpos (by decide)⟩
    by_cases hbuf : (ramFile z v).rnBuf.isSome = true
    · rw [if_pos hbuf] at hpos
      exact absurd hpos (lt_irrefl 0)
    · rw [if_neg hbuf] at hpos
      exact absurd (hz.buf hpos) hbuf
  split at hr
  · split at hr
    · cases hr
    · simp only [Except.ok.injEq, Prod.mk.injEq] at hr
      rw [← hr.1]
      have hsome (g : RamFile) (b : ℕ → UInt8) (k : ℕ) (l : ℤ) : ((g.replaceBuf b k).1.setSize l).rnBuf.isSome := by
        unfold RamFile.replaceBuf
        split <;> rfl
      exact ⟨fun _ => hsome .., fun _ => hsome ..⟩
  · rename_i hle
    simp only [Except.ok.injEq, Prod.mk.injEq] at hr
    rw [← hr.1]
    exact ⟨hz.buf, fun hpos => hz.buf (lt_of_lt_of_le hpos (not_lt.mp hle))⟩

/-- The expansion for a write that ends below `2 ^ 63` leaves a buffer, and both sizes at the end of the write. -/
theorem expand_order {f f' : RamFile} (hbuf : f.rnBuf.isSome ∨ f.rnBufsize = 0) {endPos : ℤ} (hpos : 0 < endPos ∨ f.rnBuf.isSome)
    (hr : f.expand endPos a = .ok (f', copies)) :
    f'.rnBuf.isSome ∧ f'.rnSize = toU64 endPos ∧ f'.vSize = endPos := by
  unfold RamFile.expand at hr
  split at hr
  · split at hr
    · cases hr
    · simp only [Except.ok.injEq, Prod.mk.injEq] at hr
      rw [← hr.1]
      refine ⟨?_, rfl, rfl⟩
      unfold RamFile.replaceBuf
      split <;> rfl
  · rename_i hle
    simp only [Except.ok.injEq, Prod.mk.injEq] at hr
    rw [← hr.1]
    refine ⟨?_, rfl, rfl⟩
    rcases hbuf with hbuf | h0
    · exact hbuf
    rcases hpos with hpos | hbuf
    · rw [h0] at hle
      have : toOff ((0 : ℕ) : ℤ) = 0 := by decide
      rw [this] at hle
      exact absurd hpos hle
    · exact hbuf

/-- `ramfs_write` leaves a node in order, if it ends below `2 ^ 63`. -/
theorem write_order (hz : z.Ok) (hsz : z.rnSize = toU64 v.vSize) {offset : ℤ} {data : List UInt8} {append : Bool}
    (hfit : (ramFile z v).writeOffset offset append + data.length < 2 ^ 63)
    (hr : (ramFile z v).write offset data append a = .ok (file, copies)) :
    file.rnSize = toU64 file.vSize ∧ (withFileNode z file).Ok := by
  have hsame : (withFileNode z (ramFile z v)).Ok := ⟨hz.size, hz.buf, hz.shown⟩
  have hmove (g : RamFile) (o : ℤ) : (g.uiomove o data).1.rnBuf.isSome = g.rnBuf.isSome := Option.isSome_map
  unfold RamFile.write at hr
  split at hr
  · cases hr
  rename_i hneg
  split at hr
  · cases hr
  split at hr
  · simp only [Except.ok.injEq, Prod.mk.injEq] at hr
    rw [← hr.1]
    exact ⟨hsz, hsame⟩
  rename_i hne
  dsimp only at hr
  split at hr
  · split at hr
    · cases hr
    · rename_i g cs hg
      simp only [Except.ok.injEq, Prod.mk.injEq] at hr
      rw [← hr.1]
      have hlen := List.length_pos_of_ne_nil hne
      have hbuf : (ramFile z v).rnBuf.isSome ∨ (ramFile z v).rnBufsize = 0 := by
        by_cases h0 : z.rnBufsize = 0
        · exact Or.inr h0
        · exact Or.inl (hz.buf (Nat.pos_of_ne_zero h0))
      have hend : 0 < toOff ((ramFile z v).writeOffset offset append + data.length) ∨ (ramFile z v).rnBuf.isSome := by
        by_cases hs : (ramFile z v).rnBuf.isSome
        · exact Or.inr hs
        left
        -- without a buffer the file has no size, and the write starts at the offset or at 0
        have h0 : z.rnSize = 0 := by
          by_contra h0
          exact hs (hz.shown (Nat.pos_of_ne_zero h0))
        have hstart : 0 ≤ (ramFile z v).writeOffset offset append := by
          unfold RamFile.writeOffset
          split
          · rw [show (ramFile z v).rnSize = 0 from h0]
            decide
          · exact not_lt.mp hneg
        rw [toOff_eq (by omega) hfit]
        omega
      obtain ⟨hs, hsize, hv⟩ := expand_order hbuf hend hg
      have hs' : (g.uiomove ((ramFile z v).writeOffset offset append) data).1.rnBuf.isSome := by rw [hmove, hs]
      refine ⟨?_, ?_, fun _ => hs', fun _ => hs'⟩
      · show g.rnSize = toU64 g.vSize
        rw [hsize, hv]
      · show g.rnSize < _
        rw [hsize]
        unfold toU64
        omega
  · simp only [Except.ok.injEq, Prod.mk.injEq] at hr
    rw [← hr.1]
    refine ⟨hsz, hz.size, fun h => ?_, fun h => ?_⟩
    · show ((ramFile z v).uiomove _ data).1.rnBuf.isSome
      rw [hmove]
      exact hz.buf h
    · show ((ramFile z v).uiomove _ data).1.rnBuf.isSome
      rw [hmove]
      exact hz.shown h

end Order

/-! ### Full paths -/

section FullPaths

variable {path : Str}

/-- A path as `task_conv` returns it. -/
structure FullPath (path : Str) (cs : List Str) : Prop extends Clean path cs where
  fits : path.length ≤ pathMax - 1

theorem namesOf_slash (acc p : Str) :
    (components acc (p ++ ['/'])).map Prod.fst = (components acc p).map Prod.fst := by
  induction p generalizing acc with
  | nil =>
    rw [List.nil_append, components, components, if_pos rfl]
    split_ifs
    · rfl
    · rfl
  | cons a p ih =>
    rw [List.cons_append, components, components]
    split_ifs
    · exact ih []
    · rw [List.map_cons, List.map_cons, ih []]
    · exact ih (acc ++ [a])

/-- What `vfs_findroot` leaves of the path. -/
theorem FullPath.findRoot (h : FullPath path cs) :
    ∃ p, findRoot (strlcpy path) = some p ∧ namesOf p = cs ∧ '/' :: p = path := by
  have hs : ∀ {ds : List Str}, (∀ c ∈ ds, IsName c) → (join ds).length ≤ pathMax - 1 → ds ≠ [] →
      ∃ p, join ds = '/' :: p ∧ p.head? ≠ some '/' ∧ p ≠ [] ∧ namesOf p = ds := by
    intro ds hn _ hne
    obtain ⟨c, es, rfl⟩ := List.exists_cons_of_ne_nil hne
    have hc := hn c (List.mem_cons_self ..)
    obtain ⟨a, c', rfl⟩ := List.exists_cons_of_ne_nil hc.ne
    refine ⟨(a :: c') ++ join es, join_cons .., ?_, by simp, ?_⟩
    · intro he
      rw [List.cons_append, List.head?_cons, Option.some.injEq] at he
      exact hc.noSlash (by simp [he])
    · have := components_join hn
      rw [join_cons, List.tail_cons] at this
      rw [namesOf, this, flagged_fst]
  rw [strlcpy_eq h.fits]
  have hfits := h.fits
  rcases h.spelling with ⟨he, hne⟩ | he
  · rw [he] at hfits
    obtain ⟨p, hj, hh, -, hp⟩ := hs h.names hfits hne
    refine ⟨p, ?_, hp, by rw [he, hj]⟩
    rw [he, hj, Coffer.findRoot, List.head?_cons, if_pos rfl, List.tail_cons, if_neg hh]
  · by_cases hne : cs = []
    · subst hne
      exact ⟨[], by rw [he]; rfl, rfl, by rw [he]; rfl⟩
    · rw [he, List.length_append] at hfits
      obtain ⟨p, hj, hh, hpne, hp⟩ := hs h.names (by omega) hne
      refine ⟨p ++ ['/'], ?_, ?_, by rw [he, hj, List.cons_append]⟩
      · rw [he, hj, List.cons_append, Coffer.findRoot, List.head?_cons, if_pos rfl, List.tail_cons]
        rw [List.head?_append_of_ne_nil _ hpne, if_neg hh]
      · rw [namesOf, namesOf_slash]
        exact hp

theorem FullPath.not_slashes (h : FullPath path cs) : ¬ Slashes path := by
  obtain ⟨p, hp, hcs, hpath⟩ := h.findRoot
  rintro ⟨q, hq, hc, hne⟩
  rw [hp, Option.some.injEq] at hq
  subst hq
  have hnil : cs = [] := by
    rw [← hcs, namesOf, hc]
    rfl
  subst hnil
  rcases h.spelling with ⟨-, hne'⟩ | he
  · exact hne' rfl
  · rw [← hpath] at he
    cases he
    exact hne rfl

/-- The directory of a full path and the name in it; there is no name after a `/` at the end. -/
theorem FullPath.last (h : FullPath path cs) :
    ∃ dir name ds, lastSlash path = some (dir, name) ∧ Spells (dirPath dir) ds ∧ (name ≠ [] → cs = ds ++ [name]) ∧
      (name = [] → cs = ds ∧ path = join cs ++ ['/']) := by
  have hfits := h.fits
  rcases h.spelling with ⟨he, hne⟩ | he
  · rcases List.eq_nil_or_concat cs with rfl | ⟨ds, c, rfl⟩
    · exact absurd rfl hne
    rw [List.concat_eq_append] at *
    have hsp : Spells path (ds ++ [c]) := ⟨h.names, hfits, Or.inl ⟨he, hne⟩⟩
    obtain ⟨dir, hl, hd⟩ := hsp.last
    exact ⟨dir, c, ds, hl, hd, fun _ => rfl, fun h0 => absurd h0 (h.names c (by simp)).ne⟩
  · refine ⟨join cs, [], cs, by rw [he]; exact lastSlash_eq (by simp), ⟨h.names, ?_, ?_⟩, fun h0 => absurd rfl h0,
      fun _ => ⟨rfl, he⟩⟩
    · rw [he, List.length_append] at hfits
      rw [dirPath]
      split
      · simp [pathMax]
      · omega
    · rw [dirPath]
      by_cases hne : cs = []
      · subst hne
        exact Or.inr rfl
      · rw [if_neg (join_ne_nil hne)]
        exact Or.inl ⟨rfl, hne⟩

theorem FullPath.not_noDir (h : FullPath path cs) : ¬ NoDir path := by
  obtain ⟨dir, name, ds, hl, hd, -⟩ := h.last
  rintro ⟨-, hn | hn | ⟨dir', base, hn, hs⟩⟩
  · rw [strlcpy_eq h.fits, hl] at hn
    cases hn
  · rw [hl] at hn
    cases hn
  · rw [strlcpy_eq h.fits, hl] at hn
    cases hn
    exact hd.not_slashes hs

/-- `namei_last_nofollow` of a full path. -/
theorem FullPath.nofollow (h : FullPath path cs) {dir name : Str} (hl : lastSlash path = some (dir, name)) (ddp : ℕ) :
    nameiLastNofollow path ddp = childDentry ddp name (pathOf cs) := by
  obtain ⟨p, hp, -, hpath⟩ := h.findRoot
  rw [strlcpy_eq h.fits] at hp
  have hfits := h.fits
  have hcat : strlcat ['/'] p = path := by
    rw [← hpath, strlcat_eq]
    · rfl
    · rw [← hpath] at hfits
      rw [List.length_singleton]
      rw [List.length_cons] at hfits
      omega
  have hnode : (if 1 < path.length ∧ path.getLast? = some '/' then path.dropLast else path) = pathOf cs := by
    rcases h.spelling with ⟨he, hne⟩ | he
    · rw [he, if_neg fun hc => join_getLast h.names hc.2, pathOf, if_neg hne]
    · by_cases hne : cs = []
      · subst hne
        rw [he]
        rfl
      · have hlen := List.length_pos_of_ne_nil (join_ne_nil hne)
        rw [he, if_pos ⟨by rw [List.length_append, List.length_singleton]; omega, by simp⟩, List.dropLast_concat, pathOf,
          if_neg hne]
  unfold nameiLastNofollow
  rw [hp, hl]
  simp only [hcat, hnode]

/-- The path ends with a `/`, and not only the root directory's. -/
def EndsSlash (path : Str) (cs : List Str) : Prop := path = join cs ++ ['/'] ∧ cs ≠ []

theorem components_slash_eq_nil (acc p : Str) : components acc (p ++ ['/']) = [] ↔ components acc p = [] := by
  rw [← List.map_eq_nil_iff (f := Prod.fst), namesOf_slash, List.map_eq_nil_iff]

theorem trailing_slash (acc p : Str) (h : components acc p ≠ []) : trailing (components acc (p ++ ['/'])) = true := by
  induction p generalizing acc with
  | nil =>
    rw [components] at h
    split at h
    · exact absurd rfl h
    · rename_i hne
      rw [List.nil_append, components, if_pos rfl, if_neg hne, trailing_cons, if_pos (by rfl)]
  | cons a p ih =>
    rw [components] at h
    rw [List.cons_append, components]
    split_ifs at h ⊢
    · exact ih [] h
    · rw [trailing_cons]
      by_cases hnil : components [] p = []
      · rw [if_pos ((components_slash_eq_nil [] p).mpr hnil)]
      · rw [if_neg (mt (components_slash_eq_nil [] p).mp hnil)]
        exact ih [] hnil
    · exact ih _ h

/-- The spelling of a full path shows in the last component. -/
theorem FullPath.trailing_iff (h : FullPath path cs) {p : Str} (hpath : '/' :: p = path) :
    trailing (components [] p) = true ↔ EndsSlash path cs := by
  have hp : p = path.tail := by rw [← hpath, List.tail_cons]
  rcases h.spelling with ⟨he, hne⟩ | he
  · refine iff_of_false ?_ ?_
    · rw [hp, he, components_join h.names, trailing_flagged]
      exact Bool.false_ne_true
    · rintro ⟨hs, -⟩
      rw [he] at hs
      have := congrArg List.length hs
      rw [List.length_append, List.length_singleton] at this
      omega
  · by_cases hne : cs = []
    · subst hne
      rw [hp, he]
      exact iff_of_false Bool.false_ne_true fun hs => hs.2 rfl
    · refine iff_of_true ?_ ⟨he, hne⟩
      rw [hp, he, List.tail_append_of_ne_nil (join_ne_nil hne)]
      refine trailing_slash _ _ ?_
      rw [components_join h.names]
      obtain ⟨c, ds, rfl⟩ := List.exists_cons_of_ne_nil hne
      cases ds <;> simp [flagged]

theorem FullPath.namei_wp (h : FullPath path cs) (hc : Cache s X U) :
    wp (namei path) (fun r t => Onward s t ∧ match r with
      | .ok d => Cache t (give X d) U ∧ Placed t d cs ∧ (EndsSlash path cs → s.kind cs = some .dir)
      | .error e => Cache t X U ∧ (s.resolve 0 cs = none ∧ (e = .enoent ∨ s.kind cs.dropLast ≠ some .dir) ∨
          e ≠ .enoent ∧ (EndsSlash path cs ∧ s.kind cs ≠ some .dir ∨ cs ≠ [] ∧ ¬ Plenty s)))
      (fun e => e = .panic ∧ ¬ Plenty s) s := by
  obtain ⟨p, hp, hcs, hpath⟩ := h.findRoot
  refine wp_mono_fault (Fs.namei_wp hc path) (fun r t ht => ?_) fun e he => he.elim id fun hs => absurd hs.2 h.not_slashes
  rw [hp] at ht
  obtain ⟨-, ho, ht⟩ := ht
  rw [hcs] at ht
  simp only [LookupFails, h.trailing_iff hpath] at ht
  exact ⟨ho, ht⟩

/-- `lookup` of a full path, and what `namei_last_nofollow` then looks for. -/
theorem FullPath.lookup_wp (h : FullPath path cs) (hc : Cache s X U) :
    wp (lookup path) (fun r t => Onward s t ∧ match r with
      | .ok (ddp, name) => ∃ ds x y z, Cache t (give X ddp) U ∧ Placed t ddp ds ∧ At t ddp ds x y z ∧ y.vType = .dir ∧
          (name ≠ [] → cs = ds ++ [name]) ∧ (name = [] → cs = ds) ∧ (name ≠ [] → path ≠ join cs ++ ['/']) ∧
          nameiLastNofollow path ddp = childDentry ddp name (pathOf cs)
      | .error _ => Cache t X U ∧
          (Plenty s → EndsSlash path cs ∧ s.kind cs ≠ some .dir ∨ s.kind cs.dropLast ≠ some .dir))
      (fun e => e = .panic ∧ ¬ Plenty s) s := by
  obtain ⟨dir, name, ds, hl, hd, hne, hnil⟩ := h.last
  refine wp_mono_fault (Fs.lookup_wp hc path) (fun r t ht => ?_) fun e he =>
    he.elim id fun hs => absurd hs.2 h.not_noDir
  obtain ⟨ho, ht⟩ := ht
  refine ⟨ho, ?_⟩
  rcases r with e | ⟨ddp, name'⟩
  · refine ⟨ht.1, fun hpl => ?_⟩
    rcases ht.2 with h0 | ⟨dir₁, base, dir₂, name', hl₁, -, hk⟩
    · rw [h0] at hl
      cases hl
    rw [strlcpy_eq h.fits, hl] at hl₁
    cases hl₁
    replace hk := hk _ hd.findRoot hpl
    rw [hd.namesOf] at hk
    by_cases h0 : name = []
    · obtain ⟨rfl, he⟩ := hnil h0
      refine Or.inl ⟨⟨he, ?_⟩, hk⟩
      rintro rfl
      exact hk hc.names.tree.kind_nil
    · rw [hne h0, List.dropLast_concat]
      exact Or.inr hk
  · obtain ⟨dir₁, base, dir₂, p, x, y, hl₁, hl₂, hf, -, hc', hpl, hx, hy, hyd⟩ := ht
    rw [strlcpy_eq h.fits, hl] at hl₁
    cases hl₁
    rw [hl] at hl₂
    cases hl₂
    rw [hd.findRoot] at hf
    cases hf
    rw [hd.namesOf] at hpl
    obtain ⟨x', y', z, ha⟩ := hc'.names.at hpl
    obtain rfl : x = x' := Option.some.inj (hx.symm.trans ha.dentry)
    obtain rfl : y = y' := Option.some.inj (hy.symm.trans ha.vnode)
    refine ⟨ds, x, y, z, hc', hpl, ha, hyd, hne, fun h0 => (hnil h0).1, fun h0 he => ?_, h.nofollow hl ddp⟩
    rw [he, lastSlash_eq (by simp)] at hl
    cases hl
    exact h0 rfl

end FullPaths

/-! ### A new file object -/

/-- Files aside, only nodes, vnodes, dentries and the hash table may have changed. -/
structure Framed (s t : Fs) : Prop where
  slots : t.slots = s.slots
  bitmap : t.bitmap = s.bitmap
  mRoot : t.mRoot = s.mRoot
  cwd : t.cwd = s.cwd
  mem : t.mem = s.mem
  addr : t.addr = s.addr
  around : t.around = s.around
  next : s.next ≤ t.next
  asked : s.asked ≤ t.asked

theorem Framed.refl (s : Fs) : Framed s s := ⟨rfl, rfl, rfl, rfl, rfl, rfl, rfl, le_refl _, le_refl _⟩

theorem Framed.trans {a b c : Fs} (h : Framed a b) (h' : Framed b c) : Framed a c :=
  ⟨h'.slots.trans h.slots, h'.bitmap.trans h.bitmap, h'.mRoot.trans h.mRoot, h'.cwd.trans h.cwd, h'.mem.trans h.mem,
    h'.addr.trans h.addr, h'.around.trans h.around, h.next.trans h'.next, h.asked.trans h'.asked⟩

theorem Grows.framed (h : Grows s t) : Framed s t :=
  ⟨h.slots, h.bitmap, h.mRoot, h.cwd, h.mem, h.addr, h.around, h.next, h.asked⟩

theorem Onward.framed (h : Onward s t) : Framed s t := h.grows.framed

theorem Framed.plenty (h : Framed s t) (hp : Plenty s) : Plenty t := fun i hi => by
  rw [h.mem]
  exact hp i (h.asked.trans hi)

theorem Onward.view (h : Onward s t) : t.view = s.view := view_of_nodes h.nodes

theorem Onward.distinct (h : Onward s t) (hd : Distinct s) : Distinct t := (SameShape.of_eq h.nodes).distinct hd

/-- Numbers that were not given are no files. -/
def FreshFiles (s : Fs) : Prop := ∀ f, s.next ≤ f → s.files f = none

theorem FreshFiles.of_eq (h : FreshFiles s) (hf : t.files = s.files) (hn : s.next ≤ t.next) : FreshFiles t :=
  fun f hlt => by
    rw [hf]
    exact h f (hn.trans hlt)

/-- The state with a new file object for the dentry `d`. -/
def addFile (s : Fs) (flags : Flags) (d : ℕ) : Fs :=
  { s with files := Function.update s.files s.next (some ⟨flags, 1, 0, some d⟩), next := s.next + 1 }

theorem addFile_cache (s : Fs) (flags : Flags) (d : ℕ) : SameCache s (s.ask.addFile flags d) :=
  ⟨rfl, rfl, rfl, rfl, rfl, Nat.le_succ _⟩

/-- The view with the file at `cs` cut to nothing. -/
def cutView (v : View) (cs : List Str) (flags : Flags) : View :=
  if Flags.has flags oTrunc then Function.update v cs (some (.reg, [])) else v

theorem wp_newFile {α : Type} (k : ℕ → FsM α) (flags : Flags) (d : ℕ) {Q : α → Fs → Prop} {E : FsFault → Prop} :
    wp (newId >>= fun f => putFile f (some ⟨flags, 1, 0, some d⟩) >>= fun _ => k f) Q E s ↔
      wp (k s.next) Q E (s.addFile flags d) := Iff.rfl

theorem kind_view (s : Fs) : s.kind = s.view.kind := by
  funext cs
  simp only [Fs.kind, View.kind, view, Option.map_bind, Function.comp_def, Option.map_map]

/-- The file is to be cut to nothing, and may not be. -/
def CutRefused (flags : Flags) (type : VType) : Prop :=
  Flags.has flags oTrunc = true ∧ (Flags.has flags ukFwrite = false ∨ type = .dir)

/-- What `sys_open` says after it: a file object for the dentry `d`, or none. -/
def OpenedAt (s : Fs) (X : ℕ → ℕ) (U : Set ℕ) (cs : List Str) (d : ℕ) (flags : Flags) (r : Except Errno ℕ) (t : Fs) : Prop :=
  Framed s t ∧ (Distinct s → Distinct t) ∧ match r with
    | .ok f => f = s.next ∧ t.next = s.next + 1 ∧ t.files = Function.update s.files f (some ⟨flags, 1, 0, some d⟩) ∧
        Cache t (give X d) U ∧ Placed t d cs ∧ t.view = cutView s.view cs flags ∧
        ∀ type, s.kind cs = some type → ¬ CutRefused flags type
    | .error _ => t.files = s.files ∧ Cache t X U ∧ t.view = s.view ∧
        (Plenty s → ∃ type, s.kind cs = some type ∧ CutRefused flags type)

/-- The new file object is freed again, and the reference given back. -/
theorem dropFile_wp (h : Cache s (give X d) U) (hf : FreshFiles s)
    (hcut : ∃ type, s.kind cs = some type ∧ CutRefused flags type) (e : Errno) :
    wp (putFile s.next none >>= fun _ => drele d >>= fun _ => pure (.error e)) (OpenedAt s X U cs d flags) (fun _ => False)
      (s.ask.addFile flags d) := by
  have hback : Function.update (s.ask.addFile flags d).files s.next none = s.files := by
    show Function.update (Function.update s.files s.next _) s.next none = s.files
    rw [Function.update_idem, ← hf s.next (le_refl _), Function.update_eq_self]
  have hput : putFile s.next none (s.ask.addFile flags d) = .ok ((), { s.ask with next := s.next + 1 }) := by
    show (.ok ((), { s.ask with
      files := Function.update (s.ask.addFile flags d).files s.next none, next := s.next + 1 }) : Except FsFault (Unit × Fs)) = _
    rw [hback]
    rfl
  have hsame : SameCache s { s.ask with next := s.next + 1 } := ⟨rfl, rfl, rfl, rfl, rfl, Nat.le_succ _⟩
  have hst : Framed s { s.ask with next := s.next + 1 } :=
    ⟨rfl, rfl, rfl, rfl, rfl, rfl, rfl, Nat.le_succ _, Nat.le_succ _⟩
  rw [wp_bind, wp_ok hput, wp_bind]
  refine wp_mono ((h.congr hsame).drele_wp (give_pos ..)) fun _ t ht => ?_
  obtain ⟨ho, hc, -⟩ := ht
  rw [take_give] at hc
  exact ⟨hst.trans ho.framed, fun hd => ho.distinct ((SameShape.of_eq rfl).distinct hd), ho.files, hc,
    ho.view.trans (view_of_nodes rfl), fun _ => hcut⟩

/-- **The end of `sys_open`.** The new file has the reference to the dentry; without a new file it is given back. -/
theorem openDentry_wp (h : Cache s (give X d) U) (hp : Placed s d cs) (hf : FreshFiles s) (flags : Flags) :
    wp (openDentry d flags) (OpenedAt s X U cs d flags) (fun _ => False) s := by
  have hask : SameCache s s.ask := ⟨rfl, rfl, rfl, rfl, rfl, le_refl _⟩
  have hst : Framed s s.ask := ⟨rfl, rfl, rfl, rfl, rfl, rfl, rfl, le_refl _, Nat.le_succ _⟩
  have hadd := addFile_cache s flags d
  obtain ⟨x, y, z, ha⟩ := h.names.at hp
  unfold openDentry
  rw [wp_bind, wp_ok (kmalloc_ok s)]
  refine wp_ite (fun hno => ?_) fun _ => ?_
  · rw [wp_bind]
    refine wp_mono ((h.congr hask).drele_wp (give_pos ..)) fun _ t ht => ?_
    obtain ⟨ho, hc, -⟩ := ht
    rw [take_give] at hc
    refine ⟨hst.trans ho.framed, fun hd => ho.distinct ((SameShape.of_eq rfl).distinct hd), ho.files, hc,
      ho.view.trans (view_of_nodes rfl), fun hpl => ?_⟩
    rw [hpl s.asked (le_refl _)] at hno
    cases hno
  rw [wp_newFile]
  refine wp_ite (fun htr => ?_) fun htr => ?_
  · -- the file is cut to nothing, if it may be
    rw [wp_bind, wp_ok (getDentry_ok (show (s.ask.addFile flags d).dentries d = some x from ha.dentry)), wp_bind,
      wp_ok (getVnode_ok (show (s.ask.addFile flags d).vnodes x.dVnode = some y from ha.vnode))]
    refine wp_ite (fun hno => dropFile_wp h hf ⟨_, ha.kind, htr, hno⟩ .einval) fun hno => ?_
    have hcmd := ramfsTruncate_ok (show (s.ask.addFile flags d).nodes y.vData = some z from ha.node) x.dVnode 0
    rcases hcut : (ramFile z y).truncate 0 ((s.ask.addFile flags d).mem (s.ask.addFile flags d).asked) with e | ⟨file, copies⟩
    · rw [RamFile.truncate, if_pos rfl] at hcut
      cases hcut
    simp only [hcut, askIf_neg _ fun hc : (ramFile z y).TruncateAsks 0 => hc.1 rfl] at hcmd
    rw [wp_bind, wp_ok hcmd]
    obtain ⟨hsize, hok⟩ := truncate_order (h.names.ok ha.node) hcut
    obtain ⟨hlen, -⟩ := RamFile.truncate_sizes hcut
    have hty : z.rnType = .reg := by
      have hl := h.names.tree.noLink ha.node
      have hd : y.vType ≠ .dir := fun hd => hno (Or.inr hd)
      rw [ha.type] at hd
      cases ht : z.rnType with
      | reg => rfl
      | dir => exact absurd ht hd
      | lnk => exact absurd ht hl
    have hempty : file.contents = [] := by
      rw [RamFile.contents, hlen]
      rfl
    have hc := h.congr hadd
    have ha' := ha.congr hadd
    have hview := view_setRamFile hc.names.tree ha'.node ha'.resolve x.dVnode file
    refine ⟨⟨rfl, rfl, rfl, rfl, rfl, rfl, rfl, Nat.le_succ _, Nat.le_succ _⟩, ?_, rfl, rfl, rfl,
      hc.setRamFile (hp.congr hadd) ha' hsize hok, (hp.congr hadd).setRamFile .., ?_, fun type hk hcut => hno ?_⟩
    · exact fun hd => (setRamFile_shape ha'.node x.dVnode file).distinct ((SameShape.of_eq rfl).distinct hd)
    · rw [cutView, if_pos htr]
      refine hview.trans ?_
      rw [hty, hempty, view_of_nodes (s := s) (t := s.ask.addFile flags d) rfl]
    · rw [ha.kind, Option.some.injEq] at hk
      exact hk ▸ hcut.2
  · refine ⟨⟨rfl, rfl, rfl, rfl, rfl, rfl, rfl, Nat.le_succ _, Nat.le_succ _⟩, fun hd => (SameShape.of_eq rfl).distinct hd,
      rfl, rfl, rfl, h.congr hadd, hp.congr hadd, ?_, fun _ _ hcut => htr hcut.1⟩
    rw [cutView, if_neg htr]
    exact view_of_nodes rfl

/-! ### A new node in a directory -/

/-- What there is after a node was made, or not made, in the directory `ds`. -/
def Made (s : Fs) (X : ℕ → ℕ) (U : Set ℕ) (cs : List Str) (name : Str) (type : VType) (r : Except Errno Unit) (t : Fs) :
    Prop :=
  Cache t X U ∧ Grows s t ∧ match r with
    | .error e => e ≠ .enoent ∧ t.view = s.view ∧ (Distinct s → Distinct t) ∧ (nameMax < name.length ∨ ¬ Plenty s)
    | .ok _ => name.length ≤ nameMax ∧ t.view = addView s.view (cs ++ [name]) type ∧ (s.view (cs ++ [name]) = none → Distinct s → Distinct t)

/-- **The end of `sys_mkdir`, and of `sys_open` with `O_CREAT`**: a node in the directory of the dentry, which is then
released. -/
theorem makeNode_wp {α : Type} {x : Dentry} {y : Vnode} {z : RamNode} (h : Cache s (give X d) U) (ha : At s d cs x y z)
    (hyd : y.vType = .dir) (ht : type ≠ .lnk) {g : Errno → FsM α} {k : Except Errno Unit → FsM α} {Q : α → Fs → Prop}
    {E : FsFault → Prop} (hk : ∀ r t, Made s X U cs name type r t → wp (k r) Q E t) :
    wp (vnodeOf d >>= fun v => match vnAccessWrite v with
      | .error e => g e
      | .ok _ => ramfsCreate v.vData name type >>= fun r => drele d >>= fun _ => k r) Q E s := by
  have hzd : z.rnType = .dir := ha.type.symm.trans hyd
  rw [wp_bind, wp_ok (vnodeOf_ok ha.dentry ha.vnode), ha.mode]
  simp only
  rw [wp_bind]
  refine wp_mono_fault (ramfsCreate_wp ha.node (h.names.tree.node_lt ha.node) name type) (fun r u hu => ?_)
    fun _ hf => hf.elim
  rw [wp_bind]
  cases r with
  | error e =>
    obtain ⟨hne, hsame, hg, hwhy⟩ := hu
    refine wp_mono ((h.congr hsame).drele_wp (give_pos ..)) fun _ t ho => ?_
    obtain ⟨ho, hc, -⟩ := ho
    rw [take_give] at hc
    refine hk _ t ⟨hc, hg.trans ho.grows, hne, ho.view.trans (view_of_nodes hsame.nodes), fun hd => ?_, hwhy⟩
    exact ho.distinct ((SameShape.of_eq hsame.nodes).distinct hd)
  | ok _ =>
    obtain ⟨hlen, hu⟩ := hu
    have hask2 : SameCache s s.ask.ask := ⟨rfl, rfl, rfl, rfl, rfl, le_refl _⟩
    have hc2 := h.congr hask2
    have ha2 := ha.congr hask2
    have hg : Grows s u := by
      rw [hu]
      exact ⟨rfl, rfl, rfl, rfl, rfl, rfl, rfl, rfl, Nat.le_succ _, Nat.le_add_right _ 2⟩
    have hca : Cache u (give X d) U := by
      rw [hu]
      exact hc2.add ha2.node hzd ht
    have hview : u.view = addView s.view (cs ++ [name]) type := by
      rw [hu, hc2.names.tree.view_add ha2.node ha2.resolve, view_of_nodes (s := s) (t := s.ask.ask) rfl]
    have hdist (hnone : s.view (cs ++ [name]) = none) (hd : Distinct s) : Distinct u := by
      have hr := h.names.tree.view_eq_none.mp hnone
      rw [resolve_concat, ha.resolve, Option.bind_some] at hr
      rw [hu]
      exact Distinct.add ((SameShape.of_eq rfl).distinct hd) hc2.names.tree ha2.node hr
    refine wp_mono (hca.drele_wp (give_pos ..)) fun _ t ho => ?_
    obtain ⟨ho, hc, -⟩ := ho
    rw [take_give] at hc
    exact hk _ t ⟨hc, hg.trans ho.grows, hlen, ho.view.trans hview, fun hn hd => ho.distinct (hdist hn hd)⟩

theorem addView_of_some {v : View} (h : v cs ≠ none) (type : VType) :
    addView v cs type = v := if_neg h

theorem At.view_ne_none {x : Dentry} {y : Vnode} {z : RamNode} (h : At s d cs x y z) : s.view cs ≠ none := by
  rw [view_eq h.resolve h.node]
  simp

/-! ### `sys_open` -/

/-- The flags agree, the two that only `sys_open` looks at aside. -/
def SameMode (a b : Flags) : Prop := a &&& ~~~(oCreat ||| oTrunc) = b &&& ~~~(oCreat ||| oTrunc)

theorem SameMode.has {a b bit : Flags} (h : SameMode a b) (hbit : ~~~(oCreat ||| oTrunc) &&& bit = bit) :
    Flags.has a bit = Flags.has b bit := by
  have hmask (c : Flags) : c &&& bit = c &&& ~~~(oCreat ||| oTrunc) &&& bit := by
    rw [BitVec.and_assoc, hbit]
  rw [Flags.has, Flags.has, hmask a, hmask b, h]

/-- **What `sys_open` refuses**, if there is memory. `v` is what the file system shows; the path spells
the names `cs`, and may end with a `/`. -/
def OpenRefused (v : View) (path : Str) (cs : List Str) (flags : Flags) : Prop :=
  match v.kind cs with
  | none => Flags.has flags oCreat = false ∨ EndsSlash path cs ∨ v.kind cs.dropLast ≠ some .dir ∨
      nameMax < (cs.getLastD []).length
  | some type => EndsSlash path cs ∧ type ≠ .dir ∨ CutRefused flags type ∨
      if Flags.has flags oCreat = true then Flags.has flags oExcl = true
      else Flags.has flags ukFwrite = true ∧ type = .dir ∨ Flags.has flags oDirectory = true ∧ type ≠ .dir

theorem openRefused_none {v : View} (path : Str) (flags : Flags) (h : v.kind cs = none) :
    OpenRefused v path cs flags ↔ Flags.has flags oCreat = false ∨ EndsSlash path cs ∨
      v.kind cs.dropLast ≠ some .dir ∨ nameMax < (cs.getLastD []).length := by
  rw [OpenRefused, h]

theorem openRefused_some {v : View} (path : Str) (flags : Flags) (h : v.kind cs = some type) :
    OpenRefused v path cs flags ↔ EndsSlash path cs ∧ type ≠ .dir ∨ CutRefused flags type ∨
      if Flags.has flags oCreat = true then Flags.has flags oExcl = true
      else Flags.has flags ukFwrite = true ∧ type = .dir ∨ Flags.has flags oDirectory = true ∧ type ≠ .dir := by
  rw [OpenRefused, h]

/-- `namei` does not find the path. -/
def Unfound (s : Fs) (path : Str) (cs : List Str) : Prop :=
  s.kind cs = none ∨ EndsSlash path cs ∧ s.kind cs ≠ some .dir

theorem Unfound.refused {path : Str} (h : Unfound s path cs) (hcreat : Flags.has flags oCreat = false) :
    OpenRefused s.view path cs flags := by
  rw [Unfound, kind_view] at h
  rcases hk : s.view.kind cs with _ | type
  · exact (openRefused_none _ _ hk).mpr (Or.inl hcreat)
  · rw [hk] at h
    exact (openRefused_some _ _ hk).mpr (Or.inl (by simpa using h))

/-- What `sys_open` says after it. -/
def OpenResult (s : Fs) (X : ℕ → ℕ) (U : Set ℕ) (path : Str) (cs : List Str) (flags : Flags) (r : Except Errno ℕ)
    (t : Fs) : Prop :=
  Framed s t ∧ (Distinct s → Distinct t) ∧ match r with
    | .ok f => ∃ d fl, s.next ≤ f ∧ f < t.next ∧ SameMode fl flags ∧
        t.files = Function.update s.files f (some ⟨fl, 1, 0, some d⟩) ∧ Cache t (give X d) U ∧ Placed t d cs ∧
        t.view = cutView (addView s.view cs .reg) cs flags ∧ ¬ OpenRefused s.view path cs flags
    | .error _ => t.files = s.files ∧ Cache t X U ∧
        (t.view = s.view ∨ ¬ Plenty s ∧ t.view = addView s.view cs .reg) ∧ (Plenty s → OpenRefused s.view path cs flags)

theorem sameMode_clear_creat (flags : Flags) : SameMode (flags &&& ~~~oCreat) flags := by
  rw [SameMode, BitVec.and_assoc]
  rfl

theorem sameMode_clear_both (flags : Flags) : SameMode (flags &&& ~~~oTrunc &&& ~~~oCreat) flags := by
  rw [SameMode, BitVec.and_assoc, BitVec.and_assoc]
  rfl

theorem has_trunc_clear_creat (flags : Flags) : Flags.has (flags &&& ~~~oCreat) oTrunc = Flags.has flags oTrunc := by
  rw [Flags.has, Flags.has, BitVec.and_assoc]
  rfl

theorem has_trunc_clear_both (flags : Flags) : Flags.has (flags &&& ~~~oTrunc &&& ~~~oCreat) oTrunc = false := by
  rw [Flags.has, BitVec.and_assoc, BitVec.and_assoc]
  rw [show ~~~oTrunc &&& (~~~oCreat &&& oTrunc) = 0 from by decide]
  simp

theorem OpenResult.failed {path : Str} (e : Errno) (ho : Onward s t) (hc : Cache t X U)
    (hwhy : Plenty s → OpenRefused s.view path cs flags) : OpenResult s X U path cs flags (.error e) t :=
  ⟨ho.framed, ho.distinct, ho.files, hc, Or.inl ho.view, hwhy⟩

/-- The dentry was there before, and nothing but the size may keep it from being opened. -/
theorem OpenedAt.post {u : Fs} {path : Str} {fl : Flags} {r : Except Errno ℕ} (h : OpenedAt u X U cs d fl r t)
    (ho : Onward s u) (hmode : SameMode fl flags) (htr : Flags.has fl oTrunc = Flags.has flags oTrunc)
    (hk : s.kind cs = some type) (hsome : s.view cs ≠ none)
    (hno : OpenRefused s.view path cs flags ↔ CutRefused flags type) : OpenResult s X U path cs flags r t := by
  have hcut : CutRefused fl type ↔ CutRefused flags type := by
    rw [CutRefused, CutRefused, htr, hmode.has (by decide)]
  obtain ⟨hst, hd, h⟩ := h
  rw [ho.kind] at h
  refine ⟨ho.framed.trans hst, fun hd' => hd (ho.distinct hd'), ?_⟩
  cases r with
  | error e =>
    obtain ⟨hf, hc, hv, hwhy⟩ := h
    refine ⟨hf.trans ho.files, hc, Or.inl (hv.trans ho.view), fun hpl => ?_⟩
    obtain ⟨type', hk', hcut'⟩ := hwhy (ho.plenty hpl)
    rw [hk, Option.some.injEq] at hk'
    exact hno.mpr (hcut.mp (hk' ▸ hcut'))
  | ok f =>
    obtain ⟨hf, hn, hfiles, hc, hp, hv, hcut'⟩ := h
    refine ⟨d, fl, by rw [hf]; exact ho.next, by omega, hmode, by rw [hfiles, ho.files], hc, hp, ?_, ?_⟩
    · rw [hv, ho.view, addView_of_some hsome, cutView, cutView, htr]
    · exact fun hr => hcut' type hk (hcut.mpr (hno.mp hr))

/-- `open_no_follow_chk` leaves the cache in order, and finds what `namei` does. -/
theorem openNoFollowChk_wp {path : Str} (h : FullPath path cs) (hc : Cache s X U) :
    wp (openNoFollowChk path) (fun r t => Onward s t ∧ Cache t X U ∧ ∀ e, r = .error e → Plenty s → Unfound s path cs)
      (fun e => e = .panic ∧ ¬ Plenty s) s := by
  unfold openNoFollowChk
  rw [wp_bind]
  refine wp_mono (h.lookup_wp hc) fun r t ht => ?_
  obtain ⟨ho, ht⟩ := ht
  rcases r with e | ⟨ddp, name⟩
  · refine ⟨ho, ht.1, fun e _ hpl => (ht.2 hpl).elim Or.inr fun hk => Or.inl ?_⟩
    by_contra hsome
    exact hk (hc.names.tree.kind_dropLast fun hn => hsome (hc.names.tree.kind_eq_none.mpr hn))
  obtain ⟨ds, x, y, z, hc', hp, ha, -, hne, hnil, -, hlast⟩ := ht
  simp only [hlast]
  rw [wp_bind]
  refine wp_mono_fault (childDentry_wp hc' hp (give_pos ..) h.names hne) (fun r u hu => ?_) fun e he =>
    ⟨he.1, not_plenty ho he.2⟩
  obtain ⟨ho', hu⟩ := hu
  have ho2 := Onward.trans _ _ _ ho ho'
  cases r with
  | error e =>
    obtain ⟨hcu, -, hwhy⟩ := hu
    simp only
    rw [wp_bind]
    refine wp_mono (hcu.drele_wp (give_pos ..)) fun _ w hw => ?_
    obtain ⟨ho3, hc3, -⟩ := hw
    rw [take_give] at hc3
    refine ⟨Onward.trans _ _ _ ho2 ho3, hc3, fun e _ hpl => Or.inl ?_⟩
    rcases hwhy with ⟨-, hcs, hres⟩ | ⟨-, hno⟩
    · rw [hc.names.tree.kind_eq_none, ← (SameShape.of_eq ho.nodes).resolve]
      exact hres fun h0 => hcs (hnil h0)
    · exact absurd (ho.plenty hpl) hno
  | ok dp =>
    obtain ⟨hcu, -, hdp⟩ := hu
    obtain ⟨x', y', z', ha'⟩ := hcu.names.at hdp
    simp only
    rw [wp_bind, wp_ok (vnodeOf_ok ha'.dentry ha'.vnode), wp_bind]
    refine wp_mono (hcu.drele_wp (give_pos ..)) fun _ w hw => ?_
    obtain ⟨ho3, hc3, -⟩ := hw
    rw [take_give] at hc3
    rw [wp_bind]
    refine wp_mono (hc3.drele_wp (give_pos ..)) fun _ v hv => ?_
    obtain ⟨ho4, hc4, -⟩ := hv
    rw [take_give] at hc4
    have hlink : y'.vType ≠ .lnk := fun hl => hcu.names.tree.noLink ha'.node (ha'.type.symm.trans hl)
    rw [if_neg hlink]
    exact ⟨Onward.trans _ _ _ ho2 (Onward.trans _ _ _ ho3 ho4), hc4, nofun⟩

theorem openExisting_wp {path : Str} (h : FullPath path cs) (hc : Cache s X U) (hf : FreshFiles s)
    (hcreat : Flags.has flags oCreat = false) :
    wp (openExisting path flags) (OpenResult s X U path cs flags) (fun e => e = .panic ∧ ¬ Plenty s) s := by
  have hcheck : wp (if Flags.has flags oNofollow then openNoFollowChk path else pure (.ok ()))
      (fun r t => Onward s t ∧ Cache t X U ∧ ∀ e, r = .error e → Plenty s → Unfound s path cs)
      (fun e => e = .panic ∧ ¬ Plenty s) s :=
    wp_ite (fun _ => openNoFollowChk_wp h hc) fun _ => ⟨Onward.refl s, hc, nofun⟩
  unfold openExisting
  rw [wp_bind]
  refine wp_mono hcheck fun r u hu => ?_
  obtain ⟨ho, hcu, hwhy⟩ := hu
  cases r with
  | error e => exact OpenResult.failed e ho hcu fun hpl => (hwhy e rfl hpl).refused hcreat
  | ok _ =>
    simp only
    rw [wp_bind]
    refine wp_mono_fault (h.namei_wp hcu) (fun r t ht => ?_) fun e he => ⟨he.1, not_plenty ho he.2⟩
    obtain ⟨ho', ht⟩ := ht
    have ho2 := Onward.trans _ _ _ ho ho'
    rw [ho.kind] at ht
    cases r with
    | error e =>
      refine OpenResult.failed e ho2 ht.1 fun hpl => Unfound.refused ?_ hcreat
      rcases ht.2 with ⟨hno, -⟩ | ⟨-, hsl | hno⟩
      · rw [(SameShape.of_eq ho.nodes).resolve] at hno
        exact Or.inl (hc.names.tree.kind_eq_none.mpr hno)
      · exact Or.inr hsl
      · exact absurd (ho.plenty hpl) hno.2
    | ok dp =>
      obtain ⟨hct, hp, hsl⟩ := ht
      obtain ⟨x, y, z, ha⟩ := hct.names.at hp
      have hk : s.kind cs = some y.vType := by rw [← ho2.kind, ha.kind]
      have href := openRefused_some path flags (kind_view s ▸ hk)
      have hslash : ¬ (EndsSlash path cs ∧ y.vType ≠ .dir) := fun hs =>
        hs.2 (Option.some.inj (hk.symm.trans (hsl hs.1)))
      rw [if_neg (by rw [hcreat]; simp), or_iff_right hslash] at href
      simp only
      rw [wp_bind, wp_ok (vnodeOf_ok ha.dentry ha.vnode), ha.mode]
      split
      · rename_i e he
        rw [wp_bind]
        refine wp_mono (hct.drele_wp (give_pos ..)) fun _ w hw => ?_
        obtain ⟨ho3, hc3, -⟩ := hw
        rw [take_give] at hc3
        refine OpenResult.failed e (Onward.trans _ _ _ ho2 ho3) hc3 fun _ => href.mpr ?_
        by_contra hno
        simp only [CutRefused, not_or, not_and] at hno
        split_ifs at he <;> simp_all
      · rename_i he
        have hft : FreshFiles t := hf.of_eq ho2.files ho2.next
        refine wp_mono_fault (openDentry_wp hct hp hft flags) (fun r w hw => ?_) fun _ hf => hf.elim
        refine hw.post ho2 rfl rfl hk (by rw [← ho2.view]; exact ha.view_ne_none) (href.trans (or_iff_left ?_))
        split_ifs at he <;> simp_all

/-- The end of `sys_open` for a node that was just made: the second `namei` finds it, if there is memory. -/
theorem openNew_wp {u : Fs} {path : Str} (h : FullPath path cs) (hf : FreshFiles s) (hslash : path ≠ join cs ++ ['/'])
    (hst : Framed s u) (hfiles : u.files = s.files) (hc : Cache u X U) (hview : u.view = addView s.view cs .reg)
    (hnone : s.view cs = none) (hd : Distinct s → Distinct u) (hno : ¬ OpenRefused s.view path cs flags) :
    wp (namei path >>= fun r => match r with
      | .error e => pure (.error e)
      | .ok dp => openDentry dp (flags &&& ~~~oTrunc &&& ~~~oCreat))
      (OpenResult s X U path cs flags) (fun e => e = .panic ∧ ¬ Plenty s) u := by
  have hnew : u.view = Function.update s.view cs (some (.reg, [])) := by rw [hview, addView, if_pos hnone]
  rw [wp_bind]
  refine wp_mono_fault (h.namei_wp hc) (fun r t ht => ?_) fun e he => ⟨he.1, fun hpl => he.2 (hst.plenty hpl)⟩
  obtain ⟨ho, ht⟩ := ht
  have hst' := hst.trans ho.framed
  have hd' (hds : Distinct s) : Distinct t := ho.distinct (hd hds)
  cases r with
  | error e =>
    obtain ⟨hct, hwhy⟩ := ht
    have hpl : ¬ Plenty s := by
      rcases hwhy with ⟨hr, -⟩ | ⟨-, hsl | hpl⟩
      · rw [← hc.names.tree.view_eq_none, hnew, Function.update_self] at hr
        cases hr
      · exact absurd hsl.1.1 hslash
      · exact fun hp => hpl.2 (hst.plenty hp)
    exact ⟨hst', hd', ho.files.trans hfiles, hct, Or.inr ⟨hpl, ho.view.trans hview⟩, fun hp => absurd hp hpl⟩
  | ok dp =>
    obtain ⟨hct, hp, -⟩ := ht
    have hft : FreshFiles t := hf.of_eq (ho.files.trans hfiles) hst'.next
    refine wp_mono_fault (openDentry_wp hct hp hft _) (fun r w hw => ?_) fun _ hf => hf.elim
    obtain ⟨hstw, hdw, hw⟩ := hw
    refine ⟨hst'.trans hstw, fun hds => hdw (hd' hds), ?_⟩
    cases r with
    | error e =>
      obtain ⟨hfi, hcw, hvw, hwhy⟩ := hw
      have hpl : ¬ Plenty s := fun hp => by
        obtain ⟨_, -, htr, -⟩ := hwhy (hst'.plenty hp)
        rw [has_trunc_clear_both] at htr
        cases htr
      exact ⟨hfi.trans (ho.files.trans hfiles), hcw, Or.inr ⟨hpl, hvw.trans (ho.view.trans hview)⟩,
        fun hp => absurd hp hpl⟩
    | ok f =>
      obtain ⟨hfn, hn, hfi, hcw, hpw, hvw, -⟩ := hw
      have hle := hst'.next
      refine ⟨dp, _, by omega, by omega, sameMode_clear_both flags, by rw [hfi, ho.files, hfiles], hcw, hpw, ?_, hno⟩
      rw [hvw, cutView, has_trunc_clear_both, if_neg (by decide), ho.view, hview, cutView]
      split_ifs with htr
      · rw [addView, if_pos hnone, Function.update_idem]
      · rfl

theorem openCreate_wp {path : Str} (h : FullPath path cs) (hc : Cache s X U) (hf : FreshFiles s)
    (hcreat : Flags.has flags oCreat = true) :
    wp (openCreate path flags) (OpenResult s X U path cs flags) (fun e => e = .panic ∧ ¬ Plenty s) s := by
  unfold openCreate
  rw [wp_bind]
  refine wp_mono (h.namei_wp hc) fun r t ht => ?_
  obtain ⟨ho, ht⟩ := ht
  split
  · rename_i dp
    obtain ⟨hct, hp, hsl⟩ := ht
    obtain ⟨x, y, z, ha⟩ := hct.names.at hp
    have hk : s.kind cs = some y.vType := by rw [← ho.kind, ha.kind]
    have href := openRefused_some path flags (kind_view s ▸ hk)
    rw [if_pos hcreat] at href
    refine wp_ite (fun hexcl => ?_) fun hexcl => ?_
    · rw [wp_bind]
      refine wp_mono (hct.drele_wp (give_pos ..)) fun _ w hw => ?_
      obtain ⟨ho3, hc3, -⟩ := hw
      rw [take_give] at hc3
      exact OpenResult.failed .eexist (Onward.trans _ _ _ ho ho3) hc3 fun _ => href.mpr (Or.inr (Or.inr hexcl))
    · have hft : FreshFiles t := hf.of_eq ho.files ho.next
      have hslash : ¬ (EndsSlash path cs ∧ y.vType ≠ .dir) := fun hs =>
        hs.2 (Option.some.inj (hk.symm.trans (hsl hs.1)))
      refine wp_mono_fault (openDentry_wp hct hp hft _) (fun r w hw => ?_) fun _ hf => hf.elim
      refine hw.post ho (sameMode_clear_creat flags) (has_trunc_clear_creat flags) hk
        (by rw [← ho.view]; exact ha.view_ne_none) (href.trans ?_)
      rw [or_iff_right hslash, or_iff_left hexcl]
  · obtain ⟨hct, hwhy⟩ := ht
    have hres : s.resolve 0 cs = none := hwhy.elim And.left fun hne => absurd rfl hne.1
    have hnone : s.view cs = none := hc.names.tree.view_eq_none.mpr hres
    have href := openRefused_none path flags
      (kind_view s ▸ hc.names.tree.kind_eq_none.mpr hres)
    rw [or_iff_right (by rw [hcreat]; simp), ← kind_view] at href
    rw [wp_bind]
    refine wp_mono_fault (h.lookup_wp hct) (fun r u hu => ?_) fun e he => ⟨he.1, not_plenty ho he.2⟩
    obtain ⟨ho', hu⟩ := hu
    have ho2 := Onward.trans _ _ _ ho ho'
    rcases r with e | ⟨ddp, name⟩
    · refine OpenResult.failed e ho2 hu.1 fun hpl => href.mpr ?_
      exact (hu.2 (ho.plenty hpl)).imp And.left fun hk => Or.inl (ho.kind ▸ hk)
    obtain ⟨ds, x, y, z, hcu, hp, ha, hyd, hne, hnil, hslash, -⟩ := hu
    -- there is a name, as otherwise the path would lead to the directory
    have hname : name ≠ [] := by
      intro h0
      rw [hnil h0, ← ho2.view] at hnone
      exact ha.view_ne_none hnone
    have hcs := hne hname
    refine makeNode_wp hcu ha hyd (by decide) fun r v hv => ?_
    obtain ⟨hcv, hg, hv⟩ := hv
    have hst := ho2.framed.trans hg.framed
    have hlast : cs.getLastD [] = name := by rw [hcs, List.getLastD_concat]
    cases r with
    | error e =>
      obtain ⟨-, hview, hd, hlong⟩ := hv
      refine ⟨hst, fun hd' => hd (ho2.distinct hd'), hg.files.trans ho2.files, hcv, Or.inl (hview.trans ho2.view),
        fun hpl => href.mpr (Or.inr (Or.inr ?_))⟩
      rw [hlast]
      exact hlong.resolve_right fun hno => hno (ho2.plenty hpl)
    | ok _ =>
      obtain ⟨hlen, hview, hd⟩ := hv
      rw [← hcs, ho2.view] at hview hd
      refine openNew_wp h hf (hslash hname) hst (hg.files.trans ho2.files) hcv hview hnone
        (fun hds => hd hnone (ho2.distinct hds)) (mt href.mp ?_)
      have hdir : s.kind cs.dropLast = some .dir := by rw [hcs, List.dropLast_concat, ← ho2.kind, ha.kind, hyd]
      rw [hdir, hlast]
      simp only [ne_eq, not_true_eq_false, false_or, not_or, not_lt]
      exact ⟨fun hs => hslash hname hs.1, hlen⟩
  · rename_i e hne
    refine OpenResult.failed e ho ht.1 fun hpl => ?_
    rcases ht.2 with ⟨hno, hk⟩ | ⟨-, hsl | hno⟩
    · refine (openRefused_none _ _ (kind_view s ▸ hc.names.tree.kind_eq_none.mpr hno)).mpr (Or.inr (Or.inr (Or.inl ?_)))
      rw [← kind_view]
      exact hk.resolve_left hne
    · rcases hk : s.view.kind cs with _ | type
      · exact (openRefused_none _ _ hk).mpr (Or.inr (Or.inl hsl.1))
      · refine (openRefused_some _ _ hk).mpr (Or.inl ⟨hsl.1, fun hd => hsl.2 ?_⟩)
        rw [kind_view, hk, hd]
    · exact absurd hpl hno.2

/-- **`sys_open`** of a full path leaves the cache in order, with one more reference if there is a new file. -/
theorem sysOpen_wp {path : Str} (h : FullPath path cs) (hc : Cache s X U) (hf : FreshFiles s) (oflags : Flags) :
    wp (sysOpen path oflags) (OpenResult s X U path cs (vfscoreFflags oflags)) (fun e => e = .panic ∧ ¬ Plenty s) s := by
  unfold sysOpen
  exact wp_ite (fun hcreat => openCreate_wp h hc hf hcreat) fun hcreat =>
    openExisting_wp h hc hf (Bool.eq_false_iff.mpr hcreat)

end Fs
end Coffer
