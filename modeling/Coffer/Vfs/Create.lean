/-
# New nodes

`ramfs_create` and `ramfs_mkdir` add a node to a directory. The dentry cache stays in order (`Cache.add`): the paths that
led somewhere lead where they did, and there is one new path at most.

`Spells` are the paths that consist of names, each with a `/` before it.

Key definitions: `Grows`, `Spells`.
Key theorems: `Cache.add`, `ramfsCreate_wp`.
-/
import Coffer.Vfs.Names

namespace Coffer
namespace Fs

open Lib Lib.Cmd

variable {s t : Fs} {X : ℕ → ℕ} {U : Set ℕ} {p : ℕ} {x : RamNode} {cs ds : List Str} {name : Str} {type : VType}

/-! ### A new node and the cache -/

theorem At.addNode {d : ℕ} {w : Dentry} {y : Vnode} {z : RamNode} (h : At s d ds w y z) (ht : Tree s)
    (hx : s.nodes p = some x) : ∃ z', At (s.addNode p x name type) d ds w y z' := by
  obtain ⟨z', hz', -, hty, -⟩ := ht.addNode_mono hx name type h.node
  have hsize : z'.rnSize = z.rnSize := by
    rcases ht.addNode_inv hx hz' with ⟨he, rfl⟩ | ⟨he, -⟩ | ⟨-, -, hz⟩
    · rw [← he, h.node] at hx
      cases hx
      rfl
    · have := ht.node_lt h.node
      omega
    · rw [h.node] at hz
      cases hz
      rfl
  exact ⟨z', h.dentry, h.vnode, hz', h.names, h.path, ht.resolve_add hx h.resolve, h.type.trans hty.symm,
    hsize.trans h.size, h.mode, h.vRoot⟩

theorem Names.addNode (h : Names s U) (hx : s.nodes p = some x) (hd : x.rnType = .dir) (ht : type ≠ .lnk) :
    Names (s.addNode p x name type) U where
  tree := h.tree.add hx hd ht
  ok {n z} hz := by
    rcases h.tree.addNode_inv hx hz with ⟨-, rfl⟩ | ⟨-, rfl⟩ | ⟨-, -, hz⟩
    · exact ⟨(h.ok hx).size, (h.ok hx).buf, (h.ok hx).shown⟩
    · exact ⟨by show 0 < 2 ^ 64; norm_num, fun h0 => absurd h0 (lt_irrefl 0), fun h0 => absurd h0 (lt_irrefl 0)⟩
    · exact h.ok hz
  root := h.root
  place {d} hd := by
    obtain ⟨cs, w, y, z, ha⟩ := h.place hd
    obtain ⟨z', ha'⟩ := ha.addNode h.tree hx
    exact ⟨cs, w, y, z', ha'⟩
  uniq := h.uniq
  hashed := h.hashed
  dead {d} hd := by
    obtain ⟨hlt, hnot, hdead⟩ := h.dead hd
    refine ⟨Nat.lt_succ_of_lt hlt, hnot, fun {w y} hw hy => ?_⟩
    have hnone := hdead hw hy
    rw [addNode_old]
    · exact hnone
    · rintro rfl
      rw [hx] at hnone
      cases hnone
    · exact Nat.ne_of_lt (h.data_lt hy)
  data_lt {v y} hy := Nat.lt_succ_of_lt (h.data_lt hy)

/-- **A new node keeps the cache in order.** -/
theorem Cache.add (h : Cache s X U) (hx : s.nodes p = some x) (hd : x.rnType = .dir) (ht : type ≠ .lnk) :
    Cache (s.addNode p x name type) X U where
  counts := h.counts.congr rfl rfl (Nat.le_succ _)
  names := h.names.addNode hx hd ht

/-! ### Steps that make nodes -/

/-- Only nodes, vnodes, dentries and the hash table may have changed. -/
structure Grows (s t : Fs) : Prop where
  files : t.files = s.files
  slots : t.slots = s.slots
  bitmap : t.bitmap = s.bitmap
  mRoot : t.mRoot = s.mRoot
  cwd : t.cwd = s.cwd
  mem : t.mem = s.mem
  addr : t.addr = s.addr
  around : t.around = s.around
  next : s.next ≤ t.next
  asked : s.asked ≤ t.asked

theorem Grows.refl (s : Fs) : Grows s s := ⟨rfl, rfl, rfl, rfl, rfl, rfl, rfl, rfl, le_refl _, le_refl _⟩

theorem Grows.trans {a b c : Fs} (h : Grows a b) (h' : Grows b c) : Grows a c :=
  ⟨h'.files.trans h.files, h'.slots.trans h.slots, h'.bitmap.trans h.bitmap, h'.mRoot.trans h.mRoot, h'.cwd.trans h.cwd,
    h'.mem.trans h.mem, h'.addr.trans h.addr, h'.around.trans h.around, h.next.trans h'.next, h.asked.trans h'.asked⟩

theorem Onward.grows (h : Onward s t) : Grows s t :=
  ⟨h.files, h.slots, h.bitmap, h.mRoot, h.cwd, h.mem, h.addr, h.around, h.next, h.asked⟩

theorem Grows.plenty (h : Grows s t) (hp : Plenty s) : Plenty t := fun i hi => by
  rw [h.mem]
  exact hp i (h.asked.trans hi)

/-- `ramfs_create` and `ramfs_mkdir` in a directory. -/
theorem ramfsCreate_wp (hx : s.nodes p = some x) (hlt : p < s.next) (name : Str) (type : VType) :
    wp (ramfsCreate p name type) (fun r t => match r with
      | .error e => e ≠ .enoent ∧ SameCache s t ∧ Grows s t ∧ (nameMax < name.length ∨ ¬ Plenty s)
      | .ok _ => name.length ≤ nameMax ∧ t = s.ask.ask.addNode p x name type)
      (fun _ => False) s := by
  have hask : SameCache s s.ask := ⟨rfl, rfl, rfl, rfl, rfl, le_refl _⟩
  have hg : Grows s s.ask := ⟨rfl, rfl, rfl, rfl, rfl, rfl, rfl, rfl, le_refl _, Nat.le_succ _⟩
  have hask2 : SameCache s s.ask.ask := ⟨rfl, rfl, rfl, rfl, rfl, le_refl _⟩
  have hg2 : Grows s s.ask.ask := hg.trans ⟨rfl, rfl, rfl, rfl, rfl, rfl, rfl, rfl, le_refl _, Nat.le_succ _⟩
  unfold ramfsCreate ramfsAddNode
  refine wp_ite (fun hlong => ⟨by decide, ⟨rfl, rfl, rfl, rfl, rfl, le_refl _⟩, Grows.refl s, Or.inl hlong⟩) fun hlen => ?_
  rw [wp_bind, wp_ok (kmalloc_ok s)]
  refine wp_ite (fun hno => ⟨by decide, hask, hg, Or.inr fun hp => ?_⟩) fun _ => ?_
  · rw [hp s.asked (le_refl _)] at hno
    cases hno
  rw [wp_bind, wp_ok (kmalloc_ok _)]
  refine wp_ite (fun hno => ⟨by decide, hask2, hg2, Or.inr fun hp => ?_⟩) fun _ => ?_
  · rw [show s.ask.mem s.ask.asked = s.mem (s.asked + 1) from rfl, hp _ (Nat.le_succ _)] at hno
    cases hno
  have hx' : Function.update s.nodes s.next (some (emptyNode name type)) p = some x := by
    rw [Function.update_of_ne (Nat.ne_of_lt hlt), hx]
  have hnew (a : Fs) : newId a = .ok (a.next, { a with next := a.next + 1 }) := rfl
  have hput (a : Fs) (n : ℕ) (z : Option RamNode) :
      putNode n z a = .ok ((), { a with nodes := Function.update a.nodes n z }) := rfl
  rw [wp_bind, wp_ok (hnew _), wp_bind, wp_ok (hput ..), wp_bind]
  refine (wp_ok (getNode_ok (x := x) ?_)).mpr ?_
  · exact hx'
  rw [wp_bind, wp_ok (hput ..), wp_pure]
  exact ⟨not_lt.mp hlen, rfl⟩

/-! ### Paths that spell names -/

/-- The path is the names, each with a `/` before it, and perhaps one more `/` in front. -/
structure Spells (path : Str) (cs : List Str) : Prop where
  names : ∀ c ∈ cs, IsName c
  fits : path.length ≤ pathMax - 1
  spelling : path = join cs ∧ cs ≠ [] ∨ path = '/' :: join cs

theorem strlcpy_eq {path : Str} (h : path.length ≤ pathMax - 1) : strlcpy path = path := List.take_of_length_le h

theorem Spells.findRoot {path : Str} (h : Spells path cs) : findRoot (strlcpy path) = some (join cs).tail := by
  rw [strlcpy_eq h.fits]
  -- a name does not begin with a slash
  have hhead : (join cs).tail.head? ≠ some '/' := by
    cases cs with
    | nil => simp [join]
    | cons c cs =>
      have hc := h.names c (List.mem_cons_self ..)
      rw [join_cons, List.tail_cons]
      cases c with
      | nil => exact absurd rfl hc.ne
      | cons a c =>
        intro he
        exact hc.noSlash (by rw [List.cons_append, List.head?_cons, Option.some.injEq] at he; simp [he])
  rcases h.spelling with ⟨he, hne⟩ | he
  · obtain ⟨c, cs, rfl⟩ := List.exists_cons_of_ne_nil hne
    rw [he, Coffer.findRoot, join_cons] at *
    rw [List.head?_cons, if_pos rfl, List.tail_cons] at *
    rw [if_neg hhead]
  · rw [he, Coffer.findRoot, List.head?_cons, if_pos rfl, List.tail_cons]
    cases cs with
    | nil => rfl
    | cons c cs => rw [join_cons, List.head?_cons, if_pos rfl]

theorem Spells.components {path : Str} (h : Spells path cs) : components [] (join cs).tail = flagged cs :=
  components_join h.names

theorem Spells.namesOf {path : Str} (h : Spells path cs) : namesOf (join cs).tail = cs := by
  rw [Fs.namesOf, h.components, flagged_fst]

/-- The directory of a path that spells names, and the last of them. -/
theorem Spells.last {path c : Str} (h : Spells path (cs ++ [c])) :
    ∃ dir, lastSlash path = some (dir, c) ∧ Spells (dirPath dir) cs := by
  have hc : IsName c := h.names c (by simp)
  have hcs : ∀ d ∈ cs, IsName d := fun d hd => h.names d (List.mem_append_left _ hd)
  have hlen := h.fits
  rcases h.spelling with ⟨he, -⟩ | he
  · rw [join_concat, List.append_assoc] at he
    rw [he] at hlen ⊢
    refine ⟨join cs, lastSlash_eq hc.noSlash, hcs, ?_, ?_⟩
    · rw [dirPath]
      split
      · simp [pathMax]
      · simp only [List.length_append] at hlen
        omega
    · rw [dirPath]
      split
      · rename_i h0
        exact Or.inr (by rw [h0])
      · rename_i h0
        exact Or.inl ⟨rfl, fun hnil => h0 (by rw [hnil]; rfl)⟩
  · rw [join_concat, List.append_assoc, ← List.cons_append] at he
    rw [he] at hlen ⊢
    refine ⟨'/' :: join cs, lastSlash_eq hc.noSlash, hcs, ?_, ?_⟩
    · rw [dirPath, if_neg (by simp)]
      simp only [List.length_append] at hlen
      omega
    · rw [dirPath, if_neg (by simp)]
      exact Or.inr rfl

theorem Spells.not_slashes {path : Str} (h : Spells path cs) : ¬ Slashes path := by
  rintro ⟨p, hp, hc, hne⟩
  rw [h.findRoot, Option.some.injEq] at hp
  rw [← hp, h.components] at hc
  rw [← hp] at hne
  cases cs with
  | nil => exact hne rfl
  | cons c cs => cases cs <;> simp [flagged] at hc

theorem Spells.lastSlash_strlcpy {path c : Str} (h : Spells path (cs ++ [c])) :
    ∃ dir, lastSlash (strlcpy path) = some (dir, c) ∧ lastSlash path = some (dir, c) ∧ Spells (dirPath dir) cs := by
  obtain ⟨dir, hl, hd⟩ := h.last
  exact ⟨dir, by rw [strlcpy_eq h.fits]; exact hl, hl, hd⟩

end Fs
end Coffer
