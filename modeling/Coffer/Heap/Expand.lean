/-
# `expand`

The wilderness grows by exactly the increment, in the headers and bins (`HeapOk.expand`), and the
new addresses are mapped to the partitions that the monitor has granted (`expand_exact`). The
new addresses must be ones that Sv39 translates, and a gigapage there keeps them from their
partitions, as `map_page` takes its leaf for a table (`expand_inexact`).

Key theorems: `HeapOk.expand`, `expand_exact`.
-/
import Coffer.Heap.Chunks
import Coffer.Access

namespace Coffer
namespace Heap

open Lib

variable {n va : ℕ} {s s' : Sys}

variable {h h' h₁ : Heap} {l cs : List Chunk} {w : Chunk} {sz : ℕ}

/-- The manager and the monitor are no business of the chunks. -/
theorem HeapOk.of_eq (hok : HeapOk h cs) (h1 : h'.start = h.start) (h2 : h'.stop = h.stop) (h3 : h'.bins = h.bins)
    (h4 : h'.mem = h.mem) : HeapOk h' cs :=
  ⟨by rw [h1]; exact hok.pos, by rw [h1, h2]; exact hok.tiles, by rw [h2]; exact hok.bound,
    by rw [h4]; exact hok.chunk, by rw [h3, h4]; exact hok.bins⟩

theorem mapGrants_ok {loop : List MapEvent × Option (List SmReply)} (hr : h.mapGrants loop = .ok h₁) :
    ∃ sys rest, h.sys.execCalls (pteR + pteW + pteX) loop.1 = .ok sys ∧ loop.2 = some rest ∧
      h₁ = { h with sys := sys, replies := rest } := by
  unfold mapGrants at hr
  obtain ⟨sys, hs, hr⟩ := Res.bind_ok hr
  cases hl : loop.2 with
  | none =>
    rw [hl] at hr
    cases hr
  | some rest =>
    rw [hl] at hr
    cases hr
    exact ⟨sys, rest, hs, rfl, rfl⟩

/-- The wilderness with `sz` more bytes. -/
def Chunk.grow (w : Chunk) (sz : ℕ) : Chunk := { w with size := w.size + sz }

/-- **The wilderness grows** by exactly the increment. -/
theorem HeapOk.grow (hok : HeapOk h (l ++ [w])) (hw : w.hole = true) (hsz : h.stop + sz < 2 ^ 64) :
    ∃ bins m, h.growWilderness sz = .ok (1, { h with stop := h.stop + sz, bins := bins, mem := m }) ∧
      HeapOk { h with stop := h.stop + sz, bins := bins, mem := m } (l ++ [w.grow sz]) ∧
      Agree (outer l []) w.addr (h.stop + sz) h.mem m := by
  have hmem : w ∈ l ++ [w] := by simp
  have hcw := hok.chunk w hmem
  have hstop := (tiles_concat.mp hok.tiles).2
  have hlt := w.addr_lt
  have heq := w.stop_eq
  have hfoot : w.foot = w.addr + 32 + w.size := rfl
  have g := Gap.of_chunk hok
  rw [Chunk.bin_hole hw, hstop] at g
  unfold growWilderness
  simp only [hok.getWilderness, hok.getFoot hmem]
  -- the old footer is cleared, and the wilderness leaves its bin
  replace g := g.store_one (a := w.foot) (n := 8) (u := 0) (by omega) (by omega) (by omega)
  have hs : nodeSize (h.mem.store w.foot 8 0) w.addr = w.size := by rw [nodeSize_store (by omega), hcw.size]
  have hh : nodeHole (h.mem.store w.foot 8 0) w.addr = w.hole.toNat := by rw [nodeHole_store (by omega), hcw.hole]
  rw [hs]
  obtain ⟨bins₁, m₁, hr, g, hk⟩ := g.remove_one
  obtain ⟨hs₁, hh₁⟩ := hk.header le_rfl (by omega) fun b hb => Or.inl (le_of_eq hb.symm)
  rw [hr, Res.ok_bind]
  simp only [hs₁, hs]
  -- it is larger, and comes into the bin of its new size
  have hsize : add64 w.size sz = (w.grow sz).size := add64_eq (by omega)
  rw [hsize, add64_eq hsz]
  have hga : (w.grow sz).addr = w.addr := rfl
  have hgrow : (w.grow sz).stop = h.stop + sz := by
    rw [← hstop]
    exact (Nat.add_assoc ..).symm
  replace g := g.extend (t := h.stop + sz) (Nat.le_add_right ..) hsz
  obtain ⟨m₂, hm₂, g, hc₂, -⟩ := g.resize (c := w.grow sz) le_rfl (le_of_eq hgrow) (by rw [hga, hh₁]; exact hh)
    fun b hb => by cases hb
  rw [hga] at hm₂
  rw [hm₂, ← hga, hc₂.size]
  have g' : Gap h.mem { h with stop := h.stop + sz, bins := bins₁, mem := m₂ } l (w.grow sz).addr (w.grow sz).stop []
      noNode := by
    rw [hgrow]
    exact g
  obtain ⟨bins₃, m₃, hr, hok', hag⟩ := g'.hang hc₂ hw
  refine ⟨bins₃, m₃, ?_, hok', hgrow ▸ hag⟩
  rw [hr]
  rfl

/-! ### The partitions -/

/-- The answers of the monitor split a request of `left` partitions: it never suggests more than are left, and goes on
until none is. -/
def Splits : List SmReply → ℕ → ℕ → Prop
  | _, 0, _ => True
  | [], _ + 1, _ => False
  | r :: rs, left + 1, sug =>
    if r.Refused then r.ret ≤ left + 1 ∧ Splits rs (left + 1) r.ret else Splits rs (left + 1 - sug) (left + 1 - sug)

theorem hasPerm_rwx : HasPerm (pteR + pteW + pteX) := Or.inl (by decide)

/-- No gigapage is in the way of the `n` partitions from `va`. -/
def NoGiga (s : Sys) (va n : ℕ) : Prop := ∀ x, va ≤ x → x < va + 0x200000 * n → ∀ pte, s.leaf x ≠ some (.giga, pte)

theorem NoGiga.noLeafAbove {i : ℕ} (hg : NoGiga s va n) (hi : i < n) :
    s.NoLeafAbove (va + Level.mega.size * i) .mega := by
  intro level pte hl
  rw [Level.size] at hl
  cases level with
  | giga => exact absurd hl (hg _ (by omega) (by omega) pte)
  | mega => exact le_rfl
  | page => decide

/-- The slots from `va` are mapped to `parts`, over what was there. -/
structure Installed (s s' : Sys) (va : ℕ) (parts : List ℕ) : Prop where
  slot : ∀ i pa, parts[i]? = some pa → ∀ x < 2 ^ 39, va + 0x200000 * i ≤ x → x < va + 0x200000 * i + 0x200000 →
    s'.leaf x = s.newLeaf x pa (pteR + pteW + pteX) .mega
  other : ∀ x < 2 ^ 39, x < va ∨ va + 0x200000 * parts.length ≤ x → s'.leaf x = s.leaf x

theorem Installed.nil : Installed s s va [] := ⟨by simp, fun _ _ _ => rfl⟩

theorem installed_mapRange {pa : ℕ} (h : PtInv s) (hal : va % 0x200000 = 0)
    (hlt : va + 0x200000 * n ≤ 2 ^ 39) (hg : NoGiga s va n)
    (hr : s.mapRange va pa (pteR + pteW + pteX) .mega n = .ok s') :
    PtInv s' ∧ Installed s s' va ((List.range n).map (Coffer.slot pa)) := by
  obtain ⟨h1, -, h3⟩ := Sys.mapRange_spec h hal hasPerm_rwx hlt (fun i hi => hg.noLeafAbove hi) hr
  have hsz : Level.mega.size = 0x200000 := rfl
  refine ⟨h1, fun i p hp x hx hx1 hx2 => ?_, fun x hx hx' => ?_⟩
  · obtain ⟨hi, rfl⟩ := List.getElem?_eq_some_iff.mp hp
    simp only [List.length_map, List.length_range] at hi
    rw [h3 x, Nat.mod_eq_of_lt hx, if_pos (by rw [hsz]; omega), List.getElem_map, List.getElem_range, Coffer.slot,
      hsz]
    have hidx : (x - va) / 0x200000 = i := by omega
    rw [hidx]
  · simp only [List.length_map, List.length_range] at hx'
    rw [h3 x, Nat.mod_eq_of_lt hx, if_neg (by rw [hsz]; omega)]

theorem Installed.append {s₁ s₂ : Sys} {parts parts' : List ℕ} (h : Installed s s₁ va parts)
    (h' : Installed s₁ s₂ (va + 0x200000 * parts.length) parts') : Installed s s₂ va (parts ++ parts') := by
  refine ⟨fun i pa hp x hx hx1 hx2 => ?_, fun x hx hx' => ?_⟩
  · by_cases hi : i < parts.length
    · rw [List.getElem?_append_left hi] at hp
      rw [h'.other x hx (by omega), h.slot i pa hp x hx hx1 hx2]
    · obtain ⟨j, rfl⟩ : ∃ j, i = parts.length + j := ⟨i - parts.length, by omega⟩
      rw [List.getElem?_append_right (Nat.le_add_right ..), Nat.add_sub_cancel_left] at hp
      have hlo : va + 0x200000 * parts.length + 0x200000 * j ≤ x := by omega
      have hhi : x < va + 0x200000 * parts.length + 0x200000 * j + 0x200000 := by omega
      rw [h'.slot j pa hp x hx hlo hhi, Sys.newLeaf, Sys.newLeaf, Sys.leafAt,
        h.other x hx (by omega), ← Sys.leafAt]
  · rw [List.length_append] at hx'
    rw [h'.other x hx (by omega), h.other x hx (by omega)]

theorem NoGiga.after {parts : List ℕ} (hg : NoGiga s va n) (hlt : va + 0x200000 * n ≤ 2 ^ 39)
    (hI : Installed s s' va parts) (hn : parts.length ≤ n) :
    NoGiga s' (va + 0x200000 * parts.length) (n - parts.length) := by
  intro x hx1 hx2 pte
  rw [hI.other x (by omega) (by omega)]
  exact hg x (by omega) (by omega) pte

/-- The loop of `expand` ends, with as many partitions as were needed. -/
theorem partitionLoop_splits {rs : List SmReply} {left sug : ℕ} (va : ℕ) (hs : Splits rs left sug)
    (hle : sug ≤ left) (hlt : left < 2 ^ 64) :
    (partitionLoop id rs left sug va).2.isSome ∧
      (granted (partitionLoop id rs left sug va).1).length = left := by
  induction rs generalizing left sug va with
  | nil =>
    cases left with
    | zero => exact ⟨rfl, rfl⟩
    | succ left => exact hs.elim
  | cons r rs ih =>
    cases left with
    | zero => exact ⟨rfl, rfl⟩
    | succ left =>
      simp only [Splits] at hs
      simp only [partitionLoop]
      by_cases hr : r.Refused
      · rw [if_pos hr] at hs ⊢
        exact ih va hs.2 hs.1 hlt
      · rw [if_neg hr] at hs ⊢
        have hsub : sub64 (left + 1) sug = left + 1 - sug := sub64_eq hle hlt
        rw [hsub]
        obtain ⟨h1, h2⟩ := ih (add64 va (mul64 sug 0x200000)) hs le_rfl (by omega)
        refine ⟨h1, ?_⟩
        rw [List.cons_append, granted, granted_append, mapCalls, granted_mapCalls, List.nil_append,
          List.length_append, h2, List.length_map, List.length_range]
        omega

/-- **The loop of `expand`.** Each slot is mapped to the next partition that was granted. -/
theorem partitionLoop_installs {rs : List SmReply} {left sug : ℕ}
    (hs : Splits rs left sug) (hle : sug ≤ left) (hinv : PtInv s) (hal : va % 0x200000 = 0)
    (hlt : va + 0x200000 * left ≤ 2 ^ 39) (hg : NoGiga s va left)
    (hr : s.execCalls (pteR + pteW + pteX) (partitionLoop id rs left sug va).1 = .ok s') :
    PtInv s' ∧ Installed s s' va (granted (partitionLoop id rs left sug va).1) := by
  induction rs generalizing s left sug va with
  | nil =>
    cases left with
    | zero =>
      cases hr
      exact ⟨hinv, Installed.nil⟩
    | succ left => exact hs.elim
  | cons r rs ih =>
    cases left with
    | zero =>
      cases hr
      exact ⟨hinv, Installed.nil⟩
    | succ left =>
      simp only [Splits] at hs
      simp only [partitionLoop] at hr ⊢
      by_cases href : r.Refused
      · rw [if_pos href] at hs hr ⊢
        exact ih hs.2 hs.1 hinv hal hlt hg hr
      · rw [if_neg href] at hs hr ⊢
        have hsub : sub64 (left + 1) sug = left + 1 - sug := sub64_eq hle (by omega)
        have hmul : mul64 sug 0x200000 = 0x200000 * sug := by rw [mul64_eq (by omega), Nat.mul_comm]
        rw [hsub, hmul, add64_eq (show va + 0x200000 * sug < 2 ^ 64 by omega)] at hr ⊢
        -- the grant is mapped, then the loop goes on behind it
        rw [List.cons_append, Sys.execCalls, Sys.execCalls_append, Sys.execCalls_mapCalls] at hr
        obtain ⟨s₁, hm, hr⟩ := Res.bind_ok hr
        have hg₁ : NoGiga s va sug := fun x hx1 hx2 => hg x hx1 (by omega)
        obtain ⟨hinv₁, hI⟩ := installed_mapRange hinv hal (by omega) hg₁ hm
        have hlen : ((List.range sug).map (Coffer.slot r.paddr)).length = sug := by simp
        have hg₂ := hg.after hlt hI (by omega)
        rw [hlen] at hg₂
        obtain ⟨h1, h2⟩ := ih hs le_rfl hinv₁ (by omega) (by omega) hg₂ hr
        refine ⟨h1, ?_⟩
        rw [List.cons_append, granted, granted_append, mapCalls, granted_mapCalls, List.nil_append]
        exact hI.append (by rw [hlen]; exact h2)

/-! ### `expand` -/

/-- What a run of `expand` that returned has done to the chunks. -/
theorem HeapOk.expand {r : ℕ} (hok : HeapOk h (l ++ [w])) (hw : w.hole = true) (hsz : h.stop + sz < 2 ^ 64)
    (hr : h.expand sz = .ok (r, h')) :
    h'.start = h.start ∧ h'.stop = h.stop + sz ∧ HeapOk h' (l ++ [w.grow sz]) ∧
      Agree (outer l []) w.addr h'.stop h.mem h'.mem := by
  unfold Heap.expand at hr
  obtain ⟨h₁, hm, hr⟩ := Res.bind_ok hr
  obtain ⟨sys, rest, -, -, rfl⟩ := mapGrants_ok hm
  have hok₁ : HeapOk { h with sys := sys, replies := rest } (l ++ [w]) := hok.of_eq rfl rfl rfl rfl
  obtain ⟨bins, m, hg, hok', hag⟩ := hok₁.grow hw hsz
  rw [hg] at hr
  obtain ⟨-, rfl⟩ := Res.ok_pair hr
  exact ⟨rfl, rfl, hok', hag⟩

/-- A canonical address with a leaf. -/
def IsMapped (s : Sys) (x : ℕ) : Prop := Canonical x ∧ (s.leaf x).isSome

/-- What `expand` is for: the last hole and the end of the heap have grown by `sz`, the other chunks are as they were
but for the links of holes, and the new slots are mapped to the partitions granted, one each. -/
structure Expanded (h h' : Heap) (l : List Chunk) (w : Chunk) (sz : ℕ) : Prop where
  start : h'.start = h.start
  stop : h'.stop = h.stop + sz
  chunks : HeapOk h' (l ++ [w.grow sz])
  kept : ∀ c ∈ l, ∀ x, c.addr ≤ x → x < c.stop → (c.hole = true → x < c.addr + 16 ∨ c.addr + 32 ≤ x) →
    h'.mem x = h.mem x
  old : ∀ x < partitionUp h.stop, h'.sys.leaf x = h.sys.leaf x
  slots : ∃ parts, parts = granted (partitionLoop id h.replies (h.nrPart sz) (h.nrPart sz) (partitionUp h.stop)).1 ∧
    partitionUp h.stop + 0x200000 * parts.length = partitionUp h'.stop ∧
    ∀ i pa, parts[i]? = some pa → ∀ x, partitionUp h.stop + 0x200000 * i ≤ x →
      x < partitionUp h.stop + 0x200000 * i + 0x200000 →
      ∃ old : Pte, h'.sys.leaf x = some (.mega, old.map (pteR + pteW + pteX) pa)
  mapped : (∀ x < partitionUp h.stop, IsMapped h.sys x) → ∀ x < partitionUp h'.stop, IsMapped h'.sys x

theorem nrPart_eq (hsz : h.stop + sz + 0x200000 < 2 ^ 64) :
    partitionUp h.stop + 0x200000 * h.nrPart sz = partitionUp (h.stop + sz) := by
  have hle := partitionUp_mono (a := h.stop) (b := h.stop + sz) (by omega) (by omega)
  have h1 := partitionUp_aligned h.stop
  have h2 := partitionUp_aligned (h.stop + sz)
  rw [nrPart, add64_eq (by omega), sub64_eq hle (partitionUp_lt _)]
  omega

/-- **`expand` is exact.** From every well-formed heap whose last chunk is a hole, for every increment, and however the
monitor splits the request: where the new addresses are canonical with no gigapage in the way, and the S-mode pool
has the pages for the tables, `expand` returns 1 and does what it is for. -/
theorem expand_exact (h : Heap) (l : List Chunk) (w : Chunk) (sz : ℕ) (hok : HeapOk h (l ++ [w])) (hw : w.hole = true)
    (hsz : h.stop + sz + 0x200000 < 2 ^ 64) (hinv : PtInv h.sys) (hend : partitionUp (h.stop + sz) ≤ 2 ^ 38)
    (hgiga : NoGiga h.sys (partitionUp h.stop) (h.nrPart sz))
    (hsm : Splits h.replies (h.nrPart sz) (h.nrPart sz)) (hpool : h.expand sz ≠ .error poolPanic) :
    ∃ h', h.expand sz = .ok (1, h') ∧ Expanded h h' l w sz := by
  have hnr := nrPart_eq hsz
  obtain ⟨hl, h4⟩ := partitionLoop_splits (partitionUp h.stop) hsm le_rfl (by omega)
  obtain ⟨rest, hrest⟩ := Option.isSome_iff_exists.mp hl
  have hne : h.sys.execCalls (pteR + pteW + pteX)
      (partitionLoop id h.replies (h.nrPart sz) (h.nrPart sz) (partitionUp h.stop)).1 ≠ .error poolPanic := by
    intro hp
    refine hpool ?_
    rw [Heap.expand, mapGrants, hp]
    rfl
  obtain ⟨s', h2, -⟩ := (Sys.execCalls_served _ _ _).of_ne hne
  obtain ⟨-, h5⟩ := partitionLoop_installs hsm le_rfl hinv (partitionUp_aligned _) (by omega) hgiga h2
  have hmap : h.mapGrants (partitionLoop id h.replies (h.nrPart sz) (h.nrPart sz) (partitionUp h.stop)) =
      .ok { h with sys := s', replies := rest } := by
    rw [mapGrants, h2, hrest]
    rfl
  have hok₁ : HeapOk { h with sys := s', replies := rest } (l ++ [w]) := hok.of_eq rfl rfl rfl rfl
  obtain ⟨bins, m, hg, hok', hag⟩ := hok₁.grow hw (by show h.stop + sz < 2 ^ 64; omega)
  generalize hevs : (partitionLoop id h.replies (h.nrPart sz) (h.nrPart sz) (partitionUp h.stop)).1 = evs at h4 h5
  have hlen : partitionUp h.stop + 0x200000 * (granted evs).length = partitionUp (h.stop + sz) := by rw [h4, hnr]
  refine ⟨⟨h.start, h.stop + sz, bins, m, s', rest⟩, by rw [Heap.expand, hmap, Res.ok_bind, hg], ?_⟩
  refine ⟨rfl, rfl, hok', fun c hc x hx1 hx2 hx => ?_, fun x hx => ?_,
    ⟨granted evs, by rw [hevs], hlen, fun i pa hp x hx1 hx2 => ?_⟩, fun hold x hx => ?_⟩
  · have hbefore := ((tiles_concat.mp hok.tiles).1.bounds hc).2
    exact Agree.chunk hok.tiles hag (by simp +contextual) (List.mem_append_left _ hc) (Or.inl hbefore) hx1 hx2 hx
  · exact h5.other x (by omega) (Or.inl hx)
  · have hi := (List.getElem?_eq_some_iff.mp hp).1
    exact ⟨_, h5.slot i pa hp x (by omega) hx1 hx2⟩
  · change x < partitionUp (h.stop + sz) at hx
    refine ⟨Or.inl (by omega), ?_⟩
    by_cases hxo : x < partitionUp h.stop
    · have heq := h5.other x (by omega) (Or.inl hxo)
      rw [heq]
      exact (hold x hxo).2
    · obtain ⟨i, hi⟩ : ∃ i, i = (x - partitionUp h.stop) / 0x200000 := ⟨_, rfl⟩
      have hi' : i < (granted evs).length := by omega
      have heq := h5.slot i _ (List.getElem?_eq_getElem hi') x (by omega) (by omega) (by omega)
      rw [heq]
      rfl

/-- An empty page table and `size` bytes of S-mode pool. -/
def poolSys (size : ℕ) : Sys := { Sys.smallBoot with smodePool := ⟨0x100000, size, 0⟩ }

/-- A page of `level` is mapped at 0. -/
def pageAtZero (level : Level) (size : ℕ) : Sys :=
  ((poolSys size).mapPage 0 0x80000000 (pteR + pteW + pteX) level).toOption.getD Sys.blank

theorem pageAtZero_spec {level : Level} {size : ℕ} (henv : PtEnv (poolSys size))
    (hr : ((poolSys size).mapPage 0 0x80000000 (pteR + pteW + pteX) level).toOption.isSome) :
    PtInv (pageAtZero level size) ∧ ∀ x < 2 ^ 39, (x < level.size → ∃ pte, (pageAtZero level size).leaf x =
      some (level, pte)) ∧ (level.size ≤ x → (pageAtZero level size).leaf x = none) := by
  obtain ⟨hinv, hnone⟩ := henv.boot fun _ _ _ => rfl
  obtain ⟨s, hs⟩ := Option.isSome_iff_exists.mp hr
  have hzero : pageAtZero level size = s := by rw [pageAtZero, hs, Option.getD_some]
  obtain ⟨h1, -, hleaf⟩ := Sys.mapPage_spec hinv (fun l pte hl => by rw [hnone] at hl; cases hl) hasPerm_rwx
    (Res.eq_ok_of_toOption hs)
  have hsame : ∀ x < 2 ^ 39, (SamePage level 0 x ↔ x < level.size) := fun x hx => by
    cases level <;> simp only [Level.size, SamePage] at * <;> omega
  rw [hzero]
  refine ⟨h1, fun x hx => ⟨fun hlt => ⟨_, (hleaf x).trans (if_pos ((hsame x hx).mpr hlt))⟩, fun hle => ?_⟩⟩
  rw [hleaf x, if_neg (mt (hsame x hx).mp (by omega)), hnone]

theorem megaAtZero : PtInv (pageAtZero .mega 0x10000) ∧ ∀ x < 2 ^ 39, (x < Level.mega.size →
    ∃ pte, (pageAtZero .mega 0x10000).leaf x = some (.mega, pte)) ∧
      (Level.mega.size ≤ x → (pageAtZero .mega 0x10000).leaf x = none) :=
  pageAtZero_spec ⟨by decide, by decide, by decide, by decide, by decide, fun _ _ _ => rfl⟩ (by decide +kernel)

/-- A hole of 64 bytes, a chunk in use and a wilderness of 16 bytes; the monitor has two partitions in one place and
one in another. -/
def twoHoles : Heap :=
  { layout 0x1000 0x10c8 [⟨0x1000, 64, true⟩, ⟨0x1068, 0, false⟩, ⟨0x1090, 16, true⟩] (pageAtZero .mega 0x10000) with
    replies := [⟨2, 2 ^ 64 - 1⟩, ⟨0, 0x90000000⟩, ⟨0, 0xa0000000⟩] }

theorem twoHoles_ok : HeapOk twoHoles ([⟨0x1000, 64, true⟩, ⟨0x1068, 0, false⟩] ++ [⟨0x1090, 16, true⟩]) :=
  HeapOk.of_singles (by decide) (by decide) (by decide) (by decide) (by decide) (by decide) (by decide)

theorem twoHoles_mapped : ∀ x < partitionUp twoHoles.stop, IsMapped twoHoles.sys x := by
  have hup : partitionUp twoHoles.stop = Level.mega.size := by decide
  have hsz : Level.mega.size = 0x200000 := rfl
  intro x hx
  obtain ⟨pte, hl⟩ := (megaAtZero.2 x (by omega)).1 (hup ▸ hx)
  have hsys : twoHoles.sys = pageAtZero .mega 0x10000 := rfl
  exact ⟨Or.inl (by omega), by rw [hsys, hl]; rfl⟩

/-- The wilderness grows by three partitions, which come in two grants. -/
theorem expand_exact_split :
    HeapOk twoHoles ([⟨0x1000, 64, true⟩, ⟨0x1068, 0, false⟩] ++ [⟨0x1090, 16, true⟩]) ∧
    (∀ x < partitionUp twoHoles.stop, IsMapped twoHoles.sys x) ∧
    granted (partitionLoop id twoHoles.replies (twoHoles.nrPart 0x600000) (twoHoles.nrPart 0x600000)
      (partitionUp twoHoles.stop)).1 = [0x90000000, 0x90200000, 0xa0000000] ∧
    ∃ h', twoHoles.expand 0x600000 = .ok (1, h') ∧
      Expanded twoHoles h' [⟨0x1000, 64, true⟩, ⟨0x1068, 0, false⟩] ⟨0x1090, 16, true⟩ 0x600000 := by
  have hnr : twoHoles.nrPart 0x600000 = 3 := by decide
  have hup : partitionUp twoHoles.stop = 0x200000 := by decide
  have hsys : twoHoles.sys = pageAtZero .mega 0x10000 := rfl
  refine ⟨twoHoles_ok, twoHoles_mapped, by decide, expand_exact twoHoles _ _ 0x600000 twoHoles_ok rfl (by decide)
    megaAtZero.1 (by decide) (fun x hx1 hx2 pte => ?_) ?_ fun hp => ?_⟩
  · rw [hup] at hx1 hx2
    rw [hnr] at hx2
    have hsz : Level.mega.size = 0x200000 := rfl
    rw [hsys, (megaAtZero.2 x (by omega)).2 (by omega)]
    exact Option.some_ne_none _ ∘ Eq.symm
  · rw [hnr]
    simp [Splits, twoHoles, SmReply.Refused]
  · have hrun : (twoHoles.expand 0x600000).toOption.isSome = true := by decide +kernel
    rw [hp] at hrun
    cases hrun

/-! ### Where the provisos are needed -/

/-- A gigapage at 0, with and without pages in the pool. -/
theorem gigaAtZero {size : ℕ} (h : size = 0 ∨ size = 0x10000) {x : ℕ} (hx : x < 0x40000000) :
    IsMapped (pageAtZero .giga size) x := by
  have hsz : Level.giga.size = 0x40000000 := rfl
  have hspec : ∃ pte, (pageAtZero .giga size).leaf x = some (.giga, pte) := by
    rcases h with rfl | rfl
    · exact ((pageAtZero_spec ⟨by decide, by decide, by decide, by decide, by decide, fun _ _ _ => rfl⟩
        (by decide +kernel)).2 x (by omega)).1 (by omega)
    · exact ((pageAtZero_spec ⟨by decide, by decide, by decide, by decide, by decide, fun _ _ _ => rfl⟩
        (by decide +kernel)).2 x (by omega)).1 (by omega)
  obtain ⟨pte, hl⟩ := hspec
  exact ⟨Or.inl (by omega), by rw [hl]; rfl⟩

/-- A hole of 256 bytes that ends at `stop`, and one partition to be granted. -/
def oneHole (stop : ℕ) (s : Sys) : Heap :=
  { layout (stop - 0x128) stop [⟨stop - 0x128, 0x100, true⟩] s with replies := [⟨0, 0x90000000⟩] }

theorem oneHole_splits (stop : ℕ) (s : Sys) : Splits (oneHole stop s).replies 1 1 := by
  simp [Splits, oneHole, SmReply.Refused]

/-- A hole up to 1 GiB, all of which is one gigapage, and no page in the S-mode pool. -/
def noPages : Heap := oneHole 0x40000000 (pageAtZero .giga 0)

/-- A hole in a gigapage. -/
def inGiga : Heap := oneHole 0x1128 (pageAtZero .giga 0x10000)

/-- A root table at `0x80000` in which the 256 gigapages of the lower half are mapped, each to itself. -/
def halfMem (a : ℕ) : UInt8 :=
  if 0x80000 ≤ a ∧ a < 0x80800 then
    .ofNat ((0x10000000 * ((a - 0x80000) / 8) + 0xf) / 2 ^ (8 * ((a - 0x80000) % 8)))
  else 0

def halfSys : Sys := { Sys.smallBoot with mem := halfMem }

/-- A hole up to the end of the lower half. -/
def lastHole : Heap := oneHole 0x4000000000 halfSys

theorem halfSys_mapped {x : ℕ} (hx : x < 2 ^ 38) : IsMapped halfSys x := by
  have hentry : ∀ i : Fin 512, (i : ℕ) < 256 →
      ∃ pte, tables halfSys.mem halfSys.rootPage i = .leaf pte := by
    intro i hi
    have hv : ∀ i : Fin 512, (i : ℕ) < 256 → (pteAt halfSys.mem halfSys.rootPage i).v = true ∧
        (pteAt halfSys.mem halfSys.rootPage i).isLeaf = true := by decide +kernel
    exact ⟨_, tables_leaf (hv i hi).1 (hv i hi).2⟩
  have hvpn : (getVpn x 2 : ℕ) < 256 := by
    simp only [getVpn, Fin.ofNat]
    omega
  obtain ⟨pte, hp⟩ := hentry _ hvpn
  refine ⟨Or.inl hx, ?_⟩
  rw [Sys.leaf, vpns, Radix.walk_leaf hp]
  rfl

/-- The hypotheses of exactness other than those on the tables: a heap in order that ends in a hole, with everything
below its end mapped, and a monitor that serves the request. -/
structure Expandable (h : Heap) (sz : ℕ) (l : List Chunk) (w : Chunk) : Prop where
  ok : HeapOk h (l ++ [w])
  hole : w.hole = true
  mapped : ∀ x < partitionUp h.stop, IsMapped h.sys x
  fits : h.stop + sz + 0x200000 < 2 ^ 64
  served : Splits h.replies (h.nrPart sz) (h.nrPart sz)

theorem Expandable.of_oneHole {stop : ℕ}
    (hok : HeapOk (oneHole stop s) ([] ++ [⟨stop - 0x128, 0x100, true⟩]))
    (hm : ∀ x < partitionUp stop, IsMapped s x) (hfit : stop + 0x200000 + 0x200000 < 2 ^ 64)
    (hnr : (oneHole stop s).nrPart 0x200000 = 1) :
    Expandable (oneHole stop s) 0x200000 [] ⟨stop - 0x128, 0x100, true⟩ :=
  ⟨hok, rfl, hm, hfit, by rw [hnr]; exact oneHole_splits stop s⟩

theorem noPages_expandable : Expandable noPages 0x200000 [] ⟨0x40000000 - 0x128, 0x100, true⟩ := by
  have hup : partitionUp 0x40000000 = 0x40000000 := by decide
  refine Expandable.of_oneHole ?_ (fun x hx => gigaAtZero (Or.inl rfl) (hup ▸ hx)) (by decide) (by decide)
  exact HeapOk.of_singles (by decide) (by decide) (by decide) (by decide) (by decide) (by decide) (by decide)

theorem inGiga_expandable : Expandable inGiga 0x200000 [] ⟨0x1128 - 0x128, 0x100, true⟩ := by
  have hup : partitionUp 0x1128 = 0x200000 := by decide
  refine Expandable.of_oneHole ?_ (fun x hx => gigaAtZero (Or.inr rfl) (by omega)) (by decide) (by decide)
  exact HeapOk.of_singles (by decide) (by decide) (by decide) (by decide) (by decide) (by decide) (by decide)

theorem lastHole_expandable : Expandable lastHole 0x200000 [] ⟨0x4000000000 - 0x128, 0x100, true⟩ := by
  have hup : partitionUp 0x4000000000 = 2 ^ 38 := by decide
  refine Expandable.of_oneHole ?_ (fun x hx => halfSys_mapped (hup ▸ hx)) (by decide) (by decide)
  exact HeapOk.of_singles (by decide) (by decide) (by decide) (by decide) (by decide) (by decide) (by decide)

/-- A run of `expand` by what it returns and a value of its result. -/
theorem expand_of_run {α : Type} (h : Heap) (sz : ℕ) (f : Heap → α) {a : α}
    (hr : ((h.expand sz).toOption.map fun r => (r.1, f r.2)) = some (1, a)) :
    ∃ h', h.expand sz = .ok (1, h') ∧ f h' = a := by
  obtain ⟨⟨r, h'⟩, hr, hv⟩ := Option.map_eq_some_iff.mp hr
  simp only [Prod.mk.injEq] at hv
  obtain ⟨rfl, hv⟩ := hv
  exact ⟨h', Res.eq_ok_of_toOption hr, hv⟩

/-- **Where `expand` is not exact.** In the first heap the wilderness comes into the bin of another hole, in whose
header the link to the next node changes. In the second the table for the new slot cannot be allocated. In the third
the new slot stays in its gigapage. The fourth grows beyond the addresses that Sv39 translates. -/
theorem expand_inexact :
    (∃ l w, Expandable twoHoles 48 l w ∧ ∃ h', twoHoles.expand 48 = .ok (1, h') ∧
      ∃ c ∈ l, nodeNext h'.mem c.addr ≠ nodeNext twoHoles.mem c.addr) ∧
    (∃ l w, Expandable noPages 0x200000 l w ∧ noPages.expand 0x200000 = .error poolPanic) ∧
    (∃ l w, Expandable inGiga 0x200000 l w ∧ ∃ h', inGiga.expand 0x200000 = .ok (1, h') ∧
      (h'.sys.leaf 0x200000).map Prod.fst = some .giga) ∧
    ∃ l w, Expandable lastHole 0x200000 l w ∧ ∃ h', lastHole.expand 0x200000 = .ok (1, h') ∧
      ∃ x < partitionUp h'.stop, ¬ IsMapped h'.sys x := by
  refine ⟨⟨_, _, ⟨twoHoles_ok, rfl, twoHoles_mapped, by decide, ?_⟩, ?_⟩,
    ⟨_, _, noPages_expandable, eq_panic (by decide +kernel)⟩, ⟨_, _, inGiga_expandable, ?_⟩,
    _, _, lastHole_expandable, ?_⟩
  · have hnr : twoHoles.nrPart 48 = 0 := by decide
    rw [hnr]
    simp [Splits, twoHoles]
  · obtain ⟨h', hr, hv⟩ := expand_of_run twoHoles 48 (fun h' => nodeNext h'.mem 0x1000)
      (a := 0x1090) (by decide +kernel)
    refine ⟨h', hr, ⟨0x1000, 64, true⟩, by simp, ?_⟩
    rw [hv]
    decide
  · exact expand_of_run _ _ _ (by decide +kernel)
  · obtain ⟨h', hr, hv⟩ := expand_of_run lastHole 0x200000 stop (a := 0x4000200000)
      (by decide +kernel)
    refine ⟨h', hr, 2 ^ 38, by rw [hv]; decide, fun hm => ?_⟩
    exact absurd hm.1 (by decide)

end Heap
end Coffer
