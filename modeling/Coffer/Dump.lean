/-
# The dump of the page table

`__dump_page_table` walks all tables and prints a line for every leaf. It keeps the address it has come to in
one static record, whose fields are set on the way down and reset on the way out of a table; on the way out of a
table below the root the field `vpn1` is set to 1 and not to 0. The record outlives the dump.

A leaf in the root table shows the record as it stands, so after a table it is printed 2 MiB too high.
`dumpPageTable_iff`: the dump of a table that `map_page` built is right exactly if no gigapage lies above a
smaller page and none is dumped after an earlier dump has left the 1 behind.

Key definitions: `Sys.dumpPageTable`, `Truthful`, `Built`.
Key theorems: `Built.run`, `Built.dump`, `dumpPageTable_iff`.
-/
import Coffer.TableWrites

namespace Coffer

open Lib

/-! ### `__dump_page_table` -/

/-- The static `sv39_vaddr_t`; its offset is never set. -/
structure DumpAddr where
  extension : ℕ
  vpn2 : Fin 512
  vpn1 : Fin 512
  vpn0 : Fin 512
deriving DecidableEq, Repr

namespace DumpAddr

/-- `sv39_to_va`. -/
def toVa (v : DumpAddr) : ℕ := 2 ^ 12 * v.vpn0 + 2 ^ 21 * v.vpn1 + 2 ^ 30 * v.vpn2 + 2 ^ 39 * v.extension

/-- The field of the level is set for entry `i`. -/
def enter (v : DumpAddr) (i : Fin 512) : Level → DumpAddr
  | .page => { v with vpn0 := i }
  | .mega => { v with vpn1 := i }
  | .giga => { v with vpn2 := i, extension := if (i : ℕ) >>> 8 ≠ 0 then 2 ^ 25 - 1 else 0 }

/-- The field of the level after its last entry. -/
def leave (v : DumpAddr) : Level → DumpAddr
  | .page => { v with vpn0 := 0 }
  | .mega => { v with vpn1 := 1 }
  | .giga => { v with vpn2 := 0, extension := 0 }

/-- The record as it is initialised. -/
def init : DumpAddr := ⟨0, 0, 0, 0⟩

theorem enter_enter (v : DumpAddr) (i j : Fin 512) (level : Level) : (v.enter i level).enter j level = v.enter j level := by
  cases level <;> rfl

end DumpAddr

/-- A line of `show_pte`; it prints the flags of `pte`. -/
structure DumpLine where
  va : ℕ
  pa : ℕ
  size : ℕ
  pte : Pte
deriving DecidableEq, Repr

/-- `show_pte`. The shift of the 44-bit field `ppn` is itself 44 bits wide. -/
def showPte (va : ℕ) (pte : Pte) (level : Level) : DumpLine := ⟨va, 0x1000 * pte.ppn.toNat % 2 ^ 44, level.size, pte⟩

namespace Sys

/-- The loop over the entries of a table. -/
def dumpLoop (s : Sys) (level : Level) (table : ℕ) (below : ℕ → DumpAddr → Res (List DumpLine × DumpAddr)) :
    List (Fin 512) → DumpAddr → Res (List DumpLine × DumpAddr)
  | [], v => .ok ([], v)
  | i :: is, v =>
    let pte := s.readPte (table + 8 * i)
    if pte.v = false then s.dumpLoop level table below is v
    else if pte.isLeaf then do
      let (out, v') ← s.dumpLoop level table below is (v.enter i level)
      .ok (showPte (v.enter i level).toVa pte level :: out, v')
    else do
      let (out, v) ← below (0x1000 * pte.ppn.toNat % 2 ^ 44) (v.enter i level)
      let (out', v) ← s.dumpLoop level table below is v
      .ok (out ++ out', v)

/-- `__dump_page_table`, for a table with `n` levels from it down: level `3 - n` of the source. -/
def dumpTable (s : Sys) : ℕ → ℕ → DumpAddr → Res (List DumpLine × DumpAddr)
  | 0, _, _ => .error (.panic "invalid level\n")
  | n + 1, table, v => do
    let (out, v) ← s.dumpLoop (Level.ofRest n) table (s.dumpTable n) (List.finRange 512) v
    .ok (out, v.leave (Level.ofRest n))

/-- `dump_page_table`: the lines it prints, and the static record after it. -/
def dumpPageTable (s : Sys) (v : DumpAddr) : Res (List DumpLine × DumpAddr) := s.dumpTable 3 s.tableRoot v

end Sys

/-! ### What a right dump is -/

/-- The canonical address with bits 0 to 38 of `va`. -/
def canonical (va : ℕ) : ℕ := va % 2 ^ 39 + if va / 2 ^ 38 % 2 = 1 then 2 ^ 64 - 2 ^ 39 else 0

/-- The canonical start of the page of `va`. -/
def pageStart (level : Level) (va : ℕ) : ℕ := canonical (va / level.size * level.size)

/-- One line for every page that the calls mapped, with its start, and the address `get_pa` gives for it. -/
structure Truthful (s : Sys) (cs : List MapCall) (out : List DumpLine) : Prop where
  once : (out.map fun l => (l.size, l.va)).Nodup
  pages : ∀ size va, (size, va) ∈ out.map (fun l => (l.size, l.va)) ↔
    ∃ c ∈ cs, size = c.level.size ∧ va = pageStart c.level c.va
  pa : ∀ l ∈ out, s.getPa l.va = ([], l.pa)

/-- No range is mapped at two levels, and every call gives some permission. -/
structure OneLevelCalls (cs : List MapCall) : Prop where
  perm : ∀ c ∈ cs, HasPerm c.flags
  level : ∀ c ∈ cs, ∀ c' ∈ cs, ∀ x, SamePage c.level c.va x → SamePage c'.level c'.va x → c.level = c'.level

/-! ### Tables that `map_page` built -/

/-- The tables hold the pages of `cs`, every table lies on the way to one of them, and the pool lies where the
44 bits of an address reach. -/
structure Built (s : Sys) (cs : List MapCall) : Prop where
  inv : PtInv s
  low : s.poolStart .smode + s.smodePool.size ≤ 2 ^ 44
  path : ∀ ρ q, Radix.descend (tables s.mem) s.rootPage ρ = some q →
    ρ = [] ∨ ∃ c ∈ cs, ρ <+: upperVpns c.va c.level
  leaf : ∀ x level, (∃ pte, s.leaf x = some (level, pte)) ↔ ∃ c ∈ cs, c.level = level ∧ SamePage level c.va x

section Build

variable {s s' s'' : Sys} {va pa flags : ℕ} {level : Level} {path ρ : List (Fin 512)} {p q table : ℕ}

/-- A round of the loop of `get_leaf_pte` adds at most the table it goes to. -/
theorem nextTable_paths {vpn : Fin 512} (h : PtInv s)
    (hreach : Radix.descend (tables s.mem) s.rootPage path = some p) (hn : ∀ pte, tables s.mem p vpn ≠ .leaf pte)
    (hr : s.nextTable (0x1000 * p) vpn true = .ok (table, s'))
    (hd : Radix.descend (tables s'.mem) s.rootPage ρ = some q) :
    ρ = path ++ [vpn] ∨ Radix.descend (tables s.mem) s.rootPage ρ = some q := by
  obtain ⟨owner, hS⟩ := h
  have hp : owner p = some path := by simpa using hS.shape.descend_owner hS.shape.root_owner hreach
  obtain ⟨r, -, ⟨-, rfl⟩ | ⟨hi, ho, hempty, -, -, htab⟩⟩ := hS.nextTable hp hn hr
  · exact Or.inr hd
  · rw [htab, Radix.descend_write_fresh hS.shape hreach hi ho hempty] at hd
    split_ifs at hd with he
    · exact Or.inl he
    · exact Or.inr hd

theorem Descent.paths {last : Fin 512} {deep us : List (Fin 512)} (h : Descent s s' path p)
    (hn : ∀ rest pte, Radix.walk (tables s.mem) s.rootPage (path ++ us ++ last :: deep) =
      some (rest, pte) → rest.length ≤ deep.length)
    (hr : s'.descendTables (0x1000 * p) true us = .ok (table, s''))
    (hd : Radix.descend (tables s''.mem) s.rootPage ρ = some q) :
    ρ <+: path ++ us ∨ Radix.descend (tables s'.mem) s.rootPage ρ = some q := by
  induction us generalizing path s' p with
  | nil =>
    simp only [Sys.descendTables, Except.ok.injEq, Prod.mk.injEq] at hr
    obtain ⟨-, rfl⟩ := hr
    exact Or.inr hd
  | cons u us ih =>
    simp only [Sys.descendTables] at hr
    obtain ⟨⟨t, s1⟩, hr1, hr2⟩ := Res.bind_ok hr
    obtain ⟨q', rfl, h'⟩ := h.next (h.not_leaf hn) hr1
    rcases ih h' (by simpa using hn) hr2 with hpre | hd'
    · exact Or.inl (by simpa using hpre)
    · have hreach := h.reach
      rw [← h.frame.rootPage] at hreach hd'
      rcases nextTable_paths h.inv hreach (h.not_leaf hn) hr1 hd' with rfl | hold
      · exact Or.inl (by simp)
      · rw [h.frame.rootPage] at hold
        exact Or.inr hold

/-- The tables after `map_page` lie on the way to its page, or were there before. -/
theorem mapPage_paths (h : PtInv s) (hn : s.NoLeafAbove va level) (hf : HasPerm flags)
    (hr : s.mapPage va pa flags level = .ok s') (hd : Radix.descend (tables s'.mem) s'.rootPage ρ = some q) :
    ρ <+: upperVpns va level ∨ Radix.descend (tables s.mem) s.rootPage ρ = some q := by
  unfold Sys.mapPage at hr
  obtain ⟨⟨addr, s1⟩, hr1, hr2⟩ := Res.bind_ok hr
  obtain ⟨p, rfl, hD⟩ := Sys.getLeafPte_alloc h hn hr1
  unfold Sys.getLeafPte at hr1
  obtain ⟨⟨table, s2⟩, hr3, hr4⟩ := Res.bind_ok hr1
  simp only [Bool.true_eq_false, and_false, if_false, Except.ok.injEq, Prod.mk.injEq] at hr2 hr4
  obtain ⟨-, rfl⟩ := hr4
  have hleaf := Pte.map_isLeaf (s2.readPte (0x1000 * p + 8 * (lastVpn va level : ℕ))) pa hf
  generalize (s2.readPte (0x1000 * p + 8 * (lastVpn va level : ℕ))).map flags pa = pte at hleaf hr2
  subst hr2
  obtain ⟨owner, hS⟩ := hD.inv
  have hroot : (s2.writePte (0x1000 * p + 8 * lastVpn va level) pte).rootPage = s2.rootPage := rfl
  have htab : tables (s2.writePte (0x1000 * p + 8 * lastVpn va level) pte).mem =
      Radix.write (tables s2.mem) p (lastVpn va level) pte.entry := tables_store _ _ _ _
  have hreach := hD.reach
  rw [← hD.frame.rootPage] at hreach
  rw [htab, hroot] at hd
  have hd' := Radix.descend_of_write hS.shape hreach (fun r => by
    rw [Pte.entry_leaf hleaf.1 hleaf.2]
    simp) hd
  rw [hD.frame.rootPage] at hd'
  have hroot' : s.tableRoot = 0x1000 * s.rootPage := by
    obtain ⟨owner, hS⟩ := h
    exact hS.root_eq
  rw [hroot'] at hr3
  exact (Descent.refl h).paths hn.walk hr3 hd'

end Build

theorem Built.step {s s' : Sys} {cs : List MapCall} {c : MapCall} (h : Built s cs) (hone : OneLevelCalls (cs ++ [c]))
    (hr : s.mapPage c.va c.pa c.flags c.level = .ok s') : Built s' (cs ++ [c]) := by
  have hc : c ∈ cs ++ [c] := by simp
  have hold {c' : MapCall} (hc' : c' ∈ cs) : c' ∈ cs ++ [c] := List.mem_append_left _ hc'
  have hn : s.NoLeafAbove c.va c.level := by
    intro l pte hl
    obtain ⟨c', hc', rfl, hsame⟩ := (h.leaf c.va l).mp ⟨pte, hl⟩
    exact le_of_eq (congrArg Level.toNat (hone.level c hc c' (hold hc') c.va rfl hsame))
  obtain ⟨h1, h2, h3⟩ := Sys.mapPage_spec h.inv hn (hone.perm c hc) hr
  refine ⟨h1, by rw [h2.poolStart, h2.size]; exact h.low, fun ρ q hd => ?_, fun x level => ?_⟩
  · rcases mapPage_paths h.inv hn (hone.perm c hc) hr hd with hpre | hd
    · exact Or.inr ⟨c, hc, hpre⟩
    · rcases h.path ρ q hd with rfl | ⟨c', hc', hpre⟩
      · exact Or.inl rfl
      · exact Or.inr ⟨c', hold hc', hpre⟩
  · rw [h3 x]
    by_cases hs : SamePage c.level c.va x
    · rw [if_pos hs]
      constructor
      · rintro ⟨pte, hp⟩
        rw [Option.some.injEq, Prod.mk.injEq] at hp
        obtain ⟨rfl, -⟩ := hp
        exact ⟨c, hc, rfl, hs⟩
      · rintro ⟨c', hc', rfl, hs'⟩
        exact ⟨_, by rw [hone.level c hc c' hc' x hs hs']⟩
    · rw [if_neg hs, h.leaf]
      constructor
      · rintro ⟨c', hc', hl⟩
        exact ⟨c', hold hc', hl⟩
      · rintro ⟨c', hc', rfl, hs'⟩
        rcases List.mem_append.mp hc' with hc' | hc'
        · exact ⟨c', hc', rfl, hs'⟩
        · rw [List.mem_singleton.mp hc'] at hs'
          exact absurd hs' hs

theorem Built.run {s s' : Sys} {done cs : List MapCall} (h : Built s done) (hone : OneLevelCalls (done ++ cs))
    (hr : s.mapAll cs = .ok s') : Built s' (done ++ cs) := by
  induction cs generalizing s done with
  | nil =>
    cases hr
    simpa using h
  | cons c cs ih =>
    obtain ⟨s1, hr1, hr2⟩ := Res.bind_ok hr
    have hone₁ : OneLevelCalls (done ++ [c]) := by
      have hsub : ∀ x ∈ done ++ [c], x ∈ done ++ c :: cs := by
        intro x hx
        simp only [List.mem_append, List.mem_cons, List.not_mem_nil, or_false] at hx ⊢
        tauto
      exact ⟨fun x hx => hone.perm x (hsub x hx), fun x hx y hy => hone.level x (hsub x hx) y (hsub y hy)⟩
    have := ih (h.step hone₁ hr1) (by simpa using hone) hr2
    simpa using this

theorem Built.boot {s : Sys} (h : PtEnv s)
    (hroot : ∀ x, s.tableRoot ≤ x → x < s.tableRoot + 0x1000 → s.mem x = 0)
    (hlow : s.poolStart .smode + s.smodePool.size ≤ 2 ^ 44) : Built s [] := by
  obtain ⟨h1, h2⟩ := h.boot hroot
  refine ⟨h1, hlow, fun ρ q hd => ?_, fun x level => ?_⟩
  · cases ρ with
    | nil => exact Or.inl rfl
    | cons i ρ =>
      simp only [Radix.descend, (h.root_empty hroot i).2] at hd
      cases hd
  · simp [h2]

/-! ### The lines of a dump -/

/-- All leaves below a table, in the order of the dump. -/
abbrev dumpLeaves (s : Sys) (n p : ℕ) : List (List (Fin 512) × Pte) :=
  Radix.leaves (List.finRange 512) (tables s.mem) n p

/-- The record on the way along a path from a table with `n` levels. -/
def DumpAddr.along (v : DumpAddr) : ℕ → List (Fin 512) → DumpAddr
  | _, [] => v
  | n, i :: path => (v.enter i (Level.ofRest (n - 1))).along (n - 1) path

/-- The line of a leaf. -/
def dumpLine (n : ℕ) (v : DumpAddr) (x : List (Fin 512) × Pte) : DumpLine :=
  showPte (v.along n x.1).toVa x.2 (Level.ofRest (n - x.1.length))

/-- The lines of an entry. -/
def entryLines (s : Sys) (n : ℕ) (v : DumpAddr) (p : ℕ) (i : Fin 512) : List DumpLine :=
  match tables s.mem p i with
  | .empty => []
  | .leaf pte => [showPte (v.enter i (Level.ofRest n)).toVa pte (Level.ofRest n)]
  | .ptr q => (dumpLeaves s n q).map (dumpLine n (v.enter i (Level.ofRest n)))

section EntryLines

variable {s : Sys} {n p q : ℕ} {v : DumpAddr} {i : Fin 512} {pte : Pte}

theorem entryLines_empty (h : tables s.mem p i = .empty) : entryLines s n v p i = [] := by simp only [entryLines, h]

theorem entryLines_leaf (h : tables s.mem p i = .leaf pte) :
    entryLines s n v p i = [showPte (v.enter i (Level.ofRest n)).toVa pte (Level.ofRest n)] := by
  simp only [entryLines, h]

theorem entryLines_ptr (h : tables s.mem p i = .ptr q) :
    entryLines s n v p i = (dumpLeaves s n q).map (dumpLine n (v.enter i (Level.ofRest n))) := by
  simp only [entryLines, h]

/-- The entries of the root set `vpn2` and `extension` anew. -/
theorem entryLines_root {w : DumpAddr} (h0 : w.vpn0 = v.vpn0) (h1 : w.vpn1 = v.vpn1) :
    entryLines s 2 w p i = entryLines s 2 v p i := by
  have he : w.enter i (Level.ofRest 2) = v.enter i (Level.ofRest 2) := by
    simp only [DumpAddr.enter, Level.ofRest, h0, h1]
  simp only [entryLines, he]

theorem isLeaf_of_leaf (h : tables s.mem p i = .leaf pte) : (pteAt s.mem p i).isLeaf = true := by
  by_contra hl
  rw [tables_ptr (tables_eq_leaf h).2 (by simpa using hl)] at h
  cases h

theorem isLeaf_of_ptr (h : tables s.mem p i = .ptr q) : (pteAt s.mem p i).isLeaf = false := by
  by_contra hl
  rw [tables_leaf (tables_eq_ptr h).2 (by simpa using hl)] at h
  cases h

end EntryLines

theorem dumpLeaves_map (s : Sys) (n p : ℕ) (v : DumpAddr) :
    (dumpLeaves s (n + 1) p).map (dumpLine (n + 1) v) = (List.finRange 512).flatMap (entryLines s n v p) := by
  rw [dumpLeaves, Radix.leaves, List.map_flatMap]
  refine List.flatMap_congr fun i _ => ?_
  unfold entryLines
  cases hE : tables s.mem p i with
  | empty => rfl
  | leaf pte => rfl
  | ptr q =>
    rw [List.map_map]
    refine List.map_congr_left fun x _ => ?_
    simp only [Function.comp, dumpLine, DumpAddr.along, List.length_cons, Nat.add_sub_cancel, Nat.add_sub_add_right]

section Loop

variable {s : Sys} {n p : ℕ} {v : DumpAddr} {below : ℕ → DumpAddr → Res (List DumpLine × DumpAddr)}

theorem dumpLoop_empty {level : Level} {i : Fin 512} (is : List (Fin 512)) (h : tables s.mem p i = .empty) :
    s.dumpLoop level (0x1000 * p) below (i :: is) v = s.dumpLoop level (0x1000 * p) below is v := by
  rw [Sys.dumpLoop]
  exact if_pos (tables_eq_empty h)

theorem dumpLoop_leaf {level : Level} {i : Fin 512} {is : List (Fin 512)} {pte : Pte} {out : List DumpLine} {w : DumpAddr}
    (h : tables s.mem p i = .leaf pte)
    (hr : s.dumpLoop level (0x1000 * p) below is (v.enter i level) = .ok (out, w)) :
    s.dumpLoop level (0x1000 * p) below (i :: is) v = .ok (showPte (v.enter i level).toVa pte level :: out, w) := by
  have he : s.readPte (0x1000 * p + 8 * (i : ℕ)) = pteAt s.mem p i := by rw [Sys.readPte, pteAt]
  obtain ⟨hpte, hv⟩ := tables_eq_leaf h
  have hl := isLeaf_of_leaf h
  rw [hpte] at he hv hl
  rw [Sys.dumpLoop]
  simp only [he, hv, hl, Bool.true_eq_false, if_false, if_true, hr, Res.ok_bind]

theorem dumpLoop_ptr {level : Level} {i : Fin 512} {is : List (Fin 512)} {q : ℕ} {out out' : List DumpLine}
    {w w' : DumpAddr} (h : tables s.mem p i = .ptr q) (hq : q < 2 ^ 32)
    (hb : below (0x1000 * q) (v.enter i level) = .ok (out, w))
    (hr : s.dumpLoop level (0x1000 * p) below is w = .ok (out', w')) :
    s.dumpLoop level (0x1000 * p) below (i :: is) v = .ok (out ++ out', w') := by
  have he : s.readPte (0x1000 * p + 8 * (i : ℕ)) = pteAt s.mem p i := by rw [Sys.readPte, pteAt]
  obtain ⟨hpte, hv⟩ := tables_eq_ptr h
  rw [Sys.dumpLoop]
  simp only [he, hpte, hv, isLeaf_of_ptr h, Bool.true_eq_false, Bool.false_eq_true, if_false, Nat.mod_eq_of_lt (show 0x1000 * q < 2 ^ 44 by omega), hb,
    hr, Res.ok_bind]

/-- The loop over a table below which the dump brings the record back: each entry gives its lines. -/
theorem dumpLoop_eq {is : List (Fin 512)}
    (hb : ∀ i q, tables s.mem p i = .ptr q → q < 2 ^ 32 ∧
      below (0x1000 * q) (v.enter i (Level.ofRest n)) =
        .ok ((dumpLeaves s n q).map (dumpLine n (v.enter i (Level.ofRest n))), v.enter i (Level.ofRest n))) :
    ∃ w, s.dumpLoop (Level.ofRest n) (0x1000 * p) below is v = .ok (is.flatMap (entryLines s n v p), w) ∧
      (w = v ∨ ∃ i, w = v.enter i (Level.ofRest n)) := by
  induction is generalizing v with
  | nil => exact ⟨v, rfl, Or.inl rfl⟩
  | cons i is ih =>
    have hlines : entryLines s n (v.enter i (Level.ofRest n)) p = entryLines s n v p := by
      funext j
      simp only [entryLines, DumpAddr.enter_enter]
    have ih' := @ih (v.enter i (Level.ofRest n)) (by simpa only [DumpAddr.enter_enter] using hb)
    simp only [hlines, DumpAddr.enter_enter] at ih'
    rw [List.flatMap_cons]
    cases hE : tables s.mem p i with
    | empty =>
      obtain ⟨w, hw, hr⟩ := ih hb
      refine ⟨w, ?_, hr⟩
      rw [dumpLoop_empty _ hE, hw, entryLines_empty hE, List.nil_append]
    | leaf pte =>
      obtain ⟨w, hw, hr⟩ := ih'
      refine ⟨w, ?_, Or.inr ?_⟩
      · rw [dumpLoop_leaf hE hw, entryLines_leaf hE, List.singleton_append]
      · rcases hr with rfl | ⟨j, rfl⟩
        · exact ⟨i, rfl⟩
        · exact ⟨j, rfl⟩
    | ptr q =>
      obtain ⟨w, hw, hr⟩ := ih'
      obtain ⟨hq, hbelow⟩ := hb i q hE
      refine ⟨w, ?_, Or.inr ?_⟩
      · rw [dumpLoop_ptr hE hq hbelow hw, entryLines_ptr hE]
      · rcases hr with rfl | ⟨j, rfl⟩
        · exact ⟨i, rfl⟩
        · exact ⟨j, rfl⟩

theorem dumpTable_page (hp : ∀ i q, tables s.mem p i ≠ .ptr q) :
    s.dumpTable 1 (0x1000 * p) v = .ok ((dumpLeaves s 1 p).map (dumpLine 1 v), { v with vpn0 := 0 }) := by
  have hloop : ∃ w, s.dumpLoop (Level.ofRest 0) (0x1000 * p) (s.dumpTable 0) (List.finRange 512) v =
      .ok ((List.finRange 512).flatMap (entryLines s 0 v p), w) ∧ (w = v ∨ ∃ i, w = v.enter i (Level.ofRest 0)) :=
    dumpLoop_eq fun i q hq => absurd hq (hp i q)
  obtain ⟨w, hw, hr⟩ := hloop
  rw [Sys.dumpTable, hw, Res.ok_bind, dumpLeaves_map]
  rcases hr with rfl | ⟨i, rfl⟩ <;> rfl

theorem dumpTable_mega (h0 : v.vpn0 = 0)
    (hp : ∀ i q, tables s.mem p i = .ptr q → q < 2 ^ 32 ∧ ∀ j r, tables s.mem q j ≠ .ptr r) :
    s.dumpTable 2 (0x1000 * p) v = .ok ((dumpLeaves s 2 p).map (dumpLine 2 v), { v with vpn1 := 1 }) := by
  have hloop : ∃ w, s.dumpLoop (Level.ofRest 1) (0x1000 * p) (s.dumpTable 1) (List.finRange 512) v =
      .ok ((List.finRange 512).flatMap (entryLines s 1 v p), w) ∧ (w = v ∨ ∃ i, w = v.enter i (Level.ofRest 1)) := by
    refine dumpLoop_eq fun i q hq => ?_
    obtain ⟨hlt, hno⟩ := hp i q hq
    refine ⟨hlt, ?_⟩
    rw [dumpTable_page hno]
    -- `vpn0` was 0 before
    simp only [DumpAddr.enter, Level.ofRest, ← h0]
  obtain ⟨w, hw, hr⟩ := hloop
  rw [Sys.dumpTable, hw, Res.ok_bind, dumpLeaves_map]
  rcases hr with rfl | ⟨i, rfl⟩ <;> rfl

/-- The field `vpn1` when the loop over the root comes to entry `i`. -/
def staleVpn1 (s : Sys) (p : ℕ) (is : List (Fin 512)) (v : DumpAddr) (i : Fin 512) : Fin 512 :=
  if is.any fun j => decide (j < i) && (tables s.mem p j).isPtr then 1 else v.vpn1

theorem dumpLoop_root {is : List (Fin 512)} (hs : is.Pairwise (· < ·)) (h0 : v.vpn0 = 0)
    (hb : ∀ i q, tables s.mem p i = .ptr q → q < 2 ^ 32 ∧
      ∀ j r, tables s.mem q j = .ptr r → r < 2 ^ 32 ∧ ∀ k t, tables s.mem r k ≠ .ptr t) :
    ∃ w, s.dumpLoop .giga (0x1000 * p) (s.dumpTable 2) is v =
        .ok (is.flatMap fun i => entryLines s 2 { v with vpn1 := staleVpn1 s p is v i } p i, w) ∧
      w.vpn0 = 0 ∧ w.vpn1 = if is.any fun j => (tables s.mem p j).isPtr then 1 else v.vpn1 := by
  induction is generalizing v with
  | nil => exact ⟨v, rfl, h0, rfl⟩
  | cons i is ih =>
    obtain ⟨hi, hs⟩ := List.pairwise_cons.mp hs
    have hhead : staleVpn1 s p (i :: is) v i = v.vpn1 := by
      refine if_neg ?_
      simp only [List.any_eq_true, not_exists, not_and, List.mem_cons, Bool.and_eq_true, decide_eq_true_eq]
      rintro j (rfl | hj) hlt
      · exact absurd hlt (lt_irrefl _)
      · exact absurd hlt (lt_asymm (hi j hj))
    -- what the later entries see of the first one
    have htail (w : DumpAddr) (hw : w.vpn1 = if (tables s.mem p i).isPtr then 1 else v.vpn1) (k : Fin 512)
        (hk : k ∈ is) : staleVpn1 s p is w k = staleVpn1 s p (i :: is) v k := by
      simp only [staleVpn1, List.any_cons, decide_eq_true (hi k hk), Bool.true_and, hw]
      cases (tables s.mem p i).isPtr <;> simp
    have hany (w : DumpAddr) (hw : w.vpn1 = if (tables s.mem p i).isPtr then 1 else v.vpn1) :
        (if is.any fun j => (tables s.mem p j).isPtr then 1 else w.vpn1) =
          if (i :: is).any fun j => (tables s.mem p j).isPtr then 1 else v.vpn1 := by
      rw [List.any_cons, hw]
      cases (tables s.mem p i).isPtr <;> simp
    have hlines (w : DumpAddr) (hw0 : w.vpn0 = 0) (hw : w.vpn1 = if (tables s.mem p i).isPtr then 1 else v.vpn1) :
        (is.flatMap fun k => entryLines s 2 { w with vpn1 := staleVpn1 s p is w k } p k) =
          is.flatMap fun k => entryLines s 2 { v with vpn1 := staleVpn1 s p (i :: is) v k } p k := by
      refine List.flatMap_congr fun k hk => entryLines_root ?_ ?_
      · exact hw0.trans h0.symm
      · exact htail w hw k hk
    rw [List.flatMap_cons, hhead]
    cases hE : tables s.mem p i with
    | empty =>
      have hv : v.vpn1 = if (tables s.mem p i).isPtr then 1 else v.vpn1 := by simp [hE, Radix.Entry.isPtr]
      obtain ⟨w, hw, hw0, hw1⟩ := ih hs h0
      rw [hlines v h0 hv] at hw
      refine ⟨w, ?_, hw0, hw1.trans (hany v hv)⟩
      rw [dumpLoop_empty _ hE, hw, entryLines_empty hE, List.nil_append]
    | leaf pte =>
      have hv : (v.enter i .giga).vpn1 = if (tables s.mem p i).isPtr then 1 else v.vpn1 := by
        simp [hE, Radix.Entry.isPtr, DumpAddr.enter]
      obtain ⟨w, hw, hw0, hw1⟩ := @ih (v.enter i .giga) hs h0
      rw [hlines (v.enter i .giga) h0 hv] at hw
      refine ⟨w, ?_, hw0, hw1.trans (hany _ hv)⟩
      rw [dumpLoop_leaf hE hw, entryLines_leaf hE, List.singleton_append]
      rfl
    | ptr q =>
      obtain ⟨hq, hbelow⟩ := hb i q hE
      have hv : (1 : Fin 512) = if (tables s.mem p i).isPtr then 1 else v.vpn1 := by simp [hE, Radix.Entry.isPtr]
      obtain ⟨w, hw, hw0, hw1⟩ := @ih { v.enter i .giga with vpn1 := 1 } hs h0
      rw [hlines { v.enter i .giga with vpn1 := 1 } h0 hv] at hw
      refine ⟨w, ?_, hw0, hw1.trans (hany _ hv)⟩
      rw [dumpLoop_ptr hE hq (dumpTable_mega (v := v.enter i .giga) h0 hbelow) hw, entryLines_ptr hE]
      rfl

end Loop

/-! ### Addresses and paths -/

/-- The indices of the entry of a page. -/
def pagePath (level : Level) (va : ℕ) : List (Fin 512) := upperVpns va level ++ [lastVpn va level]

theorem Sys.leaf_iff {s : Sys} {va : ℕ} {level : Level} {pte : Pte} :
    s.leaf va = some (level, pte) ↔ Radix.walk (tables s.mem) s.rootPage (pagePath level va) = some ([], pte) := by
  have hiff : Radix.walk (tables s.mem) s.rootPage (pagePath level va ++ lowerVpns va level) =
      some (lowerVpns va level, pte) ↔ Radix.walk (tables s.mem) s.rootPage (pagePath level va) = some ([], pte) :=
    Radix.walk_append_iff
  rw [← hiff, pagePath, List.append_assoc, List.singleton_append]
  refine ⟨fun h => Sys.walk_of_leaf h, fun h => ?_⟩
  rw [Sys.leaf, vpns_split va level, h]
  simp only [Option.map_some, Level.ofRest_lower]

/-- The address a clean record shows at the end of a path. -/
def pathVa (path : List (Fin 512)) : ℕ := (DumpAddr.init.along 3 path).toVa

/-- The level of the entry at the end of a path. -/
def pathLevel (path : List (Fin 512)) : Level := Level.ofRest (3 - path.length)

theorem extension_cases (i : Fin 512) : ∃ e, (if (i : ℕ) >>> 8 ≠ 0 then 2 ^ 25 - 1 else 0) = e ∧
    (e = 2 ^ 25 - 1 ∧ 256 ≤ (i : ℕ) ∨ e = 0 ∧ (i : ℕ) < 256) := by
  refine ⟨_, rfl, ?_⟩
  rw [Nat.shiftRight_eq_div_pow]
  split_ifs with h
  · exact Or.inl ⟨rfl, by omega⟩
  · exact Or.inr ⟨rfl, by omega⟩

theorem getVpn_eq {a k : ℕ} {i : Fin 512} (h : a / 2 ^ (12 + 9 * k) % 512 = i) : getVpn a k = i := Fin.ext h

theorem canonical_cases (va : ℕ) : ∃ e, canonical va = va % 2 ^ 39 + e ∧
    (e = 2 ^ 64 - 2 ^ 39 ∧ va / 2 ^ 38 % 2 = 1 ∨ e = 0 ∧ va / 2 ^ 38 % 2 = 0) := by
  refine ⟨_, rfl, ?_⟩
  split_ifs with h
  · exact Or.inl ⟨rfl, h⟩
  · exact Or.inr ⟨rfl, by omega⟩

theorem pathVa_spec {path : List (Fin 512)} (hne : path ≠ []) (hlen : path.length ≤ 3) :
    pagePath (pathLevel path) (pathVa path) = path ∧ pathVa path % (pathLevel path).size = 0 ∧
      ∀ va, SamePage (pathLevel path) va (pathVa path) → pageStart (pathLevel path) va = pathVa path := by
  match path, hne, hlen with
  | [i], _, _ =>
    have hi := i.isLt
    obtain ⟨e, he, hcase⟩ := extension_cases i
    have hva : pathVa [i] = 2 ^ 30 * i + 2 ^ 39 * e := by
      rw [← he]
      simp [pathVa, DumpAddr.along, DumpAddr.enter, DumpAddr.toVa, DumpAddr.init, Level.ofRest]
    have hlevel : pathLevel [i] = .giga := rfl
    rw [hva, hlevel]
    refine ⟨?_, ?_, fun va h => ?_⟩
    · simp only [pagePath, upperVpns, lastVpn, Level.toNat, List.nil_append]
      rw [getVpn_eq (i := i) (by omega)]
    · simp only [Level.size]
      omega
    · simp only [SamePage, Level.size] at h
      obtain ⟨d, hd, hd'⟩ := canonical_cases (va / Level.giga.size * Level.giga.size)
      rw [pageStart, hd]
      simp only [Level.size] at hd' ⊢
      omega
  | [i, j], _, _ =>
    have hi := i.isLt
    have hj := j.isLt
    obtain ⟨e, he, hcase⟩ := extension_cases i
    have hva : pathVa [i, j] = 2 ^ 21 * j + 2 ^ 30 * i + 2 ^ 39 * e := by
      rw [← he]
      simp [pathVa, DumpAddr.along, DumpAddr.enter, DumpAddr.toVa, DumpAddr.init, Level.ofRest]
    have hlevel : pathLevel [i, j] = .mega := rfl
    rw [hva, hlevel]
    refine ⟨?_, ?_, fun va h => ?_⟩
    · simp only [pagePath, upperVpns, lastVpn, Level.toNat, List.singleton_append]
      rw [getVpn_eq (k := 2) (i := i) (by omega), getVpn_eq (k := 2 - 1) (i := j) (by omega)]
    · simp only [Level.size]
      omega
    · simp only [SamePage, Level.size] at h
      obtain ⟨d, hd, hd'⟩ := canonical_cases (va / Level.mega.size * Level.mega.size)
      rw [pageStart, hd]
      simp only [Level.size] at hd' ⊢
      omega
  | [i, j, k], _, _ =>
    have hi := i.isLt
    have hj := j.isLt
    have hk := k.isLt
    obtain ⟨e, he, hcase⟩ := extension_cases i
    have hva : pathVa [i, j, k] = 2 ^ 12 * k + 2 ^ 21 * j + 2 ^ 30 * i + 2 ^ 39 * e := by
      rw [← he]
      simp [pathVa, DumpAddr.along, DumpAddr.enter, DumpAddr.toVa, DumpAddr.init, Level.ofRest]
    have hlevel : pathLevel [i, j, k] = .page := rfl
    rw [hva, hlevel]
    refine ⟨?_, ?_, fun va h => ?_⟩
    · simp only [pagePath, upperVpns, lastVpn, Level.toNat, List.cons_append, List.nil_append]
      rw [getVpn_eq (k := 2) (i := i) (by omega), getVpn_eq (k := 1) (i := j) (by omega),
        getVpn_eq (k := 2 - 2) (i := k) (by omega)]
    · simp only [Level.size]
      omega
    · simp only [SamePage, Level.size] at h
      obtain ⟨d, hd, hd'⟩ := canonical_cases (va / Level.page.size * Level.page.size)
      rw [pageStart, hd]
      simp only [Level.size] at hd' ⊢
      omega

/-! ### Right and wrong dumps -/

/-- The record after a dump that came to a table below the root. -/
def DumpAddr.stale : DumpAddr := ⟨0, 0, 1, 0⟩

section Dump

variable {s : Sys} {cs : List MapCall} {path : List (Fin 512)} {p q : ℕ} {i : Fin 512} {v : DumpAddr}

/-- Tables hang in the root or one level below it. -/
theorem Built.depth (h : Built s cs) (hd : Radix.descend (tables s.mem) s.rootPage path = some p)
    (hq : tables s.mem p i = .ptr q) : path.length < 2 := by
  rcases h.path _ _ (Radix.descend_snoc hd hq) with hnil | ⟨c, -, hpre⟩
  · simp at hnil
  · have hlen := hpre.length_le
    have hup : (upperVpns c.va c.level).length ≤ 2 := by cases c.level <;> simp [upperVpns]
    rw [List.length_append, List.length_singleton] at hlen
    omega

theorem Built.ptr_lt (h : Built s cs) (hd : Radix.descend (tables s.mem) s.rootPage path = some p)
    (hq : tables s.mem p i = .ptr q) : q < 2 ^ 32 := by
  obtain ⟨owner, hS⟩ := h.inv
  have ho := hS.shape.ptr_owner (hS.shape.descend_owner hS.shape.root_owner hd) hq
  have hlow := h.low
  have hused := hS.used_le
  rcases hS.owned q _ ho with rfl | ⟨-, hle⟩
  · rw [hS.shape.root_owner] at ho
    simp at ho
  · omega

/-- The lines of a dump: the field `vpn1` is stale for the entries of the root that come after a table. -/
def dumpLines (s : Sys) (v : DumpAddr) : List DumpLine := (List.finRange 512).flatMap fun i =>
  entryLines s 2 { v with vpn1 := staleVpn1 s s.rootPage (List.finRange 512) v i } s.rootPage i

/-- The lines of a dump, and the record after it. -/
theorem Built.dump (h : Built s cs) (h0 : v.vpn0 = 0) :
    s.dumpPageTable v = .ok (dumpLines s v,
      ⟨0, 0, if (List.finRange 512).any fun j => (tables s.mem s.rootPage j).isPtr then 1 else v.vpn1, 0⟩) := by
  have hroot : s.tableRoot = 0x1000 * s.rootPage := by
    obtain ⟨owner, hS⟩ := h.inv
    exact hS.root_eq
  have hd : Radix.descend (tables s.mem) s.rootPage [] = some s.rootPage := rfl
  obtain ⟨w, hw, hw0, hw1⟩ := dumpLoop_root (s := s) (p := s.rootPage) (List.pairwise_lt_finRange 512) h0
    fun i q hq => by
      refine ⟨h.ptr_lt hd hq, fun j r hr => ?_⟩
      have hd' := Radix.descend_snoc hd hq
      refine ⟨h.ptr_lt hd' hr, fun k t ht => ?_⟩
      have := h.depth (Radix.descend_snoc hd' hr) ht
      simp at this
  rw [Sys.dumpPageTable, Sys.dumpTable, hroot]
  have hlevel : Level.ofRest 2 = .giga := rfl
  rw [hlevel, hw, Res.ok_bind]
  simp only [DumpAddr.leave, hw0, hw1, dumpLines]

/-- The root has a pointer on the way to every page below the top level, and no others. -/
theorem Built.root_ptr (h : Built s cs) (j : Fin 512) :
    (tables s.mem s.rootPage j).isPtr = true ↔ ∃ c ∈ cs, c.level ≠ .giga ∧ getVpn c.va 2 = j := by
  rw [Radix.Entry.isPtr_iff]
  constructor
  · rintro ⟨q, hq⟩
    have hd : Radix.descend (tables s.mem) s.rootPage [] = some s.rootPage := rfl
    rcases h.path _ _ (Radix.descend_snoc hd hq) with hnil | ⟨c, hc, hpre⟩
    · simp at hnil
    · refine ⟨c, hc, ?_⟩
      cases hl : c.level with
      | giga => simp [hl, upperVpns] at hpre
      | mega =>
        rw [hl] at hpre
        exact ⟨by simp, (List.cons_prefix_cons.mp hpre).1.symm⟩
      | page =>
        rw [hl] at hpre
        exact ⟨by simp, (List.cons_prefix_cons.mp hpre).1.symm⟩
  · rintro ⟨c, hc, hl, rfl⟩
    obtain ⟨pte, hleaf⟩ := (h.leaf c.va c.level).mpr ⟨c, hc, rfl, rfl⟩
    have hw := Sys.walk_of_leaf hleaf
    rw [← vpns_split, vpns] at hw
    cases hE : tables s.mem s.rootPage (getVpn c.va 2) with
    | empty =>
      rw [Radix.walk_empty hE] at hw
      cases hw
    | leaf pte' =>
      rw [Radix.walk_leaf hE, Option.some.injEq, Prod.mk.injEq] at hw
      have hlen := congrArg List.length hw.1
      rw [lowerVpns_length] at hlen
      cases hlv : c.level with
      | giga => exact absurd hlv hl
      | mega => simp [hlv, Level.toNat] at hlen
      | page => simp [hlv, Level.toNat] at hlen
    | ptr q => exact ⟨q, rfl⟩

/-- The root has a leaf for every gigapage, and no others. -/
theorem Built.root_leaf (h : Built s cs) (i : Fin 512) :
    (∃ pte, tables s.mem s.rootPage i = .leaf pte) ↔ ∃ c ∈ cs, c.level = .giga ∧ getVpn c.va 2 = i := by
  have hwalk (pte : Pte) : tables s.mem s.rootPage i = .leaf pte ↔
      Radix.walk (tables s.mem) s.rootPage [i] = some ([], pte) := by
    cases hE : tables s.mem s.rootPage i with
    | empty => simp [Radix.walk_empty hE]
    | leaf pte' => simp [Radix.walk_leaf hE]
    | ptr q =>
      rw [Radix.walk_ptr hE]
      simp [Radix.walk]
  constructor
  · rintro ⟨pte, hpte⟩
    obtain ⟨hpath, -, -⟩ := pathVa_spec (show [i] ≠ [] by simp) (by simp)
    have hlevel : pathLevel [i] = .giga := rfl
    rw [hlevel] at hpath
    have hleaf : s.leaf (pathVa [i]) = some (.giga, pte) := by
      rw [Sys.leaf_iff, hpath]
      exact (hwalk pte).mp hpte
    obtain ⟨c, hc, hl, hs⟩ := (h.leaf _ _).mp ⟨pte, hleaf⟩
    refine ⟨c, hc, hl, ?_⟩
    have hpre := (samePage_iff .giga c.va (pathVa [i])).mpr hs
    simp only [pagePath, upperVpns, lastVpn, Level.toNat, List.nil_append, List.cons.injEq, and_true] at hpath
    simp only [upperVpns, lastVpn, Level.toNat, List.nil_append, vpns, List.cons_prefix_cons] at hpre
    exact hpre.1.trans hpath
  · rintro ⟨c, hc, hl, rfl⟩
    obtain ⟨pte, hleaf⟩ := (h.leaf c.va c.level).mpr ⟨c, hc, rfl, rfl⟩
    rw [Sys.leaf_iff, hl] at hleaf
    exact ⟨pte, (hwalk pte).mpr hleaf⟩

theorem Built.truthful (h : Built s cs) :
    Truthful s cs ((dumpLeaves s 3 s.rootPage).map (dumpLine 3 .init)) := by
  have hroot : s.tableRoot % 0x1000 = 0 := by
    obtain ⟨owner, hS⟩ := h.inv
    exact hS.root_aligned
  have hall : ∀ i, i ∈ List.finRange 512 := List.mem_finRange
  have hspec {x : List (Fin 512) × Pte} (hx : x ∈ dumpLeaves s 3 s.rootPage) :
      x.1 ≠ [] ∧ x.1.length ≤ 3 ∧ s.leaf (pathVa x.1) = some (pathLevel x.1, x.2) := by
    obtain ⟨hlen, hw⟩ := (Radix.mem_leaves hall).mp (show (x.1, x.2) ∈ dumpLeaves s 3 s.rootPage from hx)
    refine ⟨Radix.leaves_ne_nil hx, hlen, ?_⟩
    rw [Sys.leaf_iff, (pathVa_spec (Radix.leaves_ne_nil hx) hlen).1]
    exact hw
  have hmap : ((dumpLeaves s 3 s.rootPage).map (dumpLine 3 .init)).map (fun l => (l.size, l.va))
      = ((dumpLeaves s 3 s.rootPage).map Prod.fst).map fun path => ((pathLevel path).size, pathVa path) := by
    rw [List.map_map, List.map_map]
    rfl
  refine ⟨?_, fun size va => ?_, fun l hl => ?_⟩
  · rw [hmap]
    refine List.Nodup.map_on (fun path hp path' hp' he => ?_) (Radix.nodup_leaves (List.nodup_finRange 512) 3 _)
    obtain ⟨x, hx, rfl⟩ := List.mem_map.mp hp
    obtain ⟨y, hy, rfl⟩ := List.mem_map.mp hp'
    obtain ⟨hne, hlen, -⟩ := hspec hx
    obtain ⟨hne', hlen', -⟩ := hspec hy
    obtain ⟨hsize, hva⟩ := Prod.mk.inj he
    have hlevel : pathLevel x.1 = pathLevel y.1 := by
      revert hsize
      cases pathLevel x.1 <;> cases pathLevel y.1 <;> simp [Level.size]
    rw [← (pathVa_spec hne hlen).1, ← (pathVa_spec hne' hlen').1, hlevel, hva]
  · rw [hmap]
    constructor
    · intro hm
      obtain ⟨path, hp, he⟩ := List.mem_map.mp hm
      obtain ⟨x, hx, rfl⟩ := List.mem_map.mp hp
      obtain ⟨hne, hlen, hleaf⟩ := hspec hx
      obtain ⟨rfl, rfl⟩ := Prod.mk.inj he
      obtain ⟨c, hc, hl, hs⟩ := (h.leaf _ _).mp ⟨_, hleaf⟩
      refine ⟨c, hc, by rw [hl], ?_⟩
      rw [hl]
      exact ((pathVa_spec hne hlen).2.2 c.va hs).symm
    · rintro ⟨c, hc, rfl, rfl⟩
      obtain ⟨pte, hleaf⟩ := (h.leaf c.va c.level).mpr ⟨c, hc, rfl, rfl⟩
      have hlen : (pagePath c.level c.va).length ≤ 3 := by cases c.level <;> simp [pagePath, upperVpns]
      have hlevel : pathLevel (pagePath c.level c.va) = c.level := by cases c.level <;> rfl
      have hx : (pagePath c.level c.va, pte) ∈ dumpLeaves s 3 s.rootPage :=
        (Radix.mem_leaves hall).mpr ⟨hlen, Sys.leaf_iff.mp hleaf⟩
      refine List.mem_map.mpr ⟨pagePath c.level c.va, List.mem_map.mpr ⟨_, hx, rfl⟩, ?_⟩
      obtain ⟨hpath, -, hstart⟩ := pathVa_spec (show pagePath c.level c.va ≠ [] from Radix.leaves_ne_nil hx) hlen
      rw [hlevel] at hpath hstart ⊢
      rw [hstart c.va]
      have hpre : upperVpns c.va c.level ++ [lastVpn c.va c.level] <+: vpns (pathVa (pagePath c.level c.va)) := by
        rw [← pagePath, vpns_split _ c.level, ← List.singleton_append, ← List.append_assoc, ← pagePath, hpath]
        exact List.prefix_append _ _
      exact (samePage_iff _ _ _).mp hpre
  · obtain ⟨x, hx, rfl⟩ := List.mem_map.mp hl
    obtain ⟨hne, hlen, hleaf⟩ := hspec hx
    have hva : (dumpLine 3 .init x).va = pathVa x.1 := rfl
    rw [hva, Sys.getPa_leaf hroot hleaf, (pathVa_spec hne hlen).2.1, add64_eq (by omega)]
    rfl

/-- With a clean record at every gigapage, these are the lines. -/
theorem lines_eq (h0 : v.vpn0 = 0) (hclean : ∀ i pte, tables s.mem s.rootPage i = .leaf pte →
      staleVpn1 s s.rootPage (List.finRange 512) v i = 0) :
    dumpLines s v = (dumpLeaves s 3 s.rootPage).map (dumpLine 3 .init) := by
  rw [dumpLeaves_map, dumpLines]
  refine List.flatMap_congr fun i _ => ?_
  cases hE : tables s.mem s.rootPage i with
  | empty => rw [entryLines_empty hE, entryLines_empty hE]
  | leaf pte =>
    refine entryLines_root h0 ?_
    rw [hclean i pte hE]
    rfl
  | ptr q =>
    rw [entryLines_ptr hE, entryLines_ptr hE]
    refine List.map_congr_left fun x hx => ?_
    -- below the root `vpn1` is set before it is shown
    obtain ⟨j, path, hpath⟩ := List.exists_cons_of_ne_nil (Radix.leaves_ne_nil hx)
    simp only [dumpLine, hpath, DumpAddr.along, DumpAddr.enter, Level.ofRest, DumpAddr.init, h0]

/-- With a stale record, the line of a gigapage is wrong. -/
theorem not_truthful {pte : Pte} (h0 : v.vpn0 = 0) (hpte : tables s.mem s.rootPage i = .leaf pte)
    (hstale : staleVpn1 s s.rootPage (List.finRange 512) v i = 1) : ¬ Truthful s cs (dumpLines s v) := by
  intro ht
  obtain ⟨e, he, -⟩ := extension_cases i
  have hva : ({ v with vpn1 := 1 }.enter i Level.giga).toVa = 2 ^ 21 + 2 ^ 30 * (i : ℕ) + 2 ^ 39 * e := by
    simp only [DumpAddr.toVa, DumpAddr.enter, h0, he]
    simp
  have hline : showPte ({ v with vpn1 := 1 }.enter i Level.giga).toVa pte .giga ∈ dumpLines s v := by
    refine List.mem_flatMap.mpr ⟨i, List.mem_finRange _, ?_⟩
    rw [entryLines_leaf hpte, hstale]
    exact List.mem_singleton_self _
  obtain ⟨c, -, hsize, hstart⟩ := (ht.pages _ _).mp (List.mem_map.mpr ⟨_, hline, rfl⟩)
  -- no gigapage starts there
  have hsize' : c.level.size = Level.giga.size := hsize.symm
  have hstart' : 2 ^ 21 + 2 ^ 30 * (i : ℕ) + 2 ^ 39 * e = pageStart c.level c.va := hva.symm.trans hstart
  rw [pageStart, hsize'] at hstart'
  obtain ⟨d, hd, hd'⟩ := canonical_cases (c.va / Level.giga.size * Level.giga.size)
  rw [hd] at hstart'
  simp only [Level.size] at hstart' hd'
  omega

/-- The record is stale at a gigapage after a smaller page, and from then on. -/
theorem Built.stale (h : Built s cs) (hv : v = .init ∨ v = .stale) {c : MapCall} {pte : Pte}
    (hpte : tables s.mem s.rootPage (getVpn c.va 2) = .leaf pte)
    (hcond : ¬ (v = .init ∧ ∀ c' ∈ cs, c'.level ≠ .giga → getVpn c.va 2 < getVpn c'.va 2)) :
    staleVpn1 s s.rootPage (List.finRange 512) v (getVpn c.va 2) = 1 := by
  unfold staleVpn1
  split_ifs with hbelow
  · rfl
  · rcases hv with hinit | rfl
    · refine absurd ⟨hinit, fun c' hc' hl => ?_⟩ hcond
      by_contra hlt
      refine hbelow (List.any_eq_true.mpr ⟨getVpn c'.va 2, List.mem_finRange _, ?_⟩)
      have hptr := (h.root_ptr _).mpr ⟨c', hc', hl, rfl⟩
      have hne : getVpn c'.va 2 ≠ getVpn c.va 2 := by
        intro he
        rw [he, hpte] at hptr
        cases hptr
      rw [hptr, Bool.and_true, decide_eq_true_eq]
      exact lt_of_le_of_ne (not_lt.mp hlt) hne
    · rfl

theorem Built.record (h : Built s cs) (hv : v = .init ∨ v = .stale) :
    (⟨0, 0, if (List.finRange 512).any fun j => (tables s.mem s.rootPage j).isPtr then 1 else v.vpn1, 0⟩ : DumpAddr)
      = if v = .stale ∨ ∃ c ∈ cs, c.level ≠ .giga then .stale else .init := by
  have hany : ((List.finRange 512).any fun j => (tables s.mem s.rootPage j).isPtr) = true ↔
      ∃ c ∈ cs, c.level ≠ .giga := by
    simp only [List.any_eq_true, h.root_ptr, List.mem_finRange, true_and]
    exact ⟨fun ⟨_, c, hc, hl, _⟩ => ⟨c, hc, hl⟩, fun ⟨c, hc, hl⟩ => ⟨_, c, hc, hl, rfl⟩⟩
  by_cases hptr : ∃ c ∈ cs, c.level ≠ .giga
  · rw [if_pos (hany.mpr hptr), if_pos (Or.inr hptr)]
    rfl
  · rw [if_neg (fun hc => hptr (hany.mp hc))]
    rcases hv with rfl | rfl
    · rw [if_neg (not_or.mpr ⟨by decide, hptr⟩)]
      rfl
    · rw [if_pos (Or.inl rfl)]
      rfl

end Dump

/-- **When a dump is right.** A table is built by `map_page` calls that use one level for a range, and dumped with
the static record as it was initialised or as an earlier dump left it. The dump ends, and it is right exactly if
every gigapage is dumped with a record that has not come to a table: the record is that of the first dump of
tables, and all smaller pages lie above. -/
theorem dumpPageTable_iff (s s' : Sys) (henv : PtEnv s)
    (hroot : ∀ x, s.tableRoot ≤ x → x < s.tableRoot + 0x1000 → s.mem x = 0)
    (hlow : s.poolStart .smode + s.smodePool.size ≤ 2 ^ 44) (cs : List MapCall) (hone : OneLevelCalls cs)
    (hr : s.mapAll cs = .ok s') (v : DumpAddr) (hv : v = .init ∨ v = .stale) :
    ∃ out, s'.dumpPageTable v =
        .ok (out, if v = .stale ∨ ∃ c ∈ cs, c.level ≠ .giga then .stale else .init) ∧
      (Truthful s' cs out ↔ ∀ c ∈ cs, c.level = .giga →
        v = .init ∧ ∀ c' ∈ cs, c'.level ≠ .giga → getVpn c.va 2 < getVpn c'.va 2) := by
  have h : Built s' cs := (Built.boot henv hroot hlow).run hone hr
  have h0 : v.vpn0 = 0 := by rcases hv with rfl | rfl <;> rfl
  have hdump := h.dump h0
  rw [h.record hv] at hdump
  refine ⟨dumpLines s' v, hdump, ?_, ?_⟩
  · intro ht c hc hgiga
    obtain ⟨pte, hpte⟩ := (h.root_leaf _).mpr ⟨c, hc, hgiga, rfl⟩
    by_contra hcond
    exact not_truthful h0 hpte (h.stale hv hpte hcond) ht
  · intro hcond
    rw [lines_eq h0]
    · exact h.truthful
    · intro i pte hpte
      obtain ⟨c, hc, hgiga, rfl⟩ := (h.root_leaf i).mp ⟨pte, hpte⟩
      obtain ⟨hinit, habove⟩ := hcond c hc hgiga
      refine (if_neg ?_).trans (by rw [hinit]; rfl)
      simp only [List.any_eq_true, Bool.and_eq_true, decide_eq_true_eq, h.root_ptr, not_exists, not_and]
      rintro j - hlt c' hc' hl rfl
      exact absurd hlt (lt_asymm (habove c' hc' hl))

/-- A megapage and a gigapage in different entries of the root. -/
def megaAndGiga (va va' : ℕ) : List MapCall := [⟨va, 0x90000000, pteR, .mega⟩, ⟨va', 0xc0000000, pteR, .giga⟩]

theorem megaAndGiga_oneLevelCalls {va va' : ℕ} (hne : getVpn va 2 ≠ getVpn va' 2) : OneLevelCalls (megaAndGiga va va') := by
  have h (x : ℕ) : ¬ (SamePage .mega va x ∧ SamePage .giga va' x) := by
    rw [Ne, getVpn_eq_iff] at hne
    simp only [SamePage, Level.size]
    omega
  refine ⟨?_, ?_⟩
  · simp only [megaAndGiga, List.forall_mem_cons]
    exact ⟨Or.inl (by decide), Or.inl (by decide), by simp⟩
  · simp only [megaAndGiga, List.forall_mem_cons]
    refine ⟨⟨fun _ _ _ => trivial, fun x h1 h2 => absurd ⟨h1, h2⟩ (h x), by simp⟩,
      ⟨fun x h1 h2 => absurd ⟨h2, h1⟩ (h x), fun _ _ _ => trivial, by simp⟩, by simp⟩

/-- The gigapage lies below the megapage: the first dump is right, the second one is not. -/
theorem dumpPageTable_iff_twice : ∃ s', Sys.smallBoot.mapAll (megaAndGiga 0x40200000 0) = .ok s' ∧
    (∃ out, s'.dumpPageTable .init = .ok (out, .stale) ∧ Truthful s' (megaAndGiga 0x40200000 0) out) ∧
    ∃ out, s'.dumpPageTable .stale = .ok (out, .stale) ∧ ¬ Truthful s' (megaAndGiga 0x40200000 0) out := by
  obtain ⟨s', hr⟩ := Res.exists_ok (x := Sys.smallBoot.mapAll (megaAndGiga 0x40200000 0)) (by decide +kernel)
  have hone : OneLevelCalls (megaAndGiga 0x40200000 0) := megaAndGiga_oneLevelCalls (by decide)
  have hlow : Sys.smallBoot.poolStart .smode + Sys.smallBoot.smodePool.size ≤ 2 ^ 44 := by decide
  refine ⟨s', hr, ?_, ?_⟩
  · obtain ⟨out, hd, ht⟩ := dumpPageTable_iff Sys.smallBoot s' Sys.smallBoot_env (fun _ _ _ => rfl) hlow _ hone hr
      .init (Or.inl rfl)
    exact ⟨out, hd, ht.mpr (by decide)⟩
  · obtain ⟨out, hd, ht⟩ := dumpPageTable_iff Sys.smallBoot s' Sys.smallBoot_env (fun _ _ _ => rfl) hlow _ hone hr
      .stale (Or.inr rfl)
    exact ⟨out, hd, fun h => absurd (ht.mp h) (by decide)⟩

/-- **A dump that goes wrong.** The gigapage at `0x40000000` is printed at `0x40200000`, which `get_pa` translates
to another address than the one printed. -/
theorem dumpPageTable_misprints :
    OneLevelCalls (megaAndGiga 0x200000 0x40000000) ∧
    ((Sys.smallBoot.mapAll (megaAndGiga 0x200000 0x40000000)).toOption.bind fun s =>
        (s.dumpPageTable .init).toOption.map fun x => x.1.map fun l => (l.va, l.pa, l.size, (s.getPa l.va).2)) =
      some [(0x200000, 0x90000000, 0x200000, 0x90000000), (0x40200000, 0xc0000000, 0x40000000, 0xc0200000)] :=
  ⟨megaAndGiga_oneLevelCalls (by decide), by decide +kernel⟩

end Coffer
