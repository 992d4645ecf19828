/-
# Where `map_page` writes

`get_leaf_pte` follows every valid entry as if it pointed to a table. Below a megapage or a
gigapage it takes the page of the user for a table and writes entries into it; and a megapage
or gigapage is written over the pointer to a table, which nothing then leads to. Both come
from mapping one range at two levels, and the code does not notice either
(`mapPage_mixes_levels`).

`mapWrites` records the entries a call writes and the pages that become tables.
`mapPage_writes_tables` says that in a run where no call maps below a larger page or over a
table, every write is in the root table or in a page that became a table before, and every
such page stays where it was hung.
-/
import Coffer.Translation

namespace Coffer

open Lib

/-! ### The writes of a call -/

/-- A write of `map_page`: the address of the entry, and the page that becomes a table with
it. -/
structure PteWrite where
  addr : ℕ
  table : Option ℕ
deriving DecidableEq, Repr

/-- A call of `map_page`. -/
structure MapCall where
  va : ℕ
  pa : ℕ
  flags : ℕ
  level : Level

namespace Sys

/-- The entries that the loop of `get_leaf_pte` writes, up to its end or a panic. -/
def tableWrites (s : Sys) (table : ℕ) : List (Fin 512) → List PteWrite
  | [] => []
  | vpn :: vpns =>
    match s.nextTable table vpn true with
    | .error _ => []
    | .ok (next, s') =>
      (if (s.readPte (table + 8 * vpn)).v = false then [⟨table + 8 * vpn, some (next / 0x1000)⟩]
        else []) ++ s'.tableWrites next vpns

/-- The entries a call writes. -/
def mapWrites (s : Sys) (c : MapCall) : List PteWrite :=
  s.tableWrites s.tableRoot (upperVpns c.va c.level) ++
    match s.getLeafPte c.va c.level true with
    | .error _ => []
    | .ok (addr, _) => [⟨addr, none⟩]

/-- A run of calls. -/
def mapAll (s : Sys) : List MapCall → Res Sys
  | [] => .ok s
  | c :: cs => do
    let s ← s.mapPage c.va c.pa c.flags c.level
    s.mapAll cs

/-- The entries a run writes, up to its end or a panic. -/
def runWrites (s : Sys) : List MapCall → List PteWrite
  | [] => []
  | c :: cs => s.mapWrites c ++
    match s.mapPage c.va c.pa c.flags c.level with
    | .error _ => []
    | .ok s' => s'.runWrites cs

end Sys

/-- The pages that become tables. -/
def newTables (ws : List PteWrite) : List ℕ := ws.filterMap (·.table)

/-- The write is inside the table at page `p`. -/
def PteWrite.In (w : PteWrite) (p : ℕ) : Prop :=
  0x1000 * p ≤ w.addr ∧ w.addr + 8 ≤ 0x1000 * p + 0x1000

/-- Every write is inside the root table or a page that has become a table before: one of `ts`,
or by an earlier write. -/
def WritesOk (root : ℕ) : List ℕ → List PteWrite → Prop
  | _, [] => True
  | ts, w :: ws => (∃ p, (p = root ∨ p ∈ ts) ∧ w.In p) ∧ WritesOk root (ts ++ w.table.toList) ws

/-- Every table but the root is reached from the root, and hangs in one entry. -/
structure TableTree (s : Sys) (ts : List ℕ) : Prop where
  reach : ∀ q ∈ ts, ∃ path, Radix.descend (tables s.mem) s.rootPage path = some q
  parent : ∀ q ∈ ts, ∃! e : ℕ × Fin 512,
    (e.1 = s.rootPage ∨ e.1 ∈ ts) ∧ tables s.mem e.1 e.2 = .ptr q

theorem newTables_append (ws ws' : List PteWrite) :
    newTables (ws ++ ws') = newTables ws ++ newTables ws' := List.filterMap_append

theorem WritesOk.append {root : ℕ} : ∀ {ws ws' : List PteWrite} {ts : List ℕ},
    WritesOk root ts ws → WritesOk root (ts ++ newTables ws) ws' → WritesOk root ts (ws ++ ws')
  | [], ws', ts, _, h' => by simpa [newTables] using h'
  | w :: ws, ws', ts, h, h' => by
    refine ⟨h.1, h.2.append ?_⟩
    have hnew : newTables (w :: ws) = w.table.toList ++ newTables ws := by
      cases hw : w.table <;> simp [newTables, hw]
    rwa [hnew, ← List.append_assoc] at h'

/-! ### The invariant -/

/-- The page table is in order, and `ts` are the tables it consists of, less the root. -/
structure TableInv (s : Sys) (ts : List ℕ) : Prop where
  inv : PtInv s
  reach : ∀ q ∈ ts, ∃ path, path ≠ [] ∧ Radix.descend (tables s.mem) s.rootPage path = some q
  all : ∀ path q, Radix.descend (tables s.mem) s.rootPage path = some q → q = s.rootPage ∨ q ∈ ts

theorem TableInv.tree {s : Sys} {ts : List ℕ} (h : TableInv s ts) : TableTree s ts := by
  obtain ⟨owner, hS⟩ := h.inv
  refine ⟨fun q hq => ?_, fun q hq => ?_⟩
  · obtain ⟨path, -, hd⟩ := h.reach q hq
    exact ⟨path, hd⟩
  · obtain ⟨path, hne, hd⟩ := h.reach q hq
    obtain ⟨path', i, rfl⟩ := (List.eq_nil_or_concat' path).resolve_left hne
    obtain ⟨p, hp, hi⟩ := Radix.descend_concat hd
    refine ⟨(p, i), ⟨h.all _ _ hp, hi⟩, ?_⟩
    rintro ⟨p', i'⟩ ⟨hp', hi'⟩
    obtain ⟨path'', hd'⟩ : ∃ ρ, Radix.descend (tables s.mem) s.rootPage ρ = some p' := by
      rcases hp' with rfl | hp'
      · exact ⟨[], rfl⟩
      · obtain ⟨ρ, -, hρ⟩ := h.reach p' hp'
        exact ⟨ρ, hρ⟩
    obtain ⟨rfl, rfl⟩ := hS.shape.unique_parent hp hd' hi hi'
    rfl

theorem PtEnv.tableInv {s : Sys} (h : PtEnv s)
    (hroot : ∀ x, s.tableRoot ≤ x → x < s.tableRoot + 0x1000 → s.mem x = 0) : TableInv s [] := by
  refine ⟨(h.boot hroot).1, fun q hq => absurd hq (List.not_mem_nil), fun path q hd => ?_⟩
  cases path with
  | nil =>
    cases hd
    exact Or.inl rfl
  | cons i path =>
    simp only [Radix.descend, (h.root_empty hroot i).2] at hd
    cases hd

/-! ### One call -/

section Step

variable {s s' : Sys} {ts : List ℕ} {path : List (Fin 512)} {p table : ℕ}

theorem TableInv.next {vpn : Fin 512} (h : TableInv s ts)
    (hreach : Radix.descend (tables s.mem) s.rootPage path = some p)
    (hn : ∀ pte, tables s.mem p vpn ≠ .leaf pte)
    (hr : s.nextTable (0x1000 * p) vpn true = .ok (table, s')) {ws : List PteWrite}
    (hws : ws = if (s.readPte (0x1000 * p + 8 * vpn)).v = false then
      [⟨0x1000 * p + 8 * vpn, some (table / 0x1000)⟩] else []) :
    WritesOk s.rootPage ts ws ∧ ∃ q, table = 0x1000 * q ∧ TableInv s' (ts ++ newTables ws) ∧
      s'.rootPage = s.rootPage ∧
      Radix.descend (tables s'.mem) s.rootPage (path ++ [vpn]) = some q ∧
      (∀ is, Radix.walk (tables s'.mem) s.rootPage is = Radix.walk (tables s.mem) s.rootPage is) ∧
      ∀ is, is ≠ path ++ [vpn] →
        Radix.descend (tables s'.mem) s.rootPage is = Radix.descend (tables s.mem) s.rootPage is := by
  obtain ⟨owner, hS⟩ := h.inv
  have hp : owner p = some path := by
    simpa using hS.shape.descend_owner hS.shape.root_owner hreach
  have he : s.readPte (0x1000 * p + 8 * (vpn : ℕ)) = pteAt s.mem p vpn := by
    rw [Sys.readPte, pteAt]
  rw [he] at hws
  obtain ⟨q, rfl, ⟨hptr, rfl⟩ | ⟨hi, ho, hempty, hS', hF, htab⟩⟩ := hS.nextTable hp hn hr
  · -- an old table
    rw [if_neg (by rw [(tables_eq_ptr hptr).2]; simp)] at hws
    subst hws
    refine ⟨trivial, q, rfl, ?_, rfl, Radix.descend_snoc hreach hptr, fun _ => rfl, fun _ _ => rfl⟩
    simpa [newTables] using h
  · -- a page of the pool, hung into an empty entry
    rw [if_pos (tables_eq_empty hi)] at hws
    subst hws
    have hq : 0x1000 * q / 0x1000 = q := Nat.mul_div_cancel_left _ (by norm_num)
    have hdesc : ∀ is, Radix.descend (tables s'.mem) s.rootPage is =
        if is = path ++ [vpn] then some q else Radix.descend (tables s.mem) s.rootPage is := by
      intro is
      rw [htab]
      exact Radix.descend_write_fresh hS.shape hreach hi ho hempty is
    have hempty' : Radix.descend (tables s.mem) s.rootPage (path ++ [vpn]) = none := by
      rw [Radix.descend_append hreach]
      simp only [Radix.descend, hi]
    have hlt := vpn.isLt
    refine ⟨⟨⟨p, h.all _ _ hreach, ?_⟩, trivial⟩, q, rfl, ⟨⟨_, hS'⟩, fun r hr => ?_, fun ρ r hd => ?_⟩,
      hF.rootPage, by rw [hdesc, if_pos rfl], fun is => ?_, fun is his => by rw [hdesc, if_neg his]⟩
    · unfold PteWrite.In
      dsimp only
      omega
    · rw [hF.rootPage]
      simp only [newTables, List.filterMap_cons, List.filterMap_nil, hq, List.mem_append,
        List.mem_singleton] at hr
      rcases hr with hr | rfl
      · obtain ⟨ρ, hne, hρ⟩ := h.reach r hr
        refine ⟨ρ, hne, ?_⟩
        rw [hdesc, if_neg, hρ]
        rintro rfl
        rw [hempty'] at hρ
        cases hρ
      · exact ⟨path ++ [vpn], by simp, by rw [hdesc, if_pos rfl]⟩
    · rw [hF.rootPage, hdesc] at hd
      rw [hF.rootPage]
      simp only [newTables, List.filterMap_cons, List.filterMap_nil, hq, List.mem_append,
        List.mem_singleton]
      split at hd
      · cases hd
        exact Or.inr (Or.inr rfl)
      · rcases h.all ρ r hd with h1 | h1
        · exact Or.inl h1
        · exact Or.inr (Or.inl h1)
    · rw [htab]
      exact Radix.walk_write_fresh hS.shape hreach hi ho hempty is

theorem TableInv.loop {last : Fin 512} {deep us : List (Fin 512)} (h : TableInv s ts)
    (hreach : Radix.descend (tables s.mem) s.rootPage path = some p)
    (hn : ∀ rest pte, Radix.walk (tables s.mem) s.rootPage (path ++ us ++ last :: deep) =
      some (rest, pte) → rest.length ≤ deep.length) :
    WritesOk s.rootPage ts (s.tableWrites (0x1000 * p) us) ∧
    ∀ {table s'}, s.descendTables (0x1000 * p) true us = .ok (table, s') →
      ∃ q, table = 0x1000 * q ∧ TableInv s' (ts ++ newTables (s.tableWrites (0x1000 * p) us)) ∧
        s'.rootPage = s.rootPage ∧
        Radix.descend (tables s'.mem) s.rootPage (path ++ us) = some q ∧
        ∀ is : List (Fin 512), (path ++ us).length < is.length →
          Radix.descend (tables s'.mem) s.rootPage is = Radix.descend (tables s.mem) s.rootPage is := by
  induction us generalizing s ts path p with
  | nil =>
    refine ⟨trivial, fun {table s'} hr => ?_⟩
    simp only [Sys.descendTables, Except.ok.injEq, Prod.mk.injEq] at hr
    obtain ⟨rfl, rfl⟩ := hr
    refine ⟨p, rfl, ?_, rfl, by simpa using hreach, fun _ _ => rfl⟩
    simpa [Sys.tableWrites, newTables] using h
  | cons u us ih =>
    have hleaf : ∀ pte, tables s.mem p u ≠ .leaf pte := by
      intro pte hl
      have := hn (us ++ last :: deep) pte (by
        rw [List.append_assoc, Radix.walk_descend _ hreach, List.cons_append, Radix.walk_leaf hl])
      simp only [List.length_append, List.length_cons] at this
      omega
    rw [Sys.tableWrites, Sys.descendTables]
    cases hr1 : s.nextTable (0x1000 * p) u true with
    | error e =>
      refine ⟨trivial, fun {table s'} hr => ?_⟩
      cases hr
    | ok x =>
      obtain ⟨t, s1⟩ := x
      dsimp only
      generalize hws : (if (s.readPte (0x1000 * p + 8 * (u : ℕ))).v = false then
        [(⟨0x1000 * p + 8 * u, some (t / 0x1000)⟩ : PteWrite)] else []) = ws
      obtain ⟨hw, q, rfl, h1, hroot, hreach1, hwalk, hdesc⟩ := h.next hreach hleaf hr1 hws.symm
      have hn1 : ∀ rest pte, Radix.walk (tables s1.mem) s1.rootPage ((path ++ [u]) ++ us ++ last :: deep) =
          some (rest, pte) → rest.length ≤ deep.length := by
        intro rest pte hwk
        rw [hroot, hwalk] at hwk
        exact hn rest pte (by simpa using hwk)
      obtain ⟨h2, h3⟩ := ih h1 (by rw [hroot]; exact hreach1) hn1
      rw [hroot] at h2
      refine ⟨hw.append h2, fun {table s'} hr => ?_⟩
      obtain ⟨q', hq', h4, h5, h6, h7⟩ := h3 hr
      rw [hroot] at h5 h6 h7
      refine ⟨q', hq', ?_, h5, by simpa using h6, fun is his => ?_⟩
      · rw [newTables_append, ← List.append_assoc]
        exact h4
      · rw [h7 is (by simpa using his), hdesc is]
        rintro rfl
        simp at his

end Step

/-- What a call needs: some permission, no larger page above the entry it writes, and no
table in that entry. -/
structure MapCall.Fits (c : MapCall) (s : Sys) : Prop where
  perm : HasPerm c.flags
  no_leaf : s.NoLeafAbove c.va c.level
  no_table : Radix.descend (tables s.mem) s.rootPage
    (upperVpns c.va c.level ++ [lastVpn c.va c.level]) = none

/-- **One call.** -/
theorem TableInv.call {s : Sys} {ts : List ℕ} {c : MapCall} (h : TableInv s ts) (hc : c.Fits s) :
    WritesOk s.rootPage ts (s.mapWrites c) ∧
    ∀ {s'}, s.mapPage c.va c.pa c.flags c.level = .ok s' →
      TableInv s' (ts ++ newTables (s.mapWrites c)) ∧ s'.rootPage = s.rootPage := by
  have hroot : s.tableRoot = 0x1000 * s.rootPage := by
    obtain ⟨owner, hS⟩ := h.inv
    exact hS.root_eq
  have hno : ∀ rest pte, Radix.walk (tables s.mem) s.rootPage ([] ++ upperVpns c.va c.level ++
      lastVpn c.va c.level :: lowerVpns c.va c.level) = some (rest, pte) →
      rest.length ≤ (lowerVpns c.va c.level).length := hc.no_leaf.walk
  obtain ⟨h1, h2⟩ := h.loop rfl hno
  simp only [Sys.mapPage, Sys.mapWrites, Sys.getLeafPte, hroot, Bool.true_eq_false, and_false, if_false]
  generalize s.tableWrites (0x1000 * s.rootPage) (upperVpns c.va c.level) = ws at *
  cases hr : s.descendTables (0x1000 * s.rootPage) true (upperVpns c.va c.level) with
  | error e =>
    refine ⟨h1.append trivial, fun {s'} hr' => ?_⟩
    cases hr'
  | ok x =>
    obtain ⟨table, s1⟩ := x
    obtain ⟨p, rfl, h3, h4, h5, h6⟩ := h2 hr
    simp only [Res.ok_bind, List.nil_append] at h5 h6 ⊢
    have hlt := (lastVpn c.va c.level).isLt
    have hp := h3.all _ _ (by rw [h4]; exact h5)
    rw [h4] at hp
    refine ⟨h1.append ⟨⟨p, hp, ?_⟩, trivial⟩, fun {s'} hr' => ?_⟩
    · unfold PteWrite.In
      dsimp only
      omega
    obtain ⟨owner, hS⟩ := h3.inv
    have hown : owner p = some (upperVpns c.va c.level) := by
      simpa using hS.shape.descend_owner hS.shape.root_owner (by rw [h4]; exact h5)
    -- the entry was no pointer before the call, and is none after it
    have hno : ∀ q, tables s1.mem p (lastVpn c.va c.level) ≠ .ptr q := by
      intro q hq
      have hd := Radix.descend_snoc h5 hq
      rw [h6 _ (by simp), hc.no_table] at hd
      cases hd
    simp only [Except.ok.injEq] at hr'
    subst hr'
    have hleaf := Pte.map_isLeaf (s1.readPte (0x1000 * p + 8 * (lastVpn c.va c.level : ℕ))) c.pa hc.perm
    generalize (s1.readPte (0x1000 * p + 8 * (lastVpn c.va c.level : ℕ))).map c.flags c.pa = pte at *
    have htab : tables (s1.writePte (0x1000 * p + 8 * (lastVpn c.va c.level : ℕ)) pte).mem =
        Radix.write (tables s1.mem) p (lastVpn c.va c.level) pte.entry := tables_store _ _ _ _
    have hdesc : ∀ is, Radix.descend
        (tables (s1.writePte (0x1000 * p + 8 * (lastVpn c.va c.level : ℕ)) pte).mem) s1.rootPage is =
        Radix.descend (tables s1.mem) s1.rootPage is := by
      intro is
      rw [htab]
      refine Radix.descend_write_end hS.shape (by rw [h4]; exact h5) hno (fun q => ?_) is
      rw [Pte.entry_leaf hleaf.1 hleaf.2]
      simp
    have hnew : newTables (ws ++ [⟨0x1000 * p + 8 * (lastVpn c.va c.level : ℕ), none⟩]) = newTables ws := by
      simp [newTables]
    rw [hnew]
    refine ⟨⟨⟨owner, hS.write_end hown _ (Or.inr hleaf)⟩, fun q hq => ?_, fun ρ q hd => ?_⟩, h4⟩
    · obtain ⟨ρ, hne, hρ⟩ := h3.reach q hq
      exact ⟨ρ, hne, (hdesc ρ).trans hρ⟩
    · exact h3.all ρ q ((hdesc ρ).symm.trans hd)

/-! ### Runs -/

/-- Every call of the run has what it needs. -/
def MapsFit (s : Sys) : List MapCall → Prop
  | [] => True
  | c :: cs => c.Fits s ∧ ∀ s', s.mapPage c.va c.pa c.flags c.level = .ok s' → MapsFit s' cs

theorem TableInv.run : ∀ {cs : List MapCall} {s : Sys} {ts : List ℕ}, TableInv s ts → MapsFit s cs →
    WritesOk s.rootPage ts (s.runWrites cs) ∧
    ∀ {s'}, s.mapAll cs = .ok s' → TableInv s' (ts ++ newTables (s.runWrites cs))
  | [], s, ts, h, _ => by
    refine ⟨trivial, fun {s'} hr => ?_⟩
    cases hr
    simpa [Sys.runWrites, newTables] using h
  | c :: cs, s, ts, h, hok => by
    obtain ⟨h1, h2⟩ := h.call hok.1
    rw [Sys.runWrites, Sys.mapAll]
    cases hr : s.mapPage c.va c.pa c.flags c.level with
    | error e =>
      refine ⟨h1.append trivial, fun {s'} hr' => ?_⟩
      cases hr'
    | ok s1 =>
      obtain ⟨h3, h4⟩ := h2 hr
      obtain ⟨h5, h6⟩ := h3.run (hok.2 s1 hr)
      rw [h4] at h5
      refine ⟨h1.append h5, fun {s'} hr' => ?_⟩
      rw [newTables_append, ← List.append_assoc]
      exact h6 hr'

theorem MapsFit.of_append {cs' : List MapCall} : ∀ {cs : List MapCall} {s : Sys},
    MapsFit s (cs ++ cs') → MapsFit s cs
  | [], _, _ => trivial
  | _ :: _, _, h => ⟨h.1, fun s' hr => (h.2 s' hr).of_append⟩

/-- **Page-table writes stay inside page-table pages where no range is mapped at two levels.**
From an empty root table, in a run of `map_page` calls with some permission, none of them
below a larger page or over a table: every entry written is in the root table or in a page
that `get_leaf_pte` made a table before, and in every state reached all these pages are
reached from the root, each through exactly one entry. -/
theorem mapPage_writes_tables (s : Sys) (h : PtEnv s)
    (hroot : ∀ x, s.tableRoot ≤ x → x < s.tableRoot + 0x1000 → s.mem x = 0) (cs : List MapCall)
    (hok : MapsFit s cs) :
    WritesOk s.rootPage [] (s.runWrites cs) ∧
      ∀ before after, cs = before ++ after → ∀ s', s.mapAll before = .ok s' →
        TableTree s' (newTables (s.runWrites before)) := by
  refine ⟨((h.tableInv hroot).run hok).1, ?_⟩
  rintro before after rfl s' hr
  have hI := ((h.tableInv hroot).run hok.of_append).2 hr
  rw [List.nil_append] at hI
  exact hI.tree

/-- A page and a megapage side by side. -/
theorem mapPage_writes_tables_two : WritesOk Sys.smallBoot.rootPage []
    (Sys.smallBoot.runWrites [⟨0x1000, 0x90001000, pteR, .page⟩, ⟨0x200000, 0x90200000, pteR, .mega⟩]) := by
  have hfit : MapsFit Sys.smallBoot
      [⟨0x1000, 0x90001000, pteR, .page⟩, ⟨0x200000, 0x90200000, pteR, .mega⟩] := by
    refine ⟨⟨Or.inl (by decide), fun l pte hl => ?_, by decide +kernel⟩, fun s1 h1 =>
      ⟨⟨Or.inl (by decide), fun l pte hl => ?_, ?_⟩, fun _ _ => trivial⟩⟩
    · rw [Sys.smallBoot_inv.2] at hl
      cases hl
    · have hrun : (Sys.smallBoot.mapPage 0x1000 0x90001000 pteR .page).toOption.map
          (fun s => s.leaf 0x200000) = some none := by decide +kernel
      rw [h1] at hrun
      simp only [Except.toOption, Option.map_some, Option.some.injEq] at hrun
      rw [hrun] at hl
      cases hl
    · have hrun : (Sys.smallBoot.mapPage 0x1000 0x90001000 pteR .page).toOption.map (fun s =>
          Radix.descend (tables s.mem) s.rootPage (upperVpns 0x200000 .mega ++ [lastVpn 0x200000 .mega])) =
          some none := by decide +kernel
      rw [h1] at hrun
      simpa only [Except.toOption, Option.map_some, Option.some.injEq] using hrun
  exact (mapPage_writes_tables Sys.smallBoot Sys.smallBoot_env (fun _ _ _ => rfl) _ hfit).1

/-- **Mixed levels.** A page below a megapage: its entry is written into the page of the user
at `0x90000000`. And a megapage over a page: it replaces the pointer to the table at
`0x101000`, which no entry of a table leads to any more. -/
theorem mapPage_mixes_levels :
    (Sys.smallBoot.runWrites [⟨0x200000, 0x90000000, pteR + pteW, .mega⟩,
        ⟨0x201000, 0x91000000, pteR, .page⟩] =
      [⟨0x80000, some 0x100⟩, ⟨0x100008, none⟩, ⟨0x90000008, none⟩] ∧
      ¬ WritesOk Sys.smallBoot.rootPage [] (Sys.smallBoot.runWrites
        [⟨0x200000, 0x90000000, pteR + pteW, .mega⟩, ⟨0x201000, 0x91000000, pteR, .page⟩])) ∧
    ∃ s', Sys.smallBoot.mapAll [⟨0x200000, 0x90000000, pteR, .page⟩,
        ⟨0x200000, 0x90200000, pteR, .mega⟩] = .ok s' ∧
      newTables (Sys.smallBoot.runWrites [⟨0x200000, 0x90000000, pteR, .page⟩,
        ⟨0x200000, 0x90200000, pteR, .mega⟩]) = [0x100, 0x101] ∧ ¬ TableTree s' [0x100, 0x101] := by
  have hwrites : Sys.smallBoot.runWrites [⟨0x200000, 0x90000000, pteR + pteW, .mega⟩,
      ⟨0x201000, 0x91000000, pteR, .page⟩] =
      [⟨0x80000, some 0x100⟩, ⟨0x100008, none⟩, ⟨0x90000008, none⟩] := by decide +kernel
  refine ⟨⟨hwrites, ?_⟩, ?_⟩
  · rw [hwrites]
    rintro ⟨-, -, ⟨p, hp, h1, h2⟩, -⟩
    have hroot : Sys.smallBoot.rootPage = 0x80 := by decide
    rw [hroot] at hp
    simp only [Option.toList_some, Option.toList_none, List.nil_append, List.append_nil,
      List.mem_singleton] at hp h1 h2
    omega
  · obtain ⟨s', hr⟩ := Res.exists_ok (x := Sys.smallBoot.mapAll [⟨0x200000, 0x90000000, pteR, .page⟩,
      ⟨0x200000, 0x90200000, pteR, .mega⟩]) (by decide +kernel)
    refine ⟨s', hr, by decide +kernel, fun h => ?_⟩
    have hnone : (Sys.smallBoot.mapAll [⟨0x200000, 0x90000000, pteR, .page⟩,
        ⟨0x200000, 0x90200000, pteR, .mega⟩]).toOption.map (fun s => (s.rootPage,
          decide ((∀ i, tables s.mem 0x80 i ≠ .ptr 0x101) ∧ (∀ i, tables s.mem 0x100 i ≠ .ptr 0x101) ∧
            ∀ i, tables s.mem 0x101 i ≠ .ptr 0x101))) = some (0x80, true) := by decide +kernel
    rw [hr] at hnone
    simp only [Except.toOption, Option.map_some, Option.some.injEq, Prod.mk.injEq,
      decide_eq_true_eq] at hnone
    obtain ⟨hroot, h1, h2, h3⟩ := hnone
    obtain ⟨⟨p, i⟩, ⟨hp, hi⟩, -⟩ := h.parent 0x101 (by simp)
    simp only [hroot, List.mem_cons, List.not_mem_nil, or_false] at hp
    rcases hp with rfl | rfl | rfl
    · exact h1 i hi
    · exact h2 i hi
    · exact h3 i hi

end Coffer
