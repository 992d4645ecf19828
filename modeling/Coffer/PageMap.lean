/-
# The page table refines a partial map

The abstract page table is the list of live mappings, the most recent first; a
mapping replaces the one of the same page, and `unmap_page` removes it. After
any sequence of `map_page` and `unmap_page` calls that maps no range at two
levels at once, `get_pa` computes the abstract translation
(`pageTable_refines`).
-/
import Coffer.Translation

namespace Coffer

open Lib

/-! ### The abstract map -/

/-- A live mapping. -/
structure Mapping where
  level : Level
  va : ℕ
  pa : ℕ
deriving DecidableEq, Repr

/-- The addresses a mapping covers. -/
def Mapping.Covers (m : Mapping) (va : ℕ) : Prop := SamePage m.level m.va va

instance (m : Mapping) (va : ℕ) : Decidable (m.Covers va) := inferInstanceAs (Decidable (SamePage _ _ _))

/-- The calls. -/
inductive PtOp
  | map (va pa flags : ℕ) (level : Level)
  | unmap (va : ℕ) (level : Level)

/-- The level of a call. -/
def PtOp.level : PtOp → Level
  | map _ _ _ level => level
  | unmap _ level => level

/-- The address of a call. -/
def PtOp.va : PtOp → ℕ
  | map va _ _ _ => va
  | unmap va _ => va

/-- The mappings of other pages than that of the call. -/
def others (live : List Mapping) (op : PtOp) : List Mapping :=
  live.filter fun m => ¬ (m.level = op.level ∧ SamePage op.level op.va m.va)

/-- The live mappings after a call. -/
def PtOp.apply (live : List Mapping) (op : PtOp) : List Mapping :=
  match op with
  | map va pa _ level => ⟨level, va, pa⟩ :: others live op
  | unmap _ _ => others live op

/-- The live mappings after a sequence of calls. -/
def liveAfter (live : List Mapping) (ops : List PtOp) : List Mapping := ops.foldl PtOp.apply live

/-- The translation: base of the mapping that covers `va`, plus the offset. -/
def translate (live : List Mapping) (va : ℕ) : Option ℕ :=
  (live.find? fun m => m.Covers va).map fun m => m.pa + va % m.level.size

/-- What a call may do: map an aligned page with some permission where no live
mapping of another level overlaps it, or unmap a live page at its own level. -/
def PtOp.Ok (live : List Mapping) : PtOp → Prop
  | map va pa flags level => HasPerm flags ∧ va < 2 ^ 64 ∧ pa < 2 ^ 44 ∧ va % level.size = 0 ∧
      pa % level.size = 0 ∧
      ∀ m ∈ live, m.level ≠ level → ∀ x, ¬ (m.Covers x ∧ SamePage level va x)
  | unmap va level => ∃ m ∈ live, m.level = level ∧ m.Covers va

/-- Every call of the sequence may do what it does. -/
def OpsOk (live : List Mapping) : List PtOp → Prop
  | [] => True
  | op :: ops => op.Ok live ∧ OpsOk (op.apply live) ops

/-! ### The calls on the tables -/

/-- The call itself. -/
def PtOp.exec (s : Sys) : PtOp → Res Sys
  | map va pa flags level => s.mapPage va pa flags level
  | unmap va level => s.unmapPage va level

/-- A sequence of calls. -/
def ptRun (s : Sys) : List PtOp → Res Sys
  | [] => .ok s
  | op :: ops => do
    let s ← op.exec s
    ptRun s ops

/-- The answer of `get_pa`: none where it reports the address as not valid. -/
def Sys.translated (s : Sys) (va : ℕ) : Option ℕ :=
  if Sys.getPa.notValid va ∈ (s.getPa va).1 then none else some (s.getPa va).2

/-- The tables hold the live mappings. -/
structure Refines (s : Sys) (live : List Mapping) : Prop where
  inv : PtInv s
  leaf : ∀ va, (s.leaf va).map (fun x => (x.1, x.2.ppn.toNat)) =
    (live.find? fun m => m.Covers va).map fun m => (m.level, m.pa / 0x1000)
  pa_ok : ∀ m ∈ live, m.pa < 2 ^ 44 ∧ m.pa % m.level.size = 0
  one_level : ∀ m ∈ live, ∀ m' ∈ live, ∀ x, m.Covers x → m'.Covers x → m.level = m'.level

/-- Outside the page of a call, the other mappings are all that matter. -/
theorem find?_others {live : List Mapping} {op : PtOp} {va : ℕ} (h : ¬ SamePage op.level op.va va) :
    (others live op).find? (fun m => m.Covers va) = live.find? fun m => m.Covers va := by
  induction live with
  | nil => rfl
  | cons m live ih =>
    unfold others at ih ⊢
    by_cases hm : m.level = op.level ∧ SamePage op.level op.va m.va
    · have hnc : ¬ m.Covers va := by
        intro hc
        rw [Mapping.Covers, hm.1] at hc
        exact h (hm.2.trans hc)
      rw [List.filter_cons_of_neg (by simpa using hm), ih, List.find?_cons_of_neg (by simpa using hnc)]
    · rw [List.filter_cons_of_pos (by simpa only [decide_eq_true_eq] using hm)]
      by_cases hc : m.Covers va
      · rw [List.find?_cons_of_pos (by simpa using hc), List.find?_cons_of_pos (by simpa using hc)]
      · rw [List.find?_cons_of_neg (by simpa using hc), List.find?_cons_of_neg (by simpa using hc), ih]

theorem find?_others_same {live : List Mapping} {op : PtOp} {va : ℕ} (h : SamePage op.level op.va va)
    (h1 : ∀ m ∈ live, m.Covers va → m.level = op.level) :
    (others live op).find? (fun m => m.Covers va) = none := by
  rw [List.find?_eq_none]
  intro m hm
  simp only [others, List.mem_filter, decide_eq_true_eq] at hm
  intro hc
  have hc' : m.Covers va := by simpa using hc
  have hl := h1 m hm.1 hc'
  rw [Mapping.Covers, hl] at hc'
  exact hm.2 ⟨hl, h.trans hc'.symm⟩

theorem others_mem {live : List Mapping} {op : PtOp} {m : Mapping} (h : m ∈ others live op) : m ∈ live :=
  List.mem_of_mem_filter h

namespace Refines

variable {s s' : Sys} {live : List Mapping}

/-- The leaf of an address is that of the live mapping covering it. -/
theorem leaf_some (h : Refines s live) {va : ℕ} {l : Level} {pte : Pte}
    (hl : s.leaf va = some (l, pte)) :
    ∃ m ∈ live, m.Covers va ∧ m.level = l ∧ m.pa / 0x1000 = pte.ppn.toNat ∧
      (live.find? fun m => m.Covers va) = some m := by
  have h1 := h.leaf va
  rw [hl, Option.map_some] at h1
  obtain ⟨m, hm, hm'⟩ := Option.map_eq_some_iff.mp h1.symm
  simp only [Prod.mk.injEq] at hm'
  exact ⟨m, List.mem_of_find?_eq_some hm, by simpa using List.find?_some hm, hm'.1, hm'.2, hm⟩

theorem leaf_of_covers (h : Refines s live) {m : Mapping} {va : ℕ} (hm : m ∈ live)
    (hc : m.Covers va) : ∃ pte, s.leaf va = some (m.level, pte) := by
  cases hl : s.leaf va with
  | none =>
    have h1 := h.leaf va
    rw [hl, Option.map_none] at h1
    have h2 := List.find?_eq_none.mp (Option.map_eq_none_iff.mp h1.symm) m hm
    exact absurd hc (by simpa using h2)
  | some x =>
    obtain ⟨l, pte⟩ := x
    obtain ⟨m', hm', hc', rfl, -⟩ := h.leaf_some hl
    exact ⟨pte, by rw [h.one_level m hm m' hm' va hc hc']⟩

theorem translated_eq (h : Refines s live) (va : ℕ) : s.translated va = translate live va := by
  have hroot : s.tableRoot % 0x1000 = 0 := by
    obtain ⟨owner, hS⟩ := h.inv
    exact hS.root_aligned
  cases hl : s.leaf va with
  | none =>
    have h1 := h.leaf va
    rw [hl, Option.map_none] at h1
    rw [translate, Option.map_eq_none_iff.mp h1.symm, Sys.translated,
      if_pos (Sys.getPa_none hroot hl).2]
    rfl
  | some x =>
    obtain ⟨l, pte⟩ := x
    obtain ⟨m, hm, -, rfl, hpa, hfind⟩ := h.leaf_some hl
    obtain ⟨hlt, hal⟩ := h.pa_ok m hm
    rw [translate, hfind, Sys.translated, Sys.getPa_leaf hroot hl, if_neg (by simp), ← hpa,
      Option.map_some]
    have hb : 0x1000 * (m.pa / 0x1000) = m.pa ∧ va % m.level.size < 2 ^ 30 := by
      cases hml : m.level <;> simp only [hml, Level.size] at hal ⊢ <;> omega
    rw [hb.1, Nat.mod_eq_of_lt hlt, add64_eq (by omega)]

theorem step (h : Refines s live) {op : PtOp} (hok : op.Ok live) (hr : op.exec s = .ok s') :
    Refines s' (op.apply live) := by
  cases op with
  | map va pa flags level =>
    obtain ⟨hf, -, hpa, -, hal, hover⟩ := hok
    -- the leaf that is there, if any, is of the same level
    have hn : s.NoLeafAbove va level := by
      intro l pte hl
      obtain ⟨m, hm, hc, rfl, -⟩ := h.leaf_some hl
      by_contra hlt
      exact hover m hm (fun he => hlt (by rw [he])) va ⟨hc, rfl⟩
    obtain ⟨h1, -, h3⟩ := Sys.mapPage_spec h.inv hn hf hr
    refine ⟨h1, fun va' => ?_, fun m hm => ?_, ?_⟩
    · rw [h3 va', PtOp.apply]
      by_cases hs : SamePage level va va'
      · have hc : Mapping.Covers ⟨level, va, pa⟩ va' := hs
        rw [if_pos hs, List.find?_cons_of_pos (by simpa using hc), Option.map_some, Option.map_some]
        have : pa / 0x1000 < 2 ^ 44 := by omega
        simp only [Pte.map, BitVec.toNat_ofNat, Nat.mod_eq_of_lt this]
      · have hc : ¬ Mapping.Covers ⟨level, va, pa⟩ va' := hs
        rw [if_neg hs, List.find?_cons_of_neg (by simpa using hc), find?_others (by exact hs)]
        exact h.leaf va'
    · rcases List.mem_cons.mp hm with rfl | hm
      · exact ⟨hpa, hal⟩
      · exact h.pa_ok m (others_mem hm)
    · intro m hm m' hm' x hx hx'
      rcases List.mem_cons.mp hm with rfl | hm <;> rcases List.mem_cons.mp hm' with rfl | hm'
      · rfl
      · by_contra hne
        exact hover m' (others_mem hm') (fun he => hne he.symm) x ⟨hx', hx⟩
      · by_contra hne
        exact hover m (others_mem hm) hne x ⟨hx, hx'⟩
      · exact h.one_level m (others_mem hm) m' (others_mem hm') x hx hx'
  | unmap va level =>
    obtain ⟨m, hm, rfl, hc⟩ := hok
    obtain ⟨pte, hl⟩ := h.leaf_of_covers hm hc
    obtain ⟨s1, hr', h1, -, h3⟩ := Sys.unmapPage_spec h.inv hl
    have : s1 = s' := by
      rw [PtOp.exec, hr'] at hr
      cases hr
      rfl
    subst this
    refine ⟨h1, fun va' => ?_, fun m hm => h.pa_ok m (others_mem hm), fun m hm m' hm' =>
      h.one_level m (others_mem hm) m' (others_mem hm')⟩
    rw [h3 va', PtOp.apply]
    by_cases hs : SamePage m.level va va'
    · rw [if_pos hs, find?_others_same (by exact hs)]
      · rfl
      · intro m' hm' hc'
        exact h.one_level m' hm' m hm va' hc' (hc.trans hs)
    · rw [if_neg hs, find?_others (by exact hs)]
      exact h.leaf va'

theorem exec_error (h : Refines s live) {op : PtOp} (hok : op.Ok live) {e : Halt}
    (hr : op.exec s = .error e) : e = .panic "Pool out of pages!\n" := by
  cases op with
  | map va pa flags level => exact Sys.mapPage_error hr
  | unmap va level =>
    obtain ⟨m, hm, rfl, hc⟩ := hok
    obtain ⟨pte, hl⟩ := h.leaf_of_covers hm hc
    obtain ⟨s1, hr', -⟩ := Sys.unmapPage_spec h.inv hl
    rw [PtOp.exec, hr'] at hr
    cases hr

theorem run {ops : List PtOp} (h : Refines s live) (hok : OpsOk live ops)
    (hp : ptRun s ops ≠ .error (.panic "Pool out of pages!\n")) :
    ∃ s', ptRun s ops = .ok s' ∧ Refines s' (liveAfter live ops) := by
  induction ops generalizing s live with
  | nil => exact ⟨s, rfl, h⟩
  | cons op ops ih =>
    obtain ⟨hop, hops⟩ := hok
    cases he : op.exec s with
    | error e =>
      rw [ptRun, he, h.exec_error hop he] at hp
      exact absurd rfl hp
    | ok s1 =>
      rw [ptRun, he, Res.ok_bind] at hp
      obtain ⟨s', h1, h2⟩ := ih (h.step hop he) hops hp
      exact ⟨s', by rw [ptRun, he, Res.ok_bind, h1], h2⟩

end Refines

theorem Refines.boot {s : Sys} (h : PtEnv s)
    (hroot : ∀ x, s.tableRoot ≤ x → x < s.tableRoot + 0x1000 → s.mem x = 0) : Refines s [] := by
  obtain ⟨h1, h2⟩ := h.boot hroot
  exact ⟨h1, fun va => by rw [h2]; rfl, by simp, by simp⟩

/-- **The page table refines a partial map.** From an empty root and a pool of
zero pages, after any sequence of `map_page` and `unmap_page` calls that maps
aligned pages with some permission, unmaps live pages and never has one range
mapped at two levels, and that does not run the pool out of pages, `get_pa`
gives for every address the base of the live mapping covering it plus the
offset, or reports it as not valid; and a further call changes the translation
of no address outside its page. -/
theorem pageTable_refines (s : Sys) (henv : PtEnv s)
    (hroot : ∀ x, s.tableRoot ≤ x → x < s.tableRoot + 0x1000 → s.mem x = 0) (ops : List PtOp)
    (hok : OpsOk [] ops) (hpool : ptRun s ops ≠ .error (.panic "Pool out of pages!\n")) :
    ∃ s', ptRun s ops = .ok s' ∧ (∀ va, s'.translated va = translate (liveAfter [] ops) va) ∧
      ∀ (op : PtOp) (s'' : Sys), op.Ok (liveAfter [] ops) → op.exec s' = .ok s'' →
        ∀ va, ¬ SamePage op.level op.va va → s''.translated va = s'.translated va := by
  obtain ⟨s', hrun, hR⟩ := (Refines.boot henv hroot).run hok hpool
  refine ⟨s', hrun, hR.translated_eq, fun op s'' hop hex va hva => ?_⟩
  rw [(hR.step hop hex).translated_eq, hR.translated_eq, translate, translate]
  congr 1
  cases op with
  | map va' pa flags level =>
    have hc : ¬ Mapping.Covers ⟨level, va', pa⟩ va := hva
    rw [PtOp.apply, List.find?_cons_of_neg (by simpa using hc), find?_others hva]
  | unmap va' level => rw [PtOp.apply, find?_others hva]

/-- A page and the page after it are mapped, and the first is unmapped. -/
theorem pageTable_refines_small : ∃ s', ptRun Sys.smallBoot
      [.map 0x5000 0x80001000 2 .page, .map 0x6000 0x80003000 6 .page, .unmap 0x5000 .page] = .ok s' ∧
    s'.translated 0x5008 = none ∧ s'.translated 0x6008 = some 0x80003008 := by
  have hrun : ∃ s', ptRun Sys.smallBoot
      [.map 0x5000 0x80001000 2 .page, .map 0x6000 0x80003000 6 .page, .unmap 0x5000 .page] = .ok s' :=
    ⟨_, rfl⟩
  obtain ⟨s', h1, h2, -⟩ := pageTable_refines Sys.smallBoot Sys.smallBoot_env (fun _ _ _ => rfl)
    [.map 0x5000 0x80001000 2 .page, .map 0x6000 0x80003000 6 .page, .unmap 0x5000 .page]
    ⟨⟨by unfold HasPerm; decide, by decide, by decide, by decide, by decide, by simp⟩,
      ⟨by unfold HasPerm; decide, by decide, by decide, by decide, by decide, by simp [PtOp.apply, others]⟩,
      ⟨⟨.page, 0x5000, 0x80001000⟩, by decide, rfl, by decide⟩, trivial⟩
    (by
      obtain ⟨s', h⟩ := hrun
      rw [h]
      simp)
  refine ⟨s', h1, ?_, ?_⟩
  · rw [h2]
    decide
  · rw [h2]
    decide

end Coffer
