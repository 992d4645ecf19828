/-
# The permissions of a page

`map_page` sets bits of an entry and clears none, and only `unmap_page` makes the entry zero. So
a page that is mapped over a mapping keeps what the old one allowed: its entry has the bits of
every `map_page` since the last `unmap_page` (`PermInv`). They are those of the latest call
exactly as long as no call takes away a permission that the one before it gave
(`map_perms_iff`); `map_keeps_write` is a page made read-only that stays writable.

The calls may have any flags, also none that make the entry a leaf. What is a table is therefore
not read off the entry but off its place: it is one where some call goes further down
(`view`).
-/
import Coffer.PageMap

namespace Coffer

open Lib

variable {before ops : List PtOp} {level : Level} {va : ℕ}

/-! ### Permissions -/

/-- Which of R, W, X, U and G are set, in this order. -/
abbrev Perms := Fin 5 → Bool

/-- The permissions of an entry. -/
def Pte.perms (p : Pte) : Perms := ![p.r, p.w, p.x, p.u, p.g]

/-- The permissions asked for by `flags`. -/
def flagPerms (flags : ℕ) : Perms := fun i => flags.testBit (i + 1)

/-- The indices that lead to the entry of `va` at a level, its own included. -/
def entryPath (va : ℕ) (level : Level) : List (Fin 512) := upperVpns va level ++ [lastVpn va level]

/-- The indices of the entry of a call. -/
def PtOp.path (op : PtOp) : List (Fin 512) := entryPath op.va op.level

/-- The permissions a call asks for; none if it unmaps. -/
def PtOp.asks : PtOp → Option Perms
  | .map _ _ flags _ => some (flagPerms flags)
  | .unmap _ _ => none

/-- One call, as the specification has it: the page has what the call asks for. -/
def PtOp.setPerms (π : List (Fin 512)) (b : Option Perms) (op : PtOp) : Option Perms :=
  if op.path = π then op.asks else b

/-- What the latest call for the page of `va` asked for; none if it is not mapped. -/
def latestPerms (ops : List PtOp) (va : ℕ) (level : Level) : Option Perms :=
  ops.foldl (PtOp.setPerms (entryPath va level)) none

/-- The permissions in the entry that `get_leaf_pte` finds. -/
def Sys.entryPerms (s : Sys) (va : ℕ) (level : Level) : Option Perms :=
  match s.getLeafPte va level false with
  | .ok (addr, s) => some (s.readPte addr).perms
  | .error _ => none

/-- Two calls whose pages overlap have the same level. -/
def OneLevel (ops : List PtOp) : Prop :=
  ∀ op ∈ ops, ∀ op' ∈ ops, ∀ x, SamePage op.level op.va x → SamePage op'.level op'.va x →
    op.level = op'.level

/-- No call maps a page that is mapped with less than it has. -/
def PermsGrow (ops : List PtOp) : Prop :=
  ∀ before va pa flags level after, ops = before ++ .map va pa flags level :: after →
    ∀ b, latestPerms before va level = some b → b ≤ flagPerms flags

theorem Pte.map_perms (p : Pte) (flags pa : ℕ) : (p.map flags pa).perms = p.perms ⊔ flagPerms flags := by
  funext i
  fin_cases i <;> rfl

theorem Pte.zero_perms : Pte.zero.perms = ⊥ := by
  funext i
  fin_cases i <;> rfl

/-! ### Tables by their place -/

/-- The paths of the entries that calls write, and none of them leads through another. -/
structure Ends where
  mem : List (Fin 512) → Prop
  apart : ∀ π rest, mem π → mem (π ++ rest) → rest = []

namespace Ends

/-- Some call goes through the entry at `π` to a table below. -/
def Inner (U : Ends) (π : List (Fin 512)) : Prop := ∃ rest, rest ≠ [] ∧ U.mem (π ++ rest)

theorem not_inner {U : Ends} {π : List (Fin 512)} (h : U.mem π) : ¬ U.Inner π :=
  fun ⟨rest, hne, hr⟩ => hne (U.apart π rest h hr)

end Ends

open Classical in
/-- The tables as `get_leaf_pte` uses them: a valid entry is a pointer where a call goes through
it, and otherwise a leaf whatever its bits. -/
noncomputable def view (U : Ends) (owner : ℕ → Option (List (Fin 512))) (m : Mem) :
    Radix.Tables ℕ (Fin 512) Pte := fun p i =>
  if (pteAt m p i).v = false then .empty
  else if ∃ π, owner p = some π ∧ U.Inner (π ++ [i]) then .ptr (pteAt m p i).ppn.toNat
  else .leaf (pteAt m p i)

section View

variable {U : Ends} {owner : ℕ → Option (List (Fin 512))} {m : Mem} {p : ℕ} {i : Fin 512}
  {π : List (Fin 512)}

theorem view_empty (h : (pteAt m p i).v = false) : view U owner m p i = .empty := if_pos h

theorem view_ptr (hp : owner p = some π) (hi : U.Inner (π ++ [i])) (h : (pteAt m p i).v = true) :
    view U owner m p i = .ptr (pteAt m p i).ppn.toNat := by
  rw [view, if_neg (by simp [h]), if_pos ⟨π, hp, hi⟩]

theorem view_leaf (hp : owner p = some π) (hi : ¬ U.Inner (π ++ [i])) (h : (pteAt m p i).v = true) :
    view U owner m p i = .leaf (pteAt m p i) := by
  rw [view, if_neg (by simp [h]), if_neg]
  rintro ⟨ρ, hρ, hin⟩
  rw [hp] at hρ
  cases hρ
  exact hi hin

/-- After a write, too, an entry that is not valid is zero. -/
theorem zero_store {pte : Pte} (hz : pte.v = false → pte = Pte.zero) {r : ℕ} {j : Fin 512}
    (h : (pteAt m r j).v = false → pteAt m r j = Pte.zero)
    (hv : (pteAt (m.store (0x1000 * p + 8 * i) 8 pte.toNat) r j).v = false) :
    pteAt (m.store (0x1000 * p + 8 * i) 8 pte.toNat) r j = Pte.zero := by
  by_cases hc : r = p ∧ j = i
  · obtain ⟨rfl, rfl⟩ := hc
    rw [pteAt_store_self] at hv ⊢
    exact hz hv
  · rw [pteAt_store_other m _ (not_and_or.mp hc)] at hv ⊢
    exact h hv

theorem view_store (hp : owner p = some π) (hi : ¬ U.Inner (π ++ [i])) (pte : Pte) :
    view U owner (m.store (0x1000 * p + 8 * i) 8 pte.toNat) =
      Radix.write (view U owner m) p i (if pte.v = false then .empty else .leaf pte) := by
  funext q j
  by_cases h : q = p ∧ j = i
  · obtain ⟨rfl, rfl⟩ := h
    have hs := pteAt_store_self m q j pte
    rw [Radix.write_self]
    by_cases hv : pte.v = false
    · rw [if_pos hv, view_empty (by rw [hs, hv])]
    · rw [if_neg hv, view_leaf hp hi (by rw [hs]; simpa using hv), hs]
  · have h' : q ≠ p ∨ j ≠ i := not_and_or.mp h
    rw [Radix.write_other _ h', view, pteAt_store_other m _ h', view]

/-- Hanging a fresh table into an entry that calls go through. -/
theorem view_grow (hp : owner p = some π) (hi : U.Inner (π ++ [i])) {q : ℕ} {pte : Pte} (hv : pte.v = true)
    (hq : pte.ppn.toNat = q) (ho : owner q = none) (hz : ∀ j, pteAt m q j = Pte.zero) :
    view U (Function.update owner q (some (π ++ [i]))) (m.store (0x1000 * p + 8 * i) 8 pte.toNat) =
      Radix.write (view U owner m) p i (.ptr q) := by
  have hpq : p ≠ q := by
    rintro rfl
    rw [hp] at ho
    cases ho
  funext r j
  by_cases h : r = p ∧ j = i
  · obtain ⟨rfl, rfl⟩ := h
    have hs := pteAt_store_self m r j pte
    have hown : Function.update owner q (some (π ++ [j])) r = some π := by
      rw [Function.update_of_ne hpq, hp]
    rw [Radix.write_self, view_ptr hown hi (by rw [hs, hv]),
      hs, hq]
  · have h' : r ≠ p ∨ j ≠ i := not_and_or.mp h
    have hs := pteAt_store_other m (q := r) (j := j) pte.toNat h'
    rw [Radix.write_other _ h']
    by_cases hr : r = q
    · subst hr
      rw [view_empty (by rw [hs, hz j]; rfl), view_empty (by rw [hz j]; rfl)]
    · rw [view, hs, Function.update_of_ne hr, view]

end View

/-! ### The invariant -/

/-- The tables form a tree with the ghost paths `owner`, and an entry that is not valid is zero. -/
structure EntryShape (U : Ends) (s : Sys) (owner : ℕ → Option (List (Fin 512))) : Prop
    extends PtOwned s owner where
  shape : Radix.Shape (view U owner s.mem) s.rootPage owner
  zero : ∀ p π, owner p = some π → ∀ i, (pteAt s.mem p i).v = false → pteAt s.mem p i = Pte.zero

/-- The entries at the end of a path have the permissions `held` has for it, and the tables are in
order; `p` is the table that `π` leads to. -/
def PermsAt (U : Ends) (held : List (Fin 512) → Option Perms) (s : Sys) (π : List (Fin 512)) (p : ℕ) : Prop :=
  ∃ owner, EntryShape U s owner ∧ Radix.descend (view U owner s.mem) s.rootPage π = some p ∧
    ∀ ρ, U.mem ρ → (Radix.walk (view U owner s.mem) s.rootPage ρ).map (fun x => x.2.perms) = held ρ

/-- The same, at the root. -/
def PermInv (U : Ends) (held : List (Fin 512) → Option Perms) (s : Sys) : Prop :=
  PermsAt U held s [] s.rootPage

section Step

variable {U : Ends} {held : List (Fin 512) → Option Perms} {s s' : Sys} {π : List (Fin 512)}
  {p table : ℕ} {vpn last : Fin 512}

theorem EntryShape.owner_of {owner : ℕ → Option (List (Fin 512))} (h : EntryShape U s owner)
    (hd : Radix.descend (view U owner s.mem) s.rootPage π = some p) : owner p = some π := by
  simpa using h.shape.descend_owner h.shape.root_owner hd

theorem PermsAt.next (h : PermsAt U held s π p) (hi : U.Inner (π ++ [vpn]))
    (hr : s.nextTable (0x1000 * p) vpn true = .ok (table, s')) :
    ∃ q, table = 0x1000 * q ∧ PermsAt U held s' (π ++ [vpn]) q := by
  obtain ⟨owner, hS, hd, hw⟩ := h
  have hp := hS.owner_of hd
  have he : s.readPte (0x1000 * p + 8 * (vpn : ℕ)) = pteAt s.mem p vpn := by
    rw [Sys.readPte, pteAt]
  simp only [Sys.nextTable, he] at hr
  by_cases hv : (pteAt s.mem p vpn).v = false
  · -- an invalid entry: the next page of the pool is hung into it
    rw [if_pos hv, if_neg (by simp)] at hr
    obtain ⟨⟨pa, s1⟩, ha, hr⟩ := Res.bind_ok hr
    obtain ⟨q, hq, hpa, hle, hs1, ho, hz⟩ := hS.toPtOwned.alloc ha
    have he1 : s1.readPte (0x1000 * p + 8 * (vpn : ℕ)) = Pte.zero := by
      rw [Sys.readPte, hs1, Sys.mem_setUsedPageCount, ← hS.zero p π hp vpn hv, pteAt]
    simp only [he1, Except.ok.injEq, Prod.mk.injEq] at hr
    obtain ⟨rfl, hs'⟩ := hr
    have hs' : s1.writePte (0x1000 * p + 8 * (vpn : ℕ)) (Pte.pointer (BitVec.ofNat 44 (pa / 0x1000))) = s' := hs'
    subst hs'
    have hend := hS.pool_end
    have hppn : (Pte.pointer (BitVec.ofNat 44 (pa / 0x1000))).ppn.toNat = q := by
      rw [Pte.pointer, BitVec.toNat_ofNat, Nat.mod_eq_of_lt (by omega)]
      omega
    obtain ⟨hown, hframe⟩ := hS.toPtOwned.grow (q := q) hp vpn (π ++ [vpn])
      (v := (Pte.pointer (BitVec.ofNat 44 (pa / 0x1000))).toNat) rfl (by omega) (by omega)
    rw [hs1, Sys.writePte, Sys.mem_setUsedPageCount]
    have hview := view_grow (m := s.mem) hp hi rfl hppn ho hz
    have hempty : view U owner s.mem p vpn = .empty := view_empty hv
    have hfresh : ∀ j, view U owner s.mem q j = .empty := fun j => view_empty (by rw [hz j]; rfl)
    refine ⟨q, hq, _, { hown with shape := ?_, zero := fun r ρ hr j hj => ?_ }, ?_, fun ρ hρ => ?_⟩
    · exact hview ▸ hS.shape.write_fresh hp ho hfresh
    · refine zero_store (fun hv' => by cases hv') (fun hj' => ?_) hj
      by_cases hrq : r = q
      · rw [hrq, hz j]
      · rw [Function.update_of_ne hrq] at hr
        exact hS.zero r ρ hr j hj'
    · show Radix.descend (view U _ (s.mem.store (0x1000 * p + 8 * vpn) 8 _)) s.rootPage _ = _
      rw [hview, Radix.descend_write_fresh hS.shape hd hempty ho hfresh, if_pos rfl]
    · show (Radix.walk (view U _ (s.mem.store (0x1000 * p + 8 * vpn) 8 _)) s.rootPage ρ).map _ = _
      rw [hview, Radix.walk_write_fresh hS.shape hd hempty ho hfresh, hw ρ hρ]
  · -- a valid entry is a pointer to a table
    rw [if_neg hv] at hr
    obtain ⟨rfl, rfl⟩ := Res.ok_pair hr
    exact ⟨_, rfl, owner, hS, Radix.descend_snoc hd (view_ptr hp hi (by simpa using hv)), hw⟩

theorem PermsAt.loop (h : PermsAt U held s π p) (us : List (Fin 512)) (hu : U.mem (π ++ us ++ [last]))
    (hr : s.descendTables (0x1000 * p) true us = .ok (table, s')) :
    ∃ q, table = 0x1000 * q ∧ PermsAt U held s' (π ++ us) q := by
  induction us generalizing s π p with
  | nil =>
    simp only [Sys.descendTables, Except.ok.injEq, Prod.mk.injEq] at hr
    obtain ⟨rfl, rfl⟩ := hr
    exact ⟨p, rfl, by simpa using h⟩
  | cons u us ih =>
    simp only [Sys.descendTables] at hr
    obtain ⟨⟨t, s1⟩, hr1, hr2⟩ := Res.bind_ok hr
    obtain ⟨q, rfl, h'⟩ := h.next ⟨us ++ [last], by simp, by simpa using hu⟩ hr1
    obtain ⟨q', hq', h''⟩ := ih h' (by simpa using hu) hr2
    exact ⟨q', hq', by simpa using h''⟩

/-- What is held for the entry of a call is what its entry has. -/
theorem PermsAt.entry (h : PermsAt U held s π p) (hu : U.mem (π ++ [last])) :
    ((pteAt s.mem p last).v = false ∧ pteAt s.mem p last = Pte.zero ∧ held (π ++ [last]) = none) ∨
      ((pteAt s.mem p last).v = true ∧ held (π ++ [last]) = some (pteAt s.mem p last).perms) := by
  obtain ⟨owner, hS, hd, hw⟩ := h
  have hp := hS.owner_of hd
  rw [← hw _ hu, Radix.walk_descend _ hd]
  cases hv : (pteAt s.mem p last).v with
  | false =>
    refine Or.inl ⟨rfl, hS.zero p π hp last hv, ?_⟩
    rw [Radix.walk_empty (view_empty hv)]
    rfl
  | true =>
    refine Or.inr ⟨rfl, ?_⟩
    rw [Radix.walk_leaf (view_leaf hp (Ends.not_inner hu) hv)]
    rfl

theorem PermsAt.write (h : PermsAt U held s π p) (hu : U.mem (π ++ [last])) (pte : Pte)
    (hz : pte.v = false → pte = Pte.zero) {held' : List (Fin 512) → Option Perms}
    (hself : held' (π ++ [last]) = if pte.v = false then none else some pte.perms)
    (hother : ∀ ρ, ρ ≠ π ++ [last] → held' ρ = held ρ) :
    PermInv U held' (s.writePte (0x1000 * p + 8 * last) pte) := by
  obtain ⟨owner, hS, hd, hw⟩ := h
  have hp := hS.owner_of hd
  have hview := view_store (m := s.mem) hp (Ends.not_inner hu) pte
  refine ⟨owner, { hS.toPtOwned.write hp last pte.toNat with shape := ?_, zero := fun r ρ hr j hj => ?_ },
    rfl, fun ρ hρ => ?_⟩
  · show Radix.Shape (view U owner (s.mem.store (0x1000 * p + 8 * last) 8 pte.toNat)) s.rootPage owner
    rw [hview]
    refine hS.shape.write_end p last fun q => ?_
    split <;> simp
  · exact zero_store hz (hS.zero r ρ hr j) hj
  · show (Radix.walk (view U owner (s.mem.store (0x1000 * p + 8 * last) 8 pte.toNat)) s.rootPage ρ).map _ = _
    rw [hview]
    by_cases hρ' : ρ = π ++ [last]
    · subst hρ'
      rw [hself]
      by_cases hv : pte.v = false
      · rw [if_pos hv, if_pos hv, Radix.walk_write_empty hS.shape last hd]
        rfl
      · rw [if_neg hv, if_neg hv, Radix.walk_write_leaf hS.shape last pte hd]
        rfl
    · rw [hother ρ hρ', ← hw ρ hρ, Radix.walk_write hS.shape _ hp]
      rintro ⟨rest, rfl⟩
      rw [U.apart _ _ hu hρ, List.append_nil] at hρ'
      exact hρ' rfl

/-- The loop without allocation follows the tables. -/
theorem EntryShape.descend {owner : ℕ → Option (List (Fin 512))} (h : EntryShape U s owner)
    (hp : owner p = some π) (us : List (Fin 512)) (hu : U.mem (π ++ us ++ [last])) :
    (∃ q, s.descendTables (0x1000 * p) false us = .ok (0x1000 * q, s) ∧
        Radix.descend (view U owner s.mem) p us = some q) ∨
      (∃ e, s.descendTables (0x1000 * p) false us = .error e) ∧
        Radix.walk (view U owner s.mem) p (us ++ [last]) = none := by
  induction us generalizing π p with
  | nil => exact Or.inl ⟨p, rfl, rfl⟩
  | cons u us ih =>
    have hi : U.Inner (π ++ [u]) := ⟨us ++ [last], by simp, by simpa using hu⟩
    have he : s.readPte (0x1000 * p + 8 * (u : ℕ)) = pteAt s.mem p u := by
      rw [Sys.readPte, pteAt]
    simp only [Sys.descendTables, Sys.nextTable, he, List.cons_append]
    cases hv : (pteAt s.mem p u).v with
    | false =>
      refine Or.inr ⟨⟨_, rfl⟩, ?_⟩
      rw [Radix.walk_empty (view_empty hv)]
    | true =>
      have hptr := view_ptr hp hi hv
      rw [if_neg (by simp), Res.ok_bind, Radix.walk_ptr hptr, Radix.descend, hptr]
      exact ih (h.shape.ptr_owner hp hptr) (by simpa using hu)

end Step

/-! ### The calls -/

theorem PermInv.root_eq {U : Ends} {held : List (Fin 512) → Option Perms} {s : Sys} (h : PermInv U held s) :
    s.tableRoot = 0x1000 * s.rootPage := by
  obtain ⟨owner, hS, -⟩ := h
  exact hS.root_eq

/-- `get_leaf_pte` without allocation finds what is held. -/
theorem PermInv.getLeafPte {U : Ends} {held : List (Fin 512) → Option Perms} {s : Sys}
    (h : PermInv U held s) (hu : U.mem (entryPath va level)) :
    (∃ p, s.getLeafPte va level false = .ok (0x1000 * p + 8 * lastVpn va level, s) ∧
        PermsAt U held s (upperVpns va level) p ∧
        held (entryPath va level) = some (s.readPte (0x1000 * p + 8 * lastVpn va level)).perms) ∨
      (∃ e, s.getLeafPte va level false = .error e) ∧ held (entryPath va level) = none := by
  have hroot := h.root_eq
  obtain ⟨owner, hS, -, hw⟩ := h
  unfold Sys.getLeafPte
  rw [hroot]
  rcases hS.descend hS.shape.root_owner (upperVpns va level) hu with ⟨p, hd, hd'⟩ | ⟨⟨e, hd⟩, hwalk⟩
  · have hat : PermsAt U held s (upperVpns va level) p := ⟨owner, hS, hd', hw⟩
    have he : s.readPte (0x1000 * p + 8 * (lastVpn va level : ℕ)) = pteAt s.mem p (lastVpn va level) := by
      rw [Sys.readPte, pteAt]
    rw [hd, Res.ok_bind]
    dsimp only
    rw [he]
    rcases hat.entry hu with ⟨hv, -, hn⟩ | ⟨hv, hn⟩
    · exact Or.inr ⟨⟨_, if_pos ⟨hv, rfl⟩⟩, hn⟩
    · exact Or.inl ⟨p, if_neg (by simp [hv]), hat, hn⟩
  · rw [hd]
    refine Or.inr ⟨⟨e, rfl⟩, ?_⟩
    rw [← hw _ hu, entryPath, hwalk]
    rfl

theorem PermInv.entryPerms {U : Ends} {held : List (Fin 512) → Option Perms} {s : Sys}
    (h : PermInv U held s) (hu : U.mem (entryPath va level)) :
    s.entryPerms va level = held (entryPath va level) := by
  unfold Sys.entryPerms
  rcases h.getLeafPte hu with ⟨p, hr, -, hh⟩ | ⟨⟨e, hr⟩, hh⟩
  · rw [hr, hh]
  · rw [hr, hh]

/-- One call, as the code has it: bits are added. -/
def PtOp.addPerms (π : List (Fin 512)) (b : Option Perms) (op : PtOp) : Option Perms :=
  if op.path = π then op.asks.map (b.getD ⊥ ⊔ ·) else b

theorem PermInv.step {U : Ends} {held : List (Fin 512) → Option Perms} {s s' : Sys} {op : PtOp}
    (h : PermInv U held s) (hu : U.mem op.path) (hr : op.exec s = .ok s') :
    PermInv U (fun π => op.addPerms π (held π)) s' := by
  have hother : ∀ ρ, ρ ≠ op.path → op.addPerms ρ (held ρ) = held ρ := fun ρ hρ => if_neg (Ne.symm hρ)
  cases op with
  | map va pa flags level =>
    rw [PtOp.exec, Sys.mapPage] at hr
    obtain ⟨⟨addr, s1⟩, hr1, hr2⟩ := Res.bind_ok hr
    rw [Sys.getLeafPte, h.root_eq] at hr1
    obtain ⟨⟨table, s2⟩, hloop, hr3⟩ := Res.bind_ok hr1
    simp only [Bool.true_eq_false, and_false, if_false, Except.ok.injEq, Prod.mk.injEq] at hr3
    obtain ⟨rfl, rfl⟩ := hr3
    obtain ⟨p, rfl, hat⟩ := PermsAt.loop h (upperVpns va level) hu hloop
    have he : s2.readPte (0x1000 * p + 8 * (lastVpn va level : ℕ)) = pteAt s2.mem p (lastVpn va level) := by
      rw [Sys.readPte, pteAt]
    simp only [he, Except.ok.injEq] at hr2
    subst hr2
    rw [List.nil_append] at hat
    have hu : U.mem (upperVpns va level ++ [lastVpn va level]) := hu
    have hold : (held (upperVpns va level ++ [lastVpn va level])).getD ⊥ =
        (pteAt s2.mem p (lastVpn va level)).perms := by
      rcases hat.entry hu with ⟨-, hz, hn⟩ | ⟨-, hn⟩
      · rw [hn, hz, Pte.zero_perms]
        rfl
      · rw [hn]
        rfl
    refine hat.write hu _ (fun hv => by cases hv) ?_ hother
    rw [if_neg (by simp [Pte.map]), Pte.map_perms, ← hold]
    exact if_pos rfl
  | unmap va level =>
    rw [PtOp.exec, Sys.unmapPage] at hr
    have hu : U.mem (entryPath va level) := hu
    rcases h.getLeafPte hu with ⟨p, hl, hat, -⟩ | ⟨⟨e, hl⟩, -⟩
    · rw [hl] at hr
      cases hr
      exact hat.write hu Pte.zero (fun _ => rfl) (if_pos rfl) hother
    · rw [hl] at hr
      cases hr

/-- The permissions in the entries after a sequence of calls. -/
def heldPerms (ops : List PtOp) (π : List (Fin 512)) : Option Perms := ops.foldl (PtOp.addPerms π) none

theorem PermInv.run {U : Ends} {s s' : Sys} (h : PermInv U (heldPerms before) s)
    (hu : ∀ op ∈ ops, U.mem op.path) (hr : ptRun s ops = .ok s') :
    PermInv U (heldPerms (before ++ ops)) s' := by
  induction ops generalizing before s with
  | nil =>
    cases hr
    simpa using h
  | cons op ops ih =>
    rw [ptRun] at hr
    obtain ⟨s1, hr1, hr2⟩ := Res.bind_ok hr
    have h1 : PermInv U (heldPerms (before ++ [op])) s1 := by
      have h1 := h.step (hu op (by simp)) hr1
      unfold heldPerms at h1 ⊢
      simpa only [List.foldl_append, List.foldl_cons, List.foldl_nil] using h1
    have h2 := ih h1 (fun op' hop' => hu op' (by simp [hop'])) hr2
    simpa using h2

/-- A run that returned has returned after each call. -/
theorem ptRun_ok_left {s s' : Sys} {after : List PtOp} (h : ptRun s (before ++ after) = .ok s') :
    ∃ s1, ptRun s before = .ok s1 := by
  induction before generalizing s with
  | nil => exact ⟨s, rfl⟩
  | cons op before ih =>
    rw [List.cons_append, ptRun] at h
    obtain ⟨s1, h1, h2⟩ := Res.bind_ok h
    obtain ⟨s2, h3⟩ := ih h2
    exact ⟨s2, by rw [ptRun, h1, Res.ok_bind, h3]⟩

theorem PermInv.boot {s : Sys} (henv : PtEnv s)
    (hroot : ∀ x, s.tableRoot ≤ x → x < s.tableRoot + 0x1000 → s.mem x = 0) (U : Ends) :
    PermInv U (heldPerms []) s := by
  have hz : ∀ i, pteAt s.mem s.rootPage i = Pte.zero := fun i => (henv.root_empty hroot i).1
  have hempty : ∀ owner i, view U owner s.mem s.rootPage i = .empty := fun owner i =>
    view_empty (by rw [hz i]; rfl)
  let owner : ℕ → Option (List (Fin 512)) := fun p => if p = s.rootPage then some [] else none
  have howner : ∀ {p π}, owner p = some π → p = s.rootPage := by
    intro p π hp
    by_contra hne
    simp only [owner, if_neg hne] at hp
    cases hp
  refine ⟨owner, { henv with owned := ?_, shape := ⟨if_pos rfl, ?_⟩, zero := ?_ }, rfl, fun ρ _ => ?_⟩
  · exact fun p π hp => Or.inl (howner hp)
  · intro p q π i hp hE
    rw [howner hp, hempty] at hE
    cases hE
  · intro p π hp i _
    rw [howner hp, hz i]
  · cases ρ with
    | nil => rfl
    | cons i ρ =>
      rw [Radix.walk_empty (hempty owner i)]
      rfl

/-! ### What is held and what was asked for -/

theorem entryPath_length (va : ℕ) (level : Level) : (entryPath va level).length = level.toNat + 1 := by
  cases level <;> rfl

theorem entryPath_le_vpns (va : ℕ) (level : Level) : entryPath va level <+: vpns va :=
  (samePage_iff level va va).mpr rfl

/-- The entries that calls write, where overlapping pages have one level. -/
def OneLevel.ends {ops : List PtOp} (h : OneLevel ops) : Ends where
  mem π := ∃ op ∈ ops, op.path = π
  apart := by
    rintro π rest ⟨op, hop, rfl⟩ ⟨op', hop', hpath⟩
    have hpre : op.path <+: vpns op'.va :=
      List.IsPrefix.trans ⟨rest, hpath.symm⟩ (entryPath_le_vpns op'.va op'.level)
    have hlevel := h op hop op' hop' op'.va ((samePage_iff _ _ _).mp hpre) rfl
    have hlen := congrArg List.length hpath
    rw [List.length_append, PtOp.path, PtOp.path, entryPath_length, entryPath_length, hlevel] at hlen
    exact List.length_eq_zero_iff.mp (by omega)

theorem latestPerms_append (before : List PtOp) (op : PtOp) (va : ℕ) (level : Level) :
    latestPerms (before ++ [op]) va level =
      op.setPerms (entryPath va level) (latestPerms before va level) := by
  simp only [latestPerms, List.foldl_append, List.foldl_cons, List.foldl_nil]

theorem heldPerms_append (before : List PtOp) (op : PtOp) (π : List (Fin 512)) :
    heldPerms (before ++ [op]) π = op.addPerms π (heldPerms before π) := by
  simp only [heldPerms, List.foldl_append, List.foldl_cons, List.foldl_nil]

/-- A page that is mapped was mapped by a call. -/
theorem exists_of_latestPerms {b : Perms}
    (h : latestPerms ops va level = some b) : ∃ op ∈ ops, op.path = entryPath va level := by
  induction ops using List.reverseRecOn with
  | nil => cases h
  | append_singleton ops op ih =>
    rw [latestPerms_append, PtOp.setPerms] at h
    by_cases hp : op.path = entryPath va level
    · exact ⟨op, by simp, hp⟩
    · rw [if_neg hp] at h
      obtain ⟨op', hop', hp'⟩ := ih h
      exact ⟨op', by simp [hop'], hp'⟩

/-- Where no call takes a permission away, an entry has what the latest call asked for. -/
theorem PermsGrow.held_eq {after : List PtOp} (h : PermsGrow ops) (hops : ops = before ++ after)
    (va : ℕ) (level : Level) : heldPerms before (entryPath va level) = latestPerms before va level := by
  induction before using List.reverseRecOn generalizing after with
  | nil => rfl
  | append_singleton before op ih =>
    have hops' : ops = before ++ op :: after := by simpa using hops
    rw [heldPerms_append, latestPerms_append, ih hops', PtOp.addPerms, PtOp.setPerms]
    by_cases hp : op.path = entryPath va level
    · rw [if_pos hp, if_pos hp]
      cases op with
      | unmap va' level' => rfl
      | map va' pa flags level' =>
        have hlast : latestPerms before va' level' = latestPerms before va level := by
          have hp' : entryPath va' level' = entryPath va level := hp
          rw [latestPerms, hp', latestPerms]
        cases hb : latestPerms before va level with
        | none => rw [PtOp.asks, Option.map_some, Option.getD_none, bot_sup_eq]
        | some b =>
          rw [PtOp.asks, Option.map_some, Option.getD_some, sup_eq_right.mpr]
          exact h before va' pa flags level' after hops' b (hlast.trans hb)
    · rw [if_neg hp, if_neg hp]

/-- **The permissions of a page are those of its latest mapping exactly if no remapping takes any
away.** From an empty root table and a pool of zero pages, for a sequence of `map_page` and
`unmap_page` calls with one level for each range, that ran to its end: in every state it goes
through, the entry of every mapped page has exactly the bits R, W, X, U and G that the latest
`map_page` for that page asked for, if and only if no `map_page` on a page that is mapped leaves
out one that it has. -/
theorem map_perms_iff (s s' : Sys) (henv : PtEnv s)
    (hroot : ∀ x, s.tableRoot ≤ x → x < s.tableRoot + 0x1000 → s.mem x = 0) (ops : List PtOp)
    (hlevel : OneLevel ops) (hr : ptRun s ops = .ok s') :
    (∀ before after, ops = before ++ after → ∀ s1, ptRun s before = .ok s1 →
      ∀ va level b, latestPerms before va level = some b → s1.entryPerms va level = some b) ↔
      PermsGrow ops := by
  -- every state on the way has what the calls up to it have added
  have hstate : ∀ before after, ops = before ++ after → ∀ s1, ptRun s before = .ok s1 →
      ∀ va level b, latestPerms before va level = some b →
        s1.entryPerms va level = heldPerms before (entryPath va level) := by
    rintro before after rfl s1 h1 va level b hb
    have hI := (PermInv.boot henv hroot hlevel.ends).run
      (fun op hop => ⟨op, List.mem_append_left _ hop, rfl⟩) h1
    obtain ⟨op, hop, hp⟩ := exists_of_latestPerms hb
    exact hI.entryPerms ⟨op, List.mem_append_left _ hop, hp⟩
  constructor
  · rintro h before va pa flags level after rfl b hb
    have hops : before ++ .map va pa flags level :: after = (before ++ [.map va pa flags level]) ++ after := by
      simp
    obtain ⟨s1, h1⟩ := ptRun_ok_left hr
    obtain ⟨s2, h2⟩ := ptRun_ok_left (hops ▸ hr)
    have hself : PtOp.path (.map va pa flags level) = entryPath va level := rfl
    have hlatest : latestPerms (before ++ [.map va pa flags level]) va level = some (flagPerms flags) := by
      rw [latestPerms_append, PtOp.setPerms, if_pos hself, PtOp.asks]
    have hheld : heldPerms before (entryPath va level) = some b := by
      rw [← hstate before _ rfl s1 h1 va level b hb, h before _ rfl s1 h1 va level b hb]
    have hnew := h _ after hops s2 h2 va level _ hlatest
    rw [hstate _ after hops s2 h2 va level _ hlatest, heldPerms_append, PtOp.addPerms, if_pos hself,
      hheld] at hnew
    exact sup_eq_right.mp (Option.some.inj hnew)
  · intro h before after hops s1 h1 va level b hb
    rw [hstate before after hops s1 h1 va level b hb, h.held_eq hops, hb]

/-- A page is mapped readable, and mapped again as readable and writable. -/
theorem map_perms_iff_grow : ∃ s',
    ptRun Sys.smallBoot [.map 0x5000 0x80001000 2 .page, .map 0x5000 0x80001000 6 .page] = .ok s' ∧
    s'.entryPerms 0x5000 .page = some (flagPerms 6) := by
  obtain ⟨s', hr⟩ := Res.exists_ok (x := ptRun Sys.smallBoot [.map 0x5000 0x80001000 2 .page,
    .map 0x5000 0x80001000 6 .page]) (by decide +kernel)
  have hgrow : PermsGrow [.map 0x5000 0x80001000 2 .page, .map 0x5000 0x80001000 6 .page] := by
    intro before va pa flags level after hops b hb
    rcases before with _ | ⟨op, _ | ⟨op', before⟩⟩
    · cases hb
    · simp only [List.cons_append, List.nil_append, List.cons.injEq, PtOp.map.injEq] at hops
      obtain ⟨rfl, ⟨rfl, rfl, rfl, rfl⟩, -⟩ := hops
      cases hb
      rw [Pi.le_def]
      decide
    · simp at hops
  refine ⟨s', hr, ?_⟩
  refine (map_perms_iff Sys.smallBoot s' Sys.smallBoot_env (fun _ _ _ => rfl) _ ?_ hr).mpr hgrow _ []
    (List.append_nil _).symm s' hr _ _ _ (by decide +kernel)
  intro op hop op' hop' x _ _
  simp only [List.mem_cons, List.not_mem_nil, or_false] at hop hop'
  rcases hop with rfl | rfl <;> rcases hop' with rfl | rfl <;> rfl

/-- **A stale permission.** A page is mapped readable and writable, and mapped again with R alone:
its entry is still writable. -/
theorem map_keeps_write : OneLevel [.map 0x5000 0x80001000 6 .page, .map 0x5000 0x80001000 2 .page] ∧
    ∃ s', ptRun Sys.smallBoot [.map 0x5000 0x80001000 6 .page, .map 0x5000 0x80001000 2 .page] = .ok s' ∧
      latestPerms [.map 0x5000 0x80001000 6 .page, .map 0x5000 0x80001000 2 .page] 0x5000 .page =
        some ![true, false, false, false, false] ∧
      s'.entryPerms 0x5000 .page = some ![true, true, false, false, false] := by
  refine ⟨?_, ?_⟩
  · intro op hop op' hop' x _ _
    simp only [List.mem_cons, List.not_mem_nil, or_false] at hop hop'
    rcases hop with rfl | rfl <;> rcases hop' with rfl | rfl <;> rfl
  · have hrun : (ptRun Sys.smallBoot [.map 0x5000 0x80001000 6 .page,
        .map 0x5000 0x80001000 2 .page]).toOption.map (fun s => s.entryPerms 0x5000 .page) =
        some (some ![true, true, false, false, false]) := by decide +kernel
    cases hr : ptRun Sys.smallBoot [.map 0x5000 0x80001000 6 .page, .map 0x5000 0x80001000 2 .page] with
    | error e =>
      rw [hr] at hrun
      cases hrun
    | ok s' =>
      rw [hr] at hrun
      exact ⟨s', rfl, by decide +kernel, Option.some.inj hrun⟩

end Coffer
