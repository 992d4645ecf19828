/-
# Partitions from the security monitor

Memory beyond the pools comes from the security monitor in partitions of 2 MiB.
`__ecall_ebi_mem_alloc` asks for a run of partitions; it is refused (`-1`) with a
suggestion of how many there are, or granted. The loop around it, which asks
for what is left, follows suggestions and maps each grant with megapages, stands
in the source several times over. `partitionLoop` is that loop, as the calls of
`map_page` it makes, with the bound of its inner `for` as a parameter: the heap
maps what was `allocated`, but the program break and the ELF loader map
`number_of_partitions` for every grant, whatever its size.

So where the first request is refused, they map partitions the monitor did not
grant; `onlyGranted_iff` is the exact condition.
-/
import Coffer.Translation

namespace Coffer

open Lib

/-- An answer of the monitor: the registers `a0` and `a1`. -/
structure SmReply where
  ret : ℕ
  paddr : ℕ
deriving DecidableEq, Repr

/-- `pa == -1UL`; `ret` is then the suggestion. -/
def SmReply.Refused (r : SmReply) : Prop := r.paddr = 2 ^ 64 - 1

instance (r : SmReply) : Decidable r.Refused := inferInstanceAs (Decidable (_ = _))

/-- What the loop does: the monitor grants `count` partitions at `pa`, or a
partition is mapped. -/
inductive MapEvent
  | grant (pa count : ℕ)
  | map (va pa : ℕ)
deriving DecidableEq, Repr

/-- `va + i * PARTITION_SIZE`. -/
def slot (va i : ℕ) : ℕ := add64 va (0x200000 * i)

/-- The inner `for`: `n` consecutive partitions. -/
def mapCalls (va pa n : ℕ) : List MapEvent :=
  (List.range n).map fun i => .map (slot va i) (slot pa i)

/-- `while (left > 0)` with the `do … while (pa == -1UL)` in it: `sug` is the next
number asked for. Returns the events and the answers not used, or none if the
monitor stops answering. -/
def partitionLoop (bound : ℕ → ℕ) : List SmReply → ℕ → ℕ → ℕ → List MapEvent × Option (List SmReply)
  | rs, 0, _, _ => ([], some rs)
  | [], _ + 1, _, _ => ([], none)
  | r :: rs, left + 1, sug, va =>
    if r.Refused then partitionLoop bound rs (left + 1) r.ret va
    else
      let left' := sub64 (left + 1) sug
      let next := partitionLoop bound rs left' left' (add64 va (mul64 sug 0x200000))
      (.grant r.paddr sug :: mapCalls va r.paddr (bound sug) ++ next.1, next.2)

/-- The loop of `alloc_map_brk_outside_pool`. -/
def brkPartitions (va size : ℕ) (rs : List SmReply) : List MapEvent × Option (List SmReply) :=
  let numberOfPartitions := size / 0x200000
  partitionLoop (fun _ => numberOfPartitions) rs numberOfPartitions numberOfPartitions va

/-- The loop of `map_elf` over the partitions of a large segment. -/
def elfPartitions (vaPartAlign sizeDiff : ℕ) (rs : List SmReply) :
    List MapEvent × Option (List SmReply) :=
  let numberOfPartitions := partitionUp sizeDiff / 0x200000
  partitionLoop (fun _ => numberOfPartitions) rs numberOfPartitions numberOfPartitions vaPartAlign

/-- The calls of `map_page`, one after the other. -/
def Sys.execCalls (s : Sys) (flags : ℕ) : List MapEvent → Res Sys
  | [] => .ok s
  | .grant _ _ :: evs => s.execCalls flags evs
  | .map va pa :: evs => do
    let s ← s.mapPage va pa flags .mega
    s.execCalls flags evs

theorem Sys.execCalls_append (s : Sys) (flags : ℕ) (evs evs' : List MapEvent) :
    s.execCalls flags (evs ++ evs') = s.execCalls flags evs >>= fun s => s.execCalls flags evs' := by
  induction evs generalizing s with
  | nil => rfl
  | cons e evs ih =>
    cases e with
    | grant pa count => exact ih s
    | map va pa =>
      simp only [List.cons_append, Sys.execCalls, bind_assoc]
      congr 1
      funext s'
      exact ih s'

theorem Sys.execCalls_single (s : Sys) (flags va pa : ℕ) :
    s.execCalls flags [.map va pa] = s.mapPage va pa flags .mega := by
  simp only [Sys.execCalls]
  cases s.mapPage va pa flags .mega <;> rfl

theorem Sys.execCalls_mapCalls (s : Sys) (flags va pa n : ℕ) :
    s.execCalls flags (mapCalls va pa n) = s.mapRange va pa flags .mega n := by
  induction n with
  | zero => rfl
  | succ n ih =>
    have he : mapCalls va pa (n + 1) = mapCalls va pa n ++ [.map (slot va n) (slot pa n)] := by
      simp [mapCalls, List.range_succ]
    rw [he, Sys.execCalls_append, ih, Sys.mapRange]
    simp only [Sys.execCalls_single, slot, Level.size]

theorem Sys.execCalls_served (s : Sys) (flags : ℕ) (evs : List MapEvent) :
    Served s (2 * evs.length) (s.execCalls flags evs) id fun _ => True := by
  induction evs generalizing s with
  | nil => exact Served.pure trivial rfl
  | cons e evs ih =>
    cases e with
    | grant pa k => exact (ih s).mono (by rw [List.length_cons]; omega) fun _ => id
    | map va pa =>
      refine ((Sys.mapPage_served s va pa flags .mega).bind fun s1 _ _ => ih s1).mono ?_ fun _ => id
      rw [List.length_cons]
      omega

/-! ### Only what was granted -/

/-- The partitions granted, in order. -/
def granted : List MapEvent → List ℕ
  | [] => []
  | .grant pa count :: evs => (List.range count).map (slot pa) ++ granted evs
  | .map _ _ :: evs => granted evs

/-- Exactly the `n` slots from `va` are mapped, and whenever slot `i` is, it is
mapped to the `i`-th partition granted so far. -/
structure OnlyGranted (va n : ℕ) (evs : List MapEvent) : Prop where
  installs : ∀ before va' pa after, evs = before ++ .map va' pa :: after →
    ∃ i < n, va' = slot va i ∧ (granted before)[i]? = some pa
  all : ∀ i < n, ∃ pa, .map (slot va i) pa ∈ evs

/-- Every refusal suggests fewer partitions than were asked for. -/
def SmallerSuggestions : List SmReply → ℕ → ℕ → Prop
  | [], _, _ => True
  | r :: rs, left, sug =>
    if r.Refused then r.ret < sug ∧ SmallerSuggestions rs left r.ret
    else SmallerSuggestions rs (left - sug) (left - sug)

/-- The monitor grants the first request. -/
def FirstGranted : List SmReply → Prop
  | [] => False
  | r :: _ => ¬ r.Refused

theorem granted_append : ∀ evs evs' : List MapEvent, granted (evs ++ evs') = granted evs ++ granted evs'
  | [], _ => rfl
  | .grant pa count :: evs, evs' => by
    simp only [List.cons_append, granted, granted_append evs evs', List.append_assoc]
  | .map _ _ :: evs, evs' => by simp only [List.cons_append, granted, granted_append evs evs']

theorem granted_mapCalls (va pa : ℕ) (is : List ℕ) :
    granted (is.map fun i => MapEvent.map (slot va i) (slot pa i)) = [] := by
  induction is with
  | nil => rfl
  | cons i is ih => exact ih

theorem slot_inj {va i j : ℕ} (hi : i < 2 ^ 43) (hj : j < 2 ^ 43) (h : slot va i = slot va j) :
    i = j := by
  unfold slot add64 at h
  omega

theorem onlyGranted_full (va pa n : ℕ) : OnlyGranted va n (.grant pa n :: mapCalls va pa n) := by
  refine ⟨fun before va' pa' after he => ?_, fun i hi => ⟨slot pa i, ?_⟩⟩
  · cases before with
    | nil => cases he
    | cons e before =>
      simp only [List.cons_append, List.cons.injEq] at he
      obtain ⟨rfl, he⟩ := he
      -- the calls before the one at hand are the first ones, and grant nothing
      unfold mapCalls at he
      obtain ⟨is, js, hr, h1, h2⟩ := List.map_eq_append_iff.mp he
      cases js with
      | nil => cases h2
      | cons j js =>
        simp only [List.map_cons, List.cons.injEq, MapEvent.map.injEq] at h2
        obtain ⟨⟨rfl, rfl⟩, -⟩ := h2
        have hj : j < n := List.mem_range.mp (by rw [hr]; simp)
        refine ⟨j, hj, rfl, ?_⟩
        rw [← h1, granted, granted_mapCalls, List.append_nil]
        simp [hj]
  · refine List.mem_cons_of_mem _ ?_
    exact List.mem_map.mpr ⟨i, List.mem_range.mpr hi, rfl⟩

/-- A grant of fewer than `n` partitions, mapped as if it were `n`. -/
theorem not_onlyGranted_short {va pa n k : ℕ} {evs : List MapEvent} (hk : k < n) (hn : n < 2 ^ 43) :
    ¬ OnlyGranted va n (.grant pa k :: mapCalls va pa n ++ evs) := by
  intro h
  obtain ⟨m, rfl⟩ : ∃ m, n = m + 1 := ⟨n - 1, by omega⟩
  have he : MapEvent.grant pa k :: mapCalls va pa (m + 1) ++ evs =
      (.grant pa k :: mapCalls va pa m) ++ .map (slot va m) (slot pa m) :: evs := by
    simp [mapCalls, List.range_succ]
  obtain ⟨i, hi, hva, hg⟩ := h.installs _ _ _ _ he
  obtain rfl : m = i := slot_inj (by omega) (by omega) hva
  rw [mapCalls, granted, granted_mapCalls, List.append_nil] at hg
  have := (List.getElem?_eq_some_iff.mp hg).1
  simp at this
  omega

/-- After a refusal the first grant is of fewer partitions than are needed. -/
theorem partitionLoop_short {n va : ℕ} {rs rest : List SmReply} {left sug : ℕ} {evs : List MapEvent}
    (hs : SmallerSuggestions rs (left + 1) sug) (hlt : sug < n)
    (h : partitionLoop (fun _ => n) rs (left + 1) sug va = (evs, some rest)) :
    ∃ pa k evs', k < n ∧ evs = .grant pa k :: mapCalls va pa n ++ evs' := by
  induction rs generalizing sug with
  | nil => simp [partitionLoop] at h
  | cons r rs ih =>
    simp only [partitionLoop, SmallerSuggestions] at h hs
    by_cases hr : r.Refused
    · rw [if_pos hr] at h hs
      exact ih hs.2 (by omega) h
    · rw [if_neg hr] at h
      simp only [Prod.mk.injEq] at h
      exact ⟨_, _, _, hlt, h.1.symm⟩

theorem partitionLoop_full {bound : ℕ → ℕ} {n va : ℕ} {r : SmReply} {rs : List SmReply}
    (hn : 0 < n) (hn' : n < 2 ^ 64) (hr : ¬ r.Refused) :
    partitionLoop bound (r :: rs) n n va =
      (.grant r.paddr n :: mapCalls va r.paddr (bound n), some rs) := by
  obtain ⟨m, rfl⟩ : ∃ m, n = m + 1 := ⟨n - 1, by omega⟩
  have h0 : sub64 (m + 1) (m + 1) = 0 := by rw [sub64_eq (le_refl _) hn', Nat.sub_self]
  simp only [partitionLoop, if_neg hr, h0, List.append_nil]

/-- With the first request granted, or nothing to ask for, the loop ends. -/
theorem partitionLoop_ends {bound : ℕ → ℕ} {n va : ℕ} {rs : List SmReply} (hn : n < 2 ^ 64)
    (h : n = 0 ∨ FirstGranted rs) : (partitionLoop bound rs n n va).2.isSome := by
  cases n with
  | zero => cases rs <;> rfl
  | succ n =>
    cases rs with
    | nil => exact absurd (h.resolve_left (by omega)) id
    | cons r rs => rw [partitionLoop_full (by omega) hn (h.resolve_left (by omega))]; rfl

theorem partitionLoop_iff {n va : ℕ} {rs rest : List SmReply} {evs : List MapEvent} (hn : n < 2 ^ 43)
    (hs : SmallerSuggestions rs n n) (h : partitionLoop (fun _ => n) rs n n va = (evs, some rest)) :
    OnlyGranted va n evs ↔ n = 0 ∨ FirstGranted rs := by
  cases n with
  | zero =>
    cases rs <;> simp only [partitionLoop, Prod.mk.injEq] at h <;> obtain ⟨rfl, -⟩ := h <;>
      exact ⟨fun _ => Or.inl rfl, fun _ => ⟨by simp, by simp⟩⟩
  | succ m =>
    cases rs with
    | nil => simp [partitionLoop] at h
    | cons r rs =>
      by_cases hr : r.Refused
      · simp only [partitionLoop, SmallerSuggestions, if_pos hr] at h hs
        obtain ⟨pa, k, evs', hk, rfl⟩ := partitionLoop_short hs.2 hs.1 h
        refine ⟨fun ho => absurd ho (not_onlyGranted_short hk hn), fun hc => ?_⟩
        rcases hc with h0 | hf
        · cases h0
        · exact absurd hr hf
      · rw [partitionLoop_full (by omega) (by omega) hr] at h
        simp only [Prod.mk.injEq] at h
        obtain ⟨rfl, -⟩ := h
        exact ⟨fun _ => Or.inr hr, fun _ => onlyGranted_full va r.paddr (m + 1)⟩

/-- **Only granted partitions are mapped exactly when the first request is
granted.** For `n` partitions and any answers of a monitor that suggests fewer
than were asked for when it refuses, the loop of `alloc_map_brk_outside_pool`
and the loop of `map_elf`, if they end, map exactly the `n` slots and slot `i` to
the `i`-th granted partition, if and only if `n` is 0 or the first request is
granted. In that case they do end. -/
theorem onlyGranted_iff (n : ℕ) (hn : n < 2 ^ 43) (rs rest : List SmReply)
    (hs : SmallerSuggestions rs n n) (evs : List MapEvent) :
    (∀ va size, size / 0x200000 = n →
      (n = 0 ∨ FirstGranted rs → (brkPartitions va size rs).2.isSome) ∧
      (brkPartitions va size rs = (evs, some rest) →
        (OnlyGranted va n evs ↔ n = 0 ∨ FirstGranted rs))) ∧
    ∀ va sizeDiff, partitionUp sizeDiff / 0x200000 = n →
      (n = 0 ∨ FirstGranted rs → (elfPartitions va sizeDiff rs).2.isSome) ∧
      (elfPartitions va sizeDiff rs = (evs, some rest) →
        (OnlyGranted va n evs ↔ n = 0 ∨ FirstGranted rs)) := by
  refine ⟨fun va size hz => ?_, fun va sizeDiff hz => ?_⟩
  · subst hz
    exact ⟨partitionLoop_ends (by omega), partitionLoop_iff hn hs⟩
  · subst hz
    exact ⟨partitionLoop_ends (by omega), partitionLoop_iff hn hs⟩

/-- Two partitions, granted at once. -/
theorem onlyGranted_iff_once : OnlyGranted 0x100000000 2
    (.grant 0x90000000 2 :: mapCalls 0x100000000 0x90000000 2) :=
  (((onlyGranted_iff 2 (by decide) [⟨0, 0x90000000⟩] []
    (by simp [SmallerSuggestions, SmReply.Refused]) _).1 0x100000000 0x400000 rfl).2
    (by decide)).mpr (Or.inr (by simp [FirstGranted, SmReply.Refused]))

/-- **A partial grant maps what was not granted.** Two partitions are needed, the
monitor has one at a time: the first grant is of one partition, and both slots
are mapped from it. -/
theorem brkPartitions_overmaps : ∃ evs rest, brkPartitions 0x100000000 0x400000
      [⟨1, 2 ^ 64 - 1⟩, ⟨0, 0x90000000⟩, ⟨0, 0xa0000000⟩] = (evs, some rest) ∧
    .map 0x100200000 0x90200000 ∈ evs ∧ 0x90200000 ∉ granted evs ∧ ¬ OnlyGranted 0x100000000 2 evs := by
  refine ⟨_, _, rfl, by decide, by decide, ?_⟩
  exact not_onlyGranted_short (by decide) (by decide)

end Coffer
