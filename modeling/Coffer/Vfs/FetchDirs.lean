/-
# The directories for a fetch

Before a file is fetched, `mkdir_dir_for_fetch` makes the directories above it, one prefix of the path after the other.
It looks for the next `/` from `p` on, and then adds to `p` the length of the whole prefix instead of the length of the
component, so that from the third component on it may jump over a `/`: that directory is not made, and then none below
it.

`stops` are the places where the loop finds a `/`. `mkdirAll_ancestors`: after the call all directories above the file
are there exactly if every one that was missing ends at such a place, the last one aside.

Key definitions: `stops`, `fetchDir`, `Visited`.
Key theorems: `mkdirPaths_eq`, `mkdirAll_ancestors`, `mkdirAll_skips`.
-/
import Mathlib.Data.List.TakeWhile
import Coffer.Vfs.Mkdir
import Coffer.Vfs.Descriptors

namespace Coffer

variable {a b : Str} {i j p : ℕ}

/-! ### Where the loop stops -/

/-- The places of the characters `/` at which the loop stops: `i` is the place of the first character, `p` where the
search goes on. -/
def stops : Str → ℕ → ℕ → List ℕ
  | [], _, _ => []
  | c :: dir, i, p => if c = '/' ∧ p ≤ i then i :: stops dir (i + 1) (p + i + 1) else stops dir (i + 1) p

theorem takeWhile_ne {c : Char} (h : c ∉ a) (b : Str) :
    (a ++ b).takeWhile (· ≠ c) = a ++ b.takeWhile (· ≠ c) := by
  refine List.takeWhile_append_of_pos fun x hx => decide_eq_true ?_
  rintro rfl
  exact h hx

theorem cString_append {dir rest : Str} (h : '\x00' ∉ dir) : cString (dir ++ '\x00' :: rest) = dir := by
  rw [cString, takeWhile_ne h]
  simp

theorem cString_eq {dir : Str} (h : '\x00' ∉ dir) : cString dir = dir := by
  have := takeWhile_ne h []
  rwa [List.append_nil, List.takeWhile_nil, List.append_nil] at this

section Loop

variable {dir rest : Str} (h0 : '\x00' ∉ dir)

include h0

theorem strchrSlash_found (hd : dir = a ++ '/' :: b) (hp : p ≤ a.length) (hno : '/' ∉ a.drop p) :
    strchrSlash (dir ++ '\x00' :: rest) p = some a.length := by
  have hs : cString ((dir ++ '\x00' :: rest).drop p) = a.drop p ++ '/' :: b := by
    rw [List.drop_append_of_le_length (by rw [hd, List.length_append]; omega),
      cString_append fun hm => h0 (List.mem_of_mem_drop hm), hd, List.drop_append_of_le_length hp]
  have htake : (a.drop p ++ '/' :: b).takeWhile (· ≠ '/') = a.drop p := by
    rw [takeWhile_ne hno]
    simp
  rw [strchrSlash, hs, if_pos (by simp), htake, List.length_drop]
  congr 1
  omega

theorem strchrSlash_none (hp : p ≤ dir.length) (hno : '/' ∉ dir.drop p) :
    strchrSlash (dir ++ '\x00' :: rest) p = none := by
  rw [strchrSlash, List.drop_append_of_le_length hp, cString_append fun hm => h0 (List.mem_of_mem_drop hm)]
  exact if_neg hno

theorem mkdirLoop_behind (n : ℕ) (hp : dir.length < p) :
    ∀ path ∈ mkdirLoop (dir ++ '\x00' :: rest) n p, path = '/' :: dir := by
  induction n generalizing p with
  | zero => simp [mkdirLoop]
  | succ n ih =>
    intro path hpath
    rw [mkdirLoop] at hpath
    cases hf : strchrSlash (dir ++ '\x00' :: rest) p with
    | none =>
      rw [hf] at hpath
      cases hpath
    | some file =>
      rw [hf] at hpath
      have hfile : p ≤ file := by
        simp only [strchrSlash] at hf
        split_ifs at hf
        cases hf
        exact Nat.le_add_right ..
      rcases List.mem_cons.mp hpath with rfl | hpath
      · obtain ⟨k, hk⟩ := Nat.exists_eq_add_of_lt (hp.trans_le hfile)
        rw [List.take_append, List.take_of_length_le (by omega), hk,
          show dir.length + k + 1 - dir.length = k + 1 by omega, List.take_succ_cons, cString_append h0]
      · exact ih (by omega) path hpath

/-- **The loop**, from a place `p` on with no `/` between it and the characters `b` that are left. -/
theorem mkdirLoop_eq (hd : dir = a ++ b) {n : ℕ} (hn : dir.length < n + p) (hno : '/' ∉ a.drop p) :
    ∃ more, mkdirLoop (dir ++ '\x00' :: rest) n p =
        (stops b a.length p).map (fun i => '/' :: dir.take i) ++ more ∧ ∀ path ∈ more, path = '/' :: dir := by
  induction b generalizing a n p with
  | nil =>
    rw [List.append_nil] at hd
    subst hd
    rcases Nat.lt_or_ge dir.length p with hp | hp
    · exact ⟨_, rfl, mkdirLoop_behind h0 n hp⟩
    · refine ⟨[], ?_, by simp⟩
      cases n with
      | zero => rfl
      | succ n =>
        rw [mkdirLoop, strchrSlash_none h0 hp hno]
        rfl
  | cons c b ih =>
    have hd' : dir = (a ++ [c]) ++ b := by rw [hd]; simp
    have hlen : (a ++ [c]).length = a.length + 1 := by simp
    have hla : a.length < dir.length := by
      rw [hd, List.length_append, List.length_cons]
      omega
    rw [stops]
    split_ifs with hc
    · -- the loop stops here
      obtain ⟨rfl, hp⟩ := hc
      obtain ⟨n, rfl⟩ : ∃ m, n = m + 1 := ⟨n - 1, by omega⟩
      obtain ⟨more, hmore, hall⟩ := ih hd' (n := n) (p := p + a.length + 1) (by omega)
        (by rw [List.drop_of_length_le (by omega)]; simp)
      refine ⟨more, ?_, hall⟩
      have htake : cString ((dir ++ '\x00' :: rest).take a.length) = dir.take a.length := by
        rw [List.take_append_of_le_length (by omega), cString_eq fun hm => h0 (List.mem_of_mem_take hm)]
      rw [mkdirLoop, strchrSlash_found h0 hd hp hno]
      simp only [htake, hmore, hlen, List.map_cons, List.cons_append]
    · obtain ⟨more, hmore, hall⟩ := ih hd' hn (by
        rcases Nat.lt_or_ge a.length p with hp | hp
        · rw [List.drop_of_length_le (by omega)]
          simp
        · rw [List.drop_append_of_le_length hp, List.mem_append, not_or]
          refine ⟨hno, ?_⟩
          rw [List.mem_singleton]
          intro he
          exact hc ⟨he.symm, hp⟩)
      rw [hlen] at hmore
      exact ⟨more, hmore, hall⟩

end Loop

/-- A place where the loop stops is that of a `/`. -/
theorem mem_stops (h : i ∈ stops b a.length p) :
    ∃ u v, a ++ b = u ++ '/' :: v ∧ u.length = i := by
  induction b generalizing a p with
  | nil => cases h
  | cons c b ih =>
    have hlen : (a ++ [c]).length = a.length + 1 := by simp
    have happ : a ++ c :: b = (a ++ [c]) ++ b := by simp
    rw [stops] at h
    split_ifs at h with hc
    · rcases List.mem_cons.mp h with rfl | h
      · exact ⟨a, b, by rw [hc.1], rfl⟩
      · rw [happ]
        rw [← hlen] at h
        exact ih h
    · rw [happ]
      rw [← hlen] at h
      exact ih h

theorem stops_sorted (b : Str) (i p : ℕ) : (stops b i p).Pairwise (· < ·) ∧ ∀ j ∈ stops b i p, i ≤ j := by
  induction b generalizing i p with
  | nil => simp [stops]
  | cons c b ih =>
    rw [stops]
    split_ifs
    · obtain ⟨h1, h2⟩ := ih (i + 1) (p + i + 1)
      refine ⟨List.pairwise_cons.mpr ⟨fun j hj => h2 j hj, h1⟩, fun j hj => ?_⟩
      rcases List.mem_cons.mp hj with rfl | hj
      · exact le_refl _
      · exact (Nat.le_succ i).trans (h2 j hj)
    · obtain ⟨h1, h2⟩ := ih (i + 1) p
      exact ⟨h1, fun j hj => (Nat.le_succ i).trans (h2 j hj)⟩

/-! ### The directories of a path -/

/-- The names of a path as `fetch_from_host` has them, with or without a `/` in front. -/
def fetchDir (lead : Bool) (ds : List Str) : Str := if lead then join ds else (join ds).tail

theorem slash_fetchDir {ds : List Str} (h : ds ≠ []) : '/' :: fetchDir false ds = join ds := by
  obtain ⟨c, cs, rfl⟩ := List.exists_cons_of_ne_nil h
  simp [fetchDir, join_cons]

theorem fetchDir_concat {lead : Bool} {ds : List Str} (h : ds ≠ []) (f : Str) :
    fetchDir lead (ds ++ [f]) = fetchDir lead ds ++ '/' :: f := by
  obtain ⟨c, cs, rfl⟩ := List.exists_cons_of_ne_nil h
  cases lead <;> simp [fetchDir, join]

theorem join_split {ds : List Str} (h : ∀ c ∈ ds, IsName c) {u v : Str} (he : join ds = u ++ '/' :: v) :
    ∃ j < ds.length, u = join (ds.take j) := by
  induction ds generalizing u with
  | nil =>
    have := congrArg List.length he
    simp [join] at this
  | cons c ds ih =>
    cases u with
    | nil => exact ⟨0, by simp, rfl⟩
    | cons a u =>
      rw [join_cons, List.cons_append, List.cons.injEq] at he
      obtain ⟨rfl, he⟩ := he
      have hc := h c (List.mem_cons_self ..)
      have hds : ∀ d ∈ ds, IsName d := fun d hd => h d (List.mem_cons_of_mem _ hd)
      obtain ⟨w, rfl, hw⟩ : ∃ w, u = c ++ w ∧ join ds = w ++ '/' :: v := by
        rcases List.append_eq_append_iff.mp he with hw | ⟨w, hcw, hw⟩
        · exact hw
        · cases w with
          | nil => exact ⟨[], by rw [hcw]; simp, hw.symm⟩
          | cons b w =>
            -- a name has no slash
            rw [List.cons_append, List.cons.injEq] at hw
            exact absurd (by rw [hcw, ← hw.1]; simp) hc.noSlash
      obtain ⟨j, hj, rfl⟩ := ih hds hw
      exact ⟨j + 1, by simpa using hj, by rw [List.take_succ_cons, join_cons]⟩

/-- The path of the first `j` directories, as the loop makes it. -/
def fetchPath (lead : Bool) (ds : List Str) (j : ℕ) : Str := '/' :: fetchDir lead (ds.take j)

theorem join_take_lt {ds : List Str} (h : ∀ c ∈ ds, IsName c) (hij : i < j) (hj : j ≤ ds.length) :
    (join (ds.take i)).length + 2 ≤ (join (ds.take j)).length := by
  have hsplit : ds.take j = ds.take i ++ (ds.take j).drop i := by
    conv_lhs => rw [← List.take_append_drop i (ds.take j), List.take_take, min_eq_left hij.le]
  obtain ⟨c, cs, hc⟩ := List.exists_cons_of_ne_nil (l := (ds.take j).drop i) (by
    intro h0
    have := congrArg List.length h0
    rw [List.length_drop, List.length_take, List.length_nil] at this
    omega)
  have hcn : c ≠ [] := by
    refine (h c ?_).ne
    exact List.mem_of_mem_take (List.mem_of_mem_drop (by rw [hc]; simp))
  have := List.length_pos_of_ne_nil hcn
  rw [hsplit, hc, join_append, join_cons, List.length_append, List.length_cons, List.length_append]
  omega

theorem fetchDir_length_lt (lead : Bool) {ds : List Str} (h : ∀ c ∈ ds, IsName c) (hij : i < j)
    (hj : j ≤ ds.length) : (fetchDir lead (ds.take i)).length < (fetchDir lead (ds.take j)).length := by
  have := join_take_lt h hij hj
  cases lead with
  | true =>
    show (join (ds.take i)).length < (join (ds.take j)).length
    omega
  | false =>
    show (join (ds.take i)).tail.length < (join (ds.take j)).tail.length
    rw [List.length_tail, List.length_tail]
    omega

/-- The first `j` directories end at a `/` of the path. -/
structure EndsAt (lead : Bool) (ds : List Str) (j : ℕ) : Prop where
  lt : j < ds.length
  pos : lead = false → 0 < j
  take : (fetchDir lead ds).take (fetchDir lead (ds.take j)).length = fetchDir lead (ds.take j)

/-- A place where the loop stops is the end of some of the directories. -/
theorem stops_fetchDir {lead : Bool} {ds : List Str} (h : ∀ c ∈ ds, IsName c)
    (hi : i ∈ stops (fetchDir lead ds) 0 0) : ∃ j, EndsAt lead ds j ∧ (fetchDir lead (ds.take j)).length = i := by
  obtain ⟨u, v, he, rfl⟩ := mem_stops (a := []) hi
  rw [List.nil_append] at he
  have htake {j : ℕ} (hu : fetchDir lead (ds.take j) = u) :
      (fetchDir lead ds).take (fetchDir lead (ds.take j)).length = fetchDir lead (ds.take j) := by
    rw [hu, he, List.take_left]
  cases lead with
  | true =>
    obtain ⟨j, hj, rfl⟩ := join_split h (show join ds = u ++ '/' :: v from he)
    exact ⟨j, ⟨hj, by simp, htake rfl⟩, rfl⟩
  | false =>
    have hne : ds ≠ [] := by
      rintro rfl
      simp [fetchDir, join] at he
    have he' : join ds = ('/' :: u) ++ '/' :: v := by
      rw [← slash_fetchDir hne, he]
      rfl
    obtain ⟨j, hj, hu⟩ := join_split h he'
    have hdir : fetchDir false (ds.take j) = u := by
      show (join (ds.take j)).tail = u
      rw [← hu]
      rfl
    refine ⟨j, ⟨hj, fun _ => ?_, htake hdir⟩, by rw [hdir]⟩
    rcases Nat.eq_zero_or_pos j with rfl | h0
    · simp [join] at hu
    · exact h0

/-- **The paths that `mkdir_dir_for_fetch` makes**, in the order of their lengths: those where the loop stops, and the
directory of the file. -/
theorem mkdirPaths_eq {lead : Bool} {ds : List Str} {f : Str} (hne : ds ≠ []) (hnames : ∀ c ∈ ds ++ [f], IsName c)
    (hnul : ∀ c ∈ ds, '\x00' ∉ c) (hlen : (fetchDir lead (ds ++ [f])).length < pathMax) (stack : Str) :
    ∃ js : List ℕ, mkdirPaths (fetchDir lead (ds ++ [f])) stack = js.map (fetchPath lead ds) ∧ js.Pairwise (· ≤ ·) ∧
      ds.length ∈ js ∧ (∀ j ∈ js, j ≤ ds.length ∧ (lead = false → 0 < j)) ∧
      ∀ j < ds.length, j ∈ js ↔ (fetchDir lead (ds.take j)).length ∈ stops (fetchDir lead ds) 0 0 := by
  have hds : ∀ c ∈ ds, IsName c := fun c hc => hnames c (List.mem_append_left _ hc)
  have hf : IsName f := hnames f (by simp)
  have hpos : 0 < ds.length := List.length_pos_of_ne_nil hne
  have hdir : fetchDir lead ds ≠ [] := by
    have := fetchDir_length_lt lead hds hpos le_rfl
    rw [List.take_length] at this
    exact List.ne_nil_of_length_pos (Nat.lt_of_le_of_lt (Nat.zero_le _) this)
  have hnul' : '\x00' ∉ fetchDir lead ds := by
    have hj : '\x00' ∉ join ds := by
      intro hm
      obtain ⟨c, hc, hm⟩ := List.mem_flatMap.mp hm
      rcases List.mem_cons.mp hm with h0 | hm
      · cases h0
      · exact hnul c hc hm
    cases lead with
    | true => exact hj
    | false => exact fun hm => hj (List.mem_of_mem_tail hm)
  -- the loop over the directory of the path
  have hpaths : mkdirPaths (fetchDir lead (ds ++ [f])) stack =
      mkdirLoop (fetchDir lead ds ++ '\x00' :: (f ++ '\x00' :: stack))
        (fetchDir lead ds ++ '\x00' :: (f ++ '\x00' :: stack)).length 0 ++ ['/' :: fetchDir lead ds] := by
    have hcpy : strlcpy (fetchDir lead (ds ++ [f])) = fetchDir lead ds ++ '/' :: f := by
      rw [Fs.strlcpy_eq (Nat.le_pred_of_lt hlen), fetchDir_concat hne]
    rw [mkdirPaths, hcpy, lastSlash_eq hf.noSlash]
    obtain ⟨c, cs, hcs⟩ := List.exists_cons_of_ne_nil hdir
    simp [hcs]
  obtain ⟨more, hmore, hall⟩ : ∃ more, mkdirLoop (fetchDir lead ds ++ '\x00' :: (f ++ '\x00' :: stack))
      (fetchDir lead ds ++ '\x00' :: (f ++ '\x00' :: stack)).length 0 =
        (stops (fetchDir lead ds) 0 0).map (fun i => '/' :: (fetchDir lead ds).take i) ++ more ∧
      ∀ path ∈ more, path = '/' :: fetchDir lead ds := mkdirLoop_eq hnul' (a := []) rfl (by simp) (by simp)
  -- the places are ends of directories
  have hrange : stops (fetchDir lead ds) 0 0 ∈
      Set.range (List.map fun j : { j // EndsAt lead ds j } => (fetchDir lead (ds.take j)).length) := by
    rw [Set.range_list_map]
    intro i hi
    obtain ⟨j, hj, he⟩ := stops_fetchDir hds hi
    exact ⟨⟨j, hj⟩, he⟩
  obtain ⟨js, hjs⟩ := hrange
  have hend : fetchPath lead ds ds.length = '/' :: fetchDir lead ds := by rw [fetchPath, List.take_length]
  refine ⟨js.map Subtype.val ++ List.replicate (more.length + 1) ds.length, ?_, ?_, ?_, ?_, ?_⟩
  · have hrep : more ++ ['/' :: fetchDir lead ds] = List.replicate (more.length + 1) ('/' :: fetchDir lead ds) := by
      rw [List.replicate_succ', List.eq_replicate_of_mem hall, List.length_replicate]
    have hmap : (stops (fetchDir lead ds) 0 0).map (fun i => '/' :: (fetchDir lead ds).take i) =
        (js.map Subtype.val).map (fetchPath lead ds) := by
      rw [← hjs, List.map_map, List.map_map]
      exact List.map_congr_left fun j _ => congrArg ('/' :: ·) j.2.take
    rw [hpaths, hmore, List.append_assoc, hrep, hmap, List.map_append, List.map_replicate, hend]
  · rw [List.pairwise_append]
    refine ⟨?_, List.pairwise_replicate.mpr (Or.inr le_rfl), fun i hi j hj => ?_⟩
    · have hs := (stops_sorted (fetchDir lead ds) 0 0).1
      rw [← hjs, List.pairwise_map] at hs
      rw [List.pairwise_map]
      refine hs.imp fun {i j} hij => ?_
      by_contra hlt
      exact absurd hij (Nat.lt_asymm (fetchDir_length_lt lead hds (Nat.lt_of_not_le hlt) i.2.lt.le))
    · obtain ⟨i', -, rfl⟩ := List.mem_map.mp hi
      rw [List.eq_of_mem_replicate hj]
      exact i'.2.lt.le
  · simp
  · intro j hj
    rcases List.mem_append.mp hj with hj | hj
    · obtain ⟨j, -, rfl⟩ := List.mem_map.mp hj
      exact ⟨j.2.lt.le, j.2.pos⟩
    · rw [List.eq_of_mem_replicate hj]
      exact ⟨le_rfl, fun _ => hpos⟩
  · intro j hj
    rw [List.mem_append, ← hjs, List.mem_map, List.mem_map]
    constructor
    · rintro (⟨i, hi, rfl⟩ | hr)
      · exact ⟨i, hi, rfl⟩
      · exact absurd (List.eq_of_mem_replicate hr) (Nat.ne_of_lt hj)
    · rintro ⟨i, hi, he⟩
      refine Or.inl ⟨i, hi, ?_⟩
      rcases Nat.lt_trichotomy i j with hij | hij | hij
      · exact absurd he (Nat.ne_of_lt (fetchDir_length_lt lead hds hij hj.le))
      · exact hij
      · exact absurd he.symm (Nat.ne_of_lt (fetchDir_length_lt lead hds hij i.2.lt.le))

namespace Fs

open Lib Lib.Cmd

variable {s t : Fs} {X : ℕ → ℕ} {U : Set ℕ} {lead : Bool} {ds : List Str} {f : Str}

theorem fetchPath_spells (hne : ds ≠ []) (hnames : ∀ c ∈ ds ++ [f], IsName c)
    (hlen : (fetchDir lead (ds ++ [f])).length < pathMax) (hj : j ≤ ds.length) (hpos : lead = false → 0 < j) :
    Spells (fetchPath lead ds j) (ds.take j) := by
  have hds : ∀ c ∈ ds, IsName c := fun c hc => hnames c (List.mem_append_left _ hc)
  have hf := List.length_pos_of_ne_nil (hnames f (by simp)).ne
  have hle : (fetchDir lead (ds.take j)).length ≤ (fetchDir lead ds).length := by
    rcases Nat.lt_or_eq_of_le hj with hlt | rfl
    · have := fetchDir_length_lt lead hds hlt le_rfl
      rw [List.take_length] at this
      exact this.le
    · rw [List.take_length]
  refine ⟨fun c hc => hds c (List.mem_of_mem_take hc), ?_, ?_⟩
  · rw [fetchDir_concat hne, List.length_append, List.length_cons] at hlen
    rw [fetchPath, List.length_cons]
    omega
  · cases lead with
    | true => exact Or.inr rfl
    | false =>
      have htake : ds.take j ≠ [] := by
        have := hpos rfl
        have := List.length_pos_of_ne_nil hne
        rw [← List.length_pos_iff, List.length_take]
        omega
      exact Or.inl ⟨slash_fetchDir htake, htake⟩

theorem dropLast_take (hj : j ≤ ds.length) : (ds.take j).dropLast = ds.take (j - 1) := by
  rw [List.dropLast_eq_take, List.length_take, List.take_take]
  congr 1
  omega

/-- **The directories are made one by one.** By induction on the list of them: only those in the list appear; and if all
that are missing are in it, in the order of their lengths, then each is made when its turn comes. -/
theorem mkdirAll_wp {js : List ℕ} (h : Cache s X U) (hjs : ∀ j ∈ js, j ≤ ds.length ∧ Spells (fetchPath lead ds j) (ds.take j))
    (hlen : ∀ c ∈ ds, c.length ≤ nameMax) :
    wp (mkdirAll (js.map (fetchPath lead ds))) (fun _ t => Cache t X U ∧ Grows s t ∧
        (∀ es, t.kind es ≠ s.kind es → ∃ j ∈ js, es = ds.take j) ∧
        (Plenty s → js.Pairwise (· ≤ ·) → (∀ j, s.kind (ds.take j) = none ∨ s.kind (ds.take j) = some .dir) →
          (∀ j ≤ ds.length, s.kind (ds.take j) = none → j ∈ js) → ∀ j ≤ ds.length, t.kind (ds.take j) = some .dir))
      (fun _ => ¬ Plenty s) s := by
  induction js generalizing s with
  | nil =>
    refine ⟨h, Grows.refl s, fun es he => absurd rfl he, fun _ _ hdirs hmiss j hj => ?_⟩
    rcases hdirs j with hk | hk
    · cases hmiss j hj hk
    · exact hk
  | cons j js ih =>
    obtain ⟨hj, hp⟩ := hjs j (List.mem_cons_self ..)
    rw [List.map_cons, mkdirAll, wp_bind]
    refine wp_mono (sysMkdir_kind h hp fun c hc => hlen c (List.mem_of_mem_take hc)) fun _ u hu => ?_
    obtain ⟨hc, hg, hother, hself, hmade⟩ := hu
    refine wp_mono_fault (ih hc fun i hi => hjs i (List.mem_cons_of_mem _ hi)) (fun _ t ht => ?_) fun _ he hpl =>
      he (hg.plenty hpl)
    obtain ⟨hc', hg', hnew, hall⟩ := ht
    refine ⟨hc', hg.trans hg', fun es he => ?_, fun hpl hsort hdirs hmiss => ?_⟩
    · by_cases hes : es = ds.take j
      · exact ⟨j, List.mem_cons_self .., hes⟩
      · rw [← hother es hes] at he
        obtain ⟨i, hi, he⟩ := hnew es he
        exact ⟨i, List.mem_cons_of_mem _ hi, he⟩
    · obtain ⟨hfirst, hsort⟩ := List.pairwise_cons.mp hsort
      -- the directory before was there, or has been made
      have hju : u.kind (ds.take j) ≠ none := by
        rcases hdirs j with hnone | hdir
        · have hj0 : j ≠ 0 := by
            rintro rfl
            rw [List.take_zero, h.names.tree.kind_nil] at hnone
            cases hnone
          refine hmade hpl ?_
          rw [dropLast_take hj]
          refine (hdirs (j - 1)).resolve_left fun hbefore => ?_
          rcases List.mem_cons.mp (hmiss (j - 1) (by omega) hbefore) with he | hmem
          · omega
          · have := hfirst _ hmem
            omega
        · rcases hself with he | ⟨hno, -⟩
          · rw [he, hdir]
            simp
          · rw [hdir] at hno
            cases hno
      refine hall (hg.plenty hpl) hsort (fun i => ?_) fun i hi hnone => ?_
      · by_cases hes : ds.take i = ds.take j
        · rw [hes]
          rcases hself with he | ⟨-, he⟩
          · rw [he]
            exact hdirs j
          · exact Or.inr he
        · rw [hother _ hes]
          exact hdirs i
      · have hes : ds.take i ≠ ds.take j := by
          intro he
          rw [he] at hnone
          exact hju hnone
        rw [hother _ hes] at hnone
        rcases List.mem_cons.mp (hmiss i hi hnone) with rfl | hmem
        · exact absurd rfl hes
        · exact hmem

/-- A component of a path: a name that is not too long, and a C string. -/
structure FetchName (c : Str) : Prop where
  name : IsName c
  nul : '\x00' ∉ c
  short : c.length ≤ nameMax

/-- Every directory that is missing, the last one aside, ends at a `/` where the loop stops. -/
def Visited (s : Fs) (lead : Bool) (ds : List Str) : Prop :=
  ∀ j < ds.length, s.kind (ds.take j) = none → (fetchDir lead (ds.take j)).length ∈ stops (fetchDir lead ds) 0 0

/-- **All directories above a file are there after `mkdir_dir_for_fetch`** only if the loop stops at the end of each one
that was missing; and then they are, if there is memory for them. -/
theorem mkdirAll_ancestors (s : Fs) (X : ℕ → ℕ) (U : Set ℕ) (h : Cache s X U) (lead : Bool) (ds : List Str) (f : Str)
    (hne : ds ≠ []) (hnames : ∀ c ∈ ds ++ [f], FetchName c) (hlen : (fetchDir lead (ds ++ [f])).length < pathMax)
    (hdirs : ∀ j, s.kind (ds.take j) = none ∨ s.kind (ds.take j) = some .dir) (stack : Str) :
    (∀ t, mkdirAll (mkdirPaths (fetchDir lead (ds ++ [f])) stack) s = .ok ((), t) →
      (∀ j ≤ ds.length, t.kind (ds.take j) = some .dir) → Visited s lead ds) ∧
    (Plenty s → Visited s lead ds → ∃ t, mkdirAll (mkdirPaths (fetchDir lead (ds ++ [f])) stack) s = .ok ((), t) ∧
      ∀ j ≤ ds.length, t.kind (ds.take j) = some .dir) := by
  have hn : ∀ c ∈ ds ++ [f], IsName c := fun c hc => (hnames c hc).name
  have hds : ∀ c ∈ ds, FetchName c := fun c hc => hnames c (List.mem_append_left _ hc)
  obtain ⟨js, hjs, hsort, hlast, hall, hmem⟩ := mkdirPaths_eq hne hn (fun c hc => (hds c hc).nul) hlen stack
  have hwp := mkdirAll_wp h (fun j hj => ⟨(hall j hj).1, fetchPath_spells hne hn hlen (hall j hj).1 (hall j hj).2⟩)
    fun c hc => (hds c hc).short
  rw [hjs]
  constructor
  · intro t ht hdone j hj hnone
    obtain ⟨-, -, hnew, -⟩ := of_wp hwp ht
    obtain ⟨i, hi, he⟩ := hnew (ds.take j) (by rw [hdone j hj.le, hnone]; simp)
    have hij : j = i := by
      have := congrArg List.length he
      rw [List.length_take, List.length_take] at this
      have := (hall i hi).1
      omega
    rw [← hmem j hj, hij]
    exact hi
  · intro hpl hvis
    cases hr : mkdirAll (js.map (fetchPath lead ds)) s with
    | error e =>
      have hno := fault_of_wp hwp hr
      exact absurd hpl hno
    | ok r =>
      obtain ⟨_, t⟩ := r
      obtain ⟨-, -, -, hdone⟩ := of_wp hwp hr
      refine ⟨t, rfl, hdone hpl hsort hdirs fun j hj hnone => ?_⟩
      rcases Nat.lt_or_eq_of_le hj with hlt | rfl
      · exact (hmem j hlt).mpr (hvis j hlt hnone)
      · exact hlast

theorem init_kind (mem : ℕ → Answer) (addr : ℕ → ℕ) (around : ℤ → Bool) (cs : List Str) :
    (Fs.init mem addr around).kind cs = none ∨ (Fs.init mem addr around).kind cs = some .dir := by
  cases cs with
  | nil => exact Or.inr rfl
  | cons c cs => exact Or.inl rfl

theorem boot_plenty : Plenty boot := fun _ _ => rfl

/-- `a/b/ccc/d/f`: the third name is long enough for the loop to stop behind it. -/
theorem mkdirAll_ancestors_four :
    ∃ t, mkdirAll (mkdirPaths (fetchDir false [['a'], ['b'], ['c', 'c', 'c'], ['d'], ['f']]) []) boot = .ok ((), t) ∧
      ∀ j ≤ 4, t.kind ([['a'], ['b'], ['c', 'c', 'c'], ['d']].take j) = some .dir := by
  have hnames : ∀ c ∈ ([['a'], ['b'], ['c', 'c', 'c'], ['d']] : List Str) ++ [['f']], FetchName c := by
    intro c hc
    simp only [List.cons_append, List.nil_append, List.mem_cons, List.not_mem_nil, or_false] at hc
    rcases hc with rfl | rfl | rfl | rfl | rfl <;> exact ⟨⟨by decide, by decide⟩, by decide, by decide⟩
  refine (mkdirAll_ancestors boot _ _ (Cache.init ..) false [['a'], ['b'], ['c', 'c', 'c'], ['d']] ['f'] (by simp) hnames
    (by decide) (fun j => init_kind ..) []).2 boot_plenty fun j hj hnone => ?_
  replace hj : j < 4 := hj
  interval_cases j
  · cases hnone
  all_goals decide

/-- **A directory is skipped.** For `a/b/c/d/f` the loop jumps over the `/` behind `c`: neither `/a/b/c` nor `/a/b/c/d` is
made. -/
theorem mkdirAll_skips : Cache boot (fun _ => 0) ∅ ∧ Plenty boot ∧
    ∃ t, mkdirAll (mkdirPaths ['a', '/', 'b', '/', 'c', '/', 'd', '/', 'f'] []) boot = .ok ((), t) ∧
      t.kind [['a'], ['b']] = some .dir ∧ t.kind [['a'], ['b'], ['c']] = none ∧
      t.kind [['a'], ['b'], ['c'], ['d']] = none := by
  refine ⟨Cache.init .., boot_plenty, ?_⟩
  have hrun : (mkdirAll (mkdirPaths ['a', '/', 'b', '/', 'c', '/', 'd', '/', 'f'] []) boot).toOption.map
      (fun r => (r.2.kind [['a'], ['b']], r.2.kind [['a'], ['b'], ['c']], r.2.kind [['a'], ['b'], ['c'], ['d']])) =
      some (some .dir, none, none) := by decide +kernel
  obtain ⟨⟨_, t⟩, ht, hk⟩ := Option.map_eq_some_iff.mp hrun
  simp only [Prod.mk.injEq] at hk
  refine ⟨t, ?_, hk⟩
  cases hm : mkdirAll (mkdirPaths ['a', '/', 'b', '/', 'c', '/', 'd', '/', 'f'] []) boot with
  | error e =>
    rw [hm] at ht
    cases ht
  | ok r =>
    rw [hm] at ht
    cases ht
    rfl

end Fs

end Coffer
