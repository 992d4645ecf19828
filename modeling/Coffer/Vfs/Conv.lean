/-
# The full path

`path_conv` writes a full path from left to right. What it has written is a list of names, and each component of its
argument does one thing to it: `..` takes the last name away, `.` and nothing leave it, and any other is a new name
(`climb`). `pathConv_eq`: from the working directory `/`, the only one there is, the result spells the names that the
components give, with a `/` before each and perhaps one at the end, and it fits in its buffer. The code never runs back
over the beginning of the buffer.

Key definitions: `climb`, `Clean`.
Key theorems: `pathConvLoop_clean`, `pathConv_eq`.
-/
import Coffer.Vfs.Tree

namespace Coffer

/-- What a component does to the names. -/
def climb (cs : List Str) (name : Str) : List Str :=
  if name = [] ∨ name = ['.'] then cs else if name = ['.', '.'] then cs.dropLast else cs ++ [name]

/-- The path is the names, each with a `/` before it, and perhaps one more `/` at the end. -/
structure Clean (path : Str) (cs : List Str) : Prop where
  names : ∀ c ∈ cs, IsName c
  spelling : path = join cs ∧ cs ≠ [] ∨ path = join cs ++ ['/']

variable {cs : List Str} {path : Str}

theorem climb_isName (h : ∀ c ∈ cs, IsName c) {name : Str} (hn : '/' ∉ name) : ∀ c ∈ climb cs name, IsName c := by
  intro c hc
  unfold climb at hc
  split_ifs at hc with h0 h1
  · exact h c hc
  · exact h c (List.mem_of_mem_dropLast hc)
  · rcases List.mem_append.mp hc with hc | hc
    · exact h c hc
    · rw [List.mem_singleton.mp hc]
      exact ⟨fun he => h0 (Or.inl he), hn⟩

theorem join_getLast (h : ∀ c ∈ cs, IsName c) : (join cs).getLast? ≠ some '/' := by
  rcases List.eq_nil_or_concat cs with rfl | ⟨ds, c, rfl⟩
  · simp [join]
  · rw [List.concat_eq_append] at *
    have hc := h c (by simp)
    rw [join_concat, List.getLast?_append_of_ne_nil _ hc.ne]
    intro he
    exact hc.noSlash (List.mem_of_getLast? he)

theorem join_ne_nil (h : cs ≠ []) : join cs ≠ [] := by
  obtain ⟨c, cs, rfl⟩ := List.exists_cons_of_ne_nil h
  rw [join_cons]
  simp

theorem upOne_eq (h : ∀ c ∈ cs, IsName c) :
    ∃ full, upOne (join cs ++ ['/']) = .ok full ∧ Clean full cs.dropLast ∧ full.length ≤ (join cs).length + 1 := by
  rcases List.eq_nil_or_concat cs with rfl | ⟨ds, c, rfl⟩
  · exact ⟨['/'], rfl, ⟨by simp, Or.inr rfl⟩, le_refl _⟩
  rw [List.concat_eq_append] at *
  have hc := h c (by simp)
  have hds : ∀ d ∈ ds, IsName d := fun d hd => h d (List.mem_append_left _ hd)
  have hfull : join (ds ++ [c]) ++ ['/'] = join ds ++ ('/' :: (c ++ ['/'])) := by
    rw [join_concat]
    simp
  have hback : ((join (ds ++ [c]) ++ ['/']).take ((join (ds ++ [c]) ++ ['/']).length - 1)).reverse.dropWhile (· ≠ '/') =
      '/' :: (join ds).reverse := by
    rw [List.length_append, List.length_singleton, Nat.add_sub_cancel, List.take_left, join_concat, List.append_assoc,
      List.reverse_append, List.singleton_append, List.reverse_cons, List.append_assoc]
    rw [List.dropWhile_append_of_pos]
    · simp
    · intro a ha
      rw [List.mem_reverse] at ha
      simp only [decide_eq_true_eq]
      rintro rfl
      exact hc.noSlash ha
  have hlen : (join ds).length + 2 ≤ (join (ds ++ [c]) ++ ['/']).length := by
    rw [hfull]
    simp only [List.length_append, List.length_cons, List.length_nil]
    omega
  rw [List.dropLast_concat, upOne, if_neg (by omega), hback, List.length_cons, List.length_reverse]
  rcases hj : (join ds).length with _ | i
  · have hnil : ds = [] := by
      by_contra hne
      exact join_ne_nil hne (List.length_eq_zero_iff.mp hj)
    subst hnil
    refine ⟨['/'], ?_, ⟨by simp, Or.inr rfl⟩, by simp⟩
    rw [hfull]
    rfl
  · refine ⟨join ds, ?_, ⟨hds, Or.inl ⟨rfl, fun h0 => ?_⟩⟩, ?_⟩
    · rw [hfull]
      show (.ok ((join ds ++ '/' :: (c ++ ['/'])).take (i + 1)) : Except FsFault Str) = _
      rw [← hj, List.take_left]
    · rw [h0] at hj
      cases hj
    · rw [List.length_append, List.length_singleton] at hlen
      omega

theorem component_clean (h : ∀ c ∈ cs, IsName c) {name : Str} (hn : '/' ∉ name) :
    ∃ full, (if name = ['.', '.'] then upOne (join cs ++ ['/'])
        else .ok (if name = ['.'] then join cs ++ ['/'] else join cs ++ ['/'] ++ name)) = .ok full ∧
      Clean full (climb cs name) ∧ full.length ≤ (join cs).length + 1 + name.length := by
  by_cases hup : name = ['.', '.']
  · obtain ⟨full, hf, hc, hl⟩ := upOne_eq h
    refine ⟨full, by rw [if_pos hup]; exact hf, ?_, by omega⟩
    rw [climb, if_neg (by rw [hup]; decide), if_pos hup]
    exact hc
  rw [if_neg hup]
  by_cases hdot : name = ['.']
  · refine ⟨join cs ++ ['/'], by rw [if_pos hdot], ?_, by simp⟩
    rw [climb, if_pos (Or.inr hdot)]
    exact ⟨h, Or.inr rfl⟩
  · refine ⟨join cs ++ ['/'] ++ name, by rw [if_neg hdot], ?_, by simp; omega⟩
    by_cases h0 : name = []
    · rw [climb, if_pos (Or.inl h0), h0, List.append_nil]
      exact ⟨h, Or.inr rfl⟩
    · have hnames := climb_isName h hn
      rw [climb, if_neg (by tauto), if_neg hup] at hnames ⊢
      exact ⟨hnames, Or.inl ⟨(join_concat cs name).symm, by simp⟩⟩

/-- The `/` after a component, if it is not there yet. -/
theorem Clean.slash {full : Str} (h : Clean full cs) :
    (if full ≠ [] ∧ full.getLast? ≠ some '/' then full ++ ['/'] else full) = join cs ++ ['/'] := by
  rcases h.spelling with ⟨he, hne⟩ | he
  · rw [he, if_pos ⟨join_ne_nil hne, join_getLast h.names⟩]
  · rw [he, if_neg]
    simp

theorem splitOn_slash (src : Str) : src.splitOn '/' = src.takeWhile (· ≠ '/') ::
    if src.dropWhile (· ≠ '/') = [] then [] else (src.dropWhile (· ≠ '/')).tail.splitOn '/' := by
  have hname : ∀ x ∈ src.takeWhile (· ≠ '/'), (x == '/') = false := by
    intro x hx
    simpa using List.all_eq_true.mp List.all_takeWhile x hx
  conv_lhs => rw [← List.takeWhile_append_dropWhile (p := fun c => decide (c ≠ '/')) (l := src)]
  rcases hd : src.dropWhile (· ≠ '/') with _ | ⟨a, rest⟩
  · rw [if_pos rfl, List.append_nil]
    exact List.splitOnP_eq_singleton hname
  · have ha : a = '/' := by
      have hhead := List.head?_dropWhile_not (fun c => decide (c ≠ '/')) src
      rw [hd] at hhead
      simpa using hhead
    rw [if_neg (by simp), ha, List.tail_cons]
    exact List.splitOnP_append_cons_of_forall_mem hname '/' rfl rest

/-- **The loop of `path_conv`.** By induction on the rest of the argument: what was written is a list of names with a `/`
at the end. -/
theorem pathConvLoop_clean {n : ℕ} {src : Str} (hn : src.length ≤ n) (h : ∀ c ∈ cs, IsName c) :
    ∃ full, pathConvLoop n (join cs ++ ['/']) src = .ok full ∧ Clean full ((src.splitOn '/').foldl climb cs) ∧
      full.length ≤ (join cs).length + 1 + src.length := by
  induction n generalizing cs src with
  | zero =>
    have h0 : src = [] := List.length_eq_zero_iff.mp (by omega)
    subst h0
    exact ⟨_, rfl, ⟨h, Or.inr rfl⟩, by simp⟩
  | succ n ih =>
    by_cases h0 : src = []
    · subst h0
      exact ⟨_, rfl, ⟨h, Or.inr rfl⟩, by simp⟩
    have hsplit := List.takeWhile_append_dropWhile (p := fun c => decide (c ≠ '/')) (l := src)
    have hname : '/' ∉ src.takeWhile (· ≠ '/') := by
      intro hx
      simpa using List.all_eq_true.mp List.all_takeWhile _ hx
    obtain ⟨full, hf, hc, hl⟩ := component_clean h hname
    rw [pathConvLoop, if_neg h0]
    simp only [hf]
    rw [splitOn_slash src, List.foldl_cons]
    have hlen := congrArg List.length hsplit
    rw [List.length_append] at hlen
    by_cases hr : src.dropWhile (· ≠ '/') = []
    · rw [if_pos hr, if_pos hr]
      exact ⟨full, rfl, hc, by omega⟩
    · rw [if_neg hr, if_neg hr, hc.slash]
      have hpos := List.length_pos_of_ne_nil hr
      have htail : ((src.dropWhile (· ≠ '/')).tail).length + 1 = (src.dropWhile (· ≠ '/')).length := by
        rw [List.length_tail]
        omega
      have hle : ((src.dropWhile (· ≠ '/')).tail).length ≤ n := by omega
      obtain ⟨full', hf', hc', hl'⟩ := ih hle hc.names
      have hj : (join (climb cs (src.takeWhile (· ≠ '/')))).length ≤ full.length := by
        rcases hc.spelling with ⟨he, -⟩ | he
        · rw [he]
        · rw [he]
          simp
      exact ⟨full', hf', hc', by omega⟩

/-- **`path_conv` from the root directory.** -/
theorem pathConv_eq (cpath : Str) :
    pathConv ['/'] cpath = .ok (.error .enametoolong) ∨
      ∃ path, pathConv ['/'] cpath = .ok (.ok path) ∧ Clean path (((strlcpy cpath).splitOn '/').foldl climb []) ∧
        path.length ≤ pathMax - 1 := by
  unfold pathConv
  by_cases hlong : pathMax ≤ (['/'] : Str).length + (strlcpy cpath).length
  · left
    exact if_pos hlong
  right
  simp only [if_neg hlong]
  rw [List.length_singleton] at hlong
  rcases hp : strlcpy cpath with _ | ⟨a, path⟩
  · exact ⟨['/'], rfl, ⟨by simp [climb], Or.inr rfl⟩, by simp [pathMax]⟩
  rw [hp, List.length_cons] at hlong
  rw [List.head?_cons, List.tail_cons]
  by_cases ha : a = '/'
  · subst ha
    obtain ⟨full, hf, hc, hl⟩ := pathConvLoop_clean (le_refl path.length) (List.forall_mem_nil IsName)
    have hnil : (('/' :: path).splitOn '/').foldl climb [] = (path.splitOn '/').foldl climb [] := by
      rw [splitOn_slash]
      simp [climb]
    refine ⟨full, ?_, by rw [hnil]; exact hc, ?_⟩
    · rw [if_pos rfl, if_pos rfl]
      rw [show pathConvLoop path.length ['/'] path = .ok full from hf]
      rfl
    · rw [show join [] = [] from rfl, List.length_nil] at hl
      omega
  · obtain ⟨full, hf, hc, hl⟩ := pathConvLoop_clean (le_refl (a :: path).length) (List.forall_mem_nil IsName)
    refine ⟨full, ?_, hc, ?_⟩
    · rw [if_neg (by simpa using ha), if_neg (by simpa using ha)]
      have hfull : strlcpy ['/'] ++ (if 1 < (['/'] : Str).length ∧ some a ≠ some '.' then ['/'] else []) = ['/'] := by
        simp [strlcpy, pathMax]
      rw [hfull, show pathConvLoop (a :: path).length ['/'] (a :: path) = .ok full from hf]
      rfl
    · rw [show join [] = [] from rfl, List.length_nil, List.length_cons] at hl
      omega

end Coffer
