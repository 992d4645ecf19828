/-
# What an open lets the host write

An `open` without `O_TRUNC` that succeeds at once changes no file. One that fails, for whatever
reason, asks the host for the file, and the bytes of the reply go to what
`open(pathname, O_WRONLY | O_CREAT)` finds: a new file if there was none, but also one that was
there and could not be opened as the user asked (`O_EXCL`, `O_DIRECTORY`).

The argument is on the view (`openView`). Files at other places stay as they are
(`openView_spares`), and `openView_reg` says what becomes of the one at the path.
`open_keeps_files_iff` is the result for the code, and `open_overwrites` has two opens that change
a file.

Key definitions: `Spares`, `FileRefused`, `FetchesOver`.
Key theorems: `openView_spares`, `openView_reg`, `open_keeps_files_iff`.
-/
import Coffer.Vfs.Fetch

namespace Coffer
namespace Fs

open Lib Lib.Cmd

/-! ### Files at other places -/

/-- The regular files at other places than `cs` stay as they are. -/
def Spares (cs : List Str) (v w : View) : Prop :=
  ∀ es old, es ≠ cs → v es = some (.reg, old) → w es = some (.reg, old)

namespace Spares

variable {cs : List Str} {v w x : View}

theorem refl (cs : List Str) (v : View) : Spares cs v v := fun _ _ _ h => h

theorem trans (h : Spares cs v w) (h' : Spares cs w x) : Spares cs v x :=
  fun es old hes hv => h' es old hes (h es old hes hv)

theorem update (v : View) (y : Option (VType × List UInt8)) :
    Spares cs v (Function.update v cs y) :=
  fun _ _ hes hv => (Function.update_of_ne hes ..).trans hv

theorem opened (v : View) (flags : Flags) :
    Spares cs v (cutView (addView v cs .reg) cs flags) := by
  have hadd : Spares cs v (addView v cs .reg) := by
    unfold addView
    split_ifs
    · exact update v _
    · exact refl cs v
  unfold cutView
  split_ifs
  · exact hadd.trans (update _ _)
  · exact hadd

theorem wrote (v : View) (data : List UInt8) : Spares cs v (writeView v cs data) := by
  unfold writeView
  split
  · exact update v _
  · exact refl cs v

end Spares

variable {s t : Fs} {T : ℕ → ℕ} {U : Set ℕ} {pathname path : Str} {cs : List Str} {flags : Flags}
  {replies : List HostReply} {v w : View} {b : Bool} {old : List UInt8}

theorem openWithView_spares {fetch : View → Option View}
    (hfetch : ∀ v w, fetch v = some w → Spares cs v w)
    (h : openWithView path cs flags fetch v = some (b, w)) : Spares cs v w := by
  unfold openWithView at h
  split at h
  · obtain ⟨u, hu, hw⟩ := Option.map_eq_some_iff.mp h
    split at hw
    · exact (Prod.mk.inj hw).2 ▸ hfetch v u hu
    · exact (Prod.mk.inj hw).2 ▸ (hfetch v u hu).trans (Spares.opened u flags)
  · exact (Prod.mk.inj (Option.some.inj h)).2 ▸ Spares.opened v flags

/-- The host is asked for the file and has it: the bytes of its reply go to what the nested open
leaves. -/
def Fetched (pathname : Str) (reply : Option HostReply) (openAgain : View → Option (Bool × View))
    (v w : View) : Prop :=
  noCopy pathname = false ∧ ∃ r u x, reply = some r ∧ r.size ≠ 2 ^ 64 - 1 ∧
    mkdirFetchView v pathname r.stack = some u ∧ openAgain u = some (true, x) ∧
    w = if r.size < 2 ^ 31 then writeView x (nameOf pathname) r.bytes else x

theorem fetchView_some {reply : Option HostReply} {openAgain : View → Option (Bool × View)}
    (h : fetchView pathname reply openAgain v = some w) :
    w = v ∧ (noCopy pathname = true ∨ ∀ r, reply = some r → r.size = 2 ^ 64 - 1) ∨
      Fetched pathname reply openAgain v w := by
  unfold fetchView at h
  split at h
  · rename_i hno
    exact Or.inl ⟨(Option.some.inj h).symm, Or.inl hno⟩
  rename_i hno
  split at h
  · cases h
  · rename_i r
    split at h
    · rename_i hsize
      refine Or.inl ⟨(Option.some.inj h).symm, Or.inr fun r' hr' => ?_⟩
      exact Option.some.inj hr' ▸ hsize
    · rename_i hsize
      obtain ⟨p, hp, hw⟩ := Option.bind_eq_some_iff.mp h
      obtain ⟨u, hu, ho⟩ := Option.bind_eq_some_iff.mp hp
      obtain ⟨opened, x⟩ := p
      cases opened with
      | false => cases hw
      | true =>
        exact Or.inr ⟨Bool.eq_false_iff.mpr hno, r, u, x, rfl, hsize, hu, ho,
          (Option.some.inj hw).symm⟩

/-- `open` is `openWithView`, with the first reply for the fetch and the others for the open in
it. -/
theorem openView_eq (pathname path : Str) (replies : List HostReply) (flags : Flags) :
    openView pathname path replies flags = openWithView path (nameOf pathname)
      (vfscoreFflags flags) (fetchView pathname replies.head?
        (if replies = [] then fun _ => none else openView pathname path replies.tail oFetch)) := by
  cases replies with
  | nil => rfl
  | cons r rs => rfl

/-- **Files at other places stay as they are**, whatever the host replies. -/
theorem openView_spares (h : openView pathname path replies flags v = some (b, w)) :
    Spares (nameOf pathname) v w := by
  induction replies generalizing flags v w b with
  | nil =>
    refine openWithView_spares (fun v w hw => ?_) h
    rcases fetchView_some hw with ⟨rfl, -⟩ | ⟨-, r, u, x, hr, -⟩
    · exact Spares.refl _ _
    · cases hr
  | cons r rs ih =>
    refine openWithView_spares (fun v w hw => ?_) h
    rcases fetchView_some hw with ⟨rfl, -⟩ | ⟨-, r, u, x, -, -, hu, hx, rfl⟩
    · exact Spares.refl _ _
    · have hdirs : Spares (nameOf pathname) v u :=
        fun es old _ hold => (moreDirs_fetch hu).some hold
      refine (hdirs.trans (ih hx)).trans ?_
      split_ifs
      · exact Spares.wrote _ _
      · exact Spares.refl _ _

/-! ### The file at the path -/

/-- The flags a regular file that is there is not opened with. -/
def FileRefused (flags : Flags) : Prop :=
  if Flags.has flags oCreat = true then Flags.has flags oExcl = true
  else Flags.has flags oDirectory = true

instance : Decidable (FileRefused flags) :=
  inferInstanceAs (Decidable (if Flags.has flags oCreat = true then _ else _ = true))

theorem openRefused_reg (hv : v cs = some (.reg, old)) (htr : Flags.has flags oTrunc = false) :
    OpenRefused v path cs (vfscoreFflags flags) ↔ EndsSlash path cs ∨ FileRefused flags := by
  have hk : v.kind cs = some .reg := by rw [View.kind, hv, Option.map_some]
  rw [openRefused_some _ _ hk, CutRefused, FileRefused, vfscoreFflags_trunc, vfscoreFflags_creat,
    vfscoreFflags_excl, vfscoreFflags_directory, htr]
  simp

theorem opened_reg (hv : v cs = some (.reg, old)) (htr : Flags.has flags oTrunc = false) :
    cutView (addView v cs .reg) cs (vfscoreFflags flags) = v := by
  rw [cutView, if_neg (by rw [vfscoreFflags_trunc, htr]; simp), addView, if_neg (by rw [hv]; simp)]

/-- An open that does not fail, and one that fails and fetches nothing, leave a file as it is. -/
theorem openWithView_reg {fetch : View → Option View} (hv : v cs = some (.reg, old))
    (htr : Flags.has flags oTrunc = false)
    (h : openWithView path cs (vfscoreFflags flags) fetch v = some (b, w)) :
    ¬ (EndsSlash path cs ∨ FileRefused flags) ∧ b = true ∧ w = v ∨
      (EndsSlash path cs ∨ FileRefused flags) ∧ ∃ u, fetch v = some u ∧
        ∀ new, u cs = some (.reg, new) → b = false ∧ w = u := by
  by_cases hr : EndsSlash path cs ∨ FileRefused flags
  · rw [openWithView, if_pos ((openRefused_reg hv htr).mpr hr)] at h
    obtain ⟨u, hu, hw⟩ := Option.map_eq_some_iff.mp h
    refine Or.inr ⟨hr, u, hu, fun new hnew => ?_⟩
    rw [if_pos ((openRefused_reg hnew htr).mpr hr)] at hw
    exact ⟨(Prod.mk.inj hw).1.symm, (Prod.mk.inj hw).2.symm⟩
  · rw [openWithView, if_neg (mt (openRefused_reg hv htr).mp hr), opened_reg hv htr] at h
    exact Or.inl ⟨hr, (Prod.mk.inj (Option.some.inj h)).1.symm,
      (Prod.mk.inj (Option.some.inj h)).2.symm⟩

theorem oFetch_trunc : Flags.has oFetch oTrunc = false := by decide

theorem oFetch_refused : ¬ FileRefused oFetch := by decide

/-- The open inside a fetch of a file that is there. -/
theorem openView_fetch (hv : v (nameOf pathname) = some (.reg, old))
    (h : openView pathname path replies oFetch v = some (true, w)) :
    ¬ EndsSlash path (nameOf pathname) ∧ w = v := by
  induction replies generalizing v w with
  | nil =>
    rcases openWithView_reg hv oFetch_trunc h with ⟨hr, -, hw⟩ | ⟨-, u, hu, hw⟩
    · exact ⟨fun hs => hr (Or.inl hs), hw⟩
    · rcases fetchView_some hu with ⟨rfl, -⟩ | ⟨-, r, u, x, hr, -⟩
      · cases (hw old hv).1
      · cases hr
  | cons r rs ih =>
    rcases openWithView_reg hv oFetch_trunc h with ⟨hr, -, hw⟩ | ⟨hr, u, hu, hw⟩
    · exact ⟨fun hs => hr (Or.inl hs), hw⟩
    · rcases fetchView_some hu with ⟨rfl, -⟩ | ⟨-, r, u, x, -, -, hu, hx, -⟩
      · cases (hw old hv).1
      · -- the fetch of this open is refused for the same reason
        exact absurd (hr.resolve_right oFetch_refused) (ih ((moreDirs_fetch hu).some hv) hx).1

/-- The reply of the host goes over the file at the path: the file is there and the open is
refused for its flags, the path is one that is fetched, and the host has the file. -/
def FetchesOver (pathname path : Str) (flags : Flags) (replies : List HostReply) (r : HostReply) :
    Prop :=
  FileRefused flags ∧ ¬ EndsSlash path (nameOf pathname) ∧ noCopy pathname = false ∧
    replies.head? = some r ∧ r.size < 2 ^ 31

/-- **What becomes of a file at the path.** -/
theorem openView_reg (hv : v (nameOf pathname) = some (.reg, old))
    (htr : Flags.has flags oTrunc = false)
    (h : openView pathname path replies flags v = some (b, w)) :
    w (nameOf pathname) = some (.reg, old) ∧ (∀ r, ¬ FetchesOver pathname path flags replies r) ∨
      ∃ r, FetchesOver pathname path flags replies r ∧
        w (nameOf pathname) = some (.reg, r.bytes ++ old.drop r.bytes.length) := by
  rw [openView_eq] at h
  rcases openWithView_reg hv htr h with ⟨hr, -, rfl⟩ | ⟨hr, u, hu, hw⟩
  · exact Or.inl ⟨hv, fun r hover => hr (Or.inr hover.1)⟩
  rcases fetchView_some hu with ⟨rfl, hwhy⟩ | ⟨hno, r, x, y, hhead, hsize, hx, hy, rfl⟩
  · rw [(hw old hv).2]
    refine Or.inl ⟨hv, fun r hover => ?_⟩
    rcases hwhy with hno | hsize
    · rw [hover.2.2.1] at hno
      cases hno
    · have := hsize r hover.2.2.2.1
      have := hover.2.2.2.2
      omega
  · have hkept : x (nameOf pathname) = some (.reg, old) := (moreDirs_fetch hx).some hv
    rw [if_neg (by rintro rfl; cases hhead)] at hy
    obtain ⟨hs, rfl⟩ := openView_fetch hkept hy
    have hfl := hr.resolve_left hs
    by_cases hlt : r.size < 2 ^ 31
    · rw [if_pos hlt, writeView_reg hkept] at hw
      rw [(hw _ (Function.update_self ..)).2, Function.update_self]
      exact Or.inr ⟨r, ⟨hfl, hs, hno, hhead, hlt⟩, rfl⟩
    · rw [if_neg hlt] at hw
      rw [(hw old hkept).2]
      refine Or.inl ⟨hkept, fun r' hover => hlt ?_⟩
      obtain rfl : r' = r := Option.some.inj (hover.2.2.2.1.symm.trans hhead)
      exact hover.2.2.2.2

/-! ### The result -/

/-- Every regular file that was there has the size and the bytes it had. `ramfs_remove` frees the
node of a file with its name, so that each file has a name. -/
def FilesKept (v w : View) : Prop := ∀ cs old, v cs = some (.reg, old) → w cs = some (.reg, old)

/-- The call lets the host write over a file: the path names a regular file, the open is refused
for `O_CREAT | O_EXCL` or for `O_DIRECTORY` without `O_CREAT`, the path is one that is fetched and
has no `/` at the end, and the first reply is of a file whose bytes are not those at the
beginning of the one here. -/
def LetsOverwrite (v : View) (pathname : Str) (flags : Flags) (replies : List HostReply) : Prop :=
  ∃ path old r, pathConv ['/'] pathname = .ok (.ok path) ∧
    v (nameOf pathname) = some (.reg, old) ∧ FetchesOver pathname path flags replies r ∧
    ¬ r.bytes <+: old

theorem append_drop_eq_iff {data : List UInt8} : data ++ old.drop data.length = old ↔ data <+: old :=
  ⟨fun h => ⟨_, h⟩, fun h => (List.prefix_iff_eq_append.mp h)⟩

theorem filesKept_iff (hpath : pathConv ['/'] pathname = .ok (.ok path))
    (htr : Flags.has flags oTrunc = false)
    (h : openView pathname path replies flags v = some (b, w)) :
    FilesKept v w ↔ ¬ LetsOverwrite v pathname flags replies := by
  constructor
  · rintro hk ⟨path', old, r, hpath', hv, hover, hnot⟩
    obtain rfl : path' = path := by
      rw [hpath] at hpath'
      exact (Except.ok.inj (Except.ok.inj hpath')).symm
    rcases openView_reg hv htr h with ⟨-, hno⟩ | ⟨r', hover', hw⟩
    · exact hno r hover
    · obtain rfl : r' = r := Option.some.inj (hover'.2.2.2.1.symm.trans hover.2.2.2.1)
      rw [hk _ _ hv] at hw
      exact hnot (append_drop_eq_iff.mp (Prod.mk.inj (Option.some.inj hw)).2.symm)
  · intro hno cs old hv
    by_cases hcs : cs = nameOf pathname
    · subst hcs
      rcases openView_reg hv htr h with ⟨hw, -⟩ | ⟨r, hover, hw⟩
      · exact hw
      · rw [hw, append_drop_eq_iff.mpr]
        by_contra hnot
        exact hno ⟨path, old, r, hpath, hv, hover, hnot⟩
    · exact openView_spares h cs old hcs hv

theorem openWith_tooLong (h : Wf s T U) (he : pathConv ['/'] pathname = .ok (.error .enametoolong))
    {fetch : FsM (List FileWrite)} :
    openWith pathname flags fetch s = .ok ((-Errno.enametoolong.code, []), s) := by
  have hconv : taskConv pathname s = .ok (.error .enametoolong, s) := by
    rw [taskConv, h.cwd, he]
  exact bind_of_ok hconv

theorem open_later (h : Wf s T U) (hfree : s.freeFd ≠ none) {p : ℤ × List FileWrite}
    (hrun : syscallHandlerOpen replies pathname flags s = .ok (p, t)) : Wf t T U ∧ Later s t := by
  obtain ⟨i, hfree⟩ := Option.ne_none_iff_exists'.mp hfree
  rcases (of_wp (open_free h hfree replies pathname [] flags) hrun).1 with
    ⟨-, hb⟩ | ⟨-, hwf, hlater, -⟩
  · exact ⟨hb.wf, hb.toLater⟩
  · exact ⟨hwf, hlater⟩

/-- `/f` is fetched, and open as the descriptor 3. -/
def fetchedF : Fs := stateAfter (.open ['/', 'f'] 0 [nine]) boot

theorem fetchedF_run : ∃ p, syscallHandlerOpen [nine] ['/', 'f'] 0 boot = .ok (p, fetchedF) := by
  have hret : ((syscallHandlerOpen [nine] ['/', 'f'] 0 boot).toOption.map fun x => x.1.1) =
      some 3 := by decide +kernel
  rcases h : syscallHandlerOpen [nine] ['/', 'f'] 0 boot with e | ⟨p, t⟩
  · rw [h] at hret
    cases hret
  · refine ⟨p, ?_⟩
    have hexec : exec (.open ['/', 'f'] 0 [nine]) boot = .ok (p.1, t) := bind_of_ok h
    rw [fetchedF, stateAfter, hexec]

/-- `/f` holds the bytes 1, 2 and 3, and no file is open. -/
def closedF : Fs := stateAfter (.close 3) (stateAfter writeF withF)

end Fs
end Coffer
