/-
# What the host is not asked for

The host is not asked for what begins like an entry of a list, or is the beginning of one.
`noCopy_exact_iff`: for which paths that is the same as to lie in `/dev`, `/proc` or `/sys`.
-/
import Coffer.Vfs.Frame

namespace Coffer

open Lib Lib.Cmd

/-- The bytes of a file. -/
def RamNode.contents (x : RamNode) : List UInt8 := (List.range x.rnSize).map (x.rnBuf.getD fun _ => 0)

namespace Fs

theorem fetchFromHost_missing (pathname : Str) {r : HostReply} (h : r.size = 2 ^ 64 - 1)
    (openAgain : FsM (ℤ × List FileWrite)) :
    fetchFromHost pathname (some r) openAgain = (pure [] : FsM (List FileWrite)) := by
  unfold fetchFromHost
  split
  · rfl
  · simp only [if_pos h]

/-! ### What the host is not asked for -/

/-- The path is the directory or lies below it. -/
def Below (dir pathname : Str) : Prop := pathname = dir ∨ dir ++ ['/'] <+: pathname

instance (dir pathname : Str) : Decidable (Below dir pathname) := inferInstanceAs (Decidable (_ ∨ _))

/-- The directories that are the host's own: `/dev`, `/proc` and `/sys`. -/
def devDir : Str := ['/', 'd', 'e', 'v']
@[inherit_doc devDir] def procDir : Str := ['/', 'p', 'r', 'o', 'c']
@[inherit_doc devDir] def sysDir : Str := ['/', 's', 'y', 's']

theorem noCopy_iff (pathname : Str) :
    noCopy pathname = true ↔ ∃ dir ∈ noCopyDir, dir.take (pathname.length % 2 ^ 32) <+: pathname := by
  have hle : pathname.length % 2 ^ 32 ≤ pathname.length := Nat.mod_le ..
  rw [noCopy, List.any_eq_true]
  refine exists_congr fun dir => and_congr_right fun _ => ?_
  have htake : dir.take (min dir.length (pathname.length % 2 ^ 32)) = dir.take (pathname.length % 2 ^ 32) := by
    rw [List.take_eq_take_iff]
    omega
  have hlen : (dir.take (pathname.length % 2 ^ 32)).length = min dir.length (pathname.length % 2 ^ 32) := by
    rw [List.length_take, Nat.min_comm]
  rw [decide_eq_true_eq, htake, List.prefix_iff_eq_take, hlen]

theorem Below.isPrefix {dir pathname : Str} (h : Below dir pathname) : dir <+: pathname := by
  rcases h with rfl | h
  · exact List.prefix_rfl
  · exact (List.prefix_append dir ['/']).trans h

theorem noCopy_of_below {dir pathname : Str} (hd : dir ∈ noCopyDir) (h : Below dir pathname) :
    noCopy pathname = true :=
  (noCopy_iff pathname).mpr ⟨dir, hd, (List.take_prefix ..).trans h.isPrefix⟩

/-- `/sys` is on the list without its slash: what lies below it is refused only if the length of the path
wraps to less than the first two characters. -/
theorem noCopy_of_sys {pathname : Str} (h : Below sysDir pathname) :
    noCopy pathname = true ↔ pathname.length % 2 ^ 32 < 2 := by
  obtain ⟨rest, rfl⟩ := h.isPrefix
  rw [noCopy_iff]
  generalize (sysDir ++ rest).length % 2 ^ 32 = len
  rcases len with _ | _ | len
  · simp [noCopyDir]
  · simp [noCopyDir, sysDir]
  · simp [noCopyDir, sysDir]

theorem fetchFromHost_refused_iff (pathname : Str) (openAgain : FsM (ℤ × List FileWrite)) (s : Fs) :
    fetchFromHost pathname none openAgain s = .ok ([], s) ↔ noCopy pathname = true := by
  unfold fetchFromHost
  cases noCopy pathname with
  | true => exact ⟨fun _ => rfl, fun _ => rfl⟩
  | false =>
    constructor
    · intro h
      cases h
    · intro h
      cases h

/-- **What the host is not asked for.** A fetch refuses without an answer of the host exactly for what
lies in `/dev`, `/proc` or `/sys`, for these paths: those in `/dev` or `/proc`, those elsewhere that no
entry of the list, cut to their length, begins, and of those in `/sys` the ones whose length wraps. -/
theorem noCopy_exact_iff (pathname : Str) (openAgain : FsM (ℤ × List FileWrite)) (s : Fs) :
    (fetchFromHost pathname none openAgain s = .ok ([], s) ↔
      Below devDir pathname ∨ Below procDir pathname ∨ Below sysDir pathname) ↔
    Below devDir pathname ∨ Below procDir pathname ∨
      Below sysDir pathname ∧ pathname.length % 2 ^ 32 < 2 ∨
      ¬ Below sysDir pathname ∧ ∀ dir ∈ noCopyDir, ¬ dir.take (pathname.length % 2 ^ 32) <+: pathname := by
  rw [fetchFromHost_refused_iff]
  by_cases hdev : Below devDir pathname
  · have hyes : noCopy pathname = true := noCopy_of_below (by simp [noCopyDir, devDir]) hdev
    simp [hdev, hyes]
  by_cases hproc : Below procDir pathname
  · have hyes : noCopy pathname = true := noCopy_of_below (by simp [noCopyDir, procDir]) hproc
    simp [hproc, hyes]
  by_cases hsys : Below sysDir pathname
  · simp [hdev, hproc, hsys, noCopy_of_sys hsys]
  · have hno : noCopy pathname = true ↔ ∃ dir ∈ noCopyDir, dir.take (pathname.length % 2 ^ 32) <+: pathname :=
      noCopy_iff pathname
    simp only [hdev, hproc, hsys, hno, false_or, false_and, iff_false, not_exists, not_and, not_false_eq_true,
      true_and]

/-- **Paths that are misjudged.** `/sys/x` is asked for; the root directory, `/devices` and `s` are
not. -/
theorem noCopy_misjudges :
    (noCopy ['/', 's', 'y', 's', '/', 'x'] = false ∧ Below sysDir ['/', 's', 'y', 's', '/', 'x']) ∧
    ∀ pathname ∈ [['/'], ['/', 'd', 'e', 'v', 'i', 'c', 'e', 's'], ['s']], noCopy pathname = true ∧
      ¬ Below devDir pathname ∧ ¬ Below procDir pathname ∧ ¬ Below sysDir pathname := by
  decide

end Fs

end Coffer
