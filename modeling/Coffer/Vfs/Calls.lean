/-
# Every call keeps the table and the cache in order

The handlers of the system calls, one after the other: what they do to a file they do while they hold it (`Worked`), and
what they do to the table moves holders between slots and calls. With the host answering whatever it likes, an `open` that
fetches makes directories, opens, writes and closes on the way, all of it in order too. `exec_wf`: from a state in order
every call leads to one, if no write ends beyond `2 ^ 63`.

Two calls leave a holder behind. With a full table `open` and `F_DUPFD` return with a file nobody holds any more: `T` says
so (`openFd_wf`, `dupfd_wf`).

Key definitions: `Worked`, `Carried`, `Orderly`, `Call.Ends`.
Key theorems: `close_wf`, `dupfd_wf`, `openFd_wf`, `open_orderly`, `exec_carried`, `exec_wf`.
-/
import Coffer.Vfs.Mkdir
import Coffer.Vfs.Table

namespace Coffer

/-- The write ends below `2 ^ 63`. -/
def FileWrite.Ends (w : FileWrite) : Prop :=
  (if w.append then toOff (toU64 w.vSize) else w.offset) + w.data.length < 2 ^ 63

instance (w : FileWrite) : Decidable w.Ends := inferInstanceAs (Decidable (_ < _))

namespace Fs

open Lib Lib.Cmd

variable {s t : Fs} {T : ℕ → ℕ} {U : Set ℕ} {f : ℕ} {x : VFile}

/-! ### Calls on a file -/

/-- A call has worked on a file it holds. -/
structure Worked (s t : Fs) (T : ℕ → ℕ) (U : Set ℕ) : Prop where
  wf : Wf t T U
  framed : Framed s t
  sub : FilesSub s t

theorem Worked.refl (h : Wf s T U) : Worked s s T U := ⟨h, Framed.refl s, FilesSub.of_eq rfl⟩

theorem Worked.trans {T' : ℕ → ℕ} {u : Fs} (h : Worked s t T U) (h' : Worked t u T' U) : Worked s u T' U :=
  ⟨h'.wf, h.framed.trans h'.framed, h.sub.trans h'.sub⟩

theorem setFile_framed (s : Fs) (f : ℕ) (x : VFile) : Framed s (s.setFile f x) :=
  ⟨rfl, rfl, rfl, rfl, rfl, rfl, rfl, le_refl _, le_refl _⟩

theorem ask_framed (s : Fs) : Framed s s.ask := ⟨rfl, rfl, rfl, rfl, rfl, rfl, rfl, le_refl _, Nat.le_succ _⟩

theorem askIf_framed (s : Fs) (c : Prop) [Decidable c] : Framed s (s.askIf c) :=
  ⟨rfl, rfl, rfl, rfl, rfl, rfl, rfl, le_refl _, Nat.le_add_right ..⟩

theorem Wf.ask (h : Wf s T U) : Wf s.ask T U :=
  h.of_framed (ask_framed s) rfl (h.cache.congr ⟨rfl, rfl, rfl, rfl, rfl, le_refl _⟩)

theorem Worked.ask (h : Wf s T U) : Worked s s.ask T U := ⟨h.ask, ask_framed s, FilesSub.of_eq rfl⟩

theorem Worked.askIf (h : Wf s T U) (c : Prop) [Decidable c] : Worked s (s.askIf c) T U :=
  ⟨h.of_framed (askIf_framed s c) rfl (h.cache.congr ⟨rfl, rfl, rfl, rfl, rfl, le_refl _⟩),
    askIf_framed s c, FilesSub.of_eq rfl⟩

/-- A file object with the dentry and the count it had. -/
theorem Worked.setFile {x' : VFile} (h : Wf s T U) (hx : s.files f = some x) (hd : x'.fDentry = x.fDentry)
    (hc : x'.fCount = x.fCount) : Worked s (s.setFile f x') T U :=
  ⟨h.setFile hx hd hc, setFile_framed .., FilesSub.setFile hx hd⟩

section Contents

variable {d : ℕ} {y : Dentry} {v : Vnode} {n : RamNode} {file : RamFile}

/-- A dentry whose node is there is in the hash table. -/
theorem Wf.at_of_node (h : Wf s T U) (hx : s.files f = some x) (hd : x.fDentry = some d) (hy : s.dentries d = some y)
    (hv : s.vnodes y.dVnode = some v) (hn : s.nodes v.vData = some n) : ∃ cs, Placed s d cs ∧ At s d cs y v n := by
  have hU : d ∉ U := by
    intro hU
    have := (h.cache.names.dead hU).2.2 hy hv
    rw [hn] at this
    cases this
  obtain ⟨cs, hp⟩ := h.placed hx hd hU
  obtain ⟨y', v', n', ha⟩ := h.cache.names.at hp
  obtain rfl : y = y' := Option.some.inj (hy.symm.trans ha.dentry)
  obtain rfl : v = v' := Option.some.inj (hv.symm.trans ha.vnode)
  obtain rfl : n = n' := Option.some.inj (hn.symm.trans ha.node)
  exact ⟨cs, hp, ha⟩

/-- Other contents of an open file. -/
theorem Worked.setRamFile (h : Wf s T U) (hx : s.files f = some x) (hd : x.fDentry = some d) (hy : s.dentries d = some y)
    (hv : s.vnodes y.dVnode = some v) (hn : s.nodes v.vData = some n)
    (hfile : file.rnSize = toU64 file.vSize ∧ (withFileNode n file).Ok) :
    Worked s (s.setRamFile y.dVnode v n file) T U := by
  obtain ⟨cs, hp, ha⟩ := h.at_of_node hx hd hy hv hn
  have hst : Framed s (s.setRamFile y.dVnode v n file) := ⟨rfl, rfl, rfl, rfl, rfl, rfl, rfl, le_refl _, le_refl _⟩
  exact ⟨h.of_framed hst rfl (h.cache.setRamFile hp ha hfile.1 hfile.2), hst, FilesSub.of_eq rfl⟩

end Contents

theorem wp_found {α β : Type} {g : Fs → Option α} {e : FsFault} {k : α → FsM β} {Q : β → Fs → Prop}
    (h : ∀ a, g s = some a → wp (k a) Q (fun _ => True) s) : wp (Cmd.load g e >>= k) Q (fun _ => True) s := by
  rw [wp_bind, wp_load_iff]
  exact ⟨h, fun _ => trivial⟩

/-- Without the node a write of some bytes fails before it, or faults. -/
theorem ramfsWrite_gone {v : Vnode} (hn : s.nodes v.vData = none) (vp : ℕ) (offset : ℤ) {data : List UInt8}
    (hdata : data ≠ []) (append : Bool) :
    wp (ramfsWrite vp v offset data append) (fun r t => (∃ e, r = .error e) ∧ t = s) (fun _ => True) s := by
  unfold ramfsWrite
  refine wp_ite (fun _ => ⟨⟨_, rfl⟩, rfl⟩) fun _ => wp_ite (fun _ => ⟨⟨_, rfl⟩, rfl⟩) fun _ => ?_
  rw [if_neg hdata]
  exact wp_found fun n hn' => absurd (hn.symm.trans hn') nofun

theorem sysRead_worked (h : Wf s T U) (f : ℕ) (lens : List ℕ) (offset : ℤ) :
    wp (sysRead f lens offset) (fun _ t => Worked s t T U) (fun _ => True) s := by
  unfold sysRead
  refine wp_found fun x hx => ?_
  rcases rwChecks (Flags.has x.fFlags ukFread) lens with e | _ | bytes
  · exact Worked.refl h
  · exact Worked.refl h
  simp only
  rcases hd : x.fDentry with _ | d
  · exact wp_ite (fun _ => Worked.refl h) fun _ => trivial
  simp only
  rw [vnodeOf, bind_assoc]
  refine wp_found fun y hy => wp_found fun v hv => ?_
  cases v.vType with
  | dir => exact Worked.refl h
  | lnk => exact Worked.refl h
  | reg =>
    refine (wp_bind ..).mpr (wp_mono (ramfsRead_same s v (uioOffset x offset) (bytes + 1)) fun r t ht => ?_)
    subst t
    rcases r with e | data
    · exact Worked.refl h
    · exact Worked.setFile h hx (advance_fDentry ..) (advance_fCount ..)

theorem sysLseek_worked (h : Wf s T U) (f : ℕ) (off : ℤ) (whence : ℕ) :
    wp (sysLseek f off whence) (fun _ t => Worked s t T U) (fun _ => True) s := by
  unfold sysLseek
  refine wp_found fun x hx => ?_
  rw [wp_bind]
  refine wp_mono (Q := fun _ t => t = s) ?_ fun size t ht => ?_
  · cases x.fDentry with
    | none => rfl
    | some d =>
      simp only
      rw [vnodeOf, bind_assoc]
      exact wp_found fun y hy => wp_found fun v hv => rfl
  · rw [ht]
    exact wp_ite (fun _ => Worked.refl h) fun _ => Worked.setFile h hx rfl rfl

theorem sysFstat_worked (h : Wf s T U) (f : ℕ) :
    wp (sysFstat f) (fun _ t => Worked s t T U) (fun _ => True) s := by
  unfold sysFstat
  refine wp_found fun x hx => ?_
  cases x.fDentry with
  | none => exact Worked.refl h
  | some d =>
    simp only
    rw [vnodeOf, bind_assoc]
    exact wp_found fun y hy => wp_found fun v hv => wp_found fun n hn => Worked.refl h

theorem sysFsync_worked (h : Wf s T U) (f : ℕ) :
    wp (sysFsync f) (fun _ t => Worked s t T U) (fun _ => True) s := by
  unfold sysFsync
  refine wp_found fun x hx => ?_
  cases x.fDentry with
  | none => exact Worked.refl h
  | some d =>
    simp only
    rw [vnodeOf, bind_assoc]
    exact wp_found fun y hy => wp_found fun v hv => Worked.refl h

theorem sysFtruncate_worked (h : Wf s T U) (f : ℕ) (length : ℤ) :
    wp (sysFtruncate f length) (fun _ t => Worked s t T U) (fun _ => True) s := by
  unfold sysFtruncate
  refine wp_found fun x hx => ?_
  rcases hd : x.fDentry with _ | d
  · exact Worked.refl h
  refine wp_found fun y hy => wp_found fun v hv => ?_
  rcases hn : s.nodes v.vData with _ | n
  · exact wp_found fun n hn' => absurd (hn.symm.trans hn') nofun
  have hcmd := ramfsTruncate_ok hn y.dVnode length
  have ha := Worked.askIf h ((ramFile n v).TruncateAsks length)
  rcases hr : (ramFile n v).truncate length (s.mem s.asked) with e | ⟨file, copies⟩
  · simp only [hr] at hcmd
    exact (wp_ok hcmd).mpr ha
  · simp only [hr] at hcmd
    have horder := truncate_order (h.cache.names.ok hn) hr
    exact (wp_ok hcmd).mpr (ha.trans (Worked.setRamFile ha.wf hx hd hy hv hn horder))

theorem sysReaddir_worked (h : Wf s T U) (f : ℕ) :
    wp (sysReaddir f) (fun _ t => Worked s t T U) (fun _ => True) s := by
  unfold sysReaddir
  refine wp_found fun x hx => ?_
  cases x.fDentry with
  | none => exact Worked.refl h
  | some d =>
    simp only
    rw [vnodeOf, bind_assoc]
    refine wp_found fun y hy => wp_found fun v hv => wp_ite (fun _ => Worked.refl h) fun _ => wp_found fun dnp hn => ?_
    unfold ramfsReaddir
    rw [wp_bind]
    refine wp_mono (Q := fun _ t => t = s) ?_ fun entry t ht => ?_
    · refine wp_ite (fun _ => rfl) fun _ => wp_ite (fun _ => rfl) fun _ => wp_ite (fun _ => rfl) fun _ => ?_
      cases dnp.rnChild[(x.fOffset - 2).toNat]? with
      | none => rfl
      | some n => exact wp_found fun np _ => rfl
    · rw [ht]
      cases entry with
      | none => exact Worked.refl h
      | some entry => exact Worked.setFile h hx rfl rfl

/-- The writes a call reports end below `2 ^ 63`. -/
def WritesEnd : Except Errno (ℕ × List FileWrite) → Prop
  | .error _ => True
  | .ok r => ∀ w ∈ r.2, w.Ends

theorem sysWrite_worked (h : Wf s T U) (f : ℕ) (iov : List (List UInt8)) (offset : ℤ) :
    wp (sysWrite f iov offset) (fun r t => WritesEnd r → Worked s t T U) (fun _ => True) s := by
  unfold sysWrite
  refine wp_found fun x hx => ?_
  rcases hchk : rwChecks (Flags.has x.fFlags ukFwrite) (iov.map List.length) with e | _ | bytes
  · exact fun _ => Worked.refl h
  · exact fun _ => Worked.refl h
  have hdata := rwChecks_data hchk
  simp only
  rcases hd : x.fDentry with _ | d
  · exact wp_ite (fun _ _ => Worked.refl h) fun _ _ => Worked.refl h
  refine wp_found fun y hy => wp_found fun v hv => ?_
  cases v.vType with
  | dir => exact fun _ => Worked.refl h
  | lnk => exact fun _ => Worked.refl h
  | reg =>
    simp only
    rw [wp_bind]
    rcases hn : s.nodes v.vData with _ | n
    · refine wp_mono (ramfsWrite_gone hn y.dVnode (uioOffset x offset) hdata _) fun r t hr => ?_
      obtain ⟨⟨e, rfl⟩, rfl⟩ := hr
      exact fun _ => Worked.refl h
    have hcmd := ramfsWrite_ok hn y.dVnode (uioOffset x offset) hdata (Flags.has x.fFlags oAppend)
    have hask := Worked.askIf h
      ((ramFile n v).WriteAsks (uioOffset x offset) iov.flatten (Flags.has x.fFlags oAppend))
    rcases hr : (ramFile n v).write (uioOffset x offset) iov.flatten (Flags.has x.fFlags oAppend) (s.mem s.asked)
      with e | ⟨file, copies⟩
    · simp only [hr] at hcmd
      exact (wp_ok hcmd).mpr fun _ => hask
    · simp only [hr] at hcmd
      refine (wp_ok hcmd).mpr fun hends => ?_
      obtain ⟨cs, -, ha⟩ := h.at_of_node hx hd hy hv hn
      have hfit := hends _ (List.mem_singleton_self _)
      rw [FileWrite.Ends] at hfit
      have hfit' : (ramFile n v).writeOffset (uioOffset x offset) (Flags.has x.fFlags oAppend) + iov.flatten.length < 2 ^ 63 := by
        rw [RamFile.writeOffset, show (ramFile n v).rnSize = toU64 v.vSize from ha.size]
        exact hfit
      have horder := write_order (h.cache.names.ok hn) ha.size hfit' hr
      have hw := hask.trans (Worked.setRamFile hask.wf hx hd hy hv hn horder)
      exact hw.trans (Worked.setFile hw.wf hx (advance_fDentry ..) (advance_fCount ..))

theorem fcntlFile_worked (h : Wf s T U) (f cmd : ℕ) (arg : Flags) :
    wp (fcntlFile f cmd arg) (fun _ t => Worked s t T U) (fun _ => True) s := by
  unfold fcntlFile
  refine wp_found fun x hx => ?_
  refine wp_ite (fun _ => Worked.refl h) fun _ => wp_ite (fun _ => Worked.setFile h hx rfl rfl) fun _ => ?_
  refine wp_ite (fun _ => Worked.refl h) fun _ => wp_ite (fun _ => Worked.setFile h hx rfl rfl) fun _ => ?_
  exact wp_ite (fun _ => Worked.refl h) fun _ => Worked.refl h

/-- **A call on the file of a descriptor** that works on the file it holds, as long as its result is in `P`. -/
theorem withFile_worked {α : Type} {P : Except Errno α → Prop} (h : Wf s T U) (fd : ℤ) {op : ℕ → FsM (Except Errno α)}
    (hop : ∀ f x, Opened s fd f x → Wf (s.setFile f (hold x)) (give T f) U →
      wp (op f) (fun r t => P r → Worked (s.setFile f (hold x)) t (give T f) U) (fun _ => True) (s.setFile f (hold x))) :
    wp (withFile fd op) (fun r t => P r → Worked s t T U) (fun _ => True) s := by
  unfold withFile
  rw [wp_bind]
  refine wp_mono_fault (h.getFile_wp fd) (fun r t ht => ?_) fun _ _ => trivial
  cases r with
  | none =>
    obtain ⟨rfl, -⟩ := ht
    exact fun _ => Worked.refl h
  | some f =>
    obtain ⟨x, hx, rfl⟩ := ht
    simp only
    rw [wp_bind]
    refine wp_mono (hop f x hx (h.hold hx.file)) fun r t ht => ?_
    by_cases hr : P r
    · have ht := ht hr
      obtain ⟨w, hw⟩ := Option.isSome_iff_exists.mp (ht.wf.temp (give_pos T f))
      rw [wp_bind]
      refine wp_mono (ht.wf.fdrop_wp (give_pos ..)) fun _ u hu _ => ?_
      rw [take_give] at hu
      have hsub : FilesSub s (s.setFile f (hold x)) := FilesSub.setFile hx.file rfl
      exact ⟨hu.1, ((setFile_framed ..).trans ht.framed).trans hu.2.framed, (hsub.trans ht.sub).trans (hu.2.filesSub hw)⟩
    · exact wp_bind_any fun _ _ hp => absurd hp hr

/-! ### Calls on the table -/

/-- What a call that strays has read: a bit that is set, outside the table. -/
def StrayBit (s : Fs) (fd : ℤ) : Prop := s.testBit fd = true ∧ ¬ (0 ≤ fd ∧ fd < fdtableMaxFiles)

/-- What `close` says after it. -/
inductive ClosePost (s : Fs) (T : ℕ → ℕ) (U : Set ℕ) (fd : ℤ) : ℤ → Fs → Prop
  | stdio : fd = 0 ∨ fd = 1 ∨ fd = 2 → ClosePost s T U fd 0 s
  | closed : s.testBit fd = false → ClosePost s T U fd (-9) s
  | done {f : ℕ} {x : VFile} {t : Fs} : Opened s fd f x → 3 ≤ fd → Wf t T U → FilesSub s t → t.nodes = s.nodes →
      t.slots = Function.update s.slots fd.toNat none → t.bitmap = Function.update s.bitmap fd.toNat false →
      ClosePost s T U fd 0 t

/-- **`close`** gives back what the slot holds. -/
theorem close_wf (h : Wf s T U) (fd : ℤ) :
    wp (syscallHandlerClose fd) (ClosePost s T U fd) (fun e => e = .stray ∧ StrayBit s fd) s := by
  unfold syscallHandlerClose
  refine wp_ite (fun hfd => .stdio hfd) fun hfd => ?_
  rw [wp_bind]
  refine wp_mono_fault (h.getFile_wp fd) (fun r t ht => ?_) fun e he => he
  cases r with
  | none =>
    obtain ⟨rfl, hb⟩ := ht
    exact .closed hb
  | some f =>
    obtain ⟨x, hx, rfl⟩ := ht
    have h3 : 3 ≤ fd := by
      have := hx.nonneg
      omega
    have hslot : (s.setFile f (hold x)).slots fd.toNat = some f := hx.slot
    have hwf := (h.hold hx.file).dropSlot hslot (by omega)
    simp only
    rw [wp_bind, vfscorePutFd, wp_bind, wp_get, wp_bind, wp_modify]
    simp only [hslot]
    refine wp_mono (hwf.fdrop_wp (give_pos ..)) fun _ u hu => ?_
    rw [take_give] at hu
    rw [wp_bind]
    refine wp_mono (hu.1.fdrop_wp (give_pos ..)) fun _ v hv => ?_
    rw [take_give] at hv
    obtain ⟨w, hw⟩ := Option.isSome_iff_exists.mp (hwf.temp (give_pos (give T f) f))
    obtain ⟨w', hw'⟩ := Option.isSome_iff_exists.mp (hu.1.temp (give_pos T f))
    have hsub : FilesSub s ((s.setFile f (hold x)).dropFd fd.toNat) := FilesSub.setFile hx.file rfl
    refine .done hx h3 hv.1 ((hsub.trans (hu.2.filesSub hw)).trans (hv.2.filesSub hw')) ?_ ?_ ?_
    · rw [hv.2.nodes, hu.2.nodes]
      rfl
    · rw [hv.2.framed.slots, hu.2.framed.slots]
      rfl
    · rw [hv.2.framed.bitmap, hu.2.framed.bitmap]
      rfl

theorem ClosePost.wf (h : Wf s T U) {fd r : ℤ} (hp : ClosePost s T U fd r t) : Wf t T U ∧ FilesSub s t := by
  cases hp with
  | stdio => exact ⟨h, FilesSub.of_eq rfl⟩
  | closed => exact ⟨h, FilesSub.of_eq rfl⟩
  | done _ _ hwf hsub => exact ⟨hwf, hsub⟩

/-- What a call that makes a descriptor for the file `f` says after it; `lost` are the holders that are left behind with
a full table. -/
inductive NewFd (s : Fs) (T lost : ℕ → ℕ) (U : Set ℕ) (f : ℕ) : ℤ → Fs → Prop
  | free {i : ℕ} {t : Fs} : s.freeFd = some i → Wf t T U → FilesSub s t → t.nodes = s.nodes →
      t.slots = Function.update s.slots i (some f) → t.bitmap = Function.update s.bitmap i true →
      NewFd s T lost U f i t
  | full {t : Fs} : s.freeFd = none → Wf t lost U → FilesSub s t → Framed s t → t.nodes = s.nodes →
      NewFd s T lost U f Errno.enfile.code t

theorem NewFd.wf {lost : ℕ → ℕ} {r : ℤ} (hp : NewFd s T lost U f r t) :
    (∃ T', Wf t T' U) ∧ FilesSub s t := by
  cases hp with
  | free _ hwf hsub => exact ⟨⟨_, hwf⟩, hsub⟩
  | full _ hwf hsub => exact ⟨⟨_, hwf⟩, hsub⟩

/-- **A descriptor for a new file**: the slot takes the place of the caller. -/
theorem openFd_wf {E : FsFault → Prop} (h : Wf s T U) (hT : 1 ≤ T f) :
    wp (openFd f) (NewFd s (take T f) T U f) E s := by
  obtain ⟨x, hx⟩ := Option.isSome_iff_exists.mp (h.temp hT)
  rcases hfree : s.freeFd with _ | i
  · rw [wp_ok (openFd_full hx (h.pos hx) hfree)]
    exact .full hfree h (FilesSub.of_eq rfl) (Framed.refl s) rfl
  · obtain ⟨hlt, hbit⟩ := freeFd_some hfree
    have hwf := h.install hT (h.tableOk i hbit) hlt
    have hstate : (s.addFd i f).setFile f x = s.addFd i f := setFile_eq (s := s.addFd i f) hx
    rw [wp_ok (openFd_free h.tableOk hx (h.pos hx) hfree), hstate]
    exact .free hfree hwf (FilesSub.of_eq rfl) rfl rfl rfl

/-- What `F_DUPFD` says after it. -/
inductive DupPost (s : Fs) (T : ℕ → ℕ) (U : Set ℕ) (fd : ℤ) : ℤ → Fs → Prop
  | closed : s.testBit fd = false → DupPost s T U fd (-9) s
  | done {f : ℕ} {x : VFile} {r : ℤ} {t : Fs} : Opened s fd f x → NewFd s T (give (give T f) f) U f r t → DupPost s T U fd r t

/-- **`F_DUPFD`**: one more slot for the file. With a full table both references stay. -/
theorem dupfd_wf (h : Wf s T U) (fd : ℤ) (cloexec : Bool) :
    wp (syscallHandlerDupfd fd cloexec) (DupPost s T U fd) (fun e => e = .stray ∧ StrayBit s fd) s := by
  unfold syscallHandlerDupfd
  rw [wp_bind]
  refine wp_mono_fault (h.getFile_wp fd) (fun r t ht => ?_) fun e he => he
  cases r with
  | none =>
    obtain ⟨rfl, hb⟩ := ht
    exact .closed hb
  | some f =>
    obtain ⟨x, hx, rfl⟩ := ht
    have hwf := h.hold hx.file
    have hfile : (s.setFile f (hold x)).files f = some (hold x) := setFile_self ..
    have hsub : FilesSub s (s.setFile f (hold x)) := FilesSub.setFile hx.file rfl
    simp only
    rw [wp_bind]
    rcases hfree : s.freeFd with _ | i
    · rw [wp_ok (fdalloc_full hfile (by rw [freeFd_setFile]; exact hfree))]
      refine .done hx (.full hfree (hwf.hold hfile) (hsub.trans (FilesSub.setFile hfile rfl)) ?_ rfl)
      exact (setFile_framed ..).trans (setFile_framed ..)
    · obtain ⟨hlt, hbit⟩ := freeFd_some hfree
      have hfree' : (s.setFile f (hold x)).freeFd = some i := by rw [freeFd_setFile]; exact hfree
      have hpos : 0 ≤ (hold x).fCount := (zero_le_one).trans (hwf.pos hfile)
      rw [wp_ok (fdalloc_free hwf.tableOk hfile hfree' hpos)]
      have hwf2 := (hwf.hold hfile).install (give_pos ..) (h.tableOk i hbit) hlt
      rw [take_give] at hwf2
      have hfile2 : (((s.setFile f (hold x)).setFile f (hold (hold x))).addFd i f).files f = some (hold (hold x)) :=
        setFile_self ..
      have hsub2 : FilesSub s (((s.setFile f (hold x)).setFile f (hold (hold x))).addFd i f) :=
        hsub.trans (FilesSub.setFile hfile rfl)
      have hflag : wp (if cloexec then do
            let x ← getFile f
            putFile f (some { x with fFlags := x.fFlags ||| oCloexec })
          else pure () : FsM Unit)
          (fun _ u => ∃ w, u = (((s.setFile f (hold x)).setFile f (hold (hold x))).addFd i f).setFile f w ∧
            w.fDentry = (hold (hold x)).fDentry ∧ w.fCount = (hold (hold x)).fCount)
          (fun e => e = .stray ∧ StrayBit s fd) (((s.setFile f (hold x)).setFile f (hold (hold x))).addFd i f) := by
        refine wp_ite (fun _ => ?_) fun _ => ⟨hold (hold x), (setFile_eq hfile2).symm, rfl, rfl⟩
        rw [wp_bind, wp_ok (getFile_ok hfile2)]
        exact ⟨_, rfl, rfl, rfl⟩
      simp only
      rw [wp_bind]
      refine wp_mono hflag fun _ u hu => ?_
      obtain ⟨w, rfl, hd, hc⟩ := hu
      have hwf3 := hwf2.setFile hfile2 hd hc
      have hsub3 := hsub2.trans (FilesSub.setFile hfile2 hd)
      rw [wp_bind]
      refine wp_mono (hwf3.fdrop_wp (give_pos ..)) fun _ v hv => ?_
      rw [take_give] at hv
      refine .done hx (.free hfree hv.1 (hsub3.trans (hv.2.filesSub (setFile_self ..))) hv.2.nodes ?_ ?_)
      · rw [hv.2.framed.slots]
        rfl
      · rw [hv.2.framed.bitmap]
        rfl

/-! ### `open` -/

/-- From a state in order to one in order, with the holders there were; and if every open file had its node, it has. -/
def Carried (s t : Fs) (T : ℕ → ℕ) (U : Set ℕ) : Prop := (∃ T', T ≤ T' ∧ Wf t T' U) ∧ (Away s U → Away t U)

theorem Carried.trans {u : Fs} {T' : ℕ → ℕ} (h : Away s U → Away t U) (hT : T ≤ T') (h' : Carried t u T' U) :
    Carried s u T U := by
  obtain ⟨⟨T'', hle, hwf⟩, ha⟩ := h'
  exact ⟨⟨T'', hT.trans hle, hwf⟩, fun h0 => ha (h h0)⟩

theorem Carried.of_sub (h : Wf t T U) (hs : FilesSub s t) : Carried s t T U := ⟨⟨T, le_rfl, h⟩, hs.away⟩

theorem Worked.carried (h : Worked s t T U) : Carried s t T U := Carried.of_sub h.wf h.sub

/-- The names a path leads through from the root, `.` and `..` aside. -/
def nameOf (pathname : Str) : List Str := ((strlcpy pathname).splitOn '/').foldl climb []

/-- `task_conv` gives a full path. -/
theorem taskConv_wp (h : Wf s T U) (pathname : Str) {E : FsFault → Prop} :
    wp (taskConv pathname) (fun r t => t = s ∧ match r with
      | .error e => e = .enametoolong
      | .ok path => FullPath path (nameOf pathname)) E s := by
  rcases pathConv_eq pathname with he | ⟨path, he, hc, hl⟩
  · have hrun : taskConv pathname s = .ok (.error .enametoolong, s) := by
      rw [taskConv, h.cwd, he]
    rw [wp_ok hrun]
    exact ⟨rfl, rfl⟩
  · have hrun : taskConv pathname s = .ok (.ok path, s) := by
      rw [taskConv, h.cwd, he]
    rw [wp_ok hrun]
    exact ⟨rfl, hc, hl⟩

/-- A new file is at a dentry in the hash table. -/
theorem open_away {path : Str} {cs : List Str} {flags : Flags} (h : Wf s T U)
    (ho : OpenResult s s.openRefs U path cs flags (.ok f) t)
    (ha : Away s U) : Away t U := by
  obtain ⟨d, fl, hself, -, hp, -, -, hother, hwf⟩ := h.open_ok ho
  intro g w e hw he
  by_cases hg : g = f
  · subst hg
    rw [hself] at hw
    cases hw
    cases he
    exact fun hU => (hwf.cache.names.dead hU).2.1 hp.mem
  · rw [hother g hg] at hw
    exact ha hw he

/-- `sys_open`, then a descriptor for what it found. -/
theorem sysOpen_then {path : Str} {cs : List Str} (h : Wf s T U) (hp : FullPath path cs) (flags : Flags) :
    wp (sysOpen path flags) (fun r t => match r with
      | .error _ => Wf t T U ∧ FilesSub s t
      | .ok f => wp (openFd f) (fun _ u => Carried s u T U) (fun _ => True) t) (fun _ => True) s := by
  refine wp_mono_fault (sysOpen_wp hp h.cache h.fresh flags) (fun r t ht => ?_) fun _ _ => trivial
  cases r with
  | error e => exact ⟨h.open_error ht, FilesSub.of_eq ht.2.2.1⟩
  | ok f =>
    obtain ⟨-, -, -, -, -, -, -, -, hwf⟩ := h.open_ok ht
    refine wp_mono (openFd_wf hwf (give_pos ..)) fun r u hu => ?_
    have haway : Away s U → Away u U := fun ha => hu.wf.2.away (open_away h ht ha)
    cases hu with
    | free _ hwf' => exact ⟨⟨T, le_rfl, take_give T f ▸ hwf'⟩, haway⟩
    | full _ hwf' => exact ⟨⟨give T f, le_give T f, hwf'⟩, haway⟩

/-- A program that leaves the state in order if its writes end below `2 ^ 63`. -/
def Orderly {α : Type} (U : Set ℕ) (ws : α → List FileWrite) (m : FsM α) : Prop :=
  ∀ s T, Wf s T U → wp m (fun a t => (∀ w ∈ ws a, w.Ends) → Carried s t T U) (fun _ => True) s

theorem openWith_orderly (pathname : Str) (flags : Flags) {fetch : FsM (List FileWrite)} (hfetch : Orderly U id fetch) :
    Orderly U Prod.snd (openWith pathname flags fetch) := by
  intro s T h
  unfold openWith
  rw [wp_bind]
  refine wp_mono (taskConv_wp h pathname) fun r t ht => ?_
  obtain ⟨rfl, ht⟩ := ht
  cases r with
  | error e => exact fun _ => Carried.of_sub h (FilesSub.of_eq rfl)
  | ok path =>
    rw [wp_bind]
    refine wp_mono (sysOpen_then h ht flags) fun r u hu => ?_
    cases r with
    | ok f =>
      rw [wp_bind]
      exact wp_mono hu fun _ v hv _ => hv
    | error e =>
      obtain ⟨hu, hsub⟩ := hu
      rw [wp_bind]
      refine wp_mono (hfetch u T hu) fun ws v hv => ?_
      by_cases hws : ∀ w ∈ ws, w.Ends
      · obtain ⟨⟨T', hT, hv⟩, haway⟩ := hv hws
        have hend {w : Fs} (hw : Carried v w T' U) : Carried t w T U :=
          Carried.trans (fun ha => haway (hsub.away ha)) hT hw
        rw [wp_bind]
        refine wp_mono (sysOpen_then hv ht flags) fun r w hw => ?_
        cases r with
        | error e => exact fun _ => hend (Carried.of_sub hw.1 hw.2)
        | ok f =>
          rw [wp_bind]
          exact wp_mono hw fun _ z hz _ => hend hz
      · refine wp_bind_any fun r w => ?_
        cases r with
        | error e => exact fun hws' => absurd hws' hws
        | ok f => exact wp_bind_any fun _ _ hws' => absurd hws' hws

theorem mkdirDirForFetch_wf (h : Wf s T U) (pathname stack : Str) :
    wp (mkdirDirForFetch pathname stack)
      (fun _ t => Worked s t T U ∧ (Plenty s → mkdirFetchView s.view pathname stack = some t.view))
      (fun _ => Plenty s → mkdirFetchView s.view pathname stack = none) s := by
  unfold mkdirDirForFetch mkdirFetchView
  rw [wp_bind]
  refine wp_mono_fault (mkdirAll_view h.cache _) (fun _ t ht => ?_) fun _ he hpl => ?_
  · obtain ⟨hc, hg, hv⟩ := ht
    refine wp_ite (fun hstray _ => if_pos hstray) fun hstray => ⟨?_, fun hpl => ?_⟩
    · exact ⟨h.of_framed hg.framed hg.files hc, hg.framed, FilesSub.of_eq hg.files⟩
    · rw [if_neg hstray, hv hpl]
  · rw [he hpl]
    exact ite_self none

theorem writev_worked (h : Wf s T U) (fd : ℤ) (iov : List (List UInt8)) :
    wp (syscallHandlerWritev fd iov) (fun r t => WritesEnd r → Worked s t T U) (fun _ => True) s :=
  withFile_worked h fd fun f _ _ hwf => wp_found fun _ _ => wp_ite (fun _ => sysWrite_worked hwf f iov (-1))
    fun _ _ => Worked.refl hwf

/-- **The fetch from the host**: directories, an open, a write and a close. -/
theorem fetchFromHost_orderly (pathname : Str) (reply : Option HostReply) {openAgain : FsM (ℤ × List FileWrite)}
    (hopen : Orderly U Prod.snd openAgain) : Orderly U id (fetchFromHost pathname reply openAgain) := by
  intro s T h
  have hsame : Carried s s T U := (Worked.refl h).carried
  unfold fetchFromHost
  refine wp_ite (fun _ _ => hsame) fun _ => ?_
  cases reply with
  | none => exact trivial
  | some r =>
    refine wp_ite (fun _ _ => hsame) fun _ => ?_
    rw [wp_bind]
    refine wp_mono_fault (mkdirDirForFetch_wf h _ _) (fun _ t ht => ?_) fun _ _ => trivial
    replace ht := ht.1
    rw [wp_bind]
    refine wp_mono (hopen t T ht.wf) fun r' u hu => ?_
    obtain ⟨fd, ws⟩ := r'
    refine wp_ite (fun _ => trivial) fun _ => ?_
    rw [wp_bind, wp_ok (kmalloc_ok u)]
    refine wp_ite (fun _ => trivial) fun _ => ?_
    by_cases hws : ∀ w ∈ ws, w.Ends
    · obtain ⟨⟨T', hT, hu⟩, haway⟩ := hu hws
      rw [wp_bind]
      refine wp_mono (writev_worked hu.ask fd _) fun w v hv => ?_
      by_cases hw : WritesEnd w
      · have hv := (Worked.ask hu).trans (hv hw)
        rw [wp_bind]
        refine wp_mono_fault (close_wf hv.wf fd) (fun e z hz => ?_) fun _ _ => trivial
        have hz := hz.wf hv.wf
        have hend : Carried s z T U := Carried.trans (fun ha => haway (ht.sub.away ha)) hT
          (Carried.of_sub hz.1 (hv.sub.trans hz.2))
        refine wp_ite (fun _ => trivial) fun _ => ?_
        cases w with
        | error e => exact fun _ => hend
        | ok w => exact fun _ => hend
      · refine wp_bind_any fun e z => wp_ite (fun _ => trivial) fun _ => ?_
        cases w with
        | error e => exact absurd trivial hw
        | ok w => exact fun hall => absurd (fun x hx => hall x (List.mem_append_right _ hx)) hw
    · refine wp_bind_any fun w v => wp_bind_any fun e z => wp_ite (fun _ => trivial) fun _ => ?_
      cases w with
      | error e => exact fun hall => absurd hall hws
      | ok w => exact fun hall => absurd (fun x hx => hall x (List.mem_append_left _ hx)) hws

/-- **`open`, with all that the host replies.** The induction is on the replies: each fetch opens again. -/
theorem open_orderly (replies : List HostReply) (pathname : Str) (flags : Flags) :
    Orderly U Prod.snd (syscallHandlerOpen replies pathname flags) := by
  induction replies generalizing flags with
  | nil => exact openWith_orderly pathname flags (fetchFromHost_orderly pathname none fun _ _ _ => trivial)
  | cons r rs ih => exact openWith_orderly pathname flags (fetchFromHost_orderly pathname (some r) (ih _))

/-! ### Every call -/

/-- What a call reports to have written. -/
def Call.writes (s : Fs) : Call → List FileWrite
  | .open pathname flags replies =>
    match syscallHandlerOpen replies pathname flags s with
    | .ok (r, _) => r.2
    | .error _ => []
  | .write fd iov =>
    match syscallHandlerWritev fd iov s with
    | .ok (.ok r, _) => r.2
    | _ => []
  | .pwrite fd iov offset =>
    match syscallHandlerPwritev fd iov offset s with
    | .ok (.ok r, _) => r.2
    | _ => []
  | _ => []

/-- The writes of the call end below `2 ^ 63`. -/
def Call.Ends (c : Call) (s : Fs) : Prop := ∀ w ∈ c.writes s, w.Ends

theorem pwritev_worked (h : Wf s T U) (fd : ℤ) (iov : List (List UInt8)) (offset : ℤ) :
    wp (syscallHandlerPwritev fd iov offset) (fun r t => WritesEnd r → Worked s t T U) (fun _ => True) s :=
  withFile_worked h fd fun f _ _ hwf => wp_found fun _ _ => wp_ite (fun _ _ => Worked.refl hwf) fun _ =>
    wp_ite (fun _ => sysWrite_worked hwf f iov offset) fun _ _ => Worked.refl hwf

theorem withFile_worked_all {α : Type} (h : Wf s T U) (fd : ℤ) {op : ℕ → FsM (Except Errno α)}
    (hop : ∀ f u T, Wf u T U → wp (op f) (fun _ t => Worked u t T U) (fun _ => True) u) :
    wp (withFile fd op) (fun _ t => Worked s t T U) (fun _ => True) s := by
  refine wp_mono (withFile_worked (P := fun _ => True) h fd fun f x _ hwf => ?_) fun _ _ ht => ht trivial
  exact wp_mono (hop f _ _ hwf) fun _ _ ht _ => ht

theorem readv_worked (h : Wf s T U) (fd : ℤ) (lens : List ℕ) :
    wp (syscallHandlerReadv fd lens) (fun _ t => Worked s t T U) (fun _ => True) s :=
  withFile_worked_all h fd fun f _ _ hwf => wp_found fun _ _ => wp_ite (fun _ => sysRead_worked hwf f lens (-1))
    fun _ => Worked.refl hwf

theorem preadv_worked (h : Wf s T U) (fd : ℤ) (lens : List ℕ) (offset : ℤ) :
    wp (syscallHandlerPreadv fd lens offset) (fun _ t => Worked s t T U) (fun _ => True) s :=
  withFile_worked_all h fd fun f _ _ hwf => wp_found fun _ _ => wp_ite (fun _ => Worked.refl hwf) fun _ =>
    wp_ite (fun _ => sysRead_worked hwf f lens offset) fun _ => Worked.refl hwf

theorem getdentsLoop_worked (h : Wf s T U) (fd : ℤ) (n : ℕ) (entries : List Dirent) :
    wp (getdentsLoop fd n entries) (fun _ t => Worked s t T U) (fun _ => True) s := by
  induction n generalizing s entries with
  | zero => exact Worked.refl h
  | succ n ih =>
    unfold getdentsLoop readdirR
    rw [bind_assoc, wp_bind]
    refine wp_mono (withFile_worked_all h fd fun f _ _ hwf => sysReaddir_worked hwf f) fun r t ht => ?_
    rcases r with e | entry
    · cases e <;> exact ht
    · exact wp_mono (ih ht.wf _) fun _ u hu => ht.trans hu

theorem DupPost.carried {fd r : ℤ} (h : Wf s T U) (hp : DupPost s T U fd r t) : Carried s t T U := by
  cases hp with
  | closed => exact (Worked.refl h).carried
  | done _ hn =>
    cases hn with
    | free _ hwf hsub => exact Carried.of_sub hwf hsub
    | full _ hwf hsub => exact ⟨⟨_, fun i => (le_give T _ i).trans (le_give _ _ i), hwf⟩, hsub.away⟩

theorem fcntl_carried (h : Wf s T U) (fd : ℤ) (cmd : ℕ) (arg : Flags) :
    wp (syscallHandlerFcntl fd cmd arg) (fun _ t => Carried s t T U) (fun _ => True) s := by
  have hdup (cloexec : Bool) :
      wp (syscallHandlerDupfd fd cloexec) (fun _ t => Carried s t T U) (fun _ => True) s :=
    wp_mono_fault (dupfd_wf h fd cloexec) (fun _ _ ht => ht.carried h) fun _ _ => trivial
  unfold syscallHandlerFcntl
  refine wp_ite (fun _ => hdup false) fun _ => wp_ite (fun _ => hdup true) fun _ => ?_
  rw [wp_bind]
  refine wp_mono_fault (h.getFile_wp fd) (fun r t ht => ?_) fun _ _ => trivial
  cases r with
  | none =>
    obtain ⟨rfl, -⟩ := ht
    exact (Worked.refl h).carried
  | some f =>
    obtain ⟨x, hx, rfl⟩ := ht
    simp only
    rw [wp_bind]
    refine wp_mono (fcntlFile_worked (h.hold hx.file) f cmd arg) fun r t ht => ?_
    obtain ⟨w, hw⟩ := Option.isSome_iff_exists.mp (ht.wf.temp (give_pos T f))
    rw [wp_bind]
    refine wp_mono (ht.wf.fdrop_wp (give_pos ..)) fun _ u hu => ?_
    rw [take_give] at hu
    have hsub : FilesSub s (s.setFile f (hold x)) := FilesSub.setFile hx.file rfl
    exact Carried.of_sub hu.1 ((hsub.trans ht.sub).trans (hu.2.filesSub hw))

/-- `unlinkat` is a call of its own: it makes a dentry stale. -/
def Call.Unlinks : Call → Prop
  | .unlinkat _ => True
  | _ => False

/-- **Every call but `unlinkat` leaves the state in order**, if its writes end below `2 ^ 63`. -/
theorem exec_carried (h : Wf s T U) {c : Call} (hc : ¬ c.Unlinks) :
    wp (exec c) (fun _ t => c.Ends s → Carried s t T U) (fun _ => True) s := by
  cases c with
  | «open» pathname flags replies =>
    refine (wp_bind ..).mpr (wp_mono (wp_run (open_orderly replies pathname flags s T h)) fun r t ht hends => ?_)
    rw [Call.Ends, Call.writes, ht.1] at hends
    exact ht.2 hends
  | read fd lens => exact (wp_bind ..).mpr (wp_mono (readv_worked h fd lens) fun _ _ ht _ => ht.carried)
  | pread fd lens offset =>
    exact (wp_bind ..).mpr (wp_mono (preadv_worked h fd lens offset) fun _ _ ht _ => ht.carried)
  | write fd iov =>
    refine (wp_bind ..).mpr (wp_mono (wp_run (writev_worked h fd iov)) fun r t ht hends => (ht.2 ?_).carried)
    rw [Call.Ends, Call.writes, ht.1] at hends
    cases r with
    | error e => exact trivial
    | ok r => exact hends
  | pwrite fd iov offset =>
    refine (wp_bind ..).mpr (wp_mono (wp_run (pwritev_worked h fd iov offset)) fun r t ht hends => (ht.2 ?_).carried)
    rw [Call.Ends, Call.writes, ht.1] at hends
    cases r with
    | error e => exact trivial
    | ok r => exact hends
  | lseek fd off whence =>
    exact (wp_bind ..).mpr (wp_mono (withFile_worked_all h fd fun f _ _ hwf => sysLseek_worked hwf f off whence)
      fun _ _ ht _ => ht.carried)
  | fstat fd =>
    exact (wp_bind ..).mpr (wp_mono (withFile_worked_all h fd fun f _ _ hwf => sysFstat_worked hwf f)
      fun _ _ ht _ => ht.carried)
  | ftruncate fd length =>
    exact (wp_bind ..).mpr (wp_mono (withFile_worked_all h fd fun f _ _ hwf => sysFtruncate_worked hwf f length)
      fun _ _ ht _ => ht.carried)
  | fsync fd =>
    exact (wp_bind ..).mpr (wp_mono (withFile_worked_all h fd fun f _ _ hwf => sysFsync_worked hwf f)
      fun _ _ ht _ => ht.carried)
  | fcntl fd cmd arg => exact wp_mono (fcntl_carried h fd cmd arg) fun _ _ ht _ => ht
  | getdents fd dirp count =>
    exact (wp_bind ..).mpr (wp_ite (fun _ _ => (Worked.refl h).carried) fun _ =>
      wp_mono (getdentsLoop_worked h fd count []) fun _ _ ht _ => ht.carried)
  | close fd =>
    refine wp_mono_fault (close_wf h fd) (fun _ t ht _ => ?_) fun _ _ => trivial
    exact Carried.of_sub (ht.wf h).1 (ht.wf h).2
  | unlinkat pathname => exact absurd trivial hc

/-- **`unlinkat`** makes the dentry of the name stale, and leaves the files as they are. -/
theorem unlinkat_wf (h : Wf s T U) (pathname : Str) :
    wp (syscallHandlerUnlinkat pathname) (fun r t => Framed s t ∧ t.files = s.files ∧ match r with
      | .error _ => Wf t T U
      | .ok _ => (∀ c ∈ nameOf pathname, IsName c) ∧ ∃ d, Wf t T (insert d U) ∧
          ∀ e, 1 ≤ s.openRefs e → (Placed s e (nameOf pathname) ↔ e = d))
      (fun e => e = .panic ∧ ¬ Plenty s) s := by
  unfold syscallHandlerUnlinkat
  rw [wp_bind]
  refine wp_mono (taskConv_wp h pathname) fun r t ht => ?_
  obtain ⟨rfl, ht⟩ := ht
  cases r with
  | error e => exact ⟨Framed.refl _, rfl, h⟩
  | ok path =>
    refine wp_mono (sysUnlink_wp ht h.cache) fun r u hu => ?_
    obtain ⟨hg, hu⟩ := hu
    refine ⟨hg.framed, hg.files, ?_⟩
    cases r with
    | error e => exact h.of_framed hg.framed hg.files hu.1
    | ok _ =>
      obtain ⟨d, hc, hd, -⟩ := hu
      exact ⟨ht.names, d, h.of_framed hg.framed hg.files hc, hd⟩

/-- **Every call leaves the state in order**, if its writes end below `2 ^ 63`. -/
theorem exec_wf (h : Wf s T U) (c : Call) :
    wp (exec c) (fun _ t => c.Ends s → ∃ T' U', T ≤ T' ∧ U ⊆ U' ∧ Wf t T' U') (fun _ => True) s := by
  by_cases hc : c.Unlinks
  · cases c with
    | unlinkat pathname =>
      refine (wp_bind ..).mpr (wp_mono_fault (unlinkat_wf h pathname) (fun r t ht _ => ?_) fun _ _ => trivial)
      cases r with
      | error e => exact ⟨T, U, le_rfl, subset_rfl, ht.2.2⟩
      | ok _ =>
        obtain ⟨-, -, -, d, hwf, -⟩ := ht
        exact ⟨T, insert d U, le_rfl, Set.subset_insert d U, hwf⟩
    | _ => exact hc.elim
  · refine wp_mono (exec_carried h hc) fun r t ht hends => ?_
    obtain ⟨⟨T', hT, hwf⟩, -⟩ := ht hends
    exact ⟨T', U, hT, subset_rfl, hwf⟩

/-- The state after `vfs_init` is in order. -/
theorem wf_init (mem : ℕ → Answer) (addr : ℕ → ℕ) (around : ℤ → Bool) : Wf (Fs.init mem addr around) (fun _ => 0) ∅ := by
  have hfile {f : ℕ} {x : VFile} (hx : (Fs.init mem addr around).files f = some x) : f = 3 ∧ x = ⟨3, 2, 0, none⟩ := by
    simpa [Fs.init, eq_comm] using hx
  have hslot {fd f : ℕ} (hs : (Fs.init mem addr around).slots fd = some f) : fd < 3 ∧ f = 3 := by
    simpa [Fs.init, eq_comm] using hs
  have hrefs : (Fs.init mem addr around).openRefs = fun _ => 0 := by
    funext d
    refine held_eq_zero.mpr fun f _ hown => ?_
    obtain ⟨x, hx, hd⟩ := Option.bind_eq_some_iff.mp hown
    rw [(hfile hx).2] at hd
    cases hd
  have hin (f : ℕ) : (Fs.init mem addr around).inSlots f = 0 := by
    refine held_eq_zero.mpr fun fd _ hown => ?_
    rw [slotOwn] at hown
    split at hown
    · exact absurd (hslot hown).1 (not_lt.mpr ‹_›)
    · cases hown
  refine ⟨?_, ?_, ?_, ?_, ?_, ?_, ?_, ?_, ?_, ?_, ?_, rfl⟩
  · rw [hrefs]
    exact Cache.init mem addr around
  · intro f hf
    exact if_neg (Nat.ne_of_gt (Nat.lt_of_lt_of_le (show 3 < 4 by norm_num) hf))
  · intro fd
    show decide (fd < 3) = (if fd < 3 then some 3 else none : Option ℕ).isSome
    split <;> simp [*]
  · intro fd f hs
    have := (hslot hs).1
    have : (3 : ℕ) < fdtableMaxFiles := by decide
    omega
  · intro fd f hs
    rw [(hslot hs).2]
    rfl
  · intro fd hfd
    exact if_pos hfd
  · exact ⟨_, rfl, rfl⟩
  · intro f x hx hne
    exact absurd (hfile hx).1 hne
  · intro f x hx
    obtain ⟨rfl, rfl⟩ := hfile hx
    rw [hin]
    rfl
  · intro f x hx
    rw [(hfile hx).2]
    norm_num
  · intro f hf
    exact absurd hf (lt_irrefl 0)

end Fs
end Coffer
