/-
# A fetch from the host

`fetch_from_host` makes the directories, opens the file with `O_WRONLY | O_CREAT`, receives the bytes and writes them. The
result of the write is overwritten by that of the close, and the file is not truncated. So once the file is open and there
is a buffer for the bytes the fetch returns 0, and the file is what the host sent exactly if the write is done and the file
was not longer before, or the write is not done and the file had these bytes already (`fetch_exact_iff`).

This is with a free descriptor. An `open` then returns it with a new file object at position 0, whatever the host sent and
the nested fetches did (`open_free`).

Key definitions: `fetchFromHostRet`, `fetchOpen`, `Written`, `Exact`.
Key theorems: `open_free`, `fetch_exact_iff`.
-/
import Coffer.Vfs.Position
import Coffer.Vfs.Accounting

namespace Coffer

/-- The bytes of the file on the host. -/
def HostReply.bytes (r : HostReply) : List UInt8 := (List.range r.size).map r.data

/-! ### A write from the start of a file -/

namespace RamFile

variable {f f' : RamFile} {copies : List Copy} {data : List UInt8} {a : Answer}

/-- `ramfs_write` of some bytes at 0. -/
theorem write_start (hsize : f.rnSize = toU64 f.vSize) (hlen : data.length < 2 ^ 31) (hne : data ≠ []) :
    f.write 0 data false a =
      if f.rnSize < data.length then
        match f.expand data.length a with
        | .error e => .error e
        | .ok (g, cs) => .ok ((g.uiomove 0 data).1, cs ++ [(g.uiomove 0 data).2])
      else .ok ((f.uiomove 0 data).1, [(f.uiomove 0 data).2]) := by
  have hadd : add64 (toU64 0) data.length = data.length := by
    rw [show toU64 0 = 0 from rfl, add64_eq (by omega), zero_add]
  have hoff : toOff (0 + data.length) = data.length := by
    rw [zero_add, toOff_eq (by omega) (by omega)]
  unfold write
  rw [if_neg (by decide), if_neg (by decide), if_neg hne]
  simp only [writeOffset, Bool.false_eq_true, if_false]
  rw [hadd, hoff]
  by_cases hlt : f.rnSize < data.length
  · refine (if_pos (hsize ▸ hlt)).trans (Eq.trans ?_ (if_pos hlt).symm)
    rcases f.expand data.length a with e | ⟨g, cs⟩ <;> rfl
  · rw [if_neg (hsize ▸ hlt), if_neg hlt]

theorem expand_buf (hbuf : 0 < f.rnBufsize → f.rnBuf.isSome) {n : ℕ} (hn : 0 < n) (hr : f.expand n a = .ok (f', copies)) :
    f'.rnBuf.isSome := by
  unfold expand at hr
  split at hr
  · split at hr
    · cases hr
    · simp only [Except.ok.injEq, Prod.mk.injEq] at hr
      rw [← hr.1, setSize, replaceBuf]
      split <;> rfl
  · rename_i hle
    simp only [Except.ok.injEq, Prod.mk.injEq] at hr
    rw [← hr.1]
    refine hbuf (Nat.pos_of_ne_zero fun h0 => hle ?_)
    rw [h0, show toOff ((0 : ℕ) : ℤ) = 0 from rfl]
    exact_mod_cast hn

theorem expand_fails_iff (n : ℕ) : (∃ e, f.expand n a = .error e) ↔ toOff f.rnBufsize < n ∧ a.granted = false := by
  unfold expand Answer.calloc
  by_cases h : toOff f.rnBufsize < n
  · cases hg : a.granted <;> simp [h]
  · simp [h]

theorem uiomove_start (hlen : data.length < 2 ^ 31) (hbuf : f.rnBuf.isSome) (i : ℕ) :
    (f.uiomove 0 data).1.bytes i = if i < data.length then data.getD i 0 else f.bytes i := by
  obtain ⟨buf, hb⟩ := Option.isSome_iff_exists.mp hbuf
  simp only [uiomove, bytes, hb, Option.map_some, Option.getD_some, uiomoveCount_eq hlen, show toU64 0 = 0 from rfl,
    Nat.zero_le, true_and, zero_add, Nat.sub_zero]

/-- **A write at 0** replaces the first bytes, and leaves the others. -/
theorem write_start_contents (hsize : f.rnSize = toU64 f.vSize) (hbuf : 0 < f.rnBufsize → f.rnBuf.isSome)
    (hshown : 0 < f.rnSize → f.rnBuf.isSome) (hlen : data.length < 2 ^ 31) (hne : data ≠ [])
    (hr : f.write 0 data false a = .ok (f', copies)) : f'.contents = data ++ f.contents.drop data.length := by
  have hpos : 0 < data.length := List.length_pos_iff.mpr hne
  -- the buffer the bytes go to, and its size
  obtain ⟨g, hg, hgsize, hkept, rfl⟩ : ∃ g : RamFile, g.rnBuf.isSome ∧ g.rnSize = max f.rnSize data.length ∧
      (data.length < f.rnSize → g = f) ∧ f' = (g.uiomove 0 data).1 := by
    rw [write_start hsize hlen hne] at hr
    split at hr
    · rename_i hlt
      rcases hx : f.expand data.length a with e | ⟨g, cs⟩
      · rw [hx] at hr
        cases hr
      · rw [hx] at hr
        simp only [Except.ok.injEq, Prod.mk.injEq] at hr
        refine ⟨g, expand_buf hbuf hpos hx, ?_, fun hlt' => absurd hlt hlt'.not_gt, hr.1.symm⟩
        rw [(expand_size hx).1, toU64_nat (by omega), max_eq_right hlt.le]
    · rename_i hge
      simp only [Except.ok.injEq, Prod.mk.injEq] at hr
      exact ⟨f, hshown (by omega), (max_eq_left (by omega)).symm, fun _ => rfl, hr.1.symm⟩
  refine List.ext_getElem? fun i => ?_
  rw [getElem?_contents, show (g.uiomove 0 data).1.rnSize = g.rnSize from rfl, hgsize, uiomove_start hlen hg]
  by_cases hi : i < data.length
  · rw [if_pos (lt_max_of_lt_right hi), if_pos hi, List.getElem?_append_left hi, List.getD_eq_getElem?_getD,
      List.getElem?_eq_getElem hi]
    rfl
  · rw [if_neg hi, List.getElem?_append_right (not_lt.mp hi), List.getElem?_drop, getElem?_contents,
      Nat.add_sub_cancel' (not_lt.mp hi)]
    by_cases hlt : i < f.rnSize
    · rw [if_pos (lt_max_of_lt_left hlt), if_pos hlt, hkept (by omega)]
    · rw [if_neg hlt, if_neg (by omega)]

theorem write_start_fails_iff (hsize : f.rnSize = toU64 f.vSize) (hlen : data.length < 2 ^ 31) (hne : data ≠ []) :
    (∃ e, f.write 0 data false a = .error e) ↔
      f.rnSize < data.length ∧ toOff f.rnBufsize < data.length ∧ a.granted = false := by
  rw [write_start hsize hlen hne, ← expand_fails_iff]
  by_cases hlt : f.rnSize < data.length
  · rcases f.expand data.length a with e | ⟨g, cs⟩ <;> simp [hlt]
  · simp [hlt]

end RamFile

namespace Fs

open Lib Lib.Cmd

variable {s t u : Fs} {T : ℕ → ℕ} {U : Set ℕ} {cs : List Str} {d f i : ℕ} {x : VFile} {fd : ℤ} {data : List UInt8}

/-- A write of `len` bytes at the start of the file is done: it is within `IOSIZE_MAX`, and there is memory if the buffer
is too small. -/
def Written (s : Fs) (cs : List Str) (len : ℕ) : Prop :=
  len < 2 ^ 31 ∧ ∀ n z, s.resolve 0 cs = some n → s.nodes n = some z → z.rnSize < len → toOff z.rnBufsize < len →
    (s.mem s.asked).granted = true

/-- A write of `data` leaves the file with just these bytes. -/
def Exact (s : Fs) (cs : List Str) (data : List UInt8) : Prop :=
  ∃ old, s.view cs = some (.reg, old) ∧ (Written s cs data.length → old.length ≤ data.length) ∧
    (¬ Written s cs data.length → old = data)

theorem At.view {y : Dentry} {v : Vnode} {n : RamNode} (h : At s d cs y v n) : s.view cs = some (n.rnType, n.contents) :=
  view_eq h.resolve h.node

/-- The view with `data` at the start of the file. -/
def writeView (v : View) (cs : List Str) (data : List UInt8) : View :=
  match v cs with
  | some (.reg, old) => Function.update v cs (some (.reg, data ++ old.drop data.length))
  | _ => v

theorem writeView_reg {v : View} {old : List UInt8} (h : v cs = some (.reg, old)) (data : List UInt8) :
    writeView v cs data = Function.update v cs (some (.reg, data ++ old.drop data.length)) := by
  rw [writeView, h]

/-- What a write of `data` at the start of the file leaves of the view. -/
def WroteStart (s t : Fs) (cs : List Str) (data : List UInt8) : Prop :=
  (Written s cs data.length → t.view = writeView s.view cs data) ∧ (¬ Written s cs data.length → t.view = s.view)

theorem WroteStart.exact_iff (h : WroteStart s t cs data) : t.view cs = some (.reg, data) ↔ Exact s cs data := by
  unfold Exact
  by_cases hW : Written s cs data.length
  · rw [h.1 hW]
    rcases hv : s.view cs with _ | ⟨type, old⟩
    · simp [writeView, hv]
    · cases type <;> simp [writeView, hv, hW]
  · simp [h.2 hW, hW]

theorem At.written_iff {y : Dentry} {v : Vnode} {n : RamNode} (h : At s d cs y v n) {len : ℕ} :
    Written s cs len ↔ len < 2 ^ 31 ∧ (n.rnSize < len → toOff n.rnBufsize < len → (s.mem s.asked).granted = true) := by
  refine and_congr_right fun _ => ⟨fun hw => hw _ _ h.resolve h.node, fun hw m z hm hz => ?_⟩
  rw [h.resolve] at hm
  cases hm
  rw [h.node] at hz
  cases hz
  exact hw

theorem rwChecks_one (len : ℕ) : rwChecks true [len] = if len < 2 ^ 31 then .ok len else .error .einval := by
  unfold rwChecks iovTotal iovTotal
  rw [if_neg (by decide), zero_add]
  by_cases h : len < 2 ^ 31
  · rw [if_pos h, if_neg (by omega)]
  · rw [if_neg h, if_pos (by omega)]

namespace RegFd

variable {s : Fs} {fd : ℤ} (R : RegFd s fd)

/-- What a write at the start of the file leaves of it. -/
theorem writeOut_view (h : Tree s) (ha : At s R.d cs R.y R.v R.n) (hok : R.n.Ok) (h0 : R.x.fOffset = 0)
    (hw : Flags.has R.x.fFlags ukFwrite = true) (happ : Flags.has R.x.fFlags oAppend = false) (data : List UInt8) :
    WritesEnd (R.writeOut [data] (-1)).1 ∧ WroteStart s (R.writeOut [data] (-1)).2 cs data := by
  have hreg : R.n.rnType = .reg := ha.type.symm.trans R.reg
  have hview : s.view cs = some (.reg, R.n.contents) := by rw [ha.view, hreg]
  have hchecks : R.writeChecks [data] = if data.length < 2 ^ 31 then .ok data.length else .error .einval := by
    rw [writeChecks, if_neg (by omega), hw]
    exact rwChecks_one data.length
  have hflat : [data].flatten = data := by simp
  have happly : (R.fileWrite [data] (-1)).apply R.file = R.file.write 0 data false (s.mem s.asked) := by
    show R.file.write (uioOffset R.x (-1)) [data].flatten (Flags.has R.x.fFlags oAppend) _ = _
    rw [hflat, happ, uioOffset, if_pos rfl, h0]
    rfl
  have hsize : R.file.rnSize = toU64 R.file.vSize := ha.size
  rcases R.writeOut_cases [data] (-1) with ⟨e, hc, ho⟩ | ⟨hc, ho⟩ | ⟨bytes, e, hc, hr, ho⟩ | ⟨bytes, file, copies, hc, hr, ho⟩
  · -- more bytes than `IOSIZE_MAX`
    rw [ho]
    refine ⟨trivial, fun hW => ?_, fun _ => rfl⟩
    rw [hchecks, if_pos hW.1] at hc
    cases hc
  · rw [ho]
    refine ⟨fun w hw => absurd hw (List.not_mem_nil), fun _ => ?_, fun _ => rfl⟩
    have hnil : data = [] := by
      rw [hchecks] at hc
      split at hc
      · exact List.length_eq_zero_iff.mp (Except.ok.inj hc)
      · cases hc
    rw [writeView_reg hview, hnil, List.nil_append, List.length_nil, List.drop_zero, ← hview, Function.update_eq_self]
  all_goals
    have hlt : data.length < 2 ^ 31 ∧ data ≠ [] := by
      rw [hchecks] at hc
      split at hc
      · refine ⟨‹_›, fun hnil => ?_⟩
        rw [hnil] at hc
        cases hc
      · cases hc
    have hfails := RamFile.write_start_fails_iff (a := s.mem s.asked) hsize hlt.1 hlt.2
    rw [happly] at hr
  · -- no memory for a larger buffer
    rw [ho]
    refine ⟨trivial, fun hW => ?_, fun _ => view_of_nodes rfl⟩
    obtain ⟨h1, h2, h3⟩ := hfails.mp ⟨e, hr⟩
    have := (ha.written_iff.mp hW).2 h1 h2
    rw [h3] at this
    cases this
  · rw [ho]
    refine ⟨?_, fun _ => ?_, fun hno => absurd ?_ hno⟩
    · intro w hw
      rw [List.mem_singleton.mp hw]
      show (if Flags.has R.x.fFlags oAppend = true then _ else uioOffset R.x (-1)) + ([data].flatten.length : ℤ) < 2 ^ 63
      rw [happ, hflat, uioOffset, if_pos rfl, h0, if_neg (by decide)]
      have := hlt.1
      omega
    · set a := R.writeAsked [data] (-1)
      have hask : Tree a := SameShape.tree (s := s) (SameShape.of_eq rfl) h (le_refl _)
      have hres : a.resolve 0 cs = some R.v.vData :=
        ((SameShape.of_eq (s := s) (t := a) rfl).resolve 0 cs).trans ha.resolve
      have hcontents : file.contents = data ++ R.n.contents.drop data.length :=
        RamFile.write_start_contents hsize hok.buf hok.shown hlt.1 hlt.2 hr
      rw [view_of_nodes (s := a.setRamFile R.y.dVnode R.v R.n file) (t := Fs.setFile _ _ _) rfl,
        view_setRamFile (s := a) hask ha.node hres, hreg, hcontents, writeView_reg hview,
        view_of_nodes (s := s) (t := a) rfl]
    · refine ha.written_iff.mpr ⟨hlt.1, fun h1 h2 => ?_⟩
      by_contra h3
      obtain ⟨e, he⟩ := hfails.mpr ⟨h1, h2, by simpa using h3⟩
      rw [hr] at he
      cases he

end RegFd

/-- **A write at the start of a file** that is open to write. It returns. -/
theorem writev_start (h : Wf u T U) (hx : Opened u fd f x) (hd : x.fDentry = some d) (h0 : x.fOffset = 0)
    (hw : Flags.has x.fFlags ukFwrite = true) (happ : Flags.has x.fFlags oAppend = false) (hp : Placed u d cs)
    (data : List UInt8) : wp (syscallHandlerWritev fd [data])
      (fun _ t => Worked u t T U ∧ WroteStart u t cs data) (fun _ => False) u := by
  obtain ⟨y, v, n, ha⟩ := h.cache.names.at hp
  by_cases hreg : v.vType = .reg
  · let R : RegFd u fd := ⟨f, x, d, y, v, n, hx, hd, ha.dentry, ha.vnode, hreg, ha.node⟩
    obtain ⟨hends, hview⟩ := R.writeOut_view h.cache.names.tree ha (h.cache.names.ok ha.node) h0 hw happ data
    have hrun := R.writev_eq [data]
    rw [wp_ok hrun]
    exact ⟨of_wp (writev_worked h fd [data]) hrun hends, hview⟩
  · -- a directory: nothing is written
    have hcall : getFile f (u.setFile f (hold x)) = .ok (hold x, u.setFile f (hold x)) := getFile_ok (setFile_self ..)
    have hsys : ∃ r, sysWrite f [data] (-1) (u.setFile f (hold x)) = .ok (r, u.setFile f (hold x)) := by
      rw [sysWrite, bind_of_ok hcall]
      rcases rwChecks (Flags.has (hold x).fFlags ukFwrite) ([data].map List.length) with e | _ | bytes
      · exact ⟨_, rfl⟩
      · exact ⟨_, rfl⟩
      · simp only [hold_fDentry, hd]
        rw [bind_of_ok (getDentry_ok (s := u.setFile f (hold x)) ha.dentry),
          bind_of_ok (getVnode_ok (s := u.setFile f (hold x)) ha.vnode)]
        cases hv : v.vType with
        | dir => exact ⟨_, rfl⟩
        | lnk => exact ⟨_, rfl⟩
        | reg => exact absurd hv hreg
    obtain ⟨r, hsys⟩ := hsys
    have hrun : syscallHandlerWritev fd [data] u = .ok (r, u) := by
      have hop : (do let x ← getFile f; if offsetOk x then sysWrite f [data] (-1) else pure (.error .einval) :
          FsM (Except Errno (ℕ × List FileWrite))) (u.setFile f (hold x)) = .ok (r, u.setFile f (hold x)) := by
        rw [bind_of_ok hcall, if_pos (by simp [offsetOk, h0])]
        exact hsys
      have hend := hx.withFile (fun f => do
        let x ← getFile f
        if offsetOk x then sysWrite f [data] (-1) else pure (.error .einval)) hop (setFile_self ..) hx.count
      rw [setFile_setFile, setFile_eq hx.file] at hend
      exact hend
    have hview : writeView u.view cs data = u.view := by
      rw [writeView, ha.view, ← ha.type]
      cases hv : v.vType with
      | reg => exact absurd hv hreg
      | dir => rfl
      | lnk => rfl
    rw [wp_ok hrun]
    exact ⟨Worked.refl h, fun _ => hview.symm, fun _ => rfl⟩

/-! ### On the view -/

/-- `open` for writing, as the fetch does it. -/
def oFetch : Flags := oWronly ||| oCreat

instance {path : Str} {cs : List Str} : Decidable (EndsSlash path cs) := inferInstanceAs (Decidable (_ ∧ _))

open Classical in
/-- `syscall_handler_open` with a free descriptor and memory: whether the file is open, and the view. -/
noncomputable def openWithView (path : Str) (cs : List Str) (flags : Flags) (fetch : View → Option View) (v : View) :
    Option (Bool × View) :=
  if OpenRefused v path cs flags then
    (fetch v).map fun w =>
      if OpenRefused w path cs flags then (false, w) else (true, cutView (addView w cs .reg) cs flags)
  else some (true, cutView (addView v cs .reg) cs flags)

/-- `fetch_from_host`. -/
def fetchView (pathname : Str) (reply : Option HostReply) (openAgain : View → Option (Bool × View)) (v : View) :
    Option View :=
  if noCopy pathname then some v
  else
    match reply with
    | none => none
    | some r =>
      if r.size = 2 ^ 64 - 1 then some v
      else ((mkdirFetchView v pathname r.stack).bind openAgain).bind fun p =>
        if p.1 = false then none
        else some (if r.size < 2 ^ 31 then writeView p.2 (nameOf pathname) r.bytes else p.2)

/-- `open`, given the replies of the host. -/
noncomputable def openView (pathname path : Str) : List HostReply → Flags → View → Option (Bool × View)
  | [], flags => openWithView path (nameOf pathname) (vfscoreFflags flags) (fetchView pathname none fun _ => none)
  | r :: rs, flags => openWithView path (nameOf pathname) (vfscoreFflags flags)
      (fetchView pathname (some r) (openView pathname path rs oFetch))

/-- The allocator goes on as it did. -/
structure Later (s t : Fs) : Prop where
  mem : t.mem = s.mem
  asked : s.asked ≤ t.asked

namespace Later

theorem refl (s : Fs) : Later s s := ⟨rfl, le_refl _⟩

theorem trans (a b c : Fs) (h : Later a b) (h' : Later b c) : Later a c :=
  ⟨h'.mem.trans h.mem, h.asked.trans h'.asked⟩

theorem plenty (h : Later s t) (hp : Plenty s) : Plenty t := fun i hi => by
  rw [h.mem]
  exact hp i (h.asked.trans hi)

theorem of_modify {f : Fs → Fs} (hm : ∀ s, (f s).mem = s.mem) (ha : ∀ s, s.asked ≤ (f s).asked) :
    Keeps Later (modify f : FsM Unit) := fun s => ⟨hm s, ha s⟩

theorem table : TableRules fun _ m => Keeps Later m where
  pure a := Keeps.of_pure refl a
  bind h hk := Keeps.of_bind trans h hk
  fault _ := Keeps.of_fault _
  get := Keeps.of_get refl
  find f := Keeps.of_load refl f _
  putDentry _ _ := of_modify (fun _ => rfl) fun _ => le_refl _
  putVnode _ _ := of_modify (fun _ => rfl) fun _ => le_refl _
  setHash _ := of_modify (fun _ => rfl) fun _ => le_refl _
  kmalloc := fun s => ⟨rfl, Nat.le_succ s.asked⟩
  newId := fun s => ⟨rfl, le_refl s.asked⟩
  putFile _ _ := of_modify (fun _ => rfl) fun _ => le_refl _
  setTable _ _ := of_modify (fun _ => rfl) fun _ => le_refl _

end Later

theorem Framed.later (h : Framed s t) : Later s t := ⟨h.mem, h.asked⟩

/-! ### An open with a free descriptor -/

/-- The state is in order, with the descriptors of `s`. -/
structure Between (s : Fs) (T : ℕ → ℕ) (U : Set ℕ) (t : Fs) : Prop extends Later s t where
  wf : Wf t T U
  slots : t.slots = s.slots
  bitmap : t.bitmap = s.bitmap

theorem Between.refl (h : Wf s T U) : Between s T U s := ⟨Later.refl s, h, rfl, rfl⟩

theorem Between.framed (h : Between s T U t) (hwf : Wf u T U) (hst : Framed t u) : Between s T U u :=
  ⟨h.toLater.trans _ _ _ hst.later, hwf, hst.slots.trans h.slots, hst.bitmap.trans h.bitmap⟩

theorem Between.freeFd (h : Between s T U t) : t.freeFd = s.freeFd := by
  unfold Fs.freeFd
  rw [h.bitmap]

/-- The descriptor `i`, which was free, has a new file object for the name. -/
structure FreshFd (s t : Fs) (i : ℕ) (cs : List Str) (flags : Flags) (f d : ℕ) (x : VFile) : Prop where
  slots : t.slots = Function.update s.slots i (some f)
  bitmap : t.bitmap = Function.update s.bitmap i true
  file : t.files f = some x
  mode : SameMode x.fFlags (vfscoreFflags flags)
  offset : x.fOffset = 0
  dentry : x.fDentry = some d
  placed : Placed t d cs

/-- What `open` says after it, if the descriptor `i` was the first one free. -/
def OpenedFree (s : Fs) (T : ℕ → ℕ) (U : Set ℕ) (i : ℕ) (cs : List Str) (flags : Flags) (r : ℤ) (t : Fs) : Prop :=
  r < 0 ∧ Between s T U t ∨ r = i ∧ Wf t T U ∧ Later s t ∧ ∃ f d x, FreshFd s t i cs flags f d x

theorem openFd_fresh {flags : Flags} {path : Str} (h : Between s T U u) (hfree : s.freeFd = some i)
    (ho : OpenResult u u.openRefs U path cs (vfscoreFflags flags) (.ok f) t) {E : FsFault → Prop} :
    wp (openFd f) (fun r w => OpenedFree s T U i cs flags r w ∧ 0 ≤ r ∧ w.view = t.view) E t := by
  obtain ⟨d, fl, hself, hmode, hp, -, -, -, hwf⟩ := h.wf.open_ok ho
  have hfree' : t.freeFd = some i := by rw [freeFd_framed ho.1, h.freeFd, hfree]
  obtain ⟨hlt, hbit⟩ := freeFd_some hfree'
  have hwf' := hwf.install (give_pos ..) (hwf.tableOk i hbit) hlt
  rw [take_give] at hwf'
  have hstate : (t.addFd i f).setFile f ⟨fl, 1, 0, some d⟩ = t.addFd i f := setFile_eq (s := t.addFd i f) hself
  rw [wp_ok (openFd_free hwf.tableOk hself (le_refl _) hfree'), hstate]
  have hlater : Later s (t.addFd i f) := h.toLater.trans _ _ _ ⟨ho.1.mem, ho.1.asked⟩
  refine ⟨Or.inr ⟨rfl, hwf', hlater, f, d, _, ?_, ?_, hself, hmode, rfl, rfl, hp.mem, hp.names, hp.path⟩,
    Int.natCast_nonneg i, view_of_nodes rfl⟩
  · rw [← h.slots, ← ho.1.slots]
    rfl
  · rw [← h.bitmap, ← ho.1.bitmap]
    rfl

/-- **`syscall_handler_open`**, given what the fetch does. -/
theorem openWith_free (pathname path : Str) (flags : Flags) {fetch : FsM (List FileWrite)} {fetchV : View → Option View}
    (h : Wf s T U) (hfree : s.freeFd = some i)
    (hfetch : ∀ u, Between s T U u → wp fetch (fun _ t => Between s T U t ∧
      (Plenty s → pathConv ['/'] pathname = .ok (.ok path) → fetchV u.view = some t.view)) (fun _ => True) u) :
    wp (openWith pathname flags fetch) (fun r t => OpenedFree s T U i (nameOf pathname) flags r.1 t ∧
      (Plenty s → pathConv ['/'] pathname = .ok (.ok path) →
        openWithView path (nameOf pathname) (vfscoreFflags flags) fetchV s.view = some (decide (0 ≤ r.1), t.view)))
      (fun _ => True) s := by
  have hneg (e : Errno) : -e.code < 0 := by
    have := e.code_pos
    omega
  unfold openWith
  rw [wp_bind]
  refine wp_mono (wp_run (taskConv_wp h pathname)) fun r t ht => ?_
  obtain ⟨hconv, rfl, ht⟩ := ht
  have hpath (hp : pathConv ['/'] pathname = .ok (.ok path)) : r = .ok path := by
    rw [taskConv, h.cwd, hp] at hconv
    exact (Prod.mk.inj (Except.ok.inj hconv)).1.symm
  cases r with
  | error e => exact ⟨Or.inl ⟨hneg e, Between.refl h⟩, fun _ hp => by cases hpath hp⟩
  | ok path' =>
    rw [wp_bind]
    refine wp_mono_fault (sysOpen_wp ht h.cache h.fresh flags) (fun r u hu => ?_) fun _ _ => trivial
    cases r with
    | ok f =>
      rw [wp_bind]
      refine wp_mono (openFd_fresh (Between.refl h) hfree hu) fun r v hv => ⟨hv.1, fun _ hp => ?_⟩
      cases hpath hp
      obtain ⟨-, -, d, fl, -, -, -, -, -, -, hview, hok⟩ := hu
      rw [openWithView, if_neg hok, hv.2.2, hview, decide_eq_true hv.2.1]
    | error e =>
      have hbu := (Between.refl h).framed (h.open_error hu) hu.1
      rw [wp_bind]
      refine wp_mono (hfetch u hbu) fun ws v hv => ?_
      obtain ⟨hbv, hv⟩ := hv
      have hstart (hpl : Plenty t) (hp : pathConv ['/'] pathname = .ok (.ok path)) :
          OpenRefused t.view path' (nameOf pathname) (vfscoreFflags flags) ∧ fetchV t.view = some v.view := by
        obtain ⟨-, -, -, -, hview, hwhy⟩ := hu
        refine ⟨hwhy hpl, ?_⟩
        rw [← hview.resolve_right fun hno => hno.1 hpl]
        exact hv hpl hp
      rw [wp_bind]
      refine wp_mono_fault (sysOpen_wp ht hbv.wf.cache hbv.wf.fresh flags) (fun r w hw => ?_) fun _ _ => trivial
      cases r with
      | ok f =>
        rw [wp_bind]
        refine wp_mono (openFd_fresh hbv hfree hw) fun r z hz => ⟨hz.1, fun hpl hp => ?_⟩
        obtain ⟨hrefused, hfetched⟩ := hstart hpl hp
        cases hpath hp
        obtain ⟨-, -, d, fl, -, -, -, -, -, -, hview, hok⟩ := hw
        rw [openWithView, if_pos hrefused, hfetched, Option.map_some, if_neg hok, hz.2.2, hview,
          decide_eq_true hz.2.1]
      | error e =>
        refine ⟨Or.inl ⟨hneg e, hbv.framed (hbv.wf.open_error hw) hw.1⟩, fun hpl hp => ?_⟩
        obtain ⟨hrefused, hfetched⟩ := hstart hpl hp
        cases hpath hp
        obtain ⟨-, -, -, -, hview, hwhy⟩ := hw
        have hplv := hbv.plenty hpl
        rw [openWithView, if_pos hrefused, hfetched, Option.map_some, if_pos (hwhy hplv),
          hview.resolve_right fun hno => hno.1 hplv, decide_eq_false (not_le.mpr (hneg e))]

theorem Wf.free_ge (h : Wf s T U) (hfree : s.freeFd = some i) : 3 ≤ i := by
  by_contra hlt
  have hstd := h.stdio (not_le.mp hlt)
  rw [h.tableOk i (freeFd_some hfree).2] at hstd
  cases hstd

/-- The write and the close of a fetch. -/
theorem fetch_write {v : Fs} (h : Wf v T U) (hlater : Later s v) (h3 : 3 ≤ fd) (hnone : s.slots fd.toNat = none)
    (hbit : s.bitmap fd.toNat = false) (hx : FreshFd s v fd.toNat cs oFetch f d x) (data : List UInt8) :
    wp (syscallHandlerWritev fd [data]) (fun _ t =>
      wp (syscallHandlerClose fd) (fun e z => e = 0 ∧ Between s T U z ∧ WroteStart v z cs data) (fun _ => False) t)
      (fun _ => False) v := by
  have hslot : v.slots fd.toNat = some f := by
    rw [hx.slots, Function.update_self]
  obtain ⟨x', hopened⟩ := h.opened (by omega) hslot
  obtain rfl : x = x' := Option.some.inj (hx.file.symm.trans hopened.file)
  have hw : Flags.has x.fFlags ukFwrite = true := (hx.mode.has (by decide)).trans (by decide)
  have happ : Flags.has x.fFlags oAppend = false := (hx.mode.has (by decide)).trans (by decide)
  refine wp_mono (writev_start h hopened hx.dentry hx.offset hw happ hx.placed data) fun _ t ht => ?_
  obtain ⟨hworked, hview⟩ := ht
  have hslot' : t.slots fd.toNat = some f := by rw [hworked.framed.slots, hslot]
  obtain ⟨x', hopened'⟩ := hworked.wf.opened (by omega) hslot'
  refine wp_mono_fault (wp_keeps (Later.table.syscallHandlerClose fd) (close_wf hworked.wf fd)) (fun e z hz => ?_)
    fun e he => absurd ⟨hopened'.nonneg, hopened'.lt⟩ he.2.2
  obtain ⟨hz, hlz⟩ := hz
  cases hz with
  | stdio hstd => omega
  | closed hb =>
    rw [testBit_inside t hopened'.nonneg hopened'.lt, hopened'.bit] at hb
    cases hb
  | done _ _ hwf _ hnodes hslots hbitmap =>
    refine ⟨rfl, ⟨(hlater.trans _ _ _ hworked.framed.later).trans _ _ _ hlz, hwf, ?_, ?_⟩, ?_⟩
    · rw [hslots, hworked.framed.slots, hx.slots, Function.update_idem, ← hnone, Function.update_eq_self]
    · rw [hbitmap, hworked.framed.bitmap, hx.bitmap, Function.update_idem, ← hbit, Function.update_eq_self]
    · rw [WroteStart, view_of_nodes hnodes]
      exact hview

/-- The state in which a fetch writes: the file is open, and there is a buffer for the bytes. -/
def fetchOpen (pathname : Str) (r : HostReply) (openAgain : FsM (ℤ × List FileWrite)) : FsM (ℤ × List FileWrite) := do
  mkdirDirForFetch pathname r.stack
  let (fd, ws) ← openAgain
  if fd < 0 then Cmd.fault .panic
  else do
    let a ← kmalloc
    if a.granted = false then Cmd.fault .null
    else pure (fd, ws)

/-- The rest of a fetch. The result of the write is not looked at. -/
def fetchWrite (r : HostReply) (fd : ℤ) (ws : List FileWrite) : FsM (ℤ × List FileWrite) := do
  let w ← syscallHandlerWritev fd [(List.range r.size).map r.data]
  let error ← syscallHandlerClose fd
  if error ≠ 0 then Cmd.fault .panic
  else
    match w with
    | .error _ => pure (0, ws)
    | .ok (_, w) => pure (0, ws ++ w)

/-- `fetch_from_host` with the value it returns. -/
def fetchFromHostRet (pathname : Str) (r : HostReply) (openAgain : FsM (ℤ × List FileWrite)) :
    FsM (ℤ × List FileWrite) :=
  if noCopy pathname then pure (-Errno.enoent.code, [])
  else if r.size = 2 ^ 64 - 1 then pure (-Errno.enoent.code, [])
  else do
    let (fd, ws) ← fetchOpen pathname r openAgain
    fetchWrite r fd ws

theorem fetchFromHost_eq (pathname : Str) (r : HostReply) (openAgain : FsM (ℤ × List FileWrite)) :
    fetchFromHost pathname (some r) openAgain = (do
      let x ← fetchFromHostRet pathname r openAgain
      pure x.2) := by
  unfold fetchFromHost fetchFromHostRet
  by_cases hno : noCopy pathname
  · rw [if_pos hno, if_pos hno, pure_bind]
  rw [if_neg hno, if_neg hno]
  by_cases hsize : r.size = 2 ^ 64 - 1
  · simp only [if_pos hsize, pure_bind]
  simp only [if_neg hsize, fetchOpen, fetchWrite, bind_assoc]
  refine bind_congr fun _ => bind_congr fun p => ?_
  by_cases h0 : p.1 < 0
  · simp only [if_pos h0]
    rfl
  simp only [if_neg h0, bind_assoc]
  refine bind_congr fun a => ?_
  by_cases ha : a.granted = false
  · simp only [if_pos ha]
    rfl
  simp only [if_neg ha, pure_bind]
  refine bind_congr fun w => bind_congr fun e => ?_
  by_cases he : e ≠ 0
  · simp only [if_pos he]
    rfl
  simp only [if_neg he]
  rcases w with e | ⟨n, w⟩ <;> simp only [pure_bind]

/-- What a nested open is to do; `P` is what the view depends on. -/
def OpensAgain (s : Fs) (T : ℕ → ℕ) (U : Set ℕ) (i : ℕ) (pathname : Str) (openAgain : FsM (ℤ × List FileWrite))
    (P : Prop) (openV : View → Option (Bool × View)) : Prop :=
  ∀ v, Between s T U v → wp openAgain (fun r t => OpenedFree s T U i (nameOf pathname) oFetch r.1 t ∧
    (P → openV v.view = some (decide (0 ≤ r.1), t.view))) (fun _ => True) v

theorem fetchOpen_free (pathname : Str) (r : HostReply) {openAgain : FsM (ℤ × List FileWrite)} {P : Prop}
    {openV : View → Option (Bool × View)} (h : Between s T U u) (hopen : OpensAgain s T U i pathname openAgain P openV) :
    wp (fetchOpen pathname r openAgain) (fun p t => p.1 = i ∧ Wf t T U ∧ Later s t ∧
      (∃ f d x, FreshFd s t i (nameOf pathname) oFetch f d x) ∧
      (Plenty s → P → (mkdirFetchView u.view pathname r.stack).bind openV = some (true, t.view))) (fun _ => True) u := by
  unfold fetchOpen
  rw [wp_bind]
  refine wp_mono_fault (mkdirDirForFetch_wf h.wf _ _) (fun _ v hv => ?_) fun _ _ => trivial
  obtain ⟨hv, hmade⟩ := hv
  rw [wp_bind]
  refine wp_mono (hopen v (h.framed hv.wf hv.framed)) fun p w hw => ?_
  obtain ⟨fd, ws⟩ := p
  obtain ⟨hw, hview⟩ := hw
  refine wp_ite (fun _ => trivial) fun h0 => ?_
  rw [wp_bind, wp_ok (kmalloc_ok w)]
  refine wp_ite (fun _ => trivial) fun _ => ?_
  rcases hw with ⟨hneg, -⟩ | ⟨hfd, hwf, hlater, f, d, x, hx⟩
  · exact absurd hneg h0
  · refine ⟨hfd, hwf.ask, ⟨hlater.mem, hlater.asked.trans (Nat.le_succ _)⟩, ⟨f, d, x, hx.slots, hx.bitmap, hx.file,
      hx.mode, hx.offset, hx.dentry, hx.placed.mem, hx.placed.names, hx.placed.path⟩, fun hpl hP => ?_⟩
    rw [hmade (h.plenty hpl), Option.bind_some, hview hP, decide_eq_true (not_lt.mp h0),
      view_of_nodes (s := w) (t := w.ask) rfl]

/-- The rest of a fetch returns 0, whatever became of the write. -/
theorem fetchWrite_free {v : Fs} (r : HostReply) (h : Wf v T U) (hlater : Later s v) (h3 : 3 ≤ fd)
    (hnone : s.slots fd.toNat = none) (hbit : s.bitmap fd.toNat = false) (hx : FreshFd s v fd.toNat cs oFetch f d x)
    (ws : List FileWrite) :
    wp (fetchWrite r fd ws) (fun p t => p.1 = 0 ∧ Between s T U t ∧ WroteStart v t cs r.bytes) (fun _ => False) v := by
  unfold fetchWrite
  rw [wp_bind]
  refine wp_mono (fetch_write h hlater h3 hnone hbit hx r.bytes) fun w t ht => ?_
  rw [wp_bind]
  refine wp_mono ht fun e z hz => ?_
  rw [if_neg (not_not.mpr hz.1)]
  rcases w with e | ⟨n, w⟩
  · exact ⟨rfl, hz.2⟩
  · exact ⟨rfl, hz.2⟩

theorem WroteStart.of_plenty (h : WroteStart s t cs data) (hpl : Plenty s) :
    t.view = if data.length < 2 ^ 31 then writeView s.view cs data else s.view := by
  split_ifs with hlen
  · exact h.1 ⟨hlen, fun _ _ _ _ _ _ => hpl _ (le_refl _)⟩
  · exact h.2 fun hW => hlen hW.1

/-- A fetch leaves the descriptors as they were. -/
theorem fetchFromHost_free (pathname : Str) (reply : Option HostReply) {openAgain : FsM (ℤ × List FileWrite)} {P : Prop}
    {openV : View → Option (Bool × View)} (h : Between s T U u) (hs : Wf s T U) (hfree : s.freeFd = some i)
    (hopen : OpensAgain s T U i pathname openAgain P openV) :
    wp (fetchFromHost pathname reply openAgain) (fun _ t => Between s T U t ∧
      (Plenty s → P → fetchView pathname reply openV u.view = some t.view)) (fun _ => True) u := by
  unfold fetchView
  cases reply with
  | none =>
    unfold fetchFromHost
    exact wp_ite (fun hno => ⟨h, fun _ _ => if_pos hno⟩) fun _ => trivial
  | some r =>
    rw [fetchFromHost_eq, wp_bind, fetchFromHostRet]
    refine wp_ite (fun hno => ⟨h, fun _ _ => if_pos hno⟩) fun hno =>
      wp_ite (fun hsize => ⟨h, fun _ _ => (if_neg hno).trans (if_pos hsize)⟩) fun hsize => ?_
    rw [wp_bind]
    refine wp_mono (fetchOpen_free pathname r h hopen) fun p v hv => ?_
    obtain ⟨fd, ws⟩ := p
    obtain ⟨hfd, hwf, hlater, ⟨f, d, x, hx⟩, hview⟩ := hv
    have hi : fd.toNat = i := by
      rw [show fd = (i : ℤ) from hfd, Int.toNat_natCast]
    have h3 : 3 ≤ fd := by
      have := hs.free_ge hfree
      have : fd = (i : ℤ) := hfd
      omega
    have hbit := (freeFd_some hfree).2
    subst hi
    refine wp_mono_fault (fetchWrite_free r hwf hlater h3 (hs.tableOk _ hbit) hbit hx ws) (fun p z hz => ?_)
      fun _ hf => hf.elim
    refine ⟨hz.2.1, fun hpl hP => (if_neg hno).trans ((if_neg hsize).trans ?_)⟩
    have hlen : r.bytes.length = r.size := by simp [HostReply.bytes]
    rw [hview hpl hP, hz.2.2.of_plenty (hlater.plenty hpl), hlen]
    rfl

theorem OpenedFree.of_between {v : Fs} {flags : Flags} {r : ℤ} (h : OpenedFree v T U i cs flags r t)
    (hv : Between s T U v) : OpenedFree s T U i cs flags r t := by
  rcases h with ⟨hneg, hb⟩ | ⟨hr, hwf, hl, f, d, x, hx⟩
  · exact Or.inl ⟨hneg, hv.toLater.trans _ _ _ hb.toLater, hb.wf, hb.slots.trans hv.slots, hb.bitmap.trans hv.bitmap⟩
  · exact Or.inr ⟨hr, hwf, hv.toLater.trans _ _ _ hl, f, d, x, hv.slots ▸ hx.slots, hv.bitmap ▸ hx.bitmap, hx.file,
      hx.mode, hx.offset, hx.dentry, hx.placed⟩

/-- **`open` with a free descriptor**, whatever the host replies: it returns an error and leaves the table, or the first
free descriptor with a new file object at the start of the file of that name. If there is memory the view is what
`openView` says. The induction is on the replies. -/
theorem open_free (h : Wf s T U) (hfree : s.freeFd = some i) (replies : List HostReply) (pathname path : Str)
    (flags : Flags) :
    wp (syscallHandlerOpen replies pathname flags)
      (fun r t => OpenedFree s T U i (nameOf pathname) flags r.1 t ∧
        (Plenty s → pathConv ['/'] pathname = .ok (.ok path) →
          openView pathname path replies flags s.view = some (decide (0 ≤ r.1), t.view))) (fun _ => True) s := by
  induction replies generalizing s flags with
  | nil =>
    refine openWith_free pathname path flags h hfree fun u hu => ?_
    exact fetchFromHost_free (P := _) pathname none hu h hfree fun _ _ => trivial
  | cons r rs ih =>
    refine openWith_free pathname path flags h hfree fun u hu => ?_
    refine wp_mono (fetchFromHost_free (P := Plenty s ∧ pathConv ['/'] pathname = .ok (.ok path)) pathname (some r) hu h
      hfree fun v hv => ?_) fun _ t ht => ⟨ht.1, fun hpl hp => ht.2 hpl ⟨hpl, hp⟩⟩
    refine wp_mono (ih hv.wf (hv.freeFd.trans hfree) oFetch) fun p t ht => ?_
    exact ⟨ht.1.of_between hv, fun hP => ht.2 (hv.plenty hP.1) hP.2⟩

/-- Without a second reply, the open inside a fetch finds the file or makes it. -/
theorem openView_nil {pathname path : Str} (hno : noCopy pathname = false) {v w : View}
    (h : openView pathname path [] oFetch v = some (true, w)) : w = addView v (nameOf pathname) .reg := by
  have hcut : cutView (addView v (nameOf pathname) .reg) (nameOf pathname) (vfscoreFflags oFetch) =
      addView v (nameOf pathname) .reg := if_neg (by decide)
  rw [openView, openWithView, hcut] at h
  split at h
  · rw [fetchView, hno] at h
    cases h
  · exact (Prod.mk.inj (Option.some.inj h)).2.symm

/-- **When a fetch is exact.** The state is in order and a descriptor is free, the host has the file, and the fetch comes
to its write, in the state `u`. Then it returns 0; and the file has the size and the bytes the host sent, if and only if
the write is done and the file was not longer in `u`, or the write is not done and the file had these bytes. If there is
memory and no second fetch, a file that is there in `s` is the same in `u`, and another is new in `u`. -/
theorem fetch_exact_iff (h : Wf s T U) (hfree : s.freeFd ≠ none) (pathname : Str) (hno : noCopy pathname = false)
    (r : HostReply) (hsize : r.size ≠ 2 ^ 64 - 1) (rs : List HostReply) (p : ℤ × List FileWrite)
    (hrun : fetchOpen pathname r (syscallHandlerOpen rs pathname oFetch) s = .ok (p, u)) :
    ∃ ws t, fetchFromHostRet pathname r (syscallHandlerOpen rs pathname oFetch) s = .ok ((0, ws), t) ∧
      (t.view (nameOf pathname) = some (.reg, r.bytes) ↔ Exact u (nameOf pathname) r.bytes) ∧
      (Plenty s → rs = [] → ∀ path old, pathConv ['/'] pathname = .ok (.ok path) →
        u.view (nameOf pathname) = some (.reg, old) → s.view (nameOf pathname) = some (.reg, old) ∨ s.view (nameOf pathname) = none ∧ old = []) := by
  obtain ⟨i, hfree⟩ := Option.ne_none_iff_exists'.mp hfree
  obtain ⟨fd, ws⟩ := p
  have hagain (path : Str) : OpensAgain s T U i pathname (syscallHandlerOpen rs pathname oFetch)
      (Plenty s ∧ pathConv ['/'] pathname = .ok (.ok path)) (openView pathname path rs oFetch) := fun v hv =>
    wp_mono (open_free hv.wf (hv.freeFd.trans hfree) rs pathname path oFetch) fun _ t ht =>
      ⟨ht.1.of_between hv, fun hP => ht.2 (hv.plenty hP.1) hP.2⟩
  have hopen (path : Str) := of_wp (fetchOpen_free pathname r (Between.refl h) (hagain path)) hrun
  obtain ⟨hfd, hwf, hlater, ⟨f, d, x, hx⟩, -⟩ := hopen []
  have hi : fd.toNat = i := by
    rw [show fd = (i : ℤ) from hfd, Int.toNat_natCast]
  have h3 : 3 ≤ fd := by
    have := h.free_ge hfree
    have : fd = (i : ℤ) := hfd
    omega
  have hbit := (freeFd_some hfree).2
  subst hi
  have hwrite := fetchWrite_free r hwf hlater h3 (h.tableOk _ hbit) hbit hx ws
  rcases hw : fetchWrite r fd ws u with e | ⟨⟨v, ws'⟩, t⟩
  · exact (fault_of_wp hwrite hw).elim
  obtain ⟨hv, -, hview⟩ := of_wp hwrite hw
  obtain rfl : v = 0 := hv
  refine ⟨ws', t, ?_, hview.exact_iff, ?_⟩
  · rw [fetchFromHostRet, if_neg (by simp [hno]), if_neg hsize]
    exact (bind_of_ok hrun).trans hw
  · rintro hpl rfl path old he hold
    obtain ⟨w, hmade, hopened⟩ := Option.bind_eq_some_iff.mp ((hopen path).2.2.2.2 hpl ⟨hpl, he⟩)
    rw [openView_nil hno hopened, addView] at hold
    rcases moreDirs_fetch hmade (nameOf pathname) with hkept | ⟨hnone, hdir⟩
    · split_ifs at hold with hw
      · rw [Function.update_self] at hold
        cases hold
        exact Or.inr ⟨hkept ▸ hw, rfl⟩
      · exact Or.inl (hkept ▸ hold)
    · rw [if_neg (by rw [hdir]; simp), hdir] at hold
      cases hold

/-- The host has a file of the byte 9. -/
def nine : HostReply := ⟨1, fun _ => 9, []⟩

/-- The fetch of `/f` up to its write, and whole. -/
def fetchF : FsM (ℤ × List FileWrite) := fetchFromHostRet ['/', 'f'] nine (syscallHandlerOpen [] ['/', 'f'] oFetch)

theorem fetch_exact_iff_boot : ∃ p u ws t,
    fetchOpen ['/', 'f'] nine (syscallHandlerOpen [] ['/', 'f'] oFetch) boot = .ok (p, u) ∧
      fetchF boot = .ok ((0, ws), t) ∧ t.view [['f']] = some (.reg, [9]) ∧ Exact u [['f']] [9] := by
  have hrun : ((fetchOpen ['/', 'f'] nine (syscallHandlerOpen [] ['/', 'f'] oFetch) boot).toOption.map fun x =>
      x.1.1) = some 3 := by decide +kernel
  have hview : ((fetchF boot).toOption.map fun x => x.2.view [['f']]) = some (some (.reg, [9])) := by decide +kernel
  rcases h : fetchOpen ['/', 'f'] nine (syscallHandlerOpen [] ['/', 'f'] oFetch) boot with e | ⟨p, u⟩
  · rw [h] at hrun
    cases hrun
  · obtain ⟨ws, t, hr, hiff, -⟩ :=
      fetch_exact_iff boot_wf boot_freeFd ['/', 'f'] (by decide) nine (by decide) [] p h
    rw [fetchF, hr] at hview
    have ht : t.view [['f']] = some (.reg, [9]) := Option.some.inj hview
    exact ⟨p, u, ws, t, rfl, hr, ht, hiff.mp ht⟩

/-- The bytes 1, 2, 3 are written to `/f`, and it is closed. -/
def writeF : Call := .write 3 [[1, 2, 3]]

/-- **A fetch that mixes two files.** The file `/f` has three bytes, the host's has one. The fetch returns 0, and `/f` has
the byte of the host and two of its own. -/
theorem fetch_mixes : ∃ s₁ s₂ s₃ ws t, exec openF boot = .ok (3, s₁) ∧ exec writeF s₁ = .ok (3, s₂) ∧
    exec (.close 3) s₂ = .ok (0, s₃) ∧ fetchF s₃ = .ok ((0, ws), t) ∧ t.view [['f']] = some (.reg, [9, 2, 3]) := by
  have hwrite : exec writeF withF = .ok (3, stateAfter writeF withF) := exec_stateAfter (by decide +kernel)
  have hclose : exec (.close 3) (stateAfter writeF withF) = .ok (0, stateAfter (.close 3) (stateAfter writeF withF)) :=
    exec_stateAfter (by decide +kernel)
  have hfetch : ((fetchF (stateAfter (.close 3) (stateAfter writeF withF))).toOption.map fun x =>
      (x.1.1, x.2.view [['f']])) = some (0, some (.reg, [9, 2, 3])) := by decide +kernel
  rcases h : fetchF (stateAfter (.close 3) (stateAfter writeF withF)) with e | ⟨⟨r, ws⟩, t⟩
  · rw [h] at hfetch
    cases hfetch
  · rw [h] at hfetch
    obtain ⟨rfl, hview⟩ := Prod.mk.inj (Option.some.inj hfetch)
    exact ⟨_, _, _, ws, t, openF_run, hwrite, hclose, h, hview⟩

end Fs
end Coffer
