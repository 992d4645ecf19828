/-
# Files whose node is gone

`ramfs_remove` frees the node of a name, whoever still has it open: nothing counts the open files of a node. The file, its
dentry and its vnode stay until the last `close`, and `v_data` points to the freed node. A run of system calls therefore
keeps every open file at a node that is there exactly as long as no `unlinkat` removes the name of an open file
(`nodesLive_iff`).

Key definitions: `NodesLive`, `OpenAt`, `Call.UnlinksOpen`.
Key theorem: `nodesLive_iff`.
-/
import Coffer.Vfs.Calls

namespace Coffer
namespace Fs

open Lib Lib.Cmd

variable {s t : Fs} {T : ℕ → ℕ} {U : Set ℕ}

/-- The node of every open file is there. The console has none. -/
def NodesLive (s : Fs) : Prop :=
  ∀ f x d, s.files f = some x → x.fDentry = some d →
    ∃ y v n, s.dentries d = some y ∧ s.vnodes y.dVnode = some v ∧ s.nodes v.vData = some n

/-- Some open file has this name. -/
def OpenAt (s : Fs) (cs : List Str) : Prop :=
  ∃ f x d y, s.files f = some x ∧ x.fDentry = some d ∧ s.dentries d = some y ∧ y.dPath = pathOf cs

/-- The call removes the name of an open file. -/
def Call.UnlinksOpen (c : Call) (s : Fs) : Prop :=
  ∃ pathname t, c = .unlinkat pathname ∧ exec c s = .ok (0, t) ∧ OpenAt s (nameOf pathname)

theorem Wf.nodesLive_iff_away (h : Wf s T U) : NodesLive s ↔ Away s U := by
  constructor
  · intro hl f x d hx hd hU
    obtain ⟨y, v, n, hy, hv, hn⟩ := hl f x d hx hd
    have hgone := (h.cache.names.dead hU).2.2 hy hv
    rw [hn] at hgone
    cases hgone
  · intro ha f x d hx hd
    obtain ⟨cs, hp⟩ := h.placed hx hd (ha hx hd)
    obtain ⟨y, v, n, hat⟩ := h.cache.names.at hp
    exact ⟨y, v, n, hat.dentry, hat.vnode, hat.node⟩

/-- With every node there, an open file has a name exactly if its dentry is in the hash table with it. -/
theorem Wf.openAt_iff (h : Wf s T U) (ha : Away s U) {cs : List Str} (hcs : ∀ c ∈ cs, IsName c) :
    OpenAt s cs ↔ ∃ f x d, s.files f = some x ∧ x.fDentry = some d ∧ Placed s d cs := by
  constructor
  · rintro ⟨f, x, d, y, hx, hd, hy, hpath⟩
    obtain ⟨ds, hp⟩ := h.placed hx hd (ha hx hd)
    exact ⟨f, x, d, hx, hd, hp.mem, hcs, y, hy, hpath⟩
  · rintro ⟨f, x, d, hx, hd, hp⟩
    obtain ⟨y, hy, hpath⟩ := hp.path
    exact ⟨f, x, d, y, hx, hd, hy, hpath⟩

/-- After an `unlinkat` the nodes are there, unless it removed the name of an open file. -/
theorem unlinkat_live (h : Wf s T U) (ha : Away s U) {pathname : Str} {r : ℤ}
    (hr : exec (.unlinkat pathname) s = .ok (r, t)) :
    (∃ U', Wf t T U') ∧ (NodesLive t ↔ ¬ (r = 0 ∧ OpenAt s (nameOf pathname))) := by
  have hwp : wp (exec (.unlinkat pathname)) (fun r t => (∃ U', Wf t T U') ∧
      (NodesLive t ↔ ¬ (r = 0 ∧ OpenAt s (nameOf pathname)))) (fun _ => True) s := by
    refine (wp_bind ..).mpr (wp_mono_fault (unlinkat_wf h pathname) (fun r t ht => ?_) fun _ _ => trivial)
    obtain ⟨-, hfiles, ht⟩ := ht
    have hsub : Away t U := (FilesSub.of_eq hfiles).away ha
    cases r with
    | error e =>
      have hneg : retOf (.error e) (fun _ : Unit => 0) ≠ 0 := (retOf_neg e _).ne
      exact ⟨⟨U, ht⟩, iff_of_true (ht.nodesLive_iff_away.mpr hsub) fun hc => hneg hc.1⟩
    | ok _ =>
      obtain ⟨hcs, d, hwf, hd⟩ := ht
      refine ⟨⟨_, hwf⟩, ?_⟩
      -- the dentries of open files stay, so the nodes are there if none of them is the one removed
      have haway : Away t (insert d U) ↔ ∀ f x, s.files f = some x → x.fDentry ≠ some d := by
        constructor
        · intro h' f x hx hfd
          exact h' (hfiles ▸ hx) hfd (Set.mem_insert d U)
        · intro h' f x e hx he hmem
          rcases Set.mem_insert_iff.mp hmem with rfl | hU
          · exact h' f x (hfiles ▸ hx) he
          · exact hsub hx he hU
      rw [hwf.nodesLive_iff_away, haway, h.openAt_iff ha hcs]
      constructor
      · rintro hno ⟨-, f, x, e, hx, he, hp⟩
        obtain rfl := (hd e (openRefs_pos h.fresh hx he)).mp hp
        exact hno f x hx he
      · intro hno f x hx hfd
        exact hno ⟨rfl, f, x, d, hx, hfd, (hd d (openRefs_pos h.fresh hx hfd)).mpr rfl⟩
  rw [wp_ok hr] at hwp
  exact hwp

/-- What a run keeps: the state is in order and every open file has its node. -/
def AllLive (s : Fs) : Prop := (∃ T U, Wf s T U) ∧ NodesLive s

theorem allLive_step (h : AllLive s) {c : Call} (hends : c.Ends s) {r : ℤ} (hr : exec c s = .ok (r, t)) :
    (∃ T U, Wf t T U) ∧ (NodesLive t ↔ ¬ c.UnlinksOpen s) := by
  obtain ⟨⟨T, U, hwf⟩, hl⟩ := h
  have ha := hwf.nodesLive_iff_away.mp hl
  by_cases hc : c.Unlinks
  · cases c with
    | unlinkat pathname =>
      obtain ⟨⟨U', hwf'⟩, hiff⟩ := unlinkat_live hwf ha hr
      refine ⟨⟨T, U', hwf'⟩, hiff.trans (not_congr ⟨?_, ?_⟩)⟩
      · rintro ⟨rfl, hopen⟩
        exact ⟨pathname, t, rfl, hr, hopen⟩
      · rintro ⟨pathname', t', he, hr', hopen⟩
        cases he
        rw [hr] at hr'
        cases hr'
        exact ⟨rfl, hopen⟩
    | _ => exact hc.elim
  · obtain ⟨⟨T', -, hwf'⟩, ha'⟩ := of_wp (exec_carried hwf hc) hr hends
    refine ⟨⟨T', U, hwf'⟩, iff_of_true (hwf'.nodesLive_iff_away.mpr (ha' ha)) ?_⟩
    rintro ⟨pathname, t', rfl, -⟩
    exact hc trivial

/-- **Open files keep their nodes exactly if no open name is removed.** For every run of system calls from the state after
`vfs_init`, whatever the host and the allocator answer, with no write that ends beyond `2 ^ 63`: after every call the node
of each open file is there, if and only if no `unlinkat` of the run removes a name that an open file has. -/
theorem nodesLive_iff (mem : ℕ → Answer) (addr : ℕ → ℕ) (around : ℤ → Bool) (calls : List Call)
    (hends : EachStep exec Call.Ends calls (Fs.init mem addr around)) :
    EachStep exec (fun c s => ∀ r t, exec c s = .ok (r, t) → NodesLive t) calls (Fs.init mem addr around) ↔
      EachStep exec (fun c s => ¬ c.UnlinksOpen s) calls (Fs.init mem addr around) := by
  refine eachStep_iff_of (I := AllLive) ?_ ?_ calls _ ?_ hends
  · intro c s hs hc
    constructor
    · rintro hlive hu
      obtain ⟨pathname, t, -, hr, -⟩ := id hu
      exact (allLive_step hs hc hr).2.mp (hlive 0 t hr) hu
    · intro hu r t hr
      exact (allLive_step hs hc hr).2.mpr hu
  · intro c s r t hs hc hlive hr
    exact ⟨(allLive_step hs hc hr).1, hlive r t hr⟩
  · refine ⟨⟨_, _, wf_init mem addr around⟩, fun f x d hx hd => ?_⟩
    have hx' : f = 3 ∧ x = ⟨3, 2, 0, none⟩ := by simpa [Fs.init, eq_comm] using hx
    rw [hx'.2] at hd
    cases hd

/-- The state a call leaves. -/
def stateAfter (c : Call) (s : Fs) : Fs :=
  match exec c s with
  | .ok (_, t) => t
  | .error _ => s

theorem exec_stateAfter {c : Call} {r : ℤ} (h : (exec c s).toOption.map Prod.fst = some r) :
    exec c s = .ok (r, stateAfter c s) := by
  unfold stateAfter
  rcases hx : exec c s with e | ⟨r', t⟩
  · rw [hx] at h
    cases h
  · rw [hx] at h
    cases h
    rfl

/-- The fault a call stops with. -/
def faultOf (c : Call) (s : Fs) : Option FsFault :=
  match exec c s with
  | .ok _ => none
  | .error e => some e

theorem exec_of_fault {c : Call} {e : FsFault} (h : faultOf c s = some e) : exec c s = .error e := by
  unfold faultOf at h
  rcases hx : exec c s with e' | r
  · rw [hx] at h
    cases h
    rfl
  · rw [hx] at h
    cases h

theorem boot_wf : Wf boot (fun _ => 0) ∅ := wf_init ..

theorem boot_freeFd : boot.freeFd ≠ none := fun hn => by
  have hfull : boot.bitmap 3 = true := freeFd_none hn (by decide)
  cases hfull

/-- The new file `/f`, open with `O_RDWR` as the descriptor 3. -/
def openF : Call := .open ['/', 'f'] (2 ||| oCreat) []

/-- One byte is written to it. -/
def writeByteF : Call := .write 3 [[1]]

def unlinkF : Call := .unlinkat ['/', 'f']

/-- The state with `/f` open. -/
def withF : Fs := stateAfter openF boot

/-- The state with a byte in `/f`. -/
def writtenF : Fs := stateAfter writeByteF withF

/-- The state after its name was removed. -/
def removedF : Fs := stateAfter unlinkF writtenF

theorem openF_run : exec openF boot = .ok (3, withF) := exec_stateAfter (by decide +kernel)

theorem writeByteF_run : exec writeByteF withF = .ok (1, writtenF) := exec_stateAfter (by decide +kernel)

theorem unlinkF_run : exec unlinkF writtenF = .ok (0, removedF) := exec_stateAfter (by decide +kernel)

theorem writtenF_open : OpenAt writtenF [['f']] := by
  have hfile : (writtenF.files 7).map VFile.fDentry = some (some 6) := by decide +kernel
  have hdentry : (writtenF.dentries 6).map Dentry.dPath = some ['/', 'f'] := by decide +kernel
  obtain ⟨x, hx, hd⟩ := Option.map_eq_some_iff.mp hfile
  obtain ⟨y, hy, hp⟩ := Option.map_eq_some_iff.mp hdentry
  exact ⟨7, x, 6, y, hx, hd, hy, hp⟩

theorem unlinkF_unlinksOpen : unlinkF.UnlinksOpen writtenF := ⟨['/', 'f'], _, rfl, unlinkF_run, writtenF_open⟩

theorem nodesLive_iff_three :
    ¬ EachStep exec (fun c s => ∀ r t, exec c s = .ok (r, t) → NodesLive t) [openF, writeByteF, unlinkF] boot := by
  have hopen : openF.writes boot = [] := List.isEmpty_iff.mp (by decide +kernel)
  have hwrite : (writeByteF.writes withF).all (fun w => decide w.Ends) = true := by decide +kernel
  have hends : EachStep exec Call.Ends [openF, writeByteF, unlinkF] boot := by
    refine ⟨fun w hw => ?_, fun v s hs => ⟨?_, fun _ _ _ => ⟨fun w hw => ?_, fun _ _ _ => trivial⟩⟩⟩
    · rw [hopen] at hw
      cases hw
    · obtain rfl : withF = s := congrArg Prod.snd (Except.ok.inj (openF_run.symm.trans hs))
      exact fun w hw => of_decide_eq_true (List.all_eq_true.mp hwrite w hw)
    · cases hw
  rw [show boot = Fs.init _ _ _ from rfl, nodesLive_iff _ _ _ _ hends]
  exact fun h => ((h.2 _ _ openF_run).2 _ _ writeByteF_run).1 unlinkF_unlinksOpen

/-- **A read of a freed node.** The file `/f` is opened, a byte is written and the name removed. The
descriptor is open still, and a `pread` takes what was the node for a node. -/
theorem nodesLive_unlinked : ∃ s₁ s₂ s₃, exec openF boot = .ok (3, s₁) ∧ exec writeByteF s₁ = .ok (1, s₂) ∧
    exec unlinkF s₂ = .ok (0, s₃) ∧ IsOpen s₃ 3 ∧ ¬ NodesLive s₃ ∧
    exec (.pread 3 [1] 0) s₃ = .error .dangling := by
  refine ⟨_, _, _, openF_run, writeByteF_run, unlinkF_run,
    ⟨by norm_num, by decide, by decide +kernel, 7, by decide +kernel⟩, ?_, ?_⟩
  · intro h
    have hfile : (removedF.files 7).map VFile.fDentry = some (some 6) := by decide +kernel
    have hnode : ((removedF.dentries 6).bind fun y => (removedF.vnodes y.dVnode).bind fun v =>
        removedF.nodes v.vData).isNone = true := by decide +kernel
    obtain ⟨x, hx, hd⟩ := Option.map_eq_some_iff.mp hfile
    obtain ⟨y, v, n, hy, hv, hn⟩ := h 7 x 6 hx hd
    rw [hy, Option.bind_some, hv, Option.bind_some, hn] at hnode
    cases hnode
  · exact exec_of_fault (by decide +kernel)

end Fs
end Coffer
