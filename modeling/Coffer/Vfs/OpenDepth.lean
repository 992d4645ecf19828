/-
# How deep an open nests

An `open` that fails asks the host, and if the host has the file, `fetch_from_host` opens the name
again with `O_WRONLY | O_CREAT`. Nothing keeps that open from failing too, and then it asks the
host in its turn, and so on as long as the host answers.

A call that waits for a reply that does not come stops with `blocked`, and nothing else does
(`Quiet`). So the call asks for more than the replies it is given exactly if it stops that way:
`open_blocked_cons` takes this one reply further. `open_fetches_once_iff`: the first reply is the
only one that matters, whatever the host would say next, exactly if the fetch can find or make the
file. `open_never_finishes` is a name too long for ramfs, where it cannot.

Key definitions: `Quiet`, `OpenFails`, `FetchOpens`, `FetchesAgain`.
Key theorems: `open_blocked_cons`, `open_fetches_once_iff`.
-/
import Coffer.Vfs.Fetch

namespace Coffer
namespace Fs

open Lib Lib.Cmd

/-! ### What does not wait for the host -/

/-- Whatever `m` does, it does not wait for the host. -/
def Quiet {α : Type} (m : FsM α) : Prop := ∀ s, wp m (fun _ _ => True) (· ≠ .blocked) s

namespace Quiet

variable {α β : Type}

theorem of_modify (f : Fs → Fs) : Quiet (modify f : FsM Unit) := fun _ => trivial

theorem of_bind {m : FsM α} {k : α → FsM β} (h : Quiet m) (hk : ∀ a, Quiet (k a)) : Quiet (m >>= k) := by
  intro s
  rw [wp_bind]
  exact wp_mono (h s) fun a s' _ => hk a s'

theorem table : TableRules fun _ m => Quiet m where
  pure _ _ := trivial
  bind := of_bind
  fault h _ := h
  get _ := trivial
  find f s := by
    rw [wp_load_iff]
    exact ⟨fun _ _ => trivial, fun _ => by simp⟩
  putDentry _ _ := of_modify _
  putVnode _ _ := of_modify _
  setHash _ := of_modify _
  kmalloc := fun _ => trivial
  newId := fun _ => trivial
  putFile _ _ := of_modify _
  setTable _ _ := of_modify _

theorem putNode (n : ℕ) (x : Option RamNode) : Quiet (putNode n x) := of_modify _

theorem sys : SysRules fun _ m => Quiet m := ⟨table.toFileRules, table.ramfsCreate putNode⟩

theorem sysOpen (path : Str) (oflags : Flags) : Quiet (sysOpen path oflags) :=
  sys.sysOpen path fun dp _ => table.openDentry putNode dp _

theorem ne_blocked {m : FsM α} (h : Quiet m) (s : Fs) : m s ≠ .error .blocked :=
  fun hm => fault_of_wp (h s) hm rfl

theorem fault_ne {m : FsM α} {s : Fs} {e : FsFault} (h : Quiet m) (hm : m s = .error e) : e ≠ .blocked := by
  have he := fault_of_wp (h s) hm
  exact he

end Quiet

/-! ### One call -/

/-- From `s`, `open(pathname, flags)` fails at first, in the state `s'`. -/
def OpenFails (pathname : Str) (flags : Flags) (s s' : Fs) : Prop :=
  ∃ path e, pathConv s.cwd pathname = .ok (.ok path) ∧ sysOpen path flags s = .ok (.error e, s')

/-- The end of `syscall_handler_open` after a fetch. -/
def openAfter (path : Str) (flags : Flags) (ws : List FileWrite) : FsM (ℤ × List FileWrite) := do
  match ← sysOpen path flags with
  | .error e => pure (-e.code, ws)
  | .ok f => do
    let ret ← openFd f
    pure (ret, ws)

theorem Quiet.openAfter (path : Str) (flags : Flags) (ws : List FileWrite) :
    Quiet (openAfter path flags ws) := by
  refine of_bind (sysOpen path flags) fun r => ?_
  cases r with
  | error e => exact table.pure _
  | ok f => exact of_bind (table.openFd f) fun _ => table.pure _

theorem taskConv_ok {s : Fs} {cpath : Str} {r : Except Errno Str} (h : pathConv s.cwd cpath = .ok r) :
    taskConv cpath s = .ok (r, s) := by
  unfold taskConv
  rw [h]

theorem taskConv_error {s : Fs} {cpath : Str} {e : FsFault} (h : pathConv s.cwd cpath = .error e) :
    taskConv cpath s = .error e := by
  unfold taskConv
  rw [h]

/-- A call that does not fail at first does not come to the fetch. -/
theorem openWith_opens {pathname : Str} {flags : Flags} {s : Fs} (h : ∀ s', ¬ OpenFails pathname flags s s')
    (fetch fetch' : FsM (List FileWrite)) :
    openWith pathname flags fetch s = openWith pathname flags fetch' s ∧
      openWith pathname flags fetch s ≠ .error .blocked := by
  unfold openWith
  cases hp : pathConv s.cwd pathname with
  | error e =>
    rw [bind_of_error (taskConv_error hp), bind_of_error (taskConv_error hp), pathConv_error hp]
    exact ⟨rfl, by simp⟩
  | ok r =>
    rw [bind_of_ok (taskConv_ok hp), bind_of_ok (taskConv_ok hp)]
    cases r with
    | error e => exact ⟨rfl, Quiet.ne_blocked (m := pure (-e.code, [])) (Quiet.table.pure _) s⟩
    | ok path =>
      dsimp only
      cases ho : sysOpen path flags s with
      | error e =>
        rw [bind_of_error ho, bind_of_error ho]
        exact ⟨rfl, by simp [(Quiet.sysOpen path flags).fault_ne ho]⟩
      | ok x =>
        obtain ⟨r, s'⟩ := x
        rw [bind_of_ok ho, bind_of_ok ho]
        cases r with
        | error e => exact absurd ⟨path, e, hp, ho⟩ (h s')
        | ok f =>
          refine ⟨rfl, ?_⟩
          exact (Quiet.of_bind (Quiet.table.openFd f) fun ret => Quiet.table.pure (ret, [])).ne_blocked s'

/-- A call that fails at first is the fetch and a second try. -/
theorem openWith_fails {pathname path : Str} {flags : Flags} {s s' : Fs} {e : Errno}
    (hp : pathConv s.cwd pathname = .ok (.ok path)) (ho : sysOpen path flags s = .ok (.error e, s'))
    (fetch : FsM (List FileWrite)) :
    openWith pathname flags fetch s = (fetch >>= openAfter path flags) s' := by
  unfold openWith
  rw [bind_of_ok (taskConv_ok hp)]
  dsimp only
  rw [bind_of_ok ho]
  rfl

/-- A command waits for the host where its first part does, if the rest does not. -/
theorem bind_blocked_iff {α β : Type} {m : FsM α} {k : α → FsM β} {s : Fs} (hk : ∀ a, Quiet (k a)) :
    (m >>= k) s = .error .blocked ↔ m s = .error .blocked := by
  cases hm : m s with
  | error e =>
    rw [bind_of_error hm]
    simp
  | ok x =>
    rw [bind_of_ok hm]
    exact ⟨fun h => absurd h ((hk x.1).ne_blocked x.2), fun h => by cases h⟩

/-- A call waits where it fails at first and the fetch waits. -/
theorem openWith_blocked_iff (pathname : Str) (flags : Flags) (fetch : FsM (List FileWrite)) (s : Fs) :
    openWith pathname flags fetch s = .error .blocked ↔
      ∃ s', OpenFails pathname flags s s' ∧ fetch s' = .error .blocked := by
  by_cases h : ∃ s', OpenFails pathname flags s s'
  · obtain ⟨s', path, e, hp, ho⟩ := h
    rw [openWith_fails hp ho, bind_blocked_iff (Quiet.openAfter path flags)]
    constructor
    · exact fun hb => ⟨s', ⟨path, e, hp, ho⟩, hb⟩
    · rintro ⟨s'', ⟨path', e', hp', ho'⟩, hb⟩
      rw [hp] at hp'
      cases hp'
      rw [ho] at ho'
      cases ho'
      exact hb
  · constructor
    · exact fun hb => absurd hb (openWith_opens (fun s' hs' => h ⟨s', hs'⟩) fetch fetch).2
    · rintro ⟨s', hs', -⟩
      exact absurd ⟨s', hs'⟩ h

/-! ### A fetch -/

/-- The host has the file, and from `s` on `fetch_from_host` makes the directories; in `s'` it
opens the file. -/
def FetchOpens (pathname : Str) (r : HostReply) (s s' : Fs) : Prop :=
  noCopy pathname = false ∧ r.size ≠ 2 ^ 64 - 1 ∧ mkdirDirForFetch pathname r.stack s = .ok ((), s')

theorem fetchFromHost_none_blocked_iff (pathname : Str) (openAgain : FsM (ℤ × List FileWrite)) (s : Fs) :
    fetchFromHost pathname none openAgain s = .error .blocked ↔ noCopy pathname = false := by
  unfold fetchFromHost
  cases noCopy pathname with
  | true => simp [pure_run]
  | false => simp [Cmd.fault]

theorem Quiet.writeFetched (r : HostReply) (x : ℤ × List FileWrite) :
    Quiet (if x.1 < 0 then Cmd.fault .panic
      else do
        let a ← kmalloc
        if a.granted = false then Cmd.fault .null
        else do
          let w ← Fs.syscallHandlerWritev x.1 [(List.range r.size).map r.data]
          let error ← Fs.syscallHandlerClose x.1
          if error ≠ 0 then Cmd.fault .panic
          else
            match w with
            | .error _ => pure x.2
            | .ok (_, w) => pure (x.2 ++ w)) := by
  have ite {c : Prop} [Decidable c] {m m' : FsM (List FileWrite)} : Quiet m → Quiet m' →
      Quiet (if c then m else m') := LookupRules.ite
  refine ite (table.fault (by simp)) (of_bind table.kmalloc fun a => ite (table.fault (by simp)) ?_)
  refine of_bind (table.syscallHandlerWritev putNode _ _) fun w =>
    of_bind (table.syscallHandlerClose _) fun error => ite (table.fault (by simp)) ?_
  rcases w with e | ⟨n, w⟩
  · exact table.pure _
  · exact table.pure _

theorem fetchFromHost_blocked_iff (pathname : Str) (r : HostReply) (openAgain : FsM (ℤ × List FileWrite))
    (s : Fs) : fetchFromHost pathname (some r) openAgain s = .error .blocked ↔
      ∃ s', FetchOpens pathname r s s' ∧ openAgain s' = .error .blocked := by
  unfold fetchFromHost FetchOpens
  cases hn : noCopy pathname with
  | true => simp [pure_run]
  | false =>
    by_cases hs : r.size = 2 ^ 64 - 1
    · simp [hs, pure_run]
    · rw [if_neg (by simp)]
      dsimp only
      rw [if_neg hs]
      cases hm : mkdirDirForFetch pathname r.stack s with
      | error e =>
        rw [bind_of_error hm]
        simp [(Quiet.fault_ne (Quiet.sys.mkdirDirForFetch pathname r.stack) hm)]
      | ok x =>
        obtain ⟨_, s'⟩ := x
        rw [bind_of_ok hm]
        refine (bind_blocked_iff (Quiet.writeFetched r)).trans ?_
        constructor
        · exact fun h => ⟨s', ⟨rfl, hs, rfl⟩, h⟩
        · rintro ⟨s'', ⟨-, -, h⟩, hb⟩
          cases h
          exact hb

/-- What a fetch does depends on its open only where it comes to it. -/
theorem fetchFromHost_congr {pathname : Str} {r : HostReply} {m m' : FsM (ℤ × List FileWrite)} {s : Fs}
    (h : ∀ s', FetchOpens pathname r s s' → m s' = m' s') :
    fetchFromHost pathname (some r) m s = fetchFromHost pathname (some r) m' s := by
  unfold fetchFromHost
  cases hn : noCopy pathname with
  | true => rfl
  | false =>
    by_cases hs : r.size = 2 ^ 64 - 1
    · simp only [hs, if_true]
    · rw [if_neg (by simp), if_neg (by simp)]
      dsimp only
      rw [if_neg hs, if_neg hs]
      cases hm : mkdirDirForFetch pathname r.stack s with
      | error e => rw [bind_of_error hm, bind_of_error hm]
      | ok x =>
        obtain ⟨_, s'⟩ := x
        rw [bind_of_ok hm, bind_of_ok hm]
        show (m s' >>= _) = (m' s' >>= _)
        rw [h s' ⟨hn, hs, hm⟩]

/-! ### The chain of opens -/

/-- With no reply the call waits exactly if it asks. -/
theorem open_blocked_nil (pathname : Str) (flags : Flags) (s : Fs) :
    syscallHandlerOpen [] pathname flags s = .error .blocked ↔
      noCopy pathname = false ∧ ∃ s', OpenFails pathname flags s s' := by
  rw [syscallHandlerOpen, openWith_blocked_iff]
  simp only [fetchFromHost_none_blocked_iff]
  constructor
  · rintro ⟨s', h, hn⟩
    exact ⟨hn, s', h⟩
  · rintro ⟨hn, s', h⟩
    exact ⟨s', h, hn⟩

/-- With one reply more the call waits exactly if it asks, the host has the file, and the open
inside waits. -/
theorem open_blocked_cons (r : HostReply) (rs : List HostReply) (pathname : Str) (flags : Flags) (s : Fs) :
    syscallHandlerOpen (r :: rs) pathname flags s = .error .blocked ↔
      ∃ s1 s2, OpenFails pathname flags s s1 ∧ FetchOpens pathname r s1 s2 ∧
        syscallHandlerOpen rs pathname (oWronly ||| oCreat) s2 = .error .blocked := by
  rw [syscallHandlerOpen, openWith_blocked_iff]
  simp only [fetchFromHost_blocked_iff]
  constructor
  · rintro ⟨s1, h, s2, h'⟩
    exact ⟨s1, s2, h, h'⟩
  · rintro ⟨s1, s2, h, h'⟩
    exact ⟨s1, h, s2, h'⟩

/-- A call whose open inside does not fail gives the same with any further replies. -/
theorem open_cons_congr {r : HostReply} {pathname : Str} {flags : Flags} {s : Fs}
    (h : ∀ s1 s2, OpenFails pathname flags s s1 → FetchOpens pathname r s1 s2 →
      ∀ s3, ¬ OpenFails pathname (oWronly ||| oCreat) s2 s3) (rs : List HostReply) :
    syscallHandlerOpen (r :: rs) pathname flags s = syscallHandlerOpen [r] pathname flags s := by
  have hinner : ∀ s1 s2, OpenFails pathname flags s s1 → FetchOpens pathname r s1 s2 →
      syscallHandlerOpen rs pathname (oWronly ||| oCreat) s2 =
        syscallHandlerOpen [] pathname (oWronly ||| oCreat) s2 := by
    intro s1 s2 h1 h2
    cases rs with
    | nil => rfl
    | cons r' rs =>
      rw [syscallHandlerOpen, syscallHandlerOpen]
      exact (openWith_opens (h s1 s2 h1 h2) _ _).1
  rw [syscallHandlerOpen, syscallHandlerOpen]
  by_cases hf : ∃ s1, OpenFails pathname flags s s1
  · obtain ⟨s1, path, e, hp, ho⟩ := hf
    have h1 : OpenFails pathname flags s s1 := ⟨path, e, hp, ho⟩
    rw [openWith_fails hp ho, openWith_fails hp ho]
    have hfetch : fetchFromHost pathname (some r) (syscallHandlerOpen rs pathname (oWronly ||| oCreat)) s1 =
        fetchFromHost pathname (some r) (syscallHandlerOpen [] pathname (oWronly ||| oCreat)) s1 :=
      fetchFromHost_congr (hinner s1 · h1)
    show (fetchFromHost _ _ _ s1 >>= _) = (fetchFromHost _ _ _ s1 >>= _)
    rw [hfetch]
  · exact (openWith_opens (fun s1 h1 => hf ⟨s1, h1⟩) _ _).1

/-- Whatever the host answers after the first reply, the call does not ask again and ends as it does
with this reply alone, exactly if the open that the fetch makes does not fail. -/
theorem fetches_once_iff_fails (s : Fs) (pathname : Str) (flags : Flags) (r : HostReply) :
    (∀ rs, syscallHandlerOpen (r :: rs) pathname flags s ≠ .error .blocked ∧
        syscallHandlerOpen (r :: rs) pathname flags s = syscallHandlerOpen [r] pathname flags s) ↔
      ∀ s1 s2, OpenFails pathname flags s s1 → FetchOpens pathname r s1 s2 →
        ∀ s3, ¬ OpenFails pathname oFetch s2 s3 := by
  constructor
  · intro h s1 s2 h1 h2 s3 h3
    refine (h []).1 ?_
    rw [open_blocked_cons]
    refine ⟨s1, s2, h1, h2, ?_⟩
    rw [open_blocked_nil]
    exact ⟨h2.1, s3, h3⟩
  · intro h rs
    have hc := open_cons_congr h rs
    refine ⟨?_, hc⟩
    rw [hc, ne_eq, open_blocked_cons]
    rintro ⟨s1, s2, h1, h2, hb⟩
    rw [open_blocked_nil] at hb
    obtain ⟨-, s3, h3⟩ := hb
    exact h s1 s2 h1 h2 s3 h3

/-! ### On the view -/

section View

variable {s t : Fs} {T : ℕ → ℕ} {U : Set ℕ} {pathname path : Str} {cs : List Str} {flags : Flags}
  {r : HostReply} {v w : View}

/-- What the open inside a fetch is refused for: it has `O_CREAT`, and nothing that a file or a
directory there could be in the way of. -/
def FetchRefused (v : View) (path : Str) (cs : List Str) : Prop :=
  EndsSlash path cs ∧ v.kind cs ≠ some .dir ∨
    v.kind cs = none ∧ (v.kind cs.dropLast ≠ some .dir ∨ nameMax < (cs.getLastD []).length)

theorem openRefused_fetch_iff :
    OpenRefused v path cs (vfscoreFflags oFetch) ↔ FetchRefused v path cs := by
  have hcreat : Flags.has (vfscoreFflags oFetch) oCreat = true := by decide
  have hexcl : Flags.has (vfscoreFflags oFetch) oExcl = false := by decide
  have htrunc : Flags.has (vfscoreFflags oFetch) oTrunc = false := by decide
  unfold FetchRefused
  rcases hk : v.kind cs with _ | type
  · rw [openRefused_none _ _ hk, hcreat]
    simp
  · rw [openRefused_some _ _ hk, CutRefused, hcreat, hexcl, htrunc]
    simp

theorem OpenFails.view (h : Wf s T U) (hpl : Plenty s) (hf : OpenFails pathname flags s t) :
    Wf t T U ∧ Plenty t ∧ t.view = s.view ∧ ∃ path, pathConv ['/'] pathname = .ok (.ok path) ∧
      OpenRefused s.view path (nameOf pathname) (vfscoreFflags flags) := by
  obtain ⟨path, e, hp, hrun⟩ := hf
  rw [h.cwd] at hp
  rcases pathConv_eq pathname with he | ⟨path', he, hc, hl⟩
  · rw [he] at hp
    cases hp
  · obtain rfl : path' = path := by
      rw [he] at hp
      exact Except.ok.inj (Except.ok.inj hp)
    have hwp := of_wp (sysOpen_wp ⟨hc, hl⟩ h.cache h.fresh flags) hrun
    obtain ⟨hframed, -, -, -, hview, hwhy⟩ := id hwp
    exact ⟨h.open_error hwp, hframed.later.plenty hpl, hview.resolve_right fun hno => hno.1 hpl,
      path', he, hwhy hpl⟩

theorem openFails_of_refused (h : Wf s T U) (hpl : Plenty s)
    (hp : pathConv ['/'] pathname = .ok (.ok path))
    (hr : OpenRefused s.view path (nameOf pathname) (vfscoreFflags flags)) :
    ∃ t, OpenFails pathname flags s t := by
  rcases pathConv_eq pathname with he | ⟨path', he, hc, hl⟩
  · rw [he] at hp
    cases hp
  · obtain rfl : path' = path := by
      rw [he] at hp
      exact Except.ok.inj (Except.ok.inj hp)
    have hwp := sysOpen_wp ⟨hc, hl⟩ h.cache h.fresh flags
    rcases hrun : sysOpen path' flags s with e | ⟨res, t⟩
    · exact absurd hpl (fault_of_wp hwp hrun).2
    · cases res with
      | error e => exact ⟨t, path', e, by rw [h.cwd, he], hrun⟩
      | ok f =>
        obtain ⟨-, -, d, fl, -, -, -, -, -, -, -, hok⟩ := of_wp hwp hrun
        exact absurd hr hok

theorem FetchOpens.view (h : Wf s T U) (hpl : Plenty s) (hf : FetchOpens pathname r s t) :
    Wf t T U ∧ Plenty t ∧ mkdirFetchView s.view pathname r.stack = some t.view := by
  obtain ⟨hworked, hview⟩ := of_wp (mkdirDirForFetch_wf h pathname r.stack) hf.2.2
  exact ⟨hworked.wf, hworked.framed.later.plenty hpl, hview hpl⟩

theorem fetchOpens_of_view (h : Wf s T U) (hpl : Plenty s) (hno : noCopy pathname = false)
    (hsize : r.size ≠ 2 ^ 64 - 1) (hw : mkdirFetchView s.view pathname r.stack = some w) :
    ∃ t, FetchOpens pathname r s t := by
  rcases hrun : mkdirDirForFetch pathname r.stack s with e | ⟨_, t⟩
  · rw [fault_of_wp (mkdirDirForFetch_wf h pathname r.stack) hrun hpl] at hw
    cases hw
  · exact ⟨t, hno, hsize, hrun⟩

/-- The call asks the host, and the open inside the fetch asks again: the file cannot be opened as the
user asked, the path is one that is fetched and the host has the file; and after the directories
were made, the path ends with a `/` behind what is not a directory, or nothing is there and the
parent is not a directory or the name is longer than `NAME_MAX`. -/
def FetchesAgain (v : View) (pathname : Str) (flags : Flags) (r : HostReply) : Prop :=
  ∃ path w, pathConv ['/'] pathname = .ok (.ok path) ∧
    OpenRefused v path (nameOf pathname) (vfscoreFflags flags) ∧ noCopy pathname = false ∧
    r.size ≠ 2 ^ 64 - 1 ∧ mkdirFetchView v pathname r.stack = some w ∧
    FetchRefused w path (nameOf pathname)

/-- **When an open asks the host at most once.** The state is in order and there is memory. For any
path, flags and first reply: whatever the host would answer after it, the call does not ask again
and ends as it does with this reply alone, if and only if the file is not one that the fetch can
neither find nor make. -/
theorem open_fetches_once_iff (h : Wf s T U) (hpl : Plenty s) (pathname : Str) (flags : Flags)
    (r : HostReply) :
    (∀ rs, syscallHandlerOpen (r :: rs) pathname flags s ≠ .error .blocked ∧
        syscallHandlerOpen (r :: rs) pathname flags s = syscallHandlerOpen [r] pathname flags s) ↔
      ¬ FetchesAgain s.view pathname flags r := by
  rw [fetches_once_iff_fails]
  constructor
  · rintro hfails ⟨path, w, hp, hrefused, hno, hsize, hw, hagain⟩
    obtain ⟨s1, h1⟩ := openFails_of_refused h hpl hp hrefused
    obtain ⟨hwf, hpl', hview, -⟩ := h1.view h hpl
    obtain ⟨s2, h2⟩ := fetchOpens_of_view hwf hpl' hno hsize (hview ▸ hw)
    obtain ⟨hwf, hpl', hview'⟩ := h2.view hwf hpl'
    rw [hview, hw] at hview'
    rw [Option.some.inj hview', ← openRefused_fetch_iff] at hagain
    obtain ⟨s3, h3⟩ := openFails_of_refused hwf hpl' hp hagain
    exact hfails s1 s2 h1 h2 s3 h3
  · intro hno s1 s2 h1 h2 s3 h3
    obtain ⟨hwf, hpl', hview, path, hp, hrefused⟩ := h1.view h hpl
    obtain ⟨hwf, hpl', hview'⟩ := h2.view hwf hpl'
    obtain ⟨-, -, -, path', hp', hrefused'⟩ := h3.view hwf hpl'
    rw [hp] at hp'
    obtain rfl : path = path' := Except.ok.inj (Except.ok.inj hp')
    exact hno ⟨path, s2.view, hp, hrefused, h2.1, h2.2.1, hview ▸ hview',
      openRefused_fetch_iff.mp hrefused'⟩

/-- The open inside the fetch waits, however many replies there are, if the directories are there. -/
theorem open_asks_again (h : Wf s T U) (hpl : Plenty s)
    (hp : pathConv ['/'] pathname = .ok (.ok path)) (hno : noCopy pathname = false)
    (hsize : r.size ≠ 2 ^ 64 - 1) (hdirs : mkdirFetchView s.view pathname r.stack = some s.view)
    (hrefused : OpenRefused s.view path (nameOf pathname) (vfscoreFflags flags))
    (hagain : FetchRefused s.view path (nameOf pathname)) (n : ℕ) :
    syscallHandlerOpen (List.replicate n r) pathname flags s = .error .blocked := by
  induction n generalizing s flags with
  | zero => exact (open_blocked_nil ..).mpr ⟨hno, openFails_of_refused h hpl hp hrefused⟩
  | succ n ih =>
    obtain ⟨s1, h1⟩ := openFails_of_refused h hpl hp hrefused
    obtain ⟨hwf, hpl', hview, -⟩ := h1.view h hpl
    obtain ⟨s2, h2⟩ := fetchOpens_of_view hwf hpl' hno hsize (hview ▸ hdirs)
    obtain ⟨hwf, hpl', hview'⟩ := h2.view hwf hpl'
    have hsame : s2.view = s.view := by
      rw [hview, hdirs] at hview'
      exact (Option.some.inj hview').symm
    rw [List.replicate_succ, open_blocked_cons]
    refine ⟨s1, s2, h1, h2, ih hwf hpl' (hsame ▸ hdirs) ?_ (hsame ▸ hagain)⟩
    exact openRefused_fetch_iff.mpr (hsame ▸ hagain)

end View

/-! ### Files in the root directory -/

theorem mkdirView_root {v : View} (hv : v.kind [] = some .dir) {path : Str}
    (hroot : findRoot (strlcpy path) = some []) : mkdirView v path = some v := by
  have hnamei : nameiView v path = some (some []) := by
    rw [nameiView, hroot]
    simp [components, namesOf, trailing, hv]
  rw [mkdirView, hnamei]

theorem mkdirAllView_root {v : View} (hv : v.kind [] = some .dir) {paths : List Str}
    (hroot : ∀ p ∈ paths, findRoot (strlcpy p) = some []) : mkdirAllView v paths = some v := by
  induction paths with
  | nil => rfl
  | cons p ps ih =>
    rw [mkdirAllView, List.foldlM_cons, mkdirView_root hv (hroot p (List.mem_cons_self ..))]
    exact ih fun q hq => hroot q (List.mem_cons_of_mem p hq)

/-- For a file in the root directory no directory is made. -/
theorem mkdirFetchView_root {v : View} (hv : v.kind [] = some .dir) {pathname stack : Str}
    (hpath : mkdirStrays pathname stack = false ∧
      ∀ p ∈ mkdirPaths pathname stack, findRoot (strlcpy p) = some []) :
    mkdirFetchView v pathname stack = some v := by
  rw [mkdirFetchView, hpath.1]
  exact mkdirAllView_root hv hpath.2

theorem open_fetches_once_boot : ¬ FetchesAgain boot.view ['/', 'f'] 0 nine ∧
    syscallHandlerOpen [nine, nine] ['/', 'f'] 0 boot = syscallHandlerOpen [nine] ['/', 'f'] 0 boot := by
  have honce : ¬ FetchesAgain boot.view ['/', 'f'] 0 nine := by
    rintro ⟨path, w, hp, -, -, -, hw, hagain⟩
    rw [mkdirFetchView_root rfl (by decide)] at hw
    have hpath : pathConv ['/'] ['/', 'f'] = .ok (.ok ['/', 'f']) := by decide
    rw [hpath] at hp
    obtain rfl : ['/', 'f'] = path := Except.ok.inj (Except.ok.inj hp)
    rw [← Option.some.inj hw] at hagain
    rcases hagain with ⟨⟨hs, -⟩, -⟩ | ⟨-, hparent | hlong⟩
    · exact absurd hs (by decide)
    · exact hparent rfl
    · exact absurd hlong (by decide)
  exact ⟨honce, ((open_fetches_once_iff boot_wf (fun _ _ => rfl) ['/', 'f'] 0 nine).mpr honce [nine]).2⟩

/-- A name of 256 characters, one more than `NAME_MAX`, in the root directory. -/
def longName : Str := '/' :: List.replicate 256 'a'

theorem nameOf_longName : nameOf longName = [List.replicate 256 'a'] := by decide +kernel

/-- A reply with an empty file. -/
def emptyReply : HostReply := ⟨0, fun _ => 0, []⟩

/-- **An open that never finishes.** In an empty file system, `open` of a name of 256 characters,
with a host that answers every fetch with an empty file: after any number of replies the call asks
for one more. -/
theorem open_never_finishes :
    longName.length = 257 ∧ ∀ n : ℕ, syscallHandlerOpen (List.replicate n emptyReply) longName 0
      (Fs.init (fun _ => ⟨true, fun _ => 0⟩) id fun _ => false) = .error .blocked := by
  have hpath : pathConv ['/'] longName = .ok (.ok longName) := by decide +kernel
  have hnone : (Fs.init (fun _ => ⟨true, fun _ => 0⟩) id fun _ => false).view.kind (nameOf longName) =
      none := by
    rw [nameOf_longName]
    rfl
  refine ⟨by decide +kernel, open_asks_again (wf_init ..) (fun _ _ => rfl) hpath (by decide +kernel)
    (by decide) (mkdirFetchView_root rfl (by decide +kernel)) ?_ ?_⟩
  · have hcreat : Flags.has (vfscoreFflags 0) oCreat = false := by decide
    rw [openRefused_none _ _ hnone]
    exact Or.inl hcreat
  · have hlong : nameMax < ((nameOf longName).getLastD []).length := by decide +kernel
    exact Or.inr ⟨hnone, Or.inr hlong⟩

end Fs
end Coffer
