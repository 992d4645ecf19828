/-
# open, openat and the descriptor table

What `open` does to the descriptor table, however often it fetches from the host: a call that fails
leaves no new descriptor behind, and one that succeeds leaves one, for a file object that was not
there before (`open_post`). On the way the fetch opens and closes a descriptor of its own.

`syscall_handler_openat` calls `syscall_handler_open` and takes its result for an error: what it
returns is the negated descriptor, or the positive error. `openat_differs`: in a file system with
the descriptors 0 to 2 in use, `openat` never does what `open` of the full path does.

Key definitions: `Std`, `OpenPost`.
Key theorems: `open_post`, `openat_differs`.
-/
import Coffer.Vfs.Frame
import Coffer.Vfs.Directory

namespace Coffer
namespace Fs

open Lib Lib.Cmd

/-! ### Errors of a lookup -/

/-- `ENFILE` is not among the errors. -/
def NotEnfile {α : Type} (m : FsM (Except Errno α)) : Prop :=
  ∀ s, wp m (fun r _ => r ≠ .error .enfile) (fun _ => True) s

namespace NotEnfile

variable {α β : Type}

theorem bind {m : FsM α} {k : α → FsM (Except Errno β)} (hk : ∀ a, NotEnfile (k a)) : NotEnfile (m >>= k) :=
  fun _ => wp_bind_any fun a t => hk a t

/-- The result of a command that has the property, with the case of an error passed on. -/
theorem bind_result {m : FsM (Except Errno α)} {k : Except Errno α → FsM (Except Errno β)} (hm : NotEnfile m)
    (hk : ∀ r, r ≠ .error .enfile → NotEnfile (k r)) : NotEnfile (m >>= k) := fun s =>
  (wp_bind ..).mpr (wp_mono (hm s) fun r t hr => hk r hr t)

theorem ite {c : Prop} [Decidable c] {m m' : FsM (Except Errno α)} (hm : NotEnfile m) (hm' : NotEnfile m') :
    NotEnfile (if c then m else m') := fun s => wp_ite (fun _ => hm s) fun _ => hm' s

theorem error {e : Errno} (h : e ≠ .enfile) : NotEnfile (pure (.error e) : FsM (Except Errno α)) :=
  fun _ he => h (Except.error.inj he)

theorem ok (a : α) : NotEnfile (pure (.ok a) : FsM (Except Errno α)) := fun _ he => (by cases he)

theorem fault (e : FsFault) : NotEnfile (Cmd.fault e : FsM (Except Errno α)) := fun _ => trivial

theorem passed {e : Errno} (h : (.error e : Except Errno β) ≠ .error .enfile) :
    NotEnfile (pure (.error e) : FsM (Except Errno α)) := error fun he => h (by rw [he])

theorem ramfsLookup (dvp : Vnode) (name : Str) : NotEnfile (ramfsLookup dvp name) := by
  refine ite (error (by decide)) (bind fun _ => bind fun r => ?_)
  cases r with
  | none => exact error (by decide)
  | some n => exact bind fun _ => ite (fault _) (bind fun _ => bind fun _ => bind fun _ => ok _)

theorem childDentry (ddp : ℕ) (name node : Str) : NotEnfile (childDentry ddp name node) := by
  refine bind fun r => ?_
  cases r with
  | some dp => exact ok _
  | none =>
    refine bind fun _ => bind_result (ramfsLookup _ _) fun r hr => ?_
    cases r with
    | error e => exact passed hr
    | ok vp =>
      refine bind fun dp => bind fun _ => ?_
      cases dp with
      | none => exact error (by decide)
      | some dp => exact ok _

theorem walk (fp : Str) (len ddp : ℕ) (dp : Option ℕ) (node : Str) (p : List (Str × Bool)) :
    NotEnfile (walk fp len ddp dp node p) := by
  induction p generalizing ddp dp node with
  | nil =>
    cases dp with
    | none => exact fault _
    | some dp => exact ok _
  | cons c p ih =>
    refine bind_result (childDentry _ _ _) fun r hr => ?_
    cases r with
    | error e => exact bind fun _ => passed hr
    | ok dp =>
      refine bind fun _ => bind fun v => ite ?_ (ite ?_ (ih _ _ _))
      · exact bind fun _ => bind fun _ => ok _
      · exact bind fun _ => error (by decide)

theorem nameiLoop (n : ℕ) (fp : Str) : NotEnfile (nameiLoop n fp) := by
  induction n generalizing fp with
  | zero => exact error (by decide)
  | succ n ih =>
    rw [Fs.nameiLoop]
    cases findRoot fp with
    | none => exact error (by decide)
    | some p =>
      refine bind fun r => ?_
      cases r with
      | some dp => exact ok _
      | none =>
        refine bind fun _ => bind fun _ => bind_result (walk _ _ _ _ _ _) fun r hr => ?_
        rcases r with e | (dp | fp)
        · exact passed hr
        · exact ok _
        · exact ih fp

theorem namei (path : Str) : NotEnfile (namei path) := nameiLoop _ _

theorem lookup (path : Str) : NotEnfile (lookup path) := by
  refine ite (error (by decide)) ?_
  cases lastSlash (strlcpy path) with
  | none => exact fault _
  | some x =>
    cases lastSlash path with
    | none => exact fault _
    | some y =>
      refine bind_result (namei _) fun r hr => ?_
      cases r with
      | error e => exact passed hr
      | ok dp => exact bind fun _ => ite (bind fun _ => error (by decide)) (ok _)

theorem openNoFollowChk (path : Str) : NotEnfile (openNoFollowChk path) := by
  refine bind_result (lookup path) fun r hr => ?_
  rcases r with e | ⟨ddp, name⟩
  · exact passed hr
  have hlast : NotEnfile (nameiLastNofollow path ddp) := by
    unfold nameiLastNofollow
    cases findRoot path with
    | none => exact error (by decide)
    | some p =>
      cases lastSlash path with
      | none => exact error (by decide)
      | some y => exact childDentry _ _ _
  refine bind_result hlast fun r hr => ?_
  cases r with
  | error e => exact bind fun _ => passed hr
  | ok dp =>
    refine bind fun v => bind fun _ => bind fun _ => ?_
    split
    · exact error (by decide)
    · exact ok _

/-- A file is truncated to 0 bytes without asking for memory. -/
theorem ramfsTruncate_zero (vp : ℕ) (v : Vnode) : NotEnfile (ramfsTruncate vp v 0) := by
  refine bind fun x => bind fun a => ?_
  cases h : (ramFile x v).truncate 0 a with
  | error e =>
    unfold RamFile.truncate at h
    rw [if_pos rfl] at h
    cases h
  | ok r => exact bind fun _ => ok _

theorem openDentry (dp : ℕ) (flags : Flags) : NotEnfile (openDentry dp flags) := by
  refine bind fun _ => ite (bind fun _ => error (by decide)) (bind fun f => bind fun _ => ite ?_ (ok _))
  refine bind fun d => bind fun v => ite (bind fun _ => bind fun _ => error (by decide)) ?_
  refine bind_result (ramfsTruncate_zero d.dVnode v) fun r hr => ?_
  cases r with
  | error e => exact bind fun _ => bind fun _ => passed hr
  | ok _ => exact ok _

theorem ramfsCreate (dnp : ℕ) (name : Str) (type : VType) : NotEnfile (ramfsCreate dnp name type) := by
  refine ite (error (by decide)) (bind fun _ => ite (error (by decide)) ?_)
  exact bind fun _ => ite (error (by decide)) (bind fun _ => bind fun _ => bind fun _ => bind fun _ => ok _)

theorem vnAccessWrite {v : Vnode} {e : Errno} (h : vnAccessWrite v = .error e) : e ≠ .enfile := by
  unfold Fs.vnAccessWrite at h
  split at h
  · cases h
    decide
  · cases h

theorem sysOpen (path : Str) (oflags : Flags) : NotEnfile (sysOpen path oflags) := by
  refine ite (bind_result (namei path) fun r hr => ?_) (bind_result (ite (openNoFollowChk path) (ok _)) fun r hr => ?_)
  · split
    · exact ite (bind fun _ => error (by decide)) (openDentry _ _)
    · refine bind_result (lookup path) fun r hr => ?_
      rcases r with e | ⟨ddp, name⟩
      · exact passed hr
      refine bind fun v => ?_
      cases ha : Fs.vnAccessWrite v with
      | error e => exact bind fun _ => error (vnAccessWrite ha)
      | ok _ =>
        refine bind_result (ramfsCreate _ _ _) fun r hr => bind fun _ => ?_
        cases r with
        | error e => exact passed hr
        | ok _ =>
          refine bind_result (namei path) fun r hr => ?_
          cases r with
          | error e => exact passed hr
          | ok dp => exact openDentry _ _
    · exact passed hr
  · cases r with
    | error e => exact passed hr
    | ok _ =>
      refine bind_result (namei path) fun r hr => ?_
      cases r with
      | error e => exact passed hr
      | ok dp =>
        refine bind fun v => ?_
        dsimp only
        split
        · rename_i e he
          refine bind fun _ => error ?_
          rintro rfl
          rcases ha : Fs.vnAccessWrite v with e' | u
          · have := vnAccessWrite ha
            simp only [ha] at he
            split_ifs at he <;> simp_all
          · simp only [ha] at he
            split_ifs at he <;> simp_all
        · exact openDentry _ _

end NotEnfile

/-! ### The table -/

/-- The table of a file system with the descriptors 0 to 2 in use: a slot whose bit is clear is empty,
and the others hold objects that exist. -/
structure Std (s : Fs) : Prop where
  table : TableOk s
  bits : ∀ i < 3, s.bitmap i = true
  old : ∀ i f, s.slots i = some f → f < s.next

/-- No descriptor has been added. -/
structure Before (s t : Fs) : Prop where
  std : Std t
  next : s.next ≤ t.next
  slots : ∀ i f, t.slots i = some f → s.slots i = some f

/-- What a call of `open` that returned `ret` has done to the table. -/
structure OpenPost (s : Fs) (ret : ℤ) (t : Fs) : Prop where
  std : Std t
  next : s.next ≤ t.next
  slots : ∀ i f, t.slots i = some f → s.slots i = some f ∨ ((i : ℤ) = ret ∧ s.next ≤ f)
  error : ret ≠ -Errno.enfile.code
  new : 0 ≤ ret → 3 ≤ ret ∧ (ret = Errno.enfile.code ∨ ∃ f, t.slots ret.toNat = some f ∧ s.next ≤ f)

variable {s t u : Fs}

theorem Std.same (h : Std s) (hst : SameTable s t) : Std t where
  table i hi := by
    rw [hst.slots]
    exact h.table i (by rw [← hst.bitmap]; exact hi)
  bits i hi := by
    rw [hst.bitmap]
    exact h.bits i hi
  old i f hf := by
    rw [hst.slots] at hf
    exact lt_of_lt_of_le (h.old i f hf) hst.next

theorem Before.refl (h : Std s) : Before s s := ⟨h, le_refl _, fun _ _ h => h⟩

theorem Before.same (h : Before s t) (htu : SameTable t u) : Before s u where
  std := h.std.same htu
  next := h.next.trans htu.next
  slots i f hf := h.slots i f (by rw [← htu.slots]; exact hf)

/-- A call that returned an error. -/
theorem Before.failed (h : Before s t) {e : Errno} (he : e ≠ .enfile) : OpenPost s (-e.code) t where
  std := h.std
  next := h.next
  slots i f hf := Or.inl (h.slots i f hf)
  error := by
    intro h
    exact he (by cases e <;> first | rfl | exact absurd h (by decide))
  new h0 := absurd h0 (by have := e.code_pos; omega)

theorem openFd_post (h : Before s t) {f : ℕ} {x : VFile} (hx : t.files f = some x) (hc : 1 ≤ x.fCount)
    (hf : s.next ≤ f) (hf' : f < t.next) : ∃ ret u, openFd f t = .ok (ret, u) ∧ OpenPost s ret u := by
  rcases hfree : t.freeFd with _ | fd
  · refine ⟨_, t, openFd_full hx hc hfree, h.std, h.next, fun i g hg => Or.inl (h.slots i g hg), ?_, ?_⟩
    · decide
    · exact fun _ => ⟨by decide, Or.inl rfl⟩
  · obtain ⟨-, hbit⟩ := freeFd_some hfree
    have hfd : 3 ≤ fd := by
      by_contra hlt
      rw [h.std.bits fd (by omega)] at hbit
      cases hbit
    have hslots (i g : ℕ) (hg : ((t.addFd fd f).setFile f x).slots i = some g) :
        (i = fd ∧ g = f) ∨ t.slots i = some g := by
      replace hg : Function.update t.slots fd (some f) i = some g := hg
      by_cases he : i = fd
      · rw [he, Function.update_self] at hg
        exact Or.inl ⟨he, (Option.some.inj hg).symm⟩
      · rw [Function.update_of_ne he] at hg
        exact Or.inr hg
    refine ⟨_, _, openFd_free h.std.table hx hc hfree, ⟨h.std.table.addFd fd f, ?_, ?_⟩, h.next, ?_, ?_, ?_⟩
    · intro i hi
      show Function.update t.bitmap fd true i = true
      rw [Function.update_of_ne (by omega : i ≠ fd)]
      exact h.std.bits i hi
    · intro i g hg
      rcases hslots i g hg with ⟨-, rfl⟩ | hg
      · exact hf'
      · exact h.std.old i g hg
    · intro i g hg
      rcases hslots i g hg with ⟨rfl, rfl⟩ | hg
      · exact Or.inr ⟨rfl, hf⟩
      · exact Or.inl (h.slots i g hg)
    · show (fd : ℤ) ≠ -23
      omega
    · refine fun _ => ⟨by omega, Or.inr ⟨f, ?_, hf⟩⟩
      show Function.update t.slots fd (some f) fd = some f
      exact Function.update_self ..

/-! ### sys_open -/

theorem ramfsTruncate_files (vp : ℕ) (v : Vnode) (length : ℤ) (t : Fs) :
    wp (ramfsTruncate vp v length) (fun _ u => u.files = t.files ∧ u.next = t.next) (fun _ => True) t := by
  refine (wp_bind ..).mpr (wp_load_any fun n => (wp_bind ..).mpr ?_)
  rw [wp_ok (kmallocIf_ok t _)]
  split
  · exact ⟨rfl, rfl⟩
  · exact ⟨rfl, rfl⟩

/-- The file object `openDentry` makes. -/
theorem openDentry_new (dp : ℕ) (flags : Flags) (t : Fs) :
    wp (openDentry dp flags) (fun r u => ∀ f, r = .ok f →
      ∃ x, u.files f = some x ∧ 1 ≤ x.fCount ∧ t.next ≤ f ∧ f < u.next) (fun _ => True) t := by
  have herr {m : FsM Unit} {e : Errno} {u : Fs} : wp (m >>= fun _ => (pure (.error e) : FsM (Except Errno ℕ)))
      (fun r u => ∀ f, r = .ok f → ∃ x, u.files f = some x ∧ 1 ≤ x.fCount ∧ t.next ≤ f ∧ f < u.next)
      (fun _ => True) u := wp_bind_any fun _ _ f hf => (by cases hf)
  have hnew {u : Fs} (hu : u.files t.next = some ⟨flags, 1, 0, some dp⟩) (hn : u.next = t.next + 1) :
      ∀ f, (.ok t.next : Except Errno ℕ) = .ok f →
        ∃ x, u.files f = some x ∧ 1 ≤ x.fCount ∧ t.next ≤ f ∧ f < u.next := by
    rintro f hf
    cases hf
    exact ⟨_, hu, le_refl _, le_refl _, by omega⟩
  have hself (g : ℕ → Option VFile) : Function.update g t.next (some ⟨flags, 1, 0, some dp⟩) t.next =
      some ⟨flags, 1, 0, some dp⟩ := Function.update_self ..
  refine wp_ite (fun _ => herr) fun _ => ?_
  refine wp_ite (fun _ => ?_) fun _ => hnew (hself _) rfl
  refine (wp_bind ..).mpr (wp_load_any fun d => (wp_bind ..).mpr (wp_load_any fun v => ?_))
  refine wp_ite (fun _ => ?_) fun _ => (wp_bind ..).mpr (wp_mono (ramfsTruncate_files ..) fun r u hu => ?_)
  · exact wp_bind_any fun _ _ => herr
  cases r with
  | error e => exact wp_bind_any fun _ _ => herr
  | ok _ => exact hnew ((congrFun hu.1 t.next).trans (hself _)) hu.2

/-- `sys_open` before a descriptor has been added. -/
theorem sysOpen_before (h : Before s t) (path : Str) (flags : Flags) :
    wp (sysOpen path flags) (fun r u => Before s u ∧ r ≠ .error .enfile ∧ ∀ f, r = .ok f →
      ∃ x, u.files f = some x ∧ 1 ≤ x.fCount ∧ s.next ≤ f ∧ f < u.next) (fun _ => True) t := by
  have hnew : wp (sysOpen path flags) (fun r u => ∀ f, r = .ok f →
      ∃ x, u.files f = some x ∧ 1 ≤ x.fCount ∧ s.next ≤ f ∧ f < u.next) (fun _ => True) t := by
    refine SameTable.wp_sysOpen (fun e t _ f h => (by cases h)) fun dp mask u _ hu => ?_
    refine wp_mono (openDentry_new dp _ u) fun r w hr f hf => ?_
    obtain ⟨x, hx, hc, hle, hlt⟩ := hr f hf
    exact ⟨x, hx, hc, (h.next.trans hu.next).trans hle, hlt⟩
  refine wp_mono_fault (wp_and (SameTable.sysOpen path flags t) (wp_and (NotEnfile.sysOpen path flags t) hnew))
    ?_ fun _ _ => trivial
  rintro r u ⟨hu, hr, hf⟩
  exact ⟨h.same hu, hr, hf⟩

/-! ### open -/

/-- `syscall_handler_close` of a descriptor that is not 0, 1 or 2. -/
theorem close_wp (t : Fs) {fd : ℤ} (hfd : 3 ≤ fd) :
    wp (syscallHandlerClose fd) (fun ret u => ret = 0 →
      u.slots = Function.update t.slots fd.toNat none ∧ u.bitmap = Function.update t.bitmap fd.toNat false ∧
      t.next ≤ u.next) (fun _ => True) t := by
  refine wp_ite (fun h => absurd h (by omega)) fun _ => ?_
  refine (wp_bind ..).mpr (wp_mono (SameTable.files.vfscoreGetFile fd t) fun r t₁ ht₁ => ?_)
  cases r with
  | none =>
    intro h
    exact absurd h (by decide)
  | some f =>
    refine (wp_bind ..).mpr ?_
    rw [vfscorePutFd, wp_bind, wp_get, wp_bind, wp_modify]
    -- the references that are dropped leave the table
    have hend : ∀ u, SameTable { t₁ with
          bitmap := Function.update t₁.bitmap fd.toNat false
          slots := Function.update t₁.slots fd.toNat none } u →
        wp (fdrop f >>= fun _ => (pure 0 : FsM ℤ)) (fun ret u => ret = 0 →
          u.slots = Function.update t.slots fd.toNat none ∧ u.bitmap = Function.update t.bitmap fd.toNat false ∧
          t.next ≤ u.next) (fun _ => True) u := by
      intro u hu
      refine (wp_bind ..).mpr (wp_mono (SameTable.files.fdrop f u) fun _ w hw _ => ?_)
      refine ⟨?_, ?_, (ht₁.next.trans hu.next).trans hw.next⟩
      · rw [hw.slots, hu.slots, ← ht₁.slots]
      · rw [hw.bitmap, hu.bitmap, ← ht₁.bitmap]
    rcases t₁.slots fd.toNat with _ | g
    · exact hend _ (SameTable.refl _)
    · exact wp_mono (SameTable.files.fdrop g _) fun _ u hu => hend u hu

/-- A fetch adds no descriptor: the one it opens it closes. -/
theorem fetch_before (h : Before s t) (pathname : Str) (reply : Option HostReply)
    {openAgain : FsM (ℤ × List FileWrite)}
    (hopen : ∀ t, Std t → wp openAgain (fun r u => OpenPost t r.1 u) (fun _ => True) t) :
    wp (fetchFromHost pathname reply openAgain) (fun _ u => Before s u) (fun _ => True) t := by
  refine wp_ite (fun _ => h) fun _ => ?_
  rcases reply with _ | r
  · trivial
  refine wp_ite (fun _ => h) fun _ => ?_
  refine (wp_bind ..).mpr (wp_mono (SameTable.sys.mkdirDirForFetch _ _ t) fun _ t₁ ht₁ => ?_)
  have h₁ := h.same ht₁
  refine (wp_bind ..).mpr (wp_mono (hopen t₁ h₁.std) fun r₁ t₂ hp => ?_)
  refine wp_ite (fun _ => trivial) fun hge => ?_
  obtain ⟨hfd, -⟩ := hp.new (not_lt.mp hge)
  refine (wp_bind ..).mpr (wp_mono (SameTable.files.kmalloc t₂) fun a t₃ ht₃ => ?_)
  refine wp_ite (fun _ => trivial) fun _ => ?_
  refine (wp_bind ..).mpr (wp_mono (SameTable.files.syscallHandlerWritev SameTable.putNode r₁.1 _ t₃)
    fun w t₄ ht₄ => ?_)
  have h₄ := SameTable.trans _ _ _ ht₃ ht₄
  refine (wp_bind ..).mpr (wp_mono (close_wp t₄ hfd) fun error u hu => ?_)
  refine wp_ite (fun _ => trivial) fun h0 => ?_
  obtain ⟨hslots, hbits, hnext⟩ := hu (not_not.mp h0)
  have hbefore : Before s u := by
    refine ⟨⟨?_, ?_, ?_⟩, ?_, ?_⟩
    · intro i hi
      by_cases he : i = r₁.1.toNat
      · rw [hslots, he, Function.update_self]
      · rw [hbits, Function.update_of_ne he, h₄.bitmap] at hi
        rw [hslots, Function.update_of_ne he, h₄.slots]
        exact hp.std.table i hi
    · intro i hi
      rw [hbits, Function.update_of_ne (by omega), h₄.bitmap]
      exact hp.std.bits i hi
    · intro i f hf
      by_cases he : i = r₁.1.toNat
      · rw [hslots, he, Function.update_self] at hf
        cases hf
      · rw [hslots, Function.update_of_ne he, h₄.slots] at hf
        exact lt_of_lt_of_le (hp.std.old i f hf) (h₄.next.trans hnext)
    · exact ((h₁.next.trans hp.next).trans h₄.next).trans hnext
    · intro i f hf
      by_cases he : i = r₁.1.toNat
      · rw [hslots, he, Function.update_self] at hf
        cases hf
      · rw [hslots, Function.update_of_ne he, h₄.slots] at hf
        rcases hp.slots i f hf with hold | ⟨hi, -⟩
        · exact h₁.slots i f hold
        · exact absurd (by rw [← hi]; rfl) he
  rcases w with e | ⟨n, w⟩
  · exact hbefore
  · exact hbefore

/-- `syscall_handler_open`, from what its fetch does. -/
theorem openWith_post (h : Std s) (pathname : Str) (flags : Flags) {fetch : FsM (List FileWrite)}
    (hfetch : ∀ t, Before s t → wp fetch (fun _ u => Before s u) (fun _ => True) t) :
    wp (openWith pathname flags fetch) (fun r u => OpenPost s r.1 u) (fun _ => True) s := by
  rw [openWith, wp_bind, wp, taskConv]
  rcases hc : pathConv s.cwd pathname with e | (e | path)
  · trivial
  · refine (Before.refl h).failed ?_
    unfold pathConv at hc
    dsimp only at hc
    split at hc
    · cases hc
      decide
    · split at hc <;>
      · generalize pathConvLoop _ _ _ = r at hc
        cases r <;> cases hc
  · have hfd {t : Fs} {f : ℕ} {ws : List FileWrite} (ht : Before s t)
        (hf : ∃ x, t.files f = some x ∧ 1 ≤ x.fCount ∧ s.next ≤ f ∧ f < t.next) :
        wp (openFd f >>= fun ret => (pure (ret, ws) : FsM (ℤ × List FileWrite)))
          (fun r u => OpenPost s r.1 u) (fun _ => True) t := by
      obtain ⟨x, hx, hc, hle, hlt⟩ := hf
      obtain ⟨ret, u, heq, hpost⟩ := openFd_post ht hx hc hle hlt
      rw [wp_bind, wp_ok heq]
      exact hpost
    refine (wp_bind ..).mpr (wp_mono (sysOpen_before (Before.refl h) path flags) ?_)
    rintro r t ⟨ht, hne, hf⟩
    cases r with
    | ok f => exact hfd ht (hf f rfl)
    | error e =>
      refine (wp_bind ..).mpr (wp_mono (hfetch t ht) fun ws t₁ ht₁ => ?_)
      refine (wp_bind ..).mpr (wp_mono (sysOpen_before ht₁ path flags) ?_)
      rintro r₂ t₂ ⟨ht₂, hne₂, hf₂⟩
      cases r₂ with
      | ok f => exact hfd ht₂ (hf₂ f rfl)
      | error e₂ => exact ht₂.failed fun he => hne₂ (by rw [he])

/-- **What `open` does to the table**, whatever the host replies. -/
theorem open_post (replies : List HostReply) (h : Std s) (pathname : Str) (flags : Flags) :
    wp (syscallHandlerOpen replies pathname flags) (fun r u => OpenPost s r.1 u) (fun _ => True) s := by
  induction replies generalizing s flags with
  | nil =>
    refine openWith_post h pathname flags fun t ht => fetch_before ht pathname none fun _ _ => trivial
  | cons r rs ih =>
    exact openWith_post h pathname flags fun t ht => fetch_before ht pathname (some r) fun t ht => ih ht _

/-! ### openat -/

/-- `syscall_handler_openat` on an open directory: the value of the `open` inside, negated, and the
table it left. -/
theorem openat_inv {dirfd : ℤ} {f d : ℕ} {x : VFile} {y : Dentry} (h : Std s) (hop : Opened s dirfd f x)
    (hd : x.fDentry = some d) (hy : s.dentries d = some y) {p : Str} (hp : p.head? ≠ some '/')
    (flags : Flags) (replies : List HostReply) :
    wp (syscallHandlerOpenat replies dirfd p flags) (fun r t => OpenPost s (-r.1) t) (fun _ => True) s := by
  have hne : ¬ (p.head? = some '/' ∨ dirfd = -100) := by
    rintro (h | h)
    · exact hp h
    · have := hop.nonneg
      omega
  have hheld : Std (s.setFile f (hold x)) := h.same ⟨rfl, rfl, le_refl _⟩
  rw [syscallHandlerOpenat, if_neg hne, wp_bind, wp_ok hop.getFile]
  refine (wp_bind ..).mpr ((wp_ok (getFile_ok (setFile_self ..))).mpr ?_)
  simp only [hold_fDentry, hd]
  refine (wp_bind ..).mpr ((wp_ok (getDentry_ok (show (s.setFile f _).dentries d = some y from hy))).mpr ?_)
  refine (wp_bind ..).mpr (wp_mono (open_post replies hheld _ flags) fun r u hpost => ?_)
  refine (wp_bind ..).mpr (wp_mono (SameTable.files.fdrop f u) fun _ t ht => ?_)
  show OpenPost s (- -r.1) t
  rw [neg_neg]
  exact ⟨hpost.std.same ht, hpost.next.trans ht.next, fun i g hg => hpost.slots i g (by rw [← ht.slots]; exact hg),
    hpost.error, fun h0 => (hpost.new h0).imp id (Or.imp id fun ⟨g, hg, hle⟩ => ⟨g, by rw [ht.slots]; exact hg, hle⟩)⟩

/-- Two results of `open` of opposite signs leave different tables. -/
theorem OpenPost.not_opposite {v : ℤ} (h : Std s) (hp : OpenPost s v t) (hn : OpenPost s (-v) t) : False := by
  -- a descriptor that is there for one of them is new, and the other one has no new descriptor
  have hnew {v : ℤ} (hp : OpenPost s v t) (hn : OpenPost s (-v) t) (h0 : 0 ≤ v) : False := by
    obtain ⟨h3, he | ⟨f, hf, hle⟩⟩ := hp.new h0
    · exact hn.error (by rw [he])
    · rcases hn.slots v.toNat f hf with hold | ⟨hi, -⟩
      · exact absurd (h.old _ _ hold) (not_lt.mpr hle)
      · omega
  rcases le_total 0 v with h0 | h0
  · exact hnew hp hn h0
  · exact hnew hn (by rw [neg_neg]; exact hp) (by omega)

/-- **`openat` is not `open` of the full path.** In a file system with the descriptors 0 to 2 in use, for
every open directory, every relative name and all flags, and whatever the host replies to the one or
to the other, `openat` and `open` of the path of the directory, a `/` and the name do not both return
the same value and leave the same state. -/
theorem openat_differs (s : Fs) (h : Std s) (dirfd : ℤ) (f d : ℕ) (x : VFile) (y : Dentry)
    (hop : Opened s dirfd f x) (hd : x.fDentry = some d) (hy : s.dentries d = some y) (p : Str)
    (hp : p.head? ≠ some '/') (flags : Flags) (replies replies' : List HostReply) :
    ¬ ∃ v ws ws' t, syscallHandlerOpen replies (y.dPath ++ '/' :: p) flags s = .ok ((v, ws), t) ∧
      syscallHandlerOpenat replies' dirfd p flags s = .ok ((v, ws'), t) := by
  rintro ⟨v, ws, ws', t, hopen, hopenat⟩
  have hpost : OpenPost s v t := of_wp (a := (v, ws)) (open_post replies h _ flags) hopen
  have hneg : OpenPost s (-v) t := of_wp (a := (v, ws')) (openat_inv h hop hd hy hp flags replies') hopenat
  exact OpenPost.not_opposite h hpost hneg

theorem rootOpen_std : Std rootOpen where
  table i hi := by
    have h4 : ¬ i < 4 := of_decide_eq_false hi
    show (if i < 3 then some 3 else if i = 3 then some 4 else none) = none
    rw [if_neg (by omega), if_neg (by omega)]
  bits i hi := decide_eq_true (show i < 4 by omega)
  old i f hf := by
    replace hf : (if i < 3 then some 3 else if i = 3 then some 4 else none) = some f := hf
    show f < 5
    split at hf
    · cases hf
      decide
    · split at hf
      · cases hf
        decide
      · cases hf

theorem openat_differs_root : ¬ ∃ v ws ws' t,
    syscallHandlerOpen [] ['/', '/', 'f'] oCreat rootOpen = .ok ((v, ws), t) ∧
    syscallHandlerOpenat [] 3 ['f'] oCreat rootOpen = .ok ((v, ws'), t) :=
  openat_differs rootOpen rootOpen_std 3 4 2 ⟨1, 1, 0, some 2⟩ ⟨2, ['/'], 1, none⟩
    ⟨by decide, by decide, rfl, rfl, rfl, le_refl _⟩ rfl rfl ['f'] (by decide) oCreat [] []

/-- **A descriptor returned with the wrong sign.** In the root directory at the descriptor 3, `open` of a
new file returns the descriptor 4 and `openat` returns −4. -/
theorem openat_negated :
    (syscallHandlerOpen [] ['/', '/', 'f'] oCreat rootOpen).toOption.map (fun r => r.1.1) = some 4 ∧
    (syscallHandlerOpenat [] 3 ['f'] oCreat rootOpen).toOption.map (fun r => r.1.1) = some (-4) := by
  refine ⟨?_, ?_⟩ <;> decide +kernel

end Fs
end Coffer
