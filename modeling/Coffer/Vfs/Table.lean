/-
# The descriptor table and its files

Every file object is counted: by the slots of the descriptor table that hold it and by the calls that are under way, `T`.
A file on the heap has a dentry, and refers to it once. `Wf` says so of a state, together with the cache in order. The
functions of `vfs/fd.c` and `vfs/file.c` keep it, each with its effect on `T`: `fhold` adds a holder, `fdrop` takes one
away and closes the file with the last (`Wf.fdrop_wp`), a slot is a holder like any other.

The console is the file 3, of the descriptors 0 to 2. It is on no heap; its two first references are never given back.

Key definitions: `Wf`, `openRefs`, `inSlots`.
Key theorems: `Wf.recount`, `Wf.fdrop_wp`, `Wf.addFd`, `Wf.dropSlot`, `Wf.opened`.
-/
import Coffer.Vfs.Unlink

namespace Coffer
namespace Fs

open Lib Lib.Cmd

variable {s t : Fs} {T T' : ℕ → ℕ} {U : Set ℕ} {f fd : ℕ} {x x' : VFile}

/-! ### Holders -/

/-- What a slot holds; the standard streams are not counted. -/
def slotOwn (s : Fs) (fd : ℕ) : Option ℕ := if 3 ≤ fd then s.slots fd else none

/-- How many slots hold a file. -/
def inSlots (s : Fs) (f : ℕ) : ℕ := held s.slotOwn fdtableMaxFiles f

/-- The dentry a file refers to. -/
def fileOwn (s : Fs) (f : ℕ) : Option ℕ := (s.files f).bind VFile.fDentry

/-- How many files refer to a dentry. -/
def openRefs (s : Fs) (d : ℕ) : ℕ := held s.fileOwn s.next d

theorem FreshFiles.lt (h : FreshFiles s) (hx : s.files f = some x) : f < s.next := by
  by_contra hlt
  rw [h f (not_lt.mp hlt)] at hx
  cases hx

theorem openRefs_congr (h : FreshFiles s) (hf : t.files = s.files) (hn : s.next ≤ t.next) : t.openRefs = s.openRefs := by
  have hown : t.fileOwn = s.fileOwn := by
    funext g
    rw [fileOwn, fileOwn, hf]
  funext d
  rw [openRefs, openRefs, hown]
  refine held_of_le hn (fun g hg => ?_) d
  rw [fileOwn, h g hg]
  rfl

theorem openRefs_pos (h : FreshFiles s) (hx : s.files f = some x) {d : ℕ} (hd : x.fDentry = some d) : 1 ≤ s.openRefs d :=
  held_pos (h.lt hx) (by rw [fileOwn, hx, Option.bind_some, hd])

theorem inSlots_congr (h : t.slots = s.slots) : t.inSlots = s.inSlots := by
  have hown : t.slotOwn = s.slotOwn := by
    funext fd
    rw [slotOwn, slotOwn, h]
  funext f
  rw [inSlots, inSlots, hown]

/-- Every file is counted by its holders, and refers to a dentry that is there. `T` are the holders besides the slots. -/
structure Wf (s : Fs) (T : ℕ → ℕ) (U : Set ℕ) : Prop where
  cache : Cache s s.openRefs U
  fresh : FreshFiles s
  bit : ∀ fd, s.bitmap fd = (s.slots fd).isSome
  slot_lt : ∀ {fd f}, s.slots fd = some f → fd < fdtableMaxFiles
  slot : ∀ {fd f}, s.slots fd = some f → (s.files f).isSome
  stdio : ∀ {fd}, fd < 3 → s.slots fd = some 3
  console : ∃ x, s.files 3 = some x ∧ x.fDentry = none
  dentry : ∀ {f x}, s.files f = some x → f ≠ 3 → ∃ d, x.fDentry = some d
  count : ∀ {f x}, s.files f = some x → x.fCount = (if f = 3 then 2 else 0) + (s.inSlots f + T f : ℕ)
  pos : ∀ {f x}, s.files f = some x → 1 ≤ x.fCount
  temp : ∀ {f}, 0 < T f → (s.files f).isSome
  cwd : s.cwd = ['/']

/-- No open file refers to a dentry of `U`. -/
def Away (s : Fs) (U : Set ℕ) : Prop := ∀ ⦃f x d⦄, s.files f = some x → x.fDentry = some d → d ∉ U

/-- The files of `t` are files of `s`, with the dentries they had. -/
def FilesSub (s t : Fs) : Prop := ∀ ⦃f x'⦄, t.files f = some x' → ∃ x, s.files f = some x ∧ x'.fDentry = x.fDentry

theorem FilesSub.of_eq (h : t.files = s.files) : FilesSub s t := fun _ x' hx => ⟨x', h ▸ hx, rfl⟩

theorem FilesSub.trans {a b c : Fs} (h : FilesSub a b) (h' : FilesSub b c) : FilesSub a c := by
  intro f x hx
  obtain ⟨x₁, hx₁, h₁⟩ := h' hx
  obtain ⟨x₀, hx₀, h₀⟩ := h hx₁
  exact ⟨x₀, hx₀, h₁.trans h₀⟩

theorem FilesSub.away (h : FilesSub s t) (ha : Away s U) : Away t U := by
  intro f x d hx hd
  obtain ⟨x₀, hx₀, h₀⟩ := h hx
  exact ha hx₀ (h₀.symm.trans hd)

theorem setFile_other (s : Fs) (x : VFile) {g : ℕ} (h : g ≠ f) : (s.setFile f x).files g = s.files g :=
  Function.update_of_ne h ..

theorem FilesSub.setFile (hx : s.files f = some x) (hd : x'.fDentry = x.fDentry) : FilesSub s (s.setFile f x') := by
  intro g w hw
  by_cases hg : g = f
  · subst hg
    rw [setFile_self] at hw
    cases hw
    exact ⟨x, hx, hd⟩
  · rw [setFile_other s x' hg] at hw
    exact ⟨w, hw, rfl⟩

/-- The state with the slot of `fd` free. -/
def dropFd (s : Fs) (fd : ℕ) : Fs :=
  { s with bitmap := Function.update s.bitmap fd false, slots := Function.update s.slots fd none }

/-! ### What keeps it -/

namespace Wf

theorem tableOk (h : Wf s T U) : TableOk s := by
  intro fd hb
  rw [h.bit, Option.isSome_eq_false_iff, Option.isNone_iff_eq_none] at hb
  exact hb

theorem ne_console (h : Wf s T U) (hx : s.files f = some x) {d : ℕ} (hd : x.fDentry = some d) : f ≠ 3 := by
  rintro rfl
  obtain ⟨w, hw, hn⟩ := h.console
  rw [hx] at hw
  cases hw
  rw [hn] at hd
  cases hd

theorem placed (h : Wf s T U) (hx : s.files f = some x) {d : ℕ} (hd : x.fDentry = some d) (hU : d ∉ U) :
    ∃ cs, Placed s d cs := by
  have hsome := h.cache.isSome (openRefs_pos h.fresh hx hd)
  have hmem := h.cache.names.hashed hsome hU
  obtain ⟨cs, w, y, z, ha⟩ := h.cache.names.place hmem
  exact ⟨cs, hmem, ha.names, w, ha.dentry, ha.path⟩

/-- Only the cache and the nodes have changed. -/
theorem of_framed {U' : Set ℕ} (h : Wf s T U) (hst : Framed s t) (hf : t.files = s.files) (hc : Cache t s.openRefs U') :
    Wf t T U' where
  cache := by
    rw [openRefs_congr h.fresh hf hst.next]
    exact hc
  fresh := h.fresh.of_eq hf hst.next
  bit := by
    rw [hst.bitmap, hst.slots]
    exact h.bit
  slot_lt := by
    rw [hst.slots]
    exact h.slot_lt
  slot := by
    rw [hst.slots, hf]
    exact h.slot
  stdio := by
    rw [hst.slots]
    exact h.stdio
  console := by
    rw [hf]
    exact h.console
  dentry := by
    rw [hf]
    exact h.dentry
  count := by
    rw [hf, inSlots_congr hst.slots]
    exact h.count
  pos := by
    rw [hf]
    exact h.pos
  temp := by
    rw [hf]
    exact h.temp
  cwd := hst.cwd.trans h.cwd

theorem openRefs_setFile (hx : s.files f = some x) (hd : x'.fDentry = x.fDentry) :
    (s.setFile f x').openRefs = s.openRefs := by
  have hown : (s.setFile f x').fileOwn = s.fileOwn := by
    funext g
    rw [fileOwn, fileOwn]
    by_cases hg : g = f
    · subst hg
      rw [setFile_self, hx, Option.bind_some, Option.bind_some, hd]
    · rw [setFile_other s x' hg]
  funext d
  rw [openRefs, openRefs, hown]
  rfl

/-- **A file object changes**, its dentry aside; its count as the holders do. -/
theorem recount (h : Wf s T U) (hx : s.files f = some x) (hd : x'.fDentry = x.fDentry) (hT : ∀ g, g ≠ f → T' g = T g)
    (hc : x'.fCount + T f = x.fCount + T' f) (hpos : 1 ≤ x'.fCount) : Wf (s.setFile f x') T' U where
  cache := by
    rw [openRefs_setFile hx hd]
    exact h.cache.congr ⟨rfl, rfl, rfl, rfl, rfl, le_refl _⟩
  fresh g hg := by
    rw [setFile_other s x' (Nat.ne_of_gt ((h.fresh.lt hx).trans_le hg))]
    exact h.fresh g hg
  bit := h.bit
  slot_lt := h.slot_lt
  slot {fd g} hs := by
    by_cases hg : g = f
    · subst hg
      rw [setFile_self]
      rfl
    · rw [setFile_other s x' hg]
      exact h.slot hs
  stdio := h.stdio
  console := by
    obtain ⟨w, hw, hn⟩ := h.console
    by_cases h3 : 3 = f
    · subst h3
      rw [hx] at hw
      cases hw
      exact ⟨x', setFile_self .., hd.trans hn⟩
    · rw [setFile_other s x' h3]
      exact ⟨w, hw, hn⟩
  dentry {g w} hw h3 := by
    by_cases hg : g = f
    · subst hg
      rw [setFile_self] at hw
      cases hw
      rw [hd]
      exact h.dentry hx h3
    · rw [setFile_other s x' hg] at hw
      exact h.dentry hw h3
  count {g w} hw := by
    rw [show (s.setFile f x').inSlots = s.inSlots from inSlots_congr rfl]
    by_cases hg : g = f
    · subst hg
      rw [setFile_self] at hw
      cases hw
      have := h.count hx
      push_cast at this ⊢
      omega
    · rw [setFile_other s x' hg] at hw
      rw [hT g hg]
      exact h.count hw
  pos {g w} hw := by
    by_cases hg : g = f
    · subst hg
      rw [setFile_self] at hw
      cases hw
      exact hpos
    · rw [setFile_other s x' hg] at hw
      exact h.pos hw
  temp {g} hg0 := by
    by_cases hg : g = f
    · subst hg
      rw [setFile_self]
      rfl
    · rw [setFile_other s x' hg]
      rw [hT g hg] at hg0
      exact h.temp hg0
  cwd := h.cwd

/-- The count and the dentry stay. -/
theorem setFile (h : Wf s T U) (hx : s.files f = some x) (hd : x'.fDentry = x.fDentry) (hc : x'.fCount = x.fCount) :
    Wf (s.setFile f x') T U := h.recount hx hd (fun _ _ => rfl) (by rw [hc]) (by rw [hc]; exact h.pos hx)

theorem hold (h : Wf s T U) (hx : s.files f = some x) : Wf (s.setFile f (Fs.hold x)) (give T f) U := by
  refine h.recount hx rfl (fun g hg => Function.update_of_ne hg ..) ?_ ?_
  · rw [give, Function.update_self]
    show x.fCount + 1 + _ = _
    push_cast
    ring
  · have := h.pos hx
    show 1 ≤ x.fCount + 1
    omega

/-- A file is freed: nothing holds it, and its reference to the dentry has been given back. -/
theorem free (h : Wf s T U) (hx : s.files f = some x) {d : ℕ} (hd : x.fDentry = some d) (hslots : s.inSlots f = 0)
    (hst : Framed s t) (hn : t.next = s.next) (hf : t.files = Function.update s.files f none)
    (hc : Cache t (take s.openRefs d) U) : Wf t (Function.update T f 0) U := by
  have h3 := h.ne_console hx hd
  have hother {g : ℕ} (hg : g ≠ f) : t.files g = s.files g := by
    rw [hf, Function.update_of_ne hg]
  have hself : t.files f = none := by
    rw [hf, Function.update_self]
  have hne {g : ℕ} {w : VFile} (hw : t.files g = some w) : g ≠ f := by
    rintro rfl
    rw [hself] at hw
    cases hw
  have hrefs : t.openRefs = take s.openRefs d := by
    funext c
    have hsame (g : ℕ) (hg : g ≠ f) : t.fileOwn g = s.fileOwn g := by rw [fileOwn, fileOwn, hother hg]
    have hold : s.fileOwn f = some d := by rw [fileOwn, hx, Option.bind_some, hd]
    have hnow : t.fileOwn f = none := by rw [fileOwn, hself]; rfl
    have hdrop := held_drop (h.fresh.lt hx) hsame hold hnow c
    rw [openRefs, hn]
    by_cases hcd : c = d
    · subst hcd
      rw [if_pos rfl] at hdrop
      rw [take, Function.update_self, openRefs]
      omega
    · rw [if_neg (Ne.symm hcd)] at hdrop
      rw [take, Function.update_of_ne hcd, openRefs]
      omega
  have hslot {fd g : ℕ} (hs : s.slots fd = some g) : g ≠ f := by
    rintro rfl
    by_cases hfd : fd < 3
    · rw [h.stdio hfd] at hs
      cases hs
      exact h3 rfl
    · refine held_eq_zero.mp hslots fd (h.slot_lt hs) ?_
      rw [slotOwn, if_pos (not_lt.mp hfd), hs]
  refine ⟨by rw [hrefs]; exact hc, ?_, ?_, ?_, ?_, ?_, ?_, ?_, ?_, ?_, ?_, hst.cwd.trans h.cwd⟩
  · intro g hg
    by_cases hgf : g = f
    · rw [hgf, hself]
    · rw [hother hgf]
      exact h.fresh g (by omega)
  · rw [hst.bitmap, hst.slots]
    exact h.bit
  · rw [hst.slots]
    exact h.slot_lt
  · intro fd g hs
    rw [hst.slots] at hs
    rw [hother (hslot hs)]
    exact h.slot hs
  · rw [hst.slots]
    exact h.stdio
  · rw [hother (Ne.symm h3)]
    exact h.console
  · intro g w hw
    have hg := hne hw
    rw [hother hg] at hw
    exact h.dentry hw
  · intro g w hw
    have hg := hne hw
    rw [hother hg] at hw
    rw [inSlots_congr hst.slots, Function.update_of_ne hg]
    exact h.count hw
  · intro g w hw
    rw [hother (hne hw)] at hw
    exact h.pos hw
  · intro g hg0
    by_cases hg : g = f
    · subst hg
      rw [Function.update_self] at hg0
      exact absurd hg0 (lt_irrefl 0)
    · rw [Function.update_of_ne hg] at hg0
      rw [hother hg]
      exact h.temp hg0

/-- What `fdrop` leaves. -/
structure Dropped (s t : Fs) (f : ℕ) : Prop where
  framed : Framed s t
  nodes : t.nodes = s.nodes
  other : ∀ g, g ≠ f → t.files g = s.files g
  file : ∀ x, s.files f = some x → (x.fCount = 1 ∧ t.files f = none ∨
    x.fCount ≠ 1 ∧ t.files f = some { x with fCount := x.fCount - 1 })

theorem Dropped.filesSub (h : Dropped s t f) (hx : s.files f = some x) : FilesSub s t := by
  intro g w hw
  by_cases hg : g = f
  · subst hg
    rcases h.file x hx with ⟨-, hn⟩ | ⟨-, hs⟩
    · rw [hn] at hw
      cases hw
    · rw [hs] at hw
      cases hw
      exact ⟨x, hx, rfl⟩
  · rw [h.other g hg] at hw
    exact ⟨w, hw, rfl⟩

/-- **`fdrop`** takes one holder away, and closes the file with the last one. -/
theorem fdrop_wp {E : FsFault → Prop} (h : Wf s T U) (hT : 1 ≤ T f) :
    wp (fdrop f) (fun _ t => Wf t (take T f) U ∧ Dropped s t f) E s := by
  obtain ⟨x, hx⟩ := Option.isSome_iff_exists.mp (h.temp hT)
  have hpos := h.pos hx
  have hcount := h.count hx
  have hT' (g : ℕ) (hg : g ≠ f) : take T f g = T g := Function.update_of_ne hg ..
  have hst : Framed s (s.setFile f { x with fCount := x.fCount - 1 }) :=
    ⟨rfl, rfl, rfl, rfl, rfl, rfl, rfl, le_refl _, le_refl _⟩
  unfold fdrop
  rw [wp_bind, wp_ok (getFile_ok hx), wp_bind, wp_ok (putFile_ok ..)]
  refine wp_ite (fun h0 => by omega) fun _ => wp_ite (fun h1 => ?_) fun h1 => ?_
  · -- the last holder
    have h3 : f ≠ 3 := by
      rintro rfl
      rw [if_pos rfl] at hcount
      omega
    rw [if_neg h3] at hcount
    have hslots : s.inSlots f = 0 := by omega
    have hTf : T f = 1 := by omega
    obtain ⟨d, hd⟩ := h.dentry hx h3
    split
    · rename_i hnone
      rw [hd] at hnone
      cases hnone
    rename_i d' hd'
    obtain rfl : d = d' := Option.some.inj (hd.symm.trans hd')
    have hsame : SameCache s (s.setFile f { x with fCount := x.fCount - 1 }) := ⟨rfl, rfl, rfl, rfl, rfl, le_refl _⟩
    rw [wp_bind]
    refine wp_mono ((h.cache.congr hsame).drele_wp (openRefs_pos h.fresh hx hd)) fun _ t ht => ?_
    obtain ⟨ho, hc, hr⟩ := ht
    have hfiles : Function.update t.files f none = Function.update s.files f none := by
      rw [ho.files]
      show Function.update (Function.update s.files f _) f none = _
      rw [Function.update_idem]
    have hst' : Framed s { t with files := Function.update t.files f none } := by
      have := hst.trans ho.framed
      exact ⟨this.slots, this.bitmap, this.mRoot, this.cwd, this.mem, this.addr, this.around, this.next, this.asked⟩
    have hc' : Cache { t with files := Function.update t.files f none } (take s.openRefs d) U :=
      hc.congr ⟨rfl, rfl, rfl, rfl, rfl, le_refl _⟩
    have htake : take T f = Function.update T f 0 := by rw [take, hTf]
    refine ⟨by rw [htake]; exact h.free hx hd hslots hst' hr.next hfiles hc', hst', ho.nodes, fun g hg => ?_, fun w hw => ?_⟩
    · show Function.update t.files f none g = _
      rw [hfiles, Function.update_of_ne hg]
    · rw [hx] at hw
      cases hw
      exact Or.inl ⟨h1, Function.update_self ..⟩
  · refine ⟨h.recount hx rfl hT' ?_ ?_, hst, rfl, fun g hg => setFile_other s _ hg, fun w hw => ?_⟩
    · rw [take, Function.update_self]
      show x.fCount - 1 + _ = _
      omega
    · show 1 ≤ x.fCount - 1
      omega
    · rw [hx] at hw
      cases hw
      exact Or.inr ⟨h1, setFile_self ..⟩

/-! ### Slots -/

theorem install (h : Wf s T U) (hT : 1 ≤ T f) (hfree : s.slots fd = none) (hlt : fd < fdtableMaxFiles) :
    Wf (s.addFd fd f) (take T f) U := by
  have hother {i : ℕ} (hi : i ≠ fd) : (s.addFd fd f).slots i = s.slots i := Function.update_of_ne hi ..
  have hself : (s.addFd fd f).slots fd = some f := Function.update_self ..
  have h3 : 3 ≤ fd := by
    by_contra hlt3
    rw [h.stdio (not_le.mp hlt3)] at hfree
    cases hfree
  have hslots (g : ℕ) : (s.addFd fd f).inSlots g = s.inSlots g + if f = g then 1 else 0 := by
    rw [inSlots, inSlots]
    refine held_take hlt (fun i hi => ?_) ?_ ?_ g
    · rw [slotOwn, slotOwn, hother hi]
    · rw [slotOwn, if_pos h3, hfree]
    · rw [slotOwn, if_pos h3, hself]
  refine ⟨?_, h.fresh, fun i => ?_, fun {i g} hi => ?_, fun {i g} hi => ?_, fun {i} hi => ?_, h.console, h.dentry,
    fun {g w} hw => ?_, h.pos, fun {g} hg => ?_, h.cwd⟩
  · exact h.cache.congr ⟨rfl, rfl, rfl, rfl, rfl, le_refl _⟩
  · by_cases hi : i = fd
    · subst hi
      rw [hself]
      exact Function.update_self ..
    · rw [hother hi, ← h.bit]
      exact Function.update_of_ne hi ..
  · by_cases hifd : i = fd
    · rw [hifd]
      exact hlt
    · rw [hother hifd] at hi
      exact h.slot_lt hi
  · by_cases hifd : i = fd
    · subst hifd
      rw [hself] at hi
      cases hi
      exact h.temp hT
    · rw [hother hifd] at hi
      exact h.slot hi
  · rw [hother (by omega)]
    exact h.stdio hi
  · have hc := h.count hw
    rw [hslots]
    by_cases hg : g = f
    · subst hg
      rw [if_pos rfl, take, Function.update_self]
      push_cast at hc ⊢
      omega
    · rw [if_neg (Ne.symm hg), Nat.add_zero, take, Function.update_of_ne hg]
      exact hc
  · by_cases hgf : g = f
    · rw [hgf]
      exact h.temp hT
    · rw [take, Function.update_of_ne hgf] at hg
      exact h.temp hg

/-- A slot gives up what it holds, to the holders besides the slots. -/
theorem dropSlot (h : Wf s T U) (hs : s.slots fd = some f) (h3 : 3 ≤ fd) : Wf (s.dropFd fd) (give T f) U := by
  have hother {i : ℕ} (hi : i ≠ fd) : (s.dropFd fd).slots i = s.slots i := Function.update_of_ne hi ..
  have hself : (s.dropFd fd).slots fd = none := Function.update_self ..
  have hslots (g : ℕ) : s.inSlots g = (s.dropFd fd).inSlots g + if f = g then 1 else 0 := by
    rw [inSlots, inSlots]
    refine held_drop (h.slot_lt hs) (fun i hi => ?_) ?_ ?_ g
    · rw [slotOwn, slotOwn, hother hi]
    · rw [slotOwn, if_pos h3, hs]
    · rw [slotOwn, if_pos h3, hself]
  have hne {i g : ℕ} (hi : (s.dropFd fd).slots i = some g) : i ≠ fd := by
    rintro rfl
    rw [hself] at hi
    cases hi
  refine ⟨?_, h.fresh, fun i => ?_, fun {i g} hi => ?_, fun {i g} hi => ?_, fun {i} hi => ?_, h.console, h.dentry,
    fun {g w} hw => ?_, h.pos, fun {g} hg => ?_, h.cwd⟩
  · exact h.cache.congr ⟨rfl, rfl, rfl, rfl, rfl, le_refl _⟩
  · by_cases hi : i = fd
    · subst hi
      rw [hself]
      exact Function.update_self ..
    · rw [hother hi, ← h.bit]
      exact Function.update_of_ne hi ..
  · rw [hother (hne hi)] at hi
    exact h.slot_lt hi
  · rw [hother (hne hi)] at hi
    exact h.slot hi
  · rw [hother (by omega)]
    exact h.stdio hi
  · have hc := h.count hw
    rw [hslots] at hc
    by_cases hg : g = f
    · subst hg
      rw [if_pos rfl] at hc
      rw [give, Function.update_self]
      push_cast at hc ⊢
      omega
    · rw [if_neg (Ne.symm hg), Nat.add_zero] at hc
      rw [give, Function.update_of_ne hg]
      exact hc
  · by_cases hgf : g = f
    · rw [hgf]
      exact h.slot hs
    · rw [give, Function.update_of_ne hgf] at hg
      exact h.temp hg

/-- A slot that holds a file is open. -/
theorem opened (h : Wf s T U) {fd : ℤ} (h0 : 0 ≤ fd) (hs : s.slots fd.toNat = some f) : ∃ x, Opened s fd f x := by
  obtain ⟨x, hx⟩ := Option.isSome_iff_exists.mp (h.slot hs)
  refine ⟨x, h0, (Int.toNat_lt h0).mp (h.slot_lt hs), ?_, hs, hx, h.pos hx⟩
  rw [h.bit, hs]
  rfl

/-- `vfscore_get_file`. It strays only for a number outside the table. -/
theorem getFile_wp (h : Wf s T U) (fd : ℤ) :
    wp (vfscoreGetFile fd) (fun r t => match r with
      | none => t = s ∧ s.testBit fd = false
      | some f => ∃ x, Opened s fd f x ∧ t = s.setFile f (Fs.hold x))
      (fun e => e = .stray ∧ s.testBit fd = true ∧ ¬ (0 ≤ fd ∧ fd < fdtableMaxFiles)) s := by
  by_cases hin : 0 ≤ fd ∧ fd < fdtableMaxFiles
  · rcases hs : s.slots fd.toNat with _ | f
    · have hb : s.testBit fd = false := by
        rw [testBit_inside s hin.1 hin.2, h.bit, hs]
        rfl
      have hrun : vfscoreGetFile fd s = .ok (none, s) := by
        rw [vfscoreGetFile, bind_get, if_pos hb]
        rfl
      rw [wp_ok hrun]
      exact ⟨rfl, hb⟩
    · obtain ⟨x, hx⟩ := h.opened hin.1 hs
      rw [wp_ok hx.getFile]
      exact ⟨x, hx, rfl⟩
  · rw [vfscoreGetFile, wp_bind, wp_get]
    refine wp_ite (fun hb => ⟨rfl, hb⟩) fun hb => ?_
    rw [if_neg hin]
    exact ⟨rfl, by simpa using hb, hin⟩

/-! ### A new file -/

/-- What `sys_open` returns has one holder, the caller. -/
theorem open_ok {path : Str} {cs : List Str} {flags : Flags} (h : Wf s T U)
    (ho : OpenResult s s.openRefs U path cs flags (.ok f) t) :
    ∃ d fl, t.files f = some ⟨fl, 1, 0, some d⟩ ∧ SameMode fl flags ∧ Placed t d cs ∧ T f = 0 ∧ s.files f = none ∧
      (∀ g, g ≠ f → t.files g = s.files g) ∧ Wf t (give T f) U := by
  obtain ⟨hst, -, d, fl, hle, hlt, hmode, hfiles, hc, hp, -⟩ := ho
  have hnone : s.files f = none := h.fresh f hle
  have hself : t.files f = some ⟨fl, 1, 0, some d⟩ := by rw [hfiles, Function.update_self]
  have hother (g : ℕ) (hg : g ≠ f) : t.files g = s.files g := by rw [hfiles, Function.update_of_ne hg]
  have hsome {g : ℕ} (hg : (s.files g).isSome) : g ≠ f := by
    rintro rfl
    rw [hnone] at hg
    cases hg
  have hT : T f = 0 := by
    by_contra h0
    exact hsome (h.temp (Nat.pos_of_ne_zero h0)) rfl
  have hslot0 : s.inSlots f = 0 := by
    refine held_eq_zero.mpr fun fd _ hfd => ?_
    rw [slotOwn] at hfd
    split at hfd
    · exact hsome (h.slot hfd) rfl
    · cases hfd
  have h3 : f ≠ 3 := by
    rintro rfl
    obtain ⟨w, hw, -⟩ := h.console
    rw [hnone] at hw
    cases hw
  have hrefs : t.openRefs = give s.openRefs d := by
    have hold (c : ℕ) : held s.fileOwn t.next c = s.openRefs c :=
      held_of_le hst.next (fun g hg => by rw [fileOwn, h.fresh g hg]; rfl) c
    have hsame (g : ℕ) (hg : g ≠ f) : t.fileOwn g = s.fileOwn g := by rw [fileOwn, fileOwn, hother g hg]
    have hbefore : s.fileOwn f = none := by rw [fileOwn, hnone]; rfl
    have hnow : t.fileOwn f = some d := by rw [fileOwn, hself]; rfl
    funext c
    rw [openRefs, held_take hlt hsame hbefore hnow, hold]
    by_cases hcd : c = d
    · subst hcd
      rw [if_pos rfl, give, Function.update_self]
    · rw [if_neg (Ne.symm hcd), give, Function.update_of_ne hcd, Nat.add_zero]
  refine ⟨d, fl, hself, hmode, hp, hT, hnone, hother, by rw [hrefs]; exact hc, ?_, ?_, ?_, ?_, ?_, ?_, ?_, ?_, ?_, ?_,
    hst.cwd.trans h.cwd⟩
  · intro g hg
    rw [hother g (by omega)]
    exact h.fresh g (hst.next.trans hg)
  · rw [hst.bitmap, hst.slots]
    exact h.bit
  · rw [hst.slots]
    exact h.slot_lt
  · intro fd g hs
    rw [hst.slots] at hs
    rw [hother g (hsome (h.slot hs))]
    exact h.slot hs
  · rw [hst.slots]
    exact h.stdio
  · rw [hother 3 (Ne.symm h3)]
    exact h.console
  · intro g w hw hg3
    by_cases hg : g = f
    · subst hg
      rw [hself] at hw
      cases hw
      exact ⟨d, rfl⟩
    · rw [hother g hg] at hw
      exact h.dentry hw hg3
  · intro g w hw
    rw [inSlots_congr hst.slots]
    by_cases hg : g = f
    · subst hg
      rw [hself] at hw
      cases hw
      rw [if_neg h3, hslot0, give, Function.update_self, hT]
      rfl
    · rw [hother g hg] at hw
      rw [give, Function.update_of_ne hg]
      exact h.count hw
  · intro g w hw
    by_cases hg : g = f
    · subst hg
      rw [hself] at hw
      cases hw
      exact le_refl _
    · rw [hother g hg] at hw
      exact h.pos hw
  · intro g hg0
    by_cases hg : g = f
    · rw [hg, hself]
      rfl
    · rw [give, Function.update_of_ne hg] at hg0
      rw [hother g hg]
      exact h.temp hg0

theorem open_error {path : Str} {cs : List Str} {flags : Flags} {e : Errno} (h : Wf s T U)
    (ho : OpenResult s s.openRefs U path cs flags (.error e) t) : Wf t T U := h.of_framed ho.1 ho.2.2.1 ho.2.2.2.1

end Wf

end Fs
end Coffer
