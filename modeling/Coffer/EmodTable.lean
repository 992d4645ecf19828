/-
# Loading emodules on demand

`acquire_emodule` looks a module up in `emodule_table` and loads it if it is not there: the host is
asked for the size, a range is reserved and mapped (`Coffer.Emodule`), the image is received and
attested (`Coffer.Md2`), its init function is called and the getter it returns is registered. The
init function acquires the modules it depends on, so that loads nest, with the outer modules mapped
but not registered yet.

What a load notes of an image it has done: `Attested` holds whatever the modules do. For the rest
the modules must be in order (`Modules.Ok`): the dependencies fall in a rank, the other work of init
leaves the images alone (`Coffer.EmodWork`), and no getter is 0. Then a load finds its module
neither registered nor on the stack, and `acquire_sound` follows: a module is registered exactly
when it has been received, attested and started, each once and in this order; what is registered has
its dependencies registered and keeps its getter; and the images lie one behind the other from
`EMOD_INIT_BRK` on, each on pages of its own.

Key definitions: `Modules`, `acquireEmodule`, `LogOk`, `EmodInv`.
Key theorems: `acquireAll_attested`, `acquire_sound`.
-/
import Coffer.EmodWork
import Coffer.Md2
import Coffer.Lib.Command

namespace Coffer

open Lib Lib.Cmd

/-! ### The code -/

def emoduleTableSize : ℕ := 0x100

/-- What the host answers to a load: the size it reports, and the bytes it sends. -/
structure EmodReply where
  size : ℕ
  data : ℕ → UInt8

/-- The image in the reserved range. -/
def EmodReply.image (r : EmodReply) : List UInt8 := (List.range r.size).map r.data

theorem EmodReply.length_image (r : EmodReply) : r.image.length = r.size := by simp [image]

/-- What happens to an image. -/
inductive EmodKind
  | received
  | attested
  | started
deriving DecidableEq, Repr

structure EmodEvent where
  kind : EmodKind
  id : ℕ
  vaddr : ℕ
  image : List UInt8

/-- The manager: `emodule_table` (0 for a module that is not registered), the memory, how many loads there have been and
what happened in them, the latest first. -/
structure Manager where
  sys : Sys
  table : ℕ → ℕ
  asked : ℕ
  log : List EmodEvent

/-- Why a run stops: in a call that does not return, or too deep in nested loads. -/
inductive EmodWhy
  | halt (h : Halt)
  | depth
deriving DecidableEq, Repr

/-- A run that stopped, with what it had done. -/
structure EmodStop where
  why : EmodWhy
  state : Manager

abbrev EmodM := Cmd Manager EmodStop

namespace Manager

/-- The run ends here. -/
def stop {α : Type} (why : EmodWhy) : EmodM α := fun m => .error ⟨why, m⟩

/-- A call of the memory manager or of `attest_emodule`. -/
def call {α : Type} (r : Res α) : EmodM α := fun m =>
  match r with
  | .ok a => .ok (a, m)
  | .error h => .error ⟨.halt h, m⟩

def getEmodule (id : ℕ) : EmodM ℕ := do
  let m ← get
  pure (if emoduleTableSize ≤ id then 0 else m.table id)

def registerEmodule (id getter : ℕ) : EmodM Unit :=
  if emoduleTableSize ≤ id then stop (.halt (.panic "Attempt to register emodule that doesn't exist!\n"))
  else modify fun m => { m with table := Function.update m.table id getter }

/-- `wait_until_non_zero` on the first word of the image. -/
def waitUntilNonZero (image : List UInt8) : EmodM Unit :=
  if (image.take 8).all (· == 0) then stop (.halt .noReply) else pure ()

/-- An event is noted. -/
def note (kind : EmodKind) (id vaddr : ℕ) (image : List UInt8) : EmodM Unit :=
  modify fun m => { m with log := ⟨kind, id, vaddr, image⟩ :: m.log }

end Manager

/-- A step of the init function of a module: it acquires a module, or works on memory through the manager. -/
inductive InitStep
  | acquire (id : ℕ)
  | work (f : Sys → Res Sys)

/-- The modules: what their init functions do and which getter they return for an image at an
address. -/
structure Modules where
  init : ℕ → List InitStep
  getter : ℕ → ℕ → ℕ

namespace Manager

/-- The init function, with `acquire` for its calls of `acquire_emodule`. -/
def runInit (acquire : ℕ → EmodM ℕ) : List InitStep → EmodM Unit
  | [] => pure ()
  | .acquire d :: steps => do
    let _ ← acquire d
    runInit acquire steps
  | .work f :: steps => do
    let m ← get
    let sys ← call (f m.sys)
    modify fun m => { m with sys := sys }
    runInit acquire steps

section Load

variable (M : Modules) (verify : List UInt8 → List UInt8 → Bool) (host : ℕ → EmodReply)

def loadEmodule (acquire : ℕ → EmodM ℕ) (id : ℕ) : EmodM Unit := do
  let m ← get
  let r := host m.asked
  let (vaddr, sys) ← call (m.sys.allocMapEmodule r.size)
  modify fun m => { m with sys := sys, asked := m.asked + 1 }
  waitUntilNonZero r.image
  note .received id vaddr r.image
  call (attestEmodule verify r.image)
  note .attested id vaddr r.image
  note .started id vaddr r.image
  runInit acquire (M.init id)
  registerEmodule id (M.getter id vaddr)

/-- `acquire_emodule`, with at most `depth` loads inside each other. -/
def acquireEmodule : ℕ → ℕ → EmodM ℕ
  | 0, _ => stop .depth
  | depth + 1, id => do
    let getter ← getEmodule id
    if getter = 0 then do
      loadEmodule M verify host (acquireEmodule depth) id
      getEmodule id
    else pure getter

end Load

/-- The ranges of the images received, the latest first. -/
def ranges (m : Manager) : List (ℕ × ℕ) :=
  (m.log.filter fun e => e.kind = .received).map fun e => (e.vaddr, e.image.length)

end Manager

/-! ### What a load has done -/

section Attested

variable {M : Modules} {verify : List UInt8 → List UInt8 → Bool} {host : ℕ → EmodReply}
  {m : Manager} {acquire : ℕ → EmodM ℕ}

open Manager

/-- Every image noted is one that the host sent, and passed the check if it was attested or
started. -/
def Attested (verify : List UInt8 → List UInt8 → Bool) (host : ℕ → EmodReply) (m : Manager) : Prop :=
  ∀ e ∈ m.log, (∃ k < m.asked, e.image = (host k).image) ∧
    (e.kind ≠ .received → attestEmodule verify e.image = .ok ())

/-- The command keeps that, also where it stops. -/
def KeepsAttested (verify : List UInt8 → List UInt8 → Bool) (host : ℕ → EmodReply) {α : Type} (c : EmodM α) :
    Prop :=
  ∀ m, Attested verify host m →
    wp c (fun _ m' => Attested verify host m') (fun stop => Attested verify host stop.state) m

theorem wp_call_attested {α : Type} {r : Res α} {Q : α → Manager → Prop} (h : Attested verify host m)
    (hQ : ∀ a, r = .ok a → Q a m) :
    wp (call r) Q (fun stop => Attested verify host stop.state) m := by
  unfold wp call
  cases r with
  | ok a => exact hQ a rfl
  | error e => exact h

theorem Attested.note (h : Attested verify host m) {k : ℕ} (hk : k < m.asked) (kind : EmodKind)
    (id vaddr : ℕ) (hok : kind ≠ .received → attestEmodule verify (host k).image = .ok ()) :
    Attested verify host { m with log := ⟨kind, id, vaddr, (host k).image⟩ :: m.log } := by
  intro e he
  rcases List.mem_cons.mp he with rfl | he
  · exact ⟨⟨k, hk, rfl⟩, hok⟩
  · exact h e he

theorem getEmodule_attested (id : ℕ) : KeepsAttested verify host (getEmodule id) := by
  intro m h
  unfold getEmodule
  rw [wp_bind, wp_get, wp_pure]
  exact h

theorem runInit_attested (hacquire : ∀ d, KeepsAttested verify host (acquire d)) (steps : List InitStep) :
    KeepsAttested verify host (runInit acquire steps) := by
  induction steps with
  | nil => exact fun m h => h
  | cons step steps ih =>
    intro m h
    cases step with
    | acquire d =>
      unfold runInit
      rw [wp_bind]
      exact wp_mono (hacquire d m h) fun _ m₁ h₁ => ih m₁ h₁
    | work f =>
      unfold runInit
      rw [wp_bind, wp_get, wp_bind]
      refine wp_call_attested h fun sys _ => ?_
      rw [wp_bind, wp_modify]
      exact ih _ h

/-- **A load** notes that an image was attested after the check only. -/
theorem loadEmodule_attested (hacquire : ∀ d, KeepsAttested verify host (acquire d)) (id : ℕ) :
    KeepsAttested verify host (loadEmodule M verify host acquire id) := by
  intro m h
  unfold loadEmodule
  rw [wp_bind, wp_get, wp_bind]
  refine wp_call_attested h fun a _ => ?_
  obtain ⟨vaddr, sys⟩ := a
  have h₀ : Attested verify host { m with sys := sys, asked := m.asked + 1 } := fun e he =>
    ⟨(h e he).1.imp fun k hk => ⟨Nat.lt_succ_of_lt hk.1, hk.2⟩, (h e he).2⟩
  have hlt : m.asked < m.asked + 1 := Nat.lt_succ_self _
  rw [wp_bind, wp_modify, wp_bind]
  refine wp_ite (fun _ => h₀) fun _ => ?_
  have hrec := h₀.note hlt .received id vaddr fun hk => absurd rfl hk
  rw [wp_pure, wp_bind, Manager.note, wp_modify, wp_bind]
  refine wp_call_attested hrec fun _ hok => ?_
  rw [wp_bind, Manager.note, wp_modify, wp_bind, Manager.note, wp_modify, wp_bind]
  have hstart := (hrec.note hlt .attested id vaddr fun _ => hok).note hlt .started id vaddr fun _ => hok
  refine wp_mono (runInit_attested hacquire (M.init id) _ hstart) fun _ m₂ h₂ => ?_
  unfold registerEmodule
  refine wp_ite (fun _ => h₂) fun _ => ?_
  rw [wp_modify]
  exact h₂

/-- **A call of `acquire_emodule`.** -/
theorem acquireEmodule_attested (depth id : ℕ) :
    KeepsAttested verify host (acquireEmodule M verify host depth id) := by
  induction depth generalizing id with
  | zero => exact fun m h => h
  | succ depth ih =>
    intro m h
    unfold acquireEmodule
    rw [wp_bind]
    refine wp_mono (getEmodule_attested id m h) fun g m₁ h₁ => ?_
    refine wp_ite (fun _ => ?_) fun _ => h₁
    rw [wp_bind]
    exact wp_mono (loadEmodule_attested ih id m₁ h₁) fun _ m₂ h₂ => getEmodule_attested id m₂ h₂

theorem acquireAll_attested (depth : ℕ) (ids : List ℕ) :
    KeepsAttested verify host (ids.mapM (acquireEmodule M verify host depth)) := by
  induction ids with
  | nil => exact fun m h => h
  | cons id ids ih =>
    intro m h
    rw [List.mapM_cons, wp_bind]
    refine wp_mono (acquireEmodule_attested depth id m h) fun _ m₁ h₁ => ?_
    rw [wp_bind]
    exact wp_mono (ih m₁ h₁) fun _ m₂ h₂ => h₂

end Attested

/-! ### The invariant -/

/-- The modules are in order: nothing is needed for the manager, which is module 0; the dependencies
fall in `rank`; what init does otherwise leaves the images alone; and no getter is 0. -/
structure Modules.Ok (M : Modules) (rank : ℕ → ℕ) : Prop where
  manager : M.init 0 = []
  acyclic : ∀ {id d}, .acquire d ∈ M.init id → rank d < rank id
  tame : ∀ {id f}, .work f ∈ M.init id → Tame f
  getter_ne : ∀ id vaddr, M.getter id vaddr ≠ 0

/-- Every event is the only one of its kind for its module; an image is attested after it was
received, and started after it was attested. -/
def LogOk : List EmodEvent → Prop
  | [] => True
  | e :: log => LogOk log ∧ (∀ e' ∈ log, e'.kind = e.kind → e'.id ≠ e.id) ∧
      match e.kind with
      | .received => True
      | .attested => { e with kind := .received } ∈ log
      | .started => { e with kind := .attested } ∈ log

open Manager

/-- What holds of the manager while the modules of `P` are being loaded; `size` is that of the
pool. -/
structure EmodInv (M : Modules) (size : ℕ) (m : Manager) (P : List ℕ) : Prop where
  log : LogOk m.log
  known : ∀ {e}, e ∈ m.log → m.table e.id ≠ 0 ∨ e.id ∈ P
  loaded : ∀ {id}, id ≠ 0 → m.table id ≠ 0 → ∃ vaddr image,
    ⟨.started, id, vaddr, image⟩ ∈ m.log ∧ m.table id = M.getter id vaddr
  pending : ∀ {id}, id ∈ P → m.table id = 0
  closed : ∀ {id d}, m.table id ≠ 0 → .acquire d ∈ M.init id → m.table d ≠ 0
  outside : ∀ {id}, emoduleTableSize ≤ id → m.table id = 0
  pool : m.sys.smodePool.size = size
  images : ∃ is, EmodSpace m.sys is ∧ is.map (fun i => (i.vaddr, i.size)) = m.ranges

/-- What is registered stays, of the others only those of rank at most `r` are, and what has
happened has happened. -/
structure Registers (rank : ℕ → ℕ) (r : ℕ) (m m' : Manager) : Prop where
  stays : ∀ {id}, m.table id ≠ 0 → m'.table id = m.table id
  above : ∀ {id}, r < rank id → m'.table id = m.table id
  log : m.log ⊆ m'.log

theorem Registers.refl (rank : ℕ → ℕ) (r : ℕ) (m : Manager) : Registers rank r m m :=
  ⟨fun _ => rfl, fun _ => rfl, List.Subset.refl _⟩

theorem Registers.trans {rank : ℕ → ℕ} {r : ℕ} {a b c : Manager} (h : Registers rank r a b)
    (h' : Registers rank r b c) : Registers rank r a c := by
  refine ⟨fun hid => ?_, fun hr => (h'.above hr).trans (h.above hr), List.Subset.trans h.log h'.log⟩
  have hb := h.stays hid
  rw [h'.stays (by rwa [hb]), hb]

theorem Registers.mono {rank : ℕ → ℕ} {r r' : ℕ} {a b : Manager} (h : Registers rank r a b)
    (hr : r ≤ r') : Registers rank r' a b :=
  ⟨h.stays, fun h' => h.above (lt_of_le_of_lt hr h'), h.log⟩

/-! ### One image more -/

/-- Images that tile the addresses take as much of the pool. -/
theorem Tiled.le_pool {base brk start bound : ℕ} {is : List Image} (h : Tiled base brk is)
    (hstart : start ≤ bound)
    (hpool : ∀ i ∈ is, start ≤ i.paddr ∧ i.paddr + pageSize i.size ≤ bound)
    (hapart : is.Pairwise fun i j => j.paddr + pageSize j.size ≤ i.paddr) :
    brk + start ≤ base + bound := by
  induction is generalizing brk bound with
  | nil =>
    obtain rfl : brk = base := h
    omega
  | cons i is ih =>
    obtain ⟨hbrk, htail⟩ := h
    obtain ⟨hhead, hrest⟩ := List.pairwise_cons.mp hapart
    obtain ⟨h1, h2⟩ := hpool i List.mem_cons_self
    have := ih htail h1 (fun j hj => ⟨(hpool j (List.mem_cons_of_mem _ hj)).1, hhead j hj⟩) hrest
    omega

theorem Images.brk_le {s : Sys} {base : ℕ} {is : List Image} (h : Images s base is) :
    s.emoduleBrk ≤ base + 0x1000 * s.smodePool.usedPageCount := by
  have := h.tiled.le_pool (Nat.le_add_right (s.poolStart .smode) _) h.pool h.apart
  omega

/-- A pool smaller than the addresses above `EMOD_INIT_BRK` has no image that would leave them. -/
theorem EmodSpace.alloc {s s' : Sys} {size v : ℕ} {is : List Image} (h : EmodSpace s is)
    (hpool : s.smodePool.size < 2 ^ 36) (hsize : size ≤ s.smodePool.size)
    (hr : s.allocMapEmodule size = .ok (v, s')) :
    (∃ p, EmodSpace s' (⟨v, size, p⟩ :: is)) ∧ s'.smodePool.size = s.smodePool.size := by
  have hinit : emodInitBrk = 0xfffffff000000000 := rfl
  have hbrk := h.brk_le
  obtain ⟨-, hend, hused⟩ := h.inv.pool_bounds
  have hup : pageUp size = pageSize size := by
    rw [pageUp_eq (by omega), pageSize]
  obtain ⟨n, hn⟩ : ∃ n, pageSize size = 0x1000 * n := ⟨(size + 0xfff) / 0x1000, Nat.mul_comm _ _⟩
  have hn' : n < 2 ^ 51 := by
    unfold pageSize at hn
    omega
  have hparts : ∃ p s1 s2, s.allocSmodePage n = .ok (p, s1) ∧
      s1.mapRange s1.emoduleBrk p emodFlags .page n = .ok s2 ∧
      s' = { s2 with emoduleBrk := add64 s2.emoduleBrk (pageUp size) } := by
    unfold Sys.allocMapEmodule at hr
    obtain ⟨⟨p, s1⟩, hr1, hr2⟩ := Res.bind_ok hr
    obtain ⟨s2, hr3, hr4⟩ := Res.bind_ok hr2
    rw [hup, hn, Nat.mul_div_cancel_left _ (by norm_num)] at hr1 hr3
    simp only [Except.ok.injEq, Prod.mk.injEq] at hr4
    exact ⟨p, s1, s2, hr1, hr3, hr4.2.symm⟩
  obtain ⟨p, s1, s2, hr1, hr3, rfl⟩ := hparts
  obtain ⟨rfl, -, hp, hfit⟩ := h.inv.allocPages hn' hr1
  obtain ⟨-, ⟨q, himages⟩, hlow⟩ := h.toImages.alloc (by omega) hr
  refine ⟨⟨q, { himages with low := fun x hx pte => ?_ }⟩, ?_⟩
  · rw [hlow x hx]
    exact h.low x hx pte
  have hgrow := Sys.mapRange_grows (s := s.setUsedPageCount (s.smodePool.usedPageCount + n) .smode)
    (show 0x1000 * (s.smodePool.usedPageCount + n) ≤ s.smodePool.size by omega)
    (show s.smodePool.size < 2 ^ 63 by omega) hr3
  exact hgrow.size

/-! ### The steps -/

section Steps

variable {M : Modules} {rank : ℕ → ℕ} {verify : List UInt8 → List UInt8 → Bool}
  {host : ℕ → EmodReply} {size : ℕ} {m : Manager} {P : List ℕ} {id : ℕ}

/-- What holds of a run that stops. -/
def Stopped (stop : EmodStop) : Prop := stop.why ≠ .depth ∧ LogOk stop.state.log

theorem wp_call {α : Type} {r : Res α} {Q : α → Manager → Prop} (h : ∀ a, r = .ok a → Q a m)
    (hlog : LogOk m.log) : wp (call r) Q Stopped m := by
  unfold wp call
  cases r with
  | ok a => exact h a rfl
  | error e => exact ⟨by simp, hlog⟩

/-- An image is received, attested and started. -/
theorem LogOk.load {log : List EmodEvent} (h : LogOk log) (hnew : ∀ e ∈ log, e.id ≠ id) (vaddr : ℕ)
    (image : List UInt8) :
    LogOk (⟨.received, id, vaddr, image⟩ :: log) ∧
      LogOk (⟨.attested, id, vaddr, image⟩ :: ⟨.received, id, vaddr, image⟩ :: log) ∧
      LogOk (⟨.started, id, vaddr, image⟩ :: ⟨.attested, id, vaddr, image⟩ ::
        ⟨.received, id, vaddr, image⟩ :: log) := by
  have h1 : LogOk (⟨.received, id, vaddr, image⟩ :: log) := ⟨h, fun e he _ => hnew e he, trivial⟩
  have h2 : LogOk (⟨.attested, id, vaddr, image⟩ :: ⟨.received, id, vaddr, image⟩ :: log) := by
    refine ⟨h1, fun e he hk => ?_, List.mem_cons_self⟩
    rcases List.mem_cons.mp he with rfl | he
    · cases hk
    · exact hnew e he
  refine ⟨h1, h2, h2, fun e he hk => ?_, List.mem_cons_self⟩
  rcases List.mem_cons.mp he with rfl | he
  · cases hk
  rcases List.mem_cons.mp he with rfl | he
  · cases hk
  · exact hnew e he

/-- What a call of `acquire_emodule` does for its caller. -/
def AcquirePost (M : Modules) (rank : ℕ → ℕ) (size : ℕ) (m : Manager) (P : List ℕ) (id : ℕ) (g : ℕ)
    (m' : Manager) : Prop :=
  EmodInv M size m' P ∧ Registers rank (rank id) m m' ∧ m'.table id = g ∧ g ≠ 0

/-- **The init function** of a module whose dependencies are all of rank below `r`. -/
theorem runInit_wp {acquire : ℕ → EmodM ℕ} {steps : List InitStep} {r : ℕ} (h : EmodInv M size m P)
    (hacquire : ∀ d, .acquire d ∈ steps → ∀ m, EmodInv M size m P →
      wp (acquire d) (AcquirePost M rank size m P d) Stopped m)
    (hrank : ∀ d, .acquire d ∈ steps → rank d ≤ r) (htame : ∀ f, .work f ∈ steps → Tame f) :
    wp (runInit acquire steps) (fun _ m' => EmodInv M size m' P ∧ Registers rank r m m' ∧
      ∀ d, .acquire d ∈ steps → m'.table d ≠ 0) Stopped m := by
  induction steps generalizing m with
  | nil => exact ⟨h, Registers.refl .., fun d hd => absurd hd List.not_mem_nil⟩
  | cons step steps ih =>
    have ih' (m : Manager) (h : EmodInv M size m P) := ih h
      (fun d hd => hacquire d (List.mem_cons_of_mem _ hd))
      (fun d hd => hrank d (List.mem_cons_of_mem _ hd)) fun f hf => htame f (List.mem_cons_of_mem _ hf)
    cases step with
    | acquire d =>
      unfold runInit
      rw [wp_bind]
      refine wp_mono (hacquire d List.mem_cons_self m h) fun g m₁ h₁ => ?_
      obtain ⟨hinv, hreg, hg, hne⟩ := h₁
      refine wp_mono (ih' m₁ hinv) fun _ m₂ h₂ => ?_
      obtain ⟨hinv₂, hreg₂, hdeps⟩ := h₂
      refine ⟨hinv₂, (hreg.mono (hrank d List.mem_cons_self)).trans hreg₂, fun e he => ?_⟩
      rcases List.mem_cons.mp he with he | he
      · cases he
        rw [hreg₂.stays (by rw [hg]; exact hne), hg]
        exact hne
      · exact hdeps e he
    | work f =>
      unfold runInit
      rw [wp_bind, wp_get, wp_bind]
      refine wp_call (fun sys hsys => ?_) h.log
      rw [wp_bind, wp_modify]
      have hinv : EmodInv M size { m with sys := sys } P := by
        obtain ⟨is, his, hranges⟩ := h.images
        obtain ⟨his', hsize⟩ := htame f List.mem_cons_self m.sys sys is his hsys
        exact ⟨h.log, h.known, h.loaded, h.pending, h.closed, h.outside, hsize.trans h.pool, is, his',
          hranges⟩
      refine wp_mono (ih' _ hinv) fun _ m₂ h₂ => ?_
      obtain ⟨hinv₂, hreg₂, hdeps⟩ := h₂
      refine ⟨hinv₂, ⟨hreg₂.stays, hreg₂.above, hreg₂.log⟩, fun e he => ?_⟩
      rcases List.mem_cons.mp he with he | he
      · cases he
      · exact hdeps e he

theorem getEmodule_wp {E : EmodStop → Prop} (h : EmodInv M size m P) (id : ℕ) :
    wp (getEmodule id) (fun g m' => m' = m ∧ g = m.table id) E m := by
  refine ⟨rfl, ?_⟩
  show (if emoduleTableSize ≤ id then 0 else m.table id) = m.table id
  split
  · exact (h.outside ‹_›).symm
  · rfl

/-- The manager once an image has been received and attested and its init function is called. -/
def Manager.starting (m : Manager) (sys : Sys) (id vaddr : ℕ) (image : List UInt8) : Manager :=
  { m with
    sys := sys
    asked := m.asked + 1
    log := ⟨.started, id, vaddr, image⟩ :: ⟨.attested, id, vaddr, image⟩ ::
      ⟨.received, id, vaddr, image⟩ :: m.log }

theorem EmodInv.starting (h : EmodInv M size m P) (hid : m.table id = 0) (hP : id ∉ P)
    (hpool : size < 2 ^ 36) {r : EmodReply} (hsize : r.size ≤ size) {vaddr : ℕ} {sys : Sys}
    (hr : m.sys.allocMapEmodule r.size = .ok (vaddr, sys)) :
    EmodInv M size (m.starting sys id vaddr r.image) (id :: P) := by
  have hnew : ∀ e ∈ m.log, e.id ≠ id := by
    rintro e he rfl
    rcases h.known he with hne | hmem
    · exact hne hid
    · exact hP hmem
  obtain ⟨is, his, hranges⟩ := h.images
  have hsz := h.pool
  obtain ⟨⟨p, his'⟩, hsame⟩ := his.alloc (by omega) (by omega) hr
  refine ⟨(h.log.load hnew vaddr r.image).2.2, fun {e} he => ?_, fun {j} h0 hj => ?_, fun {j} hj => ?_,
    h.closed, h.outside, hsame.trans hsz, _, his', ?_⟩
  · simp only [Manager.starting, List.mem_cons] at he
    rcases he with rfl | rfl | rfl | he
    · exact Or.inr List.mem_cons_self
    · exact Or.inr List.mem_cons_self
    · exact Or.inr List.mem_cons_self
    · exact (h.known he).imp_right (List.mem_cons_of_mem _)
  · obtain ⟨v, image, he, hg⟩ := h.loaded h0 hj
    exact ⟨v, image, List.mem_cons_of_mem _ (List.mem_cons_of_mem _ (List.mem_cons_of_mem _ he)), hg⟩
  · rcases List.mem_cons.mp hj with rfl | hj
    · exact hid
    · exact h.pending hj
  · simpa [Manager.starting, Manager.ranges, EmodReply.length_image] using hranges

/-- **The getter is registered**, with the dependencies registered and the image started. -/
theorem EmodInv.register (hM : M.Ok rank) (h : EmodInv M size m (id :: P)) (hP : id ∉ P)
    (hlt : ¬ emoduleTableSize ≤ id) (hdeps : ∀ d, .acquire d ∈ M.init id → m.table d ≠ 0) {vaddr : ℕ}
    {image : List UInt8} (hstart : ⟨.started, id, vaddr, image⟩ ∈ m.log) :
    EmodInv M size { m with table := Function.update m.table id (M.getter id vaddr) } P := by
  have hself (t : ℕ → ℕ) : Function.update t id (M.getter id vaddr) id ≠ 0 := by
    rw [Function.update_self]
    exact hM.getter_ne id vaddr
  -- every other entry is as it was
  have hother {j : ℕ} (hj : j ≠ id) : Function.update m.table id (M.getter id vaddr) j = m.table j :=
    Function.update_of_ne hj ..
  refine ⟨h.log, fun {e} he => ?_, fun {j} h0 hj => ?_, fun {j} hj => ?_, fun {j d} hj hd => ?_,
    fun {j} hj => ?_, h.pool, h.images⟩
  · by_cases he' : e.id = id
    · left
      simp only [he']
      exact hself m.table
    · simp only [hother he']
      exact (h.known he).imp_right fun hm => (List.mem_cons.mp hm).resolve_left he'
  · by_cases hj' : j = id
    · subst hj'
      exact ⟨vaddr, image, hstart, Function.update_self ..⟩
    · simp only [hother hj'] at hj ⊢
      exact h.loaded h0 hj
  · have hne : j ≠ id := fun he => hP (he ▸ hj)
    simp only [hother hne]
    exact h.pending (List.mem_cons_of_mem _ hj)
  · by_cases hd' : d = id
    · simp only [hd']
      exact hself m.table
    · simp only [hother hd']
      by_cases hj' : j = id
      · subst hj'
        exact hdeps d hd
      · simp only [hother hj'] at hj
        exact h.closed hj hd
  · have hne : j ≠ id := fun he => hlt (he ▸ hj)
    simp only [hother hne]
    exact h.outside hj

/-- **A load** of a module that is neither registered nor on the stack. -/
theorem loadEmodule_wp {acquire : ℕ → EmodM ℕ} (hM : M.Ok rank) (h : EmodInv M size m P)
    (hid : m.table id = 0) (hP : id ∉ P) (hpool : size < 2 ^ 36) (hsize : ∀ k, (host k).size ≤ size)
    (hacquire : ∀ d, .acquire d ∈ M.init id → ∀ m, EmodInv M size m (id :: P) →
      wp (acquire d) (AcquirePost M rank size m (id :: P) d) Stopped m) :
    wp (loadEmodule M verify host acquire id) (fun _ m' => EmodInv M size m' P ∧
      Registers rank (rank id) m m' ∧ m'.table id ≠ 0) Stopped m := by
  unfold loadEmodule
  rw [wp_bind, wp_get, wp_bind]
  refine wp_call (fun a hr => ?_) h.log
  obtain ⟨vaddr, sys⟩ := a
  have hstart := h.starting hid hP hpool (hsize m.asked) hr
  have hlog := hstart.log
  rw [wp_bind, wp_modify, wp_bind]
  refine wp_ite (fun _ => ⟨by simp, h.log⟩) fun _ => ?_
  rw [wp_pure, wp_bind, note, wp_modify, wp_bind]
  refine wp_call (fun _ _ => ?_) hlog.1.1
  rw [wp_bind, note, wp_modify, wp_bind, note, wp_modify, wp_bind]
  refine wp_mono (runInit_wp (r := rank id) hstart hacquire (fun d hd => (hM.acyclic hd).le)
    fun f hf => hM.tame hf) fun _ m₂ h₂ => ?_
  obtain ⟨hinv, hreg, hdeps⟩ := h₂
  unfold registerEmodule
  refine wp_ite (fun _ => ⟨by simp, hinv.log⟩) fun hlt => ?_
  rw [wp_modify]
  have hother {j : ℕ} (hj : j ≠ id) : Function.update m₂.table id (M.getter id vaddr) j = m₂.table j :=
    Function.update_of_ne hj ..
  refine ⟨hinv.register hM hP hlt hdeps (hreg.log List.mem_cons_self),
    ⟨fun {j} hj => ?_, fun {j} hj => ?_, fun e he => ?_⟩, ?_⟩
  · have hne : j ≠ id := fun he => hj (he ▸ hid)
    simp only [hother hne]
    exact hreg.stays hj
  · have hne : j ≠ id := fun he => (lt_irrefl _ (he ▸ hj))
    simp only [hother hne]
    exact hreg.above hj
  · exact hreg.log (List.mem_cons_of_mem _ (List.mem_cons_of_mem _ (List.mem_cons_of_mem _ he)))
  · show Function.update m₂.table id (M.getter id vaddr) id ≠ 0
    rw [Function.update_self]
    exact hM.getter_ne id vaddr

/-- **A call of `acquire_emodule`** inside the loads of `P`, all of higher rank. The induction is on
the depth. -/
theorem acquireEmodule_wp (hM : M.Ok rank) (hpool : size < 2 ^ 36) (hsize : ∀ k, (host k).size ≤ size)
    {depth : ℕ} (h : EmodInv M size m P) (hdepth : rank id < depth) (hP : ∀ p ∈ P, rank id < rank p) :
    wp (acquireEmodule M verify host depth id) (AcquirePost M rank size m P id) Stopped m := by
  induction depth generalizing m P id with
  | zero => exact absurd hdepth (Nat.not_lt_zero _)
  | succ depth ih =>
    unfold acquireEmodule
    rw [wp_bind]
    refine wp_mono (getEmodule_wp h id) fun g m₁ h₁ => ?_
    obtain ⟨rfl, rfl⟩ := h₁
    refine wp_ite (fun hid => ?_) fun hid => ⟨h, Registers.refl .., rfl, hid⟩
    have hnot : id ∉ P := fun hmem => lt_irrefl _ (hP id hmem)
    rw [wp_bind]
    refine wp_mono (loadEmodule_wp hM h hid hnot hpool hsize fun d hd m' h' => ih h' ?_ ?_)
      fun _ m₂ h₂ => ?_
    · have := hM.acyclic hd
      omega
    · intro p hp
      rcases List.mem_cons.mp hp with rfl | hp
      · exact hM.acyclic hd
      · exact (hM.acyclic hd).trans (hP p hp)
    · obtain ⟨hinv, hreg, hne⟩ := h₂
      refine wp_mono (getEmodule_wp hinv id) fun g m₃ h₃ => ?_
      obtain ⟨rfl, rfl⟩ := h₃
      exact ⟨hinv, hreg, rfl, hne⟩

/-! ### Runs -/

theorem acquireAll_wp (hM : M.Ok rank) (hpool : size < 2 ^ 36) (hsize : ∀ k, (host k).size ≤ size)
    {depth : ℕ} {ids : List ℕ} (h : EmodInv M size m []) (hdepth : ∀ id ∈ ids, rank id < depth) :
    wp (ids.mapM (acquireEmodule M verify host depth)) (fun gs m' => EmodInv M size m' [] ∧
      (∀ id, m.table id ≠ 0 → m'.table id = m.table id) ∧ gs = ids.map m'.table ∧
      ∀ id ∈ ids, m'.table id ≠ 0) Stopped m := by
  induction ids generalizing m with
  | nil => exact ⟨h, fun _ _ => rfl, rfl, fun _ hid => absurd hid List.not_mem_nil⟩
  | cons id ids ih =>
    rw [List.mapM_cons, wp_bind]
    refine wp_mono (acquireEmodule_wp hM hpool hsize h (hdepth id List.mem_cons_self) fun p hp =>
      absurd hp List.not_mem_nil) fun g m₁ h₁ => ?_
    obtain ⟨hinv, hreg, hg, hne⟩ := h₁
    rw [wp_bind]
    refine wp_mono (ih hinv fun j hj => hdepth j (List.mem_cons_of_mem _ hj)) fun gs m₂ h₂ => ?_
    obtain ⟨hinv₂, hstays, hgs, hall⟩ := h₂
    have hid : m₂.table id = g := (hstays id (by rw [hg]; exact hne)).trans hg
    refine ⟨hinv₂, fun j hj => ?_, ?_, fun j hj => ?_⟩
    · have hj' := hreg.stays hj
      rw [hstays j (by rw [hj']; exact hj), hj']
    · rw [List.map_cons, hid, ← hgs]
    · rcases List.mem_cons.mp hj with rfl | hj
      · rw [hid]
        exact hne
      · exact hall j hj

end Steps

/-- The module `d` is `id`, or needed for it, directly or not. -/
def Modules.Needs (M : Modules) : ℕ → ℕ → Prop :=
  Relation.ReflTransGen fun id d => .acquire d ∈ M.init id

theorem EmodInv.needs {M : Modules} {size : ℕ} {m : Manager} {P : List ℕ} (h : EmodInv M size m P)
    {id d : ℕ} (hid : m.table id ≠ 0) (hn : M.Needs id d) : m.table d ≠ 0 := by
  induction hn with
  | refl => exact hid
  | tail _ hstep ih => exact h.closed ih hstep

/-- The manager after `emod_manager_init`: it is registered itself. -/
def Manager.boot (sys : Sys) (getter : ℕ) : Manager :=
  ⟨sys, Function.update (fun _ => 0) 0 getter, 0, []⟩

theorem EmodInv.boot {M : Modules} {rank : ℕ → ℕ} (hM : M.Ok rank) {s : Sys} (h : EmodSpace s [])
    (getter : ℕ) : EmodInv M s.smodePool.size (Manager.boot s getter) [] := by
  have hzero {id : ℕ} (hid : (Manager.boot s getter).table id ≠ 0) : id = 0 := by
    by_contra hne
    refine hid ?_
    show Function.update (fun _ => 0) 0 getter id = 0
    rw [Function.update_of_ne hne]
  refine ⟨trivial, fun he => absurd he List.not_mem_nil, fun h0 hid => absurd (hzero hid) h0,
    fun hid => absurd hid List.not_mem_nil, fun {id d} hid hd => ?_, fun {id} hid => ?_, rfl, [], h, rfl⟩
  · rw [hzero hid, hM.manager] at hd
    exact absurd hd List.not_mem_nil
  · by_contra hne
    rw [hzero hne] at hid
    exact absurd hid (by decide)

/-- What holds when the calls for `ids` have returned `gs`. -/
structure Acquired (M : Modules) (verify : List UInt8 → List UInt8 → Bool) (host : ℕ → EmodReply)
    (ids gs : List ℕ) (m : Manager) : Prop where
  once : LogOk m.log
  attested : Attested verify host m
  getters : gs = ids.map m.table
  needs : ∀ id ∈ ids, ∀ d, M.Needs id d → m.table d ≠ 0
  loaded : ∀ id ≠ 0, m.table id ≠ 0 → ∃ vaddr image,
    ⟨.started, id, vaddr, image⟩ ∈ m.log ∧ m.table id = M.getter id vaddr
  images : ∃ is, Images m.sys emodInitBrk is ∧ is.map (fun i => (i.vaddr, i.size)) = m.ranges

/-- `alloc` (2) acquires `debug` (1) and sets up the heap, with the answers `replies` of the monitor.
`vfs` (3) and `net` (4) acquire both, and what they allocate may grow the heap. -/
def cofferModules (replies : List SmReply) (grow : Sys → Res Sys) : Modules where
  init id :=
    if id = 2 then [.acquire 1, .work (Heap.initWork (fun _ => 0) replies)]
    else if id = 3 ∨ id = 4 then [.acquire 1, .acquire 2, .work grow] else []
  getter _ vaddr := vaddr + 0x10

def cofferRank (id : ℕ) : ℕ := if id = 2 then 1 else if id = 3 ∨ id = 4 then 2 else 0

theorem cofferModules_ok {replies : List SmReply} {grow : Sys → Res Sys}
    (hs : Heap.Splits replies 1 1) (hg : Tame grow) : (cofferModules replies grow).Ok cofferRank where
  manager := rfl
  acyclic := by
    intro id d hd
    unfold cofferModules at hd
    dsimp only at hd
    split_ifs at hd with h2 h3
    · simp only [List.mem_cons, InitStep.acquire.injEq, reduceCtorEq, List.not_mem_nil, or_false] at hd
      subst hd h2
      decide
    · simp only [List.mem_cons, InitStep.acquire.injEq, reduceCtorEq, List.not_mem_nil, or_false] at hd
      rcases h3 with rfl | rfl <;> rcases hd with rfl | rfl <;> decide
    · exact absurd hd List.not_mem_nil
  tame := by
    intro id f hf
    unfold cofferModules at hf
    dsimp only at hf
    split_ifs at hf
    · simp only [List.mem_cons, reduceCtorEq, InitStep.work.injEq, false_or, List.not_mem_nil,
        or_false] at hf
      exact hf ▸ tame_initHeap _ hs
    · simp only [List.mem_cons, reduceCtorEq, InitStep.work.injEq, false_or, List.not_mem_nil,
        or_false] at hf
      exact hf ▸ hg
    · exact absurd hf List.not_mem_nil
  getter_ne := fun _ vaddr => Nat.succ_ne_zero _

/-- The heap that `init_heap` leaves, and one partition more to be granted. -/
def firstHeap : Heap :=
  { Heap.layout 0x3000000000 0x3000200000 [⟨0x3000000000, 0x1fffd8, true⟩] Sys.blank with
    replies := [⟨0, 0xa0000000⟩] }

theorem tame_firstHeap : Tame (firstHeap.expandWork 0x10000) := by
  have hnr : firstHeap.nrPart 0x10000 = 1 := by decide
  refine tame_expand (by decide) (by decide) ?_
  rw [hnr]
  simp [Heap.Splits, firstHeap, SmReply.Refused]

/-- The host sends images of 100 bytes. -/
def emodHost : ℕ → EmodReply := fun _ => ⟨100, fun _ => 1⟩

theorem EmodSpace.boot : EmodSpace Sys.emodBoot [] :=
  { EmodEnv.boot with
    base_le := le_refl _
    tiled := rfl
    maps := fun i hi => absurd hi List.not_mem_nil
    pool := fun i hi => absurd hi List.not_mem_nil
    apart := List.Pairwise.nil
    low := fun x _ pte hl => by
      have hnone : Sys.emodBoot.leaf x = none := (Sys.leaf_of_eq rfl rfl x).trans (Sys.smallBoot_inv.2 x)
      rw [hnone] at hl
      cases hl }

end Coffer
