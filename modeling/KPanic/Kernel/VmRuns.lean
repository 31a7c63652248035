import KPanic.Arch.AddressSpace
import KPanic.Kernel.VmProcesses

/-!
# Runs of the memory subsystem

Every run without `execv` does what the same operations do to processes with private memories, in either
mode of `fork`; all that can stop it is the lack of memory.
-/

namespace KPanic

open Function
open PageTree
open CopyOnWrite
open Wp

variable {kept : ℕ → Prop} {mode : ForkMode} {own own' : Own} {s s₀ s' : Kernel} {op : Op} {ops : List Op}
  {pid proc address : ℕ} {pr : UserProcess}

/-- The kernel before the first process: all pages in use are its own. -/
structure NoProcesses (s : Kernel) : Prop where
  pm : PmInv (InUse s) s.pm s.memory
  unshared : ∀ p, s.cow_map_ p = []
  noProcess : ∀ pid, s.process_list_ pid = none

def Op.IsExecv : Op → Prop
  | .execv _ _ _ => True
  | _ => False

def run (mode : ForkMode) : List Op → Kern PUnit
  | [] => pure ⟨⟩
  | op :: ops => do
    step mode op
    run mode ops

def Private.run : List Op → Private → Option Private
  | [], a => some a
  | op :: ops, a => (a.step op).bind (Private.run ops)

theorem NoProcesses.live (h : NoProcesses s) : Live (InUse s) (fun _ => none) s := by
  have hspace : ∀ r v, space (fun _ => none) s.memory r v = none := fun r v => space_of_new rfl v
  have T : Tables (InUse s) (fun _ => none) s := by
    refine ⟨h.pm.congr fun q => ⟨fun hq => hq.resolve_left fun hne => hne rfl, .inr⟩, h.pm.zero,
      fun _ => rfl, ⟨?_, ?_, ?_, ?_, ?_⟩, ?_⟩
    · intro t r l x ht
      cases ht
    · intro t r x ht
      cases ht
    · intro t r l x i c ht
      cases ht
    · intro c r l x hc
      cases hc
    · intro c v hc
      cases hc
    · intro t r l x i ht
      cases ht
  have hroot : ∀ k, rootOf s k = none := by
    intro k
    rw [rootOf, h.noProcess]
    rfl
  refine ⟨⟨T, ⟨?_, ?_, ?_, ?_, ?_, ?_⟩, ?_, ?_⟩, ?_, ?_⟩
  · intro k k' r hk
    rw [hroot] at hk
    cases hk
  · intro p
    rw [h.unshared]
    exact List.nodup_nil
  · intro k p hk
    rw [h.unshared] at hk
    cases hk
  · intro r v p b hm
    rw [hspace] at hm
    cases hm
  · intro r v p b hm
    rw [hspace] at hm
    cases hm
  · intro r v r' v' p b b' hm
    rw [hspace] at hm
    cases hm
  · intro k r hk
    rw [hroot] at hk
    cases hk
  · intro k hk
    exact absurd (h.noProcess k) hk
  · intro u hu
    cases hu
  · intro k pr hk
    rw [h.noProcess] at hk
    cases hk

/-! ### Steps -/

/-- What a step leaves: the invariant, and what `Private.step` does. -/
structure Simulated (kept : ℕ → Prop) (own : Own) (s s' : Kernel) (op : Op) (own' : Own) : Prop where
  live : Live kept own' s'
  step : (abs own s).step op = some (abs own' s')
  total : s'.pm.number_of_pages_ = s.pm.number_of_pages_

theorem abs_proc (hpr : s.process_list_ pid = some pr) : (abs own s).proc pid = some (absProc own s pr) := by
  show (s.process_list_ pid).map (absProc own s) = _
  rw [hpr]
  rfl

theorem abs_proc_none (h : s.process_list_ pid = none) : (abs own s).proc pid = none := by
  show (s.process_list_ pid).map (absProc own s) = _
  rw [h]
  rfl

/-- The operations of a process that has or has not called `exit`. -/
theorem wp_onProcess {b : Bool} {m : Kern PUnit} {Q : PUnit → Kernel → Prop}
    (hskip : (∀ f, (abs own s).onProc proc b f = some (abs own s)) → Q ⟨⟩ s)
    (hrun : ∀ pr, s.process_list_ proc = some pr →
      (∀ f, (abs own s).onProc proc b f = f (absProc own s pr)) → wp OutOfMemory m Q s) :
    wp OutOfMemory (onProcess proc b m) Q s := by
  unfold onProcess
  rw [wp_bind, wp_get]
  cases hpr : s.process_list_ proc with
  | none =>
    dsimp only
    rw [wp_pure]
    refine hskip fun f => ?_
    rw [Private.onProc, abs_proc_none hpr]
  | some pr =>
    dsimp only
    have hon : ∀ f, (abs own s).onProc proc b f = if pr.called_exit_ = b then f (absProc own s pr) else some (abs own s) := by
      intro f
      rw [Private.onProc, abs_proc hpr]
      rfl
    refine wp_ite (fun hb => ?_) fun hb => ?_
    · exact hrun pr hpr fun f => by rw [hon, if_pos hb]
    · rw [wp_pure]
      exact hskip fun f => by rw [hon, if_neg hb]

theorem Simulated.refl (L : Live kept own s) (h : (abs own s).step op = some (abs own s)) :
    Simulated kept own s s op own := ⟨L, h, rfl⟩

theorem abs_add {o : Option Proc} (h : Steps kept own own' s s' s.pid_counter_ (s.pid_counter_ + 1) o) :
    abs own' s' = (abs own s).add o := h.abs

theorem abs_set {P : Proc} (h : Steps kept own own' s s' pid s.pid_counter_ (some P)) :
    abs own' s' = (abs own s).set pid P := h.abs

theorem movedAt_tree {r v r' u : ℕ} (h : r' ≠ r) : ¬movedAt own s r v r' u := fun hm => h hm.1

theorem wp_step (L : Live kept own s) (hexec : ¬op.IsExecv) :
    wp OutOfMemory (step mode op) (fun _ s' => ∃ own', Simulated kept own s s' op own') s := by
  cases op with
  | createProcess loads start garbage =>
    refine wp_createProcess L fun own' s' h _ => ⟨own', h.live, ?_, h.total⟩
    rw [abs_add h]
    rfl
  | fork proc loads garbage =>
    refine wp_onProcess (fun hskip => ⟨own, .refl L (hskip _)⟩) fun pr hpr hon => ?_
    cases hthread : pr.thread_list_.head? with
    | none =>
      unfold createProcessOnFork
      rw [wp_bind]
      refine wp_getProcess hpr ?_
      rw [hthread]
      dsimp only
      rw [wp_pure]
      refine ⟨own, .refl L ?_⟩
      have hthread' : (absProc own s pr).thread_list_.head? = none := hthread
      rw [Private.step, hon, hthread']
    | some thread =>
      refine wp_createProcessOnFork mode L hpr hthread fun own' s' h _ => ⟨own', h.live, ?_, h.total⟩
      have hthread' : (absProc own s pr).thread_list_.head? = some thread := hthread
      rw [Private.step, hon, hthread', abs_add h]
  | access proc address value content =>
    refine wp_onProcess (fun hskip => ⟨own, .refl L (hskip _)⟩) fun pr hpr hon => ?_
    have htries : (absProc own s pr).tries address ≤ 16 := Nat.le_trans Proc.tries_le (by decide)
    refine wp_access L.inv hpr (L.nullFree hpr) htries fun own' s' P hP h => ?_
    have hsteps := h.steps L hpr (fun _ _ => movedAt_tree) ((L.nullFree hpr).access hP)
    refine ⟨own', hsteps.live, ?_, hsteps.total⟩
    rw [Private.step, hon, hP, abs_set hsteps]
    rfl
  | exit proc =>
    refine wp_onProcess (fun hskip => ⟨own, .refl L (hskip _)⟩) fun pr hpr hon => ?_
    refine wp_exit L.inv hpr (D := stays) fun s' h => ?_
    have hsteps := h.steps L hpr (fun _ _ _ => id) (L.nullFree hpr)
    refine ⟨own, hsteps.live, ?_, hsteps.total⟩
    rw [Private.step, hon, abs_set hsteps]
  | destroy proc =>
    refine wp_onProcess (fun hskip => ⟨own, .refl L (hskip _)⟩) fun pr hpr hon => ?_
    refine wp_destroy L hpr fun own' s' h => ⟨own', h.live, ?_, h.total⟩
    rw [Private.step, hon, h.abs]
    rfl
  | execv proc loads start => exact absurd trivial hexec

/-! ### Runs -/

theorem wp_run (L : Live kept own s) (hexec : ∀ op ∈ ops, ¬op.IsExecv) :
    wp OutOfMemory (run mode ops) (fun _ s' => ∃ own', Live kept own' s' ∧
      Private.run ops (abs own s) = some (abs own' s') ∧ s'.pm.number_of_pages_ = s.pm.number_of_pages_) s := by
  induction ops generalizing own s with
  | nil => exact (wp_pure _).mpr ⟨own, L, rfl, rfl⟩
  | cons op ops ih =>
    rw [run]
    refine wp_seq (wp_step L (hexec op List.mem_cons_self)) fun _ s₁ ⟨own₁, h⟩ => ?_
    refine wp_mono (ih h.live fun op' hop => hexec op' (List.mem_cons_of_mem _ hop)) fun _ s₂ ⟨own₂, L₂, habs, hn⟩ => ?_
    refine ⟨own₂, L₂, ?_, hn.trans h.total⟩
    rw [Private.run, h.step]
    exact habs

/-! ### A kernel without processes -/

/-- `n` pages, of which the first one is reserved. -/
def Kernel.ofPages (n : ℕ) : Kernel where
  memory _ := fun _ => BitVec.allOnes 64
  pm := ⟨((Bitmap.new n).setBit 0).2, n, 1⟩
  kernel_page_map_level_4 := fun _ => 0
  cow_map_ _ := []
  process_list_ _ := none
  pid_counter_ := 0

/-- A stack that starts not far below the arguments page. -/
def topStack : StackStart := ⟨0x7fffffff0000, by decide⟩

theorem ofPages_inUse {n q : ℕ} (hn : 0 < n) : InUse (.ofPages n) q ↔ q = 0 := by
  have hbit := Bitmap.getBit_setBit (Bitmap.new_ok n) hn q
  rw [Bitmap.getBit_new] at hbit
  show q < n ∧ Bitmap.getBit ((Bitmap.new n).setBit 0).2.bitmap_ q = true ↔ _
  rw [hbit]
  by_cases hq : q = 0
  · simp [hq, hn]
  · simp [hq]

theorem ofPages_noProcesses {n : ℕ} (hn : 0 < n) (hmax : n ≤ 2 ^ 28) : NoProcesses (.ofPages n) where
  pm := by
    refine ⟨Bitmap.setBit_ok (Bitmap.new_ok n) hn, Bitmap.setBit_size _ _, hmax, fun hp => ?_, And.left,
      (ofPages_inUse hn).mpr rfl, fun _ _ _ _ => rfl, fun {p} hp => (ofPages_inUse hn).mpr ?_⟩
    · exact ⟨fun hbit => ⟨hp, hbit⟩, And.right⟩
    · change p < 1 at hp
      omega
  unshared _ := rfl
  noProcess _ := rfl

theorem createProcess_ofPages : ∃ s,
    (step .cow (.createProcess true topStack ⟨0, 0, 0⟩)).run (.ofPages 16) = .ok (⟨⟩, s) := by
  have hok : (match (step .cow (.createProcess true topStack ⟨0, 0, 0⟩)).run (.ofPages 16) with
      | .ok _ => true
      | .error _ => false) = true := by decide +kernel
  split at hok
  · rename_i x hrun
    exact ⟨x.2, hrun⟩
  · cases hok

end KPanic
