import KPanic.Kernel.VmIsolation
import KPanic.Kernel.VmReached

/-!
# The memory of a process after `execv`

The new program finds the arguments and a stack page of zeros, and nothing of the memory that its process had; an
`execv` that fails changes nothing that a process can read.
-/

namespace KPanic

open Function
open PageTree
open CopyOnWrite
open Wp

variable {kept : ℕ → Prop} {mode : ForkMode} {own own' : Own} {s s₀ s' : Kernel} {pid proc i n : ℕ} {loads : Bool}
  {start : StackStart} {pr : UserProcess} {P : Proc} {page args : Page}

theorem lt_of_argsVpn (h : i / PAGE_SIZE = argsVpn) : i < USER_BREAK := by
  have hargs : argsVpn = 0x7fffffffe := by decide
  have huser : USER_BREAK = 0x0000800000000000 := rfl
  rw [hargs, PAGE_SIZE] at h
  omega

theorem lt_of_stackVpn (h : i / PAGE_SIZE = stackVpn start n) : i < USER_BREAK := by
  have hhigh : start.val < 0x00007fffffffdfff := start.property.2.2
  have huser : USER_BREAK = 0x0000800000000000 := rfl
  rw [stackVpn_eq] at h
  simp only [PAGE_SIZE] at h
  omega

namespace Proc

theorem restructured_args (h : i / PAGE_SIZE = argsVpn) :
    (P.restructured start args).byte i = some (loadByte args (i % PAGE_SIZE)) := by
  refine byte_eq (lt_of_argsVpn h) ?_
  show update (update (fun _ => none) argsVpn (some args)) (stackVpn start 1) (some fun _ => 0) (i / PAGE_SIZE) = _
  rw [h, update_of_ne (stack_ne_args start).symm, update_self]

theorem restructured_stack (h : i / PAGE_SIZE = stackVpn start 1) : (P.restructured start args).byte i = some 0 := by
  have hpage : (P.restructured start args).memory (i / PAGE_SIZE) = some fun _ => 0 := by
    show update (update (fun _ => none) argsVpn (some args)) (stackVpn start 1) (some fun _ => 0) (i / PAGE_SIZE) = _
    rw [h, update_self]
  rw [byte_eq (lt_of_stackVpn h) hpage, loadByte, BitField.get_zero]

theorem restructured_none (hargs : i / PAGE_SIZE ≠ argsVpn) (hstack : i / PAGE_SIZE ≠ stackVpn start 1) :
    (P.restructured start args).byte i = none := by
  have hnone : (P.restructured start args).memory (i / PAGE_SIZE) = none := by
    show update (update (fun _ => none) argsVpn (some args)) (stackVpn start 1) (some fun _ => 0) (i / PAGE_SIZE) = _
    rw [update_of_ne hstack, update_of_ne hargs]
  rw [byte, lookup, hnone, ite_self]
  rfl

end Proc

/-- What a process finds after its `execv`. -/
structure Restructured (s s' : Kernel) (proc : ℕ) (pr : UserProcess) (start : StackStart) : Prop where
  others : ∀ pid i, pid ≠ proc → readByte s' pid i = readByte s pid i
  args : (∃ pid v w, Maps s pid v pr.args_ppn_ w) → ∀ i, i / PAGE_SIZE = argsVpn →
    readByte s' proc i = some (loadByte (s.memory pr.args_ppn_) (i % PAGE_SIZE))
  stack : ∀ i, i / PAGE_SIZE = stackVpn start 1 → readByte s' proc i = some 0
  nothing : ∀ i, i / PAGE_SIZE ≠ argsVpn → i / PAGE_SIZE ≠ stackVpn start 1 → readByte s' proc i = none

structure ExecvReplaces (mode : ForkMode) (s : Kernel) : Prop where
  succeeds : ∀ proc pr start s', s.process_list_ proc = some pr → pr.called_exit_ = false → (∀ p, proc ∉ s.cow_map_ p) →
    (step mode (.execv proc true start)).run s = .ok (⟨⟩, s') → Restructured s s' proc pr start
  fails : ∀ proc start s', (step mode (.execv proc false start)).run s = .ok (⟨⟩, s') →
    ∀ pid i, readByte s' pid i = readByte s pid i
  errors : ∀ proc loads start e, (loads = true → ∀ p, proc ∉ s.cow_map_ p) →
    (step mode (.execv proc loads start)).run s = .error e → e = .outOfMemory

theorem readByte_steps (L : Live kept own s) {o : Option Proc} (h : Steps kept own own' s s' proc n o) :
    readByte s' pid i = if pid = proc then o.bind fun P => P.byte i else readByte s pid i := by
  rw [readByte_eq L, readByte_eq h.live, h.abs]
  show ((update (abs own s).proc proc o) pid).bind _ = _
  split
  · rename_i hpid
    rw [hpid, update_self]
  · rename_i hpid
    rw [update_of_ne hpid]
    rfl

theorem restructured (L : Live kept own s) (h : Steps kept own own' s s' proc n (some (P.restructured start args)))
    (hargs : ∀ r u b, space own s.memory r u = some (pr.args_ppn_, b) → args = s.memory pr.args_ppn_) :
    Restructured s s' proc pr start := by
  have hself : ∀ i, readByte s' proc i = (P.restructured start args).byte i := by
    intro i
    rw [readByte_steps L h, if_pos rfl]
    rfl
  refine ⟨fun pid i hpid => ?_, fun ⟨pid, v, w, hm⟩ i hi => ?_, fun i hi => ?_, fun i hi hi' => ?_⟩
  · rw [readByte_steps L h, if_neg hpid]
  · obtain ⟨pr', -, hm⟩ := L.inv.maps_iff.mp hm
    rw [hself, Proc.restructured_args hi, hargs _ _ _ hm]
  · rw [hself, Proc.restructured_stack hi]
  · rw [hself, Proc.restructured_none hi hi']

theorem wp_execv (L : Live kept own s) (hshare : loads = true → ∀ p, proc ∉ s.cow_map_ p) :
    wp OutOfMemory (step mode (.execv proc loads start)) (fun _ s' =>
      (loads = true → ∀ pr, s.process_list_ proc = some pr → pr.called_exit_ = false → Restructured s s' proc pr start) ∧
      (loads = false → ∀ pid i, readByte s' pid i = readByte s pid i)) s := by
  refine wp_onProcess (fun hskip => ⟨fun _ pr hpr hexit => ?_, fun _ _ _ => rfl⟩)
    fun pr hpr (_ : ∀ f, (abs own s).onProc proc false f = _) => ?_
  · have hnone := hskip fun _ => none
    rw [Private.onProc, abs_proc hpr] at hnone
    dsimp only at hnone
    rw [if_pos (show (absProc own s pr).called_exit_ = false from hexit)] at hnone
    cases hnone
  · refine wp_restructure L hpr hshare fun own' s' P hsteps hP => ⟨fun hloads pr' hpr' _ => ?_, fun hloads pid i => ?_⟩
    · obtain rfl : pr = pr' := Option.some.inj (hpr.symm.trans hpr')
      rw [if_pos hloads] at hP
      obtain ⟨args, rfl, hargs⟩ := hP
      exact restructured L hsteps hargs
    · rw [if_neg (by rw [hloads]; decide)] at hP
      subst hP
      rw [readByte_steps L hsteps]
      split
      · rename_i hpid
        rw [hpid, readByte_eq L, Private.readByte, abs_proc hpr]
      · rfl

theorem execv_replaces (hnone : NoProcesses s₀) (h : VmReached mode s₀ s) : ExecvReplaces mode s := by
  obtain ⟨own, L, -⟩ := h.live hnone
  refine ⟨fun proc pr start s' hpr hexit hshare hstep => ?_, fun proc start s' hstep => ?_, fun proc loads start e hshare he => ?_⟩
  · exact (of_wp (wp_execv L fun _ => hshare) hstep).1 rfl pr hpr hexit
  · exact (of_wp (wp_execv L fun h => by cases h) hstep).2 rfl
  · exact show OutOfMemory e from error_of_wp (wp_execv L hshare) he

theorem execv_replaces_created : ∃ s,
    (step .cow (.createProcess true topStack ⟨0, 0, 0⟩)).run (.ofPages 16) = .ok (⟨⟩, s) ∧ ExecvReplaces .cow s := by
  obtain ⟨s, hstep⟩ := createProcess_ofPages
  exact ⟨s, hstep, execv_replaces (ofPages_noProcesses (by decide) (by decide)) (.next (.createProcess _ _ _) .start trivial hstep)⟩

end KPanic
