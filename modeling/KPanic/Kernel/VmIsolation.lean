import KPanic.Kernel.VmRuns

/-!
# What processes read

The bytes that a process can read change only by its own writes, and a child starts with the bytes of its
parent, whether `fork` shares the pages or copies them.
-/

namespace KPanic

open Function
open PageTree
open CopyOnWrite
open Wp

variable {kept : ℕ → Prop} {mode : ForkMode} {own own' : Own} {s s₀ s' : Kernel} {op : Op} {ops : List Op}
  {pid proc address n : ℕ} {pr : UserProcess} {P P' : Proc} {a a' : Private} {value : Option ℕ} {content : Content}

/-- The byte that a process reads at an address that is mapped. -/
def readByte (s : Kernel) (pid address : ℕ) : Option ℕ :=
  (s.process_list_ pid).bind fun p =>
    if address < USER_BREAK then
      (translate s.memory (address / PAGE_SIZE) 4 p.page_map_level_4_).map fun t =>
        loadByte (s.memory t.1) (address % PAGE_SIZE)
    else none

namespace Proc

def byte (p : Proc) (address : ℕ) : Option ℕ := (p.lookup address).map fun page => loadByte page (address % PAGE_SIZE)

end Proc

namespace Private

def readByte (a : Private) (pid address : ℕ) : Option ℕ := (a.proc pid).bind fun p => p.byte address

end Private

theorem readByte_eq (L : Live kept own s) (pid address : ℕ) :
    readByte s pid address = (abs own s).readByte pid address := by
  unfold readByte Private.readByte abs
  dsimp only
  cases hpr : s.process_list_ pid with
  | none => rfl
  | some pr =>
    rw [Option.map_some, Option.bind_some, Option.bind_some]
    unfold Proc.byte Proc.lookup
    split
    · rename_i huser
      rw [translate_eq L.inv hpr huser]
      show _ = (view (space own s.memory) s.memory _ _).map _
      unfold view
      cases space own s.memory pr.page_map_level_4_ (address / PAGE_SIZE) with
      | none => rfl
      | some y => rfl
    · rfl

/-! ### Bytes of a page -/

theorem loadByte_storeByte (page : Page) (offset i v : ℕ) :
    loadByte (storeByte page offset v) i = if i = offset then v % 256 else loadByte page i := by
  unfold loadByte storeByte
  by_cases hword : i / 8 = offset / 8
  · rw [hword, update_self]
    by_cases hi : i = offset
    · rw [if_pos hi, hi]
      exact BitField.get_put _ _ _
    · rw [if_neg hi, BitField.get_put_disjoint]
      simp only [BitField.Field.Disjoint, byteField]
      omega
  · rw [update_of_ne hword, if_neg]
    rintro rfl
    exact hword rfl

/-! ### One process -/

namespace Proc

variable {v : ℕ} {page : Page}

/-- A fault at an address that is not mapped takes nothing away. -/
theorem fault_keeps (hnone : P.lookup address = none) (h : P.memory v = some page) :
    (P.fault address content).memory v = some page := by
  unfold fault
  split
  · exact h
  · rename_i hrange
    have huser : address < USER_BREAK := Nat.not_le.mp fun hge => hrange (.inr hge)
    rw [lookup, if_pos huser] at hnone
    split
    · rename_i thread _
      unfold growStack
      split
      · exact h
      · dsimp only
        split
        · exact h
        · rename_i hgrow
          refine (update_of_ne ?_ _ _).trans h
          rintro rfl
          exact hgrow (.inr (by rw [h]; exact Option.some_ne_none _))
    · unfold load
      split
      · refine (update_of_ne ?_ _ _).trans h
        rintro rfl
        rw [hnone] at h
        cases h
      · exact h
      · exact h

theorem lt_of_byte {i b : ℕ} (h : P.byte i = some b) : i < USER_BREAK ∧ ∃ page, P.memory (i / PAGE_SIZE) = some page ∧
    loadByte page (i % PAGE_SIZE) = b := by
  unfold byte lookup at h
  split at h
  · rename_i hi
    obtain ⟨page, hpage, hb⟩ := Option.map_eq_some_iff.mp h
    exact ⟨hi, page, hpage, hb⟩
  · cases h

theorem byte_eq {i : ℕ} (hi : i < USER_BREAK) (h : P.memory (i / PAGE_SIZE) = some page) :
    P.byte i = some (loadByte page (i % PAGE_SIZE)) := by
  rw [byte, lookup, if_pos hi, h]
  rfl

theorem fault_byte (hnone : P.lookup address = none) {i b : ℕ} (hb : P.byte i = some b) :
    (P.fault address content).byte i = some b := by
  obtain ⟨hi, page, hpage, rfl⟩ := lt_of_byte hb
  exact byte_eq hi (fault_keeps hnone hpage)

/-- What a store leaves at an address. -/
def written (address : ℕ) (value : Option ℕ) (i b : ℕ) : ℕ := if i = address then (value.map (· % 256)).getD b else b

theorem store_byte (hl : P.lookup address = some page) {i b : ℕ} (hb : P.byte i = some b) :
    (P.store address page value).byte i = some (written address value i b) := by
  cases value with
  | none =>
    rw [written, Option.map_none, Option.getD_none, ite_self]
    exact hb
  | some v =>
    obtain ⟨hi, q, hq, rfl⟩ := lt_of_byte hb
    have hpage : P.memory (address / PAGE_SIZE) = some page := by
      unfold lookup at hl
      split at hl
      · exact hl
      · cases hl
    by_cases hv : i / PAGE_SIZE = address / PAGE_SIZE
    · obtain rfl : q = page := by
        rw [hv, hpage] at hq
        exact (Option.some.inj hq).symm
      have hstore : (P.store address q (some v)).memory (i / PAGE_SIZE) =
          some (storeByte q (address % PAGE_SIZE) v) := by
        rw [hv]
        exact update_self _ _ _
      rw [byte_eq hi hstore, loadByte_storeByte, written]
      have hiff : i % PAGE_SIZE = address % PAGE_SIZE ↔ i = address := by
        constructor
        · intro hmod
          rw [← Nat.div_add_mod i PAGE_SIZE, hv, hmod, Nat.div_add_mod]
        · rintro rfl
          rfl
      simp only [hiff, Option.map_some, Option.getD_some]
    · have hne : i ≠ address := by
        rintro rfl
        exact hv rfl
      rw [byte_eq hi ((update_of_ne hv _ _).trans hq), written, if_neg hne]

theorem access_byte_ne {i b : ℕ} (hne : i ≠ address) (hrun : access address value content n P = some P')
    (hb : P.byte i = some b) : P'.byte i = some b := by
  induction n generalizing P with
  | zero => cases hrun
  | succ n ih =>
    cases hexit : P.called_exit_ with
    | true =>
      rw [access_exited hexit] at hrun
      cases hrun
      exact hb
    | false =>
      cases hl : P.lookup address with
      | none =>
        rw [access_none hexit hl] at hrun
        exact ih hrun (fault_byte hl hb)
      | some page =>
        rw [access_some hexit hl] at hrun
        cases hrun
        have hstore : (P.store address page value).byte i = _ := store_byte hl hb
        rwa [written, if_neg hne] at hstore

theorem access_byte (hexit : P.called_exit_ = false) (hrun : access address value content n P = some P') {i b : ℕ}
    (hb : P.byte i = some b) : P'.byte i = some (written address value i b) := by
  by_cases hi : i = address
  · obtain ⟨m, rfl⟩ : ∃ m, n = m + 1 := ⟨n - 1, by cases n with | zero => cases hrun | succ n => rfl⟩
    cases hl : P.lookup address with
    | none =>
      rw [hi, byte, hl] at hb
      cases hb
    | some page =>
      rw [access_some hexit hl] at hrun
      cases hrun
      exact store_byte hl hb
  · rw [written, if_neg hi]
    exact access_byte_ne hi hrun hb

/-- A write that the process survives is read back. -/
theorem access_back {v : ℕ} (hrun : access address (some v) content n P = some P') (hexit : P'.called_exit_ = false) :
    P'.byte address = some (v % 256) := by
  induction n generalizing P with
  | zero => cases hrun
  | succ n ih =>
    cases hP : P.called_exit_ with
    | true =>
      rw [access_exited hP] at hrun
      cases hrun
      rw [hP] at hexit
      cases hexit
    | false =>
      cases hl : P.lookup address with
      | none =>
        rw [access_none hP hl] at hrun
        exact ih hrun
      | some page =>
        rw [access_some hP hl] at hrun
        cases hrun
        have hb : P.byte address = some (loadByte page (address % PAGE_SIZE)) := by rw [byte, hl]; rfl
        rw [store_byte hl hb, written, if_pos rfl]
        rfl

end Proc

/-! ### All processes -/

/-- The process itself accesses its memory, or is removed. -/
def Op.Touches (pid : ℕ) : Op → Prop
  | .access proc _ _ _ => proc = pid
  | .destroy proc => proc = pid
  | _ => False

namespace Private

theorem onProc_eq {b : Bool} {f : Proc → Option Private} (h : a.onProc proc b f = some a') :
    a' = a ∨ ∃ p, a.proc proc = some p ∧ p.called_exit_ = b ∧ f p = some a' := by
  unfold onProc at h
  split at h
  · cases h
    exact .inl rfl
  · rename_i p hp
    split at h
    · exact .inr ⟨p, hp, ‹_›, h⟩
    · cases h
      exact .inl rfl

/-- An operation that does not touch a process leaves its memory. -/
theorem step_memory (hstep : a.step op = some a') (hnot : ¬op.Touches pid) (hpid : pid ≠ a.pid_counter_) :
    (a'.proc pid).map Proc.memory = (a.proc pid).map Proc.memory := by
  have hadd : ∀ o, ((a.add o).proc pid).map Proc.memory = (a.proc pid).map Proc.memory := by
    intro o
    show (update a.proc _ o pid).map _ = _
    rw [update_of_ne hpid]
  cases op with
  | createProcess loads start garbage =>
    cases hstep
    exact hadd _
  | fork proc loads garbage =>
    obtain rfl | ⟨p, -, -, h⟩ := onProc_eq hstep
    · rfl
    · split at h
      · cases h
        rfl
      · cases h
        exact hadd _
  | access proc address value content =>
    have hne : pid ≠ proc := fun h => hnot h.symm
    obtain rfl | ⟨p, -, -, h⟩ := onProc_eq hstep
    · rfl
    · obtain ⟨p', -, rfl⟩ := Option.map_eq_some_iff.mp h
      show (update a.proc _ _ pid).map _ = _
      rw [update_of_ne hne]
  | exit proc =>
    obtain rfl | ⟨p, hp, -, h⟩ := onProc_eq hstep
    · rfl
    · cases h
      show (update a.proc _ _ pid).map _ = _
      by_cases hne : pid = proc
      · rw [hne, update_self, hp]
        rfl
      · rw [update_of_ne hne]
  | destroy proc =>
    have hne : pid ≠ proc := fun h => hnot h.symm
    obtain rfl | ⟨p, -, -, h⟩ := onProc_eq hstep
    · rfl
    · cases h
      show (update a.proc _ _ pid).map _ = _
      rw [update_of_ne hne]
  | execv proc loads start => cases hstep

theorem readByte_congr (h : (a'.proc pid).map Proc.memory = (a.proc pid).map Proc.memory) (i : ℕ) :
    a'.readByte pid i = a.readByte pid i := by
  have hbyte : ∀ o : Option Proc, (o.bind fun p => p.byte i) = (o.map Proc.memory).bind fun m =>
      (if i < USER_BREAK then m (i / PAGE_SIZE) else none).map fun page => loadByte page (i % PAGE_SIZE) := by
    intro o
    cases o with
    | none => rfl
    | some p => rfl
  rw [readByte, readByte, hbyte, hbyte, h]

end Private

/-! ### Runs -/

/-- Sharing the pages of the parent cannot be told from copying them. -/
theorem fork_modes_agree (hnone : NoProcesses s₀) (hexec : ∀ op ∈ ops, ¬op.IsExecv) :
    (∀ mode e, (run mode ops).run s₀ = .error e → e = .outOfMemory) ∧
    ∀ s s', (run .cow ops).run s₀ = .ok (⟨⟩, s) → (run .eager ops).run s₀ = .ok (⟨⟩, s') →
      ∀ pid address, readByte s pid address = readByte s' pid address := by
  have L := hnone.live
  refine ⟨fun mode e he => show OutOfMemory e from error_of_wp (wp_run L hexec) he, fun s s' hrun hrun' pid address => ?_⟩
  obtain ⟨own, hlive, habs, -⟩ := of_wp (wp_run L hexec) hrun
  obtain ⟨own', hlive', habs', -⟩ := of_wp (wp_run L hexec) hrun'
  rw [readByte_eq hlive, readByte_eq hlive', Option.some.inj (habs.symm.trans habs')]

/-- A process forks, and both write. -/
def forkAndWrite : List Op :=
  [.createProcess true topStack ⟨0, 0, 0⟩, .fork 0 true ⟨0, 0, 0⟩, .access 0 0x7ffffffefff8 (some 1) .noSection,
    .access 1 0x7ffffffefff8 (some 2) .noSection]

theorem fork_modes_agree_written :
    (∀ mode e, (run mode forkAndWrite).run (.ofPages 16) = .error e → e = .outOfMemory) ∧
    ∀ s s', (run .cow forkAndWrite).run (.ofPages 16) = .ok (⟨⟩, s) →
      (run .eager forkAndWrite).run (.ofPages 16) = .ok (⟨⟩, s') →
      ∀ pid address, readByte s pid address = readByte s' pid address :=
  fork_modes_agree (ofPages_noProcesses (by decide) (by decide)) (by simp [forkAndWrite, Op.IsExecv])

/-- What the operations do to the bytes that processes read. -/
structure MemoryIsPrivate (mode : ForkMode) (s : Kernel) : Prop where
  others : ∀ op s' pid, ¬op.IsExecv → ¬op.Touches pid → s.process_list_ pid ≠ none →
    (step mode op).run s = .ok (⟨⟩, s') → ∀ i, readByte s' pid i = readByte s pid i
  access : ∀ proc pr address value content s', s.process_list_ proc = some pr → pr.called_exit_ = false →
    (step mode (.access proc address value content)).run s = .ok (⟨⟩, s') →
    ∀ i b, readByte s proc i = some b → readByte s' proc i = some (Proc.written address value i b)
  back : ∀ proc pr pr' address v content s', s.process_list_ proc = some pr → pr.called_exit_ = false →
    (step mode (.access proc address (some v) content)).run s = .ok (⟨⟩, s') →
    s'.process_list_ proc = some pr' → pr'.called_exit_ = false → readByte s' proc address = some (v % 256)
  child : ∀ proc pr garbage s', s.process_list_ proc = some pr → pr.called_exit_ = false → pr.thread_list_ ≠ [] →
    (step mode (.fork proc true garbage)).run s = .ok (⟨⟩, s') →
    ∀ i, readByte s' s.pid_counter_ i = readByte s proc i

/-- The step of the private memories when a process accesses its memory. -/
theorem access_step (hpr : s.process_list_ proc = some pr) (hexit : pr.called_exit_ = false)
    (h : (abs own s).step (.access proc address value content) = some a') :
    ∃ P, Proc.access address value content 16 (absProc own s pr) = some P ∧ a' = (abs own s).set proc P := by
  obtain ⟨P, hP, rfl⟩ : ∃ P, Proc.access address value content 16 (absProc own s pr) = some P ∧
      (abs own s).set proc P = a' := by
    rw [Private.step, Private.onProc, abs_proc hpr] at h
    dsimp only at h
    rw [if_pos (show (absProc own s pr).called_exit_ = false from hexit)] at h
    exact Option.map_eq_some_iff.mp h
  exact ⟨P, hP, rfl⟩

theorem readByte_set (P : Proc) (i : ℕ) : (a.set pid P).readByte pid i = P.byte i := by
  show ((update a.proc pid (some P)) pid).bind _ = _
  rw [update_self]
  rfl

theorem Live.isPrivate (L : Live kept own s) (mode : ForkMode) : MemoryIsPrivate mode s where
  others op s' pid hop hnot hlisted hstep i := by
    obtain ⟨own', h⟩ := of_wp (wp_step L hop) hstep
    rw [readByte_eq L, readByte_eq h.live]
    refine Private.readByte_congr (Private.step_memory h.step hnot ?_) i
    exact (L.inv.counter hlisted).ne
  access proc pr address value content s' hpr hexit hstep i b hb := by
    obtain ⟨own', h⟩ := of_wp (wp_step L id) hstep
    obtain ⟨P, hP, habs⟩ := access_step hpr hexit h.step
    rw [readByte_eq L, Private.readByte, abs_proc hpr] at hb
    rw [readByte_eq h.live, habs, readByte_set]
    exact Proc.access_byte hexit hP hb
  back proc pr pr' address v content s' hpr hexit hstep hpr' hexit' := by
    obtain ⟨own', h⟩ := of_wp (wp_step L id) hstep
    obtain ⟨P, hP, habs⟩ := access_step hpr hexit h.step
    have hself : (abs own' s').proc proc = some (absProc own' s' pr') := abs_proc hpr'
    rw [habs] at hself
    have hPexit : P.called_exit_ = false := by
      have heq : update (abs own s).proc proc (some P) proc = some (absProc own' s' pr') := hself
      rw [update_self] at heq
      rw [Option.some.inj heq]
      exact hexit'
    rw [readByte_eq h.live, habs, readByte_set]
    exact Proc.access_back hP hPexit
  child proc pr garbage s' hpr hexit hthread hstep i := by
    obtain ⟨own', h⟩ := of_wp (wp_step L id) hstep
    obtain ⟨thread, hhead⟩ : ∃ thread, pr.thread_list_.head? = some thread := by
      cases hl : pr.thread_list_ with
      | nil => exact absurd hl hthread
      | cons t ts => exact ⟨t, rfl⟩
    have hstep' := h.step
    have hhead' : (absProc own s pr).thread_list_.head? = some thread := hhead
    rw [Private.step, Private.onProc, abs_proc hpr] at hstep'
    dsimp only at hstep'
    rw [if_pos (show (absProc own s pr).called_exit_ = false from hexit), hhead'] at hstep'
    rw [readByte_eq L, readByte_eq h.live, ← Option.some.inj hstep', Private.readByte, Private.readByte, abs_proc hpr]
    show (update (abs own s).proc s.pid_counter_ (some ((absProc own s pr).child thread garbage)) s.pid_counter_).bind _ = _
    rw [update_self]
    rfl

theorem memory_isPrivate (hnone : NoProcesses s₀) (hexec : ∀ op ∈ ops, ¬op.IsExecv)
    (hrun : (run mode ops).run s₀ = .ok (⟨⟩, s)) : MemoryIsPrivate mode s := by
  obtain ⟨own, L, -, -⟩ := of_wp (wp_run hnone.live hexec) hrun
  exact L.isPrivate mode

theorem memory_isPrivate_created : ∃ s,
    (run .cow [.createProcess true topStack ⟨0, 0, 0⟩]).run (.ofPages 16) = .ok (⟨⟩, s) ∧ MemoryIsPrivate .cow s := by
  obtain ⟨s, hstep⟩ := createProcess_ofPages
  have hrun : (run .cow [.createProcess true topStack ⟨0, 0, 0⟩]).run (.ofPages 16) = .ok (⟨⟩, s) := by
    rw [run, StateT.run_bind, hstep]
    rfl
  exact ⟨s, hrun, memory_isPrivate (ofPages_noProcesses (by decide) (by decide)) (by simp [Op.IsExecv]) hrun⟩

end KPanic
