import Mathlib.Data.List.Induction
import Mathlib.Logic.Function.Iterate
import KPanic.Fs.NamespaceSteps

/-!
# Runs of the root file system

Every run of calls returns what the namespace returns, whatever the threads do, and leaves dentries, inodes and descriptors that
fit together.
-/

namespace KPanic.DeviceFS

open Function
open Wp

variable {s s' : Fs} {loc loc' : Loc} {a : Namespace} {c d p i thread : ℕ} {l : Location} {D P : Dentry} {op : Op} {r : Reply}
  {pathname pathname_ : List Char}

def run : List Op → FsM (List Reply)
  | [] => return []
  | op :: ops => do
    let reply ← step op
    let replies ← run ops
    return reply :: replies

noncomputable def Namespace.run (a : Namespace) : List Op → List Reply × Namespace
  | [] => ([], a)
  | op :: ops => ((a.step op).1 :: ((a.step op).2.run ops).1, ((a.step op).2.run ops).2)

def Namespace.AllowedRun (a : Namespace) : List Op → Prop
  | [] => True
  | op :: ops => a.Allowed op ∧ (a.step op).2.AllowedRun ops

def bootLoc : Loc := update (update (fun _ => none) 0 (some [])) 2 (some [DEVICE_ROOT_NAME])

theorem bootLoc_cases (h : bootLoc d = some l) : d = 0 ∧ l = [] ∨ d = 2 ∧ l = [DEVICE_ROOT_NAME] := by
  unfold bootLoc at h
  by_cases hd : d = 2
  · rw [hd, update_self] at h
    exact .inr ⟨hd, (Option.some.inj h).symm⟩
  · rw [update_of_ne hd] at h
    by_cases hd' : d = 0
    · rw [hd', update_self] at h
      exact .inl ⟨hd', (Option.some.inj h).symm⟩
    · rw [update_of_ne hd'] at h
      cases h

theorem boot_dentry (h : Fs.boot.dentry d = some D) :
    d = 0 ∧ D = ⟨some 1, some 0, [2], ROOT_NAME⟩ ∨ d = 2 ∧ D = ⟨some 3, some 0, [], DEVICE_ROOT_NAME⟩ := by
  have h' : update (update (fun _ => none) 0 (some ⟨some 1, some 0, [2], ROOT_NAME⟩)) 2
    (some ⟨some 3, some 0, [], DEVICE_ROOT_NAME⟩) d = some D := h
  by_cases hd : d = 2
  · rw [hd, update_self] at h'
    exact .inr ⟨hd, (Option.some.inj h').symm⟩
  · rw [update_of_ne hd] at h'
    by_cases hd' : d = 0
    · rw [hd', update_self] at h'
      exact .inl ⟨hd', (Option.some.inj h').symm⟩
    · rw [update_of_ne hd'] at h'
      cases h'

theorem boot_inode {I : Inode} (h : Fs.boot.inode i = some I) :
    i = 1 ∧ I = ⟨.I_DIR, BASIC_ALLOC, none, some 0, []⟩ ∨ i = 3 ∧ I = ⟨.I_DIR, BASIC_ALLOC, none, some 2, []⟩ := by
  have h' : update (update (fun _ => none) 1 (some ⟨.I_DIR, BASIC_ALLOC, none, some 0, []⟩)) 3
    (some ⟨.I_DIR, BASIC_ALLOC, none, some 2, []⟩) i = some I := h
  by_cases hi : i = 3
  · rw [hi, update_self] at h'
    exact .inr ⟨hi, (Option.some.inj h').symm⟩
  · rw [update_of_ne hi] at h'
    by_cases hi' : i = 1
    · rw [hi', update_self] at h'
      exact .inl ⟨hi', (Option.some.inj h').symm⟩
    · rw [update_of_ne hi'] at h'
      cases h'

theorem boot_tree : Tree Fs.boot bootLoc := by
  have hroot : bootLoc 0 = some [] := rfl
  have hdev : bootLoc 2 = some [DEVICE_ROOT_NAME] := rfl
  refine ⟨fun {d} => ?_, rfl, fun {d d' l} hd hd' => ?_, fun {p P l c} hp hl => ?_, fun {c C l n} hC hc => ?_, fun {D} hD => ?_⟩
  · by_cases hd : d = 2
    · rw [hd]
      exact iff_of_false nofun nofun
    · by_cases hd' : d = 0
      · rw [hd']
        exact iff_of_false nofun nofun
      · exact iff_of_true ((update_of_ne hd _ _).trans (update_of_ne hd' _ _)) ((update_of_ne hd _ _).trans (update_of_ne hd' _ _))
  · obtain ⟨rfl, rfl⟩ | ⟨rfl, rfl⟩ := bootLoc_cases hd
    · obtain ⟨rfl, -⟩ | ⟨-, h⟩ := bootLoc_cases hd'
      · rfl
      · cases h
    · obtain ⟨-, h⟩ | ⟨rfl, -⟩ := bootLoc_cases hd'
      · cases h
      · rfl
  · obtain ⟨rfl, rfl⟩ | ⟨rfl, rfl⟩ := boot_dentry hp
    · rw [hroot] at hl
      cases hl
      rw [List.mem_singleton]
      constructor
      · rintro rfl
        exact ⟨_, hdev⟩
      · rintro ⟨n, hc⟩
        obtain ⟨-, h⟩ | ⟨h, -⟩ := bootLoc_cases hc
        · cases h
        · exact h
    · rw [hdev] at hl
      cases hl
      refine iff_of_false List.not_mem_nil ?_
      rintro ⟨n, hc⟩
      obtain ⟨-, h⟩ | ⟨-, h⟩ := bootLoc_cases hc
      · cases h
      · cases h
  · obtain ⟨rfl, rfl⟩ | ⟨rfl, rfl⟩ := boot_dentry hC
    · rw [hroot] at hc
      exact absurd (Option.some.inj hc).symm (List.append_ne_nil_of_right_ne_nil _ (List.cons_ne_nil _ _))
    · rw [hdev] at hc
      obtain ⟨rfl, rfl⟩ : [] = l ∧ DEVICE_ROOT_NAME = n := append_inj (l := []) (Option.some.inj hc)
      exact ⟨rfl, 0, rfl, hroot⟩
  · obtain ⟨-, rfl⟩ | ⟨h, -⟩ := boot_dentry hD
    · exact ⟨rfl, rfl⟩
    · cases h

theorem boot_inodes : Inodes Fs.boot := by
  refine ⟨fun {d D} hd => ?_, fun {i I} hi => ?_, fun {d D i I} hd hDi hi hchild => ?_, fun {i I} hi => ?_, fun {i} => ?_, ?_⟩
  · obtain ⟨rfl, rfl⟩ | ⟨rfl, rfl⟩ := boot_dentry hd
    · exact ⟨1, _, rfl, rfl, rfl⟩
    · exact ⟨3, _, rfl, rfl, rfl⟩
  · obtain ⟨rfl, rfl⟩ | ⟨rfl, rfl⟩ := boot_inode hi
    · exact ⟨0, _, rfl, rfl, rfl⟩
    · exact ⟨2, _, rfl, rfl, rfl⟩
  · obtain ⟨-, rfl⟩ | ⟨-, rfl⟩ := boot_inode hi
    · rfl
    · rfl
  · obtain ⟨-, rfl⟩ | ⟨-, rfl⟩ := boot_inode hi
    · exact ⟨rfl, by decide⟩
    · exact ⟨rfl, by decide⟩
  · constructor
    · intro h
      obtain rfl | h := List.mem_cons.mp h
      · exact Option.some_ne_none _
      · obtain rfl := List.mem_singleton.mp h
        exact Option.some_ne_none _
    · intro h
      obtain ⟨I, hI⟩ := Option.ne_none_iff_exists'.mp h
      obtain ⟨rfl, -⟩ | ⟨rfl, -⟩ := boot_inode hI
      · exact List.mem_cons_self
      · exact List.mem_cons_of_mem _ (List.mem_singleton_self _)
  · show [1, 3].Nodup
    decide

theorem boot_represents : Represents Fs.boot bootLoc Namespace.boot := by
  have hnode : ∀ {l}, Namespace.boot.node l ≠ none → l = [] ∨ l = [DEVICE_ROOT_NAME] := by
    intro l hl
    have hl' : update (update (fun _ => none) [] (some Node.dir)) [DEVICE_ROOT_NAME] (some .dir) l ≠ none := hl
    by_cases hdev : l = [DEVICE_ROOT_NAME]
    · exact .inr hdev
    · rw [update_of_ne hdev] at hl'
      by_cases hroot : l = []
      · exact .inl hroot
      · rw [update_of_ne hroot] at hl'
        exact absurd rfl hl'
  refine ⟨boot_tree, boot_inodes, ⟨fun {d l} hd => ?_, fun {l} hl => ?_, fun _ => rfl⟩, ?_, ⟨rfl, nofun, fun h => absurd rfl h⟩, ?_,
    by decide, rfl, fun _ => rfl⟩
  · obtain ⟨rfl, rfl⟩ | ⟨rfl, rfl⟩ := bootLoc_cases hd
    · rfl
    · rfl
  · obtain rfl | rfl := hnode hl
    · exact ⟨0, rfl⟩
    · exact ⟨2, rfl⟩
  · refine ⟨rfl, nofun, nofun, ?_, nofun, fun {i I f} hi => ?_, fun {i} => ?_⟩
    · intro f
      exact iff_of_false (not_not.mpr rfl) nofun
    · obtain ⟨-, rfl⟩ | ⟨-, rfl⟩ := boot_inode hi
      · exact iff_of_false List.not_mem_nil nofun
      · exact iff_of_false List.not_mem_nil nofun
    · refine iff_of_false List.not_mem_nil ?_
      rintro ⟨I, hI, hne⟩
      obtain ⟨-, rfl⟩ | ⟨-, rfl⟩ := boot_inode hI
      · exact hne rfl
      · exact hne rfl
  · intro x hx
    have hx' : 4 ≤ x := hx
    exact ⟨(update_of_ne (by omega) _ _).trans (update_of_ne (by omega) _ _),
      (update_of_ne (by omega) _ _).trans (update_of_ne (by omega) _ _), rfl⟩

/-! ### Runs -/

theorem step_refines (R : Represents s loc a) (h : a.Allowed op) :
    ∃ s' loc', (step op).run s = .ok ((a.step op).1, s') ∧ Represents s' loc' (a.step op).2 ∧ Kept loc loc' (a.step op).2 := by
  obtain ⟨r, s', hrun, hr, loc', R', hkept⟩ := returns_of_wp (wp_step R op h)
  exact ⟨s', loc', by rw [hrun, hr], R', hkept⟩

theorem run_represents {ops : List Op} (R : Represents s loc a) (h : a.AllowedRun ops) :
    ∃ s' loc', (run ops).run s = .ok ((a.run ops).1, s') ∧ Represents s' loc' (a.run ops).2 := by
  induction ops generalizing s loc a with
  | nil => exact ⟨s, loc, rfl, R⟩
  | cons op ops ih =>
    obtain ⟨s₁, loc₁, hstep, R₁, -⟩ := step_refines R h.1
    obtain ⟨s₂, loc₂, hrest, R₂⟩ := ih R₁ h.2
    refine ⟨s₂, loc₂, ?_, R₂⟩
    rw [run, run_bind_ok hstep, run_bind_ok hrest]
    rfl

/-- What the calls lead to, and the namespace that is meant. -/
inductive Reached : Fs → Namespace → Prop
  | boot : Reached Fs.boot Namespace.boot
  | call {s s' : Fs} {a : Namespace} {op : Op} {r : Reply} : Reached s a → a.Allowed op → (step op).run s = .ok (r, s') →
      Reached s' (a.step op).2

theorem Reached.represents (h : Reached s a) : ∃ loc, Represents s loc a := by
  induction h with
  | boot => exact ⟨bootLoc, boot_represents⟩
  | call _ hallowed hrun ih =>
    obtain ⟨loc, R⟩ := ih
    obtain ⟨s', loc', hstep, R', -⟩ := step_refines R hallowed
    rw [hrun] at hstep
    cases hstep
    exact ⟨loc', R'⟩

/-- The parent of a dentry. -/
def Fs.above (s : Fs) (d : ℕ) : ℕ := ((s.dentry d).bind Dentry.d_parent_).getD d

/-- The dentries are one tree below the root, and the threads are in its directories. -/
structure Linked (s : Fs) : Prop where
  children : ∀ {p P c}, s.dentry p = some P →
    (c ∈ P.d_child_ ↔ c ≠ s.s_root_ ∧ ∃ C, s.dentry c = some C ∧ C.d_parent_ = some p)
  names : ∀ {p P c c' C C'}, s.dentry p = some P → c ∈ P.d_child_ → c' ∈ P.d_child_ → s.dentry c = some C → s.dentry c' = some C' →
    C.d_name_ = C'.d_name_ → c = c'
  root : ∀ {d D}, s.dentry d = some D → ∃ k, Nat.iterate s.above k d = s.s_root_
  threads : ∀ thread, ∃ D i I, s.dentry (s.pwd_ thread) = some D ∧ D.d_inode_ = some i ∧ s.inode i = some I ∧ I.i_type_ = .I_DIR

theorem Tree.root_of (T : Tree s loc) (h : loc d = some l) : ∃ k, Nat.iterate s.above k d = s.s_root_ := by
  induction l using List.reverseRecOn generalizing d with
  | nil => exact ⟨0, T.inj h T.root⟩
  | append_singleton l n ih =>
    obtain ⟨D, hD⟩ := T.dentry h
    obtain ⟨-, p, hparent, hp⟩ := T.parent hD h
    obtain ⟨k, hk⟩ := ih hp
    have habove : s.above d = p := by
      rw [Fs.above, hD, Option.bind_some, hparent, Option.getD_some]
    exact ⟨k + 1, by rw [iterate_succ_apply, habove, hk]⟩

theorem Tree.child_iff (T : Tree s loc) (hp : s.dentry p = some P) :
    c ∈ P.d_child_ ↔ c ≠ s.s_root_ ∧ ∃ C, s.dentry c = some C ∧ C.d_parent_ = some p := by
  obtain ⟨l, hl⟩ := T.location hp
  rw [T.child hp hl]
  constructor
  · rintro ⟨n, hc⟩
    obtain ⟨C, hC⟩ := T.dentry hc
    obtain ⟨-, q, hparent, hq⟩ := T.parent hC hc
    obtain rfl := T.inj hq hl
    exact ⟨T.ne_root hc, C, hC, hparent⟩
  · rintro ⟨hroot, C, hC, hparent⟩
    obtain ⟨l', hc⟩ := T.location hC
    have hne : l' ≠ [] := by
      rintro rfl
      exact hroot (T.inj hc T.root)
    obtain ⟨l'', n, rfl⟩ : ∃ l'' n, l' = l'' ++ [n] := ⟨_, _, (List.dropLast_concat_getLast hne).symm⟩
    obtain ⟨-, q, hparent', hq⟩ := T.parent hC hc
    obtain rfl := Option.some.inj (hparent.symm.trans hparent')
    obtain rfl := Option.some.inj (hl.symm.trans hq)
    exact ⟨n, hc⟩

theorem Represents.linked (R : Represents s loc a) : Linked s where
  children := R.tree.child_iff
  names {p P c c' C C'} hp hc hc' hC hC' hname := by
    obtain ⟨l, hl⟩ := R.tree.location hp
    obtain ⟨n, hn⟩ := (R.tree.child hp hl).mp hc
    obtain ⟨n', hn'⟩ := (R.tree.child hp hl).mp hc'
    rw [R.tree.name hC hn, R.tree.name hC' hn'] at hname
    exact R.tree.inj hn (hname ▸ hn')
  root hd := by
    obtain ⟨l, hl⟩ := R.tree.location hd
    exact R.tree.root_of hl
  threads thread := by
    obtain ⟨D, i, I, E⟩ := R.object (R.named.pwd thread)
    have hdir := E.node.symm.trans (R.pwdDir thread)
    exact ⟨D, i, I, E.dentry, E.inode, E.object, (R.inodes.dir_iff E.object).mpr (Option.some.inj hdir)⟩

end KPanic.DeviceFS
