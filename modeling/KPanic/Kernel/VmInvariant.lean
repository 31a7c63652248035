import KPanic.Arch.ForEachPage
import KPanic.Arch.FreeTables
import KPanic.Kernel.UserProcess

/-!
# The invariant of the memory of all processes

`VmInv kept own s` joins the page tables, as `Tables` describes them, with the sharer sets, as
`Sharing` describes them: the address spaces are the trees, and their owners are the processes.
-/

namespace KPanic

open Function
open PageTree
open CopyOnWrite
open Wp

def rootOf (s : Kernel) (pid : ℕ) : Option ℕ :=
  (s.process_list_ pid).map UserProcess.page_map_level_4_

structure VmInv (kept : ℕ → Prop) (own : Own) (s : Kernel) : Prop where
  tables : Tables kept own s
  sharing : Sharing (space own s.memory) s.cow_map_ (rootOf s)
  root : ∀ {pid r}, rootOf s pid = some r → IsRoot paging own r
  counter : ∀ {pid}, s.process_list_ pid ≠ none → pid < s.pid_counter_

/-- The page that the tree at `r` shows at `v`. -/
noncomputable def pageAt (own : Own) (s : Kernel) (r v : ℕ) : Option Page :=
  view (space own s.memory) s.memory r v

variable {kept : ℕ → Prop} {own own' : Own} {s s' : Kernel} {r v p pid : ℕ}

theorem rootOf_eq {proc : UserProcess} (h : s.process_list_ pid = some proc) :
    rootOf s pid = some proc.page_map_level_4_ := by
  rw [rootOf, h]
  rfl

theorem rootOf_congr (h : s'.process_list_ = s.process_list_) : rootOf s' = rootOf s := by
  funext pid
  rw [rootOf, rootOf, h]

theorem wp_getProcess {proc : UserProcess} (h : s.process_list_ pid = some proc)
    {Q : UserProcess → Kernel → Prop} (hQ : Q proc s) :
    wp OutOfMemory (getProcess pid) Q s := by
  rw [getProcess, wp_bind, wp_get, h]
  exact (wp_pure _).mpr hQ

/-- `Tables` does not look at the sharer sets or the processes. -/
theorem TablesOf.other {users : ℕ → Prop} (T : TablesOf users kept own s)
    (hm : s'.memory = s.memory) (hp : s'.pm = s.pm) : TablesOf users kept own s' where
  pm := by
    rw [hm, hp]
    exact T.pm
  zero := T.zero
  apart := T.apart
  tree := by
    rw [hm]
    exact T.tree
  words := by
    rw [hm]
    exact T.words

namespace VmInv

/-- A page that is used but not mapped is in no sharer set. -/
theorem not_shared (V : VmInv kept own s) (h : ∀ u, own p ≠ some (.leaf u)) : s.cow_map_ p = [] :=
  V.sharing.fresh_sharers fun _ v _ hm => h v (space_own V.tables.tree hm)

theorem fresh_of_own (V : VmInv kept own s) (h : ∀ u, own p ≠ some (.leaf u)) :
    Fresh (space own s.memory) p :=
  fun _ v _ hm => h v (space_own V.tables.tree hm)

theorem fresh_of_none (V : VmInv kept own s) (h : own p = none) : Fresh (space own s.memory) p :=
  V.fresh_of_own fun u hu => by rw [h] at hu; cases hu

/-- The page of a mapping is in use and no table. -/
theorem mapped (V : VmInv kept own s) {b : Bool} (h : space own s.memory r v = some (p, b)) :
    (own p ≠ none ∨ kept p) ∧ ¬IsTable own p := by
  have hown := space_own V.tables.tree h
  refine ⟨.inl ?_, TablesOf.not_table_of_leaf hown⟩
  rw [hown]
  exact Option.some_ne_none _

end VmInv

end KPanic
