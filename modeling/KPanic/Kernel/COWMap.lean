import KPanic.Mm.PageManager

/-!
# `common/source/kernel/COWManager.cpp`: the sharer sets

`cow_map_` sends a physical page to the set of processes that share it. A process is named by its
pid; a page without an entry and one with an empty set are the same to every function here.
-/

namespace KPanic

open Function

def addToCOWMap (ppn pid1 pid2 : ℕ) : Kern PUnit := do
  let s ← get
  Kern.assert ((s.process_list_ pid1).isSome ∧ (s.process_list_ pid2).isSome) .processesNotListed
  set { s with
    cow_map_ := update s.cow_map_ ppn (((s.cow_map_ ppn).insert pid1).insert pid2) }

def eraseProcessFromCOWMap (pid : ℕ) : Kern PUnit :=
  modify fun s => { s with cow_map_ := fun ppn => (s.cow_map_ ppn).erase pid }

end KPanic
