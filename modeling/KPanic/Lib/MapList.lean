import Mathlib.Data.List.Perm.Basic
import Mathlib.Tactic.Common

/-!
# Maps and keyed lists

How an insertion or a removal changes the list of the entries of a map, and how an update of one
element changes a list whose elements have distinct keys; both up to their order.
-/

namespace MapList

open Std

variable {α β : Type} {cmp : α → α → Ordering} [TransCmp cmp] [LawfulEqCmp cmp]
  {t : TreeMap α β cmp} {k : α} {v : β}

theorem nodup_toList (t : TreeMap α β cmp) : t.toList.Nodup := by
  refine TreeMap.distinct_keys_toList.imp fun {a b} hab heq => hab ?_
  rw [heq]
  exact ReflCmp.compare_self

theorem not_mem_of_none (h : t[k]? = none) : (k, v) ∉ t.toList := by
  rw [TreeMap.mem_toList_iff_getElem?_eq_some, h]
  exact nofun

theorem toList_insert (h : t[k]? = none) : (t.insert k v).toList.Perm ((k, v) :: t.toList) := by
  rw [List.perm_ext_iff_of_nodup (nodup_toList _)
    (List.nodup_cons.mpr ⟨not_mem_of_none h, nodup_toList _⟩)]
  intro ⟨a, b⟩
  simp only [List.mem_cons, TreeMap.mem_toList_iff_getElem?_eq_some, TreeMap.getElem?_insert,
    Prod.mk.injEq]
  split
  · rename_i heq
    obtain rfl := LawfulEqCmp.eq_of_compare heq
    simp [h, eq_comm]
  · rename_i hne
    have hak : a ≠ k := fun heq => hne (heq ▸ ReflCmp.compare_self)
    simp [hak]

theorem toList_erase (h : t[k]? = some v) : t.toList.Perm ((k, v) :: (t.erase k).toList) := by
  have hk : (t.erase k)[k]? = none := by
    rw [TreeMap.getElem?_erase, if_pos ReflCmp.compare_self]
  rw [List.perm_ext_iff_of_nodup (nodup_toList _)
    (List.nodup_cons.mpr ⟨not_mem_of_none hk, nodup_toList _⟩)]
  intro ⟨a, b⟩
  simp only [List.mem_cons, TreeMap.mem_toList_iff_getElem?_eq_some, TreeMap.getElem?_erase,
    Prod.mk.injEq]
  split
  · rename_i heq
    obtain rfl := LawfulEqCmp.eq_of_compare heq
    simp [h, eq_comm]
  · rename_i hne
    have hak : a ≠ k := fun heq => hne (heq ▸ ReflCmp.compare_self)
    simp [hak]

variable {ι : Type} [DecidableEq ι] {k : α → ι} {l : List α} {a a' : α}

theorem perm_cons_filter (h : (l.map k).Nodup) (ha : a ∈ l) :
    l.Perm (a :: l.filter fun b => k b ≠ k a) := by
  induction l with
  | nil => cases ha
  | cons b l ih =>
    rw [List.map_cons, List.nodup_cons] at h
    have hother : ∀ c ∈ l, k c ≠ k b := fun c hc heq => h.1 (heq ▸ List.mem_map_of_mem hc)
    obtain rfl | ha := List.mem_cons.mp ha
    · have hfilter : l.filter (fun c => k c ≠ k a) = l :=
        List.filter_eq_self.mpr fun c hc => decide_eq_true (hother c hc)
      rw [List.filter_cons_of_neg (by simp), hfilter]
    · rw [List.filter_cons_of_pos (by simpa using (hother a ha).symm)]
      exact ((ih h.2 ha).cons b).trans (.swap a b _)

theorem perm_replace (h : (l.map k).Nodup) (ha : a ∈ l) (hkey : k a' = k a) :
    (l.map fun b => if k b = k a' then a' else b).Perm
      (a' :: l.filter fun b => k b ≠ k a) := by
  have hperm := (perm_cons_filter h ha).map fun b => if k b = k a' then a' else b
  rw [List.map_cons, if_pos hkey.symm] at hperm
  refine hperm.trans (.cons a' (.of_eq ?_))
  conv_rhs => rw [← List.map_id (l.filter fun b => k b ≠ k a)]
  refine List.map_congr_left fun b hb => ?_
  have hne : k b ≠ k a := by simpa using (List.mem_filter.mp hb).2
  rw [if_neg (hkey ▸ hne), id]

theorem map_key_replace : (l.map fun b => if k b = k a' then a' else b).map k = l.map k := by
  rw [List.map_map]
  refine List.map_congr_left fun b _ => ?_
  rw [Function.comp_apply]
  split
  · rename_i heq
    exact heq.symm
  · rfl

end MapList
