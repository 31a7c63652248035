import Mathlib.Data.List.GetD
import KPanic.Lib.Ownership
import KPanic.Fs.FileData

/-!
# The disk zones that a tree refers to

Data zones and linking zones, each as often as it is referred to. `setZone` puts a zone into a
slot that is free, and `needIndirect` and `needDouble` make the arrays for it.
-/

namespace KPanic.Minix

open Function
open Ownership
open Wp

/-- The entries that are not 0. -/
def zonesIn (l : List ℕ) : List ℕ := l.filter (· ≠ 0)

theorem countZones_eq (l : List ℕ) : countZones l = (zonesIn l).length := List.countP_eq_length_filter

theorem zonesIn_replicate (n : ℕ) : zonesIn (List.replicate n 0) = [] :=
  List.filter_eq_nil_iff.mpr fun a ha => by simp [List.eq_of_mem_replicate ha]

theorem mem_zonesIn {l : List ℕ} {a : ℕ} : a ∈ zonesIn l ↔ a ∈ l ∧ a ≠ 0 := by
  rw [zonesIn, List.mem_filter, decide_eq_true_iff]

/-- A zone takes a slot that was free. -/
theorem zonesIn_set {l : List ℕ} {i zone : ℕ} (hi : i < l.length) (hfree : l.getD i 0 = 0) (hz : zone ≠ 0) :
    (zonesIn (l.set i zone)).Perm (zone :: zonesIn l) := by
  induction l generalizing i with
  | nil => cases hi
  | cons a l ih =>
    cases i with
    | zero =>
      obtain rfl : a = 0 := hfree
      simp [zonesIn, hz]
    | succ i =>
      have hrest := ih (Nat.lt_of_succ_lt_succ hi) hfree
      by_cases ha : a = 0
      · simpa [zonesIn, ha] using hrest
      · have hcons := hrest.cons a
        have hswap := hcons.trans (List.Perm.swap zone a (zonesIn l))
        simpa [zonesIn, ha] using hswap

theorem flatMap_set {α β : Type} {f : α → List β} {l : List α} {i : ℕ} {new : α} {b : β}
    (hi : i < l.length) (h : (f new).Perm (b :: f (l.get ⟨i, hi⟩))) :
    ((l.set i new).flatMap f).Perm (b :: l.flatMap f) := by
  induction l generalizing i with
  | nil => cases hi
  | cons a l ih =>
    cases i with
    | zero => exact h.append_right _
    | succ i =>
      have hrest := ih (Nat.lt_of_succ_lt_succ hi) h
      rw [List.set_cons_succ, List.flatMap_cons, List.flatMap_cons]
      exact (hrest.append_left _).trans List.perm_middle

namespace MinixFSZone

def refs (t : MinixFSZone) : List ℕ :=
  zonesIn t.direct_zones_ ++ zonesIn (t.indirect_zones_.getD []) ++
    zonesIn (t.double_indirect_linking_zone_.getD []) ++
    (t.double_indirect_zones_.getD []).flatMap fun entry => zonesIn (entry.getD [])

/-- The slot for a data zone, and 0 where its array is not there. -/
def rawAt (v3 : Bool) (t : MinixFSZone) (index : ℕ) : ℕ :=
  if index < 7 then t.direct_zones_.getD index 0
  else if index - 7 < NUM_ZONE_ADDRESSES v3 then (t.indirect_zones_.getD []).getD (index - 7) 0
  else (((t.double_indirect_zones_.getD []).getD ((index - 7 - NUM_ZONE_ADDRESSES v3) / NUM_ZONE_ADDRESSES v3)
    none).getD []).getD ((index - 7 - NUM_ZONE_ADDRESSES v3) % NUM_ZONE_ADDRESSES v3) 0

/-- The next `n` slots are free. -/
def RoomFor (v3 : Bool) (t : MinixFSZone) (n : ℕ) : Prop := ∀ k < n, t.rawAt v3 (t.num_zones_ + k) = 0

/-- The data zones, without the linking zones. -/
def data (t : MinixFSZone) : List ℕ :=
  zonesIn (t.direct_zones_.take 7) ++ zonesIn (t.indirect_zones_.getD []) ++
    (t.double_indirect_zones_.getD []).flatMap fun entry => zonesIn (entry.getD [])

theorem length_data (t : MinixFSZone) : t.data.length = countZones (t.direct_zones_.take 7) +
    t.indirect_zones_.elim 0 countZones +
    t.double_indirect_zones_.elim 0 fun entries => (entries.map fun e => e.elim 0 countZones).sum := by
  have hentry : ∀ e : Option (List ℕ), (zonesIn (e.getD [])).length = e.elim 0 countZones := by
    intro e
    cases e with
    | none => rfl
    | some zones => exact (countZones_eq zones).symm
  rw [data, List.length_append, List.length_append, ← countZones_eq, hentry, List.length_flatMap]
  simp only [hentry]
  cases t.double_indirect_zones_ with
  | none => rfl
  | some entries => rfl

end MinixFSZone

/-! ### Filling a slot, and making room for slots -/

variable {v3 : Bool} {t t' : MinixFSZone} {index zone link : ℕ}

/-- `t'` has `zone` in the slot that was free. -/
structure Filled (v3 : Bool) (t : MinixFSZone) (index zone : ℕ) (t' : MinixFSZone) : Prop where
  tree : TreeOk v3 t'
  refs : t'.refs.Perm (zone :: t.refs)
  num : t'.num_zones_ = t.num_zones_ + 1
  raw : ∀ j, t'.rawAt v3 j = if j = index then zone else t.rawAt v3 j

/-- `t'` has the linking zone `link` besides, and no other data. -/
structure Extended (v3 : Bool) (t : MinixFSZone) (link : ℕ) (t' : MinixFSZone) : Prop where
  tree : TreeOk v3 t'
  refs : t'.refs.Perm (link :: t.refs)
  num : t'.num_zones_ = t.num_zones_
  raw : ∀ j, t'.rawAt v3 j = t.rawAt v3 j

theorem getD_set {α : Type} {l : List α} {i j : ℕ} {a d : α} (hi : i < l.length) :
    (l.set i a).getD j d = if j = i then a else l.getD j d := by
  rw [List.getD_eq_getElem?_getD, List.getD_eq_getElem?_getD, List.getElem?_set]
  by_cases hj : j = i
  · rw [if_pos hj, if_pos hj.symm, if_pos hi]
    rfl
  · rw [if_neg hj, if_neg fun h => hj h.symm]

theorem getD_zeros (n j : ℕ) : (List.replicate n 0).getD j 0 = 0 := by
  rw [List.getD_eq_getElem?_getD, List.getElem?_replicate]
  split
  · rfl
  · rfl

theorem forall_set {l : List ℕ} {p : ℕ → Prop} {i : ℕ} (h : ∀ a ∈ l, p a) (hz : p zone) :
    ∀ a ∈ l.set i zone, p a := by
  intro a ha
  obtain hmem | rfl := List.mem_or_eq_of_mem_set ha
  · exact h a hmem
  · exact hz

theorem nine_le (v3 : Bool) : 9 ≤ NUM_ZONES v3 := by
  cases v3 with
  | false => decide
  | true => decide

theorem ArrayOk.zeros (v3 : Bool) : ArrayOk v3 (List.replicate (NUM_ZONE_ADDRESSES v3) 0) := by
  refine ⟨List.length_replicate, fun zone hzone => ?_⟩
  rw [List.eq_of_mem_replicate hzone]
  exact Nat.pow_pos (by decide)

theorem ArrayOk.set {zones : List ℕ} (h : ArrayOk v3 zones) (i : ℕ) (hz : zone < 256 ^ INODE_BYTES v3) :
    ArrayOk v3 (zones.set i zone) :=
  ⟨by rw [List.length_set, h.length], forall_set h.lt hz⟩

theorem TreeOk.num_zones_eq (ht : TreeOk v3 t) : t.num_zones_ = t.data.length :=
  ht.count.trans t.length_data.symm

theorem Linked.link_ne {zones : List ℕ} (h : Linked v3 link (Option.some zones)) : link ≠ 0 := by
  cases h with
  | some hne _ => exact hne

theorem TreeOk.length_entries (ht : TreeOk v3 t) {entries : List (Option (List ℕ))}
    (h : t.double_indirect_zones_ = some entries) : entries.length = NUM_ZONE_ADDRESSES v3 := by
  obtain ⟨-, hnone⟩ | ⟨links, entries', hlinks, hsome, hlinked⟩ := ht.shape
  · rw [h] at hnone
    cases hnone
  obtain rfl : entries = entries' := Option.some.inj (h.symm.trans hsome)
  have hlinking := ht.linking
  rw [hlinks] at hlinking
  rw [← hlinked.length_eq, (hlinking.arrayOk rfl).length]

/-- The first seven slots. -/
theorem fillDirect (ht : TreeOk v3 t) (hindex : index < 7) (hfree : t.rawAt v3 index = 0) (hz : zone ≠ 0)
    (hlt : zone < 256 ^ INODE_BYTES v3) : Filled v3 t index zone { t with
      direct_zones_ := t.direct_zones_.set index zone
      num_zones_ := t.num_zones_ + 1 } := by
  have hlen : index < t.direct_zones_.length := by
    have hnine := nine_le v3
    rw [ht.direct]
    omega
  rw [MinixFSZone.rawAt, if_pos hindex] at hfree
  have hlink : ∀ j, 7 ≤ j → (t.direct_zones_.set index zone).getD j 0 = t.direct_zones_.getD j 0 := by
    intro j hj
    rw [getD_set hlen, if_neg (by omega)]
  have hlen' : index < (t.direct_zones_.take 7).length := by
    rw [List.length_take]
    omega
  have hfree' : (t.direct_zones_.take 7).getD index 0 = 0 := by
    rw [List.getD_eq_getElem?_getD, List.getElem?_take_of_lt hindex, ← List.getD_eq_getElem?_getD]
    exact hfree
  have hdata := ((zonesIn_set hlen' hfree' hz).append_right (zonesIn (t.indirect_zones_.getD []))).append_right
    ((t.double_indirect_zones_.getD []).flatMap fun entry => zonesIn (entry.getD []))
  rw [← List.take_set] at hdata
  refine ⟨⟨?_, forall_set ht.direct_lt hlt, ?_, ?_, ht.double, ?_⟩, ?_, rfl, fun j => ?_⟩
  · rw [List.length_set]
    exact ht.direct
  · rw [hlink 7 le_rfl]
    exact ht.indirect
  · rw [hlink 8 (by decide)]
    exact ht.linking
  · rw [← MinixFSZone.length_data]
    exact (congrArg (· + 1) ht.num_zones_eq).trans hdata.length_eq.symm
  · exact (((zonesIn_set hlen hfree hz).append_right _).append_right _).append_right _
  · unfold MinixFSZone.rawAt
    dsimp only
    rw [getD_set hlen]
    by_cases hj : j = index
    · rw [if_pos hj, if_pos hj, if_pos (by omega)]
    · rw [if_neg hj, if_neg hj]

/-- The slots of the indirect array. -/
theorem fillIndirect {zones : List ℕ} (ht : TreeOk v3 t) (hzones : t.indirect_zones_ = some zones) {i : ℕ}
    (hi : i < NUM_ZONE_ADDRESSES v3) (hfree : t.rawAt v3 (7 + i) = 0) (hz : zone ≠ 0)
    (hlt : zone < 256 ^ INODE_BYTES v3) : Filled v3 t (7 + i) zone { t with
      indirect_zones_ := some (zones.set i zone)
      num_zones_ := t.num_zones_ + 1 } := by
  have hnot : ¬7 + i < 7 := by omega
  have harray := ht.indirect.arrayOk hzones
  have hlen : i < zones.length := by rwa [harray.length]
  rw [MinixFSZone.rawAt, if_neg hnot, Nat.add_sub_cancel_left, if_pos hi, hzones] at hfree
  have hset := zonesIn_set hlen hfree hz
  have hlinked := ht.indirect
  rw [hzones] at hlinked
  have hnum := ht.num_zones_eq
  rw [MinixFSZone.data, hzones] at hnum
  have hdata := ((hset.append_left (zonesIn (t.direct_zones_.take 7))).trans List.perm_middle).append_right
    ((t.double_indirect_zones_.getD []).flatMap fun entry => zonesIn (entry.getD []))
  refine ⟨⟨ht.direct, ht.direct_lt, .some hlinked.link_ne (harray.set i hlt), ht.linking, ht.double, ?_⟩, ?_, rfl,
    fun j => ?_⟩
  · rw [← MinixFSZone.length_data]
    exact (congrArg (· + 1) hnum).trans hdata.length_eq.symm
  · unfold MinixFSZone.refs
    rw [hzones]
    exact (((hset.append_left _).trans List.perm_middle).append_right _).append_right _
  · unfold MinixFSZone.rawAt
    dsimp only
    rw [hzones]
    by_cases hj : j = 7 + i
    · rw [if_pos hj, hj, if_neg hnot, Nat.add_sub_cancel_left, if_pos hi, Option.getD_some, getD_set hlen,
        if_pos rfl]
    · rw [if_neg hj]
      by_cases hdirect : j < 7
      · rw [if_pos hdirect, if_pos hdirect]
      · rw [if_neg hdirect, if_neg hdirect]
        by_cases hind : j - 7 < NUM_ZONE_ADDRESSES v3
        · rw [if_pos hind, if_pos hind, Option.getD_some, getD_set hlen, if_neg (by omega), Option.getD_some]
        · rw [if_neg hind, if_neg hind]

theorem forall₂_set {α β : Type} {R : α → β → Prop} {l : List α} {l' : List β} {k : ℕ} {a : α} {b : β}
    (h : List.Forall₂ R l l') (hab : R a b) : List.Forall₂ R (l.set k a) (l'.set k b) := by
  induction h generalizing k with
  | nil => exact .nil
  | cons hhead htail ih =>
    cases k with
    | zero => exact .cons hab htail
    | succ k => exact .cons hhead ih

theorem Linked.getD {links : List ℕ} {entries : List (Option (List ℕ))} {k : ℕ}
    (h : List.Forall₂ (Linked v3) links entries) : Linked v3 (links.getD k 0) (entries.getD k Option.none) := by
  induction h generalizing k with
  | nil => exact .none
  | cons hhead _ ih =>
    cases k with
    | zero => exact hhead
    | succ k => exact ih

theorem set_getD {l : List ℕ} {k : ℕ} (hk : k < l.length) : l.set k (l.getD k 0) = l := by
  rw [List.getD_eq_getElem _ _ hk, List.set_getElem_self]

/-- The slots of an array behind the double indirect linking zone. -/
theorem fillDouble {entries : List (Option (List ℕ))} {zones : List ℕ} {k i : ℕ} (ht : TreeOk v3 t)
    (hentries : t.double_indirect_zones_ = some entries) (hzones : entries.getD k none = some zones)
    (hk : k < entries.length) (hi : i < NUM_ZONE_ADDRESSES v3)
    (hfree : t.rawAt v3 (7 + NUM_ZONE_ADDRESSES v3 + (NUM_ZONE_ADDRESSES v3 * k + i)) = 0) (hz : zone ≠ 0)
    (hlt : zone < 256 ^ INODE_BYTES v3) :
    Filled v3 t (7 + NUM_ZONE_ADDRESSES v3 + (NUM_ZONE_ADDRESSES v3 * k + i)) zone { t with
      double_indirect_zones_ := some (entries.set k (some (zones.set i zone)))
      num_zones_ := t.num_zones_ + 1 } := by
  obtain ⟨-, hnone⟩ | ⟨links, entries', hlinks, hsome, hlinked⟩ := ht.shape
  · rw [hentries] at hnone
    cases hnone
  obtain rfl : entries = entries' := Option.some.inj (hentries.symm.trans hsome)
  have hentry := Linked.getD (k := k) hlinked
  rw [hzones] at hentry
  have harray := hentry.arrayOk rfl
  have hlen : i < zones.length := by rwa [harray.length]
  have hsub : ∀ j, 7 + NUM_ZONE_ADDRESSES v3 + j - 7 - NUM_ZONE_ADDRESSES v3 = j := by
    intro j
    omega
  have hdiv : (NUM_ZONE_ADDRESSES v3 * k + i) / NUM_ZONE_ADDRESSES v3 = k := by
    rw [Nat.mul_add_div (by omega), Nat.div_eq_of_lt hi, Nat.add_zero]
  have hmod : (NUM_ZONE_ADDRESSES v3 * k + i) % NUM_ZONE_ADDRESSES v3 = i := by
    rw [Nat.mul_add_mod, Nat.mod_eq_of_lt hi]
  rw [MinixFSZone.rawAt, if_neg (by omega), if_neg (by omega), hsub, hdiv, hmod, hentries] at hfree
  rw [Option.getD_some, hzones, Option.getD_some] at hfree
  have hset := zonesIn_set hlen hfree hz
  have hget : entries.get ⟨k, hk⟩ = some zones := by
    rw [← hzones, List.getD_eq_getElem _ _ hk]
    rfl
  have hflat : ((entries.set k (some (zones.set i zone))).flatMap fun entry => zonesIn (entry.getD [])).Perm
      (zone :: entries.flatMap fun entry => zonesIn (entry.getD [])) := by
    refine flatMap_set hk ?_
    rw [hget]
    exact hset
  have hnum := ht.num_zones_eq
  rw [MinixFSZone.data, hentries] at hnum
  have hdata := (hflat.append_left (zonesIn (t.direct_zones_.take 7) ++ zonesIn (t.indirect_zones_.getD []))).trans
    List.perm_middle
  refine ⟨⟨ht.direct, ht.direct_lt, ht.indirect, ht.linking, ?_, ?_⟩, ?_, rfl, fun j => ?_⟩
  · have hrest := forall₂_set (k := k) hlinked (Linked.some hentry.link_ne (harray.set i hlt))
    rw [set_getD (by rw [hlinked.length_eq]; exact hk)] at hrest
    show DoublyLinked v3 t.double_indirect_linking_zone_ _
    rw [hlinks]
    exact .some hrest
  · rw [← MinixFSZone.length_data]
    exact (congrArg (· + 1) hnum).trans hdata.length_eq.symm
  · unfold MinixFSZone.refs
    rw [hentries]
    exact (hflat.append_left _).trans List.perm_middle
  · unfold MinixFSZone.rawAt
    dsimp only
    rw [hentries]
    by_cases hj : j = 7 + NUM_ZONE_ADDRESSES v3 + (NUM_ZONE_ADDRESSES v3 * k + i)
    · rw [if_pos hj, hj, if_neg (by omega), if_neg (by omega), hsub, hdiv, hmod, Option.getD_some, getD_set hk,
        if_pos rfl, Option.getD_some, getD_set hlen, if_pos rfl]
    · rw [if_neg hj]
      by_cases hdirect : j < 7
      · rw [if_pos hdirect, if_pos hdirect]
      · rw [if_neg hdirect, if_neg hdirect]
        by_cases hind : j - 7 < NUM_ZONE_ADDRESSES v3
        · rw [if_pos hind, if_pos hind]
        · rw [if_neg hind, if_neg hind, Option.getD_some, Option.getD_some, getD_set hk]
          split
          · rename_i hkj
            have hsplit := Nat.div_add_mod (j - 7 - NUM_ZONE_ADDRESSES v3) (NUM_ZONE_ADDRESSES v3)
            rw [hkj] at hsplit
            rw [Option.getD_some, getD_set hlen, if_neg (by omega), hkj, hzones, Option.getD_some]
          · rfl

theorem Linked.eq_zero (h : Linked v3 link Option.none) : link = 0 := by
  cases h with
  | none => rfl

theorem getD_nones (n k : ℕ) : (List.replicate n (none : Option (List ℕ))).getD k none = none := by
  rw [List.getD_eq_getElem?_getD, List.getElem?_replicate]
  split
  · rfl
  · rfl

theorem set_direct_lt {k : ℕ} (ht : TreeOk v3 t) (hlt : link < 256 ^ INODE_BYTES v3) :
    (t.direct_zones_.set k link).length = NUM_ZONES v3 ∧
      ∀ a ∈ t.direct_zones_.set k link, a < 256 ^ INODE_BYTES v3 :=
  ⟨by rw [List.length_set, ht.direct], forall_set ht.direct_lt hlt⟩

/-- The indirect linking zone. -/
theorem addIndirect (ht : TreeOk v3 t) (hnone : t.indirect_zones_ = none) (hlink : link ≠ 0)
    (hlt : link < 256 ^ INODE_BYTES v3) : Extended v3 t link { t with
      direct_zones_ := t.direct_zones_.set 7 link
      indirect_zones_ := some (List.replicate (NUM_ZONE_ADDRESSES v3) 0) } := by
  have hnine := nine_le v3
  have hlen : 7 < t.direct_zones_.length := by
    rw [ht.direct]
    omega
  have hlinked := ht.indirect
  rw [hnone] at hlinked
  have htake : (t.direct_zones_.set 7 link).take 7 = t.direct_zones_.take 7 := List.take_set_of_le le_rfl
  obtain ⟨hlength, hbound⟩ := set_direct_lt (k := 7) ht hlt
  have hcount := ht.count
  rw [hnone] at hcount
  refine ⟨⟨hlength, hbound, ?_, ?_, ht.double, ?_⟩, ?_, rfl, fun j => ?_⟩
  · rw [getD_set hlen, if_pos rfl]
    exact .some hlink (ArrayOk.zeros v3)
  · rw [getD_set hlen, if_neg (by decide)]
    exact ht.linking
  · have hzero : countZones (List.replicate (NUM_ZONE_ADDRESSES v3) 0) = 0 := by
      rw [countZones_eq, zonesIn_replicate]
      rfl
    dsimp only
    rw [htake, Option.elim_some, hzero]
    exact hcount
  · unfold MinixFSZone.refs
    dsimp only
    rw [hnone, Option.getD_some, zonesIn_replicate]
    exact (((zonesIn_set hlen hlinked.eq_zero hlink).append_right _).append_right _).append_right _
  · unfold MinixFSZone.rawAt
    dsimp only
    by_cases hdirect : j < 7
    · rw [if_pos hdirect, if_pos hdirect, getD_set hlen, if_neg (by omega)]
    · rw [if_neg hdirect, if_neg hdirect, hnone, Option.getD_some, getD_zeros]
      rfl

/-- The double indirect linking zone. -/
theorem addDouble (ht : TreeOk v3 t) (hnone : t.double_indirect_zones_ = none) (hlink : link ≠ 0)
    (hlt : link < 256 ^ INODE_BYTES v3) : Extended v3 t link { t with
      direct_zones_ := t.direct_zones_.set 8 link
      double_indirect_linking_zone_ := some (List.replicate (NUM_ZONE_ADDRESSES v3) 0)
      double_indirect_zones_ := some (List.replicate (NUM_ZONE_ADDRESSES v3) none) } := by
  have hnine := nine_le v3
  have hlen : 8 < t.direct_zones_.length := by
    rw [ht.direct]
    omega
  obtain ⟨hlinks, -⟩ | ⟨links, entries, -, hsome, -⟩ := ht.shape
  swap
  · rw [hnone] at hsome
    cases hsome
  have hlinked := ht.linking
  rw [hlinks] at hlinked
  have htake : (t.direct_zones_.set 8 link).take 7 = t.direct_zones_.take 7 := List.take_set_of_le (by decide)
  have hempty : ∀ n : ℕ, (List.replicate n (none : Option (List ℕ))).flatMap (fun entry => zonesIn (entry.getD [])) = [] := by
    intro n
    refine List.flatMap_eq_nil_iff.mpr fun entry hentry => ?_
    rw [List.eq_of_mem_replicate hentry]
    rfl
  have hnum := ht.num_zones_eq
  rw [MinixFSZone.data, hnone] at hnum
  obtain ⟨hlength, hbound⟩ := set_direct_lt (k := 8) ht hlt
  refine ⟨⟨hlength, hbound, ?_, ?_, .some ?_, ?_⟩, ?_, rfl, fun j => ?_⟩
  · rw [getD_set hlen, if_neg (by decide)]
    exact ht.indirect
  · rw [getD_set hlen, if_pos rfl]
    exact .some hlink (ArrayOk.zeros v3)
  · generalize NUM_ZONE_ADDRESSES v3 = n
    induction n with
    | zero => exact .nil
    | succ n ih => exact .cons .none ih
  · rw [← MinixFSZone.length_data, MinixFSZone.data]
    dsimp only
    rw [htake, Option.getD_some, hempty]
    exact hnum
  · unfold MinixFSZone.refs
    dsimp only
    rw [hnone, hlinks, Option.getD_some, Option.getD_some, hempty, zonesIn_replicate]
    exact (((zonesIn_set hlen hlinked.eq_zero hlink).append_right _).append_right _).append_right _
  · unfold MinixFSZone.rawAt
    dsimp only
    by_cases hdirect : j < 7
    · rw [if_pos hdirect, if_pos hdirect, getD_set hlen, if_neg (by omega)]
    · rw [if_neg hdirect, if_neg hdirect, hnone, Option.getD_some, getD_nones]
      rfl

/-- A linking zone that the double indirect linking zone lists. -/
theorem addEntry {entries : List (Option (List ℕ))} {k : ℕ} (ht : TreeOk v3 t)
    (hentries : t.double_indirect_zones_ = some entries) (hnone : entries.getD k none = none)
    (hk : k < entries.length) (hlink : link ≠ 0) (hlt : link < 256 ^ INODE_BYTES v3) : Extended v3 t link { t with
      double_indirect_linking_zone_ := some ((t.double_indirect_linking_zone_.getD []).set k link)
      double_indirect_zones_ := some (entries.set k (some (List.replicate (NUM_ZONE_ADDRESSES v3) 0))) } := by
  obtain ⟨-, hnone'⟩ | ⟨links, entries', hlinks, hsome, hlinked⟩ := ht.shape
  · rw [hentries] at hnone'
    cases hnone'
  obtain rfl : entries = entries' := Option.some.inj (hentries.symm.trans hsome)
  have hentry := Linked.getD (k := k) hlinked
  rw [hnone] at hentry
  have hlinking := ht.linking
  rw [hlinks] at hlinking
  have harray := hlinking.arrayOk rfl
  have hk' : k < links.length := by rwa [hlinked.length_eq]
  have hflat : (entries.set k (some (List.replicate (NUM_ZONE_ADDRESSES v3) 0))).flatMap
      (fun entry => zonesIn (entry.getD [])) = entries.flatMap fun entry => zonesIn (entry.getD []) := by
    have hget : zonesIn ((entries.get ⟨k, hk⟩).getD []) = [] := by
      have heq : entries.get ⟨k, hk⟩ = none := by
        rw [← hnone, List.getD_eq_getElem _ _ hk]
        rfl
      rw [heq]
      rfl
    clear hnone hlinked hentry hentries hsome hk'
    induction entries generalizing k with
    | nil => rfl
    | cons entry entries ih =>
      cases k with
      | zero =>
        change zonesIn (entry.getD []) = [] at hget
        rw [List.set_cons_zero, List.flatMap_cons, List.flatMap_cons, hget, Option.getD_some, zonesIn_replicate]
      | succ k =>
        rw [List.set_cons_succ, List.flatMap_cons, List.flatMap_cons, ih (Nat.lt_of_succ_lt_succ hk) hget]
  have hnum := ht.num_zones_eq
  rw [MinixFSZone.data, hentries, Option.getD_some] at hnum
  refine ⟨⟨ht.direct, ht.direct_lt, ht.indirect, ?_, .some ?_, ?_⟩, ?_, rfl, fun j => ?_⟩
  · rw [hlinks]
    exact .some hlinking.link_ne (harray.set k hlt)
  · rw [hlinks]
    exact forall₂_set hlinked (.some hlink (ArrayOk.zeros v3))
  · rw [← MinixFSZone.length_data, MinixFSZone.data]
    dsimp only
    rw [Option.getD_some, hflat]
    exact hnum
  · unfold MinixFSZone.refs
    dsimp only
    rw [hentries, hlinks, Option.getD_some, Option.getD_some, Option.getD_some, hflat]
    have hset := zonesIn_set hk' hentry.eq_zero hlink
    exact ((hset.append_left _).trans List.perm_middle).append_right _
  · unfold MinixFSZone.rawAt
    dsimp only
    by_cases hdirect : j < 7
    · rw [if_pos hdirect, if_pos hdirect]
    · rw [if_neg hdirect, if_neg hdirect]
      by_cases hind : j - 7 < NUM_ZONE_ADDRESSES v3
      · rw [if_pos hind, if_pos hind]
      · rw [if_neg hind, if_neg hind, hentries, Option.getD_some, Option.getD_some, getD_set hk]
        split
        · rename_i hkj
          rw [hkj, hnone, Option.getD_some, getD_zeros]
          rfl
        · rfl

/-! ### The linking zones of what has been made -/

theorem links_set_direct {k : ℕ} (hk : k < 7) (t : MinixFSZone) (zone n : ℕ) : MinixFSZone.links { t with
    direct_zones_ := t.direct_zones_.set k zone
    num_zones_ := n } = t.links := by
  have hsame : ∀ j, 7 ≤ j → (t.direct_zones_.set k zone).getD j 0 = t.direct_zones_.getD j 0 := by
    intro j hj
    have hne : k ≠ j := by omega
    rw [List.getD_eq_getElem?_getD, List.getElem?_set_ne hne, ← List.getD_eq_getElem?_getD]
  unfold MinixFSZone.links
  dsimp only
  rw [hsame 7 le_rfl, hsame 8 (by decide)]

theorem links_addIndirect (ht : TreeOk v3 t) (hnone : t.indirect_zones_ = none) (hlink : link ≠ 0)
    (zones : Option (List ℕ)) : (zonesIn (MinixFSZone.links { t with
      direct_zones_ := t.direct_zones_.set 7 link
      indirect_zones_ := zones })).Perm (link :: zonesIn t.links) := by
  have hlen : 8 < t.direct_zones_.length := by
    have hnine := nine_le v3
    rw [ht.direct]
    omega
  have hlinked := ht.indirect
  rw [hnone] at hlinked
  have hset : MinixFSZone.links { t with
      direct_zones_ := t.direct_zones_.set 7 link
      indirect_zones_ := zones } = t.links.set 0 link := by
    unfold MinixFSZone.links
    dsimp only
    rw [getD_set (by omega), if_pos rfl, getD_set (by omega), if_neg (by decide), List.set_cons_zero]
  rw [hset]
  exact zonesIn_set (Nat.succ_pos _) hlinked.eq_zero hlink

theorem links_addDouble (ht : TreeOk v3 t) (hnone : t.double_indirect_zones_ = none) (hlink : link ≠ 0) (n : ℕ)
    (entries : Option (List (Option (List ℕ)))) : (zonesIn (MinixFSZone.links { t with
      direct_zones_ := t.direct_zones_.set 8 link
      double_indirect_linking_zone_ := some (List.replicate n 0)
      double_indirect_zones_ := entries })).Perm (link :: zonesIn t.links) := by
  have hlen : 8 < t.direct_zones_.length := by
    have hnine := nine_le v3
    rw [ht.direct]
    omega
  obtain ⟨hlinks, -⟩ | ⟨-, entries', -, hsome, -⟩ := ht.shape
  swap
  · rw [hnone] at hsome
    cases hsome
  have hlinked := ht.linking
  rw [hlinks] at hlinked
  have hset : MinixFSZone.links { t with
      direct_zones_ := t.direct_zones_.set 8 link
      double_indirect_linking_zone_ := some (List.replicate n 0)
      double_indirect_zones_ := entries } = t.links.set 1 link ++ List.replicate n 0 := by
    unfold MinixFSZone.links
    dsimp only
    rw [getD_set (by omega), if_neg (by decide), getD_set hlen, if_pos rfl, hlinks]
    rfl
  have hzeros : zonesIn (t.links.set 1 link ++ List.replicate n 0) = zonesIn (t.links.set 1 link) := by
    rw [zonesIn, List.filter_append]
    exact (congrArg (_ ++ ·) (zonesIn_replicate n)).trans (List.append_nil _)
  rw [hset, hzeros]
  exact zonesIn_set (by rw [MinixFSZone.links, List.length_cons, List.length_cons]; omega) hlinked.eq_zero hlink

theorem links_addEntry {entries : List (Option (List ℕ))} {k : ℕ} (ht : TreeOk v3 t)
    (hentries : t.double_indirect_zones_ = some entries) (hnone : entries.getD k none = none)
    (hk : k < entries.length) (hlink : link ≠ 0) (entries' : Option (List (Option (List ℕ)))) :
    (zonesIn (MinixFSZone.links { t with
      double_indirect_linking_zone_ := some ((t.double_indirect_linking_zone_.getD []).set k link)
      double_indirect_zones_ := entries' })).Perm (link :: zonesIn t.links) := by
  obtain ⟨-, hnone'⟩ | ⟨links, entries'', hlinks, hsome, hlinked⟩ := ht.shape
  · rw [hentries] at hnone'
    cases hnone'
  obtain rfl : entries = entries'' := Option.some.inj (hentries.symm.trans hsome)
  have hentry := Linked.getD (k := k) hlinked
  rw [hnone] at hentry
  have hset : MinixFSZone.links { t with
      double_indirect_linking_zone_ := some ((t.double_indirect_linking_zone_.getD []).set k link)
      double_indirect_zones_ := entries' } = t.links.set (k + 2) link := by
    unfold MinixFSZone.links
    rw [List.set_cons_succ, List.set_cons_succ]
    rfl
  have hlinks' : t.links = t.direct_zones_.getD 7 0 :: t.direct_zones_.getD 8 0 :: links := by
    rw [MinixFSZone.links, hlinks]
    rfl
  rw [hset]
  refine zonesIn_set ?_ ?_ hlink
  · rw [hlinks', List.length_cons, List.length_cons, hlinked.length_eq]
    omega
  · rw [hlinks']
    exact hentry.eq_zero

theorem getD_mem_zonesIn {l : List ℕ} {i : ℕ} (h : l.getD i 0 ≠ 0) : l.getD i 0 ∈ zonesIn l := by
  by_cases hi : i < l.length
  · rw [List.getD_eq_getElem _ _ hi] at h ⊢
    exact mem_zonesIn.mpr ⟨List.getElem_mem hi, h⟩
  · rw [List.getD_eq_default _ _ (Nat.not_lt.mp hi)] at h
    exact absurd rfl h

theorem rawAt_mem (h : t.rawAt v3 index ≠ 0) : t.rawAt v3 index ∈ t.refs := by
  unfold MinixFSZone.rawAt at h ⊢
  unfold MinixFSZone.refs
  simp only [List.mem_append, List.mem_flatMap]
  by_cases hdirect : index < 7
  · rw [if_pos hdirect] at h ⊢
    exact .inl (.inl (.inl (getD_mem_zonesIn h)))
  · rw [if_neg hdirect] at h ⊢
    by_cases hind : index - 7 < NUM_ZONE_ADDRESSES v3
    · rw [if_pos hind] at h ⊢
      exact .inl (.inl (.inr (getD_mem_zonesIn h)))
    · rw [if_neg hind] at h ⊢
      have hzone := getD_mem_zonesIn h
      generalize (index - 7 - NUM_ZONE_ADDRESSES v3) / NUM_ZONE_ADDRESSES v3 = k at h hzone ⊢
      refine .inr ⟨_, ?_, hzone⟩
      by_cases hk : k < (t.double_indirect_zones_.getD []).length
      · rw [List.getD_eq_getElem _ _ hk]
        exact List.getElem_mem hk
      · rw [List.getD_eq_default _ _ (Nat.not_lt.mp hk)] at h
        exact absurd rfl h

theorem rawAt_of_zoneAt (h : t.zoneAt v3 index = .ok zone) : t.rawAt v3 index = zone := by
  unfold MinixFSZone.zoneAt at h
  unfold MinixFSZone.rawAt
  split at h
  · split at h
    · rename_i hdirect
      rw [if_pos hdirect]
      exact Except.ok.inj h
    · rename_i hdirect
      rw [if_neg hdirect]
      split at h
      · rename_i hind
        rw [if_pos hind]
        split at h
        · cases h
        · rename_i zones hzones
          rw [hzones]
          exact Except.ok.inj h
      · rename_i hind
        rw [if_neg hind]
        split at h
        · cases h
        · rename_i entries hentries
          rw [hentries]
          split at h
          · cases h
          · rename_i zones hzones
            rw [Option.getD_some, hzones]
            exact Except.ok.inj h
  · cases h

/-! ### Slots with the same zone -/

theorem getD_inj {l : List ℕ} {i j : ℕ} (h : (zonesIn l).Nodup) (heq : l.getD i 0 = l.getD j 0)
    (hne : l.getD i 0 ≠ 0) : i = j := by
  induction l generalizing i j with
  | nil => exact absurd rfl hne
  | cons a l ih =>
    have htail : (zonesIn l).Nodup := h.sublist ((List.sublist_cons_self a l).filter _)
    have hhead : ∀ k, l.getD k 0 ≠ 0 → a ≠ l.getD k 0 := by
      intro k hk hak
      have hcons : zonesIn (a :: l) = a :: zonesIn l := List.filter_cons_of_pos (by simpa [hak] using hk)
      rw [hcons, List.nodup_cons, hak] at h
      exact h.1 (getD_mem_zonesIn hk)
    cases i with
    | zero =>
      cases j with
      | zero => rfl
      | succ j =>
        rw [heq] at hne
        exact absurd heq (hhead j hne)
    | succ i =>
      cases j with
      | zero => exact absurd heq.symm (hhead i hne)
      | succ j => exact congrArg (· + 1) (ih htail heq hne)

theorem entry_mem (entries : List (Option (List ℕ))) {k i : ℕ}
    (h : ((entries.getD k none).getD []).getD i 0 ≠ 0) : ((entries.getD k none).getD []).getD i 0 ∈
      entries.flatMap fun entry => zonesIn (entry.getD []) := by
  have hzone := getD_mem_zonesIn h
  rw [List.mem_flatMap]
  by_cases hk : k < entries.length
  · rw [List.getD_eq_getElem _ _ hk] at hzone ⊢
    exact ⟨_, List.getElem_mem hk, hzone⟩
  · rw [List.getD_eq_default _ _ (Nat.not_lt.mp hk)] at h
    exact absurd rfl h

theorem entry_inj {entries : List (Option (List ℕ))} {k k' i j : ℕ}
    (h : (entries.flatMap fun entry => zonesIn (entry.getD [])).Nodup)
    (heq : ((entries.getD k none).getD []).getD i 0 = ((entries.getD k' none).getD []).getD j 0)
    (hne : ((entries.getD k none).getD []).getD i 0 ≠ 0) : k = k' ∧ i = j := by
  induction entries generalizing k k' with
  | nil => exact absurd rfl hne
  | cons entry entries ih =>
    rw [List.flatMap_cons, List.nodup_append] at h
    obtain ⟨hhead, htail, hapart⟩ := h
    cases k with
    | zero =>
      cases k' with
      | zero => exact ⟨rfl, getD_inj hhead heq hne⟩
      | succ k' =>
        have hne' := hne
        rw [heq] at hne'
        exact absurd heq (hapart _ (getD_mem_zonesIn hne) _ (entry_mem entries hne'))
    | succ k =>
      cases k' with
      | zero =>
        have hne' := hne
        rw [heq] at hne'
        exact absurd heq.symm (hapart _ (getD_mem_zonesIn hne') _ (entry_mem entries hne))
      | succ k' =>
        obtain ⟨hk, hij⟩ := ih htail heq hne
        exact ⟨congrArg (· + 1) hk, hij⟩

/-- A slot is a direct one, or in the indirect array, or in an array behind the double indirect one. -/
theorem rawAt_cases (v3 : Bool) (t : MinixFSZone) (index : ℕ) :
    index < 7 ∧ t.rawAt v3 index = t.direct_zones_.getD index 0 ∨
    (∃ i, index = 7 + i ∧ i < NUM_ZONE_ADDRESSES v3 ∧ t.rawAt v3 index = (t.indirect_zones_.getD []).getD i 0) ∨
    ∃ k i, index = 7 + NUM_ZONE_ADDRESSES v3 + (NUM_ZONE_ADDRESSES v3 * k + i) ∧
      t.rawAt v3 index = (((t.double_indirect_zones_.getD []).getD k none).getD []).getD i 0 := by
  unfold MinixFSZone.rawAt
  by_cases hdirect : index < 7
  · exact .inl ⟨hdirect, if_pos hdirect⟩
  · rw [if_neg hdirect]
    by_cases hind : index - 7 < NUM_ZONE_ADDRESSES v3
    · exact .inr (.inl ⟨index - 7, by omega, hind, if_pos hind⟩)
    · refine .inr (.inr ⟨_, _, ?_, if_neg hind⟩)
      rw [Nat.div_add_mod]
      omega

/-- Every slot of a tree without double references has a zone of its own. -/
theorem rawAt_inj {i j : ℕ} (h : t.refs.Nodup) (heq : t.rawAt v3 i = t.rawAt v3 j) (hne : t.rawAt v3 i ≠ 0) :
    i = j := by
  have hne' := hne
  rw [heq] at hne'
  unfold MinixFSZone.refs at h
  rw [List.nodup_append, List.nodup_append, List.nodup_append] at h
  obtain ⟨⟨⟨hdirect, hindirect, hdi⟩, -, -⟩, hdouble, hrest⟩ := h
  obtain ⟨-, hi⟩ | ⟨i', rfl, -, hi⟩ | ⟨k, i', rfl, hi⟩ := rawAt_cases v3 t i
  · rw [hi] at heq hne
    obtain ⟨-, hj⟩ | ⟨j', rfl, -, hj⟩ | ⟨k', j', rfl, hj⟩ := rawAt_cases v3 t j
    · rw [hj] at heq
      exact getD_inj hdirect heq hne
    · rw [hj] at heq hne'
      exact absurd heq (hdi _ (getD_mem_zonesIn hne) _ (getD_mem_zonesIn hne'))
    · rw [hj] at heq hne'
      exact absurd heq (hrest _ (List.mem_append_left _ (List.mem_append_left _ (getD_mem_zonesIn hne))) _
        (entry_mem _ hne'))
  · rw [hi] at heq hne
    obtain ⟨-, hj⟩ | ⟨j', rfl, -, hj⟩ | ⟨k', j', rfl, hj⟩ := rawAt_cases v3 t j
    · rw [hj] at heq hne'
      exact absurd heq.symm (hdi _ (getD_mem_zonesIn hne') _ (getD_mem_zonesIn hne))
    · rw [hj] at heq
      exact congrArg (7 + ·) (getD_inj hindirect heq hne)
    · rw [hj] at heq hne'
      exact absurd heq (hrest _ (List.mem_append_left _ (List.mem_append_right _ (getD_mem_zonesIn hne))) _
        (entry_mem _ hne'))
  · rw [hi] at heq hne
    obtain ⟨-, hj⟩ | ⟨j', rfl, -, hj⟩ | ⟨k', j', rfl, hj⟩ := rawAt_cases v3 t j
    · rw [hj] at heq hne'
      exact absurd heq.symm (hrest _ (List.mem_append_left _ (List.mem_append_left _ (getD_mem_zonesIn hne'))) _
        (entry_mem _ hne))
    · rw [hj] at heq hne'
      exact absurd heq.symm (hrest _ (List.mem_append_left _ (List.mem_append_right _ (getD_mem_zonesIn hne'))) _
        (entry_mem _ hne))
    · rw [hj] at heq
      obtain ⟨rfl, rfl⟩ := entry_inj hdouble heq hne
      rfl

theorem zoneAt_of_rawAt (hindex : index < t.num_zones_) (hne : t.rawAt v3 index ≠ 0) :
    t.zoneAt v3 index = .ok (t.rawAt v3 index) := by
  unfold MinixFSZone.rawAt at hne ⊢
  unfold MinixFSZone.zoneAt
  rw [if_pos hindex]
  by_cases hdirect : index < 7
  · rw [if_pos hdirect, if_pos hdirect]
  · rw [if_neg hdirect] at hne
    rw [if_neg hdirect, if_neg hdirect]
    by_cases hind : index - 7 < NUM_ZONE_ADDRESSES v3
    · rw [if_pos hind] at hne
      rw [if_pos hind, if_pos hind]
      cases hzones : t.indirect_zones_ with
      | none =>
        rw [hzones] at hne
        exact absurd rfl hne
      | some zones => rfl
    · rw [if_neg hind] at hne
      rw [if_neg hind, if_neg hind]
      cases hentries : t.double_indirect_zones_ with
      | none =>
        rw [hentries] at hne
        exact absurd rfl hne
      | some entries =>
        rw [hentries, Option.getD_some] at hne
        dsimp only
        rw [Option.getD_some]
        cases hentry : entries.getD ((index - 7 - NUM_ZONE_ADDRESSES v3) / NUM_ZONE_ADDRESSES v3) none with
        | none =>
          rw [hentry] at hne
          exact absurd rfl hne
        | some zones => rfl

end KPanic.Minix
