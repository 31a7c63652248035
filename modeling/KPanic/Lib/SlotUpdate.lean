import KPanic.Lib.PageTree
import KPanic.Lib.PartialMap

/-!
# Changing one slot of a tree of tables

Each rule takes a `Tree`, changes one slot or one root, and gives the `Tree` of the result with
the ownership map that describes it.
-/

namespace PageTree

variable {ι : Type} {S : Shape} {link link' : ι → ℕ → Option ι} {own : ι → Option (Role ι)}

/-- `u` is a table of some tree. -/
def IsTable (own : ι → Option (Role ι)) (u : ι) : Prop :=
  ∃ r l x, own u = some (.table r l x)

/-- `link'` is `link` with slot `i` of `t` set to `o`; only slots of tables are compared. -/
structure SetSlot (own : ι → Option (Role ι)) (link link' : ι → ℕ → Option ι) (t : ι) (i : ℕ)
    (o : Option ι) : Prop where
  hit : link' t i = o
  miss : ∀ {u j}, IsTable own u → ¬(u = t ∧ j = i) → link' u j = link u j

/-- The slots of tables are the same. -/
def SameSlots (own : ι → Option (Role ι)) (link link' : ι → ℕ → Option ι) : Prop :=
  ∀ {u}, IsTable own u → ∀ j, link' u j = link u j

theorem digit_inj {B x i y j : ℕ} (hi : i < B) (hj : j < B) (h : x * B + i = y * B + j) :
    x = y ∧ i = j := by
  have hB : 0 < B := by omega
  have hx : (x * B + i) / B = x := by
    rw [Nat.mul_comm, Nat.mul_add_div hB, Nat.div_eq_of_lt hi, Nat.add_zero]
  have hy : (y * B + j) / B = y := by
    rw [Nat.mul_comm, Nat.mul_add_div hB, Nat.div_eq_of_lt hj, Nat.add_zero]
  have hxy : x = y := by rw [← hx, h, hy]
  subst hxy
  exact ⟨rfl, by omega⟩

theorem mul_add_div_self {B x i : ℕ} (hi : i < B) : (x * B + i) / B = x := by
  rw [Nat.mul_comm, Nat.mul_add_div (by omega), Nat.div_eq_of_lt hi, Nat.add_zero]

theorem mul_add_mod_self {B x i : ℕ} (hi : i < B) : (x * B + i) % B = i := by
  rw [Nat.mul_comm, Nat.mul_add_mod, Nat.mod_eq_of_lt hi]

/-- The place of a child names its parent and its slot. -/
theorem childRole_inj {r r' : ι} {l l' x x' i i' : ℕ} (hl : 1 ≤ l) (hl' : 1 ≤ l')
    (hi : i < S.B) (hi' : i' < S.B) (hne : l ≠ 1)
    (h : childRole S r l x i = childRole S r' l' x' i') : r = r' ∧ l = l' ∧ x = x' ∧ i = i' := by
  rw [childRole_of_ne S r x i hne] at h
  by_cases h1 : l' = 1
  · rw [h1, childRole_one] at h
    cases h
  · rw [childRole_of_ne S r' x' i' h1] at h
    injection h with hr hlev hidx
    obtain ⟨hx, hii⟩ := digit_inj hi hi' hidx
    exact ⟨hr, by omega, hx, hii⟩

theorem childRole_leaf {r : ι} {l x i v : ℕ} (h : childRole S r l x i = .leaf v) :
    l = 1 ∧ v = x * S.B + i := by
  unfold childRole at h
  split at h
  · injection h with h
    exact ⟨‹_›, h.symm⟩
  · cases h

theorem childRole_table {r r' : ι} {l x i l' x' : ℕ}
    (h : childRole S r l x i = .table r' l' x') : l ≠ 1 ∧ r = r' ∧ l' = l - 1 ∧ x' = x * S.B + i := by
  unfold childRole at h
  split at h
  · cases h
  · injection h with h1 h2 h3
    exact ⟨‹_›, h1, h2.symm, h3.symm⟩

namespace Tree

/-- Nothing a tree looks at has changed. -/
theorem congr (T : Tree S link own) (h : SameSlots own link link') : Tree S link' own where
  level := T.level
  root := T.root
  child ho hi hl := T.child ho hi (by rwa [h ⟨_, _, _, ho⟩] at hl)
  parent ho hl := by
    obtain ⟨t, ht, hw, hlink⟩ := T.parent ho hl
    exact ⟨t, ht, hw, by rwa [h ⟨_, _, _, ht⟩]⟩
  leafParent ho := by
    obtain ⟨r, t, ht, hlink⟩ := T.leafParent ho
    exact ⟨r, t, ht, by rwa [h ⟨_, _, _, ht⟩]⟩

variable [DecidableEq ι] {t c r : ι} {l x i : ℕ}

/-- Put an unused address into an empty slot. A new table must be empty. -/
theorem attach (T : Tree S link own) (ht : own t = some (.table r l x)) (hi : i < S.width l)
    (hfree : link t i = none) (hc : own c = none) (hs : SetSlot own link link' t i (some c))
    (hempty : l ≠ 1 → ∀ j, j < S.width (l - 1) → link' c j = none) :
    Tree S link' (Function.update own c (some (childRole S r l x i))) := by
  have hlev := T.level ht
  have hiB : i < S.B := Nat.lt_of_lt_of_le hi (S.width_le l)
  have htc : t ≠ c := by
    rintro rfl
    rw [hc] at ht
    cases ht
  have keep : ∀ {u role}, own u = some role →
      Function.update own c (some (childRole S r l x i)) u = some role := by
    intro u role hu
    have hne : u ≠ c := by
      rintro rfl
      rw [hc] at hu
      cases hu
    rw [Function.update_of_ne hne]
    exact hu
  constructor
  · intro u ru lu xu hu
    by_cases huc : u = c
    · subst huc
      rw [Function.update_self] at hu
      obtain ⟨hne, -, hlu, -⟩ := childRole_table (Option.some.inj hu)
      omega
    · rw [Function.update_of_ne huc] at hu
      exact T.level hu
  · intro u ru xu hu
    by_cases huc : u = c
    · subst huc
      rw [Function.update_self] at hu
      obtain ⟨hne, -, hlu, -⟩ := childRole_table (Option.some.inj hu)
      omega
    · rw [Function.update_of_ne huc] at hu
      exact T.root hu
  · intro u ru lu xu j d hu hj hd
    by_cases huc : u = c
    · subst huc
      rw [Function.update_self] at hu
      obtain ⟨hne, -, hlu, -⟩ := childRole_table (Option.some.inj hu)
      rw [hempty hne j (by rwa [← hlu])] at hd
      cases hd
    · rw [Function.update_of_ne huc] at hu
      by_cases hhit : u = t ∧ j = i
      · obtain ⟨rfl, rfl⟩ := hhit
        obtain rfl : c = d := Option.some.inj (hs.hit.symm.trans hd)
        rw [ht] at hu
        cases hu
        rw [Function.update_self]
      · rw [hs.miss ⟨_, _, _, hu⟩ hhit] at hd
        exact keep (T.child hu hj hd)
  · intro d rd ld xd hd hld
    by_cases hdc : d = c
    · subst hdc
      rw [Function.update_self] at hd
      obtain ⟨hne, rfl, rfl, rfl⟩ := childRole_table (Option.some.inj hd)
      have hl1 : l - 1 + 1 = l := by omega
      rw [hl1, mul_add_div_self hiB, mul_add_mod_self hiB]
      exact ⟨t, keep ht, hi, hs.hit⟩
    · rw [Function.update_of_ne hdc] at hd
      obtain ⟨p, hp, hw, hlink⟩ := T.parent hd hld
      have hmiss : ¬(p = t ∧ xd % S.B = i) := by
        rintro ⟨rfl, h⟩
        rw [h, hfree] at hlink
        cases hlink
      exact ⟨p, keep hp, hw, by rwa [hs.miss ⟨_, _, _, hp⟩ hmiss]⟩
  · intro d v hd
    by_cases hdc : d = c
    · subst hdc
      rw [Function.update_self] at hd
      obtain ⟨rfl, rfl⟩ := childRole_leaf (Option.some.inj hd)
      rw [mul_add_div_self hiB, mul_add_mod_self hiB]
      exact ⟨r, t, keep ht, hs.hit⟩
    · rw [Function.update_of_ne hdc] at hd
      obtain ⟨rp, p, hp, hlink⟩ := T.leafParent hd
      have hmiss : ¬(p = t ∧ v % S.B = i) := by
        rintro ⟨rfl, h⟩
        rw [h, hfree] at hlink
        cases hlink
      exact ⟨rp, p, keep hp, by rwa [hs.miss ⟨_, _, _, hp⟩ hmiss]⟩

/-- Clear a slot and stop using what it held: an empty table, or a page that no other slot
holds. -/
theorem detach (T : Tree S link own) (ht : own t = some (.table r l x)) (hi : i < S.width l)
    (hlink : link t i = some c) (hs : SetSlot own link link' t i none)
    (hempty : l ≠ 1 → ∀ j, j < S.width (l - 1) → link c j = none)
    (honly : l = 1 → ∀ u ru xu j, own u = some (.table ru 1 xu) → j < S.B → link u j = some c →
      u = t ∧ j = i) :
    Tree S link' (Function.update own c none) := by
  have hlev := T.level ht
  have hiB : i < S.B := Nat.lt_of_lt_of_le hi (S.width_le l)
  have hc := T.child ht hi hlink
  have keep : ∀ {u role}, Function.update own c none u = some role → u ≠ c ∧ own u = some role :=
    PartialMap.update_none_eq_some.mp
  -- a slot that holds `c` is the cleared one
  have hitc : ∀ {u ru lu xu j}, own u = some (.table ru lu xu) → j < S.width lu →
      link u j = some c → u = t ∧ j = i := by
    intro u ru lu xu j hu hj hl
    have hrole := (T.child hu hj hl).symm.trans hc
    have hjB : j < S.B := Nat.lt_of_lt_of_le hj (S.width_le lu)
    by_cases h1 : l = 1
    · subst h1
      rw [childRole_one] at hrole
      obtain ⟨rfl, -⟩ := childRole_leaf (Option.some.inj hrole)
      exact honly rfl u ru xu j hu hjB hl
    · obtain ⟨rfl, rfl, rfl, rfl⟩ := childRole_inj hlev.1 (T.level hu).1 hiB hjB h1
        (Option.some.inj hrole).symm
      exact ⟨T.table_unique hu ht, rfl⟩
  -- `c` is nobody's parent
  have notparent : ∀ {rd ld xd j d}, own c = some (.table rd ld xd) → j < S.width ld →
      link c j = some d → False := by
    intro rd ld xd j d hcd hj hd
    rw [hc] at hcd
    obtain ⟨hne, -, rfl, -⟩ := childRole_table (Option.some.inj hcd)
    rw [hempty hne j hj] at hd
    cases hd
  constructor
  · intro u ru lu xu hu
    exact T.level (keep hu).2
  · intro u ru xu hu
    exact T.root (keep hu).2
  · intro u ru lu xu j d hkeep hj hd
    have hu := (keep hkeep).2
    have hmiss : ¬(u = t ∧ j = i) := by
      rintro ⟨rfl, rfl⟩
      rw [hs.hit] at hd
      cases hd
    rw [hs.miss ⟨_, _, _, hu⟩ hmiss] at hd
    have hdc : d ≠ c := by
      rintro rfl
      exact hmiss (hitc hu hj hd)
    rw [Function.update_of_ne hdc]
    exact T.child hu hj hd
  · intro d rd ld xd hd hld
    obtain ⟨hdc, hd⟩ := keep hd
    obtain ⟨p, hp, hw, hpl⟩ := T.parent hd hld
    have hpc : p ≠ c := by
      rintro rfl
      exact notparent hp hw hpl
    have hmiss : ¬(p = t ∧ xd % S.B = i) := by
      rintro ⟨rfl, h⟩
      rw [h, hlink] at hpl
      exact hdc (Option.some.inj hpl).symm
    exact ⟨p, by rwa [Function.update_of_ne hpc], hw, by rwa [hs.miss ⟨_, _, _, hp⟩ hmiss]⟩
  · intro d v hd
    obtain ⟨hdc, hd⟩ := keep hd
    obtain ⟨rp, p, hp, hpl⟩ := T.leafParent hd
    have hv : v % S.B < S.width 1 := by
      rw [S.width_of_lt (by have := S.two_le; omega)]
      exact Nat.mod_lt _ S.B_pos
    have hpc : p ≠ c := by
      rintro rfl
      exact notparent hp hv hpl
    have hmiss : ¬(p = t ∧ v % S.B = i) := by
      rintro ⟨rfl, h⟩
      rw [h, hlink] at hpl
      exact hdc (Option.some.inj hpl).symm
    exact ⟨rp, p, by rwa [Function.update_of_ne hpc], by rwa [hs.miss ⟨_, _, _, hp⟩ hmiss]⟩

/-- Start a new, empty tree at an unused address. -/
theorem addRoot (T : Tree S link own) (hc : own c = none)
    (hsame : SameSlots own link link') (hempty : ∀ j, j < S.width S.H → link' c j = none) :
    Tree S link' (Function.update own c (some (.table c S.H 0))) := by
  have h2 := S.two_le
  have keep : ∀ {u role}, own u = some role →
      Function.update own c (some (.table c S.H 0)) u = some role := by
    intro u role hu
    have hne : u ≠ c := by
      rintro rfl
      rw [hc] at hu
      cases hu
    rw [Function.update_of_ne hne]
    exact hu
  constructor
  · intro u ru lu xu hu
    by_cases huc : u = c
    · subst huc
      rw [Function.update_self] at hu
      cases hu
      omega
    · rw [Function.update_of_ne huc] at hu
      exact T.level hu
  · intro u ru xu hu
    by_cases huc : u = c
    · subst huc
      rw [Function.update_self] at hu
      cases hu
      exact ⟨rfl, rfl⟩
    · rw [Function.update_of_ne huc] at hu
      exact T.root hu
  · intro u ru lu xu j d hu hj hd
    by_cases huc : u = c
    · subst huc
      rw [Function.update_self] at hu
      cases hu
      rw [hempty j hj] at hd
      cases hd
    · rw [Function.update_of_ne huc] at hu
      rw [hsame ⟨_, _, _, hu⟩] at hd
      exact keep (T.child hu hj hd)
  · intro d rd ld xd hd hld
    by_cases hdc : d = c
    · subst hdc
      rw [Function.update_self] at hd
      cases hd
      omega
    · rw [Function.update_of_ne hdc] at hd
      obtain ⟨p, hp, hw, hlink⟩ := T.parent hd hld
      exact ⟨p, keep hp, hw, by rwa [hsame ⟨_, _, _, hp⟩]⟩
  · intro d v hd
    by_cases hdc : d = c
    · subst hdc
      rw [Function.update_self] at hd
      cases hd
    · rw [Function.update_of_ne hdc] at hd
      obtain ⟨rp, p, hp, hlink⟩ := T.leafParent hd
      exact ⟨rp, p, keep hp, by rwa [hsame ⟨_, _, _, hp⟩]⟩

/-- Stop using the root of an empty tree. -/
theorem removeRoot (T : Tree S link own) (hc : IsRoot S own c)
    (hempty : ∀ j, j < S.width S.H → link c j = none) :
    Tree S link (Function.update own c none) := by
  have h2 := S.two_le
  have keep : ∀ {u role}, Function.update own c none u = some role → u ≠ c ∧ own u = some role :=
    PartialMap.update_none_eq_some.mp
  have notparent : ∀ {rd ld xd j d}, own c = some (.table rd ld xd) → j < S.width ld →
      link c j = some d → False := by
    intro rd ld xd j d hcd hj hd
    rw [hc] at hcd
    cases hcd
    rw [hempty j hj] at hd
    cases hd
  constructor
  · intro u ru lu xu hu
    exact T.level (keep hu).2
  · intro u ru xu hu
    exact T.root (keep hu).2
  · intro u ru lu xu j d hkeep hj hd
    have hu := (keep hkeep).2
    have hrole := T.child hu hj hd
    have hdc : d ≠ c := by
      rintro rfl
      rw [hc] at hrole
      obtain ⟨-, -, hlev, -⟩ := childRole_table (Option.some.inj hrole).symm
      have := T.level hu
      omega
    rw [Function.update_of_ne hdc]
    exact hrole
  · intro d rd ld xd hd hld
    obtain ⟨-, hd⟩ := keep hd
    obtain ⟨p, hp, hw, hpl⟩ := T.parent hd hld
    have hpc : p ≠ c := by
      rintro rfl
      exact notparent hp hw hpl
    exact ⟨p, by rwa [Function.update_of_ne hpc], hw, hpl⟩
  · intro d v hd
    obtain ⟨-, hd⟩ := keep hd
    obtain ⟨rp, p, hp, hpl⟩ := T.leafParent hd
    have hv : v % S.B < S.width 1 := by
      rw [S.width_of_lt (by omega)]
      exact Nat.mod_lt _ S.B_pos
    have hpc : p ≠ c := by
      rintro rfl
      exact notparent hp hv hpl
    exact ⟨rp, p, by rwa [Function.update_of_ne hpc], hpl⟩

omit [DecidableEq ι] in
/-- Map a page that is already in use into the empty slot for its index. -/
theorem share (T : Tree S link own) (ht : own t = some (.table r 1 x)) (hi : i < S.B)
    (hfree : link t i = none) (hc : own c = some (.leaf (x * S.B + i)))
    (hs : SetSlot own link link' t i (some c)) : Tree S link' own where
  level := T.level
  root := T.root
  child {u ru lu xu j d} hu hj hd := by
    by_cases hhit : u = t ∧ j = i
    · obtain ⟨rfl, rfl⟩ := hhit
      obtain rfl : c = d := Option.some.inj (hs.hit.symm.trans hd)
      rw [ht] at hu
      cases hu
      exact hc
    · rw [hs.miss ⟨_, _, _, hu⟩ hhit] at hd
      exact T.child hu hj hd
  parent {d rd ld xd} hd hld := by
    obtain ⟨p, hp, hw, hlink⟩ := T.parent hd hld
    have hmiss : ¬(p = t ∧ xd % S.B = i) := by
      rintro ⟨rfl, h⟩
      rw [h, hfree] at hlink
      cases hlink
    exact ⟨p, hp, hw, by rwa [hs.miss ⟨_, _, _, hp⟩ hmiss]⟩
  leafParent {d v} hd := by
    obtain ⟨rp, p, hp, hlink⟩ := T.leafParent hd
    have hmiss : ¬(p = t ∧ v % S.B = i) := by
      rintro ⟨rfl, h⟩
      rw [h, hfree] at hlink
      cases hlink
    exact ⟨rp, p, hp, by rwa [hs.miss ⟨_, _, _, hp⟩ hmiss]⟩

omit [DecidableEq ι] in
/-- Clear a slot whose page another slot still holds. -/
theorem dropShared (T : Tree S link own) (ht : own t = some (.table r 1 x)) (hi : i < S.B)
    (hlink : link t i = some c) (hs : SetSlot own link link' t i none)
    {u ru : ι} {xu j : ℕ} (hu : own u = some (.table ru 1 xu)) (hj : j < S.B)
    (hul : link u j = some c) (hne : ¬(u = t ∧ j = i)) : Tree S link' own where
  level := T.level
  root := T.root
  child {p rp lp xp k d} hp hk hd := by
    have hmiss : ¬(p = t ∧ k = i) := by
      rintro ⟨rfl, rfl⟩
      rw [hs.hit] at hd
      cases hd
    rw [hs.miss ⟨_, _, _, hp⟩ hmiss] at hd
    exact T.child hp hk hd
  parent {d rd ld xd} hd hld := by
    obtain ⟨p, hp, hw, hpl⟩ := T.parent hd hld
    have hmiss : ¬(p = t ∧ xd % S.B = i) := by
      rintro ⟨rfl, rfl⟩
      rw [ht] at hp
      cases hp
      have := (T.level hd).1
      omega
    exact ⟨p, hp, hw, by rwa [hs.miss ⟨_, _, _, hp⟩ hmiss]⟩
  leafParent {d v} hd := by
    obtain ⟨rp, p, hp, hpl⟩ := T.leafParent hd
    by_cases hhit : p = t ∧ v % S.B = i
    · -- the parent found is the cleared slot, so the page is `c` and `u` is another parent
      obtain ⟨rfl, rfl⟩ := hhit
      obtain rfl : c = d := Option.some.inj (hlink.symm.trans hpl)
      have h1 : j < S.width 1 := by
        rw [S.width_of_lt (by have := S.two_le; omega)]
        exact hj
      have hrole := (T.child hu h1 hul).symm.trans hd
      rw [childRole_one] at hrole
      injection hrole with hrole
      injection hrole with hrole
      rw [← hrole, mul_add_div_self hj, mul_add_mod_self hj]
      exact ⟨ru, u, hu, by rwa [hs.miss ⟨_, _, _, hu⟩ hne]⟩
    · exact ⟨rp, p, hp, by rwa [hs.miss ⟨_, _, _, hp⟩ hhit]⟩

end Tree

end PageTree
