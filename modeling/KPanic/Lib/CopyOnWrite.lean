import Mathlib.Data.List.Nodup
import KPanic.Lib.PartialMap

/-!
# Copy-on-write sharing

Address spaces `ρ` map addresses `ν` to pages `π`, with a bit that permits writes. Owners `κ` have
at most one space each; a space without an owner is private to whoever builds it. `sharers p`
lists the owners of the spaces that share `p`; it is empty for a page that is mapped once.

`Sharing` says that the lists and the bits mirror the mappings. Each operation below keeps it.
-/

namespace CopyOnWrite

variable {ρ ν π κ α : Type}

structure Sharing (space : ρ → ν → Option (π × Bool)) (sharers : π → List κ)
    (root : κ → Option ρ) : Prop where
  rootInj : ∀ {k k' r}, root k = some r → root k' = some r → k = k'
  nodup : ∀ p, (sharers p).Nodup
  sharer : ∀ {k p}, k ∈ sharers p → ∃ r v b, root k = some r ∧ space r v = some (p, b)
  mapper : ∀ {r v p b}, space r v = some (p, b) → sharers p ≠ [] →
    b = false ∧ ∃ k ∈ sharers p, root k = some r
  sole : ∀ {r v p b}, space r v = some (p, b) → sharers p = [] →
    b = true ∧ ∀ r' v' b', space r' v' = some (p, b') → r' = r
  place : ∀ {r v r' v' p b b'}, space r v = some (p, b) → space r' v' = some (p, b') → v' = v

/-- The contents that a space shows at an address. -/
def view (space : ρ → ν → Option (π × Bool)) (mem : π → α) (r : ρ) (v : ν) : Option α :=
  (space r v).map fun x => mem x.1

/-- No space maps `p`. -/
def Fresh (space : ρ → ν → Option (π × Bool)) (p : π) : Prop := ∀ r v b, space r v ≠ some (p, b)

section Updates

variable [DecidableEq ρ] [DecidableEq ν]

/-- `space` with the mapping of one address replaced. -/
def setAt (space : ρ → ν → Option (π × Bool)) (r : ρ) (v : ν) (o : Option (π × Bool)) :
    ρ → ν → Option (π × Bool) :=
  fun r' v' => if r' = r ∧ v' = v then o else space r' v'

/-- `space` without the mappings of `r`. -/
def drop (space : ρ → ν → Option (π × Bool)) (r : ρ) : ρ → ν → Option (π × Bool) :=
  fun r' v => if r' = r then none else space r' v

variable {space : ρ → ν → Option (π × Bool)} {r r' : ρ} {v v' : ν} {o : Option (π × Bool)}

@[simp] theorem setAt_self : setAt space r v o r v = o := if_pos ⟨rfl, rfl⟩

theorem setAt_of_ne (h : ¬(r' = r ∧ v' = v)) : setAt space r v o r' v' = space r' v' := if_neg h

omit [DecidableEq ν] in
theorem drop_of_ne (h : r' ≠ r) : drop space r r' v = space r' v := if_neg h

omit [DecidableEq ν] in
@[simp] theorem drop_self : drop space r r v = none := if_pos rfl

omit [DecidableEq ν] in
/-- What is left without the space `r`. -/
theorem drop_eq_some {x : π × Bool} : drop space r r' v = some x ↔ r' ≠ r ∧ space r' v = some x := by
  unfold drop
  split
  · rename_i hr
    exact iff_of_false nofun fun h => h.1 hr
  · rename_i hr
    exact (and_iff_right hr).symm

end Updates

section Views

variable [DecidableEq ρ] [DecidableEq ν] {space space' : ρ → ν → Option (π × Bool)} {mem mem' : π → α}
  {r r' : ρ} {v v' : ν} {p : π} {b : Bool}

omit [DecidableEq ρ] [DecidableEq ν] in
/-- Spaces that map the same pages with the same contents show the same. -/
theorem view_congr (hs : ∀ r v, (space' r v).map Prod.fst = (space r v).map Prod.fst)
    (hm : ∀ r v p b, space r v = some (p, b) → mem' p = mem p) :
    view space' mem' = view space mem := by
  funext r v
  have h := hs r v
  unfold view
  cases hx : space r v with
  | none =>
    rw [hx, Option.map_none, Option.map_eq_none_iff] at h
    rw [h]
    rfl
  | some x =>
    rw [hx, Option.map_some, Option.map_eq_some_iff] at h
    obtain ⟨y, hy, hfst⟩ := h
    rw [hy, Option.map_some, Option.map_some, hfst, hm r v x.1 x.2 hx]

/-- One more mapping shows one more page. -/
theorem view_setAt (hm : ∀ r v p b, space r v = some (p, b) → mem' p = mem p) :
    view (setAt space r v (some (p, b))) mem' r' v' =
      if r' = r ∧ v' = v then some (mem' p) else view space mem r' v' := by
  unfold view setAt
  split
  · rfl
  · cases hx : space r' v' with
    | none => rfl
    | some x => rw [Option.map_some, Option.map_some, hm r' v' x.1 x.2 hx]

omit [DecidableEq ν] in
theorem view_drop (hm : ∀ r' v p b, r' ≠ r → space r' v = some (p, b) → mem' p = mem p) (h : r' ≠ r) :
    view (drop space r) mem' r' v' = view space mem r' v' := by
  unfold view
  rw [drop_of_ne h]
  cases hx : space r' v' with
  | none => rfl
  | some x => rw [Option.map_some, Option.map_some, hm r' v' x.1 x.2 h hx]

end Views

namespace Sharing

variable {space : ρ → ν → Option (π × Bool)} {sharers : π → List κ} {root : κ → Option ρ}
  {r rc : ρ} {v : ν} {p q : π} {k kc : κ} {b : Bool}

theorem fresh_sharers (S : Sharing space sharers root) (h : Fresh space p) : sharers p = [] := by
  cases hs : sharers p with
  | nil => rfl
  | cons k ks =>
    obtain ⟨r, v, b, -, hm⟩ := S.sharer (k := k) (p := p) (by simp [hs])
    exact absurd hm (h r v b)

/-- Writes are permitted exactly on the pages that are not shared. -/
theorem writes_iff (S : Sharing space sharers root) (h : space r v = some (p, b)) :
    b = true ↔ sharers p = [] := by
  constructor
  · intro hb
    by_contra hne
    rw [(S.mapper h hne).1] at hb
    cases hb
  · intro hs
    exact (S.sole h hs).1

/-- The sharers of a page that is shared are the owners of the spaces that map it. -/
theorem mem_iff (S : Sharing space sharers root) (hp : sharers p ≠ []) (hr : root k = some r) :
    k ∈ sharers p ↔ ∃ v b, space r v = some (p, b) := by
  constructor
  · intro hk
    obtain ⟨r', v, b, hr', hm⟩ := S.sharer hk
    rw [hr] at hr'
    obtain rfl := Option.some.inj hr'
    exact ⟨v, b, hm⟩
  · intro ⟨v, b, hm⟩
    obtain ⟨-, k', hk', hroot⟩ := S.mapper hm hp
    rwa [S.rootInj hr hroot]

/-- Two spaces that map a page share it. -/
theorem shared_of_two (S : Sharing space sharers root) {r' : ρ} {v' : ν} {b' : Bool}
    (h : space r v = some (p, b)) (h' : space r' v' = some (p, b')) (hne : r ≠ r') :
    sharers p ≠ [] := by
  intro hs
  exact hne ((S.sole h hs).2 r' v' b' h').symm

/-- The mapping of a sharer. -/
theorem sharer_at (S : Sharing space sharers root) {r' : ρ} {v' : ν} {b' : Bool}
    (hk : k ∈ sharers p) (hr : root k = some r) (h : space r' v' = some (p, b')) :
    space r v' = some (p, false) := by
  have hp : sharers p ≠ [] := List.ne_nil_of_mem hk
  obtain ⟨v, b, hm⟩ := (S.mem_iff hp hr).mp hk
  obtain rfl := S.place h hm
  rw [hm, (S.mapper hm hp).1]

/-! ### Operations -/

section Operations

variable [DecidableEq ρ] [DecidableEq ν]

theorem setAt_some {o : Option (π × Bool)} {r' : ρ} {v' : ν} {x : π × Bool}
    (h : setAt space r v o r' v' = some x) :
    (r' = r ∧ v' = v ∧ o = some x) ∨ (¬(r' = r ∧ v' = v) ∧ space r' v' = some x) := by
  unfold setAt at h
  split at h
  · rename_i hit
    exact .inl ⟨hit.1, hit.2, h⟩
  · exact .inr ⟨‹_›, h⟩

/-- Map a page that nobody maps. -/
theorem mapFresh (S : Sharing space sharers root) (hfree : space r v = none)
    (hp : Fresh space p) : Sharing (setAt space r v (some (p, true))) sharers root := by
  have hempty := S.fresh_sharers hp
  constructor
  · exact S.rootInj
  · exact S.nodup
  · intro k p' hk
    obtain ⟨r', v', b', hr, hm⟩ := S.sharer hk
    refine ⟨r', v', b', hr, ?_⟩
    rw [setAt_of_ne, hm]
    rintro ⟨rfl, rfl⟩
    rw [hfree] at hm
    cases hm
  · intro r' v' p' b' hm hne
    obtain ⟨-, -, heq⟩ | ⟨-, hm⟩ := setAt_some hm
    · cases heq
      exact absurd hempty hne
    · exact S.mapper hm hne
  · intro r' v' p' b' hm hs
    obtain ⟨rfl, rfl, heq⟩ | ⟨-, hm⟩ := setAt_some hm
    · cases heq
      refine ⟨rfl, fun r'' v'' b'' hm' => ?_⟩
      obtain ⟨rfl, -, -⟩ | ⟨-, hm'⟩ := setAt_some hm'
      · rfl
      · exact absurd hm' (hp r'' v'' b'')
    · obtain ⟨hb, hother⟩ := S.sole hm hs
      refine ⟨hb, fun r'' v'' b'' hm' => ?_⟩
      obtain ⟨-, -, heq⟩ | ⟨-, hm'⟩ := setAt_some hm'
      · cases heq
        exact absurd hm (hp r' v' b')
      · exact hother r'' v'' b'' hm'
  · intro r₁ v₁ r₂ v₂ p' b₁ b₂ h₁ h₂
    obtain ⟨-, rfl, heq₁⟩ | ⟨-, h₁⟩ := setAt_some h₁
    · cases heq₁
      obtain ⟨-, rfl, -⟩ | ⟨-, h₂⟩ := setAt_some h₂
      · rfl
      · exact absurd h₂ (hp r₂ v₂ b₂)
    · obtain ⟨-, -, heq₂⟩ | ⟨-, h₂⟩ := setAt_some h₂
      · cases heq₂
        exact absurd h₁ (hp r₁ v₁ b₁)
      · exact S.place h₁ h₂

variable [DecidableEq π] [DecidableEq κ]

omit [DecidableEq κ] in
/-- Permit the only sharer to write. -/
theorem unshare (S : Sharing space sharers root) (hk : sharers p = [k]) (hr : root k = some r)
    (hm : space r v = some (p, b)) :
    Sharing (setAt space r v (some (p, true))) (Function.update sharers p []) root := by
  constructor
  · exact S.rootInj
  · intro p'
    by_cases hp : p' = p
    · subst hp; simp
    · rw [Function.update_of_ne hp]; exact S.nodup p'
  · intro k' p' hk'
    by_cases hp : p' = p
    · subst hp; simp at hk'
    · rw [Function.update_of_ne hp] at hk'
      obtain ⟨r', v', b', hr', hm'⟩ := S.sharer hk'
      refine ⟨r', v', b', hr', ?_⟩
      grind [setAt]
  · intro r' v' p' b' hm' hne
    by_cases hp : p' = p
    · subst hp; simp at hne
    · rw [Function.update_of_ne hp] at hne ⊢
      have := @S.mapper r' v' p' b'
      grind [setAt]
  · intro r' v' p' b' hm' hs
    by_cases hp : p' = p
    · subst hp
      have h1 := @S.mapper
      have h2 := @S.place
      have h3 := @S.rootInj
      grind [setAt]
    · rw [Function.update_of_ne hp] at hs
      have := @S.sole r' v' p' b'
      grind [setAt]
  · have := @S.place
    intro r₁ v₁ r₂ v₂ p' b₁ b₂ h₁ h₂
    grind [setAt]

/-- Give one of several sharers a page of its own. -/
theorem moveAway (S : Sharing space sharers root) (hk : k ∈ sharers p)
    (hlen : 2 ≤ (sharers p).length) (hr : root k = some r) (hm : space r v = some (p, b))
    (hq : Fresh space q) :
    Sharing (setAt space r v (some (q, true)))
      (Function.update sharers p ((sharers p).erase k)) root := by
  have hpne : sharers p ≠ [] := List.ne_nil_of_mem hk
  have hqe := S.fresh_sharers hq
  have hqp : q ≠ p := by
    rintro rfl
    exact hpne hqe
  have hrest : (sharers p).erase k ≠ [] := by
    intro h
    have := List.length_erase_of_mem hk
    rw [h, List.length_nil] at this
    omega
  constructor
  · exact S.rootInj
  · intro p'
    by_cases hp : p' = p
    · subst hp
      rw [Function.update_self]
      exact (S.nodup p').erase k
    · rw [Function.update_of_ne hp]; exact S.nodup p'
  · intro k' p' hk'
    have hmem : k' ∈ sharers p' ∧ (p' = p → k' ≠ k) := by
      by_cases hp : p' = p
      · subst hp
        rw [Function.update_self, (S.nodup p').mem_erase_iff] at hk'
        exact ⟨hk'.2, fun _ => hk'.1⟩
      · rw [Function.update_of_ne hp] at hk'
        exact ⟨hk', fun h => absurd h hp⟩
    obtain ⟨r', v', b', hr', hm'⟩ := S.sharer hmem.1
    refine ⟨r', v', b', hr', ?_⟩
    rw [setAt_of_ne, hm']
    rintro ⟨rfl, rfl⟩
    rw [hm] at hm'
    cases hm'
    exact hmem.2 rfl (S.rootInj hr' hr)
  · intro r' v' p' b' hm' hne
    obtain ⟨-, -, heq⟩ | ⟨hmiss, hm'⟩ := setAt_some hm'
    · cases heq
      rw [Function.update_of_ne hqp] at hne
      exact absurd hqe hne
    · by_cases hp : p' = p
      · subst hp
        rw [Function.update_self]
        obtain ⟨hb, k', hk', hr'⟩ := S.mapper hm' hpne
        refine ⟨hb, k', ?_, hr'⟩
        rw [(S.nodup p').mem_erase_iff]
        refine ⟨?_, hk'⟩
        rintro rfl
        rw [hr] at hr'
        cases hr'
        exact hmiss ⟨rfl, S.place hm hm'⟩
      · rw [Function.update_of_ne hp] at hne ⊢
        exact S.mapper hm' hne
  · intro r' v' p' b' hm' hs
    have hp : p' ≠ p := by
      rintro rfl
      rw [Function.update_self] at hs
      exact hrest hs
    rw [Function.update_of_ne hp] at hs
    have h1 := @S.sole r' v' p' b'
    grind [setAt, Fresh]
  · have := @S.place
    intro r₁ v₁ r₂ v₂ p' b₁ b₂ h₁ h₂
    grind [setAt, Fresh]

/-- Map the page of one space in another, at the same address. -/
theorem share (S : Sharing space sharers root) (hk : root k = some r) (hkc : root kc = some rc)
    (hm : space r v = some (p, b)) (hfree : space rc v = none) :
    Sharing (setAt (setAt space r v (some (p, false))) rc v (some (p, false)))
      (Function.update sharers p (((sharers p).insert k).insert kc)) root := by
  have hall : ∀ {r' v' p' b'},
      setAt (setAt space r v (some (p, false))) rc v (some (p, false)) r' v' = some (p', b') →
      (p' = p ∧ v' = v ∧ b' = false ∧ (r' = r ∨ r' = rc)) ∨
        (space r' v' = some (p', b') ∧ ¬(r' = r ∧ v' = v)) := by
    intro r' v' p' b' h
    grind [setAt]
  have hne : ∀ {p'}, Function.update sharers p (((sharers p).insert k).insert kc) p' = [] →
      p' ≠ p ∧ sharers p' = [] := by
    intro p' h
    have hp : p' ≠ p := by
      rintro rfl
      rw [Function.update_self] at h
      exact List.ne_nil_of_mem List.mem_insert_self h
    rw [Function.update_of_ne hp] at h
    exact ⟨hp, h⟩
  constructor
  · exact S.rootInj
  · intro p'
    by_cases hp : p' = p
    · subst hp
      rw [Function.update_self]
      exact (List.Nodup.insert (S.nodup p')).insert
    · rw [Function.update_of_ne hp]
      exact S.nodup p'
  · intro k' p' hk'
    by_cases hp : p' = p
    · subst hp
      rw [Function.update_self, List.mem_insert_iff, List.mem_insert_iff] at hk'
      obtain rfl | rfl | hk' := hk'
      · exact ⟨rc, v, false, hkc, setAt_self⟩
      · exact ⟨r, v, false, hk, by grind [setAt]⟩
      · obtain ⟨r', v', b', hr', hm'⟩ := S.sharer hk'
        obtain rfl := S.place hm hm'
        exact ⟨r', v', false, hr', by grind [setAt, S.mapper hm' (List.ne_nil_of_mem hk')]⟩
    · rw [Function.update_of_ne hp] at hk'
      obtain ⟨r', v', b', hr', hm'⟩ := S.sharer hk'
      exact ⟨r', v', b', hr', by grind [setAt]⟩
  · intro r' v' p' b' hm' hs
    obtain ⟨rfl, rfl, rfl, rfl | rfl⟩ | ⟨hold, hmiss⟩ := hall hm'
    · refine ⟨rfl, k, ?_, hk⟩
      rw [Function.update_self, List.mem_insert_iff, List.mem_insert_iff]
      exact .inr (.inl rfl)
    · refine ⟨rfl, kc, ?_, hkc⟩
      rw [Function.update_self]
      exact List.mem_insert_self
    · by_cases hp : p' = p
      · subst hp
        have hshared : sharers p' ≠ [] := by
          intro h
          exact hmiss ⟨(S.sole hm h).2 r' v' b' hold, S.place hm hold⟩
        obtain ⟨hb, k', hk', hr'⟩ := S.mapper hold hshared
        refine ⟨hb, k', ?_, hr'⟩
        rw [Function.update_self, List.mem_insert_iff, List.mem_insert_iff]
        exact .inr (.inr hk')
      · rw [Function.update_of_ne hp] at hs ⊢
        exact S.mapper hold hs
  · intro r' v' p' b' hm' hs
    obtain ⟨hp, hs⟩ := hne hs
    obtain ⟨rfl, -⟩ | ⟨hm', -⟩ := hall hm'
    · exact absurd rfl hp
    · obtain ⟨hb, hother⟩ := S.sole hm' hs
      refine ⟨hb, fun r'' v'' b'' hm'' => ?_⟩
      obtain ⟨rfl, -⟩ | ⟨hm'', -⟩ := hall hm''
      · exact absurd rfl hp
      · exact hother r'' v'' b'' hm''
  · intro r₁ v₁ r₂ v₂ p' b₁ b₂ h₁ h₂
    obtain ⟨rfl, rfl, -⟩ | ⟨old₁, -⟩ := hall h₁
    · obtain ⟨-, rfl, -⟩ | ⟨old₂, -⟩ := hall h₂
      · rfl
      · exact S.place hm old₂
    · obtain ⟨rfl, rfl, -⟩ | ⟨old₂, -⟩ := hall h₂
      · exact S.place old₁ hm
      · exact S.place old₁ old₂

omit [DecidableEq ν] [DecidableEq π] in
/-- Remove an owner and its space. -/
theorem remove (S : Sharing space sharers root) (hk : root k = some r) :
    Sharing (drop space r) (fun p => (sharers p).erase k) (Function.update root k none) := by
  have hmem : ∀ {k' p'}, k' ∈ (sharers p').erase k ↔ k' ≠ k ∧ k' ∈ sharers p' :=
    fun {k' p'} => (S.nodup p').mem_erase_iff
  have hroot : ∀ {k' r'}, Function.update root k none k' = some r' → k' ≠ k ∧ root k' = some r' :=
    PartialMap.update_none_eq_some.mp
  have hdrop : ∀ {r' v' x}, drop space r r' v' = some x → r' ≠ r ∧ space r' v' = some x :=
    drop_eq_some.mp
  -- whoever else maps a page of `k` is one of its sharers
  have hothers : ∀ {r' v' p' b'}, drop space r r' v' = some (p', b') → sharers p' ≠ [] →
      b' = false ∧ ∃ k' ∈ (sharers p').erase k, Function.update root k none k' = some r' := by
    intro r' v' p' b' hm hs
    obtain ⟨hr', hm⟩ := hdrop hm
    obtain ⟨hb, k', hk', hroot'⟩ := S.mapper hm hs
    have hne : k' ≠ k := by
      rintro rfl
      rw [hk] at hroot'
      exact hr' (Option.some.inj hroot').symm
    exact ⟨hb, k', hmem.mpr ⟨hne, hk'⟩, by rwa [Function.update_of_ne hne]⟩
  constructor
  · intro k₁ k₂ r' h₁ h₂
    exact S.rootInj (hroot h₁).2 (hroot h₂).2
  · intro p'
    exact (S.nodup p').erase k
  · intro k' p' hk'
    obtain ⟨hne, hk'⟩ := hmem.mp hk'
    obtain ⟨r', v', b', hr', hm⟩ := S.sharer hk'
    refine ⟨r', v', b', by rwa [Function.update_of_ne hne], ?_⟩
    rwa [drop_of_ne]
    rintro rfl
    exact hne (S.rootInj hr' hk)
  · intro r' v' p' b' hm hs
    exact hothers hm fun h => hs (by rw [h]; rfl)
  · intro r' v' p' b' hm hs
    have hempty : sharers p' = [] := by
      by_contra hne
      obtain ⟨-, k', hk', -⟩ := hothers hm hne
      rw [hs] at hk'
      cases hk'
    obtain ⟨hb, hother⟩ := S.sole (hdrop hm).2 hempty
    exact ⟨hb, fun r'' v'' b'' hm'' => hother r'' v'' b'' (hdrop hm'').2⟩
  · intro r₁ v₁ r₂ v₂ p' b₁ b₂ h₁ h₂
    exact S.place (hdrop h₁).2 (hdrop h₂).2

omit [DecidableEq ν] [DecidableEq π] [DecidableEq κ] in
/-- Remove a space that nobody owns. -/
theorem dropUnowned (S : Sharing space sharers root) (hr : ∀ k, root k ≠ some r) :
    Sharing (drop space r) sharers root := by
  have hdrop : ∀ {r' v' x}, drop space r r' v' = some x → space r' v' = some x :=
    fun h => (drop_eq_some.mp h).2
  constructor
  · exact S.rootInj
  · exact S.nodup
  · intro k' p' hk'
    obtain ⟨r', v', b', hr', hm⟩ := S.sharer hk'
    refine ⟨r', v', b', hr', ?_⟩
    rwa [drop_of_ne]
    rintro rfl
    exact hr k' hr'
  · intro r' v' p' b' hm hs
    exact S.mapper (hdrop hm) hs
  · intro r' v' p' b' hm hs
    obtain ⟨hb, hother⟩ := S.sole (hdrop hm) hs
    exact ⟨hb, fun r'' v'' b'' hm'' => hother r'' v'' b'' (hdrop hm'')⟩
  · intro r₁ v₁ r₂ v₂ p' b₁ b₂ h₁ h₂
    exact S.place (hdrop h₁) (hdrop h₂)

omit [DecidableEq ρ] [DecidableEq ν] [DecidableEq π] in
/-- Give an owner that shares nothing a space that nobody owns. -/
theorem setRoot (S : Sharing space sharers root) (hk : ∀ p, k ∉ sharers p)
    (hr : ∀ k', root k' ≠ some r) : Sharing space sharers (Function.update root k (some r)) := by
  have hkeep : ∀ {k' p'}, k' ∈ sharers p' → Function.update root k (some r) k' = root k' := by
    intro k' p' hk'
    refine Function.update_of_ne ?_ _ _
    rintro rfl
    exact hk p' hk'
  constructor
  · intro k₁ k₂ r' h₁ h₂
    have h1 := @S.rootInj k₁ k₂ r'
    grind [Function.update]
  · exact S.nodup
  · intro k' p' hk'
    rw [hkeep hk']
    exact S.sharer hk'
  · intro r' v' p' b' hm hs
    obtain ⟨hb, k', hk', hroot⟩ := S.mapper hm hs
    exact ⟨hb, k', hk', by rwa [hkeep hk']⟩
  · exact S.sole
  · exact S.place

end Operations

end Sharing

end CopyOnWrite
