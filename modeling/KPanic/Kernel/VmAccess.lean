import KPanic.Kernel.VmFaults

/-!
# Memory accesses

A read or write ends after a bounded number of faults, and does to the private memory of its
process what `Proc.access` does.
-/

namespace KPanic

open Function
open PageTree
open CopyOnWrite
open Wp

variable {kept : ℕ → Prop} {own own' : Own} {s s' : Kernel} {v p r proc address n : ℕ}
  {pr : UserProcess} {P P' : Proc} {value : Option ℕ} {content : Content}
  {D : ℕ → ℕ → Prop}

/-! ### The number of faults -/

namespace Proc

/-- Accesses and faults until an access at `address` comes to an end. -/
def tries (P : Proc) (address : ℕ) : ℕ :=
  if P.called_exit_ then 1
  else
    match P.lookup address with
    | some _ => 2
    | none =>
      match (addrIsWithinAnyUserStack P.thread_list_ address).bind (P.thread_list_[·]?) with
      | some t => max 3 (14 - (t.stack_pages_ + 1).toNat)
      | none => 3

theorem tries_exit : P.exit.tries address = 1 := rfl

theorem tries_le : P.tries address ≤ 14 := by
  unfold tries
  split
  · omega
  · split
    · omega
    · split
      · omega
      · omega

theorem tries_le_two (h : P.lookup address ≠ none) : P.tries address ≤ 2 := by
  unfold tries
  split
  · omega
  · split
    · omega
    · rename_i hnone
      exact absurd hnone h

theorem lookup_map (huser : address < USER_BREAK) {page : Page} :
    (P.map (address / PAGE_SIZE) page).lookup address = some page := by
  rw [lookup, if_pos huser]
  exact update_self _ _ _

theorem stack_modify (l : List UserThread) (i : ℕ) (pages : BitVec 16) :
    addrIsWithinAnyUserStack (l.modify i fun t => { t with stack_pages_ := pages }) address =
      addrIsWithinAnyUserStack l address := by
  unfold addrIsWithinAnyUserStack
  split
  · rfl
  · induction l generalizing i with
    | nil => simp
    | cons t l ih =>
      cases i with
      | zero => simp [List.findIdx?_cons]
      | succ i =>
        rw [List.modify_succ_cons, List.findIdx?_cons, List.findIdx?_cons, ih]

/-- A fault brings the access closer to its end. -/
theorem fault_tries (hexit : P.called_exit_ = false) (hnone : P.lookup address = none) :
    (P.fault address content).tries address + 1 ≤ P.tries address := by
  have htries : P.tries address =
      match (addrIsWithinAnyUserStack P.thread_list_ address).bind (P.thread_list_[·]?) with
      | some t => max 3 (14 - (t.stack_pages_ + 1).toNat)
      | none => 3 := by
    rw [tries, if_neg (by rw [hexit]; decide), hnone]
  have hthree : 3 ≤ P.tries address := by
    rw [htries]
    split
    · exact Nat.le_max_left _ _
    · exact Nat.le_refl 3
  unfold fault
  split
  · rw [tries_exit]
    omega
  · rename_i hrange
    have huser : address < USER_BREAK := Nat.not_le.mp fun h => hrange (.inr h)
    cases hstack : addrIsWithinAnyUserStack P.thread_list_ address with
    | none =>
      cases content with
      | found page =>
        have h2 : (P.map (address / PAGE_SIZE) page).tries address ≤ 2 :=
          tries_le_two (by rw [lookup_map huser]; exact Option.some_ne_none _)
        show (P.map (address / PAGE_SIZE) page).tries address + 1 ≤ _
        omega
      | unreadable =>
        show P.exit.tries address + 1 ≤ _
        rw [tries_exit]
        omega
      | noSection =>
        show P.exit.tries address + 1 ≤ _
        rw [tries_exit]
        omega
    | some thread =>
      show (P.growStack thread).tries address + 1 ≤ _
      rw [hstack, Option.bind_some] at htries
      unfold growStack
      cases ht : P.thread_list_[thread]? with
      | none =>
        unfold addrIsWithinAnyUserStack at hstack
        split at hstack
        · cases hstack
        · have hlt := (List.findIdx?_eq_some_iff_findIdx_eq.mp hstack).1
          rw [List.getElem?_eq_getElem hlt] at ht
          cases ht
      | some t =>
        rw [ht] at htries
        dsimp only at htries ⊢
        split
        · rw [tries_exit]
          omega
        · rename_i hgrow
          have hmax : (t.stack_pages_ + 1).toNat ≤ 10 := Nat.not_lt.mp fun h => hgrow (.inl h)
          have hnext : (t.stack_pages_ + 1 + 1).toNat = (t.stack_pages_ + 1).toNat + 1 := by
            generalize t.stack_pages_ + 1 = pages at hmax ⊢
            rw [BitVec.toNat_add]
            exact Nat.mod_eq_of_lt (Nat.lt_of_le_of_lt (Nat.succ_le_succ hmax) (by decide))
          have hpages : 14 - (t.stack_pages_ + 1).toNat ≤ P.tries address := by
            rw [htries]
            exact Nat.le_max_right _ _
          generalize P.tries address = bound at hthree hpages ⊢
          unfold tries
          split
          · omega
          · split
            · omega
            · rw [stack_modify, hstack, Option.bind_some, List.getElem?_modify_eq, ht]
              show max 3 (14 - (t.stack_pages_ + 1 + 1).toNat) + 1 ≤ _
              rw [hnext]
              omega

theorem access_mono (h : access address value content n P = some P') :
    access address value content (n + 1) P = some P' := by
  induction n generalizing P with
  | zero => cases h
  | succ n ih =>
    rw [access] at h ⊢
    split at h
    · rename_i hexit
      rw [if_pos hexit]
      exact h
    · rename_i hexit
      rw [if_neg hexit]
      cases hl : P.lookup address with
      | none =>
        rw [hl] at h
        exact ih h
      | some page =>
        rw [hl] at h
        exact h

theorem access_le {m : ℕ} (h : access address value content n P = some P') (hm : n ≤ m) :
    access address value content m P = some P' := by
  induction m, hm using Nat.le_induction with
  | base => exact h
  | succ m _ ih => exact access_mono ih

theorem access_exited (hexit : P.called_exit_ = true) :
    access address value content (n + 1) P = some P := by
  rw [access, if_pos hexit]

theorem access_some (hexit : P.called_exit_ = false) {page : Page}
    (hl : P.lookup address = some page) :
    access address value content (n + 1) P = some (P.store address page value) := by
  rw [access, if_neg (by rw [hexit]; decide), hl]

theorem access_none (hexit : P.called_exit_ = false) (hl : P.lookup address = none) :
    access address value content (n + 1) P =
      access address value content n (P.fault address content) := by
  rw [access, if_neg (by rw [hexit]; decide), hl]

end Proc

/-! ### The hardware's walk -/

theorem translate_table (T : Tables kept own s)
    (hv : paging.InRange v) {l t : ℕ} (hl : l ≠ 0) (ht : own t = some (placeOf r l v)) :
    translate s.memory v l t = (space own s.memory r v).map fun y => (y.1, true, y.2) := by
  induction l generalizing t with
  | zero => exact absurd rfl hl
  | succ l ih =>
    have hi : paging.slot v (l + 1) < paging.width (l + 1) := paging.slot_lt hv
    have hslot : v / PAGE_TABLE_ENTRIES ^ l % PAGE_TABLE_ENTRIES = paging.slot v (l + 1) := rfl
    have hstep := paging.index_step v (l := l + 1) (by omega)
    rw [paging_B, Nat.add_sub_cancel] at hstep
    have hleaf : l = 0 →
        space own s.memory r v = KPanic.leaf (s.memory t (paging.slot v (l + 1))) := by
      rintro rfl
      rw [placeOf, pow_one] at ht
      rw [space_eq T.tree ht, slot_eq.1]
    unfold translate
    rw [hslot]
    by_cases hpres : present.get (s.memory t (paging.slot v (l + 1))) = 0
    · rw [if_pos hpres, space_none_of_link T.tree ht hi (if_pos hpres), Option.map_none]
      rw [Nat.add_sub_cancel]
      exact hstep.symm
    · obtain ⟨-, htable, hpage⟩ := (T.words ht hi).flags hpres
      have hchild := T.tree.child ht hi (target_of_present hpres)
      generalize s.memory t (paging.slot v (l + 1)) = w at hpres htable hpage hchild hleaf ⊢
      rw [if_neg hpres]
      cases l with
      | zero =>
        rw [hleaf rfl, leaf, if_neg hpres]
        simp [translate, hpage rfl]
      | succ l =>
        obtain ⟨huser, hwrite⟩ := htable (by omega)
        rw [childRole_of_ne paging r _ _ (by omega), paging_B, hstep] at hchild
        rw [ih (by omega) hchild]
        cases space own s.memory r v with
        | none => rfl
        | some y => simp [huser, hwrite]

theorem translate_eq (V : VmInv kept own s) (hpr : s.process_list_ proc = some pr)
    (huser : address < USER_BREAK) :
    translate s.memory (address / PAGE_SIZE) 4 pr.page_map_level_4_ =
      (space own s.memory pr.page_map_level_4_ (address / PAGE_SIZE)).map fun y => (y.1, true, y.2) := by
  have hr := V.root (rootOf_eq hpr)
  have hv := inRange_of_user huser
  refine translate_table V.tables hv (by decide) ?_
  rw [placeOf, ← paging_H, ← paging_B, paging.index_root hv]
  exact hr

/-! ### Accesses that no fault stops -/

/-- A page that may be written is mapped at one place. -/
theorem VmInv.mapped_once (V : VmInv kept own s) (hm : space own s.memory r v = some (p, true))
    {r' u : ℕ} {b : Bool} (hm' : space own s.memory r' u = some (p, b)) : r' = r ∧ u = v := by
  have hsole := (V.sharing.sole hm ((V.sharing.writes_iff hm).mp rfl)).2
  exact ⟨hsole r' u b hm', V.sharing.place hm hm'⟩

/-- A write to such a page is seen there only. -/
theorem VmInv.setPage (V : VmInv kept own s) (hm : space own s.memory r v = some (p, true)) (page : Page) :
    VmInv kept own (s.setPage p page) ∧ space own (s.setPage p page).memory = space own s.memory ∧
      ∀ r' u, pageAt own (s.setPage p page) r' u = if r' = r ∧ u = v then some page else pageAt own s r' u := by
  have hmapped := V.mapped hm
  have T := V.tables.setPage (f := page) hmapped.1 hmapped.2
  have hspace : space own (s.setPage p page).memory = space own s.memory := by
    refine space_congr V.tables.tree T.tree fun hu => update_of_ne ?_ _ _
    rintro rfl
    exact hmapped.2 ⟨_, _, _, hu⟩
  refine ⟨⟨T, ?_, V.root, V.counter⟩, hspace, fun r' u => ?_⟩
  · rw [hspace]
    exact V.sharing
  · unfold pageAt view
    rw [hspace]
    split
    · rename_i hit
      rw [hit.1, hit.2, hm]
      exact congrArg some (update_self _ _ _)
    · rename_i miss
      cases hx : space own s.memory r' u with
      | none => rfl
      | some x =>
        refine congrArg some (update_of_ne ?_ _ _)
        rintro rfl
        exact miss (V.mapped_once hm hx)

theorem wp_store (V : VmInv kept own s) (hpr : s.process_list_ proc = some pr)
    (hm : space own s.memory pr.page_map_level_4_ v = some (p, true)) {page : Page}
    {Q : PUnit → Kernel → Prop}
    (hQ : ∀ s', Acts kept own own s s' proc pr ((absProc own s pr).map v page) D → Q ⟨⟩ s') :
    wp OutOfMemory (Kern.setPage p page) Q s := by
  obtain ⟨V', hspace, hview⟩ := V.setPage hm page
  rw [wp_setPage]
  refine hQ _ ⟨V', fun _ => Iff.rfl, ?_, ?_, ?_, ?_, rfl, rfl⟩
  · show s.process_list_ = update s.process_list_ proc (some pr)
    rw [← hpr, update_eq_self]
  · funext u
    show _ = update (pageAt own s pr.page_map_level_4_) v (some page) u
    rw [hview]
    by_cases hu : u = v
    · rw [if_pos ⟨rfl, hu⟩, hu, update_self]
    · rw [if_neg fun h => hu h.2, update_of_ne hu]
  · intro r' hr'
    funext u
    rw [hview, if_neg fun h => hr' h.1]
  · intro r' u c b hc _
    rw [hspace]
    exact ⟨b, hc⟩

/-- The memory of a process holds what its page tables map. -/
theorem lookup_of_space {b : Bool} (huser : address < USER_BREAK)
    (hm : space own s.memory pr.page_map_level_4_ (address / PAGE_SIZE) = some (p, b)) :
    (absProc own s pr).lookup address = some (s.memory p) := by
  rw [Proc.lookup, if_pos huser]
  show view (space own s.memory) s.memory _ _ = _
  rw [view, hm]
  rfl

theorem wp_access_permitted (V : VmInv kept own s) (hpr : s.process_list_ proc = some pr)
    (hexit : pr.called_exit_ = false) (huser : address < USER_BREAK) {b : Bool}
    (hm : space own s.memory pr.page_map_level_4_ (address / PAGE_SIZE) = some (p, b))
    (hb : value = none ∨ b = true) {Q : PUnit → Kernel → Prop}
    (hQ : ∀ s', Acts kept own own s s' proc pr
      ((absProc own s pr).store address (s.memory p) value) D → Q ⟨⟩ s') :
    wp OutOfMemory (access proc address value content (n + 1)) Q s := by
  unfold access
  rw [wp_bind, wp_get, hpr]
  dsimp only
  rw [if_neg (by rw [hexit]; decide), if_pos huser, translate_eq V hpr huser, hm]
  dsimp only [Option.map_some]
  cases value with
  | none =>
    rw [if_pos (by rfl), wp_pure]
    exact hQ s (Acts.of_quiet V Quiet.refl hpr)
  | some x =>
    obtain rfl : b = true := hb.resolve_left nofun
    rw [if_pos (by rfl)]
    exact wp_store V hpr hm hQ

/-! ### Accesses with faults -/

namespace Proc

/-- Nothing is mapped where null pointers point to. -/
def NullFree (P : Proc) : Prop := P.memory 0 = none

theorem NullFree.map (h : P.NullFree) (hv : v ≠ 0) {page : Page} : (P.map v page).NullFree :=
  (update_of_ne hv.symm _ _).trans h

theorem NullFree.fault (h : P.NullFree) : (P.fault address content).NullFree := by
  unfold Proc.fault
  split
  · exact h
  · rename_i hrange
    split
    · rename_i thread _
      unfold growStack
      split
      · exact h
      · rename_i t _
        dsimp only
        split
        · exact h
        · rename_i hgrow
          have hpos := stackVpn_pos t.stack_start_addr_ (Nat.not_lt.mp fun hmax => hgrow (.inl hmax))
          exact h.map hpos.ne'
    · unfold load
      split
      · have hlow : PAGE_SIZE ≤ address := Nat.not_lt.mp fun hlow => hrange (.inl hlow)
        exact h.map (Nat.div_pos hlow (by decide)).ne'
      · exact h
      · exact h

theorem NullFree.store (h : P.NullFree) {page : Page} (hl : P.lookup address = some page) :
    (P.store address page value).NullFree := by
  cases value with
  | none => exact h
  | some x =>
    refine h.map fun hzero => ?_
    unfold lookup at hl
    split at hl
    · rw [hzero, h] at hl
      cases hl
    · cases hl

theorem NullFree.access (h : P.NullFree) (hrun : access address value content n P = some P') : P'.NullFree := by
  induction n generalizing P with
  | zero => cases hrun
  | succ n ih =>
    unfold Proc.access at hrun
    split at hrun
    · cases hrun
      exact h
    · split at hrun
      · exact ih h.fault hrun
      · rename_i page hl
        cases hrun
        exact h.store hl

end Proc

theorem Proc.tries_pos : 0 < P.tries address := by
  unfold tries
  split
  · omega
  · split
    · omega
    · split
      · omega
      · omega

theorem Proc.two_le_tries (hexit : P.called_exit_ = false) (hl : P.lookup address ≠ none) :
    2 ≤ P.tries address := by
  unfold tries
  rw [if_neg (by rw [hexit]; decide)]
  split
  · exact Nat.le_refl 2
  · rename_i hnone
    exact absurd hnone hl

theorem space_none_of_kernel (h : USER_BREAK ≤ address) {memory : ℕ → Page} :
    space own memory r (address / PAGE_SIZE) = none := by
  rw [space, if_neg]
  rintro ⟨-, hv⟩
  have htop : paging.top = 256 := rfl
  rw [Shape.InRange, htop] at hv
  simp only [paging_B, paging_H, PAGE_TABLE_ENTRIES, PAGE_SIZE, USER_BREAK] at h hv
  omega

/-- A write to a shared page: after the fault the process has the page for itself. -/
theorem wp_access_shared {x : ℕ} (V : VmInv kept own s) (hpr : s.process_list_ proc = some pr)
    (hexit : pr.called_exit_ = false) (huser : address < USER_BREAK)
    (hm : space own s.memory pr.page_map_level_4_ (address / PAGE_SIZE) = some (p, false))
    (hnull : (absProc own s pr).NullFree) {Q : PUnit → Kernel → Prop}
    (hQ : ∀ own' s', Acts kept own own' s s' proc pr
      ((absProc own s pr).store address (s.memory p) (some x))
      (movedAt own s pr.page_map_level_4_ (address / PAGE_SIZE)) → Q ⟨⟩ s') :
    wp OutOfMemory (access proc address (some x) content (n + 2)) Q s := by
  have hlow : ¬address < null_reference_check_border_ := by
    intro hlow
    have hzero : address / PAGE_SIZE = 0 := Nat.div_eq_of_lt hlow
    rw [hzero, pageAt_none.mp hnull] at hm
    cases hm
  have hshared : s.cow_map_ p ≠ [] := by
    intro h
    have hw := (V.sharing.writes_iff hm).mpr h
    cases hw
  have hdenied : ¬(true && ((some x).isNone || false)) = true := by simp
  unfold access
  rw [wp_bind, wp_get, hpr]
  dsimp only
  rw [if_neg (by rw [hexit]; decide), if_pos huser, translate_eq V hpr huser, hm]
  dsimp only [Option.map_some]
  rw [if_neg hdenied, wp_bind]
  refine wp_handlePageFault_shared V hpr hlow huser hm fun own₁ s₁ V₁ U => ?_
  have h₁ := U.acts V₁ hpr hm hshared
  obtain ⟨q, hq, -⟩ := U.page
  have hpage : s₁.memory q = s.memory p := by
    have hview := congrFun (congrFun U.view pr.page_map_level_4_) (address / PAGE_SIZE)
    rw [pageAt, pageAt, view, view, hq, hm] at hview
    exact Option.some.inj hview
  refine wp_access_permitted (D := stays) V₁ h₁.self hexit huser hq (.inr rfl) fun s₂ h₂ => ?_
  rw [hpage, absProc_congr (congrFun U.view _)] at h₂
  exact hQ own₁ s₂ (h₁.trans h₂ fun _ _ => id)

/-- The access ends after at most `tries` faults, in what `Proc.access` says. -/
theorem wp_access (V : VmInv kept own s) (hpr : s.process_list_ proc = some pr)
    (hnull : (absProc own s pr).NullFree) (hn : (absProc own s pr).tries address ≤ n) {Q : PUnit → Kernel → Prop}
    (hQ : ∀ own' s' P', Proc.access address value content n (absProc own s pr) = some P' →
      Acts kept own own' s s' proc pr P' (movedAt own s pr.page_map_level_4_ (address / PAGE_SIZE)) →
      Q ⟨⟩ s') :
    wp OutOfMemory (access proc address value content n) Q s := by
  induction n generalizing own s pr Q with
  | zero => exact absurd hn (Nat.not_le.mpr Proc.tries_pos)
  | succ n ih =>
    cases hexit : pr.called_exit_ with
    | true =>
      unfold access
      rw [wp_bind, wp_get, hpr]
      dsimp only
      rw [if_pos hexit, wp_pure]
      exact hQ own s _ (Proc.access_exited hexit) (Acts.of_quiet V Quiet.refl hpr)
    | false =>
      cases hspace : space own s.memory pr.page_map_level_4_ (address / PAGE_SIZE) with
      | none =>
        have hwalk : (if address < USER_BREAK then
            translate s.memory (address / PAGE_SIZE) 4 pr.page_map_level_4_ else none) = none := by
          split
          · rename_i huser
            rw [translate_eq V hpr huser, hspace]
            rfl
          · rfl
        have hlookup : (absProc own s pr).lookup address = none := by
          unfold Proc.lookup
          split
          · exact pageAt_none.mpr hspace
          · rfl
        have htries : ((absProc own s pr).fault address content).tries address + 1 ≤ _ := Proc.fault_tries hexit hlookup
        unfold access
        rw [wp_bind, wp_get, hpr]
        dsimp only
        rw [if_neg (by rw [hexit]; decide), hwalk, wp_bind]
        refine wp_handlePageFault_unmapped V hpr (fun _ => hspace)
          (D := movedAt own s pr.page_map_level_4_ (address / PAGE_SIZE)) fun own₁ s₁ h₁ => ?_
        refine ih h₁.inv h₁.self (by rw [h₁.absProc]; exact hnull.fault) (by rw [h₁.absProc]; omega) fun own₂ s₂ P₂ hP₂ h₂ => ?_
        rw [h₁.absProc] at hP₂
        refine hQ own₂ s₂ P₂ (by rw [Proc.access_none hexit hlookup, hP₂]) (h₁.trans h₂ ?_)
        rintro r' u hm - ⟨rfl, rfl, -⟩
        exact hm hspace
      | some y =>
        obtain ⟨p, b⟩ := y
        have huser : address < USER_BREAK := by
          by_contra hge
          rw [space_none_of_kernel (Nat.not_lt.mp hge)] at hspace
          cases hspace
        have hP : Proc.access address value content (n + 1) (absProc own s pr) =
            some ((absProc own s pr).store address (s.memory p) value) :=
          Proc.access_some hexit (lookup_of_space huser hspace)
        by_cases hb : value = none ∨ b = true
        · exact wp_access_permitted V hpr hexit huser hspace hb fun s' h => hQ own s' _ hP h
        · obtain ⟨hvalue, hwrite⟩ := not_or.mp hb
          obtain ⟨x, rfl⟩ := Option.ne_none_iff_exists'.mp hvalue
          rw [Bool.eq_false_iff.mpr hwrite] at hspace
          have htwo := Proc.two_le_tries (P := absProc own s pr) hexit
            (by rw [lookup_of_space huser hspace]; exact Option.some_ne_none _)
          obtain ⟨m, rfl⟩ : ∃ m, n = m + 1 := ⟨n - 1, by omega⟩
          exact wp_access_shared V hpr hexit huser hspace hnull fun own' s' h => hQ own' s' _ hP h

end KPanic
