import Mathlib.Data.List.Nodup
import KPanic.Fs.DirectoryEntries

/-!
# The tree after an entry was made or removed
-/

namespace KPanic.DeviceFS

open Function

variable {s s' : Fs} {loc : Loc} {a : Namespace} {c d p i : ℕ} {l : Location} {n : Name} {C D P : Dentry} {I : Inode}
  {type : InodeType}

/-- Addresses that `new` has not given yet. -/
def Fresh (s : Fs) : Prop := ∀ x, s.brk ≤ x → s.dentry x = none ∧ s.inode x = none ∧ s.file x = none

theorem append_ne {l : Location} {n n' : Name} : l ++ [n] ≠ l ++ [n] ++ [n'] := by
  intro h
  have hlen := congrArg List.length h
  simp at hlen

theorem append_inj {l l' : Location} {n n' : Name} (h : l ++ [n] = l' ++ [n']) : l = l' ∧ n = n' := by
  obtain ⟨hl, hn⟩ := List.append_inj' h rfl
  exact ⟨hl, List.cons.inj hn |>.1⟩

/-! ### What is where -/

theorem created_dentry (hd : (s.created p P n type).dentry d = some D) :
    d = s.brk ∧ D = ⟨some (s.brk + 1), some p, [], n⟩ ∨ d = p ∧ D = { P with d_child_ := P.d_child_ ++ [s.brk] } ∨
      d ≠ s.brk ∧ d ≠ p ∧ s.dentry d = some D := by
  have hd' : update (update s.dentry p (some { P with d_child_ := P.d_child_ ++ [s.brk] })) s.brk
    (some ⟨some (s.brk + 1), some p, [], n⟩) d = some D := hd
  by_cases hdb : d = s.brk
  · rw [hdb, update_self] at hd'
    exact .inl ⟨hdb, (Option.some.inj hd').symm⟩
  · rw [update_of_ne hdb] at hd'
    by_cases hdp : d = p
    · rw [hdp, update_self] at hd'
      exact .inr (.inl ⟨hdp, (Option.some.inj hd').symm⟩)
    · rw [update_of_ne hdp] at hd'
      exact .inr (.inr ⟨hdb, hdp, hd'⟩)

theorem created_inode (hi : (s.created p P n type).inode i = some I) :
    i = s.brk + 1 ∧ I = ⟨type, BASIC_ALLOC, RamFSInode.newData type, some s.brk, []⟩ ∨ i ≠ s.brk + 1 ∧ s.inode i = some I := by
  have hi' : update s.inode (s.brk + 1) (some ⟨type, BASIC_ALLOC, RamFSInode.newData type, some s.brk, []⟩) i = some I := hi
  by_cases hib : i = s.brk + 1
  · rw [hib, update_self] at hi'
    exact .inl ⟨hib, (Option.some.inj hi').symm⟩
  · rw [update_of_ne hib] at hi'
    exact .inr ⟨hib, hi'⟩

theorem created_dentry_old (hfresh : Fresh s) (hd : s.dentry d = some D) (hdp : d ≠ p) :
    (s.created p P n type).dentry d = some D := by
  have hdb : d ≠ s.brk := by
    rintro rfl
    rw [(hfresh _ (Nat.le_refl _)).1] at hd
    cases hd
  exact (update_of_ne hdb _ _).trans ((update_of_ne hdp _ _).trans hd)

theorem created_inode_old (hfresh : Fresh s) (hi : s.inode i = some I) : (s.created p P n type).inode i = some I := by
  have hib : i ≠ s.brk + 1 := by
    rintro rfl
    rw [(hfresh _ (Nat.le_succ _)).2.1] at hi
    cases hi
  exact (update_of_ne hib _ _).trans hi

theorem removed_dentry (h : (s.removed p P d i).dentry c = some C) :
    c ≠ d ∧ (c = p ∧ C = { P with d_child_ := P.d_child_.filter (· ≠ d) } ∨ c ≠ p ∧ s.dentry c = some C) := by
  have h' : update (update s.dentry p (some { P with d_child_ := P.d_child_.filter (· ≠ d) })) d none c = some C := h
  by_cases hcd : c = d
  · rw [hcd, update_self] at h'
    cases h'
  · rw [update_of_ne hcd] at h'
    by_cases hcp : c = p
    · rw [hcp, update_self] at h'
      exact ⟨hcd, .inl ⟨hcp, (Option.some.inj h').symm⟩⟩
    · rw [update_of_ne hcp] at h'
      exact ⟨hcd, .inr ⟨hcp, h'⟩⟩

theorem removed_inode {j : ℕ} (h : (s.removed p P d i).inode j = some I) : j ≠ i ∧ s.inode j = some I := by
  have h' : update s.inode i none j = some I := h
  by_cases hji : j = i
  · rw [hji, update_self] at h'
    cases h'
  · rw [update_of_ne hji] at h'
    exact ⟨hji, h'⟩

namespace Tree

/-! ### A new entry -/

theorem created (T : Tree s loc) (hp : s.dentry p = some P) (hl : loc p = some l) (hfresh : Fresh s)
    (habsent : ∀ c, loc c ≠ some (l ++ [n])) : Tree (s.created p P n type) (update loc s.brk (some (l ++ [n]))) := by
  have hnew : s.dentry s.brk = none := (hfresh _ (Nat.le_refl _)).1
  have hloc : loc s.brk = none := T.live.mpr hnew
  have hne : ∀ {c l}, loc c = some l → c ≠ s.brk := by
    rintro c l hc rfl
    rw [hloc] at hc
    cases hc
  have hbelow : ∀ {c n'}, loc c ≠ some (l ++ [n] ++ [n']) := by
    intro c n' hc
    obtain ⟨C, hC⟩ := T.dentry hc
    obtain ⟨-, q, -, hq⟩ := T.parent hC hc
    exact habsent q hq
  have hpb := hne hl
  -- the dentries that there were have changed in their children only
  have hold : ∀ {c C'}, c ≠ s.brk → (s.created p P n type).dentry c = some C' → ∃ C, s.dentry c = some C ∧
      C'.d_name_ = C.d_name_ ∧ C'.d_parent_ = C.d_parent_ ∧
      C'.d_child_ = if c = p then C.d_child_ ++ [s.brk] else C.d_child_ := by
    intro c C' hc hC'
    obtain ⟨hcb, -⟩ | ⟨rfl, rfl⟩ | ⟨-, hcp, hC⟩ := created_dentry hC'
    · exact absurd hcb hc
    · exact ⟨P, hp, rfl, rfl, (if_pos rfl).symm⟩
    · exact ⟨C', hC, rfl, rfl, (if_neg hcp).symm⟩
  have hself : (s.created p P n type).dentry s.brk = some ⟨some (s.brk + 1), some p, [], n⟩ := update_self _ _ _
  refine ⟨?_, ?_, ?_, ?_, ?_, ?_⟩
  · intro d
    by_cases hd : d = s.brk
    · rw [hd, update_self, hself]
      exact iff_of_false nofun nofun
    · rw [update_of_ne hd, T.live]
      show _ ↔ update (update s.dentry p _) s.brk _ d = none
      rw [update_of_ne hd]
      by_cases hdp : d = p
      · rw [hdp, update_self, hp]
        exact iff_of_false nofun nofun
      · rw [update_of_ne hdp]
  · exact (update_of_ne (hne T.root) _ _).trans T.root
  · intro d d' l' hd hd'
    by_cases hdb : d = s.brk
    · by_cases hdb' : d' = s.brk
      · rw [hdb, hdb']
      · rw [hdb, update_self] at hd
        rw [update_of_ne hdb', ← hd] at hd'
        exact absurd hd' (habsent d')
    · rw [update_of_ne hdb] at hd
      by_cases hdb' : d' = s.brk
      · rw [hdb', update_self] at hd'
        rw [← hd'] at hd
        exact absurd hd (habsent d)
      · rw [update_of_ne hdb'] at hd'
        exact T.inj hd hd'
  · intro q Q l' c hQ hq
    by_cases hqb : q = s.brk
    · rw [hqb, hself] at hQ
      rw [hqb, update_self] at hq
      cases hQ
      cases hq
      refine iff_of_false List.not_mem_nil ?_
      rintro ⟨n', hc⟩
      by_cases hcb : c = s.brk
      · rw [hcb, update_self] at hc
        exact append_ne (Option.some.inj hc)
      · rw [update_of_ne hcb] at hc
        exact hbelow hc
    · rw [update_of_ne hqb] at hq
      obtain ⟨C, hC, -, -, hchild⟩ := hold hqb hQ
      rw [hchild]
      have hiff := T.child (c := c) hC hq
      by_cases hcb : c = s.brk
      · have hnot : c ∉ C.d_child_ := fun hmem => by
          obtain ⟨n', hc⟩ := hiff.mp hmem
          exact hne hc hcb
        rw [hcb, update_self]
        split
        · rename_i hqp
          rw [hqp, hl] at hq
          cases hq
          exact iff_of_true (by simp) ⟨n, rfl⟩
        · rename_i hqp
          refine iff_of_false (hcb ▸ hnot) ?_
          rintro ⟨n', hc⟩
          obtain ⟨rfl, -⟩ := append_inj (Option.some.inj hc)
          exact hqp (T.inj hq hl)
      · rw [update_of_ne hcb, ← hiff]
        split
        · simp [hcb]
        · rfl
  · intro c C' l' n' hC' hc
    by_cases hcb : c = s.brk
    · rw [hcb, hself] at hC'
      rw [hcb, update_self] at hc
      cases hC'
      obtain ⟨rfl, rfl⟩ := append_inj (Option.some.inj hc)
      exact ⟨rfl, p, rfl, by rw [update_of_ne hpb]; exact hl⟩
    · obtain ⟨C, hC, hname, hparent, -⟩ := hold hcb hC'
      rw [update_of_ne hcb] at hc
      obtain ⟨hn, q, hq, hqloc⟩ := T.parent hC hc
      exact ⟨hname.trans hn, q, hparent.trans hq, by rw [update_of_ne (hne hqloc)]; exact hqloc⟩
  · intro D' hD'
    obtain ⟨D, hD, hname, hparent, -⟩ := hold (hne T.root) hD'
    exact ⟨hname.trans (T.top hD).1, hparent.trans (T.top hD).2⟩

/-! ### An entry is gone -/

theorem removed (T : Tree s loc) (hp : s.dentry p = some P) (hl : loc p = some l) (hd : loc d = some (l ++ [n]))
    (hleaf : ∀ c n', loc c ≠ some (l ++ [n] ++ [n'])) : Tree (s.removed p P d i) (update loc d none) := by
  have hpd : p ≠ d := by
    rintro rfl
    exact absurd (congrArg List.length (Option.some.inj (hl.symm.trans hd))) (by simp)
  have hold : ∀ {c C'}, (s.removed p P d i).dentry c = some C' → c ≠ d ∧ ∃ C, s.dentry c = some C ∧
      C'.d_name_ = C.d_name_ ∧ C'.d_parent_ = C.d_parent_ ∧
      C'.d_child_ = if c = p then C.d_child_.filter (· ≠ d) else C.d_child_ := by
    intro c C' hC'
    obtain ⟨hcd, ⟨rfl, rfl⟩ | ⟨hcp, hC⟩⟩ := removed_dentry hC'
    · exact ⟨hcd, P, hp, rfl, rfl, (if_pos rfl).symm⟩
    · exact ⟨hcd, C', hC, rfl, rfl, (if_neg hcp).symm⟩
  refine ⟨?_, ?_, ?_, ?_, ?_, ?_⟩
  · intro c
    show _ ↔ update (update s.dentry p _) d none c = none
    by_cases hcd : c = d
    · rw [hcd, update_self, update_self]
      exact iff_of_true rfl rfl
    · rw [update_of_ne hcd, update_of_ne hcd, T.live]
      by_cases hcp : c = p
      · rw [hcp, update_self, hp]
        exact iff_of_false nofun nofun
      · rw [update_of_ne hcp]
  · have hne : s.s_root_ ≠ d := (T.ne_root hd).symm
    exact (update_of_ne hne _ _).trans T.root
  · intro c c' l' hc hc'
    have hcd : c ≠ d := by rintro rfl; rw [update_self] at hc; cases hc
    have hcd' : c' ≠ d := by rintro rfl; rw [update_self] at hc'; cases hc'
    rw [update_of_ne hcd] at hc
    rw [update_of_ne hcd'] at hc'
    exact T.inj hc hc'
  · intro q Q l' c hQ hq
    obtain ⟨hqd, C, hC, -, -, hchild⟩ := hold hQ
    rw [update_of_ne hqd] at hq
    rw [hchild]
    have hiff := T.child (c := c) hC hq
    by_cases hcd : c = d
    · rw [hcd, update_self]
      refine iff_of_false ?_ nofun
      split
      · simp
      · rename_i hqp
        rw [hcd] at hiff
        rw [hiff]
        rintro ⟨n', hn'⟩
        rw [hd] at hn'
        obtain ⟨rfl, -⟩ := append_inj (Option.some.inj hn')
        exact hqp (T.inj hq hl)
    · rw [update_of_ne hcd, ← hiff]
      split
      · simp [hcd]
      · rfl
  · intro c C' l' n' hC' hc
    obtain ⟨hcd, C, hC, hname, hparent, -⟩ := hold hC'
    rw [update_of_ne hcd] at hc
    obtain ⟨hn, q, hq, hqloc⟩ := T.parent hC hc
    refine ⟨hname.trans hn, q, hparent.trans hq, ?_⟩
    rw [update_of_ne]
    · exact hqloc
    · rintro rfl
      rw [hd] at hqloc
      obtain rfl := Option.some.inj hqloc
      exact hleaf c n' hc
  · intro D' hD'
    obtain ⟨-, D, hD, hname, hparent, -⟩ := hold hD'
    exact ⟨hname.trans (T.top hD).1, hparent.trans (T.top hD).2⟩

end Tree

/-! ### Dentries and inodes -/

namespace Inodes

/-- No inode belongs to two dentries. -/
theorem inj (N : Inodes s) (hc : s.dentry c = some C) (hd : s.dentry d = some D) (hj : C.d_inode_ = some i)
    (hi : D.d_inode_ = some i) : c = d := by
  obtain ⟨i', I, hi', hI, hdentry⟩ := N.inode hd
  obtain ⟨j, J, hj', hJ, hdentry'⟩ := N.inode hc
  obtain rfl := Option.some.inj (hi'.symm.trans hi)
  obtain rfl := Option.some.inj (hj'.symm.trans hj)
  rw [hI] at hJ
  cases hJ
  exact Option.some.inj (hdentry'.symm.trans hdentry)

theorem created (N : Inodes s) (hfresh : Fresh s) (hp : s.dentry p = some P)
    (hdir : ∀ i I, P.d_inode_ = some i → s.inode i = some I → I.i_type_ = .I_DIR) : Inodes (s.created p P n type) := by
  have hpb : p ≠ s.brk := by
    rintro rfl
    rw [(hfresh _ (Nat.le_refl _)).1] at hp
    cases hp
  have hself : (s.created p P n type).dentry p = some { P with d_child_ := P.d_child_ ++ [s.brk] } :=
    (update_of_ne hpb _ _).trans (update_self _ _ _)
  refine ⟨fun {d D} hd => ?_, fun {i I} hi => ?_, fun {d D i I} hd hDi hi hchild => ?_, fun {i I} hi => ?_, fun {i} => ?_, ?_⟩
  · obtain ⟨hdb, hD⟩ | ⟨hdp, hD⟩ | ⟨-, -, hd⟩ := created_dentry hd
    · rw [hdb, hD]
      exact ⟨s.brk + 1, _, rfl, update_self _ _ _, rfl⟩
    · obtain ⟨i, I, hi, hI, hdentry⟩ := N.inode hp
      rw [hdp, hD]
      exact ⟨i, I, hi, created_inode_old hfresh hI, hdentry⟩
    · obtain ⟨i, I, hi, hI, hdentry⟩ := N.inode hd
      exact ⟨i, I, hi, created_inode_old hfresh hI, hdentry⟩
  · obtain ⟨hib, hI⟩ | ⟨-, hold⟩ := created_inode hi
    · rw [hib, hI]
      exact ⟨s.brk, _, rfl, update_self _ _ _, rfl⟩
    · obtain ⟨d, D, hdentry, hd, hDi⟩ := N.dentry hold
      by_cases hdp : d = p
      · rw [hdp, hp] at hd
        cases hd
        rw [hdp] at hdentry
        exact ⟨p, _, hdentry, hself, hDi⟩
      · exact ⟨d, D, hdentry, created_dentry_old hfresh hd hdp, hDi⟩
  · have hnew : ∀ {d D}, s.dentry d = some D → D.d_inode_ ≠ some (s.brk + 1) := by
      intro d D hd hDi
      obtain ⟨i, I, hi, hI, -⟩ := N.inode hd
      rw [Option.some.inj (hi.symm.trans hDi), (hfresh _ (Nat.le_succ _)).2.1] at hI
      cases hI
    obtain ⟨-, hD⟩ | ⟨-, hD⟩ | ⟨-, -, hd⟩ := created_dentry hd
    · rw [hD] at hchild
      exact absurd rfl hchild
    · obtain ⟨hib, -⟩ | ⟨-, hold⟩ := created_inode hi
      · rw [hD, hib] at hDi
        exact (hnew hp hDi).elim
      · rw [hD] at hDi
        exact hdir i I hDi hold
    · obtain ⟨hib, -⟩ | ⟨-, hold⟩ := created_inode hi
      · rw [hib] at hDi
        exact absurd hDi (hnew hd)
      · exact N.dir hd hDi hold hchild
  · obtain ⟨-, hI⟩ | ⟨-, hold⟩ := created_inode hi
    · rw [hI]
      refine ⟨rfl, ?_⟩
      cases type with
      | I_FILE => exact iff_of_true rfl (Option.some_ne_none _)
      | I_DIR => exact iff_of_false nofun (not_not.mpr rfl)
    · exact N.data hold
  · show i ∈ s.all_inodes_ ++ [s.brk + 1] ↔ update s.inode (s.brk + 1) _ i ≠ none
    rw [List.mem_append, List.mem_singleton, N.all]
    by_cases hib : i = s.brk + 1
    · rw [hib, update_self]
      exact iff_of_true (.inr rfl) (Option.some_ne_none _)
    · rw [update_of_ne hib]
      exact or_iff_left hib
  · show (s.all_inodes_ ++ [s.brk + 1]).Nodup
    refine List.nodup_append.mpr ⟨N.nodup, List.nodup_singleton _, fun x hx y hy => ?_⟩
    rintro rfl
    rw [List.mem_singleton] at hy
    rw [hy, N.all, (hfresh _ (Nat.le_succ _)).2.1] at hx
    exact hx rfl

theorem removed (N : Inodes s) (hp : s.dentry p = some P) (hpd : p ≠ d) (hd : s.dentry d = some D) (hi : D.d_inode_ = some i) :
    Inodes (s.removed p P d i) := by
  have hold : ∀ {c C'}, (s.removed p P d i).dentry c = some C' → c ≠ d ∧ ∃ C, s.dentry c = some C ∧
      C'.d_inode_ = C.d_inode_ ∧ (C.d_child_ = [] → C'.d_child_ = []) := by
    intro c C' h
    obtain ⟨hcd, ⟨rfl, rfl⟩ | ⟨-, hC⟩⟩ := removed_dentry h
    · exact ⟨hcd, P, hp, rfl, fun hnil => by simp [hnil]⟩
    · exact ⟨hcd, C', hC, rfl, id⟩
  have hother : ∀ {c C j}, s.dentry c = some C → C.d_inode_ = some j → c ≠ d → j ≠ i := by
    rintro c C j hC hj hcd rfl
    exact hcd (N.inj hC hd hj hi)
  refine ⟨fun {c C'} h => ?_, fun {j J} h => ?_, fun {c C' j J} h hj hJ hchild => ?_, fun {j J} h => ?_, fun {j} => ?_, ?_⟩
  · obtain ⟨hcd, C, hC, hinode, -⟩ := hold h
    obtain ⟨j, J, hj, hJ, hdentry⟩ := N.inode hC
    exact ⟨j, J, hinode.trans hj, (update_of_ne (hother hC hj hcd) _ _).trans hJ, hdentry⟩
  · obtain ⟨hji, hJ⟩ := removed_inode h
    obtain ⟨c, C, hdentry, hC, hj⟩ := N.dentry hJ
    have hcd : c ≠ d := by
      rintro rfl
      rw [hd] at hC
      cases hC
      exact hji (Option.some.inj (hj.symm.trans hi))
    by_cases hcp : c = p
    · rw [hcp, hp] at hC
      cases hC
      rw [hcp] at hdentry
      exact ⟨p, _, hdentry, (update_of_ne hpd _ _).trans (update_self _ _ _), hj⟩
    · exact ⟨c, C, hdentry, (update_of_ne hcd _ _).trans ((update_of_ne hcp _ _).trans hC), hj⟩
  · obtain ⟨hcd, C, hC, hinode, hnil⟩ := hold h
    exact N.dir hC (hinode.symm.trans hj) (removed_inode hJ).2 (mt hnil hchild)
  · exact N.data (removed_inode h).2
  · show j ∈ s.all_inodes_.filter _ ↔ update s.inode i none j ≠ none
    rw [List.mem_filter, N.all]
    by_cases hji : j = i
    · rw [hji, update_self]
      exact iff_of_false (fun h => of_decide_eq_true h.2 rfl) (not_not.mpr rfl)
    · rw [update_of_ne hji]
      exact and_iff_left (decide_eq_true hji)
  · exact N.nodup.filter _

end Inodes

/-! ### Nodes -/

theorem Fs.node_congr (hd : (s'.dentry d).bind Dentry.d_inode_ = (s.dentry d).bind Dentry.d_inode_)
    (hi : ∀ i, (s.dentry d).bind Dentry.d_inode_ = some i → s'.inode i = s.inode i) : s'.node d = s.node d := by
  have hnode : ∀ t : Fs, t.node d = ((t.dentry d).bind Dentry.d_inode_).bind fun i => (t.inode i).map Inode.node := by
    intro t
    unfold Fs.node
    cases t.dentry d with
    | none => rfl
    | some D =>
      rw [Option.bind_eq_bind, Option.bind_some, Option.bind_some]
      cases D.d_inode_ with
      | none => rfl
      | some i =>
        rw [Option.bind_eq_bind, Option.bind_some, Option.bind_some]
        cases t.inode i with
        | none => rfl
        | some I => rfl
  rw [hnode, hnode, hd]
  cases h : (s.dentry d).bind Dentry.d_inode_ with
  | none => rfl
  | some i => rw [Option.bind_some, Option.bind_some, hi i h]

/-- What `create` puts at the new location. -/
def InodeType.node : InodeType → Node
  | .I_DIR => .dir
  | .I_FILE => .file fun _ => 0

namespace Named

theorem live (A : Named s loc a) (thread : ℕ) : loc (s.pwd_ thread) ≠ none := by
  rw [A.pwd]
  exact Option.some_ne_none _

theorem created (A : Named s loc a) (T : Tree s loc) (N : Inodes s) (hp : s.dentry p = some P) (hl : loc p = some l)
    (hfresh : Fresh s) (habsent : ∀ c, loc c ≠ some (l ++ [n])) :
    Named (s.created p P n type) (update loc s.brk (some (l ++ [n]))) (a.set (l ++ [n]) (some type.node)) := by
  have hnone : loc s.brk = none := T.live.mpr (hfresh _ (Nat.le_refl _)).1
  have hne : ∀ {c}, loc c ≠ none → c ≠ s.brk := by
    rintro c hc rfl
    exact hc hnone
  have hpb : p ≠ s.brk := hne (by rw [hl]; exact Option.some_ne_none _)
  have hsame : ∀ {d l'}, d ≠ s.brk → loc d = some l' → (s.created p P n type).node d = s.node d := by
    intro d l' hdb hloc
    refine Fs.node_congr ?_ fun i hi => ?_
    · show (update (update s.dentry p _) s.brk _ d).bind _ = _
      rw [update_of_ne hdb]
      by_cases hdp : d = p
      · rw [hdp, update_self, hp]
        rfl
      · rw [update_of_ne hdp]
    · obtain ⟨D, hD⟩ := T.dentry hloc
      obtain ⟨j, J, hj, hJ, -⟩ := N.inode hD
      rw [hD, Option.bind_some, hj] at hi
      cases hi
      rw [created_inode_old hfresh hJ, hJ]
  have hself : (s.created p P n type).node s.brk = some type.node := by
    have hdentry : (s.created p P n type).dentry s.brk = some ⟨some (s.brk + 1), some p, [], n⟩ := update_self _ _ _
    have hinode : (s.created p P n type).inode (s.brk + 1) =
      some ⟨type, BASIC_ALLOC, RamFSInode.newData type, some s.brk, []⟩ := update_self _ _ _
    rw [Fs.node, hdentry, Option.bind_eq_bind, Option.bind_some, Option.bind_eq_bind, Option.bind_some, hinode]
    cases type with
    | I_FILE => rfl
    | I_DIR => rfl
  refine ⟨fun {d l'} hd => ?_, fun {l'} h => ?_, fun thread => ?_⟩
  · by_cases hdb : d = s.brk
    · rw [hdb, update_self] at hd
      rw [hdb, hself, ← Option.some.inj hd]
      exact update_self _ _ _
    · rw [update_of_ne hdb] at hd
      rw [hsame hdb hd, ← A.node hd]
      refine update_of_ne ?_ _ _
      rintro rfl
      exact habsent d hd
  · by_cases hln : l' = l ++ [n]
    · exact ⟨s.brk, by rw [update_self, hln]⟩
    · have h' : a.node l' ≠ none := by
        rw [show (a.set (l ++ [n]) (some type.node)).node l' = a.node l' from update_of_ne hln _ _] at h
        exact h
      obtain ⟨d, hd⟩ := A.only h'
      refine ⟨d, (update_of_ne (hne ?_) _ _).trans hd⟩
      rw [hd]
      exact Option.some_ne_none _
  · exact (update_of_ne (hne (A.live thread)) _ _).trans (A.pwd thread)

theorem removed (A : Named s loc a) (T : Tree s loc) (N : Inodes s) (hp : s.dentry p = some P) (hd : s.dentry d = some D)
    (hi : D.d_inode_ = some i) (hl : loc d = some l) (hpwd : ∀ thread, a.pwd thread ≠ l) :
    Named (s.removed p P d i) (update loc d none) (a.set l none) := by
  have hsame : ∀ {c l'}, c ≠ d → loc c = some l' → (s.removed p P d i).node c = s.node c := by
    intro c l' hcd hloc
    refine Fs.node_congr ?_ fun j hj => ?_
    · show (update (update s.dentry p _) d none c).bind _ = _
      rw [update_of_ne hcd]
      by_cases hcp : c = p
      · rw [hcp, update_self, hp]
        rfl
      · rw [update_of_ne hcp]
    · refine update_of_ne ?_ _ _
      rintro rfl
      obtain ⟨C, hC⟩ := T.dentry hloc
      rw [hC, Option.bind_some] at hj
      exact hcd (N.inj hC hd hj hi)
  have hne : ∀ {c l'}, c ≠ d → loc c = some l' → l' ≠ l := by
    rintro c l' hcd hc rfl
    exact hcd (T.inj hc hl)
  refine ⟨fun {c l'} hc => ?_, fun {l'} h => ?_, fun thread => ?_⟩
  · by_cases hcd : c = d
    · rw [hcd, update_self] at hc
      cases hc
    · rw [update_of_ne hcd] at hc
      rw [hsame hcd hc, ← A.node hc]
      exact update_of_ne (hne hcd hc) _ _
  · by_cases hll : l' = l
    · rw [hll, show (a.set l none).node l = none from update_self _ _ _] at h
      exact absurd rfl h
    · rw [show (a.set l none).node l' = a.node l' from update_of_ne hll _ _] at h
      obtain ⟨c, hc⟩ := A.only h
      refine ⟨c, (update_of_ne ?_ _ _).trans hc⟩
      rintro rfl
      exact hll (Option.some.inj (hc.symm.trans hl))
  · refine (update_of_ne ?_ _ _).trans (A.pwd thread)
    intro h
    have hat : loc d = some (a.pwd thread) := h ▸ A.pwd thread
    rw [hl] at hat
    exact hpwd thread (Option.some.inj hat).symm

end Named

end KPanic.DeviceFS
