import KPanic.Fs.PathWalker

/-!
# Paths and the walks along them

A path is split at its separators, and its components are followed one after the other. `pathWalk`
does the same as long as it skips no component: one that begins with a dot is looked up behind an
ordinary name only, and a second separator behind `.` or `..` ends the walk.
-/

namespace KPanic.PathWalker

variable {Dentry VfsMount : Type} [DecidableEq Dentry] [DecidableEq VfsMount]

def dot : List Char := [CHAR_DOT]
def dotdot : List Char := [CHAR_DOT, CHAR_DOT]

/-- What lies between the separators. -/
def parts (pathname : List Char) : List (List Char) := pathname.splitOn SEPARATOR

/-- The components of a path: it is split at runs of separators. -/
def components (pathname : List Char) : List (List Char) := (parts pathname).filter (· ≠ [])

/-! ### What a path means -/

section Meaning

variable (vfs : Vfs Dentry VfsMount) (fs_info : FileSystemInfo Dentry VfsMount)

/-- The place under a name, at the root of what is mounted there. -/
def child (p : Place Dentry VfsMount) (name : List Char) : Option (Place Dentry VfsMount) :=
  (vfs.lookup p.dentry_ name).map fun found => mountDown vfs found p.vfs_mount_

def parent (p : Place Dentry VfsMount) : Place Dentry VfsMount :=
  if fs_info.isRoot p then p else { p with dentry_ := vfs.getParent p.dentry_ }

/-- The calls for the components one after the other, and the place that they lead to. -/
def follow : Place Dentry VfsMount → List (List Char) →
    List (Call Dentry) × Option (Place Dentry VfsMount)
  | p, [] => ([], some p)
  | p, name :: names =>
    if name = dot then follow p names
    else if name = dotdot then
      if fs_info.isRoot p then follow p names
      else
        let (calls, place) := follow (parent vfs fs_info p) names
        (.getParent p.dentry_ :: calls, place)
    else
      match child vfs p name with
      | some q =>
        let (calls, place) := follow q names
        (.lookup p.dentry_ name :: calls, place)
      | none => ([.lookup p.dentry_ name], none)

def followPath (pathname : List Char) : List (Call Dentry) × Option (Place Dentry VfsMount) :=
  match fs_info.start pathname with
  | some p => follow vfs fs_info p (components pathname)
  | none => ([], none)

/-- The walk makes these calls; it succeeds at this place, or finds nothing. -/
def Conforms (w : Walk Dentry VfsMount) (r : List (Call Dentry) × Option (Place Dentry VfsMount)) :
    Prop :=
  w.calls = r.1 ∧
    match r.2 with
    | some q => w.result = .PW_SUCCESS ∧ w.place = some q
    | none => w.result = .PW_ENOTFOUND

/-! ### Which paths are walked along -/

/-- Nothing that is left leads away from here. -/
def Stays (p : Place Dentry VfsMount) (rest : List (List Char)) : Prop :=
  ∀ name ∈ rest, name = [] ∨ name = dot ∨ name = dotdot ∧ fs_info.isRoot p

/-- As far as there is something under the names: behind `.` or `..` there is one separator, or
nothing that leads away, and other components that begin with a dot come behind an ordinary name.
`norm`: there was one, and neither `.` nor `..` since. -/
def Regular : Place Dentry VfsMount → Bool → List (List Char) → Prop
  | _, _, [] => True
  | p, norm, name :: rest =>
    if name = [] then Regular p norm rest
    else if name = dot then
      if rest.head? = some [] then Stays fs_info p rest else Regular p false rest
    else if name = dotdot then
      if rest.head? = some [] then Stays fs_info (parent vfs fs_info p) rest
      else Regular (parent vfs fs_info p) false rest
    else (name.head? = some CHAR_DOT → norm = true) ∧ ∀ q ∈ child vfs p name, Regular q true rest

/-- The same where no separators have been skipped. -/
def Entered (p : Place Dentry VfsMount) (norm : Bool) (rest : List (List Char)) : Prop :=
  if rest.head? = some [] then Stays fs_info p rest else Regular vfs fs_info p norm rest

end Meaning

/-! ### Parts of a string -/

theorem parts_single {a : List Char} (h : SEPARATOR ∉ a) : parts a = [a] :=
  List.splitOn_eq_singleton h

theorem parts_cons {a : List Char} (h : SEPARATOR ∉ a) (b : List Char) :
    parts (a ++ SEPARATOR :: b) = a :: parts b := by
  rw [parts, List.splitOn_append_cons_self, List.splitOn_eq_singleton h]
  rfl

/-- Several separators are one. -/
theorem components_separators (a b : List Char) :
    components (a ++ SEPARATOR :: SEPARATOR :: b) = components (a ++ SEPARATOR :: b) := by
  unfold components parts
  rw [List.splitOn_append_cons_self, List.splitOn_append_cons_self,
    show SEPARATOR :: b = [] ++ SEPARATOR :: b from rfl, List.splitOn_append_cons_self,
    List.splitOn_nil, List.filter_append, List.filter_append, List.filter_append]
  rfl

/-- What a path means does not depend on how many separators there are. -/
theorem followPath_separators (vfs : Vfs Dentry VfsMount) (fs_info : FileSystemInfo Dentry VfsMount)
    (a b : List Char) : followPath vfs fs_info (a ++ SEPARATOR :: SEPARATOR :: b) =
      followPath vfs fs_info (a ++ SEPARATOR :: b) := by
  have hstart : fs_info.start (a ++ SEPARATOR :: SEPARATOR :: b) =
      fs_info.start (a ++ SEPARATOR :: b) := by
    cases a with
    | nil => rfl
    | cons c a => rfl
  rw [followPath, followPath, hstart, components_separators]

/-- `a` is the first part of `s`, and `rest` is left behind it. -/
def FirstPart (s a rest : List Char) : Prop :=
  SEPARATOR ∉ a ∧ (s = a ∧ rest = [] ∨ s = a ++ SEPARATOR :: rest)

theorem firstPart_exists (s : List Char) : ∃ a rest, FirstPart s a rest := by
  by_cases h : SEPARATOR ∈ s
  · obtain ⟨a, rest, hs, ha⟩ := List.eq_append_cons_of_mem h
    exact ⟨a, rest, ha, .inr hs⟩
  · exact ⟨s, [], h, .inl ⟨rfl, rfl⟩⟩

variable {s a rest : List Char}

theorem strchr_append (ha : SEPARATOR ∉ a) (rest : List Char) :
    strchr (a ++ SEPARATOR :: rest) SEPARATOR = some a.length := by
  have hall : ∀ c ∈ a, decide (c ≠ SEPARATOR) = true := by
    intro c hc
    exact decide_eq_true (ne_of_mem_of_not_mem hc ha)
  have hmem : SEPARATOR ∈ a ++ SEPARATOR :: rest := List.mem_append_right _ List.mem_cons_self
  rw [strchr, if_pos hmem, List.takeWhile_append_of_pos hall, List.takeWhile_cons_of_neg (by simp),
    List.append_nil]

/-- What `getNextPartLen` is for. -/
theorem FirstPart.next (h : FirstPart s a rest) :
    s.take ((getNextPartLen s).1 - 1) = a ∧ s.drop (getNextPartLen s).2 = rest ∧
      ((getNextPartLen s).2 = 0 → a = []) := by
  obtain ⟨ha, ⟨rfl, rfl⟩ | rfl⟩ := h
  · rw [getNextPartLen, strchr, if_neg ha]
    exact ⟨List.take_length, List.drop_length, List.length_eq_zero_iff.mp⟩
  · rw [getNextPartLen, strchr_append ha]
    refine ⟨List.take_left, ?_, fun h => absurd h (Nat.succ_ne_zero _)⟩
    show (a ++ SEPARATOR :: rest).drop (a.length + 1) = rest
    rw [List.drop_append, List.drop_of_length_le (by omega), Nat.add_sub_cancel_left]
    rfl

theorem FirstPart.length_lt (h : FirstPart s a rest) (hne : a ≠ []) : rest.length < s.length := by
  have hpos := List.length_pos_iff.mpr hne
  obtain ⟨-, ⟨rfl, rfl⟩ | rfl⟩ := h
  · exact hpos
  · rw [List.length_append, List.length_cons]
    omega

theorem FirstPart.parts_eq (h : FirstPart s a rest) :
    parts s = [a] ∧ rest = [] ∨ parts s = a :: parts rest := by
  obtain ⟨ha, ⟨rfl, hrest⟩ | rfl⟩ := h
  · exact .inl ⟨parts_single ha, hrest⟩
  · exact .inr (parts_cons ha rest)

theorem FirstPart.components_eq (h : FirstPart s a rest) (hne : a ≠ []) :
    components s = a :: components rest := by
  unfold components
  obtain ⟨hs, rfl⟩ | hs := h.parts_eq
  · rw [hs, List.filter_cons, if_pos (decide_eq_true hne)]
    rfl
  · rw [hs, List.filter_cons, if_pos (decide_eq_true hne)]

/-- A part is empty where the string ends or goes on with a separator. -/
theorem FirstPart.parts_head (h : FirstPart s a rest) : (parts s).head? = some a := by
  obtain ⟨hs, -⟩ | hs := h.parts_eq
  · rw [hs]
    rfl
  · rw [hs]
    rfl

/-! ### One part of a walk -/

variable {vfs : Vfs Dentry VfsMount} {fs_info : FileSystemInfo Dentry VfsMount}
  {p : Place Dentry VfsMount} {last_type_ : LastType} {w : Walk Dentry VfsMount}

theorem walk_end (h : FirstPart s [] rest) :
    walk vfs fs_info s last_type_ p = ⟨[], .PW_SUCCESS, some p⟩ := by
  rw [walk]
  exact dif_pos (.inl h.next.1)

theorem walk_part (h : FirstPart s a rest) (hne : a ≠ []) :
    walk vfs fs_info s last_type_ p =
      match typeOf a last_type_ with
      | .LAST_DOT => walk vfs fs_info rest .LAST_DOT p
      | .LAST_DOTDOT =>
        if fs_info.isRoot p then walk vfs fs_info rest .LAST_DOTDOT p
        else (walk vfs fs_info rest .LAST_DOTDOT (parent vfs fs_info p)).after (.getParent p.dentry_)
      | .LAST_NORM =>
        match child vfs p a with
        | some q =>
          if skipSeparators rest = [] then ⟨[.lookup p.dentry_ a], .PW_SUCCESS, some q⟩
          else (walk vfs fs_info (skipSeparators rest) .LAST_NORM q).after (.lookup p.dentry_ a)
        | none => ⟨[.lookup p.dentry_ a], .PW_ENOTFOUND, some p⟩
      | .LAST_ROOT =>
        if skipSeparators rest = [] then ⟨[], .PW_SUCCESS, some p⟩
        else walk vfs fs_info (skipSeparators rest) .LAST_ROOT p := by
  obtain ⟨htake, hdrop, hpos⟩ := h.next
  have hgo : ¬(s.take ((getNextPartLen s).1 - 1) = [] ∨ (getNextPartLen s).2 = 0) := by
    rw [htake]
    exact not_or.mpr ⟨hne, fun hzero => hne (hpos hzero)⟩
  rw [walk]
  dsimp only
  rw [dif_neg hgo, htake, hdrop]
  cases htype : typeOf a last_type_ with
  | LAST_DOT => rfl
  | LAST_DOTDOT =>
    dsimp only
    by_cases hroot : fs_info.isRoot p
    · rw [if_pos hroot, if_pos hroot]
      rfl
    · rw [if_neg hroot, if_neg hroot, parent, if_neg hroot]
      rfl
  | LAST_NORM =>
    unfold child
    cases hfound : vfs.lookup p.dentry_ a with
    | none => rfl
    | some found => rfl
  | LAST_ROOT => rfl

theorem typeOf_ordinary (h : a.head? ≠ some CHAR_DOT) : typeOf a last_type_ = .LAST_NORM := if_neg h

/-- The type is left as it was. -/
theorem typeOf_hidden (h : a.head? = some CHAR_DOT) (hdot : a ≠ dot) (hdotdot : a ≠ dotdot) :
    typeOf a last_type_ = last_type_ := by
  cases a with
  | nil => cases h
  | cons c a =>
    cases h
    cases a with
    | nil => exact absurd rfl hdot
    | cons c a =>
      have hlast : ¬((CHAR_DOT :: c :: a)[1]? = some CHAR_DOT ∧ (CHAR_DOT :: c :: a)[2]? = none) := by
        rintro ⟨hsecond, hthird⟩
        cases hsecond
        cases a with
        | nil => exact hdotdot rfl
        | cons c' a => cases hthird
      have hhead : (CHAR_DOT :: c :: a).head? = some CHAR_DOT := rfl
      have hsecond : (CHAR_DOT :: c :: a)[1]? ≠ none := by rintro ⟨⟩
      rw [typeOf, if_pos hhead, if_neg hsecond, if_neg hlast]

theorem ne_dot (h : a.head? ≠ some CHAR_DOT) : a ≠ dot := by
  rintro rfl
  exact h rfl

theorem ne_dotdot (h : a.head? ≠ some CHAR_DOT) : a ≠ dotdot := by
  rintro rfl
  exact h rfl

/-- The four kinds of a component. -/
theorem kinds (a : List Char) : a = dot ∨ a = dotdot ∨ a.head? ≠ some CHAR_DOT ∨
    a.head? = some CHAR_DOT ∧ a ≠ dot ∧ a ≠ dotdot := by
  by_cases hdot : a = dot
  · exact .inl hdot
  · by_cases hdotdot : a = dotdot
    · exact .inr (.inl hdotdot)
    · by_cases hhead : a.head? = some CHAR_DOT
      · exact .inr (.inr (.inr ⟨hhead, hdot, hdotdot⟩))
      · exact .inr (.inr (.inl hhead))

/-! ### Skipping separators -/

theorem skip_separator (s : List Char) : skipSeparators (SEPARATOR :: s) = skipSeparators s :=
  List.dropWhile_cons_of_pos (decide_eq_true rfl)

theorem skip_other {c : Char} (h : c ≠ SEPARATOR) (s : List Char) :
    skipSeparators (c :: s) = c :: s :=
  List.dropWhile_cons_of_neg (by simpa using h)

theorem parts_separator (s : List Char) : parts (SEPARATOR :: s) = [] :: parts s :=
  parts_cons (List.not_mem_nil) s

theorem components_skip (s : List Char) : components (skipSeparators s) = components s := by
  induction s with
  | nil => rfl
  | cons c s ih =>
    by_cases h : c = SEPARATOR
    · rw [h, skip_separator, ih]
      unfold components
      rw [parts_separator]
      rfl
    · rw [skip_other h]

theorem regular_skip {norm : Bool} (s : List Char) :
    Regular vfs fs_info p norm (parts (skipSeparators s)) ↔
      Regular vfs fs_info p norm (parts s) := by
  induction s with
  | nil => rfl
  | cons c s ih =>
    by_cases h : c = SEPARATOR
    · rw [h, skip_separator, ih, parts_separator, Regular, if_pos rfl]
    · rw [skip_other h]

/-- Behind skipped separators comes a component, or nothing. -/
theorem entered_skip {norm : Bool} (s : List Char) :
    Entered vfs fs_info p norm (parts (skipSeparators s)) ↔
      Regular vfs fs_info p norm (parts s) := by
  rw [← regular_skip, Entered]
  by_cases hnil : skipSeparators s = []
  · rw [hnil]
    exact iff_of_true (fun name hname => .inl (List.mem_singleton.mp hname)) trivial
  · have hhead : (parts (skipSeparators s)).head? ≠ some [] := by
      obtain ⟨a, rest, hfirst⟩ := firstPart_exists (skipSeparators s)
      rw [hfirst.parts_head]
      rintro ⟨⟩
      obtain ⟨-, ⟨hs, -⟩ | hs⟩ := hfirst
      · exact hnil hs
      · have hnot := List.head?_dropWhile_not (fun c => decide (c = SEPARATOR)) s
        have hs' : s.dropWhile (fun c => decide (c = SEPARATOR)) = SEPARATOR :: rest := hs
        rw [hs'] at hnot
        cases hnot
    rw [if_neg hhead]

/-! ### Following names -/

variable {names : List (List Char)}

theorem follow_dot : follow vfs fs_info p (dot :: names) = follow vfs fs_info p names := by
  rw [follow, if_pos rfl]

theorem follow_dotdot_root (h : fs_info.isRoot p) :
    follow vfs fs_info p (dotdot :: names) = follow vfs fs_info p names := by
  rw [follow, if_neg (by decide), if_pos rfl, if_pos h]

theorem follow_dotdot (h : ¬fs_info.isRoot p) : follow vfs fs_info p (dotdot :: names) =
    (.getParent p.dentry_ :: (follow vfs fs_info (parent vfs fs_info p) names).1,
      (follow vfs fs_info (parent vfs fs_info p) names).2) := by
  rw [follow, if_neg (by decide), if_pos rfl, if_neg h]

theorem follow_some {q : Place Dentry VfsMount} (hdot : a ≠ dot) (hdotdot : a ≠ dotdot)
    (h : child vfs p a = some q) : follow vfs fs_info p (a :: names) =
      (.lookup p.dentry_ a :: (follow vfs fs_info q names).1, (follow vfs fs_info q names).2) := by
  rw [follow, if_neg hdot, if_neg hdotdot, h]

theorem follow_none (hdot : a ≠ dot) (hdotdot : a ≠ dotdot) (h : child vfs p a = none) :
    follow vfs fs_info p (a :: names) = ([.lookup p.dentry_ a], none) := by
  rw [follow, if_neg hdot, if_neg hdotdot, h]

/-- The first call for a name. -/
theorem follow_calls (hdot : a ≠ dot) (hdotdot : a ≠ dotdot) :
    (follow vfs fs_info p (a :: names)).1.head? = some (.lookup p.dentry_ a) := by
  cases h : child vfs p a with
  | none =>
    rw [follow_none hdot hdotdot h]
    rfl
  | some q =>
    rw [follow_some hdot hdotdot h]
    rfl

omit [DecidableEq Dentry] [DecidableEq VfsMount] in
theorem conforms_after {call : Call Dentry}
    {r : List (Call Dentry) × Option (Place Dentry VfsMount)} :
    Conforms (w.after call) (call :: r.1, r.2) ↔ Conforms w r :=
  and_congr_left fun _ => List.cons_inj_right call

/-- A walk that ends here is right if nothing that is left leads away. -/
theorem ends_iff_stays (ps : List (List Char)) :
    Conforms ⟨[], .PW_SUCCESS, some p⟩ (follow vfs fs_info p (ps.filter (· ≠ []))) ↔
      Stays fs_info p ps := by
  induction ps with
  | nil => exact iff_of_true ⟨rfl, rfl, rfl⟩ fun name hname => absurd hname List.not_mem_nil
  | cons name ps ih =>
    have hstays : Stays fs_info p (name :: ps) ↔
        (name = [] ∨ name = dot ∨ name = dotdot ∧ fs_info.isRoot p) ∧ Stays fs_info p ps :=
      List.forall_mem_cons
    rw [hstays]
    by_cases hnil : name = []
    · rw [hnil, ← ih]
      exact (and_iff_right (.inl rfl)).symm
    · rw [List.filter_cons, if_pos (decide_eq_true hnil)]
      by_cases hdot : name = dot
      · rw [hdot, follow_dot, ih]
        exact (and_iff_right (.inr (.inl rfl))).symm
      · by_cases hdotdot : name = dotdot
        · rw [hdotdot]
          by_cases hroot : fs_info.isRoot p
          · rw [follow_dotdot_root hroot, ih]
            exact (and_iff_right (.inr (.inr ⟨rfl, hroot⟩))).symm
          · rw [follow_dotdot hroot]
            refine iff_of_false (fun h => List.cons_ne_nil _ _ h.1.symm) ?_
            rintro ⟨h | h | h, -⟩
            · exact absurd h (by decide)
            · exact absurd h (by decide)
            · exact hroot h.2
        · refine iff_of_false ?_ ?_
          · rintro ⟨hcalls, -⟩
            have hfirst : (follow vfs fs_info p (name :: ps.filter (· ≠ []))).1.head? =
                some (.lookup p.dentry_ name) := follow_calls hdot hdotdot
            rw [← hcalls] at hfirst
            cases hfirst
          · rintro ⟨h | h | h, -⟩
            · exact hnil h
            · exact hdot h
            · exact hdotdot h.1

/-! ### Walking along a path -/

theorem typeOf_norm (h : typeOf a last_type_ = .LAST_NORM) (hne : last_type_ ≠ .LAST_NORM) :
    a.head? ≠ some CHAR_DOT := by
  intro hhead
  rw [typeOf, if_pos hhead] at h
  split at h
  · cases h
  · split at h
    · cases h
    · exact hne h

/-- Unless an ordinary name came before, the first name that is looked up does not begin with a
dot. -/
theorem first_lookup (hne : last_type_ ≠ .LAST_NORM) (d : Dentry) (name : List Char)
    (h : (walk vfs fs_info s last_type_ p).calls.head? = some (.lookup d name)) :
    name.head? ≠ some CHAR_DOT := by
  induction hlen : s.length using Nat.strongRecOn generalizing s last_type_ p with
  | ind n ih =>
    subst hlen
    obtain ⟨a, rest, hfirst⟩ := firstPart_exists s
    by_cases hnil : a = []
    · subst hnil
      rw [walk_end hfirst] at h
      cases h
    · have hrest := hfirst.length_lt hnil
      have hskip := Nat.lt_of_le_of_lt (skipSeparators_length rest) hrest
      rw [walk_part hfirst hnil] at h
      cases htype : typeOf a last_type_ with
      | LAST_DOT =>
        rw [htype] at h
        exact ih _ hrest (by decide) h rfl
      | LAST_DOTDOT =>
        rw [htype] at h
        dsimp only at h
        by_cases hroot : fs_info.isRoot p
        · rw [if_pos hroot] at h
          exact ih _ hrest (by decide) h rfl
        · rw [if_neg hroot] at h
          cases h
      | LAST_NORM =>
        have hname := typeOf_norm htype hne
        rw [htype] at h
        dsimp only at h
        cases hchild : child vfs p a with
        | none =>
          rw [hchild] at h
          cases h
          exact hname
        | some q =>
          rw [hchild] at h
          dsimp only at h
          split at h
          · cases h
            exact hname
          · cases h
            exact hname
      | LAST_ROOT =>
        rw [htype] at h
        dsimp only at h
        by_cases hend : skipSeparators rest = []
        · rw [if_pos hend] at h
          cases h
        · rw [if_neg hend] at h
          exact ih _ hskip (by decide) h rfl

/-! #### Where a path is regular -/

variable {norm : Bool}

theorem entered_end : Entered vfs fs_info p norm (parts []) :=
  fun _ hname => .inl (List.mem_singleton.mp hname)

theorem regular_dot (h : FirstPart s dot rest) : Regular vfs fs_info p norm (parts s) ↔
    Entered vfs fs_info p false (parts rest) := by
  obtain ⟨hs, rfl⟩ | hs := h.parts_eq
  · rw [hs]
    exact iff_of_true trivial entered_end
  · rw [hs]
    rfl

theorem regular_dotdot (h : FirstPart s dotdot rest) : Regular vfs fs_info p norm (parts s) ↔
    Entered vfs fs_info (parent vfs fs_info p) false (parts rest) := by
  obtain ⟨hs, rfl⟩ | hs := h.parts_eq
  · rw [hs]
    exact iff_of_true trivial entered_end
  · rw [hs]
    rfl

theorem regular_name (h : FirstPart s a rest) (hne : a ≠ []) (hdot : a ≠ dot) (hdotdot : a ≠ dotdot) :
    Regular vfs fs_info p norm (parts s) ↔ (a.head? = some CHAR_DOT → norm = true) ∧
      ∀ q ∈ child vfs p a, Entered vfs fs_info q true (parts (skipSeparators rest)) := by
  have hname (ps : List (List Char)) : Regular vfs fs_info p norm (a :: ps) ↔
      (a.head? = some CHAR_DOT → norm = true) ∧ ∀ q ∈ child vfs p a, Regular vfs fs_info q true ps := by
    rw [Regular, if_neg hne, if_neg hdot, if_neg hdotdot]
  simp only [entered_skip]
  obtain ⟨hs, rfl⟩ | hs := h.parts_eq
  · rw [hs]
    exact hname []
  · rw [hs]
    exact hname (parts rest)

/-- A component that is looked up. -/
theorem looked_up_iff (hfirst : FirstPart s a rest) (hnil : a ≠ [])
    (htype : typeOf a last_type_ = .LAST_NORM) (hdot : a ≠ dot) (hdotdot : a ≠ dotdot)
    (hnorm : a.head? = some CHAR_DOT → norm = true)
    (ih : ∀ q, Conforms (walk vfs fs_info (skipSeparators rest) .LAST_NORM q)
      (follow vfs fs_info q (components (skipSeparators rest))) ↔
        Entered vfs fs_info q true (parts (skipSeparators rest))) :
    Conforms (walk vfs fs_info s last_type_ p) (follow vfs fs_info p (components s)) ↔
      Regular vfs fs_info p norm (parts s) := by
  rw [walk_part hfirst hnil, htype, hfirst.components_eq hnil, regular_name hfirst hnil hdot hdotdot,
    and_iff_right hnorm]
  dsimp only
  cases hchild : child vfs p a with
  | none =>
    rw [follow_none hdot hdotdot hchild]
    exact iff_of_true ⟨rfl, rfl⟩ fun q hq => by cases hq
  | some q =>
    have hone : (∀ r ∈ some q, Entered vfs fs_info r true (parts (skipSeparators rest))) ↔
        Entered vfs fs_info q true (parts (skipSeparators rest)) := by
      simp only [Option.mem_def, Option.some.injEq, forall_eq']
    rw [follow_some hdot hdotdot hchild, hone, ← components_skip]
    dsimp only
    by_cases hend : skipSeparators rest = []
    · rw [if_pos hend, hend]
      exact iff_of_true ⟨rfl, rfl, rfl⟩ entered_end
    · rw [if_neg hend, conforms_after, ih]

theorem walk_conforms_iff :
    Conforms (walk vfs fs_info s last_type_ p) (follow vfs fs_info p (components s)) ↔
      Entered vfs fs_info p (decide (last_type_ = .LAST_NORM)) (parts s) := by
  induction hlen : s.length using Nat.strongRecOn generalizing s last_type_ p with
  | ind n ih =>
    subst hlen
    obtain ⟨a, rest, hfirst⟩ := firstPart_exists s
    unfold Entered
    rw [hfirst.parts_head]
    by_cases hnil : a = []
    · subst hnil
      rw [if_pos rfl, walk_end hfirst]
      exact ends_iff_stays (parts s)
    · have hrest := hfirst.length_lt hnil
      have hskip := Nat.lt_of_le_of_lt (skipSeparators_length rest) hrest
      have hentered : some a ≠ some [] := fun h => hnil (Option.some.inj h)
      rw [if_neg hentered]
      obtain rfl | rfl | hname | ⟨hhead, hdot, hdotdot⟩ := kinds a
      · rw [walk_part hfirst hnil, hfirst.components_eq hnil, follow_dot, regular_dot hfirst]
        exact ih _ hrest rfl
      · rw [walk_part hfirst hnil, hfirst.components_eq hnil, regular_dotdot hfirst]
        show Conforms (if fs_info.isRoot p then _ else _) _ ↔ _
        by_cases hroot : fs_info.isRoot p
        · rw [if_pos hroot, follow_dotdot_root hroot, parent, if_pos hroot]
          exact ih _ hrest rfl
        · rw [if_neg hroot, follow_dotdot hroot, conforms_after]
          exact ih _ hrest rfl
      · exact looked_up_iff hfirst hnil (typeOf_ordinary hname) (ne_dot hname) (ne_dotdot hname)
          (fun h => absurd h hname) fun q => ih _ hskip rfl
      · have htype : typeOf a last_type_ = last_type_ := typeOf_hidden hhead hdot hdotdot
        by_cases hnorm : last_type_ = .LAST_NORM
        · exact looked_up_iff hfirst hnil (htype.trans hnorm) hdot hdotdot
            (fun _ => decide_eq_true hnorm) fun q => ih _ hskip rfl
        · -- the name is skipped, and so is every other that begins with a dot until one is looked up
          rw [regular_name hfirst hnil hdot hdotdot]
          refine iff_of_false ?_ fun h => hnorm (of_decide_eq_true (h.1 hhead))
          rintro ⟨hcalls, -⟩
          have hlookup : (follow vfs fs_info p (components s)).1.head? = some (.lookup p.dentry_ a) := by
            rw [hfirst.components_eq hnil]
            exact follow_calls hdot hdotdot
          rw [← hcalls] at hlookup
          exact first_lookup hnorm _ _ hlookup hhead

/-! ### `dupChecking` -/

theorem prefixLoop_nil (passes : ℕ) (s : List Char) : prefixLoop passes s [] = [] := by
  induction passes generalizing s with
  | zero => rfl
  | succ passes ih =>
    cases s with
    | nil => rfl
    | cons c s =>
      rw [prefixLoop]
      split
      · exact ih s
      · split
        · rfl
        · exact ih s

/-- A path gets no prefix if it starts with a separator or with the component `.` or `..`. -/
theorem prefix_cases (s : List Char) :
    prefixLoop 3 s [CHAR_DOT, SEPARATOR] = [CHAR_DOT, SEPARATOR] ∧ s.head? ≠ some CHAR_ROOT ∨
      prefixLoop 3 s [CHAR_DOT, SEPARATOR] = [] ∧
        (s.head? = some CHAR_ROOT ∨ (∃ rest, FirstPart s dot rest) ∨ ∃ rest, FirstPart s dotdot rest) := by
  have hsep : CHAR_DOT ≠ SEPARATOR := by decide
  cases s with
  | nil => exact .inl ⟨rfl, by rintro ⟨⟩⟩
  | cons c s =>
    by_cases hc : c = SEPARATOR
    · rw [prefixLoop, if_pos hc, prefixLoop_nil, hc]
      exact .inr ⟨rfl, .inl rfl⟩
    · have hroot : (c :: s).head? ≠ some CHAR_ROOT := fun h => hc (Option.some.inj h)
      by_cases hdot : c = CHAR_DOT
      · rw [prefixLoop, if_neg hc, if_neg (not_not.mpr hdot), hdot]
        rw [hdot] at hroot
        cases s with
        | nil => exact .inl ⟨rfl, hroot⟩
        | cons c' s =>
          by_cases hc' : c' = SEPARATOR
          · rw [prefixLoop, if_pos hc', prefixLoop_nil, hc']
            exact .inr ⟨rfl, .inr (.inl ⟨s, by decide, .inr rfl⟩)⟩
          · by_cases hdot' : c' = CHAR_DOT
            · rw [prefixLoop, if_neg hc', if_neg (not_not.mpr hdot'), hdot']
              rw [hdot'] at hroot
              cases s with
              | nil => exact .inl ⟨rfl, hroot⟩
              | cons c'' s =>
                by_cases hc'' : c'' = SEPARATOR
                · rw [prefixLoop, if_pos hc'', prefixLoop_nil, hc'']
                  exact .inr ⟨rfl, .inr (.inr ⟨s, by decide, .inr rfl⟩)⟩
                · rw [prefixLoop, if_neg hc'']
                  refine .inl ⟨?_, hroot⟩
                  split
                  · rfl
                  · rfl
            · rw [prefixLoop, if_neg hc', if_pos hdot']
              exact .inl ⟨rfl, hroot⟩
      · rw [prefixLoop, if_neg hc, if_pos hdot]
        exact .inl ⟨rfl, hroot⟩

/-- What `pathWalk` does with a path that has a place to start at. -/
theorem pathWalk_conforms_iff (hstart : fs_info.start s = some p) :
    Conforms (pathWalk vfs fs_info s) (follow vfs fs_info p (components s)) ↔
      Regular vfs fs_info p (decide (s.head? ≠ some CHAR_ROOT)) (parts s) := by
  rw [pathWalk, hstart, ← components_skip, ← entered_skip]
  dsimp only
  by_cases hend : skipSeparators s = []
  · rw [if_pos hend, hend]
    exact iff_of_true ⟨rfl, rfl, rfl⟩ entered_end
  · rw [if_neg hend, walk_conforms_iff]
    by_cases hroot : s.head? = some CHAR_ROOT
    · rw [if_pos hroot, decide_eq_false (not_not.mpr hroot), decide_eq_false (by decide)]
    · rw [if_neg hroot, decide_eq_true hroot, decide_eq_true rfl]

/-- The walk does not look at the path that was last asked for. -/
theorem follow_pathname (x : List Char) :
    follow vfs { fs_info with pathname_ := x } p names = follow vfs fs_info p names := by
  induction names generalizing p with
  | nil => rfl
  | cons name names ih =>
    rw [follow, follow]
    simp only [ih]
    rfl

theorem regular_pathname (x : List Char) : Regular vfs { fs_info with pathname_ := x } p norm names ↔
    Regular vfs fs_info p norm names := by
  induction names generalizing p norm with
  | nil => rfl
  | cons name names ih =>
    rw [Regular, Regular]
    simp only [ih]
    rfl

/-- The first component is `.` or `..`: no name comes before it. -/
theorem regular_dots {norm' : Bool} (h : FirstPart s dot rest ∨ FirstPart s dotdot rest) :
    Regular vfs fs_info p norm (parts s) ↔ Regular vfs fs_info p norm' (parts s) := by
  obtain h | h := h
  · rw [regular_dot h, regular_dot h]
  · rw [regular_dotdot h, regular_dotdot h]

theorem skip_of_head (h : s.head? ≠ some CHAR_ROOT) : skipSeparators s = s := by
  cases s with
  | nil => rfl
  | cons c s => exact skip_other (fun hc => h (congrArg some hc)) s

omit [DecidableEq Dentry] [DecidableEq VfsMount] in
/-- The prefix does not change the place to start at. -/
theorem start_prefix (s : List Char) :
    fs_info.start (prefixLoop 3 s [CHAR_DOT, SEPARATOR] ++ s) = fs_info.start s := by
  obtain ⟨hfront, hhead⟩ | ⟨hfront, -⟩ := prefix_cases s
  · rw [hfront, FileSystemInfo.start, FileSystemInfo.start, if_neg hhead]
    rfl
  · rw [hfront]
    rfl

theorem pathWalk_none (h : fs_info.start s = none) :
    pathWalk vfs fs_info s = ⟨[], .PW_ENOTFOUND, none⟩ := by
  rw [pathWalk, h]

/-- The prefix does not change what a path means, nor whether it is regular. -/
theorem prefixed_iff (hw : Conforms w (follow vfs fs_info p
      (components (prefixLoop 3 s [CHAR_DOT, SEPARATOR] ++ s))) ↔
        Regular vfs fs_info p
          (decide ((prefixLoop 3 s [CHAR_DOT, SEPARATOR] ++ s).head? ≠ some CHAR_ROOT))
          (parts (prefixLoop 3 s [CHAR_DOT, SEPARATOR] ++ s))) :
    Conforms w (follow vfs fs_info p (components s)) ↔ Regular vfs fs_info p false (parts s) := by
  obtain ⟨hfront, hhead⟩ | ⟨hfront, hdirect⟩ := prefix_cases s
  · have hfirst : FirstPart ([CHAR_DOT, SEPARATOR] ++ s) dot s := ⟨by decide, .inr rfl⟩
    have hentered : Entered vfs fs_info p false (parts s) ↔ Regular vfs fs_info p false (parts s) := by
      have hskip : Entered vfs fs_info p false (parts (skipSeparators s)) ↔
          Regular vfs fs_info p false (parts s) := entered_skip s
      rw [skip_of_head hhead] at hskip
      exact hskip
    rw [hfront, hfirst.components_eq (by decide), follow_dot, regular_dot hfirst, hentered] at hw
    exact hw
  · rw [hfront, List.nil_append] at hw
    rw [hw]
    obtain hroot | ⟨rest, hdots⟩ | ⟨rest, hdots⟩ := hdirect
    · rw [decide_eq_false (not_not.mpr hroot)]
    · exact regular_dots (.inl hdots)
    · exact regular_dots (.inr hdots)

/-- Looking up a path gives what the path means if and only if the path is regular. -/
theorem dupChecking_conforms_iff (vfs : Vfs Dentry VfsMount) (fs_info : FileSystemInfo Dentry VfsMount)
    (pathname : List Char) :
    Conforms (dupChecking vfs fs_info pathname).2 (followPath vfs fs_info pathname) ↔
      ∀ p ∈ fs_info.start pathname, Regular vfs fs_info p false (parts pathname) := by
  have hplaced : fs_info.start (prefixLoop 3 pathname [CHAR_DOT, SEPARATOR] ++ pathname) =
      fs_info.start pathname := start_prefix pathname
  rw [dupChecking, followPath]
  dsimp only
  generalize hx : prefixLoop 3 pathname [CHAR_DOT, SEPARATOR] ++ pathname = x at hplaced
  cases hstart : fs_info.start pathname with
  | none =>
    have hnone : FileSystemInfo.start { fs_info with pathname_ := x } x = none :=
      hplaced.trans hstart
    rw [pathWalk_none hnone]
    exact iff_of_true ⟨rfl, rfl⟩ fun p hp => by cases hp
  | some p =>
    have hone : (∀ q ∈ some p, Regular vfs fs_info q false (parts pathname)) ↔
        Regular vfs fs_info p false (parts pathname) := by
      simp only [Option.mem_def, Option.some.injEq, forall_eq']
    have hplace : FileSystemInfo.start { fs_info with pathname_ := x } x = some p :=
      hplaced.trans hstart
    have hwalk : Conforms (pathWalk vfs { fs_info with pathname_ := x } x)
        (follow vfs { fs_info with pathname_ := x } p (components x)) ↔ _ :=
      pathWalk_conforms_iff hplace
    rw [follow_pathname, regular_pathname, ← hx] at hwalk
    rw [hone, ← prefixed_iff hwalk, hx]

/-- A root with two directories in it, `b` and `.x`. -/
def twoDirectories : Vfs ℕ ℕ where
  lookup dentry_ name :=
    if dentry_ = 0 then if name = ['b'] then some 1 else if name = ['.', 'x'] then some 2 else none
    else none
  getParent _ := 0
  mounts_ := []
  mnt_parent_ := id
  mnt_mountpoint_ := id
  mnt_root_ := id

def atRoot : FileSystemInfo ℕ ℕ := ⟨some 0, some 0, some 0, some 0, []⟩

/-- `b` is not found behind two separators, and `.x` is taken for `.`. -/
theorem names_are_skipped :
    (dupChecking twoDirectories atRoot ['.', '/', 'b']).2 = ⟨[.lookup 0 ['b']], .PW_SUCCESS, some ⟨1, 0⟩⟩ ∧
    (dupChecking twoDirectories atRoot ['.', '/', '/', 'b']).2 = ⟨[], .PW_SUCCESS, some ⟨0, 0⟩⟩ ∧
    (dupChecking twoDirectories atRoot ['.', 'x']).2 = ⟨[], .PW_SUCCESS, some ⟨0, 0⟩⟩ ∧
    (followPath twoDirectories atRoot ['.', '/', '/', 'b']).2 = some ⟨1, 0⟩ ∧
    (followPath twoDirectories atRoot ['.', 'x']).2 = some ⟨2, 0⟩ ∧
    ¬∀ (vfs : Vfs ℕ ℕ) (fs_info : FileSystemInfo ℕ ℕ) (pathname : List Char),
      Conforms (dupChecking vfs fs_info pathname).2 (followPath vfs fs_info pathname) := by
  have hhidden : (dupChecking twoDirectories atRoot ['.', 'x']).2 =
      ⟨[], .PW_SUCCESS, some ⟨0, 0⟩⟩ := by decide +kernel
  have hmeant : (followPath twoDirectories atRoot ['.', 'x']).2 = some ⟨2, 0⟩ := by decide +kernel
  refine ⟨by decide +kernel, by decide +kernel, hhidden, by decide +kernel, hmeant, fun h => ?_⟩
  have hconforms := (h twoDirectories atRoot ['.', 'x']).2
  rw [hhidden, hmeant] at hconforms
  exact absurd hconforms.2 (by decide)

end KPanic.PathWalker
