import KPanic.Fs.MountCrossing
import KPanic.Fs.VfsSyscall

/-!
# Walks over trees that correspond, and walks to an entry

A walk over one tree is a walk over any other one in which the same names lead to corresponding places. The walk to a path
is the walk to its directory and one more name.
-/

namespace KPanic.PathWalker

variable {D D' M M' : Type} [DecidableEq D] [DecidableEq D'] [DecidableEq M] [DecidableEq M'] {vfs : Vfs D M} {vfs' : Vfs D' M'}
  {fs_info : FileSystemInfo D M} {fs_info' : FileSystemInfo D' M'} {p q : Place D M} {p' : Place D' M'} {last_type_ : LastType}
  {ps : List (List Char)} {a s x : List Char}

/-- Names lead from places that correspond to places that correspond. -/
structure Corresponds (R : Place D M → Place D' M' → Prop) (vfs : Vfs D M) (fs_info : FileSystemInfo D M) (vfs' : Vfs D' M')
    (fs_info' : FileSystemInfo D' M') : Prop where
  child : ∀ {p p'} a, R p p' → Option.Rel R (child vfs p a) (child vfs' p' a)
  parent : ∀ {p p'}, R p p' → R (parent vfs fs_info p) (parent vfs' fs_info' p')

theorem Corresponds.run {R : Place D M → Place D' M' → Prop} (C : Corresponds R vfs fs_info vfs' fs_info') (h : R p p') :
    (run vfs fs_info last_type_ p ps).1 = (run vfs' fs_info' last_type_ p' ps).1 ∧
      R (run vfs fs_info last_type_ p ps).2 (run vfs' fs_info' last_type_ p' ps).2 := by
  induction ps generalizing last_type_ p p' with
  | nil => exact ⟨rfl, h⟩
  | cons a rest ih =>
    rw [PathWalker.run, PathWalker.run]
    by_cases hnil : a = []
    · rw [if_pos hnil, if_pos hnil]
      split
      · exact ⟨rfl, h⟩
      · exact ih h
    · rw [if_neg hnil, if_neg hnil]
      cases typeOf a last_type_ with
      | LAST_DOT => exact ih h
      | LAST_DOTDOT => exact ih (C.parent h)
      | LAST_NORM =>
        have hchild := C.child a h
        dsimp only
        cases hc : PathWalker.child vfs p a with
        | none =>
          rw [hc] at hchild
          cases hc' : PathWalker.child vfs' p' a with
          | none => exact ⟨rfl, h⟩
          | some q' =>
            rw [hc'] at hchild
            cases hchild
        | some q =>
          rw [hc] at hchild
          cases hc' : PathWalker.child vfs' p' a with
          | none =>
            rw [hc'] at hchild
            cases hchild
          | some q' =>
            rw [hc'] at hchild
            cases hchild with
            | some hq => exact ih hq
      | LAST_ROOT => exact ih h

/-- The walk does not look at the path that was last asked for. -/
theorem run_pathname (x : List Char) :
    run vfs { fs_info with pathname_ := x } last_type_ p ps = run vfs fs_info last_type_ p ps := by
  have hrel : ∀ o : Option (Place D M), Option.Rel Eq o o := by
    intro o
    cases o with
    | none => exact .none
    | some q => exact .some rfl
  have C : Corresponds Eq vfs { fs_info with pathname_ := x } vfs fs_info :=
    ⟨fun {p p'} a h => h ▸ hrel _, fun {p p'} h => by subst h; rfl⟩
  exact Prod.ext (C.run rfl).1 (C.run rfl).2

/-- What was found is found in a tree with more entries. -/
theorem run_mono {vfs' : Vfs D M} (hchild : ∀ {p a q}, child vfs p a = some q → child vfs' p a = some q)
    (hparent : ∀ p, parent vfs' fs_info p = parent vfs fs_info p)
    (h : (run vfs fs_info last_type_ p ps).1 = .PW_SUCCESS) :
    run vfs' fs_info last_type_ p ps = run vfs fs_info last_type_ p ps := by
  induction ps generalizing last_type_ p with
  | nil => rfl
  | cons a rest ih =>
    rw [run] at h
    rw [run, run]
    by_cases hnil : a = []
    · rw [if_pos hnil] at h
      rw [if_pos hnil, if_pos hnil]
      split
      · rfl
      · rename_i hdots
        rw [if_neg hdots] at h
        exact ih h
    · rw [if_neg hnil] at h
      rw [if_neg hnil, if_neg hnil]
      cases hkind : typeOf a last_type_ with
      | LAST_DOT =>
        rw [hkind] at h
        exact ih h
      | LAST_DOTDOT =>
        rw [hkind] at h
        dsimp only
        rw [hparent]
        exact ih h
      | LAST_NORM =>
        rw [hkind] at h
        dsimp only at h ⊢
        cases hc : child vfs p a with
        | none =>
          rw [hc] at h
          cases h
        | some q =>
          rw [hc] at h
          rw [hchild hc]
          exact ih h
      | LAST_ROOT =>
        rw [hkind] at h
        exact ih h

/-! ### One name -/

/-- The name is looked up. -/
def Looked (a : List Char) (last_type_ : LastType) : Prop := a ≠ [] ∧ typeOf a last_type_ = .LAST_NORM

theorem run_looked (h : Looked a last_type_) (hchild : child vfs p a = some q) :
    run vfs fs_info last_type_ p [a] = (.PW_SUCCESS, q) := by
  rw [run, if_neg h.1, h.2]
  dsimp only
  rw [hchild]
  rfl

theorem run_looked_none (h : Looked a last_type_) (hchild : child vfs p a = none) :
    (run vfs fs_info last_type_ p [a]).1 ≠ .PW_SUCCESS := by
  rw [run, if_neg h.1, h.2]
  dsimp only
  rw [hchild]
  exact fun h => by cases h

theorem looked_of_failed (h : (run vfs fs_info last_type_ p [a]).1 ≠ .PW_SUCCESS) :
    Looked a last_type_ ∧ child vfs p a = none := by
  rw [run] at h
  split at h
  · split at h
    · exact absurd rfl h
    · exact absurd rfl h
  · rename_i hnil
    cases hkind : typeOf a last_type_ with
    | LAST_NORM =>
      rw [hkind] at h
      dsimp only at h
      cases hc : child vfs p a with
      | none => exact ⟨⟨hnil, hkind⟩, rfl⟩
      | some q =>
        rw [hc] at h
        exact absurd rfl h
    | LAST_ROOT | LAST_DOT | LAST_DOTDOT =>
      rw [hkind] at h
      exact absurd rfl h

/-! ### The last name of a path -/

open DeviceFS (dirname basename found)

theorem split_pathname (h : SEPARATOR ∈ s) : s = dirname s ++ SEPARATOR :: basename s ∧ SEPARATOR ∉ basename s := by
  have hmem : SEPARATOR ∈ s.reverse := List.mem_reverse.mpr h
  have hsplit := List.takeWhile_append_dropWhile (p := fun c => decide (c ≠ SEPARATOR)) (l := s.reverse)
  have hbase : SEPARATOR ∉ s.reverse.takeWhile fun c => decide (c ≠ SEPARATOR) := by
    intro hin
    have hall : (s.reverse.takeWhile fun c => decide (c ≠ SEPARATOR)).all fun c => decide (c ≠ SEPARATOR) := List.all_takeWhile
    exact absurd rfl (of_decide_eq_true (List.all_eq_true.mp hall _ hin))
  cases hd : s.reverse.dropWhile fun c => decide (c ≠ SEPARATOR) with
  | nil =>
    rw [hd, List.append_nil] at hsplit
    rw [← hsplit] at hmem
    exact absurd hmem hbase
  | cons c rest =>
    have hc : c = SEPARATOR := by
      have hhead := List.head?_dropWhile_not (fun c => decide (c ≠ SEPARATOR)) s.reverse
      rw [hd] at hhead
      simpa using hhead
    rw [hd, hc] at hsplit
    refine ⟨?_, by rw [basename]; exact fun hin => hbase (List.mem_reverse.mp hin)⟩
    rw [dirname, if_pos h, basename, hd]
    have hrev := congrArg List.reverse hsplit.symm
    rw [List.reverse_reverse, List.reverse_append, List.reverse_cons, List.append_assoc] at hrev
    exact hrev

theorem parts_split (h : SEPARATOR ∈ s) : parts s = parts (dirname s) ++ [basename s] := by
  obtain ⟨hs, hbase⟩ := split_pathname h
  have hparts : parts (dirname s ++ SEPARATOR :: basename s) = parts (dirname s) ++ parts (basename s) :=
    List.splitOn_append_cons_self ..
  rw [← hs, parts_single hbase] at hparts
  exact hparts

/-- The type of the component before the last name, unless a walk ends before. -/
def behind (s : List Char) : Option LastType :=
  if dirname s = [] then some .LAST_ROOT else typeBehind (firstType (dirname s)) (parts (dirname s))

/-- The walk to the directory of `s`. -/
def dirRun (vfs : Vfs D M) (fs_info : FileSystemInfo D M) (p : Place D M) (s : List Char) : PW × Place D M :=
  run vfs fs_info (firstType (dirname s)) p (parts (dirname s))

theorem head_split (h : SEPARATOR ∈ s) : s.head? = some CHAR_ROOT ↔ dirname s = [] ∨ (dirname s).head? = some CHAR_ROOT := by
  obtain ⟨hs, -⟩ := split_pathname h
  cases hd : dirname s with
  | nil =>
    rw [hd] at hs
    rw [hs]
    exact iff_of_true rfl (.inl rfl)
  | cons c d =>
    rw [hd] at hs
    rw [hs]
    exact (or_iff_right nofun).symm

theorem run_entry (h : SEPARATOR ∈ s) (hok : (dirRun vfs fs_info p s).1 = .PW_SUCCESS) :
    run vfs fs_info (firstType s) p (parts s) =
      (behind s).elim (dirRun vfs fs_info p s) fun b => run vfs fs_info b (dirRun vfs fs_info p s).2 [basename s] := by
  have hhead := head_split h
  by_cases hnil : dirname s = []
  · have htype : firstType s = .LAST_ROOT := if_pos (hhead.mpr (.inl hnil))
    have hdir : dirRun vfs fs_info p s = (.PW_SUCCESS, p) := by
      rw [dirRun, hnil]
      exact run_nil
    rw [htype, parts_split h, behind, if_pos hnil, hdir, hnil, show parts [] = [[]] from rfl, List.singleton_append, run,
      if_pos rfl, if_neg (by decide)]
    rfl
  · have htype : firstType s = firstType (dirname s) := by
      have hiff : s.head? = some CHAR_ROOT ↔ (dirname s).head? = some CHAR_ROOT := hhead.trans (or_iff_right hnil)
      unfold firstType
      simp only [hiff]
    rw [htype, parts_split h, run_append _ hok, behind, if_neg hnil]
    rfl

/-- A path that leads nowhere, though its directory is there, names an entry that the directory has not. -/
theorem absent (h : SEPARATOR ∈ s) (hok : (dirRun vfs fs_info p s).1 = .PW_SUCCESS)
    (hfail : (run vfs fs_info (firstType s) p (parts s)).1 ≠ .PW_SUCCESS) :
    ∃ b, behind s = some b ∧ Looked (basename s) b ∧ child vfs (dirRun vfs fs_info p s).2 (basename s) = none := by
  rw [run_entry h hok] at hfail
  cases hb : behind s with
  | none =>
    rw [hb] at hfail
    exact absurd hok hfail
  | some b =>
    rw [hb] at hfail
    obtain ⟨hlooked, hchild⟩ := looked_of_failed hfail
    exact ⟨b, rfl, hlooked, hchild⟩

theorem found_pathWalk {fs_info : FileSystemInfo D Unit} {vfs : Vfs D Unit} {p : Place D Unit} (hstart : fs_info.start s = some p) :
    found (pathWalk vfs fs_info s) = if (run vfs fs_info (firstType s) p (parts s)).1 = .PW_SUCCESS then
      some (run vfs fs_info (firstType s) p (parts s)).2.dentry_ else none := by
  obtain ⟨hresult, hplace⟩ := pathWalk_run vfs hstart
  rw [found, hresult, hplace]
  rfl

theorem prefixLoop_separator {n : ℕ} (h : prefixLoop n s x = []) : x = [] ∨ SEPARATOR ∈ s := by
  induction n generalizing s x with
  | zero => exact .inl h
  | succ n ih =>
    cases s with
    | nil => exact .inl h
    | cons c s =>
      rw [prefixLoop] at h
      split at h
      · rename_i hc
        exact .inr (hc ▸ List.mem_cons_self)
      · split at h
        · exact .inl h
        · exact (ih h).imp_right (List.mem_cons_of_mem _)

/-- `dupChecking` walks to a path with a separator. -/
theorem prefixed_separator (pathname : List Char) : SEPARATOR ∈ prefixLoop 3 pathname [CHAR_DOT, SEPARATOR] ++ pathname := by
  obtain ⟨hfront, -⟩ | ⟨hfront, -⟩ := prefix_cases pathname
  · rw [hfront]
    exact List.mem_append_left _ (by simp)
  · rw [hfront]
    exact (prefixLoop_separator hfront).resolve_left (List.cons_ne_nil _ _)

end KPanic.PathWalker
