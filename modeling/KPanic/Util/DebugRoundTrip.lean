import KPanic.Util.DebugRecords
import Mathlib.Data.List.Nodup
import Mathlib.Data.List.Pairwise

/-!
# The debug information is read as it was written

The lookup finds the record of the function at an address. The search in its line entries is right up to
the address of the last one.
-/

namespace KPanic.DebugInfo

open Bytes
open Std (TreeMap)

variable {lines es es₁ es₂ : List (ℕ × ℕ)} {e e' : ℕ × ℕ} {f : Function} {pre rest fh d : List UInt8} {defs : Defs}
  {address offset a k n : ℕ}

/-! ### The function at an address -/

theorem foldl_behind {l : List (ℕ × List UInt8)} (fh : Option (List UInt8)) (h : ∀ p ∈ l, address < p.1) :
    l.foldl (fun fh f => if address ≥ f.1 then some f.2 else fh) fh = fh := by
  induction l with
  | nil => rfl
  | cons p l ih =>
    have hp := h p List.mem_cons_self
    rw [List.foldl_cons, if_neg (not_le.mpr hp), ih fun q hq => h q (List.mem_cons_of_mem p hq)]

theorem lookup_eq (hk : defs[k]? = some d) (hle : k ≤ address)
    (hlast : ∀ (k' : ℕ) (d' : List UInt8), defs[k']? = some d' → k < k' → address < k') : lookup defs address = some d := by
  have hmem := TreeMap.mem_toList_iff_getElem?_eq_some.mpr hk
  obtain ⟨l₁, l₂, hl⟩ := List.append_of_mem hmem
  have hordered := TreeMap.ordered_keys_toList (t := defs)
  have hbehind : ∀ p ∈ l₂, address < p.1 := by
    intro p hp
    rw [hl, List.pairwise_append, List.pairwise_cons] at hordered
    have hlt := compare_lt_iff_lt.mp (hordered.2.1.1 p hp)
    refine hlast p.1 p.2 (TreeMap.mem_toList_iff_getElem?_eq_some.mp ?_) hlt
    rw [hl]
    exact List.mem_append_right _ (List.mem_cons_of_mem _ hp)
  rw [lookup, hl, List.foldl_append, List.foldl_cons, if_pos hle, foldl_behind _ hbehind]

/-! ### The line entry of an address -/

theorem lineBytes_append (es es' : List (ℕ × ℕ)) : lineBytes (es ++ es') = lineBytes es ++ lineBytes es' := List.flatMap_append

theorem word_line (pre rest : List UInt8) (e : ℕ × ℕ) (es : List (ℕ × ℕ)) :
    word 2 (pre ++ (lineBytes (e :: es) ++ rest)) pre.length = some (e.1 % 2 ^ 16) ∧
      word 2 (pre ++ (lineBytes (e :: es) ++ rest)) (pre.length + 2) = some (e.2 % 2 ^ 16) := by
  have hoffset := word_at pre (leBytes 2 e.2 ++ (lineBytes es ++ rest)) 2 e.1
  have hnumber := word_at (pre ++ leBytes 2 e.1) (lineBytes es ++ rest) 2 e.2
  rw [List.length_append, length_leBytes] at hnumber
  rw [lineBytes, List.flatMap_cons, ← lineBytes]
  simp only [List.append_assoc] at hoffset hnumber ⊢
  exact ⟨hoffset, hnumber⟩

theorem lineLoop_entry (n : ℕ) (hsum : offset + e.1 < 2 ^ 64) :
    lineLoop (pre ++ (lineBytes (e :: es) ++ rest)) offset address (n + 1) pre.length =
      if address < offset + e.1 % 2 ^ 16 then some (some (pre.length - 4))
      else if address = offset + e.1 % 2 ^ 16 then some (some pre.length)
      else lineLoop (pre ++ (lineBytes (e :: es) ++ rest)) offset address n (pre.length + 4) := by
  have hle := Nat.mod_le e.1 (2 ^ 16)
  rw [lineLoop, (word_line pre rest e es).1]
  dsimp only [Option.bind_eq_bind, Option.bind_some]
  rw [Nat.mod_eq_of_lt (show offset + e.1 % 2 ^ 16 < 2 ^ 64 by omega)]

/-- The search goes on behind entries below the address. -/
theorem lineLoop_skip (pre rest : List UInt8) (es₂ : List (ℕ × ℕ)) (n : ℕ) (hsum : ∀ e ∈ es, offset + e.1 < 2 ^ 64) (hbelow : ∀ e ∈ es, e.1 % 2 ^ 16 < a) :
    lineLoop (pre ++ (lineBytes (es ++ es₂) ++ rest)) offset (offset + a) (es.length + n) pre.length =
      lineLoop (pre ++ lineBytes es ++ (lineBytes es₂ ++ rest)) offset (offset + a) n (pre ++ lineBytes es).length := by
  induction es generalizing pre with
  | nil => rw [List.length_nil, Nat.zero_add, show lineBytes [] = [] from rfl, List.append_nil, List.nil_append]
  | cons e es ih =>
    have hlt := hbelow e List.mem_cons_self
    have hrest := ih (pre ++ lineBytes [e]) (fun e' he' => hsum e' (List.mem_cons_of_mem e he'))
      fun e' he' => hbelow e' (List.mem_cons_of_mem e he')
    have hlength : (pre ++ lineBytes [e]).length = pre.length + 4 := by
      rw [List.length_append, length_lineBytes]
      rfl
    have hcons : ∀ l, lineBytes [e] ++ lineBytes l = lineBytes (e :: l) := fun l => (lineBytes_append [e] l).symm
    rw [List.append_assoc pre, ← List.append_assoc (lineBytes [e]), hcons, hlength, List.append_assoc pre, hcons] at hrest
    rw [List.length_cons, Nat.add_right_comm, List.cons_append, lineLoop_entry _ (hsum e List.mem_cons_self), if_neg (by omega),
      if_neg (by omega), hrest]

/-! ### A call at an address in the function -/

def recordHead (lines : List (ℕ × ℕ)) (f : Function) : List UInt8 :=
  leBytes 8 f.start ++ (leBytes 2 (offsets f lines).length ++ (leBytes 1 (nameLen f) ++ nameBytes f))

theorem length_recordHead (lines : List (ℕ × ℕ)) (f : Function) : (recordHead lines f).length = 11 + nameLen f := by
  unfold recordHead
  simp
  omega

theorem record_append (lines : List (ℕ × ℕ)) (f : Function) (rest : List UInt8) :
    record lines f ++ rest = recordHead lines f ++ (lineBytes (offsets f lines) ++ rest) := by
  rw [record_eq, recordHead]
  simp only [List.append_assoc]

theorem drop_record (lines : List (ℕ × ℕ)) (f : Function) (rest : List UInt8) :
    (record lines f ++ rest).drop 11 = nameBytes f ++ (lineBytes (offsets f lines) ++ rest) := by
  have hlength : (leBytes 8 f.start ++ (leBytes 2 (offsets f lines).length ++ leBytes 1 (nameLen f))).length = 11 := by
    simp
  have hsplit : record lines f ++ rest = leBytes 8 f.start ++ (leBytes 2 (offsets f lines).length ++ leBytes 1 (nameLen f)) ++
      (nameBytes f ++ (lineBytes (offsets f lines) ++ rest)) := by
    rw [record_eq]
    simp only [List.append_assoc]
  rw [hsplit, ← hlength, List.drop_left]

theorem offsets_lt (he : e ∈ offsets f lines) : f.start + e.1 < f.end_ := by
  unfold offsets at he
  obtain ⟨it, hit, rfl⟩ := List.mem_map.mp he
  obtain ⟨hstart, hend⟩ := of_decide_eq_true (List.mem_filter.mp hit).2
  dsimp only
  omega

theorem offsets_increasing (h : lines.Pairwise fun a b => a.1 < b.1) : (offsets f lines).Pairwise fun a b => a.1 < b.1 := by
  unfold offsets
  rw [List.pairwise_map]
  refine (h.filter _).imp_of_mem fun {x y} hx hy hlt => ?_
  obtain ⟨hx, -⟩ := of_decide_eq_true (List.mem_filter.mp hx).2
  dsimp only
  omega

theorem sum_lt (he : e ∈ offsets f lines) : f.start + e.1 < 2 ^ 64 := (offsets_lt he).trans f.end_lt

/-- The search ends without an entry, when those it looks at are below the address. -/
theorem call_none (hlookup : lookup defs (f.start + a) = some (record lines f ++ rest)) (ha : f.start + a < f.end_)
    (hbelow : ∀ e ∈ (offsets f lines).take ((offsets f lines).length % 2 ^ 16), e.1 % 2 ^ 16 < a) :
    getCallNameAndLine defs (f.start + a) = some ((record lines f ++ rest).drop 11, -(a : ℤ)) := by
  have hsize := f.size_lt
  have hskip := lineLoop_skip (recordHead lines f) rest ((offsets f lines).drop ((offsets f lines).length % 2 ^ 16)) 0
    (fun e he => sum_lt (List.mem_of_mem_take he)) hbelow
  rw [List.take_append_drop, ← record_append, length_recordHead, Nat.add_zero, List.length_take_of_le (Nat.mod_le _ _), lineLoop]
    at hskip
  have hcast : ((f.start + a : ℕ) : ℤ) - f.start = a := by omega
  have hbmod : (a : ℤ).bmod (2 ^ 32) = a := Int.bmod_eq_of_le (by omega) (by omega)
  unfold getCallNameAndLine
  rw [hlookup]
  dsimp only
  rw [readHeader_record]
  dsimp only [Option.bind_eq_bind, Option.bind_some]
  rw [hskip]
  dsimp only [Option.bind_eq_bind, Option.bind_some]
  rw [hcast, hbmod]

/-- The search ends with the entry at `lh`. -/
theorem call_found (lh : ℕ) (hlookup : lookup defs (f.start + a) = some (record lines f ++ rest))
    (hloop : lineLoop (record lines f ++ rest) f.start (f.start + a) ((offsets f lines).length % 2 ^ 16) (11 + nameLen f) =
      some (some lh)) (hword : word 2 (record lines f ++ rest) (lh + 2) = some n) :
    getCallNameAndLine defs (f.start + a) = some ((record lines f ++ rest).drop 11, (n : ℤ)) := by
  unfold getCallNameAndLine
  rw [hlookup]
  dsimp only
  rw [readHeader_record]
  dsimp only [Option.bind_eq_bind, Option.bind_some]
  rw [hloop]
  dsimp only [Option.bind_eq_bind, Option.bind_some]
  rw [hword]
  rfl

/-- The greatest entry that is not after the address. -/
structure LastEntry (entries : List (ℕ × ℕ)) (a : ℕ) (e : ℕ × ℕ) : Prop where
  mem : e ∈ entries
  le : e.1 ≤ a
  last : ∀ e' ∈ entries, e'.1 ≤ a → e'.1 ≤ e.1

/-- Up to the last entry the search is right. -/
theorem call_entry (hlookup : lookup defs (f.start + a) = some (record lines f ++ rest))
    (hinc : (offsets f lines).Pairwise fun a b => a.1 < b.1) (hcount : (offsets f lines).length < 2 ^ 16)
    (hsize : ∀ e ∈ offsets f lines, e.1 < 2 ^ 16) (hlast : LastEntry (offsets f lines) a e)
    (hbehind : ∃ e' ∈ offsets f lines, a ≤ e'.1) :
    getCallNameAndLine defs (f.start + a) = some ((record lines f ++ rest).drop 11, ((e.2 % 2 ^ 16 : ℕ) : ℤ)) := by
  obtain ⟨es₁, es₂, hes⟩ := List.append_of_mem hlast.mem
  have hsum : ∀ e' ∈ offsets f lines, f.start + e'.1 < 2 ^ 64 := fun _ => sum_lt
  have hrecord := record_append lines f rest
  have hlength := length_recordHead lines f
  generalize hhead : recordHead lines f = pre at hrecord hlength
  rw [hes] at hinc hsize hsum hbehind hcount hrecord
  have hpair := List.pairwise_append.mp hinc
  have hbefore : ∀ e' ∈ es₁, e'.1 < e.1 := fun e' he' => hpair.2.2 e' he' e List.mem_cons_self
  have hafter : ∀ e' ∈ es₂, a < e'.1 := fun e' he' => by
    have hlt := (List.pairwise_cons.mp hpair.2.1).1 e' he'
    by_contra hle
    have hmem : e' ∈ offsets f lines := hes ▸ List.mem_append_right _ (List.mem_cons_of_mem e he')
    exact absurd (hlast.last e' hmem (not_lt.mp hle)) (not_le.mpr hlt)
  have hmem₁ : ∀ e' ∈ es₁, e' ∈ es₁ ++ e :: es₂ := fun e' he' => List.mem_append_left _ he'
  have hmem : e ∈ es₁ ++ e :: es₂ := List.mem_append_right _ List.mem_cons_self
  have hmod : ∀ e' ∈ es₁ ++ e :: es₂, e'.1 % 2 ^ 16 = e'.1 := fun e' he' => Nat.mod_eq_of_lt (hsize e' he')
  have hassoc : pre ++ (lineBytes (es₁ ++ e :: es₂) ++ rest) = pre ++ lineBytes es₁ ++ (lineBytes (e :: es₂) ++ rest) := by
    rw [lineBytes_append]
    simp only [List.append_assoc]
  refine call_found (pre ++ lineBytes es₁).length hlookup ?_ ?_
  · rw [hes, Nat.mod_eq_of_lt hcount, ← hlength, hrecord]
    rcases Nat.eq_or_lt_of_le hlast.le with heq | hlt
    · -- the entry is at the address
      have hskip := lineLoop_skip (a := a) pre rest (e :: es₂) (es₂.length + 1)
        (fun e' he' => hsum e' (hmem₁ e' he')) fun e' he' => by
          rw [hmod e' (hmem₁ e' he')]
          exact heq ▸ hbefore e' he'
      rw [List.length_append, List.length_cons, hskip, lineLoop_entry _ (hsum e hmem), hmod e hmem, heq, if_neg (Nat.lt_irrefl _),
        if_pos rfl]
    · -- the search goes one entry too far
      cases es₂ with
      | nil =>
        obtain ⟨e', he', hle⟩ := hbehind
        rcases List.mem_append.mp he' with hin | hin
        · exact absurd (hbefore e' hin) (by omega)
        · obtain rfl := List.mem_singleton.mp hin
          omega
      | cons e₂ es₃ =>
        have hmem₂ : e₂ ∈ es₁ ++ e :: e₂ :: es₃ := List.mem_append_right _ (List.mem_cons_of_mem e List.mem_cons_self)
        have hsum' : ∀ e' ∈ es₁ ++ [e], f.start + e'.1 < 2 ^ 64 := fun e' he' =>
          (List.mem_append.mp he').elim (fun hin => hsum e' (hmem₁ e' hin)) fun hin => List.mem_singleton.mp hin ▸ hsum e hmem
        have hskip := lineLoop_skip (a := a) pre rest (e₂ :: es₃) (es₃.length + 1) hsum'
          fun e' he' => by
            rcases List.mem_append.mp he' with hin | hin
            · rw [hmod e' (hmem₁ e' hin)]
              exact (hbefore e' hin).trans hlt
            · obtain rfl := List.mem_singleton.mp hin
              rw [hmod e' hmem]
              exact hlt
        have hnext := hafter e₂ List.mem_cons_self
        rw [List.append_assoc, List.singleton_append] at hskip
        rw [List.length_append, List.length_cons, List.length_cons,
          show es₁.length + (es₃.length + 1 + 1) = (es₁ ++ [e]).length + (es₃.length + 1) by
            rw [List.length_append, List.length_singleton]; omega,
          hskip, lineLoop_entry _ (hsum e₂ hmem₂), hmod e₂ hmem₂, if_pos (by omega), lineBytes_append, List.length_append,
          List.length_append, List.length_append, length_lineBytes [e], List.length_singleton]
        exact congrArg (fun i => some (some i)) (by omega)
  · rw [hrecord, hassoc]
    exact (word_line (pre ++ lineBytes es₁) rest e es₂).2

/-- A long name has no terminator of its own; the low byte of the first offset is behind it. -/
theorem cString_name (es : List (ℕ × ℕ)) (e : ℕ × ℕ) (rest : List UInt8) :
    cString (nameBytes f ++ (lineBytes (e :: es) ++ rest)) = some (f.name.take 255) ↔
      f.name.length ≤ 254 ∨ e.1 % 256 = 0 := by
  rw [nameBytes_eq]
  split
  · rename_i hshort
    rw [List.take_of_length_le (by omega), List.append_assoc]
    exact iff_of_true (cString_terminated f.terminated _) (.inl hshort)
  · rename_i hlong
    have hbyte : lineBytes (e :: es) ++ rest =
        UInt8.ofNat e.1 :: (UInt8.ofNat (e.1 / 256) :: (leBytes 2 e.2 ++ (lineBytes es ++ rest))) := by
      rw [lineBytes, List.flatMap_cons, ← lineBytes]
      simp [leBytes, List.range_succ]
    have hzero : UInt8.ofNat e.1 = 0 ↔ e.1 % 256 = 0 := by
      rw [← UInt8.toNat_inj, UInt8.toNat_ofNat']
      rfl
    rw [hbyte, cString_behind fun hmem => f.terminated (List.mem_of_mem_take hmem), hzero, or_iff_right hlong]

/-- What a function needs for all its lines to be found. -/
structure FunctionFits (f : Function) (entries : List (ℕ × ℕ)) : Prop where
  name : f.name.length ≤ 254 ∨ ∃ e ∈ entries.head?, e.1 % 256 = 0
  size : f.end_ ≤ f.start + 2 ^ 16
  count : entries.length < 2 ^ 16
  number : ∀ e ∈ entries, e.2 < 2 ^ 16
  /-- The last address of the function has an entry. -/
  last : ∃ e ∈ entries, f.start + e.1 + 1 = f.end_

/-- The call gives the name and the line at every address from the first entry on. -/
def FunctionFound (defs : Defs) (f : Function) (entries : List (ℕ × ℕ)) : Prop :=
  ∀ a, f.start + a < f.end_ → ∀ e, LastEntry entries a e →
    ∃ name, getCallNameAndLine defs (f.start + a) = some (name, (e.2 : ℤ)) ∧ cString name = some (f.name.take 255)

theorem exists_last {a : ℕ} (h : ∃ e ∈ es, e.1 ≤ a) : ∃ e, LastEntry es a e := by
  induction es with
  | nil => exact absurd h nofun
  | cons x xs ih =>
    by_cases hxs : ∃ e ∈ xs, e.1 ≤ a
    · obtain ⟨e, he⟩ := ih hxs
      by_cases hx : x.1 ≤ a ∧ e.1 < x.1
      · refine ⟨x, List.mem_cons_self, hx.1, fun e' he' hle => ?_⟩
        rcases List.mem_cons.mp he' with rfl | hin
        · exact le_rfl
        · exact (he.last e' hin hle).trans hx.2.le
      · refine ⟨e, List.mem_cons_of_mem x he.mem, he.le, fun e' he' hle => ?_⟩
        rcases List.mem_cons.mp he' with rfl | hin
        · omega
        · exact he.last e' hin hle
    · obtain ⟨e, he, hle⟩ := h
      rcases List.mem_cons.mp he with rfl | hin
      · refine ⟨e, List.mem_cons_self, hle, fun e' he' hle' => ?_⟩
        rcases List.mem_cons.mp he' with rfl | hin
        · exact le_rfl
        · exact absurd ⟨e', hin, hle'⟩ hxs
      · exact absurd ⟨e, hin, hle⟩ hxs

theorem functionFound_of_fits (hlookup : ∀ a, f.start + a < f.end_ → lookup defs (f.start + a) = some (record lines f ++ rest))
    (hinc : (offsets f lines).Pairwise fun a b => a.1 < b.1) (h : FunctionFits f (offsets f lines)) :
    FunctionFound defs f (offsets f lines) := by
  intro a ha e he
  have hsize : ∀ e ∈ offsets f lines, e.1 < 2 ^ 16 := fun e he => by
    have hlt := offsets_lt he
    have hle := h.size
    omega
  obtain ⟨e', he', hend⟩ := h.last
  have hcall := call_entry (hlookup a ha) hinc h.count hsize he ⟨e', he', by omega⟩
  rw [Nat.mod_eq_of_lt (h.number e he.mem), drop_record] at hcall
  refine ⟨_, hcall, ?_⟩
  cases hes : offsets f lines with
  | nil => exact absurd he.mem (hes ▸ List.not_mem_nil)
  | cons first es =>
    rw [cString_name]
    refine h.name.imp_right ?_
    rintro ⟨first', hfirst, hzero⟩
    rw [hes] at hfirst
    cases hfirst
    exact hzero

/-- Only the entries that the record counts are read; when none of them reaches `a`, `a` is not the first address. -/
theorem pos_of_unread {a : ℕ} (hinc : es.Pairwise fun x y => x.1 < y.1) (hne : es ≠ []) (hle : ∀ e ∈ es, e.1 ≤ a)
    (hnone : ∀ e ∈ es.take (es.length % 2 ^ 16), e.1 % 2 ^ 16 < a) : 0 < a := by
  cases htake : es.take (es.length % 2 ^ 16) with
  | cons e _ =>
    have hlt := hnone e (htake ▸ List.mem_cons_self)
    omega
  | nil =>
    have hzero := congrArg List.length htake
    rw [List.length_take_of_le (Nat.mod_le _ _), List.length_nil] at hzero
    cases es with
    | nil => exact absurd rfl hne
    | cons first es =>
      cases es with
      | nil =>
        rw [List.length_singleton] at hzero
        cases hzero
      | cons second es =>
        have hlt := (List.pairwise_cons.mp hinc).1 second List.mem_cons_self
        have hsecond := hle second (List.mem_cons_of_mem first List.mem_cons_self)
        omega

/-- An entry behind those that are read would be above the last address. -/
theorem length_lt_of_read {a : ℕ} (hinc : es.Pairwise fun x y => x.1 < y.1) (hle : ∀ e ∈ es, e.1 ≤ a)
    (he : e ∈ es.take (es.length % 2 ^ 16)) (hlast : e.1 = a) : es.length < 2 ^ 16 := by
  by_contra hlong
  have hn : es.length % 2 ^ 16 < es.length := by omega
  have hsplit := List.take_append_drop (es.length % 2 ^ 16) es
  rw [List.drop_eq_getElem_cons hn] at hsplit
  rw [← hsplit] at hinc
  have hlt := (List.pairwise_append.mp hinc).2.2 e he _ List.mem_cons_self
  have hlea := hle _ (List.getElem_mem hn)
  omega

/-- At the last address of the function the search ends without an entry, unless there is one. -/
theorem fits_of_functionFound
    (hlookup : ∀ a, f.start + a < f.end_ → lookup defs (f.start + a) = some (record lines f ++ rest))
    (hinc : (offsets f lines).Pairwise fun a b => a.1 < b.1) (hne : offsets f lines ≠ [])
    (h : FunctionFound defs f (offsets f lines)) : FunctionFits f (offsets f lines) := by
  obtain ⟨first, es, hes⟩ := List.exists_cons_of_ne_nil hne
  have hfirst : first ∈ offsets f lines := hes ▸ List.mem_cons_self
  have hfirstlt := offsets_lt hfirst
  obtain ⟨a, ha⟩ : ∃ a, f.start + a + 1 = f.end_ := ⟨f.end_ - f.start - 1, by omega⟩
  have halt : f.start + a < f.end_ := by omega
  have hle : ∀ e ∈ offsets f lines, e.1 ≤ a := fun e he => by
    have hlt := offsets_lt he
    omega
  obtain ⟨e, he⟩ := exists_last ⟨first, hfirst, hle first hfirst⟩
  obtain ⟨name, hcall, hname⟩ := h a halt e he
  -- an entry that is read is not below the last address
  have hread : ∃ e' ∈ (offsets f lines).take ((offsets f lines).length % 2 ^ 16), a ≤ e'.1 % 2 ^ 16 := by
    by_contra hnone
    push Not at hnone
    have hpos := pos_of_unread hinc hne hle hnone
    have hbelow := call_none (hlookup a halt) halt hnone
    rw [hcall] at hbelow
    have hline := (Prod.mk.inj (Option.some.inj hbelow)).2
    omega
  obtain ⟨e', he', hge⟩ := hread
  have hmem' := List.mem_of_mem_take he'
  have hmod := Nat.mod_le e'.1 (2 ^ 16)
  have hlt16 := Nat.mod_lt e'.1 (show 0 < 2 ^ 16 by decide)
  have heq : e'.1 = a := Nat.le_antisymm (hle e' hmem') (by omega)
  have hsize : ∀ e ∈ offsets f lines, e.1 < 2 ^ 16 := fun e he => by
    have hlea := hle e he
    omega
  have hcount := length_lt_of_read hinc hle he' heq
  have hgives : ∀ b, f.start + b < f.end_ → ∀ e, LastEntry (offsets f lines) b e →
      getCallNameAndLine defs (f.start + b) = some ((record lines f ++ rest).drop 11, ((e.2 % 2 ^ 16 : ℕ) : ℤ)) :=
    fun b hb e he => call_entry (hlookup b hb) hinc hcount hsize he ⟨e', hmem', by omega⟩
  refine ⟨?_, by omega, hcount, fun e he => ?_, e', hmem', by omega⟩
  · have hsame := hgives a halt e he
    rw [hcall] at hsame
    obtain rfl := (Prod.mk.inj (Option.some.inj hsame)).1
    rw [drop_record, hes, cString_name] at hname
    exact hname.imp_right fun hzero => ⟨first, hes ▸ rfl, hzero⟩
  · have hlast : LastEntry (offsets f lines) e.1 e := ⟨he, le_rfl, fun _ _ hle => hle⟩
    obtain ⟨name', hcall', -⟩ := h e.1 (offsets_lt he) e hlast
    have hsame := hgives e.1 (offsets_lt he) e hlast
    rw [hcall'] at hsame
    have hline := (Prod.mk.inj (Option.some.inj hsame)).2
    have hlt := Nat.mod_lt e.2 (show 0 < 2 ^ 16 by decide)
    omega

/-! ### The functions of a binary -/

namespace Binary

variable {b : Binary} {g : Group} {file : List UInt8}

/-- The line entries of a function. -/
def entries (b : Binary) (f : Function) : List (ℕ × ℕ) := b.line_info.flatMap fun info => offsets f info.2

/-- The functions with the places of their records in the file. -/
def places (b : Binary) : List (ℕ × List UInt8) := placesOf b.groups

theorem flatMap_offsets {l : List (List UInt8 × List (ℕ × ℕ))} {info : List UInt8 × List (ℕ × ℕ)}
    (hone : l.Pairwise fun a b => offsets f a.2 = [] ∨ offsets f b.2 = []) (hinfo : info ∈ l) (hne : offsets f info.2 ≠ []) :
    (l.flatMap fun info => offsets f info.2) = offsets f info.2 := by
  induction l with
  | nil => cases hinfo
  | cons x xs ih =>
    obtain ⟨hx, hxs⟩ := List.pairwise_cons.mp hone
    rw [List.flatMap_cons]
    rcases List.mem_cons.mp hinfo with rfl | hin
    · have hnone : (xs.flatMap fun info => offsets f info.2) = [] := by
        rw [List.flatMap_eq_nil_iff]
        exact fun y hy => (hx y hy).resolve_left hne
      rw [hnone, List.append_nil]
    · rw [(hx info hin).resolve_right hne, ih hxs hin, List.nil_append]

theorem mem_group (hg : g ∈ b.groups) (hf : f ∈ g.fncs) : f ∈ b.fncs ∧ offsets f g.lines = b.entries f := by
  unfold groups at hg
  rcases List.mem_append.mp hg with hfile | hnone
  · obtain ⟨info, hinfo, rfl⟩ := List.mem_map.mp hfile
    obtain ⟨hf, hne⟩ := List.mem_filter.mp hf
    exact ⟨hf, (flatMap_offsets (b.oneFile f hf) hinfo (of_decide_eq_true hne)).symm⟩
  · obtain rfl := List.mem_singleton.mp hnone
    obtain ⟨hf, hnil⟩ := List.mem_filter.mp hf
    exact ⟨hf, (List.flatMap_eq_nil_iff.mpr (of_decide_eq_true hnil)).symm⟩

theorem exists_group (hf : f ∈ b.fncs) : ∃ g ∈ b.groups, f ∈ g.fncs := by
  by_cases hnil : ∀ info ∈ b.line_info, offsets f info.2 = []
  · exact ⟨_, List.mem_append_right _ List.mem_cons_self, List.mem_filter.mpr ⟨hf, decide_eq_true hnil⟩⟩
  · push Not at hnil
    obtain ⟨info, hinfo, hne⟩ := hnil
    exact ⟨_, List.mem_append_left _ (List.mem_map_of_mem hinfo), List.mem_filter.mpr ⟨hf, decide_eq_true hne⟩⟩

theorem increasing_group (hg : g ∈ b.groups) : g.lines.Pairwise fun x y => x.1 < y.1 := by
  unfold groups at hg
  rcases List.mem_append.mp hg with hfile | hnone
  · obtain ⟨info, hinfo, rfl⟩ := List.mem_map.mp hfile
    exact b.increasing info hinfo
  · obtain rfl := List.mem_singleton.mp hnone
    exact .nil

theorem starts_nodup (b : Binary) : (b.fncs.map Function.start).Nodup :=
  List.pairwise_map.mpr (b.disjoint.imp fun h => h.1.ne)

theorem apart (b : Binary) {f g : Function} (hf : f ∈ b.fncs) (hg : g ∈ b.fncs) (hlt : f.start < g.start) :
    f.end_ ≤ g.start := by
  let R : Function → Function → Prop := fun f g =>
    (f.start < g.start ∧ f.end_ ≤ g.start) ∨ (g.start < f.start ∧ g.end_ ≤ f.start)
  have : Std.Symm R := ⟨fun _ _ h => h.symm⟩
  have hpair : b.fncs.Pairwise R := b.disjoint.imp .inl
  have hne : f ≠ g := fun heq => Nat.lt_irrefl _ (heq ▸ hlt)
  rcases hpair.forall hf hg hne with h | h
  · exact h.2
  · omega

/-- Every function has one record. -/
theorem keys_nodup (b : Binary) : (b.places.map Prod.fst).Nodup := by
  have hfncs : b.fncs.Nodup := List.Nodup.of_map _ b.starts_nodup
  have hflat : (b.groups.flatMap Group.fncs).Nodup := by
    rw [List.nodup_flatMap]
    constructor
    · intro g hg
      unfold groups at hg
      rcases List.mem_append.mp hg with hfile | hnone
      · obtain ⟨info, -, rfl⟩ := List.mem_map.mp hfile
        exact hfncs.filter _
      · obtain rfl := List.mem_singleton.mp hnone
        exact hfncs.filter _
    · unfold groups
      rw [List.pairwise_append, List.pairwise_map]
      refine ⟨?_, List.pairwise_singleton _ _, ?_⟩
      · rw [List.pairwise_iff_forall_sublist]
        intro x y hxy f hx hy
        have hnex : offsets f x.2 ≠ [] := of_decide_eq_true (List.mem_filter.mp hx).2
        have hney : offsets f y.2 ≠ [] := of_decide_eq_true (List.mem_filter.mp hy).2
        exact ((b.oneFile f (List.mem_filter.mp hx).1).forall_sublist hxy).elim hnex hney
      · intro g hg g' hg' f hf hf'
        obtain ⟨info, hinfo, rfl⟩ := List.mem_map.mp hg
        obtain rfl := List.mem_singleton.mp hg'
        have hne := of_decide_eq_true (List.mem_filter.mp hf).2
        have hnil := of_decide_eq_true (List.mem_filter.mp hf').2
        exact hne (hnil info hinfo)
  rw [places, keys_placesOf]
  refine List.Nodup.map_on (fun f hf g hg heq => ?_) hflat
  obtain ⟨h, hh, hf⟩ := List.mem_flatMap.mp hf
  obtain ⟨h', hh', hg⟩ := List.mem_flatMap.mp hg
  exact List.inj_on_of_nodup_map b.starts_nodup (mem_group hh hf).1 (mem_group hh' hg).1 heq

theorem groups_ne_nil (b : Binary) : b.groups ≠ [] := by
  unfold groups
  exact List.append_ne_nil_of_right_ne_nil _ (List.cons_ne_nil _ _)

/-- The tool writes a file and the kernel reads it: `function_defs_` has the record of each function, and
nothing else. From the first line entry of a function on, a call gives its name and line. -/
def RoundTrips (b : Binary) : Prop :=
  ∃ file defs, b.main = some file ∧ initialiseSymbolTable file = some defs ∧
    (∀ (k : ℕ) (d : List UInt8), defs[k]? = some d ↔ (k, d) ∈ b.places) ∧ ∀ f ∈ b.fncs, FunctionFound defs f (b.entries f)

/-- What the format has room for. -/
structure Fitting (b : Binary) : Prop where
  buffer : Fits 8 b.writes
  files : ∀ info ∈ b.line_info, (found b.fncs info.2).length < 2 ^ 16
  none : (unwritten b.fncs b.line_info).length < 2 ^ 16
  functions : ∀ f ∈ b.fncs, b.entries f ≠ [] → FunctionFits f (b.entries f)

theorem main_eq (b : Binary) (file : List UInt8) :
    b.main = some file ↔ Fits 8 b.writes ∧ file = headerId ++ b.groups.flatMap Group.bytes := by
  rw [main, store_eq_some, writes_bytes]
  rfl

theorem groups_counted (b : Binary) : (∀ g ∈ b.groups, g.fncs.length < 2 ^ 16) ↔
    (∀ info ∈ b.line_info, (found b.fncs info.2).length < 2 ^ 16) ∧ (unwritten b.fncs b.line_info).length < 2 ^ 16 := by
  unfold groups
  rw [List.forall_mem_append, List.forall_mem_singleton, List.forall_mem_map]

/-- In a table of the records, an address in a function is looked up there. -/
theorem lookup_place (hplaces : ∀ (k : ℕ) (d : List UInt8), defs[k]? = some d ↔ (k, d) ∈ b.places) (hf : f ∈ b.fncs)
    (hplace : (f.start, d) ∈ b.places) (ha : f.start + a < f.end_) : lookup defs (f.start + a) = some d := by
  refine lookup_eq ((hplaces f.start d).mpr hplace) (Nat.le_add_right _ _) fun k' d' hk' hlt => ?_
  have hkey := List.mem_map_of_mem (f := Prod.fst) ((hplaces k' d').mp hk')
  rw [places, keys_placesOf] at hkey
  obtain ⟨g, hg, heq⟩ := List.mem_map.mp hkey
  obtain ⟨h, hh, hg⟩ := List.mem_flatMap.mp hg
  have hapart := b.apart hf (mem_group hh hg).1 (by rw [heq]; exact hlt)
  dsimp only at heq
  omega

/-- The record of a function, at its place. -/
theorem exists_place (hf : f ∈ b.fncs) : ∃ lines rest, offsets f lines = b.entries f ∧
    (lines.Pairwise fun x y => x.1 < y.1) ∧ (f.start, record lines f ++ rest) ∈ b.places := by
  obtain ⟨g, hg, hfg⟩ := exists_group hf
  obtain ⟨gs, gs', hgs⟩ := List.append_of_mem hg
  obtain ⟨fs, fs', hfs⟩ := List.append_of_mem hfg
  refine ⟨g.lines, records g.lines fs' ++ gs'.flatMap Group.bytes, (mem_group hg hfg).2, increasing_group hg, ?_⟩
  rw [places, hgs]
  refine mem_placesOf gs gs' g ?_
  rw [hfs]
  exact mem_placesIn g.lines (gs'.flatMap Group.bytes) fs fs' f

/-- One function of 16 bytes with a line at its first address. -/
def oneLine : Binary where
  fncs := [⟨12288, 12304, [102], by decide, by decide, by decide, by decide⟩]
  line_info := [([109], [(12288, 5)])]
  disjoint := List.pairwise_singleton _ _
  increasing _ hinfo := by
    obtain rfl := List.mem_singleton.mp hinfo
    exact List.pairwise_singleton _ _
  oneFile _ _ := List.pairwise_singleton _ _

end Binary

end KPanic.DebugInfo
