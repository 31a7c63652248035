import KPanic.Libc.Scanf
import KPanic.Lib.Ensures
import KPanic.Lib.Numerals

/-!
# Scanned numbers

The longest prefix that is a number, and the end of `vsscanf`.
-/

namespace KPanic.Scanf

open Ctype (isdigit isxdigit isspace islower toupper isdigit_iff toupper_eq_X)
open Numerals

/-- A prefix that names the base, if there is one, and digits of the base. -/
inductive Numeral : ℕ → List UInt8 → ℕ → Prop
  | plain {base : ℕ} {w : List UInt8} (hbase : base ≠ 0) (hw : Digits base w) : Numeral base w (value base w)
  | hex {base : ℕ} {x : UInt8} {w : List UInt8} (hbase : base = 0 ∨ base = 16) (hx : x = 88 ∨ x = 120) (hne : w ≠ [])
    (hw : Digits 16 w) : Numeral base (48 :: x :: w) (value 16 w)
  | octal {w : List UInt8} (hw : Digits 8 w) : Numeral 0 (48 :: w) (value 8 w)
  | decimal {w : List UInt8} (hhead : w.head? ≠ some 48) (hw : Digits 10 w) : Numeral 0 w (value 10 w)

/-- The number that a string starts with, and what is behind it. -/
structure Starts (base : ℕ) (s w : List UInt8) (v : ℕ) (rest : List UInt8) : Prop where
  split : s = w ++ rest
  numeral : Numeral base w v
  longest : ∀ w' v', w' <+: s → Numeral base w' v' → w'.length ≤ w.length

/-- `0x`, and no hexadecimal digit behind it. -/
def HexPrefixOnly (s : List UInt8) : Prop := ∃ x t, s = 48 :: x :: t ∧ (x = 88 ∨ x = 120) ∧ leading 16 t = []

variable {base base' v : ℕ} {c x : UInt8} {p s t w rest : List UInt8}

theorem isxdigit_iff_digit (c : UInt8) : isxdigit c = true ↔ digit c < 16 := by
  revert c
  exact Ctype.forall_of_range (by decide +kernel)

theorem digitValue_eq (c : UInt8) :
    isxdigit c = true → (if isdigit c then c.toNat - 48 else (toupper c).toNat - 65 + 10) = digit c := by
  revert c
  exact Ctype.forall_of_range (by decide +kernel)

theorem isdigit_iff_digit (c : UInt8) : isdigit c = true ↔ digit c < 10 := by
  revert c
  exact Ctype.forall_of_range (by decide +kernel)

theorem digit_x (hx : x = 88 ∨ x = 120) : 16 ≤ digit x := by
  obtain rfl | rfl := hx
  · decide
  · decide

theorem digit_zero_notLt (hbase : base ≤ 16) : ¬digit 0 < base := by
  have hzero : digit 0 = 36 := by decide
  omega

section Digits

variable {digitValue : UInt8 → ℕ} (hvalue : ∀ c, isxdigit c = true → digitValue c = digit c)

include hvalue

theorem isDigit_iff (hbase : base ≤ 16) (c : UInt8) : isxdigit c = true ∧ digitValue c < base ↔ digit c < base := by
  constructor
  · rintro ⟨hx, hlt⟩
    rwa [← hvalue c hx]
  · intro hlt
    have hx := (isxdigit_iff_digit c).mpr (Nat.lt_of_lt_of_le hlt hbase)
    exact ⟨hx, (hvalue c hx).symm ▸ hlt⟩

theorem scanDigits_spec (hbase : base ≤ 16) (s : List UInt8) (v : ℕ) :
    scanDigits digitValue base (s ++ [0]) (v % 2 ^ 64) =
      .ok (valueFrom base v (leading base s) % 2 ^ 64, behindDigits base s ++ [0]) := by
  induction s generalizing v with
  | nil =>
    rw [List.nil_append, scanDigits, if_neg (mt (isDigit_iff hvalue hbase 0).mp (digit_zero_notLt hbase))]
    rfl
  | cons c s ih =>
    rw [List.cons_append, scanDigits]
    by_cases hc : digit c < base
    · have hmod : (v % 2 ^ 64 * base + digitValue c) % 2 ^ 64 = (v * base + digit c) % 2 ^ 64 := by
        rw [hvalue c ((isDigit_iff hvalue hbase c).mpr hc).1, Nat.add_mod, Nat.mod_mul_mod, ← Nat.add_mod]
      rw [if_pos ((isDigit_iff hvalue hbase c).mpr hc), hmod, ih, leading_cons hc, behindDigits_cons hc]
      rfl
    · rw [if_neg (mt (isDigit_iff hvalue hbase c).mp hc), leading_cons_nil hc, behindDigits_cons_self hc]
      rfl

end Digits

/-! ### The prefix -/

/-- What the code takes for the prefix, the base that it goes on with, and what is behind the prefix. -/
inductive Prefix : ℕ → List UInt8 → List UInt8 → ℕ → List UInt8 → Prop
  | none {base : ℕ} {s : List UInt8} (hbase : base ≠ 0)
    (hs : base = 16 → ∀ x t, s = 48 :: x :: t → x ≠ 88 ∧ x ≠ 120) : Prefix base s [] base s
  | hex {base : ℕ} {x : UInt8} {t : List UInt8} (hbase : base = 0 ∨ base = 16) (hx : x = 88 ∨ x = 120)
    (ht : base = 0 → leading 16 t ≠ []) : Prefix base (48 :: x :: t) [48, x] 16 t
  | octal {t : List UInt8} (ht : ∀ x r, t = x :: r → x = 88 ∨ x = 120 → leading 16 r = []) :
    Prefix 0 (48 :: t) [48] 8 t
  | decimal {s : List UInt8} (hs : s.head? ≠ some 48) : Prefix 0 s [] 10 s

theorem deref_terminated (s : List UInt8) : deref (s ++ [0]) = .ok (s.headD 0) := by
  cases s with
  | nil => rfl
  | cons c s => rfl

theorem isxdigit_headD (t : List UInt8) : isxdigit (t.headD 0) = true ↔ leading 16 t ≠ [] := by
  rw [isxdigit_iff_digit]
  cases t with
  | nil => exact iff_of_false (by decide) (fun h => h rfl)
  | cons c t =>
    by_cases hc : digit c < 16
    · rw [leading_cons hc]
      exact iff_of_true hc (List.cons_ne_nil c _)
    · rw [leading_cons_nil hc]
      exact iff_of_false hc (fun h => h rfl)

theorem toupper_headD (t : List UInt8) : toupper (t.headD 0) = 88 ↔ ∃ x r, t = x :: r ∧ (x = 88 ∨ x = 120) := by
  rw [toupper_eq_X]
  cases t with
  | nil => exact iff_of_false (by decide) (fun ⟨_, _, h, _⟩ => List.cons_ne_nil _ _ h.symm)
  | cons c t =>
    constructor
    · exact fun h => ⟨c, t, rfl, h⟩
    · rintro ⟨x, r, h, hx⟩
      obtain ⟨rfl, rfl⟩ := List.cons.inj h
      exact hx

theorem prefix_auto (s : List UInt8) : ∃ p base' t, Prefix 0 s p base' t ∧ s = p ++ t ∧
    basePrefix (s ++ [0]) 0 = .ok (base', t ++ [0]) := by
  unfold basePrefix
  rw [if_pos rfl, deref_terminated]
  dsimp only [bind, Except.bind]
  cases s with
  | nil => exact ⟨[], 10, [], .decimal (by simp), rfl, rfl⟩
  | cons c s =>
    by_cases hc : c = 48
    · subst hc
      have hhead : (48 :: s).headD 0 = 48 := rfl
      have htail : (48 :: s ++ [0]).tail = s ++ [0] := rfl
      rw [if_pos hhead, htail, deref_terminated]
      dsimp only
      by_cases hx : toupper (s.headD 0) = 88
      · rw [if_pos hx]
        obtain ⟨x, r, rfl, hletter⟩ := (toupper_headD s).mp hx
        have htail : (x :: r ++ [0]).tail = r ++ [0] := rfl
        rw [htail, deref_terminated]
        dsimp only
        by_cases hr : isxdigit (r.headD 0) = true
        · rw [if_pos hr]
          exact ⟨[48, x], 16, r, .hex (.inl rfl) hletter fun _ => (isxdigit_headD r).mp hr, rfl, rfl⟩
        · rw [if_neg hr]
          refine ⟨[48], 8, x :: r, .octal fun y t ht _ => ?_, rfl, rfl⟩
          obtain ⟨-, rfl⟩ := List.cons.inj ht
          exact not_not.mp (mt (isxdigit_headD r).mpr hr)
      · rw [if_neg hx]
        refine ⟨[48], 8, s, .octal fun x r hr hxr => ?_, rfl, rfl⟩
        exact absurd ((toupper_headD s).mpr ⟨x, r, hr, hxr⟩) hx
    · have hhead : (c :: s).headD 0 ≠ 48 := hc
      rw [if_neg hhead]
      refine ⟨[], 10, c :: s, .decimal fun h => hc (Option.some.inj h), rfl, rfl⟩

theorem prefix_hex (s : List UInt8) : ∃ p base' t, Prefix 16 s p base' t ∧ s = p ++ t ∧
    basePrefix (s ++ [0]) 16 = .ok (base', t ++ [0]) := by
  unfold basePrefix
  rw [if_neg (by decide), if_pos rfl, deref_terminated]
  dsimp only [bind, Except.bind]
  by_cases hc : s.headD 0 = 48
  · rw [if_pos hc]
    obtain ⟨r, rfl⟩ : ∃ r, s = 48 :: r := by
      cases s with
      | nil => cases hc
      | cons c r => exact ⟨r, congrArg (· :: r) hc⟩
    have htail : (48 :: r ++ [0]).tail = r ++ [0] := rfl
    rw [htail, deref_terminated]
    dsimp only
    by_cases hx : toupper (r.headD 0) = 88
    · rw [if_pos hx]
      obtain ⟨x, t, rfl, hletter⟩ := (toupper_headD r).mp hx
      exact ⟨[48, x], 16, t, .hex (.inr rfl) hletter (fun h => by cases h), rfl, rfl⟩
    · rw [if_neg hx]
      refine ⟨[], 16, 48 :: r, .none (by decide) fun _ x t ht => ?_, rfl, rfl⟩
      obtain ⟨-, hr⟩ := List.cons.inj ht
      exact not_or.mp fun hxt => hx ((toupper_headD r).mpr ⟨x, t, hr, hxt⟩)
  · rw [if_neg hc]
    refine ⟨[], 16, s, .none (by decide) fun _ x t ht => ?_, rfl, rfl⟩
    exact absurd (by rw [ht]; rfl) hc

theorem prefix_spec (base : ℕ) (s : List UInt8) : ∃ p base' t, Prefix base s p base' t ∧
    s = p ++ t ∧ basePrefix (s ++ [0]) base = .ok (base', t ++ [0]) := by
  by_cases hzero : base = 0
  · rw [hzero]
    exact prefix_auto s
  · by_cases hhex : base = 16
    · rw [hhex]
      exact prefix_hex s
    · refine ⟨[], base, s, .none hzero fun h => absurd h hhex, rfl, ?_⟩
      unfold basePrefix
      rw [if_neg hzero, if_neg hhex]

/-! ### The longest number -/

theorem Prefix.base_le (hbase : base ≤ 16) (h : Prefix base s p base' t) : base' ≤ 16 := by
  cases h with
  | none _ _ => exact hbase
  | hex _ _ _ => exact Nat.le_refl 16
  | octal _ => decide
  | decimal _ => decide

/-- The letter of a prefix is no digit. -/
theorem Digits.nil_of_letter {w' : List UInt8} (hbase : base ≤ 16) (hx : x = 88 ∨ x = 120) (hw : w' <+: x :: t)
    (h : Digits base w') : w' = [] := by
  cases w' with
  | nil => rfl
  | cons c w' =>
    obtain ⟨rfl, -⟩ := List.cons_prefix_cons.mp hw
    have hlt : digit c < base := h c List.mem_cons_self
    have hge := digit_x hx
    omega

/-- Behind `0x` and digits, no number is longer than the hexadecimal one. -/
theorem Numeral.length_le_hex {w' : List UInt8} (hbases : base = 0 ∨ base = 16) (hx : x = 88 ∨ x = 120)
    (hnumeral : Numeral base w' v) (hw' : w' <+: 48 :: x :: t) : w'.length ≤ (leading 16 t).length + 2 := by
  cases hnumeral with
  | plain hbase hw =>
    cases w' with
    | nil => exact Nat.zero_le _
    | cons c w' =>
      obtain ⟨-, hbehind⟩ := List.cons_prefix_cons.mp hw'
      have hle : base ≤ 16 := by
        obtain rfl | rfl := hbases
        · exact absurd rfl hbase
        · exact Nat.le_refl 16
      have hnil := Digits.nil_of_letter hle hx hbehind fun d hd => hw d (List.mem_cons_of_mem c hd)
      rw [hnil]
      exact Nat.le_add_left_of_le (Nat.le_succ 1)
  | hex _ _ _ hw =>
    obtain ⟨-, hbehind⟩ := List.cons_prefix_cons.mp hw'
    obtain ⟨-, hbehind⟩ := List.cons_prefix_cons.mp hbehind
    have hle := length_le_leading hbehind hw
    rw [List.length_cons, List.length_cons]
    exact Nat.add_le_add_right hle 2
  | octal hw =>
    obtain ⟨-, hbehind⟩ := List.cons_prefix_cons.mp hw'
    rw [Digits.nil_of_letter (by decide) hx hbehind hw]
    exact Nat.le_add_left_of_le (Nat.le_succ 1)
  | decimal hhead _ =>
    cases w' with
    | nil => exact Nat.zero_le _
    | cons c w' =>
      obtain ⟨rfl, -⟩ := List.cons_prefix_cons.mp hw'
      exact absurd rfl hhead

/-- Behind a 0 without such a prefix, none is longer than the octal one. -/
theorem Numeral.length_le_octal {w' : List UInt8} (hnot : ∀ x r, t = x :: r → x = 88 ∨ x = 120 → leading 16 r = [])
    (hnumeral : Numeral 0 w' v) (hw' : w' <+: 48 :: t) : w'.length ≤ (leading 8 t).length + 1 := by
  cases hnumeral with
  | plain hbase _ => exact absurd rfl hbase
  | hex _ hx hne hw =>
    obtain ⟨-, r, hr⟩ := List.cons_prefix_cons.mp hw'
    have hle := length_le_leading (List.prefix_append _ r) hw
    rw [hnot _ (_ ++ r) hr.symm hx] at hle
    exact absurd (List.eq_nil_of_length_eq_zero (Nat.le_zero.mp hle)) hne
  | octal hw =>
    obtain ⟨-, hbehind⟩ := List.cons_prefix_cons.mp hw'
    exact Nat.succ_le_succ (length_le_leading hbehind hw)
  | decimal hhead _ =>
    cases w' with
    | nil => exact Nat.zero_le _
    | cons c w' =>
      obtain ⟨rfl, -⟩ := List.cons_prefix_cons.mp hw'
      exact absurd rfl hhead

theorem Prefix.longest (h : Prefix base s p base' t) (hs : s = p ++ t)
    (hdigits : p ≠ [] → base' = 16 → leading 16 t ≠ []) :
    Starts base s (p ++ leading base' t) (value base' (leading base' t)) (behindDigits base' t) := by
  have hsplit : s = (p ++ leading base' t) ++ behindDigits base' t := by
    rw [List.append_assoc, leading_append, hs]
  cases h with
  | none hbase hnot =>
    refine ⟨hsplit, .plain hbase (digits_leading base s), fun w' v' hw' hnumeral => ?_⟩
    cases hnumeral with
    | plain _ hw => exact length_le_leading hw' hw
    | hex hbases hx _ _ =>
      obtain ⟨r, hr⟩ := hw'
      have hneither := hnot (hbases.resolve_left hbase) _ _ hr.symm
      exact absurd hx (not_or.mpr hneither)
    | octal _ => exact absurd rfl hbase
    | decimal _ _ => exact absurd rfl hbase
  | @hex _ x t hbases hx _ =>
    have hne : leading 16 t ≠ [] := hdigits (List.cons_ne_nil _ _) rfl
    refine ⟨hsplit, .hex hbases hx hne (digits_leading 16 t), fun w' v' hw' hnumeral => ?_⟩
    rw [List.length_append, Nat.add_comm]
    exact hnumeral.length_le_hex hbases hx hw'
  | @octal t hnot =>
    refine ⟨hsplit, .octal (digits_leading 8 t), fun w' v' hw' hnumeral => ?_⟩
    exact hnumeral.length_le_octal hnot hw'
  | decimal hhead =>
    have hfirst : (leading 10 s).head? ≠ some 48 := by
      rw [leading, List.head?_takeWhile]
      exact fun h => hhead (Option.eq_some_of_filter_eq_some h)
    have hbegins : ∀ r, ¬48 :: r <+: s := by
      rintro r ⟨q, rfl⟩
      exact hhead rfl
    refine ⟨hsplit, .decimal hfirst (digits_leading 10 s), fun w' v' hw' hnumeral => ?_⟩
    cases hnumeral with
    | plain hbase _ => exact absurd rfl hbase
    | hex _ _ _ _ => exact absurd hw' (hbegins _)
    | octal _ => exact absurd hw' (hbegins _)
    | decimal _ hw => exact length_le_leading hw' hw

theorem scan_eq (h : Prefix base s p base' t) (hbase : base ≤ 16)
    (hbegin : basePrefix (s ++ [0]) base = .ok (base', t ++ [0])) :
    simple_strtoul (s ++ [0]) base = .ok (value base' (leading base' t) % 2 ^ 64, behindDigits base' t ++ [0]) := by
  have hdigits := scanDigits_spec digitValue_eq (Prefix.base_le hbase h) t 0
  unfold simple_strtoul scanUnsigned
  rw [hbegin]
  exact hdigits

/-- `simple_strtoul` reads the longest number. -/
def Scans (base : ℕ) (s : List UInt8) : Prop :=
  ∃ w v rest, Starts base s w v rest ∧ simple_strtoul (s ++ [0]) base = .ok (v % 2 ^ 64, rest ++ [0])

theorem scans_iff_of_base (hbase : base ∈ [0, 8, 10, 16]) (s : List UInt8) :
    Scans base s ↔ ¬(base = 16 ∧ HexPrefixOnly s) := by
  have hle : base ≤ 16 := by
    simp only [List.mem_cons, List.not_mem_nil, or_false] at hbase
    omega
  obtain ⟨p, base', t, hkind, hs, hbegin⟩ := prefix_spec base s
  have hscan := scan_eq hkind hle hbegin
  constructor
  · rintro ⟨w, v, rest, hstarts, hresult⟩ ⟨rfl, x, r, rfl, hx, hnil⟩
    have hrest : rest = r := by
      cases hkind with
      | none _ hnot => exact absurd hx (not_or.mpr (hnot rfl x r rfl))
      | hex _ _ _ =>
        have heq := hresult.symm.trans hscan
        rw [Except.ok.injEq, Prod.mk.injEq, List.append_left_inj] at heq
        have hsplit := leading_append 16 t
        rw [hnil] at hsplit
        exact heq.2.trans hsplit
    rw [hrest] at hstarts
    have hw : w = [48, x] := (List.append_cancel_right (hstarts.split.symm : w ++ r = [48, x] ++ r))
    have hnumeral := hstarts.numeral
    rw [hw] at hnumeral
    cases hnumeral with
    | plain _ hdigits =>
      have hlt : digit x < 16 := hdigits x (List.mem_cons_of_mem 48 List.mem_cons_self)
      exact absurd (digit_x hx) (Nat.not_le.mpr hlt)
    | hex _ _ hne _ => exact hne rfl
  · intro hnot
    refine ⟨_, _, _, hkind.longest hs fun hp hhex => ?_, hscan⟩
    cases hkind with
    | none _ _ => exact absurd rfl hp
    | @hex _ x _ hbases hx hzero =>
      obtain h0 | h16 := hbases
      · exact hzero h0
      · exact fun hnil => hnot ⟨h16, x, _, rfl, hx, hnil⟩
    | octal _ => cases hhex
    | decimal _ => exact absurd rfl hp

theorem strtoull_eq : simple_strtoull = simple_strtoul := by
  unfold simple_strtoull simple_strtoul
  congr 1
  funext c
  by_cases hc : islower c = true
  · rw [if_pos hc]
  · have hsame : toupper c = c := if_neg hc
    rw [if_neg hc, hsame]

/-! ### Progress -/

section Progress

open Fallible

/-- What is left of a string that is read from, with its end. -/
def Left (p q : List UInt8) : Prop := q <:+ p ∧ 0 ∈ q

variable {q : List UInt8}

theorem Left.refl (h : 0 ∈ p) : Left p p := ⟨List.suffix_refl p, h⟩

theorem Left.trans {r : List UInt8} (h : Left p q) (h' : Left q r) : Left p r := ⟨h'.1.trans h.1, h'.2⟩

theorem Left.behind (c : UInt8) (h : Left p q) : Left (c :: p) q := ⟨h.1.trans (List.suffix_cons c p), h.2⟩

theorem mem_tail (h : 0 ∈ c :: p) (hc : c ≠ 0) : 0 ∈ p := (List.mem_cons.mp h).resolve_left (Ne.symm hc)

/-- A result of a part of the code, without a read behind the end. -/
abbrev Reads {α : Type} (r : Except Stop α) (Q : α → Prop) : Prop := Ensures (fun _ => False) r Q

theorem deref_spec (h : 0 ∈ p) : Reads (deref p) fun c => ∃ q, p = c :: q := by
  cases p with
  | nil => cases h
  | cons c p => exact ⟨p, rfl⟩

theorem ne_zero_of_isspace (h : isspace c = true) : c ≠ 0 := by
  rintro rfl
  exact absurd h (by decide)

theorem ne_zero_of_isdigit (h : isdigit c = true) : c ≠ 0 := by
  rintro rfl
  exact absurd h (by decide)

theorem ne_zero_of_isxdigit (h : isxdigit c = true) : c ≠ 0 := by
  rintro rfl
  exact absurd h (by decide)

theorem skipSpace_spec (h : 0 ∈ p) : Reads (skipSpace p) (Left p) := by
  induction p with
  | nil => cases h
  | cons c p ih =>
    rw [skipSpace]
    by_cases hc : isspace c = true
    · rw [if_pos hc]
      exact (ih (mem_tail h (ne_zero_of_isspace hc))).mono fun _ => Left.behind c
    · rw [if_neg hc]
      exact Left.refl h

theorem skipWord_spec (h : 0 ∈ p) : Reads (skipWord p) (Left p) := by
  induction p with
  | nil => cases h
  | cons c p ih =>
    rw [skipWord]
    by_cases hc : ¬isspace c ∧ c ≠ 0
    · rw [if_pos hc]
      exact (ih (mem_tail h hc.2)).mono fun _ => Left.behind c
    · rw [if_neg hc]
      exact Left.refl h

theorem skip_atoi_spec (h : 0 ∈ p) (i : Int) : Reads (skip_atoi p i) fun r => Left p r.2 := by
  induction p generalizing i with
  | nil => cases h
  | cons c p ih =>
    rw [skip_atoi]
    by_cases hc : isdigit c = true
    · rw [if_pos hc]
      exact (ih (mem_tail h (ne_zero_of_isdigit hc)) _).mono fun _ => Left.behind c
    · rw [if_neg hc]
      exact Left.refl h

theorem copyChars_spec (h : 0 ∈ p) (field_width : Int) : Reads (copyChars (c :: p) field_width) fun r => Left p r.2 := by
  induction p generalizing c field_width with
  | nil => cases h
  | cons d p ih =>
    rw [copyChars]
    dsimp only
    split_ifs with hwidth
    · rw [deref]
      dsimp only [bind, Except.bind]
      by_cases hd : d ≠ 0
      · rw [if_pos hd]
        exact (ih (mem_tail h hd) _).seq fun r hr => Left.behind d hr
      · rw [if_neg hd]
        exact Left.refl h
    · exact Left.refl h

theorem copyWord_spec (h : 0 ∈ p) (field_width : Int) : Reads (copyWord p field_width) fun r => Left p r.2 := by
  induction p generalizing field_width with
  | nil => cases h
  | cons c p ih =>
    rw [copyWord]
    split_ifs with hc
    · exact (ih (mem_tail h hc.1) _).seq fun r hr => Left.behind c hr
    · exact Left.refl h

theorem scanDigits_reads {digitValue : UInt8 → ℕ} (h : 0 ∈ p) (v : ℕ) :
    Reads (scanDigits digitValue base p v) fun r => Left p r.2 := by
  induction p generalizing v with
  | nil => cases h
  | cons c p ih =>
    rw [scanDigits]
    split_ifs with hc
    · exact (ih (mem_tail h (ne_zero_of_isxdigit hc.1)) _).mono fun _ => Left.behind c
    · exact Left.refl h

theorem ne_zero_of_toupper (h : toupper c = 88) : c ≠ 0 := by
  rintro rfl
  exact absurd h (by decide)

theorem basePrefix_reads (h : 0 ∈ p) : Reads (basePrefix p base) fun r => Left p r.2 := by
  unfold basePrefix
  split_ifs with hzero hhex
  · refine (deref_spec h).seq ?_
    rintro c ⟨q, rfl⟩
    split_ifs with hc
    · have hq : 0 ∈ q := mem_tail h (hc ▸ by decide)
      refine (deref_spec hq).seq ?_
      rintro d ⟨r, hr⟩
      rw [List.tail_cons, hr, List.tail_cons]
      rw [hr] at hq
      split_ifs with hd
      · have hrest : 0 ∈ r := mem_tail hq (ne_zero_of_toupper hd)
        refine (deref_spec hrest).seq ?_
        rintro e -
        split_ifs
        · exact ((Left.refl hrest).behind d).behind c
        · exact (Left.refl hq).behind c
      · exact (Left.refl hq).behind c
    · exact Left.refl h
  · refine (deref_spec h).seq ?_
    rintro c ⟨q, rfl⟩
    split_ifs with hc
    · have hq : 0 ∈ q := mem_tail h (hc ▸ by decide)
      refine (deref_spec hq).seq ?_
      rintro d ⟨r, hr⟩
      rw [List.tail_cons, hr, List.tail_cons]
      rw [hr] at hq
      split_ifs with hd
      · exact ((Left.refl (mem_tail hq (ne_zero_of_toupper hd))).behind d).behind c
      · exact hr ▸ Left.refl h
    · exact Left.refl h
  · exact Left.refl h

theorem simple_strtoul_reads (h : 0 ∈ p) (base : ℕ) : Reads (simple_strtoul p base) fun r => Left p r.2 := by
  refine (basePrefix_reads h).seq fun r hr => ?_
  exact (scanDigits_reads hr.2 0).mono fun _ => hr.trans

theorem simple_strtol_reads (h : 0 ∈ p) (base : ℕ) : Reads (simple_strtol p base) fun r => Left p r.2 := by
  refine (deref_spec h).seq ?_
  rintro c ⟨q, rfl⟩
  split_ifs with hc
  · have hq : 0 ∈ q := mem_tail h (hc ▸ by decide)
    exact (simple_strtoul_reads hq base).seq fun r hr => hr.behind c
  · exact (simple_strtoul_reads h base).seq fun r hr => hr

theorem readNumber_reads (h : 0 ∈ p) (base : ℕ) (is_sign : Bool) (qualifier : Option UInt8) :
    Reads (readNumber p base is_sign qualifier) fun r => Left p r.2 := by
  have hsigned : ∀ bits, Reads (signedAs bits <$> simple_strtol p base) fun r => Left p r.2 := fun bits =>
    (ensures_map _ _).mpr (simple_strtol_reads h base)
  have hunsigned : ∀ bits, Reads (unsignedAs bits <$> simple_strtoul p base) fun r => Left p r.2 := fun bits =>
    (ensures_map _ _).mpr (simple_strtoul_reads h base)
  have hlong : simple_strtoll = simple_strtol := by
    unfold simple_strtoll simple_strtol
    rw [strtoull_eq]
  unfold readNumber
  rw [hlong, strtoull_eq]
  split_ifs
  all_goals first | exact hsigned _ | exact hunsigned _

/-- The loop goes on only with strings that are left of these ones. -/
def Goes (fmt str : List UInt8) : Turn → Prop
  | .goOn s => Left fmt s.fmt ∧ Left str s.str
  | .done _ => True

theorem Goes.mono {fmt fmt' str str' : List UInt8} (hfmt : Left fmt' fmt) (hstr : Left str' str) {t : Turn}
    (h : Goes fmt str t) : Goes fmt' str' t := by
  cases t with
  | goOn s => exact ⟨hfmt.trans h.1, hstr.trans h.2⟩
  | done s => trivial

theorem firstDigit_spec (h : 0 ∈ p) (is_sign : Bool) : Reads (firstDigit is_sign p) fun _ => True := by
  refine (deref_spec h).seq ?_
  rintro c ⟨q, rfl⟩
  split_ifs with hc
  · exact (deref_spec (mem_tail h (hc.2 ▸ by decide))).mono fun _ _ => trivial
  · trivial

theorem integer_spec {s : State} (hfmt : 0 ∈ s.fmt) (hstr : 0 ∈ s.str) (base : ℕ) (is_sign : Bool)
    (qualifier : Option UInt8) : Reads (integer s base is_sign qualifier) (Goes s.fmt s.str) := by
  refine (skipSpace_spec hstr).seq fun str hleft => ?_
  refine (firstDigit_spec hleft.2 is_sign).seq fun digit _ => ?_
  split_ifs
  · trivial
  · exact (readNumber_reads hleft.2 base is_sign qualifier).seq fun r hr => ⟨Left.refl hfmt, hleft.trans hr⟩

theorem conversion_spec (buf : List UInt8) {fmt str : List UInt8} {s : State} {f : UInt8} (hs : s.fmt = f :: fmt) (hfmt : 0 ∈ fmt)
    (hstr : s.str = c :: str) (hc : 0 ∈ str) (field_width : Int) (qualifier : Option UInt8) :
    Reads (conversion buf s field_width qualifier) (Goes fmt s.str) := by
  have hmem : 0 ∈ s.str := by
    rw [hstr]
    exact List.mem_cons_of_mem c hc
  have hinteger : ∀ base is_sign, Reads (integer { s with fmt } base is_sign qualifier) (Goes fmt s.str) :=
    fun base is_sign => integer_spec (s := { s with fmt }) hfmt hmem base is_sign qualifier
  unfold conversion
  rw [hs]
  refine (deref_spec (List.mem_cons_of_mem f hfmt)).seq ?_
  rintro d -
  dsimp only [List.tail_cons]
  generalize (if field_width = -1 then 1 else field_width) = chars
  generalize (if field_width = -1 then INT_MAX else field_width) = word
  refine ensures_ite (fun _ => ?_) fun _ => ?_ -- c
  · rw [hstr]
    exact (copyChars_spec hc _).seq fun r hr => ⟨Left.refl hfmt, hr.behind c⟩
  refine ensures_ite (fun _ => ?_) fun _ => ?_ -- s
  · refine (skipSpace_spec hmem).seq fun str hleft => ?_
    exact (copyWord_spec hleft.2 _).seq fun r hr => ⟨Left.refl hfmt, hleft.trans hr⟩
  refine ensures_ite (fun _ => ⟨Left.refl hfmt, Left.refl hmem⟩) fun _ => ?_ -- n
  refine ensures_ite (fun _ => hinteger _ _) fun _ => ?_ -- o
  refine ensures_ite (fun _ => hinteger _ _) fun _ => ?_ -- x, X
  refine ensures_ite (fun _ => hinteger _ _) fun _ => ?_ -- i
  refine ensures_ite (fun _ => hinteger _ _) fun _ => ?_ -- d
  refine ensures_ite (fun _ => hinteger _ _) fun _ => ?_ -- u
  refine ensures_ite (fun _ => ?_) fun _ => trivial -- %
  refine (deref_spec hmem).seq ?_
  rintro e -
  rw [hstr, List.tail_cons]
  exact ensures_ite (fun _ => ⟨Left.refl hfmt, (Left.refl hc).behind c⟩) fun _ => trivial

theorem readQualifier_spec (h : 0 ∈ p) : Reads (readQualifier p) fun r => Left p r.2 := by
  refine (deref_spec h).seq ?_
  rintro c ⟨q, rfl⟩
  split_ifs with hc
  · have hq : 0 ∈ q := mem_tail h (by rintro rfl; simp at hc)
    refine (deref_spec hq).seq ?_
    rintro d ⟨r, hr⟩
    rw [List.tail_cons, hr, List.tail_cons]
    rw [hr] at hq
    split_ifs with hh hl
    · exact ((Left.refl (mem_tail hq (hh.1 ▸ hh.2 ▸ by decide))).behind d).behind c
    · exact ((Left.refl (mem_tail hq (hl.1 ▸ hl.2 ▸ by decide))).behind d).behind c
    · exact (Left.refl hq).behind c
  · exact Left.refl h

theorem fieldWidth_spec (h : 0 ∈ p) : Reads (fieldWidth p) fun r => Left p r.2 := by
  refine (deref_spec h).seq ?_
  rintro c -
  split_ifs
  · exact skip_atoi_spec h 0
  · exact Left.refl h

theorem directive_spec {buf : List UInt8} {s : State} (hfmt : 0 ∈ s.fmt) (hstr : 0 ∈ s.str) :
    Reads (directive buf s) (Goes s.fmt s.str) := by
  refine (deref_spec hfmt).seq ?_
  rintro c -
  split_ifs
  · refine (skipWord_spec hfmt).seq fun fmt hleft => ?_
    exact (skipWord_spec hstr).seq fun str hleft' => ⟨hleft, hleft'⟩
  · refine (fieldWidth_spec hfmt).seq fun width hwidth => ?_
    refine (readQualifier_spec hwidth.2).seq fun qualifier hqualifier => ?_
    refine (deref_spec hqualifier.2).seq ?_
    rintro f ⟨fmt, hf⟩
    split_ifs with hf0
    · trivial
    · refine (deref_spec hstr).seq ?_
      rintro d ⟨str, hd⟩
      split_ifs with hd0
      · trivial
      · have hbehind : 0 ∈ fmt := mem_tail (hf ▸ hqualifier.2) hf0
        have hgoes := conversion_spec buf (s := { s with fmt := qualifier.2 }) hf hbehind hd (mem_tail (hd ▸ hstr) hd0)
          width.1 qualifier.1
        refine hgoes.mono fun t ht => ht.mono ?_ (Left.refl hstr)
        exact (hwidth.trans hqualifier).trans (hf ▸ (Left.refl hbehind).behind f)

theorem element_spec {buf : List UInt8} {s : State} (hfmt : 0 ∈ s.fmt) (hstr : 0 ∈ s.str) :
    Reads (element buf s) (Goes s.fmt.tail s.str) := by
  refine (deref_spec hfmt).seq ?_
  rintro c ⟨fmt, hc⟩
  rw [hc, List.tail_cons]
  split_ifs with hother hzero
  · have hbehind : 0 ∈ fmt := mem_tail (hc ▸ hfmt) hother.2
    refine (deref_spec hstr).seq ?_
    rintro d ⟨str, hd⟩
    split_ifs with heq
    · rw [hd, List.tail_cons]
      exact ⟨Left.refl hbehind, (Left.refl (mem_tail (hd ▸ hstr) (heq ▸ hother.2))).behind d⟩
    · trivial
  · trivial
  · exact directive_spec (mem_tail (hc ▸ hfmt) hzero) hstr

theorem Left.tail {r : List UInt8} (h : Left p q) (h' : Left q.tail r) : Left p.tail r := by
  refine ⟨?_, h'.2⟩
  cases p with
  | nil => exact absurd (List.suffix_nil.mp h.1 ▸ h.2) List.not_mem_nil
  | cons c p =>
    obtain rfl | hsuffix := List.suffix_cons_iff.mp h.1
    · exact h'.1
    · exact (h'.1.trans (List.tail_suffix q)).trans hsuffix

/-- A turn that goes on takes at least one character of the format, and reads behind no end. -/
theorem turn_spec {buf : List UInt8} {s : State} (hfmt : 0 ∈ s.fmt) (hstr : 0 ∈ s.str) :
    Reads (turn buf s) (Goes s.fmt.tail s.str) := by
  refine (deref_spec hfmt).seq ?_
  rintro c -
  split_ifs
  · refine (skipSpace_spec hfmt).seq fun fmt hleft => ?_
    refine (skipSpace_spec hstr).seq fun str hleft' => ?_
    refine (element_spec (s := { s with fmt, str }) hleft.2 hleft'.2).mono fun t ht => ?_
    cases t with
    | goOn s' => exact ⟨hleft.tail ht.1, hleft'.trans ht.2⟩
    | done s' => trivial
  · exact element_spec hfmt hstr

theorem turns_spec (buf : List UInt8) {n : ℕ} {s : State} (hfmt : 0 ∈ s.fmt) (hstr : 0 ∈ s.str)
    (hn : s.fmt.length < n) : Reads (turns buf n s) fun _ => True := by
  induction n generalizing s with
  | zero => omega
  | succ n ih =>
    refine (deref_spec hfmt).seq ?_
    rintro c ⟨fmt, hc⟩
    split_ifs
    · trivial
    · refine (deref_spec hstr).seq ?_
      rintro d -
      split_ifs
      · trivial
      · refine (turn_spec hfmt hstr).seq fun t ht => ?_
        cases t with
        | goOn s' =>
          have hle : s'.fmt.length ≤ s.fmt.tail.length := ht.1.1.length_le
          rw [hc, List.tail_cons] at hle
          rw [hc, List.length_cons] at hn
          exact ih ht.1.2 ht.2.2 (by omega)
        | done s' => trivial

theorem vsscanf_ends (n : ℕ) (buf fmt : List UInt8) (hn : fmt.length + 1 < n) :
    ∃ r, vsscanf n (buf ++ [0]) (fmt ++ [0]) = .ok r := by
  have hend : ∀ l : List UInt8, 0 ∈ l ++ [0] := fun l => List.mem_append_right l List.mem_cons_self
  have hturns := turns_spec (buf ++ [0]) (s := ⟨fmt ++ [0], buf ++ [0], 0, []⟩) (hend fmt) (hend buf)
    (by rwa [List.length_append, List.length_singleton])
  unfold vsscanf
  cases h : turns (buf ++ [0]) n ⟨fmt ++ [0], buf ++ [0], 0, []⟩ with
  | error e => exact (hturns.error h).elim
  | ok s => exact ⟨_, rfl⟩

/-- In base 16 the prefix is taken without a digit behind it; everything else is the longest number, and
`vsscanf` ends, each turn with a shorter format. -/
theorem scans_iff {base : ℕ} (hbase : base ∈ [0, 8, 10, 16]) (s buf fmt : List UInt8) {n : ℕ} (hn : fmt.length + 1 < n) :
    (Scans base s ↔ ¬(base = 16 ∧ HexPrefixOnly s)) ∧
    (∃ r, vsscanf n (buf ++ [0]) (fmt ++ [0]) = .ok r) ∧
    ∀ t t', 0 ∈ t.fmt → 0 ∈ t.str → turn (buf ++ [0]) t = .ok (.goOn t') →
      t'.fmt.length < t.fmt.length ∧ t'.str.length ≤ t.str.length := by
  refine ⟨scans_iff_of_base hbase s, vsscanf_ends n buf fmt hn, fun t t' hfmt hstr hturn => ?_⟩
  have hgoes : Goes t.fmt.tail t.str (.goOn t') := (turn_spec hfmt hstr).ok hturn
  have hlength := hgoes.1.1.length_le
  rw [List.length_tail] at hlength
  have hpos := List.length_pos_of_mem hfmt
  exact ⟨by omega, hgoes.2.1.length_le⟩

theorem scans_iff_number : Scans 16 [48, 120, 50, 97, 59] ∧ ∃ r, vsscanf 9 [48, 120, 50, 97, 0] [37, 120, 0] = .ok r := by
  obtain ⟨hscans, hends, -⟩ := scans_iff (by decide : 16 ∈ [0, 8, 10, 16]) [48, 120, 50, 97, 59] [48, 120, 50, 97] [37, 120]
    (by decide : 2 + 1 < 9)
  refine ⟨hscans.mpr ?_, hends⟩
  rintro ⟨-, x, t, hs, -, hnil⟩
  simp only [List.cons.injEq] at hs
  obtain ⟨-, -, rfl⟩ := hs
  exact absurd hnil (by decide)

/-- `0xg`: base 16 skips the letter, and base 0 does not. -/
theorem prefix_without_digit : simple_strtoul [48, 120, 103, 0] 16 = .ok (0, [103, 0]) ∧
    simple_strtoul [48, 120, 103, 0] 0 = .ok (0, [120, 103, 0]) ∧ ¬Scans 16 [48, 120, 103] := by
  refine ⟨by decide, by decide, fun h => (scans_iff_of_base (by decide) _).mp h ⟨rfl, 120, [103], rfl, .inr rfl, ?_⟩⟩
  decide

end Progress

end KPanic.Scanf
