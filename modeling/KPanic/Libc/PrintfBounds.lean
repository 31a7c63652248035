import KPanic.Libc.NumberFormat
import KPanic.Lib.Ensures

/-!
# How much `printf` writes

A turn writes characters that `character_count` counts, and which it cuts, or characters that it does not count.
-/

namespace KPanic.Printf

open Fallible

inductive Piece
  | counted (n : ℕ)
  /-- How many characters there are depends on what is left of the count, as the width is cut to it. -/
  | uncounted (n : ℕ → ℕ)

namespace Piece

def taken (room : ℕ) : Piece → ℕ
  | counted n => min n room
  | uncounted _ => 0

def extra (room : ℕ) : Piece → ℕ
  | counted _ => 0
  | uncounted n => n room

/-- The length of a string fits in an `int`. -/
def Short : Piece → Prop
  | counted n => n < 2 ^ 31
  | uncounted _ => True

end Piece

/-- The counted characters, up to the 256th if `room` is 256. -/
def counted (room : ℕ) : List Piece → ℕ
  | [] => 0
  | p :: ps => if room = 0 then 0 else p.taken room + counted (room - p.taken room) ps

/-- The characters of numbers, of `%c` and of unknown conversions before the count is used up. -/
def uncounted (room : ℕ) : List Piece → ℕ
  | [] => 0
  | p :: ps => if room = 0 then 0 else p.extra room + uncounted (room - p.taken room) ps

section Pieces

variable (writeFloat : BitVec 64 → Int → ℕ → UInt8 → List UInt8) (args : ℕ → Arg)

/-- Flags, width, precision and conversion; no width is cut to `INT_MAX`. -/
def readConversion (format : List UInt8) : Except Stop (UInt8 × Int × ℕ × UInt8 × List UInt8) := do
  let (flag, width, format) ← readPrefix format (2 ^ 31 - 1)
  let (precision, format) ← readPrecision format
  .ok (flag, width, precision, ← deref format, format.tail)

def number (arg : Arg) (base : ℕ) (width : ℕ) (type : UInt8) : Piece :=
  .uncounted fun room => (numberChars arg.number base (min width room) type).length

/-- What a conversion writes, and how many arguments it takes. -/
def pieceOf (c flag : UInt8) (width precision : ℕ) (arg : Arg) : Piece × ℕ :=
  if c = 37 then (.counted 1, 0)
  else if c = 115 then (.counted (max width arg.string.length), 1)
  else if c = 100 then (number arg 10 width (flag ||| SIGN), 1)
  else if c = 111 then (number arg 8 width (flag ||| SPECIAL), 1)
  else if c = 117 then (number arg 10 width flag, 1)
  else if c = 112 ∨ c = 120 then (number arg 16 width (flag ||| SPECIAL), 1)
  else if c = 88 then (number arg 16 width (flag ||| SPECIAL ||| LARGE), 1)
  else if c = 102 then (.uncounted fun room => (writeFloat arg.float (min width room : ℕ) precision flag).length, 1)
  else if c = 70 then (.uncounted fun room => (writeFloat arg.float (min width room : ℕ) precision (flag ||| LARGE)).length, 1)
  else if c = 99 then (.uncounted fun _ => 1, 1)
  else (.uncounted fun _ => 1, 0)

/-- What is at a place of the format that is not its end, what is behind it, and the next argument. -/
def nextPiece (i : ℕ) : List UInt8 → Option (Piece × List UInt8 × ℕ)
  | [] => none
  | c :: format =>
    if c = 37 then
      match readConversion format with
      | .error _ => none
      | .ok (flag, width, precision, c, format) =>
        let (p, taken) := pieceOf writeFloat c flag width.toNat precision (args i)
        some (p, format, i + taken)
    else some (.counted 1, format, i)

/-- The pieces up to the end of the format. -/
def pieces : ℕ → ℕ → List UInt8 → List Piece
  | 0, _, _ => []
  | n + 1, i, format =>
    if format.head? = some 0 then []
    else
      match nextPiece writeFloat args i format with
      | none => []
      | some (p, format, i) => p :: pieces n i format

end Pieces

/-! ### Reading the format -/

variable {writeFloat : BitVec 64 → Int → ℕ → UInt8 → List UInt8} {args : ℕ → Arg} {s : State} {out : CString}
  {format l : List UInt8} {c flag : UInt8} {room n : ℕ}

theorem numberOf_lt (num : List UInt8) : numberOf num < 2 ^ 31 - 1 := by
  have hbyte : ∀ c : UInt8, c.toNat < 256 := fun c => c.toNat_lt
  have hlist : ∀ l : List UInt8, l.length ≤ 3 → atoi l < 2 ^ 31 - 1 := by
    intro l hl
    rcases l with _ | ⟨a, _ | ⟨b, _ | ⟨d, _ | ⟨e, l⟩⟩⟩⟩
    · decide
    · have ha := hbyte a
      simp only [atoi, List.foldl]
      omega
    · have ha := hbyte a
      have hb := hbyte b
      simp only [atoi, List.foldl]
      omega
    · have ha := hbyte a
      have hb := hbyte b
      have hd := hbyte d
      simp only [atoi, List.foldl]
      omega
    · simp only [List.length_cons] at hl
      omega
  apply hlist
  rw [List.length_take]
  exact Nat.min_le_left 3 _

/-- The width is cut to what is left of the count. -/
theorem readPrefix_cut (format : List UInt8) (room : ℕ) : readPrefix format room =
    (readPrefix format (2 ^ 31 - 1)).map fun r => (r.1, if (room : Int) < r.2.1 then (room : Int) else r.2.1, r.2.2) := by
  unfold readPrefix
  cases readFlags format 0 with
  | error e => rfl
  | ok r =>
    dsimp only [bind, Except.bind]
    cases readDigits r.2 49 with
    | error e => rfl
    | ok r' =>
      dsimp only
      by_cases hnum : r'.1 = []
      · have hnot : ¬(room : Int) < 0 := by omega
        rw [if_pos hnum, if_pos hnum]
        simp only [Except.map, if_neg hnot]
      · have hlt := numberOf_lt r'.1
        have hwidth : ¬(2 ^ 31 - 1 : Int) < numberOf r'.1 := by omega
        rw [if_neg hnum, if_neg hnum, if_neg hwidth]
        cases readFlags r'.2 r.1 with
        | error e => rfl
        | ok r'' => rfl

theorem readPrefix_nonneg (h : readPrefix format (2 ^ 31 - 1) = .ok (flag, width, l)) : 0 ≤ width ∧ width < 2 ^ 31 := by
  unfold readPrefix at h
  cases hflags : readFlags format 0 with
  | error e =>
    rw [hflags] at h
    cases h
  | ok r =>
    rw [hflags] at h
    dsimp only [bind, Except.bind] at h
    cases hdigits : readDigits r.2 49 with
    | error e =>
      rw [hdigits] at h
      cases h
    | ok r' =>
      rw [hdigits] at h
      dsimp only at h
      by_cases hnum : r'.1 = []
      · rw [if_pos hnum] at h
        cases h
        omega
      · have hlt := numberOf_lt r'.1
        have hwidth : ¬(2 ^ 31 - 1 : Int) < numberOf r'.1 := by omega
        rw [if_neg hnum, if_neg hwidth] at h
        cases hagain : readFlags r'.2 r.1 with
        | error e =>
          rw [hagain] at h
          cases h
        | ok r'' =>
          rw [hagain] at h
          cases h
          omega

theorem readFlags_spec (format : List UInt8) (flag : UInt8) :
    Ensures (· = .format) (readFlags format flag) fun r => r.2.length ≤ format.length := by
  induction format generalizing flag with
  | nil => rfl
  | cons c format ih =>
    rw [readFlags, List.length_cons]
    split_ifs
    · exact (ih _).mono fun _ h => Nat.le_succ_of_le h
    · exact (ih _).mono fun _ h => Nat.le_succ_of_le h
    · exact (ih _).mono fun _ h => Nat.le_succ_of_le h
    · exact (ih _).mono fun _ h => Nat.le_succ_of_le h
    · exact Nat.le_refl _

theorem readDigits_spec (format : List UInt8) (least : UInt8) :
    Ensures (· = .format) (readDigits format least) fun r => r.2.length ≤ format.length := by
  induction format generalizing least with
  | nil => rfl
  | cons c format ih =>
    rw [readDigits, List.length_cons]
    split_ifs
    · exact (ih _).seq fun r h => Nat.le_succ_of_le h
    · exact Nat.le_refl _

theorem readPrefix_spec (format : List UInt8) (count : Int) :
    Ensures (· = .format) (readPrefix format count) fun r => r.2.2.length ≤ format.length := by
  refine (readFlags_spec format 0).seq fun r hr => ?_
  refine (readDigits_spec r.2 49).seq fun r' hr' => ?_
  dsimp only
  split_ifs
  · exact hr'.trans hr
  · exact (readFlags_spec r'.2 r.1).seq fun r'' hr'' => hr''.trans (hr'.trans hr)
  · exact (readFlags_spec r'.2 r.1).seq fun r'' hr'' => hr''.trans (hr'.trans hr)

theorem deref_format (l : List UInt8) : Ensures (· = .format) (deref l) fun _ => 0 < l.length := by
  cases l with
  | nil => rfl
  | cons c l => exact Nat.succ_pos _

theorem readPrecision_spec (format : List UInt8) :
    Ensures (· = .format) (readPrecision format) fun r => r.2.length ≤ format.length := by
  refine (deref_format format).seq fun c _ => ?_
  split_ifs
  · refine (readDigits_spec format.tail 49).seq fun r hr => ?_
    exact hr.trans (by rw [List.length_tail]; exact Nat.sub_le _ _)
  · exact Nat.le_refl _

theorem readConversion_spec (format : List UInt8) :
    Ensures (· = .format) (readConversion format) fun r => r.2.2.2.2.length < format.length := by
  refine (readPrefix_spec format _).seq fun r hr => ?_
  refine (readPrecision_spec r.2.2).seq fun r' hr' => ?_
  refine (deref_format r'.2).seq fun c hc => ?_
  show r'.2.tail.length < format.length
  rw [List.length_tail]
  omega

/-! ### Texts -/

theorem bmod_small {n : ℕ} (h : n < 2 ^ 31) : (n : Int).bmod (2 ^ 32) = n := by
  rw [Int.bmod_eq_of_le] <;> omega

theorem put_eq (out : CString) (c : UInt8) : out.put c = writeChars [c] out := by
  rw [writeChars]
  cases out.put c with
  | error e => rfl
  | ok out => rfl

theorem copyString_eq (string : List UInt8) {count : ℕ} (hcount : count < 2 ^ 31) (out : CString) :
    copyString string count out = writeChars (string.take count) out >>= fun out =>
      .ok (((count - (string.take count).length : ℕ) : Int), out) := by
  induction string generalizing count out with
  | nil =>
    rw [List.take_nil]
    rfl
  | cons c string ih =>
    rw [copyString]
    cases count with
    | zero => rfl
    | succ count =>
      have hne : ((count + 1 : ℕ) : Int) ≠ 0 := by omega
      have hnext : (((count + 1 : ℕ) : Int) - 1).bmod (2 ^ 32) = count := by
        rw [Int.natCast_succ, Int.add_sub_cancel, bmod_small (by omega)]
      rw [if_neg hne, hnext, List.take_succ_cons, writeChars]
      cases out.put c with
      | error e => rfl
      | ok out =>
        dsimp only [bind, Except.bind]
        rw [ih (by omega), List.length_cons, Nat.succ_sub_succ]
        rfl

theorem writeFillChars_eq (out : CString) (k : ℕ) (fill : UInt8) :
    writeFillChars out (k : Int) fill = writeChars (List.replicate k fill) out :=
  writeFill_eq fill k out

/-- A string is padded or cut; all of it is counted. -/
theorem writeString_text {string : List UInt8} {width : ℕ} (hshort : string.length < 2 ^ 31) (hwidth : width ≤ room)
    (hroom : room ≤ 256) (flag : UInt8) (out : CString) : ∃ text, text.length = min (max width string.length) room ∧
      writeString string flag width room out = writeChars text out >>= fun out =>
        .ok (((room - text.length : ℕ) : Int), out) := by
  have hlen : (string.length : Int).bmod (2 ^ 32) = string.length := bmod_small hshort
  by_cases hpad : string.length < width
  · obtain ⟨k, hk⟩ : ∃ k, width = string.length + k := ⟨width - string.length, by omega⟩
    have hfill : ((width : Int) - string.length).bmod (2 ^ 32) = k := by
      have hsub : (width : Int) - string.length = k := by omega
      rw [hsub, bmod_small (by omega)]
    have hlt : (string.length : Int) < width := by omega
    have hrest : ∀ j : ℕ, k ≤ j → j ≤ 256 → ((j : Int) - k).bmod (2 ^ 32) = (j - k : ℕ) := by
      intro j hj hle
      rw [← Int.natCast_sub hj, bmod_small (by omega)]
    have htake : ∀ j, string.length ≤ j → string.take j = string := fun j hj => List.take_of_length_le hj
    have hnonneg : ∀ j : ℕ, ¬((j : Int) < 0) := fun j => by omega
    unfold writeString
    dsimp only
    rw [hlen, hfill]
    by_cases hleft : has flag LEFT = true
    · refine ⟨string ++ List.replicate k 32, by rw [List.length_append, List.length_replicate]; omega, ?_⟩
      rw [if_neg fun h => h.1 hleft, copyString_eq string (by omega), htake room (by omega), writeChars_append]
      cases writeChars string out with
      | error e => rfl
      | ok out =>
        dsimp only [bind, Except.bind]
        rw [if_pos ⟨hleft, hlt⟩, hrest _ (by omega) (by omega), if_neg (hnonneg _), writeFillChars_eq,
          List.length_append, List.length_replicate, Nat.sub_sub]
    · refine ⟨List.replicate k 32 ++ string, by rw [List.length_append, List.length_replicate]; omega, ?_⟩
      rw [if_pos ⟨hleft, hlt⟩, hrest room (by omega) hroom, if_neg (hnonneg _), writeFillChars_eq, writeChars_append]
      cases writeChars (List.replicate k 32) out with
      | error e => rfl
      | ok out =>
        dsimp only [bind, Except.bind]
        rw [copyString_eq string (by omega), htake _ (by omega), List.length_append, List.length_replicate, Nat.sub_sub]
        rfl
  · have hnot : ¬(string.length : Int) < width := by omega
    refine ⟨string.take room, by rw [List.length_take]; omega, ?_⟩
    unfold writeString
    dsimp only
    rw [hlen, if_neg fun h => hnot h.2, copyString_eq string (by omega)]
    cases writeChars (string.take room) out with
    | error e => rfl
    | ok out =>
      dsimp only [bind, Except.bind]
      rw [if_neg fun h => hnot h.2]

/-- A turn that writes `text` and goes on. -/
def Writes (room : ℕ) (p : Piece) (taken : ℕ) (s : State) (r : Except Stop State) : Prop :=
  ∃ text, text.length = p.taken room + p.extra room ∧ r = writeChars text s.output_string >>= fun output_string =>
    .ok { s with character_count := (room - p.taken room : ℕ), output_string, args := s.args + taken }

theorem writes_uncounted (hcount : s.character_count = room) {size : ℕ → ℕ} {write : Arg → CString → Except Stop CString}
    {text : List UInt8} (hlength : text.length = size room) (hwrite : ∀ out, write (args s.args) out = writeChars text out) :
    Writes room (.uncounted size) 1 s (s.withArg args write) := by
  refine ⟨text, by rw [hlength, Piece.taken, Piece.extra, Nat.zero_add], ?_⟩
  rw [State.withArg, hwrite, Piece.taken, Nat.sub_zero, ← hcount]

theorem writes_number (hcount : s.character_count = room) {base : ℕ} (hbase : 1 < base) (hle : base ≤ 36) (width : ℕ)
    (hroom : room ≤ 256) (type : UInt8) : Writes room (number (args s.args) base width type) 1 s
      (s.withNumber args base (min width room : ℕ) type) := by
  have hwidth : (((min width room : ℕ) : Int) % 2 ^ 32).toNat = min width room := by omega
  unfold State.withNumber
  rw [hwidth]
  exact writes_uncounted hcount rfl fun out => writeNumber_eq hbase hle out _ _ type

theorem writes_char (hcount : s.character_count = room) (hpos : 0 < room) (hroom : room ≤ 256) (c : UInt8) :
    Writes room (.counted 1) 0 s (do .ok { s with
      output_string := ← s.output_string.put c
      character_count := (s.character_count - 1).bmod (2 ^ 32) }) := by
  have hone : min 1 room = 1 := by omega
  have hnext : (s.character_count - 1).bmod (2 ^ 32) = ((room - 1 : ℕ) : Int) := by
    have hsub : s.character_count - 1 = ((room - 1 : ℕ) : Int) := by omega
    rw [hsub, bmod_small (by omega)]
  refine ⟨[c], by rw [Piece.taken, Piece.extra, hone]; rfl, ?_⟩
  rw [put_eq, hnext, Piece.taken, hone]
  rfl

/-- Two choices by one condition. -/
theorem rel_ite {α β : Type} {R : α → β → Prop} {p : Prop} [Decidable p] {a a' : α} {b b' : β} (h : p → R a b)
    (h' : ¬p → R a' b') : R (if p then a else a') (if p then b else b') := by
  split
  next hp => exact h hp
  next hp => exact h' hp

theorem conversion_writes (hcount : s.character_count = room) (hpos : 0 < room) (hroom : room ≤ 256)
    {format : List UInt8} (hformat : s.format = c :: format) {flag : UInt8} {width precision : ℕ} {r : Piece × ℕ}
    (hr : pieceOf writeFloat c flag width precision (args s.args) = r) (hshort : r.1.Short) :
    Writes room r.1 r.2 s (conversion writeFloat args s flag (min width room : ℕ) precision) := by
  have hnumber : ∀ base type, 1 < base → base ≤ 36 → Writes room (number (args s.args) base width type) 1 s
      (s.withNumber args base (min width room : ℕ) type) := fun base type hbase hle =>
    writes_number hcount hbase hle width hroom type
  have hc : deref s.format = .ok c := by
    rw [hformat]
    rfl
  let R : Piece × ℕ → Except Stop State → Prop := fun r x => r.1.Short → Writes room r.1 r.2 s x
  rw [← hr] at hshort ⊢
  refine (?_ : R _ _) hshort
  unfold conversion pieceOf
  rw [hc]
  dsimp only [bind, Except.bind]
  refine rel_ite (fun _ _ => writes_char hcount hpos hroom c) fun _ => ?_ -- %
  refine rel_ite (fun _ hshort => ?_) fun _ => ?_ -- s
  · have hlt : (args s.args).string.length < 2 ^ 31 := Nat.lt_of_le_of_lt (Nat.le_max_right _ _) hshort
    obtain ⟨text, hlength, htext⟩ := writeString_text hlt (Nat.min_le_right width room) hroom flag s.output_string
    have htaken : text.length = min (max width (args s.args).string.length) room := by omega
    refine ⟨text, htaken, ?_⟩
    rw [hcount, htext, Piece.taken, htaken]
    cases writeChars text s.output_string with
    | error e => rfl
    | ok out => rfl
  refine rel_ite (fun _ _ => hnumber _ _ (by decide) (by decide)) fun _ => ?_ -- d
  refine rel_ite (fun _ _ => hnumber _ _ (by decide) (by decide)) fun _ => ?_ -- o
  refine rel_ite (fun _ _ => hnumber _ _ (by decide) (by decide)) fun _ => ?_ -- u
  refine rel_ite (fun _ _ => hnumber _ _ (by decide) (by decide)) fun _ => ?_ -- p, x
  refine rel_ite (fun _ _ => hnumber _ _ (by decide) (by decide)) fun _ => ?_ -- X
  refine rel_ite (fun _ _ => writes_uncounted hcount rfl fun _ => rfl) fun _ => ?_ -- f
  refine rel_ite (fun _ _ => writes_uncounted hcount rfl fun _ => rfl) fun _ => ?_ -- F
  refine rel_ite (fun _ _ => writes_uncounted hcount rfl fun out => put_eq out _) fun _ _ => ?_ -- c
  refine ⟨[37], rfl, ?_⟩
  rw [put_eq, Piece.taken, Nat.sub_zero, ← hcount]
  rfl

theorem width_cut {width : Int} (hwidth : 0 ≤ width) (room : ℕ) :
    (if (room : Int) < width then (room : Int) else width) = (min width.toNat room : ℕ) := by
  split_ifs <;> omega

/-- The percent sign is read, and the rest of the conversion cannot be. -/
theorem turn_fails {e : Stop} {rest : List UInt8} (hcount : s.character_count = room) (hformat : s.format = 37 :: rest)
    (h : readConversion rest = .error e) : turn writeFloat args s = .error .format := by
  obtain rfl : e = .format := (readConversion_spec rest).error h
  unfold readConversion at h
  unfold turn
  rw [hformat, deref, hcount]
  dsimp only [bind, Except.bind, List.tail_cons] at h ⊢
  rw [if_pos rfl, readPrefix_cut]
  cases hfirst : readPrefix rest (2 ^ 31 - 1) with
  | error e =>
    rw [hfirst] at h
    exact congrArg Except.error (Except.error.inj h)
  | ok r =>
    rw [hfirst] at h
    dsimp only [Except.map] at h ⊢
    cases hsecond : readPrecision r.2.2 with
    | error e =>
      rw [hsecond] at h
      exact congrArg Except.error (Except.error.inj h)
    | ok r' =>
      rw [hsecond] at h
      dsimp only at h ⊢
      cases hthird : deref r'.2 with
      | error e =>
        rw [hthird] at h
        unfold conversion
        dsimp only
        rw [hthird]
        exact congrArg Except.error (Except.error.inj h)
      | ok c =>
        rw [hthird] at h
        cases h

/-- What a conversion is read from. -/
theorem readConversion_ok {rest format : List UInt8} {width : Int} {precision : ℕ}
    (h : readConversion rest = .ok (flag, width, precision, c, format)) : ∃ first second,
      readPrefix rest (2 ^ 31 - 1) = .ok (flag, width, first) ∧ readPrecision first = .ok (precision, second) ∧
      second = c :: format := by
  unfold readConversion at h
  cases hfirst : readPrefix rest (2 ^ 31 - 1) with
  | error e =>
    rw [hfirst] at h
    cases h
  | ok r =>
    rw [hfirst] at h
    dsimp only [bind, Except.bind] at h
    cases hsecond : readPrecision r.2.2 with
    | error e =>
      rw [hsecond] at h
      cases h
    | ok r' =>
      rw [hsecond] at h
      dsimp only at h
      cases hthird : r'.2 with
      | nil =>
        rw [hthird] at h
        cases h
      | cons d l =>
        rw [hthird] at h
        cases h
        exact ⟨r.2.2, r'.2, rfl, hsecond, hthird⟩

theorem turn_conversion {rest format : List UInt8} {width : Int} {precision : ℕ} {r : Piece × ℕ}
    (hcount : s.character_count = room) (hpos : 0 < room) (hroom : room ≤ 256) (hformat : s.format = 37 :: rest)
    (h : readConversion rest = .ok (flag, width, precision, c, format))
    (hr : pieceOf writeFloat c flag width.toNat precision (args s.args) = r) (hshort : r.1.Short) :
    ∃ text, text.length = r.1.taken room + r.1.extra room ∧
      turn writeFloat args s = writeChars text s.output_string >>= fun output_string =>
        .ok ⟨format, (room - r.1.taken room : ℕ), output_string, s.args + r.2⟩ := by
  obtain ⟨first, second, hfirst, hsecond, rfl⟩ := readConversion_ok h
  have hwidth := readPrefix_nonneg hfirst
  obtain ⟨text, hlength, htext⟩ := conversion_writes (s := { s with format := c :: format }) hcount hpos hroom rfl hr hshort
  refine ⟨text, hlength, ?_⟩
  unfold turn
  rw [hformat, deref, hcount]
  dsimp only [bind, Except.bind, List.tail_cons]
  rw [if_pos rfl, readPrefix_cut, hfirst]
  dsimp only [Except.map]
  rw [hsecond, width_cut hwidth.1]
  dsimp only
  rw [hcount] at htext
  rw [htext]
  cases writeChars text s.output_string with
  | error e => rfl
  | ok out => rfl

theorem turn_literal {rest : List UInt8} (hcount : s.character_count = room) (hpos : 0 < room) (hroom : room ≤ 256)
    (hformat : s.format = c :: rest) (hc : c ≠ 37) : turn writeFloat args s = writeChars [c] s.output_string >>=
      fun output_string => .ok ⟨rest, (room - 1 : ℕ), output_string, s.args⟩ := by
  have hsub : s.character_count - 1 = ((room - 1 : ℕ) : Int) := by omega
  unfold turn
  rw [hformat, deref, hsub, bmod_small (by omega)]
  dsimp only [bind, Except.bind, List.tail_cons]
  rw [if_neg hc, put_eq]

theorem turn_writes {p : Piece} {i : ℕ} (hcount : s.character_count = room) (hpos : 0 < room) (hroom : room ≤ 256)
    (h : nextPiece writeFloat args s.args s.format = some (p, format, i)) (hshort : p.Short) :
    ∃ text, text.length = p.taken room + p.extra room ∧
      turn writeFloat args s = writeChars text s.output_string >>= fun output_string =>
        .ok ⟨format, (room - p.taken room : ℕ), output_string, i⟩ := by
  cases hformat : s.format with
  | nil =>
    rw [hformat] at h
    cases h
  | cons c rest =>
    rw [hformat, nextPiece] at h
    by_cases hc : c = 37
    · rw [if_pos hc] at h
      subst hc
      cases hread : readConversion rest with
      | error e =>
        rw [hread] at h
        cases h
      | ok r =>
        obtain ⟨flag, width, precision, c, format'⟩ := r
        rw [hread] at h
        cases h
        exact turn_conversion hcount hpos hroom hformat hread rfl hshort
    · rw [if_neg hc] at h
      cases h
      have hone : min 1 room = 1 := by omega
      refine ⟨[c], by rw [Piece.taken, Piece.extra, hone]; rfl, ?_⟩
      rw [turn_literal hcount hpos hroom hformat hc, Piece.taken, hone]

theorem turn_ends (hcount : s.character_count = room) (h : nextPiece writeFloat args s.args s.format = none) :
    turn writeFloat args s = .error .format := by
  cases hformat : s.format with
  | nil =>
    unfold turn
    rw [hformat]
    rfl
  | cons c rest =>
    rw [hformat, nextPiece] at h
    by_cases hc : c = 37
    · rw [if_pos hc] at h
      subst hc
      cases hread : readConversion rest with
      | error e => exact turn_fails hcount hformat hread
      | ok r =>
        rw [hread] at h
        cases h
    · rw [if_neg hc] at h
      cases h

theorem length_nextPiece {p : Piece} {i j : ℕ} (h : nextPiece writeFloat args i l = some (p, format, j)) :
    format.length < l.length := by
  cases l with
  | nil => cases h
  | cons c rest =>
    rw [nextPiece] at h
    by_cases hc : c = 37
    · rw [if_pos hc] at h
      cases hread : readConversion rest with
      | error e =>
        rw [hread] at h
        cases h
      | ok r =>
        obtain ⟨flag, width, precision, c, format'⟩ := r
        have hlength := (readConversion_spec rest).ok hread
        rw [hread] at h
        cases h
        exact Nat.lt_succ_of_lt hlength
    · rw [if_neg hc] at h
      cases h
      exact Nat.lt_succ_self _

/-! ### Runs -/

/-- The characters of the pieces, with those that are written. -/
def total (room : ℕ) (s : State) (ps : List Piece) : ℕ :=
  s.output_string.chars.length + counted room ps + uncounted room ps

/-- Where the buffer has room for all of it, it is not left, otherwise it is. -/
def RunsInside (room : ℕ) (s : State) (ps : List Piece) (r : Except Stop State) : Prop :=
  (total room s ps ≤ 256 → Ensures (· = .format) r fun s => s.output_string.chars.length ≤ 256) ∧
    (256 < total room s ps → r = .error .buffer)

theorem runsInside_nil {r : Except Stop State} (hlength : s.output_string.chars.length ≤ 256)
    (hr : Ensures (· = .format) r fun s => s.output_string.chars.length ≤ 256) : RunsInside room s [] r := by
  refine ⟨fun _ => hr, fun h => ?_⟩
  simp only [total, counted, uncounted] at h
  omega

theorem runsInside_full {ps : List Piece} (hlength : s.output_string.chars.length ≤ 256) : RunsInside 0 s ps (.ok s) := by
  refine ⟨fun _ => hlength, fun h => ?_⟩
  have hnone : counted 0 ps = 0 ∧ uncounted 0 ps = 0 := by
    cases ps with
    | nil => exact ⟨rfl, rfl⟩
    | cons p ps => exact ⟨if_pos rfl, if_pos rfl⟩
  rw [total, hnone.1, hnone.2] at h
  omega

/-- One piece is written, or does not fit. -/
theorem RunsInside.cons {p : Piece} {ps : List Piece} {text : List UInt8} {i : ℕ} {next : State → Except Stop State}
    (hroom : room ≠ 0) (hsize : s.output_string.size = 256) (hlength : s.output_string.chars.length ≤ 256)
    (htext : text.length = p.taken room + p.extra room)
    (hnext : ∀ s' : State, s'.character_count = (room - p.taken room : ℕ) → s'.output_string.size = 256 →
      s'.output_string.chars.length = s.output_string.chars.length + text.length → s'.output_string.chars.length ≤ 256 →
      s'.format = format → s'.args = i → RunsInside (room - p.taken room) s' ps (next s')) :
    RunsInside room s (p :: ps) ((writeChars text s.output_string >>= fun output_string =>
      .ok ⟨format, (room - p.taken room : ℕ), output_string, i⟩) >>= next) := by
  have htotal : total room s (p :: ps) = s.output_string.chars.length + text.length +
      counted (room - p.taken room) ps + uncounted (room - p.taken room) ps := by
    rw [total, counted, uncounted, if_neg hroom, if_neg hroom]
    omega
  rw [writeChars_spec, hsize]
  by_cases hfits : s.output_string.chars.length + text.length ≤ 256 ∨ text = []
  · rw [if_pos hfits]
    have hle : (s.output_string.chars ++ text).length ≤ 256 := by
      rw [List.length_append]
      obtain hle | rfl := hfits
      · exact hle
      · exact hlength
    have hrest := hnext ⟨format, (room - p.taken room : ℕ), ⟨s.output_string.chars ++ text, 256⟩, i⟩ rfl rfl
      List.length_append hle rfl rfl
    unfold RunsInside total at hrest
    rw [List.length_append, ← htotal] at hrest
    exact hrest
  · rw [if_neg hfits]
    obtain ⟨hfull, -⟩ := not_or.mp hfits
    exact ⟨fun h => by omega, fun _ => rfl⟩

theorem pieces_nil {i : ℕ} (h : nextPiece writeFloat args i l = none) (n : ℕ) : pieces writeFloat args n i l = [] := by
  cases n with
  | zero => rfl
  | succ n =>
    rw [pieces, h]
    exact ite_self _

theorem turns_inside (hcount : s.character_count = room) (hroom : room ≤ 256) (hsize : s.output_string.size = 256)
    (hlength : s.output_string.chars.length ≤ 256) (hn : s.format.length < n)
    (hshort : ∀ p ∈ pieces writeFloat args n s.args s.format, p.Short) :
    RunsInside room s (pieces writeFloat args n s.args s.format) (turns writeFloat args n s) := by
  induction n generalizing s room with
  | zero => omega
  | succ n ih =>
    rw [turns]
    cases hformat : s.format with
    | nil =>
      rw [pieces_nil rfl]
      exact runsInside_nil hlength rfl
    | cons c rest =>
      rw [deref]
      dsimp only [bind, Except.bind]
      by_cases hc : c = 0
      · have hhead : (c :: rest).head? = some 0 := congrArg some hc
        rw [if_pos hc, pieces, if_pos hhead]
        exact runsInside_nil hlength hlength
      · have hhead : ¬(c :: rest).head? = some 0 := mt Option.some.inj hc
        rw [if_neg hc]
        by_cases hzero : room = 0
        · subst hzero
          rw [hcount, if_pos Int.ofNat_zero]
          exact runsInside_full hlength
        · have hcount' : s.character_count ≠ 0 := by omega
          rw [if_neg hcount']
          cases hpiece : nextPiece writeFloat args s.args s.format with
          | none =>
            rw [turn_ends hcount hpiece, pieces_nil (hformat ▸ hpiece)]
            exact runsInside_nil hlength rfl
          | some next =>
            obtain ⟨p, format, i⟩ := next
            have hpieces : pieces writeFloat args (n + 1) s.args s.format = p :: pieces writeFloat args n i format := by
              rw [pieces, hformat, if_neg hhead, ← hformat, hpiece]
            rw [hpieces] at hshort
            have hlt := length_nextPiece hpiece
            obtain ⟨text, htext, hturn⟩ :=
              turn_writes hcount (Nat.pos_of_ne_zero hzero) hroom hpiece (hshort p List.mem_cons_self)
            rw [← hformat, hpieces]
            show RunsInside room s _ (turn writeFloat args s >>= turns writeFloat args n)
            rw [hturn]
            refine RunsInside.cons hzero hsize hlength htext fun s' hcount' hsize' _ hlength' hformat' hargs' => ?_
            rw [← hformat', ← hargs'] at hshort ⊢
            exact ih hcount' (by omega) hsize' hlength' (by rw [hformat']; omega) fun q hq =>
              hshort q (List.mem_cons_of_mem p hq)

/-- The pieces of a format. -/
def piecesOf (writeFloat : BitVec 64 → Int → ℕ → UInt8 → List UInt8) (args : ℕ → Arg) (format : List UInt8) : List Piece :=
  pieces writeFloat args (format.length + 1) 0 format

theorem printf_inside_of_pieces (hshort : ∀ p ∈ piecesOf writeFloat args format, p.Short) :
    RunsInside 256 ⟨format, 256, ⟨[], 256⟩, 0⟩ (piecesOf writeFloat args format) (printf writeFloat args format) :=
  turns_inside rfl (Nat.le_refl 256) rfl (Nat.zero_le 256) (Nat.lt_succ_self _) hshort

/-! ### The digits -/

/-- No store is outside `tmp`. -/
abbrev KeepsTmp {α : Type} (r : Except Stop α) : Prop := Ensures (· ≠ .tmp) r fun _ => True

theorem keepsTmp_of_format {α : Type} {r : Except Stop α} {Q : α → Prop} (h : Ensures (· = .format) r Q) : KeepsTmp r :=
  (h.allow fun e he => by rw [he]; decide).mono fun _ _ => trivial

theorem writeChars_keepsTmp (l : List UInt8) (out : CString) : KeepsTmp (writeChars l out) := by
  rw [writeChars_spec]
  split_ifs
  · trivial
  · intro h
    cases h

theorem put_keepsTmp (out : CString) (c : UInt8) : KeepsTmp (out.put c) :=
  put_eq out c ▸ writeChars_keepsTmp [c] out

theorem copyString_keepsTmp (string : List UInt8) (count : Int) (out : CString) : KeepsTmp (copyString string count out) := by
  induction string generalizing count out with
  | nil => trivial
  | cons c string ih =>
    rw [copyString]
    split_ifs
    · trivial
    · exact (put_keepsTmp out c).seq fun out' _ => ih _ out'

theorem writeFillChars_keepsTmp (out : CString) (size : Int) (fill : UInt8) : KeepsTmp (writeFillChars out size fill) := by
  unfold writeFillChars
  rw [writeFill_eq]
  exact writeChars_keepsTmp _ out

theorem writeString_keepsTmp (string : List UInt8) (flag : UInt8) (width count : Int) (out : CString) :
    KeepsTmp (writeString string flag width count out) := by
  unfold writeString
  dsimp only
  split_ifs
  · trivial
  · exact (writeFillChars_keepsTmp out _ 32).seq fun out' _ => copyString_keepsTmp string _ out'
  · refine (copyString_keepsTmp string count out).seq fun r _ => ?_
    split_ifs
    · trivial
    · exact (writeFillChars_keepsTmp r.2 _ 32).seq fun _ _ => trivial
  · exact (copyString_keepsTmp string count out).seq fun _ _ => trivial

theorem withArg_keepsTmp {write : Arg → CString → Except Stop CString} (h : ∀ arg out, KeepsTmp (write arg out))
    (s : State) : KeepsTmp (s.withArg args write) :=
  (h _ _).seq fun _ _ => trivial

theorem withNumber_keepsTmp {base : ℕ} (hbase : 1 < base) (hle : base ≤ 36) (s : State) (width : Int) (type : UInt8) :
    KeepsTmp (s.withNumber args base width type) := by
  refine withArg_keepsTmp (fun arg out => ?_) s
  rw [writeNumber_eq hbase hle]
  exact writeChars_keepsTmp _ out

theorem conversion_keepsTmp (s : State) (flag : UInt8) (width : Int) (precision : ℕ) :
    KeepsTmp (conversion writeFloat args s flag width precision) := by
  refine (keepsTmp_of_format (deref_format s.format)).seq fun c _ => ?_
  refine ensures_ite (fun _ => (put_keepsTmp s.output_string c).seq fun _ _ => trivial) fun _ => ?_ -- %
  refine ensures_ite (fun _ => (writeString_keepsTmp _ flag width _ _).seq fun _ _ => trivial) fun _ => ?_ -- s
  refine ensures_ite (fun _ => withNumber_keepsTmp (by decide) (by decide) s width _) fun _ => ?_ -- d
  refine ensures_ite (fun _ => withNumber_keepsTmp (by decide) (by decide) s width _) fun _ => ?_ -- o
  refine ensures_ite (fun _ => withNumber_keepsTmp (by decide) (by decide) s width _) fun _ => ?_ -- u
  refine ensures_ite (fun _ => withNumber_keepsTmp (by decide) (by decide) s width _) fun _ => ?_ -- p, x
  refine ensures_ite (fun _ => withNumber_keepsTmp (by decide) (by decide) s width _) fun _ => ?_ -- X
  refine ensures_ite (fun _ => withArg_keepsTmp (fun _ out => writeChars_keepsTmp _ out) s) fun _ => ?_ -- f
  refine ensures_ite (fun _ => withArg_keepsTmp (fun _ out => writeChars_keepsTmp _ out) s) fun _ => ?_ -- F
  refine ensures_ite (fun _ => withArg_keepsTmp (fun _ out => put_keepsTmp out _) s) fun _ => ?_ -- c
  exact (put_keepsTmp s.output_string 37).seq fun _ _ => trivial

theorem turn_keepsTmp (s : State) : KeepsTmp (turn writeFloat args s) := by
  refine (keepsTmp_of_format (deref_format s.format)).seq fun c _ => ?_
  split_ifs
  · refine (keepsTmp_of_format (readPrefix_spec _ _)).seq fun r _ => ?_
    refine (keepsTmp_of_format (readPrecision_spec _)).seq fun r' _ => ?_
    exact (conversion_keepsTmp _ _ _ _).seq fun _ _ => trivial
  · exact (put_keepsTmp s.output_string c).seq fun _ _ => trivial

theorem turns_keepsTmp (n : ℕ) (s : State) : KeepsTmp (turns writeFloat args n s) := by
  induction n generalizing s with
  | zero =>
    intro h
    cases h
  | succ n ih =>
    refine (keepsTmp_of_format (deref_format s.format)).seq fun c _ => ?_
    split_ifs
    · trivial
    · trivial
    · exact (turn_keepsTmp s).seq fun s' _ => ih s'

theorem counted_le (room : ℕ) (ps : List Piece) : counted room ps ≤ room := by
  induction ps generalizing room with
  | nil => exact Nat.zero_le room
  | cons p ps ih =>
    rw [counted]
    split_ifs
    · exact Nat.zero_le room
    · have htaken : p.taken room ≤ room := by
        cases p with
        | counted n => exact Nat.min_le_right n room
        | uncounted n => exact Nat.zero_le room
      have hrest := ih (room - p.taken room)
      omega

end KPanic.Printf
