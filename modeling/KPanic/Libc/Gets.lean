import KPanic.Lib.ByteString

/-!
# `userspace/libc/src/scanf.c`: `getchar` and `gets`

Standard input is the bytes that `read` still returns; behind the last one it returns 0 or -1. The counter
has 32 bits, the buffer size 64.
-/

namespace KPanic.Stdin

open Bytes

inductive Stop
  | outside
  deriving DecidableEq

def EOF : Int := -1

/-- The character is what `read` stored, if it returned 1; `char` is signed. -/
def getchar : Option UInt8 → Int
  | none => EOF
  | some character => character.toInt8.toInt

def store (input_buffer : List UInt8) (i : ℕ) (c : UInt8) : Except Stop (List UInt8) :=
  if i < input_buffer.length then .ok (input_buffer.set i c) else .error .outside

/-- The loop of `gets`. -/
def readChars (buffer_size : ℕ) : List UInt8 → ℕ → List UInt8 → Except Stop (List UInt8)
  | [], _, input_buffer => .ok input_buffer
  | character :: stdin, counter, input_buffer =>
    let cchar := getchar (some character)
    if cchar = EOF then .ok input_buffer
    else if cchar = 13 ∨ cchar = 10 ∨ (counter + 1) % 2 ^ 32 ≥ buffer_size then store input_buffer counter 0
    else do
      let input_buffer ← store input_buffer counter (Int8.ofInt cchar).toUInt8
      if cchar = 8 then
        if counter > 0 then readChars buffer_size stdin (counter - 1) input_buffer
        else readChars buffer_size stdin counter input_buffer
      else readChars buffer_size stdin ((counter + 1) % 2 ^ 32) input_buffer

/-- The buffer is left as the call leaves it; the call returns the pointer to it. -/
def gets (input_buffer : List UInt8) (buffer_size : ℕ) (stdin : List UInt8) : Except Stop (List UInt8) :=
  if buffer_size = 0 then .ok input_buffer else readChars buffer_size stdin 0 input_buffer

/-! ### The line -/

def LineEnd (c : UInt8) : Prop := c = 13 ∨ c = 10

instance : DecidablePred LineEnd := fun c => inferInstanceAs (Decidable (c = 13 ∨ c = 10))

/-- The line behind one more character. -/
def type (line : List UInt8) (c : UInt8) : List UInt8 := if c = 8 then line.dropLast else line ++ [c]

/-- The stream up to the first line end, the end of input or the full buffer, behind `line`. -/
def lineOf (size : ℕ) (line : List UInt8) : List UInt8 → List UInt8
  | [] => line
  | c :: s => if LineEnd c ∨ size ≤ line.length + 1 then line else lineOf size (type line c) s

/-- A character ends the line, and no byte 255 comes before it. -/
def Ended (size : ℕ) (line : List UInt8) : List UInt8 → Prop
  | [] => False
  | c :: s => c ≠ 255 ∧ (LineEnd c ∨ size ≤ line.length + 1 ∨ Ended size (type line c) s)

/-- The characters that are still in the buffer where the input ends or seems to: the line, and what a backspace
deletes as the last character. -/
def leftOf (line left : List UInt8) : List UInt8 → List UInt8
  | [] => left
  | c :: s => if c = 255 then left else leftOf (type line c) (if c = 8 then line else line ++ [c]) s

/-- The counter does not go over 32 bits. -/
def Fits (size : ℕ) (line : List UInt8) : List UInt8 → Prop
  | [] => True
  | c :: s => c = 255 ∨ LineEnd c ∨
    (c = 8 ∧ line.length + 1 < size ∨ line.length + 1 < 2 ^ 32) ∧ (line.length + 1 < size → Fits size (type line c) s)

variable {size : ℕ} {c d : UInt8} {s line left rest buffer : List UInt8}

theorem getchar_inj : getchar (some c) = getchar (some d) ↔ c = d := by
  refine ⟨fun h => ?_, fun h => h ▸ rfl⟩
  have h8 : c.toInt8 = d.toInt8 := Int8.toInt_inj.mp h
  rw [← UInt8.toUInt8_toInt8 c, h8, UInt8.toUInt8_toInt8]

theorem getchar_eof : getchar (some c) = EOF ↔ c = 255 :=
  getchar_inj (d := 255)

theorem char_getchar (c : UInt8) : (Int8.ofInt (getchar (some c))).toUInt8 = c := by
  show (Int8.ofInt c.toInt8.toInt).toUInt8 = c
  rw [Int8.ofInt_toInt, UInt8.toUInt8_toInt8]

theorem lineEnd_iff : LineEnd c ↔ getchar (some c) = 13 ∨ getchar (some c) = 10 :=
  or_congr getchar_inj.symm getchar_inj.symm

theorem store_line {line rest : List UInt8} {b : UInt8} (c : UInt8) :
    store (line ++ b :: rest) line.length c = .ok (line ++ c :: rest) := by
  have hlt : line.length < (line ++ b :: rest).length := by
    rw [List.length_append, List.length_cons]
    omega
  rw [store, if_pos hlt, List.set_append_right _ _ (Nat.le_refl _), Nat.sub_self, List.set_cons_zero]

/-- A character that ends the line. -/
theorem readChars_end {b : UInt8} (hc : c ≠ 255)
    (hend : LineEnd c ∨ size ≤ line.length + 1 ∧ line.length + 1 < 2 ^ 32) :
    readChars size (c :: s) line.length (line ++ b :: rest) = .ok (line ++ 0 :: rest) := by
  rw [readChars, if_neg (mt getchar_eof.mp hc), if_pos, store_line]
  rw [← or_assoc, ← lineEnd_iff]
  refine hend.imp_right fun ⟨hfull, hlt⟩ => ?_
  rwa [Nat.mod_eq_of_lt hlt]

/-- Any other one. -/
theorem readChars_type {b : UInt8} (hc : c ≠ 255) (hend : ¬LineEnd c) (hroom : line.length + 1 < size)
    (hfits : c = 8 ∨ line.length + 1 < 2 ^ 32) :
    readChars size (c :: s) line.length (line ++ b :: rest) =
      readChars size s (type line c).length (line ++ c :: rest) := by
  have hfull : ¬(line.length + 1) % 2 ^ 32 ≥ size := by
    have hmod := Nat.mod_le (line.length + 1) (2 ^ 32)
    omega
  have hnot : ¬(getchar (some c) = 13 ∨ getchar (some c) = 10 ∨ (line.length + 1) % 2 ^ 32 ≥ size) := by
    rw [← or_assoc, ← lineEnd_iff]
    exact not_or.mpr ⟨hend, hfull⟩
  rw [readChars, if_neg (mt getchar_eof.mp hc), if_neg hnot, char_getchar, store_line]
  dsimp only [bind, Except.bind]
  by_cases h8 : c = 8
  · have hchar : getchar (some c) = 8 := by
      rw [h8]
      rfl
    rw [if_pos hchar, type, if_pos h8, List.length_dropLast]
    by_cases hpos : line.length > 0
    · rw [if_pos hpos]
    · rw [if_neg hpos, Nat.eq_zero_of_not_pos hpos]
  · have hchar : getchar (some c) ≠ 8 := fun h => h8 (getchar_inj (d := 8) |>.mp h)
    rw [if_neg hchar, type, if_neg h8, List.length_append, List.length_singleton,
      Nat.mod_eq_of_lt (hfits.resolve_left h8)]

/-- What is in the buffer behind a character that is stored. -/
theorem stored (line rest : List UInt8) (c : UInt8) :
    line ++ c :: rest = (if c = 8 then line else line ++ [c]) ++ (if c = 8 then c :: rest else rest) := by
  by_cases hc : c = 8
  · rw [if_pos hc, if_pos hc]
  · rw [if_neg hc, if_neg hc, List.append_assoc, List.singleton_append]

/-- The line, and at most one character that is deleted. -/
def Left (line left : List UInt8) : Prop := left = line ∨ ∃ d, left = line ++ [d]

theorem left_type (line : List UInt8) (c : UInt8) : Left (type line c) (if c = 8 then line else line ++ [c]) := by
  unfold type
  by_cases hc : c = 8
  · rw [if_pos hc, if_pos hc]
    obtain rfl | ⟨l, d, rfl⟩ := List.eq_nil_or_concat line
    · exact .inl rfl
    · rw [List.concat_eq_append, List.dropLast_concat]
      exact .inr ⟨d, rfl⟩
  · rw [if_neg hc, if_neg hc]
    exact .inl rfl

theorem Left.split (h : Left line left) (hlength : line.length < (left ++ rest).length) :
    ∃ b r, left ++ rest = line ++ b :: r ∧ ∀ d ∈ r, d ∈ rest := by
  obtain rfl | ⟨d, rfl⟩ := h
  · cases rest with
    | nil =>
      rw [List.append_nil] at hlength
      omega
    | cons b r => exact ⟨b, r, rfl, fun d hd => List.mem_cons_of_mem b hd⟩
  · exact ⟨d, rest, by rw [List.append_assoc, List.singleton_append], fun _ hd => hd⟩

theorem length_stored (line rest : List UInt8) (b c : UInt8) :
    ((if c = 8 then line else line ++ [c]) ++ (if c = 8 then c :: rest else rest)).length =
      (line ++ b :: rest).length := by
  rw [← stored, List.length_append, List.length_append, List.length_cons, List.length_cons]

theorem length_type_lt (hroom : line.length + 1 < size) (c : UInt8) : (type line c).length < size := by
  unfold type
  split
  · rw [List.length_dropLast]
    omega
  · rw [List.length_append, List.length_singleton]
    exact hroom

theorem ended_spec (hend : Ended size line s) (hfits : Fits size line s) (hleft : Left line left)
    (hsize : (left ++ rest).length = size) (hline : line.length < size) :
    ∃ rest', readChars size s line.length (left ++ rest) = .ok (lineOf size line s ++ 0 :: rest') := by
  induction s generalizing line left rest with
  | nil => exact hend.elim
  | cons c s ih =>
    obtain ⟨hc, hend⟩ := hend
    obtain ⟨b, r, hbuffer, -⟩ := hleft.split (hsize.symm ▸ hline)
    rw [hbuffer] at hsize ⊢
    rw [lineOf]
    by_cases hlast : LineEnd c ∨ size ≤ line.length + 1
    · rw [if_pos hlast]
      refine ⟨r, readChars_end hc ?_⟩
      by_cases hle : LineEnd c
      · exact .inl hle
      · obtain ⟨hlt, -⟩ := (hfits.resolve_left hc).resolve_left hle
        have hfull := hlast.resolve_left hle
        exact .inr ⟨hfull, by omega⟩
    · rw [if_neg hlast]
      obtain ⟨hle, hroom⟩ := not_or.mp hlast
      rw [Nat.not_le] at hroom
      obtain ⟨hlt, hfits⟩ := (hfits.resolve_left hc).resolve_left hle
      rw [readChars_type hc hle hroom (hlt.imp_left And.left), stored]
      exact ih ((hend.resolve_left hle).resolve_left (Nat.not_le.mpr hroom)) (hfits hroom) (left_type line c)
        ((length_stored line r b c).trans hsize) (length_type_lt hroom c)

theorem notEnded_spec (hend : ¬Ended size line s) (hfits : Fits size line s) (hleft : Left line left)
    (hsize : (left ++ rest).length = size) (hline : line.length < size) :
    ∃ rest', readChars size s line.length (left ++ rest) = .ok (leftOf line left s ++ rest') ∧ (0 ∉ rest → 0 ∉ rest') := by
  induction s generalizing line left rest with
  | nil => exact ⟨rest, rfl, fun h => h⟩
  | cons c s ih =>
    rw [leftOf]
    by_cases hc : c = 255
    · rw [if_pos hc, readChars, if_pos (getchar_eof.mpr hc)]
      exact ⟨rest, rfl, fun h => h⟩
    · obtain ⟨b, r, hbuffer, hr⟩ := hleft.split (hsize.symm ▸ hline)
      have hgoes := not_and.mp hend hc
      obtain ⟨hle, hgoes⟩ := not_or.mp hgoes
      obtain ⟨hroom, hgoes⟩ := not_or.mp hgoes
      rw [Nat.not_le] at hroom
      obtain ⟨hlt, hfits⟩ := (hfits.resolve_left hc).resolve_left hle
      rw [hbuffer] at hsize ⊢
      rw [if_neg hc, readChars_type hc hle hroom (hlt.imp_left And.left), stored]
      obtain ⟨rest', hresult, hzero⟩ := ih hgoes (hfits hroom) (left_type line c)
        ((length_stored line r b c).trans hsize) (length_type_lt hroom c)
      refine ⟨rest', hresult, fun h => hzero ?_⟩
      have hbehind : 0 ∉ r := fun hmem => h (hr 0 hmem)
      split
      next h8 =>
        rw [h8, List.mem_cons, not_or]
        exact ⟨by decide, hbehind⟩
      next => exact hbehind

/-- No store is outside the buffer, even where the counter wraps. -/
theorem readChars_inside {counter : ℕ} (hsize : buffer.length = size) (hcounter : counter < size) :
    ∃ b, readChars size s counter buffer = .ok b ∧ b.length = size := by
  induction s generalizing counter buffer with
  | nil => exact ⟨buffer, rfl, hsize⟩
  | cons c s ih =>
    have hstore : ∀ d, store buffer counter d = .ok (buffer.set counter d) := fun d => if_pos (hsize.symm ▸ hcounter)
    have hset : ∀ d, (buffer.set counter d).length = size := fun d => List.length_set.trans hsize
    rw [readChars]
    simp only [hstore]
    split_ifs with heof hend h8 hpos
    · exact ⟨buffer, rfl, hsize⟩
    · exact ⟨_, rfl, hset 0⟩
    · exact ih (hset _) (by omega)
    · exact ih (hset _) hcounter
    · exact ih (hset _) (Nat.not_le.mp (not_or.mp (not_or.mp hend).2).2)

/-- The call leaves the line in every buffer exactly if a character ends the line before the input ends or a byte
255 comes, and the line has no zero; otherwise only a zero that was typed can be behind it. A store is never
outside the buffer. -/
theorem gets_line_iff (hsize : 0 < size) :
    (∀ buffer, buffer.length = size → ∃ b, gets buffer size s = .ok b ∧ b.length = size) ∧
    (Fits size [] s →
      ((∀ buffer, buffer.length = size → ∃ b, gets buffer size s = .ok b ∧ cString b = some (lineOf size [] s)) ↔
        Ended size [] s ∧ 0 ∉ lineOf size [] s ∨
          ¬Ended size [] s ∧ cString (leftOf [] [] s) = some (lineOf size [] s))) := by
  have hloop : ∀ buffer, gets buffer size s = readChars size s 0 buffer := fun buffer => if_neg (Nat.ne_of_gt hsize)
  have hstart : Left [] [] := .inl rfl
  refine ⟨fun buffer hbuffer => ?_, fun hfits => ?_⟩
  · rw [hloop]
    exact readChars_inside hbuffer hsize
  by_cases hend : Ended size [] s
  · constructor
    · intro h
      obtain ⟨b, hb, hline⟩ := h (List.replicate size 1) List.length_replicate
      exact .inl ⟨hend, (cString_eq_some.mp hline).1⟩
    · rintro (⟨-, hzero⟩ | ⟨hnot, -⟩) buffer hbuffer
      · obtain ⟨rest, hresult⟩ := ended_spec hend hfits hstart hbuffer hsize
        exact ⟨_, (hloop buffer).trans hresult, cString_terminated hzero rest⟩
      · exact absurd hend hnot
  · constructor
    · intro h
      refine .inr ⟨hend, ?_⟩
      have hbuffer : (List.replicate size (1 : UInt8)).length = size := List.length_replicate
      obtain ⟨b, hb, hline⟩ := h _ hbuffer
      obtain ⟨rest, hresult, hrest⟩ := notEnded_spec hend hfits hstart hbuffer hsize
      have hb : leftOf [] [] s ++ rest = b := Except.ok.inj (hresult.symm.trans ((hloop _).symm.trans hb))
      rw [← hb, cString_append_of_notMem] at hline
      · exact hline
      · exact hrest fun hmem => absurd (List.eq_of_mem_replicate hmem) (by decide)
    · rintro (⟨hyes, -⟩ | ⟨-, hleft⟩) buffer hbuffer
      · exact absurd hyes hend
      · obtain ⟨rest, hresult, -⟩ := notEnded_spec hend hfits hstart hbuffer hsize
        obtain ⟨hzero, l, hl⟩ := cString_eq_some.mp hleft
        refine ⟨_, (hloop buffer).trans hresult, cString_eq_some.mpr ⟨hzero, l ++ rest, ?_⟩⟩
        rw [hl, List.append_assoc, List.cons_append]

theorem gets_line_iff_typed : ∃ b, gets (List.replicate 8 120) 8 [8, 97, 98, 8, 99, 10] = .ok b ∧ cString b = some [97, 99] := by
  have hfits : Fits 8 [] [8, 97, 98, 8, 99, 10] := by simp [Fits, type, LineEnd]
  have hend : Ended 8 [] [8, 97, 98, 8, 99, 10] := by simp [Ended, type, LineEnd]
  exact ((gets_line_iff (by decide)).2 hfits).mpr (.inl ⟨hend, by decide⟩) (List.replicate 8 120) rfl

/-- The input ends behind one character. -/
theorem gets_unterminated : ¬∀ buffer, buffer.length = 8 →
    ∃ b, gets buffer 8 [97] = .ok b ∧ cString b = some (lineOf 8 [] [97]) := by
  intro h
  obtain ⟨b, hb, hline⟩ := h (List.replicate 8 120) rfl
  obtain rfl : [97, 120, 120, 120, 120, 120, 120, 120] = b := Except.ok.inj hb
  cases hline

end KPanic.Stdin
