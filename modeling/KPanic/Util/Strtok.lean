import KPanic.Lib.ByteString
import KPanic.Lib.Ensures
import KPanic.Lib.WrappedSearch
import Mathlib.Algebra.Group.Nat.Defs
import Mathlib.Data.List.Basic

/-!
# `common/source/util/kstring.cpp`: `strtok`

A pointer into the string is a position in the memory that holds it. The delimiters are the memory from their pointer
on. The loops count positions of 32 bits.
-/

namespace KPanic.Strtok

open Bytes Fallible WrappedSearch

inductive Stop
  | outside
  | endless
  deriving DecidableEq

/-- The memory with the string, and the static `str_to_tok`. -/
structure Tokenizer where
  memory : List UInt8
  str_to_tok : Option ℕ
  deriving DecidableEq

def read (str : List UInt8) (pos : ℕ) : Except Stop UInt8 :=
  match str[pos]? with
  | none => .error .outside
  | some c => .ok c

/-- `-1U` -/
def noEnd : ℕ := 2 ^ 32 - 1

def delimiterAt (delimiters : List UInt8) (c : UInt8) (del_pos : ℕ) : Except Stop (Option Bool) := do
  let x ← read delimiters del_pos
  .ok (if x = 0 then some false else if c = x then some true else none)

/-- The loop over the delimiters, which both loops have inside. -/
def charIsDelimiter (passes : ℕ) (delimiters : List UInt8) (c : UInt8) : Except Stop Bool :=
  search (2 ^ 32) (delimiterAt delimiters c) .endless passes 0

/-- `tok_start` keeps its 0 at the end of the string. -/
def startAt (passes : ℕ) (delimiters str : List UInt8) (str_pos : ℕ) : Except Stop (Option ℕ) := do
  let c ← read str str_pos
  if c = 0 then .ok (some 0)
  else
    let char_is_delimiter ← charIsDelimiter passes delimiters c
    .ok (if char_is_delimiter then none else some str_pos)

/-- The loop is left only if `tok_end != -1U`. -/
def endAt (passes : ℕ) (delimiters str : List UInt8) (str_pos : ℕ) : Except Stop (Option ℕ) := do
  let c ← read str str_pos
  if c = 0 then .ok (some noEnd)
  else
    let found ← charIsDelimiter passes delimiters c
    .ok (if found ∧ str_pos ≠ noEnd then some str_pos else none)

/-- The pointer that is returned, and what the call leaves. -/
def strtok (passes : ℕ) (str : Option ℕ) (delimiters : Option (List UInt8)) (t : Tokenizer) :
    Except Stop (Option ℕ × Tokenizer) :=
  let str_to_tok := str.or t.str_to_tok
  match delimiters, str_to_tok with
  | none, _ => .ok (str_to_tok, ⟨t.memory, str_to_tok⟩)
  | some _, none => .ok (none, ⟨t.memory, none⟩)
  | some delimiters, some p => do
    let tok_start ← search (2 ^ 32) (startAt passes delimiters (t.memory.drop p)) .endless passes 0
    let tok_end ← search (2 ^ 32) (endAt passes delimiters (t.memory.drop p)) .endless passes tok_start
    if tok_end = noEnd then .ok (some (p + tok_start), ⟨t.memory, none⟩)
    else if p + tok_end < t.memory.length then
      .ok (some (p + tok_start), ⟨t.memory.set (p + tok_end) 0, some (p + tok_end + 1)⟩)
    else .error .outside

def stringAt (memory : List UInt8) (p : ℕ) : Except Stop (List UInt8) :=
  match cString (memory.drop p) with
  | none => .error .outside
  | some s => .ok s

/-- The strings that the calls return: the first one with `str`, those behind it with 0, until one returns 0. -/
def tokens (passes : ℕ) (delimiters : List UInt8) : ℕ → Option ℕ → Tokenizer → Except Stop (List (List UInt8))
  | 0, _, _ => .error .endless
  | calls + 1, str, t => do
    match ← strtok passes str (some delimiters) t with
    | (none, _) => .ok []
    | (some token, t) =>
      let s ← stringAt t.memory token
      let ts ← tokens passes delimiters calls none t
      .ok (s :: ts)

/-! ### The tokens of a string -/

/-- The longest parts without a delimiter that are not empty. -/
def maximalTokens (d s : List UInt8) : List (List UInt8) := (s.splitOnP fun c => decide (c ∈ d)).filter (· ≠ [])

/-- The last character is no delimiter, and the positions before the end of each token, counted from behind the
token before it, have 32 bits. -/
inductive Fits (d : List UInt8) : List UInt8 → Prop
  | last {D T : List UInt8} (hD : ∀ c ∈ D, c ∈ d) (hT : ∀ c ∈ T, c ∉ d) (hne : T ≠ [])
      (hlt : D.length + T.length < 2 ^ 32) : Fits d (D ++ T)
  | more {D T rest : List UInt8} {c : UInt8} (hD : ∀ c ∈ D, c ∈ d) (hT : ∀ c ∈ T, c ∉ d) (hne : T ≠ []) (hc : c ∈ d)
      (hlt : D.length + T.length + 1 < 2 ^ 32) (hrest : Fits d rest) : Fits d (D ++ (T ++ c :: rest))

variable {d s D T r l str delimiters : List UInt8} {c : UInt8} {n i p : ℕ}

theorem maximalTokens_nil (d : List UInt8) : maximalTokens d [] = [] := by
  simp [maximalTokens]

theorem maximalTokens_token (hT : ∀ c ∈ T, c ∉ d) (hne : T ≠ []) : maximalTokens d T = [T] := by
  have hsplit : (T.splitOnP fun c => decide (c ∈ d)) = [T] :=
    List.splitOnP_eq_singleton fun c hc => decide_eq_false (hT c hc)
  simp [maximalTokens, hsplit, hne]

/-- A delimiter separates the tokens before it from those behind it. -/
theorem maximalTokens_append (s r : List UInt8) (hc : c ∈ d) :
    maximalTokens d (s ++ c :: r) = maximalTokens d s ++ maximalTokens d r := by
  have hsplit := List.splitOnP_append_cons s r (p := fun c => decide (c ∈ d)) (decide_eq_true hc)
  rw [maximalTokens, hsplit, List.filter_append]
  rfl

theorem maximalTokens_delimiters (hD : ∀ c ∈ D, c ∈ d) (s : List UInt8) :
    maximalTokens d (D ++ s) = maximalTokens d s := by
  induction D with
  | nil => rfl
  | cons c D ih =>
    have hfirst := maximalTokens_append [] (D ++ s) (hD c List.mem_cons_self)
    rw [maximalTokens_nil, List.nil_append, List.nil_append] at hfirst
    rw [List.cons_append, hfirst, ih fun x hx => hD x (List.mem_cons_of_mem c hx)]

/-- Delimiters, one token, and what is behind it. -/
theorem exists_token (d s : List UInt8) : ∃ D T r, s = D ++ (T ++ r) ∧ (∀ c ∈ D, c ∈ d) ∧ (∀ c ∈ T, c ∉ d) ∧
    (T = [] → r = []) ∧ (r = [] ∨ ∃ c rest, r = c :: rest ∧ c ∈ d) := by
  induction s with
  | nil => exact ⟨[], [], [], rfl, by simp, by simp, fun _ => rfl, .inl rfl⟩
  | cons c s ih =>
    obtain ⟨D, T, r, rfl, hD, hT, hend, hr⟩ := ih
    by_cases hc : c ∈ d
    · exact ⟨c :: D, T, r, rfl, List.forall_mem_cons.mpr ⟨hc, hD⟩, hT, hend, hr⟩
    · cases D with
      | nil => exact ⟨[], c :: T, r, rfl, hD, List.forall_mem_cons.mpr ⟨hc, hT⟩, fun h => (by cases h), hr⟩
      | cons x D =>
        refine ⟨[], [c], x :: D ++ (T ++ r), rfl, by simp, by simpa using hc, fun h => (by cases h), .inr ?_⟩
        exact ⟨x, D ++ (T ++ r), rfl, hD x List.mem_cons_self⟩

/-! ### The loops -/

theorem read_append (A B : List UInt8) (i : ℕ) : read (A ++ B) (A.length + i) = read B i := by
  unfold read
  rw [List.getElem?_append_right (Nat.le_add_right _ _), Nat.add_sub_cancel_left]

theorem read_length (A B : List UInt8) (c : UInt8) : read (A ++ c :: B) A.length = .ok c :=
  read_append A (c :: B) 0

theorem read_lt {A : List UInt8} (h : i < A.length) (B : List UInt8) : ∃ c ∈ A, read (A ++ B) i = .ok c := by
  refine ⟨A[i], List.getElem_mem h, ?_⟩
  unfold read
  rw [List.getElem?_append_left h, List.getElem?_eq_getElem h]

theorem delimiterAt_read {x : UInt8} (h : read delimiters i = .ok x) : delimiterAt delimiters c i =
    .ok (if x = 0 then some false else if c = x then some true else none) := by
  rw [delimiterAt, h]
  rfl

theorem charIsDelimiter_ok (h0 : 0 ∉ d) (hd : d.length < 2 ^ 32) (hn : d.length < n) (l : List UInt8) (c : UInt8) :
    charIsDelimiter n (d ++ 0 :: l) c = .ok (decide (c ∈ d)) := by
  have hnot : ∀ {A B : List UInt8} {i}, (∀ x ∈ A, x ≠ 0 ∧ c ≠ x) → i < A.length →
      delimiterAt (A ++ B) c (0 + i) = .ok none := by
    intro A B i hA hi
    obtain ⟨x, hx, hread⟩ := read_lt hi B
    rw [Nat.zero_add, delimiterAt_read hread, if_neg (hA x hx).1, if_neg (hA x hx).2]
  have hzero : ∀ {x}, x ∈ d → x ≠ 0 := fun hx h => h0 (h ▸ hx)
  by_cases hc : c ∈ d
  · obtain ⟨A, B, rfl, hA⟩ := List.eq_append_cons_of_mem hc
    rw [List.length_append, List.length_cons] at hd hn
    rw [decide_eq_true hc, List.append_assoc, List.cons_append]
    refine search_found (k := A.length) (by omega) (by omega) ?_ fun j hj => hnot (fun x hx => ?_) hj
    · rw [Nat.zero_add, delimiterAt_read (read_length A _ c), if_neg (hzero hc), if_pos rfl]
    · exact ⟨hzero (List.mem_append_left _ hx), fun h => hA (h ▸ hx)⟩
  · rw [decide_eq_false hc]
    refine search_found (k := d.length) (by omega) hn ?_ fun j hj => hnot (fun x hx => ?_) hj
    · rw [Nat.zero_add, delimiterAt_read (read_length d l 0), if_pos rfl]
    · exact ⟨hzero hx, fun h => hc (h ▸ hx)⟩

/-- The end of a longer list of delimiters is not reached. -/
theorem charIsDelimiter_long {b : Bool} (h0 : 0 ∉ d) (hd : 2 ^ 32 ≤ d.length)
    (h : charIsDelimiter n (d ++ l) c = .ok b) : b = true ∧ c ∈ d := by
  obtain ⟨k, -, hfound, -⟩ := (search_eq_ok (by decide)).mp h
  obtain ⟨x, hx, hread⟩ := read_lt (Nat.lt_of_lt_of_le (Nat.mod_lt (0 + k) (by decide)) hd) l
  have hzero : x ≠ 0 := fun hx0 => h0 (hx0 ▸ hx)
  rw [delimiterAt_read hread, if_neg hzero] at hfound
  have hsome := Except.ok.inj hfound
  by_cases hc : c = x
  · rw [if_pos hc] at hsome
    exact ⟨(Option.some.inj hsome).symm, hc ▸ hx⟩
  · rw [if_neg hc] at hsome
    cases hsome

/-- What the loops see of a string: no character ends it, and each one is compared with the delimiters. -/
structure Scans (n : ℕ) (delimiters d s : List UInt8) : Prop where
  nonzero : 0 ∉ s
  decided : ∀ c ∈ s, charIsDelimiter n delimiters c = .ok (decide (c ∈ d))

theorem startAt_char (h : Scans n delimiters d s) (hc : c ∈ s) (hread : read str i = .ok c) :
    startAt n delimiters str i = .ok (if c ∈ d then none else some i) := by
  have hzero : c ≠ 0 := fun h0 => h.nonzero (h0 ▸ hc)
  rw [startAt, hread]
  dsimp only [bind, Except.bind]
  rw [if_neg hzero, h.decided c hc]
  simp only [decide_eq_true_eq]

theorem endAt_char (h : Scans n delimiters d s) (hc : c ∈ s) (hread : read str i = .ok c) :
    endAt n delimiters str i = .ok (if c ∈ d ∧ i ≠ noEnd then some i else none) := by
  have hzero : c ≠ 0 := fun h0 => h.nonzero (h0 ▸ hc)
  rw [endAt, hread]
  dsimp only [bind, Except.bind]
  rw [if_neg hzero, h.decided c hc]
  simp only [decide_eq_true_eq]

theorem endAt_end (hread : read str i = .ok 0) : endAt n delimiters str i = .ok (some noEnd) := by
  rw [endAt, hread]
  rfl

theorem Scans.mono (h : Scans n delimiters d s) (hsub : ∀ c ∈ r, c ∈ s) : Scans n delimiters d r :=
  ⟨fun h0 => h.nonzero (hsub 0 h0), fun c hc => h.decided c (hsub c hc)⟩

theorem startAt_delimiters (h : Scans n delimiters d D) (hD : ∀ c ∈ D, c ∈ d) (hi : i < D.length) (l : List UInt8) :
    startAt n delimiters (D ++ l) i = .ok none := by
  obtain ⟨c, hc, hread⟩ := read_lt hi l
  rw [startAt_char h hc hread, if_pos (hD c hc)]

theorem tokStart_token (h : Scans n delimiters d s) (hsub : ∀ c ∈ D ++ T, c ∈ s) (hD : ∀ c ∈ D, c ∈ d)
    (hT : ∀ c ∈ T, c ∉ d) (hne : T ≠ []) (hlt : D.length < 2 ^ 32) (hn : D.length < n) (l : List UInt8) :
    search (2 ^ 32) (startAt n delimiters (D ++ (T ++ l))) .endless n 0 = .ok D.length := by
  rw [List.forall_mem_append] at hsub
  obtain ⟨c, T, rfl⟩ := List.exists_cons_of_ne_nil hne
  refine search_found (k := D.length) (by omega) hn ?_ fun j hj => ?_
  · rw [Nat.zero_add, List.cons_append, startAt_char h (hsub.2 c List.mem_cons_self) (read_length D _ c),
      if_neg (hT c List.mem_cons_self)]
  · rw [Nat.zero_add]
    exact startAt_delimiters (h.mono hsub.1) hD hj _

/-- More delimiters than that are never passed. -/
theorem tokStart_lt {a : ℕ} (h : Scans n delimiters d D) (hD : ∀ c ∈ D, c ∈ d)
    (hstart : search (2 ^ 32) (startAt n delimiters (D ++ l)) .endless n 0 = .ok a) : D.length < 2 ^ 32 := by
  by_contra hlong
  refine search_endless (by decide) (fun i hi b hb => ?_) hstart
  rw [startAt_delimiters h hD (by omega)] at hb
  cases hb

theorem endAt_token (h : Scans n delimiters d T) (hT : ∀ c ∈ T, c ∉ d) (hi : i < T.length) (D l : List UInt8) :
    endAt n delimiters (D ++ (T ++ l)) (D.length + i) = .ok none := by
  obtain ⟨c, hc, hread⟩ := read_lt hi l
  rw [← read_append D (T ++ l)] at hread
  rw [endAt_char h hc hread, if_neg fun hd => hT c hc hd.1]

theorem tokEnd_eq {e : ℕ} (h : Scans n delimiters d T) (hT : ∀ c ∈ T, c ∉ d) (hlt : D.length + T.length < 2 ^ 32)
    (hn : T.length < n) (hend : endAt n delimiters (D ++ (T ++ l)) (D.length + T.length) = .ok (some e)) :
    search (2 ^ 32) (endAt n delimiters (D ++ (T ++ l))) .endless n D.length = .ok e :=
  search_found hlt hn hend fun _ hj => endAt_token h hT hj D l

theorem tokEnd_delimiter (h : Scans n delimiters d T) (hT : ∀ c ∈ T, c ∉ d) (hscan : Scans n delimiters d [c])
    (hc : c ∈ d) (hlt : D.length + T.length + 1 < 2 ^ 32) (hn : T.length < n) :
    search (2 ^ 32) (endAt n delimiters (D ++ (T ++ c :: l))) .endless n D.length = .ok (D.length + T.length) := by
  refine tokEnd_eq h hT (Nat.lt_of_succ_lt hlt) hn ?_
  have hread : read (D ++ (T ++ c :: l)) (D.length + T.length) = .ok c :=
    (read_append D (T ++ c :: l) T.length).trans (read_length T l c)
  have hend : D.length + T.length ≠ noEnd := by
    unfold noEnd
    omega
  rw [endAt_char hscan List.mem_cons_self hread, if_pos ⟨hc, hend⟩]

theorem tokEnd_last (h : Scans n delimiters d T) (hT : ∀ c ∈ T, c ∉ d) (hlt : D.length + T.length < 2 ^ 32)
    (hn : T.length < n) :
    search (2 ^ 32) (endAt n delimiters (D ++ (T ++ 0 :: l))) .endless n D.length = .ok noEnd :=
  tokEnd_eq h hT hlt hn (endAt_end ((read_append D (T ++ 0 :: l) T.length).trans (read_length T l 0)))

/-- A token whose end the counter cannot hold is taken to end at 0, if there are delimiters before it. -/
theorem tokEnd_long {e : ℕ} (h : Scans n delimiters d D) (hD : ∀ c ∈ D, c ∈ d) (hlt : D.length < 2 ^ 32)
    (hquiet : ∀ i < 2 ^ 32, D.length ≤ i → endAt n delimiters (D ++ l) i = .ok none)
    (hend : search (2 ^ 32) (endAt n delimiters (D ++ l)) .endless n D.length = .ok e) : D ≠ [] ∧ e = 0 := by
  cases D with
  | nil =>
    refine absurd hend (search_endless (by decide) fun i hi b hb => ?_)
    rw [hquiet i hi (Nat.zero_le i)] at hb
    cases hb
  | cons c D =>
    have hwrap : ((c :: D).length + (2 ^ 32 - (c :: D).length)) % 2 ^ 32 = 0 := by
      rw [Nat.add_sub_of_le (Nat.le_of_lt hlt), Nat.mod_self]
    have hzero : endAt n delimiters (c :: D ++ l) 0 = .ok (some 0) := by
      rw [endAt_char h List.mem_cons_self rfl, if_pos ⟨hD c List.mem_cons_self, by decide⟩]
    have hfound := search_stop hlt hend (k := 2 ^ 32 - (c :: D).length) (by rw [hwrap, hzero]; intro h; cases h)
      fun j hj b hb => by
        rw [Nat.mod_eq_of_lt (by omega), hquiet _ (by omega) (Nat.le_add_right _ _)] at hb
        cases hb
    rw [hwrap, hzero] at hfound
    exact ⟨List.cons_ne_nil c D, (Option.some.inj (Except.ok.inj hfound)).symm⟩

/-! ### The calls -/

variable {ptr : Option ℕ} {t t' : Tokenizer} {calls a e : ℕ} {ts : List (List UInt8)}

/-- What a call leaves that has found `tok_end`. -/
def Tokenizer.after (t : Tokenizer) (p tok_end : ℕ) : Tokenizer :=
  if tok_end = noEnd then ⟨t.memory, none⟩ else ⟨t.memory.set (p + tok_end) 0, some (p + tok_end + 1)⟩

theorem strtok_eq (hp : ptr.or t.str_to_tok = some p) : strtok n ptr (some delimiters) t =
    (search (2 ^ 32) (startAt n delimiters (t.memory.drop p)) .endless n 0 >>= fun tok_start =>
      search (2 ^ 32) (endAt n delimiters (t.memory.drop p)) .endless n tok_start >>= fun tok_end =>
        if tok_end = noEnd ∨ p + tok_end < t.memory.length then .ok (some (p + tok_start), t.after p tok_end)
        else .error .outside) := by
  unfold strtok
  rw [hp]
  dsimp only
  congr 2
  funext tok_start
  congr 1
  funext tok_end
  unfold Tokenizer.after
  by_cases hend : tok_end = noEnd
  · rw [if_pos hend, if_pos (.inl hend), if_pos hend]
  · simp only [hend, if_false, false_or]

theorem strtok_ok (hp : ptr.or t.str_to_tok = some p) (hm : t.memory.drop p = str)
    (hstart : search (2 ^ 32) (startAt n delimiters str) .endless n 0 = .ok a)
    (hend : search (2 ^ 32) (endAt n delimiters str) .endless n a = .ok e) (he : e = noEnd ∨ p + e < t.memory.length) :
    strtok n ptr (some delimiters) t = .ok (some (p + a), t.after p e) := by
  rw [strtok_eq hp, hm, hstart]
  dsimp only [bind, Except.bind]
  rw [hend]
  exact if_pos he

theorem of_strtok_ok {token : Option ℕ} (hp : ptr.or t.str_to_tok = some p) (hm : t.memory.drop p = str)
    (h : strtok n ptr (some delimiters) t = .ok (token, t')) :
    ∃ a e, search (2 ^ 32) (startAt n delimiters str) .endless n 0 = .ok a ∧
      search (2 ^ 32) (endAt n delimiters str) .endless n a = .ok e ∧ token = some (p + a) ∧ t' = t.after p e := by
  rw [strtok_eq hp, hm] at h
  obtain ⟨a, hstart, h⟩ := bind_eq_ok.mp h
  obtain ⟨e, hend, h⟩ := bind_eq_ok.mp h
  split at h
  · obtain ⟨htoken, ht⟩ := Prod.mk.inj (Except.ok.inj h)
    exact ⟨a, e, hstart, hend, htoken.symm, ht.symm⟩
  · cases h

theorem tokens_cons (hcall : strtok n ptr (some delimiters) t = .ok (some p, t'))
    (hs : cString (t'.memory.drop p) = some s) (hrest : tokens n delimiters calls none t' = .ok ts) :
    tokens n delimiters (calls + 1) ptr t = .ok (s :: ts) := by
  rw [tokens, hcall]
  dsimp only [bind, Except.bind]
  rw [stringAt, hs]
  dsimp only
  rw [hrest]

theorem of_stringAt_ok {memory : List UInt8} (h : stringAt memory p = .ok s) : cString (memory.drop p) = some s := by
  unfold stringAt at h
  split at h
  · cases h
  next hs => rw [hs, Except.ok.inj h]

theorem tokens_done (h : t.str_to_tok = none) : tokens n delimiters (calls + 1) none t = .ok [] := by
  have hcall : strtok n none (some delimiters) t = .ok (none, ⟨t.memory, none⟩) := by
    unfold strtok
    rw [h]
    rfl
  rw [tokens, hcall]
  rfl

/-- As long as `str_to_tok` is not 0, a call returns a token. -/
theorem of_tokens_ok (hp : ptr.or t.str_to_tok = some p) (hm : t.memory.drop p = str)
    (h : tokens n delimiters calls ptr t = .ok ts) :
    ∃ calls a e s ts', search (2 ^ 32) (startAt n delimiters str) .endless n 0 = .ok a ∧
      search (2 ^ 32) (endAt n delimiters str) .endless n a = .ok e ∧
      cString ((t.after p e).memory.drop (p + a)) = some s ∧
      tokens n delimiters calls none (t.after p e) = .ok ts' ∧ ts = s :: ts' := by
  cases calls with
  | zero => cases h
  | succ calls =>
    rw [tokens] at h
    obtain ⟨⟨token, t'⟩, hcall, h⟩ := bind_eq_ok.mp h
    obtain ⟨a, e, hstart, hend, rfl, rfl⟩ := of_strtok_ok hp hm hcall
    obtain ⟨s, hs, h⟩ := bind_eq_ok.mp h
    obtain ⟨ts', hrest, h⟩ := bind_eq_ok.mp h
    exact ⟨calls, a, e, s, ts', hstart, hend, of_stringAt_ok hs, hrest, (Except.ok.inj h).symm⟩

/-! ### The runs -/

theorem drop_store {A : List UInt8} {x : UInt8} (hm : t.memory.drop p = A ++ x :: l) (he : A.length ≠ noEnd) :
    p + A.length < t.memory.length ∧ (t.after p A.length).memory.drop p = A ++ 0 :: l ∧
      (t.after p A.length).memory.drop (p + A.length + 1) = l ∧
      (t.after p A.length).str_to_tok = some (p + A.length + 1) := by
  have hlength := congrArg List.length hm
  rw [List.length_drop, List.length_append, List.length_cons] at hlength
  have hset : (t.memory.set (p + A.length) 0).drop p = A ++ 0 :: l := by
    rw [List.drop_set, if_neg (by omega), hm, Nat.add_sub_cancel_left, List.set_append_right _ _ (Nat.le_refl _),
      Nat.sub_self, List.set_cons_zero]
  rw [Tokenizer.after, if_neg he]
  refine ⟨by omega, hset, ?_, rfl⟩
  have hdrop : (A ++ 0 :: l).drop (A.length + 1) = l := by
    rw [List.drop_append, List.drop_of_length_le (Nat.le_succ _), List.nil_append, Nat.add_sub_cancel_left]
    rfl
  rw [Nat.add_assoc, ← List.drop_drop, hset, hdrop]

theorem after_noEnd (t : Tokenizer) (p : ℕ) : t.after p noEnd = ⟨t.memory, none⟩ := if_pos rfl

theorem drop_token {A B m : List UInt8} (h : m.drop p = A ++ B) : m.drop (p + A.length) = B := by
  rw [← List.drop_drop, h, List.drop_left]

/-- Each call returns the next token, and the one behind the last token returns 0. -/
theorem tokens_fits (h : Fits d s) (hp : ptr.or t.str_to_tok = some p) (hm : t.memory.drop p = s ++ 0 :: l)
    (hs : Scans n delimiters d s) (hn : s.length < n) (hcalls : s.length < calls) :
    tokens n delimiters calls ptr t = .ok (maximalTokens d s) := by
  induction h generalizing p ptr t calls with
  | @last D T hD hT hne hlt =>
    have hpos := List.length_pos_iff.mpr hne
    have hsT : Scans n delimiters d T := hs.mono fun x hx => List.mem_append_right D hx
    rw [List.length_append] at hn hcalls
    rw [List.append_assoc] at hm
    obtain ⟨calls, rfl⟩ : ∃ k, calls = k + 1 + 1 := ⟨calls - 2, by omega⟩
    have hcall := strtok_ok hp hm (tokStart_token hs (fun _ hx => hx) hD hT hne (by omega) (by omega) _)
      (tokEnd_last hsT hT hlt (by omega)) (.inl rfl)
    rw [after_noEnd] at hcall
    rw [maximalTokens_delimiters hD, maximalTokens_token hT hne]
    refine tokens_cons hcall ?_ (tokens_done rfl)
    rw [drop_token hm]
    exact cString_terminated hsT.nonzero l
  | @more D T rest c hD hT hne hc hlt _ ih =>
    have hsT : Scans n delimiters d T := hs.mono (by simp +contextual)
    rw [List.length_append, List.length_append, List.length_cons] at hn hcalls
    obtain ⟨calls, rfl⟩ : ∃ k, calls = k + 1 := ⟨calls - 1, by omega⟩
    have hm' : t.memory.drop p = D ++ (T ++ c :: (rest ++ 0 :: l)) := by
      rw [hm, List.append_assoc, List.append_assoc, List.cons_append]
    have he : (D ++ T).length ≠ noEnd := by
      rw [List.length_append, noEnd]
      omega
    obtain ⟨hinside, htoken, hrest, hnext⟩ := drop_store (by rw [hm', List.append_assoc]) he
    rw [List.length_append] at hinside htoken hrest hnext
    have hcall := strtok_ok hp hm'
      (tokStart_token hs (by simp +contextual [or_imp]) hD hT hne (by omega) (by omega) _)
      (tokEnd_delimiter hsT hT (hs.mono (by simp)) hc hlt (by omega)) (.inr hinside)
    rw [maximalTokens_delimiters hD, maximalTokens_append T rest hc, maximalTokens_token hT hne]
    refine tokens_cons hcall ?_ (ih (by rw [hnext]; rfl) hrest (hs.mono (by simp +contextual)) (by omega) (by omega))
    rw [List.append_assoc] at htoken
    rw [drop_token htoken]
    exact cString_terminated hsT.nonzero _

/-- Where the end of the token cannot be counted, no visit up to the last position has a result. -/
theorem endAt_quiet (hs : Scans n delimiters d s) (hsub : ∀ c ∈ T ++ r, c ∈ s) (hT : ∀ c ∈ T, c ∉ d)
    (hr : r = [] ∨ ∃ c rest, r = c :: rest ∧ c ∈ d) (hlong : ¬D.length + T.length + min 1 r.length < 2 ^ 32)
    (hlt : i < 2 ^ 32) (hi : D.length ≤ i) : endAt n delimiters (D ++ (T ++ (r ++ l))) i = .ok none := by
  rw [List.forall_mem_append] at hsub
  obtain ⟨j, rfl⟩ := Nat.exists_eq_add_of_le hi
  by_cases hj : j < T.length
  · exact endAt_token (hs.mono hsub.1) hT hj D _
  · obtain rfl | ⟨c, rest, rfl, hc⟩ := hr
    · rw [List.length_nil] at hlong
      omega
    · rw [List.length_cons] at hlong
      obtain rfl : j = T.length := by omega
      have hread : read (D ++ (T ++ c :: (rest ++ l))) (D.length + T.length) = .ok c :=
        (read_append D (T ++ c :: (rest ++ l)) T.length).trans (read_length T _ c)
      have hlast : ¬(c ∈ d ∧ D.length + T.length ≠ noEnd) := by
        rintro ⟨-, hend⟩
        unfold noEnd at hend
        omega
      rw [List.cons_append, endAt_char hs (hsub.2 c List.mem_cons_self) hread, if_neg hlast]

theorem fits_of_tokens (hp : ptr.or t.str_to_tok = some p) (hm : t.memory.drop p = s ++ 0 :: l)
    (hs : Scans n delimiters d s) (hn : s.length < n)
    (h : tokens n delimiters calls ptr t = .ok (maximalTokens d s)) : Fits d s := by
  induction hlength : s.length using Nat.strong_induction_on generalizing s p ptr t calls with
  | _ k ih =>
    obtain ⟨D, T, r, rfl, hD, hT, hnone, hr⟩ := exists_token d s
    have hsD : Scans n delimiters d D := hs.mono fun x hx => List.mem_append_left _ hx
    have hsT : Scans n delimiters d T := hs.mono (by simp +contextual)
    rw [List.append_assoc, List.append_assoc] at hm
    obtain ⟨calls', a, e, s', ts, hstart, hend, hfirst, hcalls, htokens⟩ := of_tokens_ok hp hm h
    rw [maximalTokens_delimiters hD] at htokens
    have hltD := tokStart_lt hsD hD hstart
    rw [List.length_append, List.length_append] at hn hlength
    by_cases hne : T = []
    · -- Only delimiters: there is no token, but a call returns one.
      rw [hne, hnone hne, List.nil_append, maximalTokens_nil] at htokens
      cases htokens
    rw [tokStart_token hs (by simp +contextual [or_imp]) hD hT hne hltD (by omega)] at hstart
    obtain rfl := Except.ok.inj hstart
    by_cases hlong : D.length + T.length + min 1 r.length < 2 ^ 32
    · obtain rfl | ⟨c, rest, rfl, hc⟩ := hr
      · rw [List.append_nil]
        exact .last hD hT hne (by omega)
      · have hlt : D.length + T.length + 1 < 2 ^ 32 := by
          rw [List.length_cons] at hlong
          omega
        have he : (D ++ T).length ≠ noEnd := by
          rw [List.length_append, noEnd]
          omega
        rw [List.cons_append, tokEnd_delimiter hsT hT (hs.mono (by simp)) hc hlt (by omega)] at hend
        obtain rfl := Except.ok.inj hend
        obtain ⟨-, -, hrest, hnext⟩ := drop_store (by rw [hm, ← List.append_assoc, List.cons_append]) he
        rw [List.length_append] at hrest hnext
        rw [maximalTokens_append T rest hc, maximalTokens_token hT hne] at htokens
        obtain ⟨-, rfl⟩ := List.cons.inj htokens
        rw [List.length_cons] at hn hlength
        exact .more hD hT hne hc hlt (ih rest.length (by omega) (by rw [hnext]; rfl) hrest
          (hs.mono (by simp +contextual)) (by omega) hcalls rfl)
    · -- The token seems to end at 0, so the next call begins before it.
      obtain ⟨hneD, rfl⟩ := tokEnd_long hsD hD hltD
        (fun i hi hDi => endAt_quiet hs (by simp +contextual) hT hr hlong hi hDi) hend
      have hzero : t.after p 0 = ⟨t.memory.set (p + 0) 0, some (p + 0 + 1)⟩ := if_neg (by decide)
      rw [hzero] at hfirst hcalls
      obtain rfl | ⟨c, rest, rfl, hc⟩ := hr
      · rw [List.append_nil, maximalTokens_token hT hne] at htokens
        obtain ⟨-, rfl⟩ := List.cons.inj htokens
        obtain ⟨_, _, _, _, _, -, -, -, -, hnil⟩ := of_tokens_ok rfl rfl hcalls
        cases hnil
      · rw [maximalTokens_append T rest hc, maximalTokens_token hT hne] at htokens
        obtain ⟨rfl, -⟩ := List.cons.inj htokens
        have hpos := List.length_pos_iff.mpr hneD
        rw [List.drop_set_of_lt (by omega), drop_token hm, ← List.append_assoc,
          cString_terminated (hs.mono (by simp +contextual)).nonzero] at hfirst
        have hsame := congrArg List.length (Option.some.inj hfirst)
        rw [List.length_append, List.length_cons] at hsame
        omega

/-- With more delimiters than that, each character that is no delimiter is compared without end. -/
theorem delimiters_lt (h0 : 0 ∉ s) (h0d : 0 ∉ d) (hp : ptr.or t.str_to_tok = some p)
    (hm : t.memory.drop p = s ++ 0 :: l) (h : tokens n (d ++ r) calls ptr t = .ok (maximalTokens d s)) :
    d.length < 2 ^ 32 := by
  by_contra hlong
  rw [Nat.not_lt] at hlong
  obtain ⟨D, T, r', rfl, hD, hT, hnone, -⟩ := exists_token d s
  obtain ⟨calls', a, e, s', ts, hstart, -, -, -, htokens⟩ := of_tokens_ok hp hm h
  have hchar : ∀ {i c x}, c ∈ D ++ (T ++ r') → read (D ++ (T ++ r') ++ 0 :: l) i = .ok c →
      startAt n (d ++ r) (D ++ (T ++ r') ++ 0 :: l) i = .ok x → x = none ∧ c ∈ d := by
    intro i c x hc hread hx
    have hzero : c ≠ 0 := fun hc0 => h0 (hc0 ▸ hc)
    rw [startAt, hread] at hx
    dsimp only [bind, Except.bind] at hx
    rw [if_neg hzero] at hx
    obtain ⟨b, hdel, hx⟩ := bind_eq_ok.mp hx
    obtain ⟨rfl, hmem⟩ := charIsDelimiter_long h0d hlong hdel
    exact ⟨(Except.ok.inj hx).symm, hmem⟩
  by_cases hne : T = []
  · rw [maximalTokens_delimiters hD, hne, hnone hne, List.nil_append, maximalTokens_nil] at htokens
    cases htokens
  · obtain ⟨c, T, rfl⟩ := List.exists_cons_of_ne_nil hne
    obtain ⟨k, -, hfound, hbefore⟩ := (search_eq_ok (by decide)).mp hstart
    have hbehind : (D ++ (c :: T ++ r')).length ≤ (0 + k) % 2 ^ 32 := by
      by_contra hlt
      obtain ⟨x, hx, hread⟩ := read_lt (Nat.not_le.mp hlt) (0 :: l)
      cases (hchar hx hread hfound).1
    rw [List.length_append, List.length_append, List.length_cons] at hbehind
    have hlt := Nat.mod_lt (0 + k) (by decide : 0 < 2 ^ 32)
    have hle := Nat.mod_le (0 + k) (2 ^ 32)
    have hvisit := hbefore D.length (by omega)
    rw [Nat.mod_eq_of_lt (by omega), Nat.zero_add] at hvisit
    have hread : read (D ++ (c :: T ++ r') ++ 0 :: l) D.length = .ok c := by
      rw [List.append_assoc]
      exact read_length D _ c
    exact hT c List.mem_cons_self (hchar (by simp) hread hvisit).2

/-- The calls yield the maximal tokens exactly if the delimiters and the tokens can be counted and the last character
of the string is no delimiter. -/
theorem tokens_iff (hs : cString (t.memory.drop p) = some s) (hd : cString delimiters = some d) :
    (∃ N, ∀ passes ≥ N, ∀ calls ≥ N, tokens passes delimiters calls (some p) t = .ok (maximalTokens d s)) ↔
      d.length < 2 ^ 32 ∧ Fits d s := by
  obtain ⟨h0, l, hm⟩ := cString_eq_some.mp hs
  obtain ⟨h0d, r, rfl⟩ := cString_eq_some.mp hd
  have hscans : ∀ {n}, d.length < 2 ^ 32 → d.length < n → Scans n (d ++ 0 :: r) d s :=
    fun hlt hn => ⟨h0, fun c _ => charIsDelimiter_ok h0d hlt hn r c⟩
  constructor
  · rintro ⟨N, h⟩
    have htokens := h (max N (s.length + d.length + 1)) (Nat.le_max_left _ _) N (Nat.le_refl N)
    have hlt := delimiters_lt h0 h0d rfl hm htokens
    exact ⟨hlt, fits_of_tokens rfl hm (hscans hlt (by omega)) (by omega) htokens⟩
  · rintro ⟨hlt, hfits⟩
    refine ⟨s.length + d.length + 1, fun n hn calls hcalls => ?_⟩
    exact tokens_fits hfits rfl hm (hscans hlt (by omega)) (by omega) (by omega)

theorem tokens_iff_words : ∃ N, ∀ passes ≥ N, ∀ calls ≥ N,
    tokens passes [44, 59, 0] calls (some 1) ⟨[120, 44, 97, 98, 59, 44, 99, 0, 120], none⟩ = .ok [[97, 98], [99]] := by
  have hfits : Fits [44, 59] [44, 97, 98, 59, 44, 99] :=
    .more (D := [44]) (T := [97, 98]) (by simp) (by simp) (by simp) (by simp) (by simp)
      (.last (D := [44]) (T := [99]) (by simp) (by simp) (by simp) (by simp))
  exact (tokens_iff (s := [44, 97, 98, 59, 44, 99]) (d := [44, 59]) (by decide) (by decide)).mpr ⟨by decide, hfits⟩

/-! ### Strings that can be counted -/

theorem Fits.getLast (h : Fits d s) : ∃ s' c, s = s' ++ [c] ∧ c ∉ d := by
  induction h with
  | @last D T hD hT hne =>
    obtain ⟨T, c, rfl⟩ := (List.eq_nil_or_concat' T).resolve_left hne
    exact ⟨D ++ T, c, (List.append_assoc D T [c]).symm, hT c (by simp)⟩
  | @more D T rest c _ _ _ _ _ _ ih =>
    obtain ⟨s', x, rfl, hx⟩ := ih
    exact ⟨D ++ (T ++ c :: s'), x, by simp, hx⟩

theorem fits_iff_getLast (hs : s.length + 1 < 2 ^ 32) : Fits d s ↔ ∃ s' c, s = s' ++ [c] ∧ c ∉ d := by
  refine ⟨Fits.getLast, ?_⟩
  induction hlength : s.length using Nat.strong_induction_on generalizing s with
  | _ k ih =>
    rintro ⟨s', c, hlast, hc⟩
    obtain ⟨D, T, r, rfl, hD, hT, hnone, hr⟩ := exists_token d s
    rw [List.length_append, List.length_append] at hs hlength
    have hne : T ≠ [] := by
      intro hT0
      rw [hT0, hnone hT0, List.append_nil, List.append_nil] at hlast
      exact hc (hD c (hlast ▸ List.mem_append_right s' List.mem_cons_self))
    obtain rfl | ⟨x, rest, rfl, hx⟩ := hr
    · rw [List.append_nil]
      exact .last hD hT hne (by omega)
    · rw [List.length_cons] at hs hlength
      refine .more hD hT hne hx (by omega) (ih rest.length (by omega) (by omega) rfl ?_)
      obtain rfl | ⟨rest, y, rfl⟩ := List.eq_nil_or_concat' rest
      · rw [← List.append_assoc] at hlast
        have hsame := (List.append_inj' hlast rfl).2
        exact absurd ((List.cons.inj hsame).1 ▸ hx) hc
      · refine ⟨rest, y, rfl, ?_⟩
        rw [← List.cons_append, ← List.append_assoc, ← List.append_assoc] at hlast
        have hsame := (List.append_inj' hlast rfl).2
        rwa [(List.cons.inj hsame).1]

/-- Behind the last token there is only a delimiter. -/
theorem trailing_delimiter : ¬∃ N, ∀ passes ≥ N, ∀ calls ≥ N,
    tokens passes [44, 0] calls (some 0) ⟨[97, 44, 0], none⟩ = .ok (maximalTokens [44] [97, 44]) := by
  rintro ⟨N, h⟩
  have htokens := h (max N 4) (Nat.le_max_left N 4) N (Nat.le_refl N)
  have hscans : Scans (max N 4) [44, 0] [44] [97, 44] :=
    ⟨by decide, fun c _ => charIsDelimiter_ok (d := [44]) (by decide) (by decide) (by simp) [] c⟩
  obtain ⟨s', c, hs, hc⟩ := (fits_of_tokens (s := [97, 44]) (l := []) rfl rfl hscans (by simp) htokens).getLast
  have hlast : [97] ++ [44] = s' ++ [c] := hs
  obtain rfl := (List.cons.inj (List.append_inj' hlast rfl).2).1
  exact hc List.mem_cons_self

end KPanic.Strtok
