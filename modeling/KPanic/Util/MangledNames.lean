import KPanic.Lib.Simulates
import KPanic.Util.Stabs2DebugInfo
import Mathlib.Data.List.Infix
import Mathlib.Data.List.TakeWhile

/-!
# Names that `demangleName` can read

What is left of a name behind each of its components, up to and with the terminating zero, or nothing where the name
ends inside of one. `demangleName` reads behind the name exactly if it is mangled and its components do not lead to
the `:` behind the arguments.
-/

namespace KPanic.Stabs2DebugInfo

open Fallible

/-! ### The components of a name -/

/-- The `int` that the digits in front are. -/
def number (m : List UInt8) : BitVec 32 :=
  (m.takeWhile isDigit).foldl (fun result c => 10 * result + BitVec.ofNat 32 (c.toNat - 48)) 0

/-- A number and as many characters. -/
def counted (m : List UInt8) : Option (List UInt8) :=
  let r := m.dropWhile isDigit
  if r ≠ [] ∧ toSize (number m) ≤ r.length then some (r.drop (toSize (number m))) else none

def skip (c : Char) : List UInt8 → Option (List UInt8)
  | [] => none
  | x :: r => some (if x = c.toUInt8 then r else x :: r)

/-- A counted name, or one character. -/
def baseType : List UInt8 → Option (List UInt8)
  | [] => none
  | c :: r => if isDigit c then counted (c :: r) else some r

def typeName (m : List UInt8) : Option (List UInt8) := do
  let m ← skip 'R' m
  let m ← skip 'P' m
  let m ← skip 'K' m
  baseType m

/-- Less than `n` types, up to the delimiter. -/
def typesUpTo (delimiter : Char) : ℕ → List UInt8 → Option (List UInt8)
  | 0, _ => none
  | _ + 1, [] => none
  | n + 1, c :: r => if c = delimiter.toUInt8 then some (c :: r) else typeName (c :: r) >>= typesUpTo delimiter n

/-- A type has at least one character. -/
def arguments (delimiter : Char) (m : List UInt8) : Option (List UInt8) := typesUpTo delimiter (m.length + 1) m

/-- The name of an operator, if there is one. -/
def operatorName : List UInt8 → Option (List UInt8)
  | [] => none
  | [c] => if ∃ op ∈ operators, c = op.1.toUInt8 then none else some [c]
  | c :: x :: r =>
    some (if ∃ op ∈ operators, c = op.1.toUInt8 ∧ x = op.2.1.toUInt8 then r else c :: x :: r)

/-- A counted name, template arguments or an operator. -/
def part : List UInt8 → Option (List UInt8)
  | [] => none
  | c :: r =>
    if isDigit c then counted (c :: r)
    else if c = 'I'.toUInt8 then do
      let r ← arguments 'E' r
      some r.tail
    else operatorName (c :: r)

/-- At most `n` parts, up to an `E`. -/
def parts : ℕ → List UInt8 → Option (List UInt8)
  | 0, m => some m
  | _ + 1, [] => none
  | n + 1, c :: r => if c = 'E'.toUInt8 then some (c :: r) else part (c :: r) >>= parts n

/-- A nested name has at most three parts, and one character behind them; another one may begin with `L`. -/
def name : List UInt8 → Option (List UInt8)
  | [] => none
  | c :: r =>
    if c = 'N'.toUInt8 then do
      let r ← parts 3 r
      some r.tail
    else do
      let m ← skip 'L' (c :: r)
      counted m

/-- Up to the `:` behind the arguments. -/
def signature (m : List UInt8) : Option (List UInt8) := do
  let m ← name m
  arguments ':' m

/-- A mangled name has all its components. -/
def Readable (s : List UInt8) : Prop := ∀ r, s = '_'.toUInt8 :: 'Z'.toUInt8 :: r → (signature (r ++ [0])).isSome

variable {m r : List UInt8} {c : UInt8} {delimiter : Char} {n k size passes : ℕ} {b : Buffer}

/-! ### What is left is the end of the name -/

theorem counted_suffix (h : counted m = some r) : r <:+ m.dropWhile isDigit := by
  unfold counted at h
  dsimp only at h
  split at h
  · rw [← Option.some.inj h]
    exact List.drop_suffix _ _
  · cases h

theorem skip_suffix {x : Char} (h : skip x m = some r) : r <:+ m := by
  cases m with
  | nil => cases h
  | cons c m =>
    rw [← Option.some.inj h]
    split
    · exact List.suffix_cons c m
    · exact List.suffix_rfl

theorem baseType_suffix (h : baseType m = some r) : ∃ c m', m = c :: m' ∧ r <:+ m' := by
  cases m with
  | nil => cases h
  | cons c m =>
    refine ⟨c, m, rfl, ?_⟩
    rw [baseType] at h
    split at h
    next hc =>
      have hr := counted_suffix h
      rw [List.dropWhile_cons_of_pos hc] at hr
      exact hr.trans (List.dropWhile_suffix _)
    next => rw [Option.some.inj h]

theorem typeName_suffix (h : typeName m = some r) : r <:+ m ∧ r.length < m.length := by
  obtain ⟨m₁, h₁, h⟩ := Option.bind_eq_some_iff.mp h
  obtain ⟨m₂, h₂, h⟩ := Option.bind_eq_some_iff.mp h
  obtain ⟨m₃, h₃, h⟩ := Option.bind_eq_some_iff.mp h
  have hm := (skip_suffix h₃).trans ((skip_suffix h₂).trans (skip_suffix h₁))
  obtain ⟨c, m', rfl, hr⟩ := baseType_suffix h
  refine ⟨hr.trans ((List.suffix_cons c m').trans hm), ?_⟩
  have hle := hm.length_le
  have hlt := hr.length_le
  rw [List.length_cons] at hle
  omega

/-- The delimiter is in front of what is left. -/
theorem typesUpTo_suffix (h : typesUpTo delimiter n m = some r) : r <:+ m ∧ r.head? = some delimiter.toUInt8 := by
  induction n generalizing m with
  | zero => cases h
  | succ n ih =>
    cases m with
    | nil => cases h
    | cons c m =>
      rw [typesUpTo] at h
      split at h
      next hc =>
        rw [← Option.some.inj h, hc]
        exact ⟨List.suffix_rfl, rfl⟩
      next =>
        obtain ⟨m', htype, hrest⟩ := Option.bind_eq_some_iff.mp h
        obtain ⟨hr, hhead⟩ := ih hrest
        exact ⟨hr.trans (typeName_suffix htype).1, hhead⟩

theorem operatorName_suffix (h : operatorName m = some r) : r <:+ m := by
  match m with
  | [] => cases h
  | [c] =>
    rw [operatorName] at h
    split at h
    · cases h
    · rw [← Option.some.inj h]
  | c :: x :: m =>
    rw [operatorName] at h
    rw [← Option.some.inj h]
    split
    · exact (List.suffix_cons x m).trans (List.suffix_cons c _)
    · exact List.suffix_rfl

theorem part_suffix (h : part m = some r) : r <:+ m := by
  cases m with
  | nil => cases h
  | cons c m =>
    rw [part] at h
    split_ifs at h
    · exact (counted_suffix h).trans (List.dropWhile_suffix _)
    · obtain ⟨m', hargs, hr⟩ := Option.bind_eq_some_iff.mp h
      rw [← Option.some.inj hr]
      exact (List.tail_suffix m').trans ((typesUpTo_suffix hargs).1.trans (List.suffix_cons c m))
    · exact operatorName_suffix h

theorem parts_suffix (h : parts n m = some r) : r <:+ m := by
  induction n generalizing m with
  | zero => exact Option.some.inj h ▸ List.suffix_rfl
  | succ n ih =>
    cases m with
    | nil => cases h
    | cons c m =>
      rw [parts] at h
      split at h
      · exact Option.some.inj h ▸ List.suffix_rfl
      · obtain ⟨m', hpart, hrest⟩ := Option.bind_eq_some_iff.mp h
        exact (ih hrest).trans (part_suffix hpart)

theorem name_suffix (h : name m = some r) : r <:+ m := by
  cases m with
  | nil => cases h
  | cons c m =>
    rw [name] at h
    split at h
    · obtain ⟨m', hparts, hr⟩ := Option.bind_eq_some_iff.mp h
      rw [← Option.some.inj hr]
      exact (List.tail_suffix m').trans ((parts_suffix hparts).trans (List.suffix_cons c m))
    · obtain ⟨m', hskip, hr⟩ := Option.bind_eq_some_iff.mp h
      exact (counted_suffix hr).trans ((List.dropWhile_suffix _).trans (skip_suffix hskip))

/-- A mangled name without a `:` cannot be read. -/
theorem mem_of_readable (h : Readable ('_'.toUInt8 :: 'Z'.toUInt8 :: r)) : ':'.toUInt8 ∈ r := by
  obtain ⟨r', hr'⟩ := Option.isSome_iff_exists.mp (h r rfl)
  obtain ⟨m, hname, hargs⟩ := Option.bind_eq_some_iff.mp hr'
  obtain ⟨hsuffix, hhead⟩ := typesUpTo_suffix hargs
  have hmem := (hsuffix.trans (name_suffix hname)).subset (List.mem_of_mem_head? hhead)
  rw [List.mem_append, List.mem_singleton] at hmem
  exact hmem.resolve_right (by decide)

/-! ### The buffer -/

/-- The pointer and `size` stay inside an array of `n` bytes. -/
structure Buffer.Sound (n : ℕ) (b : Buffer) : Prop where
  length : b.bytes.length = n
  room : b.pos + b.size ≤ n

/-- What a function leaves of the input, and a sound buffer. -/
def Leaves (n : ℕ) (m : List UInt8) (r : List UInt8 × Buffer) : Prop := r.1 = m ∧ r.2.Sound n

theorem putChar2Buffer_sound (hb : b.Sound size) (c : UInt8) : ∃ b', putChar2Buffer b c = .ok b' ∧ b'.Sound size := by
  have hroom := hb.room
  have hlength := hb.length
  rw [putChar2Buffer]
  by_cases hsize : b.size ≤ 1
  · exact ⟨b, if_pos hsize, hb⟩
  · rw [if_neg hsize, if_pos (by omega)]
    refine ⟨_, rfl, ?_, ?_⟩
    · rw [List.length_set, List.length_set]
      exact hlength
    · dsimp only
      omega

theorem putString_sound (hb : b.Sound size) (s : String) : ∃ b', putString s b = .ok b' ∧ b'.Sound size := by
  unfold putString
  induction s.toList.map Char.toUInt8 generalizing b with
  | nil => exact ⟨b, rfl, hb⟩
  | cons c s ih =>
    obtain ⟨b', hput, hb'⟩ := putChar2Buffer_sound hb c
    obtain ⟨b'', hrest, hb''⟩ := ih hb'
    refine ⟨b'', ?_, hb''⟩
    rw [List.foldlM_cons, hput]
    exact hrest

theorem putIf_sound (hb : b.Sound size) (condition : Bool) (s : String) :
    ∃ b', putIf condition s b = .ok b' ∧ b'.Sound size := by
  unfold putIf
  split
  · exact putString_sound hb s
  · exact ⟨b, rfl, hb⟩

/-! ### What the functions read -/

theorem copyChars_simulates (hb : b.Sound size) (m : List UInt8) (k : ℕ) : Simulates .read (copyChars k m b)
    (if k ≤ m.length then some (m.drop k) else none) (Leaves size) := by
  induction k generalizing m b with
  | zero => exact simulates_ok ⟨rfl, hb⟩
  | succ k ih =>
    cases m with
    | nil => exact simulates_error
    | cons c m =>
      have hstep : copyChars (k + 1) (c :: m) b = (putChar2Buffer b c >>= fun b => copyChars k m b) := rfl
      rw [hstep, List.length_cons, List.drop_succ_cons]
      refine simulates_step (putChar2Buffer_sound hb c) fun b' hb' => ?_
      have hrest := ih hb' m
      simp only [Nat.add_le_add_iff_right]
      exact hrest

theorem readNumber_eq (m : List UInt8) (result : BitVec 32) : readNumber result m =
    if m.dropWhile isDigit = [] then .error .read
    else .ok ((m.takeWhile isDigit).foldl (fun result c => 10 * result + BitVec.ofNat 32 (c.toNat - 48)) result,
      m.dropWhile isDigit) := by
  induction m generalizing result with
  | nil => rfl
  | cons c m ih =>
    rw [readNumber]
    by_cases hc : isDigit c = true
    · rw [if_pos hc, ih, List.dropWhile_cons_of_pos hc, List.takeWhile_cons_of_pos hc, List.foldl_cons]
    · rw [if_neg hc, List.dropWhile_cons_of_neg hc, List.takeWhile_cons_of_neg hc, if_neg (List.cons_ne_nil c m)]
      rfl

theorem pasteCounted_simulates (hb : b.Sound size) (m : List UInt8) :
    Simulates .read (pasteCounted m b) (counted m) (Leaves size) := by
  unfold pasteCounted counted
  rw [readNumber_eq]
  by_cases hend : m.dropWhile isDigit = []
  · rw [if_pos hend, if_neg fun h => h.1 hend]
    exact simulates_error
  · rw [if_neg hend]
    have hcopy := copyChars_simulates hb (m.dropWhile isDigit) (toSize (number m))
    simp only [ne_eq, hend, not_false_eq_true, true_and]
    exact hcopy

theorem skipChar_simulates (c : Char) (m : List UInt8) :
    Simulates .read (skipChar c m) (skip c m) (fun m r => r.2 = m) := by
  cases m with
  | nil => exact simulates_error
  | cons x m =>
    have hstep : skipChar c (x :: m) = if x = c.toUInt8 then .ok (true, m) else .ok (false, x :: m) := rfl
    rw [hstep, skip]
    by_cases hx : x = c.toUInt8
    · rw [if_pos hx, if_pos hx]
      exact simulates_ok rfl
    · rw [if_neg hx, if_neg hx]
      exact simulates_ok rfl

theorem pasteBaseType_simulates (hb : b.Sound size) (m : List UInt8) :
    Simulates .read (pasteBaseType m b) (baseType m) (Leaves size) := by
  cases m with
  | nil => exact simulates_error
  | cons c m =>
    have hstep : pasteBaseType (c :: m) b = if isDigit c then pasteCounted (c :: m) b
        else putString (demangledType c) b >>= fun b => .ok (m, b) := rfl
    rw [hstep, baseType]
    refine simulates_ite (fun _ => pasteCounted_simulates hb _) fun _ => ?_
    exact simulates_step (putString_sound hb _) fun b' hb' => simulates_ok ⟨rfl, hb'⟩

theorem pasteTypename_simulates (hb : b.Sound size) (m : List UInt8) :
    Simulates .read (pasteTypename m b) (typeName m) (Leaves size) := by
  refine (skipChar_simulates 'R' m).bind ?_
  rintro _ ⟨is_reference, m₁⟩ - rfl
  refine (skipChar_simulates 'P' m₁).bind ?_
  rintro _ ⟨is_pointer, m₂⟩ - rfl
  refine (skipChar_simulates 'K' m₂).bind ?_
  rintro _ ⟨is_const, m₃⟩ - rfl
  refine simulates_step (putIf_sound hb is_const "const") fun b hb => ?_
  refine (pasteBaseType_simulates hb _).andThen ?_
  rintro _ ⟨m, b⟩ ⟨rfl, hb⟩
  obtain ⟨b', hpointer, hb'⟩ := putIf_sound hb is_pointer "*"
  obtain ⟨b'', hreference, hb''⟩ := putIf_sound hb' is_reference "&"
  refine ⟨(_, b''), ?_, rfl, hb''⟩
  dsimp only
  rw [hpointer]
  dsimp only [bind, Except.bind]
  rw [hreference]

theorem pasteArguments_simulates {arg_nr : ℕ} (hb : b.Sound size) (hn : m.length < n) (hk : m.length < k) :
    Simulates .read (pasteArguments delimiter n arg_nr m b) (typesUpTo delimiter k m) (Leaves size) := by
  induction n generalizing k arg_nr m b with
  | zero => exact absurd hn (Nat.not_lt_zero _)
  | succ n ih =>
    obtain ⟨k, rfl⟩ : ∃ j, k = j + 1 := ⟨k - 1, by omega⟩
    cases m with
    | nil => exact simulates_error
    | cons c m =>
      have hstep : pasteArguments delimiter (n + 1) arg_nr (c :: m) b =
          if c = delimiter.toUInt8 then .ok (c :: m, b)
          else putIf (arg_nr ≠ 0) ", " b >>= fun b => pasteTypename (c :: m) b >>= fun r =>
            pasteArguments delimiter n ((arg_nr + 1) % 2 ^ 32) r.1 r.2 := rfl
      rw [hstep, typesUpTo]
      refine simulates_ite (fun _ => simulates_ok ⟨rfl, hb⟩) fun _ => ?_
      refine simulates_step (putIf_sound hb _ ", ") fun b hb => ?_
      refine (pasteTypename_simulates hb _).bind ?_
      rintro _ ⟨r, b⟩ hr ⟨rfl, hb⟩
      have hlt := (typeName_suffix hr).2
      exact ih hb (by omega) (by omega)

theorem findOperator_singleton (c : UInt8) (ops : List (Char × Char × String)) :
    findOperator [c] ops = if ∃ op ∈ ops, c = op.1.toUInt8 then .error .read else .ok none := by
  induction ops with
  | nil => simp [findOperator]
  | cons op ops ih =>
    have hstep : findOperator [c] (op :: ops) =
        if c = op.1.toUInt8 then .error .read else findOperator [c] ops := rfl
    simp only [hstep, ih, List.exists_mem_cons_iff]
    by_cases hc : c = op.1.toUInt8
    · rw [if_pos hc, if_pos (.inl hc)]
    · simp only [hc, if_false, false_or]

theorem findOperator_cons (c x : UInt8) (r : List UInt8) (ops : List (Char × Char × String)) :
    ∃ o, findOperator (c :: x :: r) ops = .ok o ∧ (o.isSome ↔ ∃ op ∈ ops, c = op.1.toUInt8 ∧ x = op.2.1.toUInt8) := by
  induction ops with
  | nil => exact ⟨none, rfl, by simp⟩
  | cons op ops ih =>
    have hstep : findOperator (c :: x :: r) (op :: ops) = if c = op.1.toUInt8 then
        if x = op.2.1.toUInt8 then .ok (some op.2.2) else findOperator (c :: x :: r) ops
        else findOperator (c :: x :: r) ops := rfl
    simp only [hstep, List.exists_mem_cons_iff]
    by_cases hc : c = op.1.toUInt8
    · by_cases hx : x = op.2.1.toUInt8
      · exact ⟨some op.2.2, by rw [if_pos hc, if_pos hx], by simp [hc, hx]⟩
      · simpa only [hc, hx, if_true, if_false, and_false, false_or] using ih
    · simpa only [hc, if_false, false_and, false_or] using ih

theorem tryPasteOoperator_simulates (hb : b.Sound size) (m : List UInt8) :
    Simulates .read (tryPasteOoperator m b) (operatorName m) (Leaves size) := by
  unfold tryPasteOoperator
  match m with
  | [] => exact simulates_error
  | [c] =>
    rw [findOperator_singleton, operatorName]
    split
    · exact simulates_error
    · exact simulates_ok ⟨rfl, hb⟩
  | c :: x :: m =>
    obtain ⟨o, ho, hiff⟩ := findOperator_cons c x m operators
    rw [ho, operatorName]
    cases o with
    | none =>
      rw [if_neg (mt hiff.mpr (by simp))]
      exact simulates_ok ⟨rfl, hb⟩
    | some operator_name =>
      rw [if_pos (hiff.mp rfl)]
      show Simulates .read (putString "operator" b >>= fun b => putString operator_name b >>= fun b => .ok (m, b)) _ _
      refine simulates_step (putString_sound hb "operator") fun b hb => ?_
      exact simulates_step (putString_sound hb operator_name) fun b hb => simulates_ok ⟨rfl, hb⟩

theorem pastePart_simulates (hb : b.Sound size) (hn : m.length ≤ passes) :
    Simulates .read (pastePart passes m b) (part m) (Leaves size) := by
  cases m with
  | nil => exact simulates_error
  | cons c m =>
    have hstep : pastePart passes (c :: m) b = if isDigit c then pasteCounted (c :: m) b
        else if c = 'I'.toUInt8 then putString "<" b >>= fun b => pasteArguments 'E' passes 0 m b >>= fun r =>
          putString ">" r.2 >>= fun b => .ok (r.1.tail, b)
        else tryPasteOoperator (c :: m) b := rfl
    rw [hstep, part]
    refine simulates_ite (fun _ => pasteCounted_simulates hb _) fun _ => ?_
    refine simulates_ite (fun _ => ?_) fun _ => tryPasteOoperator_simulates hb _
    refine simulates_step (putString_sound hb "<") fun b hb => ?_
    refine (pasteArguments_simulates hb hn (Nat.lt_succ_self _)).bind ?_
    rintro _ ⟨r, b⟩ - ⟨rfl, hb⟩
    exact simulates_step (putString_sound hb ">") fun b hb => simulates_ok ⟨rfl, hb⟩

/-- The third part is the last one, with or without an `E` behind it. -/
theorem pasteNested_simulates (hb : b.Sound size) (hn : m.length ≤ passes) {turn : ℕ} (hturn : turn + k = 3) (hk : 0 < k)
    (hle : k ≤ n) : Simulates .read (pasteNested passes n turn m b) (parts k m) (Leaves size) := by
  induction n generalizing k turn m b with
  | zero => omega
  | succ n ih =>
    obtain ⟨k, rfl⟩ : ∃ j, k = j + 1 := ⟨k - 1, by omega⟩
    cases m with
    | nil => exact simulates_error
    | cons c m =>
      have hstep : pasteNested passes (n + 1) turn (c :: m) b = if c = 'E'.toUInt8 then .ok (c :: m, b)
          else putIf (turn ≠ 0 ∧ c ≠ 'I'.toUInt8) "::" b >>= fun b => pastePart passes (c :: m) b >>= fun r =>
            if turn ≥ 2 then .ok r else pasteNested passes n (turn + 1) r.1 r.2 := rfl
      rw [hstep, parts]
      refine simulates_ite (fun _ => simulates_ok ⟨rfl, hb⟩) fun _ => ?_
      refine simulates_step (putIf_sound hb _ "::") fun b hb => ?_
      refine (pastePart_simulates hb hn).bind ?_
      rintro _ ⟨r, b⟩ hr ⟨rfl, hb⟩
      by_cases hlast : turn ≥ 2
      · obtain rfl : k = 0 := by omega
        rw [if_pos hlast]
        exact simulates_ok ⟨rfl, hb⟩
      · rw [if_neg hlast]
        exact ih hb ((part_suffix hr).length_le.trans hn) (by omega) (by omega) (by omega)

theorem pasteName_simulates (hb : b.Sound size) (hn : m.length ≤ passes) (hpasses : 3 ≤ passes) :
    Simulates .read (pasteName passes m b) (name m) (Leaves size) := by
  cases m with
  | nil => exact simulates_error
  | cons c m =>
    have hstep : pasteName passes (c :: m) b = if c = 'N'.toUInt8 then
        pasteNested passes passes 0 m b >>= fun r => .ok (r.1.tail, r.2)
        else skipChar 'L' (c :: m) >>= fun r => pasteCounted r.2 b := rfl
    rw [hstep, name]
    refine simulates_ite (fun _ => ?_) fun _ => ?_
    · refine (pasteNested_simulates hb ((Nat.le_succ _).trans hn) rfl (by decide) hpasses).bind ?_
      rintro _ ⟨r, b⟩ - ⟨rfl, hb⟩
      exact simulates_ok ⟨rfl, hb⟩
    · refine (skipChar_simulates 'L' _).bind ?_
      rintro _ ⟨_, r⟩ - rfl
      exact pasteCounted_simulates hb r

/-! ### `demangleName` -/

variable {s : List UInt8}

def Buffer.new (bytes : List UInt8) : Buffer := ⟨bytes, 0, bytes.length⟩

theorem sound_new (bytes : List UInt8) : (Buffer.new bytes).Sound bytes.length :=
  ⟨rfl, Nat.le_of_eq (Nat.zero_add _)⟩

theorem mangled_simulates (hb : b.Sound size) (hn : m.length < passes) (hpasses : 3 ≤ passes) :
    Simulates .read (demangleName passes ('_'.toUInt8 :: 'Z'.toUInt8 :: m) b) (signature m) fun _ b => b.Sound size := by
  have hstep : demangleName passes ('_'.toUInt8 :: 'Z'.toUInt8 :: m) b = (pasteName passes m b >>= fun r =>
      putString "(" r.2 >>= fun b => pasteArguments ':' passes 0 r.1 b >>= fun r => putString ")" r.2) := rfl
  rw [hstep]
  refine (pasteName_simulates hb (Nat.le_of_lt hn) hpasses).bind ?_
  rintro _ ⟨r, b⟩ hr ⟨rfl, hb⟩
  refine simulates_step (putString_sound hb "(") fun b hb => ?_
  have hlt := Nat.lt_of_le_of_lt (name_suffix hr).length_le hn
  refine (pasteArguments_simulates hb hlt (Nat.lt_succ_self _)).andThen ?_
  rintro _ ⟨r, b⟩ ⟨rfl, hb⟩
  exact putString_sound hb ")"

theorem isUnmangled_eq (hs : ∀ r, s ≠ '_'.toUInt8 :: 'Z'.toUInt8 :: r) : isUnmangled (s ++ [0]) = .ok true := by
  match s with
  | [] => rfl
  | [c] =>
    have hstep : isUnmangled [c, 0] = if c ≠ '_'.toUInt8 then .ok true else .ok true := rfl
    exact hstep.trans (ite_self _)
  | c :: x :: r =>
    have hstep : isUnmangled (c :: x :: (r ++ [0])) =
        if c ≠ '_'.toUInt8 then .ok true else .ok (decide (x ≠ 'Z'.toUInt8)) := rfl
    refine hstep.trans ?_
    by_cases hc : c = '_'.toUInt8
    · have hx : x ≠ 'Z'.toUInt8 := fun hx => hs r (by rw [hc, hx])
      rw [if_neg (not_not_intro hc), decide_eq_true hx]
    · exact if_pos hc

theorem strlen_eq (h0 : 0 ∉ s) : strlen (s ++ [0]) = .ok s.length := by
  induction s with
  | nil => rfl
  | cons c s ih =>
    rw [List.mem_cons, not_or] at h0
    rw [List.cons_append, strlen, if_neg (Ne.symm h0.1), ih h0.2]
    rfl

/-- The loop ends with the name, if no `:` ends it before. -/
theorem copyUnmangled_sound (hb : b.Sound size) (hn : n ≤ m.length) :
    ∃ b', copyUnmangled n m b = .ok b' ∧ b'.Sound size := by
  induction n generalizing m b with
  | zero => exact ⟨b, rfl, hb⟩
  | succ n ih =>
    cases m with
    | nil => exact absurd hn (Nat.not_succ_le_zero n)
    | cons c m =>
      have hstep : copyUnmangled (n + 1) (c :: m) b =
          if c = ':'.toUInt8 then .ok b else putChar2Buffer b c >>= fun b => copyUnmangled n m b := rfl
      rw [hstep]
      by_cases hc : c = ':'.toUInt8
      · exact ⟨b, if_pos hc, hb⟩
      · obtain ⟨b', hput, hb'⟩ := putChar2Buffer_sound hb c
        rw [if_neg hc, hput]
        exact ih hb' (Nat.le_of_succ_le_succ hn)

theorem unmangled_sound (hb : b.Sound size) (h0 : 0 ∉ s) (hs : ∀ r, s ≠ '_'.toUInt8 :: 'Z'.toUInt8 :: r) :
    ∃ b', demangleName passes (s ++ [0]) b = .ok b' ∧ b'.Sound size := by
  unfold demangleName
  rw [isUnmangled_eq hs]
  dsimp only [bind, Except.bind]
  rw [if_pos rfl, strlen_eq h0]
  exact copyUnmangled_sound hb (List.length_append ▸ Nat.le_add_right _ _)

/-- A call ends, and it never stores outside the buffer; it never reads behind the name exactly if the name is not
mangled or has all its components. -/
theorem demangleName_safe_iff (h0 : 0 ∉ s) :
    (∀ buffer ≠ [], ∀ passes ≥ s.length + 3, demangleName passes (s ++ [0]) (Buffer.new buffer) = .error .read ∨
      ∃ b, demangleName passes (s ++ [0]) (Buffer.new buffer) = .ok b ∧ b.bytes.length = buffer.length) ∧
    ((∀ buffer ≠ [], ∀ passes ≥ s.length + 3, ∃ b, demangleName passes (s ++ [0]) (Buffer.new buffer) = .ok b) ↔
      Readable s) := by
  by_cases hs : ∃ r, s = '_'.toUInt8 :: 'Z'.toUInt8 :: r
  · obtain ⟨r, rfl⟩ := hs
    have hreadable : Readable ('_'.toUInt8 :: 'Z'.toUInt8 :: r) ↔ (signature (r ++ [0])).isSome :=
      ⟨fun h => h r rfl, fun h r' hr => (List.cons.inj (List.cons.inj hr).2).2 ▸ h⟩
    have hcall : ∀ buffer, ∀ passes ≥ ('_'.toUInt8 :: 'Z'.toUInt8 :: r).length + 3,
        Simulates .read (demangleName passes ('_'.toUInt8 :: 'Z'.toUInt8 :: r ++ [0]) (Buffer.new buffer))
          (signature (r ++ [0])) fun _ b => b.Sound buffer.length := by
      intro buffer passes hpasses
      rw [List.length_cons, List.length_cons] at hpasses
      have hlt : (r ++ [0]).length < passes := by
        rw [List.length_append, List.length_singleton]
        omega
      exact mangled_simulates (sound_new buffer) hlt (by omega)
    refine ⟨fun buffer _ passes hpasses => ?_, ?_⟩
    · have h := hcall buffer passes hpasses
      cases hsig : signature (r ++ [0]) with
      | none =>
        rw [hsig] at h
        exact .inl h
      | some r' =>
        rw [hsig] at h
        obtain ⟨b, hb, hsound⟩ := h
        exact .inr ⟨b, hb, hsound.length⟩
    · rw [hreadable]
      constructor
      · intro h
        exact (hcall [0] _ (Nat.le_refl _)).isSome_iff.mp (h [0] (List.cons_ne_nil 0 []) _ (Nat.le_refl _))
      · intro h buffer _ passes hpasses
        exact (hcall buffer passes hpasses).isSome_iff.mpr h
  · have hs : ∀ r, s ≠ '_'.toUInt8 :: 'Z'.toUInt8 :: r := fun r hr => hs ⟨r, hr⟩
    have hcall := fun buffer passes => @unmangled_sound _ passes _ _ (sound_new buffer) h0 hs
    refine ⟨fun buffer _ passes _ => .inr ?_, fun _ r hr => absurd hr (hs r), fun _ buffer _ passes _ => ?_⟩
    · obtain ⟨b, hb, hsound⟩ := hcall buffer passes
      exact ⟨b, hb, hsound.length⟩
    · obtain ⟨b, hb, -⟩ := hcall buffer passes
      exact ⟨b, hb⟩

/-- `_ZN1a1bEi:F` -/
theorem demangleName_safe_iff_nested : ∃ b,
    demangleName 20 [95, 90, 78, 49, 97, 49, 98, 69, 105, 58, 70, 0] (Buffer.new [1, 1, 1, 1]) = .ok b := by
  have hreadable : Readable [95, 90, 78, 49, 97, 49, 98, 69, 105, 58, 70] := by
    intro r hr
    obtain rfl := (List.cons.inj (List.cons.inj hr).2).2
    decide +kernel
  exact (demangleName_safe_iff (s := [95, 90, 78, 49, 97, 49, 98, 69, 105, 58, 70]) (by decide)).2.mpr hreadable
    [1, 1, 1, 1] (by decide) 20 (by decide)

/-- `_Z1ai`, where the arguments have no `:` behind them. -/
theorem missing_colon : ¬∀ buffer ≠ [], ∀ passes ≥ 8,
    ∃ b, demangleName passes [95, 90, 49, 97, 105, 0] (Buffer.new buffer) = .ok b := by
  intro h
  obtain ⟨b, hb⟩ := h [0] (by decide) 8 (by decide)
  have hread : (match demangleName 8 [95, 90, 49, 97, 105, 0] (Buffer.new [0]) with
      | .ok _ => none
      | .error e => some e) = some Stop.read := by decide +kernel
  rw [hb] at hread
  cases hread

end KPanic.Stabs2DebugInfo
