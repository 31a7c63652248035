import KPanic.Lib.ByteString
import KPanic.Lib.Wp
import KPanic.Mm.PageFaultHandler

/-!
# The kernel in the memory of the caller

The kernel follows a pointer of the caller as it is. `none` is an address where the page fault
handler refuses to load a page; the thread is killed there, as it is below
`null_reference_check_border_`. An access at or above `USER_BREAK` ends the run.
-/

namespace KPanic.Syscalls

open Bytes Function Wp

inductive Stop
  | kernelMemory (a : ℕ)
  | killed
  /-- A copy to the arguments segment leaves the user half. -/
  | segmentLeft
  deriving DecidableEq

abbrev UserMemory := ℕ → Option UInt8

abbrev Sys := StateT UserMemory (Except Stop)

/-- What is at `a`, before it is read or written. -/
def touch (a : ℕ) : Sys UInt8 := do
  let mem ← get
  if USER_BREAK ≤ a then throw (.kernelMemory a)
  else if a < null_reference_check_border_ then throw .killed
  else (mem a).elim (throw .killed) pure

def storeByte (a : ℕ) (c : UInt8) : Sys PUnit := do
  let _ ← touch a
  modify fun mem => update mem a (some c)

def readBytes : ℕ → ℕ → Sys (List UInt8)
  | 0, _ => return []
  | n + 1, a => do
    let c ← touch a
    let l ← readBytes n (a + 1)
    return c :: l

def storeBytes : List UInt8 → ℕ → Sys PUnit
  | [], _ => return
  | c :: l, a => do
    storeByte a c
    storeBytes l (a + 1)

/-- A little-endian word of `n` bytes. -/
def loadWord (n a : ℕ) : Sys ℕ := List.foldr (fun c v => c.toNat + 256 * v) 0 <$> readBytes n a

/-! ### `kstring.cpp` -/

/-- The loop of `strlen`. It ends at `USER_BREAK` at the latest. -/
def strlenFrom : ℕ → ℕ → Sys ℕ
  | 0, a => do
    let _ ← touch a
    return 0
  | fuel + 1, a => do
    let c ← touch a
    if c = 0 then return 0
    else do
      let n ← strlenFrom fuel (a + 1)
      return n + 1

def strlen (str : ℕ) : Sys ℕ := strlenFrom (USER_BREAK - str) str

/-- The length of a string and then its characters, as `ustl::string` and `%s` read it. -/
def readString (str : ℕ) : Sys (List UInt8) := do
  let n ← strlen str
  readBytes n str

/-! ### `ustringformat.cpp`, `debug_bochs.cpp` -/

/-- `%s` -/
def printString (p : ℕ) : Sys PUnit := do
  if p = 0 then return
  else do
    let _ ← readString p

/-- `for (n = 0; n < dwidth && p[n]; n++)` -/
def precisionLength : ℕ → ℕ → Sys ℕ
  | 0, _ => return 0
  | dwidth + 1, p => do
    let c ← touch p
    if c = 0 then return 0
    else do
      let n ← precisionLength dwidth (p + 1)
      return n + 1

/-- `%.*s` -/
def printPrecision (dwidth : ℤ) (p : ℕ) : Sys PUnit := do
  if p = 0 then return
  else do
    let n ← precisionLength dwidth.toNat p
    let _ ← readBytes n p

/-- The loop of `writeLine2Bochs`, with the passes that `counter` leaves. -/
def writeChars2Bochs : ℕ → ℕ → Sys PUnit
  | 0, line2Write => do
    let _ ← touch line2Write
  | passes + 1, line2Write => do
    let c ← touch line2Write
    if c = 0 then return
    else do
      let _ ← touch line2Write
      writeChars2Bochs passes (line2Write + 1)

def writeLine2Bochs (line2Write : ℕ) : Sys PUnit := writeChars2Bochs 250 line2Write

/-! ### Accesses that stay below `USER_BREAK` -/

/-- The run follows a pointer of the caller out of the user half. -/
def Escapes {α : Type} (m : Sys α) (s : UserMemory) : Prop := ∃ a, m.run s = .error (.kernelMemory a)

def Confined (e : Stop) : Prop := ∀ a, e ≠ .kernelMemory a

variable {α β : Type} {m : Sys α} {f : α → Sys β} {s : UserMemory} {a n : ℕ} {c : UInt8}
  {l : List UInt8} {Q : α → UserMemory → Prop}

theorem not_escapes (h : wp Confined m Q s) : ¬Escapes m s := by
  intro hescapes
  obtain ⟨a, ha⟩ := hescapes
  exact error_of_wp h ha a rfl

theorem confined_killed : Confined .killed := by
  intro a h
  cases h

theorem wp_touch (h : a < USER_BREAK) : wp Confined (touch a)
    (fun c t => t = s ∧ s a = some c ∧ null_reference_check_border_ ≤ a) s := by
  unfold touch
  rw [wp_bind, wp_get, if_neg (Nat.not_le.mpr h)]
  refine wp_ite (fun _ => (wp_throw _).mpr confined_killed) fun hborder => ?_
  cases hs : s a with
  | none => exact (wp_throw _).mpr confined_killed
  | some c => exact (wp_pure c).mpr ⟨rfl, rfl, Nat.not_lt.mp hborder⟩

theorem wp_storeByte (h : a < USER_BREAK) :
    wp Confined (storeByte a c) (fun _ _ => null_reference_check_border_ ≤ a) s := by
  refine wp_seq (wp_touch h) fun _ t ht => ?_
  exact (wp_modify _ _).mpr ht.2.2

theorem wp_readBytes (h : a + n ≤ USER_BREAK) : wp Confined (readBytes n a) (fun _ t => t = s) s := by
  induction n generalizing a with
  | zero => exact (wp_pure _).mpr rfl
  | succ n ih =>
    rw [readBytes]
    refine wp_seq (wp_touch (by omega)) fun c t ht => ?_
    rw [ht.1]
    refine wp_seq (ih (by omega)) fun l u hu => ?_
    exact (wp_pure _).mpr hu

theorem wp_storeBytes (h : a + l.length ≤ USER_BREAK) :
    wp Confined (storeBytes l a) (fun _ _ => l ≠ [] → null_reference_check_border_ ≤ a) s := by
  induction l generalizing a s with
  | nil => exact (wp_pure _).mpr fun hne => absurd rfl hne
  | cons c l ih =>
    rw [List.length_cons] at h
    rw [storeBytes]
    refine wp_seq (wp_storeByte (by omega)) fun _ t hborder => ?_
    exact wp_mono (ih (by omega)) fun _ _ _ _ => hborder

theorem wp_loadWord (h : a + n ≤ USER_BREAK) : wp Confined (loadWord n a) (fun _ t => t = s) s := by
  unfold loadWord
  rw [wp_map]
  exact wp_readBytes h

theorem wp_precisionLength (h : a + n ≤ USER_BREAK) :
    wp Confined (precisionLength n a) (fun k t => k ≤ n ∧ t = s) s := by
  induction n generalizing a with
  | zero => exact (wp_pure _).mpr ⟨Nat.le_refl 0, rfl⟩
  | succ n ih =>
    rw [precisionLength]
    refine wp_seq (wp_touch (by omega)) fun c t ht => ?_
    rw [ht.1]
    refine wp_ite (fun _ => (wp_pure _).mpr ⟨Nat.zero_le _, rfl⟩) fun _ => ?_
    refine wp_seq (ih (by omega)) fun k u hu => ?_
    exact (wp_pure _).mpr ⟨Nat.succ_le_succ hu.1, hu.2⟩

theorem wp_printPrecision {dwidth : ℤ} (h : a + dwidth.toNat ≤ USER_BREAK) :
    wp Confined (printPrecision dwidth a) (fun _ t => t = s) s := by
  unfold printPrecision
  refine wp_ite (fun _ => (wp_pure _).mpr rfl) fun _ => ?_
  refine wp_seq (wp_precisionLength h) fun k t ht => ?_
  rw [ht.2]
  refine wp_seq (wp_readBytes (by omega)) fun _ u hu => ?_
  exact (wp_pure _).mpr hu

/-! ### Strings

A string is read below `USER_BREAK` exactly when something there ends it: its NUL, or an address
at which the thread is killed. -/

def Ends (s : UserMemory) (a : ℕ) : Prop :=
  ∃ b, a ≤ b ∧ b < USER_BREAK ∧ (b < null_reference_check_border_ ∨ s b = none ∨ s b = some 0)

theorem ends_of_border (h : a < null_reference_check_border_) : Ends s a :=
  ⟨a, Nat.le_refl a, Nat.lt_trans h (by decide), .inl h⟩

theorem Ends.lt (h : Ends s a) : a < USER_BREAK := by
  obtain ⟨b, hab, hb, -⟩ := h
  omega

/-- A character that does not end the string is passed. -/
theorem Ends.next (h : Ends s a) (ha : s a = some c) (hc : c ≠ 0)
    (hborder : null_reference_check_border_ ≤ a) : Ends s (a + 1) := by
  obtain ⟨b, hab, hb, hend⟩ := h
  have hne : a ≠ b := by
    intro heq
    subst heq
    rcases hend with hlt | hnone | hzero
    · omega
    · rw [ha] at hnone
      cases hnone
    · rw [ha] at hzero
      exact hc (Option.some.inj hzero)
  exact ⟨b, by omega, hb, hend⟩

theorem Ends.back (h : Ends s (a + 1)) : Ends s a := by
  obtain ⟨b, hab, hb, hend⟩ := h
  exact ⟨b, by omega, hb, hend⟩

theorem touch_ok (hborder : null_reference_check_border_ ≤ a) (ha : a < USER_BREAK) (hs : s a = some c) :
    (touch a).run s = .ok (c, s) := by
  unfold touch
  rw [run_bind_ok (show (get : Sys UserMemory).run s = .ok (s, s) from rfl),
    if_neg (Nat.not_le.mpr ha), if_neg (Nat.not_lt.mpr hborder), hs]
  rfl

/-- What `touch` finds at an address that does not end a string. -/
theorem touch_of_not_ends (h : ¬Ends s a) (ha : a < USER_BREAK) :
    ∃ c, c ≠ 0 ∧ (touch a).run s = .ok (c, s) := by
  have hborder : ¬a < null_reference_check_border_ := fun hlt => h (ends_of_border hlt)
  cases hs : s a with
  | none => exact absurd ⟨a, Nat.le_refl a, ha, .inr (.inl hs)⟩ h
  | some c =>
    refine ⟨c, ?_, ?_⟩
    · intro hc
      rw [hc] at hs
      exact h ⟨a, Nat.le_refl a, ha, .inr (.inr hs)⟩
    · exact touch_ok (Nat.not_lt.mp hborder) ha hs

theorem wp_strlenFrom (h : Ends s a) (hfuel : a + n = USER_BREAK) :
    wp Confined (strlenFrom n a) (fun k t => t = s ∧ a + k < USER_BREAK ∧ s (a + k) = some 0) s := by
  have hlt := h.lt
  induction n generalizing a with
  | zero => omega
  | succ n ih =>
    rw [strlenFrom]
    refine wp_seq (wp_touch hlt) fun c t ht => ?_
    obtain ⟨ht, hc, hborder⟩ := ht
    subst ht
    refine wp_ite (fun hzero => ?_) fun hzero => ?_
    · rw [hzero] at hc
      exact (wp_pure _).mpr ⟨rfl, hlt, hc⟩
    · have hnext := h.next hc hzero hborder
      refine wp_seq (ih hnext (by omega) hnext.lt) fun k u hu => ?_
      obtain ⟨hu, hk, hend⟩ := hu
      have hadd : a + (k + 1) = a + 1 + k := by omega
      refine (wp_pure _).mpr ⟨hu, ?_, ?_⟩
      · omega
      · rw [hadd]
        exact hend

theorem wp_strlen (h : Ends s a) :
    wp Confined (strlen a) (fun k t => t = s ∧ a + k < USER_BREAK ∧ s (a + k) = some 0) s := by
  have hlt := h.lt
  exact wp_strlenFrom h (by omega)

/-- A string in the first page kills the thread. -/
theorem wp_strlen_null (h : a < null_reference_check_border_) :
    wp Confined (strlen a) (fun _ _ => False) s := by
  have hborder : null_reference_check_border_ < USER_BREAK := by decide
  obtain ⟨fuel, hfuel⟩ : ∃ fuel, USER_BREAK - a = fuel + 1 := ⟨USER_BREAK - a - 1, by omega⟩
  unfold strlen
  rw [hfuel, strlenFrom]
  refine wp_seq (wp_touch (by omega)) fun c t ht => ?_
  exact absurd ht.2.2 (Nat.not_le.mpr h)

theorem wp_readString (h : Ends s a) : wp Confined (readString a) (fun _ t => t = s) s := by
  unfold readString
  refine wp_seq (wp_strlen h) fun k t ht => ?_
  rw [ht.1]
  exact wp_readBytes (by omega)

theorem wp_printString (h : Ends s a) : wp Confined (printString a) (fun _ t => t = s) s := by
  unfold printString
  refine wp_ite (fun _ => (wp_pure _).mpr rfl) fun _ => ?_
  refine wp_seq (wp_readString h) fun _ t ht => ?_
  exact (wp_pure _).mpr ht

theorem wp_writeChars2Bochs (h : Ends s a ∨ a + n < USER_BREAK) :
    wp Confined (writeChars2Bochs n a) (fun _ _ => True) s := by
  have hlt : a < USER_BREAK := h.elim Ends.lt fun hn => by omega
  induction n generalizing a with
  | zero =>
    rw [writeChars2Bochs]
    refine wp_seq (wp_touch hlt) fun _ _ _ => ?_
    exact (wp_pure _).mpr trivial
  | succ n ih =>
    rw [writeChars2Bochs]
    refine wp_seq (wp_touch hlt) fun c t ht => ?_
    obtain ⟨ht, hc, hborder⟩ := ht
    subst ht
    refine wp_ite (fun _ => (wp_pure _).mpr trivial) fun hzero => ?_
    refine wp_seq (wp_touch hlt) fun _ u hu => ?_
    obtain ⟨hu, -, -⟩ := hu
    subst hu
    have hnext : Ends u (a + 1) ∨ a + 1 + n < USER_BREAK :=
      h.imp (fun hends => hends.next hc hzero hborder) fun hn => by omega
    exact ih hnext (hnext.elim Ends.lt fun hn => by omega)

/-! ### Accesses that leave the user half -/

theorem escapes_bind (h : Escapes m s) : Escapes (m >>= f) s := by
  obtain ⟨b, hb⟩ := h
  refine ⟨b, ?_⟩
  rw [StateT.run_bind, hb]
  rfl

theorem escapes_bind_ok {v : α} {t : UserMemory} (hm : m.run s = .ok (v, t)) (h : Escapes (f v) t) :
    Escapes (m >>= f) s := by
  obtain ⟨b, hb⟩ := h
  exact ⟨b, (run_bind_ok hm).trans hb⟩

theorem touch_escapes (h : USER_BREAK ≤ a) : Escapes (touch a) s := by
  refine ⟨a, ?_⟩
  unfold touch
  rw [run_bind_ok (show (get : Sys UserMemory).run s = .ok (s, s) from rfl), if_pos h]
  rfl

theorem strlenFrom_escapes (h : ¬Ends s a) (hfuel : USER_BREAK ≤ a + n) : Escapes (strlenFrom n a) s := by
  induction n generalizing a with
  | zero =>
    rw [strlenFrom]
    exact escapes_bind (touch_escapes hfuel)
  | succ n ih =>
    rw [strlenFrom]
    by_cases ha : a < USER_BREAK
    · obtain ⟨c, hc, htouch⟩ := touch_of_not_ends h ha
      refine escapes_bind_ok htouch ?_
      rw [if_neg hc]
      refine escapes_bind (ih (fun hend => h hend.back) ?_)
      omega
    · exact escapes_bind (touch_escapes (Nat.not_lt.mp ha))

theorem strlen_escapes_iff : Escapes (strlen a) s ↔ ¬Ends s a := by
  constructor
  · intro hescapes hends
    exact not_escapes (wp_strlen hends) hescapes
  · intro hends
    refine strlenFrom_escapes hends ?_
    omega

theorem readString_escapes (h : ¬Ends s a) : Escapes (readString a) s :=
  escapes_bind (strlen_escapes_iff.mpr h)

theorem writeChars2Bochs_escapes (h : ¬Ends s a) (hpasses : USER_BREAK ≤ a + n) :
    Escapes (writeChars2Bochs n a) s := by
  induction n generalizing a with
  | zero =>
    rw [writeChars2Bochs]
    exact escapes_bind (touch_escapes hpasses)
  | succ n ih =>
    rw [writeChars2Bochs]
    by_cases ha : a < USER_BREAK
    · obtain ⟨c, hc, htouch⟩ := touch_of_not_ends h ha
      refine escapes_bind_ok htouch ?_
      rw [if_neg hc]
      refine escapes_bind_ok htouch (ih (fun hend => h hend.back) ?_)
      omega
    · exact escapes_bind (touch_escapes (Nat.not_lt.mp ha))

/-- Every address of the user half that does not kill the thread outright can be read. -/
def Mapped (s : UserMemory) : Prop := ∀ a, s a ≠ none

theorem storeByte_mapped (h : Mapped s) (hborder : null_reference_check_border_ ≤ a) (ha : a < USER_BREAK)
    (c : UInt8) : (storeByte a c).run s = .ok (⟨⟩, update s a (some c)) ∧ Mapped (update s a (some c)) := by
  refine ⟨?_, ?_⟩
  · obtain ⟨d, hd⟩ := Option.ne_none_iff_exists'.mp (h a)
    unfold storeByte
    rw [run_bind_ok (touch_ok hborder ha hd)]
    rfl
  · intro b
    by_cases hb : b = a
    · rw [hb, update_self]
      exact Option.some_ne_none c
    · rw [update_of_ne hb]
      exact h b

theorem storeBytes_escapes (h : Mapped s) (hborder : null_reference_check_border_ ≤ a)
    (ha : a ≤ USER_BREAK) (hl : USER_BREAK < a + l.length) : Escapes (storeBytes l a) s := by
  induction l generalizing a s with
  | nil =>
    rw [List.length_nil] at hl
    omega
  | cons c l ih =>
    rw [List.length_cons] at hl
    rw [storeBytes]
    by_cases hlt : a < USER_BREAK
    · obtain ⟨hstore, hmapped⟩ := storeByte_mapped h hborder hlt c
      refine escapes_bind_ok hstore (ih hmapped ?_ ?_ ?_)
      · omega
      · omega
      · omega
    · exact escapes_bind (escapes_bind (touch_escapes (Nat.not_lt.mp hlt)))

/-- A store that stays below `USER_BREAK` goes through. -/
theorem storeBytes_mapped (h : Mapped s) (hborder : null_reference_check_border_ ≤ a)
    (hl : a + l.length ≤ USER_BREAK) : ∃ t, (storeBytes l a).run s = .ok (⟨⟩, t) ∧ Mapped t := by
  induction l generalizing a s with
  | nil => exact ⟨s, rfl, h⟩
  | cons c l ih =>
    rw [List.length_cons] at hl
    rw [storeBytes]
    obtain ⟨hstore, hmapped⟩ := storeByte_mapped h hborder (show a < USER_BREAK by omega) c
    obtain ⟨t, hrest, ht⟩ := ih hmapped (show null_reference_check_border_ ≤ a + 1 by omega) (by omega)
    exact ⟨t, (run_bind_ok hstore).trans hrest, ht⟩

end KPanic.Syscalls
