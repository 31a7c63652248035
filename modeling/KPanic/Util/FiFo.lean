import KPanic.Lib.Machine
import KPanic.Lib.Ring
import Mathlib.Algebra.Group.Nat.Defs

/-!
# `common/include/util/FiFo.h`

A queue for several threads. The lock is held between two waits, so what a thread does under it is one
step; a wait puts the thread in the list of the condition, and a signal takes out the one that waits
longest.
-/

namespace KPanic

open Function
open Machine

/-- What a thread waits for, and whether it was signalled. -/
inductive FiFo.Caller (T : Type)
  | idle
  | putting (c : T) (signalled : Bool)
  | getting (signalled : Bool)

structure FiFo (T : Type) where
  input_buffer_size_ : ℕ
  input_buffer_ : ℕ → T
  ib_write_pos_ : ℕ
  ib_read_pos_ : ℕ
  flags_ : UInt8
  something_to_read_ : List ℕ
  space_to_write_ : List ℕ
  caller : ℕ → FiFo.Caller T

namespace FiFo

variable {T : Type}

def FIFO_NOBLOCK_PUT : UInt8 := 1
def FIFO_NOBLOCK_PUT_OVERWRITE_OLD : UInt8 := 2

inductive Event (T : Type)
  /-- A call of `put` begins. -/
  | calls (t : ℕ) (c : T)
  | put (t : ℕ) (c : T) (overwritten : Option T)
  | refused (t : ℕ) (c : T)
  | got (t : ℕ) (c : T)
  | peeked (t : ℕ) (r : Option T)
  | cleared (t : ℕ)
  | counted (t n : ℕ)
  deriving DecidableEq

/-- The constructor; the array is `garbage` at first. -/
def new (inputb_size : UInt32) (flags : UInt8) (garbage : ℕ → T) : FiFo T where
  input_buffer_size_ := if inputb_size < 2 then 512 else inputb_size.toNat
  input_buffer_ := garbage
  ib_write_pos_ := 1
  ib_read_pos_ := 0
  flags_ := flags
  something_to_read_ := []
  space_to_write_ := []
  caller _ := .idle

/-- The position behind `pos`, a `uint32`. -/
def after (s : FiFo T) (pos : ℕ) : ℕ := (pos + 1) % 2 ^ 32 % s.input_buffer_size_

def Caller.signal : Caller T → Caller T
  | .idle => .idle
  | .putting c _ => .putting c true
  | .getting _ => .getting true

def signalReader (s : FiFo T) : FiFo T :=
  match s.something_to_read_ with
  | [] => s
  | t :: ts => { s with something_to_read_ := ts, caller := update s.caller t (s.caller t).signal }

def signalWriter (s : FiFo T) : FiFo T :=
  match s.space_to_write_ with
  | [] => s
  | t :: ts => { s with space_to_write_ := ts, caller := update s.caller t (s.caller t).signal }

/-- The end of `put`. -/
def write (s : FiFo T) (t : ℕ) (c : T) : FiFo T :=
  let s := s.signalReader
  { s with
    input_buffer_ := update s.input_buffer_ s.ib_write_pos_ c
    ib_write_pos_ := s.after s.ib_write_pos_
    caller := update s.caller t .idle }

/-- The loop of `put`. -/
def putLoop (s : FiFo T) (t : ℕ) (c : T) : FiFo T × List (Event T) :=
  if s.ib_write_pos_ = s.ib_read_pos_ then
    ({ s with space_to_write_ := s.space_to_write_ ++ [t], caller := update s.caller t (.putting c false) }, [])
  else (s.write t c, [.put t c none])

def put (s : FiFo T) (t : ℕ) (c : T) : FiFo T × List (Event T) :=
  if s.ib_write_pos_ = s.ib_read_pos_ then
    if s.flags_ &&& FIFO_NOBLOCK_PUT ≠ 0 then
      if s.flags_ &&& FIFO_NOBLOCK_PUT_OVERWRITE_OLD ≠ 0 then
        let old := s.input_buffer_ (s.after s.ib_read_pos_)
        ({ s with ib_read_pos_ := s.after s.ib_read_pos_ }.write t c, [.put t c (some old)])
      else (s, [.refused t c])
    else s.putLoop t c
  else (s.write t c, [.put t c none])

def clear (s : FiFo T) (t : ℕ) : FiFo T × List (Event T) := ({ s with ib_write_pos_ := 1, ib_read_pos_ := 0 }, [.cleared t])

/-- The loop of `get`, and what follows. -/
def get (s : FiFo T) (t : ℕ) : FiFo T × List (Event T) :=
  if s.ib_write_pos_ = s.after s.ib_read_pos_ then
    ({ s with something_to_read_ := s.something_to_read_ ++ [t], caller := update s.caller t (.getting false) }, [])
  else
    let s := s.signalWriter
    let ib_read_pos_ := s.after s.ib_read_pos_
    ({ s with ib_read_pos_ := ib_read_pos_, caller := update s.caller t .idle }, [.got t (s.input_buffer_ ib_read_pos_)])

def peekAhead (s : FiFo T) (t : ℕ) : FiFo T × List (Event T) :=
  if s.ib_write_pos_ = s.after s.ib_read_pos_ then (s, [.peeked t none])
  else (s, [.peeked t (some (s.input_buffer_ (s.after s.ib_read_pos_)))])

/-- The difference is a `uint32`, so the last branch is never taken. -/
def count (s : FiFo T) : ℕ :=
  let count := (s.ib_write_pos_ + 2 ^ 32 - s.ib_read_pos_) % 2 ^ 32
  if count = 0 then s.input_buffer_size_
  else if count > 0 then count - 1
  else (s.input_buffer_size_ + count) % 2 ^ 32

def countElementsAhead (s : FiFo T) (t : ℕ) : FiFo T × List (Event T) := (s, [.counted t s.count])

inductive Act (T : Type)
  | put (t : ℕ) (c : T)
  | get (t : ℕ)
  | peekAhead (t : ℕ)
  | clear (t : ℕ)
  | countElementsAhead (t : ℕ)
  /-- A thread that was signalled has the lock again. -/
  | resume (t : ℕ)

def isIdle : Caller T → Bool
  | .idle => true
  | _ => false

/-- A thread that waits makes no calls. -/
def step (s : FiFo T) : Act T → Except Unit (FiFo T × List (Event T))
  | .put t c => if isIdle (s.caller t) then .ok ((s.put t c).1, .calls t c :: (s.put t c).2) else .error ()
  | .get t => if isIdle (s.caller t) then .ok (s.get t) else .error ()
  | .peekAhead t => if isIdle (s.caller t) then .ok (s.peekAhead t) else .error ()
  | .clear t => if isIdle (s.caller t) then .ok (s.clear t) else .error ()
  | .countElementsAhead t => if isIdle (s.caller t) then .ok (s.countElementsAhead t) else .error ()
  | .resume t =>
    match s.caller t with
    | .putting c true => .ok (s.putLoop t c)
    | .getting true => .ok (s.get t)
    | _ => .error ()

/-! ### What a queue does -/

inductive Mode
  | block
  | refuse
  | overwrite

def mode (flags : UInt8) : Mode :=
  if flags &&& FIFO_NOBLOCK_PUT_OVERWRITE_OLD ≠ 0 then .overwrite
  else if flags &&& FIFO_NOBLOCK_PUT ≠ 0 then .refuse else .block

/-- A queue of at most `capacity` elements, the oldest first. -/
inductive Serves (mode : Mode) (capacity : ℕ) : List T → Event T → List T → Prop
  | calls {q t c} : Serves mode capacity q (.calls t c) q
  | put {q t c} (hroom : q.length < capacity) : Serves mode capacity q (.put t c none) (q ++ [c])
  | overwrite {q t c old} (hmode : mode = .overwrite) (hfull : (old :: q).length = capacity) :
    Serves mode capacity (old :: q) (.put t c (some old)) (q ++ [c])
  | refused {q t c} (hmode : mode = .refuse) (hfull : q.length = capacity) : Serves mode capacity q (.refused t c) q
  | got {q t c} : Serves mode capacity (c :: q) (.got t c) q
  | peeked {q t} : Serves mode capacity q (.peeked t q.head?) q
  | cleared {q t} : Serves mode capacity q (.cleared t) []
  | counted {q t} : Serves mode capacity q (.counted t q.length) q

def ServesAll (mode : Mode) (capacity : ℕ) : List T → List (Event T) → List T → Prop
  | q, [], q' => q = q'
  | q, e :: es, q' => ∃ q₁, Serves mode capacity q e q₁ ∧ ServesAll mode capacity q₁ es q'

/-- What the thread has given to `put`. -/
def callsOf (t : ℕ) (tr : List (Event T)) : List T :=
  tr.filterMap fun e => match e with
    | .calls u c => if u = t then some c else none
    | _ => none

/-- What `put` has done with it. -/
def doneOf (t : ℕ) (tr : List (Event T)) : List T :=
  tr.filterMap fun e => match e with
    | .put u c _ | .refused u c => if u = t then some c else none
    | _ => none

/-- What the thread waits to put. -/
def Caller.pending : Caller T → List T
  | .putting c _ => [c]
  | _ => []

/-! ### The queue in the array -/

structure Wf (s : FiFo T) : Prop where
  ring : Ring.Wf s.input_buffer_size_ s.ib_write_pos_ s.ib_read_pos_
  size_lt : s.input_buffer_size_ < 2 ^ 32

def contents (s : FiFo T) : List T := Ring.contents s.input_buffer_ s.input_buffer_size_ s.ib_write_pos_ s.ib_read_pos_

variable {s s' s₀ u : FiFo T} {t x i : ℕ} {c : T} {tr evs : List (Event T)} {m : Mode} {k : ℕ}

theorem Wf.after_eq (h : s.Wf) (hi : i < s.input_buffer_size_) : s.after i = (i + 1) % s.input_buffer_size_ := by
  have hlt := h.size_lt
  have hsmall : (i + 1) % 2 ^ 32 = i + 1 := Nat.mod_eq_of_lt (by omega)
  rw [after, hsmall]

theorem wf_new (inputb_size : UInt32) (flags : UInt8) (garbage : ℕ → T) : (new inputb_size flags garbage).Wf := by
  have hsize : 2 ≤ (new inputb_size flags garbage).input_buffer_size_ ∧
      (new inputb_size flags garbage).input_buffer_size_ < 2 ^ 32 := by
    unfold new
    dsimp only
    split
    · decide
    · rename_i hge
      exact ⟨UInt32.not_lt.mp hge, inputb_size.toNat_lt⟩
  exact ⟨⟨hsize.1, hsize.1, Nat.lt_of_lt_of_le Nat.two_pos hsize.1⟩, hsize.2⟩

theorem length_contents (s : FiFo T) : s.contents.length = Ring.stored s.input_buffer_size_ s.ib_write_pos_ s.ib_read_pos_ :=
  Ring.length_contents

/-- The element count is right exactly while the write position is above the read position. -/
theorem Wf.count_iff (h : s.Wf) : s.count = s.contents.length ↔ s.ib_read_pos_ < s.ib_write_pos_ := by
  have hwrite := h.ring.write_lt
  have hread := h.ring.read_lt
  have hlt := h.size_lt
  rw [length_contents, Ring.stored, count]
  by_cases hpos : s.ib_read_pos_ < s.ib_write_pos_
  · have hdiff : (s.ib_write_pos_ + 2 ^ 32 - s.ib_read_pos_) % 2 ^ 32 = s.ib_write_pos_ - s.ib_read_pos_ := by omega
    rw [hdiff, if_neg (by omega), if_pos (by omega), if_pos hpos]
    exact ⟨fun _ => hpos, fun _ => rfl⟩
  · refine ⟨fun heq => ?_, fun hlt' => absurd hlt' hpos⟩
    rw [if_neg hpos] at heq
    by_cases hfull : s.ib_write_pos_ = s.ib_read_pos_
    · have hdiff : (s.ib_write_pos_ + 2 ^ 32 - s.ib_read_pos_) % 2 ^ 32 = 0 := by omega
      rw [if_pos hdiff] at heq
      omega
    · have hdiff : (s.ib_write_pos_ + 2 ^ 32 - s.ib_read_pos_) % 2 ^ 32 = s.ib_write_pos_ + 2 ^ 32 - s.ib_read_pos_ := by omega
      rw [hdiff, if_neg (by omega), if_pos (by omega)] at heq
      omega

theorem pending_update (f : ℕ → Caller T) (t x : ℕ) (a : Caller T) :
    (update f t a x).pending = if x = t then a.pending else (f x).pending := by
  by_cases hxt : x = t
  · rw [if_pos hxt, hxt, update_self]
  · rw [if_neg hxt, update_of_ne hxt]

/-- A signal takes nothing from the one it wakes. -/
theorem pending_signal (f : ℕ → Caller T) (t x : ℕ) : (update f t (f t).signal x).pending = (f x).pending := by
  have hsame : (f t).signal.pending = (f t).pending := by
    cases f t <;> rfl
  rw [pending_update, hsame]
  split
  · rename_i hxt
    rw [hxt]
  · rfl

theorem signalReader_same (s : FiFo T) : s.signalReader.input_buffer_size_ = s.input_buffer_size_ ∧
    s.signalReader.input_buffer_ = s.input_buffer_ ∧ s.signalReader.ib_write_pos_ = s.ib_write_pos_ ∧
    s.signalReader.ib_read_pos_ = s.ib_read_pos_ ∧ s.signalReader.flags_ = s.flags_ ∧
    ∀ x, (s.signalReader.caller x).pending = (s.caller x).pending := by
  unfold signalReader
  split
  · exact ⟨rfl, rfl, rfl, rfl, rfl, fun _ => rfl⟩
  · rename_i t ts _
    exact ⟨rfl, rfl, rfl, rfl, rfl, pending_signal s.caller t⟩

theorem signalWriter_same (s : FiFo T) : s.signalWriter.input_buffer_size_ = s.input_buffer_size_ ∧
    s.signalWriter.input_buffer_ = s.input_buffer_ ∧ s.signalWriter.ib_write_pos_ = s.ib_write_pos_ ∧
    s.signalWriter.ib_read_pos_ = s.ib_read_pos_ ∧ s.signalWriter.flags_ = s.flags_ ∧
    ∀ x, (s.signalWriter.caller x).pending = (s.caller x).pending := by
  unfold signalWriter
  split
  · exact ⟨rfl, rfl, rfl, rfl, rfl, fun _ => rfl⟩
  · rename_i t ts _
    exact ⟨rfl, rfl, rfl, rfl, rfl, pending_signal s.caller t⟩

/-- The write of an element, when there is room. -/
theorem Wf.write (h : s.Wf) (hroom : s.ib_write_pos_ ≠ s.ib_read_pos_) (t : ℕ) (c : T) :
    (s.write t c).Wf ∧ (s.write t c).input_buffer_size_ = s.input_buffer_size_ ∧ (s.write t c).flags_ = s.flags_ ∧
      (s.write t c).contents = s.contents ++ [c] ∧
      ∀ x, ((s.write t c).caller x).pending = if x = t then [] else (s.caller x).pending := by
  obtain ⟨hsize, hbuffer, hwrite, hread, hflags, hpending⟩ := s.signalReader_same
  have hafter : s.signalReader.after s.ib_write_pos_ = (s.ib_write_pos_ + 1) % s.input_buffer_size_ := by
    rw [after, hsize, ← after, h.after_eq h.ring.write_lt]
  unfold FiFo.write
  dsimp only
  refine ⟨⟨?_, ?_⟩, hsize, hflags, ?_, fun x => ?_⟩
  · dsimp only
    rw [hsize, hwrite, hread, hafter]
    exact h.ring.push
  · rw [hsize]
    exact h.size_lt
  · unfold contents
    dsimp only
    rw [hsize, hbuffer, hwrite, hread, hafter]
    exact h.ring.contents_push hroom c
  · rw [pending_update, hpending]
    rfl

/-- The oldest element leaves the queue. -/
theorem Wf.contents_drop (h : s.Wf) (hsome : s.ib_write_pos_ ≠ s.after s.ib_read_pos_) :
    ({ s with ib_read_pos_ := s.after s.ib_read_pos_ } : FiFo T).Wf ∧
      s.contents = s.input_buffer_ (s.after s.ib_read_pos_) ::
        ({ s with ib_read_pos_ := s.after s.ib_read_pos_ } : FiFo T).contents := by
  have hafter := h.after_eq h.ring.read_lt
  rw [hafter] at hsome ⊢
  exact ⟨⟨h.ring.pop, h.size_lt⟩, h.ring.contents_pop hsome⟩

theorem Wf.empty (h : s.Wf) (hnone : s.ib_write_pos_ = s.after s.ib_read_pos_) : s.contents = [] := by
  rw [← List.length_eq_zero_iff, length_contents, h.ring.empty_iff, ← h.after_eq h.ring.read_lt]
  exact hnone

theorem Wf.length_lt (h : s.Wf) (hroom : s.ib_write_pos_ ≠ s.ib_read_pos_) : s.contents.length < s.input_buffer_size_ - 1 := by
  have hlt := h.ring.stored_lt
  have hne : Ring.stored s.input_buffer_size_ s.ib_write_pos_ s.ib_read_pos_ ≠ s.input_buffer_size_ - 1 :=
    fun hfull => hroom (h.ring.full_iff.mp hfull)
  rw [length_contents]
  omega

theorem Wf.length_full (h : s.Wf) (hfull : s.ib_write_pos_ = s.ib_read_pos_) : s.contents.length = s.input_buffer_size_ - 1 :=
  (length_contents s).trans (h.ring.full_iff.mpr hfull)

/-- A full queue has an element, as the size is at least 2. -/
theorem Wf.some_of_full (h : s.Wf) (hfull : s.ib_write_pos_ = s.ib_read_pos_) : s.ib_write_pos_ ≠ s.after s.ib_read_pos_ := by
  intro hnone
  have hlength := h.length_full hfull
  rw [h.empty hnone, List.length_nil] at hlength
  have htwo := h.ring.two
  omega

/-! ### One call -/

/-- What a thread does under the lock: it leaves `pend` to put. -/
structure Delivers (m : Mode) (k : ℕ) (s : FiFo T) (t : ℕ) (pend : List T) (r : FiFo T × List (Event T)) : Prop where
  wf : r.1.Wf
  size : r.1.input_buffer_size_ = s.input_buffer_size_
  flags : r.1.flags_ = s.flags_
  serves : ServesAll m k s.contents r.2 r.1.contents
  done : ∀ x, doneOf x r.2 ++ (r.1.caller x).pending = if x = t then pend else (s.caller x).pending
  quiet : ∀ x, callsOf x r.2 = []

theorem servesAll_one {q q' : List T} {e : Event T} (h : Serves m k q e q') : ServesAll m k q [e] q' := ⟨q', h, rfl⟩

theorem servesAll_append {q q₁ q' : List T} (h : ServesAll m k q tr q₁) (h' : ServesAll m k q₁ evs q') :
    ServesAll m k q (tr ++ evs) q' := by
  induction tr generalizing q with
  | nil =>
    rw [show q = q₁ from h]
    exact h'
  | cons e es ih =>
    obtain ⟨q₂, hserves, hrest⟩ := h
    exact ⟨q₂, hserves, ih hrest⟩

theorem delivers_putLoop (h : s.Wf) (hk : k = s.input_buffer_size_ - 1) (t : ℕ) (c : T) : Delivers m k s t [c] (s.putLoop t c) := by
  unfold putLoop
  split
  · exact ⟨⟨h.ring, h.size_lt⟩, rfl, rfl, rfl, fun x => pending_update s.caller t x (.putting c false), fun _ => rfl⟩
  · rename_i hroom
    obtain ⟨hwf, hsize, hflags, hcontents, hpending⟩ := h.write hroom t c
    refine ⟨hwf, hsize, hflags, ?_, fun x => ?_, fun _ => rfl⟩
    · rw [hcontents]
      exact servesAll_one (.put (hk ▸ h.length_lt hroom))
    · rw [hpending]
      by_cases hxt : x = t
      · subst hxt
        simp [doneOf]
      · simp [doneOf, hxt, Ne.symm hxt]

theorem pending_of_isIdle {a : Caller T} (h : isIdle a = true) : a.pending = [] := by
  cases a with
  | idle => rfl
  | putting c b => cases h
  | getting b => rfl

theorem delivers_put (h : s.Wf) (hk : k = s.input_buffer_size_ - 1) (hm : m = mode s.flags_)
    (hidle : isIdle (s.caller t) = true) (c : T) : Delivers m k s t [c] (s.put t c) := by
  have hnone := pending_of_isIdle hidle
  unfold put
  split
  · rename_i hfull
    split
    · rename_i hnoblock
      split
      · rename_i hoverwrite
        have hsome := h.some_of_full hfull
        obtain ⟨hwf, hold⟩ := h.contents_drop hsome
        obtain ⟨hwf', hsize, hflags, hcontents, hpending⟩ := hwf.write hsome t c
        refine ⟨hwf', hsize, hflags, ?_, fun x => ?_, fun _ => rfl⟩
        · have hlength := h.length_full hfull
          rw [hold] at hlength ⊢
          rw [hcontents]
          exact servesAll_one (.overwrite (hm.trans (if_pos hoverwrite)) (hlength.trans hk.symm))
        · rw [hpending]
          by_cases hxt : x = t
          · subst hxt
            simp [doneOf]
          · simp [doneOf, hxt, Ne.symm hxt]
      · rename_i hkeep
        have hrefuse : m = .refuse := by
          rw [hm, mode, if_neg hkeep, if_pos hnoblock]
        refine ⟨h, rfl, rfl, servesAll_one (.refused hrefuse ((h.length_full hfull).trans hk.symm)), fun x => ?_, fun _ => rfl⟩
        by_cases hxt : x = t
        · subst hxt
          simp [doneOf, hnone]
        · simp [doneOf, hxt, Ne.symm hxt]
    · exact delivers_putLoop h hk t c
  · rename_i hroom
    have hloop := delivers_putLoop (m := m) h hk t c
    rw [putLoop, if_neg hroom] at hloop
    exact hloop

theorem delivers_get (h : s.Wf) : Delivers m k s t [] (s.get t) := by
  unfold get
  split
  · exact ⟨⟨h.ring, h.size_lt⟩, rfl, rfl, rfl, fun x => pending_update s.caller t x (.getting false), fun _ => rfl⟩
  · rename_i hsome
    obtain ⟨hsize, hbuffer, hwrite, hread, hflags, hpending⟩ := s.signalWriter_same
    obtain ⟨hwf, hold⟩ := h.contents_drop hsome
    have hfront : Ring.contents s.input_buffer_ s.input_buffer_size_ s.ib_write_pos_ s.ib_read_pos_ = _ := hold
    have hafter : s.signalWriter.after s.signalWriter.ib_read_pos_ = s.after s.ib_read_pos_ := by
      rw [after, hsize, hread, ← after]
    refine ⟨⟨?_, ?_⟩, hsize, hflags, ?_, fun x => ?_, fun _ => rfl⟩
    · dsimp only
      rw [hafter, hsize, hwrite]
      exact hwf.ring
    · dsimp only
      rw [hsize]
      exact h.size_lt
    · unfold contents
      dsimp only
      rw [hsize, hbuffer, hwrite, hafter]
      exact servesAll_one (by rw [hfront]; exact .got)
    · rw [pending_update, hpending]
      rfl

theorem delivers_clear (h : s.Wf) (hnone : (s.caller t).pending = []) : Delivers m k s t [] (s.clear t) := by
  have htwo := h.ring.two
  refine ⟨⟨⟨htwo, htwo, Nat.lt_of_lt_of_le Nat.two_pos htwo⟩, h.size_lt⟩, rfl, rfl, servesAll_one .cleared, fun x => ?_, fun _ => rfl⟩
  by_cases hxt : x = t
  · rw [if_pos hxt, hxt]
    exact hnone
  · rw [if_neg hxt]
    rfl

/-- A call that leaves the queue as it is. -/
theorem delivers_look (h : s.Wf) (hnone : (s.caller t).pending = []) {e : Event T} (hserves : Serves m k s.contents e s.contents)
    (hdone : ∀ x, doneOf x [e] = []) (hquiet : ∀ x, callsOf x [e] = []) : Delivers m k s t [] (s, [e]) := by
  refine ⟨h, rfl, rfl, servesAll_one hserves, fun x => ?_, hquiet⟩
  rw [hdone]
  by_cases hxt : x = t
  · rw [if_pos hxt, hxt]
    exact hnone
  · rw [if_neg hxt]
    rfl

theorem delivers_peekAhead (h : s.Wf) (hnone : (s.caller t).pending = []) : Delivers m k s t [] (s.peekAhead t) := by
  unfold peekAhead
  split
  · rename_i hempty
    have hhead : s.contents.head? = none := by
      rw [h.empty hempty]
      rfl
    exact delivers_look h hnone (hhead ▸ .peeked) (fun _ => rfl) fun _ => rfl
  · rename_i hsome
    have hhead : s.contents.head? = some (s.input_buffer_ (s.after s.ib_read_pos_)) := by
      rw [(h.contents_drop hsome).2]
      rfl
    exact delivers_look h hnone (hhead ▸ .peeked) (fun _ => rfl) fun _ => rfl

theorem delivers_count (h : s.Wf) (hnone : (s.caller t).pending = []) (hpos : s.ib_read_pos_ < s.ib_write_pos_) :
    Delivers m k s t [] (s.countElementsAhead t) := by
  have hcount := h.count_iff.mpr hpos
  unfold countElementsAhead
  rw [hcount]
  exact delivers_look h hnone .counted (fun _ => rfl) fun _ => rfl

/-! ### Runs -/

/-- The write position is above the read position when the elements are counted, and the flag to overwrite
is not set alone when a full buffer is written. -/
def Sound (s : FiFo T) : Act T → Prop
  | .countElementsAhead _ => s.ib_read_pos_ < s.ib_write_pos_
  | .put _ _ => s.ib_write_pos_ = s.ib_read_pos_ → s.flags_ &&& FIFO_NOBLOCK_PUT_OVERWRITE_OLD ≠ 0 →
      s.flags_ &&& FIFO_NOBLOCK_PUT ≠ 0
  | _ => True

structure Refines (m : Mode) (k : ℕ) (tr : List (Event T)) (s : FiFo T) : Prop where
  wf : s.Wf
  size : k = s.input_buffer_size_ - 1
  mode : m = FiFo.mode s.flags_
  serves : ServesAll m k [] tr s.contents
  calls : ∀ t, callsOf t tr = doneOf t tr ++ (s.caller t).pending
  /-- Only in blocking mode a thread waits to put an element. -/
  blocks : ∀ t, (s.caller t).pending ≠ [] → m = .block

theorem callsOf_append (t : ℕ) (tr evs : List (Event T)) : callsOf t (tr ++ evs) = callsOf t tr ++ callsOf t evs :=
  List.filterMap_append

theorem doneOf_append (t : ℕ) (tr evs : List (Event T)) : doneOf t (tr ++ evs) = doneOf t tr ++ doneOf t evs :=
  List.filterMap_append

theorem write_pending (s : FiFo T) (t : ℕ) (c : T) : ((s.write t c).caller t).pending = [] := by
  unfold FiFo.write
  dsimp only
  rw [update_self]
  rfl

/-- When a call of `put` waits. -/
theorem put_waits (hidle : isIdle (s.caller t) = true) (hwaits : ((s.put t c).1.caller t).pending ≠ []) :
    s.ib_write_pos_ = s.ib_read_pos_ ∧ s.flags_ &&& FIFO_NOBLOCK_PUT = 0 := by
  unfold put at hwaits
  split at hwaits
  · rename_i hfull
    split at hwaits
    · split at hwaits
      · exact absurd (write_pending _ t c) hwaits
      · exact absurd (pending_of_isIdle hidle) hwaits
    · rename_i hblock
      exact ⟨hfull, not_not.mp hblock⟩
  · exact absurd (write_pending _ t c) hwaits

/-- A call that does what `pend` says. -/
theorem Refines.delivers (h : Refines m k tr s) {pend : List T} {r : FiFo T × List (Event T)} (hr : Delivers m k s t pend r)
    (pre : List (Event T)) (hpre : ServesAll m k s.contents pre s.contents) (hdone : ∀ x, doneOf x pre = [])
    (hcalls : ∀ x, (s.caller x).pending ++ callsOf x pre = if x = t then pend else (s.caller x).pending)
    (hblocks : (r.1.caller t).pending ≠ [] → m = .block) : Refines m k (tr ++ (pre ++ r.2)) r.1 := by
  refine ⟨hr.wf, h.size.trans (by rw [hr.size]), h.mode.trans (by rw [hr.flags]),
    servesAll_append h.serves (servesAll_append hpre hr.serves), fun x => ?_, fun x hx => ?_⟩
  · rw [callsOf_append, callsOf_append, doneOf_append, doneOf_append, hr.quiet, hdone, List.append_nil, List.nil_append,
      List.append_assoc, hr.done, h.calls, List.append_assoc, hcalls]
  · by_cases hxt : x = t
    · rw [hxt] at hx
      exact hblocks hx
    · have hdone := hr.done x
      rw [if_neg hxt] at hdone
      refine h.blocks x fun hnil => hx ?_
      rw [hnil] at hdone
      exact (List.append_eq_nil_iff.mp hdone).2

/-- A call that puts nothing. -/
theorem Refines.other (h : Refines m k tr s) {r : FiFo T × List (Event T)} (hnone : (s.caller t).pending = [])
    (hr : Delivers m k s t [] r) : Refines m k (tr ++ r.2) r.1 := by
  refine h.delivers hr [] rfl (fun _ => rfl) (fun x => ?_) fun hx => ?_
  · by_cases hxt : x = t
    · rw [if_pos hxt, hxt, hnone]
      rfl
    · rw [if_neg hxt]
      exact List.append_nil _
  · have hdone := hr.done t
    rw [if_pos rfl] at hdone
    exact absurd (List.append_eq_nil_iff.mp hdone).2 hx

theorem Refines.put (h : Refines m k tr s) (hidle : isIdle (s.caller t) = true) (hsound : Sound s (.put t c)) :
    Refines m k (tr ++ (.calls t c :: (s.put t c).2)) (s.put t c).1 := by
  have hnone := pending_of_isIdle hidle
  refine h.delivers (delivers_put h.wf h.size h.mode hidle c) [.calls t c] (servesAll_one .calls) (fun _ => rfl)
    (fun x => ?_) fun hx => ?_
  · by_cases hxt : x = t
    · subst hxt
      simp [callsOf, hnone]
    · simp [callsOf, hxt, Ne.symm hxt]
  · obtain ⟨hfull, hblock⟩ := put_waits hidle hx
    have hkeep : ¬s.flags_ &&& FIFO_NOBLOCK_PUT_OVERWRITE_OLD ≠ 0 := fun hover => hsound hfull hover hblock
    rw [h.mode, FiFo.mode, if_neg hkeep, if_neg (not_not.mpr hblock)]

/-- A thread that waits to put an element goes on. -/
theorem Refines.resumePut (h : Refines m k tr s) (hwaits : s.caller t = .putting c true) :
    Refines m k (tr ++ (s.putLoop t c).2) (s.putLoop t c).1 := by
  have hpending : (s.caller t).pending = [c] := by
    rw [hwaits]
    rfl
  refine h.delivers (delivers_putLoop h.wf h.size t c) [] rfl (fun _ => rfl) (fun x => ?_) fun _ => h.blocks t ?_
  · by_cases hxt : x = t
    · rw [if_pos hxt, hxt, hpending]
      rfl
    · rw [if_neg hxt]
      exact List.append_nil _
  · rw [hpending]
    exact List.cons_ne_nil c []

/-- A call begins in an idle thread. -/
theorem of_idle {a : Caller T} {r r' : FiFo T × List (Event T)}
    (h : (if isIdle a then Except.ok r else .error ()) = (.ok r' : Except Unit _)) : isIdle a = true ∧ r = r' := by
  split at h
  · exact ⟨‹_›, Except.ok.inj h⟩
  · cases h

theorem Refines.step (h : Refines m k tr s) {act : Act T} (hsound : Sound s act) (hs : FiFo.step s act = .ok (s', evs)) :
    Refines m k (tr ++ evs) s' := by
  cases act with
  | put t c =>
    obtain ⟨hidle, heq⟩ := of_idle hs
    cases heq
    exact h.put hidle hsound
  | get t =>
    obtain ⟨hidle, heq⟩ := of_idle hs
    have hnone := pending_of_isIdle hidle
    have hget := h.other hnone (delivers_get h.wf)
    rw [heq] at hget
    exact hget
  | peekAhead t =>
    obtain ⟨hidle, heq⟩ := of_idle hs
    have hnone := pending_of_isIdle hidle
    have hpeek := h.other hnone (delivers_peekAhead h.wf hnone)
    rw [heq] at hpeek
    exact hpeek
  | clear t =>
    obtain ⟨hidle, heq⟩ := of_idle hs
    have hnone := pending_of_isIdle hidle
    have hclear := h.other hnone (delivers_clear h.wf hnone)
    rw [heq] at hclear
    exact hclear
  | countElementsAhead t =>
    obtain ⟨hidle, heq⟩ := of_idle hs
    have hnone := pending_of_isIdle hidle
    have hcount := h.other hnone (delivers_count h.wf hnone hsound)
    rw [heq] at hcount
    exact hcount
  | resume t =>
    unfold FiFo.step at hs
    dsimp only at hs
    split at hs
    · rename_i c hwaits
      have hput := h.resumePut hwaits
      rw [Except.ok.inj hs] at hput
      exact hput
    · rename_i hwaits
      have hnone : (s.caller t).pending = [] := by
        rw [hwaits]
        rfl
      have hget := h.other hnone (delivers_get h.wf)
      rw [Except.ok.inj hs] at hget
      exact hget
    · cases hs

theorem refines_new (inputb_size : UInt32) (flags : UInt8) (garbage : ℕ → T) :
    Refines (FiFo.mode flags) ((new inputb_size flags garbage).input_buffer_size_ - 1) [] (new inputb_size flags garbage) where
  wf := wf_new inputb_size flags garbage
  size := rfl
  mode := rfl
  serves := (Ring.contents_one garbage _).symm
  calls _ := rfl
  blocks _ hne := absurd rfl hne

/-- Every run is one of a queue in the mode of the flags. An element given to `put` is put or refused once,
or its thread waits, which is in blocking mode only. -/
theorem fifo_serves {inputb_size : UInt32} {flags : UInt8} {garbage : ℕ → T} {tr : List (Event T)} {s : FiFo T}
    (hrun : Runs step Sound (new inputb_size flags garbage) tr s) :
    ServesAll (mode flags) ((new inputb_size flags garbage).input_buffer_size_ - 1) [] tr s.contents ∧
      (∀ t, callsOf t tr = doneOf t tr ++ (s.caller t).pending) ∧
      (∀ t, (s.caller t).pending ≠ [] → mode flags = .block) ∧
      (s.count = s.contents.length ↔ s.ib_read_pos_ < s.ib_write_pos_) := by
  have h : Refines (mode flags) ((new inputb_size flags garbage).input_buffer_size_ - 1) tr s :=
    hrun.invariant (refines_new inputb_size flags garbage) fun h hsound hs => h.step hsound hs
  exact ⟨h.serves, h.calls, h.blocks, h.wf.count_iff⟩

instance decidableSound (s : FiFo T) : (act : Act T) → Decidable (Sound s act)
  | .put _ _ => inferInstanceAs (Decidable (_ = _ → _ ≠ _ → _ ≠ _))
  | .countElementsAhead _ => inferInstanceAs (Decidable (_ < _))
  | .get _ | .peekAhead _ | .clear _ | .resume _ => inferInstanceAs (Decidable True)

def overwriteActs : List (Act ℕ) := [.put 0 5, .countElementsAhead 1, .put 0 6, .put 0 7, .get 1]

def overwriteEvents : List (Event ℕ) :=
  [.calls 0 5, .put 0 5 none, .counted 1 1, .calls 0 6, .put 0 6 none, .calls 0 7, .put 0 7 (some 5), .got 1 6]

/-- A full queue of two elements drops the oldest. -/
theorem fifo_serves_overwrite : ∃ s : FiFo ℕ, Runs step Sound (new 3 3 id) overwriteEvents s ∧ s.contents = [7] ∧
    ServesAll .overwrite 2 [] overwriteEvents [7] := by
  have hexec : (execOk step Sound (new 3 3 id) overwriteActs).map (fun r => (r.1.contents, r.2)) = some ([7], overwriteEvents) := by
    decide +kernel
  obtain ⟨⟨s, tr⟩, hexec, heq⟩ := Option.map_eq_some_iff.mp hexec
  obtain ⟨hcontents, rfl⟩ := Prod.mk.inj heq
  have hrun := runs_of_execOk (new 3 3 id) overwriteActs hexec
  have hserves := (fifo_serves hrun).1
  rw [hcontents] at hserves
  exact ⟨s, hrun, hcontents, hserves⟩

def countActs : List (Act ℕ) := [.put 0 5, .put 0 6, .get 1, .countElementsAhead 1]

def countEvents : List (Event ℕ) :=
  [.calls 0 5, .put 0 5 none, .calls 0 6, .put 0 6 none, .got 1 5, .counted 1 4294967294]

/-- The write position is at the beginning of the array again: one element counts as 4294967294. -/
theorem count_wrapped : ∃ s : FiFo ℕ, Runs step (fun _ _ => True) (new 3 0 id) countEvents s ∧ s.contents = [6] ∧
    ∀ q, ¬ServesAll (mode 0) 2 [] countEvents q := by
  have hexec : (execOk step (fun _ _ => True) (new 3 0 id) countActs).map (fun r => (r.1.contents, r.2)) =
      some ([6], countEvents) := by
    decide +kernel
  obtain ⟨⟨s, tr⟩, hexec, heq⟩ := Option.map_eq_some_iff.mp hexec
  obtain ⟨hcontents, rfl⟩ := Prod.mk.inj heq
  refine ⟨s, runs_of_execOk (new 3 0 id) countActs hexec, hcontents, fun q hserves => ?_⟩
  obtain ⟨_, h1, _, h2, _, h3, _, h4, _, h5, _, h6, -⟩ := hserves
  cases h1
  cases h2
  cases h3
  cases h4
  cases h5
  cases h6

end FiFo

end KPanic
