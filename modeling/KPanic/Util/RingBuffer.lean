import KPanic.Lib.Ring
import Mathlib.Algebra.Group.Nat.Defs

/-!
# `common/include/util/RingBuffer.h`

The slot at `read_pos_` is always empty, so a buffer of size `n` stores `n - 1` elements.
-/

namespace KPanic

structure RingBuffer (α : Type) where
  buffer_size_ : ℕ
  buffer_ : ℕ → α
  write_pos_ : ℕ
  read_pos_ : ℕ
  connected_proc_counter_ : ℕ

namespace RingBuffer

variable {α : Type}

/-- The constructor; the array is `garbage` at first. -/
def new (size : ℕ) (garbage : ℕ → α) : RingBuffer α where
  buffer_size_ := size
  buffer_ := garbage
  write_pos_ := 1
  read_pos_ := 0
  connected_proc_counter_ := 0

def put (b : RingBuffer α) (c : α) : Bool × RingBuffer α :=
  if b.write_pos_ = b.read_pos_ then (false, b)
  else (true, { b with
    buffer_ := Function.update b.buffer_ b.write_pos_ c
    write_pos_ := (b.write_pos_ + 1) % b.buffer_size_ })

def clear (b : RingBuffer α) : RingBuffer α := { b with write_pos_ := 1, read_pos_ := 0 }

/-- `new_read_pos` is a `uint32`, the positions are of type `size_t`. -/
def get (b : RingBuffer α) : Option α × RingBuffer α :=
  let new_read_pos := (b.read_pos_ + 1) % b.buffer_size_ % 2 ^ 32
  if b.write_pos_ = new_read_pos then (none, b)
  else (some (b.buffer_ new_read_pos), { b with read_pos_ := new_read_pos })

def incProcCount (b : RingBuffer α) : RingBuffer α :=
  { b with connected_proc_counter_ := b.connected_proc_counter_ + 1 }

def decProcCount (b : RingBuffer α) : RingBuffer α :=
  { b with connected_proc_counter_ := b.connected_proc_counter_ - 1 }

/-- The loop of `readFromPipe`. -/
def getMany : ℕ → RingBuffer α → List α × RingBuffer α
  | 0, b => ([], b)
  | count + 1, b =>
    match b.get with
    | (none, b) => ([], b)
    | (some c, b) => let (cs, b) := getMany count b; (c :: cs, b)

/-- The loop of `writeToPipe`: how many were written. -/
def putMany : List α → RingBuffer α → ℕ × RingBuffer α
  | [], b => (0, b)
  | c :: cs, b =>
    match b.put c with
    | (false, b) => (0, b)
    | (true, b) => let (n, b) := putMany cs b; (n + 1, b)

theorem length_getMany (count : ℕ) (b : RingBuffer α) : (getMany count b).1.length ≤ count := by
  induction count generalizing b with
  | zero => exact Nat.le_refl 0
  | succ count ih =>
    rw [getMany]
    split
    · exact Nat.zero_le _
    · rename_i b' _
      exact Nat.succ_le_succ (ih b')

@[simp] theorem put_count (b : RingBuffer α) (c : α) :
    (b.put c).2.connected_proc_counter_ = b.connected_proc_counter_ := by
  unfold put
  split
  · rfl
  · rfl

@[simp] theorem get_count (b : RingBuffer α) :
    b.get.2.connected_proc_counter_ = b.connected_proc_counter_ := by
  unfold get
  dsimp only
  split
  · rfl
  · rfl

theorem getMany_count (count : ℕ) (b : RingBuffer α) :
    (getMany count b).2.connected_proc_counter_ = b.connected_proc_counter_ := by
  induction count generalizing b with
  | zero => rfl
  | succ count ih =>
    have hget := b.get_count
    rw [getMany]
    split
    · rename_i h
      rw [h] at hget
      exact hget
    · rename_i h
      rw [h] at hget
      exact (ih _).trans hget

theorem putMany_count (cs : List α) (b : RingBuffer α) :
    (putMany cs b).2.connected_proc_counter_ = b.connected_proc_counter_ := by
  induction cs generalizing b with
  | nil => rfl
  | cons c cs ih =>
    have hput := b.put_count c
    rw [putMany]
    split
    · rename_i h
      rw [h] at hput
      exact hput
    · rename_i h
      rw [h] at hput
      exact (ih _).trans hput

/-! ### The queue -/

structure Wf (b : RingBuffer α) : Prop where
  ring : Ring.Wf b.buffer_size_ b.write_pos_ b.read_pos_
  size_lt : b.buffer_size_ < 2 ^ 32

/-- The elements that are stored, the oldest first. -/
def contents (b : RingBuffer α) : List α := Ring.contents b.buffer_ b.buffer_size_ b.write_pos_ b.read_pos_

variable {b : RingBuffer α}

theorem wf_new {size : ℕ} (hsize : 2 ≤ size) (hlt : size < 2 ^ 32) (garbage : ℕ → α) : (new size garbage).Wf :=
  ⟨⟨hsize, hsize, Nat.lt_of_lt_of_le Nat.two_pos hsize⟩, hlt⟩

theorem Wf.read_pos (h : b.Wf) : (b.read_pos_ + 1) % b.buffer_size_ % 2 ^ 32 = (b.read_pos_ + 1) % b.buffer_size_ :=
  Nat.mod_eq_of_lt (Nat.lt_trans h.ring.pop.read_lt h.size_lt)

theorem Wf.length_le (h : b.Wf) : b.contents.length ≤ b.buffer_size_ - 1 := by
  have hlt := h.ring.stored_lt
  rw [contents, Ring.length_contents]
  omega

/-- A full buffer refuses the element and stays as it is. -/
theorem Wf.put_full (h : b.Wf) (hfull : b.contents.length = b.buffer_size_ - 1) (c : α) : b.put c = (false, b) := by
  rw [contents, Ring.length_contents, h.ring.full_iff] at hfull
  exact if_pos hfull

theorem Wf.put_room (h : b.Wf) (hroom : b.contents.length ≠ b.buffer_size_ - 1) (c : α) :
    (b.put c).1 = true ∧ (b.put c).2.Wf ∧ (b.put c).2.buffer_size_ = b.buffer_size_ ∧
      (b.put c).2.contents = b.contents ++ [c] := by
  rw [contents, Ring.length_contents, Ne, h.ring.full_iff] at hroom
  unfold put
  rw [if_neg hroom]
  exact ⟨rfl, ⟨h.ring.push, h.size_lt⟩, rfl, h.ring.contents_push hroom c⟩

theorem Wf.get_empty (h : b.Wf) (hempty : b.contents = []) : b.get = (none, b) := by
  rw [← List.length_eq_zero_iff, contents, Ring.length_contents, h.ring.empty_iff, ← h.read_pos] at hempty
  exact if_pos hempty

/-- `get` takes the oldest element. -/
theorem Wf.get_some (h : b.Wf) {c : α} {cs : List α} (hcons : b.contents = c :: cs) :
    b.get.1 = some c ∧ b.get.2.Wf ∧ b.get.2.buffer_size_ = b.buffer_size_ ∧ b.get.2.contents = cs := by
  have hsome : b.write_pos_ ≠ (b.read_pos_ + 1) % b.buffer_size_ := by
    intro heq
    rw [← h.ring.empty_iff, ← Ring.length_contents, ← contents, hcons] at heq
    cases heq
  have hpop : b.contents = _ := h.ring.contents_pop hsome
  rw [hcons] at hpop
  obtain ⟨hc, hcs⟩ := List.cons.inj hpop
  unfold get
  rw [h.read_pos]
  dsimp only
  rw [if_neg hsome]
  exact ⟨congrArg some hc.symm, ⟨h.ring.pop, h.size_lt⟩, rfl, hcs.symm⟩

theorem Wf.clear (h : b.Wf) : b.clear.Wf :=
  ⟨⟨h.ring.two, h.ring.two, Nat.lt_of_lt_of_le Nat.two_pos h.ring.two⟩, h.size_lt⟩

/-! ### Calls -/

inductive Call (α : Type)
  | put (c : α)
  | get
  | clear

/-- The elements that `put` has accepted and those that `get` has returned, since the last `clear`. -/
structure Trace (α : Type) where
  accepted : List α
  returned : List α

def call (b : RingBuffer α) (t : Trace α) : Call α → RingBuffer α × Trace α
  | .put c => ((b.put c).2, if (b.put c).1 = true then { t with accepted := t.accepted ++ [c] } else t)
  | .get => (b.get.2, { t with returned := t.returned ++ b.get.1.toList })
  | .clear => (b.clear, ⟨[], []⟩)

def calls (b : RingBuffer α) (t : Trace α) : List (Call α) → RingBuffer α × Trace α
  | [] => (b, t)
  | c :: cs => calls (b.call t c).1 (b.call t c).2 cs

/-- What was accepted and not returned is stored, in this order. -/
structure Queued (size : ℕ) (b : RingBuffer α) (t : Trace α) : Prop where
  wf : b.Wf
  size : b.buffer_size_ = size
  stored : t.accepted = t.returned ++ b.contents

variable {size : ℕ} {t : Trace α}

theorem Queued.call (h : Queued size b t) (c : Call α) : Queued size (b.call t c).1 (b.call t c).2 := by
  cases c with
  | put c =>
    by_cases hfull : b.contents.length = b.buffer_size_ - 1
    · have hput := h.wf.put_full hfull c
      rw [RingBuffer.call, hput]
      exact h
    · obtain ⟨haccepted, hwf, hsize, hcontents⟩ := h.wf.put_room hfull c
      rw [RingBuffer.call, if_pos haccepted]
      refine ⟨hwf, hsize.trans h.size, ?_⟩
      rw [hcontents, h.stored, List.append_assoc]
  | get =>
    rw [RingBuffer.call]
    cases hc : b.contents with
    | nil =>
      rw [h.wf.get_empty hc]
      simpa using h
    | cons c cs =>
      obtain ⟨hsome, hwf, hsize, hcontents⟩ := h.wf.get_some hc
      refine ⟨hwf, hsize.trans h.size, ?_⟩
      rw [hcontents, hsome, h.stored, hc]
      simp
  | clear => exact ⟨h.wf.clear, h.size, rfl⟩

theorem Queued.calls (h : Queued size b t) (cs : List (Call α)) : Queued size (b.calls t cs).1 (b.calls t cs).2 := by
  induction cs generalizing b t with
  | nil => exact h
  | cons c cs ih => exact ih (h.call c)

theorem queued_new {size : ℕ} (hsize : 2 ≤ size) (hlt : size < 2 ^ 32) (garbage : ℕ → α) :
    Queued size (new size garbage) ⟨[], []⟩ :=
  ⟨wf_new hsize hlt garbage, rfl, rfl⟩

/-- `put` fails exactly if `size - 1` elements are stored, and then changes nothing; `get` fails exactly
if none is stored; what `get` has returned is a prefix of what `put` has accepted. -/
structure BoundedFifo (size : ℕ) (b : RingBuffer α) (t : Trace α) : Prop where
  inOrder : t.returned <+: t.accepted
  putFails : ∀ c, (b.put c).1 = false ↔ t.accepted.length - t.returned.length = size - 1
  putStays : ∀ c, (b.put c).1 = false → (b.put c).2 = b
  getFails : b.get.1 = none ↔ t.accepted.length - t.returned.length = 0

theorem Queued.fifo (h : Queued size b t) : BoundedFifo size b t := by
  have hlength : t.accepted.length - t.returned.length = b.contents.length := by
    rw [h.stored, List.length_append]
    omega
  refine ⟨⟨b.contents, h.stored.symm⟩, fun c => ?_, fun c hfails => ?_, ?_⟩
  · rw [hlength, ← h.size]
    constructor
    · intro hfails
      by_contra hroom
      rw [(h.wf.put_room hroom c).1] at hfails
      cases hfails
    · intro hfull
      rw [h.wf.put_full hfull c]
  · by_cases hfull : b.contents.length = b.buffer_size_ - 1
    · rw [h.wf.put_full hfull c]
    · rw [(h.wf.put_room hfull c).1] at hfails
      cases hfails
  · rw [hlength, List.length_eq_zero_iff]
    constructor
    · intro hfails
      cases hc : b.contents with
      | nil => rfl
      | cons c cs =>
        rw [(h.wf.get_some hc).1] at hfails
        cases hfails
    · intro hempty
      rw [h.wf.get_empty hempty]

/-! ### The loops of the pipe calls -/

theorem Wf.putMany (h : b.Wf) (cs : List α) :
    (putMany cs b).1 = min cs.length (b.buffer_size_ - 1 - b.contents.length) ∧ (putMany cs b).2.Wf ∧
      (putMany cs b).2.buffer_size_ = b.buffer_size_ ∧
      (putMany cs b).2.contents = b.contents ++ cs.take (putMany cs b).1 := by
  induction cs generalizing b with
  | nil => exact ⟨(Nat.zero_min _).symm, h, rfl, (List.append_nil _).symm⟩
  | cons c cs ih =>
    by_cases hfull : b.contents.length = b.buffer_size_ - 1
    · rw [RingBuffer.putMany, h.put_full hfull c]
      dsimp only
      rw [hfull, Nat.sub_self, Nat.min_zero]
      exact ⟨rfl, h, rfl, (List.append_nil _).symm⟩
    · obtain ⟨hput, hwf, hsize, hcontents⟩ := h.put_room hfull c
      have hle := h.length_le
      obtain ⟨hn, hwf', hsize', hcontents'⟩ := ih hwf
      have hpair : b.put c = (true, (b.put c).2) := Prod.ext hput rfl
      rw [RingBuffer.putMany, hpair]
      dsimp only
      refine ⟨?_, hwf', hsize'.trans hsize, ?_⟩
      · rw [hn, hcontents, hsize, List.length_append, List.length_singleton, List.length_cons]
        omega
      · rw [hcontents', hcontents, List.take_succ_cons, List.append_assoc, List.singleton_append]

theorem Wf.getMany (h : b.Wf) (count : ℕ) :
    (getMany count b).1 = b.contents.take count ∧ (getMany count b).2.Wf ∧
      (getMany count b).2.buffer_size_ = b.buffer_size_ ∧ (getMany count b).2.contents = b.contents.drop count := by
  induction count generalizing b with
  | zero => exact ⟨rfl, h, rfl, rfl⟩
  | succ count ih =>
    cases hc : b.contents with
    | nil =>
      rw [RingBuffer.getMany, h.get_empty hc]
      exact ⟨rfl, h, rfl, hc⟩
    | cons c cs =>
      obtain ⟨hget, hwf, hsize, hcontents⟩ := h.get_some hc
      obtain ⟨hcs, hwf', hsize', hcontents'⟩ := ih hwf
      have hpair : b.get = (some c, b.get.2) := Prod.ext hget rfl
      rw [RingBuffer.getMany, hpair]
      dsimp only
      rw [hcs, hcontents, hcontents', hcontents]
      exact ⟨rfl, hwf', hsize'.trans hsize, rfl⟩

end RingBuffer

end KPanic
