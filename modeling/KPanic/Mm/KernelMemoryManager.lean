import KPanic.Lib.Bytes
import KPanic.Lib.Machine
import KPanic.Lib.Wp
import KPanic.Mm.Kernel

/-!
# `common/source/mm/KernelMemoryManager.cpp`

The segments lie in the memory that they manage: a header of `sizeof_MallocSegment` bytes and the
body after it. Pointers are addresses.
-/

namespace KPanic.Heap

open Bytes Wp

/-- `PageManager.h` -/
def DYNAMIC_KMM : Bool := false

structure KernelMemoryManager where
  first_ : ℕ
  last_ : ℕ
  base_break_ : ℕ
  kernel_break_ : ℕ
  reserved_max_ : ℕ
  reserved_min_ : ℕ
  tracing_ : Bool
  mem : Memory
  /-- The warnings of `fillSegment`: where memory was not zero, and its value. -/
  warnings : List (ℕ × ℕ)

/-- The assertions, and a walk over the list that does not end. -/
inductive Failure
  | nullpointer
  | requestedTooMuch
  | memoryCorruption
  | segmentTooSmall
  | unalignedSize
  | sizeError
  | fillUnused
  | memoryNotZero
  | freeUnused
  | notLast
  | breakCorrupted
  | maximumReached
  | notDynamic
  | outOfMemory
  | endless
  deriving DecidableEq

/-- The assertions of `ksbrk`. -/
def Failure.ofKsbrk : Failure → Bool
  | .breakCorrupted | .maximumReached | .notDynamic => true
  | _ => false

abbrev Kmm := StateT KernelMemoryManager (Except Failure)

def require (c : Prop) [Decidable c] (e : Failure) : Kmm PUnit := if c then return else throw e

/-! ### `MallocSegment` -/

def sizeof_MallocSegment : ℕ := 56

namespace MallocSegment

inductive Field
  | marker_
  | next_
  | prev_
  | freed_at_
  | alloc_at_
  | alloc_by_
  | size_flag_

def Field.offset : Field → ℕ
  | .marker_ => 0
  | .next_ => 8
  | .prev_ => 16
  | .freed_at_ => 24
  | .alloc_at_ => 32
  | .alloc_by_ => 40
  | .size_flag_ => 48

def read (this : ℕ) (f : Field) : Kmm ℕ := do
  return load 8 (← get).mem (this + f.offset)

def write (this : ℕ) (f : Field) (v : ℕ) : Kmm PUnit :=
  modify fun s => { s with mem := store 8 s.mem (this + f.offset) v }

def marker (this : ℕ) : ℕ := 0xdeadbeef00000000 + this % 2 ^ 32

def markerOk (this : ℕ) : Kmm Bool := do
  return decide ((← read this .marker_) = marker this)

def getSize (this : ℕ) : Kmm ℕ := do
  return (← read this .size_flag_) &&& 0x7FFFFFFF

def setSize (this size : ℕ) : Kmm PUnit := do
  write this .size_flag_ ((← read this .size_flag_) &&& 0x80000000)
  write this .size_flag_ ((← read this .size_flag_) ||| (size &&& 0x7FFFFFFF))

def getUsed (this : ℕ) : Kmm Bool := do
  return decide ((← read this .size_flag_) &&& 0x80000000 ≠ 0)

def setUsed (this : ℕ) (used : Bool) : Kmm PUnit := do
  write this .size_flag_ ((← read this .size_flag_) &&& 0x7FFFFFFF)
  if used then write this .size_flag_ ((← read this .size_flag_) ||| 0x80000000)

/-- The constructor; `alloc_by_` keeps what was there. -/
def new (this prev next size : ℕ) (used : Bool) : Kmm PUnit := do
  write this .marker_ (marker this)
  write this .next_ next
  write this .prev_ prev
  write this .freed_at_ 0
  write this .alloc_at_ 0
  write this .size_flag_ (size &&& 0x7FFFFFFF)
  if used then write this .size_flag_ ((← read this .size_flag_) ||| 0x80000000)

end MallocSegment

open MallocSegment

/-! ### `KernelMemoryManager` -/

/-- The assertions before the fields of a segment are used. -/
def checkMarker (segment : ℕ) : Kmm PUnit := do
  require (segment ≠ 0) .nullpointer
  require ((← markerOk segment) = true) .memoryCorruption

/-- `if (this->next_ != 0) this->next_->prev_ = prev` -/
def relinkNext (this prev : ℕ) : Kmm PUnit := do
  let next ← read this .next_
  if next ≠ 0 then
    checkMarker next
    write next .prev_ prev

/-- `if (this->next_ == 0) last_ = this` -/
def setLast (this : ℕ) : Kmm PUnit := do
  if (← read this .next_) = 0 then modify fun s => { s with last_ := this }

/-- The heap from `start_address` on. -/
def construct (start_address min_heap_pages max_heap_pages : ℕ) (mem : Memory) :
    Except Failure KernelMemoryManager :=
  let s : KernelMemoryManager := {
    first_ := start_address
    last_ := start_address
    base_break_ := start_address
    kernel_break_ := start_address + min_heap_pages * PAGE_SIZE
    reserved_max_ := max_heap_pages * PAGE_SIZE
    reserved_min_ := min_heap_pages * PAGE_SIZE
    tracing_ := false
    mem := fill mem start_address (min_heap_pages * PAGE_SIZE) 0
    warnings := [] }
  Prod.snd <$> (MallocSegment.new start_address 0 0
    (sub64 (min_heap_pages * PAGE_SIZE) sizeof_MallocSegment) false).run s

/-- The address of the old break; `size` may be the pattern of a negative number. What follows the
third assertion needs `DYNAMIC_KMM`: the break moves, and pages are mapped or unmapped. -/
def ksbrk (size : ℕ) : Kmm ℕ := do
  let s ← get
  require (s.base_break_ ≤ (s.kernel_break_ + size) % 2 ^ 64) .breakCorrupted
  require (s.reserved_max_ = 0 ∨
    (s.kernel_break_ - s.base_break_ + size) % 2 ^ 64 ≤ s.reserved_max_) .maximumReached
  require (DYNAMIC_KMM = true) .notDynamic
  modify fun s => { s with kernel_break_ := (s.kernel_break_ + size) % 2 ^ 64 }
  return s.kernel_break_

/-- The loop of `findFreeSegment`; the heap has room for fewer than `fuel` headers. -/
def findLoop (requested_size : ℕ) : ℕ → ℕ → Kmm (Option ℕ)
  | 0, _ => throw .endless
  | fuel + 1, current => do
    if current = 0 then return none
    checkMarker current
    if (← getSize current) ≥ requested_size ∧ (← getUsed current) = false then return some current
    findLoop requested_size fuel (← read current .next_)

/-- More than the number of segments. -/
def fuel (s : KernelMemoryManager) : ℕ := s.kernel_break_ - s.base_break_

def findFreeSegment (requested_size : ℕ) : Kmm ℕ := do
  let s ← get
  match ← findLoop requested_size (fuel s) s.first_ with
  | some current => return current
  | none =>
    if (← getUsed s.last_) = true then
      let new_segment ← ksbrk ((sizeof_MallocSegment + requested_size) % 2 ^ 64)
      MallocSegment.new new_segment s.last_ 0 requested_size false
      write s.last_ .next_ new_segment
      modify fun s => { s with last_ := new_segment }
    else
      let needed_size := sub64 requested_size (← getSize s.last_)
      let _ ← ksbrk needed_size
      setSize s.last_ requested_size
    return (← get).last_

/-- One pass of the loop that checks for zero: the word `i` of the body. -/
def zeroWord (this_one i : ℕ) : Kmm PUnit := do
  let mem := this_one + sizeof_MallocSegment + 4 * i
  let value := load 4 (← get).mem mem
  if value ≠ 0 then
    modify fun s => { s with warnings := s.warnings ++ [(mem, value)] }
    require ((← read this_one .freed_at_) = 0) .memoryNotZero
    modify fun s => { s with mem := store 4 s.mem mem 0 }

def zeroCheck (this_one requested_size : ℕ) (zero_check : Bool) : Kmm PUnit :=
  if zero_check then forUpTo (requested_size / 4) (zeroWord this_one) else return

/-- The end of `fillSegment`: a free segment takes the space that is left. -/
def splitSegment (this_one requested_size space_left : ℕ) : Kmm PUnit := do
  setSize this_one requested_size
  require ((← getSize this_one) = requested_size) .sizeError
  require ((← getUsed this_one) = true) .fillUnused
  let new_segment := this_one + sizeof_MallocSegment + requested_size
  MallocSegment.new new_segment this_one (← read this_one .next_)
    (space_left - sizeof_MallocSegment) false
  relinkNext this_one new_segment
  write this_one .next_ new_segment
  setLast new_segment

def fillSegment (this_one requested_size : ℕ) (zero_check : Bool) : Kmm PUnit := do
  checkMarker this_one
  require ((← getSize this_one) ≥ requested_size) .segmentTooSmall
  require (requested_size % 16 = 0) .unalignedSize
  zeroCheck this_one requested_size zero_check
  let space_left := (← getSize this_one) - requested_size
  setUsed this_one true
  require ((← getUsed this_one) = true) .fillUnused
  if space_left > sizeof_MallocSegment then splitSegment this_one requested_size space_left

/-- `true_size` of a segment: up to the next one or to the break. -/
def trueSize (segment : ℕ) : Kmm ℕ := do
  let next ← read segment .next_
  if next = 0 then return (← get).kernel_break_ - segment else return next - segment

def mergeWithFollowingFreeSegment (this_one : ℕ) : Kmm Bool := do
  checkMarker this_one
  let next_one ← read this_one .next_
  if next_one = 0 then return false
  checkMarker next_one
  if (← getUsed next_one) = true then return false
  let true_next_size ← trueSize next_one
  setSize this_one ((← getSize this_one) + true_next_size)
  write this_one .next_ (← read next_one .next_)
  relinkNext next_one this_one
  modify fun s => { s with mem := fill s.mem next_one sizeof_MallocSegment 0 }
  setLast this_one
  return true

/-- The part of `freeSegment` that merges with the previous segment: the segment to go on with. -/
def mergeWithPrevious (this_one : ℕ) : Kmm ℕ := do
  let previous_one ← read this_one .prev_
  if previous_one = 0 then return this_one
  checkMarker previous_one
  if (← getUsed previous_one) = true then return this_one
  let my_true_size ← trueSize this_one
  setSize previous_one (my_true_size + (← getSize previous_one))
  write previous_one .next_ (← read this_one .next_)
  relinkNext this_one previous_one
  if (← read this_one .next_) = 0 then
    require (this_one = (← get).last_) .notLast
    modify fun s => { s with last_ := previous_one }
    return previous_one
  else return previous_one

/-- The part of `freeSegment` that moves the break. -/
def changeBreak (this_one : ℕ) : Kmm PUnit := do
  let s ← get
  let size ← getSize this_one
  if this_one = s.last_ then
    if this_one ≠ s.first_ then
      if this_one > s.base_break_ + s.reserved_min_ then
        let prev ← read this_one .prev_
        checkMarker prev
        write prev .next_ 0
        modify fun s => { s with last_ := prev }
        let _ ← ksbrk (sub64 0 (size + sizeof_MallocSegment))
      else if this_one + sizeof_MallocSegment + size ≤ s.base_break_ + s.reserved_min_ then
        return
      else
        let segment_size :=
          sub64 (s.base_break_ + s.reserved_min_) (this_one + sizeof_MallocSegment)
        let _ ← ksbrk (sub64 segment_size size)
        setSize this_one segment_size
    else if sub64 size s.reserved_min_ ≠ 0 then
      let _ ← ksbrk (sub64 0 (sub64 size s.reserved_min_))
      setSize this_one s.reserved_min_

/-- The loop at the end of `freeSegment`. -/
def checkLoop : ℕ → ℕ → Kmm PUnit
  | 0, _ => throw .endless
  | fuel + 1, current => do
    if current ≠ 0 then
      checkMarker current
      checkLoop fuel (← read current .next_)

def freeSegment (this_one : ℕ) : Kmm PUnit := do
  checkMarker this_one
  require ((← getUsed this_one) = true) .freeUnused
  setUsed this_one false
  let this_one ← mergeWithPrevious this_one
  let _ ← mergeWithFollowingFreeSegment this_one
  let size ← getSize this_one
  modify fun s => { s with mem := fill s.mem (this_one + sizeof_MallocSegment) size 0 }
  changeBreak this_one
  checkLoop (fuel (← get)) (← get).first_

/-- Who calls: the return address and the thread. -/
structure Caller where
  called_by : ℕ
  currentThread : ℕ

/-- `(size + 0xF) & ~0xF` -/
def align (size : ℕ) : ℕ := (size + 0xF) % 2 ^ 64 / 16 * 16

def private_AllocateMemory (requested_size : ℕ) (caller : Caller) : Kmm ℕ := do
  require (requested_size % 16 = 0) .unalignedSize
  let new_pointer ← findFreeSegment requested_size
  require (new_pointer ≠ 0) .outOfMemory
  fillSegment new_pointer requested_size true
  write new_pointer .freed_at_ 0
  write new_pointer .alloc_at_ (if (← get).tracing_ then caller.called_by else 0)
  write new_pointer .alloc_by_ caller.currentThread
  return new_pointer + sizeof_MallocSegment

/-- `assert((size & 0x80000000) == 0)` -/
def checkRequest (size : ℕ) : Kmm PUnit := require (size.testBit 31 = false) .requestedTooMuch

def allocateMemory (requested_size : ℕ) (caller : Caller) : Kmm ℕ := do
  checkRequest requested_size
  private_AllocateMemory (align requested_size) caller

def getSegmentFromAddress (virtual_address : ℕ) : Kmm ℕ := do
  let m_segment := virtual_address - sizeof_MallocSegment
  require (virtual_address ≠ 0) .nullpointer
  checkMarker m_segment
  return m_segment

/-- `freeSegment`, and `freed_at_` of the segment if it is still there. -/
def freeAt (m_segment : ℕ) (caller : Caller) : Kmm PUnit := do
  freeSegment m_segment
  if m_segment < (← get).kernel_break_ then
    if (← markerOk m_segment) = true then write m_segment .freed_at_ caller.called_by

def freeMemory (virtual_address : ℕ) (caller : Caller) : Kmm Bool := do
  let s ← get
  if virtual_address = 0 ∨ virtual_address < s.first_ ∨ virtual_address ≥ s.kernel_break_ then
    return false
  let m_segment ← getSegmentFromAddress virtual_address
  if (← markerOk m_segment) = false then return false
  freeAt m_segment caller
  return true

/-- Growing at its place: `next_` is free and large enough. -/
def canGrow (m_segment new_size : ℕ) : Kmm Bool := do
  let next ← read m_segment .next_
  if next = 0 then return false
  if (← getUsed next) = true then return false
  return decide ((← getSize next) + (← getSize m_segment) ≥ new_size)

def reallocateMemory (virtual_address new_size : ℕ) (caller : Caller) : Kmm ℕ := do
  checkRequest new_size
  if new_size = 0 then
    let _ ← freeMemory virtual_address caller
    return 0
  if virtual_address = 0 then return ← allocateMemory new_size caller
  let new_size := align new_size
  let m_segment ← getSegmentFromAddress virtual_address
  let size ← getSize m_segment
  if new_size = size then return virtual_address
  if new_size < size then
    fillSegment m_segment new_size false
    return virtual_address
  if (← canGrow m_segment new_size) = true then
    let _ ← mergeWithFollowingFreeSegment m_segment
    fillSegment m_segment new_size false
    return virtual_address
  let new_address ← private_AllocateMemory new_size caller
  let size ← getSize m_segment
  modify fun s => { s with mem := copy s.mem new_address virtual_address size }
  freeAt m_segment caller
  return new_address

end KPanic.Heap
