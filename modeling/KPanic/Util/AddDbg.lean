import KPanic.Lib.ByteString

/-!
# `utils/add-debug/add-dbg.cc`

The tool writes what the kernel reads as the debug information of a binary. It takes the functions from
the symbol table, and the lines from the line tables of the compilation units.
-/

namespace KPanic.DebugInfo

open Bytes

/-- A symbol; its size is an `int`. -/
structure Function where
  start : ℕ
  end_ : ℕ
  name : List UInt8
  start_lt : start < 2 ^ 64
  end_lt : end_ < 2 ^ 64
  size_lt : end_ < start + 2 ^ 31
  /-- The name was a C string. -/
  terminated : 0 ∉ name

/-- The offsets of the lines in the function, and the line numbers, when `lines` is in the order of the
addresses. -/
def offsets (func : Function) (lines : List (ℕ × ℕ)) : List (ℕ × ℕ) :=
  (lines.filter fun it => func.start ≤ it.1 ∧ func.end_ > it.1).map fun it => (it.1 - func.start, it.2)

/-- A `WRITE_FIX`: the bytes by which it moves `debug`, and the size of what it stores. -/
structure Write where
  bytes : List UInt8
  size : ℕ

/-- The number of the functions is stored after them. -/
def fileHeader (functions : ℕ) (filename : List UInt8) : Write where
  bytes :=
    let filename_len := if filename.length ≤ 255 then filename.length else 255
    leBytes 2 functions ++ (leBytes 1 filename_len ++ (strncpy 255 filename).take filename_len)
  size := 258

/-- The zero that goes to `name[name_len]` is not among the bytes that stay. -/
def functionHeader (func : Function) (line_entries : ℕ) : Write where
  bytes :=
    let name_len := if func.name.length ≤ 254 then func.name.length + 1 else 255
    leBytes 8 func.start ++ (leBytes 2 line_entries ++ (leBytes 1 name_len ++ (strncpy 255 func.name).take name_len))
  size := 266

def lineHeader (it : ℕ × ℕ) : Write where
  bytes := leBytes 2 it.1 ++ leBytes 2 it.2
  size := 4

def writeFunction (lines : List (ℕ × ℕ)) (func : Function) : List Write :=
  functionHeader func (offsets func lines).length :: (offsets func lines).map lineHeader

/-- The functions with lines of the file. -/
def found (fncs : List Function) (lines : List (ℕ × ℕ)) : List Function :=
  fncs.filter fun func => offsets func lines ≠ []

def writeFile (fncs : List Function) (info : List UInt8 × List (ℕ × ℕ)) : List Write :=
  fileHeader (found fncs info.2).length info.1 :: (found fncs info.2).flatMap (writeFunction info.2)

/-- The functions of no file. -/
def unwritten (fncs : List Function) (line_info : List (List UInt8 × List (ℕ × ℕ))) : List Function :=
  fncs.filter fun func => ∀ info ∈ line_info, offsets func info.2 = []

def writeUnwritten (fncs : List Function) : List Write :=
  fileHeader fncs.length [] :: fncs.map fun func => functionHeader func 0

/-- The writes in the buffer that has `debug` bytes; it ends at 1 MiB. -/
def store : List UInt8 → List Write → Option (List UInt8)
  | debug, [] => some debug
  | debug, w :: ws => if debug.length + w.size ≤ 1024 * 1024 then store (debug ++ w.bytes) ws else none

/-- "SWEBDBG1" -/
def headerId : List UInt8 := [83, 87, 69, 66, 68, 66, 71, 49]

/-- What `main` reads: a symbol table by the addresses, and for each file its lines by the addresses. The
functions do not overlap, and a function has lines of one file only. -/
structure Binary where
  fncs : List Function
  line_info : List (List UInt8 × List (ℕ × ℕ))
  disjoint : fncs.Pairwise fun f g => f.start < g.start ∧ f.end_ ≤ g.start
  increasing : ∀ info ∈ line_info, info.2.Pairwise fun a b => a.1 < b.1
  oneFile : ∀ f ∈ fncs, line_info.Pairwise fun a b => offsets f a.2 = [] ∨ offsets f b.2 = []

/-- The writes of `main`, the files first. -/
def Binary.writes (b : Binary) : List Write :=
  b.line_info.flatMap (writeFile b.fncs) ++ writeUnwritten (unwritten b.fncs b.line_info)

def Binary.main (b : Binary) : Option (List UInt8) := store headerId b.writes

end KPanic.DebugInfo
