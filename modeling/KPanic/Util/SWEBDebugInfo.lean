import KPanic.Lib.ByteString
import Mathlib.Data.Int.Basic
import Std.Data.TreeMap

/-!
# `common/source/util/SWEBDebugInfo.cpp`

A pointer into the section is the rest of the section from there on. A read outside the section fails.
-/

namespace KPanic.DebugInfo

open Bytes
open Std (TreeMap)

/-- `function_defs_` -/
abbrev Defs := TreeMap ℕ (List UInt8)

def advance (n : ℕ) (data : List UInt8) : Option (List UInt8) :=
  if n ≤ data.length then some (data.drop n) else none

structure FunctionHeader where
  offset : ℕ
  line_entries : ℕ
  name_len : ℕ

def readHeader (data : List UInt8) : Option FunctionHeader := do
  let offset ← word 8 data 0
  let line_entries ← word 2 data 8
  let name_len ← word 1 data 10
  some ⟨offset, line_entries, name_len⟩

/-- The loop over the functions of a file. -/
def readFunctions : ℕ → List UInt8 → Defs → Option (List UInt8 × Defs)
  | 0, data, function_defs_ => some (data, function_defs_)
  | functions + 1, data, function_defs_ => do
    let fnh ← readHeader data
    let next ← advance (11 + fnh.name_len + fnh.line_entries * 4) data
    readFunctions functions next (function_defs_.insert fnh.offset data)

def readFile (data : List UInt8) (function_defs_ : Defs) : Option (List UInt8 × Defs) := do
  let functions ← word 2 data 0
  let filename_len ← word 1 data 2
  let data ← advance (3 + filename_len) data
  readFunctions functions data function_defs_

/-- The loop over the files; it ends where the section ends. -/
def readFiles : ℕ → List UInt8 → Defs → Option Defs
  | 0, _, _ => none
  | fuel + 1, data, function_defs_ => do
    let (data, function_defs_) ← readFile data function_defs_
    if data = [] then some function_defs_ else readFiles fuel data function_defs_

def initialiseSymbolTable (stab : List UInt8) : Option Defs := do
  let data ← advance 8 stab
  readFiles stab.length data ∅

/-- The last function that is not behind the address. -/
def lookup (function_defs_ : Defs) (address : ℕ) : Option (List UInt8) :=
  function_defs_.toList.foldl (fun fh f => if address ≥ f.1 then some f.2 else fh) none

/-- The loop over the line entries; the place of the entry it ends with. -/
def lineLoop (fh : List UInt8) (offset address : ℕ) : ℕ → ℕ → Option (Option ℕ)
  | 0, _ => some none
  | entries + 1, lh => do
    let lh_offset ← word 2 fh lh
    if address < (offset + lh_offset) % 2 ^ 64 then some (some (lh - 4))
    else if address = (offset + lh_offset) % 2 ^ 64 then some (some lh)
    else lineLoop fh offset address entries (lh + 4)

/-- "UNKNOWN FUNCTION" -/
def unknown : List UInt8 := [85, 78, 75, 78, 79, 87, 78, 32, 70, 85, 78, 67, 84, 73, 79, 78, 0]

/-- The pointer to the name, and the line. -/
def getCallNameAndLine (function_defs_ : Defs) (address : ℕ) : Option (List UInt8 × ℤ) :=
  match lookup function_defs_ address with
  | none => some (unknown, 0)
  | some fh => do
    let fnh ← readHeader fh
    let found ← lineLoop fh fnh.offset address fnh.line_entries (11 + fnh.name_len)
    match found with
    | some lh => do
      let number ← word 2 fh (lh + 2)
      some (fh.drop 11, number)
    | none => some (fh.drop 11, -((address : ℤ) - fnh.offset).bmod (2 ^ 32))

end KPanic.DebugInfo
