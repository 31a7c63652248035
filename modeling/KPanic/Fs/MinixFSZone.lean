import KPanic.Fs.MinixFS

/-!
# `common/source/fs/minixfs/MinixFSZone.cpp`: the zones of an inode

Seven direct zones, then those of an indirect linking zone, then those of the linking zones that a
double indirect linking zone lists. The linking zones are read when the inode is constructed and
written when it is flushed.
-/

namespace KPanic.Minix

open Function
open Wp

/-- How many entries are not 0. -/
def countZones (l : List ℕ) : ℕ := l.countP (· ≠ 0)

namespace MinixFSZone

/-- The loop of the constructor over the double indirect linking zone. -/
def readDouble (v3 : Bool) : List ℕ → Fs (List (Option (List ℕ)))
  | [] => pure []
  | link :: links => do
    let entries ← if link ≠ 0 then do
        let ind_buffer ← Fs.readZone link
        pure (some (readArray v3 ind_buffer 0 (NUM_ZONE_ADDRESSES v3)))
      else pure none
    let rest ← readDouble v3 links
    return entries :: rest

/-- The constructor. -/
def new (zones : List ℕ) : Fs MinixFSZone := do
  let v3 := (← get).v3
  let indirect ← if zones.getD 7 0 ≠ 0 then do
      let buffer ← Fs.readZone (zones.getD 7 0)
      pure (some (readArray v3 buffer 0 (NUM_ZONE_ADDRESSES v3)))
    else pure none
  let linking ← if zones.getD 8 0 ≠ 0 then do
      let buffer ← Fs.readZone (zones.getD 8 0)
      pure (some (readArray v3 buffer 0 (NUM_ZONE_ADDRESSES v3)))
    else pure none
  let double ← match linking with
    | none => pure none
    | some links => do
      let entries ← readDouble v3 links
      pure (some entries)
  return {
    direct_zones_ := zones
    indirect_zones_ := indirect
    double_indirect_linking_zone_ := linking
    double_indirect_zones_ := double
    num_zones_ := countZones (zones.take 7) + (indirect.elim 0 countZones) +
      (double.elim 0 fun entries => (entries.map fun e => e.elim 0 countZones).sum) }

def getZone (t : MinixFSZone) (index : ℕ) : Fs ℕ := do
  let v3 := (← get).v3
  Fs.assert (index < t.num_zones_) .badZoneIndex
  if index < 7 then return t.direct_zones_.getD index 0
  let index := index - 7
  if index < NUM_ZONE_ADDRESSES v3 then
    match t.indirect_zones_ with
    | none => throw .nullPointer
    | some zones => return zones.getD index 0
  else
    let index := index - NUM_ZONE_ADDRESSES v3
    match t.double_indirect_zones_ with
    | none => throw .nullPointer
    | some entries =>
      match entries.getD (index / NUM_ZONE_ADDRESSES v3) none with
      | none => throw .nullPointer
      | some zones => return zones.getD (index % NUM_ZONE_ADDRESSES v3) 0

/-- The indirect array, which `setZone` makes if there is none. -/
def needIndirect (t : MinixFSZone) : Fs (MinixFSZone × List ℕ) := do
  match t.indirect_zones_ with
  | some zones => return (t, zones)
  | none =>
    let link ← Fs.allocateZone
    return ({ t with direct_zones_ := t.direct_zones_.set 7 link },
      List.replicate (NUM_ZONE_ADDRESSES (← get).v3) 0)

/-- The two arrays for the double indirect zones. -/
def needDouble (t : MinixFSZone) : Fs (MinixFSZone × List ℕ × List (Option (List ℕ))) := do
  match t.double_indirect_zones_ with
  | some entries => return (t, t.double_indirect_linking_zone_.getD [], entries)
  | none =>
    let link ← Fs.allocateZone
    return ({ t with direct_zones_ := t.direct_zones_.set 8 link },
      List.replicate (NUM_ZONE_ADDRESSES (← get).v3) 0,
      List.replicate (NUM_ZONE_ADDRESSES (← get).v3) none)

def setZone (t : MinixFSZone) (index zone : ℕ) : Fs MinixFSZone := do
  let v3 := (← get).v3
  if index < 7 then
    return { t with
      direct_zones_ := t.direct_zones_.set index zone
      num_zones_ := t.num_zones_ + 1 }
  let index := index - 7
  if index < NUM_ZONE_ADDRESSES v3 then
    let (t, zones) ← needIndirect t
    return { t with
      indirect_zones_ := some (zones.set index zone)
      num_zones_ := t.num_zones_ + 1 }
  let index := index - NUM_ZONE_ADDRESSES v3
  let (t, links, entries) ← needDouble t
  if index / NUM_ZONE_ADDRESSES v3 < NUM_ZONE_ADDRESSES v3 then
    match entries.getD (index / NUM_ZONE_ADDRESSES v3) none with
    | some zones =>
      return { t with
        double_indirect_linking_zone_ := some links
        double_indirect_zones_ := some (entries.set (index / NUM_ZONE_ADDRESSES v3)
          (some (zones.set (index % NUM_ZONE_ADDRESSES v3) zone)))
        num_zones_ := t.num_zones_ + 1 }
    | none =>
      let link ← Fs.allocateZone
      return { t with
        double_indirect_linking_zone_ := some (links.set (index / NUM_ZONE_ADDRESSES v3) link)
        double_indirect_zones_ := some (entries.set (index / NUM_ZONE_ADDRESSES v3)
          (some ((List.replicate (NUM_ZONE_ADDRESSES v3) 0).set
            (index % NUM_ZONE_ADDRESSES v3) zone)))
        num_zones_ := t.num_zones_ + 1 }
  else throw .badZoneIndex

def addZone (t : MinixFSZone) (zone : ℕ) : Fs MinixFSZone := setZone t t.num_zones_ zone

/-- The loop of `flush` over the double indirect linking zone. -/
def flushDouble (v3 : Bool) : List ℕ → List (Option (List ℕ)) → Fs PUnit
  | [], _ => pure ⟨⟩
  | link :: links, entries => do
    if link ≠ 0 then
      match entries.headD none with
      | none => throw .nullPointer
      | some zones => Fs.writeZone link (setArray v3 0 zones fun _ => 0)
    flushDouble v3 links entries.tail

def flush (t : MinixFSZone) (i_num : ℕ) : Fs PUnit := do
  let s ← get
  let block := 2 + s.s_num_inode_bm_blocks_ + s.s_num_zone_bm_blocks_ +
    (i_num - 1) * INODE_SIZE s.v3 / BLOCK_SIZE
  Fs.writeBytes block ((i_num - 1) * INODE_SIZE s.v3 % BLOCK_SIZE +
      INODE_BYTES s.v3 * (7 - V3_OFFSET s.v3)) (NUM_ZONES s.v3 * INODE_BYTES s.v3)
    (setArray s.v3 0 t.direct_zones_ fun _ => 0)
  if t.direct_zones_.getD 7 0 ≠ 0 then
    match t.indirect_zones_ with
    | none => throw .nullPointer
    | some zones => Fs.writeZone (t.direct_zones_.getD 7 0) (setArray s.v3 0 zones fun _ => 0)
  if t.direct_zones_.getD 8 0 ≠ 0 then
    match t.double_indirect_linking_zone_, t.double_indirect_zones_ with
    | some links, some entries =>
      Fs.writeZone (t.direct_zones_.getD 8 0) (setArray s.v3 0 links fun _ => 0)
      flushDouble s.v3 links entries
    | _, _ => throw .nullPointer

/-- A loop of `freeZone` over the entries that are not 0. -/
def freeAll : List ℕ → Fs PUnit
  | [] => pure ⟨⟩
  | zone :: zones => do
    if zone ≠ 0 then Fs.freeZone zone
    freeAll zones

def freeDouble : List (Option (List ℕ)) → Fs PUnit
  | [] => pure ⟨⟩
  | zones :: entries => do
    match zones with
    | none => pure ⟨⟩
    | some zones => freeAll zones
    freeDouble entries

def freeZones (t : MinixFSZone) : Fs PUnit := do
  freeAll t.direct_zones_
  match t.indirect_zones_ with
  | none => pure ⟨⟩
  | some zones =>
    freeAll zones
    match t.double_indirect_linking_zone_ with
    | none => pure ⟨⟩
    | some links =>
      freeAll links
      match t.double_indirect_zones_ with
      | none => pure ⟨⟩
      | some entries => freeDouble entries

end MinixFSZone

end KPanic.Minix
