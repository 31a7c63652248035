import KPanic.Fs.ZoneTree
import KPanic.Fs.MinixFSFile

/-!
# What `readData` returns

The contents of a file are the bytes of its zones, one zone after the other. `readData` returns
them if all zones that it looks at exist; which zones it looks at depends on the inode only.
-/

namespace KPanic.Minix

open Bytes
open Function
open Wp

variable {s : MinixFSSuperblock}

/-- Byte `k` of the zones of a tree, and 0 where there is no zone. -/
def byteAt (s : MinixFSSuperblock) (t : MinixFSZone) (k : ℕ) : UInt8 :=
  match t.zoneAt s.v3 (k / ZONE_SIZE) with
  | .ok zone => s.disk (zone % 2 ^ 16) (k % ZONE_SIZE)
  | .error _ => 0

/-- The zones from `first` on exist, and the device has them. -/
def HasZones (s : MinixFSSuperblock) (t : MinixFSZone) (first n : ℕ) : Prop :=
  ∀ i < n, ∃ zone, t.zoneAt s.v3 (first + i) = .ok zone ∧ s.InRange zone

theorem byteAt_eq {t : MinixFSZone} {zone index k : ℕ} (h : t.zoneAt s.v3 index = .ok zone)
    (hk : k < ZONE_SIZE) : byteAt s t (index * ZONE_SIZE + k) = s.disk (zone % 2 ^ 16) k := by
  have hdiv : (index * ZONE_SIZE + k) / ZONE_SIZE = index := by
    unfold ZONE_SIZE at *
    omega
  have hmod : (index * ZONE_SIZE + k) % ZONE_SIZE = k := by
    unfold ZONE_SIZE at *
    omega
  rw [byteAt, hdiv, h, hmod]

theorem hasZones_succ {t : MinixFSZone} {first n : ℕ} : HasZones s t first (n + 1) ↔
    (∃ zone, t.zoneAt s.v3 first = .ok zone ∧ s.InRange zone) ∧ HasZones s t (first + 1) n := by
  constructor
  · intro h
    refine ⟨h 0 (Nat.succ_pos n), fun i hi => ?_⟩
    have hnext := h (i + 1) (by omega)
    rw [show first + (i + 1) = first + 1 + i by omega] at hnext
    exact hnext
  · rintro ⟨hfirst, hrest⟩ i hi
    cases i with
    | zero => exact hfirst
    | succ i =>
      rw [show first + (i + 1) = first + 1 + i by omega]
      exact hrest i (by omega)

/-- Two parts of a copy that follow each other. -/
theorem patch_patch {buffer f g : Memory} {index m n : ℕ} :
    Fs.patch (Fs.patch buffer index m f) (index + m) n g =
      Fs.patch buffer index (m + n) fun j => if j < m then f j else g (j - m) := by
  funext k
  unfold Fs.patch
  by_cases hsecond : index + m ≤ k ∧ k < index + m + n
  · rw [if_pos hsecond, if_pos (by omega)]
    dsimp only
    rw [if_neg (by omega), Nat.sub_add_eq]
  · rw [if_neg hsecond]
    by_cases hfirst : index ≤ k ∧ k < index + m
    · rw [if_pos hfirst, if_pos (by omega)]
      dsimp only
      rw [if_pos (by omega)]
    · rw [if_neg hfirst, if_neg (by omega)]

theorem patch_congr {buffer f g : Memory} {index n : ℕ} (h : ∀ j < n, f j = g j) :
    Fs.patch buffer index n f = Fs.patch buffer index n g := by
  funext k
  unfold Fs.patch
  by_cases hk : index ≤ k ∧ k < index + n
  · rw [if_pos hk, if_pos hk, h _ (by omega)]
  · rw [if_neg hk, if_neg hk]

theorem patch_zero {buffer f : Memory} {index : ℕ} : Fs.patch buffer index 0 f = buffer := by
  funext k
  exact if_neg (by omega)

variable {inode : MinixFSInode}

/-- Each pass copies the rest of a zone, or what is left to read. -/
theorem wp_readLoop {size passes zone index zone_offset : ℕ} {buffer : Memory}
    (hoffset : zone_offset < ZONE_SIZE) (hindex : index ≤ size) :
    wp (fun _ => ¬HasZones s inode.i_zones_ zone passes)
      (MinixFSInode.readLoop inode size passes zone index zone_offset buffer)
      (fun b u => HasZones s inode.i_zones_ zone passes ∧ u = s ∧
        b = Fs.patch buffer index (min (size - index) (passes * ZONE_SIZE - zone_offset))
          fun j => byteAt s inode.i_zones_ (zone * ZONE_SIZE + zone_offset + j)) s := by
  induction passes generalizing zone index zone_offset buffer with
  | zero =>
    refine (wp_pure _).mpr ⟨fun i hi => absurd hi (by omega), rfl, ?_⟩
    rw [Nat.zero_mul, Nat.zero_sub, Nat.min_zero, patch_zero]
  | succ passes ih =>
    rw [MinixFSInode.readLoop, wp_bind, MinixFSZone.wp_getZone]
    refine ⟨fun disk_zone hzone => ?_, fun e he => ?_⟩
    · rw [wp_bind, Fs.wp_readZone]
      refine ⟨fun hin => ?_, fun hout => ?_⟩
      · have hsucc : HasZones s inode.i_zones_ zone (passes + 1) ↔
            HasZones s inode.i_zones_ (zone + 1) passes :=
          hasZones_succ.trans (and_iff_right ⟨disk_zone, hzone, hin⟩)
        have hpos : 0 < ZONE_SIZE := by decide
        refine wp_mono (wp_allowed (ih hpos (by omega)) fun _ hn => hsucc.not.mpr hn) ?_
        rintro b u ⟨hzones, rfl, rfl⟩
        refine ⟨hsucc.mpr hzones, rfl, ?_⟩
        rw [patch_patch]
        have hlen : min (size - index) (ZONE_SIZE - zone_offset) +
            min (size - (index + min (size - index) (ZONE_SIZE - zone_offset)))
              (passes * ZONE_SIZE - 0) =
            min (size - index) ((passes + 1) * ZONE_SIZE - zone_offset) := by
          rw [Nat.succ_mul]
          omega
        rw [hlen]
        refine patch_congr fun j hj => ?_
        by_cases hfirst : j < min (size - index) (ZONE_SIZE - zone_offset)
        · rw [if_pos hfirst, Nat.add_assoc, byteAt_eq hzone (by omega)]
        · rw [if_neg hfirst]
          refine congrArg (byteAt u inode.i_zones_) ?_
          rw [Nat.succ_mul]
          omega
      · intro h
        obtain ⟨zone', hzone', hin⟩ := (hasZones_succ.mp h).1
        rw [hzone] at hzone'
        cases hzone'
        exact hout hin
    · intro h
      obtain ⟨zone', hzone', -⟩ := (hasZones_succ.mp h).1
      rw [he] at hzone'
      cases hzone'

/-- How many bytes `readData` returns. -/
def readCount (i_size_ offset size : ℕ) : ℕ :=
  if u32 (size + offset) > i_size_ then i_size_ - offset else size

/-- The zones that `readData` looks at exist. -/
def Readable (s : MinixFSSuperblock) (inode : MinixFSInode) (offset size : ℕ) : Prop :=
  u32 (size + offset) > inode.i_size_ ∧ inode.i_size_ ≤ offset ∨
    HasZones s inode.i_zones_ (offset / ZONE_SIZE)
      (u32 (offset % ZONE_SIZE + readCount inode.i_size_ offset size) / ZONE_SIZE + 1)

theorem wp_readData {offset size : ℕ} {buffer : Memory}
    (hsum : offset % ZONE_SIZE + readCount inode.i_size_ offset size < 2 ^ 32) :
    wp (fun _ => ¬Readable s inode offset size) (MinixFSInode.readData inode offset size buffer)
      (fun r u => Readable s inode offset size ∧ u = s ∧
        r = (readCount inode.i_size_ offset size, Fs.patch buffer 0
          (readCount inode.i_size_ offset size) fun j => byteAt s inode.i_zones_ (offset + j))) s := by
  unfold MinixFSInode.readData
  by_cases hend : u32 (size + offset) > inode.i_size_ ∧ inode.i_size_ ≤ offset
  · have hzero : readCount inode.i_size_ offset size = 0 := by
      rw [readCount, if_pos hend.1]
      omega
    rw [if_pos hend, wp_pure, hzero, patch_zero]
    exact ⟨.inl hend, rfl, rfl⟩
  · have hcount : (if u32 (size + offset) > inode.i_size_ then inode.i_size_ - offset else size) =
        readCount inode.i_size_ offset size := rfl
    have hreadable : Readable s inode offset size ↔ HasZones s inode.i_zones_ (offset / ZONE_SIZE)
        (u32 (offset % ZONE_SIZE + readCount inode.i_size_ offset size) / ZONE_SIZE + 1) :=
      or_iff_right hend
    have hoffset : offset % ZONE_SIZE < ZONE_SIZE := Nat.mod_lt _ (by decide)
    rw [if_neg hend]
    dsimp only
    rw [hcount, wp_bind]
    refine wp_mono (wp_allowed (wp_readLoop hoffset (Nat.zero_le _)) fun _ hn => hreadable.not.mpr hn) ?_
    rintro b u ⟨hzones, rfl, rfl⟩
    refine (wp_pure _).mpr ⟨hreadable.mpr hzones, rfl, ?_⟩
    have hu : u32 (offset % ZONE_SIZE + readCount inode.i_size_ offset size) =
        offset % ZONE_SIZE + readCount inode.i_size_ offset size := Nat.mod_eq_of_lt hsum
    have hlen : min (readCount inode.i_size_ offset size - 0)
        ((u32 (offset % ZONE_SIZE + readCount inode.i_size_ offset size) / ZONE_SIZE + 1) *
          ZONE_SIZE - offset % ZONE_SIZE) = readCount inode.i_size_ offset size := by
      rw [hu]
      unfold ZONE_SIZE
      omega
    have hstart : offset / ZONE_SIZE * ZONE_SIZE + offset % ZONE_SIZE = offset :=
      Nat.div_add_mod' offset ZONE_SIZE
    rw [hlen, hstart]

/-! ### Files whose zones are all there -/

theorem countZones_le (l : List ℕ) : countZones l ≤ l.length := List.countP_le_length

theorem numZoneAddresses_le (v3 : Bool) : NUM_ZONE_ADDRESSES v3 ≤ 512 := by
  cases v3 with
  | false => decide
  | true => decide

theorem Linked.count_le {v3 : Bool} {link : ℕ} {zones : Option (List ℕ)} (h : Linked v3 link zones) :
    zones.elim 0 countZones ≤ 512 := by
  cases h with
  | none => exact Nat.zero_le _
  | some _ harray => exact (countZones_le _).trans (harray.length.le.trans (numZoneAddresses_le v3))

theorem Linked.arrayOk {v3 : Bool} {link : ℕ} {entry : Option (List ℕ)} {zones : List ℕ}
    (h : Linked v3 link entry) (he : entry = Option.some zones) : ArrayOk v3 zones := by
  cases h with
  | none => cases he
  | some _ harray =>
    cases he
    exact harray

theorem Linked.sum_le {v3 : Bool} {links : List ℕ} {entries : List (Option (List ℕ))}
    (h : List.Forall₂ (Linked v3) links entries) :
    (entries.map fun e => e.elim 0 countZones).sum ≤ 512 * links.length := by
  induction h with
  | nil => exact le_rfl
  | cons hlink _ ih =>
    rw [List.map_cons, List.sum_cons, List.length_cons, Nat.mul_succ]
    have hcount := hlink.count_le
    omega

/-- A tree has fewer zones than a `uint32` has bytes by far. -/
theorem TreeOk.num_zones_lt {v3 : Bool} {t : MinixFSZone} (h : TreeOk v3 t) :
    t.num_zones_ < 2 ^ 19 := by
  have hdirect := (countZones_le (t.direct_zones_.take 7)).trans (List.length_take_le 7 _)
  have hindirect := h.indirect.count_le
  have hdouble : (t.double_indirect_zones_.elim 0 fun entries =>
      (entries.map fun e => e.elim 0 countZones).sum) ≤ 512 * 512 := by
    obtain ⟨-, hd⟩ | ⟨links, entries, hl, hd, hlinked⟩ := h.shape
    · rw [hd]
      exact Nat.zero_le _
    · rw [hd]
      have hlength : links.length ≤ 512 :=
        (h.linking.arrayOk hl).length.le.trans (numZoneAddresses_le v3)
      exact (Linked.sum_le hlinked).trans (Nat.mul_le_mul_left 512 hlength)
  rw [h.count]
  omega

theorem zoneAt_lt {v3 : Bool} {t : MinixFSZone} {index zone : ℕ} (h : t.zoneAt v3 index = .ok zone) :
    index < t.num_zones_ := by
  unfold MinixFSZone.zoneAt at h
  by_contra hge
  rw [if_neg hge] at h
  cases h

/-- A file of a consistent image: it has a zone for each of its bytes, and no block is two zones
of it. -/
structure FileOk (s : MinixFSSuperblock) (inode : MinixFSInode) : Prop where
  size : inode.i_size_ < 2 ^ 32
  tree : TreeOk s.v3 inode.i_zones_
  zones : HasZones s inode.i_zones_ 0 ((inode.i_size_ + (ZONE_SIZE - 1)) / ZONE_SIZE)
  distinct : ∀ i j a b, inode.i_zones_.zoneAt s.v3 i = .ok a → inode.i_zones_.zoneAt s.v3 j = .ok b →
    a % 2 ^ 16 = b % 2 ^ 16 → i = j

/-- A read that returns what it was asked for stays in the file. -/
theorem FileOk.end_le (h : FileOk s inode) {offset size : ℕ} (hoffset : offset < 2 ^ 32)
    (hpos : 0 < size) (hsize : size ≤ 2 ^ 31) (hread : Readable s inode offset size)
    (hcount : readCount inode.i_size_ offset size = size) : offset + size ≤ inode.i_size_ := by
  by_cases hclip : u32 (size + offset) > inode.i_size_
  · rw [readCount, if_pos hclip] at hcount
    omega
  · have hzones : HasZones s inode.i_zones_ (offset / ZONE_SIZE)
        (u32 (offset % ZONE_SIZE + readCount inode.i_size_ offset size) / ZONE_SIZE + 1) :=
      hread.resolve_left fun hn => hclip hn.1
    obtain ⟨zone, hzone, -⟩ := hzones 0 (Nat.succ_pos _)
    have hlt := zoneAt_lt hzone
    have hnum := h.tree.num_zones_lt
    unfold u32 at hclip
    unfold ZONE_SIZE at hlt
    omega

end KPanic.Minix
