import KPanic.Fs.InodePersistence
import KPanic.Fs.ZoneCalls

/-!
# Files as arrays of bytes

`writeData` reads the zones that it writes to, changes some bytes and writes the zones back. What it
does to the bytes of the file is `Contents.write`; the other files and the blocks that belong to no
file stay as they are.
-/

namespace KPanic.Minix

open Function
open Machine
open Ownership
open Wp

variable {s s' u : MinixFSSuperblock} {t t' : MinixFSZone} {i_num offset size : ℕ} {inode : MinixFSInode}

/-! ### Trees without holes -/

/-- The data zones are in the first slots. -/
def Packed (v3 : Bool) (t : MinixFSZone) : Prop := ∀ j, t.rawAt v3 j ≠ 0 ↔ j < t.num_zones_

/-- A tree without holes, each zone of which is referred to once and is on the device. -/
structure OnDisk (s : MinixFSSuperblock) (t : MinixFSZone) : Prop where
  packed : Packed s.v3 t
  once : t.refs.Nodup
  range : ∀ zone ∈ t.refs, zone < 2 ^ 16 ∧ zone < s.num_blocks

section OnDisk

variable {index : ℕ}

theorem OnDisk.mem (h : OnDisk s t) (hindex : index < t.num_zones_) : t.rawAt s.v3 index ∈ t.refs :=
  rawAt_mem ((h.packed index).mpr hindex)

theorem OnDisk.zoneAt (h : OnDisk s t) (hindex : index < t.num_zones_) :
    t.zoneAt s.v3 index = .ok (t.rawAt s.v3 index) :=
  zoneAt_of_rawAt hindex ((h.packed index).mpr hindex)

theorem OnDisk.mod (h : OnDisk s t) (hindex : index < t.num_zones_) :
    t.rawAt s.v3 index % 2 ^ 16 = t.rawAt s.v3 index :=
  Nat.mod_eq_of_lt (h.range _ (h.mem hindex)).1

theorem OnDisk.inRange (h : OnDisk s t) (hindex : index < t.num_zones_) : s.InRange (t.rawAt s.v3 index) := by
  rw [MinixFSSuperblock.InRange, h.mod hindex]
  exact (h.range _ (h.mem hindex)).2

theorem OnDisk.hasZones (h : OnDisk s t) {first n : ℕ} (hn : first + n ≤ t.num_zones_) : HasZones s t first n :=
  fun i hi => ⟨_, h.zoneAt (by omega), h.inRange (by omega)⟩

theorem OnDisk.byteAt (h : OnDisk s t) {k : ℕ} (hk : k / ZONE_SIZE < t.num_zones_) :
    byteAt s t k = s.disk (t.rawAt s.v3 (k / ZONE_SIZE)) (k % ZONE_SIZE) := by
  rw [KPanic.Minix.byteAt, h.zoneAt hk]
  dsimp only
  rw [h.mod hk]

/-- The same tree on a disk with other contents. -/
theorem OnDisk.rewritten {blocks : ℕ → Prop} (h : OnDisk s t) (hw : Rewritten blocks s u) : OnDisk u t := by
  rw [hw.rest]
  exact ⟨h.packed, h.once, h.range⟩

/-- The zones from `zone` on get the bytes of the buffer. -/
theorem wp_writeLoop (inode : MinixFSInode) {passes zone : ℕ} {wbuffer : Bytes.Memory} (h : OnDisk s inode.i_zones_)
    (hn : zone + passes ≤ inode.i_zones_.num_zones_) :
    wp (fun _ => False) (MinixFSInode.writeLoop inode passes zone wbuffer) (fun _ u =>
      Rewritten (· ∈ inode.i_zones_.refs) s u ∧ ∀ index < inode.i_zones_.num_zones_, ∀ k < ZONE_SIZE,
        u.disk (inode.i_zones_.rawAt s.v3 index) k = if zone ≤ index ∧ index < zone + passes
          then wbuffer ((index - zone) * ZONE_SIZE + k) else s.disk (inode.i_zones_.rawAt s.v3 index) k) s := by
  induction passes generalizing zone wbuffer s with
  | zero =>
    refine (wp_pure _).mpr ⟨Rewritten.refl _ s, fun index _ k _ => ?_⟩
    rw [if_neg (by omega)]
  | succ passes ih =>
    have hzone : zone < inode.i_zones_.num_zones_ := by omega
    have hraw := (h.packed zone).mpr hzone
    rw [MinixFSInode.writeLoop, wp_bind, MinixFSZone.wp_getZone, h.zoneAt hzone]
    refine ⟨fun disk_zone heq => ?_, fun _ he => by cases he⟩
    obtain rfl := Except.ok.inj heq
    rw [wp_bind, Fs.wp_writeZone, h.mod hzone]
    refine ⟨fun _ => ?_, fun hout => hout (h.inRange hzone)⟩
    have hblock : Rewritten (· ∈ inode.i_zones_.refs) s
        { s with disk := update s.disk (inode.i_zones_.rawAt s.v3 zone) wbuffer } := rewritten_block (h.mem hzone)
    refine wp_mono (ih (h.rewritten hblock) (by omega)) fun _ u hu => ⟨hblock.trans hu.1, fun index hindex k hk => ?_⟩
    have hrest := hu.2 index hindex k hk
    dsimp only at hrest
    rw [hrest]
    by_cases hfirst : index = zone
    · rw [if_neg (by omega), if_pos (by omega), hfirst, update_self, Nat.sub_self, Nat.zero_mul, Nat.zero_add]
    · have hne : inode.i_zones_.rawAt s.v3 index ≠ inode.i_zones_.rawAt s.v3 zone := by
        intro heq
        exact hfirst (rawAt_inj h.once heq ((h.packed index).mpr hindex))
      rw [update_of_ne hne]
      by_cases hlater : zone + 1 ≤ index ∧ index < zone + 1 + passes
      · rw [if_pos hlater, if_pos (by omega)]
        congr 1
        unfold ZONE_SIZE
        omega
      · rw [if_neg hlater, if_neg (by omega)]

end OnDisk

theorem Growing.onDisk (G : Growing s i_num [] t s') (hp : Packed s.v3 t) : OnDisk s' t := by
  have honce := G.owned.once i_num
  rw [update_self] at honce
  refine ⟨by rw [G.v3]; exact hp, honce, fun zone hzone => ?_⟩
  have hmark : s'.Marked zone := G.owned.mem_marked (i := i_num) (by rw [update_self]; exact hzone)
  obtain ⟨hlt, hdevice, -⟩ := G.layout.marked_lt hmark
  exact ⟨hlt, hdevice⟩

theorem Added.packed {v3 : Bool} {n : ℕ} (h : Added v3 t n t') (hp : Packed v3 t) : Packed v3 t' := by
  intro j
  rw [h.num]
  by_cases hnew : t.num_zones_ ≤ j ∧ j < t.num_zones_ + n
  · exact iff_of_true (h.new j hnew.1 hnew.2) hnew.2
  · rw [h.old j hnew, hp j]
    omega

theorem Packed.roomFor {v3 : Bool} (hp : Packed v3 t) (n : ℕ) : t.RoomFor v3 n := by
  intro k _
  by_contra hne
  have hlt := (hp _).mp hne
  omega

/-! ### Reading -/

/-- There is room in the last zone, or a zone behind it. -/
def MinixFSInode.HasSpare (inode : MinixFSInode) : Prop := inode.i_size_ < inode.i_zones_.num_zones_ * ZONE_SIZE

/-- `readData` looks at the zone behind the last byte that it reads, unless the read starts behind
the end of the file. -/
def MinixFSInode.CanRead (inode : MinixFSInode) (offset size : ℕ) : Prop :=
  offset + size < 2 ^ 32 ∧ (inode.i_size_ ≤ offset ∧ inode.i_size_ < offset + size ∨
    min (offset + size) inode.i_size_ / ZONE_SIZE < inode.i_zones_.num_zones_)

theorem readCount_eq (inode : MinixFSInode) (hsum : offset + size < 2 ^ 32) :
    readCount inode.i_size_ offset size = if offset + size > inode.i_size_ then inode.i_size_ - offset else size := by
  rw [readCount, u32, Nat.mod_eq_of_lt (by omega), Nat.add_comm]

theorem readable_of_canRead (h : OnDisk s inode.i_zones_) (hread : inode.CanRead offset size) :
    Readable s inode offset size := by
  obtain ⟨hsum, hbehind | hend⟩ := hread
  · refine .inl ⟨?_, hbehind.1⟩
    rw [u32, Nat.mod_eq_of_lt (by omega)]
    omega
  · have hu : u32 (size + offset) = offset + size := by
      rw [u32, Nat.mod_eq_of_lt (by omega), Nat.add_comm]
    by_cases hempty : u32 (size + offset) > inode.i_size_ ∧ inode.i_size_ ≤ offset
    · exact .inl hempty
    · refine .inr (h.hasZones ?_)
      rw [hu] at hempty
      have hcount := readCount_eq inode hsum
      have hle : offset + readCount inode.i_size_ offset size = min (offset + size) inode.i_size_ := by
        rw [hcount]
        split
        · omega
        · omega
      have hu' : u32 (offset % ZONE_SIZE + readCount inode.i_size_ offset size) =
          offset % ZONE_SIZE + readCount inode.i_size_ offset size := by
        refine Nat.mod_eq_of_lt ?_
        have hmod := Nat.mod_le offset ZONE_SIZE
        omega
      rw [hu']
      rw [← hle] at hend
      unfold ZONE_SIZE at *
      omega

theorem wp_readData_ok (buffer : Bytes.Memory) (h : OnDisk s inode.i_zones_) (hread : inode.CanRead offset size) :
    wp (fun _ => False) (MinixFSInode.readData inode offset size buffer) (fun r u => u = s ∧
      r = (readCount inode.i_size_ offset size, Fs.patch buffer 0 (readCount inode.i_size_ offset size)
        fun j => byteAt s inode.i_zones_ (offset + j))) s := by
  have hsum : offset % ZONE_SIZE + readCount inode.i_size_ offset size < 2 ^ 32 := by
    have hmod := Nat.mod_le offset ZONE_SIZE
    have hcount := readCount_eq inode hread.1
    have hlt := hread.1
    split at hcount
    · omega
    · omega
  have hreadable := readable_of_canRead h hread
  exact wp_mono (wp_allowed (wp_readData hsum) fun _ he => he hreadable) fun _ _ hr => hr.2

/-! ### Files -/

/-- What a program sees of a file. -/
structure Contents where
  size : ℕ
  bytes : ℕ → UInt8

def Contents.write (c : Contents) (offset size : ℕ) (buffer : Bytes.Memory) : Contents where
  size := max c.size (offset + size)
  bytes k := if offset ≤ k ∧ k < offset + size then buffer (k - offset)
    else if k < c.size then c.bytes k else 0

def contentsOf (s : MinixFSSuperblock) (inode : MinixFSInode) : Contents where
  size := inode.i_size_
  bytes k := if k < inode.i_size_ then byteAt s inode.i_zones_ k else 0

/-- The zones of every loaded inode have no holes, and hold its bytes. -/
structure FilesOk (s : MinixFSSuperblock) : Prop where
  consistent : Consistent s
  packed : ∀ {i_num inode}, s.all_inodes_ i_num = some inode → Packed s.v3 inode.i_zones_
  room : ∀ {i_num inode}, s.all_inodes_ i_num = some inode →
    inode.i_size_ ≤ inode.i_zones_.num_zones_ * ZONE_SIZE

theorem FilesOk.onDisk (F : FilesOk s) (hi : s.all_inodes_ i_num = some inode) : OnDisk s inode.i_zones_ :=
  (F.consistent.growing hi).onDisk (F.packed hi)

/-- The bytes of a file are those of its zones. -/
theorem contentsOf_congr {inode' : MinixFSInode} (h : OnDisk s inode.i_zones_) (hu : OnDisk u inode'.i_zones_)
    (hv : u.v3 = s.v3) (hsize : inode'.i_size_ = inode.i_size_)
    (hroom : inode.i_size_ ≤ inode.i_zones_.num_zones_ * ZONE_SIZE)
    (hroom' : inode'.i_size_ ≤ inode'.i_zones_.num_zones_ * ZONE_SIZE)
    (hsame : ∀ index < inode.i_zones_.num_zones_, inode'.i_zones_.rawAt s.v3 index = inode.i_zones_.rawAt s.v3 index ∧
      u.disk (inode.i_zones_.rawAt s.v3 index) = s.disk (inode.i_zones_.rawAt s.v3 index)) :
    contentsOf u inode' = contentsOf s inode := by
  unfold contentsOf
  rw [hsize]
  congr 1
  funext k
  by_cases hk : k < inode.i_size_
  · have hindex : k / ZONE_SIZE < inode.i_zones_.num_zones_ := (Nat.div_lt_iff_lt_mul (by decide)).mpr (by omega)
    have hindex' : k / ZONE_SIZE < inode'.i_zones_.num_zones_ := (Nat.div_lt_iff_lt_mul (by decide)).mpr (by omega)
    obtain ⟨hraw, hdisk⟩ := hsame _ hindex
    rw [if_pos hk, if_pos hk, h.byteAt hindex, hu.byteAt hindex', hv, hraw, hdisk]
  · rw [if_neg hk, if_neg hk]

/-! ### Writing -/

/-- How many zones `writeData` reads and writes. -/
def touchedZones (offset size : ℕ) : ℕ := (offset % ZONE_SIZE + size) / ZONE_SIZE + 1

/-- The write starts in the file or at its end, and there is a zone behind the last byte that it
reads or writes. -/
def MinixFSInode.CanWrite (inode : MinixFSInode) (offset size : ℕ) : Prop :=
  offset ≤ inode.i_size_ ∧ offset + size + ZONE_SIZE < 2 ^ 32 ∧
    (inode.i_size_ < offset + size ∨ inode.HasSpare ∨
      (offset / ZONE_SIZE + touchedZones offset size) * ZONE_SIZE < inode.i_size_)

/-- The tree as it is when `addZones` has been called. -/
structure Grown (s : MinixFSSuperblock) (inode : MinixFSInode) (offset size : ℕ) (t : MinixFSZone)
    (s' : MinixFSSuperblock) : Prop where
  tree : OnDisk s' t
  added : Added s.v3 inode.i_zones_ (inode.newZones offset size) t
  same : SameButZones s s'

theorem Grown.numbers {s' : MinixFSSuperblock} (g : Grown s inode offset size t s') (hfit : inode.CanWrite offset size)
    (hroom : inode.i_size_ ≤ inode.i_zones_.num_zones_ * ZONE_SIZE) :
    offset / ZONE_SIZE + touchedZones offset size ≤ t.num_zones_ ∧
      min (offset - offset % ZONE_SIZE + touchedZones offset size * ZONE_SIZE) inode.i_size_ / ZONE_SIZE <
        t.num_zones_ ∧
      max inode.i_size_ (offset + size) ≤ t.num_zones_ * ZONE_SIZE := by
  obtain ⟨hstart, hsum, hzones⟩ := hfit
  have hnum := g.added.num
  have hu : u32 (size + offset) = offset + size := by
    rw [u32, Nat.mod_eq_of_lt (by omega), Nat.add_comm]
  rw [MinixFSInode.newZones, hu] at hnum
  unfold touchedZones MinixFSInode.HasSpare at *
  unfold ZONE_SIZE at *
  split at hnum
  · omega
  · omega

/-- Byte `k` of what `writeData` writes back, counted from the start of the first zone. -/
theorem wp_readBack (inode : MinixFSInode) (g : OnDisk s inode.i_zones_) (hsum : offset + size + ZONE_SIZE < 2 ^ 32)
    (hend : min (offset - offset % ZONE_SIZE + touchedZones offset size * ZONE_SIZE) inode.i_size_ / ZONE_SIZE <
      inode.i_zones_.num_zones_) :
    wp (fun _ => False) (MinixFSInode.readData inode (offset - offset % ZONE_SIZE)
      (u32 (touchedZones offset size * ZONE_SIZE)) fun _ => 0) (fun r u => u = s ∧
        ∀ k < touchedZones offset size * ZONE_SIZE, r.2 k = (contentsOf s inode).bytes (offset - offset % ZONE_SIZE + k)) s := by
  have hmod := Nat.mod_le offset ZONE_SIZE
  have hlen : offset - offset % ZONE_SIZE + touchedZones offset size * ZONE_SIZE < 2 ^ 32 := by
    unfold touchedZones
    unfold ZONE_SIZE at *
    omega
  have hu : u32 (touchedZones offset size * ZONE_SIZE) = touchedZones offset size * ZONE_SIZE :=
    Nat.mod_eq_of_lt (by omega)
  rw [hu]
  refine wp_mono (wp_readData_ok _ g ⟨hlen, .inr hend⟩) fun r v hr => ⟨hr.1, fun k hk => ?_⟩
  have hcount := readCount_eq inode hlen
  rw [hr.2]
  unfold Fs.patch contentsOf
  dsimp only
  rw [Nat.sub_zero, Nat.zero_add]
  by_cases hin : offset - offset % ZONE_SIZE + k < inode.i_size_
  · rw [if_pos hin, if_pos]
    split at hcount
    · omega
    · omega
  · rw [if_neg hin, if_neg]
    split at hcount
    · omega
    · omega

/-- The call has done to the file what `Contents.write` does, and to no other file or block anything. -/
structure Wrote (s : MinixFSSuperblock) (i_num : ℕ) (inode : MinixFSInode) (offset size : ℕ) (buffer : Bytes.Memory)
    (u : MinixFSSuperblock) (inode' : MinixFSInode) : Prop where
  files : FilesOk u
  loaded : u.all_inodes_ = update s.all_inodes_ i_num (some inode')
  contents : contentsOf u inode' = (contentsOf s inode).write offset size buffer
  others : ∀ j other, j ≠ i_num → s.all_inodes_ j = some other → contentsOf u other = contentsOf s other
  disk : ∀ b, b ∉ inode'.i_zones_.refs → u.disk b = s.disk b
  v3 : u.v3 = s.v3
  first : u.s_1st_datazone_ = s.s_1st_datazone_

/-- The zones do not fit on the disk, or into the tree. -/
def WontFit (s : MinixFSSuperblock) (inode : MinixFSInode) (offset size : ℕ) (e : Panic) : Prop :=
  NoZone e ∨ e = .badZoneIndex ∧ NUM_SLOTS s.v3 < inode.i_zones_.num_zones_ + inode.newZones offset size

/-- What the loop leaves of the bytes, with the size that is stored afterwards. -/
theorem contents_written {s₁ : MinixFSSuperblock} {buffer wbuffer : Bytes.Memory} {inode' : MinixFSInode}
    (h : OnDisk s inode.i_zones_) (hroom : inode.i_size_ ≤ inode.i_zones_.num_zones_ * ZONE_SIZE)
    (hfit : inode.CanWrite offset size) (g : Grown s inode offset size t s₁) (hu : OnDisk u t) (hv : u.v3 = s.v3)
    (hz : inode'.i_zones_ = t) (hsize : inode'.i_size_ = max inode.i_size_ (offset + size))
    (hdisk : ∀ index < t.num_zones_, ∀ k < ZONE_SIZE, u.disk (t.rawAt s.v3 index) k =
      if offset / ZONE_SIZE ≤ index ∧ index < offset / ZONE_SIZE + touchedZones offset size
      then wbuffer ((index - offset / ZONE_SIZE) * ZONE_SIZE + k) else s.disk (t.rawAt s.v3 index) k)
    (hbuffer : ∀ k < touchedZones offset size * ZONE_SIZE, wbuffer k =
      if offset % ZONE_SIZE ≤ k ∧ k < offset % ZONE_SIZE + size then buffer (k - offset % ZONE_SIZE)
      else (contentsOf s inode).bytes (offset - offset % ZONE_SIZE + k)) :
    contentsOf u inode' = (contentsOf s inode).write offset size buffer := by
  obtain ⟨-, -, hlast⟩ := g.numbers hfit hroom
  have hstart := hfit.1
  unfold contentsOf Contents.write at *
  dsimp only at *
  rw [hsize, hz]
  congr 1
  funext k
  by_cases hk : k < max inode.i_size_ (offset + size)
  · rw [if_pos hk]
    have hindex : k / ZONE_SIZE < t.num_zones_ := (Nat.div_lt_iff_lt_mul (by decide)).mpr (by omega)
    have hmod : k % ZONE_SIZE < ZONE_SIZE := Nat.mod_lt _ (by decide)
    rw [hu.byteAt hindex, hv, hdisk _ hindex _ hmod]
    by_cases htouched : offset / ZONE_SIZE ≤ k / ZONE_SIZE ∧
        k / ZONE_SIZE < offset / ZONE_SIZE + touchedZones offset size
    · -- the byte is in the buffer
      have hplace : (k / ZONE_SIZE - offset / ZONE_SIZE) * ZONE_SIZE + k % ZONE_SIZE =
          k - (offset - offset % ZONE_SIZE) := by
        unfold ZONE_SIZE at *
        omega
      have hlt : k - (offset - offset % ZONE_SIZE) < touchedZones offset size * ZONE_SIZE := by
        unfold ZONE_SIZE at *
        omega
      have hge : offset - offset % ZONE_SIZE ≤ k := by
        unfold ZONE_SIZE at *
        omega
      rw [if_pos htouched, hplace, hbuffer _ hlt, Nat.add_sub_cancel' hge]
      have hmod' := Nat.mod_le offset ZONE_SIZE
      by_cases hnew : offset ≤ k ∧ k < offset + size
      · rw [if_pos hnew, if_pos (by omega)]
        congr 1
        omega
      · rw [if_neg hnew, if_neg (by omega)]
        by_cases hold : k < inode.i_size_
        · rw [if_pos hold, if_pos hold]
        · rw [if_neg hold, if_neg hold]
    · have hold : ¬(offset ≤ k ∧ k < offset + size) := by
        unfold touchedZones at htouched
        unfold ZONE_SIZE at *
        omega
      have hin : k < inode.i_size_ := by omega
      have hindex' : k / ZONE_SIZE < inode.i_zones_.num_zones_ := (Nat.div_lt_iff_lt_mul (by decide)).mpr (by omega)
      rw [if_neg htouched, if_neg hold, if_pos hin, if_pos hin, h.byteAt hindex', g.added.old _ (by omega)]
  · rw [if_neg hk, if_neg (by omega), if_neg (by omega)]

theorem Rewritten.mono {blocks blocks' : ℕ → Prop} (h : Rewritten blocks s u) (hb : ∀ b, blocks b → blocks' b) :
    Rewritten blocks' s u :=
  ⟨h.rest, fun b hn => h.disk b fun hin => hn (hb b hin)⟩

/-- The state in which the call ends. -/
theorem FilesOk.wrote (F : FilesOk s) (hi : s.all_inodes_ i_num = some inode) {s₁ : MinixFSSuperblock}
    {buffer : Bytes.Memory} {inode' : MinixFSInode} (G : Growing s i_num [] t s₁)
    (g : Grown s inode offset size t s₁) (hfit : inode.CanWrite offset size)
    (hw : Rewritten (· ∈ t.refs) s₁ u) (hz : inode'.i_zones_ = t)
    (hsize : inode'.i_size_ = max inode.i_size_ (offset + size))
    (hcontents : contentsOf u inode' = (contentsOf s inode).write offset size buffer) :
    Wrote s i_num inode offset size buffer { u with
      all_inodes_ := update u.all_inodes_ i_num (some inode') } inode' := by
  have hs₁ : s₁.all_inodes_ = s.all_inodes_ ∧ s₁.disk = s.disk ∧ s₁.v3 = s.v3 ∧
      s₁.s_1st_datazone_ = s.s_1st_datazone_ := by
    rw [G.same.rest]
    exact ⟨rfl, rfl, rfl, rfl⟩
  have hu : u.all_inodes_ = s₁.all_inodes_ ∧ u.v3 = s₁.v3 ∧ u.s_1st_datazone_ = s₁.s_1st_datazone_ ∧
      u.num_blocks = s₁.num_blocks := by
    rw [hw.rest]
    exact ⟨rfl, rfl, rfl, rfl⟩
  have hconsistent := F.consistent.store hi G (hw.mono fun b hb => .inr hb) hz
  have hdisk : ∀ b, b ∉ t.refs → u.disk b = s.disk b := fun b hb => by rw [hw.disk b hb, hs₁.2.1]
  obtain ⟨-, -, hlast⟩ := g.numbers hfit (F.room hi)
  refine ⟨⟨hconsistent, ?_, ?_⟩, ?_, hcontents, ?_, ?_, ?_, ?_⟩
  · intro j other hj
    change update u.all_inodes_ i_num (some inode') j = some other at hj
    show Packed u.v3 other.i_zones_
    rw [hu.2.1, hs₁.2.2.1]
    by_cases hji : j = i_num
    · rw [hji, update_self] at hj
      obtain rfl := Option.some.inj hj
      rw [hz]
      exact g.added.packed (F.packed hi)
    · rw [update_of_ne hji, hu.1, hs₁.1] at hj
      exact F.packed hj
  · intro j other hj
    change update u.all_inodes_ i_num (some inode') j = some other at hj
    by_cases hji : j = i_num
    · rw [hji, update_self] at hj
      obtain rfl := Option.some.inj hj
      rw [hz, hsize]
      exact hlast
    · rw [update_of_ne hji, hu.1, hs₁.1] at hj
      exact F.room hj
  · show update u.all_inodes_ i_num (some inode') = _
    rw [hu.1, hs₁.1]
  · intro j other hji hj
    have hj' : update u.all_inodes_ i_num (some inode') j = some other := by
      rw [update_of_ne hji, hu.1, hs₁.1]
      exact hj
    have hon := F.onDisk hj
    have howned := G.owned
    rw [List.nil_append] at howned
    have hon' : OnDisk u other.i_zones_ := by
      refine ⟨?_, hon.once, fun zone hzone => ?_⟩
      · rw [hu.2.1, hs₁.2.2.1]
        exact hon.packed
      · rw [hu.2.2.2, G.same.rest]
        exact hon.range zone hzone
    refine contentsOf_congr (u := { u with all_inodes_ := update u.all_inodes_ i_num (some inode') }) hon
      ⟨hon'.packed, hon'.once, hon'.range⟩ (hu.2.1.trans hs₁.2.2.1) rfl (F.room hj) (F.room hj)
      fun index hindex => ⟨rfl, ?_⟩
    refine hdisk _ fun hmem => ?_
    have hother : other.i_zones_.rawAt s.v3 index ∈ update s.zonesOf i_num t.refs j := by
      rw [update_of_ne hji, zonesOf_loaded hj]
      exact hon.mem hindex
    refine howned.apart j i_num hji _ hother ?_
    rw [update_self]
    exact hmem
  · intro b hb
    rw [hz] at hb
    exact hdisk b hb
  · exact hu.2.1.trans hs₁.2.2.1
  · exact hu.2.2.1.trans hs₁.2.2.2

theorem wp_writeData (buffer : Bytes.Memory) (F : FilesOk s) (hi : s.all_inodes_ i_num = some inode)
    (hfit : inode.CanWrite offset size) :
    wp (WontFit s inode offset size) (MinixFSInode.writeData i_num offset size buffer)
      (fun n u => n = size ∧ ∃ inode', Wrote s i_num inode offset size buffer u inode') s := by
  unfold MinixFSInode.writeData
  rw [wp_bind]
  refine wp_inode hi ?_
  have hadd : wp (WontFit s inode offset size) (if u32 (size + offset) > inode.i_size_ then
        MinixFSInode.addZones ((u32 (size + offset) - inode.i_size_) / ZONE_SIZE + 1) inode.i_zones_
      else pure inode.i_zones_)
      (fun t s₁ => Growing s i_num [] t s₁ ∧ Added s.v3 inode.i_zones_ (inode.newZones offset size) t) s := by
    have hG := F.consistent.growing hi
    unfold WontFit MinixFSInode.newZones
    split
    · exact wp_addZones hG ((F.packed hi).roomFor _)
    · refine (wp_pure _).mpr ⟨hG, rfl, fun _ _ => rfl, fun j hj hlt => ?_⟩
      omega
  dsimp only
  refine wp_seq_ite hadd fun t s₁ h => ?_
  obtain ⟨G, hadded⟩ := h
  have g : Grown s inode offset size t s₁ := ⟨G.onDisk (hadded.packed (F.packed hi)), hadded, G.same⟩
  obtain ⟨htouched, hend, -⟩ := g.numbers hfit (F.room hi)
  rw [if_neg (Nat.not_lt.mpr hfit.1)]
  have hmod := Nat.mod_le offset ZONE_SIZE
  have hcount : u32 (offset % ZONE_SIZE + size) / ZONE_SIZE + 1 = touchedZones offset size := by
    have hsum := hfit.2.1
    rw [touchedZones, u32, Nat.mod_eq_of_lt (by omega)]
  rw [hcount, wp_bind, wp_pure]
  refine wp_seq (wp_never (wp_readBack { inode with i_zones_ := t } g.tree hfit.2.1 hend)) fun r v hr => ?_
  obtain ⟨rfl, hbytes⟩ := hr
  refine wp_seq (wp_never (wp_writeLoop { inode with i_zones_ := t } g.tree htouched)) fun _ w hw => ?_
  obtain ⟨hrewritten, hdisk⟩ := hw
  have hsize : max inode.i_size_ (u32 (offset + size)) = max inode.i_size_ (offset + size) := by
    have hsum := hfit.2.1
    rw [u32, Nat.mod_eq_of_lt (by omega)]
  have hv : v.v3 = s.v3 ∧ v.disk = s.disk := by
    rw [G.same.rest]
    exact ⟨rfl, rfl⟩
  rw [hv.1, hv.2] at hdisk
  rw [wp_bind, Fs.setInode, wp_modify, wp_pure]
  refine ⟨rfl, _, F.wrote hi G g hfit hrewritten rfl hsize ?_⟩
  have hw3 : w.v3 = s.v3 := by rw [hrewritten.rest, hv.1]
  refine contents_written (F.onDisk hi) (F.room hi) hfit g (g.tree.rewritten hrewritten) hw3 rfl hsize hdisk
    fun k hk => ?_
  have hold : contentsOf v { inode with i_zones_ := t } = contentsOf s inode := by
    refine contentsOf_congr (F.onDisk hi) g.tree hv.1 rfl (F.room hi) ?_ fun index hindex => ⟨hadded.old _ ?_, ?_⟩
    · have hroom := F.room hi
      have hnum := hadded.num
      refine hroom.trans (Nat.mul_le_mul_right _ ?_)
      show inode.i_zones_.num_zones_ ≤ t.num_zones_
      omega
    · omega
    · rw [hv.2]
  rw [hold] at hbytes
  rw [← hbytes k hk]
  rfl

end KPanic.Minix
