import KPanic.Fs.ZoneTree

/-!
# What `writeInode` leaves on the disk

The zones of an inode are flushed to its entry and to its linking zones, from where the constructor
of `MinixFSZone` reads the same tree. The other fields do not all come back: `readBytes` leaves its
buffer alone.
-/

namespace KPanic.Minix

open Bytes
open Function
open Wp

variable {s : MinixFSSuperblock}

/-- The residues of zone numbers, which name the blocks. -/
def blocksOf (zones : List ℕ) : List ℕ := (zones.filter (· ≠ 0)).map (· % 2 ^ 16)

theorem blocksOf_cons {zones : List ℕ} {zone : ℕ} (h : zone ≠ 0) :
    blocksOf (zone :: zones) = zone % 2 ^ 16 :: blocksOf zones := by
  unfold blocksOf
  rw [List.filter_cons_of_pos (by simpa using h), List.map_cons]

/-- A linking zone as it is written reads back. -/
theorem linked_of_disk {link : ℕ} {zones : List ℕ} (hlink : link ≠ 0) (h : ArrayOk s.v3 zones)
    (hdisk : s.disk (link % 2 ^ 16) = setArray s.v3 0 zones fun _ => 0) :
    s.linked link = some zones := by
  rw [MinixFSZone.linked_of_ne hlink, MinixFSSuperblock.arrayAt, hdisk, ← h.length,
    readArray_setArray h.lt]

/-- What a flush leaves: the links lead to the arrays, and only their blocks have changed. -/
structure Flushed (s : MinixFSSuperblock) (links : List ℕ) (entries : List (Option (List ℕ)))
    (u : MinixFSSuperblock) : Prop where
  frame : u = { s with disk := u.disk }
  reads : links.map u.linked = entries
  others : ∀ zone, zone ∉ blocksOf links → u.disk zone = s.disk zone

theorem wp_flushDouble {v3 : Bool} {links : List ℕ} {entries : List (Option (List ℕ))}
    (h : List.Forall₂ (Linked v3) links entries) (hv : s.v3 = v3)
    (hrange : ∀ link ∈ links, link ≠ 0 → s.InRange link) (hnodup : (blocksOf links).Nodup) :
    wp (fun _ => False) (MinixFSZone.flushDouble v3 links entries)
      (fun _ u => Flushed s links entries u) s := by
  induction h generalizing s with
  | nil => exact (wp_pure _).mpr ⟨rfl, rfl, fun _ _ => rfl⟩
  | @cons link e links entries hlink h ih =>
    rw [MinixFSZone.flushDouble]
    cases hlink with
    | none =>
      simp only [ne_eq, not_true_eq_false, if_false]
      refine wp_mono (ih hv (fun l hl => hrange l (List.mem_cons_of_mem _ hl)) hnodup) ?_
      intro _ u hu
      refine ⟨hu.frame, ?_, hu.others⟩
      rw [List.map_cons, MinixFSZone.linked_zero, hu.reads]
    | @some link zones hne harray =>
      rw [blocksOf_cons hne, List.nodup_cons] at hnodup
      have hin : s.InRange link := hrange link List.mem_cons_self hne
      simp only [ne_eq, hne, not_false_eq_true, if_true, List.headD_cons, wp_bind, Fs.wp_writeZone]
      refine ⟨fun _ => ?_, fun hout => absurd hin hout⟩
      refine wp_mono (ih hv (fun l hl => hrange l (List.mem_cons_of_mem _ hl)) hnodup.2) ?_
      intro _ u hu
      have hkept : u.disk (link % 2 ^ 16) = setArray s.v3 0 zones fun _ => 0 := by
        rw [hu.others _ hnodup.1, hv]
        exact update_self ..
      have huv : u.v3 = s.v3 := by rw [hu.frame]
      refine ⟨by rw [hu.frame], ?_, fun zone hzone => ?_⟩
      · rw [List.map_cons, hu.reads, linked_of_disk hne (by rw [huv, hv]; exact harray) (by rw [huv]; exact hkept)]
      · rw [blocksOf_cons hne, List.mem_cons, not_or] at hzone
        rw [hu.others zone hzone.2]
        exact update_of_ne hzone.1 ..

/-- Where the zones are in an entry. -/
def MinixFSSuperblock.zonesOffset (s : MinixFSSuperblock) : ℕ :=
  INODE_BYTES s.v3 * (7 - V3_OFFSET s.v3)

theorem zonesOffset_end (s : MinixFSSuperblock) :
    s.zonesOffset + NUM_ZONES s.v3 * INODE_BYTES s.v3 = INODE_SIZE s.v3 := by
  unfold MinixFSSuperblock.zonesOffset
  cases s.v3 with
  | false => rfl
  | true => rfl

theorem inodeOffset_fits (s : MinixFSSuperblock) (i_num : ℕ) :
    s.inodeOffset i_num + INODE_SIZE s.v3 ≤ BLOCK_SIZE := by
  rw [s.inodeOffset_eq i_num]
  refine slot_fits (Nat.mod_lt _ ?_)
  cases s.v3 with
  | false => decide
  | true => decide

/-- The direct zones are in the entry, the others behind their links. -/
structure FlushedTree (s : MinixFSSuperblock) (t : MinixFSZone) (i_num : ℕ) (u : MinixFSSuperblock) :
    Prop where
  frame : u = { s with disk := u.disk }
  block : u.disk (s.inodeBlock i_num % 2 ^ 16) = Fs.patch (s.disk (s.inodeBlock i_num % 2 ^ 16))
    (s.inodeOffset i_num + s.zonesOffset) (NUM_ZONES s.v3 * INODE_BYTES s.v3)
    (setArray s.v3 0 t.direct_zones_ fun _ => 0)
  tree : treeOf u t.direct_zones_ = t
  others : ∀ zone, zone ∉ s.inodeBlock i_num % 2 ^ 16 :: blocksOf t.links →
    u.disk zone = s.disk zone

/-- The arrays behind the linking zones. -/
def MinixFSZone.arrays (t : MinixFSZone) : List (Option (List ℕ)) :=
  t.indirect_zones_ :: t.double_indirect_linking_zone_ :: t.double_indirect_zones_.getD []

theorem TreeOk.linked {v3 : Bool} {t : MinixFSZone} (ht : TreeOk v3 t) :
    List.Forall₂ (Linked v3) t.links t.arrays := by
  refine .cons ht.indirect (.cons ht.linking ?_)
  obtain ⟨hl, hd⟩ | ⟨links, entries, hl, hd, h⟩ := ht.shape
  · rw [hl, hd]
    exact .nil
  · rw [hl, hd]
    exact h

/-- `flush` handles the two links in the entry as `flushDouble` does the others. -/
theorem flush_eq {v3 : Bool} {t : MinixFSZone} (ht : TreeOk v3 t) (i_num : ℕ) :
    t.flush i_num = (do
      let s ← get
      Fs.writeBytes (s.inodeBlock i_num) (s.inodeOffset i_num + s.zonesOffset)
        (NUM_ZONES s.v3 * INODE_BYTES s.v3) (setArray s.v3 0 t.direct_zones_ fun _ => 0)
      MinixFSZone.flushDouble s.v3 t.links t.arrays) := by
  obtain ⟨-, -, hindirect, hlinking, hdouble, -⟩ := ht
  unfold MinixFSZone.flush MinixFSZone.links MinixFSZone.arrays
  simp only [MinixFSZone.flushDouble, List.headD_cons, List.tail_cons]
  generalize t.direct_zones_.getD 7 0 = d7 at *
  generalize t.direct_zones_.getD 8 0 = d8 at *
  generalize t.indirect_zones_ = indirect at *
  generalize t.double_indirect_linking_zone_ = linking at *
  generalize t.double_indirect_zones_ = double at *
  congr 1
  funext s
  congr 1
  funext _
  cases hindirect with
  | none =>
    cases hlinking with
    | none =>
      cases hdouble
      rfl
    | some hne8 harray =>
      cases hdouble with
      | some h => simp [hne8]
  | some hne7 harray =>
    cases hlinking with
    | none =>
      cases hdouble
      simp [hne7, MinixFSZone.flushDouble]
    | some hne8 harray =>
      cases hdouble with
      | some h => simp [hne7, hne8]

/-- The links of a tree determine it. -/
theorem treeOf_eq {v3 : Bool} {t : MinixFSZone} (ht : TreeOk v3 t)
    (hreads : t.links.map s.linked = t.arrays) : treeOf s t.direct_zones_ = t := by
  obtain ⟨hindirect, hrest⟩ := List.cons.inj hreads
  obtain ⟨hlinking, hentries⟩ := List.cons.inj hrest
  have hdouble : t.double_indirect_linking_zone_.map (fun links => links.map s.linked) =
      t.double_indirect_zones_ := by
    obtain ⟨hl, hd⟩ | ⟨links, entries, hl, hd, -⟩ := ht.shape
    · rw [hl, hd]
      rfl
    · rw [hl, hd] at hentries
      rw [hl, hd]
      exact congrArg some hentries
  simp only [treeOf, hindirect, hlinking, hdouble]
  rw [← ht.count]

theorem wp_flush {t : MinixFSZone} {i_num : ℕ} (ht : TreeOk s.v3 t)
    (hblock : s.InRange (s.inodeBlock i_num)) (hrange : ∀ link ∈ t.links, link ≠ 0 → s.InRange link)
    (hnodup : (s.inodeBlock i_num % 2 ^ 16 :: blocksOf t.links).Nodup) :
    wp (fun _ => False) (t.flush i_num) (fun _ u => FlushedTree s t i_num u) s := by
  have hfits := inodeOffset_fits s i_num
  have hend := zonesOffset_end s
  rw [List.nodup_cons] at hnodup
  rw [flush_eq ht, wp_bind, wp_get, wp_bind]
  refine Fs.wp_writeBytes (by omega) hblock ?_
  refine wp_mono (wp_flushDouble ht.linked rfl hrange hnodup.2) fun _ u hu => ?_
  refine ⟨by rw [hu.frame], ?_, ?_, fun zone hzone => ?_⟩
  · rw [hu.others _ hnodup.1]
    exact update_self ..
  · exact treeOf_eq ht hu.reads
  · rw [List.mem_cons, not_or] at hzone
    rw [hu.others zone hzone.2]
    exact update_of_ne hzone.1 ..

/-- The zones in the entry are the direct ones. -/
theorem FlushedTree.entryZones {t : MinixFSZone} {i_num : ℕ} {u : MinixFSSuperblock}
    (h : FlushedTree s t i_num u) (ht : TreeOk s.v3 t) : u.entryZones i_num = t.direct_zones_ := by
  have hend := zonesOffset_end s
  have hv : u.v3 = s.v3 := by rw [h.frame]
  have hentry : ∀ k, u.entry i_num k = u.disk (s.inodeBlock i_num % 2 ^ 16) (s.inodeOffset i_num + k) := by
    intro k
    rw [MinixFSSuperblock.entry, h.frame]
    rfl
  rw [MinixFSSuperblock.entryZones, hv, readArray_shift, ← ht.direct]
  have hread : readArray s.v3 (setArray s.v3 0 t.direct_zones_ fun _ => 0) 0 t.direct_zones_.length =
      t.direct_zones_ := readArray_setArray ht.direct_lt
  refine (readArray_congr fun k _ hk => ?_).trans hread
  rw [Nat.zero_add, ht.direct, mul_comm] at hk
  have hoff : INODE_BYTES s.v3 * (7 - V3_OFFSET s.v3) = s.zonesOffset := rfl
  rw [hentry, h.block, hoff, Fs.patch, if_pos (by omega), show s.inodeOffset i_num + (s.zonesOffset + k) -
    (s.inodeOffset i_num + s.zonesOffset) = k by omega]

theorem treeInRange_of_links {t : MinixFSZone} (htree : treeOf s t.direct_zones_ = t)
    (hlinks : ∀ link ∈ t.links, link ≠ 0 → s.InRange link) : TreeInRange s t.direct_zones_ := by
  have hlinking := congrArg MinixFSZone.double_indirect_linking_zone_ htree
  refine ⟨fun h7 => ?_, fun h8 => ?_, fun h8 link hlink hne => ?_⟩
  · exact hlinks _ List.mem_cons_self h7
  · exact hlinks _ (List.mem_cons_of_mem _ List.mem_cons_self) h8
  · have hsome : some (s.arrayAt (t.direct_zones_.getD 8 0)) = t.double_indirect_linking_zone_ := by
      rw [← hlinking]
      exact (MinixFSZone.linked_of_ne h8).symm
    refine hlinks link ?_ hne
    rw [MinixFSZone.links, ← hsome]
    exact List.mem_cons_of_mem _ (List.mem_cons_of_mem _ hlink)

/-! ### The entry -/

/-- The buffer of `writeInode`, which has not been filled from the disk. -/
def MinixFSInode.header (v3 : Bool) (inode : MinixFSInode) : Block :=
  let buffer : Block := fun _ => 0
  let buffer := store 2 buffer 0 (load 2 buffer 0 ||| MinixFSSuperblock.modeBits inode.i_type_)
  let buffer := store 4 buffer (4 * (1 + V3_OFFSET v3)) inode.i_size_
  if v3 then store 2 buffer 2 inode.i_nlink_ else store 1 buffer 13 inode.i_nlink_

/-- An inode in memory as the other functions leave it: it is allocated, its zone tree is
complete, and its linking zones are different blocks of the device. -/
structure InodeState (s : MinixFSSuperblock) (i_num : ℕ) (inode : MinixFSInode) : Prop where
  loaded : s.all_inodes_ i_num = some inode
  allocated : s.allocated i_num
  kind : inode.i_type_ = .file ∨ inode.i_type_ = .dir
  size : inode.i_size_ < 2 ^ 32
  tree : TreeOk s.v3 inode.i_zones_
  block : s.InRange (s.inodeBlock i_num)
  links : ∀ link ∈ inode.i_zones_.links, link ≠ 0 → s.InRange link
  apart : (s.inodeBlock i_num % 2 ^ 16 :: blocksOf inode.i_zones_.links).Nodup

structure Written (s : MinixFSSuperblock) (i_num : ℕ) (inode : MinixFSInode)
    (t : MinixFSSuperblock) : Prop where
  frame : t = { s with disk := t.disk }
  header : ∀ k < s.zonesOffset, t.entry i_num k = inode.header s.v3 k
  zones : t.entryZones i_num = inode.i_zones_.direct_zones_
  tree : treeOf t inode.i_zones_.direct_zones_ = inode.i_zones_
  rest : ∀ k, k < s.inodeOffset i_num ∨ s.inodeOffset i_num + INODE_SIZE s.v3 ≤ k →
    t.disk (s.inodeBlock i_num % 2 ^ 16) k = s.disk (s.inodeBlock i_num % 2 ^ 16) k
  others : ∀ zone, zone ∉ s.inodeBlock i_num % 2 ^ 16 :: blocksOf inode.i_zones_.links →
    t.disk zone = s.disk zone

section Entry

variable {i_num : ℕ} {inode : MinixFSInode}

theorem wp_readBytes {allowed : Panic → Prop} {block offset size : ℕ} {buffer : Block}
    {Q : Block → MinixFSSuperblock → Prop} (hsize : offset + size ≤ BLOCK_SIZE)
    (hblock : s.InRange block) (hQ : Q buffer s) :
    wp allowed (Fs.readBytes block offset size buffer) Q s := by
  rw [Fs.readBytes, wp_bind, Fs.wp_assert]
  refine ⟨fun _ => ?_, fun h => absurd hsize h⟩
  rw [wp_bind, Fs.wp_readZone]
  exact ⟨fun _ => (wp_pure _).mpr hQ, fun h => absurd hblock h⟩

theorem wp_inode {allowed : Panic → Prop} {Q : MinixFSInode → MinixFSSuperblock → Prop}
    (h : s.all_inodes_ i_num = some inode) (hQ : Q inode s) : wp allowed (Fs.inode i_num) Q s := by
  rw [Fs.inode, wp_bind, wp_get, h]
  exact (wp_pure _).mpr hQ

theorem wp_writeInode (h : InodeState s i_num inode) :
    wp (fun _ => False) (MinixFSSuperblock.writeInode i_num)
      (fun _ t => Written s i_num inode t) s := by
  have hfits := inodeOffset_fits s i_num
  have hend := zonesOffset_end s
  rw [MinixFSSuperblock.writeInode, wp_bind, wp_get, wp_bind]
  refine wp_inode h.loaded ?_
  rw [wp_bind]
  refine wp_readBytes hfits h.block ?_
  rw [wp_bind]
  refine Fs.wp_writeBytes hfits h.block ?_
  refine wp_mono (wp_flush h.tree h.block h.links h.apart) fun _ t ht => ?_
  have hv : t.v3 = s.v3 := by rw [ht.frame]
  have hframe : t = { s with disk := t.disk } := by rw [ht.frame]
  have hblock : t.inodeBlock i_num = s.inodeBlock i_num := by rw [ht.frame]; rfl
  have hoffset : t.inodeOffset i_num = s.inodeOffset i_num := by rw [ht.frame]; rfl
  have hdisk : t.disk (s.inodeBlock i_num % 2 ^ 16) = Fs.patch
      (Fs.patch (s.disk (s.inodeBlock i_num % 2 ^ 16)) (s.inodeOffset i_num) (INODE_SIZE s.v3)
        (inode.header s.v3)) (s.inodeOffset i_num + s.zonesOffset)
      (NUM_ZONES s.v3 * INODE_BYTES s.v3)
      (setArray s.v3 0 inode.i_zones_.direct_zones_ fun _ => 0) := by
    refine ht.block.trans (congrArg (fun b => Fs.patch b _ _ _) ?_)
    exact update_self ..
  have hentry : ∀ k, t.entry i_num k =
      t.disk (s.inodeBlock i_num % 2 ^ 16) (s.inodeOffset i_num + k) := by
    intro k
    rw [MinixFSSuperblock.entry, hblock, hoffset]
  refine ⟨hframe, fun k hk => ?_, ?_, ht.tree, fun k hk => ?_, fun zone hzone => ?_⟩
  · rw [hentry, hdisk, Fs.patch, if_neg (by omega), Fs.patch, if_pos (by omega),
      Nat.add_sub_cancel_left]
  · exact ht.entryZones h.tree
  · rw [hdisk, Fs.patch, if_neg (by omega), Fs.patch, if_neg (by omega)]
  · rw [ht.others zone hzone]
    rw [List.mem_cons, not_or] at hzone
    exact update_of_ne hzone.1 ..

/-- The bytes of an entry that `writeInode` does not own: the owners and the times. -/
def Unowned (v3 : Bool) (k : ℕ) : Prop :=
  if v3 then 4 ≤ k ∧ k < 8 ∨ 12 ≤ k ∧ k < 24 else 2 ≤ k ∧ k < 4 ∨ 8 ≤ k ∧ k < 13

theorem load_zero (n a : ℕ) : load n (fun _ => 0) a = 0 := load_eq_zero.mpr fun _ _ _ => rfl

theorem header_mode (v3 : Bool) (inode : MinixFSInode) :
    load 2 (inode.header v3) 0 = MinixFSSuperblock.modeBits inode.i_type_ := by
  have hmode : MinixFSSuperblock.modeBits inode.i_type_ < 256 ^ 2 := by
    cases inode.i_type_ with
    | file => decide
    | dir => decide
    | dead => decide
  unfold MinixFSInode.header
  dsimp only
  rw [load_zero, Nat.zero_or]
  split
  · rw [load_store_apart (by omega), load_store_apart (by omega), store_of_lt hmode]
  · rw [load_store_apart (by omega), load_store_apart (by omega), store_of_lt hmode]

theorem header_size (v3 : Bool) (h : inode.i_size_ < 2 ^ 32) :
    load 4 (inode.header v3) (4 * (1 + V3_OFFSET v3)) = inode.i_size_ := by
  cases v3 with
  | false => exact (load_store_apart (by decide)).trans (store_of_lt h)
  | true => exact (load_store_apart (by decide)).trans (store_of_lt h)

theorem header_nlink (inode : MinixFSInode) :
    load 2 (inode.header true) 2 = inode.i_nlink_ % 2 ^ 16 := load_store ..

theorem header_unowned {v3 : Bool} {k : ℕ} (h : Unowned v3 k) (inode : MinixFSInode) :
    inode.header v3 k = 0 := by
  cases v3 with
  | false =>
    have hk : 2 ≤ k ∧ k < 4 ∨ 8 ≤ k ∧ k < 13 := h
    show store 1 (store 4 (store 2 _ 0 _) 4 _) 13 _ k = 0
    rw [store_apart (by omega), store_apart (by omega), store_apart (by omega)]
  | true =>
    have hk : 4 ≤ k ∧ k < 8 ∨ 12 ≤ k ∧ k < 24 := h
    show store 2 (store 4 (store 2 _ 0 _) 8 _) 2 _ k = 0
    rw [store_apart (by omega), store_apart (by omega), store_apart (by omega)]

theorem Unowned.lt (s : MinixFSSuperblock) {k : ℕ} (h : Unowned s.v3 k) : k < s.zonesOffset := by
  unfold MinixFSSuperblock.zonesOffset
  generalize s.v3 = v3 at *
  cases v3 with
  | false =>
    have hk : 2 ≤ k ∧ k < 4 ∨ 8 ≤ k ∧ k < 13 := h
    show k < 14
    omega
  | true =>
    have hk : 4 ≤ k ∧ k < 8 ∨ 12 ≤ k ∧ k < 24 := h
    show k < 24
    omega

variable {t : MinixFSSuperblock}

/-- A field in front of the zones. -/
theorem Written.field (ht : Written s i_num inode t) {n a : ℕ} (h : a + n ≤ s.zonesOffset) :
    load n (t.entry i_num) a = load n (inode.header s.v3) a :=
  load_congr fun k _ hk => ht.header k (by omega)

theorem zonesOffset_ge (s : MinixFSSuperblock) : 4 * (1 + V3_OFFSET s.v3) + 4 ≤ s.zonesOffset := by
  unfold MinixFSSuperblock.zonesOffset
  cases s.v3 with
  | false => decide
  | true => decide

theorem typeOf_modeBits (h : inode.i_type_ = .file ∨ inode.i_type_ = .dir) :
    MinixFSInode.typeOf (MinixFSSuperblock.modeBits inode.i_type_) = some inode.i_type_ := by
  rcases h with heq | heq
  · rw [heq]
    decide
  · rw [heq]
    decide

theorem Written.treeInRange (ht : Written s i_num inode t) (h : InodeState s i_num inode) :
    TreeInRange t inode.i_zones_.direct_zones_ := by
  have hrange : ∀ zone, t.InRange zone ↔ s.InRange zone := by
    intro zone
    rw [MinixFSSuperblock.InRange, ht.frame]
    rfl
  exact treeInRange_of_links ht.tree fun link hlink hne => (hrange link).mpr (h.links link hlink hne)

theorem Written.entryOk (ht : Written s i_num inode t) (h : InodeState s i_num inode) :
    EntryOk t i_num inode.i_type_ := by
  have hge := zonesOffset_ge s
  refine ⟨?_, ?_, ?_⟩
  · rw [ht.frame]
    exact h.block
  · rw [ht.field (by omega), header_mode, typeOf_modeBits h.kind]
  · rw [ht.zones]
    exact ht.treeInRange h

/-- What `getInode` makes of the entry. -/
theorem Written.decoded (ht : Written s i_num inode t) (h : InodeState s i_num inode) :
    t.decoded i_num inode.i_type_ = ⟨i_num, inode.i_type_, inode.i_size_,
      load 2 (inode.header s.v3) (2 * V3_OFFSET s.v3), inode.i_zones_, none, 0, false, []⟩ := by
  have hge := zonesOffset_ge s
  have hv : t.v3 = s.v3 := by rw [ht.frame]
  rw [MinixFSSuperblock.decoded, ht.zones, ht.tree, hv, ht.field hge, ht.field (by omega),
    header_size s.v3 h.size]

/-! ### Which inodes come back -/

/-- The fields that are meant to survive. -/
structure SameFields (a b : MinixFSInode) : Prop where
  i_type_ : a.i_type_ = b.i_type_
  i_size_ : a.i_size_ = b.i_size_
  i_nlink_ : a.i_nlink_ = b.i_nlink_
  i_zones_ : a.i_zones_ = b.i_zones_

/-- From `s`, in which the inode is written, to `t`. -/
structure PersistsTo (s : MinixFSSuperblock) (i_num : ℕ) (inode : MinixFSInode) (garbage : Block)
    (t : MinixFSSuperblock) : Prop where
  getInode : ∃ inode', (MinixFSSuperblock.getInode i_num).run t = .ok (some inode', t) ∧
    SameFields inode' inode
  readInode : ∃ u inode', (MinixFSSuperblock.readInode i_num garbage).run t = .ok (⟨⟩, u) ∧
    u.all_inodes_ i_num = some inode' ∧ SameFields inode' inode
  unowned : ∀ k, Unowned s.v3 k → t.entry i_num k = s.entry i_num k
  otherModeBits : ∀ bit, (MinixFSSuperblock.modeBits inode.i_type_).testBit bit = false →
    (load 2 (t.entry i_num) 0).testBit bit = (load 2 (s.entry i_num) 0).testBit bit
  otherInodes : ∀ k, k < s.inodeOffset i_num ∨ s.inodeOffset i_num + INODE_SIZE s.v3 ≤ k →
    t.disk (s.inodeBlock i_num % 2 ^ 16) k = s.disk (s.inodeBlock i_num % 2 ^ 16) k

def Persists (s : MinixFSSuperblock) (i_num : ℕ) (inode : MinixFSInode) (garbage : Block) : Prop :=
  ∃ t, (MinixFSSuperblock.writeInode i_num).run s = .ok (⟨⟩, t) ∧ PersistsTo s i_num inode garbage t

/-- What it takes. `readInode` decodes what its buffer on the stack happens to hold. -/
structure PersistsWhen (s : MinixFSSuperblock) (i_num : ℕ) (inode : MinixFSInode)
    (garbage : Block) : Prop where
  v3 : s.v3 = true
  used : i_num < s.storage_manager_.getNumUsedInodes
  nlink : inode.i_nlink_ < 2 ^ 16
  unowned : ∀ k, Unowned s.v3 k → s.entry i_num k = 0
  otherModeBits : ∀ bit, (MinixFSSuperblock.modeBits inode.i_type_).testBit bit = false →
    (load 2 (s.entry i_num) 0).testBit bit = false
  stackSize : load 4 garbage (4 * (1 + V3_OFFSET s.v3)) = inode.i_size_
  stackNlink : load 2 garbage 2 = inode.i_nlink_
  stackZones : readArray s.v3 garbage (7 - V3_OFFSET s.v3) (NUM_ZONES s.v3) =
    inode.i_zones_.direct_zones_

/-- The inode that `readInode` leaves. -/
def MinixFSInode.reread (inode : MinixFSInode) (s : MinixFSSuperblock) (buffer : Block) :
    MinixFSInode :=
  { inode with
    i_zones_ := treeOf s (readArray s.v3 buffer (7 - V3_OFFSET s.v3) (NUM_ZONES s.v3))
    i_nlink_ := if s.v3 then load 2 buffer 2 else MinixFSSuperblock.extend (load 1 buffer 13)
    i_size_ := load 4 buffer (4 * (1 + V3_OFFSET s.v3)) }

theorem wp_readInode {allowed : Panic → Prop} {garbage : Block}
    {Q : PUnit → MinixFSSuperblock → Prop} (hloaded : s.all_inodes_ i_num = some inode)
    (hblock : s.InRange (s.inodeBlock i_num)) :
    wp allowed (MinixFSSuperblock.readInode i_num garbage) Q s ↔
      (TreeInRange s (readArray s.v3 garbage (7 - V3_OFFSET s.v3) (NUM_ZONES s.v3)) →
        Q ⟨⟩ { s with all_inodes_ := update s.all_inodes_ i_num (some (inode.reread s garbage)) }) ∧
      (¬TreeInRange s (readArray s.v3 garbage (7 - V3_OFFSET s.v3) (NUM_ZONES s.v3)) →
        allowed .outOfRange) := by
  have hfits := inodeOffset_fits s i_num
  have hin : s.inodeBlock i_num % 2 ^ 16 < s.num_blocks := hblock
  simp only [MinixFSSuperblock.readInode, Fs.inode, Fs.readBytes, Fs.setInode, wp_bind, wp_get,
    hloaded, wp_pure, Fs.wp_assert, hfits, Fs.wp_readZone, MinixFSSuperblock.InRange, hin,
    MinixFSZone.wp_new, wp_modify, MinixFSInode.reread, not_true_eq_false, forall_const,
    false_imp_iff, and_true]

theorem Written.frame_v3 (ht : Written s i_num inode t) : t.v3 = s.v3 := by rw [ht.frame]

theorem Written.frame_inode (ht : Written s i_num inode t) (h : InodeState s i_num inode) :
    t.all_inodes_ i_num = some inode := by
  rw [ht.frame]
  exact h.loaded

/-- What the old format makes of the link count: the mode, or a `char`. -/
theorem old_nlink_lost (inode : MinixFSInode) (garbage : Block) :
    MinixFSSuperblock.modeBits inode.i_type_ ≠ MinixFSSuperblock.extend (load 1 garbage 13) ∨
      inode.i_type_ = .dead := by
  have hbyte : load 1 garbage 13 < 256 := (garbage 13).toNat_lt
  unfold MinixFSSuperblock.extend
  cases inode.i_type_ with
  | file =>
    left
    show 0x81FF ≠ _
    split
    · omega
    · omega
  | dir =>
    left
    show 0x41FF ≠ _
    split
    · omega
    · omega
  | dead => exact .inr rfl

/-- What `getInode` finds after `writeInode`, if it does not refuse the inode. -/
theorem Written.run_getInode (ht : Written s i_num inode t) (h : InodeState s i_num inode)
    (hused : i_num < s.storage_manager_.getNumUsedInodes) :
    (MinixFSSuperblock.getInode i_num).run t =
      .ok (some (t.decoded i_num inode.i_type_), t) := by
  have hmanager : t.storage_manager_ = s.storage_manager_ := by rw [ht.frame]
  have hallocated : t.allocated i_num := by
    rw [MinixFSSuperblock.allocated, hmanager]
    exact h.allocated
  have hget : wp (fun _ => False) (MinixFSSuperblock.getInode i_num)
      (fun r u => u = t ∧ r = some (t.decoded i_num inode.i_type_)) t :=
    MinixFSSuperblock.wp_getInode_set (by rw [hmanager]; exact hused) hallocated (ht.entryOk h)
      ⟨rfl, rfl⟩
  obtain ⟨r, u, hrun, rfl, rfl⟩ := returns_of_wp hget
  exact hrun

theorem Written.run_readInode (ht : Written s i_num inode t) (h : InodeState s i_num inode)
    {garbage : Block} {u : MinixFSSuperblock}
    (hrun : (MinixFSSuperblock.readInode i_num garbage).run t = .ok (⟨⟩, u)) :
    u.all_inodes_ i_num = some (inode.reread t garbage) := by
  have hread : wp (fun _ => True) (MinixFSSuperblock.readInode i_num garbage)
      (fun _ u => u.all_inodes_ i_num = some (inode.reread t garbage)) t := by
    rw [wp_readInode (ht.frame_inode h) (ht.entryOk h).block]
    exact ⟨fun _ => update_self .., fun _ => trivial⟩
  have hu := of_wp hread hrun
  exact hu

theorem Written.used_of_getInode (ht : Written s i_num inode t) {inode' : MinixFSInode}
    (hrun : (MinixFSSuperblock.getInode i_num).run t = .ok (some inode', t)) :
    i_num < s.storage_manager_.getNumUsedInodes := by
  by_contra hrefused
  have hmanager : t.storage_manager_ = s.storage_manager_ := by rw [ht.frame]
  have hget : wp (fun _ => True) (MinixFSSuperblock.getInode i_num) (fun r _ => r = none) t :=
    MinixFSSuperblock.wp_getInode_refused (by rw [hmanager]; omega) rfl
  cases of_wp hget hrun

/-- `writeInode` keeps what it should exactly in the new format, for an inode that is not refused
and whose other fields are clear, and if the stack happens to hold the inode already. -/
theorem writeInode_persists_iff (h : InodeState s i_num inode) (garbage : Block) :
    Persists s i_num inode garbage ↔ PersistsWhen s i_num inode garbage := by
  constructor
  · rintro ⟨t, hrun, hget, hread, hunowned, hmode, -⟩
    have ht := of_wp (wp_writeInode h) hrun
    obtain ⟨found, hfound, hfsame⟩ := hget
    obtain ⟨u, reread, hreread, hloaded, hrsame⟩ := hread
    have hused := ht.used_of_getInode hfound
    rw [ht.run_getInode h hused] at hfound
    cases hfound
    rw [ht.run_readInode h hreread] at hloaded
    cases hloaded
    rw [ht.decoded h] at hfsame
    have hnlink : load 2 (inode.header s.v3) (2 * V3_OFFSET s.v3) = inode.i_nlink_ := hfsame.i_nlink_
    have hnlink' := hrsame.i_nlink_
    have hsize := hrsame.i_size_
    have hzones := congrArg MinixFSZone.direct_zones_ hrsame.i_zones_
    simp only [MinixFSInode.reread, treeOf, ht.frame_v3] at hnlink' hsize hzones
    have hv : s.v3 = true := by
      by_contra hold
      rw [Bool.not_eq_true] at hold
      rw [hold] at hnlink hnlink'
      rw [show 2 * V3_OFFSET false = 0 from rfl, header_mode] at hnlink
      rcases old_nlink_lost inode garbage with hne | hdead
      · exact hne (hnlink.trans hnlink'.symm)
      · rcases h.kind with hkind | hkind
        · rw [hkind] at hdead
          cases hdead
        · rw [hkind] at hdead
          cases hdead
    refine ⟨hv, hused, ?_, fun k hk => ?_, fun bit hbit => ?_, hsize, ?_, hzones⟩
    · rw [hv, show 2 * V3_OFFSET true = 2 from rfl, header_nlink] at hnlink
      omega
    · rw [← hunowned k hk, ht.header k (hk.lt s), header_unowned hk]
    · rw [← hmode bit hbit, ht.field (by have := zonesOffset_ge s; omega), header_mode, hbit]
    · rw [hv] at hnlink'
      exact hnlink'
  · intro hw
    obtain ⟨⟨⟩, t, hrun, ht⟩ := returns_of_wp (wp_writeInode h)
    refine ⟨t, hrun, ⟨_, ht.run_getInode h hw.used, ?_⟩, ?_, fun k hk => ?_, fun bit hbit => ?_,
      ht.rest⟩
    · rw [ht.decoded h, hw.v3]
      refine ⟨rfl, rfl, ?_, rfl⟩
      show load 2 _ 2 = _
      rw [header_nlink, Nat.mod_eq_of_lt hw.nlink]
    · have hzones : readArray t.v3 garbage (7 - V3_OFFSET t.v3) (NUM_ZONES t.v3) =
          inode.i_zones_.direct_zones_ := by
        rw [ht.frame_v3]
        exact hw.stackZones
      have hread : wp (fun _ => False) (MinixFSSuperblock.readInode i_num garbage)
          (fun _ u => u.all_inodes_ i_num = some (inode.reread t garbage)) t := by
        rw [wp_readInode (ht.frame_inode h) (ht.entryOk h).block, hzones]
        exact ⟨fun _ => update_self .., fun hout => hout (ht.treeInRange h)⟩
      obtain ⟨⟨⟩, u, hreread, hu⟩ := returns_of_wp hread
      refine ⟨u, _, hreread, hu, rfl, ?_, ?_, ?_⟩
      · show load 4 garbage (4 * (1 + V3_OFFSET t.v3)) = _
        rw [ht.frame_v3]
        exact hw.stackSize
      · show (if t.v3 then load 2 garbage 2 else _) = _
        rw [ht.frame_v3, hw.v3]
        exact hw.stackNlink
      · show treeOf t _ = _
        rw [hzones, ht.tree]
    · rw [ht.header k (hk.lt s), header_unowned hk, hw.unowned k hk]
    · rw [hw.otherModeBits bit hbit, ht.field (by have := zonesOffset_ge s; omega), header_mode, hbit]

end Entry

/-- A file of five bytes in zone 20. -/
def fiveBytes : MinixFSInode :=
  ⟨2, .file, 5, 1, ⟨[20, 0, 0, 0, 0, 0, 0, 0, 0, 0], none, none, none, 1⟩, none, 0, false, []⟩

/-- Inode 2 is loaded; its entry holds an owner and nothing else. -/
def ownedBy (i_uid : UInt8) : MinixFSSuperblock where
  v3 := true
  s_num_inode_bm_blocks_ := 1
  s_num_zone_bm_blocks_ := 1
  s_1st_datazone_ := 5
  storage_manager_ := ⟨⟨8, 3, [0x07]⟩, Bitmap.new 32, 0, 0, 1, 1⟩
  disk := fun zone k => if zone = 4 ∧ k = 68 then i_uid else 0
  num_blocks := 64
  all_inodes_ := fun i_num => if i_num = 2 then some fiveBytes else none
  dentries := fun _ => none
  next_dentry := 0

theorem ownedBy_state (i_uid : UInt8) : InodeState (ownedBy i_uid) 2 fiveBytes where
  loaded := rfl
  allocated := by
    have hset : 2 < 8 ∧ Bitmap.getBit [0x07] 2 = true := by decide +kernel
    exact hset
  kind := .inl rfl
  size := by decide
  tree := by
    have hlt : ∀ zone ∈ fiveBytes.i_zones_.direct_zones_, zone < 256 ^ INODE_BYTES true := by decide
    exact ⟨rfl, hlt, .none, .none, .none, rfl⟩
  block := by
    show (ownedBy 0).inodeBlock 2 % 2 ^ 16 < 64
    decide
  links := by
    intro link hlink hne
    have hzero : ∀ link ∈ fiveBytes.i_zones_.links, link = 0 := by decide
    exact absurd (hzero link hlink) hne
  apart := by
    show ((ownedBy 0).inodeBlock 2 % 2 ^ 16 :: blocksOf fiveBytes.i_zones_.links).Nodup
    decide

/-- A stack on which the fields of the inode lie where `readInode` looks for them. -/
def luckyStack : Block := fun k => if k = 2 then 1 else if k = 8 then 5 else if k = 24 then 20 else 0

theorem fiveBytes_persists : Persists (ownedBy 0) 2 fiveBytes luckyStack := by
  refine (writeInode_persists_iff (ownedBy_state 0) luckyStack).mpr ⟨rfl, by decide, by decide,
    fun k _ => ?_, fun bit _ => ?_, by decide, by decide, by decide⟩
  · show (if _ then (0 : UInt8) else 0) = 0
    rw [ite_self]
  · have hzero : load 2 ((ownedBy 0).entry 2) 0 = 0 := by decide
    rw [hzero, Nat.zero_testBit]

/-- The owner of the file is lost. -/
theorem fiveBytes_loses_owner : InodeState (ownedBy 7) 2 fiveBytes ∧ (ownedBy 7).entry 2 4 = 7 ∧
    (∀ t, (MinixFSSuperblock.writeInode 2).run (ownedBy 7) = .ok (⟨⟩, t) → t.entry 2 4 = 0) ∧
    ¬Persists (ownedBy 7) 2 fiveBytes luckyStack := by
  have howner : ∀ t, (MinixFSSuperblock.writeInode 2).run (ownedBy 7) = .ok (⟨⟩, t) →
      t.entry 2 4 = 0 := by
    intro t hrun
    have ht := of_wp (wp_writeInode (ownedBy_state 7)) hrun
    rw [ht.header 4 (by decide)]
    have hunowned : Unowned true 4 := .inl ⟨le_rfl, by decide⟩
    exact header_unowned hunowned fiveBytes
  refine ⟨ownedBy_state 7, rfl, howner, ?_⟩
  rintro ⟨t, hrun, hpersists⟩
  have hkept := hpersists.unowned 4 (.inl ⟨le_rfl, by decide⟩)
  rw [howner t hrun] at hkept
  cases hkept

end KPanic.Minix
