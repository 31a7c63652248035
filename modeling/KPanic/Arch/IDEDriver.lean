import KPanic.Lib.Bytes
import KPanic.Lib.LinkGraph

/-!
# `arch/x86/common/source/IDEDriver.cpp`: the scan for partitions

`processMBR` calls itself for the tables that the entries of a table lead to. The calls come to an end
where these links do not lead back to a table, and the device of a partition has the start of the
partition as its offset in the table of sector 0 only.
-/

namespace KPanic.IDE

open Bytes (Memory load store)
open LinkGraph
open Relation

/-! ### The tables -/

structure FP where
  systid : ℕ
  relsect : ℕ
  numsect : ℕ
  deriving DecidableEq

/-- What `rawReadSector` puts into `buff`, if it returns 0. -/
abbrev Disk := ℕ → Option Memory

def signature (buff : Memory) : ℕ := load 2 buff 510

def part (buff : Memory) (i : ℕ) : FP :=
  let fp := 446 + 16 * i
  ⟨(buff (fp + 4)).toNat, load 4 buff (fp + 8), load 4 buff (fp + 12)⟩

def parts (buff : Memory) : List FP := (List.range 4).map (part buff)

namespace FP

def IsExtended (fp : FP) : Prop := fp.systid = 0x05 ∨ fp.systid = 0x0F ∨ fp.systid = 0x85

instance (fp : FP) : Decidable fp.IsExtended := inferInstanceAs (Decidable (_ ∨ _))

def IsPartition (fp : FP) : Prop := fp.systid ≠ 0x00 ∧ ¬fp.IsExtended

instance (fp : FP) : Decidable fp.IsPartition := inferInstanceAs (Decidable (_ ∧ _))

end FP

/-! ### `processMBR` -/

def add32 (a b : ℕ) : ℕ := (a + b) % 2 ^ 32

def sub32 (a b : ℕ) : ℕ := (a + (2 ^ 32 - b % 2 ^ 32)) % 2 ^ 32

structure BDVirtualDevice where
  offset_ : ℕ
  num_sectors_ : ℕ
  name_ : List UInt8
  partition_type_ : ℕ

/-- A device, with the sector of the table and the entry that it was made from. -/
structure Registration where
  sector : ℕ
  fp : FP
  bdv : BDVirtualDevice

/-- The static variable, and the devices that `BDManager` was given. -/
structure Scan where
  part_num : ℕ
  registered : List Registration

def addVirtualDevice (name : List UInt8) (sector : ℕ) (fp : FP) (st : Scan) : Scan :=
  let part_name := name.take 4 ++ [UInt8.ofNat (st.part_num + 48)]
  let bdv := ⟨fp.relsect, fp.numsect, part_name, fp.systid⟩
  ⟨(st.part_num + 1) % 2 ^ 32, st.registered ++ [⟨sector, fp, bdv⟩]⟩

/-- The `switch`, where `process` are the calls that it makes. -/
def processPart (process : ℕ → Scan → Option (ℤ × Scan)) (SPT : ℕ) (name : List UInt8) (sector : ℕ) (fp : FP)
    (st : Scan) : Option Scan :=
  if fp.systid = 0x00 then some st
  else if fp.IsExtended then
    match process (add32 sector fp.relsect) st with
    | none => none
    | some (ret, st) =>
      if ret = -1 then (process (sub32 (add32 sector fp.relsect) SPT) st).map Prod.snd else some st
  else some (addVirtualDevice name sector fp st)

def processParts (process : ℕ → Scan → Option (ℤ × Scan)) (SPT : ℕ) (name : List UInt8) (sector : ℕ) :
    List FP → Scan → Option Scan
  | [], st => some st
  | fp :: fps, st =>
    match processPart process SPT name sector fp st with
    | none => none
    | some st => processParts process SPT name sector fps st

/-- `depth` bounds how deep the calls are; without a result the calls go deeper. -/
def processMBR (disk : Disk) (SPT : ℕ) (name : List UInt8) : ℕ → ℕ → Scan → Option (ℤ × Scan)
  | 0, _, _ => none
  | depth + 1, sector, st =>
    match disk sector with
    | none => some (-1, st)
    | some buff =>
      if signature buff = 0xAA55 then
        (processParts (processMBR disk SPT name depth) SPT name sector (parts buff) st).map fun st => (0, st)
      else some (-1, st)

variable {disk : Disk} {SPT s t : ℕ} {name : List UInt8} {fp : FP} {fps : List FP} {buff : Memory}
  {st st' st₁ st₂ st₃ : Scan} {process process' : ℕ → Scan → Option (ℤ × Scan)} {depth depth' : ℕ} {ret : ℤ}
  {found found' : Set (ℕ × FP)}

/-! ### The calls of a table -/

def Table (disk : Disk) (s : ℕ) (buff : Memory) : Prop := disk s = some buff ∧ signature buff = 0xAA55

def Valid (disk : Disk) (s : ℕ) : Prop := ∃ buff, Table disk s buff

/-- The entry of the table in sector `s` leads to sector `t`. -/
def Follows (disk : Disk) (SPT s : ℕ) (fp : FP) (t : ℕ) : Prop :=
  fp.IsExtended ∧ (t = add32 s fp.relsect ∨
    ¬Valid disk (add32 s fp.relsect) ∧ t = sub32 (add32 s fp.relsect) SPT)

def Link (disk : Disk) (SPT s t : ℕ) : Prop :=
  ∃ buff, Table disk s buff ∧ ∃ fp ∈ parts buff, Follows disk SPT s fp t

def HasPartition (disk : Disk) (s : ℕ) (fp : FP) : Prop :=
  ∃ buff, Table disk s buff ∧ fp ∈ parts buff ∧ fp.IsPartition

/-- The partitions in the tables that links lead to. -/
def Found (disk : Disk) (SPT s : ℕ) : Set (ℕ × FP) :=
  {x | ReflTransGen (Link disk SPT) s x.1 ∧ HasPartition disk x.1 x.2}

def FoundBy (disk : Disk) (SPT s : ℕ) (fp : FP) : Set (ℕ × FP) :=
  {x | (∃ t, Follows disk SPT s fp t ∧ x ∈ Found disk SPT t) ∨ fp.IsPartition ∧ x = (s, fp)}

theorem Table.unique {buff' : Memory} (h : Table disk s buff) (h' : Table disk s buff') : buff' = buff :=
  Option.some.inj (h'.1.symm.trans h.1)

theorem found_of_invalid (h : ¬Valid disk s) : Found disk SPT s = ∅ := by
  ext ⟨t, fp⟩
  constructor
  · rintro ⟨hreach, hpart⟩
    obtain rfl | ⟨u, ⟨buff, htable, -⟩, -⟩ := ReflTransGen.cases_head hreach
    · obtain ⟨buff, htable, -⟩ := hpart
      exact absurd ⟨buff, htable⟩ h
    · exact absurd ⟨buff, htable⟩ h
  · intro h
    cases h

theorem found_of_table (h : Table disk s buff) :
    Found disk SPT s = {x | ∃ fp ∈ parts buff, x ∈ FoundBy disk SPT s fp} := by
  ext ⟨t, fp⟩
  constructor
  · rintro ⟨hreach, hpart⟩
    obtain rfl | ⟨u, ⟨buff', htable, fp', hmem, hfollows⟩, hrest⟩ := ReflTransGen.cases_head hreach
    · obtain ⟨buff', htable, hmem, hispart⟩ := hpart
      obtain rfl := h.unique htable
      exact ⟨fp, hmem, .inr ⟨hispart, rfl⟩⟩
    · obtain rfl := h.unique htable
      exact ⟨fp', hmem, .inl ⟨u, hfollows, hrest, hpart⟩⟩
  · rintro ⟨fp', hmem, ⟨u, hfollows, hrest, hpart⟩ | ⟨hispart, heq⟩⟩
    · exact ⟨.head ⟨buff, h, fp', hmem, hfollows⟩ hrest, hpart⟩
    · cases heq
      exact ⟨.refl, buff, h, hmem, hispart⟩

/-! ### What an entry leads to -/

theorem foundBy_empty (hext : ¬fp.IsExtended) (hpart : ¬fp.IsPartition) : FoundBy disk SPT s fp = ∅ := by
  ext x
  constructor
  · rintro (⟨t, hfollows, -⟩ | ⟨hispart, -⟩)
    · exact absurd hfollows.1 hext
    · exact absurd hispart hpart
  · intro hx
    cases hx

theorem foundBy_partition (hpart : fp.IsPartition) : FoundBy disk SPT s fp = {(s, fp)} := by
  ext x
  constructor
  · rintro (⟨t, hfollows, -⟩ | ⟨-, rfl⟩)
    · exact absurd hfollows.1 hpart.2
    · rfl
  · rintro rfl
    exact .inr ⟨hpart, rfl⟩

theorem foundBy_valid (hext : fp.IsExtended) (hvalid : Valid disk (add32 s fp.relsect)) :
    FoundBy disk SPT s fp = Found disk SPT (add32 s fp.relsect) := by
  ext x
  constructor
  · rintro (⟨t, ⟨-, rfl | ⟨hinvalid, -⟩⟩, hx⟩ | ⟨hpart, -⟩)
    · exact hx
    · exact absurd hvalid hinvalid
    · exact absurd hext hpart.2
  · intro hx
    exact .inl ⟨_, ⟨hext, .inl rfl⟩, hx⟩

theorem foundBy_invalid (hext : fp.IsExtended) (hinvalid : ¬Valid disk (add32 s fp.relsect)) :
    FoundBy disk SPT s fp =
      Found disk SPT (add32 s fp.relsect) ∪ Found disk SPT (sub32 (add32 s fp.relsect) SPT) := by
  ext x
  constructor
  · rintro (⟨t, ⟨-, rfl | ⟨-, rfl⟩⟩, hx⟩ | ⟨hpart, -⟩)
    · exact .inl hx
    · exact .inr hx
    · exact absurd hext hpart.2
  · rintro (hx | hx)
    · exact .inl ⟨_, ⟨hext, .inl rfl⟩, hx⟩
    · exact .inl ⟨_, ⟨hext, .inr ⟨hinvalid, rfl⟩⟩, hx⟩

/-! ### What a call that returns has registered -/

/-- The devices that were registered are those of `found`, and have the number in the entry as offset. -/
def Adds (found : Set (ℕ × FP)) (st st' : Scan) : Prop :=
  ∃ rs, st'.registered = st.registered ++ rs ∧ (∀ r ∈ rs, r.bdv.offset_ = r.fp.relsect) ∧
    {x | ∃ r ∈ rs, (r.sector, r.fp) = x} = found

theorem adds_nothing (h : found = ∅) : Adds found st st := by
  refine ⟨[], by simp, by simp, ?_⟩
  rw [h]
  ext x
  simp

theorem Adds.trans (h : Adds found st₁ st₂) (h' : Adds found' st₂ st₃) : Adds (found ∪ found') st₁ st₃ := by
  obtain ⟨rs, heq, hoffset, rfl⟩ := h
  obtain ⟨rs', heq', hoffset', rfl⟩ := h'
  refine ⟨rs ++ rs', ?_, ?_, ?_⟩
  · rw [heq', heq, List.append_assoc]
  · intro r hr
    obtain hr | hr := List.mem_append.mp hr
    · exact hoffset r hr
    · exact hoffset' r hr
  · ext x
    simp only [List.mem_append, or_and_right, exists_or, Set.mem_ofPred_eq, Set.mem_union]

theorem adds_addVirtualDevice : Adds {(s, fp)} st (addVirtualDevice name s fp st) := by
  refine ⟨[⟨s, fp, _⟩], rfl, ?_, ?_⟩
  · intro r hr
    obtain rfl := List.mem_singleton.mp hr
    rfl
  · ext x
    simp [eq_comm]

/-- What the calls do that return. -/
def Sound (disk : Disk) (SPT : ℕ) (process : ℕ → Scan → Option (ℤ × Scan)) : Prop :=
  ∀ s st ret st', process s st = some (ret, st') →
    (ret = -1 ↔ ¬Valid disk s) ∧ Acc (flip (Link disk SPT)) s ∧ Adds (Found disk SPT s) st st'

theorem processPart_sound (hsound : Sound disk SPT process)
    (h : processPart process SPT name s fp st = some st') :
    (∀ t, Follows disk SPT s fp t → Acc (flip (Link disk SPT)) t) ∧ Adds (FoundBy disk SPT s fp) st st' := by
  rw [processPart] at h
  by_cases hempty : fp.systid = 0x00
  · rw [if_pos hempty, Option.some.injEq] at h
    subst h
    have hnot : ¬fp.IsExtended := by
      rw [FP.IsExtended, hempty]
      decide
    have hnopart : ¬fp.IsPartition := fun hpart => hpart.1 hempty
    exact ⟨fun t hfollows => absurd hfollows.1 hnot, adds_nothing (foundBy_empty hnot hnopart)⟩
  · rw [if_neg hempty] at h
    by_cases hext : fp.IsExtended
    · rw [if_pos hext] at h
      cases hfirst : process (add32 s fp.relsect) st with
      | none =>
        rw [hfirst] at h
        cases h
      | some r =>
        obtain ⟨ret, st₂⟩ := r
        obtain ⟨hret, hacc, hadds⟩ := hsound _ _ _ _ hfirst
        rw [hfirst] at h
        dsimp only at h
        by_cases hfailed : ret = -1
        · -- the table there is not valid, and the one before it is tried
          rw [if_pos hfailed] at h
          obtain ⟨⟨ret', st₃⟩, hsecond, rfl⟩ := Option.map_eq_some_iff.mp h
          obtain ⟨-, hacc', hadds'⟩ := hsound _ _ _ _ hsecond
          constructor
          · rintro t ⟨-, rfl | ⟨-, rfl⟩⟩
            · exact hacc
            · exact hacc'
          · rw [foundBy_invalid hext (hret.mp hfailed)]
            exact hadds.trans hadds'
        · have hvalid : Valid disk (add32 s fp.relsect) := by
            by_contra hinvalid
            exact hfailed (hret.mpr hinvalid)
          rw [if_neg hfailed, Option.some.injEq] at h
          subst h
          constructor
          · rintro t ⟨-, rfl | ⟨hinvalid, -⟩⟩
            · exact hacc
            · exact absurd hvalid hinvalid
          · rw [foundBy_valid hext hvalid]
            exact hadds
    · rw [if_neg hext, Option.some.injEq] at h
      subst h
      refine ⟨fun t hfollows => absurd hfollows.1 hext, ?_⟩
      rw [foundBy_partition ⟨hempty, hext⟩]
      exact adds_addVirtualDevice

theorem processParts_sound (hsound : Sound disk SPT process)
    (h : processParts process SPT name s fps st = some st') :
    (∀ fp ∈ fps, ∀ t, Follows disk SPT s fp t → Acc (flip (Link disk SPT)) t) ∧
      Adds {x | ∃ fp ∈ fps, x ∈ FoundBy disk SPT s fp} st st' := by
  induction fps generalizing st with
  | nil =>
    rw [processParts, Option.some.injEq] at h
    subst h
    refine ⟨by simp, adds_nothing ?_⟩
    ext x
    simp
  | cons fp fps ih =>
    rw [processParts] at h
    cases hpart : processPart process SPT name s fp st with
    | none =>
      rw [hpart] at h
      cases h
    | some st₂ =>
      rw [hpart] at h
      obtain ⟨hacc, hadds⟩ := processPart_sound hsound hpart
      obtain ⟨haccs, hrest⟩ := ih h
      constructor
      · intro fp' hmem
        obtain rfl | hmem := List.mem_cons.mp hmem
        · exact hacc
        · exact haccs fp' hmem
      · have hunion : {x | ∃ fp' ∈ fp :: fps, x ∈ FoundBy disk SPT s fp'} =
            FoundBy disk SPT s fp ∪ {x | ∃ fp' ∈ fps, x ∈ FoundBy disk SPT s fp'} := by
          ext x
          simp only [List.mem_cons, exists_eq_or_imp, Set.mem_ofPred_eq, Set.mem_union]
        rw [hunion]
        exact hadds.trans hrest

/-- By induction on how deep the calls are. -/
theorem processMBR_sound (disk : Disk) (SPT : ℕ) (name : List UInt8) (depth : ℕ) :
    Sound disk SPT (processMBR disk SPT name depth) := by
  induction depth with
  | zero =>
    intro s st ret st' h
    cases h
  | succ depth ih =>
    intro s st ret st' h
    rw [processMBR] at h
    by_cases hvalid : Valid disk s
    · obtain ⟨buff, hread, hsig⟩ := hvalid
      rw [hread] at h
      dsimp only at h
      rw [if_pos hsig] at h
      obtain ⟨st₂, hparts, heq⟩ := Option.map_eq_some_iff.mp h
      obtain ⟨rfl, rfl⟩ := Prod.mk.inj heq
      obtain ⟨hacc, hadds⟩ := processParts_sound ih hparts
      refine ⟨?_, ?_, ?_⟩
      · have hvalid : Valid disk s := ⟨buff, hread, hsig⟩
        simp [hvalid]
      · apply Acc.intro
        rintro t ⟨buff', htable, fp, hmem, hfollows⟩
        obtain rfl := Table.unique ⟨hread, hsig⟩ htable
        exact hacc fp hmem t hfollows
      · rw [found_of_table ⟨hread, hsig⟩]
        exact hadds
    · have hfailed : ret = -1 ∧ st' = st := by
        cases hread : disk s with
        | none =>
          rw [hread] at h
          cases h
          exact ⟨rfl, rfl⟩
        | some buff =>
          have hsig : signature buff ≠ 0xAA55 := fun hsig => hvalid ⟨buff, hread, hsig⟩
          rw [hread] at h
          dsimp only at h
          rw [if_neg hsig] at h
          cases h
          exact ⟨rfl, rfl⟩
      obtain ⟨rfl, rfl⟩ := hfailed
      refine ⟨by simp [hvalid], ?_, adds_nothing (found_of_invalid hvalid)⟩
      apply Acc.intro
      rintro t ⟨buff, htable, -⟩
      exact absurd ⟨buff, htable⟩ hvalid

/-! ### When the calls come to an end -/

/-- `process'` returns what `process` does, and may return more often. -/
def Extends (process process' : ℕ → Scan → Option (ℤ × Scan)) : Prop :=
  ∀ s st r, process s st = some r → process' s st = some r

theorem processPart_extends (hext : Extends process process')
    (h : processPart process SPT name s fp st = some st') : processPart process' SPT name s fp st = some st' := by
  rw [processPart] at h ⊢
  by_cases hempty : fp.systid = 0x00
  · rw [if_pos hempty] at h ⊢
    exact h
  · rw [if_neg hempty] at h ⊢
    by_cases hisext : fp.IsExtended
    · rw [if_pos hisext] at h ⊢
      cases hfirst : process (add32 s fp.relsect) st with
      | none =>
        rw [hfirst] at h
        cases h
      | some r =>
        obtain ⟨ret, st₂⟩ := r
        rw [hfirst] at h
        rw [hext _ _ _ hfirst]
        dsimp only at h ⊢
        by_cases hfailed : ret = -1
        · rw [if_pos hfailed] at h ⊢
          obtain ⟨r, hsecond, rfl⟩ := Option.map_eq_some_iff.mp h
          rw [hext _ _ _ hsecond]
          rfl
        · rw [if_neg hfailed] at h ⊢
          exact h
    · rw [if_neg hisext] at h ⊢
      exact h

theorem processParts_extends (hext : Extends process process')
    (h : processParts process SPT name s fps st = some st') : processParts process' SPT name s fps st = some st' := by
  induction fps generalizing st with
  | nil => exact h
  | cons fp fps ih =>
    rw [processParts] at h ⊢
    cases hpart : processPart process SPT name s fp st with
    | none =>
      rw [hpart] at h
      cases h
    | some st₂ =>
      rw [hpart] at h
      rw [processPart_extends hext hpart]
      exact ih h

theorem processMBR_extends_succ (depth : ℕ) :
    Extends (processMBR disk SPT name depth) (processMBR disk SPT name (depth + 1)) := by
  induction depth with
  | zero =>
    intro s st r h
    cases h
  | succ depth ih =>
    intro s st r h
    rw [processMBR] at h ⊢
    cases hread : disk s with
    | none =>
      rw [hread] at h
      exact h
    | some buff =>
      rw [hread] at h
      dsimp only at h ⊢
      by_cases hsig : signature buff = 0xAA55
      · rw [if_pos hsig] at h ⊢
        obtain ⟨st₂, hparts, rfl⟩ := Option.map_eq_some_iff.mp h
        rw [processParts_extends ih hparts]
        rfl
      · rw [if_neg hsig] at h ⊢
        exact h

theorem processMBR_extends (hle : depth ≤ depth') :
    Extends (processMBR disk SPT name depth) (processMBR disk SPT name depth') := by
  induction hle with
  | refl => exact fun s st r h => h
  | step _ ih => exact fun s st r h => processMBR_extends_succ _ s st r (ih s st r h)

/-- From whatever state, the calls come to an end. -/
def Ends (disk : Disk) (SPT : ℕ) (name : List UInt8) (s : ℕ) : Prop :=
  ∀ st, ∃ depth r, processMBR disk SPT name depth s st = some r

theorem processPart_ends (hends : ∀ t, Follows disk SPT s fp t → Ends disk SPT name t) (st : Scan) :
    ∃ depth st', processPart (processMBR disk SPT name depth) SPT name s fp st = some st' := by
  simp only [processPart]
  by_cases hempty : fp.systid = 0x00
  · simp only [if_pos hempty]
    exact ⟨0, st, rfl⟩
  · simp only [if_neg hempty]
    by_cases hext : fp.IsExtended
    · simp only [if_pos hext]
      obtain ⟨depth, ⟨ret, st₂⟩, hfirst⟩ := hends _ ⟨hext, .inl rfl⟩ st
      by_cases hfailed : ret = -1
      · have hinvalid := (processMBR_sound disk SPT name depth _ _ _ _ hfirst).1.mp hfailed
        obtain ⟨depth', r', hsecond⟩ := hends _ ⟨hext, .inr ⟨hinvalid, rfl⟩⟩ st₂
        refine ⟨max depth depth', r'.2, ?_⟩
        rw [processMBR_extends (le_max_left depth depth') _ _ _ hfirst]
        dsimp only
        rw [if_pos hfailed, processMBR_extends (le_max_right depth depth') _ _ _ hsecond]
        rfl
      · refine ⟨depth, st₂, ?_⟩
        rw [hfirst]
        dsimp only
        rw [if_neg hfailed]
    · simp only [if_neg hext]
      exact ⟨0, _, rfl⟩

theorem processParts_ends (hends : ∀ fp ∈ fps, ∀ t, Follows disk SPT s fp t → Ends disk SPT name t) (st : Scan) :
    ∃ depth st', processParts (processMBR disk SPT name depth) SPT name s fps st = some st' := by
  induction fps generalizing st with
  | nil => exact ⟨0, st, rfl⟩
  | cons fp fps ih =>
    obtain ⟨depth, st₂, hpart⟩ := processPart_ends (hends fp List.mem_cons_self) st
    obtain ⟨depth', st', hparts⟩ := ih (fun fp' hmem => hends fp' (List.mem_cons_of_mem fp hmem)) st₂
    refine ⟨max depth depth', st', ?_⟩
    rw [processParts, processPart_extends (processMBR_extends (le_max_left depth depth')) hpart]
    exact processParts_extends (processMBR_extends (le_max_right depth depth')) hparts

theorem processMBR_ends (name : List UInt8) (hacc : Acc (flip (Link disk SPT)) s) : Ends disk SPT name s := by
  induction hacc with
  | intro s _ ih =>
    intro st
    by_cases hvalid : Valid disk s
    · obtain ⟨buff, hread, hsig⟩ := hvalid
      have hends : ∀ fp ∈ parts buff, ∀ t, Follows disk SPT s fp t → Ends disk SPT name t :=
        fun fp hmem t hfollows => ih t ⟨buff, ⟨hread, hsig⟩, fp, hmem, hfollows⟩
      obtain ⟨depth, st', hparts⟩ := processParts_ends hends st
      refine ⟨depth + 1, (0, st'), ?_⟩
      rw [processMBR, hread]
      dsimp only
      rw [if_pos hsig, hparts]
      rfl
    · refine ⟨1, (-1, st), ?_⟩
      rw [processMBR]
      cases hread : disk s with
      | none => rfl
      | some buff =>
        have hsig : signature buff ≠ 0xAA55 := fun hsig => hvalid ⟨buff, hread, hsig⟩
        dsimp only
        rw [if_neg hsig]

/-! ### Total and absolute -/

theorem finite_reach (disk : Disk) (SPT s : ℕ) : {t | ReflTransGen (Link disk SPT) s t}.Finite := by
  have hsub : {t | ReflTransGen (Link disk SPT) s t} ⊆ insert s (Set.Iio (2 ^ 32)) := by
    intro t hreach
    obtain rfl | ⟨u, -, buff, -, fp, -, -, hto⟩ := ReflTransGen.cases_tail hreach
    · exact Set.mem_insert _ _
    · apply Set.mem_insert_of_mem
      obtain rfl | ⟨-, rfl⟩ := hto
      · exact Nat.mod_lt _ (by decide)
      · exact Nat.mod_lt _ (by decide)
  exact ((Set.finite_Iio _).insert s).subset hsub

/-- The scan ends, and each device that it registers has as offset the sector that the partition starts
in: the sector of the table, and the number in the entry on. -/
def TotalAndAbsolute (disk : Disk) (SPT : ℕ) (name : List UInt8) (part_num sector : ℕ) : Prop :=
  ∃ depth ret st, processMBR disk SPT name depth sector ⟨part_num, []⟩ = some (ret, st) ∧
    ∀ r ∈ st.registered, r.bdv.offset_ = r.sector + r.fp.relsect

theorem TotalAndAbsolute.tables {part_num : ℕ} (h : TotalAndAbsolute disk SPT name part_num s) :
    Acc (flip (Link disk SPT)) s ∧
      ∀ t fp, ReflTransGen (Link disk SPT) s t → HasPartition disk t fp → t = 0 := by
  obtain ⟨depth, ret, st, hrun, habsolute⟩ := h
  obtain ⟨-, hacc, rs, hregistered, hoffset, hfound⟩ := processMBR_sound _ _ _ _ _ _ _ _ hrun
  refine ⟨hacc, ?_⟩
  intro t fp hreach hpart
  have hmem : (t, fp) ∈ {x | ∃ r ∈ rs, (r.sector, r.fp) = x} := by
    rw [hfound]
    exact ⟨hreach, hpart⟩
  obtain ⟨r, hr, heq⟩ := hmem
  obtain ⟨rfl, rfl⟩ := Prod.mk.inj heq
  have habs := habsolute r (by rw [hregistered]; exact hr)
  rw [hoffset r hr] at habs
  omega

theorem totalAndAbsolute_of_tables (hacc : Acc (flip (Link disk SPT)) s)
    (hzero : ∀ t fp, ReflTransGen (Link disk SPT) s t → HasPartition disk t fp → t = 0) (part_num : ℕ) :
    TotalAndAbsolute disk SPT name part_num s := by
  obtain ⟨depth, ⟨ret, st⟩, hrun⟩ := processMBR_ends name hacc ⟨part_num, []⟩
  obtain ⟨-, -, rs, hregistered, hoffset, hfound⟩ := processMBR_sound _ _ _ _ _ _ _ _ hrun
  refine ⟨depth, ret, st, hrun, ?_⟩
  intro r hr
  rw [hregistered] at hr
  have hmem : (r.sector, r.fp) ∈ Found disk SPT s := by
    rw [← hfound]
    exact ⟨r, hr, rfl⟩
  obtain ⟨hreach, hpart⟩ := hmem
  have hsector : r.sector = 0 := hzero _ _ hreach hpart
  rw [hoffset r hr, hsector, Nat.zero_add]

/-- The links of extended partitions do not lead back to a table, and no table behind sector 0 has a
partition. -/
theorem processMBR_iff (disk : Disk) (SPT : ℕ) (name : List UInt8) (part_num sector : ℕ) :
    TotalAndAbsolute disk SPT name part_num sector ↔ Acyclic (Link disk SPT) sector ∧
      ∀ t fp, ReflTransGen (Link disk SPT) sector t → HasPartition disk t fp → t = 0 := by
  rw [← acc_iff_acyclic (finite_reach disk SPT sector)]
  constructor
  · exact TotalAndAbsolute.tables
  · rintro ⟨hacc, hzero⟩
    exact totalAndAbsolute_of_tables hacc hzero part_num

/-- A table with one entry. -/
def oneEntry (systid relsect numsect : ℕ) : Memory :=
  store 2 (store 4 (store 4 (store 1 (fun _ => 0) 450 systid) 454 relsect) 458 numsect) 510 0xAA55

/-- The entry of sector 0 is an extended partition in sector 0. -/
def selfPointing : Disk := fun s => if s = 0 then some (oneEntry 0x05 0 100) else none

/-- The entry of sector 0 is an extended partition from sector 63 on, with a partition that starts one
sector behind. -/
def oneLogical : Disk := fun s =>
  if s = 0 then some (oneEntry 0x05 63 1000) else if s = 63 then some (oneEntry 0x83 1 500) else none

theorem not_total_not_absolute :
    ¬TotalAndAbsolute selfPointing 63 [] 0 0 ∧ ¬TotalAndAbsolute oneLogical 63 [] 0 0 := by
  constructor
  · intro h
    have hself : Link selfPointing 63 0 0 :=
      ⟨oneEntry 0x05 0 100, ⟨rfl, by decide +kernel⟩, ⟨0x05, 0, 100⟩, by decide +kernel, by decide, .inl rfl⟩
    exact not_transGen_self h.tables.1 (.single hself)
  · intro h
    have hlink : Link oneLogical 63 0 63 :=
      ⟨oneEntry 0x05 63 1000, ⟨rfl, by decide +kernel⟩, ⟨0x05, 63, 1000⟩, by decide +kernel, by decide, .inl rfl⟩
    have hpart : HasPartition oneLogical 63 ⟨0x83, 1, 500⟩ :=
      ⟨oneEntry 0x83 1 500, ⟨rfl, by decide +kernel⟩, by decide +kernel, by decide⟩
    have hzero := h.tables.2 63 _ (.single hlink) hpart
    contradiction

end KPanic.IDE
