import KPanic.Util.AddDbg
import KPanic.Util.SWEBDebugInfo

/-!
# The records of the debug information

What the tool writes for a file, and what the kernel reads there: a header, and one record for each
function.
-/

namespace KPanic.DebugInfo

open Bytes
open Std (TreeMap)

structure Group where
  filename : List UInt8
  lines : List (ℕ × ℕ)
  fncs : List Function

/-- The files, and the functions of none. -/
def Binary.groups (b : Binary) : List Group :=
  b.line_info.map (fun info => ⟨info.1, info.2, found b.fncs info.2⟩) ++ [⟨[], [], unwritten b.fncs b.line_info⟩]

def record (lines : List (ℕ × ℕ)) (f : Function) : List UInt8 := (writeFunction lines f).flatMap Write.bytes

def records (lines : List (ℕ × ℕ)) (fncs : List Function) : List UInt8 := fncs.flatMap (record lines)

def Group.bytes (g : Group) : List UInt8 := (fileHeader g.fncs.length g.filename).bytes ++ records g.lines g.fncs

/-- The functions with the places of their records, when `rest` is behind them. -/
def placesIn (lines : List (ℕ × ℕ)) (rest : List UInt8) : List Function → List (ℕ × List UInt8)
  | [] => []
  | f :: fs => (f.start, record lines f ++ (records lines fs ++ rest)) :: placesIn lines rest fs

def placesOf : List Group → List (ℕ × List UInt8)
  | [] => []
  | g :: gs => placesIn g.lines (gs.flatMap Group.bytes) g.fncs ++ placesOf gs

variable {lines : List (ℕ × ℕ)} {f : Function} {g : Group} {gs : List Group} {data rest : List UInt8} {defs defs' : Defs}

theorem flatMap_bytes (g : Group) : g.bytes =
    (fileHeader g.fncs.length g.filename :: g.fncs.flatMap (writeFunction g.lines)).flatMap Write.bytes := by
  rw [List.flatMap_cons, List.flatMap_assoc]
  rfl

theorem Binary.writes_bytes (b : Binary) : b.writes.flatMap Write.bytes = b.groups.flatMap Group.bytes := by
  have hfiles : (b.line_info.flatMap (writeFile b.fncs)).flatMap Write.bytes =
      (b.line_info.map fun info => (⟨info.1, info.2, found b.fncs info.2⟩ : Group)).flatMap Group.bytes := by
    rw [List.flatMap_assoc, List.flatMap_map]
    exact congrArg (b.line_info.flatMap ·) (funext fun info =>
      (flatMap_bytes ⟨info.1, info.2, found b.fncs info.2⟩).symm)
  have hunwritten : (writeUnwritten (unwritten b.fncs b.line_info)).flatMap Write.bytes =
      Group.bytes ⟨[], [], unwritten b.fncs b.line_info⟩ := by
    rw [flatMap_bytes, writeUnwritten, List.map_eq_flatMap]
    rfl
  rw [Binary.writes, Binary.groups, List.flatMap_append, List.flatMap_append, hfiles, hunwritten, List.flatMap_singleton]

/-! ### The writes in the buffer -/

/-- All that is stored lies in the buffer. -/
def Fits : ℕ → List Write → Prop
  | _, [] => True
  | pos, w :: ws => pos + w.size ≤ 1024 * 1024 ∧ Fits (pos + w.bytes.length) ws

theorem store_eq_some (debug file : List UInt8) (ws : List Write) :
    store debug ws = some file ↔ Fits debug.length ws ∧ file = debug ++ ws.flatMap Write.bytes := by
  induction ws generalizing debug with
  | nil => simp [store, Fits, eq_comm]
  | cons w ws ih =>
    rw [store, Fits, List.flatMap_cons, ← List.append_assoc, and_assoc, ← List.length_append, ← ih]
    by_cases hroom : debug.length + w.size ≤ 1024 * 1024
    · rw [if_pos hroom, and_iff_right hroom]
    · rw [if_neg hroom]
      exact iff_of_false nofun fun h => hroom h.1

/-! ### One record -/

def nameLen (f : Function) : ℕ := if f.name.length ≤ 254 then f.name.length + 1 else 255

def nameBytes (f : Function) : List UInt8 := (strncpy 255 f.name).take (nameLen f)

def lineBytes (entries : List (ℕ × ℕ)) : List UInt8 := entries.flatMap fun it => leBytes 2 it.1 ++ leBytes 2 it.2

theorem nameLen_le (f : Function) : nameLen f ≤ 255 := by
  unfold nameLen
  split <;> omega

theorem length_strncpy (n : ℕ) (s : List UInt8) : (strncpy n s).length = n := by
  rw [strncpy, List.length_append, List.length_take, List.length_replicate]
  omega

@[simp] theorem length_nameBytes (f : Function) : (nameBytes f).length = nameLen f := by
  rw [nameBytes, List.length_take, length_strncpy]
  exact Nat.min_eq_left (nameLen_le f)

@[simp] theorem length_lineBytes (entries : List (ℕ × ℕ)) : (lineBytes entries).length = 4 * entries.length := by
  induction entries with
  | nil => rfl
  | cons it entries ih =>
    rw [lineBytes, List.flatMap_cons, ← lineBytes, List.length_append, ih]
    simp
    omega

/-- A short name is stored with its terminator, of a longer one the first 255 bytes. -/
theorem nameBytes_eq (f : Function) : nameBytes f = if f.name.length ≤ 254 then f.name ++ [0] else f.name.take 255 := by
  unfold nameBytes nameLen strncpy
  split
  · rename_i hshort
    rw [List.take_of_length_le (show f.name.length ≤ 255 by omega), List.take_append, List.take_of_length_le (Nat.le_succ _),
      Nat.add_sub_cancel_left, List.take_replicate, Nat.min_eq_left (by omega)]
    rfl
  · rename_i hlong
    rw [show 255 - f.name.length = 0 by omega, List.replicate_zero, List.append_nil, List.take_take, Nat.min_self]

theorem record_eq (lines : List (ℕ × ℕ)) (f : Function) : record lines f =
    leBytes 8 f.start ++ (leBytes 2 (offsets f lines).length ++ (leBytes 1 (nameLen f) ++ (nameBytes f ++
      lineBytes (offsets f lines)))) := by
  rw [record, writeFunction, List.flatMap_cons, List.flatMap_map]
  simp only [functionHeader, List.append_assoc]
  rfl

theorem length_record (lines : List (ℕ × ℕ)) (f : Function) :
    (record lines f).length = 11 + nameLen f + (offsets f lines).length * 4 := by
  rw [record_eq]
  simp
  omega

theorem readHeader_record (lines : List (ℕ × ℕ)) (f : Function) (rest : List UInt8) :
    readHeader (record lines f ++ rest) = some ⟨f.start, (offsets f lines).length % 2 ^ 16, nameLen f⟩ := by
  have hname := nameLen_le f
  have hstart : word 8 (record lines f ++ rest) 0 = some f.start := by
    have hword := word_at [] (leBytes 2 (offsets f lines).length ++ (leBytes 1 (nameLen f) ++ (nameBytes f ++
      lineBytes (offsets f lines))) ++ rest) 8 f.start
    rw [Nat.mod_eq_of_lt (show f.start < 256 ^ 8 from f.start_lt)] at hword
    rw [record_eq, List.append_assoc]
    exact hword
  have hentries : word 2 (record lines f ++ rest) 8 = some ((offsets f lines).length % 2 ^ 16) := by
    have hword := word_at (leBytes 8 f.start) (leBytes 1 (nameLen f) ++ (nameBytes f ++ lineBytes (offsets f lines)) ++ rest) 2
      (offsets f lines).length
    rw [length_leBytes] at hword
    rw [record_eq]
    simp only [List.append_assoc] at hword ⊢
    exact hword
  have hlen : word 1 (record lines f ++ rest) 10 = some (nameLen f) := by
    have hword := word_at (leBytes 8 f.start ++ leBytes 2 (offsets f lines).length)
      (nameBytes f ++ lineBytes (offsets f lines) ++ rest) 1 (nameLen f)
    rw [List.length_append, length_leBytes, length_leBytes, Nat.mod_eq_of_lt (by omega)] at hword
    rw [record_eq]
    simp only [List.append_assoc] at hword ⊢
    exact hword
  unfold readHeader
  rw [hstart, hentries, hlen]
  rfl

theorem advance_append (l rest : List UInt8) : advance l.length (l ++ rest) = some rest := by
  rw [advance, if_pos (by rw [List.length_append]; omega), List.drop_left]

/-! ### Reading what was written -/

def insertAll (defs : Defs) (places : List (ℕ × List UInt8)) : Defs := places.foldl (fun defs p => defs.insert p.1 p.2) defs

theorem insertAll_append (defs : Defs) (l l' : List (ℕ × List UInt8)) :
    insertAll defs (l ++ l') = insertAll (insertAll defs l) l' := List.foldl_append

theorem placesOf_cons (g : Group) (gs : List Group) :
    placesOf (g :: gs) = placesIn g.lines (gs.flatMap Group.bytes) g.fncs ++ placesOf gs := rfl

theorem readFunctions_record {functions : ℕ} (hentries : (offsets f lines).length < 2 ^ 16) :
    readFunctions (functions + 1) (record lines f ++ rest) defs =
      readFunctions functions rest (defs.insert f.start (record lines f ++ rest)) := by
  rw [readFunctions, readHeader_record, Nat.mod_eq_of_lt hentries]
  dsimp only [Option.bind_eq_bind, Option.bind_some]
  rw [← length_record, advance_append]
  rfl

theorem readFunctions_records {fs : List Function} (hentries : ∀ f ∈ fs, (offsets f lines).length < 2 ^ 16) :
    readFunctions fs.length (records lines fs ++ rest) defs = some (rest, insertAll defs (placesIn lines rest fs)) := by
  induction fs generalizing defs with
  | nil => rfl
  | cons f fs ih =>
    rw [records, List.flatMap_cons, ← records, List.append_assoc, List.length_cons,
      readFunctions_record (hentries f List.mem_cons_self), ih fun g hg => hentries g (List.mem_cons_of_mem f hg)]
    rfl

theorem readFile_group (g : Group) (rest : List UInt8) (defs : Defs) :
    readFile (g.bytes ++ rest) defs = readFunctions (g.fncs.length % 2 ^ 16) (records g.lines g.fncs ++ rest) defs := by
  have hname : (strncpy 255 g.filename).length = 255 := length_strncpy 255 g.filename
  have hfunctions : word 2 (g.bytes ++ rest) 0 = some (g.fncs.length % 2 ^ 16) := by
    unfold Group.bytes fileHeader
    dsimp only
    rw [List.append_assoc, List.append_assoc]
    exact word_at [] _ 2 g.fncs.length
  unfold readFile
  rw [hfunctions]
  unfold Group.bytes fileHeader
  dsimp only
  generalize hlen : (if g.filename.length ≤ 255 then g.filename.length else 255) = filename_len
  have hle : filename_len ≤ 255 := by
    rw [← hlen]
    split <;> omega
  have hword := word_at (leBytes 2 g.fncs.length) ((strncpy 255 g.filename).take filename_len ++ records g.lines g.fncs ++ rest)
    1 filename_len
  rw [length_leBytes, Nat.mod_eq_of_lt (by omega)] at hword
  have hadvance := advance_append (leBytes 2 g.fncs.length ++ (leBytes 1 filename_len ++ (strncpy 255 g.filename).take filename_len))
    (records g.lines g.fncs ++ rest)
  have hlength : (leBytes 2 g.fncs.length ++ (leBytes 1 filename_len ++ (strncpy 255 g.filename).take filename_len)).length =
      3 + filename_len := by
    rw [List.length_append, List.length_append, length_leBytes, length_leBytes, List.length_take, hname]
    omega
  rw [hlength] at hadvance
  simp only [List.append_assoc] at hword hadvance ⊢
  rw [Option.bind_eq_bind, Option.bind_some, hword, Option.bind_eq_bind, Option.bind_some, hadvance]
  rfl

/-! ### Where the records are that were read -/

theorem getElem_insert (defs : Defs) (k a : ℕ) (v : List UInt8) :
    (defs.insert k v)[a]? = if k = a then some v else defs[a]? := by
  rw [TreeMap.getElem?_insert]
  simp only [compare_eq_iff_eq]

theorem length_advance {n : ℕ} {next : List UInt8} (h : advance n data = some next) : next.length + n = data.length := by
  unfold advance at h
  split at h
  · obtain rfl := Option.some.inj h
    rw [List.length_drop]
    omega
  · cases h

/-- The records read are between `data` and `data'`. -/
theorem readFunctions_places {functions : ℕ} {data' : List UInt8} (h : readFunctions functions data defs = some (data', defs')) :
    data'.length ≤ data.length ∧
      ∀ (k : ℕ) (d : List UInt8), defs'[k]? = some d → defs[k]? = some d ∨ (data'.length < d.length ∧ d.length ≤ data.length) := by
  induction functions generalizing data defs with
  | zero =>
    cases h
    exact ⟨le_rfl, fun _ _ hk => .inl hk⟩
  | succ functions ih =>
    rw [readFunctions] at h
    obtain ⟨fnh, -, h⟩ := Option.bind_eq_some_iff.mp h
    obtain ⟨next, hnext, h⟩ := Option.bind_eq_some_iff.mp h
    have hlength := length_advance hnext
    obtain ⟨hle, hplaces⟩ := ih h
    refine ⟨by omega, fun k d hk => ?_⟩
    rcases hplaces k d hk with hold | hnew
    · rw [getElem_insert] at hold
      split at hold
      · obtain rfl := Option.some.inj hold
        exact .inr ⟨by omega, le_rfl⟩
      · exact .inl hold
    · exact .inr ⟨hnew.1, by omega⟩

theorem readFile_places {data' : List UInt8} (h : readFile data defs = some (data', defs')) :
    data'.length < data.length ∧
      ∀ (k : ℕ) (d : List UInt8), defs'[k]? = some d → defs[k]? = some d ∨ (data'.length < d.length ∧ d.length < data.length) := by
  unfold readFile at h
  obtain ⟨functions, -, h⟩ := Option.bind_eq_some_iff.mp h
  obtain ⟨filename_len, -, h⟩ := Option.bind_eq_some_iff.mp h
  obtain ⟨next, hnext, h⟩ := Option.bind_eq_some_iff.mp h
  have hlength := length_advance hnext
  obtain ⟨hle, hplaces⟩ := readFunctions_places h
  refine ⟨by omega, fun k d hk => ?_⟩
  rcases hplaces k d hk with hold | hnew
  · exact .inl hold
  · exact .inr ⟨hnew.1, by omega⟩

theorem readFiles_places {fuel : ℕ} (h : readFiles fuel data defs = some defs') :
    ∀ (k : ℕ) (d : List UInt8), defs'[k]? = some d → defs[k]? = some d ∨ d.length < data.length := by
  induction fuel generalizing data defs with
  | zero => cases h
  | succ fuel ih =>
    rw [readFiles] at h
    obtain ⟨⟨data₁, defs₁⟩, hfile, h⟩ := Option.bind_eq_some_iff.mp h
    obtain ⟨hlt, hplaces⟩ := readFile_places hfile
    dsimp only at h
    intro k d hk
    have hfirst : defs₁[k]? = some d → defs[k]? = some d ∨ d.length < data.length := fun hk₁ =>
      (hplaces k d hk₁).imp_right And.right
    split at h
    · cases h
      exact hfirst hk
    · rcases ih h k d hk with hold | hnew
      · exact hfirst hold
      · exact .inr (hnew.trans hlt)

/-- The fuel is enough: every file takes at least its header. -/
theorem readFiles_fuel {fuel : ℕ} (hfuel : data.length ≤ fuel) : readFiles (fuel + 1) data defs = readFiles fuel data defs := by
  induction fuel generalizing data defs with
  | zero =>
    have hnil : data = [] := List.length_eq_zero_iff.mp (by omega)
    rw [hnil]
    rfl
  | succ fuel ih =>
    rw [readFiles, readFiles]
    cases hfile : readFile data defs with
    | none => rfl
    | some r =>
      have hlt := (readFile_places hfile).1
      dsimp only [Option.bind_eq_bind, Option.bind_some]
      rw [ih (by omega)]

/-! ### All files -/

/-- The numbers of the functions and of their line entries are stored in 16 bits. -/
structure Group.Counted (g : Group) : Prop where
  functions : g.fncs.length < 2 ^ 16
  entries : ∀ f ∈ g.fncs, (offsets f g.lines).length < 2 ^ 16

theorem Group.Counted.read (h : g.Counted) (rest : List UInt8) (defs : Defs) :
    readFile (g.bytes ++ rest) defs = some (rest, insertAll defs (placesIn g.lines rest g.fncs)) := by
  rw [readFile_group, Nat.mod_eq_of_lt h.functions, readFunctions_records h.entries]

theorem bytes_ne_nil (g : Group) (rest : List UInt8) : g.bytes ++ rest ≠ [] := by
  intro hnil
  have hlength := congrArg List.length hnil
  unfold Group.bytes fileHeader at hlength
  simp at hlength

theorem readFiles_groups {fuel : ℕ} (hne : gs ≠ []) (hcounted : ∀ g ∈ gs, g.Counted) (hfuel : gs.length ≤ fuel) :
    readFiles fuel (gs.flatMap Group.bytes) defs = some (insertAll defs (placesOf gs)) := by
  induction gs generalizing fuel defs with
  | nil => exact absurd rfl hne
  | cons g gs ih =>
    obtain ⟨fuel, rfl⟩ : ∃ m, fuel = m + 1 := ⟨fuel - 1, by rw [List.length_cons] at hfuel; omega⟩
    rw [readFiles, List.flatMap_cons, (hcounted g List.mem_cons_self).read]
    dsimp only [Option.bind_eq_bind, Option.bind_some]
    cases gs with
    | nil =>
      rw [if_pos (by rfl), placesOf, placesOf, List.append_nil]
    | cons g' gs' =>
      rw [if_neg (by rw [List.flatMap_cons]; exact bytes_ne_nil g' _),
        ih nofun (fun g hg => hcounted g (List.mem_cons_of_mem _ hg)) (Nat.le_of_succ_le_succ hfuel), placesOf_cons g,
        insertAll_append]

def Above (n : ℕ) (defs : Defs) : Prop := ∀ (k : ℕ) (d : List UInt8), defs[k]? = some d → n < d.length

/-- The files before `rest` are read. -/
theorem readFiles_skip (hcounted : ∀ g ∈ gs, g.Counted) (hrest : rest ≠ []) (habove : Above rest.length defs) (fuel : ℕ) :
    ∃ defs', readFiles (fuel + gs.length) (gs.flatMap Group.bytes ++ rest) defs = readFiles fuel rest defs' ∧
      Above rest.length defs' := by
  induction gs generalizing defs with
  | nil => exact ⟨defs, rfl, habove⟩
  | cons g gs ih =>
    have hread := (hcounted g List.mem_cons_self).read (gs.flatMap Group.bytes ++ rest) defs
    have hne : gs.flatMap Group.bytes ++ rest ≠ [] := fun hnil => hrest (List.append_eq_nil_iff.mp hnil).2
    have habove' : Above rest.length (insertAll defs (placesIn g.lines (gs.flatMap Group.bytes ++ rest) g.fncs)) := by
      intro k d hk
      rcases (readFile_places hread).2 k d hk with hold | hnew
      · exact habove k d hold
      · rw [List.length_append] at hnew
        omega
    obtain ⟨defs', hrun, hdefs'⟩ := ih (fun g hg => hcounted g (List.mem_cons_of_mem _ hg)) habove'
    refine ⟨defs', ?_, hdefs'⟩
    rw [List.length_cons, ← Nat.add_assoc, readFiles, List.flatMap_cons, List.append_assoc, hread]
    dsimp only [Option.bind_eq_bind, Option.bind_some]
    rw [if_neg hne]
    exact hrun

/-! ### The symbol table -/

theorem insertAll_iff {l : List (ℕ × List UInt8)} (hkeys : (l.map Prod.fst).Nodup) (k : ℕ) (d : List UInt8) :
    (insertAll defs l)[k]? = some d ↔ (k, d) ∈ l ∨ (k ∉ l.map Prod.fst ∧ defs[k]? = some d) := by
  induction l generalizing defs with
  | nil => simp [insertAll]
  | cons p l ih =>
    rw [List.map_cons, List.nodup_cons] at hkeys
    have hinsert : insertAll defs (p :: l) = insertAll (defs.insert p.1 p.2) l := rfl
    rw [hinsert, ih hkeys.2, getElem_insert, List.map_cons, List.mem_cons, List.mem_cons, not_or]
    by_cases hkey : p.1 = k
    · have hnot : (k, d) ∉ l := fun hmem => hkeys.1 (hkey ▸ List.mem_map_of_mem hmem)
      have hpair : (k, d) = p ↔ p.2 = d := by
        rw [Prod.ext_iff, eq_comm (a := k), and_iff_right hkey, eq_comm]
      rw [if_pos hkey, hpair, Option.some_inj]
      constructor
      · rintro (hmem | ⟨_, heq⟩)
        · exact absurd hmem hnot
        · exact .inl (.inl heq)
      · rintro ((heq | hmem) | ⟨⟨hne, _⟩, _⟩)
        · exact .inr ⟨hkey ▸ hkeys.1, heq⟩
        · exact absurd hmem hnot
        · exact absurd hkey.symm hne
    · have hpair : (k, d) ≠ p := fun heq => hkey (heq ▸ rfl)
      rw [if_neg hkey, or_iff_right_of_imp fun heq => absurd heq hpair, and_iff_right_of_imp fun _ => Ne.symm hkey]

theorem keys_placesIn (lines : List (ℕ × ℕ)) (rest : List UInt8) (fs : List Function) :
    (placesIn lines rest fs).map Prod.fst = fs.map Function.start := by
  induction fs with
  | nil => rfl
  | cons f fs ih =>
    rw [placesIn, List.map_cons, ih]
    rfl

theorem keys_placesOf (gs : List Group) : (placesOf gs).map Prod.fst = (gs.flatMap Group.fncs).map Function.start := by
  induction gs with
  | nil => rfl
  | cons g gs ih => rw [placesOf, List.map_append, keys_placesIn, ih, List.flatMap_cons, List.map_append]

theorem mem_placesIn (lines : List (ℕ × ℕ)) (rest : List UInt8) (fs fs' : List Function) (f : Function) :
    (f.start, record lines f ++ (records lines fs' ++ rest)) ∈ placesIn lines rest (fs ++ f :: fs') := by
  induction fs with
  | nil => exact List.mem_cons_self
  | cons g fs ih => exact List.mem_cons_of_mem _ ih

theorem mem_placesOf (gs gs' : List Group) (g : Group) {p : ℕ × List UInt8}
    (hp : p ∈ placesIn g.lines (gs'.flatMap Group.bytes) g.fncs) : p ∈ placesOf (gs ++ g :: gs') := by
  induction gs with
  | nil => exact List.mem_append_left _ hp
  | cons h gs ih => exact List.mem_append_right _ ih

theorem length_groups (gs : List Group) : gs.length ≤ (gs.flatMap Group.bytes).length := by
  induction gs with
  | nil => rfl
  | cons g gs ih =>
    have hpos := List.length_pos_iff.mpr (bytes_ne_nil g [])
    rw [List.append_nil] at hpos
    rw [List.flatMap_cons, List.length_append, List.length_cons]
    omega

theorem initialise_eq (l : List UInt8) :
    initialiseSymbolTable (headerId ++ l) = readFiles (8 + l.length) l ∅ := by
  have hadvance := advance_append headerId l
  unfold initialiseSymbolTable
  rw [show advance 8 (headerId ++ l) = some l from hadvance, List.length_append]
  rfl

theorem initialise_counted (hne : gs ≠ []) (hcounted : ∀ g ∈ gs, g.Counted) :
    initialiseSymbolTable (headerId ++ gs.flatMap Group.bytes) = some (insertAll ∅ (placesOf gs)) := by
  rw [initialise_eq]
  exact readFiles_groups hne hcounted ((length_groups gs).trans (Nat.le_add_left _ 8))

/-- What is behind the functions that a file is read with is read as a file. -/
theorem not_read {s tail : List UInt8} {fuel : ℕ} (hcounted : ∀ g ∈ gs, g.Counted) (hne : s ≠ [])
    (hfile : ∀ defs, ∃ defs', readFile (g.bytes ++ tail) defs = some (s, defs'))
    (hread : readFiles (fuel + gs.length) (gs.flatMap Group.bytes ++ (g.bytes ++ tail)) ∅ = some defs) (k : ℕ) :
    defs[k]? ≠ some s := by
  have hempty : Above (g.bytes ++ tail).length ∅ := fun k d hk => by cases (TreeMap.getElem?_emptyc (a := k)).symm.trans hk
  obtain ⟨defs₁, hrun, habove⟩ := readFiles_skip hcounted (bytes_ne_nil g tail) hempty fuel
  rw [hrun] at hread
  obtain ⟨defs₂, hfile⟩ := hfile defs₁
  obtain ⟨hlt, hplaces⟩ := readFile_places hfile
  intro hk
  cases fuel with
  | zero => cases hread
  | succ fuel =>
    rw [readFiles, hfile] at hread
    dsimp only [Option.bind_eq_bind, Option.bind_some] at hread
    rw [if_neg hne] at hread
    rcases readFiles_places hread k s hk with hold | hnew
    · rcases hplaces k s hold with hfirst | hmid
      · exact absurd (habove k s hfirst) (by omega)
      · exact absurd hmid.1 (Nat.lt_irrefl _)
    · exact absurd hnew (Nat.lt_irrefl _)

/-- When the number of the functions of a file does not fit, the record of the first function that is not
read is taken for a file. -/
theorem counted_of_places (hentries : ∀ g ∈ gs, ∀ f ∈ g.fncs, (offsets f g.lines).length < 2 ^ 16)
    (hread : initialiseSymbolTable (headerId ++ gs.flatMap Group.bytes) = some defs)
    (hplaces : ∀ (k : ℕ) (d : List UInt8), (k, d) ∈ placesOf gs → defs[k]? = some d) : ∀ g ∈ gs, g.fncs.length < 2 ^ 16 := by
  by_contra hbad
  push Not at hbad
  obtain ⟨g', hg', hlen'⟩ := hbad
  cases hfind : gs.find? fun g => 2 ^ 16 ≤ g.fncs.length with
  | none => exact absurd (decide_eq_true hlen') (List.find?_eq_none.mp hfind g' hg')
  | some g =>
    obtain ⟨hlen, gs₁, gs₂, rfl, hfirst⟩ := List.find?_eq_some_iff_append.mp hfind
    have hlen : 2 ^ 16 ≤ g.fncs.length := of_decide_eq_true hlen
    have hcounted : ∀ h ∈ gs₁, h.Counted := fun h hh =>
      ⟨not_le.mp (by simpa using hfirst h hh), hentries h (List.mem_append_left _ hh)⟩
    -- the functions of `g` that are read, and the first that is not
    have hmod : g.fncs.length % 2 ^ 16 < g.fncs.length := (Nat.mod_lt _ (by decide)).trans_le hlen
    obtain ⟨fs, f, fs', hfncs, hfs⟩ : ∃ fs f fs', g.fncs = fs ++ f :: fs' ∧ fs.length = g.fncs.length % 2 ^ 16 :=
      ⟨g.fncs.take _, _, _, by rw [← List.drop_eq_getElem_cons hmod, List.take_append_drop], List.length_take_of_le hmod.le⟩
    have hmem := mem_placesOf gs₁ gs₂ g (by rw [hfncs]; exact mem_placesIn g.lines (gs₂.flatMap Group.bytes) fs fs' f)
    have hkey := hplaces _ _ hmem
    have hpos : 0 < (record g.lines f ++ (records g.lines fs' ++ gs₂.flatMap Group.bytes)).length := by
      rw [List.length_append, length_record]
      omega
    have hrecords : records g.lines g.fncs ++ gs₂.flatMap Group.bytes =
        records g.lines fs ++ (record g.lines f ++ (records g.lines fs' ++ gs₂.flatMap Group.bytes)) := by
      rw [hfncs, records, List.flatMap_append, List.flatMap_cons, ← records, ← records, List.append_assoc, List.append_assoc]
    generalize record g.lines f ++ (records g.lines fs' ++ gs₂.flatMap Group.bytes) = s at hkey hpos hrecords
    have hne : s ≠ [] := List.ne_nil_of_length_pos hpos
    have hfile : ∀ defs, ∃ defs', readFile (g.bytes ++ gs₂.flatMap Group.bytes) defs = some (s, defs') := fun defs =>
      ⟨_, by
        rw [readFile_group, hrecords, ← hfs]
        exact readFunctions_records fun h hh =>
          hentries g (List.mem_append_right _ List.mem_cons_self) h (hfncs ▸ List.mem_append_left _ hh)⟩
    have hfuel := length_groups (gs₁ ++ g :: gs₂)
    rw [List.length_append] at hfuel
    rw [initialise_eq, ← Nat.sub_add_cancel (show gs₁.length ≤ 8 + ((gs₁ ++ g :: gs₂).flatMap Group.bytes).length by omega),
      List.flatMap_append, List.flatMap_cons] at hread
    exact not_read hcounted hne hfile hread _ hkey

end KPanic.DebugInfo
