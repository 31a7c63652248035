import KPanic.Console.Cells
import KPanic.Console.Steps
import Mathlib.Algebra.Group.Nat.Defs

/-!
# The wait of a backspace

`backspace` takes a key from the buffer if it counts one. The count is a `uint32`, so an empty buffer whose read position is the last one
counts as full of keys: the writer waits, and holds the locks that the thread of the console needs before it puts a key.
-/

namespace KPanic.Terminals

open Bytes (Memory)

variable {c c' : Console} {k : ℕ} {marks : List (ℕ × Mark)} {ops : List Op} {f : Output → Output} {b : FiFo (BitVec 32)}

/-! ### Positions in the buffer -/

def INPUT_SIZE : ℕ := 512

structure BufferOk (b : FiFo (BitVec 32)) : Prop where
  size : b.input_buffer_size_ = INPUT_SIZE
  read_lt : b.ib_read_pos_ < INPUT_SIZE
  write_lt : b.ib_write_pos_ < INPUT_SIZE

theorem after_eq {i : ℕ} (h : b.input_buffer_size_ = INPUT_SIZE) (hi : i < INPUT_SIZE) : b.after i = (i + 1) % INPUT_SIZE := by
  have hsmall : (i + 1) % 2 ^ 32 = i + 1 := by
    simp only [INPUT_SIZE] at hi
    omega
  rw [FiFo.after, h, hsmall]

theorem count_empty (h : BufferOk b) (hempty : b.ib_write_pos_ = b.after b.ib_read_pos_) :
    b.count ≠ 0 ↔ b.ib_read_pos_ = INPUT_SIZE - 1 := by
  have hread := h.read_lt
  rw [after_eq h.size hread] at hempty
  simp only [INPUT_SIZE] at hread hempty ⊢
  by_cases hlast : b.ib_read_pos_ = 511
  · have hsub : (b.ib_write_pos_ + 2 ^ 32 - b.ib_read_pos_) % 2 ^ 32 = 2 ^ 32 - 511 := by omega
    simp only [FiFo.count, hsub]
    simp [hlast]
  · have hsub : (b.ib_write_pos_ + 2 ^ 32 - b.ib_read_pos_) % 2 ^ 32 = 1 := by omega
    simp only [FiFo.count, hsub]
    simp [hlast]

theorem write_positions (b : FiFo (BitVec 32)) (t : ℕ) (what : BitVec 32) :
    (b.write t what).input_buffer_size_ = b.input_buffer_size_ ∧ (b.write t what).ib_read_pos_ = b.ib_read_pos_ ∧
      (b.write t what).ib_write_pos_ = b.after b.ib_write_pos_ := by
  obtain ⟨hsize, -, hwrite, hread, -⟩ := b.signalReader_same
  refine ⟨hsize, hread, ?_⟩
  simp only [FiFo.write, FiFo.after, hsize, hwrite]

theorem put_positions (hroom : b.ib_write_pos_ ≠ b.ib_read_pos_) (t : ℕ) (what : BitVec 32) :
    (b.put t what).1.input_buffer_size_ = b.input_buffer_size_ ∧ (b.put t what).1.ib_read_pos_ = b.ib_read_pos_ ∧
      (b.put t what).1.ib_write_pos_ = b.after b.ib_write_pos_ := by
  rw [FiFo.put, if_neg hroom]
  exact write_positions b t what

theorem get_positions (hkey : b.ib_write_pos_ ≠ b.after b.ib_read_pos_) (t : ℕ) :
    (b.get t).1.input_buffer_size_ = b.input_buffer_size_ ∧ (b.get t).1.ib_read_pos_ = b.after b.ib_read_pos_ ∧
      (b.get t).1.ib_write_pos_ = b.ib_write_pos_ := by
  obtain ⟨hsize, -, hwrite, hread, -⟩ := b.signalWriter_same
  rw [FiFo.get, if_neg hkey]
  refine ⟨hsize, ?_, hwrite⟩
  simp only [FiFo.after, hsize, hread]

theorem BufferOk.after_lt (h : BufferOk b) (i : ℕ) : b.after i < INPUT_SIZE := by
  rw [FiFo.after, h.size]
  exact Nat.mod_lt _ (by decide)

theorem BufferOk.put (h : BufferOk b) (hroom : b.ib_write_pos_ ≠ b.ib_read_pos_) (t : ℕ) (what : BitVec 32) :
    BufferOk (b.put t what).1 := by
  obtain ⟨hsize, hread, hwrite⟩ := put_positions hroom t what
  exact ⟨hsize.trans h.size, hread ▸ h.read_lt, hwrite ▸ h.after_lt _⟩

theorem BufferOk.get (h : BufferOk b) (hkey : b.ib_write_pos_ ≠ b.after b.ib_read_pos_) (t : ℕ) : BufferOk (b.get t).1 := by
  obtain ⟨hsize, hread, hwrite⟩ := get_positions hkey t
  exact ⟨hsize.trans h.size, hread ▸ h.after_lt _, hwrite ▸ h.write_lt⟩

theorem noKey_iff (t : Terminal) : t.noKey = true ↔ t.in_buffer_.ib_write_pos_ = t.in_buffer_.after t.in_buffer_.ib_read_pos_ := by
  simp [Terminal.noKey]

theorem ne_of_noKey {t : Terminal} (h : t.noKey = false) : t.in_buffer_.ib_write_pos_ ≠ t.in_buffer_.after t.in_buffer_.ib_read_pos_ := by
  simpa [Terminal.noKey] using h

theorem ne_of_full {t : Terminal} (h : t.full = false) : t.in_buffer_.ib_write_pos_ ≠ t.in_buffer_.ib_read_pos_ := by
  simpa [Terminal.full] using h

def BuffersOk (c : Console) : Prop := ∀ k, BufferOk (c.terminals_ k).in_buffer_

theorem BuffersOk.onTerminal (h : BuffersOk c) (hterminals : c'.terminals_ = (c.onTerminal k f).terminals_)
    (hbuffer : BufferOk (f ⟨c.terminals_ k, c.fb⟩).term.in_buffer_) : BuffersOk c' := by
  intro j
  rw [hterminals]
  by_cases hj : j = k
  · subst hj
    rw [Console.onTerminal_same]
    exact hbuffer
  · rw [Console.onTerminal_other c f hj]
    exact h j

theorem BuffersOk.does (h : BuffersOk c) (hdoes : Does c c' marks) : BuffersOk c' := by
  have hdrawn : ∀ (o : Output) (character : UInt8), BufferOk o.term.in_buffer_ → BufferOk (o.writeInternal character).term.in_buffer_ :=
    fun o character ho => (drawn_writeInternal o character).in_buffer_ ▸ ho
  cases hdoes with
  | write k character hfree => exact h.onTerminal (f := fun o => o.writeInternal character) rfl (hdrawn _ character (h k))
  | wait k hfree hcount => exact h
  | writeKey key character hfree hnext => exact h.onTerminal (f := fun o => o.writeInternal character) rfl (hdrawn _ character (h _))
  | waitKey key hfree hnext hcount => exact h
  | resume k hwaits hkey =>
    exact h.onTerminal (f := fun o => o.get.writeInternal backspace) rfl (hdrawn _ backspace ((h k).get (ne_of_noKey hkey) 0))
  | foreground k color hfree => exact h.onTerminal (f := fun o => o.setForegroundColor color) rfl (h k)
  | background k color hfree => exact h.onTerminal (f := fun o => o.setBackgroundColor color) rfl (h k)
  | get k hkey => exact h.onTerminal (f := Output.get) rfl ((h k).get (ne_of_noKey hkey) 0)
  | unset term hfree hnext hterm => exact h.onTerminal (f := Output.unSetAsActiveTerminal) rfl (h _)
  | ignore => exact h
  | put key hwritten hroom => exact h.onTerminal (f := fun o => o.putInBuffer key) rfl ((h _).put (ne_of_full hroom) 0 key)
  | set term hfree hunset => exact h.onTerminal (f := Output.setAsActiveTerminal) rfl (h term)
  | store term hset => exact h

theorem drawn_text (text : List UInt8) (o : Output) : o.Drawn (text.foldl Output.writeInternal o) := by
  induction text generalizing o with
  | nil => exact .refl o
  | cons character text ih => exact (drawn_writeInternal o character).trans (ih _)

variable {num_terminals : ℕ} {memory memory' : ℕ → Memory} {fb : Memory}

theorem boot_in_buffer (text : List UInt8) (o : Output) :
    (text.foldl Output.writeInternal (o.initTerminalColors WHITE BLACK)).unSetAsActiveTerminal.setAsActiveTerminal.term.in_buffer_ =
      o.term.in_buffer_ := (drawn_text text _).in_buffer_

/-- The boot leaves the buffers as they were constructed. -/
theorem boot_buffer (k : ℕ) :
    ((Console.boot num_terminals memory memory' fb).terminals_ k).in_buffer_ = FiFo.new 512 0 fun _ => 0 := by
  by_cases hk : k = 0
  · subst hk
    rw [Console.boot, Console.onTerminal_same, boot_in_buffer]
    rfl
  · rw [Console.boot, Console.onTerminal_other _ _ hk]
    rfl

theorem buffersOk_boot : BuffersOk (Console.boot num_terminals memory memory' fb) := by
  intro k
  rw [boot_buffer]
  exact ⟨rfl, by decide, by decide⟩

/-! ### A writer that waits for ever -/

/-- The writer on terminal `k` waits for a key, and the thread of the console has none for this terminal. -/
structure Hung (c : Console) (k : ℕ) : Prop where
  waits : c.waits = some k
  noKey : (c.terminals_ k).noKey = true
  noPut : ∀ key, c.thread = .written key → c.active_terminal_ ≠ k

/-- The texts and the screen are the same. -/
structure Frozen (c c' : Console) : Prop where
  fb : c'.fb = c.fb
  cell : ∀ j, (c'.terminals_ j).cell = (c.terminals_ j).cell
  column : ∀ j, (c'.terminals_ j).current_column_ = (c.terminals_ j).current_column_

theorem Frozen.refl (c : Console) : Frozen c c := ⟨rfl, fun _ => rfl, fun _ => rfl⟩

theorem Frozen.trans {c₁ c₂ : Console} (h : Frozen c c₁) (h' : Frozen c₁ c₂) : Frozen c c₂ :=
  ⟨h'.fb.trans h.fb, fun j => (h'.cell j).trans (h.cell j), fun j => (h'.column j).trans (h.column j)⟩

/-- A call on another terminal that draws nothing. -/
theorem Hung.apart {j : ℕ} (h : Hung c k) (hj : j ≠ k) (hterminals : c'.terminals_ = (c.onTerminal j f).terminals_)
    (hwaits : c'.waits = c.waits) (hnoPut : ∀ key, c'.thread = .written key → c'.active_terminal_ ≠ k)
    (hfb : c'.fb = c.fb) (hcell : (f ⟨c.terminals_ j, c.fb⟩).term.cell = (c.terminals_ j).cell)
    (hcolumn : (f ⟨c.terminals_ j, c.fb⟩).term.current_column_ = (c.terminals_ j).current_column_) : Hung c' k ∧ Frozen c c' := by
  refine ⟨⟨hwaits.trans h.waits, ?_, hnoPut⟩, hfb, fun i => ?_, fun i => ?_⟩
  · rw [hterminals, Console.onTerminal_other c f hj.symm]
    exact h.noKey
  all_goals
    rw [hterminals]
    by_cases hi : i = j
    · subst hi
      rw [Console.onTerminal_same]
      assumption
    · rw [Console.onTerminal_other c f hi]

theorem Hung.does (h : Hung c k) (hdoes : Does c c' marks) : Hung c' k ∧ Frozen c c' := by
  have htaken : c.waits ≠ none := by
    rw [h.waits]
    exact Option.some_ne_none k
  have hother : ∀ j, c.waits ≠ some j → j ≠ k := fun j hj hjk => hj (hjk ▸ h.waits)
  have hempty : ∀ j, (c.terminals_ j).noKey = false → j ≠ k := by
    rintro j hkey rfl
    rw [h.noKey] at hkey
    cases hkey
  cases hdoes with
  | write j character hfree => exact absurd hfree htaken
  | wait j hfree hcount => exact absurd hfree htaken
  | writeKey key character hfree hnext => exact absurd hfree htaken
  | waitKey key hfree hnext hcount => exact absurd hfree htaken
  | resume j hwaits hkey => exact absurd (Option.some.inj (hwaits.symm.trans h.waits)) (hempty j hkey)
  | foreground j color hfree => exact h.apart (f := fun o => o.setForegroundColor color) (hother j hfree) rfl rfl h.noPut rfl rfl rfl
  | background j color hfree => exact h.apart (f := fun o => o.setBackgroundColor color) (hother j hfree) rfl rfl h.noPut rfl rfl rfl
  | get j hkey => exact h.apart (f := Output.get) (hempty j hkey) rfl rfl h.noPut rfl rfl rfl
  | unset term hfree hnext hterm =>
    exact h.apart (f := Output.unSetAsActiveTerminal) (hother _ hfree) rfl rfl (fun key hkey => by cases hkey) rfl rfl rfl
  | ignore => exact ⟨h, .refl c⟩
  | put key hwritten hroom =>
    exact h.apart (f := fun o => o.putInBuffer key) (h.noPut key hwritten) rfl rfl (fun key hkey => by cases hkey) rfl rfl rfl
  | set term hfree hunset => exact absurd hfree htaken
  | store term hset => exact ⟨⟨h.waits, h.noKey, fun key hkey => by cases hkey⟩, rfl, fun _ => rfl, fun _ => rfl⟩

/-- Nothing that the threads do ends the wait, and nothing is drawn any more. -/
def WaitsForEver (c : Console) (k : ℕ) : Prop :=
  ∀ ops c' marks, run ops c = some (c', marks) → c'.waits = some k ∧ Frozen c c'

theorem Hung.forEver (h : Hung c k) : WaitsForEver c k := by
  intro ops c' marks hrun
  have hkeeps := run_keeps (P := fun c' _ => Hung c' k ∧ Frozen c c') (fun c₁ c₂ done marks hc hdoes => ?_) [] ⟨h, .refl c⟩ hrun
  · exact ⟨hkeeps.1.waits, hkeeps.2⟩
  · obtain ⟨hhung, hfrozen⟩ := hc.1.does hdoes
    exact ⟨hhung, hc.2.trans hfrozen⟩

theorem WaitsForEver.waits (h : WaitsForEver c k) : c.waits = some k := (h [] c [] rfl).1

/-! ### How it is reached -/

/-- Every key is typed on terminal 0 and read there. -/
def typedAndRead (keys : List (BitVec 32)) : List Op := keys.flatMap fun key => [.key key false false, .putInBuffer, .get 0]

/-- Terminal 0 is active, and `n` keys went through its buffer. -/
structure Typed (c : Console) (n : ℕ) : Prop where
  waits : c.waits = none
  thread : c.thread = .next
  active : c.active_terminal_ = 0
  size : (c.terminals_ 0).in_buffer_.input_buffer_size_ = INPUT_SIZE
  read : (c.terminals_ 0).in_buffer_.ib_read_pos_ = n % INPUT_SIZE
  write : (c.terminals_ 0).in_buffer_.ib_write_pos_ = (n + 1) % INPUT_SIZE

theorem typed_boot : Typed (Console.boot num_terminals memory memory' fb) 0 := by
  refine ⟨rfl, rfl, rfl, ?_, ?_, ?_⟩ <;> rw [boot_buffer] <;> rfl

theorem Typed.noKey {n : ℕ} (h : Typed c n) : (c.terminals_ 0).noKey = true := by
  have hlt : n % INPUT_SIZE < INPUT_SIZE := Nat.mod_lt _ (by decide)
  rw [noKey_iff, h.write, h.read, after_eq h.size hlt, Nat.mod_add_mod]

theorem remap_plain (key : BitVec 32) : Terminal.remap false false key = key := by
  unfold Terminal.remap
  split_ifs <;> simp_all

theorem step_key {key : BitVec 32} (hthread : c.thread = .next) (hdisplay : Console.isDisplayable key = true) :
    step c (.key key false false) = c.writeKey key := by
  simp only [step, stepKey, hthread, hdisplay, if_true, remap_plain]

theorem Typed.round {n : ℕ} (h : Typed c n) {key : BitVec 32} (hdisplay : Console.isDisplayable key = true)
    (hkey : UInt8.ofNat key.toNat ≠ backspace) :
    ∃ c' marks, run [.key key false false, .putInBuffer, .get 0] c = some (c', marks) ∧ Typed c' (n + 1) := by
  have hmod : INPUT_SIZE = 512 := rfl
  have hsize := h.size
  have hread := h.read
  have hwrite := h.write
  have hlt : ∀ i, i % INPUT_SIZE < INPUT_SIZE := fun i => Nat.mod_lt _ (by decide)
  -- `write(key)`
  obtain ⟨c₁, hc₁⟩ : ∃ c₁, c₁ = { c.onTerminal 0 fun o => o.writeInternal (UInt8.ofNat key.toNat) with thread := .written key } := ⟨_, rfl⟩
  have hstep₁ : step c (.key key false false) = some (c₁, [(0, .character (UInt8.ofNat key.toNat))]) := by
    rw [step_key h.thread hdisplay, Console.writeKey, Console.write, h.waits, h.active, Option.isSome_none, if_neg Bool.false_ne_true,
      if_neg fun hwait => hkey hwait.1, Option.map_some]
    simp only [Console.onTerminal_waits, h.waits, Thread.wrote, hc₁]
  have hbuffer₁ : (c₁.terminals_ 0).in_buffer_ = (c.terminals_ 0).in_buffer_ := by
    rw [hc₁]
    dsimp only
    rw [Console.onTerminal_same, (drawn_writeInternal _ _).in_buffer_]
  -- `putInBuffer(key)`
  have hroom : (c.terminals_ 0).in_buffer_.ib_write_pos_ ≠ (c.terminals_ 0).in_buffer_.ib_read_pos_ := by
    rw [hread, hwrite, hmod]
    omega
  have hfull : (c₁.terminals_ 0).full = false := by simpa [Terminal.full, hbuffer₁] using hroom
  have hactive₁ : c₁.active_terminal_ = 0 := by
    rw [hc₁]
    exact h.active
  have hthread₁ : c₁.thread = .written key := by rw [hc₁]
  have hwaits₁ : c₁.waits = none := by
    rw [hc₁]
    exact h.waits
  obtain ⟨c₂, hc₂⟩ : ∃ c₂, c₂ = { c₁.onTerminal 0 fun o => o.putInBuffer key with thread := .next } := ⟨_, rfl⟩
  have hstep₂ : step c₁ .putInBuffer = some (c₂, []) := by
    simp only [step, stepPut, hthread₁, hactive₁, hfull, hc₂, Bool.false_eq_true, if_false]
  have hbuffer₂ : (c₂.terminals_ 0).in_buffer_ = ((c.terminals_ 0).in_buffer_.put 0 key).1 := by
    rw [hc₂, ← hbuffer₁]
    dsimp only
    rw [Console.onTerminal_same]
    rfl
  obtain ⟨hsize₂, hread₂, hwrite₂⟩ := put_positions hroom 0 key
  rw [← hbuffer₂] at hsize₂ hread₂ hwrite₂
  rw [hwrite, after_eq hsize (hlt _), Nat.mod_add_mod] at hwrite₂
  rw [hread] at hread₂
  -- `in_buffer_.get()`
  have hafter₂ : (c₂.terminals_ 0).in_buffer_.after (c₂.terminals_ 0).in_buffer_.ib_read_pos_ = (n + 1) % INPUT_SIZE := by
    rw [hread₂, after_eq (hsize₂.trans hsize) (hlt _), Nat.mod_add_mod]
  have hsome : (c₂.terminals_ 0).in_buffer_.ib_write_pos_ ≠ (c₂.terminals_ 0).in_buffer_.after (c₂.terminals_ 0).in_buffer_.ib_read_pos_ := by
    rw [hafter₂, hwrite₂, hmod]
    omega
  have hnoKey : (c₂.terminals_ 0).noKey = false := by simpa [Terminal.noKey] using hsome
  have hstep₃ : step c₂ (.get 0) = some (c₂.onTerminal 0 Output.get, []) := by
    simp only [step, hnoKey, Bool.false_eq_true, if_false]
  have hbuffer₃ : ((c₂.onTerminal 0 Output.get).terminals_ 0).in_buffer_ = ((c₂.terminals_ 0).in_buffer_.get 0).1 := by
    rw [Console.onTerminal_same]
    rfl
  obtain ⟨hsize₃, hread₃, hwrite₃⟩ := get_positions hsome 0
  rw [← hbuffer₃] at hsize₃ hread₃ hwrite₃
  refine ⟨c₂.onTerminal 0 Output.get, [(0, .character (UInt8.ofNat key.toNat))], ?_, ?_, ?_, ?_, ?_, ?_, ?_⟩
  · simp only [run, hstep₁, hstep₂, hstep₃, Option.bind_eq_bind, Option.bind_some]
    rfl
  · rw [Console.onTerminal_waits, hc₂]
    exact hwaits₁
  · rw [Console.onTerminal_thread, hc₂]
  · rw [Console.onTerminal_active, hc₂]
    exact hactive₁
  · exact hsize₃.trans (hsize₂.trans hsize)
  · exact hread₃.trans hafter₂
  · exact hwrite₃.trans hwrite₂

theorem Typed.rounds {keys : List (BitVec 32)} {n : ℕ} (h : Typed c n)
    (hkeys : ∀ key ∈ keys, Console.isDisplayable key = true ∧ UInt8.ofNat key.toNat ≠ backspace) :
    ∃ c' marks, run (typedAndRead keys) c = some (c', marks) ∧ Typed c' (n + keys.length) := by
  induction keys generalizing c n with
  | nil => exact ⟨c, [], rfl, h⟩
  | cons key keys ih =>
    obtain ⟨hdisplay, hkey⟩ := hkeys key List.mem_cons_self
    obtain ⟨c₁, marks₁, hrun₁, htyped₁⟩ := h.round hdisplay hkey
    obtain ⟨c₂, marks₂, hrun₂, htyped₂⟩ := ih htyped₁ fun key hmem => hkeys key (List.mem_cons_of_mem _ hmem)
    rw [List.length_cons, show n + (keys.length + 1) = n + 1 + keys.length by omega]
    exact ⟨c₂, marks₁ ++ marks₂, run_append hrun₁ hrun₂, htyped₂⟩

theorem letters : ∀ key ∈ List.replicate 511 (0x61 : BitVec 32), Console.isDisplayable key = true ∧ UInt8.ofNat key.toNat ≠ backspace := by
  intro key hkey
  rw [List.eq_of_mem_replicate hkey]
  decide

/-! ### When a backspace waits for ever -/

end KPanic.Terminals
