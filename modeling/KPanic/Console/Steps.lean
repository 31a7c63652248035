import KPanic.Console.Console

/-!
# What a step of the console can do
-/

namespace KPanic.Terminals

namespace Console

@[simp] theorem onTerminal_waits (c : Console) (k : ℕ) (f : Output → Output) : (c.onTerminal k f).waits = c.waits := rfl

@[simp] theorem onTerminal_thread (c : Console) (k : ℕ) (f : Output → Output) : (c.onTerminal k f).thread = c.thread := rfl

@[simp] theorem onTerminal_active (c : Console) (k : ℕ) (f : Output → Output) :
    (c.onTerminal k f).active_terminal_ = c.active_terminal_ := rfl

@[simp] theorem onTerminal_num (c : Console) (k : ℕ) (f : Output → Output) : (c.onTerminal k f).num_terminals = c.num_terminals := rfl

@[simp] theorem onTerminal_same (c : Console) (k : ℕ) (f : Output → Output) :
    (c.onTerminal k f).terminals_ k = (f ⟨c.terminals_ k, c.fb⟩).term := Function.update_self ..

theorem onTerminal_other {j k : ℕ} (c : Console) (f : Output → Output) (h : j ≠ k) : (c.onTerminal k f).terminals_ j = c.terminals_ j :=
  Function.update_of_ne h ..

theorem onTerminal_fb (c : Console) (k : ℕ) (f : Output → Output) : (c.onTerminal k f).fb = (f ⟨c.terminals_ k, c.fb⟩).fb := rfl

end Console

/-- The ways in which a step can end, with what it does to the texts. -/
inductive Does (c : Console) : Console → List (ℕ × Mark) → Prop
  | write (k : ℕ) (character : UInt8) (hfree : c.waits = none) :
    Does c (c.onTerminal k fun o => o.writeInternal character) [(k, .character character)]
  | wait (k : ℕ) (hfree : c.waits = none) (hcount : (c.terminals_ k).in_buffer_.count ≠ 0) : Does c { c with waits := some k } []
  | writeKey (key : BitVec 32) (character : UInt8) (hfree : c.waits = none) (hnext : c.thread = .next) :
    Does c { c.onTerminal c.active_terminal_ fun o => o.writeInternal character with thread := .written key }
      [(c.active_terminal_, .character character)]
  | waitKey (key : BitVec 32) (hfree : c.waits = none) (hnext : c.thread = .next)
    (hcount : (c.terminals_ c.active_terminal_).in_buffer_.count ≠ 0) :
    Does c { c with waits := some c.active_terminal_, thread := .writing key } []
  | resume (k : ℕ) (hwaits : c.waits = some k) (hkey : (c.terminals_ k).noKey = false) :
    Does c { c.onTerminal k fun o => o.get.writeInternal backspace with waits := none, thread := c.thread.resumed }
      [(k, .character backspace)]
  | foreground (k : ℕ) (color : UInt8) (hfree : c.waits ≠ some k) :
    Does c (c.onTerminal k fun o => o.setForegroundColor color) [(k, .foreground color)]
  | background (k : ℕ) (color : UInt8) (hfree : c.waits ≠ some k) :
    Does c (c.onTerminal k fun o => o.setBackgroundColor color) [(k, .background color)]
  | get (k : ℕ) (hkey : (c.terminals_ k).noKey = false) : Does c (c.onTerminal k Output.get) []
  | unset (term : ℕ) (hfree : c.waits ≠ some c.active_terminal_) (hnext : c.thread = .next) (hterm : term < c.num_terminals) :
    Does c { c.onTerminal c.active_terminal_ Output.unSetAsActiveTerminal with thread := .unset term } []
  | ignore : Does c c []
  | put (key : BitVec 32) (hwritten : c.thread = .written key) (hroom : (c.terminals_ c.active_terminal_).full = false) :
    Does c { c.onTerminal c.active_terminal_ fun o => o.putInBuffer key with thread := .next } []
  | set (term : ℕ) (hfree : c.waits = none) (hunset : c.thread = .unset term) :
    Does c { c.onTerminal term Output.setAsActiveTerminal with thread := .set term } []
  | store (term : ℕ) (hset : c.thread = .set term) : Does c { c with active_terminal_ := term, thread := .next } []

variable {c c' : Console} {marks : List (ℕ × Mark)} {k : ℕ} {key : BitVec 32}

theorem write_cases {character : UInt8} (h : c.write k character = some (c', marks)) : c.waits = none ∧
    (c' = c.onTerminal k (fun o => o.writeInternal character) ∧ marks = [(k, .character character)] ∨
      c' = { c with waits := some k } ∧ marks = [] ∧ (c.terminals_ k).in_buffer_.count ≠ 0) := by
  unfold Console.write at h
  split at h
  · cases h
  rename_i hfree
  have hfree := Option.not_isSome_iff_eq_none.mp hfree
  split at h
  · rename_i hwait
    cases h
    exact ⟨hfree, .inr ⟨rfl, rfl, hwait.2⟩⟩
  · cases h
    exact ⟨hfree, .inl ⟨rfl, rfl⟩⟩

theorem does_writeKey (hnext : c.thread = .next) (h : c.writeKey key = some (c', marks)) : Does c c' marks := by
  obtain ⟨⟨c₁, marks₁⟩, hwrite, heq⟩ := Option.map_eq_some_iff.mp h
  cases heq
  obtain ⟨hfree, ⟨rfl, rfl⟩ | ⟨rfl, rfl, hcount⟩⟩ := write_cases hwrite
  · have hwrote : Thread.wrote key c.waits = .written key := by rw [hfree, Thread.wrote]
    dsimp only [Console.onTerminal_waits]
    rw [hwrote]
    exact .writeKey key _ hfree hnext
  · exact .waitKey key hfree hnext hcount

theorem does_handleKey {isShift : Bool} (hnext : c.thread = .next) (h : c.handleKey key isShift = some (c', marks)) :
    Does c c' marks := by
  unfold Console.handleKey at h
  split at h
  · rename_i hselected
    split at h
    · cases h
    · rename_i hfree
      cases h
      exact .unset _ hfree hnext hselected.2
  · cases h
    exact .ignore

theorem step_does {op : Op} (h : step c op = some (c', marks)) : Does c c' marks := by
  cases op with
  | write k character =>
    obtain ⟨hfree, ⟨rfl, rfl⟩ | ⟨rfl, rfl, hcount⟩⟩ := write_cases h
    · exact .write k character hfree
    · exact .wait k hfree hcount
  | resume =>
    simp only [step, stepResume] at h
    split at h
    · cases h
    rename_i k hwaits
    split at h
    · cases h
    · rename_i hkey
      cases h
      exact .resume k hwaits (by simpa using hkey)
  | setForegroundColor k color =>
    simp only [step] at h
    split at h
    · cases h
    · rename_i hfree
      cases h
      exact .foreground k color hfree
  | setBackgroundColor k color =>
    simp only [step] at h
    split at h
    · cases h
    · rename_i hfree
      cases h
      exact .background k color hfree
  | get k =>
    simp only [step] at h
    split at h
    · cases h
    · rename_i hkey
      cases h
      exact .get k (by simpa using hkey)
  | key key isShift isCaps =>
    simp only [step, stepKey] at h
    split at h
    · rename_i hnext
      split at h
      · exact does_writeKey hnext h
      · exact does_handleKey hnext h
    · cases h
  | putInBuffer =>
    simp only [step, stepPut] at h
    split at h
    · rename_i key hwritten
      split at h
      · cases h
      · rename_i hroom
        cases h
        exact .put key hwritten (by simpa using hroom)
    · cases h
  | setAsActiveTerminal =>
    simp only [step, stepActive] at h
    split at h
    · rename_i term hunset
      split at h
      · cases h
      · rename_i hfree
        cases h
        exact .set term (Option.not_isSome_iff_eq_none.mp hfree) hunset
    · cases h
  | store =>
    simp only [step, stepStore] at h
    split at h
    · rename_i term hset
      cases h
      exact .store term hset
    · cases h

theorem run_keeps {P : Console → List (ℕ × Mark) → Prop}
    (hstep : ∀ c c' done marks, P c done → Does c c' marks → P c' (done ++ marks)) {ops : List Op} (done : List (ℕ × Mark))
    (hc : P c done) (h : run ops c = some (c', marks)) : P c' (done ++ marks) := by
  induction ops generalizing c done marks with
  | nil =>
    cases h
    rw [List.append_nil]
    exact hc
  | cons op ops ih =>
    obtain ⟨⟨c₁, marks₁⟩, hop, hrest⟩ := Option.bind_eq_some_iff.mp h
    obtain ⟨⟨c₂, marks₂⟩, hrun, heq⟩ := Option.bind_eq_some_iff.mp hrest
    cases heq
    rw [← List.append_assoc]
    exact ih (done ++ marks₁) (hstep c c₁ done marks₁ hc (step_does hop)) hrun

theorem run_append {c₁ c₂ : Console} {ops ops' : List Op} {marks₁ marks₂ : List (ℕ × Mark)} (h : run ops c = some (c₁, marks₁))
    (h' : run ops' c₁ = some (c₂, marks₂)) : run (ops ++ ops') c = some (c₂, marks₁ ++ marks₂) := by
  induction ops generalizing c marks₁ with
  | nil =>
    cases h
    exact h'
  | cons op ops ih =>
    obtain ⟨⟨c₃, marks₃⟩, hop, hrest⟩ := Option.bind_eq_some_iff.mp h
    obtain ⟨⟨c₄, marks₄⟩, hrun, heq⟩ := Option.bind_eq_some_iff.mp hrest
    cases heq
    rw [List.cons_append, run, List.append_assoc]
    exact Option.bind_eq_some_iff.mpr ⟨(c₃, marks₃), hop, Option.bind_eq_some_iff.mpr ⟨(c₂, marks₄ ++ marks₂), ih hrun, rfl⟩⟩

end KPanic.Terminals
