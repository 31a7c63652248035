import KPanic.Kernel.ExecvFailure

/-!
# The arguments that `execv` passes

The strings are packed without their terminators: a string ends where it should only if the byte
behind it is zero already. Nothing checks that they fit into the page.
-/

namespace KPanic.Execv

open Bytes
open Function

variable {s t : Kernel} {env : Env} {path arg : CString} {args : List CString}
  {a b c i j k n ptr : ℕ} {v : UInt8} {bs : List UInt8} {m m' : Memory}

/-! ### Addresses that are written -/

theorem mem_writeBytes_of_mem (h : a ∈ s.written) : a ∈ (writeBytes s b bs).written := by
  induction bs generalizing s b with
  | nil => exact h
  | cons v bs ih => exact ih (List.mem_cons_of_mem _ h)

theorem mem_copyArgs_of_mem (h : a ∈ s.written) : a ∈ (copyArgs ptr c i args s).written := by
  induction args generalizing s c i with
  | nil => exact h
  | cons arg args ih => exact ih (mem_writeBytes_of_mem (mem_writeBytes_of_mem h))

theorem mem_writeBytes (ha : a < 2 ^ 64) (hk : k < bs.length) :
    add64 a k ∈ (writeBytes s a bs).written := by
  induction bs generalizing s a k with
  | nil => cases hk
  | cons v bs ih =>
    cases k with
    | zero =>
      rw [add64_of_lt ha]
      exact mem_writeBytes_of_mem (s := writeByte s a v) List.mem_cons_self
    | succ k =>
      have hnext : add64 a 1 < 2 ^ 64 := by
        unfold add64
        omega
      have heq : add64 (add64 a 1) k = add64 a (k + 1) := by
        unfold add64
        omega
      rw [← heq]
      exact ih hnext (Nat.lt_of_succ_lt_succ hk)

/-- Bytes that end before `c` reach down to `c - bs.length`. -/
theorem mem_writeBelow (hc : c < 2 ^ 64) (hj : 0 < j) (hjc : j ≤ c) (hlen : j ≤ bs.length) :
    c - j ∈ (writeBytes s (sub64 c bs.length) bs).written := by
  have hlt : sub64 c bs.length < 2 ^ 64 := by
    unfold sub64
    omega
  have heq : add64 (sub64 c bs.length) (bs.length - j) = c - j := by
    unfold add64 sub64
    omega
  rw [← heq]
  exact mem_writeBytes hlt (by omega)

/-- The pointers are written one by one. -/
theorem mem_slot (hk : k < args.length) :
    add64 ptr ((i + k) * 8) ∈ (copyArgs ptr c i args s).written := by
  induction args generalizing s c i k with
  | nil => cases hk
  | cons arg args ih =>
    cases k with
    | zero =>
      rw [copyArgs]
      refine mem_copyArgs_of_mem (mem_writeBytes_of_mem ?_)
      have hlt : add64 ptr (i * 8) < 2 ^ 64 := by
        unfold add64
        omega
      have hbytes : 0 < (pointerBytes (sub64 c (strlen arg))).length := by
        show 0 < 8
        decide
      have hmem := mem_writeBytes (s := s) hlt hbytes
      rwa [add64_of_lt (show add64 ptr (i * 8) + 0 < 2 ^ 64 from hlt)] at hmem
    | succ k =>
      have hmem := ih (s := writeBytes (writeBytes s (add64 ptr (i * 8))
        (pointerBytes (sub64 c (strlen arg)))) (sub64 c (strlen arg)) arg.val)
        (c := sub64 (sub64 c (strlen arg)) 1) (i := i + 1) (Nat.lt_of_succ_lt_succ hk)
      rwa [Nat.add_assoc, Nat.add_comm 1] at hmem

/-! ### The layout -/

/-- The arguments page. -/
def InPage (a : ℕ) : Prop := ARGS_SEGMENT_START - PAGE_SIZE ≤ a ∧ a < ARGS_SEGMENT_START

/-- The bytes of the strings and of what ends them. -/
def room : List CString → ℕ
  | [] => 0
  | arg :: args => strlen arg + 1 + room args

def Fits (path : CString) (args : List CString) : Prop :=
  strlen path + args.length * 8 + room args + 9 ≤ PAGE_SIZE

/-- The strings lie one below the other under `c`, and the array points to them. -/
def Laid (m : Memory) (args_seg_ptr : ℕ) : ℕ → ℕ → List CString → Prop
  | _, _, [] => True
  | c, i, arg :: args =>
    load 8 m (args_seg_ptr + i * 8) = c - strlen arg ∧
      (∀ (k : ℕ) (hk : k < arg.val.length), m (c - strlen arg + k) = arg.val[k]) ∧
      Laid m args_seg_ptr (c - strlen arg - 1) (i + 1) args

/-- The bytes behind the strings are zero. -/
def EndsZero (m : Memory) : ℕ → List CString → Prop
  | _, [] => True
  | c, arg :: args => m c = 0 ∧ EndsZero m (c - strlen arg - 1) args

/-- The string at `a` is `str`. -/
def StringAt (m : Memory) (a : ℕ) (str : CString) : Prop :=
  (∀ (k : ℕ) (hk : k < str.val.length), m (a + k) = str.val[k]) ∧ m (a + strlen str) = 0

theorem EndsZero.congr (hm : ∀ b, InPage b → b ≤ c → m' b = m b) (hc : c < ARGS_SEGMENT_START)
    (hroom : ARGS_SEGMENT_START - PAGE_SIZE + room args ≤ c + 1) :
    EndsZero m' c args ↔ EndsZero m c args := by
  induction args generalizing c with
  | nil => rfl
  | cons arg args ih =>
    rw [room] at hroom
    have hbase : ARGS_SEGMENT_START - PAGE_SIZE > 0 := by decide
    rw [EndsZero, EndsZero, hm c ⟨by omega, hc⟩ le_rfl,
      ih (fun b hb hle => hm b hb (by omega)) (by omega) (by omega)]

/-- The strings are where the array says, if their ends are zero. -/
theorem Laid.strings (h : Laid m ptr c i args)
    (hroom : ARGS_SEGMENT_START - PAGE_SIZE + room args ≤ c + 1) :
    (∀ (k : ℕ) (hk : k < args.length), StringAt m (load 8 m (ptr + (i + k) * 8)) args[k]) ↔
      EndsZero m c args := by
  induction args generalizing c i with
  | nil => exact iff_of_true nofun trivial
  | cons arg args ih =>
    rw [room] at hroom
    have hbase : ARGS_SEGMENT_START - PAGE_SIZE > 0 := by decide
    obtain ⟨hptr, hbytes, hrest⟩ := h
    have hrest := ih hrest (by omega)
    have hfirst : StringAt m (load 8 m (ptr + (i + 0) * 8)) arg ↔ m c = 0 := by
      rw [Nat.add_zero, hptr, StringAt, and_iff_right hbytes, Nat.sub_add_cancel (by omega)]
    rw [EndsZero, ← hrest, ← hfirst]
    constructor
    · intro hall
      refine ⟨hall 0 (Nat.succ_pos _), fun k hk => ?_⟩
      have hk := hall (k + 1) (Nat.succ_lt_succ hk)
      rwa [show i + (k + 1) = i + 1 + k by omega] at hk
    · rintro ⟨h0, hall⟩ k hk
      cases k with
      | zero => exact h0
      | succ k =>
        have hk := hall k (Nat.lt_of_succ_lt_succ hk)
        rwa [show i + 1 + k = i + (k + 1) by omega] at hk

/-! ### Writing inside the page -/

/-- What the constructor sets up and a failed call leaves: the page is mapped. -/
structure Prepared (s : Kernel) : Prop where
  addr : s.proc.args_seg_addr_ = ARGS_SEGMENT_START
  mapped : s.proc.loader_.arch_memory_.mapping argsVpn = some s.proc.args_ppn_

theorem Prepared.congr (h : Prepared s) (hs : Same s t) : Prepared t := by
  obtain ⟨haddr, hmapped⟩ := h
  rw [← hs.proc] at haddr hmapped
  exact ⟨haddr, hmapped⟩

theorem InPage.vpn (h : InPage a) : a / PAGE_SIZE = argsVpn := by
  have hvpn : argsVpn = 0x7fffffffe := by decide
  unfold InPage ARGS_SEGMENT_START PAGE_SIZE at h
  unfold PAGE_SIZE
  omega

theorem Prepared.view_eq (h : Prepared s) (ha : InPage a) :
    s.view a = s.frames s.proc.args_ppn_ (a % PAGE_SIZE) := by
  unfold Kernel.view
  rw [ha.vpn, h.mapped]

theorem Prepared.writeByte (h : Prepared s) (ha : InPage a) (hb : InPage b) :
    (writeByte s a v).view b = if b = a then v else s.view b := by
  have h' : Prepared (Execv.writeByte s a v) := h.congr ⟨rfl, rfl⟩
  rw [h'.view_eq hb, h.view_eq hb]
  unfold Execv.writeByte
  simp only [ha.vpn, h.mapped, update_self]
  by_cases hba : b = a
  · rw [hba, update_self, if_pos rfl]
  · have hne : b % PAGE_SIZE ≠ a % PAGE_SIZE := by
      have hav : a / 4096 = argsVpn := ha.vpn
      have hbv : b / 4096 = argsVpn := hb.vpn
      show b % 4096 ≠ a % 4096
      omega
    rw [update_of_ne hne, if_neg hba]

theorem Prepared.writeBytes_apart (h : Prepared s)
    (ha : ARGS_SEGMENT_START - PAGE_SIZE ≤ a) (hlen : a + bs.length ≤ ARGS_SEGMENT_START)
    (hb : InPage b) (hapart : b < a ∨ a + bs.length ≤ b) : (writeBytes s a bs).view b = s.view b := by
  induction bs generalizing s a with
  | nil => rfl
  | cons v bs ih =>
    rw [List.length_cons] at hlen hapart
    have hstart : ARGS_SEGMENT_START < 2 ^ 64 := by decide
    have hrest := ih (s := Execv.writeByte s a v) (a := a + 1) (h.congr ⟨rfl, rfl⟩) (by omega)
      (by omega) (by omega)
    rw [writeBytes, add64_of_lt (by omega), hrest, h.writeByte ⟨ha, by omega⟩ hb,
      if_neg (by omega)]

theorem Prepared.writeBytes_inside (h : Prepared s)
    (ha : ARGS_SEGMENT_START - PAGE_SIZE ≤ a) (hlen : a + bs.length ≤ ARGS_SEGMENT_START)
    (hk : k < bs.length) : (writeBytes s a bs).view (a + k) = bs[k] := by
  induction bs generalizing s a k with
  | nil => cases hk
  | cons v bs ih =>
    rw [List.length_cons] at hlen hk
    have hstart : ARGS_SEGMENT_START < 2 ^ 64 := by decide
    have h' : Prepared (Execv.writeByte s a v) := h.congr ⟨rfl, rfl⟩
    rw [writeBytes, add64_of_lt (by omega)]
    cases k with
    | zero =>
      have hrest : (writeBytes (Execv.writeByte s a v) (a + 1) bs).view a =
          (Execv.writeByte s a v).view a :=
        h'.writeBytes_apart (by omega) (by omega) ⟨ha, by omega⟩ (.inl (Nat.lt_succ_self a))
      show (writeBytes (Execv.writeByte s a v) (a + 1) bs).view a = v
      rw [hrest, h.writeByte ⟨ha, by omega⟩ ⟨ha, by omega⟩, if_pos rfl]
    | succ k =>
      have hrest := ih (a := a + 1) h' (by omega) (by omega) (Nat.lt_of_succ_lt_succ hk)
      rwa [Nat.add_assoc, Nat.add_comm 1] at hrest

theorem writeBytes_written (ha : a + bs.length ≤ 2 ^ 64) (hb : b ∈ (writeBytes s a bs).written) :
    b ∈ s.written ∨ (a ≤ b ∧ b < a + bs.length) := by
  induction bs generalizing s a with
  | nil => exact .inl hb
  | cons v bs ih =>
    rw [List.length_cons] at ha ⊢
    by_cases hwrap : a + 1 = 2 ^ 64
    · obtain rfl : bs = [] := List.length_eq_zero_iff.mp (by omega)
      obtain rfl | hb := List.mem_cons.mp hb
      · exact .inr (by omega)
      · exact .inl hb
    · rw [writeBytes, add64_of_lt (by omega)] at hb
      obtain hb | hb := ih (by omega) hb
      · obtain rfl | hb := List.mem_cons.mp hb
        · exact .inr (by omega)
        · exact .inl hb
      · exact .inr (by omega)

theorem length_pointerBytes : (pointerBytes a).length = 8 := by
  rw [pointerBytes, List.length_map, List.length_range]

theorem load_pointer (h : ∀ (k : ℕ) (hk : k < (pointerBytes a).length),
    m (ptr + k) = (pointerBytes a)[k]) (ha : a < 2 ^ 64) : load 8 m ptr = a := by
  have hload : load 8 m ptr = a % 256 ^ 8 := load_of_bytes fun k hk => by
    rw [h k (by rw [length_pointerBytes]; exact hk)]
    simp [pointerBytes]
  rw [hload]
  omega

/-- What the loop leaves, if the strings fit below `c`. -/
structure Copied (s t : Kernel) (ptr c i : ℕ) (args : List CString) : Prop where
  apart : ∀ b, InPage b → (c ≤ b ∨ b + room args ≤ c) →
    (b < ptr + i * 8 ∨ ptr + (i + args.length) * 8 ≤ b) → t.view b = s.view b
  laid : Laid t.view ptr c i args
  ends : EndsZero t.view c args ↔ EndsZero s.view c args
  written : ∀ b ∈ t.written, b ∈ s.written ∨ InPage b

theorem Prepared.copyArgs (h : Prepared s)
    (hroom : ARGS_SEGMENT_START - PAGE_SIZE + room args ≤ c + 1) (hc : c < ptr)
    (hptr : ptr + (i + args.length) * 8 ≤ ARGS_SEGMENT_START) :
    Copied s (copyArgs ptr c i args s) ptr c i args := by
  induction args generalizing s c i with
  | nil => exact ⟨fun _ _ _ _ => rfl, trivial, Iff.rfl, fun _ hb => .inl hb⟩
  | cons arg args ih =>
    have hbase : ARGS_SEGMENT_START - PAGE_SIZE > 0 := by decide
    have hstart : ARGS_SEGMENT_START < 2 ^ 64 := by decide
    rw [room] at hroom
    rw [List.length_cons] at hptr
    have hlen : arg.val.length = strlen arg := rfl
    rw [Execv.copyArgs, sub64_of_le (a := c) (b := strlen arg) (by omega) (by omega),
      sub64_of_le (a := c - strlen arg) (b := 1) (by omega) (by omega), add64_of_lt (by omega)]
    obtain ⟨s₁, hs₁⟩ : ∃ u, u = writeBytes s (ptr + i * 8) (pointerBytes (c - strlen arg)) :=
      ⟨_, rfl⟩
    obtain ⟨s₂, hs₂⟩ : ∃ u, u = writeBytes s₁ (c - strlen arg) arg.val := ⟨_, rfl⟩
    rw [← hs₁, ← hs₂]
    have h₁ : Prepared s₁ := h.congr (hs₁ ▸ same_writeBytes)
    have h₂ : Prepared s₂ := h₁.congr (hs₂ ▸ same_writeBytes)
    have hrest := ih (s := s₂) (c := c - strlen arg - 1) (i := i + 1) h₂ (by omega) (by omega)
      (by omega)
    have hslot : ∀ b, InPage b → (b < ptr + i * 8 ∨ ptr + i * 8 + 8 ≤ b) → s₁.view b = s.view b := by
      intro b hb hout
      rw [hs₁]
      refine h.writeBytes_apart (by omega) ?_ hb ?_
      · rw [length_pointerBytes]
        omega
      · rw [length_pointerBytes]
        exact hout
    have hstring : ∀ b, InPage b → (b < c - strlen arg ∨ c ≤ b) → s₂.view b = s₁.view b := by
      intro b hb hout
      rw [hs₂]
      exact h₁.writeBytes_apart (by omega) (by omega) hb (by omega)
    refine ⟨fun b hb hc hout => ?_, ⟨?_, fun k hk => ?_, hrest.laid⟩, ?_, fun b hb => ?_⟩
    · rw [List.length_cons] at hout
      rw [room] at hc
      rw [hrest.apart b hb (by omega) (by omega), hstring b hb (by omega), hslot b hb (by omega)]
    · refine load_pointer (fun k hk => ?_) (by omega)
      rw [length_pointerBytes] at hk
      have hin : InPage (ptr + i * 8 + k) := ⟨by omega, by omega⟩
      rw [hrest.apart _ hin (by omega) (by omega), hstring _ hin (by omega), hs₁]
      refine h.writeBytes_inside (by omega) ?_ (by rw [length_pointerBytes]; exact hk)
      rw [length_pointerBytes]
      omega
    · have hin : InPage (c - strlen arg + k) := ⟨by omega, by omega⟩
      rw [hrest.apart _ hin (by omega) (by omega), hs₂]
      exact h₁.writeBytes_inside (by omega) (by omega) hk
    · have hin : InPage c := ⟨by omega, by omega⟩
      have hbelow : EndsZero s₂.view (c - strlen arg - 1) args ↔
          EndsZero s.view (c - strlen arg - 1) args := by
        refine EndsZero.congr (fun b hb hle => ?_) (by omega) (by omega)
        rw [hstring b hb (by omega), hslot b hb (by omega)]
      rw [EndsZero, EndsZero, hrest.ends, hbelow, hrest.apart c hin (by omega) (by omega),
        hstring c hin (by omega), hslot c hin (by omega)]
    · obtain hb | hb := hrest.written b hb
      · rw [hs₂] at hb
        obtain hb | hb := writeBytes_written (by omega) hb
        · rw [hs₁] at hb
          obtain hb | hb := writeBytes_written (by rw [length_pointerBytes]; omega) hb
          · exact .inl hb
          · rw [length_pointerBytes] at hb
            exact .inr ⟨by omega, by omega⟩
        · exact .inr ⟨by omega, by omega⟩
      · exact .inr hb

/-! ### The whole page -/

/-- The byte behind the first argument. -/
def argsTop (path : CString) (args : List CString) : ℕ :=
  ARGS_SEGMENT_START - 10 - strlen path - args.length * 8

/-- The bytes behind the path and the arguments are zero before the call. -/
def Terminated (s : Kernel) (path : CString) (args : List CString) : Prop :=
  s.view (ARGS_SEGMENT_START - 8) = 0 ∧ EndsZero s.view (argsTop path args) args

/-- What `packArgs` leaves, if everything fits. -/
structure Packed (s : Kernel) (path : CString) (args : List CString) : Prop where
  argsPtr_eq : argsPtr s path args = argsTop path args + 1
  laid : Laid (packArgs s path args).view (argsPtr s path args) (argsTop path args) 0 args
  ends : EndsZero (packArgs s path args).view (argsTop path args) args ↔
    EndsZero s.view (argsTop path args) args
  path_iff : StringAt (packArgs s path args).view (pathPtr s path) path ↔
    s.view (ARGS_SEGMENT_START - 8) = 0
  written : ∀ b ∈ (packArgs s path args).written, b ∈ s.written ∨ InPage b

theorem Prepared.packArgs (h : Prepared s) (hfits : Fits path args) : Packed s path args := by
  have hstart : ARGS_SEGMENT_START = 0x00007ffffffff000 := rfl
  have hpage : PAGE_SIZE = 4096 := rfl
  have hlen : path.val.length = strlen path := rfl
  have hfits : strlen path + args.length * 8 + room args + 9 ≤ PAGE_SIZE := hfits
  have hpath : pathPtr s path = ARGS_SEGMENT_START - 8 - strlen path := by
    rw [pathPtr, h.addr, sub64_of_le (a := ARGS_SEGMENT_START) (b := 8) (by omega) (by omega),
      sub64_of_le (by omega) (by omega)]
  have hargs : argsPtr s path args = argsTop path args + 1 := by
    rw [argsPtr, hpath, argsTop, sub64_of_le (b := 1) (by omega) (by omega),
      sub64_of_le (by omega) (by omega)]
    omega
  have htop : argsTop path args + args.length * 8 + 10 + strlen path = ARGS_SEGMENT_START := by
    unfold argsTop
    omega
  obtain ⟨s₁, hs₁⟩ : ∃ u, u = writeBytes s (pathPtr s path) path.val := ⟨_, rfl⟩
  have h₁ : Prepared s₁ := h.congr (hs₁ ▸ same_writeBytes)
  have hcopied : Copied s₁ (Execv.copyArgs (argsTop path args + 1) (argsTop path args) 0 args s₁)
      (argsTop path args + 1) (argsTop path args) 0 args :=
    h₁.copyArgs (by omega) (by omega) (by omega)
  have hpacked : Execv.packArgs s path args =
      Execv.copyArgs (argsTop path args + 1) (argsTop path args) 0 args s₁ := by
    rw [Execv.packArgs, hargs, sub64_of_le (by omega) (by omega), hs₁, Nat.add_sub_cancel]
  have hbelow : ∀ b, InPage b → (b < pathPtr s path ∨ ARGS_SEGMENT_START - 8 ≤ b) →
      s₁.view b = s.view b := by
    intro b hb hout
    rw [hs₁]
    exact h.writeBytes_apart (by omega) (by omega) hb (by omega)
  rw [← hpacked] at hcopied
  refine ⟨hargs, hargs ▸ hcopied.laid, hcopied.ends.trans (EndsZero.congr (fun b hb hle => ?_)
    (by omega) (by omega)), ?_, fun b hb => ?_⟩
  · exact hbelow b hb (by omega)
  · have hbytes : ∀ (k : ℕ) (hk : k < path.val.length),
        (Execv.packArgs s path args).view (pathPtr s path + k) = path.val[k] := by
      intro k hk
      have hin : InPage (pathPtr s path + k) := ⟨by omega, by omega⟩
      rw [hcopied.apart _ hin (by omega) (by omega), hs₁]
      exact h.writeBytes_inside (by omega) (by omega) hk
    have hend : pathPtr s path + strlen path = ARGS_SEGMENT_START - 8 := by omega
    have hin : InPage (ARGS_SEGMENT_START - 8) := ⟨by omega, by omega⟩
    rw [StringAt, and_iff_right hbytes, hend, hcopied.apart _ hin (by omega) (by omega),
      hbelow _ hin (by omega)]
  · obtain hb | hb := hcopied.written b hb
    · rw [hs₁] at hb
      obtain hb | hb := writeBytes_written (by omega) hb
      · exact .inl hb
      · exact .inr ⟨by omega, by omega⟩
    · exact .inr hb

/-! ### What does not fit -/

/-- Strings that do not fit are written below the page. -/
theorem copyArgs_below (hc : ARGS_SEGMENT_START - PAGE_SIZE ≤ c + 1) (hcs : c < ARGS_SEGMENT_START)
    (hlen : ∀ arg ∈ args, 0 < strlen arg) (hroom : c + 1 < ARGS_SEGMENT_START - PAGE_SIZE + room args) :
    ∃ b ∈ (copyArgs ptr c i args s).written, ¬InPage b := by
  have hbase : ARGS_SEGMENT_START - PAGE_SIZE = 0x00007fffffffe000 := by decide
  have hstart : ARGS_SEGMENT_START = 0x00007ffffffff000 := rfl
  induction args generalizing s c i with
  | nil =>
    rw [room] at hroom
    omega
  | cons arg args ih =>
    have hpos := hlen arg List.mem_cons_self
    rw [room] at hroom
    rw [copyArgs]
    by_cases hout : c < ARGS_SEGMENT_START - PAGE_SIZE + strlen arg
    · refine ⟨c - max 1 (c + 1 - (ARGS_SEGMENT_START - PAGE_SIZE)), mem_copyArgs_of_mem ?_, ?_⟩
      · exact mem_writeBelow (by omega) (by omega) (by omega) (show _ ≤ strlen arg by omega)
      · rintro ⟨hlo, -⟩
        omega
    · rw [sub64_of_le (a := c) (b := strlen arg) (by omega) (by omega),
        sub64_of_le (a := c - strlen arg) (b := 1) (by omega) (by omega)]
      exact ih (by omega) (by omega) (fun arg harg => hlen arg (List.mem_cons_of_mem _ harg))
        (by omega)

theorem Prepared.packArgs_below (h : Prepared s) (hpath : 0 < strlen path) (hargs : args ≠ [])
    (hlen : ∀ arg ∈ args, 0 < strlen arg) (hfits : ¬Fits path args) :
    ∃ b ∈ (Execv.packArgs s path args).written, ¬InPage b := by
  have hbase : ARGS_SEGMENT_START - PAGE_SIZE = 0x00007fffffffe000 := by decide
  have hstart : ARGS_SEGMENT_START = 0x00007ffffffff000 := rfl
  have hpage : PAGE_SIZE = 4096 := rfl
  have hfits : PAGE_SIZE < strlen path + args.length * 8 + room args + 9 := not_le.mp hfits
  have haddr : sub64 s.proc.args_seg_addr_ 8 = ARGS_SEGMENT_START - 8 := by
    rw [h.addr, sub64_of_le (by omega) (by omega)]
  have hargs := List.length_pos_iff.mpr hargs
  rw [Execv.packArgs]
  by_cases hlong : 4088 < strlen path
  · refine ⟨ARGS_SEGMENT_START - 8 - 4089, mem_copyArgs_of_mem ?_, fun hin => ?_⟩
    · rw [pathPtr, haddr]
      exact mem_writeBelow (by omega) (by omega) (by omega) (show _ ≤ strlen path by omega)
    · have hlo := hin.1
      omega
  · have hptr : pathPtr s path = ARGS_SEGMENT_START - 8 - strlen path := by
      rw [pathPtr, haddr, sub64_of_le (by omega) (by omega)]
    obtain ⟨c, hc⟩ : ∃ c, c = ARGS_SEGMENT_START - 9 - strlen path := ⟨_, rfl⟩
    have hcsub : sub64 (pathPtr s path) 1 = c := by
      rw [hptr, sub64_of_le (by omega) (by omega)]
      omega
    by_cases harray : c < ARGS_SEGMENT_START - PAGE_SIZE + args.length * 8
    · -- the slot that reaches below the page
      obtain ⟨j, hj⟩ : ∃ j, j = (c - (ARGS_SEGMENT_START - PAGE_SIZE)) / 8 + 1 := ⟨_, rfl⟩
      have hslot : add64 (argsPtr s path args) ((0 + (args.length - j)) * 8) ∈
          (Execv.copyArgs (argsPtr s path args) (sub64 (argsPtr s path args) 1) 0 args
            (writeBytes s (pathPtr s path) path.val)).written := mem_slot (by omega)
      refine ⟨_, hslot, fun hin => ?_⟩
      have hlo := hin.1
      have heq : add64 (argsPtr s path args) ((0 + (args.length - j)) * 8) = c - j * 8 := by
        rw [argsPtr, hcsub]
        unfold add64 sub64
        omega
      rw [heq] at hlo
      omega
    · have hargsPtr : argsPtr s path args = c - args.length * 8 := by
        rw [argsPtr, hcsub, sub64_of_le (by omega) (by omega)]
      rw [hargsPtr, sub64_of_le (b := 1) (by omega) (by omega)]
      exact copyArgs_below (by omega) (by omega) hlen (by omega)

/-! ### The new image -/

/-- The call returns -1, or it writes to the page only and the new image has the arguments. -/
def PassesArgs (env : Env) (path : CString) (args : List CString) (s : Kernel) : Prop :=
  let t := (execv env (some path) (some args) s).1
  let registers := t.proc.currentThread.user_registers_
  (execv env (some path) (some args) s).2 = -1 ∨
    (∀ b ∈ t.written, InPage b) ∧
    StringAt (packArgs { s with written := [] } path args).view (pathPtr s path) path ∧
    registers .rdi = args.length ∧
    ∀ (k : ℕ) (hk : k < args.length),
      StringAt t.view (load 8 t.view (registers .rsi + k * 8)) args[k]

/-- A call that returned -1. -/
def Failed (s t : Kernel) : Prop := ∃ env path args, execv env path args s = (t, -1)

theorem Prepared.failed (h : Prepared s) (hs : Failed s t) : Prepared t := by
  obtain ⟨env, path, args, heq⟩ := hs
  by_cases hbad : badArguments path args
  · have hsame : Same s (execv env path args s).1 := (execv_bad hbad).2
    rw [heq] at hsame
    exact h.congr hsame
  · cases path with
    | none => exact absurd trivial hbad
    | some path =>
      cases args with
      | none => exact absurd trivial hbad
      | some args =>
        have hstart : Same s { s with written := [] } := ⟨rfl, rfl⟩
        have hpack : Same _ (Execv.packArgs { s with written := [] } path args) := same_packArgs
        have h' := h.congr (hstart.trans hpack)
        rw [execv_good hbad] at heq
        unfold restructureProcessForExecv at heq
        cases hload : loadExecutable env with
        | some entry =>
          simp only [hload] at heq
          cases congrArg Prod.snd heq
        | none =>
          simp only [hload, openFile] at heq
          obtain ⟨haddr, hmapped⟩ := h'
          split at heq
          · cases heq
            exact ⟨haddr, hmapped⟩
          · cases heq
            exact ⟨haddr, hmapped⟩

/-- What a call that succeeds leaves, for the packed state `s`. -/
structure Restructured (s t : Kernel) (argv argc : ℕ) : Prop where
  written : t.written = s.written
  rdi : t.proc.currentThread.user_registers_ .rdi = ofInt argc
  rsi : t.proc.currentThread.user_registers_ .rsi = argv
  view : ∀ b, InPage b → t.view b = s.view b

theorem Prepared.restructure {entry a n : ℕ} (h : Prepared s)
    (hload : loadExecutable env = some entry) :
    (restructureProcessForExecv env a n s).2 = 0 ∧
      Restructured s (restructureProcessForExecv env a n s).1 a n := by
  have hopens : env.opens = true := by
    by_contra hclosed
    rw [loadExecutable, if_neg hclosed] at hload
    cases hload
  unfold restructureProcessForExecv
  simp only [hload, openFile, hopens]
  refine ⟨trivial, rfl, rfl, rfl, fun b hb => ?_⟩
  have hstack : argsVpn ≠ env.stack_start_addr_.val / PAGE_SIZE - 1 := by
    have hlt := env.stack_start_addr_.property.2.2
    have hvpn : argsVpn = 0x7fffffffe := by decide
    unfold STACK_SPACE_START at hlt
    unfold PAGE_SIZE
    omega
  rw [h.view_eq hb]
  unfold Kernel.view mapPage
  simp only [hb.vpn, update_of_ne hstack, update_self]
  rfl

theorem ofInt_of_lt (h : n < 2 ^ 31) : ofInt n = n := by
  have hmod : n % 2 ^ 32 = n := Nat.mod_eq_of_lt (by omega)
  have hmsb : (BitVec.ofNat 32 n).msb = false := by
    rw [BitVec.msb_eq_decide, BitVec.toNat_ofNat, hmod]
    exact decide_eq_false (by omega)
  rw [ofInt, BitVec.toNat_signExtend, hmsb, BitVec.toNat_setWidth, BitVec.toNat_ofNat, hmod]
  simp only [Bool.false_eq_true, ↓reduceIte, Nat.add_zero]
  exact Nat.mod_eq_of_lt (by omega)

theorem Laid.congr (h : Laid m ptr c i args) (hm : ∀ b, InPage b → m' b = m b)
    (hroom : ARGS_SEGMENT_START - PAGE_SIZE + room args ≤ c + 1) (hc : c < ptr)
    (hptr : ptr + (i + args.length) * 8 ≤ ARGS_SEGMENT_START) : Laid m' ptr c i args := by
  induction args generalizing c i with
  | nil => trivial
  | cons arg args ih =>
    rw [room] at hroom
    rw [List.length_cons] at hptr
    have hbase : ARGS_SEGMENT_START - PAGE_SIZE > 0 := by decide
    have hlen : arg.val.length = strlen arg := rfl
    obtain ⟨hload, hbytes, hrest⟩ := h
    refine ⟨?_, fun k hk => ?_, ih hrest (by omega) (by omega) (by omega)⟩
    · rw [← hload]
      exact load_congr fun b hlo hhi => hm b ⟨by omega, by omega⟩
    · rw [← hbytes k hk]
      exact hm _ ⟨by omega, by omega⟩

/-- A process as its constructor leaves it; the arguments page is zero. -/
def created : Kernel where
  proc := ⟨ARGS_SEGMENT_START, 5, ⟨3, ⟨4, update (fun _ => none) argsVpn (some 5)⟩⟩,
    ⟨0, false, 0, fun _ => 0⟩, [], [(4, 3)]⟩
  frames := fun _ _ => 0
  global_fd := [3]
  fd_num_ := 4
  written := []

/-- What `execv` finds if the program has the entry point `entry`. -/
def program (entry : Option ℕ) : Env := { noProgram with entry := entry }

theorem created_prepared : Prepared created := ⟨rfl, by decide +kernel⟩

end KPanic.Execv
