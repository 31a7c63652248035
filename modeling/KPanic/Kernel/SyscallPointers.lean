import KPanic.Kernel.Syscall

/-!
# Which system calls keep to the user half

A call that checks the start of a cell but not its end, one that does not check a string at all,
and the range check whose sum wraps, each leave it for some arguments. `Harmless` has the
arguments with which no memory and no state of the process leads there.
-/

namespace KPanic.Syscalls

open Bytes Wp
open Files (int)
open Files.Syscall (badBuffer)

variable {env : Env} {s : UserMemory} {a b n i len L passes flag : ℕ}

/-! ### Conversions and checks -/

theorem int_toNat_le (n : ℕ) : (int n).toNat ≤ n := by
  have hmod := Nat.mod_le n (2 ^ 32)
  unfold int
  rw [BitVec.toInt_eq_toNat_cond, BitVec.toNat_ofNat]
  split
  · omega
  · omega

theorem badBuffer_eq_false : badBuffer a n = false ↔ a < USER_BREAK ∧ add64 a n ≤ USER_BREAK := by
  unfold badBuffer
  rw [Bool.or_eq_false_iff, decide_eq_false_iff_not, decide_eq_false_iff_not, Nat.not_le, Nat.not_lt]

/-- The check decides the range when the sum does not wrap, and accepts every range that wraps. -/
theorem range_iff (ha : a < USER_BREAK) (hn : n < 2 ^ 64) :
    (badBuffer a n = false → a + n ≤ USER_BREAK) ↔ a + n < 2 ^ 64 := by
  have hbreak : USER_BREAK < 2 ^ 63 := by decide
  rw [badBuffer_eq_false]
  constructor
  · intro h
    by_contra hwrap
    have hadd : add64 a n = a + n - 2 ^ 64 := by
      unfold add64
      omega
    have hle := h ⟨ha, by omega⟩
    omega
  · intro hlt h
    rw [add64_of_lt hlt] at h
    exact h.2

/-! ### `VfsSyscall.cpp` -/

theorem wp_skipDots (hend : s (a + L) = some 0) (hL : a + L < USER_BREAK) (hlen : len ≤ L) (hi : i ≤ L) :
    wp Confined (VfsSyscall.skipDots len a passes i) (fun _ t => t = s) s := by
  induction passes generalizing i with
  | zero => exact (wp_pure _).mpr rfl
  | succ passes ih =>
    have hseparator : wp Confined (VfsSyscall.separatorAt len a i)
        (fun separator t => t = s ∧ (separator = true → i < len)) s := by
      refine wp_ite (fun hlt => ?_) fun _ => (wp_pure _).mpr ⟨rfl, fun h => by cases h⟩
      refine wp_seq (wp_touch (by omega)) fun c t ht => ?_
      exact (wp_pure _).mpr ⟨ht.1, fun _ => hlt⟩
    rw [VfsSyscall.skipDots]
    refine wp_seq hseparator fun separator t ht => ?_
    obtain ⟨ht, hsep⟩ := ht
    subst ht
    refine wp_ite (fun h => ih ?_) fun _ => ?_
    · have hlt := hsep h
      omega
    · refine wp_seq (wp_touch (by omega)) fun c u hu => ?_
      obtain ⟨hu, hc, -⟩ := hu
      subst hu
      refine wp_ite (fun _ => (wp_pure _).mpr rfl) fun hdot => ih ?_
      -- the NUL is no dot
      have hne : i ≠ L := by
        intro heq
        subst heq
        rw [hend] at hc
        rw [← Option.some.inj hc] at hdot
        exact hdot (by decide)
      omega

theorem wp_dupChecking (h : Ends s a) : wp Confined (VfsSyscall.dupChecking a) (fun _ t => t = s) s := by
  unfold VfsSyscall.dupChecking
  refine wp_ite (fun _ => (wp_pure _).mpr rfl) fun _ => ?_
  refine wp_seq (wp_strlen h) fun k t ht => ?_
  obtain ⟨ht, hk, hend⟩ := ht
  subst ht
  refine wp_seq (wp_skipDots hend hk (Nat.mod_le _ _) (Nat.zero_le _)) fun _ u hu => ?_
  subst hu
  rw [wp_map]
  exact wp_readString h

theorem wp_vfs_open (h : Ends s a ∨ VfsSyscall.badFlags flag = true) :
    wp Confined (VfsSyscall.open env a flag) (fun _ t => t = s) s := by
  unfold VfsSyscall.open
  refine wp_ite (fun _ => (wp_pure _).mpr rfl) fun hflags => ?_
  refine wp_seq (wp_dupChecking (h.resolve_right hflags)) fun _ t ht => ?_
  subst ht
  refine wp_ite (fun _ => (wp_pure _).mpr rfl) fun _ => ?_
  exact wp_ite (fun _ => (wp_pure _).mpr rfl) fun _ => (wp_pure _).mpr rfl

/-- A call that reads the path before anything else of the caller. -/
theorem wp_open (h : Ends s a ∨ USER_BREAK ≤ a ∨ VfsSyscall.badFlags (flag % 2 ^ 32) = true) :
    wp Confined (Syscalls.open env a flag) (fun _ _ => True) s := by
  unfold Syscalls.open
  refine wp_ite (fun _ => (wp_pure _).mpr trivial) fun ha => ?_
  have hopen : Ends s a ∨ VfsSyscall.badFlags (flag % 2 ^ 32) = true := by
    rcases h with hends | hbreak | hflags
    · exact .inl hends
    · exact absurd hbreak ha
    · exact .inr hflags
  refine wp_seq (wp_vfs_open hopen) fun _ _ _ => ?_
  exact (wp_pure _).mpr trivial

theorem wp_createprocess (h : Ends s a ∨ USER_BREAK ≤ a) :
    wp Confined (createprocess env a) (fun _ _ => True) s := by
  unfold createprocess
  refine wp_ite (fun _ => (wp_pure _).mpr trivial) fun ha => ?_
  have hends := h.resolve_right ha
  refine wp_seq (wp_printString hends) fun _ t ht => ?_
  subst ht
  refine wp_seq (wp_vfs_open (.inl hends)) fun _ t ht => ?_
  subst ht
  refine wp_ite (fun _ => (wp_pure _).mpr trivial) fun _ => ?_
  refine wp_seq (wp_printString hends) fun _ t ht => ?_
  subst ht
  refine wp_seq (wp_readString hends) fun _ t ht => ?_
  subst ht
  refine wp_seq (wp_printString hends) fun _ t ht => ?_
  subst ht
  refine wp_seq (wp_printString hends) fun _ _ _ => ?_
  exact (wp_pure _).mpr trivial

theorem wp_readdir (h : Ends s a) : wp Confined (VfsSyscall.readdir a) (fun _ _ => True) s := by
  unfold VfsSyscall.readdir
  refine wp_seq (wp_dupChecking h) fun _ _ _ => ?_
  exact (wp_pure _).mpr trivial

/-- No path but the empty one and a null pointer is checked; here it kills the thread. -/
theorem wp_execv (h : a < null_reference_check_border_) :
    wp Confined (execv env a b) (fun _ _ => True) s := by
  unfold execv
  refine wp_ite (fun _ => (wp_pure _).mpr trivial) fun _ => ?_
  exact wp_seq (wp_strlen_null h) fun _ _ hfalse => hfalse.elim

/-! ### Buffers -/

theorem wp_putChars {to_write : RingBuffer UInt8} (h : a + n ≤ USER_BREAK) :
    wp Confined (putChars n a to_write) (fun _ _ => True) s := by
  induction n generalizing a to_write s with
  | zero => exact (wp_pure _).mpr trivial
  | succ n ih =>
    rw [putChars]
    refine wp_seq (wp_touch (by omega)) fun c t _ => ?_
    refine wp_ite (fun _ => ?_) fun _ => (wp_pure _).mpr trivial
    refine wp_seq (ih (by omega)) fun _ _ _ => ?_
    exact (wp_pure _).mpr trivial

theorem wp_readChars (h : a + i + passes ≤ USER_BREAK) :
    wp Confined (readChars env a passes i) (fun k _ => k ≤ i + passes) s := by
  induction passes generalizing i s with
  | zero => exact (wp_pure _).mpr (Nat.le_refl i)
  | succ passes ih =>
    rw [readChars]
    refine wp_seq (wp_storeByte (by omega)) fun _ t _ => ?_
    refine wp_ite (fun _ => (wp_pure _).mpr (by omega)) fun _ => ?_
    refine wp_mono (ih (by omega)) fun k _ hk => ?_
    omega

theorem wp_readLine (h : a + n ≤ USER_BREAK) : wp Confined (readLine env a n) (fun k _ => k ≤ n) s := by
  unfold readLine
  refine wp_ite (fun _ => (wp_pure _).mpr (Nat.zero_le n)) fun _ => ?_
  refine wp_seq (wp_readChars (by omega)) fun k t hk => ?_
  rw [Nat.zero_add] at hk
  refine wp_ite (fun hlt => ?_) fun _ => (wp_pure _).mpr hk
  refine wp_seq (wp_storeByte (by omega)) fun _ _ _ => ?_
  exact (wp_pure _).mpr hk

theorem wp_vfs_read {fd : ℕ} (h : a + n ≤ USER_BREAK) :
    wp Confined (VfsSyscall.read env fd a n) (fun _ _ => True) s := by
  unfold VfsSyscall.read
  cases env.files fd with
  | none => exact (wp_pure _).mpr trivial
  | some file_descriptor =>
    have hlen := List.length_take_le n file_descriptor.data
    refine wp_ite (fun _ => (wp_pure _).mpr trivial) fun _ => ?_
    refine wp_ite (fun _ => (wp_pure _).mpr trivial) fun _ => ?_
    refine wp_seq (wp_storeBytes (by omega)) fun _ _ _ => ?_
    exact (wp_pure _).mpr trivial

theorem wp_vfs_write {fd : ℕ} (h : a + n ≤ USER_BREAK) :
    wp Confined (VfsSyscall.write env fd a n) (fun _ _ => True) s := by
  unfold VfsSyscall.write
  cases env.files fd with
  | none => exact (wp_pure _).mpr trivial
  | some file_descriptor =>
    refine wp_ite (fun _ => (wp_pure _).mpr trivial) fun _ => ?_
    refine wp_ite (fun _ => (wp_pure _).mpr trivial) fun _ => ?_
    refine wp_seq (wp_readBytes (by omega)) fun _ _ _ => ?_
    exact (wp_pure _).mpr trivial

theorem wp_readFromPipe {fd : ℤ} (h : a + n ≤ USER_BREAK) :
    wp Confined (readFromPipe env fd a n) (fun _ _ => True) s := by
  unfold readFromPipe
  cases env.proc.readBuffer fd with
  | none => exact (wp_pure _).mpr trivial
  | some to_read =>
    have hlen := RingBuffer.length_getMany n (env.buffers to_read)
    refine wp_seq (wp_storeBytes (by omega)) fun _ _ _ => ?_
    exact (wp_pure _).mpr trivial

theorem wp_writeToPipe {fd : ℤ} (h : a + n ≤ USER_BREAK) :
    wp Confined (writeToPipe env fd a n) (fun _ _ => True) s := by
  unfold writeToPipe
  cases env.proc.writeBuffer fd with
  | none => exact (wp_pure _).mpr trivial
  | some to_write => exact wp_putChars h

theorem wp_write {fd : ℕ} (h : badBuffer a n = false → a + n ≤ USER_BREAK) :
    wp Confined (write env fd a n) (fun _ _ => True) s := by
  unfold write
  refine wp_ite (fun _ => (wp_pure _).mpr trivial) fun hbad => ?_
  have hrange := h (Bool.not_eq_true _ ▸ hbad)
  have hint := int_toNat_le n
  have hmod := Nat.mod_le n (2 ^ 32)
  refine wp_ite (fun _ => ?_) fun _ => ?_
  · refine wp_seq (wp_printPrecision (by omega)) fun _ t _ => ?_
    refine wp_seq (wp_printPrecision (by omega)) fun _ _ _ => ?_
    exact (wp_pure _).mpr trivial
  refine wp_ite (fun _ => ?_) fun _ => ?_
  · rw [wp_map]
    exact wp_writeToPipe hrange
  refine wp_ite (fun _ => (wp_pure _).mpr trivial) fun _ => ?_
  rw [wp_map]
  exact wp_vfs_write (by omega)

theorem wp_read {fd : ℕ} (h : badBuffer a n = false → a + n ≤ USER_BREAK) :
    wp Confined (read env fd a n) (fun _ _ => True) s := by
  unfold read
  refine wp_ite (fun _ => (wp_pure _).mpr trivial) fun hbad => ?_
  have hrange := h (Bool.not_eq_true _ ▸ hbad)
  have hmod := Nat.mod_le n (2 ^ 32)
  refine wp_ite (fun _ => ?_) fun _ => ?_
  · refine wp_seq (wp_readLine (by omega)) fun k t hk => ?_
    have hint := int_toNat_le k
    refine wp_seq (wp_printPrecision (by omega)) fun _ _ _ => ?_
    exact (wp_pure _).mpr trivial
  refine wp_ite (fun _ => ?_) fun _ => ?_
  · rw [wp_map]
    exact wp_readFromPipe hrange
  refine wp_ite (fun _ => (wp_pure _).mpr trivial) fun _ => ?_
  rw [wp_map]
  exact wp_vfs_read (by omega)

/-! ### Result cells -/

theorem wp_create_thread (h : USER_BREAK ≤ a ∨ a + 8 ≤ USER_BREAK) :
    wp Confined (create_thread env a) (fun _ _ => True) s := by
  unfold create_thread
  refine wp_ite (fun _ => (wp_pure _).mpr trivial) fun hcheck => ?_
  refine wp_seq (wp_storeBytes ?_) fun _ _ _ => (wp_pure _).mpr trivial
  rw [length_leBytes]
  omega

theorem wp_join_thread (h : USER_BREAK ≤ a ∨ a + 8 ≤ USER_BREAK) :
    wp Confined (join_thread env a) (fun _ _ => True) s := by
  unfold join_thread
  refine wp_ite (fun _ => (wp_pure _).mpr trivial) fun hcheck => ?_
  refine wp_ite (fun _ => ?_) fun _ => (wp_pure _).mpr trivial
  refine wp_seq (wp_storeBytes ?_) fun _ _ _ => (wp_pure _).mpr trivial
  rw [length_leBytes]
  omega

theorem wp_waitpid {pid options : ℕ}
    (h : pid = 0 ∨ int pid < -1 ∨ (options ≠ 0 ∧ options ≠ 4) ∨ USER_BREAK ≤ a ∨ a + 4 ≤ USER_BREAK) :
    wp Confined (waitpid env pid a options) (fun _ _ => True) s := by
  unfold waitpid
  refine wp_ite (fun _ => (wp_pure _).mpr trivial) fun hcheck => ?_
  refine wp_ite (fun hoptions => ?_) fun _ => (wp_pure _).mpr trivial
  refine wp_ite (fun _ => ?_) fun _ => (wp_pure _).mpr trivial
  refine wp_seq (wp_storeBytes ?_) fun _ _ _ => (wp_pure _).mpr trivial
  rw [length_leBytes]
  omega

theorem wp_pipe (h : USER_BREAK ≤ a ∨ USER_BREAK ≤ b ∨ a < null_reference_check_border_ ∨
    (a + 4 ≤ USER_BREAK ∧ b + 4 ≤ USER_BREAK)) : wp Confined (pipe env a b) (fun _ _ => True) s := by
  have hborder : null_reference_check_border_ + 4 ≤ USER_BREAK := by decide
  unfold pipe openPipe
  refine wp_ite (fun _ => (wp_pure _).mpr trivial) fun hcheck => ?_
  have ha : a + 4 ≤ USER_BREAK := by omega
  refine wp_seq (wp_storeBytes (length_leBytes ▸ ha)) fun _ _ hmapped => ?_
  have hlow := hmapped (List.ne_nil_of_length_pos (by rw [length_leBytes]; decide))
  have hb : b + 4 ≤ USER_BREAK := by omega
  refine wp_seq (wp_storeBytes (length_leBytes ▸ hb)) fun _ _ _ => ?_
  refine wp_seq (wp_loadWord ha) fun _ _ _ => ?_
  refine wp_seq (wp_loadWord hb) fun _ _ _ => ?_
  refine wp_seq (wp_loadWord ha) fun _ _ _ => ?_
  refine wp_seq (wp_loadWord hb) fun _ _ _ => ?_
  exact (wp_pure _).mpr trivial

theorem wp_outline {port : ℕ} (h : port ≠ 0xe9 ∨ USER_BREAK ≤ a ∨ Ends s a ∨ a + 250 < USER_BREAK) :
    wp Confined (outline port a) (fun _ _ => True) s := by
  unfold outline
  refine wp_ite (fun _ => (wp_pure _).mpr trivial) fun ha => ?_
  refine wp_ite (fun hport => ?_) fun _ => (wp_pure _).mpr trivial
  exact wp_writeChars2Bochs (by tauto)

/-! ### Calls that leave the user half

With a memory that holds no NUL, every string that is not refused runs to `USER_BREAK`. -/

theorem ne_null (h : ¬Ends s a) : a ≠ 0 := by
  intro ha
  rw [ha] at h
  exact h (ends_of_border (by decide))

theorem dupChecking_escapes (h : ¬Ends s a) : Escapes (VfsSyscall.dupChecking a) s := by
  unfold VfsSyscall.dupChecking
  rw [if_neg (ne_null h)]
  exact escapes_bind (strlen_escapes_iff.mpr h)

theorem open_escapes (h : ¬Ends s a) (ha : a < USER_BREAK)
    (hflags : VfsSyscall.badFlags (flag % 2 ^ 32) = false) : Escapes (Syscalls.open env a flag) s := by
  unfold Syscalls.open VfsSyscall.open
  rw [if_neg (Nat.not_le.mpr ha), hflags, if_neg Bool.false_ne_true]
  exact escapes_bind (escapes_bind (dupChecking_escapes h))

theorem createprocess_escapes (h : ¬Ends s a) (ha : a < USER_BREAK) : Escapes (createprocess env a) s := by
  unfold createprocess printString
  rw [if_neg (Nat.not_le.mpr ha), if_neg (ne_null h)]
  exact escapes_bind (escapes_bind (readString_escapes h))

theorem execv_escapes (h : ¬Ends s a) : Escapes (execv env a b) s := by
  unfold execv
  rw [if_neg (ne_null h)]
  exact escapes_bind (strlen_escapes_iff.mpr h)

theorem outline_escapes (h : ¬Ends s a) (ha : a < USER_BREAK) (hend : USER_BREAK ≤ a + 250) :
    Escapes (outline 0xe9 a) s := by
  unfold outline
  rw [if_neg (Nat.not_le.mpr ha), if_pos rfl]
  exact writeChars2Bochs_escapes h hend

/-- A cell whose start passes the check and whose end is not below `USER_BREAK`. -/
theorem cell_escapes {l : List UInt8} (h : Mapped s) (ha : a < USER_BREAK) (hl : l.length ≤ 8)
    (hend : USER_BREAK < a + l.length) : Escapes (storeBytes l a) s := by
  have hborder : null_reference_check_border_ + 8 ≤ USER_BREAK := by decide
  exact storeBytes_escapes h (by omega) (Nat.le_of_lt ha) hend

theorem create_thread_escapes (h : Mapped s) (ha : a < USER_BREAK) (hend : USER_BREAK < a + 8) :
    Escapes (create_thread env a) s := by
  have hcheck : ¬(a = 0 ∨ a ≥ USER_BREAK) := by
    have hbreak : 8 < USER_BREAK := by decide
    omega
  unfold create_thread
  rw [if_neg hcheck]
  exact escapes_bind (cell_escapes h ha (Nat.le_of_eq length_leBytes) (length_leBytes.symm ▸ hend))

theorem join_thread_escapes (h : Mapped s) (ha : a < USER_BREAK) (hend : USER_BREAK < a + 8) :
    Escapes (join_thread env a) s := by
  have hnull : a ≠ 0 := by
    have hbreak : 8 < USER_BREAK := by decide
    omega
  unfold join_thread
  rw [if_neg (Nat.not_le.mpr ha), if_pos hnull]
  exact escapes_bind (cell_escapes h ha (Nat.le_of_eq length_leBytes) (length_leBytes.symm ▸ hend))

theorem waitpid_escapes {pid options : ℕ} (h : Mapped s) (hpid : pid ≠ 0) (hint : ¬int pid < -1)
    (hown : pid ≠ env.proc.pid_) (hoptions : options = 0 ∨ options = 4) (ha : a < USER_BREAK)
    (hend : USER_BREAK < a + 4) : Escapes (waitpid env pid a options) s := by
  have hnull : a ≠ 0 := by
    have hbreak : 4 < USER_BREAK := by decide
    omega
  have hcheck : ¬(a ≥ USER_BREAK ∨ pid = 0 ∨ int pid < -1 ∨ pid = env.proc.pid_) := by
    rw [not_or, not_or, not_or]
    exact ⟨Nat.not_le.mpr ha, hpid, hint, hown⟩
  unfold waitpid
  rw [if_neg hcheck, if_pos hoptions, if_pos hnull]
  refine escapes_bind (cell_escapes h ha ?_ (length_leBytes.symm ▸ hend))
  rw [length_leBytes]
  decide

theorem pipe_escapes (h : Mapped s) (ha : a < USER_BREAK) (hb : b < USER_BREAK)
    (hborder : null_reference_check_border_ ≤ a) (hend : USER_BREAK < a + 4 ∨ USER_BREAK < b + 4) :
    Escapes (pipe env a b) s := by
  have hcheck : ¬(a ≥ USER_BREAK ∨ b ≥ USER_BREAK) := by
    omega
  have hl {v : ℕ} : (leBytes 4 v).length ≤ 8 := by
    rw [length_leBytes]
    decide
  unfold pipe openPipe
  rw [if_neg hcheck]
  by_cases hread : USER_BREAK < a + 4
  · exact escapes_bind (cell_escapes h ha hl (length_leBytes.symm ▸ hread))
  · have hwrite := hend.resolve_left hread
    obtain ⟨t, hstore, hmapped⟩ := storeBytes_mapped (l := leBytes 4 (env.proc.fd_num_ + 1)) h hborder
      (by rw [length_leBytes]; omega)
    refine escapes_bind_ok hstore (escapes_bind ?_)
    exact cell_escapes hmapped hb hl (length_leBytes.symm ▸ hwrite)

/-! ### All calls -/

/-- The arguments with which a call keeps to the user half, whatever the memory of the caller and
the state of the kernel. -/
def Harmless (arg1 arg2 arg3 : ℕ) : Sc → Prop
  | .sc_write | .sc_read => USER_BREAK ≤ arg2 ∨ arg2 + arg3 < 2 ^ 64
  | .sc_open => arg1 < null_reference_check_border_ ∨ USER_BREAK ≤ arg1 ∨
      VfsSyscall.badFlags (arg2 % 2 ^ 32) = true
  | .sc_createprocess => arg1 < null_reference_check_border_ ∨ USER_BREAK ≤ arg1
  | .sc_pseudols | .sc_execv => arg1 < null_reference_check_border_
  | .sc_outline => arg1 ≠ 0xe9 ∨ USER_BREAK ≤ arg2 ∨ arg2 < null_reference_check_border_ ∨
      arg2 + 250 < USER_BREAK
  | .sc_pthread_create => USER_BREAK ≤ arg1 ∨ arg1 + 8 ≤ USER_BREAK
  | .sc_pthread_join => USER_BREAK ≤ arg2 ∨ arg2 + 8 ≤ USER_BREAK
  | .sc_waitpid => arg1 = 0 ∨ int arg1 < -1 ∨ (arg3 ≠ 0 ∧ arg3 ≠ 4) ∨ USER_BREAK ≤ arg2 ∨
      arg2 + 4 ≤ USER_BREAK
  | .sc_pipe => USER_BREAK ≤ arg1 ∨ USER_BREAK ≤ arg2 ∨ arg1 < null_reference_check_border_ ∨
      (arg1 + 4 ≤ USER_BREAK ∧ arg2 + 4 ≤ USER_BREAK)
  | .sc_exit | .sc_fork | .sc_close | .sc_sched_yield | .sc_trace | .sc_pthread_exit
  | .sc_pthread_cancel | .sc_clock | .sc_sleep => True

/-- What the range check of `read` and `write` promises. -/
def RangeChecked (arg2 arg3 : ℕ) (sc : Sc) : Prop :=
  sc = .sc_read ∨ sc = .sc_write → badBuffer arg2 arg3 = false → arg2 + arg3 ≤ USER_BREAK

theorem Harmless.confined {arg1 arg2 arg3 : ℕ} {sc : Sc} (h : Harmless arg1 arg2 arg3 sc)
    (hrange : RangeChecked arg2 arg3 sc) : wp Confined (sc.run env arg1 arg2 arg3) (fun _ _ => True) s := by
  cases sc with
  | sc_write => exact wp_write (hrange (.inr rfl))
  | sc_read => exact wp_read (hrange (.inl rfl))
  | sc_open => exact wp_open (h.imp_left ends_of_border)
  | sc_createprocess => exact wp_createprocess (h.imp_left ends_of_border)
  | sc_pseudols =>
    refine wp_seq (wp_readdir (ends_of_border h)) fun _ _ _ => ?_
    exact (wp_pure _).mpr trivial
  | sc_execv => exact wp_execv h
  | sc_outline =>
    refine wp_seq (wp_outline ?_) fun _ _ _ => (wp_pure _).mpr trivial
    exact h.imp_right fun h => h.imp_right fun h => h.imp_left ends_of_border
  | sc_pthread_create => exact wp_create_thread h
  | sc_pthread_join => exact wp_join_thread h
  | sc_waitpid => exact wp_waitpid h
  | sc_pipe => exact wp_pipe h
  | sc_exit | sc_fork | sc_close | sc_sched_yield | sc_trace | sc_pthread_exit | sc_pthread_cancel
  | sc_clock | sc_sleep => exact (wp_pure _).mpr trivial

def filled : UserMemory := fun _ => some 65

theorem mapped_filled : Mapped filled := fun _ => Option.some_ne_none 65

theorem not_ends_filled (h : null_reference_check_border_ ≤ a) : ¬Ends filled a := by
  intro hends
  obtain ⟨b, hab, -, hend⟩ := hends
  rcases hend with hlow | hnone | hzero
  · omega
  · cases hnone
  · have hne : (some 65 : Option UInt8) ≠ some 0 := by decide
    exact hne hzero

/-- A process without files that is not `pid`. -/
def bareEnv (pid : ℕ) : Env where
  proc := ⟨pid + 1, 4, ∅, ∅, 4⟩
  args_seg_addr_ := ARGS_SEGMENT_START
  buffers := fun _ => RingBuffer.new Files.PIPE_BUF_SIZE fun _ => 0
  files := fun _ => none
  in_buffer_ := fun _ => 10
  pathWalk := fun _ => -1
  createFd := -1
  createThread := (-1, 0)
  joinThread := (-1, 0)
  waitForPid := -1
  result := 0

theorem escapes_of_not_harmless {arg1 arg2 arg3 : ℕ} {sc : Sc} (h : ¬Harmless arg1 arg2 arg3 sc)
    (hread : sc ≠ .sc_read) (hwrite : sc ≠ .sc_write) :
    Escapes (sc.run (bareEnv arg1) arg1 arg2 arg3) filled := by
  unfold Harmless at h
  cases sc with
  | sc_write => exact absurd rfl hwrite
  | sc_read => exact absurd rfl hread
  | sc_open =>
    rw [not_or, not_or, Nat.not_lt, Nat.not_le, Bool.not_eq_true] at h
    exact open_escapes (not_ends_filled h.1) h.2.1 h.2.2
  | sc_createprocess =>
    rw [not_or, Nat.not_lt, Nat.not_le] at h
    exact createprocess_escapes (not_ends_filled h.1) h.2
  | sc_pseudols =>
    exact escapes_bind (escapes_bind (dupChecking_escapes (not_ends_filled (Nat.not_lt.mp h))))
  | sc_execv => exact execv_escapes (not_ends_filled (Nat.not_lt.mp h))
  | sc_outline =>
    rw [not_or, not_or, not_or, Decidable.not_not, Nat.not_le, Nat.not_lt, Nat.not_lt] at h
    obtain ⟨hport, ha, hborder, hend⟩ := h
    subst hport
    exact escapes_bind (outline_escapes (not_ends_filled hborder) ha hend)
  | sc_pthread_create =>
    rw [not_or, Nat.not_le, Nat.not_le] at h
    exact create_thread_escapes mapped_filled h.1 h.2
  | sc_pthread_join =>
    rw [not_or, Nat.not_le, Nat.not_le] at h
    exact join_thread_escapes mapped_filled h.1 h.2
  | sc_waitpid =>
    rw [not_or, not_or, not_or, not_or, Nat.not_le, Nat.not_le] at h
    obtain ⟨hpid, hint, hoptions, ha, hend⟩ := h
    exact waitpid_escapes mapped_filled hpid hint (Nat.ne_of_lt (Nat.lt_succ_self arg1)) (by omega) ha hend
  | sc_pipe =>
    rw [not_or, not_or, not_or, Nat.not_le, Nat.not_le, Nat.not_lt] at h
    obtain ⟨ha, hb, hborder, hcells⟩ := h
    exact pipe_escapes mapped_filled ha hb hborder (by omega)
  | sc_exit | sc_fork | sc_close | sc_sched_yield | sc_trace | sc_pthread_exit | sc_pthread_cancel
  | sc_clock | sc_sleep => exact absurd trivial h

/-- What is said of a system call: whatever the memory of the caller and the state of the kernel, no
pointer of the caller is followed out of the user half, and the range check accepts only ranges
that lie in it. -/
def PointersConfined (syscall_number arg1 arg2 arg3 arg4 arg5 : UInt64) : Prop :=
  (∀ env s, ¬Escapes (syscallException env syscall_number arg1 arg2 arg3 arg4 arg5) s) ∧
    ∀ sc, Sc.ofNumber syscall_number = some sc → RangeChecked arg2.toNat arg3.toNat sc

theorem rangeChecked_iff {arg1 arg2 arg3 : ℕ} {sc : Sc} (hsc : sc = .sc_read ∨ sc = .sc_write)
    (harg3 : arg3 < 2 ^ 64) : RangeChecked arg2 arg3 sc ↔ Harmless arg1 arg2 arg3 sc := by
  have hharmless : Harmless arg1 arg2 arg3 sc ↔ USER_BREAK ≤ arg2 ∨ arg2 + arg3 < 2 ^ 64 := by
    rcases hsc with heq | heq
    · rw [heq, Harmless]
    · rw [heq, Harmless]
  rw [hharmless]
  constructor
  · intro h
    by_cases hbreak : USER_BREAK ≤ arg2
    · exact .inl hbreak
    · exact .inr ((range_iff (Nat.not_le.mp hbreak) harg3).mp (h hsc))
  · intro h _ hbad
    have hlt := (badBuffer_eq_false.mp hbad).1
    exact (range_iff hlt harg3).mpr (h.resolve_left (Nat.not_le.mpr hlt)) hbad

theorem Harmless.rangeChecked {arg1 arg2 arg3 : ℕ} {sc : Sc} (h : Harmless arg1 arg2 arg3 sc)
    (harg3 : arg3 < 2 ^ 64) : RangeChecked arg2 arg3 sc :=
  fun hsc => (rangeChecked_iff hsc harg3).mpr h hsc

end KPanic.Syscalls
