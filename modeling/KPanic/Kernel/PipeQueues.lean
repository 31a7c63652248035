import KPanic.Kernel.LocalFDs

/-!
# The bytes of a pipe

The processes that share a pipe read its bytes in the order in which they were written. A call moves
fewer bytes than it was asked for exactly if the pipe is full, or empty, after it.
-/

namespace KPanic.Files

open Std (TreeMap)
open Function
open Machine
open Wp

inductive PipeCall
  | writeToPipe (p : UserProcess) (write_fd : ℤ) (cs : List Char)
  | readFromPipe (p : UserProcess) (read_fd : ℤ) (count : ℕ)

/-- The bytes that a call reports. -/
inductive Transfer
  | written (buffer : ℕ) (cs : List Char)
  | read (buffer : ℕ) (cs : List Char)

namespace Transfer

def writtenTo (i : ℕ) : Transfer → List Char
  | written buffer cs => if buffer = i then cs else []
  | read _ _ => []

def readFrom (i : ℕ) : Transfer → List Char
  | written _ _ => []
  | read buffer cs => if buffer = i then cs else []

end Transfer

/-- The bytes that were reported as written to a buffer. -/
def written (i : ℕ) (tr : List Transfer) : List Char := tr.flatMap (Transfer.writtenTo i)

def bytesRead (i : ℕ) (tr : List Transfer) : List Char := tr.flatMap (Transfer.readFrom i)

def PipeCall.step (s : Kernel) : PipeCall → Except Failure (Kernel × List Transfer)
  | writeToPipe p write_fd cs => ((Files.writeToPipe p write_fd cs).run s).map fun r =>
    (r.2, match p.writeBuffer write_fd, r.1 with
      | some buffer, some n => [.written buffer (cs.take n)]
      | _, _ => [])
  | readFromPipe p read_fd count => ((Files.readFromPipe p read_fd count).run s).map fun r =>
    (r.2, match p.readBuffer read_fd, r.1 with
      | some buffer, some cs => [.read buffer cs]
      | _, _ => [])

variable {s s₀ u : Kernel} {p : UserProcess} {fd : ℤ} {cs : List Char} {i count : ℕ} {b : RingBuffer Char}
  {tr evs : List Transfer}

/-! ### One call -/

theorem run_writeToPipe (hi : p.writeBuffer fd = some i) (hb : s.buffers i = some b) :
    (writeToPipe p fd cs).run s =
      .ok (some (b.putMany cs).1, { s with buffers := update s.buffers i (some (b.putMany cs).2) }) := by
  unfold writeToPipe
  rw [hi]
  dsimp only
  unfold getBuffer
  simp [hb, setBuffer]
  rfl

theorem run_readFromPipe (hi : p.readBuffer fd = some i) (hb : s.buffers i = some b) :
    (readFromPipe p fd count).run s =
      .ok (some (b.getMany count).1, { s with buffers := update s.buffers i (some (b.getMany count).2) }) := by
  unfold readFromPipe
  rw [hi]
  dsimp only
  unfold getBuffer
  simp [hb, setBuffer]
  rfl

theorem run_freed {f : RingBuffer Char → Files PUnit} (hb : s.buffers i = none) :
    (getBuffer i >>= f).run s = .error .freedBuffer := by
  unfold getBuffer
  simp [hb]
  rfl

/-- The buffer holds the bytes that were written and have not been read. -/
def Queue (i : ℕ) (tr : List Transfer) (s : Kernel) : Prop :=
  ∃ b, s.buffers i = some b ∧ b.Wf ∧ b.buffer_size_ = PIPE_BUF_SIZE ∧ written i tr = bytesRead i tr ++ b.contents

theorem written_append (tr evs : List Transfer) : written i (tr ++ evs) = written i tr ++ written i evs :=
  List.flatMap_append

theorem bytesRead_append (tr evs : List Transfer) : bytesRead i (tr ++ evs) = bytesRead i tr ++ bytesRead i evs :=
  List.flatMap_append

theorem Queue.quiet (h : Queue i tr s) (hbuffer : u.buffers i = s.buffers i) (hwritten : written i evs = [])
    (hread : bytesRead i evs = []) : Queue i (tr ++ evs) u := by
  obtain ⟨b, hb, hwf, hsize, hqueue⟩ := h
  refine ⟨b, hbuffer.trans hb, hwf, hsize, ?_⟩
  rw [written_append, bytesRead_append, hwritten, hread, List.append_nil, List.append_nil, hqueue]

theorem Queue.written {n : ℕ} (h : Queue i tr s) (hb : s.buffers i = some b) (hn : n = (b.putMany cs).1)
    (hu : u.buffers i = some (b.putMany cs).2) : Queue i (tr ++ [.written i (cs.take n)]) u := by
  obtain ⟨b', hb', hwf, hsize, hqueue⟩ := h
  obtain rfl := Option.some.inj (hb.symm.trans hb')
  obtain ⟨-, hwf', hsize', hcontents⟩ := hwf.putMany cs
  refine ⟨_, hu, hwf', hsize'.trans hsize, ?_⟩
  have hone : Files.written i [.written i (cs.take n)] = cs.take n := by simp [Files.written, Transfer.writtenTo]
  have hnone : bytesRead i [.written i (cs.take n)] = [] := rfl
  rw [written_append, bytesRead_append, hone, hnone, hqueue, hcontents, hn, List.append_nil, List.append_assoc]

theorem Queue.read (h : Queue i tr s) (hb : s.buffers i = some b) (hcs : cs = (b.getMany count).1)
    (hu : u.buffers i = some (b.getMany count).2) : Queue i (tr ++ [.read i cs]) u := by
  obtain ⟨b', hb', hwf, hsize, hqueue⟩ := h
  obtain rfl := Option.some.inj (hb.symm.trans hb')
  obtain ⟨hget, hwf', hsize', hcontents⟩ := hwf.getMany count
  refine ⟨_, hu, hwf', hsize'.trans hsize, ?_⟩
  have hone : bytesRead i [.read i cs] = cs := by simp [bytesRead, Transfer.readFrom]
  have hnone : Files.written i [.read i cs] = [] := rfl
  rw [written_append, bytesRead_append, hone, hnone, hqueue, hcontents, hcs, hget, List.append_nil,
    List.append_assoc, List.take_append_drop]

/-- A call for this buffer, or for another one. -/
theorem Queue.step (h : Queue i tr s) {c : PipeCall} (hs : c.step s = .ok (u, evs)) : Queue i (tr ++ evs) u := by
  cases c with
  | writeToPipe p fd cs =>
    rw [PipeCall.step] at hs
    cases hj : p.writeBuffer fd with
    | none =>
      rw [writeToPipe, hj] at hs
      cases hs
      exact h.quiet rfl rfl rfl
    | some j =>
      cases hb : s.buffers j with
      | none =>
        rw [writeToPipe, hj] at hs
        simp [getBuffer, hb] at hs
        cases hs
      | some b =>
        rw [run_writeToPipe hj hb, hj] at hs
        cases hs
        by_cases hji : j = i
        · subst hji
          exact h.written hb rfl (update_self _ _ _)
        · refine h.quiet (update_of_ne (Ne.symm hji) _ _) ?_ rfl
          simp [Files.written, Transfer.writtenTo, hji]
  | readFromPipe p fd count =>
    rw [PipeCall.step] at hs
    cases hj : p.readBuffer fd with
    | none =>
      rw [readFromPipe, hj] at hs
      cases hs
      exact h.quiet rfl rfl rfl
    | some j =>
      cases hb : s.buffers j with
      | none =>
        rw [readFromPipe, hj] at hs
        simp [getBuffer, hb] at hs
        cases hs
      | some b =>
        rw [run_readFromPipe hj hb, hj] at hs
        cases hs
        by_cases hji : j = i
        · subst hji
          exact h.read hb rfl (update_self _ _ _)
        · refine h.quiet (update_of_ne (Ne.symm hji) _ _) rfl ?_
          simp [bytesRead, Transfer.readFrom, hji]

/-! ### Any calls -/

/-- The buffer of a pipe that `openPipe` has made. -/
def NewPipe (s : Kernel) (i : ℕ) : Prop :=
  ∃ garbage count, s.buffers i = some { RingBuffer.new PIPE_BUF_SIZE garbage with connected_proc_counter_ := count }

theorem NewPipe.queue (h : NewPipe s i) : Queue i [] s := by
  obtain ⟨garbage, count, hb⟩ := h
  have hwf : (RingBuffer.new PIPE_BUF_SIZE garbage).Wf := RingBuffer.wf_new (by decide) (by decide) garbage
  exact ⟨_, hb, ⟨hwf.ring, hwf.size_lt⟩, rfl, rfl⟩

theorem queue_runs (h : NewPipe s₀ i) (hrun : Runs (fun s (c : PipeCall) => c.step s) (fun _ _ => True) s₀ tr s) :
    Queue i tr s :=
  hrun.invariant (I := Queue i) h.queue fun hq _ hs => hq.step hs

/-- The bytes that were read are a prefix of those that were written; the next call moves as many bytes
as there are, or as there is room for. -/
structure PipeFifo (i : ℕ) (tr : List Transfer) (s : Kernel) : Prop where
  inOrder : bytesRead i tr <+: written i tr
  writes : ∀ p fd cs, p.writeBuffer fd = some i → ∃ u, (writeToPipe p fd cs).run s = .ok
    (some (min cs.length (PIPE_BUF_SIZE - 1 - ((written i tr).length - (bytesRead i tr).length))), u)
  reads : ∀ p fd count, p.readBuffer fd = some i → ∃ u, (readFromPipe p fd count).run s = .ok
    (some (((written i tr).drop (bytesRead i tr).length).take count), u)

theorem Queue.fifo (h : Queue i tr s) : PipeFifo i tr s := by
  obtain ⟨b, hb, hwf, hsize, hqueue⟩ := h
  have hdrop : (Files.written i tr).drop (bytesRead i tr).length = b.contents := by
    rw [hqueue, List.drop_left]
  refine ⟨⟨b.contents, hqueue.symm⟩, fun p fd cs hi => ?_, fun p fd count hi => ?_⟩
  · have hn := (hwf.putMany cs).1
    rw [hsize, ← hdrop, List.length_drop] at hn
    rw [← hn]
    exact ⟨_, run_writeToPipe hi hb⟩
  · rw [hdrop, ← (hwf.getMany count).1]
    exact ⟨_, run_readFromPipe hi hb⟩

/-- Ring buffers, and pipes, are bounded queues. -/
theorem pipes_are_fifo :
    (∀ (α : Type) (size : ℕ) (garbage : ℕ → α) (calls : List (RingBuffer.Call α)), 2 ≤ size → size < 2 ^ 32 →
      RingBuffer.BoundedFifo size ((RingBuffer.new size garbage).calls ⟨[], []⟩ calls).1
        ((RingBuffer.new size garbage).calls ⟨[], []⟩ calls).2) ∧
    ∀ s₀ i tr s, NewPipe s₀ i → Runs (fun s (c : PipeCall) => c.step s) (fun _ _ => True) s₀ tr s →
      PipeFifo i tr s :=
  ⟨fun _ _ garbage calls hsize hlt => ((RingBuffer.queued_new hsize hlt garbage).calls calls).fifo,
    fun _ _ _ _ hnew hrun => (queue_runs hnew hrun).fifo⟩

/-- One process with both ends of a pipe. -/
def pipeOwner : UserProcess := ⟨1, 4, ∅, (∅ : TreeMap (ℤ × ℤ) ℕ pairCmp).insert (5, 6) 0, 6⟩

def onePipe : Kernel where
  global_fd := []
  fd_num_ := 3
  process_list_ := [pipeOwner]
  pid_counter_ := 2
  buffers := update (fun _ => none) 0 (some (RingBuffer.new PIPE_BUF_SIZE fun _ => default).incProcCount)
  nextBuffer := 1

theorem pipes_are_fifo_one :
    (((RingBuffer.new 3 fun _ => 0).calls ⟨[], []⟩ [.put 7, .put 8]).1.put 9).1 = false ∧
      ∃ s u, (writeToPipe pipeOwner 6 ['a', 'b']).run onePipe = .ok (some 2, s) ∧
        (readFromPipe pipeOwner 5 5).run s = .ok (some ['a', 'b'], u) := by
  have hfifo := pipes_are_fifo.1 ℕ 3 (fun _ => 0) [.put 7, .put 8] (by decide) (by decide)
  refine ⟨(hfifo.putFails 9).mpr rfl, ?_⟩
  have hnew : NewPipe onePipe 0 := ⟨_, _, rfl⟩
  have hwrites : pipeOwner.writeBuffer 6 = some 0 := by decide +kernel
  have hreads : pipeOwner.readBuffer 5 = some 0 := by decide +kernel
  obtain ⟨s, hwrite⟩ := (pipes_are_fifo.2 onePipe 0 [] onePipe hnew .start).writes pipeOwner 6 ['a', 'b'] hwrites
  have hstep : (PipeCall.writeToPipe pipeOwner 6 ['a', 'b']).step onePipe = .ok (s, [.written 0 ['a', 'b']]) := by
    rw [PipeCall.step, hwrite, hwrites]
    rfl
  obtain ⟨u, hread⟩ := (pipes_are_fifo.2 onePipe 0 _ s hnew (.next .start trivial hstep)).reads pipeOwner 5 5 hreads
  exact ⟨s, u, hwrite, hread⟩

end KPanic.Files
