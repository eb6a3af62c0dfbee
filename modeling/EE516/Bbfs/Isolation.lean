import EE516.Bbfs.Calls

/-!
# Closing one of several files

The cache is shared by all open files, and a release drains all of it into the file that is being
closed. What belongs to another file stays out of it and is kept exactly when nothing of another
file is dirty and every buffer of another open file has just the bytes of that file.
-/

set_option autoImplicit false

namespace EE516.Bbfs

open Foundations

variable {s : State} {l : List FileBuffer} {b : FileBuffer} {fd : Int} {io : List Io}

/-- The events record that the buffer was written to the descriptor and then freed. -/
def WroteBack (io : List Io) (fd : Int) (b : FileBuffer) : Prop :=
  ∃ after before, io = after ++ .free b :: .pwrite fd b.buf.bytes b.fromOffset :: before

/-- The file of the buffer holds its bytes, where a byte past the end of the file counts as 0. -/
def Saved (d : Disk) (b : FileBuffer) : Prop :=
  ∀ f, d.fds b.fd = some f → ∀ i < MAX_CHUNK_SIZE,
    b.buf.bytes.getD i 0 = (d.files f.ino).getD (b.fromOffset.toNat + i) 0

/-- A release of the file `fd` with these events keeps the files apart: each write to `fd` is the
write-back of a buffer of `fd`, each dirty buffer of another open file is still cached or was
written to its own file, and no byte of another open file is dropped: each of its buffers is still
cached, was written to its own file, or had the bytes of that file already. No other file than that
of `fd` is changed. -/
structure Isolates (s s' : State) (fd : Int) (io : List Io) : Prop where
  writes : ∀ after buf offset before, io = after ++ .pwrite fd buf offset :: before →
    ∃ later b, after = later ++ [.free b] ∧ b.buf.bytes = buf ∧ b.fromOffset = offset ∧ b.fd = fd
  others : ∀ b ∈ s.list, b.dirty = true → b.fd ≠ fd → (s.disk.fds b.fd).isSome →
    b ∈ s'.list ∨ WroteBack io b.fd b
  kept : ∀ b ∈ s.list, b.fd ≠ fd → (s.disk.fds b.fd).isSome →
    b ∈ s'.list ∨ WroteBack io b.fd b ∨ Saved s.disk b
  untouched : ∀ i, (∀ f, s.disk.fds fd = some f → f.ino ≠ i) → s'.disk.files i = s.disk.files i

/-- A dirty buffer of the list is written to the file that is closed. -/
theorem wroteBack_releaseIo (fd : Int) (hb : b ∈ l) (hd : b.dirty = true) :
    WroteBack (releaseIo fd l) fd b := by
  induction l with
  | nil => cases hb
  | cons pos l ih =>
    rw [releaseIo]
    rcases List.mem_cons.1 hb with rfl | hb
    · exact ⟨releaseIo fd l, [], by simp [FileBuffer.writeBackIo, hd]⟩
    · obtain ⟨after, before, hio⟩ := ih hb
      exact ⟨after, before ++ .free pos :: pos.writeBackIo fd, by simp [hio]⟩

/-- Every write of a release is the write-back of a dirty buffer, freed right after it. -/
theorem releaseIo_pwrite {after before : List Io} {fd' : Int} {buf : List UInt8} {offset : Int}
    (h : releaseIo fd l = after ++ .pwrite fd' buf offset :: before) :
    ∃ later, ∃ b ∈ l, after = later ++ [.free b] ∧ b.buf.bytes = buf ∧ b.fromOffset = offset ∧
      b.dirty = true ∧ fd' = fd := by
  induction l generalizing before with
  | nil => cases after <;> cases h
  | cons pos l ih =>
    rw [releaseIo] at h
    -- the write stands among the events of this buffer or of a later one
    rcases List.append_eq_append_iff.1 h with ⟨τ, rfl, hτ⟩ | ⟨τ, hτ, h'⟩
    · -- the write is the one of the first buffer
      rw [FileBuffer.writeBackIo] at hτ
      cases τ with
      | nil => cases hτ
      | cons e τ =>
        split at hτ
        case isTrue hd =>
          cases τ with
          | nil =>
            cases hτ
            exact ⟨_, pos, by simp, rfl, rfl, rfl, hd, rfl⟩
          | cons e' τ => cases τ <;> cases hτ
        case isFalse => cases τ <;> cases hτ
    · cases τ with
      | nil =>
        rw [FileBuffer.writeBackIo] at h'
        split at h' <;> cases h'
      | cons e τ =>
        cases h'
        obtain ⟨later, b, hb, hrest⟩ := ih hτ
        exact ⟨later, b, List.mem_cons_of_mem _ hb, hrest⟩

/-- The events of a release are those of its loop. -/
theorem bb_release_io (s : State) (fd : Int) :
    (s.bb_release fd).2.io = releaseIo fd s.list ++ s.io := by
  rw [State.bb_release, releaseFileBuffer_eq]

/-- A release writes to no other descriptor than the one that is closed. -/
theorem not_wroteBack_releaseIo (hne : b.fd ≠ fd) : ¬ WroteBack (releaseIo fd l) b.fd b := by
  rintro ⟨after, before, hio⟩
  have hio' : releaseIo fd l =
      (after ++ [.free b]) ++ .pwrite b.fd b.buf.bytes b.fromOffset :: before := by simp [hio]
  obtain ⟨-, -, -, -, -, -, -, hfd⟩ := releaseIo_pwrite hio'
  exact hne hfd

/-- A write-back changes the file of its descriptor only. -/
theorem files_writeBack_of_ne {d : Disk} {i : Nat} (hne : ∀ f, d.fds fd = some f → f.ino ≠ i) :
    (d.writeBack fd b).files i = d.files i ∧ (d.writeBack fd b).fds = d.fds := by
  rw [Disk.writeBack]
  split
  · rw [Disk.written, Disk.pwrite]
    by_cases hoff : b.fromOffset < 0
    · rw [if_pos hoff]
      exact ⟨rfl, rfl⟩
    · rw [if_neg hoff]
      cases hf : d.fds fd with
      | none => exact ⟨rfl, rfl⟩
      | some f =>
        by_cases hw : f.writable = true
        · simp [hw, (hne f hf).symm]
        · simp [hw]
  · exact ⟨rfl, rfl⟩

/-- A release changes the file of its descriptor only. -/
theorem files_bb_release_of_ne {i : Nat} (hne : ∀ f, s.disk.fds fd = some f → f.ino ≠ i) :
    (s.bb_release fd).2.disk.files i = s.disk.files i := by
  have hdrain : ∀ (l : List FileBuffer) (d : Disk), (∀ f, d.fds fd = some f → f.ino ≠ i) →
      (l.foldl (fun d pos => d.writeBack fd pos) d).files i = d.files i := by
    intro l
    induction l with
    | nil => exact fun _ _ => rfl
    | cons pos l ih =>
      intro d hd
      obtain ⟨hfiles, hfds⟩ := @files_writeBack_of_ne pos fd d i hd
      rw [List.foldl_cons, ih _ (by rwa [hfds]), hfiles]
  rw [State.bb_release, releaseFileBuffer_eq]
  exact hdrain s.list s.disk hne

/-- A dirty buffer of the list is one of the closed file, if the files are kept apart. -/
theorem Isolates.fd_eq {s' : State} (h : Isolates s s' fd (releaseIo fd s.list)) (hb : b ∈ s.list)
    (hd : b.dirty = true) : b.fd = fd := by
  obtain ⟨after, before, hw⟩ := wroteBack_releaseIo fd hb hd
  have hw' : releaseIo fd s.list =
      (after ++ [.free b]) ++ .pwrite fd b.buf.bytes b.fromOffset :: before := by simp [hw]
  obtain ⟨later, b', hafter, -, -, hfd⟩ := h.writes _ _ _ _ hw'
  -- the node freed right after the write is the one that was written
  have hbb : b = b' := by simpa using List.append_inj_right' hafter rfl
  rw [hbb, hfd]

/-- A release keeps the files apart if and only if every dirty buffer is one of the closed file and
every buffer of another open file has the bytes of that file. -/
theorem release_isolates_iff (s : State) (fd : Int) :
    (∀ io, (s.bb_release fd).2.io = io ++ s.io → Isolates s (s.bb_release fd).2 fd io) ↔
      (∀ b ∈ s.list, b.dirty = true → b.fd = fd) ∧
        ∀ b ∈ s.list, b.fd ≠ fd → (s.disk.fds b.fd).isSome → Saved s.disk b := by
  constructor
  · intro h
    have hiso := h _ (bb_release_io s fd)
    refine ⟨fun b hb hd => hiso.fd_eq hb hd, fun b hb hne hopen => ?_⟩
    -- nothing stays cached, and nothing is written to another descriptor
    rcases hiso.kept b hb hne hopen with hmem | hwrote | hsaved
    · rw [State.bb_release, releaseFileBuffer_eq] at hmem
      exact absurd hmem List.not_mem_nil
    · exact absurd hwrote (not_wroteBack_releaseIo hne)
    · exact hsaved
  · rintro ⟨hdirty, hsaved⟩ io heq
    rw [bb_release_io] at heq
    rw [← List.append_cancel_right heq]
    refine ⟨fun after buf offset before hw => ?_, fun b hb hd hne => absurd (hdirty b hb hd) hne,
      fun b hb hne hopen => .inr (.inr (hsaved b hb hne hopen)),
      fun i hne => files_bb_release_of_ne hne⟩
    obtain ⟨later, b, hb, hafter, hbuf, hoff, hd, -⟩ := releaseIo_pwrite hw
    exact ⟨later, b, hafter, hbuf, hoff, hdirty b hb hd⟩

/-- A dirty buffer of the descriptor 4 while 3 is open too. -/
def twoFiles : State :=
  { mount
      { fds := fun fd => if fd = 3 then some ⟨0, true, true⟩ else
          if fd = 4 then some ⟨1, true, true⟩ else none
        files := fun _ => [] } with
    list :=
      [{ id := 0, fromOffset := 0, toOffset := 4096, dirty := true, fd := 4, buf := .ofBytes [1] }]
    bufferCount := 1
    nextId := 1 }

/-- The data of one file ends up in the other one. -/
theorem release_writes_other_file :
    ¬ ∀ (s : State) (fd : Int) (io : List Io), (s.bb_release fd).2.io = io ++ s.io →
      Isolates s (s.bb_release fd).2 fd io := by
  intro h
  have hfd := (h twoFiles 3 _ (bb_release_io twoFiles 3)).fd_eq (List.mem_singleton.2 rfl) rfl
  exact absurd hfd (by decide)

end EE516.Bbfs
