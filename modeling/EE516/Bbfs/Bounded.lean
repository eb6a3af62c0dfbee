import EE516.Bbfs.Requests

/-!
# The cache stays bounded

Over any run of reads, writes and releases the counter of the buffers is the length of the list and
stays below the limit, every buffer stands for one chunk, and a full list loses one buffer, written
back if it is dirty, before the new one comes in.
-/

set_option autoImplicit false

namespace EE516.Bbfs

open Foundations

variable {s s' : State} {l : List FileBuffer} {b c new : FileBuffer} {fd : Int} {env : Env}
variable {offset : Nat} {starts : List Int} {buf : List UInt8} {io τ : List Io} {e : Io}
variable {conf : Conf} {rand : Nat}

/-- Right after the list `l` was met, one buffer of it is written back to its own file at its own
offset if it is dirty, and is freed; then the new one is added to the others. Newest first. -/
def Evicts (l : List FileBuffer) (after : List Io) : Prop :=
  ∃ later v new l₁ l₂, l = l₁ ++ v :: l₂ ∧
    after = later ++ [.insert new (l₁ ++ l₂), .free v] ++ v.writeBackIo v.fd

/-- Every call of `addFileBuffer` on a full list evicts one buffer of it. -/
def EvictsWhenFull (io : List Io) : Prop :=
  ∀ after l before, io = after ++ .enter l :: before → l.length = MAX_LIST_SIZE → Evicts l after

theorem Evicts.append (h : Evicts l τ) (τ' : List Io) : Evicts l (τ' ++ τ) := by
  obtain ⟨later, v, new, l₁, l₂, hl, rfl⟩ := h
  exact ⟨τ' ++ later, v, new, l₁, l₂, hl, by simp⟩

theorem evictsWhenFull_nil : EvictsWhenFull [] := by
  intro after l before h
  cases after <;> cases h

/-- Events that are no calls of `addFileBuffer` may follow. -/
theorem EvictsWhenFull.append (h : EvictsWhenFull io) (hτ : ∀ e ∈ τ, e.Quiet) :
    EvictsWhenFull (τ ++ io) := by
  intro after l before heq hl
  rcases List.append_eq_append_iff.1 heq with ⟨τ', rfl, hio⟩ | ⟨τ', rfl, hio⟩
  · exact (h _ _ _ hio hl).append τ
  · -- the call would be one of the events that follow
    cases τ' with
    | nil => simpa using (h [] l before (by simpa using hio.symm) hl).append after
    | cons e τ' =>
      cases hio
      exact absurd rfl (hτ (.enter l) (by simp) l)

/-- A call of `addFileBuffer`. -/
theorem EvictsWhenFull.enter (h : EvictsWhenFull io) (hτ : ∀ e ∈ τ, e.Quiet)
    (hl : l.length = MAX_LIST_SIZE → Evicts l τ) : EvictsWhenFull (τ ++ .enter l :: io) := by
  intro after l' before heq hl'
  rcases List.append_eq_append_iff.1 heq with ⟨τ', rfl, hio⟩ | ⟨τ', rfl, hio⟩
  · cases τ' with
    | nil =>
      cases hio
      simpa using hl hl'
    | cons e τ' =>
      cases hio
      have hev := (h τ' l' before rfl hl').append (τ ++ [.enter l])
      rwa [List.append_assoc] at hev
  · cases τ' with
    | nil =>
      cases hio
      simpa using hl hl'
    | cons e τ' =>
      cases hio
      exact absurd rfl (hτ (.enter l') (by simp) l')

/-- What holds of the cache in every state. The nodes have addresses of their own, all of them
handed out already. -/
structure Bounded (s : State) : Prop where
  ids : (s.list.map FileBuffer.id).Nodup
  allocated : ∀ b ∈ s.list, b.id < s.nextId
  bufferCount : s.bufferCount = s.list.length
  le : s.bufferCount ≤ MAX_LIST_SIZE
  aligned : ∀ b ∈ s.list, b.Aligned
  accessCount : s.accessCount = s.hitCount + s.missCount
  evicts : EvictsWhenFull s.io

theorem State.Fresh.bounded (h : s.Fresh) : Bounded s where
  ids := by simp [h.list]
  allocated := by simp [h.list]
  bufferCount := by rw [h.bufferCount, h.list, List.length_nil]
  le := by rw [h.bufferCount]; exact Nat.zero_le _
  aligned := by simp [h.list]
  accessCount := by rw [h.accessCount, h.hitCount, h.missCount]
  evicts := h.io ▸ evictsWhenFull_nil

/-! ## The steps of a request -/

/-- A slot decides whether a buffer is aligned. -/
theorem aligned_of_slot_eq (h : b.slot = c.slot) (hb : b.Aligned) : c.Aligned := by
  simp only [FileBuffer.slot, Prod.mk.injEq] at h
  obtain ⟨-, hfrom, hto, -⟩ := h
  rwa [FileBuffer.Aligned, hfrom, hto] at hb

theorem Quiet.mem (h : Quiet s s') (hb : b ∈ s'.list) : ∃ c ∈ s.list, c.slot = b.slot := by
  have hm : b.slot ∈ s.list.map FileBuffer.slot := h.slots ▸ List.mem_map_of_mem hb
  exact List.mem_map.1 hm

theorem Quiet.length (h : Quiet s s') : s'.list.length = s.list.length := by
  simpa using congrArg List.length h.slots

theorem Quiet.ids (h : Quiet s s') : s'.list.map FileBuffer.id = s.list.map FileBuffer.id := by
  simpa [Function.comp_def, FileBuffer.slot] using congrArg (List.map Prod.fst) h.slots

/-- The nodes have addresses of their own, all of them handed out already, and their counter is
right and keeps the limit. -/
structure Nodes (s : State) : Prop where
  ids : (s.list.map FileBuffer.id).Nodup
  allocated : ∀ b ∈ s.list, b.id < s.nextId
  bufferCount : s.bufferCount = s.list.length
  le : s.bufferCount ≤ MAX_LIST_SIZE

/-- What is bounded has proper nodes. -/
theorem Bounded.nodes (h : Bounded s) : Nodes s :=
  ⟨h.ids, h.allocated, h.bufferCount, h.le⟩

theorem State.Fresh.nodes (h : s.Fresh) : Nodes s :=
  h.bounded.nodes

theorem Nodes.quiet (h : Nodes s) (hq : Quiet s s') : Nodes s' where
  ids := hq.ids ▸ h.ids
  allocated b hb := by
    obtain ⟨c, hc, hcb⟩ := hq.mem hb
    have hid : c.id = b.id := congrArg Prod.fst hcb
    rw [← hid, hq.nextId]
    exact h.allocated c hc
  bufferCount := by rw [hq.bufferCount, hq.length, h.bufferCount]
  le := hq.bufferCount ▸ h.le

/-- A lookup moves nodes in the list, wherever the request is. -/
theorem Nodes.bufferHitCheck {start : Int} {size : Nat} (h : Nodes s) :
    (s.bufferHitCheck start size fd).2.list.Perm s.list ∧
      Nodes (s.bufferHitCheck start size fd).2 := by
  have hperm : (s.bufferHitCheck start size fd).2.list.Perm s.list := found_scan.move_perm h.ids
  refine ⟨hperm, ?_⟩
  exact {
    ids := (hperm.map _).nodup_iff.2 h.ids
    allocated := fun b hb => h.allocated b (hperm.mem_iff.1 hb)
    bufferCount := h.bufferCount.trans hperm.length_eq.symm
    le := h.le }

/-- An insertion adds one node, and frees another one if the list is full. -/
theorem Nodes.added (h : Nodes s) (hid : new.id = s.nextId) (hs : Added s conf rand new s') :
    Nodes s' := by
  have hcount := h.bufferCount
  have hle := h.le
  -- the others were there before
  have hmem : ∀ {l}, (∀ b ∈ l, b ∈ s.list) → ∀ b ∈ new :: l, b.id < s.nextId + 1 := by
    intro l hl b hb
    rcases List.mem_cons.1 hb with rfl | hb
    · omega
    · exact Nat.lt_succ_of_lt (h.allocated b (hl b hb))
  have hnodup : ∀ {l}, l.Sublist s.list → ((new :: l).map FileBuffer.id).Nodup := by
    intro l hl
    rw [List.map_cons, List.nodup_cons]
    refine ⟨fun hm => ?_, h.ids.sublist (hl.map _)⟩
    obtain ⟨b, hb, hbid⟩ := List.mem_map.1 hm
    have := h.allocated b (hl.subset hb)
    omega
  cases hs with
  | room hlt =>
    refine ⟨hnodup (.refl _), hmem fun _ => id, ?_, ?_⟩
    · simp [hcount]
    · dsimp only
      omega
  | @full l₁ l₂ v _ hl =>
    have hsub : (l₁ ++ l₂).Sublist s.list := by
      rw [hl]
      exact (List.Sublist.refl l₁).append (List.sublist_cons_self v l₂)
    refine ⟨hnodup hsub, hmem fun b hb => hsub.subset hb, ?_, hle⟩
    rw [hcount, hl]
    simp only [List.length_append, List.length_cons]
    omega

/-- A call of `addFileBuffer` adds its buffer, with the next address. -/
theorem Nodes.adds_buffer (h : Nodes s) (conf : Conf) (rand : Nat) (buf : List UInt8)
    (start stop fd : Int) :
    Added s conf rand
      { id := s.nextId, fromOffset := start, toOffset := stop, dirty := false, fd := fd,
        buf := .ofBytes buf } (s.addFileBuffer conf rand buf start stop fd) :=
  Bbfs.added h.bufferCount

theorem Nodes.addFileBuffer {conf : Conf} {rand : Nat} {buf : List UInt8} {start stop fd : Int}
    (h : Nodes s) : Nodes (s.addFileBuffer conf rand buf start stop fd) :=
  h.added rfl (h.adds_buffer conf rand buf start stop fd)

theorem Bounded.quiet (h : Bounded s) (hq : Quiet s s') : Bounded s' :=
  { h.nodes.quiet hq with
    aligned := fun b hb => by
      obtain ⟨c, hc, hcb⟩ := hq.mem hb
      exact aligned_of_slot_eq hcb (h.aligned c hc)
    accessCount := by rw [hq.accessCount, hq.hitCount, hq.missCount, h.accessCount]
    evicts := by
      obtain ⟨τ, hτ, hqτ⟩ := hq.io
      exact hτ ▸ h.evicts.append hqτ }

/-- A lookup only reorders the list. -/
theorem Bounded.bufferHitCheck (h : Bounded s) :
    Bounded (s.bufferHitCheck (toInt offset) MAX_CHUNK_SIZE fd).2 := by
  obtain ⟨hperm, hnodes⟩ := @Nodes.bufferHitCheck s fd (toInt offset) MAX_CHUNK_SIZE h.nodes
  exact {
    hnodes with
    aligned := fun b hb => h.aligned b (hperm.mem_iff.1 hb)
    accessCount := by
      have := h.accessCount
      simp only [State.bufferHitCheck]
      split <;> omega
    evicts := h.evicts }

theorem quiet_writeBackIo (v : FileBuffer) : ∀ e ∈ v.writeBackIo fd, e.Quiet := by
  intro e he
  rw [FileBuffer.writeBackIo] at he
  split at he <;> simp at he
  subst he
  simp [Io.Quiet]

/-- An insertion of an aligned buffer keeps the list bounded. -/
theorem Bounded.added (h : Bounded s) (ha : new.Aligned) (hid : new.id = s.nextId)
    (hs : Added s conf rand new s') : Bounded s' := by
  have hnodes := h.nodes.added hid hs
  have hcount := h.bufferCount
  have hmem : ∀ {l}, (∀ b ∈ l, b ∈ s.list) → ∀ b ∈ new :: l, b.Aligned := by
    intro l hl b hb
    rcases List.mem_cons.1 hb with rfl | hb
    · exact ha
    · exact h.aligned b (hl b hb)
  cases hs with
  | room hlt =>
    exact {
      hnodes with
      aligned := hmem fun _ => id
      accessCount := h.accessCount
      evicts := by
        -- there was room, so that this insertion needs no eviction
        have hquiet : ∀ e ∈ [Io.insert new s.list], e.Quiet := by simp [Io.Quiet]
        exact h.evicts.enter hquiet fun hfull => by omega }
  | @full l₁ l₂ v hle hl hp =>
    have hsub : (l₁ ++ l₂).Sublist s.list := by
      rw [hl]
      exact (List.Sublist.refl l₁).append (List.sublist_cons_self v l₂)
    exact {
      hnodes with
      aligned := hmem fun b hb => hsub.subset hb
      accessCount := h.accessCount
      evicts := by
        -- the list was full: one buffer is written back if dirty, freed, and the new one put in
        have hev : Evicts s.list ([.insert new (l₁ ++ l₂), .free v] ++ v.writeBackIo v.fd) :=
          ⟨[], v, new, l₁, l₂, hl, rfl⟩
        have hquiet : ∀ e ∈ [.insert new (l₁ ++ l₂), .free v] ++ v.writeBackIo v.fd, e.Quiet := by
          intro e he
          rcases List.mem_append.1 he with he | he
          · rcases List.mem_pair.1 he with rfl | rfl <;> simp [Io.Quiet]
          · exact quiet_writeBackIo v e he
        simpa using h.evicts.enter hquiet fun _ => hev }

/-- The chunks that are added start at multiples of the chunk size. -/
theorem Bounded.adds (h : Bounded s) (ha : Adds fd s starts s')
    (hstarts : ∀ start ∈ starts, (MAX_CHUNK_SIZE : Int) ∣ start) : Bounded s' := by
  induction ha with
  | done hq => exact h.quiet hq
  | add hq _ ih =>
    have hs := h.quiet hq
    refine ih ?_ fun start hstart => hstarts start (by simp [hstart])
    exact hs.added ⟨hstarts _ (by simp), rfl⟩ rfl (Bbfs.added hs.bufferCount)

/-! ## The calls -/

theorem dvd_missStarts : ∀ start ∈ missStarts offset, (MAX_CHUNK_SIZE : Int) ∣ start := by
  intro start hstart
  rw [missStarts] at hstart
  by_cases hp : offset % MAX_CHUNK_SIZE = 0
  · rw [if_pos hp, List.mem_singleton] at hstart
    simp only [MAX_CHUNK_SIZE] at *
    omega
  · rw [if_neg hp, List.mem_pair] at hstart
    simp only [MAX_CHUNK_SIZE] at *
    omega

/-- Each of the call sites computes a multiple of the chunk size. -/
theorem dvd_readStarts {info : HitInfo} {t u : Int} (hl : ∀ b ∈ l, b.Aligned)
    (h : Found l fd t u info) :
    ∀ start ∈ readStarts offset info, (MAX_CHUNK_SIZE : Int) ∣ start := by
  intro start hstart
  cases h with
  | perfectHit | partialHit => cases hstart
  | first _ hb | second _ hb =>
    obtain ⟨hfrom, hto⟩ := hl _ hb
    have heq := List.mem_singleton.1 hstart
    simp only [MAX_CHUNK_SIZE] at *
    omega
  | perfectMiss => exact dvd_missStarts start hstart

theorem dvd_writeStarts {info : HitInfo} {t u : Int} (hl : ∀ b ∈ l, b.Aligned)
    (h : Found l fd t u info) :
    ∀ start ∈ writeStarts offset info, (MAX_CHUNK_SIZE : Int) ∣ start := by
  intro start hstart
  cases h with
  | perfectHit | partialHit => cases hstart
  | first _ hb | second _ hb =>
    obtain ⟨hfrom, hto⟩ := hl _ hb
    have heq := List.mem_singleton.1 hstart
    simp only [MAX_CHUNK_SIZE] at *
    omega
  | perfectMiss => exact dvd_missStarts start hstart

/-- A read keeps the list bounded. -/
theorem Bounded.bb_read {size : Nat} (h : Bounded s) (ho : offset < 2 ^ 31 - 16384) :
    Bounded (s.bb_read env fd size offset).2 := by
  have hs := h.quiet (quiet_loadPolicyFromFile s env.conf)
  refine bb_read_cases (hs.quiet (quiet_pread _ _ _ _)) fun _ _ => ?_
  exact hs.bufferHitCheck.adds (cachedRead_adds hs.aligned ho)
    (dvd_readStarts hs.aligned (found_bufferHitCheck _ _ (by omega)))

/-- A write keeps the list bounded. -/
theorem Bounded.bb_write (h : Bounded s) (ho : offset < 2 ^ 31 - 16384) :
    Bounded (s.bb_write env fd buf offset).2 := by
  have hs := h.quiet (quiet_loadPolicyFromFile s env.conf)
  refine bb_write_cases (hs.quiet (quiet_pwrite _ _ _ _)) fun _ _ => ?_
  exact hs.bufferHitCheck.adds (cachedWrite_adds hs.aligned ho)
    (dvd_writeStarts hs.aligned (found_bufferHitCheck _ _ (by omega)))

/-- A release writes back and frees; it enters no `addFileBuffer`. -/
theorem quiet_releaseIo (fd : Int) (l : List FileBuffer) : ∀ e ∈ releaseIo fd l, e.Quiet := by
  induction l with
  | nil => simp [releaseIo]
  | cons pos l ih =>
    intro e he
    simp only [releaseIo, List.mem_append, List.mem_cons] at he
    rcases he with he | rfl | he
    · exact ih e he
    · simp [Io.Quiet]
    · exact quiet_writeBackIo pos e he

/-- A release leaves an empty list. -/
theorem Bounded.bb_release (h : Bounded s) : Bounded (s.bb_release fd).2 := by
  rw [State.bb_release, releaseFileBuffer_eq]
  exact {
    ids := List.nodup_nil
    allocated := nofun
    bufferCount := rfl
    le := Nat.zero_le _
    aligned := nofun
    accessCount := rfl
    evicts := h.evicts.append (quiet_releaseIo fd s.list) }

/-! ## What is recorded reaches the files -/

/-- The files after the `pwrite`s of a record, newest first. -/
def Disk.replay (d : Disk) : List Io → Disk
  | [] => d
  | .pwrite fd buf offset :: τ => (d.replay τ).written fd buf offset
  | _ :: τ => d.replay τ

/-- Since the record `io` and the files `d`, the files changed by what was recorded and nothing
else. -/
def Replayed (d : Disk) (io : List Io) (s : State) : Prop :=
  ∃ τ, s.io = τ ++ io ∧ s.disk = d.replay τ

variable {d : Disk} {size : Nat} {start stop : Int}

theorem Replayed.rfl : Replayed s.disk s.io s :=
  ⟨[], Eq.refl _, Eq.refl _⟩

theorem Replayed.congr (h : Replayed d io s) (hio : s'.io = s.io) (hdisk : s'.disk = s.disk) :
    Replayed d io s' := by
  rwa [Replayed, hio, hdisk]

/-- Events that are no writes leave the record a replay. -/
theorem Replayed.record (h : Replayed d io s) (he : ∀ fd buf offset, e ≠ .pwrite fd buf offset) :
    Replayed d io (s.record e) := by
  obtain ⟨τ, hio, hdisk⟩ := h
  refine ⟨e :: τ, congrArg (List.cons e) hio, ?_⟩
  cases e with
  | pwrite fd buf offset => exact absurd (Eq.refl _) (he fd buf offset)
  | _ => exact hdisk

theorem Replayed.pread (h : Replayed d io s) (fd : Int) (size : Nat) (start : Int) :
    Replayed d io (s.record (.pread fd size start)) :=
  h.record (by simp)

/-- A write is recorded with what it does to the file. -/
theorem Replayed.pwrite (h : Replayed d io s) (fd : Int) (buf : List UInt8) (start : Int) :
    Replayed d io (s.pwrite fd buf start) := by
  obtain ⟨τ, hio, hdisk⟩ := h
  exact ⟨.pwrite fd buf start :: τ, congrArg (List.cons _) hio,
    congrArg (fun d : Disk => d.written fd buf start) hdisk⟩

/-- A write-back reaches the file at the place of its buffer. -/
theorem Replayed.writeBack (h : Replayed d io s) (fd : Int) (pos : FileBuffer) :
    Replayed d io (s.writeBack fd pos) := by
  rw [State.writeBack]
  split
  · exact h.pwrite fd _ _
  · exact h

/-- The evicted buffer reaches its own file at its own offset, if it is dirty. -/
theorem Replayed.evict (h : Replayed d io s) : Replayed d io (s.evict conf rand) := by
  have hload : Replayed d io (s.loadPolicyFromFile conf) := h
  rw [State.evict]
  cases (s.loadPolicyFromFile conf).victim rand with
  | none => exact hload
  | some r =>
    have hlist : Replayed d io { s.loadPolicyFromFile conf with list := r.2 } := hload
    have hfree : Replayed d io
        (({ s.loadPolicyFromFile conf with list := r.2 }.writeBack r.1.fd r.1).record
          (.free r.1)) :=
      (hlist.writeBack r.1.fd r.1).record (by simp)
    exact hfree

/-- An insertion writes nothing that is not recorded. -/
theorem Replayed.addFileBuffer (h : Replayed d io s) :
    Replayed d io (s.addFileBuffer conf rand buf start stop fd) := by
  have henter : Replayed d io (s.record (.enter s.list)) := h.record (by simp)
  have hinsert : ∀ {s}, Replayed d io s → Replayed d io (s.insert buf start stop fd) :=
    fun h => Replayed.record (h.congr (Eq.refl _) (Eq.refl _)) (by simp)
  rw [State.addFileBuffer]
  split
  · exact hinsert henter.evict
  · exact hinsert henter

/-- No step of a cached request writes anything that is not recorded. -/
theorem replayed_keptBy (d : Disk) (io : List Io) (env : Env) : KeptBy env (Replayed d io) where
  pread h := h.pread
  setBuf h _ _ := h
  setDirty h _ := h
  add₁ h _ _ _ _ := h.addFileBuffer
  add₂ h _ _ _ _ := h.addFileBuffer

/-- A release writes nothing that is not recorded. -/
theorem Replayed.releaseLoop {l : List FileBuffer} (h : Replayed d io s) :
    Replayed d io (releaseLoop fd l s) := by
  -- on the buffers that are left
  induction l generalizing s with
  | nil => exact h
  | cons pos l ih =>
    have hwrite : Replayed d io { s.writeBack fd pos with list := l } := h.writeBack fd pos
    exact ih (hwrite.record (by simp))

/-- The files after the end of a call. -/
def Call.ending : Call → Disk → Disk
  | .release fd, d => d.close fd
  | _, d => d

/-- What a call records it does to the files, and nothing else but closing its own descriptor. -/
theorem perform_replayed (s : State) (env : Env) (call : Call) :
    ∃ τ, (s.perform env call).2.io = τ ++ s.io ∧
      (s.perform env call).2.disk = call.ending (s.disk.replay τ) := by
  have hload : Replayed s.disk s.io (s.loadPolicyFromFile env.conf) := Replayed.rfl
  cases call with
  | read fd size offset =>
    exact bb_read_cases (P := Replayed s.disk s.io) (hload.pread ..) fun _ _ =>
      (replayed_keptBy s.disk s.io env).cachedRead hload
  | write fd buf offset =>
    exact bb_write_cases (P := Replayed s.disk s.io) (hload.pwrite ..) fun _ _ =>
      (replayed_keptBy s.disk s.io env).cachedWrite hload
  | release fd =>
    obtain ⟨τ, hio, hdisk⟩ : Replayed s.disk s.io (releaseLoop fd s.list s) :=
      Replayed.rfl.releaseLoop
    exact ⟨τ, hio, congrArg (fun d : Disk => d.close fd) hdisk⟩

/-! ## Runs -/

/-- The offset of the request lies so far below the end of the `int`s. -/
def Call.Below (bound : Nat) : Call → Prop
  | .read _ _ offset => offset < bound
  | .write _ _ offset => offset < bound
  | .release _ => True

instance (bound : Nat) : ∀ c : Call, Decidable (c.Below bound)
  | .read _ _ offset => inferInstanceAs (Decidable (offset < bound))
  | .write _ _ offset => inferInstanceAs (Decidable (offset < bound))
  | .release _ => inferInstanceAs (Decidable True)

/-- Every request below the limit keeps the list bounded. -/
theorem Bounded.perform {call : Call} (h : Bounded s) (hc : call.Below (2 ^ 31 - 16384)) :
    Bounded (s.perform env call).2 := by
  cases call with
  | read fd size offset => exact h.bb_read hc
  | write fd buf offset => exact h.bb_write hc
  | release fd => exact h.bb_release

theorem step_eq {a : Env × Call} {e : Event} (h : step s a = some (e, s')) :
    e = { before := s, env := a.1, call := a.2, result := (s.perform a.1 a.2).1 } ∧
      s' = (s.perform a.1 a.2).2 := by
  cases h
  exact ⟨rfl, rfl⟩

theorem step_perform (s : State) (a : Env × Call) :
    step s a =
      some ({ before := s, env := a.1, call := a.2, result := (s.perform a.1 a.2).1 },
        (s.perform a.1 a.2).2) :=
  rfl

/-- A step of the machine with its call below a bound. -/
def StepBelow (bound : Nat) (s : State) (e : Event) (s' : State) : Prop :=
  StepBy step s e s' ∧ e.call.Below bound

/-- The list is bounded after every run from an empty cache. -/
theorem bounded_run {s₀ : State} {τ : List Event} (hs : s₀.Fresh)
    (h : Run (StepBelow (2 ^ 31 - 16384)) s₀ τ s) : Bounded s := by
  refine h.invariant (fun _ s => Bounded s) hs.bounded ?_
  rintro τ s e s' - hb ⟨⟨a, ha⟩, hc⟩
  obtain ⟨rfl, rfl⟩ := step_eq ha
  exact hb.perform hc

/-- In every run from an empty cache the counters agree with the list, the list keeps its limit,
the buffers are chunks, and every insertion into a full list evicts one buffer first. The `pwrite`s
of the record, the write-backs among them, reach the files in their order, at the offset `from` of
the buffer. -/
theorem cache_bounded {s₀ : State} {τ : List Event} (hs : s₀.Fresh)
    (h : Run (StepBelow (2 ^ 31 - 16384)) s₀ τ s) :
    s.bufferCount = s.list.length ∧ s.bufferCount ≤ MAX_LIST_SIZE ∧
      (∀ b ∈ s.list, (MAX_CHUNK_SIZE : Int) ∣ b.fromOffset ∧
        b.toOffset = b.fromOffset + MAX_CHUNK_SIZE) ∧
      s.accessCount = s.hitCount + s.missCount ∧
      (∀ after l before, s.io = after ++ .enter l :: before → l.length = MAX_LIST_SIZE →
        Evicts l after) ∧
      ∀ e s', StepBy step s e s' →
        ∃ after, s'.io = after ++ s.io ∧ s'.disk = e.call.ending (s.disk.replay after) := by
  have hb := bounded_run hs h
  refine ⟨hb.bufferCount, hb.le, hb.aligned, hb.accessCount, hb.evicts, ?_⟩
  rintro e s' ⟨a, ha⟩
  obtain ⟨rfl, rfl⟩ := step_eq ha
  exact perform_replayed s a.1 a.2

/-- One cached read of an empty file. -/
theorem cache_bounded_read :
    ∃ s : State, s.list.length = 1 ∧ s.bufferCount = s.list.length ∧
      s.accessCount = s.hitCount + s.missCount := by
  have h := cache_bounded (fresh_mount (oneFile []))
    (.step .start ⟨⟨(plainEnv 2, .read 3 MAX_CHUNK_SIZE 0), rfl⟩, by decide⟩)
  exact ⟨_, rfl, h.1, h.2.2.2.1⟩

end EE516.Bbfs
