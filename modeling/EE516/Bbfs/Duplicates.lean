import EE516.Bbfs.Bounded

/-!
# Chunks that are cached twice

A chunk is cached once as long as a request adds chunks that are missing. Two branches do not: a
read whose second chunk alone is cached adds that chunk again, and a write whose first chunk alone
is cached adds the chunk behind its second one.
-/

set_option autoImplicit false

namespace EE516.Bbfs

open Foundations

variable {s s' : State} {l : List FileBuffer} {b c new : FileBuffer} {fd : Int} {env : Env}
variable {offset : Nat} {start : Int} {starts : List Int} {buf : List UInt8} {info : HitInfo}
variable {conf : Conf} {rand : Nat}

/-- No two buffers stand for the same chunk. -/
def Unique (s : State) : Prop :=
  (s.list.map FileBuffer.key).Nodup

instance (s : State) : Decidable (Unique s) :=
  inferInstanceAs (Decidable (List.Nodup _))

/-! ## Steps -/

theorem Quiet.keys (h : Quiet s s') :
    s'.list.map FileBuffer.key = s.list.map FileBuffer.key := by
  have := congrArg (List.map fun p : Nat × Int × Int × Int => (p.2.2.2, p.2.1)) h.slots
  rwa [List.map_map, List.map_map] at this

theorem Unique.quiet (h : Unique s) (hq : Quiet s s') : Unique s' := by
  rwa [Unique, hq.keys]

theorem Quiet.resident_iff (hq : Quiet s s') : Resident s' fd start ↔ Resident s fd start := by
  rw [Bbfs.resident_iff, Bbfs.resident_iff, hq.keys]

/-- The list after a call of `addFileBuffer`. -/
theorem Added.list (hs : Added s conf rand new s') :
    ∃ rest, s'.list = new :: rest ∧ rest.Sublist s.list := by
  cases hs with
  | room => exact ⟨_, rfl, .refl _⟩
  | @full l₁ l₂ v _ hl =>
    refine ⟨l₁ ++ l₂, rfl, ?_⟩
    rw [hl]
    exact (List.Sublist.refl l₁).append (List.sublist_cons_self v l₂)

/-- A chunk that was missing is cached once now. -/
theorem Unique.added (h : Unique s) (hs : Added s conf rand new s')
    (hnew : ¬ Resident s new.fd new.fromOffset) : Unique s' := by
  obtain ⟨rest, hlist, hsub⟩ := hs.list
  rw [Unique, hlist, List.map_cons, List.nodup_cons]
  refine ⟨fun hm => hnew ?_, h.sublist (hsub.map _)⟩
  rw [Bbfs.resident_iff]
  exact (hsub.map _).subset hm

/-- What is cached after an insertion was cached before, or was inserted. -/
theorem Added.resident (hs : Added s conf rand new s') {start : Int}
    (h : Resident s' new.fd start) : start = new.fromOffset ∨ Resident s new.fd start := by
  obtain ⟨rest, hlist, hsub⟩ := hs.list
  obtain ⟨b, hb, hbs⟩ := h
  rw [hlist] at hb
  rcases List.mem_cons.1 hb with rfl | hb
  · exact .inl hbs.2.symm
  · exact .inr ⟨b, hsub.subset hb, hbs⟩

/-- Chunks that are missing and different are added. -/
theorem Unique.adds (h : Unique s) (hb : Bounded s) (ha : Adds fd s starts s')
    (hdvd : ∀ start ∈ starts, (MAX_CHUNK_SIZE : Int) ∣ start) (hnodup : starts.Nodup)
    (hmissing : ∀ start ∈ starts, ¬ Resident s fd start) : Unique s' := by
  induction ha with
  | done hq => exact h.quiet hq
  | @add s s₁ s₂ start starts conf rand buf hq _ ih =>
    have hb₁ := hb.quiet hq
    have hadd : Added s₁ conf rand
        { id := s₁.nextId, fromOffset := start, toOffset := start + MAX_CHUNK_SIZE, dirty := false,
          fd := fd, buf := .ofBytes buf }
        (s₁.addFileBuffer conf rand buf start (start + MAX_CHUNK_SIZE) fd) :=
      Bbfs.added hb₁.bufferCount
    rw [List.nodup_cons] at hnodup
    refine ih ((h.quiet hq).added hadd ?_) (hb₁.added ⟨hdvd _ (by simp), rfl⟩ rfl hadd)
      (fun x hx => hdvd x (by simp [hx])) hnodup.2 fun x hx hr => ?_
    · rw [hq.resident_iff]
      exact hmissing start (by simp)
    · rcases hadd.resident hr with rfl | hr
      · exact hnodup.1 hx
      · exact hmissing x (by simp [hx]) (hq.resident_iff.1 hr)

/-! ## Calls -/

/-- The call is one that adds a chunk which is cached already: a read whose second chunk alone is
cached, or a write whose first chunk and the chunk behind its second one are cached, and not the
second one. -/
def AddsTwice (s : State) : Call → Prop
  | .read fd _ offset =>
    offset % MAX_CHUNK_SIZE ≠ 0 ∧ ¬ Resident s fd (chunkStart offset) ∧
      Resident s fd (chunkStart offset + MAX_CHUNK_SIZE)
  | .write fd _ offset =>
    offset % MAX_CHUNK_SIZE ≠ 0 ∧ Resident s fd (chunkStart offset) ∧
      ¬ Resident s fd (chunkStart offset + MAX_CHUNK_SIZE) ∧
      Resident s fd (chunkStart offset + MAX_CHUNK_SIZE + MAX_CHUNK_SIZE)
  | .release _ => False

instance (s : State) : ∀ c, Decidable (AddsTwice s c)
  | .read _ _ _ => inferInstanceAs (Decidable (_ ∧ _ ∧ _))
  | .write _ _ _ => inferInstanceAs (Decidable (_ ∧ _ ∧ _ ∧ _))
  | .release _ => inferInstanceAs (Decidable False)

theorem nodup_missStarts : (missStarts offset).Nodup := by
  rw [missStarts]
  split
  · simp
  · simp only [List.nodup_cons, List.mem_singleton, List.not_mem_nil, not_false_iff,
      List.nodup_nil, and_true, MAX_CHUNK_SIZE]
    omega

/-- A miss adds the first chunk and, if the request is not aligned, the second one. -/
theorem mem_missStarts (h : start ∈ missStarts offset) :
    start = chunkStart offset ∨
      offset % MAX_CHUNK_SIZE ≠ 0 ∧ start = chunkStart offset + MAX_CHUNK_SIZE := by
  rw [missStarts] at h
  by_cases hp : offset % MAX_CHUNK_SIZE = 0
  · rw [if_pos hp, List.mem_singleton] at h
    simp only [chunkStart, MAX_CHUNK_SIZE] at *
    omega
  · rw [if_neg hp, List.mem_pair] at h
    exact h.imp_right fun h => ⟨hp, h⟩

/-- A read adds different chunks that are missing. -/
theorem readStarts_missing {size : Nat} (hb : Bounded s)
    (h : Found s.list fd offset (offset + MAX_CHUNK_SIZE) info)
    (hc : ¬ AddsTwice s (.read fd size offset)) :
    (readStarts offset info).Nodup ∧ ∀ start ∈ readStarts offset info, ¬ Resident s fd start := by
  have hch := chunks_of_found (fun b hb' _ => hb.aligned b hb') h
  cases info with
  | PERFECT_HIT | PARTIAL_HIT => simp [readStarts]
  | PARTIAL_MISS_FIRST b =>
    obtain ⟨hp, hmem, hbs, hno⟩ := hch
    have hto : b.toOffset = chunkStart offset + MAX_CHUNK_SIZE := by
      rw [(hb.aligned b hmem).2, hbs.2]
    simpa [readStarts, hto] using hno
  | PARTIAL_MISS_SECOND c =>
    obtain ⟨hp, hmem, hcs, hno⟩ := hch
    exact absurd ⟨hp, hno, c, hmem, hcs⟩ hc
  | PERFECT_MISS =>
    refine ⟨nodup_missStarts, fun start hstart => ?_⟩
    rcases mem_missStarts hstart with rfl | ⟨hp, rfl⟩
    · exact hch.1
    · exact hch.2 hp

/-- A write that does not add twice adds missing chunks only, and each once. -/
theorem writeStarts_missing (hb : Bounded s)
    (h : Found s.list fd offset (offset + MAX_CHUNK_SIZE) info)
    (hc : ¬ AddsTwice s (.write fd buf offset)) :
    (writeStarts offset info).Nodup ∧
      ∀ start ∈ writeStarts offset info, ¬ Resident s fd start := by
  have hch := chunks_of_found (fun b hb' _ => hb.aligned b hb') h
  cases info with
  | PERFECT_HIT | PARTIAL_HIT => simp [writeStarts]
  | PARTIAL_MISS_FIRST b =>
    obtain ⟨hp, hmem, hbs, hno⟩ := hch
    have hto :
        b.toOffset + MAX_CHUNK_SIZE = chunkStart offset + MAX_CHUNK_SIZE + MAX_CHUNK_SIZE := by
      rw [(hb.aligned b hmem).2, hbs.2]
    have hthird := fun hr => hc ⟨hp, ⟨b, hmem, hbs⟩, hno, hr⟩
    simpa [writeStarts, hto] using hthird
  | PARTIAL_MISS_SECOND c =>
    obtain ⟨hp, hmem, hcs, hno⟩ := hch
    have hfrom : c.fromOffset - MAX_CHUNK_SIZE = chunkStart offset := by
      rw [hcs.2]
      omega
    simpa [writeStarts, hfrom] using hno
  | PERFECT_MISS =>
    refine ⟨nodup_missStarts, fun start hstart => ?_⟩
    rcases mem_missStarts hstart with rfl | ⟨hp, rfl⟩
    · exact hch.1
    · exact hch.2 hp

/-- A lookup does not change which chunks are cached. -/
theorem bufferHitCheck_keys (fd : Int) (hb : Bounded s) (ho : offset < 2 ^ 31 - 16384) :
    ((s.bufferHitCheck (toInt offset) MAX_CHUNK_SIZE fd).2.list.map FileBuffer.key).Perm
      (s.list.map FileBuffer.key) :=
  ((@found_bufferHitCheck offset s fd (by omega)).move_perm hb.ids).map _

/-- Adding different chunks that are not cached leaves one buffer for each chunk. -/
theorem Unique.of_starts (hu : Unique s) (hb : Bounded s)
    (ho : offset < 2 ^ 31 - 16384)
    (ha : Adds fd (s.bufferHitCheck (toInt offset) MAX_CHUNK_SIZE fd).2 starts s')
    (hdvd : ∀ start ∈ starts, (MAX_CHUNK_SIZE : Int) ∣ start)
    (h : starts.Nodup ∧ ∀ start ∈ starts, ¬ Resident s fd start) : Unique s' := by
  have hperm := bufferHitCheck_keys fd hb ho
  refine Unique.adds (hperm.nodup_iff.2 hu) hb.bufferHitCheck ha hdvd h.1 ?_
  intro start hstart
  rw [resident_iff, hperm.mem_iff, ← resident_iff]
  exact h.2 start hstart

/-- A read that does not add twice leaves one buffer for each chunk. -/
theorem Unique.bb_read {size : Nat} (hu : Unique s) (hb : Bounded s)
    (ho : offset < 2 ^ 31 - 16384) (hc : ¬ AddsTwice s (.read fd size offset)) :
    Unique (s.bb_read env fd size offset).2 := by
  have hq := quiet_loadPolicyFromFile s env.conf
  refine bb_read_cases ((hu.quiet hq).quiet (quiet_pread _ _ _ _)) fun _ _ => ?_
  have hf := @found_bufferHitCheck offset (s.loadPolicyFromFile env.conf) fd (by omega)
  have hc' : ¬ AddsTwice (s.loadPolicyFromFile env.conf) (.read fd size offset) := hc
  exact Unique.of_starts (hu.quiet hq) (hb.quiet hq) ho (cachedRead_adds hb.aligned ho)
    (dvd_readStarts hb.aligned hf) (readStarts_missing (hb.quiet hq) hf hc')

/-- A write that does not add twice leaves one buffer for each chunk. -/
theorem Unique.bb_write (hu : Unique s) (hb : Bounded s) (ho : offset < 2 ^ 31 - 16384)
    (hc : ¬ AddsTwice s (.write fd buf offset)) : Unique (s.bb_write env fd buf offset).2 := by
  have hq := quiet_loadPolicyFromFile s env.conf
  refine bb_write_cases ((hu.quiet hq).quiet (quiet_pwrite _ _ _ _)) fun _ _ => ?_
  have hf := @found_bufferHitCheck offset (s.loadPolicyFromFile env.conf) fd (by omega)
  have hc' : ¬ AddsTwice (s.loadPolicyFromFile env.conf) (.write fd buf offset) := hc
  exact Unique.of_starts (hu.quiet hq) (hb.quiet hq) ho (cachedWrite_adds hb.aligned ho)
    (dvd_writeStarts hb.aligned hf) (writeStarts_missing (hb.quiet hq) hf hc')

/-- A request that does not add twice leaves one buffer for each chunk. -/
theorem Unique.perform {call : Call} (hu : Unique s) (hb : Bounded s)
    (hbelow : call.Below (2 ^ 31 - 16384)) (hc : ¬ AddsTwice s call) :
    Unique (s.perform env call).2 := by
  cases call with
  | read fd size offset => exact hu.bb_read hb hbelow hc
  | write fd buf offset => exact hu.bb_write hb hbelow hc
  | release fd => simp [State.perform, State.bb_release, State.releaseFileBuffer, Unique]

/-- In every run of requests none of which adds a chunk that is cached already, no two buffers
stand for the same chunk. -/
theorem cache_unique {s₀ : State} {τ : List Event} (hs : s₀.Fresh)
    (h : Run (fun s e s' => StepBelow (2 ^ 31 - 16384) s e s' ∧ Cached e ∧ ¬ AddsTwice s e.call) s₀
      τ s) : Unique s := by
  refine (h.invariant (fun _ s => Bounded s ∧ Unique s) ⟨hs.bounded, by simp [Unique, hs.list]⟩
    ?_).2
  rintro τ s e s' - ⟨hb, hu⟩ ⟨⟨⟨a, ha⟩, hbelow⟩, -, hc⟩
  obtain ⟨rfl, rfl⟩ := step_eq ha
  exact ⟨hb.perform hbelow, hu.perform hb hbelow hc⟩

/-- The state after two reads of an empty file. -/
def afterReads (offset offset' : Nat) : State :=
  (((mount (oneFile [])).perform (plainEnv 2) (.read 3 MAX_CHUNK_SIZE offset)).2.perform
    (plainEnv 2) (.read 3 MAX_CHUNK_SIZE offset')).2

/-- The first chunk is read, and then a request that ends in the second one. -/
theorem cache_unique_afterReads : (afterReads 0 1).list.length = 2 ∧ Unique (afterReads 0 1) := by
  refine ⟨by decide +kernel, cache_unique (fresh_mount (oneFile []))
    (.step (.step .start ⟨⟨⟨(plainEnv 2, .read 3 MAX_CHUNK_SIZE 0), rfl⟩, ?_⟩, ?_⟩)
      ⟨⟨⟨(plainEnv 2, .read 3 MAX_CHUNK_SIZE 1), rfl⟩, ?_⟩, ?_⟩)⟩ <;> decide +kernel

/-- The second chunk is read, and then a request that begins in the first one. -/
theorem chunk_cached_twice :
    ¬ ∀ (s₀ s : State) (τ : List Event), s₀.Fresh →
      Run (fun s e s' => StepBelow (2 ^ 31 - 16384) s e s' ∧ Cached e) s₀ τ s → Unique s := by
  intro hall
  have hu : Unique (afterReads 4096 1) := by
    refine hall _ _ _ (fresh_mount (oneFile []))
      (.step (.step .start ⟨⟨⟨(plainEnv 2, .read 3 MAX_CHUNK_SIZE 4096), rfl⟩, ?_⟩, ?_⟩)
        ⟨⟨⟨(plainEnv 2, .read 3 MAX_CHUNK_SIZE 1), rfl⟩, ?_⟩, ?_⟩) <;> decide +kernel
  exact absurd hu (by decide +kernel)

end EE516.Bbfs
