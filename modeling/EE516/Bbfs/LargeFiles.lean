import EE516.Bbfs.AlignedRequests
import EE516.Bbfs.Recency

/-!
# Offsets behind the end of the `int`s

An offset is an `off_t`, and an `int` in the lookup, in the buffers and in the starts of the chunks.
Two offsets that differ by a multiple of 2^32 have one buffer between them, and from 2^31 on the
`pread` of a chunk and the write-back of its buffer are at another place.
-/

set_option autoImplicit false

namespace EE516.Bbfs

open Foundations

variable {s s' : State} {b c : FileBuffer} {fd start stop : Int} {env : Env} {offset size : Nat}
variable {buf : List UInt8} {conf : Conf} {rand o o₁ o₂ first : Nat} {G : List (Nat × Nat)}
variable {ids : List Nat} {preads : List Int} {base : List Io} {τ : List Event} {e : Event}
variable {info : HitInfo} {call : Call}

/-! ## What a buffer was filled for -/

/-- The offsets of the chunks that `bb_read` fills buffers for after a lookup, the last one first:
what its branches compute, with no offset cut to an `int`. -/
def readFills (offset : Nat) : HitInfo → List Nat
  | .PERFECT_HIT _ | .PARTIAL_HIT _ _ => []
  | .PARTIAL_MISS_FIRST _ | .PARTIAL_MISS_SECOND _ =>
    [offset - offset % MAX_CHUNK_SIZE + MAX_CHUNK_SIZE]
  | .PERFECT_MISS =>
    if offset % MAX_CHUNK_SIZE = 0 then [offset]
    else [offset - offset % MAX_CHUNK_SIZE + MAX_CHUNK_SIZE, offset - offset % MAX_CHUNK_SIZE]

/-- The same for `bb_write`. -/
def writeFills (offset : Nat) : HitInfo → List Nat
  | .PERFECT_HIT _ | .PARTIAL_HIT _ _ => []
  | .PARTIAL_MISS_FIRST _ => [offset - offset % MAX_CHUNK_SIZE + 2 * MAX_CHUNK_SIZE]
  | .PARTIAL_MISS_SECOND _ => [offset - offset % MAX_CHUNK_SIZE]
  | .PERFECT_MISS =>
    if offset % MAX_CHUNK_SIZE = 0 then [offset]
    else [offset - offset % MAX_CHUNK_SIZE + MAX_CHUNK_SIZE, offset - offset % MAX_CHUNK_SIZE]

/-- The offsets of the chunks that a call fills buffers for. -/
def Event.fillStarts (e : Event) : List Nat :=
  match e.call with
  | .read fd _ offset =>
    readFills offset (e.before.bufferHitCheck (toInt offset) MAX_CHUNK_SIZE fd).1
  | .write fd _ offset =>
    writeFills offset (e.before.bufferHitCheck (toInt offset) MAX_CHUNK_SIZE fd).1
  | .release _ => []

/-- The nodes that were inserted in a run, with the offsets that they were filled for. -/
def fills : List Event → List (Nat × Nat)
  | [] => []
  | e :: τ => (insertedIds e.newIo).zip e.fillStarts ++ fills τ

/-- The offsets of the `pread`s, the last one first. -/
def preadStarts : List Io → List Int
  | [] => []
  | .pread _ _ start :: io => start :: preadStarts io
  | _ :: io => preadStarts io

/-- The call is a `bb_write`. -/
def Call.isWrite : Call → Bool
  | .write _ _ _ => true
  | _ => false

/-- After the run `τ`, a request for the chunk at `o₂` has nothing to do with a buffer that was
filled for `o₁`: it is not given the buffer and leaves it as it is. And what it reads, and what it
puts into a buffer by a write, is at `o₂` in the file. -/
structure KeepsApart (τ : List Event) (e : Event) (o₁ o₂ : Nat) : Prop where
  found : ∀ b ∈ e.found, (b.id, o₁) ∉ fills τ
  unchanged : ∀ b ∈ e.before.list, (b.id, o₁) ∈ fills τ → ∀ c ∈ e.after.list, c.id = b.id → c = b
  reads : ∀ start ∈ preadStarts e.newIo, start = o₂
  writes : e.call.isWrite = true → ∀ c ∈ e.after.list,
    c.id ∈ e.found.map FileBuffer.id ++ insertedIds e.newIo → c.fromOffset = o₂

/-! ## The record of a call -/

@[simp] theorem preadStarts_writeBackIo (v : FileBuffer) (fd : Int) (io : List Io) :
    preadStarts (v.writeBackIo fd ++ io) = preadStarts io := by
  rw [FileBuffer.writeBackIo]
  split <;> rfl

/-- What was inserted and what was read since the record was `base`. -/
def Since (base : List Io) (ids : List Nat) (preads : List Int) (s : State) : Prop :=
  ∃ io, s.io = io ++ base ∧ insertedIds io = ids ∧ preadStarts io = preads

theorem since_refl (s : State) : Since s.io [] [] s :=
  ⟨[], rfl, rfl, rfl⟩

theorem Since.pread (h : Since base ids preads s) (fd : Int) (size : Nat) (start : Int) :
    Since base ids (start :: preads) (s.record (.pread fd size start)) := by
  obtain ⟨io, hio, rfl, rfl⟩ := h
  exact ⟨.pread fd size start :: io, congrArg _ hio, rfl, rfl⟩

theorem Since.added (h : Since base ids preads s) {new : FileBuffer}
    (hs : Added s conf rand new s') : Since base (new.id :: ids) preads s' := by
  obtain ⟨io, hio, rfl, rfl⟩ := h
  cases hs with
  | room => exact ⟨.insert new s.list :: .enter s.list :: io, by simp [hio], rfl, rfl⟩
  | @full l₁ l₂ v =>
    refine ⟨.insert new (l₁ ++ l₂) :: .free v :: (v.writeBackIo v.fd ++ .enter s.list :: io), ?_,
      ?_, ?_⟩
    · simp [hio]
    · simp [insertedIds]
    · simp [preadStarts]

theorem Since.addFileBuffer (h : Since base ids preads s) (hcount : s.bufferCount = s.list.length) :
    Since base (s.nextId :: ids) preads (s.addFileBuffer conf rand buf start stop fd) :=
  h.added (Bbfs.added hcount)

/-! ## The buffers and their offsets -/

/-- Each buffer was filled for some offset, and starts at what an `int` says of it. -/
structure Filled (fd : Int) (G : List (Nat × Nat)) (s : State) : Prop extends Orderly fd s where
  used : ∀ p ∈ G, p.1 < s.nextId
  exists_start : ∀ b ∈ s.list, ∃ o, (b.id, o) ∈ G
  start : ∀ b ∈ s.list, ∀ o, (b.id, o) ∈ G → b.fromOffset = toInt o

theorem State.Fresh.filled (h : s.Fresh) (fd : Int) : Filled fd [] s :=
  { h.orderly fd with
    used := nofun
    exists_start := by simp [h.list]
    start := by simp [h.list] }

theorem Filled.quiet (h : Filled fd G s) (hq : Quiet s s') : Filled fd G s' := by
  -- a slot has the address and the start of its buffer
  have hslot : ∀ b ∈ s'.list, ∃ x ∈ s.list, x.id = b.id ∧ x.fromOffset = b.fromOffset := by
    intro b hb
    obtain ⟨x, hx, hxb⟩ := hq.mem hb
    simp only [FileBuffer.slot, Prod.mk.injEq] at hxb
    exact ⟨x, hx, hxb.1, hxb.2.1⟩
  refine { h.toOrderly.quiet hq with used := hq.nextId ▸ h.used, exists_start := ?_, start := ?_ }
  · intro b hb
    obtain ⟨x, hx, hid, -⟩ := hslot b hb
    exact hid ▸ h.exists_start x hx
  · intro b hb o ho
    obtain ⟨x, hx, hid, hfrom⟩ := hslot b hb
    exact hfrom ▸ h.start x hx o (hid ▸ ho)

theorem Filled.bufferHitCheck (h : Filled fd G s) :
    Filled fd G (s.bufferHitCheck start size fd).2 := by
  obtain ⟨hperm, -⟩ := @Nodes.bufferHitCheck s fd start size h.toNodes
  exact { h.toOrderly.bufferHitCheck with
    used := h.used
    exists_start := fun b hb => h.exists_start b (hperm.mem_iff.1 hb)
    start := fun b hb => h.start b (hperm.mem_iff.1 hb) }

theorem Added.nextId {new : FileBuffer} (hs : Added s conf rand new s') :
    s'.nextId = s.nextId + 1 := by
  cases hs <;> rfl

/-- A chunk that is added is filled for its uncut offset. -/
theorem Filled.addFileBuffer (h : Filled fd G s) (hdvd : MAX_CHUNK_SIZE ∣ o)
    (hstart : start = toInt o) (hstop : stop = toInt ((o : Int) + MAX_CHUNK_SIZE)) :
    Filled fd ((s.nextId, o) :: G) (s.addFileBuffer conf rand buf start stop fd) := by
  have hadd := h.toNodes.adds_buffer conf rand buf start stop fd
  obtain ⟨rest, hlist, hsub⟩ := hadd.list
  have hnext := hadd.nextId
  -- the address of the new buffer was never used
  have hold : ∀ {b o'}, b ∈ rest → ((b.id, o') ∈ (s.nextId, o) :: G ↔ (b.id, o') ∈ G) := by
    intro b o' hb
    have hne : b.id ≠ s.nextId := Nat.ne_of_lt (h.allocated b (hsub.subset hb))
    simp [hne]
  have hnew : ∀ {o'}, (s.nextId, o') ∈ (s.nextId, o) :: G → o' = o := by
    intro o' ho
    rcases List.mem_cons.1 ho with heq | ho
    · exact congrArg Prod.snd heq
    · exact absurd (h.used _ ho) (Nat.lt_irrefl _)
  refine { h.toOrderly.addFileBuffer (Int.natCast_dvd_natCast.2 hdvd) hstart hstop with
    used := ?_, exists_start := ?_, start := ?_ }
  · intro p hp
    rw [hnext]
    rcases List.mem_cons.1 hp with rfl | hp
    · exact Nat.lt_succ_self _
    · exact Nat.lt_succ_of_lt (h.used p hp)
  · intro b hb
    rw [hlist] at hb
    rcases List.mem_cons.1 hb with rfl | hb
    · exact ⟨o, List.mem_cons_self⟩
    · obtain ⟨o', ho⟩ := h.exists_start b (hsub.subset hb)
      exact ⟨o', (hold hb).2 ho⟩
  · intro b hb o' ho
    rw [hlist] at hb
    rcases List.mem_cons.1 hb with rfl | hb
    · rw [hnew ho]
      exact hstart
    · exact h.start b (hsub.subset hb) o' ((hold hb).1 ho)

/-! ## Requests -/

/-- The chunks that a request at the offset touches, cut to `int`s. -/
theorem toInt_chunks (offset : Nat) :
    MAX_CHUNK_SIZE ∣ offset - offset % MAX_CHUNK_SIZE ∧
      toInt offset - toInt offset % MAX_CHUNK_SIZE =
        toInt ((offset - offset % MAX_CHUNK_SIZE : Nat) : Int) ∧
      toInt (toInt offset + MAX_CHUNK_SIZE) -
          toInt (toInt offset + MAX_CHUNK_SIZE) % MAX_CHUNK_SIZE =
        toInt ((offset - offset % MAX_CHUNK_SIZE + MAX_CHUNK_SIZE : Nat) : Int) := by
  simp only [toInt, MAX_CHUNK_SIZE]
  omega

/-- What a request does that has inserted the chunks at `starts`. -/
def FillsAfter (fd : Int) (G : List (Nat × Nat)) (base : List Io) (starts : List Nat) (s : State) :
    Prop :=
  ∃ ids preads, Since base ids preads s ∧ Filled fd (ids.zip starts ++ G) s

/-- A request that has inserted nothing. -/
theorem Filled.since_self (h : Filled fd G s) {starts : List Nat} :
    FillsAfter fd G s.io starts s :=
  ⟨[], [], since_refl s, h⟩

theorem FillsAfter.same {starts : List Nat} (h : FillsAfter fd G base starts s) (hq : Quiet s s')
    (hio : s'.io = s.io) : FillsAfter fd G base starts s' := by
  obtain ⟨ids, preads, ⟨io, hs, hids, hpreads⟩, hf⟩ := h
  exact ⟨ids, preads, ⟨io, hio.trans hs, hids, hpreads⟩, hf.quiet hq⟩

theorem FillsAfter.setBuf {starts : List Nat} (h : FillsAfter fd G base starts s) (b : FileBuffer)
    (buf : List UInt8) : FillsAfter fd G base starts (s.setBuf b buf) :=
  h.same (quiet_setBuf s b buf) rfl

theorem FillsAfter.setDirty {starts : List Nat} (h : FillsAfter fd G base starts s)
    (b : FileBuffer) : FillsAfter fd G base starts (s.setDirty b) :=
  h.same (quiet_setDirty s b) rfl

theorem FillsAfter.pread {starts : List Nat} (h : FillsAfter fd G base starts s) (fd' : Int)
    (size : Nat) (start : Int) :
    FillsAfter fd G base starts (s.record (.pread fd' size start)) := by
  obtain ⟨ids, preads, hs, hf⟩ := h
  exact ⟨ids, start :: preads, hs.pread fd' size start, hf.quiet (quiet_pread s fd' size start)⟩

/-- A write alone fills no buffer. -/
theorem FillsAfter.pwrite {starts : List Nat} (h : FillsAfter fd G base starts s) (fd' : Int)
    (buf : List UInt8) (start : Int) : FillsAfter fd G base starts (s.pwrite fd' buf start) := by
  obtain ⟨ids, preads, ⟨io, hio, hids, hpreads⟩, hf⟩ := h
  have hio' : (s.pwrite fd' buf start).io = (.pwrite fd' buf start :: io) ++ base :=
    congrArg _ hio
  exact ⟨ids, preads, ⟨_, hio', hids, hpreads⟩, hf.quiet (quiet_pwrite s fd' buf start)⟩

/-- An insertion fills a buffer from the chunk that was cut to an `int`. -/
theorem FillsAfter.addFileBuffer {starts : List Nat} (h : FillsAfter fd G base starts s)
    (hdvd : MAX_CHUNK_SIZE ∣ o) (hstart : start = toInt o)
    (hstop : stop = toInt ((o : Int) + MAX_CHUNK_SIZE)) :
    FillsAfter fd G base (o :: starts) (s.addFileBuffer conf rand buf start stop fd) := by
  obtain ⟨ids, preads, hs, hf⟩ := h
  exact ⟨s.nextId :: ids, preads, hs.addFileBuffer hf.bufferCount,
    hf.addFileBuffer hdvd hstart hstop⟩

/-- The two chunks of a request that found neither. -/
theorem FillsAfter.addMissing {starts : List Nat} {first second : List UInt8} {conf' : Conf}
    {rand' : Nat} (h : FillsAfter fd G base starts s) (offset : Nat) :
    FillsAfter fd G base
      ((offset - offset % MAX_CHUNK_SIZE + MAX_CHUNK_SIZE) ::
        (offset - offset % MAX_CHUNK_SIZE) :: starts)
      ((s.addFileBuffer conf rand first (toInt (offset - (offset % MAX_CHUNK_SIZE : Nat)))
        (toInt (toInt (offset - (offset % MAX_CHUNK_SIZE : Nat)) + MAX_CHUNK_SIZE))
        fd).addFileBuffer conf' rand' second
        (toInt (toInt (offset - (offset % MAX_CHUNK_SIZE : Nat)) + MAX_CHUNK_SIZE))
        (toInt (toInt (offset - (offset % MAX_CHUNK_SIZE : Nat)) + MAX_CHUNK_SIZE +
          MAX_CHUNK_SIZE)) fd) := by
  obtain ⟨hdvd, -⟩ := toInt_chunks offset
  have hcast : (offset : Int) - (offset % MAX_CHUNK_SIZE : Nat) =
      (offset - offset % MAX_CHUNK_SIZE : Nat) := (Int.natCast_sub (Nat.mod_le _ _)).symm
  rw [hcast]
  refine (h.addFileBuffer hdvd rfl (toInt_toInt_add _ _)).addFileBuffer
    (Nat.dvd_add hdvd (Nat.dvd_refl _)) ?_ ?_
  · rw [toInt_toInt_add, Int.natCast_add]
  · rw [Int.add_assoc, toInt_toInt_add, Int.natCast_add, Int.add_assoc]

/-- The bounds of a part that was found, and of the chunks before and behind it. -/
theorem placed_first (hb : b.Placed fd) (hc : b.Covers fd (toInt offset)) :
    b.toOffset = toInt ((offset - offset % MAX_CHUNK_SIZE + MAX_CHUNK_SIZE : Nat) : Int) := by
  obtain ⟨hfrom, -⟩ := hb.of_covers hc
  rw [hb.toOffset, hfrom, (toInt_chunks offset).2.1, toInt_toInt_add, Int.natCast_add]

theorem placed_second (hb : b.Placed fd)
    (hc : b.Covers fd (toInt (toInt offset + MAX_CHUNK_SIZE))) :
    b.fromOffset = toInt ((offset - offset % MAX_CHUNK_SIZE + MAX_CHUNK_SIZE : Nat) : Int) ∧
      b.toOffset - MAX_CHUNK_SIZE = b.fromOffset := by
  obtain ⟨hfrom, hto⟩ := hb.of_covers hc
  exact ⟨hfrom.trans (toInt_chunks offset).2.2, by omega⟩

/-- What a cached read fills, by the result of its lookup. -/
theorem Filled.cachedRead (h : Filled fd G s) :
    FillsAfter fd G s.io
      (readFills offset (s.bufferHitCheck (toInt offset) MAX_CHUNK_SIZE fd).1)
      (s.cachedRead env fd MAX_CHUNK_SIZE offset).2 := by
  have hs : ∀ {starts}, FillsAfter fd G s.io starts
      (s.bufferHitCheck (toInt offset) MAX_CHUNK_SIZE fd).2 := h.bufferHitCheck.since_self
  have hf := found_lookup s fd offset
  obtain ⟨hdvd, -⟩ := toInt_chunks offset
  have hdvd' := Nat.dvd_add hdvd (Nat.dvd_refl MAX_CHUNK_SIZE)
  rw [State.cachedRead, State.cachedReadWith]
  generalize s.bufferHitCheck (toInt offset) MAX_CHUNK_SIZE fd = r at *
  obtain ⟨info, s₁⟩ := r
  cases hf with
  | perfectHit | partialHit => exact hs
  | @first b _ hb hbt =>
    have hto := placed_first (h.placed b hb) hbt
    refine (hs.pread ..).addFileBuffer hdvd' hto ?_
    rw [hto, toInt_toInt_add]
  | @second c _ hc hcu =>
    -- the chunk of the second part itself
    obtain ⟨hfrom, hto⟩ := placed_second (h.placed c hc) hcu
    refine (hs.pread ..).addFileBuffer hdvd' ?_ ?_
    · rw [hto, hfrom, toInt_toInt]
    · rw [hto, hfrom, toInt_toInt, toInt_toInt_add]
  | perfectMiss =>
    dsimp only [readFills]
    split
    case isTrue hp =>
      exact (hs.pread ..).addFileBuffer (Nat.dvd_of_mod_eq_zero hp) rfl (toInt_toInt_add _ _)
    case isFalse => exact (hs.pread ..).addMissing offset

/-- What a cached write fills, by the result of its lookup. -/
theorem Filled.cachedWrite (h : Filled fd G s) :
    FillsAfter fd G s.io
      (writeFills offset (s.bufferHitCheck (toInt offset) MAX_CHUNK_SIZE fd).1)
      (s.cachedWrite env fd buf MAX_CHUNK_SIZE offset) := by
  have hs : ∀ {starts}, FillsAfter fd G s.io starts
      (s.bufferHitCheck (toInt offset) MAX_CHUNK_SIZE fd).2 := h.bufferHitCheck.since_self
  have hf := found_lookup s fd offset
  obtain ⟨hdvd, -⟩ := toInt_chunks offset
  rw [State.cachedWrite]
  generalize s.bufferHitCheck (toInt offset) MAX_CHUNK_SIZE fd = r at *
  obtain ⟨info, s₁⟩ := r
  cases hf with
  | perfectHit => exact (hs.setBuf ..).setDirty _
  | partialHit => exact (((hs.setBuf ..).setBuf ..).setDirty _).setDirty _
  | @first b _ hb hbt =>
    -- one chunk behind the one that is read
    have hto := placed_first (h.placed b hb) hbt
    have hdvd' := Nat.dvd_add hdvd (Nat.dvd_mul_left MAX_CHUNK_SIZE 2)
    refine (((hs.pread ..).setBuf ..).setDirty _).addFileBuffer hdvd' ?_ ?_
    · rw [hto, toInt_toInt_add]
      exact congrArg toInt (by omega)
    · rw [hto, Int.add_assoc, toInt_toInt_add]
      exact congrArg toInt (by omega)
  | @second c _ hc hcu =>
    obtain ⟨hfrom, -⟩ := placed_second (h.placed c hc) hcu
    refine ((hs.pread ..).setBuf ..).addFileBuffer hdvd ?_ ?_
    · rw [hfrom, Int.sub_eq_add_neg, toInt_toInt_add]
      exact congrArg toInt (by omega)
    · rw [hfrom, toInt_toInt_add, Int.sub_eq_add_neg, Int.add_assoc, toInt_toInt_add]
      exact congrArg toInt (by omega)
  | perfectMiss =>
    dsimp only [writeFills]
    split
    case isTrue hp =>
      exact (hs.pread ..).addFileBuffer (Nat.dvd_of_mod_eq_zero hp) rfl (toInt_toInt_add _ _)
    case isFalse => exact (hs.pread ..).addMissing offset

/-! ## Events -/

/-- The fills of a request are added to those of the history. -/
theorem FillsAfter.event (h : FillsAfter fd (fills τ) e.before.io e.fillStarts e.after) :
    Filled fd (fills (e :: τ)) e.after := by
  obtain ⟨ids, preads, ⟨io, hio, hids, -⟩, hf⟩ := h
  rw [fills, newIo_eq hio, hids]
  exact hf

/-- After a request of the file each buffer starts where an `int` says that it was filled for. -/
theorem Filled.perform (h : Filled fd (fills τ) s) (hc : call.IsRequest fd) :
    Filled fd (fills (s.event env call :: τ)) (s.event env call).after := by
  have hs : Filled fd (fills τ) (s.loadPolicyFromFile env.conf) :=
    h.quiet (quiet_loadPolicyFromFile s env.conf)
  refine FillsAfter.event ?_
  cases call with
  | read fd' size offset =>
    obtain rfl : fd' = fd := hc
    refine bb_read_cases (P := FillsAfter fd' (fills τ) s.io _) ?_ fun _ _ => hs.cachedRead
    exact hs.since_self.pread ..
  | write fd' buf offset =>
    obtain rfl : fd' = fd := hc
    refine bb_write_cases (P := FillsAfter fd' (fills τ) s.io _) ?_ fun _ _ => hs.cachedWrite
    exact hs.since_self.pwrite ..
  | release => exact absurd hc id

/-- Every buffer was filled by a request of the run. -/
theorem filled_run {s₀ : State} (hs : s₀.Fresh)
    (h : Run (fun s e s' => StepBy step s e s' ∧ e.call.IsRequest fd) s₀ τ s) :
    Filled fd (fills τ) s := by
  refine h.invariant (fun τ s => Filled fd (fills τ) s) (hs.filled fd) ?_
  rintro τ s e s' - hf ⟨⟨⟨env, call⟩, ha⟩, hc⟩
  obtain ⟨rfl, rfl⟩ := step_eq ha
  exact hf.perform hc

/-! ## A request for an aligned chunk -/

/-- The first buffer of the list that stands for the chunk. -/
def State.firstAt (s : State) (fd start : Int) : Option FileBuffer :=
  s.list.find? fun b => b.StartsAt fd start

/-- No buffer is found exactly if the chunk is not cached. -/
theorem firstAt_eq_none : s.firstAt fd start = none ↔ ¬ Resident s fd start := by
  simp [State.firstAt, Resident]

/-- A chunk-aligned start lies inside of no buffer. -/
theorem Orderly.not_covers (h : Orderly fd s) (hp : (MAX_CHUNK_SIZE : Int) ∣ start) :
    ∀ b ∈ s.list, ¬ b.Covers fd start := by
  intro b hb hc
  obtain ⟨hfrom, -⟩ := (h.placed b hb).of_covers hc
  have hlt := hc.2.1
  rw [Int.emod_eq_zero_of_dvd hp, Int.sub_zero] at hfrom
  omega

theorem lastWith_eq_none {l : List FileBuffer} {P : FileBuffer → Prop} [DecidablePred P]
    (h : ∀ b ∈ l, ¬ P b) : lastWith (fun b => P b) l = none := by
  refine List.find?_eq_none.2 fun b hb => ?_
  simpa using h b (List.mem_reverse.1 hb)

/-- An aligned lookup, its offset cut to an `int`. -/
theorem Orderly.lookup (h : Orderly fd s) (hp : MAX_CHUNK_SIZE ∣ o) :
    (s.bufferHitCheck (toInt o) MAX_CHUNK_SIZE fd).1 =
      match s.firstAt fd (toInt o) with
      | some b => .PERFECT_HIT b
      | none => .PERFECT_MISS := by
  have hdvd : (MAX_CHUNK_SIZE : Int) ∣ o := Int.natCast_dvd_natCast.2 hp
  have hdvd' : (MAX_CHUNK_SIZE : Int) ∣ toInt (toInt o + MAX_CHUNK_SIZE) :=
    dvd_toInt (Int.dvd_add (dvd_toInt hdvd) (Int.dvd_refl _))
  have hscan : (s.bufferHitCheck (toInt o) MAX_CHUNK_SIZE fd).1 =
      scan (toInt o) (toInt (toInt o + MAX_CHUNK_SIZE)) fd s.list none none := rfl
  rw [hscan, scan_eq, lastWith_eq_none (h.not_covers (dvd_toInt hdvd)),
    lastWith_eq_none (h.not_covers hdvd')]
  rfl

/-- What a request for an aligned chunk does, a read or a write of the bytes `w`: it is given the
first buffer that starts at the cut offset, or reads there and adds a buffer. -/
inductive ServesCut (s : State) (fd : Int) (o : Nat) (w : Option (List UInt8)) : State → Prop
  | hit {b : FileBuffer} {s' : State} (hfirst : s.firstAt fd (toInt o) = some b)
      (hlist : s'.list.Perm (serveList b.id w s.list)) (hsince : Since s.io [] [] s') :
      ServesCut s fd o w s'
  | miss {conf : Conf} {rand : Nat} {s₁ s' : State} {new : FileBuffer}
      (hfirst : s.firstAt fd (toInt o) = none) (hlist : s₁.list = s.list)
      (hid : new.id = s.nextId) (hstart : new.fromOffset = toInt o)
      (hadd : Added s₁ conf rand new s') (hsince : Since s.io [s.nextId] [toInt o] s') :
      ServesCut s fd o w s'

/-- A chunk that is not found is read and added. -/
theorem ServesCut.of_miss {w : Option (List UInt8)} {s₁ : State}
    (hfirst : s.firstAt fd (toInt o) = none) (hn : Nodes s₁) (hlist : s₁.list = s.list)
    (hnext : s₁.nextId = s.nextId) (hsince : Since s.io [] [toInt o] s₁) :
    ServesCut s fd o w (s₁.addFileBuffer conf rand buf (toInt o) stop fd) := by
  have hadd := hn.adds_buffer conf rand buf (toInt o) stop fd
  have hsince' := hsince.added hadd
  generalize s₁.addFileBuffer conf rand buf (toInt o) stop fd = s' at hadd hsince' ⊢
  dsimp only at hsince'
  rw [hnext] at hadd hsince'
  refine .miss hfirst hlist ?_ ?_ hadd hsince' <;> rfl

/-- A cached read of a whole chunk serves the chunk that its offset is cut to. -/
theorem Orderly.cachedRead_serves (h : Orderly fd s) (hp : MAX_CHUNK_SIZE ∣ o) :
    ServesCut s fd o none (s.cachedRead env fd MAX_CHUNK_SIZE o).2 := by
  have hlookup := h.lookup hp
  have hn : Nodes (s.bufferHitCheck (toInt o) MAX_CHUNK_SIZE fd).2 := h.toNodes.bufferHitCheck.2
  have hmove : (s.bufferHitCheck (toInt o) MAX_CHUNK_SIZE fd).2.list =
      (s.bufferHitCheck (toInt o) MAX_CHUNK_SIZE fd).1.move s.list := rfl
  have hsince : Since s.io [] [] (s.bufferHitCheck (toInt o) MAX_CHUNK_SIZE fd).2 :=
    since_refl (s.bufferHitCheck (toInt o) MAX_CHUNK_SIZE fd).2
  have hnext : (s.bufferHitCheck (toInt o) MAX_CHUNK_SIZE fd).2.nextId = s.nextId := rfl
  rw [State.cachedRead, State.cachedReadWith]
  generalize s.bufferHitCheck (toInt o) MAX_CHUNK_SIZE fd = r at *
  obtain ⟨info, s₁⟩ := r
  dsimp only at hlookup hn hmove hsince hnext
  cases hfirst : s.firstAt fd (toInt o) with
  | some b =>
    rw [hfirst] at hlookup
    subst hlookup
    refine .hit hfirst ?_ hsince
    rw [serveList_none]
    exact hmove ▸ listMove_perm h.ids (List.mem_of_find?_eq_some hfirst)
  | none =>
    rw [hfirst] at hlookup
    subst hlookup
    dsimp only
    rw [if_pos (Nat.mod_eq_zero_of_dvd hp)]
    exact .of_miss hfirst (hn.quiet (quiet_pread ..)) hmove hnext (hsince.pread ..)

/-- A cached write of a whole chunk serves the chunk that its offset is cut to. -/
theorem Orderly.cachedWrite_serves (h : Orderly fd s) (hp : MAX_CHUNK_SIZE ∣ o) :
    ServesCut s fd o (some buf) (s.cachedWrite env fd buf MAX_CHUNK_SIZE o) := by
  have hlookup := h.lookup hp
  have hn : Nodes (s.bufferHitCheck (toInt o) MAX_CHUNK_SIZE fd).2 := h.toNodes.bufferHitCheck.2
  have hmove : (s.bufferHitCheck (toInt o) MAX_CHUNK_SIZE fd).2.list =
      (s.bufferHitCheck (toInt o) MAX_CHUNK_SIZE fd).1.move s.list := rfl
  have hsince : Since s.io [] [] (s.bufferHitCheck (toInt o) MAX_CHUNK_SIZE fd).2 :=
    since_refl (s.bufferHitCheck (toInt o) MAX_CHUNK_SIZE fd).2
  have hnext : (s.bufferHitCheck (toInt o) MAX_CHUNK_SIZE fd).2.nextId = s.nextId := rfl
  rw [State.cachedWrite]
  generalize s.bufferHitCheck (toInt o) MAX_CHUNK_SIZE fd = r at *
  obtain ⟨info, s₁⟩ := r
  dsimp only at hlookup hn hmove hsince hnext
  cases hfirst : s.firstAt fd (toInt o) with
  | some b =>
    rw [hfirst] at hlookup
    subst hlookup
    refine .hit hfirst ?_ hsince
    dsimp only
    rw [setDirty_setBuf_list, hmove]
    exact (listMove_perm h.ids (List.mem_of_find?_eq_some hfirst)).map _
  | none =>
    rw [hfirst] at hlookup
    subst hlookup
    dsimp only
    rw [if_pos (Nat.mod_eq_zero_of_dvd hp)]
    exact .of_miss hfirst (hn.quiet (quiet_pread ..)) hmove hnext (hsince.pread ..)

theorem ServesCut.loaded {w : Option (List UInt8)}
    (h : ServesCut (s.loadPolicyFromFile conf) fd o w s') : ServesCut s fd o w s' := by
  cases h with
  | hit hfirst hlist hsince => exact .hit hfirst hlist hsince
  | miss hfirst hlist hid hstart hadd hsince => exact .miss hfirst hlist hid hstart hadd hsince

/-- A request of one chunk of the file at the offset. -/
def Call.IsChunkAt (fd : Int) (offset : Nat) : Call → Prop
  | .read fd' size offset' => fd' = fd ∧ size = MAX_CHUNK_SIZE ∧ offset' = offset
  | .write fd' buf offset' => fd' = fd ∧ buf.length = MAX_CHUNK_SIZE ∧ offset' = offset
  | .release _ => False

/-- A request for a whole chunk serves the chunk that its offset is cut to. -/
theorem Orderly.event_serves (h : Orderly fd s) (hp : MAX_CHUNK_SIZE ∣ o)
    (hcall : call.IsChunkAt fd o)
    (hpol : (s.loadPolicyFromFile env.conf).policy.cachePolicy ≠ 0) :
    (s.event env call).found = (s.firstAt fd (toInt o)).toList ∧
      ∃ w : Option (List UInt8), ServesCut s fd o w (s.event env call).after := by
  have hs : Orderly fd (s.loadPolicyFromFile env.conf) :=
    h.quiet (quiet_loadPolicyFromFile s env.conf)
  have hparts : (s.bufferHitCheck (toInt o) MAX_CHUNK_SIZE fd).1.parts =
      (s.firstAt fd (toInt o)).toList := by
    rw [h.lookup hp]
    cases s.firstAt fd (toInt o) <;> rfl
  cases call with
  | read fd' size offset =>
    obtain ⟨rfl, rfl, rfl⟩ := hcall
    refine ⟨hparts, none, ?_⟩
    rw [after_read hpol]
    exact (hs.cachedRead_serves hp).loaded
  | write fd' buf offset =>
    obtain ⟨rfl, hbuf, rfl⟩ := hcall
    refine ⟨hparts, some ((s.loadPolicyFromFile env.conf).policy.encrypt
      (strncpy buf buf.length)), ?_⟩
    rw [after_write hpol hbuf]
    exact (hs.cachedWrite_serves hp).loaded
  | release => exact absurd hcall id

/-- An offset is an `int` exactly below `2 ^ 31`. -/
theorem toInt_eq_self_iff : toInt (o : Int) = o ↔ o < 2 ^ 31 := by
  rw [toInt]
  omega

theorem ids_serveList (w : Option (List UInt8)) (id : Nat) (l : List FileBuffer) :
    (serveList id w l).map FileBuffer.id = l.map FileBuffer.id := by
  rw [serveList, List.map_map]
  refine List.map_congr_left fun c _ => ?_
  dsimp only [Function.comp_apply]
  split
  · cases w <;> rfl
  · rfl

/-- A hit keeps apart if the buffer was not filled for `o₁`, and a write of it goes back to `o₂`. -/
theorem keepsApart_hit_iff {w : Option (List UInt8)} (h : Filled fd (fills τ) e.before)
    (hb : b ∈ e.before.list) (hbs : b.StartsAt fd (toInt o₂))
    (hlist : e.after.list.Perm (serveList b.id w e.before.list))
    (hsince : Since e.before.io [] [] e.after) (hfound : e.found = [b]) :
    KeepsApart τ e o₁ o₂ ↔ (b.id, o₁) ∉ fills τ ∧ (o₂ < 2 ^ 31 ∨ e.call.isWrite = false) := by
  obtain ⟨io, hio, hids, hpreads⟩ := hsince
  have hnew := newIo_eq hio
  have hserve : b.serve w ∈ e.after.list := hlist.mem_iff.2 (serve_mem_serveList hb)
  have hkept : (b.serve w).id = b.id ∧ (b.serve w).fromOffset = toInt o₂ := by
    cases w <;> exact ⟨rfl, hbs.2⟩
  constructor
  · intro hk
    refine ⟨hk.found b (by simp [hfound]), ?_⟩
    cases hwrite : e.call.isWrite with
    | false => exact .inr rfl
    | true =>
      left
      have hstart := hk.writes hwrite _ hserve (by simp [hfound, hkept.1])
      exact toInt_eq_self_iff.1 (hkept.2.symm.trans hstart)
  · rintro ⟨hother, hsmall⟩
    refine ⟨?_, ?_, ?_, ?_⟩
    · intro x hx
      rw [hfound, List.mem_singleton] at hx
      exact hx ▸ hother
    · -- a buffer that was filled for `o₁` is not the one that was found
      intro x hx hfill c hc hid
      have hne : x.id ≠ b.id := by
        intro heq
        exact hother (heq ▸ hfill)
      rcases mem_serveList h.ids hb (hlist.mem_iff.1 hc) with rfl | ⟨hold, -⟩
      · exact absurd (hid.symm.trans hkept.1) hne
      · exact eq_of_id_eq h.ids hold hx hid
    · rw [hnew, hpreads]
      nofun
    · -- the data goes into the buffer that was found
      intro hwrite c hc hpart
      have hid : c.id = b.id := by simpa [hfound, hnew, hids] using hpart
      have hids' : (e.after.list.map FileBuffer.id).Nodup := by
        rw [(hlist.map FileBuffer.id).nodup_iff, ids_serveList]
        exact h.ids
      obtain rfl := eq_of_id_eq hids' hc hserve (hid.trans hkept.1.symm)
      rcases hsmall with hsmall | hread
      · exact hkept.2.trans (toInt_eq_self_iff.2 hsmall)
      · exact absurd (hwrite.symm.trans hread) (by decide)

/-- A miss keeps apart if the chunk is read where it lies. -/
theorem keepsApart_miss_iff {s₁ : State} {new : FileBuffer} (h : Filled fd (fills τ) e.before)
    (hlist : s₁.list = e.before.list) (hid : new.id = e.before.nextId)
    (hstart : new.fromOffset = toInt o₂) (hadd : Added s₁ conf rand new e.after)
    (hsince : Since e.before.io [e.before.nextId] [toInt o₂] e.after) (hfound : e.found = []) :
    KeepsApart τ e o₁ o₂ ↔ o₂ < 2 ^ 31 := by
  obtain ⟨io, hio, hids, hpreads⟩ := hsince
  have hnew := newIo_eq hio
  obtain ⟨rest, hafter, hsub⟩ := hadd.list
  rw [hlist] at hsub
  rw [← toInt_eq_self_iff]
  constructor
  · -- the one read of the request is at the offset that was cut
    intro hk
    exact hk.reads (toInt o₂) (by simp [hnew, hpreads])
  · intro ho
    refine ⟨?_, ?_, ?_, ?_⟩
    · rw [hfound]
      nofun
    · -- the new buffer has an address that no buffer had
      intro x hx hfill c hc hcx
      rw [hafter] at hc
      rcases List.mem_cons.1 hc with rfl | hc
      · exact absurd (hid.symm.trans hcx) (Nat.ne_of_gt (h.allocated x hx))
      · exact eq_of_id_eq h.ids (hsub.subset hc) hx hcx
    · intro start hstart'
      rw [hnew, hpreads, List.mem_singleton] at hstart'
      exact hstart'.trans ho
    · -- the data goes into the new buffer
      intro _ c hc hpart
      have hcid : c.id = e.before.nextId := by simpa [hfound, hnew, hids] using hpart
      rw [hafter] at hc
      rcases List.mem_cons.1 hc with rfl | hc
      · exact hstart.trans ho
      · exact absurd hcid (Nat.ne_of_lt (h.allocated c (hsub.subset hc)))

/-- The request keeps two chunks apart exactly if the buffer that it finds was not filled from the
other one and its offset is an `int`, or it is a read of a chunk that is cached. -/
theorem ServesCut.keepsApart_iff {w : Option (List UInt8)} (h : Filled fd (fills τ) e.before)
    (hs : ServesCut e.before fd o₂ w e.after)
    (hfound : e.found = (e.before.firstAt fd (toInt o₂)).toList) :
    KeepsApart τ e o₁ o₂ ↔
      (∀ b ∈ e.before.firstAt fd (toInt o₂), (b.id, o₁) ∉ fills τ) ∧
        (o₂ < 2 ^ 31 ∨ e.call.isWrite = false ∧ Resident e.before fd (toInt o₂)) := by
  cases hs with
  | @hit b _ hfirst hlist hsince =>
    have hb : b ∈ e.before.list := List.mem_of_find?_eq_some hfirst
    have hbs : b.StartsAt fd (toInt o₂) := by simpa using List.find?_some hfirst
    have hres : Resident e.before fd (toInt o₂) := ⟨b, hb, hbs⟩
    rw [hfirst] at hfound ⊢
    rw [keepsApart_hit_iff h hb hbs hlist hsince hfound]
    simp [hres]
  | miss hfirst hlist hid hstart hadd hsince =>
    have hno : ¬ Resident e.before fd (toInt o₂) := firstAt_eq_none.1 hfirst
    rw [hfirst] at hfound ⊢
    rw [keepsApart_miss_iff h hlist hid hstart hadd hsince hfound]
    simp [hno]

/-- In every run of requests of the file, the request for an aligned chunk at `o₂` keeps apart from
what was filled for `o₁` exactly when the first buffer that starts at the cut of `o₂` was not filled
for `o₁`, and either `o₂` is an `int` or it is a read of a chunk that is cached under the cut of
`o₂`. For `o₁` and `o₂` with different cuts the buffer was never filled for `o₁`. -/
theorem large_files_kept_apart {s₀ : State} (hs : s₀.Fresh)
    (h : Run (fun s e s' => StepBy step s e s' ∧ e.call.IsRequest fd) s₀ τ s)
    (ho : MAX_CHUNK_SIZE ∣ o₂) (hcall : call.IsChunkAt fd o₂) (hc : Cached (s.event env call)) :
    (KeepsApart τ (s.event env call) o₁ o₂ ↔
        (∀ b ∈ s.firstAt fd (toInt o₂), (b.id, o₁) ∉ fills τ) ∧
          (o₂ < 2 ^ 31 ∨ call.isWrite = false ∧ Resident s fd (toInt o₂))) ∧
      (o₁ % 2 ^ 32 ≠ o₂ % 2 ^ 32 → o₂ < 2 ^ 31 → KeepsApart τ (s.event env call) o₁ o₂) := by
  have hf := filled_run hs h
  obtain ⟨hfound, w, hserves⟩ := hf.toOrderly.event_serves ho hcall hc.uses_cache
  have hiff : KeepsApart τ (s.event env call) o₁ o₂ ↔ _ := hserves.keepsApart_iff hf hfound
  refine ⟨hiff, fun hne hsmall => hiff.2 ⟨?_, .inl hsmall⟩⟩
  -- the buffer starts at the cut of `o₂`, and at the cut of what it was filled for
  intro b hb hfill
  have hstart : b.fromOffset = toInt o₁ := hf.start b (List.mem_of_find?_eq_some hb) o₁ hfill
  have hcut : b.StartsAt fd (toInt o₂) := by simpa using List.find?_some hb
  have heq : toInt o₂ = toInt o₁ := hcut.2.symm.trans hstart
  refine hne ?_
  simp only [toInt] at heq
  omega

/-- The first chunk of a file is read, and then the one 2^32 bytes behind it. -/
def readFirstChunk : Event :=
  (mount (oneFile [])).event (plainEnv 2) (.read 3 MAX_CHUNK_SIZE 0)

/-- The second read is given the buffer of the first chunk. -/
theorem far_chunk_is_first_chunk : ¬ ∀ (s₀ s : State) (fd : Int) (τ : List Event) (env : Env)
    (call : Call) (o₁ o₂ : Nat), s₀.Fresh →
      Run (fun s e s' => StepBy step s e s' ∧ e.call.IsRequest fd) s₀ τ s →
      o₁ < 2 ^ 63 - 8192 → o₂ < 2 ^ 63 - 8192 → MAX_CHUNK_SIZE ∣ o₁ → MAX_CHUNK_SIZE ∣ o₂ →
      o₁ ≠ o₂ → call.IsChunkAt fd o₂ → Cached (s.event env call) →
        KeepsApart τ (s.event env call) o₁ o₂ := by
  intro hall
  have hk := hall (mount (oneFile [])) readFirstChunk.after 3 [readFirstChunk] (plainEnv 2)
    (.read 3 MAX_CHUNK_SIZE (2 ^ 32)) 0 (2 ^ 32) (fresh_mount (oneFile []))
    (.step .start ⟨step_event _ _ _, by decide +kernel⟩) (by decide) (by decide) (by decide)
    (by decide) (by decide) ⟨rfl, rfl, rfl⟩ (by decide +kernel)
  exact absurd hk.found (by decide +kernel)

/-- The second chunk is read after the first one. -/
theorem large_files_kept_apart_two :
    KeepsApart [readFirstChunk]
      (readFirstChunk.after.event (plainEnv 2) (.read 3 MAX_CHUNK_SIZE MAX_CHUNK_SIZE)) 0
      MAX_CHUNK_SIZE := by
  have hrun : Run (fun s e s' => StepBy step s e s' ∧ e.call.IsRequest 3) (mount (oneFile []))
      [readFirstChunk] readFirstChunk.after :=
    .step .start ⟨step_event _ _ _, by decide +kernel⟩
  have hcall : (Call.read 3 MAX_CHUNK_SIZE MAX_CHUNK_SIZE).IsChunkAt 3 MAX_CHUNK_SIZE :=
    ⟨rfl, rfl, rfl⟩
  exact (large_files_kept_apart (fresh_mount (oneFile [])) hrun (Nat.dvd_refl _) hcall
    (by decide +kernel)).2 (by decide) (by decide)

end EE516.Bbfs
