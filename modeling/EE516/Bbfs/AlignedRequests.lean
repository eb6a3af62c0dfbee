import EE516.Bbfs.Duplicates
import EE516.Bbfs.RoundTrip

/-!
# Aligned requests of one chunk

A request for a whole aligned chunk finds that chunk or misses it. `Serves` says what it does then:
on a hit it reads or overwrites the buffer, on a miss it adds one.
-/

set_option autoImplicit false

namespace EE516.Bbfs

open Foundations

variable {s s' : State} {b c : FileBuffer} {fd : Int} {env : Env} {offset : Nat}
variable {buf raw : List UInt8} {w : Option (List UInt8)}

/-- A buffer after a request hit it: a write replaces its bytes and makes it dirty. -/
def FileBuffer.serve (b : FileBuffer) : Option (List UInt8) → FileBuffer
  | none => b
  | some buf => { b with buf := .ofBytes buf, dirty := true }

/-- The list after a request hit the node. -/
def serveList (id : Nat) (w : Option (List UInt8)) (l : List FileBuffer) : List FileBuffer :=
  l.map fun c => if c.id = id then c.serve w else c

/-- The buffer that a request adds which missed. -/
def newBuffer (id : Nat) (fd : Int) (offset : Nat) (buf : List UInt8) : FileBuffer where
  id := id
  fromOffset := offset
  toOffset := offset + MAX_CHUNK_SIZE
  dirty := false
  fd := fd
  buf := .ofBytes buf

/-- A request for the chunk at the offset, a read or a write of the bytes `w`, goes from one state
to another; `raw` is what the chunk held. -/
inductive Serves (s : State) (fd : Int) (offset : Nat) (w : Option (List UInt8)) :
    List UInt8 → State → Prop
  | hit {b : FileBuffer} {s' : State} (hb : b ∈ s.list) (hs : b.StartsAt fd offset)
      (hlist : s'.list.Perm (serveList b.id w s.list)) (hdisk : s'.disk = s.disk)
      (hpolicy : s'.policy = s.policy) (hbound : Bounded s') :
      Serves s fd offset w b.buf.bytes s'
  | miss {conf : Conf} {rand : Nat} {s₁ s' : State} (hno : ¬ Resident s fd offset)
      (hlist : s₁.list = s.list) (hdisk : s₁.disk = s.disk) (hpolicy : s₁.policy = s.policy)
      (hbound : Bounded s₁)
      (hadd : Added s₁ conf rand
        (newBuffer s₁.nextId fd offset (w.getD (s.preadBlock fd MAX_CHUNK_SIZE offset))) s') :
      Serves s fd offset w (s.preadBlock fd MAX_CHUNK_SIZE offset) s'

/-- An aligned lookup hits the chunk or misses it. -/
theorem lookup_aligned (hl : ∀ b ∈ s.list, b.Aligned) (ho : offset < 2 ^ 31 - 8192)
    (hp : offset % MAX_CHUNK_SIZE = 0) :
    (∃ b ∈ s.list, b.StartsAt fd offset ∧
        (s.bufferHitCheck (toInt offset) MAX_CHUNK_SIZE fd).1 = .PERFECT_HIT b) ∨
      ¬ Resident s fd offset ∧
        (s.bufferHitCheck (toInt offset) MAX_CHUNK_SIZE fd).1 = .PERFECT_MISS := by
  have hf := found_bufferHitCheck s fd ho
  have hch := chunks_of_found (fun b hb _ => hl b hb) hf
  generalize (s.bufferHitCheck (toInt offset) MAX_CHUNK_SIZE fd).1 = info at *
  cases hf with
  | perfectHit hb hs => exact .inl ⟨_, hb, hs, rfl⟩
  | partialHit => exact absurd hp hch.1
  | first => exact absurd hp hch.1
  | second => exact absurd hp hch.1
  | perfectMiss hno => exact .inr ⟨fun ⟨x, hx, hxs⟩ => hno x hx hxs, rfl⟩

theorem preadBlock_congr (h : s'.disk = s.disk) (fd : Int) (size : Nat) (start : Int) :
    s'.preadBlock fd size start = s.preadBlock fd size start := by
  rw [State.preadBlock, State.preadBlock, h]

@[simp] theorem length_preadBlock (s : State) (fd : Int) (size : Nat) (start : Int) :
    (s.preadBlock fd size start).length = size := by
  rw [State.preadBlock]
  split <;> exact length_fit _ _

/-! ## What the calls do -/

/-- A hit by a read leaves the buffers alone. -/
theorem serveList_none (id : Nat) (l : List FileBuffer) : serveList id none l = l := by
  rw [serveList]
  refine (List.map_congr_left fun c _ => ?_).trans (List.map_id l)
  simp [FileBuffer.serve]

/-- The two assignments of a write to the node it hit. -/
theorem setDirty_setBuf_list (s : State) (b : FileBuffer) (buf : List UInt8) :
    ((s.setBuf b buf).setDirty b).list = serveList b.id (some buf) s.list := by
  rw [State.setDirty, State.setBuf, serveList, List.map_map]
  refine List.map_congr_left fun c _ => ?_
  simp only [Function.comp, FileBuffer.serve]
  by_cases h : c.id = b.id
  · simp [h]
  · simp [h]

/-- What was read completely is overwritten completely. -/
theorem overlay_zero {l d : List UInt8} (h : d.length = l.length) : overlay l 0 d = d := by
  simp [overlay, h]

/-- The state after a lookup with this outcome. -/
theorem exists_bufferHitCheck {info : HitInfo} (hb : Bounded s)
    (h : (s.bufferHitCheck (toInt offset) MAX_CHUNK_SIZE fd).1 = info) :
    ∃ s₁, s.bufferHitCheck (toInt offset) MAX_CHUNK_SIZE fd = (info, s₁) ∧
      s₁.list = info.move s.list ∧ s₁.disk = s.disk ∧ s₁.policy = s.policy ∧ Bounded s₁ := by
  subst h
  exact ⟨_, rfl, rfl, rfl, rfl, hb.bufferHitCheck⟩

/-- A chunk that is not cached is served by adding it. -/
theorem Serves.of_miss {s₁ : State} {conf : Conf} {rand : Nat} (hno : ¬ Resident s fd offset)
    (hlist : s₁.list = s.list) (hdisk : s₁.disk = s.disk) (hpolicy : s₁.policy = s.policy)
    (hb : Bounded s₁) :
    Serves s fd offset w (s.preadBlock fd MAX_CHUNK_SIZE offset)
      (s₁.addFileBuffer conf rand (w.getD (s.preadBlock fd MAX_CHUNK_SIZE offset)) offset
        (offset + MAX_CHUNK_SIZE) fd) :=
  .miss hno hlist hdisk hpolicy hb (added hb.bufferCount)

/-- The bounds of an aligned chunk are `int`s. -/
theorem toInt_chunk (ho : offset < 2 ^ 31 - 8192) :
    toInt offset = offset ∧ toInt ((offset : Int) + MAX_CHUNK_SIZE) = offset + MAX_CHUNK_SIZE := by
  have hsize : (MAX_CHUNK_SIZE : Int) = 4096 := rfl
  constructor
  · exact toInt_eq (by omega) (by omega)
  · exact toInt_eq (by omega) (by omega)

/-- A cached read of one whole chunk serves it from the buffers or from the file. -/
theorem cachedRead_serves (hb : Bounded s) (ho : offset < 2 ^ 31 - 8192)
    (hp : offset % MAX_CHUNK_SIZE = 0) :
    Serves s fd offset none (s.cachedRead env fd MAX_CHUNK_SIZE offset).1
      (s.cachedRead env fd MAX_CHUNK_SIZE offset).2 := by
  obtain ⟨hstart, hstop⟩ := toInt_chunk ho
  rw [State.cachedRead, State.cachedReadWith]
  rcases lookup_aligned hb.aligned ho hp with ⟨b, hmem, hs, hinfo⟩ | ⟨hno, hinfo⟩
  · obtain ⟨s₁, heq, hlist, hdisk, hpolicy, hb₁⟩ := exists_bufferHitCheck hb hinfo
    rw [heq]
    refine .hit hmem hs ?_ hdisk hpolicy hb₁
    rw [serveList_none, hlist]
    exact listMove_perm hb.ids hmem
  · obtain ⟨s₁, heq, hlist, hdisk, hpolicy, hb₁⟩ := exists_bufferHitCheck hb hinfo
    have hread : slice (s.preadBlock fd MAX_CHUNK_SIZE offset) 0 MAX_CHUNK_SIZE =
        s.preadBlock fd MAX_CHUNK_SIZE offset := by
      rw [slice, List.drop_zero, List.take_of_length_le (Nat.le_of_eq (length_preadBlock ..))]
    rw [heq]
    dsimp only
    rw [if_pos hp, hstart, hstop]
    dsimp only
    rw [preadBlock_congr hdisk, hread]
    exact Serves.of_miss hno hlist hdisk hpolicy (hb₁.quiet (quiet_pread ..))

/-- A cached write of one whole chunk serves it with the new bytes. -/
theorem cachedWrite_serves (hb : Bounded s) (ho : offset < 2 ^ 31 - 8192)
    (hp : offset % MAX_CHUNK_SIZE = 0) (hbuf : buf.length = MAX_CHUNK_SIZE) :
    ∃ raw, Serves s fd offset (some buf) raw
      (s.cachedWrite env fd buf MAX_CHUNK_SIZE offset) := by
  obtain ⟨hstart, hstop⟩ := toInt_chunk ho
  rw [State.cachedWrite]
  rcases lookup_aligned hb.aligned ho hp with ⟨b, hmem, hs, hinfo⟩ | ⟨hno, hinfo⟩
  · obtain ⟨s₁, heq, hlist, hdisk, hpolicy, hb₁⟩ := exists_bufferHitCheck hb hinfo
    refine ⟨b.buf.bytes, ?_⟩
    rw [heq]
    refine .hit hmem hs ?_ hdisk hpolicy
      (hb₁.quiet ((quiet_setBuf ..).trans (quiet_setDirty ..)))
    dsimp only
    rw [setDirty_setBuf_list, hlist]
    exact (listMove_perm hb.ids hmem).map _
  · obtain ⟨s₁, heq, hlist, hdisk, hpolicy, hb₁⟩ := exists_bufferHitCheck hb hinfo
    refine ⟨s.preadBlock fd MAX_CHUNK_SIZE offset, ?_⟩
    rw [heq]
    dsimp only
    rw [if_pos hp, hstart, hstop, overlay_zero (by rw [length_preadBlock, hbuf])]
    exact Serves.of_miss hno hlist hdisk hpolicy (hb₁.quiet (quiet_pread ..))

/-- A read of a whole chunk returns what the chunk held. -/
theorem bb_read_serves (hb : Bounded s) (ho : offset < 2 ^ 31 - 8192)
    (hp : offset % MAX_CHUNK_SIZE = 0)
    (hpol : (s.loadPolicyFromFile env.conf).policy.cachePolicy ≠ 0) :
    ∃ raw s', s.bb_read env fd MAX_CHUNK_SIZE offset =
        ({ ret := MAX_CHUNK_SIZE, buf := s'.policy.decrypt raw }, s') ∧
      Serves (s.loadPolicyFromFile env.conf) fd offset none raw s' := by
  have hserves := @cachedRead_serves _ fd env _ (hb.quiet (quiet_loadPolicyFromFile s env.conf))
    ho hp
  refine ⟨_, _, ?_, hserves⟩
  exact bb_read_cached hpol

/-- A write of a whole chunk replaces what the chunk held. -/
theorem bb_write_serves (hb : Bounded s) (ho : offset < 2 ^ 31 - 8192)
    (hp : offset % MAX_CHUNK_SIZE = 0) (hbuf : buf.length = MAX_CHUNK_SIZE)
    (hpol : (s.loadPolicyFromFile env.conf).policy.cachePolicy ≠ 0) :
    ∃ raw s', s.bb_write env fd buf offset = ({ ret := MAX_CHUNK_SIZE, buf := [] }, s') ∧
      Serves (s.loadPolicyFromFile env.conf) fd offset
        (some ((s.loadPolicyFromFile env.conf).policy.encrypt (strncpy buf buf.length)))
        raw s' := by
  obtain ⟨raw, hserves⟩ := @cachedWrite_serves _ fd env _
    ((s.loadPolicyFromFile env.conf).policy.encrypt (strncpy buf buf.length))
    (hb.quiet (quiet_loadPolicyFromFile s env.conf)) ho hp
    (by rw [length_encrypt, length_strncpy, hbuf])
  refine ⟨raw, _, ?_, hserves⟩
  exact bb_write_cached hpol hbuf

/-! ## The buffers after a request -/

@[simp] theorem ofBytes_bytes (c : Chunk) : Chunk.ofBytes c.bytes = c := by
  cases c with
  | mk bytes size => simp [Chunk.ofBytes, fit_of_length size]

theorem startsAt_serve {start : Int} : (b.serve w).StartsAt fd start ↔ b.StartsAt fd start := by
  cases w with
  | none => exact Iff.rfl
  | some buf => exact Iff.rfl

theorem key_of_startsAt {start : Int} (h : b.StartsAt fd start) : b.key = (fd, start) :=
  Prod.ext h.1 h.2

/-- Only the node that was hit is served. -/
theorem mem_serveList (hid : (s.list.map FileBuffer.id).Nodup) (hb : b ∈ s.list)
    (hc : c ∈ serveList b.id w s.list) : c = b.serve w ∨ c ∈ s.list ∧ c.id ≠ b.id := by
  obtain ⟨x, hx, rfl⟩ := List.mem_map.1 hc
  by_cases h : x.id = b.id
  · left
    rw [if_pos h, eq_of_id_eq hid hx hb h]
  · right
    rw [if_neg h]
    exact ⟨hx, h⟩

theorem serve_mem_serveList (hb : b ∈ s.list) : b.serve w ∈ serveList b.id w s.list := by
  refine List.mem_map.2 ⟨b, hb, ?_⟩
  rw [if_pos rfl]

theorem keys_serveList (id : Nat) (l : List FileBuffer) :
    (serveList id w l).map FileBuffer.key = l.map FileBuffer.key := by
  rw [serveList, List.map_map]
  refine List.map_congr_left fun c _ => ?_
  simp only [Function.comp]
  split
  · cases w <;> rfl
  · rfl

/-- A new buffer at a multiple of the chunk size is aligned. -/
theorem newBuffer_aligned {id : Nat} (hp : offset % MAX_CHUNK_SIZE = 0) :
    (newBuffer id fd offset buf).Aligned := by
  refine ⟨?_, rfl⟩
  simp only [newBuffer, MAX_CHUNK_SIZE] at *
  omega

/-- A service keeps the list bounded. -/
theorem Serves.bounded (h : Serves s fd offset w raw s') (hp : offset % MAX_CHUNK_SIZE = 0) :
    Bounded s' := by
  cases h with
  | hit _ _ _ _ _ hbound => exact hbound
  | miss _ _ _ _ hbound hadd => exact hbound.added (newBuffer_aligned hp) rfl hadd

/-- A service adds no second buffer of a chunk. -/
theorem Serves.unique (h : Serves s fd offset w raw s') (hu : Unique s) : Unique s' := by
  cases h with
  | hit _ _ hlist =>
    rw [Unique, (hlist.map _).nodup_iff, keys_serveList]
    exact hu
  | miss hno hlist _ _ _ hadd =>
    refine Unique.added ?_ hadd ?_
    · rw [Unique, hlist]
      exact hu
    · rw [resident_iff, hlist, ← resident_iff]
      exact hno

/-- The chunk holds the written bytes, or what it held before; the other buffers stay. -/
theorem Serves.mem (h : Serves s fd offset w raw s') (hb : Bounded s) (hu : Unique s)
    (hc : c ∈ s'.list) :
    c.StartsAt fd offset ∧ c.buf = .ofBytes (w.getD raw) ∨
      c ∈ s.list ∧ ¬ c.StartsAt fd offset := by
  cases h with
  | @hit b _ hmem hs hlist =>
    rcases mem_serveList hb.ids hmem (hlist.mem_iff.1 hc) with rfl | ⟨hc, hne⟩
    · refine .inl ⟨startsAt_serve.2 hs, ?_⟩
      cases w with
      | none => exact (ofBytes_bytes b.buf).symm
      | some buf => rfl
    · refine .inr ⟨hc, fun hcs => hne ?_⟩
      have hkey := (key_of_startsAt hcs).trans (key_of_startsAt hs).symm
      rw [List.inj_on_of_nodup_map hu hc hmem hkey]
  | @miss _ _ s₁ _ hno hlist _ _ _ hadd =>
    obtain ⟨rest, hrest, hsub⟩ := hadd.list
    rw [hrest] at hc
    rcases List.mem_cons.1 hc with rfl | hc
    · exact .inl ⟨⟨rfl, rfl⟩, rfl⟩
    · have hmem : c ∈ s.list := hlist ▸ hsub.subset hc
      exact .inr ⟨hmem, fun hcs => hno ⟨c, hmem, hcs⟩⟩

/-- What was read is a buffer, or the file if no buffer has the chunk. -/
theorem Serves.raw_eq (h : Serves s fd offset w raw s') :
    (∃ b ∈ s.list, b.StartsAt fd offset ∧ raw = b.buf.bytes) ∨
      ¬ Resident s fd offset ∧ raw = s.preadBlock fd MAX_CHUNK_SIZE offset := by
  cases h with
  | hit hb hs => exact .inl ⟨_, hb, hs, rfl⟩
  | miss hno => exact .inr ⟨hno, rfl⟩

/-! ## Runs of requests for whole chunks -/

/-- A read or a write of one aligned chunk of the file; the data of a write has no NUL byte. -/
def Call.WholeChunk (fd : Int) : Call → Prop
  | .read fd' size offset =>
    fd' = fd ∧ size = MAX_CHUNK_SIZE ∧ offset % MAX_CHUNK_SIZE = 0 ∧ offset < 2 ^ 31 - 8192
  | .write fd' buf offset =>
    fd' = fd ∧ buf.length = MAX_CHUNK_SIZE ∧ 0 ∉ buf ∧ offset % MAX_CHUNK_SIZE = 0 ∧
      offset < 2 ^ 31 - 8192
  | .release _ => False

instance (fd : Int) : ∀ c : Call, Decidable (c.WholeChunk fd)
  | .read _ _ _ => inferInstanceAs (Decidable (_ ∧ _ ∧ _ ∧ _))
  | .write _ _ _ => inferInstanceAs (Decidable (_ ∧ _ ∧ _ ∧ _ ∧ _))
  | .release _ => inferInstanceAs (Decidable False)

/-- A request of a whole chunk with the cache, under the encryption setting of `p`. -/
def ChunkStep (fd : Int) (p : Policy) (s : State) (e : Event) (s' : State) : Prop :=
  StepBy step s e s' ∧ e.call.WholeChunk fd ∧ Cached e ∧
    (e.before.loadPolicyFromFile e.env.conf).policy.setting = p.setting

/-- The data that the call writes at the offset. -/
def Call.data (offset : Nat) : Call → Option (List UInt8)
  | .write _ buf offset' => if offset' = offset then some buf else none
  | _ => none

/-- The data of the latest write at the offset. -/
def lastWrite (offset : Nat) (τ : List Event) : Option (List UInt8) :=
  τ.findSome? fun e => e.call.data offset

/-- What is in the cache after the call at its offset, if it is a write. -/
def Call.encoded (p : Policy) : Call → Option (List UInt8)
  | .write _ buf _ => some (p.encrypt buf)
  | _ => none

theorem ChunkStep.before {p : Policy} {e : Event} (h : ChunkStep fd p s e s') : e.before = s := by
  obtain ⟨⟨a, ha⟩, -⟩ := h
  obtain ⟨rfl, -⟩ := step_eq ha
  rfl

/-- A request of a whole chunk serves its chunk. -/
theorem ChunkStep.serves {p : Policy} {e : Event} (h : ChunkStep fd p s e s') (hb : Bounded s) :
    ∃ offset raw, offset % MAX_CHUNK_SIZE = 0 ∧
      (e.call = .read fd MAX_CHUNK_SIZE offset ∨
        ∃ buf, buf.length = MAX_CHUNK_SIZE ∧ e.call = .write fd buf offset) ∧
      e.result.ret = MAX_CHUNK_SIZE ∧
      (e.call = .read fd MAX_CHUNK_SIZE offset → e.result.buf = s'.policy.decrypt raw) ∧
      Serves (s.loadPolicyFromFile e.env.conf) fd offset (e.call.encoded p) raw s' := by
  obtain ⟨⟨a, ha⟩, hwhole, hcached, hsetting⟩ := h
  obtain ⟨rfl, rfl⟩ := step_eq ha
  obtain ⟨env, call⟩ := a
  have hpol : (s.loadPolicyFromFile env.conf).policy.cachePolicy ≠ 0 := by
    intro h0
    rcases hcached.2 with h | h
    · exact absurd (h0.symm.trans h) (by decide)
    · exact absurd (h0.symm.trans h) (by decide)
  cases call with
  | read fd' size offset =>
    obtain ⟨rfl, rfl, hp, ho⟩ := hwhole
    obtain ⟨raw, s', heq, hserves⟩ := @bb_read_serves _ fd' env _ hb ho hp hpol
    refine ⟨offset, raw, hp, .inl rfl, ?_, fun _ => ?_, ?_⟩
    · simp only [State.perform, heq]
    · simp only [State.perform, heq]
    · simpa only [State.perform, heq, Call.encoded] using hserves
  | write fd' buf offset =>
    obtain ⟨rfl, hlen, hnul, hp, ho⟩ := hwhole
    obtain ⟨raw, s', heq, hserves⟩ := @bb_write_serves _ fd' env _ _ hb ho hp hlen hpol
    have hcopy : strncpy buf buf.length = buf := strncpy_eq_iff.2 (endsAtNul_of_not_mem hnul)
    refine ⟨offset, raw, hp, .inr ⟨buf, hlen, rfl⟩, ?_, fun hread => ?_, ?_⟩
    · simp only [State.perform, heq]
    · cases hread
    · rw [hcopy, encrypt_congr hsetting] at hserves
      simpa only [State.perform, heq, Call.encoded] using hserves
  | release fd' => exact absurd hwhole id

end EE516.Bbfs
