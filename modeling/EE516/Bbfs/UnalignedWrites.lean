import EE516.Bbfs.Bypass
import EE516.Bbfs.UnalignedReads

/-!
# Writes across two chunks

A cached write that touches two chunks overlays the data on a block of both of them and gives each
of its halves to a buffer. When the first chunk alone is cached, the buffer for the second half is
filed one chunk too far.
-/

set_option autoImplicit false

namespace EE516.Bbfs

open Foundations

variable {s s' : State} {b x : FileBuffer} {fd : Int} {f : OpenFile} {env : Env}
variable {offset first start p : Nat} {stop : Int} {c : Nat → UInt8} {l buf file : List UInt8}
variable {conf : Conf} {rand : Nat} {exempt : List Nat}

/-! ## Buffers in their places -/

/-- Each buffer of the file has the contents in its own place, but for the exempt chunks. -/
def InPlace (fd : Int) (c : Nat → UInt8) (exempt : List Nat) (l : List FileBuffer) : Prop :=
  ∀ b ∈ l, b.fd = fd →
    0 ≤ b.fromOffset ∧ (b.place ∉ exempt → Agrees c b.place b.buf.bytes)

theorem startsAt_place (hfd : b.fd = fd) (hpos : 0 ≤ b.fromOffset) : b.StartsAt fd b.place :=
  ⟨hfd, (Int.toNat_of_nonneg hpos).symm⟩

theorem InPlace.perm {l l' : List FileBuffer} (h : InPlace fd c exempt l) (hp : l'.Perm l) :
    InPlace fd c exempt l' :=
  fun b hb => h b (hp.mem_iff.1 hb)

/-- A write exempts the two chunks that it touches. -/
theorem InPlace.patch (h : InPlace fd c [] s.list) (hc : Chunked fd s)
    (hp : first % MAX_CHUNK_SIZE = 0) (hl : l.length = 2 * MAX_CHUNK_SIZE) :
    InPlace fd (patch c first l) [first, first + MAX_CHUNK_SIZE] s.list := by
  intro b hb hfd
  obtain ⟨hpos, hagrees⟩ := h b hb hfd
  refine ⟨hpos, fun hother => ?_⟩
  -- whole chunks that are different do not overlap
  refine (hagrees List.not_mem_nil).patch_of_disjoint ?_
  obtain ⟨hdvd, -⟩ := hc.aligned b hb hfd
  rw [(startsAt_place hfd hpos).2] at hdvd
  rw [List.mem_pair, not_or] at hother
  rw [b.buf.size, hl]
  simp only [MAX_CHUNK_SIZE] at *
  omega

/-- Nothing is cached of the exempt chunk. -/
theorem InPlace.missing (h : InPlace fd c (start :: exempt) s.list)
    (hno : ¬ Resident s fd start) : InPlace fd c exempt s.list := by
  intro b hb hfd
  obtain ⟨hpos, hagrees⟩ := h b hb hfd
  refine ⟨hpos, fun hother => hagrees ?_⟩
  rw [List.mem_cons, not_or]
  refine ⟨?_, hother⟩
  rintro rfl
  exact hno ⟨b, hb, startsAt_place hfd hpos⟩

/-- The buffer of the exempt chunk gets its contents. -/
theorem InPlace.setBuf (h : InPlace fd c (start :: exempt) s.list) (hc : Chunked fd s)
    (hb : b ∈ s.list) (hbs : b.StartsAt fd start) (ha : Agrees c start (fit MAX_CHUNK_SIZE l)) :
    InPlace fd c exempt (s.setBuf b l).list := by
  intro x hx hfd
  rcases mem_setBuf hc.ids hb hx with rfl | ⟨hx, hne⟩
  · refine ⟨(h b hb hbs.1).1, fun _ => ?_⟩
    have hplace : b.place = start := place_eq hbs
    rw [FileBuffer.place] at hplace ⊢
    rw [hplace]
    exact ha
  · obtain ⟨hpos, hagrees⟩ := h x hx hfd
    refine ⟨hpos, fun hother => hagrees ?_⟩
    rw [List.mem_cons, not_or]
    refine ⟨?_, hother⟩
    rintro rfl
    exact hne (congrArg _ (hc.eq_of_startsAt hx hb (startsAt_place hfd hpos) hbs))

theorem InPlace.setDirty (h : InPlace fd c exempt s.list) (b : FileBuffer) :
    InPlace fd c exempt (s.setDirty b).list := by
  intro x hx hfd
  obtain ⟨y, hy, rfl⟩ := List.mem_map.1 hx
  by_cases hid : y.id = b.id
  · rw [if_pos hid] at hfd ⊢
    exact h y hy hfd
  · rw [if_neg hid] at hfd ⊢
    exact h y hy hfd

/-- A buffer that is added must have the contents where it is filed. -/
theorem InPlace.addFileBuffer_iff (h : InPlace fd c [] s.list) (hn : Nodes s) :
    InPlace fd c [] (s.addFileBuffer conf rand l start stop fd).list ↔
      Agrees c start (fit MAX_CHUNK_SIZE l) := by
  have hadd := hn.adds_buffer conf rand l start stop fd
  obtain ⟨rest, hlist, hsub⟩ := hadd.list
  rw [hlist]
  constructor
  · intro hall
    exact (hall _ List.mem_cons_self rfl).2 List.not_mem_nil
  · intro ha b hb hfd
    rcases List.mem_cons.1 hb with rfl | hb
    · exact ⟨Int.natCast_nonneg start, fun _ => ha⟩
    · exact h b (hsub.subset hb) hfd

/-! ## The block of both chunks -/

/-- The halves of the block in their places. -/
theorem agrees_halves (hl : l.length = 2 * MAX_CHUNK_SIZE) :
    Agrees (patch c first l) first (fit MAX_CHUNK_SIZE l) ∧
      Agrees (patch c first l) (first + MAX_CHUNK_SIZE)
        (fit MAX_CHUNK_SIZE (l.drop MAX_CHUNK_SIZE)) := by
  have hself : Agrees (patch c first l) first l := agrees_patch_self
  rw [fit_eq_take (by omega), fit_of_length (length_drop_chunk hl)]
  exact ⟨hself.take MAX_CHUNK_SIZE, hself.drop MAX_CHUNK_SIZE⟩

/-- The second half one chunk behind its place. -/
theorem agrees_far_iff (hl : l.length = 2 * MAX_CHUNK_SIZE) :
    Agrees (patch c first l) (first + 2 * MAX_CHUNK_SIZE)
        (fit MAX_CHUNK_SIZE (l.drop MAX_CHUNK_SIZE)) ↔
      ∀ i < MAX_CHUNK_SIZE,
        patch c first l (first + MAX_CHUNK_SIZE + i) = c (first + 2 * MAX_CHUNK_SIZE + i) := by
  obtain ⟨-, hnear⟩ := @agrees_halves first c l hl
  rw [Agrees, length_fit]
  refine forall₂_congr fun i hi => ?_
  have hbyte := hnear i (by rwa [length_fit])
  have hbehind : patch c first l (first + 2 * MAX_CHUNK_SIZE + i) =
      c (first + 2 * MAX_CHUNK_SIZE + i) := patch_outside (by omega)
  rw [hbyte, hbehind]

/-! ## Writes -/

/-- A file that is cached has these contents: its buffers in their places, and the file itself where
nothing is cached. -/
structure LogicalFile (fd : Int) (f : OpenFile) (c : Nat → UInt8) (s : State) : Prop
    extends Chunked fd s where
  fds : s.disk.fds fd = some f
  inPlace : InPlace fd c [] s.list
  stored : ∀ p : Nat, ¬ Resident s fd (chunkStart p) → (s.disk.files f.ino).getD p 0 = c p

theorem LogicalFile.loaded (h : LogicalFile fd f c s) (conf : Conf) :
    LogicalFile fd f c (s.loadPolicyFromFile conf) :=
  { h.toChunked.quiet (quiet_loadPolicyFromFile s conf) with
    fds := h.fds
    inPlace := h.inPlace
    stored := h.stored }

theorem LogicalFile.bufferHitCheck {target : Int} {size : Nat} (h : LogicalFile fd f c s) :
    LogicalFile fd f c (s.bufferHitCheck target size fd).2 := by
  obtain ⟨hperm, -⟩ := @Nodes.bufferHitCheck s fd target size h.toNodes
  have hres := @Nodes.resident_lookup s fd target size h.toNodes
  exact { h.toChunked.bufferHitCheck with
    fds := h.fds
    inPlace := h.inPlace.perm hperm
    stored := fun p hp => h.stored p (mt hres.2 hp) }

section Halves

variable (h : LogicalFile fd f c s) (hp : first % MAX_CHUNK_SIZE = 0)
variable (hl : l.length = 2 * MAX_CHUNK_SIZE)

include h hp hl

/-- Both chunks are cached and take the halves of the block. -/
theorem LogicalFile.setTwo (hb : b ∈ s.list) (hx : x ∈ s.list) (hbs : b.StartsAt fd first)
    (hxs : x.StartsAt fd (first + MAX_CHUNK_SIZE : Nat)) :
    InPlace fd (patch c first l) []
      ((((s.setBuf b l).setBuf x (l.drop MAX_CHUNK_SIZE)).setDirty b).setDirty x).list := by
  obtain ⟨hfirst, hsecond⟩ := @agrees_halves first c l hl
  have hne : x.id ≠ b.id := by
    intro hid
    rw [eq_of_id_eq h.ids hx hb hid] at hxs
    have hstart := hbs.2.symm.trans hxs.2
    simp only [MAX_CHUNK_SIZE] at hstart
    omega
  have hset := (h.inPlace.patch h.toChunked hp hl).setBuf h.toChunked hb hbs hfirst
  have hset' := hset.setBuf (h.toChunked.quiet (quiet_setBuf s b l)) (mem_setBuf_of_ne hx hne) hxs
    hsecond
  exact (hset'.setDirty b).setDirty x

/-- The second chunk is cached and the first one is added. -/
theorem LogicalFile.setSecond (hx : x ∈ s.list)
    (hxs : x.StartsAt fd (first + MAX_CHUNK_SIZE : Nat)) (hno : ¬ Resident s fd first) :
    InPlace fd (patch c first l) []
      ((s.setBuf x (l.drop MAX_CHUNK_SIZE)).addFileBuffer conf rand l first stop fd).list := by
  obtain ⟨hfirst, hsecond⟩ := @agrees_halves first c l hl
  have hq := quiet_setBuf s x (l.drop MAX_CHUNK_SIZE)
  have hset := ((h.inPlace.patch h.toChunked hp hl).missing hno).setBuf h.toChunked hx hxs hsecond
  exact (hset.addFileBuffer_iff (h.toNodes.quiet hq)).2 hfirst

/-- Neither chunk is cached and both are added. -/
theorem LogicalFile.addTwo {conf' : Conf} {rand' : Nat} {stop' : Int}
    (hno : ¬ Resident s fd first) (hno' : ¬ Resident s fd (first + MAX_CHUNK_SIZE : Nat)) :
    InPlace fd (patch c first l) []
      ((s.addFileBuffer conf rand l first stop fd).addFileBuffer conf' rand'
        (l.drop MAX_CHUNK_SIZE) (first + MAX_CHUNK_SIZE : Nat) stop' fd).list := by
  obtain ⟨hfirst, hsecond⟩ := @agrees_halves first c l hl
  have hrest := ((h.inPlace.patch h.toChunked hp hl).missing hno).missing hno'
  have hone : InPlace fd (patch c first l) [] (s.addFileBuffer conf rand l first stop fd).list :=
    (hrest.addFileBuffer_iff h.toNodes).2 hfirst
  exact (hone.addFileBuffer_iff h.toNodes.addFileBuffer).2 hsecond

/-- The first chunk is cached, and the second half goes one chunk too far. -/
theorem LogicalFile.addFar_iff (hb : b ∈ s.list) (hbs : b.StartsAt fd first)
    (hno : ¬ Resident s fd (first + MAX_CHUNK_SIZE : Nat)) :
    InPlace fd (patch c first l) []
        (((s.setBuf b l).setDirty b).addFileBuffer conf rand (l.drop MAX_CHUNK_SIZE)
          (first + 2 * MAX_CHUNK_SIZE : Nat) stop fd).list ↔
      ∀ i < MAX_CHUNK_SIZE,
        patch c first l (first + MAX_CHUNK_SIZE + i) = c (first + 2 * MAX_CHUNK_SIZE + i) := by
  obtain ⟨hfirst, -⟩ := @agrees_halves first c l hl
  have hq := (quiet_setBuf s b l).trans (quiet_setDirty _ b)
  have hset := (h.inPlace.patch h.toChunked hp hl).setBuf h.toChunked hb hbs hfirst
  have hrest := hset.missing fun hres => hno ((quiet_setBuf s b l).resident_iff.1 hres)
  rw [(hrest.setDirty b).addFileBuffer_iff (h.toNodes.quiet hq)]
  exact agrees_far_iff hl

end Halves

theorem LogicalFile.pread (h : LogicalFile fd f c s) (fd' : Int) (size : Nat) (start : Int) :
    LogicalFile fd f c (s.record (.pread fd' size start)) :=
  { h.toChunked.quiet (quiet_pread s fd' size start) with
    fds := h.fds
    inPlace := h.inPlace
    stored := h.stored }

/-- The contents of two chunks without a NUL byte. -/
theorem endsAtNul_of_agrees (ha : Agrees c first l)
    (hnul : ∀ p, first ≤ p → p < first + l.length → c p ≠ 0) : EndsAtNul l := by
  refine endsAtNul_of_not_mem fun hmem => ?_
  obtain ⟨i, hi, hzero⟩ := List.mem_iff_getElem.1 hmem
  refine hnul (first + i) (by omega) (by omega) ?_
  rw [← ha i hi, List.getD_eq_getElem _ _ hi, hzero]

/-- If the first chunk alone is cached, the second one must look like the chunk behind it after the
write. -/
def FiledRight (s : State) (fd : Int) (c : Nat → UInt8) (buf : List UInt8) (offset : Nat) : Prop :=
  let first := offset - offset % MAX_CHUNK_SIZE
  Resident s fd first → ¬ Resident s fd (first + MAX_CHUNK_SIZE : Nat) →
    ∀ i < MAX_CHUNK_SIZE,
      patch c offset buf (first + MAX_CHUNK_SIZE + i) = c (first + 2 * MAX_CHUNK_SIZE + i)

/-- A cached write of two chunks patches the logical file exactly under the condition. -/
theorem LogicalFile.cachedWrite_iff (h : LogicalFile fd f c s) (hr : f.readable = true)
    (hbuf : buf.length = MAX_CHUNK_SIZE) (ho : offset < 2 ^ 31 - 16384)
    (hp : offset % MAX_CHUNK_SIZE ≠ 0) (hfirst : first + offset % MAX_CHUNK_SIZE = offset)
    (hnul : ∀ p, first ≤ p → p < first + 2 * MAX_CHUNK_SIZE → c p ≠ 0) :
    InPlace fd (patch c offset buf) [] (s.cachedWrite env fd buf MAX_CHUNK_SIZE offset).list ↔
      FiledRight s fd c buf offset := by
  have hmeets := h.meets (by omega) hp hfirst
  have hs := @LogicalFile.bufferHitCheck s fd f c (toInt offset) MAX_CHUNK_SIZE h
  have hres := @Nodes.resident_lookup s fd (toInt offset) MAX_CHUNK_SIZE h.toNodes
  obtain ⟨hmod, hint, hint', hint''⟩ := int_bounds (by omega) hfirst
  have hstart : (offset : Int) - (offset % MAX_CHUNK_SIZE : Nat) = first := by omega
  have hfirst' : offset - offset % MAX_CHUNK_SIZE = first := by omega
  rw [FiledRight, hfirst', State.cachedWrite]
  dsimp only
  generalize s.bufferHitCheck (toInt offset) MAX_CHUNK_SIZE fd = r at *
  obtain ⟨info, s₁⟩ := r
  dsimp only at hmeets hs hres
  -- the block of the two chunks with the data in it
  have hjoin : ∀ {a l : List UInt8}, a.length = MAX_CHUNK_SIZE → l.length = MAX_CHUNK_SIZE →
      Agrees c first a → Agrees c (first + MAX_CHUNK_SIZE) l →
      (overlay (sprintf a l) (offset % MAX_CHUNK_SIZE) buf).length = 2 * MAX_CHUNK_SIZE ∧
        patch c first (overlay (sprintf a l) (offset % MAX_CHUNK_SIZE) buf) =
          patch c offset buf := by
    intro a l ha hl hfirstpart hsecondpart
    have hlen : (a ++ l).length = 2 * MAX_CHUNK_SIZE := by
      rw [List.length_append, ha, hl, Nat.two_mul]
    have hboth : Agrees c first (a ++ l) := hfirstpart.append (ha.symm ▸ hsecondpart)
    rw [sprintf_eq_append ha hl (endsAtNul_of_agrees hboth (hlen.symm ▸ hnul))]
    exact patch_chunks hbuf hfirst hlen hboth
  have hmod' : (first + MAX_CHUNK_SIZE) % MAX_CHUNK_SIZE = 0 := by
    rw [Nat.add_mod_right, hmod]
  have hcached : ∀ {b : FileBuffer} {start : Nat}, b ∈ s₁.list → b.StartsAt fd start →
      Agrees c start b.buf.bytes := by
    intro b start hb hbs
    have hagrees := (hs.inPlace b hb hbs.1).2 List.not_mem_nil
    rwa [place_eq hbs] at hagrees
  cases hmeets with
  | @both b x hb hx hbs hxs =>
    obtain ⟨hlen, hpatch⟩ := hjoin b.buf.size x.buf.size (hcached hb hbs) (hcached hx hxs)
    refine iff_of_true ?_ fun _ hno => absurd (hres.1 ⟨x, hx, hxs⟩) hno
    have hset := hs.setTwo hmod hlen hb hx hbs hxs
    rw [hpatch] at hset
    exact hset
  | @first b rest hl hbs hto hno =>
    -- the second chunk is read in its place, and its half is filed behind it
    have hb : b ∈ s₁.list := hl ▸ List.mem_cons_self
    have hread := agrees_chunk hs.fds hr hs.stored hmod' hno
    rw [← hto] at hread
    obtain ⟨hlen, hpatch⟩ := hjoin b.buf.size (length_preadBlock ..) (hcached hb hbs) hread
    dsimp only
    generalize overlay (sprintf b.buf.bytes (s₁.preadBlock fd MAX_CHUNK_SIZE b.toOffset))
      (offset % MAX_CHUNK_SIZE) buf = total at *
    have hfar : toInt (b.toOffset + MAX_CHUNK_SIZE) = (first + 2 * MAX_CHUNK_SIZE : Nat) := by
      rw [hto, hint'', ← Int.natCast_add]
      exact congrArg Int.ofNat (by omega)
    have hpread := hs.pread fd MAX_CHUNK_SIZE b.toOffset
    rw [hfar, ← hpatch, hpread.addFar_iff hmod hlen hb hbs hno]
    exact ⟨fun hbytes _ _ => hbytes, fun hbytes => hbytes (hres.1 ⟨b, hb, hbs⟩) (mt hres.2 hno)⟩
  | @second x rest hl hxs hto hno =>
    have hx : x ∈ s₁.list := hl ▸ List.mem_cons_self
    have hread := agrees_chunk hs.fds hr hs.stored hmod hno
    obtain ⟨hlen, hpatch⟩ := hjoin (length_preadBlock ..) x.buf.size hread (hcached hx hxs)
    refine iff_of_true ?_ fun hres₁ => absurd (hres.2 hres₁) hno
    -- the chunk before the second part
    have hbefore : toInt (x.fromOffset - MAX_CHUNK_SIZE) = first := by
      rw [hxs.2, Int.natCast_add, Int.add_sub_cancel, hint]
    dsimp only
    rw [hbefore]
    generalize overlay (sprintf (s₁.preadBlock fd MAX_CHUNK_SIZE first) x.buf.bytes)
      (offset % MAX_CHUNK_SIZE) buf = total at *
    rw [← hpatch]
    exact (hs.pread fd MAX_CHUNK_SIZE first).setSecond hmod hlen hx hxs hno
  | neither hno hno' =>
    have hread := agrees_chunks hs.fds hr hs.stored hmod hno hno'
    obtain ⟨hlen, hpatch⟩ := patch_chunks hbuf hfirst (length_preadBlock ..) hread
    refine iff_of_true ?_ fun hres₁ => absurd (hres.2 hres₁) hno
    dsimp only
    rw [if_neg hp, hstart, hint, hint']
    generalize overlay (s₁.preadBlock fd (2 * MAX_CHUNK_SIZE) first) (offset % MAX_CHUNK_SIZE)
      buf = total at *
    rw [← hpatch]
    exact (hs.pread fd (2 * MAX_CHUNK_SIZE) first).addTwo hmod hlen hno hno'

/-- A write of text without encryption, across two chunks inside of a text, leaves every buffer of
the file with the contents of its own place exactly when it did not find the first chunk alone, or
the second chunk looks like the one behind it. -/
theorem unaligned_write_iff (h : LogicalFile fd f (fun p => file.getD p 0) s)
    (hr : f.readable = true) (hpol : (s.loadPolicyFromFile env.conf).policy.cachePolicy = 2)
    (hplain : (s.loadPolicyFromFile env.conf).policy.encryptEnabled = false)
    (hbuf : buf.length = MAX_CHUNK_SIZE) (hnul : 0 ∉ buf) (hfile : 0 ∉ file)
    (ho : offset < 2 ^ 31 - 16384) (hp : offset % MAX_CHUNK_SIZE ≠ 0)
    (hend : offset - offset % MAX_CHUNK_SIZE + 2 * MAX_CHUNK_SIZE ≤ file.length) :
    InPlace fd (patch (fun p => file.getD p 0) offset buf) []
        (s.bb_write env fd buf offset).2.list ↔
      FiledRight s fd (fun p => file.getD p 0) buf offset := by
  obtain ⟨first, hfirst⟩ := exists_first offset
  have hs := h.loaded env.conf
  have huse : (s.loadPolicyFromFile env.conf).policy.cachePolicy ≠ 0 := by
    rw [hpol]
    decide
  have hcopy : strncpy buf buf.length = buf := strncpy_eq_iff.2 (endsAtNul_of_not_mem hnul)
  have htext : ∀ p, first ≤ p → p < first + 2 * MAX_CHUNK_SIZE → file.getD p 0 ≠ 0 := by
    intro p _ hlt hzero
    have hp' : p < file.length := by omega
    rw [List.getD_eq_getElem _ _ hp'] at hzero
    exact hfile (hzero ▸ List.getElem_mem hp')
  have hwrite := @LogicalFile.cachedWrite_iff _ fd f env offset first _ buf hs hr hbuf ho hp hfirst
    htext
  rw [bb_write_cached huse hbuf, hcopy, Policy.encrypt, hplain, if_neg Bool.false_ne_true]
  exact hwrite

/-- Clean copies of a file are its own contents. -/
theorem CopiesFile.logicalFile (h : CopiesFile fd s) (hf : s.disk.fds fd = some f)
    (hr : f.readable = true) (hpos : ∀ b ∈ s.list, 0 ≤ b.fromOffset) :
    LogicalFile fd f (fun p => (s.disk.files f.ino).getD p 0) s := by
  refine { h.toChunked with fds := hf, inPlace := ?_, stored := fun _ _ => rfl }
  intro b hb hfd
  refine ⟨hpos b hb, fun _ i hi => ?_⟩
  rw [b.buf.size] at hi
  rw [h.copies b hb hfd, (startsAt_place hfd (hpos b hb)).2, getD_preadBlock hf hr, if_pos hi]

theorem logicalFile_chunkCached :
    LogicalFile 3 ⟨0, true, true⟩ (fun p => textFile.getD p 0) (chunkCached 0) ∧
      LogicalFile 3 ⟨0, true, true⟩ (fun p => textFile.getD p 0) (chunkCached MAX_CHUNK_SIZE) :=
  ⟨copiesFile_chunkCached.1.logicalFile rfl rfl (by decide +kernel),
    copiesFile_chunkCached.2.logicalFile rfl rfl (by decide +kernel)⟩

/-- The second chunk is cached. -/
theorem unaligned_write_iff_second :
    InPlace 3 (patch (fun p => textFile.getD p 0) 1 ones) []
      ((chunkCached MAX_CHUNK_SIZE).bb_write (plainEnv 2) 3 ones 1).2.list :=
  (unaligned_write_iff logicalFile_chunkCached.2 rfl (by decide +kernel) (by decide +kernel)
    length_ones not_mem_ones not_mem_textFile (by decide) (by decide)
    (Nat.le_of_eq length_textFile.symm)).2 fun hres => absurd hres (by decide +kernel)

/-- The first chunk is cached, and the second one is filed behind the end of the file. -/
theorem second_chunk_filed_behind :
    ¬ ∀ (s : State) (env : Env) (fd : Int) (f : OpenFile) (file buf : List UInt8) (offset : Nat),
      LogicalFile fd f (fun p => file.getD p 0) s → f.readable = true →
      (s.loadPolicyFromFile env.conf).policy.cachePolicy = 2 →
      KeepsLru env.evict₁.1 → KeepsLru env.evict₂.1 →
      (s.loadPolicyFromFile env.conf).policy.encryptEnabled = false →
      Plain env.evict₁.1 → Plain env.evict₂.1 →
      buf.length = MAX_CHUNK_SIZE → 0 ∉ buf → 0 ∉ file → offset % MAX_CHUNK_SIZE ≠ 0 →
      offset - offset % MAX_CHUNK_SIZE + 2 * MAX_CHUNK_SIZE ≤ 2 ^ 31 - 16384 →
      offset - offset % MAX_CHUNK_SIZE + 2 * MAX_CHUNK_SIZE ≤ file.length →
      InPlace fd (patch (fun p => file.getD p 0) offset buf) []
        (s.bb_write env fd buf offset).2.list := by
  intro hall
  have hplace := hall (chunkCached 0) (plainEnv 2) 3 ⟨0, true, true⟩ textFile ones 1
    logicalFile_chunkCached.1 rfl (by decide +kernel) (by decide) (by decide) (by decide +kernel)
    (by decide) (by decide) length_ones not_mem_ones not_mem_textFile (by decide) (by decide)
    (Nat.le_of_eq length_textFile.symm)
  -- the file ends there
  have hbyte : ∀ b ∈ ((chunkCached 0).bb_write (plainEnv 2) 3 ones 1).2.list, b.fd = 3 →
      b.place = 2 * MAX_CHUNK_SIZE → b.buf.bytes.getD 0 0 = 0 := by
    intro b hb hfd hend
    rw [(hplace b hb hfd).2 List.not_mem_nil 0 (by rw [b.buf.size]; decide), hend]
    decide +kernel
  exact absurd hbyte (by decide +kernel)

end EE516.Bbfs
