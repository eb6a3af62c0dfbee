import EE516.Bbfs.Durability
import EE516.Bbfs.Orderly

/-!
# The contents of a file and its cache

A file and the buffers of its chunks have contents together: a byte of a cached chunk is the one in
its buffer, any other byte is the one in the file. Each step of a request either keeps the contents
or patches them, unless the cache loses what a clean buffer had.
-/

set_option autoImplicit false

namespace EE516.Bbfs

open Foundations

variable {s s' : State} {b v x new : FileBuffer} {fd : Int} {f : OpenFile} {env : Env}
variable {offset start size n p i : Nat} {c : Nat → UInt8} {l l' buf : List UInt8}
variable {conf : Conf} {rand : Nat}

/-! ## Chunks and positions -/

/-- The positions of an aligned chunk. -/
theorem chunkStart_eq_iff {start : Int} (h : (MAX_CHUNK_SIZE : Int) ∣ start) :
    chunkStart p = start ↔ start ≤ p ∧ p < start + MAX_CHUNK_SIZE := by
  simp only [chunkStart, MAX_CHUNK_SIZE] at *
  omega

/-- Where the chunk of a buffer of the file begins. -/
def FileBuffer.place (b : FileBuffer) : Nat :=
  b.fromOffset.toNat

/-- Every buffer of the list starts at a multiple of the chunk size. -/
theorem Own.startsAt {l : List FileBuffer} (h : Own fd l) (hb : b ∈ l) :
    b.StartsAt fd b.place ∧ b.place % MAX_CHUNK_SIZE = 0 := by
  obtain ⟨hfd, ⟨hdvd, -⟩, hpos⟩ := h b hb
  have hstart : (b.place : Int) = b.fromOffset := Int.toNat_of_nonneg hpos
  refine ⟨⟨hfd, hstart.symm⟩, ?_⟩
  simp only [MAX_CHUNK_SIZE] at *
  omega

theorem Own.quiet (h : Own fd s.list) (hq : Quiet s s') : Own fd s'.list := by
  intro b hb
  obtain ⟨x, hx, hxb⟩ := hq.mem hb
  obtain ⟨hfd, ha, hpos⟩ := h x hx
  have ha' := aligned_of_slot_eq hxb ha
  simp only [FileBuffer.slot, Prod.mk.injEq] at hxb
  obtain ⟨-, hfrom, -, hfd'⟩ := hxb
  exact ⟨hfd' ▸ hfd, ha', hfrom ▸ hpos⟩

/-- The bytes of a block that was read from the file. -/
theorem getD_preadBlock (hf : s.disk.fds fd = some f) (hr : f.readable = true) :
    (s.preadBlock fd size start).getD i 0 =
      if i < size then (s.disk.files f.ino).getD (start + i) 0 else 0 := by
  have hread : s.disk.pread fd size start = .ok (readAt (s.disk.files f.ino) start size) := by
    rw [Disk.pread, if_neg (by omega), hf]
    simp only [hr, if_true, Int.toNat_natCast]
  rw [State.preadBlock, hread]
  dsimp only
  rw [getD_fit, getD_readAt]
  split <;> rfl

/-! ## No encryption -/

/-- A configuration that does not enable the encryption. -/
def Plain : Conf → Prop
  | none => True
  | some (firstValue, secondValue, thirdValue) =>
    0 ≤ firstValue ∧ 0 ≤ secondValue ∧ 0 ≤ thirdValue → firstValue = 0 ∧ secondValue = 0

instance : ∀ conf, Decidable (Plain conf)
  | none => inferInstanceAs (Decidable True)
  | some _ => inferInstanceAs (Decidable (_ → _))

/-- A configuration without encryption leaves it off. -/
theorem Plain.load {p : Policy} (hc : Plain conf) (hp : p.encryptEnabled = false) :
    (p.loadPolicyFromFile conf).encryptEnabled = false := by
  rcases conf with _ | ⟨firstValue, secondValue, thirdValue⟩
  · exact hp
  · simp only [Policy.loadPolicyFromFile]
    split
    case isTrue h =>
      rw [if_pos (hc h)]
    case isFalse => exact hp

/-- An insertion that reads a plain configuration leaves encryption off. -/
theorem Added.plain (hs : Added s conf rand new s') (hc : Plain conf)
    (hp : s.policy.encryptEnabled = false) : s'.policy.encryptEnabled = false := by
  cases hs with
  | room => exact hp
  | full => exact hc.load hp

/-! ## The contents -/

/-- An open file that is cached has these contents. -/
structure Coherent (fd : Int) (f : OpenFile) (c : Nat → UInt8) (s : State) : Prop where
  bounded : Bounded s
  unique : Unique s
  fds : s.disk.fds fd = some f
  plain : s.policy.encryptEnabled = false
  own : Own fd s.list
  cached : ∀ b ∈ s.list, Agrees c b.place b.buf.bytes
  stored : ∀ p : Nat, ¬ Resident s fd (chunkStart p) → (s.disk.files f.ino).getD p 0 = c p

theorem State.Fresh.coherent (h : s.Fresh) (hf : s.disk.fds fd = some f)
    (hp : s.policy.encryptEnabled = false) :
    Coherent fd f (fun p => (s.disk.files f.ino).getD p 0) s where
  bounded := h.bounded
  unique := by simp [Unique, h.list]
  fds := hf
  plain := hp
  own := by simp [Own, h.list]
  cached := by simp [h.list]
  stored := fun _ _ => rfl

/-- A step that leaves the list and the files alone. -/
theorem Coherent.same (h : Coherent fd f c s) (hq : Quiet s s') (hlist : s'.list = s.list)
    (hdisk : s'.disk = s.disk) (hp : s'.policy.encryptEnabled = false) : Coherent fd f c s' where
  bounded := h.bounded.quiet hq
  unique := h.unique.quiet hq
  fds := hdisk ▸ h.fds
  plain := hp
  own := hlist ▸ h.own
  cached := hlist ▸ h.cached
  stored := fun p hp => by
    rw [hdisk]
    exact h.stored p fun hr => hp (hq.resident_iff.2 hr)

theorem Coherent.pread (h : Coherent fd f c s) (fd' : Int) (size : Nat) (start : Int) :
    Coherent fd f c (s.record (.pread fd' size start)) :=
  h.same (quiet_pread ..) rfl rfl h.plain

theorem Coherent.loaded (h : Coherent fd f c s) (hc : Plain conf) :
    Coherent fd f c (s.loadPolicyFromFile conf) :=
  h.same (quiet_loadPolicyFromFile s conf) rfl rfl (hc.load h.plain)

/-- A lookup moves buffers in the list. -/
theorem Coherent.bufferHitCheck (h : Coherent fd f c s) :
    Coherent fd f c (s.bufferHitCheck (toInt offset) MAX_CHUNK_SIZE fd).2 := by
  obtain ⟨hperm, -⟩ := @Nodes.bufferHitCheck s fd (toInt offset) MAX_CHUNK_SIZE h.bounded.nodes
  exact {
    bounded := h.bounded.bufferHitCheck
    unique := (hperm.map _).nodup_iff.2 h.unique
    fds := h.fds
    plain := h.plain
    own := fun b hb => h.own b (hperm.mem_iff.1 hb)
    cached := fun b hb => h.cached b (hperm.mem_iff.1 hb)
    stored := fun p hp => h.stored p fun hr => hp (by
      rw [resident_iff] at hr ⊢
      exact (hperm.map _).mem_iff.2 hr) }

/-- Two buffers of the list stand for different chunks. -/
theorem Coherent.start_ne (h : Coherent fd f c s) (hb : b ∈ s.list) (hx : x ∈ s.list)
    (hne : x.id ≠ b.id) : x.place ≠ b.place := by
  intro hstart
  have hbs := (h.own.startsAt hb).1
  have hxs := (h.own.startsAt hx).1
  rw [hstart] at hxs
  refine hne (congrArg FileBuffer.id ?_)
  exact List.inj_on_of_nodup_map h.unique hx hb
    ((key_of_startsAt hxs).trans (key_of_startsAt hbs).symm)

/-- Two chunks are the same or do not overlap. -/
theorem disjoint_chunks (h : n % MAX_CHUNK_SIZE = 0) (h' : start % MAX_CHUNK_SIZE = 0)
    (hne : n ≠ start) : n + MAX_CHUNK_SIZE ≤ start ∨ start + MAX_CHUNK_SIZE ≤ n := by
  simp only [MAX_CHUNK_SIZE] at *
  omega

/-- A position of no cached chunk is outside of every one of them. -/
theorem Coherent.outside (h : Coherent fd f c s) (hb : b ∈ s.list)
    (hp : ¬ Resident s fd (chunkStart p)) : p < b.place ∨ b.place + MAX_CHUNK_SIZE ≤ p := by
  obtain ⟨hbs, hstart⟩ := h.own.startsAt hb
  have hdvd : (MAX_CHUNK_SIZE : Int) ∣ b.place :=
    Int.natCast_dvd_natCast.2 (Nat.dvd_of_mod_eq_zero hstart)
  by_contra hin
  refine hp ⟨b, hb, ?_⟩
  rw [(chunkStart_eq_iff hdvd).2 (by omega)]
  exact hbs

/-! ## Changes of a buffer -/

/-- A new content changes one buffer only. -/
theorem mem_setBuf (hid : (s.list.map FileBuffer.id).Nodup) (hb : b ∈ s.list)
    (hx : x ∈ (s.setBuf b l).list) :
    x = { b with buf := .ofBytes l } ∨ x ∈ s.list ∧ x.id ≠ b.id := by
  obtain ⟨y, hy, rfl⟩ := List.mem_map.1 hx
  by_cases hyb : y.id = b.id
  · left
    rw [if_pos hyb, eq_of_id_eq hid hy hb hyb]
  · right
    rw [if_neg hyb]
    exact ⟨hy, hyb⟩

theorem mem_setBuf_of_ne (hx : x ∈ s.list) (hne : x.id ≠ b.id) : x ∈ (s.setBuf b l).list := by
  refine List.mem_map.2 ⟨x, hx, ?_⟩
  rw [if_neg hne]

/-- New bytes in a buffer. -/
theorem Coherent.setBuf (h : Coherent fd f c s) (hb : b ∈ s.list) (hl : MAX_CHUNK_SIZE ≤ l.length) :
    Coherent fd f (patch c b.place (l.take MAX_CHUNK_SIZE)) (s.setBuf b l) := by
  have hq := quiet_setBuf s b l
  have hlen : (l.take MAX_CHUNK_SIZE).length = MAX_CHUNK_SIZE := by
    rw [List.length_take]
    omega
  refine ⟨h.bounded.quiet hq, h.unique.quiet hq, h.fds, h.plain, h.own.quiet hq, ?_, ?_⟩
  · intro x hx
    rcases mem_setBuf h.bounded.ids hb hx with rfl | ⟨hx, hne⟩
    · rw [← fit_eq_take hl]
      exact agrees_patch_self
    · refine (h.cached x hx).patch_of_disjoint ?_
      rw [hlen, x.buf.size]
      exact disjoint_chunks (h.own.startsAt hb).2 (h.own.startsAt hx).2 (h.start_ne hb hx hne).symm
  · intro p hp
    have hp' : ¬ Resident s fd (chunkStart p) := fun hr => hp (hq.resident_iff.2 hr)
    rw [patch_outside (by rw [hlen]; exact h.outside hb hp')]
    exact h.stored p hp'

theorem Coherent.setDirty (h : Coherent fd f c s) (b : FileBuffer) :
    Coherent fd f c (s.setDirty b) := by
  have hq := quiet_setDirty s b
  refine ⟨h.bounded.quiet hq, h.unique.quiet hq, h.fds, h.plain, h.own.quiet hq, ?_, ?_⟩
  · intro x hx
    obtain ⟨y, hy, rfl⟩ := List.mem_map.1 hx
    have hcached := h.cached y hy
    split <;> exact hcached
  · exact fun p hp => h.stored p fun hr => hp (hq.resident_iff.2 hr)

/-! ## Chunks that come and go -/

/-- What an insertion evicts now is dirty, or the file has the same bytes. -/
def State.KeepsData (s : State) (conf : Conf) (rand : Nat) : Prop :=
  MAX_LIST_SIZE ≤ s.list.length → ∀ l₁ v l₂, s.list = l₁ ++ v :: l₂ →
    Picks s (s.policy.loadPolicyFromFile conf) rand l₁ l₂ →
    v.dirty = true ∨ v.buf.bytes = s.preadBlock v.fd MAX_CHUNK_SIZE v.fromOffset

/-- There is room. -/
theorem keepsData_of_lt (h : s.list.length < MAX_LIST_SIZE) : s.KeepsData conf rand :=
  fun hfull => absurd h (Nat.not_lt.2 hfull)

/-- After the eviction the file has the bytes of the evicted chunk. -/
theorem Coherent.files_writeBack (h : Coherent fd f c s) (hr : f.readable = true)
    (hw : f.writable = true) (hv : v ∈ s.list)
    (hkeep : v.dirty = true ∨ v.buf.bytes = s.preadBlock v.fd MAX_CHUNK_SIZE v.fromOffset) :
    ((s.disk.writeBack fd v).files f.ino).getD p 0 =
      if v.place ≤ p ∧ p < v.place + MAX_CHUNK_SIZE then c p
      else (s.disk.files f.ino).getD p 0 := by
  obtain ⟨hvfd, -, hpos⟩ := h.own v hv
  have hcached := h.cached v hv
  have hstart : v.fromOffset = v.place := (Int.toNat_of_nonneg hpos).symm
  rw [Bbfs.files_writeBack h.fds hw hpos]
  by_cases hp : v.place ≤ p ∧ p < v.place + MAX_CHUNK_SIZE
  · rw [if_pos hp]
    have hbyte := hcached (p - v.place) (by rw [v.buf.size]; omega)
    have hpv : v.place + (p - v.place) = p := by omega
    rw [hpv] at hbyte
    split
    case isTrue =>
      rw [getD_writeAt, v.buf.size]
      exact (if_pos hp).trans hbyte
    case isFalse hd =>
      rw [hkeep.resolve_left hd, hvfd, hstart, getD_preadBlock h.fds hr, if_pos (by omega),
        hpv] at hbyte
      exact hbyte
  · rw [if_neg hp]
    split
    case isTrue =>
      rw [getD_writeAt, v.buf.size]
      exact if_neg hp
    case isFalse => rfl

/-- A position that no cached chunk has after an insertion. -/
theorem Coherent.stored_added (h : Coherent fd f c s) (hr : f.readable = true)
    (hw : f.writable = true) (hs : Added s conf rand new s') (hkeep : s.KeepsData conf rand)
    (hp : ¬ Resident s' fd (chunkStart p)) : (s'.disk.files f.ino).getD p 0 = c p := by
  cases hs with
  | room =>
    refine h.stored p ?_
    rintro ⟨b, hb, hbs⟩
    exact hp ⟨b, List.mem_cons_of_mem _ hb, hbs⟩
  | @full l₁ l₂ v hle hl hpick =>
    have hv : v ∈ s.list := by simp [hl]
    obtain ⟨hvs, hvp⟩ := h.own.startsAt hv
    have hdvd : (MAX_CHUNK_SIZE : Int) ∣ v.place :=
      Int.natCast_dvd_natCast.2 (Nat.dvd_of_mod_eq_zero hvp)
    dsimp only
    rw [hvs.1, h.files_writeBack hr hw hv (hkeep hle l₁ v l₂ hl hpick)]
    split
    case isTrue => rfl
    case isFalse hout =>
      -- no other chunk of the list has the position
      refine h.stored p ?_
      rintro ⟨b, hb, hbs⟩
      rw [hl, List.mem_append, List.mem_cons] at hb
      rcases hb with hb | rfl | hb
      · exact hp ⟨b, by simp [hb], hbs⟩
      · have hstart : chunkStart p = b.place := hbs.2.symm.trans hvs.2
        have hin := (chunkStart_eq_iff hdvd).1 hstart
        exact hout (by omega)
      · exact hp ⟨b, by simp [hb], hbs⟩

/-- A chunk that was missing comes into the cache with new bytes. -/
theorem Coherent.added (h : Coherent fd f c s) (hr : f.readable = true) (hw : f.writable = true)
    (hs : Added s conf rand (newBuffer s.nextId fd start l) s')
    (hc : Plain conf) (hp : start % MAX_CHUNK_SIZE = 0) (hno : ¬ Resident s fd start)
    (hl : MAX_CHUNK_SIZE ≤ l.length) (hkeep : s.KeepsData conf rand) :
    Coherent fd f (patch c start (l.take MAX_CHUNK_SIZE)) s' := by
  obtain ⟨rest, hlist, hsub⟩ := hs.list
  have hlen : (l.take MAX_CHUNK_SIZE).length = MAX_CHUNK_SIZE := by
    rw [List.length_take]
    omega
  have hother : ∀ x ∈ rest, x.place ≠ start := by
    intro x hx hstart
    exact hno ⟨x, hsub.subset hx, hstart ▸ (h.own.startsAt (hsub.subset hx)).1⟩
  -- after the insertion every position of the new chunk is cached
  have hself : ∀ {q : Nat}, ¬ Resident s' fd (chunkStart q) →
      q < start ∨ start + MAX_CHUNK_SIZE ≤ q := by
    intro q hq
    by_contra hin
    have hdvd : (MAX_CHUNK_SIZE : Int) ∣ start :=
      Int.natCast_dvd_natCast.2 (Nat.dvd_of_mod_eq_zero hp)
    refine hq ⟨newBuffer s.nextId fd start l, hlist ▸ List.mem_cons_self, rfl, ?_⟩
    exact ((chunkStart_eq_iff hdvd).2 (by omega)).symm
  refine ⟨h.bounded.added (newBuffer_aligned hp) rfl hs, h.unique.added hs hno,
    hs.fds ▸ h.fds, hs.plain hc h.plain, ?_, ?_, ?_⟩
  · intro x hx
    rw [hlist] at hx
    rcases List.mem_cons.1 hx with rfl | hx
    · exact ⟨rfl, newBuffer_aligned hp, Int.natCast_nonneg start⟩
    · exact h.own x (hsub.subset hx)
  · intro x hx
    rw [hlist] at hx
    rcases List.mem_cons.1 hx with rfl | hx
    · dsimp only [newBuffer, Chunk.ofBytes, FileBuffer.place]
      rw [fit_eq_take hl, Int.toNat_natCast]
      exact agrees_patch_self
    · refine (h.cached x (hsub.subset hx)).patch_of_disjoint ?_
      rw [hlen, x.buf.size]
      exact disjoint_chunks hp (h.own.startsAt (hsub.subset hx)).2 (hother x hx).symm
  · intro q hq
    rw [patch_outside (by rw [hlen]; exact hself hq)]
    exact h.stored_added hr hw hs hkeep hq

/-- An insertion of the right bytes keeps the contents if its eviction loses none. -/
theorem Coherent.addFileBuffer {stop : Int} (h : Coherent fd f c s) (hr : f.readable = true)
    (hw : f.writable = true) (hc : Plain conf) (hp : start % MAX_CHUNK_SIZE = 0)
    (hno : ¬ Resident s fd start) (hl : MAX_CHUNK_SIZE ≤ l.length)
    (hkeep : s.KeepsData conf rand) (hstop : stop = start + MAX_CHUNK_SIZE) :
    Coherent fd f (patch c start (l.take MAX_CHUNK_SIZE))
      (s.addFileBuffer conf rand l start stop fd) := by
  subst hstop
  exact h.added hr hw (Bbfs.added h.bounded.bufferCount) hc hp hno hl hkeep

/-- A chunk that is read from the file comes into the cache. -/
theorem Coherent.load {stop : Int} (h : Coherent fd f c s) (hr : f.readable = true)
    (hw : f.writable = true) (hc : Plain conf) (hp : start % MAX_CHUNK_SIZE = 0)
    (hno : ¬ Resident s fd start) (hl : MAX_CHUNK_SIZE ≤ l.length) (ha : Agrees c start l)
    (hkeep : s.KeepsData conf rand) (hstop : stop = start + MAX_CHUNK_SIZE) :
    Coherent fd f c (s.addFileBuffer conf rand l start stop fd) := by
  have hadd := @Coherent.addFileBuffer s fd f start c l conf rand stop h hr hw hc hp hno hl hkeep
    hstop
  rwa [(ha.take MAX_CHUNK_SIZE).patch_eq] at hadd

/-! ## Without the cache -/

/-- A write of the file that changes no cached byte. -/
theorem Coherent.pwrite (h : Coherent fd f c s) (hw : f.writable = true)
    (hsame : ∀ b ∈ s.list, Agrees (patch c offset buf) b.place b.buf.bytes) :
    Coherent fd f (patch c offset buf) (s.pwrite fd buf offset) := by
  have hdisk : s.disk.written fd buf offset =
      { s.disk with
        files := fun i => if i = f.ino then writeAt (s.disk.files i) offset buf
          else s.disk.files i } := by
    rw [Disk.written, Disk.pwrite, if_neg (by omega), h.fds]
    simp only [hw, if_true, Int.toNat_natCast]
  have hq := quiet_pwrite s fd buf offset
  refine ⟨h.bounded.quiet hq, h.unique.quiet hq, ?_, h.plain, h.own.quiet hq, hsame, ?_⟩
  · rw [State.pwrite, hdisk]
    exact h.fds
  · intro q hq'
    rw [State.pwrite, hdisk]
    simp only [State.record, if_true]
    rw [getD_writeAt, patch]
    split
    case isTrue => rfl
    case isFalse => exact h.stored q fun hr => hq' (hq.resident_iff.2 hr)

end EE516.Bbfs
