import EE516.Bbfs.Coherence
import EE516.Bbfs.Truncate
import EE516.Bbfs.TwoChunks

/-!
# Requests with and without the cache

Requests of 4096 bytes go through the cache under the policies 1 and 2, all others go to the file.
A request keeps the contents of the file if it does not pass by bytes that the other side has, if
`sprintf` copies its two parts completely, if it does not take one of the two branches that are
about the wrong chunk, and if its evictions lose nothing.
-/

set_option autoImplicit false

namespace EE516.Bbfs

open Foundations

variable {s s' s₁ : State} {b x new : FileBuffer} {fd : Int} {f : OpenFile} {env : Env}
variable {offset first size n p i : Nat} {c : Nat → UInt8} {l l' a buf : List UInt8}
variable {conf : Conf} {rand : Nat}

/-! ## `sprintf` -/

/-- The bytes before the first 0 of two blocks. -/
theorem cstring_append (h : EndsAtNul (a ++ l)) : cstring (a ++ l) = cstring a ++ cstring l := by
  rw [cstring, List.takeWhile_append]
  split
  case isTrue hlen =>
    have hself := (List.takeWhile_sublist fun b : UInt8 => decide (b ≠ 0)).eq_of_length hlen
    exact congrArg (· ++ cstring l) hself.symm
  case isFalse hlen =>
    -- there is a 0 in the first block, so the second one has nothing else
    have hcut : (a.dropWhile fun b => b ≠ 0).isEmpty = false := by
      rw [Bool.eq_false_iff]
      intro hnil
      have hsplit := List.takeWhile_append_dropWhile (p := fun b : UInt8 => b ≠ 0) (l := a)
      rw [List.isEmpty_iff.1 hnil, List.append_nil] at hsplit
      exact hlen (congrArg List.length hsplit)
    rw [EndsAtNul, List.dropWhile_append, hcut, if_neg Bool.false_ne_true] at h
    have hnil : cstring l = [] := by
      cases l with
      | nil => rfl
      | cons b l =>
        have hb : b = 0 := h b (by simp)
        rw [cstring, List.takeWhile_cons_of_neg (by simp [hb])]
    rw [hnil, List.append_nil]
    rfl

/-- Two blocks are copied completely if no other byte follows a 0. -/
theorem sprintf_eq_append (ha : a.length = MAX_CHUNK_SIZE) (hl : l.length = MAX_CHUNK_SIZE)
    (h : EndsAtNul (a ++ l)) : sprintf a l = a ++ l := by
  have hcopy := strncpy_eq_iff.2 h
  rwa [strncpy, List.length_append, ha, hl, ← Nat.two_mul, cstring_append h] at hcopy

/-! ## What the lookup of a request finds -/

/-- A lookup for the request at the offset, whose first chunk starts at `first`, and the state that
it leaves. -/
inductive Finds (fd : Int) (f : OpenFile) (c : Nat → UInt8) (first offset : Nat) :
    HitInfo → State → Prop
  | hit {s : State} {b : FileBuffer} (h : Coherent fd f c s) (hb : b ∈ s.list)
      (hplace : b.place = offset) : Finds fd f c first offset (.PERFECT_HIT b) s
  | both {s : State} {b x : FileBuffer} (h : Coherent fd f c s) (hb : b ∈ s.list) (hx : x ∈ s.list)
      (hplace : b.place = first) (hplace' : x.place = first + MAX_CHUNK_SIZE) :
      Finds fd f c first offset (.PARTIAL_HIT b x) s
  | first {s : State} {b : FileBuffer} {rest : List FileBuffer} (h : Coherent fd f c s)
      (hl : s.list = b :: rest) (hplace : b.place = first)
      (hto : b.toOffset = (first + MAX_CHUNK_SIZE : Nat))
      (hno : ¬ Resident s fd (first + MAX_CHUNK_SIZE : Nat)) :
      Finds fd f c first offset (.PARTIAL_MISS_FIRST b) s
  | second {s : State} {x : FileBuffer} (h : Coherent fd f c s) (hx : x ∈ s.list)
      (hplace : x.place = first + MAX_CHUNK_SIZE) (hfrom : x.fromOffset - MAX_CHUNK_SIZE = first)
      (hno : ¬ Resident s fd first) : Finds fd f c first offset (.PARTIAL_MISS_SECOND x) s
  | miss {s : State} (h : Coherent fd f c s) (hno : ¬ Resident s fd first)
      (hno' : offset % MAX_CHUNK_SIZE ≠ 0 → ¬ Resident s fd (first + MAX_CHUNK_SIZE : Nat)) :
      Finds fd f c first offset .PERFECT_MISS s

theorem place_eq (h : b.StartsAt fd (n : Int)) : b.place = n := by
  rw [FileBuffer.place, h.2, Int.toNat_natCast]

/-- What a lookup finds has the contents of the file. -/
theorem Coherent.finds (h : Coherent fd f c s) (ho : offset < 2 ^ 31 - 8192)
    (hfirst : first + offset % MAX_CHUNK_SIZE = offset) :
    Finds fd f c first offset (s.bufferHitCheck (toInt offset) MAX_CHUNK_SIZE fd).1
      (s.bufferHitCheck (toInt offset) MAX_CHUNK_SIZE fd).2 := by
  have hf := found_bufferHitCheck s fd ho
  have hch := chunks_of_found (fun b hb _ => h.bounded.aligned b hb) hf
  have hs := @Coherent.bufferHitCheck s fd f offset c h
  have hperm : (s.bufferHitCheck (toInt offset) MAX_CHUNK_SIZE fd).2.list.Perm s.list :=
    (@Nodes.bufferHitCheck s fd (toInt offset) MAX_CHUNK_SIZE h.bounded.nodes).1
  have hmove : (s.bufferHitCheck (toInt offset) MAX_CHUNK_SIZE fd).2.list =
      (s.bufferHitCheck (toInt offset) MAX_CHUNK_SIZE fd).1.move s.list := rfl
  have hone : chunkStart offset = first := by
    simp only [chunkStart]
    omega
  have htwo : (first : Int) + MAX_CHUNK_SIZE = (first + MAX_CHUNK_SIZE : Nat) := by simp
  generalize s.bufferHitCheck (toInt offset) MAX_CHUNK_SIZE fd = r at *
  obtain ⟨info, s₁⟩ := r
  -- the lookup only reorders the list
  have hres : ∀ {start : Int}, ¬ Resident s fd start → ¬ Resident s₁ fd start := by
    rintro start hno ⟨b, hb, hbs⟩
    exact hno ⟨b, hperm.mem_iff.1 hb, hbs⟩
  cases hf with
  | perfectHit hb hbs => exact .hit hs (hperm.mem_iff.2 hb) (place_eq hbs)
  | partialHit _ hb _ hx =>
    obtain ⟨-, hbs, hxs⟩ := hch
    rw [hone] at hbs hxs
    rw [htwo] at hxs
    exact .both hs (hperm.mem_iff.2 hb) (hperm.mem_iff.2 hx) (place_eq hbs) (place_eq hxs)
  | @first b _ hb =>
    obtain ⟨-, -, hbs, hno⟩ := hch
    rw [hone] at hbs hno
    rw [htwo] at hno
    refine .first hs hmove (place_eq hbs) ?_ (hres hno)
    rw [(h.bounded.aligned b hb).2, hbs.2, htwo]
  | @second x _ hx =>
    obtain ⟨-, -, hxs, hno⟩ := hch
    rw [hone] at hxs hno
    rw [htwo] at hxs
    refine .second hs (hperm.mem_iff.2 hx) (place_eq hxs) ?_ (hres hno)
    rw [hxs.2, ← htwo, Int.add_sub_cancel]
  | perfectMiss =>
    obtain ⟨hno, hno'⟩ := hch
    rw [hone] at hno hno'
    rw [htwo] at hno'
    exact .miss hs (hres hno) fun hp => hres (hno' hp)

/-! ## Reads -/

/-- The state between the two insertions of a request that found neither chunk. -/
def State.firstAdded (s : State) (env : Env) (fd : Int) (start : Int) (buf : List UInt8) : State :=
  (s.record (.pread fd (2 * MAX_CHUNK_SIZE) start)).addFileBuffer env.evict₁.1 env.evict₁.2 buf
    start (toInt (start + MAX_CHUNK_SIZE)) fd

/-- A cached read keeps the contents and returns them: the request is not cut to an `int`, no byte
but 0 follows a 0 in two parts that `sprintf` copies, the part that was found is not freed before it
is copied, the read is none that found its second part only, and no eviction takes a clean buffer
with bytes that the file does not have. -/
def CachedReadKeeps (s : State) (env : Env) (fd : Int) (offset : Nat) : Prop :=
  offset < 2 ^ 31 - 8192 ∧
    match s.bufferHitCheck (toInt offset) MAX_CHUNK_SIZE fd with
    | (.PERFECT_HIT _, _) => True
    | (.PARTIAL_HIT firstpart secondpart, _) =>
      EndsAtNul (firstpart.buf.bytes ++ secondpart.buf.bytes)
    | (.PARTIAL_MISS_FIRST firstpart, s) =>
      EndsAtNul (firstpart.buf.bytes ++ s.preadBlock fd MAX_CHUNK_SIZE firstpart.toOffset) ∧
        ¬ s.EvictsFront env.evict₁.1 env.evict₁.2 ∧ s.KeepsData env.evict₁.1 env.evict₁.2
    | (.PARTIAL_MISS_SECOND _, _) => False
    | (.PERFECT_MISS, s) =>
      s.KeepsData env.evict₁.1 env.evict₁.2 ∧
        (offset % MAX_CHUNK_SIZE ≠ 0 →
          (s.firstAdded env fd (toInt (offset - (offset % MAX_CHUNK_SIZE : Nat)))
            (s.preadBlock fd (2 * MAX_CHUNK_SIZE)
              (toInt (offset - (offset % MAX_CHUNK_SIZE : Nat))))).KeepsData
            env.evict₂.1 env.evict₂.2)

/-- The part of two chunks that a request is for. -/
theorem agrees_slice (h : Agrees c first l) (hfirst : first + p = offset) :
    Agrees c offset (slice l p size) := by
  rw [← hfirst]
  exact (h.drop p).take size

/-- A chunk is not there after another one was added. -/
theorem not_resident_added {start : Nat} {stop : Int} (hcount : s.bufferCount = s.list.length)
    (hne : n ≠ start) (hno : ¬ Resident s fd n) :
    ¬ Resident (s.addFileBuffer conf rand l start stop fd) fd n := by
  intro hr
  rcases (added hcount).resident hr with hstart | hr
  · exact hne (Int.ofNat.inj hstart)
  · exact hno hr

theorem length_take_chunk (hl : l.length = 2 * MAX_CHUNK_SIZE) :
    (l.take MAX_CHUNK_SIZE).length = MAX_CHUNK_SIZE := by
  rw [List.length_take]
  omega

theorem length_drop_chunk (hl : l.length = 2 * MAX_CHUNK_SIZE) :
    (l.drop MAX_CHUNK_SIZE).length = MAX_CHUNK_SIZE := by
  rw [List.length_drop]
  omega

/-- The two halves of a block of two chunks are written one after the other. -/
theorem patch_halves (hl : l.length = 2 * MAX_CHUNK_SIZE) :
    patch (patch c first (l.take MAX_CHUNK_SIZE)) (first + MAX_CHUNK_SIZE)
      ((l.drop MAX_CHUNK_SIZE).take MAX_CHUNK_SIZE) = patch c first l := by
  rw [List.take_of_length_le (Nat.le_of_eq (length_drop_chunk hl))]
  conv_rhs => rw [← List.take_append_drop MAX_CHUNK_SIZE l]
  rw [patch_append, length_take_chunk hl]

/-- The two chunks of a request come into the cache. -/
theorem Coherent.addTwo (h : Coherent fd f c s) (hr : f.readable = true) (hw : f.writable = true)
    (hc₁ : Plain env.evict₁.1) (hc₂ : Plain env.evict₂.1) (ho : offset < 2 ^ 31 - 8192)
    (hfirst : first + offset % MAX_CHUNK_SIZE = offset) (hno : ¬ Resident s fd first)
    (hno' : ¬ Resident s fd (first + MAX_CHUNK_SIZE : Nat)) (hl : l.length = 2 * MAX_CHUNK_SIZE)
    (hkeep : s.KeepsData env.evict₁.1 env.evict₁.2)
    (hkeep' : (s.firstAdded env fd first l).KeepsData env.evict₂.1 env.evict₂.2) :
    Coherent fd f (patch c first l)
      ((s.firstAdded env fd first l).addFileBuffer env.evict₂.1 env.evict₂.2 (l.drop MAX_CHUNK_SIZE)
        (toInt ((first : Int) + MAX_CHUNK_SIZE))
        (toInt ((first : Int) + MAX_CHUNK_SIZE + MAX_CHUNK_SIZE)) fd) := by
  obtain ⟨hp, -, hint, hint'⟩ := int_bounds ho hfirst
  have hp' : (first + MAX_CHUNK_SIZE) % MAX_CHUNK_SIZE = 0 := by
    rw [Nat.add_mod_right, hp]
  have hne : first + MAX_CHUNK_SIZE ≠ first := Nat.ne_of_gt (Nat.lt_add_of_pos_right (by decide))
  have hrest := length_drop_chunk hl
  have hone : Coherent fd f (patch c first (l.take MAX_CHUNK_SIZE))
      (s.firstAdded env fd first l) :=
    (h.pread ..).addFileBuffer hr hw hc₁ hp hno (by omega) hkeep (hint.trans (Int.natCast_add _ _))
  have hmissing : ¬ Resident (s.firstAdded env fd first l) fd (first + MAX_CHUNK_SIZE : Nat) :=
    not_resident_added (h.pread ..).bounded.bufferCount hne hno'
  have htwo := hone.addFileBuffer hr hw hc₂ hp' hmissing (Nat.le_of_eq hrest.symm) hkeep' hint'
  rw [patch_halves hl] at htwo
  rw [hint, ← Int.natCast_add]
  exact htwo

/-- A cached read that keeps the contents returns them. -/
theorem Coherent.cachedRead (h : Coherent fd f c s) (hr : f.readable = true)
    (hw : f.writable = true) (hc₁ : Plain env.evict₁.1) (hc₂ : Plain env.evict₂.1)
    (hkeep : CachedReadKeeps s env fd offset) :
    Agrees c offset (s.cachedRead env fd MAX_CHUNK_SIZE offset).1 ∧
      Coherent fd f c (s.cachedRead env fd MAX_CHUNK_SIZE offset).2 := by
  obtain ⟨ho, hkeep⟩ := hkeep
  obtain ⟨first, hfirst⟩ := exists_first offset
  have hfinds := h.finds ho hfirst
  obtain ⟨hp, hint, hint', hint''⟩ := int_bounds ho hfirst
  have hstart : (offset : Int) - (offset % MAX_CHUNK_SIZE : Nat) = first := by omega
  rw [hstart, hint] at hkeep
  rw [State.cachedRead, State.cachedReadWith]
  generalize s.bufferHitCheck (toInt offset) MAX_CHUNK_SIZE fd = r at *
  obtain ⟨info, s₁⟩ := r
  dsimp only at hfinds
  cases hfinds with
  | @hit _ b hs hb hplace => exact ⟨hplace ▸ hs.cached b hb, hs⟩
  | @both _ b x hs hb hx hplace hplace' =>
    have hfirstpart := hs.cached b hb
    have hsecondpart := hs.cached x hx
    rw [hplace] at hfirstpart
    rw [hplace', ← b.buf.size] at hsecondpart
    dsimp only at hkeep ⊢
    rw [sprintf_eq_append b.buf.size x.buf.size hkeep]
    exact ⟨agrees_slice (hfirstpart.append hsecondpart) hfirst, hs⟩
  | @first _ b rest hs hl hplace hto hno =>
    dsimp only at hkeep ⊢
    rw [hto] at hkeep ⊢
    obtain ⟨hnul, hfront, hkeep⟩ := hkeep
    have hp' : (first + MAX_CHUNK_SIZE) % MAX_CHUNK_SIZE = 0 := by
      rw [Nat.add_mod_right, hp]
    have hfirstpart := hs.cached b (hl ▸ List.mem_cons_self)
    have hsecondpart := agrees_chunk hs.fds hr hs.stored hp' hno
    have hadd := (hs.pread fd MAX_CHUNK_SIZE (first + MAX_CHUNK_SIZE : Nat)).load hr hw hc₁ hp' hno
      (Nat.le_of_eq (length_preadBlock ..).symm) hsecondpart hkeep hint''
    -- the part that was found is read after the eviction, which did not free it
    rw [deref_front (hs.pread ..).bounded.bufferCount hadd.bounded.ids hl hfront,
      sprintf_eq_append b.buf.size (length_preadBlock ..) hnul]
    rw [hplace] at hfirstpart
    refine ⟨agrees_slice (hfirstpart.append ?_) hfirst, hadd⟩
    rw [b.buf.size]
    exact hsecondpart
  | second => exact absurd hkeep id
  | miss hs hno hno' =>
    dsimp only at hkeep ⊢
    obtain ⟨hkeep, hkeep'⟩ := hkeep
    split
    case isTrue hz =>
      have hoffset : offset = first := by omega
      rw [hoffset, hint]
      have hblock := agrees_chunk hs.fds hr hs.stored hp hno
      exact ⟨agrees_slice hblock rfl, (hs.pread ..).load hr hw hc₁ hp hno
        (Nat.le_of_eq (length_preadBlock ..).symm) hblock hkeep (by simpa using hint')⟩
    case isFalse hz =>
      rw [hstart, hint]
      have hblock := agrees_chunks hs.fds hr hs.stored hp hno (hno' hz)
      have hadd := hs.addTwo hr hw hc₁ hc₂ ho hfirst hno (hno' hz) (length_preadBlock ..) hkeep
        (hkeep' hz)
      rw [hblock.patch_eq] at hadd
      exact ⟨agrees_slice hblock hfirst, hadd⟩

/-! ## Writes -/

/-- A cached write patches the contents: as for a read; here it is the write that found its first
part only which is about the wrong chunk. -/
def CachedWriteKeeps (s : State) (env : Env) (fd : Int) (buf : List UInt8) (offset : Nat) : Prop :=
  offset < 2 ^ 31 - 8192 ∧
    match s.bufferHitCheck (toInt offset) MAX_CHUNK_SIZE fd with
    | (.PERFECT_HIT _, _) => True
    | (.PARTIAL_HIT firstpart secondpart, _) =>
      EndsAtNul (firstpart.buf.bytes ++ secondpart.buf.bytes)
    | (.PARTIAL_MISS_FIRST _, _) => False
    | (.PARTIAL_MISS_SECOND secondpart, s) =>
      let tempbuf := s.preadBlock fd MAX_CHUNK_SIZE (toInt (secondpart.fromOffset - MAX_CHUNK_SIZE))
      let totalbuf := overlay (tempbuf ++ secondpart.buf.bytes) (offset % MAX_CHUNK_SIZE) buf
      EndsAtNul (tempbuf ++ secondpart.buf.bytes) ∧
        (s.setBuf secondpart (totalbuf.drop MAX_CHUNK_SIZE)).KeepsData env.evict₁.1 env.evict₁.2
    | (.PERFECT_MISS, s) =>
      s.KeepsData env.evict₁.1 env.evict₁.2 ∧
        (offset % MAX_CHUNK_SIZE ≠ 0 →
          (s.firstAdded env fd (toInt (offset - (offset % MAX_CHUNK_SIZE : Nat)))
            (overlay (s.preadBlock fd (2 * MAX_CHUNK_SIZE)
              (toInt (offset - (offset % MAX_CHUNK_SIZE : Nat)))) (offset % MAX_CHUNK_SIZE)
              buf)).KeepsData env.evict₂.1 env.evict₂.2)

/-- A block with the contents of the two chunks, after the data was copied into it. -/
theorem patch_chunks (hbuf : buf.length = MAX_CHUNK_SIZE)
    (hfirst : first + offset % MAX_CHUNK_SIZE = offset) (hl : l.length = 2 * MAX_CHUNK_SIZE)
    (ha : Agrees c first l) :
    (overlay l (offset % MAX_CHUNK_SIZE) buf).length = 2 * MAX_CHUNK_SIZE ∧
      patch c first (overlay l (offset % MAX_CHUNK_SIZE) buf) = patch c offset buf := by
  have hmod : offset % MAX_CHUNK_SIZE < MAX_CHUNK_SIZE := Nat.mod_lt _ (by decide)
  have hle : offset % MAX_CHUNK_SIZE + buf.length ≤ l.length := by omega
  rw [length_overlay hle, ha.patch_overlay hle, hfirst]
  exact ⟨hl, rfl⟩

/-- Both chunks are cached, and take the two halves of a block. -/
theorem Coherent.setTwo (h : Coherent fd f c s) (hb : b ∈ s.list) (hx : x ∈ s.list)
    (hplace : b.place = first) (hplace' : x.place = first + MAX_CHUNK_SIZE)
    (hl : l.length = 2 * MAX_CHUNK_SIZE) :
    Coherent fd f (patch c first l)
      ((((s.setBuf b l).setBuf x (l.drop MAX_CHUNK_SIZE)).setDirty b).setDirty x) := by
  have hne : x.id ≠ b.id := by
    intro hid
    have hplaces := congrArg FileBuffer.place (eq_of_id_eq h.bounded.ids hx hb hid)
    rw [hplace, hplace'] at hplaces
    exact absurd hplaces (Nat.ne_of_gt (Nat.lt_add_of_pos_right (by decide)))
  have hle : MAX_CHUNK_SIZE ≤ l.length := by omega
  have hset := (((h.setBuf hb hle).setBuf (mem_setBuf_of_ne hx hne)
    (Nat.le_of_eq (length_drop_chunk hl).symm)).setDirty b).setDirty x
  rw [hplace, hplace', patch_halves hl] at hset
  exact hset

/-- The second chunk is cached and takes its half of a block; the first one is added. -/
theorem Coherent.setSecond {stop : Int} (h : Coherent fd f c s) (hr : f.readable = true)
    (hw : f.writable = true) (hc : Plain conf) (hp : first % MAX_CHUNK_SIZE = 0)
    (hno : ¬ Resident s fd first) (hx : x ∈ s.list) (hplace : x.place = first + MAX_CHUNK_SIZE)
    (hl : l.length = 2 * MAX_CHUNK_SIZE)
    (hkeep : (s.setBuf x (l.drop MAX_CHUNK_SIZE)).KeepsData conf rand)
    (hstop : stop = first + MAX_CHUNK_SIZE) :
    Coherent fd f (patch c first l)
      ((s.setBuf x (l.drop MAX_CHUNK_SIZE)).addFileBuffer conf rand l first stop fd) := by
  have hset := h.setBuf hx (Nat.le_of_eq (length_drop_chunk hl).symm)
  have hmissing : ¬ Resident (s.setBuf x (l.drop MAX_CHUNK_SIZE)) fd first := fun hres =>
    hno ((quiet_setBuf ..).resident_iff.1 hres)
  have hle : MAX_CHUNK_SIZE ≤ l.length := by omega
  have hadd := hset.addFileBuffer hr hw hc hp hmissing hle hkeep hstop
  -- the second half goes in before the first one, and they do not overlap
  have hcomm : patch (patch c (first + MAX_CHUNK_SIZE)
      ((l.drop MAX_CHUNK_SIZE).take MAX_CHUNK_SIZE)) first (l.take MAX_CHUNK_SIZE) =
      patch c first l := by
    rw [patch_comm, patch_halves hl]
    right
    rw [length_take_chunk hl]
  rw [hplace, hcomm] at hadd
  exact hadd

/-- A cached write that keeps the contents patches them. -/
theorem Coherent.cachedWrite (h : Coherent fd f c s) (hr : f.readable = true)
    (hw : f.writable = true) (hc₁ : Plain env.evict₁.1) (hc₂ : Plain env.evict₂.1)
    (hbuf : buf.length = MAX_CHUNK_SIZE) (hkeep : CachedWriteKeeps s env fd buf offset) :
    Coherent fd f (patch c offset buf) (s.cachedWrite env fd buf MAX_CHUNK_SIZE offset) := by
  obtain ⟨ho, hkeep⟩ := hkeep
  obtain ⟨first, hfirst⟩ := exists_first offset
  have hfinds := h.finds ho hfirst
  obtain ⟨hp, hint, hint', hint''⟩ := int_bounds ho hfirst
  have hstart : (offset : Int) - (offset % MAX_CHUNK_SIZE : Nat) = first := by omega
  rw [hstart, hint] at hkeep
  rw [State.cachedWrite]
  generalize s.bufferHitCheck (toInt offset) MAX_CHUNK_SIZE fd = r at *
  obtain ⟨info, s₁⟩ := r
  dsimp only at hfinds
  cases hfinds with
  | @hit _ b hs hb hplace =>
    have hset := (hs.setBuf hb (Nat.le_of_eq hbuf.symm)).setDirty b
    rw [List.take_of_length_le (Nat.le_of_eq hbuf), hplace] at hset
    exact hset
  | @both _ b x hs hb hx hplace hplace' =>
    -- both chunks are cached: their join is patched and copied back
    have hfirstpart := hs.cached b hb
    have hsecondpart := hs.cached x hx
    rw [hplace] at hfirstpart
    rw [hplace', ← b.buf.size] at hsecondpart
    dsimp only at hkeep ⊢
    rw [sprintf_eq_append b.buf.size x.buf.size hkeep]
    obtain ⟨hlen, hpatch⟩ := patch_chunks hbuf hfirst
      (by rw [List.length_append, b.buf.size, x.buf.size, Nat.two_mul])
      (hfirstpart.append hsecondpart)
    have hset := hs.setTwo hb hx hplace hplace' hlen
    rw [hpatch] at hset
    exact hset
  | first => exact absurd hkeep id
  | @second _ x hs hx hplace hfrom hno =>
    -- the first chunk is read from the file, and the join is patched
    have hfirstpart := agrees_chunk hs.fds hr hs.stored hp hno
    have hsecondpart := hs.cached x hx
    rw [hplace, ← length_preadBlock s₁ fd MAX_CHUNK_SIZE first] at hsecondpart
    dsimp only at hkeep ⊢
    rw [hfrom, hint] at hkeep ⊢
    obtain ⟨hnul, hkeep⟩ := hkeep
    rw [sprintf_eq_append (length_preadBlock ..) x.buf.size hnul]
    obtain ⟨hlen, hpatch⟩ := patch_chunks hbuf hfirst
      (by rw [List.length_append, length_preadBlock, x.buf.size, Nat.two_mul])
      (hfirstpart.append hsecondpart)
    generalize overlay (s₁.preadBlock fd MAX_CHUNK_SIZE first ++ x.buf.bytes)
      (offset % MAX_CHUNK_SIZE) buf = total at *
    have hadd := (hs.pread fd MAX_CHUNK_SIZE first).setSecond hr hw hc₁ hp hno hx hplace hlen hkeep
      (hint'.trans (Int.natCast_add _ _))
    rw [hpatch] at hadd
    exact hadd
  | miss hs hno hno' =>
    dsimp only at hkeep ⊢
    obtain ⟨hkeep, hkeep'⟩ := hkeep
    split
    case isTrue hz =>
      -- aligned: the data is the chunk
      have hoffset : offset = first := by omega
      rw [hoffset, hint, overlay_zero (by rw [length_preadBlock, hbuf])]
      have hadd := (hs.pread fd MAX_CHUNK_SIZE first).addFileBuffer hr hw hc₁ hp hno
        (Nat.le_of_eq hbuf.symm) hkeep (hint'.trans (Int.natCast_add _ _))
      rw [List.take_of_length_le (Nat.le_of_eq hbuf)] at hadd
      exact hadd
    case isFalse hz =>
      rw [hstart, hint]
      -- both chunks are read, patched and added
      have hblock := agrees_chunks hs.fds hr hs.stored hp hno (hno' hz)
      obtain ⟨hlen, hpatch⟩ := patch_chunks hbuf hfirst (length_preadBlock ..) hblock
      have hadd := hs.addTwo hr hw hc₁ hc₂ ho hfirst hno (hno' hz) hlen hkeep (hkeep' hz)
      rw [hpatch] at hadd
      exact hadd

/-! ## Requests -/

/-- No cached byte of the range differs from the byte of the file. -/
def NothingNewer (s : State) (f : OpenFile) (offset size : Nat) : Prop :=
  ∀ b ∈ s.list, ∀ i < MAX_CHUNK_SIZE, offset ≤ b.place + i → b.place + i < offset + size →
    b.place + i < (s.disk.files f.ino).length →
    (s.disk.files f.ino).getD (b.place + i) 0 = b.buf.bytes.getD i 0

/-- No cached byte of the range differs from the byte that is written. -/
def NothingStale (s : State) (buf : List UInt8) (offset : Nat) : Prop :=
  ∀ b ∈ s.list, ∀ i < MAX_CHUNK_SIZE, offset ≤ b.place + i → b.place + i < offset + buf.length →
    b.buf.bytes.getD i 0 = buf.getD (b.place + i - offset) 0

/-- The request keeps the contents of the file, with the cache or without. -/
def Keeps (s : State) (env : Env) (f : OpenFile) : Call → Prop
  | .read fd size offset =>
    if s.policy.cachePolicy ≠ 0 ∧ size = MAX_CHUNK_SIZE then CachedReadKeeps s env fd offset
    else NothingNewer s f offset size
  | .write fd buf offset =>
    if s.policy.cachePolicy ≠ 0 ∧ buf.length = MAX_CHUNK_SIZE then
      CachedWriteKeeps s env fd buf offset
    else NothingStale s buf offset
  | .release _ => True

/-- The configurations that a call reads do not enable the encryption. -/
def Env.Plain (env : Env) : Prop :=
  Bbfs.Plain env.conf ∧ Bbfs.Plain env.evict₁.1 ∧ Bbfs.Plain env.evict₂.1

/-- A read of the file returns the contents. -/
theorem Coherent.agrees_readAt (h : Coherent fd f c s) (hnew : NothingNewer s f offset size) :
    Agrees c offset (readAt (s.disk.files f.ino) offset size) := by
  intro i hi
  rw [length_readAt] at hi
  rw [getD_readAt, if_pos (by omega)]
  by_cases hres : Resident s fd (chunkStart (offset + i))
  · obtain ⟨b, hb, hbs⟩ := hres
    obtain ⟨hplace, hp⟩ := h.own.startsAt hb
    have hdvd : (MAX_CHUNK_SIZE : Int) ∣ b.place :=
      Int.natCast_dvd_natCast.2 (Nat.dvd_of_mod_eq_zero hp)
    have hin := (chunkStart_eq_iff hdvd).1 (hbs.2.symm.trans hplace.2)
    have hpos : b.place + (offset + i - b.place) = offset + i := by omega
    have hbyte := hnew b hb (offset + i - b.place) (by omega) (by omega) (by omega) (by omega)
    have hcached := h.cached b hb (offset + i - b.place) (by rw [b.buf.size]; omega)
    rw [hpos] at hbyte hcached
    exact hbyte.trans hcached
  · exact h.stored _ hres

/-- A read that keeps the contents returns them, with the cache or without. -/
theorem Coherent.bb_read (h : Coherent fd f c s) (hr : f.readable = true) (hw : f.writable = true)
    (henv : env.Plain)
    (hkeep : Keeps (s.loadPolicyFromFile env.conf) env f (.read fd size offset)) :
    Agrees c offset (s.bb_read env fd size offset).1.buf ∧
      Coherent fd f c (s.bb_read env fd size offset).2 := by
  obtain ⟨hc, hc₁, hc₂⟩ := henv
  have hs := h.loaded hc
  rw [Keeps] at hkeep
  rw [State.bb_read]
  generalize s.loadPolicyFromFile env.conf = s at *
  dsimp only at hkeep ⊢
  split
  case isTrue hcache =>
    rw [if_pos hcache] at hkeep
    obtain ⟨-, rfl⟩ := hcache
    obtain ⟨hread, hend⟩ := hs.cachedRead hr hw hc₁ hc₂ hkeep
    refine ⟨?_, hend⟩
    rw [Policy.decrypt, hend.plain, if_neg Bool.false_ne_true]
    exact hread
  case isFalse hcache =>
    rw [if_neg hcache] at hkeep
    have hread : s.disk.pread fd size offset = .ok (readAt (s.disk.files f.ino) offset size) := by
      rw [Disk.pread, if_neg (by omega), hs.fds]
      simp only [hr, if_true, Int.toNat_natCast]
    rw [hread]
    dsimp only
    rw [Policy.decrypt, hs.plain, if_neg Bool.false_ne_true]
    exact ⟨hs.agrees_readAt hkeep, hs.pread ..⟩

/-- A write that keeps the contents patches them, with the cache or without. -/
theorem Coherent.bb_write (h : Coherent fd f c s) (hr : f.readable = true) (hw : f.writable = true)
    (henv : env.Plain) (hnul : 0 ∉ buf)
    (hkeep : Keeps (s.loadPolicyFromFile env.conf) env f (.write fd buf offset)) :
    Coherent fd f (patch c offset buf) (s.bb_write env fd buf offset).2 := by
  obtain ⟨hc, hc₁, hc₂⟩ := henv
  have hs := h.loaded hc
  have hcopy : strncpy buf buf.length = buf := strncpy_eq_iff.2 (endsAtNul_of_not_mem hnul)
  rw [Keeps] at hkeep
  rw [State.bb_write]
  generalize s.loadPolicyFromFile env.conf = s at *
  have hdata : s.policy.encrypt (strncpy buf buf.length) = buf := by
    rw [hcopy, Policy.encrypt, hs.plain, if_neg Bool.false_ne_true]
  dsimp only at hkeep ⊢
  rw [hdata]
  split
  case isTrue hcache =>
    rw [if_pos hcache] at hkeep
    have hwrite := hs.cachedWrite hr hw hc₁ hc₂ hcache.2 hkeep
    dsimp only
    rw [hcache.2]
    exact hwrite
  case isFalse hcache =>
    rw [if_neg hcache] at hkeep
    have hsame : ∀ b ∈ s.list, Agrees (patch c offset buf) b.place b.buf.bytes := by
      intro b hb i hi
      rw [patch]
      split
      case isTrue hin => exact hkeep b hb i (b.buf.size ▸ hi) hin.1 hin.2
      case isFalse => exact hs.cached b hb i hi
    have hwrite := hs.pwrite hw hsame
    split <;> exact hwrite

/-! ## Runs -/

/-- The byte that the call writes at the position. -/
def Call.byteAt (p : Nat) : Call → Option UInt8
  | .write _ buf offset =>
    if offset ≤ p ∧ p < offset + buf.length then some (buf.getD (p - offset) 0) else none
  | _ => none

/-- The byte most recently written at the position, or the one that was there. -/
def latestByte (orig : List UInt8) (τ : List Event) (p : Nat) : UInt8 :=
  (τ.findSome? fun e => e.call.byteAt p).getD (orig.getD p 0)

/-- A request for the file, with no NUL byte in what it writes. -/
def Call.IsText (fd : Int) (call : Call) : Prop :=
  call.IsRequest fd ∧ ∀ fd' buf offset, call = .write fd' buf offset → 0 ∉ buf

/-- Any request of the file without encryption, under whatever cache policy. -/
def PlainStep (fd : Int) (s : State) (e : Event) (s' : State) : Prop :=
  StepBy step s e s' ∧ e.call.IsText fd ∧ e.env.Plain

/-- A call that writes nothing leaves the latest bytes as they are. -/
theorem latestByte_cons_of_none {orig : List UInt8} {τ : List Event} {e : Event}
    (h : ∀ p, e.call.byteAt p = none) : latestByte orig (e :: τ) = latestByte orig τ := by
  funext p
  rw [latestByte, List.findSome?_cons, h p]
  rfl

/-- A write patches the latest bytes. -/
theorem latestByte_cons_write {orig : List UInt8} {τ : List Event} {e : Event}
    (h : e.call = .write fd buf offset) :
    latestByte orig (e :: τ) = patch (latestByte orig τ) offset buf := by
  funext p
  rw [latestByte, List.findSome?_cons, h, Call.byteAt, patch]
  by_cases hin : offset ≤ p ∧ p < offset + buf.length
  · rw [if_pos hin, if_pos hin]
    rfl
  · rw [if_neg hin, if_neg hin]
    rfl

/-- The bytes that the read returns, as far as they lie below the end of the file, are the ones most
recently written. -/
def Event.ReturnsLatest (f : OpenFile) (orig : List UInt8) (before : List Event) (e : Event) :
    Prop :=
  ∀ fd size offset, e.call = .read fd size offset → ∀ i < e.result.buf.length,
    offset + i < (e.before.disk.files f.ino).length →
    e.result.buf.getD i 0 = latestByte orig before (offset + i)

/-- The request keeps the contents in the state where it is made. -/
structure Event.Keeps (f : OpenFile) (e : Event) : Prop where
  keeps : Bbfs.Keeps (e.before.loadPolicyFromFile e.env.conf) e.env f e.call

/-- A request that keeps the contents keeps them coherent with the history. -/
theorem Coherent.step {orig : List UInt8} {τ : List Event} {e : Event}
    (h : Coherent fd f (latestByte orig τ) s) (hr : f.readable = true) (hw : f.writable = true)
    (he : PlainStep fd s e s') (hkeep : e.Keeps f) :
    e.ReturnsLatest f orig τ ∧ Coherent fd f (latestByte orig (e :: τ)) s' := by
  obtain ⟨⟨a, ha⟩, ⟨hreq, htext⟩, henv⟩ := he
  obtain ⟨rfl, rfl⟩ := step_eq ha
  obtain ⟨env, call⟩ := a
  cases call with
  | read fd' size offset =>
    obtain rfl := hreq
    obtain ⟨hread, hend⟩ := h.bb_read hr hw henv hkeep.keeps
    refine ⟨fun _ _ _ heq i hi _ => ?_, ?_⟩
    · cases heq
      exact hread i hi
    · rw [latestByte_cons_of_none fun _ => rfl]
      exact hend
  | write fd' buf offset =>
    obtain rfl := hreq
    refine ⟨?_, ?_⟩
    · intro _ _ _ heq
      cases heq
    · rw [latestByte_cons_write rfl]
      exact h.bb_write hr hw henv (htext _ _ _ rfl) hkeep.keeps
  | release fd' => exact absurd hreq id

/-- In every run of requests that keep the contents, with the cache and without, every read returns
the bytes most recently written. What `sprintf` copies of two parts is what `cstring` says: the
bytes of each before its first 0, and no more than its chunk. -/
theorem reads_return_latest {s₀ : State} {τ : List Event} (hs : s₀.Fresh)
    (hplain : s₀.policy.encryptEnabled = false) (hf : s₀.disk.fds fd = some f)
    (hr : f.readable = true) (hw : f.writable = true)
    (h : Run (fun s e s' => PlainStep fd s e s' ∧ e.Keeps f) s₀ τ s) :
    ∀ after e before, τ = after ++ e :: before →
      e.ReturnsLatest f (s₀.disk.files f.ino) before := by
  have hrun : Coherent fd f (latestByte (s₀.disk.files f.ino) τ) s ∧
      ∀ after e before, τ = after ++ e :: before →
        e.ReturnsLatest f (s₀.disk.files f.ino) before := by
    refine h.invariant (fun τ s => Coherent fd f (latestByte (s₀.disk.files f.ino) τ) s ∧
      ∀ after e before, τ = after ++ e :: before →
        e.ReturnsLatest f (s₀.disk.files f.ino) before) ⟨hs.coherent hf hplain, ?_⟩ ?_
    · intro after e before heq
      cases after <;> cases heq
    · rintro τ s e s' - ⟨hc, hreads⟩ ⟨he, hkeep⟩
      obtain ⟨hread, hc'⟩ := hc.step hr hw he hkeep
      refine ⟨hc', fun after e' before heq => ?_⟩
      cases after with
      | nil =>
        cases heq
        exact hread
      | cons _ after =>
        cases heq
        exact hreads after e' before rfl
  exact hrun.2

/-- A request for a whole chunk keeps the contents as long as the cache has room. -/
theorem keepsData_lookup (hb : Bounded s) (hroom : s.list.length < MAX_LIST_SIZE) :
    (s.bufferHitCheck (toInt offset) MAX_CHUNK_SIZE fd).2.KeepsData conf rand := by
  refine keepsData_of_lt ?_
  rwa [(@Nodes.bufferHitCheck s fd (toInt offset) MAX_CHUNK_SIZE hb.nodes).1.length_eq]

/-- With room in the list a request for a whole chunk keeps the contents. -/
theorem cachedKeeps_of_room (buf : List UInt8) (hb : Bounded s)
    (hroom : s.list.length < MAX_LIST_SIZE) (ho : offset < 2 ^ 31 - 8192)
    (hp : offset % MAX_CHUNK_SIZE = 0) :
    CachedReadKeeps s env fd offset ∧ CachedWriteKeeps s env fd buf offset := by
  have hkeep := @keepsData_lookup s fd offset env.evict₁.1 env.evict₁.2 hb hroom
  have hinfo := @lookup_aligned s fd offset hb.aligned ho hp
  rw [CachedReadKeeps, CachedWriteKeeps]
  generalize s.bufferHitCheck (toInt offset) MAX_CHUNK_SIZE fd = r at *
  obtain ⟨info, s₁⟩ := r
  -- an aligned request finds its one chunk or nothing
  rcases hinfo with ⟨b, -, -, hinfo⟩ | ⟨-, hinfo⟩
  · dsimp only at hinfo
    subst hinfo
    exact ⟨⟨ho, trivial⟩, ho, trivial⟩
  · dsimp only at hinfo
    subst hinfo
    exact ⟨⟨ho, hkeep, fun hne => absurd hp hne⟩, ho, hkeep, fun hne => absurd hp hne⟩

/-- Every request below the limit keeps the list bounded. -/
theorem Bounded.event {call : Call} (h : Bounded s) (hc : call.Below (2 ^ 31 - 16384)) :
    Bounded (s.event env call).after :=
  h.perform hc

/-- A read of a whole chunk with the cache, while there is room. -/
theorem event_keeps_read (hb : Bounded s) (hroom : s.list.length < MAX_LIST_SIZE)
    (hpol : (s.loadPolicyFromFile env.conf).policy.cachePolicy ≠ 0) (ho : offset < 2 ^ 31 - 8192)
    (hp : offset % MAX_CHUNK_SIZE = 0) :
    (s.event env (.read fd MAX_CHUNK_SIZE offset)).Keeps f where
  keeps := (if_pos ⟨hpol, rfl⟩).mpr
    (cachedKeeps_of_room [] (hb.quiet (quiet_loadPolicyFromFile s env.conf)) hroom ho hp).1

/-- A write of a whole chunk with the cache, while there is room. -/
theorem event_keeps_write (hb : Bounded s) (hroom : s.list.length < MAX_LIST_SIZE)
    (hpol : (s.loadPolicyFromFile env.conf).policy.cachePolicy ≠ 0)
    (hbuf : buf.length = MAX_CHUNK_SIZE) (ho : offset < 2 ^ 31 - 8192)
    (hp : offset % MAX_CHUNK_SIZE = 0) : (s.event env (.write fd buf offset)).Keeps f where
  keeps := (if_pos ⟨hpol, hbuf⟩).mpr
    (cachedKeeps_of_room buf (hb.quiet (quiet_loadPolicyFromFile s env.conf)) hroom ho hp).2

/-- A write without the cache behind everything that is cached. -/
theorem event_keeps_around (hpol : (s.loadPolicyFromFile env.conf).policy.cachePolicy = 0)
    (hplace : ∀ b ∈ s.list, b.place + MAX_CHUNK_SIZE ≤ offset) :
    (s.event env (.write fd buf offset)).Keeps f where
  keeps := (if_neg fun h => h.1 hpol).mpr fun b hb i hi hge => by
    have hb' := hplace b hb
    omega

/-- One byte is written without the cache behind the chunk that is cached. -/
def writeNext : Event :=
  writeFirst.after.event (plainEnv 0) (.write 3 [2] MAX_CHUNK_SIZE)

/-- The cached chunk is read. -/
def readCached : Event :=
  writeNext.after.event (plainEnv 1) (.read 3 MAX_CHUNK_SIZE 0)

/-- Both ways of access in one run. -/
theorem reads_return_latest_mixed :
    readCached.ReturnsLatest ⟨0, true, true⟩ [] [writeNext, writeFirst] := by
  have hb : Bounded (mount (oneFile [])) := (fresh_mount (oneFile [])).bounded
  have hb₁ : Bounded writeFirst.after := hb.event (by decide)
  have hb₂ : Bounded writeNext.after := hb₁.event (by decide)
  have hwrite : PlainStep 3 (mount (oneFile [])) writeFirst writeFirst.after := by
    refine ⟨step_event _ _ _, ⟨rfl, ?_⟩, by decide, by decide, by decide⟩
    intro _ _ _ heq
    cases heq
    decide +kernel
  have hnext : PlainStep 3 writeFirst.after writeNext writeNext.after := by
    refine ⟨step_event _ _ _, ⟨rfl, ?_⟩, by decide, by decide, by decide⟩
    intro _ _ _ heq
    cases heq
    decide +kernel
  have hread : PlainStep 3 writeNext.after readCached readCached.after :=
    ⟨step_event _ _ _, ⟨rfl, nofun⟩, by decide, by decide, by decide⟩
  have hkeep : writeFirst.Keeps ⟨0, true, true⟩ :=
    event_keeps_write hb (by decide +kernel) (by decide +kernel) (by decide +kernel)
      (by decide) (by decide)
  have hkeep₁ : writeNext.Keeps ⟨0, true, true⟩ :=
    event_keeps_around (by decide +kernel) (by decide +kernel)
  have hkeep₂ : readCached.Keeps ⟨0, true, true⟩ :=
    event_keeps_read hb₂ (by decide +kernel) (by decide +kernel) (by decide) (by decide)
  exact reads_return_latest (fresh_mount (oneFile [])) rfl rfl rfl rfl
    (.step (.step (.step .start ⟨hwrite, hkeep⟩) ⟨hnext, hkeep₁⟩) ⟨hread, hkeep₂⟩)
    [] readCached _ rfl

/-- The first chunk of a file of one byte is written. -/
def writeOver : Event :=
  (mount (oneFile [7])).event (plainEnv 2) (.write 3 ones 0)

/-- The byte is read without the cache. -/
def readAround : Event :=
  writeOver.after.event (plainEnv 2) (.read 3 1 0)

/-- A read without the cache does not see what is cached. -/
theorem read_passes_cache :
    ¬ ∀ (s₀ s : State) (fd : Int) (f : OpenFile) (τ : List Event), s₀.Fresh →
      s₀.policy.encryptEnabled = false → s₀.disk.fds fd = some f → f.readable = true →
      f.writable = true → Run (PlainStep fd) s₀ τ s →
      ∀ after e before, τ = after ++ e :: before →
        e.ReturnsLatest f (s₀.disk.files f.ino) before := by
  intro hall
  have hwrite : PlainStep 3 (mount (oneFile [7])) writeOver writeOver.after := by
    refine ⟨step_event _ _ _, ⟨rfl, ?_⟩, by decide, by decide, by decide⟩
    intro _ _ _ heq
    cases heq
    decide +kernel
  have hread : PlainStep 3 writeOver.after readAround readAround.after :=
    ⟨step_event _ _ _, ⟨rfl, nofun⟩, by decide, by decide, by decide⟩
  have hlatest := hall _ _ 3 ⟨0, true, true⟩ _ (fresh_mount (oneFile [7])) rfl rfl rfl rfl
    (.step (.step .start hwrite) hread) [] readAround [writeOver] rfl
  have hbyte := hlatest 3 1 0 rfl 0 (by decide +kernel) (by decide +kernel)
  exact absurd hbyte (by decide +kernel)

end EE516.Bbfs
