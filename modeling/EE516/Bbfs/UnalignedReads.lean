import EE516.Bbfs.Recency
import EE516.Bbfs.TwoChunks

/-!
# Reads across two chunks

A cached read that touches two chunks joins them in a block of its own: by `sprintf`, which stops at
the first 0 of each chunk, or by one `pread` when neither is cached. When the second chunk alone is
cached it is read again and stands for the first one.
-/

set_option autoImplicit false

namespace EE516.Bbfs

open Foundations

variable {s s' : State} {b : FileBuffer} {fd : Int} {f : OpenFile} {env : Env}
variable {offset first start size p i : Nat} {a l file : List UInt8} {conf : Conf} {rand : Nat}

/-! ## Texts in chunks -/

theorem getD_cstring :
    (cstring l).getD i 0 = if i < (cstring l).length then l.getD i 0 else 0 := by
  split
  case isTrue hi =>
    have hsplit := List.takeWhile_append_dropWhile (p := fun b : UInt8 => b ≠ 0) (l := l)
    conv_rhs => rw [← hsplit]
    exact (List.getD_append _ _ _ _ hi).symm
  case isFalse hi => exact getD_of_le (Nat.le_of_not_lt hi)

/-- No byte that `%s` copies is 0. -/
theorem getD_ne_zero (hi : i < (cstring l).length) : l.getD i 0 ≠ 0 := by
  have hmem : (cstring l).getD i 0 ∈ cstring l := by
    rw [List.getD_eq_getElem _ _ hi]
    exact List.getElem_mem hi
  rw [getD_cstring, if_pos hi] at hmem
  simpa using List.mem_takeWhile_imp hmem

/-- The byte behind a text is 0. -/
theorem getD_length_cstring : l.getD (cstring l).length 0 = 0 := by
  induction l with
  | nil => rfl
  | cons b l ih =>
    rw [cstring] at ih ⊢
    by_cases hb : b = 0
    · simp [hb]
    · simpa [hb] using ih

theorem length_cstring_le (l : List UInt8) : (cstring l).length ≤ l.length :=
  (List.takeWhile_sublist _).length_le

/-- `%s` copies the second part only behind a first part without 0. -/
theorem length_cstring_append :
    (cstring (a ++ l)).length =
      if (cstring a).length = a.length then a.length + (cstring l).length
      else (cstring a).length := by
  have happend : cstring (a ++ l) = if (cstring a).length = a.length then a ++ cstring l
      else cstring a := List.takeWhile_append
  rw [happend]
  split
  · exact List.length_append
  · rfl

/-- `sprintf` puts the two texts one behind the other. -/
theorem getD_sprintf (ha : a.length = MAX_CHUNK_SIZE) (hl : l.length = MAX_CHUNK_SIZE) :
    (sprintf a l).getD i 0 = (cstring a ++ cstring l).getD i 0 := by
  have hka := length_cstring_le a
  have hkl := length_cstring_le l
  rw [sprintf, getD_fit]
  split
  case isTrue => rfl
  case isFalse hi =>
    rw [getD_of_le]
    rw [List.length_append]
    omega

/-- The bytes of the two texts behind one another. -/
theorem getD_texts :
    (cstring a ++ cstring l).getD i 0 =
      if i < (cstring a).length then a.getD i 0
      else if i - (cstring a).length < (cstring l).length then l.getD (i - (cstring a).length) 0
      else 0 := by
  rw [getD_append, getD_cstring, getD_cstring]
  split <;> rfl

/-- Two slices are equal if their bytes are. -/
theorem slice_eq_iff {size : Nat} (h : a.length = l.length) :
    slice a p size = slice l p size ↔ ∀ i < size, a.getD (p + i) 0 = l.getD (p + i) 0 := by
  have hbyte : ∀ (x : List UInt8) {i : Nat}, i < size →
      (slice x p size).getD i 0 = x.getD (p + i) 0 := by
    intro x i hi
    rw [slice, getD_take, if_pos hi, getD_drop]
  constructor
  · intro heq i hi
    rw [← hbyte a hi, ← hbyte l hi, heq]
  · intro hbytes
    have hlen : (slice a p size).length = (slice l p size).length := by
      simp only [slice, List.length_take, List.length_drop, h]
    refine ext_getD hlen fun i hi => ?_
    have hi' : i < size := Nat.lt_of_lt_of_le hi (List.length_take_le _ _)
    rw [hbyte a hi', hbyte l hi', hbytes i hi']

/-- A slice of a read is a read of the slice. -/
theorem slice_readAt {n : Nat} (h : p + size ≤ n) :
    slice (readAt file first n) p size = readAt file (first + p) size := by
  rw [slice, readAt, readAt, List.drop_take, List.take_take, List.drop_drop, Nat.min_eq_left]
  omega

/-- No byte but 0 of the request lies behind the first 0 of its two chunks. -/
def TextInside (p : Nat) (l : List UInt8) : Prop :=
  ∀ i < MAX_CHUNK_SIZE, (cstring l).length ≤ p + i → l.getD (p + i) 0 = 0

/-- A text that was moved forward out of its place is empty. -/
theorem length_second_eq_zero (ha : a.length = MAX_CHUNK_SIZE) (hl : l.length = MAX_CHUNK_SIZE)
    (hp : 0 < p) (hp' : p < MAX_CHUNK_SIZE) (hlt : (cstring a).length < MAX_CHUNK_SIZE)
    (h : ∀ i < MAX_CHUNK_SIZE, (sprintf a l).getD (p + i) 0 = (a ++ l).getD (p + i) 0) :
    (cstring l).length = 0 := by
  have hkl := length_cstring_le l
  simp only [getD_sprintf ha hl, getD_texts, getD_append (l := a), ha] at h
  by_contra hne
  have hhead : l.getD 0 0 ≠ 0 := getD_ne_zero (Nat.pos_of_ne_zero hne)
  -- the first byte of the second chunk was copied from further back
  have hback : MAX_CHUNK_SIZE - (cstring a).length < (cstring l).length := by
    by_contra hout
    have hbyte := h (MAX_CHUNK_SIZE - p) (by omega)
    have hindex : p + (MAX_CHUNK_SIZE - p) = MAX_CHUNK_SIZE := by omega
    rw [hindex, if_neg (by omega), if_neg hout, if_neg (Nat.lt_irrefl _), Nat.sub_self] at hbyte
    exact hhead hbyte.symm
  by_cases hend : (cstring l).length + (cstring a).length - MAX_CHUNK_SIZE < p
  · -- and so was the byte behind its text, which is 0
    have hbyte := h ((cstring l).length + (cstring a).length - p) (by omega)
    have hindex : p + ((cstring l).length + (cstring a).length - p) =
        (cstring l).length + (cstring a).length := by omega
    rw [hindex, if_neg (by omega), Nat.add_sub_cancel, if_neg (Nat.lt_irrefl _),
      if_neg (by omega)] at hbyte
    exact getD_ne_zero (by omega) hbyte.symm
  · -- the request has the 0 that ends the first text
    have hbyte := h ((cstring a).length - p) (by omega)
    have hindex : p + ((cstring a).length - p) = (cstring a).length := by omega
    rw [hindex, if_neg (Nat.lt_irrefl _), Nat.sub_self, if_pos (Nat.pos_of_ne_zero hne),
      if_pos hlt, getD_length_cstring] at hbyte
    exact hhead hbyte

/-- `sprintf` of two chunks, as far as a request between them goes. -/
theorem slice_sprintf_iff (ha : a.length = MAX_CHUNK_SIZE) (hl : l.length = MAX_CHUNK_SIZE)
    (hp : 0 < p) (hp' : p < MAX_CHUNK_SIZE) :
    slice (sprintf a l) p MAX_CHUNK_SIZE = slice (a ++ l) p MAX_CHUNK_SIZE ↔
      TextInside p (a ++ l) := by
  have hka := length_cstring_le a
  have hkl := length_cstring_le l
  have hlen : (sprintf a l).length = (a ++ l).length := by
    rw [sprintf, length_fit, List.length_append, ha, hl, Nat.two_mul]
  have hmoved := length_second_eq_zero ha hl hp hp'
  rw [slice_eq_iff hlen, TextInside, length_cstring_append]
  simp only [getD_sprintf ha hl, getD_texts, getD_append (l := a), ha] at hmoved ⊢
  by_cases hfull : (cstring a).length = MAX_CHUNK_SIZE
  · -- the first chunk is copied whole and the second one comes to its place
    rw [hfull, if_pos rfl]
    constructor
    · intro h i hi hbehind
      rw [← h i hi, if_neg (by omega), if_neg (by omega)]
    · intro h i hi
      by_cases hin : p + i < MAX_CHUNK_SIZE
      · rw [if_pos hin, if_pos hin]
      · rw [if_neg hin, if_neg hin]
        split
        case isTrue => rfl
        case isFalse hout =>
          have hzero := h i hi (by omega)
          rw [if_neg hin] at hzero
          exact hzero.symm
  · rw [if_neg hfull]
    have hlt : (cstring a).length < MAX_CHUNK_SIZE := by omega
    -- the second chunk is moved forward, which is seen unless it begins with a 0
    constructor
    · intro h
      have hempty := hmoved hlt h
      intro i hi hbehind
      rw [← h i hi, if_neg (by omega), if_neg (by omega)]
    · intro h i hi
      by_cases hin : p + i < (cstring a).length
      · rw [if_pos hin, if_pos (by omega)]
      · have hempty : (cstring l).length = 0 := by
          by_contra hne
          have hzero := h (MAX_CHUNK_SIZE - p) (by omega) (by omega)
          have hindex : p + (MAX_CHUNK_SIZE - p) - MAX_CHUNK_SIZE = 0 := by omega
          rw [if_neg (by omega), hindex] at hzero
          exact getD_ne_zero (Nat.pos_of_ne_zero hne) hzero
        rw [if_neg hin, if_neg (by omega), h i hi (by omega)]

/-! ## The two chunks -/

/-- The cached chunks of the file are clean copies of it. -/
structure CopiesFile (fd : Int) (s : State) : Prop extends Chunked fd s where
  clean : ∀ b ∈ s.list, b.fd = fd → b.dirty = false
  copies : ∀ b ∈ s.list, b.fd = fd → b.buf.bytes = s.preadBlock fd MAX_CHUNK_SIZE b.fromOffset

theorem CopiesFile.loaded (h : CopiesFile fd s) (conf : Conf) :
    CopiesFile fd (s.loadPolicyFromFile conf) :=
  { h.toChunked.quiet (quiet_loadPolicyFromFile s conf) with
    clean := h.clean
    copies := h.copies }

/-- The file reaches that far. -/
theorem preadBlock_eq_readAt (hf : s.disk.fds fd = some f) (hr : f.readable = true)
    (hend : start + size ≤ (s.disk.files f.ino).length) :
    s.preadBlock fd size start = readAt (s.disk.files f.ino) start size := by
  apply ext_getD
  · rw [length_preadBlock, length_readAt]
    omega
  · intro i hi
    rw [getD_preadBlock hf hr, getD_readAt]

/-- The block from which a cached read copies its bytes. -/
def State.joined (s : State) (fd : Int) (first : Nat) : List UInt8 :=
  let firstChunk := s.preadBlock fd MAX_CHUNK_SIZE first
  let secondChunk := s.preadBlock fd MAX_CHUNK_SIZE (first + MAX_CHUNK_SIZE : Nat)
  if Resident s fd first then sprintf firstChunk secondChunk
  else if Resident s fd (first + MAX_CHUNK_SIZE : Nat) then sprintf secondChunk secondChunk
  else firstChunk ++ secondChunk

/-- Under the policy 2 a part that was found is not freed before it is copied. -/
theorem deref_part {rest : List FileBuffer} {buf stale : List UInt8} {from' to' : Int}
    (hn : Nodes s) (hl : s.list = b :: rest) (hlru : s.policy.cachePolicy = 2)
    (hc : KeepsLru conf) :
    (s.addFileBuffer conf rand buf from' to' fd).deref b stale = b.buf.bytes := by
  refine deref_front hn.bufferCount hn.addFileBuffer.ids hl ?_
  rintro ⟨-, hpol, -⟩
  exact absurd (hpol.symm.trans (hc.load hlru)) (by decide)

/-- A cached read across two chunks returns its part of what the join of the two has. -/
theorem CopiesFile.cachedRead (h : CopiesFile fd s) (hf : s.disk.fds fd = some f)
    (hr : f.readable = true) (hlru : s.policy.cachePolicy = 2) (hc : KeepsLru env.evict₁.1)
    (ho : offset < 2 ^ 31 - 8192) (hp : offset % MAX_CHUNK_SIZE ≠ 0)
    (hfirst : first + offset % MAX_CHUNK_SIZE = offset) :
    (s.cachedRead env fd MAX_CHUNK_SIZE offset).1 =
      slice (s.joined fd first) (offset % MAX_CHUNK_SIZE) MAX_CHUNK_SIZE := by
  have hmeets := h.meets ho hp hfirst
  obtain ⟨hperm, hn⟩ := @Nodes.bufferHitCheck s fd (toInt offset) MAX_CHUNK_SIZE h.toNodes
  have hres := @Nodes.resident_lookup s fd (toInt offset) MAX_CHUNK_SIZE h.toNodes
  have hdisk : (s.bufferHitCheck (toInt offset) MAX_CHUNK_SIZE fd).2.disk = s.disk := rfl
  have hpol : (s.bufferHitCheck (toInt offset) MAX_CHUNK_SIZE fd).2.policy = s.policy := rfl
  obtain ⟨-, hint, hint', -⟩ := int_bounds ho hfirst
  have hstart : (offset : Int) - (offset % MAX_CHUNK_SIZE : Nat) = first := by omega
  have hsecond : toInt (first + MAX_CHUNK_SIZE : Nat) = (first + MAX_CHUNK_SIZE : Nat) :=
    (congrArg toInt (Int.natCast_add _ _)).trans hint'
  rw [State.joined, State.cachedRead, State.cachedReadWith]
  generalize s.bufferHitCheck (toInt offset) MAX_CHUNK_SIZE fd = r at *
  obtain ⟨info, s₁⟩ := r
  dsimp only at hmeets hperm hn hres hdisk hpol
  -- what is cached is what would be read
  have hcopy : ∀ {b : FileBuffer} {start : Nat}, b ∈ s₁.list → b.StartsAt fd start →
      b.buf.bytes = s.preadBlock fd MAX_CHUNK_SIZE start := by
    intro b start hb hbs
    rw [h.copies b (hperm.mem_iff.1 hb) hbs.1, hbs.2]
  have hread : ∀ {size : Nat} {start : Int},
      s₁.preadBlock fd size start = s.preadBlock fd size start := preadBlock_congr hdisk fd _ _
  cases hmeets with
  | @both b x hb hx hbs hxs =>
    -- nothing is read
    rw [if_pos (hres.1 ⟨b, hb, hbs⟩), ← hcopy hb hbs, ← hcopy hx hxs]
  | @first b rest hl hbs hto hno =>
    have hb : b ∈ s₁.list := hl ▸ List.mem_cons_self
    rw [if_pos (hres.1 ⟨b, hb, hbs⟩)]
    dsimp only
    rw [deref_part (hn.quiet (quiet_pread ..)) hl (hpol ▸ hlru) hc, hto, hread, hcopy hb hbs]
  | @second x rest hl hxs hto hno =>
    have hx : x ∈ s₁.list := hl ▸ List.mem_cons_self
    rw [if_neg (mt hres.2 hno), if_pos (hres.1 ⟨x, hx, hxs⟩)]
    -- the end of the second part less one chunk is where it starts
    dsimp only
    rw [deref_part (hn.quiet (quiet_pread ..)) hl (hpol ▸ hlru) hc, hto, Int.add_sub_cancel,
      hsecond, hread, hcopy hx hxs]
  | neither hno hno' =>
    -- one `pread` of both chunks, with no `sprintf`
    rw [if_neg (mt hres.2 hno), if_neg (mt hres.2 hno')]
    dsimp only
    rw [if_neg hp, hstart, hint, hread, preadBlock_two hf hr]

/-! ## Without encryption -/

/-- Nothing is encrypted. -/
structure Unencrypted (s : State) : Prop extends Nodes s where
  plain : s.policy.encryptEnabled = false

theorem Unencrypted.pread (h : Unencrypted s) (fd : Int) (size : Nat) (start : Int) :
    Unencrypted (s.record (.pread fd size start)) :=
  ⟨h.toNodes.quiet (quiet_pread s fd size start), h.plain⟩

/-- An insertion that reads a plain configuration leaves encryption off. -/
theorem Unencrypted.addFileBuffer {buf : List UInt8} {from' to' : Int} (h : Unencrypted s)
    (hc : Plain conf) : Unencrypted (s.addFileBuffer conf rand buf from' to' fd) := by
  have hadd := h.toNodes.adds_buffer conf rand buf from' to' fd
  exact ⟨h.toNodes.addFileBuffer, hadd.plain hc h.plain⟩

/-- Every step of a request with plain configurations leaves encryption off. -/
theorem unencrypted_keptBy (hc₁ : Plain env.evict₁.1) (hc₂ : Plain env.evict₂.1) :
    KeptBy env Unencrypted where
  pread h := h.pread
  setBuf h b buf := ⟨h.toNodes.quiet (quiet_setBuf _ b buf), h.plain⟩
  setDirty h b := ⟨h.toNodes.quiet (quiet_setDirty _ b), h.plain⟩
  add₁ h _ _ _ _ := h.addFileBuffer hc₁
  add₂ h _ _ _ _ := h.addFileBuffer hc₂

/-- A read across two chunks returns its part of what the join of the two has. -/
theorem CopiesFile.bb_read (h : CopiesFile fd s) (hf : s.disk.fds fd = some f)
    (hr : f.readable = true) (hlru : (s.event env (.read fd MAX_CHUNK_SIZE offset)).Lru)
    (hplain : (s.loadPolicyFromFile env.conf).policy.encryptEnabled = false)
    (hc₁ : Plain env.evict₁.1) (hc₂ : Plain env.evict₂.1) (ho : offset < 2 ^ 31 - 8192)
    (hp : offset % MAX_CHUNK_SIZE ≠ 0) (hfirst : first + offset % MAX_CHUNK_SIZE = offset) :
    (s.bb_read env fd MAX_CHUNK_SIZE offset).1 =
      { ret := MAX_CHUNK_SIZE
        buf := slice (s.joined fd first) (offset % MAX_CHUNK_SIZE) MAX_CHUNK_SIZE } := by
  have hpol : (s.loadPolicyFromFile env.conf).policy.cachePolicy = 2 := hlru.1
  have hs := h.loaded env.conf
  have huse : (s.loadPolicyFromFile env.conf).policy.cachePolicy ≠ 0 := by
    rw [hpol]
    decide
  have hread : ((s.loadPolicyFromFile env.conf).cachedRead env fd MAX_CHUNK_SIZE offset).1 =
      slice (s.joined fd first) (offset % MAX_CHUNK_SIZE) MAX_CHUNK_SIZE :=
    hs.cachedRead hf hr hpol hlru.2.1 ho hp hfirst
  have hend : Unencrypted
      ((s.loadPolicyFromFile env.conf).cachedRead env fd MAX_CHUNK_SIZE offset).2 :=
    (unencrypted_keptBy hc₁ hc₂).cachedRead ⟨hs.toNodes.bufferHitCheck.2, hplain⟩
  rw [bb_read_cached huse]
  dsimp only
  rw [hread, Policy.decrypt, hend.plain, if_neg Bool.false_ne_true]

/-! ## When a read is right -/

/-- What was joined is the file: behind the first 0 of the two chunks the request has zeros only, if
the first chunk is cached; it is the text of the second chunk twice, if that one alone is. -/
def JoinsRight (s : State) (fd : Int) (file : List UInt8) (offset : Nat) : Prop :=
  let p := offset % MAX_CHUNK_SIZE
  let chunks := readAt file (offset - p) (2 * MAX_CHUNK_SIZE)
  let text := cstring (readAt file (offset - p + MAX_CHUNK_SIZE) MAX_CHUNK_SIZE)
  (Resident s fd (offset - p : Nat) → TextInside p chunks) ∧
    (¬ Resident s fd (offset - p : Nat) → Resident s fd (offset - p + MAX_CHUNK_SIZE : Nat) →
      ∀ i < MAX_CHUNK_SIZE, (text ++ text).getD (p + i) 0 = chunks.getD (p + i) 0)

/-- A read without encryption under the policy 2, across two chunks inside of the file, returns the
bytes of the file exactly when the two chunks are joined right. -/
theorem unaligned_read_iff (h : CopiesFile fd s) (hf : s.disk.fds fd = some f)
    (hr : f.readable = true) (hlru : (s.event env (.read fd MAX_CHUNK_SIZE offset)).Lru)
    (hplain : (s.loadPolicyFromFile env.conf).policy.encryptEnabled = false)
    (hc₁ : Plain env.evict₁.1) (hc₂ : Plain env.evict₂.1) (ho : offset < 2 ^ 31 - 16384)
    (hp : offset % MAX_CHUNK_SIZE ≠ 0)
    (hend : offset - offset % MAX_CHUNK_SIZE + 2 * MAX_CHUNK_SIZE ≤
      (s.disk.files f.ino).length) :
    (s.bb_read env fd MAX_CHUNK_SIZE offset).1 =
        { ret := MAX_CHUNK_SIZE, buf := readAt (s.disk.files f.ino) offset MAX_CHUNK_SIZE } ↔
      JoinsRight s fd (s.disk.files f.ino) offset := by
  obtain ⟨first, hfirst⟩ := exists_first offset
  have hmod : offset % MAX_CHUNK_SIZE < MAX_CHUNK_SIZE := Nat.mod_lt _ (by decide)
  have hstart : offset - offset % MAX_CHUNK_SIZE = first := by omega
  rw [hstart] at hend
  -- the chunks that are joined are chunks of the file
  have hsecond := @preadBlock_eq_readAt s fd f (first + MAX_CHUNK_SIZE) MAX_CHUNK_SIZE hf hr
    (by omega)
  have hchunks : readAt (s.disk.files f.ino) first (2 * MAX_CHUNK_SIZE) =
      s.preadBlock fd MAX_CHUNK_SIZE first ++
        s.preadBlock fd MAX_CHUNK_SIZE (first + MAX_CHUNK_SIZE : Nat) :=
    (preadBlock_eq_readAt hf hr hend).symm.trans (preadBlock_two hf hr first)
  rw [h.bb_read hf hr hlru hplain hc₁ hc₂ (by omega) hp hfirst, JoinsRight]
  have hbytes : readAt (s.disk.files f.ino) offset MAX_CHUNK_SIZE =
      slice (readAt (s.disk.files f.ino) first (2 * MAX_CHUNK_SIZE)) (offset % MAX_CHUNK_SIZE)
        MAX_CHUNK_SIZE := by
    rw [slice_readAt (by omega), hfirst]
  have hlen := length_preadBlock s fd MAX_CHUNK_SIZE first
  have hlen' := length_preadBlock s fd MAX_CHUNK_SIZE (first + MAX_CHUNK_SIZE : Nat)
  simp only [Result.mk.injEq, true_and]
  rw [hstart, hbytes, hchunks, ← hsecond, State.joined]
  generalize s.preadBlock fd MAX_CHUNK_SIZE first = a at *
  generalize s.preadBlock fd MAX_CHUNK_SIZE (first + MAX_CHUNK_SIZE : Nat) = l at *
  by_cases hres : Resident s fd first
  · rw [if_pos hres, slice_sprintf_iff hlen hlen' (Nat.pos_of_ne_zero hp) hmod]
    exact ⟨fun h => ⟨fun _ => h, absurd hres⟩, fun h => h.1 hres⟩
  · rw [if_neg hres]
    by_cases hres' : Resident s fd (first + MAX_CHUNK_SIZE : Nat)
    · have hsize : (sprintf l l).length = (a ++ l).length := by
        rw [sprintf, length_fit, List.length_append, hlen, hlen', Nat.two_mul]
      rw [if_pos hres', slice_eq_iff hsize]
      simp only [getD_sprintf hlen' hlen']
      exact ⟨fun h => ⟨fun hone => absurd hone hres, fun _ _ => h⟩, fun h => h.2 hres hres'⟩
    · rw [if_neg hres']
      exact ⟨fun _ => ⟨fun hone => absurd hone hres, fun _ htwo => absurd htwo hres'⟩,
        fun _ => rfl⟩

/-- A block without 0 is text. -/
theorem textInside_of_not_mem (h : 0 ∉ l) : TextInside p l := by
  have htext : cstring l = l := by
    rw [cstring, List.takeWhile_eq_self_iff]
    intro b hb
    simpa using fun hzero : b = 0 => h (hzero ▸ hb)
  intro i _ hbehind
  rw [htext] at hbehind
  exact getD_of_le hbehind

/-- Two chunks of text. -/
def textFile : List UInt8 :=
  List.replicate MAX_CHUNK_SIZE 1 ++ List.replicate MAX_CHUNK_SIZE 2

theorem length_textFile : textFile.length = 2 * MAX_CHUNK_SIZE := by
  simp [textFile, Nat.two_mul]

theorem not_mem_textFile : 0 ∉ textFile := by
  simp [textFile]

/-- One of the chunks is read. -/
def chunkCached (offset : Nat) : State :=
  ((mount (oneFile textFile)).event (plainEnv 2) (.read 3 MAX_CHUNK_SIZE offset)).after

theorem copiesFile_chunkCached : CopiesFile 3 (chunkCached 0) ∧
    CopiesFile 3 (chunkCached MAX_CHUNK_SIZE) := by
  have hcopies : ∀ start ∈ [0, MAX_CHUNK_SIZE], ∀ b ∈ (chunkCached start).list,
      b.buf.bytes = (chunkCached start).preadBlock 3 MAX_CHUNK_SIZE b.fromOffset := by
    intro start hstart b hb
    have hlist : (chunkCached start).list =
        [newBuffer 0 3 start ((mount (oneFile textFile)).preadBlock 3 MAX_CHUNK_SIZE start)] := by
      rcases List.mem_pair.1 hstart with rfl | rfl <;> rfl
    rw [hlist, List.mem_singleton] at hb
    subst hb
    have hdisk : (chunkCached start).disk = (mount (oneFile textFile)).disk := by
      rcases List.mem_pair.1 hstart with rfl | rfl <;> rfl
    rw [preadBlock_congr hdisk]
    exact fit_of_length (length_preadBlock ..)
  refine ⟨?_, ?_⟩ <;>
    exact {
      ids := by decide +kernel
      allocated := by decide +kernel
      bufferCount := by decide +kernel
      le := by decide +kernel
      aligned := by unfold FileBuffer.Aligned; decide +kernel
      unique := by decide +kernel
      clean := by decide +kernel
      copies := fun b hb _ => hcopies _ (by decide) b hb }

/-- A text is read whose first chunk is cached. -/
theorem unaligned_read_iff_text :
    ((chunkCached 0).bb_read (plainEnv 2) 3 MAX_CHUNK_SIZE 1).1 =
      { ret := MAX_CHUNK_SIZE, buf := readAt textFile 1 MAX_CHUNK_SIZE } := by
  refine (unaligned_read_iff (f := ⟨0, true, true⟩) copiesFile_chunkCached.1 rfl rfl
    (by decide +kernel) (by decide +kernel) (by decide) (by decide) (by decide) (by decide)
    (Nat.le_of_eq length_textFile.symm)).2
    ⟨fun _ => ?_, fun hno => absurd hno (by decide +kernel)⟩
  refine textInside_of_not_mem fun hmem => not_mem_textFile ?_
  exact List.mem_of_mem_drop (List.mem_of_mem_take hmem)

/-- The first chunk is missing, and the second one is returned in its place. -/
theorem second_chunk_read_twice :
    ¬ ∀ (s : State) (env : Env) (fd : Int) (f : OpenFile) (offset : Nat), CopiesFile fd s →
      s.disk.fds fd = some f → f.readable = true →
      (s.event env (.read fd MAX_CHUNK_SIZE offset)).Lru →
      (s.loadPolicyFromFile env.conf).policy.encryptEnabled = false →
      Plain env.evict₁.1 → Plain env.evict₂.1 → offset % MAX_CHUNK_SIZE ≠ 0 →
      offset - offset % MAX_CHUNK_SIZE + 2 * MAX_CHUNK_SIZE ≤ 2 ^ 31 - 16384 →
      offset - offset % MAX_CHUNK_SIZE + 2 * MAX_CHUNK_SIZE ≤ (s.disk.files f.ino).length →
      (s.bb_read env fd MAX_CHUNK_SIZE offset).1 =
        { ret := MAX_CHUNK_SIZE, buf := readAt (s.disk.files f.ino) offset MAX_CHUNK_SIZE } := by
  intro hall
  have hread := hall (chunkCached MAX_CHUNK_SIZE) (plainEnv 2) 3 ⟨0, true, true⟩ 1
    copiesFile_chunkCached.2 rfl rfl (by decide +kernel) (by decide +kernel) (by decide) (by decide)
    (by decide) (by decide) (Nat.le_of_eq length_textFile.symm)
  exact absurd hread (by decide +kernel)

end EE516.Bbfs
