import EE516.Bbfs.PointerNodes

/-!
# The cache in memory is the cache as a list

Every call does to the memory what it does to the list. So no run meets a fault: no pointer to a
node is followed to freed memory, except for the copies in `bb_read` after an insertion, no node is
freed twice and none is lost. The temporary blocks are freed by the call that allocated them, apart
from one: a `bb_write` that goes through the cache leaves its `intermediateBuf` behind.
-/

set_option autoImplicit false

namespace EE516.Bbfs

open Foundations KernelList

variable {ps qs : List (Addr × FileBuffer)} {b : FileBuffer} {m m' : Memory} {s s' : State}
variable {q : Option Addr} {start fd : Int} {fuel size offset : Nat} {conf : Conf}
variable {env : PtrEnv} {buf intermediateBuf : List UInt8}

/-! ## Temporary blocks -/

theorem Realises.callocBlock (hm : Realises m ps s) : Realises m.callocBlock ps s :=
  ⟨⟨hm.layout, hm.list, hm.bufferCount, hm.accessCount, hm.hitCount, hm.missCount, hm.policy,
    hm.disk⟩, hm.nodes⟩

/-- A block that is allocated can be freed, and no node is touched. -/
theorem freeBlock_run {n : Nat} (hm : Realises m ps s) (hblocks : m.blocks = n + 1) :
    ∃ m', m.freeBlock = some m' ∧ Realises m' ps s ∧ m'.blocks = n := by
  have hne : ¬ m.blocks = 0 := by omega
  have hpred : m.blocks - 1 = n := by omega
  exact ⟨_, if_neg hne, ⟨⟨hm.layout, hm.list, hm.bufferCount, hm.accessCount, hm.hitCount,
    hm.missCount, hm.policy, hm.disk⟩, hm.nodes⟩, hpred⟩

theorem freeBlock_callocBlock (m : Memory) : m.callocBlock.freeBlock = some m := rfl

theorem preadBlock_callocBlock (m : Memory) (fd : Int) (size : Nat) (start : Int) :
    m.callocBlock.preadBlock fd size start = m.preadBlock fd size start := rfl

theorem pwrite_callocBlock (m : Memory) (fd : Int) (buf : List UInt8) (offset : Nat) :
    m.callocBlock.pwrite fd buf offset =
      some (match m.disk.pwrite fd buf offset with
        | .ok _ => buf.length
        | .error errno => -errno,
      { m with disk := m.disk.written fd buf offset }) := rfl

theorem deref_callocBlock (m : Memory) (q : Option Addr) (stale : List UInt8) :
    m.callocBlock.deref q stale = m.deref q stale := rfl

/-! ## The calls in memory -/

/-- A read stores the same in memory as in the model of the list. -/
theorem Stores.preadBlock (hm : Stores m ps s) :
    m.preadBlock fd size start = s.preadBlock fd size start := by
  have hread : ∀ d, d = s.disk →
      { m with disk := d }.preadBlock fd size start = s.preadBlock fd size start := by
    rintro d rfl
    rfl
  exact hread m.disk hm.disk

theorem Realises.quiet (hm : Realises m ps s) (hs : Stores m ps s') (hq : Quiet s s') :
    Realises m ps s' :=
  ⟨hs, hm.nodes.quiet hq⟩

theorem Realises.pread (fd : Int) (size : Nat) (start : Int) (hm : Realises m ps s) :
    Realises m ps (s.record (.pread fd size start)) :=
  hm.quiet ⟨hm.layout, hm.list, hm.bufferCount, hm.accessCount, hm.hitCount, hm.missCount,
    hm.policy, hm.disk⟩ (quiet_pread s fd size start)

theorem Realises.loadPolicyFromFile (conf : Conf) (hm : Realises m ps s) :
    Realises (m.loadPolicyFromFile conf) ps (s.loadPolicyFromFile conf) where
  layout := hm.layout
  list := hm.list
  bufferCount := hm.bufferCount
  accessCount := hm.accessCount
  hitCount := hm.hitCount
  missCount := hm.missCount
  policy := congrArg (fun p => p.loadPolicyFromFile conf) hm.policy
  disk := hm.disk
  nodes := hm.nodes.quiet (quiet_loadPolicyFromFile s conf)

/-- What a pointer leads to after an insertion: its buffer, or what the freed memory holds now. -/
theorem deref_run {stale : List UInt8} (hm : Realises m qs s) (hkept : Outlived ps qs)
    (hq : At ps q b) :
    s.deref b (m.deref q stale) = m.deref q stale := by
  obtain ⟨a, rfl, hmem⟩ := hq
  rw [State.deref]
  rcases hkept _ hmem with hin | hout
  · have hb : b ∈ s.list := by
      rw [hm.list]
      exact List.mem_map_of_mem (f := Prod.snd) hin
    have hfind : (s.list.find? fun c => c.id = b.id) = some b := by
      cases hc : s.list.find? fun c => c.id = b.id with
      | none => simpa using List.find?_eq_none.1 hc b hb
      | some c =>
        have hid : c.id = b.id := by simpa using List.find?_some hc
        rw [eq_of_id_eq hm.nodes.ids (List.mem_of_find?_eq_some hc) hb hid]
    rw [hfind, Memory.deref, hm.layout.follow ⟨a, rfl, hin⟩]
    rfl
  · have hnone : (s.list.find? fun c => c.id = b.id) = none := by
      rw [List.find?_eq_none]
      intro c hc
      rw [hm.list, List.mem_map] at hc
      obtain ⟨r, hr, rfl⟩ := hc
      simpa using hout r hr
    rw [hnone]

theorem add₁_run (hm : Realises m ps s) (hfuel : MAX_LIST_SIZE < fuel) (henv : env.Lawful)
    (buf : List UInt8) (start stop fd : Int) :
    ∃ m' qs, m.add₁ fuel env buf start stop fd = some m' ∧
      Realises m' qs (s.addFileBuffer env.evict₁.1 env.evict₁.2 buf start stop fd) ∧
        Outlived ps qs ∧ m'.blocks = m.blocks :=
  addFileBuffer_run hm hfuel henv

theorem add₂_run (hm : Realises m ps s) (hfuel : MAX_LIST_SIZE < fuel) (henv : env.Lawful)
    (buf : List UInt8) (start stop fd : Int) :
    ∃ m' qs, m.add₂ fuel env buf start stop fd = some m' ∧
      Realises m' qs (s.addFileBuffer env.evict₂.1 env.evict₂.2 buf start stop fd) ∧
        Outlived ps qs ∧ m'.blocks = m.blocks :=
  addFileBuffer_run hm hfuel henv

/-- A cached read in memory returns what the one on the list does, and frees its blocks. -/
theorem cachedRead_run (fd : Int) (size offset : Nat) (hm : Realises m ps s)
    (hfuel : MAX_LIST_SIZE < fuel) (henv : env.Lawful) :
    ∃ buf m' qs s' stale, m.cachedRead fuel env fd size offset = some (((size : Int), buf), m') ∧
      s.cachedRead { env.toEnv with stale } fd size offset = (buf, s') ∧ Realises m' qs s' ∧
        m'.blocks = m.blocks := by
  obtain ⟨ret, m₁, qs, hhit, hm₁, hreports, hblocks⟩ :=
    bufferHitCheck_run (toInt offset) size fd hm hfuel
  rcases hlookup : s.bufferHitCheck (toInt offset) size fd with ⟨info, s₁⟩
  rw [hlookup] at hm₁ hreports
  simp only [Memory.cachedRead, hhit, State.cachedRead, State.cachedReadWith, hlookup,
    Option.bind_eq_bind, Option.bind_some]
  cases info with
  | PERFECT_HIT b =>
    obtain ⟨htype, hb⟩ := hreports
    refine ⟨_, m₁, qs, _, env.stale, ?_, rfl, hm₁, hblocks⟩
    simp only [htype, hm₁.layout.follow hb, Option.bind_some, FileBuffer.contents_buf]
  | PARTIAL_HIT b c =>
    obtain ⟨htype, hb, hc⟩ := hreports
    refine ⟨_, m₁, qs, _, env.stale, ?_, rfl, hm₁, hblocks⟩
    simp only [htype, hm₁.layout.follow hb, hm₁.layout.follow hc, Option.bind_some,
      FileBuffer.contents_buf, freeBlock_callocBlock]
  | PARTIAL_MISS_FIRST b =>
    obtain ⟨htype, h₀, hb⟩ := hreports
    -- the part that was found may be freed by the insertion: `stale` is what is read then
    obtain ⟨m₂, rs, hadd, hm₂, hkept, hblocks₂⟩ := add₁_run
      (hm₁.pread fd size b.toOffset).callocBlock hfuel henv
      (s₁.preadBlock fd size b.toOffset) b.toOffset (toInt (b.toOffset + size)) fd
    obtain ⟨m₃, hfree, hm₃, hblocks₃⟩ := freeBlock_run hm₂ hblocks₂
    refine ⟨_, m₃, rs, _, m₂.deref ret.firstpart env.stale, ?_, rfl, hm₃, hblocks₃.trans hblocks⟩
    simp only [htype, h₀, if_true, hm₁.layout.follow hb, Option.bind_some,
      FileBuffer.contents_toOffset, preadBlock_callocBlock, hm₁.preadBlock, hadd,
      deref_callocBlock, deref_run hm₂ hkept hb, freeBlock_callocBlock, hfree]
  | PARTIAL_MISS_SECOND c =>
    obtain ⟨htype, h₀, h₁, hc⟩ := hreports
    obtain ⟨m₂, rs, hadd, hm₂, hkept, hblocks₂⟩ := add₁_run
      (hm₁.pread fd size (toInt (c.toOffset - MAX_CHUNK_SIZE))).callocBlock hfuel henv
      (s₁.preadBlock fd size (toInt (c.toOffset - MAX_CHUNK_SIZE)))
      (toInt (c.toOffset - MAX_CHUNK_SIZE))
      (toInt (toInt (c.toOffset - MAX_CHUNK_SIZE) + size)) fd
    obtain ⟨m₃, hfree, hm₃, hblocks₃⟩ := freeBlock_run hm₂ hblocks₂
    refine ⟨_, m₃, rs, _, m₂.deref ret.secondpart env.stale, ?_, rfl, hm₃, hblocks₃.trans hblocks⟩
    simp only [htype, h₀, h₁, if_true, Bool.false_eq_true, if_false, hm₁.layout.follow hc,
      Option.bind_some, FileBuffer.contents_toOffset, preadBlock_callocBlock, hm₁.preadBlock, hadd,
      deref_callocBlock, deref_run hm₂ hkept hc, freeBlock_callocBlock, hfree]
  | PERFECT_MISS =>
    have htype : ret.type = .PERFECT_MISS := hreports
    by_cases hp : offset % MAX_CHUNK_SIZE = 0
    · obtain ⟨m₂, rs, hadd, hm₂, -, hblocks₂⟩ := add₁_run
        (hm₁.pread fd size (toInt offset)).callocBlock hfuel henv
        (s₁.preadBlock fd size (toInt offset)) (toInt offset) (toInt (toInt offset + size)) fd
      obtain ⟨m₃, hfree, hm₃, hblocks₃⟩ := freeBlock_run hm₂ hblocks₂
      refine ⟨_, m₃, rs, _, env.stale, ?_, if_pos hp, hm₃, hblocks₃.trans hblocks⟩
      simp only [htype, if_pos hp, preadBlock_callocBlock, hm₁.preadBlock, hadd, hfree,
        Option.bind_some]
    · obtain ⟨start, hstart⟩ : ∃ start, toInt (offset - (offset % MAX_CHUNK_SIZE : Nat)) = start :=
        ⟨_, rfl⟩
      obtain ⟨m₂, rs, hadd₁, hm₂, -, hblocks₂⟩ := add₁_run
        (hm₁.pread fd (2 * size) start).callocBlock hfuel henv
        (s₁.preadBlock fd (2 * size) start) start (toInt (start + size)) fd
      obtain ⟨m₃, rs', hadd₂, hm₃, -, hblocks₃⟩ := add₂_run hm₂ hfuel henv
        ((s₁.preadBlock fd (2 * size) start).drop size) (toInt (start + size))
        (toInt (start + size + size)) fd
      obtain ⟨m₄, hfree, hm₄, hblocks₄⟩ := freeBlock_run hm₃ (hblocks₃.trans hblocks₂)
      refine ⟨_, m₄, rs', _, env.stale, ?_, if_neg hp, ?_, hblocks₄.trans hblocks⟩
      · simp only [htype, if_neg hp, preadBlock_callocBlock, hm₁.preadBlock, hstart, hadd₁, hadd₂,
          hfree, Option.bind_some]
      · rw [hstart]
        exact hm₄

/-- A cached write in memory does what the one on the list does, and frees its blocks. -/
theorem cachedWrite_run (fd : Int) (intermediateBuf : List UInt8) (size offset : Nat)
    (hm : Realises m ps s) (hfuel : MAX_LIST_SIZE < fuel) (henv : env.Lawful) :
    ∃ m' qs, m.cachedWrite fuel env fd intermediateBuf size offset = some ((size : Int), m') ∧
      Realises m' qs (s.cachedWrite env.toEnv fd intermediateBuf size offset) ∧
        m'.blocks = m.blocks := by
  -- the lookup first; then each branch runs on pointers to the parts that it found
  obtain ⟨ret, m₁, qs, hhit, hm₁, hreports, hblocks⟩ :=
    bufferHitCheck_run (toInt offset) size fd hm hfuel
  rcases hlookup : s.bufferHitCheck (toInt offset) size fd with ⟨info, s₁⟩
  rw [hlookup] at hm₁ hreports
  simp only [Memory.cachedWrite, hhit, State.cachedWrite, hlookup, Option.bind_eq_bind,
    Option.bind_some]
  cases info with
  | PERFECT_HIT b =>
    obtain ⟨htype, hb⟩ := hreports
    obtain ⟨m₂, rs, hbuf, hm₂, hleads, hblocks₂⟩ := setBuf_run intermediateBuf hm₁ hb.leads
    obtain ⟨m₃, rs', hdirty, hm₃, -, hblocks₃⟩ := setDirty_run hm₂ (hleads _ _ hb.leads)
    refine ⟨m₃, rs', ?_, hm₃, hblocks₃.trans (hblocks₂.trans hblocks)⟩
    simp only [htype, hbuf, hdirty, Option.bind_some]
  | PARTIAL_HIT b c =>
    obtain ⟨htype, hb, hc⟩ := hreports
    obtain ⟨totalbuf, htotal⟩ : ∃ totalbuf, overlay (sprintf b.buf.bytes c.buf.bytes)
        (offset % MAX_CHUNK_SIZE) intermediateBuf = totalbuf := ⟨_, rfl⟩
    -- the pointers stay good through the two copies and the two marks
    obtain ⟨m₂, rs₂, hbuf₁, hm₂, hleads₁, hblocks₂⟩ :=
      setBuf_run totalbuf hm₁.callocBlock hb.leads
    obtain ⟨m₃, rs₃, hbuf₂, hm₃, hleads₂, hblocks₃⟩ :=
      setBuf_run (totalbuf.drop MAX_CHUNK_SIZE) hm₂ (hleads₁ _ _ hc.leads)
    obtain ⟨m₄, rs₄, hdirty₁, hm₄, hleads₃, hblocks₄⟩ :=
      setDirty_run hm₃ (hleads₂ _ _ (hleads₁ _ _ hb.leads))
    obtain ⟨m₅, rs₅, hdirty₂, hm₅, -, hblocks₅⟩ :=
      setDirty_run hm₄ (hleads₃ _ _ (hleads₂ _ _ (hleads₁ _ _ hc.leads)))
    have hone : m₅.blocks = m₁.blocks + 1 :=
      hblocks₅.trans (hblocks₄.trans (hblocks₃.trans hblocks₂))
    obtain ⟨m₆, hfree, hm₆, hblocks₆⟩ := freeBlock_run hm₅ hone
    refine ⟨m₆, rs₅, ?_, ?_, hblocks₆.trans hblocks⟩
    · simp only [htype, hm₁.layout.follow hb, hm₁.layout.follow hc, FileBuffer.contents_buf, htotal,
        hbuf₁, hbuf₂, hdirty₁, hdirty₂, hfree, Option.bind_some]
    · subst htotal
      exact hm₆
  | PARTIAL_MISS_FIRST b =>
    obtain ⟨htype, h₀, hb⟩ := hreports
    obtain ⟨totalbuf, htotal⟩ : ∃ totalbuf,
        overlay (sprintf b.buf.bytes (s₁.preadBlock fd size b.toOffset))
          (offset % MAX_CHUNK_SIZE) intermediateBuf = totalbuf := ⟨_, rfl⟩
    obtain ⟨m₂, rs₂, hbuf, hm₂, hleads, hblocks₂⟩ := setBuf_run totalbuf
      (hm₁.pread fd size b.toOffset).callocBlock.callocBlock hb.leads
    obtain ⟨m₃, rs₃, hdirty, hm₃, -, hblocks₃⟩ := setDirty_run hm₂ (hleads _ _ hb.leads)
    obtain ⟨m₄, rs₄, hadd, hm₄, -, hblocks₄⟩ := add₁_run hm₃ hfuel henv (totalbuf.drop size)
      (toInt (b.toOffset + size)) (toInt (b.toOffset + size + size)) fd
    -- `tempbuf` and `totalbuf` are freed again
    have htwo : m₄.blocks = m₁.blocks + 1 + 1 := hblocks₄.trans (hblocks₃.trans hblocks₂)
    obtain ⟨m₅, hfree₁, hm₅, hblocks₅⟩ := freeBlock_run hm₄ htwo
    obtain ⟨m₆, hfree₂, hm₆, hblocks₆⟩ := freeBlock_run hm₅ hblocks₅
    refine ⟨m₆, rs₄, ?_, ?_, hblocks₆.trans hblocks⟩
    · simp only [htype, h₀, if_true, hm₁.layout.follow hb, FileBuffer.contents_buf,
        FileBuffer.contents_toOffset, preadBlock_callocBlock, hm₁.preadBlock, htotal, hbuf, hdirty,
        hadd, hfree₁, hfree₂, Option.bind_some]
    · subst htotal
      exact hm₆
  | PARTIAL_MISS_SECOND c =>
    obtain ⟨htype, h₀, h₁, hc⟩ := hreports
    obtain ⟨start, hstart⟩ : ∃ start, toInt (c.fromOffset - MAX_CHUNK_SIZE) = start := ⟨_, rfl⟩
    obtain ⟨totalbuf, htotal⟩ : ∃ totalbuf,
        overlay (sprintf (s₁.preadBlock fd size start) c.buf.bytes) (offset % MAX_CHUNK_SIZE)
          intermediateBuf = totalbuf := ⟨_, rfl⟩
    obtain ⟨m₂, rs₂, hbuf, hm₂, -, hblocks₂⟩ := setBuf_run (totalbuf.drop size)
      (hm₁.pread fd size start).callocBlock.callocBlock hc.leads
    obtain ⟨m₃, rs₃, hadd, hm₃, -, hblocks₃⟩ := add₁_run hm₂ hfuel henv totalbuf start
      (toInt (start + size)) fd
    have htwo : m₃.blocks = m₁.blocks + 1 + 1 := hblocks₃.trans hblocks₂
    obtain ⟨m₄, hfree₁, hm₄, hblocks₄⟩ := freeBlock_run hm₃ htwo
    obtain ⟨m₅, hfree₂, hm₅, hblocks₅⟩ := freeBlock_run hm₄ hblocks₄
    refine ⟨m₅, rs₃, ?_, ?_, hblocks₅.trans hblocks⟩
    · simp only [htype, h₀, h₁, if_true, Bool.false_eq_true, if_false, hm₁.layout.follow hc,
        FileBuffer.contents_buf, FileBuffer.contents_fromOffset, preadBlock_callocBlock,
        hm₁.preadBlock, hstart, htotal, hbuf, hadd, hfree₁, hfree₂, Option.bind_some]
    · subst hstart htotal
      exact hm₅
  | PERFECT_MISS =>
    have htype : ret.type = .PERFECT_MISS := hreports
    by_cases hp : offset % MAX_CHUNK_SIZE = 0
    · obtain ⟨m₂, rs, hadd, hm₂, -, hblocks₂⟩ := add₁_run
        (hm₁.pread fd size (toInt offset)).callocBlock hfuel henv
        (overlay (s₁.preadBlock fd size (toInt offset)) 0 intermediateBuf) (toInt offset)
        (toInt (toInt offset + size)) fd
      obtain ⟨m₃, hfree, hm₃, hblocks₃⟩ := freeBlock_run hm₂ hblocks₂
      refine ⟨m₃, rs, ?_, ?_, hblocks₃.trans hblocks⟩
      · simp only [htype, if_pos hp, preadBlock_callocBlock, hm₁.preadBlock, hadd, hfree,
          Option.bind_some]
      · simpa only [if_pos hp] using hm₃
    · obtain ⟨start, hstart⟩ : ∃ start, toInt (offset - (offset % MAX_CHUNK_SIZE : Nat)) = start :=
        ⟨_, rfl⟩
      obtain ⟨tempbuf, htemp⟩ : ∃ tempbuf, overlay (s₁.preadBlock fd (2 * size) start)
          (offset % MAX_CHUNK_SIZE) intermediateBuf = tempbuf := ⟨_, rfl⟩
      obtain ⟨m₂, rs, hadd₁, hm₂, -, hblocks₂⟩ := add₁_run
        (hm₁.pread fd (2 * size) start).callocBlock hfuel henv tempbuf start
        (toInt (start + size)) fd
      obtain ⟨m₃, rs', hadd₂, hm₃, -, hblocks₃⟩ := add₂_run hm₂ hfuel henv (tempbuf.drop size)
        (toInt (start + size)) (toInt (start + size + size)) fd
      obtain ⟨m₄, hfree, hm₄, hblocks₄⟩ := freeBlock_run hm₃ (hblocks₃.trans hblocks₂)
      refine ⟨m₄, rs', ?_, ?_, hblocks₄.trans hblocks⟩
      · simp only [htype, if_neg hp, preadBlock_callocBlock, hm₁.preadBlock, hstart, htemp, hadd₁,
          hadd₂, hfree, Option.bind_some]
      · subst hstart htemp
        simpa only [if_neg hp] using hm₄

/-- A read in memory returns what the one on the list does, and leaves no block. -/
theorem bb_read_run (fd : Int) (size offset : Nat) (hm : Realises m ps s)
    (hfuel : MAX_LIST_SIZE < fuel) (henv : env.Lawful) :
    ∃ r m' qs s' stale, m.bb_read fuel env fd size offset = some (r, m') ∧
      s.bb_read { env.toEnv with stale } fd size offset = (r, s') ∧ Realises m' qs s' ∧
        m'.blocks = m.blocks := by
  have hm₁ := hm.loadPolicyFromFile env.conf
  have hpolicy := hm₁.policy
  by_cases huse : (s.loadPolicyFromFile env.conf).policy.cachePolicy ≠ 0 ∧ size = MAX_CHUNK_SIZE
  · obtain ⟨buf, m₂, qs, s₂, stale, hread, hcached, hm₂, hblocks⟩ :=
      cachedRead_run fd size offset hm₁ hfuel henv
    have hstate : s.bb_read { env.toEnv with stale } fd size offset =
        ({ ret := size, buf := s₂.policy.decrypt buf }, s₂) := by
      rw [State.bb_read]
      simp only [if_pos huse, hcached]
    refine ⟨_, m₂, qs, s₂, stale, ?_, hstate, hm₂, hblocks⟩
    simp only [Memory.bb_read, hpolicy, if_pos huse, hread, Option.bind_eq_bind, Option.bind_some,
      hm₂.policy]
  · have hdisk : (m.loadPolicyFromFile env.conf).disk = (s.loadPolicyFromFile env.conf).disk :=
      hm₁.disk
    have hm₂ := hm₁.pread fd size offset
    cases hpread : (s.loadPolicyFromFile env.conf).disk.pread fd size offset with
    | ok buf =>
      have hstate : s.bb_read env.toEnv fd size offset =
          ({ ret := buf.length, buf := (s.loadPolicyFromFile env.conf).policy.decrypt buf },
            (s.loadPolicyFromFile env.conf).record (.pread fd size offset)) := by
        rw [State.bb_read]
        simp only [if_neg huse, hpread]
      refine ⟨_, _, ps, _, env.stale, ?_, hstate, hm₂, rfl⟩
      simp only [Memory.bb_read, hpolicy, if_neg huse, Memory.pread, hdisk, hpread,
        Option.bind_eq_bind, Option.bind_some]
    | error errno =>
      have hstate : s.bb_read env.toEnv fd size offset =
          ({ ret := -errno, buf := [] },
            (s.loadPolicyFromFile env.conf).record (.pread fd size offset)) := by
        rw [State.bb_read]
        simp only [if_neg huse, hpread]
      have hnil : (s.loadPolicyFromFile env.conf).policy.decrypt [] = [] := by
        simp [Policy.decrypt]
      refine ⟨_, _, ps, _, env.stale, ?_, hstate, hm₂, rfl⟩
      simp only [Memory.bb_read, hpolicy, if_neg huse, Memory.pread, hdisk, hpread,
        Option.bind_eq_bind, Option.bind_some, hnil]

/-- A write to a file leaves the nodes the buffers of the list. -/
theorem Realises.pwrite (fd : Int) (buf : List UInt8) (start : Int) (hm : Realises m ps s) :
    Realises { m with disk := m.disk.written fd buf start } ps (s.pwrite fd buf start) where
  layout := hm.layout
  list := hm.list
  bufferCount := hm.bufferCount
  accessCount := hm.accessCount
  hitCount := hm.hitCount
  missCount := hm.missCount
  policy := hm.policy
  disk := congrArg (fun d : Disk => d.written fd buf start) hm.disk
  nodes := hm.nodes.quiet (quiet_pwrite s fd buf start)

/-- A call that leaves its `intermediateBuf` allocated: a `bb_write` that goes through the cache. -/
def Leaks (m : Memory) (env : PtrEnv) : Call → Prop
  | .write _ buf _ =>
    (m.policy.loadPolicyFromFile env.conf).cachePolicy ≠ 0 ∧ buf.length = MAX_CHUNK_SIZE
  | _ => False

instance (m : Memory) (env : PtrEnv) : (call : Call) → Decidable (Leaks m env call)
  | .read .. => inferInstanceAs (Decidable False)
  | .write .. => inferInstanceAs (Decidable (_ ∧ _))
  | .release _ => inferInstanceAs (Decidable False)

/-- How many temporary blocks a call leaves allocated. -/
def leaked (m : Memory) (env : PtrEnv) (call : Call) : Nat :=
  if Leaks m env call then 1 else 0

/-- A write in memory does what the one on the list does, and leaves its `intermediateBuf` if it
goes through the cache. -/
theorem bb_write_run (fd : Int) (buf : List UInt8) (offset : Nat) (hm : Realises m ps s)
    (hfuel : MAX_LIST_SIZE < fuel) (henv : env.Lawful) :
    ∃ r m' qs s', m.bb_write fuel env fd buf offset = some (r, m') ∧
      s.bb_write env.toEnv fd buf offset = (r, s') ∧ Realises m' qs s' ∧
        m'.blocks = m.blocks + leaked m env (.write fd buf offset) := by
  have hm₁ := hm.loadPolicyFromFile env.conf
  have hpolicy := hm₁.policy
  obtain ⟨intermediateBuf, hbuf⟩ : ∃ intermediateBuf,
      (s.loadPolicyFromFile env.conf).policy.encrypt (strncpy buf buf.length) = intermediateBuf :=
    ⟨_, rfl⟩
  have hlen : intermediateBuf.length = buf.length := by
    rw [← hbuf, length_encrypt, strncpy, length_fit]
  have hpolicy' : (m.loadPolicyFromFile env.conf).callocBlock.policy =
      (s.loadPolicyFromFile env.conf).policy := hpolicy
  by_cases huse : (s.loadPolicyFromFile env.conf).policy.cachePolicy ≠ 0 ∧
      buf.length = MAX_CHUNK_SIZE
  · -- the branches of the cache jump over the last `free`
    obtain ⟨m₂, qs, hwrite, hm₂, hblocks⟩ := cachedWrite_run fd intermediateBuf buf.length
      offset hm₁.callocBlock hfuel henv
    have hstate : s.bb_write env.toEnv fd buf offset =
        ({ ret := buf.length, buf := [] }, (s.loadPolicyFromFile env.conf).cachedWrite env.toEnv fd
          intermediateBuf buf.length offset) := by
      rw [State.bb_write]
      simp only [if_pos huse, hbuf]
    have hleaked : leaked m env (.write fd buf offset) = 1 :=
      if_pos (by rwa [Leaks, hm.policy])
    refine ⟨_, m₂, qs, _, ?_, hstate, hm₂, ?_⟩
    · simp only [Memory.bb_write, hpolicy', hbuf, if_pos huse, hwrite, Option.bind_eq_bind,
        Option.bind_some]
    · rw [hleaked, hblocks]
      rfl
  · have hdisk : (m.loadPolicyFromFile env.conf).disk = (s.loadPolicyFromFile env.conf).disk :=
      hm₁.disk
    -- without the cache the block is freed, whatever `pwrite` returns
    have hm₂ := hm₁.pwrite fd intermediateBuf offset
    have hleaked : leaked m env (.write fd buf offset) = 0 :=
      if_neg (by rwa [Leaks, hm.policy])
    rw [hleaked]
    cases hpwrite : (s.loadPolicyFromFile env.conf).disk.pwrite fd intermediateBuf offset with
    | ok d =>
      have hstate : s.bb_write env.toEnv fd buf offset = ({ ret := buf.length, buf := [] },
          (s.loadPolicyFromFile env.conf).pwrite fd intermediateBuf offset) := by
        rw [State.bb_write]
        simp only [if_neg huse, hbuf, hpwrite]
      refine ⟨_, _, ps, _, ?_, hstate, hm₂, rfl⟩
      simp only [Memory.bb_write, hpolicy', hbuf, if_neg huse, pwrite_callocBlock, hdisk, hpwrite,
        hlen, Option.bind_eq_bind, Option.bind_some]
    | error errno =>
      have hstate : s.bb_write env.toEnv fd buf offset = ({ ret := -errno, buf := [] },
          (s.loadPolicyFromFile env.conf).pwrite fd intermediateBuf offset) := by
        rw [State.bb_write]
        simp only [if_neg huse, hbuf, hpwrite]
      refine ⟨_, _, ps, _, ?_, hstate, hm₂, rfl⟩
      simp only [Memory.bb_write, hpolicy', hbuf, if_neg huse, pwrite_callocBlock, hdisk, hpwrite,
        Option.bind_eq_bind, Option.bind_some]

/-- A release in memory does what the one on the list does. -/
theorem bb_release_run (fd : Int) (hm : Realises m ps s) (hfuel : MAX_LIST_SIZE < fuel) :
    ∃ r m' s', m.bb_release fuel fd = some (r, m') ∧ s.bb_release fd = (r, s') ∧
      Realises m' [] s' ∧ m'.blocks = m.blocks := by
  obtain ⟨m₁, hrun, hm₁, hblocks⟩ := releaseFileBuffer_run fd hm hfuel
  refine ⟨_, { m₁ with disk := m₁.disk.close fd }, _, ?_, rfl, ⟨⟨hm₁.layout, hm₁.list,
    hm₁.bufferCount, hm₁.accessCount, hm₁.hitCount, hm₁.missCount, hm₁.policy,
    congrArg (fun d : Disk => d.close fd) hm₁.disk⟩, ?_⟩, hblocks⟩
  · simp only [Memory.bb_release, hrun, hm₁.disk, Option.bind_eq_bind, Option.bind_some]
  · exact ⟨hm₁.nodes.ids, hm₁.nodes.allocated, hm₁.nodes.bufferCount, hm₁.nodes.le⟩

/-- Every call goes through, and does to the memory what it does to the list. -/
theorem perform_run (hm : Realises m ps s) (hfuel : MAX_LIST_SIZE < fuel) (henv : env.Lawful)
    (call : Call) :
    ∃ r m' qs s' stale, m.perform fuel env call = some (r, m') ∧
      s.perform { env.toEnv with stale } call = (r, s') ∧ Realises m' qs s' ∧
        m'.blocks = m.blocks + leaked m env call := by
  cases call with
  | read fd size offset => exact bb_read_run fd size offset hm hfuel henv
  | write fd buf offset =>
    obtain ⟨r, m', qs, s', hrun, hstate, hm', hblocks⟩ :=
      bb_write_run fd buf offset hm hfuel henv
    exact ⟨r, m', qs, s', env.stale, hrun, hstate, hm', hblocks⟩
  | release fd =>
    obtain ⟨r, m', s', hrun, hstate, hm', hblocks⟩ := bb_release_run fd hm hfuel
    exact ⟨r, m', [], s', env.stale, hrun, hstate, hm', hblocks⟩

/-! ## Runs in memory -/

/-- After `main` the list is empty and no block is allocated. -/
theorem main_run (headptr : Addr) (d : Disk) :
    ∃ m, Memory.main headptr d = some m ∧ Realises m [] (mount d) ∧ m.blocks = 0 := by
  let heap₀ : Heap Addr := Function.update (fun _ => none) headptr (some ⟨.NULL, .NULL⟩)
  have hnone : Represents heap₀ fun _ => none :=
    ⟨fun h => (by cases h), fun h => (by cases h)⟩
  obtain ⟨heap, hinit, hlists, hlive⟩ := INIT_LIST_HEAD_lists hnone
    (a := headptr) (by simp [heap₀]) fun k l hk => by cases hk
  refine ⟨{
    headptr
    links := heap
    buffers := fun _ => none
    blocks := 0
    bufferCount := 0
    accessCount := 0
    hitCount := 0
    missCount := 0
    policy := .start
    disk := d }, ?_, ?_, rfl⟩
  · simp only [Memory.main]
    rw [hinit]
    rfl
  · refine ⟨⟨⟨hlists, fun p hp => absurd hp List.not_mem_nil, fun a ha => absurd rfl ha, ?_⟩,
      rfl, rfl, rfl, rfl, rfl, rfl, rfl⟩, (fresh_mount d).nodes⟩
    intro a ha
    by_contra hne
    rw [List.map_nil, List.mem_singleton] at hne
    refine ha ?_
    simpa [heap₀, hne] using hlive a

/-- The same call with the same result, in the same surroundings apart from what freed memory
holds. -/
def Matches (e : PtrEvent) (e' : Event) : Prop :=
  e'.call = e.call ∧ e'.result = e.result ∧ ∃ stale, e'.env = { e.env.toEnv with stale }

/-- A call that finds lawful surroundings. -/
def LawfulStep (fuel : Nat) (m : Memory) (e : PtrEvent) (m' : Memory) : Prop :=
  StepBy (Memory.step fuel) m e m' ∧ e.env.Lawful

/-- Every call in memory is one on the list. -/
theorem lawfulStep_run (hm : Realises m ps s) (hfuel : MAX_LIST_SIZE < fuel) {e : PtrEvent}
    (hstep : LawfulStep fuel m e m') :
    (∃ e' s' qs, StepBy step s e' s' ∧ Matches e e' ∧ Realises m' qs s') ∧
      m'.blocks = m.blocks + leaked e.memory e.env e.call := by
  obtain ⟨⟨a, ha⟩, henv⟩ := hstep
  obtain ⟨⟨r, m₁⟩, hperform, he⟩ := Option.bind_eq_some_iff.1 ha
  cases he
  obtain ⟨r', m₂, qs, s', stale, hrun, hstate, hm', hblocks⟩ := perform_run hm hfuel henv a.2
  obtain ⟨rfl, rfl⟩ := Prod.mk.inj (Option.some.inj (hrun.symm.trans hperform))
  refine ⟨⟨⟨s, { a.1.toEnv with stale }, a.2, r'⟩, s', qs, ⟨({ a.1.toEnv with stale }, a.2), ?_⟩,
    ⟨rfl, rfl, stale, rfl⟩, hm'⟩, hblocks⟩
  rw [step, hstate]

/-- After a run the temporary blocks of the writes that went through the cache are allocated, and
no others. -/
theorem blocks_run {τ : List PtrEvent} {m₀ : Memory} (hm₀ : Realises m₀ [] s)
    (hblocks₀ : m₀.blocks = 0) (hfuel : MAX_LIST_SIZE < fuel)
    (hrun : Run (LawfulStep fuel) m₀ τ m) :
    m.blocks = τ.countP fun e => Leaks e.memory e.env e.call := by
  have hinv := hrun.invariant
    (fun τ m => (∃ ps s, Realises m ps s) ∧
      m.blocks = τ.countP fun e => Leaks e.memory e.env e.call)
    ⟨⟨[], s, hm₀⟩, hblocks₀⟩ fun _ ⟨⟨_, _, hm⟩, hcount⟩ he => by
      obtain ⟨⟨-, s', qs, -, -, hm'⟩, hblocks⟩ := lawfulStep_run hm hfuel he
      refine ⟨⟨qs, s', hm'⟩, ?_⟩
      rw [hblocks, hcount, leaked, List.countP_cons]
      simp only [decide_eq_true_eq]
  exact hinv.2

/-- Every run of the program in memory is a run on the list: the calls return the same, and in the
end the nodes that the pointers reach are the buffers of the list and all the nodes that are
allocated. Of the temporary blocks just those of the writes through the cache are left. The next
call meets no fault either, whatever it is. -/
theorem memory_runs {headptr : Addr} {d : Disk} {τ : List PtrEvent} {m₀ : Memory}
    (hfuel : MAX_LIST_SIZE < fuel) (hmain : Memory.main headptr d = some m₀)
    (hrun : Run (LawfulStep fuel) m₀ τ m) :
    (∃ τ' s ps, Run (StepBy step) (mount d) τ' s ∧ Realises m ps s ∧ List.Forall₂ Matches τ τ') ∧
      (m.blocks = τ.countP fun e => Leaks e.memory e.env e.call) ∧
        ∀ env call, env.Lawful → (m.step fuel (env, call)).isSome = true := by
  obtain ⟨m₁, hmain', hm₁, hblocks₁⟩ := main_run headptr d
  obtain rfl : m₁ = m₀ := Option.some.inj (hmain'.symm.trans hmain)
  -- each call is simulated by one on the list
  obtain ⟨τ', s, hrun', ⟨ps, hm⟩, hmatch⟩ :=
    hrun.simulate (fun m (s : State) => ∃ ps, Realises m ps s) Matches ⟨[], hm₁⟩
      (fun ⟨_, hm⟩ hstep => by
        obtain ⟨⟨e', s', qs, hstep', hmatch, hm'⟩, -⟩ := lawfulStep_run hm hfuel hstep
        exact ⟨e', s', hstep', hmatch, qs, hm'⟩)
  refine ⟨⟨τ', s, ps, hrun', hm, hmatch⟩, blocks_run hm₁ hblocks₁ hfuel hrun,
    fun env call henv => ?_⟩
  obtain ⟨r, m', qs, s', stale, hperform, -, -⟩ := perform_run hm hfuel henv call
  simp [Memory.step, hperform]

/-- An address that is free, if there is one. -/
noncomputable def freeEnv (cachePolicy : Int) : PtrEnv where
  toEnv := plainEnv cachePolicy
  alloc m := Classical.epsilon m.Unused

theorem lawful_freeEnv (cachePolicy : Int) : (freeEnv cachePolicy).Lawful :=
  fun _ h => Classical.epsilon_spec h

theorem eq_of_memory_step {a : PtrEnv × Call} {e : PtrEvent}
    (hstep : m.step fuel a = some (e, m')) : e = ⟨m, a.1, a.2, e.result⟩ := by
  obtain ⟨⟨r, m₁⟩, -, he⟩ := Option.bind_eq_some_iff.1 hstep
  cases he
  rfl

/-- The first write of a chunk leaves one block behind. -/
theorem memory_runs_write : ∃ m₀ e m, Memory.main 0 (oneFile (List.replicate 4096 7)) = some m₀ ∧
    LawfulStep 1281 m₀ e m ∧ e.call = .write 3 (List.replicate 4096 1) 0 ∧ m.blocks = 1 ∧
      ∃ τ' s ps, Run (StepBy step) (mount (oneFile (List.replicate 4096 7))) τ' s ∧
        Realises m ps s ∧ List.Forall₂ Matches [e] τ' := by
  obtain ⟨m₀, hmain, -⟩ := main_run 0 (oneFile (List.replicate 4096 7))
  have hfuel : MAX_LIST_SIZE < 1281 := by decide
  have hnext := (memory_runs hfuel hmain .start).2.2 (freeEnv 2)
    (.write 3 (List.replicate 4096 1) 0) (lawful_freeEnv 2)
  obtain ⟨⟨e, m⟩, hstep⟩ := Option.isSome_iff_exists.1 hnext
  have he := eq_of_memory_step hstep
  have hlawful : LawfulStep 1281 m₀ e m := ⟨⟨_, hstep⟩, he ▸ lawful_freeEnv 2⟩
  obtain ⟨hruns, hblocks, -⟩ := memory_runs hfuel hmain (.step .start hlawful)
  have hleaks : Leaks m₀ (freeEnv 2) (.write 3 (List.replicate 4096 1) 0) :=
    ⟨show (2 : Nat) ≠ 0 by decide, by rw [List.length_replicate]; rfl⟩
  refine ⟨m₀, e, m, hmain, hlawful, congrArg PtrEvent.call he, ?_, hruns⟩
  rw [hblocks, he]
  exact List.countP_cons_of_pos (decide_eq_true hleaks)

end EE516.Bbfs
