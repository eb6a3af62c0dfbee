import EE516.Bbfs.Classification
import EE516.Bbfs.Truncate

/-!
# Buffers that are in use

The lookup returns pointers to nodes of the list, and the request follows them until its last
access. An insertion can free a node in between: a write has used its buffers by then, a read that
found one of its two parts has not. `State.uses` lists the nodes that a call was given, each with
the state at the last access to it.
-/

set_option autoImplicit false

namespace EE516.Bbfs

open Foundations

variable {s s' s₁ : State} {l rest : List FileBuffer} {b c new : FileBuffer} {fd start stop : Int}
variable {env : Env} {offset size : Nat} {buf : List UInt8} {conf : Conf} {rand : Nat}
variable {info : HitInfo} {call : Call}

/-! ## The last access -/

/-- The last accesses of `bb_read`: right after the lookup if it hit, and in `sprintf`, after the
other part was added, if it found one part. -/
def State.readUses (s : State) (env : Env) (fd : Int) (size offset : Nat) :
    List (FileBuffer × State) :=
  let (info, s) := s.bufferHitCheck (toInt offset) size fd
  match info with
  | .PERFECT_HIT firstpart => [(firstpart, s)]
  | .PARTIAL_HIT firstpart secondpart => [(firstpart, s), (secondpart, s)]
  | .PARTIAL_MISS_FIRST firstpart =>
    let start := firstpart.toOffset
    let tempbuf := s.preadBlock fd size start
    let s := s.record (.pread fd size start)
    let s := s.addFileBuffer env.evict₁.1 env.evict₁.2 tempbuf start (toInt (start + size)) fd
    [(firstpart, s)]
  | .PARTIAL_MISS_SECOND secondpart =>
    let start := toInt (secondpart.toOffset - MAX_CHUNK_SIZE)
    let tempbuf := s.preadBlock fd size start
    let s := s.record (.pread fd size start)
    let s := s.addFileBuffer env.evict₁.1 env.evict₁.2 tempbuf start (toInt (start + size)) fd
    [(secondpart, s)]
  | .PERFECT_MISS => []

/-- The last accesses of `bb_write`: when the buffer is filled or marked dirty, before anything is
added. -/
def State.writeUses (s : State) (fd : Int) (intermediateBuf : List UInt8) (size offset : Nat) :
    List (FileBuffer × State) :=
  let (info, s) := s.bufferHitCheck (toInt offset) size fd
  let refinedOffset := offset % MAX_CHUNK_SIZE
  match info with
  | .PERFECT_HIT firstpart =>
    let s := (s.setBuf firstpart intermediateBuf).setDirty firstpart
    [(firstpart, s)]
  | .PARTIAL_HIT firstpart secondpart =>
    let totalbuf := overlay (sprintf firstpart.buf.bytes secondpart.buf.bytes) refinedOffset
      intermediateBuf
    let s := s.setBuf firstpart totalbuf
    let s := s.setBuf secondpart (totalbuf.drop MAX_CHUNK_SIZE)
    let s := s.setDirty firstpart
    [(firstpart, s), (secondpart, s.setDirty secondpart)]
  | .PARTIAL_MISS_FIRST firstpart =>
    let start := firstpart.toOffset
    let tempbuf := s.preadBlock fd size start
    let s := s.record (.pread fd size start)
    let totalbuf := overlay (sprintf firstpart.buf.bytes tempbuf) refinedOffset intermediateBuf
    let s := (s.setBuf firstpart totalbuf).setDirty firstpart
    [(firstpart, s)]
  | .PARTIAL_MISS_SECOND secondpart =>
    let start := toInt (secondpart.fromOffset - MAX_CHUNK_SIZE)
    let tempbuf := s.preadBlock fd size start
    let s := s.record (.pread fd size start)
    let totalbuf := overlay (sprintf tempbuf secondpart.buf.bytes) refinedOffset intermediateBuf
    let s := s.setBuf secondpart (totalbuf.drop size)
    [(secondpart, s)]
  | .PERFECT_MISS => []

/-- The nodes that a call was given by the lookup, each with the state at the last access to it. -/
def State.uses (s : State) (env : Env) : Call → List (FileBuffer × State)
  | .read fd size offset =>
    let s := s.loadPolicyFromFile env.conf
    if s.policy.cachePolicy ≠ 0 ∧ size = MAX_CHUNK_SIZE then s.readUses env fd size offset else []
  | .write fd buf offset =>
    let size := buf.length
    let s := s.loadPolicyFromFile env.conf
    let intermediateBuf := s.policy.encrypt (strncpy buf size)
    if s.policy.cachePolicy ≠ 0 ∧ size = MAX_CHUNK_SIZE then
      s.writeUses fd intermediateBuf size offset
    else []
  | .release _ => []

/-- The node is in the list. -/
def State.Has (s : State) (b : FileBuffer) : Prop :=
  b.id ∈ s.list.map FileBuffer.id

instance (s : State) (b : FileBuffer) : Decidable (s.Has b) :=
  inferInstanceAs (Decidable (_ ∈ _))

/-- Each node is still in the list when it is accessed for the last time. -/
def UsedInList (s : State) (env : Env) (call : Call) : Prop :=
  ∀ u ∈ s.uses env call, u.2.Has u.1

/-- The call is a read with the cache that finds one of its two parts, and whose insertion evicts
the buffer in the front. -/
def Call.TakesPart (s : State) (env : Env) : Call → Prop
  | .read fd size offset =>
    UsesCache s env size ∧ Bbfs.TakesPart (s.loadPolicyFromFile env.conf) env fd offset
  | _ => False

/-! ## What stays in the list -/

theorem Quiet.has_iff (hq : Quiet s s') : s'.Has b ↔ s.Has b := by
  rw [State.Has, State.Has, hq.ids]

theorem has_of_mem (hb : b ∈ s.list) : s.Has b :=
  List.mem_map_of_mem hb

/-- A lookup leaves the parts that it returns in the list. -/
theorem has_of_mem_parts (h : Nodes s) (hb : b ∈ (s.bufferHitCheck start size fd).1.parts) :
    (s.bufferHitCheck start size fd).2.Has b := by
  have hf : Found s.list fd start (toInt (start + size)) (s.bufferHitCheck start size fd).1 :=
    found_scan
  have hperm : (s.bufferHitCheck start size fd).2.list.Perm s.list := h.bufferHitCheck.1
  exact has_of_mem (hperm.mem_iff.2 (hf.mem_parts hb).1)

/-- The node in the front is freed. -/
theorem Added.front_gone (h : Nodes s) (hid : new.id = s.nextId) (hs : Added s conf rand new s')
    (hl : s.list = b :: rest) (hev : s.EvictsFront conf rand) : ¬ s'.Has b := by
  obtain ⟨hfull, hpol, hrand⟩ := hev
  have hcount := h.bufferCount
  cases hs with
  | room hlt => omega
  | @full l₁ l₂ v _ hlist hp =>
    -- the draw stops at the first node
    rw [Picks, if_pos hpol, hrand, List.length_eq_zero_iff] at hp
    subst hp
    obtain ⟨rfl, rfl⟩ := List.cons.inj (hl.symm.trans hlist)
    have hnodup := h.ids
    rw [hl, List.map_cons, List.nodup_cons] at hnodup
    intro hm
    rcases List.mem_cons.1 hm with heq | hm
    · have hold := h.allocated b (hl ▸ List.mem_cons_self)
      omega
    · exact hnodup.1 hm

/-- Whether the node in the front outlives the insertion of another one. -/
theorem has_front_iff (h : Nodes s) (hl : s.list = b :: rest) :
    (s.addFileBuffer conf rand buf start stop fd).Has b ↔ ¬ s.EvictsFront conf rand := by
  have hadd := h.adds_buffer conf rand buf start stop fd
  constructor
  · intro hhas hev
    exact hadd.front_gone h rfl hl hev hhas
  · intro hkeep
    exact has_of_mem (hadd.mem_front hl h.bufferCount hkeep)

/-! ## Calls -/

/-- A read uses a freed node exactly if its eviction takes the part that was found. -/
theorem readUses_iff (h : Nodes s) :
    (∀ u ∈ s.readUses env fd MAX_CHUNK_SIZE offset, u.2.Has u.1) ↔
      ¬ TakesPart s env fd offset := by
  have hparts := fun b => @has_of_mem_parts s b fd (toInt offset) MAX_CHUNK_SIZE h
  have hn : Nodes (s.bufferHitCheck (toInt offset) MAX_CHUNK_SIZE fd).2 := h.bufferHitCheck.2
  have hmove : (s.bufferHitCheck (toInt offset) MAX_CHUNK_SIZE fd).2.list =
      (s.bufferHitCheck (toInt offset) MAX_CHUNK_SIZE fd).1.move s.list := rfl
  have hev : s.EvictsFront env.evict₁.1 env.evict₁.2 ↔
      (s.bufferHitCheck (toInt offset) MAX_CHUNK_SIZE fd).2.EvictsFront env.evict₁.1
        env.evict₁.2 := Iff.rfl
  rw [Bbfs.TakesPart, State.readUses, hev]
  generalize s.bufferHitCheck (toInt offset) MAX_CHUNK_SIZE fd = r at *
  obtain ⟨info, s₁⟩ := r
  -- the part is in front when the other one is added
  have hfront : ∀ {b rest start stop buf}, s₁.list = b :: rest →
      (((s₁.record (.pread fd MAX_CHUNK_SIZE start)).addFileBuffer env.evict₁.1 env.evict₁.2 buf
        start stop fd).Has b ↔ ¬ s₁.EvictsFront env.evict₁.1 env.evict₁.2) := fun hl =>
    has_front_iff (s := s₁.record _) (hn.quiet (quiet_pread ..)) hl
  cases info with
  | PERFECT_HIT b => simpa [HitInfo.isPartialMiss] using hparts b List.mem_cons_self
  | PARTIAL_HIT b c =>
    have hb := hparts b List.mem_cons_self
    have hc := hparts c (List.mem_cons_of_mem b List.mem_cons_self)
    simpa [HitInfo.isPartialMiss] using ⟨hb, hc⟩
  | PARTIAL_MISS_FIRST b => simpa [HitInfo.isPartialMiss] using hfront hmove
  | PARTIAL_MISS_SECOND c => simpa [HitInfo.isPartialMiss] using hfront hmove
  | PERFECT_MISS => simp [HitInfo.isPartialMiss]

/-- A write has finished with its buffers when it adds one. -/
theorem has_of_mem_writeUses (h : Nodes s) :
    ∀ u ∈ s.writeUses fd buf MAX_CHUNK_SIZE offset, u.2.Has u.1 := by
  have hparts := fun b => @has_of_mem_parts s b fd (toInt offset) MAX_CHUNK_SIZE h
  rw [State.writeUses]
  generalize s.bufferHitCheck (toInt offset) MAX_CHUNK_SIZE fd = r at *
  obtain ⟨info, s₁⟩ := r
  cases info with
  | PERFECT_HIT b =>
    have hb := hparts b List.mem_cons_self
    have hq := (quiet_setBuf s₁ b buf).trans (quiet_setDirty _ b)
    simpa using hq.has_iff.2 hb
  | PARTIAL_HIT b c =>
    have hb := hparts b List.mem_cons_self
    have hc := hparts c (List.mem_cons_of_mem b List.mem_cons_self)
    have hq := fun l l' => ((quiet_setBuf s₁ b l).trans (quiet_setBuf _ c l')).trans
      (quiet_setDirty _ b)
    simpa using ⟨(hq _ _).has_iff.2 hb, ((hq _ _).trans (quiet_setDirty _ c)).has_iff.2 hc⟩
  | PARTIAL_MISS_FIRST b =>
    have hb := hparts b List.mem_cons_self
    have hq := fun start l => ((quiet_pread s₁ fd MAX_CHUNK_SIZE start).trans
      (quiet_setBuf _ b l)).trans (quiet_setDirty _ b)
    simpa using (hq _ _).has_iff.2 hb
  | PARTIAL_MISS_SECOND c =>
    have hc := hparts c List.mem_cons_self
    have hq := fun start l => (quiet_pread s₁ fd MAX_CHUNK_SIZE start).trans (quiet_setBuf _ c l)
    simpa using (hq _ _).has_iff.2 hc
  | PERFECT_MISS => simp

/-- Every node is in the list at the last access to it, unless the call is a read that evicts the
part it found. -/
theorem used_in_list_iff (s : State) (env : Env) (call : Call) (h : Nodes s) :
    UsedInList s env call ↔ ¬ call.TakesPart s env := by
  have hs : Nodes (s.loadPolicyFromFile env.conf) := h.quiet (quiet_loadPolicyFromFile s env.conf)
  cases call with
  | read fd size offset =>
    simp only [UsedInList, State.uses, Call.TakesPart, UsesCache]
    split
    case isTrue hc =>
      obtain ⟨hpol, rfl⟩ := hc
      simpa [hpol] using readUses_iff hs
    case isFalse hc => simp [hc]
  | write fd buf offset =>
    simp only [UsedInList, State.uses, Call.TakesPart, not_false_eq_true, iff_true]
    split
    case isTrue hc =>
      rw [hc.2]
      exact has_of_mem_writeUses hs
    case isFalse => exact nofun
  | release fd => simp [UsedInList, State.uses, Call.TakesPart]

/-- The first chunk of an empty file and a read that begins in it, under the random policy. -/
theorem used_in_list_iff_room :
    UsedInList ((mount (oneFile [])).perform (plainEnv 1) (.read 3 MAX_CHUNK_SIZE 0)).2 (plainEnv 1)
      (.read 3 MAX_CHUNK_SIZE 1) := by
  refine (used_in_list_iff _ _ _ ?_).2 ?_
  · exact ((fresh_mount (oneFile [])).bounded.perform (by decide)).nodes
  · rintro ⟨-, -, hfull, -⟩
    exact absurd hfull (by decide +kernel)

/-- A list that is full, of every other chunk of a file. -/
def fullState : State :=
  { mount (oneFile []) with
    list := (List.range MAX_LIST_SIZE).map fun i => emptyBuffer i 3 (8192 * i)
    bufferCount := MAX_LIST_SIZE
    nextId := MAX_LIST_SIZE }

theorem nodes_fullState : Nodes fullState := by
  have hids : fullState.list.map FileBuffer.id = List.range MAX_LIST_SIZE := by
    simp [fullState, Function.comp_def, emptyBuffer]
  refine ⟨hids ▸ List.nodup_range, fun b hb => ?_, ?_, Nat.le_refl _⟩
  · have hm : b.id ∈ List.range MAX_LIST_SIZE := hids ▸ List.mem_map_of_mem hb
    exact List.mem_range.1 hm
  · simp [fullState]

/-- The draw hits the front, where the lookup has put the part that it found. -/
theorem part_is_evicted :
    ¬ ∀ (s : State) (env : Env) (call : Call), Nodes s → UsedInList s env call := by
  intro hall
  have huse := hall fullState (plainEnv 1) (.read 3 MAX_CHUNK_SIZE 1) nodes_fullState
  have hpol : (fullState.loadPolicyFromFile (plainEnv 1).conf).policy.cachePolicy ≠ 0 := by
    decide +kernel
  rw [UsedInList, State.uses, if_pos ⟨hpol, rfl⟩] at huse
  refine (readUses_iff ?_).1 huse ?_
  · exact nodes_fullState.quiet (quiet_loadPolicyFromFile ..)
  · decide +kernel

end EE516.Bbfs
