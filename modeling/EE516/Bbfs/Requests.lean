import EE516.Bbfs.Calls
import EE516.Bbfs.Eviction
import EE516.Bbfs.Lookup

/-!
# The chunks that a request adds

Each branch of `bb_read` and `bb_write` computes the start of a missing chunk in its own way. Apart
from reads of the file and changes inside of buffers, a request with the cache is its lookup and
then the calls of `addFileBuffer` for the chunks listed by `readStarts` and `writeStarts`.
-/

set_option autoImplicit false

namespace EE516.Bbfs

open Foundations

variable {s s' s'' : State} {b c : FileBuffer} {fd : Int} {env : Env} {offset : Nat}
variable {starts : List Int} {buf : List UInt8}

/-- The starts of the chunks that are added when both were missing: one for an aligned request. -/
def missStarts (offset : Nat) : List Int :=
  if offset % MAX_CHUNK_SIZE = 0 then [(offset : Int)]
  else [offset - offset % MAX_CHUNK_SIZE, offset - offset % MAX_CHUNK_SIZE + MAX_CHUNK_SIZE]

/-- The starts of the chunks that `bb_read` adds after a lookup. -/
def readStarts (offset : Nat) : HitInfo → List Int
  | .PERFECT_HIT _ | .PARTIAL_HIT _ _ => []
  | .PARTIAL_MISS_FIRST firstpart => [firstpart.toOffset]
  | .PARTIAL_MISS_SECOND secondpart => [secondpart.toOffset - MAX_CHUNK_SIZE]
  | .PERFECT_MISS => missStarts offset

/-- The starts of the chunks that `bb_write` adds after a lookup. -/
def writeStarts (offset : Nat) : HitInfo → List Int
  | .PERFECT_HIT _ | .PARTIAL_HIT _ _ => []
  | .PARTIAL_MISS_FIRST firstpart => [firstpart.toOffset + MAX_CHUNK_SIZE]
  | .PARTIAL_MISS_SECOND secondpart => [secondpart.fromOffset - MAX_CHUNK_SIZE]
  | .PERFECT_MISS => missStarts offset

/-! ## Steps that add nothing -/

/-- What the list is about, without the contents of the buffers. -/
def FileBuffer.slot (b : FileBuffer) : Nat × Int × Int × Int :=
  (b.id, b.fromOffset, b.toOffset, b.fd)

/-- An event that is no call of `addFileBuffer`. -/
def Io.Quiet (e : Io) : Prop :=
  ∀ l, e ≠ .enter l

/-- The list has the same slots in the same order, and nothing was added or evicted. -/
structure Quiet (s s' : State) : Prop where
  slots : s'.list.map FileBuffer.slot = s.list.map FileBuffer.slot
  bufferCount : s'.bufferCount = s.bufferCount
  accessCount : s'.accessCount = s.accessCount
  hitCount : s'.hitCount = s.hitCount
  missCount : s'.missCount = s.missCount
  nextId : s'.nextId = s.nextId
  io : ∃ τ, s'.io = τ ++ s.io ∧ ∀ e ∈ τ, e.Quiet

theorem Quiet.rfl : Quiet s s where
  slots := Eq.refl _
  bufferCount := Eq.refl _
  accessCount := Eq.refl _
  hitCount := Eq.refl _
  missCount := Eq.refl _
  nextId := Eq.refl _
  io := ⟨[], Eq.refl _, nofun⟩

/-- Quiet steps can follow one another. -/
theorem Quiet.trans (h : Quiet s s') (h' : Quiet s' s'') : Quiet s s'' where
  slots := h'.slots.trans h.slots
  bufferCount := h'.bufferCount.trans h.bufferCount
  accessCount := h'.accessCount.trans h.accessCount
  hitCount := h'.hitCount.trans h.hitCount
  missCount := h'.missCount.trans h.missCount
  nextId := h'.nextId.trans h.nextId
  io := by
    obtain ⟨τ, hτ, hq⟩ := h.io
    obtain ⟨τ', hτ', hq'⟩ := h'.io
    refine ⟨τ' ++ τ, by rw [hτ', hτ, List.append_assoc], ?_⟩
    intro e he
    rcases List.mem_append.1 he with he | he
    · exact hq' e he
    · exact hq e he

theorem quiet_record {e : Io} (s : State) (he : e.Quiet) : Quiet s (s.record e) :=
  { Quiet.rfl with io := ⟨[e], Eq.refl _, by simpa using he⟩ }

theorem quiet_pread (s : State) (fd : Int) (size : Nat) (offset : Int) :
    Quiet s (s.record (.pread fd size offset)) :=
  quiet_record s nofun

theorem quiet_pwrite (s : State) (fd : Int) (buf : List UInt8) (offset : Int) :
    Quiet s (s.pwrite fd buf offset) :=
  { Quiet.rfl with io := ⟨[.pwrite fd buf offset], Eq.refl _, by simp [Io.Quiet]⟩ }

theorem quiet_loadPolicyFromFile (s : State) (conf : Conf) : Quiet s (s.loadPolicyFromFile conf) :=
  { Quiet.rfl with }

theorem quiet_setBuf (s : State) (b : FileBuffer) (buf : List UInt8) : Quiet s (s.setBuf b buf) :=
  { Quiet.rfl with
    slots := by
      rw [State.setBuf, List.map_map]
      refine List.map_congr_left fun c _ => ?_
      simp only [Function.comp, FileBuffer.slot]
      split <;> rfl }

theorem quiet_setDirty (s : State) (b : FileBuffer) : Quiet s (s.setDirty b) :=
  { Quiet.rfl with
    slots := by
      rw [State.setDirty, List.map_map]
      refine List.map_congr_left fun c _ => ?_
      simp only [Function.comp, FileBuffer.slot]
      split <;> rfl }

/-! ## Steps that keep a property -/

/-- What a request with the cache does after its lookup keeps the property. -/
structure KeptBy (env : Env) (P : State → Prop) : Prop where
  pread : ∀ {s}, P s → ∀ fd size start, P (s.record (.pread fd size start))
  setBuf : ∀ {s}, P s → ∀ b buf, P (s.setBuf b buf)
  setDirty : ∀ {s}, P s → ∀ b, P (s.setDirty b)
  add₁ : ∀ {s}, P s → ∀ buf start stop fd,
    P (s.addFileBuffer env.evict₁.1 env.evict₁.2 buf start stop fd)
  add₂ : ∀ {s}, P s → ∀ buf start stop fd,
    P (s.addFileBuffer env.evict₂.1 env.evict₂.2 buf start stop fd)

/-- What the steps of a request keep is kept by a cached read. -/
theorem KeptBy.cachedRead {P : State → Prop} {size : Nat} (h : KeptBy env P)
    (hs : P (s.bufferHitCheck (toInt offset) size fd).2) :
    P (s.cachedRead env fd size offset).2 := by
  rw [State.cachedRead, State.cachedReadWith]
  generalize s.bufferHitCheck (toInt offset) size fd = r at *
  obtain ⟨info, s₁⟩ := r
  cases info with
  | PERFECT_HIT | PARTIAL_HIT => exact hs
  | PARTIAL_MISS_FIRST | PARTIAL_MISS_SECOND => exact h.add₁ (h.pread hs ..) ..
  | PERFECT_MISS =>
    dsimp only
    split
    case isTrue => exact h.add₁ (h.pread hs ..) ..
    case isFalse => exact h.add₂ (h.add₁ (h.pread hs ..) ..) ..

/-- What the steps of a request keep is kept by a cached write. -/
theorem KeptBy.cachedWrite {P : State → Prop} {size : Nat} (h : KeptBy env P)
    (hs : P (s.bufferHitCheck (toInt offset) size fd).2) :
    P (s.cachedWrite env fd buf size offset) := by
  rw [State.cachedWrite]
  generalize s.bufferHitCheck (toInt offset) size fd = r at *
  obtain ⟨info, s₁⟩ := r
  cases info with
  | PERFECT_HIT => exact h.setDirty (h.setBuf hs ..) _
  | PARTIAL_HIT => exact h.setDirty (h.setDirty (h.setBuf (h.setBuf hs ..) ..) _) _
  | PARTIAL_MISS_FIRST => exact h.add₁ (h.setDirty (h.setBuf (h.pread hs ..) ..) _) ..
  | PARTIAL_MISS_SECOND => exact h.add₁ (h.setBuf (h.pread hs ..) ..) ..
  | PERFECT_MISS =>
    dsimp only
    split
    case isTrue => exact h.add₁ (h.pread hs ..) ..
    case isFalse => exact h.add₂ (h.add₁ (h.pread hs ..) ..) ..

/-! ## Steps that add chunks -/

/-- Chunks of the file are added one after another, with quiet steps in between. -/
inductive Adds (fd : Int) : State → List Int → State → Prop
  | done {s s' : State} (h : Quiet s s') : Adds fd s [] s'
  | add {s s' s'' : State} {start : Int} {starts : List Int} {conf : Conf} {rand : Nat}
      {buf : List UInt8} (h : Quiet s s')
      (ha : Adds fd (s'.addFileBuffer conf rand buf start (start + MAX_CHUNK_SIZE) fd) starts s'') :
      Adds fd s (start :: starts) s''

/-- An offset below `2 ^ 31` is not cut. -/
theorem toInt_eq {x : Int} (h₀ : 0 ≤ x) (h₁ : x < 2 ^ 31) : toInt x = x := by
  rw [toInt]
  omega

/-- The bounds of a buffer that covers a target. -/
theorem FileBuffer.Aligned.bounds {t : Int} (hb : b.Aligned) (h : b.Covers fd t) (ht : 0 ≤ t) :
    0 ≤ b.fromOffset ∧ b.fromOffset < t := by
  obtain ⟨⟨k, hk⟩, hto⟩ := hb
  obtain ⟨-, h₁, h₂⟩ := h
  simp only [MAX_CHUNK_SIZE] at hk hto
  omega

/-- A lookup of a chunk-sized request below the end of the `int`s. -/
theorem found_bufferHitCheck (s : State) (fd : Int) (ho : offset < 2 ^ 31 - 8192) :
    Found s.list fd offset (offset + MAX_CHUNK_SIZE)
      (s.bufferHitCheck (toInt offset) MAX_CHUNK_SIZE fd).1 := by
  have h₁ : toInt offset = offset := toInt_eq (by omega) (by omega)
  have h₂ : toInt ((offset : Int) + MAX_CHUNK_SIZE) = offset + MAX_CHUNK_SIZE := by
    apply toInt_eq <;> simp only [MAX_CHUNK_SIZE] <;> omega
  rw [State.bufferHitCheck, h₁, h₂]
  exact found_scan

/-- The two chunks of an unaligned request that were both missing. -/
theorem adds_two {start : Int} {first second : List UInt8} {conf conf' : Conf} {rand rand' : Nat}
    (hq : Quiet s s') (h₀ : 0 ≤ start) (h₁ : start < 2 ^ 31 - 16384) :
    Adds fd s [start, start + MAX_CHUNK_SIZE]
      ((s'.addFileBuffer conf rand first start (toInt (start + MAX_CHUNK_SIZE)) fd).addFileBuffer
        conf' rand' second (toInt (start + MAX_CHUNK_SIZE))
        (toInt (start + MAX_CHUNK_SIZE + MAX_CHUNK_SIZE)) fd) := by
  have e₁ : toInt (start + MAX_CHUNK_SIZE) = start + MAX_CHUNK_SIZE := by
    apply toInt_eq <;> simp only [MAX_CHUNK_SIZE] <;> omega
  have e₂ : toInt (start + MAX_CHUNK_SIZE + MAX_CHUNK_SIZE) =
      start + MAX_CHUNK_SIZE + MAX_CHUNK_SIZE := by
    apply toInt_eq <;> simp only [MAX_CHUNK_SIZE] <;> omega
  rw [e₁, e₂]
  exact .add hq (.add .rfl (.done .rfl))

/-- An insertion adds its chunk. -/
theorem adds_one {start stop : Int} {conf : Conf} {rand : Nat} (hq : Quiet s s')
    (hstop : stop = start + MAX_CHUNK_SIZE) :
    Adds fd s [start] (s'.addFileBuffer conf rand buf start stop fd) := by
  rw [hstop]
  exact .add hq (.done .rfl)

/-- A chunk-sized read is its lookup and the chunks it adds. -/
theorem cachedRead_adds (hl : ∀ b ∈ s.list, b.Aligned) (ho : offset < 2 ^ 31 - 16384) :
    Adds fd (s.bufferHitCheck (toInt offset) MAX_CHUNK_SIZE fd).2
      (readStarts offset (s.bufferHitCheck (toInt offset) MAX_CHUNK_SIZE fd).1)
      (s.cachedRead env fd MAX_CHUNK_SIZE offset).2 := by
  have hf := @found_bufferHitCheck offset s fd (by omega)
  rw [State.cachedRead, State.cachedReadWith]
  generalize s.bufferHitCheck (toInt offset) MAX_CHUNK_SIZE fd = r at *
  obtain ⟨info, s₁⟩ := r
  cases hf with
  | perfectHit | partialHit => exact .done .rfl
  | @first b hno hb hbt hu =>
    have hbound := (hl b hb).bounds hbt (by omega)
    have hto := (hl b hb).2
    refine adds_one (quiet_pread _ _ _ _) (toInt_eq ?_ ?_) <;>
      simp only [MAX_CHUNK_SIZE] at * <;> omega
  | @second c hno hc hcu ht =>
    have hbound := (hl c hc).bounds hcu (by omega)
    have hto := (hl c hc).2
    have hstart : toInt (c.toOffset - MAX_CHUNK_SIZE) = c.toOffset - MAX_CHUNK_SIZE := by
      apply toInt_eq <;> simp only [MAX_CHUNK_SIZE] at * <;> omega
    dsimp only [readStarts]
    rw [hstart]
    refine adds_one (quiet_pread _ _ _ _) (toInt_eq ?_ ?_) <;>
      simp only [MAX_CHUNK_SIZE] at * <;> omega
  | perfectMiss =>
    dsimp only [readStarts, missStarts]
    split
    case isTrue hp =>
      rw [toInt_eq (by omega) (by omega)]
      refine adds_one (quiet_pread _ _ _ _) (toInt_eq ?_ ?_) <;>
        simp only [MAX_CHUNK_SIZE] <;> omega
    case isFalse hp =>
      have hle : offset % MAX_CHUNK_SIZE ≤ offset := Nat.mod_le _ _
      rw [toInt_eq (by omega) (by omega)]
      exact adds_two (quiet_pread _ _ _ _) (by omega) (by omega)

/-- A chunk-sized write is its lookup and the chunks it adds. -/
theorem cachedWrite_adds (hl : ∀ b ∈ s.list, b.Aligned) (ho : offset < 2 ^ 31 - 16384) :
    Adds fd (s.bufferHitCheck (toInt offset) MAX_CHUNK_SIZE fd).2
      (writeStarts offset (s.bufferHitCheck (toInt offset) MAX_CHUNK_SIZE fd).1)
      (s.cachedWrite env fd buf MAX_CHUNK_SIZE offset) := by
  have hf := @found_bufferHitCheck offset s fd (by omega)
  rw [State.cachedWrite]
  generalize s.bufferHitCheck (toInt offset) MAX_CHUNK_SIZE fd = r at *
  obtain ⟨info, s₁⟩ := r
  cases hf with
  | perfectHit => exact .done ((quiet_setBuf _ _ _).trans (quiet_setDirty _ _))
  | partialHit =>
    exact .done ((((quiet_setBuf _ _ _).trans (quiet_setBuf _ _ _)).trans
      (quiet_setDirty _ _)).trans (quiet_setDirty _ _))
  | @first b hno hb hbt hu =>
    have hbound := (hl b hb).bounds hbt (by omega)
    have hto := (hl b hb).2
    have hstart : toInt (b.toOffset + MAX_CHUNK_SIZE) = b.toOffset + MAX_CHUNK_SIZE := by
      apply toInt_eq <;> simp only [MAX_CHUNK_SIZE] at * <;> omega
    dsimp only [writeStarts]
    rw [hstart]
    refine adds_one (((quiet_pread _ _ _ _).trans (quiet_setBuf _ _ _)).trans
      (quiet_setDirty _ _)) (toInt_eq ?_ ?_) <;> simp only [MAX_CHUNK_SIZE] at * <;> omega
  | @second c hno hc hcu ht =>
    have hbound := (hl c hc).bounds hcu (by omega)
    obtain ⟨⟨k, hk⟩, hto⟩ := hl c hc
    have hcov := hcu.2
    have hstart : toInt (c.fromOffset - MAX_CHUNK_SIZE) = c.fromOffset - MAX_CHUNK_SIZE := by
      apply toInt_eq <;> simp only [MAX_CHUNK_SIZE] at * <;> omega
    dsimp only [writeStarts]
    rw [hstart]
    refine adds_one ((quiet_pread _ _ _ _).trans (quiet_setBuf _ _ _)) (toInt_eq ?_ ?_) <;>
      simp only [MAX_CHUNK_SIZE] at * <;> omega
  | perfectMiss =>
    dsimp only [writeStarts, missStarts]
    split
    case isTrue hp =>
      rw [toInt_eq (by omega) (by omega)]
      refine adds_one (quiet_pread _ _ _ _) (toInt_eq ?_ ?_) <;>
        simp only [MAX_CHUNK_SIZE] <;> omega
    case isFalse hp =>
      have hle : offset % MAX_CHUNK_SIZE ≤ offset := Nat.mod_le _ _
      rw [toInt_eq (by omega) (by omega)]
      exact adds_two (quiet_pread _ _ _ _) (by omega) (by omega)

end EE516.Bbfs
