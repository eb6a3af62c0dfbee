import EE516.Bbfs.Duplicates

/-!
# The exact result of a lookup

With every buffer aligned and no chunk cached twice, `bufferHitCheck` says precisely which of the
chunks of a request are cached and in which buffers, whatever else is in the list and in whatever
order. The list is then the buffers it found followed by all others as they stood.
-/

set_option autoImplicit false

namespace EE516.Bbfs

open Foundations

variable {s : State} {l : List FileBuffer} {b c x : FileBuffer} {fd start t u : Int} {offset : Nat}
variable {info info' : HitInfo}

/-- What the result says of the two chunks of the request. -/
def Classifies (s : State) (fd : Int) (offset : Nat) : HitInfo → Prop
  | .PERFECT_HIT b =>
    offset % MAX_CHUNK_SIZE = 0 ∧ b ∈ s.list ∧ b.StartsAt fd (chunkStart offset)
  | .PARTIAL_HIT b c =>
    offset % MAX_CHUNK_SIZE ≠ 0 ∧ (b ∈ s.list ∧ b.StartsAt fd (chunkStart offset)) ∧
      (c ∈ s.list ∧ c.StartsAt fd (chunkStart offset + MAX_CHUNK_SIZE))
  | .PARTIAL_MISS_FIRST b =>
    offset % MAX_CHUNK_SIZE ≠ 0 ∧ (b ∈ s.list ∧ b.StartsAt fd (chunkStart offset)) ∧
      ¬ Resident s fd (chunkStart offset + MAX_CHUNK_SIZE)
  | .PARTIAL_MISS_SECOND c =>
    offset % MAX_CHUNK_SIZE ≠ 0 ∧ ¬ Resident s fd (chunkStart offset) ∧
      (c ∈ s.list ∧ c.StartsAt fd (chunkStart offset + MAX_CHUNK_SIZE))
  | .PERFECT_MISS =>
    ¬ Resident s fd (chunkStart offset) ∧
      (offset % MAX_CHUNK_SIZE ≠ 0 → ¬ Resident s fd (chunkStart offset + MAX_CHUNK_SIZE))

/-- The buffers that are returned, the first part before the second. -/
def HitInfo.parts : HitInfo → List FileBuffer
  | .PERFECT_HIT b => [b]
  | .PARTIAL_HIT b c => [b, c]
  | .PARTIAL_MISS_FIRST b => [b]
  | .PARTIAL_MISS_SECOND c => [c]
  | .PERFECT_MISS => []

/-! ## The classification -/

/-- A chunk has one buffer only. -/
theorem Unique.eq (hu : Unique s) (hb : b ∈ s.list) (hc : c ∈ s.list) (hbs : b.StartsAt fd start)
    (hcs : c.StartsAt fd start) : b = c :=
  List.inj_on_of_nodup_map hu hb hc (Prod.ext (hbs.1.trans hcs.1.symm) (hbs.2.trans hcs.2.symm))

/-- A buffer that starts at the request makes the request an aligned one. -/
theorem aligned_of_startsAt (hb : b.Aligned) (h : b.StartsAt fd offset) :
    offset % MAX_CHUNK_SIZE = 0 ∧ chunkStart offset = offset := by
  have hdvd := hb.1
  rw [h.2] at hdvd
  simp only [chunkStart, MAX_CHUNK_SIZE] at *
  omega

/-- What the loop has found is the classification of the request. -/
theorem classifies_of_found (hl : ∀ b ∈ s.list, b.Aligned)
    (h : Found s.list fd offset (offset + MAX_CHUNK_SIZE) info) : Classifies s fd offset info := by
  have hch := chunks_of_found (fun b hb _ => hl b hb) h
  cases h with
  | perfectHit hb hbs =>
    obtain ⟨hp, hstart⟩ := aligned_of_startsAt (hl _ hb) hbs
    exact ⟨hp, hb, hstart ▸ hbs⟩
  | partialHit hno hb hbt hc hcu =>
    obtain ⟨hp, hbs, hcs⟩ := hch
    exact ⟨hp, ⟨hb, hbs⟩, hc, hcs⟩
  | first =>
    obtain ⟨hp, hb, hbs, hno⟩ := hch
    exact ⟨hp, ⟨hb, hbs⟩, hno⟩
  | second =>
    obtain ⟨hp, hc, hcs, hno⟩ := hch
    exact ⟨hp, hno, hc, hcs⟩
  | perfectMiss => exact hch

/-- Only one result says what is in the list. -/
theorem Classifies.unique (hu : Unique s) (h : Classifies s fd offset info)
    (h' : Classifies s fd offset info') : info = info' := by
  have heq : ∀ {start b c}, b ∈ s.list ∧ b.StartsAt fd start → c ∈ s.list ∧ c.StartsAt fd start →
      b = c := fun hb hc => hu.eq hb.1 hc.1 hb.2 hc.2
  have hres : ∀ {start b}, b ∈ s.list ∧ b.StartsAt fd start → Resident s fd start :=
    fun hb => ⟨_, hb⟩
  cases info <;> cases info' <;> simp only [Classifies] at h h' <;> grind

/-! ## The list after a lookup -/

/-- The other nodes keep their order. -/
theorem listMove_eq (hid : (l.map FileBuffer.id).Nodup) (hb : b ∈ l) :
    listMove b l = b :: l.filter fun x => x ≠ b := by
  obtain ⟨c, l₁, l₂, -, hc, rfl, he⟩ :=
    List.exists_of_eraseP (p := fun c : FileBuffer => c.id = b.id) hb (by simp)
  have hcb : c = b := eq_of_id_eq hid (by simp) hb (by simpa using hc)
  subst hcb
  -- the node is in the list once
  have hnot : ∀ x ∈ l₁ ++ l₂, x ≠ c := by
    have hmid : (c :: (l₁ ++ l₂)).Nodup := List.nodup_middle.1 (hid.of_map _)
    intro x hx hxc
    exact (List.nodup_cons.1 hmid).1 (hxc ▸ hx)
  have hrest : (l₁ ++ l₂).filter (fun x => x ≠ c) = l₁ ++ l₂ :=
    List.filter_eq_self.2 fun x hx => by simpa using hnot x hx
  rw [listMove, he, List.filter_append, List.filter_cons_of_neg (by simp), ← List.filter_append,
    hrest]

/-- The parts that are found are buffers of the descriptor. -/
theorem Found.mem_parts (h : Found l fd t u info) (hx : x ∈ info.parts) : x ∈ l ∧ x.fd = fd := by
  cases h with
  | perfectHit hb hbs => exact List.mem_singleton.1 hx ▸ ⟨hb, hbs.1⟩
  | partialHit _ hb hbt hc hcu =>
    rcases List.mem_pair.1 hx with rfl | rfl
    · exact ⟨hb, hbt.1⟩
    · exact ⟨hc, hcu.1⟩
  | first _ hb hbt => exact List.mem_singleton.1 hx ▸ ⟨hb, hbt.1⟩
  | second _ hc hcu => exact List.mem_singleton.1 hx ▸ ⟨hc, hcu.1⟩
  | perfectMiss => cases hx

/-- The parts are moved to the front, and the others keep their order. -/
theorem Found.move_eq (hid : (l.map FileBuffer.id).Nodup) (h : Found l fd t u info)
    (hparts : info.parts.Nodup) : info.move l = info.parts ++ l.filter fun x => x ∉ info.parts := by
  cases h with
  | perfectHit hb | first _ hb | second _ hb =>
    simpa [HitInfo.move, HitInfo.parts] using listMove_eq hid hb
  | @partialHit b c _ hb hbt hc hcu =>
    -- the second part moves to the front, and then the first one before it
    have hperm := listMove_perm hid hc
    have hne : b ≠ c := by simpa [HitInfo.parts] using hparts
    have hmove := listMove_eq ((hperm.map _).nodup_iff.2 hid) (hperm.mem_iff.2 hb)
    rw [listMove_eq hid hc, List.filter_cons_of_pos (by simpa using hne.symm),
      List.filter_filter] at hmove
    simpa [HitInfo.move, HitInfo.parts, listMove_eq hid hc] using hmove
  | perfectMiss => simp [HitInfo.move, HitInfo.parts]

/-- The two parts are different buffers. -/
theorem Classifies.nodup_parts (h : Classifies s fd offset info) : info.parts.Nodup := by
  cases info with
  | PARTIAL_HIT b c =>
    obtain ⟨-, ⟨-, hbs⟩, -, hcs⟩ := h
    have hne : b ≠ c := by
      rintro rfl
      have heq := hbs.2.symm.trans hcs.2
      simp only [MAX_CHUNK_SIZE] at heq
      omega
    simpa [HitInfo.parts] using hne
  | _ => simp [HitInfo.parts]

/-- A lookup classifies the request exactly, returns buffers of its own file only, moves just these
to the front and counts one hit or one miss. -/
theorem bufferHitCheck_exact (hid : (s.list.map FileBuffer.id).Nodup)
    (hl : ∀ b ∈ s.list, b.Aligned) (hu : Unique s) (ho : offset < 2 ^ 31 - 8192) :
    ∀ r, s.bufferHitCheck offset MAX_CHUNK_SIZE fd = r →
      (∀ info, r.1 = info ↔ Classifies s fd offset info) ∧
      (∀ b ∈ r.1.parts, b ∈ s.list ∧ b.fd = fd) ∧
      r.2.list = (r.1.parts ++ s.list.filter fun b => b ∉ r.1.parts) ∧
      r.2.list.Perm s.list ∧
      (r.1.isHit = true ∧ r.2.hitCount = s.hitCount + 1 ∧ r.2.missCount = s.missCount ∨
        r.1.isHit = false ∧ r.2.hitCount = s.hitCount ∧ r.2.missCount = s.missCount + 1) := by
  rintro _ rfl
  have hf := found_bufferHitCheck s fd ho
  rw [toInt_eq (by omega) (by omega)] at hf
  have hclass := classifies_of_found hl hf
  have hmove : (s.bufferHitCheck offset MAX_CHUNK_SIZE fd).2.list =
      (s.bufferHitCheck offset MAX_CHUNK_SIZE fd).1.move s.list := rfl
  refine ⟨fun info => ?_, fun b hb => hf.mem_parts hb, ?_, ?_, ?_⟩
  · constructor
    · rintro rfl
      exact hclass
    · exact hclass.unique hu
  · rw [hmove]
    exact hf.move_eq hid hclass.nodup_parts
  · rw [hmove]
    exact hf.move_perm hid
  · cases hh : (s.bufferHitCheck offset MAX_CHUNK_SIZE fd).1.isHit with
    | true => exact .inl ⟨rfl, if_pos hh, if_pos hh⟩
    | false =>
      have hno : ¬ (s.bufferHitCheck offset MAX_CHUNK_SIZE fd).1.isHit = true := by simp [hh]
      exact .inr ⟨rfl, if_neg hno, if_neg hno⟩

/-- A clean buffer of zeros. -/
def emptyBuffer (id : Nat) (fd fromOffset : Int) : FileBuffer where
  id := id
  fromOffset := fromOffset
  toOffset := fromOffset + MAX_CHUNK_SIZE
  dirty := false
  fd := fd
  buf := .ofBytes []

/-- Two chunks of the descriptor 3, with one of another descriptor between them. -/
def mixedState : State :=
  { mount (oneFile []) with
    list := [emptyBuffer 2 3 4096, emptyBuffer 1 4 0, emptyBuffer 0 3 0]
    bufferCount := 3
    nextId := 3 }

/-- A request that begins in the first chunk finds both of its chunks. -/
theorem bufferHitCheck_exact_mixed :
    (mixedState.bufferHitCheck (1 : Nat) MAX_CHUNK_SIZE 3).1 =
        .PARTIAL_HIT (emptyBuffer 0 3 0) (emptyBuffer 2 3 4096) ∧
      (mixedState.bufferHitCheck (1 : Nat) MAX_CHUNK_SIZE 3).2.list.Perm mixedState.list := by
  have haligned : ∀ b ∈ mixedState.list, b.Aligned := by
    simp only [mixedState, FileBuffer.Aligned]
    decide +kernel
  have hexact := @bufferHitCheck_exact mixedState 3 1 (by decide) haligned (by decide +kernel)
    (by decide) _ rfl
  refine ⟨(hexact.1 _).2 ⟨by decide, ⟨?_, rfl, rfl⟩, ?_, rfl, rfl⟩, hexact.2.2.2.1⟩
  · simp [mixedState]
  · simp [mixedState]

end EE516.Bbfs
