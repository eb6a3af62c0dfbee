import Mathlib.Data.List.Pairwise
import EE516.Bbfs.Coherence

/-!
# Requests across two chunks

A request at an offset that is no multiple of 4096 touches two chunks of its file. The lookup tells
which of the two are cached; the buffers of other files have no part in it.
-/

set_option autoImplicit false

namespace EE516.Bbfs

open Foundations

variable {s s' : State} {b x : FileBuffer} {fd : Int} {offset first start : Nat} {conf : Conf}
variable {info : HitInfo} {f : OpenFile} {c : Nat → UInt8} {size i : Nat}

/-- The start of the first chunk of a request. -/
theorem exists_first (offset : Nat) : ∃ first, first + offset % MAX_CHUNK_SIZE = offset :=
  ⟨offset - offset % MAX_CHUNK_SIZE, Nat.sub_add_cancel (Nat.mod_le _ _)⟩

/-- The bounds of the chunks of a request. -/
theorem int_bounds (ho : offset < 2 ^ 31 - 8192)
    (hfirst : first + offset % MAX_CHUNK_SIZE = offset) :
    first % MAX_CHUNK_SIZE = 0 ∧ toInt (first : Int) = first ∧
      toInt ((first : Int) + MAX_CHUNK_SIZE) = (first + MAX_CHUNK_SIZE : Nat) ∧
      toInt ((first + MAX_CHUNK_SIZE : Nat) + MAX_CHUNK_SIZE) =
        (first + MAX_CHUNK_SIZE : Nat) + MAX_CHUNK_SIZE := by
  simp only [toInt, MAX_CHUNK_SIZE] at *
  omega

/-! ## What the file has -/

/-- A block of two chunks is read at once. -/
theorem preadBlock_two (hf : s.disk.fds fd = some f) (hr : f.readable = true) (start : Nat) :
    s.preadBlock fd (2 * size) start =
      s.preadBlock fd size start ++ s.preadBlock fd size (start + size : Nat) := by
  apply ext_getD
  · simp only [length_preadBlock, List.length_append]
    omega
  · intro i hi
    rw [List.length_append, length_preadBlock, length_preadBlock] at hi
    rw [getD_append, getD_preadBlock hf hr, getD_preadBlock hf hr, getD_preadBlock hf hr,
      length_preadBlock, if_pos (by omega)]
    by_cases hlt : i < size
    · rw [if_pos hlt, if_pos hlt]
    · rw [if_neg hlt, if_pos (by omega)]
      congr 1
      omega

/-- A chunk of which nothing is cached, in a file that has the contents where nothing is. -/
theorem agrees_chunk (hf : s.disk.fds fd = some f) (hr : f.readable = true)
    (hstored : ∀ p : Nat, ¬ Resident s fd (chunkStart p) →
      (s.disk.files f.ino).getD p 0 = c p)
    (hp : start % MAX_CHUNK_SIZE = 0) (hno : ¬ Resident s fd start) :
    Agrees c start (s.preadBlock fd MAX_CHUNK_SIZE start) := by
  have hdvd : (MAX_CHUNK_SIZE : Int) ∣ start :=
    Int.natCast_dvd_natCast.2 (Nat.dvd_of_mod_eq_zero hp)
  intro i hi
  rw [length_preadBlock] at hi
  rw [getD_preadBlock hf hr, if_pos hi]
  refine hstored (start + i) ?_
  rw [(chunkStart_eq_iff hdvd).2 (by omega)]
  exact hno

/-- Two chunks of which nothing is cached. -/
theorem agrees_chunks (hf : s.disk.fds fd = some f) (hr : f.readable = true)
    (hstored : ∀ p : Nat, ¬ Resident s fd (chunkStart p) →
      (s.disk.files f.ino).getD p 0 = c p)
    (hp : start % MAX_CHUNK_SIZE = 0) (hno : ¬ Resident s fd start)
    (hno' : ¬ Resident s fd (start + MAX_CHUNK_SIZE : Nat)) :
    Agrees c start (s.preadBlock fd (2 * MAX_CHUNK_SIZE) start) := by
  have hp' : (start + MAX_CHUNK_SIZE) % MAX_CHUNK_SIZE = 0 := by
    rw [Nat.add_mod_right, hp]
  have hsecond := agrees_chunk hf hr hstored hp' hno'
  rw [preadBlock_two hf hr]
  refine (agrees_chunk hf hr hstored hp hno).append ?_
  rw [length_preadBlock]
  exact hsecond

/-! ## The lookup -/

/-- The buffers of the file stand for different chunks of it. -/
structure Chunked (fd : Int) (s : State) : Prop extends Nodes s where
  aligned : ∀ b ∈ s.list, b.fd = fd → b.Aligned
  unique : s.list.Pairwise fun b x => b.fd = fd → x.fd = fd → b.fromOffset ≠ x.fromOffset

/-- A chunk has one buffer only. -/
theorem Chunked.eq_of_startsAt (h : Chunked fd s) (hb : b ∈ s.list) (hx : x ∈ s.list) {start : Int}
    (hbs : b.StartsAt fd start) (hxs : x.StartsAt fd start) : b = x := by
  by_contra hne
  have hsymm : Std.Symm fun b x : FileBuffer =>
      b.fd = fd → x.fd = fd → b.fromOffset ≠ x.fromOffset :=
    ⟨fun _ _ hne hx hb => (hne hb hx).symm⟩
  exact h.unique.forall hb hx hne hbs.1 hxs.1 (hbs.2.trans hxs.2.symm)

theorem Chunked.quiet (h : Chunked fd s) (hq : Quiet s s') : Chunked fd s' := by
  refine { h.toNodes.quiet hq with aligned := ?_, unique := ?_ }
  · intro b hb hfd
    obtain ⟨x, hx, hxb⟩ := hq.mem hb
    have hxfd : x.fd = b.fd := congrArg (fun slot => slot.2.2.2) hxb
    exact aligned_of_slot_eq hxb (h.aligned x hx (hxfd.trans hfd))
  · -- the starts and the files are part of the slots
    have hpair : ∀ l : List FileBuffer,
        (l.Pairwise fun b x => b.fd = fd → x.fd = fd → b.fromOffset ≠ x.fromOffset) ↔
          (l.map FileBuffer.slot).Pairwise fun b x =>
            b.2.2.2 = fd → x.2.2.2 = fd → b.2.1 ≠ x.2.1 := by
      intro l
      rw [List.pairwise_map]
      rfl
    rw [hpair, hq.slots, ← hpair]
    exact h.unique

theorem Chunked.bufferHitCheck {target : Int} {size : Nat} (h : Chunked fd s) :
    Chunked fd (s.bufferHitCheck target size fd).2 := by
  obtain ⟨hperm, hn⟩ := @Nodes.bufferHitCheck s fd target size h.toNodes
  refine { hn with aligned := ?_, unique := ?_ }
  · intro b hb
    exact h.aligned b (hperm.mem_iff.1 hb)
  · exact hperm.symm.pairwise h.unique fun hne hx hb => (hne hb hx).symm

/-- What the lookup of a request across two chunks finds, the first of which starts at `first`, in
terms of the state that it leaves. -/
inductive Meets (fd : Int) (first : Nat) (s : State) : HitInfo → Prop
  | both {b x : FileBuffer} (hb : b ∈ s.list) (hx : x ∈ s.list) (hbs : b.StartsAt fd first)
      (hxs : x.StartsAt fd (first + MAX_CHUNK_SIZE : Nat)) : Meets fd first s (.PARTIAL_HIT b x)
  | first {b : FileBuffer} {rest : List FileBuffer} (hl : s.list = b :: rest)
      (hbs : b.StartsAt fd first) (hto : b.toOffset = (first + MAX_CHUNK_SIZE : Nat))
      (hno : ¬ Resident s fd (first + MAX_CHUNK_SIZE : Nat)) :
      Meets fd first s (.PARTIAL_MISS_FIRST b)
  | second {x : FileBuffer} {rest : List FileBuffer} (hl : s.list = x :: rest)
      (hxs : x.StartsAt fd (first + MAX_CHUNK_SIZE : Nat))
      (hto : x.toOffset = (first + MAX_CHUNK_SIZE : Nat) + MAX_CHUNK_SIZE)
      (hno : ¬ Resident s fd first) : Meets fd first s (.PARTIAL_MISS_SECOND x)
  | neither (hno : ¬ Resident s fd first) (hno' : ¬ Resident s fd (first + MAX_CHUNK_SIZE : Nat)) :
      Meets fd first s .PERFECT_MISS

/-- A lookup does not change what is cached. -/
theorem Nodes.resident_lookup {target : Int} {size : Nat} (h : Nodes s) {start : Int} :
    Resident (s.bufferHitCheck target size fd).2 fd start ↔ Resident s fd start := by
  obtain ⟨hperm, -⟩ := @Nodes.bufferHitCheck s fd target size h
  rw [resident_iff, resident_iff]
  exact (hperm.map _).mem_iff

/-- A lookup meets the first chunk, the second one, both or neither. -/
theorem Chunked.meets (h : Chunked fd s) (ho : offset < 2 ^ 31 - 8192)
    (hp : offset % MAX_CHUNK_SIZE ≠ 0) (hfirst : first + offset % MAX_CHUNK_SIZE = offset) :
    Meets fd first (s.bufferHitCheck (toInt offset) MAX_CHUNK_SIZE fd).2
      (s.bufferHitCheck (toInt offset) MAX_CHUNK_SIZE fd).1 := by
  have hf := found_bufferHitCheck s fd ho
  have hch := chunks_of_found h.aligned hf
  obtain ⟨hperm, -⟩ := @Nodes.bufferHitCheck s fd (toInt offset) MAX_CHUNK_SIZE h.toNodes
  have hres := @Nodes.resident_lookup s fd (toInt offset) MAX_CHUNK_SIZE h.toNodes
  have hmove : (s.bufferHitCheck (toInt offset) MAX_CHUNK_SIZE fd).2.list =
      (s.bufferHitCheck (toInt offset) MAX_CHUNK_SIZE fd).1.move s.list := rfl
  have hone : chunkStart offset = first := by
    simp only [chunkStart]
    omega
  have htwo : (first : Int) + MAX_CHUNK_SIZE = (first + MAX_CHUNK_SIZE : Nat) := by simp
  generalize s.bufferHitCheck (toInt offset) MAX_CHUNK_SIZE fd = r at *
  obtain ⟨info, s₁⟩ := r
  dsimp only at hch hperm hres hmove
  rw [hone, htwo] at hch
  cases hf with
  | @perfectHit b hb =>
    -- an aligned buffer does not start at an offset inside a chunk
    obtain ⟨hdvd, -⟩ := h.aligned b hb hch.1
    rw [hch.2] at hdvd
    exact absurd (Nat.mod_eq_zero_of_dvd (Int.natCast_dvd_natCast.1 hdvd)) hp
  | partialHit _ hb _ hx =>
    obtain ⟨-, hbs, hxs⟩ := hch
    exact .both (hperm.mem_iff.2 hb) (hperm.mem_iff.2 hx) hbs hxs
  | @first b _ hb =>
    obtain ⟨-, -, hbs, hno⟩ := hch
    refine .first hmove hbs ?_ (mt hres.1 hno)
    rw [(h.aligned b hb hbs.1).2, hbs.2, htwo]
  | @second x _ hx =>
    obtain ⟨-, -, hxs, hno⟩ := hch
    refine .second hmove hxs ?_ (mt hres.1 hno)
    rw [(h.aligned x hx hxs.1).2, hxs.2]
  | perfectMiss =>
    obtain ⟨hno, hno'⟩ := hch
    exact .neither (mt hres.1 hno) (mt hres.1 (hno' hp))

end EE516.Bbfs
