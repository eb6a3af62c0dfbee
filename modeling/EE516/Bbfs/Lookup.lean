import Mathlib.Data.List.Nodup
import EE516.Bbfs.Buffers

/-!
# What a lookup finds

The loop of `bufferHitCheck` ends at the first buffer that starts at the request; without one it
reports the last buffer that covers the start of the request and the last one that covers its end.
In a list of chunk-aligned buffers these are the two chunks that the request touches.
-/

set_option autoImplicit false

namespace EE516.Bbfs

open Foundations

variable {l : List FileBuffer} {b c : FileBuffer} {v v' : Option FileBuffer} {t u fd a : Int}
variable {info : HitInfo} {s : State} {offset : Nat} {start : Int}

/-- What a lookup from `t` to `u` in the list says. -/
inductive Found (l : List FileBuffer) (fd t u : Int) : HitInfo → Prop
  | perfectHit {b : FileBuffer} (hb : b ∈ l) (h : b.StartsAt fd t) : Found l fd t u (.PERFECT_HIT b)
  | partialHit {b c : FileBuffer} (hno : ∀ x ∈ l, ¬ x.StartsAt fd t) (hb : b ∈ l)
      (hbt : b.Covers fd t) (hc : c ∈ l) (hcu : c.Covers fd u) : Found l fd t u (.PARTIAL_HIT b c)
  | first {b : FileBuffer} (hno : ∀ x ∈ l, ¬ x.StartsAt fd t) (hb : b ∈ l) (hbt : b.Covers fd t)
      (hu : ∀ x ∈ l, ¬ x.Covers fd u) : Found l fd t u (.PARTIAL_MISS_FIRST b)
  | second {c : FileBuffer} (hno : ∀ x ∈ l, ¬ x.StartsAt fd t) (hc : c ∈ l) (hcu : c.Covers fd u)
      (ht : ∀ x ∈ l, ¬ x.Covers fd t) : Found l fd t u (.PARTIAL_MISS_SECOND c)
  | perfectMiss (hno : ∀ x ∈ l, ¬ x.StartsAt fd t) (ht : ∀ x ∈ l, ¬ x.Covers fd t)
      (hu : ∀ x ∈ l, ¬ x.Covers fd u) : Found l fd t u .PERFECT_MISS

/-- The last buffer of the list with the property. -/
def lastWith (P : FileBuffer → Bool) (l : List FileBuffer) : Option FileBuffer :=
  l.reverse.find? P

theorem lastWith_cons (P : FileBuffer → Bool) :
    (lastWith P (b :: l)).or v = (lastWith P l).or (if P b then some b else v) := by
  simp only [lastWith, List.reverse_cons, List.find?_append, Option.or_assoc, List.find?_singleton]
  split <;> simp

/-- The loop in closed form. -/
theorem scan_eq :
    scan t u fd l v v' =
      match l.find? fun b => b.StartsAt fd t with
      | some b => .PERFECT_HIT b
      | none =>
        .ofParts ((lastWith (fun b => b.Covers fd t) l).or v)
          ((lastWith (fun b => b.Covers fd u) l).or v') := by
  induction l generalizing v v' with
  | nil => rfl
  | cons pos l ih =>
    rw [scan]
    by_cases h : pos.StartsAt fd t
    · rw [if_pos h, List.find?_cons_of_pos (by simpa using h)]
    · rw [if_neg h, ih, List.find?_cons_of_neg (by simpa using h), lastWith_cons, lastWith_cons]
      simp only [decide_eq_true_eq]

/-- What is found is in the list and has the property. -/
theorem of_lastWith_eq_some {P : FileBuffer → Prop} [DecidablePred P]
    (h : lastWith (fun b => P b) l = some b) : b ∈ l ∧ P b := by
  refine ⟨List.mem_reverse.1 (List.mem_of_find?_eq_some h), ?_⟩
  simpa using List.find?_some h

/-- If nothing is found, nothing in the list has the property. -/
theorem of_lastWith_eq_none {P : FileBuffer → Prop} [DecidablePred P]
    (h : lastWith (fun b => P b) l = none) : ∀ b ∈ l, ¬ P b := by
  intro b hb
  simpa using List.find?_eq_none.1 h b (List.mem_reverse.2 hb)

/-- A lookup reports what is in the list. -/
theorem found_scan : Found l fd t u (scan t u fd l none none) := by
  rw [scan_eq]
  cases hp : l.find? fun b => b.StartsAt fd t with
  | some b => exact .perfectHit (List.mem_of_find?_eq_some hp) (by simpa using List.find?_some hp)
  | none =>
    have hno : ∀ x ∈ l, ¬ x.StartsAt fd t := by simpa using List.find?_eq_none.1 hp
    simp only [Option.or_none]
    cases ht : lastWith (fun b => b.Covers fd t) l with
    | some b =>
      obtain ⟨hb, hbt⟩ := of_lastWith_eq_some ht
      cases hu : lastWith (fun b => b.Covers fd u) l with
      | some c =>
        obtain ⟨hc, hcu⟩ := of_lastWith_eq_some hu
        exact .partialHit hno hb hbt hc hcu
      | none => exact .first hno hb hbt (of_lastWith_eq_none hu)
    | none =>
      cases hu : lastWith (fun b => b.Covers fd u) l with
      | some c =>
        obtain ⟨hc, hcu⟩ := of_lastWith_eq_some hu
        exact .second hno hc hcu (of_lastWith_eq_none ht)
      | none => exact .perfectMiss hno (of_lastWith_eq_none ht) (of_lastWith_eq_none hu)

/-! ## Aligned buffers -/

/-- The buffer stands for one whole chunk. -/
def FileBuffer.Aligned (b : FileBuffer) : Prop :=
  (MAX_CHUNK_SIZE : Int) ∣ b.fromOffset ∧ b.toOffset = b.fromOffset + MAX_CHUNK_SIZE

/-- An aligned buffer of the file covers exactly the targets inside its chunk. -/
theorem covers_iff (hb : b.fd = fd → b.Aligned) :
    b.Covers fd t ↔ b.StartsAt fd (t - t % MAX_CHUNK_SIZE) ∧ t % MAX_CHUNK_SIZE ≠ 0 := by
  by_cases hfd : b.fd = fd
  · obtain ⟨⟨k, hk⟩, hto⟩ := hb hfd
    simp only [FileBuffer.Covers, FileBuffer.StartsAt, MAX_CHUNK_SIZE] at hk hto ⊢
    omega
  · exact ⟨fun h => absurd h.1 hfd, fun h => absurd h.1.1 hfd⟩

/-! ## The chunks of a request -/

/-- The file and the chunk that a buffer stands for. -/
def FileBuffer.key (b : FileBuffer) : Int × Int :=
  (b.fd, b.fromOffset)

/-- A buffer of the file starts there. -/
def Resident (s : State) (fd start : Int) : Prop :=
  ∃ b ∈ s.list, b.StartsAt fd start

instance (s : State) (fd start : Int) : Decidable (Resident s fd start) :=
  inferInstanceAs (Decidable (∃ b ∈ s.list, _))

/-- The start of the chunk in which a request begins. -/
def chunkStart (offset : Nat) : Int :=
  offset - offset % MAX_CHUNK_SIZE

/-- A chunk is cached exactly if its key is in the list. -/
theorem resident_iff : Resident s fd start ↔ (fd, start) ∈ s.list.map FileBuffer.key := by
  simp [Resident, FileBuffer.StartsAt, FileBuffer.key]

/-- The chunks that an unaligned lookup found or missed. -/
theorem chunks_of_found (hl : ∀ b ∈ s.list, b.fd = fd → b.Aligned)
    (h : Found s.list fd offset (offset + MAX_CHUNK_SIZE) info) :
    match info with
    | .PERFECT_HIT b => b.StartsAt fd offset
    | .PARTIAL_HIT b c =>
      offset % MAX_CHUNK_SIZE ≠ 0 ∧ b.StartsAt fd (chunkStart offset) ∧
        c.StartsAt fd (chunkStart offset + MAX_CHUNK_SIZE)
    | .PARTIAL_MISS_FIRST b =>
      offset % MAX_CHUNK_SIZE ≠ 0 ∧ b ∈ s.list ∧ b.StartsAt fd (chunkStart offset) ∧
        ¬ Resident s fd (chunkStart offset + MAX_CHUNK_SIZE)
    | .PARTIAL_MISS_SECOND c =>
      offset % MAX_CHUNK_SIZE ≠ 0 ∧ c ∈ s.list ∧
        c.StartsAt fd (chunkStart offset + MAX_CHUNK_SIZE) ∧ ¬ Resident s fd (chunkStart offset)
    | .PERFECT_MISS =>
      ¬ Resident s fd (chunkStart offset) ∧
        (offset % MAX_CHUNK_SIZE ≠ 0 → ¬ Resident s fd (chunkStart offset + MAX_CHUNK_SIZE)) := by
  have h₁ : (offset : Int) - (offset : Int) % MAX_CHUNK_SIZE = chunkStart offset := by
    simp [chunkStart]
  have h₂ : (offset + MAX_CHUNK_SIZE : Int) - (offset + MAX_CHUNK_SIZE : Int) % MAX_CHUNK_SIZE =
      chunkStart offset + MAX_CHUNK_SIZE := by
    simp only [chunkStart, MAX_CHUNK_SIZE]
    omega
  have hp₁ : (offset : Int) % MAX_CHUNK_SIZE ≠ 0 ↔ offset % MAX_CHUNK_SIZE ≠ 0 := by
    simp only [MAX_CHUNK_SIZE]
    omega
  have hp₂ :
      (offset + MAX_CHUNK_SIZE : Int) % MAX_CHUNK_SIZE ≠ 0 ↔ offset % MAX_CHUNK_SIZE ≠ 0 := by
    simp only [MAX_CHUNK_SIZE]
    omega
  -- what covers the two ends of the request, in terms of the two chunks
  have ht : ∀ b ∈ s.list, b.Covers fd offset ↔
      b.StartsAt fd (chunkStart offset) ∧ offset % MAX_CHUNK_SIZE ≠ 0 := fun b hb => by
    rw [covers_iff (hl b hb), h₁, hp₁]
  have hu : ∀ b ∈ s.list, b.Covers fd (offset + MAX_CHUNK_SIZE) ↔
      b.StartsAt fd (chunkStart offset + MAX_CHUNK_SIZE) ∧ offset % MAX_CHUNK_SIZE ≠ 0 :=
    fun b hb => by rw [covers_iff (hl b hb), h₂, hp₂]
  cases h with
  | perfectHit hb hbs => exact hbs
  | partialHit hno hb hbt hc hcu =>
    obtain ⟨hbs, hp⟩ := (ht _ hb).1 hbt
    exact ⟨hp, hbs, ((hu _ hc).1 hcu).1⟩
  | first hno hb hbt hnu =>
    obtain ⟨hbs, hp⟩ := (ht _ hb).1 hbt
    refine ⟨hp, hb, hbs, ?_⟩
    rintro ⟨x, hx, hxs⟩
    exact hnu x hx ((hu x hx).2 ⟨hxs, hp⟩)
  | second hno hc hcu hnt =>
    obtain ⟨hcs, hp⟩ := (hu _ hc).1 hcu
    refine ⟨hp, hc, hcs, ?_⟩
    rintro ⟨x, hx, hxs⟩
    exact hnt x hx ((ht x hx).2 ⟨hxs, hp⟩)
  | perfectMiss hno hnt hnu =>
    refine ⟨?_, ?_⟩
    · rintro ⟨x, hx, hxs⟩
      by_cases hp : offset % MAX_CHUNK_SIZE = 0
      · refine hno x hx ?_
        have hz : chunkStart offset = offset := by
          simp only [chunkStart, MAX_CHUNK_SIZE] at *
          omega
        rwa [hz] at hxs
      · exact hnt x hx ((ht x hx).2 ⟨hxs, hp⟩)
    · rintro hp ⟨x, hx, hxs⟩
      exact hnu x hx ((hu x hx).2 ⟨hxs, hp⟩)

/-! ## Moves in the list -/

/-- Nodes have addresses of their own. -/
theorem eq_of_id_eq (hid : (l.map FileBuffer.id).Nodup) (hb : b ∈ l) (hc : c ∈ l)
    (h : b.id = c.id) : b = c :=
  List.inj_on_of_nodup_map hid hb hc h

/-- The buffers are only reordered. -/
theorem listMove_perm (hid : (l.map FileBuffer.id).Nodup) (hb : b ∈ l) : (listMove b l).Perm l := by
  obtain ⟨c, l₁, l₂, -, hc, rfl, he⟩ :=
    List.exists_of_eraseP (p := fun c : FileBuffer => c.id = b.id) hb (by simp)
  have hcb : c = b := eq_of_id_eq hid (by simp) hb (by simpa using hc)
  rw [listMove, he, ← hcb]
  exact List.perm_middle.symm

/-- A lookup only reorders the list. -/
theorem Found.move_perm (hid : (l.map FileBuffer.id).Nodup) (h : Found l fd t u info) :
    (info.move l).Perm l := by
  cases h with
  | perfectHit hb | first _ hb | second _ hb => exact listMove_perm hid hb
  | partialHit _ hb _ hc =>
    have hperm := listMove_perm hid hc
    exact (listMove_perm ((hperm.map _).nodup_iff.2 hid) (hperm.mem_iff.2 hb)).trans hperm
  | perfectMiss => exact .refl _

end EE516.Bbfs
