import EE516.Bbfs.Duplicates

/-!
# Requests at any offset

`bufferHitCheck` and `addFileBuffer` take the offset as an `int`, so a request far up in a file is
cut to 32 bits. The buffers are still chunks of the file that the requests are for, with the end of
the chunk cut in the same way.
-/

set_option autoImplicit false

namespace EE516.Bbfs

open Foundations

variable {s s' : State} {b c : FileBuffer} {fd : Int} {env : Env} {offset : Nat}
variable {x t start stop : Int} {buf : List UInt8} {conf : Conf} {rand : Nat}

/-- An `int` plus a number is cut as a whole. -/
@[simp] theorem toInt_toInt_add (x k : Int) : toInt (toInt x + k) = toInt (x + k) := by
  simp only [toInt]
  omega

@[simp] theorem toInt_toInt (x : Int) : toInt (toInt x) = toInt x := by
  simp only [toInt]
  omega

theorem dvd_toInt (h : (MAX_CHUNK_SIZE : Int) ∣ x) : (MAX_CHUNK_SIZE : Int) ∣ toInt x := by
  simp only [toInt, MAX_CHUNK_SIZE] at *
  omega

/-- The buffer is one of the file, from a multiple of the chunk size on that is an `int`. -/
structure FileBuffer.Placed (fd : Int) (b : FileBuffer) : Prop where
  fd : b.fd = fd
  dvd : (MAX_CHUNK_SIZE : Int) ∣ b.fromOffset
  fromOffset : toInt b.fromOffset = b.fromOffset
  toOffset : b.toOffset = toInt (b.fromOffset + MAX_CHUNK_SIZE)

/-- A target that is covered lies in the chunk of the buffer, and its end is not cut. -/
theorem FileBuffer.Placed.of_covers (hb : b.Placed fd) (h : b.Covers fd t) :
    b.fromOffset = t - t % MAX_CHUNK_SIZE ∧ b.toOffset = b.fromOffset + MAX_CHUNK_SIZE := by
  obtain ⟨-, hdvd, hfrom, hto⟩ := hb
  obtain ⟨-, h₁, h₂⟩ := h
  rw [hto] at h₂ ⊢
  simp only [toInt, MAX_CHUNK_SIZE] at *
  omega

theorem placed_of_slot_eq (h : b.slot = c.slot) (hb : b.Placed fd) : c.Placed fd := by
  simp only [FileBuffer.slot, Prod.mk.injEq] at h
  obtain ⟨-, hfrom, hto, hfd⟩ := h
  obtain ⟨h₁, h₂, h₃, h₄⟩ := hb
  rw [hfrom] at h₂ h₃ h₄
  exact ⟨hfd ▸ h₁, h₂, h₃, hto ▸ h₄⟩

/-- What holds of the cache after requests for one file. -/
structure Orderly (fd : Int) (s : State) : Prop extends Nodes s where
  placed : ∀ b ∈ s.list, b.Placed fd

theorem State.Fresh.orderly (h : s.Fresh) (fd : Int) : Orderly fd s :=
  { h.nodes with placed := by simp [h.list] }

theorem Orderly.quiet (h : Orderly fd s) (hq : Quiet s s') : Orderly fd s' :=
  { h.toNodes.quiet hq with
    placed := fun b hb => by
      obtain ⟨c, hc, hcb⟩ := hq.mem hb
      exact placed_of_slot_eq hcb (h.placed c hc) }

theorem Orderly.bufferHitCheck {size : Nat} (h : Orderly fd s) :
    Orderly fd (s.bufferHitCheck start size fd).2 := by
  obtain ⟨hperm, hnodes⟩ := @Nodes.bufferHitCheck s fd start size h.toNodes
  exact { hnodes with placed := fun b hb => h.placed b (hperm.mem_iff.1 hb) }

/-- The bounds of a chunk that is added are cut to `int`s. -/
theorem Orderly.addFileBuffer (h : Orderly fd s) (hdvd : (MAX_CHUNK_SIZE : Int) ∣ x)
    (hstart : start = toInt x) (hstop : stop = toInt (x + MAX_CHUNK_SIZE)) :
    Orderly fd (s.addFileBuffer conf rand buf start stop fd) := by
  have hadd := h.toNodes.adds_buffer conf rand buf start stop fd
  obtain ⟨rest, hlist, hsub⟩ := hadd.list
  refine { h.toNodes.addFileBuffer with placed := fun b hb => ?_ }
  rw [hlist] at hb
  rcases List.mem_cons.1 hb with rfl | hb
  · subst hstart hstop
    exact ⟨rfl, dvd_toInt hdvd, toInt_toInt x, (toInt_toInt_add x MAX_CHUNK_SIZE).symm⟩
  · exact h.placed b (hsub.subset hb)

/-- A pointer to a node of the list. -/
theorem deref_eq {stale : List UInt8} (hid : (s.list.map FileBuffer.id).Nodup) (hb : b ∈ s.list) :
    s.deref b stale = b.buf.bytes := by
  rw [State.deref]
  cases hfind : s.list.find? fun c => c.id = b.id with
  | none =>
    have hne := List.find?_eq_none.1 hfind b hb
    simp at hne
  | some c =>
    have hcb : c.id = b.id := by simpa using List.find?_some hfind
    rw [eq_of_id_eq hid (List.mem_of_find?_eq_some hfind) hb hcb]

/-- The node in the front is not freed by the insertion of another one. -/
theorem deref_front {stale : List UInt8} {rest : List FileBuffer}
    (hcount : s.bufferCount = s.list.length)
    (hid : ((s.addFileBuffer conf rand buf start stop fd).list.map FileBuffer.id).Nodup)
    (hl : s.list = b :: rest) (hkeep : ¬ s.EvictsFront conf rand) :
    (s.addFileBuffer conf rand buf start stop fd).deref b stale = b.buf.bytes :=
  deref_eq hid ((added hcount).mem_front hl hcount hkeep)

/-- The two chunks of a request that is not aligned. -/
theorem Orderly.addTwo {first second : List UInt8} {conf' : Conf} {rand' : Nat}
    (h : Orderly fd s) (hdvd : (MAX_CHUNK_SIZE : Int) ∣ x) :
    Orderly fd
      ((s.addFileBuffer conf rand first (toInt x) (toInt (toInt x + MAX_CHUNK_SIZE))
        fd).addFileBuffer conf' rand' second (toInt (toInt x + MAX_CHUNK_SIZE))
        (toInt (toInt x + MAX_CHUNK_SIZE + MAX_CHUNK_SIZE)) fd) := by
  have hdvd' : (MAX_CHUNK_SIZE : Int) ∣ x + MAX_CHUNK_SIZE := Int.dvd_add hdvd (Int.dvd_refl _)
  refine (h.addFileBuffer hdvd rfl (toInt_toInt_add _ _)).addFileBuffer hdvd'
    (toInt_toInt_add _ _) ?_
  rw [Int.add_assoc, toInt_toInt_add, Int.add_assoc]

/-- What a lookup finds, in the arithmetic of `int`. -/
theorem found_lookup (s : State) (fd : Int) (offset : Nat) :
    Found s.list fd (toInt offset) (toInt (toInt offset + MAX_CHUNK_SIZE))
      (s.bufferHitCheck (toInt offset) MAX_CHUNK_SIZE fd).1 :=
  found_scan

theorem dvd_sub_mod (offset : Nat) :
    (MAX_CHUNK_SIZE : Int) ∣ (offset : Int) - (offset % MAX_CHUNK_SIZE : Nat) := by
  simp only [MAX_CHUNK_SIZE]
  omega

/-- A cached read leaves the list orderly, at whatever offset. -/
theorem Orderly.cachedRead (h : Orderly fd s) :
    Orderly fd (s.cachedRead env fd MAX_CHUNK_SIZE offset).2 := by
  have hs := @Orderly.bufferHitCheck s fd (toInt offset) MAX_CHUNK_SIZE h
  have hf := found_lookup s fd offset
  rw [State.cachedRead, State.cachedReadWith]
  generalize s.bufferHitCheck (toInt offset) MAX_CHUNK_SIZE fd = r at *
  obtain ⟨info, s₁⟩ := r
  cases hf with
  | perfectHit | partialHit => exact hs
  | @first b _ hb =>
    obtain ⟨-, hdvd, -, hto⟩ := h.placed b hb
    refine (hs.quiet (quiet_pread ..)).addFileBuffer (Int.dvd_add hdvd (Int.dvd_refl _)) hto ?_
    rw [hto, toInt_toInt_add]
  | @second c _ hc =>
    obtain ⟨-, hdvd, -, hto⟩ := h.placed c hc
    have hdvd' : (MAX_CHUNK_SIZE : Int) ∣ c.toOffset - MAX_CHUNK_SIZE :=
      Int.dvd_sub (hto ▸ dvd_toInt (Int.dvd_add hdvd (Int.dvd_refl _))) (Int.dvd_refl _)
    exact (hs.quiet (quiet_pread ..)).addFileBuffer hdvd' rfl (toInt_toInt_add _ _)
  | perfectMiss =>
    dsimp only
    split
    case isTrue hp =>
      have hdvd : (MAX_CHUNK_SIZE : Int) ∣ offset := by
        simp only [MAX_CHUNK_SIZE] at *
        omega
      exact (hs.quiet (quiet_pread ..)).addFileBuffer hdvd rfl (toInt_toInt_add _ _)
    case isFalse => exact (hs.quiet (quiet_pread ..)).addTwo (dvd_sub_mod offset)

/-- A cached write leaves the list orderly, at whatever offset. -/
theorem Orderly.cachedWrite (h : Orderly fd s) :
    Orderly fd (s.cachedWrite env fd buf MAX_CHUNK_SIZE offset) := by
  have hs := @Orderly.bufferHitCheck s fd (toInt offset) MAX_CHUNK_SIZE h
  have hf := found_lookup s fd offset
  rw [State.cachedWrite]
  generalize s.bufferHitCheck (toInt offset) MAX_CHUNK_SIZE fd = r at *
  obtain ⟨info, s₁⟩ := r
  cases hf with
  | perfectHit => exact hs.quiet ((quiet_setBuf ..).trans (quiet_setDirty ..))
  | partialHit =>
    exact hs.quiet ((((quiet_setBuf ..).trans (quiet_setBuf ..)).trans (quiet_setDirty ..)).trans
      (quiet_setDirty ..))
  | @first b _ hb =>
    obtain ⟨-, hdvd, -, hto⟩ := h.placed b hb
    have hdvd' : (MAX_CHUNK_SIZE : Int) ∣ b.toOffset + MAX_CHUNK_SIZE :=
      Int.dvd_add (hto ▸ dvd_toInt (Int.dvd_add hdvd (Int.dvd_refl _))) (Int.dvd_refl _)
    exact (hs.quiet (((quiet_pread ..).trans (quiet_setBuf ..)).trans
      (quiet_setDirty ..))).addFileBuffer hdvd' rfl rfl
  | @second c _ hc =>
    have hdvd' : (MAX_CHUNK_SIZE : Int) ∣ c.fromOffset - MAX_CHUNK_SIZE :=
      Int.dvd_sub (h.placed c hc).dvd (Int.dvd_refl _)
    exact (hs.quiet ((quiet_pread ..).trans (quiet_setBuf ..))).addFileBuffer hdvd' rfl
      (toInt_toInt_add _ _)
  | perfectMiss =>
    dsimp only
    split
    case isTrue hp =>
      have hdvd : (MAX_CHUNK_SIZE : Int) ∣ offset := by
        simp only [MAX_CHUNK_SIZE] at *
        omega
      exact (hs.quiet (quiet_pread ..)).addFileBuffer hdvd rfl (toInt_toInt_add _ _)
    case isFalse => exact (hs.quiet (quiet_pread ..)).addTwo (dvd_sub_mod offset)

theorem Orderly.bb_read {size : Nat} (h : Orderly fd s) :
    Orderly fd (s.bb_read env fd size offset).2 := by
  have hs := h.quiet (quiet_loadPolicyFromFile s env.conf)
  exact bb_read_cases (hs.quiet (quiet_pread ..)) fun _ _ => hs.cachedRead

/-- A write leaves the list orderly. -/
theorem Orderly.bb_write (h : Orderly fd s) : Orderly fd (s.bb_write env fd buf offset).2 := by
  have hs := h.quiet (quiet_loadPolicyFromFile s env.conf)
  exact bb_write_cases (hs.quiet (quiet_pwrite ..)) fun _ _ => hs.cachedWrite

/-! ## Runs of requests for one file -/

/-- The event of a call that is made in this state. -/
def State.event (s : State) (env : Env) (call : Call) : Event where
  before := s
  env := env
  call := call
  result := (s.perform env call).1

/-- The state after the call. -/
def Event.after (e : Event) : State :=
  (e.before.perform e.env e.call).2

theorem after_read (hpol : (s.loadPolicyFromFile env.conf).policy.cachePolicy ≠ 0) :
    (s.event env (.read fd MAX_CHUNK_SIZE offset)).after =
      ((s.loadPolicyFromFile env.conf).cachedRead env fd MAX_CHUNK_SIZE offset).2 :=
  congrArg Prod.snd (bb_read_cached hpol)

theorem after_write (hpol : (s.loadPolicyFromFile env.conf).policy.cachePolicy ≠ 0)
    (hbuf : buf.length = MAX_CHUNK_SIZE) :
    (s.event env (.write fd buf offset)).after =
      (s.loadPolicyFromFile env.conf).cachedWrite env fd
        ((s.loadPolicyFromFile env.conf).policy.encrypt (strncpy buf buf.length)) MAX_CHUNK_SIZE
        offset :=
  congrArg Prod.snd (bb_write_cached hpol hbuf)

theorem step_event (s : State) (env : Env) (call : Call) :
    StepBy step s (s.event env call) (s.event env call).after :=
  ⟨(env, call), rfl⟩

/-- A read or a write of the file. -/
def Call.IsRequest (fd : Int) : Call → Prop
  | .read fd' _ _ => fd' = fd
  | .write fd' _ _ => fd' = fd
  | .release _ => False

instance (fd : Int) : ∀ c : Call, Decidable (c.IsRequest fd)
  | .read fd' _ _ => inferInstanceAs (Decidable (fd' = fd))
  | .write fd' _ _ => inferInstanceAs (Decidable (fd' = fd))
  | .release _ => inferInstanceAs (Decidable False)

/-- Every request of the file keeps the buffers in their places. -/
theorem Orderly.perform {call : Call} (h : Orderly fd s) (hc : call.IsRequest fd) :
    Orderly fd (s.perform env call).2 := by
  cases call with
  | read fd' size offset =>
    obtain rfl := hc
    exact h.bb_read
  | write fd' buf offset =>
    obtain rfl := hc
    exact h.bb_write
  | release fd' => exact absurd hc id

/-- The list is orderly after every run of requests, at whatever offsets. -/
theorem orderly_run {s₀ : State} {τ : List Event} (hs : s₀.Fresh)
    (h : Run (fun s e s' => StepBy step s e s' ∧ e.call.IsRequest fd) s₀ τ s) : Orderly fd s := by
  refine h.invariant (fun _ s => Orderly fd s) (hs.orderly fd) ?_
  rintro τ s e s' - ho ⟨⟨a, ha⟩, hc⟩
  obtain ⟨rfl, rfl⟩ := step_eq ha
  exact ho.perform hc

end EE516.Bbfs
