import EE516.Bbfs.Buffers

/-!
# What `addFileBuffer` does

With the counter of the buffers right, an eviction always finds a buffer: the counter and the list
give the random policy a target in the list, and the last entry exists. `Added` says all that a call
can do.
-/

set_option autoImplicit false

namespace EE516.Bbfs

open Foundations

variable {s s' : State} {l rest : List FileBuffer} {b v new : FileBuffer}
variable {fd fromOffset toOffset : Int} {buf : List UInt8} {conf : Conf} {rand k : Nat}

/-- The countdown from `k + 1` ends at the node after the first `k`. -/
theorem takeTarget_eq (hk : k < l.length) :
    takeTarget (k + 1) l = some (l.get ⟨k, hk⟩, l.eraseIdx k) := by
  induction l generalizing k with
  | nil => exact absurd hk (Nat.not_lt_zero k)
  | cons pos l ih =>
    cases k with
    | zero => rfl
    | succ k =>
      rw [takeTarget, if_neg (by omega), Nat.add_sub_cancel, ih (Nat.lt_of_succ_lt_succ hk)]
      rfl

/-- The last node is taken out of a list that is not empty. -/
theorem takeLast_eq (hl : l ≠ []) : takeLast l = some (l.getLast hl, l.dropLast) := by
  rw [takeLast, List.getLast?_eq_getLast_of_ne_nil hl, Option.map_some]

/-- Which buffer is evicted under the policy: the one that the random number picks, or the last
one. -/
def Picks (s : State) (p : Policy) (rand : Nat) (l₁ l₂ : List FileBuffer) : Prop :=
  if p.cachePolicy = 1 then l₁.length = rand % s.bufferCount else l₂ = []

/-- The state after the new buffer is added, with nothing or one buffer evicted before. -/
inductive Added (s : State) (conf : Conf) (rand : Nat) (new : FileBuffer) : State → Prop
  | room (h : s.list.length < MAX_LIST_SIZE) :
      Added s conf rand new
        { s with
          list := new :: s.list
          bufferCount := s.bufferCount + 1
          nextId := s.nextId + 1
          io := .insert new s.list :: .enter s.list :: s.io }
  | full {l₁ l₂ : List FileBuffer} {v : FileBuffer} (h : MAX_LIST_SIZE ≤ s.list.length)
      (hl : s.list = l₁ ++ v :: l₂) (hp : Picks s (s.policy.loadPolicyFromFile conf) rand l₁ l₂) :
      Added s conf rand new
        { s with
          list := new :: (l₁ ++ l₂)
          bufferCount := s.bufferCount
          policy := s.policy.loadPolicyFromFile conf
          disk := s.disk.writeBack v.fd v
          nextId := s.nextId + 1
          io := .insert new (l₁ ++ l₂) :: .free v :: (v.writeBackIo v.fd ++ .enter s.list :: s.io) }

/-- A full list has a victim: the one that its policy picks. -/
theorem victim_eq (hcount : s.bufferCount = s.list.length) (h : MAX_LIST_SIZE ≤ s.list.length) :
    ∃ l₁ v l₂, s.victim rand = some (v, l₁ ++ l₂) ∧ s.list = l₁ ++ v :: l₂ ∧
      Picks s s.policy rand l₁ l₂ := by
  have hpos : 0 < s.list.length := Nat.lt_of_lt_of_le (by decide) h
  by_cases hp : s.policy.cachePolicy = 1
  · -- the random number is reduced below the length of the list
    have hk : rand % s.bufferCount < s.list.length := by
      rw [hcount]
      exact Nat.mod_lt _ hpos
    refine ⟨s.list.take (rand % s.bufferCount), s.list.get ⟨_, hk⟩,
      s.list.drop (rand % s.bufferCount + 1), ?_, ?_, ?_⟩
    · rw [State.victim, if_pos hp, Nat.add_comm 1, takeTarget_eq hk,
        List.eraseIdx_eq_take_drop_succ]
    · simp
    · rw [Picks, if_pos hp, List.length_take]
      omega
  · have hne : s.list ≠ [] := List.ne_nil_of_length_pos hpos
    refine ⟨s.list.dropLast, s.list.getLast hne, [], ?_, ?_, ?_⟩
    · rw [State.victim, if_neg hp, takeLast_eq hne, List.append_nil]
    · exact (List.dropLast_append_getLast hne).symm
    · rw [Picks, if_neg hp]

/-- An eviction takes the victim out, writes it back if it is dirty, and frees it. -/
theorem evict_eq (hv : (s.loadPolicyFromFile conf).victim rand = some (v, l)) :
    s.evict conf rand =
      { s with
        list := l
        bufferCount := s.bufferCount - 1
        policy := s.policy.loadPolicyFromFile conf
        disk := s.disk.writeBack v.fd v
        io := .free v :: (v.writeBackIo v.fd ++ s.io) } := by
  simp only [State.evict, hv, writeBack_eq, State.record]
  rfl

/-- What a call of `addFileBuffer` does, whatever it is given. -/
theorem added (hcount : s.bufferCount = s.list.length) :
    Added s conf rand
      { id := s.nextId, fromOffset, toOffset, dirty := false, fd, buf := .ofBytes buf }
      (s.addFileBuffer conf rand buf fromOffset toOffset fd) := by
  rw [State.addFileBuffer]
  by_cases h : MAX_LIST_SIZE ≤ s.list.length
  · obtain ⟨l₁, v, l₂, hv, hl, hp⟩ :=
      @victim_eq ((s.record (.enter s.list)).loadPolicyFromFile conf) rand hcount h
    have hc : s.bufferCount = s.bufferCount - 1 + 1 := by
      have : 0 < MAX_LIST_SIZE := by decide
      omega
    have hfull := @Added.full s conf rand
      { id := s.nextId, fromOffset, toOffset, dirty := false, fd, buf := .ofBytes buf } l₁ l₂ v h
      hl hp
    rw [if_pos (by simpa only [State.record, hcount] using h), evict_eq hv]
    rw [hc] at hfull
    exact hfull
  · rw [if_neg (by simpa only [State.record, hcount] using h)]
    exact .room (Nat.lt_of_not_le h)

/-- An insertion now evicts the buffer in the front. -/
def State.EvictsFront (s : State) (conf : Conf) (rand : Nat) : Prop :=
  MAX_LIST_SIZE ≤ s.bufferCount ∧ (s.policy.loadPolicyFromFile conf).cachePolicy = 1 ∧
    rand % s.bufferCount = 0

instance (s : State) (conf : Conf) (rand : Nat) : Decidable (s.EvictsFront conf rand) :=
  inferInstanceAs (Decidable (_ ∧ _ ∧ _))

/-- The buffer in the front stays. -/
theorem Added.mem_front {rest : List FileBuffer} (hs : Added s conf rand new s')
    (hl : s.list = b :: rest) (hcount : s.bufferCount = s.list.length)
    (hkeep : ¬ s.EvictsFront conf rand) : b ∈ s'.list := by
  cases hs with
  | room => simp [hl]
  | @full l₁ l₂ v hle hlist hp =>
    cases l₁ with
    | cons c l₁ =>
      obtain ⟨rfl, -⟩ := List.cons.inj (hl.symm.trans hlist)
      simp
    | nil =>
      refine absurd ?_ hkeep
      rw [Picks] at hp
      split at hp
      case isTrue hpol => exact ⟨hcount ▸ hle, hpol, hp.symm⟩
      case isFalse =>
        have hone : MAX_LIST_SIZE ≤ 1 := by
          rw [hlist, hp] at hle
          exact hle
        exact absurd hone (by decide)

end EE516.Bbfs
