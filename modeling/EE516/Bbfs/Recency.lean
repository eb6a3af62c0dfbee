import EE516.Foundations.Recency
import EE516.Bbfs.Classification
import EE516.Bbfs.Orderly

/-!
# The least recently used buffer leaves

Recency is kept by moves in the list alone. A buffer is touched when it is inserted and when a
lookup returns it, the first part of a partial hit after the second one. Under the cache policy 2
the list is always in the order of the last touches, and an eviction takes the buffer whose last
touch is the oldest.
-/

set_option autoImplicit false

namespace EE516.Bbfs

open Foundations

variable {s s' : State} {l : List FileBuffer} {b v new : FileBuffer} {fd start stop : Int}
variable {env : Env} {offset size : Nat} {buf : List UInt8} {conf : Conf} {rand : Nat}
variable {T : List Nat} {io base : List Io} {info : HitInfo} {e : Event} {τ : List Event}

/-! ## What is recorded of touches and evictions -/

/-- The nodes that were inserted, newest first. -/
def insertedIds : List Io → List Nat
  | [] => []
  | .insert b _ :: io => b.id :: insertedIds io
  | _ :: io => insertedIds io

/-- The list that the last call of `addFileBuffer` met. -/
def lastEntered : List Io → List FileBuffer
  | [] => []
  | .enter l :: _ => l
  | _ :: io => lastEntered io

/-- With the touches `T` before the record, each buffer that is freed is one of the list, and every
other buffer of the list was touched after it. -/
def OldestLeaves (T : List Nat) : List Io → Prop
  | [] => True
  | .free v :: io =>
    (v ∈ lastEntered io ∧ ∀ b ∈ lastEntered io, b ≠ v →
      (insertedIds io ++ T).idxOf b.id < (insertedIds io ++ T).idxOf v.id) ∧ OldestLeaves T io
  | _ :: io => OldestLeaves T io

@[simp] theorem insertedIds_writeBackIo (v : FileBuffer) (fd : Int) (io : List Io) :
    insertedIds (v.writeBackIo fd ++ io) = insertedIds io := by
  rw [FileBuffer.writeBackIo]
  split <;> rfl

@[simp] theorem lastEntered_writeBackIo (v : FileBuffer) (fd : Int) (io : List Io) :
    lastEntered (v.writeBackIo fd ++ io) = lastEntered io := by
  rw [FileBuffer.writeBackIo]
  split <;> rfl

@[simp] theorem oldestLeaves_writeBackIo (T : List Nat) (v : FileBuffer) (fd : Int)
    (io : List Io) : OldestLeaves T (v.writeBackIo fd ++ io) ↔ OldestLeaves T io := by
  rw [FileBuffer.writeBackIo]
  split <;> rfl

/-- What a call records. -/
def Event.newIo (e : Event) : List Io :=
  e.after.io.take (e.after.io.length - e.before.io.length)

/-- The valid parts that the lookup of a call returns. -/
def Event.found (e : Event) : List FileBuffer :=
  match e.call with
  | .read fd _ offset | .write fd _ offset =>
    (e.before.bufferHitCheck (toInt offset) MAX_CHUNK_SIZE fd).1.parts
  | .release _ => []

/-- The nodes that were touched, newest touch first: each request looks up and then inserts. -/
def touches : List Event → List Nat
  | [] => []
  | e :: τ => insertedIds e.newIo ++ (e.found.map FileBuffer.id ++ touches τ)

theorem newIo_eq (h : e.after.io = io ++ e.before.io) : e.newIo = io := by
  rw [Event.newIo, h, List.length_append, Nat.add_sub_cancel, List.take_left']
  rfl

/-! ## The policy 2 -/

/-- The configuration leaves the cache policy 2 as it is. -/
def KeepsLru : Conf → Prop
  | none => True
  | some (firstValue, secondValue, thirdValue) =>
    0 ≤ firstValue ∧ 0 ≤ secondValue ∧ 0 ≤ thirdValue → thirdValue = 2

instance : ∀ conf, Decidable (KeepsLru conf)
  | none => inferInstanceAs (Decidable True)
  | some _ => inferInstanceAs (Decidable (_ → _))

/-- A configuration that keeps the policy 2 leaves it. -/
theorem KeepsLru.load {p : Policy} (hc : KeepsLru conf) (hp : p.cachePolicy = 2) :
    (p.loadPolicyFromFile conf).cachePolicy = 2 := by
  rcases conf with _ | ⟨firstValue, secondValue, thirdValue⟩
  · exact hp
  · simp only [Policy.loadPolicyFromFile]
    split
    case isTrue h =>
      have hthird : thirdValue = 2 := hc h
      subst hthird
      split <;> rfl
    case isFalse => exact hp

/-- The request is made, and evicts, under the policy 2. -/
def Event.Lru (e : Event) : Prop :=
  (e.before.loadPolicyFromFile e.env.conf).policy.cachePolicy = 2 ∧ KeepsLru e.env.evict₁.1 ∧
    KeepsLru e.env.evict₂.1

instance (e : Event) : Decidable e.Lru :=
  inferInstanceAs (Decidable (_ ∧ _ ∧ _))

/-! ## Steps -/

/-- Since the record was `base`, with the touches `T` before, the list has kept the order of the
touches and evictions have taken the oldest. -/
structure Recent (T : List Nat) (base : List Io) (s : State) : Prop extends Nodes s where
  lru : s.policy.cachePolicy = 2
  since : ∃ io, s.io = io ++ base ∧
    NewestFirst (insertedIds io ++ T) (s.list.map FileBuffer.id) ∧ OldestLeaves T io

/-- A move to the front, seen on the nodes. -/
theorem map_id_listMove (b : FileBuffer) (l : List FileBuffer) :
    (listMove b l).map FileBuffer.id = b.id :: (l.map FileBuffer.id).erase b.id := by
  rw [listMove, List.map_cons, List.erase_eq_eraseP', List.eraseP_map]
  rfl

/-- A lookup touches the parts that it returns. -/
theorem newestFirst_move (h : NewestFirst T (l.map FileBuffer.id)) (info : HitInfo) :
    NewestFirst (info.parts.map FileBuffer.id ++ T) ((info.move l).map FileBuffer.id) := by
  have hmove : ∀ {T l} (b : FileBuffer), NewestFirst T (l.map FileBuffer.id) →
      NewestFirst (b.id :: T) ((listMove b l).map FileBuffer.id) := by
    intro T l b h
    rw [map_id_listMove]
    exact h.moveToFront b.id
  cases info with
  | PERFECT_HIT b | PARTIAL_MISS_FIRST b | PARTIAL_MISS_SECOND b => exact hmove b h
  | PARTIAL_HIT b c => exact hmove b (hmove c h)
  | PERFECT_MISS => exact h

/-- A step that leaves the record, the policy and the nodes of the list alone. -/
theorem Recent.same (h : Recent T base s) (hq : Quiet s s') (hio : s'.io = s.io)
    (hp : s'.policy = s.policy) : Recent T base s' :=
  { h.toNodes.quiet hq with
    lru := hp ▸ h.lru
    since := by
      rw [hio, hq.ids]
      exact h.since }

theorem Recent.pread (h : Recent T base s) (fd : Int) (size : Nat) (start : Int) :
    Recent T base (s.record (.pread fd size start)) :=
  { h.toNodes.quiet (quiet_pread s fd size start) with
    lru := h.lru
    since := by
      obtain ⟨io, hio, hnew, hold⟩ := h.since
      exact ⟨.pread fd size start :: io, congrArg _ hio, hnew, hold⟩ }

theorem Recent.setBuf (h : Recent T base s) (b : FileBuffer) (buf : List UInt8) :
    Recent T base (s.setBuf b buf) :=
  h.same (quiet_setBuf s b buf) rfl rfl

theorem Recent.setDirty (h : Recent T base s) (b : FileBuffer) : Recent T base (s.setDirty b) :=
  h.same (quiet_setDirty s b) rfl rfl

/-- An insertion touches the new buffer, and what it evicts is the last of the list. -/
theorem Recent.added (h : Recent T base s) (hc : KeepsLru conf) (hid : new.id = s.nextId)
    (hs : Added s conf rand new s') : Recent T base s' := by
  have hnodes := h.toNodes.added hid hs
  obtain ⟨io, hio, hnew, hold⟩ := h.since
  -- the address is a new one
  have hfresh : new.id ∉ s.list.map FileBuffer.id := by
    intro hm
    obtain ⟨b, hb, hbid⟩ := List.mem_map.1 hm
    have hlt := h.allocated b hb
    omega
  cases hs with
  | room =>
    have hio' : .insert new s.list :: .enter s.list :: s.io =
        (.insert new s.list :: .enter s.list :: io) ++ base := by simp [hio]
    exact { hnodes with
      lru := h.lru
      since := ⟨_, hio', hnew.touch hfresh, hold⟩ }
  | @full l₁ l₂ v _ hl hp =>
    -- under the policy 2 nothing is behind the buffer that is evicted
    have hlru : (s.policy.loadPolicyFromFile conf).cachePolicy = 2 := hc.load h.lru
    have hnil : l₂ = [] := by
      rw [Picks, hlru] at hp
      exact hp
    subst hnil
    rw [List.append_nil] at hnodes ⊢
    have hsub : l₁.Sublist s.list := hl ▸ List.sublist_append_left l₁ [v]
    have hio' : .insert new l₁ :: .free v :: (v.writeBackIo v.fd ++ .enter s.list :: s.io) =
        (.insert new l₁ :: .free v :: (v.writeBackIo v.fd ++ .enter s.list :: io)) ++ base := by
      simp [hio]
    refine { hnodes with lru := hlru, since := ⟨_, hio', ?_, ?_⟩ }
    · simp only [insertedIds, insertedIds_writeBackIo]
      exact (hnew.sublist (hsub.map _)).touch fun hm => hfresh ((hsub.map _).subset hm)
    · simp only [OldestLeaves, oldestLeaves_writeBackIo, lastEntered_writeBackIo, lastEntered,
        insertedIds_writeBackIo, insertedIds]
      refine ⟨⟨by simp [hl], fun b hb hne => ?_⟩, hold⟩
      -- the others stand before it in the list, and so were touched after it
      rw [hl, List.map_append] at hnew
      have hb₁ : b ∈ l₁ := by
        rw [hl] at hb
        simpa [hne] using hb
      exact hnew.last_oldest (List.mem_map_of_mem hb₁)

/-- Under the policy 2 an insertion keeps the list ordered by the last use. -/
theorem Recent.addFileBuffer (h : Recent T base s) (hc : KeepsLru conf) :
    Recent T base (s.addFileBuffer conf rand buf start stop fd) :=
  h.added hc rfl (Bbfs.added h.bufferCount)

/-! ## Requests -/

/-- The lookup that a request begins with. -/
theorem Nodes.recent (h : Nodes s) (hnew : NewestFirst T (s.list.map FileBuffer.id))
    (hlru : s.policy.cachePolicy = 2) (start : Int) (size : Nat) (fd : Int) :
    Recent ((s.bufferHitCheck start size fd).1.parts.map FileBuffer.id ++ T) s.io
      (s.bufferHitCheck start size fd).2 :=
  { (h.bufferHitCheck).2 with
    lru := hlru
    since := ⟨[], rfl, newestFirst_move hnew _, trivial⟩ }

/-- Every step of a cached request keeps the list ordered by the last use. -/
theorem recent_keptBy (hc₁ : KeepsLru env.evict₁.1) (hc₂ : KeepsLru env.evict₂.1) :
    KeptBy env (Recent T base) where
  pread h := h.pread
  setBuf h := h.setBuf
  setDirty h := h.setDirty
  add₁ h _ _ _ _ := h.addFileBuffer hc₁
  add₂ h _ _ _ _ := h.addFileBuffer hc₂

/-- A request of one chunk with the cache keeps the order. -/
theorem Recent.perform {call : Call} (h : Nodes s)
    (hnew : NewestFirst T (s.list.map FileBuffer.id)) (hc : Cached (s.event env call))
    (hlru : (s.event env call).Lru) :
    Recent ((s.event env call).found.map FileBuffer.id ++ T) s.io (s.event env call).after := by
  obtain ⟨hpol, hc₁, hc₂⟩ := hlru
  have huse : (s.loadPolicyFromFile env.conf).policy.cachePolicy ≠ 0 := hc.uses_cache
  obtain ⟨hsize, -⟩ := hc
  have hs : Nodes (s.loadPolicyFromFile env.conf) := h.quiet (quiet_loadPolicyFromFile s env.conf)
  cases call with
  | read fd size offset =>
    obtain rfl : size = MAX_CHUNK_SIZE := hsize
    rw [after_read huse]
    exact (recent_keptBy hc₁ hc₂).cachedRead (hs.recent hnew hpol ..)
  | write fd buf offset =>
    have hlen : buf.length = MAX_CHUNK_SIZE := hsize
    rw [after_write huse hlen]
    exact (recent_keptBy hc₁ hc₂).cachedWrite (hs.recent hnew hpol ..)
  | release fd => exact absurd hsize id

/-! ## Runs -/

/-- A request of one chunk under the policy 2. -/
def LruStep (s : State) (e : Event) (s' : State) : Prop :=
  StepBy step s e s' ∧ Cached e ∧ e.Lru

/-- In every run of requests under the policy 2 the list is in the order of the last touches, and
each eviction has taken the buffer of the list whose last touch was the oldest. -/
theorem least_recently_used {s₀ : State} (hs : s₀.Fresh) (h : Run LruStep s₀ τ s) :
    NewestFirst (touches τ) (s.list.map FileBuffer.id) ∧
      ∀ later e earlier, τ = later ++ e :: earlier →
        OldestLeaves (e.found.map FileBuffer.id ++ touches earlier) e.newIo := by
  refine (h.invariant (fun τ s => Nodes s ∧ NewestFirst (touches τ) (s.list.map FileBuffer.id) ∧
    ∀ later e earlier, τ = later ++ e :: earlier →
      OldestLeaves (e.found.map FileBuffer.id ++ touches earlier) e.newIo) ?_ ?_).2
  · refine ⟨hs.nodes, ?_, ?_⟩
    · rw [hs.list]
      exact newestFirst_nil _
    · intro later e earlier heq
      cases later <;> cases heq
  · rintro τ s e s' - ⟨hn, hnew, hold⟩ ⟨⟨⟨env, call⟩, ha⟩, hc, hlru⟩
    obtain ⟨rfl, rfl⟩ := step_eq ha
    have hr := Recent.perform hn hnew hc hlru
    obtain ⟨io, hio, hnew', hold'⟩ := hr.since
    have hio' : (s.event env call).newIo = io := newIo_eq hio
    refine ⟨hr.toNodes, ?_, ?_⟩
    · have htouch : touches (s.event env call :: τ) =
          insertedIds io ++ ((s.event env call).found.map FileBuffer.id ++ touches τ) := by
        rw [touches, hio']
      exact htouch ▸ hnew'
    · intro later e earlier heq
      cases later with
      | nil =>
        cases heq
        exact hio' ▸ hold'
      | cons e' later =>
        obtain ⟨-, rfl⟩ := List.cons.inj heq
        exact hold later e earlier rfl

/-- The first chunk of an empty file is read. -/
def readAtZero : Event :=
  (mount (oneFile [])).event (plainEnv 2) (.read 3 MAX_CHUNK_SIZE 0)

/-- A request that begins in it is read. -/
def readAtOne : Event :=
  readAtZero.after.event (plainEnv 2) (.read 3 MAX_CHUNK_SIZE 1)

/-- The chunk that the second read adds is newer than the one that it found. -/
theorem least_recently_used_two :
    readAtOne.after.list.map FileBuffer.id = [1, 0] ∧
      NewestFirst (touches [readAtOne, readAtZero]) (readAtOne.after.list.map FileBuffer.id) :=
  ⟨by decide +kernel, (least_recently_used (fresh_mount (oneFile []))
    (.step (.step .start ⟨step_event _ _ _, by decide +kernel, by decide +kernel⟩)
      ⟨step_event _ _ _, by decide +kernel, by decide +kernel⟩)).1⟩

end EE516.Bbfs
