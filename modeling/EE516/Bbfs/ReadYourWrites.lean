import Mathlib.Data.Finset.Card
import Mathlib.Data.Finset.Image
import EE516.Bbfs.AlignedRequests

/-!
# Reading your writes

As long as the cache has room for every chunk that is touched, nothing is evicted and the file
behind it does not change. Then the cache mirrors the history: the buffer of a touched chunk holds
the latest write there, encrypted, or what the file holds.
-/

set_option autoImplicit false

namespace EE516.Bbfs

open Foundations

variable {s₀ s s' : State} {b : FileBuffer} {fd : Int} {p : Policy} {offset n : Nat}
variable {w : Option (List UInt8)} {raw buf : List UInt8} {τ : List Event} {e : Event}
variable {f : OpenFile}

/-- The offset of a request. -/
def Call.target : Call → Option Nat
  | .read _ _ offset => some offset
  | .write _ _ offset => some offset
  | .release _ => none

/-- The offsets of all requests. -/
def touched (τ : List Event) : Finset Nat :=
  (τ.filterMap fun e => e.call.target).toFinset

/-- The bytes that the chunk should have in the cache. -/
def stored (s₀ : State) (fd : Int) (p : Policy) (offset : Nat) (τ : List Event) : List UInt8 :=
  match lastWrite offset τ with
  | some buf => p.encrypt buf
  | none => s₀.preadBlock fd MAX_CHUNK_SIZE offset

theorem touched_cons (h : e.call.target = some offset) :
    touched (e :: τ) = insert offset (touched τ) := by
  simp only [touched, List.filterMap_cons, h, List.toFinset_cons]

theorem lastWrite_cons (e : Event) (τ : List Event) (n : Nat) :
    lastWrite n (e :: τ) = (e.call.data n).or (lastWrite n τ) := by
  rw [lastWrite, List.findSome?_cons]
  cases e.call.data n <;> rfl

/-- A write touches the chunk that it writes. -/
theorem Call.target_of_data {c : Call} (h : c.data n = some buf) : c.target = some n := by
  cases c with
  | write fd buf' offset =>
    rw [Call.data] at h
    by_cases ho : offset = n
    · rw [Call.target, ho]
    · rw [if_neg ho] at h
      cases h
  | read | release => cases h

/-- A chunk that no request touched was not written. -/
theorem lastWrite_eq_none (h : n ∉ touched τ) : lastWrite n τ = none := by
  rw [lastWrite, List.findSome?_eq_none_iff]
  intro e he
  cases hd : e.call.data n with
  | none => rfl
  | some buf =>
    refine absurd ?_ h
    rw [touched, List.mem_toFinset, List.mem_filterMap]
    exact ⟨e, he, Call.target_of_data hd⟩

/-- With room for a chunk that is missing, a request only adds that chunk. -/
theorem Serves.keeps (h : Serves s fd offset w raw s')
    (hroom : ¬ Resident s fd offset → s.list.length < MAX_LIST_SIZE) :
    s'.disk = s.disk ∧ s'.policy = s.policy ∧ Resident s' fd offset ∧
      ∀ start, Resident s fd start → Resident s' fd start := by
  cases h with
  | @hit b _ hb hs hlist hdisk hpolicy =>
    have hiff : ∀ start, Resident s' fd start ↔ Resident s fd start := by
      intro start
      rw [resident_iff, resident_iff, (hlist.map _).mem_iff, keys_serveList]
    refine ⟨hdisk, hpolicy, (hiff offset).2 ⟨b, hb, hs⟩, fun start => (hiff start).2⟩
  | miss hno hlist hdisk hpolicy hbound hadd =>
    have hlt := hroom hno
    rw [← hlist] at hlt
    cases hadd with
    | room =>
      refine ⟨hdisk, hpolicy, ⟨_, List.mem_cons_self, rfl, rfl⟩, ?_⟩
      rintro start ⟨b, hb, hs⟩
      exact ⟨b, List.mem_cons_of_mem _ (hlist ▸ hb), hs⟩
    | full hle => exact absurd hlt (Nat.not_lt.2 hle)

/-! ## The mirror -/

/-- The cache has exactly the touched chunks, with the bytes that they should have. -/
structure Mirrors (s₀ : State) (fd : Int) (p : Policy) (τ : List Event) (s : State) : Prop where
  bounded : Bounded s
  unique : Unique s
  disk : s.disk = s₀.disk
  length : ∀ n buf, lastWrite n τ = some buf → buf.length = MAX_CHUNK_SIZE
  buffers : ∀ b ∈ s.list, ∃ n ∈ touched τ, b.StartsAt fd n ∧
    b.buf = .ofBytes (stored s₀ fd p n τ)
  resident : ∀ n ∈ touched τ, Resident s fd n

theorem State.Fresh.mirrors (hs : s₀.Fresh) (fd : Int) (p : Policy) : Mirrors s₀ fd p [] s₀ where
  bounded := hs.bounded
  unique := by simp [Unique, hs.list]
  disk := rfl
  length := nofun
  buffers := by simp [hs.list]
  resident := by simp [touched]

/-- What is stored of a chunk is a chunk. -/
theorem Mirrors.length_stored (h : Mirrors s₀ fd p τ s) (n : Nat) :
    (stored s₀ fd p n τ).length = MAX_CHUNK_SIZE := by
  rw [stored]
  cases hl : lastWrite n τ with
  | none => exact length_preadBlock _ _ _ _
  | some buf =>
    dsimp only
    rw [length_encrypt]
    exact h.length n buf hl

/-- Different buffers stand for different touched chunks. -/
theorem Mirrors.length_le (h : Mirrors s₀ fd p τ s) : s.list.length ≤ (touched τ).card := by
  have hsub : (s.list.map FileBuffer.key).toFinset ⊆
      (touched τ).image fun n : Nat => (fd, (n : Int)) := by
    intro k hk
    obtain ⟨b, hb, rfl⟩ := List.mem_map.1 (List.mem_toFinset.1 hk)
    obtain ⟨n, hn, hs, -⟩ := h.buffers b hb
    exact Finset.mem_image.2 ⟨n, hn, (key_of_startsAt hs).symm⟩
  calc s.list.length = (s.list.map FileBuffer.key).toFinset.card := by
        rw [List.toFinset_card_of_nodup h.unique, List.length_map]
    _ ≤ ((touched τ).image fun n : Nat => (fd, (n : Int))).card := Finset.card_le_card hsub
    _ ≤ (touched τ).card := Finset.card_image_le

/-- A request that misses its chunk finds room. -/
theorem Mirrors.room (h : Mirrors s₀ fd p τ s)
    (hcard : (insert offset (touched τ)).card ≤ MAX_LIST_SIZE) (hno : ¬ Resident s fd offset) :
    s.list.length < MAX_LIST_SIZE := by
  have hnew : offset ∉ touched τ := fun hn => hno (h.resident offset hn)
  rw [Finset.card_insert_of_notMem hnew] at hcard
  exact Nat.lt_of_le_of_lt h.length_le hcard

/-- The bytes that a request finds are the ones that the chunk should have. -/
theorem Mirrors.raw_eq (h : Mirrors s₀ fd p τ s) (hs : Serves s fd offset w raw s') :
    raw = stored s₀ fd p offset τ := by
  rcases hs.raw_eq with ⟨b, hb, hbs, rfl⟩ | ⟨hno, rfl⟩
  · obtain ⟨n, -, hn, hbuf⟩ := h.buffers b hb
    have hno : n = offset := Int.ofNat.inj (hn.2.symm.trans hbs.2)
    rw [hbuf, ← hno]
    exact fit_of_length (h.length_stored n)
  · have hnew : offset ∉ touched τ := fun hn => hno (h.resident offset hn)
    rw [stored, lastWrite_eq_none hnew]
    exact preadBlock_congr h.disk _ _ _

/-- A request on an event list: what is stored at its chunk now. -/
theorem stored_cons_self (htarget : e.call.target = some offset) :
    stored s₀ fd p offset (e :: τ) = (e.call.encoded p).getD (stored s₀ fd p offset τ) := by
  cases hc : e.call with
  | read => simp only [stored, lastWrite_cons, hc, Call.data, Call.encoded, Option.none_or,
      Option.getD_none]
  | write fd' buf offset' =>
    have ho : offset' = offset := Option.some.inj ((congrArg Call.target hc).symm.trans htarget)
    simp only [stored, lastWrite_cons, hc, Call.data, Call.encoded, ho, if_true, Option.some_or,
      Option.getD_some]
  | release => simp [hc, Call.target] at htarget

/-- A request for another chunk leaves the last write. -/
theorem lastWrite_cons_of_ne (htarget : e.call.target = some offset) (hne : n ≠ offset) :
    lastWrite n (e :: τ) = lastWrite n τ := by
  rw [lastWrite_cons]
  cases hd : e.call.data n with
  | none => rfl
  | some buf =>
    exact absurd (Option.some.inj ((Call.target_of_data hd).symm.trans htarget)) hne

theorem Mirrors.loaded (h : Mirrors s₀ fd p τ s) (conf : Conf) :
    Mirrors s₀ fd p τ (s.loadPolicyFromFile conf) where
  bounded := h.bounded.quiet (quiet_loadPolicyFromFile s conf)
  unique := h.unique
  disk := h.disk
  length := h.length
  buffers := h.buffers
  resident := h.resident

/-- What the cache holds after a request of its chunk. -/
theorem Mirrors.serves (h : Mirrors s₀ fd p τ s) (htarget : e.call.target = some offset)
    (hlen : ∀ buf, e.call.data offset = some buf → buf.length = MAX_CHUNK_SIZE)
    (hp : offset % MAX_CHUNK_SIZE = 0)
    (hs : Serves s fd offset (e.call.encoded p) raw s')
    (hcard : (insert offset (touched τ)).card ≤ MAX_LIST_SIZE) : Mirrors s₀ fd p (e :: τ) s' := by
  obtain ⟨hdisk, -, hself, hothers⟩ := hs.keeps (h.room hcard)
  refine ⟨hs.bounded hp, hs.unique h.unique, hdisk.trans h.disk, ?_, ?_, ?_⟩
  · intro n buf hn
    rw [lastWrite_cons, Option.or_eq_some_iff] at hn
    rcases hn with hn | ⟨-, hn⟩
    · have hno : n = offset :=
        Option.some.inj ((Call.target_of_data hn).symm.trans htarget)
      exact hlen buf (hno ▸ hn)
    · exact h.length n buf hn
  · intro b hb
    rw [touched_cons htarget]
    rcases hs.mem h.bounded h.unique hb with ⟨hbs, hbuf⟩ | ⟨hb, hbs⟩
    · refine ⟨offset, Finset.mem_insert_self _ _, hbs, ?_⟩
      rw [hbuf, h.raw_eq hs, stored_cons_self htarget]
    · obtain ⟨n, hn, hns, hbuf⟩ := h.buffers b hb
      have hne : n ≠ offset := by
        rintro rfl
        exact hbs hns
      refine ⟨n, Finset.mem_insert_of_mem hn, hns, ?_⟩
      rw [hbuf, stored, stored, lastWrite_cons_of_ne htarget hne]
  · intro n hn
    rw [touched_cons htarget] at hn
    rcases Finset.mem_insert.1 hn with rfl | hn
    · exact hself
    · exact hothers n (h.resident n hn)

/-- One request keeps the mirror, and a read returns what the chunk should hold. -/
theorem Mirrors.step (h : Mirrors s₀ fd p τ s) (he : ChunkStep fd p s e s')
    (hcard : (touched (e :: τ)).card ≤ MAX_LIST_SIZE) :
    Mirrors s₀ fd p (e :: τ) s' ∧ ∀ offset, e.call = .read fd MAX_CHUNK_SIZE offset →
      e.result = { ret := MAX_CHUNK_SIZE, buf := p.decrypt (stored s₀ fd p offset τ) } := by
  obtain ⟨offset, raw, hp, hcall, hret, hbuf, hserves⟩ := he.serves h.bounded
  have hm := h.loaded e.env.conf
  have hsetting : (s.loadPolicyFromFile e.env.conf).policy.setting = p.setting :=
    he.before ▸ he.2.2.2
  have htarget : e.call.target = some offset := by
    rcases hcall with hc | ⟨buf, -, hc⟩ <;> rw [hc, Call.target]
  have hlen : ∀ buf, e.call.data offset = some buf → buf.length = MAX_CHUNK_SIZE := by
    intro buf hd
    rcases hcall with hc | ⟨buf', hlen, hc⟩
    · rw [hc] at hd
      cases hd
    · rw [hc, Call.data, if_pos rfl] at hd
      exact Option.some.inj hd ▸ hlen
  rw [touched_cons htarget] at hcard
  refine ⟨hm.serves htarget hlen hp hserves hcard, fun offset' hread => ?_⟩
  obtain rfl : offset' = offset :=
    Option.some.inj ((congrArg Call.target hread).symm.trans htarget)
  -- nothing was evicted, so the policy that decrypts is the one of the request
  have hpolicy := (hserves.keeps (hm.room hcard)).2.1
  have hdecrypt : s'.policy.decrypt = p.decrypt := decrypt_congr (by rw [hpolicy, hsetting])
  have hresult := hbuf hread
  rw [hdecrypt, hm.raw_eq hserves] at hresult
  cases hr : e.result with
  | mk ret buf =>
    rw [hr] at hret hresult
    exact congrArg₂ Result.mk hret hresult

theorem touched_mono {τ' : List Event} : touched τ ⊆ touched (τ' ++ τ) := by
  intro n hn
  rw [touched, List.filterMap_append, List.toFinset_append]
  exact Finset.mem_union_right _ hn

/-- Until more than 1280 chunks were touched, the cache mirrors the history. -/
theorem mirrors_of_run (hs : s₀.Fresh) (h : Run (ChunkStep fd p) s₀ τ s) :
    (touched τ).card ≤ MAX_LIST_SIZE → Mirrors s₀ fd p τ s := by
  refine h.invariant (fun τ s => (touched τ).card ≤ MAX_LIST_SIZE → Mirrors s₀ fd p τ s)
    (fun _ => hs.mirrors fd p) ?_
  intro τ s e s' _ ih he hcard
  have hle := Finset.card_le_card (@touched_mono τ [e])
  exact ((ih (hle.trans hcard)).step he hcard).1

/-- With at most as many chunks touched as the cache has room for, every read of a whole chunk
returns the data of the latest write there, or what the file holds, padded with zeros and
decrypted. -/
theorem read_your_writes {after before : List Event} (hs : s₀.Fresh)
    (hf : s₀.disk.fds fd = some f) (hr : f.readable = true)
    (h : Run (ChunkStep fd p) s₀ (after ++ e :: before) s)
    (hcard : (touched (after ++ e :: before)).card ≤ MAX_LIST_SIZE)
    (hread : e.call = .read fd MAX_CHUNK_SIZE offset) :
    e.result =
      { ret := MAX_CHUNK_SIZE
        buf := match lastWrite offset before with
          | some buf => buf
          | none => p.decrypt (fit MAX_CHUNK_SIZE
              (readAt (s₀.disk.files f.ino) offset MAX_CHUNK_SIZE)) } := by
  obtain ⟨s', hrun⟩ := h.before
  have hcard' : (touched (e :: before)).card ≤ MAX_LIST_SIZE :=
    (Finset.card_le_card touched_mono).trans hcard
  cases hrun with
  | @step _ s₁ _ _ hrun he =>
    have hle := Finset.card_le_card (@touched_mono before [e])
    have hm := mirrors_of_run hs hrun (hle.trans hcard')
    rw [(hm.step he hcard').2 offset hread, stored]
    cases hl : lastWrite offset before with
    | some buf =>
      dsimp only
      rw [decrypt_encrypt]
    | none =>
      have hpread : s₀.disk.pread fd MAX_CHUNK_SIZE offset =
          .ok (readAt (s₀.disk.files f.ino) offset MAX_CHUNK_SIZE) := by
        rw [Disk.pread, if_neg (by omega), hf]
        simp only [hr, if_true, Int.toNat_natCast]
      dsimp only
      rw [State.preadBlock, hpread]

/-- A chunk of one byte value. -/
def ones : List UInt8 :=
  List.replicate MAX_CHUNK_SIZE 1

theorem length_ones : ones.length = MAX_CHUNK_SIZE := by
  simp [ones]

theorem not_mem_ones : 0 ∉ ones := by
  simp [ones]

/-- The state after the first chunk of an empty file was written. -/
def afterWrite : State :=
  ((mount (oneFile [])).perform (plainEnv 2) (.write 3 ones 0)).2

/-- The event of the write. -/
def writeOnes : Event where
  before := mount (oneFile [])
  env := plainEnv 2
  call := .write 3 ones 0
  result := ((mount (oneFile [])).perform (plainEnv 2) (.write 3 ones 0)).1

/-- The event of a read after it. -/
def readOnes : Event where
  before := afterWrite
  env := plainEnv 2
  call := .read 3 MAX_CHUNK_SIZE 0
  result := (afterWrite.perform (plainEnv 2) (.read 3 MAX_CHUNK_SIZE 0)).1

/-- The chunk is read back. -/
theorem read_your_writes_ones : readOnes.result = { ret := MAX_CHUNK_SIZE, buf := ones } := by
  have hwrite : ChunkStep 3 .start (mount (oneFile [])) writeOnes afterWrite :=
    ⟨⟨(plainEnv 2, .write 3 ones 0), step_perform _ _⟩, by decide +kernel⟩
  have hread : ChunkStep 3 .start afterWrite readOnes
      (afterWrite.perform (plainEnv 2) (.read 3 MAX_CHUNK_SIZE 0)).2 :=
    ⟨⟨(plainEnv 2, .read 3 MAX_CHUNK_SIZE 0), step_perform _ _⟩, by decide +kernel⟩
  have hrun : Run (ChunkStep 3 .start) (mount (oneFile [])) ([] ++ readOnes :: [writeOnes])
      (afterWrite.perform (plainEnv 2) (.read 3 MAX_CHUNK_SIZE 0)).2 :=
    .step (.step .start hwrite) hread
  have hcard : (touched ([] ++ readOnes :: [writeOnes])).card ≤ MAX_LIST_SIZE := by
    decide +kernel
  exact read_your_writes (fresh_mount (oneFile [])) rfl rfl hrun hcard rfl

end EE516.Bbfs
