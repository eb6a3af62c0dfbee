import EE516.Foundations.Phases
import EE516.Bbfs.AlignedRequests
import EE516.Bbfs.Recency

/-!
# Which requests the cache serves

Under the cache policy 2 and with requests of whole chunks, the list holds the chunks that were
requested most recently, in that order. So it is known from the requests alone which of them hit:
those with fewer than `MAX_LIST_SIZE` other chunks requested since the chunk was requested before.
The statistics that a release prints count them, and every other request reads its chunk from the
file.
-/

set_option autoImplicit false

namespace EE516.Bbfs

open Foundations

variable {s s' s₀ s₁ : State} {l : List FileBuffer} {b new : FileBuffer} {fd start stop : Int}
variable {env : Env} {offset : Nat} {buf : List UInt8} {conf : Conf} {rand : Nat}
variable {e : Event} {τ : List Event} {c : Int × Int}

/-! ## Requests and reads of chunks -/

/-- The chunk that a request of one whole chunk is for, below the end of the `int`s: an `int` cannot
tell the offsets beyond it from those before. -/
def Call.chunk : Call → Option (Int × Int)
  | .read fd size offset =>
    if size = MAX_CHUNK_SIZE ∧ offset % MAX_CHUNK_SIZE = 0 ∧ offset < 2 ^ 31 - 8192 then
      some (fd, offset)
    else none
  | .write fd buf offset =>
    if buf.length = MAX_CHUNK_SIZE ∧ offset % MAX_CHUNK_SIZE = 0 ∧ offset < 2 ^ 31 - 8192 then
      some (fd, offset)
    else none
  | .release _ => none

/-- The chunks that were requested, newest first. -/
def requested (τ : List Event) : List (Int × Int) :=
  τ.filterMap fun e => e.call.chunk

/-- The place that a `pread` reads. -/
def Io.fetch : Io → Option (Int × Int)
  | .pread fd _ offset => some (fd, offset)
  | _ => none

/-- The places that were read from the files, newest first. -/
def fetched (io : List Io) : List (Int × Int) :=
  io.filterMap Io.fetch

/-- A request of one whole chunk with the cache. -/
def WholeChunkStep (s : State) (e : Event) (s' : State) : Prop :=
  StepBy step s e s' ∧ Cached e ∧ e.call.chunk.isSome

/-- A request of one whole chunk under the policy 2. -/
def LruChunkStep (s : State) (e : Event) (s' : State) : Prop :=
  WholeChunkStep s e s' ∧ e.Lru

/-- What a request for the chunk does to the list and to the counters, and what it reads from the
file. -/
structure Requests (s : State) (c : Int × Int) (s' : State) : Prop where
  hit : c ∈ s.list.map FileBuffer.key →
    s'.list.map FileBuffer.key = moveToFront c (s.list.map FileBuffer.key) ∧
      s'.hitCount = s.hitCount + 1 ∧ s'.missCount = s.missCount ∧ fetched s'.io = fetched s.io
  miss : c ∉ s.list.map FileBuffer.key →
    (∃ rest, s'.list.map FileBuffer.key = c :: rest ∧
      rest.Sublist (s.list.map FileBuffer.key)) ∧
      s'.hitCount = s.hitCount ∧ s'.missCount = s.missCount + 1 ∧
      fetched s'.io = c :: fetched s.io

/-- Under the policy 2 it is known what leaves a full list. -/
def AccessesLru (s : State) (conf : Conf) (c : Int × Int) (s' : State) : Prop :=
  s.policy.cachePolicy = 2 → KeepsLru conf →
    s'.list.map FileBuffer.key = access MAX_LIST_SIZE c (s.list.map FileBuffer.key)

/-! ## The lookup -/

/-- A lookup reorders the list and counts a hit or a miss. -/
theorem lookup_eq {start : Int} {size : Nat} {info : HitInfo}
    (h : s.bufferHitCheck start size fd = (info, s₁)) :
    s₁.list = info.move s.list ∧
      s₁.hitCount = (if info.isHit then s.hitCount + 1 else s.hitCount) ∧
      s₁.missCount = (if info.isHit then s.missCount else s.missCount + 1) ∧
      s₁.policy = s.policy ∧ s₁.io = s.io := by
  cases h
  exact ⟨rfl, rfl, rfl, rfl, rfl⟩

/-- A node that moves to the front takes its chunk along. -/
theorem map_key_listMove (hid : (l.map FileBuffer.id).Nodup) (hkey : (l.map FileBuffer.key).Nodup)
    (hb : b ∈ l) :
    (listMove b l).map FileBuffer.key = moveToFront b.key (l.map FileBuffer.key) := by
  rw [listMove, moveToFront, List.map_cons, map_eraseP (x := b.key)]
  intro x hx
  rw [decide_eq_true_iff]
  constructor
  · intro h
    rw [List.inj_on_of_nodup_map hid hx hb h]
  · intro h
    rw [List.inj_on_of_nodup_map hkey hx hb h]

/-- What remains of a request that hits: the buffer is read or overwritten. -/
theorem requests_hit (hb : Bounded s) (hu : Unique s) (hmem : b ∈ s.list)
    (hs : b.StartsAt fd offset)
    (heq : s.bufferHitCheck (toInt offset) MAX_CHUNK_SIZE fd = (.PERFECT_HIT b, s₁))
    (hq : Quiet s₁ s') (hio : s'.io = s.io) :
    Requests s (fd, offset) s' ∧ AccessesLru s conf (fd, offset) s' := by
  have hkey : b.key = (fd, (offset : Int)) := key_of_startsAt hs
  have hin : (fd, (offset : Int)) ∈ s.list.map FileBuffer.key := resident_iff.1 ⟨b, hmem, hs⟩
  obtain ⟨hlist, hhit, hmiss, -⟩ := lookup_eq heq
  have hlen : (s.list.map FileBuffer.key).length ≤ MAX_LIST_SIZE := by
    rw [List.length_map, ← hb.bufferCount]
    exact hb.le
  have hfront : s'.list.map FileBuffer.key = moveToFront (fd, (offset : Int))
      (s.list.map FileBuffer.key) := by
    rw [hq.keys, hlist, HitInfo.move, map_key_listMove hb.ids hu hmem, hkey]
  refine ⟨⟨fun _ => ⟨hfront, hq.hitCount.trans hhit, hq.missCount.trans hmiss, by rw [hio]⟩,
    fun hout => absurd hin hout⟩, fun _ _ => ?_⟩
  rw [hfront, access, List.take_of_length_le ((moveToFront_perm hin).length_eq ▸ hlen)]

/-- The new buffer comes to the front, and what leaves a full list is the last one. -/
theorem Added.keys (hs : Added s conf rand new s') (hlru : s.policy.cachePolicy = 2)
    (hc : KeepsLru conf) (hle : s.list.length ≤ MAX_LIST_SIZE) :
    s'.list.map FileBuffer.key = (new.key :: s.list.map FileBuffer.key).take MAX_LIST_SIZE := by
  cases hs with
  | room h =>
    rw [List.take_of_length_le (by simpa using Nat.succ_le_of_lt h), List.map_cons]
  | @full l₁ l₂ v h hl hp =>
    have hnil : l₂ = [] := by
      rw [Picks, hc.load hlru] at hp
      exact hp
    subst hnil
    have hlen : l₁.length + 1 = MAX_LIST_SIZE := by
      have := congrArg List.length hl
      simp at this
      omega
    have hkeep : ((new.key :: l₁.map FileBuffer.key) ++ [v.key]).take MAX_LIST_SIZE =
        new.key :: l₁.map FileBuffer.key :=
      List.take_left' (by simpa using hlen)
    rw [hl, List.map_append, List.append_nil, List.map_cons]
    exact hkeep.symm

/-- An insertion reads nothing from the files. -/
theorem Added.fetched (hs : Added s conf rand new s') : fetched s'.io = fetched s.io := by
  cases hs with
  | room => rfl
  | @full l₁ l₂ v =>
    have hwrite : Bbfs.fetched (v.writeBackIo v.fd) = [] := by
      rw [FileBuffer.writeBackIo]
      split <;> rfl
    simp only [Bbfs.fetched, List.filterMap_cons, List.filterMap_append, Io.fetch] at hwrite ⊢
    rw [hwrite, List.nil_append]

/-- An insertion counts neither hit nor miss. -/
theorem Added.counts (hs : Added s conf rand new s') :
    s'.hitCount = s.hitCount ∧ s'.missCount = s.missCount := by
  cases hs with
  | room => exact ⟨rfl, rfl⟩
  | full => exact ⟨rfl, rfl⟩

/-- What remains of a request that misses: the chunk is read from the file and added. -/
theorem requests_miss (hb : Bounded s) (hno : ¬ Resident s fd offset)
    (heq : s.bufferHitCheck (toInt offset) MAX_CHUNK_SIZE fd = (.PERFECT_MISS, s₁))
    (hkey : new.key = (fd, (offset : Int)))
    (hs : Added (s₁.record (.pread fd MAX_CHUNK_SIZE offset)) conf rand new s') :
    Requests s (fd, offset) s' ∧ AccessesLru s conf (fd, offset) s' := by
  have hout : (fd, (offset : Int)) ∉ s.list.map FileBuffer.key := fun h => hno (resident_iff.2 h)
  obtain ⟨hlist, hhit, hmiss, hpolicy, hio⟩ := lookup_eq heq
  have hlist' : (s₁.record (.pread fd MAX_CHUNK_SIZE offset)).list = s.list := hlist
  have hle : s.list.length ≤ MAX_LIST_SIZE := by
    rw [← hb.bufferCount]
    exact hb.le
  refine ⟨⟨fun hin => absurd hin hout, fun _ => ⟨?_, hs.counts.1.trans hhit,
    hs.counts.2.trans hmiss, ?_⟩⟩, fun hlru hc => ?_⟩
  · obtain ⟨rest, hrest, hsub⟩ := hs.list
    rw [hlist'] at hsub
    exact ⟨rest.map FileBuffer.key, by rw [hrest, List.map_cons, hkey], hsub.map _⟩
  · rw [hs.fetched, ← hio]
    rfl
  · rw [hs.keys (hpolicy ▸ hlru) hc (hlist' ▸ hle), access, moveToFront_of_notMem hout, hkey,
      hlist']

/-! ## Requests -/

/-- A read of a whole chunk requests it. -/
theorem requests_read (env : Env) (fd : Int) (hb : Bounded s) (hu : Unique s)
    (ho : offset < 2 ^ 31 - 8192) (hp : offset % MAX_CHUNK_SIZE = 0) :
    Requests s (fd, offset) (s.cachedRead env fd MAX_CHUNK_SIZE offset).2 ∧
      AccessesLru s env.evict₁.1 (fd, offset) (s.cachedRead env fd MAX_CHUNK_SIZE offset).2 := by
  obtain ⟨hstart, hstop⟩ := toInt_chunk ho
  rw [State.cachedRead, State.cachedReadWith]
  rcases lookup_aligned hb.aligned ho hp with ⟨b, hmem, hs, hinfo⟩ | ⟨hno, hinfo⟩
  · obtain ⟨s₁, heq, -⟩ := exists_bufferHitCheck hb hinfo
    rw [heq]
    exact requests_hit hb hu hmem hs heq .rfl (lookup_eq heq).2.2.2.2
  · obtain ⟨s₁, heq, -, -, -, hb₁⟩ := exists_bufferHitCheck hb hinfo
    rw [heq]
    dsimp only
    rw [if_pos hp, hstart, hstop]
    exact requests_miss hb hno heq rfl (added hb₁.bufferCount)

/-- A write of a whole chunk requests it. -/
theorem requests_write (env : Env) (fd : Int) (buf : List UInt8) (hb : Bounded s) (hu : Unique s)
    (ho : offset < 2 ^ 31 - 8192) (hp : offset % MAX_CHUNK_SIZE = 0) :
    Requests s (fd, offset) (s.cachedWrite env fd buf MAX_CHUNK_SIZE offset) ∧
      AccessesLru s env.evict₁.1 (fd, offset)
        (s.cachedWrite env fd buf MAX_CHUNK_SIZE offset) := by
  obtain ⟨hstart, hstop⟩ := toInt_chunk ho
  rw [State.cachedWrite]
  rcases lookup_aligned hb.aligned ho hp with ⟨b, hmem, hs, hinfo⟩ | ⟨hno, hinfo⟩
  · obtain ⟨s₁, heq, -⟩ := exists_bufferHitCheck hb hinfo
    rw [heq]
    exact requests_hit hb hu hmem hs heq ((quiet_setBuf ..).trans (quiet_setDirty ..))
      (lookup_eq heq).2.2.2.2
  · obtain ⟨s₁, heq, -, -, -, hb₁⟩ := exists_bufferHitCheck hb hinfo
    rw [heq]
    dsimp only
    rw [if_pos hp, hstart, hstop]
    exact requests_miss hb hno heq rfl (added hb₁.bufferCount)

/-- The configuration is read before, and leaves the list and the counters alone. -/
theorem Requests.of_loaded (h : Requests (s.loadPolicyFromFile conf) c s') : Requests s c s' :=
  ⟨h.hit, h.miss⟩

/-- A request of one whole chunk, read or write. -/
theorem WholeChunkStep.requests (h : WholeChunkStep s e s') (hb : Bounded s) (hu : Unique s) :
    Bounded s' ∧ ∃ c, e.call.chunk = some c ∧ Requests s c s' ∧
      (e.Lru → s'.list.map FileBuffer.key =
        access MAX_LIST_SIZE c (s.list.map FileBuffer.key)) := by
  obtain ⟨⟨⟨env, call⟩, ha⟩, hcached, hchunk⟩ := h
  obtain ⟨rfl, rfl⟩ := step_eq ha
  -- reading the policy touches no buffer
  have huse : (s.loadPolicyFromFile env.conf).policy.cachePolicy ≠ 0 := hcached.uses_cache
  have hq := quiet_loadPolicyFromFile s env.conf
  cases call with
  | read fd size offset =>
    simp only [Call.chunk] at hchunk ⊢
    split at hchunk
    case isTrue hwhole =>
      obtain ⟨rfl, hp, ho⟩ := hwhole
      obtain ⟨raw, s₁, heq, hserves⟩ := @bb_read_serves _ fd env _ hb ho hp huse
      obtain ⟨hreq, hlru⟩ := requests_read env fd (hb.quiet hq) (hu.quiet hq) ho hp
      rw [bb_read_cached huse] at heq
      obtain rfl : _ = s₁ := congrArg Prod.snd heq
      rw [State.perform, bb_read_cached huse]
      exact ⟨hserves.bounded hp, (fd, offset), if_pos ⟨rfl, hp, ho⟩, hreq.of_loaded,
        fun h => hlru h.1 h.2.1⟩
    case isFalse => cases hchunk
  | write fd buf offset =>
    simp only [Call.chunk] at hchunk ⊢
    split at hchunk
    case isTrue hwhole =>
      obtain ⟨hlen, hp, ho⟩ := hwhole
      obtain ⟨raw, s₁, heq, hserves⟩ := @bb_write_serves _ fd env _ _ hb ho hp hlen huse
      obtain ⟨hreq, hlru⟩ := requests_write env fd
        ((s.loadPolicyFromFile env.conf).policy.encrypt (strncpy buf buf.length)) (hb.quiet hq)
        (hu.quiet hq) ho hp
      rw [bb_write_cached huse hlen] at heq
      obtain rfl : _ = s₁ := congrArg Prod.snd heq
      rw [State.perform, bb_write_cached huse hlen]
      exact ⟨hserves.bounded hp, (fd, offset), if_pos ⟨hlen, hp, ho⟩, hreq.of_loaded,
        fun h => hlru h.1 h.2.1⟩
    case isFalse => cases hchunk
  | release fd => cases hchunk

/-! ## Runs under the policy 2 -/

/-- The list holds the most recent chunks, and what was counted and read are the requests that such
a list misses. -/
structure Served (τ : List Event) (s : State) : Prop extends Bounded s where
  keys : s.list.map FileBuffer.key = (recent (requested τ)).take MAX_LIST_SIZE
  counts : s.hitCount + s.missCount = τ.length
  missCount : s.missCount = (missed MAX_LIST_SIZE (requested τ)).length
  fetched : fetched s.io = missed MAX_LIST_SIZE (requested τ)

theorem State.Fresh.served (hs : s₀.Fresh) : Served [] s₀ :=
  { hs.bounded with
    keys := by rw [hs.list]; rfl
    counts := by rw [hs.hitCount, hs.missCount]; rfl
    missCount := hs.missCount
    fetched := by rw [hs.io]; rfl }

theorem Served.unique (h : Served τ s) : Unique s := by
  rw [Unique, h.keys]
  exact (nodup_recent _).sublist (List.take_sublist _ _)

/-- A request of a run under the policy 2 keeps list and counters true to the history. -/
theorem Served.step (h : Served τ s) (he : LruChunkStep s e s') : Served (e :: τ) s' := by
  obtain ⟨hb, c, hchunk, hreq, hlru⟩ := he.1.requests h.toBounded h.unique
  have hcons : requested (e :: τ) = c :: requested τ := List.filterMap_cons_some hchunk
  have hmem : c ∈ s.list.map FileBuffer.key ↔ ReusedWithin MAX_LIST_SIZE (requested τ) c := by
    rw [h.keys, mem_take_recent]
  have hcounts := h.counts
  have hkeys : s'.list.map FileBuffer.key =
      (recent (requested (e :: τ))).take MAX_LIST_SIZE := by
    rw [hlru he.2, hcons, ← access_recent (by decide), ← h.keys]
  by_cases hc : c ∈ s.list.map FileBuffer.key
  · obtain ⟨-, hhit, hmiss, hfetched⟩ := hreq.hit hc
    have hmissed : missed MAX_LIST_SIZE (requested (e :: τ)) =
        missed MAX_LIST_SIZE (requested τ) := by
      rw [hcons, missed, if_pos (hmem.1 hc)]
    refine { hb with keys := hkeys, counts := ?_, missCount := ?_, fetched := ?_ }
    · rw [hhit, hmiss, List.length_cons]
      omega
    · rw [hmiss, hmissed, h.missCount]
    · rw [hfetched, hmissed, h.fetched]
  · obtain ⟨-, hhit, hmiss, hfetched⟩ := hreq.miss hc
    have hmissed : missed MAX_LIST_SIZE (requested (e :: τ)) =
        c :: missed MAX_LIST_SIZE (requested τ) := by
      rw [hcons, missed, if_neg fun hw => hc (hmem.2 hw)]
    refine { hb with keys := hkeys, counts := ?_, missCount := ?_, fetched := ?_ }
    · rw [hhit, hmiss, List.length_cons]
      omega
    · rw [hmiss, hmissed, h.missCount, List.length_cons]
    · rw [hfetched, hmissed, h.fetched]

/-- List and counters are true to the history in every run under the policy 2. -/
theorem served_of_run (hs : s₀.Fresh) (h : Run LruChunkStep s₀ τ s) : Served τ s := by
  refine h.invariant Served hs.served ?_
  intro τ s e s' _ h he
  exact h.step he

/-- In every run of requests for whole chunks below `2 ^ 31 - 8192` under the policy 2, the list
holds the `MAX_LIST_SIZE` chunks that were requested most recently, newest first; the requests that
miss, and so read their chunks from the files, are those whose chunk was not requested before or had
`MAX_LIST_SIZE` other chunks requested since; and all others are counted as hits. -/
theorem lru_misses (hs : s₀.Fresh) (h : Run LruChunkStep s₀ τ s) :
    s.list.map FileBuffer.key = (recent (requested τ)).take MAX_LIST_SIZE ∧
      fetched s.io = missed MAX_LIST_SIZE (requested τ) ∧
      s.missCount = (missed MAX_LIST_SIZE (requested τ)).length ∧
      s.hitCount = τ.length - s.missCount := by
  have hserved := served_of_run hs h
  have hcounts := hserved.counts
  exact ⟨hserved.keys, hserved.fetched, hserved.missCount, by omega⟩

/-- The chunk that was read is read again. -/
def readAtZeroAgain : Event :=
  readAtZero.after.event (plainEnv 2) (.read 3 MAX_CHUNK_SIZE 0)

theorem run_readAtZeroAgain :
    Run LruChunkStep (mount (oneFile [])) [readAtZeroAgain, readAtZero] readAtZeroAgain.after :=
  .step (.step .start ⟨⟨step_event _ _ _, by decide +kernel, by decide⟩, by decide +kernel⟩)
    ⟨⟨step_event _ _ _, by decide +kernel, by decide⟩, by decide +kernel⟩

/-- The second read of a chunk hits. -/
theorem lru_misses_again :
    fetched readAtZeroAgain.after.io = [(3, 0)] ∧ readAtZeroAgain.after.hitCount = 1 := by
  have h := lru_misses (fresh_mount (oneFile [])) run_readAtZeroAgain
  exact ⟨h.2.1, h.2.2.2.trans (by rw [h.2.2.1]; rfl)⟩

/-! ## Runs under any policy -/

/-- The list is a cache of the requested chunks. -/
structure Caching (τ : List Event) (s : State) : Prop extends Bounded s where
  unique : Unique s
  run : CacheRun MAX_LIST_SIZE (requested τ) (s.list.map FileBuffer.key).toFinset s.missCount

theorem State.Fresh.caching (hs : s₀.Fresh) : Caching [] s₀ :=
  { hs.bounded with
    unique := by rw [Unique, hs.list]; exact .nil
    run := by rw [hs.list, hs.missCount]; exact .nil }

/-- Under any policy a request keeps the cache a run of a cache. -/
theorem Caching.step (h : Caching τ s) (he : WholeChunkStep s e s') : Caching (e :: τ) s' := by
  obtain ⟨hb, c, hchunk, hreq, -⟩ := he.requests h.toBounded h.unique
  have hcons : requested (e :: τ) = c :: requested τ := List.filterMap_cons_some hchunk
  have hcard : (s'.list.map FileBuffer.key).toFinset.card ≤ MAX_LIST_SIZE := by
    refine (List.toFinset_card_le _).trans ?_
    rw [List.length_map, ← hb.bufferCount]
    exact hb.le
  by_cases hc : c ∈ s.list.map FileBuffer.key
  · obtain ⟨hkeys, -, hmiss, -⟩ := hreq.hit hc
    have hperm : (s'.list.map FileBuffer.key).Perm (s.list.map FileBuffer.key) :=
      hkeys ▸ moveToFront_perm hc
    refine { hb with unique := hperm.nodup_iff.2 h.unique, run := ?_ }
    rw [hcons]
    refine h.run.cons ⟨fun _ => ⟨List.toFinset_eq_of_perm _ _ hperm, hmiss⟩,
      fun hout => absurd (List.mem_toFinset.2 hc) hout, ?_, hcard⟩
    exact List.mem_toFinset.2 (hperm.mem_iff.2 hc)
  · obtain ⟨⟨rest, hkeys, hsub⟩, -, hmiss, -⟩ := hreq.miss hc
    refine { hb with unique := ?_, run := ?_ }
    · rw [Unique, hkeys]
      exact List.nodup_cons.2 ⟨fun hm => hc (hsub.subset hm), h.unique.sublist hsub⟩
    · rw [hcons]
      refine h.run.cons ⟨fun hin => absurd (List.mem_toFinset.1 hin) hc, fun _ => ⟨?_, hmiss⟩, ?_,
        hcard⟩
      · rw [hkeys, List.toFinset_cons]
        refine Finset.insert_subset_insert c fun y hy => ?_
        exact List.mem_toFinset.2 (hsub.subset (List.mem_toFinset.1 hy))
      · rw [hkeys, List.toFinset_cons]
        exact Finset.mem_insert_self _ _

/-- Under any policies a run is a run of a cache with room for 1280 chunks. -/
theorem caching_of_run (hs : s₀.Fresh) (h : Run WholeChunkStep s₀ τ s) : Caching τ s := by
  refine h.invariant Caching hs.caching ?_
  intro τ s e s' _ h he
  exact h.step he

/-- Two runs make the same requests for whole chunks below `2 ^ 31 - 8192` one after another. If the
first one evicts under the policy 2 it misses `MAX_LIST_SIZE` times as often at most as the second
one, whatever policies and random numbers that run meets. -/
theorem lru_misses_le {t₀ t : State} {σ : List Event} (hs : s₀.Fresh) (ht : t₀.Fresh)
    (h : Run LruChunkStep s₀ τ s) (h' : Run WholeChunkStep t₀ σ t)
    (hsame : requested τ = requested σ) : s.missCount ≤ MAX_LIST_SIZE * t.missCount := by
  rw [(served_of_run hs h).missCount, hsame]
  exact (caching_of_run ht h').run.length_missed_le (by decide)

/-- The same chunk is read under the policy 1. -/
def readAtZeroRandom : Event :=
  (mount (oneFile [])).event (plainEnv 1) (.read 3 MAX_CHUNK_SIZE 0)

theorem lru_misses_le_random :
    readAtZero.after.missCount ≤ MAX_LIST_SIZE * readAtZeroRandom.after.missCount := by
  have hlru : Run LruChunkStep (mount (oneFile [])) [readAtZero] readAtZero.after :=
    .step .start ⟨⟨step_event _ _ _, by decide +kernel, by decide⟩, by decide +kernel⟩
  have hrandom : Run WholeChunkStep (mount (oneFile [])) [readAtZeroRandom]
      readAtZeroRandom.after :=
    .step .start ⟨step_event _ _ _, by decide +kernel, by decide⟩
  exact lru_misses_le (fresh_mount _) (fresh_mount _) hlru hrandom rfl

end EE516.Bbfs
