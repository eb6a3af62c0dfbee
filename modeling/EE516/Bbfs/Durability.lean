import EE516.Bbfs.ReadYourWrites

/-!
# What a release leaves in the file

A written chunk reaches the file when its dirty buffer is evicted or released. Only a write that
finds its chunk in the cache makes the buffer dirty: the data of a write that misses is in the cache
and never in the file.
-/

set_option autoImplicit false

namespace EE516.Bbfs

open Foundations

variable {s₀ s s' : State} {l rest : List FileBuffer} {b v new : FileBuffer} {fd : Int} {p : Policy}
variable {offset n : Nat} {w : Option (List UInt8)} {raw data : List UInt8} {τ : List Event}
variable {e : Event} {f : OpenFile} {d : Disk} {conf : Conf} {rand : Nat}

/-! ## Writing a buffer back -/

theorem fds_of_pwrite {d' : Disk} {buf : List UInt8} {start : Int}
    (h : d.pwrite fd buf start = .ok d') : d'.fds = d.fds := by
  rw [Disk.pwrite] at h
  split at h
  · cases h
  · split at h
    · split at h <;> cases h
      rfl
    · cases h

@[simp] theorem fds_writeBack (d : Disk) (fd : Int) (b : FileBuffer) :
    (d.writeBack fd b).fds = d.fds := by
  rw [Disk.writeBack]
  split
  · rw [Disk.written]
    cases h : d.pwrite fd b.buf.bytes b.fromOffset with
    | ok d' => exact fds_of_pwrite h
    | error errno => rfl
  · rfl

/-- The file after the write-back of a buffer. -/
theorem files_writeBack (hf : d.fds fd = some f) (hw : f.writable = true)
    (hpos : 0 ≤ b.fromOffset) :
    (d.writeBack fd b).files f.ino =
      if b.dirty then writeAt (d.files f.ino) b.fromOffset.toNat b.buf.bytes
      else d.files f.ino := by
  rw [Disk.writeBack]
  split
  · rw [Disk.written, Disk.pwrite, if_neg (by omega), hf]
    simp only [hw, if_true]
  · rfl

/-- A chunk of the file with `data` in it, as far as the dirty buffers in the list and the file can
tell: a dirty buffer of the chunk has the data, or there is none and the file has it. -/
structure Holds (fd : Int) (f : OpenFile) (n : Nat) (data : List UInt8) (l : List FileBuffer)
    (d : Disk) : Prop where
  dirty : ∀ b ∈ l, b.StartsAt fd n → b.dirty = true → b.buf.bytes = data
  stored : (∃ b ∈ l, b.StartsAt fd n ∧ b.dirty = true) ∨
    readAt (d.files f.ino) n MAX_CHUNK_SIZE = data

/-- The buffers of the list are aligned chunks of the file. -/
def Own (fd : Int) (l : List FileBuffer) : Prop :=
  ∀ b ∈ l, b.fd = fd ∧ b.Aligned ∧ 0 ≤ b.fromOffset

/-- A buffer leaves the list and is written back. -/
theorem Holds.writeBack (h : Holds fd f n data l d) (hl : ∀ b, b ∈ l ↔ b = v ∨ b ∈ rest)
    (hown : Own fd l) (hn : n % MAX_CHUNK_SIZE = 0) (hdata : data.length = MAX_CHUNK_SIZE)
    (hf : d.fds fd = some f) (hw : f.writable = true) :
    Holds fd f n data rest (d.writeBack fd v) := by
  have hv : v ∈ l := (hl v).2 (.inl rfl)
  obtain ⟨hvfd, ⟨⟨k, hk⟩, -⟩, hpos⟩ := hown v hv
  -- a dirty buffer of the chunk that is not the victim stays in the list
  have hrest : v.fromOffset ≠ n ∨ v.dirty = false →
      (∃ b ∈ l, b.StartsAt fd n ∧ b.dirty = true) →
        ∃ b ∈ rest, b.StartsAt fd n ∧ b.dirty = true := by
    rintro hv ⟨b, hb, hbs, hbd⟩
    refine ⟨b, ((hl b).1 hb).resolve_left ?_, hbs, hbd⟩
    rintro rfl
    rcases hv with hv | hv
    · exact hv hbs.2
    · exact absurd (hbd.symm.trans hv) (by decide)
  refine ⟨fun b hb => h.dirty b ((hl b).2 (.inr hb)), ?_⟩
  rw [files_writeBack hf hw hpos]
  by_cases hd : v.dirty = true
  · rw [if_pos hd]
    by_cases hvn : v.fromOffset = n
    · right
      rw [h.dirty v hv ⟨hvfd, hvn⟩ hd, hvn, Int.toNat_natCast, ← hdata]
      exact readAt_writeAt_self
    · refine h.stored.imp (hrest (.inl hvn)) fun hfile => ?_
      refine readAt_writeAt_of_disjoint hdata hfile ?_
      rw [v.buf.size]
      simp only [MAX_CHUNK_SIZE] at *
      omega
  · rw [if_neg hd]
    exact h.stored.imp_left (hrest (.inr (by simpa using hd)))

/-- A clean buffer comes into the list. -/
theorem Holds.cons (h : Holds fd f n data l d) (hnew : new.dirty = false) :
    Holds fd f n data (new :: l) d := by
  refine ⟨fun b hb hbs hbd => ?_, h.stored.imp_left ?_⟩
  · rcases List.mem_cons.1 hb with rfl | hb
    · exact absurd (hbd.symm.trans hnew) (by decide)
    · exact h.dirty b hb hbs hbd
  · rintro ⟨b, hb, hbs, hbd⟩
    exact ⟨b, List.mem_cons_of_mem _ hb, hbs, hbd⟩

/-- `addFileBuffer` keeps what a chunk holds, whatever it evicts. -/
theorem Holds.added (h : Holds fd f n data s.list s.disk) (hs : Added s conf rand new s')
    (hnew : new.dirty = false) (hown : Own fd s.list) (hn : n % MAX_CHUNK_SIZE = 0)
    (hdata : data.length = MAX_CHUNK_SIZE) (hf : s.disk.fds fd = some f) (hw : f.writable = true) :
    Holds fd f n data s'.list s'.disk := by
  cases hs with
  | room => exact h.cons hnew
  | @full l₁ l₂ v _ hl =>
    have hmem : ∀ b, b ∈ s.list ↔ b = v ∨ b ∈ l₁ ++ l₂ := by
      intro b
      rw [hl]
      simp only [List.mem_append, List.mem_cons]
      exact or_left_comm
    have hvfd := (hown v ((hmem v).2 (.inl rfl))).1
    dsimp only
    rw [hvfd]
    exact (h.writeBack hmem hown hn hdata hf hw).cons hnew

/-- A release brings everything into the file. -/
theorem Holds.release (h : Holds fd f n data l d) (hown : Own fd l) (hn : n % MAX_CHUNK_SIZE = 0)
    (hdata : data.length = MAX_CHUNK_SIZE) (hf : d.fds fd = some f) (hw : f.writable = true) :
    readAt ((l.foldl (fun d b => d.writeBack fd b) d).files f.ino) n MAX_CHUNK_SIZE = data := by
  induction l generalizing d with
  | nil =>
    rcases h.stored with ⟨b, hb, -⟩ | hfile
    · cases hb
    · exact hfile
  | cons v l ih =>
    refine ih (h.writeBack (fun b => List.mem_cons) hown hn hdata hf hw) ?_ ?_
    · exact fun b hb => hown b (List.mem_cons_of_mem _ hb)
    · rw [fds_writeBack]
      exact hf

/-! ## Requests -/

theorem Holds.congr_list {l' : List FileBuffer} (h : Holds fd f n data l d)
    (hl : ∀ b, b ∈ l' ↔ b ∈ l) : Holds fd f n data l' d := by
  refine ⟨fun b hb => h.dirty b ((hl b).1 hb), h.stored.imp_left ?_⟩
  rintro ⟨b, hb, hbs, hbd⟩
  exact ⟨b, (hl b).2 hb, hbs, hbd⟩

theorem mem_serveList_of_ne {c : FileBuffer} (hc : c ∈ l) (hne : c.id ≠ b.id) :
    c ∈ serveList b.id w l := by
  refine List.mem_map.2 ⟨c, hc, ?_⟩
  rw [if_neg hne]

/-- A write to another chunk that hits keeps what a chunk holds. -/
theorem Holds.serveList (h : Holds fd f n data s.list d) (hid : (s.list.map FileBuffer.id).Nodup)
    (hb : b ∈ s.list) (hbs : b.StartsAt fd offset) (hne : n ≠ offset) :
    Holds fd f n data (serveList b.id w s.list) d := by
  have hstart : ¬ b.StartsAt fd n := fun hbn => hne (Int.ofNat.inj (hbn.2.symm.trans hbs.2))
  refine ⟨fun c hc hcs hcd => ?_, h.stored.imp_left ?_⟩
  · rcases mem_serveList hid hb hc with rfl | ⟨hc, -⟩
    · exact absurd (startsAt_serve.1 hcs) hstart
    · exact h.dirty c hc hcs hcd
  · rintro ⟨c, hc, hcs, hcd⟩
    refine ⟨c, mem_serveList_of_ne hc fun hid' => hstart ?_, hcs, hcd⟩
    rwa [eq_of_id_eq hid hc hb hid'] at hcs

/-- A request keeps what the other chunks hold, and a read what its own chunk holds. -/
theorem Holds.serves (h : Holds fd f n data s.list s.disk) (hs : Serves s fd offset w raw s')
    (hid : (s.list.map FileBuffer.id).Nodup) (hother : w = none ∨ n ≠ offset)
    (hown : Own fd s.list) (hn : n % MAX_CHUNK_SIZE = 0) (hdata : data.length = MAX_CHUNK_SIZE)
    (hf : s.disk.fds fd = some f) (hw : f.writable = true) :
    Holds fd f n data s'.list s'.disk := by
  cases hs with
  | @hit b _ hb hbs hlist hdisk =>
    rw [hdisk]
    rcases hother with rfl | hne
    · rw [serveList_none] at hlist
      exact h.congr_list fun c => hlist.mem_iff
    · exact (h.serveList hid hb hbs hne).congr_list fun c => hlist.mem_iff
  | miss hno hlist hdisk _ _ hadd =>
    rw [← hlist, ← hdisk] at h
    rw [← hlist] at hown
    rw [← hdisk] at hf
    exact h.added hadd rfl hown hn hdata hf hw

/-- A write that finds its chunk in the cache, or the file as it should be, is kept. -/
theorem Serves.holds (hs : Serves s fd offset (some data) raw s') (hb : Bounded s) (hu : Unique s)
    (hkept : Resident s fd offset ∨ readAt (s.disk.files f.ino) offset MAX_CHUNK_SIZE = data)
    (hown : Own fd s.list) (hn : offset % MAX_CHUNK_SIZE = 0)
    (hdata : data.length = MAX_CHUNK_SIZE) (hf : s.disk.fds fd = some f)
    (hw : f.writable = true) : Holds fd f offset data s'.list s'.disk := by
  cases hs with
  | @hit b _ hmem hbs hlist hdisk hpolicy hbound =>
    have hs : Serves s fd offset (some data) b.buf.bytes s' :=
      .hit hmem hbs hlist hdisk hpolicy hbound
    refine ⟨fun c hc hcs _ => ?_, .inl ⟨b.serve (some data), ?_, startsAt_serve.2 hbs, rfl⟩⟩
    · rcases hs.mem hb hu hc with ⟨-, hbuf⟩ | ⟨-, hno⟩
      · rw [hbuf]
        exact fit_of_length hdata
      · exact absurd hcs hno
    · exact hlist.mem_iff.2 (serve_mem_serveList hmem)
  | miss hno hlist hdisk _ _ hadd =>
    have hfile := hkept.resolve_left hno
    have hholds : Holds fd f offset data s.list s.disk :=
      ⟨fun b hb hbs _ => absurd ⟨b, hb, hbs⟩ hno, .inr hfile⟩
    rw [← hlist, ← hdisk] at hholds
    rw [← hlist] at hown
    rw [← hdisk] at hf
    exact hholds.added hadd rfl hown hn hdata hf hw

theorem Added.fds (h : Added s conf rand new s') : s'.disk.fds = s.disk.fds := by
  cases h with
  | room => rfl
  | full => exact fds_writeBack _ _ _

theorem Serves.fds (h : Serves s fd offset w raw s') : s'.disk.fds = s.disk.fds := by
  cases h with
  | hit _ _ _ hdisk => rw [hdisk]
  | miss _ _ hdisk _ _ hadd => rw [hadd.fds, hdisk]

/-- A service adds a buffer of the same descriptor. -/
theorem Own.serves (h : Own fd s.list) (hs : Serves s fd offset w raw s')
    (hp : offset % MAX_CHUNK_SIZE = 0) (hb : Bounded s) (hu : Unique s) : Own fd s'.list := by
  intro b hb'
  rcases hs.mem hb hu hb' with ⟨hbs, -⟩ | ⟨hb', -⟩
  · refine ⟨hbs.1, (hs.bounded hp).aligned b hb', ?_⟩
    rw [hbs.2]
    exact Int.natCast_nonneg offset
  · exact h b hb'

/-! ## Runs -/

/-- The latest write at the offset. -/
def latestWrite (offset : Nat) (τ : List Event) : Option Event :=
  τ.find? fun e => (e.call.data offset).isSome

/-- A write of the data in this state finds its chunk in the cache, or the file holds the data
already. -/
def Kept (p : Policy) (fd : Int) (f : OpenFile) (offset : Nat) (data : List UInt8) (s : State) :
    Prop :=
  Resident s fd offset ∨ readAt (s.disk.files f.ino) offset MAX_CHUNK_SIZE = p.encrypt data

/-- What holds in every state of a run. -/
structure Durable (fd : Int) (f : OpenFile) (p : Policy) (τ : List Event) (s : State) : Prop where
  bounded : Bounded s
  unique : Unique s
  fds : s.disk.fds fd = some f
  own : Own fd s.list
  written : ∀ n data, lastWrite n τ = some data →
    n % MAX_CHUNK_SIZE = 0 ∧ data.length = MAX_CHUNK_SIZE
  holds : ∀ n data, lastWrite n τ = some data →
    (∀ e, latestWrite n τ = some e → Kept p fd f n data e.before) →
    Holds fd f n (p.encrypt data) s.list s.disk

theorem State.Fresh.durable (hs : s₀.Fresh) (hf : s₀.disk.fds fd = some f) (p : Policy) :
    Durable fd f p [] s₀ where
  bounded := hs.bounded
  unique := by simp [Unique, hs.list]
  fds := hf
  own := by simp [Own, hs.list]
  written := nofun
  holds := nofun

/-- A call that writes nothing at the offset leaves the latest write there. -/
theorem latestWrite_cons_of_none (h : e.call.data n = none) :
    latestWrite n (e :: τ) = latestWrite n τ := by
  rw [latestWrite, List.find?_cons_of_neg (by simp [h])]
  rfl

/-- A write at the offset is the latest one. -/
theorem latestWrite_cons_of_some (h : e.call.data n = some data) :
    latestWrite n (e :: τ) = some e := by
  rw [latestWrite, List.find?_cons_of_pos (by simp [h])]

theorem Durable.loaded (h : Durable fd f p τ s) (conf : Conf) :
    Durable fd f p τ (s.loadPolicyFromFile conf) where
  bounded := h.bounded.quiet (quiet_loadPolicyFromFile s conf)
  unique := h.unique
  fds := h.fds
  own := h.own
  written := h.written
  holds := h.holds

/-- What a request keeps, apart from what the chunks hold. -/
theorem Durable.serves (h : Durable fd f p τ s) (hs : Serves s fd offset w raw s')
    (hp : offset % MAX_CHUNK_SIZE = 0) :
    Bounded s' ∧ Unique s' ∧ s'.disk.fds fd = some f ∧ Own fd s'.list := by
  refine ⟨hs.bounded hp, hs.unique h.unique, ?_, h.own.serves hs hp h.bounded h.unique⟩
  rw [hs.fds]
  exact h.fds

/-- An event that wrote nothing. -/
theorem Durable.read (h : Durable fd f p τ s) (hs : Serves s fd offset none raw s')
    (hp : offset % MAX_CHUNK_SIZE = 0) (hw : f.writable = true)
    (hd : ∀ n, e.call.data n = none) : Durable fd f p (e :: τ) s' := by
  have hlast : ∀ n, lastWrite n (e :: τ) = lastWrite n τ := by
    intro n
    rw [lastWrite_cons, hd, Option.none_or]
  obtain ⟨hb, hu, hfds, hown⟩ := h.serves hs hp
  refine ⟨hb, hu, hfds, hown, fun n data hn => h.written n data (hlast n ▸ hn), ?_⟩
  intro n data hn hkept
  rw [hlast] at hn
  rw [latestWrite_cons_of_none (hd n)] at hkept
  obtain ⟨hn₀, hlen⟩ := h.written n data hn
  exact (h.holds n data hn hkept).serves hs h.bounded.ids (.inl rfl) h.own hn₀
    ((length_encrypt p data).trans hlen) h.fds hw

/-- A write that is the latest one of its chunk now. -/
theorem Durable.write {buf : List UInt8} (h : Durable fd f p τ s)
    (hs : Serves s fd offset (some (p.encrypt buf)) raw s') (hp : offset % MAX_CHUNK_SIZE = 0)
    (hw : f.writable = true) (hc : e.call = .write fd buf offset)
    (hlen : buf.length = MAX_CHUNK_SIZE)
    (hbefore : ∀ n data, Kept p fd f n data e.before → Kept p fd f n data s) :
    Durable fd f p (e :: τ) s' := by
  have hself : e.call.data offset = some buf := by
    rw [hc, Call.data, if_pos rfl]
  have hother : ∀ n, n ≠ offset → e.call.data n = none := by
    intro n hne
    rw [hc, Call.data, if_neg (Ne.symm hne)]
  obtain ⟨hb, hu, hfds, hown⟩ := h.serves hs hp
  refine ⟨hb, hu, hfds, hown, fun n data hn => ?_, fun n data hn hkept => ?_⟩
  · by_cases hne : n = offset
    · subst hne
      rw [lastWrite_cons, hself, Option.some_or] at hn
      exact ⟨hp, Option.some.inj hn ▸ hlen⟩
    · rw [lastWrite_cons, hother n hne, Option.none_or] at hn
      exact h.written n data hn
  · by_cases hne : n = offset
    · subst hne
      rw [lastWrite_cons, hself, Option.some_or] at hn
      obtain rfl := Option.some.inj hn
      exact hs.holds h.bounded h.unique (hbefore n _ (hkept e (latestWrite_cons_of_some hself)))
        h.own hp ((length_encrypt p _).trans hlen) h.fds hw
    · rw [lastWrite_cons, hother n hne, Option.none_or] at hn
      rw [latestWrite_cons_of_none (hother n hne)] at hkept
      obtain ⟨hn₀, hlen'⟩ := h.written n data hn
      exact (h.holds n data hn hkept).serves hs h.bounded.ids (.inr hne) h.own hn₀
        ((length_encrypt p data).trans hlen') h.fds hw

/-- Every request of one chunk keeps what the condition promises. -/
theorem Durable.step (h : Durable fd f p τ s) (hw : f.writable = true)
    (he : ChunkStep fd p s e s') : Durable fd f p (e :: τ) s' := by
  obtain ⟨offset, raw, hp, hcall, -, -, hserves⟩ := he.serves h.bounded
  have hd := h.loaded e.env.conf
  rcases hcall with hc | ⟨buf, hlen, hc⟩
  · rw [hc] at hserves
    refine hd.read hserves hp hw fun n => ?_
    rw [hc]
    rfl
  · rw [hc] at hserves
    refine hd.write hserves hp hw hc hlen fun n data hkept => ?_
    rw [he.before] at hkept
    exact hkept

/-- After a release the file holds the data of the latest write at an offset if that write found
its chunk in the cache, or its data in the file already. -/
theorem release_holds_latest_write (hs : s₀.Fresh) (hf : s₀.disk.fds fd = some f)
    (hw : f.writable = true) (h : Run (ChunkStep fd p) s₀ τ s)
    (hlast : lastWrite offset τ = some data)
    (hkept : ∀ e, latestWrite offset τ = some e → Kept p fd f offset data e.before) :
    readAt ((s.bb_release fd).2.disk.files f.ino) offset MAX_CHUNK_SIZE = p.encrypt data := by
  have hd : Durable fd f p τ s :=
    h.invariant (fun τ s => Durable fd f p τ s) (hs.durable hf p) fun _ hd he => hd.step hw he
  obtain ⟨hn, hlen⟩ := hd.written offset data hlast
  have hholds := hd.holds offset data hlast hkept
  rw [State.bb_release, releaseFileBuffer_eq]
  exact hholds.release hd.own hn ((length_encrypt p data).trans hlen) hd.fds hw

/-- The chunk is written a second time. -/
def rewriteOnes : Event where
  before := afterWrite
  env := plainEnv 2
  call := .write 3 ones 0
  result := (afterWrite.perform (plainEnv 2) (.write 3 ones 0)).1

/-- The second write of a chunk is kept. -/
theorem release_holds_latest_write_twice :
    readAt (((afterWrite.perform (plainEnv 2) (.write 3 ones 0)).2.bb_release 3).2.disk.files 0) 0
      MAX_CHUNK_SIZE = ones := by
  have hwrite : ChunkStep 3 .start (mount (oneFile [])) writeOnes afterWrite :=
    ⟨⟨(plainEnv 2, .write 3 ones 0), step_perform _ _⟩, by decide +kernel⟩
  have hrewrite : ChunkStep 3 .start afterWrite rewriteOnes
      (afterWrite.perform (plainEnv 2) (.write 3 ones 0)).2 :=
    ⟨⟨(plainEnv 2, .write 3 ones 0), step_perform _ _⟩, by decide +kernel⟩
  have hself : rewriteOnes.call.data 0 = some ones := rfl
  have hlast : lastWrite 0 [rewriteOnes, writeOnes] = some ones := by
    rw [lastWrite_cons, hself, Option.some_or]
  have hkept : ∀ e, latestWrite 0 [rewriteOnes, writeOnes] = some e →
      Kept .start 3 ⟨0, true, true⟩ 0 ones e.before := by
    intro e he
    rw [latestWrite_cons_of_some hself] at he
    obtain rfl := Option.some.inj he
    left
    decide +kernel
  have hstored := @release_holds_latest_write _ _ _ _ 0 ones _ ⟨0, true, true⟩
    (fresh_mount (oneFile [])) rfl rfl (.step (.step .start hwrite) hrewrite) hlast hkept
  have hplain : Policy.start.encrypt ones = ones := if_neg (by decide)
  have hino : (OpenFile.mk 0 true true).ino = 0 := rfl
  rw [hplain, hino] at hstored
  exact hstored

/-- A chunk that is written once is lost. -/
theorem release_loses_write :
    ¬ ∀ (s₀ s : State) (fd : Int) (f : OpenFile) (p : Policy) (τ : List Event), s₀.Fresh →
      s₀.disk.fds fd = some f → f.writable = true → Run (ChunkStep fd p) s₀ τ s →
      (∀ e ∈ τ, ∃ buf offset, e.call = .write fd buf offset) →
      ∀ offset data, lastWrite offset τ = some data →
        readAt ((s.bb_release fd).2.disk.files f.ino) offset MAX_CHUNK_SIZE = p.encrypt data := by
  intro hall
  have hwrite : ChunkStep 3 .start (mount (oneFile [])) writeOnes afterWrite :=
    ⟨⟨(plainEnv 2, .write 3 ones 0), step_perform _ _⟩, by decide +kernel⟩
  have hwrites : ∀ e ∈ [writeOnes], ∃ buf offset, e.call = .write 3 buf offset := by
    intro e he
    rw [List.mem_singleton.1 he]
    exact ⟨ones, 0, rfl⟩
  have hlost := hall _ _ 3 ⟨0, true, true⟩ .start [writeOnes] (fresh_mount (oneFile [])) rfl rfl
    (.step .start hwrite) hwrites 0 ones rfl
  exact absurd hlost (by decide +kernel)

end EE516.Bbfs
