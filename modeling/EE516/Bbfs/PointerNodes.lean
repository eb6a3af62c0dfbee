import Mathlib.Data.Fintype.EquivFin
import EE516.Bbfs.Bounded
import EE516.Bbfs.Pointers
import EE516.KernelList.Rings

/-!
# The nodes in memory are the buffers of the list

`Layout` says that the pointers lead from `headptr` through the nodes at the given addresses and
back, and that nothing else is allocated. On such a memory the lookup, the insertion, the stores and
the release meet no fault, and do to the nodes what they do to the list (`Realises`).
-/

set_option autoImplicit false

namespace EE516.Bbfs

open Foundations KernelList

variable {ps qs ps₁ ps₂ : List (Addr × FileBuffer)} {p : Addr × FileBuffer} {h a : Addr}
variable {heap heap' : Heap Addr} {buffers : Addr → Option Contents} {b c : FileBuffer}

/-! ## Nodes in memory -/

/-- The buffer as its node holds it; the number is the address. -/
@[simps]
def FileBuffer.contents (b : FileBuffer) : Contents where
  fromOffset := b.fromOffset
  toOffset := b.toOffset
  dirty := b.dirty
  fd := b.fd
  buf := b.buf

/-- The one list of the program. -/
def lone (h : Addr) (l : List Addr) : KernelList.Lists Addr :=
  Function.update (fun _ => none) h (some l)

theorem lone_head (h : Addr) (l : List Addr) : lone h l h = some l :=
  Function.update_self _ _ _

theorem lone_update (h : Addr) (l l' : List Addr) :
    Function.update (lone h l) h (some l') = lone h l' :=
  Function.update_idem _ _ _

theorem of_lone_eq_some {k : Addr} {l m : List Addr} (hk : lone h l k = some m) :
    k = h ∧ m = l := by
  by_cases hkh : k = h
  · subst hkh
    exact ⟨rfl, (Option.some.inj ((lone_head k l).symm.trans hk)).symm⟩
  · rw [lone, Function.update_of_ne hkh] at hk
    cases hk

theorem lone_unlink (h : Addr) (l : List Addr) (x : Addr) :
    (lone h l).unlink x = lone h (l.erase x) := by
  funext k
  by_cases hk : k = h
  · subst hk
    rw [Lists.unlink, lone_head, lone_head]
    rfl
  · simp [Lists.unlink, lone, hk]

/-- The nodes lie at their addresses in the order of the list, and nothing else is allocated. -/
structure Layout (h : Addr) (heap : Heap Addr) (buffers : Addr → Option Contents)
    (ps : List (Addr × FileBuffer)) : Prop where
  lists : Represents heap (lone h (ps.map Prod.fst))
  node : ∀ p ∈ ps, buffers p.1 = some p.2.contents
  buffers_mem : ∀ a, buffers a ≠ none → a ∈ ps.map Prod.fst
  heap_mem : ∀ a, heap a ≠ none → a ∈ h :: ps.map Prod.fst

namespace Layout

/-- The nodes form a ring with `headptr`. -/
theorem ring (hl : Layout h heap buffers ps) : Ring (links heap) h (ps.map Prod.fst) :=
  hl.lists.ring (lone_head h _)

theorem nodup (hl : Layout h heap buffers ps) : (ps.map Prod.fst).Nodup :=
  (List.nodup_cons.1 hl.ring.nodup).2

theorem erase (hl : Layout h heap buffers (ps₁ ++ p :: ps₂)) :
    ((ps₁ ++ p :: ps₂).map Prod.fst).erase p.1 = (ps₁ ++ ps₂).map Prod.fst := by
  have hnodup := hl.nodup
  rw [List.map_append, List.map_cons] at hnodup ⊢
  have hnot : p.1 ∉ ps₁.map Prod.fst := fun hm =>
    (List.nodup_append.1 hnodup).2.2 _ hm _ List.mem_cons_self rfl
  rw [List.erase_append_right _ hnot, List.erase_cons_head, List.map_append]

/-- A node is the node at its address. -/
theorem eq_of_fst_eq (hl : Layout h heap buffers ps) {p q : Addr × FileBuffer} (hp : p ∈ ps)
    (hq : q ∈ ps) (heq : p.1 = q.1) : p = q :=
  List.inj_on_of_nodup_map hl.nodup hp hq heq

theorem ne_head (hl : Layout h heap buffers ps) (hp : p ∈ ps) : p.1 ≠ h := fun heq =>
  hl.ring.head_notMem (heq ▸ List.mem_map_of_mem hp)

/-- What the links of a node point to. -/
theorem cell (hl : Layout h heap buffers (ps₁ ++ p :: ps₂)) :
    heap p.1 =
      some ⟨.addr ((ps₂.map Prod.fst).headD h), .addr ((ps₁.map Prod.fst).getLastD h)⟩ := by
  have hring := hl.ring
  rw [List.map_append, List.map_cons] at hring
  exact entry_cell hring

/-- There is room for another node. -/
theorem exists_unused (hl : Layout h heap buffers ps) : ∃ a, heap a = none ∧ buffers a = none := by
  obtain ⟨a, ha⟩ := Infinite.exists_notMem_finset (h :: ps.map Prod.fst).toFinset
  rw [List.mem_toFinset] at ha
  refine ⟨a, ?_, ?_⟩
  · exact by_contra fun hne => ha (hl.heap_mem a hne)
  · exact by_contra fun hne => ha (List.mem_cons_of_mem h (hl.buffers_mem a hne))

/-- No other node is allocated. -/
theorem heap_mem_of_live (hl : Layout h heap buffers ps)
    (hlive : ∀ a, (heap' a).isSome = (heap a).isSome) (a : Addr) (ha : heap' a ≠ none) :
    a ∈ h :: ps.map Prod.fst := by
  refine hl.heap_mem a fun hnone => ha ?_
  simpa [hnone] using hlive a

/-- `list_move` of a node to the front. -/
theorem move (hl : Layout h heap buffers (ps₁ ++ p :: ps₂)) :
    ∃ heap', list_move heap (.addr p.1) (.addr h) = some heap' ∧
      Layout h heap' buffers (p :: (ps₁ ++ ps₂)) := by
  have hp : p.1 ∈ (ps₁ ++ p :: ps₂).map Prod.fst := List.mem_map_of_mem (by simp)
  have hA : (lone h ((ps₁ ++ p :: ps₂).map Prod.fst)).unlink p.1 h =
      some ((ps₁ ++ ps₂).map Prod.fst) := by
    rw [lone_unlink, hl.erase, lone_head]
  obtain ⟨heap', hrun, hlists, hlive⟩ := list_move_lists hl.lists (lone_head h _) hp hA
  have hperm : (p :: (ps₁ ++ ps₂)).Perm (ps₁ ++ p :: ps₂) := List.perm_middle.symm
  have hmem : ∀ {a}, a ∈ (ps₁ ++ p :: ps₂).map Prod.fst →
      a ∈ (p :: (ps₁ ++ ps₂)).map Prod.fst := (hperm.map Prod.fst).mem_iff.2
  refine ⟨heap', hrun, ?_, ?_, ?_, ?_⟩
  · rw [lone_unlink, hl.erase, lone_update] at hlists
    exact hlists
  · exact fun q hq => hl.node q (hperm.mem_iff.1 hq)
  · exact fun a ha => hmem (hl.buffers_mem a ha)
  · intro a ha
    rcases List.mem_cons.1 (hl.heap_mem_of_live hlive a ha) with rfl | ha
    · exact List.mem_cons_self
    · exact List.mem_cons_of_mem h (hmem ha)

/-- `list_del` of a node, and `free`. -/
theorem drop (hl : Layout h heap buffers (ps₁ ++ p :: ps₂)) :
    ∃ heap', list_del heap (.addr p.1) = some heap' ∧ (heap' p.1).isSome = true ∧
      Layout h (Function.update heap' p.1 none) (Function.update buffers p.1 none)
        (ps₁ ++ ps₂) := by
  have hp : p.1 ∈ (ps₁ ++ p :: ps₂).map Prod.fst := List.mem_map_of_mem (by simp)
  obtain ⟨heap', hrun, hlists, hlive⟩ := list_del_lists hl.lists (lone_head h _) hp
  have hfree := hl.lists.free_unlink (lone_head h _) hp
  rw [lone_unlink, hl.erase] at hlists hfree
  have hout : p.1 ∉ h :: (ps₁ ++ ps₂).map Prod.fst := hfree h _ (lone_head h _)
  -- the other nodes
  have hmem : ∀ {a}, a ≠ p.1 → a ∈ (ps₁ ++ p :: ps₂).map Prod.fst →
      a ∈ (ps₁ ++ ps₂).map Prod.fst := by
    intro a hne ha
    rw [← hl.erase, hl.nodup.mem_erase_iff]
    exact ⟨hne, ha⟩
  refine ⟨heap', hrun, ?_, ?_, ?_, ?_, ?_⟩
  · rw [hlive, hl.cell]
    rfl
  · refine hlists.poison hfree fun c hc => ?_
    simp only [links, Function.update_of_ne hc, and_self]
  · intro q hq
    have hne : q.1 ≠ p.1 := by
      intro heq
      exact hout (heq ▸ List.mem_cons_of_mem h (List.mem_map_of_mem hq))
    rw [Function.update_of_ne hne]
    refine hl.node q ?_
    rcases List.mem_append.1 hq with hq | hq
    · exact List.mem_append_left _ hq
    · exact List.mem_append_right _ (List.mem_cons_of_mem p hq)
  · intro a ha
    by_cases hap : a = p.1
    · exact absurd (hap ▸ Function.update_self _ _ _) ha
    · rw [Function.update_of_ne hap] at ha
      exact hmem hap (hl.buffers_mem a ha)
  · intro a ha
    by_cases hap : a = p.1
    · exact absurd (hap ▸ Function.update_self _ _ _) ha
    · rw [Function.update_of_ne hap] at ha
      rcases List.mem_cons.1 (hl.heap_mem_of_live hlive a ha) with rfl | ha
      · exact List.mem_cons_self
      · exact List.mem_cons_of_mem h (hmem hap ha)

/-- `calloc` of a node, and `list_add`. -/
theorem add (hl : Layout h heap buffers ps) (ha : heap a = none) :
    ∃ heap', list_add (Function.update heap a (some ⟨.NULL, .NULL⟩)) (.addr a) (.addr h) =
        some heap' ∧
      Layout h heap' (Function.update buffers a (some b.contents)) ((a, b) :: ps) := by
  -- the new node is none of the ring, since its cell was free
  have hout : a ∉ h :: ps.map Prod.fst := by
    intro hm
    have hlive := live_of_ring hl.ring hm
    rw [ha] at hlive
    cases hlive
  have hfree : (lone h (ps.map Prod.fst)).Free a := by
    intro k m hk
    obtain ⟨rfl, rfl⟩ := of_lone_eq_some hk
    exact hout
  -- what the fresh cell holds does not matter to the list
  have hlists : Represents (Function.update heap a (some ⟨.NULL, .NULL⟩))
      (lone h (ps.map Prod.fst)) := by
    refine hl.lists.poison hfree fun c hc => ?_
    simp only [links, Function.update_of_ne hc, and_self]
  have hcell :
      (Function.update heap a (some (⟨.NULL, .NULL⟩ : ListHead Addr)) a).isSome = true := by
    rw [Function.update_self]
    rfl
  obtain ⟨heap', hrun, hlists', hlive⟩ := list_add_lists hlists (lone_head h _) hfree hcell
  rw [lone_update] at hlists'
  refine ⟨heap', hrun, hlists', ?_, ?_, ?_⟩
  · intro q hq
    rcases List.mem_cons.1 hq with rfl | hq
    · exact Function.update_self _ _ _
    · have hne : q.1 ≠ a := by
        intro heq
        exact hout (heq ▸ List.mem_cons_of_mem h (List.mem_map_of_mem hq))
      rw [Function.update_of_ne hne, hl.node q hq]
  · intro d hd
    by_cases hda : d = a
    · exact hda ▸ List.mem_cons_self
    · rw [Function.update_of_ne hda] at hd
      exact List.mem_cons_of_mem a (hl.buffers_mem d hd)
  · intro d hd
    by_cases hda : d = a
    · exact hda ▸ List.mem_cons_of_mem h List.mem_cons_self
    · have hd' : heap d ≠ none := by
        intro hnone
        refine hd ?_
        simpa [hda, hnone] using hlive d
      rcases List.mem_cons.1 (hl.heap_mem d hd') with rfl | hd
      · exact List.mem_cons_self
      · exact List.mem_cons_of_mem h (List.mem_cons_of_mem a hd)

end Layout

variable {m m' : Memory} {s s' : State} {q : Option Addr} {ret : HitStruct} {info : HitInfo}
variable {first second : Option FileBuffer} {t u fd start stop : Int} {fuel size : Nat}

/-! ## `bufferHitCheck` in memory -/

/-- The pointer leads to the node of the buffer. -/
def At (ps : List (Addr × FileBuffer)) (q : Option Addr) (b : FileBuffer) : Prop :=
  ∃ a, q = some a ∧ (a, b) ∈ ps

/-- A pointer leads to its buffer in whatever order the nodes are. -/
theorem At.perm (hq : At ps q b) (hperm : qs.Perm ps) : At qs q b := by
  obtain ⟨a, ha, hmem⟩ := hq
  exact ⟨a, ha, hperm.mem_iff.2 hmem⟩

/-- A pointer to a node can be followed. -/
theorem Layout.follow (hl : Layout m.headptr m.links m.buffers ps) (hq : At ps q b) :
    m.follow q = some b.contents := by
  obtain ⟨a, rfl, hmem⟩ := hq
  exact hl.node _ hmem

/-- The parts that the search has found so far. -/
structure Names (ps : List (Addr × FileBuffer)) (ret : HitStruct)
    (first second : Option FileBuffer) : Prop where
  type : ret.type = .PERFECT_MISS
  valid₀ : ret.valid₀ = first.isSome
  valid₁ : ret.valid₁ = second.isSome
  first : ∀ b, first = some b → At ps ret.firstpart b
  second : ∀ b, second = some b → At ps ret.secondpart b

/-- A later candidate replaces an earlier one. -/
theorem Names.take_first {P : Prop} [Decidable P] (hnames : Names ps ret first second)
    (hat : At ps (some a) b) :
    Names ps (if P then { ret with valid₀ := true, firstpart := some a } else ret)
      (if P then some b else first) second := by
  by_cases hP : P
  · rw [if_pos hP, if_pos hP]
    exact ⟨hnames.type, rfl, hnames.valid₁, fun c hc => Option.some.inj hc ▸ hat, hnames.second⟩
  · rw [if_neg hP, if_neg hP]
    exact hnames

/-- A node taken as the second part is named so. -/
theorem Names.take_second {P : Prop} [Decidable P] (hnames : Names ps ret first second)
    (hat : At ps (some a) b) :
    Names ps (if P then { ret with valid₁ := true, secondpart := some a } else ret)
      first (if P then some b else second) := by
  by_cases hP : P
  · rw [if_pos hP, if_pos hP]
    exact ⟨hnames.type, hnames.valid₀, rfl, hnames.first, fun c hc => Option.some.inj hc ▸ hat⟩
  · rw [if_neg hP, if_neg hP]
    exact hnames

/-- The search ended with a perfect hit, or with these parts. -/
def Searched (ps : List (Addr × FileBuffer)) (ret : HitStruct) (info : HitInfo) : Prop :=
  (∃ b, info = .PERFECT_HIT b ∧ ret.type = .PERFECT_HIT ∧ At ps ret.firstpart b) ∨
    ∃ first second, info = .ofParts first second ∧ Names ps ret first second

/-- The loop of `bufferHitCheck` finds in memory what it finds in the list. -/
theorem searchLoop_run (t u fd : Int) (hl : Layout m.headptr m.links m.buffers (qs ++ ps))
    (hnames : Names (qs ++ ps) ret first second) (hfuel : ps.length < fuel) :
    ∃ ret', m.searchLoop t u fd fuel (.addr ((ps.map Prod.fst).headD m.headptr)) ret = some ret' ∧
      Searched (qs ++ ps) ret' (scan t u fd (ps.map Prod.snd) first second) := by
  -- on the nodes that are left; the ones behind the loop pile up in `qs`
  induction ps generalizing qs fuel ret first second with
  | nil =>
    obtain ⟨n, rfl⟩ := Nat.exists_eq_succ_of_ne_zero (Nat.ne_of_gt hfuel)
    exact ⟨ret, if_pos rfl, .inr ⟨first, second, rfl, hnames⟩⟩
  | cons p ps ih =>
    obtain ⟨n, rfl⟩ := Nat.exists_eq_succ_of_ne_zero (Nat.ne_of_gt (Nat.zero_lt_of_lt hfuel))
    have hp : p ∈ qs ++ p :: ps := List.mem_append_right qs List.mem_cons_self
    have hne : Ptr.addr p.1 ≠ .addr m.headptr := fun heq => hl.ne_head hp (Ptr.addr.inj heq)
    have hat : At (qs ++ p :: ps) (some p.1) p.2 := ⟨p.1, rfl, hp⟩
    have hrun : m.searchLoop t u fd (n + 1) (.addr p.1) ret =
        if p.2.StartsAt fd t then
          some { ret with type := .PERFECT_HIT, valid₀ := true, firstpart := some p.1 }
        else
          m.searchLoop t u fd n (.addr ((ps.map Prod.fst).headD m.headptr))
            (let ret :=
              if p.2.Covers fd t then { ret with valid₀ := true, firstpart := some p.1 } else ret
            if p.2.Covers fd u then { ret with valid₁ := true, secondpart := some p.1 }
            else ret) := by
      simp only [Memory.searchLoop, if_neg hne, Ptr.cell, hl.node p hp, hl.cell,
        Option.bind_eq_bind, Option.bind_some]
      rfl
    rw [List.map_cons, List.headD_cons, hrun, List.map_cons, scan]
    by_cases hstart : p.2.StartsAt fd t
    · rw [if_pos hstart, if_pos hstart]
      exact ⟨_, rfl, .inl ⟨p.2, rfl, rfl, hat⟩⟩
    · rw [if_neg hstart, if_neg hstart]
      -- the node is passed, and what it covers is remembered
      have hl' : Layout m.headptr m.links m.buffers ((qs ++ [p]) ++ ps) := by
        rwa [List.append_assoc]
      have hnames' : Names ((qs ++ [p]) ++ ps) ret first second := by
        rwa [List.append_assoc]
      have hat' : At ((qs ++ [p]) ++ ps) (some p.1) p.2 := by
        rwa [List.append_assoc]
      have hnames := (hnames'.take_first (P := p.2.Covers fd t) hat').take_second
        (P := p.2.Covers fd u) hat'
      have hrest := ih hl' hnames (Nat.lt_of_succ_lt_succ hfuel)
      rwa [List.append_assoc] at hrest

/-- A node in the middle of the list is moved to its front. -/
theorem listMove_middle {b : FileBuffer} {l₁ l₂ : List FileBuffer}
    (hid : ((l₁ ++ b :: l₂).map FileBuffer.id).Nodup) :
    listMove b (l₁ ++ b :: l₂) = b :: (l₁ ++ l₂) := by
  rw [List.map_append, List.map_cons] at hid
  have hnot : ∀ c ∈ l₁, ¬ decide (c.id = b.id) = true := by
    intro c hc heq
    rw [decide_eq_true_eq] at heq
    exact (List.nodup_append.1 hid).2.2 _ (List.mem_map_of_mem hc) _ List.mem_cons_self heq
  rw [listMove, List.eraseP_append_right _ hnot, List.eraseP_cons_of_pos (by simp)]

/-- `list_move` in memory is the move in the list. -/
theorem moveToFront_run (hl : Layout m.headptr m.links m.buffers ps)
    (hid : ((ps.map Prod.snd).map FileBuffer.id).Nodup) (hq : At ps q b) :
    ∃ heap qs, m.moveToFront q = some { m with links := heap } ∧
      Layout m.headptr heap m.buffers qs ∧
      qs.map Prod.snd = listMove b (ps.map Prod.snd) ∧ qs.Perm ps := by
  obtain ⟨a, rfl, hmem⟩ := hq
  obtain ⟨ps₁, ps₂, rfl⟩ := List.append_of_mem hmem
  obtain ⟨heap, hrun, hl'⟩ := hl.move
  refine ⟨heap, (a, b) :: (ps₁ ++ ps₂), ?_, hl', ?_, List.perm_middle.symm⟩
  · simp only [Memory.moveToFront, Option.bind_eq_bind, Option.bind_some, hrun]
  · simp only [List.map_append, List.map_cons] at hid ⊢
    rw [listMove_middle (by simpa using hid)]

/-- The memory is what the state says, with the nodes at these addresses. -/
structure Stores (m : Memory) (ps : List (Addr × FileBuffer)) (s : State) : Prop where
  layout : Layout m.headptr m.links m.buffers ps
  list : s.list = ps.map Prod.snd
  bufferCount : m.bufferCount = s.bufferCount
  accessCount : m.accessCount = s.accessCount
  hitCount : m.hitCount = s.hitCount
  missCount : m.missCount = s.missCount
  policy : m.policy = s.policy
  disk : m.disk = s.disk

/-- The memory is what the state says, and the nodes of the state are in order. -/
structure Realises (m : Memory) (ps : List (Addr × FileBuffer)) (s : State) : Prop
    extends Stores m ps s where
  nodes : Nodes s

/-- Different nodes have different buffers. -/
theorem Realises.ids (hm : Realises m ps s) : ((ps.map Prod.snd).map FileBuffer.id).Nodup :=
  hm.list ▸ hm.nodes.ids

/-- There are no more nodes than `MAX_LIST_SIZE`. -/
theorem Realises.length_le (hm : Realises m ps s) : ps.length ≤ MAX_LIST_SIZE := by
  have hle := hm.nodes.le
  rwa [hm.nodes.bufferCount, hm.list, List.length_map] at hle

/-- The lookup in memory reports the nodes of the buffers that the lookup in the list reports. -/
def Reports (ps : List (Addr × FileBuffer)) (ret : HitStruct) : HitInfo → Prop
  | .PERFECT_HIT b => ret.type = .PERFECT_HIT ∧ At ps ret.firstpart b
  | .PARTIAL_HIT b c =>
    ret.type = .PARTIAL_HIT ∧ At ps ret.firstpart b ∧ At ps ret.secondpart c
  | .PARTIAL_MISS_FIRST b =>
    ret.type = .PARTIAL_MISS ∧ ret.valid₀ = true ∧ At ps ret.firstpart b
  | .PARTIAL_MISS_SECOND c =>
    ret.type = .PARTIAL_MISS ∧ ret.valid₀ = false ∧ ret.valid₁ = true ∧ At ps ret.secondpart c
  | .PERFECT_MISS => ret.type = .PERFECT_MISS

/-- The memory after a lookup that moved nodes. -/
theorem Realises.looked (hm : Realises m ps s) (hl : Layout m.headptr heap m.buffers qs)
    (hinfo : scan start (toInt (start + size)) fd s.list none none = info)
    (hlist : qs.map Prod.snd = info.move (ps.map Prod.snd)) :
    Realises
      { m with
        links := heap
        accessCount := m.accessCount + 1
        hitCount := if info.isHit then m.hitCount + 1 else m.hitCount
        missCount := if info.isHit then m.missCount else m.missCount + 1 }
      qs (s.bufferHitCheck start size fd).2 := by
  have hnodes : Nodes (s.bufferHitCheck start size fd).2 := hm.nodes.bufferHitCheck.2
  have hstate : (s.bufferHitCheck start size fd).2 =
      { s with
        list := info.move s.list
        accessCount := s.accessCount + 1
        hitCount := if info.isHit then s.hitCount + 1 else s.hitCount
        missCount := if info.isHit then s.missCount else s.missCount + 1 } := by
    rw [← hinfo]
    rfl
  rw [hstate] at hnodes ⊢
  refine ⟨⟨hl, ?_, hm.bufferCount, ?_, ?_, ?_, hm.policy, hm.disk⟩, hnodes⟩
  · rw [hlist, ← hm.list]
  · exact congrArg (fun n => n + 1) hm.accessCount
  · dsimp only
    rw [hm.hitCount]
  · dsimp only
    rw [hm.missCount]

/-- A lookup in memory finds what the lookup in the list finds. -/
theorem bufferHitCheck_run (start : Int) (size : Nat) (fd : Int) (hm : Realises m ps s)
    (hfuel : MAX_LIST_SIZE < fuel) :
    ∃ ret m' qs, m.bufferHitCheck fuel start size fd = some (ret, m') ∧
      Realises m' qs (s.bufferHitCheck start size fd).2 ∧
      Reports qs ret (s.bufferHitCheck start size fd).1 ∧ m'.blocks = m.blocks := by
  have hnames : Names ([] ++ ps) ⟨.PERFECT_MISS, false, false, none, none⟩ none none :=
    ⟨rfl, rfl, rfl, fun b hb => (by cases hb), fun b hb => (by cases hb)⟩
  have hl₀ : Layout m.headptr m.links m.buffers ([] ++ ps) := hm.layout
  obtain ⟨ret, hsearch, hfound⟩ :=
    searchLoop_run (m := { m with accessCount := m.accessCount + 1 }) start
      (toInt (start + size)) fd hl₀ hnames
      (Nat.lt_of_le_of_lt hm.length_le hfuel)
  rw [List.nil_append, ← hm.list] at hfound
  have hload : load m.links (.addr m.headptr) =
      some ⟨.addr ((ps.map Prod.fst).headD m.headptr),
        .addr ((ps.map Prod.fst).getLastD m.headptr)⟩ := head_cell hm.layout.ring
  have hinfo₁ : (s.bufferHitCheck start size fd).1 =
      scan start (toInt (start + size)) fd s.list none none := rfl
  -- the loop ends at a whole hit, or at the head with the two parts that it saw
  rcases hfound with ⟨b, hinfo, htype, hb⟩ | ⟨first, second, hinfo, hnames⟩
  · obtain ⟨heap, qs, hmove, hl, hlist, hperm⟩ :=
      moveToFront_run (m := { m with
        accessCount := m.accessCount + 1
        hitCount := m.hitCount + 1 }) hm.layout hm.ids hb
    refine ⟨ret, _, qs, ?_, hm.looked hl hinfo hlist, ?_⟩
    · simp only [Memory.bufferHitCheck, hload, hsearch, htype, Option.bind_eq_bind,
        Option.bind_some, if_true, hmove]
      rfl
    · rw [hinfo₁, hinfo]
      exact ⟨⟨htype, hb.perm hperm⟩, rfl⟩
  · have htype : ret.type ≠ .PERFECT_HIT := by
      rw [hnames.type]
      decide
    have h₀ := hnames.valid₀
    have h₁ := hnames.valid₁
    cases first with
    | some b =>
      have hb := hnames.first b rfl
      cases second with
      | some c =>
        -- the second part is moved first, so that the first one ends in front
        obtain ⟨heap₁, qs₁, hmove₁, hl₁, hlist₁, hperm₁⟩ :=
          moveToFront_run (m := { m with
            accessCount := m.accessCount + 1
            hitCount := m.hitCount + 1 }) hm.layout hm.ids (hnames.second c rfl)
        have hids₁ : ((qs₁.map Prod.snd).map FileBuffer.id).Nodup :=
          ((hperm₁.map _).map _).nodup_iff.2 hm.ids
        obtain ⟨heap₂, qs₂, hmove₂, hl₂, hlist₂, hperm₂⟩ :=
          moveToFront_run (m := { m with
            links := heap₁
            accessCount := m.accessCount + 1
            hitCount := m.hitCount + 1 }) hl₁ hids₁ (hb.perm hperm₁)
        refine ⟨{ ret with type := .PARTIAL_HIT }, _, qs₂, ?_, hm.looked hl₂ hinfo ?_, ?_⟩
        · simp only [Memory.bufferHitCheck, hload, hsearch, if_neg htype, h₀, h₁,
            Option.bind_eq_bind, Option.bind_some, hmove₁, hmove₂]
          rfl
        · rw [hlist₂, hlist₁]
          rfl
        · rw [hinfo₁, hinfo]
          exact ⟨⟨rfl, (hb.perm hperm₁).perm hperm₂,
            ((hnames.second c rfl).perm hperm₁).perm hperm₂⟩, rfl⟩
      | none =>
        obtain ⟨heap, qs, hmove, hl, hlist, hperm⟩ :=
          moveToFront_run (m := { m with
            accessCount := m.accessCount + 1
            missCount := m.missCount + 1 }) hm.layout hm.ids hb
        refine ⟨{ ret with type := .PARTIAL_MISS }, _, qs, ?_, hm.looked hl hinfo hlist, ?_⟩
        · simp only [Memory.bufferHitCheck, hload, hsearch, if_neg htype, h₀, h₁,
            Option.bind_eq_bind, Option.bind_some, hmove]
          rfl
        · rw [hinfo₁, hinfo]
          exact ⟨⟨rfl, h₀, hb.perm hperm⟩, rfl⟩
    | none =>
      cases second with
      | some c =>
        obtain ⟨heap, qs, hmove, hl, hlist, hperm⟩ :=
          moveToFront_run (m := { m with
            accessCount := m.accessCount + 1
            missCount := m.missCount + 1 }) hm.layout hm.ids (hnames.second c rfl)
        refine ⟨{ ret with type := .PARTIAL_MISS }, _, qs, ?_, hm.looked hl hinfo hlist, ?_⟩
        · simp only [Memory.bufferHitCheck, hload, hsearch, if_neg htype, h₀, h₁,
            Option.bind_eq_bind, Option.bind_some, hmove]
          rfl
        · rw [hinfo₁, hinfo]
          exact ⟨⟨rfl, h₀, h₁, (hnames.second c rfl).perm hperm⟩, rfl⟩
      | none =>
        refine ⟨ret, _, ps, ?_, hm.looked hm.layout hinfo rfl, ?_⟩
        · simp only [Memory.bufferHitCheck, hload, hsearch, if_neg htype, h₀, h₁,
            Option.bind_eq_bind, Option.bind_some]
          rfl
        · rw [hinfo₁, hinfo]
          exact ⟨hnames.type, rfl⟩

/-! ## `addFileBuffer` in memory -/

variable {conf : Conf} {rand : Nat} {alloc : Memory → Addr} {buf : List UInt8}

/-- A node is written back, taken out of the list and freed. -/
theorem dropNode_run (hl : Layout m.headptr m.links m.buffers (ps₁ ++ p :: ps₂)) :
    ∃ heap buffers, m.dropNode Contents.fd p.1 =
        some { m with
          links := heap
          buffers := buffers
          disk := m.disk.writeBack p.2.fd p.2 } ∧
      Layout m.headptr heap buffers (ps₁ ++ ps₂) := by
  obtain ⟨heap, hrun, hlive, hl'⟩ := hl.drop
  refine ⟨_, _, ?_, hl'⟩
  obtain ⟨c, hc⟩ := Option.isSome_iff_exists.1 hlive
  have hnode := hl.node p (List.mem_append_right ps₁ List.mem_cons_self)
  simp only [Memory.dropNode, hrun, hnode, Option.bind_eq_bind, Option.bind_some]
  by_cases hdirty : p.2.dirty = true
  · have hdirty' : p.2.contents.dirty = true := hdirty
    rw [if_pos hdirty', Disk.writeBack, if_pos hdirty]
    simp only [Memory.free, hnode, hc, Option.bind_eq_bind, Option.bind_some]
    rfl
  · have hdirty' : ¬ p.2.contents.dirty = true := hdirty
    rw [if_neg hdirty', Disk.writeBack, if_neg hdirty]
    simp only [Memory.free, hnode, hc, Option.bind_eq_bind, Option.bind_some]

/-- The countdown ends at the node behind as many nodes. -/
theorem evictLoop_run (hl : Layout m.headptr m.links m.buffers (qs ++ (ps₁ ++ p :: ps₂)))
    (hfuel : ps₁.length < fuel) :
    m.evictLoop fuel (.addr (((ps₁ ++ p :: ps₂).map Prod.fst).headD m.headptr))
      (1 + ps₁.length) = m.dropNode Contents.fd p.1 := by
  induction ps₁ generalizing qs fuel with
  | nil =>
    obtain ⟨n, rfl⟩ := Nat.exists_eq_succ_of_ne_zero (Nat.ne_of_gt hfuel)
    have hne : Ptr.addr p.1 ≠ .addr m.headptr := fun heq =>
      hl.ne_head (List.mem_append_right qs List.mem_cons_self) (Ptr.addr.inj heq)
    exact if_neg hne
  | cons r ps₁ ih =>
    obtain ⟨n, rfl⟩ := Nat.exists_eq_succ_of_ne_zero (Nat.ne_of_gt (Nat.zero_lt_of_lt hfuel))
    have hne : Ptr.addr r.1 ≠ .addr m.headptr := fun heq =>
      hl.ne_head (List.mem_append_right qs List.mem_cons_self) (Ptr.addr.inj heq)
    have hl' : Layout m.headptr m.links m.buffers ((qs ++ [r]) ++ (ps₁ ++ p :: ps₂)) := by
      rwa [List.append_assoc]
    have hmore : ¬ 1 + ps₁.length = 0 := by omega
    have hcount : 1 + (ps₁.length + 1) - 1 = 1 + ps₁.length := by omega
    rw [List.cons_append] at hl ⊢
    rw [← ih hl' (Nat.lt_of_succ_lt_succ hfuel), List.map_cons, List.headD_cons, List.length_cons,
      Memory.evictLoop, if_neg hne]
    simp only [hcount, if_neg hmore, Ptr.cell, hl.cell, Option.bind_eq_bind, Option.bind_some]

/-- An eviction frees one node. -/
theorem evict_run (conf : Conf) (rand : Nat) (hm : Stores m ps s)
    (hcount : s.bufferCount = s.list.length) (hfull : MAX_LIST_SIZE ≤ s.list.length)
    (hfuel : s.list.length < fuel) :
    ∃ m' ps₁ p ps₂, m.evict fuel conf rand = some m' ∧ ps = ps₁ ++ p :: ps₂ ∧
      Stores m' (ps₁ ++ ps₂) (s.evict conf rand) ∧ m'.blocks = m.blocks := by
  obtain ⟨l₁, v, l₂, hv, hlist, hpicks⟩ : ∃ l₁ v l₂,
      (s.loadPolicyFromFile conf).victim rand = some (v, l₁ ++ l₂) ∧ s.list = l₁ ++ v :: l₂ ∧
        Picks (s.loadPolicyFromFile conf) (s.loadPolicyFromFile conf).policy rand l₁ l₂ :=
    victim_eq hcount hfull
  -- the victim of the list is a node of the ring
  obtain ⟨ps₁, rest, rfl, rfl, hrest⟩ := List.map_eq_append_iff.1 (hm.list.symm.trans hlist)
  obtain ⟨p, ps₂, rfl, rfl, rfl⟩ := List.map_eq_cons_iff.1 hrest
  have hpolicy : (m.loadPolicyFromFile conf).policy = s.policy.loadPolicyFromFile conf :=
    congrArg (fun p => p.loadPolicyFromFile conf) hm.policy
  obtain ⟨heap, buffers, hdrop, hl⟩ := dropNode_run (m := m.loadPolicyFromFile conf) hm.layout
  have hload := head_cell hm.layout.ring
  have hrun : m.evict fuel conf rand =
      some { m with
        links := heap
        buffers := buffers
        bufferCount := m.bufferCount - 1
        policy := m.policy.loadPolicyFromFile conf
        disk := m.disk.writeBack p.2.fd p.2 } := by
    have hload' : load (m.loadPolicyFromFile conf).links
        (.addr (m.loadPolicyFromFile conf).headptr) = _ := hload
    simp only [Memory.evict, hload', hpolicy, Option.bind_eq_bind, Option.bind_some]
    rw [Picks] at hpicks
    -- the random policy walks to its victim, the others take the last node
    by_cases hrandom : (s.policy.loadPolicyFromFile conf).cachePolicy = 1
    · rw [if_pos hrandom]
      have hlen : ps₁.length = rand % m.bufferCount := by
        rw [hm.bufferCount, ← List.length_map (f := Prod.snd)]
        simpa only [State.loadPolicyFromFile, hrandom, if_true] using hpicks
      have hshort : ps₁.length < fuel := by
        have hlen' := congrArg List.length hm.list
        simp only [List.length_map, List.length_append] at hlen'
        omega
      have hl₀ : Layout m.headptr m.links m.buffers ([] ++ (ps₁ ++ p :: ps₂)) := hm.layout
      have hloop := evictLoop_run (m := m.loadPolicyFromFile conf) hl₀ hshort
      rw [hlen] at hloop
      have hloop' : (m.loadPolicyFromFile conf).evictLoop fuel
          (.addr (((ps₁ ++ p :: ps₂).map Prod.fst).headD m.headptr))
          (1 + rand % (m.loadPolicyFromFile conf).bufferCount) = _ := hloop.trans hdrop
      rw [hloop']
      rfl
    · rw [if_neg hrandom]
      have hlast : ps₂ = [] := by
        simpa only [State.loadPolicyFromFile, hrandom, if_false, List.map_eq_nil_iff] using hpicks
      subst hlast
      have hcell : (Ptr.addr (((ps₁ ++ [p]).map Prod.fst).getLastD m.headptr)).cell =
          some p.1 := by
        simp [Ptr.cell]
      simp only [hcell, Option.bind_some, hdrop]
      rfl
  refine ⟨_, ps₁, p, ps₂, hrun, rfl, ?_, rfl⟩
  rw [evict_eq hv]
  exact ⟨hl, (List.map_append ..).symm, congrArg (fun n => n - 1) hm.bufferCount, hm.accessCount,
    hm.hitCount, hm.missCount, hpolicy, congrArg (fun d : Disk => d.writeBack p.2.fd p.2) hm.disk⟩

theorem evict_nextId : (s.evict conf rand).nextId = s.nextId := by
  rw [State.evict]
  dsimp only
  split
  · rw [writeBack_eq]
    rfl
  · rfl

/-- The new node is put in front. -/
theorem insert_run (buf : List UInt8) (start stop fd : Int) (hm : Stores m ps s) (ha : m.Unused a) :
    ∃ m' heap, m.calloc a ⟨start, stop, false, fd, .ofBytes buf⟩ = some m' ∧
      list_add m'.links (.addr a) (.addr m'.headptr) = some heap ∧
      Stores { m' with links := heap, bufferCount := m'.bufferCount + 1 }
        ((a, ⟨s.nextId, start, stop, false, fd, .ofBytes buf⟩) :: ps)
        (s.insert buf start stop fd) ∧ m'.blocks = m.blocks := by
  let new : FileBuffer := ⟨s.nextId, start, stop, false, fd, .ofBytes buf⟩
  obtain ⟨heap, hrun, hl⟩ := hm.layout.add (b := new) ha.1
  refine ⟨_, heap, if_pos ha, hrun, ⟨hl, ?_, ?_, hm.accessCount, hm.hitCount, hm.missCount,
    hm.policy, hm.disk⟩, rfl⟩
  · exact congrArg (fun l => new :: l) hm.list
  · exact congrArg (fun n => n + 1) hm.bufferCount

/-- A buffer that lost its node is not in the list any more. -/
def Outlived (ps qs : List (Addr × FileBuffer)) : Prop :=
  ∀ p ∈ ps, p ∈ qs ∨ ∀ q ∈ qs, q.2.id ≠ p.2.id

/-- An insertion in memory is the insertion in the list. -/
theorem addFileBuffer_run (hm : Realises m ps s) (hfuel : MAX_LIST_SIZE < fuel)
    (halloc : ∀ m : Memory, (∃ a, m.Unused a) → m.Unused (alloc m)) :
    ∃ m' qs, m.addFileBuffer fuel conf rand alloc buf start stop fd = some m' ∧
      Realises m' qs (s.addFileBuffer conf rand buf start stop fd) ∧ Outlived ps qs ∧
        m'.blocks = m.blocks := by
  have hnodes : Nodes (s.addFileBuffer conf rand buf start stop fd) := hm.nodes.addFileBuffer
  have hm₀ : Stores m ps (s.record (.enter s.list)) :=
    ⟨hm.layout, hm.list, hm.bufferCount, hm.accessCount, hm.hitCount, hm.missCount, hm.policy,
      hm.disk⟩
  have hunused : ∀ {m : Memory} {ps : List (Addr × FileBuffer)} {s : State}, Stores m ps s →
      m.Unused (alloc m) := fun hm => halloc _ hm.layout.exists_unused
  have hcount := hm.nodes.bufferCount
  -- a full list loses a node first
  by_cases hfull : MAX_LIST_SIZE ≤ s.bufferCount
  · obtain ⟨m₁, ps₁, p, ps₂, hevict, rfl, hm₁, hblocks₁⟩ := evict_run conf rand hm₀
      hcount (hcount ▸ hfull) (hcount ▸ Nat.lt_of_le_of_lt hm.nodes.le hfuel)
    obtain ⟨m₂, heap, hcalloc, hadd, hm₂, hblocks₂⟩ := insert_run buf start stop fd
      hm₁ (hunused hm₁)
    have hstate : s.addFileBuffer conf rand buf start stop fd =
        ((s.record (.enter s.list)).evict conf rand).insert buf start stop fd := by
      rw [State.addFileBuffer]
      exact congrArg (fun s => State.insert s buf start stop fd) (if_pos hfull)
    rw [hstate] at hnodes ⊢
    refine ⟨_, _, ?_, ⟨hm₂, hnodes⟩, ?_, hblocks₂.trans hblocks₁⟩
    · simp only [Memory.addFileBuffer, hm.bufferCount, if_pos hfull, hevict, Option.bind_eq_bind,
        Option.bind_some, hcalloc, hadd]
    · intro r hr
      -- the evicted node is gone, and no buffer has its number again
      by_cases hrp : r = p
      · subst hrp
        have hids := hm.ids
        simp only [List.map_append, List.map_cons, List.map_map] at hids
        have hnodup := List.nodup_middle.1 hids
        have hold : r.2.id < s.nextId := by
          refine hm.nodes.allocated r.2 ?_
          rw [hm.list]
          exact List.mem_map_of_mem hr
        refine .inr fun q hq => ?_
        rcases List.mem_cons.1 hq with rfl | hq
        · rw [evict_nextId]
          exact Nat.ne_of_gt hold
        · intro heq
          refine (List.nodup_cons.1 hnodup).1 (heq ▸ ?_)
          rw [← List.map_append]
          exact List.mem_map_of_mem (f := FileBuffer.id ∘ Prod.snd) hq
      · refine .inl (List.mem_cons_of_mem _ ?_)
        simp only [List.mem_append, List.mem_cons, hrp, false_or] at hr ⊢
        exact hr
  · obtain ⟨m₂, heap, hcalloc, hadd, hm₂, hblocks⟩ := insert_run buf start stop fd
      hm₀ (hunused hm₀)
    have hstate : s.addFileBuffer conf rand buf start stop fd =
        (s.record (.enter s.list)).insert buf start stop fd := by
      rw [State.addFileBuffer]
      exact congrArg (fun s => State.insert s buf start stop fd) (if_neg hfull)
    rw [hstate] at hnodes ⊢
    refine ⟨_, _, ?_, ⟨hm₂, hnodes⟩, fun r hr => .inl (List.mem_cons_of_mem _ hr), hblocks⟩
    simp only [Memory.addFileBuffer, hm.bufferCount, if_neg hfull, Option.bind_eq_bind,
      Option.bind_some, hcalloc, hadd]

/-! ## Stores into nodes -/

/-- The pointer leads to the node of this number. -/
def Leads (ps : List (Addr × FileBuffer)) (q : Option Addr) (id : Nat) : Prop :=
  ∃ a c, q = some a ∧ (a, c) ∈ ps ∧ c.id = id

theorem At.leads (hq : At ps q b) : Leads ps q b.id := by
  obtain ⟨a, rfl, hmem⟩ := hq
  exact ⟨a, b, rfl, hmem, rfl⟩

/-- An assignment through a pointer changes the buffer that it leads to. -/
theorem modify_run {f : Contents → Contents} {g : FileBuffer → FileBuffer}
    (hm : Stores m ps s) (hids : ((ps.map Prod.snd).map FileBuffer.id).Nodup) (hq : Leads ps q b.id)
    (hfg : ∀ c, (g c).contents = f c.contents) (hg : ∀ c, (g c).id = c.id) :
    ∃ m' qs, m.modify q f = some m' ∧
      Stores m' qs { s with list := s.list.map fun c => if c.id = b.id then g c else c } ∧
      (∀ r i, Leads ps r i → Leads qs r i) ∧ m'.blocks = m.blocks := by
  obtain ⟨a, c, rfl, hmem, hc⟩ := hq
  let change : Addr × FileBuffer → Addr × FileBuffer :=
    fun p => (p.1, if p.2.id = b.id then g p.2 else p.2)
  have hfst : (ps.map change).map Prod.fst = ps.map Prod.fst := by
    rw [List.map_map]
    rfl
  -- the address and the number say the same
  have hiff : ∀ p ∈ ps, p.1 = a ↔ p.2.id = b.id := by
    intro p hp
    constructor
    · intro heq
      rw [hm.layout.eq_of_fst_eq hp hmem heq]
      exact hc
    · intro heq
      rw [List.map_map] at hids
      have hpc : p = (a, c) := List.inj_on_of_nodup_map hids hp hmem (heq.trans hc.symm)
      rw [hpc]
  refine ⟨{ m with buffers := Function.update m.buffers a (some (f c.contents)) }, ps.map change,
    ?_, ⟨⟨?_, ?_, ?_, ?_⟩, ?_, hm.bufferCount, hm.accessCount, hm.hitCount, hm.missCount, hm.policy,
      hm.disk⟩, ?_, rfl⟩
  · simp only [Memory.modify, Option.bind_eq_bind, Option.bind_some, hm.layout.node _ hmem]
  · rw [hfst]
    exact hm.layout.lists
  · intro p' hp'
    obtain ⟨p, hp, rfl⟩ := List.mem_map.1 hp'
    by_cases hpa : p.1 = a
    · have hpc : p = (a, c) := hm.layout.eq_of_fst_eq hp hmem hpa
      subst hpc
      simp only [change, if_pos hc, hfg, Function.update_self]
    · have hpb : ¬ p.2.id = b.id := fun heq => hpa ((hiff p hp).2 heq)
      simp only [change, if_neg hpb, Function.update_of_ne hpa, hm.layout.node p hp]
  · intro d hd
    rw [hfst]
    by_cases hda : d = a
    · exact hda ▸ List.mem_map_of_mem hmem
    · refine hm.layout.buffers_mem d fun hnone => hd ?_
      exact (Function.update_of_ne hda _ _).trans hnone
  · rw [hfst]
    exact hm.layout.heap_mem
  · simp only [hm.list, List.map_map]
    rfl
  · rintro r i ⟨d, e, rfl, hde, he⟩
    refine ⟨d, (change (d, e)).2, rfl, List.mem_map_of_mem hde, ?_⟩
    dsimp only [change]
    split
    · exact (hg e).trans he
    · exact he

/-- A `memcpy` through a pointer changes the bytes of its buffer. -/
theorem setBuf_run (buf : List UInt8) (hm : Realises m ps s) (hq : Leads ps q b.id) :
    ∃ m' qs, m.setBuf q buf = some m' ∧ Realises m' qs (s.setBuf b buf) ∧
      (∀ r i, Leads ps r i → Leads qs r i) ∧ m'.blocks = m.blocks := by
  obtain ⟨m', qs, hrun, hm', hleads, hblocks⟩ :=
    modify_run (g := fun c => { c with buf := .ofBytes buf })
      (f := fun c => { c with buf := .ofBytes buf }) hm.toStores hm.ids hq (fun _ => rfl)
      fun _ => rfl
  exact ⟨m', qs, hrun, ⟨hm', hm.nodes.quiet (quiet_setBuf s b buf)⟩, hleads, hblocks⟩

theorem setDirty_run (hm : Realises m ps s) (hq : Leads ps q b.id) :
    ∃ m' qs, m.setDirty q = some m' ∧ Realises m' qs (s.setDirty b) ∧
      (∀ r i, Leads ps r i → Leads qs r i) ∧ m'.blocks = m.blocks := by
  obtain ⟨m', qs, hrun, hm', hleads, hblocks⟩ :=
    modify_run (g := fun c => { c with dirty := true }) (f := fun c => { c with dirty := true })
      hm.toStores hm.ids hq (fun _ => rfl) fun _ => rfl
  exact ⟨m', qs, hrun, ⟨hm', hm.nodes.quiet (quiet_setDirty s b)⟩, hleads, hblocks⟩

/-! ## `releaseFileBuffer` in memory -/

/-- The loop of a release frees every node. -/
theorem releaseLoop_run (fd : Int) (hl : Layout m.headptr m.links m.buffers ps)
    (hfuel : ps.length < fuel) :
    ∃ heap buffers, Memory.releaseLoop fd fuel m =
        some { m with
          links := heap
          buffers := buffers
          disk := (ps.map Prod.snd).foldl (fun d pos => d.writeBack fd pos) m.disk } ∧
      Layout m.headptr heap buffers [] := by
  induction ps generalizing m fuel with
  | nil =>
    obtain ⟨n, rfl⟩ := Nat.exists_eq_succ_of_ne_zero (Nat.ne_of_gt hfuel)
    refine ⟨m.links, m.buffers, ?_, hl⟩
    simp [Memory.releaseLoop, list_empty_ring hl.ring]
  | cons p ps ih =>
    obtain ⟨n, rfl⟩ := Nat.exists_eq_succ_of_ne_zero (Nat.ne_of_gt (Nat.zero_lt_of_lt hfuel))
    have hl₀ : Layout m.headptr m.links m.buffers ([] ++ p :: ps) := hl
    -- the first node is unlinked and freed, and the rest is a list again
    obtain ⟨heap, hdel, hlive, hl'⟩ := hl₀.drop
    obtain ⟨c, hc⟩ := Option.isSome_iff_exists.1 hlive
    have hempty : list_empty m.links (.addr m.headptr) = some false := list_empty_ring hl.ring
    have hload : load m.links (.addr m.headptr) =
        some ⟨.addr p.1, .addr (((p :: ps).map Prod.fst).getLastD m.headptr)⟩ := head_cell hl.ring
    have hnode := hl.node p List.mem_cons_self
    obtain ⟨heap', buffers', hrest, hl''⟩ :=
      ih (m := { m with
        links := Function.update heap p.1 none
        buffers := Function.update m.buffers p.1 none
        disk := m.disk.writeBack fd p.2 }) hl' (Nat.lt_of_succ_lt_succ hfuel)
    have hwrite : (if p.2.contents.dirty = true then
        { m with
          disk := m.disk.written fd p.2.contents.buf.bytes p.2.contents.fromOffset }
        else m) = { m with disk := m.disk.writeBack fd p.2 } := by
      rw [Disk.writeBack]
      by_cases hdirty : p.2.dirty = true
      · rw [if_pos hdirty]
        exact if_pos hdirty
      · rw [if_neg hdirty]
        exact if_neg hdirty
    refine ⟨heap', buffers', ?_, hl''⟩
    rw [List.map_cons, List.foldl_cons, ← hrest]
    simp only [Memory.releaseLoop, hempty, hload, Ptr.cell, hnode, hwrite, hdel, Memory.free, hc,
      Option.bind_eq_bind, Option.bind_some, Bool.false_eq_true, if_false]

/-- A release in memory leaves the empty list. -/
theorem releaseFileBuffer_run (fd : Int) (hm : Realises m ps s) (hfuel : MAX_LIST_SIZE < fuel) :
    ∃ m', m.releaseFileBuffer fuel fd = some m' ∧ Realises m' [] (s.releaseFileBuffer fd) ∧
      m'.blocks = m.blocks := by
  obtain ⟨heap, buffers, hloop, hl⟩ := releaseLoop_run fd hm.layout
    (Nat.lt_of_le_of_lt hm.length_le hfuel)
  obtain ⟨heap', hinit, hlists, hlive⟩ := INIT_LIST_HEAD_lists hl.lists
    (live_of_ring hl.ring List.mem_cons_self) fun k l hk => by
      obtain ⟨rfl, rfl⟩ := of_lone_eq_some hk
      exact List.not_mem_nil
  rw [lone_update] at hlists
  refine ⟨{ m with
    links := heap'
    buffers := buffers
    disk := (ps.map Prod.snd).foldl (fun d pos => d.writeBack fd pos) m.disk
    accessCount := 0
    hitCount := 0
    missCount := 0
    bufferCount := 0 }, ?_, ?_, rfl⟩
  · simp only [Memory.releaseFileBuffer, hloop, hinit, Option.bind_eq_bind, Option.bind_some]
  · rw [releaseFileBuffer_eq]
    refine ⟨⟨⟨hlists, fun p hp => ?_, hl.buffers_mem, fun a ha => hl.heap_mem_of_live hlive a ha⟩,
      rfl, rfl, rfl, rfl, rfl, hm.policy, ?_⟩, ?_⟩
    · exact absurd hp List.not_mem_nil
    · dsimp only
      rw [hm.list, hm.disk]
    · exact ⟨List.nodup_nil, fun b hb => absurd hb List.not_mem_nil, rfl, Nat.zero_le _⟩

end EE516.Bbfs
