import EE516.Foundations.Run
import EE516.KernelList.ListHead

/-!
# What the functions of `list.h` do to lists

A heap holds lists at their heads (`Represents`): each is a ring through its head, and no cell is in
two of them. Every function does to the rings what its name says, and every sequence of calls that
respects the rules for its arguments leaves rings that `list_for_each` walks in the order of the
lists.
-/

set_option autoImplicit false

namespace EE516.KernelList

open EE516.Foundations

variable {κ : Type} [DecidableEq κ] {heap heap' : Heap κ} {a b h k x : κ} {l l₁ l₂ m : List κ}

/-! ## Cells of rings -/

omit [DecidableEq κ] in
theorem eq_addr_of_cell {p : Ptr κ} (hp : p.cell = some a) : p = .addr a := by
  cases p <;> cases hp
  rfl

omit [DecidableEq κ] in
/-- A cell between two neighbours is allocated and points to them. -/
theorem cell_of_links (hnext : (links heap).next x = some b)
    (hprev : (links heap).prev x = some a) : heap x = some ⟨.addr b, .addr a⟩ := by
  obtain ⟨⟨p, q⟩, hc, hp⟩ := Option.bind_eq_some_iff.1 hnext
  obtain ⟨c, hc', hq⟩ := Option.bind_eq_some_iff.1 hprev
  obtain rfl : (⟨p, q⟩ : ListHead κ) = c := Option.some.inj (hc.symm.trans hc')
  rw [hc, eq_addr_of_cell (p := p) hp, eq_addr_of_cell (p := q) hq]

omit [DecidableEq κ] in
/-- What the head of a ring points to. -/
theorem head_cell (hr : Ring (links heap) h l) :
    heap h = some ⟨.addr (l.headD h), .addr (l.getLastD h)⟩ :=
  cell_of_links hr.next_head hr.prev_head

omit [DecidableEq κ] in
/-- What an entry of a ring points to. -/
theorem entry_cell (hr : Ring (links heap) h (l₁ ++ x :: l₂)) :
    heap x = some ⟨.addr (l₂.headD h), .addr (l₁.getLastD h)⟩ :=
  cell_of_links hr.neighbours.1 hr.neighbours.2

omit [DecidableEq κ] in
/-- The cells of a ring are allocated. -/
theorem live_of_ring (hr : Ring (links heap) h l) (ha : a ∈ h :: l) : (heap a).isSome = true := by
  rcases List.mem_cons.1 ha with rfl | ha
  · rw [head_cell hr]
    rfl
  · obtain ⟨l₁, l₂, rfl⟩ := List.append_of_mem ha
    rw [entry_cell hr]
    rfl

omit [DecidableEq κ] in
theorem headD_mem (h : κ) (l : List κ) : l.headD h ∈ h :: l := by
  cases l with
  | nil => exact List.mem_cons_self
  | cons y l => exact List.mem_cons_of_mem h List.mem_cons_self

/-! ## Walking through a ring -/

/-- The loop goes on from any place of the ring. -/
theorem forEachLoop_ring (hr : Ring (links heap) h (l₁ ++ l₂)) {fuel : Nat}
    (hfuel : l₂.length < fuel) :
    forEachLoop heap (.addr h) fuel (.addr (l₂.headD h)) = some l₂ := by
  induction l₂ generalizing l₁ fuel with
  | nil =>
    obtain ⟨n, rfl⟩ := Nat.exists_eq_succ_of_ne_zero (Nat.ne_of_gt hfuel)
    exact if_pos rfl
  | cons x l₂ ih =>
    obtain ⟨n, rfl⟩ := Nat.exists_eq_succ_of_ne_zero (Nat.ne_of_gt (Nat.zero_lt_of_lt hfuel))
    have hne : Ptr.addr x ≠ .addr h := by
      intro heq
      exact hr.head_notMem (Ptr.addr.inj heq ▸ List.mem_append_right l₁ List.mem_cons_self)
    have hr' : Ring (links heap) h ((l₁ ++ [x]) ++ l₂) := by
      rw [List.append_assoc]
      exact hr
    have hrest := ih hr' (Nat.lt_of_succ_lt_succ hfuel)
    simp only [List.headD_cons, forEachLoop, if_neg hne, Ptr.cell, entry_cell hr, hrest,
      Option.bind_eq_bind, Option.bind_some]

/-- `list_for_each` visits the entries of a ring in their order. -/
theorem list_for_each_ring (hr : Ring (links heap) h l) {fuel : Nat} (hfuel : l.length < fuel) :
    list_for_each heap fuel (.addr h) = some l := by
  have hr₀ : Ring (links heap) h ([] ++ l) := hr
  have hloop := forEachLoop_ring hr₀ hfuel
  simpa [list_for_each, load, Ptr.cell, head_cell hr] using hloop

/-- `list_empty` tells whether a ring has entries. -/
theorem list_empty_ring (hr : Ring (links heap) h l) :
    list_empty heap (.addr h) = some (decide (l = [])) := by
  have hiff := hr.next_head_eq
  rw [hr.next_head, Option.some_inj] at hiff
  simp only [list_empty, load, Ptr.cell, Option.bind_some, head_cell hr, Option.bind_eq_bind,
    Ptr.addr.injEq, hiff]

/-! ## The lists of a heap -/

/-- The lists by their heads; a cell that heads no list and is in none is free. -/
abbrev Lists (κ : Type) := κ → Option (List κ)

omit [DecidableEq κ] in
/-- Each head is in a ring with its list, and the rings are apart. -/
structure Represents (heap : Heap κ) (A : Lists κ) : Prop where
  ring : ∀ {h l}, A h = some l → Ring (links heap) h l
  apart : ∀ {h k l m}, A h = some l → A k = some m → h ≠ k → ∀ c ∈ h :: l, c ∉ k :: m

/-- The cell is in no list and heads none. -/
def Lists.Free (A : Lists κ) (x : κ) : Prop :=
  ∀ k m, A k = some m → x ∉ k :: m

/-- The lists without a cell. -/
def Lists.unlink (A : Lists κ) (x : κ) : Lists κ :=
  fun k => (A k).map fun m => m.erase x

variable {A : Lists κ}

/-- A free cell is put into a list. -/
theorem Represents.insert (hrep : Represents heap A) (hA : A h = some (l₁ ++ l₂)) (hx : A.Free x)
    (hheap : Rewired heap (((links heap).join x (l₂.headD h)).join (l₁.getLastD h) x) heap') :
    Represents heap' (Function.update A h (some (l₁ ++ x :: l₂))) := by
  have hlast : l₁.getLastD h ∈ h :: (l₁ ++ l₂) :=
    (List.sublist_append_left (h :: l₁) l₂).subset (getLastD_mem_cons h l₁)
  have hfirst : l₂.headD h ∈ h :: (l₁ ++ l₂) := by
    rcases List.mem_cons.1 (headD_mem h l₂) with heq | hm
    · rw [heq]
      exact List.mem_cons_self
    · exact List.mem_cons_of_mem h (List.mem_append_right l₁ hm)
  constructor
  · -- the other rings do not meet the cells that are joined
    intro k m hk
    rw [hheap.links]
    by_cases hkh : k = h
    · subst hkh
      rw [Function.update_self] at hk
      cases hk
      exact (hrep.ring hA).insert (hx k _ hA)
    · rw [Function.update_of_ne hkh] at hk
      have hout : ∀ c ∈ h :: (l₁ ++ l₂), c ∉ k :: m := hrep.apart hA hk (Ne.symm hkh)
      refine ((hrep.ring hk).join_outside (hx k m hk) ?_).join_outside ?_ (hx k m hk)
      · exact hout _ hfirst
      · exact hout _ hlast
  · -- the new entry was in no list
    have hmem : ∀ {c}, c ∈ h :: (l₁ ++ x :: l₂) → c = x ∨ c ∈ h :: (l₁ ++ l₂) := by
      intro c hc
      simp only [List.mem_cons, List.mem_append] at hc ⊢
      tauto
    intro j k l m hj hk hne c hc
    by_cases hjh : j = h
    · subst hjh
      rw [Function.update_self] at hj
      rw [Function.update_of_ne (Ne.symm hne)] at hk
      cases hj
      rcases hmem hc with rfl | hc
      · exact hx k m hk
      · exact hrep.apart hA hk hne c hc
    · rw [Function.update_of_ne hjh] at hj
      by_cases hkh : k = h
      · subst hkh
        rw [Function.update_self] at hk
        cases hk
        intro hck
        rcases hmem hck with rfl | hck
        · exact hx j l hj hc
        · exact hrep.apart hj hA hne c hc hck
      · rw [Function.update_of_ne hkh] at hk
        exact hrep.apart hj hk hne c hc

/-- A cell is taken out of its list. -/
theorem Represents.remove (hrep : Represents heap A) (hA : A h = some (l₁ ++ x :: l₂))
    (hheap : Rewired heap ((links heap).join (l₁.getLastD h) (l₂.headD h)) heap') :
    Represents heap' (A.unlink x) := by
  have hr := hrep.ring hA
  have hlast : l₁.getLastD h ∈ h :: (l₁ ++ x :: l₂) :=
    (List.sublist_append_left (h :: l₁) _).subset (getLastD_mem_cons h l₁)
  have hfirst : l₂.headD h ∈ h :: (l₁ ++ x :: l₂) := by
    rcases List.mem_cons.1 (headD_mem h l₂) with heq | hm
    · rw [heq]
      exact List.mem_cons_self
    · exact List.mem_cons_of_mem h (List.mem_append_right l₁ (List.mem_cons_of_mem x hm))
  constructor
  · intro k m hk
    -- erasing the entry changes the list that has it, and no other one
    obtain ⟨m', hk', rfl⟩ := Option.map_eq_some_iff.1 hk
    rw [hheap.links]
    by_cases hkh : k = h
    · subst hkh
      obtain rfl : l₁ ++ x :: l₂ = m' := Option.some.inj (hA.symm.trans hk')
      have hnodup := (List.nodup_cons.1 hr.nodup).2
      have hx₁ : x ∉ l₁ := fun hm => (List.nodup_append.1 hnodup).2.2 x hm x List.mem_cons_self rfl
      rw [List.erase_append_right _ hx₁, List.erase_cons_head]
      exact hr.remove
    · have hout : ∀ c ∈ h :: (l₁ ++ x :: l₂), c ∉ k :: m' := hrep.apart hA hk' (Ne.symm hkh)
      have hx : x ∉ m' := fun hm =>
        hout x (List.mem_cons_of_mem h (List.mem_append_right l₁ List.mem_cons_self))
          (List.mem_cons_of_mem k hm)
      rw [List.erase_of_not_mem hx]
      exact (hrep.ring hk').join_outside (hout _ hlast) (hout _ hfirst)
  · have hmem : ∀ {k : κ} {m : List κ} {c : κ}, c ∈ k :: m.erase x → c ∈ k :: m := by
      intro k m c hc
      rcases List.mem_cons.1 hc with rfl | hc
      · exact List.mem_cons_self
      · exact List.mem_cons_of_mem k (List.mem_of_mem_erase hc)
    intro j k l m hj hk hne c hc hck
    obtain ⟨l', hj', rfl⟩ := Option.map_eq_some_iff.1 hj
    obtain ⟨m', hk', rfl⟩ := Option.map_eq_some_iff.1 hk
    exact hrep.apart hj' hk' hne c (hmem hc) (hmem hck)

/-- The lists after a splice: the joined one, and those of the other heads. -/
theorem splice_eq_some {j : κ} {n : List κ}
    (hj : Function.update (Function.update A k none) h (some (m ++ l)) j = some n) :
    j = h ∧ n = m ++ l ∨ j ≠ h ∧ j ≠ k ∧ A j = some n := by
  by_cases hjh : j = h
  · subst hjh
    rw [Function.update_self] at hj
    exact .inl ⟨rfl, (Option.some.inj hj).symm⟩
  · rw [Function.update_of_ne hjh] at hj
    by_cases hjk : j = k
    · subst hjk
      rw [Function.update_self] at hj
      cases hj
    · rw [Function.update_of_ne hjk] at hj
      exact .inr ⟨hjh, hjk, hj⟩

/-- The cells of another list are put behind a head. -/
theorem Represents.splice (hrep : Represents heap A) (hm : A k = some m) (hl : A h = some l)
    (hne : k ≠ h) (hnil : m ≠ [])
    (hheap : Rewired heap
      (((links heap).join h (m.headD k)).join (m.getLastD k) (l.headD h)) heap') :
    Represents heap' (Function.update (Function.update A k none) h (some (m ++ l))) := by
  have hfirst : m.headD k ∈ k :: m := headD_mem k m
  have hlast : m.getLastD k ∈ k :: m := getLastD_mem_cons k m
  constructor
  · intro j n hj
    rw [hheap.links]
    rcases splice_eq_some hj with ⟨rfl, rfl⟩ | ⟨hjh, hjk, hj⟩
    · exact (hrep.ring hl).splice (hrep.ring hm) hnil (hrep.apart hm hl hne)
    · have hk := hrep.apart hm hj (Ne.symm hjk)
      have hh := hrep.apart hl hj (Ne.symm hjh)
      exact ((hrep.ring hj).join_outside (hh h List.mem_cons_self) (hk _ hfirst)).join_outside
        (hk _ hlast) (hh _ (headD_mem h l))
  · -- the joined list has the cells of both
    have hmem : ∀ {c}, c ∈ h :: (m ++ l) → c ∈ k :: m ∨ c ∈ h :: l := by
      intro c hc
      simp only [List.mem_cons, List.mem_append] at hc ⊢
      tauto
    intro i j n n' hi hj hij c hc hcj
    rcases splice_eq_some hi with ⟨rfl, rfl⟩ | ⟨hih, hik, hi'⟩
    · rcases splice_eq_some hj with ⟨rfl, -⟩ | ⟨hjh, hjk, hj'⟩
      · exact hij rfl
      · rcases hmem hc with hc | hc
        · exact hrep.apart hm hj' (Ne.symm hjk) c hc hcj
        · exact hrep.apart hl hj' (Ne.symm hjh) c hc hcj
    · rcases splice_eq_some hj with ⟨rfl, rfl⟩ | ⟨hjh, hjk, hj'⟩
      · rcases hmem hcj with hcj | hcj
        · exact hrep.apart hi' hm hik c hc hcj
        · exact hrep.apart hi' hl hih c hc hcj
      · exact hrep.apart hi' hj' hij c hc hcj

/-- A cell that is in no list but may head one becomes the head of an empty list. -/
theorem Represents.init (hrep : Represents heap A) (ha : ∀ k m, A k = some m → a ∉ m)
    (hheap : Rewired heap ((links heap).join a a) heap') :
    Represents heap' (Function.update A a (some [])) := by
  -- one list is new, the others are as before
  have hcell : ∀ {j n}, Function.update A a (some []) j = some n →
      j = a ∧ n = [] ∨ j ≠ a ∧ A j = some n := by
    intro j n hj
    by_cases hja : j = a
    · subst hja
      rw [Function.update_self] at hj
      exact .inl ⟨rfl, (Option.some.inj hj).symm⟩
    · rw [Function.update_of_ne hja] at hj
      exact .inr ⟨hja, hj⟩
  have hout : ∀ {j n}, j ≠ a → A j = some n → a ∉ j :: n := by
    intro j n hja hj hm
    rcases List.mem_cons.1 hm with rfl | hm
    · exact hja rfl
    · exact ha j n hj hm
  constructor
  · intro j n hj
    rw [hheap.links]
    rcases hcell hj with ⟨rfl, rfl⟩ | ⟨hja, hj⟩
    · exact Ring.single _ _
    · exact (hrep.ring hj).join_outside (hout hja hj) (hout hja hj)
  · intro i j n n' hi hj hij c hc hcj
    rcases hcell hi with ⟨rfl, rfl⟩ | ⟨hia, hi'⟩
    · rcases hcell hj with ⟨rfl, -⟩ | ⟨hja, hj'⟩
      · exact hij rfl
      · obtain rfl := List.mem_singleton.1 hc
        exact hout hja hj' hcj
    · rcases hcell hj with ⟨rfl, rfl⟩ | ⟨hja, hj'⟩
      · obtain rfl := List.mem_singleton.1 hcj
        exact hout hia hi' hc
      · exact hrep.apart hi' hj' hij c hc hcj

omit [DecidableEq κ] in
/-- A head is no entry of a list. -/
theorem Represents.head_notMem {n : List κ} (hrep : Represents heap A) (hk : A k = some m)
    (hh : A h = some n) : k ∉ n := by
  intro hm
  by_cases hkh : k = h
  · subst hkh
    exact (hrep.ring hh).head_notMem hm
  · exact hrep.apart hk hh hkh k List.mem_cons_self (List.mem_cons_of_mem h hm)

omit [DecidableEq κ] in
/-- The pointers of a free cell do not matter. -/
theorem Represents.poison (hrep : Represents heap A) (hx : A.Free x)
    (hheap : ∀ c, c ≠ x → (links heap').next c = (links heap).next c ∧
      (links heap').prev c = (links heap).prev c) : Represents heap' A where
  ring hA := (hrep.ring hA).frame fun c hc => hheap c (ne_of_mem_of_not_mem hc (hx _ _ hA))
  apart := hrep.apart

/-- A cell that was taken out of its list is free. -/
theorem Represents.free_unlink (hrep : Represents heap A) (hA : A h = some l) (hx : x ∈ l) :
    (A.unlink x).Free x := by
  intro k m hk hm
  obtain ⟨m', hk', rfl⟩ := Option.map_eq_some_iff.1 hk
  have hr := hrep.ring hk'
  by_cases hkh : k = h
  · subst hkh
    obtain rfl : l = m' := Option.some.inj (hA.symm.trans hk')
    rcases List.mem_cons.1 hm with rfl | hm
    · exact hr.head_notMem hx
    · exact ((List.nodup_cons.1 hr.nodup).2.mem_erase_iff.1 hm).1 rfl
  · refine hrep.apart hA hk' (Ne.symm hkh) x (List.mem_cons_of_mem h hx) ?_
    rcases List.mem_cons.1 hm with rfl | hm
    · exact List.mem_cons_self
    · exact List.mem_cons_of_mem k (List.mem_of_mem_erase hm)

/-! ## The functions -/

omit [DecidableEq κ] in
/-- The heap holds the lists, in the cells of the first heap. -/
structure Becomes (heap : Heap κ) (A : Lists κ) (heap' : Heap κ) : Prop where
  lists : Represents heap' A
  live : ∀ a, (heap' a).isSome = (heap a).isSome

/-- `INIT_LIST_HEAD` makes an empty list. -/
theorem INIT_LIST_HEAD_lists (hrep : Represents heap A) (hlive : (heap a).isSome = true)
    (ha : ∀ k m, A k = some m → a ∉ m) :
    ∃ heap', INIT_LIST_HEAD heap (.addr a) = some heap' ∧
      Becomes heap (Function.update A a (some [])) heap' := by
  obtain ⟨heap', hrun, hheap⟩ := INIT_LIST_HEAD_run hlive
  exact ⟨heap', hrun, hrep.init ha hheap, hheap.live⟩

/-- `list_add` puts an entry at the front. -/
theorem list_add_lists (hrep : Represents heap A) (hA : A h = some l) (hx : A.Free x)
    (hlive : (heap x).isSome = true) :
    ∃ heap', list_add heap (.addr x) (.addr h) = some heap' ∧
      Becomes heap (Function.update A h (some (x :: l))) heap' := by
  have hr := hrep.ring hA
  obtain ⟨heap', hrun, hheap⟩ := listAddBetween_run hlive (live_of_ring hr List.mem_cons_self)
    (live_of_ring hr (headD_mem h l))
  rw [← List.nil_append l] at hA
  refine ⟨heap', ?_, hrep.insert hA hx hheap, hheap.live⟩
  simpa [list_add, load, Ptr.cell, head_cell hr] using hrun

/-- `list_add_tail` puts an entry at the end. -/
theorem list_add_tail_lists (hrep : Represents heap A) (hA : A h = some l) (hx : A.Free x)
    (hlive : (heap x).isSome = true) :
    ∃ heap', list_add_tail heap (.addr x) (.addr h) = some heap' ∧
      Becomes heap (Function.update A h (some (l ++ [x]))) heap' := by
  have hr := hrep.ring hA
  obtain ⟨heap', hrun, hheap⟩ := listAddBetween_run hlive
    (live_of_ring hr (getLastD_mem_cons h l)) (live_of_ring hr List.mem_cons_self)
  rw [← List.append_nil l] at hA
  refine ⟨heap', ?_, hrep.insert hA hx hheap, hheap.live⟩
  simpa [list_add_tail, load, Ptr.cell, head_cell hr] using hrun

/-- What `list_del` and `list_move` begin with. -/
theorem unlink_lists (hrep : Represents heap A) (hA : A h = some l) (hx : x ∈ l) :
    ∃ e heap', load heap (.addr x) = some e ∧ listDelBetween heap e.prev e.next = some heap' ∧
      Becomes heap (A.unlink x) heap' := by
  have hr := hrep.ring hA
  obtain ⟨l₁, l₂, rfl⟩ := List.append_of_mem hx
  have hlast : l₁.getLastD h ∈ h :: (l₁ ++ x :: l₂) :=
    (List.sublist_append_left (h :: l₁) _).subset (getLastD_mem_cons h l₁)
  have hfirst : l₂.headD h ∈ h :: (l₁ ++ x :: l₂) := by
    rcases List.mem_cons.1 (headD_mem h l₂) with heq | hm
    · rw [heq]
      exact List.mem_cons_self
    · exact List.mem_cons_of_mem h (List.mem_append_right l₁ (List.mem_cons_of_mem x hm))
  obtain ⟨heap', hrun, hheap⟩ :=
    listDelBetween_run (live_of_ring hr hlast) (live_of_ring hr hfirst)
  exact ⟨_, heap', entry_cell hr, hrun, hrep.remove hA hheap, hheap.live⟩

/-- `list_del` takes an entry out of its list. -/
theorem list_del_lists (hrep : Represents heap A) (hA : A h = some l) (hx : x ∈ l) :
    ∃ heap', list_del heap (.addr x) = some heap' ∧ Becomes heap (A.unlink x) heap' := by
  have hlive := live_of_ring (hrep.ring hA) (List.mem_cons_of_mem h hx)
  obtain ⟨e, heap₁, hload, hrun₁, hrep₁, hlive₁⟩ := unlink_lists hrep hA hx
  obtain ⟨heap₂, hrun₂, hlinks₂, hlive₂⟩ := setNext_run ((hlive₁ x).trans hlive) .LIST_POISON1
  obtain ⟨heap₃, hrun₃, hlinks₃, hlive₃⟩ :=
    setPrev_run (((hlive₂ x).trans (hlive₁ x)).trans hlive) .LIST_POISON2
  refine ⟨heap₃, ?_, hrep₁.poison (hrep.free_unlink hA hx) fun c hc => ?_, fun a => ?_⟩
  · simp only [list_del, hload, hrun₁, hrun₂, hrun₃, Option.bind_eq_bind, Option.bind_some]
  · rw [hlinks₃, hlinks₂]
    exact ⟨Function.update_of_ne hc _ _, Function.update_of_ne hc _ _⟩
  · rw [hlive₃, hlive₂, hlive₁]

/-- `list_del_init` takes an entry out and leaves it as an empty list. -/
theorem list_del_init_lists (hrep : Represents heap A) (hA : A h = some l) (hx : x ∈ l) :
    ∃ heap', list_del_init heap (.addr x) = some heap' ∧
      Becomes heap (Function.update (A.unlink x) x (some [])) heap' := by
  have hlive := live_of_ring (hrep.ring hA) (List.mem_cons_of_mem h hx)
  obtain ⟨e, heap₁, hload, hrun₁, hrep₁, hlive₁⟩ := unlink_lists hrep hA hx
  obtain ⟨heap₂, hrun₂, hrep₂, hlive₂⟩ := INIT_LIST_HEAD_lists hrep₁ ((hlive₁ x).trans hlive)
    fun k m hk hm => hrep.free_unlink hA hx k m hk (List.mem_cons_of_mem k hm)
  refine ⟨heap₂, ?_, hrep₂, fun a => (hlive₂ a).trans (hlive₁ a)⟩
  simp only [list_del_init, hload, hrun₁, hrun₂, Option.bind_eq_bind, Option.bind_some]

/-- `list_move` takes an entry out and puts it at the front of a list. -/
theorem list_move_lists (hrep : Represents heap A) (hk : A k = some m) (hx : x ∈ m)
    (hA : A.unlink x h = some l) :
    ∃ heap', list_move heap (.addr x) (.addr h) = some heap' ∧
      Becomes heap (Function.update (A.unlink x) h (some (x :: l))) heap' := by
  have hlive := live_of_ring (hrep.ring hk) (List.mem_cons_of_mem k hx)
  obtain ⟨e, heap₁, hload, hrun₁, hrep₁, hlive₁⟩ := unlink_lists hrep hk hx
  obtain ⟨heap₂, hrun₂, hrep₂, hlive₂⟩ := list_add_lists hrep₁ hA (hrep.free_unlink hk hx)
    ((hlive₁ x).trans hlive)
  refine ⟨heap₂, ?_, hrep₂, fun a => (hlive₂ a).trans (hlive₁ a)⟩
  simp only [list_move, hload, hrun₁, hrun₂, Option.bind_eq_bind, Option.bind_some]

/-- `list_move_tail` takes an entry out and puts it at the end of a list. -/
theorem list_move_tail_lists (hrep : Represents heap A) (hk : A k = some m) (hx : x ∈ m)
    (hA : A.unlink x h = some l) :
    ∃ heap', list_move_tail heap (.addr x) (.addr h) = some heap' ∧
      Becomes heap (Function.update (A.unlink x) h (some (l ++ [x]))) heap' := by
  have hlive := live_of_ring (hrep.ring hk) (List.mem_cons_of_mem k hx)
  obtain ⟨e, heap₁, hload, hrun₁, hrep₁, hlive₁⟩ := unlink_lists hrep hk hx
  obtain ⟨heap₂, hrun₂, hrep₂, hlive₂⟩ := list_add_tail_lists hrep₁ hA (hrep.free_unlink hk hx)
    ((hlive₁ x).trans hlive)
  refine ⟨heap₂, ?_, hrep₂, fun a => (hlive₂ a).trans (hlive₁ a)⟩
  simp only [list_move_tail, hload, hrun₁, hrun₂, Option.bind_eq_bind, Option.bind_some]

/-- `__list_splice` puts the entries of one list in front of those of another. -/
theorem listSpliceBehind_lists (hrep : Represents heap A) (hm : A k = some m) (hA : A h = some l)
    (hne : k ≠ h) (hnil : m ≠ []) :
    ∃ heap', listSpliceBehind heap (.addr k) (.addr h) = some heap' ∧
      Becomes heap (Function.update (Function.update A k none) h (some (m ++ l))) heap' := by
  have hk := hrep.ring hm
  have hh := hrep.ring hA
  have hhead := live_of_ring hh List.mem_cons_self
  obtain ⟨heap₁, hrun₁, hlinks₁, hlive₁⟩ := join_run hhead (live_of_ring hk (headD_mem k m))
  obtain ⟨heap₂, hrun₂, hlinks₂, hlive₂⟩ :=
    join_run' ((hlive₁ _).trans (live_of_ring hk (getLastD_mem_cons k m)))
      ((hlive₁ _).trans (live_of_ring hh (headD_mem h l)))
  have hheap : Rewired heap (((links heap).join h (m.headD k)).join (m.getLastD k) (l.headD h))
      heap₂ := by
    refine ⟨?_, fun a => (hlive₂ a).trans (hlive₁ a)⟩
    rw [hlinks₂, hlinks₁]
  refine ⟨heap₂, ?_, hrep.splice hm hA hne hnil hheap, hheap.live⟩
  obtain ⟨heap₀, hprev, hnext⟩ := Option.bind_eq_some_iff.1 hrun₁
  simp only [listSpliceBehind, load, Ptr.cell, Option.bind_some, head_cell hk, head_cell hh,
    Option.bind_eq_bind, hprev, hnext]
  exact hrun₂

/-! ## Runs -/

/-- A call of a function of `list.h` with its arguments. -/
inductive Op (κ : Type) where
  | INIT_LIST_HEAD (ptr : κ)
  | list_add (new head : κ)
  | list_add_tail (new head : κ)
  | list_del (entry : κ)
  | list_del_init (entry : κ)
  | list_move (list head : κ)
  | list_move_tail (list head : κ)
  | list_splice (list head : κ)
  | list_splice_init (list head : κ)
  deriving DecidableEq, Repr

/-- What the call does to the heap; none if it follows a pointer that leads nowhere. -/
def Op.run (heap : Heap κ) : Op κ → Option (Heap κ)
  | .INIT_LIST_HEAD ptr => KernelList.INIT_LIST_HEAD heap (.addr ptr)
  | .list_add new head => KernelList.list_add heap (.addr new) (.addr head)
  | .list_add_tail new head => KernelList.list_add_tail heap (.addr new) (.addr head)
  | .list_del entry => KernelList.list_del heap (.addr entry)
  | .list_del_init entry => KernelList.list_del_init heap (.addr entry)
  | .list_move list head => KernelList.list_move heap (.addr list) (.addr head)
  | .list_move_tail list head => KernelList.list_move_tail heap (.addr list) (.addr head)
  | .list_splice list head => KernelList.list_splice heap (.addr list) (.addr head)
  | .list_splice_init list head => KernelList.list_splice_init heap (.addr list) (.addr head)

/-- The call is the event. -/
def step (heap : Heap κ) (op : Op κ) : Option (Op κ × Heap κ) :=
  (op.run heap).map fun heap' => (op, heap')

/-- What the calls that respect the rules do to the lists; `live` are the allocated cells. -/
inductive Does (live : κ → Prop) (A : Lists κ) : Op κ → Lists κ → Prop
  /-- a cell that is in no list -/
  | init {a : κ} (ha : live a) (hout : ∀ k m, A k = some m → a ∉ m) :
      Does live A (.INIT_LIST_HEAD a) (Function.update A a (some []))
  | add {x h : κ} {l : List κ} (hx : live x) (hfree : A.Free x) (hA : A h = some l) :
      Does live A (.list_add x h) (Function.update A h (some (x :: l)))
  | addTail {x h : κ} {l : List κ} (hx : live x) (hfree : A.Free x) (hA : A h = some l) :
      Does live A (.list_add_tail x h) (Function.update A h (some (l ++ [x])))
  | del {x k : κ} {m : List κ} (hk : A k = some m) (hx : x ∈ m) :
      Does live A (.list_del x) (A.unlink x)
  | delInit {x k : κ} {m : List κ} (hk : A k = some m) (hx : x ∈ m) :
      Does live A (.list_del_init x) (Function.update (A.unlink x) x (some []))
  /-- from the list of the cell to another one or to its own -/
  | move {x k h : κ} {m l : List κ} (hk : A k = some m) (hx : x ∈ m) (hA : A.unlink x h = some l) :
      Does live A (.list_move x h) (Function.update (A.unlink x) h (some (x :: l)))
  | moveTail {x k h : κ} {m l : List κ} (hk : A k = some m) (hx : x ∈ m)
      (hA : A.unlink x h = some l) :
      Does live A (.list_move_tail x h) (Function.update (A.unlink x) h (some (l ++ [x])))
  | spliceEmpty {k h : κ} (hk : A k = some []) : Does live A (.list_splice k h) A
  /-- the head `k` heads no list afterwards -/
  | splice {k h : κ} {m l : List κ} (hk : A k = some m) (hA : A h = some l) (hne : k ≠ h)
      (hnil : m ≠ []) :
      Does live A (.list_splice k h)
        (Function.update (Function.update A k none) h (some (m ++ l)))
  | spliceInitEmpty {k h : κ} (hk : A k = some []) : Does live A (.list_splice_init k h) A
  | spliceInit {k h : κ} {m l : List κ} (hk : A k = some m) (hA : A h = some l) (hne : k ≠ h)
      (hnil : m ≠ []) :
      Does live A (.list_splice_init k h)
        (Function.update (Function.update (Function.update A k none) h (some (m ++ l))) k (some []))

/-- A call that respects the rules meets no fault and does what it should. -/
theorem run_of_does {live : κ → Prop} {op : Op κ} {A' : Lists κ} (hrep : Represents heap A)
    (hlive : ∀ a, live a → (heap a).isSome = true) (hdoes : Does live A op A') :
    ∃ heap', op.run heap = some heap' ∧ Becomes heap A' heap' := by
  cases hdoes with
  | init ha hout => exact INIT_LIST_HEAD_lists hrep (hlive _ ha) hout
  | add hx hfree hA => exact list_add_lists hrep hA hfree (hlive _ hx)
  | addTail hx hfree hA => exact list_add_tail_lists hrep hA hfree (hlive _ hx)
  | del hk hx => exact list_del_lists hrep hk hx
  | delInit hk hx => exact list_del_init_lists hrep hk hx
  | move hk hx hA => exact list_move_lists hrep hk hx hA
  | moveTail hk hx hA => exact list_move_tail_lists hrep hk hx hA
  | spliceEmpty hk =>
    refine ⟨heap, ?_, hrep, fun _ => rfl⟩
    simp [Op.run, list_splice, list_empty_ring (hrep.ring hk)]
  | splice hk hA hne hnil =>
    obtain ⟨heap', hrun, hheap⟩ := listSpliceBehind_lists hrep hk hA hne hnil
    refine ⟨heap', ?_, hheap⟩
    simp [Op.run, list_splice, list_empty_ring (hrep.ring hk), hnil, hrun]
  | spliceInitEmpty hk =>
    refine ⟨heap, ?_, hrep, fun _ => rfl⟩
    simp [Op.run, list_splice_init, list_empty_ring (hrep.ring hk)]
  | @spliceInit k h m l hk hA hne hnil =>
    obtain ⟨heap₁, hrun₁, hrep₁, hlive₁⟩ := listSpliceBehind_lists hrep hk hA hne hnil
    -- after the splice the emptied head is in no list, so it can begin anew
    have hout : ∀ j n, Function.update (Function.update A k none) h (some (m ++ l)) j = some n →
        k ∉ n := by
      intro j n hj hmem
      rcases splice_eq_some hj with ⟨rfl, rfl⟩ | ⟨-, -, hj⟩
      · rcases List.mem_append.1 hmem with hmem | hmem
        · exact hrep.head_notMem hk hk hmem
        · exact hrep.head_notMem hk hA hmem
      · exact hrep.head_notMem hk hj hmem
    obtain ⟨heap₂, hrun₂, hrep₂, hlive₂⟩ := INIT_LIST_HEAD_lists hrep₁
      ((hlive₁ k).trans (live_of_ring (hrep.ring hk) List.mem_cons_self)) hout
    refine ⟨heap₂, ?_, hrep₂, fun a => (hlive₂ a).trans (hlive₁ a)⟩
    simp [Op.run, list_splice_init, list_empty_ring (hrep.ring hk), hnil, hrun₁, hrun₂]

/-- What the heap shows of its lists: the test for emptiness, the first and the last entry, and the
walk from the head. -/
structure Shows (heap : Heap κ) (A : Lists κ) : Prop where
  empty : ∀ h l, A h = some l → list_empty heap (.addr h) = some (decide (l = []))
  ends : ∀ h l, A h = some l → heap h = some ⟨.addr (l.headD h), .addr (l.getLastD h)⟩
  walk : ∀ h l fuel, A h = some l → l.length < fuel → list_for_each heap fuel (.addr h) = some l

/-- The functions that read a heap show the lists that it has. -/
theorem Represents.shows (hrep : Represents heap A) : Shows heap A where
  empty _ _ hA := list_empty_ring (hrep.ring hA)
  ends _ _ hA := head_cell (hrep.ring hA)
  walk _ _ _ hA hfuel := list_for_each_ring (hrep.ring hA) hfuel

/-- Every sequence of calls that respects the rules goes through without a fault, whatever lists the
heap began with; it allocates and frees nothing, and the heap shows what the calls should have done
to the lists. -/
theorem lists_kept {heap₀ : Heap κ} {A₀ : Lists κ} {τ : List (Op κ)} (hrep : Represents heap₀ A₀)
    (hrun : Run (Does fun a => (heap₀ a).isSome = true) A₀ τ A) :
    ∃ heap, Run (StepBy step) heap₀ τ heap ∧ (∀ a, (heap a).isSome = (heap₀ a).isSome) ∧
      Shows heap A := by
  have hkeeps : ∃ heap, Run (StepBy step) heap₀ τ heap ∧ Becomes heap₀ A heap := by
    refine hrun.invariant (fun τ A => ∃ heap, Run (StepBy step) heap₀ τ heap ∧
      Becomes heap₀ A heap) ⟨heap₀, .start, hrep, fun _ => rfl⟩ ?_
    rintro τ A op A' - ⟨heap, hτ, hlists, hlive⟩ hdoes
    obtain ⟨heap', hop, hlists', hlive'⟩ :=
      run_of_does hlists (fun a ha => (hlive a).trans ha) hdoes
    have hstep : StepBy step heap op heap' := ⟨op, by simp [step, hop]⟩
    exact ⟨heap', .step hτ hstep, hlists', fun a => (hlive' a).trans (hlive a)⟩
  obtain ⟨heap, hτ, hlists, hlive⟩ := hkeeps
  exact ⟨heap, hτ, hlive, hlists.shows⟩

/-- A heap of cells that nobody has initialised. -/
def zeroed : Heap Nat := fun _ => some ⟨.NULL, .NULL⟩

theorem isSome_zeroed (a : Nat) : (zeroed a).isSome = true := rfl

theorem represents_nothing : Represents zeroed fun _ => none where
  ring h := by cases h
  apart h := by cases h

/-- With the one list `l` at the head 0, another cell is free. -/
theorem free_of_one {A : Lists Nat} {l : List Nat} {x : Nat} (hA : ∀ k, k ≠ 0 → A k = none)
    (h0 : A 0 = some l) (hx : x ∉ 0 :: l) : A.Free x := by
  intro k m hk
  by_cases hk0 : k = 0
  · subst hk0
    obtain rfl : l = m := Option.some.inj (h0.symm.trans hk)
    exact hx
  · rw [hA k hk0] at hk
    cases hk

/-- The second of two entries is moved to the front. -/
theorem lists_kept_move : ∃ heap, Run (StepBy step) zeroed
    [.list_move 2 0, .list_add_tail 2 0, .list_add 1 0, .INIT_LIST_HEAD 0] heap ∧
      list_for_each heap 3 (.addr 0) = some [2, 1] := by
  let A₁ : Lists Nat := Function.update (fun _ => none) 0 (some [])
  let A₂ : Lists Nat := Function.update A₁ 0 (some [1])
  let A₃ : Lists Nat := Function.update A₂ 0 (some [1, 2])
  have h₁ : Run (Does fun a => (zeroed a).isSome = true) (fun _ => none) [.INIT_LIST_HEAD 0] A₁ :=
    .step .start (.init (isSome_zeroed 0) fun k m hk => by cases hk)
  have hfree₁ : A₁.Free 1 :=
    free_of_one (fun k hk => by simp [A₁, hk]) (Function.update_self _ _ _) (by decide)
  have hfree₂ : A₂.Free 2 :=
    free_of_one (fun k hk => by simp [A₂, A₁, hk]) (Function.update_self _ _ _) (by decide)
  have h₂ : Run (Does fun a => (zeroed a).isSome = true) (fun _ => none)
      [.list_add 1 0, .INIT_LIST_HEAD 0] A₂ :=
    h₁.step (.add (x := 1) (h := 0) (isSome_zeroed 1) hfree₁ (Function.update_self _ _ _))
  have h₃ : Run (Does fun a => (zeroed a).isSome = true) (fun _ => none)
      [.list_add_tail 2 0, .list_add 1 0, .INIT_LIST_HEAD 0] A₃ :=
    h₂.step (.addTail (x := 2) (h := 0) (isSome_zeroed 2) hfree₂ (Function.update_self _ _ _))
  have hmove : (A₃.unlink 2) 0 = some [1] := by simp [A₃, Lists.unlink]
  obtain ⟨heap, hτ, -, hshows⟩ := lists_kept represents_nothing
    (h₃.step (.move (k := 0) (m := [1, 2]) (Function.update_self _ _ _) (by decide) hmove))
  exact ⟨heap, hτ, hshows.walk 0 [2, 1] 3 (Function.update_self _ _ _) (by decide)⟩

end EE516.KernelList
