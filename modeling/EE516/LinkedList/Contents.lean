import EE516.LinkedList.Driver

/-!
# The contents of the list

The driver keeps a list of nodes (`Holds`): the chain from `head` passes exactly `size` nodes, no
other memory is in use, and all values are digits. Each call does to the list what its caller
expects (`Serves`), in every state that a sequence of calls can reach.
-/

set_option autoImplicit false

namespace EE516.LinkedList

open EE516.Foundations

/-- The nodes of the list, with their values. -/
abbrev Nodes := List (Addr × Int)

/-- The driver's list has the nodes `l`. -/
structure Holds (s : State) (l : Nodes) : Prop where
  chain : Chain s.heap s.head l none
  size : s.size = l.length
  digits : ∀ c ∈ l, 0 ≤ c.2 ∧ c.2 ≤ 9
  owned : ∀ a, s.heap a ≠ none → a ∈ l.map Prod.fst

variable {s s' : State} {l l₁ l₂ : Nodes} {heap : Cells Addr Int} {p q : Ptr} {a addr : Addr}
  {v x : Int}

theorem holds_start : Holds start [] where
  chain := rfl
  size := rfl
  digits _ hc := absurd hc List.not_mem_nil
  owned _ ha := absurd rfl ha

/-- The list is empty exactly if its size is 0. -/
theorem Holds.head_eq_none (h : Holds s l) : s.head = none ↔ s.size = 0 := by
  rw [h.size, List.length_eq_zero_iff]
  constructor
  · intro hhead
    have hchain := h.chain
    rw [hhead] at hchain
    have hnil : Chain s.heap none [] none := rfl
    exact hchain.unique hnil
  · intro hl
    have hchain := h.chain
    rw [hl] at hchain
    exact hchain

/-! ## Loops -/

theorem moveAhead_of_chain (h : Chain heap p l q) : moveAhead heap l.length p = some q := by
  induction l generalizing p with
  | nil => exact congrArg some h
  | cons c l ih =>
    obtain ⟨rfl, n, hc, hrest⟩ := h
    simp only [List.length_cons, moveAhead, load, Option.bind_some, hc, Option.bind_eq_bind]
    exact ih hrest

/-- The search ends at the node before the first node with the value. -/
theorem search_found {b : Addr} (h : Chain heap p ((a, x) :: (l₁ ++ (b, v) :: l₂)) none)
    (hnone : ∀ c ∈ l₁, c.2 ≠ v) :
    ∃ l₀ a' x', (a, x) :: l₁ = l₀ ++ [(a', x')] ∧
      search heap v (l₁ ++ (b, v) :: l₂).length p = some (some a', true) := by
  induction l₁ generalizing p a x with
  | nil =>
    obtain ⟨rfl, n, ha, rfl, m, hb, -⟩ := h
    refine ⟨[], a, x, rfl, ?_⟩
    simp [search, load, ha, hb]
  | cons c l₁ ih =>
    obtain ⟨rfl, n, ha, hrest⟩ := h
    obtain ⟨l₀, a', x', hlast, hsearch⟩ := ih hrest fun d hd =>
      hnone d (List.mem_cons_of_mem c hd)
    obtain ⟨rfl, m, hc, -⟩ := hrest
    refine ⟨(a, x) :: l₀, a', x', by rw [hlast]; rfl, ?_⟩
    simp only [List.cons_append, List.length_cons, search, load, Option.bind_some, ha, hc,
      Option.bind_eq_bind, if_neg (hnone c List.mem_cons_self)]
    exact hsearch

/-- A search for a value that no later node has ends at the last one. -/
theorem search_missed (h : Chain heap p ((a, x) :: l) none) (hnone : ∀ c ∈ l, c.2 ≠ v) :
    ∃ cur, search heap v l.length p = some (cur, false) := by
  induction l generalizing p a x with
  | nil => exact ⟨p, rfl⟩
  | cons c l ih =>
    obtain ⟨rfl, n, ha, hrest⟩ := h
    obtain ⟨cur, hsearch⟩ := ih hrest fun d hd => hnone d (List.mem_cons_of_mem c hd)
    obtain ⟨rfl, m, hc, -⟩ := hrest
    refine ⟨cur, ?_⟩
    simp only [List.length_cons, search, load, Option.bind_some, ha, hc, Option.bind_eq_bind,
      if_neg (hnone c List.mem_cons_self)]
    exact hsearch

/-- The loop of `releaseSll` frees the nodes of the chain and no others. -/
theorem releaseNodes_of_chain (h : Chain heap p l none) :
    ∃ heap', releaseNodes l.length heap p = some heap' ∧
      ∀ c, heap' c = if c ∈ l.map Prod.fst then none else heap c := by
  induction l generalizing p heap with
  | nil => exact ⟨heap, rfl, fun c => rfl⟩
  | cons d l ih =>
    have hne := h.ne_head
    obtain ⟨rfl, n, hd, hrest⟩ := h
    have hfreed : Chain (Function.update heap d.1 none) n l none :=
      hrest.frame fun c hc => Function.update_of_ne (hne c hc) _ _
    obtain ⟨heap', hrelease, hheap'⟩ := ih hfreed
    refine ⟨heap', ?_, fun c => ?_⟩
    · simp only [List.length_cons, releaseNodes, load, kfree, Option.bind_some, hd,
        Option.bind_eq_bind]
      exact hrelease
    · rw [hheap' c, List.map_cons]
      by_cases hcd : c = d.1
      · subst hcd
        simp
      · rw [Function.update_of_ne hcd]
        simp only [List.mem_cons, hcd, false_or]

/-! ## The functions of the list -/

theorem digits_insert (h : ∀ c ∈ l₁ ++ l₂, 0 ≤ c.2 ∧ c.2 ≤ 9) (hv : 0 ≤ v ∧ v ≤ 9) :
    ∀ c ∈ l₁ ++ (addr, v) :: l₂, 0 ≤ c.2 ∧ c.2 ≤ 9 := by
  intro c hc
  rcases List.mem_append.1 hc with hc | hc
  · exact h c (List.mem_append_left _ hc)
  · rcases List.mem_cons.1 hc with rfl | hc
    · exact hv
    · exact h c (List.mem_append_right _ hc)

/-- A new node stands behind the node `a`. -/
theorem Holds.insert {n : Ptr} (h : Holds s (l₁ ++ (a, x) :: l₂)) (ha : s.heap a = some ⟨n, x⟩)
    (haddr : s.heap addr = none) (hv : 0 ≤ v ∧ v ≤ 9) (ha' : heap a = some ⟨some addr, x⟩)
    (haddr' : heap addr = some ⟨n, v⟩) (hsame : ∀ b, b ≠ a → b ≠ addr → heap b = s.heap b) :
    Holds ⟨s.head, s.size + 1, heap⟩ (l₁ ++ (a, x) :: (addr, v) :: l₂) := by
  constructor
  · exact h.chain.insert ha haddr ha' haddr' hsame
  · rw [h.size]
    simp only [List.length_append, List.length_cons]
    omega
  · have hdigits := h.digits
    rw [List.append_cons] at hdigits ⊢
    exact digits_insert hdigits hv
  · intro b hb
    simp only [List.map_append, List.map_cons, List.mem_append, List.mem_cons]
    by_cases hba : b = a
    · exact .inr (.inl hba)
    · by_cases hbaddr : b = addr
      · exact .inr (.inr (.inl hbaddr))
      · have hmem := h.owned b (hsame b hba hbaddr ▸ hb)
        simp only [List.map_append, List.map_cons, List.mem_append, List.mem_cons] at hmem
        tauto

/-- The node behind the node `a` is gone. -/
theorem Holds.unlink {b : Addr} {n : Ptr} (h : Holds s (l₁ ++ (a, x) :: (b, v) :: l₂))
    (hb : s.heap b = some ⟨n, v⟩) (ha' : heap a = some ⟨n, x⟩) (hb' : heap b = none)
    (hsame : ∀ c, c ≠ a → c ≠ b → heap c = s.heap c) :
    Holds ⟨s.head, s.size - 1, heap⟩ (l₁ ++ (a, x) :: l₂) := by
  constructor
  · exact h.chain.unlink hb ha' hsame
  · rw [h.size]
    simp only [List.length_append, List.length_cons]
    omega
  · intro c hc
    refine h.digits c ?_
    simp only [List.mem_append, List.mem_cons] at hc ⊢
    tauto
  · intro c hc
    have hcb : c ≠ b := by
      rintro rfl
      exact hc hb'
    simp only [List.map_append, List.map_cons, List.mem_append, List.mem_cons]
    by_cases hca : c = a
    · exact .inr (.inl hca)
    · have hmem := h.owned c (hsame c hca hcb ▸ hc)
      simp only [List.map_append, List.map_cons, List.mem_append, List.mem_cons] at hmem
      tauto

/-- The first node is gone. -/
theorem Holds.behead {n : Ptr} (h : Holds s ((a, x) :: l)) (ha : s.heap a = some ⟨n, x⟩) :
    Holds ⟨n, s.size - 1, Function.update s.heap a none⟩ l := by
  have hne := h.chain.ne_head
  obtain ⟨-, m, hm, hrest⟩ := h.chain
  obtain rfl : n = m := (Cell.mk.inj (Option.some.inj (ha.symm.trans hm))).1
  constructor
  · exact hrest.frame fun c hc => Function.update_of_ne (hne c hc) _ _
  · rw [h.size]
    rfl
  · intro c hc
    exact h.digits c (List.mem_cons_of_mem _ hc)
  · intro c hc
    have hca : c ≠ a := by
      rintro rfl
      exact hc (Function.update_self ..)
    have hmem := h.owned c (by simpa only [Function.update_of_ne hca] using hc)
    rw [List.map_cons] at hmem
    exact (List.mem_cons.1 hmem).resolve_left hca

/-- A list has an element at each place before its end. -/
theorem exists_split_at {n : Nat} (h : n < l.length) :
    ∃ l₁ c l₂, l = l₁ ++ c :: l₂ ∧ l₁.length = n :=
  ⟨l.take n, l[n], l.drop (n + 1), by rw [List.getElem_cons_drop, List.take_append_drop],
    List.length_take_of_le (Nat.le_of_lt h)⟩

theorem size_succ (h : s.size + 1 < 2 ^ 31) : (s.size + 1) % UINT_RANGE = s.size + 1 :=
  Nat.mod_eq_of_lt (Nat.lt_trans h (by decide))

theorem size_pred (hpos : 0 < s.size) (h : s.size < 2 ^ 31) :
    (s.size + UINT_RANGE - 1) % UINT_RANGE = s.size - 1 := by
  have hrange : s.size + UINT_RANGE - 1 = s.size - 1 + UINT_RANGE := by omega
  rw [hrange, Nat.add_mod_right]
  exact Nat.mod_eq_of_lt (Nat.lt_of_le_of_lt (Nat.sub_le _ _) (Nat.lt_trans h (by decide)))

/-- The first node becomes the list. -/
theorem Holds.alloc_nil (h : Holds s []) (hv : 0 ≤ v ∧ v ≤ 9) (haddr : s.heap addr = none)
    (random : UInt32) :
    ∃ s', allocLinkedListRandomly s v random addr = some s' ∧ Holds s' [(addr, v)] := by
  have hhead : s.head = none := h.chain
  have halloc : allocLinkedListRandomly s v random addr =
      some ⟨some addr, 1, Function.update s.heap addr (some ⟨none, v⟩)⟩ := by
    simp [allocLinkedListRandomly, hhead, kzalloc, haddr, store, h.size, UINT_RANGE]
  refine ⟨_, halloc, ⟨rfl, none, Function.update_self .., rfl⟩, rfl, ?_, ?_⟩
  · intro c hc
    obtain rfl := List.mem_singleton.1 hc
    exact hv
  · intro b hb
    by_cases hbaddr : b = addr
    · exact List.mem_singleton.2 hbaddr
    · refine absurd (h.owned b ?_) List.not_mem_nil
      simpa only [Function.update_of_ne hbaddr] using hb

/-- A new node is linked in somewhere. -/
theorem Holds.alloc (h : Holds s l) (hv : 0 ≤ v ∧ v ≤ 9) (haddr : s.heap addr = none)
    (hfew : s.size + 1 < 2 ^ 31) (random : UInt32) :
    ∃ s' l₁ l₂, allocLinkedListRandomly s v random addr = some s' ∧ l = l₁ ++ l₂ ∧
      Holds s' (l₁ ++ (addr, v) :: l₂) := by
  by_cases hl : l = []
  · subst hl
    obtain ⟨s', halloc, h'⟩ := h.alloc_nil hv haddr random
    exact ⟨s', [], [], halloc, rfl, h'⟩
  have hpos : 0 < s.size := h.size ▸ List.length_pos_of_ne_nil hl
  -- the new node comes behind the node at `pos`
  have hlt : random.toNat % s.size < l.length := by
    rw [← h.size]
    exact Nat.mod_lt _ hpos
  obtain ⟨l₁, ⟨a, x⟩, l₂, rfl, hl₁⟩ := exists_split_at hlt
  obtain ⟨n, ha, hbefore, -⟩ := h.chain.split
  have hmove := moveAhead_of_chain hbefore
  rw [hl₁] at hmove
  obtain ⟨head, hhead⟩ : ∃ head, s.head = some head := by
    refine Option.ne_none_iff_exists'.1 fun hnone => ?_
    have hzero := h.head_eq_none.1 hnone
    omega
  have hne : a ≠ addr := by
    rintro rfl
    rw [haddr] at ha
    cases ha
  let heap := Function.update (Function.update s.heap a (some ⟨some addr, x⟩)) addr (some ⟨n, v⟩)
  have halloc : allocLinkedListRandomly s v random addr = some ⟨s.head, s.size + 1, heap⟩ := by
    rw [hhead] at hmove
    simp only [allocLinkedListRandomly, hhead, modulo, if_neg (Nat.ne_of_gt hpos),
      Option.bind_eq_bind, Option.bind_some, hmove, load, ha, kzalloc, haddr, store,
      Function.update_of_ne hne, Function.update_self, Function.update_of_ne hne.symm,
      size_succ hfew, Option.some.injEq, State.mk.injEq, true_and, heap]
    funext b
    by_cases hb : b = addr
    · subst hb
      simp
    · by_cases hba : b = a <;> simp [hb, hba, hne]
  refine ⟨_, l₁ ++ [(a, x)], l₂, halloc, by rw [List.append_assoc]; rfl, ?_⟩
  rw [List.append_assoc]
  refine h.insert ha haddr hv ?_ (Function.update_self ..) fun b hba hbaddr => ?_
  · simp only [heap, Function.update_of_ne hne, Function.update_self]
  · simp only [heap, Function.update_of_ne hba, Function.update_of_ne hbaddr]

/-- The first node with the value is deleted. -/
theorem Holds.delete {b : Addr} (h : Holds s (l₁ ++ (b, v) :: l₂)) (hnone : ∀ c ∈ l₁, c.2 ≠ v)
    (hfew : s.size < 2 ^ 31) :
    ∃ s', getFirstMatchedSllNodeWithDeleteOperation s v = some (v, s') ∧ Holds s' (l₁ ++ l₂) := by
  have hsize := h.size
  rw [List.length_append, List.length_cons] at hsize
  have hpred := size_pred (by omega) hfew
  cases l₁ with
  | nil =>
    -- the head has the value
    have hhead : s.head = some b := h.chain.1
    obtain ⟨n, hb, -, -⟩ := h.chain.split
    refine ⟨_, ?_, h.behead hb⟩
    simp only [getFirstMatchedSllNodeWithDeleteOperation, if_pos (show 0 < s.size by omega), load,
      hhead, Option.bind_some, hb, Option.bind_eq_bind, if_true, kfree, hpred]
  | cons c l₁ =>
    obtain ⟨a₀, x₀⟩ := c
    obtain ⟨hhead, n₀, ha₀, -⟩ := h.chain
    -- the search ends at the node before the first one with the value
    obtain ⟨l₀, a, x, hlast, hsearch⟩ := search_found h.chain fun d hd =>
      hnone d (List.mem_cons_of_mem _ hd)
    have hbound : s.size - 1 = (l₁ ++ (b, v) :: l₂).length := by
      rw [List.length_append, List.length_cons]
      rw [List.length_cons] at hsize
      omega
    have hsplit : (a₀, x₀) :: l₁ ++ (b, v) :: l₂ = l₀ ++ (a, x) :: (b, v) :: l₂ := by
      rw [hlast, List.append_assoc]
      rfl
    have h₀ := h
    rw [hsplit] at h₀
    obtain ⟨m, ha, -, rfl, n, hb, -⟩ := h₀.chain.split
    have hba : b ≠ a := h₀.chain.ne_of_split (c := (b, v)) (.inr List.mem_cons_self)
    refine ⟨⟨s.head, s.size - 1,
      Function.update (Function.update s.heap a (some ⟨n, x⟩)) b none⟩, ?_, ?_⟩
    · rw [← hbound] at hsearch
      rw [hhead] at hsearch
      simp only [getFirstMatchedSllNodeWithDeleteOperation, if_pos (show 0 < s.size by omega),
        load, hhead, Option.bind_some, ha₀, Option.bind_eq_bind, hpred,
        if_neg (show x₀ ≠ v from hnone (a₀, x₀) List.mem_cons_self), hsearch, if_true, ha, hb,
        store, kfree, Function.update_of_ne hba]
    · rw [hlast, List.append_assoc]
      refine h₀.unlink hb ?_ (Function.update_self ..) fun c hca hcb => ?_
      · simp only [Function.update_of_ne hba.symm, Function.update_self]
      · simp only [Function.update_of_ne hca, Function.update_of_ne hcb]

/-- A value that no node has is not found, and nothing changes. -/
theorem Holds.keep (h : Holds s l) (hnone : ∀ c ∈ l, c.2 ≠ v) (hfew : s.size < 2 ^ 31) :
    getFirstMatchedSllNodeWithDeleteOperation s v = some (-1, s) := by
  have hsize := h.size
  cases l with
  | nil =>
    rw [List.length_nil] at hsize
    rw [getFirstMatchedSllNodeWithDeleteOperation, if_neg (by omega)]
  | cons c l =>
    obtain ⟨a, x⟩ := c
    rw [List.length_cons] at hsize
    obtain ⟨hhead, n, ha, -⟩ := h.chain
    obtain ⟨cur, hsearch⟩ := search_missed h.chain fun d hd => hnone d (List.mem_cons_of_mem _ hd)
    rw [show l.length = s.size - 1 by omega, hhead] at hsearch
    have hpred := size_pred (by omega) hfew
    simp only [getFirstMatchedSllNodeWithDeleteOperation, if_pos (show 0 < s.size by omega), load,
      hhead, Option.bind_some, ha, Option.bind_eq_bind, hpred,
      if_neg (show x ≠ v from hnone (a, x) List.mem_cons_self), hsearch, Bool.false_eq_true,
      if_false]

/-- All nodes are freed. -/
theorem Holds.release (h : Holds s l) : releaseSll s = some start := by
  obtain ⟨heap', hrelease, hheap'⟩ := releaseNodes_of_chain h.chain
  have hempty : heap' = fun _ => none := by
    funext c
    rw [hheap' c]
    split
    · rfl
    · rename_i hc
      by_contra hsome
      exact hc (h.owned c hsome)
  rw [releaseSll, h.size, hrelease, hempty]
  rfl

/-! ## Calls -/

/-- For a write of a digit, `kzalloc` returns a cell that is not in use, and the list stays shorter
than 2^31 nodes. -/
def Call.Ready (s : State) : Call → Prop
  | .write buffer0 length _ addr =>
    0 < length ∧ 0 ≤ buffer0.toInt ∧ buffer0.toInt ≤ 9 → s.heap addr = none ∧ s.size + 1 < 2 ^ 31
  | _ => True

/-- What a call does to the list: its reply, the state and the nodes after it. -/
inductive Serves (s : State) : Nodes → Call → Reply → State → Nodes → Prop
  | wrote {l₁ l₂ : Nodes} {buffer0 : Int8} {length : Nat} {random : UInt32} {addr : Addr}
      {s' : State} :
      0 < length → 0 ≤ buffer0.toInt → buffer0.toInt ≤ 9 →
        Serves s (l₁ ++ l₂) (.write buffer0 length random addr) ⟨1, none⟩ s'
          (l₁ ++ (addr, buffer0.toInt) :: l₂)
  | refused {l : Nodes} {buffer0 : Int8} {length : Nat} {random : UInt32} {addr : Addr} :
      ¬ (0 < length ∧ 0 ≤ buffer0.toInt ∧ buffer0.toInt ≤ 9) →
        Serves s l (.write buffer0 length random addr) ⟨-1, none⟩ s l
  | deleted {l₁ l₂ : Nodes} {a : Addr} {buffer0 : Int8} {length : Nat} {s' : State} :
      1 < length → (∀ c ∈ l₁, c.2 ≠ buffer0.toInt) →
        Serves s (l₁ ++ (a, buffer0.toInt) :: l₂) (.read buffer0 length)
          ⟨buffer0.toInt, some buffer0⟩ s' (l₁ ++ l₂)
  | missed {l : Nodes} {buffer0 : Int8} {length : Nat} :
      1 < length → (∀ c ∈ l, c.2 ≠ buffer0.toInt) →
        Serves s l (.read buffer0 length) ⟨-1, some (-1)⟩ s l
  | short {l : Nodes} {buffer0 : Int8} {length : Nat} :
      length ≤ 1 → Serves s l (.read buffer0 length) ⟨-1, none⟩ s l
  | released {l : Nodes} : Serves s l .release ⟨0, none⟩ start []

/-- A list has a first element with a value, or no element with it. -/
theorem first_or_none (l : Nodes) (v : Int) :
    (∀ c ∈ l, c.2 ≠ v) ∨ ∃ l₁ a l₂, l = l₁ ++ (a, v) :: l₂ ∧ ∀ c ∈ l₁, c.2 ≠ v := by
  induction l with
  | nil => exact .inl fun c hc => absurd hc List.not_mem_nil
  | cons c l ih =>
    by_cases hc : c.2 = v
    · exact .inr ⟨[], c.1, l, by rw [← hc]; rfl, fun d hd => absurd hd List.not_mem_nil⟩
    · rcases ih with hnone | ⟨l₁, a, l₂, rfl, hnone⟩
      · refine .inl fun d hd => ?_
        rcases List.mem_cons.1 hd with rfl | hd
        · exact hc
        · exact hnone d hd
      · refine .inr ⟨c :: l₁, a, l₂, rfl, fun d hd => ?_⟩
        rcases List.mem_cons.1 hd with rfl | hd
        · exact hc
        · exact hnone d hd

/-- Every call is served, without a fault. -/
theorem Holds.serves (h : Holds s l) (hfew : s.size < 2 ^ 31) {c : Call} (hready : c.Ready s) :
    ∃ r s' l', c.run s = some (r, s') ∧ Holds s' l' ∧ Serves s l c r s' l' := by
  cases c with
  | read buffer0 length =>
    by_cases hlength : 1 < length
    · rcases first_or_none l buffer0.toInt with hnone | ⟨l₁, a, l₂, rfl, hnone⟩
      · refine ⟨_, s, l, ?_, h, .missed hlength hnone⟩
        rw [Call.run, dummy_read, if_pos hlength, h.keep hnone hfew]
        rfl
      · obtain ⟨s', hdelete, h'⟩ := h.delete hnone hfew
        refine ⟨_, s', l₁ ++ l₂, ?_, h', .deleted hlength hnone⟩
        rw [Call.run, dummy_read, if_pos hlength, hdelete]
        simp only [Option.bind_eq_bind, Option.bind_some, Int8.ofInt_toInt]
    · refine ⟨_, s, l, ?_, h, .short (Nat.le_of_not_lt hlength)⟩
      rw [Call.run, dummy_read, if_neg hlength]
  | write buffer0 length random addr =>
    by_cases haccepted : 0 < length ∧ 0 ≤ buffer0.toInt ∧ buffer0.toInt ≤ 9
    · obtain ⟨haddr, hroom⟩ := hready haccepted
      obtain ⟨s', l₁, l₂, halloc, rfl, h'⟩ := h.alloc haccepted.2 haddr hroom random
      refine ⟨_, s', _, ?_, h', .wrote haccepted.1 haccepted.2.1 haccepted.2.2⟩
      rw [Call.run, dummy_write, if_pos haccepted.1, if_pos haccepted.2, halloc]
      rfl
    · refine ⟨_, s, l, ?_, h, .refused haccepted⟩
      rw [Call.run, dummy_write]
      by_cases hlength : 0 < length
      · rw [if_pos hlength, if_neg fun hdigit => haccepted ⟨hlength, hdigit⟩]
      · rw [if_neg hlength]
  | release =>
    refine ⟨_, start, [], ?_, holds_start, .released⟩
    rw [Call.run, dummy_release, h.release]
    rfl

/-! ## Runs -/

/-- The events since the last release, newest first. -/
def sinceRelease : List Event → List Event
  | [] => []
  | e :: τ => if e.call = .release then [] else e :: sinceRelease τ

/-- The event is an accepted write of the value. -/
def Event.wrote (v : Int) (e : Event) : Bool :=
  match e.call with
  | .write buffer0 _ _ _ => buffer0.toInt = v ∧ e.reply.ret = 1
  | _ => false

/-- The event is a successful read of the value. -/
def Event.took (v : Int) (e : Event) : Bool :=
  match e.call with
  | .read buffer0 _ => buffer0.toInt = v ∧ e.reply.ret = v
  | _ => false

/-- The nodes with the value are the writes of it less the reads of it. -/
def Balanced (τ : List Event) (l : Nodes) : Prop :=
  ∀ v, 0 ≤ v → v ≤ 9 →
    (l.map Prod.snd).count v + (sinceRelease τ).countP (Event.took v) =
      (sinceRelease τ).countP (Event.wrote v)

/-- Every call that is served keeps nodes and history in balance. -/
theorem balanced_serves {c : Call} {r : Reply} {l' : Nodes} {τ : List Event}
    (h : Serves s l c r s' l') (hbalanced : Balanced τ l) : Balanced (⟨c, r⟩ :: τ) l' := by
  intro v hmin hmax
  have hold := hbalanced v hmin hmax
  cases h with
  | @wrote l₁ l₂ buffer0 =>
    simp only [sinceRelease, reduceCtorEq, if_false, List.countP_cons, Event.took, Event.wrote,
      List.map_append, List.map_cons, List.count_append, List.count_cons, beq_iff_eq] at hold ⊢
    by_cases hv : buffer0.toInt = v
    · simp only [hv, and_self, decide_true, if_true]
      omega
    · simp only [hv, false_and, decide_false, Bool.false_eq_true, if_false]
      omega
  | @deleted l₁ l₂ a buffer0 =>
    simp only [sinceRelease, reduceCtorEq, if_false, List.countP_cons, Event.took, Event.wrote,
      List.map_append, List.map_cons, List.count_append, List.count_cons, beq_iff_eq] at hold ⊢
    by_cases hv : buffer0.toInt = v
    · simp only [hv, and_self, decide_true, if_true] at hold ⊢
      omega
    · simp only [hv, and_self, decide_false, Bool.false_eq_true, if_false] at hold ⊢
      omega
  | refused | missed | short =>
    have hne : (-1 : Int) ≠ v := by omega
    simpa [sinceRelease, Event.took, Event.wrote, hne] using hold
  | released => rfl

/-- A call on its environment. -/
def ReadyStep (s : State) (e : Event) (s' : State) : Prop := StepBy step s e s' ∧ e.call.Ready s

/-- The size stays below the sign bit. -/
theorem Holds.size_lt {c : Call} {r : Reply} {l' : Nodes} (h : Holds s l) (h' : Holds s' l')
    (hserves : Serves s l c r s' l') (hready : c.Ready s) (hfew : s.size < 2 ^ 31) :
    s'.size < 2 ^ 31 := by
  have hsize := h.size
  have hsize' := h'.size
  cases hserves with
  | wrote hlength hmin hmax =>
    have hroom := (hready ⟨hlength, hmin, hmax⟩).2
    simp only [List.length_append, List.length_cons] at hsize hsize'
    omega
  | deleted =>
    simp only [List.length_append, List.length_cons] at hsize hsize'
    omega
  | refused | missed | short => exact hfew
  | released => decide

/-- In every run the list holds what was written and not read. -/
theorem contents_of_run {τ : List Event} (hrun : Run ReadyStep start τ s) :
    ∃ l, Holds s l ∧ Balanced τ l ∧ s.size < 2 ^ 31 := by
  refine hrun.invariant (fun τ s => ∃ l, Holds s l ∧ Balanced τ l ∧ s.size < 2 ^ 31) ?_ ?_
  · exact ⟨[], holds_start, fun v _ _ => rfl, by decide⟩
  · rintro τ s ⟨c, r⟩ s' - ⟨l, h, hbalanced, hfew⟩ ⟨⟨c', hstep⟩, hready⟩
    obtain ⟨⟨r', s''⟩, hcall, heq⟩ := Option.map_eq_some_iff.1 hstep
    cases heq
    obtain ⟨r'', s''', l', hcall', h', hserves⟩ := h.serves hfew hready
    rw [hcall] at hcall'
    cases hcall'
    exact ⟨l', h', balanced_serves hserves hbalanced, h.size_lt h' hserves hready hfew⟩

/-- The driver has its list, the list is what the calls up to now have left of it, and every further
call is served without a fault. -/
def Kept (τ : List Event) (s : State) : Prop :=
  ∃ l, Holds s l ∧ (s.head = none ↔ s.size = 0) ∧ Balanced τ l ∧
    ∀ c : Call, c.Ready s → ∃ r s' l', c.run s = some (r, s') ∧ Holds s' l' ∧ Serves s l c r s' l'

/-- For all sequences of calls, whatever the random numbers and the cells that `kzalloc` returns. -/
theorem list_kept {τ : List Event} (hrun : Run ReadyStep start τ s) : Kept τ s := by
  obtain ⟨l, h, hbalanced, hfew⟩ := contents_of_run hrun
  exact ⟨l, h, h.head_eq_none, hbalanced, fun c hready => h.serves hfew hready⟩

instance (c : Call) : Decidable (c.Ready s) := by
  cases c with
  | write buffer0 length random addr =>
    exact inferInstanceAs (Decidable (0 < length ∧ 0 ≤ buffer0.toInt ∧ buffer0.toInt ≤ 9 →
      s.heap addr = none ∧ s.size + 1 < 2 ^ 31))
  | read | release => exact isTrue trivial

/-- Two digits are written, another byte is refused, and one digit is read. -/
theorem list_kept_digits :
    ∃ (τ : List Event) (s : State), Run ReadyStep start τ s ∧ s.size = 1 ∧ Kept τ s := by
  let calls : List Call := [.write 3 1 7 0, .write 5 1 8 1, .write 10 1 0 2, .read 3 2]
  let r := (perform (restrict step fun s e => e.call.Ready s) [] start calls).get (by decide)
  have hrun : Run (StepBy (restrict step fun s e => e.call.Ready s)) start r.1 r.2 := run_of_get _
  have hready : Run ReadyStep start r.1 r.2 := hrun.mono stepBy_restrict
  exact ⟨r.1, r.2, hready, by decide, list_kept hready⟩

end EE516.LinkedList
