import EE516.RedBlackTree.Deletion
import EE516.RedBlackTree.Topmost

/-!
# Deletion of an inner node

A node with one inner child is spliced out. A node with two takes the data of the largest entry to
its left, and that entry's node is spliced out instead (`takePredecessor_run`); the node that goes
away gets mixed-up data, which nobody reads. In both cases the tree under the topmost node is
well-formed again, without the deleted pair (`deleteNode_wellFormed`).
-/

set_option autoImplicit false

namespace EE516.RedBlackTree

open EE516.Foundations.ColorTree
open EE516.Foundations.ColorTree.Tree (mk)

/-- The parent pointers of nil nodes are right too. -/
abbrev noLoose : Addr → Prop := fun _ => False

/-! ## The predecessor -/

/-- `getMaximum` ends at the rightmost nil node and returns its parent pointer. -/
theorem maximumLoop_run {s : Memory} {t : RbTree} : ∀ (π : RbPath) {fuel : Nat},
    Represents noLoose s (plug π t) → t.height < fuel →
    ∃ σ c a, plug σ (.leaf c a) = t ∧ (∀ f ∈ σ, f.side = .right) ∧
      maximumLoop fuel (some (addr t)) s = .ok (holder (σ ++ π), s) := by
  induction t with
  | leaf c a =>
    intro π fuel hr hfuel
    obtain ⟨fuel, rfl⟩ : ∃ k, fuel = k + 1 := ⟨fuel - 1, by omega⟩
    obtain ⟨n, hn, -, hty, hp⟩ := hr.heap_root
    rw [nodeType_leaf] at hty
    rw [addr_leaf] at hn
    refine ⟨[], c, a, rfl, by simp, ?_⟩
    simp [maximumLoop, run_bind, load, hn, hty, hp fun h => h]
  | node c l x r _ ihr =>
    intro π fuel hr hfuel
    obtain ⟨fuel, rfl⟩ : ∃ k, fuel = k + 1 := ⟨fuel - 1, by omega⟩
    rw [Tree.height_node] at hfuel
    have hrr : Represents noLoose s (plug (⟨.right, c, x, l⟩ :: π) r) := hr
    obtain ⟨σ, d, a, rfl, hσ, hrun⟩ := ihr _ hrr (by omega : r.height < fuel)
    have hx := hr.heap_node
    refine ⟨σ ++ [⟨.right, c, x, l⟩], d, a, by simp, ?_, ?_⟩
    · intro f hf
      rcases List.mem_append.1 hf with hf | hf
      · exact hσ f hf
      · rw [List.mem_singleton.1 hf]
    · rw [List.append_assoc]
      simpa [maximumLoop, run_bind, load, hx] using hrun

/-- `getMaximum` finds the node with the greatest value of a subtree. -/
theorem getMaximum_run {s : Memory} {π : RbPath} {t : RbTree} {fuel : Nat}
    (hr : Represents noLoose s (plug π t)) (hfuel : t.height < fuel) (ht : t.isLeaf = false) :
    ∃ σ d u y e b, plug σ (.node d u y (.leaf e b)) = t ∧ (∀ f ∈ σ, f.side = .right) ∧
      getMaximum fuel (some (addr t)) s = .ok (some y.addr, s) := by
  obtain ⟨σ, c, a, hplug, hσ, hrun⟩ := maximumLoop_run π hr hfuel
  cases σ with
  | nil =>
    rw [← hplug] at ht
    cases ht
  | cons f σ =>
    obtain ⟨sd, d, y, u⟩ := f
    obtain rfl : sd = .right := hσ _ List.mem_cons_self
    exact ⟨σ, d, u, y, c, a, hplug, fun f hf => hσ f (List.mem_cons_of_mem _ hf), hrun⟩

/-- The step of `deleteNode` for a node with two inner children: the node to splice out. -/
def takePredecessor (fuel : Nat) (target : Ptr) : Exec Ptr := do
  let deleteTarget ← getMaximum fuel (← load target).left
  let v := (← load deleteTarget).value
  let pid := (← load deleteTarget).pid
  setValue deleteTarget (← load target).value
  setValue deleteTarget (← load target).pid
  setValue target v
  setPid target pid
  return deleteTarget

/-- A new value in a node is one in the tree. -/
theorem Represents.setValue_run {loose : Addr → Prop} {s : Memory} {π : RbPath} {c : Color}
    {l r : RbTree} {x : Entry} (hr : Represents loose s (plug π (.node c l x r))) (v : Int) :
    ∃ s', setValue (some x.addr) v s = .ok ((), s') ∧
      Represents loose s' (plug π (.node c l { x with value := v } r)) ∧ s'.root = s.root ∧
      s'.brk = s.brk := by
  have hr : Represents loose s (plug π (mk .left c l x r)) := hr
  exact hr.relabel_run rfl fun p a b => rfl

/-- A new pid in a node is one in the tree. -/
theorem Represents.setPid_run {loose : Addr → Prop} {s : Memory} {π : RbPath} {c : Color}
    {l r : RbTree} {x : Entry} (hr : Represents loose s (plug π (.node c l x r))) (v : Int) :
    ∃ s', setPid (some x.addr) v s = .ok ((), s') ∧
      Represents loose s' (plug π (.node c l { x with pid := v } r)) ∧ s'.root = s.root ∧
      s'.brk = s.brk := by
  have hr : Represents loose s (plug π (mk .left c l x r)) := hr
  exact hr.relabel_run rfl fun p a b => rfl

/-- The target has the data of its predecessor `y`, and `y` has data that do not matter. -/
theorem takePredecessor_run {s : Memory} {π : RbPath} {c : Color} {l r : RbTree} {x : Entry}
    {fuel : Nat} (hr : Represents noLoose s (plug π (.node c l x r))) (hfuel : l.height < fuel)
    (hl : l.isLeaf = false) :
    ∃ s' σ d u y e b, takePredecessor fuel (some x.addr) s = .ok (some y.addr, s') ∧
      plug σ (.node d u y (.leaf e b)) = l ∧ (∀ f ∈ σ, f.side = .right) ∧
      Represents noLoose s' (plug (σ ++ ⟨.left, c, ⟨x.addr, y.value, y.pid⟩, r⟩ :: π)
        (.node d u ⟨y.addr, x.pid, y.pid⟩ (.leaf e b))) ∧ s'.root = s.root := by
  have hrl : Represents noLoose s (plug (⟨.left, c, x, r⟩ :: π) l) := hr
  obtain ⟨σ, d, u, y, e, b, rfl, hσ, hmax⟩ := getMaximum_run hrl hfuel hl
  have hry : Represents noLoose s
      (plug (σ ++ ⟨.left, c, x, r⟩ :: π) (.node d u y (.leaf e b))) := hr.focus (by simp)
  obtain ⟨s₁, hrun₁, hr₁, hroot₁, -⟩ := hry.setValue_run x.value
  obtain ⟨s₂, hrun₂, hr₂, hroot₂, -⟩ := hr₁.setValue_run x.pid
  -- the other two assignments are to the target
  have hx₁ : Represents noLoose s₁ (plug π (.node c (plug σ
      (.node d u { y with value := x.value } (.leaf e b))) x r)) := hr₁.focus (by simp)
  have hx₂ : Represents noLoose s₂ (plug π (.node c (plug σ
      (.node d u { y with value := x.pid } (.leaf e b))) x r)) := hr₂.focus (by simp)
  obtain ⟨s₃, hrun₃, hr₃, hroot₃, -⟩ := hx₂.setValue_run y.value
  obtain ⟨s₄, hrun₄, hr₄, hroot₄, -⟩ := hr₃.setPid_run y.pid
  have hrun₂ : setValue (some y.addr) x.pid s₁ = .ok ((), s₂) := hrun₂
  have hrun₄ : setPid (some x.addr) y.pid s₃ = .ok ((), s₄) := hrun₄
  have hy := hry.heap_node
  have hxs := hr.heap_node
  have hxs₁ := hx₁.heap_node
  refine ⟨s₄, σ, d, u, y, e, b, ?_, rfl, hσ, hr₄.focus (by simp), ?_⟩
  · simp [takePredecessor, run_bind, run_map, load, hxs, hmax, hy, hrun₁, hxs₁, hrun₂, hrun₃, hrun₄]
  · rw [hroot₄, hroot₃, hroot₂, hroot₁]

/-- `deleteNode` in terms of its two parts. -/
theorem deleteNode_eq (fuel : Nat) (target : Ptr) : deleteNode fuel target = (do
    if ← both (do return (← load (← load target).right).type = .NIL)
        (do return (← load (← load target).left).type = .NIL) then
      free (← load target).right
      free (← load target).left
      setRight target NULL
      setLeft target NULL
      setType target .NIL
      if target = (← getRoot) then
        setRoot NULL
    else
      let deleteTarget ←
        if ← both (do return (← load (← load target).right).type = .ALLOCATED)
            (do return (← load (← load target).left).type = .ALLOCATED) then
          takePredecessor fuel target
        else
          pure target
      let child ←
        if ← isLeaf (← load deleteTarget).right then
          pure (← load deleteTarget).left
        else
          pure (← load deleteTarget).right
      spliceOut fuel deleteTarget child) := by
  simp only [deleteNode, takePredecessor, spliceOut, bind_assoc, pure_bind]

/-- A node with two inner children: its predecessor is spliced out. -/
theorem deleteNode_two_eq {s s' : Memory} {π ρ : RbPath} {c d e : Color} {l r u : RbTree}
    {x y z : Entry} {b : Addr} {fuel : Nat} (hr : Represents noLoose s (plug π (.node c l x r)))
    (hl : l.isLeaf = false) (hrl : r.isLeaf = false) (hyz : z.addr = y.addr)
    (htake : takePredecessor fuel (some x.addr) s = .ok (some y.addr, s'))
    (hr' : Represents noLoose s' (plug ρ (.node d u z (.leaf e b)))) :
    deleteNode fuel (some x.addr) s = spliceOut fuel (some y.addr) (some (addr u)) s' := by
  have hx := hr.heap_node
  have hll : Represents noLoose s (plug (⟨.left, c, x, r⟩ :: π) l) := hr
  have hrr : Represents noLoose s (plug (⟨.right, c, x, l⟩ :: π) r) := hr
  have hrb : Represents noLoose s' (plug (⟨.right, d, z, u⟩ :: ρ) (.leaf e b)) := hr'
  obtain ⟨nl, hnl, -, htl, -⟩ := hll.heap_root
  obtain ⟨nr, hnr, -, htr, -⟩ := hrr.heap_root
  obtain ⟨nb, hnb, -, htb, -⟩ := hrb.heap_root
  have hz := hr'.heap_node
  rw [nodeType, if_neg (by simp [hl])] at htl
  rw [nodeType, if_neg (by simp [hrl])] at htr
  rw [hyz] at hz
  simp only [addr_leaf, nodeType_leaf] at hnb htb hz
  rw [deleteNode_eq]
  simp [both, isLeaf, run_bind, run_map, load, hx, hnl, hnr, htl, htr, htake, hz, hnb, htb]

/-! ## The tree that is left -/

/-- The topmost entry is beside a path that is not empty. -/
theorem exists_top_beside (f : Frame Entry Addr) (π : RbPath) :
    ∃ x, (x ∈ before (f :: π) ∨ x ∈ after (f :: π)) ∧ ∀ t, addr (plug (f :: π) t) = x.addr := by
  induction π generalizing f with
  | nil =>
    obtain ⟨sd, c, x, sib⟩ := f
    refine ⟨x, ?_, fun t => by simp⟩
    cases sd with
    | left => exact Or.inr (by simp [after])
    | right => exact Or.inl (by simp [before])
  | cons g π ih =>
    obtain ⟨x, hx, haddr⟩ := ih g
    obtain ⟨sd, c, y, sib⟩ := f
    refine ⟨x, ?_, fun t => haddr _⟩
    cases sd with
    | left => exact hx.imp_right fun h => by simp [after, h]
    | right => exact hx.imp_left fun h => by simp [before, h]

/-- After `u` took the place of its parent under `ρ`, `root` names an entry that stays. -/
theorem exists_mem_root {ρ : RbPath} {u w : RbTree} {root root' : Ptr}
    (hroot : root = some (addr (plug ρ w)))
    (hroot' : root' = if ρ.isEmpty then some (addr u) else root)
    (hinner : ρ ≠ [] ∨ u.isLeaf = false) : ∃ y ∈ (plug ρ u).toList, root' = some y.addr := by
  cases ρ with
  | nil =>
    obtain ⟨y, hy, hay⟩ := exists_mem_addr_eq (hinner.resolve_left fun h => h rfl)
    exact ⟨y, hy, by rw [hroot', ← hay]; rfl⟩
  | cons f ρ =>
    obtain ⟨y, hy, hay⟩ := exists_top_beside f ρ
    refine ⟨y, ?_, ?_⟩
    · rw [toList_plug, List.append_assoc, List.mem_append, List.mem_append]
      exact hy.imp_right Or.inr
    · rw [hroot', List.isEmpty_cons, if_neg (by simp), hroot, hay]

/-- Splicing a node out of a well-formed tree that keeps an inner node. -/
theorem spliceOut_wellFormed {s : Memory} {ρ : RbPath} {sd : Side} {c c₁ : Color} {b : Addr}
    {x : Entry} {u : RbTree} {fuel n : Nat} (hfuel : ρ.length < fuel)
    (hr : Represents noLoose s (plug ρ (mk sd c (.leaf c₁ b) x u)))
    (hroot : s.root = some (addr (plug ρ (mk sd c (.leaf c₁ b) x u))))
    (hbal : Bal (plug ρ (mk sd c (.leaf c₁ b) x u)) BLACK n)
    (ho : Ordered Entry.value (plug ρ u)) (hinner : ρ ≠ [] ∨ u.isLeaf = false) :
    ∃ s' t', spliceOut fuel (some x.addr) (some (addr u)) s = .ok ((), s') ∧
      Topmost s' (some (addr t')) ∧ Represents noLoose s' t' ∧ WellFormed t' ∧
      pairs t' = pairs (plug ρ u) := by
  obtain ⟨p, d, m, hρ, -, -⟩ := bal_of_plug (⟨sd, c, x, u⟩ :: ρ) (t := .leaf c₁ b) hbal
  obtain ⟨s', hrun, hr', hroot', -⟩ := spliceOut_run hfuel hr hρ fun _ h => h
  obtain ⟨k, hbal'⟩ := bal_spliceFix hρ
  have hlist := toList_spliceFix c u ρ
  obtain ⟨y, hy, hay⟩ := exists_mem_root hroot hroot' hinner
  rw [← hlist] at hy
  have hinner' := inner_of_mem hy
  refine ⟨s', _, hrun, hr'.topmost hy hay, hr', .of_bal hinner' hbal' ?_, ?_⟩
  · rw [Ordered, hlist]
    exact ho
  · rw [pairs, pairs, hlist]

/-- Without one of its pairs a tree stays in order. -/
theorem ordered_of_pairs {t t' : RbTree} {l₁ l₂ : List (Int × Int)} {p : Int × Int}
    (ho : Ordered Entry.value t) (h : pairs t = l₁ ++ p :: l₂) (h' : pairs t' = l₁ ++ l₂) :
    Ordered Entry.value t' := by
  have hpairs : ∀ u : RbTree,
      Ordered Entry.value u ↔ (pairs u).Pairwise fun a b => a.1 < b.1 := by
    intro u
    rw [pairs, List.pairwise_map]
    rfl
  rw [hpairs, h] at ho
  rw [hpairs, h']
  exact ho.sublist (List.Sublist.append_left (List.sublist_cons_self p l₂) l₁)

/-- The node `y` of `ρ` that the deletion of `x` splices out of memory `s'`, in favour of its child
`u`. -/
structure Splices (s : Memory) (t : RbTree) (x : Entry) (fuel : Nat) (s' : Memory) (ρ : RbPath)
    (sd : Side) (d c₁ : Color) (b : Addr) (y : Entry) (u : RbTree) : Prop where
  eq : deleteNode fuel (some x.addr) s = spliceOut fuel (some y.addr) (some (addr u)) s'
  rep : Represents noLoose s' (plug ρ (mk sd d (.leaf c₁ b) y u))
  root : s'.root = some (addr (plug ρ (mk sd d (.leaf c₁ b) y u)))
  bal : ∃ m, Bal (plug ρ (mk sd d (.leaf c₁ b) y u)) BLACK m
  inner : ρ ≠ [] ∨ u.isLeaf = false
  length : ρ.length < fuel
  pairs : ∃ l₁ l₂, pairs t = l₁ ++ (x.value, x.pid) :: l₂ ∧ pairs (plug ρ u) = l₁ ++ l₂

section Splices

variable {s : Memory} {π : RbPath} {c : Color} {l r : RbTree} {x : Entry} {fuel : Nat}

/-- A node with one inner child is spliced out itself. -/
theorem splices_one {n : Nat} {sd : Side} {c₁ : Color} {b : Addr} {u : RbTree}
    (hr : Represents noLoose s (plug π (mk sd c (.leaf c₁ b) x u)))
    (hroot : s.root = some (addr (plug π (mk sd c (.leaf c₁ b) x u))))
    (hbal : Bal (plug π (mk sd c (.leaf c₁ b) x u)) BLACK n) (hu : u.isLeaf = false)
    (hfuel : π.length < fuel) :
    Splices s (plug π (mk sd c (.leaf c₁ b) x u)) x fuel s π sd c c₁ b x u where
  eq := deleteNode_one_eq fuel hr hu
  rep := hr
  root := hroot
  bal := ⟨n, hbal⟩
  inner := Or.inr hu
  length := hfuel
  pairs := by
    cases sd with
    | left =>
      refine ⟨(before π).map fun x => (x.value, x.pid),
        (u.toList ++ after π).map fun x => (x.value, x.pid), ?_, ?_⟩
      · simp [pairs, toList_plug]
      · simp [pairs, toList_plug]
    | right =>
      refine ⟨(before π ++ u.toList).map fun x => (x.value, x.pid),
        (after π).map fun x => (x.value, x.pid), ?_, ?_⟩
      · simp [pairs, toList_plug]
      · simp [pairs, toList_plug]

/-- Of a node with two inner children the predecessor is spliced out. -/
theorem splices_two {n : Nat} (hr : Represents noLoose s (plug π (.node c l x r)))
    (hroot : s.root = some (addr (plug π (.node c l x r))))
    (hbal : Bal (plug π (.node c l x r)) BLACK n) (hl : l.isLeaf = false) (hrl : r.isLeaf = false)
    (hfuel : (plug π (.node c l x r)).toList.length < fuel) :
    ∃ s' ρ d c₁ b y u, Splices s (plug π (.node c l x r)) x fuel s' ρ .right d c₁ b y u := by
  have hlen := lt_of_le_of_lt (length_le_length_plug π (.node c l x r)) hfuel
  rw [Tree.toList_node, List.length_append, List.length_cons] at hlen
  have hheight : l.height < fuel := by
    have := l.height_le_length
    omega
  obtain ⟨s', σ, d, u, y, e, b, htake, rfl, hσ, hr', hroot'⟩ := takePredecessor_run hr hheight hl
  -- the same tree, with the data of `y` in the place of those of `x`
  obtain ⟨m, hbal⟩ := bal_plug_relabel hbal ⟨x.addr, y.value, y.pid⟩
  have hbal : Bal (plug (σ ++ ⟨.left, c, ⟨x.addr, y.value, y.pid⟩, r⟩ :: π)
      (.node d u y (.leaf e b))) BLACK m := by simpa using hbal
  refine ⟨s', σ ++ ⟨.left, c, ⟨x.addr, y.value, y.pid⟩, r⟩ :: π, d, e, b, ⟨y.addr, x.pid, y.pid⟩, u,
    deleteNode_two_eq hr hl hrl rfl htake hr', hr', ?_, bal_plug_relabel hbal _, ?_, ?_, ?_⟩
  · rw [hroot', hroot]
    refine congrArg some ?_
    rw [plug_append, plug_cons]
    exact addr_plug_congr π rfl
  · exact Or.inl (by simp)
  · have h := length_le_length_plug σ (.node d u y (.leaf e b))
    rw [List.length_append, List.length_cons]
    omega
  · refine ⟨(before π ++ (plug σ u).toList ++ [y]).map fun x => (x.value, x.pid),
      (r.toList ++ after π).map fun x => (x.value, x.pid), ?_, ?_⟩
    · simp [pairs, toList_plug, after_eq_nil hσ]
    · simp [pairs, toList_plug, after_eq_nil hσ]

/-- Every inner node has a node with a leaf to be removed in its place. -/
theorem exists_splices {n : Nat} (hr : Represents noLoose s (plug π (.node c l x r)))
    (hroot : s.root = some (addr (plug π (.node c l x r))))
    (hbal : Bal (plug π (.node c l x r)) BLACK n) (hchild : l.isLeaf = false ∨ r.isLeaf = false)
    (hfuel : (plug π (.node c l x r)).toList.length < fuel) :
    ∃ s' ρ sd d c₁ b y u, Splices s (plug π (.node c l x r)) x fuel s' ρ sd d c₁ b y u := by
  have hlen : π.length < fuel :=
    lt_of_le_of_lt (Nat.le_of_add_right_le (length_le_length_plug π (.node c l x r))) hfuel
  cases l with
  | leaf c₁ b =>
    have hrl : r.isLeaf = false := hchild.resolve_left (by simp)
    have hr : Represents noLoose s (plug π (mk .left c (.leaf c₁ b) x r)) := hr
    exact ⟨s, π, .left, c, c₁, b, x, r, splices_one hr hroot hbal hrl hlen⟩
  | node d a y b =>
    cases r with
    | leaf c₁ b' =>
      have hr : Represents noLoose s (plug π (mk .right c (.leaf c₁ b') x (.node d a y b))) := hr
      exact ⟨s, π, .right, c, c₁, b', x, _, splices_one hr hroot hbal rfl hlen⟩
    | node d' a' y' b' =>
      obtain ⟨s', ρ, h⟩ := splices_two hr hroot hbal rfl rfl hfuel
      exact ⟨s', ρ, .right, h⟩

/-- Deletion of a node with at least one inner child takes its pair out of a well-formed tree. -/
theorem deleteNode_wellFormed (hr : Represents noLoose s (plug π (.node c l x r)))
    (hroot : s.root = some (addr (plug π (.node c l x r))))
    (ht : WellFormed (plug π (.node c l x r))) (hchild : l.isLeaf = false ∨ r.isLeaf = false)
    (hfuel : (plug π (.node c l x r)).toList.length < fuel) :
    ∃ s' t' l₁ l₂, deleteNode fuel (some x.addr) s = .ok ((), s') ∧
      Topmost s' (some (addr t')) ∧ Represents noLoose s' t' ∧ WellFormed t' ∧
      pairs (plug π (.node c l x r)) = l₁ ++ (x.value, x.pid) :: l₂ ∧ pairs t' = l₁ ++ l₂ := by
  obtain ⟨n, hbal⟩ := ht.bal
  obtain ⟨s₁, ρ, sd, d, c₁, b, y, u, h⟩ := exists_splices hr hroot hbal hchild hfuel
  obtain ⟨m, hbal₁⟩ := h.bal
  obtain ⟨l₁, l₂, hold, hnew⟩ := h.pairs
  obtain ⟨s', t', hrun, htop, hr', hwf, hpairs⟩ := spliceOut_wellFormed h.length h.rep h.root hbal₁
    (ordered_of_pairs ht.ordered hold hnew) h.inner
  exact ⟨s', t', l₁, l₂, by rw [h.eq, hrun], htop, hr', hwf, hold, by rw [hpairs, hnew]⟩

end Splices

theorem deleteNode_wellFormed_three :
    ∃ s' t' l₁ l₂, deleteNode 4 (some 0) threeNodesMemory = .ok ((), s') ∧
      Topmost s' (some (addr t')) ∧ Represents noLoose s' t' ∧ WellFormed t' ∧
      pairs threeNodes = l₁ ++ (2, 0) :: l₂ ∧ pairs t' = l₁ ++ l₂ :=
  deleteNode_wellFormed (π := []) (x := ⟨0, 2, 0⟩) represents_threeNodes rfl wellFormed_threeNodes
    (Or.inl rfl) (by decide)

end EE516.RedBlackTree
