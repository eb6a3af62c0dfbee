import EE516.Foundations.BlackCounts
import EE516.RedBlackTree.InsertionRuns

/-!
# The tree under the topmost node

The rotations do not assign `root`, so `root` may name a node inside the tree. Parent pointers lead
from there to the topmost node (`Climbs`, `Topmost`), and the tree under that node is the subject of
the laws: `WellFormed` states them for the tree, `WellFormedUnder` for a node of memory.

One round of insertion takes a well-formed tree at `root` to a well-formed tree under the topmost
node, wherever the repair rotates (`insertRound_wellFormed`).
-/

set_option autoImplicit false

namespace EE516.RedBlackTree

open EE516.Foundations.ColorTree
open EE516.Foundations.ColorTree.Tree (mk)

variable {loose : Addr → Prop}

/-! ## Climbing -/

/-- From `a` the parent pointers lead up to a node whose parent pointer is `NULL`. -/
inductive Climbs (h : Heap) : Addr → Addr → Prop
  | top {a : Addr} {n : Rbtnode} : h a = some n → n.parent = NULL → Climbs h a a
  | up {a b top : Addr} {n : Rbtnode} : h a = some n → n.parent = some b → Climbs h b top →
      Climbs h a top

/-- The topmost node: reached from `root` by parent pointers, and `NULL` when `root` is. -/
def Topmost (s : Memory) : Ptr → Prop
  | none => s.root = NULL
  | some top => ∃ a, s.root = some a ∧ Climbs s.heap a top

/-- Climbing from a node leads to one node only. -/
theorem Climbs.unique {h : Heap} {a b c : Addr} (hb : Climbs h a b) (hc : Climbs h a c) :
    b = c := by
  induction hb with
  | top hn hp =>
    cases hc with
    | top => rfl
    | up hm hq =>
      rw [hn] at hm
      rw [← Option.some.inj hm, hp] at hq
      cases hq
  | up hn hp _ ih =>
    cases hc with
    | top hm hq =>
      rw [hn] at hm
      rw [← Option.some.inj hm, hp] at hq
      cases hq
    | up hm hq hc =>
      rw [hn] at hm
      rw [← Option.some.inj hm, hp] at hq
      obtain rfl := Option.some.inj hq
      exact ih hc

theorem Topmost.unique {s : Memory} {a b : Addr} (ha : Topmost s (some a))
    (hb : Topmost s (some b)) : a = b := by
  obtain ⟨c, hc, ha⟩ := ha
  obtain ⟨d, hd, hb⟩ := hb
  rw [hc] at hd
  obtain rfl := Option.some.inj hd
  exact ha.unique hb

/-- Every inner node of a tree in memory climbs to the topmost one. -/
theorem climbs_plug {h : Heap} (π : RbPath) {c : Color} {l r : RbTree} {x : Entry}
    (ht : Reps loose h NULL (plug π (.node c l x r))) :
    Climbs h x.addr (addr (plug π (.node c l x r))) := by
  -- by induction on the path up to the top
  induction π generalizing c l r x with
  | nil => exact .top ht.1 rfl
  | cons f π ih =>
    have hx := (reps_plug.1 ht).2.1
    obtain ⟨s, d, y, sib⟩ := f
    cases s with
    | left => exact .up hx rfl (ih ht)
    | right => exact .up hx rfl (ih ht)

/-- From every node of a tree one climbs to its top. -/
theorem climbs_of_mem {h : Heap} {t : RbTree} {x : Entry} (ht : Reps loose h NULL t)
    (hx : x ∈ t.toList) : Climbs h x.addr (addr t) := by
  obtain ⟨π, c, l, r, rfl⟩ := exists_plug_of_mem hx
  exact climbs_plug π ht

/-- The top of the tree is reached from `root`. -/
theorem Represents.topmost {s : Memory} {t : RbTree} {x : Entry} (hr : Represents loose s t)
    (hx : x ∈ t.toList) (hroot : s.root = some x.addr) : Topmost s (some (addr t)) :=
  ⟨x.addr, hroot, climbs_of_mem hr.cells hx⟩

/-- The address of the topmost node is the address of an entry. -/
theorem exists_mem_addr_eq {t : RbTree} (ht : t.isLeaf = false) :
    ∃ x ∈ t.toList, addr t = x.addr := by
  cases t with
  | leaf c a => cases ht
  | node c l x r => exact ⟨x, by simp, rfl⟩

theorem inner_of_mem {t : RbTree} {x : Entry} (hx : x ∈ t.toList) : t.isLeaf = false := by
  cases t with
  | leaf c a => simp at hx
  | node c l y r => rfl

/-! ## Well-formed trees -/

/-- A red-black search tree with a black topmost node. -/
structure WellFormed (t : RbTree) : Prop where
  inner : t.isLeaf = false
  black : t.color = BLACK
  laws : RedBlackLaws t
  ordered : Ordered Entry.value t

/-- A balanced ordered tree that is not a leaf is well formed. -/
theorem WellFormed.of_bal {t : RbTree} {n : Nat} (hinner : t.isLeaf = false) (h : Bal t BLACK n)
    (ho : Ordered Entry.value t) : WellFormed t := by
  obtain ⟨hblack, hlaws⟩ := exists_bal_black_iff.1 ⟨n, h⟩
  exact ⟨hinner, hblack, hlaws, ho⟩

theorem WellFormed.bal {t : RbTree} (h : WellFormed t) : ∃ n, Bal t BLACK n :=
  exists_bal_black_iff.2 ⟨h.black, h.laws⟩

/-- The tree under the node `top` of memory is well-formed and holds the pairs `l` in its order.
Without a topmost node there are no pairs. The parent pointers of nil nodes are not looked at. -/
def WellFormedUnder (s : Memory) (top : Ptr) (l : List (Int × Int)) : Prop :=
  match top with
  | none => l = []
  | some a => ∃ t, Represents (fun _ => True) s t ∧ addr t = a ∧ WellFormed t ∧ pairs t = l

/-- A tree of three nodes. -/
def threeNodes : RbTree :=
  .node BLACK (.node RED (.leaf BLACK 3) ⟨1, 1, 1⟩ (.leaf BLACK 4)) ⟨0, 2, 0⟩
    (.node RED (.leaf BLACK 5) ⟨2, 3, 2⟩ (.leaf BLACK 6))

/-- Memory with `threeNodes` at `root`; the parent pointers of the nil nodes are right too. -/
def threeNodesMemory : Memory where
  root := some 0
  heap a := [⟨NULL, some 2, some 1, 0, 2, BLACK, .ALLOCATED⟩,
    ⟨some 0, some 4, some 3, 1, 1, RED, .ALLOCATED⟩,
    ⟨some 0, some 6, some 5, 2, 3, RED, .ALLOCATED⟩,
    ⟨some 1, NULL, NULL, 0, 0, BLACK, .NIL⟩, ⟨some 1, NULL, NULL, 0, 0, BLACK, .NIL⟩,
    ⟨some 2, NULL, NULL, 0, 0, BLACK, .NIL⟩, ⟨some 2, NULL, NULL, 0, 0, BLACK, .NIL⟩][a]?
  brk := 7

theorem represents_threeNodes : Represents loose threeNodesMemory threeNodes where
  cells := ⟨rfl, ⟨rfl, ⟨_, rfl, rfl, rfl, rfl, rfl, Or.inr rfl⟩,
    ⟨_, rfl, rfl, rfl, rfl, rfl, Or.inr rfl⟩⟩, ⟨rfl, ⟨_, rfl, rfl, rfl, rfl, rfl, Or.inr rfl⟩,
    ⟨_, rfl, rfl, rfl, rfl, rfl, Or.inr rfl⟩⟩⟩
  nodup := by decide
  lt_brk := by decide

theorem bal_threeNodes : Bal threeNodes BLACK 1 :=
  .black _ (.red _ (.leaf _) (.leaf _)) (.red _ (.leaf _) (.leaf _))

theorem wellFormed_threeNodes : WellFormed threeNodes :=
  .of_bal rfl bal_threeNodes (by simp [Ordered, threeNodes])

/-! ## One round of insertion -/

/-- The search for a value that occurs finds it. -/
theorem pathTo_eq_none {t : RbTree} {v : Int} (ho : Ordered Entry.value t)
    (hv : ∃ x ∈ t.toList, x.value = v) : pathTo Entry.value v t [] = none := by
  cases hpath : pathTo Entry.value v t [] with
  | none => rfl
  | some q =>
    obtain ⟨π, c, a⟩ := q
    obtain ⟨x, hx, rfl⟩ := hv
    obtain ⟨hbefore, hafter⟩ :=
      pathTo_separates Entry.value ho hpath (by simp [before]) (by simp [after])
    -- all entries are beside the path, and the search passes them on the strict side
    rw [← plug_pathTo Entry.value hpath, toList_plug, Tree.toList_leaf, List.append_nil,
      List.mem_append] at hx
    rcases hx with hx | hx
    · exact absurd (hbefore x hx) (lt_irrefl _)
    · exact absurd (hafter x hx) (lt_irrefl _)

theorem mem_pairs_fst {t : RbTree} {v : Int} :
    v ∈ (pairs t).map Prod.fst ↔ ∃ x ∈ t.toList, x.value = v := by
  simp only [pairs, List.map_map, List.mem_map]
  rfl

/-- A value that occurs is refused, and memory stays as it is. Any other value is inserted; the tree
under the topmost node is well-formed again and holds the new pair at its place. -/
theorem insertRound_wellFormed {s : Memory} {l : List (Int × Int)} {fuel : Nat} (v pid : Int)
    (hs : WellFormedUnder s s.root l) (hfuel : l.length < fuel) :
    (v ∈ l.map Prod.fst → insertNode fuel v pid s = .ok (NULL, s)) ∧
    (v ∉ l.map Prod.fst → ∃ s' top l₁ l₂, insertRound fuel v pid s = .ok ((), s') ∧
      Topmost s' top ∧ l = l₁ ++ l₂ ∧ WellFormedUnder s' top (l₁ ++ (v, pid) :: l₂)) := by
  cases hroot : s.root with
  | none =>
    rw [hroot] at hs
    obtain rfl : l = [] := hs
    refine ⟨fun hv => by simp at hv, fun _ => ?_⟩
    obtain ⟨s', hrun, hr, hroot', -⟩ := @insertRound_empty_run (fun _ => True) s fuel v pid hfuel
      hroot trivial trivial
    have hwf := WellFormed.of_bal rfl (bal_firstTree s.brk v pid) (by simp [Ordered, firstTree])
    refine ⟨s', some s.brk, [], [], hrun, ?_, rfl, firstTree s.brk v pid, hr, rfl, hwf, rfl⟩
    exact hr.topmost (x := ⟨s.brk, v, pid⟩) (by simp [firstTree]) hroot'
  | some a =>
    rw [hroot] at hs
    obtain ⟨t, hr, rfl, hwf, rfl⟩ := hs
    have hlen : t.toList.length < fuel := by simpa [pairs] using hfuel
    rw [mem_pairs_fst]
    constructor
    · intro hv
      exact insertNode_duplicate_run pid hr hroot hwf.inner
        (lt_of_le_of_lt (Tree.height_le_length t) hlen) (pathTo_eq_none hwf.ordered hv)
    · intro hv
      have hv : ∀ x ∈ t.toList, x.value ≠ v := fun x hx e => hv ⟨x, hx, e⟩
      obtain ⟨s', hrun, hr', hroot', -, ⟨n, hbal⟩, hord, -⟩ :=
        insertRound_run pid ⟨hr, hroot, hwf.inner, hwf.bal, hwf.ordered⟩ hv hlen
      obtain ⟨l₁, l₂, b, hold, hnew⟩ := toList_insertTree pid s.brk hv
      -- `root` still names the entry that was topmost before the round
      obtain ⟨x, hx, hax⟩ := exists_mem_addr_eq hwf.inner
      have hx' : x ∈ (insertTree s.brk t v pid).toList := by
        rw [hold, List.mem_append] at hx
        rw [hnew, List.mem_append, List.mem_cons]
        exact hx.imp_right Or.inr
      refine ⟨s', some (addr (insertTree s.brk t v pid)), l₁.map fun x => (x.value, x.pid),
        l₂.map fun x => (x.value, x.pid), hrun, ?_, ?_, _, hr', rfl,
        .of_bal (inner_of_mem hx') hbal hord, ?_⟩
      · exact hr'.topmost hx' (by rw [hroot', hroot, hax])
      · rw [pairs, hold, List.map_append]
      · rw [pairs, hnew, List.map_append, List.map_cons]

theorem insertRound_wellFormed_three :
    insertNode 4 2 9 threeNodesMemory = .ok (NULL, threeNodesMemory) ∧
    ∃ s' top l₁ l₂, insertRound 4 5 9 threeNodesMemory = .ok ((), s') ∧ Topmost s' top ∧
      [(1, 1), (2, 0), (3, 2)] = l₁ ++ l₂ ∧ WellFormedUnder s' top (l₁ ++ (5, 9) :: l₂) := by
  have hs : WellFormedUnder threeNodesMemory threeNodesMemory.root [(1, 1), (2, 0), (3, 2)] :=
    ⟨threeNodes, represents_threeNodes, rfl, wellFormed_threeNodes, rfl⟩
  constructor
  · exact (insertRound_wellFormed 2 9 hs (by decide)).1 (by decide)
  · exact (insertRound_wellFormed 5 9 hs (by decide)).2 (by decide)

end EE516.RedBlackTree
