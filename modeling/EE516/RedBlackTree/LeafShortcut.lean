import EE516.RedBlackTree.Drain
import EE516.RedBlackTree.InnerDeletion

/-!
# The leaf shortcut of deletion

A node without inner children becomes a nil node of its own colour, without a repair. A red one
leaves a red nil node, and a black one leaves one black node too few on the ways to it; so the
shortcut breaks the laws in every tree of more than one node (`deleteNode_leaf_not_keepsLaws`).

Deletions of the minimum stay within a bound: only the leftmost way is off, by one black node and
the colour of its nil node (`NearlyWellFormed`), and one more deletion of the minimum keeps that
(`deleteMinimum_step`).
-/

set_option autoImplicit false

namespace EE516.RedBlackTree

open EE516.Foundations.ColorTree
open EE516.Foundations.ColorTree.Tree (mk)

/-- In the tree under the topmost node all nil nodes are black, no red node has a red child, and all
ways to nil nodes meet equally many black nodes. -/
def KeepsLaws (s : Memory) : Prop :=
  ∃ t, Topmost s (some (addr t)) ∧ Represents noLoose s t ∧ RedBlackLaws t

/-- The laws of the memory are those of the tree in it. -/
theorem keepsLaws_iff {s : Memory} {t : RbTree} (htop : Topmost s (some (addr t)))
    (hr : Represents noLoose s t) : KeepsLaws s ↔ RedBlackLaws t := by
  constructor
  · rintro ⟨u, hu, hru, hlaws⟩
    obtain rfl := reps_unique hru.cells hr.cells (hu.unique htop)
    exact hlaws
  · exact fun hlaws => ⟨t, htop, hr, hlaws⟩

/-- What the shortcut leaves of the laws can be read off the tree with the new nil node. -/
theorem deleteNode_leaf_topmost {s : Memory} {f : Frame Entry Addr} {π : RbPath} {c c₁ c₂ : Color}
    {a b : Addr} {x : Entry} (fuel : Nat)
    (hr : Represents noLoose s (plug (f :: π) (.node c (.leaf c₁ a) x (.leaf c₂ b))))
    (hroot : s.root = some (addr (plug (f :: π) (.node c (.leaf c₁ a) x (.leaf c₂ b))))) :
    ∃ s', deleteNode fuel (some x.addr) s = .ok ((), s') ∧
      (KeepsLaws s' ↔ RedBlackLaws (plug (f :: π) (.leaf c x.addr))) := by
  obtain ⟨s', hrun, hr', hroot', -⟩ := deleteNode_leaf_run fuel hr
  obtain ⟨y, hy, hay⟩ := exists_top_beside f π
  -- the topmost entry is not the deleted one
  have hne : ¬ s.root = some x.addr := by
    rw [hroot]
    intro e
    have hmem := addr_plug_mem (List.cons_ne_nil f π) (.node c (.leaf c₁ a) x (.leaf c₂ b))
    rw [Option.some.inj e] at hmem
    have hnd := hr.nodup_plug
    rw [List.nodup_append] at hnd
    exact hnd.2.2 _ hmem x.addr (by simp) rfl
  rw [if_neg hne, hroot, hay] at hroot'
  refine ⟨s', hrun, keepsLaws_iff (hr'.topmost ?_ hroot') hr'⟩
  rw [toList_plug, List.append_assoc, List.mem_append, List.mem_append]
  exact hy.imp_right Or.inr

/-- The shortcut never keeps the laws. -/
theorem deleteNode_leaf_not_keepsLaws {s : Memory} {π : RbPath} {c c₁ c₂ : Color} {a b : Addr}
    {x : Entry} (fuel : Nat)
    (hr : Represents noLoose s (plug π (.node c (.leaf c₁ a) x (.leaf c₂ b))))
    (hroot : s.root = some (addr (plug π (.node c (.leaf c₁ a) x (.leaf c₂ b)))))
    (ht : WellFormed (plug π (.node c (.leaf c₁ a) x (.leaf c₂ b)))) (hπ : π ≠ []) :
    ∃ s', deleteNode fuel (some x.addr) s = .ok ((), s') ∧ ¬ KeepsLaws s' := by
  obtain ⟨f, ρ, rfl⟩ := List.exists_cons_of_ne_nil hπ
  obtain ⟨n, hbal⟩ := ht.bal
  obtain ⟨s', hrun, hiff⟩ := deleteNode_leaf_topmost fuel hr hroot
  refine ⟨s', hrun, ?_⟩
  rw [hiff]
  exact not_redBlackLaws_of_missing_black hbal

theorem deleteNode_leaf_not_keepsLaws_three :
    ∃ s', deleteNode 0 (some 1) threeNodesMemory = .ok ((), s') ∧ ¬ KeepsLaws s' :=
  deleteNode_leaf_not_keepsLaws (π := [⟨.left, BLACK, ⟨0, 2, 0⟩, .node RED (.leaf BLACK 5) ⟨2, 3, 2⟩
    (.leaf BLACK 6)⟩]) (x := ⟨1, 1, 1⟩) 0 represents_threeNodes rfl wellFormed_threeNodes (by simp)

/-- Deleting the red node left of the topmost one leaves a red nil node. -/
theorem deleteNode_red_leaf_breaks_laws :
    ¬ ∀ (s : Memory) (π : RbPath) (c c₁ c₂ : Color) (a b : Addr) (x : Entry) (fuel : Nat),
      Represents noLoose s (plug π (.node c (.leaf c₁ a) x (.leaf c₂ b))) →
      s.root = some (addr (plug π (.node c (.leaf c₁ a) x (.leaf c₂ b)))) →
      WellFormed (plug π (.node c (.leaf c₁ a) x (.leaf c₂ b))) → π ≠ [] →
      ∃ s', deleteNode fuel (some x.addr) s = .ok ((), s') ∧ KeepsLaws s' := by
  intro h
  let f : Frame Entry Addr :=
    ⟨.left, BLACK, ⟨0, 2, 0⟩, .node RED (.leaf BLACK 5) ⟨2, 3, 2⟩ (.leaf BLACK 6)⟩
  have hr : Represents noLoose threeNodesMemory
      (plug [f] (.node RED (.leaf BLACK 3) ⟨1, 1, 1⟩ (.leaf BLACK 4))) := represents_threeNodes
  obtain ⟨s', hrun, hkeeps⟩ := h _ _ _ _ _ _ _ _ 0 hr rfl wellFormed_threeNodes (by simp)
  obtain ⟨s'', hrun', hiff⟩ := deleteNode_leaf_topmost 0 hr rfl
  rw [hrun'] at hrun
  obtain ⟨-, rfl⟩ := Prod.mk.inj (Except.ok.inj hrun)
  have hred := (hiff.1 hkeeps).leaves RED (by simp [f, Frame.fill, Tree.leafColors])
  cases hred

/-! ## Deletions of the minimum -/

/-- A red-black search tree with a black topmost node, up to its leftmost nil node: that node may be
red, and the way to it may meet one black node fewer than the others. -/
structure NearlyWellFormed (t : RbTree) : Prop where
  inner : t.isLeaf = false
  black : t.color = BLACK
  laws : NearLaws t
  ordered : Ordered Entry.value t

/-- A nearly well-formed tree is nearly red-black. -/
theorem NearlyWellFormed.near {t : RbTree} (h : NearlyWellFormed t) : Near t :=
  near_iff.2 ⟨Tree.not_redInner_of_black h.black, h.laws⟩

theorem NearlyWellFormed.of_near {t : RbTree} (hinner : t.isLeaf = false) (h : Near t)
    (ho : Ordered Entry.value t) : NearlyWellFormed t := by
  obtain ⟨hred, hlaws⟩ := near_iff.1 h
  exact ⟨hinner, color_ne_red fun e => hred ⟨hinner, e⟩, hlaws, ho⟩

/-- The tree under the node `top` of memory is nearly well-formed and holds the pairs `l` in its
order. Without a topmost node there are no pairs. -/
def NearlyWellFormedUnder (s : Memory) (top : Ptr) (l : List (Int × Int)) : Prop :=
  match top with
  | none => l = []
  | some a =>
    ∃ t, Represents noLoose s t ∧ addr t = a ∧ NearlyWellFormed t ∧ pairs t = l

/-- `deleteNode` of the smallest entry leaves nothing, or a tree with `root` in it. -/
theorem deleteMinimum_root {s s' : Memory} {t : RbTree} {f : Frame Entry Addr} {ρ : RbPath}
    (hf : minPath t = f :: ρ) (hroot : s.root = some (addr t))
    (hroot' : s'.root = rootAfter f ρ s.root) :
    (s'.root = NULL ∧ (plug ρ f.sib).toList = []) ∨
      ∃ y ∈ (plug ρ f.sib).toList, s'.root = some y.addr := by
  by_cases h : ρ = [] ∧ f.sib.isLeaf = true
  · obtain ⟨rfl, hleaf⟩ := h
    refine Or.inl ⟨by simp [hroot', rootAfter, hleaf], ?_⟩
    cases hsib : f.sib with
    | leaf c a => rfl
    | node c l x r => simp [hsib] at hleaf
  · refine Or.inr ?_
    have hplug := plug_minPath t
    rw [hf, plug_cons] at hplug
    rw [← hplug] at hroot
    refine exists_mem_root hroot ?_ ?_
    · rw [hroot', rootAfter]
      cases hρ : ρ with
      | nil => simp [show f.sib.isLeaf = false by simpa [hρ] using h]
      | cons g σ => rfl
    · by_cases hρ : ρ = []
      · exact Or.inr (by simpa [hρ] using h)
      · exact Or.inl hρ

/-- One round of the second loop of `main` on a nearly well-formed tree: `leftmostNode` finds the
smallest entry, and its deletion leaves a nearly well-formed tree with the other pairs. -/
theorem deleteMinimum_step {s : Memory} {l : List (Int × Int)} {fuel : Nat}
    (hs : NearlyWellFormedUnder s s.root l) (hne : s.root ≠ NULL) (hfuel : l.length < fuel) :
    ∃ p n l' s' top, leftmostNode fuel s.root s = .ok (some p, s) ∧ s.heap p = some n ∧
      n.type = .ALLOCATED ∧ l = (n.value, n.pid) :: l' ∧ (∀ q ∈ l', n.value < q.1) ∧
      deleteNode fuel (some p) s = .ok ((), s') ∧ Topmost s' top ∧
      NearlyWellFormedUnder s' top l' := by
  cases hroot : s.root with
  | none => exact absurd hroot hne
  | some a =>
    rw [hroot] at hs
    obtain ⟨t, hr, rfl, hwf, rfl⟩ := hs
    have hlen : t.toList.length < fuel := by simpa [pairs] using hfuel
    -- the least value is at the last frame of the path to the left
    obtain ⟨f, ρ, hf, hlist⟩ := toList_deleteMin Entry.addr hwf.inner
    have hplug := plug_minPath t
    rw [hf] at hplug
    have hρ : ρ.length < fuel := by
      have h := length_le_length_plug (f :: ρ) (minLeaf t)
      rw [hplug, List.length_cons] at h
      omega
    have hheight := lt_of_le_of_lt (Tree.height_le_length t) hlen
    have hleft := leftmostNode_run hr hheight hf fun h => h
    obtain ⟨s', hrun, hr', hroot', -⟩ := deleteNode_run hr hroot hf hwf.near hρ
    have hx : s.heap f.x.addr = _ := Represents.heap_frame (hplug ▸ hr)
    have hord := hwf.ordered
    rw [Ordered, hlist, List.pairwise_cons] at hord
    have hrest : (deleteMin Entry.addr t).toList = (plug ρ f.sib).toList :=
      (List.cons.inj (hlist.symm.trans (toList_eq_cons hf))).2
    -- what is left is empty, or has a top that is found from `root`
    obtain ⟨top, htop, hunder⟩ : ∃ top, Topmost s' top ∧
        NearlyWellFormedUnder s' top (pairs (deleteMin Entry.addr t)) := by
      rcases deleteMinimum_root hf hroot hroot' with ⟨hnull, hnil⟩ | ⟨y, hy, hay⟩
      · exact ⟨none, hnull, by simp [NearlyWellFormedUnder, pairs, hrest, hnil]⟩
      · rw [← hrest] at hy
        exact ⟨_, hr'.topmost hy hay, _, hr', rfl,
          .of_near (inner_of_mem hy) (near_deleteMin Entry.addr hwf.near) hord.2, rfl⟩
    refine ⟨f.x.addr, _, _, s', top, hleft, hx, by simp, ?_, ?_, hrun, htop, hunder⟩
    · simp [pairs, hlist]
    · intro q hq
      obtain ⟨y, hy, rfl⟩ := List.mem_map.1 hq
      rw [cell_value]
      exact hord.1 y hy

theorem deleteMinimum_step_three :
    ∃ p n l' s' top, leftmostNode 4 threeNodesMemory.root threeNodesMemory =
        .ok (some p, threeNodesMemory) ∧ threeNodesMemory.heap p = some n ∧
      n.type = .ALLOCATED ∧ [(1, 1), (2, 0), (3, 2)] = (n.value, n.pid) :: l' ∧
      (∀ q ∈ l', n.value < q.1) ∧
      deleteNode 4 (some p) threeNodesMemory = .ok ((), s') ∧ Topmost s' top ∧
      NearlyWellFormedUnder s' top l' :=
  deleteMinimum_step ⟨threeNodes, represents_threeNodes, rfl,
    .of_near rfl (near_of_bal bal_threeNodes) wellFormed_threeNodes.ordered, rfl⟩ (by decide)
    (by decide)

end EE516.RedBlackTree
