import EE516.Foundations.RedBlackDelete
import EE516.RedBlackTree.Frame

/-!
# Deletion in memory

The six cases of the repair compute `endDelete` and `fixDelete` of the abstract tree
(`delete_case1_run`). `leftmostNode` finds the smallest entry (`leftmostNode_run`), and
`deleteNode` of it computes `deleteMin` (`deleteNode_run`).
-/

set_option autoImplicit false

namespace EE516.RedBlackTree

open EE516.Foundations.ColorTree
open EE516.Foundations.ColorTree.Tree (mk)

variable {loose : Addr → Prop}

/-! ## The repair -/

/-- The parent pointer of the root of the subtree is not exempt. -/
def Tight (loose : Addr → Prop) (t : RbTree) : Prop :=
  t.isLeaf = true → ¬ loose (addr t)

section Repair

variable {s : Memory} {π : RbPath} {sd : Side} {c d : Color} {t near far : RbTree} {x y : Entry}

theorem Represents.heap_tight (hr : Represents loose s (plug π t)) (ht : Tight loose t) :
    ∃ n, s.heap (addr t) = some n ∧ n.color = t.color ∧ n.type = nodeType t ∧
      n.parent = holder π := by
  cases t with
  | leaf e a =>
    obtain ⟨n, hn, hc, hty, hp⟩ := hr.heap_root
    exact ⟨n, hn, hc, hty, hp (ht rfl)⟩
  | node e l z r => exact ⟨_, hr.heap_node, rfl, rfl, rfl⟩

theorem sibling_run {f : Frame Entry Addr} (hr : Represents loose s (plug (f :: π) t))
    (ht : Tight loose t) : sibling (some (addr t)) s = .ok (some (addr f.sib), s) := by
  obtain ⟨n, hn, -, -, hp⟩ := hr.heap_tight ht
  have hf := hr.heap_frame
  have hnd := hr.nodup_plug
  have h₁ := addr_mem_addrs t
  have h₂ := addr_mem_addrs f.sib
  simp only [pathAddrs, List.nodup_append, List.nodup_cons, List.mem_append,
    List.cons_append] at hnd
  have hne : addr t ≠ addr f.sib := by grind
  obtain ⟨fs, fc, fx, fsib⟩ := f
  simp only [holder_cons] at hf hne hp
  cases fs <;> simp [sibling, run_bind, run_map, load, hn, hp, hf, hne]

/-- What the repair reads around the node `t`, whose sibling is `y`. -/
theorem Represents.heap_repair (hr : Represents loose s (plug π (mk sd c t x (mk sd d near y far))))
    (ht : Tight loose t) :
    (∃ n, s.heap (addr t) = some n ∧ n.parent = some x.addr) ∧
      s.heap x.addr = some (cell sd (holder π) c (addr t) x y.addr) ∧
      s.heap y.addr = some (cell sd (some x.addr) d (addr near) y (addr far)) ∧
      (∃ n, s.heap (addr near) = some n ∧ n.color = near.color) ∧
      (∃ n, s.heap (addr far) = some n ∧ n.color = far.color) ∧ addr t ≠ y.addr ∧
      sibling (some (addr t)) s = .ok (some y.addr, s) := by
  have hrt : Represents loose s (plug (⟨sd, c, x, mk sd d near y far⟩ :: π) t) := hr
  have hry : Represents loose s (plug (⟨sd.other, c, x, t⟩ :: π) (mk sd d near y far)) :=
    hr.focus (by simp [Tree.mk_other])
  have hrn : Represents loose s
      (plug (⟨sd, d, y, far⟩ :: ⟨sd.other, c, x, t⟩ :: π) near) := hry
  have hrf : Represents loose s
      (plug (⟨sd.other, d, y, near⟩ :: ⟨sd.other, c, x, t⟩ :: π) far) :=
    hry.focus (by simp [Tree.mk_other])
  obtain ⟨n, hn, -, -, hp⟩ := hrt.heap_tight ht
  obtain ⟨nn, hnn, hcn, -⟩ := hrn.heap_root
  obtain ⟨nf, hnf, hcf, -⟩ := hrf.heap_root
  have hnd := hrn.nodup_plug
  have h₁ := addr_mem_addrs t
  simp only [pathAddrs, List.nodup_append, List.nodup_cons, List.mem_append, List.mem_cons,
    List.cons_append] at hnd
  have hx := hr.heap_mk
  have hsib := sibling_run hrt ht
  simp only [addr_mk] at hx hsib
  exact ⟨⟨n, hn, hp⟩, hx, hry.heap_mk, ⟨nn, hnn, hcn⟩, ⟨nf, hnf, hcf⟩, by grind, hsib⟩

/-- The condition of cases 3 and 4. -/
theorem condition_run (hr : Represents loose s (plug π (mk sd c t x (mk sd d near y far))))
    (ht : Tight loose t) (k : Color) {b : Bool}
    (hb : decide (c = k ∧ d = BLACK ∧ near.color = BLACK ∧ far.color = BLACK) = b) :
    both (do return (← load (← load (some (addr t))).parent).color = k)
      (both (do return (← load (some y.addr)).color = BLACK)
        (both (do return (← load (← load (some y.addr)).left).color = BLACK)
          (do return (← load (← load (some y.addr)).right).color = BLACK))) s =
      .ok (b, s) := by
  obtain ⟨⟨n, hn, hp⟩, hx, hy, ⟨nn, hnn, hcn⟩, ⟨nf, hnf, hcf⟩, -, -⟩ := hr.heap_repair ht
  subst hb
  rw [← hcn, ← hcf]
  by_cases h₁ : c = k
  · by_cases h₂ : d = BLACK
    · by_cases h₃ : nn.color = BLACK <;> by_cases h₄ : nf.color = BLACK <;> cases sd <;>
        simp [both, run_bind, run_map, load, hn, hp, hx, h₁, hy, h₂, hnn, h₃, hnf, h₄]
    · simp [both, run_bind, run_map, load, hn, hp, hx, h₁, hy, h₂]
  · simp [both, run_bind, run_map, load, hn, hp, hx, h₁]

/-- The last case rotates at the parent. -/
theorem delete_case6_run (hr : Represents loose s (plug π (mk sd c t x (mk sd d near y far))))
    (ht : Tight loose t) :
    ∃ s', delete_case6 (some (addr t)) s = .ok ((), s') ∧
      Represents loose s' (plug π (mk sd c (mk sd BLACK t x near) y (far.setColor BLACK))) ∧
      s'.root = s.root ∧ s'.brk = s.brk := by
  have hry : Represents loose s (plug (⟨sd.other, c, x, t⟩ :: π) (mk sd d near y far)) :=
    hr.focus (by simp [Tree.mk_other])
  obtain ⟨s₁, hrun₁, hr₁, hroot₁, hbrk₁⟩ := hry.setColor_run c
  have hr₁ : Represents loose s₁ (plug π (mk sd c t x (mk sd c near y far))) :=
    hr₁.focus (by simp [Tree.mk_other])
  obtain ⟨s₂, hrun₂, hr₂, hroot₂, hbrk₂⟩ := hr₁.setColor_run BLACK
  have hrf : Represents loose s₂
      (plug (⟨sd.other, c, y, near⟩ :: ⟨sd.other, BLACK, x, t⟩ :: π) far) :=
    hr₂.focus (by simp [Tree.mk_other])
  obtain ⟨s₃, hrun₃, hr₃, hroot₃, hbrk₃⟩ := hrf.recolor_run BLACK
  have hr₃ : Represents loose s₃
      (plug π (mk sd BLACK t x (mk sd c near y (far.setColor BLACK)))) :=
    hr₃.focus (by simp [Tree.mk_other])
  obtain ⟨s₄, hrun₄, hr₄, hroot₄, hbrk₄⟩ := hr₃.rotate_run
  obtain ⟨⟨n, hn, hp⟩, hx, -, -, -, -, hsib⟩ := hr.heap_repair ht
  obtain ⟨⟨n₁, hn₁, hp₁⟩, -, -, -, -, -, -⟩ := hr₁.heap_repair ht
  obtain ⟨⟨n₂, hn₂, hp₂⟩, hx₂, hy₂, -, -, hne, -⟩ := hr₂.heap_repair ht
  obtain ⟨⟨n₃, hn₃, hp₃⟩, -, -, -, -, -, -⟩ := hr₃.heap_repair ht
  refine ⟨s₄, ?_, hr₄, by rw [hroot₄, hroot₃, hroot₂, hroot₁],
    by rw [hbrk₄, hbrk₃, hbrk₂, hbrk₁]⟩
  cases sd <;> simp only [rotateCode] at hrun₄ <;>
    simp [delete_case6, run_bind, hsib, load, hn, hp, hx, hrun₁, hn₁, hp₁, hrun₂, hn₂,
      hp₂, hx₂, hy₂, hne, hrun₃, hn₃, hp₃, hrun₄]

/-- `delete_case5` when the outer child of the sibling is red: nothing to do before case 6. -/
theorem delete_case5_outer_run
    (hr : Represents loose s (plug π (mk sd c t x (mk sd BLACK near y far)))) (ht : Tight loose t)
    (hfar : far.color = RED) :
    ∃ s', delete_case5 (some (addr t)) s = .ok ((), s') ∧
      Represents loose s' (plug π (mk sd c (mk sd BLACK t x near) y (far.setColor BLACK))) ∧
      s'.root = s.root ∧ s'.brk = s.brk := by
  obtain ⟨s', hrun, hrest⟩ := delete_case6_run hr ht
  obtain ⟨⟨n, hn, hp⟩, hx, hy, ⟨nn, hnn, hcn⟩, ⟨nf, hnf, hcf⟩, hne, hsib⟩ := hr.heap_repair ht
  rw [hfar] at hcf
  refine ⟨s', ?_, hrest⟩
  cases sd <;>
    simp [delete_case5, both, run_bind, hsib, load, hn, hp, hx, hy, hne, hnf, hcf, hrun]

/-- `delete_case5` when only the inner child of the sibling is red: it is lifted over the sibling
first. -/
theorem delete_case5_inner_run {e : Color} {a b : RbTree} {z : Entry}
    (hr : Represents loose s (plug π (mk sd c t x (mk sd BLACK (mk sd e a z b) y far))))
    (ht : Tight loose t) (hnear : e = RED) (hfar : far.color = BLACK) :
    ∃ s', delete_case5 (some (addr t)) s = .ok ((), s') ∧
      Represents loose s' (plug π (mk sd c (mk sd BLACK t x a) z (mk sd BLACK b y far))) ∧
      s'.root = s.root ∧ s'.brk = s.brk := by
  subst hnear
  have hry : Represents loose s
      (plug (⟨sd.other, c, x, t⟩ :: π) (mk sd BLACK (mk sd RED a z b) y far)) :=
    hr.focus (by simp [Tree.mk_other])
  obtain ⟨s₁, hrun₁, hr₁, hroot₁, hbrk₁⟩ := hry.setColor_run RED
  have hrz : Represents loose s₁
      (plug (⟨sd, RED, y, far⟩ :: ⟨sd.other, c, x, t⟩ :: π) (mk sd RED a z b)) := hr₁
  obtain ⟨s₂, hrun₂, hr₂, hroot₂, hbrk₂⟩ := hrz.setColor_run BLACK
  -- the rotation towards the far side lifts the inner child `z` over the sibling
  have hrot : Represents loose s₂ (plug (⟨sd.other, c, x, t⟩ :: π)
      (mk sd.other RED far y (mk sd.other BLACK b z a))) :=
    hr₂.focus (by simp [Tree.mk_other])
  obtain ⟨s₃, hrun₃, hr₃, hroot₃, hbrk₃⟩ := hrot.rotate_run
  have hr₃ : Represents loose s₃ (plug π (mk sd c t x (mk sd BLACK a z (mk sd RED b y far)))) :=
    hr₃.focus (by simp [Tree.mk_other])
  obtain ⟨s₄, hrun₄, hr₄, hroot₄, hbrk₄⟩ := delete_case6_run hr₃ ht
  obtain ⟨⟨n, hn, hp⟩, hx, hy, ⟨nn, hnn, hcn⟩, ⟨nf, hnf, hcf⟩, hne, hsib⟩ := hr.heap_repair ht
  have hy₁ := hr₁.heap_mk
  rw [hfar] at hcf
  simp only [addr_mk, Tree.color_mk] at hy hy₁ hnn hcn
  refine ⟨s₄, ?_, by simpa using hr₄, by rw [hroot₄, hroot₃, hroot₂, hroot₁],
    by rw [hbrk₄, hbrk₃, hbrk₂, hbrk₁]⟩
  cases sd <;> simp only [rotateCode, Side.other] at hrun₃ <;>
    simp [delete_case5, both, run_bind, run_map, hsib, load, hn, hp, hx, hy, hne, hnn, hcn, hnf,
      hcf, hrun₁, hy₁, hrun₂, hrun₃, hrun₄]

/-- Cases 4 to 6 compute `endDelete` when the parent or a child of the black sibling is red. -/
theorem delete_case4_run
    (hr : Represents loose s (plug π (mk sd c t x (mk sd BLACK near y far)))) (ht : Tight loose t)
    (hnear : near.color = RED → near.isLeaf = false)
    (hred : c = RED ∨ near.color = RED ∨ far.color = RED) :
    ∃ s', delete_case4 (some (addr t)) s = .ok ((), s') ∧
      Represents loose s' (endDelete t ⟨sd, c, x, mk sd BLACK near y far⟩ π) ∧
      s'.root = s.root ∧ s'.brk = s.brk := by
  obtain ⟨-, -, -, -, -, -, hsib⟩ := hr.heap_repair ht
  simp only [endDelete, Tree.parts_mk, Tree.setColor_mk]
  by_cases hall : c = RED ∧ near.color = BLACK ∧ far.color = BLACK
  · rw [if_pos hall]
    obtain ⟨hc, h₁, h₂⟩ := hall
    -- the sibling gets red, then the parent black
    have hry : Represents loose s (plug (⟨sd.other, c, x, t⟩ :: π) (mk sd BLACK near y far)) :=
      hr.focus (by simp [Tree.mk_other])
    obtain ⟨s₁, hrun₁, hr₁, hroot₁, hbrk₁⟩ := hry.setColor_run RED
    have hr₁ : Represents loose s₁ (plug π (mk sd c t x (mk sd RED near y far))) :=
      hr₁.focus (by simp [Tree.mk_other])
    obtain ⟨s₂, hrun₂, hr₂, hroot₂, hbrk₂⟩ := hr₁.setColor_run BLACK
    obtain ⟨⟨n₁, hn₁, hp₁⟩, -⟩ := hr₁.heap_repair ht
    refine ⟨s₂, ?_, hr₂, by rw [hroot₂, hroot₁], by rw [hbrk₂, hbrk₁]⟩
    have hcond := condition_run hr ht RED (b := true) (by simp [hc, h₁, h₂])
    simp only [delete_case4, run_bind, hsib, hcond, if_true, hrun₁, load_run hn₁, hp₁, hrun₂]
  · rw [if_neg hall]
    -- otherwise the case is passed on, and one child of the sibling is red
    have hcase5 : delete_case4 (some (addr t)) s = delete_case5 (some (addr t)) s := by
      have hcond := condition_run hr ht RED (b := false) (by simpa using hall)
      simp only [delete_case4, run_bind, hsib, hcond, Bool.false_eq_true, if_false]
    rw [hcase5]
    cases hfar : far.color with
    | red =>
      rw [if_neg (by simp)]
      exact delete_case5_outer_run hr ht hfar
    | black =>
      have hn : near.color = RED := by
        cases h₀ : c <;> cases h₁ : near.color <;> simp_all
      obtain ⟨e, a, z, b, rfl⟩ : ∃ e a z b, near = mk sd e a z b := by
        cases near with
        | leaf e m => cases hnear hn
        | node e l z r =>
          cases sd
          · exact ⟨e, l, z, r, rfl⟩
          · exact ⟨e, r, z, l, rfl⟩
      simp only [if_true, Tree.parts_mk]
      exact delete_case5_inner_run hr ht (by simpa using hn) hfar

/-- Case 3 on, with a black sibling. -/
theorem delete_case3_end_run (case1 : Ptr → Exec Unit)
    (hr : Represents loose s (plug π (mk sd c t x (mk sd BLACK near y far)))) (ht : Tight loose t)
    (hnear : near.color = RED → near.isLeaf = false)
    (hred : c = RED ∨ near.color = RED ∨ far.color = RED) :
    ∃ s', delete_case3 case1 (some (addr t)) s = .ok ((), s') ∧
      Represents loose s' (endDelete t ⟨sd, c, x, mk sd BLACK near y far⟩ π) ∧
      s'.root = s.root ∧ s'.brk = s.brk := by
  obtain ⟨s', hrun, hrest⟩ := delete_case4_run hr ht hnear hred
  obtain ⟨-, -, -, -, -, -, hsib⟩ := hr.heap_repair ht
  have hall : ¬ (c = BLACK ∧ near.color = BLACK ∧ far.color = BLACK) := by
    rintro ⟨h₀, h₁, h₂⟩
    rw [h₀, h₁, h₂] at hred
    simp at hred
  have hcond := condition_run hr ht BLACK (b := false) (by simpa using hall)
  refine ⟨s', ?_, hrest⟩
  simpa only [delete_case3, run_bind, hsib, hcond, Bool.false_eq_true, if_false] using hrun

/-- Case 3 when the parent, the sibling and its children are black: the sibling becomes red and the
repair goes on at the parent. -/
theorem delete_case3_black_run (case1 : Ptr → Exec Unit)
    (hr : Represents loose s (plug π (mk sd BLACK t x (mk sd BLACK near y far))))
    (ht : Tight loose t) (hnear : near.color = BLACK) (hfar : far.color = BLACK) :
    ∃ s', delete_case3 case1 (some (addr t)) s = case1 (some x.addr) s' ∧
      Represents loose s' (plug π (mk sd BLACK t x (mk sd RED near y far))) ∧
      s'.root = s.root ∧ s'.brk = s.brk := by
  obtain ⟨-, -, -, -, -, -, hsib⟩ := hr.heap_repair ht
  have hry : Represents loose s (plug (⟨sd.other, BLACK, x, t⟩ :: π) (mk sd BLACK near y far)) :=
    hr.focus (by simp [Tree.mk_other])
  obtain ⟨s₁, hrun₁, hr₁, hroot₁, hbrk₁⟩ := hry.setColor_run RED
  have hr₁ : Represents loose s₁ (plug π (mk sd BLACK t x (mk sd RED near y far))) :=
    hr₁.focus (by simp [Tree.mk_other])
  obtain ⟨⟨n₁, hn₁, hp₁⟩, -⟩ := hr₁.heap_repair ht
  have hcond := condition_run hr ht BLACK (b := true) (by simp [hnear, hfar])
  refine ⟨s₁, ?_, hr₁, hroot₁, hbrk₁⟩
  simp only [delete_case3, run_bind, hsib, hcond, if_true, hrun₁, load_run hn₁, hp₁]

/-- Case 2 when the sibling is red: it is lifted over the parent, and its black inner child is the
sibling for the cases that follow. -/
theorem delete_case2_red_run {a b : RbTree} {z : Entry} (case1 : Ptr → Exec Unit)
    (hr : Represents loose s
      (plug π (mk sd BLACK t x (mk sd RED (mk sd BLACK a z b) y far))))
    (ht : Tight loose t) (ha : a.color = RED → a.isLeaf = false) :
    ∃ s', delete_case2 case1 (some (addr t)) s = .ok ((), s') ∧
      Represents loose s'
        (endDelete t ⟨sd, RED, x, mk sd BLACK a z b⟩ (⟨sd, BLACK, y, far⟩ :: π)) ∧
      s'.root = s.root ∧ s'.brk = s.brk := by
  obtain ⟨⟨n, hn, hp⟩, -, hy, -, -, -, hsib⟩ := hr.heap_repair ht
  obtain ⟨s₁, hrun₁, hr₁, hroot₁, hbrk₁⟩ := hr.setColor_run RED
  have hry : Represents loose s₁
      (plug (⟨sd.other, RED, x, t⟩ :: π) (mk sd RED (mk sd BLACK a z b) y far)) :=
    hr₁.focus (by simp [Tree.mk_other])
  obtain ⟨s₂, hrun₂, hr₂, hroot₂, hbrk₂⟩ := hry.setColor_run BLACK
  have hr₂ : Represents loose s₂
      (plug π (mk sd RED t x (mk sd BLACK (mk sd BLACK a z b) y far))) :=
    hr₂.focus (by simp [Tree.mk_other])
  obtain ⟨s₃, hrun₃, hr₃, hroot₃, hbrk₃⟩ := hr₂.rotate_run
  have hr₃ : Represents loose s₃
      (plug (⟨sd, BLACK, y, far⟩ :: π) (mk sd RED t x (mk sd BLACK a z b))) := hr₃
  -- the parent is red now, so that case 3 does not start another round
  obtain ⟨s₄, hrun₄, hr₄, hroot₄, hbrk₄⟩ :=
    delete_case3_end_run case1 hr₃ ht ha (Or.inl rfl)
  obtain ⟨⟨n₂, hn₂, hp₂⟩, hx₂, -, -, -, hne₂, -⟩ := hr₂.heap_repair ht
  refine ⟨s₄, ?_, hr₄, by rw [hroot₄, hroot₃, hroot₂, hroot₁],
    by rw [hbrk₄, hbrk₃, hbrk₂, hbrk₁]⟩
  cases sd <;> simp only [rotateCode] at hrun₃ <;>
    simp [delete_case2, run_bind, hsib, load, hy, hn, hp, hrun₁, hrun₂, hn₂, hp₂, hx₂, hne₂,
      hrun₃, hrun₄]

/-- The repair of the program computes `fixDelete`, and no call of it dereferences `NULL`. -/
theorem delete_case1_run : ∀ (π : RbPath) (fuel : Nat) {s : Memory} {p : Color} {n : Nat}
    {t : RbTree}, π.length < fuel → Represents loose s (plug π t) → PathBal π p (n + 1) →
    Bal t BLACK n → Tight loose t →
    ∃ s', delete_case1 fuel (some (addr t)) s = .ok ((), s') ∧
      Represents loose s' (fixDelete t π) ∧ s'.root = s.root ∧ s'.brk = s.brk
  | [], fuel + 1, s, p, n, t, _, hr, _, _, htight => by
    obtain ⟨nt, hn, -, -, hp⟩ := hr.heap_tight htight
    exact ⟨s, by simp [delete_case1, run_bind, load, hn, hp], hr, rfl, rfl⟩
  | f :: π, fuel + 1, s, p, n, t, hfuel, hr, hπ, ht, htight => by
    obtain ⟨sd, c, x, sib⟩ := f
    -- the sibling is one level of black nodes higher than `t`, so it is an inner node
    obtain ⟨d, hsib⟩ : ∃ d, Bal sib d (n + 1) := by
      cases hπ with
      | red _ _ _ hsib => exact ⟨_, hsib⟩
      | black _ _ _ hsib => exact ⟨_, hsib⟩
    obtain ⟨e, near, y, far, rfl⟩ : ∃ e near y far, sib = mk sd e near y far := by
      cases sib with
      | leaf e m => cases hsib
      | node e l y r =>
        obtain ⟨u, v, huv⟩ := Tree.exists_mk sd e l y r
        exact ⟨e, u, y, v, huv⟩
    have hr₀ : Represents loose s (plug π (mk sd c t x (mk sd e near y far))) := hr
    obtain ⟨⟨nt, hn, hp⟩, -, hy, -, -, -, hsibling⟩ := hr₀.heap_repair htight
    have hcase1 : delete_case1 (fuel + 1) (some (addr t)) s =
        delete_case2 (delete_case1 fuel) (some (addr t)) s := by
      simp [delete_case1, run_bind, load, hn, hp]
    rw [hcase1, fixDelete]
    simp only [Tree.parts_mk, Tree.color_mk]
    cases e with
    | red =>
      rw [if_pos rfl]
      -- a red sibling has a black parent and black children
      obtain rfl : c = BLACK := by
        cases hπ with
        | red _ _ _ hsib' => cases hsib'.color_eq.symm.trans (Tree.color_mk ..)
        | black => rfl
      obtain ⟨rfl, hnear, -⟩ := hsib.of_mk_red
      obtain ⟨a, z, b, rfl⟩ : ∃ a z b, near = mk sd BLACK a z b := by
        cases hnear with
        | @black l r _ _ _ z =>
          obtain ⟨u, v, huv⟩ := Tree.exists_mk sd BLACK l z r
          exact ⟨u, z, v, huv⟩
      obtain ⟨_, _, _, _, _, ha, _⟩ := hnear.of_mk_black
      exact delete_case2_red_run (delete_case1 fuel) hr₀ htight ha.inner_of_red
    | black =>
      rw [if_neg (by simp)]
      have hcase2 : delete_case2 (delete_case1 fuel) (some (addr t)) s =
          delete_case3 (delete_case1 fuel) (some (addr t)) s := by
        simp [delete_case2, run_bind, hsibling, load, hy]
      rw [hcase2]
      obtain ⟨m, c₁, c₂, hm, rfl, hnear, hfar⟩ := hsib.of_mk_black
      obtain rfl : m = n := by omega
      split
      · rename_i hall
        obtain ⟨rfl, h₁, h₂⟩ := hall
        obtain ⟨s₁, hrun₁, hr₁, hroot₁, hbrk₁⟩ :=
          delete_case3_black_run (delete_case1 fuel) hr₀ htight h₁ h₂
        rw [hnear.color_eq] at h₁
        rw [hfar.color_eq] at h₂
        subst h₁ h₂
        cases hπ with
        | black _ _ hπ _ =>
          -- the next round is at the parent, whose subtree now lacks a black node on both sides
          obtain ⟨s₂, hrun₂, hr₂, hroot₂, hbrk₂⟩ := delete_case1_run π fuel
            (by simp at hfuel; omega) hr₁ hπ (ht.mk_black sd x (hnear.mk_red sd y hfar))
            (by cases sd <;> simp [Tight])
          rw [addr_mk] at hrun₂
          rw [Tree.setColor_mk]
          exact ⟨s₂, by rw [hrun₁, hrun₂], hr₂, by rw [hroot₂, hroot₁], by rw [hbrk₂, hbrk₁]⟩
      · rename_i hall
        refine delete_case3_end_run (delete_case1 fuel) hr₀ htight hnear.inner_of_red ?_
        cases c <;> cases h₁ : near.color <;> cases h₂ : far.color <;> simp_all

end Repair

/-! ## The smallest entry -/

/-- `leftmostNode` ends at the leftmost nil node and returns its parent pointer. -/
theorem leftmostLoop_run {s : Memory} {t : RbTree} : ∀ (π : RbPath) {fuel : Nat},
    Represents loose s (plug π t) → t.height < fuel →
    ∃ n, s.heap (addr (minLeaf t)) = some n ∧
      leftmostLoop fuel (some (addr t)) s = .ok (n.parent, s) ∧
      (¬ loose (addr (minLeaf t)) → n.parent = holder (minPath t ++ π)) := by
  induction t with
  | leaf c a =>
    intro π fuel hr hfuel
    obtain ⟨fuel, rfl⟩ : ∃ k, fuel = k + 1 := ⟨fuel - 1, by omega⟩
    obtain ⟨n, hn, -, hty, hp⟩ := hr.heap_root
    rw [nodeType_leaf] at hty
    rw [addr_leaf] at hn
    exact ⟨n, hn, by simp [leftmostLoop, run_bind, load, hn, hty], hp⟩
  | node c l x r ihl _ =>
    intro π fuel hr hfuel
    obtain ⟨fuel, rfl⟩ : ∃ k, fuel = k + 1 := ⟨fuel - 1, by omega⟩
    rw [Tree.height_node] at hfuel
    have hrl : Represents loose s (plug (⟨.left, c, x, r⟩ :: π) l) := hr
    obtain ⟨n, hn, hrun, hp⟩ := ihl _ hrl (by omega : l.height < fuel)
    have hx := hr.heap_node
    refine ⟨n, hn, ?_, by simpa [minPath, minLeaf] using hp⟩
    simpa [leftmostLoop, run_bind, load, hx] using hrun

/-- `leftmostNode` finds the node with the least value. -/
theorem leftmostNode_run {s : Memory} {t : RbTree} {fuel : Nat} {f : Frame Entry Addr} {ρ : RbPath}
    (hr : Represents loose s t) (hfuel : t.height < fuel) (hf : minPath t = f :: ρ)
    (hleaf : ¬ loose (addr (minLeaf t))) :
    leftmostNode fuel (some (addr t)) s = .ok (some f.x.addr, s) := by
  obtain ⟨n, -, hrun, hp⟩ := leftmostLoop_run [] hr hfuel
  rw [hp hleaf, hf] at hrun
  simpa [leftmostNode] using hrun

/-! ## Deleting a node -/

/-- A node without inner children becomes a nil node. -/
theorem deleteNode_leaf_run {s : Memory} {ρ : RbPath} {c c₁ c₂ : Color} {a b : Addr} {x : Entry}
    (fuel : Nat) (hr : Represents loose s (plug ρ (.node c (.leaf c₁ a) x (.leaf c₂ b)))) :
    ∃ s', deleteNode fuel (some x.addr) s = .ok ((), s') ∧
      Represents loose s' (plug ρ (.leaf c x.addr)) ∧
      s'.root = (if s.root = some x.addr then NULL else s.root) ∧ s'.brk = s.brk := by
  have hx := hr.heap_node
  have hra : Represents loose s (plug (⟨.left, c, x, .leaf c₂ b⟩ :: ρ) (.leaf c₁ a)) := hr
  have hrb : Represents loose s (plug (⟨.right, c, x, .leaf c₁ a⟩ :: ρ) (.leaf c₂ b)) := hr
  obtain ⟨na, hna, -, hta, -⟩ := hra.heap_root
  obtain ⟨nb, hnb, -, htb, -⟩ := hrb.heap_root
  have hnd := hr.nodup_plug
  simp only [addrs_node, addrs_leaf, addr_leaf, nodeType_leaf, List.nodup_append, List.nodup_cons,
    List.mem_cons, List.cons_append, List.nil_append] at hnd hx hna hnb hta htb
  have h₁ : x.addr ≠ a := by grind
  have h₂ : x.addr ≠ b := by grind
  have h₃ : a ≠ b := by grind
  -- what the run writes; `root` is cleared if it named the node
  have key : ∃ s', deleteNode fuel (some x.addr) s = .ok ((), s') ∧
      s'.root = (if s.root = some x.addr then NULL else s.root) ∧ s'.brk = s.brk ∧
      s'.heap x.addr = some ⟨holder ρ, NULL, NULL, x.pid, x.value, c, .NIL⟩ ∧
      ∀ d, d ≠ x.addr → d ≠ a → d ≠ b → s'.heap d = s.heap d := by
    by_cases hroot : s.root = some x.addr
    · simp [deleteNode, both, run_bind, run_map, load, hx, hna, hnb, hta, htb, free, h₁, h₂,
        h₃, setRight, setLeft, setType, store, cell, hroot]
      grind
    · have hroot' : ¬ some x.addr = s.root := fun e => hroot e.symm
      simp [deleteNode, both, run_bind, run_map, load, hx, hna, hnb, hta, htb, free, h₁, h₂,
        h₃, setRight, setLeft, setType, store, cell, hroot, hroot']
      grind
  obtain ⟨s', hrun, hroot, hbrk, hx', hother⟩ := key
  have hperm := addrs_plug_perm ρ (.leaf c x.addr)
  have hold := addrs_plug_perm ρ (.node c (.leaf c₁ a) x (.leaf c₂ b))
  refine ⟨s', hrun, ⟨?_, hperm.nodup_iff.2 ?_, fun d hd => ?_⟩, hroot, hbrk⟩
  · obtain ⟨hρ, -⟩ := reps_plug.1 hr.cells
    refine reps_plug.2 ⟨repsPath_congr (fun d hd => hother d ?_ ?_ ?_) hρ,
      ⟨_, hx', rfl, rfl, rfl, rfl, Or.inr rfl⟩⟩ <;> grind
  · simp only [addrs_leaf, List.nodup_append]
    grind
  · rw [hbrk]
    refine hr.lt_brk d (hold.mem_iff.2 ?_)
    have h := hperm.mem_iff.1 hd
    simp only [addrs_leaf, addrs_node, List.mem_append, List.mem_cons] at h ⊢
    grind

/-- What replacing a node by its child has to write. -/
theorem reps_splice {h h' : Heap} {ρ : RbPath} {sd : Side} {c : Color} {l u : RbTree} {x : Entry}
    (ht : Reps loose h NULL (plug ρ (mk sd c l x u)))
    (hnd : (addrs (plug ρ (mk sd c l x u))).Nodup)
    (hu : h' (addr u) = (h (addr u)).map fun n => { n with parent := holder ρ })
    (hρ : ∀ f σ, ρ = f :: σ →
      h' f.x.addr = some (cell f.side (holder σ) f.c (addr u) f.x (addr f.sib)))
    (hother : ∀ a, a ≠ addr u → some a ≠ holder ρ → h' a = h a) :
    Reps loose h' NULL (plug ρ u) := by
  obtain ⟨hp, ht⟩ := reps_plug.1 ht
  obtain ⟨-, -, hur⟩ := reps_mk.1 ht
  have hnd : (pathAddrs ρ ++ x.addr :: (addrs l ++ addrs u)).Nodup := by
    refine List.Perm.nodup (.trans (addrs_plug_perm _ _) (.append_left _ ?_)) hnd
    exact addrs_mk_perm _ _ _ _ _
  have hum := addr_mem_addrs u
  simp only [List.nodup_append, List.nodup_cons, List.mem_append, List.mem_cons] at hnd
  refine reps_plug.2 ⟨?_, reps_adopt (by grind) hur hu fun a ha hne => hother a hne ?_⟩
  · cases ρ with
    | nil => trivial
    | cons f σ =>
      obtain ⟨-, hsib, hσ⟩ := hp
      simp only [pathAddrs, List.nodup_cons, List.mem_cons, List.mem_append, holder_cons]
        at hnd hother
      refine ⟨hρ f σ rfl, reps_congr (fun a ha => ?_) hsib, repsPath_congr (fun a ha => ?_) hσ⟩
      · exact hother a (by grind) (by grind)
      · exact hother a (by grind) (by grind)
  · cases ρ with
    | nil => simp
    | cons f σ =>
      simp only [pathAddrs, List.mem_cons, holder_cons] at hnd ⊢
      grind

/-- A tree with fewer nodes is represented by the same memory, where its cells are. -/
theorem Represents.of_sublist {s s' : Memory} {t t' : RbTree} {l : List Addr}
    (hr : Represents loose s t) (hp : (l ++ addrs t').Perm (addrs t)) (hb : s'.brk = s.brk)
    (hc : Reps loose s'.heap NULL t') : Represents loose s' t' := by
  have hnd := hp.nodup_iff.2 hr.nodup
  rw [List.nodup_append] at hnd
  exact ⟨hc, hnd.2.1, fun a ha => hb ▸ hr.lt_brk a (hp.mem_iff.1 (List.mem_append_right l ha))⟩

/-- The child takes the place of its parent, which is left alone. -/
theorem replaceByChild_run {s : Memory} {ρ : RbPath} {sd : Side} {c : Color} {l u : RbTree}
    {x : Entry} (hr : Represents loose s (plug ρ (mk sd c l x u))) :
    ∃ s', replaceByChild (some x.addr) (some (addr u)) s = .ok ((), s') ∧
      Represents loose s' (plug ρ u) ∧
      s'.root = (if ρ.isEmpty then some (addr u) else s.root) ∧ s'.brk = s.brk ∧
      s'.heap x.addr = s.heap x.addr ∧ x.addr ∉ addrs (plug ρ u) := by
  have hx := hr.heap_mk
  have hru : Represents loose s (plug (⟨sd.other, c, x, l⟩ :: ρ) u) :=
    hr.focus (by simp [Tree.mk_other])
  obtain ⟨nu, hnu, -, -, -⟩ := hru.heap_root
  have hnd := hru.nodup_plug
  have hum := addr_mem_addrs u
  have hperm := addrs_plug_perm ρ u
  simp only [pathAddrs, List.nodup_append, List.nodup_cons, List.mem_append,
    List.cons_append] at hnd
  have hxu : x.addr ≠ addr u := by grind
  -- the cells that change: the child, and the parent if there is one
  have key : ∃ s', replaceByChild (some x.addr) (some (addr u)) s = .ok ((), s') ∧
      s'.root = (if ρ.isEmpty then some (addr u) else s.root) ∧ s'.brk = s.brk ∧
      s'.heap x.addr = s.heap x.addr ∧
      s'.heap (addr u) = (s.heap (addr u)).map (fun n => { n with parent := holder ρ }) ∧
      (∀ f σ, ρ = f :: σ →
        s'.heap f.x.addr = some (cell f.side (holder σ) f.c (addr u) f.x (addr f.sib))) ∧
      ∀ a, a ≠ addr u → some a ≠ holder ρ → s'.heap a = s.heap a := by
    cases ρ with
    | nil =>
      simp [replaceByChild, run_bind, load, hx, setParent, store, hnu, hxu]
      grind
    | cons f σ =>
      have hf := Represents.heap_frame hr
      have hsib := addr_mem_addrs f.sib
      simp only [pathAddrs, List.mem_cons, List.mem_append] at hnd
      have hfx : f.x.addr ≠ x.addr := by grind
      have hfu : f.x.addr ≠ addr u := by grind
      have hsx : addr f.sib ≠ x.addr := by grind
      obtain ⟨fs, fc, fx, fsib⟩ := f
      simp only [holder_cons, addr_mk] at hf hx hfx hfu hsx
      cases fs <;>
        simp [replaceByChild, run_bind, load, hx, hf, setParent, setLeft, setRight, store, hnu,
          hxu, hfx.symm, hfu, hfu.symm, hsx] <;> grind [cell]
  obtain ⟨s', hrun, hroot, hbrk, h₁, h₂, h₃, h₄⟩ := key
  refine ⟨s', hrun, hr.of_sublist (l := x.addr :: addrs l) ?_ hbrk
    (reps_splice hr.cells hr.nodup h₂ h₃ h₄), hroot, hbrk, h₁, ?_⟩
  · refine .trans ?_ ((addrs_plug_perm ρ _).trans (.append_left _ (addrs_mk_perm _ _ _ _ _))).symm
    refine (hperm.append_left _).trans ?_
    simp only [List.cons_append]
    grind
  · rw [hperm.mem_iff, List.mem_append]
    grind

theorem Represents.set_outside {s : Memory} {t : RbTree} {a : Addr} (hr : Represents loose s t)
    (ha : a ∉ addrs t) (n : Rbtnode) : Represents loose (s.set a n) t := by
  refine hr.of_perm (.refl _) rfl (reps_congr (fun b hb => ?_) hr.cells)
  have : b ≠ a := fun e => ha (e ▸ hb)
  simp [this]

/-- An assignment to a node beside the tree. -/
theorem Represents.store_outside {s : Memory} {t : RbTree} {a : Addr} {k : Rbtnode}
    (hr : Represents loose s t) (ha : a ∉ addrs t) (hk : s.heap a = some k)
    (f : Rbtnode → Rbtnode) :
    ∃ s', store (some a) f s = .ok ((), s') ∧ Represents loose s' t ∧ s'.root = s.root ∧
      s'.brk = s.brk ∧ s'.heap a = some (f k) :=
  ⟨_, store_run hk f, hr.set_outside ha _, rfl, rfl, by simp⟩

/-- Memory without the node at `a`. -/
def Memory.erase (s : Memory) (a : Addr) : Memory :=
  { s with heap := fun b => if b = a then none else s.heap b }

theorem Memory.set_erase {s : Memory} {a : Addr} {n : Rbtnode} (h : s.heap a = some n) :
    (s.erase a).set a n = s := by
  have hheap : ((s.erase a).set a n).heap = s.heap := by
    funext b
    simp only [Memory.set_heap, Memory.erase]
    split <;> simp_all
  exact congrArg (fun h => Memory.mk s.root h s.brk) hheap

/-- Every node of a tree is allocated. -/
theorem reps_isSome {h : Heap} {p : Ptr} {t : RbTree} (ht : Reps loose h p t) {a : Addr}
    (ha : a ∈ addrs t) : (h a).isSome := by
  induction t generalizing p with
  | leaf c b =>
    obtain rfl : a = b := by simpa using ha
    obtain ⟨n, hn, -⟩ := ht
    simp [hn]
  | node c l x r ihl ihr =>
    obtain ⟨hx, hl, hr⟩ := ht
    simp only [addrs_node, List.mem_cons, List.mem_append] at ha
    rcases ha with rfl | ha | ha
    · simp [hx]
    · exact ihl hl ha
    · exact ihr hr ha

/-- The repair after a deletion leaves the deleted node alone. -/
theorem repairColor_run {s : Memory} {ρ : RbPath} {fuel : Nat} {u : RbTree} {a : Addr}
    {k : Rbtnode} {p : Color} {n : Nat} {sd : Side} {x : Entry} (hfuel : ρ.length < fuel)
    (hr : Represents loose s (plug ρ u)) (hk : s.heap a = some k) (ha : a ∉ addrs (plug ρ u))
    (hρ : PathBal (⟨sd, k.color, x, u⟩ :: ρ) p n) (htight : Tight loose u) :
    ∃ s', repairColor fuel (some a) (some (addr u)) s = .ok ((), s') ∧
      Represents loose s' (spliceFix k.color u ρ) ∧ s'.root = s.root ∧ s'.brk = s.brk ∧
      s'.heap a = some k ∧ a ∉ addrs (spliceFix k.color u ρ) := by
  cases hc : k.color with
  | red => exact ⟨s, by simp [repairColor, run_bind, load, hk, hc], hr, rfl, rfl, hk, ha⟩
  | black =>
    rw [hc] at hρ
    -- the run on the memory without the deleted node extends to the run beside it
    have hr₀ : Represents loose (s.erase a) (plug ρ u) := by
      refine hr.of_perm (.refl _) rfl (reps_congr (fun b hb => ?_) hr.cells)
      have : b ≠ a := fun e => ha (e ▸ hb)
      simp [Memory.erase, this]
    obtain ⟨nu, hnu, hcu, -, -⟩ := hr₀.heap_root
    obtain ⟨s₁, hrun, hr₁, hroot, hbrk⟩ : ∃ s₁,
        (do if (← load (some (addr u))).color = RED then setColor (some (addr u)) BLACK
            else delete_case1 fuel (some (addr u)) : Exec Unit) (s.erase a) = .ok ((), s₁) ∧
          Represents loose s₁ (spliceFix BLACK u ρ) ∧ s₁.root = s.root ∧ s₁.brk = s.brk := by
      unfold spliceFix
      cases hu : u.color with
      | red =>
        rw [hu] at hcu
        obtain ⟨s₁, hrun, hrest⟩ := hr₀.recolor_run BLACK
        exact ⟨s₁, by simpa [run_bind, load, hnu, hcu] using hrun, hrest⟩
      | black =>
        rw [hu] at hcu
        cases hρ with
        | black _ _ hρ hub =>
          obtain rfl := hub.color_eq.symm.trans hu
          obtain ⟨s₁, hrun, hrest⟩ := delete_case1_run ρ fuel hfuel hr₀ hρ hub htight
          exact ⟨s₁, by simpa [run_bind, load, hnu, hcu] using hrun, hrest⟩
    have := framed_delete_case1 fuel
    obtain ⟨hrun', hnone⟩ := Framed.frame k hrun (show (s.erase a).heap a = none by
      simp [Memory.erase])
    rw [Memory.set_erase hk] at hrun'
    have hout : a ∉ addrs (spliceFix BLACK u ρ) := fun h => by
      have h := reps_isSome hr₁.cells h
      simp [hnone] at h
    exact ⟨s₁.set a k, by simpa [repairColor, run_bind, load_run hk, hc] using hrun',
      hr₁.set_outside hout k, hroot, hbrk, by simp, hout⟩

/-- The last steps of `deleteNode`: `child` takes the place of `deleteTarget`. -/
def spliceOut (fuel : Nat) (deleteTarget child : Ptr) : Exec Unit := do
  replaceByChild deleteTarget child
  repairColor fuel deleteTarget child
  setLeft deleteTarget NULL
  setRight deleteTarget NULL
  setType deleteTarget .NIL

/-- A node with one leaf gives its place to its other child, and the tree is repaired. -/
theorem spliceOut_run {s : Memory} {ρ : RbPath} {sd : Side} {c p : Color} {l u : RbTree}
    {x : Entry} {fuel n : Nat} (hfuel : ρ.length < fuel)
    (hr : Represents loose s (plug ρ (mk sd c l x u))) (hρ : PathBal (⟨sd, c, x, u⟩ :: ρ) p n)
    (hu : Tight loose u) :
    ∃ s', spliceOut fuel (some x.addr) (some (addr u)) s = .ok ((), s') ∧
      Represents loose s' (spliceFix c u ρ) ∧
      s'.root = (if ρ.isEmpty then some (addr u) else s.root) ∧ s'.brk = s.brk := by
  have hx := hr.heap_mk
  obtain ⟨s₁, hrun₁, hr₁, hroot₁, hbrk₁, hx₁, hout⟩ := replaceByChild_run hr
  rw [hx] at hx₁
  obtain ⟨s₂, hrun₂, hr₂, hroot₂, hbrk₂, hx₂, hout₂⟩ := repairColor_run hfuel hr₁ hx₁ hout
    (by rwa [cell_color]) hu
  rw [cell_color] at hr₂ hout₂
  -- the deleted node is beside the tree now, and the three assignments reach only that node
  obtain ⟨s₃, hrun₃, hr₃, hroot₃, hbrk₃, hx₃⟩ := hr₂.store_outside hout₂ hx₂
    fun n => { n with left := NULL }
  obtain ⟨s₄, hrun₄, hr₄, hroot₄, hbrk₄, hx₄⟩ := hr₃.store_outside hout₂ hx₃
    fun n => { n with right := NULL }
  obtain ⟨s₅, hrun₅, hr₅, hroot₅, hbrk₅, -⟩ := hr₄.store_outside hout₂ hx₄
    fun n => { n with type := .NIL }
  refine ⟨s₅, ?_, hr₅, by rw [hroot₅, hroot₄, hroot₃, hroot₂, hroot₁],
    by rw [hbrk₅, hbrk₄, hbrk₃, hbrk₂, hbrk₁]⟩
  simp only [spliceOut, run_bind, hrun₁, hrun₂, setLeft, hrun₃, setRight, hrun₄, setType, hrun₅]

/-- A node with one inner child is spliced out itself. -/
theorem deleteNode_one_eq {s : Memory} {ρ : RbPath} {sd : Side} {c c₁ : Color} {b : Addr}
    {x : Entry} {u : RbTree} (fuel : Nat)
    (hr : Represents loose s (plug ρ (mk sd c (.leaf c₁ b) x u))) (hinner : u.isLeaf = false) :
    deleteNode fuel (some x.addr) s = spliceOut fuel (some x.addr) (some (addr u)) s := by
  have hx := hr.heap_mk
  have hrb : Represents loose s (plug (⟨sd, c, x, u⟩ :: ρ) (.leaf c₁ b)) := hr
  have hru : Represents loose s (plug (⟨sd.other, c, x, .leaf c₁ b⟩ :: ρ) u) :=
    hr.focus (by simp [Tree.mk_other])
  obtain ⟨nb, hnb, -, htb, -⟩ := hrb.heap_root
  obtain ⟨nu, hnu, -, htu, -⟩ := hru.heap_root
  simp only [addr_leaf, nodeType_leaf] at hnb htb hx
  rw [nodeType, if_neg (by simp [hinner])] at htu
  cases sd <;>
    simp [deleteNode, spliceOut, both, run_bind, run_map, load, hx, hnb, hnu, htb, htu, isLeaf]

/-- A node with one inner child gives its place to that child. -/
theorem deleteNode_inner_run {s : Memory} {ρ : RbPath} {sd : Side} {c c₁ p : Color} {b : Addr}
    {x : Entry} {u : RbTree} {fuel n : Nat} (hfuel : ρ.length < fuel)
    (hr : Represents loose s (plug ρ (mk sd c (.leaf c₁ b) x u)))
    (hρ : PathBal (⟨sd, c, x, u⟩ :: ρ) p n) (hinner : u.isLeaf = false) :
    ∃ s', deleteNode fuel (some x.addr) s = .ok ((), s') ∧
      Represents loose s' (spliceFix c u ρ) ∧
      s'.root = (if ρ.isEmpty then some (addr u) else s.root) ∧ s'.brk = s.brk := by
  rw [deleteNode_one_eq fuel hr hinner]
  exact spliceOut_run hfuel hr hρ fun h => by simp [hinner] at h

end EE516.RedBlackTree
