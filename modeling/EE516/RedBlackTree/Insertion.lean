import EE516.RedBlackTree.Represents
import Mathlib.Algebra.Order.Ring.Int

/-!
# Insertion in memory

`insertNode` puts a red node at the place of the nil node that the search from `root` ends at
(`insertNode_run`), and `verifyInsertion` computes the repair `fixInsert` of the abstract tree
(`verifyInsertion_run`).
-/

set_option autoImplicit false

namespace EE516.RedBlackTree

open EE516.Foundations.ColorTree
open EE516.Foundations.ColorTree.Tree (mk)

variable {loose : Addr → Prop}

/-! ## The repair -/

theorem grandparent_run {s : Memory} {a b : Addr} {n m : Rbtnode} (ha : s.heap a = some n)
    (hn : n.parent = some b) (hb : s.heap b = some m) :
    grandparent (some a) s = .ok (m.parent, s) := by
  simp [grandparent, run_bind, run_map, load, ha, hb, hn]

/-- The uncle of a node two frames below `g`. -/
theorem uncle_run {s : Memory} {π : RbPath} {f g : Frame Entry Addr} {t : RbTree}
    (hr : Represents loose s (plug (f :: g :: π) t)) {n : Rbtnode}
    (hn : s.heap (addr t) = some n) (hp : n.parent = some f.x.addr) :
    uncle (some (addr t)) s = .ok (some (addr g.sib), s) := by
  have hf := hr.heap_frame
  have hg : s.heap g.x.addr = _ := Represents.heap_frame hr
  have hnd := hr.nodup_plug
  have hsib := addr_mem_addrs g.sib
  simp only [pathAddrs, List.nodup_append, List.nodup_cons, List.mem_append, List.mem_cons,
    List.cons_append] at hnd
  have hne : f.x.addr ≠ addr g.sib := by grind
  obtain ⟨gs, gc, gx, gsib⟩ := g
  obtain ⟨fs, fc, fx, fsib⟩ := f
  cases gs <;> cases fs <;>
    simp_all [uncle, grandparent, run_bind, run_map, load, cell]

/-- `makeOuter` leaves an outer grandchild alone. -/
theorem makeOuter_outer_run {s : Memory} {π : RbPath} {sd : Side} {c d : Color} {A B C : RbTree}
    {y g : Entry} (hr : Represents loose s (plug π (mk sd c (mk sd d A y B) g C))) {n : Rbtnode}
    (hn : s.heap (addr A) = some n) (hp : n.parent = some y.addr) :
    makeOuter (some (addr A)) (some g.addr) s = .ok (some (addr A), s) := by
  have hg := hr.heap_mk
  have hry : Represents loose s (plug (⟨sd, c, g, C⟩ :: π) (mk sd d A y B)) := hr
  have hy := hry.heap_mk
  have hrA : Represents loose s (plug (⟨sd, d, y, B⟩ :: ⟨sd, c, g, C⟩ :: π) A) := hr
  have hnd := hrA.nodup_plug
  have hA := addr_mem_addrs A
  have hB := addr_mem_addrs B
  have hC := addr_mem_addrs C
  simp only [pathAddrs, List.nodup_append, List.nodup_cons, List.mem_append, List.mem_cons,
    List.cons_append] at hnd
  have h₁ : addr A ≠ addr B := by grind
  have h₂ : y.addr ≠ addr C := by grind
  simp only [holder_cons, addr_mk] at hg hy
  cases sd <;> simp [makeOuter, both, run_bind, run_map, load, hn, hp, hy, hg, h₁, h₂]

/-- `makeOuter` rotates an inner grandchild over its parent. -/
theorem makeOuter_inner_run {s : Memory} {π : RbPath} {sd : Side} {c d e : Color}
    {A B C D : RbTree} {x y g : Entry}
    (hr : Represents loose s (plug π (mk sd c (mk sd d A y (mk sd e B x D)) g C))) :
    ∃ s', makeOuter (some x.addr) (some g.addr) s = .ok (some y.addr, s') ∧
      Represents loose s' (plug π (mk sd c (mk sd e (mk sd d A y B) x D) g C)) ∧
      s'.root = s.root ∧ s'.brk = s.brk := by
  have hg := hr.heap_mk
  have hry : Represents loose s (plug (⟨sd, c, g, C⟩ :: π) (mk sd d A y (mk sd e B x D))) := hr
  have hy := hry.heap_mk
  have hrx : Represents loose s
      (plug (⟨sd.other, d, y, A⟩ :: ⟨sd, c, g, C⟩ :: π) (mk sd e B x D)) :=
    hr.focus (by simp [Tree.mk_other])
  have hx := hrx.heap_mk
  obtain ⟨s', hrun, hr', hroot, hbrk⟩ := hry.rotate_run
  have hrx' : Represents loose s' (plug (⟨sd, c, g, C⟩ :: π) (mk sd e (mk sd d A y B) x D)) := hr'
  have hx' := hrx'.heap_mk
  have hnd := hrx.nodup_plug
  have hA := addr_mem_addrs A
  have hxm := addr_mem_addrs (mk sd e B x D)
  simp only [pathAddrs, List.nodup_append, List.nodup_cons, List.mem_append, List.mem_cons,
    List.cons_append, addr_mk] at hnd hxm
  have h₁ : x.addr ≠ addr A := by grind
  simp only [holder_cons, addr_mk] at hg hy hx hx'
  refine ⟨s', ?_, hr', hroot, hbrk⟩
  cases sd <;> simp only [rotateCode] at hrun <;>
    simp [makeOuter, both, run_bind, run_map, load, hx, hy, hg, hx', h₁, hrun]

/-- `liftParent` recolours and rotates the parent of an outer grandchild over `g`. -/
theorem liftParent_run {s : Memory} {π : RbPath} {sd : Side} {c d : Color} {A B C : RbTree}
    {y g : Entry} (hr : Represents loose s (plug π (mk sd c (mk sd d A y B) g C)))
    (hA : A.isLeaf = false) :
    ∃ s', liftParent (some (addr A)) (some g.addr) s = .ok ((), s') ∧
      Represents loose s' (plug π (mk sd BLACK A y (mk sd RED B g C))) ∧
      s'.root = s.root ∧ s'.brk = s.brk := by
  have hry : Represents loose s (plug (⟨sd, c, g, C⟩ :: π) (mk sd d A y B)) := hr
  obtain ⟨s₁, hrun₁, hr₁, hroot₁, hbrk₁⟩ := hry.setColor_run BLACK
  have hr₁ : Represents loose s₁ (plug π (mk sd c (mk sd BLACK A y B) g C)) := hr₁
  obtain ⟨s₂, hrun₂, hr₂, hroot₂, hbrk₂⟩ := hr₁.setColor_run RED
  have hr₂' : Represents loose s₂
      (plug π (mk sd.other RED C g (mk sd.other BLACK B y A))) :=
    hr₂.focus (by simp [Tree.mk_other])
  obtain ⟨s₃, hrun₃, hr₃, hroot₃, hbrk₃⟩ := hr₂'.rotate_run
  have hry₂ : Represents loose s₂ (plug (⟨sd, RED, g, C⟩ :: π) (mk sd BLACK A y B)) := hr₂
  have hy₂ := hry₂.heap_mk
  have hrA : Represents loose s (plug (⟨sd, d, y, B⟩ :: ⟨sd, c, g, C⟩ :: π) A) := hr
  have hrA₂ : Represents loose s₂ (plug (⟨sd, BLACK, y, B⟩ :: ⟨sd, RED, g, C⟩ :: π) A) := hr₂
  have hnd := hrA.nodup_plug
  have hAm := addr_mem_addrs A
  have hBm := addr_mem_addrs B
  simp only [pathAddrs, List.nodup_append, List.nodup_cons, List.mem_append, List.mem_cons,
    List.cons_append] at hnd
  have h₁ : addr A ≠ addr B := by grind
  refine ⟨s₃, ?_, hr₃.focus (by simp [Tree.mk_other]), by rw [hroot₃, hroot₂, hroot₁],
    by rw [hbrk₃, hbrk₂, hbrk₁]⟩
  cases A with
  | leaf => cases hA
  | node e A₁ x A₂ =>
    have hx := hrA.heap_node
    have hx₂ := hrA₂.heap_node
    simp only [holder_cons, addr_node] at hx hx₂ hy₂ h₁
    cases sd <;> simp only [rotateCode, Side.other] at hrun₃ <;>
      simp [liftParent, run_bind, load, hx, hrun₁, hrun₂, hx₂, hy₂, h₁, hrun₃]

/-- The rounds of `verifyInsertion` that end with a rotation. -/
theorem verifyInsertion_rotate_run {fuel : Nat} {s : Memory} {π : RbPath} {sd sd' : Side}
    {c : Color} {l r sib sib' : RbTree} {x y z : Entry}
    (hr : Represents loose s (plug (⟨sd, RED, y, sib⟩ :: ⟨sd', c, z, sib'⟩ :: π) (.node RED l x r)))
    (hu : sib'.color = BLACK) :
    ∃ s', verifyInsertion (fuel + 1) (some x.addr) s = .ok ((), s') ∧
      Represents loose s'
        (fixInsert (.node RED l x r) (⟨sd, RED, y, sib⟩ :: ⟨sd', c, z, sib'⟩ :: π)) ∧
      s'.root = s.root ∧ s'.brk = s.brk := by
  have hx := hr.heap_node
  have hf := hr.heap_frame
  have huncle := uncle_run hr hx rfl
  have hgp := grandparent_run hx rfl hf
  have hru : Represents loose s
      (plug (⟨sd'.other, c, z, mk sd RED (.node RED l x r) y sib⟩ :: π) sib') :=
    hr.focus (by simp [Tree.mk_other])
  obtain ⟨nu, hnu, hcu, -, -⟩ := hru.heap_root
  rw [hu] at hcu
  simp only [holder_cons, addr_node, cell_parent] at hx hf huncle hgp
  have hsplit : verifyInsertion (fuel + 1) (some x.addr) s =
      (makeOuter (some x.addr) (some z.addr) >>=
        fun target => liftParent target (some z.addr)) s := by
    simp [verifyInsertion, both, run_bind, run_map, load, hx, hf, huncle, hnu, hcu, hgp]
  rw [hsplit, run_bind]
  -- an outer grandchild is lifted at once, an inner one takes the place of its parent first
  by_cases hsd : sd = sd'
  · subst hsd
    have hmake := makeOuter_outer_run (A := .node RED l x r) hr hx rfl
    obtain ⟨s', hrun, hr', hroot, hbrk⟩ := liftParent_run (A := .node RED l x r) hr rfl
    rw [addr_node] at hmake hrun
    refine ⟨s', by rw [hmake]; exact hrun, ?_, hroot, hbrk⟩
    simpa [fixInsert, hu] using hr'
  · obtain ⟨u, v, huv⟩ := Tree.exists_mk sd' RED l x r
    have hother : sd' = sd.other := by cases sd <;> cases sd' <;> simp_all
    subst hother
    have hr' : Represents loose s
        (plug π (mk sd.other c (mk sd.other RED sib y (mk sd.other RED u x v)) z sib')) :=
      hr.focus (by simp [Tree.mk_other, huv])
    obtain ⟨s₁, hrun₁, hr₁, hroot₁, hbrk₁⟩ := makeOuter_inner_run hr'
    obtain ⟨u', v', huv'⟩ : ∃ u' v', mk sd.other RED sib y u = .node RED u' y v' := by
      cases sd <;> exact ⟨_, _, rfl⟩
    obtain ⟨s₂, hrun₂, hr₂, hroot₂, hbrk₂⟩ := liftParent_run (A := mk sd.other RED sib y u) hr₁
      (by rw [huv']; rfl)
    rw [addr_mk] at hrun₂
    refine ⟨s₂, by rw [hrun₁]; exact hrun₂, ?_, by rw [hroot₂, hroot₁], by rw [hbrk₂, hbrk₁]⟩
    have hrot : (mk sd RED (.node RED l x r) y sib).rotate sd.other =
        mk sd.other RED (mk sd.other RED sib y u) x v := by
      rw [huv]
      cases sd <;> rfl
    have hne : sd ≠ sd.other := by cases sd <;> simp
    simpa [fixInsert, hu, hne, hrot] using hr₂

/-- The round of `verifyInsertion` with a red uncle: the parent and the uncle become black, and the
next round is at the grandparent, which becomes red. -/
theorem verifyInsertion_recolor_run (fuel : Nat) {s : Memory} {π : RbPath} {sd sd' : Side}
    {l r sib l' r' : RbTree} {x y z w : Entry}
    (hr : Represents loose s (plug (⟨sd, RED, y, sib⟩ :: ⟨sd', BLACK, z, .node RED l' w r'⟩ :: π)
      (.node RED l x r))) :
    ∃ s', verifyInsertion (fuel + 1) (some x.addr) s = verifyInsertion fuel (some z.addr) s' ∧
      Represents loose s' (plug π (mk sd' RED (mk sd BLACK (.node RED l x r) y sib) z
        (.node BLACK l' w r'))) ∧
      s'.root = s.root ∧ s'.brk = s.brk := by
  have hx := hr.heap_node
  have hf := hr.heap_frame
  have hu := uncle_run hr hx rfl
  have hru : Represents loose s (plug (⟨sd'.other, BLACK, z,
      mk sd RED (.node RED l x r) y sib⟩ :: π) (.node RED l' w r')) :=
    hr.focus (by simp [Tree.mk_other])
  obtain ⟨nu, hnu, hcu, -, -⟩ := hru.heap_root
  have hrf : Represents loose s (plug (⟨sd', BLACK, z, .node RED l' w r'⟩ :: π)
      (mk sd RED (.node RED l x r) y sib)) := hr
  obtain ⟨s₁, hrun₁, hr₁, hroot₁, hbrk₁⟩ := hrf.setColor_run BLACK
  have hr₁ : Represents loose s₁ (plug (⟨sd'.other, BLACK, z,
      mk sd BLACK (.node RED l x r) y sib⟩ :: π) (mk .left RED l' w r')) :=
    hr₁.focus (by simp [Tree.mk_other])
  obtain ⟨s₂, hrun₂, hr₂, hroot₂, hbrk₂⟩ := hr₁.setColor_run BLACK
  have hr₂ : Represents loose s₂ (plug π (mk sd' BLACK
      (mk sd BLACK (.node RED l x r) y sib) z (.node BLACK l' w r'))) :=
    hr₂.focus (by simp [Tree.mk_other])
  -- the grandparent is looked up again, after the two nodes below it have changed
  have hr₂f : Represents loose s₂ (plug (⟨sd', BLACK, z, .node BLACK l' w r'⟩ :: π)
      (mk sd BLACK (.node RED l x r) y sib)) := hr₂
  have hr₂x : Represents loose s₂ (plug (⟨sd, BLACK, y, sib⟩ ::
      ⟨sd', BLACK, z, .node BLACK l' w r'⟩ :: π) (.node RED l x r)) := hr₂
  have hx₂ := hr₂x.heap_node
  have hgp := grandparent_run hx₂ rfl hr₂f.heap_mk
  obtain ⟨s₃, hrun₃, hr₃, hroot₃, hbrk₃⟩ := hr₂.setColor_run RED
  refine ⟨s₃, ?_, hr₃, by rw [hroot₃, hroot₂, hroot₁], by rw [hbrk₃, hbrk₂, hbrk₁]⟩
  simp only [holder_cons, addr_node, cell_parent] at hx hf hu hgp hnu hx₂
  simp [verifyInsertion, both, run_bind, run_map, load, hx, hf, hu, hnu, hcu, hrun₁, hrun₂, hgp,
    hrun₃]

/-- `verifyInsertion` on a red node computes `fixInsert`, and no round dereferences `NULL`. -/
theorem verifyInsertion_run : ∀ (π : RbPath) (fuel : Nat) {s : Memory} {p : Color} {n : Nat}
    {t : RbTree}, π.length < fuel → Represents loose s (plug π t) → PathBal π p n →
    Bal t .red n →
    ∃ s', verifyInsertion fuel (some (addr t)) s = .ok ((), s') ∧
      Represents loose s' (fixInsert t π) ∧ s'.root = s.root ∧ s'.brk = s.brk
  | [], fuel + 1, s, p, n, t, _, hr, _, ht => by
    cases ht with
    | @red l r _ x _ _ =>
      have hx := hr.heap_node
      have hr₀ : Represents loose s (plug [] (mk .left RED l x r)) := hr
      obtain ⟨s', hrun, hr', hroot, hbrk⟩ := hr₀.setColor_run BLACK
      refine ⟨s', ?_, hr', hroot, hbrk⟩
      simp [verifyInsertion, run_bind, load, hx, cell, hrun]
  | [f], fuel + 1, s, p, n, t, _, hr, hπ, ht => by
    cases ht with
    | @red l r _ x _ _ =>
      have hx := hr.heap_node
      have hf := hr.heap_frame
      cases hπ with
      | red sd y hπ => cases hπ
      | black sd y hπ hsib =>
        refine ⟨s, ?_, by simpa [fixInsert] using hr, rfl, rfl⟩
        cases sd <;> simp [verifyInsertion, run_bind, load, hx, hf, cell]
  | f :: g :: π, fuel + 1, s, p, n, t, hfuel, hr, hπ, ht => by
    have htred := ht
    cases ht with
    | @red l r _ x hl hrr =>
      have hx := hr.heap_node
      have hf := hr.heap_frame
      cases hπ with
      | black sd y hπ hsib =>
        refine ⟨s, ?_, by simpa [fixInsert] using hr, rfl, rfl⟩
        cases sd <;> simp [verifyInsertion, run_bind, load, hx, hf, cell]
      | @red _ sib _ sd y hπ hsib =>
        cases hπ with
        | @black _ sib' c' d _ sd' z hπ hsib' =>
          -- a black uncle ends the repair by a rotation; a nil uncle is black
          cases sib' with
          | leaf e m =>
            cases hsib'
            exact verifyInsertion_rotate_run hr rfl
          | node e l' w r' =>
            cases e with
            | black => exact verifyInsertion_rotate_run hr rfl
            | red =>
              obtain rfl := hsib'.color_eq
              obtain ⟨s₁, hrun₁, hr₁, hroot₁, hbrk₁⟩ :=
                verifyInsertion_recolor_run fuel hr
              obtain ⟨s₂, hrun₂, hr₂, hroot₂, hbrk₂⟩ := verifyInsertion_run π fuel
                (by simp at hfuel; omega) hr₁ hπ
                ((htred.mk_black sd y hsib).mk_red sd' z hsib'.blacken)
              rw [addr_mk] at hrun₂
              refine ⟨s₂, ?_, ?_, by rw [hroot₂, hroot₁], by rw [hbrk₂, hbrk₁]⟩
              · rw [addr_node, hrun₁, hrun₂]
              · simpa [fixInsert] using hr₂

/-! ## The new node -/

/-- The search takes the path of the tree. -/
theorem findPosition_run {s : Memory} (v : Int) {t : RbTree} : ∀ (π : RbPath) {fuel : Nat}
    (parent : Ptr), Represents loose s (plug π t) → t.height < fuel →
    (t.isLeaf = true → parent = holder π) →
    findPosition fuel (some (addr t)) parent v s =
      .ok ((pathTo Entry.value v t π).map fun q => (some q.2.2, holder q.1), s) := by
  induction t with
  | leaf c a =>
    intro π fuel parent hr hfuel hp
    obtain ⟨n, hn, -, hty, -⟩ := hr.heap_root
    obtain ⟨fuel, rfl⟩ : ∃ k, fuel = k + 1 := ⟨fuel - 1, by omega⟩
    rw [nodeType_leaf] at hty
    rw [addr_leaf] at hn
    simp [findPosition, run_bind, load, hn, hty, pathTo, hp rfl]
  | node c l x r ihl ihr =>
    intro π fuel parent hr hfuel _
    have hx := hr.heap_node
    have hrl : Represents loose s (plug (⟨.left, c, x, r⟩ :: π) l) := hr
    have hrr : Represents loose s (plug (⟨.right, c, x, l⟩ :: π) r) := hr
    obtain ⟨fuel, rfl⟩ : ∃ k, fuel = k + 1 := ⟨fuel - 1, by omega⟩
    rw [Tree.height_node] at hfuel
    have hl := ihl _ (some x.addr) hrl (by omega : l.height < fuel) fun _ => rfl
    have hr' := ihr _ (some x.addr) hrr (by omega : r.height < fuel) fun _ => rfl
    by_cases h₁ : v < x.value
    · simp [findPosition, run_bind, load, hx, h₁, pathTo, hl]
    · by_cases h₂ : x.value < v
      · simp [findPosition, run_bind, load, hx, h₁, h₂, pathTo, hr']
      · simp [findPosition, run_bind, load, hx, h₁, h₂, pathTo]

/-- The subtree that `insertNode` puts in the place of a nil node. -/
def newNode (brk a : Addr) (v pid : Int) : RbTree :=
  .node RED (.leaf BLACK brk) ⟨a, v, pid⟩ (.leaf BLACK (brk + 1))

/-- A new value gets a red node in the place of the leaf. -/
theorem insertNode_run {s : Memory} {t : RbTree} {fuel : Nat} {v : Int} (pid : Int)
    (hr : Represents loose s t) (hroot : s.root = some (addr t)) (ht : t.isLeaf = false)
    (hfuel : t.height < fuel) {π : RbPath} {c : Color} {a : Addr}
    (hpath : pathTo Entry.value v t [] = some (π, c, a)) :
    ∃ s', insertNode fuel v pid s = .ok (some a, s') ∧
      Represents loose s' (plug π (newNode s.brk a v pid)) ∧ s'.root = s.root ∧
      s'.brk = s.brk + 2 := by
  have hfind := findPosition_run v [] s.root hr hfuel (by simp [ht])
  rw [hpath, ← hroot] at hfind
  simp only [Option.map_some] at hfind
  have hplug := plug_pathTo Entry.value hpath
  rw [← hplug] at hr
  obtain ⟨n, hn, hcn, hty, -⟩ := hr.heap_root
  rw [addr_leaf] at hn
  have ha : a < s.brk := hr.lt_brk a ((addrs_plug_perm _ _).mem_iff.2 (by simp))
  have h₁ : a ≠ s.brk := Nat.ne_of_lt ha
  have h₂ : a ≠ s.brk + 1 := Nat.ne_of_lt (Nat.lt_succ_of_lt ha)
  -- what the run writes: the nil node becomes red, with two fresh nil nodes
  have key : ∃ s', insertNode fuel v pid s = .ok (some a, s') ∧ s'.root = s.root ∧
      s'.brk = s.brk + 2 ∧
      s'.heap a = some (cell .left (holder π) RED s.brk ⟨a, v, pid⟩ (s.brk + 1)) ∧
      s'.heap s.brk = some ⟨some a, NULL, NULL, 0, 0, BLACK, .NIL⟩ ∧
      s'.heap (s.brk + 1) = some ⟨some a, NULL, NULL, 0, 0, BLACK, .NIL⟩ ∧
      ∀ b, b ≠ a → b < s.brk → s'.heap b = s.heap b := by
    have hr0 : s.root ≠ NULL := by simp [hroot]
    simp [insertNode, run_bind, run_map, hr0, hfind, setColor, setValue, setPid, setType, setLeft,
      setRight, setParent, calloc, load, store, hn, h₁, h₁.symm, h₂, h₂.symm, zeroNode, cell]
    grind
  obtain ⟨s', hrun, hroot', hbrk, h₃, h₄, h₅, h₆⟩ := key
  have hperm := (addrs_plug_perm π (newNode s.brk a v pid))
  have hold := addrs_plug_perm π (.leaf c a)
  have hnd := hr.nodup_plug
  have hlt : ∀ b ∈ pathAddrs π, b < s.brk := fun b hb => hr.lt_brk b (hold.mem_iff.2 (by simp [hb]))
  refine ⟨s', hrun, ⟨?_, hperm.nodup_iff.2 ?_, fun b hb => ?_⟩, hroot', hbrk⟩
  · obtain ⟨hπ, -⟩ := reps_plug.1 hr.cells
    refine reps_plug.2 ⟨repsPath_congr (fun b hb => ?_) hπ, h₃, ?_, ?_⟩
    · refine h₆ b ?_ (hlt b hb)
      rintro rfl
      simp only [List.nodup_append, addrs_leaf, List.mem_singleton] at hnd
      exact hnd.2.2 _ hb _ rfl rfl
    · exact ⟨_, h₄, rfl, rfl, rfl, rfl, Or.inr rfl⟩
    · exact ⟨_, h₅, rfl, rfl, rfl, rfl, Or.inr rfl⟩
  · simp only [newNode, addrs_node, addrs_leaf, List.nodup_append] at hnd ⊢
    grind
  · rw [hperm.mem_iff] at hb
    simp only [newNode, addrs_node, addrs_leaf, List.mem_append, List.mem_cons] at hb
    grind

/-- A value that the tree has is not inserted again. -/
theorem insertNode_duplicate_run {s : Memory} {t : RbTree} {fuel : Nat} {v : Int} (pid : Int)
    (hr : Represents loose s t) (hroot : s.root = some (addr t)) (ht : t.isLeaf = false)
    (hfuel : t.height < fuel) (hpath : pathTo Entry.value v t [] = none) :
    insertNode fuel v pid s = .ok (NULL, s) := by
  have hfind := findPosition_run v [] s.root hr hfuel (by simp [ht])
  rw [hpath, ← hroot] at hfind
  have hr0 : s.root ≠ NULL := by simp [hroot]
  simp only [Option.map_none] at hfind
  simp [insertNode, run_bind, hr0, hfind]

/-- The tree after the first insertion. -/
def firstTree (brk : Addr) (v pid : Int) : RbTree :=
  .node BLACK (.leaf BLACK (brk + 1)) ⟨brk, v, pid⟩ (.leaf BLACK (brk + 2))

/-- The first insertion leaves the parent pointers of its two nil nodes `NULL`. -/
theorem insertNode_first_run {s : Memory} (v pid : Int) (fuel : Nat) (hroot : s.root = NULL)
    (h₁ : loose (s.brk + 1)) (h₂ : loose (s.brk + 2)) :
    ∃ s', insertNode fuel v pid s = .ok (some s.brk, s') ∧
      Represents loose s' (firstTree s.brk v pid) ∧ s'.root = some s.brk ∧ s'.brk = s.brk + 3 := by
  have key : ∃ s', insertNode fuel v pid s = .ok (some s.brk, s') ∧ s'.root = some s.brk ∧
      s'.brk = s.brk + 3 ∧
      s'.heap s.brk = some (cell .left NULL BLACK (s.brk + 1) ⟨s.brk, v, pid⟩ (s.brk + 2)) ∧
      s'.heap (s.brk + 1) = some ⟨NULL, NULL, NULL, 0, 0, BLACK, .NIL⟩ ∧
      s'.heap (s.brk + 2) = some ⟨NULL, NULL, NULL, 0, 0, BLACK, .NIL⟩ := by
    have h₃ : s.brk ≠ s.brk + 1 + 1 := by grind
    simp [insertNode, run_bind, run_map, hroot, setColor, setValue, setPid, setType, setLeft,
      setRight, calloc, load, store, zeroNode, cell, h₃, h₃.symm]
  obtain ⟨s', hrun, hroot', hbrk, h₃, h₄, h₅⟩ := key
  refine ⟨s', hrun, ⟨⟨h₃, ?_, ?_⟩, by simp [firstTree], ?_⟩, hroot', hbrk⟩
  · exact ⟨_, h₄, rfl, rfl, rfl, rfl, Or.inl h₁⟩
  · exact ⟨_, h₅, rfl, rfl, rfl, rfl, Or.inl h₂⟩
  · simp only [firstTree, addrs_node, addrs_leaf, hbrk]
    grind

end EE516.RedBlackTree
