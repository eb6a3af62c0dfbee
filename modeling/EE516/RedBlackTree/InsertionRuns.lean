import EE516.RedBlackTree.Insertion

/-!
# Runs of insertions

One round of the first loop of `main` takes the tree `t` at `root` to `insertTree brk t v pid`
(`insertRound_run`), a red-black tree with one more entry. The rotations do not assign `root`, so
`root` names the topmost node after a run exactly when no round of it rotates at the node that
`root` names (`insertAll_redBlack_iff`).
-/

set_option autoImplicit false

namespace EE516.RedBlackTree

open EE516.Foundations.ColorTree
open EE516.Foundations.ColorTree.Tree (mk)

variable {loose : Addr → Prop}

/-- The search path of `v` in `t`; empty when `v` occurs in `t`. -/
def searchPath (v : Int) (t : RbTree) : RbPath :=
  match pathTo Entry.value v t [] with
  | some (π, _, _) => π
  | none => []

/-- The tree after one round of insertion; new nil nodes are at `brk` and `brk + 1`. -/
def insertTree (brk : Addr) (t : RbTree) (v pid : Int) : RbTree :=
  match pathTo Entry.value v t [] with
  | some (π, _, a) => fixInsert (newNode brk a v pid) π
  | none => t

/-- The pairs `(value, pid)` that a tree holds, in the order of the tree. -/
def pairs (t : RbTree) : List (Int × Int) :=
  t.toList.map fun x => (x.value, x.pid)

/-- The structure reached from `root` is a red-black tree that holds exactly the given pairs
`(value, pid)`: the parent of `root` is `NULL`, `root` is black, values increase strictly from left
to right, nil nodes are black, no red node has a red child, and all paths to nil nodes meet equally
many black nodes. -/
def RedBlackFromRoot (s : Memory) (l : List (Int × Int)) : Prop :=
  (s.root = NULL ∧ l = []) ∨
    ∃ t n, Reps (fun _ => True) s.heap NULL t ∧ s.root = some (addr t) ∧ t.isLeaf = false ∧
      Bal t BLACK n ∧ Ordered Entry.value t ∧ (pairs t).Perm l

/-- Inserting `v` in the tree at `root` rotates at the node that `root` names. -/
def RotatesRoot (s : Memory) (v : Int) : Prop :=
  ∃ t, Reps (fun _ => True) s.heap NULL t ∧ s.root = some (addr t) ∧ RotatesTop (searchPath v t)

/-- The tree at an address is determined by the heap. -/
theorem reps_unique {l₁ l₂ : Addr → Prop} {h : Heap} {t u : RbTree} {p q : Ptr}
    (ht : Reps l₁ h p t) (hu : Reps l₂ h q u) (ha : addr t = addr u) : t = u := by
  induction t generalizing u p q with
  | leaf c a =>
    obtain ⟨n, hn, hty, hc, -⟩ := ht
    -- one is a nil node when the other is: the cell has its type
    cases u with
    | leaf d b =>
      obtain ⟨m, hm, -, hd, -⟩ := hu
      simp only [addr_leaf] at ha
      subst ha
      obtain rfl := Option.some.inj (hn.symm.trans hm)
      rw [← hc, ← hd]
    | node d l x r =>
      simp only [addr_leaf, addr_node] at ha
      subst ha
      obtain rfl := Option.some.inj (hn.symm.trans hu.1)
      cases hty
  | node c l x r ihl ihr =>
    obtain ⟨hx, hl, hr⟩ := ht
    cases u with
    | leaf d b =>
      obtain ⟨m, hm, hty, -⟩ := hu
      simp only [addr_leaf, addr_node] at ha
      subst ha
      obtain rfl := Option.some.inj (hx.symm.trans hm)
      cases hty
    | node d l' y r' =>
      obtain ⟨hy, hl', hr'⟩ := hu
      simp only [addr_node] at ha
      rw [ha, hy] at hx
      have e := Option.some.inj hx
      simp only [cell, Rbtnode.mk.injEq, Option.some.injEq, and_true] at e
      obtain ⟨-, hra, hla, hpid, hvalue, hc⟩ := e
      have hxy : x = y := by
        cases x
        cases y
        simp_all
      rw [ihl hl hl' hla.symm, ihr hr hr' hra.symm, hxy, hc]

/-- The tree at an address, read from the heap down to a given depth. -/
def readTree (h : Heap) : Nat → Addr → Option RbTree
  | 0, _ => none
  | depth + 1, a => do
    let n ← h a
    if n.type = .NIL then
      return .leaf n.color a
    else
      return .node n.color (← readTree h depth (← n.left)) ⟨a, n.value, n.pid⟩
        (← readTree h depth (← n.right))

theorem eq_of_readTree {h : Heap} : ∀ (depth : Nat) {t u : RbTree} {p : Ptr}, Reps loose h p t →
    readTree h depth (addr t) = some u → t = u
  | depth + 1, t, u, p, ht, hu => by
    cases t with
    | leaf c a =>
      obtain ⟨n, hn, hty, rfl, -⟩ := ht
      simpa [readTree, hn, hty] using hu
    | node c l x r =>
      obtain ⟨hx, hl, hr⟩ := ht
      simp only [readTree, addr_node, hx, Option.bind_eq_bind, Option.bind_some, cell] at hu
      simp only [reduceCtorEq, if_false, Option.bind_eq_some_iff, Option.pure_def,
        Option.some.injEq] at hu
      obtain ⟨u₁, hu₁, u₂, hu₂, rfl⟩ := hu
      rw [eq_of_readTree depth hl hu₁, eq_of_readTree depth hr hu₂]

/-- A check of memory that excludes `RotatesRoot`. -/
def keepsRoot (depth : Nat) (s : Memory) (v : Int) : Bool :=
  match s.root.bind (readTree s.heap depth) with
  | some t => !decide (RotatesTop (searchPath v t))
  | none => s.root.isNone

theorem not_rotatesRoot {depth : Nat} {s : Memory} {v : Int} (h : keepsRoot depth s v = true) :
    ¬ RotatesRoot s v := by
  rintro ⟨t, ht, hroot, hrot⟩
  simp only [keepsRoot, hroot, Option.bind_some] at h
  split at h
  · rename_i u hu
    rw [← eq_of_readTree depth ht hu] at h
    simp [hrot] at h
  · simp at h

/-- `root` names the topmost node of a red-black tree in memory. -/
structure Built (loose : Addr → Prop) (s : Memory) (t : RbTree) : Prop where
  rep : Represents loose s t
  root : s.root = some (addr t)
  inner : t.isLeaf = false
  bal : ∃ n, Bal t BLACK n
  ordered : Ordered Entry.value t

/-! ## One round -/

section Round

variable {s : Memory} {t : RbTree} {fuel : Nat} {v : Int} (pid : Int)

/-- The search for a new value ends at a leaf. -/
theorem exists_pathTo (hv : ∀ x ∈ t.toList, x.value ≠ v) :
    ∃ π c a, pathTo Entry.value v t [] = some (π, c, a) := by
  cases h : pathTo Entry.value v t [] with
  | none =>
    obtain ⟨x, hx, e⟩ := mem_of_pathTo_eq_none Entry.value h
    exact absurd e (hv x hx)
  | some q => exact ⟨q.1, q.2.1, q.2.2, rfl⟩

/-- The path of a search in a red-black tree ends at a black leaf and takes a red node. -/
theorem Built.pathBal (pid : Int) (hb : Built loose s t) {π : RbPath} {c : Color} {a : Addr}
    (hpath : pathTo Entry.value v t [] = some (π, c, a)) :
    ∃ p, PathBal π p 0 ∧ Bal (newNode s.brk a v pid) RED 0 := by
  obtain ⟨n, hbal⟩ := hb.bal
  have hplug := plug_pathTo Entry.value hpath
  rw [← hplug] at hbal
  obtain ⟨p, d, m, hπ, hleaf, -⟩ := bal_of_plug π hbal
  cases hleaf
  exact ⟨p, hπ, .red _ (.leaf _) (.leaf _)⟩

/-- A round adds one entry and keeps the order of the others. -/
theorem toList_insertTree (brk : Addr) (hv : ∀ x ∈ t.toList, x.value ≠ v) :
    ∃ l₁ l₂ a, t.toList = l₁ ++ l₂ ∧
      (insertTree brk t v pid).toList = l₁ ++ ⟨a, v, pid⟩ :: l₂ := by
  obtain ⟨π, c, a, hpath⟩ := exists_pathTo hv
  refine ⟨before π, after π, a, ?_, ?_⟩
  · rw [← plug_pathTo Entry.value hpath, toList_plug]
    simp
  · simp only [insertTree, hpath]
    rw [toList_fixInsert, toList_plug]
    simp [newNode]

/-- One round inserts the pair and gives a red-black tree again. The assignments of the round do
not reach `root`. -/
theorem insertRound_run_of_height (hb : Built loose s t) (hv : ∀ x ∈ t.toList, x.value ≠ v)
    (hfuel : t.height < fuel) :
    ∃ s', insertRound fuel v pid s = .ok ((), s') ∧
      Represents loose s' (insertTree s.brk t v pid) ∧ s'.root = s.root ∧ s'.brk = s.brk + 2 ∧
      (∃ n, Bal (insertTree s.brk t v pid) BLACK n) ∧
      Ordered Entry.value (insertTree s.brk t v pid) ∧
      (pairs (insertTree s.brk t v pid)).Perm ((v, pid) :: pairs t) := by
  obtain ⟨π, c, a, hpath⟩ := exists_pathTo hv
  obtain ⟨p, hπ, hnew⟩ := hb.pathBal pid hpath
  have hlen : π.length < fuel := by
    have h := length_add_height_le π (.leaf c a : RbTree)
    rw [plug_pathTo Entry.value hpath] at h
    exact lt_of_le_of_lt (Nat.le_of_add_right_le h) hfuel
  obtain ⟨s₁, hrun₁, hr₁, hroot₁, hbrk₁⟩ := insertNode_run pid hb.rep hb.root hb.inner
    hfuel hpath
  obtain ⟨s₂, hrun₂, hr₂, hroot₂, hbrk₂⟩ := verifyInsertion_run π fuel hlen hr₁ hπ hnew
  obtain ⟨l₁, l₂, b, hold, hnewList⟩ := toList_insertTree pid s.brk hv
  have htree : insertTree s.brk t v pid = fixInsert (newNode s.brk a v pid) π := by
    simp [insertTree, hpath]
  rw [htree] at hnewList ⊢
  refine ⟨s₂, ?_, hr₂, by rw [hroot₂, hroot₁], by rw [hbrk₂, hbrk₁], bal_fixInsert π hπ hnew,
    ?_, ?_⟩
  · simp only [insertRound, run_bind, hrun₁]
    exact hrun₂
  · rw [Ordered, toList_fixInsert]
    exact ordered_of_pathTo Entry.value (y := ⟨a, v, pid⟩) hb.ordered hpath rfl
  · rw [pairs, hnewList, pairs, hold, List.map_append, List.map_cons, List.map_append]
    exact List.perm_middle

/-- A round inserts the value and repairs the tree. -/
theorem insertRound_run (hb : Built loose s t) (hv : ∀ x ∈ t.toList, x.value ≠ v)
    (hfuel : t.toList.length < fuel) :
    ∃ s', insertRound fuel v pid s = .ok ((), s') ∧
      Represents loose s' (insertTree s.brk t v pid) ∧ s'.root = s.root ∧ s'.brk = s.brk + 2 ∧
      (∃ n, Bal (insertTree s.brk t v pid) BLACK n) ∧
      Ordered Entry.value (insertTree s.brk t v pid) ∧
      (pairs (insertTree s.brk t v pid)).Perm ((v, pid) :: pairs t) :=
  insertRound_run_of_height pid hb hv (lt_of_le_of_lt (Tree.height_le_length t) hfuel)

/-- A round that rotates at the topmost node leaves `root` below the new topmost node. -/
theorem insertRound_root_lost (hb : Built loose s t) (hv : ∀ x ∈ t.toList, x.value ≠ v)
    (hrot : RotatesTop (searchPath v t)) {s' : Memory}
    (hr : Represents loose s' (insertTree s.brk t v pid)) :
    ∃ n q, s'.heap (addr t) = some n ∧ n.parent = some q := by
  obtain ⟨π, c, a, hpath⟩ := exists_pathTo hv
  obtain ⟨p, hπ, hnew⟩ := hb.pathBal pid hpath
  simp only [searchPath, hpath] at hrot
  obtain ⟨sd, A, y, B, x, C, htree, hx⟩ := exists_root_fixInsert_of_rotatesTop π hπ hnew hrot
  have haddr : addr t = x.addr := by
    rw [← addr_of_root hx, ← plug_pathTo Entry.value hpath]
    exact addr_plug_congr π rfl
  simp only [insertTree, hpath, htree] at hr
  have htop : Represents loose s' (plug [] (mk sd BLACK A y (mk sd RED B x C))) := hr
  have hrx : Represents loose s' (plug [⟨sd.other, BLACK, y, A⟩] (mk sd RED B x C)) :=
    htop.focus (by cases sd <;> rfl)
  rw [haddr]
  exact ⟨_, y.addr, hrx.heap_mk, by simp⟩

/-- No exempt address among the nil nodes, unless the subtree is a single nil node. -/
def NilsOff (loose : Addr → Prop) (u : RbTree) : Prop :=
  u.isLeaf = true ∨ ∀ m ∈ u.marks, ¬ loose m

/-- The topmost entry has the value `v₀`, and a nil node with an exempt parent pointer can only be a
child of the topmost node. -/
def FirstOnTop (loose : Addr → Prop) (v₀ : Int) (t : RbTree) : Prop :=
  ∃ c l x r, t = .node c l x r ∧ x.value = v₀ ∧ NilsOff loose l ∧ NilsOff loose r

theorem NilsOff.setColor {u : RbTree} (h : NilsOff loose u) (c : Color) :
    NilsOff loose (u.setColor c) := by
  cases u <;> exact h

/-- The subtree that receives the new node keeps exempt addresses off its nil nodes. -/
theorem nilsOff_of_marks {u l : RbTree} {ρ : RbPath} {c : Color} {a brk : Addr}
    (hl : NilsOff loose l) (hρ : plug ρ (.leaf c a) = l) (hnew : ¬ loose brk ∧ ¬ loose (brk + 1))
    (hu : u.marks = (plug ρ (newNode brk a v pid)).marks) : NilsOff loose u := by
  refine Or.inr fun m hm => ?_
  rw [hu, marks_plug] at hm
  simp only [newNode, Tree.marks_node, Tree.marks_leaf, List.mem_append, List.mem_singleton] at hm
  rcases hl with hl | hl
  · cases ρ with
    | nil =>
      simp only [marksBefore, marksAfter, List.not_mem_nil, false_or, or_false] at hm
      rcases hm with rfl | rfl
      · exact hnew.1
      · exact hnew.2
    | cons f ρ =>
      have hfill : (f.fill (.leaf c a)).isLeaf = false := by
        cases hf : f.side <;> simp [Frame.fill, hf]
      have h : (plug ρ (f.fill (.leaf c a))).isLeaf = false := isLeaf_plug hfill
      rw [← plug_cons, hρ, hl] at h
      cases h
  · rw [← hρ, marks_plug] at hl
    simp only [List.mem_append] at hl
    rcases hm with (hm | rfl | rfl) | hm
    · exact hl m (Or.inl (Or.inl hm))
    · exact hnew.1
    · exact hnew.2
    · exact hl m (Or.inr hm)

/-- Without a rotation at the topmost node, `root` still names it after a round. -/
theorem Built.insertTree_top (hb : Built loose s t) (hv : ∀ x ∈ t.toList, x.value ≠ v)
    (hrot : ¬ RotatesTop (searchPath v t)) (hnew : ¬ loose s.brk ∧ ¬ loose (s.brk + 1)) {v₀ : Int}
    (hfirst : FirstOnTop loose v₀ t) :
    addr (insertTree s.brk t v pid) = addr t ∧ (insertTree s.brk t v pid).isLeaf = false ∧
      FirstOnTop loose v₀ (insertTree s.brk t v pid) := by
  obtain ⟨π, c, a, hpath⟩ := exists_pathTo hv
  simp only [searchPath, hpath] at hrot
  simp only [insertTree, hpath]
  obtain ⟨d, l, x, r, rfl, hx, hl, hr⟩ := hfirst
  simp only [pathTo] at hpath
  split at hpath
  · obtain ⟨ρ, rfl, hρ⟩ := append_of_pathTo Entry.value hpath
    obtain ⟨e, e', u, h₁, -, h₃⟩ := fixInsert_below_top ρ _ (newNode s.brk a v pid) hrot
    rw [h₁]
    exact ⟨rfl, rfl, e, u, x, r.setColor e', rfl, hx, nilsOff_of_marks pid hl hρ hnew h₃,
      hr.setColor e'⟩
  · split at hpath
    · obtain ⟨ρ, rfl, hρ⟩ := append_of_pathTo Entry.value hpath
      obtain ⟨e, e', u, h₁, -, h₃⟩ := fixInsert_below_top ρ _ (newNode s.brk a v pid) hrot
      rw [h₁]
      exact ⟨rfl, rfl, e, l.setColor e', x, u, rfl, hx, hl.setColor e',
        nilsOff_of_marks pid hr hρ hnew h₃⟩
    · cases hpath

end Round

/-! ## Runs -/

/-- The two nil nodes of the first insertion. -/
def firstNils (a : Addr) : Prop := a = 1 ∨ a = 2

/-- Memory after a run of insertions that kept `root` on top. -/
def Inserted (s : Memory) : List (Int × Int) → Prop
  | [] => s = Memory.init
  | p :: l => 3 ≤ s.brk ∧ ∃ t, Built firstNils s t ∧ (pairs t).Perm (p :: l) ∧
      FirstOnTop firstNils p.1 t

theorem insertAll_append_run (fuel : Nat) (l : List (Int × Int)) (v pid : Int) {s s' : Memory}
    (h : insertAll fuel l s = .ok ((), s')) :
    insertAll fuel (l ++ [(v, pid)]) s = insertRound fuel v pid s' := by
  induction l generalizing s with
  | nil =>
    obtain rfl : s = s' := by simpa [insertAll] using h
    rw [List.nil_append, insertAll, run_bind]
    cases hm : insertRound fuel v pid s with
    | error e => rfl
    | ok r => rfl
  | cons p l ih =>
    rw [insertAll, run_bind] at h
    rw [List.cons_append, insertAll, run_bind]
    cases hm : insertRound fuel p.1 p.2 s with
    | error e =>
      rw [hm] at h
      cases h
    | ok r =>
      rw [hm] at h
      exact ih h

/-- Other exempt addresses, as far as the nil nodes of the tree are concerned. -/
theorem reps_exempt {l₁ l₂ : Addr → Prop} {h : Heap} {t : RbTree} {p : Ptr}
    (hl : ∀ a ∈ t.marks, l₁ a → l₂ a) (ht : Reps l₁ h p t) : Reps l₂ h p t := by
  induction t generalizing p with
  | leaf c a =>
    obtain ⟨n, hn, hty, hc, hleft, hright, hp⟩ := ht
    exact ⟨n, hn, hty, hc, hleft, hright, hp.imp_left (hl a (by simp))⟩
  | node c l x r ihl ihr =>
    exact ⟨ht.1, ihl (fun a ha => hl a (by simp [ha])) ht.2.1,
      ihr (fun a ha => hl a (by simp [ha])) ht.2.2⟩

/-- What was inserted so is a red-black tree from `root` on. -/
theorem Inserted.redBlackFromRoot {s : Memory} {l : List (Int × Int)} (h : Inserted s l) :
    RedBlackFromRoot s l := by
  cases l with
  | nil =>
    obtain rfl : s = Memory.init := h
    exact Or.inl ⟨rfl, rfl⟩
  | cons p l =>
    obtain ⟨-, t, hb, hperm, -⟩ := h
    obtain ⟨n, hbal⟩ := hb.bal
    exact Or.inr ⟨t, n, reps_exempt (fun _ _ _ => trivial) hb.rep.cells, hb.root, hb.inner, hbal,
      hb.ordered, hperm⟩

/-- The first round: the new node is black after `insertNode`, and `verifyInsertion` colours it
black again. -/
theorem insertRound_empty_run {s : Memory} {fuel : Nat} (v pid : Int) (hfuel : 0 < fuel)
    (hroot : s.root = NULL) (h₁ : loose (s.brk + 1)) (h₂ : loose (s.brk + 2)) :
    ∃ s', insertRound fuel v pid s = .ok ((), s') ∧
      Represents loose s' (firstTree s.brk v pid) ∧ s'.root = some s.brk ∧ s'.brk = s.brk + 3 := by
  obtain ⟨s₁, hrun₁, hr₁, hroot₁, hbrk₁⟩ := insertNode_first_run v pid fuel hroot h₁ h₂
  have hr₁ : Represents loose s₁ (plug [] (mk .left BLACK (.leaf BLACK (s.brk + 1))
      ⟨s.brk, v, pid⟩ (.leaf BLACK (s.brk + 2)))) := hr₁
  have hx : s₁.heap s.brk =
      some (cell .left NULL BLACK (s.brk + 1) ⟨s.brk, v, pid⟩ (s.brk + 2)) := hr₁.heap_mk
  obtain ⟨s₂, hrun₂, hr₂, hroot₂, hbrk₂⟩ := hr₁.setColor_run BLACK
  have hrun₂ : setColor (some s.brk) BLACK s₁ = .ok ((), s₂) := hrun₂
  obtain ⟨fuel, rfl⟩ : ∃ k, fuel = k + 1 := ⟨fuel - 1, by omega⟩
  refine ⟨s₂, ?_, hr₂, by rw [hroot₂, hroot₁], by rw [hbrk₂, hbrk₁]⟩
  simp only [insertRound, run_bind, hrun₁]
  simp [verifyInsertion, run_bind, load, hx, hrun₂]

theorem bal_firstTree (a : Addr) (v pid : Int) : Bal (firstTree a v pid) BLACK 1 :=
  .black _ (.leaf _) (.leaf _)

/-- The first round makes a tree of one node. -/
theorem insertRound_first_run {fuel : Nat} (v pid : Int) (hfuel : 0 < fuel) :
    ∃ s', insertRound fuel v pid Memory.init = .ok ((), s') ∧
      Inserted s' [(v, pid)] := by
  have h₁ : firstNils (Memory.init.brk + 1) := Or.inl rfl
  obtain ⟨s', hrun, hr, hroot, hbrk⟩ := insertRound_empty_run v pid hfuel rfl h₁ (Or.inr rfl)
  refine ⟨s', hrun, by rw [hbrk]; exact Nat.le_refl 3, firstTree 0 v pid, ?_, .refl _,
    BLACK, .leaf BLACK 1, ⟨0, v, pid⟩, .leaf BLACK 2, rfl, rfl, Or.inl rfl, Or.inl rfl⟩
  exact ⟨hr, hroot, rfl, ⟨1, bal_firstTree 0 v pid⟩, by simp [Ordered, firstTree]⟩

/-- The fuel exceeds the height of every red-black tree with `n` entries. -/
def Outlasts (fuel n : Nat) : Prop :=
  ∀ (t : RbTree) (m : Nat), Bal t BLACK m → t.toList.length = n → t.height < fuel

theorem outlasts_of_lt {fuel n : Nat} (h : n < fuel) : Outlasts fuel n := by
  rintro t m - rfl
  exact lt_of_le_of_lt (Tree.height_le_length t) h

/-- Logarithmic fuel is enough. -/
theorem outlasts_of_log {fuel n : Nat} (h : 2 * Nat.log 2 (n + 1) < fuel) : Outlasts fuel n := by
  rintro t m hbal rfl
  exact lt_of_le_of_lt hbal.height_le_log h

theorem Outlasts.pos {fuel : Nat} (h : Outlasts fuel 0) : 0 < fuel :=
  h (.leaf BLACK 0) 0 (.leaf 0) rfl

/-- One round after a run that kept `root` on top. -/
theorem Inserted.round_of_outlasts {s : Memory} {l : List (Int × Int)} {fuel : Nat} {v : Int}
    (pid : Int) (h : Inserted s l) (hv : v ∉ l.map Prod.fst) (hfuel : Outlasts fuel l.length) :
    ∃ s', insertRound fuel v pid s = .ok ((), s') ∧
      (¬ RotatesRoot s v → Inserted s' (l ++ [(v, pid)])) ∧
      (RotatesRoot s v → ¬ ∃ l', RedBlackFromRoot s' l') := by
  cases l with
  | nil =>
    obtain rfl : s = Memory.init := h
    obtain ⟨s', hrun, hins⟩ := insertRound_first_run v pid hfuel.pos
    refine ⟨s', hrun, fun _ => hins, ?_⟩
    rintro ⟨t, -, hroot, -⟩
    cases hroot
  | cons p l =>
    obtain ⟨hbrk, t, hb, hperm, hfirst⟩ := h
    have hv' : ∀ x ∈ t.toList, x.value ≠ v := by
      rintro x hx rfl
      refine hv ((hperm.map Prod.fst).mem_iff.1 ?_)
      simp only [pairs, List.map_map, List.mem_map]
      exact ⟨x, hx, rfl⟩
    have hheight : t.height < fuel := by
      obtain ⟨n, hbal⟩ := hb.bal
      exact hfuel t n hbal (by simpa [pairs] using hperm.length_eq)
    obtain ⟨s', hrun, hr, hroot, hbrk', hbal, hord, hpairs⟩ :=
      insertRound_run_of_height pid hb hv' hheight
    have hnew : ¬ firstNils s.brk ∧ ¬ firstNils (s.brk + 1) := by
      constructor <;> rintro (e | e) <;> grind
    -- the memory determines the tree at `root`, hence whether the round rotates there
    have hunique : ∀ u, Reps (fun _ => True) s.heap NULL u → s.root = some (addr u) → u = t := by
      intro u hu hru
      rw [hb.root] at hru
      exact reps_unique hu hb.rep.cells (Option.some.inj hru).symm
    refine ⟨s', hrun, fun hrot => ?_, fun hrot => ?_⟩
    · have hrot' : ¬ RotatesTop (searchPath v t) := fun h =>
        hrot ⟨t, reps_exempt (fun _ _ _ => trivial) hb.rep.cells, hb.root, h⟩
      obtain ⟨haddr, hinner, hfirst'⟩ := hb.insertTree_top pid hv' hrot' hnew hfirst
      refine ⟨by grind, _, ⟨hr, by rw [hroot, haddr, hb.root], hinner, hbal, hord⟩, ?_, hfirst'⟩
      refine hpairs.trans ((hperm.cons _).trans ?_)
      exact (List.perm_append_singleton _ _).symm
    · obtain ⟨u, hu, hru, hrot⟩ := hrot
      obtain rfl := hunique u hu hru
      -- after a rotation at the top, the node that `root` names has a parent
      obtain ⟨n, q, hn, hq⟩ := insertRound_root_lost pid hb hv' hrot hr
      rintro ⟨l', ⟨hnull, -⟩ | ⟨t', m, ht', hroot', hinner', -⟩⟩
      · rw [hroot, hb.root] at hnull
        cases hnull
      · rw [hroot, hb.root] at hroot'
        cases t' with
        | leaf c a => cases hinner'
        | node c l x r =>
          have hx := ht'.1
          rw [addr_node] at hroot'
          rw [Option.some.inj hroot', hx] at hn
          rw [← Option.some.inj hn] at hq
          cases hq

/-- A round that does not rotate at the root keeps `root` on top. -/
theorem Inserted.round {s : Memory} {l : List (Int × Int)} {fuel : Nat} {v : Int}
    (pid : Int) (h : Inserted s l) (hv : v ∉ l.map Prod.fst) (hfuel : l.length < fuel) :
    ∃ s', insertRound fuel v pid s = .ok ((), s') ∧
      (¬ RotatesRoot s v → Inserted s' (l ++ [(v, pid)])) ∧
      (RotatesRoot s v → ¬ ∃ l', RedBlackFromRoot s' l') :=
  h.round_of_outlasts pid hv (outlasts_of_lt hfuel)

theorem not_mem_take_of_nodup {l : List (Int × Int)} {k : Nat} (hd : (l.map Prod.fst).Nodup)
    (hk : k < l.length) : l[k].1 ∉ (l.take k).map Prod.fst := by
  intro hm
  rw [List.map_take, List.mem_take_iff_getElem] at hm
  obtain ⟨j, hj, e⟩ := hm
  have hjk : j = k := by
    have hj' : j < (l.map Prod.fst).length := by omega
    have hk' : k < (l.map Prod.fst).length := by simpa using hk
    refine (List.Nodup.getElem_inj_iff hd).1
      (e.trans ?_ : (l.map Prod.fst)[j] = (l.map Prod.fst)[k])
    simp
  omega

/-- A run whose rounds do not rotate at the node that `root` names ends with that node on top. -/
theorem inserted_of_outlasts {l : List (Int × Int)} {fuel : Nat} (hd : (l.map Prod.fst).Nodup)
    (hfuel : ∀ k ≤ l.length, Outlasts fuel k) :
    ∀ k ≤ l.length,
      (∀ j (_ : j < k) (hl : j < l.length) s,
        insertAll fuel (l.take j) Memory.init = .ok ((), s) → ¬ RotatesRoot s l[j].1) →
      ∃ s, insertAll fuel (l.take k) Memory.init = .ok ((), s) ∧ Inserted s (l.take k) := by
  intro k
  induction k with
  | zero => exact fun _ _ => ⟨Memory.init, rfl, rfl⟩
  | succ k ih =>
    intro hk hrot
    obtain ⟨s, hrun, hins⟩ := ih (by omega) fun j hj => hrot j (by omega)
    have htake : l.take (k + 1) = l.take k ++ [(l[k].1, l[k].2)] := by
      rw [List.take_succ_eq_append_getElem hk]
    have hlen : Outlasts fuel (l.take k).length := by
      rw [List.length_take]
      exact hfuel _ (Nat.min_le_right k l.length)
    obtain ⟨s', hrun', hkeep, -⟩ := hins.round_of_outlasts l[k].2 
      (not_mem_take_of_nodup hd hk) hlen
    rw [htake, insertAll_append_run fuel _ _ _ hrun]
    exact ⟨s', hrun', hkeep (hrot k (by omega) hk s hrun)⟩

/-- If no round rotates at the root, the pairs are inserted one after another. -/
theorem inserted_of_keepsRoot {l : List (Int × Int)} {fuel : Nat} (hd : (l.map Prod.fst).Nodup)
    (hfuel : l.length < fuel) :
    ∀ k ≤ l.length,
      (∀ j (_ : j < k) (hl : j < l.length) s,
        insertAll fuel (l.take j) Memory.init = .ok ((), s) → ¬ RotatesRoot s l[j].1) →
      ∃ s, insertAll fuel (l.take k) Memory.init = .ok ((), s) ∧ Inserted s (l.take k) :=
  inserted_of_outlasts hd fun _ hk => outlasts_of_lt (lt_of_le_of_lt hk hfuel)

/-- After each step of a run of insertions of distinct values the structure reached from `root` is a
red-black tree of the pairs inserted so far, if and only if no step rotates at the node that `root`
names. -/
theorem insertAll_redBlack_iff {l : List (Int × Int)} {fuel : Nat}
    (hd : (l.map Prod.fst).Nodup) (hfuel : l.length < fuel) :
    (∀ k ≤ l.length, ∃ s, insertAll fuel (l.take k) Memory.init = .ok ((), s) ∧
      RedBlackFromRoot s (l.take k)) ↔
    ∀ k (hk : k < l.length) s, insertAll fuel (l.take k) Memory.init = .ok ((), s) →
      ¬ RotatesRoot s l[k].1 := by
  constructor
  · intro h k
    induction k using Nat.strongRecOn with
    | ind k ih =>
      intro hk s hrun hrot
      obtain ⟨s₁, hrun₁, hins⟩ := inserted_of_keepsRoot hd hfuel k (by omega) fun j hj hl =>
        ih j hj hl
      obtain rfl : s₁ = s := by
        rw [hrun] at hrun₁
        exact (Prod.mk.inj (Except.ok.inj hrun₁)).2.symm
      have hlen : (l.take k).length < fuel := by
        rw [List.length_take]
        omega
      obtain ⟨s', hrun', -, hlost⟩ := hins.round l[k].2 (not_mem_take_of_nodup hd hk) hlen
      obtain ⟨s₂, hrun₂, hrb⟩ := h (k + 1) hk
      rw [List.take_succ_eq_append_getElem hk, insertAll_append_run fuel _ _ _ hrun, hrun'] at hrun₂
      obtain rfl := (Prod.mk.inj (Except.ok.inj hrun₂)).2
      exact hlost hrot ⟨_, hrb⟩
  · intro h k hk
    obtain ⟨s, hrun, hins⟩ := inserted_of_keepsRoot hd hfuel k hk fun j _ hl => h j hl
    exact ⟨s, hrun, hins.redBlackFromRoot⟩

theorem insertAll_redBlack_iff_vrt :
    (∀ k ≤ vrt.length, ∃ s, insertAll 10 (vrt.take k) Memory.init = .ok ((), s) ∧
      RedBlackFromRoot s (vrt.take k)) ↔
    ∀ k (hk : k < vrt.length) s, insertAll 10 (vrt.take k) Memory.init = .ok ((), s) →
      ¬ RotatesRoot s vrt[k].1 :=
  insertAll_redBlack_iff (by decide) (by decide)

/-- The third of three increasing values rotates at `root`, which then has a parent. -/
theorem insertAll_three_increasing_not_redBlack :
    ¬ ∀ k ≤ 3, ∃ s, insertAll 4 ([(1, 0), (2, 1), (3, 2)].take k) Memory.init = .ok ((), s) ∧
      RedBlackFromRoot s ([(1, 0), (2, 1), (3, 2)].take k) := by
  intro h
  obtain ⟨s, hrun, hrb⟩ := h 3 (Nat.le_refl 3)
  have hcell : ((insertAll 4 [(1, 0), (2, 1), (3, 2)] Memory.init).toOption.bind fun r =>
      r.2.root.bind fun a => (r.2.heap a).map Rbtnode.parent) = some (some 2) := by
    decide +kernel
  have hrun : insertAll 4 [(1, 0), (2, 1), (3, 2)] Memory.init = .ok ((), s) := hrun
  rw [hrun] at hcell
  rcases hrb with ⟨hroot, -⟩ | ⟨t, n, ht, hroot, hinner, -⟩
  · simp [Except.toOption, hroot] at hcell
  · cases t with
    | leaf c a => cases hinner
    | node c l x r =>
      have hx : s.heap x.addr = some (cell .left NULL c (addr l) x (addr r)) := ht.1
      simp [Except.toOption, hroot, hx] at hcell

end EE516.RedBlackTree
