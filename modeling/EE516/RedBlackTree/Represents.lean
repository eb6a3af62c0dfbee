import EE516.Foundations.RedBlackInsert
import EE516.RedBlackTree.Node

/-!
# Trees in memory

`Represents loose s t` says that the heap of `s` holds the tree `t`: every node of `t` is at its
address with the right pointers in all directions. The addresses in `loose` are exempt in one
point: a nil node there may have any parent pointer. `calloc` leaves the nil nodes of the very first
node in that state.

A program point inside a tree is a path and a subtree, `plug π t`. Each primitive of the program has
one lemma that takes a represented `plug π t` to the represented result: reading a cell
(`Represents.heap_mk`), recolouring (`Represents.setColor_run`) and the two rotations
(`Represents.rotate_run`).
-/

set_option autoImplicit false

namespace EE516.RedBlackTree

open EE516.Foundations.ColorTree
open EE516.Foundations.ColorTree.Tree (mk)

/-- What an inner node of the abstract tree carries: its address and its data. -/
structure Entry where
  addr : Addr
  value : Int
  pid : Int
  deriving DecidableEq, Repr

/-- A tree whose leaves carry the addresses of the nil nodes. -/
abbrev RbTree := Tree Entry Addr

/-- The way from a node up to the top of its tree. -/
abbrev RbPath := List (Frame Entry Addr)

/-- The nodes at their addresses. -/
abbrev Heap := Addr → Option Rbtnode

/-- The address of the root of a subtree. -/
def addr : RbTree → Addr
  | .leaf _ a => a
  | .node _ _ x _ => x.addr

@[simp] theorem addr_leaf (c : Color) (a : Addr) : addr (.leaf c a) = a := rfl

@[simp] theorem addr_node (c : Color) (l r : RbTree) (x : Entry) :
    addr (.node c l x r) = x.addr := rfl

@[simp] theorem addr_mk (sd : Side) (c : Color) (l r : RbTree) (x : Entry) :
    addr (mk sd c l x r) = x.addr := by
  cases sd <;> rfl

@[simp] theorem addr_setColor (c : Color) (t : RbTree) : addr (t.setColor c) = addr t := by
  cases t <;> rfl

theorem addr_plug_congr (π : RbPath) {t u : RbTree} (h : addr t = addr u) :
    addr (plug π t) = addr (plug π u) := by
  induction π generalizing t u with
  | nil => exact h
  | cons f π ih => exact ih (by simp [Frame.fill])

theorem addr_of_root {t : RbTree} {x : Entry} (h : t.root = some x) : addr t = x.addr := by
  cases t with
  | leaf c a => cases h
  | node c l y r =>
    obtain rfl := Option.some.inj h
    rfl

/-- All addresses of a tree. -/
def addrs : RbTree → List Addr
  | .leaf _ a => [a]
  | .node _ l x r => x.addr :: (addrs l ++ addrs r)

@[simp] theorem addrs_leaf (c : Color) (a : Addr) : addrs (.leaf c a) = [a] := rfl

@[simp] theorem addrs_node (c : Color) (l r : RbTree) (x : Entry) :
    addrs (.node c l x r) = x.addr :: (addrs l ++ addrs r) := rfl

@[simp] theorem addrs_setColor (c : Color) (t : RbTree) : addrs (t.setColor c) = addrs t := by
  cases t <;> rfl

theorem addr_mem_addrs (t : RbTree) : addr t ∈ addrs t := by
  cases t <;> simp

/-- The tree node of type `NIL` or `ALLOCATED` that a subtree has at its root. -/
def nodeType (t : RbTree) : NodeType :=
  if t.isLeaf then .NIL else .ALLOCATED

@[simp] theorem nodeType_leaf (c : Color) (a : Addr) : nodeType (.leaf c a) = .NIL := rfl

@[simp] theorem nodeType_node (c : Color) (l r : RbTree) (x : Entry) :
    nodeType (.node c l x r) = .ALLOCATED := rfl

/-- The cell of an inner node whose child on the side `sd` is at `near`. -/
def cell (sd : Side) (parent : Ptr) (c : Color) (near : Addr) (x : Entry) (far : Addr) : Rbtnode :=
  match sd with
  | .left => ⟨parent, some far, some near, x.pid, x.value, c, .ALLOCATED⟩
  | .right => ⟨parent, some near, some far, x.pid, x.value, c, .ALLOCATED⟩

section Cell

variable (sd : Side) (p : Ptr) (c : Color) (a b : Addr) (x : Entry)

@[simp] theorem cell_parent : (cell sd p c a x b).parent = p := by
  cases sd <;> rfl

@[simp] theorem cell_color : (cell sd p c a x b).color = c := by
  cases sd <;> rfl

@[simp] theorem cell_type : (cell sd p c a x b).type = .ALLOCATED := by
  cases sd <;> rfl

@[simp] theorem cell_value : (cell sd p c a x b).value = x.value := by
  cases sd <;> rfl

@[simp] theorem cell_pid : (cell sd p c a x b).pid = x.pid := by
  cases sd <;> rfl

@[simp] theorem cell_left_left : (cell .left p c a x b).left = some a := rfl

@[simp] theorem cell_left_right : (cell .left p c a x b).right = some b := rfl

@[simp] theorem cell_right_left : (cell .right p c a x b).left = some b := rfl

@[simp] theorem cell_right_right : (cell .right p c a x b).right = some a := rfl

end Cell

variable (loose : Addr → Prop)

/-- The heap holds the subtree, and the parent pointer of its root is `parent`. -/
def Reps (h : Heap) : Ptr → RbTree → Prop
  | parent, .leaf c a =>
    ∃ n, h a = some n ∧ n.type = .NIL ∧ n.color = c ∧ n.left = NULL ∧ n.right = NULL ∧
      (loose a ∨ n.parent = parent)
  | parent, .node c l x r =>
    h x.addr = some (cell .left parent c (addr l) x (addr r)) ∧
      Reps h (some x.addr) l ∧ Reps h (some x.addr) r

/-- The node above the hole of a path. -/
def holder : RbPath → Ptr
  | [] => NULL
  | f :: _ => some f.x.addr

@[simp] theorem holder_nil : holder [] = NULL := rfl

@[simp] theorem holder_cons (f : Frame Entry Addr) (π : RbPath) :
    holder (f :: π) = some f.x.addr := rfl

/-- The addresses of the frames of a path and of the subtrees beside it. -/
def pathAddrs : RbPath → List Addr
  | [] => []
  | f :: π => f.x.addr :: (addrs f.sib ++ pathAddrs π)

/-- The heap holds the frames of the path above a subtree at `a`. -/
def RepsPath (h : Heap) : RbPath → Addr → Prop
  | [], _ => True
  | f :: π, a =>
    h f.x.addr = some (cell f.side (holder π) f.c a f.x (addr f.sib)) ∧
      Reps loose h (some f.x.addr) f.sib ∧ RepsPath h π f.x.addr

variable {loose}

theorem reps_congr {h h' : Heap} {t : RbTree} (he : ∀ a ∈ addrs t, h' a = h a) {p : Ptr}
    (ht : Reps loose h p t) : Reps loose h' p t := by
  induction t generalizing p with
  | leaf c a =>
    obtain ⟨n, hn, hrest⟩ := ht
    exact ⟨n, by rw [he a (by simp), hn], hrest⟩
  | node c l x r ihl ihr =>
    obtain ⟨hx, hl, hr⟩ := ht
    refine ⟨by rw [he _ (by simp), hx], ihl (fun a ha => he a ?_) hl, ihr (fun a ha => he a ?_) hr⟩
    · simp [ha]
    · simp [ha]

theorem repsPath_congr {h h' : Heap} {π : RbPath} (he : ∀ a ∈ pathAddrs π, h' a = h a) {a : Addr}
    (hπ : RepsPath loose h π a) : RepsPath loose h' π a := by
  induction π generalizing a with
  | nil => exact hπ
  | cons f π ih =>
    obtain ⟨hf, hsib, hπ⟩ := hπ
    refine ⟨by rw [he _ (by simp [pathAddrs]), hf], reps_congr (fun a ha => he a ?_) hsib,
      ih (fun a ha => he a ?_) hπ⟩
    · simp [pathAddrs, ha]
    · simp [pathAddrs, ha]

/-- A subtree moves under another parent when its root gets the new parent pointer. -/
theorem reps_adopt {h h' : Heap} {t : RbTree} {p q : Ptr} (hnd : (addrs t).Nodup)
    (ht : Reps loose h p t) (hroot : h' (addr t) = (h (addr t)).map fun n => { n with parent := q })
    (he : ∀ a ∈ addrs t, a ≠ addr t → h' a = h a) : Reps loose h' q t := by
  cases t with
  | leaf c a =>
    obtain ⟨n, hn, hty, hc, hl, hr, -⟩ := ht
    simp only [addr_leaf] at hroot
    rw [hn] at hroot
    exact ⟨_, hroot, hty, hc, hl, hr, Or.inr rfl⟩
  | node c l x r =>
    obtain ⟨hx, hl, hr⟩ := ht
    simp only [addr_node] at hroot he
    rw [hx] at hroot
    simp only [addrs_node, List.nodup_cons, List.mem_append, not_or] at hnd
    refine ⟨hroot, reps_congr (fun a ha => he a (by simp [ha]) ?_) hl,
      reps_congr (fun a ha => he a (by simp [ha]) ?_) hr⟩
    · rintro rfl
      exact hnd.1.1 ha
    · rintro rfl
      exact hnd.1.2 ha

theorem reps_mk {h : Heap} {p : Ptr} {sd : Side} {c : Color} {l r : RbTree} {x : Entry} :
    Reps loose h p (mk sd c l x r) ↔ h x.addr = some (cell sd p c (addr l) x (addr r)) ∧
      Reps loose h (some x.addr) l ∧ Reps loose h (some x.addr) r := by
  cases sd with
  | left => rfl
  | right => exact and_congr Iff.rfl and_comm

/-- A tree in a path is the path and the tree. -/
theorem reps_plug {h : Heap} {π : RbPath} {t : RbTree} :
    Reps loose h NULL (plug π t) ↔ RepsPath loose h π (addr t) ∧ Reps loose h (holder π) t := by
  induction π generalizing t with
  | nil => simp [RepsPath]
  | cons f π ih =>
    rw [plug_cons, ih, Frame.fill, reps_mk, addr_mk, RepsPath, holder_cons]
    tauto

theorem addrs_mk_perm (sd : Side) (c : Color) (l r : RbTree) (x : Entry) :
    (addrs (mk sd c l x r)).Perm (x.addr :: (addrs l ++ addrs r)) := by
  cases sd with
  | left => exact .refl _
  | right => exact .cons _ List.perm_append_comm

/-- The nodes of a tree in a path are those of the path and of the tree. -/
theorem addrs_plug_perm (π : RbPath) (t : RbTree) :
    (addrs (plug π t)).Perm (pathAddrs π ++ addrs t) := by
  induction π generalizing t with
  | nil => exact .refl _
  | cons f π ih =>
    refine (ih _).trans ?_
    refine ((addrs_mk_perm f.side f.c t f.sib f.x).append_left _).trans ?_
    simp only [pathAddrs]
    grind

/-- The heap of `s` holds the tree `t`; its nodes are at different addresses below the next one
that `calloc` returns. -/
structure Represents (loose : Addr → Prop) (s : Memory) (t : RbTree) : Prop where
  intro ::
  cells : Reps loose s.heap NULL t
  nodup : (addrs t).Nodup
  lt_brk : ∀ a ∈ addrs t, a < s.brk

/-- Rearranging the cells of a tree represents the rearranged tree. -/
theorem Represents.of_perm {s s' : Memory} {t t' : RbTree} (hr : Represents loose s t)
    (hp : (addrs t').Perm (addrs t)) (hb : s'.brk = s.brk) (hc : Reps loose s'.heap NULL t') :
    Represents loose s' t' :=
  ⟨hc, hp.nodup_iff.2 hr.nodup, fun a ha => hb ▸ hr.lt_brk a (hp.mem_iff.1 ha)⟩

section Cells

variable {s : Memory} {π : RbPath} {sd : Side} {c : Color} {l r t : RbTree} {x : Entry}

/-- No node is in the path and in the tree. -/
theorem Represents.nodup_plug (hr : Represents loose s (plug π t)) :
    (pathAddrs π ++ addrs t).Nodup :=
  (addrs_plug_perm π t).nodup_iff.1 hr.nodup

theorem Represents.heap_mk (hr : Represents loose s (plug π (mk sd c l x r))) :
    s.heap x.addr = some (cell sd (holder π) c (addr l) x (addr r)) :=
  (reps_mk.1 (reps_plug.1 hr.cells).2).1

theorem Represents.heap_node (hr : Represents loose s (plug π (.node c l x r))) :
    s.heap x.addr = some (cell .left (holder π) c (addr l) x (addr r)) := by
  have hr' : Represents loose s (plug π (mk .left c l x r)) := hr
  exact hr'.heap_mk

theorem Represents.heap_frame {f : Frame Entry Addr} (hr : Represents loose s (plug (f :: π) t)) :
    s.heap f.x.addr = some (cell f.side (holder π) f.c (addr t) f.x (addr f.sib)) :=
  Represents.heap_mk hr

/-- The cell at the root of a subtree. -/
theorem Represents.heap_root (hr : Represents loose s (plug π t)) :
    ∃ n, s.heap (addr t) = some n ∧ n.color = t.color ∧ n.type = nodeType t ∧
      (¬ loose (addr t) → n.parent = holder π) := by
  have h := (reps_plug.1 hr.cells).2
  cases t with
  | leaf c a =>
    obtain ⟨n, hn, hty, hc, -, -, hp⟩ := h
    exact ⟨n, hn, hc, hty, fun hl => hp.resolve_left hl⟩
  | node c l x r => exact ⟨_, h.1, rfl, rfl, fun _ => rfl⟩

/-- The same tree with another subtree in focus. -/
theorem Represents.focus {u : RbTree} {ρ : RbPath} (hr : Represents loose s (plug π t))
    (h : plug ρ u = plug π t) : Represents loose s (plug ρ u) := by
  rw [h]
  exact hr

end Cells

/-! ## Running the primitives -/

/-- A program runs step by step. -/
theorem run_bind {γ δ : Type} (m : Exec γ) (f : γ → Exec δ) (s : Memory) :
    (m >>= f) s = match m s with
      | .ok (a, s') => f a s'
      | .error e => .error e := by
  cases h : m s with
  | error e => simp [bind, StateT.bind, Except.bind, h]
  | ok r => simp [bind, StateT.bind, Except.bind, h]

theorem run_map {γ δ : Type} (g : γ → δ) (m : Exec γ) (s : Memory) :
    (g <$> m) s = match m s with
      | .ok (a, s') => .ok (g a, s')
      | .error e => .error e := by
  rw [← bind_pure_comp, run_bind]
  rfl

@[simp] theorem run_pure {γ : Type} (a : γ) (s : Memory) : (pure a : Exec γ) s = .ok (a, s) := rfl

theorem load_run {s : Memory} {a : Addr} {n : Rbtnode} (h : s.heap a = some n) :
    load (some a) s = .ok (n, s) := by
  simp [load, h]

theorem store_run {s : Memory} {a : Addr} {n : Rbtnode} (h : s.heap a = some n)
    (f : Rbtnode → Rbtnode) : store (some a) f s = .ok ((), s.set a (f n)) := by
  simp [store, h]

@[simp] theorem getRoot_run (s : Memory) : getRoot s = .ok (s.root, s) := rfl

@[simp] theorem setRoot_run (p : Ptr) (s : Memory) :
    setRoot p s = .ok ((), { s with root := p }) := rfl

@[simp] theorem Memory.set_heap (s : Memory) (a b : Addr) (n : Rbtnode) :
    (s.set a n).heap b = if b = a then some n else s.heap b := rfl

@[simp] theorem Memory.set_root (s : Memory) (a : Addr) (n : Rbtnode) :
    (s.set a n).root = s.root := rfl

@[simp] theorem Memory.set_brk (s : Memory) (a : Addr) (n : Rbtnode) :
    (s.set a n).brk = s.brk := rfl

/-- An assignment that leaves the links of a node as they are: another colour or other data. -/
theorem Represents.relabel_run {s : Memory} {π : RbPath} {sd : Side} {c d : Color} {l r : RbTree}
    {x y : Entry} (hr : Represents loose s (plug π (mk sd c l x r))) {f : Rbtnode → Rbtnode}
    (ha : y.addr = x.addr) (hf : ∀ p a b, f (cell sd p c a x b) = cell sd p d a y b) :
    ∃ s', store (some x.addr) f s = .ok ((), s') ∧
      Represents loose s' (plug π (mk sd d l y r)) ∧ s'.root = s.root ∧ s'.brk = s.brk := by
  have hx := hr.heap_mk
  refine ⟨_, store_run hx _, hr.of_perm ?_ rfl ?_, rfl, rfl⟩
  · refine (addrs_plug_perm _ _).trans (.trans ?_ (addrs_plug_perm _ _).symm)
    refine .append_left _ ?_
    refine (addrs_mk_perm _ _ _ _ _).trans (.trans ?_ (addrs_mk_perm _ _ _ _ _).symm)
    rw [ha]
  · obtain ⟨hπ, ht⟩ := reps_plug.1 hr.cells
    obtain ⟨-, hl, hrr⟩ := reps_mk.1 ht
    have hnd := (((addrs_mk_perm sd c l r x).append_left (pathAddrs π)).nodup_iff).1 hr.nodup_plug
    simp only [List.nodup_append, List.nodup_cons, List.mem_append, List.mem_cons] at hnd
    refine reps_plug.2 ⟨repsPath_congr (fun a ha => ?_) (by simpa [ha] using hπ),
      reps_mk.2 ⟨?_, ?_, ?_⟩⟩
    · have : a ≠ x.addr := by grind
      simp [this]
    · rw [ha, hf]
      simp
    · rw [ha]
      refine reps_congr (fun a ha => ?_) hl
      have : a ≠ x.addr := by grind
      simp [this]
    · rw [ha]
      refine reps_congr (fun a ha => ?_) hrr
      have : a ≠ x.addr := by grind
      simp [this]

/-- Recolouring a node. -/
theorem Represents.setColor_run {s : Memory} {π : RbPath} {sd : Side} {c : Color} {l r : RbTree}
    {x : Entry} (hr : Represents loose s (plug π (mk sd c l x r))) (d : Color) :
    ∃ s', setColor (some x.addr) d s = .ok ((), s') ∧
      Represents loose s' (plug π (mk sd d l x r)) ∧ s'.root = s.root ∧ s'.brk = s.brk :=
  hr.relabel_run rfl fun p a b => by cases sd <;> rfl

/-- Recolouring the root of any subtree, a nil node included. -/
theorem Represents.recolor_run {s : Memory} {π : RbPath} {t : RbTree}
    (hr : Represents loose s (plug π t)) (d : Color) :
    ∃ s', setColor (some (addr t)) d s = .ok ((), s') ∧
      Represents loose s' (plug π (t.setColor d)) ∧ s'.root = s.root ∧ s'.brk = s.brk := by
  cases t with
  | leaf c a =>
    obtain ⟨hπ, n, hn, hty, -, hleft, hright, hp⟩ := reps_plug.1 hr.cells
    refine ⟨_, store_run hn _, hr.of_perm ?_ rfl ?_, rfl, rfl⟩
    · exact (addrs_plug_perm π _).trans (addrs_plug_perm π (.leaf c a)).symm
    · have hnd := hr.nodup_plug
      simp only [addrs_leaf, List.nodup_append, List.mem_singleton] at hnd
      refine reps_plug.2 ⟨repsPath_congr (fun b hb => ?_) hπ,
        ⟨{ n with color := d }, by simp, hty, rfl, hleft, hright, hp⟩⟩
      have : b ≠ a := hnd.2.2 b hb a rfl
      simp [this]
  | node c l x r =>
    have hr : Represents loose s (plug π (mk .left c l x r)) := hr
    exact hr.setColor_run d

/-- The program's rotation that moves a node down to the side `sd`. -/
def rotateCode : Side → Ptr → Exec Unit
  | .left => rotateLeft
  | .right => rotateRight

/-- What a rotation has to write. -/
theorem reps_rotate {h h' : Heap} {π : RbPath} {sd : Side} {c d : Color} {A B C : RbTree}
    {x y : Entry} (ht : Reps loose h NULL (plug π (mk sd c A x (mk sd d B y C))))
    (hnd : (addrs (plug π (mk sd c A x (mk sd d B y C)))).Nodup)
    (hx : h' x.addr = some (cell sd (some y.addr) c (addr A) x (addr B)))
    (hy : h' y.addr = some (cell sd (holder π) d x.addr y (addr C)))
    (hB : h' (addr B) = (h (addr B)).map fun n => { n with parent := some x.addr })
    (hπ : ∀ f ρ, π = f :: ρ →
      h' f.x.addr = some (cell f.side (holder ρ) f.c y.addr f.x (addr f.sib)))
    (hother : ∀ a, a ≠ x.addr → a ≠ y.addr → a ≠ addr B → some a ≠ holder π → h' a = h a) :
    Reps loose h' NULL (plug π (mk sd d (mk sd c A x B) y C)) := by
  obtain ⟨hp, ht⟩ := reps_plug.1 ht
  obtain ⟨-, hA, ht⟩ := reps_mk.1 ht
  obtain ⟨-, hB', hC⟩ := reps_mk.1 ht
  have hnd : (pathAddrs π ++ x.addr :: (addrs A ++ y.addr :: (addrs B ++ addrs C))).Nodup := by
    refine List.Perm.nodup (.trans (addrs_plug_perm _ _) (.append_left _ ?_)) hnd
    exact (addrs_mk_perm _ _ _ _ _).trans (.cons _ (.append_left _ (addrs_mk_perm _ _ _ _ _)))
  -- all addresses differ, so that each cell of the other subtrees and of the path is untouched
  have hBm := addr_mem_addrs B
  have hholder : ∀ a, some a = holder π → a ∈ pathAddrs π := by
    intro a ha
    cases π with
    | nil => cases ha
    | cons f ρ =>
      simp only [holder_cons, Option.some.injEq] at ha
      simp [pathAddrs, ha]
  simp only [List.nodup_append, List.nodup_cons, List.mem_append, List.mem_cons] at hnd
  refine reps_plug.2 ⟨?_, reps_mk.2 ⟨by simpa using hy, reps_mk.2 ⟨by simpa using hx, ?_, ?_⟩, ?_⟩⟩
  · cases π with
    | nil => trivial
    | cons f ρ =>
      obtain ⟨-, hsib, hρ⟩ := hp
      simp only [pathAddrs, List.nodup_cons, List.mem_cons, List.mem_append, holder_cons]
        at hnd hother
      refine ⟨by simpa using hπ f ρ rfl, reps_congr (fun a ha => ?_) hsib,
        repsPath_congr (fun a ha => ?_) hρ⟩
      · exact hother a (by grind) (by grind) (by grind) (by grind)
      · exact hother a (by grind) (by grind) (by grind) (by grind)
  · refine reps_congr (fun a ha => ?_) hA
    exact hother a (by grind) (by grind) (by grind) (by grind)
  -- the inner child changes its parent, and nothing else in it changes
  · refine reps_adopt (by grind) hB' hB fun a ha hne => ?_
    exact hother a (by grind) (by grind) hne (by grind)
  · refine reps_congr (fun a ha => ?_) hC
    exact hother a (by grind) (by grind) (by grind) (by grind)

/-- A rotation of the program is the rotation of the tree. -/
theorem Represents.rotate_run {s : Memory} {π : RbPath} {sd : Side} {c d : Color}
    {A B C : RbTree} {x y : Entry}
    (hr : Represents loose s (plug π (mk sd c A x (mk sd d B y C)))) :
    ∃ s', rotateCode sd (some x.addr) s = .ok ((), s') ∧
      Represents loose s' (plug π (mk sd d (mk sd c A x B) y C)) ∧ s'.root = s.root ∧
      s'.brk = s.brk := by
  have hx := hr.heap_mk
  have hry : Represents loose s (plug (⟨sd.other, c, x, A⟩ :: π) (mk sd d B y C)) :=
    hr.focus (by simp [Tree.mk_other])
  have hy := hry.heap_mk
  have hrB : Represents loose s (plug (⟨sd, d, y, C⟩ :: ⟨sd.other, c, x, A⟩ :: π) B) := hry
  obtain ⟨nb, hb, -, -, -⟩ := hrB.heap_root
  have hnd := hrB.nodup_plug
  have hBm := addr_mem_addrs B
  simp only [pathAddrs, List.nodup_append, List.nodup_cons, List.mem_append, List.mem_cons,
    List.cons_append] at hnd
  have hxy : x.addr ≠ y.addr := by grind
  have hxb : x.addr ≠ addr B := by grind
  have hyb : y.addr ≠ addr B := by grind
  simp only [holder_cons, addr_mk] at hx hy
  -- what the run writes, with and without a node above the rotation
  have key : ∃ s', rotateCode sd (some x.addr) s = .ok ((), s') ∧ s'.root = s.root ∧
      s'.brk = s.brk ∧ s'.heap x.addr = some (cell sd (some y.addr) c (addr A) x (addr B)) ∧
      s'.heap y.addr = some (cell sd (holder π) d x.addr y (addr C)) ∧
      s'.heap (addr B) = (s.heap (addr B)).map (fun n => { n with parent := some x.addr }) ∧
      (∀ f ρ, π = f :: ρ →
        s'.heap f.x.addr = some (cell f.side (holder ρ) f.c y.addr f.x (addr f.sib))) ∧
      ∀ a, a ≠ x.addr → a ≠ y.addr → a ≠ addr B → some a ≠ holder π → s'.heap a = s.heap a := by
    cases π with
    | nil =>
      cases sd <;>
        simp [rotateCode, rotateLeft, rotateRight, setParent, setRight, setLeft, load, store,
          run_bind, hx, hy, hb, cell, hxy, hxy.symm, hxb, hxb.symm, hyb, hyb.symm] <;> grind
    | cons f ρ =>
      have hf := Represents.heap_frame hr
      have hsib := addr_mem_addrs f.sib
      simp only [pathAddrs, List.mem_cons, List.mem_append] at hnd
      have hfx : f.x.addr ≠ x.addr := by grind
      have hfy : f.x.addr ≠ y.addr := by grind
      have hfb : f.x.addr ≠ addr B := by grind
      have hsx : addr f.sib ≠ x.addr := by grind
      obtain ⟨fs, fc, fx, fsib⟩ := f
      simp only at hf hfx hfy hfb hsx
      cases sd <;> cases fs <;>
        simp [rotateCode, rotateLeft, rotateRight, setParent, setRight, setLeft, load, store,
          run_bind, hx, hy, hb, hf, cell, hxy, hxy.symm, hxb, hxb.symm, hyb, hyb.symm, hfx,
          hfx.symm, hfy, hfy.symm, hfb, hfb.symm, hsx] <;> grind
  obtain ⟨s', hrun, hroot, hbrk, h₁, h₂, h₃, h₄, h₅⟩ := key
  refine ⟨s', hrun, hr.of_perm ?_ hbrk ?_, hroot, hbrk⟩
  · refine (addrs_plug_perm _ _).trans (.trans (.append_left _ ?_) (addrs_plug_perm _ _).symm)
    cases sd <;> simp <;> grind
  · exact reps_rotate hr.cells hr.nodup h₁ h₂ h₃ h₄ h₅

end EE516.RedBlackTree
