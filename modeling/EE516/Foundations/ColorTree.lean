import Mathlib.Algebra.Group.Nat.Defs
import Mathlib.Data.List.Basic
import Mathlib.Data.List.Nodup
import Mathlib.Data.Nat.Log
import Mathlib.Tactic.Cases

/-!
# Coloured binary trees and paths through them

Binary trees whose inner nodes carry a colour and an entry and whose leaves carry a colour and a
mark. A path is the list of frames from a subtree up to the top of the tree; `plug` puts a subtree
back under a path. A frame stores the side on which its hole is, so that one definition serves a
shape and its mirror image (`Tree.mk`).

`Bal t c n` is the red-black property of a subtree with root colour `c` and black height `n`;
`PathBal π c n` says which subtrees fit into the hole of the path `π`. `bal_plug` and `bal_of_plug`
translate between the property of a whole tree and the two properties of a split of it.
-/

set_option autoImplicit false

namespace EE516.Foundations.ColorTree

universe u v

/-- The colour of a node. -/
inductive Color where
  | red
  | black
  deriving DecidableEq, Repr

/-- The side of its parent on which a node is. -/
inductive Side where
  | left
  | right
  deriving DecidableEq, Repr

/-- Inner nodes carry an entry of type `α`, leaves a mark of type `β`. -/
inductive Tree (α : Type u) (β : Type v) where
  | leaf (c : Color) (m : β)
  | node (c : Color) (l : Tree α β) (x : α) (r : Tree α β)
  deriving DecidableEq

variable {α : Type u} {β : Type v}

namespace Tree

/-- The node whose child on the side `s` is `near` and whose other child is `far`. -/
def mk (s : Side) (c : Color) (near : Tree α β) (x : α) (far : Tree α β) : Tree α β :=
  match s with
  | .left => .node c near x far
  | .right => .node c far x near

@[simp] theorem mk_left (c : Color) (t : Tree α β) (x : α) (u : Tree α β) :
    mk .left c t x u = .node c t x u := rfl

@[simp] theorem mk_right (c : Color) (t : Tree α β) (x : α) (u : Tree α β) :
    mk .right c t x u = .node c u x t := rfl

/-- The colour of the root of a tree. -/
def color : Tree α β → Color
  | leaf c _ => c
  | node c _ _ _ => c

@[simp] theorem color_leaf (c : Color) (m : β) : (leaf c m : Tree α β).color = c := rfl

@[simp] theorem color_node (c : Color) (l : Tree α β) (x : α) (r : Tree α β) :
    (node c l x r).color = c := rfl

@[simp] theorem color_mk (s : Side) (c : Color) (l : Tree α β) (x : α) (r : Tree α β) :
    (mk s c l x r).color = c := by
  cases s <;> rfl

/-- The tree with its root coloured `c`. -/
def setColor (c : Color) : Tree α β → Tree α β
  | leaf _ m => leaf c m
  | node _ l x r => node c l x r

@[simp] theorem setColor_leaf (c d : Color) (m : β) :
    (leaf d m : Tree α β).setColor c = leaf c m := rfl

@[simp] theorem setColor_node (c d : Color) (l : Tree α β) (x : α) (r : Tree α β) :
    (node d l x r).setColor c = node c l x r := rfl

@[simp] theorem setColor_mk (s : Side) (c d : Color) (l : Tree α β) (x : α) (r : Tree α β) :
    (mk s d l x r).setColor c = mk s c l x r := by
  cases s <;> rfl

theorem setColor_color (t : Tree α β) : t.setColor t.color = t := by
  cases t <;> rfl

/-- The tree has no inner node. -/
def isLeaf : Tree α β → Bool
  | leaf _ _ => true
  | node _ _ _ _ => false

@[simp] theorem isLeaf_leaf (c : Color) (m : β) : (leaf c m : Tree α β).isLeaf = true := rfl

@[simp] theorem isLeaf_node (c : Color) (l : Tree α β) (x : α) (r : Tree α β) :
    (node c l x r).isLeaf = false := rfl

/-- The entries of a tree from left to right. -/
def toList : Tree α β → List α
  | leaf _ _ => []
  | node _ l x r => l.toList ++ x :: r.toList

@[simp] theorem toList_leaf (c : Color) (m : β) : (leaf c m : Tree α β).toList = [] := rfl

@[simp] theorem toList_node (c : Color) (l : Tree α β) (x : α) (r : Tree α β) :
    (node c l x r).toList = l.toList ++ x :: r.toList := rfl

@[simp] theorem toList_setColor (c : Color) (t : Tree α β) : (t.setColor c).toList = t.toList := by
  cases t <;> rfl

/-- The marks of the leaves of a tree from left to right. -/
def marks : Tree α β → List β
  | leaf _ m => [m]
  | node _ l _ r => l.marks ++ r.marks

@[simp] theorem marks_leaf (c : Color) (m : β) : (leaf c m : Tree α β).marks = [m] := rfl

@[simp] theorem marks_node (c : Color) (l : Tree α β) (x : α) (r : Tree α β) :
    (node c l x r).marks = l.marks ++ r.marks := rfl

@[simp] theorem marks_setColor (c : Color) (t : Tree α β) : (t.setColor c).marks = t.marks := by
  cases t <;> rfl

/-- Number of edges on the longest way down to a leaf. -/
def height : Tree α β → Nat
  | leaf _ _ => 0
  | node _ l _ r => max l.height r.height + 1

@[simp] theorem height_leaf (c : Color) (m : β) : (leaf c m : Tree α β).height = 0 := rfl

@[simp] theorem height_node (c : Color) (l : Tree α β) (x : α) (r : Tree α β) :
    (node c l x r).height = max l.height r.height + 1 := rfl

theorem height_le_length (t : Tree α β) : t.height ≤ t.toList.length := by
  induction t with
  | leaf c m => simp
  | node c l x r ihl ihr =>
    simp only [height_node, toList_node, List.length_append, List.length_cons]
    omega

end Tree

open ColorTree.Tree

/-- One step of a path: the node `x` of colour `c` has the hole on the side `side` and the subtree
`sib` on the other side. -/
structure Frame (α : Type u) (β : Type v) where
  side : Side
  c : Color
  x : α
  sib : Tree α β

/-- The node of a frame with `t` in the hole. -/
def Frame.fill (f : Frame α β) (t : Tree α β) : Tree α β :=
  Tree.mk f.side f.c t f.x f.sib

@[simp] theorem Frame.fill_mk (s : Side) (c : Color) (x : α) (sib t : Tree α β) :
    Frame.fill ⟨s, c, x, sib⟩ t = Tree.mk s c t x sib := rfl

/-- The tree with `t` at the lower end of the path. The first frame is the lowest. -/
def plug : List (Frame α β) → Tree α β → Tree α β
  | [], t => t
  | f :: π, t => plug π (f.fill t)

@[simp] theorem plug_nil (t : Tree α β) : plug [] t = t := rfl

@[simp] theorem plug_cons (f : Frame α β) (π : List (Frame α β)) (t : Tree α β) :
    plug (f :: π) t = plug π (f.fill t) := rfl

theorem isLeaf_plug {π : List (Frame α β)} {t : Tree α β} (h : t.isLeaf = false) :
    (plug π t).isLeaf = false := by
  induction π generalizing t with
  | nil => exact h
  | cons f π ih =>
    obtain ⟨s, c, x, sib⟩ := f
    exact ih (by cases s <;> rfl)

/-- The entries left of the hole. -/
def before : List (Frame α β) → List α
  | [] => []
  | ⟨.left, _, _, _⟩ :: π => before π
  | ⟨.right, _, x, sib⟩ :: π => before π ++ (sib.toList ++ [x])

/-- The entries right of the hole. -/
def after : List (Frame α β) → List α
  | [] => []
  | ⟨.left, _, x, sib⟩ :: π => x :: sib.toList ++ after π
  | ⟨.right, _, _, _⟩ :: π => after π

/-- A tree in a path has the values left of the path, its own, and those right of it. -/
theorem toList_plug (π : List (Frame α β)) (t : Tree α β) :
    (plug π t).toList = before π ++ t.toList ++ after π := by
  induction π generalizing t with
  | nil => simp [before, after]
  | cons f π ih =>
    obtain ⟨s, c, x, sib⟩ := f
    cases s <;> simp [ih, before, after]

/-- Two subtrees with the same entries give trees with the same entries. -/
theorem toList_plug_congr (π : List (Frame α β)) {t u : Tree α β} (h : t.toList = u.toList) :
    (plug π t).toList = (plug π u).toList := by
  rw [toList_plug, toList_plug, h]

@[simp] theorem plug_append (ρ π : List (Frame α β)) (t : Tree α β) :
    plug (ρ ++ π) t = plug π (plug ρ t) := by
  induction ρ generalizing t with
  | nil => rfl
  | cons f ρ ih => exact ih (f.fill t)

/-- The marks of the leaves left of the hole. -/
def marksBefore : List (Frame α β) → List β
  | [] => []
  | ⟨.left, _, _, _⟩ :: π => marksBefore π
  | ⟨.right, _, _, sib⟩ :: π => marksBefore π ++ sib.marks

/-- The marks of the leaves right of the hole. -/
def marksAfter : List (Frame α β) → List β
  | [] => []
  | ⟨.left, _, _, sib⟩ :: π => sib.marks ++ marksAfter π
  | ⟨.right, _, _, _⟩ :: π => marksAfter π

/-- The marks of a tree in a path, from left to right. -/
theorem marks_plug (π : List (Frame α β)) (t : Tree α β) :
    (plug π t).marks = marksBefore π ++ t.marks ++ marksAfter π := by
  induction π generalizing t with
  | nil => simp [marksBefore, marksAfter]
  | cons f π ih =>
    obtain ⟨s, c, x, sib⟩ := f
    cases s <;> simp [ih, marksBefore, marksAfter]

theorem marks_plug_congr (π : List (Frame α β)) {t u : Tree α β} (h : t.marks = u.marks) :
    (plug π t).marks = (plug π u).marks := by
  rw [marks_plug, marks_plug, h]

theorem length_le_length_plug (π : List (Frame α β)) (t : Tree α β) :
    π.length + t.toList.length ≤ (plug π t).toList.length := by
  induction π generalizing t with
  | nil => simp
  | cons f π ih =>
    obtain ⟨s, c, x, sib⟩ := f
    have h := ih (Frame.fill ⟨s, c, x, sib⟩ t)
    cases s <;> simp only [List.length_cons, plug_cons, Frame.fill_mk, mk_left, mk_right,
      toList_node, List.length_append] at h ⊢ <;> omega

/-! ## The red-black property -/

/-- The tree has root colour `c`, every way down to a leaf meets `n` black inner nodes, no red node
has a red child, and the leaves are black. -/
inductive Bal : Tree α β → Color → Nat → Prop
  | leaf (m : β) : Bal (.leaf .black m) .black 0
  | red {l r : Tree α β} {n : Nat} (x : α) : Bal l .black n → Bal r .black n →
      Bal (.node .red l x r) .red n
  | black {l r : Tree α β} {c d : Color} {n : Nat} (x : α) : Bal l c n → Bal r d n →
      Bal (.node .black l x r) .black (n + 1)

/-- The colour of a balanced tree is the one in its balance. -/
theorem Bal.color_eq {t : Tree α β} {c : Color} {n : Nat} (h : Bal t c n) : t.color = c := by
  cases h <;> rfl

/-- Leaves of a red-black tree are black. -/
theorem Bal.inner_of_red {t : Tree α β} {c : Color} {n : Nat} (h : Bal t c n)
    (hc : t.color = .red) : t.isLeaf = false := by
  cases h with
  | leaf m => cases hc
  | red => rfl
  | black => rfl

/-- Two balanced black trees under a red node are balanced. -/
theorem Bal.mk_red {l r : Tree α β} {n : Nat} (s : Side) (x : α) (hl : Bal l .black n)
    (hr : Bal r .black n) : Bal (Tree.mk s .red l x r) .red n := by
  cases s
  · exact .red x hl hr
  · exact .red x hr hl

/-- Two balanced trees of the same black height under a black node are balanced. -/
theorem Bal.mk_black {l r : Tree α β} {c d : Color} {n : Nat} (s : Side) (x : α) (hl : Bal l c n)
    (hr : Bal r d n) : Bal (Tree.mk s .black l x r) .black (n + 1) := by
  cases s
  · exact .black x hl hr
  · exact .black x hr hl

/-- A balanced tree with a red root has black subtrees of its own black height. -/
theorem Bal.of_mk_red {l r : Tree α β} {s : Side} {x : α} {c : Color} {n : Nat}
    (h : Bal (Tree.mk s .red l x r) c n) : c = .red ∧ Bal l .black n ∧ Bal r .black n := by
  cases s <;> cases h with
  | red x hl hr => first | exact ⟨rfl, hl, hr⟩ | exact ⟨rfl, hr, hl⟩

/-- A balanced tree with a black root has subtrees of the black height below. -/
theorem Bal.of_mk_black {l r : Tree α β} {s : Side} {x : α} {c : Color} {n : Nat}
    (h : Bal (Tree.mk s .black l x r) c n) :
    ∃ m c₁ c₂, n = m + 1 ∧ c = .black ∧ Bal l c₁ m ∧ Bal r c₂ m := by
  cases s <;> cases h with
  | black x hl hr =>
    first | exact ⟨_, _, _, rfl, rfl, hl, hr⟩ | exact ⟨_, _, _, rfl, rfl, hr, hl⟩

/-- A red root can be recoloured; the black height grows by one. -/
theorem Bal.blacken {t : Tree α β} {n : Nat} (h : Bal t .red n) :
    Bal (t.setColor .black) .black (n + 1) := by
  cases h with
  | red x hl hr => exact .black x hl hr

/-! ## The height -/

theorem length_add_height_le (π : List (Frame α β)) (t : Tree α β) :
    π.length + t.height ≤ (plug π t).height := by
  induction π generalizing t with
  | nil => exact Nat.le_of_eq (Nat.zero_add _)
  | cons f π ih =>
    obtain ⟨s, c, x, sib⟩ := f
    have h := ih (Frame.fill ⟨s, c, x, sib⟩ t)
    cases s <;> simp only [List.length_cons, plug_cons, Frame.fill_mk, mk_left, mk_right,
      height_node] at h ⊢ <;> omega

/-- A tree of the black height `n` has at least `2 ^ n - 1` values. -/
theorem Bal.two_pow_le {t : Tree α β} {c : Color} {n : Nat} (h : Bal t c n) :
    2 ^ n ≤ t.toList.length + 1 := by
  induction h with
  | leaf m => exact Nat.le_refl 1
  | red x _ _ ihl ihr =>
    rw [toList_node, List.length_append, List.length_cons]
    omega
  | black x _ _ ihl ihr =>
    rw [toList_node, List.length_append, List.length_cons, Nat.pow_succ]
    omega

/-- At most every other node on the way down is red. -/
theorem Bal.height_le {t : Tree α β} {c : Color} {n : Nat} (h : Bal t c n) :
    t.height ≤ 2 * n + if c = .red then 1 else 0 := by
  induction h with
  | leaf m => exact Nat.le_refl 0
  | red x _ _ ihl ihr =>
    simp only [height_node, reduceCtorEq, if_false, if_true] at ihl ihr ⊢
    omega
  | @black l r c d n x _ _ ihl ihr =>
    have hred : ∀ c : Color, (if c = .red then 1 else 0) ≤ 1 := by
      intro c
      split <;> decide
    have hc := hred c
    have hd := hred d
    simp only [height_node, reduceCtorEq, if_false]
    omega

/-- A red-black tree with a black root is not much higher than a complete one. -/
theorem Bal.height_le_log {t : Tree α β} {n : Nat} (h : Bal t .black n) :
    t.height ≤ 2 * Nat.log 2 (t.toList.length + 1) := by
  have hheight : t.height ≤ 2 * n := h.height_le
  have hn : n ≤ Nat.log 2 (t.toList.length + 1) :=
    Nat.le_log_of_pow_le (by decide) h.two_pow_le
  omega

/-- The black height of a tree is unique. -/
theorem Bal.height_unique {t : Tree α β} {c d : Color} {n m : Nat} (h : Bal t c n)
    (h' : Bal t d m) : n = m := by
  induction h generalizing d m with
  | leaf => cases h'; rfl
  | red x _ _ ihl _ =>
    cases h' with
    | red _ hl _ => exact ihl hl
  | black x _ _ ihl _ =>
    cases h' with
    | black _ hl _ => rw [ihl hl]

/-- Which subtrees fit under a path: black height `n`, and a red root only where `c` is black. The
hole at the top takes a black root only. -/
inductive PathBal : List (Frame α β) → Color → Nat → Prop
  | top (n : Nat) : PathBal [] .red n
  | red {π : List (Frame α β)} {sib : Tree α β} {n : Nat} (s : Side) (x : α) :
      PathBal π .black n → Bal sib .black n → PathBal (⟨s, .red, x, sib⟩ :: π) .red n
  | black {π : List (Frame α β)} {sib : Tree α β} {c d : Color} {n : Nat} (s : Side) (x : α) :
      PathBal π c (n + 1) → Bal sib d n → PathBal (⟨s, .black, x, sib⟩ :: π) .black n

/-- A subtree that fits under a path completes it to a red-black tree with a black root. -/
theorem bal_plug {π : List (Frame α β)} {p : Color} {n : Nat} (hπ : PathBal π p n) :
    ∀ {t : Tree α β} {c : Color}, Bal t c n → (c = .red → p = .black) →
      ∃ m, Bal (plug π t) .black m := by
  induction hπ with
  | top n =>
    intro t c ht hc
    cases c with
    | red => cases hc rfl
    | black => exact ⟨n, ht⟩
  | red s x _ hsib ih =>
    intro t c ht hc
    cases c with
    | red => cases hc rfl
    | black => exact ih (ht.mk_red s x hsib) fun _ => rfl
  | black s x _ hsib ih =>
    intro t c ht _
    exact ih (ht.mk_black s x hsib) fun h => by cases h

/-- Each subtree of a red-black tree fits under its path. -/
theorem bal_of_plug : ∀ (π : List (Frame α β)) {t : Tree α β} {m : Nat}, Bal (plug π t) .black m →
    ∃ p c n, PathBal π p n ∧ Bal t c n ∧ (c = .red → p = .black) := by
  intro π
  induction π with
  | nil =>
    intro t m h
    exact ⟨.red, .black, m, .top m, h, fun h => by cases h⟩
  | cons f π ih =>
    intro t m h
    obtain ⟨p, c, n, hπ, ht, hc⟩ := ih h
    obtain ⟨s, d, x, sib⟩ := f
    cases d with
    | red =>
      obtain ⟨rfl, ht', hsib⟩ := ht.of_mk_red
      rw [hc rfl] at hπ
      exact ⟨.red, .black, n, .red s x hπ hsib, ht', fun h => by cases h⟩
    | black =>
      obtain ⟨k, c₁, c₂, rfl, rfl, ht', hsib⟩ := ht.of_mk_black
      exact ⟨.black, c₁, k, .black s x hπ hsib, ht', fun _ => rfl⟩

end EE516.Foundations.ColorTree
