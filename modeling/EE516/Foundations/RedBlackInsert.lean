import EE516.Foundations.ColorTree
import Mathlib.Order.Lattice

/-!
# Insertion into red-black trees along a path

`pathTo` searches the leaf at which a key belongs and returns the path to it. `fixInsert t π` is the
repair after a red node `t` was put under the path `π`: it recolours towards the top until a
rotation, a black parent or the top ends it. The repair keeps the entries in order
(`toList_fixInsert`) and gives a red-black tree (`bal_fixInsert`).

`RotatesTop π` says that the repair ends with a rotation at the topmost node, so that another node
becomes the topmost one (`exists_root_fixInsert_of_rotatesTop`); otherwise the topmost node stays
where it is (`fixInsert_below_top`).
-/

set_option autoImplicit false

namespace EE516.Foundations.ColorTree

universe u v w

variable {α : Type u} {β : Type v} {κ : Type w}

/-- The opposite side. -/
def Side.other : Side → Side
  | .left => .right
  | .right => .left

@[simp] theorem Side.other_left : Side.other .left = .right := rfl

@[simp] theorem Side.other_right : Side.other .right = .left := rfl

namespace Tree

/-- The rotation that moves the root down to the side `s`. A tree without the child that has to
move up is returned as it is. -/
def rotate : Side → Tree α β → Tree α β
  | .left, .node c a x (.node d b y e) => .node d (.node c a x b) y e
  | .right, .node c (.node d e y b) x a => .node d e y (.node c b x a)
  | _, t => t

@[simp] theorem rotate_mk (s : Side) (c d : Color) (a b e : Tree α β) (x y : α) :
    (mk s c a x (mk s d b y e)).rotate s = mk s d (mk s c a x b) y e := by
  cases s <;> rfl

@[simp] theorem rotate_other_mk (s : Side) (c d : Color) (a b e : Tree α β) (x y : α) :
    (mk s c (mk s d a y b) x e).rotate s.other = mk s d a y (mk s c b x e) := by
  cases s <;> rfl

@[simp] theorem marks_rotate (s : Side) (t : Tree α β) : (t.rotate s).marks = t.marks := by
  unfold rotate
  split <;> simp

@[simp] theorem toList_rotate (s : Side) (t : Tree α β) : (t.rotate s).toList = t.toList := by
  unfold rotate
  split <;> simp

/-- The entry at the root of an inner node. -/
def root : Tree α β → Option α
  | leaf _ _ => none
  | node _ _ x _ => some x

@[simp] theorem root_leaf (c : Color) (m : β) : (leaf c m : Tree α β).root = none := rfl

@[simp] theorem root_node (c : Color) (l : Tree α β) (x : α) (r : Tree α β) :
    (node c l x r).root = some x := rfl

@[simp] theorem root_mk (s : Side) (c : Color) (l : Tree α β) (x : α) (r : Tree α β) :
    (mk s c l x r).root = some x := by
  cases s <;> rfl

@[simp] theorem root_setColor (c : Color) (t : Tree α β) : (t.setColor c).root = t.root := by
  cases t <;> rfl

/-- The other side is the mirror image. -/
theorem mk_other (s : Side) (c : Color) (l : Tree α β) (x : α) (r : Tree α β) :
    mk s.other c l x r = mk s c r x l := by
  cases s <;> rfl

/-- Every node can be read from either side. -/
theorem exists_mk (s : Side) (c : Color) (l : Tree α β) (x : α) (r : Tree α β) :
    ∃ u v, node c l x r = mk s c u x v := by
  cases s
  · exact ⟨l, r, rfl⟩
  · exact ⟨r, l, rfl⟩

end Tree

open ColorTree.Tree

theorem root_plug_congr (π : List (Frame α β)) {t u : Tree α β} (h : t.root = u.root) :
    (plug π t).root = (plug π u).root := by
  induction π generalizing t u with
  | nil => exact h
  | cons f π ih => exact ih (by simp [Frame.fill])

/-! ## Search -/

section Search

variable [LinearOrder κ] (key : α → κ)

/-- The entries of the tree have strictly increasing keys from left to right. -/
def Ordered (t : Tree α β) : Prop :=
  t.toList.Pairwise fun a b => key a < key b

/-- The path to the leaf at which the key `v` belongs, with that leaf; none when `v` occurs. -/
def pathTo (v : κ) : Tree α β → List (Frame α β) → Option (List (Frame α β) × Color × β)
  | .leaf c m, π => some (π, c, m)
  | .node c l x r, π =>
    if v < key x then pathTo v l (⟨.left, c, x, r⟩ :: π)
    else if key x < v then pathTo v r (⟨.right, c, x, l⟩ :: π)
    else none

/-- The search extends the path above its start by the way down to the leaf. -/
theorem append_of_pathTo {v : κ} {t : Tree α β} {π π' : List (Frame α β)} {c : Color} {m : β}
    (h : pathTo key v t π = some (π', c, m)) : ∃ ρ, π' = ρ ++ π ∧ plug ρ (.leaf c m) = t := by
  induction t generalizing π with
  | leaf d k =>
    simp only [pathTo, Option.some.injEq, Prod.mk.injEq] at h
    obtain ⟨rfl, rfl, rfl⟩ := h
    exact ⟨[], rfl, rfl⟩
  | node d l x r ihl ihr =>
    simp only [pathTo] at h
    split at h
    · obtain ⟨ρ, rfl, hρ⟩ := ihl h
      exact ⟨ρ ++ [⟨.left, d, x, r⟩], by simp, by simp [hρ]⟩
    · split at h
      · obtain ⟨ρ, rfl, hρ⟩ := ihr h
        exact ⟨ρ ++ [⟨.right, d, x, l⟩], by simp, by simp [hρ]⟩
      · cases h

/-- The path that a search takes leads to the leaf that it finds. -/
theorem plug_pathTo {v : κ} {t : Tree α β} {π : List (Frame α β)} {c : Color} {m : β}
    (h : pathTo key v t [] = some (π, c, m)) : plug π (.leaf c m) = t := by
  obtain ⟨ρ, rfl, hρ⟩ := append_of_pathTo key h
  simpa using hρ

/-- A search that finds no leaf has found the value in the tree. -/
theorem mem_of_pathTo_eq_none {v : κ} {t : Tree α β} {π : List (Frame α β)}
    (h : pathTo key v t π = none) : ∃ x ∈ t.toList, key x = v := by
  induction t generalizing π with
  | leaf d k => cases h
  | node d l x r ihl ihr =>
    simp only [pathTo] at h
    split at h
    · obtain ⟨y, hy, hv⟩ := ihl h
      exact ⟨y, by simp [hy], hv⟩
    · split at h
      · obtain ⟨y, hy, hv⟩ := ihr h
        exact ⟨y, by simp [hy], hv⟩
      · exact ⟨x, by simp, le_antisymm (not_lt.1 ‹_›) (not_lt.1 ‹_›)⟩

/-- The search leaves the smaller keys on its left and the larger ones on its right. -/
theorem pathTo_separates {v : κ} {t : Tree α β} {π π' : List (Frame α β)} {c : Color} {m : β}
    (ho : Ordered key t) (h : pathTo key v t π = some (π', c, m))
    (hb : ∀ a ∈ before π, key a < v) (ha : ∀ a ∈ after π, v < key a) :
    (∀ a ∈ before π', key a < v) ∧ ∀ a ∈ after π', v < key a := by
  induction t generalizing π with
  | leaf d k =>
    simp only [pathTo, Option.some.injEq, Prod.mk.injEq] at h
    obtain ⟨rfl, -, -⟩ := h
    exact ⟨hb, ha⟩
  | node d l x r ihl ihr =>
    simp only [Ordered, toList_node, List.pairwise_append, List.pairwise_cons,
      List.mem_cons] at ho
    obtain ⟨hl, ⟨hx, hr⟩, hlr⟩ := ho
    simp only [pathTo] at h
    split at h
    · rename_i hv
      -- to the left, the node and what is on its right join the larger keys
      refine ihl hl h hb fun a hm => ?_
      simp only [after, List.cons_append, List.mem_cons, List.mem_append] at hm
      rcases hm with rfl | hm | hm
      · exact hv
      · exact lt_trans hv (hx a hm)
      · exact ha a hm
    · split at h
      · rename_i hv
        refine ihr hr h (fun a hm => ?_) ha
        simp only [before, List.mem_append, List.mem_singleton] at hm
        rcases hm with hm | hm | rfl
        · exact hb a hm
        · exact lt_trans (hlr a hm x (Or.inl rfl)) hv
        · exact hv
      · cases h

/-- Putting the new entry at the leaf that the search found keeps the order. -/
theorem ordered_of_pathTo {t u : Tree α β} {π : List (Frame α β)} {c : Color} {m : β} {y : α}
    (ho : Ordered key t) (h : pathTo key (key y) t [] = some (π, c, m))
    (hu : u.toList = [y]) : Ordered key (plug π u) := by
  obtain ⟨hb, ha⟩ := pathTo_separates key ho h (by simp [before]) (by simp [after])
  have e := plug_pathTo key h
  simp only [Ordered, ← e, toList_plug, toList_leaf, List.append_nil, List.pairwise_append] at ho
  simp only [Ordered, toList_plug, hu, List.append_assoc, List.singleton_append,
    List.pairwise_append, List.pairwise_cons, List.mem_cons]
  refine ⟨ho.1, ⟨ha, ho.2.1⟩, fun a hm b hmb => ?_⟩
  rcases hmb with rfl | hmb
  · exact hb a hm
  · exact ho.2.2 a hm b hmb

end Search

/-! ## The repair -/

/-- The repair after the red node `t` was put under the path. -/
def fixInsert : Tree α β → List (Frame α β) → Tree α β
  | t, [] => t.setColor .black
  | t, [f] => f.fill t
  | t, f :: g :: π =>
    if f.c = .black then plug π (g.fill (f.fill t))
    else if g.sib.color = .red then
      fixInsert (Tree.mk g.side .red (Tree.mk f.side .black t f.x f.sib) g.x
        (g.sib.setColor .black)) π
    else
      let p := if f.side = g.side then f.fill t else (f.fill t).rotate g.side
      plug π ((Tree.mk g.side .red (p.setColor .black) g.x g.sib).rotate g.side.other)

/-- The repair after an insertion keeps the values in their order. -/
theorem toList_fixInsert : ∀ (π : List (Frame α β)) (t : Tree α β),
    (fixInsert t π).toList = (plug π t).toList
  | [], t => by simp [fixInsert]
  | [f], t => by simp [fixInsert]
  | f :: g :: π, t => by
    rw [fixInsert]
    split
    · rfl
    · split
      · rw [toList_fixInsert π]
        refine toList_plug_congr π ?_
        obtain ⟨s, c, x, sib⟩ := f
        obtain ⟨s', c', x', sib'⟩ := g
        cases s <;> cases s' <;> simp
      · refine toList_plug_congr π ?_
        rw [toList_rotate]
        obtain ⟨s', c', x', sib'⟩ := g
        cases s' <;> simp <;> split <;> simp

/-- A red parent over the red node `t`: raising `t` if it is an inner grandchild gives a red node
with a red child on the outer side. -/
theorem bal_raise {f : Frame α β} {t : Tree α β} {n : Nat} (s : Side) (hf : f.c = .red)
    (ht : Bal t .red n) (hsib : Bal f.sib .black n) :
    ∃ a y b, Bal a .red n ∧ Bal b .black n ∧
      (if f.side = s then f.fill t else (f.fill t).rotate s) = Tree.mk s .red a y b := by
  obtain ⟨s', c, x, sib⟩ := f
  simp only at hf hsib
  subst hf
  by_cases hs : s' = s
  · subst hs
    exact ⟨t, x, sib, ht, hsib, by simp⟩
  · cases ht with
    | @red l r _ y hl hr =>
      cases s
      · have : s' = .right := by cases s' <;> simp_all
        subst this
        exact ⟨.node .red sib x l, y, r, .red x hsib hl, hr, by simp [rotate]⟩
      · have : s' = .left := by cases s' <;> simp_all
        subst this
        exact ⟨.node .red r x sib, y, l, .red x hr hsib, hl, by simp [rotate]⟩

/-- The repair gives a red-black tree with a black root. -/
theorem bal_fixInsert : ∀ (π : List (Frame α β)) {p : Color} {n : Nat} {t : Tree α β},
    PathBal π p n → Bal t .red n → ∃ m, Bal (fixInsert t π) .black m
  | [], p, n, t, _, ht => ⟨n + 1, ht.blacken⟩
  | [f], p, n, t, hπ, ht => by
    cases hπ with
    | red s x hπ => cases hπ
    | black s x hπ hsib => cases hπ with
      | top => exact ⟨n + 1, ht.mk_black s x hsib⟩
  | f :: g :: π, p, n, t, hπ, ht => by
    rw [fixInsert]
    cases hπ with
    | black s x hπ hsib =>
      exact bal_plug hπ (ht.mk_black s x hsib) fun h => by cases h
    | @red _ sib _ s x hπ hsib =>
      rw [if_neg (by simp)]
      cases hπ with
      | @black _ sib' c' d _ s' x' hπ hsib' =>
        split
        · rename_i hred
          obtain rfl : d = .red := by rw [← hsib'.color_eq]; exact hred
          -- a red uncle: the red node moves up to the grandparent
          exact bal_fixInsert π hπ ((ht.mk_black s x hsib).mk_red s' x' hsib'.blacken)
        · rename_i hblack
          obtain rfl : d = .black := by
            cases d
            · exact absurd hsib'.color_eq hblack
            · rfl
          -- a black uncle: after the rotation the subtree has a black top again
          obtain ⟨a, y, b, ha, hb, e⟩ :=
            bal_raise (f := ⟨s, .red, x, sib⟩) (t := t) s' rfl ht hsib
          simp only [Frame.fill_mk] at e
          simp only [Frame.fill_mk, e, setColor_mk, rotate_other_mk]
          exact bal_plug hπ (ha.mk_black s' y (hb.mk_red s' x' hsib')) fun h => by cases h

/-- The repair under this path ends with a rotation at the topmost node: recolouring leads from
grandparent to grandparent, and the uncle next to the topmost node is black. -/
def RotatesTop : List (Frame α β) → Prop
  | [] => False
  | [_] => False
  | f :: g :: π =>
    f.c = .red ∧ if π.isEmpty then g.sib.color = .black else g.sib.color = .red ∧ RotatesTop π

instance decidableRotatesTop : ∀ π : List (Frame α β), Decidable (RotatesTop π)
  | [] => inferInstanceAs (Decidable False)
  | [_] => inferInstanceAs (Decidable False)
  | f :: g :: π =>
    have := decidableRotatesTop π
    inferInstanceAs (Decidable (f.c = .red ∧
      if π.isEmpty then g.sib.color = .black else g.sib.color = .red ∧ RotatesTop π))

theorem color_ne_black {c : Color} (h : c ≠ .black) : c = .red := by
  cases c
  · rfl
  · exact absurd rfl h

theorem color_ne_red {c : Color} (h : c ≠ .red) : c = .black := by
  cases c
  · exact absurd rfl h
  · rfl

/-- Without a rotation at the topmost node the repair works inside one child of that node: the
topmost entry and the other child stay up to colour. -/
theorem fixInsert_below_top : ∀ (ρ : List (Frame α β)) (g : Frame α β) (t : Tree α β),
    ¬ RotatesTop (ρ ++ [g]) →
    ∃ c d u, fixInsert t (ρ ++ [g]) = Tree.mk g.side c u g.x (g.sib.setColor d) ∧
      u.toList = (plug ρ t).toList ∧ u.marks = (plug ρ t).marks
  | [], g, t, _ => ⟨g.c, g.sib.color, t, by rw [setColor_color]; rfl, rfl, rfl⟩
  | [f], g, t, h => by
    simp only [List.cons_append, List.nil_append, fixInsert]
    split
    · exact ⟨g.c, g.sib.color, f.fill t, by rw [setColor_color]; rfl, rfl, rfl⟩
    · rename_i hf
      split
      · refine ⟨.black, .black, Tree.mk f.side .black t f.x f.sib, by simp, ?_, ?_⟩
        · cases hs : f.side <;> simp [Frame.fill, hs]
        · cases hs : f.side <;> simp [Frame.fill, hs]
      · rename_i hg
        -- a black uncle would rotate at the topmost node
        exact absurd ⟨color_ne_black hf, by simpa using color_ne_red hg⟩ h
  | f :: k :: ρ, g, t, h => by
    simp only [List.cons_append, fixInsert]
    split
    · exact ⟨g.c, g.sib.color, plug ρ (k.fill (f.fill t)),
        by rw [setColor_color, plug_append]; rfl, rfl, rfl⟩
    · rename_i hf
      split
      · rename_i hk
        have hrec : ¬ RotatesTop (ρ ++ [g]) := fun hr =>
          h ⟨color_ne_black hf, by simpa using ⟨hk, hr⟩⟩
        obtain ⟨c, d, u, h₁, h₂, h₃⟩ := fixInsert_below_top ρ g
          (Tree.mk k.side .red (Tree.mk f.side .black t f.x f.sib) k.x (k.sib.setColor .black))
          hrec
        refine ⟨c, d, u, h₁, h₂.trans (toList_plug_congr ρ ?_), h₃.trans (marks_plug_congr ρ ?_)⟩
        · cases hs : f.side <;> cases hs' : k.side <;> simp [Frame.fill, hs, hs']
        · cases hs : f.side <;> cases hs' : k.side <;> simp [Frame.fill, hs, hs']
      · refine ⟨g.c, g.sib.color, _, by rw [setColor_color, plug_append]; rfl,
          toList_plug_congr ρ ?_, marks_plug_congr ρ ?_⟩
        · cases hs : f.side <;> cases hs' : k.side <;> simp [Frame.fill, hs, hs']
        · cases hs : f.side <;> cases hs' : k.side <;> simp [Frame.fill, hs, hs']

/-- With a rotation at the topmost node, that node ends up as a child of another one. -/
theorem exists_root_fixInsert_of_rotatesTop : ∀ (π : List (Frame α β)) {p : Color} {n : Nat}
    {t : Tree α β}, PathBal π p n → Bal t .red n → RotatesTop π →
    ∃ s a y b x e, fixInsert t π = Tree.mk s .black a y (Tree.mk s .red b x e) ∧
      (plug π t).root = some x
  | [], _, _, _, _, _, h => h.elim
  | [_], _, _, _, _, _, h => h.elim
  | [f, g], p, n, t, hπ, ht, h => by
    obtain ⟨hf, hg⟩ := h
    have hg : g.sib.color = .black := by simpa using hg
    cases hπ with
    | black s x hπ hsib => cases hf
    | @red _ sib _ s x hπ hsib =>
      obtain ⟨a, y, b, -, -, e⟩ :=
        bal_raise (f := ⟨s, .red, x, sib⟩) (t := t) g.side rfl ht hsib
      simp only [Frame.fill_mk] at e
      refine ⟨g.side, a, y, b, g.x, g.sib, ?_, ?_⟩
      · rw [fixInsert, if_neg (by simp), if_neg (by simp [hg])]
        simp only [Frame.fill_mk, e, setColor_mk, rotate_other_mk, plug_nil]
      · simp [Frame.fill]
  | f :: g :: k :: π, p, n, t, hπ, ht, h => by
    obtain ⟨hf, h⟩ := h
    obtain ⟨hg, hr⟩ : g.sib.color = .red ∧ RotatesTop (k :: π) := by simpa using h
    cases hπ with
    | black s x hπ hsib => cases hf
    | @red _ sib _ s x hπ hsib =>
      cases hπ with
      | @black _ sib' c' d _ s' x' hπ hsib' =>
        obtain rfl : d = .red := by rw [← hsib'.color_eq]; exact hg
        obtain ⟨s₀, a, y, b, x₀, e, h₁, h₂⟩ := exists_root_fixInsert_of_rotatesTop (k :: π) hπ
          ((ht.mk_black s x hsib).mk_red s' x' hsib'.blacken) hr
        refine ⟨s₀, a, y, b, x₀, e, ?_, ?_⟩
        · rw [fixInsert, if_neg (by simp), if_pos hg]
          exact h₁
        · rw [← h₂]
          exact root_plug_congr (k :: π) (by simp [Frame.fill])

end EE516.Foundations.ColorTree
