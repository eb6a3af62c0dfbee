import EE516.Foundations.RedBlackInsert

/-!
# Deletion from red-black trees along a path

`fixDelete t π` is the repair after the subtree `t` under the path `π` lost one black node: the
six cases of the textbook algorithm, on trees. It keeps the entries in order (`toList_fixDelete`)
and gives a red-black tree (`bal_fixDelete`).

A tree from which minima are removed without a repair of leaves is nearly red-black (`Near`): the
way to the leftmost leaf may meet one black node fewer than all others, and that leaf may be red.
`near_deleteMin` shows that removing the minimum of such a tree, with the repair where the removed
node has an inner child, gives such a tree again.
-/

set_option autoImplicit false

namespace EE516.Foundations.ColorTree

universe u v

variable {α : Type u} {β : Type v}

open ColorTree.Tree

namespace Tree

/-- The child on the side `s`, the entry and the other child of an inner node. -/
def parts (s : Side) : Tree α β → Option (Tree α β × α × Tree α β)
  | leaf _ _ => none
  | node _ l x r =>
    match s with
    | .left => some (l, x, r)
    | .right => some (r, x, l)

@[simp] theorem parts_leaf (s : Side) (c : Color) (m : β) :
    (leaf c m : Tree α β).parts s = none := rfl

@[simp] theorem parts_mk (s : Side) (c : Color) (l : Tree α β) (x : α) (r : Tree α β) :
    (mk s c l x r).parts s = some (l, x, r) := by
  cases s <;> rfl

/-- A tree is put together from its parts. -/
theorem eq_mk_of_parts {s : Side} {t l r : Tree α β} {x : α} (h : t.parts s = some (l, x, r)) :
    t = mk s t.color l x r := by
  cases t with
  | leaf c m => cases h
  | node c a y b =>
    cases s <;>
      simp only [parts, Option.some.injEq, Prod.mk.injEq] at h <;>
      obtain ⟨rfl, rfl, rfl⟩ := h <;> rfl

end Tree

/-! ## The repair -/

/-- Cases 4 to 6: the sibling is black, and the repair ends here. -/
def endDelete (t : Tree α β) (f : Frame α β) (π : List (Frame α β)) : Tree α β :=
  match f.sib.parts f.side with
  | none => plug (f :: π) t
  | some (near, y, far) =>
    if f.c = .red ∧ near.color = .black ∧ far.color = .black then
      plug π (Tree.mk f.side .black t f.x (f.sib.setColor .red))
    else
      match if far.color = .black then near.parts f.side else none with
      | some (a, z, b) =>
        plug π (Tree.mk f.side f.c (Tree.mk f.side .black t f.x a) z
          (Tree.mk f.side .black b y far))
      | none =>
        plug π (Tree.mk f.side f.c (Tree.mk f.side .black t f.x near) y (far.setColor .black))

/-- The repair after the subtree `t` lost one black node. -/
def fixDelete : Tree α β → List (Frame α β) → Tree α β
  | t, [] => t
  | t, f :: π =>
    match f.sib.parts f.side with
    | none => plug (f :: π) t
    | some (near, y, far) =>
      if f.sib.color = .red then
        endDelete t ⟨f.side, .red, f.x, near⟩ (⟨f.side, .black, y, far⟩ :: π)
      else if f.c = .black ∧ near.color = .black ∧ far.color = .black then
        fixDelete (Tree.mk f.side .black t f.x (f.sib.setColor .red)) π
      else
        endDelete t f π

theorem toList_mk_congr (s : Side) (c d : Color) (x : α) {l l' r r' : Tree α β}
    (hl : l.toList = l'.toList) (hr : r.toList = r'.toList) :
    (Tree.mk s c l x r).toList = (Tree.mk s d l' x r').toList := by
  cases s <;> simp [hl, hr]

/-- The last repair keeps the values in their order. -/
theorem toList_endDelete (t : Tree α β) (f : Frame α β) (π : List (Frame α β)) :
    (endDelete t f π).toList = (plug (f :: π) t).toList := by
  obtain ⟨s, c, x, sib⟩ := f
  unfold endDelete
  split
  · rfl
  · rename_i near y far hsib
    obtain ⟨d, rfl⟩ : ∃ d, sib = Tree.mk s d near y far := ⟨_, eq_mk_of_parts hsib⟩
    split
    · exact toList_plug_congr π (toList_mk_congr s _ _ x rfl (by cases s <;> simp))
    · split
      · rename_i a z b hnear
        split at hnear
        · obtain ⟨e, rfl⟩ : ∃ e, near = Tree.mk s e a z b := ⟨_, eq_mk_of_parts hnear⟩
          refine toList_plug_congr π ?_
          cases s <;> simp
        · cases hnear
      · refine toList_plug_congr π ?_
        cases s <;> simp

/-- The repair after a deletion keeps the values in their order. -/
theorem toList_fixDelete : ∀ (π : List (Frame α β)) (t : Tree α β),
    (fixDelete t π).toList = (plug π t).toList
  | [], t => rfl
  | f :: π, t => by
    obtain ⟨s, c, x, sib⟩ := f
    rw [fixDelete]
    split
    · rfl
    · rename_i near y far hsib
      obtain ⟨d, rfl⟩ : ∃ d, sib = Tree.mk s d near y far := ⟨_, eq_mk_of_parts hsib⟩
      split
      · rw [toList_endDelete]
        refine toList_plug_congr π ?_
        cases s <;> simp
      · split
        · rw [toList_fixDelete π]
          exact toList_plug_congr π (toList_mk_congr s _ _ x rfl (by cases s <;> simp))
        · exact toList_endDelete t _ π

/-- Cases 4 to 6 give a red-black tree when the parent, or a child of the black sibling, is red. -/
theorem bal_endDelete {t near far : Tree α β} {s : Side} {c p : Color} {x y : α} {n : Nat}
    {π : List (Frame α β)} (ht : Bal t .black n)
    (hπ : PathBal (⟨s, c, x, Tree.mk s .black near y far⟩ :: π) p (n + 1))
    (hred : c = .red ∨ near.color = .red ∨ far.color = .red) :
    ∃ m, Bal (endDelete t ⟨s, c, x, Tree.mk s .black near y far⟩ π) .black m := by
  -- `N` is the height of the subtree at the parent, which takes any two children of height `n + 1`
  obtain ⟨q, N, hq, hcq, hsib, hN⟩ : ∃ q N, PathBal π q N ∧ (c = .red → q = .black) ∧
      Bal (Tree.mk s .black near y far) .black (n + 1) ∧
      ∀ {a b : Tree α β} {z : α}, Bal a .black (n + 1) → Bal b .black (n + 1) →
        Bal (Tree.mk s c a z b) c N := by
    cases hπ with
    | red _ _ hπ hsib =>
      exact ⟨.black, n + 1, hπ, fun _ => rfl, hsib, fun ha hb => ha.mk_red s _ hb⟩
    | @black _ _ e d _ _ _ hπ hsib =>
      obtain ⟨m, c₁, c₂, -, rfl, -, -⟩ := hsib.of_mk_black
      exact ⟨e, n + 2, hπ, (by simp), hsib, fun ha hb => ha.mk_black s _ hb⟩
  obtain ⟨m, c₁, c₂, hm, -, hnear, hfar⟩ := hsib.of_mk_black
  obtain rfl : m = n := by omega
  simp only [endDelete, parts_mk, setColor_mk]
  split
  · rename_i h
    obtain ⟨rfl, h₁, h₂⟩ := h
    rw [hnear.color_eq] at h₁
    rw [hfar.color_eq] at h₂
    subst h₁ h₂
    -- a red parent turns black, which makes up for the lost black node
    rw [hcq rfl] at hq
    cases hπ with
    | red _ _ hπ _ =>
      exact bal_plug hπ (ht.mk_black s x (hnear.mk_red s y hfar)) fun h => by cases h
  · rename_i h
    cases c₂ with
    | red =>
      rw [if_neg (by rw [hfar.color_eq]; simp)]
      exact bal_plug hq (hN (ht.mk_black s x hnear) hfar.blacken) hcq
    | black =>
      have hn : c₁ = .red := by
        rw [hnear.color_eq, hfar.color_eq] at h hred
        cases c <;> cases c₁ <;> simp_all
      subst hn
      -- only the inner child is red: its two black children go to the two sides
      rw [if_pos hfar.color_eq]
      cases hnear with
      | @red l r _ z hl hr =>
        cases s
        · exact bal_plug hq (hN (ht.mk_black .left x hl) (hr.mk_black .left y hfar)) hcq
        · exact bal_plug hq (hN (ht.mk_black .right x hr) (hl.mk_black .right y hfar)) hcq

/-- The repair of a tree that lacks one black node leads to a balanced tree. -/
theorem bal_fixDelete : ∀ (π : List (Frame α β)) {p : Color} {n : Nat} {t : Tree α β},
    PathBal π p (n + 1) → Bal t .black n → ∃ m, Bal (fixDelete t π) .black m
  | [], p, n, t, _, ht => ⟨n, ht⟩
  | f :: π, p, n, t, hπ, ht => by
    obtain ⟨s, c, x, sib⟩ := f
    -- induction on the path: `t` lacks one black node, so its sibling is an inner node
    have hsib : ∃ d, Bal sib d (n + 1) := by
      cases hπ with
      | red _ _ _ hsib => exact ⟨_, hsib⟩
      | black _ _ _ hsib => exact ⟨_, hsib⟩
    obtain ⟨d, hsib⟩ := hsib
    rw [fixDelete]
    cases hparts : sib.parts s with
    | none =>
      cases sib with
      | leaf e m => cases hsib
      | node e l y r => cases s <;> cases hparts
    | some q =>
      obtain ⟨near, y, far⟩ := q
      obtain ⟨e, rfl⟩ : ∃ e, sib = Tree.mk s e near y far := ⟨_, eq_mk_of_parts hparts⟩
      simp only [color_mk]
      cases e with
      | red =>
        rw [if_pos rfl]
        obtain ⟨-, hnear, hfar⟩ := hsib.of_mk_red
        cases hπ with
        | red _ _ hπ hsib => cases hsib.of_mk_red.1
        | black _ _ hπ hsib =>
          -- the lifted sibling leaves a red parent, so that the repair ends below it
          have hπ' := PathBal.red s x (.black s y hπ hfar) hnear
          cases hpn : near.parts s with
          | none =>
            cases near with
            | leaf e m => cases hnear
            | node e l z r => cases s <;> cases hpn
          | some q =>
            obtain ⟨a, z, b⟩ := q
            have e := eq_mk_of_parts hpn
            rw [hnear.color_eq] at e
            subst e
            exact bal_endDelete ht hπ' (Or.inl rfl)
      | black =>
        rw [if_neg (by simp)]
        obtain ⟨m, c₁, c₂, hm, rfl, hnear, hfar⟩ := hsib.of_mk_black
        obtain rfl : m = n := by omega
        split
        · rename_i h
          obtain ⟨rfl, h₁, h₂⟩ := h
          rw [hnear.color_eq] at h₁
          rw [hfar.color_eq] at h₂
          subst h₁ h₂
          cases hπ with
          | black _ _ hπ _ =>
            rw [setColor_mk]
            exact bal_fixDelete π hπ (ht.mk_black s x (hnear.mk_red s y hfar))
        · rename_i h
          refine bal_endDelete ht hπ ?_
          cases c <;> cases h₁ : near.color <;> cases h₂ : far.color <;> simp_all

/-- The repair under this path rotates at the topmost node: the recolourings lead up to it, and its
child beside the path is red or has a red child. -/
def FixRotatesTop : List (Frame α β) → Prop
  | [] => False
  | f :: π =>
    match f.sib.parts f.side with
    | none => False
    | some (near, _, far) =>
      if π.isEmpty then
        ¬ (f.sib.color = .black ∧ near.color = .black ∧ far.color = .black)
      else
        (f.c = .black ∧ f.sib.color = .black ∧ near.color = .black ∧ far.color = .black) ∧
          FixRotatesTop π

instance decidableFixRotatesTop : ∀ π : List (Frame α β), Decidable (FixRotatesTop π)
  | [] => inferInstanceAs (Decidable False)
  | f :: π =>
    have := decidableFixRotatesTop π
    match h : f.sib.parts f.side with
    | none => .isFalse (by simp [FixRotatesTop, h])
    | some (near, _, far) =>
      decidable_of_iff
        (if π.isEmpty then
          ¬ (f.sib.color = .black ∧ near.color = .black ∧ far.color = .black)
        else
          (f.c = .black ∧ f.sib.color = .black ∧ near.color = .black ∧ far.color = .black) ∧
            FixRotatesTop π)
        (by simp only [FixRotatesTop, h])

/-- Below a further frame the last repair keeps the value of the root. -/
theorem root_endDelete (t : Tree α β) (f g : Frame α β) (π : List (Frame α β)) :
    (endDelete t f (g :: π)).root = (plug (f :: g :: π) t).root := by
  unfold endDelete
  split
  · rfl
  · split
    · exact root_plug_congr π (by simp [Frame.fill])
    · split <;> exact root_plug_congr π (by simp [Frame.fill])

/-- Without a rotation at the topmost node the repair leaves the topmost node in its place. -/
theorem root_fixDelete : ∀ (π : List (Frame α β)) (t : Tree α β), ¬ FixRotatesTop π →
    (fixDelete t π).root = (plug π t).root
  | [], t, _ => rfl
  | [f], t, h => by
    obtain ⟨s, c, x, sib⟩ := f
    rw [fixDelete]
    split
    · rfl
    · rename_i near y far hsib
      simp only at hsib
      simp only [FixRotatesTop, hsib, List.isEmpty_nil, if_true, not_not] at h
      obtain ⟨h₁, h₂, h₃⟩ := h
      rw [if_neg (by simp [h₁])]
      split
      · simp [fixDelete]
      · rename_i hall
        -- the topmost node is red here, and it only becomes black
        have hc : c = .red := color_ne_black fun hc => hall ⟨hc, h₂, h₃⟩
        subst hc
        simp [endDelete, hsib, h₂, h₃]
  | f :: g :: π, t, h => by
    obtain ⟨s, c, x, sib⟩ := f
    rw [fixDelete]
    split
    · rfl
    · rename_i near y far hsib
      simp only at hsib
      split
      · rw [root_endDelete]
        exact root_plug_congr π (by simp [Frame.fill])
      · rename_i hd
        split
        · rename_i hall
          have hrec : ¬ FixRotatesTop (g :: π) := fun hr => h (by
            simp only [FixRotatesTop, hsib]
            exact ⟨⟨hall.1, color_ne_red hd, hall.2⟩, hr⟩)
          rw [root_fixDelete (g :: π) _ hrec]
          exact root_plug_congr (g :: π) (by simp)
        · exact root_endDelete t _ g π

/-- The tree after a node of colour `c` under the path `ρ` gave its place to its child `u`, with
the repair if a black node got lost. -/
def spliceFix (c : Color) (u : Tree α β) (ρ : List (Frame α β)) : Tree α β :=
  if c = .red then plug ρ u
  else if u.color = .red then plug ρ (u.setColor .black)
  else fixDelete u ρ

/-- The repair after a splice keeps the values in their order. -/
theorem toList_spliceFix (c : Color) (u : Tree α β) (ρ : List (Frame α β)) :
    (spliceFix c u ρ).toList = (plug ρ u).toList := by
  unfold spliceFix
  split
  · rfl
  · split
    · exact toList_plug_congr ρ (by simp)
    · exact toList_fixDelete ρ u

/-- Giving the place of a node to its child in a balanced tree leaves a balanced tree. -/
theorem bal_spliceFix {c p : Color} {n : Nat} {u : Tree α β} {s : Side} {x : α}
    {ρ : List (Frame α β)} (h : PathBal (⟨s, c, x, u⟩ :: ρ) p n) :
    ∃ m, Bal (spliceFix c u ρ) .black m := by
  unfold spliceFix
  cases h with
  | red _ _ hρ hu =>
    rw [if_pos rfl]
    exact bal_plug hρ hu fun h => by cases h
  | @black _ _ _ d _ _ _ hρ hu =>
    rw [if_neg (by simp), hu.color_eq]
    cases d with
    | red =>
      rw [if_pos rfl]
      exact bal_plug hρ hu.blacken fun h => by cases h
    | black =>
      rw [if_neg (by simp)]
      exact bal_fixDelete ρ hρ hu

/-! ## Removing minima -/

/-- The path to the leftmost leaf. -/
def minPath : Tree α β → List (Frame α β)
  | .leaf _ _ => []
  | .node c l x r => minPath l ++ [⟨.left, c, x, r⟩]

/-- The leftmost leaf. -/
def minLeaf : Tree α β → Tree α β
  | .leaf c m => .leaf c m
  | .node _ l _ _ => minLeaf l

@[simp] theorem plug_minPath (t : Tree α β) : plug (minPath t) (minLeaf t) = t := by
  induction t with
  | leaf c m => rfl
  | node c l x r ihl _ => simp [minPath, minLeaf, ihl]

theorem side_of_mem_minPath {t : Tree α β} {f : Frame α β} (h : f ∈ minPath t) :
    f.side = .left := by
  induction t with
  | leaf c m => cases h
  | node c l x r ihl _ =>
    simp only [minPath, List.mem_append, List.mem_singleton] at h
    rcases h with h | rfl
    · exact ihl h
    · rfl

/-- Below a path to the left the path to the least value goes on. -/
theorem minPath_plug {π : List (Frame α β)} (hπ : ∀ f ∈ π, f.side = .left) (t : Tree α β) :
    minPath (plug π t) = minPath t ++ π := by
  induction π generalizing t with
  | nil => simp
  | cons f π ih =>
    obtain ⟨s, c, x, sib⟩ := f
    obtain rfl : s = .left := hπ _ List.mem_cons_self
    rw [plug_cons, ih fun f hf => hπ f (List.mem_cons_of_mem _ hf)]
    simp [minPath]

theorem before_eq_nil {π : List (Frame α β)} (hπ : ∀ f ∈ π, f.side = .left) : before π = [] := by
  induction π with
  | nil => rfl
  | cons f π ih =>
    obtain ⟨s, c, x, sib⟩ := f
    obtain rfl : s = .left := hπ _ List.mem_cons_self
    exact ih fun f hf => hπ f (List.mem_cons_of_mem _ hf)

theorem after_eq_nil {π : List (Frame α β)} (hπ : ∀ f ∈ π, f.side = .right) : after π = [] := by
  induction π with
  | nil => rfl
  | cons f π ih =>
    obtain ⟨s, c, x, sib⟩ := f
    obtain rfl : s = .right := hπ _ List.mem_cons_self
    exact ih fun f hf => hπ f (List.mem_cons_of_mem _ hf)

/-- Red-black up to the leftmost leaf: the way to it may meet one black node fewer than all other
ways, and the leaf may have any colour. -/
def Near (t : Tree α β) : Prop :=
  ∃ p n, PathBal (minPath t) p n ∧ n ≤ 1

theorem minLeaf_isLeaf (t : Tree α β) : ∃ c m, minLeaf t = .leaf c m := by
  induction t with
  | leaf c m => exact ⟨c, m, rfl⟩
  | node c l x r ihl _ => exact ihl

/-- A balanced tree is nearly red-black. -/
theorem near_of_bal {t : Tree α β} {n : Nat} (h : Bal t .black n) : Near t := by
  rw [← plug_minPath t] at h
  obtain ⟨p, c, k, hπ, hleaf, -⟩ := bal_of_plug _ h
  obtain ⟨d, m, e⟩ := minLeaf_isLeaf t
  rw [e] at hleaf
  cases hleaf
  exact ⟨p, 0, hπ, Nat.zero_le 1⟩

/-- The tree without its smallest entry. An entry without an inner child leaves a leaf of its own
colour behind, marked by `mark`; otherwise its right child takes its place. -/
def deleteMin (mark : α → β) (t : Tree α β) : Tree α β :=
  match minPath t with
  | [] => t
  | f :: ρ => if f.sib.isLeaf then plug ρ (.leaf f.c (mark f.x)) else spliceFix f.c f.sib ρ

/-- Removing the smallest entry rotates at the topmost node. -/
def DeleteMinRotatesTop (t : Tree α β) : Prop :=
  match minPath t with
  | [] => False
  | f :: ρ => f.sib.isLeaf = false ∧ f.c = .black ∧ f.sib.color = .black ∧ FixRotatesTop ρ

instance (t : Tree α β) : Decidable (DeleteMinRotatesTop t) :=
  match h : minPath t with
  | [] => .isFalse (by simp [DeleteMinRotatesTop, h])
  | f :: ρ =>
    decidable_of_iff
      (f.sib.isLeaf = false ∧ f.c = .black ∧ f.sib.color = .black ∧ FixRotatesTop ρ)
      (by simp only [DeleteMinRotatesTop, h])

/-- Without a rotation at the topmost node, that node stays on top unless it is the smallest. -/
theorem root_deleteMin (mark : α → β) {t : Tree α β} {f : Frame α β} {ρ : List (Frame α β)}
    (hp : minPath t = f :: ρ) (hρ : ρ ≠ []) (h : ¬ DeleteMinRotatesTop t) :
    (deleteMin mark t).root = t.root := by
  obtain ⟨g, σ, rfl⟩ := List.exists_cons_of_ne_nil hρ
  have htop : ∀ u : Tree α β, (plug (g :: σ) u).root = t.root := by
    intro u
    rw [← plug_minPath t, hp, plug_cons _ (g :: σ)]
    exact root_plug_congr σ (by simp [Frame.fill])
  simp only [deleteMin, hp]
  split
  · exact htop _
  · rename_i hsib
    unfold spliceFix
    split
    · exact htop _
    · rename_i hc
      split
      · exact htop _
      · rename_i hcs
        rw [root_fixDelete (g :: σ) f.sib fun hfix => h ?_]
        · exact htop _
        · simp only [DeleteMinRotatesTop, hp]
          exact ⟨by simpa using hsib, color_ne_red hc, color_ne_red hcs, hfix⟩

theorem toList_eq_cons {t : Tree α β} {f : Frame α β} {ρ : List (Frame α β)}
    (h : minPath t = f :: ρ) : t.toList = f.x :: (plug ρ f.sib).toList := by
  have hleft : ∀ g ∈ f :: ρ, g.side = .left := fun g hg => side_of_mem_minPath (h ▸ hg)
  obtain ⟨c, m, e⟩ := minLeaf_isLeaf t
  rw [← plug_minPath t, h, e, toList_plug, toList_plug, before_eq_nil hleft,
    before_eq_nil fun g hg => hleft g (List.mem_cons_of_mem _ hg)]
  obtain ⟨s, d, x, sib⟩ := f
  obtain rfl : s = .left := hleft _ List.mem_cons_self
  simp [after]

/-- Removing the least value removes the first of the list. -/
theorem toList_deleteMin (mark : α → β) {t : Tree α β} (h : t.isLeaf = false) :
    ∃ f ρ, minPath t = f :: ρ ∧ t.toList = f.x :: (deleteMin mark t).toList := by
  cases hp : minPath t with
  | nil =>
    cases t with
    | leaf c m => cases h
    | node c l x r => simp [minPath] at hp
  | cons f ρ =>
    refine ⟨f, ρ, rfl, ?_⟩
    rw [toList_eq_cons hp, deleteMin, hp]
    congr 1
    simp only
    split
    · rename_i hl
      cases hs : f.sib with
      | leaf c m => exact toList_plug_congr ρ rfl
      | node c l x r => simp [hs] at hl
    · exact (toList_spliceFix f.c f.sib ρ).symm

/-- Removing the smallest entry keeps a tree red-black up to the leftmost leaf. -/
theorem near_deleteMin (mark : α → β) {t : Tree α β} (h : Near t) : Near (deleteMin mark t) := by
  obtain ⟨p, n, hπ, hn⟩ := h
  cases hp : minPath t with
  | nil =>
    rw [deleteMin, hp]
    exact ⟨p, n, hπ, hn⟩
  | cons f ρ =>
    have hleft : ∀ g ∈ ρ, g.side = .left := fun g hg =>
      side_of_mem_minPath (hp ▸ List.mem_cons_of_mem f hg)
    rw [hp] at hπ
    obtain ⟨s, c, x, sib⟩ := f
    simp only [deleteMin, hp]
    split
    · cases hπ with
      | red _ _ hπ _ => exact ⟨.black, n, by rwa [minPath_plug hleft], hn⟩
      | @black _ _ d _ _ _ _ hπ hsib =>
        cases hsib with
        | leaf m =>
          refine ⟨d, 1, ?_, Nat.le_refl 1⟩
          rwa [minPath_plug hleft]
        | red y hl hr => simp_all
        | black y hl hr => simp_all
    · obtain ⟨m, hbal⟩ := bal_spliceFix hπ
      exact near_of_bal hbal

end EE516.Foundations.ColorTree
