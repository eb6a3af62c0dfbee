import EE516.Foundations.RedBlackDelete

/-!
# The red-black laws, one by one

`Bal` and `Near` follow the recursion of a tree and of its leftmost path. Here the laws are stated
one by one, each about the whole tree: the colours of the leaves, red nodes apart, and for every
leaf the number of black nodes on the way to it. `bal_iff` and `near_iff` say that both forms agree.

`pathBal_unique` says that a path with at least one frame accepts subtrees of one black height only.
A subtree under a path can therefore not lose a black node without a repair
(`not_redBlackLaws_of_missing_black`).
-/

set_option autoImplicit false

namespace EE516.Foundations.ColorTree

universe u v

variable {α : Type u} {β : Type v}

namespace Tree

/-- The colours of the leaves from left to right. -/
def leafColors : Tree α β → List Color
  | leaf c _ => [c]
  | node _ l _ r => l.leafColors ++ r.leafColors

/-- For each leaf, from left to right, the number of black inner nodes on the way down to it. -/
def blackCounts : Tree α β → List Nat
  | leaf _ _ => [0]
  | node c l _ r => (l.blackCounts ++ r.blackCounts).map fun k => if c = .black then k + 1 else k

/-- The root is a red inner node. -/
def RedInner (t : Tree α β) : Prop :=
  t.isLeaf = false ∧ t.color = .red

/-- No red inner node has a red inner child. -/
def RedsApart : Tree α β → Prop
  | leaf _ _ => True
  | node c l _ r => (c = .red → ¬ l.RedInner ∧ ¬ r.RedInner) ∧ l.RedsApart ∧ r.RedsApart

theorem not_redInner_of_black {t : Tree α β} (h : t.color = .black) : ¬ t.RedInner := by
  rintro ⟨-, hred⟩
  rw [h] at hred
  cases hred

theorem exists_leafColors_cons (t : Tree α β) : ∃ c cs, t.leafColors = c :: cs := by
  induction t with
  | leaf c m => exact ⟨c, [], rfl⟩
  | node c l x r ihl _ =>
    obtain ⟨d, ds, h⟩ := ihl
    exact ⟨d, ds ++ r.leafColors, by simp [leafColors, h]⟩

theorem exists_blackCounts_cons (t : Tree α β) : ∃ k ks, t.blackCounts = k :: ks := by
  induction t with
  | leaf c m => exact ⟨0, [], rfl⟩
  | node c l x r ihl _ =>
    obtain ⟨k, ks, h⟩ := ihl
    simp only [blackCounts, h, List.cons_append, List.map_cons]
    exact ⟨_, _, rfl⟩

theorem mem_blackCounts_red {l r : Tree α β} {x : α} {k : Nat} :
    k ∈ (node .red l x r).blackCounts ↔ k ∈ l.blackCounts ∨ k ∈ r.blackCounts := by
  simp [blackCounts]

theorem mem_blackCounts_black {l r : Tree α β} {x : α} {k : Nat} :
    k ∈ (node .black l x r).blackCounts ↔
      ∃ j, (j ∈ l.blackCounts ∨ j ∈ r.blackCounts) ∧ j + 1 = k := by
  simp only [blackCounts, if_true, List.mem_map, List.mem_append]

end Tree

open ColorTree.Tree

/-- The laws about colours: black leaves, red nodes apart, equally many black nodes on all ways. -/
structure RedBlackLaws (t : Tree α β) : Prop where
  leaves : ∀ c ∈ t.leafColors, c = .black
  reds : t.RedsApart
  counts : ∃ n, ∀ k ∈ t.blackCounts, k = n

/-- The same laws up to the leftmost leaf, which may be red and have one black node fewer on the way
to it. -/
structure NearLaws (t : Tree α β) : Prop where
  leaves : ∀ c ∈ t.leafColors.tail, c = .black
  reds : t.RedsApart
  counts : ∃ k ks n, t.blackCounts = k :: ks ∧ (∀ j ∈ ks, j = n) ∧ (k = n ∨ k + 1 = n)

/-! ## Red-black trees -/

/-- A balanced tree keeps the laws of red-black trees. -/
theorem Bal.laws {t : Tree α β} {c : Color} {n : Nat} (h : Bal t c n) :
    (∀ d ∈ t.leafColors, d = .black) ∧ t.RedsApart ∧ ∀ k ∈ t.blackCounts, k = n := by
  induction h with
  | leaf m => simp [leafColors, RedsApart, blackCounts]
  | red x hl hr ihl ihr =>
    obtain ⟨hl₁, hl₂, hl₃⟩ := ihl
    obtain ⟨hr₁, hr₂, hr₃⟩ := ihr
    refine ⟨?_, ⟨fun _ => ?_, hl₂, hr₂⟩, ?_⟩
    · intro d hd
      rcases List.mem_append.1 hd with hd | hd
      · exact hl₁ d hd
      · exact hr₁ d hd
    · exact ⟨not_redInner_of_black hl.color_eq, not_redInner_of_black hr.color_eq⟩
    · intro k hk
      rcases mem_blackCounts_red.1 hk with hk | hk
      · exact hl₃ k hk
      · exact hr₃ k hk
  | black x hl hr ihl ihr =>
    obtain ⟨hl₁, hl₂, hl₃⟩ := ihl
    obtain ⟨hr₁, hr₂, hr₃⟩ := ihr
    refine ⟨?_, ⟨(by simp), hl₂, hr₂⟩, ?_⟩
    · intro d hd
      rcases List.mem_append.1 hd with hd | hd
      · exact hl₁ d hd
      · exact hr₁ d hd
    · intro k hk
      obtain ⟨j, hj, rfl⟩ := mem_blackCounts_black.1 hk
      rcases hj with hj | hj
      · rw [hl₃ j hj]
      · rw [hr₃ j hj]

/-- The laws of red-black trees give the inductive balance. -/
theorem bal_of_laws {t : Tree α β} {n : Nat} (h₁ : ∀ d ∈ t.leafColors, d = .black)
    (h₂ : t.RedsApart) (h₃ : ∀ k ∈ t.blackCounts, k = n) : Bal t t.color n := by
  induction t generalizing n with
  | leaf c m =>
    obtain rfl : c = .black := h₁ c (by simp [leafColors])
    obtain rfl : 0 = n := h₃ 0 (by simp [blackCounts])
    exact .leaf m
  | node c l x r ihl ihr =>
    obtain ⟨hreds, hl₂, hr₂⟩ := h₂
    have hl₁ : ∀ d ∈ l.leafColors, d = .black := fun d hd => h₁ d (List.mem_append_left _ hd)
    have hr₁ : ∀ d ∈ r.leafColors, d = .black := fun d hd => h₁ d (List.mem_append_right _ hd)
    cases c with
    | red =>
      have hl := ihl hl₁ hl₂ fun k hk => h₃ k (mem_blackCounts_red.2 (Or.inl hk))
      have hr := ihr hr₁ hr₂ fun k hk => h₃ k (mem_blackCounts_red.2 (Or.inr hk))
      -- a red child would be inner, since leaves are black
      have hlc : l.color = .black := color_ne_red fun e => (hreds rfl).1 ⟨hl.inner_of_red e, e⟩
      have hrc : r.color = .black := color_ne_red fun e => (hreds rfl).2 ⟨hr.inner_of_red e, e⟩
      rw [hlc] at hl
      rw [hrc] at hr
      exact .red x hl hr
    | black =>
      obtain ⟨k, ks, hk⟩ := l.exists_blackCounts_cons
      have hn : k + 1 = n := h₃ _ (mem_blackCounts_black.2 ⟨k, Or.inl (by simp [hk]), rfl⟩)
      subst hn
      have hl := ihl hl₁ hl₂ fun j hj =>
        Nat.succ.inj (h₃ _ (mem_blackCounts_black.2 ⟨j, Or.inl hj, rfl⟩))
      have hr := ihr hr₁ hr₂ fun j hj =>
        Nat.succ.inj (h₃ _ (mem_blackCounts_black.2 ⟨j, Or.inr hj, rfl⟩))
      exact .black x hl hr

/-- Balance is the colour of the root together with the laws. -/
theorem bal_iff {t : Tree α β} {c : Color} {n : Nat} :
    Bal t c n ↔ t.color = c ∧ (∀ d ∈ t.leafColors, d = .black) ∧ t.RedsApart ∧
      ∀ k ∈ t.blackCounts, k = n := by
  constructor
  · intro h
    exact ⟨h.color_eq, h.laws⟩
  · rintro ⟨rfl, h₁, h₂, h₃⟩
    exact bal_of_laws h₁ h₂ h₃

/-- A balanced tree with a black root is one that keeps the laws and has a black root. -/
theorem exists_bal_black_iff {t : Tree α β} :
    (∃ n, Bal t .black n) ↔ t.color = .black ∧ RedBlackLaws t := by
  constructor
  · rintro ⟨n, h⟩
    obtain ⟨hc, h₁, h₂, h₃⟩ := bal_iff.1 h
    exact ⟨hc, h₁, h₂, n, h₃⟩
  · rintro ⟨hc, h₁, h₂, n, h₃⟩
    exact ⟨n, bal_iff.2 ⟨hc, h₁, h₂, h₃⟩⟩

/-! ## Paths -/

section Path

variable {π : List (Frame α β)} {s : Side} {x : α} {sib : Tree α β} {p : Color} {n : Nat}

/-- The hole at the top takes a black root only. -/
theorem pathBal_nil_iff : PathBal ([] : List (Frame α β)) p n ↔ p = .red := by
  constructor
  · intro h
    cases h
    rfl
  · rintro rfl
    exact .top n

/-- A red frame has a black parent and black subtrees of the same black height. -/
theorem pathBal_red_iff :
    PathBal (⟨s, .red, x, sib⟩ :: π) p n ↔ p = .red ∧ PathBal π .black n ∧ Bal sib .black n := by
  constructor
  · intro h
    cases h with
    | red _ _ hπ hsib => exact ⟨rfl, hπ, hsib⟩
  · rintro ⟨rfl, hπ, hsib⟩
    exact .red s x hπ hsib

/-- A black frame adds one to the black height and allows both colours below it. -/
theorem pathBal_black_iff :
    PathBal (⟨s, .black, x, sib⟩ :: π) p n ↔
      p = .black ∧ (∃ q, PathBal π q (n + 1)) ∧ ∃ d, Bal sib d n := by
  constructor
  · intro h
    cases h with
    | black _ _ hπ hsib => exact ⟨rfl, ⟨_, hπ⟩, _, hsib⟩
  · rintro ⟨rfl, ⟨q, hπ⟩, d, hsib⟩
    exact .black s x hπ hsib

/-- The sibling of the hole determines the black height of the subtrees that fit into it. -/
theorem pathBal_unique {f : Frame α β} {q : Color} {m : Nat} (h : PathBal (f :: π) p n)
    (h' : PathBal (f :: π) q m) : n = m := by
  obtain ⟨s, c, x, sib⟩ := f
  cases c with
  | red =>
    obtain ⟨-, -, hsib⟩ := pathBal_red_iff.1 h
    obtain ⟨-, -, hsib'⟩ := pathBal_red_iff.1 h'
    exact hsib.height_unique hsib'
  | black =>
    obtain ⟨-, -, d, hsib⟩ := pathBal_black_iff.1 h
    obtain ⟨-, -, d', hsib'⟩ := pathBal_black_iff.1 h'
    exact hsib.height_unique hsib'

theorem color_plug_cons (f : Frame α β) (π : List (Frame α β)) (t u : Tree α β) :
    (plug (f :: π) t).color = (plug (f :: π) u).color := by
  induction π generalizing f t u with
  | nil => simp [Frame.fill]
  | cons g π ih => exact ih g (f.fill t) (f.fill u)

/-- The leaves of a subtree are leaves of the whole tree. -/
theorem mem_leafColors_plug (π : List (Frame α β)) {t : Tree α β} {c : Color}
    (h : c ∈ t.leafColors) : c ∈ (plug π t).leafColors := by
  induction π generalizing t with
  | nil => exact h
  | cons f π ih =>
    obtain ⟨s, d, x, sib⟩ := f
    refine ih ?_
    cases s with
    | left => exact List.mem_append_left _ h
    | right => exact List.mem_append_right _ h

/-- An entry of a tree is at the root of a subtree. -/
theorem exists_plug_of_mem {t : Tree α β} (h : x ∈ t.toList) :
    ∃ π c l r, t = plug π (.node c l x r) := by
  induction t with
  | leaf c m => simp at h
  | node c l y r ihl ihr =>
    simp only [toList_node, List.mem_append, List.mem_cons] at h
    rcases h with h | rfl | h
    · obtain ⟨π, d, a, b, rfl⟩ := ihl h
      exact ⟨π ++ [⟨.left, c, y, r⟩], d, a, b, by simp⟩
    · exact ⟨[], c, l, r, rfl⟩
    · obtain ⟨π, d, a, b, rfl⟩ := ihr h
      exact ⟨π ++ [⟨.right, c, y, l⟩], d, a, b, by simp⟩

/-- Balance does not look at the values. -/
theorem Bal.relabel {l r : Tree α β} {c d : Color} (h : Bal (.node c l x r) d n) (y : α) :
    Bal (.node c l y r) d n := by
  cases h with
  | red _ hl hr => exact .red y hl hr
  | black _ hl hr => exact .black y hl hr

/-- The laws do not speak about entries. -/
theorem bal_plug_relabel {l r : Tree α β} {c : Color} (h : Bal (plug π (.node c l x r)) .black n)
    (y : α) : ∃ m, Bal (plug π (.node c l y r)) .black m := by
  obtain ⟨q, d, k, hπ, hnode, hd⟩ := bal_of_plug π h
  exact bal_plug hπ (hnode.relabel y) hd

/-- A red-black tree whose subtree under a path turns into a leaf of its colour breaks a law. -/
theorem not_redBlackLaws_of_missing_black {f : Frame α β} {c c₁ c₂ : Color} {m₁ m₂ m : β}
    (h : Bal (plug (f :: π) (.node c (.leaf c₁ m₁) x (.leaf c₂ m₂))) .black n) :
    ¬ RedBlackLaws (plug (f :: π) (.leaf c m)) := by
  intro hlaws
  cases c with
  | red =>
    -- the leaf that is left is red
    have hred := hlaws.leaves .red (mem_leafColors_plug (f :: π) (by simp [leafColors]))
    cases hred
  | black =>
    -- the way to the leaf that is left lost one black node, and its sibling still requires it
    have hcolor := color_plug_cons f π (.leaf .black m) (.node .black (.leaf c₁ m₁) x (.leaf c₂ m₂))
    rw [h.color_eq] at hcolor
    obtain ⟨k, hbal⟩ := exists_bal_black_iff.2 ⟨hcolor, hlaws⟩
    obtain ⟨p₁, d₁, n₁, hπ₁, hnode, -⟩ := bal_of_plug (f :: π) h
    obtain ⟨p₂, d₂, n₂, hπ₂, hleaf, -⟩ := bal_of_plug (f :: π) hbal
    have hn := pathBal_unique hπ₁ hπ₂
    cases hleaf
    cases hnode
    cases hn

end Path

/-! ## Trees that are red-black up to the leftmost leaf -/

/-- The laws up to the leftmost leaf, with the black height `n` of the subtrees that would fit there
and the black height `m` of the whole tree. -/
def LawsWithHole (t : Tree α β) (n m : Nat) : Prop :=
  (∀ c ∈ t.leafColors.tail, c = .black) ∧ t.RedsApart ∧
    ∃ k ks, t.blackCounts = k :: ks ∧ (∀ j ∈ ks, j = m) ∧ k + n = m

/-- Below a red root: no red child, the laws up to the hole on the left, balance on the right. -/
theorem lawsWithHole_red {l r : Tree α β} {x : α} {n m : Nat} :
    LawsWithHole (.node .red l x r) n m ↔
      ¬ l.RedInner ∧ LawsWithHole l n m ∧ Bal r .black m := by
  obtain ⟨c, cs, hcs⟩ := l.exists_leafColors_cons
  obtain ⟨j, js, hjs⟩ := l.exists_blackCounts_cons
  simp only [LawsWithHole, leafColors, hcs, List.cons_append, List.tail_cons, List.mem_append,
    blackCounts, hjs, reduceCtorEq, if_false, List.map_id']
  constructor
  · rintro ⟨hleaves, ⟨hreds, hl, hr⟩, k, ks, hk, hks, hn⟩
    obtain ⟨rfl, rfl⟩ := List.cons.inj hk
    have hbal := bal_of_laws (fun d hd => hleaves d (Or.inr hd)) hr
      fun i hi => hks i (List.mem_append_right _ hi)
    have hrc : r.color = .black := color_ne_red fun e => (hreds rfl).2 ⟨hbal.inner_of_red e, e⟩
    refine ⟨(hreds rfl).1, ⟨fun d hd => hleaves d (Or.inl hd), hl, j, js, rfl, ?_, hn⟩, hrc ▸ hbal⟩
    intro i hi
    exact hks i (List.mem_append_left _ hi)
  · rintro ⟨hlred, ⟨hleaves, hl, k, ks, hk, hks, hn⟩, hbal⟩
    obtain ⟨rfl, rfl⟩ := List.cons.inj hk
    obtain ⟨hr₁, hr₂, hr₃⟩ := hbal.laws
    refine ⟨fun d hd => hd.elim (hleaves d) (hr₁ d),
      ⟨fun _ => ⟨hlred, not_redInner_of_black hbal.color_eq⟩, hl, hr₂⟩, j, js ++ r.blackCounts, rfl,
      ?_, hn⟩
    intro i hi
    rcases List.mem_append.1 hi with hi | hi
    · exact hks i hi
    · exact hr₃ i hi

/-- Below a black root: the laws up to the hole on the left, and balance on the right. -/
theorem lawsWithHole_black {l r : Tree α β} {x : α} {n m : Nat} :
    LawsWithHole (.node .black l x r) n m ↔
      ∃ k, m = k + 1 ∧ LawsWithHole l n k ∧ ∃ d, Bal r d k := by
  obtain ⟨c, cs, hcs⟩ := l.exists_leafColors_cons
  obtain ⟨j, js, hjs⟩ := l.exists_blackCounts_cons
  obtain ⟨i, is, his⟩ := r.exists_blackCounts_cons
  simp only [LawsWithHole, leafColors, hcs, List.cons_append, List.tail_cons, List.mem_append,
    blackCounts, hjs, if_true, List.map_cons, List.map_append]
  constructor
  · rintro ⟨hleaves, ⟨-, hl, hr⟩, k, ks, hk, hks, hn⟩
    obtain ⟨rfl, rfl⟩ := List.cons.inj hk
    -- the right subtree has a leaf, so it has the black height
    have hm : m = i + 1 := (hks (i + 1) (by simp [his])).symm
    subst hm
    refine ⟨i, rfl, ⟨fun d hd => hleaves d (Or.inl hd), hl, j, js, rfl, ?_, by omega⟩, r.color,
      bal_of_laws (fun d hd => hleaves d (Or.inr hd)) hr ?_⟩
    · intro a ha
      exact Nat.succ.inj (hks (a + 1) (List.mem_append_left _ (List.mem_map_of_mem ha)))
    · intro a ha
      exact Nat.succ.inj (hks (a + 1) (List.mem_append_right _ (List.mem_map_of_mem ha)))
  · rintro ⟨k, rfl, ⟨hleaves, hl, k', ks, hk, hks, hn⟩, d, hbal⟩
    obtain ⟨rfl, rfl⟩ := List.cons.inj hk
    obtain ⟨hr₁, hr₂, hr₃⟩ := hbal.laws
    refine ⟨fun d hd => hd.elim (hleaves d) (hr₁ d), ⟨(by simp), hl, hr₂⟩, j + 1, _, rfl, ?_,
      by omega⟩
    intro a ha
    rcases List.mem_append.1 ha with ha | ha
    · obtain ⟨b, hb, rfl⟩ := List.mem_map.1 ha
      rw [hks b hb]
    · obtain ⟨b, hb, rfl⟩ := List.mem_map.1 ha
      rw [hr₃ b hb]

/-- The leftmost way down from a subtree under `π`, as a path and as laws. -/
theorem exists_pathBal_minPath_iff (t : Tree α β) (π : List (Frame α β)) (n : Nat) :
    (∃ p, PathBal (minPath t ++ π) p n) ↔
      ∃ q m, PathBal π q m ∧ (t.RedInner → q = .black) ∧ LawsWithHole t n m := by
  -- on the tree along its left edge; each node moves from the tree to the path
  induction t generalizing π with
  | leaf c m =>
    constructor
    · rintro ⟨p, hπ⟩
      refine ⟨p, n, hπ, (by simp [RedInner]), by simp [leafColors], trivial, 0, [], rfl, ?_,
        Nat.zero_add n⟩
      simp
    · rintro ⟨q, m, hπ, -, -, -, k, ks, hk, -, hn⟩
      obtain ⟨rfl, -⟩ := List.cons.inj hk
      obtain rfl : n = m := by omega
      exact ⟨q, hπ⟩
  | node c l x r ihl _ =>
    rw [minPath, List.append_assoc, List.singleton_append, ihl]
    cases c with
    | red =>
      constructor
      · rintro ⟨q, m, hπ, hl, hlaws⟩
        obtain ⟨rfl, hπ, hr⟩ := pathBal_red_iff.1 hπ
        refine ⟨.black, m, hπ, fun _ => rfl, lawsWithHole_red.2 ⟨?_, hlaws, hr⟩⟩
        intro h
        cases hl h
      · rintro ⟨q, m, hπ, hq, hlaws⟩
        obtain ⟨hl, hlaws, hr⟩ := lawsWithHole_red.1 hlaws
        rw [hq ⟨rfl, rfl⟩] at hπ
        exact ⟨.red, m, pathBal_red_iff.2 ⟨rfl, hπ, hr⟩, fun h => absurd h hl, hlaws⟩
    | black =>
      constructor
      · rintro ⟨q, m, hπ, -, hlaws⟩
        obtain ⟨rfl, ⟨q', hπ⟩, hr⟩ := pathBal_black_iff.1 hπ
        exact ⟨q', m + 1, hπ, (by simp [RedInner]), lawsWithHole_black.2 ⟨m, rfl, hlaws, hr⟩⟩
      · rintro ⟨q, m, hπ, -, hlaws⟩
        obtain ⟨k, rfl, hlaws, hr⟩ := lawsWithHole_black.1 hlaws
        exact ⟨.black, k, pathBal_black_iff.2 ⟨rfl, ⟨q, hπ⟩, hr⟩, fun _ => rfl, hlaws⟩

/-- The two parts of a nearly red-black tree. -/
theorem near_iff {t : Tree α β} : Near t ↔ ¬ t.RedInner ∧ NearLaws t := by
  have h := fun n => exists_pathBal_minPath_iff t [] n
  simp only [List.append_nil, pathBal_nil_iff] at h
  constructor
  · rintro ⟨p, n, hπ, hn⟩
    obtain ⟨q, m, rfl, hred, hleaves, hreds, k, ks, hk, hks, hm⟩ := (h n).1 ⟨p, hπ⟩
    refine ⟨fun hr => ?_, hleaves, hreds, k, ks, m, hk, hks, by omega⟩
    cases hred hr
  · rintro ⟨hred, hleaves, hreds, k, ks, m, hk, hks, hm⟩
    obtain ⟨p, hπ⟩ := (h (m - k)).2 ⟨.red, m, rfl, fun hr => absurd hr hred, hleaves, hreds, k, ks,
      hk, hks, by omega⟩
    exact ⟨p, m - k, hπ, by omega⟩

end EE516.Foundations.ColorTree
