import Mathlib.Data.List.Nodup
import Mathlib.Logic.Function.Basic

/-!
# Rings of cells

Cells that point to a next and a previous cell. `Ring g h l` says that the pointers lead from the
cell `h` through the cells of `l` back to `h`, and the same way back. Every change of a ring is a
few joins, each of which makes two cells neighbours (`Links.join`): one lemma about the join of two
paths gives the insertion, the removal and the splicing of rings.
-/

set_option autoImplicit false

namespace EE516.Foundations

universe u

variable {κ : Type u}

/-- The cells that the cells point to, as far as they point to cells. -/
@[ext]
structure Links (κ : Type u) where
  next : κ → Option κ
  prev : κ → Option κ

/-- The cells `a` and `b` become neighbours. -/
@[simps]
def Links.join [DecidableEq κ] (g : Links κ) (a b : κ) : Links κ where
  next := Function.update g.next a (some b)
  prev := Function.update g.prev b (some a)

/-- The pointers lead from `a` through the cells of the list, and back. -/
def Path (g : Links κ) : κ → List κ → Prop
  | _, [] => True
  | a, x :: l => (g.next a = some x ∧ g.prev x = some a) ∧ Path g x l

variable {g g' : Links κ} {a b h h' n x : κ} {l l₁ l₂ m : List κ}

/-- A path through two lists is cut where the first one ends. -/
theorem path_append : Path g a (l₁ ++ l₂) ↔ Path g a l₁ ∧ Path g (l₁.getLastD a) l₂ := by
  induction l₁ generalizing a with
  | nil => exact (and_iff_right trivial).symm
  | cons x l₁ ih =>
    rw [List.cons_append, Path, Path, ih, List.getLastD_cons, and_assoc (b := Path g x l₁)]

/-- A path depends on the pointers along it only. -/
theorem Path.frame (hpath : Path g a l) (hnext : ∀ c ∈ (a :: l).dropLast, g'.next c = g.next c)
    (hprev : ∀ c ∈ l, g'.prev c = g.prev c) : Path g' a l := by
  induction l generalizing a with
  | nil => trivial
  | cons x l ih =>
    obtain ⟨⟨hax, hxa⟩, hrest⟩ := hpath
    rw [List.dropLast_cons_of_ne_nil (List.cons_ne_nil x l)] at hnext
    refine ⟨⟨?_, ?_⟩, ih hrest ?_ ?_⟩
    · rw [hnext a List.mem_cons_self, hax]
    · rw [hprev x List.mem_cons_self, hxa]
    · exact fun c hc => hnext c (List.mem_cons_of_mem a hc)
    · exact fun c hc => hprev c (List.mem_cons_of_mem x hc)

theorem getLastD_mem_cons (a : κ) (l : List κ) : l.getLastD a ∈ a :: l := by
  induction l generalizing a with
  | nil => exact List.mem_cons_self
  | cons x l ih =>
    rw [List.getLastD_cons]
    exact List.mem_cons_of_mem a (ih x)

/-- The last cell of a path without repetition is none of the cells before. -/
theorem getLastD_notMem_dropLast (hnodup : (a :: l).Nodup) :
    l.getLastD a ∉ (a :: l).dropLast := by
  induction l generalizing a with
  | nil => exact List.not_mem_nil
  | cons x l ih =>
    obtain ⟨ha, hrest⟩ := List.nodup_cons.1 hnodup
    rw [List.getLastD_cons, List.dropLast_cons_of_ne_nil (List.cons_ne_nil x l), List.mem_cons]
    rintro (heq | hmem)
    · exact ha (heq ▸ getLastD_mem_cons x l)
    · exact ih hrest hmem

variable [DecidableEq κ]

/-- Two paths become one when the last cell of the first and the first cell of the second become
neighbours. -/
theorem Path.join (h₁ : Path g a l₁) (h₂ : Path g n l₂) (hnodup : (a :: l₁).Nodup)
    (hlast : l₁.getLastD a ∉ (n :: l₂).dropLast) (hn₁ : n ∉ l₁) (hn₂ : n ∉ l₂) :
    Path (g.join (l₁.getLastD a) n) a (l₁ ++ n :: l₂) := by
  refine path_append.2 ⟨h₁.frame ?_ ?_, ⟨?_, ?_⟩, h₂.frame ?_ ?_⟩
  · intro c hc
    refine Function.update_of_ne ?_ _ _
    rintro rfl
    exact getLastD_notMem_dropLast hnodup hc
  · exact fun c hc => Function.update_of_ne (ne_of_mem_of_not_mem hc hn₁) _ _
  · exact Function.update_self _ _ _
  · exact Function.update_self _ _ _
  · exact fun c hc => Function.update_of_ne (ne_of_mem_of_not_mem hc hlast) _ _
  · exact fun c hc => Function.update_of_ne (ne_of_mem_of_not_mem hc hn₂) _ _

omit [DecidableEq κ]

/-! ## Rings -/

/-- The pointers lead from `h` through `l` back to `h`, and back, and pass no cell twice. -/
structure Ring (g : Links κ) (h : κ) (l : List κ) : Prop where
  nodup : (h :: l).Nodup
  path : Path g h (l ++ [h])

namespace Ring

/-- The head of a ring is none of its entries. -/
theorem head_notMem (hr : Ring g h l) : h ∉ l :=
  (List.nodup_cons.1 hr.nodup).1

/-- A ring depends on the pointers of its own cells only. -/
theorem frame (hr : Ring g h l)
    (hsame : ∀ c ∈ h :: l, g'.next c = g.next c ∧ g'.prev c = g.prev c) : Ring g' h l where
  nodup := hr.nodup
  path := by
    refine hr.path.frame (fun c hc => ?_) fun c hc => ?_
    · rw [← List.cons_append, List.dropLast_concat] at hc
      exact (hsame c hc).1
    · refine (hsame c ?_).2
      rcases List.mem_append.1 hc with hc | hc
      · exact List.mem_cons_of_mem h hc
      · exact List.mem_singleton.1 hc ▸ List.mem_cons_self

/-- The neighbours of a cell of the ring. -/
theorem neighbours (hr : Ring g h (l₁ ++ x :: l₂)) :
    g.next x = some (l₂.headD h) ∧ g.prev x = some (l₁.getLastD h) := by
  have hpath := hr.path
  rw [List.append_assoc, List.cons_append, path_append] at hpath
  obtain ⟨-, ⟨-, hprev⟩, hrest⟩ := hpath
  refine ⟨?_, hprev⟩
  cases l₂ with
  | nil => exact hrest.1.1
  | cons y l₂ => exact hrest.1.1

/-- From the head a ring goes on to its first entry, or to the head itself. -/
theorem next_head (hr : Ring g h l) : g.next h = some (l.headD h) := by
  have hpath := hr.path
  cases l with
  | nil => exact hpath.1.1
  | cons y l => exact hpath.1.1

/-- Before the head of a ring is its last entry, or the head itself. -/
theorem prev_head (hr : Ring g h l) : g.prev h = some (l.getLastD h) := by
  have hpath := hr.path
  rw [path_append] at hpath
  exact hpath.2.1.2

/-- The first cell behind the head is the head itself in an empty ring only. -/
theorem next_head_eq (hr : Ring g h l) : g.next h = some h ↔ l = [] := by
  rw [hr.next_head, Option.some_inj]
  cases l with
  | nil => exact iff_of_true rfl rfl
  | cons y l =>
    refine iff_of_false (fun hy : y = h => ?_) (List.cons_ne_nil y l)
    exact hr.head_notMem (hy ▸ List.mem_cons_self)

/-- The way on from a place of the ring, with the first cell of it. -/
theorem way (hr : Ring g h (l₁ ++ l₂)) :
    ∃ m, l₂ ++ [h] = l₂.headD h :: m ∧ l₂.headD h ∉ m ∧ l₂.headD h ∉ l₁ ∧
      Path g (l₂.headD h) m := by
  have hpath := hr.path
  rw [List.append_assoc, path_append] at hpath
  have hnodup := hr.nodup
  cases l₂ with
  | nil =>
    refine ⟨[], rfl, List.not_mem_nil, ?_, trivial⟩
    simpa using hr.head_notMem
  | cons y l₂ =>
    rw [List.nodup_cons, List.nodup_append] at hnodup
    obtain ⟨hh, -, hy, hdisjoint⟩ := hnodup
    refine ⟨l₂ ++ [h], rfl, ?_, fun hm => hdisjoint y hm y List.mem_cons_self rfl, hpath.2.2⟩
    rw [List.headD_cons, List.mem_append, List.mem_singleton]
    rintro (hm | rfl)
    · exact (List.nodup_cons.1 hy).1 hm
    · exact hh (List.mem_append_right l₁ List.mem_cons_self)

/-- The way to a place of the ring has no cell of the way on. -/
theorem getLastD_notMem (hr : Ring g h (l₁ ++ l₂)) : l₁.getLastD h ∉ l₂ := by
  have hnodup : (h :: l₁ ++ l₂).Nodup := hr.nodup
  intro hm
  exact (List.nodup_append.1 hnodup).2.2 _ (getLastD_mem_cons h l₁) _ hm rfl

variable [DecidableEq κ]

/-- The ring of a cell that points to itself. -/
theorem single (g : Links κ) (h : κ) : Ring (g.join h h) h [] where
  nodup := List.nodup_singleton h
  path := ⟨⟨Function.update_self _ _ _, Function.update_self _ _ _⟩, trivial⟩

/-- A join of two cells outside leaves a ring as it is. -/
theorem join_outside (hr : Ring g h l) (ha : a ∉ h :: l) (hb : b ∉ h :: l) :
    Ring (g.join a b) h l :=
  hr.frame fun _ hc => ⟨Function.update_of_ne (ne_of_mem_of_not_mem hc ha) _ _,
    Function.update_of_ne (ne_of_mem_of_not_mem hc hb) _ _⟩

/-- A cell is put between two neighbours of the ring. -/
theorem insert (hr : Ring g h (l₁ ++ l₂)) (hx : x ∉ h :: (l₁ ++ l₂)) :
    Ring ((g.join x (l₂.headD h)).join (l₁.getLastD h) x) h (l₁ ++ x :: l₂) := by
  have hnodup : (x :: (h :: l₁) ++ l₂).Nodup := List.nodup_cons.2 ⟨hx, hr.nodup⟩
  obtain ⟨m, hm, hnm, hnl₁, hrest⟩ := hr.way
  have hdrop : (l₂.headD h :: m).dropLast = l₂ := by rw [← hm, List.dropLast_concat]
  have hmem : ∀ {c}, c ∈ l₂.headD h :: m → c ∈ h :: (l₁ ++ l₂) := by
    intro c hc
    rw [← hm, List.mem_append, List.mem_singleton] at hc
    rcases hc with hc | rfl
    · exact List.mem_cons_of_mem h (List.mem_append_right l₁ hc)
    · exact List.mem_cons_self
  refine ⟨List.nodup_middle.2 hnodup, ?_⟩
  -- the new cell is joined to the way on, and then the way so far to the new cell
  have hon : Path (g.join x (l₂.headD h)) x (l₂.headD h :: m) := by
    have hx₀ : Path g x [] := trivial
    refine hx₀.join hrest (List.nodup_singleton x) ?_ List.not_mem_nil hnm
    exact fun hc => hx (hmem (List.dropLast_subset _ hc))
  have hso : Path (g.join x (l₂.headD h)) h l₁ := by
    have hpath := hr.path
    rw [List.append_assoc, path_append] at hpath
    refine hpath.1.frame (fun c hc => ?_) fun c hc => ?_
    · refine Function.update_of_ne ?_ _ _
      rintro rfl
      have hc := List.dropLast_subset _ hc
      exact hx ((List.sublist_append_left (h :: l₁) l₂).subset hc)
    · exact Function.update_of_ne (ne_of_mem_of_not_mem hc hnl₁) _ _
  rw [List.append_assoc, List.cons_append, hm]
  refine hso.join hon (hr.nodup.sublist (List.sublist_append_left (h :: l₁) l₂)) ?_ ?_ ?_
  · rw [List.dropLast_cons_of_ne_nil (List.cons_ne_nil _ m), hdrop, List.mem_cons, not_or]
    refine ⟨?_, hr.getLastD_notMem⟩
    intro heq
    exact hx (heq ▸ (List.sublist_append_left (h :: l₁) l₂).subset (getLastD_mem_cons h l₁))
  · exact fun hc => hx (List.mem_cons_of_mem h (List.mem_append_left l₂ hc))
  · exact fun hc => hx (hmem hc)

/-- A cell is taken out: its neighbours become neighbours. -/
theorem remove (hr : Ring g h (l₁ ++ x :: l₂)) :
    Ring (g.join (l₁.getLastD h) (l₂.headD h)) h (l₁ ++ l₂) := by
  have hsub : (h :: (l₁ ++ l₂)).Sublist (h :: (l₁ ++ x :: l₂)) :=
    ((List.Sublist.refl l₁).append (List.sublist_cons_self x l₂)).cons_cons h
  have hr' : Ring g h ((l₁ ++ [x]) ++ l₂) := by
    rw [List.append_assoc]
    exact hr
  obtain ⟨m, hm, hnm, hnl₁, hrest⟩ := hr'.way
  have hpath := hr.path
  rw [List.append_assoc, path_append] at hpath
  refine ⟨hr.nodup.sublist hsub, ?_⟩
  rw [List.append_assoc, hm]
  refine hpath.1.join hrest (hr.nodup.sublist (List.sublist_append_left (h :: l₁) _)) ?_ ?_ hnm
  · rw [← hm, List.dropLast_concat]
    exact fun hc => hr.getLastD_notMem (List.mem_cons_of_mem x hc)
  · exact fun hc => hnl₁ (List.mem_append_left [x] hc)

/-- The cells of another ring are put behind the head. -/
theorem splice (hr : Ring g h l) (hs : Ring g h' m) (hm : m ≠ [])
    (hdisjoint : ∀ c ∈ h' :: m, c ∉ h :: l) :
    Ring ((g.join h (m.headD h')).join (m.getLastD h') (l.headD h)) h (m ++ l) := by
  obtain ⟨f, m, rfl⟩ := List.exists_cons_of_ne_nil hm
  have hpath := hs.path
  rw [List.cons_append, Path, path_append] at hpath
  obtain ⟨-, hms, -⟩ := hpath
  have hr₀ : Ring g h ([] ++ l) := hr
  obtain ⟨rest, hrest, hnr, -, hon⟩ := hr₀.way
  have hfm := List.nodup_cons.1 (List.nodup_cons.1 hs.nodup).2
  -- the two rings share no cell
  have hout : ∀ c ∈ f :: m, c ∉ h :: l := fun c hc => hdisjoint c (List.mem_cons_of_mem h' hc)
  have hmem : ∀ {c}, c ∈ l.headD h :: rest → c ∈ h :: l := by
    intro c hc
    rw [← hrest, List.mem_append, List.mem_singleton] at hc
    rcases hc with hc | rfl
    · exact List.mem_cons_of_mem h hc
    · exact List.mem_cons_self
  have hnodup : (h :: (f :: m ++ l)).Nodup := by
    have hh := List.nodup_cons.1 hr.nodup
    rw [List.nodup_cons, List.mem_append, List.nodup_append]
    refine ⟨?_, (List.nodup_cons.1 hs.nodup).2, hh.2, ?_⟩
    · rintro (hc | hc)
      · exact hout h hc List.mem_cons_self
      · exact hh.1 hc
    · rintro c hc d hd rfl
      exact hout c hc (List.mem_cons_of_mem h hd)
  refine ⟨hnodup, ?_⟩
  -- the links inside both rings are not touched, only the two joints are new
  have hso : Path (g.join h f) h (f :: m) := by
    have hh₀ : Path g h [] := trivial
    refine hh₀.join hms (List.nodup_singleton h) ?_ List.not_mem_nil hfm.1
    exact fun hc => hout h (List.dropLast_subset _ hc) List.mem_cons_self
  have hon' : Path (g.join h f) (l.headD h) rest := by
    refine hon.frame (fun c hc => ?_) fun c hc => ?_
    · rw [← hrest, List.dropLast_concat] at hc
      exact Function.update_of_ne (ne_of_mem_of_not_mem hc hr.head_notMem) _ _
    · refine Function.update_of_ne ?_ _ _
      rintro rfl
      exact hout c List.mem_cons_self (hmem (List.mem_cons_of_mem _ hc))
  rw [List.append_assoc, hrest, List.getLastD_cons, ← List.getLastD_cons (a := f)]
  refine hso.join hon' (hnodup.sublist (List.sublist_append_left (h :: f :: m) l)) ?_ ?_ hnr
  · rw [← hrest, List.dropLast_concat, List.getLastD_cons]
    exact fun hc => hout _ (getLastD_mem_cons f m) (List.mem_cons_of_mem h hc)
  · exact fun hc => hout _ hc (hmem List.mem_cons_self)

end Ring

end EE516.Foundations
