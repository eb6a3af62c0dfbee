import Mathlib.Logic.Function.Basic
import Mathlib.Data.List.Basic
import Mathlib.Data.List.Nodup

/-!
# Chains of cells

A heap of cells with one pointer each. `Chain heap p l q` says that the pointer `p` leads through
the cells listed in `l`, with their addresses and values, to the pointer `q`. A chain that ends at
the null pointer passes no cell twice (`Chain.nodup`), so a cell can be linked in or out behind
another one without touching the rest.
-/

set_option autoImplicit false

namespace EE516.Foundations

universe u v

/-- A cell with its pointer to the next one. -/
structure Cell (κ : Type u) (α : Type v) where
  next : Option κ
  v : α

/-- The allocated cells by their addresses. -/
abbrev Cells (κ : Type u) (α : Type v) := κ → Option (Cell κ α)

variable {κ : Type u} {α : Type v}

/-- The pointer `p` leads through the cells of the list to `q`. -/
def Chain (heap : Cells κ α) : Option κ → List (κ × α) → Option κ → Prop
  | p, [], q => p = q
  | p, (a, x) :: l, q => p = some a ∧ ∃ n, heap a = some ⟨n, x⟩ ∧ Chain heap n l q

variable {heap heap' : Cells κ α} {p q : Option κ} {l l₁ l₂ : List (κ × α)} {a b : κ} {x y : α}

/-- A chain through two lists is cut at a node. -/
theorem chain_append :
    Chain heap p (l₁ ++ l₂) q ↔ ∃ r, Chain heap p l₁ r ∧ Chain heap r l₂ q := by
  induction l₁ generalizing p with
  | nil =>
    constructor
    · intro h
      exact ⟨p, rfl, h⟩
    · rintro ⟨r, rfl, h⟩
      exact h
  | cons c l₁ ih =>
    constructor
    · rintro ⟨hp, n, hc, h⟩
      obtain ⟨r, h₁, h₂⟩ := ih.1 h
      exact ⟨r, ⟨hp, n, hc, h₁⟩, h₂⟩
    · rintro ⟨r, ⟨hp, n, hc, h₁⟩, h₂⟩
      exact ⟨hp, n, hc, ih.2 ⟨r, h₁, h₂⟩⟩

/-- A chain depends on its own cells only. -/
theorem Chain.frame (h : Chain heap p l q) (hsame : ∀ c ∈ l, heap' c.1 = heap c.1) :
    Chain heap' p l q := by
  induction l generalizing p with
  | nil => exact h
  | cons c l ih =>
    obtain ⟨hp, n, hc, hrest⟩ := h
    refine ⟨hp, n, ?_, ih hrest fun d hd => hsame d (List.mem_cons_of_mem c hd)⟩
    rw [hsame c List.mem_cons_self]
    exact hc

/-- The cells of a chain are allocated. -/
theorem Chain.allocated (h : Chain heap p l q) {c : κ × α} (hc : c ∈ l) :
    ∃ n, heap c.1 = some ⟨n, c.2⟩ := by
  induction l generalizing p with
  | nil => cases hc
  | cons d l ih =>
    obtain ⟨-, n, hd, hrest⟩ := h
    rcases List.mem_cons.1 hc with rfl | hc
    · exact ⟨n, hd⟩
    · exact ih hrest hc

/-- A pointer leads to the null pointer in one way only. -/
theorem Chain.unique (h₁ : Chain heap p l₁ none) (h₂ : Chain heap p l₂ none) : l₁ = l₂ := by
  induction l₁ generalizing p l₂ with
  | nil =>
    obtain rfl : p = none := h₁
    cases l₂ with
    | nil => rfl
    | cons d l₂ => cases h₂.1
  | cons c l₁ ih =>
    obtain ⟨rfl, n, hc, hrest₁⟩ := h₁
    cases l₂ with
    | nil => cases (h₂ : some c.1 = none)
    | cons d l₂ =>
      obtain ⟨hd, m, hm, hrest₂⟩ := h₂
      have hcd : c.1 = d.1 := Option.some.inj hd
      rw [hcd] at hc
      obtain ⟨rfl, hx⟩ := Cell.mk.inj (Option.some.inj (hc.symm.trans hm))
      rw [ih hrest₁ hrest₂, Prod.ext hcd hx]

/-- A chain that ends passes no cell twice. -/
theorem Chain.nodup (h : Chain heap p l none) : (l.map Prod.fst).Nodup := by
  induction l generalizing p with
  | nil => exact List.nodup_nil
  | cons c l ih =>
    have hrest := h.2.choose_spec.2
    refine List.nodup_cons.2 ⟨fun hmem => ?_, ih hrest⟩
    -- the chain from the second occurrence would be as long as the chain from the first
    obtain ⟨d, hd, hcd⟩ := List.mem_map.1 hmem
    obtain ⟨l₁, l₂, rfl⟩ := List.append_of_mem hd
    obtain ⟨r, -, hagain⟩ := chain_append.1 hrest
    have hsame : Chain heap p (d :: l₂) none := ⟨h.1.trans (congrArg some hcd.symm), hagain.2⟩
    have hlength := congrArg List.length (h.unique hsame)
    simp only [List.length_cons, List.length_append] at hlength
    omega

/-- The cell at a place of a chain, with the chain before it and the chain after it. -/
theorem Chain.split (h : Chain heap p (l₁ ++ (a, x) :: l₂) q) :
    ∃ n, heap a = some ⟨n, x⟩ ∧ Chain heap p l₁ (some a) ∧ Chain heap n l₂ q := by
  obtain ⟨r, h₁, rfl, n, ha, h₂⟩ := chain_append.1 h
  exact ⟨n, ha, h₁, h₂⟩

/-- The address of a place of a chain is none of the others. -/
theorem Chain.ne_of_split (h : Chain heap p (l₁ ++ (a, x) :: l₂) none) {c : κ × α}
    (hc : c ∈ l₁ ∨ c ∈ l₂) : c.1 ≠ a := by
  have hnodup := h.nodup
  rw [List.map_append, List.map_cons, List.nodup_middle, List.nodup_cons] at hnodup
  intro heq
  refine hnodup.1 (List.mem_append.2 ?_)
  rcases hc with hc | hc
  · exact .inl (List.mem_map.2 ⟨c, hc, heq⟩)
  · exact .inr (List.mem_map.2 ⟨c, hc, heq⟩)

/-- The address of the first cell of a chain is none of the others. -/
theorem Chain.ne_head (h : Chain heap p ((a, x) :: l) none) : ∀ c ∈ l, c.1 ≠ a := by
  intro c hc
  have hsplit : Chain heap p ([] ++ (a, x) :: l) none := h
  exact hsplit.ne_of_split (.inr hc)

/-- A new cell is linked in behind a cell of the chain. -/
theorem Chain.insert {n : Option κ} (h : Chain heap p (l₁ ++ (a, x) :: l₂) none)
    (ha : heap a = some ⟨n, x⟩) (hb : heap b = none) (ha' : heap' a = some ⟨some b, x⟩)
    (hb' : heap' b = some ⟨n, y⟩) (hsame : ∀ c, c ≠ a → c ≠ b → heap' c = heap c) :
    Chain heap' p (l₁ ++ (a, x) :: (b, y) :: l₂) none := by
  have hne : ∀ {c}, c ∈ l₁ ++ (a, x) :: l₂ → c.1 ≠ b := by
    intro c hc heq
    obtain ⟨m, hm⟩ := h.allocated hc
    rw [heq, hb] at hm
    cases hm
  obtain ⟨m, hm, h₁, h₂⟩ := h.split
  obtain rfl : n = m := (Cell.mk.inj (Option.some.inj (ha.symm.trans hm))).1
  refine chain_append.2 ⟨some a, h₁.frame ?_, rfl, some b, ha', rfl, n, hb', h₂.frame ?_⟩
  · intro c hc
    exact hsame c.1 (h.ne_of_split (.inl hc)) (hne (List.mem_append_left _ hc))
  · intro c hc
    exact hsame c.1 (h.ne_of_split (.inr hc))
      (hne (List.mem_append_right _ (List.mem_cons_of_mem _ hc)))

/-- The cell behind a cell of the chain is linked out. -/
theorem Chain.unlink {n : Option κ} (h : Chain heap p (l₁ ++ (a, x) :: (b, y) :: l₂) none)
    (hb : heap b = some ⟨n, y⟩) (ha' : heap' a = some ⟨n, x⟩)
    (hsame : ∀ c, c ≠ a → c ≠ b → heap' c = heap c) :
    Chain heap' p (l₁ ++ (a, x) :: l₂) none := by
  have hbehind : Chain heap p ((l₁ ++ [(a, x)]) ++ (b, y) :: l₂) none := by
    rw [List.append_assoc]
    exact h
  obtain ⟨m, hm, h₁, -, k, hk, h₂⟩ := h.split
  obtain rfl : n = k := (Cell.mk.inj (Option.some.inj (hb.symm.trans hk))).1
  refine chain_append.2 ⟨some a, h₁.frame ?_, rfl, n, ha', h₂.frame ?_⟩
  · intro c hc
    exact hsame c.1 (h.ne_of_split (.inl hc))
      (hbehind.ne_of_split (.inl (List.mem_append_left _ hc)))
  · intro c hc
    exact hsame c.1 (h.ne_of_split (.inr (List.mem_cons_of_mem _ hc)))
      (hbehind.ne_of_split (.inr hc))

end EE516.Foundations
