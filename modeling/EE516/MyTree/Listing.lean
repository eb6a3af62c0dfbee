import EE516.Foundations.Outline

/-!
# The tree that mytree.sh prints

`search` lists a directory and everything below it that `ls` shows, one line for each name, with
bars in front of the name that show how deep it is. The printed text determines the names and what
is below which, and leaves open only whether a name without anything below it is a file or an empty
directory.
-/

set_option autoImplicit false

namespace EE516.MyTree

open Foundations

/-! ## The script -/

/-- A text that the shell passes on as it is: a single word and no pattern. -/
@[ext]
structure Word where
  text : List Char
  nonempty : text ≠ []
  plain : ∀ c ∈ text, c ∉ [' ', '\t', '\n', '*', '?', '[', '\\']

/-- A name that `ls` shows, so that it begins with no dot, and that `echo` does not take for an
option. -/
@[ext]
structure Name extends Word where
  noOption : text.head? ≠ some '-'
  shown : text.head? ≠ some '.'

/-- What `ls` prints for a path, and whether `[ -d path ]` holds. -/
structure FileSystem where
  ls : List Char → List Name
  isDirectory : List Char → Bool

/-- The bars in front of a name. -/
def drawline : Nat → List Char
  | 0 => []
  | c + 1 => (if c + 1 = 1 then ['|', '_', '_', '_'] else ['|', ' ', ' ', ' ']) ++ drawline c

/-- The path of a name in the directory `current`. -/
def pathOf (current : List Char) (file : Name) : List Char :=
  if current = ['/'] then current ++ file.text else current ++ '/' :: file.text

/-- What `echo` prints for a name, behind its bars. -/
def printed (tabcounter : Nat) (file : Name) : List Char :=
  drawline tabcounter ++ file.text ++ ['\n']

/-- The loop of `search` over the names that are left, where `below` is what `search` does one level
deeper. -/
def searchLoop (fs : FileSystem) (below : List Char → Option (List Char)) (current : List Char)
    (tabcounter : Nat) : List Name → Option (List Char)
  | [] => some []
  | file :: files => do
    let path := pathOf current file
    let deeper ← if fs.isDirectory path then below path else some []
    let rest ← searchLoop fs below current tabcounter files
    return printed tabcounter file ++ deeper ++ rest

/-- The fuel bounds how deep the directories are nested. -/
def search (fs : FileSystem) : Nat → List Char → Nat → Option (List Char)
  | 0, _, _ => none
  | fuel + 1, current, tabcounter =>
    searchLoop fs (fun path => search fs fuel path (tabcounter + 1)) current tabcounter
      (fs.ls current)

/-- The whole script: `search $g_target 1`. -/
def mytree (fs : FileSystem) (fuel : Nat) (g_target : Word) : Option (List Char) :=
  search fs fuel g_target.text 1

example : drawline 3 = ['|', ' ', ' ', ' ', '|', ' ', ' ', ' ', '|', '_', '_', '_'] := rfl

/-! ## Directory trees -/

/-- What `ls` shows of a directory, in its order. -/
inductive Entries where
  | nil
  | file (name : Name) (rest : Entries)
  | directory (name : Name) (content rest : Entries)

namespace Entries

/-- The names that `ls` prints. -/
def names : Entries → List Name
  | nil => []
  | file name rest => name :: rest.names
  | directory name _ rest => name :: rest.names

/-- How deep the directories are nested. -/
def depth : Entries → Nat
  | nil => 0
  | file _ rest => rest.depth
  | directory _ content rest => max (content.depth + 1) rest.depth

/-- The names alone, each with what is below it. -/
def shape : Entries → Forest Name
  | nil => .nil
  | file name rest => .cons name .nil rest.shape
  | directory name content rest => .cons name content.shape rest.shape

end Entries

/-- Each entry of the directory is found under its path, with all that is below it. -/
def FileSystem.Stores (fs : FileSystem) (current : List Char) : Entries → Prop
  | .nil => True
  | .file name rest => fs.isDirectory (pathOf current name) = false ∧ fs.Stores current rest
  | .directory name content rest =>
    fs.isDirectory (pathOf current name) = true ∧
      fs.ls (pathOf current name) = content.names ∧
      fs.Stores (pathOf current name) content ∧ fs.Stores current rest

/-- The directory of this path has just these entries. -/
structure FileSystem.Holds (fs : FileSystem) (path : List Char) (t : Entries) : Prop where
  ls : fs.ls path = t.names
  stores : fs.Stores path t

/-! ## The printed text -/

variable {fs fs' : FileSystem} {current : List Char} {g_target g_target' : Word}
variable {t t' : Entries} {fuel fuel' tabcounter : Nat}

/-- The text of an outline. -/
def linesOf (l : List (Nat × Name)) : List Char :=
  l.flatMap fun p => printed p.1 p.2

@[simp]
theorem linesOf_nil : linesOf [] = [] :=
  rfl

@[simp]
theorem linesOf_cons (p : Nat × Name) (l : List (Nat × Name)) :
    linesOf (p :: l) = printed p.1 p.2 ++ linesOf l :=
  List.flatMap_cons

@[simp]
theorem linesOf_append (l l' : List (Nat × Name)) :
    linesOf (l ++ l') = linesOf l ++ linesOf l' :=
  List.flatMap_append

/-- The loop over the names of a tree prints its outline. -/
theorem searchLoop_eq (h : fs.Stores current t) (hfuel : t.depth ≤ fuel) :
    searchLoop fs (fun path => search fs fuel path (tabcounter + 1)) current tabcounter t.names =
      some (linesOf (t.shape.outline tabcounter)) := by
  induction t generalizing current fuel tabcounter with
  | nil => rfl
  | file name rest ih =>
    obtain ⟨hfile, hrest⟩ := h
    rw [Entries.names, searchLoop, ih hrest hfuel]
    simp [hfile, Entries.shape]
  | directory name content rest ihc ihr =>
    obtain ⟨hdir, hls, hcontent, hrest⟩ := h
    obtain ⟨hc, hr⟩ := Nat.max_le.1 hfuel
    obtain ⟨n, rfl⟩ := Nat.exists_eq_succ_of_ne_zero (Nat.ne_of_gt (Nat.zero_lt_of_lt hc))
    have hdeeper : search fs (n + 1) (pathOf current name) (tabcounter + 1) =
        some (linesOf (content.shape.outline (tabcounter + 1))) := by
      rw [search, hls]
      exact ihc hcontent (Nat.le_of_succ_le_succ hc)
    rw [Entries.names, searchLoop, ihr hrest hr]
    simp [hdir, hdeeper, Entries.shape]

/-- The script prints the outline of the directory, however deep it is nested. -/
theorem mytree_eq (h : fs.Holds g_target.text t) (hfuel : t.depth < fuel) :
    mytree fs fuel g_target = some (linesOf (t.shape.outline 1)) := by
  obtain ⟨n, rfl⟩ := Nat.exists_eq_succ_of_ne_zero (Nat.ne_of_gt (Nat.zero_lt_of_lt hfuel))
  rw [mytree, search, h.ls]
  exact searchLoop_eq h.stores (Nat.le_of_lt_succ hfuel)

/-! ## Reading the text back -/

/-- No name has a line break. -/
theorem Name.newline_notMem (n : Name) : '\n' ∉ n.text := by
  intro hn
  exact n.plain _ hn (by decide)

theorem drawline_add_two (c : Nat) : drawline (c + 2) = ['|', ' ', ' ', ' '] ++ drawline (c + 1) :=
  rfl

/-- The bars have no line break. -/
theorem newline_notMem_drawline (c : Nat) : '\n' ∉ drawline c := by
  induction c with
  | zero => exact List.not_mem_nil
  | succ c ih =>
    rw [drawline, List.mem_append, not_or]
    refine ⟨?_, ih⟩
    split <;> decide

/-- A text is cut at its first line end in one way. -/
theorem append_newline_inj {a b x y : List Char} (ha : '\n' ∉ a) (hb : '\n' ∉ b)
    (h : a ++ '\n' :: x = b ++ '\n' :: y) : a = b ∧ x = y := by
  induction a generalizing b with
  | nil =>
    cases b with
    | nil => exact ⟨rfl, (List.cons.inj h).2⟩
    | cons c b => exact absurd ((List.cons.inj h).1 ▸ List.mem_cons_self) hb
  | cons c a ih =>
    cases b with
    | nil => exact absurd ((List.cons.inj h).1 ▸ List.mem_cons_self) ha
    | cons d b =>
      obtain ⟨rfl, htail⟩ := List.cons.inj h
      obtain ⟨rfl, rfl⟩ := ih (fun hm => ha (List.mem_cons_of_mem c hm))
        (fun hm => hb (List.mem_cons_of_mem c hm)) htail
      exact ⟨rfl, rfl⟩

/-- The bars end with the only piece that is not blank, so that they say how deep the name is even
if the name itself begins with bars. -/
theorem drawline_append_inj {c d : Nat} {a b : List Char}
    (h : drawline (c + 1) ++ a = drawline (d + 1) ++ b) : c = d ∧ a = b := by
  induction c generalizing d with
  | zero =>
    cases d with
    | zero => exact ⟨rfl, List.append_cancel_left h⟩
    | succ d => simp [drawline] at h
  | succ c ih =>
    cases d with
    | zero => simp [drawline] at h
    | succ d =>
      rw [drawline_add_two, drawline_add_two, List.append_assoc, List.append_assoc] at h
      obtain ⟨rfl, rfl⟩ := ih (List.append_cancel_left h)
      exact ⟨rfl, rfl⟩

/-- Lines with at least one bar can be read back. -/
theorem linesOf_inj {l l' : List (Nat × Name)} (hl : ∀ p ∈ l, 1 ≤ p.1) (hl' : ∀ p ∈ l', 1 ≤ p.1)
    (h : linesOf l = linesOf l') : l = l' := by
  induction l generalizing l' with
  | nil =>
    cases l' with
    | nil => rfl
    | cons p l' => simp [printed] at h
  | cons p l ih =>
    cases l' with
    | nil => simp [printed] at h
    | cons p' l' =>
      obtain ⟨c, n⟩ := p
      obtain ⟨d, n'⟩ := p'
      have hc := hl _ List.mem_cons_self
      have hd := hl' _ List.mem_cons_self
      have hcut : (drawline c ++ n.text) ++ '\n' :: linesOf l =
          (drawline d ++ n'.text) ++ '\n' :: linesOf l' := by
        simpa [printed] using h
      have hline : ∀ (k : Nat) (m : Name), '\n' ∉ drawline k ++ m.text := by
        intro k m hm
        exact (List.mem_append.1 hm).elim (newline_notMem_drawline k) m.newline_notMem
      obtain ⟨hfirst, hrest⟩ := append_newline_inj (hline c n) (hline d n') hcut
      obtain ⟨i, rfl⟩ := Nat.exists_eq_succ_of_ne_zero (Nat.ne_of_gt hc)
      obtain ⟨j, rfl⟩ := Nat.exists_eq_succ_of_ne_zero (Nat.ne_of_gt hd)
      obtain ⟨rfl, htext⟩ := drawline_append_inj hfirst
      obtain rfl := Name.ext htext
      rw [ih (fun p hp => hl p (List.mem_cons_of_mem _ hp))
        (fun p hp => hl' p (List.mem_cons_of_mem _ hp)) hrest]

/-- Two directories are printed alike exactly if they have the same names with the same names below
them, in the same order. -/
theorem printed_alike_iff (h : fs.Holds g_target.text t) (h' : fs'.Holds g_target'.text t')
    (hfuel : t.depth < fuel) (hfuel' : t'.depth < fuel') :
    ∃ out out', mytree fs fuel g_target = some out ∧ mytree fs' fuel' g_target' = some out' ∧
      (out = out' ↔ t.shape = t'.shape) := by
  refine ⟨_, _, mytree_eq h hfuel, mytree_eq h' hfuel', ?_, ?_⟩
  · intro heq
    apply Forest.outline_injective
    apply linesOf_inj _ _ heq
    · exact fun p hp => Forest.le_of_mem_outline hp
    · exact fun p hp => Forest.le_of_mem_outline hp
  · intro heq
    rw [heq]

/-- A directory with a file, and one with a directory of the same name that is empty. -/
theorem printed_alike_file_or_empty : ∃ (fs fs' : FileSystem) (home : Word) (b : Name),
    fs.Holds home.text (.file b .nil) ∧ fs'.Holds home.text (.directory b .nil .nil) ∧
      ∃ out, mytree fs 1 home = some out ∧ mytree fs' 2 home = some out := by
  let home : Word := ⟨['/'], by simp, by simp⟩
  let b : Name := ⟨⟨['b'], by simp, by simp⟩, by simp, by simp⟩
  let ls : List Char → List Name := fun path => if path = ['/'] then [b] else []
  have h : FileSystem.Holds ⟨ls, fun _ => false⟩ home.text (.file b .nil) :=
    ⟨rfl, rfl, trivial⟩
  have h' : FileSystem.Holds ⟨ls, fun _ => true⟩ home.text (.directory b .nil .nil) :=
    ⟨rfl, rfl, rfl, trivial, trivial⟩
  obtain ⟨out, out', hout, hout', hiff⟩ := printed_alike_iff h h' (Nat.lt_succ_self 0)
    (Nat.lt_succ_self 1)
  obtain rfl : out = out' := hiff.2 rfl
  exact ⟨_, _, home, b, h, h', out, hout, hout'⟩

end EE516.MyTree
