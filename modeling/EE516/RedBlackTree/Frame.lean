import EE516.RedBlackTree.Represents

/-!
# The frame rule

The repair of a deletion runs on the tree that remains, while the deleted node is still allocated
beside it. `Framed` says that such a node does not matter to a program and keeps its contents; the
instances follow the structure of the program up to `delete_case1`.
-/

set_option autoImplicit false

namespace EE516.RedBlackTree

open EE516.Foundations.ColorTree (Color)

/-- A run of the program neither reads nor changes a node that is not there: with one more node
allocated it does the same and leaves that node alone. -/
class Framed {γ : Type} (m : Exec γ) : Prop where
  frame : ∀ {s s' : Memory} {r : γ} {a : Addr} (n : Rbtnode), m s = .ok (r, s') →
    s.heap a = none → m (s.set a n) = .ok (r, s'.set a n) ∧ s'.heap a = none

section Framed

-- The instances of a function's body are as large as the body.
set_option synthInstance.maxSize 2000

variable {γ δ : Type}

instance framed_pure (r : γ) : Framed (pure r : Exec γ) where
  frame n h ha := by
    cases h
    exact ⟨rfl, ha⟩

instance framed_throw (e : Fault) : Framed (throw e : Exec γ) where
  frame n h ha := by cases h

instance framed_bind {m : Exec γ} {f : γ → Exec δ} [hm : Framed m] [hf : ∀ r, Framed (f r)] :
    Framed (m >>= f) where
  frame {s s' r a} n h ha := by
    rw [run_bind] at h ⊢
    cases hms : m s with
    | error e =>
      rw [hms] at h
      cases h
    | ok q =>
      rw [hms] at h
      obtain ⟨h₁, h₂⟩ := hm.frame n hms ha
      rw [h₁]
      exact (hf q.1).frame n h h₂

theorem set_comm (s : Memory) {a b : Addr} (h : a ≠ b) (m n : Rbtnode) :
    (s.set a m).set b n = (s.set b n).set a m := by
  have hheap : ((s.set a m).set b n).heap = ((s.set b n).set a m).heap := by
    funext c
    simp only [Memory.set_heap]
    split <;> split <;> simp_all
  exact congrArg (fun h => Memory.mk s.root h s.brk) hheap

instance framed_store (p : Ptr) (f : Rbtnode → Rbtnode) : Framed (store p f) where
  frame {s s' r a} n h ha := by
    cases p with
    | none => cases h
    | some b =>
      cases hb : s.heap b with
      | none => simp [store, hb] at h
      | some k =>
        obtain ⟨-, rfl⟩ : () = r ∧ s.set b (f k) = s' := by simpa [store, hb] using h
        have hne : b ≠ a := fun e => by simp [e, ha] at hb
        simp [store, hne, hne.symm, hb, ha, set_comm s hne]

instance framed_load (p : Ptr) : Framed (load p) where
  frame {s s' r a} n h ha := by
    cases p with
    | none => cases h
    | some b =>
      cases hb : s.heap b with
      | none => simp [load, hb] at h
      | some k =>
        obtain ⟨rfl, rfl⟩ : k = r ∧ s = s' := by simpa [load, hb] using h
        have hne : b ≠ a := fun e => by simp [e, ha] at hb
        simp [load, hne, hb, ha]

instance framed_ite {c : Prop} [Decidable c] {m k : Exec γ} [hm : Framed m] [hk : Framed k] :
    Framed (if c then m else k) := by
  split
  · exact hm
  · exact hk

instance framed_both {m k : Exec Bool} [Framed m] [Framed k] : Framed (both m k) := by
  unfold both
  infer_instance

instance framed_setParent (p q : Ptr) : Framed (setParent p q) := framed_store _ _

instance framed_setLeft (p q : Ptr) : Framed (setLeft p q) := framed_store _ _

instance framed_setRight (p q : Ptr) : Framed (setRight p q) := framed_store _ _

instance framed_setColor (p : Ptr) (c : Color) : Framed (setColor p c) := framed_store _ _

instance framed_sibling (n : Ptr) : Framed (sibling n) := by
  unfold sibling
  infer_instance

instance framed_rotateLeft (n : Ptr) : Framed (rotateLeft n) := by
  dsimp only [rotateLeft]
  infer_instance

instance framed_rotateRight (n : Ptr) : Framed (rotateRight n) := by
  dsimp only [rotateRight]
  infer_instance

instance framed_delete_case6 (n : Ptr) : Framed (delete_case6 n) := by
  dsimp only [delete_case6]
  infer_instance

instance framed_delete_case5 (n : Ptr) : Framed (delete_case5 n) := by
  dsimp only [delete_case5]
  infer_instance

instance framed_delete_case4 (n : Ptr) : Framed (delete_case4 n) := by
  dsimp only [delete_case4]
  infer_instance

instance framed_delete_case3 (case1 : Ptr → Exec Unit) [∀ n, Framed (case1 n)] (n : Ptr) :
    Framed (delete_case3 case1 n) := by
  dsimp only [delete_case3]
  infer_instance

instance framed_delete_case2 (case1 : Ptr → Exec Unit) [∀ n, Framed (case1 n)] (n : Ptr) :
    Framed (delete_case2 case1 n) := by
  dsimp only [delete_case2]
  infer_instance

theorem framed_delete_case1 (fuel : Nat) : ∀ n : Ptr, Framed (delete_case1 fuel n) := by
  induction fuel with
  | zero => exact fun n => framed_throw _
  | succ fuel ih =>
    intro n
    unfold delete_case1
    infer_instance

end Framed

end EE516.RedBlackTree
