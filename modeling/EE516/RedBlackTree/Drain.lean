import EE516.RedBlackTree.Deletion
import EE516.RedBlackTree.InsertionRuns

/-!
# The main loop

A round of the second loop of `main` prints the smallest entry of the tree at `root` and takes the
tree to `deleteMin` (`drainRound_run`). As long as `root` names the topmost node the loop prints
the entries in order (`drain_run`), and so does `main` on an input whose rounds do not rotate at the
node that `root` names and whose first value is not the smallest (`main_prints_ascending`).
-/

set_option autoImplicit false

namespace EE516.RedBlackTree

open EE516.Foundations.ColorTree
open EE516.Foundations.ColorTree.Tree (mk)

variable {loose : Addr → Prop}

/-! ## One round -/

theorem addr_plug_mem {ρ : RbPath} (hρ : ρ ≠ []) (u : RbTree) : addr (plug ρ u) ∈ pathAddrs ρ := by
  induction ρ generalizing u with
  | nil => exact absurd rfl hρ
  | cons f σ ih =>
    cases σ with
    | nil => simp [pathAddrs, Frame.fill]
    | cons g σ =>
      have h := ih (by simp) (f.fill u)
      rw [plug_cons, pathAddrs]
      exact List.mem_cons_of_mem _ (List.mem_append_right _ h)

/-- The root of memory after the smallest entry, at the frame `f` below `ρ`, is gone. -/
def rootAfter (f : Frame Entry Addr) (ρ : RbPath) (root : Ptr) : Ptr :=
  if ρ.isEmpty then
    if f.sib.isLeaf then NULL else some (addr f.sib)
  else root

/-- `deleteNode` of the smallest entry computes `deleteMin`. -/
theorem deleteNode_run {s : Memory} {t : RbTree} {fuel : Nat} {f : Frame Entry Addr} {ρ : RbPath}
    (hr : Represents loose s t) (hroot : s.root = some (addr t)) (hf : minPath t = f :: ρ)
    (hnear : Near t) (hfuel : ρ.length < fuel) :
    ∃ s', deleteNode fuel (some f.x.addr) s = .ok ((), s') ∧
      Represents loose s' (deleteMin Entry.addr t) ∧ s'.root = rootAfter f ρ s.root ∧
      s'.brk = s.brk := by
  obtain ⟨c₁, a, hleaf⟩ := minLeaf_isLeaf t
  have hplug := plug_minPath t
  rw [hf, hleaf] at hplug
  obtain ⟨p, n, hπ, -⟩ := hnear
  rw [hf] at hπ
  have hside : f.side = .left := side_of_mem_minPath (hf ▸ List.mem_cons_self)
  obtain ⟨sd, c, x, sib⟩ := f
  obtain rfl : sd = .left := hside
  have hr : Represents loose s (plug ρ (mk .left c (.leaf c₁ a) x sib)) := by
    rw [← hplug] at hr
    exact hr
  simp only [deleteMin, hf, rootAfter]
  cases hsib : sib.isLeaf with
  | false =>
    obtain ⟨s', hrun, hr', hroot', hbrk'⟩ := deleteNode_inner_run hfuel hr hπ hsib
    exact ⟨s', hrun, hr', hroot', hbrk'⟩
  | true =>
    cases sib with
    | node d l y r => cases hsib
    | leaf d b =>
      obtain ⟨s', hrun, hr', hroot', hbrk'⟩ := deleteNode_leaf_run fuel hr
      refine ⟨s', hrun, hr', ?_, hbrk'⟩
      rw [hroot', hroot, ← hplug]
      -- `root` is the deleted node only if no node is above it
      cases ρ with
      | nil => simp [Frame.fill]
      | cons g σ =>
        have hnd := hr.nodup_plug
        have hmem := addr_plug_mem (List.cons_ne_nil g σ) (mk .left c (.leaf c₁ a) x (.leaf d b))
        have hne : addr (plug (⟨.left, c, x, .leaf d b⟩ :: g :: σ) (.leaf c₁ a)) ≠ x.addr := by
          intro e
          rw [List.nodup_append] at hnd
          exact hnd.2.2 _ hmem x.addr (by simp) e
        rw [if_neg (by simpa using hne)]
        rfl

/-- One round of the loop prints and removes the smallest entry. -/
theorem drainRound_run {s : Memory} {t : RbTree} {fuel : Nat} {f : Frame Entry Addr} {ρ : RbPath}
    (hr : Represents loose s t) (hroot : s.root = some (addr t)) (hf : minPath t = f :: ρ)
    (hnear : Near t) (hleaf : ¬ loose (addr (minLeaf t))) (hfuel : t.toList.length < fuel) :
    ∃ s', drainRound fuel s = .ok ((f.x.pid, f.x.value), s') ∧
      Represents loose s' (deleteMin Entry.addr t) ∧ s'.root = rootAfter f ρ s.root ∧
      s'.brk = s.brk := by
  have hplug := plug_minPath t
  rw [hf] at hplug
  have hlen : ρ.length < fuel := by
    have h := length_le_length_plug (f :: ρ) (minLeaf t)
    rw [hplug, List.length_cons] at h
    omega
  obtain ⟨s', hrun, hrest⟩ := deleteNode_run hr hroot hf hnear hlen
  have hleft := leftmostNode_run hr (lt_of_le_of_lt (Tree.height_le_length t) hfuel) hf hleaf
  have hrf : Represents loose s (plug (f :: ρ) (minLeaf t)) := by rwa [hplug]
  have hx := hrf.heap_frame
  refine ⟨s', ?_, hrest⟩
  simp [drainRound, run_bind, run_map, hroot, hleft, load, hx, hrun]

/-! ## Runs -/

/-- The first rounds of the second loop of `main`. -/
def drainRounds (fuel : Nat) : Nat → Exec Unit
  | 0 => return
  | k + 1 => do
    let _ ← drainRound fuel
    drainRounds fuel k

/-- Deleting the smallest entry of the tree at `root` rotates at the node that `root` names. -/
def DeleteRotatesRoot (s : Memory) : Prop :=
  ∃ t, Reps (fun _ => True) s.heap NULL t ∧ s.root = some (addr t) ∧ DeleteMinRotatesTop t

/-- A check of memory that excludes `DeleteRotatesRoot`. -/
def keepsRootOnDelete (depth : Nat) (s : Memory) : Bool :=
  match s.root.bind (readTree s.heap depth) with
  | some t => !decide (DeleteMinRotatesTop t)
  | none => s.root.isNone

/-- What the test has found not to rotate does not. -/
theorem not_deleteRotatesRoot {depth : Nat} {s : Memory} (h : keepsRootOnDelete depth s = true) :
    ¬ DeleteRotatesRoot s := by
  rintro ⟨t, ht, hroot, hrot⟩
  simp only [keepsRootOnDelete, hroot, Option.bind_some] at h
  split at h
  · rename_i u hu
    rw [← eq_of_readTree depth ht hu] at h
    simp [hrot] at h
  · simp at h

/-- The pairs `(pid, value)` in the order of the tree, as `main` prints them. -/
def printed (t : RbTree) : List (Int × Int) :=
  t.toList.map fun x => (x.pid, x.value)

/-- `root` names the topmost node of the tree that is left, or is `NULL` when none is left. -/
structure Draining (s : Memory) (t : RbTree) : Prop where
  rep : Represents (fun _ => False) s t
  root : s.root = if t.isLeaf then NULL else some (addr t)
  near : Near t

/-- A round of the drain takes out the least value. -/
theorem Draining.round {s : Memory} {t : RbTree} {fuel : Nat} (hd : Draining s t)
    (ht : t.isLeaf = false) (hrot : ¬ DeleteRotatesRoot s) (hfuel : t.toList.length < fuel) :
    ∃ x t' s', drainRound fuel s = .ok ((x.pid, x.value), s') ∧ t.toList = x :: t'.toList ∧
      Draining s' t' := by
  obtain ⟨f, ρ, hf, hlist⟩ := toList_deleteMin Entry.addr ht
  have hroot := hd.root
  rw [ht, if_neg (by simp)] at hroot
  obtain ⟨s', hrun, hr, hroot', -⟩ := drainRound_run hd.rep hroot hf hd.near (fun h => h) hfuel
  refine ⟨f.x, _, s', hrun, hlist, hr, ?_, near_deleteMin _ hd.near⟩
  rw [hroot', rootAfter, hroot]
  -- `root` follows the topmost node, or the tree had one node on its leftmost path
  cases hρ : ρ with
  | nil =>
    subst hρ
    simp only [List.isEmpty_nil, if_true, deleteMin, hf, spliceFix, fixDelete, plug_nil]
    cases f.sib with
    | leaf c a => simp
    | node c l x r => cases f.c <;> cases c <;> simp
  | cons g σ =>
    have hρ' : ρ ≠ [] := by simp [hρ]
    have hrot' : ¬ DeleteMinRotatesTop t := fun h =>
      hrot ⟨t, reps_exempt (fun _ _ h => h.elim) hd.rep.cells, hroot, h⟩
    have h := root_deleteMin Entry.addr hf hρ' hrot'
    cases t with
    | leaf c a => cases ht
    | node c l x r =>
      simp only [Tree.root_node] at h
      cases hdel : deleteMin Entry.addr (.node c l x r) with
      | leaf d b =>
        rw [hdel] at h
        cases h
      | node d l' y r' =>
        rw [hdel] at h
        obtain rfl := Option.some.inj h
        simp

/-- While `root` stays on top, the loop prints all entries in order. -/
theorem drain_run (fuel : Nat) : ∀ (rounds : Nat) {s : Memory} {t : RbTree}, Draining s t →
    t.toList.length < rounds → t.toList.length < fuel →
    (∀ k < t.toList.length, ∀ s', drainRounds fuel k s = .ok ((), s') → ¬ DeleteRotatesRoot s') →
    ∃ s', drain fuel rounds s = .ok (printed t, s')
  | rounds + 1, s, t, hd, hrounds, hfuel, hrot => by
    -- induction on the rounds; each round takes the first entry off the list
    cases ht : t.isLeaf with
    | true =>
      have hroot := hd.root
      rw [ht, if_pos rfl] at hroot
      refine ⟨s, ?_⟩
      cases t with
      | node c l x r => cases ht
      | leaf c a => simp [drain, isEmpty, run_bind, run_map, hroot, printed]
    | false =>
      have hroot := hd.root
      rw [ht, if_neg (by simp)] at hroot
      obtain ⟨x, t', s', hrun, hlist, hd'⟩ := hd.round ht (hrot 0 (by
        cases t with
        | leaf c a => cases ht
        | node c l x r =>
          rw [Tree.toList_node, List.length_append, List.length_cons]
          omega) s rfl) hfuel
      rw [hlist, List.length_cons] at hrounds hfuel hrot
      obtain ⟨s'', hrun'⟩ := drain_run fuel rounds hd' (by omega) (by omega)
        fun k hk s'' hs =>
        hrot (k + 1) (by omega) s'' (by simp [drainRounds, run_bind, hrun, hs])
      refine ⟨s'', ?_⟩
      simp [drain, isEmpty, run_bind, run_map, hroot, hrun, hrun', printed, hlist]

/-- The loop on a tree of two nodes, where the right nil node may have any parent pointer. -/
theorem drain_two_run {s : Memory} {c d c₁ c₂ e : Color} {a₁ a₂ b : Addr} {x y : Entry}
    {fuel rounds : Nat} (hfuel : 2 < fuel) (hrounds : 2 < rounds)
    (hr : Represents (fun a => a = b) s
      (.node c (.node d (.leaf c₁ a₁) y (.leaf c₂ a₂)) x (.leaf e b)))
    (hroot : s.root = some x.addr)
    (hnear : Near (.node c (.node d (.leaf c₁ a₁) y (.leaf c₂ a₂)) x (.leaf e b) : RbTree)) :
    ∃ s', drain fuel rounds s = .ok ([(y.pid, y.value), (x.pid, x.value)], s') := by
  obtain ⟨rounds, rfl⟩ : ∃ k, rounds = k + 3 := ⟨rounds - 3, by omega⟩
  have hnd := hr.nodup
  simp only [addrs_node, addrs_leaf, List.nodup_cons, List.nodup_append, List.mem_append,
    List.mem_cons] at hnd
  have ha : a₁ ≠ b := by grind
  have hy : y.addr ≠ b := by grind
  obtain ⟨s₁, hrun₁, hr₁, hroot₁, -⟩ := drainRound_run hr hroot rfl hnear ha hfuel
  have hroot₁ : s₁.root = some x.addr := hroot₁.trans hroot
  have hr₁ : Represents (fun a => a = b) s₁ (.node c (.leaf d y.addr) x (.leaf e b)) := hr₁
  have hnear₁ : Near (.node c (.leaf d y.addr) x (.leaf e b) : RbTree) :=
    near_deleteMin Entry.addr hnear
  obtain ⟨s₂, hrun₂, hr₂, hroot₂, -⟩ := drainRound_run hr₁ hroot₁ rfl hnear₁ hy
    (Nat.lt_of_succ_lt hfuel)
  have hroot₂ : s₂.root = NULL := hroot₂
  refine ⟨s₂, ?_⟩
  simp [drain, isEmpty, run_bind, run_map, hroot, hrun₁, hroot₁, hrun₂, hroot₂]

/-! ## The main program -/

/-- After the insertions the loop prints all entries in order if `root` stays on top and the first
value is not the smallest. -/
theorem Inserted.drain_run {s : Memory} {p : Int × Int} {l : List (Int × Int)} {fuel : Nat}
    (hins : Inserted s (p :: l)) (hfuel : (p :: l).length < fuel) (hmin : ∃ q ∈ l, q.1 < p.1)
    (hrot : ∀ k < (p :: l).length, ∀ s', drainRounds fuel k s = .ok ((), s') →
      ¬ DeleteRotatesRoot s') :
    ∃ t s', drain fuel fuel s = .ok (printed t, s') ∧ Ordered Entry.value t ∧
      (pairs t).Perm (p :: l) := by
  obtain ⟨-, t, hb, hperm, c, u, x, v, rfl, hx, hu, hv⟩ := hins
  obtain ⟨n, hbal⟩ := hb.bal
  have hlen : (.node c u x v : RbTree).toList.length = (p :: l).length := by
    simpa [pairs] using hperm.length_eq
  -- some value is smaller than the first one, so the left child is an inner node
  have huinner : u.isLeaf = false := by
    obtain ⟨q, hq, hlt⟩ := hmin
    cases u with
    | node d l' y r' => rfl
    | leaf d a =>
      have hq := hperm.mem_iff.2 (List.mem_cons_of_mem p hq)
      have hord := hb.ordered
      simp only [Ordered, pairs, Tree.toList_node, Tree.toList_leaf, List.nil_append,
        List.pairwise_cons, List.map_cons, List.mem_cons, List.mem_map] at hq hord
      rcases hq with rfl | ⟨z, hz, rfl⟩
      · exact absurd (hx ▸ hlt) (lt_irrefl _)
      · exact absurd (hord.1 z hz) (not_lt_of_gt (hx ▸ hlt))
  have hunils := hu.resolve_left (by simp [huinner])
  refine ⟨.node c u x v, ?_⟩
  rcases hv with hv | hv
  · -- The right nil node of the first insertion is still there, so the tree has two nodes.
    cases v with
    | node d l' y r' => cases hv
    | leaf e b =>
      obtain ⟨d, a₁, y, a₂, rfl⟩ : ∃ d a₁ y a₂,
          u = .node d (.leaf BLACK a₁) y (.leaf BLACK a₂) := by
        cases hbal with
        | black _ hub hvb =>
          cases hvb
          cases hub with
          | leaf m => cases huinner
          | red y hl hr =>
            cases hl
            cases hr
            exact ⟨_, _, y, _, rfl⟩
      have hr : Represents (fun a => a = b) s
          (.node c (.node d (.leaf BLACK a₁) y (.leaf BLACK a₂)) x (.leaf e b)) := by
        refine ⟨reps_exempt (fun a ha h => ?_) hb.rep.cells, hb.rep.nodup, hb.rep.lt_brk⟩
        rcases List.mem_append.1 ha with ha | ha
        · exact absurd h (hunils a ha)
        · simpa using ha
      have hfuel : 2 < fuel := lt_of_eq_of_lt hlen hfuel
      obtain ⟨s', hrun⟩ := drain_two_run hfuel hfuel hr hb.root (near_of_bal hbal)
      exact ⟨s', hrun, hb.ordered, hperm⟩
  · have hr : Represents (fun _ => False) s (.node c u x v) := by
      refine ⟨reps_exempt (fun a ha h => ?_) hb.rep.cells, hb.rep.nodup, hb.rep.lt_brk⟩
      rcases List.mem_append.1 ha with ha | ha
      · exact hunils a ha h
      · exact hv a ha h
    obtain ⟨s', hrun⟩ := EE516.RedBlackTree.drain_run fuel fuel
      ⟨hr, hb.root, near_of_bal hbal⟩ (by omega) (by omega) (by rwa [hlen])
    exact ⟨s', hrun, hb.ordered, hperm⟩

/-- `main` prints each inserted pair once and in ascending order of the values, with as many rounds
as there are pairs, when no round of insertion or deletion rotates at the node that `root` names
and some value is smaller than the first one. -/
theorem main_prints_ascending {p : Int × Int} {l : List (Int × Int)} {fuel : Nat}
    (hd : ((p :: l).map Prod.fst).Nodup) (hfuel : (p :: l).length < fuel)
    (hmin : ∃ q ∈ l, q.1 < p.1)
    (hinsert : ∀ k (hk : k < (p :: l).length) s,
      insertAll fuel ((p :: l).take k) Memory.init = .ok ((), s) → ¬ RotatesRoot s (p :: l)[k].1)
    (hdelete : ∀ k < (p :: l).length, ∀ s s', insertAll fuel (p :: l) Memory.init = .ok ((), s) →
      drainRounds fuel k s = .ok ((), s') → ¬ DeleteRotatesRoot s') :
    ∃ out s', main fuel (p :: l) Memory.init = .ok (out, s') ∧
      out.Pairwise (fun a b => a.2 < b.2) ∧ out.Perm ((p :: l).map Prod.swap) := by
  obtain ⟨s, hrun, hins⟩ := inserted_of_keepsRoot hd hfuel (p :: l).length (Nat.le_refl _)
    fun k _ hk => hinsert k hk
  rw [List.take_length] at hrun hins
  obtain ⟨t, s', hrun', hord, hperm⟩ := hins.drain_run hfuel hmin fun k hk s' =>
    hdelete k hk s s' hrun
  refine ⟨printed t, s', by simp [main, run_bind, hrun, hrun'], ?_, ?_⟩
  · exact List.pairwise_map.2 hord
  · have h := hperm.map Prod.swap
    rwa [pairs, List.map_map] at h

/-- A check on the memory that a run ends in. -/
def holdsAfter {γ : Type} (m : Exec γ) (check : Memory → Bool) : Bool :=
  match m Memory.init with
  | .ok (_, s) => check s
  | .error _ => true

theorem holdsAfter_run {γ : Type} {m : Exec γ} {check : Memory → Bool}
    (h : holdsAfter m check = true) {r : γ} {s : Memory} (hs : m Memory.init = .ok (r, s)) :
    check s = true := by
  rwa [holdsAfter, hs] at h

theorem main_prints_ascending_three :
    ∃ out s', main 4 [(2, 0), (1, 1), (3, 2)] Memory.init = .ok (out, s') ∧
      out.Pairwise (fun a b => a.2 < b.2) ∧
      out.Perm ([(2, 0), (1, 1), (3, 2)].map Prod.swap) := by
  refine main_prints_ascending (by decide) (by decide) ⟨(1, 1), by decide, by decide⟩ ?_ ?_
  · intro k hk s hs
    have hk : k < 3 := hk
    have h : ∀ j : Fin 3, holdsAfter (insertAll 4 ([(2, 0), (1, 1), (3, 2)].take j))
        (fun s => keepsRoot 5 s ([(2, 0), (1, 1), (3, 2)] : List (Int × Int))[(j : Nat)].1) =
          true := by
      decide +kernel
    exact not_rotatesRoot (holdsAfter_run (h ⟨k, hk⟩) hs)
  · intro k hk s s' hs hs'
    have h : ∀ j : Fin 3, holdsAfter (do insertAll 4 [(2, 0), (1, 1), (3, 2)]; drainRounds 4 j)
        (keepsRootOnDelete 5) = true := by
      decide +kernel
    refine not_deleteRotatesRoot (holdsAfter_run (r := ()) (h ⟨k, hk⟩) ?_)
    rw [run_bind, hs]
    exact hs'

/-- With a single value the loop dereferences `NULL`: the nil nodes of the first node have no
parent. -/
theorem main_single_value_faults :
    ¬ ∃ out s', main 4 [(5, 0)] Memory.init = .ok (out, s') ∧
      out.Pairwise (fun a b => a.2 < b.2) ∧ out.Perm ([(5, 0)].map Prod.swap) := by
  rintro ⟨out, s', hrun, -⟩
  have h : (main 4 [(5, 0)] Memory.init).toOption.isNone = true := by decide +kernel
  rw [hrun] at h
  cases h

end EE516.RedBlackTree
