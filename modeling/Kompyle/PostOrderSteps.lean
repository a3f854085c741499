import Kompyle.PostOrder

namespace Kompyle

namespace PostOrder

def Entry.frames : Entry → Nat
  | .decision _ payload => 2 * payload.length + 1
  | _ => 0

/-- How often the body of the loop runs for an output: the root is popped, and for each decision
node the node itself once more and its primes and subs. -/
def pops (order : List Entry) : Nat := 1 + (order.map Entry.frames).sum

/-- The states of the loop, each with the number of pops before it. -/
inductive Run (G : SddGraph) (root : Nat) : Nat → State → Prop
  | start : Run G root 0 ⟨[], [], [⟨root, false, []⟩]⟩
  | pop {n : Nat} {out : List Entry} {seen : List Nat} {frame : Frame} {stack : List Frame}
      (h : Run G root n ⟨out, seen, frame :: stack⟩) :
      Run G root (n + 1) (step G frame ⟨out, seen, stack⟩)

def halfDone (stack : List Frame) : List Nat :=
  (stack.filter Frame.visited).map Frame.node

def marked (G : SddGraph) (seen : List Nat) : Nat :=
  (seen.map fun id => (entry G id).frames).sum

/-- What the pops so far have been spent on: each node is marked once, what is marked is out or
half done, and each mark has paid for the frames that it pushed. -/
structure Account (G : SddGraph) (root : Nat) (n : Nat) (st : State) : Prop where
  nodup : st.seen.Nodup
  split : (ids st.out ++ halfDone st.stack).Perm st.seen
  paid : n + st.stack.length = 1 + marked G st.seen
  below : ∀ id ∈ st.seen, G.Below id root
  pending : ∀ frame ∈ st.stack, G.Below frame.node root

section

variable {G : SddGraph} {root : Nat}

@[simp] theorem halfDone_children (cs : List Nat) (stack : List Frame) :
    halfDone (childFrames cs ++ stack) = halfDone stack := by
  induction cs with
  | nil => rfl
  | cons c cs ih => exact ih

theorem elements_length (elements : List (Nat × Nat)) :
    (elements.reverse.flatMap fun e => [e.1, e.2]).length = 2 * elements.length := by
  simp [List.length_flatMap, Nat.mul_comm]

theorem Account.start : Account G root 0 ⟨[], [], [⟨root, false, []⟩]⟩ where
  nodup := List.nodup_nil
  split := List.Perm.refl []
  paid := rfl
  below := by simp
  pending := by
    intro frame hf
    rw [List.mem_singleton.mp hf]
    exact .refl

section

variable {n : Nat} {out : List Entry} {seen : List Nat} {frame : Frame} {stack : List Frame}

theorem Account.tail_below (h : Account G root n ⟨out, seen, frame :: stack⟩) :
    ∀ f ∈ stack, G.Below f.node root := fun f hf => h.pending f (List.mem_cons_of_mem frame hf)

/-- The second time a decision node is popped, it goes out. -/
theorem Account.emit (h : Account G root n ⟨out, seen, frame :: stack⟩) (hv : frame.visited) :
    Account G root (n + 1) ⟨out ++ [.decision frame.node frame.payload], seen, stack⟩ where
  nodup := h.nodup
  split := by
    have hsplit := h.split
    simp only [halfDone, List.filter_cons_of_pos hv, List.map_cons] at hsplit
    rw [ids_append, List.append_assoc]
    exact hsplit
  paid := by
    have hpaid := h.paid
    simp only [List.length_cons] at hpaid
    dsimp only
    omega
  below := h.below
  pending := h.tail_below

theorem Account.split_unvisited (h : Account G root n ⟨out, seen, frame :: stack⟩)
    (hv : ¬ frame.visited) : (ids out ++ halfDone stack).Perm seen := by
  have hsplit := h.split
  rwa [halfDone, List.filter_cons_of_neg hv] at hsplit

theorem Account.skip (h : Account G root n ⟨out, seen, frame :: stack⟩) (hv : ¬ frame.visited) :
    Account G root (n + 1) ⟨out, seen, stack⟩ where
  nodup := h.nodup
  split := h.split_unvisited hv
  paid := by
    have hpaid := h.paid
    simp only [List.length_cons] at hpaid
    dsimp only
    omega
  below := h.below
  pending := h.tail_below

theorem Account.mark_below (h : Account G root n ⟨out, seen, frame :: stack⟩) :
    ∀ id ∈ frame.node :: seen, G.Below id root := by
  intro id hid
  rcases List.mem_cons.mp hid with rfl | hid
  · exact h.pending frame List.mem_cons_self
  · exact h.below id hid

theorem Account.leaf (h : Account G root n ⟨out, seen, frame :: stack⟩) (hv : ¬ frame.visited)
    (hs : frame.node ∉ seen) (hleaf : (entry G frame.node).frames = 0) :
    Account G root (n + 1) ⟨out ++ [entry G frame.node], frame.node :: seen, stack⟩ where
  nodup := List.nodup_cons.mpr ⟨hs, h.nodup⟩
  split := by
    rw [ids_append, entry_id, List.append_assoc]
    exact List.perm_middle.trans ((h.split_unvisited hv).cons frame.node)
  paid := by
    have hpaid := h.paid
    simp only [List.length_cons] at hpaid
    simp only [marked, List.map_cons, List.sum_cons, hleaf] at hpaid ⊢
    omega
  below := h.mark_below
  pending := h.tail_below

theorem Account.expand (h : Account G root n ⟨out, seen, frame :: stack⟩) (hv : ¬ frame.visited)
    (hs : frame.node ∉ seen) {elements : List (Nat × Nat)}
    (hnode : G.node frame.node = .decision elements) :
    Account G root (n + 1) ⟨out, frame.node :: seen,
      pushElements elements (⟨frame.node, true, elements⟩ :: stack)⟩ where
  nodup := List.nodup_cons.mpr ⟨hs, h.nodup⟩
  split := by
    have hhalf : halfDone (⟨frame.node, true, elements⟩ :: stack) =
        frame.node :: halfDone stack := by simp [halfDone]
    rw [pushElements_eq, halfDone_children, hhalf]
    exact List.perm_middle.trans ((h.split_unvisited hv).cons frame.node)
  paid := by
    have hpaid := h.paid
    have hframes : (entry G frame.node).frames = 2 * elements.length + 1 := by
      simp [entry, hnode, Entry.frames]
    simp only [List.length_cons] at hpaid
    simp only [pushElements_eq, childFrames, List.length_append, List.length_map, elements_length,
      List.length_cons, marked, List.map_cons, List.sum_cons, hframes] at hpaid ⊢
    omega
  below := h.mark_below
  pending := by
    have hroot : G.Below frame.node root := h.pending frame List.mem_cons_self
    intro f hf
    rw [pushElements_eq, List.mem_append, List.mem_cons] at hf
    rcases hf with hf | rfl | hf
    · obtain ⟨c, hc, rfl⟩ := List.mem_map.mp hf
      have hchild : G.IsChild c frame.node := by
        unfold SddGraph.IsChild
        rw [hnode]
        exact mem_reverse_elements.mp hc
      exact Relation.ReflTransGen.head hchild hroot
    · exact hroot
    · exact h.tail_below f hf

theorem Account.step (h : Account G root n ⟨out, seen, frame :: stack⟩) :
    Account G root (n + 1) (PostOrder.step G frame ⟨out, seen, stack⟩) := by
  unfold PostOrder.step
  by_cases hv : frame.visited
  · simpa [hv] using h.emit hv
  · by_cases hs : frame.node ∈ seen
    · simpa [hv, hs] using h.skip hv
    · cases hnode : G.node frame.node with
      | decision elements => simpa [hv, hs, hnode] using h.expand hv hs hnode
      | literal l =>
        simpa [hv, hs, hnode, entry] using h.leaf hv hs (by simp [entry, hnode, Entry.frames])
      | true =>
        simpa [hv, hs, hnode, entry] using h.leaf hv hs (by simp [entry, hnode, Entry.frames])
      | false =>
        simpa [hv, hs, hnode, entry] using h.leaf hv hs (by simp [entry, hnode, Entry.frames])

end

theorem Run.account {n : Nat} {st : State} (h : Run G root n st) : Account G root n st := by
  induction h with
  | start => exact .start
  | pop _ ih => exact ih.step

/-- With the stack empty, everything that was marked is out. -/
theorem Account.finished {n : Nat} {out : List Entry} {seen : List Nat}
    (h : Account G root n ⟨out, seen, []⟩) : 1 + marked G (ids out) = n := by
  have hperm : (ids out).Perm seen := by simpa [halfDone] using h.split
  have hpaid := h.paid
  have hsum : marked G (ids out) = marked G seen := (hperm.map _).sum_eq
  rw [hsum]
  exact hpaid.symm

/-- A loop that ends takes as many pops as its output accounts for. -/
theorem Account.loop_eq {fuel : Nat} {order : List Entry} :
    ∀ {n : Nat} {st : State}, Account G root n st → loop G fuel st = some order →
      ∀ k, loop G k st = if 1 + marked G (ids order) < n + k then some order else none := by
  induction fuel with
  | zero =>
    intro n st _ hend
    cases hend
  | succ fuel ih =>
    intro n st h hend k
    obtain ⟨out, seen, stack⟩ := st
    cases stack with
    | nil =>
      cases Option.some.inj hend
      rw [h.finished]
      cases k with
      | zero => simp [loop]
      | succ k => simp [loop]
    | cons frame stack =>
      have hnext := ih h.step hend
      cases k with
      | zero =>
        have hlate := hnext 0
        simp only [loop] at hlate ⊢
        split at hlate
        next => cases hlate
        next hlt => rw [if_neg (by omega)]
      | succ k =>
        show loop G k _ = _
        rw [hnext k, Nat.add_assoc, Nat.add_comm 1 k]

theorem Linear.pops_eq {order : List Entry} (h : Linear G order) :
    pops order = 1 + marked G (ids order) := by
  have hframes : ∀ e ∈ order, e.frames = (entry G e.id).frames := by
    intro e he
    rw [← h.eq_entry he]
  rw [pops, marked, ids, List.map_map, List.map_congr_left hframes]
  rfl

theorem marked_le {seen seen' : List Nat} (hn : seen.Nodup) (hs : ∀ id ∈ seen, id ∈ seen') :
    marked G seen ≤ marked G seen' := by
  obtain ⟨mid, hperm, hsub⟩ := hn.subperm hs
  unfold marked
  rw [← (hperm.map _).sum_eq]
  exact (hsub.map _).sum_le_sum fun _ _ => Nat.zero_le _

end

/-- How long the loop takes: one pop for the root and, for each decision node below it, counted
once however often it is shared, one for the node and two for each of its elements. At no time are
there more frames on the stack than pops left. -/
theorem postOrder_pops (G : SddGraph) (root : Nat) :
    ∃ order, (ids order).Nodup ∧ (∀ id, id ∈ ids order ↔ G.Below id root) ∧
      (∀ fuel, postOrder G fuel root = if pops order < fuel then some order else none) ∧
      ∀ n st, Run G root n st → n + st.stack.length ≤ pops order := by
  obtain ⟨order, N, hN, hlin, hroot, hbelow⟩ := postOrder_spec G root
  have hmem : ∀ id, id ∈ ids order ↔ G.Below id root :=
    fun id => ⟨hbelow id, fun hb => hlin.mem_of_below hb hroot⟩
  refine ⟨order, hlin.nodup, hmem, fun fuel => ?_, fun n st hrun => ?_⟩
  · have hloop := Account.start.loop_eq (hN N (Nat.le_refl N)) fuel
    rwa [← hlin.pops_eq, Nat.zero_add] at hloop
  · have haccount := hrun.account
    have hle := marked_le (G := G) haccount.nodup fun id hid => (hmem id).mpr (haccount.below id hid)
    rw [hlin.pops_eq, haccount.paid]
    exact Nat.add_le_add_left hle 1

end PostOrder

end Kompyle
