import Kompyle.SddGraph

namespace Kompyle

namespace PostOrder

/-- An item of the linearisation: a tag with the id and the payload that goes with it. -/
inductive Entry
  | decision (id : Nat) (payload : List (Nat × Nat))
  | literal (id : Nat) (payload : Int)
  | true (id : Nat)
  | false (id : Nat)
  deriving DecidableEq, Repr

def Entry.id : Entry → Nat
  | .decision id _ | .literal id _ | .true id | .false id => id

def entry (G : SddGraph) (id : Nat) : Entry :=
  match G.node id with
  | .literal l => .literal id l
  | .true => .true id
  | .false => .false id
  | .decision elements => .decision id elements

@[simp] theorem entry_id (G : SddGraph) (id : Nat) : (entry G id).id = id := by
  unfold entry
  split <;> rfl

structure Frame where
  node : Nat
  visited : Bool
  payload : List (Nat × Nat)
  deriving DecidableEq, Repr

structure State where
  out : List Entry
  seen : List Nat
  stack : List Frame
  deriving DecidableEq, Repr

def pushElements (elements : List (Nat × Nat)) (stack : List Frame) : List Frame :=
  elements.foldl (fun stack e => ⟨e.1, false, []⟩ :: ⟨e.2, false, []⟩ :: stack) stack

def step (G : SddGraph) (frame : Frame) (st : State) : State :=
  if frame.visited then
    { st with out := st.out ++ [.decision frame.node frame.payload] }
  else
    let nid := frame.node
    if nid ∈ st.seen then st
    else
      let st := { st with seen := nid :: st.seen }
      match G.node nid with
      | .literal l => { st with out := st.out ++ [.literal nid l] }
      | .true => { st with out := st.out ++ [.true nid] }
      | .false => { st with out := st.out ++ [.false nid] }
      | .decision elements =>
        { st with stack := pushElements elements (⟨nid, true, elements⟩ :: st.stack) }

def loop (G : SddGraph) : Nat → State → Option (List Entry)
  | 0, _ => none
  | fuel + 1, st =>
    match st.stack with
    | [] => some st.out
    | frame :: stack => loop G fuel (step G frame { st with stack := stack })

def postOrder (G : SddGraph) (fuel : Nat) (root : Nat) : Option (List Entry) :=
  loop G fuel ⟨[], [], [⟨root, false, []⟩]⟩

def ids (out : List Entry) : List Nat := out.map Entry.id

@[simp] theorem ids_append (out : List Entry) (e : Entry) :
    ids (out ++ [e]) = ids out ++ [e.id] := by
  simp [ids]

/-- Every node is emitted once, as what it is, and after its children. -/
inductive Linear (G : SddGraph) : List Entry → Prop
  | nil : Linear G []
  | emit {out id} (h : Linear G out) (hn : id ∉ ids out)
      (hc : ∀ c ∈ (G.node id).children, c ∈ ids out) : Linear G (out ++ [entry G id])

def Reaches (G : SddGraph) (st st' : State) : Prop :=
  ∃ n, ∀ fuel, loop G (n + fuel) st = loop G fuel st'

section

variable {G : SddGraph}

theorem Reaches.refl (st : State) : Reaches G st st := ⟨0, fun fuel => by rw [Nat.zero_add]⟩

theorem Reaches.trans {a b c : State} (h : Reaches G a b) (h' : Reaches G b c) :
    Reaches G a c := by
  obtain ⟨n, hn⟩ := h
  obtain ⟨m, hm⟩ := h'
  exact ⟨n + m, fun fuel => by rw [Nat.add_assoc, hn, hm]⟩

theorem Reaches.step (out : List Entry) (seen : List Nat) (frame : Frame) (stack : List Frame) :
    Reaches G ⟨out, seen, frame :: stack⟩ (PostOrder.step G frame ⟨out, seen, stack⟩) :=
  ⟨1, fun fuel => by rw [Nat.add_comm]; rfl⟩

def childFrames (cs : List Nat) : List Frame := cs.map fun c => ⟨c, false, []⟩

theorem pushElements_eq (elements : List (Nat × Nat)) (stack : List Frame) :
    pushElements elements stack =
      childFrames (elements.reverse.flatMap fun e => [e.1, e.2]) ++ stack := by
  induction elements generalizing stack with
  | nil => rfl
  | cons e es ih =>
    show pushElements es _ = _
    rw [ih]
    simp [childFrames]

/-- What the loop keeps: the output is in order, and all of it has been seen. -/
structure Good (G : SddGraph) (out : List Entry) (seen : List Nat) : Prop where
  linear : Linear G out
  seen : ∀ id ∈ ids out, id ∈ seen

/-- What has happened once the nodes `cs` have been popped and everything above them is gone:
they and only nodes below them have been emitted, and no other node is left half done. -/
structure Visited (G : SddGraph) (cs : List Nat) (out : List Entry) (seen : List Nat)
    (out' : List Entry) (seen' : List Nat) : Prop where
  good : Good G out' seen'
  emits : ∀ c ∈ cs, c ∈ ids out'
  keeps : ∀ id ∈ ids out, id ∈ ids out'
  marks : ∀ id ∈ seen, id ∈ seen'
  open_ : ∀ id ∈ seen', id ∉ ids out' → id ∈ seen ∧ id ∉ ids out
  below : ∀ id ∈ ids out', id ∈ ids out ∨ ∃ c ∈ cs, G.Below id c

/-- The nodes that are half done are above `id`. -/
def OpenAbove (G : SddGraph) (id : Nat) (out : List Entry) (seen : List Nat) : Prop :=
  ∀ o ∈ seen, o ∉ ids out → G.rank id < G.rank o

theorem Visited.openAbove {cs : List Nat} {out out' : List Entry} {seen seen' : List Nat}
    (h : Visited G cs out seen out' seen') {id : Nat} (ho : OpenAbove G id out seen) :
    OpenAbove G id out' seen' := by
  intro o hs hn
  obtain ⟨hs', hn'⟩ := h.open_ o hs hn
  exact ho o hs' hn'

theorem visited_nil {out : List Entry} {seen : List Nat} (h : Good G out seen) :
    Visited G [] out seen out seen where
  good := h
  emits := by simp
  keeps _ hid := hid
  marks _ hs := hs
  open_ _ hs hn := ⟨hs, hn⟩
  below _ hid := Or.inl hid

theorem Visited.cons {c : Nat} {cs : List Nat} {out out₁ out₂ : List Entry}
    {seen seen₁ seen₂ : List Nat} (h₁ : Visited G [c] out seen out₁ seen₁)
    (h₂ : Visited G cs out₁ seen₁ out₂ seen₂) : Visited G (c :: cs) out seen out₂ seen₂ where
  good := h₂.good
  emits := by
    intro x hx
    rcases List.mem_cons.mp hx with rfl | hx
    · exact h₂.keeps x (h₁.emits x (List.mem_singleton_self x))
    · exact h₂.emits x hx
  keeps id hid := h₂.keeps id (h₁.keeps id hid)
  marks id hs := h₂.marks id (h₁.marks id hs)
  open_ id hs hn := by
    obtain ⟨hs₁, hn₁⟩ := h₂.open_ id hs hn
    exact h₁.open_ id hs₁ hn₁
  below := by
    intro id hid
    rcases h₂.below id hid with hid | ⟨x, hx, hb⟩
    · rcases h₁.below id hid with hid | ⟨x, hx, hb⟩
      · exact Or.inl hid
      · rw [List.mem_singleton.mp hx] at hb
        exact Or.inr ⟨c, List.mem_cons_self, hb⟩
    · exact Or.inr ⟨x, List.mem_cons_of_mem c hx, hb⟩

/-- Visiting the children one after another, given that each can be visited. -/
theorem visit_children {cs : List Nat} (stack : List Frame)
    (hvisit : ∀ c ∈ cs, ∀ out seen stack, Good G out seen → OpenAbove G c out seen →
      ∃ out' seen', Reaches G ⟨out, seen, ⟨c, false, []⟩ :: stack⟩ ⟨out', seen', stack⟩ ∧
        Visited G [c] out seen out' seen')
    {out : List Entry} {seen : List Nat} (hg : Good G out seen)
    (ho : ∀ c ∈ cs, OpenAbove G c out seen) :
    ∃ out' seen', Reaches G ⟨out, seen, childFrames cs ++ stack⟩ ⟨out', seen', stack⟩ ∧
      Visited G cs out seen out' seen' := by
  induction cs generalizing out seen with
  | nil => exact ⟨out, seen, .refl _, visited_nil hg⟩
  | cons c cs ih =>
    obtain ⟨hv, hvs⟩ := List.forall_mem_cons.mp hvisit
    obtain ⟨hoc, hocs⟩ := List.forall_mem_cons.mp ho
    obtain ⟨out₁, seen₁, hr₁, h₁⟩ := hv out seen (childFrames cs ++ stack) hg hoc
    obtain ⟨out₂, seen₂, hr₂, h₂⟩ := ih hvs h₁.good fun x hx => h₁.openAbove (hocs x hx)
    exact ⟨out₂, seen₂, hr₁.trans hr₂, h₁.cons h₂⟩

theorem visited_emit {id : Nat} {cs : List Nat} {out out' : List Entry} {seen seen' : List Nat}
    (hcs : ∀ c, c ∈ cs ↔ c ∈ (G.node id).children) (h : Visited G cs out (id :: seen) out' seen')
    (hid : id ∉ ids out') : Visited G [id] out seen (out' ++ [entry G id]) seen' where
  good := by
    refine ⟨.emit h.good.linear hid fun c hc => h.emits c ((hcs c).mpr hc), fun i hi => ?_⟩
    rw [ids_append, List.mem_append] at hi
    rcases hi with hi | hi
    · exact h.good.seen i hi
    · rw [List.mem_singleton.mp hi, entry_id]
      exact h.marks id List.mem_cons_self
  emits := by simp
  keeps i hi := by
    rw [ids_append]
    exact List.mem_append_left _ (h.keeps i hi)
  marks i hs := h.marks i (List.mem_cons_of_mem id hs)
  open_ := by
    intro i hs hn
    rw [ids_append, List.mem_append, not_or] at hn
    obtain ⟨hseen, hout⟩ := h.open_ i hs hn.1
    rcases List.mem_cons.mp hseen with rfl | hseen
    · simp at hn
    · exact ⟨hseen, hout⟩
  below := by
    intro i hi
    rw [ids_append, List.mem_append] at hi
    rcases hi with hi | hi
    · rcases h.below i hi with hi | ⟨c, hc, hb⟩
      · exact Or.inl hi
      · exact Or.inr ⟨id, List.mem_singleton_self id, hb.tail ((hcs c).mp hc)⟩
    · rw [List.mem_singleton.mp hi, entry_id]
      exact Or.inr ⟨id, List.mem_singleton_self id, .refl⟩

theorem Good.mark {out : List Entry} {seen : List Nat} (h : Good G out seen) (id : Nat) :
    Good G out (id :: seen) :=
  ⟨h.linear, fun i hi => List.mem_cons_of_mem id (h.seen i hi)⟩

theorem visited_leaf {id : Nat} {out : List Entry} {seen : List Nat} (hg : Good G out seen)
    (hn : id ∉ seen) (hc : (G.node id).children = []) :
    Visited G [id] out seen (out ++ [entry G id]) (id :: seen) := by
  exact visited_emit (by simp [hc]) (visited_nil (hg.mark id)) fun h => hn (hg.seen id h)

theorem mem_reverse_elements {elements : List (Nat × Nat)} {c : Nat} :
    c ∈ elements.reverse.flatMap (fun e => [e.1, e.2]) ↔
      c ∈ (SddNode.decision elements).children := by
  simp [SddNode.children, List.mem_flatMap]

/-- Popping a decision node for the first time, given that its elements can be visited. -/
theorem visit_decision {id : Nat} {elements : List (Nat × Nat)}
    (hnode : G.node id = .decision elements)
    (hvisit : ∀ c, G.rank c < G.rank id → ∀ out seen stack, Good G out seen →
      OpenAbove G c out seen → ∃ out' seen',
        Reaches G ⟨out, seen, ⟨c, false, []⟩ :: stack⟩ ⟨out', seen', stack⟩ ∧
          Visited G [c] out seen out' seen')
    {out : List Entry} {seen : List Nat} (stack : List Frame) (hg : Good G out seen)
    (ho : OpenAbove G id out seen) (hs : id ∉ seen) :
    ∃ out' seen', Reaches G ⟨out, seen, ⟨id, false, []⟩ :: stack⟩ ⟨out', seen', stack⟩ ∧
      Visited G [id] out seen out' seen' := by
  have hcs : ∀ c, c ∈ elements.reverse.flatMap (fun e => [e.1, e.2]) ↔
      c ∈ (G.node id).children := by
    intro c
    rw [hnode]
    exact mem_reverse_elements
  have hrank : ∀ c ∈ elements.reverse.flatMap (fun e => [e.1, e.2]),
      G.rank c < G.rank id := fun c hc => G.acyclic id c ((hcs c).mp hc)
  have hopen : ∀ c ∈ elements.reverse.flatMap (fun e => [e.1, e.2]),
      OpenAbove G c out (id :: seen) := by
    intro c hc o hos hon
    have hlt := hrank c hc
    rcases List.mem_cons.mp hos with rfl | hos
    · exact hlt
    · have habove := ho o hos hon
      omega
  obtain ⟨out', seen', hr, hv⟩ := visit_children (⟨id, true, elements⟩ :: stack)
    (fun c hc => hvisit c (hrank c hc)) (hg.mark id) hopen
  have hid : id ∉ ids out' := by
    intro hid
    rcases hv.below id hid with hid | ⟨c, hc, hb⟩
    · exact hs (hg.seen id hid)
    · have hlt := hrank c hc
      have hle := SddGraph.rank_le_of_below hb
      omega
  refine ⟨_, _, ?_, visited_emit hcs hv hid⟩
  have hpush : Reaches G ⟨out, seen, ⟨id, false, []⟩ :: stack⟩
      ⟨out, id :: seen, childFrames (elements.reverse.flatMap fun e => [e.1, e.2]) ++
        ⟨id, true, elements⟩ :: stack⟩ := by
    simpa [step, hs, hnode, pushElements_eq] using
      Reaches.step (G := G) out seen ⟨id, false, []⟩ stack
  have hemit : Reaches G ⟨out', seen', ⟨id, true, elements⟩ :: stack⟩
      ⟨out' ++ [entry G id], seen', stack⟩ := by
    simpa [step, entry, hnode] using
      Reaches.step (G := G) out' seen' ⟨id, true, elements⟩ stack
  exact (hpush.trans hr).trans hemit

/-- Popping a node, whether or not it has been seen before: when the loop is back at the rest
of the stack, the node is out. -/
theorem visit (id : Nat) (out : List Entry) (seen : List Nat) (stack : List Frame)
    (hg : Good G out seen) (ho : OpenAbove G id out seen) :
    ∃ out' seen', Reaches G ⟨out, seen, ⟨id, false, []⟩ :: stack⟩ ⟨out', seen', stack⟩ ∧
      Visited G [id] out seen out' seen' := by
  induction hr : G.rank id using Nat.strongRecOn generalizing id out seen stack with
  | _ r ih =>
    subst hr
    have hstep := Reaches.step (G := G) out seen ⟨id, false, []⟩ stack
    by_cases hs : id ∈ seen
    · -- a node that is seen but not out would be above itself
      have hout : id ∈ ids out :=
        Decidable.byContradiction fun hn => Nat.lt_irrefl _ (ho id hs hn)
      refine ⟨out, seen, by simpa [step, hs] using hstep, hg, by simpa using hout,
        fun _ h => h, fun _ h => h, fun _ h h' => ⟨h, h'⟩, fun _ h => Or.inl h⟩
    · cases hnode : G.node id with
      | literal l =>
        refine ⟨_, _, ?_, visited_leaf hg hs (by rw [hnode]; rfl)⟩
        simpa [step, hs, hnode, entry] using hstep
      | true =>
        refine ⟨_, _, ?_, visited_leaf hg hs (by rw [hnode]; rfl)⟩
        simpa [step, hs, hnode, entry] using hstep
      | false =>
        refine ⟨_, _, ?_, visited_leaf hg hs (by rw [hnode]; rfl)⟩
        simpa [step, hs, hnode, entry] using hstep
      | decision elements =>
        refine visit_decision hnode (fun c hc out seen stack hg ho => ?_) stack hg ho hs
        exact ih _ hc c out seen stack hg ho rfl

/-- The loop ends, and its output is a linearisation of what can be reached from the root. -/
theorem postOrder_spec (G : SddGraph) (root : Nat) :
    ∃ order N, (∀ fuel, N ≤ fuel → postOrder G fuel root = some order) ∧ Linear G order ∧
      root ∈ ids order ∧ ∀ id ∈ ids order, G.Below id root := by
  obtain ⟨out, seen, ⟨n, hn⟩, hv⟩ := visit (G := G) root [] [] [] ⟨.nil, by simp [ids]⟩
    (by simp [OpenAbove])
  refine ⟨out, n + 1, fun fuel hfuel => ?_, hv.good.linear, hv.emits root (by simp), ?_⟩
  · obtain ⟨k, rfl⟩ := Nat.exists_eq_add_of_le hfuel
    show loop G (n + 1 + k) _ = _
    rw [Nat.add_assoc, hn, Nat.add_comm 1 k]
    rfl
  · intro id hid
    rcases hv.below id hid with hid | ⟨c, hc, hb⟩
    · simp [ids] at hid
    · rwa [List.mem_singleton.mp hc] at hb

end

section

variable {G : SddGraph}

theorem Linear.last {out : List Entry} {e : Entry} (h : Linear G (out ++ [e])) :
    Linear G out ∧ e = entry G e.id ∧ e.id ∉ ids out ∧
      ∀ c ∈ (G.node e.id).children, c ∈ ids out := by
  generalize heq : out ++ [e] = order at h
  cases h with
  | nil => simp at heq
  | @emit out' id h hn hc =>
    obtain ⟨rfl, hlast⟩ := List.append_inj' heq rfl
    obtain rfl := List.singleton_inj.mp hlast
    rw [entry_id]
    exact ⟨h, rfl, hn, hc⟩

theorem Linear.initial {out rest : List Entry} (h : Linear G (out ++ rest)) : Linear G out := by
  induction rest using List.reverseRecOn with
  | nil => rwa [List.append_nil] at h
  | append_singleton rest e ih =>
    rw [← List.append_assoc] at h
    exact ih h.last.1

theorem Linear.nodup {order : List Entry} (h : Linear G order) : (ids order).Nodup := by
  induction h with
  | nil => exact List.nodup_nil
  | @emit out id _ hn _ ih =>
    rw [ids_append, entry_id, List.nodup_append]
    refine ⟨ih, List.nodup_singleton id, fun a ha b hb hab => hn ?_⟩
    rwa [← List.mem_singleton.mp hb, ← hab]

/-- At its place in the order, an entry is what its node is, and finds its children before it. -/
theorem Linear.split {before after : List Entry} {e : Entry} (h : Linear G (before ++ e :: after)) :
    e = entry G e.id ∧ ∀ c ∈ (G.node e.id).children, c ∈ ids before := by
  rw [List.append_cons] at h
  obtain ⟨-, he, -, hc⟩ := h.initial.last
  exact ⟨he, hc⟩

theorem Linear.eq_entry {order : List Entry} (h : Linear G order) {e : Entry} (he : e ∈ order) :
    e = entry G e.id := by
  obtain ⟨before, after, rfl⟩ := List.append_of_mem he
  exact h.split.1

theorem Linear.mem_entry {order : List Entry} (h : Linear G order) {id : Nat}
    (hid : id ∈ ids order) : entry G id ∈ order := by
  obtain ⟨e, he, rfl⟩ := List.mem_map.mp hid
  rwa [← h.eq_entry he]

theorem Linear.mem_of_below {order : List Entry} (h : Linear G order) {m id : Nat}
    (hb : G.Below m id) (hid : id ∈ ids order) : m ∈ ids order := by
  induction hb with
  | refl => exact hid
  | @tail c id _ hc ih =>
    apply ih
    obtain ⟨before, after, hsplit⟩ := List.append_of_mem (h.mem_entry hid)
    rw [hsplit] at h ⊢
    have hbefore := h.split.2 c (by rwa [entry_id])
    rw [ids, List.map_append]
    exact List.mem_append_left _ hbefore

/-- Nothing comes after the entry of a node that everything in the order is below. -/
theorem Linear.root_last {order : List Entry} (h : Linear G order) {root : Nat}
    (hroot : root ∈ ids order) (hbelow : ∀ id ∈ ids order, G.Below id root) :
    order.getLast? = some (entry G root) := by
  obtain ⟨before, after, rfl⟩ := List.append_of_mem (h.mem_entry hroot)
  cases after with
  | nil => simp
  | cons e after =>
    have hnodup := h.nodup
    rw [ids, List.map_append, List.nodup_append] at hnodup
    obtain ⟨-, hafter, hapart⟩ := hnodup
    have hne : e.id ≠ root := by
      intro he
      have hfirst := (List.nodup_cons.mp hafter).1
      simp [he] at hfirst
    have hid : e.id ∈ ids (before ++ entry G root :: e :: after) := by simp [ids]
    rcases Relation.ReflTransGen.cases_tail (hbelow e.id hid) with heq | ⟨c, hc, hchild⟩
    · exact absurd heq.symm hne
    · have hbefore := h.initial.mem_of_below hc (h.split.2 c (by rwa [entry_id]))
      exact absurd rfl (hapart e.id hbefore e.id (by simp))

end

/-- The loop ends with one entry for every node that can be reached from the root and for no
other, each with the tag and the payload of its node and after its primes and subs. -/
theorem postOrder_linearises (G : SddGraph) (root : Nat) :
    ∃ order N, (∀ fuel, N ≤ fuel → postOrder G fuel root = some order) ∧ (ids order).Nodup ∧
      (∀ id, id ∈ ids order ↔ G.Below id root) ∧ (∀ e ∈ order, e = entry G e.id) ∧
      (∀ before e after, order = before ++ e :: after →
        ∀ c ∈ (G.node e.id).children, entry G c ∈ before) ∧
      order.getLast? = some (entry G root) := by
  obtain ⟨order, N, hN, hlin, hroot, hbelow⟩ := postOrder_spec G root
  refine ⟨order, N, hN, hlin.nodup, fun id => ⟨hbelow id, fun hb => hlin.mem_of_below hb hroot⟩,
    fun e he => hlin.eq_entry he, ?_, hlin.root_last hroot hbelow⟩
  rintro before e after rfl c hc
  exact hlin.initial.mem_entry (hlin.split.2 c hc)

end PostOrder

end Kompyle
