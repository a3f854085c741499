import Mathlib.Data.Set.Function
import Mathlib.Data.List.Basic
import Mathlib.Data.List.Induction
import Mathlib.Data.List.Nodup
import Mathlib.Order.Interval.Set.Basic

namespace Kompyle

/-- The name map of kmpyl::Circuit. Only get_lit writes it, so its fields can carry what
get_lit keeps: every name once, numbered from 1 without gaps. -/
@[ext]
structure Circuit where
  names_ : List (String × Nat)
  next_var_ : Nat
  keys : (names_.map Prod.fst).Nodup
  indices : names_.map Prod.snd = List.range' 1 names_.length
  next : next_var_ = names_.length + 1

namespace Circuit

def fresh : Circuit := ⟨[], 1, List.nodup_nil, rfl, rfl⟩

def nbVars (c : Circuit) : Nat := c.next_var_ - 1

def registered (c : Circuit) : List String := c.names_.map Prod.fst

def getLit (c : Circuit) (name : String) : Circuit × Nat :=
  match h : c.names_.lookup name with
  | some v => (c, v)
  | none =>
    (⟨c.names_ ++ [(name, c.next_var_)], c.next_var_ + 1, by
      have hn : ∀ e ∈ c.names_, name ≠ e.1 := by simpa using h
      rw [List.map_append, List.nodup_append]
      refine ⟨c.keys, by simp, ?_⟩
      intro a ha b hb hab
      obtain ⟨e, he, rfl⟩ := List.mem_map.mp ha
      simp only [List.map_cons, List.map_nil, List.mem_singleton] at hb
      exact hn e he (by rw [← hb, ← hab]),
      by simp [c.indices, c.next, List.range'_1_concat, Nat.add_comm], by simp [c.next]⟩,
      c.next_var_)

/-- The index of a name. The source has no such query; 0 stands for no index. -/
def index (c : Circuit) (name : String) : Nat := (c.names_.lookup name).getD 0

theorem length_registered (c : Circuit) : c.registered.length = c.nbVars := by
  simp [registered, nbVars, c.next]

theorem lookup_eq_idxOf (name : String) (es : List (String × Nat)) (s : Nat)
    (h : es.map Prod.snd = List.range' s es.length) :
    es.lookup name = if name ∈ es.map Prod.fst then some ((es.map Prod.fst).idxOf name + s)
      else none := by
  induction es generalizing s with
  | nil => rfl
  | cons e es ih =>
    simp only [List.map_cons, List.length_cons, List.range'_succ, List.cons.injEq] at h
    obtain ⟨rfl, hes⟩ := h
    by_cases hk : name = e.1
    · subst hk
      rw [List.lookup_cons, beq_self_eq_true]
      simp
    · have hk' : (name == e.1) = false := by simpa using hk
      rw [List.lookup_cons, hk', ih _ hes]
      simp only [List.map_cons, List.mem_cons, hk, false_or]
      have hidx : (e.1 :: es.map Prod.fst).idxOf name = (es.map Prod.fst).idxOf name + 1 :=
        List.idxOf_cons_ne _ (Ne.symm hk)
      rw [hidx, Nat.add_assoc, Nat.add_comm 1]

theorem lookup_names (c : Circuit) (name : String) :
    c.names_.lookup name =
      if name ∈ c.registered then some (c.registered.idxOf name + 1) else none :=
  lookup_eq_idxOf name c.names_ 1 c.indices

theorem index_of_mem {c : Circuit} {name : String} (h : name ∈ c.registered) :
    c.index name = c.registered.idxOf name + 1 := by
  simp [index, lookup_names, h]

/-- What get_lit does: it registers the name unless it is there, and returns its index. -/
theorem getLit_spec (c : Circuit) (name : String) :
    (c.getLit name).1.registered =
        (if name ∈ c.registered then c.registered else c.registered ++ [name]) ∧
      (c.getLit name).2 = (c.getLit name).1.index name := by
  have hl := c.lookup_names name
  unfold getLit
  split
  next v h =>
    rw [hl] at h
    split at h
    next hm => exact ⟨by simp [hm], by simp [index, hl, hm] at h ⊢; omega⟩
    next => cases h
  next h =>
    have hm : name ∉ c.registered := by
      intro hm
      rw [hl] at h
      simp [hm] at h
    refine ⟨by simp [registered] at hm ⊢; simp [hm], ?_⟩
    simp [index, List.lookup_append, h]

theorem ext_registered {c d : Circuit} (h : c.registered = d.registered) : c = d := by
  have hlen : c.names_.length = d.names_.length := by
    simpa [registered] using congrArg List.length h
  have hindices : c.names_.map Prod.snd = d.names_.map Prod.snd := by
    rw [c.indices, d.indices, hlen]
  have hnames : c.names_ = d.names_ :=
    (List.zip_of_prod h hindices).trans (List.zip_of_prod rfl rfl).symm
  exact Circuit.ext hnames (by rw [c.next, d.next, hlen])

theorem getLit_of_mem {c : Circuit} {name : String} (h : name ∈ c.registered) :
    c.getLit name = (c, c.index name) := by
  obtain ⟨hr, hi⟩ := c.getLit_spec name
  have hc : (c.getLit name).1 = c := ext_registered (by rw [hr, if_pos h])
  exact Prod.ext hc (by rw [hi, hc])

theorem index_bijOn (c : Circuit) :
    Set.BijOn c.index {name | name ∈ c.registered} (Set.Icc 1 c.nbVars) := by
  refine ⟨?_, ?_, ?_⟩
  · intro name h
    have := List.idxOf_lt_length_of_mem h
    rw [index_of_mem h]
    rw [length_registered] at this
    exact ⟨by omega, by omega⟩
  · intro a ha b hb hab
    rw [index_of_mem ha, index_of_mem hb] at hab
    exact (List.idxOf_inj ha).mp (by omega)
  · intro v hv
    have hlt : v - 1 < c.registered.length := by
      have := hv.1
      have := hv.2
      rw [length_registered]
      omega
    refine ⟨c.registered[v - 1], List.getElem_mem hlt, ?_⟩
    have hnodup : c.registered.Nodup := c.keys
    have h1 := hv.1
    rw [index_of_mem (List.getElem_mem hlt), hnodup.idxOf_getElem]
    omega

theorem index_mono {c d : Circuit} (h : c.registered <+: d.registered) {name : String}
    (hm : name ∈ c.registered) : d.index name = c.index name := by
  rw [index_of_mem hm, index_of_mem (h.subset hm), h.idxOf_eq_of_mem hm]

def after (c : Circuit) (seen : List String) : Circuit :=
  seen.foldl (fun c name => (c.getLit name).1) c

theorem after_append (c : Circuit) (xs ys : List String) :
    c.after (xs ++ ys) = (c.after xs).after ys := by
  simp [after, List.foldl_append]

theorem prefix_getLit (c : Circuit) (name : String) :
    c.registered <+: (c.getLit name).1.registered := by
  rw [(c.getLit_spec name).1]
  split
  · exact List.prefix_refl _
  · exact List.prefix_append _ _

theorem mem_getLit (c : Circuit) (name : String) : name ∈ (c.getLit name).1.registered := by
  rw [(c.getLit_spec name).1]
  split
  next h => exact h
  next => simp

theorem prefix_after (c : Circuit) (seen : List String) :
    c.registered <+: (c.after seen).registered := by
  induction seen generalizing c with
  | nil => exact List.prefix_refl _
  | cons name seen ih => exact (c.prefix_getLit name).trans (ih (c.getLit name).1)

theorem after_of_mem {c : Circuit} {seen : List String} (h : ∀ name ∈ seen, name ∈ c.registered) :
    c.after seen = c := by
  induction seen with
  | nil => rfl
  | cons name seen ih =>
    obtain ⟨hn, hs⟩ := List.forall_mem_cons.mp h
    have hstep : (c.getLit name).1 = c := by rw [getLit_of_mem hn]
    show ((c.getLit name).1).after seen = c
    rw [hstep]
    exact ih hs

theorem mem_after {c : Circuit} {seen : List String} {name : String} :
    name ∈ (c.after seen).registered ↔ name ∈ c.registered ∨ name ∈ seen := by
  induction seen generalizing c with
  | nil => simp [after]
  | cons n seen ih =>
    show name ∈ ((c.getLit n).1.after seen).registered ↔ _
    rw [ih, (c.getLit_spec n).1, List.mem_cons]
    split
    next h =>
      constructor
      · tauto
      · rintro (h' | rfl | h') <;> tauto
    next => simp [or_assoc]

theorem registered_after_fresh (seen : List String) :
    (fresh.after seen).registered = seen.eraseDups := by
  induction seen using List.reverseRecOn with
  | nil => rfl
  | append_singleton seen name ih =>
    have hstep : fresh.after (seen ++ [name]) = ((fresh.after seen).getLit name).1 := by
      simp [after]
    rw [hstep, ((fresh.after seen).getLit_spec name).1, ih, List.eraseDups_append]
    by_cases h : name ∈ seen
    · simp [h, List.removeAll]
    · simp [h, List.removeAll, List.eraseDups_cons]

/-- The names of `c` are those of `seen`, numbered 1, 2, ... by first appearance. -/
structure NumberedBy (c : Circuit) (seen : List String) : Prop where
  registered : ∀ name, name ∈ c.registered ↔ name ∈ seen
  bijective : Set.BijOn c.index {name | name ∈ c.registered} (Set.Icc 1 c.nbVars)
  firstAppearance : ∀ name ∈ seen, c.index name = seen.eraseDups.idxOf name + 1

theorem numberedBy_after (seen : List String) : (fresh.after seen).NumberedBy seen where
  registered name := by simp [registered_after_fresh]
  bijective := index_bijOn _
  firstAppearance name h := by
    rw [index_of_mem, registered_after_fresh]
    simpa [registered_after_fresh] using h

end Circuit

end Kompyle
