import Kompyle.StdoutSilencer
import Mathlib.Data.Finset.Card
import Mathlib.Logic.Relation

namespace Kompyle

def Fds.opened (fds : Fds) : Finset Nat :=
  (Finset.range fds.length).filter fun fd => fds.file fd ≠ none

theorem Fds.mem_opened {fds : Fds} {fd : Nat} : fd ∈ fds.opened ↔ fds.file fd ≠ none := by
  unfold opened
  rw [Finset.mem_filter, Finset.mem_range]
  refine ⟨fun h => h.2, fun h => ⟨?_, h⟩⟩
  by_contra hge
  apply h
  unfold file
  rw [List.getElem?_eq_none (by omega)]
  rfl

/-- A process, and the descriptors as everything but the silencers has made them. -/
structure Tracked where
  silenced : Silenced
  own : Fds

namespace Tracked

/-- What can happen next. Other code opens what it likes and gets the lowest free descriptor; it
closes what it has opened or found open, but not stdout. -/
inductive Step : Tracked → Tracked → Prop
  | stdout (t : Tracked) (e : StdoutEvent) : Step t { t with silenced := t.silenced.step e }
  | openFile (p : Process) (alive : List StdoutSilencer) (own : Fds) (f : File) :
      Step ⟨⟨p, alive⟩, own⟩
        ⟨⟨{ p with fds := (p.fds.openFile f).2 }, alive⟩, own.put p.fds.free (some f)⟩
  | close (p : Process) (alive : List StdoutSilencer) (own : Fds) {fd : Nat}
      (hown : own.file fd ≠ none) (hone : fd ≠ 1) :
      Step ⟨⟨p, alive⟩, own⟩ ⟨⟨{ p with fds := p.fds.close fd }, alive⟩, own.close fd⟩

def start (fds : Fds) : Tracked := ⟨Silenced.start fds, fds⟩

end Tracked

section

variable (p : Process)

theorem StdoutSilencer.saved_free : p.fds.file (construct p).1.saved = none := p.fds.file_free

variable {p}

theorem StdoutSilencer.devnull_ne_saved {f : File} (h : p.fds.file 1 = some f) :
    (construct p).1.devnull ≠ (construct p).1.saved := by
  have hopen : (p.fds.dup 1).2.file p.fds.free = some f := by
    rw [Fds.file_dup, if_pos rfl, h]
  exact (Fds.ne_free hopen).symm

theorem StdoutSilencer.devnull_free {f : File} (h : p.fds.file 1 = some f) :
    p.fds.file (construct p).1.devnull = none := by
  have hfree : (p.fds.dup 1).2.file (construct p).1.devnull = none := (p.fds.dup 1).2.file_free
  rw [Fds.file_dup] at hfree
  exact (if_neg (devnull_ne_saved h)).symm.trans hfree

end

/-- The descriptors are those of the other code under one layer for each silencer that is alive:
two descriptors that were free below it, and descriptor 1, which one of them keeps. -/
inductive Layered (own : Fds) : Fds → List StdoutSilencer → Prop
  | nil {fds : Fds} (h : ∀ i, fds.file i = own.file i) : Layered own fds []
  | cons {fds below : Fds} {x : StdoutSilencer} {xs : List StdoutSilencer}
      (h : Layered own below xs) (hsaved : below.file x.saved = none)
      (hdevnull : below.file x.devnull = none) (hne : x.devnull ≠ x.saved)
      (hfile : ∀ i, fds.file i = if i = 1 then some .devNull
        else if i = x.devnull then some .devNull
        else if i = x.saved then below.file 1 else below.file i) :
      Layered own fds (x :: xs)

namespace Layered

variable {own fds : Fds} {xs : List StdoutSilencer}

theorem congr {fds' : Fds} (h : Layered own fds xs) (hfile : ∀ i, fds'.file i = fds.file i) :
    Layered own fds' xs := by
  cases h with
  | nil h => exact .nil fun i => (hfile i).trans (h i)
  | cons h hsaved hdevnull hne hfds =>
    exact .cons h hsaved hdevnull hne fun i => (hfile i).trans (hfds i)

theorem file_one (h : Layered own fds xs) :
    fds.file 1 = if xs = [] then own.file 1 else some .devNull := by
  cases h with
  | nil h => exact h 1
  | cons _ _ _ _ hfds => rw [hfds 1, if_pos rfl, if_neg (List.cons_ne_nil _ _)]

theorem one_open (h : Layered own fds xs) (hone : own.file 1 ≠ none) : fds.file 1 ≠ none := by
  rw [h.file_one]
  split
  · exact hone
  · simp

theorem construct {p : Process} (h : Layered own p.fds xs) (hone : own.file 1 ≠ none) :
    Layered own (StdoutSilencer.construct p).2.fds ((StdoutSilencer.construct p).1 :: xs) := by
  obtain ⟨f, hf⟩ := Option.ne_none_iff_exists'.mp (h.one_open hone)
  exact .cons h (StdoutSilencer.saved_free p) (StdoutSilencer.devnull_free hf)
    (StdoutSilencer.devnull_ne_saved hf) (StdoutSilencer.file_construct p)

theorem destruct {x : StdoutSilencer} (h : Layered own fds (x :: xs)) (hone : own.file 1 ≠ none) :
    Layered own (x.restore fds) xs := by
  cases h with
  | @cons _ below _ _ h hsaved hdevnull hne hfds =>
    have hopen := h.one_open hone
    have hsaved₁ : x.saved ≠ 1 := fun he => hopen (by rwa [← he])
    refine h.congr fun i => ?_
    rw [StdoutSilencer.file_restore]
    by_cases his : i = x.saved
    · rw [if_pos his, his, hsaved]
    · by_cases hid : i = x.devnull
      · rw [if_neg his, if_pos hid, hid, hdevnull]
      · rw [if_neg his, if_neg hid, hfds, hfds]
        by_cases hi : i = 1
        · rw [if_pos hi, if_neg hsaved₁, if_neg hne.symm, if_pos rfl, hi]
        · rw [if_neg hi, if_neg hi, if_neg hid, if_neg his]

theorem file_own (h : Layered own fds xs) {fd : Nat} (hfd : fd ≠ 1) (hown : own.file fd ≠ none) :
    fds.file fd = own.file fd := by
  induction h with
  | nil h => exact h fd
  | @cons fds below x xs _ hsaved hdevnull _ hfile ih =>
    have hbelow : below.file fd ≠ none := by rwa [ih]
    have hs : fd ≠ x.saved := fun he => hbelow (by rwa [he])
    have hd : fd ≠ x.devnull := fun he => hbelow (by rwa [he])
    rw [hfile, if_neg hfd, if_neg hd, if_neg hs, ih]

/-- What the other code does to a descriptor that no silencer holds. -/
theorem put (h : Layered own fds xs) (hone : own.file 1 ≠ none) {fd : Nat} (hfd : fd ≠ 1)
    (hfree : fds.file fd = none ∨ own.file fd ≠ none) (g : Option File) :
    Layered (own.put fd g) (fds.put fd g) xs := by
  induction h with
  | nil h =>
    refine .nil fun i => ?_
    rw [Fds.file_put, Fds.file_put, h i]
  | @cons fds below x xs h hsaved hdevnull hne hfile ih =>
    have hopen := h.one_open hone
    -- the silencer holds its descriptors in `fds`, and the other code does not have them below
    have hheld : fd ≠ x.devnull ∧ fd ≠ x.saved := by
      rcases hfree with hnone | hown
      · rw [hfile, if_neg hfd] at hnone
        refine ⟨fun he => ?_, fun he => ?_⟩
        · rw [if_pos he] at hnone
          cases hnone
        · rw [if_neg (fun hd => hne (hd.symm.trans he)), if_pos he] at hnone
          exact hopen hnone
      · rw [← h.file_own hfd hown] at hown
        exact ⟨fun he => hown (by rwa [he]), fun he => hown (by rwa [he])⟩
    obtain ⟨hd, hs⟩ := hheld
    have hbelow : below.file fd = none ∨ own.file fd ≠ none := by
      refine hfree.imp_left fun hnone => ?_
      rwa [hfile, if_neg hfd, if_neg hd, if_neg hs] at hnone
    refine .cons (ih hbelow) ?_ ?_ hne fun i => ?_
    · rw [Fds.file_put, if_neg hs.symm, hsaved]
    · rw [Fds.file_put, if_neg hd.symm, hdevnull]
    · rw [Fds.file_put, Fds.file_put, Fds.file_put, if_neg hfd.symm, hfile]
      by_cases hi : i = fd
      · rw [if_pos hi, if_pos hi, hi, if_neg hfd, if_neg hd, if_neg hs]
      · rw [if_neg hi, if_neg hi]

/-- Each silencer that is alive takes two descriptors. -/
theorem opened_card (h : Layered own fds xs) (hone : own.file 1 ≠ none) :
    fds.opened.card = own.opened.card + 2 * xs.length := by
  induction h with
  | @nil fds h =>
    have heq : fds.opened = own.opened := by
      ext fd
      rw [Fds.mem_opened, Fds.mem_opened, h]
    rw [heq]
    rfl
  | @cons fds below x xs h hsaved hdevnull hne hfile ih =>
    have hopen := h.one_open hone
    have heq : fds.opened = insert x.devnull (insert x.saved below.opened) := by
      ext fd
      rw [Finset.mem_insert, Finset.mem_insert, Fds.mem_opened, Fds.mem_opened, hfile]
      by_cases h1 : fd = 1
      · rw [if_pos h1, h1]
        exact iff_of_true (by simp) (Or.inr (Or.inr hopen))
      · by_cases hd : fd = x.devnull
        · rw [if_neg h1, if_pos hd]
          exact iff_of_true (by simp) (Or.inl hd)
        · by_cases hs : fd = x.saved
          · rw [if_neg h1, if_neg hd, if_pos hs]
            exact iff_of_true hopen (Or.inr (Or.inl hs))
          · simp [h1, hd, hs]
    have hs : x.saved ∉ below.opened := fun hmem => Fds.mem_opened.mp hmem hsaved
    have hd : x.devnull ∉ insert x.saved below.opened := by
      rw [Finset.mem_insert, not_or]
      exact ⟨hne, fun hmem => Fds.mem_opened.mp hmem hdevnull⟩
    rw [heq, Finset.card_insert_of_notMem hd, Finset.card_insert_of_notMem hs, ih,
      List.length_cons]
    omega

end Layered

namespace Tracked

/-- Stdout is open on `f` for the other code, and the silencers are layers over what it has. -/
def Kept (f : File) (t : Tracked) : Prop :=
  t.own.file 1 = some f ∧ Layered t.own t.silenced.process.fds t.silenced.alive

theorem Kept.one {f : File} {t : Tracked} (h : t.Kept f) : t.own.file 1 ≠ none := by
  rw [h.1]
  simp

theorem Kept.step {f : File} {t t' : Tracked} (h : t.Kept f) (hstep : Step t t') : t'.Kept f := by
  have hone := h.one
  obtain ⟨hf, hlayered⟩ := h
  cases hstep with
  | stdout t e =>
    refine ⟨hf, ?_⟩
    obtain ⟨⟨p, alive⟩, own⟩ := t
    cases e with
    | write bytes => exact hlayered
    | flush n => exact hlayered
    | construct => exact hlayered.construct hone
    | destruct =>
      cases alive with
      | nil => exact hlayered
      | cons x xs => exact hlayered.destruct hone
  | openFile p alive own g =>
    have hfree : p.fds.free ≠ 1 := by
      intro he
      apply hlayered.one_open hone
      rw [← he, Fds.file_free]
    refine ⟨?_, hlayered.put hone hfree (Or.inl p.fds.file_free) (some g)⟩
    rw [Fds.file_put, if_neg hfree.symm]
    exact hf
  | close p alive own hown hfd =>
    refine ⟨?_, hlayered.put hone hfd (Or.inr hown) none⟩
    rw [Fds.file_close, if_neg hfd.symm]
    exact hf

theorem Kept.run {f : File} {t t' : Tracked} (h : t.Kept f)
    (hrun : Relation.ReflTransGen Step t t') : t'.Kept f := by
  induction hrun with
  | refl => exact h
  | tail _ hstep ih => exact ih.step hstep

/-- However the silencers' lifetimes lie among what other code opens and closes, that code keeps
its descriptors, and stdout is on the null device exactly while a silencer is alive. Each such
silencer holds two descriptors more, and when none is alive no descriptor is left over or
missing. -/
theorem descriptors_kept {fds : Fds} {f : File} (hf : fds.file 1 = some f) {t : Tracked}
    (hrun : Relation.ReflTransGen Step (start fds) t) :
    t.silenced.process.fds.file 1 =
        (if t.silenced.alive = [] then some f else some .devNull) ∧
      (∀ fd, fd ≠ 1 → t.own.file fd ≠ none →
        t.silenced.process.fds.file fd = t.own.file fd) ∧
      t.silenced.process.fds.opened.card =
        t.own.opened.card + 2 * t.silenced.alive.length ∧
      (t.silenced.alive = [] → ∀ fd, t.silenced.process.fds.file fd = t.own.file fd) := by
  have hstart : (start fds).Kept f := ⟨hf, .nil fun _ => rfl⟩
  have hone := (hstart.run hrun).one
  obtain ⟨hown, hlayered⟩ := hstart.run hrun
  refine ⟨?_, fun fd hfd ho => hlayered.file_own hfd ho, hlayered.opened_card hone, ?_⟩
  · rw [hlayered.file_one, hown]
  · intro hnil
    rw [hnil] at hlayered
    cases hlayered with
    | nil h => exact h

/-- A silencer, and a file that is opened under it and still open after it. -/
theorem interleaved_kept :
    ∃ t, Relation.ReflTransGen Step (start [none, some .original]) t ∧
      t.silenced.alive = [] ∧ t.own.file 3 = some (.other 7) ∧
      ∀ fd, t.silenced.process.fds.file fd = t.own.file fd := by
  have hrun := ((Relation.ReflTransGen.single
    (Step.stdout (start [none, some .original]) .construct)).tail
      (Step.openFile _ _ _ (.other 7))).tail (Step.stdout _ .destruct)
  exact ⟨_, hrun, rfl, rfl, (descriptors_kept (f := .original) rfl hrun).2.2.2 rfl⟩

end Tracked

end Kompyle
