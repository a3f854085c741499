import Mathlib.Data.List.Basic

namespace Kompyle

/-- What a file descriptor can be open on. -/
inductive File
  | original
  | devNull
  | other (n : Nat)
  deriving DecidableEq, Repr

/-- The table of open descriptors; those beyond its end are not open. -/
abbrev Fds := List (Option File)

namespace Fds

def file (fds : Fds) (fd : Nat) : Option File := (fds[fd]?).getD none

def put (fds : Fds) (fd : Nat) (f : Option File) : Fds :=
  (fds ++ List.replicate (fd + 1 - fds.length) none).set fd f

/-- The lowest descriptor that is not open. -/
def free (fds : Fds) : Nat := fds.idxOf none

def dup (fds : Fds) (fd : Nat) : Nat × Fds := (fds.free, fds.put fds.free (fds.file fd))

/-- `open` on a file. -/
def openFile (fds : Fds) (f : File) : Nat × Fds := (fds.free, fds.put fds.free (some f))

def dup2 (fds : Fds) (old new : Nat) : Fds := fds.put new (fds.file old)

def close (fds : Fds) (fd : Nat) : Fds := fds.put fd none

theorem file_put (fds : Fds) (fd : Nat) (f : Option File) (i : Nat) :
    (fds.put fd f).file i = if i = fd then f else fds.file i := by
  have hlen : fd < (fds ++ List.replicate (fd + 1 - fds.length) none).length := by
    rw [List.length_append, List.length_replicate]
    omega
  unfold put file
  by_cases hi : i = fd
  · subst hi
    rw [List.getElem?_set_self hlen, if_pos rfl]
    rfl
  · rw [List.getElem?_set_ne (Ne.symm hi), if_neg hi]
    by_cases hlt : i < fds.length
    · rw [List.getElem?_append_left hlt]
    · have hge : fds.length ≤ i := by omega
      rw [List.getElem?_append_right hge, List.getElem?_replicate,
        List.getElem?_eq_none hge]
      split <;> rfl

theorem file_free (fds : Fds) : fds.file fds.free = none := by
  unfold file free
  by_cases hmem : none ∈ fds
  · have hlt := List.idxOf_lt_length_of_mem hmem
    rw [List.getElem?_eq_getElem hlt, List.getElem_idxOf hlt]
    rfl
  · rw [List.idxOf_eq_length hmem, List.getElem?_eq_none (Nat.le_refl _)]
    rfl

theorem file_dup (fds : Fds) (fd i : Nat) :
    (fds.dup fd).2.file i = if i = fds.free then fds.file fd else fds.file i := file_put _ _ _ i

theorem file_openFile (fds : Fds) (f : File) (i : Nat) :
    (fds.openFile f).2.file i = if i = fds.free then some f else fds.file i := file_put _ _ _ i

theorem file_dup2 (fds : Fds) (old new i : Nat) :
    (fds.dup2 old new).file i = if i = new then fds.file old else fds.file i := file_put _ _ _ i

theorem file_close (fds : Fds) (fd i : Nat) :
    (fds.close fd).file i = if i = fd then none else fds.file i := file_put _ _ _ i

theorem ne_free {fds : Fds} {fd : Nat} {f : File} (h : fds.file fd = some f) : fd ≠ fds.free := by
  intro he
  rw [he, file_free] at h
  cases h

end Fds

/-- C's stdout, in front of descriptor 1, and what the original stdout has got so far. -/
structure Process where
  fds : Fds
  buffer : List UInt8
  received : List UInt8
  deriving DecidableEq, Repr

namespace Process

/-- The first `n` buffered bytes go where descriptor 1 is open on. -/
def flush (p : Process) (n : Nat) : Process :=
  { p with
    buffer := p.buffer.drop n
    received := if p.fds.file 1 = some .original then p.received ++ p.buffer.take n
      else p.received }

/-- `fflush(stdout)`. -/
def fflush (p : Process) : Process := p.flush p.buffer.length

def write (p : Process) (bytes : List UInt8) : Process := { p with buffer := p.buffer ++ bytes }

end Process

structure StdoutSilencer where
  saved : Nat
  devnull : Nat
  deriving DecidableEq, Repr

namespace StdoutSilencer

/-- StdoutSilencer::StdoutSilencer. -/
def construct (p : Process) : StdoutSilencer × Process :=
  let (saved, fds) := p.fds.dup 1
  let (devnull, fds) := fds.openFile .devNull
  (⟨saved, devnull⟩, { p with fds := fds.dup2 devnull 1 })

def restore (x : StdoutSilencer) (fds : Fds) : Fds :=
  ((fds.dup2 x.saved 1).close x.devnull).close x.saved

/-- StdoutSilencer::~StdoutSilencer. -/
def destruct (x : StdoutSilencer) (p : Process) : Process :=
  let p := p.fflush
  { p with fds := x.restore p.fds }

end StdoutSilencer

inductive StdoutEvent
  | write (bytes : List UInt8)
  | flush (n : Nat)
  | construct
  | destruct
  deriving DecidableEq, Repr

structure Silenced where
  process : Process
  /-- The silencers that are alive, the last one constructed first. -/
  alive : List StdoutSilencer
  deriving DecidableEq, Repr

namespace Silenced

def step (s : Silenced) : StdoutEvent → Silenced
  | .write bytes => { s with process := s.process.write bytes }
  | .flush n => { s with process := s.process.flush n }
  | .construct =>
    let (x, p) := StdoutSilencer.construct s.process
    ⟨p, x :: s.alive⟩
  | .destruct =>
    match s.alive with
    | [] => s
    | x :: xs => ⟨x.destruct s.process, xs⟩

def run (s : Silenced) (es : List StdoutEvent) : Silenced := es.foldl step s

/-- What the original stdout has got in the end, after a last flush. -/
def output (s : Silenced) (es : List StdoutEvent) : List UInt8 :=
  (s.run es).process.fflush.received

/-- Before anything is written. -/
def start (fds : Fds) : Silenced := ⟨⟨fds, [], []⟩, []⟩

end Silenced

def depthAfter : Nat → StdoutEvent → Nat
  | depth, .construct => depth + 1
  | depth, .destruct => depth - 1
  | depth, _ => depth

/-- Every destruction has a silencer to destroy, and in the end all are destroyed. -/
def Nested : Nat → List StdoutEvent → Prop
  | depth, [] => depth = 0
  | depth, e :: es => (e = .destruct → 0 < depth) ∧ Nested (depthAfter depth e) es

def spoken : Nat → StdoutEvent → List UInt8
  | 0, .write bytes => bytes
  | _, _ => []

/-- The bytes written while no silencer is alive. -/
def unsilenced : Nat → List StdoutEvent → List UInt8
  | _, [] => []
  | depth, e :: es => spoken depth e ++ unsilenced (depthAfter depth e) es

/-- Whenever a silencer is constructed while none is alive, nothing is in the buffer. -/
def FlushedBefore : Silenced → List StdoutEvent → Prop
  | _, [] => True
  | s, e :: es =>
    (e = .construct → s.alive = [] → s.process.buffer = []) ∧ FlushedBefore (s.step e) es

/-- The bytes that are in the buffer when a silencer is constructed while none is alive. -/
def strandedBy (s : Silenced) (e : StdoutEvent) : Nat :=
  if e = .construct ∧ s.alive = [] then s.process.buffer.length else 0

def stranded : Silenced → List StdoutEvent → Nat
  | _, [] => 0
  | s, e :: es => strandedBy s e + stranded (s.step e) es

theorem stranded_eq_zero {s : Silenced} {es : List StdoutEvent} :
    stranded s es = 0 ↔ FlushedBefore s es := by
  induction es generalizing s with
  | nil => exact iff_of_true rfl trivial
  | cons e es ih =>
    unfold stranded FlushedBefore
    rw [Nat.add_eq_zero_iff, ih]
    refine and_congr_left' ?_
    unfold strandedBy
    by_cases h : e = .construct ∧ s.alive = []
    · rw [if_pos h, List.length_eq_zero_iff]
      exact ⟨fun hb _ _ => hb, fun hb => hb h.1 h.2⟩
    · rw [if_neg h]
      exact iff_of_true rfl fun he ha => absurd ⟨he, ha⟩ h

theorem StdoutSilencer.file_restore (x : StdoutSilencer) (fds : Fds) (i : Nat) :
    (x.restore fds).file i =
      if i = x.saved then none else if i = x.devnull then none
      else if i = 1 then fds.file x.saved else fds.file i := by
  unfold restore
  rw [Fds.file_close, Fds.file_close, Fds.file_dup2]

theorem StdoutSilencer.file_construct (p : Process) (i : Nat) :
    (construct p).2.fds.file i =
      if i = 1 then some .devNull else if i = (construct p).1.devnull then some .devNull
      else if i = (construct p).1.saved then p.fds.file 1 else p.fds.file i := by
  have hfds : (construct p).2.fds =
      ((p.fds.dup 1).2.openFile .devNull).2.dup2 (construct p).1.devnull 1 := rfl
  have hdevnull : (construct p).1.devnull = (p.fds.dup 1).2.free := rfl
  have hsaved : (construct p).1.saved = p.fds.free := rfl
  rw [hfds, Fds.file_dup2, Fds.file_openFile, hdevnull, if_pos rfl, Fds.file_openFile,
    Fds.file_dup, hsaved]

/-- The descriptors are as before once a silencer has been constructed and destroyed. -/
theorem StdoutSilencer.restore_construct {p : Process} {f : File} (h : p.fds.file 1 = some f)
    (i : Nat) :
    ((construct p).1.restore (construct p).2.fds).file i = p.fds.file i := by
  have hsaved : p.fds.file (construct p).1.saved = none := p.fds.file_free
  have hne : (construct p).1.devnull ≠ (construct p).1.saved := by
    have hopen : (p.fds.dup 1).2.file p.fds.free = some f := by
      rw [Fds.file_dup, if_pos rfl, h]
    exact (Fds.ne_free hopen).symm
  have hdevnull : p.fds.file (construct p).1.devnull = none := by
    have hfree : (p.fds.dup 1).2.file (construct p).1.devnull = none :=
      (p.fds.dup 1).2.file_free
    rw [Fds.file_dup] at hfree
    exact (if_neg hne).symm.trans hfree
  have hone : (construct p).1.saved ≠ 1 := (Fds.ne_free h).symm
  rw [file_restore]
  by_cases his : i = (construct p).1.saved
  · rw [if_pos his, his, hsaved]
  · by_cases hid : i = (construct p).1.devnull
    · rw [if_neg his, if_pos hid, hid, hdevnull]
    · rw [if_neg his, if_neg hid, file_construct, file_construct]
      by_cases hi : i = 1
      · rw [if_pos hi, if_neg hone, if_neg hne.symm, if_pos rfl, hi]
      · rw [if_neg hi, if_neg hi, if_neg hid, if_neg his]

/-- Descriptor 1 is open on the null device while a silencer is alive, and on the original stdout
again when those that are alive have been destroyed. -/
def Restores : Fds → List StdoutSilencer → Prop
  | fds, [] => fds.file 1 = some .original
  | fds, x :: xs => fds.file 1 = some .devNull ∧ Restores (x.restore fds) xs

theorem Restores.congr {fds fds' : Fds} {xs : List StdoutSilencer} (h : Restores fds xs)
    (hfile : ∀ i, fds'.file i = fds.file i) : Restores fds' xs := by
  induction xs generalizing fds fds' with
  | nil => exact (hfile 1).trans h
  | cons x xs ih =>
    refine ⟨(hfile 1).trans h.1, ih h.2 fun i => ?_⟩
    rw [StdoutSilencer.file_restore, StdoutSilencer.file_restore, hfile, hfile]

theorem Restores.file_one {fds : Fds} {xs : List StdoutSilencer} (h : Restores fds xs) :
    fds.file 1 = some .original ↔ xs = [] := by
  cases xs with
  | nil => exact iff_of_true h rfl
  | cons x xs =>
    refine iff_of_false ?_ (by simp)
    rw [h.1]
    simp

theorem Restores.construct {p : Process} {xs : List StdoutSilencer} (h : Restores p.fds xs) :
    Restores (StdoutSilencer.construct p).2.fds ((StdoutSilencer.construct p).1 :: xs) := by
  have hopen : ∃ f, p.fds.file 1 = some f := by
    cases xs with
    | nil => exact ⟨_, h⟩
    | cons x xs => exact ⟨_, h.1⟩
  obtain ⟨f, hf⟩ := hopen
  refine ⟨?_, h.congr (StdoutSilencer.restore_construct hf)⟩
  rw [StdoutSilencer.file_construct, if_pos rfl]

namespace Silenced

def Inv (s : Silenced) : Prop := Restores s.process.fds s.alive

theorem Inv.step {s : Silenced} (h : s.Inv) (e : StdoutEvent) : (s.step e).Inv := by
  cases e with
  | write bytes => exact h
  | flush n => exact h
  | construct => exact Restores.construct h
  | destruct =>
    obtain ⟨p, alive⟩ := s
    cases alive with
    | nil => exact h
    | cons x xs => exact h.2

theorem alive_step (s : Silenced) (e : StdoutEvent) :
    (s.step e).alive.length = depthAfter s.alive.length e := by
  cases e with
  | write bytes => rfl
  | flush n => rfl
  | construct => rfl
  | destruct =>
    obtain ⟨p, alive⟩ := s
    cases alive with
    | nil => rfl
    | cons x xs => rfl

/-- What the original stdout has, or gets with the next flush. -/
def bound (s : Silenced) : List UInt8 :=
  s.process.received ++ if s.alive = [] then s.process.buffer else []

theorem bound_nil {s : Silenced} (h : s.alive = []) :
    s.bound = s.process.received ++ s.process.buffer := by
  rw [bound, if_pos h]

theorem bound_cons {s : Silenced} (h : s.alive ≠ []) : s.bound = s.process.received := by
  rw [bound, if_neg h, List.append_nil]

theorem received_flush {s : Silenced} (hs : s.Inv) (n : Nat) :
    (s.process.flush n).received =
      s.process.received ++ if s.alive = [] then s.process.buffer.take n else [] := by
  have hone : s.process.fds.file 1 = some .original ↔ s.alive = [] := hs.file_one
  unfold Process.flush
  by_cases h : s.alive = []
  · rw [if_pos h, if_pos (hone.mpr h)]
  · rw [if_neg h, if_neg fun hf => h (hone.mp hf), List.append_nil]

theorem bound_write (s : Silenced) (bytes : List UInt8) :
    (s.step (.write bytes)).bound = s.bound ++ spoken s.alive.length (.write bytes) := by
  by_cases h : s.alive = []
  · have h' : (s.step (.write bytes)).alive = [] := h
    rw [bound_nil h', bound_nil h, h, List.append_assoc]
    rfl
  · have h' : (s.step (.write bytes)).alive ≠ [] := h
    have hlen : s.alive.length ≠ 0 := fun hl => h (List.length_eq_zero_iff.mp hl)
    obtain ⟨depth, hdepth⟩ := Nat.exists_eq_succ_of_ne_zero hlen
    rw [bound_cons h', bound_cons h, hdepth]
    exact (List.append_nil _).symm

theorem bound_flush {s : Silenced} (hs : s.Inv) (n : Nat) :
    (s.step (.flush n)).bound = s.bound := by
  have hreceived := received_flush hs n
  by_cases h : s.alive = []
  · have h' : (s.step (.flush n)).alive = [] := h
    rw [if_pos h] at hreceived
    rw [bound_nil h', bound_nil h]
    show (s.process.flush n).received ++ s.process.buffer.drop n = _
    rw [hreceived, List.append_assoc, List.take_append_drop]
  · have h' : (s.step (.flush n)).alive ≠ [] := h
    rw [if_neg h, List.append_nil] at hreceived
    rw [bound_cons h', bound_cons h]
    exact hreceived

/-- What is in the buffer when the first silencer is constructed is not received any more. -/
theorem bound_construct (s : Silenced) : (s.step .construct).bound = s.process.received :=
  bound_cons (List.cons_ne_nil _ _)

theorem bound_destruct {s : Silenced} (hs : s.Inv) : (s.step .destruct).bound = s.bound := by
  obtain ⟨p, alive⟩ := s
  cases alive with
  | nil => rfl
  | cons x xs =>
    have hflushed := received_flush hs p.buffer.length
    rw [if_neg (List.cons_ne_nil x xs), List.append_nil] at hflushed
    have hempty : (x.destruct p).buffer = [] := List.drop_length
    have hbefore : bound ⟨p, x :: xs⟩ = p.received := bound_cons (List.cons_ne_nil x xs)
    have hafter : bound ⟨x.destruct p, xs⟩ = (x.destruct p).received := by
      rw [bound, hempty, ite_self, List.append_nil]
    rw [hbefore]
    exact hafter.trans hflushed

theorem bound_step {s : Silenced} (hs : s.Inv) (e : StdoutEvent)
    (he : e = .construct → s.alive = [] → s.process.buffer = []) :
    (s.step e).bound = s.bound ++ spoken s.alive.length e := by
  have hquiet : spoken s.alive.length .construct = [] := by cases s.alive.length <;> rfl
  cases e with
  | write bytes => exact bound_write s bytes
  | flush n =>
    have hnone : spoken s.alive.length (.flush n) = [] := by cases s.alive.length <;> rfl
    rw [bound_flush hs, hnone, List.append_nil]
  | construct =>
    rw [bound_construct, hquiet, List.append_nil]
    by_cases h : s.alive = []
    · rw [bound_nil h, he rfl h, List.append_nil]
    · rw [bound_cons h]
  | destruct =>
    have hnone : spoken s.alive.length .destruct = [] := by cases s.alive.length <;> rfl
    rw [bound_destruct hs, hnone, List.append_nil]

theorem bound_length_step {s : Silenced} (hs : s.Inv) (e : StdoutEvent) :
    (s.step e).bound.length + strandedBy s e =
      s.bound.length + (spoken s.alive.length e).length := by
  unfold strandedBy
  by_cases h : e = .construct ∧ s.alive = []
  · obtain ⟨rfl, halive⟩ := h
    rw [if_pos ⟨rfl, halive⟩, bound_construct, bound_nil halive, List.length_append, halive]
    rfl
  · rw [if_neg h, bound_step hs e fun he ha => absurd ⟨he, ha⟩ h, List.length_append]
    rfl

theorem Inv.run {s : Silenced} (hs : s.Inv) (es : List StdoutEvent) : (s.run es).Inv := by
  induction es generalizing s with
  | nil => exact hs
  | cons e es ih => exact ih (hs.step e)

theorem alive_run {s : Silenced} {es : List StdoutEvent} (h : Nested s.alive.length es) :
    (s.run es).alive = [] := by
  induction es generalizing s with
  | nil => exact List.length_eq_zero_iff.mp h
  | cons e es ih =>
    apply ih
    rw [alive_step]
    exact h.2

theorem bound_run {s : Silenced} (hs : s.Inv) {es : List StdoutEvent} (h : FlushedBefore s es) :
    (s.run es).bound = s.bound ++ unsilenced s.alive.length es := by
  induction es generalizing s with
  | nil => exact (List.append_nil _).symm
  | cons e es ih =>
    obtain ⟨hfirst, hrest⟩ := h
    refine (ih (hs.step e) hrest).trans ?_
    rw [bound_step hs e hfirst, alive_step, List.append_assoc]
    rfl

theorem bound_length_run {s : Silenced} (hs : s.Inv) (es : List StdoutEvent) :
    (s.run es).bound.length + stranded s es =
      s.bound.length + (unsilenced s.alive.length es).length := by
  induction es generalizing s with
  | nil => rfl
  | cons e es ih =>
    have hstep := bound_length_step hs e
    have hrest := ih (hs.step e)
    rw [alive_step] at hrest
    have hrun : (s.run (e :: es)).bound = ((s.step e).run es).bound := rfl
    have hsaid : (unsilenced s.alive.length (e :: es)).length =
        (spoken s.alive.length e).length +
          (unsilenced (depthAfter s.alive.length e) es).length := List.length_append
    have hlost : stranded s (e :: es) = strandedBy s e + stranded (s.step e) es := rfl
    rw [hrun, hsaid, hlost]
    omega

theorem output_eq_bound {s : Silenced} (hs : s.Inv) {es : List StdoutEvent}
    (hes : Nested s.alive.length es) : s.output es = (s.run es).bound := by
  have halive := alive_run hes
  have hflush := received_flush (hs.run es) (s.run es).process.buffer.length
  rw [if_pos halive, List.take_length] at hflush
  rw [bound_nil halive]
  exact hflush

/-- In the end the original stdout has exactly what was written outside the silencers' lifetimes
if and only if no silencer was constructed, with none alive, over a buffer that was not empty. -/
theorem output_eq_unsilenced_iff {fds : Fds} (hfds : fds.file 1 = some .original)
    {es : List StdoutEvent} (hes : Nested 0 es) :
    (start fds).output es = unsilenced 0 es ↔ FlushedBefore (start fds) es := by
  have hs : (start fds).Inv := hfds
  rw [output_eq_bound hs hes]
  constructor
  · intro heq
    have hlength := bound_length_run hs es
    rw [heq] at hlength
    have hbound : (start fds).bound.length = 0 := rfl
    have hdepth : (start fds).alive.length = 0 := rfl
    rw [hbound, hdepth] at hlength
    exact stranded_eq_zero.mp (by omega)
  · exact fun h => bound_run hs h

def terminal : Fds := [some (.other 0), some .original, some (.other 2)]

/-- A line is flushed before one silencer around another, and one is written after them. -/
def flushedLine : List StdoutEvent :=
  [.write [72, 10], .flush 2, .construct, .write [100], .construct, .write [52], .flush 1,
    .destruct, .destruct, .write [10]]

theorem flushedLine_output :
    (start terminal).output flushedLine = [72, 10, 10] ∧
    ((start terminal).output flushedLine = unsilenced 0 flushedLine ↔
      FlushedBefore (start terminal) flushedLine) := by
  refine ⟨by decide, output_eq_unsilenced_iff rfl ?_⟩
  unfold flushedLine
  simp [Nested, depthAfter]

/-- A line is written before a silencer and not flushed. -/
def unflushedLine : List StdoutEvent := [.write [72, 10], .construct, .destruct]

theorem unflushedLine_lost :
    terminal.file 1 = some .original ∧ Nested 0 unflushedLine ∧
    (start terminal).output unflushedLine ≠ unsilenced 0 unflushedLine := by
  refine ⟨rfl, ?_, by decide⟩
  unfold unflushedLine
  simp [Nested, depthAfter]

end Silenced

end Kompyle
