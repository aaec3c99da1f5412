/-
# `Mavros.Lib.ParallelCopy` — copies made one after the other

A memory is a row of cells.  Copies of ranges of cells that run in order do what all of
them would do at once as long as none writes where another reads (`ParallelCopy`).  Copies
that do overlap are first staged in a scratch area apart from all of them, and brought to
their targets from there (`runCopies_staged`).

## What is proved

* `runCopies_frame`: a cell that no copy writes keeps what it holds.
* `ParallelCopy.run_target`: every target gets what its source held before the first copy.
* `runCopies_staged`: the detour has the effect of all copies at once with no condition on
  how sources and targets overlap.  The targets must not meet each other, and the scratch area
  must meet neither side.

## How it goes

The detour is one list of copies twice as long.  Each of its halves is a parallel copy, for the
one reads only sources and the other only the scratch area, and a copy is followed through its
own place there (`staged_place`).  A single copy of the detour does not overlap itself either
(`staged_apart`), which is what `memcpy` asks for.
-/
import Mathlib.Tactic

namespace Mavros.Lib

/-- The ranges `[p, p + m)` and `[q, q + n)` do not meet. -/
def Apart (p m q n : Nat) : Prop := p + m ≤ q ∨ q + n ≤ p

/-- A copy of `size` cells. -/
structure BlockCopy where
  size : Nat
  target : Nat
  source : Nat

section Copies

variable {α : Type*}

def BlockCopy.run (c : BlockCopy) (mem : Nat → α) : Nat → α := fun p =>
  if c.target ≤ p ∧ p < c.target + c.size then mem (c.source + (p - c.target)) else mem p

def runCopies : List BlockCopy → (Nat → α) → Nat → α
  | [], mem => mem
  | c :: cs, mem => runCopies cs (c.run mem)

/-- The copy writes the cell. -/
def BlockCopy.Writes (c : BlockCopy) (p : Nat) : Prop := c.target ≤ p ∧ p < c.target + c.size

theorem BlockCopy.run_of_not_writes {c : BlockCopy} {p : Nat} (h : ¬c.Writes p)
    (mem : Nat → α) : c.run mem p = mem p := if_neg h

theorem BlockCopy.run_target {c : BlockCopy} {i : Nat} (hi : i < c.size) (mem : Nat → α) :
    c.run mem (c.target + i) = mem (c.source + i) := by
  rw [BlockCopy.run, if_pos (by omega), Nat.add_sub_cancel_left]

theorem not_writes_of_apart {c : BlockCopy} {p n i : Nat} (h : Apart p n c.target c.size)
    (hi : i < n) : ¬c.Writes (p + i) := by
  unfold Apart at h
  unfold BlockCopy.Writes
  omega

theorem runCopies_append (cs ds : List BlockCopy) (mem : Nat → α) :
    runCopies (cs ++ ds) mem = runCopies ds (runCopies cs mem) := by
  induction cs generalizing mem with
  | nil => rfl
  | cons c cs ih => exact ih _

/-- A cell that no copy writes keeps what it holds. -/
theorem runCopies_frame {cs : List BlockCopy} {p : Nat} (h : ∀ c ∈ cs, ¬c.Writes p)
    (mem : Nat → α) : runCopies cs mem p = mem p := by
  induction cs generalizing mem with
  | nil => rfl
  | cons c cs ih =>
    rw [List.forall_mem_cons] at h
    exact (ih h.2 _).trans (BlockCopy.run_of_not_writes h.1 mem)

/-- No copy writes where another one writes, or where any copy reads. -/
structure ParallelCopy (cs : List BlockCopy) : Prop where
  targets : cs.Pairwise fun c d => Apart c.target c.size d.target d.size
  sources : ∀ c ∈ cs, ∀ d ∈ cs, Apart c.source c.size d.target d.size

theorem ParallelCopy.tail {c : BlockCopy} {cs : List BlockCopy} (h : ParallelCopy (c :: cs)) :
    ParallelCopy cs where
  targets := h.targets.of_cons
  sources d hd e he := h.sources d (List.mem_cons_of_mem _ hd) e (List.mem_cons_of_mem _ he)

/-- Every target gets what its source held before. -/
theorem ParallelCopy.run_target {cs : List BlockCopy} (h : ParallelCopy cs) {c : BlockCopy}
    (hc : c ∈ cs) {i : Nat} (hi : i < c.size) (mem : Nat → α) :
    runCopies cs mem (c.target + i) = mem (c.source + i) := by
  induction cs generalizing mem with
  | nil => simp at hc
  | cons d cs ih =>
    rcases List.mem_cons.mp hc with rfl | htail
    · have hlater : ∀ d ∈ cs, ¬d.Writes (c.target + i) := fun d hd =>
        not_writes_of_apart (List.rel_of_pairwise_cons h.targets hd) hi
      exact (runCopies_frame hlater _).trans (BlockCopy.run_target hi mem)
    · have hsource : ¬d.Writes (c.source + i) :=
        not_writes_of_apart (h.sources c hc d List.mem_cons_self) hi
      exact (ih h.tail htail _).trans (BlockCopy.run_of_not_writes hsource mem)

/-! ## The detour through a scratch area

The scratch area is filled front to back, each copy behind the one before it.
-/

/-- The copies into the scratch area from `p` on. -/
def stage : Nat → List BlockCopy → List BlockCopy
  | _, [] => []
  | p, c :: cs => ⟨c.size, p, c.source⟩ :: stage (p + c.size) cs

/-- The copies out of the scratch area from `p` on. -/
def unstage : Nat → List BlockCopy → List BlockCopy
  | _, [] => []
  | p, c :: cs => ⟨c.size, c.target, p⟩ :: unstage (p + c.size) cs

/-- The cells that the copies take in the scratch area. -/
def stagedSize (cs : List BlockCopy) : Nat := (cs.map BlockCopy.size).sum

@[simp]
theorem stagedSize_cons (c : BlockCopy) (cs : List BlockCopy) :
    stagedSize (c :: cs) = c.size + stagedSize cs := by
  simp [stagedSize]

theorem stage_within {p : Nat} {cs : List BlockCopy} {d : BlockCopy} (hd : d ∈ stage p cs) :
    p ≤ d.target ∧ d.target + d.size ≤ p + stagedSize cs ∧
      ∃ c ∈ cs, d.size = c.size ∧ d.source = c.source := by
  induction cs generalizing p with
  | nil => simp [stage] at hd
  | cons c cs ih =>
    rw [stagedSize_cons]
    rcases List.mem_cons.mp hd with rfl | hd
    · exact ⟨Nat.le_refl _, by simp only; omega, c, List.mem_cons_self, rfl, rfl⟩
    · obtain ⟨hlow, hhigh, c', hc', heq⟩ := ih hd
      exact ⟨by omega, by omega, c', List.mem_cons_of_mem _ hc', heq⟩

theorem unstage_within {p : Nat} {cs : List BlockCopy} {d : BlockCopy} (hd : d ∈ unstage p cs) :
    p ≤ d.source ∧ d.source + d.size ≤ p + stagedSize cs ∧
      ∃ c ∈ cs, d.size = c.size ∧ d.target = c.target := by
  induction cs generalizing p with
  | nil => simp [unstage] at hd
  | cons c cs ih =>
    rw [stagedSize_cons]
    rcases List.mem_cons.mp hd with rfl | hd
    · exact ⟨Nat.le_refl _, by simp only; omega, c, List.mem_cons_self, rfl, rfl⟩
    · obtain ⟨hlow, hhigh, c', hc', heq⟩ := ih hd
      exact ⟨by omega, by omega, c', List.mem_cons_of_mem _ hc', heq⟩

@[simp]
theorem length_stage (p : Nat) (cs : List BlockCopy) : (stage p cs).length = cs.length := by
  induction cs generalizing p with
  | nil => rfl
  | cons c cs ih => simp [stage, ih]

@[simp]
theorem length_unstage (p : Nat) (cs : List BlockCopy) : (unstage p cs).length = cs.length := by
  induction cs generalizing p with
  | nil => rfl
  | cons c cs ih => simp [unstage, ih]

/-- A copy passes through one place of the scratch area. -/
theorem staged_place {p : Nat} {cs : List BlockCopy} {c : BlockCopy} (hc : c ∈ cs) :
    ∃ q, ⟨c.size, q, c.source⟩ ∈ stage p cs ∧ ⟨c.size, c.target, q⟩ ∈ unstage p cs := by
  induction cs generalizing p with
  | nil => simp at hc
  | cons d cs ih =>
    rcases List.mem_cons.mp hc with rfl | hc
    · exact ⟨p, List.mem_cons_self, List.mem_cons_self⟩
    · obtain ⟨q, hstage, hunstage⟩ := ih (p := p + d.size) hc
      exact ⟨q, List.mem_cons_of_mem _ hstage, List.mem_cons_of_mem _ hunstage⟩

theorem stage_targets (p : Nat) (cs : List BlockCopy) :
    (stage p cs).Pairwise fun c d => Apart c.target c.size d.target d.size := by
  induction cs generalizing p with
  | nil => exact .nil
  | cons c cs ih => exact .cons (fun d hd => .inl (stage_within hd).1) (ih _)

theorem unstage_targets (p : Nat) {cs : List BlockCopy}
    (h : cs.Pairwise fun c d => Apart c.target c.size d.target d.size) :
    (unstage p cs).Pairwise fun c d => Apart c.target c.size d.target d.size := by
  induction cs generalizing p with
  | nil => exact .nil
  | cons c cs ih =>
    obtain ⟨hc, hcs⟩ := List.pairwise_cons.mp h
    refine .cons (fun d hd => ?_) (ih _ hcs)
    obtain ⟨-, -, c', hc', hsize, htarget⟩ := unstage_within hd
    rw [hsize, htarget]
    exact hc c' hc'

/-- No copy of the detour reads where it writes itself. -/
theorem staged_apart {p : Nat} {cs : List BlockCopy}
    (hscratch : ∀ c ∈ cs, Apart c.target c.size p (stagedSize cs) ∧
      Apart c.source c.size p (stagedSize cs)) {c : BlockCopy}
    (hc : c ∈ stage p cs ++ unstage p cs) : Apart c.source c.size c.target c.size := by
  rcases List.mem_append.mp hc with hc | hc
  · obtain ⟨hlow, hhigh, c', hc', hsize, hsource⟩ := stage_within hc
    have hapart := (hscratch c' hc').2
    unfold Apart at hapart ⊢
    omega
  · obtain ⟨hlow, hhigh, c', hc', hsize, htarget⟩ := unstage_within hc
    have hapart := (hscratch c' hc').1
    unfold Apart at hapart ⊢
    omega

/-- The detour: with targets that do not meet, and a scratch area that meets neither the
targets nor the sources, every target gets what its source held before, and only targets
and the scratch area change. -/
theorem runCopies_staged {p : Nat} {cs : List BlockCopy}
    (htargets : cs.Pairwise fun c d => Apart c.target c.size d.target d.size)
    (hscratch : ∀ c ∈ cs, Apart c.target c.size p (stagedSize cs) ∧
      Apart c.source c.size p (stagedSize cs)) (mem : Nat → α) :
    (∀ c ∈ cs, ∀ i < c.size,
      runCopies (stage p cs ++ unstage p cs) mem (c.target + i) = mem (c.source + i)) ∧
    ∀ q, (∀ c ∈ cs, ¬c.Writes q) → q < p ∨ p + stagedSize cs ≤ q →
      runCopies (stage p cs ++ unstage p cs) mem q = mem q := by
  have hin : ParallelCopy (stage p cs) := by
    refine ⟨stage_targets p cs, fun c hc d hd => ?_⟩
    obtain ⟨-, -, c', hc', hsize, hsource⟩ := stage_within hc
    obtain ⟨hlow, hhigh, -⟩ := stage_within hd
    have hapart := (hscratch c' hc').2
    unfold Apart at hapart ⊢
    omega
  have hout : ParallelCopy (unstage p cs) := by
    refine ⟨unstage_targets p htargets, fun c hc d hd => ?_⟩
    obtain ⟨hlow, hhigh, -⟩ := unstage_within hc
    obtain ⟨-, -, d', hd', hsize, htarget⟩ := unstage_within hd
    have hapart := (hscratch d' hd').1
    unfold Apart at hapart ⊢
    omega
  refine ⟨fun c hc i hi => ?_, fun q hq houtside => ?_⟩
  · obtain ⟨place, hstage, hunstage⟩ := staged_place (p := p) hc
    rw [runCopies_append]
    exact (hout.run_target hunstage hi _).trans (hin.run_target hstage hi mem)
  · rw [runCopies_append, runCopies_frame, runCopies_frame]
    · intro c hc hwrites
      obtain ⟨hlow, hhigh, -⟩ := stage_within hc
      unfold BlockCopy.Writes at hwrites
      omega
    · intro c hc hwrites
      obtain ⟨-, -, c', hc', hsize, htarget⟩ := unstage_within hc
      refine hq c' hc' ?_
      unfold BlockCopy.Writes at hwrites ⊢
      omega

end Copies

end Mavros.Lib
