/-
# `Mavros.Lib.Flow` — walks and dominance in a control-flow graph

A walk is the list of nodes visited so far, the latest first; a node dominates
another when every walk to the second visits it.  What a rewriting by dominance rests
on is `Dominates.notMem_recent`: after the latest visit of a dominator, no node can be
visited that was reachable before the dominator's first visit.

## What is proved

* `Walk.suffix`, `Walk.splice`, `exists_recent`, `exists_older`: walks are cut at a
  visit, the latest or the first, and continued by other walks that meet them there.
* `Dominates.refl`, `Dominates.trans`, `Dominates.antisymm`: dominance orders the reachable
  nodes.
* `Dominates.notMem_recent` and its form for two dominators.

## What it is for

A value that a dominator has computed is still the value when the node runs that it dominates,
in spite of loops: the definition may have been executed again since, but only together with
everything the walk has visited after it.  The lemmas speak about the part of a walk since the
latest visit for that reason.
-/
import Mathlib.Data.List.Basic
import Mathlib.Tactic.Common

namespace Mavros.Lib

variable {β : Type*} {entry : β} {edge : β → β → Prop}

/-- The nodes visited on a way from the entry, the latest first. -/
inductive Walk (entry : β) (edge : β → β → Prop) : List β → Prop
  | start : Walk entry edge [entry]
  | step {a b : β} {hist : List β} :
      Walk entry edge (a :: hist) → edge a b → Walk entry edge (b :: a :: hist)

/-- Some walk ends at the node. -/
def Reachable (entry : β) (edge : β → β → Prop) (b : β) : Prop :=
  ∃ hist, Walk entry edge (b :: hist)

/-- Every walk that ends at `b` visits `a`. -/
def Dominates (entry : β) (edge : β → β → Prop) (a b : β) : Prop :=
  ∀ hist, Walk entry edge (b :: hist) → a ∈ b :: hist

namespace Walk

theorem tail {a b : β} {hist : List β} (h : Walk entry edge (b :: a :: hist)) :
    Walk entry edge (a :: hist) := by
  cases h with
  | step h _ => exact h

theorem edge_of {a b : β} {hist : List β} (h : Walk entry edge (b :: a :: hist)) :
    edge a b := by
  cases h with
  | step _ h => exact h

/-- What was visited up to some moment is a walk. -/
theorem suffix {recent : List β} {d : β} {older : List β}
    (h : Walk entry edge (recent ++ d :: older)) : Walk entry edge (d :: older) := by
  induction recent with
  | nil => exact h
  | cons b recent ih =>
    refine ih ?_
    cases hrest : recent ++ d :: older with
    | nil => simp at hrest
    | cons a rest =>
      rw [List.cons_append, hrest] at h
      exact h.tail

/-- A walk goes on from a node as any other walk does that reached the node, wherever that
one started. -/
theorem splice {start : β} {recent : List β} {d : β} {older older' : List β}
    (h : Walk start edge (recent ++ d :: older)) (h' : Walk entry edge (d :: older')) :
    Walk entry edge (recent ++ d :: older') := by
  induction recent with
  | nil => exact h'
  | cons b recent ih =>
    cases recent with
    | nil => exact h'.step h.edge_of
    | cons a recent => exact (ih h.tail).step h.edge_of

end Walk

/-- A walk is cut at the latest visit of a node. -/
theorem exists_recent {t : β} {hist : List β} (h : t ∈ hist) :
    ∃ recent older, hist = recent ++ t :: older ∧ t ∉ recent := by
  induction hist with
  | nil => simp at h
  | cons b hist ih =>
    by_cases hb : t = b
    · exact ⟨[], hist, by simp [hb], by simp⟩
    · obtain ⟨recent, older, rfl, hnot⟩ := ih (by simpa [hb] using h)
      exact ⟨b :: recent, older, rfl, by simp [hb, hnot]⟩

/-- A walk is cut at the first visit of a node. -/
theorem exists_older {t : β} {hist : List β} (h : t ∈ hist) :
    ∃ recent older, hist = recent ++ t :: older ∧ t ∉ older := by
  induction hist with
  | nil => simp at h
  | cons b hist ih =>
    by_cases ht : t ∈ hist
    · obtain ⟨recent, older, rfl, hnot⟩ := ih ht
      exact ⟨b :: recent, older, rfl, hnot⟩
    · obtain rfl : t = b := by simpa [ht] using h
      exact ⟨[], hist, rfl, ht⟩

/-- A node that some walk reaches without the dominator `t` is not visited after the
latest visit of `t`. -/
theorem Dominates.notMem_recent {t b d : β} {recent older hist' : List β}
    (hdom : Dominates entry edge t b) (h : Walk entry edge (recent ++ t :: older))
    (hb : (recent ++ t :: older).head? = some b) (ht : t ∉ recent)
    (h' : Walk entry edge (d :: hist')) (ht' : t ∉ d :: hist') : d ∉ recent := by
  intro hd
  obtain ⟨late, early, rfl⟩ := List.append_of_mem hd
  have hwalk : Walk entry edge (late ++ d :: hist') :=
    Walk.splice (by simpa [List.append_assoc] using h) h'
  have htlate : t ∉ late := fun hm => ht (List.mem_append_left _ hm)
  cases late with
  | nil =>
    obtain rfl : d = b := by simpa using hb
    exact ht' (hdom hist' hwalk)
  | cons a late =>
    obtain rfl : a = b := by simpa using hb
    have hm : t ∈ (a :: late) ++ d :: hist' := hdom _ hwalk
    rcases List.mem_append.mp hm with hm | hm
    · exact htlate hm
    · exact ht' hm

theorem Dominates.refl (a : β) : Dominates entry edge a a := fun _ _ => List.mem_cons_self

theorem Dominates.trans {a b c : β} (h : Dominates entry edge a b)
    (h' : Dominates entry edge b c) : Dominates entry edge a c := by
  intro hist hwalk
  obtain ⟨recent, older, hcut, -⟩ := exists_recent (h' hist hwalk)
  rw [hcut] at hwalk ⊢
  exact List.mem_append_right _ (h older hwalk.suffix)

/-- Two different reachable nodes do not dominate each other. -/
theorem Dominates.antisymm {a b : β} (hb : Reachable entry edge b)
    (h : Dominates entry edge a b) (h' : Dominates entry edge b a) : a = b := by
  obtain ⟨hist, hwalk⟩ := hb
  -- the first visit of `b` has seen `a`, the first visit of `a` has seen `b`
  obtain ⟨_, early, hcut, hearly⟩ := exists_older (t := b) List.mem_cons_self
  rw [hcut] at hwalk
  have hmem := h early hwalk.suffix
  by_contra hne
  have ha : a ∈ early := by simpa [hne] using hmem
  obtain ⟨mid, back, rfl⟩ := List.append_of_mem ha
  have hlast : Walk entry edge ((b :: mid) ++ a :: back) := hwalk.suffix
  have hback := h' back hlast.suffix
  exact hearly (List.mem_append_right _ hback)

theorem Dominates.reachable {a b : β} (hb : Reachable entry edge b)
    (h : Dominates entry edge a b) : Reachable entry edge a := by
  obtain ⟨hist, hwalk⟩ := hb
  obtain ⟨recent, older, hcut⟩ := List.append_of_mem (h hist hwalk)
  rw [hcut] at hwalk
  exact ⟨older, hwalk.suffix⟩

/-- A dominator of the dominator `t` is not visited after the latest visit of `t`. -/
theorem Dominates.notMem_recent_of_dominates {t b d : β} {recent older : List β}
    (hdt : Dominates entry edge d t) (hne : d ≠ t) (htb : Dominates entry edge t b)
    (h : Walk entry edge (recent ++ t :: older)) (hb : (recent ++ t :: older).head? = some b)
    (ht : t ∉ recent) : d ∉ recent := by
  obtain ⟨late, early, hcut, hearly⟩ :=
    exists_older (List.mem_append_right recent (@List.mem_cons_self _ t older))
  have hwalk := h
  rw [hcut] at hwalk
  have hd : d ∈ early := by simpa [hne] using hdt early hwalk.suffix
  obtain ⟨mid, back, rfl⟩ := List.append_of_mem hd
  have hlast : Walk entry edge ((t :: mid) ++ d :: back) := hwalk.suffix
  refine htb.notMem_recent h hb ht hlast.suffix ?_
  exact fun hm => hearly (List.mem_append_right _ hm)

end Mavros.Lib
