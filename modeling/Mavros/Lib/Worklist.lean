/-
# `Mavros.Lib.Worklist` — a backward analysis by worklist

What holds before a node is computed from what holds before its successors.  The loop
starts at some seeds, takes a node from a queue, computes its entry anew, and queues the
node's predecessors when the entry is new or what holds before the node has changed.

Three facts carry the loop.  An entry only grows, since it was computed from entries that
only grew; an entry that is not up to date waits in the queue; and so does each predecessor
of a visited node that was not visited.  So the loop stops, and then it has visited the nodes
from which a seed is reached, and their entries solve the equations.

## What is proved

* `Inv.turn`, `Inv.turn_decreases`: one turn keeps the invariant and comes nearer to the top of
  the lattice, or to the end of the queue.
* `Problem.run_spec`: some fuel is enough.  The entries are those of the nodes that reach a
  seed, each is the right side of its equation, and each is `good`.
* `Problem.run_unique`: what the loop returns does not depend on the fuel.

## What it is not

The equations have many solutions where the graph has cycles.  That the one found is the least
is what `good` is for: with `good` the values that some path justifies, an entry is
justified by a path, and a solution is no less than what paths justify.

Nodes from which no seed is reached have no entry at all, and an analysis that reads the entry of
such a node reads nothing.
-/
import Mathlib.Algebra.BigOperators.Group.Finset.Basic
import Mathlib.Algebra.Order.BigOperators.Group.Finset
import Mathlib.Data.List.AList
import Mathlib.Data.Set.Finite.Basic
import Mathlib.Logic.Relation
import Mathlib.Order.Lattice

namespace Mavros.Lib.Worklist

open Relation (ReflTransGen)

variable {α L : Type}

/-- A graph, and what holds before a node from what holds after it. -/
structure Problem (α L : Type) where
  successors : α → List α
  predecessors : α → List α
  transfer : α → L → L

/-- What holds before and after the visited nodes. -/
abbrev Entries (α L : Type) := AList fun _ : α => L × L

variable [SemilatticeSup L] [OrderBot L]

/-- What holds after a node when `x` holds before the nodes. -/
def Problem.join (p : Problem α L) (x : α → L) (a : α) : L :=
  (p.successors a).foldl (fun out b => out ⊔ x b) ⊥

section Join

variable {p : Problem α L} {x y : α → L} {a : α}

omit [OrderBot L] in
theorem foldl_sup_mono (h : ∀ b, x b ≤ y b) : ∀ (l : List α) {s t : L}, s ≤ t →
    l.foldl (fun out b => out ⊔ x b) s ≤ l.foldl (fun out b => out ⊔ y b) t
  | [], _, _, hst => hst
  | b :: l, _, _, hst => foldl_sup_mono h l (sup_le_sup hst (h b))

theorem join_mono (h : ∀ b, x b ≤ y b) : p.join x a ≤ p.join y a :=
  foldl_sup_mono h _ le_rfl

omit [OrderBot L] in
theorem foldl_sup_congr : ∀ {l : List α} {s : L}, (∀ b ∈ l, x b = y b) →
    l.foldl (fun out b => out ⊔ x b) s = l.foldl (fun out b => out ⊔ y b) s
  | [], _, _ => rfl
  | b :: l, s, h => by
    rw [List.foldl_cons, List.foldl_cons, h b List.mem_cons_self]
    exact foldl_sup_congr fun b hb => h b (List.mem_cons_of_mem _ hb)

/-- Only the successors count. -/
theorem join_congr (h : ∀ b ∈ p.successors a, x b = y b) : p.join x a = p.join y a :=
  foldl_sup_congr h

end Join

variable [DecidableEq α]

/-- What holds before a node, nothing if it was not visited. -/
def before (e : Entries α L) (a : α) : L := ((e.lookup a).map Prod.fst).getD ⊥

namespace Problem

variable (p : Problem α L)

def after (e : Entries α L) (a : α) : L := p.join (before e) a

/-- The entry of a node, computed anew. -/
def entry (e : Entries α L) (a : α) : L × L := (p.transfer a (p.after e a), p.after e a)

variable [DecidableEq L]

/-- The nodes to be queued after a visit. -/
def wake (e : Entries α L) (a : α) : List α :=
  if e.lookup a = none ∨ before e a ≠ (p.entry e a).1 then p.predecessors a else []

/-- The loop, for so many turns. -/
def run : Nat → List α → Entries α L → Option (Entries α L)
  | 0, _, _ => none
  | _ + 1, [], e => some e
  | fuel + 1, a :: queue, e => run fuel (queue ++ p.wake e a) (e.insert a (p.entry e a))

/-- From the node a seed is reached. -/
def Reaches (seeds : List α) (a : α) : Prop :=
  ∃ s ∈ seeds, ReflTransGen (fun a b => b ∈ p.successors a) a s

end Problem

/-! ## What a turn does -/

section Turn

variable {p : Problem α L} {e : Entries α L} {a b : α}

theorem before_of_lookup {x : L × L} (h : e.lookup a = some x) : before e a = x.1 := by
  rw [before, h]
  rfl

theorem before_insert_self (x : L × L) : before (e.insert a x) a = x.1 :=
  before_of_lookup (AList.lookup_insert e)

theorem before_insert_ne (h : b ≠ a) (x : L × L) : before (e.insert a x) b = before e b := by
  rw [before, AList.lookup_insert_ne h, before]

/-- Where nothing has changed the equations are what they were. -/
theorem entry_insert_of_eq (h : before e a = (p.entry e a).1) :
    p.entry (e.insert a (p.entry e a)) = p.entry e := by
  have hsame : before (e.insert a (p.entry e a)) = before e := by
    funext b
    by_cases hb : b = a
    · subst hb
      rw [before_insert_self, h]
    · exact before_insert_ne hb _
  funext b
  rw [Problem.entry, Problem.after, hsame]
  rfl

/-- Elsewhere they depend on the successors. -/
theorem entry_insert_of_notMem (h : a ∉ p.successors b) :
    p.entry (e.insert a (p.entry e a)) b = p.entry e b := by
  have hsame : p.after (e.insert a (p.entry e a)) b = p.after e b := by
    refine join_congr fun c hc => before_insert_ne ?_ _
    rintro rfl
    exact h hc
  rw [Problem.entry, hsame, Problem.entry]

end Turn

/-! ## The invariant

The first two fields are the two halves of a fixed point: an entry lies below the right side of
its equation always, and equals it unless it waits.
-/

/-- The graph is given in both directions, and the equations are monotone. -/
structure Problem.WellPosed (p : Problem α L) : Prop where
  converse : ∀ a b, a ∈ p.predecessors b ↔ b ∈ p.successors a
  mono : ∀ a x y, x ≤ y → p.transfer a x ≤ p.transfer a y

/-- The loop stays among `nodes`, and what holds before them is `good`. -/
structure Inv (p : Problem α L) (nodes : Finset α) (good : α → L → Prop) (seeds queue : List α)
    (e : Entries α L) : Prop where
  grown : ∀ a x, e.lookup a = some x → x.1 ≤ (p.entry e a).1
  settled : ∀ a x, e.lookup a = some x → a ∉ queue → x = p.entry e a
  seeds : ∀ a ∈ seeds, a ∈ e ∨ a ∈ queue
  woken : ∀ a ∈ e, ∀ b ∈ p.predecessors a, b ∈ e ∨ b ∈ queue
  visited : ∀ a ∈ e, a ∈ nodes
  queued : ∀ a ∈ queue, a ∈ nodes
  good : ∀ a, good a (before e a)

section Inv

variable {p : Problem α L} {nodes : Finset α} {good : α → L → Prop} {seeds queue : List α}
  {e : Entries α L} {a : α}

/-- What holds before the node at hand does not shrink. -/
theorem Inv.le_entry (h : Inv p nodes good seeds queue e) (a : α) :
    before e a ≤ (p.entry e a).1 := by
  cases hx : e.lookup a with
  | none =>
    rw [before, hx]
    exact bot_le
  | some x =>
    rw [before_of_lookup hx]
    exact h.grown a x hx

theorem Inv.before_le (h : Inv p nodes good seeds queue e) (a b : α) :
    before e b ≤ before (e.insert a (p.entry e a)) b := by
  by_cases hb : b = a
  · subst hb
    rw [before_insert_self]
    exact h.le_entry b
  · rw [before_insert_ne hb]

theorem Inv.entry_le (h : Inv p nodes good seeds queue e) (hp : p.WellPosed) (a b : α) :
    (p.entry e b).1 ≤ (p.entry (e.insert a (p.entry e a)) b).1 :=
  hp.mono b _ _ (join_mono (h.before_le a))

variable [DecidableEq L]

/-- One turn of the loop. -/
theorem Inv.turn (h : Inv p nodes good seeds (a :: queue) e) (hp : p.WellPosed)
    (hnodes : ∀ a ∈ nodes, ∀ b ∈ p.predecessors a, b ∈ nodes)
    (hgood : ∀ x a, (∀ b, good b (x b)) → good a (p.transfer a (p.join x a))) :
    Inv p nodes good seeds (queue ++ p.wake e a) (e.insert a (p.entry e a)) := by
  have ha : a ∈ nodes := h.queued a List.mem_cons_self
  have hin : ∀ b, b ∈ e ∨ b ∈ a :: queue → b ∈ e.insert a (p.entry e a) ∨
      b ∈ queue ++ p.wake e a := by
    intro b hb
    rw [AList.mem_insert, List.mem_append]
    rcases hb with hb | hb
    · exact .inl (.inr hb)
    · rcases List.mem_cons.mp hb with rfl | hb
      · exact .inl (.inl rfl)
      · exact .inr (.inl hb)
  constructor
  case grown =>
    intro b x hx
    by_cases hb : b = a
    · subst hb
      rw [AList.lookup_insert] at hx
      obtain rfl := Option.some.inj hx
      exact h.entry_le hp b b
    · rw [AList.lookup_insert_ne hb] at hx
      exact (h.grown b x hx).trans (h.entry_le hp a b)
  case settled =>
    intro b x hx hb
    rw [List.mem_append, not_or] at hb
    have hold : x = p.entry e b := by
      by_cases hba : b = a
      · subst hba
        rw [AList.lookup_insert] at hx
        exact (Option.some.inj hx).symm
      · rw [AList.lookup_insert_ne hba] at hx
        refine h.settled b x hx fun hmem => ?_
        exact (List.mem_cons.mp hmem).elim hba hb.1
    -- the equation of `b` is the old one: nothing changed, or `b` would have been queued
    by_cases hwake : e.lookup a = none ∨ before e a ≠ (p.entry e a).1
    · rw [Problem.wake, if_pos hwake, hp.converse] at hb
      rw [hold, entry_insert_of_notMem hb.2]
    · rw [hold, entry_insert_of_eq (not_not.mp (not_or.mp hwake).2)]
  case seeds => exact fun b hb => hin b (h.seeds b hb)
  case woken =>
    intro b hb c hc
    by_cases hwake : e.lookup a = none ∨ before e a ≠ (p.entry e a).1
    · rcases (AList.mem_insert e).mp hb with rfl | hb
      · refine .inr (List.mem_append_right _ ?_)
        rwa [Problem.wake, if_pos hwake]
      · exact hin c (h.woken b hb c hc)
    · have hvisited : a ∈ e := by
        rw [← AList.lookup_isSome, Option.isSome_iff_ne_none]
        exact (not_or.mp hwake).1
      rcases (AList.mem_insert e).mp hb with rfl | hb
      · exact hin c (h.woken b hvisited c hc)
      · exact hin c (h.woken b hb c hc)
  case visited =>
    intro b hb
    rcases (AList.mem_insert e).mp hb with rfl | hb
    · exact ha
    · exact h.visited b hb
  case queued =>
    intro b hb
    rcases List.mem_append.mp hb with hb | hb
    · exact h.queued b (List.mem_cons_of_mem a hb)
    · rw [Problem.wake] at hb
      split at hb
      · exact hnodes a ha b hb
      · cases hb
  case good =>
    intro b
    by_cases hb : b = a
    · subst hb
      rw [before_insert_self]
      exact hgood _ b h.good
    · rw [before_insert_ne hb]
      exact h.good b

end Inv

/-! ## The loop stops

The lattice has a level function with a cap, as any finite one has.
-/

/-- How far the entry of a node is from the top level. -/
def deficit (level : L → Nat) (cap : Nat) (e : Entries α L) (a : α) : Nat :=
  match e.lookup a with
  | none => cap + 1
  | some x => cap - level x.1

def missing (level : L → Nat) (cap : Nat) (nodes : Finset α) (e : Entries α L) : Nat :=
  ∑ a ∈ nodes, deficit level cap e a

section Stops

variable {p : Problem α L} {nodes : Finset α} {good : α → L → Prop} {seeds queue : List α}
  {e : Entries α L} {a : α} {level : L → Nat} {cap : Nat}

omit [SemilatticeSup L] [OrderBot L] in
theorem deficit_insert_self (x : L × L) :
    deficit level cap (e.insert a x) a = cap - level x.1 := by
  rw [deficit, AList.lookup_insert]

omit [SemilatticeSup L] [OrderBot L] in
theorem missing_insert {x : L × L} (ha : a ∈ nodes) :
    missing level cap nodes (e.insert a x) + deficit level cap e a
      = missing level cap nodes e + (cap - level x.1) := by
  have hrest : ∑ b ∈ nodes.erase a, deficit level cap (e.insert a x) b
      = ∑ b ∈ nodes.erase a, deficit level cap e b := by
    refine Finset.sum_congr rfl fun b hb => ?_
    rw [deficit, AList.lookup_insert_ne (Finset.ne_of_mem_erase hb), deficit]
  rw [missing, missing, ← Finset.add_sum_erase nodes _ ha, ← Finset.add_sum_erase nodes _ ha,
    hrest, deficit_insert_self]
  omega

variable [DecidableEq L]

/-- A turn comes nearer to the top, or to the end of the queue. -/
theorem Inv.turn_decreases (h : Inv p nodes good seeds (a :: queue) e)
    (hlevel : StrictMono level) (hcap : ∀ a x, good a x → level x ≤ cap)
    (hentry : good a (p.entry e a).1) :
    missing level cap nodes (e.insert a (p.entry e a)) < missing level cap nodes e ∨
      missing level cap nodes (e.insert a (p.entry e a)) = missing level cap nodes e ∧
        p.wake e a = [] := by
  have ha : a ∈ nodes := h.queued a List.mem_cons_self
  have hmissing : missing level cap nodes (e.insert a (p.entry e a)) + deficit level cap e a
      = missing level cap nodes e + (cap - level (p.entry e a).1) := missing_insert ha
  have htop : level (p.entry e a).1 ≤ cap := hcap a _ hentry
  cases hx : e.lookup a with
  | none =>
    have hdeficit : deficit level cap e a = cap + 1 := by rw [deficit, hx]
    left
    omega
  | some x =>
    have hdeficit : deficit level cap e a = cap - level (before e a) := by
      rw [deficit, hx, before_of_lookup hx]
    by_cases hsame : before e a = (p.entry e a).1
    · right
      rw [hsame] at hdeficit
      refine ⟨by omega, ?_⟩
      rw [Problem.wake, if_neg]
      exact not_or.mpr ⟨by rw [hx]; exact Option.some_ne_none x, not_not.mpr hsame⟩
    · have hgrows : level (before e a) < level (p.entry e a).1 :=
        hlevel (lt_of_le_of_ne (h.le_entry a) hsame)
      left
      omega

/-- From a state with the invariant the loop stops, in one with the invariant. -/
theorem Inv.run (hp : p.WellPosed) (hnodes : ∀ a ∈ nodes, ∀ b ∈ p.predecessors a, b ∈ nodes)
    (hgood : ∀ x a, (∀ b, good b (x b)) → good a (p.transfer a (p.join x a)))
    (hlevel : StrictMono level) (hcap : ∀ a x, good a x → level x ≤ cap) :
    ∀ (queue : List α) (e : Entries α L), Inv p nodes good seeds queue e →
      ∃ fuel e', p.run fuel queue e = some e' ∧ Inv p nodes good seeds [] e'
  | [], e, h => ⟨1, e, rfl, h⟩
  | a :: queue, e, h => by
    have hdecreases := h.turn_decreases hlevel hcap (hgood _ a h.good)
    obtain ⟨fuel, e', hrun, h'⟩ := Inv.run hp hnodes hgood hlevel hcap
      (queue ++ p.wake e a) (e.insert a (p.entry e a)) (h.turn hp hnodes hgood)
    exact ⟨fuel + 1, e', hrun, h'⟩
termination_by queue e => (missing level cap nodes e, queue.length)
decreasing_by
  rcases hdecreases with hlt | ⟨heq, hwake⟩
  · exact Prod.Lex.left _ _ hlt
  · rw [heq, hwake, List.append_nil]
    exact Prod.Lex.right _ (Nat.lt_succ_self _)

end Stops

/-! ## What the loop computes

`WellPosed` and finiteness are hypotheses about the graph, and both hold of every function of a
program.
-/

/-- The loop stops.  It has visited the nodes from which a seed is reached, their entries
solve the equations, and what holds before each node is good. -/
theorem Problem.run_spec [DecidableEq L] {p : Problem α L} {good : α → L → Prop}
    {seeds : List α} {level : L → Nat} {cap : Nat} (hp : p.WellPosed)
    (hfinite : {a | p.Reaches seeds a}.Finite) (hbot : ∀ a, good a ⊥)
    (hgood : ∀ x a, (∀ b, good b (x b)) → good a (p.transfer a (p.join x a)))
    (hlevel : StrictMono level) (hcap : ∀ a x, good a x → level x ≤ cap) :
    ∃ fuel e, p.run fuel seeds ∅ = some e ∧ (∀ a, a ∈ e ↔ p.Reaches seeds a) ∧
      (∀ a x, e.lookup a = some x → x = p.entry e a) ∧ ∀ a, good a (before e a) := by
  have hnodes : ∀ a ∈ hfinite.toFinset, ∀ b ∈ p.predecessors a, b ∈ hfinite.toFinset := by
    intro a ha b hb
    obtain ⟨s, hs, hreach⟩ := hfinite.mem_toFinset.mp ha
    exact hfinite.mem_toFinset.mpr ⟨s, hs, .head ((hp.converse b a).mp hb) hreach⟩
  have hstart : Inv p hfinite.toFinset good seeds seeds ∅ := by
    constructor
    case grown | settled =>
      intro a x hx
      cases hx
    case seeds => exact fun a ha => .inr ha
    case woken | visited => exact fun a ha => absurd ha (AList.notMem_empty a)
    case queued => exact fun a ha => hfinite.mem_toFinset.mpr ⟨a, ha, .refl⟩
    case good => exact hbot
  obtain ⟨fuel, e, hrun, h⟩ := Inv.run hp hnodes hgood hlevel hcap seeds ∅ hstart
  refine ⟨fuel, e, hrun, fun a => ⟨fun ha => hfinite.mem_toFinset.mp (h.visited a ha), ?_⟩,
    fun a x hx => h.settled a x hx List.not_mem_nil, h.good⟩
  rintro ⟨s, hs, hreach⟩
  -- backwards along the path to the seed
  induction hreach using ReflTransGen.head_induction_on with
  | refl => exact (h.seeds s hs).resolve_right List.not_mem_nil
  | @head a b hab _ ih =>
    exact (h.woken b ih a ((hp.converse a b).mpr hab)).resolve_right List.not_mem_nil

/-- With more fuel the loop does the same. -/
theorem Problem.run_mono [DecidableEq L] {p : Problem α L} {e' : Entries α L} :
    ∀ {fuel more : Nat} {queue : List α} {e : Entries α L}, fuel ≤ more →
      p.run fuel queue e = some e' → p.run more queue e = some e'
  | 0, _, _, _, _, h => by cases h
  | fuel + 1, 0, _, _, hle, _ => absurd hle (Nat.not_succ_le_zero fuel)
  | _ + 1, _ + 1, [], _, _, h => h
  | fuel + 1, more + 1, a :: queue, e, hle, h => by
    have hrest : p.run more (queue ++ p.wake e a) (e.insert a (p.entry e a)) = some e' :=
      run_mono (Nat.le_of_succ_le_succ hle) h
    exact hrest

theorem Problem.run_unique [DecidableEq L] {p : Problem α L} {fuel fuel' : Nat} {seeds : List α}
    {e e₁ e₂ : Entries α L} (h₁ : p.run fuel seeds e = some e₁)
    (h₂ : p.run fuel' seeds e = some e₂) : e₁ = e₂ := by
  have h₁' := run_mono (Nat.le_max_left fuel fuel') h₁
  exact Option.some.inj (h₁'.symm.trans (run_mono (Nat.le_max_right fuel fuel') h₂))

end Mavros.Lib.Worklist
