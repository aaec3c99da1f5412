/-
# `Mavros.Lib.DominatorTree` — immediate dominators

The dominators of a reachable node are linearly ordered, so each node but the entry has
one that all its other strict dominators dominate.  With the nodes it dominates
immediately as children, a node has below it exactly the reachable nodes it dominates.
The second half is about leaving: read in the reversed graph, a walk is a way to the
exit, and dominance is post-dominance.

## What is proved

* `Dominates.total`, `exists_immediatelyDominates`: two dominators of a reachable node are
  comparable, and the closest strict one exists.
* `below_iff_dominates`, `nodup_preOrder`, `exhausts_length`: the tree of the immediate
  dominators has no repeated node, is no deeper than it has nodes, and its order is dominance.
* `Dominates.behind`, `Dominates.not_reachesAvoiding`: what lies behind the post-dominator of a
  branch cannot be reached from the branch around it.

## How it goes

`Dominates.of_notMem_recent` carries it: a dominator of `b` that a walk to `b` does not visit
after some visit of `a` is a dominator of `a`, for the walk can be spliced to any walk to `a`.
Of two dominators the one that a walk visits last is therefore dominated by the other, and the
strict dominator visited last of all is the immediate one.

## What it is not

There is no algorithm here.  A program that computes immediate dominators is compared with
`ImmediatelyDominates`, and its answers are then known, for there is one at most.
-/
import Mavros.Lib.Dfs
import Mavros.Lib.Flow
import Mathlib.Data.Finset.Card
import Mathlib.Data.List.Count

namespace Mavros.Lib

variable {β : Type*} {entry : β} {edge : β → β → Prop}

/-- `a` is the closest strict dominator of `b`. -/
def ImmediatelyDominates (entry : β) (edge : β → β → Prop) (a b : β) : Prop :=
  a ≠ b ∧ Dominates entry edge a b ∧
    ∀ d, d ≠ b → Dominates entry edge d b → Dominates entry edge d a

/-- A walk from some visit of a node on. -/
theorem Walk.prefix {recent older : List β} {d : β}
    (h : Walk entry edge (recent ++ d :: older)) : Walk d edge (recent ++ [d]) := by
  induction recent with
  | nil => exact .start
  | cons b recent ih =>
    cases recent with
    | nil => exact .step .start h.edge_of
    | cons a recent => exact (ih h.tail).step h.edge_of

theorem Walk.getLast {hist : List β} (h : Walk entry edge hist) :
    ∃ recent, hist = recent ++ [entry] := by
  induction h with
  | start => exact ⟨[], rfl⟩
  | @step a b hist _ _ ih =>
    obtain ⟨recent, hr⟩ := ih
    exact ⟨b :: recent, by rw [hr, List.cons_append]⟩

theorem Reachable.trans {a b : β} (h : Reachable entry edge a) (h' : Reachable a edge b) :
    Reachable entry edge b := by
  obtain ⟨older, hwalk⟩ := h
  obtain ⟨hist, hwalk'⟩ := h'
  obtain ⟨recent, hr⟩ := hwalk'.getLast
  have hjoin : Walk entry edge (recent ++ a :: older) := Walk.splice (hr ▸ hwalk') hwalk
  cases recent with
  | nil =>
    obtain rfl : b = a := (List.cons.inj hr).1
    exact ⟨_, hjoin⟩
  | cons x recent =>
    obtain rfl : b = x := (List.cons.inj hr).1
    exact ⟨_, hjoin⟩

theorem Dominates.reachable_from {a b : β} (hb : Reachable entry edge b)
    (h : Dominates entry edge a b) : Reachable a edge b := by
  obtain ⟨hist, hwalk⟩ := hb
  obtain ⟨recent, older, hcut⟩ := List.append_of_mem (h hist hwalk)
  have hw : Walk a edge (recent ++ [a]) := Walk.prefix (hcut ▸ hwalk)
  cases recent with
  | nil =>
    obtain rfl : b = a := (List.cons.inj hcut).1
    exact ⟨_, hw⟩
  | cons x recent =>
    obtain rfl : b = x := (List.cons.inj hcut).1
    exact ⟨_, hw⟩

theorem Dominates.of_entry (b : β) : Dominates entry edge entry b := by
  intro hist h
  obtain ⟨recent, hr⟩ := h.getLast
  rw [hr]
  simp

/-- Before its first visit of a node a walk has not seen what the node strictly dominates. -/
theorem Dominates.walk_avoiding {a b : β} (hb : Reachable entry edge b) (hne : a ≠ b)
    (h : Dominates entry edge a b) :
    ∃ hist, Walk entry edge (a :: hist) ∧ b ∉ a :: hist := by
  obtain ⟨hist, hwalk⟩ := hb
  obtain ⟨_, older, hcut, hnot⟩ := @exists_older _ b (b :: hist) List.mem_cons_self
  rw [hcut] at hwalk
  have ha : a ∈ older := (List.mem_cons.mp (h older hwalk.suffix)).resolve_left hne
  obtain ⟨mid, rest, rfl⟩ := List.append_of_mem ha
  have hlast : Walk entry edge ((b :: mid) ++ a :: rest) := hwalk.suffix
  exact ⟨rest, hlast.suffix, fun hm => hnot (List.mem_append_right _ hm)⟩

/-- A dominator of `b` that a walk to `b` does not visit after some visit of `a`
dominates `a`. -/
theorem Dominates.of_notMem_recent {a b d : β} {recent older : List β}
    (hd : Dominates entry edge d b) (h : Walk entry edge (recent ++ a :: older))
    (hb : (recent ++ a :: older).head? = some b) (hnot : d ∉ recent) :
    Dominates entry edge d a := by
  intro hist hwalk
  have hsplice : Walk entry edge (recent ++ a :: hist) := h.splice hwalk
  have hmem : d ∈ recent ++ a :: hist := by
    cases recent with
    | nil =>
      obtain rfl : a = b := by simpa using hb
      exact hd _ hsplice
    | cons x recent =>
      obtain rfl : x = b := by simpa using hb
      exact hd _ hsplice
  exact (List.mem_append.mp hmem).resolve_left hnot

/-- Two dominators of a reachable node are comparable. -/
theorem Dominates.total {a b c : β} (hb : Reachable entry edge b)
    (ha : Dominates entry edge a b) (hc : Dominates entry edge c b) :
    Dominates entry edge a c ∨ Dominates entry edge c a := by
  obtain ⟨hist, hwalk⟩ := hb
  -- of the two the one visited last is dominated by the other
  obtain ⟨recent, older, hcut, hnot⟩ := exists_recent (ha hist hwalk)
  by_cases hcr : c ∈ recent
  · obtain ⟨late, early, rfl⟩ := List.append_of_mem hcr
    rw [List.append_assoc] at hcut
    refine .inl (ha.of_notMem_recent (hcut ▸ hwalk) ?_ fun hm => hnot (by simp [hm]))
    exact hcut ▸ rfl
  · exact .inr (hc.of_notMem_recent (hcut ▸ hwalk) (hcut ▸ rfl) hcr)

theorem ImmediatelyDominates.unique {a a' b : β} (hb : Reachable entry edge b)
    (h : ImmediatelyDominates entry edge a b) (h' : ImmediatelyDominates entry edge a' b) :
    a = a' :=
  Dominates.antisymm (h'.2.1.reachable hb) (h'.2.2 a h.1 h.2.1) (h.2.2 a' h'.1 h'.2.1)

/-- Each reachable node but the entry has an immediate dominator: the strict dominator
that a walk to the node visits last. -/
theorem exists_immediatelyDominates {b : β} (hb : Reachable entry edge b) (hne : b ≠ entry) :
    ∃ a, ImmediatelyDominates entry edge a b := by
  classical
  obtain ⟨hist, hwalk⟩ := hb
  have hentry : entry ∈ hist :=
    (List.mem_cons.mp (Dominates.of_entry b hist hwalk)).resolve_left hne.symm
  -- the latest strict dominator on the walk
  have hlast (l : List β) (h : ∃ a ∈ l, a ≠ b ∧ Dominates entry edge a b) :
      ∃ recent a older, l = recent ++ a :: older ∧ (a ≠ b ∧ Dominates entry edge a b) ∧
        ∀ d ∈ recent, ¬ (d ≠ b ∧ Dominates entry edge d b) := by
    induction l with
    | nil => simp at h
    | cons x l ih =>
      by_cases hx : x ≠ b ∧ Dominates entry edge x b
      · exact ⟨[], x, l, rfl, hx, by simp⟩
      · obtain ⟨a, ha, hab⟩ := h
        have hal : a ∈ l := (List.mem_cons.mp ha).resolve_left fun hax => hx (hax ▸ hab)
        obtain ⟨recent, c, older, rfl, hc, hnot⟩ := ih ⟨a, hal, hab⟩
        exact ⟨x :: recent, c, older, rfl, hc, List.forall_mem_cons.mpr ⟨hx, hnot⟩⟩
  obtain ⟨recent, a, older, rfl, ⟨hab, hdom⟩, hnot⟩ :=
    hlast hist ⟨entry, hentry, hne.symm, Dominates.of_entry b⟩
  refine ⟨a, hab, hdom, fun d hdb hd => ?_⟩
  refine @Dominates.of_notMem_recent _ _ _ a b d (b :: recent) older hd hwalk rfl fun hm => ?_
  rcases List.mem_cons.mp hm with rfl | hm
  · exact hdb rfl
  · exact hnot d hm ⟨hdb, hd⟩

/-! ## The tree

The children of a node are the nodes it dominates immediately.  That the children function
lists them, and lists none twice, is a hypothesis of each lemma.
-/

section Tree

variable {children : β → List β}
  (hmem : ∀ a c, c ∈ children a ↔
    Reachable entry edge c ∧ ImmediatelyDominates entry edge a c)

include hmem

theorem dominates_of_below {a b : β} (ha : Reachable entry edge a) (h : Below children a b) :
    Reachable entry edge b ∧ Dominates entry edge a b := by
  obtain ⟨depth, h⟩ := h
  induction depth generalizing a with
  | zero => simp [preOrder] at h
  | succ depth ih =>
    rw [preOrder, List.mem_cons, List.mem_flatMap] at h
    rcases h with rfl | ⟨c, hc, hbc⟩
    · exact ⟨ha, .refl b⟩
    · obtain ⟨hcr, hac⟩ := (hmem a c).mp hc
      obtain ⟨hb, hcb⟩ := ih hcr hbc
      exact ⟨hb, hac.2.1.trans hcb⟩

theorem below_of_dominates {a b : β} (hb : Reachable entry edge b)
    (h : Dominates entry edge a b) : Below children a b := by
  obtain ⟨hist, hwalk⟩ := hb
  -- by the length of a walk: the immediate dominator is on it
  induction hn : hist.length using Nat.strongRecOn generalizing b hist with
  | _ n ih =>
    by_cases hab : a = b
    · exact ⟨1, by simp [preOrder, hab]⟩
    have hbe : b ≠ entry := by
      rintro rfl
      exact hab (Dominates.antisymm ⟨hist, hwalk⟩ h (.of_entry a))
    obtain ⟨d, hd⟩ := exists_immediatelyDominates ⟨hist, hwalk⟩ hbe
    have hdh : d ∈ hist := (List.mem_cons.mp (hd.2.1 hist hwalk)).resolve_left hd.1
    obtain ⟨recent, older, rfl⟩ := List.append_of_mem hdh
    have hwd : Walk entry edge (d :: older) := @Walk.suffix _ _ _ (b :: recent) d older hwalk
    have hlt : older.length < n := by
      simp only [List.length_append, List.length_cons] at hn
      omega
    obtain ⟨depth, hdepth⟩ := ih older.length hlt (hd.2.2 a hab h) older hwd rfl
    have hchild : b ∈ preOrder children 2 d := by
      simp only [preOrder, List.mem_cons, List.mem_flatMap]
      exact .inr ⟨b, (hmem d b).mpr ⟨⟨_, hwalk⟩, hd⟩, .inl rfl⟩
    exact ⟨depth + 2, mem_preOrder_trans hdepth hchild⟩

theorem below_iff_dominates {a b : β} (ha : Reachable entry edge a) :
    Below children a b ↔ Reachable entry edge b ∧ Dominates entry edge a b :=
  ⟨dominates_of_below hmem ha, fun h => below_of_dominates hmem h.1 h.2⟩

/-- No node occurs twice in the tree. -/
theorem nodup_preOrder (hnodup : ∀ a, (children a).Nodup) {a : β} (ha : Reachable entry edge a)
    (depth : Nat) : (preOrder children depth a).Nodup := by
  induction depth generalizing a with
  | zero => simp [preOrder]
  | succ depth ih =>
    rw [preOrder, List.nodup_cons, List.nodup_flatMap]
    refine ⟨fun hm => ?_, fun c hc => ih ((hmem a c).mp hc).1, ?_⟩
    · obtain ⟨c, hc, hac⟩ := List.mem_flatMap.mp hm
      obtain ⟨hcr, hidom⟩ := (hmem a c).mp hc
      have hca := (dominates_of_below hmem hcr ⟨depth, hac⟩).2
      exact hidom.1 (Dominates.antisymm hcr hidom.2.1 hca)
    · refine (hnodup a).imp_of_mem fun {c c'} hc hc' hne => ?_
      obtain ⟨hcr, hidom⟩ := (hmem a c).mp hc
      obtain ⟨hcr', hidom'⟩ := (hmem a c').mp hc'
      intro x hx hx'
      obtain ⟨hxr, hcx⟩ := dominates_of_below hmem hcr ⟨depth, hx⟩
      obtain ⟨-, hcx'⟩ := dominates_of_below hmem hcr' ⟨depth, hx'⟩
      -- of two children one would dominate the other, hence their parent
      rcases hcx.total hxr hcx' with h | h
      · exact hidom.1 (Dominates.antisymm hcr hidom.2.1 (hidom'.2.2 c hne h))
      · exact hidom'.1 (Dominates.antisymm hcr' hidom'.2.1 (hidom.2.2 c' hne.symm h))

/-- The tree is no deeper than a list of all nodes is long: each level leaves a node
behind that the levels below do not dominate. -/
theorem exhausts_length {nodes : List β} (hnodes : ∀ b, Reachable entry edge b → b ∈ nodes)
    {a : β} (ha : Reachable entry edge a) : Exhausts children nodes.length a := by
  classical
  let below (a : β) : Finset β :=
    nodes.toFinset.filter fun b => Reachable entry edge b ∧ Dominates entry edge a b
  have hself {a : β} (ha : Reachable entry edge a) : a ∈ below a := by
    simp [below, hnodes a ha, ha, Dominates.refl]
  have hstep {a : β} {k : Nat} (ha : Reachable entry edge a) (hk : (below a).card ≤ k) :
      Exhausts children k a := by
    induction k generalizing a with
    | zero =>
      have hpos := Finset.card_pos.mpr ⟨a, hself ha⟩
      omega
    | succ k ih =>
      intro c hc
      obtain ⟨hcr, hidom⟩ := (hmem a c).mp hc
      have hlt : (below c).card < (below a).card := by
        refine Finset.card_lt_card ⟨fun x hx => ?_, fun hsub => ?_⟩
        · simp only [below, Finset.mem_filter] at hx ⊢
          exact ⟨hx.1, hx.2.1, hidom.2.1.trans hx.2.2⟩
        · have hac := hsub (hself ha)
          simp only [below, Finset.mem_filter] at hac
          exact hidom.1 (Dominates.antisymm hcr hidom.2.1 hac.2.2)
      exact ih hcr (by omega)
  refine hstep ha ?_
  calc (below a).card ≤ nodes.toFinset.card := Finset.card_filter_le _ _
    _ ≤ nodes.length := List.toFinset_card_le nodes

end Tree

/-! ## Leaving

The graph is reversed and the entry is the exit.  A walk is then read backwards, as a way to
the exit, and the nodes it has visited are those still ahead.
-/

section Exit

variable {exit : β}

/-- From a node that a walk from `b` reaches, the way to the exit is also a way from `b`. -/
theorem Walk.back {b x : β} {recent older : List β} (h : Walk b edge (recent ++ [b]))
    (hhead : (recent ++ [b]).head? = some x) (h' : Walk exit (Function.swap edge) (x :: older)) :
    Walk exit (Function.swap edge) ((recent ++ [b]).reverse ++ older) := by
  induction recent generalizing x older with
  | nil =>
    obtain rfl : b = x := by simpa using hhead
    exact h'
  | cons y recent ih =>
    obtain rfl : y = x := by simpa using hhead
    cases hr : recent ++ [b] with
    | nil => simp at hr
    | cons a rest =>
      have hw : Walk b edge (y :: a :: rest) := by simpa [hr] using h
      have hback : Walk exit (Function.swap edge) (a :: y :: older) := h'.step hw.edge_of
      have hrec := ih (hr ▸ hw.tail) (by simp [hr]) hback
      simpa [hr] using hrec

/-- A node reached from `b` without visiting the post-dominator `m` of `b` is
post-dominated by `m` too. -/
theorem Dominates.of_walk_avoiding {b m x : β} {recent : List β}
    (hm : Dominates exit (Function.swap edge) m b) (h : Walk b edge (x :: recent))
    (hnot : m ∉ x :: recent) : Dominates exit (Function.swap edge) m x := by
  intro older hwalk
  obtain ⟨mid, hmid⟩ := h.getLast
  have hback : Walk exit (Function.swap edge) ((mid ++ [b]).reverse ++ older) :=
    Walk.back (hmid ▸ h) (by rw [← hmid]; rfl) hwalk
  rw [List.reverse_append, List.reverse_singleton, List.singleton_append, List.cons_append] at hback
  have hmem := hm _ hback
  rw [← List.cons_append, List.mem_append] at hmem
  rcases hmem with hmem | hmem
  · refine absurd ?_ hnot
    rw [hmid]
    simpa [or_comm] using hmem
  · exact List.mem_cons_of_mem _ hmem

end Exit

/-! ## Between a node and its post-dominator

Two graphs at once, the one that is run and its reversal.  `m` post-dominates `b` strictly; a
node between them is reached from `b` without visiting `m`, and a node behind is not.
-/

/-- Some way from `b` to `x` does not visit `m`. -/
def ReachesAvoiding (edge : β → β → Prop) (b m x : β) : Prop :=
  ∃ recent, Walk b edge (x :: recent) ∧ m ∉ x :: recent

/-- A node that `b` dominates and reaches only through `m` lies behind `m`. -/
theorem Dominates.behind {b m x : β} (hx : Reachable entry edge x)
    (hb : Dominates entry edge b x) (hne : b ≠ m) (h : ¬ ReachesAvoiding edge b m x) :
    Dominates entry edge b m ∧ Dominates entry edge m x := by
  -- the last visit of `b` on a walk to `x` is followed by one of `m`
  have hcut (hist : List β) (hwalk : Walk entry edge (x :: hist)) :
      ∃ late early older, x :: hist = late ++ m :: (early ++ b :: older) ∧ b ∉ late := by
    obtain ⟨recent, older, hcut, hnot⟩ := exists_recent (hb hist hwalk)
    have hm : m ∈ recent := by
      by_contra hm
      have hw : Walk b edge (recent ++ [b]) := Walk.prefix (hcut ▸ hwalk)
      cases recent with
      | nil =>
        obtain rfl : x = b := (List.cons.inj hcut).1
        exact h ⟨[], .start, by simpa using hne.symm⟩
      | cons y recent =>
        obtain rfl : x = y := (List.cons.inj hcut).1
        refine h ⟨_, hw, fun hmem => ?_⟩
        rcases List.mem_append.mp (show m ∈ (x :: recent) ++ [b] from hmem) with hr | hr
        · exact hm hr
        · exact hne (List.mem_singleton.mp hr).symm
    obtain ⟨late, early, rfl⟩ := List.append_of_mem hm
    refine ⟨late, early, older, by rw [hcut, List.append_assoc, List.cons_append], ?_⟩
    exact fun hl => hnot (List.mem_append_left _ hl)
  constructor
  · obtain ⟨hist, hwalk⟩ := hx
    obtain ⟨late, early, older, heq, hnot⟩ := hcut hist hwalk
    exact hb.of_notMem_recent (heq ▸ hwalk) (heq ▸ rfl) hnot
  · intro hist hwalk
    obtain ⟨late, early, older, heq, -⟩ := hcut hist hwalk
    rw [heq]
    simp

/-- What lies behind `m` is not reached from its strict dominator `b` without visiting it. -/
theorem Dominates.not_reachesAvoiding {b m x : β} (hx : Reachable entry edge x)
    (hb : Dominates entry edge b m) (hne : b ≠ m) (hm : Dominates entry edge m x) :
    ¬ ReachesAvoiding edge b m x := by
  rintro ⟨recent, hwalk, hnot⟩
  obtain ⟨hist, hb', hnot'⟩ := hb.walk_avoiding (hm.reachable hx) hne
  obtain ⟨mid, hmid⟩ := hwalk.getLast
  have hjoin : Walk entry edge (mid ++ b :: hist) := Walk.splice (hmid ▸ hwalk) hb'
  have hmem : m ∈ mid ++ b :: hist := by
    cases mid with
    | nil =>
      obtain rfl : x = b := (List.cons.inj hmid).1
      exact hm _ hjoin
    | cons y mid =>
      obtain rfl : x = y := (List.cons.inj hmid).1
      exact hm _ hjoin
  rcases List.mem_append.mp hmem with h | h
  · exact hnot (hmid ▸ List.mem_append_left _ h)
  · exact hnot' h

end Mavros.Lib
