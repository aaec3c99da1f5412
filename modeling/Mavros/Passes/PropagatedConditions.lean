/-
# `Mavros.Passes.PropagatedConditions` — where a propagated condition is the tested value

The pass argues from an edge (on this edge the condition is true) and rewrites by
dominance (in every block the edge's target dominates).  The run is the same as long
as the target is entered only with the condition at its bit; the target of a branch
that other edges reach too breaks this.

## What is proved

* `doRun_sameRuns`: the pass returns, and every function has the runs it had on which the tests
  hold (`TestsHoldAll`): on such a run both functions go through the same states and then do the
  same.
* `doRun_sameRuns_build`: the same on the graphs that `FlowAnalysis::run` builds, given that
  `simple_fast` computes immediate dominators.
* `ifThen_returnsZero` is the defect: a branch without an else makes the merge block a target of
  the branch, and there the condition is replaced by zero although it was one.

## How it goes

`read_fact` is the step where the tests count: the condition was at its bit when the run last
entered the dominating target, and none of the blocks since then defines it, so it is still.
A replacement may itself be tested, for constants can be conditions too; chains of replacements
have two links at most (`Replaces.two_links`) unless a block lies in the dead arms of a test of
either constant, which `NoCycle` excludes, and then the lookup panics.

`Processed` is the function while the walk over the blocks is under way, some of them rewritten;
it has the runs of the original throughout, and `doRun` is reached by induction.
-/
import Mavros.Analysis.DominanceQueries
import Mavros.Lib.Lists

namespace Mavros.ConditionPropagation

open Hlssa
open Lib (Walk Reachable Dominates exists_recent exists_older mem_of_lookup_eq_some lookup_of_mem
  mapM_eq_some)

/-! ## The replacements of a block -/

/-- Every replaced value is the condition of a fact, and its replacement is the bit. -/
def Maps (c : Constants) (facts : List Fact) (r : ValueReplacements) : Prop :=
  ∀ v w, r.lookup v = some w →
    ∃ fact ∈ facts, fact.cond = v ∧ c.table.lookup w = some (bit fact.value)

theorem insertFacts_spec {facts done : List Fact} {r : ValueReplacements} {c : Constants}
    (hwf : c.WF) (hr : Maps c done r) :
    (facts.foldl insertFact (r, c)).2.WF ∧ c.Extends (facts.foldl insertFact (r, c)).2 ∧
      Maps (facts.foldl insertFact (r, c)).2 (done ++ facts)
        (facts.foldl insertFact (r, c)).1 := by
  induction facts generalizing done r c with
  | nil => exact ⟨hwf, .refl c, by simpa using hr⟩
  | cons fact facts ih =>
    obtain ⟨hwf', hext, hid⟩ := Constants.addConst_spec hwf (bit fact.value)
    have hinsert : Maps (c.addConst (bit fact.value)).2 (done ++ [fact])
        (r.insert fact.cond (c.addConst (bit fact.value)).1) := by
      intro v w hw
      rw [ValueReplacements.lookup_insert] at hw
      split at hw
      · next hv =>
        obtain rfl := Option.some.inj hw
        exact ⟨fact, by simp, hv.symm, hid⟩
      · obtain ⟨fact', hmem, hcond, hlook⟩ := hr v w hw
        exact ⟨fact', by simp [hmem], hcond, hext.some hwf hlook⟩
    obtain ⟨hwf'', hext', hmaps⟩ := ih hwf' hinsert
    refine ⟨hwf'', hext.trans hext', ?_⟩
    rw [List.append_assoc, List.singleton_append] at hmaps
    exact hmaps

/-- The facts that hold in a block. -/
def dominatingFacts (cfg : CFG) (facts : List Fact) (b : BlockId) : List Fact :=
  facts.filter fun fact => cfg.dominates fact.target b

theorem blockReplacements_spec (cfg : CFG) (facts : List Fact) {c : Constants} (hwf : c.WF)
    (b : BlockId) :
    (blockReplacements cfg facts c b).2.WF ∧ c.Extends (blockReplacements cfg facts c b).2 ∧
      Maps (blockReplacements cfg facts c b).2 (dominatingFacts cfg facts b)
        (blockReplacements cfg facts c b).1 :=
  @insertFacts_spec _ [] [] c hwf fun v w h => by simp at h


/-! ## A tested condition where it is read

The condition on a run, and what it gives at one read.
-/

/-- The block reads `v`, or it reads a tested value whose bit is the constant `v`. -/
def Reads (cfg : CFG) (f : Function) (constants : List (ValueId × Constant)) (b : BlockId)
    (v : ValueId) : Prop :=
  ∃ block, f.block b = some block ∧ (v ∈ block.uses ∨
    ∃ fact ∈ dominatingFacts cfg (replaces f) b,
      fact.cond ∈ block.uses ∧ constants.lookup v = some (bit fact.value))

section Use

variable {V W : Type} {S : Sem V W} {f : Function} {cfg : CFG}
  {constants : List (ValueId × Constant)} {init s : State V W} {older : List (State V W)}

variable (S f cfg constants) in
/-- A condition the current block reads had its bit whenever the run entered the branch
target that dominates the block. -/
def TestsHold (s : State V W) (older : List (State V W)) : Prop :=
  ∀ fact ∈ dominatingFacts cfg (replaces f) s.block, Reads cfg f constants s.block fact.cond →
    ∀ t ∈ s :: older, t.block = fact.target →
      Env.read (S.table constants) t.env fact.cond = some (S.const (bit fact.value))

variable [DecidableEq V]

/-- The blocks between the latest entry of a dominator and now do not define a value
that was bound when the dominator was first entered. -/
theorem not_definedIn_recent (hssa : f.SingleAssignment constants) (hinit : f.Initial init)
    {recent olderB : List (State V W)} {t : State V W} {K : Env V}
    (hrun : Run S K f init (recent ++ t :: olderB))
    (hhead : (recent ++ t :: olderB).head? = some s)
    (hdom : Dominates f.entryBlock f.Edge t.block s.block)
    (hrecent : ∀ s' ∈ recent, s'.block ≠ t.block) {v : ValueId}
    (hbound : ∀ t' ∈ recent ++ t :: olderB, t'.block = t.block → ∃ x, t'.env v = some x) :
    (∀ s' ∈ recent, ¬f.DefinedIn s'.block v) ∧
      ∀ b, f.block t.block = some b → v ∉ b.instructions.flatMap OpCode.results := by
  -- where the value was bound when the target was first entered
  obtain ⟨lateB, earlyB, hcut, hearly⟩ :=
    exists_older (List.mem_map_of_mem (f := State.block) (List.mem_append_right recent
      (List.mem_cons_self (a := t) (l := olderB))))
  obtain ⟨late, rest, hall, hlate, hrest⟩ := List.map_eq_append_iff.mp hcut
  obtain ⟨first, early, rfl, hfirst, rfl⟩ := List.map_eq_cons_iff.mp hrest
  have hwalk : Walk f.entryBlock f.Edge ((recent ++ t :: olderB).map State.block) :=
    hrun.walk hinit.1
  obtain ⟨x, hx⟩ := hbound first (by rw [hall]; simp) hfirst
  have hfrom := (Run.suffix (hall ▸ hrun)).defined hinit hx
  rcases hfrom with ⟨b, hb, hparam⟩ | ⟨d, hd, hdef⟩
  · rw [hfirst] at hb
    have hdefT : f.DefinedIn t.block v := ⟨b, hb, List.mem_append_left _ hparam⟩
    refine ⟨fun s' hs' h => hrecent s' hs' (hssa.block v _ _ h hdefT), fun b' hb' hres => ?_⟩
    obtain rfl := Option.some.inj (hb.symm.trans hb')
    exact (List.nodup_append.mp (hssa.once _ _ hb)).2.2 v hparam v hres rfl
  · have hne : d.block ≠ t.block := fun h => hearly (h ▸ List.mem_map_of_mem hd)
    constructor
    · intro s' hs' h
      have hblock : s'.block = d.block := hssa.block v _ _ h hdef
      obtain ⟨mid, back, rfl⟩ := List.append_of_mem hd
      have hback : Walk f.entryBlock f.Edge (d.block :: back.map State.block) :=
        (@Run.suffix _ _ _ _ _ _ _ (late ++ first :: mid) _ _ (by
          rw [hall] at hrun
          simpa using hrun)).walk hinit.1
      have hearly' : t.block ∉ d.block :: back.map State.block := fun h =>
        hearly (by
          rw [List.map_append]
          exact List.mem_append_right _ h)
      have hnot : d.block ∉ recent.map State.block := by
        rw [List.map_append, List.map_cons] at hwalk
        refine hdom.notMem_recent hwalk ?_ ?_ hback hearly'
        · rw [← List.map_cons, ← List.map_append, List.head?_map, hhead]
          rfl
        · intro h
          obtain ⟨s', hs', heq⟩ := List.mem_map.mp h
          exact hrecent s' hs' heq
      exact hnot (hblock ▸ List.mem_map_of_mem hs')
    · intro b hb hres
      exact hne (hssa.block v _ _ hdef ⟨b, hb, List.mem_append_right _ hres⟩)

/-- Where the tests hold, the condition of a dominating fact reads as its bit all through
the block. -/
theorem read_fact (hssa : f.SingleAssignment constants) (hinit : f.Initial init)
    (hcfg : cfg.Correct f) (hrun : Run S (S.table constants) f init (s :: older))
    (hholds : TestsHold S f cfg constants s older) {fact : Fact}
    (hfact : fact ∈ dominatingFacts cfg (replaces f) s.block)
    (hreads : Reads cfg f constants s.block fact.cond) {block : Block}
    (hblock : f.block s.block = some block) {env : Env V}
    (henv : ∀ v, v ∉ block.instructions.flatMap OpCode.results → env v = s.env v) :
    Env.read (S.table constants) env fact.cond = some (S.const (bit fact.value)) := by
  have hholds := hholds fact hfact hreads
  have hdom := ((hcfg.dominates_iff _ _).mp (List.mem_filter.mp hfact).2).2
  have hmem : fact.target ∈ (s :: older).map State.block := hdom _ (hrun.walk hinit.1)
  -- the latest entry of the target
  obtain ⟨recentB, olderB, hcut, hnot⟩ := exists_recent hmem
  obtain ⟨recent, rest, hall, rfl, hrest⟩ := List.map_eq_append_iff.mp hcut
  obtain ⟨t, olderT, rfl, ht, rfl⟩ := List.map_eq_cons_iff.mp hrest
  have hread := hholds t (by rw [hall]; simp) ht
  cases hK : S.table constants fact.cond with
  | some x => simpa [Env.read, hK] using hread
  | none =>
    simp only [Env.read, hK, Option.none_or] at hread ⊢
    have hbound : ∀ t' ∈ recent ++ t :: olderT, t'.block = t.block →
        ∃ x, t'.env fact.cond = some x := by
      intro t' ht' hblock'
      have hread' := hholds t' (by rw [hall]; exact ht') (hblock'.trans ht)
      simp only [Env.read, hK, Option.none_or] at hread'
      exact ⟨_, hread'⟩
    have hrecent : ∀ s' ∈ recent, s'.block ≠ t.block := fun s' hs' h =>
      hnot (by
        rw [← ht, ← h]
        exact List.mem_map_of_mem hs')
    rw [hall] at hrun
    obtain ⟨hundef, hres⟩ := not_definedIn_recent hssa hinit hrun (by rw [← hall]; rfl)
      (ht ▸ hdom) hrecent hbound
    have hstable := hrun.stable hres hundef s (by rw [← hall]; rfl)
    have hlast : fact.cond ∉ block.instructions.flatMap OpCode.results := by
      cases recent with
      | nil =>
        obtain ⟨rfl, -⟩ := List.cons.inj hall
        exact hres block hblock
      | cons s' recent =>
        obtain ⟨rfl, -⟩ := List.cons.inj hall
        exact fun h => hundef s List.mem_cons_self ⟨block, hblock, List.mem_append_right _ h⟩
    rw [henv _ hlast, hstable]
    exact hread

end Use

/-! ## Following replacements

A lookup follows chains, so a chain has to read as its first link does.
-/

section Follow

variable {V W : Type} {S : Sem V W} {f : Function} {cfg : CFG}
  {constants : List (ValueId × Constant)}

variable (f cfg constants) in
/-- No block is in the dead arms of a test of the constant `1` and of one of the constant
`0`; there the two bits replace each other and the lookup does not end. -/
def NoCycle : Prop :=
  ∀ b, ∀ p ∈ dominatingFacts cfg (replaces f) b, ∀ q ∈ dominatingFacts cfg (replaces f) b,
    constants.lookup p.cond = some (bit false) → p.value = true →
      constants.lookup q.cond = some (bit true) → q.value = false → False

/-- The ids a function reads and tests have been handed out. -/
def UsesBelow (f : Function) (bound : Nat) : Prop :=
  ∀ b block, f.block b = some block → ∀ v ∈ block.uses, v < bound

theorem fact_cond_mem_uses (hkeys : (f.blocks.map Prod.fst).Nodup) {fact : Fact}
    (h : fact ∈ replaces f) :
    ∃ b block, f.block b = some block ∧ fact.cond ∈ block.uses := by
  obtain ⟨⟨b, block⟩, hb, hfact⟩ := List.mem_flatMap.mp h
  refine ⟨b, block, lookup_of_mem hkeys hb, ?_⟩
  simp only at hfact
  split at hfact
  · next cond ifT ifF ht =>
    have hcond : fact.cond = cond := by
      rcases List.mem_cons.mp hfact with rfl | hfact
      · rfl
      · rw [List.mem_singleton.mp hfact]
    simp [Block.uses, ht, Terminator.inputs, hcond]
  · simp at hfact

/-- What every block may replace, with the constants the pass ends with. -/
structure Replaces (c c' : Constants) (f : Function) (cfg : CFG) (b : BlockId)
    (r : ValueReplacements) : Prop where
  wf : c.WF
  wf' : c'.WF
  ext : c.Extends c'
  maps : Maps c' (dominatingFacts cfg (replaces f) b) r
  below : UsesBelow f c.nextValueId
  keys : (f.blocks.map Prod.fst).Nodup

theorem read_bit {d : Constants} {env : Env V} {v : ValueId} {value : Bool}
    (hv : d.table.lookup v = some (bit value)) :
    Env.read (S.table d.table) env v = some (S.const (bit value)) := by
  simp [Env.read, Sem.table, hv]

section Chain

variable {c c' : Constants} {b : BlockId} {r : ValueReplacements} (h : Replaces c c' f cfg b r)
include h

theorem Replaces.cond_lt {fact : Fact} (hfact : fact ∈ dominatingFacts cfg (replaces f) b) :
    fact.cond < c.nextValueId := by
  obtain ⟨b', block, hb', hmem⟩ := fact_cond_mem_uses h.keys (List.mem_filter.mp hfact).1
  exact h.below b' block hb' _ hmem

/-- A link of a chain is trivial or leads from a tested value to its bit. -/
theorem Replaces.next_cases (v : ValueId) : r.next v = v ∨
    ∃ fact ∈ dominatingFacts cfg (replaces f) b, fact.cond = v ∧
      c'.table.lookup (r.next v) = some (bit fact.value) := by
  unfold ValueReplacements.next
  cases hv : r.lookup v with
  | none => exact .inl rfl
  | some w =>
    obtain ⟨fact, hfact, hcond, hw⟩ := h.maps v w hv
    exact .inr ⟨fact, hfact, hcond, hw⟩

/-- Without a cycle the chains have two links at most. -/
theorem Replaces.two_links (hno : NoCycle f cfg c.table) (v : ValueId) :
    r.next (r.next (r.next v)) = r.next (r.next v) := by
  rcases h.next_cases v with hv | ⟨p, hp, -, hpw⟩
  · simp only [hv]
  rcases h.next_cases (r.next v) with hw | ⟨q, hq, hqv, hqw⟩
  · rw [hw, hw]
  rcases h.next_cases (r.next (r.next v)) with hu | ⟨s, hs, hsv, hsw⟩
  · exact hu
  -- three bits in a row: two neighbours are the same bit, or they alternate
  have hqc := (h.ext.lookup _ (h.cond_lt hq)).symm.trans (hqv ▸ hpw)
  have hsc := (h.ext.lookup _ (h.cond_lt hs)).symm.trans (hsv ▸ hqw)
  by_cases hsq : s.value = q.value
  · exact h.wf'.id_unique hsw (hsq ▸ hqw)
  by_cases hqp : q.value = p.value
  · have hfix := h.wf'.id_unique hqw (hqp ▸ hpw)
    rw [hfix, hfix]
  exfalso
  cases hp' : p.value with
  | false =>
    have hq' : q.value = true := by simpa [hp'] using hqp
    have hs' : s.value = false := by simpa [hq'] using hsq
    exact hno b q hq s hs (hp' ▸ hqc) hq' (hq' ▸ hsc) hs'
  | true =>
    have hq' : q.value = false := by simpa [hp'] using hqp
    have hs' : s.value = true := by simpa [hq'] using hsq
    exact hno b s hs q hq (hq' ▸ hsc) hs' (hp' ▸ hqc) hq'

theorem Replaces.getReplacement (hno : NoCycle f cfg c.table) (v : ValueId) :
    r.getReplacement v = some (r.next (r.next v)) :=
  ValueReplacements.getReplacement_of_two (h.two_links hno v)

theorem Replaces.read_eq {env : Env V} {v : ValueId} (hv : v < c.nextValueId) :
    Env.read (S.table c'.table) env v = Env.read (S.table c.table) env v := by
  simp only [Env.read, Sem.table, h.ext.lookup v hv]

/-- Where the tests hold, what replaces a value reads as the value does, all through the
block. -/
theorem Replaces.read_getReplacement (hno : NoCycle f cfg c.table)
    {env : Env V} {block : Block} (hblock : f.block b = some block)
    (hfacts : ∀ fact ∈ dominatingFacts cfg (replaces f) b, Reads cfg f c.table b fact.cond →
      Env.read (S.table c.table) env fact.cond = some (S.const (bit fact.value)))
    {v : ValueId} (hv : v ∈ block.uses) :
    Env.read (S.table c'.table) env (r.apply v) = Env.read (S.table c.table) env v := by
  rw [ValueReplacements.apply, h.getReplacement hno, Option.getD_some]
  rcases h.next_cases v with hnext | ⟨p, hp, hpv, hpw⟩
  · rw [hnext, hnext]
    exact h.read_eq (h.below b block hblock v hv)
  have hpread := hfacts p hp ⟨block, hblock, .inl (hpv ▸ hv)⟩
  rw [← hpv, hpread, hpv]
  rcases h.next_cases (r.next v) with hnext | ⟨q, hq, hqv, hqw⟩
  · rw [hnext]
    exact read_bit hpw
  -- the bit of `p` is a constant the function tests itself
  have hqc : c.table.lookup q.cond = some (bit p.value) :=
    (h.ext.lookup _ (h.cond_lt hq)).symm.trans (hqv ▸ hpw)
  have hqread := hfacts q hq ⟨block, hblock, .inr ⟨p, hp, hpv ▸ hv, hqc⟩⟩
  rw [read_bit hqw, ← hqread]
  exact read_bit hqc

end Chain

theorem Replaces.mono {c c' c'' : Constants} {b : BlockId} {r : ValueReplacements}
    (h : Replaces c c' f cfg b r) (hext : c'.Extends c'') (hwf : c''.WF) :
    Replaces c c'' f cfg b r := by
  refine ⟨h.wf, hwf, h.ext.trans hext, fun v w hw => ?_, h.below, h.keys⟩
  obtain ⟨fact, hfact, hcond, hlook⟩ := h.maps v w hw
  exact ⟨fact, hfact, hcond, hext.some h.wf' hlook⟩

end Follow

/-! ## The rewritten function

One block after the other, and the step function of the whole.
-/

section Rewritten

variable {f : Function} {cfg : CFG}

/-- The block with what it reads renamed. -/
def renameBlock (ρ : ValueId → ValueId) (block : Block) : Block :=
  { block with
    instructions := block.instructions.map (OpCode.mapInputs ρ)
    terminator := block.terminator.map (Terminator.map ρ) }

/-- A function can be walked: blocks end in a terminator whose targets are there. -/
structure Closed (f : Function) : Prop where
  entry : ∃ block, f.block f.entryBlock = some block
  ends : ∀ b block, f.block b = some block →
    ∃ t, block.terminator = some t ∧ ∀ b' ∈ t.targets, ∃ block', f.block b' = some block'

theorem Closed.reachable (h : Closed f) {b : BlockId}
    (hb : Reachable f.entryBlock f.Edge b) : ∃ block, f.block b = some block := by
  obtain ⟨hist, hwalk⟩ := hb
  cases hwalk with
  | start => exact h.entry
  | step _ hedge =>
    obtain ⟨block, t, hblock, ht, hmem⟩ := hedge
    obtain ⟨t', ht', htargets⟩ := h.ends _ _ hblock
    obtain rfl := Option.some.inj (ht.symm.trans ht')
    exact htargets b hmem

theorem rewriteBlock_eq {c c' : Constants} {b : BlockId} {r : ValueReplacements}
    (h : Replaces c c' f cfg b r) (hno : NoCycle f cfg c.table) {block : Block}
    {t : Terminator} (ht : block.terminator = some t) :
    rewriteBlock r block = some (renameBlock r.apply block) := by
  have hsome : ∀ v, (r.getReplacement v).isSome := fun v => by rw [h.getReplacement hno]; rfl
  have hops : block.instructions.mapM r.replaceInputs
      = some (block.instructions.map (OpCode.mapInputs r.apply)) := by
    rw [mapM_eq_some, List.forall₂_map_right_iff, List.forall₂_same]
    intro op _
    exact if_pos fun v _ => hsome v
  have hterm : r.replaceTerminator t = some (t.map r.apply) := if_pos fun v _ => hsome v
  simp [rewriteBlock, renameBlock, hops, ht, hterm]

theorem block_setBlock (g : Function) (b : BlockId) (block : Block) (b' : BlockId) :
    (setBlock g b block).block b'
      = if b' = b then (g.block b').map fun _ => block else g.block b' := by
  unfold setBlock Function.block
  simp only
  induction g.blocks with
  | nil => simp
  | cons p blocks ih =>
    obtain ⟨a, old⟩ := p
    rw [List.map_cons, List.lookup_cons, ih]
    by_cases hb : b' = a
    · subst hb
      by_cases hab : b' = b
      · simp [hab]
      · simp [hab]
    · by_cases hab : a = b
      · subst hab
        simp [hb, List.lookup_cons, beq_false_of_ne hb]
      · simp [hab, List.lookup_cons, beq_false_of_ne hb]

/-- The function while the walk is under way. -/
structure Processed (c d : Constants) (f g : Function) (cfg : CFG) (bs : List BlockId) :
    Prop where
  entry : g.entryBlock = f.entryBlock
  wf : d.WF
  ext : c.Extends d
  done : ∀ b ∈ bs, ∃ block r, f.block b = some block ∧ Replaces c d f cfg b r ∧
    g.block b = some (renameBlock r.apply block)
  rest : ∀ b, b ∉ bs → g.block b = f.block b

theorem processBlock_spec {c d : Constants} {g : Function} {bs : List BlockId}
    (h : Processed c d f g cfg bs) (hwf : c.WF) (hbelow : UsesBelow f c.nextValueId)
    (hkeys : (f.blocks.map Prod.fst).Nodup) (hno : NoCycle f cfg c.table) {b : BlockId}
    (hb : b ∉ bs) {block : Block} (hblock : f.block b = some block) {t : Terminator}
    (ht : block.terminator = some t) :
    ∃ g' d', processBlock cfg (replaces f) (g, d) b = some (g', d') ∧ d.Extends d' ∧
      Processed c d' f g' cfg (b :: bs) := by
  obtain ⟨hwf', hext, hmaps⟩ := blockReplacements_spec cfg (replaces f) h.wf b
  have hr : Replaces c (blockReplacements cfg (replaces f) d b).2 f cfg b
      (blockReplacements cfg (replaces f) d b).1 :=
    ⟨hwf, hwf', h.ext.trans hext, hmaps, hbelow, hkeys⟩
  have hg : g.block b = some block := (h.rest b hb).trans hblock
  refine ⟨setBlock g b (renameBlock (blockReplacements cfg (replaces f) d b).1.apply block), _,
    ?_, hext, h.entry, hwf', h.ext.trans hext, ?_, ?_⟩
  · simp only [processBlock, hg, Option.bind_eq_bind, Option.bind_some, rewriteBlock_eq hr hno ht]
    rfl
  · intro b' hb'
    by_cases heq : b' = b
    · subst heq
      refine ⟨block, _, hblock, hr, ?_⟩
      rw [block_setBlock, if_pos rfl, hg, Option.map_some]
    · obtain ⟨block', r', hblock', hr', hg'⟩ := h.done b' (by simpa [heq] using hb')
      refine ⟨block', r', hblock', hr'.mono hext hwf', ?_⟩
      rw [block_setBlock, if_neg heq, hg']
  · intro b' hb'
    simp only [List.mem_cons, not_or] at hb'
    rw [block_setBlock, if_neg hb'.1, h.rest b' hb'.2]

theorem Processed.mono {c d d' : Constants} {g : Function} {bs : List BlockId}
    (h : Processed c d f g cfg bs) (hext : d.Extends d') (hwf : d'.WF) :
    Processed c d' f g cfg bs := by
  refine ⟨h.entry, hwf, h.ext.trans hext, fun b hb => ?_, h.rest⟩
  obtain ⟨block, r, hblock, hr, hg⟩ := h.done b hb
  exact ⟨block, r, hblock, hr.mono hext hwf, hg⟩

/-- What the pass expects of a function. -/
structure FunctionOk (c : Constants) (f : Function) (cfg : CFG) : Prop where
  keys : (f.blocks.map Prod.fst).Nodup
  closed : Closed f
  ssa : f.SingleAssignment c.table
  below : UsesBelow f c.nextValueId
  cfg : cfg.Correct f

theorem processBlocks_spec {c d : Constants} {g : Function} {todo bs : List BlockId}
    (h : Processed c d f g cfg bs) (hwf : c.WF) (hok : FunctionOk c f cfg)
    (hno : NoCycle f cfg c.table) (hnodup : todo.Nodup) (hdisj : ∀ b ∈ todo, b ∉ bs)
    (hreach : ∀ b ∈ todo, Reachable f.entryBlock f.Edge b) :
    ∃ g' d', todo.foldlM (processBlock cfg (replaces f)) (g, d) = some (g', d') ∧
      d.Extends d' ∧ Processed c d' f g' cfg (todo.reverse ++ bs) := by
  induction todo generalizing g d bs with
  | nil => exact ⟨g, d, rfl, .refl d, h⟩
  | cons b todo ih =>
    obtain ⟨hb, hnodup⟩ := List.nodup_cons.mp hnodup
    obtain ⟨block, hblock⟩ := hok.closed.reachable (hreach b List.mem_cons_self)
    obtain ⟨t, ht, -⟩ := hok.closed.ends b block hblock
    obtain ⟨g₁, d₁, h₁, hext₁, hp₁⟩ := processBlock_spec h hwf hok.below hok.keys hno
      (hdisj b List.mem_cons_self) hblock ht
    have hdisj' : ∀ b' ∈ todo, b' ∉ b :: bs := by
      intro b' hb' hmem
      rcases List.mem_cons.mp hmem with rfl | hmem
      · exact hb hb'
      · exact hdisj b' (List.mem_cons_of_mem _ hb') hmem
    obtain ⟨g', d', h', hext', hp'⟩ := ih hp₁ hnodup hdisj' fun b' hb' =>
      hreach b' (List.mem_cons_of_mem _ hb')
    refine ⟨g', d', ?_, hext₁.trans hext', by simpa using hp'⟩
    rw [List.foldlM_cons, h₁]
    exact h'

/-- The whole function is rewritten. -/
theorem processFunction_spec {c₀ c : Constants} (hext : c₀.Extends c) (hwf₀ : c₀.WF)
    (hwf : c.WF) (hok : FunctionOk c₀ f cfg) (hno : NoCycle f cfg c₀.table) :
    ∃ g d, processFunction cfg f c = some (g, d) ∧ c.Extends d ∧
      Processed c₀ d f g cfg cfg.dominationPreOrder := by
  have hstart : Processed c₀ c f f cfg [] :=
    ⟨rfl, hwf, hext, fun b hb => by simp at hb, fun _ _ => rfl⟩
  obtain ⟨g, d, h, hext', hp⟩ := processBlocks_spec hstart hwf₀ hok hno
    hok.cfg.nodup_preOrder (fun b _ => by simp) fun b hb => (hok.cfg.mem_preOrder b).mp hb
  refine ⟨g, d, h, hext', hp.entry, hp.wf, hp.ext, fun b hb => hp.done b (by simpa using hb),
    fun b hb => hp.rest b (by simpa using hb)⟩

theorem Processed.parameters_eq {c d : Constants} {g : Function} {bs : List BlockId}
    (h : Processed c d f g cfg bs) (b : BlockId) :
    (g.block b).map Block.parameters = (f.block b).map Block.parameters := by
  by_cases hb : b ∈ bs
  · obtain ⟨block, r, hblock, -, hg⟩ := h.done b hb
    rw [hblock, hg]
    rfl
  · rw [h.rest b hb]

theorem Processed.enter_eq {V W : Type} {c d : Constants} {g : Function} {bs : List BlockId}
    (h : Processed c d f g cfg bs) (target : BlockId) (args : List V) (env : Env V) (w : W) :
    enter g target args env w = enter f target args env w := by
  have hparams := h.parameters_eq target
  unfold enter
  cases hg : g.block target with
  | none =>
    rw [hg, Option.map_none, eq_comm, Option.map_eq_none_iff] at hparams
    rw [hparams]
  | some b' =>
    rw [hg, Option.map_some, eq_comm, Option.map_eq_some_iff] at hparams
    obtain ⟨b, hb, hparams⟩ := hparams
    rw [hb]
    simp only [hparams]

section Run

variable {V W : Type} [DecidableEq V] {S : Sem V W} {init s : State V W}
  {older : List (State V W)} {c d : Constants} {g : Function}

theorem Processed.execTerminator_eq {bs : List BlockId} (h : Processed c d f g cfg bs)
    {K : Env V} (env : Env V) (w : W) (t : Terminator) :
    execTerminator S K g env w t = execTerminator S K f env w t := by
  cases t <;> simp only [execTerminator, h.enter_eq]

/-- Where the tests hold, the rewritten block does what the block did. -/
theorem Processed.stepBlock_eq (h : Processed c d f g cfg cfg.dominationPreOrder)
    (hok : FunctionOk c f cfg) (hno : NoCycle f cfg c.table) (hinit : f.Initial init)
    (hrun : Run S (S.table c.table) f init (s :: older))
    (hholds : TestsHold S f cfg c.table s older) :
    stepBlock S (S.table d.table) g s = stepBlock S (S.table c.table) f s := by
  have hreach : Reachable f.entryBlock f.Edge s.block := ⟨_, hrun.walk hinit.1⟩
  obtain ⟨block, r, hblock, hr, hg⟩ := h.done _ ((hok.cfg.mem_preOrder _).mpr hreach)
  obtain ⟨t, ht, -⟩ := hok.closed.ends _ _ hblock
  have hread : ∀ env : Env V,
      (∀ v, v ∉ block.instructions.flatMap OpCode.results → env v = s.env v) →
      ∀ v ∈ block.uses,
        Env.read (S.table d.table) env (r.apply v) = Env.read (S.table c.table) env v := by
    intro env henv v hv
    exact hr.read_getReplacement hno hblock (fun fact hfact hreads =>
      read_fact hok.ssa hinit hok.cfg hrun hholds hfact hreads hblock henv) hv
  have hops : execInstructions S (S.table d.table)
        (block.instructions.map (OpCode.mapInputs r.apply)) s.env s.world
      = execInstructions S (S.table c.table) block.instructions s.env s.world :=
    execInstructions_mapInputs fun env henv v hv =>
      hread env henv v (List.mem_append_left _ hv)
  simp only [stepBlock, hg, hblock, renameBlock, ht, Option.map_some, hops]
  split
  · rfl
  · next w env hexec =>
    rw [h.execTerminator_eq]
    refine execTerminator_map fun v hv => hread env (fun u hu => ?_) v ?_
    · exact execInstructions_frame hexec hu
    · simp [Block.uses, ht, hv]

variable (S f cfg c) in
/-- The tests hold at every step of the run. -/
def TestsHoldAll (hist : List (State V W)) : Prop :=
  ∀ recent t rest, hist = recent ++ t :: rest → TestsHold S f cfg c.table t rest

omit [DecidableEq V] in
theorem TestsHoldAll.tail {hist : List (State V W)} (h : TestsHoldAll f cfg S c (s :: hist)) :
    TestsHoldAll f cfg S c hist := by
  rintro recent t rest rfl
  exact h (s :: recent) t rest rfl

theorem Processed.run_iff (h : Processed c d f g cfg cfg.dominationPreOrder)
    (hok : FunctionOk c f cfg) (hno : NoCycle f cfg c.table) (hinit : f.Initial init)
    {hist : List (State V W)} (hholds : TestsHoldAll f cfg S c hist) :
    Run S (S.table d.table) g init hist ↔ Run S (S.table c.table) f init hist := by
  constructor
  · intro hrun
    induction hrun with
    | start => exact .start
    | step _ hstep ih =>
      have hrun := ih hholds.tail
      exact hrun.step
        ((h.stepBlock_eq hok hno hinit hrun (hholds.tail [] _ _ rfl)).symm.trans hstep)
  · intro hrun
    induction hrun with
    | start => exact .start
    | step hrun hstep ih =>
      exact (ih hholds.tail).step
        ((h.stepBlock_eq hok hno hinit hrun (hholds.tail [] _ _ rfl)).trans hstep)

end Run

end Rewritten

/-! ## The pass

All functions, then the analysis in the place of its record.
-/

/-- On every run whose steps all meet the tests, the two functions go through the same
states and then do the same: the worlds hold the same trace. -/
def SameRuns (c d : Constants) (cfg : CFG) (f g : Function) : Prop :=
  ∀ (V W : Type) [DecidableEq V] (S : Sem V W) (init s : State V W) (older : List (State V W)),
    f.Initial init → TestsHoldAll f cfg S c (s :: older) →
      (Run S (S.table d.table) g init (s :: older) ↔ Run S (S.table c.table) f init (s :: older)) ∧
        (Run S (S.table c.table) f init (s :: older) →
          stepBlock S (S.table d.table) g s = stepBlock S (S.table c.table) f s)

theorem Processed.sameRuns {c d : Constants} {f g : Function} {cfg : CFG}
    (h : Processed c d f g cfg cfg.dominationPreOrder) (hok : FunctionOk c f cfg)
    (hno : NoCycle f cfg c.table) : SameRuns c d cfg f g := by
  intro V W _ S init s older hinit hholds
  exact ⟨h.run_iff hok hno hinit hholds, fun hrun =>
    h.stepBlock_eq hok hno hinit hrun (hholds [] s older rfl)⟩

theorem processFunctions_spec {cfgs : FunctionId → CFG} {fs : List (FunctionId × Function)}
    {c₀ c : Constants} (hext : c₀.Extends c) (hwf₀ : c₀.WF) (hwf : c.WF)
    (hok : ∀ p ∈ fs, FunctionOk c₀ p.2 (cfgs p.1))
    (hno : ∀ p ∈ fs, NoCycle p.2 (cfgs p.1) c₀.table) :
    ∃ gs d, processFunctions cfgs fs c = some (gs, d) ∧ c.Extends d ∧ d.WF ∧
      List.Forall₂ (fun p q => q.1 = p.1 ∧
        Processed c₀ d p.2 q.2 (cfgs p.1) (cfgs p.1).dominationPreOrder) fs gs := by
  induction fs generalizing c with
  | nil => exact ⟨[], c, rfl, .refl c, hwf, .nil⟩
  | cons p fs ih =>
    obtain ⟨id, f⟩ := p
    obtain ⟨g, d₁, h₁, hext₁, hp⟩ := processFunction_spec hext hwf₀ hwf
      (hok _ List.mem_cons_self) (hno _ List.mem_cons_self)
    obtain ⟨gs, d, h, hext', hwf', hall⟩ := ih (hext.trans hext₁) hp.wf
      (fun p hp => hok p (List.mem_cons_of_mem _ hp))
      (fun p hp => hno p (List.mem_cons_of_mem _ hp))
    refine ⟨(id, g) :: gs, d, ?_, hext₁.trans hext', hwf',
      .cons ⟨rfl, hp.mono hext' hwf'⟩ hall⟩
    simp [processFunctions, h₁, h]

section DoRun

variable {ssa : SSA} {cfgs : FunctionId → CFG}

theorem doRun_processed (hwf : Constants.WF ⟨ssa.constants, ssa.nextValueId⟩)
    (hok : ∀ p ∈ ssa.functions, FunctionOk ⟨ssa.constants, ssa.nextValueId⟩ p.2 (cfgs p.1))
    (hno : ∀ p ∈ ssa.functions, NoCycle p.2 (cfgs p.1) ssa.constants) :
    ∃ ssa', doRun cfgs ssa = some ssa' ∧
      List.Forall₂ (fun p q => q.1 = p.1 ∧
        Processed ⟨ssa.constants, ssa.nextValueId⟩ ⟨ssa'.constants, ssa'.nextValueId⟩ p.2 q.2
          (cfgs p.1) (cfgs p.1).dominationPreOrder) ssa.functions ssa'.functions := by
  obtain ⟨gs, d, h, -, -, hall⟩ := processFunctions_spec (.refl _) hwf hwf hok hno
  exact ⟨{ ssa with functions := gs, constants := d.table, nextValueId := d.nextValueId },
    by simp [doRun, h], hall⟩

/-- What the pass leaves of each function has the runs of the function. -/
theorem sameRuns_of_processed {d : Constants} {gs : List (FunctionId × Function)}
    (hok : ∀ p ∈ ssa.functions, FunctionOk ⟨ssa.constants, ssa.nextValueId⟩ p.2 (cfgs p.1))
    (hno : ∀ p ∈ ssa.functions, NoCycle p.2 (cfgs p.1) ssa.constants)
    (hall : List.Forall₂ (fun p q => q.1 = p.1 ∧
      Processed ⟨ssa.constants, ssa.nextValueId⟩ d p.2 q.2 (cfgs p.1)
        (cfgs p.1).dominationPreOrder) ssa.functions gs) :
    List.Forall₂ (fun p q => q.1 = p.1 ∧
      SameRuns ⟨ssa.constants, ssa.nextValueId⟩ d (cfgs p.1) p.2 q.2) ssa.functions gs := by
  have hall' := (List.forall₂_and_left
    (p := fun p => FunctionOk ⟨ssa.constants, ssa.nextValueId⟩ p.2 (cfgs p.1) ∧
      NoCycle p.2 (cfgs p.1) ssa.constants) ssa.functions gs).mpr
    ⟨fun p hp => ⟨hok p hp, hno p hp⟩, hall⟩
  exact hall'.imp fun _ _ h => ⟨h.2.1, h.2.2.sameRuns h.1.1 h.1.2⟩

end DoRun

/-- The pass returns, and every function has the runs it had on which the tests hold. -/
theorem doRun_sameRuns (ssa : SSA) (cfgs : FunctionId → CFG)
    (hwf : Constants.WF ⟨ssa.constants, ssa.nextValueId⟩)
    (hok : ∀ p ∈ ssa.functions,
      FunctionOk ⟨ssa.constants, ssa.nextValueId⟩ p.2 (cfgs p.1))
    (hno : ∀ p ∈ ssa.functions, NoCycle p.2 (cfgs p.1) ssa.constants) :
    ∃ ssa', doRun cfgs ssa = some ssa' ∧
      List.Forall₂ (fun p q => q.1 = p.1 ∧
        SameRuns ⟨ssa.constants, ssa.nextValueId⟩ ⟨ssa'.constants, ssa'.nextValueId⟩ (cfgs p.1)
          p.2 q.2) ssa.functions ssa'.functions := by
  obtain ⟨ssa', hrun, hall⟩ := doRun_processed hwf hok hno
  exact ⟨ssa', hrun, sameRuns_of_processed hok hno hall⟩

/-- What the pass expects of a function before it is analysed. -/
structure FunctionShape (c : Constants) (f : Function) : Prop where
  keys : (f.blocks.map Prod.fst).Nodup
  closed : Closed f
  ssa : f.SingleAssignment c.table
  below : UsesBelow f c.nextValueId

theorem FunctionShape.ok {c : Constants} {f : Function} {cfg : CFG} (h : FunctionShape c f)
    (hcfg : cfg.Correct f) : FunctionOk c f cfg :=
  ⟨h.keys, h.closed, h.ssa, h.below, hcfg⟩

/-- The graph that `FlowAnalysis::run` builds of a function answers what the pass asks. -/
theorem FunctionShape.propagation_correct {c : Constants} {f : Function}
    {simpleFast : FlowAnalysis.Graph → FlowAnalysis.Node → FlowAnalysis.Dominators}
    {cfg : FlowAnalysis.CFG} (h : FunctionShape c f)
    (hd : ∀ g, FlowAnalysis.graphOf f = some g → (simpleFast g .entry).Correct g .entry ∧
      (simpleFast g.reverse .return).Correct g.reverse .return)
    (hbuild : FlowAnalysis.build simpleFast f = some cfg) : cfg.propagation.Correct f := by
  obtain ⟨block, hentry⟩ := h.closed.entry
  have hmem : f.entryBlock ∈ f.blocks.map Prod.fst :=
    List.mem_map.mpr ⟨_, mem_of_lookup_eq_some hentry, rfl⟩
  obtain ⟨cfg', hbuild', hanswers⟩ := FlowAnalysis.build_answers h.keys hmem hd
  obtain rfl := Option.some.inj (hbuild'.symm.trans hbuild)
  exact hanswers.propagation

/-- The pass on the graphs that `FlowAnalysis::run` builds, given that `simple_fast` computes
immediate dominators. -/
theorem doRun_sameRuns_build (ssa : SSA)
    (simpleFast : FlowAnalysis.Graph → FlowAnalysis.Node → FlowAnalysis.Dominators)
    (cfgs : FunctionId → FlowAnalysis.CFG)
    (hbuild : ∀ p ∈ ssa.functions, FlowAnalysis.build simpleFast p.2 = some (cfgs p.1))
    (hd : ∀ p ∈ ssa.functions, ∀ g, FlowAnalysis.graphOf p.2 = some g →
      (simpleFast g .entry).Correct g .entry ∧
        (simpleFast g.reverse .return).Correct g.reverse .return)
    (hwf : Constants.WF ⟨ssa.constants, ssa.nextValueId⟩)
    (hshape : ∀ p ∈ ssa.functions, FunctionShape ⟨ssa.constants, ssa.nextValueId⟩ p.2)
    (hno : ∀ p ∈ ssa.functions, NoCycle p.2 (cfgs p.1).propagation ssa.constants) :
    ∃ ssa', doRun (fun id => (cfgs id).propagation) ssa = some ssa' ∧
      List.Forall₂ (fun p q => q.1 = p.1 ∧
        SameRuns ⟨ssa.constants, ssa.nextValueId⟩ ⟨ssa'.constants, ssa'.nextValueId⟩
          (cfgs p.1).propagation p.2 q.2) ssa.functions ssa'.functions := by
  have hok : ∀ p ∈ ssa.functions,
      FunctionOk ⟨ssa.constants, ssa.nextValueId⟩ p.2 (cfgs p.1).propagation := fun p hp =>
    (hshape p hp).ok ((hshape p hp).propagation_correct (hd p hp) (hbuild p hp))
  obtain ⟨ssa', hrun, hall⟩ := @doRun_processed ssa (fun id => (cfgs id).propagation) hwf hok hno
  exact ⟨ssa', hrun, @sameRuns_of_processed ssa (fun id => (cfgs id).propagation) _ _ hok hno hall⟩

/-! ## Two branches

One on which the tests hold, one on which they do not.
-/

/-- Values for the examples: the number of a constant. -/
def wordSem : Sem Nat Unit where
  const
    | .u _ value | .i _ value => value
    | .field value => value.val
    | .fnPtr f => f
  op _ _ w := (w, none)

/-- A branch on `v0` with an arm of its own on each side. -/
def ifElse : Function where
  blocks := [(0, { parameters := [(0, .u 1)], terminator := some (.jmpIf 0 1 2) }),
    (1, { terminator := some (.return [0]) }), (2, { terminator := some (.return [0]) })]

/-- A branch on `v0` without an else: the merge block is the branch's other target. -/
def ifThen : Function where
  blocks := [(0, { parameters := [(0, .u 1)], terminator := some (.jmpIf 0 1 2) }),
    (1, { terminator := some (.jmp 2 []) }), (2, { terminator := some (.return [0]) })]

/-- The dominators of both: the entry, and each block of itself. -/
def branchCfg : CFG where
  dominates a b := decide (b < 3 ∧ (a = 0 ∨ a = b))
  dominationPreOrder := [0, 1, 2]

def branchSsa (f : Function) : SSA where
  functions := [(0, f)]
  mainId := 0
  nextFunctionId := 1
  nextValueId := 1

theorem ifThen_block {b : BlockId} {block : Block} (h : ifThen.block b = some block) :
    b = 0 ∧ block = { parameters := [(0, .u 1)], terminator := some (.jmpIf 0 1 2) } ∨
      b = 1 ∧ block = { terminator := some (.jmp 2 []) } ∨
        b = 2 ∧ block = { terminator := some (.return [0]) } := by
  have hmem := mem_of_lookup_eq_some h
  simpa [ifThen] using hmem

theorem ifElse_block {b : BlockId} {block : Block} (h : ifElse.block b = some block) :
    b = 0 ∧ block = { parameters := [(0, .u 1)], terminator := some (.jmpIf 0 1 2) } ∨
      b = 1 ∧ block = { terminator := some (.return [0]) } ∨
        b = 2 ∧ block = { terminator := some (.return [0]) } := by
  have hmem := mem_of_lookup_eq_some h
  simpa [ifElse] using hmem

/-- A graph on three blocks whose entry branches to the two others. -/
theorem branchCfg_correct {f : Function} (hentry : f.entryBlock = 0) (h01 : f.Edge 0 1)
    (h02 : f.Edge 0 2) (hedge : ∀ a b, f.Edge a b → a = 0 ∧ (b = 1 ∨ b = 2) ∨ a = 1 ∧ b = 2) :
    branchCfg.Correct f := by
  have hwalk : ∀ hist, Walk f.entryBlock f.Edge hist →
      hist = [0] ∨ hist = [1, 0] ∨ hist = [2, 0] ∨ hist = [2, 1, 0] := by
    intro hist h
    induction h with
    | start => simp [hentry]
    | step _ he ih =>
      rcases hedge _ _ he with ⟨rfl, rfl | rfl⟩ | ⟨rfl, rfl⟩ <;> simpa using ih
  have h0 : Walk f.entryBlock f.Edge [0] := hentry ▸ .start
  have hreach : ∀ b, Reachable f.entryBlock f.Edge b ↔ b < 3 := by
    intro b
    constructor
    · rintro ⟨hist, h⟩
      rcases hwalk _ h with h | h | h | h <;> obtain ⟨rfl, -⟩ := List.cons.inj h <;> decide
    · intro hb
      interval_cases b
      · exact ⟨_, h0⟩
      · exact ⟨_, h0.step h01⟩
      · exact ⟨_, h0.step h02⟩
  refine ⟨fun a b => ?_, fun b => ?_, by decide⟩
  · rw [branchCfg, decide_eq_true_iff, hreach]
    refine and_congr_right fun hb => ⟨?_, fun hdom => ?_⟩
    · rintro (rfl | rfl) hist h
      · rcases hwalk _ h with h | h | h | h <;> simp [h]
      · exact List.mem_cons_self
    · interval_cases b
      · have := hdom _ h0
        simpa using this
      · have := hdom _ (h0.step h01)
        simpa [or_comm] using this
      · have := hdom _ (h0.step h02)
        simpa [or_comm] using this
  · rw [hreach, branchCfg]
    constructor
    · intro hb
      have hb : b = 0 ∨ b = 1 ∨ b = 2 := by simpa using hb
      rcases hb with rfl | rfl | rfl <;> decide
    · intro hb
      interval_cases b <;> simp

theorem ifThen_correct : branchCfg.Correct ifThen := by
  refine branchCfg_correct rfl ⟨_, _, rfl, rfl, by decide⟩ ⟨_, _, rfl, rfl, by decide⟩ ?_
  rintro a b ⟨block, t, hblock, ht, hb⟩
  rcases ifThen_block hblock with ⟨rfl, rfl⟩ | ⟨rfl, rfl⟩ | ⟨rfl, rfl⟩ <;>
    obtain rfl := Option.some.inj ht <;> simp_all [Terminator.targets]

theorem ifElse_correct : branchCfg.Correct ifElse := by
  refine branchCfg_correct rfl ⟨_, _, rfl, rfl, by decide⟩ ⟨_, _, rfl, rfl, by decide⟩ ?_
  rintro a b ⟨block, t, hblock, ht, hb⟩
  rcases ifElse_block hblock with ⟨rfl, rfl⟩ | ⟨rfl, rfl⟩ | ⟨rfl, rfl⟩ <;>
    obtain rfl := Option.some.inj ht <;> simp_all [Terminator.targets]

theorem branch_ok {f : Function} (hcfg : branchCfg.Correct f)
    (hkeys : (f.blocks.map Prod.fst).Nodup) (hclosed : Closed f)
    (hdefs : ∀ b block, f.block b = some block → block.definitions = if b = 0 then [0] else [])
    (huses : ∀ b block, f.block b = some block → ∀ v ∈ block.uses, v = 0) :
    FunctionOk ⟨[], 1⟩ f branchCfg := by
  have hdef : ∀ {b v}, f.DefinedIn b v → b = 0 := by
    rintro b v ⟨block, hblock, hv⟩
    by_contra hb
    rw [hdefs b block hblock, if_neg hb] at hv
    simp at hv
  refine ⟨hkeys, hclosed, ⟨fun b block hblock => ?_, fun v b b' h h' => ?_, fun _ _ _ => rfl⟩,
    fun b block hblock v hv => ?_, hcfg⟩
  · rw [hdefs b block hblock]
    split <;> simp
  · rw [hdef h, hdef h']
  · rw [huses b block hblock v hv]
    exact Nat.one_pos

theorem branch_wf : Constants.WF ⟨[], 1⟩ := by
  refine ⟨?_, ?_, ?_⟩ <;> simp

theorem branch_noCycle (f : Function) : NoCycle f branchCfg [] := by
  intro b p _ q _ h
  simp at h

theorem ifElse_ok : FunctionOk ⟨[], 1⟩ ifElse branchCfg := by
  refine branch_ok ifElse_correct (by decide) ⟨⟨_, rfl⟩, fun b block hblock => ?_⟩ ?_ ?_
  · rcases ifElse_block hblock with ⟨rfl, rfl⟩ | ⟨rfl, rfl⟩ | ⟨rfl, rfl⟩
    · exact ⟨_, rfl, by simpa [Terminator.targets] using ⟨⟨_, rfl⟩, ⟨_, rfl⟩⟩⟩
    · exact ⟨_, rfl, by simp [Terminator.targets]⟩
    · exact ⟨_, rfl, by simp [Terminator.targets]⟩
  · intro b block hblock
    rcases ifElse_block hblock with ⟨rfl, rfl⟩ | ⟨rfl, rfl⟩ | ⟨rfl, rfl⟩ <;> rfl
  · intro b block hblock v hv
    rcases ifElse_block hblock with ⟨rfl, rfl⟩ | ⟨rfl, rfl⟩ | ⟨rfl, rfl⟩ <;>
      simp_all [Block.uses, Terminator.inputs]

theorem ifThen_ok : FunctionOk ⟨[], 1⟩ ifThen branchCfg := by
  refine branch_ok ifThen_correct (by decide) ⟨⟨_, rfl⟩, fun b block hblock => ?_⟩ ?_ ?_
  · rcases ifThen_block hblock with ⟨rfl, rfl⟩ | ⟨rfl, rfl⟩ | ⟨rfl, rfl⟩
    · exact ⟨_, rfl, by simpa [Terminator.targets] using ⟨⟨_, rfl⟩, ⟨_, rfl⟩⟩⟩
    · exact ⟨_, rfl, by simpa [Terminator.targets] using ⟨_, rfl⟩⟩
    · exact ⟨_, rfl, by simp [Terminator.targets]⟩
  · intro b block hblock
    rcases ifThen_block hblock with ⟨rfl, rfl⟩ | ⟨rfl, rfl⟩ | ⟨rfl, rfl⟩ <;> rfl
  · intro b block hblock v hv
    rcases ifThen_block hblock with ⟨rfl, rfl⟩ | ⟨rfl, rfl⟩ | ⟨rfl, rfl⟩ <;>
      simp_all [Block.uses, Terminator.inputs]

/-- The state in which a branch function is entered with a value for `v0`. -/
def branchState (b : BlockId) (value : Nat) : State Nat Unit :=
  ⟨b, Env.bindAll (fun _ => none) [0] [value], ()⟩

theorem ifElse_testsHoldAll : TestsHoldAll ifElse branchCfg wordSem ⟨[], 1⟩
    [branchState 1 1, branchState 0 1] := by
  intro recent t rest h
  rw [eq_comm, List.append_eq_cons_iff] at h
  rcases h with ⟨-, h⟩ | ⟨recent, -, h⟩
  · obtain ⟨rfl, rfl⟩ := List.cons.inj h
    intro fact hfact _ s hs _
    obtain rfl : fact = ⟨1, 0, true⟩ := by
      simpa [dominatingFacts, replaces, ifElse, branchCfg, branchState] using hfact
    rcases List.mem_cons.mp hs with rfl | hs
    · rfl
    · rw [List.mem_singleton.mp hs]
      rfl
  · rw [eq_comm, List.append_eq_cons_iff] at h
    rcases h with ⟨-, h⟩ | ⟨recent, -, h⟩
    · obtain ⟨rfl, rfl⟩ := List.cons.inj h
      intro fact hfact
      simp [dominatingFacts, replaces, ifElse, branchCfg, branchState] at hfact
    · simp at h

/-- With an arm of its own on each side the tests hold, and the arm reads the bit it would
have read. -/
theorem doRun_sameRuns_ifElse :
    (∃ ssa', doRun (fun _ => branchCfg) (branchSsa ifElse) = some ssa' ∧
      List.Forall₂ (fun p q => q.1 = p.1 ∧
        SameRuns ⟨[], 1⟩ ⟨ssa'.constants, ssa'.nextValueId⟩ branchCfg p.2 q.2)
        [(0, ifElse)] ssa'.functions) ∧
    TestsHoldAll ifElse branchCfg wordSem ⟨[], 1⟩ [branchState 1 1, branchState 0 1] :=
  ⟨doRun_sameRuns (branchSsa ifElse) (fun _ => branchCfg) branch_wf
    (by simpa [branchSsa] using ifElse_ok) fun p _ => branch_noCycle p.2, ifElse_testsHoldAll⟩

/-- Without an else the merge block reads `0` for a condition that was `1`. -/
theorem ifThen_returnsZero : FunctionOk ⟨[], 1⟩ ifThen branchCfg ∧
    ∃ g, doRun (fun _ => branchCfg) (branchSsa ifThen)
        = some { branchSsa ifThen with
            functions := [(0, g)], constants := [(2, bit false), (1, bit true)], nextValueId := 3 } ∧
      ifThen.Initial (branchState 0 1) ∧
      Run wordSem (wordSem.table []) ifThen (branchState 0 1)
        [branchState 2 1, branchState 1 1, branchState 0 1] ∧
      stepBlock wordSem (wordSem.table []) ifThen (branchState 2 1) = .returned [1] () ∧
      Run wordSem (wordSem.table [(2, bit false), (1, bit true)]) g (branchState 0 1)
        [branchState 2 1, branchState 1 1, branchState 0 1] ∧
      stepBlock wordSem (wordSem.table [(2, bit false), (1, bit true)]) g (branchState 2 1)
        = .returned [0] () := by
  exact ⟨ifThen_ok, _, rfl, ⟨rfl, _, [1], rfl, rfl⟩, .step (.step .start rfl) rfl, rfl,
    .step (.step .start rfl) rfl, rfl⟩

end Mavros.ConditionPropagation
