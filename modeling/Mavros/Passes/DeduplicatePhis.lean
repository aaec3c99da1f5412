/-
# `Mavros.Passes.DeduplicatePhis` — one edge for equal arguments

Blocks that jump to one target with equal arguments jump to a new block, which alone
jumps on to the target.  The new blocks stand on edges: a run makes a detour through
them without reading or binding a value (`Detours`).

## What is modelled

`unifications` groups the blocks that end in an unconditional jump with arguments, by the target
and the arguments; `unify` is the body of the loop over the groups, which makes a
new block where a group has two members or more.  The order in which a hash map yields the
groups is a parameter, and everything below is for every order.

## What is proved

* `detours_deduplicatePhis`: the pass succeeds and leaves the function with detours.
* `Detours.wellFormed`: a function with detours is well formed again.
* `Detours.sameRuns`: from any state in which the function is entered the two functions
  execute the same instructions and end alike.

## How it goes

What the two functions are for each other is one relation, with the new blocks as the only
difference, and the pass is an induction over the groups in which a group not yet visited is
as it was (`Pending`).  A path without its detours is a path of the original (`Detours.walk`),
so dominance and availability are inherited; a run is matched step for step, or step for two.
-/
import Mavros.Hlssa.Blocks

namespace Mavros.DeduplicatePhis

open Hlssa
open Lib (Walk Reachable Dominates Rejoined Rejoins iterate_one iterate_two)

/-- The blocks that jump to a target with the same arguments. -/
abbrev Unifications := List ((BlockId × List ValueId) × List BlockId)

/-- `entry(key).or_insert(vec![]).push(block)`. -/
def Unifications.push : Unifications → BlockId × List ValueId → BlockId → Unifications
  | [], key, b => [(key, [b])]
  | (key', bs) :: u, key, b =>
    if key' = key then (key', bs ++ [b]) :: u else (key', bs) :: Unifications.push u key b

def collect (u : Unifications) (b : BlockId × Block) : Unifications :=
  match b.2.terminator with
  | some (.jmp target inputs) => if inputs.length > 0 then u.push (target, inputs) b.1 else u
  | _ => u

def unifications (f : Function) : Unifications := f.blocks.foldl collect []

/-- The body of the loop over `unifications`. -/
def unify (f : Function) (u : (BlockId × List ValueId) × List BlockId) : Option Function :=
  if u.2.length ≤ 1 then some f
  else do
    let (newBlock, f) := f.addBlock
    let f ← f.terminateBlockWithJmp newBlock u.1.1 u.1.2
    u.2.foldlM (fun f b => f.terminateBlockWithJmp b newBlock []) f

/-- `do_run` on a function, the unifications in the order the map yields them. -/
def deduplicatePhis (f : Function) (order : Unifications) : Option Function := order.foldlM unify f

/-! ## The unifications

A group is not empty, its members are different blocks, and no block is in two groups.
-/

theorem mem_push {u : Unifications} {key : BlockId × List ValueId} {b : BlockId}
    {e : (BlockId × List ValueId) × List BlockId} {b' : BlockId} (he : e ∈ u.push key b)
    (hb : b' ∈ e.2) : (∃ e' ∈ u, e'.1 = e.1 ∧ b' ∈ e'.2) ∨ e.1 = key ∧ b' = b := by
  induction u with
  | nil =>
    obtain rfl : e = (key, [b]) := by simpa [Unifications.push] using he
    exact .inr ⟨rfl, by simpa using hb⟩
  | cons p u ih =>
    obtain ⟨key', bs⟩ := p
    rw [Unifications.push] at he
    split at he
    · next hkey =>
      rcases List.mem_cons.mp he with rfl | he
      · rcases List.mem_append.mp hb with hb | hb
        · exact .inl ⟨_, List.mem_cons_self, rfl, hb⟩
        · exact .inr ⟨hkey, by simpa using hb⟩
      · exact .inl ⟨e, List.mem_cons_of_mem _ he, rfl, hb⟩
    · rcases List.mem_cons.mp he with rfl | he
      · exact .inl ⟨_, List.mem_cons_self, rfl, hb⟩
      · rcases ih he with ⟨e', he', hkey, hb'⟩ | h
        · exact .inl ⟨e', List.mem_cons_of_mem _ he', hkey, hb'⟩
        · exact .inr h

theorem mem_keys_push {u : Unifications} {key key' : BlockId × List ValueId} {b : BlockId}
    (h : key' ∈ (u.push key b).map Prod.fst) : key' ∈ u.map Prod.fst ∨ key' = key := by
  induction u with
  | nil => exact .inr (by simpa [Unifications.push] using h)
  | cons p u ih =>
    rw [Unifications.push] at h
    split at h
    · exact .inl h
    · rcases List.mem_cons.mp h with rfl | h
      · exact .inl List.mem_cons_self
      · rcases ih h with h | h
        · exact .inl (List.mem_cons_of_mem _ h)
        · exact .inr h

theorem nodup_push {u : Unifications} (h : (u.map Prod.fst).Nodup) (key : BlockId × List ValueId)
    (b : BlockId) : ((u.push key b).map Prod.fst).Nodup := by
  induction u with
  | nil => exact List.nodup_singleton _
  | cons p u ih =>
    rw [List.map_cons, List.nodup_cons] at h
    rw [Unifications.push]
    split
    · exact List.nodup_cons.mpr h
    · next hne =>
      refine List.nodup_cons.mpr ⟨?_, ih h.2⟩
      intro hmem
      rcases mem_keys_push hmem with hmem | heq
      · exact h.1 hmem
      · exact hne heq

theorem mem_foldl_collect {blocks : List (BlockId × Block)} {u : Unifications}
    {e : (BlockId × List ValueId) × List BlockId} {b : BlockId} (he : e ∈ blocks.foldl collect u)
    (hb : b ∈ e.2) : (∃ e' ∈ u, e'.1 = e.1 ∧ b ∈ e'.2) ∨
      ∃ block, (b, block) ∈ blocks ∧ block.terminator = some (.jmp e.1.1 e.1.2) := by
  induction blocks generalizing u with
  | nil => exact .inl ⟨e, he, rfl, hb⟩
  | cons p blocks ih =>
    rcases ih he with ⟨e', he', hkey, hb'⟩ | ⟨block, hmem, ht⟩
    · rw [collect] at he'
      split at he'
      · next target inputs ht =>
        split at he'
        · rcases mem_push he' hb' with ⟨e'', he'', hkey', hb''⟩ | ⟨hkey', rfl⟩
          · exact .inl ⟨e'', he'', hkey'.trans hkey, hb''⟩
          · refine .inr ⟨p.2, List.mem_cons_self, ?_⟩
            rw [ht, ← hkey, hkey']
        · exact .inl ⟨e', he', hkey, hb'⟩
      · exact .inl ⟨e', he', hkey, hb'⟩
    · exact .inr ⟨block, List.mem_cons_of_mem _ hmem, ht⟩

/-- Each block of a unification jumps to its target with its arguments. -/
theorem terminator_of_mem_unifications {f : Function} (hkeys : (f.blocks.map Prod.fst).Nodup)
    {e : (BlockId × List ValueId) × List BlockId} {b : BlockId} (he : e ∈ unifications f)
    (hb : b ∈ e.2) : ∃ block, f.block b = some block ∧
      block.terminator = some (.jmp e.1.1 e.1.2) := by
  rcases mem_foldl_collect he hb with ⟨e', he', -⟩ | ⟨block, hmem, ht⟩
  · exact absurd he' List.not_mem_nil
  · exact ⟨block, Lib.lookup_of_mem hkeys hmem, ht⟩

theorem nodup_unifications (f : Function) : ((unifications f).map Prod.fst).Nodup := by
  have hfold (blocks : List (BlockId × Block)) (u : Unifications) (hu : (u.map Prod.fst).Nodup) :
      ((blocks.foldl collect u).map Prod.fst).Nodup := by
    induction blocks generalizing u with
    | nil => exact hu
    | cons p blocks ih =>
      refine ih _ ?_
      rw [collect]
      split
      · split
        · exact nodup_push hu _ _
        · exact hu
      · exact hu
  exact hfold f.blocks [] List.nodup_nil

/-! ## Detours -/

/-- `g` is `f` with detours: a block of `f` has its jump, or jumps to a new block that does
nothing but make that jump. -/
structure Detours (f g : Function) : Prop where
  keys : (g.blocks.map Prod.fst).Nodup
  fresh : ∀ b block, g.block b = some block → b < g.nextBlock
  entryBlock : g.entryBlock = f.entryBlock
  old : ∀ b block, f.block b = some block → g.block b = some block ∨
    ∃ n target inputs, block.terminator = some (.jmp target inputs) ∧
      g.block b = some { block with terminator := some (.jmp n []) } ∧ f.block n = none ∧
      g.block n = some { terminator := some (.jmp target inputs) }
  new : ∀ n block, g.block n = some block → f.block n = none →
    ∃ b block' target inputs, f.block b = some block' ∧
      block'.terminator = some (.jmp target inputs) ∧
      g.block b = some { block' with terminator := some (.jmp n []) } ∧
      block = { terminator := some (.jmp target inputs) }

theorem Detours.refl {f : Function} {constants : List (ValueId × Constant)}
    (hf : f.WellFormed constants) : Detours f f where
  keys := hf.keys
  fresh := hf.fresh
  entryBlock := rfl
  old _ _ h := .inl h
  new _ _ h hnone := absurd (h.symm.trans hnone) (by simp)

/-- All the blocks of a list are made to jump to one block. -/
theorem foldlM_terminate {n : BlockId} {bs : List BlockId} {g : Function}
    (hbs : ∀ b ∈ bs, (g.block b).isSome) :
    ∃ g', bs.foldlM (fun f b => f.terminateBlockWithJmp b n []) g = some g' ∧
      g'.entryBlock = g.entryBlock ∧ g'.nextBlock = g.nextBlock ∧
      g'.blocks.map Prod.fst = g.blocks.map Prod.fst ∧
      ∀ b, g'.block b = if b ∈ bs then
        (g.block b).map fun block => { block with terminator := some (.jmp n []) }
      else g.block b := by
  induction bs generalizing g with
  | nil => exact ⟨g, rfl, rfl, rfl, rfl, by simp⟩
  | cons b bs ih =>
    rw [List.forall_mem_cons] at hbs
    obtain ⟨block, hblock⟩ := Option.isSome_iff_exists.mp hbs.1
    let g₁ := g.modifyBlock b fun block => { block with terminator := some (.jmp n []) }
    have hstep : g.terminateBlockWithJmp b n [] = some g₁ := by
      rw [Function.terminateBlockWithJmp, hblock]
      rfl
    have hg₁ (b' : BlockId) : g₁.block b' = _ := block_modifyBlock g b _ b'
    obtain ⟨g', hfold, hentry, hnext, hkeys, hblocks⟩ := @ih g₁ (by
      intro b' hb'
      rw [hg₁]
      split <;> simp [hbs.2 b' hb'])
    refine ⟨g', ?_, hentry, hnext, hkeys.trans (keys_modifyBlock g b _), fun b' => ?_⟩
    · rw [List.foldlM_cons, hstep]
      exact hfold
    · rw [hblocks, hg₁]
      by_cases hb : b' = b
      · subst hb
        rw [if_pos rfl, if_pos List.mem_cons_self]
        split
        · rw [Option.map_map]
          rfl
        · rfl
      · simp [hb]

/-- What is left to unify is as it was. -/
def Pending (f g : Function) (rest : Unifications) : Prop :=
  ∀ e ∈ rest, ∀ b ∈ e.2, ∃ block, f.block b = some block ∧ g.block b = some block ∧
    block.terminator = some (.jmp e.1.1 e.1.2)

theorem Detours.lt_nextBlock {f g : Function} (h : Detours f g) {b : BlockId} {block : Block}
    (hb : f.block b = some block) : b < g.nextBlock := by
  rcases h.old b block hb with hg | ⟨n, target, inputs, -, hg, -⟩
  · exact h.fresh b _ hg
  · exact h.fresh b _ hg

/-- One unification adds a detour for each of its blocks. -/
theorem Detours.unify {f g : Function} {constants : List (ValueId × Constant)}
    (hf : f.WellFormed constants) (h : Detours f g)
    {e : (BlockId × List ValueId) × List BlockId} {rest : Unifications}
    (hpending : Pending f g (e :: rest)) (hrest : ∀ e' ∈ rest, e'.1 ≠ e.1) :
    ∃ g', DeduplicatePhis.unify g e = some g' ∧ Detours f g' ∧ Pending f g' rest := by
  have hold : Pending f g rest := fun e' he' => hpending e' (List.mem_cons_of_mem _ he')
  have he := hpending e List.mem_cons_self
  rw [DeduplicatePhis.unify]
  split
  · exact ⟨g, rfl, h, hold⟩
  case isFalse hlen =>
    let n := g.nextBlock
    let g₁ := g.addBlock.2
    let g₂ := g₁.modifyBlock n fun block => { block with terminator := some (.jmp e.1.1 e.1.2) }
    have hfn : f.block n = none := by
      cases hn : f.block n with
      | none => rfl
      | some block => exact absurd (h.lt_nextBlock hn) (Nat.lt_irrefl _)
    have hg₁ (b : BlockId) : g₁.block b = if b = n then some {} else g.block b :=
      block_addBlock g b
    have hg₂ (b : BlockId) : g₂.block b =
        if b = n then some { terminator := some (.jmp e.1.1 e.1.2) } else g.block b := by
      rw [block_modifyBlock, hg₁]
      split <;> rfl
    have hne {b : BlockId} {block : Block} (hb : f.block b = some block) : b ≠ n :=
      Nat.ne_of_lt (h.lt_nextBlock hb)
    have hterm : g₁.terminateBlockWithJmp n e.1.1 e.1.2 = some g₂ := by
      rw [Function.terminateBlockWithJmp, hg₁, if_pos rfl]
      rfl
    obtain ⟨g', hfold, hentry, hnext, hkeys, hblocks⟩ := @foldlM_terminate n e.2 g₂ (by
      intro b hb
      obtain ⟨block, hf, hg, -⟩ := he b hb
      rw [hg₂, if_neg (hne hf), hg]
      rfl)
    have hn : g'.block n = some { terminator := some (.jmp e.1.1 e.1.2) } := by
      rw [hblocks, if_neg, hg₂, if_pos rfl]
      intro hmem
      obtain ⟨block, hf, -⟩ := he n hmem
      exact hne hf rfl
    have hmoved {b : BlockId} (hb : b ∈ e.2) {block : Block} (hg : g.block b = some block)
        (hbn : b ≠ n) : g'.block b = some { block with terminator := some (.jmp n []) } := by
      rw [hblocks, if_pos hb, hg₂, if_neg hbn, hg]
      rfl
    have hkept {b : BlockId} (hb : b ∉ e.2) (hbn : b ≠ n) : g'.block b = g.block b := by
      rw [hblocks, if_neg hb, hg₂, if_neg hbn]
    refine ⟨g', ?_, ⟨?_, ?_, hentry.trans h.entryBlock, ?_, ?_⟩, ?_⟩
    · change (g₁.terminateBlockWithJmp n e.1.1 e.1.2).bind _ = _
      rw [hterm, Option.bind_some]
      exact hfold
    · have hfilter : (g.blocks.filter (·.1 ≠ n)).map Prod.fst = (g.blocks.map Prod.fst).filter
          (· ≠ n) := by rw [List.filter_map]; rfl
      rw [hkeys, keys_modifyBlock]
      refine List.nodup_cons.mpr ⟨?_, ?_⟩
      · rw [hfilter]
        intro hmem
        exact of_decide_eq_true (List.mem_filter.mp hmem).2 rfl
      · rw [hfilter]
        exact h.keys.filter _
    · intro b block hb
      rw [hnext]
      change b < g.nextBlock + 1
      by_cases hbn : b = n
      · rw [hbn]
        exact Nat.lt_succ_self _
      · by_cases hmem : b ∈ e.2
        · obtain ⟨_, hf, -⟩ := he b hmem
          exact Nat.lt_succ_of_lt (h.lt_nextBlock hf)
        · rw [hkept hmem hbn] at hb
          exact Nat.lt_succ_of_lt (h.fresh b block hb)
    · intro b block hb
      by_cases hmem : b ∈ e.2
      · obtain ⟨block', hf, hg, ht⟩ := he b hmem
        obtain rfl := Option.some.inj (hb.symm.trans hf)
        exact .inr ⟨n, _, _, ht, hmoved hmem hg (hne hb), hfn, hn⟩
      · rcases h.old b block hb with hg | ⟨n', target, inputs, ht, hg, hfn', hgn'⟩
        · exact .inl ((hkept hmem (hne hb)).trans hg)
        · refine .inr ⟨n', target, inputs, ht, (hkept hmem (hne hb)).trans hg, hfn', ?_⟩
          rw [hkept _ (Nat.ne_of_lt (h.fresh n' _ hgn')), hgn']
          intro hn'
          obtain ⟨_, hf, -⟩ := he n' hn'
          exact absurd (hf.symm.trans hfn') (by simp)
    · intro n' block hgn' hfn'
      by_cases hnn : n' = n
      · subst hnn
        obtain ⟨b, hb⟩ := List.exists_mem_of_length_pos (Nat.lt_of_lt_of_le Nat.zero_lt_one
          (Nat.le_of_lt (Nat.lt_of_not_le hlen)))
        obtain ⟨block', hf, hg, ht⟩ := he b hb
        exact ⟨b, block', _, _, hf, ht, hmoved hb hg (hne hf),
          Option.some.inj (hgn'.symm.trans hn)⟩
      · have hmem : n' ∉ e.2 := by
          intro hmem
          obtain ⟨_, hf, -⟩ := he n' hmem
          exact absurd (hf.symm.trans hfn') (by simp)
        rw [hkept hmem hnn] at hgn'
        obtain ⟨b, block', target, inputs, hfb, ht, hg, rfl⟩ := h.new n' block hgn' hfn'
        refine ⟨b, block', target, inputs, hfb, ht, ?_, rfl⟩
        rw [hkept _ (hne hfb), hg]
        intro hb
        -- the block was not moved yet
        obtain ⟨block'', hf', hg', ht'⟩ := he b hb
        obtain rfl := Option.some.inj (hfb.symm.trans hf')
        have hsame := congrArg Block.terminator (Option.some.inj (hg.symm.trans hg'))
        obtain ⟨_, hn', -⟩ := hf.targets b block' _ hfb hsame.symm n' (List.mem_singleton_self n')
        exact absurd (hn'.symm.trans hfn') (by simp)
    · intro e' he' b hb
      obtain ⟨block, hf, hg, ht⟩ := hold e' he' b hb
      refine ⟨block, hf, ?_, ht⟩
      rw [hkept _ (hne hf), hg]
      intro hmem
      obtain ⟨block', hf', -, ht'⟩ := he b hmem
      obtain rfl := Option.some.inj (hf.symm.trans hf')
      have hkey := Terminator.jmp.inj (Option.some.inj (ht.symm.trans ht'))
      exact hrest e' he' (Prod.ext hkey.1 hkey.2)

/-- The pass succeeds, whatever the order of the unifications, and leaves the function with
detours. -/
theorem detours_deduplicatePhis {f : Function} {constants : List (ValueId × Constant)}
    (hf : f.WellFormed constants) {order : Unifications} (horder : order.Perm (unifications f)) :
    ∃ g, deduplicatePhis f order = some g ∧ Detours f g := by
  have hfold (rest : Unifications) (g : Function) (h : Detours f g) (hpending : Pending f g rest)
      (hkeys : (rest.map Prod.fst).Nodup) : ∃ g', rest.foldlM unify g = some g' ∧ Detours f g' := by
    induction rest generalizing g with
    | nil => exact ⟨g, rfl, h⟩
    | cons e rest ih =>
      rw [List.map_cons, List.nodup_cons] at hkeys
      obtain ⟨g₁, hstep, h₁, hpending₁⟩ := h.unify hf hpending fun e' he' heq =>
        hkeys.1 (heq ▸ List.mem_map_of_mem he')
      obtain ⟨g', hrest, h'⟩ := ih g₁ h₁ hpending₁ hkeys.2
      refine ⟨g', ?_, h'⟩
      rw [List.foldlM_cons, hstep]
      exact hrest
  refine hfold order f (.refl hf) ?_ ((horder.map Prod.fst).nodup_iff.mpr (nodup_unifications f))
  intro e he b hb
  obtain ⟨block, hblock, ht⟩ := terminator_of_mem_unifications hf.keys (horder.mem_iff.mp he) hb
  exact ⟨block, hblock, hblock, ht⟩

/-! ## Paths

A detour is passed through and never entered otherwise.
-/

section Paths

variable {f g : Function} {constants : List (ValueId × Constant)} (hf : f.WellFormed constants)
  (h : Detours f g)

include h

/-- An edge between blocks of `f` was there before. -/
theorem Detours.edge_old {a b : BlockId} (hab : g.Edge a b) (ha : f.hasBlock a = true)
    (hb : f.hasBlock b = true) : f.Edge a b := by
  obtain ⟨block, t, hg, ht, hmem⟩ := hab
  obtain ⟨fblock, hfa⟩ := Option.isSome_iff_exists.mp ha
  rcases h.old a fblock hfa with hga | ⟨n, target, inputs, -, hga, hfn, -⟩
  · obtain rfl := Option.some.inj (hg.symm.trans hga)
    exact ⟨block, t, hfa, ht, hmem⟩
  · obtain rfl := Option.some.inj (hg.symm.trans hga)
    obtain rfl := Option.some.inj ht
    obtain rfl : b = n := List.mem_singleton.mp hmem
    exact absurd hfn (by rw [← Function.hasBlock_eq_false]; simpa using hb)

include hf

/-- The block before a detour makes the jump of the detour in `f`. -/
theorem Detours.edge_new {a n : BlockId} (han : g.Edge a n) (hn : f.block n = none) :
    ∃ block target inputs, f.block a = some block ∧
      block.terminator = some (.jmp target inputs) ∧
      g.block n = some { terminator := some (.jmp target inputs) } := by
  obtain ⟨block, t, hg, ht, hmem⟩ := han
  cases hfa : f.block a with
  | none =>
    obtain ⟨b, block', target, inputs, hfb, ht', -, rfl⟩ := h.new a block hg hfa
    obtain rfl := Option.some.inj ht
    obtain ⟨_, hn', -⟩ := hf.targets b block' _ hfb ht' n hmem
    exact absurd (hn'.symm.trans hn) (by simp)
  | some fblock =>
    rcases h.old a fblock hfa with hga | ⟨n', target, inputs, ht', hga, hfn, hgn⟩
    · obtain rfl := Option.some.inj (hg.symm.trans hga)
      obtain ⟨_, hn', -⟩ := hf.targets a block t hfa ht n hmem
      exact absurd (hn'.symm.trans hn) (by simp)
    · obtain rfl := Option.some.inj (hg.symm.trans hga)
      obtain rfl := Option.some.inj ht
      obtain rfl : n = n' := List.mem_singleton.mp hmem
      exact ⟨fblock, target, inputs, rfl, ht', hgn⟩

/-- A path without its detours is a path of `f`. -/
theorem Detours.walk {hist : List BlockId} (hwalk : Walk g.entryBlock g.Edge hist) :
    Walk f.entryBlock f.Edge (hist.filter f.hasBlock) := by
  have hentry : f.hasBlock g.entryBlock = true := by
    obtain ⟨block, hblock⟩ := hf.entry
    rw [h.entryBlock]
    exact Function.hasBlock_of_eq hblock
  induction hwalk with
  | start =>
    rw [List.filter_cons_of_pos hentry, List.filter_nil, h.entryBlock]
    exact .start
  | @step a b hist hwalk hab ih =>
    by_cases hb : f.hasBlock b = true
    · rw [List.filter_cons_of_pos hb]
      by_cases ha : f.hasBlock a = true
      · rw [List.filter_cons_of_pos ha] at ih ⊢
        exact ih.step (h.edge_old hab ha hb)
      · -- the way leads through the detour `a`, from the block before it
        rw [List.filter_cons_of_neg ha] at ih ⊢
        rw [Function.hasBlock_eq_false] at ha
        cases hwalk with
        | start =>
          exact absurd ha (by rw [← Function.hasBlock_eq_false]; simpa using hentry)
        | @step c _ older hwalk hca =>
          obtain ⟨block, target, inputs, hfc, ht, hga⟩ := h.edge_new hf hca ha
          obtain ⟨ablock, t, hga', hta, hmem⟩ := hab
          obtain rfl := Option.some.inj (hga.symm.trans hga')
          obtain rfl := Option.some.inj hta
          have hc := Function.hasBlock_of_eq hfc
          rw [List.filter_cons_of_pos hc] at ih ⊢
          exact ih.step ⟨block, _, hfc, ht, hmem⟩
    · rw [List.filter_cons_of_neg hb]
      exact ih

theorem Detours.dominates {d b : BlockId} (hb : f.hasBlock b = true)
    (hdom : Dominates f.entryBlock f.Edge d b) : Dominates g.entryBlock g.Edge d b := by
  intro hist hwalk
  have hfwalk := h.walk hf hwalk
  rw [List.filter_cons_of_pos hb] at hfwalk
  rcases List.mem_cons.mp (hdom _ hfwalk) with rfl | hmem
  · exact List.mem_cons_self
  · exact List.mem_cons_of_mem _ (List.mem_filter.mp hmem).1

omit hf in
/-- Each block of `f` is still reached. -/
theorem Detours.reachable {hist : List BlockId} (hwalk : Walk f.entryBlock f.Edge hist) :
    ∀ b, hist.head? = some b → Reachable g.entryBlock g.Edge b := by
  induction hwalk with
  | start =>
    intro b hb
    obtain rfl : f.entryBlock = b := by simpa using hb
    exact ⟨[], h.entryBlock ▸ .start⟩
  | @step a b' hist _ hab ih =>
    intro b hb
    obtain rfl : b' = b := by simpa using hb
    obtain ⟨older, hwalk⟩ := ih a rfl
    obtain ⟨block, t, hfa, ht, hmem⟩ := hab
    rcases h.old a block hfa with hga | ⟨n, target, inputs, ht', hga, -, hgn⟩
    · exact ⟨_, hwalk.step ⟨block, t, hga, ht, hmem⟩⟩
    · obtain rfl := Option.some.inj (ht.symm.trans ht')
      exact ⟨_, (hwalk.step ⟨_, _, hga, rfl, List.mem_singleton_self n⟩).step
        ⟨_, _, hgn, rfl, hmem⟩⟩

end Paths

/-! ## The function with detours is well formed

What the jump of a detour reads is available there, for it is so in each of its predecessors.
-/

/-- An available value is a constant or comes from a block on every path. -/
theorem exists_dominating_definition {f : Function} {constants : List (ValueId × Constant)}
    {b : BlockId} {block : Block} (hb : f.block b = some block) {v : ValueId}
    (h : f.Available constants b block.instructions v) : (constants.lookup v).isSome ∨
      ∃ d, f.DefinedIn d v ∧ Dominates f.entryBlock f.Edge d b := by
  cases h with
  | constant h => exact .inl h
  | param h hv => exact .inr ⟨b, ⟨_, h, List.mem_append_left _ hv⟩, .refl b⟩
  | result hv => exact .inr ⟨b, ⟨block, hb, List.mem_append_right _ hv⟩, .refl b⟩
  | dominated _ hdom hdef => exact .inr ⟨_, hdef, hdom⟩

section WellFormed

variable {f g : Function} {constants : List (ValueId × Constant)} (hf : f.WellFormed constants)
  (h : Detours f g)

include h

/-- A block of `f` keeps its parameters and its instructions. -/
theorem Detours.exists_old {b : BlockId} {block : Block} (hb : f.block b = some block) :
    ∃ t, g.block b = some { block with terminator := t } := by
  rcases h.old b block hb with hg | ⟨n, _, _, -, hg, -⟩
  · exact ⟨block.terminator, hg⟩
  · exact ⟨_, hg⟩

theorem Detours.definedIn_iff {b : BlockId} {v : ValueId} :
    g.DefinedIn b v ↔ f.DefinedIn b v := by
  constructor
  · rintro ⟨gblock, hg, hv⟩
    cases hb : f.block b with
    | none =>
      obtain ⟨_, _, _, _, -, -, -, rfl⟩ := h.new b gblock hg hb
      exact absurd hv List.not_mem_nil
    | some block =>
      obtain ⟨t, hg'⟩ := h.exists_old hb
      obtain rfl := Option.some.inj (hg.symm.trans hg')
      exact ⟨block, hb, hv⟩
  · rintro ⟨block, hb, hv⟩
    obtain ⟨t, hg⟩ := h.exists_old hb
    exact ⟨_, hg, hv⟩

include hf

theorem Detours.available {b : BlockId} {block : Block} (hb : f.block b = some block)
    {pre : List OpCode} {v : ValueId} (hv : f.Available constants b pre v) :
    g.Available constants b pre v := by
  cases hv with
  | constant hv => exact .constant hv
  | param hb' hv =>
    obtain ⟨t, hg⟩ := h.exists_old hb'
    exact .param hg hv
  | result hv => exact .result hv
  | dominated hne hdom hdef =>
    exact .dominated hne (h.dominates hf (Function.hasBlock_of_eq hb) hdom)
      (h.definedIn_iff.mpr hdef)

/-- What the jump of a detour reads is available in the detour: it is so in each block that
leads there, and they are reached through one definition. -/
theorem Detours.available_new {b n : BlockId} {block : Block} {target : BlockId}
    {inputs : List ValueId} (hb : f.block b = some block)
    (ht : block.terminator = some (.jmp target inputs)) (hn : f.block n = none)
    (hgn : g.block n = some { terminator := some (.jmp target inputs) }) {v : ValueId}
    (hv : v ∈ inputs) : g.Available constants n [] v := by
  have hstrict {b : BlockId} {block : Block} (hb : f.block b = some block)
      (ht : block.terminator = some (.jmp target inputs)) :
      (constants.lookup v).isSome ∨ ∃ d, f.DefinedIn d v ∧ Dominates f.entryBlock f.Edge d b :=
    exists_dominating_definition hb
      (hf.strict.terminator b block _ (hf.reachable b block hb) hb ht v hv)
  rcases hstrict hb ht with hconst | ⟨d, hdef, -⟩
  · exact .constant hconst
  · refine .dominated ?_ ?_ (h.definedIn_iff.mpr hdef)
    · rintro rfl
      obtain ⟨_, hd, -⟩ := hdef
      exact absurd (hd.symm.trans hn) (by simp)
    · intro hist hwalk
      cases hwalk with
      | start =>
        obtain ⟨_, hentry⟩ := hf.entry
        rw [← h.entryBlock] at hentry
        exact absurd (hentry.symm.trans hn) (by simp)
      | @step c _ older hwalk hcn =>
        obtain ⟨cblock, target', inputs', hc, htc, hgn'⟩ := h.edge_new hf hcn hn
        obtain ⟨rfl, rfl⟩ := Terminator.jmp.inj (Option.some.inj
          (congrArg Block.terminator (Option.some.inj (hgn.symm.trans hgn'))))
        rcases hstrict hc htc with hconst | ⟨d', hdef', hdom⟩
        · rw [hf.ssa.noConstant d v hdef] at hconst
          simp at hconst
        · obtain rfl := hf.ssa.block v d d' hdef hdef'
          exact List.mem_cons_of_mem _ (h.dominates hf (Function.hasBlock_of_eq hc) hdom _ hwalk)

theorem Detours.wellFormed : g.WellFormed constants where
  keys := h.keys
  fresh := h.fresh
  entry := by
    obtain ⟨block, hb⟩ := hf.entry
    obtain ⟨t, hg⟩ := h.exists_old hb
    rw [h.entryBlock]
    exact ⟨_, hg⟩
  terminated b gblock hg := by
    cases hb : f.block b with
    | none =>
      obtain ⟨_, _, _, _, -, -, -, rfl⟩ := h.new b gblock hg hb
      exact ⟨_, rfl⟩
    | some block =>
      rcases h.old b block hb with hg' | ⟨n, _, _, -, hg', -⟩
      · obtain rfl := Option.some.inj (hg.symm.trans hg')
        exact hf.terminated b gblock hb
      · obtain rfl := Option.some.inj (hg.symm.trans hg')
        exact ⟨_, rfl⟩
  targets b gblock t hg ht b' hb' := by
    have hold {b : BlockId} {block : Block} (hb : f.block b = some block)
        (ht : block.terminator = some t) :
        ∃ block', g.block b' = some block' ∧ t.arguments.length = block'.parameters.length := by
      obtain ⟨block', hfb', hlen⟩ := hf.targets b block t hb ht b' hb'
      obtain ⟨t', hgb'⟩ := h.exists_old hfb'
      exact ⟨_, hgb', hlen⟩
    cases hb : f.block b with
    | none =>
      obtain ⟨_, _, _, _, hf', ht', -, rfl⟩ := h.new b gblock hg hb
      obtain rfl := Option.some.inj ht
      exact hold hf' ht'
    | some block =>
      rcases h.old b block hb with hg' | ⟨n, _, _, -, hg', -, hgn⟩
      · obtain rfl := Option.some.inj (hg.symm.trans hg')
        exact hold hb ht
      · obtain rfl := Option.some.inj (hg.symm.trans hg')
        obtain rfl := Option.some.inj ht
        obtain rfl : b' = n := List.mem_singleton.mp hb'
        exact ⟨_, hgn, rfl⟩
  reachable b gblock hg := by
    have hold {b : BlockId} {block : Block} (hb : f.block b = some block) :
        Reachable g.entryBlock g.Edge b := by
      obtain ⟨hist, hwalk⟩ := hf.reachable b block hb
      exact h.reachable hwalk b rfl
    cases hb : f.block b with
    | none =>
      obtain ⟨b', block', _, _, hf', -, hg', rfl⟩ := h.new b gblock hg hb
      obtain ⟨hist, hwalk⟩ := hold hf'
      exact ⟨_, hwalk.step ⟨_, _, hg', rfl, List.mem_singleton_self b⟩⟩
    | some block => exact hold hb
  ssa := by
    refine ⟨?_, ?_, ?_⟩
    · intro b gblock hg
      cases hb : f.block b with
      | none =>
        obtain ⟨_, _, _, _, -, -, -, rfl⟩ := h.new b gblock hg hb
        exact List.nodup_nil
      | some block =>
        obtain ⟨t, hg'⟩ := h.exists_old hb
        obtain rfl := Option.some.inj (hg.symm.trans hg')
        exact hf.ssa.once b block hb
    · intro v b b' hb hb'
      exact hf.ssa.block v b b' (h.definedIn_iff.mp hb) (h.definedIn_iff.mp hb')
    · intro b v hb
      exact hf.ssa.noConstant b v (h.definedIn_iff.mp hb)
  strict := by
    constructor
    · intro b gblock pre op post _ hg hsplit v hv
      cases hb : f.block b with
      | none =>
        obtain ⟨_, _, _, _, -, -, -, rfl⟩ := h.new b gblock hg hb
        exact absurd hsplit (by simp)
      | some block =>
        obtain ⟨t, hg'⟩ := h.exists_old hb
        obtain rfl := Option.some.inj (hg.symm.trans hg')
        exact h.available hf hb
          (hf.strict.instruction b block pre op post (hf.reachable b block hb) hb hsplit v hv)
    · intro b gblock t _ hg ht v hv
      cases hb : f.block b with
      | none =>
        obtain ⟨_, _, _, _, hf', ht', -, rfl⟩ := h.new b gblock hg hb
        obtain rfl := Option.some.inj ht
        exact h.available_new hf hf' ht' hb hg hv
      | some block =>
        rcases h.old b block hb with hg' | ⟨n, _, _, -, hg', -⟩
        · obtain rfl := Option.some.inj (hg.symm.trans hg')
          exact h.available hf hb
            (hf.strict.terminator b gblock t (hf.reachable b gblock hb) hb ht v hv)
        · obtain rfl := Option.some.inj (hg.symm.trans hg')
          obtain rfl := Option.some.inj ht
          exact absurd hv List.not_mem_nil

end WellFormed

/-! ## Runs

The two functions meet again in blocks of the original.
-/

section Runs

variable {V W : Type} {S : Sem V W} {K : Env V} {f g : Function}
  {constants : List (ValueId × Constant)} (h : Detours f g)

include h

theorem Detours.enter {target : BlockId} {block : Block} (hb : f.block target = some block)
    (args : List V) (env : Env V) (w : W) :
    Hlssa.enter g target args env w = Hlssa.enter f target args env w := by
  obtain ⟨t, hg⟩ := h.exists_old hb
  rw [Hlssa.enter, Hlssa.enter, hb, hg]

variable [DecidableEq V] (hf : f.WellFormed constants)

include hf

/-- A terminator of `f` does the same in both functions. -/
theorem Detours.execTerminator {b : BlockId} {block : Block} {t : Terminator}
    (hb : f.block b = some block) (ht : block.terminator = some t) (env : Env V) (w : W) :
    Hlssa.execTerminator S K g env w t = Hlssa.execTerminator S K f env w t := by
  have htarget (b' : BlockId) (hb' : b' ∈ t.targets) (args : List V) :
      Hlssa.enter g b' args env w = Hlssa.enter f b' args env w := by
    obtain ⟨block', hfb', -⟩ := hf.targets b block t hb ht b' hb'
    exact h.enter hfb' args env w
  cases t with
  | jmp target args =>
    rw [Hlssa.execTerminator, Hlssa.execTerminator]
    split
    · exact htarget target (List.mem_singleton_self _) _
    · rfl
  | jmpIf cond ifT ifF =>
    rw [Hlssa.execTerminator, Hlssa.execTerminator, htarget ifT (by simp [Terminator.targets]),
      htarget ifF (by simp [Terminator.targets])]
  | «return» vals => rfl

/-- In a block of `f` the functions do the same, but that `g` may take a detour. -/
theorem Detours.rejoins : Rejoins (blockStep S K f) (blockStep S K g)
    fun s s' : State V W => s = s' ∧ f.hasBlock s.block = true := by
  rintro s s' ⟨rfl, hs⟩
  obtain ⟨block, hb⟩ := Option.isSome_iff_exists.mp hs
  obtain ⟨t, ht⟩ := hf.terminated s.block block hb
  -- where `f` goes on, it goes on in one of its blocks
  have hstay (s₁ : State V W) (h₁ : blockStep S K f s = .inr s₁) :
      s₁ = s₁ ∧ f.hasBlock s₁.block = true := by
    refine ⟨rfl, ?_⟩
    unfold blockStep at h₁
    cases hstep : stepBlock S K f s with
    | failed w => simp [hstep, Outcome.toSum] at h₁
    | returned xs w => simp [hstep, Outcome.toSum] at h₁
    | jumped s₂ =>
      obtain rfl : s₂ = s₁ := by simpa [hstep, Outcome.toSum] using h₁
      obtain ⟨_, _, _, _, _, _, -, -, -, hb', rfl⟩ := stepBlock_eq_jumped hstep
      exact Function.hasBlock_of_eq hb'
  rcases h.old s.block block hb with hg | ⟨n, target, inputs, ht', hg, -, hgn⟩
  · refine ⟨0, 0, ?_⟩
    rw [iterate_one, iterate_one]
    refine .of_eq ?_ hstay
    rw [blockStep, blockStep, stepBlock, stepBlock, hb, hg]
    simp only [ht, h.execTerminator hf hb ht]
  · obtain rfl := Option.some.inj (ht.symm.trans ht')
    cases hops : execInstructions S K block.instructions s.env s.world with
    | mk w env? =>
      cases env? with
      | none =>
        refine ⟨0, 0, ?_⟩
        rw [iterate_one, iterate_one]
        refine .of_eq ?_ hstay
        rw [blockStep, blockStep, stepBlock, stepBlock, hb, hg]
        simp only [hops]
      | some env =>
        have hfirst : blockStep S K g s = .inr ⟨n, env, w⟩ := by
          rw [blockStep, stepBlock, hg]
          simp only [hops, Hlssa.execTerminator, List.mapM_nil, Option.pure_def, Hlssa.enter, hgn]
          rfl
        refine ⟨0, 1, ?_⟩
        rw [iterate_one, iterate_two _ hfirst]
        refine .of_eq ?_ hstay
        rw [blockStep, blockStep, stepBlock, stepBlock, hb, hgn]
        simp only [hops, ht, execInstructions, h.execTerminator hf hb ht]

/-- The functions run alike from any state in which `f` is entered. -/
theorem Detours.sameRuns {s : State V W} (hs : f.Initial s) : SameRuns S K f g s s := by
  obtain ⟨hentry, block, -, hb, -⟩ := hs
  have hstart : s = s ∧ f.hasBlock s.block = true :=
    ⟨rfl, Function.hasBlock_of_eq (hentry ▸ hb)⟩
  intro k
  obtain ⟨m, n, hm, hn, hmeet⟩ := (h.rejoins hf).forever hstart k
  refine ⟨m, n, hm, hn, hmeet.mono ?_⟩
  rintro t t' ⟨rfl, -⟩
  rfl

end Runs

end Mavros.DeduplicatePhis
