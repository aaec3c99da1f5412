/-
# `Mavros.Hlssa.Available` — facts that hold where a value is available

A value is available at a point when every path to the point has defined it.  In a loop
the values an instruction has read may change before the instruction runs again, so
what holds right after an instruction need not hold for ever.  It does hold wherever the
instruction's result is available (`Reached.persists`): in strict single-assignment form
nothing it speaks about can have been redefined there.

## What is modelled

`Function.Available` is the definition over paths, inductive, and `Function.Strict` asks that
what the reachable part reads be available where it is read.  `Reached` is a point in the middle
of a block of a run: the instructions done, those still to do, and the environment there.

## What is proved

* `Function.Available.after`, `Function.Available.of_after`: where a value is available, the
  point after the instruction that computes it has been passed, and what is available there is
  available here.
* `Reached.persists`: a property of the values available after an instruction holds at every
  point that the result is available at, if it holds whenever the instruction has just run.

The second is how a fact that a pass knows from an instruction (a value is in a range, a value
is one limb of another) is carried to where the pass uses it.
-/
import Mavros.Hlssa.Runs

namespace Mavros.Hlssa

open Lib (Walk Reachable Dominates exists_recent)

/-- Every path to the point of `b` after the instructions `pre` defines `v`. -/
inductive Function.Available (f : Function) (constants : List (ValueId × Constant)) (b : BlockId)
    (pre : List OpCode) (v : ValueId) : Prop
  | constant (h : (constants.lookup v).isSome)
  | param {block : Block} (h : f.block b = some block) (hv : v ∈ block.parameters.map Prod.fst)
  | result (hv : v ∈ pre.flatMap OpCode.results)
  | dominated {d : BlockId} (hne : d ≠ b) (hdom : Dominates f.entryBlock f.Edge d b)
      (hdef : f.DefinedIn d v)

/-- In the reachable part, values are read where they are available. -/
structure Function.Strict (f : Function) (constants : List (ValueId × Constant)) : Prop where
  instruction : ∀ b block pre op post, Reachable f.entryBlock f.Edge b →
    f.block b = some block → block.instructions = pre ++ op :: post →
      ∀ v ∈ op.inputs, f.Available constants b pre v
  terminator : ∀ b block t, Reachable f.entryBlock f.Edge b → f.block b = some block →
    block.terminator = some t → ∀ v ∈ t.inputs, f.Available constants b block.instructions v

section Available

variable {f : Function} {constants : List (ValueId × Constant)} {b : BlockId}
  {pre : List OpCode} {v : ValueId}

theorem Function.Available.append (h : f.Available constants b pre v) (post : List OpCode) :
    f.Available constants b (pre ++ post) v := by
  cases h with
  | constant h => exact .constant h
  | param h hv => exact .param h hv
  | result hv => exact .result (by rw [List.flatMap_append]; exact List.mem_append_left _ hv)
  | dominated hne hdom hdef => exact .dominated hne hdom hdef

/-- An available value is not defined later in the block. -/
theorem Function.Available.notMem_later (hssa : f.SingleAssignment constants)
    (h : f.Available constants b pre v) {block : Block} {post : List OpCode}
    (hblock : f.block b = some block) (hsplit : block.instructions = pre ++ post) :
    v ∉ post.flatMap OpCode.results := by
  intro hv
  have hdefs : block.definitions = block.parameters.map Prod.fst ++
      (pre.flatMap OpCode.results ++ post.flatMap OpCode.results) := by
    rw [Block.definitions, hsplit, List.flatMap_append]
  have hnodup := hssa.once b block hblock
  rw [hdefs, List.nodup_append] at hnodup
  have hdef : f.DefinedIn b v := ⟨block, hblock, by
    rw [hdefs]
    exact List.mem_append_right _ (List.mem_append_right _ hv)⟩
  cases h with
  | constant h =>
    rw [hssa.noConstant b v hdef] at h
    simp at h
  | param h hparam =>
    obtain rfl := Option.some.inj (hblock.symm.trans h)
    exact hnodup.2.2 v hparam v (List.mem_append_right _ hv) rfl
  | result hpre => exact (List.nodup_append.mp hnodup.2.1).2.2 v hpre v hv rfl
  | dominated hne _ hdef' => exact hne (hssa.block v _ _ hdef' hdef)

/-- The point of `b` after `pre` is the one after `dpre` in `d`, or later. -/
def Function.After (f : Function) (d : BlockId) (dpre : List OpCode) (b : BlockId)
    (pre : List OpCode) : Prop :=
  d = b ∧ dpre <+: pre ∨ d ≠ b ∧ Dominates f.entryBlock f.Edge d b

/-- An available result was computed by its instruction. -/
theorem Function.Available.after (hssa : f.SingleAssignment constants)
    (h : f.Available constants b pre v) {block dblock : Block} {post dpre dpost : List OpCode}
    {d : BlockId} {op : OpCode} (hblock : f.block b = some block)
    (hsplit : block.instructions = pre ++ post) (hd : f.block d = some dblock)
    (hdsplit : dblock.instructions = dpre ++ op :: dpost) (hv : v ∈ op.results) :
    f.After d (dpre ++ [op]) b pre := by
  have hmem : v ∈ dblock.instructions.flatMap OpCode.results := by
    rw [hdsplit]
    simp [hv]
  have hdef : f.DefinedIn d v := ⟨dblock, hd, List.mem_append_right _ hmem⟩
  have hsame : ∀ {b'}, f.DefinedIn b' v → d = b' := fun h' => hssa.block v _ _ hdef h'
  cases h with
  | constant h =>
    rw [hssa.noConstant d v hdef] at h
    simp at h
  | param h hparam =>
    obtain rfl := hsame ⟨_, h, List.mem_append_left _ hparam⟩
    obtain rfl := Option.some.inj (hd.symm.trans h)
    have hnodup := hssa.once _ _ hd
    exact absurd rfl ((List.nodup_append.mp hnodup).2.2 v hparam v hmem)
  | result hpre =>
    have hmem' : v ∈ block.instructions.flatMap OpCode.results := by
      rw [hsplit, List.flatMap_append]
      exact List.mem_append_left _ hpre
    obtain rfl := hsame ⟨_, hblock, List.mem_append_right _ hmem'⟩
    obtain rfl := Option.some.inj (hd.symm.trans hblock)
    refine .inl ⟨rfl, ?_⟩
    have heq : dpre ++ op :: dpost = pre ++ post := hdsplit.symm.trans hsplit
    rcases List.append_eq_append_iff.mp heq with ⟨mid, rfl, hmid⟩ | ⟨mid, rfl, hmid⟩
    · cases mid with
      | nil =>
        -- the value would be defined twice in the block
        exfalso
        have hnodup := (List.nodup_append.mp (hssa.once _ _ hblock)).2.1
        rw [hdsplit, List.flatMap_append, List.nodup_append] at hnodup
        exact hnodup.2.2 v (by simpa using hpre) v (by simp [hv]) rfl
      | cons op' mid =>
        obtain ⟨rfl, -⟩ := List.cons.inj hmid
        exact ⟨mid, by simp⟩
    · exfalso
      have hnodup := (List.nodup_append.mp (hssa.once _ _ hblock)).2.1
      rw [hdsplit, List.flatMap_append, List.nodup_append] at hnodup
      refine hnodup.2.2 v ?_ v (by simp [hv]) rfl
      rw [List.flatMap_append]
      exact List.mem_append_left _ hpre
  | dominated hne hdom hdef' =>
    obtain rfl := hsame hdef'
    exact .inr ⟨hne, hdom⟩

/-- What is available at a point is available after it. -/
theorem Function.Available.of_after {d : BlockId} {dpre : List OpCode}
    (hb : Reachable f.entryBlock f.Edge b) (hv : f.Available constants d dpre v)
    (h : f.After d dpre b pre) {dblock : Block} {dpost : List OpCode}
    (hd : f.block d = some dblock) (hdsplit : dblock.instructions = dpre ++ dpost) :
    f.Available constants b pre v := by
  rcases h with ⟨rfl, mid, rfl⟩ | ⟨hne, hdom⟩
  · exact hv.append mid
  · cases hv with
    | constant h => exact .constant h
    | param h hparam => exact .dominated hne hdom ⟨_, h, List.mem_append_left _ hparam⟩
    | result hres =>
      refine .dominated hne hdom ⟨dblock, hd, List.mem_append_right _ ?_⟩
      rw [hdsplit, List.flatMap_append]
      exact List.mem_append_left _ hres
    | @dominated e hne' hdom' hdef =>
      refine .dominated (fun heq => ?_) (hdom'.trans hdom) hdef
      subst heq
      exact hne' (Dominates.antisymm (hdom.reachable hb) hdom' hdom)

end Available

/-! ## Points of a run

The run that leads to the block, and a run of part of the block's instructions.
-/

section Reached

variable {V W : Type} [DecidableEq V] {S : Sem V W} {K : Env V} {f : Function}
  {constants : List (ValueId × Constant)} {init : State V W}

omit [DecidableEq V] in
theorem execInstructions_append (pre post : List OpCode) (env : Env V) (w : W) :
    execInstructions S K (pre ++ post) env w =
      match execInstructions S K pre env w with
      | (w, none) => (w, none)
      | (w, some env) => execInstructions S K post env w := by
  induction pre generalizing env w with
  | nil => rfl
  | cons op pre ih =>
    rw [List.cons_append, execInstructions, execInstructions]
    split
    · rfl
    · exact ih _ _

/-- A run stands in the block of `s`, the instructions `pre` done and `post` to do. -/
structure Reached (S : Sem V W) (K : Env V) (f : Function) (init s : State V W)
    (older : List (State V W)) (block : Block) (pre post : List OpCode) (env : Env V) (w : W) :
    Prop where
  run : Run S K f init (s :: older)
  atBlock : f.block s.block = some block
  split : block.instructions = pre ++ post
  exec : execInstructions S K pre s.env s.world = (w, some env)

variable {s : State V W} {older : List (State V W)} {block : Block} {pre post : List OpCode}
  {env : Env V} {w : W}

theorem Reached.reachable (h : Reached S K f init s older block pre post env w)
    (hinit : f.Initial init) : Reachable f.entryBlock f.Edge s.block :=
  ⟨_, h.run.walk hinit.1⟩

/-- The point earlier in the block that the run came from. -/
theorem Reached.earlier {mid : List OpCode}
    (h : Reached S K f init s older block (pre ++ mid) post env w) :
    ∃ env' w', Reached S K f init s older block pre (mid ++ post) env' w' ∧
      ∀ v, v ∉ mid.flatMap OpCode.results → env v = env' v := by
  have hexec := h.exec
  rw [execInstructions_append] at hexec
  split at hexec
  · simp at hexec
  · next w' env' h' =>
    exact ⟨env', w', ⟨h.run, h.atBlock, by rw [h.split, List.append_assoc], h'⟩,
      fun v hv => execInstructions_frame hexec hv⟩

/-- What holds whenever an instruction has run, and speaks about values available there,
holds at every point after it. -/
theorem Reached.persists (hssa : f.SingleAssignment constants) (hinit : f.Initial init)
    {d : BlockId} {dblock : Block} {dpre dpost : List OpCode} (hd : f.block d = some dblock)
    (hdsplit : dblock.instructions = dpre ++ dpost) {vs : List ValueId} {Φ : Env V → Prop}
    (hvs : ∀ v ∈ vs, f.Available constants d dpre v)
    (hcongr : ∀ env env' : Env V, (∀ v ∈ vs, env' v = env v) → Φ env → Φ env')
    (hest : ∀ t rest env w, t.block = d → Reached S K f init t rest dblock dpre dpost env w →
      Φ env)
    (h : Reached S K f init s older block pre post env w)
    (hafter : f.After d dpre s.block pre) : Φ env := by
  rcases hafter with ⟨rfl, mid, rfl⟩ | ⟨hne, hdom⟩
  · -- later in the same block
    obtain rfl := Option.some.inj (hd.symm.trans h.atBlock)
    obtain ⟨env', w', hreached, hkeep⟩ := h.earlier
    have hpost : dpost = mid ++ post :=
      List.append_cancel_left (hdsplit.symm.trans (h.split.trans (List.append_assoc ..)))
    refine hcongr env' env (fun v hv => hkeep v fun hmid => ?_)
      (hest s older env' w' rfl (hpost ▸ hreached))
    refine (hvs v hv).notMem_later hssa hd hdsplit ?_
    rw [hpost, List.flatMap_append]
    exact List.mem_append_left _ hmid
  · -- in a block the instruction's block dominates: look at its latest visit
    have hwalk := h.run.walk hinit.1
    have hmem : d ∈ (s :: older).map State.block := hdom _ hwalk
    obtain ⟨recentB, olderB, hcut, hnot⟩ := exists_recent hmem
    obtain ⟨recent, rest, hall, rfl, hrest⟩ := List.map_eq_append_iff.mp hcut
    obtain ⟨t, olderT, rfl, rfl, rfl⟩ := List.map_eq_cons_iff.mp hrest
    have hrecent : recent ≠ [] := by
      rintro rfl
      obtain ⟨rfl, -⟩ := List.cons.inj hall
      exact hne rfl
    have hrun : Run S K f init (recent ++ t :: olderT) := hall ▸ h.run
    obtain ⟨tblock, w', envT, htblock, hexecT, hkeep⟩ :=
      hrun.ended (s := s) hrecent (by rw [← hall]; rfl)
    obtain rfl := Option.some.inj (hd.symm.trans htblock)
    have hended : Reached S K f init t olderT dblock dblock.instructions [] envT w' :=
      ⟨hrun.suffix, hd, by simp, hexecT⟩
    have hundef : ∀ v ∈ vs, ∀ s' ∈ recent, ¬f.DefinedIn s'.block v := by
      intro v hv s' hs' hdef
      have hblock' : s'.block ≠ t.block := fun heq => hnot (heq ▸ List.mem_map_of_mem hs')
      have hin : ∀ {e}, f.DefinedIn e v → s'.block = e := fun hdef' => hssa.block v _ _ hdef hdef'
      cases hvs v hv with
      | constant hconst =>
        rw [hssa.noConstant _ _ hdef] at hconst
        simp at hconst
      | param hb hparam => exact hblock' (hin ⟨_, hb, List.mem_append_left _ hparam⟩)
      | result hres =>
        refine hblock' (hin ⟨dblock, hd, List.mem_append_right _ ?_⟩)
        rw [hdsplit, List.flatMap_append]
        exact List.mem_append_left _ hres
      | @dominated e hne' hdom' hdef' =>
        rw [hall, List.map_append, List.map_cons] at hwalk
        have hhead : (recent.map State.block ++ t.block :: olderT.map State.block).head?
            = some s.block := by
          rw [← List.map_cons, ← List.map_append, ← hall]
          rfl
        refine hdom'.notMem_recent_of_dominates hne' hdom hwalk hhead hnot ?_
        exact hin hdef' ▸ List.mem_map_of_mem hs'
    -- from the end of that visit nothing in the fact has changed
    obtain ⟨env', w'', hreached, hkeep'⟩ : ∃ env' w'', Reached S K f init t olderT dblock dpre dpost
        env' w'' ∧ ∀ v, v ∉ dpost.flatMap OpCode.results → envT v = env' v := by
      have hsplit : Reached S K f init t olderT dblock (dpre ++ dpost) [] envT w' :=
        ⟨hended.run, hd, by simpa using hdsplit, hdsplit ▸ hexecT⟩
      simpa using hsplit.earlier
    refine hcongr env' env (fun v hv => ?_) (hest t olderT env' w'' rfl hreached)
    have hcur : env v = s.env v := by
      refine execInstructions_frame h.exec fun hres => hundef v hv s ?_ ⟨block, h.atBlock, ?_⟩
      · cases recent with
        | nil => exact absurd rfl hrecent
        | cons s' recent =>
          obtain ⟨rfl, -⟩ := List.cons.inj hall
          exact List.mem_cons_self
      · refine List.mem_append_right _ ?_
        rw [h.split, List.flatMap_append]
        exact List.mem_append_left _ hres
    rw [hcur, hkeep v (hundef v hv)]
    exact hkeep' v ((hvs v hv).notMem_later hssa hd hdsplit)

end Reached

end Mavros.Hlssa
