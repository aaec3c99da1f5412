/-
# `Mavros.Frontend.AssignRun` — what an assignment does

The instructions of `convert_assign` are run over contents: containers with scalars and
references at their leaves, and a memory of cells.  The descent binds the containers on the
way to the place, the ascent puts each together again, and the store leaves the cell of the
root with one place changed.

## What is proved

`changesPlace`: an assignment to a place that is there runs, and afterwards the place holds the
new value while every place that parts from it on the way, and every other cell, holds what it
held.  An assignment to a place that is not there fails before it has written anything.  The
path is of any length, through arrays, slices and tuples in any order.

## How it goes

The descent is `spine` and the ascent is `plug`, both of `Mavros.Lib.Places`: `exec_descend` and
`exec_ascend` say so by induction over the steps, with the environment that the instructions so far
have bound.  What one step binds is new, so the environments agree below the first fresh value
(`SameBefore`), and the operands of the steps are read below it.

## What it is not

Indices are taken as positions that are there or not.  How an index is checked on a machine, and
what the constraint system makes of an index out of range, is not the subject here.
-/
import Mavros.Frontend.Assign
import Mavros.Hlssa.Available
import Mavros.Lib.Lists
import Mavros.Lib.Places

namespace Mavros.Hlssa

open Lib (Nest)

/-- What is at the leaves of a value. -/
inductive Leaf where
  | word (value : Nat)
  | field (value : Fr)
  | cell (ptr : Nat)
  | fnPtr (f : FunctionId)

abbrev Contents := Nest Leaf
abbrev Cells := Nat → Option Contents

/-- The instructions of an assignment, on arrays, slices and tuples alike. -/
def contentsSem : Sem Contents Cells where
  const
    | .u _ value | .i _ value => .leaf (.word value)
    | .field value => .leaf (.field value)
    | .fnPtr f => .leaf (.fnPtr f)
  op
    | .load _ _, [.leaf (.cell ptr)], mem => (mem, (mem ptr).map fun x => [x])
    | .store _ _, [.leaf (.cell ptr), x], mem => (Function.update mem ptr (some x), some [])
    | .arrayGet _ _ _, [.node elems, .leaf (.word n)], mem => (mem, elems[n]?.map fun x => [x])
    | .arraySet _ _ _ _, [.node elems, .leaf (.word n), x], mem =>
        (mem, if n < elems.length then some [.node (elems.set n x)] else none)
    | .tupleProj _ _ n, [.node elems], mem => (mem, elems[n]?.map fun x => [x])
    | .mkTuple _ _ _, xs, mem => (mem, some [.node xs])
    | _, _, mem => (mem, none)

namespace AccessStep

/-- The position a step takes. -/
def position (read : ValueId → Option Contents) : AccessStep → Option Nat
  | index idx =>
    match read idx with
    | some (.leaf (.word n)) => some n
    | _ => none
  | field fieldIdx _ => some fieldIdx

theorem read_of_position {read : ValueId → Option Contents} {idx : ValueId} {n : Nat}
    (h : (index idx).position read = some n) : read idx = some (.leaf (.word n)) := by
  rw [position] at h
  split at h
  · next n' heq => rw [heq, Option.some.inj h]
  · cases h

/-- A field comes with a type for each field of its tuple. -/
def Fits (elems : List Contents) : AccessStep → Prop
  | index _ => True
  | field _ types => types.length = elems.length

/-- The steps fit the containers they lead through. -/
def FitAll : List AccessStep → List Nat → Contents → Prop
  | step :: steps, n :: path, .node elems =>
      step.Fits elems ∧ ∀ child, elems[n]? = some child → FitAll steps path child
  | _, _, _ => True

end AccessStep

section Run

variable {K env env' : Env Contents} {mem : Cells} {next : Nat} {ops : List OpCode}

/-- The environments bind the values before `next` alike. -/
def SameBefore (next : Nat) (env env' : Env Contents) : Prop := ∀ v < next, env' v = env v

theorem SameBefore.trans {env'' : Env Contents} {next' : Nat} (h : SameBefore next env env')
    (h' : SameBefore next' env' env'') (hle : next ≤ next') : SameBefore next env env'' :=
  fun v hv => (h' v (hv.trans_le hle)).trans (h v hv)

theorem SameBefore.update {v : Nat} (x : Option Contents) (h : next ≤ v) :
    SameBefore next env (Function.update env v x) :=
  fun _ hu => Function.update_of_ne (Nat.ne_of_lt (hu.trans_le h)) _ _

theorem SameBefore.read (h : SameBefore next env env') {v : Nat} (hv : v < next) :
    Env.read K env' v = Env.read K env v := by
  rw [Env.read, Env.read, h v hv]

theorem SameBefore.position (h : SameBefore next env env') {step : AccessStep}
    (hstep : ∀ v ∈ step.operands, v < next) :
    step.position (Env.read K env') = step.position (Env.read K env) := by
  cases step with
  | index idx =>
    rw [AccessStep.position, AccessStep.position, h.read (hstep idx List.mem_cons_self)]
  | field fieldIdx types => rfl

/-- No constant is named as a result. -/
def NoConstants (K : Env Contents) (ops : List OpCode) : Prop :=
  ∀ v ∈ ops.flatMap OpCode.results, K v = none

theorem NoConstants.left {ops' : List OpCode} (h : NoConstants K (ops ++ ops')) :
    NoConstants K ops :=
  fun v hv => h v (by rw [List.flatMap_append]; exact List.mem_append_left _ hv)

theorem NoConstants.right {ops' : List OpCode} (h : NoConstants K (ops ++ ops')) :
    NoConstants K ops' :=
  fun v hv => h v (by rw [List.flatMap_append]; exact List.mem_append_right _ hv)

theorem NoConstants.head {op : OpCode} (h : NoConstants K (op :: ops)) {v : ValueId}
    (hv : v ∈ op.results) : K v = none :=
  h v (by rw [List.flatMap_cons]; exact List.mem_append_left _ hv)

theorem NoConstants.tail {op : OpCode} (h : NoConstants K (op :: ops)) : NoConstants K ops :=
  fun v hv => h v (by rw [List.flatMap_cons]; exact List.mem_append_right _ hv)

theorem AccessStep.results_get (result parent : ValueId) (step : AccessStep) :
    result ∈ (step.get result parent).results := by
  cases step <;> exact List.mem_cons_self

theorem read_update (hK : K next = none) (x : Contents) :
    Env.read K (Function.update env next (some x)) next = some x := by
  rw [Env.read, hK, Function.update_self, Option.none_or]

/-! ## The way down -/

/-- A parent holds the container of its frame, and its step takes the frame's position. -/
structure Standing (read : ValueId → Option Contents) (parent : ValueId × AccessStep)
    (frame : List Contents × Nat) : Prop where
  holds : read parent.1 = some (.node frame.1)
  position : parent.2.position read = some frame.2
  inBounds : frame.2 < frame.1.length
  fits : parent.2.Fits frame.1

theorem Standing.congr {parent : ValueId × AccessStep} {frame : List Contents × Nat}
    (h : Standing (Env.read K env) parent frame) (hsame : SameBefore next env env')
    (hparent : parent.1 < next) (hstep : ∀ v ∈ parent.2.operands, v < next) :
    Standing (Env.read K env') parent frame where
  holds := (hsame.read hparent).trans h.holds
  position := (hsame.position hstep).trans h.position
  inBounds := h.inBounds
  fits := h.fits

theorem exec_get_node {parent : ValueId} {step : AccessStep} {n : Nat} {elems : List Contents}
    (hread : Env.read K env parent = some (.node elems))
    (hstep : step.position (Env.read K env) = some n) :
    execInstruction contentsSem K (step.get next parent) env mem
      = (mem, elems[n]?.map fun child => Function.update env next (some child)) := by
  cases step with
  | index idx =>
    have hidx : Env.read K env idx = some (.leaf (.word n)) := AccessStep.read_of_position hstep
    cases hn : elems[n]? <;>
      simp [execInstruction, AccessStep.get, OpCode.inputs, OpCode.results, OpCode.shape,
        OpCode.mapOperands, OpCode.mapInputs, OpCode.mapResults, contentsSem, hread, hidx, hn,
        Env.bindAll]
  | field fieldIdx types =>
    obtain rfl : fieldIdx = n := Option.some.inj hstep
    cases hn : elems[fieldIdx]? <;>
      simp [execInstruction, AccessStep.get, OpCode.inputs, OpCode.results, OpCode.shape,
        OpCode.mapOperands, OpCode.mapInputs, OpCode.mapResults, contentsSem, hread, hn,
        Env.bindAll]

theorem exec_get_leaf {parent : ValueId} {step : AccessStep} {n : Nat} {a : Leaf}
    (hread : Env.read K env parent = some (.leaf a))
    (hstep : step.position (Env.read K env) = some n) :
    execInstruction contentsSem K (step.get next parent) env mem = (mem, none) := by
  cases step with
  | index idx =>
    have hidx : Env.read K env idx = some (.leaf (.word n)) := AccessStep.read_of_position hstep
    simp [execInstruction, AccessStep.get, OpCode.inputs, OpCode.shape, OpCode.mapOperands,
      OpCode.mapInputs, OpCode.mapResults, contentsSem, hread, hidx]
  | field fieldIdx types =>
    simp [execInstruction, AccessStep.get, OpCode.inputs, OpCode.shape, OpCode.mapOperands,
      OpCode.mapInputs, OpCode.mapResults, contentsSem, hread]

/-- The positions a list of steps takes. -/
def Positions (read : ValueId → Option Contents) (steps : List AccessStep) (path : List Nat) :
    Prop := List.Forall₂ (fun step n => step.position read = some n) steps path

theorem SameBefore.positions {steps : List AccessStep} {path : List Nat}
    (h : SameBefore next env env') (hsteps : ∀ step ∈ steps, ∀ v ∈ step.operands, v < next)
    (hpath : Positions (Env.read K env) steps path) :
    Positions (Env.read K env') steps path :=
  Lib.forall₂_congr_left hpath fun step hstep _ hn => (h.position (hsteps step hstep)).trans hn

variable (mem) in
/-- The descent to a place that is there binds the containers on the way. -/
theorem exec_descend {steps : List AccessStep} {path : List Nat} {parent : Nat} {t : Contents}
    {frames : Nest.Spine Leaf} (hK : NoConstants K (descend (parent + 1) parent steps))
    (hparent : Env.read K env parent = some t)
    (hsteps : ∀ step ∈ steps, ∀ v ∈ step.operands, v < parent)
    (hpath : Positions (Env.read K env) steps path) (hspine : t.spine path = some frames)
    (hfit : AccessStep.FitAll steps path t) :
    ∃ env', execInstructions contentsSem K (descend (parent + 1) parent steps) env mem
        = (mem, some env') ∧ SameBefore (parent + 1) env env' ∧
      List.Forall₂ (Standing (Env.read K env')) ((List.range' parent steps.length).zip steps)
        frames := by
  induction steps generalizing parent t env frames path with
  | nil =>
    obtain rfl := List.forall₂_nil_left_iff.mp hpath
    obtain rfl : [] = frames := by cases t <;> exact Option.some.inj hspine
    exact ⟨env, rfl, fun _ _ => rfl, .nil⟩
  | cons step steps ih =>
    obtain ⟨n, path, hn, hrestPath, rfl⟩ := List.forall₂_cons_left_iff.mp hpath
    rw [List.forall_mem_cons] at hsteps
    cases t with
    | leaf a => cases hspine
    | node elems =>
      obtain ⟨child, rest, hchild, hrest, rfl⟩ := Nest.spine_cons_eq_some hspine
      have hget : execInstruction contentsSem K (step.get (parent + 1) parent) env mem
          = (mem, some (Function.update env (parent + 1) (some child))) := by
        rw [exec_get_node hparent hn, hchild, Option.map_some]
      have hsame : SameBefore (parent + 1) env
          (Function.update env (parent + 1) (some child)) := .update _ (Nat.le_refl _)
      obtain ⟨env', hexec, hsame', hstanding⟩ := ih
        hK.tail (read_update (hK.head (step.results_get _ _)) _)
        (fun step hstep v hv => Nat.lt_succ_of_lt (hsteps.2 step hstep v hv))
        (hsame.positions (fun step hstep v hv => Nat.lt_succ_of_lt (hsteps.2 step hstep v hv))
          hrestPath) hrest (hfit.2 child hchild)
      have hall : SameBefore (parent + 1) env env' := hsame.trans hsame' (Nat.le_succ _)
      refine ⟨env', ?_, hall, .cons ?_ hstanding⟩
      · rw [descend, execInstructions, hget]
        exact hexec
      · refine Standing.congr ⟨hparent, hn, (List.getElem?_eq_some_iff.mp hchild).1, hfit.1⟩ hall
          (Nat.lt_succ_self _) fun v hv => Nat.lt_succ_of_lt (hsteps.1 v hv)

/-- The descent to a place that is not there fails. -/
theorem exec_descend_none {steps : List AccessStep} {path : List Nat} {parent : Nat}
    {t : Contents} (hK : NoConstants K (descend (parent + 1) parent steps))
    (hparent : Env.read K env parent = some t)
    (hsteps : ∀ step ∈ steps, ∀ v ∈ step.operands, v < parent)
    (hpath : Positions (Env.read K env) steps path) (hspine : t.spine path = none) :
    execInstructions contentsSem K (descend (parent + 1) parent steps) env mem = (mem, none) := by
  induction steps generalizing parent t env path with
  | nil =>
    obtain rfl := List.forall₂_nil_left_iff.mp hpath
    cases t <;> cases hspine
  | cons step steps ih =>
    obtain ⟨n, path, hn, hrestPath, rfl⟩ := List.forall₂_cons_left_iff.mp hpath
    rw [List.forall_mem_cons] at hsteps
    rw [descend, execInstructions]
    cases t with
    | leaf a => rw [exec_get_leaf hparent hn]
    | node elems =>
      rw [exec_get_node hparent hn]
      cases hchild : elems[n]? with
      | none => rfl
      | some child =>
        have hrest : child.spine path = none := by
          cases hrest : child.spine path with
          | none => rfl
          | some rest => simp [Nest.spine, hchild, hrest] at hspine
        have hlt : ∀ step ∈ steps, ∀ v ∈ step.operands, v < parent + 1 :=
          fun step hstep v hv => Nat.lt_succ_of_lt (hsteps.2 step hstep v hv)
        exact ih hK.tail (read_update (hK.head (step.results_get _ _)) _) hlt
          (SameBefore.positions (.update _ (Nat.le_refl _)) hlt hrestPath) hrest

/-! ## The way up

One container at a time, with the child that was put together before.
-/

theorem exec_arraySet {array idx value : ValueId} {n : Nat} {elems : List Contents} {x : Contents}
    (harray : Env.read K env array = some (.node elems))
    (hidx : Env.read K env idx = some (.leaf (.word n)))
    (hvalue : Env.read K env value = some x) (hn : n < elems.length) :
    execInstruction contentsSem K (.arraySet next array idx value) env mem
      = (mem, some (Function.update env next (some (.node (elems.set n x))))) := by
  simp [execInstruction, OpCode.inputs, OpCode.results, OpCode.shape, OpCode.mapOperands,
    OpCode.mapInputs, OpCode.mapResults, contentsSem, harray, hidx, hvalue, hn, Env.bindAll]

variable (mem) in
/-- Projections of a tuple to fresh names. -/
theorem exec_projections {tuple : ValueId} {elems : List Contents} {fields : List Nat}
    {elem : Nat → ValueId}
    (hK : NoConstants K (fields.map fun i => .tupleProj (elem i) tuple i)) (htuple : tuple < next)
    (hread : Env.read K env tuple = some (.node elems))
    (hfresh : ∀ i ∈ fields, next ≤ elem i) (hnodup : (fields.map elem).Nodup)
    (hfields : ∀ i ∈ fields, i < elems.length) :
    ∃ env', execInstructions contentsSem K (fields.map fun i => .tupleProj (elem i) tuple i) env
        mem = (mem, some env') ∧ SameBefore next env env' ∧
      ∀ i ∈ fields, Env.read K env' (elem i) = elems[i]? := by
  induction fields generalizing env with
  | nil => exact ⟨env, rfl, fun _ _ => rfl, by simp⟩
  | cons i fields ih =>
    rw [List.forall_mem_cons] at hfresh hfields
    obtain ⟨hnotMem, hnodup⟩ := List.nodup_cons.mp hnodup
    have hproj : execInstruction contentsSem K (.tupleProj (elem i) tuple i) env mem
        = (mem, some (Function.update env (elem i) (some elems[i]))) := by
      rw [show OpCode.tupleProj (elem i) tuple i
        = AccessStep.get (elem i) tuple (.field i []) from rfl, exec_get_node hread rfl,
        List.getElem?_eq_getElem hfields.1, Option.map_some]
    have hsame : SameBefore next env (Function.update env (elem i) (some elems[i])) :=
      .update _ hfresh.1
    obtain ⟨env', hexec, hsame', hreads⟩ := ih hK.tail ((hsame.read htuple).trans hread)
      hfresh.2 hnodup hfields.2
    refine ⟨env', by rw [List.map_cons, execInstructions, hproj]; exact hexec,
      hsame.trans hsame' (Nat.le_refl _), fun j hj => ?_⟩
    rcases List.mem_cons.mp hj with rfl | hj
    · have hkept : env' (elem j) = some elems[j] := by
        rw [execInstructions_frame hexec
          (by simpa [OpCode.results, eq_comm] using hnotMem), Function.update_self]
      rw [Env.read, hK.head List.mem_cons_self, hkept, Option.none_or,
        List.getElem?_eq_getElem hfields.1]
    · exact hreads j hj

theorem countP_range_eq_count (p : Nat → Bool) (i : Nat) :
    (List.range i).countP p = Nat.count (fun n => p n = true) i := by
  induction i with
  | zero => rfl
  | succ i ih =>
    rw [List.range_succ, List.countP_append, ih, Nat.count_succ]
    simp [List.countP_singleton]

theorem exec_mkTuple {elems : List ValueId} {xs : List Contents} {types : List TypeExpr}
    (h : elems.mapM (Env.read K env) = some xs) :
    execInstruction contentsSem K (.mkTuple next elems types) env mem
      = (mem, some (Function.update env next (some (.node xs)))) := by
  simp [execInstruction, OpCode.inputs, OpCode.results, OpCode.shape, OpCode.mapOperands,
    OpCode.mapInputs, OpCode.mapResults, contentsSem, h, Env.bindAll]

/-- The name of a field of the tuple in the making. -/
def tupleElem (next targetField newValue count i : Nat) : ValueId :=
  if i = targetField then newValue
  else next + ((List.range count).take i).countP (· ≠ targetField)

theorem synthesizeTupleSet_eq (tuple targetField newValue : ValueId) (types : List TypeExpr) :
    synthesizeTupleSet next tuple targetField newValue types =
      (((List.range types.length).filter (· ≠ targetField)).map (fun i =>
          .tupleProj (tupleElem next targetField newValue types.length i) tuple i) ++
        [.mkTuple (next + ((List.range types.length).filter (· ≠ targetField)).length)
          ((List.range types.length).map
            (tupleElem next targetField newValue types.length)) types],
        next + ((List.range types.length).filter (· ≠ targetField)).length) := rfl

theorem tupleElem_self (newValue count i : Nat) : tupleElem next i newValue count i = newValue :=
  if_pos rfl

theorem tupleElem_of_ne {targetField newValue count i : Nat} (hi : i < count)
    (hne : i ≠ targetField) : tupleElem next targetField newValue count i
      = next + Nat.count (fun j => decide (j ≠ targetField) = true) i := by
  rw [tupleElem, if_neg hne, List.take_range, min_eq_left hi.le, countP_range_eq_count]

theorem exec_synthesizeTupleSet {tuple newValue : ValueId} {n : Nat} {elems : List Contents}
    {types : List TypeExpr} {x : Contents}
    (hK : NoConstants K (synthesizeTupleSet next tuple n newValue types).1)
    (htuple : tuple < next) (hnew : newValue < next)
    (hread : Env.read K env tuple = some (.node elems))
    (hvalue : Env.read K env newValue = some x) (htypes : types.length = elems.length) :
    ∃ env', execInstructions contentsSem K (synthesizeTupleSet next tuple n newValue types).1 env
        mem = (mem, some env') ∧ SameBefore next env env' ∧
      Env.read K env' (synthesizeTupleSet next tuple n newValue types).2
        = some (.node (elems.set n x)) := by
  rw [synthesizeTupleSet_eq] at hK ⊢
  generalize hothers : (List.range types.length).filter (· ≠ n) = others at hK ⊢
  have hmem : ∀ i ∈ others, i < types.length ∧ i ≠ n := fun i hi => by
    simpa [← hothers] using hi
  have hnodup : (others.map (tupleElem next n newValue types.length)).Nodup := by
    refine List.Nodup.map_on (fun i hi j hj hij => ?_) (hothers ▸ List.nodup_range.filter _)
    rw [tupleElem_of_ne (hmem i hi).1 (hmem i hi).2, tupleElem_of_ne (hmem j hj).1 (hmem j hj).2]
      at hij
    exact Nat.count_injective (by simpa using (hmem i hi).2) (by simpa using (hmem j hj).2)
      (Nat.add_left_cancel hij)
  obtain ⟨env₁, hexec, hsame, hreads⟩ := exec_projections mem hK.left htuple hread
    (fun i hi => by
      rw [tupleElem_of_ne (hmem i hi).1 (hmem i hi).2]
      exact Nat.le_add_right _ _)
    hnodup fun i hi => htypes ▸ (hmem i hi).1
  have hargs : ((List.range types.length).map
      (tupleElem next n newValue types.length)).mapM (Env.read K env₁)
        = some (elems.set n x) := by
    rw [Lib.mapM_eq_some, List.forall₂_map_left_iff, List.forall₂_iff_get]
    refine ⟨by simp [htypes], fun i hi hi' => ?_⟩
    have hlt : i < types.length := by simpa using hi
    simp only [List.get_eq_getElem, List.getElem_range]
    by_cases hin : i = n
    · subst hin
      rw [tupleElem_self, hsame.read hnew, hvalue, List.getElem_set_self]
    · rw [hreads i (by simp [← hothers, hlt, hin]), List.getElem_set_ne (Ne.symm hin)]
      exact List.getElem?_eq_getElem (htypes ▸ hlt)
  refine ⟨Function.update env₁ (next + others.length) (some (.node (elems.set n x))), ?_,
    hsame.trans (.update _ (Nat.le_add_right _ _)) (Nat.le_refl _),
    read_update (hK.right.head List.mem_cons_self) _⟩
  rw [execInstructions_append, hexec]
  simp only [execInstructions, exec_mkTuple hargs]

variable (mem) in
/-- One container is put together around its new child. -/
theorem exec_set {parent : ValueId × AccessStep} {frame : List Contents × Nat} {child : ValueId}
    {x : Contents} (hK : NoConstants K (parent.2.set next parent.1 child).1)
    (hstanding : Standing (Env.read K env) parent frame) (hparent : parent.1 < next)
    (hchild : child < next) (hread : Env.read K env child = some x) :
    ∃ env', execInstructions contentsSem K (parent.2.set next parent.1 child).1 env mem
        = (mem, some env') ∧ SameBefore next env env' ∧
      Env.read K env' (parent.2.set next parent.1 child).2 = some (Nest.plugFrame frame x) := by
  obtain ⟨parent, step⟩ := parent
  cases step with
  | index idx =>
    refine ⟨_, ?_, .update _ (Nat.le_refl _), read_update (hK.head List.mem_cons_self) _⟩
    rw [AccessStep.set, execInstructions, exec_arraySet hstanding.holds
      (AccessStep.read_of_position hstanding.position) hread hstanding.inBounds]
    rfl
  | field fieldIdx types =>
    obtain rfl : fieldIdx = frame.2 := Option.some.inj hstanding.position
    exact exec_synthesizeTupleSet hK hparent hchild hstanding.holds hread hstanding.fits

variable (mem) in
/-- The ascent puts together the containers around the child. -/
theorem exec_ascend {parents : List (ValueId × AccessStep)} {frames : Nest.Spine Leaf}
    {child : ValueId} {x : Contents} (hK : NoConstants K (ascend next child parents).1)
    (hstanding : List.Forall₂ (Standing (Env.read K env)) parents frames)
    (hparents : ∀ p ∈ parents, p.1 < next ∧ ∀ v ∈ p.2.operands, v < next)
    (hchild : child < next) (hread : Env.read K env child = some x) :
    ∃ env', execInstructions contentsSem K (ascend next child parents).1 env mem
        = (mem, some env') ∧ SameBefore next env env' ∧
      Env.read K env' (ascend next child parents).2
        = some (frames.foldl (fun x frame => Nest.plugFrame frame x) x) := by
  induction parents generalizing next child x env frames with
  | nil =>
    obtain rfl := List.forall₂_nil_left_iff.mp hstanding
    exact ⟨env, rfl, fun _ _ => rfl, hread⟩
  | cons parent parents ih =>
    obtain ⟨frame, frames, hfirst, hrest, rfl⟩ := List.forall₂_cons_left_iff.mp hstanding
    rw [List.forall_mem_cons] at hparents
    obtain ⟨env₁, hexec, hsame, hset⟩ := exec_set mem hK.left hfirst hparents.1.1 hchild hread
    have hle : next ≤ (parent.2.set next parent.1 child).2 := parent.2.le_set parent.1 child
    obtain ⟨env₂, hexec₂, hsame₂, hroot⟩ := ih
      hK.right
      (Lib.forall₂_congr_left hrest fun p hp _ h => h.congr hsame (hparents.2 p hp).1
        (hparents.2 p hp).2)
      (fun p hp => ⟨((hparents.2 p hp).1.trans_le hle).trans (Nat.lt_succ_self _),
        fun v hv => (((hparents.2 p hp).2 v hv).trans_le hle).trans (Nat.lt_succ_self _)⟩)
      (Nat.lt_succ_self _) hset
    refine ⟨env₂, ?_, hsame.trans hsame₂ (hle.trans (Nat.le_succ _)), hroot⟩
    rw [ascend, execInstructions_append, hexec]
    exact hexec₂

theorem exec_load {result ptr : ValueId} {cell : Nat}
    (hptr : Env.read K env ptr = some (.leaf (.cell cell))) (ops : List OpCode) :
    execInstructions contentsSem K (.load result ptr :: ops) env mem =
      match mem cell with
      | some root => execInstructions contentsSem K ops
          (Function.update env result (some root)) mem
      | none => (mem, none) := by
  cases h : mem cell <;>
    simp [execInstructions, execInstruction, OpCode.inputs, OpCode.results, OpCode.shape,
      OpCode.mapOperands, OpCode.mapInputs, OpCode.mapResults, contentsSem, hptr, h, Env.bindAll]

theorem exec_store {ptr value : ValueId} {cell : Nat} {x : Contents}
    (hptr : Env.read K env ptr = some (.leaf (.cell cell)))
    (hvalue : Env.read K env value = some x) :
    execInstructions contentsSem K [.store ptr value] env mem
      = (Function.update mem cell (some x), some env) := by
  simp [execInstructions, execInstruction, OpCode.inputs, OpCode.results, OpCode.shape,
    OpCode.mapOperands, OpCode.mapInputs, OpCode.mapResults, contentsSem, hptr, hvalue,
    Env.bindAll]

end Run

/-! ## Whole assignments -/

/-- After an assignment the place holds the new value, and the places that part from it on the
way hold what they held. -/
structure Assigned (path : List Nat) (x before after : Contents) : Prop where
  place : ∀ rest, after.get? (path ++ rest) = x.get? rest
  others : ∀ (common rest rest' : List Nat) (n m : Nat), path = common ++ n :: rest → m ≠ n →
    after.get? (common ++ m :: rest') = before.get? (common ++ m :: rest')

theorem Assigned.of_set? {path : List Nat} {x before after : Contents}
    (h : Nest.set? x before path = some after) : Assigned path x before after where
  place rest := Nest.get?_set?_self h rest
  others common rest rest' n m hpath hne := by
    subst hpath
    exact Nest.get?_set?_of_parts hne h

namespace Assignment

/-- An assignment is about to be run: its root is a cell that holds contents, its steps take
positions in them, and its new value is there. -/
structure Ready (a : Assignment) (K env : Env Contents) (mem : Cells) (cell : Nat)
    (root x : Contents) (path : List Nat) : Prop where
  noConstants : NoConstants K a.ops
  rootPtr : Env.read K env a.rootPtr = some (.leaf (.cell cell))
  holds : mem cell = some root
  newValue : Env.read K env a.newValue = some x
  positions : Positions (Env.read K env) a.steps path
  fit : AccessStep.FitAll a.steps path root

variable {a : Assignment} {K env : Env Contents} {mem : Cells} {cell : Nat} {root x : Contents}
  {path : List Nat}

theorem ops_of_ne_nil (h : a.steps ≠ []) : a.ops = .load a.next a.rootPtr ::
    (descend (a.next + 1) a.next a.steps ++
      ((ascend (a.next + 1 + a.steps.length) a.newValue
          ((List.range' a.next a.steps.length).zip a.steps).reverse).1 ++
        [.store a.rootPtr (ascend (a.next + 1 + a.steps.length) a.newValue
          ((List.range' a.next a.steps.length).zip a.steps).reverse).2])) :=
  if_neg h

theorem Ready.exec_of_spine (h : Ready a K env mem cell root x path) {frames : Nest.Spine Leaf}
    (hspine : root.spine path = some frames) :
    ∃ env', execInstructions contentsSem K a.ops env mem
        = (Function.update mem cell (some (Nest.plug frames x)), some env') ∧
      SameBefore a.next env env' := by
  by_cases hsteps : a.steps = []
  · obtain rfl : path = [] := List.forall₂_nil_left_iff.mp (hsteps ▸ h.positions)
    obtain rfl : [] = frames := by cases root <;> exact Option.some.inj hspine
    refine ⟨env, ?_, fun _ _ => rfl⟩
    rw [ops, convertAssign, if_pos hsteps, exec_store h.rootPtr h.newValue]
    rfl
  · have hK := h.noConstants
    rw [ops_of_ne_nil hsteps] at hK ⊢
    have hsame₀ : SameBefore a.next env (Function.update env a.next (some root)) :=
      .update _ (Nat.le_refl _)
    obtain ⟨env₁, hdown, hsame₁, hstanding⟩ := exec_descend mem hK.tail.left
      (read_update (hK.head List.mem_cons_self) root) a.operands_lt
      (hsame₀.positions a.operands_lt h.positions) hspine h.fit
    have hbefore : SameBefore a.next env env₁ := hsame₀.trans hsame₁ (Nat.le_succ _)
    have hle : a.next ≤ a.next + 1 + a.steps.length :=
      (Nat.le_succ _).trans (Nat.le_add_right _ _)
    have hparents : ∀ p ∈ ((List.range' a.next a.steps.length).zip a.steps).reverse,
        p.1 < a.next + 1 + a.steps.length ∧
          ∀ v ∈ p.2.operands, v < a.next + 1 + a.steps.length := by
      rintro ⟨v, step⟩ hp
      obtain ⟨hv, hstep⟩ := List.of_mem_zip (List.mem_reverse.mp hp)
      exact ⟨(List.mem_range'_1.mp hv).2.trans_le (Nat.add_le_add_right (Nat.le_succ _) _),
        fun u hu => (a.operands_lt step hstep u hu).trans_le hle⟩
    obtain ⟨env₂, hup, hsame₂, hroot⟩ := exec_ascend mem hK.tail.right.left
      (List.forall₂_reverse_iff.mpr hstanding) hparents (a.newValue_lt.trans_le hle)
      ((hbefore.read a.newValue_lt).trans h.newValue)
    have hall : SameBefore a.next env env₂ := hbefore.trans hsame₂ hle
    refine ⟨env₂, ?_, hall⟩
    rw [exec_load h.rootPtr, h.holds]
    simp only [execInstructions_append, hdown, hup]
    rw [exec_store ((hall.read a.rootPtr_lt).trans h.rootPtr) hroot, Nest.plug,
      List.foldl_reverse]

/-- An assignment to a place that is not there fails before it has written anything. -/
theorem Ready.exec_of_get?_none (h : Ready a K env mem cell root x path)
    (hnone : root.get? path = none) :
    execInstructions contentsSem K a.ops env mem = (mem, none) := by
  have hsteps : a.steps ≠ [] := by
    intro hnil
    obtain rfl : path = [] := List.forall₂_nil_left_iff.mp (hnil ▸ h.positions)
    cases root <;> cases hnone
  have hspine : root.spine path = none := by
    rw [← Option.isNone_iff_eq_none, ← Option.not_isSome, Nest.isSome_spine, hnone]
    rfl
  have hK := h.noConstants
  rw [ops_of_ne_nil hsteps] at hK ⊢
  rw [exec_load h.rootPtr, h.holds]
  simp only [execInstructions_append, exec_descend_none hK.tail.left
    (read_update (hK.head List.mem_cons_self) root) a.operands_lt
    (SameBefore.positions (.update _ (Nat.le_refl _)) a.operands_lt h.positions) hspine]

/-- An assignment changes the place it names and nothing else, whatever way leads there, and
fails before it has written anything if there is no such place. -/
theorem changesPlace (h : Ready a K env mem cell root x path) :
    (∀ old, root.get? path = some old → ∃ after env', Assigned path x root after ∧
      execInstructions contentsSem K a.ops env mem
        = (Function.update mem cell (some after), some env') ∧
      ∀ v < a.next, env' v = env v) ∧
    (root.get? path = none → execInstructions contentsSem K a.ops env mem = (mem, none)) := by
  refine ⟨fun old hold => ?_, h.exec_of_get?_none⟩
  have hsome : (root.spine path).isSome := by
    rw [Nest.isSome_spine, hold]
    rfl
  obtain ⟨frames, hframes⟩ := Option.isSome_iff_exists.mp hsome
  obtain ⟨env', hexec, hsame⟩ := h.exec_of_spine hframes
  refine ⟨_, env', .of_set? ?_, hexec, hsame⟩
  rw [Nest.set?_eq_plug, hframes, Option.map_some]

/-- `p.0[i] = x` for a pair of an array and a scalar. -/
def pairAssignment : Assignment where
  next := 23
  rootPtr := 20
  steps := [.field 0 [.array (.u 8) 2, .u 8], .index 21]
  newValue := 22
  used := []
  rootPtr_lt := by decide
  newValue_lt := by decide
  operands_lt := by simp [AccessStep.operands]
  used_lt := by simp

def pairContents : Contents :=
  .node [.node [.leaf (.word 5), .leaf (.word 6)], .leaf (.word 7)]

/-- The variable is in cell 0, the index is 1 and the new value is 8. -/
def pairEnv : Env Contents
  | 20 => some (.leaf (.cell 0))
  | 21 => some (.leaf (.word 1))
  | 22 => some (.leaf (.word 8))
  | _ => none

def pairCells : Cells
  | 0 => some pairContents
  | _ => none

theorem ready_pair : Ready pairAssignment (fun _ => none) pairEnv pairCells 0 pairContents
    (.leaf (.word 8)) [0, 1] where
  noConstants _ _ := rfl
  rootPtr := rfl
  holds := rfl
  newValue := rfl
  positions := .cons rfl (.cons rfl .nil)
  fit := by simp [pairAssignment, pairContents, AccessStep.FitAll, AccessStep.Fits]

theorem changesPlace_pair : ∃ after env',
    execInstructions contentsSem (fun _ => none) pairAssignment.ops pairEnv pairCells
      = (Function.update pairCells 0 (some after), some env') ∧
    after.get? [0, 1] = some (.leaf (.word 8)) ∧ after.get? [0, 0] = some (.leaf (.word 5)) ∧
    after.get? [1] = some (.leaf (.word 7)) := by
  obtain ⟨after, env', hassigned, hexec, -⟩ := (changesPlace ready_pair).1 (.leaf (.word 6)) rfl
  exact ⟨after, env', hexec, hassigned.place [], hassigned.others [0] [] [] 1 0 rfl (by decide),
    hassigned.others [] [1] [] 0 1 rfl (by decide)⟩

end Assignment

end Mavros.Hlssa
