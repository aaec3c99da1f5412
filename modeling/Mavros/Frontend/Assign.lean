/-
# `Mavros.Frontend.Assign` — assignments to a place inside a value

`convert_assign` loads the root of the place, reads its way down to the place, and rebuilds
the containers on the way up around the new value.  The read at the last step is made as
well, though the new value takes the place of its result: nothing reads it, and dead code
elimination, which has no use for the bounds a read checks, sweeps it.

## What is modelled

`descend` and `ascend` are the two loops of `convert_assign`, with fresh values numbered in the
order the source makes them; a write to a field is `synthesizeTupleSet`, all fields projected and
one of them replaced.  `Assignment` is an assignment together with the fact that the values it
starts from are older than those it makes.

## What is proved

* `ops_index`, `swept_index`: an assignment to an element of a variable, and what is left after
  the sweep: a load, a write and a store.
* `lastRead_swept`: of any assignment with a step, the read at the place itself is swept.

The second is why an index that is only checked by the read is not checked at all in the
constraint system, where a write leaves every element it does not hit.
-/
import Mavros.Passes.DeadCode

namespace Mavros.Hlssa

/-- `AccessStep`; a field comes with the types of the fields of its tuple. -/
inductive AccessStep where
  | index (idx : ValueId)
  | field (fieldIdx : Nat) (elementTypes : List TypeExpr)

namespace AccessStep

/-- What the descent emits at a step. -/
def get (result parent : ValueId) : AccessStep → OpCode
  | index idx => .arrayGet result parent idx
  | field fieldIdx _ => .tupleProj result parent fieldIdx

/-- The value a step reads besides the container. -/
def operands : AccessStep → List ValueId
  | index idx => [idx]
  | field _ _ => []

end AccessStep

/-- `synthesize_tuple_set` with the fresh values from `next` on, and the tuple it makes. -/
def synthesizeTupleSet (next tuple : ValueId) (targetField : Nat) (newValue : ValueId)
    (elementTypes : List TypeExpr) : List OpCode × ValueId :=
  let fields := List.range elementTypes.length
  let others := fields.filter (· ≠ targetField)
  let elem := fun i =>
    if i = targetField then newValue else next + (fields.take i).countP (· ≠ targetField)
  let result := next + others.length
  (others.map (fun i => .tupleProj (elem i) tuple i) ++
    [.mkTuple result (fields.map elem) elementTypes], result)

/-- What the ascent emits at a step, and the container it makes. -/
def AccessStep.set (next parent child : ValueId) : AccessStep → List OpCode × ValueId
  | index idx => ([.arraySet next parent idx child], next)
  | field fieldIdx elementTypes => synthesizeTupleSet next parent fieldIdx child elementTypes

/-- The descent from a parent. -/
def descend : (next parent : ValueId) → List AccessStep → List OpCode
  | _, _, [] => []
  | next, parent, step :: steps => step.get next parent :: descend (next + 1) next steps

/-- The ascent through the parents of a child, innermost first, and the new root. -/
def ascend : (next child : ValueId) → List (ValueId × AccessStep) → List OpCode × ValueId
  | _, child, [] => ([], child)
  | next, child, (parent, step) :: parents =>
    let (ops, result) := step.set next parent child
    let (ops', root) := ascend (result + 1) result parents
    (ops ++ ops', root)

/-- `convert_assign`, with the fresh values from `next` on. -/
def convertAssign (next rootPtr : ValueId) (steps : List AccessStep) (newValue : ValueId) :
    List OpCode :=
  if steps = [] then [.store rootPtr newValue]
  else
    let parents := (List.range' next steps.length).zip steps
    let (ops, root) := ascend (next + 1 + steps.length) newValue parents.reverse
    .load next rootPtr :: (descend (next + 1) next steps ++ (ops ++ [.store rootPtr root]))

/-! ## The read at the place itself

What the ascent reads, by induction over the steps, and that the last read is not among it.
-/

section LastRead

variable {next newValue m : Nat}

theorem synthesizeTupleSet_inputs {tuple : ValueId} {targetField : Nat}
    {elementTypes : List TypeExpr} {op : OpCode}
    (h : op ∈ (synthesizeTupleSet next tuple targetField newValue elementTypes).1) {v : ValueId}
    (hv : v ∈ op.inputs) : v = tuple ∨ v = newValue ∨ next ≤ v := by
  rcases List.mem_append.mp h with h | h
  · obtain ⟨i, -, rfl⟩ := List.mem_map.mp h
    exact .inl (by simpa [OpCode.inputs] using hv)
  · obtain rfl := List.mem_singleton.mp h
    obtain ⟨i, -, rfl⟩ := List.mem_map.mp hv
    split
    · exact .inr (.inl rfl)
    · exact .inr (.inr (Nat.le_add_right _ _))

theorem AccessStep.set_inputs {parent child : ValueId} {step : AccessStep} {op : OpCode}
    (h : op ∈ (step.set next parent child).1) {v : ValueId} (hv : v ∈ op.inputs) :
    v = parent ∨ v = child ∨ next ≤ v ∨ v ∈ step.operands := by
  cases step with
  | index idx =>
    obtain rfl := List.mem_singleton.mp h
    have hcases : v = parent ∨ v = idx ∨ v = child := by simpa [OpCode.inputs] using hv
    rcases hcases with h | h | h
    · exact .inl h
    · exact .inr (.inr (.inr (List.mem_singleton.mpr h)))
    · exact .inr (.inl h)
  | field fieldIdx types =>
    rcases synthesizeTupleSet_inputs h hv with h | h | h
    · exact .inl h
    · exact .inr (.inl h)
    · exact .inr (.inr (.inl h))

theorem AccessStep.le_set (parent child : ValueId) (step : AccessStep) :
    next ≤ (step.set next parent child).2 := by
  cases step with
  | index idx => exact Nat.le_refl _
  | field fieldIdx types => exact Nat.le_add_right _ _

/-- The ascent reads the parents, the child and what it makes itself, and so a value older
than what it makes and apart from these is not read. -/
theorem ascend_inputs : ∀ {next child : Nat} {parents : List (ValueId × AccessStep)},
    m < next → m ≠ child → (∀ p ∈ parents, m ≠ p.1 ∧ m ∉ p.2.operands) →
    (∀ op ∈ (ascend next child parents).1, m ∉ op.inputs) ∧ m ≠ (ascend next child parents).2
  | _, _, [], _, hchild, _ => ⟨by simp [ascend], hchild⟩
  | next, child, (parent, step) :: parents, hnext, hchild, hparents => by
      have hle : next ≤ (step.set next parent child).2 := step.le_set parent child
      obtain ⟨hparent, hoperands⟩ := hparents _ List.mem_cons_self
      obtain ⟨hops, hroot⟩ : (∀ op ∈ (ascend ((step.set next parent child).2 + 1)
          (step.set next parent child).2 parents).1, m ∉ op.inputs) ∧ _ :=
        ascend_inputs (Nat.lt_succ_of_lt (hnext.trans_le hle)) (Nat.ne_of_lt (hnext.trans_le hle))
          fun p hp => hparents p (List.mem_cons_of_mem _ hp)
      refine ⟨fun op hop hm => ?_, hroot⟩
      rcases List.mem_append.mp hop with hop | hop
      · rcases AccessStep.set_inputs hop hm with h | h | h | h
        · exact hparent h
        · exact hchild h
        · exact absurd hnext (Nat.not_lt.mpr h)
        · exact hoperands h
      · exact hops op hop hm

theorem descend_inputs : ∀ {next parent : Nat} {steps : List AccessStep},
    next + steps.length = m + 1 → parent < m → (∀ step ∈ steps, m ∉ step.operands) →
    ∀ op ∈ descend next parent steps, m ∉ op.inputs
  | _, _, [], _, _, _, op, hop => by simp [descend] at hop
  | next, parent, step :: steps, hm, hparent, hoperands, op, hop => by
      rcases List.mem_cons.mp hop with rfl | hop
      · have hstep := hoperands step List.mem_cons_self
        have hne : m ≠ parent := Nat.ne_of_gt hparent
        cases step with
        | index idx => simp_all [AccessStep.get, AccessStep.operands, OpCode.inputs]
        | field fieldIdx types => simpa [AccessStep.get, OpCode.inputs] using hne
      · cases steps with
        | nil => simp [descend] at hop
        | cons step' steps =>
          rw [List.length_cons, List.length_cons] at hm
          exact descend_inputs (by rw [List.length_cons]; omega) (by omega)
            (fun step hstep => hoperands step (List.mem_cons_of_mem _ hstep)) op hop

end LastRead

/-- An assignment as `convert_assign` meets it: the values it starts from are older than
those it makes, and so is what is read after it. -/
structure Assignment where
  next : ValueId
  rootPtr : ValueId
  steps : List AccessStep
  newValue : ValueId
  used : List ValueId
  rootPtr_lt : rootPtr < next
  newValue_lt : newValue < next
  operands_lt : ∀ step ∈ steps, ∀ v ∈ step.operands, v < next
  used_lt : ∀ v ∈ used, v < next

namespace Assignment

variable (a : Assignment)

def ops : List OpCode := convertAssign a.next a.rootPtr a.steps a.newValue

/-- What dead code elimination leaves. -/
def swept (frozen : Bool) : List OpCode := deadCode frozen a.used a.ops

/-- The name of what is read at the place itself. -/
def lastRead : Nat := a.next + a.steps.length

theorem lt_lastRead (h : a.steps ≠ []) {v : Nat} (hv : v < a.next + 1) : v < a.lastRead :=
  hv.trans_le (Nat.add_le_add_left (List.length_pos_iff.mpr h) a.next)

theorem lastRead_not_input : ∀ op ∈ a.ops, a.lastRead ∉ op.inputs := by
  intro op hop hmem
  have hoperands : ∀ step ∈ a.steps, a.lastRead ∉ step.operands := fun step hstep hv =>
    Nat.not_lt.mpr (Nat.le_add_right a.next _) (a.operands_lt step hstep _ hv)
  have hold : ∀ v < a.next, a.lastRead ≠ v := fun v hv =>
    Nat.ne_of_gt (hv.trans_le (Nat.le_add_right _ _))
  unfold ops convertAssign at hop
  split at hop
  · obtain rfl := List.mem_singleton.mp hop
    rcases List.mem_cons.mp hmem with h | h
    · exact hold _ a.rootPtr_lt h
    · exact hold _ a.newValue_lt (List.mem_singleton.mp h)
  · next hne =>
    have hparents : ∀ p ∈ ((List.range' a.next a.steps.length).zip a.steps).reverse,
        a.lastRead ≠ p.1 ∧ a.lastRead ∉ p.2.operands := by
      rintro ⟨v, step⟩ hp
      obtain ⟨hv, hstep⟩ := List.of_mem_zip (List.mem_reverse.mp hp)
      exact ⟨Nat.ne_of_gt (List.mem_range'_1.mp hv).2, hoperands step hstep⟩
    have hnext : a.lastRead < a.next + 1 + a.steps.length := by
      unfold lastRead
      omega
    have hascend := @ascend_inputs a.lastRead _ _ _ hnext (hold _ a.newValue_lt) hparents
    rcases List.mem_cons.mp hop with rfl | hop
    · exact hold _ a.rootPtr_lt (List.mem_singleton.mp hmem)
    rcases List.mem_append.mp hop with hop | hop
    · exact descend_inputs (by unfold lastRead; omega) (a.lt_lastRead hne (Nat.lt_succ_self _))
        hoperands op hop hmem
    rcases List.mem_append.mp hop with hop | hop
    · exact hascend.1 op hop hmem
    · obtain rfl := List.mem_singleton.mp hop
      rcases List.mem_cons.mp hmem with h | h
      · exact hold _ a.rootPtr_lt h
      · exact hascend.2 (List.mem_singleton.mp h)

/-- The read at the place itself is swept. -/
theorem lastRead_swept (frozen : Bool) (parent idx : ValueId) :
    .arrayGet a.lastRead parent idx ∉ a.swept frozen := by
  intro h
  rcases live_of_mem_deadCode h with hinit | ⟨r, hr, hused | ⟨reader, hmem, hin⟩⟩
  · simp [OpCode.isInitiallyLive] at hinit
  · obtain rfl := List.mem_singleton.mp hr
    exact Nat.not_lt.mpr (Nat.le_add_right _ _) (a.used_lt _ hused)
  · obtain rfl := List.mem_singleton.mp hr
    exact a.lastRead_not_input reader (deadCode_sublist.subset hmem) hin

theorem ops_index {idx : ValueId} (h : a.steps = [.index idx]) :
    a.ops = [.load a.next a.rootPtr, .arrayGet (a.next + 1) a.next idx,
      .arraySet (a.next + 2) a.next idx a.newValue, .store a.rootPtr (a.next + 2)] := by
  rw [ops, h]
  rfl

/-- An assignment to an element of a variable is swept to a load, a write and a store. -/
theorem swept_index {idx : ValueId} (frozen : Bool) (h : a.steps = [.index idx]) :
    a.swept frozen = [.load a.next a.rootPtr,
      .arraySet (a.next + 2) a.next idx a.newValue, .store a.rootPtr (a.next + 2)] := by
  have hne : ∀ {v : Nat}, v < a.next → a.next + 1 ≠ v := fun hv =>
    Nat.ne_of_gt (Nat.lt_succ_of_lt hv)
  have hidx : a.next + 1 ≠ idx :=
    hne (a.operands_lt (.index idx) (by rw [h]; exact List.mem_cons_self) idx List.mem_cons_self)
  have hused : a.next + 1 ∉ a.used := fun hmem => hne (a.used_lt _ hmem) rfl
  simp [swept, a.ops_index h, deadCode, OpCode.isLive, OpCode.isInitiallyLive, OpCode.results,
    OpCode.inputs, hne a.newValue_lt, hne a.rootPtr_lt, hidx, hused]

end Assignment

end Mavros.Hlssa
