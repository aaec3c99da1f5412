/-
# `Mavros.VM.BytecodeImage` — what `to_binary` writes

The image of a program as a list of cells: words, and among them the targets of jumps,
each marked with the position of the opcode it belongs to.  The generated writers note a
jump with an offset that is counted operand by operand; it points back to the opcode as
long as no field element was counted before it (`JumpsFirst`), and then the loop over the
noted jumps resolves each cell on its own (`Program.toBinary_eq`).

## What is proved

* `serializeAll_adds`: the writers of an opcode add its cells and note its jumps, for operands that
  satisfy `JumpsFirst`.
* `Program.image_holds`: after all functions the image holds the cells of the program and knows the
  jumps among them, and the positions noted are those of the instructions.
* `Program.toBinary_eq`: `to_binary` is the list of cells, each resolved by itself.

## How it goes

The offset of the writers moves by one for a field element, which has four words.  So the writers
are described in two forms, one for operands without field elements, where the offset is
exact, and one for operands without jumps, where it does not matter; `JumpsFirst` is what lets
the two be put one after the other.
-/
import Mavros.VM.Bytecode
import Mathlib.Data.List.Forall2
import Mathlib.Tactic.Common

namespace Mavros.Encoding

/-! ## The words of an operand

Cells, so that the image can be written down before the targets are known.
-/

/-- A word of the image; `some s` marks the target of a jump of the opcode at `s`. -/
abbrev Cell := Word × Option Nat

mutual

/-- The words of an operand of the opcode at `s`. -/
def cells (s : Nat) : (t : HostType) → t.Val → List Cell
  | .jumpTarget, v => [(v, some s)]
  | .field, v => [(v.1, none), (v.2.1, none), (v.2.2.1, none), (v.2.2.2, none)]
  | .slice elem, (vs : List elem.Val) =>
    (BitVec.ofNat 64 vs.length, none) :: vs.flatMap (cells s elem)
  | .tuple elems, vs => cellsAll s elems vs
  | .u64, v | .usize, v | .isize, v | .framePosition, v | .boxedLayout, v => [(v, none)]

def cellsAll (s : Nat) : (ts : List HostType) → Vals ts → List Cell
  | [], _ => []
  | t :: ts, v => cells s t v.1 ++ cellsAll s ts v.2

end

mutual

/-- A field element occurs in the operands of the kind. -/
def HostType.hasField : HostType → Bool
  | .field => true
  | .slice elem => elem.hasField
  | .tuple elems => hasFields elems
  | .u64 | .usize | .isize | .jumpTarget | .framePosition | .boxedLayout => false

def hasFields : List HostType → Bool
  | [] => false
  | t :: ts => t.hasField || hasFields ts

end

mutual

/-- A jump target occurs in the operands of the kind. -/
def HostType.hasJump : HostType → Bool
  | .jumpTarget => true
  | .slice elem => elem.hasJump
  | .tuple elems => hasJumps elems
  | .u64 | .usize | .isize | .field | .framePosition | .boxedLayout => false

def hasJumps : List HostType → Bool
  | [] => false
  | t :: ts => t.hasJump || hasJumps ts

end

/-- The entries of `jumps_to_fix` for cells that start at `base`. -/
def fixes (base : Nat) (cs : List Cell) : List (Nat × Int) :=
  (cs.zipIdx base).filterMap fun c => c.1.2.map fun s => (c.2, (s : Int) - c.2)

@[simp] theorem fixes_nil (base : Nat) : fixes base [] = [] := rfl

theorem fixes_append (base : Nat) (as bs : List Cell) :
    fixes base (as ++ bs) = fixes base as ++ fixes (base + as.length) bs := by
  simp [fixes, List.zipIdx_append]

@[simp] theorem fixes_word (base : Nat) (w : Word) (cs : List Cell) :
    fixes base ((w, none) :: cs) = fixes (base + 1) cs := by
  simp [fixes, List.zipIdx_cons]

@[simp] theorem fixes_jump (base : Nat) (w : Word) (s : Nat) (cs : List Cell) :
    fixes base ((w, some s) :: cs) = (base, (s : Int) - base) :: fixes (base + 1) cs := by
  simp [fixes, List.zipIdx_cons]

/-- Words that are no jump targets need no fix. -/
theorem fixes_words (base : Nat) (ws : List Word) : fixes base (ws.map (·, none)) = [] := by
  induction ws generalizing base with
  | nil => rfl
  | cons w ws ih => rw [List.map_cons, fixes_word, ih]

/-! ## What the writers add -/

mutual

/-- Without field elements the offset counts the words. -/
theorem serialize_offset {s : Nat} : ∀ {t : HostType}, t.hasField = false →
    ∀ (v : t.Val) (w : Writer), (serialize t v w).offset = w.offset - (cells s t v).length
  | .jumpTarget, _, v, w => by simp [serialize, cells, Writer.pushJump]
  | .field, h, _, _ => by simp [HostType.hasField] at h
  | .slice elem, h, (vs : List elem.Val), w => by
    have hfold (vs : List elem.Val) (w : Writer) :
        (vs.foldl (fun w v => serialize elem v w) w).offset =
          w.offset - (vs.flatMap (cells s elem)).length := by
      induction vs generalizing w with
      | nil => simp
      | cons v vs ih =>
        have hv := serialize_offset (s := s) (t := elem) h v w
        rw [List.foldl_cons, ih, hv, List.flatMap_cons, List.length_append]
        omega
    simp only [serialize, cells, hfold, Writer.push, List.length_cons]
    omega
  | .tuple elems, h, vs, w => @serializeAll_offset s elems h vs w
  | .u64, _, v, w | .usize, _, v, w | .isize, _, v, w | .framePosition, _, v, w
  | .boxedLayout, _, v, w => by simp [serialize, cells, Writer.push]

theorem serializeAll_offset {s : Nat} : ∀ {ts : List HostType}, hasFields ts = false →
    ∀ (vs : Vals ts) (w : Writer),
      (serializeAll ts vs w).offset = w.offset - (cellsAll s ts vs).length
  | [], _, _, w => by simp [serializeAll, cellsAll]
  | t :: ts, h, v, w => by
    rw [hasFields, Bool.or_eq_false_iff] at h
    rw [serializeAll, cellsAll, serializeAll_offset (s := s) h.2 v.2, serialize_offset (s := s) h.1,
      List.length_append]
    omega

end

/-- The writer adds the words of the cells and notes their jumps. -/
def Adds (w w' : Writer) (cs : List Cell) : Prop :=
  w'.binary = w.binary ++ cs.map Prod.fst ∧
    w'.jumpsToFix = w.jumpsToFix ++ fixes w.binary.length cs

theorem Adds.append {w w' w'' : Writer} {as bs : List Cell} (h : Adds w w' as)
    (h' : Adds w' w'' bs) : Adds w w'' (as ++ bs) := by
  refine ⟨by rw [h'.1, h.1, List.map_append, List.append_assoc], ?_⟩
  rw [h'.2, h.2, h.1, fixes_append, List.length_append, List.length_map, List.append_assoc]

theorem adds_push (w : Writer) (v : Word) : Adds w (w.push v) [(v, none)] := by
  simp [Adds, Writer.push]

mutual

/-- Words without jumps are only appended. -/
theorem serialize_adds_of_noJump {s : Nat} : ∀ {t : HostType}, t.hasJump = false →
    ∀ (v : t.Val) (w : Writer), Adds w (serialize t v w) (cells s t v)
  | .jumpTarget, h, _, _ => by simp [HostType.hasJump] at h
  | .field, _, v, w => by simp [Adds, serialize, cells, Writer.pushField]
  | .slice elem, h, (vs : List elem.Val), w => by
    have hfold (vs : List elem.Val) (w : Writer) :
        Adds w (vs.foldl (fun w v => serialize elem v w) w) (vs.flatMap (cells s elem)) := by
      induction vs generalizing w with
      | nil => simp [Adds]
      | cons v vs ih => exact (serialize_adds_of_noJump (t := elem) h v w).append (ih _)
    exact (adds_push w _).append (hfold vs _)
  | .tuple elems, h, vs, w => @serializeAll_adds_of_noJump s elems h vs w
  | .u64, _, v, w | .usize, _, v, w | .isize, _, v, w | .framePosition, _, v, w
  | .boxedLayout, _, v, w => adds_push w v

theorem serializeAll_adds_of_noJump {s : Nat} : ∀ {ts : List HostType}, hasJumps ts = false →
    ∀ (vs : Vals ts) (w : Writer), Adds w (serializeAll ts vs w) (cellsAll s ts vs)
  | [], _, _, w => by simp [Adds, serializeAll, cellsAll]
  | t :: ts, h, v, w => by
    rw [hasJumps, Bool.or_eq_false_iff] at h
    exact (serialize_adds_of_noJump h.1 v.1 w).append (serializeAll_adds_of_noJump h.2 v.2 _)

end

/-- The offset points back to the start of the opcode. -/
def Writer.PointsTo (w : Writer) (s : Nat) : Prop := w.offset = (s : Int) - w.binary.length

theorem adds_pushJump {w : Writer} {s : Nat} (v : Word) (hw : w.PointsTo s) :
    Adds w (w.pushJump v) [(v, some s)] := by
  refine ⟨rfl, ?_⟩
  rw [fixes_jump, fixes_nil, Writer.pushJump, hw]

theorem Adds.pointsTo {w w' : Writer} {s : Nat} {cs : List Cell} (h : Adds w w' cs)
    (hw : w.PointsTo s) (hoff : w'.offset = w.offset - cs.length) : w'.PointsTo s := by
  unfold Writer.PointsTo at hw ⊢
  rw [hoff, hw, h.1, List.length_append, List.length_map]
  omega

mutual

/-- Without field elements each jump is noted with the way back to the opcode. -/
theorem serialize_adds_of_noField {s : Nat} : ∀ {t : HostType}, t.hasField = false →
    ∀ (v : t.Val) (w : Writer), w.PointsTo s → Adds w (serialize t v w) (cells s t v)
  | .jumpTarget, _, v, w, hw => adds_pushJump v hw
  | .field, h, _, _, _ => by simp [HostType.hasField] at h
  | .slice elem, h, (vs : List elem.Val), w, hw => by
    have hfold (vs : List elem.Val) (w : Writer) (hw : w.PointsTo s) :
        Adds w (vs.foldl (fun w v => serialize elem v w) w) (vs.flatMap (cells s elem)) := by
      induction vs generalizing w with
      | nil => simp [Adds]
      | cons v vs ih =>
        have hv := serialize_adds_of_noField (t := elem) h v w hw
        exact hv.append (ih _ (hv.pointsTo hw (serialize_offset (t := elem) h v w)))
    exact (adds_push w _).append (hfold vs _ ((adds_push w _).pointsTo hw rfl))
  | .tuple elems, h, vs, w, hw => @serializeAll_adds_of_noField s elems h vs w hw
  | .u64, _, v, w, _ | .usize, _, v, w, _ | .isize, _, v, w, _ | .framePosition, _, v, w, _
  | .boxedLayout, _, v, w, _ => adds_push w v

theorem serializeAll_adds_of_noField {s : Nat} : ∀ {ts : List HostType}, hasFields ts = false →
    ∀ (vs : Vals ts) (w : Writer), w.PointsTo s →
      Adds w (serializeAll ts vs w) (cellsAll s ts vs)
  | [], _, _, w, _ => by simp [Adds, serializeAll, cellsAll]
  | t :: ts, h, v, w, hw => by
    rw [hasFields, Bool.or_eq_false_iff] at h
    have hv := serialize_adds_of_noField h.1 v.1 w hw
    exact hv.append (serializeAll_adds_of_noField h.2 v.2 _
      (hv.pointsTo hw (serialize_offset h.1 v.1 w)))

end

/-- No jump target stands after or beside a field element: what the offset of the writers
needs, as a field element moves it by one word only. -/
def JumpsFirst : List HostType → Bool
  | [] => true
  | t :: ts => if t.hasField then !t.hasJump && !hasJumps ts else JumpsFirst ts

theorem serializeAll_adds {s : Nat} : ∀ {ts : List HostType}, JumpsFirst ts = true →
    ∀ (vs : Vals ts) (w : Writer), w.PointsTo s →
      Adds w (serializeAll ts vs w) (cellsAll s ts vs)
  | [], _, _, w, _ => by simp [Adds, serializeAll, cellsAll]
  | t :: ts, h, v, w, hw => by
    rw [JumpsFirst] at h
    split at h
    · rw [Bool.and_eq_true, Bool.not_eq_true', Bool.not_eq_true'] at h
      exact (serialize_adds_of_noJump h.1 v.1 w).append (serializeAll_adds_of_noJump h.2 v.2 _)
    case isFalse hf =>
      have hnf : t.hasField = false := by simpa using hf
      have hv := serialize_adds_of_noField hnf v.1 w hw
      exact hv.append (serializeAll_adds h v.2 _ (hv.pointsTo hw (serialize_offset hnf v.1 w)))

/-! ## The image -/

variable {codes : List OpCodeDef}

/-- The cells of an opcode, with the word that stands for it. -/
def opCells (tag : Nat → Word) (s : Nat) (op : OpCode codes) : List Cell :=
  (tag op.code, none) :: cellsAll s (codes.get op.code).operands op.operands

/-- Where the opcode at the offset ends. -/
def opEnd (s : Nat) (op : OpCode codes) : Nat :=
  s + 1 + (cellsAll s (codes.get op.code).operands op.operands).length

theorem add_length_opCells (tag : Nat → Word) (s : Nat) (op : OpCode codes) :
    s + (opCells tag s op).length = opEnd s op := by
  rw [opCells, opEnd, List.length_cons]
  omega

theorem toBinary_eq (hcodes : ∀ d ∈ codes, JumpsFirst d.operands = true) (op : OpCode codes)
    (binary : List Word) (jumps : List (Nat × Int)) :
    op.toBinary binary jumps =
      (binary ++ (opCells (BitVec.ofNat 64) binary.length op).map Prod.fst,
        jumps ++ fixes binary.length (opCells (BitVec.ofNat 64) binary.length op)) := by
  have h := serializeAll_adds (s := binary.length) (hcodes _ (List.getElem_mem op.code.isLt))
    op.operands ⟨binary ++ [BitVec.ofNat 64 op.code], -1, jumps⟩
    (by simp only [Writer.PointsTo, List.length_append, List.length_singleton]; omega)
  simp only [OpCode.toBinary, opCells, fixes_word]
  refine Prod.ext (h.1.trans ?_) (h.2.trans ?_)
  · simp
  · simp

def codeCells (tag : Nat → Word) : Nat → List (OpCode codes) → List Cell
  | _, [] => []
  | s, op :: ops => opCells tag s op ++ codeCells tag (opEnd s op) ops

/-- The position of each instruction of a function whose code starts at the offset. -/
def codeStarts : Nat → List (OpCode codes) → List Nat
  | _, [] => []
  | s, op :: ops => s :: codeStarts (opEnd s op) ops

def codeEnd : Nat → List (OpCode codes) → Nat
  | s, [] => s
  | s, op :: ops => codeEnd (opEnd s op) ops

theorem add_length_codeCells (tag : Nat → Word) (s : Nat) (ops : List (OpCode codes)) :
    s + (codeCells tag s ops).length = codeEnd s ops := by
  induction ops generalizing s with
  | nil => rfl
  | cons op ops ih =>
    rw [codeCells, codeEnd, List.length_append, ← Nat.add_assoc, add_length_opCells, ih]

def functionCells (tag : Nat → Word) (s : Nat) (f : Function codes) : List Cell :=
  (BitVec.allOnes 64, none) :: (f.frameSize, none) :: codeCells tag (s + 2) f.code

theorem add_length_functionCells (tag : Nat → Word) (s : Nat) (f : Function codes) :
    s + (functionCells tag s f).length = codeEnd (s + 2) f.code := by
  rw [← add_length_codeCells tag, functionCells, List.length_cons, List.length_cons]
  omega

def functionsCells (tag : Nat → Word) : Nat → List (Function codes) → List Cell
  | _, [] => []
  | s, f :: fs => functionCells tag s f ++ functionsCells tag (codeEnd (s + 2) f.code) fs

/-- The position of each instruction of the program, in order. -/
def functionsStarts : Nat → List (Function codes) → List Nat
  | _, [] => []
  | s, f :: fs => codeStarts (s + 2) f.code ++ functionsStarts (codeEnd (s + 2) f.code) fs

/-- The cells of the whole program. -/
def Program.cells (tag : Nat → Word) (p : Program codes) : List Cell :=
  p.header.map (·, none) ++ functionsCells tag p.header.length p.functions

def Program.starts (p : Program codes) : List Nat :=
  functionsStarts p.header.length p.functions

/-- The image holds the cells and knows the jumps among them. -/
structure Image.Holds (image : Image) (cs : List Cell) (positions : List Nat) : Prop where
  binary : image.binary = cs.map Prod.fst
  positions : image.positions = positions
  jumpsToFix : image.jumpsToFix = fixes 0 cs

theorem Image.Holds.length {image : Image} {cs : List Cell} {ps : List Nat}
    (h : image.Holds cs ps) : image.binary.length = cs.length := by
  rw [h.binary, List.length_map]

section

variable (hcodes : ∀ d ∈ codes, JumpsFirst d.operands = true)

include hcodes

theorem Image.Holds.addOp {image : Image} {cs : List Cell} {ps : List Nat}
    (h : image.Holds cs ps) (op : OpCode codes) :
    (image.addOp op).Holds (cs ++ opCells (BitVec.ofNat 64) cs.length op) (ps ++ [cs.length]) := by
  have heq := toBinary_eq hcodes op image.binary image.jumpsToFix
  constructor
  · rw [Image.addOp, heq, h.length, h.binary, List.map_append]
  · rw [Image.addOp, h.length, h.positions]
  · rw [Image.addOp, heq, h.length, h.jumpsToFix, fixes_append, Nat.zero_add]

theorem Image.Holds.addCode {image : Image} {cs : List Cell} {ps : List Nat}
    (h : image.Holds cs ps) (ops : List (OpCode codes)) :
    (ops.foldl Image.addOp image).Holds (cs ++ codeCells (BitVec.ofNat 64) cs.length ops)
      (ps ++ codeStarts cs.length ops) := by
  induction ops generalizing image cs ps with
  | nil => simpa [codeCells, codeStarts] using h
  | cons op ops ih =>
    have hop := ih (h.addOp hcodes op)
    rw [List.length_append, add_length_opCells] at hop
    simpa [codeCells, codeStarts, List.append_assoc] using hop

theorem Image.Holds.addFunction {image : Image} {cs : List Cell} {ps : List Nat}
    (h : image.Holds cs ps) (f : Function codes) :
    (image.addFunction f).Holds (cs ++ functionCells (BitVec.ofNat 64) cs.length f)
      (ps ++ codeStarts (cs.length + 2) f.code) := by
  have hmark : Image.Holds
      { image with binary := image.binary ++ [BitVec.allOnes 64, f.frameSize] }
      (cs ++ [(BitVec.allOnes 64, none), (f.frameSize, none)]) ps := by
    refine ⟨by simp [h.binary], h.positions, ?_⟩
    simpa [fixes_append] using h.jumpsToFix
  have hcode := hmark.addCode hcodes f.code
  rw [List.length_append, List.append_assoc] at hcode
  exact hcode

theorem Image.Holds.addFunctions {image : Image} {cs : List Cell} {ps : List Nat}
    (h : image.Holds cs ps) (fs : List (Function codes)) :
    (fs.foldl Image.addFunction image).Holds
      (cs ++ functionsCells (BitVec.ofNat 64) cs.length fs)
      (ps ++ functionsStarts cs.length fs) := by
  induction fs generalizing image cs ps with
  | nil => simpa [functionsCells, functionsStarts] using h
  | cons f fs ih =>
    have hf := ih (h.addFunction hcodes f)
    rw [List.length_append, add_length_functionCells] at hf
    simpa [functionsCells, functionsStarts, List.append_assoc] using hf

theorem Program.image_holds (p : Program codes) :
    p.image.Holds (p.cells (BitVec.ofNat 64)) p.starts := by
  have hheader : Image.Holds { binary := p.header } (p.header.map (·, none)) [] := by
    exact ⟨by simp [Function.comp_def], rfl, (fixes_words 0 p.header).symm⟩
  have h := hheader.addFunctions hcodes p.functions
  rw [List.length_map] at h
  exact h

end

/-! ## Fixing the jumps -/

/-- The final word of a cell: a jump is the distance from its opcode to the instruction it
names. -/
def resolve (positions : List Nat) : Cell → Option Word
  | (w, none) => some w
  | (w, some s) => (positions[w.toNat]?).map fun (dst : Nat) => BitVec.ofInt 64 (dst - s)

/-- The loop over the jumps resolves each cell on its own. -/
theorem fixJumps_cells (positions : List Nat) (pre : List Word) (cs : List Cell) :
    fixJumps positions (fixes pre.length cs) (pre ++ cs.map Prod.fst) =
      (cs.mapM (resolve positions)).map (pre ++ ·) := by
  induction cs generalizing pre with
  | nil => simp [fixJumps]
  | cons c cs ih =>
    -- the cell's own word joins the part already fixed
    have hstep (w : Word) : fixJumps positions (fixes (pre.length + 1) cs)
        (pre ++ w :: cs.map Prod.fst) =
        ((cs.mapM (resolve positions)).map (w :: ·)).map (pre ++ ·) := by
      have h := ih (pre ++ [w])
      rw [List.length_append, List.length_singleton, ← List.append_cons] at h
      rw [h, Option.map_map]
      simp [Function.comp_def]
    match c with
    | (w, none) =>
      rw [fixes_word, List.map_cons, hstep, List.mapM_cons]
      cases cs.mapM (resolve positions) <;> rfl
    | (w, some s) =>
      have hword : (pre ++ w :: cs.map Prod.fst)[pre.length]? = some w := by simp
      rw [fixes_jump, List.map_cons, fixJumps, hword, List.mapM_cons, resolve]
      simp only [Option.bind_eq_bind, Option.bind_some]
      cases positions[w.toNat]? with
      | none => rfl
      | some dst =>
        have hoff : (dst : Int) - (pre.length + (s - pre.length)) = dst - s := by omega
        have hset (v : Word) : (pre ++ w :: cs.map Prod.fst).set pre.length v =
            pre ++ v :: cs.map Prod.fst := by simp
        rw [Option.bind_some, Option.map_some, Option.bind_some, hset, hoff, hstep]
        cases cs.mapM (resolve positions) <;> rfl

/-- `to_binary` resolves the cells of the program. -/
theorem Program.toBinary_eq (hcodes : ∀ d ∈ codes, JumpsFirst d.operands = true)
    (p : Program codes) :
    p.toBinary = (p.cells (BitVec.ofNat 64)).mapM (resolve p.starts) := by
  have h := p.image_holds hcodes
  have hfix := fixJumps_cells p.starts [] (p.cells (BitVec.ofNat 64))
  rw [List.nil_append, List.length_nil] at hfix
  rw [Program.toBinary, h.positions, h.jumpsToFix, h.binary, hfix]
  simp

end Mavros.Encoding
