/-
# `Mavros.VM.Bytecode` — the word encoding of programs

The interpreter macro reads the signature of each opcode handler and generates, from the
kinds of its operands, the variant of the `OpCode` enumeration, the code that writes it,
the code that measures it and the code with which the handler reads its operands.  Here
the macro's input is a table of definitions and the generated code is one function of the
table each, so that what is proved holds of any table; `opcodes` is the table of the
virtual machine.  Reads outside the program and the macro's own panics are `none`.

## What is modelled

* Operand kinds with the host values they stand for, and an opcode as a definition of the table
  with a value for each of its operands.
* `serialize`, `measure` and `getter`: the three generators.  They are separate recursions over the
  kind, as in the macro, and may disagree on a kind that no handler uses.
* `Program.toBinary` with its three parts: the layout table, the code of the functions, and the loop
  that replaces the number of an instruction by a distance.
* The loader: `parseStructLayouts`, and `prepareDispatch`, which walks over the opcodes and puts the
  address of a handler in the place of each.

A word is a bit vector, and distances are computed on words.

## What it is not

What a handler does is not part of the encoding; only what it reads is.
-/
import Mathlib.Tactic

namespace Mavros.Encoding

abbrev Word := BitVec 64

/-! ## Operand kinds

A field element is four words and a slice a counted number of elements.
-/

inductive HostType where
  | u64
  | usize
  | isize
  | field
  | jumpTarget
  | slice (elem : HostType)
  | tuple (elems : List HostType)
  | framePosition
  | boxedLayout
deriving Repr

mutual

/-- The host values of a kind.  A field element is its four limbs; every other scalar is
one word, a signed one in two's complement. -/
def HostType.Val : HostType → Type
  | .field => Word × Word × Word × Word
  | .slice elem => List elem.Val
  | .tuple elems => Vals elems
  | .u64 | .usize | .isize | .jumpTarget | .framePosition | .boxedLayout => Word

def Vals : List HostType → Type
  | [] => Unit
  | t :: ts => t.Val × Vals ts

end

/-- `StructInputType`: a position in the frame that is read or written, or a host value. -/
inductive StructInputType where
  | frame
  | out
  | host (t : HostType)
deriving Repr

/-- Frame inputs and outputs are fields of type `FramePosition`. -/
def StructInputType.hostType : StructInputType → HostType
  | frame | out => .framePosition
  | host t => t

structure OpCodeDef where
  name : String
  isRaw : Bool := false
  inputs : List StructInputType
deriving Repr

def OpCodeDef.operands (d : OpCodeDef) : List HostType := d.inputs.map (·.hostType)

/-- The generated enumeration: a definition of the table and a value for each operand. -/
structure OpCode (codes : List OpCodeDef) where
  code : Fin codes.length
  operands : Vals codes[code].operands

/-! ## Writing

The writers of one opcode thread the words, the offset and the jumps they have met.
-/

/-- What `to_binary` threads through the writers of one opcode. -/
structure Writer where
  binary : List Word
  offset : Int
  jumpsToFix : List (Nat × Int)

def Writer.push (w : Writer) (word : Word) : Writer :=
  { w with binary := w.binary ++ [word], offset := w.offset - 1 }

/-- A jump target: its place is noted with the offset reached so far. -/
def Writer.pushJump (w : Writer) (target : Word) : Writer where
  binary := w.binary ++ [target]
  offset := w.offset - 1
  jumpsToFix := w.jumpsToFix ++ [(w.binary.length, w.offset)]

/-- A field element: four words are pushed, and the offset moves by one. -/
def Writer.pushField (w : Writer) (v : Word × Word × Word × Word) : Writer :=
  { w with binary := w.binary ++ [v.1, v.2.1, v.2.2.1, v.2.2.2], offset := w.offset - 1 }

mutual

/-- `make_serializer`. -/
def serialize : (t : HostType) → t.Val → Writer → Writer
  | .jumpTarget, v, w => w.pushJump v
  | .field, v, w => w.pushField v
  | .slice elem, (vs : List elem.Val), w =>
    vs.foldl (fun w v => serialize elem v w) (w.push (BitVec.ofNat 64 vs.length))
  | .tuple elems, vs, w => serializeAll elems vs w
  | .u64, v, w | .usize, v, w | .isize, v, w | .framePosition, v, w | .boxedLayout, v, w =>
    w.push v

def serializeAll : (ts : List HostType) → Vals ts → Writer → Writer
  | [], _, w => w
  | t :: ts, v, w => serializeAll ts v.2 (serialize t v.1 w)

end

variable {codes : List OpCodeDef}

/-- `OpCode::to_binary`: the words written and the jumps to fix. -/
def OpCode.toBinary (op : OpCode codes) (binary : List Word) (jumpsToFix : List (Nat × Int)) :
    List Word × List (Nat × Int) :=
  let w := serializeAll codes[op.code].operands op.operands
    { binary := binary ++ [BitVec.ofNat 64 op.code], offset := -1, jumpsToFix }
  (w.binary, w.jumpsToFix)

/-! ## Measuring

What the loader needs to get from one opcode to the next.
-/

mutual

/-- `measure_size`: a slice has no size at compile time. -/
def HostType.measureSize : HostType → Option Nat
  | .slice _ => none
  | .field => some 4
  | .tuple elems => measureSizes elems
  | .u64 | .usize | .isize | .jumpTarget | .framePosition | .boxedLayout => some 1

def measureSizes : List HostType → Option Nat
  | [] => some 0
  | t :: ts => do return (← t.measureSize) + (← measureSizes ts)

end

/-- `make_measurer`: where the operand that starts at `ix` ends. -/
def measure (binary : List Word) : HostType → Nat → Option Nat
  | .slice child, ix => do
    let childSize ← child.measureSize
    let len ← binary[ix]?
    return ix + 1 + len.toNat * childSize
  | .tuple _, _ => none
  | .field, ix => some (ix + 4)
  | .u64, ix | .usize, ix | .isize, ix | .jumpTarget, ix | .framePosition, ix
  | .boxedLayout, ix => some (ix + 1)

/-- `next_opcode`. -/
def nextOpcode (codes : List OpCodeDef) (binary : List Word) (ix : Nat) : Option Nat := do
  let opCode ← binary[ix]?
  let d ← codes[opCode.toNat]?
  d.operands.foldlM (fun ix t => measure binary t ix) (ix + 1)

/-! ## Reading

What the handler's own code does with its operands.
-/

def readField (program : List Word) (o : Nat) : Option (Word × Word × Word × Word) := do
  return (← program[o]?, ← program[o + 1]?, ← program[o + 2]?, ← program[o + 3]?)

mutual

/-- An element of a slice, read in place: its words in order. -/
def readElem (program : List Word) : (t : HostType) → Nat → Option t.Val
  | .field, o => readField program o
  | .slice _, _ => none
  | .tuple elems, o => readElems program elems o
  | .u64, o | .usize, o | .isize, o | .jumpTarget, o | .framePosition, o | .boxedLayout, o =>
    program[o]?

def readElems (program : List Word) : (ts : List HostType) → Nat → Option (Vals ts)
  | [], _ => some ()
  | t :: ts, o => do
    let v ← readElem program t o
    let size ← t.measureSize
    return (v, ← readElems program ts (o + size))

end

/-- `make_getter`: the operand at an offset, and the offset after it. -/
def getter (program : List Word) : (t : HostType) → Nat → Option (t.Val × Nat)
  | .slice child, o => do
    let size ← child.measureSize
    let len ← program[o]?
    let elems ← (List.range len.toNat).mapM fun i => readElem program child (o + 1 + i * size)
    return (elems, o + 1 + len.toNat * size)
  | .tuple _, _ => none
  | .field, o => do return (← readField program o, o + 4)
  | .u64, o | .usize, o | .isize, o | .jumpTarget, o | .framePosition, o | .boxedLayout, o => do
    return (← program[o]?, o + 1)

def getters (program : List Word) : (ts : List HostType) → Nat → Option (Vals ts × Nat)
  | [], o => some ((), o)
  | t :: ts, o => do
    let (v, o) ← getter program t o
    let (vs, o) ← getters program ts o
    return ((v, vs), o)

/-- What the handler of the opcode `code` reads from its operands at `pc`, and the `pc` past
them. -/
def handlerOperands (codes : List OpCodeDef) (program : List Word) (pc : Nat)
    (code : Fin codes.length) : Option (OpCode codes × Nat) := do
  let (operands, currentFieldOffset) ← getters (program.drop pc) codes[code].operands 1
  return (⟨code, operands⟩, pc + currentFieldOffset)

/-! ## Programs

The image as it grows, and the loop over the jumps when it is complete.
-/

/-- `StructDescriptor`: the fields are not empty and fit in a payload. -/
structure StructDescriptor where
  fields : List (BitVec 32 × Bool)
  size_pos : ∀ f ∈ fields, 0 < f.1.toNat
  totalSize_lt : (fields.map (·.1.toNat)).sum < 2 ^ 32

/-- The sizes are checked one after the other. -/
instance decidableSizePos (fields : List (BitVec 32 × Bool)) :
    Decidable (∀ f ∈ fields, 0 < f.1.toNat) :=
  List.decidableBAll _ fields

/-- `StructDescriptor::new`. -/
def StructDescriptor.new (fields : List (BitVec 32 × Bool)) : Option StructDescriptor :=
  if h : (∀ f ∈ fields, 0 < f.1.toNat) ∧ (fields.map (·.1.toNat)).sum < 2 ^ 32 then
    some ⟨fields, h.1, h.2⟩
  else none

structure Function (codes : List OpCodeDef) where
  frameSize : Word
  code : List (OpCode codes)

structure Program (codes : List OpCodeDef) where
  functions : List (Function codes)
  globalFrameSize : Word
  structLayouts : List StructDescriptor

def encodeStructField (size : BitVec 32) (refcounted : Bool) : Word :=
  (BitVec.ofBool refcounted).setWidth 64 <<< 63 ||| size.setWidth 64

def decodeStructField (word : Word) : BitVec 32 × Bool :=
  ((word &&& 0xFFFFFFFF#64).setWidth 32, word >>> 63 != 0)

def encodeLayout (desc : StructDescriptor) : List Word :=
  BitVec.ofNat 64 desc.fields.length ::
    desc.fields.map fun f => encodeStructField f.1 f.2

/-- The words `to_binary` has written, the positions of the instructions and the jumps to
fix. -/
structure Image where
  binary : List Word
  positions : List Nat := []
  jumpsToFix : List (Nat × Int) := []

def Image.addOp (image : Image) (op : OpCode codes) : Image :=
  let written := op.toBinary image.binary image.jumpsToFix
  { binary := written.1
    positions := image.positions ++ [image.binary.length]
    jumpsToFix := written.2 }

def Image.addFunction (image : Image) (f : Function codes) : Image :=
  f.code.foldl Image.addOp
    { image with binary := image.binary ++ [BitVec.allOnes 64, f.frameSize] }

/-- The loop over `jumps_to_fix`: a target is the number of an instruction, and becomes the
distance from the position the offset points back to. -/
def fixJumps (positions : List Nat) : List (Nat × Int) → List Word → Option (List Word)
  | [], binary => some binary
  | (jumpPosition, addOffset) :: rest, binary => do
    let target ← binary[jumpPosition]?
    let targetPos ← positions[target.toNat]?
    fixJumps positions rest
      (binary.set jumpPosition (BitVec.ofInt 64 (targetPos - (jumpPosition + addOffset))))

/-- The layout table and the global frame size. -/
def Program.header (p : Program codes) : List Word :=
  BitVec.ofNat 64 p.structLayouts.length :: p.structLayouts.flatMap encodeLayout ++
    [p.globalFrameSize]

def Program.image (p : Program codes) : Image :=
  p.functions.foldl Image.addFunction { binary := p.header }

/-- `Program::to_binary`. -/
def Program.toBinary (p : Program codes) : Option (List Word) :=
  fixJumps p.image.positions p.image.jumpsToFix p.image.binary

/-! ## Loading

Layouts first, for they say where the code begins.
-/

/-- The fields of one descriptor, from the offset of the first. -/
def parseFields (program : List Word) (n off : Nat) : Option (List (BitVec 32 × Bool)) :=
  (List.range n).mapM fun i => (program[off + i]?).map decodeStructField

/-- The loop of `parse_struct_layouts`. -/
def parseLayouts (program : List Word) : Nat → Nat → Option (List StructDescriptor × Nat)
  | 0, off => some ([], off)
  | k + 1, off => do
    let n ← program[off]?
    let desc ← StructDescriptor.new (← parseFields program n.toNat (off + 1))
    let (layouts, off) ← parseLayouts program k (off + 1 + n.toNat)
    return (desc :: layouts, off)

/-- `parse_struct_layouts`. -/
def parseStructLayouts (program : List Word) : Option (List StructDescriptor × Nat) := do
  let numDescriptors ← program[0]?
  parseLayouts program numDescriptors.toNat 1

/-- The loop of `prepare_dispatch`: each opcode is replaced by the address of its handler.
Returns the program and the offsets visited; the fuel bounds the rounds. -/
def prepareLoop (codes : List OpCodeDef) (dispatch : Nat → Word) :
    Nat → List Word → Nat → Option (List Word × List Nat)
  | 0, _, _ => none
  | fuel + 1, program, currentOffset =>
    if currentOffset < program.length then do
      let opcode ← program[currentOffset]?
      if opcode = BitVec.allOnes 64 then
        prepareLoop codes dispatch fuel program (currentOffset + 2)
      else
        let next ← nextOpcode codes program currentOffset
        let (program, visited) ← prepareLoop codes dispatch fuel
          (program.set currentOffset (dispatch opcode.toNat)) next
        return (program, currentOffset :: visited)
    else some (program, [])

/-- `prepare_dispatch`. -/
def prepareDispatch (codes : List OpCodeDef) (dispatch : Nat → Word) (program : List Word)
    (codeStart : Nat) : Option (List Word × List Nat) :=
  prepareLoop codes dispatch (program.length + 1) program (codeStart + 1)

/-! ## The opcodes

Name and operand kinds of each handler, in the order of their numbers.
-/

/-- The handlers of the virtual machine, in the order of its `DISPATCH` table. -/
def opcodes : List OpCodeDef := [
  { name := "jmp", isRaw := true, inputs := [.host .jumpTarget] },
  { name := "jmp_if", isRaw := true, inputs := [.frame, .host .jumpTarget, .host .jumpTarget] },
  { name := "call", isRaw := true,
    inputs := [.host .jumpTarget, .host (.slice (.tuple [.usize, .framePosition])),
      .host .framePosition] },
  { name := "ret", isRaw := true, inputs := [] },
  { name := "r1c", isRaw := true, inputs := [.frame, .frame, .frame] },
  { name := "write_witness", isRaw := true, inputs := [.frame] },
  { name := "nop", inputs := [] },
  { name := "mov_const", inputs := [.out, .host .u64] },
  { name := "mov_frame", inputs := [.host .framePosition, .host .framePosition, .host .usize] },
  { name := "write_ptr", inputs := [.frame, .host .isize, .host .framePosition, .host .usize] },
  { name := "add_int", inputs := [.out, .frame, .frame, .host .u64] },
  { name := "sub_int", inputs := [.out, .frame, .frame, .host .u64] },
  { name := "mul_int", inputs := [.out, .frame, .frame, .host .u64] },
  { name := "div_u64", inputs := [.out, .frame, .frame] },
  { name := "mod_u64", inputs := [.out, .frame, .frame] },
  { name := "and_u64", inputs := [.out, .frame, .frame] },
  { name := "or_u64", inputs := [.out, .frame, .frame] },
  { name := "xor_u64", inputs := [.out, .frame, .frame] },
  { name := "shl_u64", inputs := [.out, .frame, .frame, .host .u64] },
  { name := "ushr_u64", inputs := [.out, .frame, .frame] },
  { name := "not_u64", inputs := [.out, .frame] },
  { name := "eq_u64", inputs := [.out, .frame, .frame] },
  { name := "lt_u64", inputs := [.out, .frame, .frame] },
  { name := "lt_s64", inputs := [.out, .frame, .frame, .host .u64] },
  { name := "truncate_u64", inputs := [.out, .frame, .host .u64] },
  { name := "truncate_f_to_u", inputs := [.out, .frame, .host .u64] },
  { name := "add_field", inputs := [.out, .frame, .frame] },
  { name := "sub_field", inputs := [.out, .frame, .frame] },
  { name := "div_field", inputs := [.out, .frame, .frame] },
  { name := "mul_field", inputs := [.out, .frame, .frame] },
  { name := "cast_field_to_u64", inputs := [.out, .frame] },
  { name := "cast_u64_to_field", inputs := [.out, .frame] },
  { name := "array_alloc",
    inputs := [.out, .host .usize, .host .boxedLayout, .host (.slice .framePosition)] },
  { name := "array_alloc_repeated",
    inputs := [.out, .host .usize, .host .boxedLayout, .host .usize, .host .framePosition] },
  { name := "tuple_alloc", inputs := [.out, .host .boxedLayout, .host (.slice .framePosition)] },
  { name := "ref_alloc", inputs := [.out, .host .boxedLayout] },
  { name := "ref_store", inputs := [.frame, .host .framePosition, .host .usize, .host .usize] },
  { name := "ref_load", inputs := [.out, .frame, .host .usize] },
  { name := "array_get", inputs := [.out, .frame, .frame, .host .usize] },
  { name := "tuple_proj", inputs := [.out, .frame, .host .usize, .host .usize] },
  { name := "array_set", inputs := [.out, .frame, .frame, .host .framePosition, .host .usize] },
  { name := "slice_len", inputs := [.out, .frame, .host .usize] },
  { name := "inc_rc", inputs := [.frame, .host .u64] },
  { name := "dec_rc", inputs := [.frame] },
  { name := "witness_ref_alloc", inputs := [.out, .host .field] },
  { name := "bump_da", inputs := [.frame, .frame] },
  { name := "bump_db", inputs := [.frame, .frame] },
  { name := "bump_dc", inputs := [.frame, .frame] },
  { name := "next_d_coeff", inputs := [.out] },
  { name := "fresh_witness", inputs := [.out] },
  { name := "pure_to_witness_ref", inputs := [.out, .frame] },
  { name := "unbox_field", inputs := [.out, .frame] },
  { name := "mul_const", inputs := [.out, .frame, .frame] },
  { name := "add_boxed", inputs := [.out, .frame, .frame] },
  { name := "assert_eq_u64", inputs := [.frame, .frame] },
  { name := "assert_eq_field", inputs := [.frame, .frame] },
  { name := "assert_r1c", inputs := [.frame, .frame, .frame] },
  { name := "rangecheck", inputs := [.frame, .host .usize] },
  { name := "to_bytes_be", inputs := [.frame, .host .u64, .out] },
  { name := "to_bits_le", inputs := [.out, .frame, .host .u64] },
  { name := "spread_u32", inputs := [.out, .frame] },
  { name := "unspread_u64", inputs := [.out, .out, .frame] },
  { name := "spread_lookup_field", inputs := [.frame, .frame, .frame, .host .usize] },
  { name := "dspread_lookup_field", inputs := [.frame, .frame, .frame, .host .usize] },
  { name := "rngchk_8_field", inputs := [.frame, .frame] },
  { name := "array_lookup_field",
    inputs := [.frame, .frame, .frame, .frame, .host .usize, .host .usize] },
  { name := "drngchk_8_field", inputs := [.frame, .frame] },
  { name := "darray_lookup_field",
    inputs := [.frame, .frame, .frame, .frame, .host .usize, .host .usize] },
  { name := "init_global", inputs := [.host .framePosition, .host .usize, .host .usize] },
  { name := "read_global", inputs := [.out, .host .usize, .host .usize] },
  { name := "drop_global", inputs := [.host .usize] }]

end Mavros.Encoding
