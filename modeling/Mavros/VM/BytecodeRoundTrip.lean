/-
# `Mavros.VM.BytecodeRoundTrip` — the encoding of programs is read back

Loading the image of a program gives the program back: the layout table and the frame
size of the globals are parsed, `prepare_dispatch` visits the instructions at the
positions `to_binary` noted for them, and the handlers read the operands that were
encoded, with each jump the distance to the instruction it names.

## What is proved

* `Program.readsBack`: the round trip for any table of opcodes that is `Sound`.
* `Program.roundTrip`: the same for the table of the virtual machine, whatever the program, given
  only that `to_binary` has returned and the words are fewer than `2 ^ 63`.
* `Program.toBinary_isSome_iff`: it returns exactly when every jump names an instruction.
* `opEnd_call`: the return address a call computes on its own is the position of the next
  instruction.

## How it goes

`ReadBack` is one opcode, `Decodes` the code of a function and `Program.Stands` the program; each is
derived from the cells of `Mavros.VM.BytecodeImage` standing in the words.  The loop of
`prepare_dispatch` replaces the word of an opcode by the address of its handler and moves on by the
measured size, so that it never takes an operand for an opcode (`prepareLoop_code`).
-/
import Mavros.VM.BytecodeOperands

namespace Mavros.Encoding

open Lib (mapM_length mapM_eq_some)

/-! ## Opcodes

What the round trip asks of a table, and one opcode.
-/

variable {codes : List OpCodeDef}

/-- What the round trip needs of a table: the macro accepts the operands, no jump target
follows a field element, and no opcode is the marker of a function. -/
structure Sound (codes : List OpCodeDef) : Prop where
  jumpsFirst : ∀ d ∈ codes, JumpsFirst d.operands = true
  readable : ∀ d ∈ codes, d.operands.all HostType.Readable = true
  length_lt : codes.length < 2 ^ 64 - 1

theorem opCells_mapM {positions : List Nat} {tag : Nat → Word} {s : Nat} {op : OpCode codes}
    {ws : List Word} : (opCells tag s op).mapM (resolve positions) = some ws ↔
      ∃ os, (cellsAll s (codes.get op.code).operands op.operands).mapM (resolve positions)
          = some os ∧
        ws = tag op.code :: os := by
  have hcons : opCells tag s op = [((tag op.code, none) : Cell)] ++
      cellsAll s (codes.get op.code).operands op.operands := rfl
  rw [hcons, mapM_append_eq_some]
  constructor
  · rintro ⟨xs, os, hx, ho, rfl⟩
    refine ⟨os, ho, ?_⟩
    rw [Option.some.inj (hx.symm.trans (resolve_words positions [tag op.code]))]
    rfl
  · rintro ⟨os, ho, rfl⟩
    exact ⟨[tag op.code], os, resolve_words positions [tag op.code], ho, rfl⟩

/-- The handler of the opcode reads its operands at `s`, the jumps relocated. -/
def ReadBack (positions : List Nat) (program : List Word) (s : Nat) (op : OpCode codes) : Prop :=
  ∃ rs : Vals (codes.get op.code).operands,
    handlerOperands codes program s op.code = some (⟨op.code, rs⟩, opEnd s op) ∧
      RelocatedAll positions s (codes.get op.code).operands op.operands rs

theorem readBack_of_at (hcodes : Sound codes) {positions : List Nat}
    (hpositions : ∀ dst ∈ positions, dst < 2 ^ 63) {program : List Word}
    (hlen : program.length < 2 ^ 63) {tag : Nat → Word} {s : Nat} {op : OpCode codes}
    {ws : List Word} (hws : (opCells tag s op).mapM (resolve positions) = some ws)
    (hat : At program s ws) : program[s]? = some (tag op.code) ∧
      ReadBack positions program s op := by
  obtain ⟨os, hos, rfl⟩ := opCells_mapM.mp hws
  have hs : s < 2 ^ 63 := by
    have hlt := (List.getElem?_eq_some_iff.mp hat.head).1
    omega
  obtain ⟨rs, hrs, rfl⟩ := resolve_cellsAll hpositions hs op.operands hos
  have hlength := mapM_length hos
  have hdrop : (program.drop s).length < 2 ^ 64 := by
    rw [List.length_drop]
    omega
  have hget : getters (program.drop s) codes[op.code].operands 1 =
      some (rs, 1 + (wordsAll s codes[op.code].operands rs).length) :=
    (getters_words hdrop (hcodes.readable _ (List.getElem_mem op.code.isLt)) rs hat.tail.drop).1
  refine ⟨hat.head, rs, ?_, hrs⟩
  simp only [handlerOperands, hget, Option.bind_eq_bind, Option.bind_some, Option.pure_def]
  have hend : s + (1 + (wordsAll s codes[op.code].operands rs).length) = opEnd s op := by
    rw [hlength, opEnd, ← Nat.add_assoc]
  rw [hend]

theorem nextOpcode_of_at (hcodes : Sound codes) {positions : List Nat}
    (hpositions : ∀ dst ∈ positions, dst < 2 ^ 63) {program : List Word}
    (hlen : program.length < 2 ^ 63) {s : Nat} {op : OpCode codes} {ws : List Word}
    (hws : (opCells (BitVec.ofNat 64) s op).mapM (resolve positions) = some ws)
    (hat : At program s ws) : nextOpcode codes program s = some (opEnd s op) := by
  obtain ⟨os, hos, rfl⟩ := opCells_mapM.mp hws
  have hs : s < 2 ^ 63 := by
    have hlt := (List.getElem?_eq_some_iff.mp hat.head).1
    omega
  obtain ⟨rs, hrs, rfl⟩ := resolve_cellsAll hpositions hs op.operands hos
  have hlength := mapM_length hos
  have hcode : (BitVec.ofNat 64 (op.code : Nat)).toNat = op.code := by
    have hlt := op.code.isLt
    have hcount := hcodes.length_lt
    rw [BitVec.toNat_ofNat, Nat.mod_eq_of_lt (by omega)]
  have hmeasure := (getters_words (by omega) (hcodes.readable _ (List.getElem_mem op.code.isLt)) rs
    hat.tail).2
  simp only [nextOpcode, hat.head, Option.bind_eq_bind, Option.bind_some, hcode,
    List.getElem?_eq_getElem op.code.isLt]
  rw [opEnd, ← hlength]
  exact hmeasure

/-! ## The code of a function

By induction over the instructions, with the position reached.
-/

/-- The instructions stand at their positions, under the words given, and their handlers
read back their operands. -/
def Decodes (tag : Nat → Word) (positions : List Nat) (program : List Word) (starts : List Nat)
    (ops : List (OpCode codes)) : Prop :=
  List.Forall₂ (fun s op => program[s]? = some (tag op.code) ∧ ReadBack positions program s op)
    starts ops

theorem decodes_of_at (hcodes : Sound codes) {positions : List Nat}
    (hpositions : ∀ dst ∈ positions, dst < 2 ^ 63) {program : List Word}
    (hlen : program.length < 2 ^ 63) {tag : Nat → Word} {s : Nat} {ops : List (OpCode codes)}
    {ws : List Word} (hws : (codeCells tag s ops).mapM (resolve positions) = some ws)
    (hat : At program s ws) : Decodes tag positions program (codeStarts s ops) ops := by
  induction ops generalizing s ws with
  | nil => exact .nil
  | cons op ops ih =>
    rw [codeCells, mapM_append_eq_some] at hws
    obtain ⟨xs, ys, hx, hy, rfl⟩ := hws
    have hrest := hat.right
    rw [mapM_length hx, add_length_opCells] at hrest
    exact .cons (readBack_of_at hcodes hpositions hlen hx hat.left) (ih hy hrest)

/-- The loop of `prepare_dispatch` over the code of a function: it visits each instruction
and leaves the image the table of handlers would have been written to. -/
theorem prepareLoop_code (hcodes : Sound codes) {positions : List Nat}
    (hpositions : ∀ dst ∈ positions, dst < 2 ^ 63) (dispatch : Nat → Word) (rest : List Word)
    {ops : List (OpCode codes)} {pre ws : List Word}
    (hws : (codeCells (BitVec.ofNat 64) pre.length ops).mapM (resolve positions) = some ws)
    (hlen : (pre ++ (ws ++ rest)).length < 2 ^ 63) :
    ∃ ws', (codeCells dispatch pre.length ops).mapM (resolve positions) = some ws' ∧
      ∀ fuel, prepareLoop codes dispatch (ops.length + fuel) (pre ++ (ws ++ rest)) pre.length =
        (prepareLoop codes dispatch fuel (pre ++ (ws' ++ rest)) (codeEnd pre.length ops)).map
          fun r => (r.1, codeStarts pre.length ops ++ r.2) := by
  induction ops generalizing pre ws with
  | nil =>
    refine ⟨ws, hws, fun fuel => ?_⟩
    simp [codeEnd, codeStarts]
  | cons op ops ih =>
    rw [codeCells, mapM_append_eq_some] at hws
    obtain ⟨xs, ys, hx, hy, rfl⟩ := hws
    have hnext := nextOpcode_of_at hcodes hpositions hlen hx (by
      rw [List.append_assoc]
      exact at_append pre xs (ys ++ rest))
    obtain ⟨os, hos, rfl⟩ := opCells_mapM.mp hx
    have hend : (pre ++ dispatch op.code :: os).length = opEnd pre.length op := by
      rw [List.length_append, List.length_cons, mapM_length hos, opEnd]
      omega
    have hcode : (BitVec.ofNat 64 (op.code : Nat)).toNat = op.code := by
      have hlt := op.code.isLt
      have hcount := hcodes.length_lt
      rw [BitVec.toNat_ofNat, Nat.mod_eq_of_lt (by omega)]
    have hmark : BitVec.ofNat 64 (op.code : Nat) ≠ BitVec.allOnes 64 := by
      intro heq
      have hlt := op.code.isLt
      have hcount := hcodes.length_lt
      have hnat := congrArg BitVec.toNat heq
      rw [hcode, BitVec.toNat_allOnes] at hnat
      omega
    rw [← hend] at hy
    obtain ⟨ys', hys', hloop⟩ := ih hy (by simpa using hlen)
    rw [hend] at hys' hloop
    refine ⟨dispatch op.code :: os ++ ys', ?_, fun fuel => ?_⟩
    · rw [codeCells, mapM_append_eq_some]
      exact ⟨_, _, opCells_mapM.mpr ⟨os, hos, rfl⟩, hys', rfl⟩
    · have hword : (pre ++ (BitVec.ofNat 64 (op.code : Nat) :: os ++ ys ++ rest))[pre.length]? =
          some (BitVec.ofNat 64 op.code) := by simp
      have hset : (pre ++ (BitVec.ofNat 64 (op.code : Nat) :: os ++ ys ++ rest)).set pre.length
          (dispatch op.code) = (pre ++ dispatch op.code :: os) ++ (ys ++ rest) := by simp
      have hfuel : (op :: ops).length + fuel = ops.length + fuel + 1 := by
        rw [List.length_cons]
        omega
      have hin := (List.getElem?_eq_some_iff.mp hword).1
      rw [hfuel, prepareLoop, if_pos hin, hword]
      simp only [Option.bind_eq_bind, Option.bind_some, if_neg hmark, hnext, hcode, hset, hloop]
      have hpre : pre ++ (dispatch op.code :: os ++ ys' ++ rest) =
          pre ++ dispatch op.code :: os ++ (ys' ++ rest) := by simp
      rw [codeEnd, codeStarts, hpre]
      cases prepareLoop codes dispatch fuel (pre ++ dispatch op.code :: os ++ (ys' ++ rest))
        (codeEnd (opEnd pre.length op) ops) <;> rfl

/-! ## Functions -/

/-- Where the code of each function starts: two words past its marker. -/
def functionsEntries : Nat → List (Function codes) → List Nat
  | _, [] => []
  | s, f :: fs => (s + 2) :: functionsEntries (codeEnd (s + 2) f.code) fs

/-- The instructions of a function follow its entry. -/
theorem functionsStarts_eq (s : Nat) (fs : List (Function codes)) :
    functionsStarts s fs =
      (List.zipWith (fun e f => codeStarts e f.code) (functionsEntries s fs) fs).flatten := by
  induction fs generalizing s with
  | nil => rfl
  | cons f fs ih =>
    rw [functionsStarts, functionsEntries, List.zipWith_cons_cons, List.flatten_cons, ih]

/-- The marker and the frame size stand before the entry of the function. -/
def Entry (program : List Word) (e : Nat) (f : Function codes) : Prop :=
  2 ≤ e ∧ program[e - 2]? = some (BitVec.allOnes 64) ∧ program[e - 1]? = some f.frameSize

theorem functionCells_mapM {positions : List Nat} {tag : Nat → Word} {s : Nat}
    {f : Function codes} {ws : List Word} :
    (functionCells tag s f).mapM (resolve positions) = some ws ↔
      ∃ os, (codeCells tag (s + 2) f.code).mapM (resolve positions) = some os ∧
        ws = BitVec.allOnes 64 :: f.frameSize :: os := by
  have hcons : functionCells tag s f =
      [BitVec.allOnes 64, f.frameSize].map (fun w => ((w, none) : Cell)) ++
        codeCells tag (s + 2) f.code := rfl
  rw [hcons, mapM_append_eq_some]
  constructor
  · rintro ⟨xs, os, hx, ho, rfl⟩
    refine ⟨os, ho, ?_⟩
    rw [Option.some.inj (hx.symm.trans (resolve_words positions _))]
    rfl
  · rintro ⟨os, ho, rfl⟩
    exact ⟨_, os, resolve_words positions _, ho, rfl⟩

theorem functions_of_at (hcodes : Sound codes) {positions : List Nat}
    (hpositions : ∀ dst ∈ positions, dst < 2 ^ 63) {program : List Word}
    (hlen : program.length < 2 ^ 63) {tag : Nat → Word} {s : Nat} {fs : List (Function codes)}
    {ws : List Word} (hws : (functionsCells tag s fs).mapM (resolve positions) = some ws)
    (hat : At program s ws) :
    List.Forall₂ (Entry program) (functionsEntries s fs) fs ∧
      Decodes tag positions program (functionsStarts s fs) (fs.flatMap (·.code)) := by
  induction fs generalizing s ws with
  | nil => exact ⟨.nil, .nil⟩
  | cons f fs ih =>
    rw [functionsCells, mapM_append_eq_some] at hws
    obtain ⟨xs, ys, hx, hy, rfl⟩ := hws
    have hrest := hat.right
    rw [mapM_length hx, add_length_functionCells] at hrest
    obtain ⟨os, hos, rfl⟩ := functionCells_mapM.mp hx
    have hentry : Entry program (s + 2) f :=
      ⟨Nat.le_add_left 2 s, hat.left.head, hat.left.tail.head⟩
    have hcode := decodes_of_at hcodes hpositions hlen hos hat.left.tail.tail
    obtain ⟨hentries, hcodes'⟩ := ih hy hrest
    refine ⟨.cons hentry hentries, ?_⟩
    rw [functionsStarts, List.flatMap_cons]
    exact List.rel_append hcode hcodes'

/-- How often the loop of `prepare_dispatch` goes round. -/
def rounds (fs : List (Function codes)) : Nat := (fs.map fun f => f.code.length + 1).sum

theorem length_code_le (tag : Nat → Word) (s : Nat) (ops : List (OpCode codes)) :
    ops.length ≤ (codeCells tag s ops).length := by
  induction ops generalizing s with
  | nil => exact Nat.le_refl 0
  | cons op ops ih =>
    have h := ih (opEnd s op)
    rw [codeCells, opCells, List.length_append, List.length_cons, List.length_cons]
    omega

theorem rounds_le (tag : Nat → Word) (s : Nat) (fs : List (Function codes)) :
    rounds fs ≤ (functionsCells tag s fs).length := by
  induction fs generalizing s with
  | nil => exact Nat.le_refl 0
  | cons f fs ih =>
    have h := ih (codeEnd (s + 2) f.code)
    have hcode := length_code_le tag (s + 2) f.code
    rw [rounds] at h ⊢
    rw [functionsCells, functionCells, List.map_cons, List.sum_cons, List.length_append,
      List.length_cons, List.length_cons]
    omega

theorem prepareLoop_functions (hcodes : Sound codes) {positions : List Nat}
    (hpositions : ∀ dst ∈ positions, dst < 2 ^ 63) (dispatch : Nat → Word)
    {fs : List (Function codes)} {pre ws : List Word}
    (hws : (functionsCells (BitVec.ofNat 64) pre.length fs).mapM (resolve positions) = some ws)
    (hlen : (pre ++ ws).length < 2 ^ 63) :
    ∃ ws', (functionsCells dispatch pre.length fs).mapM (resolve positions) = some ws' ∧
      ∀ fuel, rounds fs < fuel → prepareLoop codes dispatch fuel (pre ++ ws) pre.length =
        some (pre ++ ws', functionsStarts pre.length fs) := by
  induction fs generalizing pre ws with
  | nil =>
    obtain rfl : [] = ws := by simpa [functionsCells] using hws
    refine ⟨[], rfl, fun fuel hfuel => ?_⟩
    obtain ⟨n, rfl⟩ := Nat.exists_eq_add_one_of_ne_zero (Nat.ne_of_gt (Nat.zero_lt_of_lt hfuel))
    rw [prepareLoop, if_neg (by simp)]
    rfl
  | cons f fs ih =>
    rw [functionsCells, mapM_append_eq_some] at hws
    obtain ⟨xs, ys, hx, hy, rfl⟩ := hws
    obtain ⟨os, hos, rfl⟩ := functionCells_mapM.mp hx
    let marked := pre ++ [BitVec.allOnes 64, f.frameSize]
    have hmarked : marked.length = pre.length + 2 := by simp [marked]
    rw [← hmarked] at hos
    have hsplit : pre ++ (BitVec.allOnes 64 :: f.frameSize :: os ++ ys) = marked ++ (os ++ ys) := by
      simp [marked]
    rw [hsplit] at hlen ⊢
    obtain ⟨os', hos', hcode⟩ := prepareLoop_code hcodes hpositions dispatch ys hos hlen
    have hlength : os'.length = os.length := by
      rw [mapM_length hos', mapM_length hos]
      have h := add_length_codeCells dispatch marked.length f.code
      have h' := add_length_codeCells (BitVec.ofNat 64) marked.length f.code
      omega
    have hend : (marked ++ os').length = codeEnd (pre.length + 2) f.code := by
      rw [List.length_append, mapM_length hos', add_length_codeCells, hmarked]
    rw [← hend] at hy
    obtain ⟨ys', hys', hfs⟩ := ih hy (by simpa [hlength] using hlen)
    rw [hend] at hys' hfs
    refine ⟨BitVec.allOnes 64 :: f.frameSize :: os' ++ ys', ?_, fun fuel hfuel => ?_⟩
    · rw [functionsCells, mapM_append_eq_some]
      exact ⟨_, ys', functionCells_mapM.mpr ⟨os', by rw [← hmarked]; exact hos', rfl⟩, hys', rfl⟩
    · rw [rounds, List.map_cons, List.sum_cons] at hfuel
      obtain ⟨n, rfl⟩ : ∃ n, fuel = f.code.length + n + 1 :=
        ⟨fuel - f.code.length - 1, by omega⟩
      have hword : (marked ++ (os ++ ys))[pre.length]? = some (BitVec.allOnes 64) := by
        simp [marked]
      have hin := (List.getElem?_eq_some_iff.mp hword).1
      have hrest := hfs n (by rw [rounds]; omega)
      rw [prepareLoop, if_pos hin, hword]
      simp only [Option.bind_eq_bind, Option.bind_some, if_pos]
      rw [← hmarked, hcode n, hmarked, ← List.append_assoc, hrest]
      simp [marked, functionsStarts]

/-! ## Layouts

Written and read field by field; the reader stops where the writer did.
-/

theorem decodeStructField_encode (size : BitVec 32) (refcounted : Bool) :
    decodeStructField (encodeStructField size refcounted) = (size, refcounted) := by
  have hmask : 0xFFFFFFFF#64 = (BitVec.allOnes 32).setWidth 64 := rfl
  have hsize : ((encodeStructField size refcounted) &&& 0xFFFFFFFF#64).setWidth 32 = size := by
    rw [hmask]
    ext i hi
    simp [encodeStructField]
    intro _
    exact BitVec.getElem_allOnes (v := 32) i hi
  have hflag : (encodeStructField size refcounted >>> 63 != 0) = refcounted := by
    have hshift : size.setWidth 64 >>> 63 = 0#64 := by
      apply BitVec.eq_of_toNat_eq
      have hlt := size.isLt
      rw [BitVec.toNat_ushiftRight, BitVec.toNat_setWidth, Nat.mod_eq_of_lt (by omega),
        Nat.shiftRight_eq_div_pow, Nat.div_eq_of_lt (by omega)]
      rfl
    rw [encodeStructField, BitVec.ushiftRight_or_distrib, hshift]
    cases refcounted <;> rfl
  rw [decodeStructField, hsize, hflag]
theorem new_fields (desc : StructDescriptor) : StructDescriptor.new desc.fields = some desc :=
  dif_pos ⟨desc.size_pos, desc.totalSize_lt⟩

theorem parseFields_words {program : List Word} {off : Nat} {fields : List (BitVec 32 × Bool)}
    (h : At program off (fields.map fun f => encodeStructField f.1 f.2)) :
    parseFields program fields.length off = some fields := by
  have hword (i : Nat) (hi : i < fields.length) :
      (program[off + i]?).map decodeStructField = some fields[i] := by
    have hat := h i (encodeStructField fields[i].1 fields[i].2) (by simp [hi])
    rw [hat, Option.map_some, decodeStructField_encode]
  refine mapM_eq_some.mpr (List.forall₂_iff_get.mpr ⟨List.length_range, fun i hi hi' => ?_⟩)
  simpa using hword i hi'

/-- The layout table is read back, and the reader stops behind it. -/
theorem parseLayouts_words {program : List Word} (hlen : program.length < 2 ^ 63) {off : Nat}
    {layouts : List StructDescriptor} (h : At program off (layouts.flatMap encodeLayout)) :
    parseLayouts program layouts.length off =
      some (layouts, off + (layouts.flatMap encodeLayout).length) := by
  induction layouts generalizing off with
  | nil => rfl
  | cons desc layouts ih =>
    rw [List.flatMap_cons] at h
    have hfit := h.left.length_le (by simp [encodeLayout])
    have hsize : (encodeLayout desc).length = desc.fields.length + 1 := by simp [encodeLayout]
    have hcount : (BitVec.ofNat 64 desc.fields.length).toNat = desc.fields.length := by
      rw [BitVec.toNat_ofNat, Nat.mod_eq_of_lt (by omega)]
    have hrest := h.right
    have hoff : off + (encodeLayout desc).length = off + 1 + desc.fields.length := by omega
    rw [hoff] at hrest
    simp only [List.length_cons, parseLayouts, h.left.head, Option.bind_eq_bind, Option.bind_some,
      hcount, parseFields_words h.left.tail, new_fields, ih hrest, Option.pure_def]
    rw [List.flatMap_cons, List.length_append, ← Nat.add_assoc, hoff]

theorem length_le_encodeLayouts (layouts : List StructDescriptor) :
    layouts.length ≤ (layouts.flatMap encodeLayout).length := by
  induction layouts with
  | nil => exact Nat.le_refl 0
  | cons desc layouts ih =>
    rw [List.flatMap_cons, List.length_append, encodeLayout, List.length_cons, List.length_cons]
    omega

/-! ## Programs

The parts put together, with the bound on positions.
-/

theorem lt_codeEnd {s dst : Nat} {ops : List (OpCode codes)} (h : dst ∈ codeStarts s ops) :
    dst < codeEnd s ops := by
  have hend (op : OpCode codes) (ops : List (OpCode codes)) (s : Nat) :
      s < codeEnd (opEnd s op) ops := by
    rw [← add_length_codeCells (BitVec.ofNat 64), opEnd]
    omega
  induction ops generalizing s with
  | nil => exact absurd h List.not_mem_nil
  | cons op ops ih =>
    rw [codeEnd]
    rcases List.mem_cons.mp h with rfl | h
    · exact hend op ops dst
    · exact ih h

theorem lt_of_mem_functionsStarts (tag : Nat → Word) {s dst : Nat} {fs : List (Function codes)}
    (h : dst ∈ functionsStarts s fs) : dst < s + (functionsCells tag s fs).length := by
  induction fs generalizing s with
  | nil => exact absurd h List.not_mem_nil
  | cons f fs ih =>
    rw [functionsCells, List.length_append, ← Nat.add_assoc, add_length_functionCells]
    rcases List.mem_append.mp h with h | h
    · exact Nat.lt_add_right _ (lt_codeEnd h)
    · exact ih h

/-- The words that stand for the opcodes do not move the others. -/
theorem length_functionsCells (tag tag' : Nat → Word) (s : Nat) (fs : List (Function codes)) :
    (functionsCells tag s fs).length = (functionsCells tag' s fs).length := by
  induction fs generalizing s with
  | nil => rfl
  | cons f fs ih =>
    have h := add_length_functionCells tag s f
    have h' := add_length_functionCells tag' s f
    rw [functionsCells, functionsCells, List.length_append, List.length_append, ih]
    omega

theorem Program.lt_of_mem_starts (tag : Nat → Word) (p : Program codes) {dst : Nat}
    (h : dst ∈ p.starts) : dst < (p.cells tag).length := by
  rw [Program.cells, List.length_append, List.length_map]
  exact lt_of_mem_functionsStarts tag h

theorem length_codeStarts (s : Nat) (ops : List (OpCode codes)) :
    (codeStarts s ops).length = ops.length := by
  induction ops generalizing s with
  | nil => rfl
  | cons op ops ih => rw [codeStarts, List.length_cons, List.length_cons, ih]

theorem length_functionsStarts (s : Nat) (fs : List (Function codes)) :
    (functionsStarts s fs).length = (fs.flatMap (·.code)).length := by
  induction fs generalizing s with
  | nil => rfl
  | cons f fs ih =>
    rw [functionsStarts, List.flatMap_cons, List.length_append, List.length_append, ih,
      length_codeStarts]

theorem Program.image_positions (hcodes : Sound codes) (p : Program codes) :
    p.image.positions = p.starts :=
  (p.image_holds hcodes.jumpsFirst).positions

/-- `to_binary` succeeds when every jump names an instruction of the program. -/
theorem Program.toBinary_isSome_iff (hcodes : Sound codes) (p : Program codes) :
    p.toBinary.isSome ↔ ∀ c ∈ p.cells (BitVec.ofNat 64), c.2.isSome →
      c.1.toNat < (p.functions.flatMap (·.code)).length := by
  rw [p.toBinary_eq hcodes.jumpsFirst, ← length_functionsStarts p.header.length]
  change _ ↔ ∀ c ∈ p.cells (BitVec.ofNat 64), c.2.isSome → c.1.toNat < p.starts.length
  induction p.cells (BitVec.ofNat 64) with
  | nil => simp
  | cons c cs ih =>
    have hc : (resolve p.starts c).isSome ↔ (c.2.isSome → c.1.toNat < p.starts.length) := by
      match c with
      | (w, none) => simp [resolve]
      | (w, some s) => simp [resolve]
    rw [List.forall_mem_cons, ← ih, ← hc, List.mapM_cons]
    cases resolve p.starts c <;> cases cs.mapM (resolve p.starts) <;> simp

def Program.entries (p : Program codes) : List Nat := functionsEntries p.header.length p.functions

/-- The functions and the instructions of the program stand in the words, each opcode under
the word given for it. -/
structure Program.Stands (p : Program codes) (tag : Nat → Word) (program : List Word) : Prop where
  entries : List.Forall₂ (Entry program) p.entries p.functions
  instructions : Decodes tag p.image.positions program p.image.positions
    (p.functions.flatMap (·.code))

/-- What the interpreter makes of the image of the program. -/
structure Program.ReadsBack (p : Program codes) (binary : List Word) : Prop where
  structLayouts : parseStructLayouts binary = some (p.structLayouts, p.header.length - 1)
  globalFrameSize : binary[p.header.length - 1]? = some p.globalFrameSize
  image : p.Stands (BitVec.ofNat 64) binary
  dispatch : ∀ dispatch : Nat → Word, ∃ program,
    prepareDispatch codes dispatch binary (p.header.length - 1) =
      some (program, p.image.positions) ∧ p.Stands dispatch program
  positions : p.image.positions =
    (List.zipWith (fun e f => codeStarts e f.code) p.entries p.functions).flatten

/-- The encoding of a program is read back.  A vector of words has fewer than `2 ^ 63`. -/
theorem Program.readsBack (hcodes : Sound codes) (p : Program codes) {binary : List Word}
    (h : p.toBinary = some binary) (hlen : binary.length < 2 ^ 63) : p.ReadsBack binary := by
  rw [p.toBinary_eq hcodes.jumpsFirst] at h
  have hpositions : ∀ dst ∈ p.starts, dst < 2 ^ 63 := by
    intro dst hdst
    have hlt := p.lt_of_mem_starts (BitVec.ofNat 64) hdst
    rw [← mapM_length h] at hlt
    exact Nat.lt_trans hlt hlen
  rw [Program.cells, mapM_append_eq_some] at h
  obtain ⟨header, ws, hheader, hws, rfl⟩ := h
  obtain rfl : p.header = header := Option.some.inj ((resolve_words _ _).symm.trans hheader)
  have hfns : At (p.header ++ ws) p.header.length ws := by
    have hat := at_append p.header ws []
    rwa [List.append_nil] at hat
  have hlength : p.header.length - 1 + 1 = p.header.length := by simp [Program.header]
  have hpos := p.image_positions hcodes
  have hstart : At (p.header ++ ws) 0 p.header := at_append [] p.header ws
  constructor
  · -- the layouts follow their number, and the frame size of the globals follows them
    have hlayouts : At (p.header ++ ws) 1 (p.structLayouts.flatMap encodeLayout) :=
      (@At.left _ _ (_ :: _) _ hstart).tail
    have hcount : (p.header ++ ws)[0]? = some (BitVec.ofNat 64 p.structLayouts.length) :=
      At.head hstart
    have hcount' : (BitVec.ofNat 64 p.structLayouts.length).toNat = p.structLayouts.length := by
      have hle : p.structLayouts.length ≤ (p.structLayouts.flatMap encodeLayout).length :=
        length_le_encodeLayouts p.structLayouts
      rw [BitVec.toNat_ofNat, Nat.mod_eq_of_lt]
      simp only [List.length_append, Program.header, List.length_cons] at hlen
      omega
    simp only [parseStructLayouts, hcount, Option.bind_eq_bind, Option.bind_some, hcount',
      parseLayouts_words hlen hlayouts]
    simp [Program.header, Nat.add_comm]
  · simp [Program.header]
  · obtain ⟨hentries, hdecodes⟩ := functions_of_at hcodes hpositions hlen hws hfns
    exact ⟨hentries, by rw [hpos]; exact hdecodes⟩
  · intro dispatch
    obtain ⟨ws', hws', hloop⟩ := prepareLoop_functions hcodes hpositions dispatch hws hlen
    have hlength' : ws'.length = ws.length := by
      rw [mapM_length hws', mapM_length hws, length_functionsCells dispatch (BitVec.ofNat 64)]
    refine ⟨p.header ++ ws', ?_, ?_⟩
    · rw [prepareDispatch, hlength, hpos]
      refine hloop _ ?_
      have hle := rounds_le (BitVec.ofNat 64) p.header.length p.functions
      rw [← mapM_length hws] at hle
      rw [List.length_append]
      omega
    · have hfns' : At (p.header ++ ws') p.header.length ws' := by
        have hat := at_append p.header ws' []
        rwa [List.append_nil] at hat
      have hlen' : (p.header ++ ws').length < 2 ^ 63 := by
        rwa [List.length_append, hlength', ← List.length_append]
      obtain ⟨hentries, hdecodes⟩ := functions_of_at hcodes hpositions hlen' hws' hfns'
      exact ⟨hentries, by rw [hpos]; exact hdecodes⟩
  · rw [hpos]
    exact functionsStarts_eq _ _

/-- The table of the virtual machine. -/
theorem sound_opcodes : Sound opcodes := by
  constructor <;> decide

/-- `OpCode::Jmp`. -/
def jmp (target : Word) : OpCode opcodes :=
  ⟨⟨0, by decide⟩, show Word × Unit from (target, ())⟩

/-- `OpCode::Call`. -/
def call (func : Word) (args : List (Word × Word)) (ret : Word) : OpCode opcodes :=
  ⟨⟨2, by decide⟩, show Word × List (Word × Word × Unit) × Word × Unit from
    (func, args.map fun a => (a.1, a.2, ()), ret, ())⟩

/-- `OpCode::Ret`. -/
def ret : OpCode opcodes := ⟨⟨3, by decide⟩, ()⟩

/-- The handler of a call computes the return address on its own: the next instruction. -/
theorem opEnd_call (s : Nat) (func : Word) (args : List (Word × Word)) (ret : Word) :
    opEnd s (call func args ret) = s + (4 + 2 * args.length) := by
  have hargs (vs : List (HostType.tuple [.usize, .framePosition]).Val) :
      (cells s (.slice (.tuple [.usize, .framePosition])) vs).length = 1 + vs.length * 2 := by
    rw [cells, List.length_cons, length_flatMap_cells rfl, Nat.add_comm]
  have hcount : List.length (α := (HostType.tuple [.usize, .framePosition]).Val)
      (args.map fun a => (a.1, a.2, ())) = args.length := List.length_map _
  have hall : cellsAll s (opcodes.get (call func args ret).code).operands
        (call func args ret).operands =
      cells s .jumpTarget func ++ (cells s (.slice (.tuple [.usize, .framePosition]))
        (args.map fun a => (a.1, a.2, ())) ++ (cells s .framePosition ret ++ [])) := rfl
  rw [opEnd, hall, List.length_append, List.length_append, hargs, hcount]
  simp only [cells, List.append_nil, List.length_singleton]
  omega

/-- The interpreter reads back what `to_binary` wrote, whatever the program. -/
theorem Program.roundTrip (p : Program opcodes) {binary : List Word}
    (h : p.toBinary = some binary) (hlen : binary.length < 2 ^ 63) : p.ReadsBack binary :=
  p.readsBack sound_opcodes h hlen

/-- Two functions, the first calling the second, and a layout with a counted field. -/
def callAndJump : Program opcodes where
  functions := [⟨8, [call 2 [(1, 4), (4, 5)] 3, ret]⟩, ⟨5, [jmp 3, ret]⟩]
  globalFrameSize := 3
  structLayouts := [⟨[(1, true), (4, false)], by decide, by decide⟩]

theorem Program.roundTrip_callAndJump : callAndJump.ReadsBack
    [1, 2, 9223372036854775809, 4, 3, 18446744073709551615, 8, 2, 11, 2, 1, 4, 4, 5, 3, 3,
      18446744073709551615, 5, 0, 2, 3] :=
  callAndJump.roundTrip rfl (by decide)

end Mavros.Encoding
