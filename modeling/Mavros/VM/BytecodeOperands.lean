/-
# `Mavros.VM.BytecodeOperands` — operands are read back

The handlers of a loaded program read the operands that were encoded, jumps relative to
their own opcode, and `prepare_dispatch` visits the opcodes one by one.

## What is proved

* `getter_words`, `getters_words`: operands whose words stand in a program are measured and read
  back, for kinds that are `Readable`: a slice has elements of a fixed size.
* `resolve_cellsAll`: the words of resolved cells are those of the operands with every jump replaced
  by its distance (`RelocatedAll`).

Together: a handler reads the operands that were written, with jumps relative to its opcode.  The
distance between two positions is a signed number and is read back from its word as long as
programs have fewer than `2 ^ 63` words (`toInt_distance`).
-/
import Mavros.VM.BytecodeImage
import Mavros.Lib.Lists

namespace Mavros.Encoding

open Lib (mapM_length mapM_eq_some)

/-! ## Words in a program

A list of words at an offset, and how such facts are split.
-/

/-- The words stand in the program from the offset on. -/
def At (program : List Word) (o : Nat) (ws : List Word) : Prop :=
  ∀ i w, ws[i]? = some w → program[o + i]? = some w

theorem At.head {program : List Word} {o : Nat} {w : Word} {ws : List Word}
    (h : At program o (w :: ws)) : program[o]? = some w := h 0 w rfl

theorem At.tail {program : List Word} {o : Nat} {w : Word} {ws : List Word}
    (h : At program o (w :: ws)) : At program (o + 1) ws := by
  intro i v hv
  rw [Nat.add_assoc, Nat.add_comm 1]
  exact h (i + 1) v hv

theorem At.left {program : List Word} {o : Nat} {as bs : List Word}
    (h : At program o (as ++ bs)) : At program o as := by
  intro i w hw
  have hi := (List.getElem?_eq_some_iff.mp hw).1
  exact h i w (by rw [List.getElem?_append_left hi, hw])

theorem At.right {program : List Word} {o : Nat} {as bs : List Word}
    (h : At program o (as ++ bs)) : At program (o + as.length) bs := by
  intro i w hw
  rw [Nat.add_assoc]
  exact h (as.length + i) w (by rw [List.getElem?_append_right (Nat.le_add_right _ _)]; simpa)

theorem at_append (pre ws post : List Word) : At (pre ++ (ws ++ post)) pre.length ws := by
  intro i w hw
  have hi := (List.getElem?_eq_some_iff.mp hw).1
  rw [List.getElem?_append_right (Nat.le_add_right _ _), Nat.add_sub_cancel_left,
    List.getElem?_append_left hi, hw]

theorem At.drop {program : List Word} {pc o : Nat} {ws : List Word}
    (h : At program (pc + o) ws) : At (program.drop pc) o ws := by
  intro i w hw
  rw [List.getElem?_drop, ← Nat.add_assoc]
  exact h i w hw

/-! ## Operands

By induction over the kind; a slice element by element.
-/

/-- The words of an operand in the image. -/
def words (s : Nat) (t : HostType) (v : t.Val) : List Word := (cells s t v).map Prod.fst

def wordsAll (s : Nat) (ts : List HostType) (vs : Vals ts) : List Word :=
  (cellsAll s ts vs).map Prod.fst

mutual

/-- A kind with a size has as many words. -/
theorem length_cells {s : Nat} : ∀ {t : HostType} {n : Nat}, t.measureSize = some n →
    ∀ v : t.Val, (cells s t v).length = n
  | .slice _, _, h, _ => by simp [HostType.measureSize] at h
  | .field, n, h, _ => by
    obtain rfl : 4 = n := by simpa [HostType.measureSize] using h
    simp [cells]
  | .tuple elems, n, h, vs =>
    @length_cellsAll s elems n (by simpa [HostType.measureSize] using h) vs
  | .u64, n, h, _ | .usize, n, h, _ | .isize, n, h, _ | .jumpTarget, n, h, _
  | .framePosition, n, h, _ | .boxedLayout, n, h, _ => by
    obtain rfl : 1 = n := by simpa [HostType.measureSize] using h
    simp [cells]

theorem length_cellsAll {s : Nat} : ∀ {ts : List HostType} {n : Nat}, measureSizes ts = some n →
    ∀ vs : Vals ts, (cellsAll s ts vs).length = n
  | [], n, h, _ => by
    obtain rfl : 0 = n := by simpa [measureSizes] using h
    simp [cellsAll]
  | t :: ts, n, h, v => by
    simp only [measureSizes, Option.bind_eq_bind, Option.bind_eq_some_iff, Option.pure_def,
      Option.some.injEq] at h
    obtain ⟨a, ha, b, hb, rfl⟩ := h
    rw [cellsAll, List.length_append, length_cells ha, length_cellsAll hb]

end

theorem readField_words {program : List Word} {o : Nat} {v : Word × Word × Word × Word}
    (h : At program o [v.1, v.2.1, v.2.2.1, v.2.2.2]) : readField program o = some v := by
  have h0 := h 0 _ rfl
  have h1 := h 1 _ rfl
  have h2 := h 2 _ rfl
  have h3 := h 3 _ rfl
  rw [Nat.add_zero] at h0
  simp [readField, h0, h1, h2, h3]

mutual

/-- An element of a slice is read back. -/
theorem readElem_words {s : Nat} {program : List Word} : ∀ {t : HostType} {n o : Nat},
    t.measureSize = some n → ∀ v : t.Val, At program o (words s t v) →
      readElem program t o = some v
  | .slice _, _, _, h, _, _ => by simp [HostType.measureSize] at h
  | .field, _, _, _, _, hat => readField_words hat
  | .tuple elems, n, o, h, vs, hat =>
    @readElems_words s program elems n o (by simpa [HostType.measureSize] using h) vs hat
  | .u64, _, _, _, _, hat | .usize, _, _, _, _, hat | .isize, _, _, _, _, hat
  | .jumpTarget, _, _, _, _, hat | .framePosition, _, _, _, _, hat
  | .boxedLayout, _, _, _, _, hat => hat.head

theorem readElems_words {s : Nat} {program : List Word} : ∀ {ts : List HostType} {n o : Nat},
    measureSizes ts = some n → ∀ vs : Vals ts, At program o (wordsAll s ts vs) →
      readElems program ts o = some vs
  | [], _, _, _, _, _ => rfl
  | t :: ts, n, o, h, v, hat => by
    simp only [measureSizes, Option.bind_eq_bind, Option.bind_eq_some_iff, Option.pure_def,
      Option.some.injEq] at h
    obtain ⟨a, ha, b, hb, rfl⟩ := h
    rw [wordsAll, cellsAll, List.map_append] at hat
    have hv := readElem_words ha v.1 hat.left
    have hrest := hat.right
    rw [List.length_map, length_cells ha] at hrest
    simp only [readElems, hv, ha, readElems_words hb v.2 hrest, Option.bind_eq_bind,
      Option.bind_some, Option.pure_def]
    rfl

end

/-- What the macro accepts as an operand and the reads of its handlers can find again: a
slice has elements of a fixed, positive size, and a tuple stands in a slice only. -/
def HostType.Readable : HostType → Bool
  | .slice elem => elem.measureSize.any (0 < ·)
  | .tuple _ => false
  | .u64 | .usize | .isize | .field | .jumpTarget | .framePosition | .boxedLayout => true

theorem At.length_le {program : List Word} {o : Nat} {ws : List Word} (h : At program o ws)
    (hne : ws ≠ []) : o + ws.length ≤ program.length := by
  have hpos := List.length_pos_iff.mpr hne
  have hlast := h (ws.length - 1) _ (List.getElem?_eq_getElem (by omega))
  have hlt := (List.getElem?_eq_some_iff.mp hlast).1
  omega

theorem length_flatMap_cells {s : Nat} {elem : HostType} {n : Nat}
    (hn : elem.measureSize = some n) (vs : List elem.Val) :
    (vs.flatMap (cells s elem)).length = vs.length * n := by
  induction vs with
  | nil => simp
  | cons v vs ih =>
    rw [List.flatMap_cons, List.length_append, length_cells hn, ih, List.length_cons,
      Nat.succ_mul, Nat.add_comm]

/-- The elements of a slice are read back one by one. -/
theorem readElem_range {s : Nat} {elem : HostType} {n : Nat} (hn : elem.measureSize = some n)
    {program : List Word} {o : Nat} {vs : List elem.Val}
    (h : At program o ((vs.flatMap (cells s elem)).map Prod.fst)) :
    (List.range vs.length).mapM (fun i => readElem program elem (o + i * n)) = some vs := by
  induction vs generalizing o with
  | nil => rfl
  | cons v vs ih =>
    rw [List.flatMap_cons, List.map_append] at h
    have hv := readElem_words hn v h.left
    have hrest := h.right
    rw [List.length_map, length_cells hn] at hrest
    have hnext (i : Nat) : o + (i + 1) * n = o + n + i * n := by rw [Nat.succ_mul]; omega
    rw [List.length_cons, List.range_succ_eq_map, List.mapM_cons, Nat.zero_mul, Nat.add_zero, hv,
      List.mapM_map]
    simp only [Function.comp_def, Nat.succ_eq_add_one, hnext, ih hrest]
    rfl

/-- An operand is measured and read back. -/
theorem getter_words {s : Nat} {program : List Word} (hlen : program.length < 2 ^ 64) {o : Nat} :
    ∀ {t : HostType}, t.Readable = true → ∀ v : t.Val, At program o (words s t v) →
      getter program t o = some (v, o + (words s t v).length) ∧
        measure program t o = some (o + (words s t v).length)
  | .tuple _, h, _, _ => by simp [HostType.Readable] at h
  | .slice elem, h, (vs : List elem.Val), hat => by
    obtain ⟨n, hn, hpos⟩ : ∃ n, elem.measureSize = some n ∧ 0 < n := by
      simpa [HostType.Readable, Option.any_eq_true] using h
    have hwords : words s (.slice elem) vs =
        BitVec.ofNat 64 vs.length :: (vs.flatMap (cells s elem)).map Prod.fst := rfl
    have hlength : (words s (.slice elem) vs).length = 1 + vs.length * n := by
      rw [hwords, List.length_cons, List.length_map, length_flatMap_cells hn, Nat.add_comm]
    have hvs : vs.length < 2 ^ 64 := by
      have hle := hat.length_le (by rw [hwords]; simp)
      have hmul := Nat.le_mul_of_pos_right vs.length hpos
      omega
    rw [hwords] at hat
    have hn' : (BitVec.ofNat 64 vs.length).toNat = vs.length := by
      rw [BitVec.toNat_ofNat, Nat.mod_eq_of_lt hvs]
    have hrange := readElem_range hn hat.tail
    rw [hlength, ← Nat.add_assoc]
    constructor
    · simp only [getter, hn, hat.head, Option.bind_eq_bind, Option.bind_some, hn', hrange,
        Option.pure_def]
    · simp only [measure, hn, hat.head, Option.bind_eq_bind, Option.bind_some, hn',
        Option.pure_def]
  | .field, _, v, hat => by
    have hv := readField_words hat
    exact ⟨by simp only [getter, hv]; rfl, rfl⟩
  | .u64, _, v, hat | .usize, _, v, hat | .isize, _, v, hat | .jumpTarget, _, v, hat
  | .framePosition, _, v, hat | .boxedLayout, _, v, hat =>
    ⟨by simp only [getter, hat.head]; rfl, rfl⟩

theorem getters_words {s : Nat} {program : List Word} (hlen : program.length < 2 ^ 64) :
    ∀ {ts : List HostType} {o : Nat}, ts.all HostType.Readable = true → ∀ vs : Vals ts,
      At program o (wordsAll s ts vs) →
      getters program ts o = some (vs, o + (wordsAll s ts vs).length) ∧
        ts.foldlM (fun ix t => measure program t ix) o =
          some (o + (wordsAll s ts vs).length)
  | [], o, _, _, _ => ⟨rfl, rfl⟩
  | t :: ts, o, h, v, hat => by
    rw [List.all_cons, Bool.and_eq_true] at h
    rw [wordsAll, cellsAll, List.map_append] at hat ⊢
    obtain ⟨hget, hmeasure⟩ := getter_words hlen h.1 v.1 hat.left
    obtain ⟨hgets, hmeasures⟩ := getters_words hlen h.2 v.2 hat.right
    rw [List.length_append, ← Nat.add_assoc]
    constructor
    · have hgets' : getters program ts (o + (words s t v.1).length) = some (v.2, _) := hgets
      simp only [getters, hget, Option.bind_eq_bind, Option.bind_some, hgets']
      rfl
    · rw [List.foldlM_cons, hmeasure]
      exact hmeasures

/-! ## Relocation

What happens to operands between writing and reading.
-/

mutual

/-- The second value is the first, with every jump target, the number of an instruction,
replaced by the distance from the opcode at `s` to that instruction. -/
def Relocated (positions : List Nat) (s : Nat) : (t : HostType) → t.Val → t.Val → Prop
  | .jumpTarget, (target : Word), (r : Word) =>
    ∃ dst, positions[target.toNat]? = some dst ∧ (s : Int) + r.toInt = dst
  | .slice elem, (vs : List elem.Val), (rs : List elem.Val) =>
    List.Forall₂ (Relocated positions s elem) vs rs
  | .tuple elems, vs, rs => RelocatedAll positions s elems vs rs
  | .u64, v, r | .usize, v, r | .isize, v, r | .field, v, r | .framePosition, v, r
  | .boxedLayout, v, r => v = r

def RelocatedAll (positions : List Nat) (s : Nat) : (ts : List HostType) → Vals ts → Vals ts → Prop
  | [], _, _ => True
  | t :: ts, v, r => Relocated positions s t v.1 r.1 ∧ RelocatedAll positions s ts v.2 r.2

end

theorem mapM_append_eq_some {f : Cell → Option Word} {as bs : List Cell} {ws : List Word} :
    (as ++ bs).mapM f = some ws ↔
      ∃ xs ys, as.mapM f = some xs ∧ bs.mapM f = some ys ∧ ws = xs ++ ys := by
  rw [List.mapM_append]
  simp only [Option.bind_eq_bind, Option.bind_eq_some_iff, Option.pure_def, Option.some.injEq]
  constructor
  · rintro ⟨xs, hx, ys, hy, rfl⟩
    exact ⟨xs, ys, hx, hy, rfl⟩
  · rintro ⟨xs, ys, hx, hy, rfl⟩
    exact ⟨xs, hx, ys, hy, rfl⟩

theorem resolve_words (positions : List Nat) (ws : List Word) :
    (ws.map fun w => ((w, none) : Cell)).mapM (resolve positions) = some ws := by
  induction ws with
  | nil => rfl
  | cons w ws ih => rw [List.map_cons, List.mapM_cons, ih]; rfl

theorem resolve_target {positions : List Nat} {s : Nat} {target : Word} {ws : List Word}
    (h : [((target, some s) : Cell)].mapM (resolve positions) = some ws) :
    ∃ dst, positions[target.toNat]? = some dst ∧ ws = [BitVec.ofInt 64 ((dst : Int) - s)] := by
  simp only [List.mapM_cons, List.mapM_nil, resolve, Option.bind_eq_bind,
    Option.bind_eq_some_iff, Option.map_eq_some_iff, Option.pure_def, Option.some.injEq] at h
  obtain ⟨_, ⟨dst, hdst, rfl⟩, _, rfl, rfl⟩ := h
  exact ⟨dst, hdst, rfl⟩

/-- The distance between two positions in a program is read back from its word. -/
theorem toInt_distance {dst s : Nat} (hd : dst < 2 ^ 63) (hs : s < 2 ^ 63) :
    (s : Int) + (BitVec.ofInt 64 ((dst : Int) - s)).toInt = dst := by
  rw [BitVec.toInt_ofInt, Int.bmod_eq_of_le] <;> omega

mutual

/-- The words of resolved cells are those of the relocated operand. -/
theorem resolve_cells {positions : List Nat} {s : Nat}
    (hpositions : ∀ dst ∈ positions, dst < 2 ^ 63) (hs : s < 2 ^ 63) :
    ∀ {t : HostType} (v : t.Val) {ws : List Word},
    (cells s t v).mapM (resolve positions) = some ws →
      ∃ r, Relocated positions s t v r ∧ ws = words s t r
  | .jumpTarget, (target : Word), ws, h => by
    obtain ⟨dst, hdst, rfl⟩ := resolve_target h
    have hlt := hpositions dst (List.mem_of_getElem? hdst)
    exact ⟨BitVec.ofInt 64 ((dst : Int) - s), ⟨dst, hdst, toInt_distance hlt hs⟩, rfl⟩
  | .field, v, ws, h =>
    ⟨v, rfl, Option.some.inj (h.symm.trans
      (resolve_words positions [v.1, v.2.1, v.2.2.1, v.2.2.2]))⟩
  | .slice elem, (vs : List elem.Val), ws, h => by
    have hslice (vs : List elem.Val) {ws : List Word}
        (h : (vs.flatMap (cells s elem)).mapM (resolve positions) = some ws) :
        ∃ rs, List.Forall₂ (Relocated positions s elem) vs rs ∧
          ws = (rs.flatMap (cells s elem)).map Prod.fst := by
      induction vs generalizing ws with
      | nil => exact ⟨[], .nil, by simpa [eq_comm] using h⟩
      | cons v vs ih =>
        rw [List.flatMap_cons, mapM_append_eq_some] at h
        obtain ⟨xs, ys, hx, hy, rfl⟩ := h
        obtain ⟨r, hr, rfl⟩ := resolve_cells hpositions hs v hx
        obtain ⟨rs, hrs, rfl⟩ := ih hy
        exact ⟨r :: rs, .cons hr hrs, by rw [List.flatMap_cons, List.map_append]; rfl⟩
    have hcons : cells s (.slice elem) vs =
        [BitVec.ofNat 64 vs.length].map (fun w => ((w, none) : Cell)) ++
          vs.flatMap (cells s elem) := rfl
    rw [hcons, mapM_append_eq_some] at h
    obtain ⟨xs, ys, hx, hy, rfl⟩ := h
    obtain ⟨rs, hrs, rfl⟩ := hslice vs hy
    refine ⟨rs, hrs, ?_⟩
    rw [Option.some.inj (hx.symm.trans (resolve_words positions _)), hrs.length_eq]
    rfl
  | .tuple elems, vs, ws, h => @resolve_cellsAll _ _ hpositions hs elems vs _ h
  | .u64, v, ws, h | .usize, v, ws, h | .isize, v, ws, h | .framePosition, v, ws, h
  | .boxedLayout, v, ws, h =>
    ⟨v, rfl, Option.some.inj (h.symm.trans (resolve_words positions [v]))⟩

theorem resolve_cellsAll {positions : List Nat} {s : Nat}
    (hpositions : ∀ dst ∈ positions, dst < 2 ^ 63) (hs : s < 2 ^ 63) :
    ∀ {ts : List HostType} (vs : Vals ts) {ws : List Word},
    (cellsAll s ts vs).mapM (resolve positions) = some ws →
      ∃ rs, RelocatedAll positions s ts vs rs ∧ ws = wordsAll s ts rs
  | [], _, ws, h => ⟨(), trivial, Option.some.inj (h.symm.trans (resolve_words positions []))⟩
  | t :: ts, v, ws, h => by
    rw [cellsAll, mapM_append_eq_some] at h
    obtain ⟨xs, ys, hx, hy, rfl⟩ := h
    obtain ⟨r, hr, rfl⟩ := resolve_cells hpositions hs v.1 hx
    obtain ⟨rs, hrs, rfl⟩ := resolve_cellsAll hpositions hs v.2 hy
    exact ⟨(r, rs), ⟨hr, hrs⟩, (List.map_append).symm⟩

end

end Mavros.Encoding
