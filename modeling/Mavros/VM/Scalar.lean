/-
# `Mavros.VM.Scalar` — the scalar opcodes of the virtual machine

A frame is a row of 64-bit words.  An integer of any width takes one word, a field
element four: its Montgomery form, least significant limb first.  The word operations
are written on naturals below `2 ^ 64` as the release build runs them, where a shift
takes its amount modulo 64 and nothing but a division traps.

## What is modelled

`step` is one opcode on a frame and the arrays allocated so far.  Each opcode reads its operands at
the positions given and writes its result at another, so that operands and result may overlap in
the frame; nothing is assumed about the positions here.

## What is proved

`ofLimbs_limb`: an element is read back from its limbs.  It is the one fact about representations
that the code generator's correctness needs; everything else about a value is in the opcode that
makes it.
-/
import Mavros.Field
import Mavros.Spread

namespace Mavros.Bytecode

/-! ## Words -/

/-- The mask `(1 << bits) - 1`, or the whole word from 64 bits on. -/
def maskTo (bits x : Nat) : Nat := if 64 ≤ bits then x else x &&& 2 ^ bits - 1

def addInt (bits a b : Nat) : Nat := maskTo bits ((a + b) % 2 ^ 64)

def subInt (bits a b : Nat) : Nat := maskTo bits ((a + 2 ^ 64 - b) % 2 ^ 64)

def mulInt (bits a b : Nat) : Nat := maskTo bits (a * b % 2 ^ 64)

def divU64 (a b : Nat) : Option Nat := if b = 0 then none else some (a / b)

def modU64 (a b : Nat) : Option Nat := if b = 0 then none else some (a % b)

/-- `a << b` on a word. -/
def shiftLeft (a b : Nat) : Nat := a <<< (b % 64) % 2 ^ 64

def shlU64 (bits a b : Nat) : Nat := maskTo bits (shiftLeft a b)

def ushrU64 (a b : Nat) : Nat := a >>> (b % 64)

def notU64 (a : Nat) : Nat := 2 ^ 64 - 1 - a

def ofBool (b : Bool) : Nat := if b then 1 else 0

def eqU64 (a b : Nat) : Nat := ofBool (a = b)

def ltU64 (a b : Nat) : Nat := ofBool (a < b)

/-- A word as an `i64`. -/
def asI64 (a : Nat) : Int := if a < 2 ^ 63 then a else (a : Int) - 2 ^ 64

/-- `((a << shift) as i64) >> shift` for `shift = 64 - bits`. -/
def signExtend (bits a : Nat) : Int := asI64 (shiftLeft a (64 - bits)) / 2 ^ ((64 - bits) % 64)

def ltS64 (bits a b : Nat) : Nat := ofBool (signExtend bits a < signExtend bits b)

def spreadU32 (a : Nat) : Nat := vmSpreadBits (a % 2 ^ 32)

def unspreadU64 (a : Nat) : Nat × Nat := vmUnspreadBits a

/-! ## Field elements -/

/-- The Montgomery form of an element. -/
def montgomery (x : Fr) : Nat := x.val * 2 ^ 256 % modulus

/-- Limb `i` of the Montgomery form. -/
def limb (x : Fr) (i : Nat) : Nat := montgomery x / 2 ^ (64 * i) % 2 ^ 64

/-- The element whose Montgomery form has these four limbs. -/
def ofLimbs (l₀ l₁ l₂ l₃ : Nat) : Fr :=
  ((l₀ + l₁ * 2 ^ 64 + l₂ * 2 ^ 128 + l₃ * 2 ^ 192 : Nat) : Fr) * (2 ^ 256)⁻¹

theorem two_pow_256_ne_zero : (2 ^ 256 : Fr) ≠ 0 := by
  have h : (2 ^ 256 : Fr) = ((2 ^ 256 % modulus : Nat) : Fr) := by
    rw [ZMod.natCast_mod]
    norm_cast
  rw [h, Ne, ZMod.natCast_eq_zero_iff]
  decide

theorem limbs_sum {n : Nat} (hn : n < 2 ^ 256) :
    n % 2 ^ 64 + n / 2 ^ 64 % 2 ^ 64 * 2 ^ 64 + n / 2 ^ 128 % 2 ^ 64 * 2 ^ 128
      + n / 2 ^ 192 % 2 ^ 64 * 2 ^ 192 = n := by omega

/-- Reading the limbs of an element gives the element back. -/
theorem ofLimbs_limb (x : Fr) : ofLimbs (limb x 0) (limb x 1) (limb x 2) (limb x 3) = x := by
  have hlt : montgomery x < 2 ^ 256 :=
    (Nat.mod_lt _ (by decide)).trans (by decide)
  have hsum : limb x 0 + limb x 1 * 2 ^ 64 + limb x 2 * 2 ^ 128 + limb x 3 * 2 ^ 192
      = montgomery x := by
    simpa [limb] using limbs_sum hlt
  rw [ofLimbs, hsum, montgomery, ZMod.natCast_mod, Nat.cast_mul, Nat.cast_pow, Nat.cast_ofNat,
    ZMod.natCast_val, ZMod.cast_id, mul_assoc, mul_inv_cancel₀ two_pow_256_ne_zero, mul_one]

/-! ## Opcodes

An opcode that fails, or reads what is not there, is `none`.
-/

/-- A frame and the boxed arrays allocated so far; a pointer is the place in that list. -/
structure Machine where
  frame : Nat → Nat
  heap : List (List Nat) := []

inductive OpCode where
  | movConst (res val : Nat)
  | movFrame (size target source : Nat)
  | addInt (res a b bits : Nat)
  | subInt (res a b bits : Nat)
  | mulInt (res a b bits : Nat)
  | divU64 (res a b : Nat)
  | modU64 (res a b : Nat)
  | andU64 (res a b : Nat)
  | orU64 (res a b : Nat)
  | xorU64 (res a b : Nat)
  | shlU64 (res a b bits : Nat)
  | ushrU64 (res a b : Nat)
  | notU64 (res a : Nat)
  | eqU64 (res a b : Nat)
  | ltU64 (res a b : Nat)
  | ltS64 (res a b bits : Nat)
  | addField (res a b : Nat)
  | subField (res a b : Nat)
  | divField (res a b : Nat)
  | mulField (res a b : Nat)
  | castFieldToU64 (res a : Nat)
  | castU64ToField (res a : Nat)
  | toBytesBe (val count res : Nat)
  | toBitsLe (res val count : Nat)
  | spreadU32 (res val : Nat)
  | unspreadU64 (resAnd resXor val : Nat)
deriving DecidableEq, Repr

namespace Machine

def setWord (m : Machine) (p w : Nat) : Machine := { m with frame := Function.update m.frame p w }

/-- Reading a field element off the frame. -/
def field (m : Machine) (p : Nat) : Fr :=
  ofLimbs (m.frame p) (m.frame (p + 1)) (m.frame (p + 2)) (m.frame (p + 3))

def setField (m : Machine) (p : Nat) (x : Fr) : Machine :=
  (((m.setWord p (limb x 0)).setWord (p + 1) (limb x 1)).setWord (p + 2) (limb x 2)).setWord
    (p + 3) (limb x 3)

/-- `memcpy`, one word after the other. -/
def move (target source : Nat) : Nat → Machine → Machine
  | 0, m => m
  | size + 1, m => let m := move target source size m
    m.setWord (target + size) (m.frame (source + size))

/-- The bytes of the canonical form, most significant first. -/
def bytesBe (x : Fr) (count : Nat) : List Nat :=
  ((List.range count).map fun i => x.val / 256 ^ i % 256).reverse

/-- A binary operation on words. -/
def onWords (m : Machine) (res a b : Nat) (f : Nat → Nat → Nat) : Machine :=
  m.setWord res (f (m.frame a) (m.frame b))

/-- A binary operation on field elements. -/
def onFields (m : Machine) (res a b : Nat) (f : Fr → Fr → Fr) : Machine :=
  m.setField res (f (m.field a) (m.field b))

/-- One opcode; a trap is `none`. -/
def step (m : Machine) : OpCode → Option Machine
  | .movConst res val => some (m.setWord res val)
  | .movFrame size target source => some (move target source size m)
  | .addInt res a b bits => some (m.onWords res a b (Bytecode.addInt bits))
  | .subInt res a b bits => some (m.onWords res a b (Bytecode.subInt bits))
  | .mulInt res a b bits => some (m.onWords res a b (Bytecode.mulInt bits))
  | .divU64 res a b => (Bytecode.divU64 (m.frame a) (m.frame b)).map (m.setWord res)
  | .modU64 res a b => (Bytecode.modU64 (m.frame a) (m.frame b)).map (m.setWord res)
  | .andU64 res a b => some (m.onWords res a b (· &&& ·))
  | .orU64 res a b => some (m.onWords res a b (· ||| ·))
  | .xorU64 res a b => some (m.onWords res a b (· ^^^ ·))
  | .shlU64 res a b bits => some (m.onWords res a b (Bytecode.shlU64 bits))
  | .ushrU64 res a b => some (m.onWords res a b Bytecode.ushrU64)
  | .notU64 res a => some (m.setWord res (Bytecode.notU64 (m.frame a)))
  | .eqU64 res a b => some (m.onWords res a b Bytecode.eqU64)
  | .ltU64 res a b => some (m.onWords res a b Bytecode.ltU64)
  | .ltS64 res a b bits => some (m.onWords res a b (Bytecode.ltS64 bits))
  | .addField res a b => some (m.onFields res a b (· + ·))
  | .subField res a b => some (m.onFields res a b (· - ·))
  | .divField res a b => some (m.onFields res a b fun x y => if y = 0 then 0 else x / y)
  | .mulField res a b => some (m.onFields res a b (· * ·))
  | .castFieldToU64 res a => some (m.setWord res ((m.field a).val % 2 ^ 64))
  | .castU64ToField res a => some (m.setField res (m.frame a : Nat))
  | .toBytesBe val count res =>
    some { m.setWord res m.heap.length with heap := m.heap ++ [bytesBe (m.field val) count] }
  | .toBitsLe _ _ _ => none
  | .spreadU32 res val => some (m.setWord res (Bytecode.spreadU32 (m.frame val)))
  | .unspreadU64 resAnd resXor val =>
    let (odd, even) := Bytecode.unspreadU64 (m.frame val)
    some ((m.setWord resAnd odd).setWord resXor even)

def run (m : Machine) (code : List OpCode) : Option Machine := code.foldlM step m

end Machine

end Mavros.Bytecode
