/-
# `Mavros.Lib.Sha256` — the compression function of SHA-256

FIPS 180-4, sections 4.1.2, 4.2.2 and 6.2.2, on words of 32 bits.  The constants are the
first 32 bits of the fractional parts of the cube roots of the first 64 primes.

## What is modelled

The compression function only: sixteen words of a block and the eight words of the state give
the eight words of the next state.  `schedule` is the message schedule as a recursive function,
`Vars.round` one turn of the working variables, `vars` the turns, and `compress` the addition to
the state at the end.  Padding and the division of a message into blocks are the callers'.

The constants are computed from their definition and not written as a table, so that nothing here
repeats the table of an implementation.
-/
import Mathlib.Tactic

namespace Mavros.Lib.Sha256

abbrev Word := BitVec 32

/-! ## Functions of words -/

def ch (x y z : Word) : Word := (x &&& y) ^^^ (~~~x &&& z)

def maj (x y z : Word) : Word := (x &&& y) ^^^ (x &&& z) ^^^ (y &&& z)

/-- Σ₀ -/
def bigSigma0 (x : Word) : Word := x.rotateRight 2 ^^^ x.rotateRight 13 ^^^ x.rotateRight 22

/-- Σ₁ -/
def bigSigma1 (x : Word) : Word := x.rotateRight 6 ^^^ x.rotateRight 11 ^^^ x.rotateRight 25

/-- σ₀ -/
def smallSigma0 (x : Word) : Word := x.rotateRight 7 ^^^ x.rotateRight 18 ^^^ x >>> 3

/-- σ₁ -/
def smallSigma1 (x : Word) : Word := x.rotateRight 17 ^^^ x.rotateRight 19 ^^^ x >>> 10

/-! ## The constants

Section 4.2.2.  `cubeRoot` looks for the root of `n · 2 ^ 96`, bit by bit.
-/

/-- The first 64 primes. -/
def primes : List Nat :=
  (List.range' 2 310).filter fun n => (List.range' 2 (n - 2)).all fun d => n % d != 0

/-- The greatest number below `2 ^ bits` whose cube is at most `n`, from the top bit down. -/
def cubeRoot : (bits : Nat) → (root : Nat) → (n : Nat) → Nat
  | 0, root, _ => root
  | bits + 1, root, n =>
      cubeRoot bits (if (root + 2 ^ bits) ^ 3 ≤ n then root + 2 ^ bits else root) n

/-- The first 32 bits of the fractional part of the cube root of `n < 512`. -/
def constant (n : Nat) : Word := BitVec.ofNat 32 (cubeRoot 35 0 (n * 2 ^ 96))

/-- K -/
def k (t : Nat) : Word := constant (primes.getD t 0)

/-! ## The hash computation

Section 6.2.2, whose four steps are `schedule`, the working variables of the state, `vars` and
`Vars.addTo`.
-/

/-- W, the message schedule. -/
def schedule (block : Vector Word 16) (t : Nat) : Word :=
  if h : t < 16 then block[t]
  else
    smallSigma1 (schedule block (t - 2)) + schedule block (t - 7)
      + smallSigma0 (schedule block (t - 15)) + schedule block (t - 16)
termination_by t

/-- The working variables. -/
structure Vars where
  (a b c d e f g h : Word)

/-- One turn, with its constant and its word of the schedule. -/
def Vars.round (s : Vars) (kt wt : Word) : Vars :=
  let t₁ := s.h + bigSigma1 s.e + ch s.e s.f s.g + kt + wt
  let t₂ := bigSigma0 s.a + maj s.a s.b s.c
  { h := s.g, g := s.f, f := s.e, e := s.d + t₁, d := s.c, c := s.b, b := s.a, a := t₁ + t₂ }

/-- The working variables added to the state. -/
def Vars.addTo (s : Vars) (state : Vector Word 8) : Vector Word 8 :=
  #v[s.a + state.get 0, s.b + state.get 1, s.c + state.get 2, s.d + state.get 3,
    s.e + state.get 4, s.f + state.get 5, s.g + state.get 6, s.h + state.get 7]

/-- The working variables after `t` turns. -/
def vars (block : Vector Word 16) (state : Vector Word 8) : Nat → Vars
  | 0 => ⟨state.get 0, state.get 1, state.get 2, state.get 3, state.get 4, state.get 5,
      state.get 6, state.get 7⟩
  | t + 1 => (vars block state t).round (k t) (schedule block t)

/-- The hash value after one more block. -/
def compress (block : Vector Word 16) (state : Vector Word 8) : Vector Word 8 :=
  (vars block state 64).addTo state

end Mavros.Lib.Sha256
