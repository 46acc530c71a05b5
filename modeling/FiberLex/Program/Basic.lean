import FiberLex.Error

/-!
# Programs

A program is a list of instructions; the address of an instruction is its index. Instructions either
consume a character, or pass control on without consuming, to several places at once and in order of
preference, or report a match. An instruction that consumes passes control to the next address.
-/

namespace FiberLex

/-- The symbol that stands for text no rule matches. -/
def errorSymbol : Int := -1

/-- One case of a `switch`. -/
structure Case where
  /-- The code points for which the case is taken. -/
  set : CodeSet
  /-- Where control goes after the character is consumed. -/
  target : Nat
deriving DecidableEq, Repr

/-- An instruction. -/
inductive Instr where
  /-- Consumes the given code point. -/
  | char (cp : Nat)
  /-- Consumes a code point of the set. -/
  | inside (set : CodeSet)
  /-- Consumes a code point outside the set. -/
  | outside (set : CodeSet)
  /-- Consumes a code point of the category. -/
  | insideCategory (cat : Category)
  /-- Consumes a code point of any other category. -/
  | outsideCategory (cat : Category)
  /-- Consumes any character. -/
  | any
  /-- Consumes a character through the first case that has it. If none does, control goes on to
  every target of `otherwise`, in order, and nothing is consumed. -/
  | switch (cases : List Case) (otherwise : List Nat)
  /-- Goes on at every target, in order. -/
  | jump (targets : List Nat)
  /-- Records the offset in a capture slot. -/
  | save (slot : Nat)
  /-- Reports a match of the rule with the given id. -/
  | accept (symbol : Int)
deriving DecidableEq, Repr, Inhabited

namespace Instr

/-- Whether the instruction always consumes a character. -/
def isConsuming : Instr → Bool
  | char _ | inside _ | outside _ | insideCategory _ | outsideCategory _ | any => true
  | switch _ _ | jump _ | save _ | accept _ => false

/-- The addresses to which control may go, other than the next one. -/
def targets : Instr → List Nat
  | jump targets => targets
  | switch cases otherwise => cases.map (·.target) ++ otherwise
  | _ => []

/-- The instruction with its targets changed. -/
def mapTargets (f : Nat → Nat) : Instr → Instr
  | jump targets => jump (targets.map f)
  | switch cases otherwise =>
    switch (cases.map fun c => { c with target := f c.target }) (otherwise.map f)
  | i => i

end Instr

/-- A program. -/
abbrev Program := List Instr

namespace Program

/-- The program with its targets moved by `offset`. -/
def relocate (p : Program) (offset : Nat) : Program := p.map (·.mapTargets (· + offset))

/-- The program with an end that records where the match ends and reports it. -/
def terminate (p : Program) (symbol : Int) : Program := p ++ [.save 1, .accept symbol]

/-- The first instruction with a target outside the program, and that target. -/
def firstInvalid? (p : Program) : Option (Nat × Nat) :=
  p.zipIdx.findSome? fun (i, address) =>
    (i.targets.find? fun t => p.length ≤ t).map fun t => (address, t)

/-- Checks that there is an instruction and that every target is in the program. -/
def validate (p : Program) : Except ProgramError Unit :=
  if p.isEmpty then .error .emptyProgram
  else
    match p.firstInvalid? with
    | none => .ok ()
    | some (address, target) => .error (.invalidTarget address target)

end Program

end FiberLex
