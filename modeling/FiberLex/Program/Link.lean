import FiberLex.Program.Basic

/-!
# Linking

Several rules become one program:

```text
       save 0
       jump to rule 0, rule 1, …, fallback
       rule 0 … save 1, accept id 0
       rule 1 … save 1, accept id 1
fallback:
       any, save 1, accept -1
```

The order of the targets of the jump is the priority of the rules. The fallback makes sure that a
character is consumed when no rule matches. Two improvements follow: jumps to the next instruction
are removed, and a single rule that begins with a switch takes over the choice of the fallback.
-/

namespace FiberLex.Program

/-- The instructions that consume a character when no rule matches. -/
def fallback : Program := [.any, .save 1, .accept errorSymbol]

/-- Fragments one after the other from `base` on, and the address where each begins. -/
def place (base : Nat) : List Program → List Nat × Program
  | [] => ([], [])
  | fragment :: rest =>
    let (entries, code) := place (base + fragment.length) rest
    (base :: entries, fragment.relocate base ++ code)

/-- One program of fragments that end in their own match. -/
def linkFragments (fragments : List Program) : Program :=
  let (entries, code) := place 2 fragments
  .save 0 :: .jump (entries ++ [2 + code.length]) :: (code ++ fallback)

/-- One program of bodies, each ended with its symbol. -/
def link (parts : List (Int × Program)) : Program :=
  linkFragments (parts.map fun (symbol, body) => body.terminate symbol)

/-! ## Removing instructions -/

/-- The program without the instruction at an address; later addresses move up. -/
def removeAt (p : Program) (address : Nat) : Program :=
  (p.eraseIdx address).map (·.mapTargets fun t => if address < t then t - 1 else t)

/-- The first jump, counted from address `base`, that only goes to the next instruction. -/
def idleJumpFrom? (base : Nat) : Program → Option Nat
  | [] => none
  | i :: rest =>
    if i = .jump [base + 1] then some 0 else (idleJumpFrom? (base + 1) rest).map (· + 1)

/-- The address of the first jump that only goes to the next instruction. -/
def idleJump? (p : Program) : Option Nat := idleJumpFrom? 0 p

theorem idleJumpFrom?_lt {p : Program} {base address : Nat}
    (h : idleJumpFrom? base p = some address) : address < p.length := by
  induction p generalizing base address with
  | nil => simp [idleJumpFrom?] at h
  | cons i rest ih =>
    simp only [idleJumpFrom?] at h
    split at h
    · cases h
      simp
    · obtain ⟨k, hk, rfl⟩ := Option.map_eq_some_iff.mp h
      have := ih hk
      simp
      omega

theorem length_removeAt {p : Program} {address : Nat} (h : address < p.length) :
    (p.removeAt address).length + 1 = p.length := by
  simp [removeAt, List.length_eraseIdx, h]
  omega

/-- The program without jumps to the next instruction. -/
def removeDeadCode (p : Program) : Program :=
  match _ : idleJump? p with
  | none => p
  | some address => removeDeadCode (p.removeAt address)
termination_by p.length
decreasing_by
  rename_i h
  have := length_removeAt (idleJumpFrom?_lt h)
  omega

/-- Lets the switch that begins the only rule choose the fallback: it is tried only if the switch
has no case, instead of alongside it. Any other program stays as it is. -/
def foldRoot (p : Program) : Program :=
  match p with
  | .save 0 :: .jump [2, other] :: .switch cases [] :: rest =>
    if other + 3 = p.length then
      removeAt (.save 0 :: .jump [2, other] :: .switch cases [other] :: rest) 1
    else p
  | _ => p

end FiberLex.Program
