import FiberLex.Pattern.Basic
import FiberLex.Program.Basic

/-!
# Programs of patterns

A pattern becomes a piece of code that begins at a given address and is left at its end: when the
pattern has matched, control is at the address right after the piece. The order of the targets of a
jump is the order of preference.
-/

namespace FiberLex.Program

/-- A piece of code that depends on the address where it begins. -/
abbrev Piece := Nat → Except BuildError Program

/-- Two addresses in order of preference: a greedy repetition prefers its body, a lazy one the
end. -/
def preferring (body done : Nat) (isLazy : Bool) : List Nat :=
  if isLazy then [done, body] else [body, done]

/-- One piece after the other. -/
def sequel (first second : Piece) : Piece := fun base => do
  let code ← first base
  let rest ← second (base + code.length)
  .ok (code ++ rest)

/-- The piece without instructions. -/
def nothing : Piece := fun _ => .ok []

/-- So many copies of a piece. -/
def copies (piece : Piece) : Nat → Piece
  | 0 => nothing
  | n + 1 => sequel piece (copies piece n)

/-- The piece once or not at all. -/
def optional (piece : Piece) (isLazy : Bool) : Piece := fun base => do
  let body ← piece (base + 1)
  .ok (.jump (preferring (base + 1) (base + 1 + body.length) isLazy) :: body)

/-- The piece any number of times. -/
def star (piece : Piece) (isLazy : Bool) : Piece := fun base => do
  let body ← piece (base + 1)
  .ok (.jump (preferring (base + 1) (base + 1 + body.length + 1) isLazy) ::
    (body ++ [.jump [base]]))

/-- The piece once or more. -/
def plus (piece : Piece) (isLazy : Bool) : Piece := fun base => do
  let body ← piece base
  .ok (body ++ [.jump (preferring base (base + body.length + 1) isLazy)])

/-- Between `min` and `max` copies of a piece. Bounds of zero and zero count as no bounds at all. -/
def repeated (piece : Piece) (min : Nat) (max : Option Nat) (isLazy : Bool) : Piece :=
  match min, max with
  | 0, none | 0, some 0 => star piece isLazy
  | 1, none => plus piece isLazy
  | min, none => sequel (copies piece min) (star piece isLazy)
  | min, some max =>
    if max < min then fun _ => .error (.invalidBounds min max)
    else sequel (copies piece min) (copies (optional piece isLazy) (max - min))

/-- The code of a branch of a choice. -/
structure Branch where
  /-- Where the branch begins; an empty branch begins where the choice ends. -/
  entry : Option Nat
  /-- The code of the branch. -/
  body : Program
  /-- Whether a jump to the end of the choice follows. -/
  joins : Bool

namespace Branch

/-- How many instructions the branch takes. -/
def size (b : Branch) : Nat := b.body.length + if b.joins then 1 else 0

/-- The instructions of the branch in a choice that ends at `done`. -/
def code (done : Nat) (b : Branch) : Program := b.body ++ if b.joins then [.jump [done]] else []

/-- How many instructions several branches take. -/
def totalSize : List Branch → Nat
  | [] => 0
  | b :: rest => b.size + totalSize rest

end Branch

/-- The code of a choice that begins at `base`, from its branches. -/
def choice (base : Nat) (branches : List Branch) : Program :=
  let done := base + 1 + Branch.totalSize branches
  .jump (branches.map fun b => b.entry.getD done) :: branches.flatMap (Branch.code done)

mutual

/-- The code of a pattern that begins at `base`. -/
def code (p : Pattern) (base : Nat) : Except BuildError Program :=
  match p with
  | .literal cp => .ok [.char cp]
  | .dot => .ok [.any]
  | .oneOf set negated => .ok [if negated then .outside set else .inside set]
  | .category cat negated => .ok [if negated then .outsideCategory cat else .insideCategory cat]
  | .concat items => codeItems items base
  | .alt branches => do
    let branches ← codeBranches branches false (base + 1)
    .ok (choice base branches)
  | .repetition body min max isLazy => repeated (code body) min max isLazy base

/-- The code of patterns one after the other, beginning at `base`. -/
def codeItems (items : List Pattern) (base : Nat) : Except BuildError Program :=
  match items with
  | [] => .ok []
  | item :: rest => sequel (code item) (codeItems rest) base

/-- The branches of a choice, the first beginning at `base`. Of the empty branches only the first
counts; `seenEmpty` says whether there was one. -/
def codeBranches (branches : List Pattern) (seenEmpty : Bool) (base : Nat) :
    Except BuildError (List Branch) :=
  match branches with
  | [] => .ok []
  | branch :: rest =>
    if branch.isEmpty then do
      let more ← codeBranches rest true base
      .ok (if seenEmpty then more else ⟨none, [], false⟩ :: more)
    else do
      let body ← code branch base
      let joins := rest.any (!·.isEmpty)
      let more ← codeBranches rest seenEmpty (base + body.length + if joins then 1 else 0)
      .ok (⟨some base, body, joins⟩ :: more)

end

/-- The code of a pattern at address zero. -/
def ofPattern (p : Pattern) : Except BuildError Program := code p 0

/-- The code of a pattern that reports a symbol when it has matched. -/
def ofRule (p : Pattern) (symbol : Int) : Except BuildError Program := do
  let body ← ofPattern p
  .ok (terminate body symbol)

/-- The code of exactly the given text. -/
def ofText (text : List Char) : Program := text.map fun c => .char c.toNat

end FiberLex.Program
