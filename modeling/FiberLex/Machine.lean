import FiberLex.Cursor
import FiberLex.Preorder
import FiberLex.Program.Basic

/-!
# The machine

The machine follows all paths through a program at once, one character at a time. A path is a
*fiber*: an address and the offsets recorded on the way. For each character, the fibers that are
left are spread out through the instructions that consume nothing, in order of preference; an
address is visited at most once, so the first fiber to get there wins. The fibers that then stand at
an instruction for the character make up the next generation. One that stands at a match reports it
and ends all fibers after it, which are less preferred. The run ends when no fiber is left, and its
result is the last match that was reported.

What a fiber has recorded is kept in slots, and a program may record in any of them. Memory has room
for `slotLimit` slots; a run in which a fiber asks for more is broken off and comes to nothing
(`Machine.run?`). What a run comes to as long as there is room (`Machine.run`) does not depend on
what is recorded in other slots than the first two.
-/

namespace FiberLex

/-- Where a match begins and ends, as far as it has been recorded. -/
structure Span where
  /-- The offset in slot zero, which is zero until it is recorded. -/
  start : Nat := 0
  /-- The offset in slot one, if there is a slot one. -/
  finish : Option Nat := none
deriving DecidableEq, Repr

/-- The number of slots that a fiber can have. They are kept in one block of memory, which is made
for a power of two of offsets, eight bytes each, and no block has more than `2 ^ 63 - 1` bytes. -/
def slotLimit : Nat := 0x800000000000000

/-- Records an offset in a slot, if there is room for it. Slots are numbered without gaps: a slot
beyond the first two makes slot one, with zero in it, if there is none. -/
def Span.record (s : Span) (slot offset : Nat) : Span :=
  match slot with
  | 0 => { s with start := offset }
  | 1 => { s with finish := some offset }
  | _ => { s with finish := some (s.finish.getD 0) }

/-- A path through the program. -/
structure Fiber where
  /-- The instruction the path has come to. -/
  address : Nat
  /-- What has been recorded on the way. -/
  span : Span := {}
deriving DecidableEq, Repr

/-- A match. Offsets are in bytes from where the run began. -/
structure Match where
  /-- The rule that matched. -/
  symbol : Int
  /-- Where the match begins. -/
  start : Nat
  /-- Where the match ends. -/
  finish : Nat
deriving DecidableEq, Repr

namespace Match

/-- The number of bytes between the ends. -/
def length (m : Match) : Nat := m.finish - m.start

/-- Whether there is nothing between the ends. -/
def isEmpty (m : Match) : Bool := m.length == 0

/-- Whether no rule matched and the fallback was taken. -/
def isError (m : Match) : Bool := m.symbol == errorSymbol

end Match

namespace Instr

/-- How many slots a fiber asks for at the instruction. -/
def slots : Instr → Nat
  | save slot => slot + 1
  | _ => 0

/-- The first case that has the next character. -/
def chosenCase? (cases : List Case) (next : Option Char) : Option Case :=
  next.bind fun c => cases.find? (·.set.contains c.toNat)

/-- The fibers to which control goes on without consuming, in order of preference. -/
def passOn (next : Option Char) (offset : Nat) (f : Fiber) : Instr → List Fiber
  | jump targets => targets.map (⟨·, f.span⟩)
  | save slot => [⟨f.address + 1, f.span.record slot offset⟩]
  | switch cases otherwise =>
    if (chosenCase? cases next).isSome then [] else otherwise.map (⟨·, f.span⟩)
  | _ => []

/-- Whether a fiber rests at the instruction until the next character is consumed. -/
def holds (next : Option Char) : Instr → Bool
  | jump _ | save _ => false
  | switch cases _ => (chosenCase? cases next).isSome
  | _ => true

/-- Where control goes after the instruction at `address` has consumed `c`, if it can. -/
def consume? (address : Nat) (c : Char) : Instr → Option Nat
  | char cp => if cp = c.toNat then some (address + 1) else none
  | inside set => if set.contains c.toNat then some (address + 1) else none
  | outside set => if set.contains c.toNat then none else some (address + 1)
  | insideCategory cat => if cat.contains c.toNat then some (address + 1) else none
  | outsideCategory cat => if cat.contains c.toNat then none else some (address + 1)
  | any => some (address + 1)
  | switch cases _ => (chosenCase? cases (some c)).map (·.target)
  | jump _ | save _ | accept _ => none

end Instr

/-! ## One generation -/

namespace Machine

/-- The fibers that follow a fiber without consuming. -/
def followers (code : Array Instr) (next : Option Char) (offset : Nat) (f : Fiber) : List Fiber :=
  match code[f.address]? with
  | none => []
  | some i => i.passOn next offset f

/-- How many slots a fiber asks for where it is. -/
def slotsAt (code : Array Instr) (f : Fiber) : Nat :=
  match code[f.address]? with
  | none => 0
  | some i => i.slots

/-- Whether a fiber rests where it is. -/
def rests (code : Array Instr) (next : Option Char) (f : Fiber) : Bool :=
  match code[f.address]? with
  | none => false
  | some i => i.holds next

/-- The fibers after the next character, from fibers that rest, in order; and the first match, which
ends the fibers after it. -/
def harvest (code : Array Instr) (next : Option Char) (offset : Nat) :
    List Fiber → Option Match × List Fiber
  | [] => (none, [])
  | f :: rest =>
    match code[f.address]? with
    | none => harvest code next offset rest
    | some (.accept symbol) => (some ⟨symbol, f.span.start, f.span.finish.getD offset⟩, [])
    | some i =>
      let (found, fibers) := harvest code next offset rest
      match next.bind fun c => i.consume? f.address c with
      | none => (found, fibers)
      | some target => (found, ⟨target, f.span⟩ :: fibers)

/-- What is kept from one generation to the next, and from one run to the next. A run brings seeds of
its own, and a generation overwrites all else that it finds, except for the stack: a walk goes on
with what is left there, so nothing may be. -/
structure Buffers (n : Nat) where
  /-- The addresses visited. -/
  seen : SparseSet n
  /-- The fibers that rest, in order of preference. -/
  resting : Array Fiber := #[]
  /-- The fibers with which the next generation begins, in order of preference. -/
  seeds : Array Fiber := #[]
  /-- The fibers that a walk has yet to come to. -/
  stack : List Fiber := []

/-- What one generation comes to. -/
structure Generation (n : Nat) where
  /-- The match reported, if there is one. -/
  found : Option Match := none
  /-- How many instructions were visited. -/
  visits : Nat := 0
  /-- The greatest number of slots that a fiber asked for. -/
  slots : Nat := 0
  /-- The fibers that rest and those of the next generation. -/
  buffers : Buffers n

/-- Spreads out one fiber: walks from it, over what is on the stack too, to the fibers that rest. -/
def spread (code : Array Instr) (next : Option Char) (offset : Nat) (g : Generation code.size)
    (f : Fiber) : Generation code.size :=
  let b := g.buffers
  let (visited, seen) :=
    Preorder.walk Fiber.address (followers code next offset) (f :: b.stack) b.seen #[]
  { g with
    visits := g.visits + visited.size
    slots := visited.foldl (fun n f => max n (slotsAt code f)) g.slots
    buffers := { b with seen, resting := b.resting ++ visited.filter (rests code next), stack := [] } }

/-- Spreads out the seeds, one after the other, and takes the fibers past the next character. -/
def generation (code : Array Instr) (next : Option Char) (offset : Nat) (b : Buffers code.size) :
    Generation code.size :=
  let cleared : Buffers code.size := { b with seen := b.seen.clear, resting := #[], seeds := #[] }
  let g := b.seeds.toList.foldl (spread code next offset) { buffers := cleared }
  let (found, fibers) := harvest code next offset g.buffers.resting.toList
  { g with found, buffers := { g.buffers with seeds := fibers.toArray } }

end Machine

/-! ## Runs -/

/-- How much work a run took. -/
structure Statistics where
  /-- The greatest number of fibers that rested in one generation. -/
  maxFibers : Nat := 0
  /-- How many instructions were visited. -/
  visits : Nat := 0
  /-- How many characters were consumed. -/
  characters : Nat := 0
  /-- The greatest number of slots that a fiber asked for. -/
  slots : Nat := 0
deriving DecidableEq, Repr

namespace Statistics

/-- The visits for each character consumed, or all visits if there is none. -/
def visitsPerCharacter (s : Statistics) : Float := s.visits.toFloat / (max s.characters 1).toFloat

/-- Adds the work of one generation, without the character. -/
def addGeneration (s : Statistics) (visits resting slots : Nat) : Statistics :=
  { s with
    maxFibers := max s.maxFibers resting
    visits := s.visits + visits
    slots := max s.slots slots }

end Statistics

/-- A program ready to run. It is used for one run after the other. -/
structure Machine where
  /-- The program. -/
  code : Array Instr
  /-- What earlier runs have left. -/
  buffers : Machine.Buffers code.size
  /-- Every walk has come to its end. -/
  drained : buffers.stack = []

namespace Machine

/-- What a run over a text comes to. -/
structure Search (n : Nat) where
  /-- The last match reported. -/
  result : Option Match
  /-- What is left of the text. -/
  rest : List Char
  /-- The work it took. -/
  statistics : Statistics
  /-- What the run leaves. -/
  buffers : Buffers n

/-- Runs the seeds over a text, `offset` bytes after the beginning, with the last match so far. -/
def search (code : Array Instr) (text : List Char) (offset : Nat) (best : Option Match)
    (statistics : Statistics) (b : Buffers code.size) : Search code.size :=
  match text with
  | [] =>
    let g := generation code none offset b
    ⟨g.found.or best, [], statistics.addGeneration g.visits g.buffers.resting.size g.slots, g.buffers⟩
  | c :: rest =>
    let g := generation code (some c) offset b
    let best := g.found.or best
    let statistics := statistics.addGeneration g.visits g.buffers.resting.size g.slots
    if g.buffers.seeds.isEmpty then ⟨best, c :: rest, statistics, g.buffers⟩
    else
      search code rest (offset + c.utf8Size) best
        { statistics with characters := statistics.characters + 1 } g.buffers

section Stack

variable {code : Array Instr} {b : Buffers code.size}

theorem stack_foldl_spread (next : Option Char) (offset : Nat) (fibers : List Fiber)
    {g : Generation code.size} (hg : g.buffers.stack = []) :
    (fibers.foldl (spread code next offset) g).buffers.stack = [] := by
  induction fibers generalizing g with
  | nil => exact hg
  | cons f fibers ih => exact ih rfl

theorem stack_generation (hb : b.stack = []) (next : Option Char) (offset : Nat) :
    (generation code next offset b).buffers.stack = [] :=
  stack_foldl_spread next offset b.seeds.toList hb

theorem stack_search (hb : b.stack = []) (text : List Char) (offset : Nat) (best : Option Match)
    (statistics : Statistics) : (search code text offset best statistics b).buffers.stack = [] := by
  induction text generalizing offset best statistics b with
  | nil => exact stack_generation hb none offset
  | cons c rest ih =>
    rw [search]
    split
    · exact stack_generation hb (some c) offset
    · exact ih (stack_generation hb (some c) offset) _ _ _

end Stack

/-- The machine of a program. -/
def ofProgram (p : Program) : Machine where
  code := p.toArray
  buffers := { seen := .empty _ }
  drained := rfl

/-- What a run begins with: one fiber at the beginning of the program. -/
def primed (m : Machine) : Buffers m.code.size := { m.buffers with seeds := #[⟨0, {}⟩] }

theorem stack_primed (m : Machine) : m.primed.stack = [] := m.drained

/-- What a run at a cursor comes to. -/
structure Run where
  /-- The match found. -/
  result : Option Match
  /-- The work it took. -/
  statistics : Statistics
  /-- The cursor after the last character any fiber consumed, which may be after the match. What was
  consumed has been captured. -/
  cursor : Cursor
  /-- The machine, ready for the next run. -/
  machine : Machine

/-- Whether there is room for all slots that the run asks for. -/
def Run.hasRoom (r : Run) : Bool := r.statistics.slots ≤ slotLimit

/-- Runs the program at a cursor, as long as there is room for all slots. -/
def run (m : Machine) (cur : Cursor) : Run :=
  let s := search m.code cur.position.rest 0 none {} m.primed
  { result := s.result
    statistics := s.statistics
    cursor := cur.consume (cur.position.rest.length - s.rest.length)
    machine := ⟨m.code, s.buffers, stack_search m.stack_primed _ _ _ _⟩ }

/-- Runs the program at a cursor. Nothing comes of it if there is no room for a slot. -/
def run? (m : Machine) (cur : Cursor) : Option Run :=
  let r := m.run cur
  if r.hasRoom then some r else none

/-- Whether a rule other than the fallback matches the whole text; and the machine for the next
run. -/
def isMatch (m : Machine) (text : String) : Bool × Machine :=
  let r := m.run (.ofString text)
  let whole := match r.result with
    | none => false
    | some found => !found.isError && found.start == 0 && found.finish == text.utf8ByteSize
  (whole, r.machine)

/-- Whether a rule other than the fallback matches the whole text, if there is room for all slots;
and the machine for the next run. -/
def isMatch? (m : Machine) (text : String) : Option (Bool × Machine) :=
  (m.run? (.ofString text)).map fun _ => m.isMatch text

end Machine

end FiberLex
