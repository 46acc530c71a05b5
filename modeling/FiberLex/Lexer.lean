import FiberLex.Automaton.CaseFolding
import FiberLex.Automaton.OfPattern
import FiberLex.Pattern.Parser
import FiberLex.Program.Link
import FiberLex.Program.Listing
import FiberLex.Program.OfAutomaton
import FiberLex.Program.OfPattern
import FiberLex.Tokenizer

/-!
# Lexers

Rules in order of priority become one program. With optimisation, neighbouring rules that are
automata are merged into one deterministic automaton without duplicate states: it matches the
longest text over all of them, and of two rules that match the same text the earlier one counts.
Without it, and for rules that only exist as code, the rules are a choice in order.
-/

namespace FiberLex

/-- What a rule matches. -/
inductive RuleBody where
  /-- A pattern. -/
  | pattern (text : String)
  /-- A pattern, with letters in either case. -/
  | patternAnyCase (text : String)
  /-- Exactly the given text. -/
  | literal (text : String)
  /-- Whatever a program matches that is left at its end. -/
  | program (body : Program)
deriving Repr

/-- A rule of a lexer. -/
structure Rule where
  /-- The symbol reported for the rule. -/
  symbol : Int
  /-- What the rule matches. -/
  body : RuleBody
deriving Repr

/-- A lexer. -/
structure Lexer where
  /-- The program that finds tokens. -/
  program : Program
deriving DecidableEq, Repr

/-- The automaton of a pattern written as a text. Lazy repetitions are not allowed in it, so a
question mark after a modifier is one more modifier. -/
def Automaton.parse (text : String) (symbol : Option Int) : Except LexerError Automaton := do
  let p ← (Pattern.parse text false).mapError .parse
  (ofPattern p symbol).mapError .build

namespace Lexer

/-- What a rule becomes: an automaton that may be merged with its neighbours, or finished code. -/
inductive Lowered where
  /-- An automaton with the symbol of the rule. -/
  | automaton (a : Automaton)
  /-- Code that ends in its own match. -/
  | fragment (p : Program)

/-- Reads a rule. -/
def lower (optimize : Bool) (rule : Rule) : Except LexerError Lowered :=
  match rule.body with
  | .pattern text => do
    let p ← (Pattern.parse text).mapError .parse
    if optimize && !p.hasLazy then do
      let a ← (Automaton.ofPattern p (some rule.symbol)).mapError .build
      .ok (.automaton a)
    else do
      let code ← (Program.ofRule p rule.symbol).mapError .build
      .ok (.fragment code)
  | .patternAnyCase text => do
    let a ← Automaton.parse text (some rule.symbol)
    let widened ← (a.ignoringCase (some rule.symbol)).mapError .build
    .ok (.automaton widened)
  | .literal text =>
    if optimize then
      .ok (.automaton (.ofCodePoints (text.toList.map Char.toNat) (some rule.symbol)))
    else .ok (.fragment ((Program.ofText text.toList).terminate rule.symbol))
  | .program body => .ok (.fragment (body.terminate rule.symbol))

/-- One deterministic automaton for rules in order. While it is built, each rule has its place in
the order as its symbol, since the least symbol counts; then the rules get their own symbols
back. -/
def mergeRules (rules : List (Int × Automaton)) : Automaton × List Progress :=
  let symbols := rules.map (·.1)
  let placed := rules.zipIdx.map fun (rule, place) => rule.2.setSymbol (some place)
  let (d, log) := (Automaton.merged placed).determinize
  let restored := d.mapSymbols fun s => s.map fun place => symbols.getD place.toNat place
  let (trimmed, more) := restored.trimDuplicates
  (trimmed, log ++ more)

/-- The fragments for automata that wait to be merged, and the reports of the passes. -/
def flush (pending : List (Int × Automaton)) : Except LexerError (List Program × List Progress) :=
  if pending.isEmpty then .ok ([], [])
  else do
    let (a, log) := mergeRules pending
    let code ← (Program.ofAutomaton a).mapError .build
    .ok ([code], log)

/-- The fragments for rules in order, after automata that wait to be merged. -/
def fragments (optimize : Bool) (pending : List (Int × Automaton)) :
    List Rule → Except LexerError (List Program × List Progress)
  | [] => flush pending
  | rule :: rest =>
    if rule.symbol < 0 then .error (.build (.negativeSymbol rule.symbol))
    else do
      match ← lower optimize rule with
      | .automaton a =>
        let pending := pending ++ [(rule.symbol, a)]
        if optimize then fragments optimize pending rest
        else do
          let (now, log) ← flush pending
          let (later, more) ← fragments optimize [] rest
          .ok (now ++ later, log ++ more)
      | .fragment code => do
        let (now, log) ← flush pending
        let (later, more) ← fragments optimize [] rest
        .ok (now ++ code :: later, log ++ more)

/-- The lexer of a program, if it can run. -/
def ofProgram (p : Program) : Except LexerError Lexer := do
  p.validate.mapError .program
  .ok ⟨p⟩

/-- The lexer of rules in order of priority, and the reports of the passes. -/
def build (rules : List Rule) (optimize : Bool := true) :
    Except LexerError (Lexer × List Progress) := do
  let (code, log) ← fragments optimize [] rules
  let linked := Program.linkFragments code
  let lexer ← ofProgram (if optimize then linked.removeDeadCode.foldRoot else linked)
  .ok (lexer, log)

/-- The program as text. -/
def listing (l : Lexer) : String := l.program.listing

/-- Finds one token at a cursor. -/
def run (l : Lexer) (cur : Cursor) : Machine.Run := (Machine.ofProgram l.program).run cur

/-- Whether one token other than an error is the whole text. -/
def isMatch (l : Lexer) (text : String) : Bool := ((Machine.ofProgram l.program).isMatch text).1

/-- The tokens of a text. -/
def tokenize (l : Lexer) (text : String) : List Token :=
  (Tokenizer.new l.program (.ofString text)).tokens.map (·.1)

/-- The tokens of a text, if there is room for all slots. -/
def tokenize? (l : Lexer) (text : String) : Option (List Token) :=
  (Tokenizer.new l.program (.ofString text)).tokens?.map (·.map (·.1))

end Lexer

end FiberLex
