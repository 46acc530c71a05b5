import FiberLex.Automaton.Basic
import FiberLex.Automaton.CaseFolding
import FiberLex.Automaton.Compose
import FiberLex.Automaton.Determinize
import FiberLex.Automaton.OfPattern
import FiberLex.Automaton.Reduce
import FiberLex.Automaton.Simulation
import FiberLex.Automaton.Table
import FiberLex.Automaton.Text
import FiberLex.Category
import FiberLex.Category.Listing
import FiberLex.Category.Partition
import FiberLex.CharClass
import FiberLex.CodeRange
import FiberLex.CodeSet
import FiberLex.Cursor
import FiberLex.Cursor.Session
import FiberLex.Error
import FiberLex.Lexer
import FiberLex.Machine
import FiberLex.Pattern.Basic
import FiberLex.Pattern.Bracket
import FiberLex.Pattern.Escape
import FiberLex.Pattern.Parser
import FiberLex.Preorder
import FiberLex.Program.Assembler
import FiberLex.Program.Basic
import FiberLex.Program.Link
import FiberLex.Program.Listing
import FiberLex.Program.Mnemonic
import FiberLex.Program.OfAutomaton
import FiberLex.Program.OfPattern
import FiberLex.Program.Operand
import FiberLex.Progress
import FiberLex.Scan
import FiberLex.SparseSet
import FiberLex.Text.Alphabetic
import FiberLex.Text.Blank
import FiberLex.Text.LetterCase
import FiberLex.Text.Numeral
import FiberLex.Text.Numeric
import FiberLex.Text.Printable
import FiberLex.Text.Quoted
import FiberLex.Tokenizer
import FiberLex.Proofs.Preorder
import FiberLex.Proofs.Machine.Backtrack
import FiberLex.Proofs.Machine.Lockstep
import FiberLex.Proofs.Machine.FirstMatch
import FiberLex.Proofs.Machine.Room
import FiberLex.Proofs.Automaton.Determinize
import FiberLex.Proofs.Automaton.Deterministic
import FiberLex.Proofs.Automaton.Prune
import FiberLex.Proofs.Category
import FiberLex.Proofs.Automaton.Changes
import FiberLex.Proofs.Automaton.Copies
import FiberLex.Proofs.Pattern.Language
import FiberLex.Proofs.Automaton.Compose
import FiberLex.Proofs.Automaton.Repetition
import FiberLex.Proofs.Pattern.Denotation
import FiberLex.Proofs.Automaton.Exactness
import FiberLex.Proofs.Automaton.OfPattern
import FiberLex.Proofs.Automaton.Reduce
import FiberLex.Proofs.Lexer.MergeRules
import FiberLex.Proofs.Program.OfAutomaton
import FiberLex.Proofs.Program.Link
import FiberLex.Proofs.Program.Execution
import FiberLex.Proofs.Program.Outcome
import FiberLex.Proofs.Text.Numeral
import FiberLex.Proofs.Tokenizer
import FiberLex.Proofs.Tokenizer.Tiling
import FiberLex.Proofs.Lexer.Build
import FiberLex.Proofs.Lexer.MaximalMunch
import FiberLex.Proofs.Program.LongestMatch
import FiberLex.Proofs.Program.Operand
import FiberLex.Proofs.Program.Instructions
import FiberLex.Proofs.Program.RoundTrip
import FiberLex.Proofs.Machine.Paths
import FiberLex.Proofs.Program.Targets
import FiberLex.Proofs.Program.Recognition
import FiberLex.Proofs.Program.OrderedChoice
import FiberLex.Proofs.Lexer.Total
import FiberLex.Proofs.Automaton.Operations
import FiberLex.Proofs.Program.DeadCode
import FiberLex.Proofs.Automaton.Bisimulation
import FiberLex.Proofs.Automaton.Compaction
import FiberLex.Proofs.Automaton.Duplicates
import FiberLex.Proofs.Tokenizer.Folding
import FiberLex.Proofs.Pattern.Reading
import FiberLex.Proofs.Program.Listable
import FiberLex.Proofs.Lexer.Reassembly
import FiberLex.Proofs.Lexer.Room
import FiberLex.Proofs.Automaton.Runs
import FiberLex.Proofs.Automaton.Neutral
import FiberLex.Proofs.Automaton.Pinched
import FiberLex.Proofs.Automaton.Builders
import FiberLex.Proofs.Automaton.Table
import FiberLex.Proofs.Pattern.Lookahead
import FiberLex.Proofs.Pattern.Embedded
import FiberLex.Proofs.Pattern.Grouping
import FiberLex.Proofs.Automaton.Composable
import FiberLex.Proofs.Automaton.Bundled
import FiberLex.Proofs.Automaton.CaseFolding
import FiberLex.Proofs.Pattern.Ends
import FiberLex.Proofs.Program.Preference
import FiberLex.Proofs.Pattern.Canonical
import FiberLex.Proofs.Pattern.Escaped
import FiberLex.Proofs.Program.Embedding
import FiberLex.Proofs.Automaton.SubsetShape
import FiberLex.Proofs.CodeSet.Canonical
import FiberLex.Proofs.Category.Tables
import FiberLex.Proofs.Machine.Work
import FiberLex.Proofs.Machine.Reuse
import FiberLex.Proofs.CodeSet.Operations
import FiberLex.Proofs.Automaton.DepthFirst
import FiberLex.Proofs.Automaton.Isomorphism
import FiberLex.Proofs.SparseSet.History
import FiberLex.Proofs.Cursor
import FiberLex.Proofs.Cursor.History
