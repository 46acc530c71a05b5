import FiberLex.Pattern.Parser
import FiberLex.Program.OfPattern
import FiberLex.Program.Operand

/-!
# The assembler

Reads the text of a program. Beyond what listings contain, there may be comments, labels of any name
and `regex (…)`, which stands for the code of a pattern:

```text
; identifiers
start:  save 0
        jmp ident, error
ident:  regex ([A-Za-z_][A-Za-z_0-9]*)
        save 1
        match 1
error:  any
        save 1
        match -1
```

A text is read statement by statement. Then the labels are replaced by addresses, and the program is
checked.
-/

namespace FiberLex.Assembler

open Operand

/-! ## Statements -/

/-- An instruction whose targets may still be labels. -/
inductive Item where
  /-- An instruction that is complete. -/
  | instr (i : Instr)
  /-- A jump to labels. -/
  | jump (targets : List LabelUse)
  /-- A switch between labels. -/
  | switch (cases : List (CodeSet × LabelUse)) (otherwise : List LabelUse)

/-- A statement. -/
inductive Statement where
  /-- Names the address of the next instruction; `site` is where the name stands. -/
  | label (name : String) (site : List Char)
  /-- An instruction. -/
  | item (i : Item)
  /-- The code of a pattern. -/
  | pattern (p : Pattern)

/-- The cases of a switch and its defaults. -/
abbrev Arms := List (CodeSet × LabelUse) × List LabelUse

/-- Reads the set and label of a case. -/
def readCase (cs : List Char) : Except Fault ((CodeSet × LabelUse) × List Char) := do
  let (codes, rest) ← Operand.set cs
  let rest ← Operand.char ':' rest
  let (use, rest) ← Operand.label rest
  .ok ((codes, use), rest)

/-- Reads the labels of the defaults. -/
def readDefaults (cs : List Char) : Except Fault (List LabelUse × List Char) := do
  let rest ← Operand.char ':' cs
  Operand.labels rest

/-- Whether a word is the given lower-case one in any mixture of cases. -/
def isWord (word lower : String) : Bool := word.toList.map Char.toLower == lower.toList

theorem readCase_consumes {cs rest : List Char} {arm : CodeSet × LabelUse}
    (h : readCase cs = .ok (arm, rest)) : Scan.Consumes cs rest := by
  obtain ⟨r₁, h₁, h⟩ := Scan.bind_eq_ok.mp h
  obtain ⟨r₂, h₂, h⟩ := Scan.bind_eq_ok.mp h
  obtain ⟨r₃, h₃, h⟩ := Scan.bind_eq_ok.mp h
  cases h
  exact (set_consumes h₁).trans
    ((Operand.char_consumes h₂).leaves.trans (label_consumes h₃).leaves)

theorem readDefaults_consumes {cs rest : List Char} {uses : List LabelUse}
    (h : readDefaults cs = .ok (uses, rest)) : Scan.Consumes cs rest := by
  obtain ⟨r₁, h₁, h⟩ := Scan.bind_eq_ok.mp h
  exact (Operand.char_consumes h₁).trans (commaSeparated_consumes h).leaves

/-- Reads the arms of a switch: cases with commas between them, and the defaults last. -/
def readArms (cs : List Char) : Except Fault (Arms × List Char) :=
  if (skipBlanks cs).head?.any Text.isAlphabetic then
    match _ : Operand.name cs with
    | .error e => .error e
    | .ok (word, rest) =>
      if isWord word "case" then
        match _ : readCase rest with
        | .error e => .error e
        | .ok (arm, rest) =>
          match _ : skipBlanks rest with
          | ',' :: rest => do
            let ((arms, otherwise), rest) ← readArms rest
            .ok ((arm :: arms, otherwise), rest)
          | rest => .ok (([arm], []), rest)
      else if isWord word "default" then do
        let (otherwise, rest) ← readDefaults rest
        .ok (([], otherwise), rest)
      else .error (.expecting ["case", "default"] rest)
  else .ok (([], []), skipBlanks cs)
termination_by cs.length
decreasing_by
  rename_i h₁ _ rest₂ h₂ h₃
  have l := skipBlanks_leaves rest₂
  rw [h₃] at l
  exact ((name_consumes h₁).trans
    ((readCase_consumes h₂).leaves.trans (l.trans (Scan.Consumes.cons _ _).leaves))).length_lt

/-- The switch of some arms; without cases it is a jump to the defaults, if there are any. -/
def ofArms : Arms → Item
  | ([], use :: uses) => .jump (use :: uses)
  | (cases, otherwise) => .switch cases otherwise

/-- Whether an integer fits 32 bits. -/
def fitsRuleId (i : Int) : Bool := -0x80000000 ≤ i && i < 0x80000000

/-- Reads what follows a mnemonic; `site` is where the mnemonic stands. -/
def readOperands (m : Mnemonic) (site cs : List Char) : Except Fault (Statement × List Char) :=
  match m with
  | .any => .ok (.item (.instr .any), cs)
  | .char => do
    let (cp, rest) ← Operand.character cs
    .ok (.item (.instr (.char cp)), rest)
  | .inside => do
    let (codes, rest) ← Operand.set cs
    .ok (.item (.instr (.inside codes)), rest)
  | .outside => do
    let (codes, rest) ← Operand.set cs
    .ok (.item (.instr (.outside codes)), rest)
  | .insideCategory => do
    let (cat, rest) ← Operand.category cs
    .ok (.item (.instr (.insideCategory cat)), rest)
  | .outsideCategory => do
    let (cat, rest) ← Operand.category cs
    .ok (.item (.instr (.outsideCategory cat)), rest)
  | .save => do
    let (slot, rest) ← Operand.integer cs
    if slot < 0 then .error ⟨.negativeSlot, site, rest⟩
    else .ok (.item (.instr (.save slot.toNat)), rest)
  | .accept => do
    let (symbol, rest) ← Operand.integer cs
    if fitsRuleId symbol then .ok (.item (.instr (.accept symbol)), rest)
    else .error ⟨.ruleIdOutOfRange, site, rest⟩
  | .jump =>
    match skipBlanks cs with
    | [] => .ok (.item (.jump []), [])
    | '\n' :: rest => .ok (.item (.jump []), '\n' :: rest)
    | rest => do
      let (targets, rest) ← Operand.labels rest
      .ok (.item (.jump targets), rest)
  | .switch => do
    let (arms, rest) ← readArms cs
    .ok (.item (ofArms arms), rest)
  | .regex => do
    let rest ← Operand.char '(' cs
    let (p, rest) ← Pattern.readEmbedded true rest
    let rest ← Operand.char ')' rest
    .ok (.pattern p, rest)

/-- Reads a statement, which begins with a name. -/
def readStatement (cs : List Char) : Except Fault (Statement × List Char) := do
  let (name, rest) ← Operand.name cs
  match skipBlanks rest with
  | ':' :: rest => .ok (.label name cs, rest)
  | rest =>
    match Mnemonic.ofName? name with
    | none => .error ⟨.unknownInstruction name, cs, rest⟩
    | some m => do
      let (statement, rest) ← readOperands m cs rest
      let rest ← Operand.endOfLine rest
      .ok (statement, rest)

/-! ## Assembling -/

/-- Why a text cannot be assembled. -/
inductive Failure where
  /-- The text is malformed. -/
  | malformed (fault : Fault)
  /-- A pattern has no code. -/
  | build (e : BuildError)
  /-- A label is defined a second time, at `site`. -/
  | duplicate (name : String) (site : List Char)
  /-- A label is used but not defined. -/
  | undefined (use : LabelUse)
  /-- The program cannot run. -/
  | program (e : ProgramError)

/-- The part of a program that has been read. -/
structure Draft where
  /-- The instructions, the last one first. -/
  items : List Item := []
  /-- The labels and the addresses they name. -/
  labels : List (String × Nat) := []

namespace Draft

/-- Adds a statement. -/
def add (d : Draft) : Statement → Except Failure Draft
  | .label name site =>
    if (d.labels.lookup name).isSome then .error (.duplicate name site)
    else .ok { d with labels := (name, d.items.length) :: d.labels }
  | .item i => .ok { d with items := i :: d.items }
  | .pattern p => do
    let body ← (Program.ofPattern p).mapError .build
    .ok { d with items := ((body.relocate d.items.length).map .instr).reverse ++ d.items }

/-- The address of a label. -/
def address (d : Draft) (use : LabelUse) : Except Failure Nat :=
  match d.labels.lookup use.name with
  | some address => .ok address
  | none => .error (.undefined use)

/-- The instruction with its labels replaced by addresses. -/
def resolve (d : Draft) : Item → Except Failure Instr
  | .instr i => .ok i
  | .jump targets => do
    let targets ← targets.mapM d.address
    .ok (.jump targets)
  | .switch cases otherwise => do
    let cases ← cases.mapM fun (codes, use) => do
      let target ← d.address use
      .ok (⟨codes, target⟩ : Case)
    let otherwise ← otherwise.mapM d.address
    .ok (.switch cases otherwise)

end Draft

/-! ## What the readers leave -/

theorem readArms_leaves {cs rest : List Char} {arms : Arms} (h : readArms cs = .ok (arms, rest)) :
    Scan.Leaves cs rest := by
  fun_induction readArms cs generalizing arms rest with
  | case1 => cases h
  | case2 => cases h
  | case3 cs _ word rest₁ h₁ _ arm rest₂ h₂ rest₃ h₃ ih =>
    obtain ⟨r, h₄, h⟩ := Scan.bind_eq_ok.mp h
    cases h
    have l := skipBlanks_leaves rest₂
    rw [h₃] at l
    exact (name_consumes h₁).leaves.trans
      ((readCase_consumes h₂).leaves.trans (l.trans (ih h₄).cons.leaves))
  | case4 cs _ word rest₁ h₁ _ arm rest₂ h₂ h₃ =>
    cases h
    exact (name_consumes h₁).leaves.trans
      ((readCase_consumes h₂).leaves.trans (skipBlanks_leaves rest₂))
  | case5 cs _ word rest₁ h₁ _ _ =>
    obtain ⟨r, h₄, h⟩ := Scan.bind_eq_ok.mp h
    cases h
    exact (name_consumes h₁).leaves.trans (readDefaults_consumes h₄).leaves
  | case6 => cases h
  | case7 cs _ =>
    cases h
    exact skipBlanks_leaves cs

section Operands

variable {site cs rest : List Char} {st : Statement}

theorem readOperands_jump_leaves (h : readOperands .jump site cs = .ok (st, rest)) :
    Scan.Leaves cs rest := by
  have l := skipBlanks_leaves cs
  simp only [readOperands] at h
  split at h
  · rename_i heq
    exact l.trans (heq ▸ Scan.leaves_of_ok h)
  · rename_i heq
    exact l.trans (heq ▸ Scan.leaves_of_ok h)
  · exact l.trans (Scan.leaves_of_bind h (fun h => (commaSeparated_consumes h).leaves) Scan.leaves_of_ok)

theorem readOperands_regex_leaves (h : readOperands .regex site cs = .ok (st, rest)) :
    Scan.Leaves cs rest := by
  obtain ⟨opened, hopen, h⟩ := Scan.bind_eq_ok.mp h
  refine (Operand.char_consumes hopen).leaves.trans
    (Scan.leaves_of_bind h Pattern.readEmbedded_leaves fun h => ?_)
  obtain ⟨closed, hclose, h⟩ := Scan.bind_eq_ok.mp h
  exact (Operand.char_consumes hclose).leaves.trans (Scan.leaves_of_ok h)

theorem readOperands_leaves {m : Mnemonic} (h : readOperands m site cs = .ok (st, rest)) :
    Scan.Leaves cs rest := by
  cases m with
  | any => exact Scan.leaves_of_ok h
  | char => exact Scan.leaves_of_bind h (fun h => (character_consumes h).leaves) Scan.leaves_of_ok
  | inside | outside => exact Scan.leaves_of_bind h (fun h => (set_consumes h).leaves) Scan.leaves_of_ok
  | insideCategory | outsideCategory => exact Scan.leaves_of_bind h category_leaves Scan.leaves_of_ok
  | save =>
    refine Scan.leaves_of_bind h integer_leaves fun h => ?_
    dsimp only at h
    split at h
    · cases h
    · exact Scan.leaves_of_ok h
  | accept =>
    refine Scan.leaves_of_bind h integer_leaves fun h => ?_
    dsimp only at h
    split at h
    · exact Scan.leaves_of_ok h
    · cases h
  | jump => exact readOperands_jump_leaves h
  | switch => exact Scan.leaves_of_bind h readArms_leaves Scan.leaves_of_ok
  | regex => exact readOperands_regex_leaves h

end Operands

/-- A statement takes at least one character. -/
theorem readStatement_consumes {cs rest : List Char} {st : Statement}
    (h : readStatement cs = .ok (st, rest)) : Scan.Consumes cs rest := by
  obtain ⟨⟨name, rest₁⟩, h₁, h⟩ := Scan.bind_eq_ok.mp h
  have l := skipBlanks_leaves rest₁
  dsimp only at h
  split at h
  · rename_i heq
    cases h
    exact (name_consumes h₁).trans ((heq ▸ l).trans (Scan.Consumes.cons _ _).leaves)
  · split at h
    · cases h
    · obtain ⟨r₂, h₂, h⟩ := Scan.bind_eq_ok.mp h
      obtain ⟨r₃, h₃, h⟩ := Scan.bind_eq_ok.mp h
      cases h
      exact (name_consumes h₁).trans
        (l.trans ((readOperands_leaves h₂).trans (endOfLine_leaves h₃)))

/-! ## Whole texts -/

/-- Reads the statements of a text. -/
def readStatements (d : Draft) (cs : List Char) : Except Failure Draft :=
  match _ : skipLines false cs with
  | [] => .ok d
  | c :: rest =>
    match _ : readStatement (c :: rest) with
    | .error fault => .error (.malformed fault)
    | .ok (statement, rest) => do
      let d ← d.add statement
      readStatements d rest
termination_by cs.length
decreasing_by
  rename_i h₁ h₂
  have l := skipLines_leaves false cs
  rw [h₁] at l
  exact (l.consumes (readStatement_consumes h₂)).length_lt

/-- Reads the instructions of a text and replaces the labels in them. -/
def readProgram (cs : List Char) : Except Failure Program := do
  let d ← readStatements {} cs
  let p : Program ← d.items.reverse.mapM d.resolve
  p.validate.mapError .program
  .ok p

/-- The error for a failure to assemble the text that `cur` is about to read. -/
def Failure.toError (cur : Cursor) : Failure → LexerError
  | malformed fault => .parse (fault.toError cur.tabWidth cur.position)
  | build e => .build e
  | duplicate name site => .program (.duplicateLabel name (cur.seek site).position.line)
  | undefined use => .program (.undefinedLabel use.name (cur.seek use.site).position.line)
  | program e => .program e

end FiberLex.Assembler

namespace FiberLex

/-- The program written as a text. -/
def Program.assemble (text : String) : Except LexerError Program :=
  (Assembler.readProgram text.toList).mapError (Assembler.Failure.toError (.ofString text))

end FiberLex
