import FiberLex.Program.Assembler
import FiberLex.Proofs.Program.Operand

/-!
# Assembling undoes listing

The assembler reads the listing of a program back as the program. Each line of a listing is a label
and an instruction; the instruction is read back with labels for its targets, and once all lines are
read every label stands for the address that its number says.
-/

namespace FiberLex.Assembler

open Operand Text

/-! ## Arms of a switch -/

/-- The reader of arms without the facts for its termination. -/
theorem readArms_eq (cs : List Char) :
    readArms cs =
      if (skipBlanks cs).head?.any isAlphabetic then do
        let (word, rest) ← name cs
        if isWord word "case" then do
          let (arm, rest) ← readCase rest
          match skipBlanks rest with
          | ',' :: rest => do
            let ((arms, otherwise), rest) ← readArms rest
            .ok ((arm :: arms, otherwise), rest)
          | rest => .ok (([arm], []), rest)
        else if isWord word "default" then do
          let (otherwise, rest) ← readDefaults rest
          .ok (([], otherwise), rest)
        else .error (.expecting ["case", "default"] rest)
      else .ok (([], []), skipBlanks cs) := by
  rw [readArms]
  split
  · split
    · rename_i h
      rw [h]
      rfl
    · rename_i h
      rw [h]
      simp only [bind, Except.bind]
      split
      · split
        · rename_i h
          simp only [h]
        · rename_i h
          simp only [h]
          split
          · rename_i hcomma
            simp only [hcomma]
          · rename_i hlast
            split
            · rename_i hcomma
              exact absurd hcomma (hlast _)
            · rfl
      · rfl
  · rfl

theorem readArms_space (cs : List Char) : readArms (' ' :: cs) = readArms cs := by
  have hname : name (' ' :: cs) = name cs := by simp [name]
  rw [readArms_eq, skipBlanks_space, hname, ← readArms_eq]

/-- The arm stands for a case. -/
def Arm (c : Case) (arm : CodeSet × LabelUse) : Prop := c.set = arm.1 ∧ arm.2.Names c.target

theorem readCase_listing {c : Case} (h : Listable c.set) :
    Reads separators readCase
      (' ' :: (Listing.set c.set ++ ':' :: ' ' :: Numeral.label c.target)) (Arm c) := by
  intro stop hstop rest
  obtain ⟨s, rfl, hset⟩ := set_listing h ':' (by decide)
    (' ' :: (Numeral.label c.target ++ stop :: rest))
  obtain ⟨use, huse, hlabel⟩ := label_listing c.target stop hstop rest
  refine ⟨(c.set, use), ⟨rfl, huse⟩, ?_⟩
  simp only [List.cons_append, List.append_assoc]
  refine Scan.bind_eq_ok.mpr ⟨_, (set_space _).trans hset, ?_⟩
  refine Scan.bind_eq_ok.mpr ⟨_, Scan.char_cons _ _, ?_⟩
  exact Scan.bind_eq_ok.mpr ⟨_, (label_space _).trans hlabel, rfl⟩

/-- The defaults of a switch are read back. -/
theorem readArms_default {otherwise : List Nat} (hne : otherwise ≠ []) (rest : List Char) :
    ∃ uses, List.Forall₂ (fun t use => use.Names t) otherwise uses ∧
      readArms ("default: ".toList ++ Listing.labels otherwise ++ '\n' :: rest) =
        .ok (([], uses), '\n' :: rest) := by
  obtain ⟨uses, huses, hread⟩ := labels_listing otherwise hne '\n' (by decide) rest
  refine ⟨uses, huses, ?_⟩
  have hname := name_word (w := "default".toList) (c := ':') (by decide) (by decide)
    (' ' :: (Listing.labels otherwise ++ '\n' :: rest))
  have hdefaults : readDefaults (':' :: ' ' :: (Listing.labels otherwise ++ '\n' :: rest)) =
      .ok (uses, '\n' :: rest) :=
    Scan.bind_eq_ok.mpr ⟨_, Scan.char_cons _ _, (labels_space _).trans hread⟩
  rw [List.append_assoc, readArms_eq]
  refine (if_pos rfl).trans ?_
  refine Scan.bind_eq_ok.mpr ⟨_, hname, ?_⟩
  exact Scan.bind_eq_ok.mpr ⟨_, hdefaults, rfl⟩

/-- A case of a switch is read back, and after a comma the arms that follow it are read. -/
theorem readArms_case {c : Case} (h : Listable c.set) (stop : Char) (hstop : stop ∈ separators)
    (rest : List Char) :
    ∃ arm, Arm c arm ∧ readArms (Listing.case c ++ stop :: rest) =
      match stop :: rest with
      | ',' :: rest => do
        let ((arms, otherwise), rest) ← readArms rest
        .ok ((arm :: arms, otherwise), rest)
      | rest => .ok (([arm], []), rest) := by
  obtain ⟨arm, harm, hread⟩ := readCase_listing h stop hstop rest
  refine ⟨arm, harm, ?_⟩
  have htext : Listing.case c ++ stop :: rest = "case".toList ++ ' ' ::
      (Listing.set c.set ++ ':' :: ' ' :: Numeral.label c.target ++ stop :: rest) := by
    have hcase : Listing.case c =
        "case ".toList ++ Listing.set c.set ++ ": ".toList ++ Numeral.label c.target := rfl
    simp only [hcase, List.append_assoc]
    rfl
  have hname := name_word (w := "case".toList) (c := ' ') (by decide) (by decide)
    (Listing.set c.set ++ ':' :: ' ' :: Numeral.label c.target ++ stop :: rest)
  rw [htext, readArms_eq]
  refine (if_pos rfl).trans ?_
  have hword : isWord (String.ofList "case".toList) "case" = true := rfl
  rw [List.cons_append] at hread
  simp only [hname, bind, Except.bind, hword, if_true, hread, skipBlanks_separator hstop]

theorem arms_eq_nil {cases : List Case} {otherwise : List Nat}
    (h : Listing.arms cases otherwise = []) : cases = [] ∧ otherwise = [] := by
  obtain ⟨hcases, hdefault⟩ := List.append_eq_nil_iff.mp h
  refine ⟨List.map_eq_nil_iff.mp hcases, ?_⟩
  cases otherwise with
  | nil => rfl
  | cons t ts => cases hdefault

/-- The arms of a switch are read back. -/
theorem readArms_listing {cases : List Case} (otherwise : List Nat)
    (h : ∀ c ∈ cases, Listable c.set) (hne : Listing.arms cases otherwise ≠ [])
    (rest : List Char) :
    ∃ arms uses, List.Forall₂ Arm cases arms ∧
      List.Forall₂ (fun t use => use.Names t) otherwise uses ∧
      readArms (Listing.commaSeparated (Listing.arms cases otherwise) ++ '\n' :: rest) =
        .ok ((arms, uses), '\n' :: rest) := by
  induction cases with
  | nil =>
    have hotherwise : otherwise ≠ [] := by
      rintro rfl
      exact hne rfl
    obtain ⟨uses, huses, hread⟩ := readArms_default hotherwise rest
    refine ⟨[], uses, .nil, huses, ?_⟩
    have htext : Listing.arms [] otherwise = ["default: ".toList ++ Listing.labels otherwise] :=
      if_neg (by simpa using hotherwise)
    rw [htext, listing_commaSeparated_singleton]
    exact hread
  | cons c cases ih =>
    obtain ⟨hc, hcases⟩ := List.forall_mem_cons.mp h
    by_cases hlast : Listing.arms cases otherwise = []
    · obtain ⟨arm, harm, hread⟩ := readArms_case hc '\n' (by decide) rest
      obtain ⟨rfl, rfl⟩ := arms_eq_nil hlast
      refine ⟨[arm], [], .cons harm .nil, .nil, ?_⟩
      have htext : Listing.arms [c] [] = [Listing.case c] := rfl
      rw [htext, listing_commaSeparated_singleton]
      exact hread
    · obtain ⟨arms, uses, harms, huses, hmore⟩ := ih hcases hlast
      obtain ⟨arm, harm, hread⟩ := readArms_case hc ',' (by decide)
        (' ' :: (Listing.commaSeparated (Listing.arms cases otherwise) ++ '\n' :: rest))
      refine ⟨arm :: arms, uses, .cons harm harms, huses, ?_⟩
      have htext : Listing.commaSeparated (Listing.arms (c :: cases) otherwise) =
          Listing.case c ++ ',' :: ' ' ::
            Listing.commaSeparated (Listing.arms cases otherwise) := by
        have hcons : Listing.arms (c :: cases) otherwise =
          Listing.case c :: Listing.arms cases otherwise := rfl
        rw [hcons, listing_commaSeparated_cons hlast]
      rw [htext, List.append_assoc]
      refine hread.trans ?_
      simp only [readArms_space]
      exact Scan.bind_eq_ok.mpr ⟨_, hmore, rfl⟩

/-! ## Instructions -/

/-- The instruction can be written down: it is made of code points, its sets can be written down, a
switch without cases has no defaults either, and numbers are within the bounds of the reader. -/
def ListableInstr : Instr → Prop
  | .char cp => cp ≤ maxCodePoint
  | .inside s | .outside s => Listable s
  | .switch cases otherwise => (∀ c ∈ cases, Listable c.set) ∧ (cases = [] → otherwise = [])
  | .save slot => slot < integerLimit
  | .accept symbol => fitsRuleId symbol = true
  | .insideCategory _ | .outsideCategory _ | .any | .jump _ => True

instance : (i : Instr) → Decidable (ListableInstr i)
  | .char cp => inferInstanceAs (Decidable (cp ≤ maxCodePoint))
  | .inside s | .outside s => inferInstanceAs (Decidable (Listable s))
  | .switch cases otherwise =>
    inferInstanceAs (Decidable ((∀ c ∈ cases, Listable c.set) ∧ (cases = [] → otherwise = [])))
  | .save slot => inferInstanceAs (Decidable (slot < integerLimit))
  | .accept symbol => inferInstanceAs (Decidable (fitsRuleId symbol = true))
  | .insideCategory _ | .outsideCategory _ | .any | .jump _ => inferInstanceAs (Decidable True)

/-- The item becomes the instruction when labels are replaced by the addresses they are named
after. -/
inductive Denotes : Item → Instr → Prop
  | instr (i : Instr) : Denotes (.instr i) i
  | jump {targets : List Nat} {uses : List LabelUse}
      (h : List.Forall₂ (fun t use => use.Names t) targets uses) :
      Denotes (.jump uses) (.jump targets)
  | switch {cases : List Case} {otherwise : List Nat} {arms : List (CodeSet × LabelUse)}
      {uses : List LabelUse} (hcases : List.Forall₂ Arm cases arms)
      (hotherwise : List.Forall₂ (fun t use => use.Names t) otherwise uses) :
      Denotes (.switch arms uses) (.switch cases otherwise)

theorem shown_commaSeparated {x : List Char} (h : Shown x) (xs : List (List Char)) :
    Shown (Listing.commaSeparated (x :: xs)) := by
  cases xs with
  | nil => rwa [listing_commaSeparated_singleton]
  | cons y ys =>
    rw [listing_commaSeparated_cons (by simp)]
    exact h.append _

theorem shown_set {s : CodeSet} (h : Listable s) : Shown (Listing.set s) := by
  unfold Listing.set
  cases hs : s.toList with
  | nil => exact absurd hs h.nonempty
  | cons r rs =>
    rw [List.map_cons]
    refine shown_commaSeparated ?_ _
    unfold Listing.range
    split
    · exact shown_quoted _
    · exact (shown_quoted _).append _

theorem shown_decimalInt (i : Int) : Shown (Numeral.decimalInt i) := by
  unfold Numeral.decimalInt
  split
  · exact ⟨'-', _, rfl, by decide, by decide, by decide⟩
  · exact shown_decimal _

theorem shown_labels (targets : List Nat) (hne : targets ≠ []) :
    Shown (Listing.labels targets) := by
  cases targets with
  | nil => exact absurd rfl hne
  | cons t ts => exact shown_commaSeparated ⟨'L', _, rfl, by decide, by decide, by decide⟩ _

theorem shown_arms {c : Case} (cases : List Case) (otherwise : List Nat) :
    Shown (Listing.commaSeparated (Listing.arms (c :: cases) otherwise)) :=
  shown_commaSeparated ⟨'c', _, rfl, by decide, by decide, by decide⟩ _

/-! ## Lines -/

theorem isWord_mnemonic (m : Mnemonic) : IsWord m.name.toList := by
  cases m <;> decide

/-- A mnemonic is read up to a blank or the end of the line, then its operands, and then the end of
the line or of the text. -/
theorem readStatement_mnemonic (m : Mnemonic) (c : Char) (operands : List Char)
    (hc : isNameChar c = false) {rest stop more : List Char} {statement : Statement}
    (hskip : skipBlanks (c :: rest) = operands) (hcolon : ∀ cs, operands ≠ ':' :: cs)
    (hread : ∀ site, readOperands m site operands = .ok (statement, stop))
    (hstop : endOfLine stop = .ok more) :
    readStatement (m.name.toList ++ c :: rest) = .ok (statement, more) := by
  have hmnemonic : Mnemonic.ofName? (String.ofList m.name.toList) = some m := by
    cases m <;> decide
  refine Scan.bind_eq_ok.mpr ⟨_, name_word (isWord_mnemonic m) hc rest, ?_⟩
  simp only [hskip, hmnemonic]
  refine Scan.bind_eq_ok.mpr ⟨_, hread _, ?_⟩
  exact Scan.bind_eq_ok.mpr ⟨_, hstop, rfl⟩

theorem readStatement_operation {m : Mnemonic} {operand stop more : List Char}
    {statement : Statement} (hshown : Shown operand)
    (hread : ∀ site, readOperands m site (operand ++ stop) = .ok (statement, stop))
    (hstop : endOfLine stop = .ok more) :
    readStatement (Listing.operation m operand ++ stop) = .ok (statement, more) := by
  have hshown := hshown.append stop
  have htext : Listing.operation m operand ++ stop =
      m.name.toList ++ ' ' :: (operand ++ stop) := by
    rw [Listing.operation, List.append_assoc, List.cons_append]
  rw [htext]
  refine readStatement_mnemonic m ' ' _ (by decide) ?_ ?_ hread hstop
  · rw [skipBlanks_space, hshown.skipBlanks]
  · intro cs heq
    obtain ⟨c, cs', hcons, -, hcolon, -⟩ := hshown
    rw [hcons] at heq
    exact hcolon (List.cons.inj heq).1

/-- The jump to some targets is read back. -/
theorem readStatement_jump (targets : List Nat) (more : List Char) :
    ∃ item, Denotes item (.jump targets) ∧
      readStatement (Listing.instr (.jump targets) ++ '\n' :: more) = .ok (.item item, more) := by
  cases targets with
  | nil =>
    refine ⟨.jump [], .jump .nil, ?_⟩
    exact readStatement_mnemonic .jump ' ' ('\n' :: more) (by decide) rfl
      (by simp) (fun _ => rfl) rfl
  | cons t ts =>
    obtain ⟨uses, huses, hread⟩ := labels_listing (t :: ts) (by simp) '\n' (by decide) more
    refine ⟨.jump uses, .jump huses, ?_⟩
    have hshown := shown_labels (t :: ts) (by simp)
    refine readStatement_operation hshown (fun site => ?_) rfl
    obtain ⟨c, cs, hcons, -, -, hblank⟩ := hshown.append ('\n' :: more)
    simp only [readOperands, (hshown.append ('\n' :: more)).skipBlanks]
    split
    · rename_i heq
      rw [hcons] at heq
      cases heq
    · rename_i heq
      rw [hcons] at heq
      rw [(List.cons.inj heq).1] at hblank
      cases hblank
    · exact Scan.bind_eq_ok.mpr ⟨_, hread, rfl⟩

/-- The switch between some cases and defaults is read back. -/
theorem readStatement_switch {cases : List Case} {otherwise : List Nat}
    (h : ∀ c ∈ cases, Listable c.set) (hdefault : cases = [] → otherwise = [])
    (more : List Char) :
    ∃ item, Denotes item (.switch cases otherwise) ∧
      readStatement (Listing.instr (.switch cases otherwise) ++ '\n' :: more) =
        .ok (.item item, more) := by
  cases cases with
  | nil =>
    obtain rfl := hdefault rfl
    refine ⟨.switch [] [], .switch .nil .nil, ?_⟩
    have harms : readArms ('\n' :: more) = .ok (([], []), '\n' :: more) := by
      rw [readArms_eq]
      rfl
    have hread : ∀ site, readOperands .switch site ('\n' :: more) =
        .ok (.item (.switch [] []), '\n' :: more) := fun _ =>
      Scan.bind_eq_ok.mpr ⟨_, harms, rfl⟩
    exact readStatement_mnemonic .switch '\n' ('\n' :: more) (by decide) rfl (by simp) hread rfl
  | cons c cases =>
    obtain ⟨arms, uses, harms, huses, hread⟩ :=
      readArms_listing otherwise h (List.cons_ne_nil _ _) more
    refine ⟨.switch arms uses, .switch harms huses, ?_⟩
    have hitem : ofArms (arms, uses) = .switch arms uses := by
      cases harms
      rfl
    refine readStatement_operation (shown_arms cases otherwise) (fun site => ?_) rfl
    refine Scan.bind_eq_ok.mpr ⟨_, hread, ?_⟩
    simp only [hitem]

/-- An instruction without targets is read back if its operand is. -/
theorem readStatement_complete {m : Mnemonic} {operand more : List Char} {i : Instr}
    (hshown : Shown operand)
    (hread : ∀ site, readOperands m site (operand ++ '\n' :: more) =
      .ok (.item (.instr i), '\n' :: more)) :
    ∃ item, Denotes item i ∧
      readStatement (Listing.operation m operand ++ '\n' :: more) = .ok (.item item, more) :=
  ⟨.instr i, .instr i, readStatement_operation hshown hread rfl⟩

/-- The end of a rule is read back, at the end of a line or of the text. -/
theorem readStatement_accept {symbol : Int} {stop more : List Char} (h : fitsRuleId symbol = true)
    (hdigit : stop.head?.bind Numeral.decimalValue? = none) (hstop : endOfLine stop = .ok more) :
    readStatement (Listing.instr (.accept symbol) ++ stop) =
      .ok (.item (.instr (.accept symbol)), more) := by
  have hbound : symbol.natAbs < integerLimit := by
    simp only [fitsRuleId, Bool.and_eq_true, decide_eq_true_eq] at h
    change symbol.natAbs < 9223372036854775808
    omega
  refine readStatement_operation (shown_decimalInt symbol) (fun site => ?_) hstop
  refine Scan.bind_eq_ok.mpr ⟨_, integer_decimalInt stop hdigit hbound, ?_⟩
  exact if_pos h

/-- The line of an instruction is read back. -/
theorem readStatement_instr {i : Instr} (h : ListableInstr i) (more : List Char) :
    ∃ item, Denotes item i ∧
      readStatement (Listing.instr i ++ '\n' :: more) = .ok (.item item, more) := by
  have hend : '\n' ∈ separators := by decide
  cases i with
  | jump targets => exact readStatement_jump targets more
  | switch cases otherwise => exact readStatement_switch h.1 h.2 more
  | any =>
    refine ⟨.instr .any, .instr _, ?_⟩
    exact readStatement_mnemonic .any '\n' ('\n' :: more) (by decide) rfl
      (by simp) (fun _ => rfl) rfl
  | char cp =>
    refine readStatement_complete (shown_quoted cp) fun site => ?_
    exact Scan.bind_eq_ok.mpr ⟨_, character_quoted h _, rfl⟩
  | inside s =>
    obtain ⟨_, rfl, hread⟩ := set_listing h '\n' (by decide) more
    refine readStatement_complete (shown_set h) fun site => ?_
    exact Scan.bind_eq_ok.mpr ⟨_, hread, rfl⟩
  | outside s =>
    obtain ⟨_, rfl, hread⟩ := set_listing h '\n' (by decide) more
    refine readStatement_complete (shown_set h) fun site => ?_
    exact Scan.bind_eq_ok.mpr ⟨_, hread, rfl⟩
  | insideCategory cat =>
    obtain ⟨_, rfl, hread⟩ := category_decimal cat '\n' hend more
    refine readStatement_complete (shown_decimal _) fun site => ?_
    exact Scan.bind_eq_ok.mpr ⟨_, hread, rfl⟩
  | outsideCategory cat =>
    obtain ⟨_, rfl, hread⟩ := category_decimal cat '\n' hend more
    refine readStatement_complete (shown_decimal _) fun site => ?_
    exact Scan.bind_eq_ok.mpr ⟨_, hread, rfl⟩
  | save slot =>
    refine readStatement_complete (shown_decimal slot) fun site => ?_
    refine Scan.bind_eq_ok.mpr ⟨_, integer_decimal ('\n' :: more) rfl h, ?_⟩
    exact if_neg (by simp)
  | accept symbol =>
    exact ⟨.instr (.accept symbol), .instr _, readStatement_accept h rfl rfl⟩

/-- The line of an instruction is read as an instruction, the same or another. -/
def ReadsAs (i j : Instr) : Prop :=
  ∀ more, ∃ item, Denotes item j ∧
    readStatement (Listing.instr i ++ '\n' :: more) = .ok (.item item, more)

/-- What an instruction is read back as. A switch without cases becomes the jump to its defaults, if
there are any. -/
def readBack : Instr → Instr
  | .switch [] (t :: ts) => .jump (t :: ts)
  | i => i

theorem readBack_eq_self {i : Instr} (h : ∀ otherwise, i = .switch [] otherwise → otherwise = []) :
    readBack i = i := by
  unfold readBack
  split
  · exact absurd (h _ rfl) (List.cons_ne_nil _ _)
  · rfl

theorem readsAs_readBack {i : Instr} (h : ListableInstr (readBack i)) : ReadsAs i (readBack i) := by
  intro more
  by_cases hi : ∀ otherwise, i = .switch [] otherwise → otherwise = []
  · rw [readBack_eq_self hi] at h ⊢
    exact readStatement_instr h more
  · push Not at hi
    obtain ⟨otherwise, rfl, hne⟩ := hi
    obtain ⟨uses, huses, hread⟩ := readArms_default hne more
    obtain ⟨t, ts, rfl⟩ := List.exists_cons_of_ne_nil hne
    refine ⟨.jump uses, .jump huses, ?_⟩
    have hitem : ofArms ([], uses) = .jump uses := by
      cases huses
      rfl
    have htext : Listing.commaSeparated (Listing.arms [] (t :: ts)) =
        "default: ".toList ++ Listing.labels (t :: ts) := listing_commaSeparated_singleton _
    have hshown : Shown (Listing.commaSeparated (Listing.arms [] (t :: ts))) := by
      rw [htext]
      exact ⟨'d', _, rfl, by decide, by decide, by decide⟩
    refine readStatement_operation hshown (fun site => ?_) rfl
    rw [htext]
    refine Scan.bind_eq_ok.mpr ⟨_, hread, ?_⟩
    simp only [hitem]

/-! ## Whole listings -/

theorem shown_operation (m : Mnemonic) (operand : List Char) :
    Shown (Listing.operation m operand) :=
  (isWord_mnemonic m).shown.append _

theorem shown_instr (i : Instr) : Shown (Listing.instr i) := by
  cases i with
  | any => exact (isWord_mnemonic .any).shown
  | switch cases otherwise =>
    cases cases with
    | nil =>
      cases otherwise with
      | nil => exact (isWord_mnemonic .switch).shown
      | cons t ts => exact shown_operation _ _
    | cons c cases => exact shown_operation _ _
  | _ => exact shown_operation _ _

/-- A statement that is read and added is followed by the statements after it. -/
theorem readStatements_step {d d' : Draft} {cs text rest : List Char} {statement : Statement}
    (hskip : skipLines false cs = text) (hshown : Shown text)
    (hread : readStatement text = .ok (statement, rest)) (hadd : d.add statement = .ok d') :
    readStatements d cs = readStatements d' rest := by
  obtain ⟨c, cs', rfl, -⟩ := hshown
  rw [readStatements]
  split
  · rename_i heq
    rw [hskip] at heq
    cases heq
  · rename_i heq
    rw [hskip] at heq
    cases heq
    split
    · rename_i heq
      rw [hread] at heq
      cases heq
    · rename_i heq
      rw [hread] at heq
      cases heq
      rw [hadd]
      rfl

/-- The draft has `n` instructions, and the labels of the addresses below `base`. -/
structure Reached (d : Draft) (n base : Nat) : Prop where
  length : d.items.length = n
  lookup : ∀ t, d.labels.lookup (labelName t) = if t < base then some t else none

theorem Reached.add_label {d : Draft} {n : Nat} (h : Reached d n n) (site : List Char) :
    ∃ d', d.add (.label (labelName n) site) = .ok d' ∧ d'.items = d.items ∧
      Reached d' n (n + 1) := by
  have hnew : d.labels.lookup (labelName n) = none := by
    rw [h.lookup, if_neg (Nat.lt_irrefl n)]
  refine ⟨{ d with labels := (labelName n, d.items.length) :: d.labels }, ?_, rfl, h.length, ?_⟩
  · simp [Draft.add, hnew]
  · intro t
    rw [List.lookup_cons, h.lookup, h.length]
    by_cases heq : t = n
    · simp [heq]
    · have hne : (labelName t == labelName n) = false := by simp [labelName_inj, heq]
      rw [hne]
      simp only [show t < n + 1 ↔ t < n by omega]

theorem Reached.add_item {d : Draft} {n base : Nat} (h : Reached d n base) (item : Item) :
    Reached { d with items := item :: d.items } (n + 1) base :=
  ⟨by simp [h.length], h.lookup⟩

/-- One line: the label of the next address, and an instruction. -/
theorem readStatements_line {d : Draft} {n : Nat} (hd : Reached d n n) {i j : Instr}
    (hi : ReadsAs i j) (more : List Char) :
    ∃ d' item, Denotes item j ∧ d'.items = item :: d.items ∧ Reached d' (n + 1) (n + 1) ∧
      readStatements d (Numeral.label n ++ ':' :: ' ' :: (Listing.instr i ++ '\n' :: more)) =
        readStatements d' more := by
  have hlabel : ∀ rest, readStatement (Numeral.label n ++ ':' :: rest) =
      .ok (.label (labelName n) (Numeral.label n ++ ':' :: rest), rest) := fun rest =>
    Scan.bind_eq_ok.mpr ⟨_, name_word (isWord_label n) (by decide) rest, rfl⟩
  have hshown := (isWord_label n).shown.append (':' :: ' ' :: (Listing.instr i ++ '\n' :: more))
  obtain ⟨d₁, hadd, hitems, hd₁⟩ := hd.add_label
    (Numeral.label n ++ ':' :: ' ' :: (Listing.instr i ++ '\n' :: more))
  obtain ⟨item, hitem, hread⟩ := hi more
  refine ⟨_, item, hitem, ?_, hd₁.add_item item, ?_⟩
  · rw [hitems]
  · rw [readStatements_step hshown.skipLines hshown (hlabel _) hadd]
    have hinstr := (shown_instr i).append ('\n' :: more)
    have hskip : skipLines false (' ' :: (Listing.instr i ++ '\n' :: more)) =
        Listing.instr i ++ '\n' :: more := hinstr.skipLines
    exact readStatements_step hskip hinstr hread rfl

/-- The lines of a listing are read one after the other. -/
theorem readStatements_lines {p q : Program} (h : List.Forall₂ ReadsAs p q) {d : Draft} {n : Nat}
    (hd : Reached d n n) :
    ∃ d' items, List.Forall₂ Denotes items q ∧ d'.items = items.reverse ++ d.items ∧
      Reached d' (n + p.length) (n + p.length) ∧
      readStatements d (Listing.linesFrom n p) = .ok d' := by
  induction h generalizing d n with
  | nil =>
    refine ⟨d, [], .nil, rfl, hd, ?_⟩
    rw [Listing.linesFrom, readStatements]
    rfl
  | @cons i j p q hi _ ih =>
    obtain ⟨d₁, item, hitem, hitems₁, hd₁, hline⟩ :=
      readStatements_line hd hi (Listing.linesFrom (n + 1) p)
    obtain ⟨d₂, items, hall, hitems₂, hd₂, hlines⟩ := ih hd₁
    refine ⟨d₂, item :: items, .cons hitem hall, ?_, ?_, ?_⟩
    · rw [hitems₂, hitems₁, List.reverse_cons, List.append_assoc]
      rfl
    · rw [List.length_cons, show n + (p.length + 1) = n + 1 + p.length by omega]
      exact hd₂
    · rw [Listing.linesFrom, hline]
      exact hlines

/-- The lines of a listing are read back. -/
theorem readStatements_linesFrom {p : Program} (h : ∀ i ∈ p, ListableInstr i) {d : Draft} {n : Nat}
    (hd : Reached d n n) :
    ∃ d' items, List.Forall₂ Denotes items p ∧ d'.items = items.reverse ++ d.items ∧
      Reached d' (n + p.length) (n + p.length) ∧
      readStatements d (Listing.linesFrom n p) = .ok d' :=
  readStatements_lines (List.forall₂_same.mpr fun i hi more => readStatement_instr (h i hi) more) hd

/-! ## Labels and addresses -/

theorem mapM_of_forall₂ {α β ε : Type} {f : α → Except ε β} {R : β → α → Prop} {as : List α}
    {bs : List β} (h : List.Forall₂ R bs as) (hf : ∀ b ∈ bs, ∀ a, R b a → f a = .ok b) :
    as.mapM f = .ok bs := by
  induction h with
  | nil => rfl
  | cons hhead _ ih =>
    obtain ⟨hb, hbs⟩ := List.forall_mem_cons.mp hf
    rw [List.mapM_cons, hb _ hhead, ih hbs]
    rfl

/-- A label that was read is replaced by the address it is named after. -/
theorem Reached.address {d : Draft} {m n : Nat} (h : Reached d m n) {t : Nat} (ht : t < n)
    {use : LabelUse} (huse : use.Names t) : d.address use = .ok t := by
  unfold Draft.address
  rw [huse, h.lookup, if_pos ht]

theorem Reached.resolve {d : Draft} {m n : Nat} (h : Reached d m n) {item : Item} {i : Instr}
    (hitem : Denotes item i) (htargets : ∀ t ∈ i.targets, t < n) : d.resolve item = .ok i := by
  cases hitem with
  | instr i => rfl
  | jump huses =>
    have hmap := mapM_of_forall₂ (f := d.address) huses fun t ht use => h.address (htargets t ht)
    exact Scan.bind_eq_ok.mpr ⟨_, hmap, rfl⟩
  | @switch cases otherwise arms uses hcases huses =>
    rw [Instr.targets, List.forall_mem_append, List.forall_mem_map] at htargets
    have hotherwise := mapM_of_forall₂ (f := d.address) huses fun t ht use =>
      h.address (htargets.2 t ht)
    refine Scan.bind_eq_ok.mpr ⟨cases, mapM_of_forall₂ hcases ?_, ?_⟩
    · rintro c hc ⟨set, use⟩ ⟨rfl, huse⟩
      exact Scan.bind_eq_ok.mpr ⟨_, h.address (htargets.1 c hc) huse, rfl⟩
    · exact Scan.bind_eq_ok.mpr ⟨_, hotherwise, rfl⟩

end FiberLex.Assembler

namespace FiberLex.Program

open Assembler

/-- The targets of a program that passes the check are addresses of the program. -/
theorem lt_length_of_validate {p : Program} (h : p.validate = .ok ()) {i : Instr} (hi : i ∈ p)
    {t : Nat} (ht : t ∈ i.targets) : t < p.length := by
  unfold validate at h
  split at h
  · cases h
  · split at h
    · rename_i hnone
      rw [firstInvalid?, List.findSome?_eq_none_iff] at hnone
      obtain ⟨k, hk⟩ := List.getElem?_of_mem hi
      have hfind := hnone (i, k) (List.mk_mem_zipIdx_iff_getElem?.mpr hk)
      rw [Option.map_eq_none_iff, List.find?_eq_none] at hfind
      simpa using hfind t ht
    · cases h

/-- Assembling the listing of a program gives the program back. -/
theorem assemble_listing {p : Program} (hvalid : p.validate = .ok ())
    (h : ∀ i ∈ p, ListableInstr i) : assemble p.listing = .ok p := by
  have hempty : Reached {} 0 0 := ⟨rfl, fun t => rfl⟩
  obtain ⟨d, items, hitems, hdraft, hd, hread⟩ := readStatements_linesFrom h hempty
  have hresolve : d.items.reverse.mapM d.resolve = .ok p := by
    rw [hdraft, List.append_nil, List.reverse_reverse]
    refine mapM_of_forall₂ (List.Forall₂.flip hitems) fun i hi item hitem => ?_
    refine hd.resolve hitem fun t ht => ?_
    rw [Nat.zero_add]
    exact lt_length_of_validate hvalid hi ht
  have hprogram : readProgram p.listing.toList = .ok p := by
    rw [listing, String.toList_ofList]
    refine Scan.bind_eq_ok.mpr ⟨_, hread, ?_⟩
    refine Scan.bind_eq_ok.mpr ⟨_, hresolve, ?_⟩
    rw [hvalid]
    rfl
  rw [assemble, hprogram]
  rfl

/-- A program with a surrogate, quotes, a backslash, a semicolon, blanks, a control character, empty
forms of `jump` and `switch`, and numbers at their bounds. -/
def oddities : Program := [
  .save 9223372036854775807, .char 0xD800, .char 0x22, .char 0x27, .char 0x5C, .char 0x3B,
  .char 0x0A, .char 0x20, .char 0xA0, .char 0x7F, .char 0x10FFFF,
  .inside #[⟨0x20, 0x22⟩, ⟨0x2C, 0x2C⟩, ⟨0x3A, 0x10FFFF⟩], .outside #[⟨0xD800, 0xDFFF⟩],
  .insideCategory .surrogate, .outsideCategory .notAssigned, .any,
  .switch [⟨#[⟨0x2C, 0x2E⟩, ⟨0x3B, 0x3B⟩], 0⟩, ⟨#[⟨0, 9⟩], 20⟩] [1, 2], .switch [] [], .jump [],
  .jump [3, 3, 0], .accept (-2147483648)]

theorem assemble_listing_oddities :
    oddities.validate = .ok () ∧ (∀ i ∈ oddities, ListableInstr i) ∧
      assemble oddities.listing = .ok oddities := by
  have hvalid : oddities.validate = .ok () := rfl
  have hlistable : ∀ i ∈ oddities, ListableInstr i := by decide
  exact ⟨hvalid, hlistable, assemble_listing hvalid hlistable⟩

end FiberLex.Program
