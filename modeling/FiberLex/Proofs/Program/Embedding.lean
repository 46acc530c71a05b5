import FiberLex.Proofs.Pattern.Embedded
import FiberLex.Proofs.Program.OrderedChoice
import FiberLex.Proofs.Program.RoundTrip

/-!
# Patterns in the text of a program

`regex (…)` stands for the code of a pattern, moved to where it stands. What is between the
parentheses is read as a pattern only: blanks, semicolons, quotes and ends of lines in it are
characters to match, and the parenthesis that ends it is the one that closes no group of the pattern.
So a rule that is written as its pattern and its end has the code that the pattern has on its own
(`assemble_regex`).
-/

namespace FiberLex.Assembler

open Operand

/-! ## Statements -/

/-- The instruction that stands for the code of a pattern. -/
def regexLine (text : String) : List Char :=
  Listing.operation .regex ('(' :: (text.toList ++ [')']))

theorem shown_regexLine (text : String) : Shown (regexLine text) := shown_operation _ _

/-- A pattern in parentheses is read back, whatever characters it is made of. -/
theorem readStatement_regexLine {text : String} {p : Pattern} (h : Pattern.parse text = .ok p)
    (more : List Char) :
    readStatement (regexLine text ++ '\n' :: more) = .ok (.pattern p, more) := by
  have hpattern : Pattern.readEmbedded true (text.toList ++ ')' :: '\n' :: more) =
      .ok (p, ')' :: '\n' :: more) :=
    Pattern.readEmbedded_eq_ok_iff.mpr ⟨.inr ⟨_, rfl⟩, text, rfl, h⟩
  refine readStatement_operation ⟨'(', _, rfl, by decide, by decide, by decide⟩ (fun site => ?_) rfl
  rw [List.cons_append, List.append_assoc]
  exact Scan.bind_eq_ok.mpr ⟨_, rfl, Scan.bind_eq_ok.mpr ⟨_, hpattern, rfl⟩⟩

/-- An instruction without targets adds itself. -/
theorem readStatements_instr {i : Instr} (h : ListableInstr i)
    (hcomplete : ∀ item, Denotes item i → item = .instr i) (d : Draft) (more : List Char) :
    readStatements d (Listing.instr i ++ '\n' :: more) =
      readStatements { d with items := .instr i :: d.items } more := by
  obtain ⟨item, hitem, hread⟩ := readStatement_instr h more
  obtain rfl := hcomplete item hitem
  have hshown := (shown_instr i).append ('\n' :: more)
  exact readStatements_step hshown.skipLines hshown hread rfl

/-- Lines that say `any` add as many instructions. -/
theorem readStatements_anyLines (k : Nat) (d : Draft) (more : List Char) :
    readStatements d ((String.join (List.replicate k "any\n")).toList ++ more) =
      readStatements { d with items := List.replicate k (.instr .any) ++ d.items } more := by
  induction k generalizing d with
  | zero => rfl
  | succ k ih =>
    have hline := readStatements_instr (i := .any) trivial (fun _ h => by cases h; rfl) d
      ((String.join (List.replicate k "any\n")).toList ++ more)
    rw [List.replicate_succ, String.join_cons, String.toList_append, List.append_assoc]
    refine hline.trans ((ih _).trans ?_)
    rw [List.replicate_succ', List.append_assoc, List.singleton_append]

/-- A pattern adds its code, moved to the next address. -/
theorem readStatements_regexLine {text : String} {p : Pattern} (h : Pattern.parse text = .ok p)
    {body : Program} (hbody : Program.ofPattern p = .ok body) (d : Draft) (more : List Char) :
    readStatements d (regexLine text ++ '\n' :: more) =
      readStatements
        { d with items := ((body.relocate d.items.length).map .instr).reverse ++ d.items } more := by
  have hshown := (shown_regexLine text).append ('\n' :: more)
  refine readStatements_step hshown.skipLines hshown (readStatement_regexLine h more) ?_
  rw [Draft.add, hbody]
  rfl

/-- The end of a rule may be the end of the text. -/
theorem readStatements_accept {symbol : Int} (h : fitsRuleId symbol = true) (d : Draft) :
    readStatements d (Listing.instr (.accept symbol)) =
      .ok { d with items := .instr (.accept symbol) :: d.items } := by
  have hshown := shown_instr (.accept symbol)
  have hread : readStatement (Listing.instr (.accept symbol) ++ []) =
    .ok (.item (.instr (.accept symbol)), []) := readStatement_accept h rfl rfl
  rw [List.append_nil] at hread
  rw [readStatements_step hshown.skipLines hshown hread rfl, readStatements]
  rfl

/-! ## Whole texts -/

theorem mapM_resolve_instr (d : Draft) (p : Program) : (p.map .instr).mapM d.resolve = .ok p :=
  mapM_of_forall₂ (R := fun i item => item = .instr i)
    (List.forall₂_map_right_iff.mpr (List.forall₂_same.mpr fun _ _ => rfl))
    fun _ _ _ h => h ▸ rfl

/-- A text without labels is the program of its instructions if the program can run. -/
theorem readProgram_of_readStatements {cs : List Char} {d : Draft} {p : Program}
    (hread : readStatements {} cs = .ok d) (hitems : d.items.reverse = p.map .instr)
    (hvalid : p.validate = .ok ()) : readProgram cs = .ok p := by
  refine Scan.bind_eq_ok.mpr ⟨d, hread, Scan.bind_eq_ok.mpr ⟨p, ?_, ?_⟩⟩
  · rw [hitems, mapM_resolve_instr]
  · rw [hvalid]
    rfl

end FiberLex.Assembler

namespace FiberLex.Program

open Assembler

theorem relocate_terminate (body : Program) (symbol : Int) (offset : Nat) :
    relocate (body.terminate symbol) offset = body.relocate offset ++ [.save 1, .accept symbol] :=
  List.map_append

/-- A fragment can run behind instructions without targets, once it is moved there. -/
theorem SelfContained.runnable_behind {fragment : Program} (h : SelfContained fragment)
    {before : Program} (hbefore : ∀ i ∈ before, i.targets = []) :
    Runnable (before ++ fragment.relocate before.length) := by
  refine ⟨fun hnil => ?_, targetsBelow_append.mpr ⟨fun i hi t ht => ?_, ?_⟩⟩
  · have hlength := congrArg List.length hnil
    rw [List.length_append, length_relocate, List.length_nil] at hlength
    exact h.ne_nil (List.eq_nil_of_length_eq_zero (by omega))
  · rw [hbefore i hi] at ht
    cases ht
  · refine (h.targetsBelow.relocate before.length).mono ?_
    rw [List.length_append, length_relocate, Nat.add_comm]

/-- A rule that is written as its pattern and its end is read back behind lines that say `any`. -/
theorem readProgram_rule {text : String} {p : Pattern} (hp : Pattern.parse text = .ok p)
    {symbol : Int} (hsymbol : fitsRuleId symbol = true) (k : Nat) :
    ∃ rule, ofRule p symbol = .ok rule ∧
      readProgram ((String.join (List.replicate k "any\n")).toList ++ (regexLine text ++ '\n' ::
          (Listing.instr (.save 1) ++ '\n' :: Listing.instr (.accept symbol)))) =
        .ok (List.replicate k .any ++ rule.relocate k) := by
  obtain ⟨rule, hrule, hcontained⟩ := exists_ofRule (Pattern.wellFormed_parse hp).inOrder symbol
  refine ⟨rule, hrule, ?_⟩
  obtain ⟨body, hbody, hend⟩ := Scan.bind_eq_ok.mp hrule
  cases hend
  have hread : readStatements {} ((String.join (List.replicate k "any\n")).toList ++
        (regexLine text ++ '\n' :: (Listing.instr (.save 1) ++
          '\n' :: Listing.instr (.accept symbol)))) =
      .ok ⟨.instr (.accept symbol) :: .instr (.save 1) ::
        (((body.relocate k).map .instr).reverse ++ List.replicate k (.instr .any)), []⟩ := by
    rw [readStatements_anyLines, readStatements_regexLine hp hbody,
      readStatements_instr (by decide) (fun _ h => by cases h; rfl),
      readStatements_accept hsymbol]
    simp
  have hvalid : validate (List.replicate k .any ++ relocate (body.terminate symbol) k) = .ok () := by
    have hany : ∀ i ∈ List.replicate k Instr.any, i.targets = [] := fun i hi => by
      rw [(List.mem_replicate.mp hi).2]
      rfl
    have hrunnable := hcontained.runnable_behind hany
    rw [List.length_replicate] at hrunnable
    exact hrunnable.validate
  exact readProgram_of_readStatements hread (by simp [relocate_terminate]) hvalid

/-- **Embedded rules.** A pattern in the text of a program has the code that it has on its own, moved
behind the instructions in front of it, and the end of the rule follows. -/
theorem assemble_regex {text : String} {p : Pattern} (hp : Pattern.parse text = .ok p)
    {symbol : Int} (hsymbol : -2 ^ 31 ≤ symbol ∧ symbol < 2 ^ 31) (k : Nat) :
    ∃ rule, ofRule p symbol = .ok rule ∧
      assemble (String.join (List.replicate k "any\n") ++ "regex (" ++ text ++
          ")\nsave 1\nmatch " ++ String.ofList (Numeral.decimalInt symbol)) =
        .ok (List.replicate k .any ++ rule.relocate k) := by
  have hfits : fitsRuleId symbol = true := by
    simp only [fitsRuleId, Bool.and_eq_true, decide_eq_true_eq]
    omega
  obtain ⟨rule, hrule, hread⟩ := readProgram_rule hp hfits k
  refine ⟨rule, hrule, ?_⟩
  have htext : (String.join (List.replicate k "any\n") ++ "regex (" ++ text ++
        ")\nsave 1\nmatch " ++ String.ofList (Numeral.decimalInt symbol)).toList =
      (String.join (List.replicate k "any\n")).toList ++ (regexLine text ++ '\n' ::
        (Listing.instr (.save 1) ++ '\n' :: Listing.instr (.accept symbol))) := by
    have hone : Numeral.decimal 1 = ['1'] := by decide +kernel
    simp [regexLine, Listing.operation, Listing.instr, Mnemonic.name, hone]
  rw [assemble, htext, hread]
  rfl

/-- A pattern with an escaped and a plain pair of parentheses, a quote, a semicolon and the end of a
line, behind two other instructions. -/
theorem assemble_regex_semicolon :
    let p := Pattern.concat [.literal 0x28, .repetition (.concat [.literal 0x22, .literal 0x3B]) 0
      none false, .literal 0x0A]
    (Pattern.parse "\\((\";)*\n" = .ok p ∧ -2 ^ 31 ≤ (-7 : Int) ∧ (-7 : Int) < 2 ^ 31) ∧
      ∃ rule, ofRule p (-7) = .ok rule ∧
        assemble (String.join (List.replicate 2 "any\n") ++ "regex (" ++ "\\((\";)*\n" ++
            ")\nsave 1\nmatch " ++ String.ofList (Numeral.decimalInt (-7))) =
          .ok (List.replicate 2 .any ++ rule.relocate 2) := by
  intro p
  have hp : Pattern.parse "\\((\";)*\n" = .ok p := by cbv
  have hsymbol : -2 ^ 31 ≤ (-7 : Int) ∧ (-7 : Int) < 2 ^ 31 := by decide
  exact ⟨⟨hp, hsymbol⟩, assemble_regex hp hsymbol 2⟩

end FiberLex.Program
