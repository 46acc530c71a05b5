import FiberLex.Proofs.Lexer.Reassembly
import FiberLex.Proofs.Machine.Room

/-!
# Lexers have room

The code of patterns and automata records nothing but where a match ends, and linking adds where it
begins. So a lexer records in other slots than the first two only if a rule that is a program does,
and if there can be room for those, nothing that the lexer does is broken off
(`Lexer.not_broken_off`).
-/

namespace FiberLex

/-- If the rule is a program, it records in slots for which there can be room. -/
def Rule.SlotsFit (r : Rule) : Prop := ∀ body, r.body = .program body → body.SlotsFit

namespace Program

/-! ## Code -/

theorem slots_mapTargets (f : Nat → Nat) (i : Instr) : (i.mapTargets f).slots = i.slots := by
  cases i <;> rfl

theorem kept_slots : Kept fun i => i.slots ≤ slotLimit where
  mapTargets {i} h f := by rwa [slots_mapTargets]
  jump _ := Nat.zero_le _
  save slot hslot := Nat.le_trans hslot (by decide)
  fallback := by decide

theorem plain_slots : Plain fun i => i.slots ≤ slotLimit where
  jump _ := Nat.zero_le _
  char _ _ := Nat.zero_le _
  any := Nat.zero_le _
  ofRanges _ _ := ⟨Nat.zero_le _, Nat.zero_le _⟩
  category _ := ⟨Nat.zero_le _, Nat.zero_le _⟩

theorem slots_end_le (symbol : Int) :
    ∀ i ∈ [.save 1, .accept symbol], Instr.slots i ≤ slotLimit :=
  List.forall_mem_cons.mpr ⟨by decide, List.forall_mem_singleton.mpr (Nat.zero_le _)⟩

theorem SlotsFit.terminate {p : Program} (h : p.SlotsFit) (symbol : Int) :
    (p.terminate symbol).SlotsFit := by
  rw [slotsFit_iff] at h ⊢
  exact List.forall_mem_append.mpr ⟨h, slots_end_le symbol⟩

theorem slotsFit_ofText (text : List Char) : (ofText text).SlotsFit :=
  slotsFit_iff.mpr (List.forall_mem_map.mpr fun _ _ => Nat.zero_le _)

theorem slotsFit_ofRule {p : Pattern} (h : p.Legible) {symbol : Int} {code : Program}
    (hok : ofRule p symbol = .ok code) : code.SlotsFit := by
  obtain ⟨body, hbody, hok⟩ := Scan.bind_eq_ok.mp hok
  cases hok
  exact SlotsFit.terminate (slotsFit_iff.mpr (plain_slots.code h 0 body hbody)) symbol

theorem slots_stateCode (a : Automaton) (l : Layout) (base i : Nat) :
    ∀ j ∈ stateCode a l base i, j.slots ≤ slotLimit := by
  unfold stateCode
  dsimp only
  generalize List.filterMap (l.address? a) _ ++ _ = exits
  split
  · exact List.forall_mem_singleton.mpr (Nat.zero_le _)
  · split
    · exact List.forall_mem_singleton.mpr (Nat.zero_le _)
    · exact List.forall_mem_cons.mpr ⟨Nat.zero_le _, List.forall_mem_singleton.mpr (Nat.zero_le _)⟩

theorem slotsFit_ofAutomaton {a : Automaton} {code : Program} (hok : ofAutomaton a = .ok code) :
    code.SlotsFit := by
  obtain ⟨symbols, -, hok⟩ := Scan.bind_eq_ok.mp hok
  cases hok
  rw [slotsFit_iff, List.forall_mem_append, List.forall_mem_flatMap, List.forall_mem_flatMap]
  exact ⟨fun q _ => slots_stateCode a _ q.2 q.1, fun symbol _ => slots_end_le symbol⟩

end Program

namespace Lexer

/-! ## Rules -/

theorem slotsFit_of_lower {r : Rule} (h : r.SlotsFit) {optimize : Bool} {code : Program}
    (hok : lower optimize r = .ok (.fragment code)) : code.SlotsFit := by
  obtain ⟨symbol, body⟩ := r
  cases body with
  | pattern text =>
    obtain ⟨p, hp, hok⟩ := Scan.bind_eq_ok.mp hok
    have hlegible := Pattern.legible_parse (mapError_eq_ok_iff.mp hp)
    split at hok
    · obtain ⟨a, -, hok⟩ := Scan.bind_eq_ok.mp hok
      cases hok
    · obtain ⟨code, hcode, hok⟩ := Scan.bind_eq_ok.mp hok
      cases hok
      exact Program.slotsFit_ofRule hlegible (mapError_eq_ok_iff.mp hcode)
  | patternAnyCase text =>
    obtain ⟨a, -, hok⟩ := Scan.bind_eq_ok.mp hok
    obtain ⟨b, -, hok⟩ := Scan.bind_eq_ok.mp hok
    cases hok
  | literal text =>
    cases optimize with
    | true => cases hok
    | false =>
      cases hok
      exact (Program.slotsFit_ofText _).terminate symbol
  | program body =>
    cases hok
    exact (h body rfl).terminate symbol

theorem slotsFit_of_mem_flush {pending : List (Int × Automaton)} {code : List Program}
    {log : List Progress} (hok : flush pending = .ok (code, log)) : ∀ f ∈ code, f.SlotsFit := by
  unfold flush at hok
  split at hok
  · cases hok
    simp
  · obtain ⟨f, hf, hok⟩ := Scan.bind_eq_ok.mp hok
    cases hok
    exact List.forall_mem_singleton.mpr
      (Program.slotsFit_ofAutomaton (mapError_eq_ok_iff.mp hf))

variable {rules : List Rule}

/-- The fragments of rules have slots that fit, whatever waits to be merged. -/
theorem slotsFit_of_mem_fragments (h : ∀ r ∈ rules, r.SlotsFit) {optimize : Bool}
    {pending : List (Int × Automaton)} {code : List Program} {log : List Progress}
    (hok : fragments optimize pending rules = .ok (code, log)) : ∀ f ∈ code, f.SlotsFit := by
  induction rules generalizing pending code log with
  | nil =>
    rw [fragments] at hok
    exact slotsFit_of_mem_flush hok
  | cons r rules ih =>
    obtain ⟨hr, hrules⟩ := List.forall_mem_cons.mp h
    rcases fragments_cons_eq_ok hok with ⟨a, hlower, hcase⟩ | ⟨c, now, later, _, _, hlower, hnow,
      hlater, rfl⟩
    · rcases hcase with ⟨-, hrest⟩ | ⟨-, now, later, _, _, hnow, hlater, rfl⟩
      · exact ih hrules hrest
      · exact List.forall_mem_append.mpr ⟨slotsFit_of_mem_flush hnow, ih hrules hlater⟩
    · exact List.forall_mem_append.mpr ⟨slotsFit_of_mem_flush hnow,
        List.forall_mem_cons.mpr ⟨slotsFit_of_lower hr hlower, ih hrules hlater⟩⟩

/-! ## Lexers -/

theorem slotsFit_build (h : ∀ r ∈ rules, r.SlotsFit) {optimize : Bool} {l : Lexer}
    {log : List Progress} (hok : build rules optimize = .ok (l, log)) : l.program.SlotsFit := by
  obtain ⟨⟨code, log'⟩, hcode, hok⟩ := Scan.bind_eq_ok.mp hok
  obtain ⟨l', hl, hok⟩ := Scan.bind_eq_ok.mp hok
  cases hok
  obtain ⟨-, -, hl⟩ := Scan.bind_eq_ok.mp hl
  cases hl
  have hlink := Program.kept_slots.linkFragments fun f hf =>
    Program.slotsFit_iff.mp (slotsFit_of_mem_fragments h hcode f hf)
  rw [Program.slotsFit_iff]
  cases optimize with
  | true =>
    exact Program.kept_slots.foldRoot (fun _ _ _ => Nat.zero_le _)
      (Program.kept_slots.removeDeadCode hlink)
  | false => exact hlink

/-- A lexer whose own programs have room is never broken off: it finds a token, tells a match and
splits a text as it is said of lexers that have room. -/
theorem not_broken_off (h : ∀ r ∈ rules, r.SlotsFit) {optimize : Bool} {l : Lexer}
    {log : List Progress} (hok : build rules optimize = .ok (l, log)) :
    (∀ cur, (Machine.ofProgram l.program).run? cur = some (l.run cur)) ∧
      (∀ text, ((Machine.ofProgram l.program).isMatch? text).map (·.1) = some (l.isMatch text)) ∧
      ∀ text, l.tokenize? text = some (l.tokenize text) := by
  have hfits := slotsFit_build h hok
  refine ⟨fun cur => Machine.run?_eq_some hfits rfl cur, fun text => ?_, fun text => ?_⟩
  · rw [Machine.isMatch?_eq_some hfits rfl, Option.map_some, isMatch]
  · rw [tokenize?, Tokenizer.tokens?_eq_some hfits _ rfl, Option.map_some, tokenize]

end Lexer

end FiberLex
