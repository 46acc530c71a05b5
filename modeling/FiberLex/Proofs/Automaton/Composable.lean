import FiberLex.Automaton.OfPattern
import FiberLex.Proofs.Automaton.Copies
import FiberLex.Proofs.Lists

/-!
# Kinds of automata that compositions keep

Compositions are made of a few steps: they add states without edges, epsilons and symbols, let
accepting states forward, and copy states. A kind of automata that each step leads to again is kept
by all compositions, so it holds the automaton of a pattern if it holds those of the code points and
classes in it (`Composable.ofPattern`).
-/

namespace FiberLex

namespace Automaton

/-- A kind of valid automata that holds those of one state without edges and that every step of a
composition leads to again. -/
structure Composable (C : Automaton → Prop) : Prop where
  valid : ∀ {a : Automaton}, C a → a.Valid
  new : C new
  empty : ∀ symbol, C (empty symbol)
  addState : ∀ {a : Automaton}, C a → ∀ accepting symbol, C (a.addState accepting symbol).1
  addEpsilon : ∀ {a : Automaton}, C a → ∀ source {target : Nat}, target < a.states.size →
    C (a.addEpsilon source target)
  forwardAll : ∀ {a : Automaton}, C a → ∀ sources {target : Nat}, target < a.states.size →
    C (a.forwardAll sources target)
  setSymbol : ∀ {a : Automaton}, C a → ∀ symbol, C (a.setSymbol symbol)
  absorb : ∀ {a b : Automaton}, C a → C b → C (a.absorb b).1
  compact : ∀ {a : Automaton}, C a → C a.compact

namespace Composable

variable {C : Automaton → Prop} {a b : Automaton} {parts : List Automaton}

/-! ## Sequences and choices -/

theorem append (hC : Composable C) (ha : C a) (hb : C b) : C (a.append b) :=
  hC.forwardAll (hC.absorb ha hb) _ (snd_absorb_lt a (hC.valid hb))

/-- Automata may be taken in one after the other. -/
theorem foldl {f : Automaton → Automaton → Automaton} (hf : ∀ {a b}, C a → C b → C (f a b))
    (ha : C a) (h : ∀ p ∈ parts, C p) : C (parts.foldl f a) := by
  induction parts generalizing a with
  | nil => exact ha
  | cons p parts ih =>
    obtain ⟨hp, hparts⟩ := List.forall_mem_cons.mp h
    exact ih (hf ha hp) hparts

theorem concat (hC : Composable C) (h : ∀ p ∈ parts, C p) (symbol : Option Int) :
    C (concat parts symbol) := by
  cases parts with
  | nil => exact hC.empty symbol
  | cons first rest =>
    obtain ⟨hfirst, hrest⟩ := List.forall_mem_cons.mp h
    exact hC.setSymbol (foldl hC.append (hC.compact hfirst) hrest) symbol

theorem addBranch (hC : Composable C) (ha : C a) (hb : C b) : C (a.addBranch b).1 :=
  hC.addEpsilon (hC.absorb ha hb) _ (snd_absorb_lt a (hC.valid hb))

theorem addBranches (hC : Composable C) (ha : C a) (h : ∀ p ∈ parts, C p) :
    C (a.addBranches parts).1 := by
  induction parts generalizing a with
  | nil => exact ha
  | cons p parts ih =>
    obtain ⟨hp, hparts⟩ := List.forall_mem_cons.mp h
    exact ih (hC.addBranch ha hp) hparts

/-- A last state to which others forward. -/
theorem joined (hC : Composable C) (ha : C a) (ends : List Nat) (symbol : Option Int) :
    C ((a.addState true symbol).1.forwardAll ends a.states.size) ∧
      a.states.size < ((a.addState true symbol).1.forwardAll ends a.states.size).states.size := by
  have hlast : a.states.size < (a.addState true symbol).1.states.size := by
    rw [size_addState]
    exact Nat.lt_succ_self _
  exact ⟨hC.forwardAll (hC.addState ha true symbol) ends hlast, by rwa [size_forwardAll]⟩

theorem choice (hC : Composable C) (h : ∀ p ∈ parts, C p) (symbol : Option Int) :
    C (choice parts symbol) := by
  obtain ⟨hjoined, hlast⟩ :=
    hC.joined (hC.addBranches hC.new h) (Automaton.new.addBranches parts).2 symbol
  rw [Automaton.choice]
  simp only
  split
  · exact hC.addEpsilon hjoined _ hlast
  · exact hjoined

theorem merged (hC : Composable C) (h : ∀ p ∈ parts, C p) : C (merged parts) :=
  foldl hC.addBranch hC.new h

/-! ## Repetitions -/

theorem enclosed (hC : Composable C) (ha : C a) (symbol : Option Int) :
    C (a.enclosed symbol).1 ∧ (a.enclosed symbol).2 < (a.enclosed symbol).1.states.size :=
  hC.joined (hC.addBranch hC.new ha) _ symbol

theorem optional (hC : Composable C) (ha : C a) (symbol : Option Int) :
    C (a.optional symbol) := by
  obtain ⟨henclosed, hlast⟩ := hC.enclosed ha symbol
  exact hC.addEpsilon henclosed _ hlast

theorem plus (hC : Composable C) (ha : C a) (symbol : Option Int) : C (a.plus symbol) := by
  obtain ⟨henclosed, -⟩ := hC.enclosed ha symbol
  exact hC.addEpsilon henclosed _ (hC.valid henclosed).start_lt

theorem star (hC : Composable C) (ha : C a) (symbol : Option Int) : C (a.star symbol) := by
  have hoptional := hC.optional ha symbol
  exact hC.addEpsilon hoptional _ (hC.valid hoptional).start_lt

theorem repeated (hC : Composable C) (ha : C a) {min : Nat} {max : Option Nat}
    {symbol : Option Int} (hok : a.repeated min max symbol = .ok b) : C b := by
  have hcopies : ∀ {p : Automaton}, C p → ∀ n, ∀ q ∈ List.replicate n p, C q :=
    fun hp n q hq => List.eq_of_mem_replicate hq ▸ hp
  unfold Automaton.repeated at hok
  split at hok
  · cases hok
    exact hC.star ha symbol
  · cases hok
    exact hC.star ha symbol
  · cases hok
    exact hC.optional ha symbol
  · cases hok
    exact hC.plus ha symbol
  · cases hok
    exact hC.setSymbol (hC.compact ha) symbol
  · cases hok
    refine hC.concat (List.forall_mem_append.mpr ⟨hcopies ha _, ?_⟩) symbol
    exact List.forall_mem_singleton.mpr (hC.star ha none)
  · split at hok
    · cases hok
    · cases hok
      exact hC.concat
        (List.forall_mem_append.mpr ⟨hcopies ha _, hcopies (hC.optional ha none) _⟩) symbol

end Composable

end Automaton

/-! ## Patterns -/

namespace Pattern

variable {P : Nat → Prop} {Q : CodeSet → Prop}

/-- All literals of the pattern have one property and all its classes have another. -/
inductive MadeOf (P : Nat → Prop) (Q : CodeSet → Prop) : Pattern → Prop where
  | literal {cp : Nat} (h : P cp) : MadeOf P Q (literal cp)
  | dot (h : Q dotSet) : MadeOf P Q dot
  | oneOf {set : CodeSet} {negated : Bool} (h : Q (set.negateIf negated)) :
    MadeOf P Q (oneOf set negated)
  | category {cat : Category} {negated : Bool} (h : Q (cat.ranges.negateIf negated)) :
    MadeOf P Q (category cat negated)
  | concat {items : List Pattern} (h : ∀ p ∈ items, MadeOf P Q p) : MadeOf P Q (concat items)
  | alt {branches : List Pattern} (h : ∀ p ∈ branches, MadeOf P Q p) : MadeOf P Q (alt branches)
  | repetition {body : Pattern} (h : MadeOf P Q body) (min : Nat) (max : Option Nat)
      (isLazy : Bool) : MadeOf P Q (repetition body min max isLazy)

theorem MadeOf.mono {P' : Nat → Prop} {Q' : CodeSet → Prop} {p : Pattern} (h : p.MadeOf P Q)
    (hP : ∀ cp, P cp → P' cp) (hQ : ∀ set, Q set → Q' set) : p.MadeOf P' Q' := by
  induction h with
  | literal h => exact .literal (hP _ h)
  | dot h => exact .dot (hQ _ h)
  | oneOf h => exact .oneOf (hQ _ h)
  | category h => exact .category (hQ _ h)
  | concat _ ih => exact .concat ih
  | alt _ ih => exact .alt ih
  | repetition _ min max isLazy ih => exact .repetition ih min max isLazy

theorem MadeOf.and {P' : Nat → Prop} {Q' : CodeSet → Prop} {p : Pattern} (h : p.MadeOf P Q)
    (h' : p.MadeOf P' Q') : p.MadeOf (fun cp => P cp ∧ P' cp) fun set => Q set ∧ Q' set := by
  induction h with
  | literal h =>
    cases h' with
    | literal h' => exact .literal ⟨h, h'⟩
  | dot h =>
    cases h' with
    | dot h' => exact .dot ⟨h, h'⟩
  | oneOf h =>
    cases h' with
    | oneOf h' => exact .oneOf ⟨h, h'⟩
  | category h =>
    cases h' with
    | category h' => exact .category ⟨h, h'⟩
  | concat _ ih =>
    cases h' with
    | concat h' => exact .concat fun p hp => ih p hp (h' p hp)
  | alt _ ih =>
    cases h' with
    | alt h' => exact .alt fun p hp => ih p hp (h' p hp)
  | repetition _ min max isLazy ih =>
    cases h' with
    | repetition h' => exact .repetition (ih h') min max isLazy

theorem MadeOf.of_mem_literals {items : List Pattern} (h : ∀ p ∈ items, p.MadeOf P Q)
    {cps : List Nat} (hok : items.mapM literal? = some cps) : ∀ cp ∈ cps, P cp := by
  induction items generalizing cps with
  | nil =>
    cases hok
    simp
  | cons p items ih =>
    obtain ⟨hp, hitems⟩ := List.forall_mem_cons.mp h
    rw [List.mapM_cons] at hok
    obtain ⟨cp, hcp, hok⟩ := Option.bind_eq_some_iff.mp hok
    obtain ⟨rest, hrest, hok⟩ := Option.bind_eq_some_iff.mp hok
    cases hok
    refine List.forall_mem_cons.mpr ⟨?_, ih hitems hrest⟩
    cases hp with
    | literal hliteral =>
      cases hcp
      exact hliteral
    | _ => cases hcp

end Pattern

namespace Automaton

variable {C : Automaton → Prop} {a : Automaton}

theorem of_mem_ofPatterns {ps : List Pattern} {parts : List Automaton}
    (h : ∀ p ∈ ps, ∀ a, ofPattern p none = .ok a → C a) (hok : ofPatterns ps = .ok parts) :
    ∀ a ∈ parts, C a := by
  induction ps generalizing parts with
  | nil =>
    rw [ofPatterns] at hok
    cases hok
    simp
  | cons p ps ih =>
    obtain ⟨hp, hps⟩ := List.forall_mem_cons.mp h
    rw [ofPatterns] at hok
    obtain ⟨part, hpart, hok⟩ := Scan.bind_eq_ok.mp hok
    obtain ⟨rest, hrest, hok⟩ := Scan.bind_eq_ok.mp hok
    cases hok
    exact List.forall_mem_cons.mpr ⟨hp part hpart, ih hps hrest⟩

/-- If the automata of code points and sets are of a kind that compositions keep, so is that of a
pattern made of them. -/
theorem Composable.ofPattern (hC : Composable C) {P : Nat → Prop} {Q : CodeSet → Prop}
    (hcodePoints : ∀ cps symbol, (∀ cp ∈ cps, P cp) → C (ofCodePoints cps symbol))
    (hset : ∀ set symbol, Q set → C (ofSet set symbol)) {p : Pattern} (hp : p.MadeOf P Q)
    {symbol : Option Int} (hok : ofPattern p symbol = .ok a) : C a := by
  induction hp generalizing symbol a with
  | literal h =>
    rw [Automaton.ofPattern] at hok
    cases hok
    exact hcodePoints _ _ (List.forall_mem_singleton.mpr h)
  | dot h =>
    rw [Automaton.ofPattern] at hok
    cases hok
    exact hset _ _ h
  | oneOf h =>
    rw [Automaton.ofPattern] at hok
    cases hok
    exact hset _ _ h
  | category h =>
    rw [Automaton.ofPattern] at hok
    cases hok
    exact hset _ _ h
  | @concat items hitems ih =>
    rw [Automaton.ofPattern] at hok
    split at hok
    · rename_i cps hcps
      cases hok
      exact hcodePoints _ _ (Pattern.MadeOf.of_mem_literals hitems hcps)
    · obtain ⟨parts, hparts, hok⟩ := Scan.bind_eq_ok.mp hok
      cases hok
      exact hC.concat (of_mem_ofPatterns (fun p hp b hb => ih p hp hb) hparts) symbol
  | @alt branches _ ih =>
    rw [Automaton.ofPattern] at hok
    obtain ⟨parts, hparts, hok⟩ := Scan.bind_eq_ok.mp hok
    cases hok
    exact hC.choice (of_mem_ofPatterns (fun p hp b hb => ih p hp hb) hparts) symbol
  | repetition _ _ _ isLazy ih =>
    rw [Automaton.ofPattern] at hok
    split at hok
    · cases hok
    · obtain ⟨part, hpart, hok⟩ := Scan.bind_eq_ok.mp hok
      exact hC.repeated (ih hpart) hok

end Automaton

end FiberLex
