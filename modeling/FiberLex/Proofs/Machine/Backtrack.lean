import FiberLex.Machine
import Mathlib.Data.Finset.Card
import Mathlib.Data.Fintype.Prod
import Mathlib.Data.Fintype.Card

/-!
# Backtracking search

The search against which the machine is measured. It follows one path at a time: from an address and
a place in the text it goes on to the first successor, then to that one's successors, and comes back
to the next alternative when a path ends. A pair of address and place is entered once only, and the
search stops at the first match it comes to.

The search is written over an explicit stack, whose top is explored first. It ends because every
entry takes one of the pairs that are left.
-/

namespace FiberLex

/-- The number of bytes of a text. -/
def byteLength : List Char → Nat
  | [] => 0
  | c :: cs => c.utf8Size + byteLength cs

@[simp] theorem byteLength_nil : byteLength [] = 0 := rfl

@[simp] theorem byteLength_cons (c : Char) (cs : List Char) :
    byteLength (c :: cs) = c.utf8Size + byteLength cs := rfl

@[simp] theorem byteLength_append (u v : List Char) :
    byteLength (u ++ v) = byteLength u + byteLength v := by
  induction u with
  | nil => simp
  | cons c u ih => simp [ih, Nat.add_assoc]

namespace Backtrack

variable {text : List Char}

/-- Where a path is in the program and in the text, and what it has recorded. -/
structure Config (text : List Char) where
  /-- The instruction the path has come to. -/
  address : Nat
  /-- How many characters it has consumed. -/
  place : Fin (text.length + 1)
  /-- What it has recorded. -/
  span : Span := {}

namespace Config

/-- The number of bytes consumed. -/
def offset (x : Config text) : Nat := byteLength (text.take x.place)

/-- The character at the place, if the text goes on. -/
def next? (x : Config text) : Option Char := text[x.place.val]?

/-- The path goes on at an address and stays where it is in the text. -/
def goto (x : Config text) (target : Nat) : Config text := { x with address := target }

/-- The path goes on at an address behind the next character, if there is one. -/
def consumeTo (x : Config text) (target : Nat) : List (Config text) :=
  if h : x.place.val < text.length then [⟨target, ⟨x.place + 1, by omega⟩, x.span⟩] else []

end Config

/-- Whether an instruction for one character takes `c`. -/
def takes (c : Char) : Instr → Bool
  | .char cp => cp == c.toNat
  | .inside set => set.contains c.toNat
  | .outside set => !set.contains c.toNat
  | .insideCategory cat => cat.contains c.toNat
  | .outsideCategory cat => !cat.contains c.toNat
  | .any => true
  | .switch _ _ | .jump _ | .save _ | .accept _ => false

/-- The configurations that follow one at an instruction, in order of preference. -/
def successors (i : Instr) (x : Config text) : List (Config text) :=
  match i with
  | .jump targets => targets.map x.goto
  | .save slot => [⟨x.address + 1, x.place, x.span.record slot x.offset⟩]
  | .switch cases otherwise =>
    match x.next?.bind fun c => cases.find? (·.set.contains c.toNat) with
    | some case => x.consumeTo case.target
    | none => otherwise.map x.goto
  | .accept _ => []
  | i => if x.next?.any (takes · i) then x.consumeTo (x.address + 1) else []

/-- The match reported by an instruction. -/
def found? (i : Instr) (x : Config text) : Option Match :=
  match i with
  | .accept symbol => some ⟨symbol, x.span.start, x.span.finish.getD x.offset⟩
  | _ => none

/-- The pairs of address and place that have been entered. -/
abbrev Entered (code : Array Instr) (text : List Char) : Type :=
  Finset (Fin code.size × Fin (text.length + 1))

/-- Explores the configurations of a stack up to the first match, and returns it with the pairs that
have been entered. An address outside the program ends a path. -/
def explore (code : Array Instr) (entered : Entered code text) :
    List (Config text) → Option Match × Entered code text
  | [] => (none, entered)
  | x :: rest =>
    if h : x.address < code.size then
      if hnew : (⟨x.address, h⟩, x.place) ∉ entered then
        match found? code[x.address] x with
        | some m => (some m, entered)
        | none =>
          explore code (insert (⟨x.address, h⟩, x.place) entered)
            (successors code[x.address] x ++ rest)
      else explore code entered rest
    else explore code entered rest
termination_by stack => (Fintype.card (Fin code.size × Fin (text.length + 1)) - entered.card,
  stack.length)
decreasing_by
  · have hcard := Finset.card_insert_of_notMem hnew
    have hle := Finset.card_le_univ (insert (⟨x.address, h⟩, x.place) entered)
    exact Prod.Lex.left _ _ (by omega)
  · exact Prod.Lex.right _ (by simp)
  · exact Prod.Lex.right _ (by simp)

/-- The beginning of the program and of the text, with nothing recorded. -/
def start (text : List Char) : Config text := ⟨0, 0, {}⟩

/-- The first match of a search from the beginning. -/
def search (p : Program) (text : List Char) : Option Match := (explore p.toArray ∅ [start text]).1

/-! ## One configuration after the other -/

section Explore

variable {code : Array Instr} {e : Entered code text} {x : Config text} {rest : List (Config text)}

theorem explore_found (h : x.address < code.size) (hnew : (⟨x.address, h⟩, x.place) ∉ e)
    {m : Match} (hm : found? code[x.address] x = some m) :
    explore code e (x :: rest) = (some m, e) := by
  rw [explore, dif_pos h, dif_pos hnew]
  simp only [hm]

theorem explore_step (h : x.address < code.size) (hnew : (⟨x.address, h⟩, x.place) ∉ e)
    (hm : found? code[x.address] x = none) :
    explore code e (x :: rest) = explore code (insert (⟨x.address, h⟩, x.place) e)
      (successors code[x.address] x ++ rest) := by
  rw [explore, dif_pos h, dif_pos hnew]
  simp only [hm]

theorem explore_entered (h : x.address < code.size) (hmem : (⟨x.address, h⟩, x.place) ∈ e) :
    explore code e (x :: rest) = explore code e rest := by
  rw [explore, dif_pos h, dif_neg (not_not.mpr hmem)]

theorem explore_outside (h : ¬ x.address < code.size) :
    explore code e (x :: rest) = explore code e rest := by
  rw [explore, dif_neg h]

end Explore

/-! ## Sequences of paths -/

variable {code : Array Instr}

/-- The paths of a second stack are explored if those of the first come to no match. -/
theorem explore_append (entered : Entered code text) (xs ys : List (Config text)) :
    explore code entered (xs ++ ys) =
      match explore code entered xs with
      | (some m, entered') => (some m, entered')
      | (none, entered') => explore code entered' ys := by
  fun_induction explore code entered xs with
  | case1 entered => rfl
  | case2 entered x rest h hnew m hm => rw [List.cons_append, explore_found h hnew hm]
  | case3 entered x rest h hnew hm ih =>
    rw [List.cons_append, explore_step h hnew hm, ← List.append_assoc]
    exact ih
  | case4 entered x rest h hnew ih =>
    rw [List.cons_append, explore_entered h (not_not.mp hnew)]
    exact ih
  | case5 entered x rest h ih =>
    rw [List.cons_append, explore_outside h]
    exact ih

theorem explore_append_of_some {entered : Entered code text} {xs : List (Config text)} {m : Match}
    (h : (explore code entered xs).1 = some m) (ys : List (Config text)) :
    (explore code entered (xs ++ ys)).1 = some m := by
  rw [explore_append]
  split
  · rename_i heq
    rwa [heq] at h
  · rename_i heq
    rw [heq] at h
    cases h

theorem explore_append_of_none {entered : Entered code text} {xs ys : List (Config text)}
    (h : (explore code entered xs).1 = none) :
    explore code entered (xs ++ ys) = explore code (explore code entered xs).2 ys := by
  rw [explore_append]
  split
  · rename_i heq
    rw [heq] at h
    cases h
  · rename_i heq
    rw [heq]

/-- A path never goes back in the text. -/
theorem place_le_of_mem_successors {i : Instr} {x y : Config text} (h : y ∈ successors i x) :
    x.place ≤ y.place := by
  have hconsume : ∀ t, y ∈ x.consumeTo t → x.place ≤ y.place := by
    intro t hy
    unfold Config.consumeTo at hy
    split at hy
    · rw [List.mem_singleton.mp hy]
      exact Fin.le_def.mpr (by simp)
    · cases hy
  have hgoto : ∀ ts : List Nat, y ∈ ts.map x.goto → x.place ≤ y.place := by
    intro ts hy
    obtain ⟨t, -, rfl⟩ := List.mem_map.mp hy
    exact le_refl _
  unfold successors at h
  split at h
  · exact hgoto _ h
  · rw [List.mem_singleton.mp h]
  · split at h
    · exact hconsume _ h
    · exact hgoto _ h
  · cases h
  · split at h
    · exact hconsume _ h
    · cases h

/-- The same pairs have been entered from a place on. -/
def SameFrom (j : Nat) (e e' : Entered code text) : Prop :=
  ∀ p : Fin code.size × Fin (text.length + 1), j ≤ p.2.val → (p ∈ e ↔ p ∈ e')

theorem SameFrom.insert {j : Nat} {e e' : Entered code text} (h : SameFrom j e e')
    (p : Fin code.size × Fin (text.length + 1)) : SameFrom j (insert p e) (insert p e') := by
  intro q hq
  rw [Finset.mem_insert, Finset.mem_insert, h q hq]

/-- From configurations at or after a place, only what has been entered from that place on counts:
the match is the same, and what is entered in the end agrees again. -/
theorem explore_congr {j : Nat} (e e' : Entered code text) (stack : List (Config text))
    (hstack : ∀ x ∈ stack, j ≤ x.place.val) (h : SameFrom j e e') :
    (explore code e stack).1 = (explore code e' stack).1 ∧
      SameFrom j (explore code e stack).2 (explore code e' stack).2 := by
  fun_induction explore code e stack generalizing e' with
  | case1 e => simpa [explore] using h
  | case2 e x rest hx hnew m hm =>
    have hnew' : (⟨x.address, hx⟩, x.place) ∉ e' := by
      rwa [← h _ (hstack x List.mem_cons_self)]
    rw [explore_found hx hnew' hm]
    exact ⟨rfl, h⟩
  | case3 e x rest hx hnew hm ih =>
    have hj := hstack x List.mem_cons_self
    have hnew' : (⟨x.address, hx⟩, x.place) ∉ e' := by rwa [← h _ hj]
    have hstack' : ∀ y ∈ successors code[x.address] x ++ rest, j ≤ y.place.val := by
      intro y hy
      rcases List.mem_append.mp hy with hy | hy
      · exact hj.trans (place_le_of_mem_successors hy)
      · exact hstack y (List.mem_cons_of_mem _ hy)
    rw [explore_step hx hnew' hm]
    exact ih _ hstack' (h.insert _)
  | case4 e x rest hx hnew ih =>
    have hmem : (⟨x.address, hx⟩, x.place) ∈ e' := by
      rw [← h _ (hstack x List.mem_cons_self)]
      exact not_not.mp hnew
    rw [explore_entered hx hmem]
    exact ih _ (fun y hy => hstack y (List.mem_cons_of_mem _ hy)) h
  | case5 e x rest hx ih =>
    rw [explore_outside hx]
    exact ih _ (fun y hy => hstack y (List.mem_cons_of_mem _ hy)) h

/-- From configurations at or after a place, nothing is entered before that place. -/
theorem mem_explore_of_lt {j : Nat} (e : Entered code text) (stack : List (Config text))
    (hstack : ∀ x ∈ stack, j ≤ x.place.val) (p : Fin code.size × Fin (text.length + 1))
    (hp : p.2.val < j) : p ∈ (explore code e stack).2 ↔ p ∈ e := by
  fun_induction explore code e stack with
  | case1 e => rfl
  | case2 e x rest hx hnew m hm => rfl
  | case3 e x rest hx hnew hm ih =>
    have hj := hstack x List.mem_cons_self
    have hstack' : ∀ y ∈ successors code[x.address] x ++ rest, j ≤ y.place.val := by
      intro y hy
      rcases List.mem_append.mp hy with hy | hy
      · exact hj.trans (place_le_of_mem_successors hy)
      · exact hstack y (List.mem_cons_of_mem _ hy)
    rw [ih hstack', Finset.mem_insert]
    have hne : p ≠ (⟨x.address, hx⟩, x.place) := by
      rintro rfl
      simp only at hp
      omega
    simp [hne]
  | case4 e x rest hx hnew ih => exact ih fun y hy => hstack y (List.mem_cons_of_mem _ hy)
  | case5 e x rest hx ih => exact ih fun y hy => hstack y (List.mem_cons_of_mem _ hy)

end Backtrack

end FiberLex
