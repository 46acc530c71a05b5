import FiberLex.Proofs.Tokenizer

/-!
# Room for slots

A program may record in a slot for which there can be no room, and a run that comes to it is broken
off. What a run, a question for a whole match and the tokens of a text come to is said elsewhere as
long as there is room. There always is if the program records in slots below `slotLimit` only
(`Program.SlotsFit`): no generation asks for more (`Machine.slots_generation_le`), so no run does
(`Machine.slots_search_le`). For such a program nothing is broken off, and what is said of a run
that has room holds of every run (`Machine.run?_eq_some`, `Tokenizer.tokens?_eq_some`).
-/

namespace FiberLex

/-- The program records in slots for which there can be room. -/
def Program.SlotsFit (p : Program) : Prop := ∀ slot, .save slot ∈ p → slot < slotLimit

theorem Program.slotsFit_iff {p : Program} : p.SlotsFit ↔ ∀ i ∈ p, i.slots ≤ slotLimit := by
  constructor
  · intro h i hi
    cases i with
    | save slot => exact h slot hi
    | _ => exact Nat.zero_le _
  · exact fun h slot hslot => h _ hslot

instance (p : Program) : Decidable p.SlotsFit := decidable_of_iff _ Program.slotsFit_iff.symm

namespace Machine

/-! ## What a run asks for -/

section Search

variable {code : Array Instr} {n : Nat} (h : ∀ f, slotsAt code f ≤ n)

include h

theorem slots_spread_le (next : Option Char) (offset : Nat) {g : Generation code.size}
    (hg : g.slots ≤ n) (f : Fiber) : (spread code next offset g f).slots ≤ n := by
  refine Array.foldl_induction (motive := fun _ slots => slots ≤ n) hg fun i slots hslots => ?_
  exact Nat.max_le.mpr ⟨hslots, h _⟩

theorem slots_foldl_spread_le (next : Option Char) (offset : Nat) (fibers : List Fiber)
    {g : Generation code.size} (hg : g.slots ≤ n) :
    (fibers.foldl (spread code next offset) g).slots ≤ n := by
  induction fibers generalizing g with
  | nil => exact hg
  | cons f fibers ih => exact ih (slots_spread_le h next offset hg f)

/-- A generation asks for no more slots than some instruction does. -/
theorem slots_generation_le (next : Option Char) (offset : Nat) (b : Buffers code.size) :
    (generation code next offset b).slots ≤ n :=
  slots_foldl_spread_le h next offset b.seeds.toList (Nat.zero_le n)

/-- Nor does a run. -/
theorem slots_search_le (text : List Char) (offset : Nat) (best : Option Match)
    {statistics : Statistics} (hs : statistics.slots ≤ n) (b : Buffers code.size) :
    (search code text offset best statistics b).statistics.slots ≤ n := by
  induction text generalizing offset best statistics b with
  | nil => exact Nat.max_le.mpr ⟨hs, slots_generation_le h none offset b⟩
  | cons c text ih =>
    have hgeneration := Nat.max_le.mpr ⟨hs, slots_generation_le h (some c) offset b⟩
    rw [search]
    split
    · exact hgeneration
    · exact ih _ _ hgeneration _

end Search

/-! ## Runs that have room -/

variable {p : Program} {m : Machine}

theorem slotsAt_le (hp : p.SlotsFit) (f : Fiber) : slotsAt p.toArray f ≤ slotLimit := by
  unfold slotsAt
  split
  · exact Nat.zero_le _
  · rename_i i hi
    rw [List.getElem?_toArray] at hi
    exact Program.slotsFit_iff.mp hp i (List.mem_of_getElem? hi)

theorem hasRoom_run (hp : p.SlotsFit) (hcode : m.code = p.toArray) (cur : Cursor) :
    (m.run cur).hasRoom = true := by
  have hslots : ∀ f, slotsAt m.code f ≤ slotLimit := hcode ▸ slotsAt_le hp
  exact decide_eq_true (slots_search_le hslots _ _ _ (Nat.zero_le slotLimit) _)

/-- A run of a program whose slots fit is not broken off. -/
theorem run?_eq_some (hp : p.SlotsFit) (hcode : m.code = p.toArray) (cur : Cursor) :
    m.run? cur = some (m.run cur) := by
  rw [run?, if_pos (hasRoom_run hp hcode cur)]

theorem isMatch?_eq_some (hp : p.SlotsFit) (hcode : m.code = p.toArray) (text : String) :
    m.isMatch? text = some (m.isMatch text) := by
  rw [isMatch?, run?_eq_some hp hcode, Option.map_some]

/-- A run of such a program at the beginning of a text finds what a backtracking search finds. -/
theorem run?_ofProgram_map_result (hp : p.SlotsFit) (text : String) :
    ((ofProgram p).run? (.ofString text)).map (·.result) =
      some (Backtrack.search p text.toList) := by
  rw [run?_eq_some hp rfl, Option.map_some, run_result]
  rfl

end Machine

namespace Tokenizer

variable {p : Program}

/-- Splitting a text by such a program is not broken off. -/
theorem tokens?_eq_some (hp : p.SlotsFit) (t : Tokenizer) (hcode : t.machine.code = p.toArray) :
    t.tokens? = some t.tokens := by
  have hroom : ∀ t : Tokenizer, t.machine.code = p.toArray → t.hasRoom = true := by
    intro t hcode
    rw [hasRoom, Machine.hasRoom_run hp hcode, Bool.or_true]
  fun_induction tokens t with
  | case1 t hnone =>
    rw [tokens?, if_pos (hroom t hcode)]
    split
    · rfl
    · rename_i hsome
      rw [hnone] at hsome
      cases hsome
  | case2 t token t' hnext ih =>
    rw [tokens?, if_pos (hroom t hcode)]
    split
    · rename_i hnone
      rw [hnext] at hnone
      cases hnone
    · rename_i hsome
      obtain ⟨rfl, rfl⟩ := Prod.mk.inj (Option.some.inj (hnext.symm.trans hsome))
      obtain ⟨-, -, -, -, -, hcode'⟩ := next?_spec hcode hnext
      rw [ih hcode', Option.map_some]

end Tokenizer

end FiberLex
