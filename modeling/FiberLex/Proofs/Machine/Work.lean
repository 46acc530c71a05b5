import FiberLex.Proofs.Machine.Lockstep

/-!
# How much work a run takes

Many paths may lead to one instruction, and jumps may go round in circles. Still a generation visits
each instruction at most once, so the walk from its seeds comes to an end after no more visits than
there are instructions, and no more fibers rest than instructions were visited. A run takes one
generation for each character that it consumes, and one more in which it stops (`Within`); the
characters are the next ones of the text, and they are what it captures.
-/

namespace FiberLex

namespace Cursor

theorem rest_consume (n : Nat) (cur : Cursor) :
    (cur.consume n).position.rest = cur.position.rest.drop n := by
  rw [position_consume, Position.rest_advanceBy]

theorem captured_consume (n : Nat) (cur : Cursor) :
    (cur.consume n).captured.toList = cur.captured.toList ++ cur.position.rest.take n := by
  induction n generalizing cur with
  | zero => simp [consume]
  | succ n ih =>
    rw [consume, ih]
    cases hrest : cur.position.rest with
    | nil => simp [advance, capture, current?, Position.advance, hrest]
    | cons c rest => simp [advance, capture, current?, Position.advance, hrest]

end Cursor

namespace Machine

variable {code : Array Instr} {b : Buffers code.size}

/-! ## One generation -/

/-- A generation visits each instruction at most once. -/
theorem visits_generation_le (hb : b.stack = []) (next : Option Char) (offset : Nat) :
    (generation code next offset b).visits ≤ code.size := by
  obtain ⟨visited, hvisits, hreach⟩ := generation_spec code next offset hb
  rw [hreach.visits]
  exact hvisits.length_le

/-- The fibers that rest are among those visited. -/
theorem resting_generation_le (hb : b.stack = []) (next : Option Char) (offset : Nat) :
    (generation code next offset b).buffers.resting.size ≤
      (generation code next offset b).visits := by
  obtain ⟨visited, -, hreach⟩ := generation_spec code next offset hb
  rw [hreach.visits, ← Array.length_toList, hreach.resting]
  exact List.length_filter_le _ _

end Machine

/-! ## Whole runs -/

/-- The work is no more than so many generations of a program of `n` instructions take. -/
structure Statistics.Within (n generations : Nat) (s : Statistics) : Prop where
  /-- No more fibers rest at a time than there are instructions. -/
  maxFibers : s.maxFibers ≤ n
  /-- In no generation are more instructions visited than there are. -/
  visits : s.visits ≤ generations * n

theorem Statistics.Within.addGeneration {n generations visits resting : Nat} {s : Statistics}
    (h : s.Within n generations) (hvisits : visits ≤ n) (hresting : resting ≤ visits)
    (slots : Nat) : (s.addGeneration visits resting slots).Within n (generations + 1) where
  maxFibers := max_le h.maxFibers (hresting.trans hvisits)
  visits := by
    have hsum : s.visits + visits ≤ generations * n + n := Nat.add_le_add h.visits hvisits
    rwa [← Nat.succ_mul] at hsum

theorem Statistics.Within.setCharacters {n generations : Nat} {s : Statistics}
    (h : s.Within n generations) (characters : Nat) :
    { s with characters }.Within n generations :=
  ⟨h.maxFibers, h.visits⟩

namespace Machine

variable {code : Array Instr} {b : Buffers code.size}

/-- If a generation has been run for each character consumed, then in the end one more has been run,
and as many characters have been consumed as the text has lost. -/
theorem exists_search_within (text : List Char) (offset : Nat) (best : Option Match)
    {statistics : Statistics} {characters : Nat} (hb : b.stack = [])
    (hcount : statistics.characters = characters) (h : statistics.Within code.size characters) :
    ∃ n ≤ text.length,
      (search code text offset best statistics b).rest = text.drop n ∧
      (search code text offset best statistics b).statistics.characters = characters + n ∧
      (search code text offset best statistics b).statistics.Within code.size
        (characters + n + 1) := by
  induction text generalizing offset best statistics characters b with
  | nil =>
    exact ⟨0, Nat.le_refl _, rfl, hcount,
      h.addGeneration (visits_generation_le hb _ _) (resting_generation_le hb _ _) _⟩
  | cons c text ih =>
    have hgeneration := h.addGeneration (visits_generation_le hb (some c) offset)
      (resting_generation_le hb (some c) offset) (generation code (some c) offset b).slots
    rw [search]
    split
    · exact ⟨0, Nat.zero_le _, rfl, hcount, hgeneration⟩
    · have hnext : statistics.characters + 1 = characters + 1 := congrArg (· + 1) hcount
      obtain ⟨n, hle, hrest, hcharacters, hwithin⟩ := ih (offset + c.utf8Size)
        ((generation code (some c) offset b).found.or best) (stack_generation hb (some c) offset)
        hnext (hgeneration.setCharacters (statistics.characters + 1))
      have hsum : characters + 1 + n = characters + (n + 1) := by omega
      rw [hsum] at hcharacters hwithin
      exact ⟨n + 1, Nat.succ_le_succ hle, hrest, hcharacters, hwithin⟩

/-- A walk over a program comes to an end, and each instruction is visited at most once. -/
theorem exists_visits (code : Array Instr) (next : Option Char) (offset : Nat)
    (fibers : List Fiber) :
    ∃ visited, Preorder.Visits code.size Fiber.address (followers code next offset) fibers ∅
        visited ∧ visited.length ≤ code.size := by
  have hvisits := Preorder.visits_visit code.size Fiber.address (followers code next offset) fibers
  exact ⟨_, hvisits, hvisits.length_le⟩

/-- Whatever circles the jumps of a program go in, a run comes to an end, and the length of the
program bounds its work. From any fibers the walk ends. No more fibers rest at a time than there are
instructions. For each character that the run consumes, and once more at its end, it visits each
instruction at most once. The characters consumed are the next ones of the text, and they are
captured. A run that is broken off, because it has no room for a slot, does a part of this work. -/
theorem run_statistics_bounded (m : Machine) (cur : Cursor) :
    (∀ next offset fibers, ∃ visited,
      Preorder.Visits m.code.size Fiber.address (followers m.code next offset) fibers ∅ visited ∧
        visited.length ≤ m.code.size) ∧
      (m.run cur).statistics.maxFibers ≤ m.code.size ∧
      (m.run cur).statistics.visits ≤ ((m.run cur).statistics.characters + 1) * m.code.size ∧
      (m.run cur).statistics.characters ≤ cur.position.rest.length ∧
      (m.run cur).cursor.position.rest =
        cur.position.rest.drop (m.run cur).statistics.characters ∧
      (m.run cur).cursor.captured.toList =
        cur.captured.toList ++ cur.position.rest.take (m.run cur).statistics.characters := by
  obtain ⟨n, hle, hrest, hcharacters, hwithin⟩ := exists_search_within cur.position.rest 0 none
    m.stack_primed (rfl : ({} : Statistics).characters = 0) ⟨Nat.zero_le _, Nat.zero_le _⟩
  rw [Nat.zero_add] at hcharacters hwithin
  have hn : (m.run cur).statistics.characters = n := hcharacters
  have hcursor : (m.run cur).cursor = cur.consume n := by
    rw [run, hrest, List.length_drop, Nat.sub_sub_self hle]
  rw [hn, hcursor, Cursor.rest_consume, Cursor.captured_consume]
  exact ⟨exists_visits m.code, hwithin.maxFibers, hwithin.visits, hle, rfl, rfl⟩

/-- Jumps that go back and forth, and to the same place twice. -/
example : ((ofProgram [.jump [1, 1, 2], .jump [0, 2, 2], .any, .jump [0]]).run
    (.ofString "ab")).statistics = { maxFibers := 1, visits := 11, characters := 2 } := by
  cbv

end Machine

end FiberLex
