import FiberLex.Proofs.Machine.Lockstep

/-!
# Machines without a memory

A machine keeps its buffers from one call to the next. A call may leave fibers that rest, seeds of a
generation that was never run and addresses that were visited; nothing of it shows in a later call.
A generation clears the addresses and the fibers that rest, a run begins with seeds of its own, and
the stack, on which a walk would find what was left there, is empty after each walk. So a generation
depends on its seeds only (`generation_congr`), a run on the program and the cursor
(`run_congr`), and a call gives the same answer whatever the calls before it were.
-/

namespace FiberLex.Machine

section Buffers

variable {code : Array Instr} {b b' : Buffers code.size}

/-- A generation depends on the seeds only. -/
theorem generation_congr (next : Option Char) (offset : Nat)
    (hb : b.stack = []) (hb' : b'.stack = []) (hseeds : b'.seeds = b.seeds) :
    (generation code next offset b').found = (generation code next offset b).found ∧
      (generation code next offset b').visits = (generation code next offset b).visits ∧
      (generation code next offset b').slots = (generation code next offset b).slots ∧
      (generation code next offset b').buffers.resting =
        (generation code next offset b).buffers.resting ∧
      (generation code next offset b').buffers.seeds =
        (generation code next offset b).buffers.seeds := by
  obtain ⟨visited, hvis, h⟩ := generation_spec code next offset hb
  obtain ⟨visited', hvis', h'⟩ := generation_spec code next offset hb'
  rw [hseeds] at hvis'
  obtain rfl := hvis.unique hvis'
  exact ⟨h'.found.trans h.found.symm, h'.visits.trans h.visits.symm,
    h'.slots.trans h.slots.symm, Array.toList_inj.mp (h'.resting.trans h.resting.symm),
    Array.toList_inj.mp (h'.seeds.trans h.seeds.symm)⟩

/-- Runs from the same seeds come to the same, and take the same work. -/
theorem search_congr (text : List Char) (offset : Nat) (best : Option Match)
    (statistics : Statistics) (hb : b.stack = []) (hb' : b'.stack = [])
    (hseeds : b'.seeds = b.seeds) :
    (search code text offset best statistics b').result =
        (search code text offset best statistics b).result ∧
      (search code text offset best statistics b').rest =
        (search code text offset best statistics b).rest ∧
      (search code text offset best statistics b').statistics =
        (search code text offset best statistics b).statistics := by
  induction text generalizing offset best statistics b b' with
  | nil =>
    obtain ⟨hfound, hvisits, hslots, hresting, -⟩ := generation_congr none offset hb hb' hseeds
    simp only [search, hfound, hvisits, hslots, hresting, and_self]
  | cons c text ih =>
    obtain ⟨hfound, hvisits, hslots, hresting, hnext⟩ := generation_congr (some c) offset hb hb' hseeds
    simp only [search, hfound, hvisits, hslots, hresting, hnext]
    split
    · exact ⟨rfl, rfl, rfl⟩
    · exact ih _ _ _ (stack_generation hb _ _) (stack_generation hb' _ _) hnext

end Buffers

variable {m m' : Machine}

/-- Machines of one program run alike, whatever is left in them. -/
theorem run_congr (h : m'.code = m.code) (cur : Cursor) :
    (m'.run cur).result = (m.run cur).result ∧
      (m'.run cur).statistics = (m.run cur).statistics ∧
      (m'.run cur).cursor = (m.run cur).cursor := by
  obtain ⟨code, b, hb⟩ := m
  obtain ⟨code', b', hb'⟩ := m'
  obtain rfl : code' = code := h
  obtain ⟨hresult, hrest, hstatistics⟩ := search_congr cur.position.rest 0 none {}
    (stack_primed ⟨_, b, hb⟩) (stack_primed ⟨_, b', hb'⟩) rfl
  exact ⟨hresult, hstatistics, by rw [run, run, hrest]⟩

/-! ## Calls -/

/-- A call of a machine. -/
inductive Call where
  /-- Runs the program at a cursor. -/
  | run (cur : Cursor)
  /-- Runs the program at a cursor and counts the work. -/
  | runWithStatistics (cur : Cursor)
  /-- Asks whether a text is a match as a whole. -/
  | isMatch (text : String)

/-- What the caller gets back, with the cursor as the call leaves it. -/
inductive Answer where
  /-- The match that a run finds. -/
  | run (result : Option Match) (cur : Cursor)
  /-- The match that a run finds, and its work. -/
  | runWithStatistics (result : Option Match) (statistics : Statistics) (cur : Cursor)
  /-- Whether the text is a match. -/
  | isMatch (whole : Bool)
deriving DecidableEq, Repr

/-- Calls a machine. -/
def call (m : Machine) : Call → Answer × Machine
  | .run cur => (.run (m.run cur).result (m.run cur).cursor, (m.run cur).machine)
  | .runWithStatistics cur =>
    (.runWithStatistics (m.run cur).result (m.run cur).statistics (m.run cur).cursor,
      (m.run cur).machine)
  | .isMatch text => (.isMatch (m.isMatch text).1, (m.isMatch text).2)

/-- The machine after some calls, one after the other. -/
def after (m : Machine) (calls : List Call) : Machine := calls.foldl (fun m c => (m.call c).2) m

@[simp] theorem code_call (m : Machine) (c : Call) : (m.call c).2.code = m.code := by
  cases c <;> rfl

@[simp] theorem code_after (m : Machine) (calls : List Call) : (m.after calls).code = m.code := by
  induction calls generalizing m with
  | nil => rfl
  | cons c calls ih => exact (ih _).trans (code_call m c)

/-- Machines of one program answer alike. -/
theorem call_congr (h : m'.code = m.code) (c : Call) : (m'.call c).1 = (m.call c).1 := by
  cases c with
  | run cur =>
    obtain ⟨hresult, -, hcursor⟩ := run_congr h cur
    simp only [call, hresult, hcursor]
  | runWithStatistics cur =>
    obtain ⟨hresult, hstatistics, hcursor⟩ := run_congr h cur
    simp only [call, hresult, hstatistics, hcursor]
  | isMatch text =>
    obtain ⟨hresult, -⟩ := run_congr h (.ofString text)
    simp only [call, isMatch, hresult]

/-- After any calls, a machine answers a call as a new machine does: it finds the same match, counts
the same work and leaves the cursor in the same state. -/
theorem call_after_eq (p : Program) (history : List Call) (c : Call) :
    (((ofProgram p).after history).call c).1 = ((ofProgram p).call c).1 :=
  call_congr (code_after _ _) c

/-- After any calls, a machine has room for a run exactly if a new machine has. -/
theorem hasRoom_run_after (p : Program) (history : List Call) (cur : Cursor) :
    (((ofProgram p).after history).run cur).hasRoom = ((ofProgram p).run cur).hasRoom := by
  obtain ⟨-, hstatistics, -⟩ := run_congr (code_after (ofProgram p) history) cur
  rw [Run.hasRoom, hstatistics, Run.hasRoom]

end FiberLex.Machine
