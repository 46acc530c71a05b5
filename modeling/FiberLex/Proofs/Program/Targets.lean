import FiberLex.Program.OfPattern
import FiberLex.Proofs.Pattern.Denotation
import FiberLex.Proofs.Program.Link

/-!
# Targets within the program

Every step on the way to a program keeps the targets of jumps and switches inside it. A piece of
code for a pattern goes no further than the address right behind it (`Piece.Fits`), so that it fits
as soon as an end is appended; fragments stay inside when they are linked; and removing an
instruction takes the targets behind it along. Patterns whose bounds are in order always have code
(`fits_code`).
-/

namespace FiberLex.Program

open Pattern

/-! ## Pieces -/

/-- The piece has code wherever it begins, and no target of the code is behind the address where the
piece is left. -/
def Piece.Fits (piece : Piece) : Prop :=
  ∀ base, ∃ code, piece base = .ok code ∧ TargetsBelow (base + code.length + 1) code

section Pieces

variable {piece first second : Piece} {isLazy : Bool}

theorem mem_preferring {body done t : Nat} :
    t ∈ preferring body done isLazy ↔ t = body ∨ t = done := by
  cases isLazy with
  | false => simp [preferring]
  | true => simp [preferring, or_comm]

theorem fits_nothing : Piece.Fits nothing := fun _ => ⟨[], rfl, by simp⟩

theorem Piece.Fits.sequel (h : first.Fits) (h' : second.Fits) : (sequel first second).Fits := by
  intro base
  obtain ⟨code, hcode, htargets⟩ := h base
  obtain ⟨rest, hrest, htargets'⟩ := h' (base + code.length)
  refine ⟨code ++ rest, ?_, ?_⟩
  · exact Scan.bind_eq_ok.mpr ⟨code, hcode, Scan.bind_eq_ok.mpr ⟨rest, hrest, rfl⟩⟩
  · rw [List.length_append, targetsBelow_append]
    exact ⟨htargets.mono (by omega), htargets'.mono (by omega)⟩

theorem Piece.Fits.copies (h : piece.Fits) (n : Nat) : (copies piece n).Fits := by
  induction n with
  | zero => exact fits_nothing
  | succ n ih => exact h.sequel ih

theorem Piece.Fits.optional (h : piece.Fits) (isLazy : Bool) : (optional piece isLazy).Fits := by
  intro base
  obtain ⟨body, hbody, htargets⟩ := h (base + 1)
  refine ⟨_, Scan.bind_eq_ok.mpr ⟨body, hbody, rfl⟩, ?_⟩
  rw [List.length_cons, targetsBelow_cons]
  refine ⟨fun t ht => ?_, htargets.mono (by omega)⟩
  rcases mem_preferring.mp ht with rfl | rfl <;> omega

theorem Piece.Fits.star (h : piece.Fits) (isLazy : Bool) : (star piece isLazy).Fits := by
  intro base
  obtain ⟨body, hbody, htargets⟩ := h (base + 1)
  refine ⟨_, Scan.bind_eq_ok.mpr ⟨body, hbody, rfl⟩, ?_⟩
  rw [List.length_cons, List.length_append, List.length_singleton, targetsBelow_cons,
    targetsBelow_append]
  refine ⟨fun t ht => ?_, htargets.mono (by omega), ?_⟩
  · rcases mem_preferring.mp ht with rfl | rfl <;> omega
  · simp only [targetsBelow_cons, Instr.targets, List.mem_singleton, forall_eq, targetsBelow_nil,
      and_true]
    omega

theorem Piece.Fits.plus (h : piece.Fits) (isLazy : Bool) : (plus piece isLazy).Fits := by
  intro base
  obtain ⟨body, hbody, htargets⟩ := h base
  refine ⟨_, Scan.bind_eq_ok.mpr ⟨body, hbody, rfl⟩, ?_⟩
  rw [List.length_append, List.length_singleton, targetsBelow_append, targetsBelow_cons]
  refine ⟨htargets.mono (by omega), fun t ht => ?_, targetsBelow_nil⟩
  rcases mem_preferring.mp ht with rfl | rfl <;> omega

theorem Piece.Fits.repeated (h : piece.Fits) {min : Nat} {max : Option Nat}
    (hbounds : ∀ m, max = some m → min ≤ m) (isLazy : Bool) :
    (repeated piece min max isLazy).Fits := by
  unfold Program.repeated
  split
  · exact h.star isLazy
  · exact h.star isLazy
  · exact h.plus isLazy
  · exact (h.copies min).sequel (h.star isLazy)
  · rename_i m _
    have hle := hbounds m rfl
    rw [if_neg (by omega)]
    exact (h.copies min).sequel ((h.optional isLazy).copies (m - min))

end Pieces

/-! ## Choices -/

theorem Branch.length_code (done : Nat) (b : Branch) : (b.code done).length = b.size := by
  rw [Branch.code, Branch.size, List.length_append]
  split <;> rfl

theorem Branch.length_flatMap_code (done : Nat) (branches : List Branch) :
    (branches.flatMap (Branch.code done)).length = Branch.totalSize branches := by
  induction branches with
  | nil => rfl
  | cons b branches ih =>
    rw [List.flatMap_cons, List.length_append, Branch.length_code, ih, Branch.totalSize]

/-- The branches of a choice have code that goes no further than the end of the choice. -/
theorem exists_codeBranches {ps : List Pattern} (h : ∀ p ∈ ps, Piece.Fits (code p))
    (seenEmpty : Bool) (base : Nat) :
    ∃ branches, codeBranches ps seenEmpty base = .ok branches ∧ ∀ b ∈ branches,
      TargetsBelow (base + Branch.totalSize branches + 1) b.body ∧
        ∀ a ∈ b.entry, a ≤ base + Branch.totalSize branches := by
  induction ps generalizing seenEmpty base with
  | nil => exact ⟨[], by rw [codeBranches], by simp⟩
  | cons p ps ih =>
    obtain ⟨hp, hps⟩ := List.forall_mem_cons.mp h
    rw [codeBranches]
    by_cases hempty : p.isEmpty = true
    · obtain ⟨more, hmore, hfit⟩ := ih hps true base
      rw [if_pos hempty]
      refine ⟨_, Scan.bind_eq_ok.mpr ⟨more, hmore, rfl⟩, ?_⟩
      cases seenEmpty with
      | true => exact hfit
      | false =>
        have hsize : Branch.totalSize (⟨none, [], false⟩ :: more) = Branch.totalSize more := by
          simp [Branch.totalSize, Branch.size]
        rw [if_neg (by simp), hsize]
        exact List.forall_mem_cons.mpr ⟨⟨targetsBelow_nil, by simp⟩, hfit⟩
    · obtain ⟨body, hbody, htargets⟩ := hp base
      obtain ⟨joins, hjoins⟩ : ∃ joins, joins = ps.any (!·.isEmpty) := ⟨_, rfl⟩
      obtain ⟨more, hmore, hfit⟩ := ih hps seenEmpty (base + body.length + if joins then 1 else 0)
      rw [if_neg hempty, ← hjoins]
      refine ⟨_, Scan.bind_eq_ok.mpr ⟨body, hbody, Scan.bind_eq_ok.mpr ⟨more, hmore, rfl⟩⟩, ?_⟩
      rw [Branch.totalSize, Branch.size]
      refine List.forall_mem_cons.mpr ⟨⟨htargets.mono (by simp only; omega), ?_⟩, fun b hb => ?_⟩
      · simp only [Option.mem_def, Option.some.injEq, forall_eq']
        omega
      · obtain ⟨hb₁, hb₂⟩ := hfit b hb
        refine ⟨hb₁.mono (by simp only; omega), fun a ha => ?_⟩
        have := hb₂ a ha
        simp only
        omega

/-- The code of a choice fits. -/
theorem targetsBelow_choice {base : Nat} {branches : List Branch}
    (h : ∀ b ∈ branches, TargetsBelow (base + 1 + Branch.totalSize branches + 1) b.body ∧
      ∀ a ∈ b.entry, a ≤ base + 1 + Branch.totalSize branches) :
    TargetsBelow (base + (choice base branches).length + 1) (choice base branches) := by
  rw [choice, List.length_cons, Branch.length_flatMap_code, targetsBelow_cons]
  generalize hdone : base + 1 + Branch.totalSize branches = done at h ⊢
  constructor
  · intro t ht
    obtain ⟨b, hb, rfl⟩ := List.mem_map.mp ht
    cases hentry : b.entry with
    | none =>
      rw [Option.getD_none]
      omega
    | some a =>
      have := (h b hb).2 a hentry
      rw [Option.getD_some]
      omega
  · intro i hi t ht
    obtain ⟨b, hb, hi⟩ := List.mem_flatMap.mp hi
    rcases List.mem_append.mp hi with hi | hi
    · have := (h b hb).1 i hi t ht
      omega
    · split at hi
      · obtain rfl := List.mem_singleton.mp hi
        obtain rfl := List.mem_singleton.mp ht
        omega
      · cases hi

/-! ## Patterns -/

theorem fits_codeItems {items : List Pattern} (h : ∀ p ∈ items, Piece.Fits (code p)) :
    Piece.Fits (codeItems items) := by
  induction items with
  | nil =>
    intro base
    exact ⟨[], by rw [codeItems], targetsBelow_nil⟩
  | cons p items ih =>
    obtain ⟨hp, hitems⟩ := List.forall_mem_cons.mp h
    intro base
    rw [codeItems]
    exact hp.sequel (ih hitems) base

/-- A pattern whose bounds are in order has code, lazy or not, and the code fits. -/
theorem fits_code {p : Pattern} (h : p.InOrder) : Piece.Fits (code p) := by
  induction h with
  | literal cp => exact fun base => ⟨_, by rw [code], by simp [Instr.targets]⟩
  | dot => exact fun base => ⟨_, by rw [code], by simp [Instr.targets]⟩
  | oneOf set negated =>
    exact fun base => ⟨_, by rw [code], by cases negated <;> simp [Instr.targets]⟩
  | category cat negated =>
    exact fun base => ⟨_, by rw [code], by cases negated <;> simp [Instr.targets]⟩
  | concat _ ih =>
    intro base
    rw [code]
    exact fits_codeItems ih base
  | alt _ ih =>
    intro base
    obtain ⟨branches, hbranches, hfit⟩ := exists_codeBranches ih false (base + 1)
    refine ⟨choice base branches, ?_, targetsBelow_choice hfit⟩
    rw [code]
    exact Scan.bind_eq_ok.mpr ⟨branches, hbranches, rfl⟩
  | repetition _ hbounds isLazy ih =>
    intro base
    rw [code]
    exact ih.repeated hbounds isLazy base

/-! ## Linked fragments -/

/-- Fragments with all targets inside keep them when they are placed, and none begins behind the
last. -/
theorem targetsBelow_place {fragments : List Program}
    (h : ∀ f ∈ fragments, TargetsBelow f.length f) (base : Nat) :
    TargetsBelow (base + (place base fragments).2.length) (place base fragments).2 ∧
      ∀ t ∈ (place base fragments).1, t ≤ base + (place base fragments).2.length := by
  induction fragments generalizing base with
  | nil => simp [place]
  | cons fragment fragments ih =>
    obtain ⟨hfragment, hrest⟩ := List.forall_mem_cons.mp h
    obtain ⟨htargets, hentries⟩ := ih hrest (base + fragment.length)
    simp only [place, List.length_append, length_relocate, ← Nat.add_assoc]
    refine ⟨targetsBelow_append.mpr ⟨(hfragment.relocate base).mono (by omega), htargets⟩, ?_⟩
    exact List.forall_mem_cons.mpr ⟨by omega, hentries⟩

/-- The linked program of fragments with all targets inside can run. -/
theorem runnable_linkFragments {fragments : List Program}
    (h : ∀ f ∈ fragments, TargetsBelow f.length f) : Runnable (linkFragments fragments) := by
  refine ⟨by simp [linkFragments], ?_⟩
  obtain ⟨htargets, hentries⟩ := targetsBelow_place h 2
  have hlength : (linkFragments fragments).length = 2 + (place 2 fragments).2.length + 3 := by
    simp [linkFragments, fallback]
    omega
  rw [hlength]
  simp only [linkFragments, targetsBelow_cons, targetsBelow_append]
  refine ⟨by simp [Instr.targets], ?_, htargets.mono (by omega), by simp [fallback, Instr.targets]⟩
  intro t ht
  rcases List.mem_append.mp ht with ht | ht
  · have := hentries t ht
    omega
  · obtain rfl := List.mem_singleton.mp ht
    omega

/-! ## Removed instructions -/

/-- An instruction that is not the last may be removed. -/
theorem Runnable.removeAt {p : Program} (h : Runnable p) {address : Nat}
    (hlt : address + 1 < p.length) : Runnable (p.removeAt address) := by
  have hlength := length_removeAt (Nat.lt_of_succ_lt hlt)
  constructor
  · intro hnil
    rw [hnil, List.length_nil] at hlength
    omega
  · intro j hj t ht
    obtain ⟨i, hi, rfl⟩ := List.mem_map.mp hj
    rw [targets_mapTargets] at ht
    obtain ⟨u, hu, rfl⟩ := List.mem_map.mp ht
    have hbelow := h.targetsBelow i (List.mem_of_mem_eraseIdx hi) u hu
    split <;> omega

theorem getElem?_of_idleJumpFrom? {p : Program} {base address : Nat}
    (h : idleJumpFrom? base p = some address) :
    p[address]? = some (.jump [base + address + 1]) := by
  induction p generalizing base address with
  | nil => cases h
  | cons i p ih =>
    rw [idleJumpFrom?] at h
    split at h
    · rename_i hi
      obtain rfl := Option.some.inj h
      rw [hi]
      rfl
    · obtain ⟨k, hk, rfl⟩ := Option.map_eq_some_iff.mp h
      rw [List.getElem?_cons_succ, ih hk, Nat.add_assoc base 1, Nat.add_comm 1]

/-- An idle jump has an instruction behind it to go to, so it is not the last. -/
theorem Runnable.removeDeadCode {p : Program} (h : Runnable p) : Runnable p.removeDeadCode := by
  fun_induction Program.removeDeadCode p with
  | case1 p hnone => exact h
  | case2 p address hidle ih =>
    have hjump := getElem?_of_idleJumpFrom? hidle
    rw [Nat.zero_add] at hjump
    have hnext := h.targetsBelow _ (List.mem_of_getElem? hjump) (address + 1)
      (List.mem_singleton_self _)
    exact ih (h.removeAt hnext)

theorem Runnable.foldRoot {p : Program} (h : Runnable p) : Runnable p.foldRoot := by
  unfold Program.foldRoot
  split
  · rename_i other cases rest
    split
    · refine Runnable.removeAt ⟨by simp, ?_⟩ (by simp)
      have htargets := h.targetsBelow
      simp only [targetsBelow_cons, List.length_cons] at htargets ⊢
      obtain ⟨hsave, hjump, hswitch, hrest⟩ := htargets
      refine ⟨hsave, hjump, ?_, hrest⟩
      simp only [Instr.targets, List.append_nil] at hjump hswitch ⊢
      exact List.forall_mem_append.mpr ⟨hswitch, by simpa using hjump other (by simp)⟩
    · exact h
  · exact h

end FiberLex.Program
