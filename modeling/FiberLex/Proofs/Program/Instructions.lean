import FiberLex.Program.Link
import FiberLex.Program.OfPattern
import FiberLex.Proofs.Pattern.Reading

/-!
# What programs are made of

Whether all instructions of a program have a property is carried through every step on the way to
the program. Linking and removing instructions add only a few of their own and change nothing but
targets (`Kept`). The code of a pattern is put together from that of its parts by jumps, whatever
the parts are (`Piece.MadeOf`), so it is made of jumps and of instructions for single code points
(`Plain`).
-/

namespace FiberLex.Program

variable {Q : Instr → Prop} {p : Program}

/-! ## Linking and removing -/

/-- The property is one of what linking adds, and does not depend on targets. -/
structure Kept (Q : Instr → Prop) : Prop where
  mapTargets : ∀ {i}, Q i → ∀ f, Q (i.mapTargets f)
  jump : ∀ targets, Q (.jump targets)
  save : ∀ slot < 2, Q (.save slot)
  fallback : ∀ i ∈ fallback, Q i

theorem Kept.relocate (hQ : Kept Q) (h : ∀ i ∈ p, Q i) (offset : Nat) :
    ∀ i ∈ p.relocate offset, Q i :=
  List.forall_mem_map.mpr fun i hi => hQ.mapTargets (h i hi) _

theorem Kept.place (hQ : Kept Q) {fragments : List Program} (h : ∀ f ∈ fragments, ∀ i ∈ f, Q i)
    (base : Nat) : ∀ i ∈ (place base fragments).2, Q i := by
  induction fragments generalizing base with
  | nil => simp [Program.place]
  | cons f fragments ih =>
    obtain ⟨hf, hfragments⟩ := List.forall_mem_cons.mp h
    simp only [Program.place]
    exact List.forall_mem_append.mpr ⟨hQ.relocate hf base, ih hfragments _⟩

theorem Kept.linkFragments (hQ : Kept Q) {fragments : List Program}
    (h : ∀ f ∈ fragments, ∀ i ∈ f, Q i) : ∀ i ∈ linkFragments fragments, Q i := by
  simp only [Program.linkFragments, List.forall_mem_cons, List.forall_mem_append]
  exact ⟨hQ.save 0 (by omega), hQ.jump _, hQ.place h 2, hQ.fallback⟩

theorem Kept.removeAt (hQ : Kept Q) (h : ∀ i ∈ p, Q i) (address : Nat) :
    ∀ i ∈ p.removeAt address, Q i :=
  List.forall_mem_map.mpr fun i hi => hQ.mapTargets (h i (List.mem_of_mem_eraseIdx hi)) _

theorem Kept.removeDeadCode (hQ : Kept Q) (h : ∀ i ∈ p, Q i) : ∀ i ∈ p.removeDeadCode, Q i := by
  fun_induction Program.removeDeadCode p with
  | case1 p hnone => exact h
  | case2 p address hidle ih => exact ih (hQ.removeAt h address)

/-- Folding also gives a switch a default. -/
theorem Kept.foldRoot (hQ : Kept Q)
    (hswitch : ∀ cases other, Q (.switch cases []) → Q (.switch cases [other]))
    (h : ∀ i ∈ p, Q i) : ∀ i ∈ p.foldRoot, Q i := by
  unfold Program.foldRoot
  split
  · rename_i other cases rest
    split
    · refine hQ.removeAt ?_ 1
      simp only [List.forall_mem_cons] at h ⊢
      obtain ⟨hsave, hjump, hroot, hrest⟩ := h
      exact ⟨hsave, hjump, hswitch cases other hroot, hrest⟩
    · exact h
  · exact h

/-! ## Pieces -/

/-- Wherever the piece begins, all instructions of its code have the property. -/
def Piece.MadeOf (Q : Instr → Prop) (piece : Piece) : Prop :=
  ∀ base code, piece base = .ok code → ∀ i ∈ code, Q i

section Pieces

variable {piece first second : Piece}

theorem madeOf_nothing : Piece.MadeOf Q nothing := by
  intro base code hok
  cases hok
  simp

theorem Piece.MadeOf.sequel (h : first.MadeOf Q) (h' : second.MadeOf Q) :
    (sequel first second).MadeOf Q := by
  intro base code hok
  obtain ⟨body, hbody, hok⟩ := Scan.bind_eq_ok.mp hok
  obtain ⟨rest, hrest, hok⟩ := Scan.bind_eq_ok.mp hok
  cases hok
  exact List.forall_mem_append.mpr ⟨h _ _ hbody, h' _ _ hrest⟩

theorem Piece.MadeOf.copies (h : piece.MadeOf Q) (n : Nat) : (copies piece n).MadeOf Q := by
  induction n with
  | zero => exact madeOf_nothing
  | succ n ih => exact h.sequel ih

theorem madeOf_codeItems {items : List Pattern} (h : ∀ p ∈ items, Piece.MadeOf Q (code p)) :
    Piece.MadeOf Q (codeItems items) := by
  induction items with
  | nil =>
    intro base code hok
    rw [codeItems] at hok
    cases hok
    simp
  | cons p items ih =>
    obtain ⟨hp, hitems⟩ := List.forall_mem_cons.mp h
    intro base code hok
    rw [codeItems] at hok
    exact hp.sequel (ih hitems) base code hok

theorem forall_mem_codeBranches {ps : List Pattern} (h : ∀ p ∈ ps, Piece.MadeOf Q (code p))
    {seenEmpty : Bool} {base : Nat} {branches : List Branch}
    (hok : codeBranches ps seenEmpty base = .ok branches) :
    ∀ b ∈ branches, ∀ i ∈ b.body, Q i := by
  induction ps generalizing seenEmpty base branches with
  | nil =>
    rw [codeBranches] at hok
    cases hok
    simp
  | cons p ps ih =>
    obtain ⟨hp, hps⟩ := List.forall_mem_cons.mp h
    rw [codeBranches] at hok
    split at hok
    · obtain ⟨more, hmore, hok⟩ := Scan.bind_eq_ok.mp hok
      cases hok
      split
      · exact ih hps hmore
      · exact List.forall_mem_cons.mpr ⟨by simp, ih hps hmore⟩
    · obtain ⟨body, hbody, hok⟩ := Scan.bind_eq_ok.mp hok
      obtain ⟨more, hmore, hok⟩ := Scan.bind_eq_ok.mp hok
      cases hok
      exact List.forall_mem_cons.mpr ⟨hp _ _ hbody, ih hps hmore⟩

variable (hjump : ∀ targets, Q (.jump targets))

include hjump

theorem Piece.MadeOf.optional (h : piece.MadeOf Q) (isLazy : Bool) :
    (optional piece isLazy).MadeOf Q := by
  intro base code hok
  obtain ⟨body, hbody, hok⟩ := Scan.bind_eq_ok.mp hok
  cases hok
  exact List.forall_mem_cons.mpr ⟨hjump _, h _ _ hbody⟩

theorem Piece.MadeOf.star (h : piece.MadeOf Q) (isLazy : Bool) : (star piece isLazy).MadeOf Q := by
  intro base code hok
  obtain ⟨body, hbody, hok⟩ := Scan.bind_eq_ok.mp hok
  cases hok
  rw [List.forall_mem_cons, List.forall_mem_append, List.forall_mem_singleton]
  exact ⟨hjump _, h _ _ hbody, hjump _⟩

theorem Piece.MadeOf.plus (h : piece.MadeOf Q) (isLazy : Bool) : (plus piece isLazy).MadeOf Q := by
  intro base code hok
  obtain ⟨body, hbody, hok⟩ := Scan.bind_eq_ok.mp hok
  cases hok
  rw [List.forall_mem_append, List.forall_mem_singleton]
  exact ⟨h _ _ hbody, hjump _⟩

theorem Piece.MadeOf.repeated (h : piece.MadeOf Q) (min : Nat) (max : Option Nat) (isLazy : Bool) :
    (repeated piece min max isLazy).MadeOf Q := by
  unfold Program.repeated
  split
  · exact h.star hjump isLazy
  · exact h.star hjump isLazy
  · exact h.plus hjump isLazy
  · exact (h.copies min).sequel (h.star hjump isLazy)
  · split
    · intro base code hok
      cases hok
    · exact (h.copies min).sequel ((h.optional hjump isLazy).copies _)

theorem forall_mem_choice {base : Nat} {branches : List Branch}
    (h : ∀ b ∈ branches, ∀ i ∈ b.body, Q i) : ∀ i ∈ choice base branches, Q i := by
  refine List.forall_mem_cons.mpr ⟨hjump _, fun i hi => ?_⟩
  obtain ⟨b, hb, hi⟩ := List.mem_flatMap.mp hi
  rcases List.mem_append.mp hi with hi | hi
  · exact h b hb i hi
  · split at hi
    · obtain rfl := List.mem_singleton.mp hi
      exact hjump _
    · cases hi

end Pieces

/-! ## Patterns -/

/-- The property is one of jumps and of all instructions for a code point that patterns can ask
for. -/
structure Plain (Q : Instr → Prop) : Prop where
  jump : ∀ targets, Q (.jump targets)
  char : ∀ cp ≤ maxCodePoint, Q (.char cp)
  any : Q .any
  ofRanges : ∀ rs, CodeSet.Filled rs →
    Q (.inside (CodeSet.ofRanges rs)) ∧ Q (.outside (CodeSet.ofRanges rs))
  category : ∀ cat, Q (.insideCategory cat) ∧ Q (.outsideCategory cat)

/-- The code of a pattern that can be read is made of such instructions. -/
theorem Plain.code (hQ : Plain Q) {p : Pattern} (h : p.Legible) :
    Piece.MadeOf Q (Program.code p) := by
  induction h with
  | literal hcp =>
    intro base code hok
    rw [Program.code] at hok
    cases hok
    exact List.forall_mem_singleton.mpr (hQ.char _ hcp)
  | dot =>
    intro base code hok
    rw [Program.code] at hok
    cases hok
    exact List.forall_mem_singleton.mpr hQ.any
  | ofRanges hrs negated =>
    intro base code hok
    rw [Pattern.ofRanges, Program.code] at hok
    cases hok
    obtain ⟨hinside, houtside⟩ := hQ.ofRanges _ hrs
    cases negated <;> exact List.forall_mem_singleton.mpr (by assumption)
  | category cat negated =>
    intro base code hok
    rw [Program.code] at hok
    cases hok
    obtain ⟨hinside, houtside⟩ := hQ.category cat
    cases negated <;> exact List.forall_mem_singleton.mpr (by assumption)
  | concat _ ih =>
    intro base code hok
    rw [Program.code] at hok
    exact madeOf_codeItems ih base code hok
  | alt _ _ ih =>
    intro base code hok
    rw [Program.code] at hok
    obtain ⟨branches, hbranches, hok⟩ := Scan.bind_eq_ok.mp hok
    cases hok
    exact forall_mem_choice hQ.jump (forall_mem_codeBranches ih hbranches)
  | repetition _ _ isLazy ih =>
    intro base code hok
    rw [Program.code] at hok
    exact ih.repeated hQ.jump _ _ isLazy base code hok

end FiberLex.Program
