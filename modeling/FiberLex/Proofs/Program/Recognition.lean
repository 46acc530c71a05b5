import FiberLex.Proofs.Automaton.Repetition
import FiberLex.Proofs.Machine.Lockstep
import FiberLex.Proofs.Machine.Paths
import FiberLex.Proofs.Program.Targets

/-!
# What the code of a pattern recognises

`Passes code a b l` says that from address `a` control gets to `b`, and on to a match only through
`b`, by consuming a text of the language `l`. Every piece of code for a pattern passes the language
of the pattern, wherever it stands (`denotes_code`). Loops whose body may be empty are no exception:
a path to a match shortens whenever it goes round, so an induction on its length ends, whatever the
path consumes. The matches of a rule are therefore the beginnings of the text that its pattern
denotes (`matched_terminate_iff`), and the machine finds one of them if there is any.
-/

namespace FiberLex

open Backtrack Pattern
open scoped Computability

namespace Backtrack

variable {text : List Char} {code : Array Instr}

/-- An instruction for one character goes on behind a character that it takes. -/
theorem successors_of_isConsuming {i : Instr} (h : i.isConsuming = true) (x : Config text) :
    successors i x = if x.next?.any (takes · i) then x.consumeTo (x.address + 1) else [] := by
  cases i <;> first | rfl | cases h

theorem found?_of_isConsuming {i : Instr} (h : i.isConsuming = true) (x : Config text) :
    found? i x = none := by
  cases i <;> first | rfl | cases h

/-- One configuration is at `b`, behind a text that follows the other, with the same recorded. -/
structure Arrives (x : Config text) (u : List Char) (b : Nat) (z : Config text) : Prop where
  address : z.address = b
  text_eq : text.drop x.place = u ++ text.drop z.place
  span : z.span = x.span

theorem Arrives.refl (x : Config text) : Arrives x [] x.address x := ⟨rfl, rfl, rfl⟩

theorem Arrives.trans {x y z : Config text} {u v : List Char} {a b : Nat} (h : Arrives x u a y)
    (h' : Arrives y v b z) : Arrives x (u ++ v) b z :=
  ⟨h'.address, by rw [h.text_eq, h'.text_eq, List.append_assoc], h'.span.trans h.span⟩

/-- Control that comes to `a` gets to `b`, and to a match only through `b`, by consuming a text of
the language. -/
structure Passes (code : Array Instr) (a b : Nat) (l : Language Char) : Prop where
  /-- Every text of the language is consumed on some path. -/
  exists_path : ∀ {text : List Char} (x : Config text) {u rest : List Char}, x.address = a →
    text.drop x.place = u ++ rest → u ∈ l → ∃ n z, Path code n x z ∧ Arrives x u b z
  /-- Every path to a match begins with a text of the language. -/
  split : ∀ {text : List Char} {x y : Config text} {n : Nat} {m : Match}, x.address = a →
    Path code n x y → Matched code y m →
    ∃ k ≤ n, ∃ z, Path code k z y ∧ ∃ u ∈ l, Arrives x u b z

namespace Passes

variable {a b c : Nat} {l l' : Language Char}

theorem refl (code : Array Instr) (a : Nat) : Passes code a a 1 := by
  constructor
  · rintro text x u rest rfl _ hu
    rw [Language.mem_one] at hu
    exact ⟨0, x, .refl x, hu ▸ .refl x⟩
  · rintro text x y n m rfl hpath _
    exact ⟨n, Nat.le_refl n, x, hpath, [], Language.nil_mem_one, .refl x⟩

theorem trans (h : Passes code a b l) (h' : Passes code b c l') : Passes code a c (l * l') := by
  constructor
  · intro text x w rest hx hw hmem
    obtain ⟨u, hu, v, hv, rfl⟩ := Language.mem_mul.mp hmem
    rw [List.append_assoc] at hw
    obtain ⟨n, y, hpath, harrives⟩ := h.exists_path x hx hw hu
    have hrest : text.drop y.place = v ++ rest :=
      List.append_cancel_left (harrives.text_eq.symm.trans hw)
    obtain ⟨n', z, hpath', harrives'⟩ := h'.exists_path y harrives.address hrest hv
    exact ⟨n + n', z, hpath.trans hpath', harrives.trans harrives'⟩
  · intro text x y n m hx hpath hmatched
    obtain ⟨k, hk, z, hpath, u, hu, harrives⟩ := h.split hx hpath hmatched
    obtain ⟨k', hk', z', hpath, v, hv, harrives'⟩ := h'.split harrives.address hpath hmatched
    exact ⟨k', hk'.trans hk, z', hpath, u ++ v, Language.append_mem_mul hu hv,
      harrives.trans harrives'⟩

theorem congr (h : Passes code a b l) (hl : ∀ w, w ∈ l ↔ w ∈ l') : Passes code a b l' :=
  Language.ext hl ▸ h

/-- A path to a match does not end at an instruction that reports none. -/
theorem exists_step {x y : Config text} {n : Nat} {m : Match} {i : Instr}
    (hi : code[x.address]? = some i) (hnone : found? i x = none) (hpath : Path code n x y)
    (hmatched : Matched code y m) :
    ∃ k z, n = k + 1 ∧ z ∈ successors i x ∧ Path code k z y := by
  cases hpath with
  | refl =>
    obtain ⟨j, hj, hfound⟩ := hmatched
    obtain rfl := Option.some.inj (hi.symm.trans hj)
    rw [hnone] at hfound
    cases hfound
  | @step k _ z _ j hj hz hrest =>
    obtain rfl := Option.some.inj (hi.symm.trans hj)
    exact ⟨k, z, rfl, hz, hrest⟩

/-- An instruction for one character. -/
theorem single {i : Instr} {holds : Nat → Prop} (hi : code[a]? = some i)
    (hconsuming : i.isConsuming = true) (htakes : ∀ c, takes c i = true ↔ holds c.toNat) :
    Passes code a (a + 1) (oneChar holds) := by
  constructor
  · rintro text x u rest rfl hdrop ⟨c, rfl, hc⟩
    have hlt : x.place.val < text.length := by
      by_contra hge
      rw [List.drop_eq_nil_of_le (by omega)] at hdrop
      cases hdrop
    rw [List.drop_eq_getElem_cons hlt] at hdrop
    obtain ⟨hchar, hrest⟩ := List.cons.inj hdrop
    have hnext : x.next? = some c := (List.getElem?_eq_getElem hlt).trans (congrArg some hchar)
    refine ⟨1, ⟨x.address + 1, ⟨x.place + 1, by omega⟩, x.span⟩, .step hi ?_ (.refl _),
      rfl, ?_, rfl⟩
    · rw [successors_of_isConsuming hconsuming, hnext, Option.any_some, if_pos ((htakes c).mpr hc), Config.consumeTo,
        dif_pos hlt]
      exact List.mem_singleton_self _
    · rw [List.drop_eq_getElem_cons hlt, hchar]
      rfl
  · rintro text x y n m rfl hpath hmatched
    obtain ⟨k, z, rfl, hz, hpath⟩ :=
      exists_step hi (found?_of_isConsuming hconsuming x) hpath hmatched
    rw [successors_of_isConsuming hconsuming] at hz
    split at hz
    · rename_i hany
      obtain ⟨c, hnext, hc⟩ := (Option.any_eq_true _ _).mp hany
      unfold Config.consumeTo at hz
      split at hz
      · rename_i hlt
        obtain rfl := List.mem_singleton.mp hz
        have hchar : text[x.place.val] = c :=
          Option.some.inj ((List.getElem?_eq_getElem hlt).symm.trans hnext)
        refine ⟨k, Nat.le_succ k, _, hpath, [c], ⟨c, rfl, (htakes c).mp hc⟩, rfl, ?_, rfl⟩
        rw [List.drop_eq_getElem_cons hlt, hchar]
        rfl
      · cases hz
    · cases hz

/-- A jump to several places, from each of which control passes a language of its own. -/
theorem jump {targets : List Nat} (ways : List (Nat × Language Char))
    (hjump : code[a]? = some (.jump targets)) (htargets : ∀ t, t ∈ targets ↔ t ∈ ways.map (·.1))
    (hways : ∀ way ∈ ways, Passes code way.1 b way.2)
    (hl : ∀ w, w ∈ l ↔ ∃ way ∈ ways, w ∈ way.2) : Passes code a b l := by
  constructor
  · rintro text x u rest rfl hdrop hu
    obtain ⟨way, hway, hu⟩ := (hl u).mp hu
    have hgoto : x.goto way.1 ∈ successors (.jump targets) x :=
      List.mem_map_of_mem ((htargets way.1).mpr (List.mem_map_of_mem hway))
    obtain ⟨n, z, hpath, harrives⟩ := (hways way hway).exists_path (x.goto way.1) rfl hdrop hu
    exact ⟨n + 1, z, .step hjump hgoto hpath, harrives.address, harrives.text_eq, harrives.span⟩
  · rintro text x y n m rfl hpath hmatched
    obtain ⟨k, z, rfl, hz, hpath⟩ := exists_step hjump rfl hpath hmatched
    obtain ⟨t, ht, rfl⟩ := List.mem_map.mp hz
    obtain ⟨way, hway, rfl⟩ := List.mem_map.mp ((htargets t).mp ht)
    obtain ⟨k', hk', z', hpath, u, hu, harrives⟩ := (hways way hway).split rfl hpath hmatched
    exact ⟨k', hk'.trans (Nat.le_succ k), z', hpath, u, (hl u).mpr ⟨way, hway, hu⟩,
      harrives.address, harrives.text_eq, harrives.span⟩

/-- A jump to a single place consumes nothing. -/
theorem goto (hjump : code[a]? = some (.jump [b])) : Passes code a b 1 :=
  jump [(b, 1)] hjump (by simp) (List.forall_mem_singleton.mpr (.refl code b)) (by simp)

/-- A place from which control goes round through a body, or on to `b`. -/
theorem loop {body : Nat} {targets : List Nat} (hjump : code[a]? = some (.jump targets))
    (htargets : ∀ t, t ∈ targets ↔ t = body ∨ t = b) (h : Passes code body a l) :
    Passes code a b l∗ := by
  constructor
  · intro text x w rest hx hdrop hw
    -- induction on the rounds
    obtain ⟨rounds, rfl, hrounds⟩ := Language.mem_kstar.mp hw
    clear hw
    induction rounds generalizing x with
    | nil =>
      have hmem : x.goto b ∈ successors (.jump targets) x :=
        List.mem_map_of_mem ((htargets b).mpr (Or.inr rfl))
      exact ⟨1, x.goto b, .step (hx ▸ hjump) hmem (.refl _), rfl, rfl, rfl⟩
    | cons u rounds ih =>
      obtain ⟨hu, hrounds⟩ := List.forall_mem_cons.mp hrounds
      have hmem : x.goto body ∈ successors (.jump targets) x :=
        List.mem_map_of_mem ((htargets body).mpr (Or.inl rfl))
      rw [List.flatten_cons, List.append_assoc] at hdrop
      obtain ⟨n, y, hpath, harrives⟩ := h.exists_path (x.goto body) rfl hdrop hu
      have hround : Arrives x u a y := ⟨harrives.address, harrives.text_eq, harrives.span⟩
      have hrest : text.drop y.place = rounds.flatten ++ rest :=
        List.append_cancel_left (hround.text_eq.symm.trans hdrop)
      obtain ⟨n', z, hpath', harrives'⟩ := ih y hround.address hrounds hrest
      exact ⟨n + 1 + n', z, (Path.step (hx ▸ hjump) hmem hpath).trans hpath',
        hround.trans harrives'⟩
  · intro text x y n m hx hpath hmatched
    -- going round shortens the path that is left
    induction n using Nat.strong_induction_on generalizing x with
    | _ n ih =>
      obtain ⟨k, z, rfl, hz, hpath⟩ := exists_step (hx ▸ hjump) rfl hpath hmatched
      obtain ⟨t, ht, rfl⟩ := List.mem_map.mp hz
      rcases (htargets t).mp ht with rfl | rfl
      · obtain ⟨k', hk', y', hpath, u, hu, harrives⟩ := h.split rfl hpath hmatched
        obtain ⟨k'', hk'', z', hpath, v, hv, harrives'⟩ :=
          ih k' (Nat.lt_succ_of_le hk') harrives.address hpath
        have hround : Arrives x u a y' := ⟨harrives.address, harrives.text_eq, harrives.span⟩
        refine ⟨k'', by omega, z', hpath, u ++ v, ?_, hround.trans harrives'⟩
        rw [← Language.one_add_self_mul_kstar_eq_kstar]
        exact Or.inr (Language.append_mem_mul hu hv)
      · exact ⟨k, Nat.le_succ k, _, hpath, [], Language.nil_mem_kstar l, rfl, rfl, rfl⟩

end Passes

end Backtrack

namespace Program

/-! ## Pieces -/

/-- Wherever the code of the piece stands, control passes the language on its way through it. -/
def Piece.Denotes (piece : Piece) (l : Language Char) : Prop :=
  ∀ base c, piece base = .ok c → ∀ p, CodeAt p base c →
    Passes p base (base + c.length) l

section Pieces

variable {piece first second : Piece} {l l' : Language Char} {isLazy : Bool}

/-- Where the parts of a sequence are. -/
theorem codeAt_sequel {base : Nat} {c : Program} {p : Array Instr}
    (hc : sequel first second base = .ok c) (hat : CodeAt p base c) :
    ∃ c₁ c₂, first base = .ok c₁ ∧ CodeAt p base c₁ ∧ second (base + c₁.length) = .ok c₂ ∧
      CodeAt p (base + c₁.length) c₂ ∧ base + c₁.length + c₂.length = base + c.length := by
  obtain ⟨c₁, h₁, hc⟩ := Scan.bind_eq_ok.mp hc
  obtain ⟨c₂, h₂, hc⟩ := Scan.bind_eq_ok.mp hc
  obtain rfl := Except.ok.inj hc
  obtain ⟨hat₁, hat₂⟩ := codeAt_append.mp hat
  exact ⟨c₁, c₂, h₁, hat₁, h₂, hat₂, by rw [List.length_append, Nat.add_assoc]⟩

/-- Where the body of an option is, and the jump to it or past it. -/
theorem codeAt_optional {base : Nat} {c : Program} {p : Array Instr}
    (hc : optional piece isLazy base = .ok c) (hat : CodeAt p base c) :
    ∃ body, piece (base + 1) = .ok body ∧ CodeAt p (base + 1) body ∧
      p[base]? = some (.jump (preferring (base + 1) (base + c.length) isLazy)) ∧
      base + 1 + body.length = base + c.length := by
  obtain ⟨body, hbody, hc⟩ := Scan.bind_eq_ok.mp hc
  obtain rfl := Except.ok.inj hc
  obtain ⟨hjump, hat⟩ := codeAt_cons.mp hat
  have hend : base + 1 + body.length = base + (body.length + 1) := by omega
  rw [List.length_cons, ← hend]
  exact ⟨body, hbody, hat, hjump, rfl⟩

/-- Where the body of a star is, the jump to it or past it, and the jump back. -/
theorem codeAt_star {base : Nat} {c : Program} {p : Array Instr}
    (hc : star piece isLazy base = .ok c) (hat : CodeAt p base c) :
    ∃ body, piece (base + 1) = .ok body ∧ CodeAt p (base + 1) body ∧
      p[base]? = some (.jump (preferring (base + 1) (base + c.length) isLazy)) ∧
      p[base + 1 + body.length]? = some (.jump [base]) := by
  obtain ⟨body, hbody, hc⟩ := Scan.bind_eq_ok.mp hc
  obtain rfl := Except.ok.inj hc
  obtain ⟨hjump, hat⟩ := codeAt_cons.mp hat
  obtain ⟨hat, hback⟩ := codeAt_append.mp hat
  have hend : base + 1 + body.length + 1 = base + (body.length + 1 + 1) := by omega
  rw [List.length_cons, List.length_append, List.length_singleton, ← hend]
  exact ⟨body, hbody, hat, hjump, (codeAt_cons.mp hback).1⟩

/-- Where the body of a plus is, and the jump back to it or past it. -/
theorem codeAt_plus {base : Nat} {c : Program} {p : Array Instr}
    (hc : plus piece isLazy base = .ok c) (hat : CodeAt p base c) :
    ∃ body, piece base = .ok body ∧ CodeAt p base body ∧
      p[base + body.length]? = some (.jump (preferring base (base + c.length) isLazy)) := by
  obtain ⟨body, hbody, hc⟩ := Scan.bind_eq_ok.mp hc
  obtain rfl := Except.ok.inj hc
  obtain ⟨hat, hjump⟩ := codeAt_append.mp hat
  rw [List.length_append, List.length_singleton]
  exact ⟨body, hbody, hat, (codeAt_cons.mp hjump).1⟩

theorem Piece.Denotes.congr (h : piece.Denotes l) (hl : ∀ w, w ∈ l ↔ w ∈ l') : piece.Denotes l' :=
  Language.ext hl ▸ h

theorem denotes_nothing : Piece.Denotes nothing 1 := by
  intro base c hc p _
  obtain rfl := Except.ok.inj hc
  exact .refl _ base

theorem Piece.Denotes.sequel (h : first.Denotes l) (h' : second.Denotes l') :
    (sequel first second).Denotes (l * l') := by
  intro base c hc p hat
  obtain ⟨c₁, c₂, h₁, hat₁, h₂, hat₂, hend⟩ := codeAt_sequel hc hat
  exact hend ▸ (h base c₁ h₁ p hat₁).trans (h' _ c₂ h₂ p hat₂)

theorem Piece.Denotes.copies (h : piece.Denotes l) (n : Nat) :
    (copies piece n).Denotes (l ^ n) := by
  induction n with
  | zero =>
    rw [pow_zero]
    exact denotes_nothing
  | succ n ih =>
    rw [pow_succ']
    exact h.sequel ih

theorem Piece.Denotes.optional (h : piece.Denotes l) (isLazy : Bool) :
    (optional piece isLazy).Denotes (1 + l) := by
  intro base c hc p hat
  obtain ⟨body, hbody, hat, hjump, hend⟩ := codeAt_optional hc hat
  have hpass := hend ▸ h (base + 1) body hbody p hat
  have hdone := Passes.refl p (base + c.length)
  refine .jump [(base + 1, l), (base + c.length, 1)] hjump ?_ ?_ ?_
  · intro t
    rw [mem_preferring]
    simp
  · exact List.forall_mem_cons.mpr ⟨hpass, List.forall_mem_singleton.mpr hdone⟩
  · intro w
    rw [Language.mem_add]
    simp [or_comm]

theorem Piece.Denotes.star (h : piece.Denotes l) (isLazy : Bool) :
    (star piece isLazy).Denotes l∗ := by
  intro base c hc p hat
  obtain ⟨body, hbody, hat, hjump, hback⟩ := codeAt_star hc hat
  have hround : Passes p (base + 1) base l := by
    have h := (h (base + 1) body hbody p hat).trans (.goto hback)
    rwa [mul_one] at h
  exact .loop hjump (fun t => mem_preferring) hround

theorem Piece.Denotes.plus (h : piece.Denotes l) (isLazy : Bool) :
    (plus piece isLazy).Denotes (l * l∗) := by
  intro base c hc p hat
  obtain ⟨body, hbody, hat, hjump⟩ := codeAt_plus hc hat
  have hround := h base body hbody p hat
  exact hround.trans (.loop hjump (fun t => mem_preferring) hround)

theorem Piece.Denotes.repeated (h : piece.Denotes l) {min : Nat} {max : Option Nat}
    (hbounds : ∀ m, max = some m → min ≤ m ∧ 0 < m) (isLazy : Bool) :
    (repeated piece min max isLazy).Denotes {w | ∃ k, InBounds min max k ∧ w ∈ l ^ k} := by
  have hcongr : ∀ {piece' : Piece} {l' : Language Char}, piece'.Denotes l' →
      (∀ w, w ∈ l' ↔ ∃ k, InBounds min max k ∧ w ∈ l ^ k) →
      piece'.Denotes {w | ∃ k, InBounds min max k ∧ w ∈ l ^ k} := fun h hl => h.congr hl
  unfold Program.repeated
  split
  · refine hcongr (h.star isLazy) fun w => ?_
    have hpow := @Automaton.mem_pow_mul_kstar_iff l w 0
    rw [pow_zero, one_mul] at hpow
    simp [hpow, InBounds]
  · exact absurd (hbounds 0 rfl).2 (Nat.lt_irrefl 0)
  · refine hcongr (h.plus isLazy) fun w => ?_
    have hpow := @Automaton.mem_pow_mul_kstar_iff l w 1
    rw [pow_one] at hpow
    simp [hpow, InBounds]
  · refine hcongr ((h.copies min).sequel (h.star isLazy)) fun w => ?_
    rw [Automaton.mem_pow_mul_kstar_iff]
    simp [InBounds]
  · rename_i m _
    have hle := (hbounds m rfl).1
    rw [if_neg (by omega)]
    refine hcongr ((h.copies min).sequel ((h.optional isLazy).copies (m - min))) fun w => ?_
    rw [Automaton.mem_pow_mul_one_add_pow_iff, Nat.add_sub_cancel' hle]
    simp [InBounds, and_assoc]

end Pieces

/-! ## Choices -/

theorem language_of_isEmpty {q : Pattern} (h : q.isEmpty = true) : q.language = 1 := by
  unfold Pattern.isEmpty at h
  split at h
  · rw [language, languageOfSequence]
  · cases h

/-- Empty branches take no instructions. -/
theorem totalSize_of_isEmpty {ps : List Pattern} (h : ∀ q ∈ ps, q.isEmpty = true)
    {seenEmpty : Bool} {base : Nat} {branches : List Branch}
    (hcode : codeBranches ps seenEmpty base = .ok branches) : Branch.totalSize branches = 0 := by
  induction ps generalizing seenEmpty base branches with
  | nil =>
    rw [codeBranches] at hcode
    obtain rfl := Except.ok.inj hcode
    rfl
  | cons q ps ih =>
    obtain ⟨hq, hps⟩ := List.forall_mem_cons.mp h
    rw [codeBranches, if_pos hq] at hcode
    obtain ⟨more, hmore, hcode⟩ := Scan.bind_eq_ok.mp hcode
    obtain rfl := Except.ok.inj hcode
    have hzero := ih hps hmore
    split
    · exact hzero
    · rw [Branch.totalSize, hzero]
      rfl

/-- Behind the code of a branch the choice ends, be it that a jump joins there or that nothing but empty
branches is left. -/
theorem codeAt_branch {ps : List Pattern} {seenEmpty : Bool} {base done : Nat} {body : Program}
    {more : List Branch} {p : Array Instr}
    (hmore : codeBranches ps seenEmpty
      (base + body.length + if ps.any (!·.isEmpty) then 1 else 0) = .ok more)
    (hdone : base + Branch.totalSize (⟨some base, body, ps.any (!·.isEmpty)⟩ :: more) = done)
    (hat : CodeAt p base (Branch.code done ⟨some base, body, ps.any (!·.isEmpty)⟩)) :
    CodeAt p base body ∧
      (p[base + body.length]? = some (.jump [done]) ∨ base + body.length = done) := by
  obtain ⟨hat, hjoin⟩ := codeAt_append.mp hat
  refine ⟨hat, ?_⟩
  cases hjoins : ps.any (!·.isEmpty) with
  | true =>
    rw [hjoins, if_pos rfl] at hjoin
    exact Or.inl (codeAt_cons.mp hjoin).1
  | false =>
    have hempty : ∀ r ∈ ps, r.isEmpty = true := by simpa using hjoins
    right
    rw [← hdone, hjoins, Branch.totalSize, Branch.size, totalSize_of_isEmpty hempty hmore]
    rfl

/-- Where the branches of a choice that ends at `done` begin in a program. `seenEmpty` tells whether there
was an empty branch before, after which another one has no place of its own. -/
inductive Entries (p : Array Instr) (done : Nat) : List Pattern → Bool → List Nat → Prop where
  /-- No branch is left. -/
  | nil {seenEmpty : Bool} : Entries p done [] seenEmpty []
  /-- Another empty branch. -/
  | again {q : Pattern} {ps : List Pattern} {ts : List Nat} (hq : q.isEmpty = true)
      (h : Entries p done ps true ts) : Entries p done (q :: ps) true ts
  /-- The first empty branch. -/
  | empty {q : Pattern} {ps : List Pattern} {ts : List Nat} (hq : q.isEmpty = true)
      (h : Entries p done ps true ts) : Entries p done (q :: ps) false (done :: ts)
  /-- A branch with code, behind which a jump joins at the end, or the end comes at once. -/
  | branch {q : Pattern} {ps : List Pattern} {seenEmpty : Bool} {ts : List Nat} {base : Nat}
      {body : Program} (hbody : code q base = .ok body) (hat : CodeAt p base body)
      (hjoin : p[base + body.length]? = some (.jump [done]) ∨ base + body.length = done)
      (h : Entries p done ps seenEmpty ts) : Entries p done (q :: ps) seenEmpty (base :: ts)

/-- The jump at the beginning of a choice leads to its branches. -/
theorem entries_codeBranches {ps : List Pattern} {seenEmpty : Bool} {base done : Nat}
    {branches : List Branch} {p : Array Instr}
    (hcode : codeBranches ps seenEmpty base = .ok branches)
    (hdone : base + Branch.totalSize branches = done)
    (hat : CodeAt p base (branches.flatMap (Branch.code done))) :
    Entries p done ps seenEmpty (branches.map fun b => b.entry.getD done) := by
  induction ps generalizing seenEmpty base branches with
  | nil =>
    rw [codeBranches] at hcode
    obtain rfl := Except.ok.inj hcode
    exact .nil
  | cons q ps ih =>
    rw [codeBranches] at hcode
    by_cases hempty : q.isEmpty = true
    · rw [if_pos hempty] at hcode
      obtain ⟨more, hmore, hcode⟩ := Scan.bind_eq_ok.mp hcode
      obtain rfl := Except.ok.inj hcode
      cases seenEmpty with
      | true => exact .again hempty (ih hmore hdone hat)
      | false =>
        have hsize : Branch.totalSize (⟨none, [], false⟩ :: more) = Branch.totalSize more := by
          simp [Branch.totalSize, Branch.size]
        exact .empty hempty (ih hmore (hsize ▸ hdone) hat)
    · rw [if_neg hempty] at hcode
      obtain ⟨body, hbody, hcode⟩ := Scan.bind_eq_ok.mp hcode
      obtain ⟨more, hmore, hcode⟩ := Scan.bind_eq_ok.mp hcode
      obtain rfl := Except.ok.inj hcode
      rw [List.flatMap_cons] at hat
      obtain ⟨hbranch, hat⟩ := codeAt_append.mp hat
      obtain ⟨hatBody, hjoin⟩ := codeAt_branch hmore hdone hbranch
      rw [Branch.length_code, Branch.size] at hat
      rw [Branch.totalSize, Branch.size] at hdone
      refine .branch hbody hatBody hjoin (ih hmore ?_ (by rw [Nat.add_assoc]; exact hat))
      rw [← hdone]
      simp only
      omega

/-- The branches of a choice that ends at `done` are ways to get there. An empty branch may be left
out if there was one before. -/
theorem exists_ways {ps : List Pattern} (h : ∀ q ∈ ps, Piece.Denotes (code q) q.language)
    {seenEmpty : Bool} {done : Nat} {ts : List Nat} {p : Array Instr}
    (hentries : Entries p done ps seenEmpty ts) :
    ∃ ways : List (Nat × Language Char),
      ways.map (·.1) = ts ∧ (∀ way ∈ ways, Passes p way.1 done way.2) ∧
      ∀ w, ((∃ way ∈ ways, w ∈ way.2) ∨ seenEmpty = true ∧ w = []) ↔
        (w ∈ languageOfChoice ps ∨ seenEmpty = true ∧ w = []) := by
  induction hentries with
  | nil => exact ⟨[], rfl, by simp, fun w => by simp [languageOfChoice]⟩
  | again hempty _ ih =>
    obtain ⟨ways, hfst, hways, hmem⟩ := ih (List.forall_mem_cons.mp h).2
    refine ⟨ways, hfst, hways, fun w => ?_⟩
    rw [languageOfChoice, Language.mem_add, language_of_isEmpty hempty, hmem w, Language.mem_one]
    tauto
  | empty hempty _ ih =>
    obtain ⟨ways, hfst, hways, hmem⟩ := ih (List.forall_mem_cons.mp h).2
    refine ⟨(done, 1) :: ways, congrArg (done :: ·) hfst,
      List.forall_mem_cons.mpr ⟨.refl p done, hways⟩, fun w => ?_⟩
    have hw := hmem w
    rw [languageOfChoice, Language.mem_add, language_of_isEmpty hempty]
    simp only [List.exists_mem_cons_iff, Language.mem_one, Bool.false_eq_true, false_and,
      or_false, true_and] at hw ⊢
    rw [or_comm, hw, or_comm]
  | @branch q _ _ _ base body hbody hat hjoin _ ih =>
    obtain ⟨hq, hps⟩ := List.forall_mem_cons.mp h
    have hpass : Passes p base done q.language := by
      have h := hq base body hbody p hat
      rcases hjoin with hjump | rfl
      · have hjoined := h.trans (.goto hjump)
        rwa [mul_one] at hjoined
      · exact h
    obtain ⟨ways, hfst, hways, hmem⟩ := ih hps
    refine ⟨(base, q.language) :: ways, congrArg (base :: ·) hfst,
      List.forall_mem_cons.mpr ⟨hpass, hways⟩, fun w => ?_⟩
    rw [languageOfChoice, Language.mem_add, List.exists_mem_cons_iff, or_assoc, hmem w, ← or_assoc]

/-! ## Patterns -/

theorem denotes_codeItems {items : List Pattern}
    (h : ∀ q ∈ items, Piece.Denotes (code q) q.language) :
    Piece.Denotes (codeItems items) (languageOfSequence items) := by
  induction items with
  | nil =>
    intro base c hc
    rw [codeItems] at hc
    rw [languageOfSequence]
    exact denotes_nothing base c hc
  | cons q items ih =>
    obtain ⟨hq, hitems⟩ := List.forall_mem_cons.mp h
    intro base c hc
    rw [codeItems] at hc
    rw [languageOfSequence]
    exact hq.sequel (ih hitems) base c hc

/-- The code of a pattern of one character. -/
theorem denotes_single {q : Pattern} {i : Instr} {holds : Nat → Prop}
    (hcode : ∀ base, code q base = .ok [i]) (hconsuming : i.isConsuming = true)
    (htakes : ∀ c, takes c i = true ↔ holds c.toNat) :
    Piece.Denotes (code q) (oneChar holds) := by
  intro base c hc p hat
  obtain rfl := Except.ok.inj ((hcode base).symm.trans hc)
  exact .single (codeAt_cons.mp hat).1 hconsuming htakes

/-- The code of a well-formed pattern passes the language of the pattern. -/
theorem denotes_code {q : Pattern} (h : q.WellFormed) : Piece.Denotes (code q) q.language := by
  induction h with
  | literal cp =>
    rw [language]
    refine denotes_single (fun base => by rw [code]) rfl fun c => ?_
    simp only [takes, beq_iff_eq]
    exact eq_comm
  | dot =>
    rw [language]
    exact denotes_single (fun base => by rw [code]) rfl fun c => by simp [takes]
  | @oneOf set hset negated =>
    rw [language]
    refine denotes_single (fun base => by rw [code]) (by cases negated <;> rfl) fun c => ?_
    rw [← CodeSet.contains_iff_covers hset]
    cases negated <;> simp [takes]
  | category cat negated =>
    rw [language]
    refine denotes_single (fun base => by rw [code]) (by cases negated <;> rfl) fun c => ?_
    cases negated <;> simp [takes]
  | concat _ ih =>
    intro base c hc
    rw [code] at hc
    rw [language]
    exact denotes_codeItems ih base c hc
  | alt _ _ ih =>
    intro base c hc p hat
    rw [code] at hc
    obtain ⟨branches, hbranches, hc⟩ := Scan.bind_eq_ok.mp hc
    obtain rfl := Except.ok.inj hc
    obtain ⟨hjump, hat⟩ := codeAt_cons.mp hat
    obtain ⟨ways, hfst, hways, hmem⟩ :=
      exists_ways ih (entries_codeBranches hbranches rfl hat)
    rw [language, choice, List.length_cons, Branch.length_flatMap_code, Nat.add_comm _ 1,
      ← Nat.add_assoc]
    refine .jump ways hjump (fun t => by rw [hfst]) hways fun w => ?_
    simpa using (hmem w).symm
  | repetition _ hbounds isLazy ih =>
    intro base c hc
    rw [code] at hc
    rw [language]
    exact ih.repeated hbounds isLazy base c hc

/-! ## Bounds of zero and zero -/

theorem repeated_upperBound (piece : Piece) (min : Nat) (max : Option Nat) (isLazy : Bool) :
    repeated piece min (upperBound min max) isLazy = repeated piece min max isLazy := by
  by_cases hzero : min = 0 ∧ max = some 0
  · obtain ⟨rfl, rfl⟩ := hzero
    rfl
  · rw [upperBound, if_neg hzero]

theorem isEmpty_opened (q : Pattern) : q.opened.isEmpty = q.isEmpty := by
  cases q with
  | concat items => cases items <;> rfl
  | _ => rfl

theorem codeItems_openedAll {ps : List Pattern} (h : ∀ q ∈ ps, code q.opened = code q) :
    codeItems (openedAll ps) = codeItems ps := by
  induction ps with
  | nil => rfl
  | cons q ps ih =>
    obtain ⟨hq, hps⟩ := List.forall_mem_cons.mp h
    funext base
    rw [openedAll, codeItems, codeItems, hq, ih hps]

theorem codeBranches_openedAll {ps : List Pattern} (h : ∀ q ∈ ps, code q.opened = code q)
    (seenEmpty : Bool) (base : Nat) :
    codeBranches (openedAll ps) seenEmpty base = codeBranches ps seenEmpty base := by
  induction ps generalizing seenEmpty base with
  | nil => rfl
  | cons q ps ih =>
    obtain ⟨hq, hps⟩ := List.forall_mem_cons.mp h
    have hjoins : (openedAll ps).any (!·.isEmpty) = ps.any (!·.isEmpty) := by
      rw [openedAll_eq_map, List.any_map]
      simp only [Function.comp_def, isEmpty_opened]
    simp only [openedAll, codeBranches, isEmpty_opened, hq, hjoins, ih hps]

/-- Bounds of zero and zero have the code of no bounds. -/
theorem code_opened {q : Pattern} (h : q.Composed) : code q.opened = code q := by
  funext base
  induction h generalizing base with
  | literal cp => rfl
  | dot => rfl
  | oneOf _ negated => rfl
  | category cat negated => rfl
  | concat _ ih =>
    rw [opened, code, code, codeItems_openedAll fun q hq => funext (ih q hq)]
  | alt _ _ ih =>
    rw [opened, code, code, codeBranches_openedAll fun q hq => funext (ih q hq)]
  | repetition _ min max isLazy ih =>
    rw [opened, code, code, repeated_upperBound, funext ih]

/-! ## Rules -/

/-- What is recorded and reported where a match ends. -/
theorem matched_ending_iff {text : List Char} {p : Array Instr} {symbol : Int} {z : Config text}
    (hat : CodeAt p z.address [.save 1, .accept symbol]) {m : Match} :
    (∃ n y, Path p n z y ∧ Matched p y m) ↔ m = ⟨symbol, z.span.start, z.offset⟩ := by
  obtain ⟨hsave, hat⟩ := codeAt_cons.mp hat
  obtain ⟨haccept, -⟩ := codeAt_cons.mp hat
  constructor
  · rintro ⟨n, y, hpath, hmatched⟩
    obtain ⟨k, z', rfl, hz', hpath⟩ := Passes.exists_step hsave rfl hpath hmatched
    obtain rfl := List.mem_singleton.mp hz'
    cases hpath with
    | refl =>
      obtain ⟨i, hi, hfound⟩ := hmatched
      obtain rfl := Option.some.inj (haccept.symm.trans hi)
      exact (Option.some.inj hfound).symm
    | step hx hy _ =>
      obtain rfl := Option.some.inj (haccept.symm.trans hx)
      cases hy
  · rintro rfl
    exact ⟨1, _, .step hsave (List.mem_singleton_self _) (.refl _), _, haccept, rfl⟩

/-- The matches of the code of a rule are the beginnings of the text that are in the language. -/
theorem matched_terminate_iff {body : Program} {l : Language Char} {symbol : Int}
    (h : Passes (terminate body symbol).toArray 0 body.length l) {text : List Char} {m : Match} :
    (∃ n y, Path (terminate body symbol).toArray n (start text) y ∧
        Matched (terminate body symbol).toArray y m) ↔
      ∃ u rest, text = u ++ rest ∧ u ∈ l ∧ m = ⟨symbol, 0, byteLength u⟩ := by
  obtain ⟨-, hat⟩ := codeAt_append.mp (codeAt_self (terminate body symbol))
  rw [Nat.zero_add] at hat
  have hoffset : ∀ {u : List Char} {z : Config text}, Arrives (start text) u body.length z →
      z.offset = byteLength u ∧ text = u ++ text.drop z.place := by
    intro u z harrives
    have htext : text = u ++ text.drop z.place := harrives.text_eq
    have hsplit : text.take z.place ++ text.drop z.place = u ++ text.drop z.place :=
      (List.take_append_drop _ _).trans htext
    exact ⟨congrArg byteLength (List.append_cancel_right hsplit), htext⟩
  constructor
  · rintro ⟨n, y, hpath, hmatched⟩
    obtain ⟨k, -, z, hpath, u, hu, harrives⟩ := h.split rfl hpath hmatched
    obtain ⟨hz, htext⟩ := hoffset harrives
    have hm := (matched_ending_iff (harrives.address.symm ▸ hat)).mp ⟨k, y, hpath, hmatched⟩
    rw [harrives.span, hz] at hm
    exact ⟨u, _, htext, hu, hm⟩
  · rintro ⟨u, rest, htext, hu, rfl⟩
    obtain ⟨n, z, hpath, harrives⟩ := h.exists_path (start text) rfl htext hu
    obtain ⟨k, y, hend, hmatched⟩ :=
      (matched_ending_iff (harrives.address.symm ▸ hat)).mpr rfl
    rw [harrives.span, (hoffset harrives).1] at hmatched
    exact ⟨n + k, y, hpath.trans hend, hmatched⟩

/-- A rule whose bounds are in order has code, greedy or lazy. Run on a text, the code finds a match
exactly if the denotation of the pattern has a beginning of the text, and what it finds is such a
beginning, with the symbol of the rule. -/
theorem run_ofRule_recognizes {p : Pattern} (hp : p.Composed) (hbounds : p.InOrder)
    (symbol : Int) :
    ∃ code, ofRule p symbol = .ok code ∧ ∀ text : String,
      (((Machine.ofProgram code).run (.ofString text)).result = none ↔
        ∀ u rest, text.toList = u ++ rest → u ∉ p.denotation) ∧
      ∀ m, ((Machine.ofProgram code).run (.ofString text)).result = some m →
        ∃ u rest, text.toList = u ++ rest ∧ u ∈ p.denotation ∧
          m = ⟨symbol, 0, byteLength u⟩ := by
  obtain ⟨body, hbody, -⟩ := fits_code hbounds 0
  have hpass : Passes (terminate body symbol).toArray 0 body.length p.denotation := by
    obtain ⟨hat, -⟩ := codeAt_append.mp (codeAt_self (terminate body symbol))
    have hopened : code p.opened 0 = .ok body := by rw [code_opened hp, hbody]
    have h := denotes_code (hp.wellFormed_of_inOrder hbounds) 0 body hopened _ hat
    rwa [Nat.zero_add] at h
  refine ⟨terminate body symbol, Scan.bind_eq_ok.mpr ⟨body, hbody, rfl⟩, fun text => ?_⟩
  have hrun : ((Machine.ofProgram (terminate body symbol)).run (.ofString text)).result =
      search (terminate body symbol) text.toList := Machine.run_result _ _
  rw [hrun, search]
  constructor
  · rw [explore_eq_none_iff, List.forall_mem_singleton]
    constructor
    · intro h u rest htext hu
      obtain ⟨n, y, hpath, hmatched⟩ := (matched_terminate_iff hpass).mpr ⟨u, rest, htext, hu, rfl⟩
      exact h n y hpath _ hmatched
    · intro h n y hpath m hmatched
      obtain ⟨u, rest, htext, hu, -⟩ := (matched_terminate_iff hpass).mp ⟨n, y, hpath, hmatched⟩
      exact h u rest htext hu
  · intro m hm
    obtain ⟨x, hx, hpath⟩ := exists_path_of_explore ∅ _ hm
    obtain rfl := List.mem_singleton.mp hx
    exact (matched_terminate_iff hpass).mp hpath

/-- Lazy rounds, by bounds of zero and zero, of a body that may be empty in two ways, and then two
or three characters outside a set or other than small letters. -/
def idling : Pattern :=
  .concat [.repetition (.alt [.concat [], .repetition (.literal 97) 0 none false, .concat []]) 0
      (some 0) true,
    .repetition (.alt [.oneOf #[⟨48, 57⟩, ⟨97, 102⟩] true, .category .lowercaseLetter true]) 2
      (some 3) true]

theorem run_ofRule_recognizes_idling :
    idling.Composed ∧ idling.InOrder ∧
      ∃ code, ofRule idling 7 = .ok code ∧ ∀ text : String,
        (((Machine.ofProgram code).run (.ofString text)).result = none ↔
          ∀ u rest, text.toList = u ++ rest → u ∉ idling.denotation) ∧
        ∀ m, ((Machine.ofProgram code).run (.ofString text)).result = some m →
          ∃ u rest, text.toList = u ++ rest ∧ u ∈ idling.denotation ∧
            m = ⟨7, 0, byteLength u⟩ := by
  have hset : CodeSet.Ordered (#[⟨48, 57⟩, ⟨97, 102⟩] : CodeSet).toList :=
    ⟨by unfold CodeSet.Proper; decide, by decide⟩
  have hcomposed : idling.Composed := by
    refine .concat ?_
    simp only [List.forall_mem_cons]
    refine ⟨.repetition (.alt (by simp) ?_) .., .repetition (.alt (by simp) ?_) .., by simp⟩
    · simp only [List.forall_mem_cons]
      exact ⟨.concat (by simp), .repetition (.literal 97) .., .concat (by simp), by simp⟩
    · simp only [List.forall_mem_cons]
      exact ⟨.oneOf hset true, .category .lowercaseLetter true, by simp⟩
  have hbounds : idling.InOrder := by
    refine .concat ?_
    simp only [List.forall_mem_cons]
    refine ⟨.repetition (.alt ?_) (by simp) true, .repetition (.alt ?_) (by simp) true, by simp⟩
    · simp only [List.forall_mem_cons]
      exact ⟨.concat (by simp), .repetition (.literal 97) (by simp) false, .concat (by simp),
        by simp⟩
    · simp only [List.forall_mem_cons]
      exact ⟨.oneOf _ true, .category .lowercaseLetter true, by simp⟩
  exact ⟨hcomposed, hbounds, run_ofRule_recognizes hcomposed hbounds 7⟩

end Program

end FiberLex
