import FiberLex.Proofs.Pattern.Ends
import FiberLex.Proofs.Program.Recognition
import Mathlib.Tactic

/-!
# The order of jumps decides the match

`Becomes code xs ys` says that the search of a stack comes down to that of another, whatever is below
them. A piece of code for a pattern makes of a configuration those behind it at the ends of the
pattern, in the same order (`tries_code`): the order of the targets of a jump is the order of
preference, and an empty branch of a choice may be left out after another, because whatever is
searched twice was in vain the first time. The machine therefore finds the first of the ends
(`run_ofRule_prefers`), as long as no repetition without an upper bound goes round without getting
further.
-/

namespace FiberLex

open Backtrack Pattern

namespace Backtrack

variable {text : List Char} {code : Array Instr}

/-- The configuration at another address and place, with the same recorded. -/
def Config.moveTo (x : Config text) (address : Nat) (place : Fin (text.length + 1)) : Config text :=
  ⟨address, place, x.span⟩

/-- Whatever is below, the search of one stack comes to what that of another comes to. -/
def Becomes (code : Array Instr) (xs ys : List (Config text)) : Prop :=
  ∀ rest r, Finds code (ys ++ rest) r → Finds code (xs ++ rest) r

namespace Becomes

variable {xs ys zs : List (Config text)}

theorem refl (xs : List (Config text)) : Becomes code xs xs := fun _ _ h => h

theorem trans (h : Becomes code xs ys) (h' : Becomes code ys zs) : Becomes code xs zs :=
  fun rest r hr => h rest r (h' rest r hr)

theorem append {xs' ys' : List (Config text)} (h : Becomes code xs ys)
    (h' : Becomes code xs' ys') : Becomes code (xs ++ xs') (ys ++ ys') := by
  intro rest r hr
  rw [List.append_assoc] at hr ⊢
  refine h _ r ?_
  rcases hr.split with ⟨m, rfl, hfound⟩ | ⟨hvain, hr⟩
  · exact hfound.append_some _
  · exact hvain.append_none (h' rest r hr)

/-- Configurations at several places become those further on from each. -/
theorem flatMap {g : Reach text} {x : Config text} {a b : Nat}
    {places : List (Fin (text.length + 1))}
    (h : ∀ j ∈ places, Becomes code [x.moveTo a j] ((g j).map (x.moveTo b))) :
    Becomes code (places.map (x.moveTo a)) ((places.flatMap g).map (x.moveTo b)) := by
  induction places with
  | nil => exact refl []
  | cons j places ih =>
    obtain ⟨hj, hplaces⟩ := List.forall_mem_cons.mp h
    rw [List.flatMap_cons, List.map_append]
    exact hj.append (ih hplaces)

theorem step {x : Config text} {i : Instr} (hx : code[x.address]? = some i)
    (hm : found? i x = none) : Becomes code [x] (successors i x) :=
  fun _ _ hr => .step hx hm hr

/-- A configuration may be left out below itself: if the search comes to it again, it was in
vain. -/
theorem drop {y : Config text} (hy : y ∈ xs) (ys : List (Config text)) :
    Becomes code (xs ++ ys) (xs ++ y :: ys) := by
  intro rest r hr
  rw [List.append_assoc] at hr ⊢
  rcases hr.split with ⟨m, rfl, hfound⟩ | ⟨hvain, hr⟩
  · exact hfound.append_some _
  · exact hvain.append_none (hr.of_vain (hvain.of_mem hy))

end Becomes

/-- From `a` control comes to `b`, at the places that `f` lists and in that order of
preference. -/
def Prefers (code : Array Instr) (a b : Nat) (f : Reach text) : Prop :=
  ∀ x : Config text, x.address = a → Becomes code [x] ((f x.place).map (x.moveTo b))

namespace Prefers

variable {a b c : Nat} {f g : Reach text}

theorem refl (code : Array Instr) (a : Nat) : Prefers code a a (Reach.stay : Reach text) := by
  rintro x rfl
  exact .refl [x]

theorem trans (h : Prefers code a b f) (h' : Prefers code b c g) : Prefers code a c (f.andThen g) := by
  intro x hx
  exact (h x hx).trans (.flatMap fun j _ => h' (x.moveTo b j) rfl)

/-- A jump to a single place. -/
theorem goto (hjump : code[a]? = some (.jump [b])) :
    Prefers code a b (Reach.stay : Reach text) := by
  rintro x rfl
  exact .step hjump rfl

/-- An instruction for one character. -/
theorem single {i : Instr} {holds : Nat → Bool} (hi : code[a]? = some i)
    (hconsuming : i.isConsuming = true) (htakes : ∀ c, takes c i = holds c.toNat) :
    Prefers code a (a + 1) (Reach.next holds : Reach text) := by
  rintro x rfl
  have hsucc : successors i x = (Reach.next holds x.place).map (x.moveTo (x.address + 1)) := by
    rw [successors_of_isConsuming hconsuming, Config.next?, Config.consumeTo, Reach.next]
    by_cases hlt : x.place.val < text.length
    · rw [List.getElem?_eq_getElem hlt, Option.any_some, htakes, dif_pos hlt, dif_pos hlt]
      split <;> rfl
    · rw [List.getElem?_eq_none (by omega), dif_neg hlt, dif_neg hlt]
      rfl
  exact hsucc ▸ .step hi (found?_of_isConsuming hconsuming x)

/-- A jump through a body, or past it. -/
theorem choose_at {x : Config text} {body : Nat} {isLazy : Bool}
    (hjump : code[x.address]? = some (.jump (Program.preferring body b isLazy)))
    (h : Becomes code [x.goto body] ((f x.place).map (x.moveTo b))) :
    Becomes code [x] ((f.orStay isLazy x.place).map (x.moveTo b)) := by
  refine (Becomes.step hjump rfl).trans ?_
  cases isLazy with
  | false =>
    have happend : (f.orStay false x.place).map (x.moveTo b) =
        (f x.place).map (x.moveTo b) ++ [x.goto b] := List.map_append
    rw [happend]
    exact h.append (.refl _)
  | true => exact (Becomes.refl [x.goto b]).append h

/-- A place from which control goes round through a body that gets further, or on to `b`. -/
theorem loop {body : Nat} {isLazy : Bool} (hadvances : f.Advances)
    (hjump : code[a]? = some (.jump (Program.preferring body b isLazy))) (h : Prefers code body a f) :
    Prefers code a b (f.star isLazy) := by
  intro x hx
  -- every round gets further, so that less text is left
  induction hleft : text.length - x.place using Nat.strong_induction_on generalizing x with
  | _ left ih =>
  rw [hadvances.star_eq]
  refine choose_at (hx ▸ hjump) ((h (x.goto body) rfl).trans (.flatMap fun j hj => ?_))
  have hlt := Fin.lt_def.mp (hadvances x.place j hj)
  have hj' := j.isLt
  exact ih (text.length - j) (by omega) (x.moveTo a j) rfl rfl

end Prefers

end Backtrack

namespace Program

variable {text : List Char}

/-! ## Pieces -/

/-- Wherever the code of the piece stands, control comes to its end at the places that `f` lists, and
in that order of preference. -/
def Piece.Tries (piece : Piece) (f : Reach text) : Prop :=
  ∀ base c, piece base = .ok c → ∀ p, CodeAt p base c → Prefers p base (base + c.length) f

section Pieces

variable {piece first second : Piece} {f g : Reach text} {isLazy : Bool}

theorem tries_nothing : Piece.Tries nothing (Reach.stay : Reach text) := by
  intro base c hc p _
  obtain rfl := Except.ok.inj hc
  exact .refl p base

theorem Piece.Tries.sequel (h : first.Tries f) (h' : second.Tries g) :
    (sequel first second).Tries (f.andThen g) := by
  intro base c hc p hat
  obtain ⟨c₁, c₂, h₁, hat₁, h₂, hat₂, hend⟩ := codeAt_sequel hc hat
  exact hend ▸ (h base c₁ h₁ p hat₁).trans (h' _ c₂ h₂ p hat₂)

theorem Piece.Tries.copies (h : piece.Tries f) (n : Nat) :
    (copies piece n).Tries (f.times n) := by
  induction n with
  | zero => exact tries_nothing
  | succ n ih => exact h.sequel ih

theorem Piece.Tries.optional (h : piece.Tries f) (isLazy : Bool) :
    (optional piece isLazy).Tries (f.orStay isLazy) := by
  intro base c hc p hat
  obtain ⟨body, hbody, hat, hjump, hend⟩ := codeAt_optional hc hat
  have hbody := hend ▸ h (base + 1) body hbody p hat
  rintro x rfl
  exact Prefers.choose_at hjump (hbody (x.goto (x.address + 1)) rfl)

theorem Piece.Tries.star (h : piece.Tries f) (hadvances : f.Advances) (isLazy : Bool) :
    (star piece isLazy).Tries (f.star isLazy) := by
  intro base c hc p hat
  obtain ⟨body, hbody, hat, hjump, hback⟩ := codeAt_star hc hat
  have hround : Prefers p (base + 1) base f := by
    have h := (h (base + 1) body hbody p hat).trans (.goto hback)
    rwa [Reach.andThen_stay] at h
  exact .loop hadvances hjump hround

theorem Piece.Tries.plus (h : piece.Tries f) (hadvances : f.Advances) (isLazy : Bool) :
    (plus piece isLazy).Tries (f.andThen (f.star isLazy)) := by
  intro base c hc p hat
  obtain ⟨body, hbody, hat, hjump⟩ := codeAt_plus hc hat
  have hround := h base body hbody p hat
  exact hround.trans (.loop hadvances hjump hround)

theorem Piece.Tries.repeated (h : piece.Tries f) {min : Nat} {max : Option Nat}
    (hbounds : ∀ m, max = some m → min ≤ m ∧ 0 < m) (hadvances : max = none → f.Advances)
    (isLazy : Bool) : (repeated piece min max isLazy).Tries (f.repeated min max isLazy) := by
  unfold Program.repeated
  split
  · have hzero : f.repeated 0 none isLazy = f.star isLazy := Reach.stay_andThen _
    rw [hzero]
    exact h.star (hadvances rfl) isLazy
  · exact absurd (hbounds 0 rfl).2 (Nat.lt_irrefl 0)
  · have hone : f.times 1 = f := Reach.andThen_stay f
    rw [Reach.repeated, hone]
    exact h.plus (hadvances rfl) isLazy
  · exact (h.copies min).sequel (h.star (hadvances rfl) isLazy)
  · rename_i m _
    have hle := (hbounds m rfl).1
    rw [if_neg (by omega)]
    exact (h.copies min).sequel ((h.optional isLazy).copies (m - min))

end Pieces

/-! ## Choices -/

theorem ends_of_isEmpty {q : Pattern} (h : q.isEmpty = true) :
    q.ends = (Reach.stay : Reach text) := by
  unfold Pattern.isEmpty at h
  split at h
  · rw [ends, endsInTurn]
  · cases h

/-- The branches of a choice that ends at `done` are tried in order. An empty branch may be left out if
there was one before. -/
theorem becomes_branches {ps : List Pattern}
    (h : ∀ q ∈ ps, Piece.Tries (code q) (q.ends : Reach text)) {seenEmpty : Bool} {done : Nat}
    {ts : List Nat} {p : Array Instr} (hentries : Entries p done ps seenEmpty ts)
    (x : Config text) {before : List (Config text)}
    (hbefore : seenEmpty = true → x.goto done ∈ before) :
    Becomes p (before ++ ts.map x.goto)
      (before ++ (endsOfChoice ps x.place).map (x.moveTo done)) := by
  induction hentries generalizing before with
  | nil =>
    rw [endsOfChoice]
    exact .refl _
  | again hempty _ ih =>
    have hrest := ih (List.forall_mem_cons.mp h).2 hbefore
    rw [endsOfChoice, ends_of_isEmpty hempty]
    exact hrest.trans (.drop (hbefore rfl) _)
  | empty hempty _ ih =>
    -- the end that this branch adds is above all empty branches to come
    have hmem : x.goto done ∈ before ++ [x.goto done] := by simp
    have hrest := ih (List.forall_mem_cons.mp h).2 fun _ => hmem
    rw [List.append_assoc, List.append_assoc] at hrest
    rw [endsOfChoice, ends_of_isEmpty hempty]
    exact hrest
  | @branch q _ seenEmpty _ base body hbody hat hjoin _ ih =>
    obtain ⟨hq, hps⟩ := List.forall_mem_cons.mp h
    have hprefers : Prefers p base done (q.ends : Reach text) := by
      have h := hq base body hbody p hat
      rcases hjoin with hjump | rfl
      · have hjoined := h.trans (.goto hjump)
        rwa [Reach.andThen_stay] at hjoined
      · exact h
    have hfirst : Becomes p [x.goto base] ((q.ends x.place).map (x.moveTo done)) :=
      hprefers (x.goto base) rfl
    have hbefore' : seenEmpty = true →
        x.goto done ∈ before ++ (q.ends x.place).map (x.moveTo done) :=
      fun hseen => List.mem_append_left _ (hbefore hseen)
    have hrest := ih hps hbefore'
    rw [List.append_assoc, List.append_assoc] at hrest
    rw [endsOfChoice, List.map_append]
    exact (Becomes.append (.refl before) (hfirst.append (.refl _))).trans hrest

/-! ## Patterns -/

theorem tries_codeItems {items : List Pattern}
    (h : ∀ q ∈ items, Piece.Tries (code q) (q.ends : Reach text)) :
    Piece.Tries (codeItems items) (endsInTurn items : Reach text) := by
  induction items with
  | nil =>
    intro base c hc
    rw [codeItems] at hc
    rw [endsInTurn]
    exact tries_nothing base c hc
  | cons q items ih =>
    obtain ⟨hq, hitems⟩ := List.forall_mem_cons.mp h
    intro base c hc
    rw [codeItems] at hc
    rw [endsInTurn]
    exact hq.sequel (ih hitems) base c hc

/-- The code of a pattern of one character. -/
theorem tries_single {q : Pattern} {i : Instr} {holds : Nat → Bool}
    (hcode : ∀ base, code q base = .ok [i]) (hconsuming : i.isConsuming = true)
    (htakes : ∀ c, takes c i = holds c.toNat) :
    Piece.Tries (code q) (Reach.next holds : Reach text) := by
  intro base c hc p hat
  obtain rfl := Except.ok.inj ((hcode base).symm.trans hc)
  exact .single (codeAt_cons.mp hat).1 hconsuming htakes

/-- The code of a well-formed pattern in which every round gets further comes to the ends of the
pattern, in order of preference. -/
theorem tries_code {q : Pattern} (h : q.WellFormed) (hadvancing : q.Advancing) :
    Piece.Tries (code q) (q.ends : Reach text) := by
  induction h with
  | literal cp =>
    rw [ends]
    exact tries_single (fun base => by rw [code]) rfl fun c => BEq.comm
  | dot =>
    rw [ends]
    exact tries_single (fun base => by rw [code]) rfl fun c => rfl
  | @oneOf set _ negated =>
    rw [ends]
    refine tries_single (fun base => by rw [code]) (by cases negated <;> rfl) fun c => ?_
    cases negated <;> simp [takes]
  | category cat negated =>
    rw [ends]
    refine tries_single (fun base => by rw [code]) (by cases negated <;> rfl) fun c => ?_
    cases negated <;> simp [takes]
  | concat _ ih =>
    cases hadvancing with
    | concat hitems =>
      intro base c hc
      rw [code] at hc
      rw [ends]
      exact tries_codeItems (fun q hq => ih q hq (hitems q hq)) base c hc
  | alt _ _ ih =>
    cases hadvancing with
    | alt hall =>
      intro base c hc p hat
      rw [code] at hc
      obtain ⟨branches, hbranches, hc⟩ := Scan.bind_eq_ok.mp hc
      obtain rfl := Except.ok.inj hc
      obtain ⟨hjump, hat⟩ := codeAt_cons.mp hat
      rw [ends, choice, List.length_cons, Branch.length_flatMap_code, Nat.add_comm _ 1,
        ← Nat.add_assoc]
      rintro x rfl
      have hnone : false = true → x.goto (x.address + 1 + Branch.totalSize branches) ∈ [] := by
        simp
      have hrest := becomes_branches (fun q hq => ih q hq (hall q hq))
        (entries_codeBranches hbranches rfl hat) x hnone
      exact (Becomes.step hjump rfl).trans hrest
  | repetition hbody hbounds isLazy ih =>
    cases hadvancing with
    | repetition hbody' hempty =>
      intro base c hc
      rw [code] at hc
      rw [ends]
      exact (ih hbody').repeated hbounds
        (fun hmax => (denotes_ends hbody hbody').advances (hempty hmax)) isLazy base c hc

/-! ## Rules -/

/-- The end of a rule reports the match at the first place that control comes to. -/
theorem finds_ending {p : Array Instr} {address : Nat} {symbol : Int}
    (hat : CodeAt p address [.save 1, .accept symbol]) (x : Config text)
    (places : List (Fin (text.length + 1))) :
    Finds p (places.map (x.moveTo address))
      (places.head?.map fun j => ⟨symbol, x.span.start, byteLength (text.take j.val)⟩) := by
  obtain ⟨hsave, hat⟩ := codeAt_cons.mp hat
  obtain ⟨haccept, -⟩ := codeAt_cons.mp hat
  cases places with
  | nil => exact .nil
  | cons j places => exact .step hsave rfl (.found haccept rfl)

/-- A rule whose bounds are in order has code, greedy or lazy. If no repetition without an upper bound
has a body that matches the empty text, the code finds on a text the preferred match of the pattern,
with the symbol of the rule. -/
theorem run_ofRule_prefers {p : Pattern} (hp : p.Composed) (hbounds : p.InOrder)
    (hadvancing : p.opened.Advancing) (symbol : Int) :
    ∃ code, ofRule p symbol = .ok code ∧ ∀ text : String,
      ((Machine.ofProgram code).run (.ofString text)).result =
        (p.opened.ends (0 : Fin (text.toList.length + 1))).head?.map fun j =>
          ⟨symbol, 0, byteLength (text.toList.take j.val)⟩ := by
  obtain ⟨body, hbody, -⟩ := fits_code hbounds 0
  refine ⟨terminate body symbol, Scan.bind_eq_ok.mpr ⟨body, hbody, rfl⟩, fun text => ?_⟩
  obtain ⟨hatBody, hatEnd⟩ := codeAt_append.mp (codeAt_self (terminate body symbol))
  rw [Nat.zero_add] at hatEnd
  have hopened : code p.opened 0 = .ok body := by rw [code_opened hp, hbody]
  have hprefers : Prefers (terminate body symbol).toArray 0 body.length
      (p.opened.ends : Reach text.toList) := by
    have htries : Piece.Tries (code p.opened) (p.opened.ends : Reach text.toList) :=
      tries_code (hp.wellFormed_of_inOrder hbounds) hadvancing
    have h := htries 0 body hopened _ hatBody
    rwa [Nat.zero_add] at h
  have hend := finds_ending hatEnd (start text.toList) (p.opened.ends (start text.toList).place)
  rw [← List.append_nil (List.map _ _)] at hend
  have hfinds := hprefers (start text.toList) rfl [] _ hend
  have hrun : ((Machine.ofProgram (terminate body symbol)).run (.ofString text)).result =
      search (terminate body symbol) text.toList := Machine.run_result _ _
  rw [hrun]
  exact search_eq_of_finds hfinds

/-- Many greedy rounds of a choice that can split a text in two ways, and then a choice in which the
empty branch is preferred to a lazy repetition and comes again, before a last character. -/
def ambiguous : Pattern :=
  .concat [.repetition (.alt [.literal 97, .concat [.literal 97, .literal 98]]) 0 none false,
    .alt [.concat [], .repetition (.literal 98) 1 (some 2) true, .concat []], .dot]

theorem run_ofRule_prefers_ambiguous :
    ambiguous.Composed ∧ ambiguous.InOrder ∧ ambiguous.opened.Advancing ∧
      ∃ code, ofRule ambiguous 7 = .ok code ∧ ∀ text : String,
        ((Machine.ofProgram code).run (.ofString text)).result =
          (ambiguous.opened.ends (0 : Fin (text.toList.length + 1))).head?.map fun j =>
            ⟨7, 0, byteLength (text.toList.take j.val)⟩ := by
  have hcomposed : ambiguous.Composed := by
    refine .concat ?_
    simp only [List.forall_mem_cons]
    refine ⟨.repetition (.alt (by simp) ?_) .., .alt (by simp) ?_, .dot, by simp⟩
    · simp only [List.forall_mem_cons]
      exact ⟨.literal 97, .concat (by simp [Composed.literal]), by simp⟩
    · simp only [List.forall_mem_cons]
      exact ⟨.concat (by simp), .repetition (.literal 98) .., .concat (by simp), by simp⟩
  have hbounds : ambiguous.InOrder := by
    refine .concat ?_
    simp only [List.forall_mem_cons]
    refine ⟨.repetition (.alt ?_) (by simp) false, .alt ?_, .dot, by simp⟩
    · simp only [List.forall_mem_cons]
      exact ⟨.literal 97, .concat (by simp [InOrder.literal]), by simp⟩
    · simp only [List.forall_mem_cons]
      exact ⟨.concat (by simp), .repetition (.literal 98) (by simp) true, .concat (by simp),
        by simp⟩
  have hbody : [] ∉ (alt [literal 97, concat [literal 97, literal 98]]).language := by
    simp only [language, languageOfChoice, languageOfSequence, Language.mem_add, Language.mem_mul]
    rintro (⟨c, h, -⟩ | ⟨u, ⟨c, rfl, -⟩, v, -, h⟩ | h) <;> cases h
  have hadvancing : ambiguous.opened.Advancing := by
    refine .concat ?_
    simp only [openedAll, List.forall_mem_cons]
    refine ⟨.repetition (.alt ?_) (fun _ => hbody) false, .alt ?_, .dot, by simp⟩
    · simp only [List.forall_mem_cons]
      exact ⟨.literal 97, .concat (by simp [Advancing.literal]), by simp⟩
    · simp only [openedAll, List.forall_mem_cons]
      exact ⟨.concat (by simp [openedAll]), .repetition (.literal 98) (by simp [upperBound]) true,
        .concat (by simp [openedAll]), by simp⟩
  exact ⟨hcomposed, hbounds, hadvancing,
    run_ofRule_prefers hcomposed hbounds hadvancing 7⟩

/-- Bounds of zero and zero. -/
def unopened : Pattern := .repetition (.literal 97) 0 (some 0) false

/-- With bounds of zero and zero taken at their word there would be no copy of the body, but the code
goes on for as long as there are copies. -/
theorem run_ofRule_ne_first_unopened :
    unopened.Composed ∧ unopened.InOrder ∧ unopened.Advancing ∧
      ¬ ∃ code, ofRule unopened 7 = .ok code ∧ ∀ text : String,
        ((Machine.ofProgram code).run (.ofString text)).result =
          (unopened.ends (0 : Fin (text.toList.length + 1))).head?.map fun j =>
            ⟨7, 0, byteLength (text.toList.take j.val)⟩ := by
  refine ⟨.repetition (.literal 97) .., .repetition (.literal 97) (by simp) false,
    .repetition (.literal 97) (by simp) false, ?_⟩
  rintro ⟨code, hcode, hrun⟩
  have hprogram : ofRule unopened 7 =
      .ok [.jump [1, 3], .char 97, .jump [0], .save 1, .accept 7] := by rfl
  obtain rfl := Except.ok.inj (hprogram.symm.trans hcode)
  have hfound : ((Machine.ofProgram [.jump [1, 3], .char 97, .jump [0], .save 1, .accept 7]).run
      (.ofString "a")).result = some ⟨7, 0, 1⟩ := by cbv
  have hends : (unopened.ends (0 : Fin ("a".toList.length + 1))).head? = some 0 := by cbv
  have hsame := hrun "a"
  rw [hfound, hends] at hsame
  cases hsame

end Program

end FiberLex
