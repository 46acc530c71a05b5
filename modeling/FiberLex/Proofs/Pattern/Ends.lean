import FiberLex.Proofs.Automaton.Repetition
import FiberLex.Proofs.Pattern.Denotation

/-!
# Preference among the matches of a pattern

`Pattern.ends` lists the places where a match of a pattern may end that begins at a given place, the
preferred ones first: the branches of a choice are tried in order, a greedy repetition tries another
copy before it stops, and a lazy one stops first. If no repetition without an upper bound has a body
that matches the empty text (`Advancing`), every round of such a repetition gets further in the text,
so that the list is finite (`Reach.star_eq`), and its places are those behind the texts of the
language of the pattern (`denotes_ends`).
-/

namespace FiberLex.Pattern

open scoped Computability

variable {text : List Char}

/-- The texts between two places. -/
def Reads (i : Fin (text.length + 1)) (u : List Char) (j : Fin (text.length + 1)) : Prop :=
  text.drop i = u ++ text.drop j

namespace Reads

variable {i j k : Fin (text.length + 1)} {u v : List Char}

theorem refl (i : Fin (text.length + 1)) : Reads i [] i := rfl

theorem trans (h : Reads i u j) (h' : Reads j v k) : Reads i (u ++ v) k := by
  unfold Reads at h h' ⊢
  rw [h, h', List.append_assoc]

theorem val_eq (h : Reads i u j) : j.val = i.val + u.length := by
  have hlength := congrArg List.length h
  rw [List.length_append, List.length_drop, List.length_drop] at hlength
  have hi := i.isLt
  have hj := j.isLt
  omega

theorem nil_iff : Reads i [] j ↔ j = i := by
  constructor
  · intro h
    exact Fin.ext h.val_eq
  · rintro rfl
    exact refl j

/-- Between the two texts of a longer one there is a place. -/
theorem split (h : Reads i (u ++ v) j) : ∃ k, Reads i u k ∧ Reads k v j := by
  have hval := h.val_eq
  rw [List.length_append] at hval
  have hdrop : text.drop (i.val + u.length) = v ++ text.drop j := by
    rw [← List.drop_drop, h, List.append_assoc, List.drop_left]
  refine ⟨⟨i.val + u.length, by omega⟩, ?_, hdrop⟩
  unfold Reads at h ⊢
  rw [hdrop, h, List.append_assoc]

end Reads

/-! ## Places in order of preference -/

/-- The places to which one may come from a place, in order of preference. -/
abbrev Reach (text : List Char) : Type := Fin (text.length + 1) → List (Fin (text.length + 1))

namespace Reach

/-- Nowhere but to the place itself. -/
def stay : Reach text := fun i => [i]

/-- Behind one character whose code point has a property. -/
def next (holds : Nat → Bool) : Reach text := fun i =>
  if h : i.val < text.length then if holds text[i.val].toNat then [⟨i + 1, by omega⟩] else []
  else []

/-- One after the other. -/
def andThen (f g : Reach text) : Reach text := fun i => (f i).flatMap g

/-- So many times. -/
def times (f : Reach text) : Nat → Reach text
  | 0 => stay
  | n + 1 => f.andThen (f.times n)

/-- Once or not at all. A lazy choice prefers the latter. -/
def orStay (f : Reach text) (isLazy : Bool) : Reach text := fun i =>
  if isLazy then i :: f i else f i ++ [i]

/-- At most so many times. -/
def rounds (f : Reach text) (isLazy : Bool) : Nat → Reach text
  | 0 => stay
  | n + 1 => (f.andThen (f.rounds isLazy n)).orStay isLazy

/-- Any number of times. In a text there is no room for more rounds than it has characters. -/
def star (f : Reach text) (isLazy : Bool) : Reach text := f.rounds isLazy text.length

/-- At least `min` times, and then as long as there are fewer than `max`. -/
def repeated (f : Reach text) (min : Nat) (max : Option Nat) (isLazy : Bool) : Reach text :=
  (f.times min).andThen <|
    match max with
    | none => f.star isLazy
    | some max => (f.orStay isLazy).times (max - min)

end Reach

mutual

/-- Where the matches of a pattern end that begin at a place, in order of preference. -/
def ends : Pattern → Reach text
  | literal cp => .next (· == cp)
  | dot => .next fun _ => true
  | oneOf set negated => .next fun cp => set.contains cp != negated
  | category cat negated => .next fun cp => cat.contains cp != negated
  | concat items => endsInTurn items
  | alt branches => endsOfChoice branches
  | repetition body min max isLazy => (ends body).repeated min max isLazy

/-- Where the matches of several patterns one after the other end. -/
def endsInTurn : List Pattern → Reach text
  | [] => .stay
  | p :: ps => (ends p).andThen (endsInTurn ps)

/-- Where the matches of some of several patterns end, those of the first pattern being preferred. -/
def endsOfChoice : List Pattern → Reach text
  | [] => fun _ => []
  | p :: ps => fun i => ends p i ++ endsOfChoice ps i

end

/-- No repetition without an upper bound has a body that matches the empty text. -/
inductive Advancing : Pattern → Prop where
  | literal (cp : Nat) : Advancing (literal cp)
  | dot : Advancing dot
  | oneOf (set : CodeSet) (negated : Bool) : Advancing (oneOf set negated)
  | category (cat : Category) (negated : Bool) : Advancing (category cat negated)
  | concat {items : List Pattern} (h : ∀ p ∈ items, Advancing p) : Advancing (concat items)
  | alt {branches : List Pattern} (h : ∀ p ∈ branches, Advancing p) : Advancing (alt branches)
  | repetition {body : Pattern} {min : Nat} {max : Option Nat} (h : Advancing body)
      (hbody : max = none → [] ∉ body.language) (isLazy : Bool) :
    Advancing (repetition body min max isLazy)

/-! ## Rounds that get further -/

namespace Reach

variable {f g : Reach text} {i j : Fin (text.length + 1)} {isLazy : Bool}

theorem mem_andThen : j ∈ f.andThen g i ↔ ∃ k ∈ f i, j ∈ g k := List.mem_flatMap

theorem mem_orStay : j ∈ f.orStay isLazy i ↔ j = i ∨ j ∈ f i := by
  cases isLazy with
  | false => simp [orStay, or_comm]
  | true => simp [orStay]

theorem mem_next {holds : Nat → Bool} :
    j ∈ next holds i ↔ ∃ c : Char, holds c.toNat = true ∧ Reads i [c] j := by
  unfold next
  constructor
  · intro h
    split at h
    · rename_i hlt
      split at h
      · rename_i hholds
        obtain rfl := List.mem_singleton.mp h
        exact ⟨_, hholds, List.drop_eq_getElem_cons hlt⟩
      · cases h
    · cases h
  · rintro ⟨c, hc, hread⟩
    have hval := hread.val_eq
    rw [List.length_singleton] at hval
    have hlt : i.val < text.length := by omega
    have hhead : text[i.val] = c := by
      have hdrop := hread
      unfold Reads at hdrop
      rw [List.drop_eq_getElem_cons hlt] at hdrop
      exact (List.cons.inj hdrop).1
    rw [dif_pos hlt, hhead, if_pos hc]
    exact List.mem_singleton.mpr (Fin.ext hval)

/-- Staying is neutral before and after. -/
@[simp] theorem stay_andThen (f : Reach text) : stay.andThen f = f := by
  funext i
  simp [andThen, stay]

@[simp] theorem andThen_stay (f : Reach text) : f.andThen stay = f := by
  funext i
  exact List.flatMap_singleton' (f i)

/-- Whatever is reached is further on in the text. -/
def Advances (f : Reach text) : Prop := ∀ i, ∀ j ∈ f i, i < j

/-- More rounds than there are characters left make no difference. -/
theorem Advances.rounds_succ (h : f.Advances) (n : Nat) (hn : text.length - i ≤ n) :
    f.rounds isLazy (n + 1) i = f.rounds isLazy n i := by
  induction n generalizing i with
  | zero =>
    have hnone : f i = [] := by
      refine List.eq_nil_iff_forall_not_mem.mpr fun j hj => ?_
      have := Fin.lt_def.mp (h i j hj)
      omega
    simp [rounds, orStay, andThen, stay, hnone]
  | succ n ih =>
    have hbody : f.andThen (f.rounds isLazy (n + 1)) i = f.andThen (f.rounds isLazy n) i := by
      refine List.flatMap_congr fun j hj => ih ?_
      have := Fin.lt_def.mp (h i j hj)
      omega
    rw [rounds, orStay, hbody]
    rfl

/-- Any number of times is not at all, or once and then any number of times. -/
theorem Advances.star_eq (h : f.Advances) :
    f.star isLazy = (f.andThen (f.star isLazy)).orStay isLazy := by
  funext i
  exact (h.rounds_succ text.length (Nat.sub_le _ _)).symm

/-! ## The texts in between -/

/-- What is reached are the places behind the texts of a language. -/
def Denotes (f : Reach text) (l : Language Char) : Prop :=
  ∀ i j, j ∈ f i ↔ ∃ u ∈ l, Reads i u j

namespace Denotes

variable {l l' : Language Char}

theorem congr (h : f.Denotes l) (hl : ∀ w, w ∈ l ↔ w ∈ l') : f.Denotes l' := Language.ext hl ▸ h

theorem advances (h : f.Denotes l) (hl : [] ∉ l) : f.Advances := by
  intro i j hj
  obtain ⟨u, hu, hread⟩ := (h i j).mp hj
  have hval := hread.val_eq
  have hne : u.length ≠ 0 := by
    intro hzero
    exact hl (List.length_eq_zero_iff.mp hzero ▸ hu)
  exact Fin.lt_def.mpr (by omega)

theorem next {holds : Nat → Bool} {property : Nat → Prop}
    (h : ∀ cp, holds cp = true ↔ property cp) :
    (Reach.next holds : Reach text).Denotes (oneChar property) := by
  intro i j
  rw [mem_next]
  constructor
  · rintro ⟨c, hc, hread⟩
    exact ⟨[c], ⟨c, rfl, (h _).mp hc⟩, hread⟩
  · rintro ⟨_, ⟨c, rfl, hc⟩, hread⟩
    exact ⟨c, (h _).mpr hc, hread⟩

theorem stay : (Reach.stay : Reach text).Denotes 1 := by
  intro i j
  simp [Reach.stay, Reads.nil_iff, Language.mem_one]

theorem andThen (h : f.Denotes l) (h' : g.Denotes l') : (f.andThen g).Denotes (l * l') := by
  intro i j
  rw [mem_andThen]
  constructor
  · rintro ⟨k, hk, hj⟩
    obtain ⟨u, hu, hread⟩ := (h i k).mp hk
    obtain ⟨v, hv, hread'⟩ := (h' k j).mp hj
    exact ⟨u ++ v, Language.append_mem_mul hu hv, hread.trans hread'⟩
  · rintro ⟨w, hw, hread⟩
    obtain ⟨u, hu, v, hv, rfl⟩ := Language.mem_mul.mp hw
    obtain ⟨k, hread, hread'⟩ := hread.split
    exact ⟨k, (h i k).mpr ⟨u, hu, hread⟩, (h' k j).mpr ⟨v, hv, hread'⟩⟩

theorem times (h : f.Denotes l) (n : Nat) : (f.times n).Denotes (l ^ n) := by
  induction n with
  | zero =>
    rw [pow_zero]
    exact stay
  | succ n ih =>
    rw [pow_succ']
    exact h.andThen ih

theorem orStay (h : f.Denotes l) (isLazy : Bool) : (f.orStay isLazy).Denotes (1 + l) := by
  intro i j
  rw [mem_orStay, h i j]
  simp only [Language.mem_add, Language.mem_one, or_and_right, exists_or, exists_eq_left,
    Reads.nil_iff]

theorem star (h : f.Denotes l) (hl : [] ∉ l) (isLazy : Bool) : (f.star isLazy).Denotes l∗ := by
  have hadvances := h.advances hl
  intro i j
  -- every round gets further, so that less text is left
  induction hleft : text.length - i using Nat.strong_induction_on generalizing i with
  | _ left ih =>
  have hround : ∀ k ∈ f i, (j ∈ f.star isLazy k ↔ ∃ u ∈ l∗, Reads k u j) := by
    intro k hk
    have hlt := Fin.lt_def.mp (hadvances i k hk)
    exact ih (text.length - k) (by omega) k rfl
  rw [hadvances.star_eq, mem_orStay, mem_andThen, ← Language.one_add_self_mul_kstar_eq_kstar]
  constructor
  · rintro (rfl | ⟨k, hk, hj⟩)
    · exact ⟨[], Or.inl Language.nil_mem_one, .refl j⟩
    · obtain ⟨u, hu, hread⟩ := (h i k).mp hk
      obtain ⟨v, hv, hread'⟩ := (hround k hk).mp hj
      exact ⟨u ++ v, Or.inr (Language.append_mem_mul hu hv), hread.trans hread'⟩
  · rintro ⟨w, hw, hread⟩
    rcases (Language.mem_add _ _ w).mp hw with hw | hw
    · rw [Language.mem_one] at hw
      subst hw
      exact Or.inl (Reads.nil_iff.mp hread)
    · obtain ⟨u, hu, v, hv, rfl⟩ := Language.mem_mul.mp hw
      obtain ⟨k, hread, hread'⟩ := hread.split
      have hk : k ∈ f i := (h i k).mpr ⟨u, hu, hread⟩
      exact Or.inr ⟨k, hk, (hround k hk).mpr ⟨v, hv, hread'⟩⟩

theorem repeated (h : f.Denotes l) {min : Nat} {max : Option Nat}
    (hbounds : ∀ m, max = some m → min ≤ m) (hl : max = none → [] ∉ l) (isLazy : Bool) :
    (f.repeated min max isLazy).Denotes {w | ∃ k, InBounds min max k ∧ w ∈ l ^ k} := by
  cases max with
  | none =>
    refine ((h.times min).andThen (h.star (hl rfl) isLazy)).congr fun w => ?_
    change _ ↔ ∃ k, InBounds min none k ∧ w ∈ l ^ k
    rw [Automaton.mem_pow_mul_kstar_iff]
    simp [InBounds]
  | some m =>
    have hle := hbounds m rfl
    refine ((h.times min).andThen ((h.orStay isLazy).times (m - min))).congr fun w => ?_
    change _ ↔ ∃ k, InBounds min (some m) k ∧ w ∈ l ^ k
    rw [Automaton.mem_pow_mul_one_add_pow_iff, Nat.add_sub_cancel' hle]
    simp [InBounds, and_assoc]

end Denotes

end Reach

theorem denotes_endsInTurn {items : List Pattern}
    (h : ∀ p ∈ items, (p.ends : Reach text).Denotes p.language) :
    (endsInTurn items : Reach text).Denotes (languageOfSequence items) := by
  induction items with
  | nil =>
    rw [endsInTurn, languageOfSequence]
    exact .stay
  | cons p items ih =>
    obtain ⟨hp, hitems⟩ := List.forall_mem_cons.mp h
    rw [endsInTurn, languageOfSequence]
    exact hp.andThen (ih hitems)

theorem denotes_endsOfChoice {branches : List Pattern}
    (h : ∀ p ∈ branches, (p.ends : Reach text).Denotes p.language) :
    (endsOfChoice branches : Reach text).Denotes (languageOfChoice branches) := by
  induction branches with
  | nil =>
    intro i j
    simp [endsOfChoice, languageOfChoice]
  | cons p branches ih =>
    obtain ⟨hp, hbranches⟩ := List.forall_mem_cons.mp h
    intro i j
    rw [endsOfChoice, languageOfChoice, List.mem_append, hp i j, ih hbranches i j]
    simp only [Language.mem_add, or_and_right, exists_or]

/-- The matches of a pattern end behind the texts of its language. -/
theorem denotes_ends {p : Pattern} (h : p.WellFormed) (hadvancing : p.Advancing) :
    (p.ends : Reach text).Denotes p.language := by
  induction h with
  | literal cp =>
    rw [ends, language]
    exact .next fun cp' => by simp
  | dot =>
    rw [ends, language]
    exact .next fun cp => by simp
  | oneOf hset negated =>
    rw [ends, language]
    refine .next fun cp => ?_
    rw [← CodeSet.contains_iff_covers hset]
    cases negated <;> simp
  | category cat negated =>
    rw [ends, language]
    refine .next fun cp => ?_
    cases negated <;> simp
  | concat _ ih =>
    cases hadvancing with
    | concat hitems =>
      rw [ends, language]
      exact denotes_endsInTurn fun p hp => ih p hp (hitems p hp)
  | alt _ _ ih =>
    cases hadvancing with
    | alt hbranches =>
      rw [ends, language]
      exact denotes_endsOfChoice fun p hp => ih p hp (hbranches p hp)
  | repetition _ hbounds isLazy ih =>
    cases hadvancing with
    | repetition hbody hempty =>
      rw [ends, language]
      exact (ih hbody).repeated (fun m hm => (hbounds m hm).1) hempty isLazy

/-- A greedy repetition goes on first, and a lazy one stops first. -/
example : (repetition (literal 97) 1 none false).ends (0 : Fin (['a', 'a', 'b'].length + 1)) =
      [2, 1] ∧
    (repetition (literal 97) 1 none true).ends (0 : Fin (['a', 'a', 'b'].length + 1)) =
      [1, 2] := by decide

end FiberLex.Pattern
