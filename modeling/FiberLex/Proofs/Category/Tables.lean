import FiberLex.Machine
import FiberLex.Proofs.Automaton.OfPattern
import FiberLex.Proofs.Category

/-!
# The categories divide the code points

Whatever ranges the listings have, in any order and overlapping within one listing and from one to
the next, the tables made from them divide the code points among the categories (`Tables.divides`).
A machine asks for the category of a character, and an automaton has the ranges of the category on
its edges; since looking up a code point and searching the ranges come to the same, both take the
same characters (`consume?_category`, `accepts_category_iff`).
-/

namespace FiberLex

open CodeSet

namespace Category

/-- The tables divide the code points among the categories by the listings. -/
structure Tables.Divides (t : Tables) (listings : List CodeSet) : Prop where
  /-- The ranges of a category are in normal form. -/
  normal : ∀ c, (t.ranges c).Normal
  /-- Two categories have no code point in common. -/
  disjoint : ∀ c d, c ≠ d → ∀ cp, Covers (t.ranges c).toList cp → ¬Covers (t.ranges d).toList cp
  /-- The categories together have the code points and nothing else. -/
  total : ∀ cp, (∃ c, Covers (t.ranges c).toList cp) ↔ cp ≤ maxCodePoint
  /-- A category has the code points of its listing that no listing before it has. -/
  listed : ∀ c, c ≠ notAssigned → ∀ cp, Covers (t.ranges c).toList cp ↔
    Covers (listings.getD c.number #[]).toList cp ∧
      ∀ j < c.number, ¬Covers (listings.getD j #[]).toList cp
  /-- The last category has the code points that no listing has. -/
  unlisted : ∀ cp, Covers (t.ranges notAssigned).toList cp ↔
    cp ≤ maxCodePoint ∧ ∀ l ∈ listings, ¬Covers l.toList cp
  /-- The category of a code point is the one in whose ranges a binary search finds it. -/
  lookup : ∀ c cp, cp ≤ maxCodePoint → (t.ofCodePoint cp = c ↔ (t.ranges c).contains cp = true)
  /-- A code point is of another category if a search in the complement of the ranges finds it. -/
  lookup_complement : ∀ c cp, cp ≤ maxCodePoint →
    (t.ofCodePoint cp ≠ c ↔ (t.ranges c).complement.contains cp = true)

namespace Tables

variable {listings : List CodeSet}

/-- A listing by number is one of the listings, or empty behind the last. -/
theorem getD_mem_or_eq (listings : List CodeSet) (i : Nat) :
    listings.getD i #[] ∈ listings ∨ listings.getD i #[] = #[] := by
  by_cases hi : i < listings.length
  · rw [List.getD_eq_getElem _ _ hi]
    exact Or.inl (List.getElem_mem hi)
  · exact Or.inr (List.getD_eq_default _ _ (by omega))

theorem le_of_covers_listing (hl : ∀ l ∈ listings, ∀ r ∈ l.toList, r.Within) {i cp : Nat}
    (hcp : Covers (listings.getD i #[]).toList cp) : cp ≤ maxCodePoint := by
  rcases getD_mem_or_eq listings i with hmem | hnil
  · exact le_of_covers (hl _ hmem) hcp
  · rw [hnil] at hcp
    simp at hcp

/-- To say it of each listing by number is to say it of the listings. -/
theorem forall_getD_iff {P : CodeSet → Prop} :
    (∀ j < listings.length, P (listings.getD j #[])) ↔ ∀ l ∈ listings, P l := by
  rw [List.forall_mem_iff_forall_getElem]
  refine forall₂_congr fun j hj => ?_
  rw [List.getD_eq_getElem _ _ hj]

/-- The tables of any listings of code points divide the code points by the listings. -/
theorem divides (hlength : listings.length = 29)
    (hl : ∀ l ∈ listings, ∀ r ∈ l.toList, r.Within) :
    (ofListings listings).Divides listings := by
  have hproper : ∀ l ∈ listings, Proper l.toList := fun l hm r hr => (hl l hm r hr).1
  have hnormal := normal_ranges hlength hl
  have hbound : ∀ c cp, Covers ((ofListings listings).ranges c).toList cp → cp ≤ maxCodePoint :=
    fun c cp hcovers => le_of_covers (hnormal c).within hcovers
  have hcovers := fun c {cp} => @covers_ranges_iff listings cp hlength hproper c
  have hlookup := fun c {cp} => @ofCodePoint_eq_iff listings cp hlength hproper c
  refine ⟨hnormal, fun c d hne cp hc hd => hne ?_, fun cp => ⟨?_, fun hcp => ?_⟩,
    fun c hne cp => ?_, fun cp => ?_, fun c cp hcp => ?_, fun c cp hcp => ?_⟩
  · rw [← (hlookup c (hbound c cp hc)).mpr hc, ← (hlookup d (hbound c cp hc)).mpr hd]
  · rintro ⟨c, hc⟩
    exact hbound c cp hc
  · exact ⟨_, (hlookup _ hcp).mp rfl⟩
  · constructor
    · intro hc
      obtain ⟨hbefore, hthere⟩ := (hcovers c (hbound c cp hc)).mp hc
      exact ⟨hthere hne, hbefore⟩
    · rintro ⟨hthere, hbefore⟩
      exact (hcovers c (le_of_covers_listing hl hthere)).mpr ⟨hbefore, fun _ => hthere⟩
  · have hnone : (∀ j < notAssigned.number, ¬Covers (listings.getD j #[]).toList cp) ↔
        ∀ l ∈ listings, ¬Covers l.toList cp := by
      rw [← forall_getD_iff (P := fun l => ¬Covers l.toList cp), hlength]
      rfl
    constructor
    · intro hc
      have hcp := hbound notAssigned cp hc
      exact ⟨hcp, hnone.mp ((hcovers notAssigned hcp).mp hc).1⟩
    · rintro ⟨hcp, hfree⟩
      exact (hcovers notAssigned hcp).mpr ⟨hnone.mpr hfree, fun hne => absurd rfl hne⟩
  · rw [contains_iff_covers (hnormal c).ordered]
    exact hlookup c hcp
  · have hordered : Ordered ((ofListings listings).ranges c).complement.toList :=
      (separated_complement (hnormal c).ordered).ordered
    rw [contains_iff_covers hordered, covers_complement (hnormal c).ordered hcp, Ne,
      hlookup c hcp]

end Tables

/-! ## Characters of a category -/

/-- The instruction for the characters of a category, or for those of any other. -/
def instr (c : Category) (negated : Bool) : Instr :=
  if negated then .outsideCategory c else .insideCategory c

/-- The code points for which the instruction asks are those of the set on the edges. -/
theorem contains_negateIf_ranges (c : Category) (negated : Bool) {cp : Nat}
    (hcp : cp ≤ maxCodePoint) :
    (c.ranges.negateIf negated).contains cp = true ↔ (c.contains cp = true ↔ negated = false) := by
  have hdivides := Tables.divides length_listings within_of_mem_listings
  rw [contains, beq_iff_eq]
  cases negated with
  | false => exact (hdivides.lookup c cp hcp).symm.trans (by simp; rfl)
  | true => exact (hdivides.lookup_complement c cp hcp).symm.trans (by simp; rfl)

theorem consume?_instr (c : Category) (negated : Bool) (address : Nat) (ch : Char) :
    (c.instr negated).consume? address ch =
      (Instr.inside (c.ranges.negateIf negated)).consume? address ch := by
  have hset := c.contains_negateIf_ranges negated (Char.toNat_le_maxCodePoint ch)
  cases negated <;> cases hc : c.contains ch.toNat <;> simp_all [instr, Instr.consume?]

theorem isSome_consume?_instr (c : Category) (negated : Bool) (address : Nat) (ch : Char) :
    ((c.instr negated).consume? address ch).isSome = true ↔
      (c.contains ch.toNat = true ↔ negated = false) := by
  cases negated <;> cases hc : c.contains ch.toNat <;> simp [instr, Instr.consume?, hc]

/-- The automaton of a category accepts the characters that the instruction consumes. -/
theorem accepts_ofPattern_category (c : Category) (negated : Bool) (symbol : Option Int) :
    ∃ a, Automaton.ofPattern (.category c negated) symbol = .ok a ∧ ∀ w, a.accepts w = true ↔
      ∃ ch, w = [ch] ∧ ((c.instr negated).consume? 0 ch).isSome = true := by
  obtain ⟨a, ha, hrec⟩ :=
    Automaton.exists_ofPattern (Pattern.WellFormed.category c negated) rfl symbol
  refine ⟨a, ha, fun w => ?_⟩
  rw [Automaton.accepts_iff_yields hrec.valid, ← Automaton.mem_texts, hrec.texts_eq,
    Pattern.language, Pattern.mem_oneChar]
  exact exists_congr fun ch => and_congr_right fun _ =>
    (c.isSome_consume?_instr negated 0 ch).symm

/-- Whatever the listings, the tables made from them divide the code points among the categories;
and an instruction that asks for a category consumes the characters that the set of its ranges has,
which are those that the automaton of the category accepts. -/
theorem tables_divide_and_agree {listings : List CodeSet} (hlength : listings.length = 29)
    (hl : ∀ l ∈ listings, ∀ r ∈ l.toList, r.Within) :
    (Tables.ofListings listings).Divides listings ∧
      ∀ (c : Category) (negated : Bool),
        (∀ address ch, (c.instr negated).consume? address ch =
          (Instr.inside (c.ranges.negateIf negated)).consume? address ch) ∧
        ∀ symbol, ∃ a, Automaton.ofPattern (.category c negated) symbol = .ok a ∧
          ∀ w, a.accepts w = true ↔
            ∃ ch, w = [ch] ∧ ((c.instr negated).consume? 0 ch).isSome = true :=
  ⟨Tables.divides hlength hl, fun c negated =>
    ⟨c.consume?_instr negated, c.accepts_ofPattern_category negated⟩⟩

/-- Listings out of order, which overlap in themselves and with each other. -/
def tangled : List CodeSet :=
  #[⟨0x60, 0x7F⟩, ⟨0x20, 0x40⟩, ⟨0x7E, 0x90⟩] :: #[⟨0x10FFFE, 0x10FFFF⟩, ⟨0x30, 0x65⟩] ::
    List.replicate 27 #[⟨0x35, 0x66⟩]

theorem tables_divide_and_agree_tangled :
    tangled.length = 29 ∧ (∀ l ∈ tangled, ∀ r ∈ l.toList, r.Within) ∧
      (Tables.ofListings tangled).Divides tangled ∧
      (Tables.ofListings tangled).ofCodePoint 0x5F = lowercaseLetter ∧
      (Tables.ofListings tangled).ofCodePoint 0x60 = uppercaseLetter ∧
      (Tables.ofListings tangled).ofCodePoint 0x91 = notAssigned := by
  have hlength : tangled.length = 29 := rfl
  have hwithin : ∀ l ∈ tangled, ∀ r ∈ l.toList, r.Within := by decide
  have hdivides := (tables_divide_and_agree hlength hwithin).1
  have hlookup : ∀ c cp, Covers ((Tables.ofListings tangled).ranges c).toList cp →
      (Tables.ofListings tangled).ofCodePoint cp = c := by
    intro c cp hc
    have hcp : cp ≤ maxCodePoint := (hdivides.total cp).mp ⟨c, hc⟩
    exact (hdivides.lookup c cp hcp).mpr ((contains_iff_covers (hdivides.normal c).ordered).mpr hc)
  refine ⟨hlength, hwithin, hdivides, hlookup _ _ ?_, hlookup _ _ ?_, hlookup _ _ ?_⟩
  · exact (hdivides.listed lowercaseLetter (by decide) 0x5F).mpr (by decide)
  · exact (hdivides.listed uppercaseLetter (by decide) 0x60).mpr (by decide)
  · exact (hdivides.unlisted 0x91).mpr (by decide)

end Category

end FiberLex
