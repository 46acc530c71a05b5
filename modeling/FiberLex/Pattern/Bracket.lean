import FiberLex.Pattern.Escape

/-!
# Bracket classes

What stands between `[` and `]` in a pattern: characters, ranges of characters, escapes and named
classes, all negated by a leading `^`. A `]` that comes first and a `-` that comes last stand for
themselves.
-/

namespace FiberLex.Pattern

/-- One item of a bracket class. -/
inductive ClassItem where
  /-- A single code point, which may begin or end a range. -/
  | char (cp : Nat)
  /-- Several code points at once. -/
  | ranges (rs : List CodeRange)

/-- Reads the name of a class and `:]`, from the colon in front on. -/
def readNamedClass (cs : List Char) : Except Fault (List CodeRange × List Char) := do
  let start ← Scan.char ':' cs
  let name := String.ofList (start.takeWhile Char.isAlpha)
  let rest ← Scan.char ':' (start.dropWhile Char.isAlpha)
  let rest ← Scan.char ']' rest
  match CharClass.ofName? name with
  | some ranges => .ok (ranges, rest)
  | none => .error ⟨.unknownClass name, cs, rest⟩

/-- Reads an escape inside brackets. -/
def readClassEscape : List Char → Except Fault (ClassItem × List Char) :=
  readEscapeAs true
    (fun ranges negated => .ranges ((CodeSet.ofRanges ranges).negateIf negated).toList)
    (fun cat negated => .ranges (cat.ranges.negateIf negated).toList) .char

/-- Reads one item of a bracket class. -/
def readClassItem : List Char → Except Fault (ClassItem × List Char)
  | [] => .error (.expecting ["]"] [])
  | '\\' :: cs => readClassEscape cs
  | '[' :: ':' :: cs => do
    let (ranges, rest) ← readNamedClass (':' :: cs)
    .ok (.ranges ranges, rest)
  | c :: cs => .ok (.char c.toNat, cs)

/-- Reads what may follow the code point `low`: the end of a range, or nothing. -/
def readRangeEnd (low : Nat) : List Char → Except Fault (List CodeRange × List Char)
  | ['-'] => .ok ([.single low, .single '-'.toNat], [])
  | '-' :: ']' :: cs => .ok ([.single low, .single '-'.toNat], ']' :: cs)
  | '-' :: cs => do
    match ← readClassItem cs with
    | (.ranges _, rest) => .error ⟨.shorthandEndsRange, cs, rest⟩
    | (.char high, rest) =>
      if high < low then .error ⟨.invalidClassRange low high, cs, rest⟩
      else .ok ([⟨low, high⟩], rest)
  | cs => .ok ([.single low], cs)

/-- Reads one item of a bracket class, or two that make a range. -/
def readElement (cs : List Char) : Except Fault (List CodeRange × List Char) := do
  match ← readClassItem cs with
  | (.ranges rs, rest) => .ok (rs, rest)
  | (.char low, rest) => readRangeEnd low rest

/-! ## What the readers leave -/

theorem readNamedClass_consumes {cs rest : List Char} {rs : List CodeRange}
    (h : readNamedClass cs = .ok (rs, rest)) : Scan.Consumes cs rest := by
  obtain ⟨cs₁, h₁, h⟩ := Scan.bind_eq_ok.mp h
  obtain ⟨cs₂, h₂, h⟩ := Scan.bind_eq_ok.mp h
  obtain ⟨cs₃, h₃, h⟩ := Scan.bind_eq_ok.mp h
  split at h
  · cases h
    exact (Scan.char_consumes h₁).trans ((Scan.Leaves.dropWhile _ _).trans
      ((Scan.char_consumes h₂).leaves.trans (Scan.char_consumes h₃).leaves))
  · cases h

theorem readClassItem_consumes {cs rest : List Char} {item : ClassItem}
    (h : readClassItem cs = .ok (item, rest)) : Scan.Consumes cs rest := by
  unfold readClassItem at h
  split at h
  · cases h
  · exact (readEscapeAs_consumes h).leaves.cons
  · obtain ⟨r, hc, h⟩ := Scan.bind_eq_ok.mp h
    cases h
    exact (readNamedClass_consumes hc).leaves.cons
  · cases h
    exact .cons _ _

theorem readRangeEnd_leaves {low : Nat} {cs rest : List Char} {rs : List CodeRange}
    (h : readRangeEnd low cs = .ok (rs, rest)) : Scan.Leaves cs rest := by
  unfold readRangeEnd at h
  split at h
  · cases h
    exact ⟨['-'], rfl⟩
  · cases h
    exact ⟨['-'], rfl⟩
  · obtain ⟨r, hc, h⟩ := Scan.bind_eq_ok.mp h
    split at h
    · cases h
    · split at h
      · cases h
      · cases h
        exact (readClassItem_consumes hc).leaves.cons.leaves
  · cases h
    exact .refl _

theorem readElement_consumes {cs rest : List Char} {rs : List CodeRange}
    (h : readElement cs = .ok (rs, rest)) : Scan.Consumes cs rest := by
  obtain ⟨r, hc, h⟩ := Scan.bind_eq_ok.mp h
  split at h
  · cases h
    exact readClassItem_consumes hc
  · exact (readClassItem_consumes hc).trans (readRangeEnd_leaves h)

/-! ## The whole class -/

/-- Reads the elements of a bracket class up to the closing bracket. -/
def readElements (cs : List Char) : Except Fault (List CodeRange × List Char) :=
  match cs with
  | [] => .error (.expecting ["]"] [])
  | ']' :: rest => .ok ([], rest)
  | c :: cs =>
    match _ : readElement (c :: cs) with
    | .error e => .error e
    | .ok (rs, rest) => do
      let (more, rest) ← readElements rest
      .ok (rs ++ more, rest)
termination_by cs.length
decreasing_by
  rename_i h
  exact (readElement_consumes h).length_lt

/-- Reads the elements of a bracket class, at least one, and the closing bracket. -/
def readBody (negated : Bool) (cs : List Char) : Except Fault (Pattern × List Char) := do
  let (first, rest) ← readElement cs
  let (more, rest) ← readElements rest
  .ok (ofRanges (first ++ more) negated, rest)

/-- Reads a bracket class, from the character after the opening bracket on. -/
def readBracket : List Char → Except Fault (Pattern × List Char)
  | '^' :: cs => readBody true cs
  | cs => readBody false cs

theorem readElements_consumes {cs rest : List Char} {rs : List CodeRange}
    (h : readElements cs = .ok (rs, rest)) : Scan.Consumes cs rest := by
  fun_induction readElements cs generalizing rs rest with
  | case1 => cases h
  | case2 rest' =>
    cases h
    exact .cons _ _
  | case3 => cases h
  | case4 c cs _ rs' rest' he ih =>
    obtain ⟨r, hm, h⟩ := Scan.bind_eq_ok.mp h
    cases h
    exact (readElement_consumes he).trans (ih hm).leaves

theorem readBracket_consumes {cs rest : List Char} {p : Pattern}
    (h : readBracket cs = .ok (p, rest)) : Scan.Consumes cs rest := by
  have key : ∀ (negated : Bool) (cs' : List Char), readBody negated cs' = .ok (p, rest) →
      Scan.Consumes cs' rest := by
    intro negated cs' h
    obtain ⟨r₁, h₁, h⟩ := Scan.bind_eq_ok.mp h
    obtain ⟨r₂, h₂, h⟩ := Scan.bind_eq_ok.mp h
    cases h
    exact (readElement_consumes h₁).trans (readElements_consumes h₂).leaves
  unfold readBracket at h
  split at h
  · exact (key _ _ h).leaves.cons
  · exact key _ _ h

end FiberLex.Pattern
