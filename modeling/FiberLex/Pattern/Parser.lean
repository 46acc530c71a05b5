import FiberLex.Pattern.Bracket

/-!
# Reading patterns

The grammar of patterns is

```text
expr     := term ('|' term)*
term     := factor*
factor   := atom modifier*
atom     := '.' | literal | '(' expr ')' | '[' class ']' | escape
modifier := ('*' | '+' | '?' | '{' digits? (',' digits?)? '}') '?'?
```

where the trailing `?` of a modifier makes it lazy, if lazy repetitions are allowed, and is one more
modifier if they are not. Reading goes from left to right over a stack of open groups. Each step
reads one atom, modifier, bar or parenthesis, so a fault is found at the first place that cannot be
read.
-/

namespace FiberLex.Pattern

/-- A group that is being read: the branches before the last bar and the items after it, the latest
first. -/
structure Group where
  /-- The branches that are complete. -/
  branches : List Pattern := []
  /-- The items of the branch that is being read. -/
  items : List Pattern := []

namespace Group

/-- The group with one more item. -/
def push (g : Group) (item : Pattern) : Group := { g with items := item :: g.items }

/-- The group after a bar. -/
def bar (g : Group) : Group := ⟨sequence g.items.reverse :: g.branches, []⟩

/-- The pattern of the group. -/
def close (g : Group) : Pattern := choice (g.branches.reverse ++ [sequence g.items.reverse])

end Group

/-- The groups that are being read: the innermost, and those around it from the inside out. -/
structure OpenGroups where
  /-- The innermost group. -/
  inner : Group := {}
  /-- The groups around it, the nearest first. -/
  outer : List Group := []

/-! ## Modifiers -/

/-- The bound below which the counts of a repetition have to stay. -/
def countLimit : Nat := Nat.pow 2 64

/-- Reads a count of a repetition, if there is one. -/
def readCount (cs : List Char) : Except Fault (Option Nat × List Char) :=
  Scan.decimal countLimit .countTooLarge none cs

/-- Reads the closing brace after the bounds and checks their order; `site` is the opening brace. -/
def readBoundsEnd (site : List Char) (min : Nat) (max : Option Nat) :
    List Char → Except Fault ((Nat × Option Nat) × List Char)
  | '}' :: rest =>
    match max with
    | some m =>
      if m < min then .error ⟨.invalidBounds min m, site, rest⟩ else .ok ((min, max), rest)
    | none => .ok ((min, max), rest)
  | cs => .error (.expecting (if max.isNone then ["digit", "\x7d"] else ["\x7d"]) cs)

/-- Reads the bounds of a repetition from the character after the opening brace on; `site` is the
opening brace. -/
def readBounds (site cs : List Char) : Except Fault ((Nat × Option Nat) × List Char) := do
  let (first, rest) ← readCount cs
  match rest with
  | ',' :: rest =>
    let (second, rest) ← readCount rest
    readBoundsEnd site (first.getD 0) second rest
  | rest =>
    match first with
    | some n => readBoundsEnd site n (some n) rest
    | none => .error (.expecting ["digit", ","] rest)

/-- Reads a modifier that begins with the character `c`, giving the bounds of the repetition. -/
def readModifier (c : Char) (cs : List Char) : Except Fault ((Nat × Option Nat) × List Char) :=
  if c = '*' then .ok ((0, none), cs)
  else if c = '+' then .ok ((1, none), cs)
  else if c = '?' then .ok ((0, some 1), cs)
  else readBounds (c :: cs) cs

/-- Whether a modifier is marked lazy by a question mark after it, and what follows. -/
def readLazy (allowLazy : Bool) : List Char → Bool × List Char
  | '?' :: cs => if allowLazy then (true, cs) else (false, '?' :: cs)
  | cs => (false, cs)

/-- The pattern with a modifier; no copies at all leave the empty text. -/
def modified (p : Pattern) (bounds : Nat × Option Nat) (isLazy : Bool) : Pattern :=
  if bounds.2 = some 0 then empty else repetition p bounds.1 bounds.2 isLazy

/-! ## Steps -/

/-- Reads an atom other than a group, which begins with the character `c`. -/
def readAtom (c : Char) (cs : List Char) : Except Fault (Pattern × List Char) :=
  if c = '[' then readBracket cs
  else if c = '.' then .ok (dot, cs)
  else if c = '\\' then readEscape cs
  else .ok (literal c.toNat, cs)

/-- Whether a character begins a modifier. -/
def beginsModifier (c : Char) : Bool := c == '*' || c == '+' || c == '?' || c == '{'

/-- Reads a modifier that begins with `c` and applies it to the last item of the group. -/
def modifyLast (allowLazy : Bool) (g : Group) (c : Char) (cs : List Char) :
    Except Fault (Group × List Char) :=
  match g.items with
  | [] => .error (.here .nothingToRepeat (c :: cs))
  | last :: items => do
    let (bounds, rest) ← readModifier c cs
    let (isLazy, rest) := readLazy allowLazy rest
    .ok ({ g with items := modified last bounds isLazy :: items }, rest)

/-- Reads one atom, modifier, bar or parenthesis, which begins with the character `c`. -/
def readStep (allowLazy : Bool) (s : OpenGroups) (c : Char) (cs : List Char) :
    Except Fault (OpenGroups × List Char) :=
  if c = '(' then .ok (⟨{}, s.inner :: s.outer⟩, cs)
  else if c = '|' then .ok ({ s with inner := s.inner.bar }, cs)
  else if c = ')' then
    match s.outer with
    | [] => .error (.here .unmatchedParenthesis (c :: cs))
    | g :: outer => .ok (⟨g.push s.inner.close, outer⟩, cs)
  else if beginsModifier c then do
    let (g, rest) ← modifyLast allowLazy s.inner c cs
    .ok ({ s with inner := g }, rest)
  else do
    let (atom, rest) ← readAtom c cs
    .ok ({ s with inner := s.inner.push atom }, rest)

/-! ## What the readers leave -/

theorem readBoundsEnd_consumes {site cs rest : List Char} {min : Nat} {max : Option Nat}
    {b : Nat × Option Nat} (h : readBoundsEnd site min max cs = .ok (b, rest)) :
    Scan.Consumes cs rest := by
  unfold readBoundsEnd at h
  split at h
  · split at h
    · split at h
      · cases h
      · cases h
        exact .cons _ _
    · cases h
      exact .cons _ _
  · cases h

theorem readBounds_consumes {site cs rest : List Char} {b : Nat × Option Nat}
    (h : readBounds site cs = .ok (b, rest)) : Scan.Consumes cs rest := by
  obtain ⟨⟨first, cs₁⟩, h₁, k⟩ := Scan.bind_eq_ok.mp h
  have l₁ := Scan.decimal_leaves h₁
  dsimp only at k
  split at k
  · obtain ⟨⟨second, cs₂⟩, h₂, k⟩ := Scan.bind_eq_ok.mp k
    exact l₁.consumes ((Scan.decimal_leaves h₂).cons.trans (readBoundsEnd_consumes k).leaves)
  · split at k
    · exact l₁.consumes (readBoundsEnd_consumes k)
    · cases k

theorem readModifier_leaves {c : Char} {cs rest : List Char} {b : Nat × Option Nat}
    (h : readModifier c cs = .ok (b, rest)) : Scan.Leaves cs rest := by
  simp only [readModifier] at h
  split at h
  · cases h
    exact .refl _
  · split at h
    · cases h
      exact .refl _
    · split at h
      · cases h
        exact .refl _
      · exact (readBounds_consumes h).leaves

theorem readLazy_leaves (allowLazy : Bool) (cs : List Char) :
    Scan.Leaves cs (readLazy allowLazy cs).2 := by
  unfold readLazy
  split
  · split
    · exact (Scan.Consumes.cons _ _).leaves
    · exact .refl _
  · exact .refl _

theorem readAtom_leaves {c : Char} {cs rest : List Char} {p : Pattern}
    (h : readAtom c cs = .ok (p, rest)) : Scan.Leaves cs rest := by
  simp only [readAtom] at h
  split at h
  · exact (readBracket_consumes h).leaves
  · split at h
    · cases h
      exact .refl _
    · split at h
      · exact (readEscapeAs_consumes h).leaves
      · cases h
        exact .refl _

theorem modifyLast_leaves {allowLazy : Bool} {g g' : Group} {c : Char} {cs rest : List Char}
    (h : modifyLast allowLazy g c cs = .ok (g', rest)) : Scan.Leaves cs rest := by
  unfold modifyLast at h
  split at h
  · cases h
  · obtain ⟨⟨b, cs₁⟩, h₁, h⟩ := Scan.bind_eq_ok.mp h
    cases h
    exact (readModifier_leaves h₁).trans (readLazy_leaves _ _)

theorem readStep_leaves {allowLazy : Bool} {s s' : OpenGroups} {c : Char} {cs rest : List Char}
    (h : readStep allowLazy s c cs = .ok (s', rest)) : Scan.Leaves cs rest := by
  simp only [readStep] at h
  split at h
  · cases h
    exact .refl _
  · split at h
    · cases h
      exact .refl _
    · split at h
      · split at h
        · cases h
        · cases h
          exact .refl _
      · split at h
        · obtain ⟨r, h₁, h⟩ := Scan.bind_eq_ok.mp h
          cases h
          exact modifyLast_leaves h₁
        · obtain ⟨r, h₁, h⟩ := Scan.bind_eq_ok.mp h
          cases h
          exact readAtom_leaves h₁

/-! ## Whole patterns -/

/-- Reads up to the end of the text or a closing parenthesis that closes no open group. -/
def readGroups (allowLazy : Bool) (s : OpenGroups) (cs : List Char) :
    Except Fault (Pattern × List Char) :=
  match cs with
  | [] =>
    match s.outer with
    | [] => .ok (s.inner.close, [])
    | _ :: _ => .error (.expecting [")"] [])
  | c :: cs =>
    if c = ')' ∧ s.outer = [] then .ok (s.inner.close, c :: cs)
    else
      match _ : readStep allowLazy s c cs with
      | .error e => .error e
      | .ok (s', rest) => readGroups allowLazy s' rest
termination_by cs.length
decreasing_by
  rename_i h
  exact (readStep_leaves h).cons.length_lt

theorem readGroups_leaves {allowLazy : Bool} {s : OpenGroups} {cs rest : List Char}
    {p : Pattern} (h : readGroups allowLazy s cs = .ok (p, rest)) :
    Scan.Leaves cs rest := by
  fun_induction readGroups allowLazy s cs generalizing p rest with
  | case1 =>
    cases h
    exact .refl _
  | case2 => cases h
  | case3 =>
    cases h
    exact .refl _
  | case4 => cases h
  | case5 s c cs _ s' rest' hs ih => exact (readStep_leaves hs).cons.leaves.trans (ih h)

/-- Reads a pattern up to the end of the text or a closing parenthesis that closes no open group,
and leaves that parenthesis unread. -/
def readEmbedded (allowLazy : Bool) (cs : List Char) : Except Fault (Pattern × List Char) :=
  readGroups allowLazy {} cs

theorem readEmbedded_leaves {allowLazy : Bool} {cs rest : List Char} {p : Pattern}
    (h : readEmbedded allowLazy cs = .ok (p, rest)) : Scan.Leaves cs rest :=
  readGroups_leaves h

/-- Reads a pattern up to the end of the text. -/
def readWhole (allowLazy : Bool) (cs : List Char) : Except Fault Pattern := do
  match ← readEmbedded allowLazy cs with
  | (p, []) => .ok p
  | (_, rest) => .error (.here .unmatchedParenthesis rest)

end FiberLex.Pattern

namespace FiberLex.Cursor

/-- Reads a pattern at the cursor, up to the end of the text, or, if `embedded` holds, to a closing
parenthesis that closes no open group. The cursor is left where reading stopped. -/
def readPattern (cur : Cursor) (embedded allowLazy : Bool) :
    Except SyntaxError Pattern × Cursor :=
  let text := cur.position.rest
  let result :=
    if embedded then Pattern.readEmbedded allowLazy text
    else (Pattern.readWhole allowLazy text).map (·, [])
  match result with
  | .ok (p, rest) => (.ok p, cur.seek rest)
  | .error f => (.error (f.toError cur.tabWidth cur.position), cur.seek f.stop)

end FiberLex.Cursor

namespace FiberLex

/-- The pattern written as a text. -/
def Pattern.parse (text : String) (allowLazy : Bool := true) : Except SyntaxError Pattern :=
  ((Cursor.ofString text).readPattern false allowLazy).1

end FiberLex
