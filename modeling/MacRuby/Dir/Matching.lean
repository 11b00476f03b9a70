import MacRuby.Dir.Fnmatch
import MacRuby.Lib.Wildcard

/-!
# What a glob pattern matches

The meaning of a pattern, said without the way it is searched. A pattern falls into components,
a component into pieces. A piece takes one byte, or is a `*` and takes any run. A component is the
`**` of a `**/` and takes any number of path elements, or takes one path element.

## Main definitions

* `Piece`, `pieces` — the pieces of the first component, and what stands after its separator.
* `Component`, `components` — the components of a pattern.
* `DotRule` — what is allowed to take a leading dot.
* `Matches` — the string matches the pattern.
* `dotRule` — the rule of `fnmatch`.
-/

namespace MacRuby.Dir

/-! ## Pieces -/

/-- The bytes of a set up to the first `]` that is not escaped, each with whether it is escaped,
and what follows. -/
def setBody (escape : Bool) : List UInt8 → Option (List (Bool × UInt8) × List UInt8)
  | [] => none
  | c :: p =>
      if c = 93 then some ([], p)
      else if escape && c == 92 then
        match p with
        | [] => none
        | d :: q => (setBody escape q).map fun r => ((true, d) :: r.1, r.2)
      else (setBody escape p).map fun r => ((false, c) :: r.1, r.2)

/-- The ranges of a set; a single byte is a range too. -/
def ranges : List (Bool × UInt8) → List (UInt8 × UInt8)
  | [] => []
  | a :: (false, 45) :: b :: cs => (a.2, b.2) :: ranges cs
  | a :: cs => (a.2, a.2) :: ranges cs

attribute [grind =] setBody ranges

/-- A piece of a component. -/
inductive Piece
  | literal (c : UInt8)
  /-- `?` -/
  | any
  /-- `*` -/
  | star
  /-- `[...]`, or `[^...]` when `not` is set. -/
  | set (not : Bool) (rs : List (UInt8 × UInt8))
  /-- A `[` whose set does not end. -/
  | unterminated

/-- A set, after its `[`, and what follows it. -/
def setPiece (escape : Bool) (p : List UInt8) : Option (Piece × List UInt8) :=
  if p.head? = some 33 ∨ p.head? = some 94 then
    (setBody escape p.tail).map fun r => (.set true (ranges r.1), r.2)
  else (setBody escape p).map fun r => (.set false (ranges r.1), r.2)

theorem setBody_length {escape : Bool} {p : List UInt8} {r : List (Bool × UInt8) × List UInt8}
    (h : setBody escape p = some r) : r.2.length < p.length := by
  fun_induction setBody escape p generalizing r with
  | case1 => cases h
  | case2 => cases h; simp
  | case3 => cases h
  | case4 c hc hesc d q ih =>
      obtain ⟨r', hr', rfl⟩ := Option.map_eq_some_iff.mp h
      have := ih hr'
      simp only [List.length_cons]
      omega
  | case5 c p hc hesc ih =>
      obtain ⟨r', hr', rfl⟩ := Option.map_eq_some_iff.mp h
      have := ih hr'
      simp only [List.length_cons]
      omega

theorem setPiece_length {escape : Bool} {p : List UInt8} {r : Piece × List UInt8}
    (h : setPiece escape p = some r) : r.2.length < p.length := by
  rw [setPiece] at h
  split_ifs at h
  · obtain ⟨r', hr', rfl⟩ := Option.map_eq_some_iff.mp h
    have := setBody_length hr'
    rw [List.length_tail] at this
    dsimp only
    omega
  · obtain ⟨r', hr', rfl⟩ := Option.map_eq_some_iff.mp h
    exact setBody_length hr'

/-- The pieces of the first component, and what stands after the separator that ends it. A
separator is one also when it is escaped, a `/` in a set is none, and a backslash at the end of the
pattern stands for nothing. -/
def pieces (escape pathname : Bool) : List UInt8 → List Piece × Option (List UInt8)
  | [] => ([], none)
  | c :: p =>
      if c = 42 then
        let r := pieces escape pathname p
        (.star :: r.1, r.2)
      else if c = 63 then
        let r := pieces escape pathname p
        (.any :: r.1, r.2)
      else if c = 91 then
        match _h : setPiece escape p with
        | none => ([.unterminated], none)
        | some (a, q) =>
            let r := pieces escape pathname q
            (a :: r.1, r.2)
      else if escape && c == 92 then
        match p with
        | [] => ([], none)
        | d :: q =>
            if pathname && d == 47 then ([], some q)
            else
              let r := pieces escape pathname q
              (.literal d :: r.1, r.2)
      else if pathname && c == 47 then ([], some p)
      else
        let r := pieces escape pathname p
        (.literal c :: r.1, r.2)
termination_by p => p.length
decreasing_by
  · simp
  · simp
  · have hlt : q.length < p.length := setPiece_length _h
    simp only [List.length_cons]
    omega
  · simp only [List.length_cons]
    omega
  · simp

section Pieces

variable (escape pathname : Bool)

@[simp] theorem pieces_nil : pieces escape pathname [] = ([], none) := by rw [pieces.eq_def]

theorem pieces_star (p : List UInt8) : pieces escape pathname (42 :: p)
    = (.star :: (pieces escape pathname p).1, (pieces escape pathname p).2) := by
  rw [pieces.eq_def]
  simp

theorem pieces_any (p : List UInt8) : pieces escape pathname (63 :: p)
    = (.any :: (pieces escape pathname p).1, (pieces escape pathname p).2) := by
  rw [pieces.eq_def]
  simp

theorem pieces_unterminated {p : List UInt8} (h : setPiece escape p = none) :
    pieces escape pathname (91 :: p) = ([.unterminated], none) := by
  rw [pieces.eq_def]
  simp only [show (91 : UInt8) ≠ 42 by decide, show (91 : UInt8) ≠ 63 by decide, if_false, if_true]
  split
  · rfl
  · simp_all

theorem pieces_set {p q : List UInt8} {a : Piece} (h : setPiece escape p = some (a, q)) :
    pieces escape pathname (91 :: p)
      = (a :: (pieces escape pathname q).1, (pieces escape pathname q).2) := by
  rw [pieces.eq_def]
  simp only [show (91 : UInt8) ≠ 42 by decide, show (91 : UInt8) ≠ 63 by decide, if_false, if_true]
  split
  · simp_all
  · rename_i a' q' h'
    rw [h] at h'
    cases h'
    rfl

theorem pieces_final_backslash : pieces true pathname [92] = ([], none) := by
  rw [pieces.eq_def]
  simp

/-- A byte that is escaped is a literal, unless it is a separator. -/
theorem pieces_escaped (d : UInt8) (p : List UInt8) : pieces true pathname (92 :: d :: p)
    = if pathname && d == 47 then ([], some p)
      else (.literal d :: (pieces true pathname p).1, (pieces true pathname p).2) := by
  rw [pieces.eq_def]
  simp

/-- A byte that has no meaning of its own is a literal, unless it is a separator. -/
theorem pieces_ordinary {c : UInt8} (h42 : c ≠ 42) (h63 : c ≠ 63) (h91 : c ≠ 91)
    (h92 : (escape && c == 92) = false) (p : List UInt8) : pieces escape pathname (c :: p)
      = if pathname && c == 47 then ([], some p)
        else (.literal c :: (pieces escape pathname p).1, (pieces escape pathname p).2) := by
  rw [pieces.eq_def]
  simp only [h42, h63, h91, h92, if_false, Bool.false_eq_true]

end Pieces

/-- The byte is in one of the ranges. -/
def inRanges (nocase : Bool) (rs : List (UInt8 × UInt8)) (c : UInt8) : Bool :=
  rs.any fun r => compare nocase r.1 c ≤ 0 && compare nocase c r.2 ≤ 0

/-- The piece takes the byte. -/
def Piece.accepts (nocase : Bool) : Piece → UInt8 → Bool
  | .literal d, c => compare nocase d c == 0
  | .any, _ => true
  | .star, _ => false
  | .set not rs, c => inRanges nocase rs c != not
  | .unterminated, _ => false

/-- A piece takes one byte, or any run if it is a star. -/
def Piece.item (nocase : Bool) : Piece → Wildcard.Item UInt8
  | .star => .gap
  | a => .one fun c => a.accepts nocase c = true

/-- The pieces of a component take the bytes of a string. -/
def RunMatches (nocase : Bool) (ps : List Piece) (s : List UInt8) : Prop :=
  Wildcard.Matches (fun _ => True) (ps.map (Piece.item nocase)) s

/-! ## Components -/

/-- A component of a pattern. -/
inductive Component
  /-- `**/` -/
  | recursive
  | element (ps : List Piece)

/-- The pattern behind a `**/` at its beginning. -/
def afterRecursive : List UInt8 → Option (List UInt8)
  | 42 :: 42 :: 47 :: p => some p
  | _ => none

theorem afterRecursive_eq_some {p q : List UInt8} (h : afterRecursive p = some q) :
    p = 42 :: 42 :: 47 :: q := by
  unfold afterRecursive at h
  split at h
  · cases h
    rfl
  · cases h

theorem pieces_length {escape pathname : Bool} {p q : List UInt8}
    (h : (pieces escape pathname p).2 = some q) : q.length < p.length := by
  fun_induction pieces escape pathname p with
  | case1 => cases h
  | case2 p r ih => have := ih h; simp only [List.length_cons]; omega
  | case3 p hc r ih => have := ih h; simp only [List.length_cons]; omega
  | case4 => cases h
  | case5 p a q' hset r _ _ ih =>
      have hlt : q'.length < p.length := setPiece_length hset
      have := ih h
      simp only [List.length_cons]
      omega
  | case6 => cases h
  | case7 => cases h; simp only [List.length_cons]; omega
  | case8 c hc hc' hc'' hesc d q' hd r ih => have := ih h; simp only [List.length_cons]; omega
  | case9 => cases h; simp
  | case10 c p hc hc' hc'' hesc hd r ih => have := ih h; simp only [List.length_cons]; omega

/-- The components of a pattern. -/
def components (escape : Bool) (p : List UInt8) : List Component :=
  match _h : afterRecursive p with
  | some q => .recursive :: components escape q
  | none =>
      match _h' : (pieces escape true p).2 with
      | none => [.element (pieces escape true p).1]
      | some q => .element (pieces escape true p).1 :: components escape q
termination_by p.length
decreasing_by
  · rw [afterRecursive_eq_some _h]
    simp only [List.length_cons]
    omega
  · exact pieces_length _h'

theorem components_recursive (escape : Bool) (p : List UInt8) :
    components escape (42 :: 42 :: 47 :: p) = .recursive :: components escape p := by
  rw [components.eq_def]
  rfl

/-- A pattern that does not begin with a `**/` begins with a component for one element. -/
theorem components_element {escape : Bool} {p : List UInt8} (h : afterRecursive p = none) :
    components escape p = .element (pieces escape true p).1 ::
      match (pieces escape true p).2 with
      | none => []
      | some q => components escape q := by
  rw [components.eq_def]
  split
  · simp_all
  · split
    · rename_i h'
      rw [h']
    · rename_i q h'
      rw [h']

/-! ## Leading dots -/

/-- A rule for leading dots: which pieces may take a string, and which path elements a `**/` may
pass over. -/
structure DotRule where
  takes : List Piece → List UInt8 → Prop
  skips : List UInt8 → Prop

/-- The component takes the path element. -/
def ElementMatches (rule : DotRule) (nocase : Bool) (ps : List Piece) (s : List UInt8) : Prop :=
  RunMatches nocase ps s ∧ rule.takes ps s

/-- A component takes one path element, or any number of them if it is a `**/`. -/
def Component.item (rule : DotRule) (nocase : Bool) : Component → Wildcard.Item (List UInt8)
  | .recursive => .gap
  | .element ps => .one (ElementMatches rule nocase ps)

/-- The components take the path elements one by one. -/
def PathMatches (rule : DotRule) (nocase : Bool) (cs : List Component)
    (ss : List (List UInt8)) : Prop :=
  Wildcard.Matches rule.skips (cs.map (Component.item rule nocase)) ss

/-- **The string matches the pattern.** -/
def Matches (rule : DotRule) (fl : Flags) (p s : List UInt8) : Prop :=
  if fl.pathname then PathMatches rule fl.casefold (components fl.escape p) (s.splitOn 47)
  else ElementMatches rule fl.casefold (pieces fl.escape false p).1 s

/-- The rule of `fnmatch`: a component that takes a leading dot begins with a literal dot, and a
`**/` does not pass over a path element with a leading dot, unless `FNM_DOTMATCH` is set. -/
def dotRule (fl : Flags) : DotRule where
  takes ps s := fl.period = true → s.head? = some 46 → ps.head? = some (.literal 46)
  skips s := fl.period = true → s.head? ≠ some 46

end MacRuby.Dir
