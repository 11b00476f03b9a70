import MacRuby.Dir.Matching
import Mathlib.Tactic.Linarith

/-!
# `fnmatch_helper` decides the matching of one path element

The loop of `fnmatch_helper` keeps what it is about to find out: whether the rest of the element
matches the rest of the component, or does after a later start from the last `*`. That the stars
before the last need no second try is a fact about patterns with gaps.

## Main results

* `bracket_eq` — `bracket` reads the set of `pieces`.
* `helperTurn_spec` — what a turn of the loop keeps.
* `fnmatchHelper_spec` — the whole function.
-/

namespace MacRuby.Dir

/-! ## Sets -/

theorem compare_eq_zero (nocase : Bool) (c d : UInt8) :
    compare nocase c d = 0 ↔ compare nocase c d ≤ 0 ∧ compare nocase d c ≤ 0 := by
  unfold compare
  omega

/-- A set goes on with a byte that may be escaped. -/
theorem setBody_of_setChar {escape : Bool} {p q : List UInt8} {t : UInt8} (hp : p.head? ≠ some 93)
    (h : setChar escape p = some (t, q)) :
    ∃ e, setBody escape p = (setBody escape q).map fun r => ((e, t) :: r.1, r.2) := by
  cases p with
  | nil => cases h
  | cons c p =>
      have hc : c ≠ 93 := by simpa using hp
      rw [setChar] at h
      rw [setBody.eq_def]
      simp only [if_neg hc]
      split_ifs at h ⊢ with hesc
      · cases p with
        | nil => cases h
        | cons d p =>
            cases h
            exact ⟨true, rfl⟩
      · cases h
        exact ⟨false, rfl⟩

theorem setBody_of_setChar_none {escape : Bool} {p : List UInt8} (hp : p.head? ≠ some 93)
    (h : setChar escape p = none) : setBody escape p = none := by
  cases p with
  | nil => rfl
  | cons c p =>
      have hc : c ≠ 93 := by simpa using hp
      rw [setChar] at h
      rw [setBody.eq_def]
      simp only [if_neg hc]
      split_ifs at h ⊢ with hesc
      cases p with
      | nil => rfl
      | cons d p => cases h

/-- What begins with a dash that makes a range goes on after it. -/
theorem head_of_setBody_dash {escape : Bool} {p rest : List UInt8} {b : Bool × UInt8}
    {cs : List (Bool × UInt8)} (h : setBody escape p = some ((false, 45) :: b :: cs, rest)) :
    p.head? = some 45 ∧ p.tail.head? ≠ some 93 := by
  cases p with
  | nil => cases h
  | cons c p =>
      rw [setBody.eq_def] at h
      dsimp only at h
      split_ifs at h with hc hesc
      · cases h
      · cases p with
        | nil => cases h
        | cons d p =>
            obtain ⟨r, -, hr⟩ := Option.map_eq_some_iff.mp h
            simp at hr
      · obtain ⟨r, hr, hr'⟩ := Option.map_eq_some_iff.mp h
        simp only [Prod.mk.injEq, List.cons.injEq, true_and] at hr'
        obtain ⟨⟨rfl, hcs⟩, -⟩ := hr'
        refine ⟨rfl, ?_⟩
        intro hhead
        cases p with
        | nil => cases hhead
        | cons d p =>
            have hd : d = 93 := by simpa using hhead
            rw [setBody.eq_def] at hr
            simp only [hd, if_true, Option.some.injEq] at hr
            rw [← hr] at hcs
            cases hcs

theorem ranges_cons {a : Bool × UInt8} {cs : List (Bool × UInt8)}
    (h : ∀ b cs', cs ≠ (false, 45) :: b :: cs') : ranges (a :: cs) = (a.2, a.2) :: ranges cs := by
  rw [ranges]
  intro b cs' hcs
  exact h b cs' hcs

theorem setBody_of_head {escape : Bool} {p : List UInt8} (hp : p.head? = some 93) :
    setBody escape p = some ([], p.tail) := by
  cases p with
  | nil => cases hp
  | cons c p =>
      have hc : c = 93 := by simpa using hp
      rw [setBody.eq_def]
      simp [hc]

/-- A dash goes into the set as it is. -/
theorem setBody_of_dash {escape : Bool} {p : List UInt8} (hp : p.head? = some 45) :
    setBody escape p = (setBody escape p.tail).map fun r => ((false, 45) :: r.1, r.2) := by
  cases p with
  | nil => cases hp
  | cons c p =>
      have hc : c = 45 := by simpa using hp
      rw [setBody.eq_def]
      simp [hc]

/-- `bracket` looks through the ranges of the set. -/
theorem bracketLoop_eq (fl : Flags) (s : UInt8) (not : Bool) (p : List UInt8) (ok : Bool) :
    bracketLoop fl s not p ok = (setBody fl.escape p).bind fun r =>
      if (ok || inRanges fl.casefold (ranges r.1) s) = not then none else some r.2 := by
  fun_induction bracketLoop fl s not p ok with
  | case1 p hp =>
      have hok : (not || inRanges fl.casefold (ranges []) s) = not := by simp [ranges, inRanges]
      rw [setBody_of_head hp, Option.bind_some, if_pos hok]
  | case2 p ok hp hok =>
      rw [setBody_of_head hp]
      simp [ranges, inRanges, hok]
  | case3 p ok hp hchar =>
      rw [setBody_of_setChar_none hp hchar]
      rfl
  | case4 p ok hp t1 p1 hchar hdash hchar' =>
      obtain ⟨e, he⟩ := setBody_of_setChar hp hchar
      rw [he, setBody_of_dash hdash.1, setBody_of_setChar_none hdash.2 hchar']
      rfl
  | case5 p ok hp t1 p1 hchar hdash t2 p2 hchar' ih =>
      obtain ⟨e, he⟩ := setBody_of_setChar hp hchar
      obtain ⟨e', he'⟩ := setBody_of_setChar hdash.2 hchar'
      rw [ih, he, setBody_of_dash hdash.1, he']
      cases setBody fl.escape p2 with
      | none => rfl
      | some r => simp [ranges, inRanges, Bool.or_assoc]
  | case6 p ok hp t1 p1 hchar hdash ih =>
      obtain ⟨e, he⟩ := setBody_of_setChar hp hchar
      rw [ih, he]
      cases hbody : setBody fl.escape p1 with
      | none => rfl
      | some r =>
          have hranges : ranges ((e, t1) :: r.1) = (t1, t1) :: ranges r.1 := by
            refine ranges_cons fun b cs' hcs => hdash ?_
            have h : setBody fl.escape p1 = some ((false, 45) :: b :: cs', r.2) := by
              rw [hbody, ← hcs]
            exact head_of_setBody_dash h
          have hzero : (compare fl.casefold t1 s == 0) = (decide (compare fl.casefold t1 s ≤ 0) &&
              decide (compare fl.casefold s t1 ≤ 0)) := by
            rw [Bool.eq_iff_iff]
            simpa using compare_eq_zero fl.casefold t1 s
          simp [hranges, inRanges, hzero, Bool.or_assoc]

/-- **`bracket` reads a set, and takes a byte of it.** -/
theorem bracket_eq (fl : Flags) (p : List UInt8) (s : UInt8) :
    bracket fl p s = (setPiece fl.escape p).bind fun r =>
      if r.1.accepts fl.casefold s then some r.2 else none := by
  have hnot : ∀ (ok not : Bool) (q : List UInt8), (if ok = not then none else some q)
      = if (ok != not) = true then some q else none := by
    intro ok not q
    cases ok <;> cases not <;> rfl
  rw [bracket, setPiece]
  split_ifs
  · rw [bracketLoop_eq]
    cases setBody fl.escape p.tail with
    | none => rfl
    | some r => simp [Piece.accepts, hnot]
  · rw [bracketLoop_eq]
    cases setBody fl.escape p with
    | none => rfl
    | some r => simp [Piece.accepts, hnot]

/-! ## Pieces and path elements -/

section Element

variable (fl : Flags)

/-- The items of the first component. -/
def items (p : List UInt8) : List (Wildcard.Item UInt8) :=
  (pieces fl.escape fl.pathname p).1.map (Piece.item fl.casefold)

/-- What stands after the separator of the first component. -/
def after (p : List UInt8) : Option (List UInt8) := (pieces fl.escape fl.pathname p).2

/-- The first path element of a string, the whole of it without `FNM_PATHNAME`. -/
def element (s : List UInt8) : List UInt8 := if fl.pathname then s.takeWhile (· != 47) else s

variable {fl}

/-- What stands after the first path element does not change when a byte of it is passed. -/
theorem element_cases (fl : Flags) (s : List UInt8) :
    isEnd fl.pathname s = true ∧ element fl s = [] ∨
      ∃ c t, s = c :: t ∧ isEnd fl.pathname s = false ∧ element fl s = c :: element fl t ∧
        (fl.pathname = true → s.dropWhile (· != 47) = t.dropWhile (· != 47)) := by
  cases s with
  | nil => exact .inl ⟨rfl, by simp [element]⟩
  | cons c t =>
      by_cases hc : fl.pathname = true ∧ c = 47
      · refine .inl ⟨by simp [isEnd, hc], by simp [element, hc]⟩
      · refine .inr ⟨c, t, rfl, ?_, ?_, ?_⟩
        · simpa [isEnd] using hc
        · cases hpath : fl.pathname with
          | false => simp [element, hpath]
          | true =>
              have : c ≠ 47 := fun h => hc ⟨hpath, h⟩
              simp [element, hpath, this]
        · intro hpath
          have : c ≠ 47 := fun h => hc ⟨hpath, h⟩
          simp [this]

theorem items_star (p : List UInt8) : items fl (42 :: p) = .gap :: items fl p := by
  rw [items, pieces_star]
  rfl

theorem items_any (p : List UInt8) :
    items fl (63 :: p) = .one (fun _ => true = true) :: items fl p := by
  rw [items, pieces_any]
  rfl

/-- A set that ends takes one byte. -/
theorem items_set {p q : List UInt8} {a : Piece} (h : setPiece fl.escape p = some (a, q)) :
    items fl (91 :: p) = .one (fun c => a.accepts fl.casefold c = true) :: items fl q := by
  have ha : a.item fl.casefold = .one fun c => a.accepts fl.casefold c = true := by
    rw [setPiece] at h
    split_ifs at h
    all_goals
      obtain ⟨r, -, hr⟩ := Option.map_eq_some_iff.mp h
      cases hr
      rfl
  rw [items, pieces_set _ _ h, List.map_cons, ha]
  rfl

/-- A set that does not end takes nothing. -/
theorem items_unterminated {p : List UInt8} (h : setPiece fl.escape p = none) :
    items fl (91 :: p) = [.one fun _ => false = true] := by
  rw [items, pieces_unterminated _ _ h]
  rfl

/-- What `UNESCAPE` leaves of a pattern that is not at a wildcard, and what its pieces are. -/
theorem pieces_unescape {p : List UInt8} (h42 : p.head? ≠ some 42) (h63 : p.head? ≠ some 63)
    (h91 : p.head? ≠ some 91) : pieces fl.escape fl.pathname p =
      match unescape fl.escape p with
      | [] => ([], none)
      | c :: q =>
          if fl.pathname && c == 47 then ([], some q)
          else (.literal c :: (pieces fl.escape fl.pathname q).1,
            (pieces fl.escape fl.pathname q).2) := by
  cases p with
  | nil => simp [unescape]
  | cons c p =>
      simp only [List.head?_cons, ne_eq, Option.some.injEq] at h42 h63 h91
      by_cases hesc : (fl.escape && c == 92) = true
      · have hun : unescape fl.escape (c :: p) = p := by simpa [unescape] using hesc
        simp only [Bool.and_eq_true, beq_iff_eq] at hesc
        obtain ⟨hesc, rfl⟩ := hesc
        rw [hun, hesc]
        cases p with
        | nil => exact pieces_final_backslash _
        | cons d q => exact pieces_escaped _ d q
      · have hun : unescape fl.escape (c :: p) = c :: p := by
          simpa [unescape] using hesc
        rw [hun]
        exact pieces_ordinary _ _ h42 h63 h91 (by simpa using hesc) p

theorem length_unescape_le (escape : Bool) (p : List UInt8) :
    (unescape escape p).length ≤ p.length := by
  rw [unescape]
  split_ifs
  · simp
  · exact Nat.le_refl _

/-- A pattern at the end of a component is not at a wildcard. -/
theorem head_ne_of_isEnd {p : List UInt8} {b : UInt8} (hb : b = 42 ∨ b = 63 ∨ b = 91)
    (h : isEnd fl.pathname (unescape fl.escape p) = true) : p.head? ≠ some b := by
  intro hp
  cases p with
  | nil => cases hp
  | cons c p =>
      have hc : c = b := by simpa using hp
      have hne : c ≠ 92 ∧ c ≠ 47 := by
        rw [hc]
        rcases hb with rfl | rfl | rfl <;> decide
      simp [unescape, isEnd, hne] at h

/-- The end of a component: the pattern ends, or a separator stands there. -/
theorem items_of_isEnd {p : List UInt8} (h : isEnd fl.pathname (unescape fl.escape p) = true) :
    items fl p = [] ∧ (unescape fl.escape p = [] ∧ after fl p = none ∨
      ∃ q, unescape fl.escape p = 47 :: q ∧ after fl p = some q) := by
  rw [items, after, pieces_unescape (head_ne_of_isEnd (by simp) h) (head_ne_of_isEnd (by simp) h)
    (head_ne_of_isEnd (by simp) h)]
  cases hq : unescape fl.escape p with
  | nil => exact ⟨rfl, .inl ⟨rfl, rfl⟩⟩
  | cons c q =>
      rw [hq] at h
      have hc : (fl.pathname && c == 47) = true := by simpa [isEnd] using h
      have h47 : c = 47 := by
        rw [Bool.and_eq_true, beq_iff_eq] at hc
        exact hc.2
      simp only [hc, if_true]
      exact ⟨rfl, .inr ⟨q, by rw [h47], rfl⟩⟩

/-- An ordinary byte is a literal. -/
theorem items_of_ordinary {p : List UInt8} (h42 : p.head? ≠ some 42) (h63 : p.head? ≠ some 63)
    (h91 : p.head? ≠ some 91) (h : isEnd fl.pathname (unescape fl.escape p) = false) :
    ∃ c q, unescape fl.escape p = c :: q ∧ after fl p = after fl q ∧
      items fl p = .one (fun d => (compare fl.casefold c d == 0) = true) :: items fl q := by
  rw [items, after, pieces_unescape h42 h63 h91]
  cases hq : unescape fl.escape p with
  | nil =>
      rw [hq] at h
      simp [isEnd] at h
  | cons c q =>
      rw [hq] at h
      have hc : (fl.pathname && c == 47) = false := by simpa [isEnd] using h
      simp only [hc, if_false, Bool.false_eq_true]
      exact ⟨c, q, rfl, rfl, rfl⟩

/-- Stars that follow each other are one. -/
theorem matches_stars (fl : Flags) {p : List UInt8} (h : p.head? = some 42) (xs : List UInt8) :
    (Wildcard.Matches (fun _ => True) (items fl p) xs ↔
      Wildcard.Matches (fun _ => True) (.gap :: items fl (p.dropWhile (· == 42))) xs) ∧
    after fl p = after fl (p.dropWhile (· == 42)) := by
  induction p generalizing xs with
  | nil => cases h
  | cons c p ih =>
      have hc : c = 42 := by simpa using h
      subst hc
      have hdrop : (42 :: p).dropWhile (· == 42) = p.dropWhile (· == 42) := by simp
      have hafter : after fl (42 :: p) = after fl p := by
        rw [after, pieces_star]
        rfl
      rw [items_star, hafter, hdrop]
      by_cases hp : p.head? = some 42
      · obtain ⟨q, rfl⟩ : ∃ q, p = 42 :: q := by
          cases p with
          | nil => cases hp
          | cons d q => exact ⟨q, by rw [show d = 42 by simpa using hp]⟩
        obtain ⟨hmatch, hafter⟩ := ih hp xs
        rw [items_star, Wildcard.matches_gap_gap, ← items_star]
        exact ⟨hmatch, hafter⟩
      · have hdrop' : p.dropWhile (· == 42) = p := by
          cases p with
          | nil => rfl
          | cons d p =>
              have : d ≠ 42 := by simpa using hp
              simp [this]
        rw [hdrop']
        exact ⟨Iff.rfl, rfl⟩

/-! ## The loop -/

variable (fl)

/-- What the loop is about to find out: the rest of the element matches the rest of the component,
or it does from a later start after the last star. -/
def Answer (c : Cursor) : Prop :=
  Wildcard.Matches (fun _ => True) (items fl c.p) (element fl c.s) ∨
    ∃ ptmp stmp, c.tmp = some (ptmp, stmp) ∧
      Wildcard.Later (fun _ => True) (items fl ptmp) (element fl stmp)

/-- The loop came from the last star to where it is by taking one byte for each piece. -/
structure FromStar (c : Cursor) (ptmp stmp : List UInt8) : Prop where
  after_eq : after fl ptmp = after fl c.p
  rest_eq : fl.pathname = true → stmp.dropWhile (· != 47) = c.s.dropWhile (· != 47)
  length_le : c.s.length ≤ stmp.length
  aligned : Wildcard.Aligned (items fl ptmp) (element fl stmp) (items fl c.p) (element fl c.s)

/-- What the loop keeps; no pattern is longer than `n`. -/
structure Invariant (n : ℕ) (c : Cursor) : Prop where
  p_le : c.p.length ≤ n
  tmp_le : ∀ ptmp stmp, c.tmp = some (ptmp, stmp) → ptmp.length ≤ n
  fromStar : ∀ ptmp stmp, c.tmp = some (ptmp, stmp) → FromStar fl c ptmp stmp

/-- The turns that are left at most. -/
def rank (n : ℕ) (c : Cursor) : ℕ :=
  (match c.tmp with
    | none => c.s.length + 1
    | some (_, stmp) => stmp.length) * (n + 1) + c.p.length

/-- A turn that goes on keeps the invariant, the answer and what stands behind, and is one of
finitely many. -/
structure GoesOn (n : ℕ) (c c' : Cursor) : Prop where
  invariant : Invariant fl n c'
  answer : Answer fl c' ↔ Answer fl c
  after_eq : after fl c'.p = after fl c.p
  rest_eq : fl.pathname = true → c'.s.dropWhile (· != 47) = c.s.dropWhile (· != 47)
  rank_lt : rank n c' < rank n c

/-- A turn that returns has the answer; if it is yes, the pattern is at its end marker. -/
structure Returns (c : Cursor) (r : Returned) : Prop where
  val : r.val = 0 ↔ Answer fl c
  end_marker : r.val = 0 → r.p = [] ∧ after fl c.p = none ∨
    ∃ q, r.p = 47 :: q ∧ after fl c.p = some q
  rest_eq : fl.pathname = true → r.s.dropWhile (· != 47) = c.s.dropWhile (· != 47)

/-- What a turn does. -/
def Turns (n : ℕ) (c : Cursor) : Cursor ⊕ Returned → Prop
  | .inl c' => GoesOn fl n c c'
  | .inr r => Returns fl c r

variable {fl} {n : ℕ} {c : Cursor}

/-- There is no answer from the last star when the element is used up. -/
theorem answer_of_element_eq_nil (hinv : Invariant fl n c) (h : element fl c.s = []) :
    Answer fl c ↔ Wildcard.Matches (fun _ => True) (items fl c.p) [] := by
  constructor
  · rintro (hm | ⟨ptmp, stmp, htmp, hlater⟩)
    · rwa [h] at hm
    · have hal := (hinv.fromStar ptmp stmp htmp).aligned
      rw [h] at hal
      exact absurd hlater (Wildcard.not_later_of_aligned hal)
  · intro hm
    refine .inl ?_
    rwa [h]

/-- **A piece that takes a byte.** -/
theorem goesOn_one (hinv : Invariant fl n c) {a : UInt8 → Prop} {p' : List UInt8}
    (hitems : items fl c.p = .one a :: items fl p') (hafter : after fl c.p = after fl p')
    (hlen : p'.length < c.p.length) {x : UInt8} {t : List UInt8} (hs : c.s = x :: t)
    (helem : element fl c.s = x :: element fl t)
    (hrest : fl.pathname = true → c.s.dropWhile (· != 47) = t.dropWhile (· != 47)) (hx : a x) :
    GoesOn fl n c ⟨p', t, c.tmp⟩ := by
  have hp := hinv.p_le
  refine ⟨⟨by dsimp only; omega, hinv.tmp_le, ?_⟩, ?_, hafter.symm, fun h => (hrest h).symm, ?_⟩
  · intro ptmp stmp htmp
    obtain ⟨h1, h2, h3, h4⟩ := hinv.fromStar ptmp stmp htmp
    rw [hs, List.length_cons] at h3
    rw [hitems, helem] at h4
    exact ⟨h1.trans hafter, fun h => (h2 h).trans (hrest h), by dsimp only; omega, h4.one hx⟩
  · simp only [Answer, hitems, helem, Wildcard.matches_one_cons, hx, true_and]
  · simp only [rank, hs, List.length_cons]
    cases c.tmp with
    | none =>
        dsimp only
        nlinarith
    | some tmp =>
        dsimp only
        omega

/-- **The label `failed`.** -/
theorem turns_failed (hinv : Invariant fl n c) (hne : element fl c.s ≠ [])
    (hno : ¬ Wildcard.Matches (fun _ => True) (items fl c.p) (element fl c.s)) (p' : List UInt8) :
    Turns fl n c (failed ⟨p', c.s, c.tmp⟩) := by
  rw [failed]
  cases htmp : c.tmp with
  | none =>
      refine ⟨?_, ?_, fun _ => rfl⟩
      · simp [Answer, hno, htmp]
      · intro h
        cases h
  | some tmp =>
      obtain ⟨ptmp, stmp⟩ := tmp
      have hstar := hinv.fromStar ptmp stmp htmp
      -- the element after the star is not used up, since the element here is not
      have hpos : 0 < (element fl stmp).length :=
        (List.length_pos_of_ne_nil hne).trans_le hstar.aligned.length_le
      rcases element_cases fl stmp with ⟨-, hnil⟩ | ⟨x, t, rfl, -, helem, hrest⟩
      · rw [hnil] at hpos
        exact absurd hpos (lt_irrefl 0)
      · have hle := hinv.tmp_le ptmp _ htmp
        refine ⟨⟨hle, ?_, ?_⟩, ?_, hstar.after_eq, ?_, ?_⟩
        · rintro ptmp' stmp' ⟨⟩
          exact hle
        · rintro ptmp' stmp' ⟨⟩
          exact ⟨rfl, fun _ => rfl, Nat.le_refl _, .refl _ _⟩
        · simp [Answer, htmp, hno, helem, Wildcard.later_cons]
        · intro h
          exact (hrest h).symm.trans (hstar.rest_eq h)
        · simp only [rank, htmp, List.tail_cons, List.length_cons]
          nlinarith

theorem eq_cons_of_head {p : List UInt8} {b : UInt8} (h : p.head? = some b) : p = b :: p.tail := by
  cases p with
  | nil => cases h
  | cons d q => rw [List.tail_cons, show d = b by simpa using h]

/-- A component that goes on with no star needs a byte. -/
theorem not_matches_nil {p : List UInt8} (h42 : p.head? ≠ some 42)
    (hend : isEnd fl.pathname (unescape fl.escape p) = false) :
    ¬ Wildcard.Matches (fun _ => True) (items fl p) [] := by
  by_cases h63 : p.head? = some 63
  · rw [eq_cons_of_head h63, items_any]
    exact Wildcard.not_matches_one_nil
  by_cases h91 : p.head? = some 91
  · rw [eq_cons_of_head h91]
    cases hset : setPiece fl.escape p.tail with
    | none =>
        rw [items_unterminated hset]
        exact Wildcard.not_matches_one_nil
    | some r =>
        rw [items_set hset]
        exact Wildcard.not_matches_one_nil
  · obtain ⟨d, q, -, -, hitems⟩ := items_of_ordinary h42 h63 h91 hend
    rw [hitems]
    exact Wildcard.not_matches_one_nil

/-- A turn at a star. -/
theorem turns_star (hinv : Invariant fl n c) (hp : c.p.head? = some 42) :
    Turns fl n c (starTurn fl c) := by
  obtain ⟨hstars, hafter⟩ := matches_stars fl hp (element fl c.s)
  have hlt : (c.p.dropWhile (· == 42)).length < c.p.length := by
    have hle := (List.dropWhile_sublist (l := c.p.tail) (· == 42)).length_le
    rw [eq_cons_of_head hp, List.length_cons, List.dropWhile_cons_of_pos (by simp)]
    omega
  have h42 : (c.p.dropWhile (· == 42)).head? ≠ some 42 := by
    intro h
    have hnot := List.head?_dropWhile_not (· == 42) c.p
    rw [h] at hnot
    exact absurd hnot (by decide)
  rw [starTurn]
  generalize c.p.dropWhile (· == 42) = p' at *
  -- the stars before need no second try
  have hanswer : Answer fl c ↔
      Wildcard.Matches (fun _ => True) (.gap :: items fl p') (element fl c.s) := by
    rw [← hstars]
    constructor
    · rintro (hm | ⟨ptmp, stmp, htmp, hlater⟩)
      · exact hm
      · have hal := (hinv.fromStar ptmp stmp htmp).aligned
        rw [eq_cons_of_head hp, items_star] at hal ⊢
        exact Wildcard.retry_gap hal (fun _ _ _ _ _ _ => Iff.rfl) hlater
    · exact .inl
  have hp_le := hinv.p_le
  split_ifs with hend hs
  · obtain ⟨hitems, hmark⟩ := items_of_isEnd hend
    refine ⟨?_, ?_, fun _ => rfl⟩
    · have hall : Wildcard.Matches (fun _ => True) [.gap] (element fl c.s ++ []) :=
        .gap (fun _ _ => trivial) .nil
      rw [List.append_nil] at hall
      rw [hanswer, hitems]
      exact iff_of_true rfl hall
    · intro _
      rw [hafter]
      exact hmark
  · rcases element_cases fl c.s with ⟨-, hnil⟩ | ⟨x, t, -, hno, -⟩
    · have hno : ¬ Wildcard.Matches (fun _ => True) (.gap :: items fl p') [] := by
        rw [Wildcard.matches_gap_iff_later]
        rintro (h | h)
        · exact not_matches_nil h42 (by simpa using hend) h
        · exact Wildcard.not_later_nil h
      refine ⟨?_, nofun, fun _ => rfl⟩
      rw [hanswer, hnil]
      exact iff_of_false one_ne_zero hno
    · rw [hno] at hs
      exact absurd hs Bool.false_ne_true
  · refine ⟨⟨?_, ?_, ?_⟩, ?_, hafter.symm, fun _ => rfl, ?_⟩
    · dsimp only
      omega
    · rintro ptmp stmp ⟨⟩
      omega
    · rintro ptmp stmp ⟨⟩
      exact ⟨rfl, fun _ => rfl, Nat.le_refl _, .refl _ _⟩
    · rw [hanswer, Wildcard.matches_gap_iff_later]
      simp [Answer]
    · simp only [rank]
      cases htmp : c.tmp with
      | none =>
          dsimp only
          nlinarith
      | some tmp =>
          have := (hinv.fromStar tmp.1 tmp.2 htmp).length_le
          dsimp only
          nlinarith

/-- A turn that finds the element used up where the component needs a byte. -/
theorem returns_used_up (hinv : Invariant fl n c) (h42 : c.p.head? ≠ some 42)
    (hend : isEnd fl.pathname (unescape fl.escape c.p) = false) (hnil : element fl c.s = [])
    (p' : List UInt8) : Returns fl c ⟨1, p', c.s⟩ := by
  refine ⟨?_, nofun, fun _ => rfl⟩
  rw [answer_of_element_eq_nil hinv hnil]
  exact iff_of_false one_ne_zero (not_matches_nil h42 hend)

theorem isEnd_of_head {p : List UInt8} {b : UInt8} (hb : b = 42 ∨ b = 63 ∨ b = 91)
    (h : p.head? = some b) : isEnd fl.pathname (unescape fl.escape p) = false := by
  rw [Bool.eq_false_iff]
  intro hend
  exact head_ne_of_isEnd hb hend h

/-- A turn at a question mark. -/
theorem turns_any (hinv : Invariant fl n c) (hp : c.p.head? = some 63) :
    Turns fl n c (anyTurn fl c) := by
  have h42 : c.p.head? ≠ some 42 := by simp [hp]
  rw [anyTurn]
  rcases element_cases fl c.s with ⟨hs, hnil⟩ | ⟨x, t, hst, hs, helem, hrest⟩
  · rw [if_pos hs]
    exact returns_used_up hinv h42 (isEnd_of_head (by simp) hp) hnil _
  · rw [if_neg (by simp [hs])]
    have hitems : items fl c.p = .one (fun _ => true = true) :: items fl c.p.tail := by
      rw [← items_any, ← eq_cons_of_head hp]
    have hafter : after fl c.p = after fl c.p.tail := by
      rw [eq_cons_of_head hp, after, pieces_any]
      rfl
    have hlen : c.p.tail.length < c.p.length := by
      rw [eq_cons_of_head hp]
      simp
    have := goesOn_one hinv hitems hafter hlen hst helem hrest rfl
    rwa [hst]

/-- A turn at a set. -/
theorem turns_set (hinv : Invariant fl n c) (hp : c.p.head? = some 91) :
    Turns fl n c (setTurn fl c) := by
  have h42 : c.p.head? ≠ some 42 := by simp [hp]
  rw [setTurn]
  rcases element_cases fl c.s with ⟨hs, hnil⟩ | ⟨x, t, hst, hs, helem, hrest⟩
  · rw [if_pos hs]
    exact returns_used_up hinv h42 (isEnd_of_head (by simp) hp) hnil _
  · rw [if_neg (by simp [hs]), bracket_eq]
    have hne : element fl c.s ≠ [] := by simp [helem]
    have hhead : c.s.headD 0 = x := by rw [hst]; rfl
    rw [hhead]
    cases hset : setPiece fl.escape c.p.tail with
    | none =>
        refine turns_failed hinv hne ?_ c.p
        rw [eq_cons_of_head hp, items_unterminated hset, helem]
        simp
    | some r =>
        obtain ⟨a, q⟩ := r
        have hitems : items fl c.p =
            .one (fun c => a.accepts fl.casefold c = true) :: items fl q := by
          rw [← items_set hset, ← eq_cons_of_head hp]
        have hafter : after fl c.p = after fl q := by
          rw [eq_cons_of_head hp, after, pieces_set _ _ hset]
          rfl
        have hlen : q.length < c.p.length := by
          have hlt : q.length < c.p.tail.length := setPiece_length hset
          rw [List.length_tail] at hlt
          omega
        by_cases haccept : a.accepts fl.casefold x = true
        · have := goesOn_one hinv hitems hafter hlen hst helem hrest haccept
          simp only [Option.bind_some, haccept, if_true]
          rwa [hst]
        · simp only [Option.bind_some, haccept]
          refine turns_failed hinv hne ?_ c.p
          rw [hitems, helem]
          simp [haccept]

/-- A turn at an ordinary byte. -/
theorem turns_ordinary (hinv : Invariant fl n c) (h42 : c.p.head? ≠ some 42)
    (h63 : c.p.head? ≠ some 63) (h91 : c.p.head? ≠ some 91) :
    Turns fl n c (ordinaryTurn fl c) := by
  rw [ordinaryTurn]
  rcases element_cases fl c.s with ⟨hs, hnil⟩ | ⟨x, t, hst, hs, helem, hrest⟩
  · rw [if_pos hs]
    cases hend : isEnd fl.pathname (unescape fl.escape c.p) with
    | true =>
        obtain ⟨hitems, hmark⟩ := items_of_isEnd hend
        refine ⟨?_, fun _ => hmark, fun _ => rfl⟩
        rw [answer_of_element_eq_nil hinv hnil, hitems]
        exact iff_of_true rfl .nil
    | false => exact returns_used_up hinv h42 hend hnil _
  · have hne : element fl c.s ≠ [] := by simp [helem]
    rw [if_neg (by simp [hs])]
    cases hend : isEnd fl.pathname (unescape fl.escape c.p) with
    | true =>
        refine turns_failed hinv hne ?_ _
        rw [(items_of_isEnd hend).1, Wildcard.matches_nil]
        exact hne
    | false =>
        obtain ⟨d, q, hun, hafter, hitems⟩ := items_of_ordinary h42 h63 h91 hend
        have hlen : q.length < c.p.length := by
          have := length_unescape_le fl.escape c.p
          rw [hun, List.length_cons] at this
          omega
        have hhead : c.s.headD 0 = x := by rw [hst]; rfl
        simp only [Bool.false_eq_true, if_false, hun, List.headD_cons, hhead, List.tail_cons]
        by_cases hcmp : compare fl.casefold d x = 0
        · have := goesOn_one hinv hitems hafter hlen hst helem hrest (by simp [hcmp])
          rw [if_neg (by simp [hcmp])]
          rwa [hst]
        · rw [if_pos hcmp]
          refine turns_failed hinv hne ?_ _
          rw [hitems, helem]
          simp [hcmp]

/-- **What a turn of the loop of `fnmatch_helper` keeps.** -/
theorem helperTurn_spec (hinv : Invariant fl n c) : Turns fl n c (helperTurn fl c) := by
  rw [helperTurn]
  split_ifs with h42 h63 h91
  · exact turns_star hinv h42
  · exact turns_any hinv h63
  · exact turns_set hinv h91
  · exact turns_ordinary hinv h42 h63 h91

/-- **The loop of `fnmatch_helper` ends, with the answer.** -/
theorem helperLoop_spec (hinv : Invariant fl n c) {fuel : ℕ} (hfuel : rank n c < fuel) :
    ∃ r, helperLoop fl fuel c = some r ∧ Returns fl c r := by
  induction fuel generalizing c with
  | zero => omega
  | succ fuel ih =>
      have hturn := helperTurn_spec hinv
      rw [helperLoop]
      cases hc : helperTurn fl c with
      | inr r =>
          rw [hc] at hturn
          exact ⟨r, rfl, hturn⟩
      | inl c' =>
          rw [hc] at hturn
          have hlt := hturn.rank_lt
          obtain ⟨r, hr, hret⟩ := ih hturn.invariant (by omega)
          refine ⟨r, hr, hret.val.trans hturn.answer, ?_, ?_⟩
          · intro hval
            rw [← hturn.after_eq]
            exact hret.end_marker hval
          · intro hpath
            exact (hret.rest_eq hpath).trans (hturn.rest_eq hpath)

/-- The pieces begin with a literal dot when the pattern does, escaped or not. -/
theorem head_pieces_eq_dot (p : List UInt8) :
    (pieces fl.escape fl.pathname p).1.head? = some (.literal 46) ↔
      (unescape fl.escape p).head? = some 46 := by
  have hun : ∀ b : UInt8, b ≠ 92 → p.head? = some b → (unescape fl.escape p).head? = some b := by
    intro b hb hp
    rw [unescape, if_neg (by simp [hp, hb]), hp]
  by_cases h42 : p.head? = some 42
  · rw [hun 42 (by decide) h42, eq_cons_of_head h42, pieces_star]
    simp
  by_cases h63 : p.head? = some 63
  · rw [hun 63 (by decide) h63, eq_cons_of_head h63, pieces_any]
    simp
  by_cases h91 : p.head? = some 91
  · rw [hun 91 (by decide) h91, eq_cons_of_head h91]
    cases hset : setPiece fl.escape p.tail with
    | none =>
        rw [pieces_unterminated _ _ hset]
        simp
    | some r =>
        rw [pieces_set _ _ hset]
        rw [setPiece] at hset
        split_ifs at hset
        all_goals
          obtain ⟨r', -, rfl⟩ := Option.map_eq_some_iff.mp hset
          simp
  rw [pieces_unescape h42 h63 h91]
  cases unescape fl.escape p with
  | nil => simp
  | cons c q =>
      dsimp only
      split_ifs with hc
      · have h47 : c = 47 := by
          rw [Bool.and_eq_true, beq_iff_eq] at hc
          exact hc.2
        simp [h47]
      · simp

theorem head_element_eq_dot (s : List UInt8) :
    (element fl s).head? = some 46 ↔ s.head? = some 46 := by
  cases s with
  | nil => simp [element]
  | cons c s =>
      cases hpath : fl.pathname with
      | false => simp [element, hpath]
      | true =>
          by_cases hc : c = 47
          · simp [element, hpath, hc]
          · simp [element, hpath, hc]

/-- **`fnmatch_helper` decides the matching of one path element.** -/
theorem fnmatchHelper_spec (fl : Flags) (p s : List UInt8) :
    ∃ r, fnmatchHelper fl p s = some r ∧
      (r.val = 0 ↔ ElementMatches (dotRule fl) fl.casefold (pieces fl.escape fl.pathname p).1
        (element fl s)) ∧
      (r.val = 0 → r.p = [] ∧ after fl p = none ∨ ∃ q, r.p = 47 :: q ∧ after fl p = some q) ∧
      (fl.pathname = true → r.s.dropWhile (· != 47) = s.dropWhile (· != 47)) := by
  have hdot : (dotRule fl).takes (pieces fl.escape fl.pathname p).1 (element fl s) ↔
      ¬ (fl.period && s.head? == some 46 && (unescape fl.escape p).head? != some 46) = true := by
    simp only [dotRule]
    rw [head_pieces_eq_dot, head_element_eq_dot]
    simp
  rw [fnmatchHelper]
  split_ifs with hlead
  · refine ⟨_, rfl, ?_, nofun, fun _ => rfl⟩
    refine iff_of_false one_ne_zero ?_
    rintro ⟨-, htakes⟩
    exact hdot.mp htakes hlead
  · have hinv : Invariant fl p.length ⟨p, s, none⟩ := ⟨Nat.le_refl _, nofun, nofun⟩
    have hrank : rank p.length ⟨p, s, none⟩ < turns p s := by
      simp only [rank, turns]
      nlinarith
    obtain ⟨r, hr, hval, hmark, hrest⟩ := helperLoop_spec hinv hrank
    refine ⟨r, hr, ?_, hmark, hrest⟩
    rw [hval, ElementMatches, and_iff_left (hdot.mpr hlead)]
    simp [Answer, RunMatches, items]

end Element

end MacRuby.Dir
