import MacRuby.Dir.FnmatchSpec
import MacRuby.Dir.Glob

/-!
# The list of a glob pattern means what the pattern means

`glob_make_pattern` cuts a pattern with `find_dirsep`, which knows sets and escapes in its own way.
The cuts are those of the components that `fnmatch` sees, unless a separator is escaped.

## Main definitions

* `goodEscapes` — no separator is escaped, nor a letter under `FNM_CASEFOLD`.
* `tailItems` — what a tail of the list matches.
* `Tail` — a tail of the list of a pattern.

## Main results

* `cut_of_goodEscapes` — a cut is a component.
* `pieces_plain`, `elementMatches_literals` — a plain string matches its name only.
* `globMakeLoop_spec` — the list means what the pattern means.
-/

namespace MacRuby.Dir

variable {fl : Flags}

/-! ## Escapes -/

/-- No backslash outside a set escapes a separator, nor, with `FNM_CASEFOLD`, a letter. -/
def goodEscapes (fl : Flags) : List UInt8 → Bool
  | [] => true
  | c :: p =>
      if c = 91 then
        match _h : setPiece fl.escape p with
        | none => true
        | some (_, q) => goodEscapes fl q
      else if fl.escape && c == 92 then
        match p with
        | [] => true
        | d :: q => d != 47 && !(fl.casefold && isAlpha d) && goodEscapes fl q
      else goodEscapes fl p
termination_by p => p.length
decreasing_by
  · have hlt : q.length < p.length := setPiece_length _h
    simp only [List.length_cons]
    omega
  · simp only [List.length_cons]
    omega
  · simp

theorem goodEscapes_nil : goodEscapes fl [] = true := by rw [goodEscapes.eq_def]

theorem goodEscapes_set {p q : List UInt8} {a : Piece} (h : setPiece fl.escape p = some (a, q)) :
    goodEscapes fl (91 :: p) = goodEscapes fl q := by
  rw [goodEscapes.eq_def]
  simp only [if_true]
  split
  · simp_all
  · rename_i a' q' h'
    rw [h] at h'
    cases h'
    rfl

theorem goodEscapes_escaped (hesc : fl.escape = true) (d : UInt8) (p : List UInt8) :
    goodEscapes fl (92 :: d :: p) =
      (d != 47 && !(fl.casefold && isAlpha d) && goodEscapes fl p) := by
  rw [goodEscapes.eq_def]
  simp [hesc]

theorem goodEscapes_cons {c : UInt8} (h91 : c ≠ 91) (h92 : (fl.escape && c == 92) = false)
    (p : List UInt8) : goodEscapes fl (c :: p) = goodEscapes fl p := by
  rw [goodEscapes.eq_def]
  simp only [if_neg h91, h92, Bool.false_eq_true, if_false]

/-! ## Cuts -/

theorem findDirsep_nil (escape isOpen : Bool) : findDirsep escape isOpen [] = ([], []) := by
  rw [findDirsep.eq_def]

theorem findDirsep_separator (escape : Bool) (p : List UInt8) :
    findDirsep escape false (47 :: p) = ([], 47 :: p) := by
  rw [findDirsep.eq_def]
  simp

theorem findDirsep_escaped (isOpen : Bool) (d : UInt8) (p : List UInt8) :
    findDirsep true isOpen (92 :: d :: p)
      = (92 :: d :: (findDirsep true isOpen p).1, (findDirsep true isOpen p).2) := by
  rw [findDirsep.eq_def]
  simp

theorem findDirsep_backslash (isOpen : Bool) : findDirsep true isOpen [92] = ([92], []) := by
  rw [findDirsep.eq_def]
  simp

/-- A byte that is neither a separator nor a backslash is passed. -/
theorem findDirsep_cons {escape isOpen : Bool} {c : UInt8} (h47 : ¬ (c = 47 ∧ isOpen = false))
    (h92 : (escape && c == 92) = false) (p : List UInt8) :
    let o := if c = 91 then true else if c = 93 then false else isOpen
    findDirsep escape isOpen (c :: p)
      = (c :: (findDirsep escape o p).1, (findDirsep escape o p).2) := by
  have h92' : ¬ (c = 92 ∧ escape = true) := by
    rintro ⟨rfl, rfl⟩
    exact absurd h92 (by decide)
  rw [findDirsep.eq_def]
  simp only [if_neg h47, if_neg h92']

/-- In a set the cut is sought after its end. -/
theorem findDirsep_setBody {escape : Bool} {p : List UInt8} {r : List (Bool × UInt8) × List UInt8}
    (h : setBody escape p = some r) :
    ∃ pre, p = pre ++ r.2 ∧ (∀ x, setBody escape (pre ++ x) = some (r.1, x)) ∧
      findDirsep escape true p
        = (pre ++ (findDirsep escape false r.2).1, (findDirsep escape false r.2).2) := by
  fun_induction setBody escape p generalizing r with
  | case1 => cases h
  | case2 p =>
      cases h
      refine ⟨[93], rfl, ?_, ?_⟩
      · intro x
        rw [List.singleton_append, setBody.eq_def]
        simp
      · rw [findDirsep_cons (by decide) (by simp)]
        rfl
  | case3 => cases h
  | case4 c hc hesc d q ih =>
      obtain ⟨r', hr', rfl⟩ := Option.map_eq_some_iff.mp h
      obtain ⟨pre, hp, hbody, hfind⟩ := ih hr'
      simp only [Bool.and_eq_true, beq_iff_eq] at hesc
      obtain ⟨rfl, rfl⟩ := hesc
      refine ⟨92 :: d :: pre, by rw [hp]; rfl, ?_, ?_⟩
      · intro x
        rw [List.cons_append, List.cons_append, setBody.eq_def]
        simp [hbody]
      · rw [findDirsep_escaped, hfind]
        rfl
  | case5 c p hc hesc ih =>
      obtain ⟨r', hr', rfl⟩ := Option.map_eq_some_iff.mp h
      obtain ⟨pre, hp, hbody, hfind⟩ := ih hr'
      have hesc' : (escape && c == 92) = false := by simpa using hesc
      refine ⟨c :: pre, by rw [hp]; rfl, ?_, ?_⟩
      · intro x
        rw [List.cons_append, setBody.eq_def]
        simp [hbody, hc, hesc']
      · rw [findDirsep_cons (by simp) hesc']
        simp only [if_neg hc, ite_self, hfind]
        rfl

/-- In a set without an end there is no cut. -/
theorem findDirsep_of_setBody_none {escape : Bool} {p : List UInt8} (h : setBody escape p = none) :
    findDirsep escape true p = (p, []) := by
  fun_induction setBody escape p with
  | case1 => exact findDirsep_nil _ _
  | case2 => cases h
  | case3 c hc hesc =>
      simp only [Bool.and_eq_true, beq_iff_eq] at hesc
      obtain ⟨rfl, rfl⟩ := hesc
      exact findDirsep_backslash true
  | case4 c hc hesc d q ih =>
      simp only [Bool.and_eq_true, beq_iff_eq] at hesc
      obtain ⟨rfl, rfl⟩ := hesc
      rw [findDirsep_escaped, ih (Option.map_eq_none_iff.mp h)]
  | case5 c p hc hesc ih =>
      rw [findDirsep_cons (by simp) (by simpa using hesc)]
      simp only [if_neg hc, ite_self, ih (Option.map_eq_none_iff.mp h)]

theorem findDirsep_setPiece {escape : Bool} {p q : List UInt8} {a : Piece}
    (h : setPiece escape p = some (a, q)) :
    ∃ pre, p = pre ++ q ∧ (∀ x, setPiece escape (pre ++ x) = some (a, x)) ∧
      findDirsep escape true p
        = (pre ++ (findDirsep escape false q).1, (findDirsep escape false q).2) := by
  rw [setPiece] at h
  split_ifs at h with hnot
  · obtain ⟨r, hr, hra⟩ := Option.map_eq_some_iff.mp h
    cases hra
    obtain ⟨pre, hp, hbody, hfind⟩ := findDirsep_setBody hr
    obtain ⟨c, hc, hc'⟩ : ∃ c, p = c :: p.tail ∧ (c = 33 ∨ c = 94) := by
      rcases hnot with h | h
      · exact ⟨33, eq_cons_of_head h, .inl rfl⟩
      · exact ⟨94, eq_cons_of_head h, .inr rfl⟩
    refine ⟨c :: pre, by rw [hc, hp]; rfl, ?_, ?_⟩
    · intro x
      rw [setPiece, if_pos (by simpa using hc'), List.cons_append, List.tail_cons, hbody]
      rfl
    · rw [hc, findDirsep_cons (by simp) (by rcases hc' with rfl | rfl <;> simp)]
      have ho : (if c = 91 then true else if c = 93 then false else true) = true := by
        rcases hc' with rfl | rfl <;> rfl
      simp only [ho, hfind]
      rfl
  · obtain ⟨r, hr, hra⟩ := Option.map_eq_some_iff.mp h
    cases hra
    obtain ⟨pre, hp, hbody, hfind⟩ := findDirsep_setBody hr
    refine ⟨pre, hp, ?_, hfind⟩
    intro x
    cases pre with
    | nil => exact absurd (hbody []) (by simp [setBody])
    | cons c pre =>
        rw [hp] at hnot
        rw [setPiece, if_neg (by simpa using hnot), hbody]
        rfl

theorem findDirsep_of_setPiece_none {escape : Bool} {p : List UInt8}
    (h : setPiece escape p = none) :
    findDirsep escape true p = (p, []) := by
  rw [setPiece] at h
  split_ifs at h with hnot
  · have hfind := findDirsep_of_setBody_none (Option.map_eq_none_iff.mp h)
    obtain ⟨c, hc, hc'⟩ : ∃ c, p = c :: p.tail ∧ (c = 33 ∨ c = 94) := by
      rcases hnot with h | h
      · exact ⟨33, eq_cons_of_head h, .inl rfl⟩
      · exact ⟨94, eq_cons_of_head h, .inr rfl⟩
    rw [hc, findDirsep_cons (by simp) (by rcases hc' with rfl | rfl <;> simp)]
    have ho : (if c = 91 then true else if c = 93 then false else true) = true := by
      rcases hc' with rfl | rfl <;> rfl
    simp only [ho, hfind]
  · exact findDirsep_of_setBody_none (Option.map_eq_none_iff.mp h)

/-- The cut of a pattern has the pieces of its first component, and the pattern goes on after the
separator. -/
structure Cut (fl : Flags) (p : List UInt8) : Prop where
  pieces_eq : pieces fl.escape true (findDirsep fl.escape false p).1
    = ((pieces fl.escape true p).1, none)
  good : goodEscapes fl (findDirsep fl.escape false p).1 = true
  rest : (pieces fl.escape true p).2 = none ∧ (findDirsep fl.escape false p).2 = [] ∨
    ∃ q, (pieces fl.escape true p).2 = some q ∧ (findDirsep fl.escape false p).2 = 47 :: q ∧
      goodEscapes fl q = true

/-- A piece before a cut. -/
theorem Cut.append {p : List UInt8} (h : Cut fl p) (pre : List UInt8) (a : Piece)
    (hfind : findDirsep fl.escape false (pre ++ p)
      = (pre ++ (findDirsep fl.escape false p).1, (findDirsep fl.escape false p).2))
    (hpieces : ∀ x, pieces fl.escape true (pre ++ x)
      = (a :: (pieces fl.escape true x).1, (pieces fl.escape true x).2))
    (hgood : ∀ x, goodEscapes fl x = true → goodEscapes fl (pre ++ x) = true) :
    Cut fl (pre ++ p) := by
  refine ⟨?_, ?_, ?_⟩
  · rw [hfind, hpieces, hpieces, h.pieces_eq]
  · rw [hfind]
    exact hgood _ h.good
  · rw [hfind, hpieces]
    exact h.rest

/-- A byte that is a piece, before a cut. -/
theorem Cut.cons {p : List UInt8} {c : UInt8} {a : Piece} (h : Cut fl p) (h47 : c ≠ 47)
    (h91 : c ≠ 91) (h92 : (fl.escape && c == 92) = false)
    (hpieces : ∀ x, pieces fl.escape true (c :: x)
      = (a :: (pieces fl.escape true x).1, (pieces fl.escape true x).2)) : Cut fl (c :: p) := by
  refine h.append [c] a ?_ hpieces ?_
  · rw [List.singleton_append, findDirsep_cons (by simp [h47]) h92]
    simp only [if_neg h91, ite_self]
    rfl
  · intro x hx
    rwa [List.singleton_append, goodEscapes_cons h91 h92]

/-- **A cut is a component.** -/
theorem cut_of_goodEscapes {p : List UInt8} (hgood : goodEscapes fl p = true) : Cut fl p := by
  induction p using pieces.induct fl.escape true with
  | case1 => exact ⟨by simp [findDirsep_nil], by simp [findDirsep_nil, goodEscapes_nil],
      by simp [findDirsep_nil]⟩
  | case2 p ih =>
      rw [goodEscapes_cons (by decide) (by simp)] at hgood
      exact (ih hgood).cons (by decide) (by decide) (by simp) fun x => pieces_star _ _ x
  | case3 p hc ih =>
      rw [goodEscapes_cons (by decide) (by simp)] at hgood
      exact (ih hgood).cons (by decide) (by decide) (by simp) fun x => pieces_any _ _ x
  | case4 p hset _ _ =>
      -- a set without an end takes the rest of the pattern
      have hfind : findDirsep fl.escape false (91 :: p) = (91 :: p, []) := by
        rw [findDirsep_cons (by decide) (by simp)]
        simp only [if_true, findDirsep_of_setPiece_none hset]
      refine ⟨?_, ?_, ?_⟩
      · rw [hfind, pieces_unterminated _ _ hset]
      · rwa [hfind]
      · rw [hfind, pieces_unterminated _ _ hset]
        exact .inl ⟨rfl, rfl⟩
  | case5 p a q hset _ _ ih =>
      obtain ⟨pre, hp, hpre, hfind⟩ := findDirsep_setPiece hset
      rw [goodEscapes_set hset] at hgood
      rw [hp] at hfind ⊢
      refine (ih hgood).append (91 :: pre) a ?_ ?_ ?_
      · rw [List.cons_append, findDirsep_cons (by decide) (by simp)]
        simp only [if_true, hfind]
        rfl
      · intro x
        rw [List.cons_append, pieces_set _ _ (hpre x)]
      · intro x hx
        rwa [List.cons_append, goodEscapes_set (hpre x)]
  | case6 c h42 h63 h91 hesc =>
      simp only [Bool.and_eq_true, beq_iff_eq] at hesc
      obtain ⟨hesc, rfl⟩ := hesc
      refine ⟨?_, ?_, ?_⟩
      · rw [hesc, findDirsep_backslash, pieces_final_backslash]
      · rwa [hesc, findDirsep_backslash]
      · rw [hesc, findDirsep_backslash, pieces_final_backslash]
        exact .inl ⟨rfl, rfl⟩
  | case7 c h42 h63 h91 hesc d q hd =>
      -- a separator is not escaped
      simp only [Bool.and_eq_true, beq_iff_eq] at hesc hd
      obtain ⟨hesc, rfl⟩ := hesc
      rw [goodEscapes_escaped hesc, hd.2] at hgood
      simp at hgood
  | case8 c h42 h63 h91 hesc d q hd ih =>
      simp only [Bool.and_eq_true, beq_iff_eq] at hesc
      obtain ⟨hesc, rfl⟩ := hesc
      have hgood' := hgood
      rw [goodEscapes_escaped hesc, Bool.and_eq_true] at hgood'
      refine (ih hgood'.2).append [92, d] (.literal d) ?_ ?_ ?_
      · rw [List.cons_append, List.singleton_append, hesc, findDirsep_escaped]
        rfl
      · intro x
        rw [List.cons_append, List.singleton_append, hesc, pieces_escaped, if_neg hd]
      · intro x hx
        rw [List.cons_append, List.singleton_append, goodEscapes_escaped hesc, Bool.and_eq_true]
        exact ⟨hgood'.1, hx⟩
  | case9 c p h42 h63 h91 hesc h47 =>
      have hc : c = 47 := by simpa using h47
      subst hc
      have hesc' : (fl.escape && (47 : UInt8) == 92) = false := by simp
      rw [goodEscapes_cons (by decide) hesc'] at hgood
      refine ⟨?_, ?_, ?_⟩
      · rw [findDirsep_separator, pieces_nil, pieces_ordinary _ _ h42 h63 h91 hesc']
        rfl
      · rw [findDirsep_separator]
        exact goodEscapes_nil
      · rw [findDirsep_separator, pieces_ordinary _ _ h42 h63 h91 hesc']
        exact .inr ⟨p, rfl, rfl, hgood⟩
  | case10 c p h42 h63 h91 hesc h47 ih =>
      have hesc' : (fl.escape && c == 92) = false := by simpa using hesc
      have hc : c ≠ 47 := by simpa using h47
      rw [goodEscapes_cons h91 hesc'] at hgood
      refine (ih hgood).cons (a := .literal c) hc h91 hesc' fun x => ?_
      rw [pieces_ordinary _ _ h42 h63 h91 hesc', if_neg h47]

/-! ## Plain strings -/

/-- The name that a plain string stands for. -/
def plainName (fl : Flags) (str : List UInt8) : List UInt8 :=
  if fl.escape then removeBackslashes str else str

/-- Pieces that are the bytes of a name match that name only. -/
theorem elementMatches_literals {name n : List UInt8}
    (hname : fl.casefold = true → ∀ c ∈ name, isAlpha c = false) :
    ElementMatches (dotRule fl) fl.casefold (name.map .literal) n ↔ n = name := by
  have hrun : ∀ {name n : List UInt8}, (fl.casefold = true → ∀ c ∈ name, isAlpha c = false) →
      (RunMatches fl.casefold (name.map .literal) n ↔ n = name) := by
    intro name n hname
    induction name generalizing n with
    | nil => exact Wildcard.matches_nil
    | cons c name ih =>
        have hc : fl.casefold = true → isUpper c = false ∧ ¬ (97 ≤ c ∧ c ≤ 122) := by
          intro hcase
          simpa [isAlpha] using hname hcase c (by simp)
        have ih' := fun n => @ih n fun hcase d hd => hname hcase d (by simp [hd])
        constructor
        · intro h
          obtain ⟨d, t, rfl, hd, ht⟩ := Wildcard.matches_one.mp h
          have hdc : compare fl.casefold c d = 0 := by simpa [Piece.accepts] using hd
          rw [eq_of_compare hc hdc, (ih' t).mp ht]
        · rintro rfl
          exact .one (by simp [Piece.accepts, compare]) ((ih' name).mpr rfl)
  rw [ElementMatches, hrun hname]
  constructor
  · exact And.left
  · rintro rfl
    refine ⟨rfl, fun _ hdot => ?_⟩
    cases n with
    | nil => cases hdot
    | cons c n => simpa using hdot

theorem hasMagic_escaped (hesc : fl.escape = true) (d : UInt8) (p : List UInt8) :
    hasMagic fl (92 :: d :: p) = hasMagic fl p := by
  rw [hasMagic.eq_def]
  simp [hesc]

theorem hasMagic_wildcard {c : UInt8} (hc : c = 42 ∨ c = 63 ∨ c = 91) (p : List UInt8) :
    hasMagic fl (c :: p) = true := by
  rw [hasMagic.eq_def]
  simp [hc]

/-- The pieces of a plain string are the bytes of its name. -/
theorem pieces_plain {str : List UInt8} (hmagic : hasMagic fl str = false)
    (hgood : goodEscapes fl str = true) (htext : (pieces fl.escape true str).2 = none) :
    (pieces fl.escape true str).1 = (plainName fl str).map .literal ∧ 47 ∉ plainName fl str ∧
      (fl.casefold = true → ∀ c ∈ plainName fl str, isAlpha c = false) := by
  induction str using pieces.induct fl.escape true with
  | case1 => simp [plainName, removeBackslashes]
  | case2 p ih => simp [hasMagic_wildcard] at hmagic
  | case3 p hc ih => simp [hasMagic_wildcard] at hmagic
  | case4 p hset _ _ => simp [hasMagic_wildcard] at hmagic
  | case5 p a q hset _ _ ih => simp [hasMagic_wildcard] at hmagic
  | case6 c h42 h63 h91 hesc =>
      simp only [Bool.and_eq_true, beq_iff_eq] at hesc
      obtain ⟨hesc, rfl⟩ := hesc
      rw [hesc, pieces_final_backslash]
      simp [plainName, removeBackslashes, hesc]
  | case7 c h42 h63 h91 hesc d q hd =>
      simp only [Bool.and_eq_true, beq_iff_eq] at hesc hd
      obtain ⟨hesc, rfl⟩ := hesc
      rw [goodEscapes_escaped hesc, hd.2] at hgood
      simp at hgood
  | case8 c h42 h63 h91 hesc d q hd ih =>
      simp only [Bool.and_eq_true, beq_iff_eq] at hesc
      obtain ⟨hesc, rfl⟩ := hesc
      rw [hasMagic_escaped hesc] at hmagic
      rw [goodEscapes_escaped hesc, Bool.and_eq_true, Bool.and_eq_true] at hgood
      have hpieces : pieces fl.escape true (92 :: d :: q)
          = (.literal d :: (pieces fl.escape true q).1, (pieces fl.escape true q).2) := by
        rw [hesc, pieces_escaped, if_neg hd]
      have hname : plainName fl (92 :: d :: q) = d :: plainName fl q := by
        simp [plainName, hesc, removeBackslashes]
      rw [hpieces] at htext ⊢
      obtain ⟨h1, h2, h3⟩ := ih hmagic hgood.2 htext
      rw [hname, h1]
      refine ⟨rfl, ?_, ?_⟩
      · have : d ≠ 47 := by simpa using hgood.1.1
        simpa [this.symm] using h2
      · intro hcase
        have : isAlpha d = false := by simpa [hcase] using hgood.1.2
        simpa [this] using h3 hcase
  | case9 c p h42 h63 h91 hesc h47 =>
      rw [pieces_ordinary _ _ h42 h63 h91 (by simpa using hesc), if_pos h47] at htext
      cases htext
  | case10 c p h42 h63 h91 hesc h47 ih =>
      have hesc' : (fl.escape && c == 92) = false := by simpa using hesc
      have hc : c ≠ 47 := by simpa using h47
      rw [goodEscapes_cons h91 hesc'] at hgood
      rw [pieces_ordinary _ _ h42 h63 h91 hesc', if_neg h47] at htext ⊢
      have hname : plainName fl (c :: p) = c :: plainName fl p := by
        rw [plainName, plainName]
        split_ifs with h
        · have : c ≠ 92 := by simpa [h] using hesc
          rw [removeBackslashes.eq_def]
          simp [this]
        · rfl
      have hmagic' : hasMagic fl p = false ∧ (fl.casefold = true → isAlpha c = false) := by
        rw [hasMagic.eq_def] at hmagic
        dsimp only at hmagic
        rw [if_neg (by simp [h42, h63, h91])] at hmagic
        by_cases h92 : c = 92
        · have hno : fl.escape = false := by simpa [h92] using hesc'
          rw [if_pos h92, hno] at hmagic
          exact ⟨hmagic, fun _ => by rw [h92]; decide⟩
        · rw [if_neg h92] at hmagic
          split_ifs at hmagic with halpha
          refine ⟨hmagic, fun hcase => ?_⟩
          simpa [hcase] using halpha
      obtain ⟨h1, h2, h3⟩ := ih hmagic'.1 hgood htext
      rw [hname, h1]
      refine ⟨rfl, ?_, ?_⟩
      · simpa [hc.symm] using h2
      · intro hcase
        simpa [hmagic'.2 hcase] using h3 hcase

/-! ## Matching an entry -/

/-- Without a separator the flag `FNM_PATHNAME` makes no difference. -/
theorem pieces_pathname {escape : Bool} {p : List UInt8} (h : (pieces escape true p).2 = none) :
    pieces escape false p = pieces escape true p := by
  induction p using pieces.induct escape true with
  | case1 => simp
  | case2 p ih =>
      rw [pieces_star] at h ⊢
      rw [pieces_star, ih h]
  | case3 p hc ih =>
      rw [pieces_any] at h ⊢
      rw [pieces_any, ih h]
  | case4 p hset _ _ => rw [pieces_unterminated _ _ hset, pieces_unterminated _ _ hset]
  | case5 p a q hset _ _ ih =>
      rw [pieces_set _ _ hset] at h ⊢
      rw [pieces_set _ _ hset, ih h]
  | case6 c h42 h63 h91 hesc =>
      simp only [Bool.and_eq_true, beq_iff_eq] at hesc
      obtain ⟨rfl, rfl⟩ := hesc
      rw [pieces_final_backslash, pieces_final_backslash]
  | case7 c h42 h63 h91 hesc d q hd =>
      simp only [Bool.and_eq_true, beq_iff_eq] at hesc
      obtain ⟨rfl, rfl⟩ := hesc
      rw [pieces_escaped, if_pos hd] at h
      cases h
  | case8 c h42 h63 h91 hesc d q hd ih =>
      simp only [Bool.and_eq_true, beq_iff_eq] at hesc
      obtain ⟨rfl, rfl⟩ := hesc
      rw [pieces_escaped, if_neg hd] at h
      rw [pieces_escaped, pieces_escaped, if_neg hd, ih h]
      rfl
  | case9 c p h42 h63 h91 hesc h47 =>
      rw [pieces_ordinary _ _ h42 h63 h91 (by simpa using hesc), if_pos h47] at h
      cases h
  | case10 c p h42 h63 h91 hesc h47 ih =>
      have hesc' : (escape && c == 92) = false := by simpa using hesc
      rw [pieces_ordinary _ _ h42 h63 h91 hesc', if_neg h47] at h
      rw [pieces_ordinary _ _ h42 h63 h91 hesc', pieces_ordinary _ _ h42 h63 h91 hesc', if_neg h47,
        ih h]
      rfl

theorem afterRecursive_of_text {escape : Bool} {p : List UInt8}
    (h : (pieces escape true p).2 = none) : afterRecursive p = none := by
  cases hp : afterRecursive p with
  | none => rfl
  | some q =>
      rw [afterRecursive_eq_some hp, pieces_star, pieces_star,
        pieces_ordinary _ _ (by decide) (by decide) (by decide) (by simp)] at h
      cases h

/-- `fnmatch` on the string of a component and the name of an entry. -/
theorem fnmatches_iff {str name : List UInt8} (htext : (pieces fl.escape true str).2 = none)
    (hname : 47 ∉ name) : fnmatches fl str name = true ↔
      ElementMatches (dotRule fl) fl.casefold (pieces fl.escape true str).1 name := by
  obtain ⟨r, hr, hr'⟩ := fnmatch_decides fl str name
  have hmatches : Matches (dotRule fl) fl str name ↔
      ElementMatches (dotRule fl) fl.casefold (pieces fl.escape true str).1 name := by
    rw [Matches]
    split_ifs with hpath
    · rw [components_element (afterRecursive_of_text htext), htext, List.splitOn_eq_singleton hname]
      simp [PathMatches, Component.item]
    · rw [pieces_pathname htext]
  rw [fnmatches, hr, ← hmatches, ← hr']
  simp

/-- `fnmatch("*", name, flags)` tells the entries that a `**/` may pass over. -/
theorem fnmatches_star {name : List UInt8} (hname : 47 ∉ name) :
    fnmatches fl [42] name = true ↔ (dotRule fl).skips name := by
  have hpieces : pieces fl.escape true [42] = ([.star], none) := by rw [pieces_star, pieces_nil]
  rw [fnmatches_iff (by rw [hpieces]) hname, hpieces, ElementMatches]
  have hrun : RunMatches fl.casefold [.star] (name ++ []) := .gap (fun _ _ => trivial) .nil
  rw [List.append_nil] at hrun
  rw [and_iff_right hrun]
  simp [dotRule]

/-! ## Tails -/

/-- What a tail of the list matches, without its last element. -/
def tailItems (fl : Flags) : List GlobPattern → List (Wildcard.Item (List UInt8))
  | .plain str :: next | .magical str :: next =>
      .one (ElementMatches (dotRule fl) fl.casefold (pieces fl.escape true str).1) ::
        tailItems fl next
  | .recursive :: next => .gap :: tailItems fl next
  | _ => []

attribute [grind =] tailItems

/-- A tail of the list of a pattern; `slash` tells whether the pattern ends in a separator. -/
inductive Tail (fl : Flags) (slash : Bool) : List GlobPattern → Prop
  | matchAll : slash = false → Tail fl slash [.matchAll]
  | matchDir : slash = true → Tail fl slash [.matchDir]
  | plain {str next} : hasMagic fl str = false → goodEscapes fl str = true →
      (pieces fl.escape true str).2 = none → plainName fl str ≠ [] → Tail fl slash next →
      Tail fl slash (.plain str :: next)
  | magical {str next} : (pieces fl.escape true str).2 = none → Tail fl slash next →
      Tail fl slash (.magical str :: next)
  | recursive {next} : next.head? ≠ some .recursive → next.head? ≠ some .matchAll →
      Tail fl slash next → Tail fl slash (.recursive :: next)

/-- Every component takes a piece, but for the one after a final separator. -/
def noEmptyComponents (escape : Bool) (p : List UInt8) : Bool :=
  match _h : afterRecursive p with
  | some q => q.isEmpty || noEmptyComponents escape q
  | none =>
      !(pieces escape true p).1.isEmpty &&
        match _h' : (pieces escape true p).2 with
        | none => true
        | some q => q.isEmpty || noEmptyComponents escape q
termination_by p.length
decreasing_by
  · rw [afterRecursive_eq_some _h]
    simp only [List.length_cons]
    omega
  · exact pieces_length _h'

/-- The item of a final separator. -/
def lastItem (fl : Flags) (slash : Bool) : List (Wildcard.Item (List UInt8)) :=
  if slash then [.one (ElementMatches (dotRule fl) fl.casefold [])] else []

theorem noEmptyComponents_recursive {escape : Bool} (p : List UInt8) :
    noEmptyComponents escape (42 :: 42 :: 47 :: p) = (p.isEmpty || noEmptyComponents escape p) := by
  rw [noEmptyComponents.eq_def]
  rfl

theorem noEmptyComponents_element {escape : Bool} {p : List UInt8} (h : afterRecursive p = none) :
    noEmptyComponents escape p = (!(pieces escape true p).1.isEmpty &&
      match (pieces escape true p).2 with
      | none => true
      | some q => q.isEmpty || noEmptyComponents escape q) := by
  rw [noEmptyComponents.eq_def]
  split
  · simp_all
  · split
    · rename_i h'
      rw [h']
    · rename_i q h'
      rw [h']

/-- What a `**/` leaves is as good as the pattern. -/
theorem skipRecursive_good {p : List UInt8} (hgood : goodEscapes fl p = true)
    (hempty : p = [] ∨ noEmptyComponents fl.escape p = true) :
    goodEscapes fl (skipRecursive p) = true ∧
      (skipRecursive p = [] ∨ noEmptyComponents fl.escape (skipRecursive p) = true) := by
  fun_induction skipRecursive p with
  | case1 p ih =>
      rw [goodEscapes_cons (by decide) (by simp), goodEscapes_cons (by decide) (by simp),
        goodEscapes_cons (by decide) (by simp)] at hgood
      refine ih hgood ?_
      rcases hempty with h | h
      · cases h
      · rw [noEmptyComponents_recursive] at h
        simpa using h
  | case2 p hp => exact ⟨hgood, hempty⟩

theorem skipRecursive_eq_self {p : List UInt8} (h : afterRecursive p = none) :
    skipRecursive p = p := by
  fun_cases skipRecursive p with
  | case1 p => cases h
  | case2 => rfl

/-- After a `**/` comes neither another nor the end of a pattern without a separator. -/
theorem head_globMakeLoop (fl : Flags) (n : ℕ) {p : List UInt8} (h : afterRecursive p = none) :
    (globMakeLoop fl n true p).head? ≠ some .recursive ∧
      (globMakeLoop fl n true p).head? ≠ some .matchAll := by
  cases n with
  | zero => simp [globMakeLoop]
  | succ n =>
      rw [globMakeLoop, skipRecursive_eq_self h]
      by_cases hp : p = []
      · simp [hp]
      · cases hmagic : hasMagic fl (findDirsep fl.escape false p).1 <;> simp [hp, hmagic]

/-- A pattern that matches the same after a gap. -/
theorem matches_gap_congr {skip : List UInt8 → Prop}
    {ps qs : List (Wildcard.Item (List UInt8))} {xs : List (List UInt8)}
    (h : ∀ xs, Wildcard.Matches skip ps xs ↔ Wildcard.Matches skip qs xs) :
    Wildcard.Matches skip (.gap :: ps) xs ↔ Wildcard.Matches skip (.gap :: qs) xs := by
  rw [Wildcard.matches_gap, Wildcard.matches_gap]
  simp only [h]

/-- A pattern that matches the same after an element. -/
theorem matches_one_congr {skip accepts : List UInt8 → Prop}
    {ps qs : List (Wildcard.Item (List UInt8))} {xs : List (List UInt8)}
    (h : ∀ xs, Wildcard.Matches skip ps xs ↔ Wildcard.Matches skip qs xs) :
    Wildcard.Matches skip (.one accepts :: ps) xs ↔
      Wildcard.Matches skip (.one accepts :: qs) xs := by
  rw [Wildcard.matches_one, Wildcard.matches_one]
  simp only [h]

/-! ## The end of a pattern -/

/-- What follows the first piece takes what follows its bytes. -/
theorem exists_runMatches_of_cons {nocase : Bool} {a : Piece} {ps : List Piece} {s : List UInt8}
    (h : RunMatches nocase (a :: ps) s) : ∃ s', RunMatches nocase ps s' := by
  rw [RunMatches, List.map_cons] at h
  generalize a.item nocase = i at h
  cases h with
  | one _ hm => exact ⟨_, hm⟩
  | gap _ hm => exact ⟨_, hm⟩

theorem not_runMatches_unterminated {nocase : Bool} {s : List UInt8} :
    ¬ RunMatches nocase [.unterminated] s := by
  intro h
  obtain ⟨c, t, -, hc, -⟩ := Wildcard.matches_one.mp h
  cases hc

theorem getLast?_cons_of_slash {c : UInt8} {p : List UInt8} (hc : c ≠ 47)
    (h : (c :: p).getLast? = some 47) : p.getLast? = some 47 := by
  cases p with
  | nil => exact absurd (by simpa using h) hc
  | cons d p => rwa [List.getLast?_cons_cons] at h

/-- A bracket stands at the end of a set. -/
theorem setBody_close {escape : Bool} {p : List UInt8} {r : List (Bool × UInt8) × List UInt8}
    (h : setBody escape p = some r) : ∃ pre, p = pre ++ 93 :: r.2 := by
  fun_induction setBody escape p generalizing r with
  | case1 => cases h
  | case2 p =>
      cases h
      exact ⟨[], rfl⟩
  | case3 => cases h
  | case4 c hc hesc d q ih =>
      obtain ⟨r', hr', rfl⟩ := Option.map_eq_some_iff.mp h
      obtain ⟨pre, rfl⟩ := ih hr'
      exact ⟨c :: d :: pre, rfl⟩
  | case5 c p hc hesc ih =>
      obtain ⟨r', hr', rfl⟩ := Option.map_eq_some_iff.mp h
      obtain ⟨pre, rfl⟩ := ih hr'
      exact ⟨c :: pre, rfl⟩

theorem setPiece_close {escape : Bool} {p q : List UInt8} {a : Piece}
    (h : setPiece escape p = some (a, q)) : ∃ pre, p = pre ++ 93 :: q := by
  rw [setPiece] at h
  split_ifs at h with hnot
  · obtain ⟨r, hr, hra⟩ := Option.map_eq_some_iff.mp h
    cases hra
    obtain ⟨pre, hp⟩ := setBody_close hr
    cases p with
    | nil => simp at hnot
    | cons c p => exact ⟨c :: pre, by rw [List.tail_cons] at hp; rw [hp]; rfl⟩
  · obtain ⟨r, hr, hra⟩ := Option.map_eq_some_iff.mp h
    cases hra
    exact setBody_close hr

/-- A component that ends in a slash has a set without an end, and matches nothing. -/
theorem not_runMatches_of_slash {nocase : Bool} {p : List UInt8} (hgood : goodEscapes fl p = true)
    (htext : (pieces fl.escape true p).2 = none) (hlast : p.getLast? = some 47) (s : List UInt8) :
    ¬ RunMatches nocase (pieces fl.escape true p).1 s := by
  induction p using pieces.induct fl.escape true generalizing s with
  | case1 => cases hlast
  | case2 p ih =>
      rw [goodEscapes_cons (by decide) (by simp)] at hgood
      rw [pieces_star] at htext ⊢
      intro h
      obtain ⟨s', h'⟩ := exists_runMatches_of_cons h
      exact ih hgood htext (getLast?_cons_of_slash (by decide) hlast) s' h'
  | case3 p hc ih =>
      rw [goodEscapes_cons (by decide) (by simp)] at hgood
      rw [pieces_any] at htext ⊢
      intro h
      obtain ⟨s', h'⟩ := exists_runMatches_of_cons h
      exact ih hgood htext (getLast?_cons_of_slash (by decide) hlast) s' h'
  | case4 p hset _ _ =>
      rw [pieces_unterminated _ _ hset]
      exact not_runMatches_unterminated
  | case5 p a q hset _ _ ih =>
      rw [goodEscapes_set hset] at hgood
      rw [pieces_set _ _ hset] at htext ⊢
      intro h
      obtain ⟨s', h'⟩ := exists_runMatches_of_cons h
      refine ih hgood htext ?_ s' h'
      obtain ⟨pre, rfl⟩ := setPiece_close hset
      rw [← List.cons_append, List.getLast?_append] at hlast
      refine getLast?_cons_of_slash (c := 93) (by decide) ?_
      cases hq : (93 :: q).getLast? with
      | none => simp at hq
      | some d => simpa [hq] using hlast
  | case6 c h42 h63 h91 hesc =>
      simp only [Bool.and_eq_true, beq_iff_eq] at hesc
      rw [hesc.2] at hlast
      cases hlast
  | case7 c h42 h63 h91 hesc d q hd =>
      simp only [Bool.and_eq_true, beq_iff_eq] at hesc hd
      obtain ⟨hesc, rfl⟩ := hesc
      rw [goodEscapes_escaped hesc, hd.2] at hgood
      simp at hgood
  | case8 c h42 h63 h91 hesc d q hd ih =>
      simp only [Bool.and_eq_true, beq_iff_eq] at hesc
      obtain ⟨hesc, rfl⟩ := hesc
      rw [goodEscapes_escaped hesc, Bool.and_eq_true, Bool.and_eq_true] at hgood
      have hd47 : d ≠ 47 := by simpa using hgood.1.1
      have hpieces : pieces fl.escape true (92 :: d :: q)
          = (.literal d :: (pieces fl.escape true q).1, (pieces fl.escape true q).2) := by
        rw [hesc, pieces_escaped, if_neg hd]
      rw [hpieces] at htext ⊢
      intro h
      obtain ⟨s', h'⟩ := exists_runMatches_of_cons h
      exact ih hgood.2 htext (getLast?_cons_of_slash hd47
        (getLast?_cons_of_slash (by decide) hlast)) s' h'
  | case9 c p h42 h63 h91 hesc h47 =>
      rw [pieces_ordinary _ _ h42 h63 h91 (by simpa using hesc), if_pos h47] at htext
      cases htext
  | case10 c p h42 h63 h91 hesc h47 ih =>
      have hesc' : (fl.escape && c == 92) = false := by simpa using hesc
      have hc : c ≠ 47 := by simpa using h47
      rw [goodEscapes_cons h91 hesc'] at hgood
      rw [pieces_ordinary _ _ h42 h63 h91 hesc', if_neg h47] at htext ⊢
      intro h
      obtain ⟨s', h'⟩ := exists_runMatches_of_cons h
      exact ih hgood htext (getLast?_cons_of_slash hc hlast) s' h'

/-- Whether a pattern ends in a separator; one that ends in a slash inside a set matches nothing. -/
def EndsAs (fl : Flags) (slash : Bool) (p : List UInt8) : Prop :=
  if slash then p = [] ∨ p.getLast? = some 47
  else p ≠ [] ∧ (p.getLast? = some 47 →
    ∀ xs, ¬ Wildcard.Matches (dotRule fl).skips (pathItems fl p) xs)

/-- The end of a pattern is the end of what follows a separator. -/
theorem EndsAs.append {slash : Bool} {q : List UInt8} (h : EndsAs fl slash q) (pre : List UInt8)
    (hno : (∀ xs, ¬ Wildcard.Matches (dotRule fl).skips (pathItems fl q) xs) →
      ∀ xs, ¬ Wildcard.Matches (dotRule fl).skips (pathItems fl (pre ++ 47 :: q)) xs) :
    EndsAs fl slash (pre ++ 47 :: q) := by
  have hlast : q ≠ [] → (pre ++ 47 :: q).getLast? = q.getLast? := by
    intro hq
    rw [List.getLast?_append, List.getLast?_cons, List.getLast?_eq_some_getLast hq]
    rfl
  cases slash with
  | true =>
      refine .inr ?_
      by_cases hq : q = []
      · simp [hq]
      · rw [hlast hq]
        exact h.resolve_left hq
  | false =>
      obtain ⟨hq, hmatch⟩ := h
      refine ⟨by simp, fun hend => hno (hmatch ?_)⟩
      rwa [hlast hq] at hend

theorem skipRecursive_append (p : List UInt8) :
    skipRecursive p = p ∨ ∃ pre, p = pre ++ 47 :: skipRecursive p := by
  fun_induction skipRecursive p with
  | case1 p ih =>
      refine .inr ?_
      rcases ih with h | ⟨pre, hpre⟩
      · exact ⟨[42, 42], by rw [h]; rfl⟩
      · exact ⟨42 :: 42 :: 47 :: pre, by nth_rewrite 1 [hpre]; rfl⟩
  | case2 p hp => exact .inl rfl

theorem findDirsep_append (escape isOpen : Bool) (p : List UInt8) :
    (findDirsep escape isOpen p).1 ++ (findDirsep escape isOpen p).2 = p := by
  fun_induction findDirsep escape isOpen p with
  | case1 => rfl
  | case2 => rfl
  | case3 => rfl
  | case4 _ _ _ _ _ _ r ih =>
      have hr : r.1 ++ r.2 = _ := ih
      rw [List.cons_append, List.cons_append, hr]
  | case5 _ _ _ _ _ r ih =>
      have hr : r.1 ++ r.2 = _ := ih
      rw [List.cons_append, hr]

/-- **The list of a pattern means what the pattern means.** -/
theorem globMakeLoop_spec {n : ℕ} {dirsep : Bool} {p : List UInt8} (hn : p.length < n)
    (hgood : goodEscapes fl p = true)
    (hempty : p = [] ∧ dirsep = true ∨ noEmptyComponents fl.escape p = true) :
    ∃ slash, Tail fl slash (globMakeLoop fl n dirsep p) ∧
      (∀ xs, Wildcard.Matches (dotRule fl).skips (pathItems fl p) xs ↔
        Wildcard.Matches (dotRule fl).skips
          (tailItems fl (globMakeLoop fl n dirsep p) ++ lastItem fl slash) xs) ∧
      EndsAs fl slash p := by
  induction n generalizing dirsep p with
  | zero => omega
  | succ n ih =>
      rw [globMakeLoop]
      by_cases hnil : p = []
      · -- the end of the pattern
        have hdirsep : dirsep = true := by
          rcases hempty with h | h
          · exact h.2
          · rw [hnil, noEmptyComponents_element rfl, pieces_nil] at h
            cases h
        have hitems := pathItems_element fl (p := []) rfl
        rw [pieces_nil] at hitems
        rw [if_pos hnil, hdirsep, hnil, hitems]
        exact ⟨true, .matchDir rfl, fun _ => Iff.rfl, .inl rfl⟩
      have hempty' : noEmptyComponents fl.escape p = true := by
        rcases hempty with h | h
        · exact absurd h.1 hnil
        · exact h
      rw [if_neg hnil]
      by_cases hrec : skipRecursive p ≠ p
      · -- a `**/`, and all that follow it at once
        obtain ⟨hnone, heq | ⟨hlt, -, hmatches⟩⟩ := skipRecursive_cases fl p
        · exact absurd heq hrec
        · obtain ⟨hgood', hempty''⟩ := skipRecursive_good hgood (.inr hempty')
          have hrest : skipRecursive p = [] ∧ true = true ∨
              noEmptyComponents fl.escape (skipRecursive p) = true := by
            rcases hempty'' with h | h
            · exact .inl ⟨h, rfl⟩
            · exact .inr h
          obtain ⟨slash, htail, hiff, hend⟩ := ih (by omega) hgood' hrest
          obtain ⟨h1, h2⟩ := head_globMakeLoop fl n hnone
          rw [if_pos hrec]
          refine ⟨slash, .recursive h1 h2 htail, fun xs => ?_, ?_⟩
          · rw [hmatches xs]
            exact matches_gap_congr hiff
          · obtain ⟨pre, hpre⟩ := (skipRecursive_append p).resolve_left hrec
            rw [hpre]
            refine hend.append pre fun hno xs h => ?_
            rw [← hpre, hmatches xs, Wildcard.matches_gap] at h
            obtain ⟨_, zs, -, -, hm⟩ := h
            exact hno zs hm
      · -- a component
        have heq : skipRecursive p = p := not_not.mp hrec
        have hnone : afterRecursive p = none := by
          rw [← heq]
          exact (skipRecursive_cases fl p).1
        have hcut := cut_of_goodEscapes hgood
        have hitems := pathItems_element fl hnone
        have hne := hempty'
        rw [noEmptyComponents_element hnone, Bool.and_eq_true] at hne
        have hpieces := hcut.pieces_eq
        have htext : (pieces fl.escape true (findDirsep fl.escape false p).1).2 = none := by
          rw [hpieces]
        rw [if_neg hrec]
        -- what follows the component
        obtain ⟨slash, htail, hiff, hend⟩ : ∃ slash,
            Tail fl slash (globMakeLoop fl n (decide ((findDirsep fl.escape false p).2 ≠ []))
              (findDirsep fl.escape false p).2.tail) ∧
            (∀ xs, Wildcard.Matches (dotRule fl).skips (match (pieces fl.escape true p).2 with
                | none => []
                | some q => pathItems fl q) xs ↔
              Wildcard.Matches (dotRule fl).skips
                (tailItems fl (globMakeLoop fl n (decide ((findDirsep fl.escape false p).2 ≠ []))
                  (findDirsep fl.escape false p).2.tail) ++ lastItem fl slash) xs) ∧
            EndsAs fl slash p := by
          rcases hcut.rest with ⟨h1, h2⟩ | ⟨q, h1, h2, hq⟩
          · obtain ⟨m, rfl⟩ : ∃ m, n = m + 1 := by
              cases n with
              | zero =>
                  have := List.length_pos_of_ne_nil hnil
                  omega
              | succ m => exact ⟨m, rfl⟩
            rw [h1, h2]
            refine ⟨false, .matchAll rfl, fun _ => Iff.rfl, hnil, fun hlast xs h => ?_⟩
            rw [hitems] at h
            obtain ⟨x, -, -, hx, -⟩ := Wildcard.matches_one.mp h
            exact not_runMatches_of_slash hgood h1 hlast x hx.1
          · have hlt := pieces_length h1
            have happend := findDirsep_append fl.escape false p
            rw [h1] at hne
            obtain ⟨slash, htail, hiff, hend⟩ := ih (by omega : q.length < n) hq
              (show q = [] ∧ true = true ∨ noEmptyComponents fl.escape q
                = true by simpa using hne.2)
            rw [h2] at happend ⊢
            rw [h1]
            refine ⟨slash, htail, hiff, ?_⟩
            rw [← happend]
            refine hend.append _ fun hno xs h => ?_
            rw [happend, hitems, h1] at h
            obtain ⟨_, ys, -, -, hm⟩ := Wildcard.matches_one.mp h
            exact hno ys hm
        have hmatches : ∀ xs, Wildcard.Matches (dotRule fl).skips (pathItems fl p) xs ↔
            Wildcard.Matches (dotRule fl).skips
              (.one (ElementMatches (dotRule fl) fl.casefold
                (pieces fl.escape true (findDirsep fl.escape false p).1).1) ::
                (tailItems fl (globMakeLoop fl n (decide ((findDirsep fl.escape false p).2 ≠ []))
                  (findDirsep fl.escape false p).2.tail) ++ lastItem fl slash)) xs := by
          intro xs
          rw [hitems, hpieces]
          exact matches_one_congr hiff
        dsimp only
        cases hmagic : hasMagic fl (findDirsep fl.escape false p).1 with
        | true => exact ⟨slash, .magical htext htail, hmatches, hend⟩
        | false =>
            refine ⟨slash, .plain hmagic hcut.good htext ?_ htail, hmatches, hend⟩
            intro hname
            have hplain := (pieces_plain hmagic hcut.good htext).1
            rw [hname, hpieces] at hplain
            have : (pieces fl.escape true p).1 = [] := hplain
            simp [this] at hne

end MacRuby.Dir
