import MacRuby.Lib.Fuel
import MacRuby.String.Find

/-!
# The lines of a string

`String#each_line` yields a string line by line.  The loop holds back the last line it has found, so
that with an empty separator, which stands for newlines, the newlines that follow a line are added
to it.  A single newline ends a paragraph like several ones do.  The pieces are those of the
`CFString`.

## Main definitions

* `rbStrEachLine` — the strings that are yielded.
* `LinesRight` — they are the lines of the string.

## Main results

* `linesRight_iff` — when this is so.
-/

namespace MacRuby

open Occurrence

/-- `rb_default_rs`. -/
def rbDefaultRs : List UniChar := [0x0a]

section Code

variable (find : CFFind) (str rs : List UniChar)

/-- `YIELD_SUBSTR(range)`, if a condition holds. -/
def yieldSubstrIf (cond : Bool) (range : CFRange) : Except StringError (List (List UniChar)) :=
  if cond then (fun piece => [piece]) <$> cfStringCreateWithSubstring str range else .ok []

/-- The loop of `rb_str_each_line`, with `sub_range` and the location of `search_range`, and what is
yielded after it. -/
def eachLineLoop (zeroSep : Bool) :
    (fuel : ℕ) → (subRange : CFRange) → (location : ℤ) → Except StringError (List (List UniChar))
  | 0, _, _ => .error .undefined
  | fuel + 1, subRange, location => do
      match ← cfStringFindWithOptions find false str rs location (str.length - location) with
      | none =>
          let sub ← yieldSubstrIf str (subRange.length != 0) subRange
          let rest ← yieldSubstrIf str (decide (location < str.length))
            ⟨location, str.length - location⟩
          return sub ++ rest
      | some found =>
          let resRange : CFRange := ⟨found, rs.length⟩
          let next := resRange.location + resRange.length
          if zeroSep = true ∧ subRange.length > 0 ∧
              subRange.location + subRange.length = resRange.location then
            eachLineLoop zeroSep fuel
              ⟨subRange.location, subRange.length + resRange.length⟩ next
          else
            let sub ← yieldSubstrIf str (decide (subRange.length > 0)) subRange
            let rest ← eachLineLoop zeroSep fuel
              ⟨location, resRange.location - location + resRange.length⟩ next
            return sub ++ rest

/-- `rb_str_each_line` with a separator.  The strings that are yielded have no byte data. -/
def rbStrEachLine (str rs : StringObject) (fuel : ℕ) : Except StringError (List (List UniChar)) :=
  let zeroSep := rs.chars.length == 0
  let rs := if zeroSep then rbDefaultRs else rs.chars
  eachLineLoop find str.chars rs zeroSep fuel ⟨0, 0⟩ 0

end Code

/-! ## What is yielded -/

section Meaning

variable (find : CFFind) (rs : List UniChar)

/-- How a line ends: with the separator, which occurs nowhere else in it, or with two newlines when
the separator is empty. -/
def EndsLine (piece : List UniChar) : Prop :=
  if rs = [] then rbDefaultRs ++ rbDefaultRs <:+ piece
  else ∃ body, piece = body ++ rs ∧ ∀ i, OccursAt rs piece i → i = body.length

/-- **The pieces make up the string, none is empty, and all but the last one end a line.** -/
def LinesRight (str rs : StringObject) : Prop :=
  ∃ pieces, Fuel.Settles (rbStrEachLine find str rs) (.ok pieces) ∧ pieces.flatten = str.text ∧
    [] ∉ pieces ∧ ∀ piece ∈ pieces.dropLast, EndsLine rs.text piece

/-- **No newline stands alone between two paragraphs**: one that is followed by another character
follows a newline. -/
def ParagraphsApart (str : List UniChar) : Prop :=
  ∀ (i : ℕ) (c : UniChar), str[i]? = some 0x0a → str[i + 1]? = some c → c ≠ 0x0a →
    0 < i ∧ str[i - 1]? = some 0x0a

end Meaning

/-! ## What the loop does -/

section Loop

variable {str t : List UniChar}

/-- A piece that is yielded unless it is empty. -/
def lastPiece (piece : List UniChar) : List (List UniChar) := if piece = [] then [] else [piece]

/-- The lines with what is held back: a separator alone is added to it when they are merged. -/
def gather (merge : Bool) (t : List UniChar) :
    (pending : List UniChar) → (heads : List (List UniChar)) → List (List UniChar)
  | pending, [] => lastPiece pending
  | pending, head :: heads =>
      if merge = true ∧ pending ≠ [] ∧ head = [] then gather merge t (pending ++ t) heads
      else lastPiece pending ++ gather merge t (head ++ t) heads

theorem flatten_lastPiece (piece : List UniChar) : (lastPiece piece).flatten = piece := by
  unfold lastPiece
  split
  · rename_i h
    exact h.symm
  · exact List.flatten_singleton

theorem nil_not_mem_lastPiece (piece : List UniChar) : [] ∉ lastPiece piece := by
  unfold lastPiece
  split
  · exact List.not_mem_nil
  · rename_i h
    rw [List.mem_singleton]
    exact fun hnil => h hnil.symm

theorem flatten_gather (merge : Bool) (pending : List UniChar) (heads : List (List UniChar)) :
    (gather merge t pending heads).flatten = pending ++ (heads.map (· ++ t)).flatten := by
  induction heads generalizing pending with
  | nil => simp [gather, flatten_lastPiece]
  | cons head heads ih =>
      unfold gather
      split
      · rename_i h
        rw [ih, h.2.2]
        simp
      · rw [List.flatten_append, flatten_lastPiece, ih]
        simp

theorem nil_not_mem_gather (merge : Bool) (pending : List UniChar) (heads : List (List UniChar)) :
    [] ∉ gather merge t pending heads := by
  induction heads generalizing pending with
  | nil => exact nil_not_mem_lastPiece pending
  | cons head heads ih =>
      unfold gather
      split
      · exact ih _
      · rw [List.mem_append, not_or]
        exact ⟨nil_not_mem_lastPiece pending, ih _⟩

/-- A part that is made longer. -/
theorem drop_take_add {a b k : ℕ} (hab : a ≤ b) (hb : b ≤ str.length) :
    (str.take (b + k)).drop a = (str.take b).drop a ++ (str.drop b).take k := by
  rw [List.take_add, List.drop_append_of_le_length]
  rwa [List.length_take_of_le hb]

/-- A part is yielded if it is not empty. -/
theorem yieldSubstrIf_eq {a b : ℕ} {length : ℤ} {cond : Bool} (hab : a ≤ b) (hb : b ≤ str.length)
    (hlen : length = (b : ℤ) - a) (hcond : cond = true ↔ a < b) :
    yieldSubstrIf str cond ⟨a, length⟩ = .ok (lastPiece ((str.take b).drop a)) := by
  have hsub : length = (b - a : ℕ) := by omega
  have hnil : (str.take b).drop a = [] ↔ ¬a < b := by
    rw [List.drop_eq_nil_iff, List.length_take_of_le hb, not_lt]
  unfold yieldSubstrIf lastPiece
  rw [hsub, cfStringCreateWithSubstring_eq (by omega), ← List.drop_take]
  by_cases h : a < b
  · rw [if_pos (hcond.mpr h), if_neg (mt hnil.mp (not_not.mpr h))]
    rfl
  · rw [if_neg (mt hcond.mp h), if_pos (hnil.mpr h)]

variable {find : CFFind} (hfind : find.Documented) (ht : t ≠ [])
include hfind ht

/-- **What the loop yields**: the lines of the part that is left, gathered with what is held
back. -/
theorem eachLineLoop_spec (merge : Bool) {heads : List (List UniChar)} {rest : List UniChar}
    {fuel a location : ℕ} (ha : a ≤ location) (hloc : location ≤ str.length)
    (hcuts : Cuts t (str.drop location) heads rest) (hdone : ∀ i, ¬OccursAt t rest i)
    (hfuel : heads.length < fuel) :
    eachLineLoop find str t merge fuel ⟨a, (location : ℤ) - a⟩ location =
      .ok (gather merge t ((str.take location).drop a) heads ++ lastPiece rest) := by
  induction heads generalizing fuel a location with
  | nil =>
      cases hcuts with
      | stop =>
      obtain ⟨fuel, rfl⟩ := Nat.exists_eq_add_one_of_ne_zero (Nat.ne_zero_of_lt hfuel)
      have hsub : ((location : ℤ) - a != 0) = true ↔ a < location := by
        rw [bne_iff_ne]
        omega
      have hrest : decide ((location : ℤ) < str.length) = true ↔ location < str.length := by
        rw [decide_eq_true_iff, Nat.cast_lt]
      unfold eachLineLoop
      rw [cfStringFind_drop hfind ht hloc (r := none) hdone]
      dsimp only [bind, Except.bind, Option.map]
      rw [yieldSubstrIf_eq ha hloc rfl hsub]
      dsimp only
      rw [yieldSubstrIf_eq hloc le_rfl rfl hrest, List.take_length]
      rfl
  | cons head heads ih =>
      cases hcuts with
      | @cut _ i _ _ hi hcuts =>
      obtain ⟨fuel, rfl⟩ := Nat.exists_eq_add_one_of_ne_zero (Nat.ne_zero_of_lt hfuel)
      rw [List.length_cons] at hfuel
      have hpos := List.length_pos_iff.mpr ht
      have hle := hi.1.le ht
      rw [List.length_drop] at hle
      rw [List.drop_drop, ← Nat.add_assoc] at hcuts
      have hnext : ((location + i : ℕ) : ℤ) + t.length = (location + i + t.length : ℕ) := rfl
      have hpart : ((str.take location).drop a ≠ [] ∧ (str.drop location).take i = []) ↔
          a < location ∧ i = 0 := by
        rw [ne_eq, List.drop_eq_nil_iff, List.length_take_of_le hloc, not_le,
          ← List.length_eq_zero_iff, List.length_take, List.length_drop,
          Nat.min_eq_left (by omega)]
      have hfound : (str.drop location).take (i + t.length) =
          (str.drop location).take i ++ t := by
        rw [List.take_add, hi.1.take_drop]
      unfold eachLineLoop
      rw [cfStringFind_drop hfind ht hloc hi]
      dsimp only [bind, Except.bind, Option.map]
      rw [hnext]
      by_cases hmerge : merge = true ∧ (location : ℤ) - a > 0 ∧
          (a : ℤ) + (location - a) = (location + i : ℕ)
      · have hzero : a < location ∧ i = 0 := by omega
        have hlen : (location : ℤ) - a + t.length = (location + i + t.length : ℕ) - a := by omega
        rw [if_pos hmerge, hlen, ih (by omega) (by omega) hcuts (by omega), gather,
          if_pos ⟨hmerge.1, hpart.mpr hzero⟩, Nat.add_assoc, drop_take_add ha hloc, hfound,
          hzero.2, List.take_zero, List.nil_append]
      · have hsub : decide ((location : ℤ) - a > 0) = true ↔ a < location := by
          rw [decide_eq_true_iff]
          omega
        have hlen : ((location + i : ℕ) : ℤ) - location + t.length =
            (location + i + t.length : ℕ) - location := by omega
        have hapart : ¬(merge = true ∧ (str.take location).drop a ≠ [] ∧
            (str.drop location).take i = []) := by
          intro h
          have hzero := hpart.mp h.2
          exact hmerge ⟨h.1, by omega, by omega⟩
        rw [if_neg hmerge, yieldSubstrIf_eq ha hloc rfl hsub, hlen,
          ih (by omega) (by omega) hcuts (by omega), gather, if_neg hapart, Nat.add_assoc,
          drop_take_add le_rfl hloc, hfound,
          List.drop_eq_nil_iff.mpr (List.length_take_of_le hloc).le, List.nil_append]
        exact congrArg Except.ok (List.append_assoc _ _ _).symm

end Loop

/-! ## What the lines are -/

section Lines

variable {str t : List UniChar}

/-- Lines are not merged: each head with its separator is one. -/
theorem gather_false (pending : List UniChar) (heads : List (List UniChar)) :
    gather false t pending heads = (pending :: heads.map (· ++ t)).flatMap lastPiece := by
  induction heads generalizing pending with
  | nil => simp [gather]
  | cons head heads ih =>
      rw [gather, if_neg (by simp), ih]
      rfl

/-- **Pieces of which each but the last one ends with newlines**, which are the only ones in it; the
next piece does not start with one. -/
inductive Paragraphs : List (List UniChar) → Prop
  | nil : Paragraphs []
  | last {body : List UniChar} : body ≠ [] → 0x0a ∉ body → Paragraphs [body]
  | piece {body : List UniChar} {pieces : List (List UniChar)} (k : ℕ) :
      0x0a ∉ body → Paragraphs pieces → pieces.flatten.head? ≠ some 0x0a →
        Paragraphs ((body ++ List.replicate (k + 1) 0x0a) :: pieces)

/-- The last piece, which has no newline. -/
theorem paragraphs_lastPiece {rest : List UniChar} (hrest : 0x0a ∉ rest) :
    Paragraphs (lastPiece rest) := by
  unfold lastPiece
  split
  · exact Paragraphs.nil
  · rename_i h
    exact Paragraphs.last h hrest

theorem append_newlines_ne_nil (body : List UniChar) (k : ℕ) :
    body ++ List.replicate (k + 1) (0x0a : UniChar) ≠ [] := by
  rw [ne_eq, List.append_eq_nil_iff, List.replicate_succ]
  exact fun h => absurd h.2 (List.cons_ne_nil _ _)

/-- **Merged lines are paragraphs.** -/
theorem paragraphs_gather {heads : List (List UniChar)} {rest : List UniChar}
    (hheads : ∀ head ∈ heads, 0x0a ∉ head) (hrest : 0x0a ∉ rest) {body : List UniChar} (k : ℕ)
    (hbody : 0x0a ∉ body) :
    Paragraphs (gather true rbDefaultRs (body ++ List.replicate (k + 1) 0x0a) heads ++
      lastPiece rest) := by
  induction heads generalizing body k with
  | nil =>
      rw [gather, lastPiece, if_neg (append_newlines_ne_nil body k), List.singleton_append]
      refine Paragraphs.piece k hbody (paragraphs_lastPiece hrest) ?_
      rw [flatten_lastPiece]
      exact fun h => hrest (List.mem_of_head? h)
  | cons head heads ih =>
      have hhead := hheads head List.mem_cons_self
      have htail : ∀ h ∈ heads, 0x0a ∉ h := fun h hmem => hheads h (List.mem_cons_of_mem _ hmem)
      unfold gather
      by_cases hnil : head = []
      · have hlong : body ++ List.replicate (k + 1) 0x0a ++ rbDefaultRs =
            body ++ List.replicate (k + 1 + 1) 0x0a := by
          rw [List.append_assoc, List.replicate_succ' (n := k + 1)]
          rfl
        rw [if_pos ⟨rfl, append_newlines_ne_nil body k, hnil⟩, hlong]
        exact ih htail (k + 1) hbody
      · rw [if_neg (fun h => hnil h.2.2), lastPiece, if_neg (append_newlines_ne_nil body k),
          List.append_assoc, List.singleton_append]
        refine Paragraphs.piece k hbody (ih htail 0 hhead) ?_
        rw [List.flatten_append, flatten_gather, List.append_assoc, List.append_assoc,
          List.head?_append_of_ne_nil _ hnil]
        exact fun h => hhead (List.mem_of_head? h)

/-- A newline that follows a part without one. -/
theorem getElem?_paragraph {body rest : List UniChar} (k i : ℕ) :
    (body ++ List.replicate (k + 1) 0x0a ++ rest)[i]? =
      if i < body.length then body[i]?
      else if i < body.length + (k + 1) then some 0x0a
      else rest[i - (body.length + (k + 1))]? := by
  rw [List.getElem?_append, List.length_append, List.length_replicate, List.getElem?_append,
    List.getElem?_replicate]
  by_cases h1 : i < body.length
  · rw [if_pos (by omega), if_pos h1, if_pos h1]
  · by_cases h2 : i < body.length + (k + 1)
    · rw [if_pos h2, if_neg h1, if_neg h1, if_pos h2, if_pos (by omega)]
    · rw [if_neg h2, if_neg h1, if_neg h2]

/-- **The newlines of a paragraph are apart from the next one exactly when there are two of
them.** -/
theorem paragraphsApart_append {body rest : List UniChar} {k : ℕ} (hbody : 0x0a ∉ body)
    (hrest : rest.head? ≠ some 0x0a) :
    ParagraphsApart (body ++ List.replicate (k + 1) 0x0a ++ rest) ↔
      (rest = [] ∨ 1 ≤ k) ∧ ParagraphsApart rest := by
  have hmem : ∀ i : ℕ, body[i]? ≠ some 0x0a := fun i h => hbody (List.mem_of_getElem? h)
  have hshift : ∀ i : ℕ, (body ++ List.replicate (k + 1) 0x0a ++ rest)[body.length + (k + 1) + i]? =
      rest[i]? := by
    intro i
    rw [getElem?_paragraph, if_neg (by omega), if_neg (by omega), Nat.add_sub_cancel_left]
  constructor
  · intro h
    constructor
    · by_contra hnot
      obtain ⟨hne, hk⟩ := not_or.mp hnot
      obtain ⟨c, rest', rfl⟩ := List.exists_cons_of_ne_nil hne
      have hlast : (body ++ List.replicate (k + 1) 0x0a ++ c :: rest')[body.length + k]? =
          some 0x0a := by
        rw [getElem?_paragraph, if_neg (by omega), if_pos (by omega)]
      obtain ⟨hpos, hprev⟩ := h (body.length + k) c hlast (hshift 0) (fun hc => hrest (hc ▸ rfl))
      rw [getElem?_paragraph, if_pos (by omega)] at hprev
      exact hmem _ hprev
    · intro i c hi hc hne
      obtain ⟨hpos, hprev⟩ := h (body.length + (k + 1) + i) c ((hshift i).trans hi)
        ((hshift (i + 1)).trans hc) hne
      have hi0 : i ≠ 0 := by
        rintro rfl
        rw [← List.head?_eq_getElem?] at hi
        exact hrest hi
      have hpred : body.length + (k + 1) + i - 1 = body.length + (k + 1) + (i - 1) := by omega
      rw [hpred, hshift] at hprev
      exact ⟨Nat.pos_of_ne_zero hi0, hprev⟩
  · intro ⟨hk, h⟩ i c hi hc hne
    rcases Nat.lt_or_ge i (body.length + (k + 1)) with hlt | hge
    · have hin : body.length ≤ i := by
        by_contra hlow
        rw [getElem?_paragraph, if_pos (by omega)] at hi
        exact hmem i hi
      rw [getElem?_paragraph, if_neg (by omega)] at hc
      split at hc
      · exact absurd (Option.some.inj hc).symm hne
      · rcases hk with rfl | hk
        · rw [List.getElem?_nil] at hc
          cases hc
        · refine ⟨by omega, ?_⟩
          rw [getElem?_paragraph, if_neg (by omega), if_pos (by omega)]
    · obtain ⟨j, rfl⟩ := Nat.exists_eq_add_of_le hge
      rw [hshift] at hi
      rw [Nat.add_assoc, hshift] at hc
      obtain ⟨hpos, hprev⟩ := h j c hi hc hne
      have hpred : body.length + (k + 1) + j - 1 = body.length + (k + 1) + (j - 1) := by omega
      refine ⟨by omega, ?_⟩
      rw [hpred, hshift]
      exact hprev

/-- A paragraph ends with two newlines when there are two. -/
theorem suffix_newlines {body : List UniChar} (hbody : 0x0a ∉ body) (k : ℕ) :
    rbDefaultRs ++ rbDefaultRs <:+ body ++ List.replicate (k + 1) 0x0a ↔ 1 ≤ k := by
  cases k with
  | zero =>
      refine iff_of_false ?_ (Nat.not_succ_le_zero 0)
      intro ⟨front, hfront⟩
      rw [← List.append_assoc] at hfront
      have heq : front ++ rbDefaultRs = body := List.append_cancel_right hfront
      exact hbody (heq ▸ List.mem_append_right front List.mem_cons_self)
  | succ k =>
      refine iff_of_true ⟨body ++ List.replicate k 0x0a, ?_⟩ (Nat.succ_le_succ (Nat.zero_le k))
      rw [List.append_assoc, List.replicate_succ', List.replicate_succ', List.append_assoc]
      rfl

theorem Paragraphs.flatten_ne_nil {pieces : List (List UniChar)} (h : Paragraphs pieces)
    (hne : pieces ≠ []) : pieces.flatten ≠ [] := by
  cases h with
  | nil => exact absurd rfl hne
  | last hbody _ => rwa [List.flatten_singleton]
  | piece k _ _ _ =>
      rw [List.flatten_cons]
      exact fun h => append_newlines_ne_nil _ k (List.append_eq_nil_iff.mp h).1

/-- **Paragraphs end with two newlines exactly where no newline stands alone.** -/
theorem Paragraphs.apart_iff {pieces : List (List UniChar)} (h : Paragraphs pieces) :
    (∀ piece ∈ pieces.dropLast, rbDefaultRs ++ rbDefaultRs <:+ piece) ↔
      ParagraphsApart pieces.flatten := by
  induction h with
  | nil =>
      refine iff_of_true (fun _ h => absurd h List.not_mem_nil) ?_
      intro i c hi
      cases hi
  | @last body _ hbody =>
      refine iff_of_true (fun _ h => absurd h List.not_mem_nil) ?_
      intro i c hi
      rw [List.flatten_singleton] at hi
      exact absurd (List.mem_of_getElem? hi) hbody
  | @piece body pieces k hbody hpieces hhead ih =>
      rw [List.flatten_cons, paragraphsApart_append hbody hhead, ← ih]
      by_cases hnil : pieces = []
      · rw [hnil]
        refine iff_of_true (fun _ h => absurd h List.not_mem_nil) ⟨Or.inl rfl, ?_⟩
        exact fun _ h => absurd h List.not_mem_nil
      · rw [or_iff_right (hpieces.flatten_ne_nil hnil), ← suffix_newlines hbody k,
          List.dropLast_cons_of_ne_nil hnil, List.forall_mem_cons]

end Lines

/-! ## When the lines are right -/

section Correctness

variable {find : CFFind} {str rs : List UniChar}

/-- The separator that is sought. -/
def soughtSep (rs : List UniChar) : List UniChar := if rs = [] then rbDefaultRs else rs

theorem soughtSep_ne_nil (rs : List UniChar) : soughtSep rs ≠ [] := by
  unfold soughtSep
  split
  · exact List.cons_ne_nil _ _
  · assumption

/-- **What is yielded**: the lines of the string, gathered. -/
theorem rbStrEachLine_settles (hfind : find.Documented) {str rs : StringObject}
    {heads : List (List UniChar)} {rest : List UniChar}
    (hcuts : Cuts (soughtSep rs.chars) str.chars heads rest)
    (hdone : ∀ i, ¬OccursAt (soughtSep rs.chars) rest i) :
    Fuel.Settles (rbStrEachLine find str rs)
      (.ok (gather (rs.chars.length == 0) (soughtSep rs.chars) [] heads ++ lastPiece rest)) := by
  have hsep : (if (rs.chars.length == 0) = true then rbDefaultRs else rs.chars) =
      soughtSep rs.chars := by
    unfold soughtSep
    simp only [beq_iff_eq, List.length_eq_zero_iff]
  refine Fuel.Settles.of_le (heads.length + 1) fun fuel hfuel => ?_
  have hspec := eachLineLoop_spec hfind (soughtSep_ne_nil rs.chars) (rs.chars.length == 0)
    (le_refl 0) (Nat.zero_le str.chars.length) hcuts hdone hfuel
  unfold rbStrEachLine
  dsimp only
  rw [hsep]
  exact hspec

/-- A separator that is not empty ends each line. -/
theorem endsLine_of_cuts {heads : List (List UniChar)} {rest : List UniChar} (hrs : rs ≠ [])
    (hcuts : Cuts rs str heads rest) :
    ∀ piece ∈ (gather false rs [] heads ++ lastPiece rest).dropLast, EndsLine rs piece := by
  have hends : ∀ piece ∈ gather false rs [] heads, EndsLine rs piece := by
    intro piece hmem
    rw [gather_false, List.flatMap_cons, lastPiece, if_pos rfl, List.nil_append,
      List.mem_flatMap] at hmem
    obtain ⟨line, hline, hpiece⟩ := hmem
    obtain ⟨head, hhead, rfl⟩ := List.mem_map.mp hline
    have heq : piece = head ++ rs := by
      unfold lastPiece at hpiece
      split at hpiece
      · exact absurd hpiece List.not_mem_nil
      · exact List.mem_singleton.mp hpiece
    unfold EndsLine
    rw [if_neg hrs, heq]
    exact ⟨head, rfl, hcuts.only_end hrs head hhead⟩
  intro piece hmem
  unfold lastPiece at hmem
  split at hmem
  · rw [List.append_nil] at hmem
    exact hends piece (List.mem_of_mem_dropLast hmem)
  · rw [List.dropLast_append_of_ne_nil (List.cons_ne_nil _ _), List.dropLast_singleton,
      List.append_nil] at hmem
    exact hends piece hmem

/-- A newline occurs where there is one. -/
theorem newline_not_mem {s : List UniChar} (h : ∀ i, ¬OccursAt rbDefaultRs s i) : 0x0a ∉ s := by
  intro hmem
  obtain ⟨i, hi⟩ := List.mem_iff_getElem?.mp hmem
  exact h i (occursAt_singleton.mpr hi)

/-- **With an empty separator, the pieces end with two newlines exactly where no newline stands
alone.** -/
theorem paragraphs_iff {heads : List (List UniChar)} {rest : List UniChar}
    (hcuts : Cuts rbDefaultRs str heads rest) (hdone : ∀ i, ¬OccursAt rbDefaultRs rest i) :
    (∀ piece ∈ (gather true rbDefaultRs [] heads ++ lastPiece rest).dropLast,
      EndsLine [] piece) ↔ ParagraphsApart str := by
  have hrest := newline_not_mem hdone
  have hheads : ∀ head ∈ heads, 0x0a ∉ head := fun head hmem =>
    newline_not_mem (hcuts.not_occursAt (List.cons_ne_nil _ _) hmem)
  have hpieces : Paragraphs (gather true rbDefaultRs [] heads ++ lastPiece rest) := by
    cases heads with
    | nil => exact paragraphs_lastPiece hrest
    | cons head heads =>
        rw [gather, if_neg (fun h => h.2.1 rfl)]
        exact paragraphs_gather (fun h hmem => hheads h (List.mem_cons_of_mem _ hmem)) hrest 0
          (hheads head List.mem_cons_self)
  have hflat : (gather true rbDefaultRs [] heads ++ lastPiece rest).flatten = str := by
    rw [List.flatten_append, flatten_gather, flatten_lastPiece]
    exact hcuts.join
  have hends : ∀ piece, EndsLine [] piece ↔ rbDefaultRs ++ rbDefaultRs <:+ piece := by
    intro piece
    unfold EndsLine
    rw [if_pos rfl]
  rw [← hflat, ← hpieces.apart_iff]
  simp only [hends]

end Correctness

end MacRuby
