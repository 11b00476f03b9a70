import MacRuby.Dir.Element
import Mathlib.Data.List.TakeWhile

/-!
# `fnmatch` decides the meaning of patterns

The loop of `fnmatch` over the path elements is the loop over the bytes of one of them once more,
with `**/` in the place of `*`. Here not every element may be passed over: one with a leading dot
may not. The last `**/` is still the only one that has to be retried, since a component that takes
an element with a leading dot takes no other.

## Main results

* `fnmatchTurn_spec` — what a turn of the loop keeps.
* `fnmatch_decides` — `fnmatch` ends, and returns 0 exactly when the string matches.
-/

namespace MacRuby.Dir

/-! ## Leading dots -/

/-- Nothing but the byte itself compares equal to one that is no letter. -/
theorem eq_of_compare {nocase : Bool} {c d : UInt8}
    (hc : nocase = true → isUpper c = false ∧ ¬ (97 ≤ c ∧ c ≤ 122)) (h : compare nocase c d = 0) :
    d = c := by
  have heq : downcase nocase c = downcase nocase d := by
    refine UInt8.toNat_inj.mp ?_
    rw [compare] at h
    omega
  cases nocase with
  | false => exact heq.symm
  | true =>
      obtain ⟨hup, hlow⟩ := hc rfl
      rw [downcase, downcase, hup] at heq
      simp only [Bool.true_and, Bool.false_eq_true, if_false] at heq
      split_ifs at heq with hd
      · -- an upper-case letter becomes a lower-case one
        refine absurd ?_ hlow
        simp only [isUpper, Bool.and_eq_true, decide_eq_true_eq] at hd
        have h0 : 65 ≤ d.toNat := UInt8.le_iff_toNat_le.mp hd.1
        have h1 : d.toNat ≤ 90 := UInt8.le_iff_toNat_le.mp hd.2
        have hadd : c.toNat = d.toNat + 32 := by
          rw [heq, UInt8.toNat_add]
          exact Nat.mod_eq_of_lt (by simp; omega)
        rw [UInt8.le_iff_toNat_le, UInt8.le_iff_toNat_le, hadd]
        exact ⟨by simp; omega, by simp; omega⟩
      · exact heq.symm

/-- The first byte that pieces with a literal dot in front take is a dot. -/
theorem head_of_runMatches {nocase : Bool} {ps : List Piece} {s : List UInt8}
    (hps : ps.head? = some (.literal 46)) (h : RunMatches nocase ps s) : s.head? = some 46 := by
  cases ps with
  | nil => cases hps
  | cons a ps =>
      obtain rfl : a = .literal 46 := by simpa using hps
      obtain ⟨c, t, rfl, hc, -⟩ := Wildcard.matches_one.mp h
      have hc : compare nocase 46 c = 0 := by simpa [Piece.accepts] using hc
      rw [List.head?_cons, eq_of_compare (fun _ => by decide) hc]

/-- A component that takes one path element with a leading dot takes no other. -/
theorem skips_iff_of_elementMatches {fl : Flags} {ps : List Piece} {a b : List UInt8}
    (ha : ElementMatches (dotRule fl) fl.casefold ps a)
    (hb : ElementMatches (dotRule fl) fl.casefold ps b) :
    (dotRule fl).skips a ↔ (dotRule fl).skips b := by
  have h : ∀ {a b : List UInt8}, ElementMatches (dotRule fl) fl.casefold ps a →
      ElementMatches (dotRule fl) fl.casefold ps b → (dotRule fl).skips a →
      (dotRule fl).skips b := by
    intro a b ha hb hskip hperiod hdot
    exact hskip hperiod (head_of_runMatches (hb.2 hperiod hdot) ha.1)
  exact ⟨h ha hb, h hb ha⟩

/-! ## Components and path elements -/

section Path

variable (fl : Flags)

/-- The items of a pattern. -/
def pathItems (p : List UInt8) : List (Wildcard.Item (List UInt8)) :=
  (components fl.escape p).map (Component.item (dotRule fl) fl.casefold)

variable {fl}

theorem pathItems_recursive (p : List UInt8) :
    pathItems fl (42 :: 42 :: 47 :: p) = .gap :: pathItems fl p := by
  rw [pathItems, components_recursive]
  rfl

theorem pathItems_element (fl : Flags) {p : List UInt8} (h : afterRecursive p = none) :
    pathItems fl p = .one (ElementMatches (dotRule fl) fl.casefold (pieces fl.escape true p).1) ::
      match (pieces fl.escape true p).2 with
      | none => []
      | some q => pathItems fl q := by
  rw [pathItems, components_element h]
  cases (pieces fl.escape true p).2 <;> rfl

/-- `skipRecursive` passes over nothing, or over gaps. -/
theorem skipRecursive_cases (fl : Flags) (p : List UInt8) :
    afterRecursive (skipRecursive p) = none ∧ (skipRecursive p = p ∨
      (skipRecursive p).length < p.length ∧ (∃ ps, pathItems fl p = .gap :: ps) ∧
        ∀ xs, Wildcard.Matches (dotRule fl).skips (pathItems fl p) xs ↔
          Wildcard.Matches (dotRule fl).skips (.gap :: pathItems fl (skipRecursive p)) xs) := by
  fun_induction skipRecursive p with
  | case1 p ih =>
      obtain ⟨hnone, hcases⟩ := ih
      refine ⟨hnone, .inr ?_⟩
      rcases hcases with heq | ⟨hlt, ⟨ps, hps⟩, hmatches⟩
      · rw [heq]
        refine ⟨by simp only [List.length_cons]; omega, ⟨_, pathItems_recursive p⟩, ?_⟩
        intro xs
        rw [pathItems_recursive]
      · refine ⟨by simp only [List.length_cons]; omega, ⟨_, pathItems_recursive p⟩, ?_⟩
        intro xs
        rw [pathItems_recursive, ← hmatches, hps, Wildcard.matches_gap_gap]
  | case2 p hp =>
      refine ⟨?_, .inl rfl⟩
      rw [afterRecursive]
      exact hp

/-- A pattern takes one path element at least. -/
theorem not_pathMatches_nil (p : List UInt8) :
    ¬ Wildcard.Matches (dotRule fl).skips (pathItems fl p) [] := by
  intro h
  have hone : ∀ q, afterRecursive q = none →
      ¬ Wildcard.Matches (dotRule fl).skips (pathItems fl q) [] := by
    intro q hq h
    rw [pathItems_element fl hq] at h
    exact Wildcard.not_matches_one_nil h
  obtain ⟨hnone, heq | ⟨-, -, hmatches⟩⟩ := skipRecursive_cases fl p
  · rw [heq] at hnone
    exact hone p hnone h
  · rcases Wildcard.matches_gap_iff_later.mp ((hmatches []).mp h) with h | h
    · exact hone _ hnone h
    · exact Wildcard.not_later_nil h

/-- The first path element, and what stands after its separator. -/
theorem splitOn_cases (hpath : fl.pathname = true) (s : List UInt8) :
    (s.dropWhile (· != 47) = [] ∧ s.splitOn 47 = [element fl s]) ∨
      ∃ t, s.dropWhile (· != 47) = 47 :: t ∧ s.splitOn 47 = element fl s :: t.splitOn 47 ∧
        t.length < s.length := by
  have helem : element fl s = s.takeWhile (· != 47) := by rw [element, if_pos hpath]
  have hsplit : s.takeWhile (· != 47) ++ s.dropWhile (· != 47) = s :=
    List.takeWhile_append_dropWhile
  have hnot : 47 ∉ s.takeWhile (· != 47) := by
    intro hmem
    simpa using List.mem_takeWhile_imp hmem
  rw [helem]
  cases hdrop : s.dropWhile (· != 47) with
  | nil =>
      rw [hdrop, List.append_nil] at hsplit
      refine .inl ⟨rfl, ?_⟩
      rw [hsplit] at hnot ⊢
      exact List.splitOn_eq_singleton hnot
  | cons c t =>
      have hc : c = 47 := by
        have := List.head?_dropWhile_not (· != 47) s
        rw [hdrop] at this
        simpa using this
      subst hc
      rw [hdrop] at hsplit
      refine .inr ⟨t, rfl, ?_, ?_⟩
      · conv_lhs => rw [← hsplit]
        exact List.splitOn_append_cons_self_of_not_mem hnot t
      · rw [← hsplit]
        simp only [List.length_append, List.length_cons]
        omega

/-! ## The loop -/

variable (fl)

/-- What the loop is about to find out: the rest of the path matches the rest of the pattern, or it
does from a later start after the last `**/`. -/
def PathAnswer (c : Cursor) : Prop :=
  Wildcard.Matches (dotRule fl).skips (pathItems fl c.p) (c.s.splitOn 47) ∨
    ∃ ptmp stmp, c.tmp = some (ptmp, stmp) ∧
      Wildcard.Later (dotRule fl).skips (pathItems fl ptmp) (stmp.splitOn 47)

/-- What the loop keeps; no pattern is longer than `n`. -/
structure PathInvariant (n : ℕ) (c : Cursor) : Prop where
  p_le : c.p.length ≤ n
  tmp_le : ∀ ptmp stmp, c.tmp = some (ptmp, stmp) → ptmp.length ≤ n ∧ c.s.length ≤ stmp.length
  aligned : ∀ ptmp stmp, c.tmp = some (ptmp, stmp) →
    Wildcard.Aligned (pathItems fl ptmp) (stmp.splitOn 47) (pathItems fl c.p) (c.s.splitOn 47)

/-- What a turn does: it goes on with the same answer, or returns it. -/
def PathTurns (n : ℕ) (c : Cursor) : Cursor ⊕ ℕ → Prop
  | .inl c' => PathInvariant fl n c' ∧ (PathAnswer fl c' ↔ PathAnswer fl c) ∧ rank n c' < rank n c
  | .inr r => r = 0 ↔ PathAnswer fl c

variable {fl} {n : ℕ} {c : Cursor}

theorem PathTurns.of_le {c' : Cursor} {t : Cursor ⊕ ℕ} (h : PathTurns fl n c' t)
    (hanswer : PathAnswer fl c' ↔ PathAnswer fl c) (hrank : rank n c' ≤ rank n c) :
    PathTurns fl n c t := by
  cases t with
  | inl c'' => exact ⟨h.1, h.2.1.trans hanswer, h.2.2.trans_le hrank⟩
  | inr r => exact Iff.trans h hanswer

/-- The beginning of a turn, which passes over `**/`. -/
theorem pathAnswer_skipRecursive (hinv : PathInvariant fl n c) :
    let c' : Cursor := ⟨skipRecursive c.p, c.s,
      if skipRecursive c.p = c.p then c.tmp else some (skipRecursive c.p, c.s)⟩
    PathInvariant fl n c' ∧ (PathAnswer fl c' ↔ PathAnswer fl c) ∧ rank n c' ≤ rank n c := by
  have hp := hinv.p_le
  obtain ⟨hnone, heq | ⟨hlt, ⟨ps, hps⟩, hmatches⟩⟩ := skipRecursive_cases fl c.p
  · simp only [heq, if_true]
    exact ⟨hinv, trivial, Nat.le_refl _⟩
  · have hne : skipRecursive c.p ≠ c.p := by
      intro h
      rw [h] at hlt
      exact lt_irrefl _ hlt
    simp only [if_neg hne]
    refine ⟨⟨by dsimp only; omega, ?_, ?_⟩, ?_, ?_⟩
    · rintro ptmp stmp ⟨⟩
      exact ⟨by omega, Nat.le_refl _⟩
    · rintro ptmp stmp ⟨⟩
      exact .refl _ _
    · -- the recursions before need no second try
      have hanswer : PathAnswer fl c ↔
          Wildcard.Matches (dotRule fl).skips (pathItems fl c.p) (c.s.splitOn 47) := by
        constructor
        · rintro (hm | ⟨ptmp, stmp, htmp, hlater⟩)
          · exact hm
          · have hal := hinv.aligned ptmp stmp htmp
            rw [hps] at hal ⊢
            refine Wildcard.retry_gap hal ?_ hlater
            intro q hq a b ha hb
            obtain ⟨comp, -, hcomp⟩ := List.mem_map.mp hq
            cases comp with
            | recursive => cases hcomp
            | element ps =>
                cases hcomp
                exact skips_iff_of_elementMatches ha hb
        · exact .inl
      rw [hanswer, hmatches, Wildcard.matches_gap_iff_later]
      simp [PathAnswer]
    · simp only [rank]
      cases htmp : c.tmp with
      | none =>
          dsimp only
          nlinarith
      | some tmp =>
          have := (hinv.tmp_le tmp.1 tmp.2 htmp).2
          dsimp only
          nlinarith

/-- The end of a turn, which tries the next recursion. -/
theorem pathTurns_nextRecursion (hpath : fl.pathname = true) (hinv : PathInvariant fl n c)
    (hno : ¬ Wildcard.Matches (dotRule fl).skips (pathItems fl c.p) (c.s.splitOn 47)) :
    PathTurns fl n c (nextRecursion fl c.tmp) := by
  rw [nextRecursion.eq_def]
  cases htmp : c.tmp with
  | none => simp [PathTurns, PathAnswer, hno, htmp]
  | some tmp =>
      obtain ⟨ptmp, stmp⟩ := tmp
      have hanswer : PathAnswer fl c ↔
          Wildcard.Later (dotRule fl).skips (pathItems fl ptmp) (stmp.splitOn 47) := by
        simp [PathAnswer, hno, htmp]
      have hskip : (dotRule fl).skips (element fl stmp) ↔
          (fl.period && stmp.head? == some 46) = false := by
        simp only [dotRule, ne_eq]
        rw [head_element_eq_dot]
        simp
      dsimp only
      rcases splitOn_cases hpath stmp with ⟨hdrop, hsplit⟩ | ⟨t, hdrop, hsplit, hlt⟩
      · rw [hdrop]
        rw [hsplit, Wildcard.later_cons] at hanswer
        have hfalse : ¬ PathAnswer fl c := by
          rw [hanswer]
          rintro ⟨-, h | h⟩
          · exact not_pathMatches_nil ptmp h
          · exact Wildcard.not_later_nil h
        split_ifs
        all_goals exact iff_of_false one_ne_zero hfalse
      · rw [hdrop]
        rw [hsplit, Wildcard.later_cons, hskip] at hanswer
        split_ifs with hdot
        · refine iff_of_false one_ne_zero ?_
          rw [hanswer, hdot]
          simp
        · refine ⟨⟨?_, ?_, ?_⟩, ?_, ?_⟩
          · exact (hinv.tmp_le ptmp stmp htmp).1
          · rintro ptmp' stmp' ⟨⟩
            exact ⟨(hinv.tmp_le ptmp stmp htmp).1, Nat.le_refl _⟩
          · rintro ptmp' stmp' ⟨⟩
            exact .refl _ _
          · rw [hanswer, and_iff_right (by simpa using hdot)]
            simp [PathAnswer]
          · have := (hinv.tmp_le ptmp stmp htmp).1
            simp only [rank, htmp]
            nlinarith

/-- A turn after the `**/` were passed over. -/
theorem pathTurns_element (hpath : fl.pathname = true) (hinv : PathInvariant fl n c)
    (hnone : afterRecursive c.p = none) {r : Returned}
    (hval : r.val = 0 ↔ ElementMatches (dotRule fl) fl.casefold (pieces fl.escape fl.pathname c.p).1
      (element fl c.s))
    (hmark : r.val = 0 →
      r.p = [] ∧ after fl c.p = none ∨ ∃ q, r.p = 47 :: q ∧ after fl c.p = some q) :
    PathTurns fl n c
      (if r.val = 0 ∧ r.p ≠ [] ∧ c.s.dropWhile (· != 47) ≠ [] then
        .inl ⟨r.p.tail, (c.s.dropWhile (· != 47)).tail, c.tmp⟩
      else if r.val = 0 ∧ r.p = [] ∧ c.s.dropWhile (· != 47) = [] then .inr 0
      else nextRecursion fl c.tmp) := by
  have hitems := pathItems_element fl hnone
  rw [← hpath] at hitems
  change pathItems fl c.p = _ :: (match after fl c.p with | none => _ | some q => _) at hitems
  by_cases h0 : r.val = 0
  · have haccept := hval.mp h0
    rcases hmark h0 with ⟨hp, hafter⟩ | ⟨q, hp, hafter⟩
    · -- the pattern ends here
      rw [hafter] at hitems
      simp only [h0, hp, ne_eq, not_true_eq_false, false_and, and_false, if_false, true_and]
      rcases splitOn_cases hpath c.s with ⟨hdrop, hsplit⟩ | ⟨t, hdrop, hsplit, -⟩
      · rw [if_pos hdrop]
        refine iff_of_true rfl (.inl ?_)
        rw [hitems, hsplit]
        exact .one haccept .nil
      · rw [if_neg (by simp [hdrop])]
        refine pathTurns_nextRecursion hpath hinv ?_
        rw [hitems, hsplit]
        simp
    · -- the pattern goes on after a separator
      rw [hafter] at hitems
      have hq : q.length < c.p.length := pieces_length hafter
      simp only [h0, hp, ne_eq, reduceCtorEq, not_false_eq_true, true_and, List.tail_cons,
        false_and, if_false]
      rcases splitOn_cases hpath c.s with ⟨hdrop, hsplit⟩ | ⟨t, hdrop, hsplit, hlt⟩
      · rw [if_neg (by simp [hdrop])]
        refine pathTurns_nextRecursion hpath hinv ?_
        rw [hitems, hsplit, Wildcard.matches_one_cons]
        rintro ⟨-, h⟩
        exact not_pathMatches_nil q h
      · rw [if_pos (by simp [hdrop]), hdrop, List.tail_cons]
        have hp_le := hinv.p_le
        refine ⟨⟨by dsimp only; omega, ?_, ?_⟩, ?_, ?_⟩
        · intro ptmp stmp htmp
          obtain ⟨h1, h2⟩ := hinv.tmp_le ptmp stmp htmp
          exact ⟨h1, by dsimp only; omega⟩
        · intro ptmp stmp htmp
          have hal := hinv.aligned ptmp stmp htmp
          rw [hitems, hsplit] at hal
          exact hal.one haccept
        · simp [PathAnswer, hitems, hsplit, haccept]
        · simp only [rank]
          cases c.tmp with
          | none =>
              dsimp only
              nlinarith
          | some tmp =>
              dsimp only
              omega
  · simp only [h0, false_and, if_false]
    refine pathTurns_nextRecursion hpath hinv ?_
    obtain ⟨ss, hss⟩ : ∃ ss, c.s.splitOn 47 = element fl c.s :: ss := by
      rcases splitOn_cases hpath c.s with ⟨-, h⟩ | ⟨t, -, h, -⟩
      · exact ⟨_, h⟩
      · exact ⟨_, h⟩
    rw [hitems, hss, Wildcard.matches_one_cons]
    rintro ⟨h, -⟩
    exact h0 (hval.mpr h)

/-- **What a turn of the loop of `fnmatch` keeps.** -/
theorem fnmatchTurn_spec (hpath : fl.pathname = true) (hinv : PathInvariant fl n c) :
    ∃ t, fnmatchTurn fl c = some t ∧ PathTurns fl n c t := by
  obtain ⟨hinv', hanswer, hrank⟩ := pathAnswer_skipRecursive hinv
  have hnone := (skipRecursive_cases fl c.p).1
  obtain ⟨r, hr, hval, hmark, hrest⟩ := fnmatchHelper_spec fl (skipRecursive c.p) c.s
  refine ⟨_, by rw [fnmatchTurn, hr], ?_⟩
  rw [hrest hpath]
  exact (pathTurns_element hpath hinv' hnone hval hmark).of_le hanswer hrank

/-- **The loop of `fnmatch` ends, with the answer.** -/
theorem fnmatchLoop_spec (hpath : fl.pathname = true) (hinv : PathInvariant fl n c) {fuel : ℕ}
    (hfuel : rank n c < fuel) : ∃ r, fnmatchLoop fl fuel c = some r ∧
      (r = 0 ↔ PathAnswer fl c) := by
  induction fuel generalizing c with
  | zero => omega
  | succ fuel ih =>
      obtain ⟨t, ht, hturn⟩ := fnmatchTurn_spec hpath hinv
      rw [fnmatchLoop, ht]
      cases t with
      | inr r => exact ⟨r, rfl, hturn⟩
      | inl c' =>
          obtain ⟨hinv', hanswer, hlt⟩ := hturn
          obtain ⟨r, hr, hr'⟩ := ih hinv' (by omega)
          exact ⟨r, hr, hr'.trans hanswer⟩

end Path

/-- **`fnmatch` ends, and returns 0 exactly when the string matches the pattern.** -/
theorem fnmatch_decides (fl : Flags) (p s : List UInt8) :
    ∃ r, fnmatch fl p s = some r ∧ (r = 0 ↔ Matches (dotRule fl) fl p s) := by
  rw [fnmatch, Matches]
  cases hpath : fl.pathname with
  | true =>
      have hinv : PathInvariant fl p.length ⟨p, s, none⟩ := ⟨Nat.le_refl _, nofun, nofun⟩
      have hrank : rank p.length ⟨p, s, none⟩ < turns p s := by
        simp only [rank, turns]
        nlinarith
      obtain ⟨r, hr, hr'⟩ := fnmatchLoop_spec hpath hinv hrank
      refine ⟨r, hr, ?_⟩
      rw [hr']
      simp [PathAnswer, PathMatches, pathItems]
  | false =>
      obtain ⟨r, hr, hval, -⟩ := fnmatchHelper_spec fl p s
      rw [hpath, element, hpath] at hval
      refine ⟨r.val, by rw [hr]; rfl, ?_⟩
      exact hval

/-- Another rule for leading dots: any literal dot takes one, also one behind a `*` that takes
nothing, and a `**/` passes over no element with a leading dot, whatever the flags. -/
def literalDotRule (fl : Flags) : DotRule where
  takes ps s := fl.period = true → s.head? = some 46 →
    ∃ k qs, ps = List.replicate k .star ++ .literal 46 :: qs ∧ RunMatches fl.casefold qs s.tail
  skips s := s.head? ≠ some 46

/-- `fnmatch` follows another rule: `*.x` does not match `.x`, and with `FNM_PATHNAME` and
`FNM_DOTMATCH` the pattern `**/a` matches `.b/a`. -/
theorem not_literalDotRule :
    (fnmatch ⟨false, false, false, false⟩ [42, 46, 120] [46, 120] = some 1 ∧
      Matches (literalDotRule ⟨false, false, false, false⟩) ⟨false, false, false, false⟩
        [42, 46, 120] [46, 120]) ∧
    fnmatch ⟨false, true, true, false⟩ [42, 42, 47, 97] [46, 98, 47, 97] = some 0 ∧
      ¬ Matches (literalDotRule ⟨false, true, true, false⟩) ⟨false, true, true, false⟩
        [42, 42, 47, 97] [46, 98, 47, 97] := by
  refine ⟨⟨by decide, ?_⟩, by decide, ?_⟩
  · have hpieces : (pieces true false [42, 46, 120]).1 = [.star, .literal 46, .literal 120] := by
      rw [pieces_star, pieces_ordinary, pieces_ordinary] <;> simp
    have hdot : RunMatches false [.literal 46, .literal 120] [46, 120] :=
      .one rfl (.one rfl .nil)
    have hrun : RunMatches false [.star, .literal 46, .literal 120] [46, 120] :=
      Wildcard.matches_gap.mpr ⟨[], _, rfl, by simp, hdot⟩
    refine ⟨?_, fun _ _ => ⟨1, [.literal 120], hpieces, .one rfl .nil⟩⟩
    exact hpieces ▸ hrun
  · intro h
    have hcomponents : components true [42, 42, 47, 97] = [.recursive, .element [.literal 97]] := by
      rw [components_recursive, components_element rfl, pieces_ordinary] <;> simp
    have hm : PathMatches (literalDotRule ⟨false, true, true, false⟩) false
        [.recursive, .element [.literal 97]] [[46, 98], [97]] := hcomponents ▸ h
    rcases Wildcard.matches_gap_iff_later.mp hm with h | h
    · have := (Wildcard.matches_one_cons.mp h).2
      simp at this
    · exact (Wildcard.later_cons.mp h).1 rfl

end MacRuby.Dir
