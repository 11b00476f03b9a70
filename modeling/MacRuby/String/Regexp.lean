import MacRuby.String.Find

/-!
# Searching a string with a regexp

A regexp matches a string at a place up to some end, or it does not match there.  `rb_reg_search`
finds the leftmost match at or after a position.

## Main definitions

* `Regexp str` — what a regexp matches in a string.
* `RegSearch`, `RegSearch.Leftmost` — the search, and what its callers rely on.
* `Regexp.leftmost` — a search that is as documented.
* `Regexp.quoted` — the regexp that matches a string literally.
-/

namespace MacRuby

open Occurrence

/-- What a regexp matches in a string: the end of the match at each place. -/
structure Regexp (str : List UniChar) where
  matchEnd : ℕ → Option ℕ
  bounds : ∀ {i e : ℕ}, matchEnd i = some e → i ≤ e ∧ e ≤ str.length

/-- `rb_reg_search(re, str, pos, 0)` for a regexp and a string, with `BEG(0)` and `END(0)` of the
match. -/
abbrev RegSearch := (pos : ℤ) → Option (ℕ × ℕ)

variable {str : List UniChar}

/-- The regexp matches at a place. -/
def Regexp.MatchesAt (re : Regexp str) (i : ℕ) : Prop := (re.matchEnd i).isSome = true

instance (re : Regexp str) (i : ℕ) : Decidable (re.MatchesAt i) :=
  inferInstanceAs (Decidable (_ = true))

/-- **The leftmost match at or after the position is found.** -/
def RegSearch.Leftmost (search : RegSearch) (re : Regexp str) : Prop :=
  ∀ pos : ℕ, ∃ r, IsFirst (fun i => pos ≤ i ∧ re.MatchesAt i) r ∧
    search pos = r.bind fun i => (re.matchEnd i).map (Prod.mk i)

/-- A search that tries one place after the other. -/
def Regexp.leftmost (re : Regexp str) : RegSearch := fun pos =>
  (firstBelow (fun i => pos ≤ i ∧ re.MatchesAt i) (str.length + 1)).bind fun i =>
    (re.matchEnd i).map (Prod.mk i)

/-- A match is in the string. -/
theorem Regexp.MatchesAt.le {re : Regexp str} {i : ℕ} (h : re.MatchesAt i) : i ≤ str.length := by
  obtain ⟨e, he⟩ := Option.isSome_iff_exists.mp h
  obtain ⟨hie, hlen⟩ := re.bounds he
  exact hie.trans hlen

theorem Regexp.leftmost_documented (re : Regexp str) : re.leftmost.Leftmost re := by
  intro pos
  have hfirst := firstBelow_isFirst (fun i : ℕ => (pos : ℤ) ≤ i ∧ re.MatchesAt i) (str.length + 1)
  refine ⟨_, hfirst.congr fun i => ?_, rfl⟩
  rw [Nat.cast_le]
  refine and_iff_right_of_imp fun h => ?_
  exact Nat.lt_succ_of_le h.2.le

/-- A regexp that matches a string that is not empty, literally. -/
def Regexp.quoted (str : List UniChar) {pat : List UniChar} (hpat : pat ≠ []) : Regexp str where
  matchEnd i := if OccursAt pat str i then some (i + pat.length) else none
  bounds := by
    intro i e he
    split at he
    · rename_i hocc
      obtain rfl := Option.some.inj he
      exact ⟨Nat.le_add_right _ _, hocc.le hpat⟩
    · cases he

@[simp] theorem Regexp.quoted_matchesAt {pat : List UniChar} (hpat : pat ≠ []) (i : ℕ) :
    (Regexp.quoted str hpat).MatchesAt i ↔ OccursAt pat str i := by
  unfold Regexp.MatchesAt Regexp.quoted
  by_cases h : OccursAt pat str i <;> simp [h]

end MacRuby
