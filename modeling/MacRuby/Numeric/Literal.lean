import MacRuby.Numeric.Parse
import Mathlib.Data.List.TakeWhile

/-!
# The Grammar of Integers

What a string must look like to be read as an Integer: white space, a sign, a prefix, digits with
single underscores between them, white space. All but the digits may be left out.

## Main definitions

* `Digits` — one or more digits of a base.
* `Unsigned` — digits with or without a prefix, and the number that they stand for.
* `Literal` — the whole string.
* `LongestLiteral` — the value of the longest part at the beginning of a string that is a `Literal`.

## Main results

* `Opening` — what the first bytes settle; it is `opening_prefixed` or `opening_plain`.
* `Opening.literal_iff` — a string is a literal if the digits go on up to white space at its end.
* `Opening.longestLiteral` — the longest literal ends after the digits and the white space.
* `Literal.unique`, `LongestLiteral.unique` — a string has one value at most.
-/

namespace MacRuby

/-! ## The grammar -/

/-- One or more digits of base `r`, with single underscores between them. -/
inductive Digits (r : ℕ) : List UInt8 → Prop
  | last {c : UInt8} : IsDigitOf r c → Digits r [c]
  | digit {c : UInt8} {ds : List UInt8} : IsDigitOf r c → Digits r ds → Digits r (c :: ds)
  | underscore {c : UInt8} {ds : List UInt8} :
      IsDigitOf r c → Digits r ds → Digits r (c :: 95 :: ds)

/-- The base that the letter of a prefix stands for. -/
def prefixBase (x : UInt8) : Option ℕ :=
  if x = 98 ∨ x = 66 then some 2
  else if x = 111 ∨ x = 79 then some 8
  else if x = 100 ∨ x = 68 then some 10
  else if x = 120 ∨ x = 88 then some 16
  else none

/-- The prefix with the letter `x` stands for base `r` and is permitted for the argument `b`. -/
def Permitted (b : ℤ) (x : UInt8) (r : ℕ) : Prop := prefixBase x = some r ∧ (b ≤ 0 ∨ b = r)

/-- The base of digits without a prefix. An argument that is not positive leaves the base to the
digits: a leading zero makes them octal. -/
def plainBase (b : ℤ) (ds : List UInt8) : ℕ :=
  if 0 < b then b.toNat
  else if ds.headD 0 = 48 then 8
  else if b < -1 then (-b).toNat
  else 10

/-- Digits that stand for a number, with or without a prefix. -/
inductive Unsigned (b : ℤ) : List UInt8 → ℕ → Prop
  | plain {ds : List UInt8} :
      Digits (plainBase b ds) ds → Unsigned b ds (underscored (plainBase b ds) 0 ds)
  | prefixed {x : UInt8} {r : ℕ} {ds : List UInt8} :
      Permitted b x r → Digits r ds → Unsigned b (48 :: x :: ds) (underscored r 0 ds)

/-- A sign, and whether it leaves the number as it is. -/
inductive IsSign : List UInt8 → Bool → Prop
  | none : IsSign [] true
  | plus : IsSign [43] true
  | minus : IsSign [45] false

/-- White space. -/
def Blank (ws : List UInt8) : Prop := ∀ c ∈ ws, isSpace c = true

/-- A string that is read as an Integer. -/
inductive Literal (b : ℤ) : List UInt8 → ℤ → Prop
  | intro {ws sgn body ws' : List UInt8} {sign : Bool} {n : ℕ} :
      Blank ws → IsSign sgn sign → Unsigned b body n → Blank ws' →
      Literal b (ws ++ (sgn ++ (body ++ ws'))) (signed sign n)

/-- The value of the longest literal at the beginning of a string, and zero if there is none. -/
inductive LongestLiteral (b : ℤ) (s : List UInt8) : ℤ → Prop
  | some {p : List UInt8} {v : ℤ} : p <+: s → Literal b p v →
      (∀ q w, q <+: s → Literal b q w → q.length ≤ p.length) → LongestLiteral b s v
  | none : (∀ q w, q <+: s → ¬ Literal b q w) → LongestLiteral b s 0

/-! ## Digits -/

section Digits

variable {r : ℕ} {ds t : List UInt8}

theorem Digits.head (h : Digits r ds) : ∃ c cs, ds = c :: cs ∧ IsDigitOf r c := by
  cases h with
  | last hc => exact ⟨_, _, rfl, hc⟩
  | digit hc _ => exact ⟨_, _, rfl, hc⟩
  | underscore hc _ => exact ⟨_, _, rfl, hc⟩

theorem Digits.ne_nil (h : Digits r ds) : ds ≠ [] := by
  obtain ⟨c, cs, rfl, -⟩ := h.head
  exact List.cons_ne_nil _ _

/-- The digits at the beginning of a string. -/
def spanDigits (r : ℕ) (t : List UInt8) : List UInt8 :=
  if ∃ c ∈ t.head?, IsDigitOf r c then moreDigits r t else []

theorem spanDigits_of_head (h : ∃ c ∈ t.head?, IsDigitOf r c) : spanDigits r t = moreDigits r t :=
  if_pos h

theorem spanDigits_of_not_head (h : ¬ ∃ c ∈ t.head?, IsDigitOf r c) : spanDigits r t = [] :=
  if_neg h

/-- The digits are the beginning of the string. -/
theorem spanDigits_append_drop (r : ℕ) (t : List UInt8) :
    spanDigits r t ++ t.drop (spanDigits r t).length = t := by
  by_cases h : ∃ c ∈ t.head?, IsDigitOf r c
  · rw [spanDigits_of_head h]
    exact moreDigits_append_drop r t
  · rw [spanDigits_of_not_head h]
    rfl

/-- Digits at the beginning of a string are among those that it goes on with. -/
theorem Digits.moreDigits_append (h : Digits r ds) (z : List UInt8) :
    ds <+: moreDigits r (ds ++ z) := by
  induction h with
  | last hc =>
      rw [List.singleton_append, moreDigits_digit hc]
      exact List.prefix_append [_] _
  | digit hc _ ih =>
      rw [List.cons_append, moreDigits_digit hc]
      exact (List.prefix_cons_inj _).mpr ih
  | underscore hc hds ih =>
      obtain ⟨d, es, rfl, hd⟩ := hds.head
      rw [List.cons_append] at ih
      rw [List.cons_append, moreDigits_digit hc, List.cons_append, List.cons_append,
        moreDigits_underscore hd, ← moreDigits_digit hd]
      exact (List.prefix_cons_inj _).mpr ((List.prefix_cons_inj _).mpr ih)

/-- **No digits at the beginning of a string are longer.** -/
theorem Digits.prefix_span (h : Digits r ds) (ht : ds <+: t) : ds <+: spanDigits r t := by
  obtain ⟨z, rfl⟩ := ht
  rw [spanDigits_of_head]
  · exact h.moreDigits_append z
  · obtain ⟨c, cs, rfl, hc⟩ := h.head
    exact ⟨c, rfl, hc⟩

theorem digits_moreDigits (t : List UInt8) :
    (∀ c, IsDigitOf r c → Digits r (c :: moreDigits r t)) ∧
      ((∃ c ∈ t.head?, IsDigitOf r c) → Digits r (moreDigits r t)) := by
  induction t with
  | nil => exact ⟨fun c hc => .last hc, fun ⟨c, hc, _⟩ => nomatch hc⟩
  | cons e es ih =>
      have hhead : (∃ c ∈ (e :: es).head?, IsDigitOf r c) → Digits r (moreDigits r (e :: es)) := by
        rintro ⟨c, hc, hdigit⟩
        cases hc
        rw [moreDigits_digit hdigit]
        exact ih.1 _ hdigit
      refine ⟨fun c hc => ?_, hhead⟩
      by_cases he : IsDigitOf r e
      · exact .digit hc (hhead ⟨e, rfl, he⟩)
      · by_cases hunder : e = 95 ∧ ∃ d ∈ es.head?, IsDigitOf r d
        · rw [moreDigits, if_neg he, if_pos hunder, hunder.1]
          exact .underscore hc (ih.2 hunder.2)
        · rw [moreDigits, if_neg he, if_neg hunder]
          exact .last hc

/-- What is found at the beginning of a string are digits. -/
theorem digits_span (h : spanDigits r t ≠ []) : Digits r (spanDigits r t) := by
  by_cases hhead : ∃ c ∈ t.head?, IsDigitOf r c
  · rw [spanDigits_of_head hhead]
    exact (digits_moreDigits t).2 hhead
  · exact absurd (spanDigits_of_not_head hhead) h

/-- There is no white space among digits. -/
theorem Digits.isSpace_eq (h : Digits r ds) : ∀ c ∈ ds, isSpace c = false := by
  induction h with
  | last hc => exact fun c hmem => List.mem_singleton.mp hmem ▸ hc.ne.1
  | digit hc _ ih =>
      intro e hmem
      rcases List.mem_cons.mp hmem with rfl | hmem
      · exact hc.ne.1
      · exact ih e hmem
  | underscore hc _ ih =>
      intro e hmem
      rcases List.mem_cons.mp hmem with rfl | hmem
      · exact hc.ne.1
      · rcases List.mem_cons.mp hmem with rfl | hmem
        · rfl
        · exact ih e hmem

end Digits

/-! ## Prefixes -/

section Prefixes

variable {b : ℤ} {r n : ℕ} {x : UInt8} {body t t' : List UInt8}

/-- The letter of a prefix is no digit of its base, and no octal digit. -/
theorem not_isDigitOf_of_prefixBase (h : prefixBase x = some r) :
    isSpace x = false ∧ x ≠ 95 ∧ ¬ IsDigitOf r x ∧ ¬ IsDigitOf 8 x := by
  unfold prefixBase at h
  split_ifs at h with h2 h8 h10 h16
  all_goals
    cases h
  · rcases h2 with rfl | rfl <;> decide
  · rcases h8 with rfl | rfl <;> decide
  · rcases h10 with rfl | rfl <;> decide
  · rcases h16 with rfl | rfl <;> decide

theorem plainBase_of_pos (h : 0 < b) (ds : List UInt8) : plainBase b ds = b.toNat := if_pos h

theorem plainBase_of_zero (h : b ≤ 0) (ds : List UInt8) : plainBase b (48 :: ds) = 8 := by
  rw [plainBase, if_neg (by omega)]
  rfl

/-- Only the first digit counts for the base. -/
theorem plainBase_congr {c : UInt8} (ds ds' : List UInt8) :
    plainBase b (c :: ds) = plainBase b (c :: ds') := rfl

/-- Digits before the letter of a permitted prefix are a zero. -/
theorem Permitted.digits_eq (hx : Permitted b x r) {ds z : List UInt8}
    (hds : Digits (plainBase b ds) ds) (ht : 48 :: x :: t = ds ++ z) : ds = [48] := by
  obtain ⟨-, h95, hr, h8⟩ := not_isDigitOf_of_prefixBase hx.1
  have hno : ∀ cs, ¬ IsDigitOf (plainBase b (48 :: cs)) x := by
    intro cs
    rcases le_or_gt b 0 with hb | hb
    · rw [plainBase_of_zero hb]
      exact h8
    · obtain rfl : b = r := hx.2.resolve_left (not_le.mpr hb)
      rw [plainBase_of_pos hb, Int.toNat_natCast]
      exact hr
  generalize hbase : plainBase b ds = base at hds
  cases hds with
  | @last c _ =>
      rw [List.singleton_append] at ht
      cases ht
      rfl
  | @digit c ds _ hds =>
      obtain ⟨d, es, rfl, hd⟩ := hds.head
      cases ht
      rw [← hbase] at hd
      exact absurd hd (hno _)
  | underscore _ _ =>
      cases ht
      exact absurd rfl h95

/-- What the first bytes of a string settle: digits count to base `r`, after the prefix `pre`. -/
structure Opening (b : ℤ) (t : List UInt8) (r : ℕ) (pre t' : List UInt8) : Prop where
  split : t = pre ++ t'
  unsigned : ∀ ds, ds <+: t' → Digits r ds → Unsigned b (pre ++ ds) (underscored r 0 ds)
  only : ∀ body n, body <+: t → Unsigned b body n →
    (∃ ds, ds <+: t' ∧ Digits r ds ∧ body = pre ++ ds ∧ n = underscored r 0 ds) ∨
      (pre ≠ [] ∧ body = [48] ∧ n = 0)
  zero : pre ≠ [] → Unsigned b [48] 0 ∧ ∃ x, isSpace x = false ∧ pre = [48, x]

theorem unsigned_zero (hr : 1 ≤ plainBase b [48]) : Unsigned b [48] 0 := by
  have hzero : IsDigitOf (plainBase b [48]) 48 := by
    have htable : digitTable 48 = 0 := by decide
    refine ⟨htable.ge, ?_⟩
    rw [htable]
    omega
  have hval : underscored (plainBase b [48]) 0 [48] = 0 := by
    rw [underscored_digit hzero, Nat.zero_mul]
    rfl
  have h : Unsigned b [48] (underscored (plainBase b [48]) 0 [48]) := .plain (.last hzero)
  rwa [hval] at h

/-- A permitted prefix settles the base. -/
theorem opening_prefixed (hx : Permitted b x r) : Opening b (48 :: x :: t') r [48, x] t' := by
  have hspace := (not_isDigitOf_of_prefixBase hx.1).1
  refine ⟨rfl, fun ds _ hds => .prefixed hx hds, fun body n hbody h => ?_, fun _ =>
    ⟨unsigned_zero ?_, x, hspace, rfl⟩⟩
  · obtain ⟨z, hz⟩ := hbody
    cases h with
    | plain hds =>
        obtain rfl := hx.digits_eq hds hz.symm
        refine .inr ⟨List.cons_ne_nil _ _, rfl, ?_⟩
        obtain ⟨c, cs, hc, hdigit⟩ := hds.head
        cases hc
        rw [underscored_digit hdigit, Nat.zero_mul]
        rfl
    | @prefixed x' r' ds hx' hds =>
        cases hz
        obtain rfl : r = r' := Option.some_injective _ (hx.1.symm.trans hx'.1)
        exact .inl ⟨ds, List.prefix_append _ _, hds, rfl, rfl⟩
  · rcases le_or_gt b 0 with hb | hb
    · rw [plainBase_of_zero hb]
      decide
    · rw [plainBase_of_pos hb]
      omega

/-- Without a permitted prefix, the digits are the beginning of the string. -/
theorem opening_plain (ht : ∀ x r t', t = 48 :: x :: t' → ¬ Permitted b x r) :
    Opening b t (plainBase b t) [] t := by
  have hbase : ∀ ds, ds ≠ [] → ds <+: t → plainBase b ds = plainBase b t := by
    intro ds hne hpre
    obtain ⟨z, rfl⟩ := hpre
    obtain ⟨c, cs, rfl⟩ := List.exists_cons_of_ne_nil hne
    exact plainBase_congr _ _
  refine ⟨rfl, fun ds hpre hds => ?_, fun body n hbody h => ?_, fun h => absurd rfl h⟩
  · rw [← hbase ds hds.ne_nil hpre] at hds ⊢
    exact .plain hds
  · cases h with
    | plain hds =>
        have heq := hbase body hds.ne_nil hbody
        rw [heq] at hds ⊢
        exact .inl ⟨body, hbody, hds, rfl, rfl⟩
    | @prefixed x r ds hx _ =>
        obtain ⟨z, rfl⟩ := hbody
        exact absurd hx (ht x r _ rfl)

theorem exists_opening (b : ℤ) (t : List UInt8) : ∃ r pre t', Opening b t r pre t' := by
  by_cases h : ∃ x r t', t = 48 :: x :: t' ∧ Permitted b x r
  · obtain ⟨x, r, t', rfl, hx⟩ := h
    exact ⟨r, _, t', opening_prefixed hx⟩
  · refine ⟨_, _, t, opening_plain fun x r t' ht hx => ?_⟩
    exact h ⟨x, r, t', ht, hx⟩

/-- The first byte of digits with or without a prefix is neither white space nor a sign. -/
theorem Unsigned.head (h : Unsigned b body n) :
    ∃ c cs, body = c :: cs ∧ isSpace c = false ∧ c ≠ 43 ∧ c ≠ 45 := by
  cases h with
  | plain hds =>
      obtain ⟨c, cs, rfl, hc⟩ := hds.head
      exact ⟨c, cs, rfl, hc.ne⟩
  | prefixed _ _ => exact ⟨48, _, rfl, by decide⟩

end Prefixes

/-! ## White space and signs -/

section Leads

variable {b : ℤ} {ws sgn t : List UInt8} {sign : Bool}

/-- White space goes up to the first byte that is none. -/
theorem Blank.dropWhile (h : Blank ws) (t : List UInt8) :
    (ws ++ t).dropWhile isSpace = t.dropWhile isSpace :=
  List.dropWhile_append_of_pos h

theorem Blank.dropWhile_eq (h : Blank ws) : ws.dropWhile isSpace = [] :=
  List.dropWhile_eq_nil_iff.mpr h

theorem blank_of_dropWhile (h : ws.dropWhile isSpace = []) : Blank ws :=
  List.dropWhile_eq_nil_iff.mp h

theorem blank_takeWhile (t : List UInt8) : Blank (t.takeWhile isSpace) :=
  fun _ hc => List.mem_takeWhile_imp hc

theorem Blank.eq_nil {k z : List UInt8} (h : Blank ws) {c : UInt8} (hc : isSpace c = false)
    (heq : ws ++ z = c :: k) : ws = [] := by
  cases ws with
  | nil => rfl
  | cons w ws =>
      cases heq
      exact absurd (h c (List.mem_cons_self ..)) (by rw [hc]; exact Bool.false_ne_true)

theorem Blank.length_le {z : List UInt8} (h : Blank ws) (heq : t = ws ++ z) :
    ws.length ≤ (t.takeWhile isSpace).length := by
  rw [heq, List.takeWhile_append_of_pos h, List.length_append]
  exact Nat.le_add_right _ _

/-- The string before the digits is white space and a sign. -/
structure Leads (s ws sgn : List UInt8) (sign : Bool) (t : List UInt8) : Prop where
  split : s = ws ++ (sgn ++ t)
  blank : Blank ws
  isSign : IsSign sgn sign
  skip : skipSign (s.dropWhile isSpace) = (sign, t)

theorem exists_leads (s : List UInt8) : ∃ ws sgn sign t, Leads s ws sgn sign t := by
  have hsplit := List.takeWhile_append_dropWhile (p := isSpace) (l := s)
  have hblank := blank_takeWhile s
  generalize hu : s.dropWhile isSpace = u at hsplit
  by_cases hplus : u.headD 0 = 43
  · have hskip : skipSign u = (true, u.tail) := if_pos hplus
    cases u with
    | nil => exact absurd hplus (by decide)
    | cons c cs =>
        cases hplus
        exact ⟨_, [43], true, cs, hsplit.symm, hblank, .plus, hu ▸ hskip⟩
  · by_cases hminus : u.headD 0 = 45
    · have hskip : skipSign u = (false, u.tail) := by
        rw [skipSign, if_neg hplus, if_pos hminus]
      cases u with
      | nil => exact absurd hminus (by decide)
      | cons c cs =>
          cases hminus
          exact ⟨_, [45], false, cs, hsplit.symm, hblank, .minus, hu ▸ hskip⟩
    · have hskip : skipSign u = (true, u) := by
        rw [skipSign, if_neg hplus, if_neg hminus]
      exact ⟨_, [], true, u, hsplit.symm, hblank, .none, hu ▸ hskip⟩

/-- White space and a sign are found before a byte that is neither. -/
theorem skipSign_leads (hws : Blank ws) (hsgn : IsSign sgn sign) {c : UInt8}
    (hc : isSpace c = false ∧ c ≠ 43 ∧ c ≠ 45) (cs : List UInt8) :
    skipSign ((ws ++ (sgn ++ c :: cs)).dropWhile isSpace) = (sign, c :: cs) := by
  obtain ⟨hspace, hplus, hminus⟩ := hc
  rw [hws.dropWhile]
  cases hsgn with
  | none =>
      rw [List.nil_append, List.dropWhile_cons_of_neg (by rw [hspace]; exact Bool.false_ne_true)]
      rw [skipSign, List.headD_cons, if_neg hplus, if_neg hminus]
  | plus => rfl
  | minus => rfl

/-- A literal is white space, a sign, digits and white space. -/
theorem Leads.literal {s q : List UInt8} {v : ℤ} (h : Leads s ws sgn sign t) (hq : q <+: s)
    (hlit : Literal b q v) : ∃ body ws' n, q.length
      = ws.length + (sgn.length + (body ++ ws').length) ∧
      body ++ ws' <+: t ∧ (q = s → body ++ ws' = t) ∧ Unsigned b body n ∧ Blank ws' ∧
        v = signed sign n := by
  obtain ⟨z, hz⟩ := hq
  cases hlit with
  | @intro ws₁ sgn₁ body ws' sign₁ n hws hsgn hbody hws' =>
      obtain ⟨c, cs, rfl, hc⟩ := hbody.head
      have hs : s = ws₁ ++ (sgn₁ ++ c :: (cs ++ ws' ++ z)) := by
        rw [← hz, List.append_assoc, List.append_assoc]
        rfl
      have hskip := skipSign_leads hws hsgn hc (cs ++ ws' ++ z)
      rw [← hs, h.skip] at hskip
      cases hskip
      have hlen := congrArg List.length (h.split.symm.trans hs)
      simp only [List.length_append, List.length_cons] at hlen
      refine ⟨c :: cs, ws', n, ?_, ⟨z, rfl⟩, fun heq => ?_, hbody, hws', rfl⟩
      · simp only [List.length_append, List.length_cons]
        omega
      · have hnil : z = [] := List.append_right_eq_self.mp (hz.trans heq.symm)
        rw [hnil, List.append_nil]
        rfl

/-- White space and a sign may be put before digits. -/
theorem Leads.intro {s body ws' : List UInt8} {n : ℕ} (h : Leads s ws sgn sign t)
    (hbody : Unsigned b body n) (hws' : Blank ws') :
    Literal b (ws ++ (sgn ++ (body ++ ws'))) (signed sign n) :=
  .intro h.blank h.isSign hbody hws'

theorem Leads.beginning {s p : List UInt8} (h : Leads s ws sgn sign t) (hp : p <+: t) :
    ws ++ (sgn ++ p) <+: s := by
  rw [h.split]
  exact (List.prefix_append_right_inj _).mpr ((List.prefix_append_right_inj _).mpr hp)

end Leads

/-! ## Literals -/

section Literals

variable {b : ℤ} {s ws sgn t t' pre : List UInt8} {sign : Bool} {r : ℕ}

/-- What follows digits that are not all of them is no white space. -/
theorem blank_after_digits {ds ws' z : List UInt8} (hds : Digits r ds) (hws' : Blank ws')
    (ht : t' = ds ++ (ws' ++ z)) :
    (ds = spanDigits r t' ∧ t'.drop (spanDigits r t').length = ws' ++ z) ∨
      (ws' = [] ∧ z ≠ [] ∧ ds.length < (spanDigits r t').length) := by
  obtain ⟨k, hk⟩ := hds.prefix_span (t := t') ⟨_, ht.symm⟩
  have hsplit := spanDigits_append_drop r t'
  have hspan : Digits r (spanDigits r t') := digits_span (by
    rw [← hk]
    exact fun h => hds.ne_nil (List.append_eq_nil_iff.mp h).1)
  have hrest : k ++ t'.drop (spanDigits r t').length = ws' ++ z := by
    rw [ht] at hsplit
    conv at hsplit =>
      lhs
      rw [← ht]
    rw [← hk, List.append_assoc] at hsplit
    rw [← hk]
    exact List.append_cancel_left hsplit
  cases k with
  | nil =>
      rw [List.append_nil] at hk
      exact .inl ⟨hk, hrest⟩
  | cons c cs =>
      have hc : isSpace c = false := hspan.isSpace_eq c (by rw [← hk]; simp)
      have hnil := hws'.eq_nil hc hrest.symm
      refine .inr ⟨hnil, ?_, ?_⟩
      · rintro rfl
        rw [hnil] at hrest
        cases hrest
      · rw [← hk, List.length_append, List.length_cons]
        omega

/-- **A string is a literal** if its digits go on up to white space at its end. -/
theorem Opening.literal_iff (o : Opening b t r pre t') (h : Leads s ws sgn sign t) {v : ℤ} :
    Literal b s v ↔ spanDigits r t' ≠ [] ∧ Blank (t'.drop (spanDigits r t').length) ∧
      v = signed sign (underscored r 0 (spanDigits r t')) := by
  refine ⟨fun hlit => ?_, ?_⟩
  · obtain ⟨body, ws', n, -, hpre, hall, hbody, hws', hv⟩ := h.literal List.prefix_rfl hlit
    have ht := hall rfl
    rcases o.only body n ⟨ws', ht⟩ hbody with ⟨ds, -, hds, rfl, rfl⟩ | ⟨hne, rfl, -⟩
    · have ht' : t' = ds ++ (ws' ++ []) := by
        rw [o.split, List.append_assoc] at ht
        rw [List.append_nil]
        exact (List.append_cancel_left ht).symm
      rcases blank_after_digits hds hws' ht' with ⟨hspan, hrest⟩ | ⟨-, hnil, -⟩
      · rw [hrest, ← hspan, List.append_nil]
        exact ⟨hds.ne_nil, hws', hv⟩
      · exact absurd rfl hnil
    · -- the letter of the prefix is left
      obtain ⟨-, x, hx, rfl⟩ := o.zero hne
      rw [o.split] at ht
      have heq : ws' ++ [] = x :: t' := by
        rw [List.append_nil]
        exact (List.cons.inj ht).2
      obtain rfl := hws'.eq_nil hx heq
      cases heq
  · rintro ⟨hne, hblank, rfl⟩
    have hsplit := spanDigits_append_drop r t'
    have hbody := o.unsigned _ ⟨_, hsplit⟩ (digits_span hne)
    have hlit := h.intro hbody hblank
    rwa [List.append_assoc, hsplit, ← o.split, ← h.split] at hlit

/-- **A string has one value at most.** -/
theorem Literal.unique {v w : ℤ} (hv : Literal b s v) (hw : Literal b s w) : v = w := by
  obtain ⟨ws, sgn, sign, t, h⟩ := exists_leads s
  obtain ⟨r, pre, t', o⟩ := exists_opening b t
  exact ((o.literal_iff h).mp hv).2.2.trans ((o.literal_iff h).mp hw).2.2.symm

/-- The longest literal is determined by the string. -/
theorem LongestLiteral.unique {v w : ℤ} (hv : LongestLiteral b s v) (hw : LongestLiteral b s w) :
    v = w := by
  cases hv with
  | @some p _ hp hlit hmax =>
      cases hw with
      | @some q _ hq hlit' hmax' =>
          have hlen := Nat.le_antisymm (hmax' p v hp hlit) (hmax q w hq hlit')
          have heq := List.IsPrefix.eq_of_length (List.prefix_of_prefix_length_le hp hq hlen.le)
            hlen
          rw [heq] at hlit
          exact hlit.unique hlit'
      | none hno => exact absurd hlit (hno p v hp)
  | none hno =>
      cases hw with
      | @some q _ hq hlit' hmax' => exact absurd hlit' (hno q w hq)
      | none _ => rfl

/-- **The longest literal** goes up to the end of the digits and of the white space after them. It
is zero if there are no digits, with or without a prefix before them. -/
theorem Opening.longestLiteral (o : Opening b t r pre t') (h : Leads s ws sgn sign t) :
    LongestLiteral b s (signed sign (underscored r 0 (spanDigits r t'))) := by
  have hsplit := spanDigits_append_drop r t'
  by_cases hne : spanDigits r t' = []
  · -- no digits follow the prefix
    have hno : ∀ ds, ds <+: t' → ¬ Digits r ds := by
      intro ds hpre hds
      have hnil := hds.prefix_span hpre
      rw [hne] at hnil
      exact hds.ne_nil (List.prefix_nil.mp hnil)
    have hzero : signed sign (underscored r 0 (spanDigits r t')) = 0 := by
      rw [hne]
      cases sign <;> rfl
    rw [hzero]
    by_cases hpre : pre = []
    · refine .none fun q w hq hlit => ?_
      obtain ⟨body, ws', n, -, ht, -, hbody, -⟩ := h.literal hq hlit
      rcases o.only body n ((List.prefix_append _ _).trans ht) hbody with
        ⟨ds, hds, hds', -⟩ | ⟨h', -⟩
      · exact hno ds hds hds'
      · exact h' hpre
    · obtain ⟨hzero', x, hx, rfl⟩ := o.zero hpre
      have hnil : Blank [] := fun c hc => nomatch hc
      have hlit := h.intro hzero' hnil
      have hz : signed sign 0 = 0 := by cases sign <;> rfl
      rw [List.append_nil, hz] at hlit
      refine .some (h.beginning ?_) hlit fun q w hq hlit' => ?_
      · rw [o.split]
        exact ⟨x :: t', rfl⟩
      · obtain ⟨body, ws', n, hlen, ht, -, hbody, hws', -⟩ := h.literal hq hlit'
        rcases o.only body n ((List.prefix_append _ _).trans ht) hbody with
          ⟨ds, hds, hds', -⟩ | ⟨-, rfl, -⟩
        · exact absurd hds' (hno ds hds)
        · obtain ⟨z, hz'⟩ := ht
          rw [o.split, List.append_assoc] at hz'
          have hnil := hws'.eq_nil hx (List.cons.inj hz').2
          rw [hlen, hnil]
          simp only [List.length_append, List.length_singleton, List.length_nil,
            Nat.add_zero, le_rfl]
  · have hds := digits_span hne
    have hbody := o.unsigned _ ⟨_, hsplit⟩ hds
    set rest := t'.drop (spanDigits r t').length with hrest
    have hlit := h.intro hbody (blank_takeWhile rest)
    refine .some (h.beginning ⟨rest.dropWhile isSpace, ?_⟩) hlit fun q w hq hlit' => ?_
    · rw [List.append_assoc, List.append_assoc, List.takeWhile_append_dropWhile, hsplit, ← o.split]
    · obtain ⟨body, ws', n, hlen, ⟨z, hz⟩, -, hbody', hws', -⟩ := h.literal hq hlit'
      rw [hlen]
      simp only [List.length_append]
      rcases o.only body n ⟨ws' ++ z, by rw [← hz, List.append_assoc]⟩ hbody' with
        ⟨ds, -, hds', rfl, -⟩ | ⟨hpre, rfl, -⟩
      · have ht' : t' = ds ++ (ws' ++ z) := by
          rw [o.split, List.append_assoc, List.append_assoc] at hz
          exact (List.append_cancel_left hz).symm
        rw [List.length_append]
        rcases blank_after_digits hds' hws' ht' with ⟨hspan, heq⟩ | ⟨hnil, -, hlt⟩
        · have := hws'.length_le heq
          rw [← hrest] at this
          rw [← hspan]
          omega
        · rw [hnil, List.length_nil]
          omega
      · obtain ⟨-, x, hx, rfl⟩ := o.zero hpre
        rw [o.split, List.append_assoc] at hz
        have hnil := hws'.eq_nil hx (List.cons.inj hz).2
        rw [hnil]
        simp only [List.length_cons, List.length_nil]
        omega

end Literals

end MacRuby
