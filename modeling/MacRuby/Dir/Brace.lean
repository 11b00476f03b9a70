import MacRuby.Dir.Fnmatch

/-!
# Braces

`ruby_brace_expand` looks for the first group in braces, puts each of its alternatives in its place
and expands what comes out. A pattern is read here as a tree, and the function is called on the
strings that the tree stands for.

## Main definitions

* `scanBraces`, `scanAlternative`, `rubyBraceExpand`, `alternativesLoop` — the function.
* `Pattern`, `Alternatives` — a pattern as a tree, and the strings it stands for.
* `balanced` — the patterns whose braces are balanced.

## Main results

* `rubyBraceExpand_text` — the function is called on the strings of the tree, in their order.
* `exists_pattern` — a balanced string is the text of a tree.
* `rubyBraceExpand_balanced` — both, for a string.
-/

namespace MacRuby.Dir

/-! ## The function -/

/-- The loop that looks for `lbrace` and `rbrace`, from place `i` on. -/
def scanBraces (escape : Bool) :
    List UInt8 → (i : ℕ) → (nest : ℤ) → (lbrace : Option ℕ) → Option ℕ × Option ℕ
  | [], _, _, lbrace => (lbrace, none)
  | c :: p, i, nest, lbrace =>
      if c = 123 then scanBraces escape p (i + 1) (nest + 1) (if nest = 0 then some i else lbrace)
      else if c = 125 then
        if nest - 1 ≤ 0 then (lbrace, some i) else scanBraces escape p (i + 1) (nest - 1) lbrace
      else if c = 92 ∧ escape then
        match p with
        | [] => (lbrace, none)
        | _ :: p => scanBraces escape p (i + 2) nest lbrace
      else scanBraces escape p (i + 1) nest lbrace

attribute [grind =] scanBraces

/-- The loop that looks for the end of an alternative: its length. -/
def scanAlternative (escape : Bool) : List UInt8 → (nest : ℤ) → ℕ
  | [], _ => 0
  | c :: p, nest =>
      if c = 44 ∧ nest = 0 then 0
      else if c = 123 then scanAlternative escape p (nest + 1) + 1
      else if c = 125 then scanAlternative escape p (nest - 1) + 1
      else if c = 92 ∧ escape then
        match p with
        | [] => 1
        | _ :: p => scanAlternative escape p nest + 2
      else scanAlternative escape p nest + 1
termination_by p => p.length

theorem scanBraces_bounds {escape : Bool} {p : List UInt8} {i : ℕ} {nest : ℤ} {lbrace : Option ℕ}
    {l r : ℕ} (hl : ∀ m ∈ lbrace, m < i)
    (h : scanBraces escape p i nest lbrace = (some l, some r)) :
    l < r ∧ r < i + p.length := by
  fun_induction scanBraces escape p i nest lbrace with
  | case1 => cases h
  | case2 p i nest lbrace ih =>
      have hl' : ∀ m ∈ (if nest = 0 then some i else lbrace), m < i + 1 := by
        intro m hm
        split_ifs at hm
        · cases hm
          omega
        · have := hl m hm
          omega
      have := ih hl' h
      rw [List.length_cons]
      omega
  | case3 p i nest lbrace _ hnest =>
      cases h
      have := hl l rfl
      simp
      omega
  | case4 p i nest lbrace _ hnest ih =>
      have := ih (fun m hm => by have := hl m hm; omega) h
      rw [List.length_cons]
      omega
  | case5 => cases h
  | case6 c i nest lbrace _ _ hesc d p ih =>
      have := ih (fun m hm => by have := hl m hm; omega) h
      rw [List.length_cons, List.length_cons]
      omega
  | case7 c p i nest lbrace _ _ _ ih =>
      have := ih (fun m hm => by have := hl m hm; omega) h
      rw [List.length_cons]
      omega

variable {σ : Type}

mutual

/-- `ruby_brace_expand(str, flags, func, arg)`: the status, and the state that the calls of `func`
lead to. -/
def rubyBraceExpand (escape : Bool) (func : List UInt8 → σ → ℤ × σ) (str : List UInt8) (s : σ) :
    ℤ × σ :=
  match _h : scanBraces escape str 0 0 none with
  | (some l, some r) =>
      alternativesLoop escape func (str.take l) ((str.drop (l + 1)).take (r - (l + 1)))
        (str.drop (r + 1)) s
  | (none, none) => func str s
  | _ => (0, s)
termination_by (str.length, 0)
decreasing_by
  have hlt := scanBraces_bounds (by simp) _h
  simp only [List.length_take, List.length_drop]
  apply Prod.Lex.left
  omega

/-- The loop over the alternatives; `body` is what is left of the group. -/
def alternativesLoop (escape : Bool) (func : List UInt8 → σ → ℤ × σ) (front body back : List UInt8)
    (s : σ) : ℤ × σ :=
  let n := scanAlternative escape body 0
  let r := rubyBraceExpand escape func (front ++ (body.take n ++ back)) s
  if r.1 ≠ 0 then r
  else
    match _h : body.drop n with
    | [] => r
    | _ :: body => alternativesLoop escape func front body back r.2
termination_by (front.length + body.length + back.length, 1)
decreasing_by
  · simp only [List.length_append, List.length_take]
    rcases Nat.lt_or_ge (scanAlternative escape body 0) body.length with hlt | hge
    · apply Prod.Lex.left
      omega
    · rw [show front.length + (min (scanAlternative escape body 0) body.length + back.length) =
        front.length + body.length + back.length by omega]
      exact Prod.Lex.right _ (by omega)
  · have hlen := congrArg List.length _h
    rw [List.length_drop, List.length_cons] at hlen
    apply Prod.Lex.left
    omega

end

/-! ## Patterns -/

mutual

/-- A pattern: bytes, escaped bytes and groups. -/
inductive Pattern where
  | nil
  | unit (u : List UInt8) (rest : Pattern)
  | group (alts : Alternatives) (rest : Pattern)

/-- The alternatives of a group. -/
inductive Alternatives where
  | last (alt : Pattern)
  | more (alt : Pattern) (alts : Alternatives)

end

mutual

/-- A pattern as it is written. -/
def Pattern.text : Pattern → List UInt8
  | .nil => []
  | .unit u rest => u ++ rest.text
  | .group alts rest => 123 :: (alts.text ++ 125 :: rest.text)

/-- Alternatives as they are written, with commas between them. -/
def Alternatives.text : Alternatives → List UInt8
  | .last alt => alt.text
  | .more alt alts => alt.text ++ 44 :: alts.text

end

mutual

/-- The strings that a pattern stands for: each string of a group, followed by each string of the
rest. -/
def Pattern.expansions : Pattern → List (List UInt8)
  | .nil => [[]]
  | .unit u rest => rest.expansions.map (u ++ ·)
  | .group alts rest => alts.expansions.flatMap fun x => rest.expansions.map (x ++ ·)

/-- The strings of the alternatives, one alternative after the other. -/
def Alternatives.expansions : Alternatives → List (List UInt8)
  | .last alt => alt.expansions
  | .more alt alts => alt.expansions ++ alts.expansions

end

/-- A byte that is no brace, or an escaped byte. -/
def IsUnit (escape : Bool) (u : List UInt8) : Prop :=
  (∃ c, u = [c] ∧ c ≠ 123 ∧ c ≠ 125 ∧ ¬ (c = 92 ∧ escape)) ∨ ∃ c, u = [92, c] ∧ escape

mutual

/-- A pattern in which the units are units. There is no comma between the groups of an alternative,
and an escape character that escapes nothing is at the end of a pattern that is no alternative. -/
def Pattern.Ok (escape inner : Bool) : Pattern → Prop
  | .nil => True
  | .unit u rest =>
      (IsUnit escape u ∧ (inner → u ≠ [44]) ∧ rest.Ok escape inner) ∨
        (inner = false ∧ escape = true ∧ u = [92] ∧ rest = .nil)
  | .group alts rest => alts.Ok escape ∧ rest.Ok escape inner

/-- Alternatives in which the units are units. -/
def Alternatives.Ok (escape : Bool) : Alternatives → Prop
  | .last alt => alt.Ok escape true
  | .more alt alts => alt.Ok escape true ∧ alts.Ok escape

end

/-- Calling the function on one string after the other, as long as it returns 0. -/
def callAll (func : List UInt8 → σ → ℤ × σ) : List (List UInt8) → σ → ℤ × σ
  | [], s => (0, s)
  | x :: xs, s => if (func x s).1 ≠ 0 then func x s else callAll func xs (func x s).2

/-- The braces that are not escaped are balanced, when `depth` groups are open. -/
def balanced (escape : Bool) : List UInt8 → (depth : ℕ) → Bool
  | [], depth => depth == 0
  | c :: p, depth =>
      if c = 123 then balanced escape p (depth + 1)
      else if c = 125 then depth != 0 && balanced escape p (depth - 1)
      else if c = 92 ∧ escape then
        match p with
        | [] => depth == 0
        | _ :: p => balanced escape p depth
      else balanced escape p depth

/-- There is no brace that is not escaped. -/
def unbraced (escape : Bool) : List UInt8 → Bool
  | [] => true
  | c :: p =>
      if c = 123 ∨ c = 125 then false
      else if c = 92 ∧ escape then
        match p with
        | [] => true
        | _ :: p => unbraced escape p
      else unbraced escape p

attribute [grind =] balanced unbraced

/-! ## Passing over units -/

section Units

variable {escape : Bool} {u : List UInt8}

theorem scanBraces_unit (h : IsUnit escape u) (p : List UInt8) (i : ℕ) (nest : ℤ)
    (lbrace : Option ℕ) :
    scanBraces escape (u ++ p) i nest lbrace = scanBraces escape p (i + u.length) nest lbrace := by
  rcases h with ⟨c, rfl, hopen, hclose, hesc⟩ | ⟨c, rfl, rfl⟩
  · rw [List.singleton_append, scanBraces.eq_def]
    simp only [if_neg hopen, if_neg hclose, if_neg hesc]
    rfl
  · rw [scanBraces.eq_def]
    simp

theorem scanAlternative_unit (h : IsUnit escape u) (p : List UInt8) {nest : ℤ}
    (hcomma : nest = 0 → u ≠ [44]) :
    scanAlternative escape (u ++ p) nest = scanAlternative escape p nest + u.length := by
  rcases h with ⟨c, rfl, hopen, hclose, hesc⟩ | ⟨c, rfl, rfl⟩
  · have hsep : ¬ (c = 44 ∧ nest = 0) := by
      rintro ⟨rfl, hnest⟩
      exact hcomma hnest rfl
    rw [List.singleton_append, scanAlternative.eq_def]
    simp only [if_neg hsep, if_neg hopen, if_neg hclose, if_neg hesc]
    rfl
  · rw [scanAlternative.eq_def]
    simp

theorem unbraced_unit (h : IsUnit escape u) (p : List UInt8) :
    unbraced escape (u ++ p) = unbraced escape p := by
  rcases h with ⟨c, rfl, hopen, hclose, hesc⟩ | ⟨c, rfl, rfl⟩
  · rw [List.singleton_append, unbraced.eq_def]
    simp [hopen, hclose, hesc]
  · rw [unbraced.eq_def]
    simp

/-- A comma is passed over like any other byte. -/
theorem isUnit_comma : IsUnit escape [44] := .inl ⟨44, rfl, by decide, by decide, by simp⟩

end Units

/-! ## Passing over braces -/

section Braces

variable {escape : Bool} (p : List UInt8) (i : ℕ) (nest : ℤ) (lbrace : Option ℕ)

theorem scanBraces_open : scanBraces escape (123 :: p) i nest lbrace =
    scanBraces escape p (i + 1) (nest + 1) (if nest = 0 then some i else lbrace) := by
  rw [scanBraces.eq_def]
  simp

theorem scanBraces_close : scanBraces escape (125 :: p) i nest lbrace =
    if nest - 1 ≤ 0 then (lbrace, some i) else scanBraces escape p (i + 1) (nest - 1) lbrace := by
  rw [scanBraces.eq_def]
  simp

theorem scanAlternative_open :
    scanAlternative escape (123 :: p) nest = scanAlternative escape p (nest + 1) + 1 := by
  rw [scanAlternative.eq_def]
  simp

theorem scanAlternative_close :
    scanAlternative escape (125 :: p) nest = scanAlternative escape p (nest - 1) + 1 := by
  rw [scanAlternative.eq_def]
  simp

end Braces

/-! ## Passing over patterns -/

section Groups

variable {escape : Bool}

mutual

/-- Inside a group the search for `rbrace` passes over a pattern. -/
theorem scanBraces_pattern (pat : Pattern) (h : pat.Ok escape true) (p : List UInt8) (i : ℕ)
    {nest : ℤ} (hnest : 1 ≤ nest) (lbrace : Option ℕ) :
    scanBraces escape (pat.text ++ p) i nest lbrace =
      scanBraces escape p (i + pat.text.length) nest lbrace := by
  cases pat with
  | nil => rfl
  | unit u rest =>
      simp only [Pattern.Ok, Bool.true_eq_false, false_and, or_false] at h
      rw [Pattern.text, List.append_assoc, scanBraces_unit h.1,
        scanBraces_pattern rest h.2.2 p _ hnest, List.length_append, Nat.add_assoc]
  | group alts rest =>
      rw [Pattern.Ok] at h
      rw [Pattern.text, List.cons_append, List.append_assoc, scanBraces_open, if_neg (by omega),
        scanBraces_alternatives alts h.1 _ _ (by omega), List.cons_append, scanBraces_close,
        if_neg (by omega), Int.add_sub_cancel, scanBraces_pattern rest h.2 p _ hnest]
      congr 1
      simp
      omega

/-- Inside a group the search for `rbrace` passes over the alternatives of another one. -/
theorem scanBraces_alternatives (alts : Alternatives) (h : alts.Ok escape) (p : List UInt8) (i : ℕ)
    {nest : ℤ} (hnest : 1 ≤ nest) (lbrace : Option ℕ) :
    scanBraces escape (alts.text ++ p) i nest lbrace =
      scanBraces escape p (i + alts.text.length) nest lbrace := by
  cases alts with
  | last alt => exact scanBraces_pattern alt h p i hnest lbrace
  | more alt alts =>
      rw [Alternatives.Ok] at h
      rw [Alternatives.text, List.append_assoc, scanBraces_pattern alt h.1 _ _ hnest,
        List.cons_append, ← List.singleton_append, scanBraces_unit isUnit_comma,
        scanBraces_alternatives alts h.2 p _ hnest]
      congr 1
      simp
      omega

end

mutual

/-- The search for the end of an alternative passes over a pattern. -/
theorem scanAlternative_pattern (pat : Pattern) (h : pat.Ok escape true) (p : List UInt8) {nest : ℤ}
    (hnest : 0 ≤ nest) :
    scanAlternative escape (pat.text ++ p) nest =
      scanAlternative escape p nest + pat.text.length := by
  cases pat with
  | nil => rfl
  | unit u rest =>
      simp only [Pattern.Ok, Bool.true_eq_false, false_and, or_false] at h
      rw [Pattern.text, List.append_assoc, scanAlternative_unit h.1 _ fun _ => h.2.1 trivial,
        scanAlternative_pattern rest h.2.2 p hnest, List.length_append]
      omega
  | group alts rest =>
      rw [Pattern.Ok] at h
      rw [Pattern.text, List.cons_append, List.append_assoc, scanAlternative_open,
        scanAlternative_alternatives alts h.1 _ (by omega), List.cons_append,
        scanAlternative_close, Int.add_sub_cancel, scanAlternative_pattern rest h.2 p hnest]
      simp
      omega

/-- The search for the end of an alternative passes over a group in it. -/
theorem scanAlternative_alternatives (alts : Alternatives) (h : alts.Ok escape) (p : List UInt8)
    {nest : ℤ} (hnest : 1 ≤ nest) :
    scanAlternative escape (alts.text ++ p) nest =
      scanAlternative escape p nest + alts.text.length := by
  cases alts with
  | last alt => exact scanAlternative_pattern alt h p (by omega)
  | more alt alts =>
      rw [Alternatives.Ok] at h
      rw [Alternatives.text, List.append_assoc, scanAlternative_pattern alt h.1 _ (by omega),
        List.cons_append, ← List.singleton_append, scanAlternative_unit isUnit_comma _ (by omega),
        scanAlternative_alternatives alts h.2 p hnest]
      simp
      omega

end

end Groups

/-! ## Replacing a group -/

/-- A pattern, and another one after it. -/
def Pattern.append : Pattern → Pattern → Pattern
  | .nil, q => q
  | .unit u rest, q => .unit u (rest.append q)
  | .group alts rest, q => .group alts (rest.append q)

attribute [grind =] Pattern.append

/-- Units in front of a pattern. -/
def Pattern.prepend (us : List (List UInt8)) (q : Pattern) : Pattern := us.foldr .unit q

section Append

variable {escape : Bool}

theorem Pattern.text_append (p q : Pattern) : (p.append q).text = p.text ++ q.text := by
  fun_induction Pattern.append p q with
  | case1 q => rfl
  | case2 u rest q ih => rw [Pattern.text, ih, Pattern.text, List.append_assoc]
  | case3 alts rest q ih =>
      rw [Pattern.text, ih, Pattern.text, List.cons_append, List.append_assoc, List.cons_append]

theorem Pattern.expansions_append (p q : Pattern) :
    (p.append q).expansions = p.expansions.flatMap fun x => q.expansions.map (x ++ ·) := by
  fun_induction Pattern.append p q with
  | case1 q => simp [Pattern.expansions]
  | case2 u rest q ih =>
      rw [Pattern.expansions, ih, Pattern.expansions, List.map_flatMap, List.flatMap_map]
      simp [Function.comp_def]
  | case3 alts rest q ih =>
      rw [Pattern.expansions, ih, Pattern.expansions, List.flatMap_assoc]
      simp [List.map_flatMap, List.flatMap_map, Function.comp_def]

theorem Pattern.ok_append {p q : Pattern} (hp : p.Ok escape true) (hq : q.Ok escape false) :
    (p.append q).Ok escape false := by
  fun_induction Pattern.append p q with
  | case1 q => exact hq
  | case2 u rest q ih =>
      simp only [Pattern.Ok, Bool.true_eq_false, false_and, or_false] at hp
      exact .inl ⟨hp.1, by simp, ih hp.2.2 hq⟩
  | case3 alts rest q ih =>
      rw [Pattern.Ok] at hp
      exact ⟨hp.1, ih hp.2 hq⟩

theorem Pattern.text_prepend (us : List (List UInt8)) (q : Pattern) :
    (Pattern.prepend us q).text = us.flatten ++ q.text := by
  induction us with
  | nil => rfl
  | cons u us ih =>
      rw [Pattern.prepend, List.foldr_cons, Pattern.text, ← Pattern.prepend, ih,
        List.flatten_cons, List.append_assoc]

theorem Pattern.expansions_prepend (us : List (List UInt8)) (q : Pattern) :
    (Pattern.prepend us q).expansions = q.expansions.map (us.flatten ++ ·) := by
  induction us with
  | nil => simp [Pattern.prepend]
  | cons u us ih =>
      rw [Pattern.prepend, List.foldr_cons, Pattern.expansions, ← Pattern.prepend, ih]
      simp [Function.comp_def]

theorem Pattern.ok_prepend {us : List (List UInt8)} {q : Pattern}
    (hus : ∀ u ∈ us, IsUnit escape u) (hq : q.Ok escape false) :
    (Pattern.prepend us q).Ok escape false := by
  induction us with
  | nil => exact hq
  | cons u us ih =>
      rw [List.forall_mem_cons] at hus
      exact .inl ⟨hus.1, by simp, ih hus.2⟩

/-- A pattern begins with units, and then it ends or there is a group. -/
theorem Pattern.exists_prepend (pat : Pattern) (h : pat.Ok escape false) :
    ∃ us, (∀ u ∈ us, IsUnit escape u) ∧
      (pat = Pattern.prepend us .nil ∨
        (escape = true ∧ pat = Pattern.prepend us (.unit [92] .nil)) ∨
        ∃ alts rest, pat = Pattern.prepend us (.group alts rest) ∧ alts.Ok escape ∧
          rest.Ok escape false) := by
  cases pat with
  | nil => exact ⟨[], by simp, .inl rfl⟩
  | unit u rest =>
      rw [Pattern.Ok] at h
      rcases h with ⟨hu, -, hrest⟩ | ⟨-, hesc, rfl, rfl⟩
      · obtain ⟨us, hus, heq⟩ := rest.exists_prepend hrest
        refine ⟨u :: us, by simpa [hu] using hus, ?_⟩
        rcases heq with rfl | ⟨hesc, rfl⟩ | ⟨alts, rest, rfl, halts, hrest⟩
        · exact .inl rfl
        · exact .inr (.inl ⟨hesc, rfl⟩)
        · exact .inr (.inr ⟨alts, rest, rfl, halts, hrest⟩)
      · exact ⟨[], by simp, .inr (.inl ⟨hesc, rfl⟩)⟩
  | group alts rest =>
      rw [Pattern.Ok] at h
      exact ⟨[], by simp, .inr (.inr ⟨alts, rest, rfl, h⟩)⟩

end Append

/-! ## The calls -/

section Calls

variable {escape : Bool} {func : List UInt8 → σ → ℤ × σ}

theorem callAll_append (xs ys : List (List UInt8)) (s : σ) :
    callAll func (xs ++ ys) s =
      if (callAll func xs s).1 ≠ 0 then callAll func xs s
      else callAll func ys (callAll func xs s).2 := by
  induction xs generalizing s with
  | nil => rfl
  | cons x xs ih =>
      rw [List.cons_append, callAll, callAll]
      split
      case isTrue => rfl
      case isFalse => exact ih _

theorem callAll_singleton (x : List UInt8) (s : σ) : callAll func [x] s = func x s := by
  rw [callAll]
  split
  case isTrue => rfl
  case isFalse hzero =>
    rw [callAll]
    rw [Ne, not_not] at hzero
    exact Prod.ext hzero.symm rfl

/-- Units are passed over by the search for `lbrace`. -/
theorem scanBraces_units {us : List (List UInt8)} (hus : ∀ u ∈ us, IsUnit escape u)
    (p : List UInt8) (i : ℕ) (nest : ℤ) (lbrace : Option ℕ) :
    scanBraces escape (us.flatten ++ p) i nest lbrace =
      scanBraces escape p (i + us.flatten.length) nest lbrace := by
  induction us generalizing i with
  | nil => rfl
  | cons u us ih =>
      rw [List.forall_mem_cons] at hus
      rw [List.flatten_cons, List.append_assoc, scanBraces_unit hus.1, ih hus.2, List.length_append,
        Nat.add_assoc]

/-- Where a group is found. -/
theorem rubyBraceExpand_group {front back : List UInt8} {alts : Alternatives}
    (halts : alts.Ok escape)
    (hfront : ∀ p, scanBraces escape (front ++ p) 0 0 none =
      scanBraces escape p front.length 0 none) (s : σ) :
    rubyBraceExpand escape func (front ++ 123 :: (alts.text ++ 125 :: back)) s =
      alternativesLoop escape func front alts.text back s := by
  have hscan : scanBraces escape (front ++ 123 :: (alts.text ++ 125 :: back)) 0 0 none =
      (some front.length, some (front.length + 1 + alts.text.length)) := by
    rw [hfront, scanBraces_open, if_pos rfl, scanBraces_alternatives alts halts _ _ (by omega),
      scanBraces_close, if_pos (by omega)]
  have hdrop : (front ++ 123 :: (alts.text ++ 125 :: back)).drop (front.length + 1) =
      alts.text ++ 125 :: back := by
    rw [← List.drop_drop, List.drop_left]
    rfl
  rw [rubyBraceExpand.eq_def]
  split
  case h_1 l r heq =>
    rw [hscan] at heq
    cases heq
    rw [List.take_left, hdrop, Nat.add_sub_cancel_left, List.take_left,
      show front.length + 1 + alts.text.length + 1
        = front.length + 1 + (alts.text.length + 1) by omega,
      ← List.drop_drop, hdrop, ← List.drop_drop, List.drop_left]
    rfl
  case h_2 heq =>
    rw [hscan] at heq
    cases heq
  case h_3 hne _ => exact absurd hscan (hne _ _)

/-- Without braces the function is called on the pattern itself. -/
theorem rubyBraceExpand_plain {str : List UInt8} (h : scanBraces escape str 0 0 none = (none, none))
    (s : σ) : rubyBraceExpand escape func str s = func str s := by
  rw [rubyBraceExpand.eq_def]
  split
  case h_1 heq =>
    rw [h] at heq
    cases heq
  case h_2 => rfl
  case h_3 _ hne => exact absurd h hne

/-- The strings of a pattern whose first group is replaced by one of its alternatives. -/
theorem expansions_replaced (us : List (List UInt8)) (alt rest : Pattern) :
    (Pattern.prepend us (alt.append rest)).expansions =
      (alt.expansions.flatMap fun x => rest.expansions.map (x ++ ·)).map (us.flatten ++ ·) := by
  rw [Pattern.expansions_prepend, Pattern.expansions_append]

theorem scanAlternative_comma (p : List UInt8) : scanAlternative escape (44 :: p) 0 = 0 := by
  rw [scanAlternative.eq_def]
  simp

/-- The turn of the loop for the last alternative. -/
theorem alternativesLoop_last (front back : List UInt8) {alt : List UInt8}
    (h : scanAlternative escape alt 0 = alt.length) (s : σ) :
    alternativesLoop escape func front alt back s =
      rubyBraceExpand escape func (front ++ (alt ++ back)) s := by
  rw [alternativesLoop.eq_def]
  simp only [h, List.take_length]
  split
  · rfl
  · split
    case h_1 => rfl
    case h_2 c body heq =>
      rw [h, List.drop_length] at heq
      cases heq

/-- The turn of the loop for an alternative with a comma after it. -/
theorem alternativesLoop_more (front back body : List UInt8) {alt : List UInt8}
    (h : scanAlternative escape (alt ++ 44 :: body) 0 = alt.length) (s : σ) :
    alternativesLoop escape func front (alt ++ 44 :: body) back s =
      let r := rubyBraceExpand escape func (front ++ (alt ++ back)) s
      if r.1 ≠ 0 then r else alternativesLoop escape func front body back r.2 := by
  rw [alternativesLoop.eq_def]
  simp only [h, List.take_left]
  split
  · rfl
  · split
    case h_1 heq =>
      rw [h, List.drop_left] at heq
      cases heq
    case h_2 c body' heq =>
      rw [h, List.drop_left] at heq
      cases heq
      rfl

/-- **The loop over the alternatives makes the calls of one alternative after the other**, when
each of them makes its own. -/
theorem alternativesLoop_text (us : List (List UInt8)) (rest : Pattern) (alts : Alternatives)
    (halts : alts.Ok escape)
    (ih : ∀ alt : Pattern, alt.Ok escape true → alt.text.length ≤ alts.text.length → ∀ s,
      rubyBraceExpand escape func (us.flatten ++ (alt.text ++ rest.text)) s =
        callAll func (Pattern.prepend us (alt.append rest)).expansions s) (s : σ) :
    alternativesLoop escape func us.flatten alts.text rest.text s =
      callAll func (Pattern.prepend us (.group alts rest)).expansions s := by
  rw [Pattern.expansions_prepend, Pattern.expansions]
  cases alts with
  | last alt =>
      have hlen : scanAlternative escape alt.text 0 = alt.text.length := by
        have h := scanAlternative_pattern alt halts [] (Int.le_refl 0)
        rwa [List.append_nil, scanAlternative, Nat.zero_add] at h
      rw [Alternatives.text, Alternatives.expansions, alternativesLoop_last _ _ hlen,
        ih alt halts (Nat.le_refl _), expansions_replaced]
  | more alt alts =>
      rw [Alternatives.Ok] at halts
      have hlen : scanAlternative escape (alt.text ++ 44 :: alts.text) 0 = alt.text.length := by
        rw [scanAlternative_pattern alt halts.1 _ (Int.le_refl 0), scanAlternative_comma,
          Nat.zero_add]
      have hrest := alternativesLoop_text us rest alts halts.2 fun alt' hok hle =>
        ih alt' hok (by simp [Alternatives.text]; omega)
      rw [Alternatives.text, Alternatives.expansions, alternativesLoop_more _ _ _ hlen,
        ih alt halts.1 (by simp [Alternatives.text]), List.flatMap_append, List.map_append,
        callAll_append, ← expansions_replaced]
      simp only [hrest, Pattern.expansions_prepend, Pattern.expansions]

/-- **The function is called on the strings that a pattern stands for**, in their order. -/
theorem rubyBraceExpand_text (pat : Pattern) (h : pat.Ok escape false) (s : σ) :
    rubyBraceExpand escape func pat.text s = callAll func pat.expansions s := by
  -- on the length of the pattern: the braces of a group that is replaced are gone
  induction hn : pat.text.length using Nat.strongRecOn generalizing pat s with
  | ind n ih =>
      obtain ⟨us, hus, hcases⟩ := pat.exists_prepend h
      rcases hcases with rfl | ⟨rfl, rfl⟩ | ⟨alts, rest, rfl, halts, hrest⟩
      · rw [Pattern.text_prepend, Pattern.expansions_prepend,
          rubyBraceExpand_plain (by rw [scanBraces_units hus]; rfl)]
        simp [Pattern.expansions, Pattern.text, callAll_singleton]
      · have hlone : scanBraces true [92] us.flatten.length 0 none = (none, none) := by
          rw [scanBraces.eq_def]
          simp
        rw [Pattern.text_prepend, Pattern.expansions_prepend,
          rubyBraceExpand_plain (by rw [scanBraces_units hus, Nat.zero_add]; exact hlone)]
        simp [Pattern.expansions, Pattern.text, callAll_singleton]
      · have hfront : ∀ p, scanBraces escape (us.flatten ++ p) 0 0 none =
            scanBraces escape p us.flatten.length 0 none := by
          intro p
          rw [scanBraces_units hus, Nat.zero_add]
        rw [Pattern.text_prepend, Pattern.text, rubyBraceExpand_group halts hfront]
        refine alternativesLoop_text us rest alts halts (fun alt halt hle s => ?_) s
        rw [Pattern.text_prepend, Pattern.text] at hn
        rw [← Pattern.text_append, ← Pattern.text_prepend]
        refine ih _ ?_ _ (Pattern.ok_prepend hus (Pattern.ok_append halt hrest)) s rfl
        rw [Pattern.text_prepend, Pattern.text_append]
        simp at hn ⊢
        omega

end Calls

/-! ## The strings have no braces -/

section Unbraced

variable {escape : Bool}

mutual

/-- The strings of an alternative have no braces. -/
theorem Pattern.unbraced_append (pat : Pattern) (h : pat.Ok escape true) {x : List UInt8}
    (hx : x ∈ pat.expansions) (p : List UInt8) : unbraced escape (x ++ p) = unbraced escape p := by
  cases pat with
  | nil =>
      obtain rfl : x = [] := by simpa [Pattern.expansions] using hx
      rfl
  | unit u rest =>
      simp only [Pattern.Ok, Bool.true_eq_false, false_and, or_false] at h
      rw [Pattern.expansions, List.mem_map] at hx
      obtain ⟨y, hy, rfl⟩ := hx
      rw [List.append_assoc, unbraced_unit h.1, rest.unbraced_append h.2.2 hy]
  | group alts rest =>
      rw [Pattern.Ok] at h
      simp only [Pattern.expansions, List.mem_flatMap, List.mem_map] at hx
      obtain ⟨y, hy, z, hz, rfl⟩ := hx
      rw [List.append_assoc, alts.unbraced_append h.1 hy, rest.unbraced_append h.2 hz]

theorem Alternatives.unbraced_append (alts : Alternatives) (h : alts.Ok escape) {x : List UInt8}
    (hx : x ∈ alts.expansions) (p : List UInt8) : unbraced escape (x ++ p) = unbraced escape p := by
  cases alts with
  | last alt => exact alt.unbraced_append h hx p
  | more alt alts =>
      rw [Alternatives.Ok] at h
      rw [Alternatives.expansions, List.mem_append] at hx
      rcases hx with hx | hx
      · exact alt.unbraced_append h.1 hx p
      · exact alts.unbraced_append h.2 hx p

end

/-- **The strings of a pattern have no braces.** -/
theorem Pattern.unbraced_of_mem (pat : Pattern) (h : pat.Ok escape false) {x : List UInt8}
    (hx : x ∈ pat.expansions) : unbraced escape x = true := by
  cases pat with
  | nil =>
      obtain rfl : x = [] := by simpa [Pattern.expansions] using hx
      rfl
  | unit u rest =>
      rw [Pattern.expansions, List.mem_map] at hx
      obtain ⟨y, hy, rfl⟩ := hx
      rw [Pattern.Ok] at h
      rcases h with ⟨hu, -, hrest⟩ | ⟨-, rfl, rfl, rfl⟩
      · rw [unbraced_unit hu]
        exact rest.unbraced_of_mem hrest hy
      · obtain rfl : y = [] := by simpa [Pattern.expansions] using hy
        rfl
  | group alts rest =>
      rw [Pattern.Ok] at h
      simp only [Pattern.expansions, List.mem_flatMap, List.mem_map] at hx
      obtain ⟨y, hy, z, hz, rfl⟩ := hx
      rw [alts.unbraced_append h.1 hy]
      exact rest.unbraced_of_mem h.2 hz

end Unbraced

/-! ## Reading a pattern -/

section Reading

variable {escape : Bool}

/-- What a string begins with. -/
theorem exists_head (escape : Bool) {p : List UInt8} (h : p ≠ []) :
    (∃ q, p = 123 :: q) ∨ (∃ q, p = 125 :: q) ∨ (∃ u q, IsUnit escape u ∧ p = u ++ q) ∨
      escape = true ∧ p = [92] := by
  cases p with
  | nil => exact absurd rfl h
  | cons c q =>
      by_cases hopen : c = 123
      · exact .inl ⟨q, by rw [hopen]⟩
      by_cases hclose : c = 125
      · exact .inr (.inl ⟨q, by rw [hclose]⟩)
      by_cases hesc : c = 92 ∧ escape
      · cases q with
        | nil => exact .inr (.inr (.inr ⟨hesc.2, by rw [hesc.1]⟩))
        | cons d q =>
            exact .inr (.inr (.inl ⟨[92, d], q, .inr ⟨d, rfl, hesc.2⟩, by rw [hesc.1]; rfl⟩))
      · exact .inr (.inr (.inl ⟨[c], q, .inl ⟨c, rfl, hopen, hclose, hesc⟩, rfl⟩))

theorem balanced_open (p : List UInt8) (depth : ℕ) :
    balanced escape (123 :: p) depth = balanced escape p (depth + 1) := by
  rw [balanced.eq_def]
  simp

theorem balanced_close (p : List UInt8) (depth : ℕ) :
    balanced escape (125 :: p) depth = (depth != 0 && balanced escape p (depth - 1)) := by
  rw [balanced.eq_def]
  simp

theorem balanced_unit {u : List UInt8} (h : IsUnit escape u) (p : List UInt8) (depth : ℕ) :
    balanced escape (u ++ p) depth = balanced escape p depth := by
  rcases h with ⟨c, rfl, hopen, hclose, hesc⟩ | ⟨c, rfl, rfl⟩
  · rw [List.singleton_append, balanced.eq_def]
    simp [hopen, hclose, hesc]
  · rw [balanced.eq_def]
    simp

/-- Something in front of the first alternative. -/
def Alternatives.inFront (f : Pattern → Pattern) : Alternatives → Alternatives
  | .last alt => .last (f alt)
  | .more alt alts => .more (f alt) alts

theorem Alternatives.text_inFront {f : Pattern → Pattern} {t : List UInt8}
    (hf : ∀ pat, (f pat).text = t ++ pat.text) (alts : Alternatives) :
    (alts.inFront f).text = t ++ alts.text := by
  cases alts with
  | last alt => exact hf alt
  | more alt alts =>
      rw [Alternatives.inFront, Alternatives.text, hf, Alternatives.text, List.append_assoc]

theorem Alternatives.ok_inFront {f : Pattern → Pattern}
    (hf : ∀ pat, pat.Ok escape true → (f pat).Ok escape true) {alts : Alternatives}
    (h : alts.Ok escape) : (alts.inFront f).Ok escape := by
  cases alts with
  | last alt => exact hf alt h
  | more alt alts =>
      rw [Alternatives.Ok] at h
      exact ⟨hf alt h.1, h.2⟩

/-- **Inside a group a balanced string begins with alternatives and a closing brace.** -/
theorem exists_alternatives (p : List UInt8) (depth : ℕ)
    (h : balanced escape p (depth + 1) = true) :
    ∃ (alts : Alternatives) (q : List UInt8), p = alts.text ++ 125 :: q ∧ alts.Ok escape ∧
      balanced escape q depth = true := by
  induction hn : p.length using Nat.strongRecOn generalizing p depth with
  | ind n ih =>
      have hne : p ≠ [] := by
        rintro rfl
        simp [balanced] at h
      rcases exists_head escape hne with ⟨q, rfl⟩ | ⟨q, rfl⟩ | ⟨u, q, hu, rfl⟩ | ⟨rfl, rfl⟩
      · -- another group first, and the alternatives go on behind it
        rw [balanced_open] at h
        obtain ⟨inner, q₁, rfl, hinner, h₁⟩ := ih q.length (by simp at hn; omega) q (depth + 1) h
          rfl
        obtain ⟨alts, q₂, rfl, halts, h₂⟩ := ih q₁.length (by simp at hn; omega) q₁ depth h₁ rfl
        refine ⟨alts.inFront (.group inner), q₂, ?_, ?_, h₂⟩
        · rw [Alternatives.text_inFront (t := 123 :: (inner.text ++ [125]))
            (by simp [Pattern.text])]
          simp
        · refine Alternatives.ok_inFront (fun pat hpat => ?_) halts
          rw [Pattern.Ok]
          exact ⟨hinner, hpat⟩
      · rw [balanced_close, Nat.add_sub_cancel] at h
        exact ⟨.last .nil, q, rfl, trivial, by simpa using h⟩
      · rw [balanced_unit hu] at h
        have hpos : 0 < u.length := by
          rcases hu with ⟨c, rfl, -⟩ | ⟨c, rfl, -⟩ <;> simp
        obtain ⟨alts, q', rfl, halts, h'⟩ :=
          ih q.length (by rw [List.length_append] at hn; omega) q depth h rfl
        by_cases hcomma : u = [44]
        · subst hcomma
          exact ⟨.more .nil alts, q', rfl, ⟨trivial, halts⟩, h'⟩
        · refine ⟨alts.inFront (.unit u), q', ?_, ?_, h'⟩
          · rw [Alternatives.text_inFront (t := u) (fun pat => rfl), List.append_assoc]
          · refine Alternatives.ok_inFront (fun pat hpat => ?_) halts
            rw [Pattern.Ok]
            exact .inl ⟨hu, fun _ => hcomma, hpat⟩
      · simp [balanced] at h

/-- **A balanced string is the text of a pattern.** -/
theorem exists_pattern (p : List UInt8) (h : balanced escape p 0 = true) :
    ∃ pat : Pattern, pat.text = p ∧ pat.Ok escape false := by
  induction hn : p.length using Nat.strongRecOn generalizing p with
  | ind n ih =>
      by_cases hne : p = []
      · exact ⟨.nil, hne.symm, trivial⟩
      rcases exists_head escape hne with ⟨q, rfl⟩ | ⟨q, rfl⟩ | ⟨u, q, hu, rfl⟩ | ⟨rfl, rfl⟩
      · rw [balanced_open] at h
        obtain ⟨alts, q', rfl, halts, h'⟩ := exists_alternatives q 0 h
        obtain ⟨rest, hrest, hok⟩ := ih q'.length (by simp at hn; omega) q' h' rfl
        exact ⟨.group alts rest, by rw [Pattern.text, hrest], halts, hok⟩
      · rw [balanced_close] at h
        simp at h
      · rw [balanced_unit hu] at h
        have hpos : 0 < u.length := by
          rcases hu with ⟨c, rfl, -⟩ | ⟨c, rfl, -⟩ <;> simp
        obtain ⟨rest, hrest, hok⟩ := ih q.length (by rw [List.length_append] at hn; omega) q h rfl
        exact ⟨.unit u rest, by rw [Pattern.text, hrest], .inl ⟨hu, by simp, hok⟩⟩
      · exact ⟨.unit [92] .nil, rfl, .inr ⟨rfl, rfl, rfl, rfl⟩⟩

end Reading

/-- **Brace expansion enumerates the alternatives.** A pattern whose braces are balanced is the text
of a tree, whatever tree it is the text of, the function is called on the strings of the tree, and
none of them has a brace. -/
theorem rubyBraceExpand_balanced (escape : Bool) (str : List UInt8)
    (h : balanced escape str 0 = true) :
    (∃ pat : Pattern, pat.text = str ∧ pat.Ok escape false) ∧
      ∀ pat : Pattern, pat.text = str → pat.Ok escape false →
        (∀ x ∈ pat.expansions, unbraced escape x = true) ∧
        ∀ (func : List UInt8 → σ → ℤ × σ) (s : σ),
          rubyBraceExpand escape func str s = callAll func pat.expansions s := by
  refine ⟨exists_pattern str h, ?_⟩
  rintro pat rfl hok
  exact ⟨fun x hx => pat.unbraced_of_mem hok hx, fun func s => rubyBraceExpand_text pat hok s⟩

/-- The calls for `a{b,{c,d}}`. -/
theorem rubyBraceExpand_balanced_nested :
    balanced true [97, 123, 98, 44, 123, 99, 44, 100, 125, 125] 0 = true ∧
      ∃ pat : Pattern, pat.text = [97, 123, 98, 44, 123, 99, 44, 100, 125, 125] ∧
        pat.expansions = [[97, 98], [97, 99], [97, 100]] ∧
        ∀ (func : List UInt8 → List (List UInt8) → ℤ × List (List UInt8)) (s : List (List UInt8)),
          rubyBraceExpand true func [97, 123, 98, 44, 123, 99, 44, 100, 125, 125] s =
            callAll func pat.expansions s := by
  have hbal : balanced true [97, 123, 98, 44, 123, 99, 44, 100, 125, 125] 0 = true := by
    decide +kernel
  have hu : ∀ c : UInt8, c ≠ 123 ∧ c ≠ 125 ∧ c ≠ 92 → IsUnit true [c] :=
    fun c hc => .inl ⟨c, rfl, hc.1, hc.2.1, by simp [hc.2.2]⟩
  have hok : (Pattern.unit [97] (.group (.more (.unit [98] .nil) (.last (.group
      (.more (.unit [99] .nil) (.last (.unit [100] .nil))) .nil))) .nil)).Ok true false := by
    simp [Pattern.Ok, Alternatives.Ok, hu]
  exact ⟨hbal, _, rfl, rfl, ((rubyBraceExpand_balanced true _ hbal).2 _ rfl hok).2⟩

end MacRuby.Dir
