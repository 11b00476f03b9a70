import Mathlib.Data.List.DropRight
import Mathlib.Tactic.Linarith

/-!
# Separators in paths

The functions of `file.c` find their way in a path by two helpers: `rb_path_last_separator` looks
for the separators before the last component, `chompdirsep` for those after it. A C string is the
list of its bytes before the NUL, and a pointer into it an index.

## Main definitions

* `skiproot`, `rbPathLastSeparator`, `chompdirsep` — the helpers.
* `names` — the components of a path.

## Main results

* `path_cases` — a path is all separators, one component, or components before the last one.
* `rbPathLastSeparator_one`, `rbPathLastSeparator_more`, `chompdirsep_eq` — what the helpers find.
-/

namespace MacRuby.File

/-- `isdirsep(x)`. -/
def isdirsep (x : UInt8) : Bool := x == 47

/-- A run of separators. -/
abbrev slashes (n : ℕ) : List UInt8 := List.replicate n 47

theorem slashes_zero : slashes 0 = [] := rfl

theorem slashes_succ (n : ℕ) : slashes (n + 1) = 47 :: slashes n := rfl

theorem slashes_add (m n : ℕ) : slashes (m + n) = slashes m ++ slashes n := List.replicate_add ..

/-- `skiproot(path)`. -/
def skiproot (path : List UInt8) : ℕ := (path.takeWhile isdirsep).length

/-- `rb_path_last_separator(path)`, from position `i` on, where `last` has been found before. -/
def rbPathLastSeparator (path : List UInt8) (i : ℕ) (last : Option ℕ) : Option ℕ :=
  match path with
  | [] => last
  | c :: path =>
      if isdirsep c then
        let rest := path.dropWhile isdirsep
        if rest = [] then last
        else rbPathLastSeparator rest (i + 1 + (path.length - rest.length)) (some i)
      else rbPathLastSeparator path (i + 1) last
termination_by path.length
decreasing_by
  · have := List.length_dropWhile_le isdirsep path
    simp
    omega
  · simp

/-- `chompdirsep(path)`, from position `i` on. -/
def chompdirsep (path : List UInt8) (i : ℕ) : ℕ :=
  match path with
  | [] => i
  | c :: path =>
      if isdirsep c then
        let rest := path.dropWhile isdirsep
        if rest = [] then i else chompdirsep rest (i + 1 + (path.length - rest.length))
      else chompdirsep path (i + 1)
termination_by path.length
decreasing_by
  · have := List.length_dropWhile_le isdirsep path
    simp
    omega
  · simp

/-- The components of a path. -/
def names (path : List UInt8) : List (List UInt8) := (path.splitOn 47).filter (· ≠ [])

/-! ## Runs of separators -/

theorem dropWhile_slashes (n : ℕ) {rest : List UInt8} (h : rest.head? ≠ some 47) :
    (slashes n ++ rest).dropWhile isdirsep = rest := by
  induction n with
  | zero =>
      cases rest with
      | nil => rfl
      | cons c rest =>
          have hc : isdirsep c = false := by simpa [isdirsep] using h
          simp [hc]
  | succ n ih => simpa [List.replicate_succ, isdirsep] using ih

theorem takeWhile_slashes (n : ℕ) {rest : List UInt8} (h : rest.head? ≠ some 47) :
    (slashes n ++ rest).takeWhile isdirsep = slashes n := by
  induction n with
  | zero =>
      cases rest with
      | nil => rfl
      | cons c rest =>
          have hc : isdirsep c = false := by simpa [isdirsep] using h
          simp [hc]
  | succ n ih => simpa [List.replicate_succ, isdirsep] using ih

theorem skiproot_slashes (n : ℕ) {rest : List UInt8} (h : rest.head? ≠ some 47) :
    skiproot (slashes n ++ rest) = n := by
  rw [skiproot, takeWhile_slashes n h, List.length_replicate]

/-- A path begins with a run of separators. -/
theorem exists_slashes (path : List UInt8) :
    ∃ n rest, path = slashes n ++ rest ∧ rest.head? ≠ some 47 := by
  have hrun : path.takeWhile isdirsep = slashes (path.takeWhile isdirsep).length := by
    refine List.eq_replicate_of_mem fun c hc => ?_
    simpa [isdirsep] using List.mem_takeWhile_imp hc
  refine ⟨(path.takeWhile isdirsep).length, path.dropWhile isdirsep, ?_, fun h => ?_⟩
  · rw [← hrun, List.takeWhile_append_dropWhile]
  · have := List.head?_dropWhile_not isdirsep path
    simp [h, isdirsep] at this

/-- A path ends with a run of separators. -/
theorem exists_trailing (path : List UInt8) :
    ∃ front n, path = front ++ slashes n ∧ front.getLast? ≠ some 47 := by
  obtain ⟨n, rest, hpath, hrest⟩ := exists_slashes path.reverse
  refine ⟨rest.reverse, n, ?_, by simpa using hrest⟩
  rw [← List.reverse_reverse path, hpath, List.reverse_append, List.reverse_replicate]

theorem head?_ne_of_not_mem {c : List UInt8} (h : 47 ∉ c) : c.head? ≠ some 47 :=
  fun hc => h (List.mem_of_head? hc)

theorem getLast?_ne_of_not_mem {c : List UInt8} (h : 47 ∉ c) : c.getLast? ≠ some 47 :=
  fun hc => h (List.mem_of_getLast? hc)

/-- **A path is all separators, one component, or components before the last one**, and separators
may follow. -/
theorem path_cases (path : List UInt8) :
    (∃ n, path = slashes n) ∨
      (∃ c t, path = c ++ slashes t ∧ c ≠ [] ∧ 47 ∉ c) ∨
      ∃ front j c t, path = front ++ (slashes (j + 1) ++ (c ++ slashes t)) ∧ c ≠ [] ∧ 47 ∉ c ∧
        front.getLast? ≠ some 47 := by
  obtain ⟨body, t, rfl, hbody⟩ := exists_trailing path
  by_cases hnil : body = []
  · exact .inl ⟨t, by simp [hnil]⟩
  -- the last component is what follows the last separator
  have hc : 47 ∉ body.rtakeWhile (· != 47) := by
    intro h
    simpa using List.mem_rtakeWhile_imp h
  have hsplit : body.rdropWhile (· != 47) ++ body.rtakeWhile (· != 47) = body :=
    List.rdropWhile_append_rtakeWhile
  have hne : body.rtakeWhile (· != 47) ≠ [] := by
    rw [Ne, List.rtakeWhile_eq_nil_iff]
    intro h
    have hlast := h hnil
    exact hbody (by rw [List.getLast?_eq_getLast_of_ne_nil hnil]; simpa using hlast)
  right
  by_cases hfirst : body.rdropWhile (· != 47) = []
  · refine .inl ⟨body, t, rfl, hnil, ?_⟩
    rw [hfirst, List.nil_append] at hsplit
    rwa [hsplit] at hc
  · right
    obtain ⟨front, j, hfront, hlast⟩ := exists_trailing (body.rdropWhile (· != 47))
    cases j with
    | zero =>
        have h47 := List.rdropWhile_last_not (· != 47) body hfirst
        obtain rfl : body.rdropWhile (· != 47) = front := by simpa using hfront
        rw [List.getLast?_eq_getLast_of_ne_nil hfirst] at hlast
        exact absurd (by simpa using h47) hlast
    | succ j =>
        refine ⟨front, j, body.rtakeWhile (· != 47), t, ?_, hne, hc, hlast⟩
        rw [← List.append_assoc, ← List.append_assoc, ← hfront, hsplit]

/-! ## What the helpers find -/

/-- There is no separator before the only component. -/
theorem rbPathLastSeparator_one {c : List UInt8} (h : 47 ∉ c) (t i : ℕ) (last : Option ℕ) :
    rbPathLastSeparator (c ++ slashes t) i last = last := by
  induction c generalizing i with
  | nil =>
      cases t with
      | zero => simp [rbPathLastSeparator]
      | succ t =>
          have hrest : (slashes t).dropWhile isdirsep = [] := by
            simpa using dropWhile_slashes t (by simp : ([] : List UInt8).head? ≠ some 47)
          simp [rbPathLastSeparator, List.replicate_succ, isdirsep, hrest]
  | cons x c ih =>
      rw [List.mem_cons, not_or] at h
      have hx : isdirsep x = false := by simpa [isdirsep] using Ne.symm h.1
      rw [List.cons_append, rbPathLastSeparator, if_neg (by simp [hx])]
      exact ih h.2 (i + 1)

/-- Skipping a run of separators. -/
theorem rbPathLastSeparator_run (j : ℕ) {rest : List UInt8} (hne : rest ≠ [])
    (h : rest.head? ≠ some 47) (i : ℕ) (last : Option ℕ) :
    rbPathLastSeparator (slashes (j + 1) ++ rest) i last =
      rbPathLastSeparator rest (i + (j + 1)) (some i) := by
  rw [slashes_succ, List.cons_append, rbPathLastSeparator, if_pos (by rfl)]
  simp only [dropWhile_slashes j h, if_neg hne, List.length_append, List.length_replicate]
  rw [show i + 1 + (j + rest.length - rest.length) = i + (j + 1) by omega]

/-- **The separators before the last component begin where the helper says.** -/
theorem rbPathLastSeparator_more {front c : List UInt8} (j : ℕ) (t : ℕ) (hne : c ≠ [])
    (hc : 47 ∉ c) (hfront : front.getLast? ≠ some 47) (i : ℕ) (last : Option ℕ) :
    rbPathLastSeparator (front ++ (slashes (j + 1) ++ (c ++ slashes t))) i last =
      some (i + front.length) := by
  induction hn : front.length using Nat.strong_induction_on generalizing front i last with
  | _ n ih =>
      obtain ⟨k, rest, rfl, hrest⟩ := exists_slashes front
      cases rest with
      | nil =>
          obtain rfl : k = 0 := by
            cases k with
            | zero => rfl
            | succ k => simp [List.getLast?_replicate] at hfront
          subst hn
          rw [slashes_zero, List.nil_append, List.nil_append,
            rbPathLastSeparator_run j (by simp [hne]) (by
              cases c with
              | nil => exact absurd rfl hne
              | cons x c => simpa using head?_ne_of_not_mem hc), rbPathLastSeparator_one hc]
          simp
      | cons x rest =>
          have hx : isdirsep x = false := by simpa [isdirsep] using hrest
          have hlast : rest.getLast? ≠ some 47 := by
            cases rest with
            | nil => simp
            | cons y rest => simpa using hfront
          cases k with
          | zero =>
              rw [slashes_zero, List.nil_append, List.cons_append, rbPathLastSeparator,
                if_neg (by simp [hx]), ih rest.length (by simp at hn; omega) hlast _ _ rfl]
              simp at hn
              simp only [Option.some.injEq]
              omega
          | succ k =>
              rw [List.append_assoc, rbPathLastSeparator_run k (by simp) (by simpa using hrest),
                ih (x :: rest).length (by simp at hn ⊢; omega)
                  (by simpa [List.getLast?_cons_cons] using hfront) _ _ rfl]
              simp at hn ⊢
              omega

/-- **The separators at the end begin where the helper says.** -/
theorem chompdirsep_eq {body : List UInt8} (hbody : body.getLast? ≠ some 47) (t i : ℕ) :
    chompdirsep (body ++ slashes t) i = i + body.length := by
  induction hn : body.length using Nat.strong_induction_on generalizing body i with
  | _ n ih =>
      obtain ⟨k, rest, rfl, hrest⟩ := exists_slashes body
      cases rest with
      | nil =>
          obtain rfl : k = 0 := by
            cases k with
            | zero => rfl
            | succ k => simp [List.getLast?_replicate] at hbody
          subst hn
          cases t with
          | zero => simp [chompdirsep]
          | succ t =>
              have hdrop : (slashes t).dropWhile isdirsep = [] := by
                simpa using dropWhile_slashes t (by simp : ([] : List UInt8).head? ≠ some 47)
              simp [chompdirsep, List.replicate_succ, isdirsep, hdrop]
      | cons x rest =>
          have hx : isdirsep x = false := by simpa [isdirsep] using hrest
          have hlast : rest.getLast? ≠ some 47 := by
            cases rest with
            | nil => simp
            | cons y rest => simpa using hbody
          cases k with
          | zero =>
              rw [slashes_zero, List.nil_append, List.cons_append, chompdirsep,
                if_neg (by simp [hx]), ih rest.length (by simp at hn; omega) hlast _ rfl]
              simp at hn
              omega
          | succ k =>
              rw [List.append_assoc, slashes_succ, List.cons_append, chompdirsep, if_pos (by rfl)]
              have hhead : ((x :: rest) ++ slashes t).head? ≠ some 47 := by simpa using hrest
              simp only [dropWhile_slashes k hhead]
              rw [if_neg (by simp), ih (x :: rest).length (by simp at hn ⊢; omega)
                (by simpa [List.getLast?_cons_cons] using hbody) _ rfl]
              simp at hn ⊢
              omega

/-! ## The shape of a path -/

/-- Separators, the components before the last one, separators, the last component, separators. -/
structure Shape (path front c : List UInt8) (k j t : ℕ) : Prop where
  eq : path = slashes k ++ (front ++ (slashes j ++ (c ++ slashes t)))
  ne_nil : c ≠ []
  not_mem : 47 ∉ c
  front : front = [] ∧ j = 0 ∨
    front ≠ [] ∧ front.head? ≠ some 47 ∧ front.getLast? ≠ some 47 ∧ 0 < j

/-- **A path is all separators or has a shape.** -/
theorem exists_shape (path : List UInt8) :
    (∃ n, path = slashes n) ∨ ∃ front c k j t, Shape path front c k j t := by
  rcases path_cases path with h | ⟨c, t, hpath, hne, hc⟩ | ⟨front, j, c, t, hpath, hne, hc, hlast⟩
  · exact .inl h
  · exact .inr ⟨[], c, 0, 0, t, by simpa using hpath, hne, hc, .inl ⟨rfl, rfl⟩⟩
  · right
    obtain ⟨k, rest, rfl, hrest⟩ := exists_slashes front
    by_cases hnil : rest = []
    · subst hnil
      cases k with
      | zero => exact ⟨[], c, j + 1, 0, t, by simpa using hpath, hne, hc, .inl ⟨rfl, rfl⟩⟩
      | succ k => simp [List.getLast?_replicate] at hlast
    · refine ⟨rest, c, k, j + 1, t, by simpa using hpath, hne, hc, .inr ⟨hnil, hrest, ?_, by omega⟩⟩
      rwa [List.getLast?_append_of_ne_nil _ hnil] at hlast

namespace Shape

variable {path front c : List UInt8} {k j t : ℕ}

/-- The separators right before the last component. -/
def gap (front : List UInt8) (k j : ℕ) : ℕ := if front = [] then k else j

theorem head?_component (h : Shape path front c k j t) : (c ++ slashes t).head? ≠ some 47 := by
  rw [List.head?_append_of_ne_nil _ h.ne_nil]
  exact head?_ne_of_not_mem h.not_mem

theorem head?_rest (h : Shape path front c k j t) :
    (front ++ (slashes j ++ (c ++ slashes t))).head? ≠ some 47 := by
  rcases h.front with ⟨rfl, rfl⟩ | ⟨hne, hhead, -⟩
  · exact h.head?_component
  · rwa [List.head?_append_of_ne_nil _ hne]

theorem skiproot_eq (h : Shape path front c k j t) : skiproot path = k := by
  rw [h.eq]
  exact skiproot_slashes k h.head?_rest

theorem drop_eq (h : Shape path front c k j t) :
    path.drop k = front ++ (slashes j ++ (c ++ slashes t)) := by
  rw [h.eq]
  exact List.drop_left' (List.length_replicate ..)

/-- The last separator of what follows the root. -/
theorem lastSeparator_rest (h : Shape path front c k j t) :
    rbPathLastSeparator (path.drop k) 0 none = if front = [] then none else some front.length := by
  rw [h.drop_eq]
  rcases h.front with ⟨rfl, rfl⟩ | ⟨hne, -, hlast, hj⟩
  · rw [if_pos rfl]
    exact rbPathLastSeparator_one h.not_mem t 0 none
  · rw [if_neg hne]
    obtain ⟨j, rfl⟩ : ∃ i, j = i + 1 := ⟨j - 1, by omega⟩
    rw [rbPathLastSeparator_more j t h.ne_nil h.not_mem hlast, Nat.zero_add]

/-- The last separator of the path. -/
theorem lastSeparator_eq (h : Shape path front c k j t) :
    rbPathLastSeparator path 0 none =
      if front = [] then if k = 0 then none else some 0 else some (k + front.length) := by
  rcases h.front with ⟨rfl, rfl⟩ | ⟨hne, -, hlast, hj⟩
  · rw [h.eq, if_pos rfl]
    cases k with
    | zero => exact rbPathLastSeparator_one h.not_mem t 0 none
    | succ k =>
        have hnil : ([] : List UInt8).getLast? ≠ some 47 := by simp
        exact rbPathLastSeparator_more k t h.ne_nil h.not_mem hnil 0 none
  · rw [h.eq, if_neg hne]
    obtain ⟨j, rfl⟩ : ∃ i, j = i + 1 := ⟨j - 1, by omega⟩
    have hlast' : (slashes k ++ front).getLast? ≠ some 47 := by
      rwa [List.getLast?_append_of_ne_nil _ hne]
    have h := rbPathLastSeparator_more j t h.ne_nil h.not_mem hlast' 0 none
    simpa using h

end Shape

/-! ## Components -/

theorem names_append_slash (a b : List UInt8) : names (a ++ 47 :: b) = names a ++ names b := by
  rw [names, List.splitOn_append_cons_self, List.filter_append]
  rfl

theorem names_nil : names [] = [] := by simp [names]

theorem names_slashes_append (n : ℕ) (path : List UInt8) :
    names (slashes n ++ path) = names path := by
  induction n with
  | zero => rfl
  | succ n ih =>
      have h := names_append_slash [] (slashes n ++ path)
      rw [List.nil_append, names_nil, List.nil_append, ih] at h
      exact h

theorem names_append_slashes (n : ℕ) (path : List UInt8) :
    names (path ++ slashes n) = names path := by
  induction n with
  | zero => rw [slashes_zero, List.append_nil]
  | succ n ih =>
      have h := names_slashes_append n []
      rw [List.append_nil, names_nil] at h
      rw [slashes_succ, names_append_slash, h, List.append_nil]

theorem names_of_not_mem {c : List UInt8} (h : 47 ∉ c) (hne : c ≠ []) : names c = [c] := by
  rw [names, List.splitOn_eq_singleton h]
  simp [hne]

end MacRuby.File
