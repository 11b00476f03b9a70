import MacRuby.File.ExpandPath

/-!
# What `File.expand_path` returns

The text in the buffer is a trail: leading separators and names with a separator after each. Going
back from the first name leaves the pointer on the first of the leading separators; if there were
more of them, the root is not recognised at the end and the result is empty. With a directory the
buffer is one byte shorter than it is taken for, until it is grown.

## Main definitions

* `Trail`, `Trail.step` — the trail, and what a component does to it.
* `resolve`, `Canonical` — the components of a path, and the text that stands for them.
* `ExpandsTo`, `Expandable` — what the function should return, and when it does.

## Main results

* `scan_eq_walk` — the loop over the bytes is a loop over the components.
* `run_eq` — what the loop and the code behind it make of a trail.
* `expandsTo_iff` — when the path is expanded as it should.
-/

namespace MacRuby.File

/-! ## Components -/

/-- A component that is no name. -/
def isDots (c : List UInt8) : Bool := c == [] || c == [46] || c == [46, 46]

/-- What a component does to the names before it. -/
def resolveStep (ns : List (List UInt8)) (c : List UInt8) : List (List UInt8) :=
  if c = [] ∨ c = [46] then ns else if c = [46, 46] then ns.dropLast else ns ++ [c]

/-- Components, resolved from left to right. -/
def resolve (ns : List (List UInt8)) (cs : List (List UInt8)) : List (List UInt8) :=
  cs.foldl resolveStep ns

/-- An absolute path with these components, and no separator at its end unless it is the root. -/
structure Canonical (r : List UInt8) (ns : List (List UInt8)) : Prop where
  head : r.head? = some 47
  names : names r = ns
  last : r.getLast? = some 47 → ns = []

/-- The components that a path is expanded to, with the directory that it is relative to. -/
def target (fname : List UInt8) (dname : Option (List UInt8)) : List (List UInt8) :=
  if fname.head? = some 47 then resolve [] (fname.splitOn 47)
  else resolve (resolve [] ((dname.getD []).splitOn 47)) (fname.splitOn 47)

/-- What the function should do. -/
def ExpandsTo (env : Env) (fname : List UInt8) (dname : Option (List UInt8)) : Prop :=
  ∃ r, fileExpandPath env fname dname = .ok r ∧ Canonical r (target fname dname) ∧
    ∀ dname', fileExpandPath env r dname' = .ok r

/-! ## Trails -/

/-- Leading separators and names; `lost` if the pointer is on the first of several separators. -/
structure Trail where
  lead : ℕ
  names : List (List UInt8)
  lost : Bool
  deriving DecidableEq, Repr

namespace Trail

/-- The text of a trail, up to the pointer. -/
def text (t : Trail) : List UInt8 := slashes t.lead ++ (t.names.map (· ++ [47])).flatten

/-- What a component does to a trail. -/
def step (t : Trail) (c : List UInt8) : Trail :=
  if c = [] ∨ c = [46] then t
  else if c = [46, 46] then
    if t.names = [] then t
    else if t.names.length = 1 then ⟨1, [], decide (2 ≤ t.lead)⟩
    else { t with names := t.names.dropLast }
  else ⟨t.lead, t.names ++ [c], false⟩

/-- The trail of an absolute path. -/
def ofPath (fname : List UInt8) : Trail :=
  ((fname.drop (skiproot fname)).splitOn 47).foldl step ⟨skiproot fname, [], false⟩

/-- What is returned for a trail. -/
def output (t : Trail) : List UInt8 :=
  if t.lost then [] else if t.names = [] then slashes t.lead else t.text.dropLast

/-- How many bytes the buffer has for a path that is put behind a trail, if it is taken to have one
more. -/
def room (t : Trail) : Option ℕ := if t.names = [] then none else some (2 * t.output.length)

/-- How many bytes are in the buffer after each name. -/
def lengths (t : Trail) : List (List UInt8) → List ℕ
  | [] => []
  | [c] => if isDots c then [] else [t.text.length + c.length]
  | c :: cs =>
      if isDots c then (t.step c).lengths cs
      else (t.text.length + c.length + 1) :: (t.step c).lengths cs

end Trail

/-- The first text that does not fit in `room` bytes is one byte longer, so the buffer is not
grown. -/
def fills : (room : Option ℕ) → List ℕ → Bool
  | none, _ => false
  | some n, lengths => lengths.find? (n < ·) == some (n + 1)

/-- When the function does what it should. -/
def Expandable (fname : List UInt8) (dname : Option (List UInt8)) : Prop :=
  if fname.head? = some 47 then (Trail.ofPath fname).lost = false
  else
    let t := Trail.ofPath (dname.getD [])
    t.lost = false ∧ ((fname.splitOn 47).foldl Trail.step t).lost = false ∧
      fills t.room (t.lengths (fname.splitOn 47)) = false

/-! ## The loop over the components -/

/-- What the loop does with a component that is followed by another one. -/
def visit (buf : Buf) (c : List UInt8) : Except Failure Buf :=
  if c = [] ∨ c = [46] then .ok buf else if c = [46, 46] then goBack buf else push buf c

/-- The loop, over components. -/
def walk (buf : Buf) : List (List UInt8) → Except Failure (Buf × List UInt8)
  | [] => .ok (buf, [])
  | [c] => if isDots c then (visit buf c).map (·, []) else .ok (buf, c)
  | c :: cs =>
      match visit buf c with
      | .error e => .error e
      | .ok buf => walk buf cs

/-- The rest of a name is read. -/
theorem scan_append (buf : Buf) {elem : List UInt8} (helem : elem ≠ []) {c : List UInt8}
    (hc : 47 ∉ c) (tail : List UInt8) :
    scan buf elem (c ++ tail) = scan buf (elem ++ c) tail := by
  induction c generalizing elem with
  | nil => rw [List.nil_append, List.append_nil]
  | cons x c ih =>
      rw [List.mem_cons, not_or] at hc
      have hstep : scan buf elem (x :: (c ++ tail)) = scan buf (elem ++ [x]) (c ++ tail) := by
        rw [scan.eq_def]
        simp only [helem, if_false, Ne.symm hc.1]
        split
        case isTrue hx => rw [hx]
        case isFalse => rfl
      rw [List.cons_append, hstep, ih (by simp) hc.2, List.append_assoc, List.singleton_append]

/-- A name is read. -/
theorem scan_name (buf : Buf) {c : List UInt8} (hc : 47 ∉ c) (hdots : isDots c = false)
    (tail : List UInt8) :
    scan buf [] (c ++ tail) = scan buf c tail := by
  cases c with
  | nil => cases hdots
  | cons x c =>
      rw [List.mem_cons, not_or] at hc
      have hfirst : scan buf [] (x :: (c ++ tail)) = scan buf [x] (c ++ tail) := by
        by_cases hx : x = 46
        · -- a dot, but not alone and not with another dot alone
          subst hx
          cases c with
          | nil => simp [isDots] at hdots
          | cons y c =>
              have hy : y ≠ 47 := fun h => hc.2 (by simp [h])
              rw [scan.eq_def]
              simp only [List.cons_append, if_true, reduceCtorEq, if_false, List.head?_cons,
                Option.some.injEq, hy, List.tail_cons]
              split
              case isFalse => rfl
              case isTrue hdot =>
                cases c with
                | nil => simp [isDots, hdot] at hdots
                | cons z c =>
                    have hz : z ≠ 47 := fun h => hc.2 (by simp [h])
                    simp [hz]
        · rw [scan.eq_def]
          simp [hx, Ne.symm hc.1]
      rw [List.cons_append, hfirst, scan_append buf (by simp) hc.2, List.singleton_append]

/-- What the loop does with a component and the separator after it. -/
theorem scan_component (buf : Buf) {c : List UInt8} (hc : 47 ∉ c) (rest : List UInt8) :
    scan buf [] (c ++ 47 :: rest) =
      match visit buf c with
      | .error e => .error e
      | .ok buf => scan buf [] rest := by
  have hslash : ∀ buf, scan buf [] (47 :: rest) = scan buf [] rest := by
    intro buf
    rw [scan.eq_def]
    simp
  by_cases hdots : isDots c
  · simp only [isDots, Bool.or_eq_true, beq_iff_eq] at hdots
    rcases hdots with (rfl | rfl) | rfl
    · exact hslash buf
    · rw [scan.eq_def]
      simp [visit]
    · rw [scan.eq_def]
      simp only [List.cons_append, List.nil_append, if_true, reduceCtorEq, if_false,
        List.head?_cons, List.tail_cons, or_true, visit]
      simp only [hslash]
      cases goBack buf <;> rfl
  · rw [Bool.not_eq_true] at hdots
    rw [scan_name buf hc hdots, scan.eq_def]
    have hne : c ≠ [] := by
      rintro rfl
      cases hdots
    simp only [isDots, Bool.or_eq_false_iff, beq_eq_false_iff_ne] at hdots
    have hslash' : (47 : UInt8) ≠ 46 := by decide
    cases hpush : push buf c with
    | error e =>
        simp only [hne, visit, hdots.1.2, hdots.2, or_self, if_false, if_true, hslash', hpush]
    | ok buf =>
        simp only [hne, visit, hdots.1.2, hdots.2, or_self, if_false, if_true, hslash', hpush]

/-- What the loop does with the last component. -/
theorem scan_last (buf : Buf) {c : List UInt8} (hc : 47 ∉ c) :
    scan buf [] c = if isDots c then (visit buf c).map (·, []) else .ok (buf, c) := by
  by_cases hdots : isDots c
  · rw [if_pos hdots]
    simp only [isDots, Bool.or_eq_true, beq_iff_eq] at hdots
    rcases hdots with (rfl | rfl) | rfl
    · rw [scan.eq_def]
      rfl
    · rw [scan.eq_def]
      rfl
    · rw [scan.eq_def]
      simp only [if_true, reduceCtorEq, if_false, List.head?_cons, List.tail_cons, true_or, visit]
      cases goBack buf with
      | error e => rfl
      | ok buf =>
          dsimp only
          rw [scan.eq_def]
          rfl
  · have h := scan_name buf hc (by simpa using hdots) []
    rw [List.append_nil] at h
    rw [h, scan.eq_def, if_neg hdots]

/-- A path is a component, or a component with a separator and a path after it. -/
theorem exists_component (s : List UInt8) :
    47 ∉ s ∨ ∃ c rest, s = c ++ 47 :: rest ∧ 47 ∉ c := by
  induction s with
  | nil => exact .inl (by simp)
  | cons x s ih =>
      by_cases hx : x = 47
      · exact .inr ⟨[], s, by rw [hx]; rfl, by simp⟩
      rcases ih with h | ⟨c, rest, rfl, hc⟩
      · exact .inl (by simp [Ne.symm hx, h])
      · exact .inr ⟨x :: c, rest, rfl, by simp [Ne.symm hx, hc]⟩

/-- **The loop over the bytes is a loop over the components.** -/
theorem scan_eq_walk (buf : Buf) (s : List UInt8) : scan buf [] s = walk buf (s.splitOn 47) := by
  induction hn : s.length using Nat.strong_induction_on generalizing buf s with
  | _ n ih =>
      rcases exists_component s with hs | ⟨c, rest, rfl, hc⟩
      · rw [scan_last buf hs, List.splitOn_eq_singleton hs, walk]
      · rw [scan_component buf hc, List.splitOn_append_cons_self, List.splitOn_eq_singleton hc,
          List.singleton_append, walk]
        · cases visit buf c with
          | error e => rfl
          | ok buf =>
              dsimp only
              exact ih rest.length (by simp at hn; omega) buf rest rfl
        · exact List.splitOn_ne_nil 47 rest

/-! ## Trails and their texts -/

/-- A name: a component that is no dots, without a NUL. -/
def IsName (c : List UInt8) : Prop := isDots c = false ∧ 47 ∉ c ∧ 0 ∉ c

/-- A trail that the loop can leave in the buffer. -/
structure Trail.Wf (t : Trail) : Prop where
  lead : 0 < t.lead
  names : ∀ c ∈ t.names, IsName c
  lost : t.lost = true → t.names = [] ∧ t.lead = 1

theorem IsName.ne_nil {c : List UInt8} (h : IsName c) : c ≠ [] := by
  rintro rfl
  cases h.1

theorem IsName.head? {c : List UInt8} (h : IsName c) (tail : List UInt8) :
    (c ++ tail).head? ≠ some 47 := by
  rw [List.head?_append_of_ne_nil _ h.ne_nil]
  exact head?_ne_of_not_mem h.2.1

/-- Names with a separator after each. -/
def namesText (ns : List (List UInt8)) : List UInt8 := (ns.map (· ++ [47])).flatten

theorem namesText_append (ns : List (List UInt8)) (c : List UInt8) :
    namesText (ns ++ [c]) = namesText ns ++ (c ++ [47]) := by
  simp [namesText]

theorem namesText_head? {ns : List (List UInt8)} (hne : ns ≠ []) (h : ∀ c ∈ ns, IsName c)
    (tail : List UInt8) : (namesText ns ++ tail).head? ≠ some 47 := by
  cases ns with
  | nil => exact absurd rfl hne
  | cons c ns =>
      have hc := (h c (by simp)).head? ([47] ++ (namesText ns ++ tail))
      simpa [namesText] using hc

theorem zero_not_mem_namesText {ns : List (List UInt8)} (h : ∀ c ∈ ns, IsName c) :
    0 ∉ namesText ns := by
  intro hmem
  simp only [namesText, List.mem_flatten, List.mem_map] at hmem
  obtain ⟨l, ⟨c, hc, rfl⟩, hl⟩ := hmem
  rw [List.mem_append] at hl
  rcases hl with hl | hl
  · exact (h c hc).2.2 hl
  · simp at hl

namespace Trail

variable {t : Trail}

theorem text_eq (t : Trail) : t.text = slashes t.lead ++ namesText t.names := rfl

theorem lead_le (t : Trail) : t.lead ≤ t.text.length := by
  rw [text_eq, List.length_append, List.length_replicate]
  omega

/-- The separators before the text go on up to the first name. -/
theorem skiproot_eq (h : t.Wf) {tail : List UInt8} (htail : t.names = [] → tail.head? ≠ some 47) :
    skiproot (t.text ++ tail) = t.lead := by
  rw [text_eq, List.append_assoc]
  refine skiproot_slashes t.lead ?_
  by_cases hnil : t.names = []
  · rw [hnil]
    exact htail hnil
  · exact namesText_head? hnil h.names tail

/-- The text of a trail with one more name. -/
theorem text_push (t : Trail) (c : List UInt8) (b : Bool) :
    (⟨t.lead, t.names ++ [c], b⟩ : Trail).text = t.text ++ (c ++ [47]) := by
  rw [text_eq, text_eq]
  dsimp only
  rw [namesText_append, List.append_assoc]

theorem step_name (t : Trail) {c : List UInt8} (hc : IsName c) :
    t.step c = ⟨t.lead, t.names ++ [c], false⟩ := by
  have hdots := hc.1
  simp only [isDots, Bool.or_eq_false_iff, beq_eq_false_iff_ne] at hdots
  rw [step, if_neg (by simp [hdots.1.1, hdots.1.2]), if_neg hdots.2]

/-- What is returned for a trail with one more name. -/
theorem output_step_name (t : Trail) {c : List UInt8} (hc : IsName c) :
    (t.step c).output = t.text ++ c := by
  rw [step_name t hc, output, if_neg (by simp), if_neg (by simp), text_push, ← List.append_assoc,
    List.dropLast_concat]

/-- The text of a trail ends with a separator. -/
theorem exists_body (h : t.Wf) : ∃ body, t.text = body ++ [47] ∧ 0 ∉ body := by
  rcases List.eq_nil_or_concat t.names with hnil | ⟨ns, c, hns⟩
  · refine ⟨slashes (t.lead - 1), ?_, by simp⟩
    have hlead : t.lead = t.lead - 1 + 1 := by have := h.lead; omega
    rw [text_eq, hnil, hlead, slashes_add]
    simp [namesText]
  · rw [List.concat_eq_append] at hns
    have hnames : ∀ x ∈ ns ++ [c], IsName x := hns ▸ h.names
    refine ⟨slashes t.lead ++ (namesText ns ++ c), ?_, ?_⟩
    · rw [text_eq, hns, namesText_append]
      simp
    · have hzero := zero_not_mem_namesText fun x hx => hnames x (List.mem_append_left _ hx)
      have hc := (hnames c (by simp)).2.2
      simp [hzero, hc]

end Trail

/-! ## The buffer -/

/-- The buffer holds a trail, with `rest` behind it. If there is a `room`, the buffer has that many
bytes, and `buflen` is one more. -/
structure Holds (room : Option ℕ) (buf : Buf) (t : Trail) (rest : List UInt8) : Prop where
  data : buf.data = t.text ++ rest
  p : buf.p + 1 = t.text.length
  next : t.names = [] → (rest.head? = some 47 ↔ t.lost = true)
  size : room = none ∧ buf.buflen = buf.data.length ∨
    room = some buf.data.length ∧ buf.buflen = buf.data.length + 1

theorem doubled_spec {buflen : ℕ} (limit : ℕ) (h : 0 < buflen) :
    limit < doubled limit buflen ∧ buflen ≤ doubled limit buflen := by
  fun_induction doubled limit buflen with
  | case1 => omega
  | case2 buflen _ hlt => exact ⟨hlt, Nat.le_refl _⟩
  | case3 buflen _ hge ih =>
      have := ih (by omega)
      omega

theorem resize_of_le {data : List UInt8} {len : ℕ} (h : len ≤ data.length) :
    resize data len = data.take len := by
  rw [resize, Nat.sub_eq_zero_of_le h, List.replicate_zero, List.append_nil]

theorem resize_of_ge {data : List UInt8} {len : ℕ} (h : data.length ≤ len) :
    resize data len = data ++ List.replicate (len - data.length) 0 := by
  rw [resize, List.take_of_length_le h]

section Buffer

variable {room : Option ℕ} {buf : Buf} {t : Trail} {rest : List UInt8}

/-- Writing behind the trail. -/
theorem Holds.write (h : Holds room buf t rest) {bytes : List UInt8}
    (hle : t.text.length + bytes.length ≤ buf.data.length) :
    File.write buf (buf.p + 1) bytes =
      .ok { buf with data := t.text ++ (bytes ++ rest.drop bytes.length) } := by
  rw [File.write, h.p, if_pos hle, h.data, List.take_left, ← List.drop_drop, List.drop_left]

theorem Holds.write_overrun (h : Holds room buf t rest) {bytes : List UInt8}
    (hlt : buf.data.length < t.text.length + bytes.length) :
    File.write buf (buf.p + 1) bytes = .error .overrun := by
  rw [File.write, h.p, if_neg (by omega)]

/-- Checking the room for a text of `n` bytes: it is there, or the buffer is one byte short of it,
or the buffer is grown. -/
theorem Holds.bufcheck (h : Holds room buf t rest) {n : ℕ} (hn : 0 < n) (hwf : t.Wf) :
    (room = some (n - 1) ∧ bufcheck buf (n - 1) = .ok buf ∧ buf.data.length < n) ∨
      (room ≠ some (n - 1) ∧ ∃ buf' rest', bufcheck buf (n - 1) = .ok buf' ∧
        Holds (room.filter (n ≤ ·)) buf' t rest' ∧ n ≤ buf'.data.length) := by
  have hlen : t.text.length ≤ buf.data.length := by
    rw [h.data, List.length_append]
    omega
  have hpos : 0 < t.text.length := Nat.lt_of_lt_of_le hwf.lead t.lead_le
  rw [File.bufcheck]
  by_cases hlt : n - 1 < buf.buflen
  · rw [if_pos hlt]
    rcases h.size with ⟨hroom, hsize⟩ | ⟨hroom, hsize⟩
    · refine .inr ⟨by simp [hroom], buf, rest, rfl, ⟨h.data, h.p, h.next, .inl ⟨?_, hsize⟩⟩, ?_⟩
      · rw [hroom]
        rfl
      · omega
    · by_cases htight : n - 1 = buf.data.length
      · exact .inl ⟨by rw [hroom, htight], rfl, by omega⟩
      · refine .inr ⟨?_, buf, rest, rfl, ⟨h.data, h.p, h.next, .inr ⟨?_, hsize⟩⟩, by omega⟩
        · rw [hroom]
          simp
          omega
        · rw [hroom, Option.filter_some, if_pos (by simp; omega)]
  · -- the buffer is grown, and then `buflen` is its length
    have hbuflen : buf.buflen ≠ 0 := by
      rcases h.size with ⟨-, hsize⟩ | ⟨-, hsize⟩ <;> omega
    have hdoubled := doubled_spec (n - 1) (Nat.pos_of_ne_zero hbuflen)
    have hge : buf.data.length ≤ doubled (n - 1) buf.buflen := by
      rcases h.size with ⟨-, hsize⟩ | ⟨-, hsize⟩ <;> omega
    rw [if_neg hlt, if_neg hbuflen]
    refine .inr ⟨?_, _, rest ++ List.replicate (doubled (n - 1) buf.buflen -
      buf.data.length) 0, rfl,
      ⟨?_, h.p, fun hnil => ?_, .inl ⟨?_, ?_⟩⟩, ?_⟩
    · rcases h.size with ⟨hroom, hsize⟩ | ⟨hroom, hsize⟩
      · simp [hroom]
      · rw [hroom]
        simp
        omega
    · rw [resize_of_ge hge, h.data, List.append_assoc]
    · rw [← h.next hnil]
      cases rest with
      | nil => simp [List.head?_replicate]
      | cons x rest => rfl
    · rcases h.size with ⟨hroom, hsize⟩ | ⟨hroom, hsize⟩
      · rw [hroom]
        rfl
      · rw [hroom, Option.filter_some, if_neg (by simp; omega)]
    · dsimp only
      rw [resize_of_ge hge, List.length_append, List.length_replicate]
      omega
    · rw [resize_of_ge hge, List.length_append, List.length_replicate]
      omega

/-- **An element is put behind the trail**, unless the buffer is one byte short of it. -/
theorem Holds.push (h : Holds room buf t rest) (hwf : t.Wf) {c : List UInt8} (hc : IsName c) :
    (room = some (t.text.length + c.length) ∧ File.push buf c = .error .overrun) ∨
      (room ≠ some (t.text.length + c.length) ∧ ∃ buf' rest', File.push buf c = .ok buf' ∧
        Holds (room.filter (t.text.length + c.length + 1 ≤ ·)) buf' (t.step c) rest') := by
  have hstep := t.step_name hc
  have hlimit : buf.p + (c.length + 1) = t.text.length + c.length + 1 - 1 := by
    have := h.p
    omega
  have hpush : File.push buf c = (File.bufcheck buf (t.text.length + c.length + 1 - 1) >>=
    fun buf => do
      let buf ← File.write buf (buf.p + 1) (c ++ [47])
      return { buf with p := buf.p + 1 + c.length }) := by
    rw [File.push, hlimit]
  rw [hpush]
  rcases h.bufcheck (Nat.succ_pos (t.text.length + c.length)) hwf with
    ⟨hroom, hcheck, hlt⟩ | ⟨hroom, buf', rest', hcheck, hholds, hle⟩
  · refine .inl ⟨hroom, ?_⟩
    rw [hcheck, Result.ok_bind, h.write_overrun (by simp; omega)]
    rfl
  · refine .inr ⟨hroom, ?_⟩
    have hlen : t.text.length + (c ++ [47]).length ≤ buf'.data.length := by
      rw [List.length_append, List.length_singleton]
      omega
    rw [hcheck, Result.ok_bind, hholds.write hlen, Result.ok_bind]
    refine ⟨_, rest'.drop (c ++ [47]).length, rfl, ?_, ?_, fun hnil => ?_, ?_⟩
    · rw [hstep, Trail.text_push, List.append_assoc t.text]
    · rw [hstep, Trail.text_push, List.length_append, List.length_append]
      have := hholds.p
      simp
      omega
    · rw [hstep] at hnil
      simp at hnil
    · have hsame : (t.text ++ (c ++ [(47 : UInt8)] ++ rest'.drop
        (c ++ [(47 : UInt8)]).length)).length =
          buf'.data.length := by
        rw [hholds.data] at hlen ⊢
        simp at hlen ⊢
        omega
      dsimp only
      rw [hsame]
      exact hholds.size

/-- Writing one byte. -/
theorem write_at {body rest : List UInt8} {x : UInt8} {i : ℕ} (buf : Buf)
    (hdata : buf.data = body ++ x :: rest) (hi : i = body.length) (y : UInt8) :
    File.write buf i [y] = .ok { buf with data := body ++ y :: rest } := by
  rw [File.write, hdata, hi, if_pos (by simp), List.take_left, ← List.drop_drop, List.drop_left]
  rfl

theorem cstr_eq {body : List UInt8} (h : 0 ∉ body) (rest : List UInt8) :
    cstr (body ++ 0 :: rest) = .ok body := by
  rw [cstr, if_pos (by simp), List.takeWhile_append_of_pos]
  · simp
  · intro c hc
    have hne : c ≠ 0 := by
      rintro rfl
      exact h hc
    simpa using hne

/-- The text of names, without the separator at its end. -/
theorem exists_front {ns : List (List UInt8)} (hne : ns ≠ []) (h : ∀ c ∈ ns, IsName c) :
    ∃ front, namesText ns = front ++ [47] ∧ front ≠ [] ∧ front.head? ≠ some 47 ∧
      front.getLast? ≠ some 47 := by
  obtain ⟨ms, c, rfl⟩ : ∃ ms c, ns = ms ++ [c] := by
    rcases List.eq_nil_or_concat ns with hnil | ⟨ms, c, hms⟩
    · exact absurd hnil hne
    · exact ⟨ms, c, by rw [hms, List.concat_eq_append]⟩
  have hc := h c (by simp)
  refine ⟨namesText ms ++ c, by rw [namesText_append, List.append_assoc],
    by simp [hc.ne_nil], ?_, ?_⟩
  · by_cases hms : ms = []
    · subst hms
      have := hc.head? []
      rwa [List.append_nil] at this
    · exact namesText_head? hms (fun x hx => h x (List.mem_append_left _ hx)) c
  · rw [List.getLast?_append_of_ne_nil _ hc.ne_nil]
    exact getLast?_ne_of_not_mem hc.2.1

/-- **Going back to the parent takes the last name off the trail.** -/
theorem Holds.goBack (h : Holds room buf t rest) (hwf : t.Wf) :
    ∃ buf' rest', File.goBack buf = .ok buf' ∧ Holds room buf' (t.step [46, 46]) rest' := by
  obtain ⟨body, hbody, hzero⟩ := Trail.exists_body hwf
  have hdata : buf.data = body ++ 47 :: rest := by
    rw [h.data, hbody, List.append_assoc]
    rfl
  have hp : buf.p = body.length := by
    have := h.p
    rw [hbody, List.length_append, List.length_singleton] at this
    omega
  have hlen : (body ++ 0 :: rest).length = buf.data.length := by
    rw [hdata]
    simp
  have hstep : t.step [46, 46] = if t.names = [] then t
      else if t.names.length = 1 then ⟨1, [], decide (2 ≤ t.lead)⟩
      else { t with names := t.names.dropLast } := by
    rw [Trail.step, if_neg (by simp), if_pos rfl]
  have hgo : File.goBack buf = (rbPathLastSeparator body 0 none).elim
      (File.write ⟨body ++ 0 :: rest, buf.p, buf.buflen⟩ buf.p [47])
      fun n => .ok ⟨body ++ 0 :: rest, n, buf.buflen⟩ := by
    rw [File.goBack, write_at buf hdata hp, Result.ok_bind]
    dsimp only
    rw [cstr_eq hzero, Result.ok_bind]
    cases rbPathLastSeparator body 0 none <;> rfl
  have hsize : room = none ∧ buf.buflen = (body ++ 0 :: rest).length ∨
      room = some (body ++ 0 :: rest).length ∧ buf.buflen = (body ++ 0 :: rest).length + 1 := by
    rw [hlen]
    exact h.size
  rw [hgo, hstep]
  rcases List.eq_nil_or_concat t.names with hnil | ⟨ms, c, hms⟩
  · -- at the root: the separator is put back
    have hslashes : body = slashes (t.lead - 1) := by
      have hlead : t.lead = t.lead - 1 + 1 := by have := hwf.lead; omega
      rw [Trail.text_eq, hnil, hlead, slashes_add, namesText, List.map_nil, List.flatten_nil,
        List.append_nil] at hbody
      exact (List.append_inj_left' hbody rfl).symm
    have hnone : rbPathLastSeparator body 0 none = none := by
      rw [hslashes, ← List.nil_append (slashes _)]
      exact rbPathLastSeparator_one (by simp) _ 0 none
    rw [hnone, if_pos hnil, Option.elim_none]
    rw [write_at ⟨body ++ 0 :: rest, buf.p, buf.buflen⟩ rfl hp]
    refine ⟨_, rest, rfl, ?_, h.p, h.next, ?_⟩
    · rw [← hdata, h.data]
    · dsimp only
      rw [← hdata]
      exact h.size
  · rw [List.concat_eq_append] at hms
    have hnames : ∀ x ∈ ms ++ [c], IsName x := hms ▸ hwf.names
    have hc := hnames c (by simp)
    have hbody' : body = slashes t.lead ++ (namesText ms ++ c) := by
      have hsplit : slashes t.lead ++ (namesText ms ++ c) ++ [47] = body ++ [47] := by
        rw [← hbody, Trail.text_eq, hms, namesText_append]
        simp
      exact (List.append_inj_left' hsplit rfl).symm
    have hne : t.names ≠ [] := by simp [hms]
    have hlead := hwf.lead
    rw [if_neg hne]
    by_cases hnil : ms = []
    · -- back at the root, on the first separator
      subst hnil
      have hshape : Shape body [] c t.lead 0 0 :=
        ⟨by rw [hbody']; simp [namesText], hc.ne_nil, hc.2.1, .inl ⟨rfl, rfl⟩⟩
      rw [hshape.lastSeparator_eq, if_pos rfl, if_neg (by omega), if_pos (by simp [hms])]
      refine ⟨_, slashes (t.lead - 1) ++ (c ++ 0 :: rest), rfl, ?_, rfl, fun _ => ?_, hsize⟩
      · have hroot : slashes t.lead = [47] ++ slashes (t.lead - 1) := by
          rw [List.singleton_append, ← slashes_succ, Nat.sub_add_cancel hlead]
        dsimp only
        rw [hbody', hroot]
        simp [Trail.text, namesText]
      · rw [decide_eq_true_eq]
        by_cases htwo : 2 ≤ t.lead
        · obtain ⟨k, hk⟩ : ∃ k, t.lead - 1 = k + 1 := ⟨t.lead - 2, by omega⟩
          simp [hk, htwo, List.replicate_succ]
        · have hk : t.lead - 1 = 0 := by omega
          simpa [hk, htwo] using hc.head? (0 :: rest)
    · obtain ⟨front, hfront, hne', hhead, hlast⟩ :=
        exists_front hnil fun x hx => hnames x (List.mem_append_left _ hx)
      have hshape : Shape body front c t.lead 1 0 :=
        ⟨by rw [hbody', hfront]; simp, hc.ne_nil, hc.2.1, .inr ⟨hne', hhead, hlast, by omega⟩⟩
      have hmslen : 0 < ms.length := List.length_pos_iff.mpr hnil
      have hdrop : t.names.dropLast = ms := by rw [hms, List.dropLast_concat]
      rw [hshape.lastSeparator_eq, if_neg hne', if_neg (by rw [hms]; simp; omega), hdrop]
      refine ⟨_, c ++ 0 :: rest, rfl, ?_, ?_, fun hnil' => absurd hnil' hnil, hsize⟩
      · dsimp only
        rw [hbody', Trail.text_eq]
        simp
      · dsimp only
        rw [Trail.text_eq]
        dsimp only
        rw [hfront]
        simp
        omega

/-- **What is left of the trail is returned** when the path has no last name. -/
theorem Holds.finish_nil (h : Holds room buf t rest) (hwf : t.Wf) :
    finish buf [] = .ok t.output := by
  have hpos : 0 < t.text.length := Nat.lt_of_lt_of_le hwf.lead t.lead_le
  have hle := t.lead_le
  have hlen : t.text.length ≤ buf.data.length := by
    rw [h.data, List.length_append]
    omega
  have hfinish : finish buf [] =
      .ok (resize buf.data (if buf.p + 1 = skiproot buf.data then buf.p + 1 else buf.p)) := rfl
  rw [hfinish, Trail.output]
  by_cases hnil : t.names = []
  · have htext : t.text = slashes t.lead := by
      rw [Trail.text_eq, hnil]
      simp [namesText]
    have hp : buf.p + 1 = t.lead := by
      rw [h.p, htext, List.length_replicate]
    by_cases hlost : t.lost = true
    · -- there is another separator behind the pointer
      have hlead := (hwf.lost hlost).2
      have hroot : buf.p + 1 ≠ skiproot buf.data := by
        obtain ⟨rest', hrest⟩ : ∃ rest', rest = 47 :: rest' := by
          have hhead := (h.next hnil).mpr hlost
          cases rest with
          | nil => cases hhead
          | cons x rest =>
              cases hhead
              exact ⟨rest, rfl⟩
        rw [h.data, htext, hrest, hlead, hp, hlead, skiproot]
        simp [isdirsep]
      have hzero : buf.p = 0 := by omega
      rw [if_neg hroot, if_pos hlost, hzero]
      simp [resize]
    · have hroot : skiproot buf.data = t.lead := by
        rw [h.data]
        exact Trail.skiproot_eq hwf fun _ => (h.next hnil).not.mpr hlost
      rw [hroot, if_pos hp, if_neg hlost, if_pos hnil, resize_of_le (by omega), h.data, hp, htext,
        List.take_left' (List.length_replicate ..)]
  · have hlost : t.lost ≠ true := fun hlost => hnil (hwf.lost hlost).1
    have hroot : skiproot buf.data = t.lead := by
      rw [h.data]
      exact Trail.skiproot_eq hwf fun h => absurd h hnil
    have hlt : t.lead < t.text.length := by
      obtain ⟨front, hfront, -⟩ := exists_front hnil hwf.names
      rw [Trail.text_eq, hfront]
      simp
    have hp : buf.p = t.text.length - 1 := by
      have := h.p
      omega
    rw [hroot, if_neg (by omega), if_neg hlost, if_neg hnil, resize_of_le (by omega), h.data,
      List.dropLast_eq_take, List.take_append_of_le_length (by omega), hp]

/-- **The last name is put behind the trail**, unless the buffer is one byte short of it. -/
theorem Holds.finish_name (h : Holds room buf t rest) (hwf : t.Wf) {c : List UInt8}
    (hc : IsName c) :
    finish buf c = if room = some (t.text.length + c.length - 1) then .error .overrun
      else .ok (t.step c).output := by
  have hpos : 0 < t.text.length := Nat.lt_of_lt_of_le hwf.lead t.lead_le
  have hlead := t.lead_le
  have hclen := List.length_pos_iff.mpr hc.ne_nil
  have hlimit : buf.p + c.length = t.text.length + c.length - 1 := by
    have := h.p
    omega
  have hfinish : finish buf c = (File.bufcheck buf (t.text.length + c.length - 1) >>= fun buf => do
      let buf ← File.write buf (buf.p + 1) c
      let p := buf.p + 1 + c.length
      return resize buf.data (if p + 1 = skiproot buf.data then p + 1 else p)) := by
    rw [finish, if_neg hc.ne_nil, hlimit]
    simp only [pure_bind]
  rw [hfinish]
  rcases h.bufcheck (by omega : 0 < t.text.length + c.length) hwf with
    ⟨hroom, hcheck, hlt⟩ | ⟨hroom, buf', rest', hcheck, hholds, hle⟩
  · rw [if_pos hroom, hcheck, Result.ok_bind, h.write_overrun (by omega)]
    rfl
  · rw [if_neg hroom, hcheck, Result.ok_bind, hholds.write (by omega), Result.ok_bind]
    have hroot : skiproot (t.text ++ (c ++ rest'.drop c.length)) = t.lead :=
      Trail.skiproot_eq hwf fun _ => hc.head? _
    have hp := hholds.p
    have hoff : buf'.p + 1 + c.length + 1 ≠ t.lead := by omega
    simp only [hroot, if_neg hoff]
    rw [t.output_step_name hc, resize_of_le (by simp; omega), ← List.append_assoc,
      List.take_left' (by simp; omega)]
    rfl

theorem fills_cons (room : Option ℕ) {n : ℕ} (hn : 0 < n) (lengths : List ℕ) :
    fills room (n :: lengths) =
      (decide (room = some (n - 1)) || fills (room.filter (n ≤ ·)) lengths) := by
  cases room with
  | none => rfl
  | some m =>
      rw [Option.filter_some]
      by_cases hlt : m < n
      · have hle : ¬ n ≤ m := by omega
        have hiff : (n == m + 1) = decide (m = n - 1) := by
          rw [Bool.eq_iff_iff, beq_iff_eq, decide_eq_true_eq]
          omega
        simpa [fills, hlt, hle] using hiff
      · have hle : n ≤ m := by omega
        have hne : m ≠ n - 1 := by omega
        simp [fills, hlt, hle, hne]

/-- A component keeps a trail well formed. -/
theorem Trail.Wf.step (h : t.Wf) {c : List UInt8} (hc : 47 ∉ c ∧ 0 ∉ c) : (t.step c).Wf := by
  by_cases hdots : isDots c = true
  · simp only [isDots, Bool.or_eq_true, beq_iff_eq] at hdots
    rcases hdots with hdot | rfl
    · rwa [Trail.step, if_pos hdot]
    · rw [Trail.step, if_neg (by simp), if_pos rfl]
      split_ifs with hnil hone
      · exact h
      · exact ⟨Nat.one_pos, by simp, fun _ => ⟨rfl, rfl⟩⟩
      · refine ⟨h.lead, fun x hx => h.names x (List.dropLast_subset _ hx), fun hlost => ?_⟩
        exact absurd (h.lost hlost).1 hnil
  · have hname : IsName c := ⟨by simpa using hdots, hc⟩
    rw [t.step_name hname]
    refine ⟨h.lead, fun x hx => ?_, by simp⟩
    rw [List.mem_append, List.mem_singleton] at hx
    rcases hx with hx | rfl
    · exact h.names x hx
    · exact hname

/-- Dots are visited without a change of the room. -/
theorem Holds.visit_dots (h : Holds room buf t rest) (hwf : t.Wf) {c : List UInt8}
    (hc : isDots c = true) :
    ∃ buf' rest', visit buf c = .ok buf' ∧ Holds room buf' (t.step c) rest' := by
  simp only [isDots, Bool.or_eq_true, beq_iff_eq] at hc
  rcases hc with hdot | rfl
  · refine ⟨buf, rest, by rw [visit, if_pos hdot], ?_⟩
    rwa [Trail.step, if_pos hdot]
  · rw [visit, if_neg (by simp), if_pos rfl]
    exact h.goBack hwf

theorem visit_name (buf : Buf) {c : List UInt8} (hc : IsName c) : visit buf c = push buf c := by
  have hdots := hc.1
  simp only [isDots, Bool.or_eq_false_iff, beq_eq_false_iff_ne] at hdots
  rw [visit, if_neg (by simp [hdots.1.1, hdots.1.2]), if_neg hdots.2]

/-- **The loop and what stands behind it return what the components make of the trail**, unless the
buffer is filled. -/
theorem run_eq (cs : List (List UInt8)) (hcs : ∀ c ∈ cs, 47 ∉ c ∧ 0 ∉ c)
    (h : Holds room buf t rest) (hwf : t.Wf) :
    (walk buf cs >>= fun r => finish r.1 r.2) =
      if fills room (t.lengths cs) then .error .overrun
      else .ok (cs.foldl Trail.step t).output := by
  induction cs generalizing room buf t rest with
  | nil =>
      have hno : fills room (t.lengths []) = false := by cases room <;> rfl
      rw [walk, Result.ok_bind, h.finish_nil hwf, hno]
      rfl
  | cons c cs ih =>
      rw [List.forall_mem_cons] at hcs
      have hpos : 0 < t.text.length := Nat.lt_of_lt_of_le hwf.lead t.lead_le
      by_cases hnil : cs = []
      · subst hnil
        rw [walk, Trail.lengths, List.foldl_cons, List.foldl_nil]
        by_cases hdots : isDots c = true
        · obtain ⟨buf', rest', hvisit, hholds⟩ := h.visit_dots hwf hdots
          have hno : fills room [] = false := by cases room <;> rfl
          rw [if_pos hdots, if_pos hdots, hvisit, hno]
          exact hholds.finish_nil (hwf.step hcs.1)
        · have hname : IsName c := ⟨by simpa using hdots, hcs.1⟩
          have hno : ∀ r : Option ℕ, fills r [] = false := by
            intro r
            cases r <;> rfl
          rw [if_neg hdots, if_neg hdots, Result.ok_bind, h.finish_name hwf hname,
            fills_cons room (by omega), hno, Bool.or_false]
          simp only [decide_eq_true_eq]
      · rw [walk, Trail.lengths, List.foldl_cons]
        · by_cases hdots : isDots c = true
          · obtain ⟨buf', rest', hvisit, hholds⟩ := h.visit_dots hwf hdots
            rw [if_pos hdots, hvisit]
            exact ih hcs.2 hholds (hwf.step hcs.1)
          · have hname : IsName c := ⟨by simpa using hdots, hcs.1⟩
            rw [if_neg hdots, visit_name buf hname, fills_cons room (by omega), Nat.add_sub_cancel]
            rcases h.push hwf hname with ⟨hroom, hpush⟩ | ⟨hroom, buf', rest', hpush, hholds⟩
            · rw [hpush, if_pos (by simp [hroom])]
              rfl
            · rw [hpush, decide_eq_false hroom, Bool.false_or]
              exact ih hcs.2 hholds (hwf.step hcs.1)
        · exact hnil
        · exact hnil

end Buffer

/-! ## The start -/

/-- The components of a path have no separators, and no bytes that the path does not have. -/
theorem mem_splitOn {s c : List UInt8} (hc : c ∈ s.splitOn 47) : 47 ∉ c ∧ ∀ x ∈ c, x ∈ s := by
  induction hn : s.length using Nat.strong_induction_on generalizing s with
  | _ n ih =>
      rcases exists_component s with hs | ⟨d, rest, rfl, hd⟩
      · rw [List.splitOn_eq_singleton hs, List.mem_singleton] at hc
        subst hc
        exact ⟨hs, fun x hx => hx⟩
      · rw [List.splitOn_append_cons_self, List.splitOn_eq_singleton hd, List.singleton_append,
          List.mem_cons] at hc
        rcases hc with rfl | hc
        · exact ⟨hd, fun x hx => List.mem_append_left _ hx⟩
        · obtain ⟨h₁, h₂⟩ := ih rest.length (by simp at hn; omega) hc rfl
          exact ⟨h₁, fun x hx => by simp [h₂ x hx]⟩

theorem components_ok {s : List UInt8} (h : 0 ∉ s) : ∀ c ∈ s.splitOn 47, 47 ∉ c ∧ 0 ∉ c := by
  intro c hc
  obtain ⟨h₁, h₂⟩ := mem_splitOn hc
  exact ⟨h₁, fun hmem => h (h₂ 0 hmem)⟩

/-- A buffer whose length is known is grown with zeros. -/
theorem bufcheck_eq {data : List UInt8} (h : 0 < data.length) (p limit : ℕ) :
    ∃ zeros, bufcheck ⟨data, p, data.length⟩ limit =
        .ok ⟨data ++ List.replicate zeros 0, p, (data ++ List.replicate zeros (0 : UInt8)).length⟩ ∧
      limit < (data ++ List.replicate zeros (0 : UInt8)).length := by
  rw [bufcheck]
  dsimp only
  by_cases hlt : limit < data.length
  · exact ⟨0, by simp [hlt]⟩
  · have hdoubled := doubled_spec limit h
    refine ⟨doubled limit data.length - data.length, ?_, ?_⟩
    · rw [if_neg hlt, if_neg (by omega), resize_of_ge hdoubled.2]
      congr 2
      simp
      omega
    · simp
      omega

/-- A pointer behind a separator is put on it. -/
theorem settle_separator {body rest : List UInt8} {x : UInt8} (buf : Buf)
    (hdata : buf.data = body ++ 47 :: x :: rest) (hp : buf.p = body.length + 1) :
    settle buf = .ok ⟨body ++ 47 :: 0 :: rest, body.length, buf.buflen⟩ := by
  have hget : buf.data[buf.p - 1]? = some 47 := by
    rw [hdata, hp]
    simp
  have hdata' : buf.data = (body ++ [47]) ++ x :: rest := by
    rw [hdata]
    simp
  rw [settle, if_pos ⟨by omega, hget⟩, pure_bind]
  dsimp only
  rw [write_at ⟨buf.data, buf.p - 1, buf.buflen⟩ hdata' (by simp [hp])]
  simp [hp]

/-- A pointer behind a name is put on a separator, and `buflen` is one more. -/
theorem settle_name {body rest : List UInt8} {x y : UInt8} (buf : Buf)
    (hdata : buf.data = body ++ x :: y :: rest) (hp : buf.p = body.length)
    (hlast : body.getLast? ≠ some 47) (hbuflen : body.length < buf.buflen + 1) :
    settle buf = .ok ⟨body ++ 47 :: 0 :: rest, body.length, buf.buflen + 1⟩ := by
  have hget : ¬ (0 < buf.p ∧ buf.data[buf.p - 1]? = some 47) := by
    rintro ⟨hpos, hget⟩
    rw [hdata, hp, List.getElem?_append_left (by omega)] at hget
    exact hlast (by rw [List.getLast?_eq_getElem?, hget])
  have hcheck : bufcheck { buf with buflen := buf.buflen + 1 } buf.p =
      .ok { buf with buflen := buf.buflen + 1 } := by
    rw [bufcheck, if_pos (by dsimp only; omega)]
  have hdata' : body ++ 47 :: y :: rest = (body ++ [47]) ++ y :: rest := by simp
  rw [settle, if_neg hget, hcheck, Result.ok_bind]
  dsimp only
  rw [write_at ⟨buf.data, buf.p, buf.buflen + 1⟩ hdata hp, Result.ok_bind]
  dsimp only
  rw [write_at ⟨body ++ 47 :: y :: rest, buf.p, buf.buflen + 1⟩ hdata' (by simp [hp])]
  simp [hp]

/-- The trail of an absolute path, before its first component. -/
theorem exists_lead {fname : List UInt8} (h : fname.head? = some 47) :
    ∃ k rest, fname = slashes (k + 1) ++ rest ∧ skiproot fname = k + 1 ∧
      fname.drop (k + 1) = rest := by
  obtain ⟨n, rest, rfl, hrest⟩ := exists_slashes fname
  cases n with
  | zero => exact absurd h (by simpa using hrest)
  | succ k => exact ⟨k, rest, rfl, skiproot_slashes _ hrest,
    List.drop_left' (List.length_replicate ..)⟩

/-- **An absolute path is expanded to what is returned for its trail.** -/
theorem expandFrom_absolute (env : Env) (relative : List UInt8 → Except Failure Buf)
    {fname : List UInt8} (habs : fname.head? = some 47) (hnul : 0 ∉ fname) {result : List UInt8}
    (hresult : 0 < result.length) :
    expandFrom env relative fname result = .ok (Trail.ofPath fname).output := by
  obtain ⟨k, rest, hfname, hroot, hdrop⟩ := exists_lead habs
  obtain ⟨zeros, hcheck, hlt⟩ := bufcheck_eq hresult (k + 1) (k + 1)
  generalize hgrown : result ++ List.replicate zeros (0 : UInt8) = grown at hcheck hlt
  have hwrite : write ⟨grown, k + 1, grown.length⟩ 0 (slashes (k + 1)) =
      .ok ⟨slashes (k + 1) ++ grown.drop (k + 1), k + 1, grown.length⟩ := by
    rw [write, if_pos (by simp; omega)]
    simp
  obtain ⟨x, tail, htail⟩ : ∃ x tail, grown.drop (k + 1) = x :: tail := by
    refine List.exists_cons_of_ne_nil fun hnil => ?_
    have := congrArg List.length hnil
    simp at this
    omega
  have hsplit : slashes (k + 1) ++ grown.drop (k + 1) = slashes k ++ 47 :: x :: tail := by
    rw [htail, slashes_add, List.append_assoc]
    rfl
  have hsettle : settle ⟨slashes (k + 1) ++ grown.drop (k + 1), k + 1, grown.length⟩ =
      .ok ⟨slashes k ++ 47 :: 0 :: tail, k, grown.length⟩ := by
    rw [settle_separator _ hsplit (by simp)]
    simp
  have hholds : Holds none ⟨slashes k ++ 47 :: 0 :: tail, k, grown.length⟩ ⟨k + 1, [], false⟩
      (0 :: tail) := by
    refine ⟨?_, ?_, fun _ => by simp, .inl ⟨rfl, ?_⟩⟩
    · rw [Trail.text_eq, slashes_add]
      simp [namesText]
    · simp [Trail.text_eq, namesText]
    · have := congrArg List.length htail
      simp at this ⊢
      omega
  have hrun := run_eq (rest.splitOn 47) (components_ok fun h => hnul (by simp [hfname, h])) hholds
    ⟨by simp, by simp, by simp⟩
  have h126 : fname.head? ≠ some 126 := by simp [habs]
  rw [expandFrom, if_neg h126, if_pos habs, hroot]
  dsimp only
  rw [hcheck, Result.ok_bind, hwrite, Result.ok_bind, pure_bind]
  dsimp only
  rw [hsettle, Result.ok_bind, scan_eq_walk, hdrop]
  refine hrun.trans ?_
  rw [Trail.ofPath, hroot, hdrop]
  rfl

/-- A relative path is put behind its directory. -/
theorem expandFrom_relative (env : Env) (relative : List UInt8 → Except Failure Buf)
    {fname : List UInt8} (hhome : fname.head? ≠ some 126) (hrel : fname.head? ≠ some 47)
    (result : List UInt8) :
    expandFrom env relative fname result =
      relative result >>= fun buf => settle buf >>= fun buf =>
        walk buf (fname.splitOn 47) >>= fun r => finish r.1 r.2 := by
  rw [expandFrom, if_neg hhome, if_neg hrel]
  dsimp only
  cases relative result with
  | error e => rfl
  | ok buf =>
      simp only [Result.ok_bind, pure_bind, scan_eq_walk]

/-- Components keep a trail well formed. -/
theorem Trail.Wf.foldl {t : Trail} (h : t.Wf) {cs : List (List UInt8)}
    (hcs : ∀ c ∈ cs, 47 ∉ c ∧ 0 ∉ c) : (cs.foldl Trail.step t).Wf := by
  induction cs generalizing t with
  | nil => exact h
  | cons c cs ih =>
      rw [List.forall_mem_cons] at hcs
      exact ih (h.step hcs.1) hcs.2

/-- The trail of an absolute path is well formed. -/
theorem Trail.wf_ofPath {fname : List UInt8} (habs : fname.head? = some 47) (hnul : 0 ∉ fname) :
    (Trail.ofPath fname).Wf := by
  obtain ⟨k, rest, hfname, hroot, hdrop⟩ := exists_lead habs
  rw [Trail.ofPath, hroot, hdrop]
  refine Trail.Wf.foldl ⟨Nat.succ_pos k, by simp, by simp⟩ (components_ok fun h => hnul ?_)
  simp [hfname, h]

/-- What is returned for a trail begins with its separators and does not end with one, unless there
are no names. -/
theorem Trail.exists_output {t : Trail} (h : t.Wf) (hlost : t.lost = false) :
    ∃ front, t.output = slashes t.lead ++ front ∧ front.head? ≠ some 47 ∧
      front.getLast? ≠ some 47 ∧ 0 ∉ front ∧ (front = [] ↔ t.names = []) ∧
      t.text = if t.names = [] then t.output else t.output ++ [47] := by
  rw [output, if_neg (by simp [hlost])]
  by_cases hnil : t.names = []
  · refine ⟨[], ?_, by simp, by simp, by simp, by simp [hnil], ?_⟩
    · rw [if_pos hnil, List.append_nil]
    · rw [if_pos hnil, if_pos hnil, text_eq, hnil]
      simp [namesText]
  · obtain ⟨front, hfront, hne, hhead, hlast⟩ := exists_front hnil h.names
    have htext : t.text = slashes t.lead ++ front ++ [47] := by
      rw [text_eq, hfront, List.append_assoc]
    have hzero : 0 ∉ front := by
      have hnames := zero_not_mem_namesText h.names
      rw [hfront, List.mem_append, not_or] at hnames
      exact hnames.1
    refine ⟨front, ?_, hhead, hlast, hzero, by simp [hne, hnil], ?_⟩
    · rw [if_neg hnil, htext, List.dropLast_concat]
    · rw [if_neg hnil, if_neg hnil, htext, List.dropLast_concat]

/-- The pointer is put behind the path. -/
theorem toEnd_eq {k : ℕ} {front : List UInt8} (hhead : front.head? ≠ some 47)
    (hlast : front.getLast? ≠ some 47) (hzero : 0 ∉ front) (rest : List UInt8) (p buflen : ℕ) :
    toEnd ⟨slashes k ++ front ++ 0 :: rest, p, buflen⟩ =
      .ok ⟨slashes k ++ front ++ 0 :: rest, k + front.length, buflen⟩ := by
  have hbody : 0 ∉ slashes k ++ front := by simp [hzero]
  have hchomp := chompdirsep_eq hlast 0 k
  rw [slashes_zero, List.append_nil] at hchomp
  rw [toEnd]
  dsimp only
  rw [cstr_eq hbody, Result.ok_bind, skiproot_slashes k hhead,
    List.drop_left' (List.length_replicate ..), hchomp]
  rfl

theorem doubled_once {limit buflen : ℕ} (hle : buflen ≤ limit) (hlt : limit < 2 * buflen) :
    doubled limit buflen = 2 * buflen := by
  rw [doubled, if_neg (by omega), if_neg (by omega), doubled, if_neg (by omega), if_pos (by omega),
    Nat.mul_comm]

/-- **What a path is put behind**: the directory with a separator, or nothing when the directory is
lost. -/
theorem fromDir_cases (env : Env) {dname : List UInt8} (habs : dname.head? = some 47)
    (hnul : 0 ∉ dname) {result : List UInt8} (hresult : 0 < result.length) {t : Trail}
    (ht : t = Trail.ofPath dname) :
    (t.lost ≠ false ∧ ∃ e, fromDir env dname result = .error e) ∨
      t.lost = false ∧ ∃ buf buf' rest, fromDir env dname result = .ok buf ∧
        settle buf = .ok buf' ∧ Holds t.room buf' t rest := by
  have hwf : t.Wf := ht ▸ Trail.wf_ofPath habs hnul
  have hdir : fromDir env dname result =
      bufcheck ⟨t.output, 0, t.output.length⟩ (t.output.length + 1) >>= toEnd := by
    rw [fromDir, expandFrom_absolute env _ habs hnul hresult, Result.ok_bind, ht]
  rw [hdir]
  by_cases hlost : t.lost = false
  · obtain ⟨front, hout, hhead, hlast, hzero, hnil, htext⟩ := Trail.exists_output hwf hlost
    have hlen : t.output.length = t.lead + front.length := by
      rw [hout, List.length_append, List.length_replicate]
    have hlead := hwf.lead
    have hgrown := doubled_spec (t.output.length + 1) (by omega : 0 < t.output.length)
    generalize hn : doubled (t.output.length + 1) t.output.length = n at hgrown
    have hcheck : bufcheck ⟨t.output, 0, t.output.length⟩ (t.output.length + 1) =
        .ok ⟨t.output ++ List.replicate (n - t.output.length) 0, 0, n⟩ := by
      rw [bufcheck]
      dsimp only
      rw [if_neg (by omega), if_neg (by omega), hn, resize_of_ge (by omega)]
    rw [hcheck, Result.ok_bind]
    refine .inr ⟨hlost, ?_⟩
    by_cases hnames : t.names = []
    · -- the root: the pointer goes back to the separator
      obtain ⟨j, hj⟩ : ∃ j, n - t.output.length = j + 1 := ⟨n - t.output.length - 1, by omega⟩
      obtain ⟨k, hk⟩ : ∃ k, t.lead = k + 1 := ⟨t.lead - 1, by omega⟩
      rw [hnil.mpr hnames, List.append_nil, hk] at hout
      have hend := toEnd_eq (k := k + 1) hhead hlast hzero (List.replicate j 0) 0 n
      rw [hnil.mpr hnames, List.append_nil, ← hout] at hend
      have hsplit : t.output ++ 0 :: List.replicate j 0 =
          slashes k ++ 47 :: 0 :: List.replicate j 0 := by
        rw [hout, slashes_add, List.append_assoc]
        rfl
      rw [hj, List.replicate_succ, hend, Trail.room, if_pos hnames]
      refine ⟨_, _, 0 :: List.replicate j 0, rfl, settle_separator _ hsplit (by simp), ?_⟩
      rw [if_pos hnames] at htext
      refine ⟨?_, ?_, fun _ => by simp [hlost], .inl ⟨rfl, ?_⟩⟩
      · rw [htext, hsplit]
      · rw [htext, hout]
        simp
      · have := congrArg List.length hout
        simp at this ⊢
        omega
    · -- a separator is written, and `buflen` is one too large
      have hfront := List.length_pos_iff.mpr (hnil.not.mpr hnames)
      have htwice : n = 2 * t.output.length := by rw [← hn, doubled_once (by omega) (by omega)]
      obtain ⟨j, hj⟩ : ∃ j, n - t.output.length = j + 2 := ⟨t.output.length - 2, by omega⟩
      have hend := toEnd_eq (k := t.lead) hhead hlast hzero (0 :: List.replicate j 0) 0 n
      rw [← hout, ← hlen] at hend
      have hend' : t.output.getLast? ≠ some 47 := by
        rw [hout, List.getLast?_append_of_ne_nil _ (hnil.not.mpr hnames)]
        exact hlast
      rw [hj, List.replicate_succ, List.replicate_succ, hend, Trail.room, if_neg hnames]
      refine ⟨_, _, 0 :: List.replicate j 0, rfl, settle_name _ rfl rfl hend' ?_, ?_⟩
      · dsimp only
        omega
      rw [if_neg hnames] at htext
      refine ⟨?_, ?_, fun h => absurd h hnames, .inr ⟨?_, ?_⟩⟩
      · rw [htext, List.append_assoc]
        rfl
      · rw [htext]
        simp
      · simp
        omega
      · simp
        omega
  · refine .inl ⟨hlost, .loops, ?_⟩
    have hout : t.output = [] := by rw [Trail.output, if_pos (by simpa using hlost)]
    rw [hout]
    rfl

/-! ## What is returned -/

/-- The names of a trail are the components that have been resolved. -/
theorem Trail.names_step (t : Trail) (c : List UInt8) :
    (t.step c).names = resolveStep t.names c := by
  rw [step, resolveStep]
  split_ifs with hdot hdots hnil hone
  · rfl
  · rw [hnil]
    rfl
  · obtain ⟨x, hx⟩ := List.length_eq_one_iff.mp hone
    rw [hx]
    rfl
  · rfl
  · rfl

theorem Trail.names_foldl (t : Trail) (cs : List (List UInt8)) :
    (cs.foldl step t).names = resolve t.names cs := by
  induction cs generalizing t with
  | nil => rfl
  | cons c cs ih =>
      rw [List.foldl_cons, ih, names_step]
      rfl

/-- Leading separators resolve to nothing. -/
theorem resolve_slashes (ns : List (List UInt8)) (k : ℕ) (rest : List UInt8) :
    resolve ns ((slashes k ++ rest).splitOn 47) = resolve ns (rest.splitOn 47) := by
  induction k with
  | zero => rfl
  | succ k ih =>
      have hsplit : (47 :: (slashes k ++ rest)).splitOn 47
        = [] :: (slashes k ++ rest).splitOn 47 := by
        rw [← List.nil_append (47 :: _), List.splitOn_append_cons_self,
          List.splitOn_eq_singleton (by simp), List.singleton_append]
      rw [slashes_succ, List.cons_append, hsplit, ← ih]
      rfl

theorem Trail.names_ofPath {fname : List UInt8} (habs : fname.head? = some 47) :
    (ofPath fname).names = resolve [] (fname.splitOn 47) := by
  obtain ⟨k, rest, hfname, hroot, hdrop⟩ := exists_lead habs
  rw [ofPath, hroot, hdrop, names_foldl, hfname, resolve_slashes]

theorem names_namesText {ns : List (List UInt8)} (h : ∀ c ∈ ns, IsName c) :
    names (namesText ns) = ns := by
  induction ns with
  | nil => exact names_nil
  | cons c ns ih =>
      rw [List.forall_mem_cons] at h
      have hcons : namesText (c :: ns) = c ++ 47 :: namesText ns := by simp [namesText]
      rw [hcons, names_append_slash, names_of_not_mem h.1.2.1 h.1.ne_nil, ih h.2,
        List.singleton_append]

/-- **A trail that is not lost is returned in its canonical form.** -/
theorem Trail.canonical_output {t : Trail} (h : t.Wf) (hlost : t.lost = false) :
    Canonical t.output t.names := by
  obtain ⟨front, hout, hhead, hlast, hzero, hnil, htext⟩ := exists_output h hlost
  refine ⟨?_, ?_, fun hend => ?_⟩
  · rw [hout, List.head?_append_of_ne_nil _ (by simpa using h.lead.ne')]
    simp [List.head?_replicate, h.lead.ne']
  · have hnames : File.names t.text = t.names := by
      rw [text_eq, names_slashes_append, names_namesText h.names]
    rw [htext] at hnames
    split_ifs at hnames with hnames'
    · exact hnames
    · exact (names_append_slashes 1 t.output).symm.trans hnames
  · by_contra hne
    rw [hout, List.getLast?_append_of_ne_nil _ (hnil.not.mpr hne)] at hend
    exact hlast hend

/-- Empty components do nothing to a trail. -/
theorem Trail.foldl_filter (t : Trail) (cs : List (List UInt8)) :
    cs.foldl step t = (cs.filter (· ≠ [])).foldl step t := by
  induction cs generalizing t with
  | nil => rfl
  | cons c cs ih =>
      by_cases hc : c = []
      · subst hc
        exact ih t
      · rw [List.filter_cons_of_pos (by simpa using hc), List.foldl_cons, List.foldl_cons, ih]

/-- Names are put behind a trail. -/
theorem Trail.foldl_names (t : Trail) (hlost : t.lost = false) {ns : List (List UInt8)}
    (h : ∀ c ∈ ns, IsName c) :
    ns.foldl step t = ⟨t.lead, t.names ++ ns, false⟩ := by
  induction ns generalizing t with
  | nil =>
      rw [List.foldl_nil, List.append_nil, ← hlost]
  | cons c ns ih =>
      rw [List.forall_mem_cons] at h
      rw [List.foldl_cons, step_name t h.1, ih _ rfl h.2, List.append_assoc, List.singleton_append]

/-- **What is returned for a trail has that trail again.** -/
theorem Trail.ofPath_output {t : Trail} (h : t.Wf) (hlost : t.lost = false) :
    ofPath t.output = t := by
  obtain ⟨front, hout, hhead, -⟩ := exists_output h hlost
  have hnames := (canonical_output h hlost).names
  rw [hout, names_slashes_append] at hnames
  rw [ofPath, hout, skiproot_slashes t.lead hhead, List.drop_left' (List.length_replicate ..),
    foldl_filter]
  have hfilter : (front.splitOn 47).filter (· ≠ []) = t.names := hnames
  rw [hfilter, foldl_names _ rfl h.names, List.nil_append, ← hlost]

theorem Trail.zero_not_mem_output {t : Trail} (h : t.Wf) (hlost : t.lost = false) :
    0 ∉ t.output := by
  obtain ⟨front, hout, -, -, hzero, -⟩ := exists_output h hlost
  simp [hout, hzero]

/-! ## The function -/

theorem fileExpandPath_absolute (env : Env) {fname : List UInt8} (habs : fname.head? = some 47)
    (hnul : 0 ∉ fname) (dname : Option (List UInt8)) :
    fileExpandPath env fname dname = .ok (Trail.ofPath fname).output :=
  expandFrom_absolute env _ habs hnul (by simp)

/-- **A path that is expanded to what is returned for a trail is expanded as it should if the trail
is not lost.** -/
theorem expandsTo_trail (env : Env) {fname : List UInt8} {dname : Option (List UInt8)} {t : Trail}
    (hwf : t.Wf) (hnames : t.names = target fname dname)
    (h : fileExpandPath env fname dname = .ok t.output) :
    ExpandsTo env fname dname ↔ t.lost = false := by
  refine ⟨fun ⟨r, hr, hcanonical, _⟩ => ?_, fun hlost => ⟨t.output, h, ?_, fun dname' => ?_⟩⟩
  · by_contra hlost
    have hout : t.output = [] := by rw [Trail.output, if_pos (by simpa using hlost)]
    rw [h, hout] at hr
    cases hr
    cases hcanonical.head
  · rw [← hnames]
    exact Trail.canonical_output hwf hlost
  · rw [fileExpandPath_absolute env (Trail.canonical_output hwf hlost).head
      (Trail.zero_not_mem_output hwf hlost), Trail.ofPath_output hwf hlost]

theorem not_expandsTo_error (env : Env) {fname : List UInt8} {dname : Option (List UInt8)}
    {e : Failure} (h : fileExpandPath env fname dname = .error e) :
    ¬ ExpandsTo env fname dname := by
  intro ⟨r, hr, _⟩
  rw [h] at hr
  cases hr

/-- An absolute path. -/
theorem expandsTo_absolute (env : Env) {fname : List UInt8} (dname : Option (List UInt8))
    (hnul : 0 ∉ fname) (habs : fname.head? = some 47) :
    ExpandsTo env fname dname ↔ Expandable fname dname := by
  rw [Expandable, if_pos habs]
  refine expandsTo_trail env (Trail.wf_ofPath habs hnul) ?_
    (fileExpandPath_absolute env habs hnul dname)
  rw [Trail.names_ofPath habs, target, if_pos habs]

/-- A path with the directory that it is relative to. -/
theorem expandsTo_relative (env : Env) {fname dir : List UInt8} (hnul : 0 ∉ fname)
    (hrel : fname.head? ≠ some 47) (hhome : fname.head? ≠ some 126) (hdir : dir.head? = some 47)
    (hdirnul : 0 ∉ dir) :
    ExpandsTo env fname (some dir) ↔ Expandable fname (some dir) := by
  have hwf := Trail.wf_ofPath hdir hdirnul
  have hcs := components_ok hnul
  have hpath : fileExpandPath env fname (some dir) =
      fromDir env dir (List.replicate (env.maxpathlen + 2) 32) >>= fun buf => settle buf >>=
        fun buf => walk buf (fname.splitOn 47) >>= fun r => finish r.1 r.2 :=
    expandFrom_relative env _ hhome hrel _
  have hresult : 0 < (List.replicate (env.maxpathlen + 2) (32 : UInt8)).length := by simp
  rw [Expandable, if_neg hrel]
  simp only [Option.getD_some]
  rcases fromDir_cases env hdir hdirnul hresult rfl with
    ⟨hno, e, herror⟩ | ⟨hok, buf, buf', rest, hbuf, hsettle, hholds⟩
  · rw [herror] at hpath
    exact iff_of_false (not_expandsTo_error env hpath) fun hall => hno hall.1
  rw [hbuf, Result.ok_bind, hsettle, Result.ok_bind, run_eq _ hcs hholds hwf] at hpath
  split_ifs at hpath with hfull
  · refine iff_of_false (not_expandsTo_error env hpath) fun hall => ?_
    rw [hall.2.2] at hfull
    cases hfull
  · rw [Bool.not_eq_true] at hfull
    rw [expandsTo_trail env (hwf.foldl hcs) ?_ hpath]
    · exact ⟨fun hlost => ⟨hok, hlost, hfull⟩, fun hall => hall.2.1⟩
    · rw [Trail.names_foldl, Trail.names_ofPath hdir, target, if_neg hrel, Option.getD_some]

/-- **A path is expanded as it should exactly if it is expandable.** -/
theorem expandsTo_iff (env : Env) (fname : List UInt8) (dname : Option (List UInt8))
    (hnul : 0 ∉ fname)
    (h : fname.head? = some 47 ∨ fname.head? ≠ some 126 ∧
      ∃ dir, dname = some dir ∧ dir.head? = some 47 ∧ 0 ∉ dir) :
    ExpandsTo env fname dname ↔ Expandable fname dname := by
  by_cases habs : fname.head? = some 47
  · exact expandsTo_absolute env dname hnul habs
  · obtain ⟨hhome, dir, rfl, hdir, hdirnul⟩ := h.resolve_left habs
    exact expandsTo_relative env hnul habs hhome hdir hdirnul

/-- A system where all directories are the root. -/
def rootEnv : Env where
  home := some [47]
  pwDir := fun _ => none
  getcwd := [47]
  maxpathlen := 1024

/-- `File.expand_path("lib", "/usr")` -/
theorem expandsTo_iff_usrLib :
    ExpandsTo rootEnv [108, 105, 98] (some [47, 117, 115, 114]) :=
  (expandsTo_iff rootEnv _ _ (by decide)
    (.inr ⟨by decide, _, rfl, by decide, by decide⟩)).mpr (by
      rw [Expandable, if_neg (by decide)]
      decide +kernel)

/-- `File.expand_path("//a/..")` is empty, and for `File.expand_path("test", "/tmp")` the last byte
is written behind the buffer. -/
theorem not_expandsTo_root : ¬ ExpandsTo rootEnv [47, 47, 97, 47, 46, 46] none ∧
    ¬ ExpandsTo rootEnv [116, 101, 115, 116] (some [47, 116, 109, 112]) := by
  refine ⟨?_, ?_⟩
  · rw [expandsTo_absolute rootEnv none (by decide) (by decide), Expandable, if_pos (by decide)]
    decide +kernel
  · rw [expandsTo_relative rootEnv (by decide) (by decide) (by decide) (by decide) (by decide),
      Expandable, if_neg (by decide)]
    decide +kernel

end MacRuby.File
