import MacRuby.Lib.Refinement
import MacRuby.Object.Ivar

/-!
# Instance variables as a finite map

What the instance variables of an object are for: a map from names to values. Under a condition on
the calls, an object answers every sequence of calls as the map does, in the array, in the
dictionary and across the change from one to the other. The condition excludes the calls that meet
an entry left by a removal, and removal from the dictionary.

## Main definitions

* `IvarMap`, `IvarMap.Spec` — the map and its answers.
* `CleanCall` — the calls that do not meet a left-over entry.
* `Represents` — the object stands for the map.

## Main results

* `ivarStep_represents` — one call.
* `ivar_conforms` — every run of clean calls.
-/

namespace MacRuby

open Refinement

variable {ID V : Type} [DecidableEq ID]

/-! ## The map -/

/-- The values of the variables that are defined. -/
abbrev IvarMap (ID V : Type) := ID → Option V

/-- What a call on the map answers, and the map after it. The first argument is the outcome of the
checks before a change. -/
def IvarMap.Spec (interp : Interp ID V) (check : Except (IvarError ID) Unit) (m : IvarMap ID V) :
    IvarOp ID V → IvarAnswer ID V → IvarMap ID V → Prop
  | .set id val, ans, m' =>
      match check with
      | .error e => ans = .raised e ∧ m' = m
      | .ok () => ans = .value (some val) none ∧ m' = Function.update m id (some val)
  | .get id, ans, m' =>
      m' = m ∧ ans = match m id with
        | some val => .value (some val) none
        | none => .value (some interp.nil)
            (some ("instance variable " ++ interp.id2name id ++ " not initialized"))
  | .attrGet id, ans, m' => m' = m ∧ ans = .value (some ((m id).getD interp.nil)) none
  | .defined id, ans, m' => m' = m ∧ ans = .bool (m id).isSome
  | .remove id, ans, m' =>
      match check, interp.isInstanceId id, m id with
      | .error e, _, _ => ans = .raised e ∧ m' = m
      | .ok (), false, _ => m' = m ∧ ans = .raised (.nameError id
          ("`" ++ interp.id2name id ++ "' is not allowed as an instance variable name"))
      | .ok (), true, some val => ans = .value (some val) none ∧ m' = Function.update m id none
      | .ok (), true, none => m' = m ∧ ans = .raised (.nameError id
          ("instance variable " ++ interp.id2name id ++ " not defined"))
  | .instanceVariables, ans, m' =>
      m' = m ∧ ∃ ids, ans = .ids ids ∧ ids.Nodup ∧
        ∀ id, id ∈ ids ↔ interp.isInstanceId id = true ∧ (m id).isSome = true

/-! ## The calls that do not meet a left-over entry -/

/-- The condition on a call. A variable is not set while a free entry stands before its own, one
is not removed while its first entry is free, nor from the dictionary, and the variables are not
listed while an entry is free. -/
def CleanCall (interp : Interp ID V) (obj : RObject ID V) : IvarOp ID V → Prop
  | .set id _ =>
      match obj.ivars with
      | .ary es => es.Pairwise fun e e' => e.value = none → e'.name = id → e'.value = none
      | .tbl _ => True
  | .remove id => interp.isInstanceId id = true →
      match obj.ivars with
      | .ary es => findEntry id es ≠ some none
      | .tbl dict => id ∉ dict
  | .instanceVariables =>
      match obj.ivars with
      | .ary es => ∀ e ∈ es, e.value ≠ none
      | .tbl _ => True
  | _ => True

instance CleanCall.instDecidable (interp : Interp ID V) :
    ∀ obj op, Decidable (CleanCall interp obj op)
  | ⟨_, _, .ary es⟩, .set id _ => inferInstanceAs (Decidable (es.Pairwise fun e e' =>
      e.value = none → e'.name = id → e'.value = none))
  | ⟨_, _, .tbl _⟩, .set _ _ => inferInstanceAs (Decidable True)
  | ⟨_, _, .ary es⟩, .remove id =>
      match h : findEntry id es with
      | some none => decidable_of_iff (¬ interp.isInstanceId id = true) (by simp [CleanCall, h])
      | some (some _) | none => isTrue (by simp [CleanCall, h])
  | ⟨_, _, .tbl dict⟩, .remove id =>
      inferInstanceAs (Decidable (interp.isInstanceId id = true → id ∉ dict))
  | ⟨_, _, .ary es⟩, .instanceVariables =>
      inferInstanceAs (Decidable (∀ e ∈ es, e.value ≠ none))
  | ⟨_, _, .tbl _⟩, .instanceVariables => inferInstanceAs (Decidable True)
  | _, .get _ | _, .attrGet _ | _, .defined _ => inferInstanceAs (Decidable True)

/-! ## The entries of the array -/

/-- Of the entries of one name only the first may have a value. -/
def Distinct (es : List (IvarEntry ID V)) : Prop :=
  es.Pairwise fun e e' => e.name = e'.name → e'.value = none

theorem findEntry_eq_none {id : ID} {es : List (IvarEntry ID V)} :
    findEntry id es = none ↔ ∀ e ∈ es, e.name ≠ id := by
  induction es with
  | nil => simp [findEntry]
  | cons e es ih =>
      by_cases h : e.name = id
      · simp [findEntry, h]
      · simp [findEntry, h, ih]

theorem exists_of_findEntry {id : ID} {es : List (IvarEntry ID V)} {v : Option V}
    (h : findEntry id es = some v) : ∃ e ∈ es, e.name = id ∧ e.value = v := by
  induction es with
  | nil => cases h
  | cons e es ih =>
      rw [findEntry] at h
      split at h
      · exact ⟨e, List.mem_cons_self, ‹_›, Option.some.inj h⟩
      · obtain ⟨e', he', hname, hval⟩ := ih h
        exact ⟨e', List.mem_cons_of_mem _ he', hname, hval⟩

/-- The value of a variable in the array. -/
def entryValue (id : ID) (es : List (IvarEntry ID V)) : Option V := (findEntry id es).getD none

@[simp] theorem entryValue_nil (id : ID) : entryValue id ([] : List (IvarEntry ID V)) = none := rfl

theorem entryValue_cons (id : ID) (e : IvarEntry ID V) (es : List (IvarEntry ID V)) :
    entryValue id (e :: es) = if e.name = id then e.value else entryValue id es := by
  by_cases h : e.name = id <;> simp [entryValue, findEntry, h]

theorem entryValue_eq_none {id : ID} {es : List (IvarEntry ID V)}
    (h : ∀ e ∈ es, e.name = id → e.value = none) : entryValue id es = none := by
  induction es with
  | nil => rfl
  | cons e es ih =>
      rw [entryValue_cons]
      split
      · exact h e List.mem_cons_self ‹_›
      · exact ih fun e' he' => h e' (List.mem_cons_of_mem _ he')

/-- A variable is defined when an entry of its name has a value. -/
theorem isSome_entryValue {id : ID} {es : List (IvarEntry ID V)} (h : Distinct es) :
    (entryValue id es).isSome = true ↔ ∃ e ∈ es, e.name = id ∧ e.value ≠ none := by
  constructor
  · intro hsome
    by_contra hno
    push Not at hno
    rw [entryValue_eq_none hno] at hsome
    simp at hsome
  · rintro ⟨e, he, rfl, hval⟩
    induction es with
    | nil => cases he
    | cons e' es ih =>
        rw [Distinct, List.pairwise_cons] at h
        rw [entryValue_cons]
        rcases List.mem_cons.mp he with rfl | he
        · simpa [Option.isSome_iff_ne_none] using hval
        · have hname : e'.name ≠ e.name := fun hname => hval (h.1 e he hname)
          simpa [hname] using ih h.2 he

/-! ## Setting a variable in the array -/

theorem storeEntry_eq_none {id : ID} {val : V} {es : List (IvarEntry ID V)} :
    storeEntry id val es = none ↔ ∀ e ∈ es, e.value ≠ none ∧ e.name ≠ id := by
  induction es with
  | nil => simp [storeEntry]
  | cons e es ih =>
      rw [storeEntry]
      cases hval : e.value with
      | none => simp [hval]
      | some _ =>
          by_cases hname : e.name = id
          · simp [hval, hname]
          · simp [hval, hname, ih]

theorem mem_storeEntry {id : ID} {val : V} {es es' : List (IvarEntry ID V)}
    (h : storeEntry id val es = some es') {e : IvarEntry ID V} (he : e ∈ es') :
    e ∈ es ∨ e.name = id := by
  induction es generalizing es' with
  | nil => cases h
  | cons e₀ es ih =>
      rw [storeEntry] at h
      split at h
      · obtain rfl := Option.some.inj h
        rcases List.mem_cons.mp he with rfl | he
        · exact .inr rfl
        · exact .inl (List.mem_cons_of_mem _ he)
      · split at h
        · obtain rfl := Option.some.inj h
          rcases List.mem_cons.mp he with rfl | he
          · exact .inr ‹_›
          · exact .inl (List.mem_cons_of_mem _ he)
        · obtain ⟨es'', hes'', rfl⟩ := Option.map_eq_some_iff.mp h
          rcases List.mem_cons.mp he with rfl | he
          · exact .inl List.mem_cons_self
          · exact (ih hes'' he).imp_left (List.mem_cons_of_mem _)

/-- **A variable set in an entry**, if no free entry stands before its own. -/
theorem storeEntry_spec {id : ID} {val : V} {es es' : List (IvarEntry ID V)}
    (h : storeEntry id val es = some es') (hd : Distinct es)
    (hc : es.Pairwise fun e e' => e.value = none → e'.name = id → e'.value = none) :
    Distinct es' ∧
      ∀ x, entryValue x es' = Function.update (fun x => entryValue x es) id (some val) x := by
  induction es generalizing es' with
  | nil => cases h
  | cons e es ih =>
      rw [Distinct, List.pairwise_cons] at hd
      rw [List.pairwise_cons] at hc
      rw [storeEntry] at h
      split at h
      · rename_i hnone
        rw [Option.isNone_iff_eq_none] at hnone
        obtain rfl := Option.some.inj h
        refine ⟨List.pairwise_cons.mpr ⟨?_, hd.2⟩, ?_⟩
        · intro e' he' hname
          exact hc.1 e' he' hnone hname.symm
        · intro x
          by_cases hx : x = id
          · simp [entryValue_cons, hx]
          · rw [Function.update_of_ne hx, entryValue_cons, entryValue_cons, if_neg (Ne.symm hx)]
            split
            · rename_i hname
              rw [hnone]
              exact entryValue_eq_none fun e' he' hname' => hd.1 e' he' (hname.trans hname'.symm)
            · rfl
      · split at h
        · rename_i hname
          obtain rfl := Option.some.inj h
          refine ⟨List.pairwise_cons.mpr ⟨hd.1, hd.2⟩, ?_⟩
          intro x
          by_cases hx : x = id
          · simp [entryValue_cons, hx, hname]
          · rw [Function.update_of_ne hx, entryValue_cons, entryValue_cons]
            simp [hname, Ne.symm hx]
        · rename_i hname
          obtain ⟨es'', hes'', rfl⟩ := Option.map_eq_some_iff.mp h
          obtain ⟨hd'', hval⟩ := ih hes'' hd.2 hc.2
          refine ⟨List.pairwise_cons.mpr ⟨?_, hd''⟩, ?_⟩
          · intro e' he' heq
            rcases mem_storeEntry hes'' he' with he' | he'
            · exact hd.1 e' he' heq
            · exact absurd (heq.trans he') hname
          · intro x
            rw [entryValue_cons, hval]
            by_cases hx : x = id
            · simp [hx, hname]
            · simp [Function.update_of_ne hx, entryValue_cons]

theorem entryValue_append (x : ID) (es : List (IvarEntry ID V)) (e : IvarEntry ID V)
    (h : ∀ e' ∈ es, e'.name ≠ e.name) :
    entryValue x (es ++ [e]) = Function.update (fun x => entryValue x es) e.name e.value x := by
  induction es with
  | nil =>
      by_cases hx : x = e.name
      · simp [entryValue_cons, hx]
      · simp [entryValue_cons, hx, Ne.symm hx]
  | cons e' es ih =>
      have hne := h e' List.mem_cons_self
      rw [List.cons_append, entryValue_cons, ih fun e'' he'' => h e'' (List.mem_cons_of_mem _ he'')]
      by_cases hx : x = e.name
      · simp [hx, hne]
      · simp [Function.update_of_ne hx, entryValue_cons]

/-- **A new entry for a variable.** -/
theorem append_spec {id : ID} {val : V} {es : List (IvarEntry ID V)}
    (h : storeEntry id val es = none) (hd : Distinct es) :
    Distinct (es ++ [⟨id, some val⟩]) ∧ ∀ x, entryValue x (es ++ [⟨id, some val⟩]) =
      Function.update (fun x => entryValue x es) id (some val) x := by
  have hnone := storeEntry_eq_none.mp h
  constructor
  · refine List.pairwise_append.mpr ⟨hd, List.pairwise_singleton _ _, ?_⟩
    intro e he e' he' hname
    obtain rfl := List.mem_singleton.mp he'
    exact absurd hname (hnone e he).2
  · intro x
    exact entryValue_append x es ⟨id, some val⟩ fun e' he' => (hnone e' he').2

/-! ## The change to the dictionary -/

/-- The dictionary holds what the array held, if the names of the entries are different. -/
theorem lookup_foldl_insert {es : List (IvarEntry ID V)}
    (hne : es.Pairwise fun e e' => e.name ≠ e'.name) (dict : AList fun _ : ID => Option V)
    (x : ID) :
    (es.foldl (fun dict e => dict.insert e.name e.value) dict).lookup x =
      (findEntry x es).or (dict.lookup x) := by
  induction es generalizing dict with
  | nil => simp [findEntry]
  | cons e es ih =>
      rw [List.pairwise_cons] at hne
      rw [List.foldl_cons, ih hne.2, findEntry]
      by_cases hname : e.name = x
      · have hnone : findEntry x es = none :=
          findEntry_eq_none.mpr fun e' he' => hname ▸ (hne.1 e' he').symm
        subst hname
        simp [hnone, AList.lookup_insert]
      · simp [hname, AList.lookup_insert_ne (Ne.symm hname)]

theorem lookup_entriesDict {es : List (IvarEntry ID V)} (hd : Distinct es)
    (hlive : ∀ e ∈ es, e.value ≠ none) (x : ID) :
    (entriesDict es).lookup x = (entryValue x es).map some := by
  have hne : es.Pairwise fun e e' => e.name ≠ e'.name := by
    refine hd.imp_of_mem ?_
    intro e e' _ he' hval hname
    exact hlive e' he' (hval hname)
  rw [entriesDict, lookup_foldl_insert hne, AList.lookup_empty, Option.or_none, entryValue]
  cases hfind : findEntry x es with
  | none => rfl
  | some v =>
      obtain ⟨e, he, -, rfl⟩ := exists_of_findEntry hfind
      obtain ⟨val, hval⟩ := Option.ne_none_iff_exists'.mp (hlive e he)
      simp [hval]

/-! ## Removing a variable from the array -/

theorem mem_undefEntry {id : ID} {es : List (IvarEntry ID V)} {e : IvarEntry ID V}
    (h : e ∈ undefEntry id es) : e ∈ es ∨ e.value = none := by
  induction es with
  | nil => cases h
  | cons e' es ih =>
      rw [undefEntry] at h
      split at h
      · rcases List.mem_cons.mp h with rfl | h
        · exact .inr rfl
        · exact .inl (List.mem_cons_of_mem _ h)
      · rcases List.mem_cons.mp h with rfl | h
        · exact .inl List.mem_cons_self
        · exact (ih h).imp_left (List.mem_cons_of_mem _)

/-- **A variable removed from its entry.** -/
theorem undefEntry_spec (id : ID) {es : List (IvarEntry ID V)} (hd : Distinct es) :
    Distinct (undefEntry id es) ∧
      ∀ x, entryValue x (undefEntry id es) =
        Function.update (fun x => entryValue x es) id none x := by
  induction es with
  | nil =>
      refine ⟨hd, fun x => ?_⟩
      by_cases hx : x = id <;> simp [undefEntry, hx]
  | cons e es ih =>
      rw [Distinct, List.pairwise_cons] at hd
      obtain ⟨hd', hval⟩ := ih hd.2
      rw [undefEntry]
      split
      · rename_i hname
        refine ⟨List.pairwise_cons.mpr ⟨hd.1, hd.2⟩, ?_⟩
        intro x
        by_cases hx : x = id
        · simp [entryValue_cons, hx, hname]
        · simp [entryValue_cons, hname, Ne.symm hx, Function.update_of_ne hx]
      · rename_i hname
        refine ⟨List.pairwise_cons.mpr ⟨?_, hd'⟩, ?_⟩
        · intro e' he' heq
          rcases mem_undefEntry he' with he' | he'
          · exact hd.1 e' he' heq
          · exact he'
        · intro x
          rw [entryValue_cons, hval]
          by_cases hx : x = id
          · simp [hx, hname]
          · simp [Function.update_of_ne hx, entryValue_cons]

/-! ## The object stands for the map -/

/-- The variables stored are those of the map. -/
def Ivars.Represents (m : IvarMap ID V) : Ivars ID V → Prop
  | .ary es => Distinct es ∧ ∀ id, m id = entryValue id es
  | .tbl dict => ∀ id, dict.lookup id = (m id).map some

theorem Ivars.Represents.lookup {m : IvarMap ID V} {ivars : Ivars ID V} (h : ivars.Represents m)
    (id : ID) : ivars.lookup id = m id := by
  cases ivars with
  | ary es => exact (h.2 id).symm
  | tbl dict =>
      rw [Ivars.lookup, h id]
      cases m id <;> rfl

/-- Setting a variable, in the array, in the dictionary or across the change. -/
theorem Ivars.Represents.set {m : IvarMap ID V} {obj : RObject ID V} (h : obj.ivars.Represents m)
    {interp : Interp ID V} {id : ID} {val : V} (hc : CleanCall interp obj (.set id val)) :
    (obj.ivars.set id val).Represents (Function.update m id (some val)) := by
  obtain ⟨tainted, frozen, ivars⟩ := obj
  cases ivars with
  | tbl dict =>
      intro x
      by_cases hx : x = id
      · subst hx
        simp [AList.lookup_insert]
      · rw [AList.lookup_insert_ne hx, h x, Function.update_of_ne hx]
  | ary es =>
      obtain ⟨hd, hm⟩ := h
      obtain rfl : m = fun x => entryValue x es := funext hm
      simp only [Ivars.set]
      cases hstore : storeEntry id val es with
      | some es' =>
          obtain ⟨hd', hval⟩ := storeEntry_spec hstore hd hc
          exact ⟨hd', fun x => (hval x).symm⟩
      | none =>
          simp only
          split
          · have hlive := fun e he => (storeEntry_eq_none.mp hstore e he).1
            intro x
            by_cases hx : x = id
            · subst hx
              simp [AList.lookup_insert]
            · rw [AList.lookup_insert_ne hx, lookup_entriesDict hd hlive, Function.update_of_ne hx]
          · obtain ⟨hd', hval⟩ := append_spec hstore hd
            exact ⟨hd', fun x => (hval x).symm⟩

/-- The variables are listed each once. -/
theorem Ivars.Represents.instanceVariables {m : IvarMap ID V} {obj : RObject ID V}
    (h : obj.ivars.Represents m) {interp : Interp ID V}
    (hc : CleanCall interp obj .instanceVariables) :
    (rbObjInstanceVariables interp obj).Nodup ∧ ∀ id, id ∈ rbObjInstanceVariables interp obj ↔
      interp.isInstanceId id = true ∧ (m id).isSome = true := by
  obtain ⟨tainted, frozen, ivars⟩ := obj
  cases ivars with
  | ary es =>
      obtain ⟨hd, hm⟩ := h
      constructor
      · refine List.Nodup.filter _ (List.pairwise_map.mpr (hd.imp_of_mem ?_))
        intro e e' _ he' hval hname
        exact hc e' he' (hval hname)
      · intro id
        rw [hm, isSome_entryValue hd]
        simp only [rbObjInstanceVariables, List.mem_filter, List.mem_map]
        constructor
        · rintro ⟨⟨e, he, rfl⟩, hid⟩
          exact ⟨hid, e, he, rfl, hc e he⟩
        · rintro ⟨hid, e, he, rfl, -⟩
          exact ⟨⟨e, he, rfl⟩, hid⟩
  | tbl dict =>
      constructor
      · exact dict.keys_nodup.filter _
      · intro id
        rw [rbObjInstanceVariables, List.mem_filter, ← AList.mem_keys, ← AList.lookup_isSome, h id,
          Option.isSome_map, and_comm]

/-- The object stands for the map, and changes to it pass or fail the checks as they did. -/
def RObject.Represents (interp : Interp ID V) (check : Except (IvarError ID) Unit)
    (m : IvarMap ID V) (obj : RObject ID V) : Prop :=
  obj.ivars.Represents m ∧ checkModify interp obj = check

/-- Removing a variable. -/
theorem RObject.Represents.remove {interp : Interp ID V} {check : Except (IvarError ID) Unit}
    {m : IvarMap ID V} {obj : RObject ID V} (h : obj.Represents interp check m) {id : ID}
    (hc : CleanCall interp obj (.remove id)) :
    ∃ m', IvarMap.Spec interp check m (.remove id) (ivarStep interp obj (.remove id)).1 m' ∧
      (ivarStep interp obj (.remove id)).2.Represents interp check m' := by
  obtain ⟨hm, rfl⟩ := h
  simp only [IvarMap.Spec, ivarStep, rbObjRemoveInstanceVariable]
  cases hcheck : checkModify interp obj with
  | error e => exact ⟨m, ⟨rfl, rfl⟩, hm, hcheck⟩
  | ok _ =>
      cases hid : interp.isInstanceId id with
      | false => exact ⟨m, ⟨rfl, rfl⟩, hm, hcheck⟩
      | true =>
          obtain ⟨tainted, frozen, ivars⟩ := obj
          have hclean := hc hid
          cases ivars with
          | tbl dict =>
              have hlookup := AList.lookup_eq_none.mpr hclean
              have hnone : m id = none := by simpa [hlookup] using (hm id).symm
              simp only [hlookup, hnone]
              exact ⟨m, ⟨rfl, rfl⟩, hm, hcheck⟩
          | ary es =>
              have hval := hm.2 id
              rw [entryValue] at hval
              cases hfind : findEntry id es with
              | none =>
                  have hnone : m id = none := by simpa [hfind] using hval
                  simp only [hfind, hnone]
                  exact ⟨m, ⟨rfl, rfl⟩, hm, hcheck⟩
              | some v =>
                  cases v with
                  | none => exact absurd hfind hclean
                  | some val =>
                      have hsome : m id = some val := by simpa [hfind] using hval
                      obtain ⟨hd', hval'⟩ := undefEntry_spec id hm.1
                      obtain rfl : m = fun x => entryValue x es := funext hm.2
                      simp only [hfind, hsome]
                      exact ⟨_, ⟨rfl, rfl⟩, ⟨hd', fun x => (hval' x).symm⟩, hcheck⟩

/-- **One call.** -/
theorem ivarStep_represents {interp : Interp ID V} {check : Except (IvarError ID) Unit}
    (m : IvarMap ID V) (obj : RObject ID V) (op : IvarOp ID V)
    (h : obj.Represents interp check m) (hc : CleanCall interp obj op) :
    ∃ m', IvarMap.Spec interp check m op (ivarStep interp obj op).1 m' ∧
      (ivarStep interp obj op).2.Represents interp check m' := by
  cases op with
  | set id val =>
      obtain ⟨hm, rfl⟩ := h
      simp only [IvarMap.Spec, ivarStep, rbIvarSet]
      cases hcheck : checkModify interp obj with
      | error e => exact ⟨m, ⟨rfl, rfl⟩, hm, hcheck⟩
      | ok _ => exact ⟨_, ⟨rfl, rfl⟩, hm.set hc, hcheck⟩
  | get id =>
      refine ⟨m, ⟨rfl, ?_⟩, h⟩
      simp only [ivarStep, rbIvarGet, ivarGet, h.1.lookup]
      cases m id <;> rfl
  | attrGet id =>
      refine ⟨m, ⟨rfl, ?_⟩, h⟩
      simp only [ivarStep, rbAttrGet, ivarGet, h.1.lookup]
      cases m id <;> rfl
  | defined id =>
      refine ⟨m, ⟨rfl, ?_⟩, h⟩
      obtain ⟨tainted, frozen, ivars⟩ := obj
      cases ivars with
      | ary es => rw [h.1.2 id]; rfl
      | tbl dict => simp [ivarStep, rbIvarDefined, h.1 id]
  | remove id => exact h.remove hc
  | instanceVariables =>
      obtain ⟨hnodup, hmem⟩ := h.1.instanceVariables hc
      exact ⟨m, ⟨rfl, _, rfl, hnodup, hmem⟩, h⟩

/-- An object with no instance variables. -/
def RObject.fresh (tainted frozen : Bool) : RObject ID V := ⟨tainted, frozen, .ary []⟩

/-- **Every run of clean calls on a fresh object is answered as by the map.** -/
theorem ivar_conforms (interp : Interp ID V) (tainted frozen : Bool) (ops : List (IvarOp ID V))
    (hclean : Throughout (ivarStep interp) (CleanCall interp) (.fresh tainted frozen) ops) :
    Conforms (ivarStep interp)
      (IvarMap.Spec interp (checkModify interp (.fresh tainted frozen))) (fun _ => none)
      (.fresh tainted frozen) ops := by
  apply conforms_of_step (RObject.Represents interp (checkModify interp (.fresh tainted frozen)))
    ivarStep_represents _ hclean
  exact ⟨⟨List.Pairwise.nil, fun _ => rfl⟩, rfl⟩

/-- An interpreter in which all names are those of instance variables. -/
def sampleInterp : Interp ℕ ℕ := ⟨0, 0, fun _ => true, fun _ => "@a"⟩

theorem ivar_conforms_sample :
    Conforms (ivarStep sampleInterp)
      (IvarMap.Spec sampleInterp (checkModify sampleInterp (.fresh false false))) (fun _ => none)
      (.fresh false false)
      ((List.range 9).map (fun i => .set i i) ++ [.remove 8, .set 9 1, .set 8 2, .set 10 3, .get 8,
        .instanceVariables]) :=
  ivar_conforms sampleInterp false false _ (by decide)

/-- A variable that was set and removed is still listed. -/
theorem not_conforms_removed :
    ¬ ∀ ops : List (IvarOp ℕ ℕ), Conforms (ivarStep sampleInterp)
      (IvarMap.Spec sampleInterp (checkModify sampleInterp (.fresh false false))) (fun _ => none)
      (.fresh false false) ops := by
  intro hall
  obtain ⟨m, ⟨-, rfl⟩, m', ⟨-, rfl⟩, m'', ⟨-, ids, hids, -, hmem⟩, -⟩ :=
    hall [.set 0 5, .remove 0, .instanceVariables]
  obtain rfl : [0] = ids := IvarAnswer.ids.inj hids
  have hdefined := ((hmem 0).mp (by simp)).2
  simp at hdefined

end MacRuby
