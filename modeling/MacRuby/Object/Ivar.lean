import Mathlib.Data.List.AList

/-!
# The instance variables of an object

An object keeps its instance variables in a small array of names and values and moves them to a
dictionary when the array would reach `RB_IVAR_ARY_MAX` entries. A removed variable leaves an entry
in the array that has its name and the value `Qundef`.

## Main definitions

* `IvarEntry`, `Ivars`, `RObject` — the two representations.
* `ivarGet`, `rbIvarSet`, `rbIvarDefined`, `rbObjRemoveInstanceVariable`,
  `rbObjInstanceVariables` — the operations.
* `IvarOp`, `ivarStep` — the operations as the steps of one object.
-/

namespace MacRuby

variable {ID V : Type}

/-- `struct rb_ivar_ary_entry`. The value `none` is `Qundef`. -/
structure IvarEntry (ID V : Type) where
  name : ID
  value : Option V
  deriving DecidableEq

/-- `struct rb_ivars`: an array, or a dictionary whose values may be `Qundef` too. -/
inductive Ivars (ID V : Type)
  | ary (entries : List (IvarEntry ID V))
  | tbl (dict : AList fun _ : ID => Option V)

/-- `struct RObject`, with the flags its variables depend on. -/
structure RObject (ID V : Type) where
  tainted : Bool
  frozen : Bool
  ivars : Ivars ID V

/-- What the operations read of the interpreter. -/
structure Interp (ID V : Type) where
  nil : V
  safeLevel : ℕ
  isInstanceId : ID → Bool
  id2name : ID → String

/-- The exceptions raised, with their messages. -/
inductive IvarError (ID : Type)
  | securityError (msg : String)
  | runtimeError (msg : String)
  | nameError (id : ID) (msg : String)
  deriving DecidableEq

/-- The answer of an operation. A value may be `Qundef`; `crashed` is a store through a pointer
that is none. -/
inductive IvarAnswer (ID V : Type)
  | value (v : Option V) (warning : Option String)
  | bool (b : Bool)
  | ids (ids : List ID)
  | raised (e : IvarError ID)
  | crashed
  deriving DecidableEq

/-- `RB_IVAR_ARY_MAX`. -/
def rbIvarAryMax : ℕ := 10

/-- The checks before a change: of the safe level and of the frozen flag. -/
def checkModify (interp : Interp ID V) (obj : RObject ID V) : Except (IvarError ID) Unit :=
  if !obj.tainted && 4 ≤ interp.safeLevel then
    .error (.securityError "Insecure: can't modify instance variable")
  else if obj.frozen then .error (.runtimeError "can't modify frozen object")
  else .ok ()

variable [DecidableEq ID]

/-! ## The array -/

/-- The loop of the readers: the value in the first entry of the name. -/
def findEntry (id : ID) : List (IvarEntry ID V) → Option (Option V)
  | [] => none
  | e :: es => if e.name = id then some e.value else findEntry id es

/-- The loop of `rb_ivar_set`: the first entry that is free or has the name takes the value. -/
def storeEntry (id : ID) (val : V) : List (IvarEntry ID V) → Option (List (IvarEntry ID V))
  | [] => none
  | e :: es =>
      if e.value.isNone then some (⟨id, some val⟩ :: es)
      else if e.name = id then some (⟨e.name, some val⟩ :: es)
      else (storeEntry id val es).map (e :: ·)

/-- The loop of `rb_obj_remove_instance_variable`: the first entry of the name gives up its
value. -/
def undefEntry (id : ID) : List (IvarEntry ID V) → List (IvarEntry ID V)
  | [] => []
  | e :: es => if e.name = id then ⟨e.name, none⟩ :: es else e :: undefEntry id es

/-- The dictionary made of the entries of an array. -/
def entriesDict (es : List (IvarEntry ID V)) : AList fun _ : ID => Option V :=
  es.foldl (fun dict e => dict.insert e.name e.value) ∅

/-! ## The operations -/

/-- The value found by `ivar_get`, or `Qundef`. -/
def Ivars.lookup (id : ID) : Ivars ID V → Option V
  | .ary es => (findEntry id es).getD none
  | .tbl dict => (dict.lookup id).getD none

/-- `ivar_get`. -/
def ivarGet (interp : Interp ID V) (obj : RObject ID V) (id : ID) (warn : Bool) :
    IvarAnswer ID V :=
  match obj.ivars.lookup id with
  | some val => .value (some val) none
  | none =>
      .value (some interp.nil)
        (if warn then some ("instance variable " ++ interp.id2name id ++ " not initialized")
         else none)

/-- `rb_ivar_get`. -/
def rbIvarGet (interp : Interp ID V) (obj : RObject ID V) (id : ID) : IvarAnswer ID V :=
  ivarGet interp obj id true

/-- `rb_attr_get`. -/
def rbAttrGet (interp : Interp ID V) (obj : RObject ID V) (id : ID) : IvarAnswer ID V :=
  ivarGet interp obj id false

/-- The part of `rb_ivar_set` for a `T_OBJECT`. -/
def Ivars.set (id : ID) (val : V) : Ivars ID V → Ivars ID V
  | .ary es =>
      match storeEntry id val es with
      | some es' => .ary es'
      | none =>
          if es.length + 1 = rbIvarAryMax then .tbl ((entriesDict es).insert id (some val))
          else .ary (es ++ [⟨id, some val⟩])
  | .tbl dict => .tbl (dict.insert id (some val))

/-- `rb_ivar_set`. -/
def rbIvarSet (interp : Interp ID V) (obj : RObject ID V) (id : ID) (val : V) :
    IvarAnswer ID V × RObject ID V :=
  match checkModify interp obj with
  | .error e => (.raised e, obj)
  | .ok () => (.value (some val) none, { obj with ivars := obj.ivars.set id val })

/-- `rb_ivar_defined`. A variable in the dictionary is defined whatever its value. -/
def rbIvarDefined (obj : RObject ID V) (id : ID) : Bool :=
  match obj.ivars with
  | .ary es => ((findEntry id es).getD none).isSome
  | .tbl dict => (dict.lookup id).isSome

/-- `rb_obj_remove_instance_variable`. The value found in the dictionary is stored through `val`
itself, which is `Qnil`, not through its address. -/
def rbObjRemoveInstanceVariable (interp : Interp ID V) (obj : RObject ID V) (id : ID) :
    IvarAnswer ID V × RObject ID V :=
  match checkModify interp obj with
  | .error e => (.raised e, obj)
  | .ok () =>
      if !interp.isInstanceId id then
        (.raised (.nameError id
          ("`" ++ interp.id2name id ++ "' is not allowed as an instance variable name")), obj)
      else
        let notDefined := (.raised (.nameError id
          ("instance variable " ++ interp.id2name id ++ " not defined")), obj)
        match obj.ivars with
        | .ary es =>
            match findEntry id es with
            | some val => (.value val none, { obj with ivars := .ary (undefEntry id es) })
            | none => notDefined
        | .tbl dict =>
            match dict.lookup id with
            | some _ => (.crashed, obj)
            | none => notDefined

/-- `rb_ivar_foreach` with `ivar_i`, which goes on always and keeps the names of instance
variables. -/
def rbObjInstanceVariables (interp : Interp ID V) (obj : RObject ID V) : List ID :=
  match obj.ivars with
  | .ary es => (es.map IvarEntry.name).filter interp.isInstanceId
  | .tbl dict => dict.keys.filter interp.isInstanceId

/-! ## The object as a machine -/

/-- The calls on one object. -/
inductive IvarOp (ID V : Type)
  | set (id : ID) (val : V)
  | get (id : ID)
  | attrGet (id : ID)
  | defined (id : ID)
  | remove (id : ID)
  | instanceVariables

/-- A call, with its answer and the object after it. -/
def ivarStep (interp : Interp ID V) (obj : RObject ID V) :
    IvarOp ID V → IvarAnswer ID V × RObject ID V
  | .set id val => rbIvarSet interp obj id val
  | .get id => (rbIvarGet interp obj id, obj)
  | .attrGet id => (rbAttrGet interp obj id, obj)
  | .defined id => (.bool (rbIvarDefined obj id), obj)
  | .remove id => rbObjRemoveInstanceVariable interp obj id
  | .instanceVariables => (.ids (rbObjInstanceVariables interp obj), obj)

end MacRuby
