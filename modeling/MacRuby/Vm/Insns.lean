import MacRuby.Vm.Machine
import MacRuby.Vm.Yield

/-!
# Instructions on variables and arrays

The instructions of `insns.def` that set variables and those that make arrays and take them apart,
as a machine over the values of Ruby. What the objects of a program do, their `to_a` and every
other instruction, is a parameter.

## Main definitions

* `Var`, `World` — the places variables are kept, and what they hold.
* `rbCheckToA`, `concatarray`, `splatarray` — conversion to arrays.
* `Objects.machine` — the machine.
-/

namespace MacRuby

/-- The place of a variable: a slot of the frame `level` blocks further out, by its distance from
the frame pointer, an instance variable of `self`, or a class variable. -/
inductive Var
  | slot (level : ℕ) (idx : ℤ)
  | ivar (id : ℕ)
  | cvar (id : ℕ)
  deriving DecidableEq

/-- What the variables hold, and the rest of the world. -/
structure World (O : Type) where
  vars : Var → Value
  rest : O

variable {O : Type}

/-- The world after an assignment. -/
def World.store (w : World O) (x : Var) (v : Value) : World O :=
  { w with vars := Function.update w.vars x v }

/-- What the program's objects do: which values are true, the `to_a` of those objects that have
one, and the instructions not described here. -/
structure Objects (O : Type) where
  rtest : Value → Bool
  toA : ℕ → Option (List Value)
  other : Insn Value → List Value → World O → Option (List Value × World O)

/-- `rb_check_convert_type(v, T_ARRAY, "Array", "to_a")`: nothing for an object without a `to_a`;
`nil` has one. -/
def rbCheckToA (toA : ℕ → Option (List Value)) : Value → Option (List Value)
  | .array vs => some vs
  | .nil => some []
  | .qfalse => none
  | .object id => toA id

/-- The elements a value stands for where it is splatted. -/
def splatted (toA : ℕ → Option (List Value)) (v : Value) : List Value :=
  (rbCheckToA toA v).getD [v]

/-- The instruction `splatarray`. -/
def splatarray (toA : ℕ → Option (List Value)) (ary : Value) : Value := .array (splatted toA ary)

/-- The instruction `concatarray`. -/
def concatarray (toA : ℕ → Option (List Value)) (ary1 ary2 : Value) : Value :=
  .array (splatted toA ary1 ++ splatted toA ary2)

@[simp] theorem splatted_array (toA : ℕ → Option (List Value)) (vs : List Value) :
    splatted toA (.array vs) = vs := rfl

/-- The machine; `lfp` is the level of the frame the local variables are in. -/
def Objects.machine (o : Objects O) (lfp : ℕ) : Machine Value (World O) where
  nil := .nil
  rtest := o.rtest
  other i stack w :=
    match i.insnId, i.operands, stack with
    | .setlocal, [.num idx], v :: stack => some (stack, w.store (.slot lfp idx) v)
    | .setdynamic, [.num idx, .num level], v :: stack =>
        some (stack, w.store (.slot level.toNat idx) v)
    | .setinstancevariable, [.id id], v :: stack => some (stack, w.store (.ivar id) v)
    | .setclassvariable, [.id id], v :: stack => some (stack, w.store (.cvar id) v)
    | .putobject, [.value v], stack => some (v :: stack, w)
    | .newarray, [.num n], stack =>
        if n.toNat ≤ stack.length then
          some (.array (stack.take n.toNat).reverse :: stack.drop n.toNat, w)
        else none
    | .duparray, [.value ary], stack => some (ary :: stack, w)
    | .expandarray, [.num num, .num flag], ary :: stack =>
        some (vmExpandarray ary num.toNat flag.toNat ++ stack, w)
    | .concatarray, [], ary2 :: ary1 :: stack => some (concatarray o.toA ary1 ary2 :: stack, w)
    | .splatarray, [.value _], ary :: stack => some (splatarray o.toA ary :: stack, w)
    | _, _, _ => o.other i stack w

namespace Machine

variable {o : Objects O} {lfp : ℕ} {es k : List (Elem Value)} {stack : List Value} {w : World O}

theorem reaches_putobject (line : ℤ) (v : Value) :
    (o.machine lfp).Reaches es ⟨.insn ⟨.putobject, line, [.value v]⟩ :: k, stack, w⟩
      ⟨k, v :: stack, w⟩ := .single rfl

/-- The values of a new array are taken from the stack, the last one first. -/
theorem reaches_newarray (line : ℤ) (vs : List Value) :
    (o.machine lfp).Reaches es
      ⟨.insn ⟨.newarray, line, [.num vs.length]⟩ :: k, vs.reverse ++ stack, w⟩
      ⟨k, .array vs :: stack, w⟩ := by
  refine .single ?_
  simp [Next, step, exec, Objects.machine]

theorem reaches_duparray (line : ℤ) (ary : Value) :
    (o.machine lfp).Reaches es ⟨.insn ⟨.duparray, line, [.value ary]⟩ :: k, stack, w⟩
      ⟨k, ary :: stack, w⟩ := .single rfl

theorem reaches_expandarray (line : ℤ) (ary : Value) (num flag : ℕ) :
    (o.machine lfp).Reaches es
      ⟨.insn ⟨.expandarray, line, [.num num, .num flag]⟩ :: k, ary :: stack, w⟩
      ⟨k, vmExpandarray ary num flag ++ stack, w⟩ := .single rfl

theorem reaches_concatarray (line : ℤ) (ary1 ary2 : Value) :
    (o.machine lfp).Reaches es ⟨.insn ⟨.concatarray, line, []⟩ :: k, ary2 :: ary1 :: stack, w⟩
      ⟨k, concatarray o.toA ary1 ary2 :: stack, w⟩ := .single rfl

theorem reaches_splatarray (line : ℤ) (flag ary : Value) :
    (o.machine lfp).Reaches es ⟨.insn ⟨.splatarray, line, [.value flag]⟩ :: k, ary :: stack, w⟩
      ⟨k, splatarray o.toA ary :: stack, w⟩ := .single rfl

end Machine

end MacRuby
