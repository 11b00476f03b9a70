import MacRuby.Compile.Peephole

/-!
# Running a list of elements on an operand stack

The compiler's lists are run here before they are laid out as words: a frame is what stands from
the current element on, the operand stack and the rest of the world, and a jump goes to what
stands after its label. The instructions that move values on the stack are those of `insns.def`;
what any other instruction does is left to the machine, so that a statement about compiled code
holds whatever the expressions in it do.

A piece of code is described by what it does in place: wherever it stands in a list, it runs from
its beginning to its end.

## Main definitions

* `Machine.Frame`, `Machine`, `Machine.step`, `Machine.Reaches` — the machine and its runs.
* `Machine.Runs` — what a piece of code does.
-/

namespace MacRuby

variable {V S : Type}

/-- The elements to be run, the operand stack, top first, and the rest of the world. -/
structure Machine.Frame (V S : Type) where
  code : List (Elem V)
  stack : List V
  world : S

/-- `nil`, the truth of values and the instructions that are not described here. -/
structure Machine (V S : Type) where
  nil : V
  rtest : V → Bool
  other : Insn V → List V → S → Option (List V × S)

namespace Machine

/-- `JUMP(dst)`. -/
def goto (es : List (Elem V)) (i : Insn V) (stack : List V) (world : S) : Option (Frame V S) :=
  match i.target with
  | .ok l => (afterLabel l es).map fun k => ⟨k, stack, world⟩
  | .error _ => none

/-- An instruction that is neither a jump nor a branch. -/
def exec (m : Machine V S) (i : Insn V) (stack : List V) (world : S) : Option (List V × S) :=
  match i.insnId with
  | .nop => some (stack, world)
  | .putnil => some (m.nil :: stack, world)
  | .pop =>
      match stack with
      | _ :: stack => some (stack, world)
      | [] => none
  | .dup =>
      match stack with
      | v :: stack => some (v :: v :: stack, world)
      | [] => none
  | _ => m.other i stack world

/-- One element. -/
def step (m : Machine V S) (es : List (Elem V)) : Frame V S → Option (Frame V S)
  | ⟨.insn i :: k, stack, world⟩ =>
      match i.insnId with
      | .jump => goto es i stack world
      | .branchif =>
          match stack with
          | v :: stack => if m.rtest v then goto es i stack world else some ⟨k, stack, world⟩
          | [] => none
      | .branchunless =>
          match stack with
          | v :: stack => if m.rtest v then some ⟨k, stack, world⟩ else goto es i stack world
          | [] => none
      | _ => (m.exec i stack world).map fun r => ⟨k, r.1, r.2⟩
  | ⟨.label _ :: k, stack, world⟩ => some ⟨k, stack, world⟩
  | ⟨.none :: k, stack, world⟩ => some ⟨k, stack, world⟩
  | _ => none

/-- One frame follows another in the list `es`. -/
def Next (m : Machine V S) (es : List (Elem V)) (f g : Frame V S) : Prop := m.step es f = some g

/-- Any number of steps. -/
def Reaches (m : Machine V S) (es : List (Elem V)) : Frame V S → Frame V S → Prop :=
  Relation.ReflTransGen (m.Next es)

/-- The stack with a value on it, which is dropped if it is not used. -/
def pushed (poped : Bool) (v : V) (stack : List V) : List V := if poped then stack else v :: stack

/-- Wherever the code stands, it runs to its end and changes the world as `f` does; it pushes the
value of `f`, or with `poped` leaves the stack as it was. -/
def Runs (m : Machine V S) (poped : Bool) (code : List (Elem V)) (f : S → V × S) : Prop :=
  ∀ {es back : List (Elem V)} (front : List (Elem V)) (stack : List V) (s : S),
    (labelsOf es).Nodup →
    es = front ++ (code ++ back) →
    m.Reaches es ⟨code ++ back, stack, s⟩ ⟨back, pushed poped (f s).1 stack, (f s).2⟩

section Steps

variable {m : Machine V S} {es k : List (Elem V)} {stack : List V} {s : S}

theorem reaches_label (l : Label) :
    m.Reaches es ⟨.label l :: k, stack, s⟩ ⟨k, stack, s⟩ := .single rfl

theorem reaches_jump {l : Label} {k' : List (Elem V)} (line : ℤ) (hl : afterLabel l es = some k') :
    m.Reaches es ⟨.insn ⟨.jump, line, [.label l]⟩ :: k, stack, s⟩ ⟨k', stack, s⟩ := by
  refine .single ?_
  simp [Next, step, goto, Insn.target, hl]

theorem reaches_branchunless {l : Label} {k' : List (Elem V)} (line : ℤ) (v : V)
    (hl : afterLabel l es = some k') :
    m.Reaches es ⟨.insn ⟨.branchunless, line, [.label l]⟩ :: k, v :: stack, s⟩
      ⟨if m.rtest v then k else k', stack, s⟩ := by
  refine .single ?_
  cases h : m.rtest v <;> simp [Next, step, goto, Insn.target, hl, h]

theorem reaches_putnil (line : ℤ) :
    m.Reaches es ⟨.insn ⟨.putnil, line, []⟩ :: k, stack, s⟩ ⟨k, m.nil :: stack, s⟩ := .single rfl

theorem reaches_pop (line : ℤ) (v : V) :
    m.Reaches es ⟨.insn ⟨.pop, line, []⟩ :: k, v :: stack, s⟩ ⟨k, stack, s⟩ := .single rfl

end Steps

/-- What stands after a label that is in the list once. -/
theorem afterLabel_of_nodup {es back : List (Elem V)} {l : Label} (front : List (Elem V))
    (hnodup : (labelsOf es).Nodup) (hes : es = front ++ .label l :: back) :
    afterLabel l es = some back := by
  subst hes
  have hnot : l ∉ labelsOf front := by
    rw [labelsOf_append] at hnodup
    intro hl
    exact (List.nodup_append.mp hnodup).2.2 l hl l (by simp [labelsOf, Elem.label?]) rfl
  rw [afterLabel_append, afterLabel_eq_none.mpr hnot]
  simp [afterLabel]

end Machine

end MacRuby
