import LC3.Proofs.Assembly.Denotation

/-!
Instructions that agree. The word of an instruction depends on no more than its registers and the
numbers that its other operands are where it stands, so two instructions at different addresses and
with different labels have the same word where these agree. Main statement:
`instructionWord_of_agree`.
-/

namespace LC3

/-- The same register, or two numbers that are the same for the instructions at two addresses. -/
inductive OperandValue.Agree (here here' : Word) (symbols symbols' : SymbolTable) :
    OperandValue → OperandValue → Prop
  | register {r} : Agree here here' symbols symbols' (.register r) (.register r)
  | datum {d d' : Datum} (same : d'.value? here' symbols' = d.value? here symbols) :
      Agree here here' symbols symbols' (.datum d) (.datum d')

section

variable {here here' : Word} {symbols symbols' : SymbolTable} {m : Mnemonic}
  {operands operands' : List Operand}

/-- Only the third of three operands makes a difference. -/
theorem Signature.arithmetic_of_agree (o : Opcode)
    (h : List.Forall₂ (fun x y => OperandValue.Agree here here' symbols symbols' x.value y.value)
      operands operands') : arithmetic o operands' = arithmetic o operands := by
  match operands, operands', h with
  | [], [], _ => rfl
  | [_], [_], _ => rfl
  | [_, _], [_, _], _ => rfl
  | [_, _, ⟨v, _⟩], [_, _, ⟨v', _⟩], .cons _ (.cons _ (.cons third _)) =>
      cases third with
      | register => rfl
      | datum => rfl
  | _ :: _ :: _ :: _ :: _, _ :: _ :: _ :: _ :: _, _ => simp only [arithmetic]

theorem Signature.of_of_agree (m : Mnemonic)
    (h : List.Forall₂ (fun x y => OperandValue.Agree here here' symbols symbols' x.value y.value)
      operands operands') : of operands' m = of operands m := by
  cases m with
  | add | and => exact arithmetic_of_agree _ h
  | _ => rfl

theorem Slot.Takes.of_agree {s : Slot} {x y : OperandValue} {v : Int}
    (h : s.Takes here symbols x v) (same : OperandValue.Agree here here' symbols symbols' x y) :
    s.Takes here' symbols' y v := by
  cases h with
  | register =>
      cases same
      exact .register
  | value value =>
      cases same with
      | datum same => exact .value (same.trans value)
  | callTarget value =>
      cases same with
      | datum same => exact .callTarget (same.trans value)

theorem Slot.TakeAll.of_agree {slots : List Slot} {given : List (FieldName × Int)}
    (h : TakeAll here symbols slots (operands.map Operand.value) given)
    (same : List.Forall₂ (fun x y =>
      OperandValue.Agree here here' symbols symbols' x.value y.value) operands operands') :
    TakeAll here' symbols' slots (operands'.map Operand.value) given := by
  induction same generalizing slots given with
  | nil =>
      cases h
      exact .nil
  | cons first _ ih =>
      cases h with
      | cons own others => exact .cons (own.of_agree first) (ih others)

end

namespace Statement

variable {s s' : Statement} {symbols symbols' : SymbolTable} {m : Mnemonic}
  {operands operands' : List Operand} {w : Word}

/-- Operands that the slots take make an assignment. -/
theorem exists_assign_of_takeAll {here : Word} {slots : List Slot}
    {given : List (FieldName × Int)}
    (h : Slot.TakeAll here symbols slots (operands.map Operand.value) given) :
    operands.length = slots.length ∧ ∃ assigned : List Assignment,
      assigned.map (fun a => (a.field, a.value)) = given ∧
        (slots.zip operands).mapM (fun (slot, o) => (slot.fill here symbols o).map fun v =>
          (⟨slot.field, v, o.span⟩ : Assignment)) = .ok assigned := by
  simp only [Stage.mapM_eq_ok_iff]
  generalize values : operands.map Operand.value = vs at h
  induction h generalizing operands with
  | nil =>
      obtain rfl := List.map_eq_nil_iff.mp values
      exact ⟨rfl, [], rfl, .nil⟩
  | cons first _ ih =>
      obtain ⟨o, rest, rfl, rfl, later⟩ := List.map_eq_cons_iff.mp values
      obtain ⟨count, assigned, rfl, filled⟩ := ih later
      refine ⟨congrArg Nat.succ count, ⟨_, _, o.span⟩ :: assigned, rfl, .cons ?_ filled⟩
      exact Stage.map_eq_ok.mpr ⟨_, Slot.fill_eq_ok_iff.mpr first, rfl⟩

theorem instructionWord_of_takeAll {given : List (FieldName × Int)}
    (taken : Slot.TakeAll s.address symbols (Signature.of operands m).slots
      (operands.map Operand.value) given)
    (encoded : ((Signature.of operands m).filled given).encode = .ok w) :
    s.instructionWord symbols m operands = .ok w := by
  obtain ⟨count, assigned, rfl, filled⟩ := exists_assign_of_takeAll taken
  have assigned' : (Signature.of operands m).assign s.address symbols operands = .ok assigned :=
    filled
  have encoded' : ((Signature.of operands m).parts assigned).encode = .ok w := encoded
  simp only [instructionWord, if_pos count, assigned', bind, Except.bind, encoded']

/-- Instructions whose operands agree have the same word. -/
theorem instructionWord_of_agree (h : s.instructionWord symbols m operands = .ok w)
    (same : List.Forall₂ (fun x y =>
      OperandValue.Agree s.address s'.address symbols symbols' x.value y.value)
      operands operands') : s'.instructionWord symbols' m operands' = .ok w := by
  obtain ⟨given, taken, encoded⟩ := takeAll_of_instructionWord h
  have signature := Signature.of_of_agree m same
  rw [← signature] at taken encoded
  exact instructionWord_of_takeAll (taken.of_agree same) encoded

end Statement
end LC3
