import LC3.Proofs.Assembly.Shape
import LC3.Proofs.Format.Typing

/-!
The word of an instruction, and why there is none. A statement has a word where each operand is of
its form and gives its field a value within bounds, and the word is the instruction that the
statement denotes. Otherwise the number of operands is blamed, or else the first wrong operand, or
else the operand whose value is out of range. Main statement: `emission_exact`.
-/

namespace LC3
namespace Form

variable {here : Word} {symbols : SymbolTable} {form : Form} {value : OperandValue} {f g : Field}
  {v w : Int}

theorem Gives.unique (h : form.Gives here symbols value f v)
    (h' : form.Gives here symbols value g w) : f = g ∧ v = w := by
  refine ⟨h.field_eq.symm.trans h'.field_eq, ?_⟩
  cases h <;> cases h'
  · rfl
  · next a b => exact Option.some.inj (a.symm.trans b)
  · rfl
  · next a b => exact Option.some.inj (a.symm.trans b)
  · next a b => exact Option.some.inj (a.symm.trans b)

theorem Gives.not_wrong {problem : Problem} (h : form.Gives here symbols value f v) :
    ¬ form.Wrong symbols value problem := by
  intro wrong
  cases wrong <;> cases h
  · next undefined value => simp [Datum.value?, undefined] at value
  · next undefined value => simp [Datum.value?, undefined] at value
  · next undefined value => simp [Datum.value?, undefined] at value

def isRegister : Form → Bool
  | .register _ => true
  | _ => false

/-- The value of an operand that must be a register is never out of range. -/
theorem Gives.mem_bounds (h : form.Gives here symbols value f v)
    (register : form.isRegister = true) : v ∈ f.bounds := by
  cases h with
  | @register f r =>
      revert r
      show ∀ r : Register, ((r.val : Nat) : Int) ∈ (3 : Width).bounds .unsigned
      decide
  | value => cases register
  | eitherRegister => cases register
  | eitherValue => cases register
  | target => cases register

end Form

/-- All operands but one must be registers. -/
theorem Mnemonic.pairwise_forms (m : Mnemonic) :
    m.forms.Pairwise fun a b => a.isRegister = true ∨ b.isRegister = true := by
  cases m <;> exact of_decide_eq_true rfl

namespace Signature

variable {here : Word} {symbols : SymbolTable} {s : Signature} {pairs : List (Form × Operand)}
  {operands : List Operand} {assigned : List Assignment}

/-- An operand of the right form assigns its value. -/
def Assigns (here : Word) (symbols : SymbolTable) (x : Form × Operand) (a : Assignment) : Prop :=
  ∃ v, x.1.Gives here symbols x.2.value (x.1.field x.2.value) v ∧
    ⟨(x.1.field x.2.value).name, v, x.2.span⟩ = a

theorem map_zip_zip {α β γ : Type} (g : α × β → γ) (as : List α) (bs : List β) :
    ((as.zip bs).map g).zip bs = (as.zip bs).map fun x => (g x, x.2) := by
  induction as generalizing bs with
  | nil => rfl
  | cons a as ih =>
      cases bs with
      | nil => rfl
      | cons b bs => simp only [List.zip_cons_cons, List.map_cons, ih]

variable {forms : List Form}

theorem assign_eq (matched : s.Matches (forms.zip operands)) :
    s.assign here symbols operands = (forms.zip operands).mapM fun x =>
      ((x.1.slot x.2.value).fill here symbols x.2).map
        fun v => (⟨(x.1.field x.2.value).name, v, x.2.span⟩ : Assignment) := by
  rw [assign, matched.slots, map_zip_zip, List.mapM_map]
  simp only [Function.comp_def, Form.field_slot]

theorem assign_eq_ok_iff (matched : s.Matches (forms.zip operands)) :
    s.assign here symbols operands = .ok assigned ↔
      List.Forall₂ (Assigns here symbols) (forms.zip operands) assigned := by
  rw [assign_eq matched, Stage.mapM_eq_ok_iff]
  simp only [Stage.map_eq_ok, Form.fill_slot_eq_ok_iff]
  rfl

theorem assign_eq_error_iff (matched : s.Matches (forms.zip operands)) {c : Complaint} :
    s.assign here symbols operands = .error c ↔
      ∃ before x after, forms.zip operands = before ++ x :: after ∧
        (∀ y ∈ before, ∃ f v, y.1.Gives here symbols y.2.value f v) ∧
          ∃ problem, x.1.Wrong symbols x.2.value problem ∧ c = ⟨x.2.span, problem⟩ := by
  have sound (y : Form × Operand) : (∃ a : Assignment, ∃ v,
      y.1.Gives here symbols y.2.value (y.1.field y.2.value) v ∧
        ⟨(y.1.field y.2.value).name, v, y.2.span⟩ = a) ↔
      ∃ f v, y.1.Gives here symbols y.2.value f v := by
    constructor
    · rintro ⟨a, v, given, -⟩
      exact ⟨_, v, given⟩
    · rintro ⟨f, v, given⟩
      exact ⟨_, v, given.field_eq ▸ given, rfl⟩
  rw [assign_eq matched, Stage.mapM_eq_error_iff]
  simp only [Stage.map_eq_ok, Stage.map_eq_error, Form.fill_slot_eq_ok_iff,
    Form.fill_slot_eq_error_iff, sound]

section Assigned

variable {l : Layout} {f : Field} {v : Int} {x : Form × Operand}
  (covers : s.Covers l (pairs.map fun x => x.1.field x.2.value))
  (assigns : List.Forall₂ (Assigns here symbols) pairs assigned)

include assigns in
theorem fields_of_assigns :
    assigned.map Assignment.field = (pairs.map fun x => x.1.field x.2.value).map Field.name := by
  induction assigns with
  | nil => rfl
  | cons first _ ih =>
      obtain ⟨v, -, rfl⟩ := first
      simp only [List.map_cons, ih]

include assigns in
theorem mem_of_gives (member : x ∈ pairs) (given : x.1.Gives here symbols x.2.value f v) :
    ⟨f.name, v, x.2.span⟩ ∈ assigned := by
  obtain ⟨a, inside, w, own, rfl⟩ := Stage.exists_of_forall₂_left assigns member
  obtain ⟨rfl, rfl⟩ := given.unique own
  exact inside

include covers assigns

theorem nodup_parts :
    ((s.fixed ++ assigned.map fun a => (a.field, a.value)).map Prod.fst).Nodup := by
  have once := covers.1
  rw [← fields_of_assigns assigns] at once
  simpa [Function.comp_def] using once

theorem get_parts (member : x ∈ pairs) (given : x.1.Gives here symbols x.2.value f v) :
    (s.parts assigned).fields.get f.name = some v := by
  refine FieldSet.get_ofList_of_mem (nodup_parts covers assigns) (List.mem_append_right _ ?_)
  exact List.mem_map.mpr ⟨_, mem_of_gives assigns member given, rfl⟩

/-- The place that is blamed for a value is the operand that gave it. -/
theorem spanOf_assigned (mnemonic : Span) (member : x ∈ pairs)
    (given : x.1.Gives here symbols x.2.value f v) :
    Assignment.spanOf mnemonic assigned f.name = x.2.span := by
  have inside := mem_of_gives assigns member given
  have once : (assigned.map Assignment.field).Nodup := by
    rw [fields_of_assigns assigns]
    exact (List.nodup_append.mp covers.1).2.1
  cases found : assigned.find? fun a => a.field = f.name with
  | none => simpa using List.find?_eq_none.mp found _ inside
  | some a =>
      have same : a.field = f.name := by simpa using List.find?_some found
      have := List.inj_on_of_nodup_map once (List.mem_of_find?_eq_some found) inside same
      rw [Assignment.spanOf, found, this]
      rfl

/-- A field of the layout fits unless the value of an operand is out of its bounds. -/
theorem fits_or_exceeds (member : f ∈ l.fields) :
    f.Fits (s.parts assigned).fields ∨
      ∃ x ∈ pairs, ∃ v, x.1.Gives here symbols x.2.value f v ∧ v ∉ f.bounds ∧
        f.fault? (s.parts assigned).fields = some (.overflow f.name v f.bounds) := by
  rcases covers.2.2 f member with own | ⟨⟨g, v⟩, fixed, rfl, within⟩
  · obtain ⟨x, inside, rfl⟩ := List.mem_map.mp own
    obtain ⟨-, -, v, given, -⟩ := Stage.exists_of_forall₂_left assigns inside
    have value := get_parts covers assigns inside given
    by_cases within : v ∈ (x.1.field x.2.value).bounds
    · exact .inl ⟨v, value, within⟩
    · refine .inr ⟨x, inside, v, given, within, ?_⟩
      simp only [Field.fault?, value, if_neg within]
  · exact .inl ⟨v, FieldSet.get_ofList_of_mem (nodup_parts covers assigns)
      (List.mem_append_left _ fixed), within⟩

theorem encode_parts_error (layout : s.opcode.layout? s.mode = some l) {e : EncodeError}
    (h : (s.parts assigned).encode = .error e) :
    ∃ x ∈ pairs, ∃ f v, x.1.Gives here symbols x.2.value f v ∧ v ∉ f.bounds ∧
      e = .overflow f.name v f.bounds := by
  rw [Parts.encode_of_layout? layout, Layout.write_eq_error_iff] at h
  obtain ⟨q, placed, fault⟩ := List.exists_of_findSome?_eq_some h
  cases segment : q.segment with
  | constant w pattern => rw [segment] at fault; cases fault
  | field f =>
      rw [segment] at fault
      rcases fits_or_exceeds covers assigns (Layout.mem_fields_iff.mpr ⟨q, placed, segment⟩) with
        fits | ⟨x, member, v, given, outside, own⟩
      · rw [Segment.fault?, Field.fault?_eq_none_iff.mpr fits] at fault
        cases fault
      · exact ⟨x, member, f, v, given, outside, Option.some.inj (fault.symm.trans own)⟩

theorem exists_encode_parts_iff (layout : s.opcode.layout? s.mode = some l) :
    (∃ w, (s.parts assigned).encode = .ok w) ↔
      ∀ x ∈ pairs, x.1.Fits here symbols x.2.value := by
  constructor
  · rintro ⟨w, encoded⟩ x member
    rw [Parts.encode_of_layout? layout] at encoded
    obtain ⟨-, -, v, given, -⟩ := Stage.exists_of_forall₂_left assigns member
    have own := covers.2.1 _ (List.mem_map.mpr ⟨x, member, rfl⟩)
    obtain ⟨w, value, within⟩ := Layout.exists_write_iff.mp ⟨w, encoded⟩ _ own
    rw [get_parts covers assigns member given] at value
    cases value
    exact ⟨_, v, given, within⟩
  · intro fits
    cases encoded : (s.parts assigned).encode with
    | ok w => exact ⟨w, rfl⟩
    | error e =>
        obtain ⟨x, member, f, v, given, outside, -⟩ :=
          encode_parts_error covers assigns layout encoded
        obtain ⟨g, w, own, within⟩ := fits x member
        obtain ⟨rfl, rfl⟩ := given.unique own
        exact absurd within outside

end Assigned

end Signature

namespace Datum

theorem Gives.unique {here : Word} {symbols : SymbolTable} {w : Width} {d : Datum} {a b : Word}
    (h : d.Gives here symbols w a) (h' : d.Gives here symbols w b) : a = b :=
  BitVec.eq_of_toInt_eq (Option.some.inj (h.1.symm.trans h'.1))

end Datum

namespace Mnemonic

variable {m : Mnemonic}

theorem Arithmetic.unique {make make' : Register → Register → SecondSource → Instruction}
    (h : m.Arithmetic make) (h' : m.Arithmetic make') : make = make' := by
  cases h <;> cases h' <;> rfl

theorem Relative.unique {make make' : Register → Word → Instruction} (h : m.Relative make)
    (h' : m.Relative make') : make = make' := by
  cases h <;> cases h' <;> rfl

theorem Based.unique {make make' : Register → Register → Word → Instruction} (h : m.Based make)
    (h' : m.Based make') : make = make' := by
  cases h <;> cases h' <;> rfl

theorem Indirect.unique {make make' : Register → Instruction} (h : m.Indirect make)
    (h' : m.Indirect make') : make = make' := by
  cases h <;> cases h' <;> rfl

theorem Based.not_arithmetic {make : Register → Register → Word → Instruction}
    {make' : Register → Register → SecondSource → Instruction} (h : m.Based make) :
    ¬ m.Arithmetic make' := by
  intro h'
  cases h <;> cases h'

end Mnemonic

/-- A mnemonic and its operands denote no more than one instruction. -/
theorem Denotes.unique {here : Word} {symbols : SymbolTable} {m : Mnemonic}
    {values : List OperandValue} {i j : Instruction} (h : Denotes here symbols m values i)
    (h' : Denotes here symbols m values j) : i = j := by
  cases h with
  | not | ret | rti => cases h'; rfl
  | registers family =>
      cases h' with
      | registers family' => rw [family.unique family']
  | immediate family given =>
      cases h' with
      | immediate family' given' => rw [family.unique family', given.unique given']
      | based family' => exact absurd family family'.not_arithmetic
  | indirect family =>
      cases h' with
      | indirect family' => rw [family.unique family']
  | relative family given =>
      cases h' with
      | relative family' given' => rw [family.unique family', given.unique given']
  | based family given =>
      cases h' with
      | immediate family' => exact absurd family' family.not_arithmetic
      | based family' given' => rw [family.unique family', given.unique given']
  | br given =>
      cases h' with
      | br given' => rw [given.unique given']
  | jsr given =>
      cases h' with
      | jsr given' => rw [given.unique given']
  | trap value =>
      cases h' with
      | trap value' => rw [Option.some.inj (value.symm.trans value')]
  | service listed =>
      cases h' with
      | service listed' =>
          rw [Service.mem_vectors_iff.mp listed, Service.mem_vectors_iff.mp listed']

namespace Statement

variable {s : Statement} {symbols : SymbolTable} {m : Mnemonic} {operands : List Operand}

/-- Why an instruction has no word. -/
inductive Refuses (s : Statement) (symbols : SymbolTable) (m : Mnemonic)
    (operands : List Operand) : Complaint → Prop
  /-- The first operand too many is blamed, or the mnemonic where there are too few. -/
  | count (wrong : operands.length ≠ m.forms.length) : Refuses s symbols m operands
      ⟨(operands[m.forms.length]?.map Operand.span).getD s.span,
        .grammar (.operandCount m.forms.length operands.length)⟩
  /-- The first operand that is wrong is blamed. -/
  | operand {before after form o problem} (count : operands.length = m.forms.length)
      (split : m.forms.zip operands = before ++ (form, o) :: after)
      (sound : ∀ x ∈ before, ∃ f v, x.1.Gives s.address symbols x.2.value f v)
      (wrong : form.Wrong symbols o.value problem) : Refuses s symbols m operands ⟨o.span, problem⟩
  /-- The operand with a value outside the bounds of its field is blamed. -/
  | range {form o f v} (count : operands.length = m.forms.length)
      (sound : ∀ x ∈ m.forms.zip operands, ∃ f v, x.1.Gives s.address symbols x.2.value f v)
      (member : (form, o) ∈ m.forms.zip operands) (given : form.Gives s.address symbols o.value f v)
      (outside : v ∉ f.bounds) :
      Refuses s symbols m operands ⟨o.span, .outOfRange (.field f.name) v f.bounds⟩

/-- What the word of an instruction, or the lack of one, owes to the operands. -/
structure Emission (s : Statement) (symbols : SymbolTable) (m : Mnemonic)
    (operands : List Operand) : Prop where
  encodes_iff : (∃ w, s.instructionWord symbols m operands = .ok w) ↔
    List.Forall₂ (Form.Fits s.address symbols) m.forms (operands.map Operand.value)
  /-- The word is that of the one instruction that the operands denote. -/
  decodes : ∀ w, s.instructionWord symbols m operands = .ok w →
    ∃ i, Instruction.decode .strict w = .ok i ∧
      ∀ j, Denotes s.address symbols m (operands.map Operand.value) j ↔ j = i
  refuses_iff : ∀ c, s.instructionWord symbols m operands = .error c ↔
    s.Refuses symbols m operands c

theorem instructionWord_of_count_ne (wrong : operands.length ≠ m.forms.length) :
    s.instructionWord symbols m operands =
      .error ⟨(operands[m.forms.length]?.map Operand.span).getD s.span,
        .grammar (.operandCount m.forms.length operands.length)⟩ := by
  simp only [instructionWord, Signature.length_slots, if_neg wrong]

theorem instructionWord_of_assign_error (count : operands.length = m.forms.length) {c : Complaint}
    (failed : (Signature.of operands m).assign s.address symbols operands = .error c) :
    s.instructionWord symbols m operands = .error c := by
  simp only [instructionWord, Signature.length_slots, if_pos count, failed]
  rfl

section Assigned

variable {assigned : List Assignment} (count : operands.length = m.forms.length)
  (taken : (Signature.of operands m).assign s.address symbols operands = .ok assigned)

include count taken

theorem instructionWord_of_encode {w : Word}
    (encoded : ((Signature.of operands m).parts assigned).encode = .ok w) :
    s.instructionWord symbols m operands = .ok w := by
  simp only [instructionWord, Signature.length_slots, if_pos count, taken, bind, Except.bind,
    encoded]

/-- A field that overflows is that of an operand, and this operand is blamed. -/
theorem instructionWord_of_encode_error {e : EncodeError}
    (failed : ((Signature.of operands m).parts assigned).encode = .error e) :
    ∃ x ∈ m.forms.zip operands, ∃ f v, x.1.Gives s.address symbols x.2.value f v ∧ v ∉ f.bounds ∧
      s.instructionWord symbols m operands =
        .error ⟨x.2.span, .outOfRange (.field f.name) v f.bounds⟩ := by
  have matched := Signature.matches_of count
  obtain ⟨l, layout, covers⟩ := matched.covers
  have assigns := (Signature.assign_eq_ok_iff matched).mp taken
  obtain ⟨x, member, f, v, given, outside, rfl⟩ :=
    Signature.encode_parts_error covers assigns layout failed
  refine ⟨x, member, f, v, given, outside, ?_⟩
  simp only [instructionWord, Signature.length_slots, if_pos count, taken, bind, Except.bind,
    failed, Signature.spanOf_assigned covers assigns s.span member given]

theorem exists_encode_iff :
    (∃ w, ((Signature.of operands m).parts assigned).encode = .ok w) ↔
      ∀ x ∈ m.forms.zip operands, x.1.Fits s.address symbols x.2.value := by
  have matched := Signature.matches_of count
  obtain ⟨l, layout, covers⟩ := matched.covers
  exact Signature.exists_encode_parts_iff covers ((Signature.assign_eq_ok_iff matched).mp taken)
    layout

theorem sound_of_assign : ∀ x ∈ m.forms.zip operands,
    ∃ f v, x.1.Gives s.address symbols x.2.value f v := by
  intro x member
  have assigns := (Signature.assign_eq_ok_iff (Signature.matches_of count)).mp taken
  obtain ⟨-, -, v, given, -⟩ := Stage.exists_of_forall₂_left assigns member
  exact ⟨_, v, given⟩

end Assigned

theorem refuses_of_error {c : Complaint} (h : s.instructionWord symbols m operands = .error c) :
    s.Refuses symbols m operands c := by
  by_cases count : operands.length = m.forms.length
  · cases taken : (Signature.of operands m).assign s.address symbols operands with
    | error c' =>
        obtain rfl := Except.error.inj ((instructionWord_of_assign_error count taken).symm.trans h)
        obtain ⟨before, x, after, split, sound, problem, wrong, rfl⟩ :=
          (Signature.assign_eq_error_iff (Signature.matches_of count)).mp taken
        exact .operand count split sound wrong
    | ok assigned =>
        cases encoded : ((Signature.of operands m).parts assigned).encode with
        | ok w => rw [instructionWord_of_encode count taken encoded] at h; cases h
        | error e =>
            obtain ⟨x, member, f, v, given, outside, failed⟩ :=
              instructionWord_of_encode_error count taken encoded
            obtain rfl := Except.error.inj (failed.symm.trans h)
            exact .range count (sound_of_assign count taken) member given outside
  · rw [instructionWord_of_count_ne count] at h
    cases h
    exact .count count

/-- No more than one operand has a value out of range. -/
theorem eq_of_exceeds {x y : Form × Operand} {f g : Field} {v w : Int}
    (count : operands.length = m.forms.length) (hx : x ∈ m.forms.zip operands)
    (hy : y ∈ m.forms.zip operands) (givenX : x.1.Gives s.address symbols x.2.value f v)
    (givenY : y.1.Gives s.address symbols y.2.value g w) (outsideX : v ∉ f.bounds)
    (outsideY : w ∉ g.bounds) : x = y := by
  have ordered := m.pairwise_forms
  rw [← List.map_fst_zip (Nat.le_of_eq count.symm), List.pairwise_map] at ordered
  have : Std.Symm fun x y : Form × Operand => x.1.isRegister = true ∨ y.1.isRegister = true :=
    ⟨fun _ _ => Or.symm⟩
  by_contra other
  rcases ordered.forall hx hy other with register | register
  · exact outsideX (givenX.mem_bounds register)
  · exact outsideY (givenY.mem_bounds register)

theorem error_of_refuses {c : Complaint} (h : s.Refuses symbols m operands c) :
    s.instructionWord symbols m operands = .error c := by
  cases h with
  | count wrong => exact instructionWord_of_count_ne wrong
  | operand count split sound wrong =>
      exact instructionWord_of_assign_error count
        ((Signature.assign_eq_error_iff (Signature.matches_of count)).mpr
          ⟨_, _, _, split, sound, _, wrong, rfl⟩)
  | range count sound member given outside =>
      cases taken : (Signature.of operands m).assign s.address symbols operands with
      | error c' =>
          obtain ⟨before, x, after, split, -, problem, wrong, -⟩ :=
            (Signature.assign_eq_error_iff (Signature.matches_of count)).mp taken
          obtain ⟨f, v, right⟩ := sound x (by rw [split]; simp)
          exact absurd wrong right.not_wrong
      | ok assigned =>
          cases encoded : ((Signature.of operands m).parts assigned).encode with
          | ok w =>
              obtain ⟨g, u, own, within⟩ :=
                (exists_encode_iff count taken).mp ⟨w, encoded⟩ _ member
              obtain ⟨rfl, rfl⟩ := given.unique own
              exact absurd within outside
          | error e =>
              obtain ⟨x, inside, g, u, own, exceeds, failed⟩ :=
                instructionWord_of_encode_error count taken encoded
              obtain rfl := eq_of_exceeds count inside member own given exceeds outside
              obtain ⟨rfl, rfl⟩ := given.unique own
              exact failed

theorem fits_of_word {w : Word} (h : s.instructionWord symbols m operands = .ok w) :
    operands.length = m.forms.length ∧
      ∀ x ∈ m.forms.zip operands, x.1.Fits s.address symbols x.2.value := by
  by_cases count : operands.length = m.forms.length
  · refine ⟨count, ?_⟩
    cases taken : (Signature.of operands m).assign s.address symbols operands with
    | error c => rw [instructionWord_of_assign_error count taken] at h; cases h
    | ok assigned =>
        cases encoded : ((Signature.of operands m).parts assigned).encode with
        | ok w => exact (exists_encode_iff count taken).mp ⟨w, encoded⟩
        | error e =>
            obtain ⟨x, -, f, v, -, -, failed⟩ :=
              instructionWord_of_encode_error count taken encoded
            rw [failed] at h
            cases h
  · rw [instructionWord_of_count_ne count] at h
    cases h

theorem Refuses.not_fits {c : Complaint} (h : s.Refuses symbols m operands c)
    (count : operands.length = m.forms.length) :
    ¬ ∀ x ∈ m.forms.zip operands, x.1.Fits s.address symbols x.2.value := by
  intro fits
  cases h with
  | count wrong => exact wrong count
  | operand _ split _ wrong =>
      obtain ⟨f, v, given, -⟩ := fits _ (by rw [split]; exact List.mem_append_cons_self)
      exact given.not_wrong wrong
  | range _ _ member given outside =>
      obtain ⟨g, w, own, within⟩ := fits _ member
      obtain ⟨rfl, rfl⟩ := given.unique own
      exact outside within

theorem exists_word_iff : (∃ w, s.instructionWord symbols m operands = .ok w) ↔
    List.Forall₂ (Form.Fits s.address symbols) m.forms (operands.map Operand.value) := by
  rw [List.forall₂_map_right_iff, List.forall₂_iff_zip]
  constructor
  · rintro ⟨w, encoded⟩
    obtain ⟨count, fits⟩ := fits_of_word encoded
    exact ⟨count.symm, fun member => fits _ member⟩
  · rintro ⟨count, fits⟩
    cases emitted : s.instructionWord symbols m operands with
    | ok w => exact ⟨w, rfl⟩
    | error c =>
        exact absurd (fun x member => fits member) ((refuses_of_error emitted).not_fits count.symm)

theorem emission_exact (s : Statement) (symbols : SymbolTable) (m : Mnemonic)
    (operands : List Operand) : s.Emission symbols m operands where
  encodes_iff := exists_word_iff
  decodes w h := by
    obtain ⟨i, denotes, decoded⟩ := exists_denotes h
    refine ⟨i, decoded, fun j => ⟨fun other => other.unique denotes, ?_⟩⟩
    rintro rfl
    exact denotes
  refuses_iff _ := ⟨refuses_of_error, error_of_refuses⟩

end Statement
end LC3
