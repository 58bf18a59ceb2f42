import LC3.Word.Codec

/-!
The named parts of an instruction word, and the values given to them. A field set is compared field
by field, so the order in which values were set does not matter.
-/

namespace LC3

/-- The parts of an instruction that vary from one word to another. -/
inductive FieldName where
  | dr | sr | sr1 | sr2 | baseR
  | imm5 | offset6 | pcOffset9 | pcOffset11
  | trapVector8
  | n | z | p
  deriving DecidableEq, Repr

namespace FieldName

def name : FieldName → String
  | .dr => "DR"
  | .sr => "SR"
  | .sr1 => "SR1"
  | .sr2 => "SR2"
  | .baseR => "BaseR"
  | .imm5 => "imm5"
  | .offset6 => "offset6"
  | .pcOffset9 => "PCoffset9"
  | .pcOffset11 => "PCoffset11"
  | .trapVector8 => "trapvect8"
  | .n => "n"
  | .z => "z"
  | .p => "p"

/-- Every field name, in the order in which field sets are written. -/
def all : List FieldName :=
  [.dr, .sr, .sr1, .sr2, .baseR, .imm5, .offset6, .pcOffset9, .pcOffset11, .trapVector8, .n, .z, .p]

theorem mem_all (f : FieldName) : f ∈ all := by cases f <;> decide

end FieldName

structure Field where
  name : FieldName
  width : Width
  signedness : Signedness
  deriving DecidableEq

def Field.bounds (f : Field) : Interval := f.width.bounds f.signedness

/-- Values for some of the fields. -/
@[ext]
structure FieldSet where
  get : FieldName → Option Int

namespace FieldSet

def empty : FieldSet := ⟨fun _ => none⟩

/-- The set with `f` given the value `v`, whatever it was before. -/
def set (s : FieldSet) (f : FieldName) (v : Int) : FieldSet :=
  ⟨fun g => if g = f then some v else s.get g⟩

/-- The set of some assignments, of which the last one to a field counts. -/
def ofList (assignments : List (FieldName × Int)) : FieldSet :=
  assignments.foldl (fun s a => s.set a.1 a.2) empty

@[simp] theorem get_empty (f : FieldName) : empty.get f = none := rfl

@[simp] theorem get_set (s : FieldSet) (f g : FieldName) (v : Int) :
    (s.set f v).get g = if g = f then some v else s.get g := rfl

instance : DecidableEq FieldSet := fun a b =>
  decidable_of_iff (∀ f ∈ FieldName.all, a.get f = b.get f)
    ⟨fun h => FieldSet.ext (funext fun f => h f (FieldName.mem_all f)), fun h _ _ => by rw [h]⟩

/-- The assigned fields in the order of `FieldName.all`. -/
def toList (s : FieldSet) : List (FieldName × Int) :=
  FieldName.all.filterMap fun f => (s.get f).map fun v => (f, v)

def text (s : FieldSet) : String :=
  let entries := s.toList.map fun (f, v) => "\"" ++ f.name ++ "\": " ++ toString v
  "\x7b" ++ ", ".intercalate entries ++ "\x7d"

end FieldSet
end LC3
