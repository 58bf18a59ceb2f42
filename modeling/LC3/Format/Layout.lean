import LC3.Format.Field
import LC3.Word.Field

/-!
How the low twelve bits of an instruction are divided. A layout lists its segments from the most
significant down and covers the twelve bits exactly, so a segment lies just above the segments that
follow it. An opcode has one layout, or two told apart by a selector bit.
-/

namespace LC3

/-- A run of bits that holds a field, or the same pattern in every word. -/
inductive Segment where
  | field (field : Field)
  | constant (width : Width) (pattern : BitVec width.bits)

namespace Segment

def width : Segment → Width
  | .field f => f.width
  | .constant w _ => w

/-- The number of bits that some segments take together. -/
def total : List Segment → Nat
  | [] => 0
  | s :: rest => s.width.bits + total rest

def register (f : FieldName) : Segment := .field ⟨f, 3, .unsigned⟩

def flag (f : FieldName) : Segment := .field ⟨f, 1, .unsigned⟩

def signed (f : FieldName) (w : Width) : Segment := .field ⟨f, w, .signed⟩

def zeros (w : Width) : Segment := .constant w 0

def ones (w : Width) : Segment := .constant w (BitVec.allOnes w.bits)

end Segment

/-- A segment and the bits of the word that it occupies. -/
structure Placement where
  range : BitRange
  segment : Segment

/-- Each segment directly above the ones after it, the last one ending at bit 0. -/
def Segment.place : (segments : List Segment) → total segments ≤ 16 → List Placement
  | [], _ => []
  | s :: rest, h =>
    have pos := s.width.pos
    have fits : s.width.bits + total rest ≤ 16 := h
    { range := ⟨total rest + s.width.bits - 1, total rest, by omega, by omega⟩, segment := s } ::
      place rest (by omega)

/-- A division of the twelve bits below the opcode. -/
structure Layout where
  segments : List Segment
  covers : Segment.total segments = 12 := by rfl

namespace Layout

def placed (l : Layout) : List Placement :=
  Segment.place l.segments (by have := l.covers; omega)

def fields (l : Layout) : List Field :=
  l.segments.filterMap fun
    | .field f => some f
    | .constant _ _ => none

end Layout

/-- The layouts of one opcode, numbered from 0. -/
inductive Format where
  | uniform (layout : Layout)
  | selected (bit : Fin 16) (clear set : Layout)

namespace Format

def selector? : Format → Option (Fin 16)
  | .uniform _ => none
  | .selected bit _ _ => some bit

def layouts : Format → List Layout
  | .uniform l => [l]
  | .selected _ l m => [l, m]

/-- The number of the layout in which `word` is written. -/
def modeOf (word : Word) : Format → Nat
  | .uniform _ => 0
  | .selected bit _ _ => if word.getLsbD bit then 1 else 0

/-- The layout in which `word` is written. -/
def layoutOf (word : Word) : Format → Layout
  | .uniform l => l
  | .selected bit l m => if word.getLsbD bit then m else l

theorem layouts_modeOf (f : Format) (word : Word) :
    f.layouts[f.modeOf word]? = some (f.layoutOf word) := by
  cases f with
  | uniform l => rfl
  | selected bit l m =>
    simp only [layouts, modeOf, layoutOf]
    split <;> rfl

end Format
end LC3
