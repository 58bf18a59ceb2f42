import Mathlib
import LC3.Machine.Processor

/-!
Object images. A program without its labels is read back from its image, in words or in bytes, and
whatever is read as a program is the image of that program. A processor loads the one as it loads the
other. Main statement: `images_exact`.
-/

namespace LC3
namespace Word

variable {pairs : List Byte}

theorem toNat_append (high low : Byte) :
    (high ++ low : Word).toNat = 256 * high.toNat + low.toNat := by
  rw [BitVec.toNat_append, ← Nat.shiftLeft_add_eq_or_of_lt low.isLt, Nat.shiftLeft_eq,
    Nat.mul_comm]

theorem bytes_append (high low : Byte) : bytes (high ++ low) = [high, low] := by
  have first : (high ++ low : Word).extractLsb' 8 8 = high := BitVec.extractLsb'_append_eq_left
  have second : (high ++ low : Word).extractLsb' 0 8 = low := BitVec.extractLsb'_append_eq_right
  rw [bytes, first, second]

theorem append_of_bytes (w : Word) : (w.extractLsb' 8 8 ++ w.extractLsb' 0 8 : Word) = w := by
  have whole : (w.extractLsb' 8 8 ++ w.extractLsb' 0 8 : Word) = w.extractLsb' 0 16 :=
    BitVec.extractLsb'_append_extractLsb'_eq_extractLsb' rfl
  rw [whole, BitVec.extractLsb'_eq_self]

/-- The words that are done are in reverse. -/
theorem ofBytesInto_eq (done : List Word) :
    ofBytesInto done pairs = done.reverse ++ ofBytes pairs := by
  rw [ofBytes]
  induction pairs using List.twoStepInduction generalizing done with
  | nil => simp [ofBytesInto]
  | singleton => simp [ofBytesInto]
  | cons_cons high low rest ih =>
      rw [ofBytesInto, ofBytesInto, ih, ih [_], List.reverse_cons, List.append_assoc]
      rfl

theorem ofBytes_cons (high low : Byte) (rest : List Byte) :
    ofBytes (high :: low :: rest) = (high ++ low) :: ofBytes rest := by
  rw [ofBytes, ofBytesInto, ofBytesInto_eq]
  rfl

/-- Words are read back from their bytes. -/
theorem ofBytes_flatMap_bytes (words : List Word) : ofBytes (words.flatMap bytes) = words := by
  induction words with
  | nil => rfl
  | cons w rest ih =>
      rw [List.flatMap_cons, bytes, List.cons_append, List.cons_append, List.nil_append,
        ofBytes_cons, ih, append_of_bytes]

/-- Bytes that come in pairs are those of the words that they are read as. -/
theorem flatMap_bytes_ofBytes (even : pairs.length % 2 = 0) :
    (ofBytes pairs).flatMap bytes = pairs := by
  induction pairs using List.twoStepInduction with
  | nil => rfl
  | singleton => cases even
  | cons_cons high low rest ih =>
      rw [List.length_cons, List.length_cons] at even
      have even : rest.length % 2 = 0 := by omega
      rw [ofBytes_cons, List.flatMap_cons, bytes_append, ih even]
      rfl

theorem length_flatMap_bytes (words : List Word) :
    (words.flatMap bytes).length = 2 * words.length := by
  induction words with
  | nil => rfl
  | cons w rest ih =>
      rw [List.flatMap_cons, List.length_append, ih, List.length_cons, Nat.mul_succ, Nat.add_comm]
      rfl

/-- The bytes of a word stand at twice its place, the high one first. -/
theorem exists_flatMap_bytes {words : List Word} {i : Nat} {w : Word}
    (found : words[i]? = some w) :
    ∃ high low, (words.flatMap bytes)[2 * i]? = some high ∧
      (words.flatMap bytes)[2 * i + 1]? = some low ∧
      w.toNat = 256 * high.toNat + low.toNat := by
  induction words generalizing i with
  | nil => cases found
  | cons v rest ih =>
      cases i with
      | zero =>
          cases found
          refine ⟨w.extractLsb' 8 8, w.extractLsb' 0 8, rfl, rfl, ?_⟩
          rw [← toNat_append, append_of_bytes]
      | succ i => exact ih found

end Word

namespace Program

/-- The program that is left in an image, which carries no labels. -/
def unlabelled (p : Program) : Program := { p with symbols := .empty }

/-- A program and its images. -/
structure Imaged (p : Program) : Prop where
  first : p.image = p.origin :: p.words
  length : p.imageBytes.length = 2 * p.image.length
  order : ∀ i w, p.image[i]? = some w → ∃ high low, p.imageBytes[2 * i]? = some high ∧
    p.imageBytes[2 * i + 1]? = some low ∧ w.toNat = 256 * high.toNat + low.toNat
  read : ofImage p.image = .ok p.unlabelled
  readBytes : ofImageBytes p.imageBytes = .ok p.unlabelled
  /-- A processor answers in the same way and goes to the same state. -/
  load : ∀ m : Processor, m.loadImage p.image = m.loadProgram p
  loadBytes : ∀ m : Processor, ∃ q, ofImageBytes p.imageBytes = .ok q ∧
    m.loadProgram q = m.loadProgram p

/-- Words and bytes that may be an image or not. -/
structure Imaging (words : List Word) (bytes : List Byte) : Prop where
  written : ∀ p, ofImage words = .ok p → p.image = words
  writtenBytes : ∀ p, ofImageBytes bytes = .ok p → p.imageBytes = bytes
  refused : ∀ cause, ofImage words = .error cause ↔ words = [] ∧ cause = .empty
  refusedBytes : ∀ cause, ofImageBytes bytes = .error cause ↔
    bytes.length % 2 = 1 ∧ cause = .misaligned bytes.length ∨ bytes = [] ∧ cause = .empty

variable {p : Program} {words : List Word} {bytes : List Byte} {cause : ImageError}

theorem ofImage_eq_ok_iff :
    ofImage words = .ok p ↔ p.image = words ∧ p.symbols = .empty := by
  obtain ⟨origin, own, symbols⟩ := p
  cases words with
  | nil => simp [ofImage, image]
  | cons first rest => simp [ofImage, image, eq_comm, and_assoc]

theorem ofImage_eq_error_iff : ofImage words = .error cause ↔ words = [] ∧ cause = .empty := by
  cases words with
  | nil => simp [ofImage, eq_comm]
  | cons first rest => simp [ofImage]

theorem ofImageBytes_imageBytes (p : Program) : ofImageBytes p.imageBytes = ofImage p.image := by
  have even : p.imageBytes.length % 2 = 0 := by
    rw [imageBytes, Word.length_flatMap_bytes, Nat.mul_mod_right]
  rw [ofImageBytes, if_pos even, imageBytes, Word.ofBytes_flatMap_bytes]

theorem imageBytes_of_ofImageBytes (read : ofImageBytes bytes = .ok p) : p.imageBytes = bytes := by
  rw [ofImageBytes] at read
  split at read
  · next even =>
    rw [imageBytes, (ofImage_eq_ok_iff.mp read).1, Word.flatMap_bytes_ofBytes even]
  · cases read

/-- Bytes are refused for their number first, and for want of an origin then. -/
theorem ofImageBytes_eq_error_iff : ofImageBytes bytes = .error cause ↔
    bytes.length % 2 = 1 ∧ cause = .misaligned bytes.length ∨ bytes = [] ∧ cause = .empty := by
  rw [ofImageBytes]
  split
  · next even =>
    have none : Word.ofBytes bytes = [] ↔ bytes = [] := by
      constructor
      · intro none
        rw [← Word.flatMap_bytes_ofBytes even, none]
        rfl
      · rintro rfl
        rfl
    rw [ofImage_eq_error_iff, none]
    simp [even]
  · next odd =>
    have some : bytes ≠ [] := by
      rintro rfl
      exact odd rfl
    have odd : bytes.length % 2 = 1 := by omega
    simp [odd, some, eq_comm]

theorem read_image (p : Program) : ofImage p.image = .ok p.unlabelled :=
  ofImage_eq_ok_iff.mpr ⟨rfl, rfl⟩

theorem readBytes_image (p : Program) : ofImageBytes p.imageBytes = .ok p.unlabelled :=
  (ofImageBytes_imageBytes p).trans p.read_image

/-- Images hold what programs are loaded from, and nothing else is one. -/
theorem images_exact (p : Program) (words : List Word) (bytes : List Byte) :
    p.Imaged ∧ Imaging words bytes where
  left := {
    first := rfl
    length := Word.length_flatMap_bytes p.image
    order := fun _ _ => Word.exists_flatMap_bytes
    read := p.read_image
    readBytes := p.readBytes_image
    load := fun m => by
      rw [Processor.loadImage, p.read_image]
      rfl
    loadBytes := fun m => ⟨p.unlabelled, p.readBytes_image, rfl⟩ }
  right := {
    written := fun _ read => (ofImage_eq_ok_iff.mp read).1
    writtenBytes := fun _ => imageBytes_of_ofImageBytes
    refused := fun _ => ofImage_eq_error_iff
    refusedBytes := fun _ => ofImageBytes_eq_error_iff }

end Program
end LC3
