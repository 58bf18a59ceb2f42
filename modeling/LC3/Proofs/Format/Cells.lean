import LC3.Proofs.Format.Canonical
import LC3.Proofs.Word.Masks

/-!
Fields of a word as cells. Each may be read and written as if the others were not there, and where
the fields have every bit of a word once, the word is what they hold: writing them in any order,
over whatever was there before, gives it back. The opcode and the segments of a layout are such
fields. Main statements: `cell`, `IsPartition.rebuilds`, `cells`, `Layout.isPartition`.
-/

namespace LC3
namespace BitRange

/-- The bit is one of the field. -/
def Has (r : BitRange) (i : Nat) : Prop := r.low ≤ i ∧ i ≤ r.high

instance (r : BitRange) (i : Nat) : Decidable (r.Has i) := inferInstanceAs (Decidable (_ ∧ _))

/-- No bit is one of both fields. -/
def Apart (r q : BitRange) : Prop := r.high < q.low ∨ q.high < r.low

variable {r q : BitRange} {s : Signedness} {word word' value : Word} {i : Nat}

theorem Apart.symm (h : r.Apart q) : q.Apart r := Or.symm h

theorem Apart.not_has (h : r.Apart q) (own : r.Has i) : ¬ q.Has i := by
  intro other
  obtain ⟨low, high⟩ := own
  obtain ⟨low', high'⟩ := other
  cases h with
  | inl below => omega
  | inr above => omega

theorem Has.offset_lt (own : r.Has i) : i - r.low < r.width.bits := by
  obtain ⟨low, high⟩ := own
  simp only [width]
  omega

theorem getLsbD_insert_of_has (own : r.Has i) :
    (r.insert word value).getLsbD i = value.getLsbD (i - r.low) := by
  rw [getLsbD_insert]
  exact if_pos own

theorem getLsbD_insert_of_not_has (other : ¬ r.Has i) :
    (r.insert word value).getLsbD i = word.getLsbD i := by
  rw [getLsbD_insert]
  exact if_neg other

theorem setWidth_extract (r : BitRange) (s : Signedness) (word : Word) :
    (r.extract s word).setWidth r.width.bits = (word >>> r.low).setWidth r.width.bits := by
  cases s with
  | unsigned => exact r.width.setWidth_setWidth_bits _
  | signed => exact r.width.setWidth_signExtend _

/-- A reading has the bits of the field, signed or not. -/
theorem getLsbD_extract_of_has (own : r.Has i) :
    (r.extract s word).getLsbD (i - r.low) = word.getLsbD i := by
  have low := congrArg (BitVec.getLsbD · (i - r.low)) (r.setWidth_extract s word)
  simpa [own.offset_lt, Nat.add_sub_cancel' own.1] using low

theorem extract_signed (r : BitRange) (word : Word) :
    r.extract .signed word = r.width.signExtend (r.extract .unsigned word) := by
  rw [Width.signExtend, setWidth_extract]
  rfl

theorem extract_unsigned (r : BitRange) (word : Word) :
    r.extract .unsigned word = word >>> r.low &&& r.width.mask := by
  rw [Width.and_mask]
  rfl

theorem mask_eq (r : BitRange) : r.mask = r.width.mask <<< r.low := by
  have ones : (BitVec.allOnes r.width.bits).setWidth 16 = r.width.mask := by
    apply BitVec.eq_of_getLsbD_eq
    intro i inside
    rw [Width.getLsbD_mask, BitVec.getLsbD_setWidth, BitVec.getLsbD_allOnes, decide_eq_true inside,
      Bool.true_and]
  rw [mask, ones]

/-- The field holds the low bits of a value exactly where it has them one by one. -/
theorem extract_eq_and_mask_iff : r.extract .unsigned word = value &&& r.width.mask ↔
    ∀ i, r.Has i → word.getLsbD i = value.getLsbD (i - r.low) := by
  have low {i : Nat} (own : r.Has i) :
      (value &&& r.width.mask).getLsbD (i - r.low) = value.getLsbD (i - r.low) := by
    rw [BitVec.getLsbD_and, Width.getLsbD_mask, decide_eq_true own.offset_lt, Bool.and_true]
  constructor
  · intro same i own
    rw [← getLsbD_extract_of_has own, same, low own]
  · intro same
    refine (extract_eq_iff fun i above => ?_).mpr fun i least most => ?_
    · rw [BitVec.getLsbD_and, Width.getLsbD_mask, decide_eq_false (Nat.not_lt.mpr above),
        Bool.and_false]
    · have own : r.Has i := ⟨least, most⟩
      rw [same i own, low own]

/-- Readings of a field are equal exactly where its bits are. -/
theorem extract_eq_extract_iff : r.extract s word = r.extract s word' ↔
    ∀ i, r.Has i → word.getLsbD i = word'.getLsbD i := by
  constructor
  · intro same i own
    rw [← getLsbD_extract_of_has own, same, getLsbD_extract_of_has own]
  · intro same
    have unsigned : r.extract .unsigned word = r.extract .unsigned word' := by
      rw [r.extract_unsigned word', extract_eq_and_mask_iff]
      intro i own
      rw [same i own, BitVec.getLsbD_ushiftRight, Nat.add_sub_cancel' own.1]
    cases s with
    | unsigned => exact unsigned
    | signed => rw [extract_signed, unsigned, ← extract_signed]

theorem extract_insert (r : BitRange) (word value : Word) :
    r.extract .unsigned (r.insert word value) = value &&& r.width.mask :=
  extract_eq_and_mask_iff.mpr fun _ own => getLsbD_insert_of_has own

theorem insert_extract (r : BitRange) (s : Signedness) (word : Word) :
    r.insert word (r.extract s word) = word := by
  apply BitVec.eq_of_getLsbD_eq
  intro i _
  by_cases own : r.Has i
  · rw [getLsbD_insert_of_has own, getLsbD_extract_of_has own]
  · rw [getLsbD_insert_of_not_has own]

theorem insert_insert (r : BitRange) (word value value' : Word) :
    r.insert (r.insert word value) value' = r.insert word value' := by
  apply BitVec.eq_of_getLsbD_eq
  intro i _
  by_cases own : r.Has i
  · rw [getLsbD_insert_of_has own, getLsbD_insert_of_has own]
  · rw [getLsbD_insert_of_not_has own, getLsbD_insert_of_not_has own,
      getLsbD_insert_of_not_has own]

theorem insert_comm (apart : r.Apart q) (word value value' : Word) :
    q.insert (r.insert word value) value' = r.insert (q.insert word value') value := by
  apply BitVec.eq_of_getLsbD_eq
  intro i _
  by_cases own : r.Has i
  · have other := apart.not_has own
    rw [getLsbD_insert_of_not_has other, getLsbD_insert_of_has own, getLsbD_insert_of_has own]
  · by_cases second : q.Has i
    · rw [getLsbD_insert_of_has second, getLsbD_insert_of_not_has own,
        getLsbD_insert_of_has second]
    · rw [getLsbD_insert_of_not_has second, getLsbD_insert_of_not_has own,
        getLsbD_insert_of_not_has own, getLsbD_insert_of_not_has second]

theorem extract_insert_of_apart (apart : r.Apart q) (s : Signedness) (word value : Word) :
    q.extract s (r.insert word value) = q.extract s word := by
  rw [extract_eq_extract_iff]
  intro i own
  exact getLsbD_insert_of_not_has (apart.symm.not_has own)

/-- The word with each of the fields given its value, one after the other. -/
def insertAll (order : List BitRange) (values : BitRange → Word) (base : Word) : Word :=
  order.foldl (fun word r => r.insert word (values r)) base

variable {order : List BitRange} {values : BitRange → Word} {base : Word}

theorem getLsbD_insertAll_of_not_has (none : ∀ r ∈ order, ¬ r.Has i) :
    (insertAll order values base).getLsbD i = base.getLsbD i := by
  induction order generalizing base with
  | nil => rfl
  | cons r order ih =>
      obtain ⟨other, none⟩ := List.forall_mem_cons.mp none
      rw [insertAll, List.foldl_cons, ← insertAll, ih none, getLsbD_insert_of_not_has other]

/-- The fields that are written after one leave its bits alone. -/
theorem getLsbD_insertAll_of_has (apart : order.Pairwise Apart) (member : r ∈ order)
    (own : r.Has i) :
    (insertAll order values base).getLsbD i = (values r).getLsbD (i - r.low) := by
  induction order generalizing base with
  | nil => cases member
  | cons q order ih =>
      obtain ⟨first, apart⟩ := List.pairwise_cons.mp apart
      rw [insertAll, List.foldl_cons, ← insertAll]
      cases List.mem_cons.mp member with
      | inl same =>
          subst same
          have later : ∀ q ∈ order, ¬ q.Has i := fun q later => (first q later).not_has own
          rw [getLsbD_insertAll_of_not_has later, getLsbD_insert_of_has own]
      | inr later => exact ih apart later

/-- The laws of a field that is read and written on its own. -/
structure Cell (r : BitRange) : Prop where
  written : ∀ word value, (r.extract .unsigned (r.insert word value)).toNat =
    value.toNat % 2 ^ (r.high - r.low + 1)
  extended : ∀ word value, r.extract .signed (r.insert word value) = r.width.signExtend value
  others : ∀ word value i, i < r.low ∨ r.high < i →
    (r.insert word value).getLsbD i = word.getLsbD i
  restored : ∀ s word, r.insert word (r.extract s word) = word
  overwritten : ∀ word value value',
    r.insert (r.insert word value) value' = r.insert word value'
  commutes : ∀ q, r.Apart q → ∀ word value value',
    q.insert (r.insert word value) value' = r.insert (q.insert word value') value
  independent : ∀ q, r.Apart q → ∀ s word value,
    q.extract s (r.insert word value) = q.extract s word
  /-- Reading is a shift and a mask, and the mask of writing is that one, shifted. -/
  masked : (∀ word, r.extract .unsigned word = word >>> r.low &&& r.width.mask ∧
    r.extract .signed word = r.width.signExtend (word >>> r.low &&& r.width.mask)) ∧
      r.mask = r.width.mask <<< r.low

theorem cell (r : BitRange) : r.Cell where
  written word value := by
    rw [extract_insert, Width.toNat_and_mask]
    rfl
  extended word value := by
    rw [extract_signed, extract_insert, Width.signExtend, Width.signExtend, Width.and_mask,
      Width.setWidth_setWidth_bits]
  others word value i outside := by
    apply getLsbD_insert_of_not_has
    rintro ⟨low, high⟩
    omega
  restored := insert_extract r
  overwritten := insert_insert r
  commutes q apart := insert_comm apart
  independent q apart := extract_insert_of_apart apart
  masked := by
    refine ⟨fun word => ⟨extract_unsigned r word, ?_⟩, mask_eq r⟩
    rw [extract_signed, extract_unsigned]

/-- Each bit of a word is one of exactly one of the fields. -/
structure IsPartition (ranges : List BitRange) : Prop where
  covers : ∀ i < 16, ∃ r ∈ ranges, r.Has i
  apart : ranges.Pairwise Apart

/-- A word is put together from these fields, in any order. -/
structure Rebuilds (ranges : List BitRange) : Prop where
  determined : ∀ (s : BitRange → Signedness) (word word' : Word),
    (∀ r ∈ ranges, r.extract (s r) word = r.extract (s r) word') → word = word'
  rebuilt : ∀ (s : BitRange → Signedness) (word base : Word) (order : List BitRange),
    order.Perm ranges → insertAll order (fun r => r.extract (s r) word) base = word
  /-- Any values may be given to the fields, and each has its own. -/
  composed : ∀ (values : BitRange → Word) (base : Word) (order : List BitRange),
    order.Perm ranges → ∀ r ∈ ranges, (r.extract .unsigned (insertAll order values base)).toNat =
      (values r).toNat % 2 ^ (r.high - r.low + 1)

theorem IsPartition.rebuilds {ranges : List BitRange} (h : IsPartition ranges) :
    Rebuilds ranges where
  determined s word word' same := by
    apply BitVec.eq_of_getLsbD_eq
    intro i inside
    obtain ⟨r, member, own⟩ := h.covers i inside
    exact extract_eq_extract_iff.mp (same r member) i own
  rebuilt s word base order perm := by
    have apart := perm.symm.pairwise h.apart Apart.symm
    apply BitVec.eq_of_getLsbD_eq
    intro i inside
    obtain ⟨r, member, own⟩ := h.covers i inside
    rw [getLsbD_insertAll_of_has apart (perm.mem_iff.mpr member) own, getLsbD_extract_of_has own]
  composed values base order perm r member := by
    have apart := perm.symm.pairwise h.apart Apart.symm
    have own : r.extract .unsigned (insertAll order values base) = values r &&& r.width.mask := by
      rw [extract_eq_and_mask_iff]
      intro i own
      exact getLsbD_insertAll_of_has apart (perm.mem_iff.mpr member) own
    rw [own, Width.toNat_and_mask]
    rfl

end BitRange

/-- The bits of an opcode and of the segments below it. -/
def Layout.ranges (l : Layout) : List BitRange :=
  { high := 15, low := 12 } :: l.placed.map Placement.range

theorem Layout.isPartition (l : Layout) : BitRange.IsPartition l.ranges where
  covers i inside := by
    by_cases low : i < 12
    · obtain ⟨p, placed, own⟩ : ∃ p ∈ l.placed, p.range.low ≤ i ∧ i ≤ p.range.high :=
        Segment.exists_place_of_lt (by rw [l.covers]; exact low)
      exact ⟨p.range, List.mem_cons_of_mem _ (List.mem_map_of_mem placed), own⟩
    · exact ⟨_, List.mem_cons_self, Nat.le_of_not_lt low, Nat.le_of_lt_succ inside⟩
  apart := by
    refine List.pairwise_cons.mpr ⟨?_, ?_⟩
    · intro r member
      obtain ⟨p, placed, rfl⟩ := List.mem_map.mp member
      have below := Segment.high_lt_of_mem_place placed
      rw [l.covers] at below
      exact .inr below
    · exact List.pairwise_map.mpr (Segment.pairwise_place.imp .inr)

namespace BitRange

/-- Fields are independent of each other, and a word is what the fields of any division hold. -/
theorem cells : (∀ r : BitRange, r.Cell) ∧
    ∀ ranges : List BitRange, IsPartition ranges → Rebuilds ranges :=
  ⟨cell, fun _ partition => partition.rebuilds⟩

theorem rebuilds_immediate :
    IsPartition Layout.immediate.ranges ∧ Rebuilds Layout.immediate.ranges :=
  ⟨Layout.isPartition .immediate, cells.2 _ (Layout.isPartition .immediate)⟩

end BitRange
end LC3
