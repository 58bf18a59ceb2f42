import LC3.Proofs.Source.Boundaries

/-!
Cursors kept by counting. Instead of the characters passed in the current token it is enough to know
how many bytes were left where the token started, and to take from them what is left now. Only where
a token is flushed do these counters come into step with the text again, their difference has to fit
into 32 bits, and the end of the text is told by a character that may stand in it. In whatever order
a cursor is used, the counters give its place. Main statements: `exists_pass`, `call?_tally`,
`kept_of_calls`.
-/

namespace LC3

/-- A place in a source that is kept by counting: the current token starts `start` bytes into it,
where `left` bytes were left, and `rest` is what is left now. -/
structure Tally where
  start : Nat
  left : Nat
  rest : List Char
  deriving DecidableEq, Repr

/-- What a cursor can be told to do. -/
inductive Cursor.Call where
  | bump
  | takeWhile (p : Char → Bool)
  | flush
  | nextToken

namespace Cursor

def call (c : Cursor) : Call → Cursor
  | .bump => c.bump.2
  | .takeWhile p => c.takeWhile p
  | .flush => c.flush
  | .nextToken => c.nextToken.2

/-- The cursor without the characters that it remembers. -/
def tally (c : Cursor) : Tally := ⟨c.start, c.position + byteLength c.rest, c.rest⟩

end Cursor

namespace Tally

def ofText (source : List Char) : Tally := ⟨0, byteLength source, source⟩

/-- The next character, and the null character at the end. -/
def first (t : Tally) : Char := t.rest.headD '\x00'

def isAtEnd (t : Tally) : Bool := t.rest.isEmpty

def bump (t : Tally) : Tally := { t with rest := t.rest.tail }

/-- Passes characters one by one while the next satisfies the predicate. At the end the predicate is
asked about the null character, whose answer is not enough to go on. -/
def takeWhile (p : Char → Bool) (t : Tally) : Tally :=
  if p t.first ∧ t.isAtEnd = false then takeWhile p t.bump else t
termination_by t.rest.length
decreasing_by
  rename_i more
  obtain ⟨d, rest, same⟩ := List.exists_cons_of_ne_nil (List.isEmpty_eq_false_iff.mp more.2)
  simp [bump, same]

/-- A number that 32 bits can hold. -/
def count? (n : Nat) : Option Nat := if n < 2 ^ 32 then some n else none

/-- The bytes passed in the current token, unless more are left than were left at its start or the
number is too large. -/
def position? (t : Tally) : Option Nat :=
  if byteLength t.rest ≤ t.left then count? (t.left - byteLength t.rest) else none

def flush? (t : Tally) : Option Tally := do
  let position ← t.position?
  return ⟨t.start + position, byteLength t.rest, t.rest⟩

/-- The kind and the span of the token that ends with the lexeme ahead, and the place after it. -/
def nextToken? (t : Tally) : Option ((TokenKind × Span) × Tally) := do
  let start ← count? t.start
  match t.rest with
  | [] => return ((.endOfFile, ⟨start, 0⟩), t)
  | d :: rest =>
    let lexeme := Lexeme.of d rest
    let ahead : Tally := { t with rest := rest.drop lexeme.more }
    let length ← ahead.position?
    let next ← ahead.flush?
    return ((lexeme.kind, ⟨start, length⟩), next)

def call? (t : Tally) : Cursor.Call → Option Tally
  | .bump => some t.bump
  | .takeWhile p => some (t.takeWhile p)
  | .flush => t.flush?
  | .nextToken => t.nextToken?.map Prod.snd

/-- The null character ends nothing: a text that starts with it goes on. -/
theorem takeWhile_eq (p : Char → Bool) (t : Tally) :
    t.takeWhile p = { t with rest := t.rest.dropWhile p } := by
  fun_induction takeWhile p t with
  | case1 t more ih =>
      obtain ⟨start, left, rest⟩ := t
      cases rest with
      | nil => cases more.2
      | cons d rest =>
          have passed : p d = true := more.1
          rw [ih, List.dropWhile_cons_of_pos passed]
          rfl
  | case2 t stop =>
      obtain ⟨start, left, rest⟩ := t
      cases rest with
      | nil => rfl
      | cons d rest =>
          have held : ¬ p d = true := fun passed => stop ⟨passed, rfl⟩
          rw [List.dropWhile_cons_of_neg held]

end Tally

namespace Cursor

/-- The cursor with so many more characters passed. -/
def pass (n : Nat) (c : Cursor) : Cursor := ⟨c.start, c.taken ++ c.rest.take n, c.rest.drop n⟩

/-- The cursor is in the source, behind the characters that it remembers. -/
structure Within (source : List Char) (c : Cursor) : Prop where
  place : ∃ before, source = before ++ c.taken ++ c.rest ∧ c.start = byteLength before

/-- What holds of a cursor of a source wherever it has been brought. -/
structure Kept (source : List Char) (c : Cursor) : Prop where
  sum : c.start + c.position + byteLength c.rest = byteLength source
  /-- The difference of the counters is no less than zero and fits, and it is the bytes passed. -/
  position : c.tally.position? = some c.position
  /-- The current token starts between two characters, and so does what is left. -/
  boundaries : ∃ before, cutBytes? c.start source = some (before, c.taken ++ c.rest) ∧
    cutBytes? (c.start + c.position) source = some (before ++ c.taken, c.rest)
  /-- The characters passed are those before the first that does not satisfy the predicate, or all. -/
  takeWhile : ∀ p, ∃ passed, c.rest = passed ++ (c.takeWhile p).rest ∧
    (c.takeWhile p).taken = c.taken ++ passed ∧ (c.takeWhile p).start = c.start ∧
      (∀ d ∈ passed, p d = true) ∧ ∀ d, (c.takeWhile p).first? = some d → p d = false
  /-- Passing one by one, with the null character for the end, stops at the same place. -/
  oneByOne : ∀ p, c.tally.takeWhile p = (c.takeWhile p).tally
  /-- A token is the one that is ahead, with the characters passed in front, and goes from where the
  last one stopped to the new place. -/
  token : c.rest ≠ [] → c.nextToken.1.kind ≠ .endOfFile ∧
    c.nextToken.1 = ⟨c.flush.nextToken.1.kind, c.start, c.taken ++ c.flush.nextToken.1.text⟩ ∧
      c.nextToken.2 = c.flush.nextToken.2 ∧ c.nextToken.1.span.start = c.start ∧
        c.nextToken.1.span.stop = c.nextToken.2.start ∧ c.nextToken.2.position = 0 ∧
          c.start + c.position < c.nextToken.2.start
  ended : c.rest = [] → c.nextToken.1.kind = .endOfFile ∧ c.nextToken.1.span = ⟨c.start, 0⟩ ∧
    c.nextToken.2 = c
  /-- The counters give the kind and the span too. -/
  counted : c.tally.nextToken? =
    some ((c.nextToken.1.kind, c.nextToken.1.span), c.nextToken.2.tally)

variable {source : List Char} {c : Cursor} {d : Char} {rest : List Char}

theorem bump_eq_pass (c : Cursor) : c.bump.2 = c.pass 1 := by
  obtain ⟨start, taken, rest⟩ := c
  cases rest <;> simp [bump, pass]

theorem takeWhile_eq_pass (p : Char → Bool) (c : Cursor) :
    c.takeWhile p = c.pass (Lexeme.run p c.rest) := by
  have front : c.rest.takeWhile p = c.rest.take (Lexeme.run p c.rest) :=
    List.prefix_iff_eq_take.mp (List.takeWhile_prefix p)
  have parts : c.rest.takeWhile p ++ c.rest.dropWhile p =
      c.rest.takeWhile p ++ c.rest.drop (Lexeme.run p c.rest) := by
    rw [List.takeWhile_append_dropWhile, front, List.take_append_drop]
  have back : c.rest.dropWhile p = c.rest.drop (Lexeme.run p c.rest) :=
    List.append_cancel_left parts
  rw [takeWhile, pass, front, back]

theorem nextToken_of_cons (more : c.rest = d :: rest) : c.nextToken =
    (⟨(Lexeme.of d rest).kind, c.start, (c.pass ((Lexeme.of d rest).more + 1)).taken⟩,
      (c.pass ((Lexeme.of d rest).more + 1)).flush) := by
  simp [nextToken, pass, flush, position, more]

theorem nextToken_of_nil (empty : c.rest = []) :
    c.nextToken = (⟨.endOfFile, c.start, []⟩, c) := by
  unfold nextToken
  split
  · rfl
  · next d rest more => cases empty.symm.trans more

/-- The token ahead is the same where nothing has been passed before it. -/
theorem nextToken_of_flush (some : c.rest ≠ []) : c.nextToken =
    (⟨c.flush.nextToken.1.kind, c.start, c.taken ++ c.flush.nextToken.1.text⟩,
      c.flush.nextToken.2) := by
  obtain ⟨d, rest, more⟩ := List.exists_cons_of_ne_nil some
  have same : c.flush.rest = d :: rest := more
  rw [nextToken_of_cons more, nextToken_of_cons same]
  simp [pass, flush, position, Nat.add_assoc]

theorem start_lt_nextToken (some : c.rest ≠ []) :
    c.start + c.position < c.nextToken.2.start := by
  obtain ⟨d, rest, more⟩ := List.exists_cons_of_ne_nil some
  have one := d.utf8Size_pos
  rw [nextToken_of_cons more]
  simp only [pass, flush, position, more, List.take_succ_cons, byteLength_append, byteLength_cons]
  omega

theorem pass_zero (c : Cursor) : c.pass 0 = c := by simp [pass]

/-- A call passes some characters and may flush them. -/
theorem exists_pass (c : Cursor) (call : Call) :
    ∃ n, c.call call = c.pass n ∨ c.call call = (c.pass n).flush := by
  cases call with
  | bump => exact ⟨1, .inl (bump_eq_pass c)⟩
  | takeWhile p => exact ⟨Lexeme.run p c.rest, .inl (takeWhile_eq_pass p c)⟩
  | flush => exact ⟨0, .inr (by rw [pass_zero, call])⟩
  | nextToken =>
      cases more : c.rest with
      | nil => exact ⟨0, .inl (by rw [pass_zero, call, nextToken_of_nil more])⟩
      | cons d rest => exact ⟨_, .inr (congrArg Prod.snd (nextToken_of_cons more))⟩

theorem within_ofText (source : List Char) : Within source (ofText source) :=
  ⟨[], rfl, rfl⟩

theorem Within.pass (h : Within source c) (n : Nat) : Within source (c.pass n) := by
  obtain ⟨before, whole, start⟩ := h.place
  refine ⟨before, ?_, start⟩
  simp [whole, Cursor.pass]

theorem Within.flush (h : Within source c) : Within source c.flush := by
  obtain ⟨before, whole, start⟩ := h.place
  refine ⟨before ++ c.taken, ?_, ?_⟩
  · simp [whole, Cursor.flush]
  · rw [byteLength_append, ← start]
    rfl

theorem Within.call (h : Within source c) (call : Call) : Within source (c.call call) := by
  obtain ⟨n, same | same⟩ := exists_pass c call
  · rw [same]
    exact h.pass n
  · rw [same]
    exact (h.pass n).flush

theorem Within.extent (h : Within source c) : c.extent = byteLength source := by
  obtain ⟨before, whole, start⟩ := h.place
  rw [Cursor.extent, whole, byteLength_append, byteLength_append, ← start]
  rfl

theorem tally_ofText (source : List Char) : (ofText source).tally = .ofText source := by
  simp [ofText, tally, position, Tally.ofText]

/-- Where characters are passed, the counters stay as they are. -/
theorem tally_pass (n : Nat) (c : Cursor) :
    (c.pass n).tally = { c.tally with rest := c.rest.drop n } := by
  have parts : byteLength c.rest = byteLength (c.rest.take n) + byteLength (c.rest.drop n) := by
    rw [← byteLength_append, List.take_append_drop]
  simp [tally, pass, position, parts, Nat.add_assoc]

theorem tally_takeWhile (p : Char → Bool) (c : Cursor) :
    c.tally.takeWhile p = (c.takeWhile p).tally := by
  have drop : c.rest.drop (Lexeme.run p c.rest) = c.rest.dropWhile p :=
    (congrArg Cursor.rest (takeWhile_eq_pass p c)).symm
  rw [Tally.takeWhile_eq, takeWhile_eq_pass, tally_pass, drop]
  rfl

/-- The subtraction gives the bytes passed, and 32 bits are enough for them. -/
theorem position?_tally (fits : c.extent < 2 ^ 32) : c.tally.position? = some c.position := by
  have small : c.position < 2 ^ 32 := by
    simp only [extent] at fits
    omega
  have enough : byteLength c.rest ≤ c.position + byteLength c.rest := Nat.le_add_left ..
  simp only [Tally.position?, tally, if_pos enough, Nat.add_sub_cancel, Tally.count?, if_pos small]

theorem flush?_tally (fits : c.extent < 2 ^ 32) : c.tally.flush? = some c.flush.tally := by
  rw [Tally.flush?, position?_tally fits]
  simp [tally, flush, position]

theorem extent_pass (n : Nat) (c : Cursor) : (c.pass n).extent = c.extent := by
  have same : (c.pass n).position + byteLength (c.pass n).rest = c.position + byteLength c.rest :=
    congrArg Tally.left (tally_pass n c)
  rw [extent, extent, Nat.add_assoc, same, Nat.add_assoc]
  rfl

theorem nextToken?_tally (fits : c.extent < 2 ^ 32) : c.tally.nextToken? =
    some ((c.nextToken.1.kind, c.nextToken.1.span), c.nextToken.2.tally) := by
  have start : Tally.count? c.tally.start = some c.start := by
    simp only [extent] at fits
    exact if_pos (by simp only [tally]; omega)
  rw [Tally.nextToken?, start]
  cases more : c.rest with
  | nil =>
      rw [nextToken_of_nil more]
      simp [tally, more, Token.span]
  | cons d rest =>
      rw [nextToken_of_cons more]
      have ahead := tally_pass ((Lexeme.of d rest).more + 1) c
      rw [more, List.drop_succ_cons] at ahead
      have own : c.tally.rest = d :: rest := more
      have passed : (c.pass ((Lexeme.of d rest).more + 1)).extent < 2 ^ 32 := by
        rwa [extent_pass]
      simp only [own, ← ahead, position?_tally passed, flush?_tally passed, Option.bind_eq_bind,
        Option.bind_some, Option.pure_def]
      rfl

/-- The counters follow whatever the cursor is told to do. -/
theorem call?_tally (fits : c.extent < 2 ^ 32) (call : Call) :
    c.tally.call? call = some (c.call call).tally := by
  cases call with
  | bump =>
      rw [Tally.call?, call, bump_eq_pass, tally_pass, List.drop_one]
      rfl
  | takeWhile p => exact congrArg some (tally_takeWhile p c)
  | flush => exact flush?_tally fits
  | nextToken =>
      rw [Tally.call?, nextToken?_tally fits]
      rfl

theorem Within.calls (h : Within source c) (calls : List Call) :
    Within source (calls.foldl Cursor.call c) := by
  induction calls generalizing c with
  | nil => exact h
  | cons first later ih => exact ih (h.call first)

theorem extent_call (c : Cursor) (call : Call) : (c.call call).extent = c.extent := by
  cases call with
  | bump => exact extent_bump c
  | takeWhile p => exact extent_takeWhile p c
  | flush => exact extent_flush c
  | nextToken => exact extent_nextToken c

theorem foldlM_call?_tally (fits : c.extent < 2 ^ 32) (calls : List Call) :
    calls.foldlM Tally.call? c.tally = some (calls.foldl call c).tally := by
  induction calls generalizing c with
  | nil => rfl
  | cons first later ih =>
      rw [List.foldlM_cons, call?_tally fits first]
      exact ih (by rwa [extent_call])

theorem Within.kept (h : Within source c) (small : byteLength source < 2 ^ 32) :
    Kept source c := by
  have fits : c.extent < 2 ^ 32 := by rwa [h.extent]
  obtain ⟨before, whole, start⟩ := h.place
  refine ⟨h.extent, position?_tally fits, ⟨before, ?_, ?_⟩, ?_, fun p => tally_takeWhile p c, ?_, ?_,
    nextToken?_tally fits⟩
  · rw [whole, start, List.append_assoc]
    exact cutBytes?_append ..
  · rw [whole, start, position, ← byteLength_append]
    exact cutBytes?_append ..
  · intro p
    refine ⟨c.rest.takeWhile p, List.takeWhile_append_dropWhile.symm, rfl, rfl, ?_, ?_⟩
    · intro d passed
      exact List.mem_takeWhile_imp passed
    · intro d first
      have stop := List.head?_dropWhile_not p c.rest
      rw [show (c.rest.dropWhile p).head? = some d from first] at stop
      simpa using stop
  · intro some
    obtain ⟨d, rest, more⟩ := List.exists_cons_of_ne_nil some
    refine ⟨mt kind_nextToken_iff.mp some, by rw [nextToken_of_flush some],
      by rw [nextToken_of_flush some], ?_, ?_, ?_, start_lt_nextToken some⟩
    all_goals
      rw [nextToken_of_cons more]
      rfl
  · intro empty
    rw [nextToken_of_nil empty]
    exact ⟨rfl, rfl, rfl⟩

/-- Wherever calls bring a cursor of less than four gigabytes of source, it keeps its place. -/
theorem kept_of_calls (small : byteLength source < 2 ^ 32) (calls : List Call) :
    calls.foldlM Tally.call? (.ofText source) = some (calls.foldl call (ofText source)).tally ∧
      Kept source (calls.foldl call (ofText source)) := by
  have start := within_ofText source
  constructor
  · rw [← tally_ofText]
    exact foldlM_call?_tally (by rwa [start.extent]) calls
  · exact (start.calls calls).kept small

/-- Characters passed and not flushed, a null character among them, in front of a comment. -/
def behindNull : List Call := [.nextToken, .bump, .takeWhile (· != ';')]

theorem kept_behindNull :
    byteLength "\n\x00é;\n7".toList < 2 ^ 32 ∧
      (behindNull.foldlM Tally.call? (.ofText "\n\x00é;\n7".toList) =
        some (behindNull.foldl call (ofText "\n\x00é;\n7".toList)).tally ∧
          Kept "\n\x00é;\n7".toList (behindNull.foldl call (ofText "\n\x00é;\n7".toList))) ∧
        behindNull.foldl call (ofText "\n\x00é;\n7".toList) =
          ⟨1, "\x00é".toList, ";\n7".toList⟩ ∧
          (behindNull.foldl call (ofText "\n\x00é;\n7".toList)).nextToken.1.span = ⟨1, 4⟩ :=
  ⟨by decide, kept_of_calls (by decide) behindNull, rfl, rfl⟩

end Cursor
end LC3
