import LC3.Proofs.Assembly.Reading

/-!
Addresses and labels after the first pass. Statements lie one behind the other from the origin on,
in the order of their lines, and a label has the address behind the statements of the lines before
its own. Main statement: `laid_of_ofText`.
-/

namespace LC3
namespace Statement

/-- The number of words that some statements take together. -/
def total (statements : List Statement) : Nat := (statements.map size).sum

/-- The number of words of the statements in the lines before a number. -/
def totalBefore (number : Nat) (statements : List Statement) : Nat :=
  total (statements.filter fun s => s.line < number)

/-- The first statement lies at `start` and each other one behind the one before it. -/
def Consecutive (start : Nat) : List Statement → Prop
  | [] => True
  | s :: rest => s.address.toNat = start ∧ Consecutive (start + s.size) rest

variable {s : Statement} {statements before after : List Statement} {start number : Nat}

@[simp] theorem total_nil : total [] = 0 := rfl

@[simp] theorem total_cons (s : Statement) (rest : List Statement) :
    total (s :: rest) = s.size + total rest := by
  simp only [total, List.map_cons, List.sum_cons]

@[simp] theorem total_append (before after : List Statement) :
    total (before ++ after) = total before + total after := by
  simp only [total, List.map_append, List.sum_append]

theorem consecutive_append :
    Consecutive start (before ++ after) ↔
      Consecutive start before ∧ Consecutive (start + total before) after := by
  induction before generalizing start with
  | nil => simp [Consecutive]
  | cons s rest ih =>
      simp only [List.cons_append, Consecutive, ih, total_cons, and_assoc, Nat.add_assoc]

theorem totalBefore_of_forall_lt (earlier : ∀ s ∈ statements, s.line < number) :
    totalBefore number statements = total statements := by
  rw [totalBefore, List.filter_eq_self.mpr fun s member => decide_eq_true (earlier s member)]

theorem totalBefore_append_of_le (later : number ≤ s.line) :
    totalBefore number (statements ++ [s]) = totalBefore number statements := by
  have other : decide (s.line < number) = false := decide_eq_false (Nat.not_lt.mpr later)
  simp only [totalBefore, List.filter_append, List.filter_cons, other, List.filter_nil,
    List.append_nil, Bool.false_eq_true, if_false]

end Statement

namespace Line

def clause? (line : Line) : Option Clause := (Clause.ofTokens line.tokens).toOption

def hasStatement (line : Line) : Bool := line.clause?.any Clause.isStatement

/-- The label that a line defines, with the number of the line. -/
def definition? (line : Line) : Option (Nat × Label) :=
  line.clause?.bind fun clause => clause.label?.map fun t => (line.number, t.text)

def isEnd (line : Line) : Bool := line.clause?.any Clause.isEnd

/-- The lines that count: those up to the first END. -/
def live : List Line → List Line
  | [] => []
  | line :: rest => if line.isEnd then [line] else line :: live rest

/-- The statement comes of the line. -/
def Makes (line : Line) (s : Statement) : Prop :=
  ∃ clause head, Clause.ofTokens line.tokens = .ok clause ∧ clause.Makes head s.content ∧
    s.line = line.number ∧ s.span = head.span

def Ordered (lines : List Line) : Prop := lines.Pairwise fun l m => l.number < m.number

theorem clause?_of_ofTokens {line : Line} {clause : Clause}
    (h : Clause.ofTokens line.tokens = .ok clause) : line.clause? = some clause := by
  rw [clause?, h]
  rfl

theorem fst_of_definition? {line : Line} {d : Nat × Label} (h : line.definition? = some d) :
    d.1 = line.number := by
  obtain ⟨clause, -, named⟩ := Option.bind_eq_some_iff.mp h
  obtain ⟨t, -, rfl⟩ := Option.map_eq_some_iff.mp named
  rfl

theorem filter_hasStatement_concat {line : Line} {clause : Clause}
    (h : Clause.ofTokens line.tokens = .ok clause) (done : List Line) :
    (done ++ [line]).filter hasStatement =
      done.filter hasStatement ++ if clause.isStatement then [line] else [] := by
  simp only [List.filter_append, List.filter_cons, List.filter_nil, hasStatement,
    clause?_of_ofTokens h, Option.any_some]

theorem filterMap_definition?_concat {line : Line} {clause : Clause}
    (h : Clause.ofTokens line.tokens = .ok clause) (done : List Line) :
    (done ++ [line]).filterMap definition? = done.filterMap definition? ++
      (clause.label?.map fun t => (line.number, t.text)).toList := by
  rw [List.filterMap_append]
  simp only [List.filterMap_cons, List.filterMap_nil, definition?, clause?_of_ofTokens h,
    Option.bind_some]
  cases clause.label? <;> rfl

theorem line_lt_of_makes {lines : List Line} {statements : List Statement} {number : Nat}
    (h : List.Forall₂ Makes lines statements) (earlier : ∀ line ∈ lines, line.number < number) :
    ∀ s ∈ statements, s.line < number := by
  induction h with
  | nil => exact fun s member => absurd member List.not_mem_nil
  | cons makes _ ih =>
      obtain ⟨first, others⟩ := List.forall_mem_cons.mp earlier
      obtain ⟨clause, head, -, -, same, -⟩ := makes
      exact List.forall_mem_cons.mpr ⟨same ▸ first, ih others⟩

theorem ordered_ofText (source : List Char) : Ordered (ofText source) := by
  simp only [Ordered, ofText, ofTokens, List.pairwise_map]
  rw [List.pairwise_iff_getElem]
  intro i j hi hj less
  simp only [List.getElem_zipIdx]
  omega

end Line

/-- What a draft owes to the lines of its statements and to the labels defined so far. -/
structure Draft.Laid (d : Draft) (lines : List Line) (labels : List (Nat × Label)) : Prop where
  counter : d.counter = d.origin.toNat + Statement.total d.statements.toList
  fits : d.counter ≤ 0x10000
  consecutive : Statement.Consecutive d.origin.toNat d.statements.toList
  made : List.Forall₂ Line.Makes lines d.statements.toList
  symbols : d.symbols.entries.map (fun e => (e.1, e.2.toNat)) = labels.map fun (number, label) =>
    (label, d.origin.toNat + Statement.totalBefore number d.statements.toList)

namespace Draft

variable {d d' : Draft} {lines done : List Line} {labels : List (Nat × Label)}

theorem laid_start (origin : Word) : (start origin).Laid [] [] where
  counter := by simp [start]
  fits := Nat.le_of_lt origin.isLt
  consecutive := trivial
  made := .nil
  symbols := rfl

theorem Laid.define {label : Token} {number : Nat} (h : d.Laid lines labels)
    (defined : d.define label = .ok d') (earlier : ∀ line ∈ lines, line.number < number) :
    d'.Laid lines (labels ++ [(number, label.text)]) := by
  obtain ⟨inside, symbols, inserted, rfl⟩ := define_eq_ok_iff.mp defined
  refine ⟨h.counter, h.fits, h.consecutive, h.made, ?_⟩
  have before := Statement.totalBefore_of_forall_lt (Line.line_lt_of_makes h.made earlier)
  have address : (BitVec.ofNat 16 d.counter).toNat =
      d.origin.toNat + Statement.total d.statements.toList := by
    rw [BitVec.toNat_ofNat, ← h.counter]
    exact Nat.mod_eq_of_lt (Nat.lt_succ_of_le inside)
  simp only [SymbolTable.entries_insert inserted, List.map_append, List.map_cons, List.map_nil,
    h.symbols, address, before]

theorem Laid.defineSome {label : Option Token} {number : Nat} (h : d.Laid lines labels)
    (defined : d.defineSome label = .ok d') (earlier : ∀ line ∈ lines, line.number < number) :
    d'.Laid lines (labels ++ (label.map fun t => (number, t.text)).toList) := by
  cases label with
  | none =>
      cases defined
      simpa using h
  | some t => exact h.define defined earlier

theorem Laid.push {line : Line} {head : Token} {content : Content} (h : d.Laid lines labels)
    (pushed : d.push line.number head content = .ok d') {clause : Clause}
    (parsed : Clause.ofTokens line.tokens = .ok clause) (makes : clause.Makes head content)
    (defined : ∀ label ∈ labels, label.1 ≤ line.number) :
    d'.Laid (lines ++ [line]) labels := by
  obtain ⟨inside, fits, rfl⟩ := push_eq_ok_iff.mp pushed
  refine ⟨?_, fits, ?_, ?_, ?_⟩
  · simp only [Array.toList_push, Statement.total_append, Statement.total_cons,
      Statement.total_nil, h.counter, Nat.add_assoc, Statement.size, Nat.add_zero]
  · simp only [Array.toList_push]
    refine Statement.consecutive_append.mpr ⟨h.consecutive, ?_, trivial⟩
    rw [BitVec.toNat_ofNat, ← h.counter]
    exact Nat.mod_eq_of_lt (Nat.lt_succ_of_le inside)
  · simp only [Array.toList_push]
    exact List.rel_append h.made (.cons ⟨clause, head, parsed, makes, rfl, rfl⟩ .nil)
  · simp only [Array.toList_push, h.symbols]
    refine List.map_congr_left fun label member => ?_
    rw [Statement.totalBefore_append_of_le]
    exact defined label member

end Draft

namespace Progress

variable {p p' : Progress} {line : Line} {done rest : List Line}

/-- What a reading owes to the lines that it has passed. -/
def Laid (p : Progress) (lines : List Line) : Prop :=
  match p with
  | .beforeOrigin => lines.filter Line.hasStatement = [] ∧ lines.filterMap Line.definition? = []
  | .within d => d.Laid (lines.filter Line.hasStatement) (lines.filterMap Line.definition?)
  | .ended d => d.Laid (lines.filter Line.hasStatement) (lines.filterMap Line.definition?)

theorem reads_of_readLine (live : ∀ d, p ≠ .ended d) (h : p.readLine line = .ok p') :
    ∃ clause, Clause.ofTokens line.tokens = .ok clause ∧ p.Reads line.number clause p' := by
  have read : (Clause.ofTokens line.tokens).bind (p.readClause line.number) = .ok p' := by
    cases p with
    | beforeOrigin => exact Stage.mapError_eq_ok.mp h
    | within d => exact Stage.mapError_eq_ok.mp h
    | ended d => exact absurd rfl (live d)
  obtain ⟨clause, parsed, read⟩ := Stage.bind_eq_ok.mp read
  exact ⟨clause, parsed, reads_of_readClause live read⟩

/-- One more line is laid behind those before it, and the program ends with it or goes on. -/
theorem Laid.step (h : p.Laid done) (live : ∀ d, p ≠ .ended d)
    (earlier : ∀ l ∈ done, l.number < line.number) (read : p.readLine line = .ok p') :
    p'.Laid (done ++ [line]) ∧ ((∃ d, p' = .ended d) ↔ line.isEnd = true) := by
  obtain ⟨clause, parsed, reads⟩ := reads_of_readLine live read
  have statements := Line.filter_hasStatement_concat parsed done
  have labels := Line.filterMap_definition?_concat parsed done
  have ends : line.isEnd = clause.isEnd := by
    rw [Line.isEnd, Line.clause?_of_ofTokens parsed, Option.any_some]
  have lines : ∀ l ∈ done.filter Line.hasStatement, l.number < line.number :=
    fun l member => earlier l (List.mem_of_mem_filter member)
  cases reads with
  | blank =>
      have same : p.Laid (done ++ [line]) := by
        cases p <;> simpa [Laid, statements, labels, Clause.isStatement, Clause.label?] using h
      exact ⟨same, by simp [ends, Clause.isEnd, live]⟩
  | label defined =>
      refine ⟨?_, by simp [ends, Clause.isEnd]⟩
      rw [Laid, statements, labels]
      simpa [Clause.isStatement, Clause.label?] using Draft.Laid.defineSome h defined lines
  | origin only origin defined =>
      refine ⟨?_, by simp [ends, Clause.isEnd]⟩
      rw [Laid, statements, labels, h.1, h.2]
      exact (Draft.laid_start _).defineSome defined fun l member => absurd member List.not_mem_nil
  | stop defined =>
      refine ⟨?_, by simp [ends, Clause.isEnd]⟩
      rw [Laid, statements, labels]
      simpa [Clause.isStatement, Clause.label?] using Draft.Laid.defineSome h defined lines
  | statement makes placed =>
      refine ⟨?_, by simp [ends, makes.isEnd]⟩
      obtain ⟨mid, defined, pushed⟩ := Stage.bind_eq_ok.mp placed
      rw [Laid, statements, labels, makes.isStatement]
      refine Draft.Laid.push (Draft.Laid.defineSome h defined lines) pushed parsed makes ?_
      intro label member
      rw [← labels] at member
      obtain ⟨l, source, named⟩ := List.mem_filterMap.mp member
      rw [Line.fst_of_definition? named]
      rcases List.mem_append.mp source with before | own
      · exact Nat.le_of_lt (earlier l before)
      · exact Nat.le_of_eq (congrArg Line.number (List.mem_singleton.mp own))

theorem foldlM_readLine_ended (d : Draft) (rest : List Line) :
    rest.foldlM readLine (.ended d) = .ok (.ended d) := by
  induction rest with
  | nil => rfl
  | cons line rest ih => exact ih

/-- The lines that are read are laid behind those before them; after END they are passed over. -/
theorem Laid.run (h : p.Laid done) (live : ∀ d, p ≠ .ended d)
    (ordered : Line.Ordered (done ++ rest)) (read : rest.foldlM readLine p = .ok p') :
    p'.Laid (done ++ Line.live rest) := by
  induction rest generalizing p done with
  | nil =>
      cases read
      simpa [Line.live] using h
  | cons line rest ih =>
      obtain ⟨mid, first, read⟩ := Stage.bind_eq_ok.mp ((List.foldlM_cons ..).symm.trans read)
      have earlier : ∀ l ∈ done, l.number < line.number := fun l member =>
        (List.pairwise_append.mp ordered).2.2 l member line List.mem_cons_self
      obtain ⟨laid, ends⟩ := h.step live earlier first
      rw [Line.live]
      split
      · next stop =>
        obtain ⟨d, rfl⟩ := ends.mpr stop
        rw [foldlM_readLine_ended] at read
        cases read
        exact laid
      · next more =>
        rw [List.append_cons] at ordered ⊢
        exact ih laid (fun d ended => more (ends.mp ⟨d, ended⟩)) ordered read

end Progress

/-- What a listing owes to the lines of its source. -/
structure Listing.Laid (l : Listing) (lines : List Line) : Prop where
  fits : l.origin.toNat + Statement.total l.statements ≤ 0x10000
  consecutive : Statement.Consecutive l.origin.toNat l.statements
  made : List.Forall₂ Line.Makes (lines.filter Line.hasStatement) l.statements
  symbols : l.symbols.entries.map (fun e => (e.1, e.2.toNat)) =
    (lines.filterMap Line.definition?).map fun (number, label) =>
      (label, l.origin.toNat + Statement.totalBefore number l.statements)

/-- A text that can be listed is laid by its lines up to the first END. -/
theorem Listing.laid_of_ofText {source : List Char} {l : Listing} (h : ofText source = .ok l) :
    l.Laid (Line.live (Line.ofText source)) := by
  obtain ⟨p, read, h⟩ := Stage.bind_eq_ok.mp h
  have start : Progress.beforeOrigin.Laid [] := ⟨rfl, rfl⟩
  have laid := start.run (fun d => nofun) (Line.ordered_ofText source) read
  have listed (d : Draft) (laid : d.Laid _ _) : d.listing.Laid (Line.live (Line.ofText source)) :=
    ⟨laid.counter ▸ laid.fits, laid.consecutive, laid.made, laid.symbols⟩
  cases p with
  | beforeOrigin => cases h
  | within d =>
      cases h
      exact listed d laid
  | ended d =>
      cases h
      exact listed d laid

end LC3
