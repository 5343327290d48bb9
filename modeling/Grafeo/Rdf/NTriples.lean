import Grafeo.Rdf.Store
import Mathlib

/-!
# Grafeo.Rdf.NTriples

**Terms and documents as N-Triples** (`types/rdf.rs`, `graph/rdf/store.rs`), over texts as lists of
characters. A term is read back from its text. A large document is cut into runs of whole lines that
are parsed on their own, which gives what its lines give in order.
-/

namespace Grafeo.Rdf

open List Nat

def utf8Length (text : List Char) : Nat := (text.map Char.utf8Size).sum

/-! ### Terms -/

def xsdString : String := "http://www.w3.org/2001/XMLSchema#string"

def rdfLangString : String := "http://www.w3.org/1999/02/22-rdf-syntax-ns#langString"

def lowercaseTag (tag : String) : String := String.ofList (tag.toList.map Char.toLower)

def Term.simple (value : String) : Term := .literal value xsdString none

def Term.withLanguage (value language : String) : Term :=
  .literal value rdfLangString (some (lowercaseTag language))

/-- The calls that make a term. -/
inductive TermCall where
  | iri (value : String)
  | blank (id : String)
  | literal (value : String)
  | typedLiteral (value datatype : String)
  | langLiteral (value language : String)

def TermCall.term : TermCall → Term
  | iri value => .iri value
  | blank id => .blankNode id
  | literal value => .simple value
  | typedLiteral value datatype => .literal value datatype none
  | langLiteral value language => .withLanguage value language

/-- What a literal's value is written with for a character. -/
def escape : Char → List Char
  | '\x22' => ['\\', '\x22']
  | '\\' => ['\\', '\\']
  | '\n' => ['\\', 'n']
  | '\r' => ['\\', 'r']
  | '\t' => ['\\', 't']
  | c => [c]

def Term.toNtriples : Term → List Char
  | .iri value => '<' :: value.toList ++ ['>']
  | .blankNode id => '_' :: ':' :: id.toList
  | .literal value datatype language =>
      '\x22' :: value.toList.flatMap escape ++ '\x22' ::
        match language with
        | some language => '@' :: language.toList
        | none =>
            if datatype ≠ xsdString then '^' :: '^' :: '<' :: datatype.toList ++ ['>'] else []

/-- Why a text is not a term, with the byte it applies to. -/
inductive TermParseReason where
  | empty
  | unclosedIri
  | unclosedLiteral
  | unfinishedEscape (offset : Nat)
  | unknownEscape (escape : Char) (offset : Nat)
  | fewDigits (digits offset : Nat)
  | notScalar (code offset : Nat)
  | afterLiteral (offset : Nat)
  | noTerm

structure TermParseError where
  reason : TermParseReason
  excerpt : List Char

def TermParseError.new (text : List Char) (reason : TermParseReason) : TermParseError :=
  ⟨reason, text.take 64 ++ if 64 < text.length then ['.', '.', '.'] else []⟩

def hexDigit (c : Char) : Option Nat :=
  if c.isDigit then some (c.toNat - 48)
  else if 'a' ≤ c.toLower ∧ c.toLower ≤ 'f' then some (c.toLower.toNat - 87)
  else none

/-- The character the first `digits` characters of a text spell. -/
def readUnicodeEscape (text : List Char) (digits offset : Nat) : Except TermParseReason Char :=
  match (text.take digits).mapM hexDigit with
  | none => .error (.fewDigits digits offset)
  | some values =>
      if values.length < digits then .error (.fewDigits digits offset)
      else
        let code := values.foldl (fun code digit => code * 16 + digit) 0
        if code.isValidChar then .ok (Char.ofNat code) else .error (.notScalar code offset)

/-- The character an escape stands for, and how many characters it has. -/
def readEscape (offset : Nat) : List Char → Except TermParseReason (Char × Nat)
  | [] => .error (.unfinishedEscape offset)
  | 't' :: _ => .ok ('\t', 1)
  | 'b' :: _ => .ok ('\x08', 1)
  | 'n' :: _ => .ok ('\n', 1)
  | 'r' :: _ => .ok ('\r', 1)
  | 'f' :: _ => .ok ('\x0c', 1)
  | '\x22' :: _ => .ok ('\x22', 1)
  | '\x27' :: _ => .ok ('\x27', 1)
  | '\\' :: _ => .ok ('\\', 1)
  | 'u' :: text => (readUnicodeEscape text 4 offset).map (·, 5)
  | 'U' :: text => (readUnicodeEscape text 8 offset).map (·, 9)
  | other :: _ => .error (.unknownEscape other offset)

/-- The value of a literal that goes on at byte `offset`, and the text after its closing quote. -/
def readLiteralValue (offset : Nat) : List Char → Except TermParseReason (List Char × List Char)
  | [] => .error .unclosedLiteral
  | '\x22' :: text => .ok ([], text)
  | c :: text => do
      let (decoded, used) ← if c = '\\' then readEscape offset text else .ok (c, 0)
      let (value, rest) ←
        readLiteralValue (offset + utf8Length (c :: text.take used)) (text.drop used)
      return (decoded :: value, rest)
termination_by text => text.length
decreasing_by rw [length_drop, length_cons]; omega

/-- The text in front of a last `>`. -/
def stripClose (text : List Char) : Option (List Char) :=
  if text.getLast? = some '>' then some text.dropLast else none

def Term.fromNtriples (text : List Char) : Except TermParseError Term :=
  match text with
  | [] => .error (.new text .empty)
  | '<' :: rest =>
      match stripClose rest with
      | some inner => .ok (.iri (String.ofList inner))
      | none => .error (.new text .unclosedIri)
  | '_' :: ':' :: id => .ok (.blankNode (String.ofList id))
  | '\x22' :: rest =>
      match readLiteralValue 1 rest with
      | .error reason => .error (.new text reason)
      | .ok (value, []) => .ok (.simple (String.ofList value))
      | .ok (value, '@' :: language) =>
          .ok (.withLanguage (String.ofList value) (String.ofList language))
      | .ok (value, after) =>
          let datatype := match after with
            | '^' :: '^' :: '<' :: datatype => stripClose datatype
            | _ => none
          match datatype with
          | some datatype => .ok (.literal (String.ofList value) (String.ofList datatype) none)
          | none => .error (.new text (.afterLiteral (utf8Length text - utf8Length after)))
  | _ => .error (.new text .noTerm)

theorem stripClose_append (text : List Char) : stripClose (text ++ ['>']) = some text := by
  simp [stripClose]

/-- The value of a literal is read back from its text, whatever comes after it. -/
theorem readLiteralValue_escape (offset : Nat) (value rest : List Char) :
    readLiteralValue offset (value.flatMap escape ++ '\x22' :: rest) = .ok (value, rest) := by
  induction value generalizing offset with
  | nil => rw [flatMap_nil, nil_append, readLiteralValue]
  | cons c value ih =>
    rw [flatMap_cons, append_assoc]
    generalize value.flatMap escape ++ '\x22' :: rest = tail at ih
    unfold escape
    split <;> simp_all [readLiteralValue, readEscape, bind, Except.bind, pure, Except.pure]

/-- **A term is read back** from its text, so its text is no other term's. -/
theorem fromNtriples_toNtriples (call : TermCall) :
    Term.fromNtriples call.term.toNtriples = .ok call.term ∧
      ∀ other : TermCall, other.term.toNtriples = call.term.toNtriples ↔
        other.term = call.term := by
  have hread : ∀ call : TermCall, Term.fromNtriples call.term.toNtriples = .ok call.term := by
    intro call
    cases call <;>
      simp only [TermCall.term, Term.simple, Term.withLanguage, Term.toNtriples, cons_append,
        Term.fromNtriples, stripClose_append, readLiteralValue_escape]
    case typedLiteral value datatype =>
      by_cases h : datatype = xsdString <;> simp [h, stripClose_append]
    all_goals simp [lowercaseTag, Function.comp_def]
  refine ⟨hread call, fun other => ⟨fun htext => ?_, fun hterm => by rw [hterm]⟩⟩
  have heq := (hread other).symm.trans ((congrArg Term.fromNtriples htext).trans (hread call))
  exact Except.ok.inj heq

/-! ### Documents -/

/-- The lines of a text, without the ends of the lines. -/
def lines : List Char → List (List Char)
  | [] => []
  | '\r' :: '\n' :: text | '\n' :: text => [] :: lines text
  | c :: text =>
      match lines text with
      | [] => [[c]]
      | line :: rest => (c :: line) :: rest

/-- A text up to its first line end at or after byte `size`, and what follows. No byte of a longer
character is a line end. -/
def cutAfter (size : Nat) : List Char → List Char × List Char
  | [] => ([], [])
  | c :: text =>
      if size = 0 ∧ c = '\n' then ([c], text)
      else
        let (run, after) := cutAfter (size - c.utf8Size) text
        (c :: run, after)

/-- The runs of whole lines of a text of at most `fuel` characters. -/
def runsOfLines (size : Nat) : Nat → List Char → List (List Char)
  | _, [] | 0, _ => []
  | fuel + 1, c :: text =>
      let rest := c :: text
      let (run, after) := if utf8Length rest ≤ size then (rest, []) else cutAfter size rest
      run :: runsOfLines size fuel after

structure NTriplesError where
  line : Nat
  content : List Char

section

variable {T : Type} (trim : List Char → List Char) (parseLine : List Char → Except (List Char) T)

/-- The triples of lines, of which `before` come before them. -/
def parseFrom (before : Nat) : List (List Char) → Except NTriplesError (List T)
  | [] => .ok []
  | line :: lines =>
      if trim line = [] ∨ (trim line).head? = some '#' then parseFrom (before + 1) lines
      else
        match parseLine (trim line) with
        | .error reason => .error ⟨before + 1, reason ++ [':', ' '] ++ line⟩
        | .ok triple => (parseFrom (before + 1) lines).map (triple :: ·)

def parseLines (text : List Char) : Except NTriplesError (List T) :=
  parseFrom trim parseLine 0 (lines text)

/-- Joins what the runs give, of which `before` lines come before. -/
def joinRuns (before : Nat) : List (List Char) → Except NTriplesError (List T)
  | [] => .ok []
  | run :: runs =>
      match parseLines trim parseLine run with
      | .error error => .error { error with line := before + error.line }
      | .ok triples => (joinRuns (before + (lines run).length) runs).map (triples ++ ·)

/-- The triples of a document, parsed in `threads * 4` runs if it is large. -/
def parseNtriplesText (threads : Nat) (text : List Char) : Except NTriplesError (List T) :=
  if 2 ^ 20 ≤ utf8Length text then
    let size := (utf8Length text + max (threads * 4) 1 - 1) / max (threads * 4) 1
    joinRuns trim parseLine 0 (runsOfLines size text.length text)
  else parseLines trim parseLine text

/-- The lines up to a line end and those after it. -/
theorem lines_append (run : List Char) :
    ∃ first more, ∀ rest, lines (run ++ '\n' :: rest) = first :: (more ++ lines rest) := by
  induction run with
  | nil => exact ⟨[], [], fun rest => by simp [lines]⟩
  | cons c run ih =>
    obtain ⟨first, more, h⟩ := ih
    by_cases hlf : c = '\n'
    · exact ⟨[], first :: more, fun rest => by simp [hlf, lines, h]⟩
    by_cases hcr : c = '\r' ∧ (run ++ ['\n']).head? = some '\n'
    · refine ⟨first, more, fun rest => ?_⟩
      rw [← h, hcr.1]
      cases run <;> simp_all [lines]
    · refine ⟨c :: first, more, fun rest => ?_⟩
      rw [cons_append, lines, h]
      · intro text hc hrun
        cases run <;> simp_all
      · exact hlf

theorem cutAfter_spec (size : Nat) (text : List Char) :
    (cutAfter size text).1 ++ (cutAfter size text).2 = text ∧
      ((cutAfter size text).2 = [] ∨ ∃ line, (cutAfter size text).1 = line ++ ['\n']) ∧
      (cutAfter size text).2.length ≤ text.length - 1 := by
  induction text generalizing size with
  | nil => simp [cutAfter]
  | cons c text ih =>
    rw [cutAfter]
    split
    next h => exact ⟨rfl, .inr ⟨[], by simp [h.2]⟩, le_refl _⟩
    · obtain ⟨happend, hend, hlength⟩ := ih (size - c.utf8Size)
      refine ⟨by simp [happend], hend.imp_right fun ⟨line, h⟩ => ⟨c :: line, by simp [h]⟩, ?_⟩
      simp only [length_cons]
      omega

theorem lines_runsOfLines (size : Nat) {fuel : Nat} (text : List Char) (h : text.length ≤ fuel) :
    (runsOfLines size fuel text).flatMap lines = lines text := by
  induction fuel generalizing text with
  | zero => rw [eq_nil_of_length_eq_zero (le_zero.mp h), runsOfLines, lines, flatMap_nil]
  | succ fuel ih =>
    cases text with
    | nil => rfl
    | cons c text =>
      rw [runsOfLines, flatMap_cons]
      split
      · simp [runsOfLines]
      obtain ⟨happend, hend, hlength⟩ := cutAfter_spec size (c :: text)
      rw [ih _ (by simp only [length_cons] at h hlength; omega)]
      conv => rhs; rw [← happend]
      obtain hnil | ⟨line, hline⟩ := hend
      · simp [hnil, lines]
      · obtain ⟨first, more, hlines⟩ := lines_append line
        rw [hline, append_assoc, singleton_append, hlines, hlines, lines, append_nil, cons_append]

theorem parseFrom_append (before n : Nat) (first rest : List (List Char)) :
    parseFrom trim parseLine (before + n) (first ++ rest) =
      match parseFrom trim parseLine n first with
      | .error error => .error { error with line := before + error.line }
      | .ok triples =>
          (parseFrom trim parseLine (before + n + first.length) rest).map (triples ++ ·) := by
  induction first generalizing n with
  | nil => cases h : parseFrom trim parseLine (before + n) rest <;> simp [parseFrom, Except.map, h]
  | cons line first ih =>
    have hrest := ih (n + 1)
    rw [← add_assoc, add_right_comm _ 1] at hrest
    simp only [cons_append, parseFrom, hrest, length_cons]
    split
    · rfl
    cases parseLine (trim line) with
    | error reason => rfl
    | ok triple =>
      cases parseFrom trim parseLine (n + 1) first with
      | error error => rfl
      | ok triples =>
        cases h : parseFrom trim parseLine (before + n + (first.length + 1)) rest <;>
          simp [Except.map]

theorem joinRuns_eq (before : Nat) (runs : List (List Char)) :
    joinRuns trim parseLine before runs = parseFrom trim parseLine before (runs.flatMap lines) := by
  induction runs generalizing before with
  | nil => rfl
  | cons run runs ih =>
    rw [joinRuns, flatMap_cons, ih]
    exact (parseFrom_append trim parseLine before 0 (lines run) _).symm

/-- **Parsing in runs** gives what parsing line by line gives. -/
theorem parseNtriplesText_eq (threads : Nat) (text : List Char) :
    parseNtriplesText trim parseLine threads text = parseLines trim parseLine text := by
  rw [parseNtriplesText]
  split
  · rw [joinRuns_eq, lines_runsOfLines _ _ (le_refl _)]
    rfl
  · rfl

end

end Grafeo.Rdf
