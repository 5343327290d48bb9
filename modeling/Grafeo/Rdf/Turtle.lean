import Grafeo.Rdf.Store
import Mathlib

/-!
# Grafeo.Rdf.Turtle

**The blank nodes of a Turtle document** (`graph/rdf/turtle/parser.rs`). A parser puts its own
number in front of every blank node it makes: of a label the document gives, or of a counter where
the node has none. The label `_g1` makes the node the counter makes first.
-/

namespace Grafeo.Rdf

open List Nat Option

structure TurtleParser where
  importPrefix : List Char
  blankCounter : Nat := 0

/-- A place where a document has a blank node: `_:` and the text after it, or a node without a
label (`[]`, a property list or a cell of a list). -/
inductive BlankRead where
  | labelled (text : List Char)
  | anonymous

namespace TurtleParser

/-- The parser with number `counter` of the process. -/
def new (counter : Nat) : TurtleParser :=
  { importPrefix := ['i', 'm', 'p'] ++ Nat.toDigits 10 counter ++ ['_'] }

/-- The label a text starts with: without the dots at its end. -/
def label (text : List Char) : List Char :=
  (text.takeWhile fun c => c.isAlphanum || c = '_' || c = '-' || c = '.').rdropWhile (· = '.')

/-- The blank node of a place; none for an empty label, which is an error. -/
def readBlank (p : TurtleParser) : BlankRead → Option (List Char × TurtleParser)
  | .labelled text =>
      if label text = [] then none else some (p.importPrefix ++ label text, p)
  | .anonymous =>
      let counter := p.blankCounter + 1
      some (p.importPrefix ++ ['_', 'g'] ++ Nat.toDigits 10 counter,
        { p with blankCounter := counter })

/-- The blank nodes of the places of a document, in order. -/
def readBlanks (p : TurtleParser) : List BlankRead → Option (List (List Char))
  | [] => some []
  | read :: reads => do
      let (node, p) ← p.readBlank read
      let nodes ← p.readBlanks reads
      return node :: nodes

/-- Whether two places mean the same node. -/
def Same : BlankRead → BlankRead → Prop
  | .labelled text, .labelled text' => label text = label text'
  | _, _ => False

/-- The nodes of two places are equal exactly when the document means the same node. -/
def Right (reads : List BlankRead) (nodes : List (List Char)) : Prop :=
  (reads.zip nodes).Pairwise fun a b => a.2 = b.2 ↔ Same a.1 b.1

/-- The blank node of the `n`th place without a label. -/
def generated (p : TurtleParser) (n : Nat) : List Char :=
  p.importPrefix ++ ['_', 'g'] ++ Nat.toDigits 10 n

theorem toDigits_inj {m n : Nat} (h : toDigits 10 m = toDigits 10 n) : m = n := by
  have := congrArg (ofDigitChars 10 · 0) h
  simpa [ofDigitChars_ten_toDigits] using this

variable {p : TurtleParser} {reads : List BlankRead} {nodes : List (List Char)}

theorem readBlanks_cons {read : BlankRead} (h : p.readBlanks (read :: reads) = some nodes) :
    ∃ node p' rest, p.readBlank read = some (node, p') ∧ p'.readBlanks reads = some rest ∧
      nodes = node :: rest := by
  simp only [readBlanks, bind_eq_bind, bind_eq_some_iff] at h
  obtain ⟨⟨node, p'⟩, hread, rest, hrest, heq⟩ := h
  exact ⟨node, p', rest, hread, hrest, (some.inj heq).symm⟩

/-- **The nodes a parser makes**: of the labels, and of its next counters. -/
theorem mem_zip_iff (h : p.readBlanks reads = some nodes) {read : BlankRead} {node : List Char} :
    (read, node) ∈ reads.zip nodes ↔
      (∃ text, read = .labelled text ∧ read ∈ reads ∧ node = p.importPrefix ++ label text) ∨
        read = .anonymous ∧ ∃ n, p.blankCounter < n ∧
          n ≤ p.blankCounter + reads.countP (· matches .anonymous) ∧ node = p.generated n := by
  induction reads generalizing p nodes with
  | nil =>
    simp only [zip_nil_left, not_mem_nil, countP_nil, false_iff]
    grind
  | cons first reads ih =>
    obtain ⟨made, p', rest, hread, hrest, rfl⟩ := readBlanks_cons h
    rw [zip_cons_cons, mem_cons, Prod.mk.injEq, ih hrest, countP_cons]
    cases first with
    | labelled text =>
      simp only [readBlank] at hread
      split at hread <;> cases hread
      grind
    | anonymous =>
      cases hread
      simp only [generated, mem_cons]
      constructor
      · rintro (⟨rfl, rfl⟩ | ⟨text, rfl, hmem, hnode⟩ | ⟨rfl, n, hlt, hle, hnode⟩)
        · exact .inr ⟨rfl, _, by omega, by simp, rfl⟩
        · exact .inl ⟨text, rfl, .inr hmem, hnode⟩
        · exact .inr ⟨rfl, n, by omega, by simp; omega, hnode⟩
      rintro (⟨text, rfl, hmem | hmem, hnode⟩ | ⟨rfl, n, hlt, hle, hnode⟩)
      · cases hmem
      · exact .inr (.inl ⟨text, rfl, hmem, hnode⟩)
      · by_cases hn : n = p.blankCounter + 1
        · exact .inl ⟨rfl, hn ▸ hnode⟩
        · exact .inr (.inr ⟨rfl, n, by omega, by simp at hle; omega, hnode⟩)

theorem right_iff (h : p.readBlanks reads = some nodes) :
    Right reads nodes ↔ ∀ text, .labelled text ∈ reads → ∀ n, p.blankCounter < n →
      n ≤ p.blankCounter + reads.countP (· matches .anonymous) →
        label text ≠ ['_', 'g'] ++ toDigits 10 n := by
  constructor
  · intro hright text hmem n hlt hle heq
    have hlabelled := (mem_zip_iff h).mpr (.inl ⟨text, rfl, hmem, rfl⟩)
    have hgenerated := (mem_zip_iff h).mpr (.inr ⟨rfl, n, hlt, hle, rfl⟩)
    have : Std.Symm fun a b : BlankRead × List Char => a.2 = b.2 ↔ Same a.1 b.1 := by
      constructor
      rintro ⟨a, x⟩ ⟨b, y⟩ hab
      cases a <;> cases b <;> simp_all [Same, eq_comm]
    exact (hright.forall hlabelled hgenerated (by simp)).mp (by simp [generated, heq])
  · intro hlabels
    induction reads generalizing p nodes with
    | nil => exact .nil
    | cons first reads ih =>
      obtain ⟨made, p', rest, hread, hrest, rfl⟩ := readBlanks_cons h
      rw [Right, zip_cons_cons]
      have hrests := fun text hmem => hlabels text (mem_cons_of_mem _ hmem)
      cases first with
      | labelled text =>
        simp only [readBlank] at hread
        split at hread <;> cases hread
        simp only [countP_cons, Bool.false_eq_true, if_false, add_zero] at hlabels hrests
        refine Pairwise.cons ?_ (ih hrest hrests)
        rintro ⟨read, node⟩ hmem
        obtain ⟨text', rfl, -, rfl⟩ | ⟨rfl, n, hlt, hle, rfl⟩ := (mem_zip_iff hrest).mp hmem
        · simp [Same]
        · simpa [Same, generated] using hlabels text mem_cons_self n hlt hle
      | anonymous =>
        cases hread
        simp only [countP_cons, if_true] at hrests
        refine Pairwise.cons ?_ (ih hrest fun text hmem n hlt hle =>
          hrests text hmem n (lt_of_succ_lt hlt) (by simp at hle; omega))
        rintro ⟨read, node⟩ hmem
        obtain ⟨text, rfl, hmem, rfl⟩ | ⟨rfl, n, hlt, hle, rfl⟩ := (mem_zip_iff hrest).mp hmem
        · have hne := hrests text ‹_› (p.blankCounter + 1) (by omega) (by omega)
          simpa [Same] using hne.symm
        · simpa [Same, generated] using fun heq => absurd (toDigits_inj heq) (hlt.ne)

/-- Two parsers of a process make no node in common. -/
theorem new_ne {c c' : Nat} (h : c ≠ c') (rest rest' : List Char) :
    (new c).importPrefix ++ rest ≠ (new c').importPrefix ++ rest' := by
  have hcut : ∀ c rest, takeWhile Char.isDigit (((new c).importPrefix ++ rest).drop 3) =
      toDigits 10 c := fun c rest => by
    have hdigits : ∀ d ∈ toDigits 10 c, d.isDigit := fun d hd =>
      isDigit_of_mem_toDigits (by decide) (by decide) hd
    simp [new, takeWhile_append_of_pos hdigits]
  intro heq
  exact h (toDigits_inj (by rw [← hcut c rest, heq, hcut]))

end TurtleParser

end Grafeo.Rdf
