import Grafeo.Lib.Assoc
import Grafeo.Rdf.Leapfrog

/-!
# Grafeo.Rdf.Store

**The triples of an RDF dataset** (`graph/rdf/store.rs`): those of the default graph and of each
named graph, without repeats. A batch of inserts into a graph is the inserts one by one
(`insertEachInto_append`).
-/

namespace Grafeo.Rdf

inductive Term where
  | iri (value : String)
  | blankNode (id : String)
  | literal (value datatype : String) (language : Option String)
deriving DecidableEq, Repr

instance : LawfulBEq (Triple Term) := inferInstance

/-- Whether the triple is an RDF triple: its subject an IRI or a blank node, its predicate an
IRI. -/
def Triple.isValid (triple : Triple Term) : Bool :=
  (triple.subject matches .iri _ | .blankNode _) && (triple.predicate matches .iri _)

/-- The triples of the default graph, and of each named graph by its name. -/
structure RdfStore where
  default : List (Triple Term) := []
  named : List (String × List (Triple Term)) := []

/-- Inserts triples in turn; says of each whether it is new. One that is no RDF triple is not
stored. -/
def insertEach (held : List (Triple Term)) : List (Triple Term) → List (Triple Term) × List Bool
  | [] => (held, [])
  | triple :: triples =>
      let new := triple.isValid && decide (triple ∉ held)
      let rest := insertEach (if new then held ++ [triple] else held) triples
      (rest.1, new :: rest.2)

namespace RdfStore

/-- The triples of `graph` (`none` for the default graph): none of a graph that does not exist. -/
def triples (store : RdfStore) : Option String → List (Triple Term)
  | none => store.default
  | some name => (store.named.lookup name).getD []

/-- Changes the triples of `graph`, which is created where it does not exist. -/
def change (store : RdfStore) (f : List (Triple Term) → List (Triple Term)) :
    Option String → RdfStore
  | none => { store with default := f store.default }
  | some name => { store with named := Lib.upsert name [] f store.named }

def insertEachInto (store : RdfStore) (graph : Option String) (triples : List (Triple Term)) :
    RdfStore × List Bool :=
  (store.change (fun held => (insertEach held triples).1) graph,
    (insertEach (store.triples graph) triples).2)

/-- Removes `triple` from `graph`; says whether the graph held it. -/
def removeFrom (store : RdfStore) (graph : Option String) (triple : Triple Term) :
    RdfStore × Bool :=
  if triple ∈ store.triples graph then (store.change (·.erase triple) graph, true)
  else (store, false)

theorem triples_change (store : RdfStore) (f : List (Triple Term) → List (Triple Term))
    (graph : Option String) : (store.change f graph).triples graph = f (store.triples graph) := by
  cases graph with
  | none => rfl
  | some name => simp [change, triples, Lib.lookup_upsert]

theorem change_change (store : RdfStore) (f g : List (Triple Term) → List (Triple Term))
    (graph : Option String) : (store.change f graph).change g graph = store.change (g ∘ f) graph := by
  cases graph with
  | none => rfl
  | some name => simp [change, Lib.upsert_upsert]

end RdfStore

theorem insertEach_append (held first second : List (Triple Term)) :
    insertEach held (first ++ second) = ((insertEach (insertEach held first).1 second).1,
        (insertEach held first).2 ++ (insertEach (insertEach held first).1 second).2) := by
  induction first generalizing held with
  | nil => rfl
  | cons triple first ih => simp [insertEach, ih]

/-- **A batch of inserts is its parts**, one after the other. -/
theorem RdfStore.insertEachInto_append (store : RdfStore) (graph : Option String)
    (first second : List (Triple Term)) :
    store.insertEachInto graph (first ++ second) =
      (((store.insertEachInto graph first).1.insertEachInto graph second).1,
        (store.insertEachInto graph first).2 ++
          ((store.insertEachInto graph first).1.insertEachInto graph second).2) := by
  simp only [insertEachInto, triples_change, change_change, insertEach_append]
  rfl

theorem length_insertEach (held triples : List (Triple Term)) :
    (insertEach held triples).2.length = triples.length := by
  induction triples generalizing held with
  | nil => rfl
  | cons triple triples ih => simp [insertEach, ih]

end Grafeo.Rdf
