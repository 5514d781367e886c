import SamlSeal.Sorting

/-!
# Namespace bindings

A `Declaration` binds a prefix to a namespace; the empty prefix stands for the default namespace.
A `Scope` is the set of bindings in force at some place of a document, looked up with
`Scope.uri?`.
-/

namespace SamlSeal.Xml

/-- A prefix and the namespace it stands for. -/
structure Declaration where
  /-- The prefix, empty for the default namespace. -/
  pfx : String
  /-- The namespace, empty to take the default namespace away. -/
  uri : String
  deriving DecidableEq, Repr

/-- Declarations are ordered by their prefixes, so that the default namespace comes first. -/
def Declaration.le (a b : Declaration) : Bool := decide (a.pfx ≤ b.pfx)

/-- Bindings in force, at most one for each prefix. -/
abbrev Scope := List Declaration

namespace Scope

/-- The namespace that a prefix is bound to. -/
def uri? (s : Scope) (p : String) : Option String :=
  (s.find? (·.pfx == p)).map (·.uri)

/-- The bindings of all other prefixes. -/
def unbind (s : Scope) (p : String) : Scope := s.filter (·.pfx != p)

/-- Binds one prefix anew. -/
def bind (s : Scope) (d : Declaration) : Scope := d :: s.unbind d.pfx

/-- What is in force inside an element that makes the given declarations, one after the other.
An empty namespace ends a binding. -/
def declare (s : Scope) (ds : List Declaration) : Scope :=
  ds.foldl (fun s d => if d.uri = "" then s.unbind d.pfx else s.bind d) s

/-- The bindings in the order of their prefixes. -/
def sorted (s : Scope) : List Declaration := Sorting.sort Declaration.le s

theorem uri?_unbind (s : Scope) (p q : String) :
    (s.unbind p).uri? q = if q = p then none else s.uri? q := by
  induction s with
  | nil => simp [unbind, uri?]
  | cons d s ih =>
    simp only [unbind, uri?, List.filter_cons, List.find?_cons] at ih ⊢
    split <;> split <;> simp_all [List.find?_cons] <;> grind

@[simp] theorem uri?_bind_self (s : Scope) (d : Declaration) : (s.bind d).uri? d.pfx = some d.uri := by
  simp [bind, uri?]

theorem uri?_bind (s : Scope) (d : Declaration) (q : String) :
    (s.bind d).uri? q = if q = d.pfx then some d.uri else s.uri? q := by
  by_cases h : q = d.pfx
  · simp [h]
  · have := uri?_unbind s d.pfx q
    rw [if_neg h] at this ⊢
    rw [← this, bind, uri?, List.find?_cons_of_neg (by simpa using Ne.symm h)]
    rfl

end Scope

end SamlSeal.Xml
