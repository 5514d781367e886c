import SamlSeal.Vocabulary

/-!
# Canonicalization modes

The profile admits exclusive canonical form only, without comments or with them.
-/

namespace SamlSeal

/-- Which exclusive canonical form is meant. -/
inductive Mode where
  | exclusive
  | exclusiveWithComments
  deriving DecidableEq, Repr

namespace Mode

/-- The identifier of a mode. -/
def uri : Mode → String
  | exclusive => Algorithm.exclusive
  | exclusiveWithComments => Algorithm.exclusiveWithComments

/-- The mode with a given identifier. -/
def ofUri? (uri : String) : Option Mode :=
  if uri = Algorithm.exclusive then some exclusive
  else if uri = Algorithm.exclusiveWithComments then some exclusiveWithComments
  else none

/-- Whether comments are part of the canonical form. -/
def keepsComments : Mode → Bool
  | exclusive => false
  | exclusiveWithComments => true

theorem ofUri?_eq_some_iff {uri : String} {m : Mode} : ofUri? uri = some m ↔ uri = m.uri := by
  unfold ofUri?
  split
  · subst uri; cases m <;> simp [Mode.uri]; decide
  · split
    · subst uri; cases m <;> simp_all [Mode.uri]
    · cases m <;> simp_all [Mode.uri]

end Mode

end SamlSeal
