import Precompile.Script.File

/-!
Decorated classes: those that factories are generated for.
-/

namespace Precompile.Factory

open Script

/-- A class with one of the known decorators, and the templates that the decorator names. -/
structure DecoratedClass where
  name : String
  templateUrls : List String
  deriving DecidableEq, Repr, Inhabited

def decorators : List String := ["NgModule", "Component"]

def isOpening (t : Token) : Bool := t.isPunct '(' || t.isPunct '\x7b' || t.isPunct '['

def isClosing (t : Token) : Bool := t.isPunct ')' || t.isPunct '\x7d' || t.isPunct ']'

/-- The name of the property that names a template. -/
def templateProperty : String := "templateUrl"

/-- The template that a property names, given the tokens from its name on. -/
def templateAt? : List Token → Option String
  | property :: colon :: value :: _ =>
    if property.isIdent templateProperty && colon.isPunct ':' then value.literal? else none
  | _ => none

/-- The templates named before `depth` brackets are closed, and the tokens after the last of those
brackets. -/
def arguments : Nat → List Token → List String × List Token
  | 0, tokens => ([], tokens)
  | _ + 1, [] => ([], [])
  | depth + 1, t :: rest =>
    if isOpening t then arguments (depth + 2) rest
    else if isClosing t then arguments depth rest
    else
      let (urls, after) := arguments (depth + 1) rest
      ((templateAt? (t :: rest)).toList ++ urls, after)

/-- The tokens after the arguments are some of those at the end. -/
theorem length_arguments_le (depth : Nat) (tokens : List Token) :
    (arguments depth tokens).2.length ≤ tokens.length := by
  fun_induction arguments depth tokens <;> simp_all <;> omega

/-- The name of the class that the tokens declare after some that are neither a decorator nor
`class`, and the tokens behind it. -/
def classAhead (tokens : List Token) : Option String × List Token :=
  match tokens.dropWhile fun t => !t.isPunct '@' && !t.isIdent "class" with
  | [] => (none, [])
  | t :: rest =>
    if t.isIdent "class" then
      match rest with
      | name :: after => if name.kind = .ident then (some name.text, after) else (none, rest)
      | [] => (none, [])
    else (none, t :: rest)

/-- The tokens behind a class are some of those at the end. -/
theorem length_classAhead_le (tokens : List Token) :
    (classAhead tokens).2.length ≤ tokens.length := by
  have hdrop := (List.dropWhile_sublist
    (fun t : Token => !t.isPunct '@' && !t.isIdent "class") (l := tokens)).length_le
  unfold classAhead
  split
  · simp
  · rename_i t rest heq
    rw [heq] at hdrop
    simp only [List.length_cons] at hdrop
    split
    · split
      · split <;> simp_all <;> omega
      · simp
    · simpa using hdrop

/-- The decorated classes that the tokens declare, in order. A decorator belongs to the class that
follows it before the next decorator. -/
def decoratedIn : List Token → List DecoratedClass
  | t :: name :: bracket :: rest =>
    if t.isPunct '@' && name.kind = .ident then
      if decorators.contains name.text && bracket.isPunct '(' then
        have := length_arguments_le 1 rest
        have := length_classAhead_le (arguments 1 rest).2
        let found := classAhead (arguments 1 rest).2
        (found.1.map fun className => DecoratedClass.mk className (arguments 1 rest).1).toList ++
          decoratedIn found.2
      else decoratedIn (bracket :: rest)
    else decoratedIn (name :: bracket :: rest)
  | _ => []
termination_by tokens => tokens.length
decreasing_by all_goals simp <;> omega

def decoratedClasses (f : SourceFile) : List DecoratedClass := decoratedIn f.tokens

end Precompile.Factory
