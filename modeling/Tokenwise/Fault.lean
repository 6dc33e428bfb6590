/-!
# Faults

A parser that does not match *fails*, and a failure is an ordinary result.
A **fault** is the other way to go wrong: a parser was put together from
impossible parts, a value was asked for something it cannot do, a position
was asked for that a stream does not have.  A fault ends the whole
computation, whatever combinator it happens under.

Each constructor names a cause.  `Fault.message` is its wording; the causes
that come from misusing a value of the wrong kind have none.
-/

namespace Tokenwise

/-- Why a computation could not go on. -/
inductive Fault where
  | countAndBounds
  | gappedRange
  | negativeLowerBound
  | emptyBounds (atLeast atMost : Int)
  | noParsers
  | nothingToCurry
  /-- Nothing is known about the parameters of what is to be curried. -/
  | unknownParameters (shown : String)
  /-- What is to be curried takes any number of arguments. -/
  | variableArguments (shown : String)
  /-- What is to be curried has a parameter that no position can fill. -/
  | keywordRequired (shown : String)
  /-- A deferred parser turned out to be a value of the named type. -/
  | notAParser (typeName : String)
  /-- A stream was asked for a token outside its remaining tokens. -/
  | outOfRange
  /-- A sequence was asked for an item that it does not have. -/
  | noSuchItem
  /-- The number of remaining tokens of a stream that starts past its end. -/
  | pastTheEnd
  /-- A range or a slice that advances by nothing. -/
  | zeroStep
  /-- The token looked for is not among those remaining. -/
  | notFound
  | notCallable
  | notIterable
  | outsideDomain
  /-- Something other than two descriptors was to be merged. -/
  | notADescriptor
  | undefinedParser (name : String)
  /-- A function reported an error of its own. -/
  | reported (text : String)
  deriving DecidableEq, Repr

namespace Fault

/-- The wording of a fault, for those that have one. -/
def message : Fault → Option String
  | countAndBounds => some "Pass either a count or bounds, not both."
  | gappedRange => some "Repetition ranges must have a step of 1."
  | negativeLowerBound => some "The lower bound of a repetition can't be negative."
  | emptyBounds atLeast atMost =>
      some ("Empty repetition bounds: at least " ++ toString atLeast
        ++ ", at most " ++ toString atMost ++ ".")
  | noParsers => some "At least one parser required."
  | nothingToCurry => some "Only functions taking at least one argument can be curried."
  | unknownParameters shown =>
      some ("Can't determine the number of arguments of " ++ shown
        ++ ", pass \x60arity\x60 explicitly.")
  | variableArguments shown =>
      some ("Can't curry " ++ shown
        ++ " which takes variable arguments, pass \x60arity\x60 explicitly.")
  | keywordRequired shown =>
      some ("Can't curry " ++ shown ++ " which has required keyword-only parameters.")
  | notAParser typeName =>
      some ("The function given to lazy() returned " ++ typeName ++ ", not a Parser.")
  | outOfRange => some "token stream index out of range"
  | reported text => some text
  | noSuchItem | pastTheEnd | zeroStep | notFound | notCallable | notIterable
  | outsideDomain | notADescriptor | undefinedParser _ => none

end Fault

end Tokenwise
