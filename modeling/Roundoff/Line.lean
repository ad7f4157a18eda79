import Roundoff.Dual.Walk
import Roundoff.Metrics

/-! # Evaluating a line

From text to tokens, to a tree, to the two values, to their discrepancy.  Nothing is kept from
one line to the next.
-/
namespace Roundoff

/-- What comes of a line. -/
inductive Outcome where
  | success (result : Evaluation) (metrics : Metrics)
  | failure (failure : Failure)
  deriving DecidableEq, Repr

/-- The line has a value. -/
def Outcome.isSuccess : Outcome → Bool
  | success .. => true
  | failure _ => false

namespace Line

/-- The limits that the parser observes. -/
def parserLimits (s : Settings) : Parser.Limits :=
  ⟨s.maxDepth, s.maxNodes⟩

/-- The tree of a token list. -/
def parse (s : Settings) (tokens : List Token) : Except Stop Expr :=
  (Parser.parse (parserLimits s) tokens).mapError (Stop.ofParser (parserLimits s))

/-- The tree of a line. -/
def tree (s : Settings) (line : String) : Except Stop Expr := do
  let length := line.length
  if s.maxInputLength < length then throw (.error (.lineTooLong length s.maxInputLength))
  match Lexer.tokenize line with
  | .error e => throw (.error (.lex e))
  | .ok tokens => parse s tokens

/-- The values of a line and their discrepancy. -/
def run (s : Settings) (line : String) : Except Stop (Evaluation × Metrics) := do
  let e ← tree s line
  let result ← evaluate s e
  return (result, Metrics.compute result.exact result.shadow.value)

/-- Evaluate a line.  An error about the line is a failure; a defect is none, and no line gives
rise to one under the default limits. -/
def evaluate (s : Settings) (line : String) : Except Defect Outcome :=
  match run s line with
  | .ok (result, metrics) => .ok (.success result metrics)
  | .error (.error e) => .ok (.failure e.toFailure)
  | .error (.defect d) => .error d

end Line

end Roundoff
