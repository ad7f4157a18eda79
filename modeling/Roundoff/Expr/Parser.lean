import Roundoff.Expr.Basic
import Roundoff.Token.Basic

/-! # Parsing

Precedence climbing from tokens to trees.  From loosest to tightest: `+ -`, then `* /`, then the
signs, then `^`.  The operators associate to the left except `^`, which associates to the right
and whose right operand may carry a sign: `-2^2` is `-(2^2)` and `2^-3^2` is `2^(-(3^2))`.

An error is reported at the first token that cannot continue an expression; at the end of the
input it is reported at the innermost parenthesis still open.  Two limits bound the work: how
deep expressions may nest, and how many nodes a tree may have.
-/
namespace Roundoff

/-- What the parser was looking for. -/
inductive Expected where
  | expression
  | closing
  | endOfInput
  deriving DecidableEq, Repr

/-- What the parser was looking for, in words. -/
def Expected.name : Expected → String
  | expression => "expression"
  | closing => "')'"
  | endOfInput => "end of input"

/-- A malformed expression. -/
inductive ParseError where
  /-- There is no token at all. -/
  | empty
  /-- A token that cannot stand where it does. -/
  | unexpected (expected : Expected) (found : Token)
  /-- A closing parenthesis after a complete expression. -/
  | unmatched (found : Token)
  /-- The input ends inside the parentheses opened at a position. -/
  | unclosed (expected : Expected) (opening : Int)
  deriving DecidableEq, Repr

namespace ParseError

/-- The position that an error is reported at. -/
def position : ParseError → Int
  | empty => 0
  | unexpected _ found => found.position
  | unmatched found => found.position
  | unclosed _ opening => opening

/-- What was expected. -/
def expected : ParseError → String
  | empty => Expected.expression.name
  | unexpected e _ => e.name
  | unmatched _ => Expected.endOfInput.name
  | unclosed e _ => e.name

/-- What was found instead. -/
def found : ParseError → String
  | empty => TokenKind.endOfInput.name
  | unexpected _ t => t.describe
  | unmatched t => t.describe
  | unclosed _ _ => TokenKind.endOfInput.name

/-- The message of a parse error. -/
def message : ParseError → String
  | empty => "empty input"
  | unexpected e t =>
    "expected " ++ e.name ++ ", found " ++ t.describe ++ " at position " ++ Numeral.text t.position
  | unmatched t => "unmatched ')' at position " ++ Numeral.text t.position
  | unclosed e opening =>
    "unexpected end of input: expected " ++ e.name ++ ", unmatched '(' at position "
      ++ Numeral.text opening

end ParseError

namespace Operation

/-- How tightly a binary operator binds. -/
def precedence : Operation → Nat
  | add => 1
  | sub => 1
  | mul => 2
  | div => 2
  | pow => 4

/-- The least precedence of operators in the right operand: higher for the operators that
associate to the left. -/
def rightMinimum : Operation → Nat
  | pow => 4
  | op => op.precedence + 1

end Operation

namespace Parser

/-- The least precedence of operators in the operand of a sign. -/
def signMinimum : Nat := 3

/-- The symbols that are signs. -/
def isSign (symbol : String) : Bool :=
  symbol == "-" || symbol == "+"

/-- The limits on the size of an expression. -/
structure Limits where
  maxDepth : Nat
  maxNodes : Nat
  deriving DecidableEq, Repr

/-- Why the parser stops without a tree. -/
inductive Stop where
  /-- The expression is malformed. -/
  | malformed (error : ParseError)
  /-- The expression nests too deeply at a position. -/
  | tooDeep (position : Int)
  /-- The tree has too many nodes; the position is that of the first one too many. -/
  | tooManyNodes (position : Int)
  /-- An operator token has no precedence. -/
  | unknownOperator (symbol : String)
  /-- The tokens do not end with an end of input. -/
  | unfinished
  /-- The bound on recursion was too small, which the bound in `parse` never is. -/
  | exhausted
  deriving DecidableEq, Repr

/-- The tokens not yet read and the number of nodes made so far. -/
structure State where
  rest : List Token
  nodes : Nat
  deriving DecidableEq, Repr

/-- Where the parser stands: how deep, and which parentheses are open, innermost first. -/
structure Context where
  depth : Nat
  opened : List Int
  deriving DecidableEq, Repr

namespace State

/-- The next token; exhausted tokens read as the end of the input. -/
def peek (st : State) : Token :=
  st.rest.headD (.finish 0)

/-- Step over the next token.  The end of the input stays. -/
def advance (st : State) : State :=
  if st.peek.kind = .endOfInput then st else { st with rest := st.rest.tail }

/-- Count a node of the tree. -/
def node (lim : Limits) (e : Expr) (st : State) : Except Stop (Expr × State) :=
  if lim.maxNodes < st.nodes + 1 then .error (.tooManyNodes e.position)
  else .ok (e, { st with nodes := st.nodes + 1 })

end State

namespace Context

/-- Enter an expression that starts with the next token. -/
def enter (lim : Limits) (ctx : Context) (st : State) : Except Stop Context :=
  if lim.maxDepth < ctx.depth + 1 then .error (.tooDeep st.peek.position)
  else .ok { ctx with depth := ctx.depth + 1 }

/-- Enter the parentheses opened at a position. -/
def opening (ctx : Context) (position : Int) : Context :=
  { ctx with opened := position :: ctx.opened }

/-- The error about the next token. -/
def fail (ctx : Context) (expected : Expected) (st : State) : Stop :=
  if st.peek.kind = .endOfInput then
    match ctx.opened with
    | position :: _ => .malformed (.unclosed expected position)
    | [] => .malformed (.unexpected expected st.peek)
  else .malformed (.unexpected expected st.peek)

/-- Step over the closing parenthesis that must come next. -/
def close (ctx : Context) (st : State) : Except Stop State :=
  if st.peek.kind = .rightParen then .ok st.advance else .error (ctx.fail .closing st)

end Context

variable (lim : Limits)

mutual

/-- An expression whose operators have at least a given precedence. -/
def expression : Nat → Context → Nat → State → Except Stop (Expr × State)
  | 0, _, _, _ => .error .exhausted
  | fuel + 1, ctx, minimum, st => do
    let ctx ← ctx.enter lim st
    let (left, st) ← operand fuel ctx st
    climb fuel ctx minimum left st

/-- Extend an expression by the operators that follow, as long as they have at least a given
precedence. -/
def climb : Nat → Context → Nat → Expr → State → Except Stop (Expr × State)
  | 0, _, _, _, _ => .error .exhausted
  | fuel + 1, ctx, minimum, left, st =>
    let token := st.peek
    if token.kind ≠ .operator then .ok (left, st)
    else
      match Operation.ofSymbol? token.text with
      | none => .error (.unknownOperator token.text)
      | some op =>
        if op.precedence < minimum then .ok (left, st)
        else do
          let (right, st) ← expression fuel ctx op.rightMinimum st.advance
          let (tree, st) ← st.node lim (.binary token.text left right token.position)
          climb fuel ctx minimum tree st

/-- A signed operand, a literal, a name, a call, or an expression in parentheses. -/
def operand : Nat → Context → State → Except Stop (Expr × State)
  | 0, _, _ => .error .exhausted
  | fuel + 1, ctx, st =>
    let token := st.peek
    match token.kind with
    | .operator =>
      if isSign token.text then do
        let (e, st) ← expression fuel ctx signMinimum st.advance
        st.node lim (.unary token.text e token.position)
      else .error (ctx.fail .expression st)
    | .number => st.advance.node lim (.number token.text token.position)
    | .identifier =>
      let next := st.advance
      if next.peek.kind = .leftParen then do
        let inner := ctx.opening next.peek.position
        let first := next.advance
        let (args, st) ←
          if first.peek.kind = .rightParen then .ok ([], first) else arguments fuel inner first
        let st ← inner.close st
        st.node lim (.call token.text args token.position)
      else next.node lim (.name token.text token.position)
    | .leftParen => do
      let inner := ctx.opening token.position
      let (e, st) ← expression fuel inner 1 st.advance
      let st ← inner.close st
      .ok (e, st)
    | _ => .error (ctx.fail .expression st)

/-- One or more expressions separated by commas. -/
def arguments : Nat → Context → State → Except Stop (List Expr × State)
  | 0, _, _ => .error .exhausted
  | fuel + 1, ctx, st => do
    let (e, st) ← expression fuel ctx 1 st
    if st.peek.kind = .comma then
      let (es, st) ← arguments fuel ctx st.advance
      .ok (e :: es, st)
    else .ok ([e], st)

end

/-- A bound on the recursion that suffices for a number of tokens: between two tokens the parser
descends at most twice. -/
def fuelFor (tokens : List Token) : Nat :=
  2 * tokens.length + 2

/-- The tree of a whole token list and the number of nodes counted. -/
def run (tokens : List Token) : Except Stop (Expr × State) :=
  let start : State := ⟨tokens, 0⟩
  if (tokens.getLast?.map Token.kind) ≠ some .endOfInput then .error .unfinished
  else if start.peek.kind = .endOfInput then .error (.malformed .empty)
  else do
    let (tree, st) ← expression lim (fuelFor tokens) ⟨0, []⟩ 1 start
    if st.peek.kind = .endOfInput then .ok (tree, st)
    else if st.peek.kind = .rightParen then .error (.malformed (.unmatched st.peek))
    else .error (.malformed (.unexpected .endOfInput st.peek))

/-- The tree of a whole token list. -/
def parse (tokens : List Token) : Except Stop Expr :=
  (run lim tokens).map (·.1)

end Parser

end Roundoff
