import LiveProse.Lexical.Effect

/-!
The classes of tokens by what they do to the lexical state, and the effect of each class.
-/

namespace LiveProse

/-- What a single token can be to the lexical state. -/
inductive TokenClass where
  /-- Anything that is none of the others. -/
  | plainText
  | doubleQuote
  | leftBracket
  | rightBracket
  /-- The line of its own that begins the documentation of an extension. -/
  | documentationBreak
  /-- The same, with tabs after it. -/
  | documentationBreakFollowedByIndentation
  /-- A line break with tabs after it. -/
  | indentation
  | bareNewline
  /-- `(-` -/
  | leftCyclops
  /-- `-)` -/
  | rightCyclops
  /-- A single quote, except the middle one of three. -/
  | singleQuote
  | bang
  /-- `(+` -/
  | leftCrosseyedCyclops
  /-- `+)` -/
  | rightCrosseyedCyclops
deriving DecidableEq, Repr

namespace TokenClass

def all : List TokenClass :=
  [plainText, doubleQuote, leftBracket, rightBracket, documentationBreak,
    documentationBreakFollowedByIndentation, indentation, bareNewline, leftCyclops, rightCyclops,
    singleQuote, bang, leftCrosseyedCyclops, rightCrosseyedCyclops]

def name : TokenClass → String
  | plainText => "PlainText"
  | doubleQuote => "DoubleQuote"
  | leftBracket => "LeftBracket"
  | rightBracket => "RightBracket"
  | documentationBreak => "DocumentationBreak"
  | documentationBreakFollowedByIndentation => "DocumentationBreakFollowedByIndentation"
  | indentation => "Indentation"
  | bareNewline => "BareNewline"
  | leftCyclops => "LeftCyclops"
  | rightCyclops => "RightCyclops"
  | singleQuote => "SingleQuote"
  | bang => "Bang"
  | leftCrosseyedCyclops => "LeftCrosseyedCyclops"
  | rightCrosseyedCyclops => "RightCrosseyedCyclops"

/-- The class of a name. -/
def ofName? (name : String) : Option TokenClass :=
  all.find? (·.name == name)

/-! ### Where each class moves a superstate outside comments -/

/-- A double quote opens and closes strings, and closes a string from inside its substitution. -/
def quoteMove : Superstate → Superstate
  | .prose extract .plain => .prose extract .string
  | .prose extract _ => .prose extract .plain
  | .embedded extract routine comment .plain => .embedded extract routine comment .string
  | .embedded extract routine comment _ => .embedded extract routine comment .plain
  | .inclusion extract routine .plain => .inclusion extract routine .string
  | .inclusion extract routine .string => .inclusion extract routine .plain
  | s => s

/-- A left bracket opens a substitution in a string and a routine in an inclusion. -/
def leftBracketMove : Superstate → Superstate
  | .prose extract .string => .prose extract .substitution
  | .embedded extract routine comment .string => .embedded extract routine comment .substitution
  | .inclusion extract false .plain => .inclusion extract true .plain
  | s => s

/-- A right bracket closes what a left bracket opens. -/
def rightBracketMove : Superstate → Superstate
  | .prose extract .substitution => .prose extract .string
  | .embedded extract routine comment .substitution => .embedded extract routine comment .string
  | .inclusion extract true .plain => .inclusion extract false .plain
  | s => s

/-- A line break ends a comment of an inclusion, also around embedded prose. -/
def endInclusionComment : Superstate → Superstate
  | .inclusion extract routine .comment => .inclusion extract routine .plain
  | .embedded extract routine true form => .embedded extract routine false form
  | s => s

/-- A line break with tabs begins an extract in the documentation. -/
def indentationMove : Superstate → Superstate
  | .documentation => .prose true .plain
  | s => endInclusionComment s

/-- A line break without tabs ends an extract. -/
def newlineMove (s : Superstate) : Superstate :=
  if s.inExtract then .documentation else endInclusionComment s

def leftCyclopsMove : Superstate → Superstate
  | .prose extract .plain => .inclusion extract false .plain
  | s => s

/-- The end of an inclusion leaves all that was opened inside it. -/
def rightCyclopsMove : Superstate → Superstate
  | .inclusion extract _ _ => .prose extract .plain
  | .embedded extract _ _ _ => .prose extract .plain
  | s => s

def singleQuoteMove : Superstate → Superstate
  | .inclusion extract routine .plain => .inclusion extract routine .character
  | .inclusion extract routine .character => .inclusion extract routine .plain
  | s => s

def bangMove : Superstate → Superstate
  | .inclusion extract routine .plain => .inclusion extract routine .comment
  | s => s

def leftCrosseyedMove : Superstate → Superstate
  | .inclusion extract routine .plain => .embedded extract routine false .plain
  | s => s

def rightCrosseyedMove : Superstate → Superstate
  | .embedded extract routine comment _ =>
    .inclusion extract routine (if comment then .comment else .plain)
  | s => s

/-! ### The effects -/

def doubleQuoteEffect : Effect := .ofMoves quoteMove

def leftBracketEffect : Effect := (Effect.ofMoves leftBracketMove).andThen (.depthChange 1)

def rightBracketEffect : Effect := (Effect.ofMoves rightBracketMove).andThen (.depthChange (-1))

def documentationBreakEffect : Effect := .transition (.prose false .plain) .documentation

def indentedBreakEffect : Effect := .transition (.prose false .plain) (.prose true .plain)

/-- Comments open in prose inside a comment of an inclusion stay open when that comment ends. -/
def indentationEffect : Effect := (Effect.ofMoves indentationMove).carrying endInclusionComment

/-- As with indentation, but comments inside an extract hold the extract where it is. -/
def bareNewlineEffect : Effect :=
  (Effect.ofMoves newlineMove).carrying fun s => if s.inExtract then s else endInclusionComment s

def leftCyclopsEffect : Effect := .ofMoves leftCyclopsMove

def rightCyclopsEffect : Effect := .ofMoves rightCyclopsMove

def singleQuoteEffect : Effect := .ofMoves singleQuoteMove

def bangEffect : Effect := .ofMoves bangMove

def leftCrosseyedEffect : Effect := .ofMoves leftCrosseyedMove

def rightCrosseyedEffect : Effect := .ofMoves rightCrosseyedMove

/-- The effect of a token of the class. -/
def effect : TokenClass → Effect
  | plainText => Effect.identity
  | doubleQuote => doubleQuoteEffect
  | leftBracket => leftBracketEffect
  | rightBracket => rightBracketEffect
  | documentationBreak => documentationBreakEffect
  | documentationBreakFollowedByIndentation => indentedBreakEffect
  | indentation => indentationEffect
  | bareNewline => bareNewlineEffect
  | leftCyclops => leftCyclopsEffect
  | rightCyclops => rightCyclopsEffect
  | singleQuote => singleQuoteEffect
  | bang => bangEffect
  | leftCrosseyedCyclops => leftCrosseyedEffect
  | rightCrosseyedCyclops => rightCrosseyedEffect

/-- Where a token of the class takes a state. -/
def apply (kind : TokenClass) (state : LexicalState) : LexicalState :=
  kind.effect.apply state

end TokenClass

end LiveProse
