import LiveProse.Text.Alphabetic
import LiveProse.Token

/-!
Sites: the positions that parser facts are about. A site is a significant token of a buffer or one
of two sentinels, so that being first or last is a matter of adjacency like any other.
-/

namespace LiveProse

/-- The number that the client gave a buffer. -/
structure BufferId where
  number : Nat
deriving DecidableEq, Repr

def BufferId.display (id : BufferId) : String := "#" ++ toString id.number

inductive Site where
  /-- In front of the first token. -/
  | start
  | token (handle : Handle)
  /-- Behind the last token. -/
  | finish
deriving DecidableEq, Repr

/-- The token at the site, if it is one. -/
def Site.handle? : Site → Option Handle
  | token handle => some handle
  | start | finish => none

/-- The classes and the context of a significant token. -/
structure TokenTraits where
  /-- Nothing but ASCII digits. -/
  digits : Bool := false
  /-- Begins with no punctuation. -/
  word : Bool := false
  /-- Begins with a letter of some script. -/
  nameWord : Bool := false
  /-- A full stop, semicolon or colon in prose. -/
  sentenceEnd : Bool := false
  /-- A comma by itself. -/
  comma : Bool := false
  /-- Plain prose on both sides. -/
  prose : Bool := false
deriving DecidableEq, Repr

namespace TokenTraits

/-- The marks that can end a sentence. -/
def sentenceMarks : List Text := [['.'], [';'], [':']]

/-- The traits of a token with a text between two states. -/
def classify (text : Text) (before after : LexicalState) : TokenTraits :=
  let prose := before.isPlainProse && after.isPlainProse
  { digits := !text.isEmpty && text.all Codepoint.isDigit
    word := text.head?.any fun c => !Codepoint.isPunctuation c
    nameWord := text.head?.any Codepoint.isAlphabetic
    sentenceEnd := prose && sentenceMarks.contains text
    comma := text == [',']
    prose }

end TokenTraits

/-- What the parser knows about a site. It stays the same for as long as the site is recorded, so
the facts of a site can be retracted after its token has gone. -/
structure SiteInfo where
  text : Option Word := none
  traits : TokenTraits := {}
deriving DecidableEq, Repr

namespace SiteInfo

/-- What is known about the sentinels. -/
def sentinel : SiteInfo := {}

/-- The information about a token, unless the parser skips it: whitespace, and whatever touches a
comment. -/
def ofToken? (token : Token) (before : LexicalState) (vocabulary : Vocabulary) : Option SiteInfo :=
  let after := token.stateAfter before
  if token.onlyWhitespace || before.inComment || after.inComment then none
  else token.text.map fun text =>
    ⟨some text, TokenTraits.classify (vocabulary.lookup text) before after⟩

end SiteInfo

end LiveProse
