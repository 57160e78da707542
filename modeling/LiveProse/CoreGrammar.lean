import LiveProse.Session

/-!
The core grammar that every source text is parsed with: brackets, numbers, words, the ends of
sentences, and declarations of nonterminals.
-/

namespace LiveProse

/-- The productions and the nonterminal of the core grammar that others build upon. -/
structure CoreGrammar where
  /-- A sentence end by a full stop, a semicolon and a colon. -/
  sentenceEnds : List ProductionId
  endOfSentence : ProductionId
  nameWordsSingle : ProductionId
  nameWordsMore : ProductionId
  declarationProduction : ProductionId
  declaration : Nonterminal
deriving DecidableEq, Repr

namespace CoreGrammar

/-- Changes of a session that may fail because of the grammar. What was changed before a failure
stays changed. -/
abbrev Install := ExceptT GrammarError (StateM Session)

def word (text : String) : Install Word := do
  let (session, word) := (← get).intern text.toList
  set session
  return word

/-- The nonterminal of a name at the lowest tier. -/
def nonterminal (name : String) : Install Nonterminal := do
  return ⟨← word name, 0⟩

def add (variant : ProductionVariant) (result : Nonterminal) (slots : List (List Parseme)) :
    Install ProductionId := do
  match (← get).addProduction (.ofLists variant result slots) with
  | .ok (session, id) =>
    set session
    return id
  | .error error => throw error

/-- The result and the production of a sentence end by one mark. -/
def sentenceEnd (label mark : String) : Install (Nonterminal × ProductionId) := do
  let result ← nonterminal ("end of a sentence with " ++ label ++ " (internal)")
  let mark ← word mark
  return (result, ← add .sentence result [[.token mark]])

/-- Defines the core grammar. -/
def define : Install CoreGrammar := do
  let leftParenthesis ← nonterminal "left parenthesis"
  let rightParenthesis ← nonterminal "right parenthesis"
  let digits ← nonterminal "digits"
  let anyWord ← nonterminal "word"
  let nameWord ← nonterminal "name word"
  let nameWords ← nonterminal "name words (internal)"
  let endOfSentence ← nonterminal "end of a sentence"
  let declaration ← nonterminal "a nonterminal declaration"
  let opening ← word "("
  let closing ← word ")"
  let _ ← add .wording leftParenthesis [[.token opening]]
  let _ ← add .wording rightParenthesis [[.token closing]]
  let _ ← add .wording digits [[.digits]]
  let _ ← add .wording anyWord [[.word]]
  let _ ← add .wording nameWord [[.nameWord]]
  let stop ← sentenceEnd "full stop" "."
  let semicolon ← sentenceEnd "semicolon" ";"
  let colon ← sentenceEnd "colon" ":"
  let ends := [stop, semicolon, colon]
  let anyEnd ← add .sentence endOfSentence [ends.map fun (result, _) => .nonterminal result]
  let single ← add .wording nameWords [[.nonterminal nameWord]]
  let more ← add .wording nameWords [[.nonterminal nameWords], [.nonterminal nameWord]]
  let hash ← word "#"
  let is_ ← word "is"
  let a ← word "a"
  let kinds ← ["wording", "line", "sentence", "passage"].mapM word
  let declarationProduction ← add .sentence declaration
    [[.token hash], [.nonterminal nameWords], [.token is_], [.token a], kinds.map .token,
      [.nonterminal endOfSentence]]
  return ⟨ends.map (·.2), anyEnd, single, more, declarationProduction, declaration⟩

/-- Defines the core grammar in a session. -/
def install (session : Session) : Session × Except GrammarError CoreGrammar :=
  let (core, session) := define.run.run session
  (session, core)

end CoreGrammar

end LiveProse
