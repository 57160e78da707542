/-!
Superstates: the nest of contexts that a position between two codepoints sits in, leaving out the
comments of prose. Those nest without bound, and a `LexicalState` adds how deep they are. There are
24 superstates outside an extract of an extension's documentation and 23 inside one, because the
documentation itself is never part of an extract.
-/

namespace LiveProse

/-- The forms that prose takes. -/
inductive Prose where
  | plain
  | string
  | substitution
deriving DecidableEq, Repr

/-- The forms that the included lower language takes. -/
inductive Inclusion where
  | plain
  | character
  | string
  | comment
deriving DecidableEq, Repr

/-- The contexts of a position. A flag `extract` says that all of it is inside an extract of the
documentation, `routine` that the inclusion is inside a routine, and `comment` that the inclusion
around the embedded prose is a comment. -/
inductive Superstate where
  | documentation
  | prose (extract : Bool) (form : Prose)
  | inclusion (extract routine : Bool) (form : Inclusion)
  | embedded (extract routine comment : Bool) (form : Prose)
deriving DecidableEq, Repr

namespace Prose

def all : List Prose := [.plain, .string, .substitution]

def index : Prose → Nat
  | .plain => 0
  | .string => 1
  | .substitution => 2

end Prose

namespace Inclusion

def all : List Inclusion := [.plain, .character, .string, .comment]

def index : Inclusion → Nat
  | .plain => 0
  | .character => 1
  | .string => 2
  | .comment => 3

end Inclusion

namespace Superstate

/-- The superstates of inclusions and of the prose embedded in them. -/
def included (extract : Bool) : List Superstate :=
  [false, true].flatMap (fun routine => Inclusion.all.map (.inclusion extract routine)) ++
  [false, true].flatMap fun routine => [false, true].flatMap fun comment =>
    Prose.all.map (.embedded extract routine comment)

/-- Every superstate once, those inside extracts last. -/
def all : List Superstate :=
  Prose.all.map (.prose false) ++ [.documentation] ++ included false ++
  Prose.all.map (.prose true) ++ included true

/-- The number of superstates. -/
abbrev count : Nat := 47

theorem length_all : all.length = count := rfl

/-- The position of a superstate in `all`. -/
def index : Superstate → Fin count
  | documentation => 3
  | prose false .plain => 0
  | prose false .string => 1
  | prose false .substitution => 2
  | prose true .plain => 24
  | prose true .string => 25
  | prose true .substitution => 26
  | inclusion extract routine form =>
    ⟨(if extract then 27 else 4) + (if routine then 4 else 0) + form.index, by
      cases extract <;> cases routine <;> cases form <;> decide⟩
  | embedded extract routine comment form =>
    ⟨(if extract then 35 else 12) + (if routine then 6 else 0) + (if comment then 3 else 0) +
      form.index, by
      cases extract <;> cases routine <;> cases comment <;> cases form <;> decide⟩

/-- The superstate at a position of `all`. -/
def ofIndex? (index : Nat) : Option Superstate :=
  all[index]?

theorem ofIndex?_index (s : Superstate) : ofIndex? s.index = some s := by
  rcases s with _ | ⟨_ | _, _ | _⟩ | ⟨_ | _, _ | _, _ | _⟩ | ⟨_ | _, _ | _, _ | _, _ | _⟩ <;> rfl

/-- Whether the position is inside an extract of the documentation. -/
def inExtract : Superstate → Bool
  | documentation => false
  | prose extract _ => extract
  | inclusion extract _ _ => extract
  | embedded extract _ _ _ => extract

/-- The number of superstates that can hold comments. -/
abbrev commentableCount : Nat := 11

/-- The superstates that can hold comments: the documentation and every plain prose. -/
def commentable : List Superstate :=
  all.filter fun s => match s with
    | documentation | prose _ .plain | embedded _ _ _ .plain => true
    | _ => false

/-- The position of a superstate among those that can hold comments. -/
def commentSlot? : Superstate → Option (Fin commentableCount)
  | prose extract .plain => some (if extract then 6 else 0)
  | documentation => some 1
  | embedded false false false .plain => some 2
  | embedded false false true .plain => some 3
  | embedded false true false .plain => some 4
  | embedded false true true .plain => some 5
  | embedded true false false .plain => some 7
  | embedded true false true .plain => some 8
  | embedded true true false .plain => some 9
  | embedded true true true .plain => some 10
  | _ => none

def isCommentable (s : Superstate) : Bool :=
  s.commentSlot?.isSome

/-- Whether comments survive a change of superstate: those open in prose inside a comment of an
inclusion stay open when a line break ends that comment. -/
def hasMovableComments : Superstate → Bool
  | embedded _ _ true .plain => true
  | _ => false

/-- The name of a superstate. -/
def name : Superstate → String
  | documentation => "I7ExtensionDocumentation"
  | prose extract form => proseName form ++ place extract
  | inclusion extract routine form =>
    "I6" ++ inclusionName form ++ inRoutine routine ++ place extract
  | embedded extract routine comment form =>
    proseName form ++ "InI6" ++ (if comment then "Comment" else "") ++ inRoutine routine ++
      place extract
where
  proseName : Prose → String
    | .plain => "I7"
    | .string => "I7String"
    | .substitution => "I7Substitution"
  inclusionName : Inclusion → String
    | .plain => ""
    | .character => "Character"
    | .string => "String"
    | .comment => "Comment"
  inRoutine (routine : Bool) : String := if routine then "InRoutine" else ""
  place (extract : Bool) : String := if extract then "InExtract" else ""

/-- The superstate of a name. -/
def ofName? (name : String) : Option Superstate :=
  all.find? (·.name == name)

/-- A superstate drawn by its delimiters. -/
def display : Superstate → String
  | documentation => "--7--"
  | prose extract form => place extract ++ proseDisplay form
  | inclusion extract routine form =>
    let drawn := match form with
      | .plain => "6"
      | .character => "'6'"
      | .string => "\"6\""
      | .comment => "!6"
    place extract ++ "(-" ++ (if routine then "[" ++ drawn ++ "]" else drawn) ++ "-)"
  | embedded extract routine comment form =>
    let drawn := (if comment then "!" else "") ++ "(+" ++ proseDisplay form ++ "+)"
    place extract ++ if routine then "[" ++ drawn ++ "]" else drawn
where
  proseDisplay : Prose → String
    | .plain => "7"
    | .string => "\"7\""
    | .substitution => "\"[7]\""
  place (extract : Bool) : String := if extract then "*:" else ""

end Superstate

end LiveProse
