import Amm.Json.Basic
import Amm.Toml.Number
import Amm.Toml.Token

/-!
Reading the part of TOML that configurations are written in: plain keys with values, and headers that
add a table to a list of tables. Values are whole TOML; floating-point numbers, dates and tables with
dotted keys have no counterpart in what they become. Dotted keys of settings and other headers are
refused: they make tables where no table is asked for. The text becomes one JSON object.
-/

namespace Amm
namespace Toml

/-- An open array or inline table, with what it holds so far in reverse. A key in an inline table is
a list of names. -/
inductive Container where
  | items (done : List Json)
  | members (done : List (List String × Json)) (key : List String)

/-- How many containers may stand inside one another, and how many names a key may have. -/
def nestingLimit : Nat :=
  79

/-- What is due inside a value. After a name a point may continue the key. -/
inductive Due where
  | value
  | valueOrEnd
  | name
  | nameOrEnd
  | equals
  | separator

/-- The place of the reader in a line. -/
inductive Place where
  | lineStart
  | equals (key : String)
  | value (key : String) (due : Due) (open_ : List Container)
  | lineEnd
  | secondBracket
  | headerKey
  | headerEnd (name : String)
  | secondEnd (name : String)

/-- What has been read: the members before the first header, and after it the tables that headers
have added, the last one first. All members are in reverse. -/
structure Draft where
  root : List (String × Json)
  tables : List (String × List (String × Json))

def putNew (key : String) (value : Json) (members : List (String × Json)) :
    Option (List (String × Json)) :=
  if (members.lookup key).isSome then none else some ((key, value) :: members)

def Draft.put (draft : Draft) (key : String) (value : Json) : Option Draft :=
  match draft.tables with
  | [] => (putNew key value draft.root).map fun root => ⟨root, []⟩
  | (name, members) :: rest =>
    (putNew key value members).map fun members => ⟨draft.root, (name, members) :: rest⟩

/-- Begins a table of a list whose name is no key before the headers. -/
def Draft.begin (draft : Draft) (name : String) : Option Draft :=
  if (draft.root.lookup name).isSome then none
  else some ⟨draft.root, (name, []) :: draft.tables⟩

/-- The tables of one list in their order. -/
def Draft.list (draft : Draft) (name : String) : Json :=
  .array ((draft.tables.reverse.filter fun table => table.1 = name).map fun table =>
    .object table.2.reverse)

def Draft.toJson (draft : Draft) : Json :=
  let names := (draft.tables.map Prod.fst).eraseDups
  .object (draft.root.reverse ++ names.map fun name => (name, draft.list name))

def wordValue? (word : List Char) : Option Json :=
  if word = ['t', 'r', 'u', 'e'] then some (.bool true)
  else if word = ['f', 'a', 'l', 's', 'e'] then some (.bool false)
  else if isMoment word || isFloat word then some .unreadable
  else (integer? word).map Json.integer

def Token.scalar? : Token → Option Json
  | .text value _ => some (.string value)
  | .word letters => wordValue? letters
  | _ => none

def isKeyChar (c : Char) : Bool :=
  c.isAlphanum || c = '_' || c = '-'

def Token.key? : Token → Option String
  | .text value false => some value
  | .word letters => if letters.all isKeyChar then some (String.ofList letters) else none
  | _ => none

/-- A piece of a dotted key. -/
inductive KeyPart where
  | name (text : String)
  | point

/-- The names in a word and the points between them. The name so far is in reverse. -/
def wordParts (name : List Char) : List Char → List KeyPart
  | [] => if name.isEmpty then [] else [.name (String.ofList name.reverse)]
  | c :: rest =>
    if c ≠ '.' then wordParts (c :: name) rest
    else if name.isEmpty then .point :: wordParts [] rest
    else .name (String.ofList name.reverse) :: .point :: wordParts [] rest

def Token.keyParts? : Token → Option (List KeyPart)
  | .text value false => some [.name value]
  | .word letters =>
    if letters.all fun c => isKeyChar c || c = '.' then some (wordParts [] letters) else none
  | _ => none

/-- Continues a key, in which names and points take turns. The answer says whether a name is due
next. -/
def extendKey? : (key : List String) → (nameDue : Bool) → List KeyPart → Option (List String × Bool)
  | key, nameDue, [] => if key.length ≤ nestingLimit then some (key, nameDue) else none
  | key, true, .name text :: rest => extendKey? (key ++ [text]) false rest
  | key, false, .point :: rest => extendKey? key true rest
  | _, _, _ => none

/-- Whether one key begins with the other: they cannot both have values. -/
def overlap (a b : List String) : Bool :=
  a.isPrefixOf b || b.isPrefixOf a

def inlineTable (members : List (List String × Json)) : Json :=
  let plain := members.mapM fun (key, value) =>
    match key with
    | [name] => some (name, value)
    | _ => none
  (plain.map Json.object).getD .unreadable

/-- The state of the reader: what has been read and where it stands. -/
structure Reading where
  draft : Draft
  place : Place

def Reading.finish (draft : Draft) (key : String) (value : Json) :
    List Container → Option Reading
  | [] => (draft.put key value).map fun draft => ⟨draft, .lineEnd⟩
  | .items done :: outer => some ⟨draft, .value key .separator (.items (value :: done) :: outer)⟩
  | .members done path :: outer =>
    if done.any fun member => overlap member.1 path then none
    else some ⟨draft, .value key .separator (.members ((path, value) :: done) [] :: outer)⟩

def Reading.openContainer (draft : Draft) (key : String) (due : Due)
    (containers : List Container) : Option Reading :=
  if containers.length ≤ nestingLimit then some ⟨draft, .value key due containers⟩ else none

/-- Begins a value: a container opens, or a scalar is complete at once. -/
def Reading.begin (draft : Draft) (key : String) (containers : List Container) :
    Token → Option Reading
  | .openBracket => Reading.openContainer draft key .valueOrEnd (.items [] :: containers)
  | .openBrace => Reading.openContainer draft key .nameOrEnd (.members [] [] :: containers)
  | token => token.scalar?.bind fun value => Reading.finish draft key value containers

def close? : Token → List Container → Option (Json × List Container)
  | .closeBracket, .items done :: outer => some (.array done.reverse, outer)
  | .closeBrace, .members done _ :: outer => some (inlineTable done.reverse, outer)
  | _, _ => none

/-- Takes in a part of the key of the next member of the innermost inline table. -/
def Reading.continueKey (draft : Draft) (key : String) (nameDue : Bool) :
    List Container → Token → Option Reading
  | .members done path :: outer, token => do
    let parts ← token.keyParts?
    let (path, nameDue) ← extendKey? path nameDue parts
    let due := if nameDue then Due.name else Due.equals
    some ⟨draft, .value key due (.members done path :: outer)⟩
  | _, _ => none

/-- Goes on after a comma. An array may end with one. -/
def Reading.afterComma (draft : Draft) (key : String) : List Container → Reading
  | .items done :: outer => ⟨draft, .value key .valueOrEnd (.items done :: outer)⟩
  | containers => ⟨draft, .value key .name containers⟩

/-- Whether lines may end here: only inside an array, and not where a value has to follow. -/
def allowsNewline : Due → List Container → Bool
  | .valueOrEnd, .items _ :: _ => true
  | .separator, .items _ :: _ => true
  | _, _ => false

def Reading.inValue (draft : Draft) (key : String) (due : Due) (containers : List Container)
    (token : Token) : Option Reading :=
  if token = .newline && allowsNewline due containers then
    some ⟨draft, .value key due containers⟩
  else match due with
    | .value => Reading.begin draft key containers token
    | .name => Reading.continueKey draft key true containers token
    | .equals =>
      if token = .equals then some ⟨draft, .value key .value containers⟩
      else Reading.continueKey draft key false containers token
    | .valueOrEnd =>
      match close? token containers with
      | some (value, outer) => Reading.finish draft key value outer
      | none => Reading.begin draft key containers token
    | .nameOrEnd =>
      match close? token containers with
      | some (value, outer) => Reading.finish draft key value outer
      | none => Reading.continueKey draft key true containers token
    | .separator =>
      match close? token containers with
      | some (value, outer) => Reading.finish draft key value outer
      | none => if token = .comma then some (Reading.afterComma draft key containers) else none

/-- Takes in a token that is no white space. -/
def Reading.take (reading : Reading) (token : Token) : Option Reading :=
  let draft := reading.draft
  match reading.place with
  | .lineStart =>
    if token = .newline then some reading
    else if token = .openBracket then some ⟨draft, .secondBracket⟩
    else token.key?.map fun key => ⟨draft, .equals key⟩
  | .equals key => if token = .equals then some ⟨draft, .value key .value []⟩ else none
  | .value key due containers => Reading.inValue draft key due containers token
  | .lineEnd => if token = .newline then some ⟨draft, .lineStart⟩ else none
  | .secondBracket => if token = .openBracket then some ⟨draft, .headerKey⟩ else none
  | .headerKey => token.key?.map fun name => ⟨draft, .headerEnd name⟩
  | .headerEnd name => if token = .closeBracket then some ⟨draft, .secondEnd name⟩ else none
  | .secondEnd name =>
    if token = .closeBracket then (draft.begin name).map fun draft => ⟨draft, .lineEnd⟩ else none

/-- Takes in one token. White space counts only between the brackets of a header, where there is
none. -/
def Reading.step (reading : Reading) (token : Token) : Option Reading :=
  if token = .blank then
    match reading.place with
    | .secondBracket => none
    | .secondEnd _ => none
    | _ => some reading
  else reading.take token

def parse? (text : String) : Option Json := do
  let reading ← (tokens text.toList).foldlM Reading.step ⟨⟨[], []⟩, .lineStart⟩
  match reading.place with
  | .lineStart => some reading.draft.toJson
  | .lineEnd => some reading.draft.toJson
  | _ => none

end Toml
end Amm
