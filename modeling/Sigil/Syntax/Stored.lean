import Sigil.Syntax.Node

/-!
# Stored trees

A tree is stored as JSON: every node is an object whose field `type` names the kind of node, and an
absent tree is `null`. Reading is lenient where it can be: unknown fields are ignored, optional
fields may be missing, and wherever a list is asked for the characters of a string or the names of
an object's fields will do, as far as they are what the list has to hold.

`Node.toJson` and `Node.ofJson` are the two directions.
-/

namespace Sigil

/-- Why a JSON value is not a stored tree. -/
inductive StoredError where
  /-- A field that is needed is missing. -/
  | missing (field : String)
  /-- The value is neither an object nor `null`. -/
  | notATree
  /-- No kind of node has this name. -/
  | unknownKind (kind : Json)
  /-- The value stands for a list but has no elements to go through. -/
  | notAList
  /-- A branch or an arm is not an object. -/
  | notABranch
  /-- An entry of an object literal is not a pair. -/
  | notAPair
  /-- A name is not a string. -/
  | notAName
  deriving Repr

namespace Node

/-! ### From trees to JSON -/

/-- The JSON form of a node of the given kind. -/
def tagged (kind : String) (fields : List (String × Json)) : Json :=
  .obj (("type", .str kind) :: fields)

/-- The JSON form of a name that may be missing. -/
def optionalName (name : Option String) : Json :=
  name.elim .null .str

/-- The JSON form of a list of names. -/
def namesJson (names : List String) : Json :=
  .arr (names.map .str)

mutual

/-- The JSON form of a tree. -/
def toJson : Node → Json
  | .absent => .null
  | .program body => tagged "Program" [("body", .arr (listToJson body))]
  | .literal value kind => tagged "Literal" [("value", value), ("kind", kind)]
  | .array elements => tagged "ArrayLit" [("elements", .arr (listToJson elements))]
  | .object entries => tagged "ObjectLit" [("entries", .arr (entriesToJson entries))]
  | .template parts => tagged "Template" [("parts", .arr (partsToJson parts))]
  | .ident name => tagged "Ident" [("name", .str name)]
  | .varDecl name value isMutable =>
    tagged "VarDecl" [("name", .str name), ("expr", toJson value), ("mutable", .bool isMutable)]
  | .assign name value => tagged "Assign" [("name", .str name), ("value", toJson value)]
  | .member target name => tagged "MemberAccess" [("target", toJson target), ("name", .str name)]
  | .index target position =>
    tagged "Index" [("target", toJson target), ("index", toJson position)]
  | .spaceMember space name =>
    tagged "NamespaceAccess" [("namespace", .str space), ("member", .str name)]
  | .call callee args =>
    tagged "Call" [("func", toJson callee), ("args", .arr (listToJson args))]
  | .block statements => tagged "Block" [("statements", .arr (listToJson statements))]
  | .functionDecl name params body =>
    tagged "FunctionDecl"
      [("name", .str name), ("params", namesJson params), ("body", toJson body)]
  | .functionExpr name params body =>
    tagged "FunctionExpr"
      [("name", optionalName name), ("params", namesJson params), ("body", toJson body)]
  | .spaceDecl name members =>
    tagged "NamespaceDecl" [("name", .str name), ("members", .arr (listToJson members))]
  | .conditional branches otherwise =>
    tagged "If"
      [("branches", .arr (pairsToJson "condition" branches)), ("else_body", toJson otherwise)]
  | .selection subject arms otherwise =>
    tagged "Match"
      [("subject", toJson subject), ("arms", .arr (pairsToJson "pattern" arms)),
        ("default", toJson otherwise)]
  | .countLoop counter count body =>
    tagged "For" [("var", optionalName counter), ("count", toJson count), ("body", toJson body)]
  | .eachLoop item collection body =>
    tagged "ForOf" [("var", .str item), ("collection", toJson collection), ("body", toJson body)]
  | .ret value => tagged "Return" [("value", toJson value)]
  | .output value => tagged "Print" [("expr", toJson value)]
  | .binary op left right =>
    tagged "BinaryOp" [("op", .str op), ("left", toJson left), ("right", toJson right)]

/-- The JSON forms of a list of trees. -/
def listToJson : List Node → List Json
  | [] => []
  | n :: ns => toJson n :: listToJson ns

/-- The JSON forms of the entries of an object literal: pairs of key and value. -/
def entriesToJson : List (String × Node) → List Json
  | [] => []
  | (key, value) :: rest => .arr [.str key, toJson value] :: entriesToJson rest

/-- The JSON forms of the parts of a template: literal text is a string. -/
def partsToJson : List (String ⊕ Node) → List Json
  | [] => []
  | .inl text :: rest => .str text :: partsToJson rest
  | .inr expr :: rest => toJson expr :: partsToJson rest

/-- The JSON forms of branches or arms: objects with the field `first` and the body. -/
def pairsToJson (first : String) : List (Node × Node) → List Json
  | [] => []
  | (guard, body) :: rest =>
    .obj [(first, toJson guard), ("body", toJson body)] :: pairsToJson first rest

end

/-! ### From JSON to trees -/

/-- A field that has to be there. -/
def needed (fields : List (String × Json)) (name : String) : Except StoredError Json :=
  match Json.field? fields name with
  | some value => .ok value
  | none => .error (.missing name)

/-- A name. -/
def nameOfJson : Json → Except StoredError String
  | .str s => .ok s
  | _ => .error .notAName

/-- A field that holds a name. -/
def nameField (fields : List (String × Json)) (name : String) : Except StoredError String := do
  nameOfJson (← needed fields name)

/-- A field that holds a name or may be missing. -/
def optionalNameField (fields : List (String × Json)) (name : String) :
    Except StoredError (Option String) :=
  match Json.field? fields name with
  | none | some .null => .ok none
  | some value => return some (← nameOfJson value)

/-- A field that holds a list of names. -/
def namesField (fields : List (String × Json)) (name : String) :
    Except StoredError (List String) := do
  match ← needed fields name with
  | .arr items => items.mapM nameOfJson
  | .str s => return s.toList.map fun c => String.singleton c
  | .obj inner => return inner.map Prod.fst
  | _ => throw .notAList

/-- What a list of trees is when it is given by the characters of a string or the names of fields:
those are strings and no trees, so only the empty list is possible. -/
def listOfNames (isEmpty : Bool) : Except StoredError (List Node) :=
  if isEmpty then .ok [] else .error .notATree

/-- The parts of a template given by strings: each string is literal text. -/
def partsOfNames (names : List String) : List (String ⊕ Node) :=
  names.map .inl

/-- The entries of an object literal given by strings: a string of two characters is a pair, but its
second character is no tree. -/
def entriesOfNames : List String → Except StoredError (List (String × Node))
  | [] => .ok []
  | name :: _ => .error (if name.length = 2 then .notATree else .notAPair)

mutual

/-- The tree that a JSON value stores. -/
def ofJson : Json → Except StoredError Node
  | .null => .ok .absent
  | .obj fields =>
    match Json.field? fields "type" with
    | some (.str kind) =>
      match kind with
      | "Program" => return .program (← listField fields "body")
      | "Literal" =>
        return .literal ((Json.field? fields "value").getD .null) (← needed fields "kind")
      | "ArrayLit" => return .array (← listField fields "elements")
      | "ObjectLit" => return .object (← entriesField fields "entries")
      | "Template" => return .template (← partsField fields "parts")
      | "Ident" => return .ident (← nameField fields "name")
      | "VarDecl" =>
        return .varDecl (← nameField fields "name") (← treeField fields "expr")
          ((Json.field? fields "mutable").elim false Json.truthy)
      | "Assign" => return .assign (← nameField fields "name") (← treeField fields "value")
      | "MemberAccess" => return .member (← treeField fields "target") (← nameField fields "name")
      | "Index" => return .index (← treeField fields "target") (← treeField fields "index")
      | "NamespaceAccess" =>
        return .spaceMember (← nameField fields "namespace") (← nameField fields "member")
      | "Call" => return .call (← treeField fields "func") (← listField fields "args")
      | "Block" => return .block (← listField fields "statements")
      | "FunctionDecl" =>
        return .functionDecl (← nameField fields "name") (← namesField fields "params")
          (← treeField fields "body")
      | "FunctionExpr" => do
        let params ← namesField fields "params"
        let body ← treeField fields "body"
        return .functionExpr (← optionalNameField fields "name") params body
      | "NamespaceDecl" =>
        return .spaceDecl (← nameField fields "name") (← listField fields "members")
      | "If" =>
        return .conditional (← pairsField fields "branches" "condition")
          (← optionalTreeField fields "else_body")
      | "Match" =>
        return .selection (← treeField fields "subject") (← pairsField fields "arms" "pattern")
          (← optionalTreeField fields "default")
      | "For" =>
        return .countLoop (← optionalNameField fields "var") (← treeField fields "count")
          (← treeField fields "body")
      | "ForOf" =>
        return .eachLoop (← nameField fields "var") (← treeField fields "collection")
          (← treeField fields "body")
      | "Return" => return .ret (← treeField fields "value")
      | "Print" => return .output (← treeField fields "expr")
      | "BinaryOp" =>
        return .binary (← nameField fields "op") (← treeField fields "left")
          (← treeField fields "right")
      | other => throw (.unknownKind (.str other))
    | other => throw (.unknownKind (other.getD .null))
  | _ => .error .notATree

/-- The tree in a field that has to be there. -/
def treeField (fields : List (String × Json)) (name : String) : Except StoredError Node :=
  match fields with
  | [] => .error (.missing name)
  | (key, value) :: rest => if key = name then ofJson value else treeField rest name

/-- The tree in a field that may be missing. -/
def optionalTreeField (fields : List (String × Json)) (name : String) : Except StoredError Node :=
  match fields with
  | [] => .ok .absent
  | (key, value) :: rest => if key = name then ofJson value else optionalTreeField rest name

/-- The trees in a field that holds a list. -/
def listField (fields : List (String × Json)) (name : String) : Except StoredError (List Node) :=
  match fields with
  | [] => .error (.missing name)
  | (key, value) :: rest => if key = name then listOfJson value else listField rest name

/-- The entries in a field that holds those of an object literal. -/
def entriesField (fields : List (String × Json)) (name : String) :
    Except StoredError (List (String × Node)) :=
  match fields with
  | [] => .error (.missing name)
  | (key, value) :: rest => if key = name then entriesOfJson value else entriesField rest name

/-- The parts in a field that holds those of a template. -/
def partsField (fields : List (String × Json)) (name : String) :
    Except StoredError (List (String ⊕ Node)) :=
  match fields with
  | [] => .error (.missing name)
  | (key, value) :: rest => if key = name then partsOfJson value else partsField rest name

/-- The branches or arms in a field; `first` is the name of their first field. -/
def pairsField (fields : List (String × Json)) (name first : String) :
    Except StoredError (List (Node × Node)) :=
  match fields with
  | [] => .error (.missing name)
  | (key, value) :: rest =>
    if key = name then pairsOfJson value first else pairsField rest name first

/-- A list of trees. -/
def listOfJson : Json → Except StoredError (List Node)
  | .arr items => listOfItems items
  | .str s => listOfNames (s == "")
  | .obj fields => listOfNames fields.isEmpty
  | _ => .error .notAList

/-- The trees of the items of a list. -/
def listOfItems : List Json → Except StoredError (List Node)
  | [] => .ok []
  | item :: items => return (← ofJson item) :: (← listOfItems items)

/-- The entries of an object literal. -/
def entriesOfJson : Json → Except StoredError (List (String × Node))
  | .arr items => entriesOfItems items
  | .str s => entriesOfNames (s.toList.map fun c => String.singleton c)
  | .obj fields => entriesOfNames (fields.map Prod.fst)
  | _ => .error .notAList

/-- The entries of the items of a list. -/
def entriesOfItems : List Json → Except StoredError (List (String × Node))
  | [] => .ok []
  | .arr [key, value] :: items => do
    let value ← ofJson value
    return (← nameOfJson key, value) :: (← entriesOfItems items)
  | .arr _ :: _ => .error .notAPair
  | .str s :: _ => .error (if s.length = 2 then .notATree else .notAPair)
  | .obj fields :: _ => .error (if fields.length = 2 then .notATree else .notAPair)
  | _ :: _ => .error .notAList

/-- The parts of a template. -/
def partsOfJson : Json → Except StoredError (List (String ⊕ Node))
  | .arr items => partsOfItems items
  | .str s => .ok (partsOfNames (s.toList.map fun c => String.singleton c))
  | .obj fields => .ok (partsOfNames (fields.map Prod.fst))
  | _ => .error .notAList

/-- The parts of the items of a list. -/
def partsOfItems : List Json → Except StoredError (List (String ⊕ Node))
  | [] => .ok []
  | .str text :: items => return .inl text :: (← partsOfItems items)
  | item :: items => return .inr (← ofJson item) :: (← partsOfItems items)

/-- Branches or arms. -/
def pairsOfJson (j : Json) (first : String) : Except StoredError (List (Node × Node)) :=
  match j with
  | .arr items => pairsOfItems items first
  | .str s => if s == "" then .ok [] else .error .notABranch
  | .obj fields => if fields.isEmpty then .ok [] else .error .notABranch
  | _ => .error .notAList

/-- The branches or arms of the items of a list. -/
def pairsOfItems (items : List Json) (first : String) :
    Except StoredError (List (Node × Node)) :=
  match items with
  | [] => .ok []
  | .obj fields :: items => do
    let guard ← treeField fields first
    let body ← treeField fields "body"
    return (guard, body) :: (← pairsOfItems items first)
  | _ :: _ => .error .notABranch

end

end Node

end Sigil
