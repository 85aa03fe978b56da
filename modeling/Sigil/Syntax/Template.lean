/-!
# Templates

The body of a template is literal text with expressions in braces. A backslash in the literal text
stands for the character after it. Where an expression ends is found by counting braces; braces
inside quoted texts do not count.
-/

namespace Sigil

/-- A piece of a template: literal text, or the text of an expression. -/
inductive Segment where
  /-- Literal text. -/
  | text (s : List Char)
  /-- The text of an embedded expression. -/
  | expr (s : List Char)
  deriving DecidableEq, Repr

/-- What a scan for the end of an expression is inside of. -/
inductive Scan where
  /-- Braces open around the current place, beyond the outermost. -/
  | code (depth : Nat)
  /-- A quoted text, inside so many braces. -/
  | quoted (depth : Nat)

namespace Segment

/-- The text of an expression up to the brace that closes it, and what follows that brace. -/
def takeExpr? : Scan → List Char → Option (List Char × List Char)
  | _, [] => none
  | .code depth, c :: rest =>
    if c = '\x7d' then
      match depth with
      | 0 => some ([], rest)
      | depth + 1 => add c (takeExpr? (.code depth) rest)
    else if c = '\x7b' then add c (takeExpr? (.code (depth + 1)) rest)
    else if c = '"' then add c (takeExpr? (.quoted depth) rest)
    else add c (takeExpr? (.code depth) rest)
  | .quoted depth, '\\' :: c :: rest =>
    add '\\' (add c (takeExpr? (.quoted depth) rest))
  | .quoted depth, c :: rest =>
    if c = '"' then add c (takeExpr? (.code depth) rest)
    else add c (takeExpr? (.quoted depth) rest)
where
  /-- Puts a character in front of the expression. -/
  add (c : Char) : Option (List Char × List Char) → Option (List Char × List Char) :=
    Option.map fun (inner, rest) => (c :: inner, rest)

/-- What follows an expression is shorter than what it was found in. -/
theorem length_of_takeExpr? {scan : Scan} {cs inner rest : List Char}
    (h : takeExpr? scan cs = some (inner, rest)) : rest.length < cs.length := by
  fun_induction takeExpr? scan cs generalizing inner with
  | case1 => simp at h
  | case2 => simp_all
  | _ => simp_all [takeExpr?.add]; grind

/-- Literal text as a segment, none if it is empty. The characters come last first. -/
def flush (text : List Char) : List Segment :=
  if text.isEmpty then [] else [.text text.reverse]

/-- The segments of a template body, or nothing if an expression is not closed. `text` is the
literal text read so far, last character first. -/
def scan? (text : List Char) (body : List Char) : Option (List Segment) :=
  match body with
  | [] => some (flush text)
  | '\\' :: c :: rest => scan? (c :: text) rest
  | c :: rest =>
    if c = '\x7b' then
      match h : takeExpr? (.code 0) rest with
      | none => none
      | some (inner, more) =>
        have := length_of_takeExpr? h
        (scan? [] more).map fun segments => flush text ++ .expr inner :: segments
    else scan? (c :: text) rest
termination_by body.length

/-- The segments of a template body, or nothing if an expression is not closed. -/
def split? (body : List Char) : Option (List Segment) :=
  scan? [] body

end Segment

/-- The characters that a quoted text stands for: a backslash stands for the character after it. -/
def unescape : List Char → List Char
  | '\\' :: c :: rest => c :: unescape rest
  | c :: rest => c :: unescape rest
  | [] => []

end Sigil
