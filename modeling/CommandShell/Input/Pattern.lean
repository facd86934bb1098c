/-
Patterns, matched by ordered choice.

A pattern lists its matches at the front of some bytes in order of preference: the first
alternative before the second, and more repetitions before fewer.  The first match in
the list is the one that a search which tries the alternatives in order, repeats as often
as it can and steps back where it fails comes to first.

The line rule and the token rule have a pattern each, and with it a second definition, as
a search.  It says nothing about how to find the match without stepping back; that is what
`Line.scan` and `Token.ofFront?` are for.

A match does not tell which alternative it came from, and of a token that is its kind.  So
the alternatives of the token rule are kept apart in a list, `Token.rules`, each with what
it makes of its match.
-/
import CommandShell.Input.Line
import CommandShell.Input.Token

namespace CommandShell

/-- A pattern over bytes. -/
inductive Pattern
  /-- One byte of a class. -/
  | byte (accepts : UInt8 → Bool)
  /-- One pattern after another. -/
  | seq (first second : Pattern)
  /-- One pattern or, failing that, another. -/
  | choice (first second : Pattern)
  /-- A pattern as often as it can be repeated. -/
  | many (item : Pattern)
  /-- A pattern whose place is remembered. -/
  | group (inner : Pattern)
  /-- The end of the bytes. -/
  | ending

/-- One way in which a pattern matches at the front of some bytes. -/
structure Way where
  /-- How many bytes are matched. -/
  length : Nat
  /-- The remembered places, in order. -/
  groups : List Extent := []
  deriving DecidableEq, Repr

namespace Way

/-- One way after another. -/
def andThen (first second : Way) : Way where
  length := first.length + second.length
  groups := first.groups ++
    second.groups.map fun e => ⟨first.length + e.start, first.length + e.stop⟩

/-- A way whose place is remembered. -/
def remembered (w : Way) : Way where
  length := w.length
  groups := ⟨0, w.length⟩ :: w.groups

end Way

namespace Pattern

/-- The ways to repeat something as often as possible, given the ways it matches once. -/
def repeatWays (once : Bytes → List Way) (s : Bytes) : List Way :=
  ((once s).flatMap fun w =>
    if _h : 0 < w.length ∧ w.length ≤ s.length then
      (repeatWays once (s.drop w.length)).map w.andThen
    else []) ++ [⟨0, []⟩]
termination_by s.length
decreasing_by
  simp only [List.length_drop]
  omega

/-- The ways in which a pattern matches at the front of some bytes, the preferred first. -/
def ways : Pattern → Bytes → List Way
  | byte accepts, s =>
    match s with
    | [] => []
    | b :: _ => if accepts b then [⟨1, []⟩] else []
  | seq first second, s =>
    (first.ways s).flatMap fun w => (second.ways (s.drop w.length)).map w.andThen
  | choice first second, s => first.ways s ++ second.ways s
  | many item, s => repeatWays item.ways s
  | group inner, s => (inner.ways s).map Way.remembered
  | ending, s => if s.isEmpty then [⟨0, []⟩] else []

/-- One given byte. -/
def exactly (b : UInt8) : Pattern :=
  byte (· == b)

/-- Any byte. -/
def any : Pattern :=
  byte fun _ => true

/-- The first of some patterns that matches; none of no patterns does. -/
def oneOf : List Pattern → Pattern
  | [] => byte fun _ => false
  | p :: ps => choice p (oneOf ps)

end Pattern

namespace Line

open Pattern

/-- What stands between two quotes, taken one by one. -/
def contentPattern (q : Quote) : Pattern :=
  choice (byte fun b => b != q.byte && b != Byte.backslash) (seq (exactly Byte.backslash) any)

/-- A closed quoted span. -/
def quotedPattern (q : Quote) : Pattern :=
  seq (exactly q.byte) (seq (many (contentPattern q)) (exactly q.byte))

/-- A byte and everything through the next newline. -/
def throughNewlinePattern (b : UInt8) : Pattern :=
  seq (exactly b) (seq (many (byte (· != Byte.newline))) (exactly Byte.newline))

/-- What a line is made of: spans, and bytes that are no terminator. -/
def itemPattern : Pattern :=
  choice (quotedPattern .double)
    (choice (quotedPattern .single)
      (choice (throughNewlinePattern Byte.hash)
        (choice (throughNewlinePattern Byte.backslash)
          (byte fun b => !Byte.isTerminator b))))

/-- Blanks, the line, and a terminator. -/
def pattern : Pattern :=
  seq (many (byte Byte.isBlank)) (seq (group (many itemPattern)) (byte Byte.isTerminator))

/-- Cuts the first line off a buffer at the first match of the pattern. -/
def cutByPattern (raw : Bytes) : Bytes × Bytes :=
  match pattern.ways raw with
  | [] => ([], raw)
  | w :: _ =>
    match w.groups with
    | [] => ([], raw.drop w.length)
    | line :: _ => (line.cut raw, raw.drop w.length)

end Line

namespace Token

open Pattern

/-- An alternative of the token rule. -/
structure Rule where
  /-- What it matches, with the text of the token as its place. -/
  pattern : Pattern
  /-- The token it makes of the length of a match and of its text. -/
  token : Nat → Bytes → Token

namespace Rule

/-- A quoted span. -/
def ofQuote (q : Quote) : Rule where
  pattern := seq (exactly q.byte) (seq (group (many (Line.contentPattern q))) (exactly q.byte))
  token _ text := quoted q text

/-- A comment, through its newline or to the end. -/
def ofComment : Rule where
  pattern := seq (exactly Byte.hash)
    (seq (group (many (byte (· != Byte.newline)))) (choice (exactly Byte.newline) ending))
  token length text := comment text (text.length + 1 < length)

/-- A byte that is a token by itself. -/
def ofByte (b : UInt8) (t : Token) : Rule where
  pattern := group (exactly b)
  token _ _ := t

/-- One or more bytes of a class. -/
def ofRun (accepts : UInt8 → Bool) (make : Bytes → Token) : Rule where
  pattern := group (seq (byte accepts) (many (byte accepts)))
  token _ text := make text

/-- The token that an alternative finds at the front of some bytes, and what follows it. -/
def find? (rule : Rule) (s : Bytes) : Option (Token × Bytes) :=
  (rule.pattern.ways s).head?.map fun w =>
    (rule.token w.length ((w.groups.head?.map fun e => e.cut s).getD []), s.drop w.length)

end Rule

/-- The alternatives of the token rule, in order. -/
def rules : List Rule :=
  [.ofQuote .double, .ofQuote .single, .ofComment, .ofByte Byte.backslash continuation,
    .ofByte Byte.semicolon semicolon, .ofByte Byte.newline newline, .ofRun isWordByte word,
    .ofRun Byte.isBlank blanks]

/-- One token. -/
def pattern : Pattern :=
  oneOf (rules.map Rule.pattern)

/-- The token of the first alternative that matches. -/
def ofMatch? (s : Bytes) : Option (Token × Bytes) :=
  rules.findSome? fun rule => rule.find? s

end Token

end CommandShell
