/-
Splitting a line into tokens.

Every byte of a line belongs to one token: quoted text, a comment, a backslash, a
separator, a word, or a run of blanks.  The first byte decides which, and the token
reaches as far as its kind allows.  The only byte that begins no token is a quote whose
span is not closed, and there the splitting stops.

`render` writes a token as it was read, so the tokens of a line and what was left over
are the line again.  A `Record` keeps what the tokens used up beside their texts.
-/
import CommandShell.Input.Quote

namespace CommandShell

/-- One piece of a line. -/
inductive Token
  /-- What stands between two quotes, escapes untouched. -/
  | quoted (quote : Quote) (content : Bytes)
  /-- A comment without its hash; `closed` says whether a newline ends it. -/
  | comment (body : Bytes) (closed : Bool)
  /-- A backslash outside quotes. -/
  | continuation
  /-- A semicolon. -/
  | semicolon
  /-- A newline. -/
  | newline
  /-- A run of bytes that are neither blanks nor quotes. -/
  | word (run : Bytes)
  /-- A run of blanks. -/
  | blanks (run : Bytes)
  deriving DecidableEq, Repr

namespace Token

/-- The bytes a token stands for: those between the quotes, those of a comment without
its hash and newline, and all of any other token. -/
def text : Token → Bytes
  | quoted _ content => content
  | comment body _ => body
  | continuation => [Byte.backslash]
  | semicolon => [Byte.semicolon]
  | newline => [Byte.newline]
  | word run => run
  | blanks run => run

/-- The bytes a token was read from. -/
def render : Token → Bytes
  | quoted q content => q.byte :: (content ++ [q.byte])
  | comment body closed => Byte.hash :: (body ++ if closed then [Byte.newline] else [])
  | continuation => [Byte.backslash]
  | semicolon => [Byte.semicolon]
  | newline => [Byte.newline]
  | word run => run
  | blanks run => run

/-- How many bytes of a token come before its text. -/
def lead : Token → Nat
  | quoted .. => 1
  | comment .. => 1
  | _ => 0

/-- Separators only keep the other tokens apart: everything but quoted text and words. -/
def isSeparator : Token → Bool
  | quoted .. => false
  | word _ => false
  | _ => true

/-- Where the text of a token lies that was read at `start`. -/
def extent (start : Nat) (t : Token) : Extent :=
  ⟨start + t.lead, start + t.lead + t.text.length⟩

/-- The bytes a word can go on with. -/
def isWordByte (b : UInt8) : Bool :=
  !Byte.isBlank b && (Quote.ofByte? b).isNone

/-- The token that `b` begins before `r`, and what follows it. -/
def ofFront? (b : UInt8) (r : Bytes) : Option (Token × Bytes) :=
  match Quote.ofByte? b with
  | some q => (q.close? r).map fun p => (quoted q p.1, p.2)
  | none =>
    if b = Byte.hash then
      match Bytes.splitFirst? Byte.newline r with
      | some (body, rest) => some (comment body true, rest)
      | none => some (comment r false, [])
    else if b = Byte.backslash then some (continuation, r)
    else if b = Byte.semicolon then some (semicolon, r)
    else if b = Byte.newline then some (newline, r)
    else if Byte.isBlank b then
      some (blanks (b :: r.takeWhile Byte.isBlank), r.dropWhile Byte.isBlank)
    else some (word (b :: r.takeWhile isWordByte), r.dropWhile isWordByte)

/-- A token is written as it was read. -/
theorem render_ofFront? {b : UInt8} {r rest : Bytes} {t : Token}
    (h : ofFront? b r = some (t, rest)) : t.render ++ rest = b :: r := by
  unfold ofFront? at h
  split at h
  · next q hq =>
    obtain ⟨p, hp, he⟩ := Option.map_eq_some_iff.mp h
    simp only [Prod.mk.injEq] at he
    obtain ⟨rfl, rfl⟩ := he
    rw [(Quote.content_of_close? (w := p.1) (r := p.2) hp).2, Quote.byte_of_ofByte? hq]
    simp [render]
  · split at h
    · next hb =>
      split at h
      · next body rest' hs =>
        simp only [Option.some.injEq, Prod.mk.injEq] at h
        obtain ⟨rfl, rfl⟩ := h
        rw [(Bytes.splitFirst?_append hs).1, hb]
        simp [render]
      · simp only [Option.some.injEq, Prod.mk.injEq] at h
        obtain ⟨rfl, rfl⟩ := h
        simp [render, hb]
    · split at h
      · next hb =>
        simp only [Option.some.injEq, Prod.mk.injEq] at h
        obtain ⟨rfl, rfl⟩ := h
        simp [render, hb]
      · split at h
        · next hb =>
          simp only [Option.some.injEq, Prod.mk.injEq] at h
          obtain ⟨rfl, rfl⟩ := h
          simp [render, hb]
        · split at h
          · next hb =>
            simp only [Option.some.injEq, Prod.mk.injEq] at h
            obtain ⟨rfl, rfl⟩ := h
            simp [render, hb]
          · split at h <;>
              simp only [Option.some.injEq, Prod.mk.injEq] at h <;>
              obtain ⟨rfl, rfl⟩ := h <;>
              simp [render]

/-- Every token uses up at least the byte it begins with. -/
theorem ofFront?_length_le {b : UInt8} {r rest : Bytes} {t : Token}
    (h : ofFront? b r = some (t, rest)) : rest.length ≤ r.length := by
  have drop (p : UInt8 → Bool) : (r.dropWhile p).length ≤ r.length :=
    (List.dropWhile_suffix p).length_le
  unfold ofFront? at h
  split at h
  · obtain ⟨p, hp, he⟩ := Option.map_eq_some_iff.mp h
    simp only [Prod.mk.injEq] at he
    have hl := Quote.close?_length (w := p.1) (r := p.2) hp
    rw [← he.2]
    omega
  · split at h
    · split at h
      · next body rest' hs =>
        simp only [Option.some.injEq, Prod.mk.injEq] at h
        rw [(Bytes.splitFirst?_append hs).1, ← h.2, List.length_append, List.length_cons]
        omega
      · simp only [Option.some.injEq, Prod.mk.injEq] at h
        simp [← h.2]
    · repeat' split at h
      · cases h; exact Nat.le_refl _
      · cases h; exact Nat.le_refl _
      · cases h; exact Nat.le_refl _
      · cases h; exact drop _
      · cases h; exact drop _

end Token

/-! ### The tokens of a line -/

/-- The tokens of some bytes, and what is left where no token begins. -/
def tokens : Bytes → List Token × Bytes
  | [] => ([], [])
  | b :: r =>
    match _h : Token.ofFront? b r with
    | some (t, rest) => (t :: (tokens rest).1, (tokens rest).2)
    | none => ([], b :: r)
termination_by s => s.length
decreasing_by all_goals exact Nat.lt_succ_of_le (Token.ofFront?_length_le _h)

/-- The bytes that tokens were read from, one after the other. -/
def renderAll (ts : List Token) : Bytes :=
  ts.flatMap Token.render

/-- The tokens of a line and what is left are the line. -/
theorem renderAll_tokens (s : Bytes) : renderAll (tokens s).1 ++ (tokens s).2 = s := by
  fun_induction tokens s with
  | case1 => rfl
  | case2 b r t rest h ih =>
    rw [renderAll, List.flatMap_cons, List.append_assoc]
    rw [renderAll] at ih
    rw [ih, Token.render_ofFront? h]
  | case3 => rfl

/-! ### Records -/

/-- A piece of input that was taken out of the stream as one. -/
structure Record where
  /-- The bytes as they came. -/
  raw : Bytes
  /-- The texts of its tokens; none if the piece was not split. -/
  tokens : List Bytes := []
  deriving DecidableEq, Repr

/-- The tokens that are counted when separators are dropped, or all of them. -/
def Token.counted (keepSeparators : Bool) (ts : List Token) : List Token :=
  ts.filter fun t => keepSeparators || !t.isSeparator

/-- Splits some bytes into a record of the part that could be split, and what is left. -/
def Record.ofBytes (keepSeparators : Bool) (s : Bytes) : Record × Bytes :=
  (⟨renderAll (CommandShell.tokens s).1,
    (Token.counted keepSeparators (CommandShell.tokens s).1).map Token.text⟩,
   (CommandShell.tokens s).2)

end CommandShell
