/-
The token rule is the first match of its pattern.

`Token.ofFront?` looks at one byte to know what begins there, and `Token.ofMatch?` tries the
alternatives of `Token.pattern` in order.  `ofMatch?_cons` says that they find the same token, so
the tokens of a line are first matches one behind the other (`tokens_eq_ofMatch?`).

Most bytes can begin one alternative only.  A hash, a backslash and a semicolon could begin a word
too, and a newline a run of blanks; there the order decides, and what is for that byte alone comes
first.  A quote can begin nothing but a span, so where the span stays open there is no token.

Within an alternative there is little to search for.  A run of bytes of a class is taken as far as
it goes (`head?_ways_many_byte`), and what has to come behind it does come there, so none of it is
given back (`head?_ways_seq`).  Up to a closing quote there is one way at most, as in a line.
-/
import CommandShell.Proofs.Matching

namespace CommandShell

/-! ### First ways -/

namespace Pattern

/-- If what comes next matches behind the first way, that is the first way of both. -/
theorem head?_ways_seq {first second : Pattern} {s : Bytes} {w v : Way}
    (hw : (first.ways s).head? = some w)
    (hv : (second.ways (s.drop w.length)).head? = some v) :
    ((seq first second).ways s).head? = some (w.andThen v) := by
  obtain ⟨ws, hws⟩ := List.head?_eq_some_iff.mp hw
  obtain ⟨vs, hvs⟩ := List.head?_eq_some_iff.mp hv
  show ((first.ways s).flatMap _).head? = _
  rw [hws, List.flatMap_cons, hvs]
  rfl

theorem head?_ways_group (inner : Pattern) (s : Bytes) :
    ((group inner).ways s).head? = (inner.ways s).head?.map Way.remembered :=
  List.head?_map

/-- **A run is taken as far as it goes.** -/
theorem head?_ways_many_byte (accepts : UInt8 → Bool) (s : Bytes) :
    ((many (byte accepts)).ways s).head? = some ⟨(s.takeWhile accepts).length, []⟩ := by
  induction s with
  | nil =>
      show (repeatWays (byte accepts).ways []).head? = _
      rw [repeatWays]
      rfl
  | cons b r ih =>
      have hrest : (repeatWays (byte accepts).ways r).head? = _ := ih
      show (repeatWays (byte accepts).ways (b :: r)).head? = _
      rw [repeatWays, ways_byte_cons]
      by_cases hb : accepts b = true
      · simp [hb, hrest, Way.andThen, Nat.add_comm]
      · simp [hb]

/-- One of some patterns matches as the first that does. -/
theorem head?_ways_oneOf (ps : List Pattern) (s : Bytes) :
    ((oneOf ps).ways s).head? = ps.findSome? fun p => (p.ways s).head? := by
  induction ps with
  | nil => cases s <;> rfl
  | cons p ps ih =>
      rw [oneOf, ways_choice, List.head?_append, ih, List.findSome?_cons]
      cases (p.ways s).head? <;> rfl

end Pattern

open Pattern

/-! ### What the alternatives find -/

namespace Token

namespace Rule

theorem find?_ofQuote (q : Quote) (b : UInt8) (r : Bytes) :
    (ofQuote q).find? (b :: r)
      = if b = q.byte then (q.close? r).map fun p => (quoted q p.1, p.2) else none := by
  have hspan : (seq (group (many (Line.contentPattern q))) (exactly q.byte)).ways r
      = (Line.wayTo ((q.close? r).map fun p => p.1.length + 1)).map fun w =>
          ⟨w.length, ⟨0, w.length - 1⟩ :: w.groups⟩ := by
    rw [← Line.ways_toQuote]
    exact ways_group_seq _ _ r
  unfold find? ofQuote
  simp only
  rw [ways_exactly_seq, hspan]
  by_cases hb : b = q.byte
  · rw [if_pos hb, if_pos hb]
    cases hc : q.close? r with
    | none => rfl
    | some p =>
        obtain ⟨content, rest⟩ := p
        obtain ⟨_, rfl⟩ := Quote.content_of_close? hc
        simp [Line.wayTo, Way.andThen, Extent.cut, Nat.add_comm 1]
  · rw [if_neg hb, if_neg hb]
    rfl

/-- The body of a comment takes all there is before a newline or the end, and either is taken behind
it. -/
theorem head?_ways_body {body tail : Bytes} {v : Way} (hbody : Byte.newline ∉ body)
    (hstop : tail.takeWhile (· != Byte.newline) = [])
    (hv : ((choice (exactly Byte.newline) ending).ways tail).head? = some v) :
    ((seq (group (many (byte (· != Byte.newline)))) (choice (exactly Byte.newline) ending)).ways
      (body ++ tail)).head? = some (Way.andThen ⟨body.length, [⟨0, body.length⟩]⟩ v) := by
  have hall : ∀ b ∈ body, (b != Byte.newline) = true := by
    intro b hb
    simpa using ne_of_mem_of_not_mem hb hbody
  have htake : (body ++ tail).takeWhile (· != Byte.newline) = body := by
    rw [List.takeWhile_append_of_pos hall, hstop, List.append_nil]
  apply head?_ways_seq
  · rw [head?_ways_group, head?_ways_many_byte, htake]
    rfl
  · rw [List.drop_left]
    exact hv

theorem find?_ofComment (b : UInt8) (r : Bytes) :
    ofComment.find? (b :: r)
      = if b = Byte.hash then
          some (((Bytes.splitFirst? Byte.newline r).map fun p => (comment p.1 true, p.2)).getD
            (comment r false, []))
        else none := by
  unfold find? ofComment
  simp only
  rw [ways_exactly_seq]
  by_cases hb : b = Byte.hash
  · rw [if_pos hb, if_pos hb, List.head?_map]
    cases hs : Bytes.splitFirst? Byte.newline r with
    | none =>
        have hhead := @head?_ways_body r [] _ (Bytes.splitFirst?_eq_none.mp hs) rfl rfl
        rw [List.append_nil] at hhead
        rw [hhead]
        simp [Way.andThen, Extent.cut, Nat.add_comm 1]
    | some p =>
        obtain ⟨body, rest⟩ := p
        obtain ⟨rfl, hbody⟩ := Bytes.splitFirst?_append hs
        rw [head?_ways_body hbody (by simp) rfl]
        simp [Way.andThen, Extent.cut, Nat.add_comm 1]
  · rw [if_neg hb, if_neg hb]
    rfl

theorem find?_ofByte (c : UInt8) (t : Token) (b : UInt8) (r : Bytes) :
    (ofByte c t).find? (b :: r) = if b = c then some (t, r) else none := by
  unfold find? ofByte
  simp only
  rw [head?_ways_group, exactly, ways_byte_cons]
  by_cases hb : b = c
  · simp [hb, Way.remembered]
  · simp [hb]

theorem find?_ofRun (accepts : UInt8 → Bool) (make : Bytes → Token) (b : UInt8) (r : Bytes) :
    (ofRun accepts make).find? (b :: r)
      = if accepts b then some (make (b :: r.takeWhile accepts), r.dropWhile accepts)
        else none := by
  unfold find? ofRun
  simp only
  rw [head?_ways_group]
  by_cases hb : accepts b = true
  · have hfirst : ((byte accepts).ways (b :: r)).head? = some ⟨1, []⟩ := by
      rw [ways_byte_cons, if_pos hb]
      rfl
    have hrest : r = r.takeWhile accepts ++ r.dropWhile accepts :=
      List.takeWhile_append_dropWhile.symm
    rw [head?_ways_seq hfirst (head?_ways_many_byte accepts r), if_pos hb]
    generalize r.takeWhile accepts = run, r.dropWhile accepts = rest at hrest
    subst hrest
    simp [Way.andThen, Way.remembered, Extent.cut, Nat.add_comm 1]
  · rw [if_neg hb]
    simp [ways, hb]

end Rule

/-! ### One token -/

/-- **The first alternative that matches finds the token.** -/
theorem ofMatch?_cons (b : UInt8) (r : Bytes) : ofMatch? (b :: r) = ofFront? b r := by
  unfold ofMatch? rules ofFront?
  simp only [List.findSome?_cons, List.findSome?_nil, Rule.find?_ofQuote, Rule.find?_ofComment,
    Rule.find?_ofByte, Rule.find?_ofRun]
  cases hq : Quote.ofByte? b with
  | some q =>
      obtain rfl := Quote.byte_of_ofByte? hq
      simp only
      -- An open span is passed on, and no other alternative begins with a quote.
      cases q with
      | double =>
          cases Quote.double.close? r with
          | none => rfl
          | some p => rfl
      | single =>
          cases Quote.single.close? r with
          | none => rfl
          | some p => rfl
  | none =>
      have hne : ∀ q : Quote, b ≠ q.byte := Quote.ne_byte_of_ofByte? hq
      have hword : isWordByte b = !Byte.isBlank b := by simp [isWordByte, hq]
      rw [if_neg (hne .double), if_neg (hne .single), hword]
      simp only
      by_cases hh : b = Byte.hash
      · rw [if_pos hh, if_pos hh]
        cases Bytes.splitFirst? Byte.newline r with
        | none => rfl
        | some p => rfl
      · rw [if_neg hh, if_neg hh]
        by_cases hs : b = Byte.backslash
        · rw [if_pos hs, if_pos hs]
        · rw [if_neg hs, if_neg hs]
          by_cases hsemi : b = Byte.semicolon
          · rw [if_pos hsemi, if_pos hsemi]
          · rw [if_neg hsemi, if_neg hsemi]
            by_cases hn : b = Byte.newline
            · rw [if_pos hn, if_pos hn]
            · rw [if_neg hn, if_neg hn]
              cases Byte.isBlank b with
              | true => rfl
              | false => rfl

theorem ofMatch?_nil : ofMatch? [] = none :=
  rfl

/-- It ends where the first match of the pattern does, and there is no token without one. -/
theorem head?_ways_pattern (s : Bytes) :
    (ofMatch? s).map Prod.snd = (pattern.ways s).head?.map fun w => s.drop w.length := by
  unfold ofMatch? pattern
  rw [head?_ways_oneOf, List.findSome?_map, List.map_findSome?, List.map_findSome?]
  congr 1
  funext rule
  simp [Rule.find?, Option.map_map, Function.comp_def]

end Token

/-! ### The tokens of a line -/

/-- **The tokens of a line are first matches**, one behind the other, up to where there is none. -/
theorem tokens_eq_ofMatch? (s : Bytes) :
    tokens s = ((Token.ofMatch? s).map fun p =>
      (p.1 :: (tokens p.2).1, (tokens p.2).2)).getD ([], s) := by
  cases s with
  | nil =>
      rw [tokens, Token.ofMatch?_nil]
      rfl
  | cons b r =>
      rw [Token.ofMatch?_cons, tokens]
      split
      · next h => simp [h]
      · next h => simp [h]

end CommandShell
