/-
The line rule is the first match of its pattern.

`Line.cutByPattern` is a search: it tries the alternatives of `Line.pattern` in order, repeats as
often as it can, and where it fails it steps back.  `Line.cut` goes over the buffer once and never
steps back.  `cutByPattern_eq_cut` says that they cut the same.

`ways_many_seq` is all that is needed of repetition: a pattern repeated before another matches in
the ways of one more item, and only behind these without one.  Inside a span there is nothing to
step back to.  What a span repeats cannot take the byte that closes it, so a span matches in one way
or in none, and an item of a line is a span, or failing that a byte (`ways_itemPattern`).

Between the items a search does step back, but only if it finds no terminator at all behind what it
has passed.  That is the question `Line.stride` asks before it passes a span, so the search ends
where the scan does (`head?_ways_line`).  The blanks in front are given back for the same reason,
one by one, until there is a newline among them to end an empty statement (`head?_ways_pattern`).
-/
import CommandShell.Input.Pattern
import CommandShell.Proofs.Statement

namespace CommandShell

/-! ### Repetition before something else -/

namespace Way

@[simp] theorem zero_andThen (w : Way) : andThen ⟨0, []⟩ w = w := by
  simp [andThen]

theorem andThen_assoc (u v w : Way) : (u.andThen v).andThen w = u.andThen (v.andThen w) := by
  simp [andThen, Nat.add_assoc]

end Way

namespace Pattern

theorem ways_byte_cons (accepts : UInt8 → Bool) (b : UInt8) (r : Bytes) :
    (byte accepts).ways (b :: r) = if accepts b then [⟨1, []⟩] else [] :=
  rfl

theorem ways_choice (first second : Pattern) (s : Bytes) :
    (choice first second).ways s = first.ways s ++ second.ways s :=
  rfl

/-- Behind a given byte a pattern matches as it does alone. -/
theorem ways_exactly_seq (c : UInt8) (second : Pattern) (b : UInt8) (r : Bytes) :
    (seq (exactly c) second).ways (b :: r)
      = if b = c then (second.ways r).map (Way.andThen ⟨1, []⟩) else [] := by
  by_cases h : b = c
  · simp [exactly, ways, h]
  · simp [exactly, ways, h]

/-- **A repetition is one item more and the repetition again, or else nothing.** -/
theorem ways_many_seq (item second : Pattern) (s : Bytes) :
    (seq (many item) second).ways s
      = ((item.ways s).flatMap fun w =>
          if 0 < w.length ∧ w.length ≤ s.length then
            ((seq (many item) second).ways (s.drop w.length)).map w.andThen
          else []) ++ second.ways s := by
  have hseq : ∀ t, (seq (many item) second).ways t = (repeatWays item.ways t).flatMap fun w =>
      (second.ways (t.drop w.length)).map w.andThen := fun _ => rfl
  rw [hseq, repeatWays, List.flatMap_append, List.flatMap_assoc]
  congr 1
  · congr 1
    funext w
    by_cases hw : 0 < w.length ∧ w.length ≤ s.length
    · rw [dif_pos hw, if_pos hw, hseq, List.flatMap_map, List.map_flatMap]
      congr 1
      funext v
      rw [List.map_map, List.drop_drop]
      congr 1
      funext u
      exact Way.andThen_assoc w v u
    · rw [dif_neg hw, if_neg hw, List.flatMap_nil]
  · have hid : (Way.andThen ⟨0, []⟩) = id := funext Way.zero_andThen
    simp [hid]

theorem ways_many_seq_of_none {item second : Pattern} {s : Bytes} (h : item.ways s = []) :
    (seq (many item) second).ways s = second.ways s := by
  rw [ways_many_seq, h, List.flatMap_nil, List.nil_append]

/-- If there is one item and what comes next cannot begin here, the item is taken. -/
theorem ways_many_seq_of_one {item second : Pattern} {s : Bytes} {n : Nat}
    (h : item.ways s = [⟨n, []⟩]) (hn : 0 < n ∧ n ≤ s.length) (hs : second.ways s = []) :
    (seq (many item) second).ways s
      = ((seq (many item) second).ways (s.drop n)).map (Way.andThen ⟨n, []⟩) := by
  rw [ways_many_seq, h, hs, List.append_nil]
  simp [hn]

/-- The place of a pattern with a byte behind it is all but that byte. -/
theorem ways_group_seq (inner : Pattern) (accepts : UInt8 → Bool) (s : Bytes) :
    (seq (group inner) (byte accepts)).ways s
      = ((seq inner (byte accepts)).ways s).map fun w =>
          ⟨w.length, ⟨0, w.length - 1⟩ :: w.groups⟩ := by
  show ((inner.ways s).map Way.remembered).flatMap _ = List.map _ ((inner.ways s).flatMap _)
  rw [List.flatMap_map, List.map_flatMap]
  congr 1
  funext w
  show ((byte accepts).ways (s.drop w.length)).map _ = _
  cases s.drop w.length with
  | nil => rfl
  | cons b r =>
      rw [ways_byte_cons]
      split
      · simp [Way.andThen, Way.remembered]
      · rfl

end Pattern

open Pattern

/-! ### Spans -/

namespace Line

/-- The way to a place, if there is a place. -/
def wayTo (o : Option Nat) : List Way :=
  (o.map fun n => ⟨n, []⟩).toList

theorem wayTo_behind (n : Nat) (o : Option Nat) :
    (wayTo o).map (Way.andThen ⟨n, []⟩) = wayTo (o.map fun m => m + n) := by
  cases o with
  | none => rfl
  | some m => simp [wayTo, Way.andThen, Nat.add_comm]

/-- Up to the next newline there is one way. -/
theorem ways_toNewline (r : Bytes) :
    (seq (many (byte (· != Byte.newline))) (exactly Byte.newline)).ways r
      = wayTo ((Bytes.splitFirst? Byte.newline r).map fun p => p.1.length + 1) := by
  induction r with
  | nil =>
      rw [ways_many_seq_of_none rfl]
      rfl
  | cons b r ih =>
      by_cases hb : b = Byte.newline
      · subst hb
        rw [ways_many_seq_of_none rfl]
        simp [Bytes.splitFirst?, exactly, ways_byte_cons, wayTo]
      · have hone : (byte (· != Byte.newline)).ways (b :: r) = [⟨1, []⟩] := by
          simp [ways_byte_cons, hb]
        have hstop : (exactly Byte.newline).ways (b :: r) = [] := by
          simp [exactly, ways_byte_cons, hb]
        rw [ways_many_seq_of_one hone (by simp) hstop]
        show List.map _ (ways _ r) = _
        rw [ih, wayTo_behind, Bytes.splitFirst?, if_neg hb, Option.map_map, Option.map_map]
        rfl

/-- Up to the quote that closes a span there is one way: no item can take that quote. -/
theorem ways_toQuote (q : Quote) (r : Bytes) :
    (seq (many (contentPattern q)) (exactly q.byte)).ways r
      = wayTo ((q.close? r).map fun p => p.1.length + 1) := by
  have hq := Quote.byte_ne_backslash q
  fun_induction Quote.close? q r with
  | case1 =>
      rw [ways_many_seq_of_none rfl]
      rfl
  | case2 r =>
      have hnone : (contentPattern q).ways (q.byte :: r) = [] := by
        simp [contentPattern, ways_choice, ways_byte_cons, ways_exactly_seq, hq]
      rw [ways_many_seq_of_none hnone]
      simp [exactly, ways_byte_cons, wayTo]
  | case3 =>
      have hnone : (contentPattern q).ways [Byte.backslash] = [] := by
        rw [contentPattern, ways_choice, ways_exactly_seq, ways_byte_cons]
        simp [any, ways]
      rw [ways_many_seq_of_none hnone]
      simp [exactly, ways_byte_cons, wayTo, hq.symm]
  | case4 e r hb ih =>
      have hone : (contentPattern q).ways (Byte.backslash :: e :: r) = [⟨2, []⟩] := by
        simp [contentPattern, ways_choice, ways_byte_cons, ways_exactly_seq, any, Way.andThen]
      have hstop : (exactly q.byte).ways (Byte.backslash :: e :: r) = [] := by
        simp [exactly, ways_byte_cons, hb]
      rw [ways_many_seq_of_one hone (by simp) hstop]
      show List.map _ (ways _ r) = _
      rw [ih, wayTo_behind, Option.map_map, Option.map_map]
      rfl
  | case5 b r hbq hbs ih =>
      have hone : (contentPattern q).ways (b :: r) = [⟨1, []⟩] := by
        simp [contentPattern, ways_choice, ways_byte_cons, ways_exactly_seq, hbq, hbs]
      have hstop : (exactly q.byte).ways (b :: r) = [] := by
        simp [exactly, ways_byte_cons, hbq]
      rw [ways_many_seq_of_one hone (by simp) hstop]
      show List.map _ (ways _ r) = _
      rw [ih, wayTo_behind, Option.map_map, Option.map_map]
      rfl

theorem ways_quotedPattern (q : Quote) (b : UInt8) (r : Bytes) :
    (quotedPattern q).ways (b :: r)
      = if b = q.byte then wayTo ((q.close? r).map fun p => p.1.length + 2) else [] := by
  unfold quotedPattern
  rw [ways_exactly_seq, ways_toQuote, wayTo_behind, Option.map_map]
  rfl

theorem ways_throughNewlinePattern (c b : UInt8) (r : Bytes) :
    (throughNewlinePattern c).ways (b :: r)
      = if b = c then wayTo ((Bytes.splitFirst? Byte.newline r).map fun p => p.1.length + 2)
        else [] := by
  unfold throughNewlinePattern
  rw [ways_exactly_seq, ways_toNewline, wayTo_behind, Option.map_map]
  rfl

theorem span?_suffix {b : UInt8} {r w rest : Bytes} (h : span? b r = some (w, rest)) :
    rest ⊆ r := by
  have ha := span?_append h
  cases w with
  | nil =>
      have hl := span?_length h
      rw [List.nil_append] at ha
      rw [ha, List.length_cons] at hl
      omega
  | cons x w =>
      rw [List.cons_append] at ha
      injection ha with _ ha
      rw [← ha]
      exact List.subset_append_right w rest

/-- What a span is at a given byte, by the kind of the byte. -/
theorem span?_length_eq (b : UInt8) (r : Bytes) :
    (span? b r).map (fun p => p.1.length)
      = match Quote.ofByte? b with
        | some q => (q.close? r).map fun p => p.1.length + 2
        | none =>
          if b = Byte.hash ∨ b = Byte.backslash then
            (Bytes.splitFirst? Byte.newline r).map fun p => p.1.length + 2
          else none := by
  unfold span?
  cases Quote.ofByte? b with
  | some q => simp [Option.map_map, Function.comp_def]
  | none =>
      simp only
      split
      · simp [Option.map_map, Function.comp_def]
      · rfl

/-- **An item is a span, or failing that a byte.** -/
theorem ways_itemPattern (b : UInt8) (r : Bytes) :
    itemPattern.ways (b :: r)
      = wayTo ((span? b r).map fun p => p.1.length)
        ++ if Byte.isTerminator b then [] else [⟨1, []⟩] := by
  unfold itemPattern
  rw [ways_choice, ways_choice, ways_choice, ways_choice, ways_quotedPattern, ways_quotedPattern,
    ways_throughNewlinePattern, ways_throughNewlinePattern, ways_byte_cons, span?_length_eq]
  -- Different alternatives open with different bytes, so at most one of them is left.
  cases hq : Quote.ofByte? b with
  | some q =>
      obtain rfl := Quote.byte_of_ofByte? hq
      cases q with
      | double =>
          rw [if_pos rfl, if_neg (by decide), if_neg (by decide), if_neg (by decide)]
          rfl
      | single =>
          rw [if_pos rfl, if_neg (by decide), if_neg (by decide), if_neg (by decide)]
          rfl
  | none =>
      have hne : ∀ q : Quote, b ≠ q.byte := Quote.ne_byte_of_ofByte? hq
      rw [if_neg (hne .double), if_neg (hne .single)]
      by_cases hh : b = Byte.hash
      · subst hh
        rw [if_pos rfl, if_neg (by decide)]
        rfl
      · by_cases hs : b = Byte.backslash
        · subst hs
          rw [if_neg hh, if_pos rfl]
          rfl
        · rw [if_neg hh, if_neg hs]
          cases Byte.isTerminator b with
          | true => simp [hh, hs, wayTo]
          | false => simp [hh, hs, wayTo]

/-! ### The line -/

/-- What a line is made of, up to a terminator. -/
def bodyPattern : Pattern :=
  seq (many itemPattern) (byte Byte.isTerminator)

/-- The ways that begin with one item. -/
theorem ways_bodyPattern_cons (b : UInt8) (r : Bytes) :
    bodyPattern.ways (b :: r)
      = ((span? b r).elim [] fun p => (bodyPattern.ways p.2).map (Way.andThen ⟨p.1.length, []⟩))
        ++ if Byte.isTerminator b then [⟨1, []⟩]
          else (bodyPattern.ways r).map (Way.andThen ⟨1, []⟩) := by
  unfold bodyPattern
  rw [ways_many_seq, ways_itemPattern, List.flatMap_append, ways_byte_cons, List.append_assoc]
  congr 1
  · cases h : span? b r with
    | none => simp [wayTo]
    | some p =>
        obtain ⟨w, rest⟩ := p
        have ha := span?_append h
        have hl := span?_length h
        have hlen := congrArg List.length ha
        rw [List.length_append, List.length_cons] at hlen
        have hdrop : (b :: r).drop w.length = rest := by
          rw [← ha, List.drop_left]
        simp [wayTo, hdrop]
        omega
  · split
    · rfl
    · simp

/-- **The first way of a line ends where the scan does**, and there is none without a terminator. -/
theorem head?_ways_line (s : Bytes) :
    (bodyPattern.ways s).head?
      = if s.any Byte.isTerminator then some ⟨(scan s).1.length + 1, []⟩ else none := by
  induction hn : s.length using Nat.strongRecOn generalizing s with
  | ind n ih =>
      cases s with
      | nil =>
          unfold bodyPattern
          rw [ways_many_seq_of_none rfl]
          rfl
      | cons b r =>
          have hr := ih r.length (by simp [← hn]) r rfl
          by_cases hb : Byte.isTerminator b = true
          · have hnone : span? b r = none := by
              rcases Byte.isTerminator_iff.mp hb with rfl | rfl <;> rfl
            rw [ways_bodyPattern_cons, hnone, scan, if_pos hb, if_pos hb]
            simp [hb]
          · have hany : (b :: r).any Byte.isTerminator = r.any Byte.isTerminator := by
              simp [hb]
            rw [ways_bodyPattern_cons, scan, if_neg hb, if_neg hb, hany, List.head?_append,
              List.head?_map, hr]
            cases h : span? b r with
            | none =>
                have hstride : stride b r = ([b], r) := by
                  unfold stride
                  rw [h]
                rw [hstride]
                cases r.any Byte.isTerminator with
                | true => simp [Way.andThen, Nat.add_comm]
                | false => rfl
            | some p =>
                obtain ⟨w, rest⟩ := p
                have hlt := span?_length h
                have hrest := ih rest.length (by rw [← hn, List.length_cons]; omega) rest rfl
                simp only [Option.elim_some, List.head?_map, hrest]
                cases hany' : rest.any Byte.isTerminator with
                | true =>
                    have hstride : stride b r = (w, rest) := by
                      unfold stride
                      rw [h]
                      simp only
                      rw [if_pos hany']
                    have hmore : r.any Byte.isTerminator = true := by
                      obtain ⟨t, ht, hterm⟩ := List.any_eq_true.mp hany'
                      exact List.any_eq_true.mpr ⟨t, span?_suffix h ht, hterm⟩
                    rw [hstride, hmore]
                    simp [Way.andThen, Nat.add_assoc]
                | false =>
                    have hstride : stride b r = ([b], r) := by
                      unfold stride
                      rw [h]
                      simp only
                      rw [if_neg (by simp [hany'])]
                    rw [hstride]
                    cases r.any Byte.isTerminator with
                    | true => simp [Way.andThen, Nat.add_comm]
                    | false => rfl

/-! ### The blanks -/

/-- A blank in front is passed over, or dropped with what is dropped; only if more bytes are needed
is it by itself that matters. -/
theorem front_blank_cons {b : UInt8} (hb : Byte.isBlank b = true) (u : Bytes) :
    front (b :: u) =
      match front u with
      | .empty skipped rest => .empty (b :: skipped) rest
      | .line blanks line t rest => .line (b :: blanks) line t rest
      | .unfinished => if b = Byte.newline then .empty [b] u else .unfinished := by
  by_cases h : (u.dropWhile Byte.isBlank).any Byte.isTerminator = true
  · rcases front_behind_blanks (w := [b]) (by simp [hb]) h with
      ⟨_, _, hu, hbehind⟩ | ⟨_, _, _, _, hu, hbehind⟩
    · rw [hu]
      exact hbehind
    · rw [hu]
      exact hbehind
  · have h : (u.dropWhile Byte.isBlank).any Byte.isTerminator = false := by simpa using h
    have hbehind := h
    rw [← List.dropWhile_cons_of_pos hb] at hbehind
    rw [front_unterminated h, front_unterminated hbehind, List.takeWhile_cons_of_pos hb,
      List.dropWhile_cons_of_pos hb]
    simp only [Bytes.splitLast?]
    cases Bytes.splitLast? Byte.newline (u.takeWhile Byte.isBlank) with
    | some p => rfl
    | none =>
        by_cases hn : b = Byte.newline
        · simp [hn, List.takeWhile_append_dropWhile]
        · simp [hn]

/-- The way that a front is. -/
def Front.way? : Front → Option Way
  | .empty skipped _ => some ⟨skipped.length, [⟨skipped.length - 1, skipped.length - 1⟩]⟩
  | .line blanks body _ _ =>
    some ⟨blanks.length + body.length + 1, [⟨blanks.length, blanks.length + body.length⟩]⟩
  | .unfinished => none

/-- Behind the blanks the first way is where the scan ends, with all before that as its place. -/
theorem head?_ways_group (s : Bytes) :
    ((seq (group (many itemPattern)) (byte Byte.isTerminator)).ways s).head?
      = if s.any Byte.isTerminator then
          some ⟨(scan s).1.length + 1, [⟨0, (scan s).1.length⟩]⟩ else none := by
  have hline := head?_ways_line s
  unfold bodyPattern at hline
  rw [ways_group_seq, List.head?_map, hline]
  split <;> rfl

theorem ways_pattern_cons (b : UInt8) (r : Bytes) :
    pattern.ways (b :: r)
      = (if Byte.isBlank b then (pattern.ways r).map (Way.andThen ⟨1, []⟩) else [])
        ++ (seq (group (many itemPattern)) (byte Byte.isTerminator)).ways (b :: r) := by
  unfold pattern
  rw [ways_many_seq, ways_byte_cons]
  congr 1
  split <;> simp

/-- **The first way of the pattern is the front of the buffer.** -/
theorem head?_ways_pattern (raw : Bytes) : (pattern.ways raw).head? = (front raw).way? := by
  induction raw with
  | nil =>
      unfold pattern
      rw [ways_many_seq_of_none rfl, head?_ways_group]
      rw [front_unterminated rfl]
      rfl
  | cons b r ih =>
      rw [ways_pattern_cons, List.head?_append, head?_ways_group]
      by_cases hb : Byte.isBlank b = true
      · rw [if_pos hb, List.head?_map, ih, front_blank_cons hb]
        cases hf : front r with
        | empty skipped rest =>
            have hpos := List.length_pos_iff.mpr (front_eq_empty hf).2
            simp [Front.way?, Way.andThen]
            omega
        | line blanks body t rest =>
            simp [Front.way?, Way.andThen]
            omega
        | unfinished =>
            have hr := front_eq_unfinished_iff.mp hf
            by_cases hn : b = Byte.newline
            · subst hn
              simp [Front.way?, scan]
            · have ht : Byte.isTerminator b = false := by
                by_contra hc
                exact hn (Byte.eq_newline_of_isBlank hb (by simpa using hc))
              have hnone : (b :: r).any Byte.isTerminator = false := by
                simpa [ht] using hr
              simp [Front.way?, hnone, hn]
      · have htake : (b :: r).takeWhile Byte.isBlank = [] := List.takeWhile_cons_of_neg hb
        have hdrop : (b :: r).dropWhile Byte.isBlank = b :: r := List.dropWhile_cons_of_neg hb
        rw [if_neg hb]
        by_cases h : (b :: r).any Byte.isTerminator = true
        · obtain ⟨line, t, rest, hs, ht⟩ := exists_scan_eq h
          have hfront := hs
          rw [← hdrop] at hfront
          rw [if_pos h, front_terminated hfront ht, htake, hs]
          cases line with
          | nil => rfl
          | cons x w => simp [Front.way?]
        · have hfront : ((b :: r).dropWhile Byte.isBlank).any Byte.isTerminator = false := by
            rw [hdrop]
            simpa using h
          rw [if_neg h, front_unterminated hfront, htake]
          rfl

/-! ### One scan does for the search -/

/-- Cutting at the first match is cutting at the front. -/
theorem cutByPattern_eq_cut (raw : Bytes) : cutByPattern raw = cut raw := by
  have h := head?_ways_pattern raw
  unfold cutByPattern cut
  cases hf : front raw with
  | empty skipped rest =>
      obtain ⟨he, _⟩ := front_eq_empty hf
      rw [hf] at h
      obtain ⟨ws, hws⟩ := List.head?_eq_some_iff.mp h
      rw [hws]
      simp [Extent.cut, he]
  | line blanks body t rest =>
      obtain ⟨he, _⟩ := front_eq_line hf
      rw [hf] at h
      obtain ⟨ws, hws⟩ := List.head?_eq_some_iff.mp h
      have hdrop : raw.drop (blanks.length + body.length + 1) = rest := by
        rw [he, show blanks ++ body ++ t :: rest = (blanks ++ body ++ [t]) ++ rest by simp]
        exact List.drop_left' (by simp; omega)
      rw [hws]
      simp only [hdrop]
      rw [he, Extent.cut_append]
  | unfinished =>
      rw [hf] at h
      rw [List.head?_eq_none_iff.mp h]

/-- Without a terminator behind the blanks only the newlines among them are used up. -/
theorem cut_unterminated {raw : Bytes}
    (h : (raw.dropWhile Byte.isBlank).any Byte.isTerminator = false) :
    cut raw = ([], ((Bytes.splitLast? Byte.newline (raw.takeWhile Byte.isBlank)).map fun p =>
      p.2 ++ raw.dropWhile Byte.isBlank).getD raw) := by
  unfold cut
  rw [front_unterminated h]
  cases Bytes.splitLast? Byte.newline (raw.takeWhile Byte.isBlank) with
  | none => rfl
  | some p => rfl

/-- Otherwise the scan says what the line is. -/
theorem cut_scan {raw : Bytes} (h : (raw.dropWhile Byte.isBlank).any Byte.isTerminator = true) :
    ∃ t rest, (scan (raw.dropWhile Byte.isBlank)).2 = t :: rest ∧ Byte.isTerminator t = true ∧
      cut raw = ((scan (raw.dropWhile Byte.isBlank)).1, rest) := by
  obtain ⟨line, t, rest, hs, ht⟩ := exists_scan_eq h
  refine ⟨t, rest, congrArg Prod.snd hs, ht, ?_⟩
  unfold cut
  rw [front_terminated hs ht, hs]
  cases line with
  | nil => rfl
  | cons b w => rfl

theorem cut_rest_length {raw : Bytes} (h : front raw ≠ .unfinished) :
    (cut raw).2.length < raw.length := by
  unfold cut
  cases hf : front raw with
  | empty skipped rest => exact front_empty_length hf
  | line blanks body t rest => exact front_line_length hf
  | unfinished => exact absurd hf h

theorem cut_rest_eq_iff {raw : Bytes} :
    (cut raw).2 = raw ↔ ∀ b ∈ raw, Byte.isTerminator b = false := by
  rw [← front_eq_unfinished_iff]
  constructor
  · intro hsame
    by_contra hf
    have hlt := cut_rest_length hf
    rw [hsame] at hlt
    exact Nat.lt_irrefl _ hlt
  · intro hf
    rw [cut_of_unfinished hf]

theorem cut_line_head (raw : Bytes) :
    (cut raw).1 = [] ∨ ∃ b w, (cut raw).1 = b :: w ∧ Byte.isBlank b = false := by
  unfold cut
  cases hf : front raw with
  | empty skipped rest => exact Or.inl rfl
  | unfinished => exact Or.inl rfl
  | line blanks body t rest =>
      obtain ⟨_, _, _, b, w, hbody, hgap⟩ := front_line_spec hf
      refine Or.inr ⟨b, w, hbody, ?_⟩
      by_contra hblank
      rw [Byte.isGap_of_isBlank (by simpa using hblank)] at hgap
      exact Bool.noConfusion hgap

/--
**A buffer is cut at the first match of the pattern, and one scan finds it.**  The blanks come
first.  If no terminator is behind them the line is empty, and what is left begins behind the last
newline among them; without one nothing is used up.  Otherwise the line is what the scan passes
behind the blanks, and the terminator at which it stops is dropped.

So nothing is used up exactly if there is no terminator at all, and a line that is not empty does
not begin with a blank.
-/
theorem first_match_is_scan (raw : Bytes) :
    let blanks := raw.takeWhile Byte.isBlank
    let s := raw.dropWhile Byte.isBlank
    cutByPattern raw = cut raw ∧
    (s.any Byte.isTerminator = false →
      cut raw = ([], ((Bytes.splitLast? Byte.newline blanks).map fun p => p.2 ++ s).getD raw)) ∧
    (s.any Byte.isTerminator = true →
      ∃ t rest, (scan s).2 = t :: rest ∧ Byte.isTerminator t = true ∧
        cut raw = ((scan s).1, rest)) ∧
    ((cut raw).2 = raw ↔ ∀ b ∈ raw, Byte.isTerminator b = false) ∧
    ((cut raw).1 = [] ∨ ∃ b w, (cut raw).1 = b :: w ∧ Byte.isBlank b = false) :=
  ⟨cutByPattern_eq_cut raw, cut_unterminated, cut_scan, cut_rest_eq_iff, cut_line_head raw⟩

end Line

end CommandShell
