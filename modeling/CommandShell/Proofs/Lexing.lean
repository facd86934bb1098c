/-
Tokens one after the other.

`Token.ofFront?` goes by the first byte and then takes as much as it can.  `Token.Fits` says the
same without taking anything: what the token is made of, and what can be behind it.  That leaves no
choice.  A token that fits is the one that is taken (`Token.ofFront?_eq_some_iff`), and the only
place where none is taken is a quote that stays open (`Token.ofFront?_eq_none_iff`).

`Splits` puts tokens that fit one behind the other, up to the end or to such a quote, and
`splits_iff` says that `tokens` finds them, and nothing else would do.  So whatever holds of the
tokens of some bytes is shown by induction on `Splits`, with one case for each kind of token where
the kinds differ.

A token needs nothing of what is behind it.  It fits at the end as well, and of what is behind it
only the first byte could be in its way (`Token.Fits.of_head?`).  So the bytes of the first tokens
split into these tokens with nothing behind them (`Splits.take`), and those of all tokens do so
without the quote at which splitting stopped.

Physical lines are joined by the same induction.  A newline between them ends a word, and it closes
the comment that the first one ends with.  Blanks before it run on into the next line, but they only
run up to where the tokens of that line would have come to as well (`Continues.blanks`).
-/
import CommandShell.Proofs.Chunking

namespace CommandShell

/-! ### Quotes that stay open -/

theorem Quote.close?_eq_none_iff {q : Quote} {r : Bytes} :
    q.close? r = none ↔ ∀ w v, Content q w → r ≠ w ++ q.byte :: v := by
  constructor
  · intro h w v hw hr
    rw [hr, close?_content hw] at h
    exact absurd h (by simp)
  · intro h
    cases hc : q.close? r with
    | none => rfl
    | some p =>
        obtain ⟨hw, hr⟩ := content_of_close? (w := p.1) (r := p.2) hc
        exact absurd hr (h p.1 p.2 hw)

/-- The bytes begin with a quote, and no quote behind it closes it. -/
def Unclosed (s : Bytes) : Prop :=
  ∃ q r, s = Quote.byte q :: r ∧ ∀ w v, Quote.Content q w → r ≠ w ++ q.byte :: v

theorem not_unclosed_nil : ¬ Unclosed [] := by
  intro h
  obtain ⟨q, r, hs, _⟩ := h
  exact absurd hs (by simp)

/-! ### One token -/

theorem tokens_cons {b : UInt8} {r rest : Bytes} {t : Token}
    (h : Token.ofFront? b r = some (t, rest)) :
    tokens (b :: r) = (t :: (tokens rest).1, (tokens rest).2) := by
  rw [tokens]
  split
  · next t' rest' h' =>
    rw [h] at h'
    simp only [Option.some.injEq, Prod.mk.injEq] at h'
    obtain ⟨rfl, rfl⟩ := h'
    rfl
  · next h' =>
    rw [h] at h'
    exact absurd h' (by simp)

/-- What is taken consists of such bytes, and what is left does not begin with one. -/
theorem takeWhile_run {p : UInt8 → Bool} {b : UInt8} (hb : p b = true) (r : Bytes) :
    (∀ c ∈ b :: r.takeWhile p, p c = true) ∧ ∀ c ∈ (r.dropWhile p).head?, p c = false := by
  refine ⟨?_, ?_⟩
  · intro c hc
    rcases List.mem_cons.mp hc with rfl | hc
    · exact hb
    · exact List.all_eq_true.mp List.all_takeWhile c hc
  · intro c hc
    have hn := List.head?_dropWhile_not p r
    rw [Option.mem_def.mp hc] at hn
    exact hn

namespace Token

/-- What a token is made of, and what can be behind it. -/
inductive Fits : Token → Bytes → Prop
  | quoted {q : Quote} {w rest : Bytes} (hw : Quote.Content q w) : Fits (.quoted q w) rest
  | comment {body rest : Bytes} (hbody : Byte.newline ∉ body) : Fits (.comment body true) rest
  /-- A comment without its newline goes up to the end. -/
  | lastComment {body : Bytes} (hbody : Byte.newline ∉ body) : Fits (.comment body false) []
  | continuation {rest : Bytes} : Fits .continuation rest
  | semicolon {rest : Bytes} : Fits .semicolon rest
  | newline {rest : Bytes} : Fits .newline rest
  /-- A word goes on with bytes that it could not begin with. -/
  | word {b : UInt8} {w rest : Bytes} (hb : Byte.isOrdinary b = true)
      (hw : ∀ c ∈ b :: w, isWordByte c = true) (hrest : ∀ c ∈ rest.head?, isWordByte c = false) :
      Fits (.word (b :: w)) rest
  /-- Blanks go on with newlines, but do not begin with one. -/
  | blanks {b : UInt8} {w rest : Bytes} (hb : Byte.isOrdinary b = true)
      (hw : ∀ c ∈ b :: w, Byte.isBlank c = true)
      (hrest : ∀ c ∈ rest.head?, Byte.isBlank c = false) :
      Fits (.blanks (b :: w)) rest

theorem ofFront?_hash {body : Bytes} (hbody : Byte.newline ∉ body) (rest : Bytes) :
    ofFront? Byte.hash (body ++ Byte.newline :: rest) = some (.comment body true, rest) := by
  have hq : Quote.ofByte? Byte.hash = none := rfl
  unfold ofFront?
  rw [hq, if_pos rfl, Bytes.splitFirst?_eq_some hbody]

theorem ofFront?_last_hash {body : Bytes} (hbody : Byte.newline ∉ body) :
    ofFront? Byte.hash body = some (.comment body false, []) := by
  have hq : Quote.ofByte? Byte.hash = none := rfl
  unfold ofFront?
  rw [hq, if_pos rfl, Bytes.splitFirst?_eq_none.mpr hbody]

/-- A token that fits is taken. -/
theorem Fits.ofFront? {t : Token} {rest : Bytes} (h : t.Fits rest) :
    ∃ b r, t.render ++ rest = b :: r ∧ Token.ofFront? b r = some (t, rest) := by
  cases h with
  | @quoted q w _ hw =>
      exact ⟨q.byte, w ++ q.byte :: rest, by simp [render], ofFront?_quoted hw rest⟩
  | @comment body _ hbody =>
      exact ⟨Byte.hash, body ++ Byte.newline :: rest, by simp [render], ofFront?_hash hbody rest⟩
  | @lastComment body hbody =>
      exact ⟨Byte.hash, body, by simp [render], ofFront?_last_hash hbody⟩
  | continuation => exact ⟨Byte.backslash, rest, rfl, rfl⟩
  | semicolon => exact ⟨Byte.semicolon, rest, rfl, rfl⟩
  | newline => exact ⟨Byte.newline, rest, rfl, rfl⟩
  | @word b w _ hb hw hrest =>
      have hblank : Byte.isBlank b = false := by
        have hword := hw b List.mem_cons_self
        simp only [isWordByte, Bool.and_eq_true, Bool.not_eq_true'] at hword
        exact hword.1
      obtain ⟨htake, hdrop⟩ :=
        takeWhile_append_exact (fun c hc => hw c (List.mem_cons_of_mem b hc)) hrest
      refine ⟨b, w ++ rest, rfl, ?_⟩
      rw [ofFront?_ordinary hb, if_neg (by simp [hblank]), htake, hdrop]
  | @blanks b w _ hb hw hrest =>
      obtain ⟨htake, hdrop⟩ :=
        takeWhile_append_exact (fun c hc => hw c (List.mem_cons_of_mem b hc)) hrest
      refine ⟨b, w ++ rest, rfl, ?_⟩
      rw [ofFront?_ordinary hb, if_pos (hw b List.mem_cons_self), htake, hdrop]

/-- A byte with a meaning of its own is a quote, a hash, a backslash or a terminator. -/
theorem cases_of_not_ordinary {b : UInt8} (h : Byte.isOrdinary b = false) :
    (∃ q, b = Quote.byte q) ∨ b = Byte.hash ∨ b = Byte.backslash ∨ b = Byte.semicolon ∨
      b = Byte.newline := by
  cases hq : Quote.ofByte? b with
  | some q => exact Or.inl ⟨q, Quote.byte_of_ofByte? hq⟩
  | none =>
      refine Or.inr ?_
      by_contra hnone
      simp only [not_or] at hnone
      obtain ⟨hhash, hback, hsemi, hnl⟩ := hnone
      have ht : Byte.isTerminator b = false := by
        simp [Byte.isTerminator, hsemi, hnl]
      simp [Byte.isOrdinary, hq, hhash, hback, ht] at h

/-- The newline is the only blank with a meaning of its own. -/
theorem eq_newline_of_blank {b : UInt8} (hblank : Byte.isBlank b = true)
    (h : Byte.isOrdinary b = false) : b = Byte.newline := by
  rcases cases_of_not_ordinary h with ⟨q, rfl⟩ | rfl | rfl | rfl | rfl
  · exact absurd hblank (by cases q <;> decide)
  · exact absurd hblank (by decide)
  · exact absurd hblank (by decide)
  · exact absurd hblank (by decide)
  · rfl

/-- What is taken fits. -/
theorem ofFront?_fits {b : UInt8} {r rest : Bytes} {t : Token}
    (h : ofFront? b r = some (t, rest)) : t.Fits rest := by
  by_cases hb : Byte.isOrdinary b = true
  · rw [ofFront?_ordinary hb] at h
    by_cases hblank : Byte.isBlank b = true
    · rw [if_pos hblank] at h
      cases h
      obtain ⟨hrun, hstop⟩ := takeWhile_run hblank r
      exact .blanks hb hrun hstop
    · rw [if_neg hblank] at h
      cases h
      have hword : isWordByte b = true := by
        simp only [Byte.isOrdinary, Bool.and_eq_true] at hb
        simp [isWordByte, hblank, hb.1.1.1]
      obtain ⟨hrun, hstop⟩ := takeWhile_run hword r
      exact .word hb hrun hstop
  · rcases cases_of_not_ordinary (by simpa using hb) with ⟨q, rfl⟩ | rfl | rfl | rfl | rfl
    · unfold ofFront? at h
      rw [Quote.ofByte?_byte] at h
      obtain ⟨p, hp, he⟩ := Option.map_eq_some_iff.mp h
      cases he
      exact .quoted (Quote.content_of_close? (w := p.1) (r := p.2) hp).1
    · cases hs : Bytes.splitFirst? Byte.newline r with
      | none =>
          have hbody := Bytes.splitFirst?_eq_none.mp hs
          rw [ofFront?_last_hash hbody] at h
          cases h
          exact .lastComment hbody
      | some p =>
          obtain ⟨hr, hbody⟩ := Bytes.splitFirst?_append (u := p.1) (v := p.2) hs
          rw [hr, ofFront?_hash hbody] at h
          cases h
          exact .comment hbody
    · cases h
      exact .continuation
    · cases h
      exact .semicolon
    · cases h
      exact .newline

/-- **A token is taken if and only if it fits**, and then it is what the bytes begin with. -/
theorem ofFront?_eq_some_iff {b : UInt8} {r rest : Bytes} {t : Token} :
    Token.ofFront? b r = some (t, rest) ↔ t.Fits rest ∧ t.render ++ rest = b :: r := by
  constructor
  · intro h
    exact ⟨ofFront?_fits h, render_ofFront? h⟩
  · intro h
    obtain ⟨hfits, hrender⟩ := h
    obtain ⟨b', r', hrender', hfront⟩ := hfits.ofFront?
    rw [hrender] at hrender'
    injection hrender' with hb hr
    rw [hb, hr]
    exact hfront

/-- **No token is taken exactly where a quote stays open.** -/
theorem ofFront?_eq_none_iff {b : UInt8} {r : Bytes} :
    Token.ofFront? b r = none ↔ Unclosed (b :: r) := by
  have hquote : ∀ q : Quote, Token.ofFront? q.byte r = none ↔ q.close? r = none := by
    intro q
    unfold Token.ofFront?
    rw [Quote.ofByte?_byte]
    simp
  constructor
  · intro h
    have hb : Byte.isOrdinary b = false := by
      by_contra hb
      rw [ofFront?_ordinary (by simpa using hb)] at h
      split at h <;> exact absurd h (by simp)
    rcases cases_of_not_ordinary hb with ⟨q, rfl⟩ | rfl | rfl | rfl | rfl
    · exact ⟨q, r, rfl, Quote.close?_eq_none_iff.mp ((hquote q).mp h)⟩
    · cases hs : Bytes.splitFirst? Byte.newline r with
      | none =>
          rw [ofFront?_last_hash (Bytes.splitFirst?_eq_none.mp hs)] at h
          exact absurd h (by simp)
      | some p =>
          obtain ⟨hr, hbody⟩ := Bytes.splitFirst?_append (u := p.1) (v := p.2) hs
          rw [hr, ofFront?_hash hbody] at h
          exact absurd h (by simp)
    · cases h
    · cases h
    · cases h
  · intro h
    obtain ⟨q, r', hs, hopen⟩ := h
    injection hs with hb hr
    subst hb hr
    exact (hquote q).mpr (Quote.close?_eq_none_iff.mpr hopen)

theorem Fits.tokens {t : Token} {rest : Bytes} (h : t.Fits rest) :
    CommandShell.tokens (t.render ++ rest)
      = (t :: (CommandShell.tokens rest).1, (CommandShell.tokens rest).2) := by
  obtain ⟨b, r, hrender, hfront⟩ := h.ofFront?
  rw [hrender, tokens_cons hfront]

theorem Fits.render_length_pos {t : Token} {rest : Bytes} (h : t.Fits rest) :
    0 < t.render.length := by
  cases h <;> simp [render]

/-- Only the first byte behind a token can be in its way, and the end cannot. -/
theorem Fits.of_head? {t : Token} {rest rest' : Bytes} (h : t.Fits rest)
    (hhead : ∀ b ∈ rest'.head?, b ∈ rest.head?) : t.Fits rest' := by
  cases h with
  | quoted hw => exact .quoted hw
  | comment hbody => exact .comment hbody
  | lastComment hbody =>
      cases rest' with
      | nil => exact .lastComment hbody
      | cons b r => exact absurd (hhead b rfl) (by simp)
  | continuation => exact .continuation
  | semicolon => exact .semicolon
  | newline => exact .newline
  | word hb hw hrest => exact .word hb hw fun c hc => hrest c (hhead c hc)
  | blanks hb hw hrest => exact .blanks hb hw fun c hc => hrest c (hhead c hc)

/-- Bytes behind a token can be cut off anywhere. -/
theorem Fits.of_append {t : Token} {u v : Bytes} (h : t.Fits (u ++ v)) : t.Fits u := by
  refine h.of_head? ?_
  intro b hb
  rw [List.head?_append, Option.mem_def.mp hb]
  rfl

/-- If there are bytes behind a token, any others can be put behind them. -/
theorem Fits.append {t : Token} {rest : Bytes} (h : t.Fits rest) (hne : rest ≠ []) (v : Bytes) :
    t.Fits (rest ++ v) := by
  refine h.of_head? ?_
  intro b hb
  cases rest with
  | nil => exact absurd rfl hne
  | cons c r => exact hb

end Token

/-! ### All of them -/

/-- Tokens that fit, one behind the other, and what is left: nothing, or a quote that stays open and
all behind it. -/
inductive Splits : Bytes → List Token → Bytes → Prop
  | done : Splits [] [] []
  | stuck {s : Bytes} (h : Unclosed s) : Splits s [] s
  | token {t : Token} {rest left : Bytes} {ts : List Token} (ht : t.Fits rest)
      (h : Splits rest ts left) : Splits (t.render ++ rest) (t :: ts) left

theorem splits_tokens (s : Bytes) : Splits s (tokens s).1 (tokens s).2 := by
  fun_induction tokens s with
  | case1 => exact .done
  | case2 b r t rest h ih =>
      obtain ⟨ht, hrender⟩ := Token.ofFront?_eq_some_iff.mp h
      rw [← hrender]
      exact .token ht ih
  | case3 b r h => exact .stuck (Token.ofFront?_eq_none_iff.mp h)

theorem tokens_of_unclosed {s : Bytes} (h : Unclosed s) : tokens s = ([], s) := by
  cases s with
  | nil => exact absurd h not_unclosed_nil
  | cons b r =>
      rw [tokens]
      split
      · next hfront =>
        rw [Token.ofFront?_eq_none_iff.mpr h] at hfront
        exact absurd hfront (by simp)
      · rfl

theorem Splits.tokens_eq {s left : Bytes} {ts : List Token} (h : Splits s ts left) :
    tokens s = (ts, left) := by
  induction h with
  | done => rw [tokens]
  | stuck h => exact tokens_of_unclosed h
  | token ht _ ih => rw [ht.tokens, ih]

/-- **There is one way to split bytes, and it is the one that is found.** -/
theorem splits_iff {s left : Bytes} {ts : List Token} :
    Splits s ts left ↔ tokens s = (ts, left) := by
  constructor
  · exact Splits.tokens_eq
  · intro h
    have hs := splits_tokens s
    rw [h] at hs
    exact hs

/-- The first of some tokens, and the bytes the others are taken from. -/
theorem tokens_eq_cons {s left : Bytes} {t : Token} {ts : List Token}
    (h : tokens s = (t :: ts, left)) :
    ∃ rest, s = t.render ++ rest ∧ t.Fits rest ∧ tokens rest = (ts, left) := by
  cases splits_iff.mpr h with
  | token ht hs => exact ⟨_, rfl, ht, hs.tokens_eq⟩

namespace Splits

variable {s left : Bytes} {ts : List Token}

theorem render_length_pos (h : Splits s ts left) : ∀ t ∈ ts, 0 < t.render.length := by
  induction h with
  | done => simp
  | stuck => simp
  | token ht _ ih =>
      intro t hmem
      rcases List.mem_cons.mp hmem with rfl | hmem
      · exact ht.render_length_pos
      · exact ih t hmem

theorem left_eq (h : Splits s ts left) : left = [] ∨ Unclosed left := by
  induction h with
  | done => exact Or.inl rfl
  | stuck h => exact Or.inr h
  | token _ _ ih => exact ih

theorem eq_nil (h : Splits [] ts left) : ts = [] ∧ left = [] := by
  have htokens := h.tokens_eq
  rw [tokens, Prod.mk.injEq] at htokens
  exact ⟨htokens.1.symm, htokens.2.symm⟩

/-- Nothing is behind a comment without its newline. -/
theorem last_comment (h : Splits s ts left) {u v : List Token} {body : Bytes}
    (hts : ts = u ++ .comment body false :: v) : v = [] ∧ left = [] := by
  induction h generalizing u with
  | done => exact absurd hts (by simp)
  | stuck => exact absurd hts (by simp)
  | token ht h ih =>
      cases u with
      | nil =>
          injection hts with ht' hv
          subst ht' hv
          cases ht
          exact h.eq_nil
      | cons t' u =>
          injection hts with _ hts
          exact ih hts

end Splits

/-- What was written of the tokens is all but what is left. -/
theorem renderAll_eq_take (s : Bytes) :
    renderAll (tokens s).1 = s.take (s.length - (tokens s).2.length) := by
  rw [Scan.length_used]
  exact List.prefix_iff_eq_take.mp ⟨(tokens s).2, renderAll_tokens s⟩

/--
**Splitting is a faithful parse.**  The tokens, written as they were read, and what is left of the
bytes are the bytes, whether separators are counted or not.  Every token takes up bytes; only the
last one can be a comment without a newline, and then nothing is left.  Otherwise what is left
begins with a quote that stays open.  No other tokens would fit.
-/
theorem tokens_faithful (raw : Bytes) :
    let ts := (tokens raw).1
    let left := (tokens raw).2
    renderAll ts ++ left = raw ∧
    (∀ keepSeparators, (Record.ofBytes keepSeparators raw).1.raw = renderAll ts ∧
      renderAll ts = raw.take (raw.length - left.length) ∧
      (Record.ofBytes keepSeparators raw).2 = left) ∧
    (∀ t ∈ ts, 0 < t.render.length) ∧
    (∀ u body v, ts = u ++ .comment body false :: v → v = [] ∧ left = []) ∧
    (left = [] ∨ Unclosed left) ∧
    ∀ us rest, Splits raw us rest → us = ts ∧ rest = left := by
  intro ts left
  have hs : Splits raw ts left := splits_tokens raw
  refine ⟨renderAll_tokens raw, ?_, hs.render_length_pos, ?_, hs.left_eq, ?_⟩
  · intro keepSeparators
    exact ⟨rfl, renderAll_eq_take raw, rfl⟩
  · intro u body v hts
    exact hs.last_comment hts
  · intro us rest h
    have htokens := h.tokens_eq
    exact ⟨congrArg Prod.fst htokens.symm, congrArg Prod.snd htokens.symm⟩

/-- A hash in a word begins no comment, and a quote in the comment behind it stops nothing. -/
theorem tokens_faithful_last_comment :
    let raw : Bytes := [0x61, 0x23, 0x20, 0x23, 0x27]
    (tokens raw).1 = [.word [0x61, 0x23], .blanks [0x20]] ++ .comment [0x27] false :: [] ∧
      (tokens raw).2 = [] := by
  intro raw
  obtain ⟨_, _, _, hlast, _, _⟩ := tokens_faithful raw
  have hts : (tokens raw).1
      = [.word [0x61, 0x23], .blanks [0x20]] ++ .comment [0x27] false :: [] := by decide +kernel
  exact ⟨hts, (hlast _ _ _ hts).2⟩

/-! ### Splitting again -/

theorem renderAll_append (ts us : List Token) :
    renderAll (ts ++ us) = renderAll ts ++ renderAll us :=
  List.flatMap_append

/-- The bytes of the first tokens split into these, and nothing of them is left. -/
theorem Splits.take {s left : Bytes} {ts : List Token} (h : Splits s ts left) (n : Nat) :
    Splits (renderAll (ts.take n)) (ts.take n) [] := by
  induction h generalizing n with
  | done => rw [List.take_nil]; exact .done
  | stuck => rw [List.take_nil]; exact .done
  | @token t rest left ts ht h ih =>
      cases n with
      | zero => exact .done
      | succ n =>
          -- The bytes that are kept are in front of those that are not.
          have hrest : rest = renderAll (ts.take n) ++ (renderAll (ts.drop n) ++ left) := by
            have hall := renderAll_tokens rest
            rw [h.tokens_eq] at hall
            rw [← List.append_assoc, ← renderAll_append, List.take_append_drop, hall]
          rw [hrest] at ht
          exact .token ht.of_append (ih n)

/--
**What was split splits again.**  If splitting stops before the end, all from a quote that stays
open is left.  Without it what was split gives the same record once more, whether separators are
counted or not, and nothing is left.  It can also be cut off behind any token: the bytes of the
first tokens split into these, whatever was behind them.
-/
theorem split_again (raw : Bytes) :
    (∀ keepSeparators,
      let record := (Record.ofBytes keepSeparators raw).1
      let rest := (Record.ofBytes keepSeparators raw).2
      record.raw ++ rest = raw ∧ (rest = [] ∨ Unclosed rest) ∧
        Record.ofBytes keepSeparators record.raw = (record, [])) ∧
    ∀ n, tokens (renderAll ((tokens raw).1.take n)) = ((tokens raw).1.take n, []) := by
  have hsplits := splits_tokens raw
  have hfirst : ∀ n, tokens (renderAll ((tokens raw).1.take n)) = ((tokens raw).1.take n, []) :=
    fun n => (hsplits.take n).tokens_eq
  refine ⟨?_, hfirst⟩
  intro keepSeparators record rest
  refine ⟨renderAll_tokens raw, hsplits.left_eq, ?_⟩
  have hall : tokens (renderAll (tokens raw).1) = ((tokens raw).1, []) := by
    have h := hfirst (tokens raw).1.length
    rwa [List.take_length] at h
  show Record.ofBytes keepSeparators (renderAll (tokens raw).1) = (record, [])
  rw [Record.ofBytes, hall]
  rfl

/-- The quote in the comment is kept with it, and the word ends where the stray one was. -/
example :
    let raw : Bytes := [0x78, 0x20, 0x23, 0x27, 0x0a, 0x79, 0x27, 0x7a]
    let record : Record := ⟨[0x78, 0x20, 0x23, 0x27, 0x0a, 0x79], [[0x78], [0x79]]⟩
    Record.ofBytes false raw = (record, [0x27, 0x7a]) ∧
      Record.ofBytes false record.raw = (record, []) := by
  decide +kernel

/-! ### Joining lines -/

theorem Token.counted_append (keepSeparators : Bool) (ts us : List Token) :
    counted keepSeparators (ts ++ us) = counted keepSeparators ts ++ counted keepSeparators us :=
  List.filter_append _ _

/-- Splitting `s` one counts what there is to count in `ts`, and then what one counts splitting
`b`. -/
structure Continues (s : Bytes) (ts : List Token) (b : Bytes) : Prop where
  counted : Token.counted false (tokens s).1
    = Token.counted false ts ++ Token.counted false (tokens b).1
  left : (tokens s).2 = (tokens b).2

namespace Continues

variable {s b c : Bytes} {ts us : List Token} {t : Token}

theorem token (h : t.Fits b) : Continues (t.render ++ b) [t] b := by
  refine ⟨?_, ?_⟩
  · rw [h.tokens, ← Token.counted_append]
    rfl
  · rw [h.tokens]

theorem trans (h : Continues s ts b) (hb : Continues b us c) : Continues s (ts ++ us) c := by
  refine ⟨?_, h.left.trans hb.left⟩
  rw [h.counted, hb.counted, Token.counted_append, List.append_assoc]

/-- A separator is not counted. -/
theorem uncounted (h : Continues s (t :: ts) b) (ht : t.isSeparator = true) :
    Continues s ts b := by
  refine ⟨?_, h.left⟩
  rw [h.counted, show t :: ts = [t] ++ ts from rfl, Token.counted_append]
  simp [Token.counted, ht]

/-- Blanks in front do not count, in however many tokens they are taken. -/
theorem blanks (s : Bytes) : Continues s [] (s.dropWhile Byte.isBlank) := by
  induction s with
  | nil => exact ⟨rfl, rfl⟩
  | cons b s ih =>
      by_cases hblank : Byte.isBlank b = true
      · rw [List.dropWhile_cons_of_pos hblank]
        by_cases hb : Byte.isOrdinary b = true
        · obtain ⟨hrun, hstop⟩ := takeWhile_run hblank s
          have h := token (.blanks hb hrun hstop)
          have hall : (Token.blanks (b :: s.takeWhile Byte.isBlank)).render
              ++ s.dropWhile Byte.isBlank = b :: s := by
            show b :: (s.takeWhile Byte.isBlank ++ s.dropWhile Byte.isBlank) = b :: s
            rw [List.takeWhile_append_dropWhile]
          rw [hall] at h
          exact h.uncounted rfl
        · obtain rfl := Token.eq_newline_of_blank hblank (by simpa using hb)
          exact ((token (t := .newline) .newline).uncounted rfl).trans ih
      · rw [List.dropWhile_cons_of_neg hblank]
        exact ⟨rfl, rfl⟩

/-- A token at the end of a line is counted, or it is not, as it is without the next line. -/
theorem behind_newline (h : t.Fits []) (b : Bytes) :
    Continues (t.render ++ Byte.newline :: b) [t] b := by
  have hnewline : Continues (Byte.newline :: b) [] b :=
    (token (t := .newline) .newline).uncounted rfl
  have hfits : ∀ {t : Token}, t.Fits (Byte.newline :: b) →
      Continues (t.render ++ Byte.newline :: b) [t] b := fun hfits => (token hfits).trans hnewline
  cases h with
  | quoted hw => exact hfits (.quoted hw)
  | comment hbody => exact hfits (.comment hbody)
  | @lastComment body hbody =>
      -- The newline closes the comment and is no token by itself.
      have hclosed : Continues ((Token.comment body true).render ++ b) [] b :=
        (token (.comment hbody)).uncounted rfl
      have hsame : (Token.comment body false).render ++ Byte.newline :: b
          = (Token.comment body true).render ++ b := by
        simp [Token.render]
      rw [hsame]
      exact ⟨hclosed.counted, hclosed.left⟩
  | continuation => exact hfits .continuation
  | semicolon => exact hfits .semicolon
  | newline => exact hfits .newline
  | word hb hw _ => exact hfits (.word hb hw (by intro c hc; cases hc; rfl))
  | @blanks c w _ hb hw _ =>
      -- The blanks run on into `b`, so both lines are compared behind all of them.
      have hjoined := blanks (c :: w ++ Byte.newline :: b)
      have halone := blanks b
      rw [List.dropWhile_append_of_pos hw, List.dropWhile_cons_of_pos rfl] at hjoined
      refine ⟨?_, ?_⟩
      · show Token.counted false (tokens (c :: w ++ Byte.newline :: b)).1 = _
        rw [hjoined.counted, halone.counted]
        rfl
      · show (tokens (c :: w ++ Byte.newline :: b)).2 = _
        rw [hjoined.left, halone.left]

end Continues

/-- A line that splits up to its end is counted as it is, whatever line is behind it. -/
theorem Splits.continues {a left : Bytes} {ts : List Token} (h : Splits a ts left)
    (hleft : left = []) (b : Bytes) : Continues (a ++ Byte.newline :: b) ts b := by
  induction h with
  | done => exact (Continues.token (t := .newline) .newline).uncounted rfl
  | stuck h =>
      rw [hleft] at h
      exact absurd h not_unclosed_nil
  | @token t rest left ts ht h ih =>
      by_cases hrest : rest = []
      · subst hrest
        obtain ⟨rfl, _⟩ := h.eq_nil
        rw [List.append_nil]
        exact .behind_newline ht b
      · rw [List.append_assoc]
        exact (Continues.token (ht.append hrest _)).trans (ih hleft)

/--
**The tokens of joined lines are those of the one and then those of the other.**  If the first line
splits up to its end, the newline behind it adds no token and takes none away, whatever the line
ends with, and of the second line the same is left as without the first.
-/
theorem joined_lines {a b : Bytes} (h : (Record.ofBytes false a).2 = []) :
    Record.ofBytes false (a ++ Byte.newline :: b)
      = (⟨a ++ Byte.newline :: (Record.ofBytes false b).1.raw,
          (Record.ofBytes false a).1.tokens ++ (Record.ofBytes false b).1.tokens⟩,
        (Record.ofBytes false b).2) := by
  obtain ⟨hcounted, hleft⟩ := (splits_tokens a).continues h b
  have hraw : renderAll (tokens (a ++ Byte.newline :: b)).1
      = a ++ Byte.newline :: renderAll (tokens b).1 := by
    have hjoined := renderAll_tokens (a ++ Byte.newline :: b)
    have halone := renderAll_tokens b
    rw [hleft] at hjoined
    have hall : renderAll (tokens (a ++ Byte.newline :: b)).1 ++ (tokens b).2
        = (a ++ Byte.newline :: renderAll (tokens b).1) ++ (tokens b).2 := by
      rw [hjoined, List.append_assoc, List.cons_append, halone]
    exact List.append_cancel_right hall
  show (Record.mk _ _, _) = (Record.mk _ _, _)
  rw [hraw, hcounted, hleft, List.map_append]
  rfl

/-- The first line ends with a comment, and the second stops at a quote. -/
theorem joined_lines_comment :
    let a : Bytes := [0x78, 0x20, 0x23, 0x27]
    let b : Bytes := [0x20, 0x79, 0x27]
    Record.ofBytes false (a ++ Byte.newline :: b)
      = (⟨a ++ [0x0a, 0x20, 0x79], [[0x78], [0x79]]⟩, [0x27]) := by
  intro a b
  have ha : (Record.ofBytes false a).2 = [] := by decide +kernel
  rw [joined_lines ha]
  decide +kernel

end CommandShell
