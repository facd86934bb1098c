/-
Separators inside of a line.

Two grammars read the same bytes.  The scan for the end of a line passes a closed quoted span as a
whole, and a hash or a backslash with all that is up to its next newline.  The tokens are taken from
the line afterwards: there a hash opens a comment only where a token begins, and a backslash is a
token by itself.

As long as the two agree, the scan stands where a token begins, and it goes on behind the token
(`Scanned.behind`).  What it stands at then is no terminator, so one inside of the line is hidden:
between quotes, in a comment, or behind a continuation.  They part at a stray mark only: a hash or a
backslash inside of a word, or a continuation with something between it and its newline.  Behind
one of these a separator of the line can be part of a word, and the next statement is arguments of
this one.
-/
import CommandShell.Proofs.Lexing
import CommandShell.Proofs.Spans

namespace CommandShell

/-- A hash or a backslash. -/
def Byte.isMark (b : UInt8) : Bool :=
  b == Byte.hash || b == Byte.backslash

/-! ### The scan at the beginning of a token -/

namespace Line

/-- The scan passes all of `s` and stops at the terminator behind it. -/
structure Scanned (s : Bytes) (t : UInt8) (suffix : Bytes) : Prop where
  scan_eq : scan (s ++ t :: suffix) = (s, t :: suffix)
  ends : Byte.isTerminator t = true

variable {s p suffix : Bytes} {t b : UInt8}

theorem Scanned.head (h : Scanned (b :: s) t suffix) : Byte.isTerminator b = false := by
  by_contra hb
  have hscan := h.scan_eq
  rw [List.cons_append, scan, if_pos (by simpa using hb)] at hscan
  simp at hscan

/-- Behind what is passed whatever follows, the scan goes on as it would from there. -/
theorem Scanned.behind (h : Scanned (p ++ s) t suffix) (hp : Passes p) : Scanned s t suffix := by
  have hscan := h.scan_eq
  rw [List.append_assoc, hp (s ++ t :: suffix) (by simp [h.ends])] at hscan
  simp only [Prod.mk.injEq] at hscan
  obtain ⟨hline, hrest⟩ := hscan
  exact ⟨Prod.ext (List.append_cancel_left hline) hrest, h.ends⟩

/-- The bytes of a token without quotes around it begin no span if none of them is a mark. -/
theorem isOrdinary_of_unmarked {c : UInt8} (h : Token.isWordByte c = true ∨ Byte.isBlank c = true)
    (hmark : Byte.isMark c = false) (ht : Byte.isTerminator c = false) :
    Byte.isOrdinary c = true := by
  have hquote : Quote.ofByte? c = none := by
    cases hq : Quote.ofByte? c with
    | none => rfl
    | some q =>
        rcases h with h | h
        · simp [Token.isWordByte, hq] at h
        · rw [Quote.byte_of_ofByte? hq, q.byte_not_blank] at h
          exact Bool.noConfusion h
  simp only [Byte.isMark, Bool.or_eq_false_iff, beq_eq_false_iff_ne] at hmark
  simp [Byte.isOrdinary, hquote, hmark.1, hmark.2, ht]

/-- Without a mark the scan passes such bytes one by one, and it does not stop. -/
theorem Scanned.plain {x : Bytes} (h : Scanned (x ++ s) t suffix)
    (hx : ∀ c ∈ x, Token.isWordByte c = true ∨ Byte.isBlank c = true)
    (hmark : ∀ c ∈ x, Byte.isMark c = false) : Scanned s t suffix := by
  induction x with
  | nil => exact h
  | cons c x ih =>
      have hc := isOrdinary_of_unmarked (hx c (by simp)) (hmark c (by simp)) (Scanned.head h)
      refine ih ?_ (fun d hd => hx d (by simp [hd])) (fun d hd => hmark d (by simp [hd]))
      exact Scanned.behind (p := [c]) h (.ordinary hc)

end Line

/-! ### Where a separator of a line is -/

/-- A separator in this token is hidden: it is between quotes or in a comment, or it is a newline
directly behind a continuation. -/
def HiddenAt (before : List Token) (tok : Token) : Prop :=
  (∃ q w, tok = .quoted q w) ∨ (∃ body closed, tok = .comment body closed) ∨
    (tok = .newline ∧ ∃ u, before = u ++ [.continuation])

/-- A mark before the separator that the scan and the tokens read differently.  It is inside of a
word, this one up to the separator or one before it, or it is a continuation that does not end its
physical line. -/
def StrayBefore (before : List Token) (tok : Token) (x : Bytes) : Prop :=
  (∃ w, .word w ∈ before ∧ w.any Byte.isMark = true) ∨
    (∃ w, tok = .word w ∧ x.any Byte.isMark = true) ∨
    (∃ u t v, before ++ [tok] = u ++ .continuation :: t :: v ∧ t ≠ .newline)

theorem HiddenAt.cons {before : List Token} {tok : Token} (t : Token) (h : HiddenAt before tok) :
    HiddenAt (t :: before) tok := by
  rcases h with h | h | ⟨htok, u, hu⟩
  · exact Or.inl h
  · exact Or.inr (Or.inl h)
  · exact Or.inr (Or.inr ⟨htok, t :: u, by rw [hu, List.cons_append]⟩)

theorem StrayBefore.cons {before : List Token} {tok : Token} {x : Bytes} (t : Token)
    (h : StrayBefore before tok x) : StrayBefore (t :: before) tok x := by
  rcases h with ⟨w, hw, hmark⟩ | h | ⟨u, t', v, hu, ht'⟩
  · exact Or.inl ⟨w, List.mem_cons_of_mem t hw, hmark⟩
  · exact Or.inr (Or.inl h)
  · exact Or.inr (Or.inr ⟨t :: u, t', v, by rw [List.cons_append, hu, List.cons_append], ht'⟩)

namespace Line

theorem not_isMark_of_isBlank {c : UInt8} (h : Byte.isBlank c = true) : Byte.isMark c = false := by
  by_contra hmark
  simp only [Byte.isMark, Bool.not_eq_false, Bool.or_eq_true, beq_iff_eq] at hmark
  rcases hmark with rfl | rfl
  · exact absurd h (by decide)
  · exact absurd h (by decide)

/-- A separator in the token that the scan stands at. -/
theorem Scanned.at_token {tok : Token} {x y : Bytes} (h : Scanned (tok.render ++ s) t suffix)
    (hfits : tok.Fits s) (hrender : tok.render = x ++ b :: y) (hb : Byte.isTerminator b = true) :
    HiddenAt [] tok ∨ StrayBefore [] tok x := by
  have hmem : b ∈ tok.render := by simp [hrender]
  have hsub : ∀ c ∈ x, c ∈ tok.render := by
    intro c hc
    rw [hrender]
    exact List.mem_append_left _ hc
  -- The scan does not get to a terminator, so it comes to a mark before.
  have hmarked : (∀ c ∈ x, Token.isWordByte c = true ∨ Byte.isBlank c = true) →
      x.any Byte.isMark = true := by
    intro hx
    by_contra hmark
    rw [hrender, List.append_assoc] at h
    have hhead := (h.plain hx (by simpa using hmark)).head
    rw [hb] at hhead
    exact Bool.noConfusion hhead
  cases hfits with
  | @quoted q w _ hw => exact Or.inl (Or.inl ⟨q, w, rfl⟩)
  | @comment body _ hbody => exact Or.inl (Or.inr (Or.inl ⟨body, true, rfl⟩))
  | @lastComment body _ => exact Or.inl (Or.inr (Or.inl ⟨body, false, rfl⟩))
  | continuation =>
      rw [List.mem_singleton.mp hmem] at hb
      exact absurd hb (by decide)
  | semicolon => exact absurd h.head (by decide)
  | newline => exact absurd h.head (by decide)
  | word _ hw _ =>
      have hmark := hmarked fun c hc => Or.inl (hw c (hsub c hc))
      exact Or.inr (Or.inr (Or.inl ⟨_, rfl, hmark⟩))
  | blanks _ hw _ =>
      obtain ⟨c, hc, hmark⟩ := List.any_eq_true.mp (hmarked fun c hc => Or.inr (hw c (hsub c hc)))
      rw [not_isMark_of_isBlank (hw c (hsub c hc))] at hmark
      exact Bool.noConfusion hmark

/-- The scan gets behind a token that has no stray mark in it. -/
theorem Scanned.past {tok : Token} (h : Scanned (tok.render ++ s) t suffix) (hfits : tok.Fits s)
    (hs : s ≠ []) (hcontinuation : tok ≠ .continuation)
    (hword : ¬ ∃ w, tok = .word w ∧ w.any Byte.isMark = true) : Scanned s t suffix := by
  cases hfits with
  | quoted hw => exact h.behind (.quoted hw)
  | comment hbody => exact h.behind (.joined (Or.inl rfl) hbody)
  | lastComment _ => exact absurd rfl hs
  | continuation => exact absurd rfl hcontinuation
  | semicolon => exact absurd h.head (by decide)
  | newline => exact absurd h.head (by decide)
  | word _ hw _ =>
      refine h.plain (fun c hc => Or.inl (hw c hc)) ?_
      intro c hc
      by_contra hmark
      exact hword ⟨_, rfl, List.any_eq_true.mpr ⟨c, hc, by simpa using hmark⟩⟩
  | blanks _ hw _ =>
      exact h.plain (fun c hc => Or.inr (hw c hc)) fun c hc => not_isMark_of_isBlank (hw c hc)

/-- Where the scan stands at a token, every separator in what it passes is hidden, unless a stray
mark is before it. -/
theorem Scanned.separators {tok : Token} {before after : List Token} {x y : Bytes}
    (h : Scanned s t suffix) (htokens : tokens s = (before ++ tok :: after, []))
    (hrender : tok.render = x ++ b :: y) (hb : Byte.isTerminator b = true) :
    HiddenAt before tok ∨ StrayBefore before tok x := by
  induction hn : before.length using Nat.strongRecOn generalizing before s with
  | ind n ih =>
      subst hn
      cases before with
      | nil =>
          obtain ⟨r, rfl, hfits, _⟩ := tokens_eq_cons htokens
          exact h.at_token hfits hrender hb
      | cons first before =>
          obtain ⟨r, rfl, hfits, hrest⟩ := tokens_eq_cons htokens
          by_cases hcontinuation : first = .continuation
          · subst hcontinuation
            -- The newline that the scan passes with the backslash is the next token, or a stray.
            cases before with
            | nil =>
                by_cases hnewline : tok = .newline
                · exact Or.inl (Or.inr (Or.inr ⟨hnewline, [], rfl⟩))
                · exact Or.inr (Or.inr (Or.inr ⟨[], tok, [], rfl, hnewline⟩))
            | cons second before =>
                by_cases hnewline : second = .newline
                · subst hnewline
                  obtain ⟨r', rfl, _, hrest'⟩ := tokens_eq_cons hrest
                  have hbehind : Scanned r' t suffix :=
                    h.behind (p := [Byte.backslash, Byte.newline])
                      (.joined (w := []) (Or.inr rfl) (by simp))
                  have hlt : before.length < (Token.continuation :: .newline :: before).length := by
                    simp only [List.length_cons]
                    omega
                  rcases ih before.length hlt hbehind hrest' rfl with hhidden | hstray
                  · exact Or.inl ((hhidden.cons _).cons _)
                  · exact Or.inr ((hstray.cons _).cons _)
                · exact Or.inr (Or.inr (Or.inr ⟨[], second, before ++ [tok], rfl, hnewline⟩))
          · by_cases hword : ∃ w, first = .word w ∧ w.any Byte.isMark = true
            · obtain ⟨w, rfl, hmark⟩ := hword
              exact Or.inr (Or.inl ⟨w, List.mem_cons_self, hmark⟩)
            · have hne : r ≠ [] := by
                rintro rfl
                rw [tokens] at hrest
                simp at hrest
              have hpast := h.past hfits hne hcontinuation hword
              rcases ih before.length (Nat.lt_succ_self _) hpast hrest rfl with hhidden | hstray
              · exact Or.inl (hhidden.cons _)
              · exact Or.inr (hstray.cons _)

/-- A line at the front is all that the scan passes. -/
theorem scanned_of_front {raw blanks line rest : Bytes} {t : UInt8}
    (h : front raw = .line blanks line t rest) : Scanned line t rest := by
  rcases front_cases raw with ⟨_, _, _, _, he⟩ | ⟨b, w, t', rest', hscan, _, ht, he⟩ |
    ⟨_, _, _, _, he⟩ | ⟨_, _, he⟩ <;> rw [he] at h
  · exact Front.noConfusion h
  · injection h with _ hline hterm hrest
    subst hline hterm hrest
    have hsplit := scan_append (raw.dropWhile Byte.isBlank)
    rw [hscan] at hsplit
    exact ⟨by rw [hsplit]; exact hscan, ht⟩
  · exact Front.noConfusion h
  · exact Front.noConfusion h

theorem scanned_of_cut {raw line rest : Bytes} (h : cut raw = (line, rest)) (hne : line ≠ []) :
    ∃ t, Scanned line t rest := by
  unfold cut at h
  cases hf : front raw with
  | empty skipped rest' =>
      rw [hf] at h
      injection h with hline _
      exact absurd hline.symm hne
  | line blanks line' t rest' =>
      rw [hf] at h
      obtain ⟨rfl, rfl⟩ := Prod.mk.inj h
      exact ⟨t, scanned_of_front hf⟩
  | unfinished =>
      rw [hf] at h
      injection h with hline _
      exact absurd hline.symm hne

/--
**A separator inside of a line is hidden, or a stray mark is before it.**  Let a line that is cut
off split up to its end.  Then a semicolon or newline in it is between quotes, in a comment or
directly behind a continuation.  Otherwise there is a hash or a backslash inside of a word before
it, or a continuation with something else than a newline behind it.
-/
theorem separators_hidden {raw line rest : Bytes} {before after : List Token} {tok : Token}
    {x y : Bytes} {b : UInt8} (hcut : cut raw = (line, rest)) (hne : line ≠ [])
    (htokens : tokens line = (before ++ tok :: after, [])) (hrender : tok.render = x ++ b :: y)
    (hb : Byte.isTerminator b = true) : HiddenAt before tok ∨ StrayBefore before tok x := by
  obtain ⟨t, hscanned⟩ := scanned_of_cut hcut hne
  exact hscanned.separators htokens hrender hb

/-- A physical line that is continued, and the line ends behind the next. -/
theorem separators_hidden_continued :
    let raw : Bytes := [0x61, 0x20, 0x5c, 0x0a, 0x62, 0x0a]
    let before : List Token := [.word [0x61], .blanks [0x20], .continuation]
    cut raw = ([0x61, 0x20, 0x5c, 0x0a, 0x62], []) ∧
      (HiddenAt before .newline ∨ StrayBefore before .newline []) := by
  intro raw before
  have hcut : cut raw = ([0x61, 0x20, 0x5c, 0x0a, 0x62], []) := by decide +kernel
  have htokens : tokens [0x61, 0x20, 0x5c, 0x0a, 0x62]
      = (before ++ .newline :: [.word [0x62]], []) := by decide +kernel
  exact ⟨hcut, separators_hidden (x := []) hcut (by simp) htokens rfl (by decide)⟩

/-- **A semicolon is part of a word.**  A backslash in front of it hides it from the scan, and the
newline behind it too.  What stands on the next line is one more argument. -/
theorem separator_in_word :
    let raw : Bytes := [0x61, 0x20, 0x5c, 0x62, 0x3b, 0x63, 0x0a, 0x64, 0x0a]
    let line : Bytes := [0x61, 0x20, 0x5c, 0x62, 0x3b, 0x63, 0x0a, 0x64]
    let before : List Token := [.word [0x61], .blanks [0x20], .continuation]
    let tok : Token := .word [0x62, 0x3b, 0x63]
    cut raw = (line, []) ∧ tokens line = (before ++ tok :: [.newline, .word [0x64]], []) ∧
      tok.render = [0x62] ++ Byte.semicolon :: [0x63] ∧ ¬ HiddenAt before tok := by
  intro raw line before tok
  refine ⟨by decide +kernel, by decide +kernel, rfl, ?_⟩
  rintro (⟨q, w, h⟩ | ⟨body, closed, h⟩ | ⟨h, _⟩)
  · exact Token.noConfusion h
  · exact Token.noConfusion h
  · exact Token.noConfusion h

end Line

end CommandShell
