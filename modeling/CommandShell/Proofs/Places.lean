/-
Places that are in range.

A scan tells where a record lies, and the record is cut out of the bytes that it uses up.  Every
cut is at a place that is there: a record uses up at least one byte and none that has not arrived,
its bytes lie among those it uses up, and the texts of its tokens lie among its bytes, one behind
the other (`Found.InRange`).  So nothing is lost if the cuts are checked (`Found.take?_eq`).

The places of tokens come from their lengths alone (`Scan.extents_inside`).  That two of them do not
touch does not: it is because a word reaches as far as it can.  What follows a word is a quote or a
blank, and a quote comes before its text.  So this is shown along `Splits`, with what can be behind
each token (`Scan.extents_apart`).

Before there are places there are views of a buffer in memory, and a place is the difference of two
addresses.  `View.statement?` looks for a statement that way, and gives up if any difference falls
below zero.  None does, and it comes to what the scan comes to (`View.statement?_eq`).
-/
import CommandShell.Proofs.Block
import CommandShell.Proofs.Lexing

namespace CommandShell

/-! ### Checked cuts -/

/-- A place lies inside another. -/
structure Extent.Inside (e f : Extent) : Prop where
  front : f.start ≤ e.start
  forward : e.start ≤ e.stop
  back : e.stop ≤ f.stop

theorem Extent.Inside.trans {e f g : Extent} (h : e.Inside f) (h' : f.Inside g) : e.Inside g :=
  ⟨Nat.le_trans h'.front h.front, h.forward, Nat.le_trans h.back h'.back⟩

/-- The bytes that lie at a place of `s`, if it is a place of `s`. -/
def Extent.cut? (e : Extent) (s : Bytes) : Option Bytes :=
  if e.start ≤ e.stop ∧ e.stop ≤ s.length then some (e.cut s) else none

/-- What lies inside the first bytes can be cut out of these. -/
theorem Extent.Inside.cut?_take {e : Extent} {n : Nat} {s : Bytes} (h : e.Inside ⟨0, n⟩)
    (hn : n ≤ s.length) : e.cut? (s.take n) = some (e.cut s) := by
  have hlen : e.stop ≤ (s.take n).length := by
    rw [List.length_take, Nat.min_eq_left hn]
    exact h.back
  unfold cut?
  rw [if_pos ⟨h.forward, hlen⟩]
  unfold cut
  rw [List.take_take, Nat.min_eq_left h.back]

theorem mapM_eq_some_map {α β : Type} {f : α → Option β} {g : α → β} {l : List α}
    (h : ∀ a ∈ l, f a = some (g a)) : l.mapM f = some (l.map g) := by
  induction l with
  | nil => rfl
  | cons a l ih =>
      rw [List.mapM_cons, h a List.mem_cons_self, ih fun b hb => h b (List.mem_cons_of_mem a hb)]
      rfl

namespace Found

/-- Takes a record and the bytes it uses up out of a buffer, unless something to be taken is not
there.  The record is cut out of a copy of the bytes that it uses up. -/
def take? (f : Found) (buffer : Bytes) : Option (Record × Bytes) :=
  if f.consumed ≤ buffer.length then do
    let raw ← f.raw.cut? (buffer.take f.consumed)
    let tokens ← f.tokens.mapM fun e => e.cut? (buffer.take f.consumed)
    return (⟨raw, tokens⟩, buffer.drop f.consumed)
  else none

/-- What is found lies in a buffer of so many bytes. -/
structure InRange (f : Found) (size : Nat) : Prop where
  /-- It uses up something. -/
  used : 1 ≤ f.consumed
  /-- It uses up nothing that is not there. -/
  there : f.consumed ≤ size
  /-- Its bytes are among those it uses up. -/
  raw : f.raw.Inside ⟨0, f.consumed⟩
  /-- The texts of its tokens are among its bytes. -/
  tokens : ∀ e ∈ f.tokens, e.Inside f.raw
  /-- They come one behind the other, and there is at least a byte between any two. -/
  apart : f.tokens.Pairwise fun d e => d.stop < e.start

variable {f : Found} {buffer : Bytes}

theorem InRange.token_used {size : Nat} (h : f.InRange size) :
    ∀ e ∈ f.tokens, e.Inside ⟨0, f.consumed⟩ :=
  fun e he => (h.tokens e he).trans h.raw

/-- **What is in range can be taken.** -/
theorem take?_eq (h : f.InRange buffer.length) :
    f.take? buffer = some (f.record buffer, buffer.drop f.consumed) := by
  have htokens : f.tokens.mapM (fun e => e.cut? (buffer.take f.consumed))
      = some (f.tokens.map fun e => e.cut buffer) :=
    mapM_eq_some_map fun e he => (h.token_used e he).cut?_take h.there
  unfold take?
  rw [if_pos h.there, h.raw.cut?_take h.there, htokens]
  rfl

end Found

/-! ### The places of tokens -/

namespace Token

theorem render_length (t : Token) : t.lead + t.text.length ≤ t.render.length := by
  obtain ⟨u, v, hr, hl⟩ := t.render_eq
  rw [hr, List.length_append, List.length_append]
  omega

end Token

namespace Scan

theorem mem_extents_cons {start : Nat} {t : Token} {ts : List Token} {e : Extent}
    (h : e ∈ extents start (t :: ts)) :
    (t.isSeparator = false ∧ e = t.extent start) ∨ e ∈ extents (start + t.render.length) ts := by
  cases hs : t.isSeparator with
  | true =>
      simp only [extents, hs, if_true] at h
      exact Or.inr h
  | false =>
      simp only [extents, hs, Bool.false_eq_true, if_false] at h
      rcases List.mem_cons.mp h with rfl | h
      · exact Or.inl ⟨rfl, rfl⟩
      · exact Or.inr h

/-- The texts of tokens lie where the tokens were read. -/
theorem extents_inside (ts : List Token) :
    ∀ start, ∀ e ∈ extents start ts, e.Inside ⟨start, start + (renderAll ts).length⟩ := by
  induction ts with
  | nil => simp [extents]
  | cons t ts ih =>
      intro start e he
      have hlen : (renderAll (t :: ts)).length = t.render.length + (renderAll ts).length := by
        simp [renderAll]
      have hlead := t.render_length
      rcases mem_extents_cons he with ⟨_, rfl⟩ | he
      · refine ⟨?_, ?_, ?_⟩ <;> simp only [Token.extent, hlen] <;> omega
      · exact (ih _ e he).trans ⟨by simp, by simp, by simp only [hlen]; omega⟩

/-- Unless a word begins there, the first text lies behind the first byte. -/
theorem extents_behind {s left : Bytes} {ts : List Token} (h : Splits s ts left)
    (hs : ∀ b ∈ s.head?, Token.isWordByte b = false) (start : Nat) :
    ∀ e ∈ extents start ts, start < e.start := by
  cases h with
  | done => simp [extents]
  | stuck => simp [extents]
  | @token t rest _ ts ht h =>
      intro e he
      rcases mem_extents_cons he with ⟨hsep, rfl⟩ | he
      · cases ht with
        | quoted => simp [Token.extent, Token.lead]
        | word _ hw _ =>
            have hnot := hs _ rfl
            rw [hw _ List.mem_cons_self] at hnot
            exact Bool.noConfusion hnot
        | _ => simp [Token.isSeparator] at hsep
      · have hpos := ht.render_length_pos
        have hin := (extents_inside ts _ e he).front
        simp only at hin
        omega

/-- **No two texts touch.** -/
theorem extents_apart {s left : Bytes} {ts : List Token} (h : Splits s ts left) (start : Nat) :
    (extents start ts).Pairwise fun d e => d.stop < e.start := by
  induction h generalizing start with
  | done => exact .nil
  | stuck => exact .nil
  | @token t rest left ts ht h ih =>
      cases hsep : t.isSeparator with
      | true =>
          simp only [extents, hsep, if_true]
          exact ih _
      | false =>
          simp only [extents, hsep, Bool.false_eq_true, if_false]
          refine .cons ?_ (ih _)
          intro e he
          cases ht with
          | @quoted q w _ _ =>
              have hin := (extents_inside ts _ e he).front
              simp only [Token.render, List.length_cons, List.length_append] at hin
              simp only [Token.extent, Token.lead, Token.text]
              omega
          | @word b w _ _ _ hrest =>
              -- What is behind a word does not go on with it.
              have hbehind := extents_behind h hrest _ e he
              simp only [Token.extent, Token.lead, Token.text, Token.render] at hbehind ⊢
              omega
          | _ => simp [Token.isSeparator] at hsep

/-- The places of a line are in range, whether all of it was split, a part of it or nothing. -/
theorem ofLine_inRange (start : Nat) {line : Bytes} (h : line ≠ []) :
    (ofLine start line).InRange (start + line.length + 1) := by
  obtain ⟨hused, hthere⟩ := ofLine_bounds start h
  have hsplits := splits_tokens line
  have hlen := congrArg List.length (renderAll_tokens line)
  rw [List.length_append] at hlen
  refine ⟨hused, hthere, ?_, ?_, ?_⟩
  all_goals
    unfold ofLine
    simp only [length_used]
    split
  · exact ⟨Nat.zero_le _, by simp, by simp⟩
  · refine ⟨Nat.zero_le _, by simp, ?_⟩
    split
    · simp only
      omega
    · exact Nat.le_refl _
  · simp
  · exact extents_inside _ start
  · exact .nil
  · exact extents_apart hsplits start

/-! ### Places from addresses -/

end Scan

/-- A difference that must not fall below zero. -/
def minus? (m n : Nat) : Option Nat :=
  if n ≤ m then some (m - n) else none

@[simp] theorem minus?_add (m n : Nat) : minus? (m + n) m = some n := by
  simp [minus?]

/-- Bytes, and the address at which they lie in memory. -/
structure View where
  address : Nat
  bytes : Bytes

namespace View

/-- Where a view lies in another, which is counted from the address of that one. -/
def placeIn? (inner outer : View) : Option Extent :=
  (minus? inner.address outer.address).map fun start => ⟨start, start + inner.bytes.length⟩

/-- The first line of a view, and the rest behind it.  An empty line can lie anywhere. -/
def cut (v : View) : View × View :=
  match Line.front v.bytes with
  | .empty skipped rest => (⟨v.address, []⟩, ⟨v.address + skipped.length, rest⟩)
  | .line blanks line _ rest =>
    (⟨v.address + blanks.length, line⟩, ⟨v.address + blanks.length + line.length + 1, rest⟩)
  | .unfinished => (⟨v.address, []⟩, v)

/-- The texts of the counted tokens that were read one after the other from an address on. -/
def texts (address : Nat) : List Token → List View
  | [] => []
  | t :: ts =>
    let rest := texts (address + t.render.length) ts
    if t.isSeparator then rest else ⟨address + t.lead, t.text⟩ :: rest

/-- Where the record of a line lies in a view.  `consumed` is what the line uses up with the
terminator behind it. -/
def found? (line v : View) (consumed : Nat) : Option Found := do
  let ts := tokens line.bytes
  let used ← minus? line.bytes.length ts.2.length
  let raw : View := ⟨line.address, line.bytes.take used⟩
  let left : View := ⟨line.address + used, ts.2⟩
  if raw.bytes.isEmpty then
    let place ← line.placeIn? v
    return ⟨place, [], consumed⟩
  else
    let place ← raw.placeIn? v
    let places ← (texts line.address ts.1).mapM (·.placeIn? v)
    if left.bytes.isEmpty then
      return ⟨place, places, consumed⟩
    else
      let leftover ← left.placeIn? v
      return ⟨place, places, leftover.start⟩

/-- Looks for a statement, with all places told by addresses and all lengths by differences.
There is no answer if one of them falls below zero. -/
def statement? (v : View) : Option Scan := do
  let consumed ← minus? v.bytes.length v.cut.2.bytes.length
  if v.cut.1.bytes.isEmpty then
    return if consumed = 0 then .incomplete else .skip consumed
  else
    let found ← found? v.cut.1 v consumed
    return .complete found

theorem placeIn?_add (v : View) (n : Nat) (s : Bytes) :
    (View.mk (v.address + n) s).placeIn? v = some ⟨n, n + s.length⟩ := by
  simp [placeIn?]

/-- The places of texts do not depend on where the buffer lies. -/
theorem placesIn?_texts (v : View) (ts : List Token) :
    ∀ start, (texts (v.address + start) ts).mapM (·.placeIn? v) = some (Scan.extents start ts) := by
  induction ts with
  | nil => intro start; rfl
  | cons t ts ih =>
      intro start
      have hrest := ih (start + t.render.length)
      rw [← Nat.add_assoc] at hrest
      cases hs : t.isSeparator with
      | true =>
          simp only [texts, Scan.extents, hs, if_true]
          exact hrest
      | false =>
          simp only [texts, Scan.extents, hs, Bool.false_eq_true, if_false]
          rw [List.mapM_cons, hrest, Nat.add_assoc, placeIn?_add]
          rfl

theorem found?_eq (v : View) (n : Nat) (line : Bytes) :
    found? ⟨v.address + n, line⟩ v (n + line.length + 1) = some (Scan.ofLine n line) := by
  have hline := renderAll_tokens line
  have hlen := congrArg List.length hline
  rw [List.length_append] at hlen
  have hused : minus? line.length (tokens line).2.length
      = some (renderAll (tokens line).1).length := by
    rw [← hlen, Nat.add_comm, minus?_add]
  have htake : renderAll (tokens line).1 = line.take (renderAll (tokens line).1).length :=
    List.prefix_iff_eq_take.mp ⟨(tokens line).2, hline⟩
  unfold found? Scan.ofLine
  simp only [hused, ← htake, Scan.length_used, Option.bind_eq_bind, Option.bind_some, placeIn?_add,
    placesIn?_texts, Nat.add_assoc, List.isEmpty_iff, List.length_eq_zero_iff]
  by_cases hr : renderAll (tokens line).1 = []
  · rw [if_pos hr, if_pos hr]
    rfl
  · rw [if_neg hr, if_neg hr]
    by_cases hl : (tokens line).2 = []
    · rw [if_pos hl, if_pos hl]
      rfl
    · rw [if_neg hl, if_neg hl]
      rfl

/-- **No difference falls below zero**, and what comes of the search is the scan, wherever in memory
the buffer lies. -/
theorem statement?_eq (v : View) : v.statement? = some (Scan.statement v.bytes) := by
  unfold statement? cut Scan.statement
  cases hf : Line.front v.bytes with
  | empty skipped rest =>
      obtain ⟨hb, hne⟩ := Line.front_eq_empty hf
      have hused : minus? v.bytes.length rest.length = some skipped.length := by
        rw [hb, List.length_append, Nat.add_comm, minus?_add]
      simp [hused, hne]
  | line blanks line t rest =>
      obtain ⟨hb, hne⟩ := Line.front_eq_line hf
      have hused : minus? v.bytes.length rest.length = some (blanks.length + line.length + 1) := by
        rw [hb, show (blanks ++ line ++ t :: rest).length
          = rest.length + (blanks.length + line.length + 1) by simp; omega, minus?_add]
      simp [hused, hne, found?_eq]
  | unfinished =>
      simp [minus?]

end View

/-! ### What a scan finds -/

/-- What is found is what there is to be found: of a line what was split of it, or all of it, and
otherwise the shortest block. -/
def Found.Denotes (f : Found) (mode : Mode) (buffer : Bytes) : Prop :=
  match mode.test? with
  | none => ∃ line rest, Line.cut buffer = (line, rest) ∧ line ≠ [] ∧
      f.record buffer = recordOf line ∧
      f.consumed = if renderAll (CommandShell.tokens line).1 = [] ∨
        (CommandShell.tokens line).2 = [] then buffer.length - rest.length else f.raw.stop
  | some test => ∃ block, ShortestBlock test buffer block ∧ f.record buffer = ⟨block, []⟩ ∧
      f.consumed = block.length + 1

namespace Scan

theorem statement_places {buffer : Bytes} {found : Found}
    (h : statement buffer = .complete found) :
    found.InRange buffer.length ∧ found.Denotes .statement buffer := by
  obtain ⟨blanks, line, t, rest, hf, hrecord, _⟩ := line_of_complete h
  obtain ⟨hb, hne⟩ := Line.front_eq_line hf
  unfold statement at h
  rw [hf] at h
  injection h with h
  subst h
  have hlen : buffer.length = blanks.length + line.length + 1 + rest.length := by
    rw [hb]
    simp
    omega
  have hin := ofLine_inRange blanks.length hne
  refine ⟨{ hin with there := ?_ }, line, rest, Line.cut_of_line hf, hne, hrecord, ?_⟩
  · have hthere := hin.there
    omega
  · rw [hlen, Nat.add_sub_cancel]
    unfold ofLine
    simp only [length_used, List.length_eq_zero_iff, List.isEmpty_iff]
    by_cases hr : renderAll (tokens line).1 = []
    · rw [if_pos hr, if_pos (Or.inl hr)]
    · rw [if_neg hr]
      by_cases hl : (tokens line).2 = []
      · rw [if_pos (Or.inr hl)]
        exact if_pos hl
      · rw [if_neg (not_or.mpr ⟨hr, hl⟩)]
        exact if_neg hl

theorem block_places {mode : Mode} {test : Bytes → Bool} {buffer : Bytes} {found : Found}
    (hm : mode.test? = some test) (h : ofMode mode buffer = .complete found) :
    found.InRange buffer.length ∧ found.Denotes mode buffer := by
  rcases block_found hm buffer with ⟨block, rest, hshortest, hb, hs⟩ | ⟨_, hs⟩
  · rw [h] at hs
    injection hs with hs
    subst hs
    have hthere : block.length + 1 ≤ buffer.length := by
      rw [hb, List.length_append, List.length_cons]
      omega
    have hcut : Extent.cut ⟨0, block.length⟩ buffer = block := by
      rw [hb]
      simp [Extent.cut]
    refine ⟨⟨Nat.succ_pos _, hthere, ?_, by simp, .nil⟩, ?_⟩
    · exact ⟨Nat.le_refl 0, Nat.zero_le _, Nat.le_succ _⟩
    · unfold Found.Denotes
      rw [hm]
      exact ⟨block, hshortest, congrArg (Record.mk · []) hcut, rfl⟩
  · rw [h] at hs
    exact Scan.noConfusion hs

end Scan

/-- What a scan of a buffer in a mode comes to is there. -/
structure Scan.Places (mode : Mode) (buffer : Bytes) : Prop where
  /-- A complete record is in range, and it is what was to be found. -/
  complete : ∀ {found}, ofMode mode buffer = .complete found →
    found.InRange buffer.length ∧ (∀ e ∈ found.tokens, e.Inside ⟨0, found.consumed⟩) ∧
      found.Denotes mode buffer
  /-- So it can be taken out of the buffer, with every cut checked. -/
  take : ∀ {found}, ofMode mode buffer = .complete found →
    found.take? buffer = some (found.record buffer, buffer.drop found.consumed)
  /-- Dropped statements are there too, and there is something to drop. -/
  skip : ∀ {count}, ofMode mode buffer = .skip count → 1 ≤ count ∧ count ≤ buffer.length
  /-- No place is told by a difference that falls below zero, wherever the buffer lies. -/
  addresses : mode.test? = none → ∀ address, View.statement? ⟨address, buffer⟩
    = some (ofMode mode buffer)

/--
**Every place that a scan tells is in range.**  A record uses up at least one byte and none that is
not there.  Its bytes are among these and the texts of its tokens among its bytes, in order and
apart from each other, those of `''` and `""` too; and cut out they are what was split.
-/
theorem Scan.places (mode : Mode) (buffer : Bytes) : Scan.Places mode buffer := by
  have hcomplete : ∀ {found}, ofMode mode buffer = .complete found →
      found.InRange buffer.length ∧ found.Denotes mode buffer := by
    intro found h
    cases mode with
    | statement => exact statement_places h
    | line => exact block_places rfl h
    | terminated terminator => exact block_places rfl h
    | accepted test => exact block_places rfl h
  refine ⟨?_, ?_, ?_, ?_⟩
  · intro found h
    obtain ⟨hin, hdenotes⟩ := hcomplete h
    exact ⟨hin, hin.token_used, hdenotes⟩
  · intro found h
    exact Found.take?_eq (hcomplete h).1
  · intro count h
    exact resume_skip h
  · intro hm address
    have hs : ofMode mode buffer = statement buffer := by
      unfold ofMode resume
      rw [hm]
    rw [hs]
    exact View.statement?_eq ⟨address, buffer⟩

/-- Two quoted texts without anything in them, and a quote that is left in front of the newline. -/
theorem Scan.places_empty_tokens :
    let buffer : Bytes := [0x20, 0x27, 0x27, 0x20, 0x22, 0x22, 0x22, 0x0a]
    let found : Found := ⟨⟨1, 6⟩, [⟨2, 2⟩, ⟨5, 5⟩], 6⟩
    ofMode .statement buffer = .complete found ∧ found.InRange buffer.length ∧
      found.take? buffer
        = some (⟨[0x27, 0x27, 0x20, 0x22, 0x22], [[], []]⟩, [0x22, 0x0a]) ∧
      View.statement? ⟨4096, buffer⟩ = some (.complete found) := by
  intro buffer found
  have hs : ofMode .statement buffer = .complete found := by decide +kernel
  have hplaces := places .statement buffer
  refine ⟨hs, (hplaces.complete hs).1, hplaces.take hs, ?_⟩
  rw [hplaces.addresses rfl 4096, hs]

end CommandShell
