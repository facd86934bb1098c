/-
What a comment does to a session.

A comment is passed as a span only if a terminator is left behind its newline.  When its newline
is the last byte that has arrived there is none, and the scan goes through the comment byte by
byte: it stops at the first semicolon that is not in a closed quoted span.  The tokens are the
words all the same, because what it has gone through is still a comment to them, but what is
`behindComment` stays in front of the next request (`next_commented`).  If the comment has no
semicolon that is nothing.

Beyond that only the raw text of a statement shows what its comment was, and that is seen by
nobody but handlers.  So comments that leave the same behind them make no difference to a
session whose handlers do not look (`run_alike`); and a comment that leaves a statement behind
has that statement run.
-/
import CommandShell.Proofs.Words
import CommandShell.Rehearsal.Handler

namespace CommandShell

/-! ### The scan of a comment -/

namespace Line

/-- What is left for the next request of a comment with the text `c` that ends with the bytes that
have arrived. -/
def behindComment (c : Bytes) : Bytes :=
  (scan (c ++ [Byte.newline])).2.drop 1

/-- A comment at the end of the buffer hides nothing.  The scan stops at its newline, or at a
semicolon before that. -/
theorem scan_comment {c : Bytes} (hc : Byte.newline ∉ c) :
    ∃ body t, Byte.isTerminator t = true ∧
      scan (Byte.hash :: (c ++ [Byte.newline])) = (Byte.hash :: body, t :: behindComment c) ∧
      (c = body ∧ behindComment c = [] ∨
        ∃ v, c = body ++ Byte.semicolon :: v ∧ behindComment c = v ++ [Byte.newline]) := by
  obtain ⟨t, rest, hrest, ht⟩ := scan_stops (s := c ++ [Byte.newline]) (by simp)
  have hbehind : behindComment c = rest := by
    unfold behindComment
    rw [hrest]
    rfl
  -- The span through the newline leaves nothing behind it, so only the hash is passed.
  have hstride : stride Byte.hash (c ++ [Byte.newline]) = ([Byte.hash], c ++ [Byte.newline]) := by
    have hq : Quote.ofByte? Byte.hash = none := rfl
    unfold stride span?
    rw [hq]
    simp [Bytes.splitFirst?_eq_some hc]
  refine ⟨(scan (c ++ [Byte.newline])).1, t, ht, ?_, ?_⟩
  · rw [scan, if_neg (by decide), hstride, hrest, hbehind]
    rfl
  · have hsplit := scan_append (c ++ [Byte.newline])
    rw [hrest] at hsplit
    rcases append_cons_cases hsplit.symm with ⟨a, hbody, ha⟩ | ⟨v, hv, hv'⟩
    · refine Or.inl ?_
      cases a with
      | nil =>
          rw [List.nil_append] at ha
          injection ha with _ ha
          exact ⟨by rw [hbody, List.append_nil], by rw [hbehind, ← ha]⟩
      | cons x a => exact absurd ha (by simp)
    · refine Or.inr ⟨v, ?_, by rw [hbehind, hv']⟩
      rcases Byte.isTerminator_iff.mp ht with rfl | rfl
      · exact hv
      · exact absurd (by rw [hv]; simp) hc

theorem behindComment_eq_nil {c : Bytes} (hc : Byte.newline ∉ c) (hs : Byte.semicolon ∉ c) :
    behindComment c = [] := by
  obtain ⟨_, _, _, _, ⟨_, h⟩ | ⟨v, hv, _⟩⟩ := scan_comment hc
  · exact h
  · exact absurd (by rw [hv]; simp) hs

end Line

open Line (behindComment)

/-! ### A statement with a comment -/

theorem tokens_comment {body : Bytes} (h : Byte.newline ∉ body) :
    tokens (Byte.hash :: body) = ([.comment body false], []) := by
  have hfront : Token.ofFront? Byte.hash body = some (.comment body false, []) := by
    have hq : Quote.ofByte? Byte.hash = none := rfl
    unfold Token.ofFront?
    rw [hq, if_pos rfl, Bytes.splitFirst?_eq_none.mpr h]
  rw [tokens_cons hfront, tokens]

theorem TypedLine.tokens_comment {ws : List Bytes} {s gap body : Bytes} (h : TypedLine ws s)
    (hg : Spacing gap) (hbody : Byte.newline ∉ body) :
    ∃ ts, CommandShell.tokens (s ++ gap ++ Byte.hash :: body) = (ts, []) ∧
      (Token.counted false ts).map Token.text = ws := by
  obtain ⟨ts, hline, htexts⟩ := h.tokens (hg.wordEnds (Byte.hash :: body))
  have hhash : ∀ b ∈ (Byte.hash :: body).head?, Byte.isBlank b = false := by
    intro b hb
    have hb : Byte.hash = b := by simpa using hb
    exact hb ▸ rfl
  rw [hg.tokens hhash, CommandShell.tokens_comment hbody] at hline
  refine ⟨ts ++ [.blanks gap, .comment body false], ?_, ?_⟩
  · rw [List.append_assoc]
    exact hline
  · have hnone : Token.counted false [.blanks gap, .comment body false] = [] := rfl
    rw [Token.counted_append, hnone, List.append_nil]
    exact htexts

/-- A typed line with a comment behind it. -/
def commented (s gap c : Bytes) : Bytes :=
  s ++ gap ++ Byte.hash :: (c ++ [Byte.newline])

/-- It is a line up to where the scan stops in the comment. -/
theorem TypedLine.front_commented {ws : List Bytes} {s gap c : Bytes} (h : TypedLine ws s)
    (hg : Spacing gap) (hc : Byte.newline ∉ c) :
    ∃ body t, Byte.newline ∉ body ∧ Line.front (commented s gap c)
      = .line [] (s ++ gap ++ Byte.hash :: body) t (behindComment c) := by
  obtain ⟨body, t, ht, hscan, hcases⟩ := Line.scan_comment hc
  refine ⟨body, t, ?_, ?_⟩
  · rcases hcases with ⟨hbody, _⟩ | ⟨v, hv, _⟩
    · exact hbody ▸ hc
    · intro hmem
      exact hc (by rw [hv]; simp [hmem])
  · have hall := (h.passes.append hg.passes) (Byte.hash :: (c ++ [Byte.newline])) (by simp)
    rw [hscan] at hall
    unfold commented
    obtain ⟨b, s, rfl, hb⟩ := h.head
    exact Line.front_of_scan (w := []) (by simp) hb hall ht

/-- Its tokens are those of the line, and what is behind the comment stays. -/
theorem Reader.next_commented {σ : Type} [ByteStream σ] {ws : List Bytes} {s gap c : Bytes}
    (h : TypedLine ws s) (hg : Spacing gap) (hc : Byte.newline ∉ c) {r : Reader σ} {source : σ}
    (hcarry : r.carry = [])
    (hchunk : ByteStream.next r.source = (some (commented s gap c), source)) :
    ∃ raw, next .statement r = (some ⟨raw, ws⟩, ⟨behindComment c, source⟩) := by
  obtain ⟨body, t, hbody, hfront⟩ := h.front_commented hg hc
  -- The line ends inside of the comment or with it, so to its tokens the comment stays open.
  obtain ⟨ts, hline, htexts⟩ := h.tokens_comment hg hbody
  obtain ⟨hrec, hleft⟩ := recordOf_of_tokens hline (by simp) t (behindComment c)
  rw [next_first_chunk hcarry hchunk, next_of_line (r := ⟨commented s gap c, source⟩) hfront, hrec,
    hleft, htexts]
  exact ⟨_, rfl⟩

/-! ### Sessions without their raw text -/

/-- A record of which only the tokens are left. -/
def Record.withoutRaw (r : Record) : Record :=
  ⟨[], r.tokens⟩

/-- An invocation that does not show what its statement looked like. -/
def Invocation.withoutRaw {η : Type} (i : Invocation η) : Invocation η :=
  { i with statement := i.statement.withoutRaw }

/-- A cycle that does not show it either. -/
def Cycle.withoutRaw {η ν : Type} : Cycle η ν → Cycle η ν
  | closed => .closed
  | ended => .ended
  | idle statement => .idle statement.withoutRaw
  | left statement => .left statement.withoutRaw
  | helped statement => .helped statement.withoutRaw
  | notFound statement => .notFound statement.withoutRaw
  | listed statement command => .listed statement.withoutRaw command
  | ran i outcome notes => .ran i.withoutRaw outcome notes

/-- Handlers that do not look at the raw text of the statement they were invoked by. -/
def IgnoresRaw {η ν : Type} (perform : η → Invocation η → Act ν Unit) : Prop :=
  ∀ handler i, perform handler i.withoutRaw = perform handler i

theorem Cycle.flow_withoutRaw {η ν : Type} (cycle : Cycle η ν) :
    cycle.withoutRaw.flow = cycle.flow := by
  cases cycle <;> rfl

/-- Tokens are all that is told of what was dispatched. -/
theorem Cycle.dispatched_withoutRaw {η ν : Type} (cycles : List (Cycle η ν)) :
    dispatched (cycles.map withoutRaw) = dispatched cycles := by
  have hone : ∀ cycle : Cycle η ν,
      (statement? cycle.withoutRaw).map Record.tokens = (statement? cycle).map Record.tokens := by
    intro cycle
    cases cycle <;> rfl
  unfold dispatched
  rw [List.map_filterMap, List.map_filterMap, List.filterMap_map]
  congr 2
  funext cycle
  exact hone cycle

namespace Shell

section Alike

variable {σ η ν : Type} [ByteStream σ] {perform : η → Invocation η → Act ν Unit}

theorem invoke_withoutRaw (hp : IgnoresRaw perform) (handler : η) (i : Invocation η)
    (sh : Shell σ η) :
    sh.invoke (perform handler) i.withoutRaw
      = ((sh.invoke (perform handler) i).1.withoutRaw, (sh.invoke (perform handler) i).2) := by
  unfold invoke
  rw [hp handler i]
  rfl

/-- What is done about a statement does not depend on its raw text. -/
theorem dispatch_withoutRaw (hp : IgnoresRaw perform) (statement : Record) (sh : Shell σ η) :
    dispatch perform statement.withoutRaw sh
      = ((dispatch perform statement sh).1.withoutRaw, (dispatch perform statement sh).2) := by
  obtain ⟨raw, tokens⟩ := statement
  unfold dispatch Record.withoutRaw
  cases tokens with
  | nil => rfl
  | cons first rest =>
      simp only
      cases Builtin.ofToken? first with
      | some builtin => cases builtin <;> rfl
      | none =>
          simp only
          cases sh.tree.resolve (first :: rest) with
          | none => rfl
          | some found =>
              obtain ⟨command, depth⟩ := found
              simp only
              cases command.handler with
              | none => rfl
              | some handler =>
                  exact invoke_withoutRaw hp handler
                    ⟨⟨raw, first :: rest⟩, depth, command, sh.tree⟩ sh

/-- Sessions that have the same tokens to dispatch, and have the same left, go on alike. -/
theorem run_alike (hp : IgnoresRaw perform) {sh₁ sh₂ m : Shell σ η} {raw₁ raw₂ : Bytes}
    {tokens : List Bytes} (h₁ : step perform sh₁ = dispatch perform ⟨raw₁, tokens⟩ m)
    (h₂ : step perform sh₂ = dispatch perform ⟨raw₂, tokens⟩ m) :
    (run perform sh₁).1.map Cycle.withoutRaw = (run perform sh₂).1.map Cycle.withoutRaw ∧
      (run perform sh₁).2 = (run perform sh₂).2 := by
  have hsame : ((step perform sh₁).1.withoutRaw, (step perform sh₁).2)
      = ((step perform sh₂).1.withoutRaw, (step perform sh₂).2) := by
    rw [h₁, h₂, ← dispatch_withoutRaw hp, ← dispatch_withoutRaw hp]
    rfl
  simp only [Prod.mk.injEq] at hsame
  obtain ⟨hcycle, hleft⟩ := hsame
  have hflow : (step perform sh₂).1.flow = (step perform sh₁).1.flow := by
    rw [← Cycle.flow_withoutRaw, ← hcycle, Cycle.flow_withoutRaw]
  cases hf : (step perform sh₁).1.flow with
  | closed =>
      rw [hf] at hflow
      rw [run_of_closed hf, run_of_closed hflow]
      exact ⟨by simp [hcycle], hleft⟩
  | goesOn =>
      rw [hf] at hflow
      rw [run_of_goesOn hf, run_of_goesOn hflow, hleft]
      exact ⟨by simp [hcycle], rfl⟩

end Alike

variable {η ν : Type}

/-- A session that is delivered a commented line first. -/
def startCommented (options : Options) (tree : CommandTree η) (s gap c : Bytes)
    (later : List Bytes) : Shell Memory η :=
  start options tree ⟨commented s gap c :: later, []⟩

/-- It dispatches the words of the line and goes on with what is behind the comment. -/
theorem step_commented (perform : η → Invocation η → Act ν Unit) (options : Options)
    (tree : CommandTree η) {ws : List Bytes} {s gap c : Bytes} (h : TypedLine ws s)
    (hg : Spacing gap) (hc : Byte.newline ∉ c) (later : List Bytes) :
    ∃ raw, step perform (startCommented options tree s gap c later)
      = dispatch perform ⟨raw, ws⟩
        ⟨⟨⟨behindComment c, ⟨later, textBytes (options.prompt ++ "> ")⟩⟩, options.prompt⟩, tree,
          .awaiting⟩ := by
  let sh := startCommented options tree s gap c later
  have hchunk : ByteStream.next sh.asked.console.reader.source
      = (some (commented s gap c), ⟨later, textBytes (options.prompt ++ "> ")⟩) := rfl
  obtain ⟨raw, hnext⟩ := Reader.next_commented h hg hc rfl hchunk
  have hopen : sh.state ≠ .closed := by simp [sh, startCommented, start]
  exact ⟨raw, step_read hopen (Console.read_of_next hnext)⟩

/--
**A comment is inert up to a semicolon in it.**  With a line of words, a comment and its newline
delivered in one chunk, the words are dispatched, and the session goes on with what is
`behindComment` as with any other input.  That is nothing if the comment has no semicolon;
otherwise it may be all that is behind one.  Two comments that leave the same behind make no
difference to a session, unless a handler looks at the raw text of its statement.
-/
theorem comment_inert (perform : η → Invocation η → Act ν Unit) (options : Options)
    (tree : CommandTree η) (later : List Bytes) {ws : List Bytes} {s gap c₁ : Bytes}
    (h : TypedLine ws s) (hg : Spacing gap) (h₁ : Byte.newline ∉ c₁) :
    (∃ raw, step perform (startCommented options tree s gap c₁ later)
      = dispatch perform ⟨raw, ws⟩
        ⟨⟨⟨behindComment c₁, ⟨later, textBytes (options.prompt ++ "> ")⟩⟩, options.prompt⟩, tree,
          .awaiting⟩) ∧
    (Byte.semicolon ∉ c₁ → behindComment c₁ = []) ∧
    (behindComment c₁ = [] ∨
      ∃ u v, c₁ = u ++ Byte.semicolon :: v ∧ behindComment c₁ = v ++ [Byte.newline]) ∧
    ∀ c₂, Byte.newline ∉ c₂ → behindComment c₁ = behindComment c₂ → IgnoresRaw perform →
      let run₁ := run perform (startCommented options tree s gap c₁ later)
      let run₂ := run perform (startCommented options tree s gap c₂ later)
      run₁.1.map Cycle.withoutRaw = run₂.1.map Cycle.withoutRaw ∧ run₁.2 = run₂.2 ∧
        Cycle.dispatched run₁.1 = Cycle.dispatched run₂.1 := by
  obtain ⟨raw₁, hstep₁⟩ := step_commented perform options tree h hg h₁ later
  refine ⟨⟨raw₁, hstep₁⟩, Line.behindComment_eq_nil h₁, ?_, ?_⟩
  · obtain ⟨u, _, _, _, ⟨_, hnil⟩ | ⟨v, hv⟩⟩ := Line.scan_comment h₁
    · exact Or.inl hnil
    · exact Or.inr ⟨u, v, hv⟩
  · intro c₂ h₂ hbehind hp run₁ run₂
    obtain ⟨raw₂, hstep₂⟩ := step_commented perform options tree h hg h₂ later
    rw [← hbehind] at hstep₂
    obtain ⟨hcycles, hleft⟩ := run_alike hp hstep₁ hstep₂
    refine ⟨hcycles, hleft, ?_⟩
    rw [← Cycle.dispatched_withoutRaw run₁.1, ← Cycle.dispatched_withoutRaw run₂.1]
    exact congrArg _ hcycles

/-- A comment with an open quote, and one with a backslash. -/
theorem comment_inert_open_quote :
    let perform : Unit → Invocation Unit → Act Unit Unit := fun _ i => Act.write i.args.flatten
    let tree : CommandTree Unit := ⟨[{ name := "b", handler := some () }], by decide +kernel⟩
    Cycle.dispatched (run perform (startCommented {} tree [0x62] [0x20] [0x27] [])).1
      = Cycle.dispatched (run perform (startCommented {} tree [0x62] [0x20] [0x5c] [])).1 := by
  intro perform tree
  have hline : TypedLine [[0x62]] [0x62] := .last (.bare rfl (by simp))
  have hgap : Spacing [0x20] := .single rfl
  have hbehind : behindComment [0x27] = behindComment [0x5c] := by decide +kernel
  have hinert := comment_inert perform {} tree [] hline hgap (show Byte.newline ∉ [0x27] by decide)
  exact (hinert.2.2.2 [0x5c] (by decide) hbehind fun _ _ => rfl).2.2

/-- **A comment is run.**  With nothing in it the command in front of it is all there is, and with
a semicolon in it so is what stands behind that. -/
theorem comment_is_run :
    let tree : CommandTree (List Rehearsal.Action) :=
      ⟨[{ name := "echo", handler := some [.args] }], by decide +kernel⟩
    let session := fun c => Cycle.dispatched
      (run Rehearsal.perform (startCommented {} tree (textBytes "echo a") [0x20] c [])).1
    session [] = [[textBytes "echo", textBytes "a"]] ∧
    session (textBytes ";echo b")
      = [[textBytes "echo", textBytes "a"], [textBytes "echo", textBytes "b"]] := by
  decide +kernel

end Shell

end CommandShell
