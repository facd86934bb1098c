/-
Sessions that have lost their stream.

A stream is `Dead` if it delivers nothing, takes nothing and stays as it is, as one over a closed
transport does.  A session over it has only its carry left: the prompt is not taken, and a request
is answered as if there were no stream at all (`step_dead`).  So the session goes through the
statements that are complete in the carry and is over at `exit` or behind the last of them.

Handlers may read from the carry too, and what they took is not there for the next cycle.  So what a
run dispatches is told by `TakenFrom`, one statement behind the other out of what is left of the
carry (`run_dead`); if no handler reads, these are all the statements in it (`TakenFrom.all`).
-/
import CommandShell.Proofs.Alike

namespace CommandShell

/-! ### Streams that are dead -/

namespace ByteStream

variable {σ : Type} [ByteStream σ]

/-- A stream that delivers nothing and takes nothing, and that no call changes. -/
structure Dead (s : σ) : Prop where
  next : ByteStream.next s = (none, s)
  write : ∀ data, ByteStream.write data s = (.error .notConnected, s)

theorem Dead.serves {s s' : σ} {d : Bytes} (h : Dead s) (hs : Serves s d s') :
    s' = s ∧ d = [] := by
  induction hs with
  | start => exact ⟨rfl, rfl⟩
  | chunk _ hn ih =>
      obtain ⟨rfl, rfl⟩ := ih
      exact absurd (h.next.symm.trans hn) (by simp)
  | ended _ hn ih =>
      obtain ⟨rfl, rfl⟩ := ih
      exact ⟨(Prod.mk.inj (h.next.symm.trans hn)).2.symm, rfl⟩
  | written _ data ih =>
      obtain ⟨rfl, rfl⟩ := ih
      rw [h.write]
      exact ⟨rfl, rfl⟩

end ByteStream

/-- No stream at all. -/
structure Absent

instance : ByteStream Absent where
  next s := (none, s)
  write _ s := (.error .notConnected, s)
  supply _ := 0
  supply_chunk := fun h => absurd (Prod.mk.inj h).1 (by simp)
  supply_end := fun _ => Nat.le_refl 0
  supply_write := fun _ _ => Nat.le_refl 0

/-- A dead stream is as good as none. -/
theorem ByteStream.Dead.sameReads {σ : Type} [ByteStream σ] {s : σ} (h : Dead s) :
    SameReads (fun (t : σ) (_ : Absent) => t = s) where
  next := by
    intro t _ hr
    subst hr
    rw [h.next]
    exact ⟨rfl, rfl⟩
  write := by
    intro t _ data hr
    subst hr
    rw [h.write]

/-- A stream over a closed transport is dead. -/
theorem Buffered.dead {τ : Type} [Transport τ] {s : Buffered τ}
    (h : Transport.isOpen s.transport = false) : ByteStream.Dead s where
  next := by
    obtain ⟨hnone, hsame⟩ := Link.pulls_of_closed (l := Transport.link τ) h
      (pulls_next s.capacity_pos s.transport)
    show ((next s.capacity s.capacity_pos s.transport).1,
      { s with transport := (next s.capacity s.capacity_pos s.transport).2 }) = _
    rw [hnone, hsame]
  write := by
    intro data
    have hput := Link.put_of_closed (l := Transport.link τ) h data
    show ((write data s.transport).1, { s with transport := (write data s.transport).2 }) = _
    rw [show write data s.transport = (.error .notConnected, s.transport) from hput]

/-! ### Statements in some bytes -/

/-- The statements that are complete in some bytes, in order. -/
def statementsIn (carry : Bytes) : List Record :=
  (Reader.drain .statement (⟨carry, {}⟩ : Reader Absent)).1

/-- Statements up to the first whose first token is `exit`. -/
def untilExit : List Record → List Record
  | [] => []
  | statement :: later =>
    if statement.tokens.head? = some (textBytes "exit") then [statement]
    else statement :: untilExit later

/-- Statements that were taken out of some bytes one behind the other, until there was none or it
was `exit`.  `left` says what the bytes behind a statement may have become before the next. -/
inductive TakenFrom (left : Bytes → Bytes → Prop) : Bytes → List Record → Prop
  | ended {carry : Bytes} {r : Reader Absent}
      (h : Reader.next .statement ⟨carry, {}⟩ = (none, r)) : TakenFrom left carry []
  | exit {carry : Bytes} {statement : Record} {r : Reader Absent}
      (h : Reader.next .statement ⟨carry, {}⟩ = (some statement, r))
      (he : statement.tokens.head? = some (textBytes "exit")) : TakenFrom left carry [statement]
  | next {carry rest : Bytes} {statement : Record} {r : Reader Absent} {later : List Record}
      (h : Reader.next .statement ⟨carry, {}⟩ = (some statement, r))
      (he : statement.tokens.head? ≠ some (textBytes "exit")) (hl : left r.carry rest)
      (ht : TakenFrom left rest later) : TakenFrom left carry (statement :: later)

theorem statementsIn_of_none {carry : Bytes} {r : Reader Absent}
    (h : Reader.next .statement ⟨carry, {}⟩ = (none, r)) : statementsIn carry = [] := by
  unfold statementsIn
  rw [Reader.drain]
  split
  · next hsome => exact absurd (h.symm.trans hsome) (by simp)
  · rfl

theorem statementsIn_of_some {carry : Bytes} {statement : Record} {r : Reader Absent}
    (h : Reader.next .statement ⟨carry, {}⟩ = (some statement, r)) :
    statementsIn carry = statement :: statementsIn r.carry := by
  unfold statementsIn
  rw [Reader.drain]
  split
  · next hsome =>
    obtain ⟨hstatement, rfl⟩ := Prod.mk.inj (h.symm.trans hsome)
    rw [Option.some.inj hstatement]
  · next hnone => exact absurd (h.symm.trans hnone) (by simp)

/-- If nothing gets lost between them, these are all that are complete. -/
theorem TakenFrom.all {carry : Bytes} {statements : List Record}
    (h : TakenFrom (fun behind rest => rest = behind) carry statements) :
    statements = untilExit (statementsIn carry) := by
  induction h with
  | ended h =>
      rw [statementsIn_of_none h]
      rfl
  | exit h he => rw [statementsIn_of_some h, untilExit, if_pos he]
  | next h he hl _ ih => rw [statementsIn_of_some h, untilExit, if_neg he, ih, hl]

example : (untilExit (statementsIn (textBytes "a b;c\nexit\nd\ne"))).map Record.tokens
    = [[textBytes "a", textBytes "b"], [textBytes "c"], [textBytes "exit"]] := by
  decide +kernel

section Sessions

variable {σ η ν : Type} [ByteStream σ]

/-! ### What use leaves in the carry -/

/-- Using a reader takes from the front of what it has and gets. -/
theorem Reader.Used.suffix {r r' : Reader σ} {d : Bytes} (h : Used r d r') :
    r'.carry <:+ r.carry ++ d := by
  induction h with
  | start => simp
  | @request d m m' mode chunks answer _ hr ih =>
      obtain ⟨pre, post, _, _, hkept, _⟩ := request_keeps hr
      have hfirst : m'.carry <:+ m.carry ++ chunks.flatten := ⟨_, hkept.symm⟩
      obtain ⟨t, ht⟩ := ih
      refine hfirst.trans ⟨t, ?_⟩
      rw [← List.append_assoc, ht, List.append_assoc]
  | written _ data ih => exact ih

theorem Dialogue.run_carry {α : Type} {d : Dialogue ν α} (hd : d.Without .input)
    (c : Console σ) : (d.run c).console.reader.carry = c.reader.carry := by
  induction d generalizing c with
  | done result => rfl
  | write data answer ih => exact ih _ (hd.2 _) (c.write data).2
  | read mode answer ih => exact absurd rfl hd.1
  | prompt answer ih => exact ih _ (hd _) c
  | setPrompt label rest ih => exact ih hd { c with prompt := label }
  | note n rest ih => exact ih hd c

namespace Shell

variable {perform : η → Invocation η → Act ν Unit} {sh : Shell σ η}

/-- Where the chunks of a session come from. -/
def source (sh : Shell σ η) : σ :=
  sh.console.reader.source

theorem dispatch_carry (statement : Record) (hq : HandlersWithout .input perform sh.tree) :
    (dispatch perform statement sh).2.console.reader.carry = sh.console.reader.carry := by
  have hd := dispatches perform statement sh
  generalize dispatch perform statement sh = out at hd ⊢
  cases hd with
  | @ran first rest command depth handler ht hb hc hh =>
      have hrun := Dialogue.run_carry (hq statement command depth handler hc hh) sh.console
      unfold invoke
      simp only
      split
      · exact hrun
      · exact hrun
  | _ => rfl

/-- What a dispatch leaves in the carry is what was in it, or the end of that. -/
theorem dispatch_suffix (perform : η → Invocation η → Act ν Unit) (statement : Record)
    (hd : ByteStream.Dead sh.source) :
    (dispatch perform statement sh).2.console.reader.carry <:+ sh.console.reader.carry := by
  obtain ⟨d, hused⟩ := dispatch_used perform statement sh
  have hsuffix := hused.suffix
  rw [(hd.serves hused.serves).2, List.append_nil] at hsuffix
  exact hsuffix

/-! ### Sessions over dead streams -/

/-- A session with something else in its carry. -/
def withCarry (carry : Bytes) (sh : Shell σ η) : Shell σ η :=
  { sh with console := { sh.console with reader := { sh.console.reader with carry := carry } } }

/-- A dead stream does not take the prompt. -/
theorem asked_of_dead (hd : ByteStream.Dead sh.source) : sh.asked = sh := by
  have hwrite := hd.write (textBytes (sh.console.prompt ++ "> "))
  unfold source at hwrite
  unfold asked reply Console.write Reader.write
  simp only
  rw [hwrite]

/-- A cycle takes its statement out of the carry if the stream is dead when the prompt was
written, be it that this is what it died of. -/
theorem step_dead (hd : ByteStream.Dead sh.asked.source) (h : sh.state ≠ .closed) :
    step perform sh =
      match Reader.next .statement (⟨sh.console.reader.carry, {}⟩ : Reader Absent) with
      | (none, r) => (.ended, { sh.asked.withCarry r.carry with state := .closed })
      | (some statement, r) => dispatch perform statement (sh.asked.withCarry r.carry) := by
  have halike : sh.asked.console.reader.Alike (fun (t : σ) (_ : Absent) => t = sh.asked.source)
      ⟨sh.console.reader.carry, {}⟩ := ⟨rfl, rfl⟩
  obtain ⟨hanswer, hcarry, hsource⟩ := halike.next hd.sameReads .statement
  rcases hr : sh.asked.console.reader.next .statement with ⟨answer, carry, source⟩
  rcases hm : Reader.next .statement (⟨sh.console.reader.carry, {}⟩ : Reader Absent)
    with ⟨answer', m⟩
  rw [hr, hm] at hanswer hcarry
  rw [hr] at hsource
  simp only at hanswer hcarry hsource
  subst hanswer hcarry hsource
  have hread := Console.read_of_next hr
  cases answer with
  | none =>
      rw [step_ended h hread]
      rfl
  | some statement =>
      rw [step_read h hread]
      rfl

theorem dispatch_statement (perform : η → Invocation η → Act ν Unit) (statement : Record)
    (sh : Shell σ η) : (dispatch perform statement sh).1.statement? = some statement := by
  have hd := dispatches perform statement sh
  generalize dispatch perform statement sh = out at hd ⊢
  cases hd <;> rfl

theorem dispatch_goesOn (perform : η → Invocation η → Act ν Unit) {statement : Record}
    (h : sh.state ≠ .closed) (he : statement.tokens.head? ≠ some (textBytes "exit")) :
    (dispatch perform statement sh).1.flow = .goesOn ∧
      (dispatch perform statement sh).2.state ≠ .closed := by
  have hopen : (dispatch perform statement sh).2.state ≠ .closed := by
    intro hclosed
    exact he (List.head?_eq_some_iff.mpr ((dispatch_closes h).mp hclosed))
  refine ⟨?_, hopen⟩
  cases hflow : (dispatch perform statement sh).1.flow with
  | goesOn => rfl
  | closed => exact absurd ((dispatch_flow h).mp hflow) hopen

/-- **A run over a dead stream takes its statements out of the carry**, in order and up to the
first `exit`.  Between two of them there is what `left` says of a dispatch. -/
theorem run_dead {left : Bytes → Bytes → Prop} (hd : ByteStream.Dead sh.asked.source)
    (h : sh.state ≠ .closed)
    (hl : ∀ (statement : Record) (sh' : Shell σ η), ByteStream.Dead sh'.source →
      sh'.tree = sh.tree → left sh'.console.reader.carry
        (dispatch perform statement sh').2.console.reader.carry) :
    TakenFrom left sh.console.reader.carry
      ((run perform sh).1.filterMap Cycle.statement?) := by
  induction hw : sh.weight using Nat.strongRecOn generalizing sh with
  | ind w ih =>
      have hstep : step perform sh = _ := step_dead hd h
      rcases hr : Reader.next .statement (⟨sh.console.reader.carry, {}⟩ : Reader Absent)
        with ⟨_ | statement, r⟩
      · rw [hr] at hstep
        simp only at hstep
        rw [run_of_closed (by rw [hstep]; rfl), hstep]
        exact .ended hr
      · rw [hr] at hstep
        simp only at hstep
        let mid := sh.asked.withCarry r.carry
        have hopen : mid.state ≠ .closed := h
        have hstatement := dispatch_statement perform statement mid
        by_cases he : statement.tokens.head? = some (textBytes "exit")
        · have hflow : (dispatch perform statement mid).1.flow = .closed :=
            (dispatch_flow hopen).mpr ((dispatch_closes hopen).mpr (List.head?_eq_some_iff.mp he))
          rw [← hstep] at hflow hstatement
          rw [run_of_closed hflow, List.filterMap_cons_some hstatement]
          exact .exit hr he
        · obtain ⟨hflow, hnext⟩ := dispatch_goesOn perform hopen he
          obtain ⟨d, hused⟩ := dispatch_used perform statement mid
          have hsource : (dispatch perform statement mid).2.source = mid.source :=
            (hd.serves hused.serves).1
          have hleft := hl statement mid hd rfl
          rw [← hstep] at hflow hstatement hnext hsource hleft
          have hdead : ByteStream.Dead (step perform sh).2.source := hsource ▸ hd
          have hlt := hw ▸ step_weight_lt hflow
          rw [run_of_goesOn hflow, List.filterMap_cons_some hstatement]
          refine .next hr he hleft (ih _ hlt ?_ hnext ?_ rfl)
          · rw [asked_of_dead hdead]
            exact hdead
          · intro statement' sh' hd' htree
            exact hl statement' sh' hd' (htree.trans (step_tree perform sh))

end Shell

end Sessions

end CommandShell
