/-
Handlers that fail.

Take a handler table, and another one in which some handlers give a failure where the first has a
success, after the same actions (`Dialogue.FailsInstead`).  Nothing is undone when a handler fails:
what it has read, written and set stays.  So one run of a handler leaves the same console in both
sessions, and then the session with the failure writes one line more (`Costs.invoke`).

That is all there is to a cycle (`Alike.step_costs`).  The sessions are alike again after it,
except for what has been written, and nothing that follows depends on that.  Over a stream in memory
it can be told what each cycle wrote, so a session is told by its `Account`s, and the two accounts
are compared cycle by cycle.
-/
import CommandShell.Proofs.Alike

namespace CommandShell

open ByteStream (SameReads SameAnswers)

/-! ### What a cycle asks for -/

section Reads

variable {σ η ν α : Type} [ByteStream σ]

/-- The records a dialogue asks for and what it gets, in order. -/
def Dialogue.reads : Dialogue ν α → Console σ → List (Mode × Option Record)
  | done _, _ => []
  | write data answer, c =>
    let w := c.write data
    (answer w.1).reads w.2
  | read mode answer, c =>
    let r := c.read mode
    (mode, r.1) :: (answer r.1).reads r.2
  | prompt answer, c => (answer c.prompt).reads c
  | setPrompt label rest, c => rest.reads { c with prompt := label }
  | note _ rest, c => rest.reads c

/-- What the handler of a cycle asks for and gets, when it is invoked over `c`. -/
def Cycle.handlerReads (perform : η → Invocation η → Act ν Unit) (c : Console σ) :
    Cycle η ν → List (Mode × Option Record)
  | ran i _ _ => (i.command.handler.map fun handler => (perform handler i).run.reads c).getD []
  | _ => []

/-- What is asked for in a cycle: a statement, and then what its handler asks for. -/
def Shell.reads (perform : η → Invocation η → Act ν Unit) (sh : Shell σ η) :
    List (Mode × Option Record) :=
  if sh.state = .closed then []
  else
    let asked := sh.asked.console.read .statement
    (.statement, asked.1) :: (step perform sh).1.handlerReads perform asked.2

end Reads

/-! ### A failure in place of a success -/

namespace Dialogue

/-- The second dialogue does what the first one does, and where that succeeds it may fail. -/
inductive FailsInstead {ν : Type} :
    Dialogue ν (Except Failure Unit) → Dialogue ν (Except Failure Unit) → Prop
  | same (result : Except Failure Unit) : FailsInstead (.done result) (.done result)
  | fails (f : Failure) : FailsInstead (.done (.ok ())) (.done (.error f))
  | write {data : Bytes} {answer answer' : Except StreamError Unit → Dialogue ν _}
      (h : ∀ a, FailsInstead (answer a) (answer' a)) :
      FailsInstead (.write data answer) (.write data answer')
  | read {mode : Mode} {answer answer' : Option Record → Dialogue ν _}
      (h : ∀ a, FailsInstead (answer a) (answer' a)) :
      FailsInstead (.read mode answer) (.read mode answer')
  | prompt {answer answer' : String → Dialogue ν _}
      (h : ∀ a, FailsInstead (answer a) (answer' a)) :
      FailsInstead (.prompt answer) (.prompt answer')
  | setPrompt {label : String} {rest rest' : Dialogue ν _} (h : FailsInstead rest rest') :
      FailsInstead (.setPrompt label rest) (.setPrompt label rest')
  | note {n : ν} {rest rest' : Dialogue ν _} (h : FailsInstead rest rest') :
      FailsInstead (.note n rest) (.note n rest')

end Dialogue

/-- Whatever handler a statement can name in the tree, the second table has it fail instead or do
the same. -/
def HandlersFailInstead {η ν : Type} (perform perform' : η → Invocation η → Act ν Unit)
    (tree : CommandTree η) : Prop :=
  ∀ (statement : Record) (command : Command η) (depth : Nat) (handler : η),
    tree.resolve statement.tokens = some (command, depth) → command.handler = some handler →
      (perform handler ⟨statement, depth, command, tree⟩).run.FailsInstead
        (perform' handler ⟨statement, depth, command, tree⟩).run

/-- The line that tells of a failure. -/
def Invocation.failureLine {η : Type} (i : Invocation η) (f : Failure) : String :=
  i.command.name ++ ": " ++ f.message ++ "\n"

section Streams

variable {σ τ η ν : Type} [ByteStream σ] [ByteStream τ] {R : σ → τ → Prop}

namespace Dialogue

/-- What two runs come to if one may fail instead. -/
structure Run.FailsInstead (R : σ → τ → Prop) (x : Run σ ν (Except Failure Unit))
    (y : Run τ ν (Except Failure Unit)) : Prop where
  result : x.result = y.result ∨ x.result = .ok () ∧ ∃ f, y.result = .error f
  notes : x.notes = y.notes
  console : x.console.Alike R y.console

/-- **Nothing is undone by a failure**: the same is read, and the consoles are left alike. -/
theorem FailsInstead.run (hr : SameReads R) (ha : SameAnswers R)
    {d d' : Dialogue ν (Except Failure Unit)} (hd : d.FailsInstead d') {c : Console σ}
    {c' : Console τ} (h : c.Alike R c') :
    (d.run c).FailsInstead R (d'.run c') ∧ d.reads c = d'.reads c' := by
  induction hd generalizing c c' with
  | same result => exact ⟨⟨Or.inl rfl, rfl, h⟩, rfl⟩
  | fails f => exact ⟨⟨Or.inr ⟨rfl, f, rfl⟩, rfl, h⟩, rfl⟩
  | @write data _ _ _ ih =>
      have hanswer : (c.write data).1 = (c'.write data).1 := ha data h.reader.source
      have hrest := ih (c.write data).1 (h.write hr data)
      rw [hanswer] at hrest
      unfold Dialogue.run reads
      simp only
      rw [hanswer]
      exact hrest
  | @read mode _ _ _ ih =>
      obtain ⟨hanswer, hleft⟩ := h.read hr mode
      obtain ⟨hrun, hreads⟩ := ih (c.read mode).1 hleft
      rw [hanswer] at hrun hreads
      unfold Dialogue.run reads
      simp only
      rw [hanswer]
      exact ⟨hrun, congrArg (_ :: ·) hreads⟩
  | prompt _ ih =>
      unfold Dialogue.run reads
      rw [← h.prompt]
      exact ih _ h
  | setPrompt _ ih => exact ih ⟨h.reader, rfl⟩
  | @note n _ _ _ ih =>
      obtain ⟨hrun, hreads⟩ := ih h
      exact ⟨⟨hrun.result, congrArg (n :: ·) hrun.notes, hrun.console⟩, hreads⟩

end Dialogue

namespace Shell

/-- Two cycles that come to the same, or to a success and a failure; then the failure has been
reported, and there is no other difference. -/
inductive Costs (R : σ → τ → Prop) : Cycle η ν × Shell σ η → Cycle η ν × Shell τ η → Prop
  | nothing {x : Cycle η ν × Shell σ η} {y : Cycle η ν × Shell τ η} (h : Agree (Alike R) x y) :
      Costs R x y
  | line {i : Invocation η} {f : Failure} {notes : List ν} {left : Shell σ η} {mid : Shell τ η}
      (h : left.Alike R mid) :
      Costs R (.ran i (.ok ()) notes, left)
        (.ran i (.error f) notes, mid.reply (i.failureLine f))

variable {sh : Shell σ η} {sh' : Shell τ η} {perform perform' : η → Invocation η → Act ν Unit}

theorem Costs.invoke (hr : SameReads R) (ha : SameAnswers R)
    {handle handle' : Invocation η → Act ν Unit} {i : Invocation η}
    (hd : (handle i).run.FailsInstead (handle' i).run) (h : sh.Alike R sh') :
    Costs R (sh.invoke handle i) (sh'.invoke handle' i) := by
  obtain ⟨⟨hresult, hnotes, hconsole⟩, _⟩ := hd.run hr ha h.console
  unfold Shell.invoke
  simp only
  rw [← hnotes]
  rcases hresult with hsame | ⟨hok, f, herror⟩
  · rw [← hsame]
    refine .nothing ⟨rfl, ?_⟩
    split
    · exact ⟨hconsole, h.tree, rfl⟩
    · exact Alike.reply hr _ ⟨hconsole, h.tree, rfl⟩
  · rw [hok, herror]
    exact .line ⟨hconsole, h.tree, rfl⟩

/-- A statement comes to the same whatever the handlers do, or it names one of them. -/
theorem dispatch_same_or_ran (statement : Record) (sh : Shell σ η) :
    (∀ perform perform' : η → Invocation η → Act ν Unit,
      dispatch perform statement sh = dispatch perform' statement sh) ∨
    ∃ first rest command depth handler, statement.tokens = first :: rest ∧
      Builtin.ofToken? first = none ∧ sh.tree.resolve statement.tokens = some (command, depth) ∧
      command.handler = some handler := by
  unfold dispatch
  cases ht : statement.tokens with
  | nil => exact Or.inl fun _ _ => rfl
  | cons first rest =>
      simp only
      cases hb : Builtin.ofToken? first with
      | some builtin => exact Or.inl fun _ _ => by cases builtin <;> rfl
      | none =>
          cases hc : sh.tree.resolve (first :: rest) with
          | none => exact Or.inl fun _ _ => rfl
          | some found =>
              obtain ⟨command, depth⟩ := found
              cases hh : command.handler with
              | none =>
                  refine Or.inl ?_
                  intro _ _
                  simp only [hh]
              | some handler =>
                  exact Or.inr ⟨first, rest, command, depth, handler, rfl, hb, rfl, hh⟩

/-- A handler is only invoked by a statement that names its command. -/
theorem step_ran {i : Invocation η} {outcome : Except Failure Unit} {notes : List ν}
    (h : (step perform sh).1 = .ran i outcome notes) :
    sh.tree.resolve i.statement.tokens = some (i.command, i.depth) ∧ i.tree = sh.tree := by
  rcases step_cases perform sh with ⟨_, hs⟩ | ⟨_, c, _, hs⟩ | ⟨_, statement, c, _, hs⟩
  · rw [hs] at h
    exact absurd h (by simp)
  · rw [hs] at h
    exact absurd h (by simp)
  · rw [hs] at h
    have hd := dispatches perform statement { sh.asked with console := c }
    generalize dispatch perform statement { sh.asked with console := c } = out at hd h
    cases hd with
    | ran ht hb hc hh =>
        injection h with hi _ _
        subst hi
        exact ⟨hc, rfl⟩
    | _ => exact absurd h (by simp)

/-- The handler asks for the same in both. -/
theorem Costs.handlerReads (hr : SameReads R) (ha : SameAnswers R)
    (hf : HandlersFailInstead perform perform' sh.tree) {c : Console σ} {c' : Console τ}
    (hc : c.Alike R c') {y : Cycle η ν × Shell τ η} (h : Costs R (step perform sh) y) :
    (step perform sh).1.handlerReads perform c = y.1.handlerReads perform' c' := by
  have hran : ∀ i outcome outcome' notes, (step perform sh).1 = .ran i outcome notes →
      (Cycle.ran i outcome notes).handlerReads perform c
        = (Cycle.ran i outcome' notes).handlerReads perform' c' := by
    intro i outcome outcome' notes hcycle
    obtain ⟨hnamed, htree⟩ := step_ran hcycle
    cases hh : i.command.handler with
    | none => simp only [Cycle.handlerReads, hh, Option.map_none]
    | some handler =>
        have hfails := hf i.statement i.command i.depth handler hnamed hh
        rw [← htree] at hfails
        simp only [Cycle.handlerReads, hh, Option.map_some, Option.getD_some]
        exact (hfails.run hr ha hc).2
  generalize step perform sh = x at h hran
  cases h with
  | nothing h =>
      rw [← h.answer]
      cases hcycle : x.1 with
      | ran i outcome notes => exact hran i outcome outcome notes hcycle
      | _ => rfl
  | line h => exact hran _ _ _ _ rfl

theorem Alike.dispatch_costs (hr : SameReads R) (ha : SameAnswers R)
    (hf : HandlersFailInstead perform perform' sh.tree) (statement : Record)
    (h : sh.Alike R sh') :
    Costs R (Shell.dispatch perform statement sh) (Shell.dispatch perform' statement sh') := by
  rcases dispatch_same_or_ran (ν := ν) statement sh' with hsame |
    ⟨first, rest, command, depth, handler, ht, hb, hc, hh⟩
  · rw [hsame perform' perform]
    exact .nothing (h.dispatch hr (Or.inl ha) statement)
  · rw [← h.tree] at hc
    rw [dispatch_ran ht hb hc hh, dispatch_ran ht hb (h.tree ▸ hc) hh, ← h.tree]
    exact Costs.invoke hr ha (hf statement command depth handler hc hh) h

/-- **A cycle costs nothing or one line.** -/
theorem Alike.step_costs (hr : SameReads R) (ha : SameAnswers R)
    (hf : HandlersFailInstead perform perform' sh.tree) (h : sh.Alike R sh') :
    Costs R (Shell.step perform sh) (Shell.step perform' sh') := by
  refine h.step_of hr .nothing ?_
  intro statement mid mid' hmid htree
  exact hmid.dispatch_costs hr ha (htree ▸ hf) statement

/-- The same records are asked for in it. -/
theorem Alike.reads (hr : SameReads R) (ha : SameAnswers R)
    (hf : HandlersFailInstead perform perform' sh.tree) (h : sh.Alike R sh') :
    sh.reads perform = sh'.reads perform' := by
  obtain ⟨hanswer, hleft⟩ := (h.asked hr).console.read hr .statement
  have hhandler := (h.step_costs hr ha hf).handlerReads hr ha hf hleft
  unfold Shell.reads
  rw [← h.state]
  by_cases hopen : sh.state = .closed
  · rw [if_pos hopen, if_pos hopen]
  · rw [if_neg hopen, if_neg hopen]
    simp only
    rw [hanswer, hhandler]

end Shell

end Streams

/-! ### Sessions in memory -/

namespace Memory

/-- The same chunks are still to come. -/
def SameQueue (s t : Memory) : Prop :=
  s.queue = t.queue

/-- The same chunks are still to come, and since `u` and `u'` were written the same was. -/
structure Apart (u u' : Bytes) (s t : Memory) : Prop where
  queue : s.queue = t.queue
  written : ∃ new, s.written = u ++ new ∧ t.written = u' ++ new

theorem apart_sameReads (u u' : Bytes) : SameReads (Apart u u') where
  next := by
    intro s t h
    obtain ⟨queue, written⟩ := s
    obtain ⟨_, written'⟩ := t
    obtain ⟨rfl, hwritten⟩ := h
    cases queue with
    | nil => exact ⟨rfl, rfl, hwritten⟩
    | cons chunk rest => exact ⟨rfl, rfl, hwritten⟩
  write := by
    intro s t data h
    obtain ⟨new, hs, ht⟩ := h.written
    refine ⟨h.queue, new ++ data, ?_, ?_⟩
    · show s.written ++ data = _
      rw [hs, List.append_assoc]
    · show t.written ++ data = _
      rw [ht, List.append_assoc]

theorem apart_sameAnswers (u u' : Bytes) : SameAnswers (Apart u u') :=
  fun _ _ => rfl

end Memory

open Memory (SameQueue Apart)

/-- What was done in one cycle. -/
structure Account (η ν : Type) where
  /-- What came of it. -/
  cycle : Cycle η ν
  /-- What was asked for and what there was, the statement first. -/
  reads : List (Mode × Option Record)
  /-- What was written. -/
  written : Bytes
  /-- The session afterwards. -/
  left : Shell Memory η

/-- The second account tells the same, or that a handler failed instead. -/
structure Account.Costs {η ν : Type} (a a' : Account η ν) : Prop where
  /-- The same statement was read, and the same records behind it. -/
  reads : a.reads = a'.reads
  /-- Prompt, state, carry and what is still to come are the same. -/
  left : a.left.Alike SameQueue a'.left
  /-- The failure is told behind everything else, and there is no other difference. -/
  output : a.cycle = a'.cycle ∧ a.written = a'.written ∨
    ∃ i f notes, a.cycle = .ran i (.ok ()) notes ∧ a'.cycle = .ran i (.error f) notes ∧
      a'.written = a.written ++ textBytes (i.failureLine f)

theorem Account.Costs.flow {η ν : Type} {a a' : Account η ν} (h : a.Costs a') :
    a.cycle.flow = a'.cycle.flow := by
  rcases h.output with ⟨hcycle, _⟩ | ⟨i, f, notes, hcycle, hcycle', _⟩
  · rw [hcycle]
  · rw [hcycle, hcycle']
    rfl

namespace Shell

variable {η ν : Type} {perform perform' : η → Invocation η → Act ν Unit}
  {sh sh' : Shell Memory η}

/-- Everything that has been written to the stream of a session. -/
def written (sh : Shell Memory η) : Bytes :=
  sh.console.reader.source.written

/-- The account of the next cycle. -/
def account (perform : η → Invocation η → Act ν Unit) (sh : Shell Memory η) : Account η ν where
  cycle := (step perform sh).1
  reads := sh.reads perform
  written := (step perform sh).2.written.drop sh.written.length
  left := (step perform sh).2

/-- The accounts of the next `n` cycles. -/
def accounts (perform : η → Invocation η → Act ν Unit) :
    Nat → Shell Memory η → List (Account η ν)
  | 0, _ => []
  | n + 1, sh => account perform sh :: accounts perform n (step perform sh).2

/-- Of each of some operations the accounts of the cycles it comes to. -/
def accountsAll (perform : η → Invocation η → Act ν Unit) :
    List (Operation Memory) → Shell Memory η → List (List (Account η ν))
  | [], _ => []
  | op :: ops, sh =>
    accounts perform (operate perform op sh).1.length sh ::
      accountsAll perform ops (operate perform op sh).2

/-! ### Accounts are true -/

theorem account_written (perform : η → Invocation η → Act ν Unit) (sh : Shell Memory η) :
    sh.written ++ (account perform sh).written = (step perform sh).2.written := by
  have hself : sh.Alike (Apart sh.written sh.written) sh :=
    ⟨⟨⟨rfl, rfl, [], by simp [written]⟩, rfl⟩, rfl, rfl⟩
  have hstep : Agree (Alike (Apart sh.written sh.written)) (step perform sh) (step perform sh) :=
    hself.step (Memory.apart_sameReads _ _) (Or.inl (Memory.apart_sameAnswers _ _))
  obtain ⟨new, hnew, _⟩ := hstep.left.console.reader.source.written
  have hnew : (step perform sh).2.written = sh.written ++ new := hnew
  show sh.written ++ (step perform sh).2.written.drop sh.written.length = _
  rw [hnew, List.drop_left]

/-- The accounts of an operation tell its cycles and what was written in all. -/
structure Told (cycles : List (Cycle η ν)) (sh left : Shell Memory η)
    (as : List (Account η ν)) : Prop where
  cycles : as.map Account.cycle = cycles
  written : sh.written ++ as.flatMap Account.written = left.written

theorem run_told (perform : η → Invocation η → Act ν Unit) (sh : Shell Memory η) :
    Told (run perform sh).1 sh (run perform sh).2
      (accounts perform (run perform sh).1.length sh) := by
  fun_induction run perform sh with
  | case1 sh s hflow =>
      refine ⟨rfl, ?_⟩
      show sh.written ++ ((account perform sh).written ++ []) = _
      rw [List.append_nil, account_written]
  | case2 sh s hflow rest ih =>
      refine ⟨congrArg (s.1 :: ·) ih.cycles, ?_⟩
      have hrest := ih.written
      show sh.written ++ ((account perform sh).written ++ _) = _
      rw [← List.append_assoc, account_written]
      exact hrest

theorem operate_told {op : Operation Memory}
    (hop : ∀ f, op = .push f → ∃ chunk, f = Memory.push chunk)
    (perform : η → Invocation η → Act ν Unit) (sh : Shell Memory η) :
    Told (operate perform op sh).1 sh (operate perform op sh).2
      (accounts perform (operate perform op sh).1.length sh) := by
  cases op with
  | step =>
      refine ⟨rfl, ?_⟩
      show sh.written ++ ((account perform sh).written ++ []) = _
      rw [List.append_nil, account_written]
      rfl
  | run => exact run_told perform sh
  | setPrompt label => exact ⟨rfl, List.append_nil _⟩
  | push f =>
      obtain ⟨chunk, rfl⟩ := hop f rfl
      exact ⟨rfl, List.append_nil _⟩

theorem operateAll_told {ops : List (Operation Memory)}
    (hops : ∀ f, .push f ∈ ops → ∃ chunk, f = Memory.push chunk)
    (perform : η → Invocation η → Act ν Unit) (sh : Shell Memory η) :
    (accountsAll perform ops sh).map (List.map Account.cycle) = (operateAll perform ops sh).1 ∧
      sh.written ++ (accountsAll perform ops sh).flatten.flatMap Account.written
        = (operateAll perform ops sh).2.written := by
  induction ops generalizing sh with
  | nil => exact ⟨rfl, List.append_nil _⟩
  | cons op ops ih =>
      have htold := operate_told (fun f hf => hops f (hf ▸ List.mem_cons_self)) perform sh
      obtain ⟨hcycles, hwritten⟩ := ih (fun f hf => hops f (List.mem_cons_of_mem op hf))
        (operate perform op sh).2
      unfold accountsAll operateAll
      simp only [List.map_cons, List.flatten_cons, List.flatMap_append]
      refine ⟨by rw [htold.cycles, hcycles], ?_⟩
      rw [← List.append_assoc, htold.written, hwritten]

/-! ### Cycle by cycle -/

theorem Alike.sameQueue {u u' : Bytes} (h : sh.Alike (Apart u u') sh') :
    sh.Alike SameQueue sh' :=
  ⟨⟨⟨h.console.reader.carry, h.console.reader.source.queue⟩, h.console.prompt⟩, h.tree, h.state⟩

/-- **The account of a cycle costs nothing or one line.** -/
theorem Alike.account_costs (hf : HandlersFailInstead perform perform' sh.tree)
    (h : sh.Alike SameQueue sh') : (account perform sh).Costs (account perform' sh') := by
  have hapart : sh.Alike (Apart sh.written sh'.written) sh' :=
    ⟨⟨⟨h.console.reader.carry, h.console.reader.source, [], by simp [written], by simp [written]⟩,
      h.console.prompt⟩, h.tree, h.state⟩
  have hcosts := hapart.step_costs (Memory.apart_sameReads _ _) (Memory.apart_sameAnswers _ _) hf
  have hreads := hapart.reads (Memory.apart_sameReads _ _) (Memory.apart_sameAnswers _ _) hf
  have hsince : ∀ {left left' : Shell Memory η}, left.Alike (Apart sh.written sh'.written) left' →
      ∃ new, left.written = sh.written ++ new ∧ left'.written = sh'.written ++ new :=
    fun hleft => hleft.console.reader.source.written
  unfold account
  generalize Shell.step perform sh = x at hcosts
  generalize Shell.step perform' sh' = y at hcosts
  cases hcosts with
  | nothing h =>
      obtain ⟨new, hnew, hnew'⟩ := hsince h.left
      refine ⟨hreads, h.left.sameQueue, Or.inl ⟨h.answer, ?_⟩⟩
      simp only
      rw [hnew, hnew', List.drop_left, List.drop_left]
  | @line i f notes left mid hleft =>
      obtain ⟨new, hnew, hnew'⟩ := hsince hleft
      have hmid : left.Alike SameQueue (mid.reply (i.failureLine f)) :=
        ⟨⟨⟨hleft.console.reader.carry, hleft.console.reader.source.queue⟩, hleft.console.prompt⟩,
          hleft.tree, hleft.state⟩
      refine ⟨hreads, hmid, Or.inr ⟨i, f, notes, rfl, rfl, ?_⟩⟩
      show (mid.written ++ textBytes (i.failureLine f)).drop sh'.written.length = _
      rw [hnew, hnew', List.append_assoc, List.drop_left, List.drop_left]

theorem Alike.accounts_costs (hf : HandlersFailInstead perform perform' sh.tree)
    (h : sh.Alike SameQueue sh') (n : Nat) :
    List.Forall₂ Account.Costs (accounts perform n sh) (accounts perform' n sh') := by
  induction n generalizing sh sh' with
  | zero => exact .nil
  | succ n ih =>
      have hcosts := h.account_costs hf
      exact .cons hcosts (ih ((step_tree perform sh).symm ▸ hf) hcosts.left)

/-- So a run takes the same number of cycles. -/
theorem Alike.run_costs (hf : HandlersFailInstead perform perform' sh.tree)
    (h : sh.Alike SameQueue sh') :
    (Shell.run perform sh).1.length = (Shell.run perform' sh').1.length ∧
      (Shell.run perform sh).2.Alike SameQueue (Shell.run perform' sh').2 := by
  have hstep : ∀ {mid mid' : Shell Memory η}, mid.tree = sh.tree ∧ mid.Alike SameQueue mid' →
      (Shell.step perform mid).1.flow = (Shell.step perform' mid').1.flow ∧
        (Shell.step perform mid).2.tree = sh.tree ∧
        (Shell.step perform mid).2.Alike SameQueue (Shell.step perform' mid').2 := by
    intro mid mid' hmid
    obtain ⟨htree, hmid⟩ := hmid
    have hcosts := hmid.account_costs (htree ▸ hf)
    exact ⟨hcosts.flow, (step_tree perform mid).trans htree, hcosts.left⟩
  obtain ⟨hcycles, _, hend⟩ := run_lockstep (fun hflow => hflow) hstep ⟨rfl, h⟩
  exact ⟨hcycles.length_eq, hend⟩

theorem Alike.operate_costs {op : Operation Memory}
    (hop : ∀ f, op = .push f → ∃ chunk, f = Memory.push chunk)
    (hf : HandlersFailInstead perform perform' sh.tree) (h : sh.Alike SameQueue sh') :
    (Shell.operate perform op sh).1.length = (Shell.operate perform' op sh').1.length ∧
      (Shell.operate perform op sh).2.Alike SameQueue (Shell.operate perform' op sh').2 := by
  cases op with
  | step => exact ⟨rfl, (h.account_costs hf).left⟩
  | run => exact h.run_costs hf
  | setPrompt label => exact ⟨rfl, ⟨h.console.reader, rfl⟩, h.tree, h.state⟩
  | push f =>
      obtain ⟨chunk, rfl⟩ := hop f rfl
      have hqueue : SameQueue (Memory.push chunk sh.console.reader.source)
          (Memory.push chunk sh'.console.reader.source) :=
        congrArg (· ++ [chunk]) h.console.reader.source
      exact ⟨rfl, ⟨⟨h.console.reader.carry, hqueue⟩, h.console.prompt⟩, h.tree, h.state⟩

theorem Alike.operateAll_costs {ops : List (Operation Memory)}
    (hops : ∀ f, .push f ∈ ops → ∃ chunk, f = Memory.push chunk)
    (hf : HandlersFailInstead perform perform' sh.tree) (h : sh.Alike SameQueue sh') :
    List.Forall₂ (List.Forall₂ Account.Costs) (accountsAll perform ops sh)
        (accountsAll perform' ops sh') ∧
      (Shell.operateAll perform ops sh).2.Alike SameQueue
        (Shell.operateAll perform' ops sh').2 := by
  induction ops generalizing sh sh' with
  | nil => exact ⟨.nil, h⟩
  | cons op ops ih =>
      obtain ⟨hlength, hmid⟩ := h.operate_costs (fun f hf => hops f (hf ▸ List.mem_cons_self)) hf
      have htree : (Shell.operate perform op sh).2.tree = sh.tree := operateAll_tree perform [op] sh
      obtain ⟨hrest, hend⟩ :=
        ih (fun f hf => hops f (List.mem_cons_of_mem op hf)) (htree.symm ▸ hf) hmid
      refine ⟨.cons ?_ hrest, hend⟩
      rw [← hlength]
      exact h.accounts_costs hf _

/--
**A handler that fails costs one line.**  Two sessions over streams in memory have the same tree and
the same input, and in the second one some handlers fail where they succeed in the first.  The same
operations come to the same cycles: the same statements, handlers and arguments, the same records
asked for and delivered, the same notes, and after each cycle the same prompt, state, carry and
chunks still to come.  A cycle whose handler failed instead wrote one line more, behind everything
else, with the name of the command and what went wrong; any other cycle wrote the same.

The accounts are true: they have the cycles in them that the operations come to, and together what
they say was written is all that has been written.
-/
theorem failure_costs_a_line {tree : CommandTree η}
    (hf : HandlersFailInstead perform perform' tree) (options : Options) (chunks : List Bytes)
    {ops : List (Operation Memory)}
    (hops : ∀ f, .push f ∈ ops → ∃ chunk, f = Memory.push chunk) :
    let sh : Shell Memory η := start options tree ⟨chunks, []⟩
    let out := operateAll perform ops sh
    let out' := operateAll perform' ops sh
    let as := accountsAll perform ops sh
    let as' := accountsAll perform' ops sh
    List.Forall₂ (List.Forall₂ Account.Costs) as as' ∧
    out.2.Alike SameQueue out'.2 ∧
    as.map (List.map Account.cycle) = out.1 ∧
    as'.map (List.map Account.cycle) = out'.1 ∧
    as.flatten.flatMap Account.written = out.2.written ∧
    as'.flatten.flatMap Account.written = out'.2.written := by
  intro sh out out' as as'
  have hstart : sh.Alike SameQueue sh := ⟨⟨⟨rfl, rfl⟩, rfl⟩, rfl, rfl⟩
  obtain ⟨hcosts, hend⟩ := hstart.operateAll_costs hops hf
  obtain ⟨hcycles, hwritten⟩ := operateAll_told hops perform sh
  obtain ⟨hcycles', hwritten'⟩ := operateAll_told hops perform' sh
  exact ⟨hcosts, hend, hcycles, hcycles', hwritten, hwritten'⟩

/-- The command is named by an alias, reads a line and sets the prompt, and then fails. -/
theorem failure_costs_a_line_of_fetch :
    let act : Act Unit Unit := do
      let line ← Act.readLine
      Act.write (line.getD [])
      Act.setPrompt "b"
    let perform : Unit → Invocation Unit → Act Unit Unit := fun _ _ => act
    let perform' : Unit → Invocation Unit → Act Unit Unit :=
      fun _ _ => do act; Act.fail ⟨"lost", ["while fetching"]⟩
    let tree : CommandTree Unit :=
      ⟨[{ name := "fetch", aliases := ["f"], handler := some () }], by decide +kernel⟩
    let sh : Shell Memory Unit := start {} tree ⟨[textBytes "f\nxy\nf"], []⟩
    let ops : List (Operation Memory) := [.step, .push (Memory.push (textBytes "\n")), .run]
    let out := operateAll perform ops sh
    let out' := operateAll perform' ops sh
    List.Forall₂ (List.Forall₂ Account.Costs) (accountsAll perform ops sh)
        (accountsAll perform' ops sh) ∧
      out.2.written = textBytes "ash> xyb> b> " ∧
      out'.2.written
        = textBytes "ash> xyfetch: while fetching: lost\nb> fetch: while fetching: lost\nb> " := by
  intro act perform perform' tree sh ops out out'
  have hf : HandlersFailInstead perform perform' tree := by
    intro statement command depth handler _ _
    refine .read fun record => .write fun answer => ?_
    cases answer with
    | error e => exact .same _
    | ok => exact .setPrompt (.fails _)
  have hops : ∀ f, .push f ∈ ops → ∃ chunk, f = Memory.push chunk := by
    intro f hf
    have hf : f = Memory.push (textBytes "\n") := by simpa [ops] using hf
    exact ⟨_, hf⟩
  have hall := failure_costs_a_line hf {} [textBytes "f\nxy\nf"] hops
  exact ⟨hall.1, by decide +kernel, by decide +kernel⟩

end Shell

end CommandShell
