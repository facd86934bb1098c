/-
Two sessions in step.

Two streams may differ in all sorts of ways and still be read alike: with a relation that holds
between them, is kept by reading and writing, and lets the same chunks be read (`SameReads`).  Two
sessions over such streams go through the same cycles.  The relation is carried from the streams to
the readers, from the readers to the consoles, through every dialogue, and from there to whole
sessions and to whatever is done with them.

Writing gives an answer too, and streams that are read alike may give different ones.  The shell
never looks at it.  A handler can, so then the handlers must not write (`HandlersWithout`); where
the answers agree as well, they may.

Two cycles only differ in what becomes of their statement (`Alike.step_of`), and two runs in what
single cycles do (`run_lockstep`).  Neither needs the two handler tables to be the same.

The streams of two transports are such streams if the transports are read alike.  `output_inert`
says what that comes to: how writing goes has no influence on a session but what was written.
-/
import CommandShell.Proofs.Calls
import CommandShell.Proofs.Operations
import Mathlib.Data.List.Forall2

namespace CommandShell

/-- The same answer twice, from two that are related and stay so. -/
structure Agree {α σ τ : Type} (R : σ → τ → Prop) (x : α × σ) (y : α × τ) : Prop where
  answer : x.1 = y.1
  left : R x.2 y.2

/-! ### Streams -/

namespace ByteStream

variable {σ τ : Type} [ByteStream σ] [ByteStream τ]

/-- Related streams deliver the same, and reading and writing does not change that. -/
structure SameReads (R : σ → τ → Prop) : Prop where
  next : ∀ {s : σ} {t : τ}, R s t → Agree R (ByteStream.next s) (ByteStream.next t)
  write : ∀ {s : σ} {t : τ} (data : Bytes), R s t →
    R (ByteStream.write data s).2 (ByteStream.write data t).2

/-- Writing to related streams goes alike too. -/
def SameAnswers (R : σ → τ → Prop) : Prop :=
  ∀ {s : σ} {t : τ} (data : Bytes), R s t → (write data s).1 = (write data t).1

omit [ByteStream τ] in
theorem chunks_of_next {s m : σ} {chunk : Bytes} (hn : next s = (some chunk, m)) :
    chunks s = chunk :: chunks m := by
  conv => lhs; unfold chunks
  split
  · next h =>
    obtain ⟨h, rfl⟩ := Prod.mk.inj (h.symm.trans hn)
    rw [Option.some.inj h]
  · next h => exact absurd (h.symm.trans hn) (by simp)

omit [ByteStream τ] in
theorem chunks_of_end {s m : σ} (hn : next s = (none, m)) : chunks s = [] := by
  unfold chunks
  split
  · next h => exact absurd (h.symm.trans hn) (by simp)
  · rfl

/-- So all that is still to come is the same. -/
theorem SameReads.chunks {R : σ → τ → Prop} (hr : SameReads R) {s : σ} {t : τ} (h : R s t) :
    chunks s = chunks t := by
  fun_induction ByteStream.chunks s generalizing t with
  | case1 s chunk m hn ih =>
      obtain ⟨hanswer, hleft⟩ := hr.next h
      rw [hn] at hanswer hleft
      rw [chunks_of_next (Prod.ext hanswer.symm rfl), ih hleft]
  | case2 s m hn =>
      obtain ⟨hanswer, _⟩ := hr.next h
      rw [hn] at hanswer
      rw [chunks_of_end (Prod.ext hanswer.symm rfl)]

end ByteStream

open ByteStream (SameReads SameAnswers)

section Streams

variable {σ τ : Type} {R : σ → τ → Prop}

/-! ### Readers -/

/-- Readers with the same carry over related sources. -/
structure Reader.Alike (R : σ → τ → Prop) (r : Reader σ) (r' : Reader τ) : Prop where
  carry : r.carry = r'.carry
  source : R r.source r'.source

/-- Consoles with the same prompt and readers that are alike. -/
structure Console.Alike (R : σ → τ → Prop) (c : Console σ) (c' : Console τ) : Prop where
  reader : c.reader.Alike R c'.reader
  prompt : c.prompt = c'.prompt

/-- Sessions in the same state, with the same tree and consoles that are alike. -/
structure Shell.Alike {η : Type} (R : σ → τ → Prop) (sh : Shell σ η) (sh' : Shell τ η) :
    Prop where
  console : sh.console.Alike R sh'.console
  tree : sh.tree = sh'.tree
  state : sh.state = sh'.state

/-- The same operation on two sessions; a push keeps the streams related. -/
inductive Operation.Alike (R : σ → τ → Prop) : Operation σ → Operation τ → Prop
  | step : Alike R .step .step
  | run : Alike R .run .run
  | setPrompt (label : String) : Alike R (.setPrompt label) (.setPrompt label)
  | push {f : σ → σ} {g : τ → τ} (h : ∀ s t, R s t → R (f s) (g t)) :
      Alike R (.push f) (.push g)

variable [ByteStream σ] [ByteStream τ]

namespace Reader

/-- A request scans the same carry, and pulls the same chunks where that does not do. -/
theorem Alike.next (hr : SameReads R) (mode : Mode) {r : Reader σ} {r' : Reader τ}
    (h : r.Alike R r') : Agree (Alike R) (next mode r) (next mode r') := by
  induction hw : r.weight using Nat.strongRecOn generalizing r r' with
  | ind w ih =>
      obtain ⟨carry, s⟩ := r
      obtain ⟨carry', t⟩ := r'
      obtain ⟨rfl, hsource⟩ := h
      rw [next_eq, next_eq mode ⟨carry, t⟩]
      simp only
      cases hs : Scan.ofMode mode carry with
      | complete found => exact ⟨rfl, rfl, hsource⟩
      | skip count =>
          have hlt := hw ▸ drop_weight_lt (r := ⟨carry, s⟩) (Scan.resume_skip hs)
          exact ih _ hlt ⟨rfl, hsource⟩ rfl
      | incomplete =>
          have hnext := hr.next hsource
          rcases hp : ByteStream.next s with ⟨answer, m⟩
          rcases hp' : ByteStream.next t with ⟨answer', m'⟩
          rw [hp, hp'] at hnext
          obtain ⟨rfl, hleft⟩ := hnext
          cases answer with
          | none => exact ⟨rfl, rfl, hleft⟩
          | some chunk =>
              have hlt := hw ▸ append_weight_lt (r := ⟨carry, s⟩) hp
              exact ih _ hlt ⟨rfl, hleft⟩ rfl

theorem Alike.write (hr : SameReads R) (data : Bytes) {r : Reader σ} {r' : Reader τ}
    (h : r.Alike R r') : (write data r).2.Alike R (write data r').2 :=
  ⟨h.carry, hr.write data h.source⟩

/-- So everything that can be asked for later is answered alike. -/
theorem Alike.converse (hr : SameReads R) (choose : List (Option Record) → Mode) {r : Reader σ}
    {r' : Reader τ} (h : r.Alike R r') (n : Nat) :
    Agree (Alike R) (converse choose r n) (converse choose r' n) := by
  induction n with
  | zero => exact ⟨rfl, h⟩
  | succ n ih =>
      obtain ⟨hbefore, hmid⟩ := ih
      obtain ⟨hanswer, hleft⟩ := hmid.next hr (choose (Reader.converse choose r n).1)
      unfold Reader.converse
      simp only
      rw [← hbefore]
      exact ⟨congrArg (fun answer => _ ++ [answer]) hanswer, hleft⟩

end Reader

/-! ### Dialogues -/

/-- What a dialogue can do to a stream. -/
inductive Traffic
  /-- It reads. -/
  | input
  /-- It writes. -/
  | output

theorem Console.Alike.write (hr : SameReads R) (data : Bytes) {c : Console σ} {c' : Console τ}
    (h : c.Alike R c') : (c.write data).2.Alike R (c'.write data).2 :=
  ⟨h.reader.write hr data, h.prompt⟩

theorem Console.Alike.read (hr : SameReads R) (mode : Mode) {c : Console σ} {c' : Console τ}
    (h : c.Alike R c') : Agree (Console.Alike R) (c.read mode) (c'.read mode) := by
  obtain ⟨hanswer, hleft⟩ := h.reader.next hr mode
  exact ⟨hanswer, hleft, h.prompt⟩

namespace Dialogue

variable {ν α : Type}

/-- A dialogue that does without the traffic of one kind. -/
def Without (t : Traffic) : Dialogue ν α → Prop
  | done _ => True
  | write _ answer => t ≠ .output ∧ ∀ result, (answer result).Without t
  | read _ answer => t ≠ .input ∧ ∀ record, (answer record).Without t
  | prompt answer => ∀ label, (answer label).Without t
  | setPrompt _ rest => rest.Without t
  | note _ rest => rest.Without t

/-- Dialogues that ended alike. -/
structure Run.Alike (R : σ → τ → Prop) (x : Run σ ν α) (y : Run τ ν α) : Prop where
  result : x.result = y.result
  notes : x.notes = y.notes
  console : x.console.Alike R y.console

/-- **A dialogue goes the same way over both**, unless it learns how its writing went and the
answers differ. -/
theorem run_alike (hr : SameReads R) {d : Dialogue ν α} (hd : SameAnswers R ∨ d.Without .output)
    {c : Console σ} {c' : Console τ} (h : c.Alike R c') : (d.run c).Alike R (d.run c') := by
  induction d generalizing c c' with
  | done result => exact ⟨rfl, rfl, h⟩
  | write data answer ih =>
      rcases hd with ha | hsilent
      · have hanswer : (c.write data).1 = (c'.write data).1 := ha data h.reader.source
        unfold run
        simp only
        rw [← hanswer]
        exact ih _ (Or.inl ha) (h.write hr data)
      · exact absurd rfl hsilent.1
  | read mode answer ih =>
      obtain ⟨hanswer, hleft⟩ := h.read hr mode
      unfold run
      simp only
      rw [← hanswer]
      exact ih _ (hd.imp_right fun hsilent => hsilent.2 _) hleft
  | prompt answer ih =>
      unfold run
      rw [← h.prompt]
      exact ih _ (hd.imp_right fun hsilent => hsilent _) h
  | setPrompt label rest ih => exact ih hd ⟨h.reader, rfl⟩
  | note n rest ih =>
      obtain ⟨hresult, hnotes, hconsole⟩ := ih hd h
      exact ⟨hresult, congrArg (n :: ·) hnotes, hconsole⟩

end Dialogue

/-! ### Sessions -/

/-- Every handler that a statement can name in the tree does without the traffic of one kind when it
is invoked. -/
def HandlersWithout (t : Traffic) {η ν : Type} (perform : η → Invocation η → Act ν Unit)
    (tree : CommandTree η) : Prop :=
  ∀ (statement : Record) (command : Command η) (depth : Nat) (handler : η),
    tree.resolve statement.tokens = some (command, depth) → command.handler = some handler →
      (perform handler ⟨statement, depth, command, tree⟩).run.Without t

namespace Shell

variable {η ν : Type} {sh : Shell σ η} {sh' : Shell τ η}

theorem Alike.reply (hr : SameReads R) (text : String) (h : sh.Alike R sh') :
    (sh.reply text).Alike R (sh'.reply text) :=
  ⟨h.console.write hr (textBytes text), h.tree, h.state⟩

theorem Alike.invoke (hr : SameReads R) {handle : Invocation η → Act ν Unit} {i : Invocation η}
    (hd : SameAnswers R ∨ (handle i).run.Without .output) (h : sh.Alike R sh') :
    Agree (Alike R) (sh.invoke handle i) (sh'.invoke handle i) := by
  obtain ⟨hresult, hnotes, hconsole⟩ := Dialogue.run_alike hr hd h.console
  unfold Shell.invoke
  simp only
  rw [← hresult, ← hnotes]
  refine ⟨rfl, ?_⟩
  split
  · exact ⟨hconsole, h.tree, rfl⟩
  · exact Alike.reply hr _ ⟨hconsole, h.tree, rfl⟩

variable {perform : η → Invocation η → Act ν Unit}

theorem Alike.dispatch (hr : SameReads R)
    (hq : SameAnswers R ∨ HandlersWithout .output perform sh.tree) (statement : Record)
    (h : sh.Alike R sh') :
    Agree (Alike R) (dispatch perform statement sh) (dispatch perform statement sh') := by
  unfold Shell.dispatch
  rw [← h.tree]
  cases ht : statement.tokens with
  | nil => exact ⟨rfl, h⟩
  | cons first rest =>
      simp only
      cases Builtin.ofToken? first with
      | some builtin =>
          cases builtin with
          | exit => exact ⟨rfl, h.console, rfl, rfl⟩
          | help => exact ⟨rfl, h.reply hr _⟩
      | none =>
          cases hc : sh.tree.resolve (first :: rest) with
          | none => exact ⟨rfl, h.reply hr _⟩
          | some found =>
              obtain ⟨command, depth⟩ := found
              simp only
              cases hh : command.handler with
              | none => exact ⟨rfl, h.reply hr _⟩
              | some handler =>
                  have hsilent := hq.imp_right fun hsilent =>
                    hsilent statement command depth handler (ht ▸ hc) hh
                  exact h.invoke hr hsilent

theorem Alike.asked (hr : SameReads R) (h : sh.Alike R sh') : sh.asked.Alike R sh'.asked := by
  unfold Shell.asked
  rw [h.console.prompt]
  exact h.reply hr _

/-- Two cycles ask alike and find the same, so all that matters is what becomes of a statement. -/
theorem Alike.step_of (hr : SameReads R) {perform' : η → Invocation η → Act ν Unit}
    {P : Cycle η ν × Shell σ η → Cycle η ν × Shell τ η → Prop}
    (hsame : ∀ {x y}, Agree (Alike R) x y → P x y)
    (hdispatch : ∀ (statement : Record) {mid : Shell σ η} {mid' : Shell τ η}, mid.Alike R mid' →
      mid.tree = sh.tree → P (Shell.dispatch perform statement mid)
        (Shell.dispatch perform' statement mid'))
    (h : sh.Alike R sh') : P (Shell.step perform sh) (Shell.step perform' sh') := by
  obtain ⟨hanswer, hleft⟩ := (h.asked hr).console.read hr .statement
  by_cases hopen : sh.state = .closed
  · rw [step_closed hopen, step_closed (h.state ▸ hopen)]
    exact hsame ⟨rfl, h⟩
  · have hopen' : sh'.state ≠ .closed := h.state ▸ hopen
    rcases hread : sh.asked.console.read .statement with ⟨answer, c⟩
    rcases hread' : sh'.asked.console.read .statement with ⟨answer', c'⟩
    rw [hread, hread'] at hanswer hleft
    simp only at hanswer hleft
    subst hanswer
    cases answer with
    | none =>
        rw [step_ended hopen hread, step_ended hopen' hread']
        exact hsame ⟨rfl, hleft, h.tree, rfl⟩
    | some statement =>
        rw [step_read hopen hread, step_read hopen' hread']
        exact hdispatch statement ⟨hleft, h.tree, h.state⟩ rfl

theorem Alike.step (hr : SameReads R) (hq : SameAnswers R ∨ HandlersWithout .output perform sh.tree)
    (h : sh.Alike R sh') : Agree (Alike R) (step perform sh) (step perform sh') := by
  refine h.step_of hr (fun hsame => hsame) ?_
  intro statement mid mid' hmid htree
  exact hmid.dispatch hr (htree ▸ hq) statement

/-- Runs are in step if single cycles are, and go on or not together: what holds of every two
cycles holds of all of them in order. -/
theorem run_lockstep {perform' : η → Invocation η → Act ν Unit}
    {S : Shell σ η → Shell τ η → Prop} {P : Cycle η ν → Cycle η ν → Prop}
    (hflow : ∀ {x y}, P x y → x.flow = y.flow)
    (hstep : ∀ {sh : Shell σ η} {sh' : Shell τ η}, S sh sh' →
      P (step perform sh).1 (step perform' sh').1 ∧
        S (step perform sh).2 (step perform' sh').2)
    (h : S sh sh') :
    List.Forall₂ P (run perform sh).1 (run perform' sh').1 ∧
      S (run perform sh).2 (run perform' sh').2 := by
  induction hw : sh.weight using Nat.strongRecOn generalizing sh sh' with
  | ind w ih =>
      obtain ⟨hcycle, hleft⟩ := hstep h
      have hsame := hflow hcycle
      cases hf : (step perform sh).1.flow with
      | closed =>
          rw [run_of_closed hf, run_of_closed (hsame.symm.trans hf)]
          exact ⟨.cons hcycle .nil, hleft⟩
      | goesOn =>
          have hlt := hw ▸ step_weight_lt hf
          rw [run_of_goesOn hf, run_of_goesOn (hsame.symm.trans hf)]
          obtain ⟨hcycles, hend⟩ := ih _ hlt hleft rfl
          exact ⟨.cons hcycle hcycles, hend⟩

theorem Alike.run (hr : SameReads R) (hq : SameAnswers R ∨ HandlersWithout .output perform sh.tree)
    (h : sh.Alike R sh') : Agree (Alike R) (run perform sh) (run perform sh') := by
  have hstep : ∀ {mid : Shell σ η} {mid' : Shell τ η}, mid.tree = sh.tree ∧ mid.Alike R mid' →
      (Shell.step perform mid).1 = (Shell.step perform mid').1 ∧
        (Shell.step perform mid).2.tree = sh.tree ∧
        (Shell.step perform mid).2.Alike R (Shell.step perform mid').2 := by
    intro mid mid' hmid
    obtain ⟨htree, hmid⟩ := hmid
    obtain ⟨hcycle, hleft⟩ := hmid.step hr (htree ▸ hq)
    exact ⟨hcycle, (step_tree perform mid).trans htree, hleft⟩
  obtain ⟨hcycles, _, hend⟩ :=
    run_lockstep (fun hcycle => congrArg Cycle.flow hcycle) hstep ⟨rfl, h⟩
  rw [List.forall₂_eq_eq_eq] at hcycles
  exact ⟨hcycles, hend⟩

theorem Alike.operate (hr : SameReads R) {op : Operation σ} {op' : Operation τ}
    (hop : op.Alike R op') (hq : SameAnswers R ∨ HandlersWithout .output perform sh.tree)
    (h : sh.Alike R sh') :
    Agree (Alike R) (operate perform op sh) (operate perform op' sh') := by
  cases hop with
  | step =>
      obtain ⟨hcycle, hleft⟩ := h.step hr hq
      exact ⟨congrArg (fun cycle => [cycle]) hcycle, hleft⟩
  | run => exact h.run hr hq
  | setPrompt label => exact ⟨rfl, ⟨h.console.reader, rfl⟩, h.tree, h.state⟩
  | push hpush =>
      exact ⟨rfl, ⟨⟨h.console.reader.carry, hpush _ _ h.console.reader.source⟩, h.console.prompt⟩,
        h.tree, h.state⟩

/-- **The same operations on sessions that are alike come to the same cycles** and leave the
sessions alike. -/
theorem Alike.operateAll (hr : SameReads R) {ops : List (Operation σ)}
    {ops' : List (Operation τ)} (hops : List.Forall₂ (Operation.Alike R) ops ops')
    (hq : SameAnswers R ∨ HandlersWithout .output perform sh.tree) (h : sh.Alike R sh') :
    Agree (Alike R) (operateAll perform ops sh) (operateAll perform ops' sh') := by
  induction hops generalizing sh sh' with
  | nil => exact ⟨rfl, h⟩
  | @cons op op' ops ops' hop _ ih =>
      obtain ⟨hfirst, hmid⟩ := h.operate hr hop hq
      have htree : (Shell.operate perform op sh).2.tree = sh.tree :=
        operateAll_tree perform [op] sh
      obtain ⟨hrest, hend⟩ := ih (htree ▸ hq) hmid
      unfold Shell.operateAll
      simp only
      rw [← hfirst, ← hrest]
      exact ⟨rfl, hend⟩

end Shell

end Streams

/-! ### Transports -/

section Transports

variable {τ υ : Type} {R : τ → υ → Prop}

/-- Related links are open at the same time and reads on them go alike; writing to them does not
change that, whatever comes of it. -/
structure Link.SameReads (l : Link τ) (l' : Link υ) (R : τ → υ → Prop) : Prop where
  isOpen : ∀ {t : τ} {u : υ}, R t u → l.isOpen t = l'.isOpen u
  read : ∀ {t : τ} {u : υ} (room : Nat), R t u → Agree R (l.read room t) (l'.read room u)
  write : ∀ {t : τ} {u : υ} (data : Bytes), R t u → R (l.write data t).2 (l'.write data u).2

/-- So waiting for a chunk goes alike. -/
theorem Link.SameReads.pulls {l : Link τ} {l' : Link υ} (hr : l.SameReads l' R) {room : Nat}
    {t t' : τ} {answer : Option Bytes} (hp : l.Pulls room t answer t') {u : υ} (h : R t u) :
    ∃ u', l'.Pulls room u answer u' ∧ R t' u' := by
  induction hp generalizing u with
  | closed ho => exact ⟨u, .closed (hr.isOpen h ▸ ho), h⟩
  | nothing ho hread _ ih =>
      obtain ⟨hanswer, hleft⟩ := hr.read room h
      rw [hread] at hanswer hleft
      obtain ⟨u', hp', h'⟩ := ih hleft
      exact ⟨u', .nothing (hr.isOpen h ▸ ho) (Prod.ext hanswer.symm rfl) hp', h'⟩
  | chunk ho hread =>
      obtain ⟨hanswer, hleft⟩ := hr.read room h
      rw [hread] at hanswer hleft
      exact ⟨_, .chunk (hr.isOpen h ▸ ho) (Prod.ext hanswer.symm rfl), hleft⟩
  | failed ho hread =>
      obtain ⟨hanswer, hleft⟩ := hr.read room h
      rw [hread] at hanswer hleft
      exact ⟨_, .failed (hr.isOpen h ▸ ho) (Prod.ext hanswer.symm rfl), hleft⟩

namespace Buffered

/-- Buffers of one size over related transports. -/
structure Alike (R : τ → υ → Prop) (s : Buffered τ) (s' : Buffered υ) : Prop where
  capacity : s.capacity = s'.capacity
  transport : R s.transport s'.transport

variable [Transport τ] [Transport υ]

theorem alike_sameReads (hr : (Transport.link τ).SameReads (Transport.link υ) R) :
    ByteStream.SameReads (Alike R) where
  next := by
    intro s s' h
    obtain ⟨capacity, t, pos⟩ := s
    obtain ⟨_, u, _⟩ := s'
    obtain ⟨rfl, htransport⟩ := h
    obtain ⟨u', hp, hleft⟩ := hr.pulls (pulls_next pos t) htransport
    have hnext : next capacity pos u = ((next capacity pos t).1, u') := (pulls_iff pos).mp hp
    show Agree _ ((next capacity pos t).1, _) ((next capacity pos u).1, _)
    rw [hnext]
    exact ⟨rfl, rfl, hleft⟩
  write := by
    intro s s' data h
    have ho : Transport.isOpen s.transport = Transport.isOpen s'.transport := hr.isOpen h.transport
    refine ⟨h.capacity, ?_⟩
    show R (write data s.transport).2 (write data s'.transport).2
    unfold write
    rw [ho]
    split
    · exact hr.write data h.transport
    · exact h.transport

end Buffered

/--
**How writing goes has no influence on a session.**  Two sessions with handlers that do not write
are held over transports that are read alike, and how writing to these goes is left open: any call
may fail or take a part of the data.  Then the same operations come to the same cycles, with the
same statements, invocations, outcomes and notes, and leave the same state, prompt and carry, the
same input still to be delivered and the same answers to whatever is asked for later.

The operations may be any, so this holds after each of them.
-/
theorem Shell.output_inert [Transport τ] [Transport υ] {η ν : Type}
    (hr : (Transport.link τ).SameReads (Transport.link υ) R)
    {perform : η → Invocation η → Act ν Unit} {tree : CommandTree η}
    (hq : HandlersWithout .output perform tree) (options : Options) {t : τ} {u : υ} (h : R t u)
    {ops : List (Operation (Buffered τ))} {ops' : List (Operation (Buffered υ))}
    (hops : List.Forall₂ (Operation.Alike (Buffered.Alike R)) ops ops') :
    let out := operateAll perform ops (ofTransport options tree t)
    let out' := operateAll perform ops' (ofTransport options tree u)
    out.1 = out'.1 ∧
    out.2.state = out'.2.state ∧
    out.2.console.prompt = out'.2.console.prompt ∧
    out.2.console.reader.carry = out'.2.console.reader.carry ∧
    R out.2.console.reader.source.transport out'.2.console.reader.source.transport ∧
    ByteStream.chunks out.2.console.reader.source = ByteStream.chunks out'.2.console.reader.source ∧
    ∀ choose n, (Reader.converse choose out.2.console.reader n).1
      = (Reader.converse choose out'.2.console.reader n).1 := by
  intro out out'
  have hsame := Buffered.alike_sameReads hr
  have hstart : (ofTransport options tree t).Alike (Buffered.Alike R)
      (ofTransport options tree u) := ⟨⟨⟨rfl, rfl, h⟩, rfl⟩, rfl, rfl⟩
  obtain ⟨hcycles, hleft⟩ := hstart.operateAll hsame hops (Or.inr hq)
  have hreader := hleft.console.reader
  refine ⟨hcycles, hleft.state, hleft.console.prompt, hreader.carry, hreader.source.transport,
    hsame.chunks hreader.source, ?_⟩
  intro choose n
  exact (hreader.converse hsame choose n).answer

end Transports

namespace Rehearsal

/-- Wires with the same script to read from are read alike, whatever their writers do. -/
theorem Wire.sameReads :
    (Transport.link Wire).SameReads (Transport.link Wire)
      (fun t u => t.events = u.events ∧ t.isOpen = u.isOpen) where
  isOpen := fun h => h.2
  read := by
    intro t u room h
    obtain ⟨events, writer, isOpen⟩ := t
    obtain ⟨_, writer', _⟩ := u
    obtain ⟨rfl, rfl⟩ := h
    show Agree _ (read room _) (read room _)
    unfold read
    simp only
    split <;> exact ⟨rfl, rfl, rfl⟩
  write := fun _ h => h

end Rehearsal

/-- One wire takes everything, and the other fails at every call. -/
theorem Shell.output_inert_failing_writer :
    let perform : Unit → Invocation Unit → Act Unit Unit := fun _ _ => Act.setPrompt "b"
    let tree : CommandTree Unit := ⟨[{ name := "rename", handler := some () }], by decide +kernel⟩
    let events : List Rehearsal.ReadEvent := [.data (textBytes "rename\nexit\n")]
    let taking : Rehearsal.Wire := ⟨events, {}, true⟩
    let failing : Rehearsal.Wire := ⟨events, { limit := some 0 }, true⟩
    let out := operateAll perform [.run] (ofTransport {} tree taking)
    let out' := operateAll perform [.run] (ofTransport {} tree failing)
    out.1 = out'.1 ∧ out.2.console.prompt = "b" ∧ out'.2.console.prompt = "b" ∧
      out.2.console.reader.source.transport.writer.written = textBytes "ash> b> " ∧
      out'.2.console.reader.source.transport.writer.written = [] := by
  intro perform tree events taking failing out out'
  have hsilent : HandlersWithout .output perform tree := fun _ _ _ _ _ _ => trivial
  obtain ⟨hcycles, _, hprompt, _⟩ := output_inert Rehearsal.Wire.sameReads hsilent {}
    (t := taking) (u := failing) ⟨rfl, rfl⟩ (.cons .run .nil)
  have hb : out.2.console.prompt = "b" := by decide +kernel
  exact ⟨hcycles, hb, hprompt ▸ hb, by decide +kernel, by decide +kernel⟩

end CommandShell
