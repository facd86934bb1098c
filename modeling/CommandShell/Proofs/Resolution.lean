/-
Which command a line of tokens names.

`resolveIn` takes the first command of a level that answers to the token, goes below it and never
comes back.  That this is the longest match is not a matter of the order in which commands stand:
in a tree no two commands of a level share a name (`Group.member_unique`), so tokens name one path
at most, and a path that goes further begins with the same commands.

What is said of paths is said with the index of each command among those next to it.  So there is
one path even where two commands of a forest are the same in every part.

Reordering is generated by swapping neighbours, on any level.  It keeps a tree a tree, because
swapping keeps the names of a group, and an induction on it goes through both trees at once.
-/
import CommandShell.Proofs.Acceptance
import CommandShell.Proofs.Session

namespace CommandShell

variable {η : Type}

/-! ### Paths and the tokens that name them -/

/-- Commands one below the other from the first level of a forest on, each with its index among
those next to it. -/
inductive Path : List (Command η) → List (Nat × Command η) → Prop
  | nil {cs : List (Command η)} : Path cs []
  | cons {cs : List (Command η)} {i : Nat} {c : Command η} {path : List (Nat × Command η)}
      (hc : cs[i]? = some c) (h : Path c.children path) : Path cs ((i, c) :: path)

/-- Tokens name the commands of a path one by one, each by a name that it answers to, byte for
byte. -/
inductive Names : List (Command η) → List Bytes → List (Nat × Command η) → Prop
  | nil {cs : List (Command η)} : Names cs [] []
  | cons {cs : List (Command η)} {i : Nat} {c : Command η} {name : String} {token : Bytes}
      {tokens : List Bytes} {path : List (Nat × Command η)} (hc : cs[i]? = some c)
      (hname : name ∈ c.names) (htoken : textBytes name = token)
      (h : Names c.children tokens path) : Names cs (token :: tokens) ((i, c) :: path)

/-- No tokens at the front of a line name a path. -/
def NamesNothing (cs : List (Command η)) (tokens : List Bytes) : Prop :=
  ∀ n path, 1 ≤ n → n ≤ tokens.length → ¬ Names cs (tokens.take n) path

/-- The first `depth` tokens of a line name a path that ends with `c`, and more tokens name
none. -/
structure NamesLongest (cs : List (Command η)) (tokens : List Bytes) (c : Command η)
    (depth : Nat) : Prop where
  pos : 1 ≤ depth
  le : depth ≤ tokens.length
  named : ∃ path i, Names cs (tokens.take depth) (path ++ [(i, c)])
  longest : ∀ n path, n ≤ tokens.length → Names cs (tokens.take n) path → n ≤ depth

/-- A choice of names for the commands of a path names it. -/
theorem Path.names {cs : List (Command η)} {path : List (Nat × Command η)} {names : List String}
    (h : Path cs path) (hnames : List.Forall₂ (fun step name => name ∈ step.2.names) path names) :
    Names cs (names.map textBytes) path := by
  induction h generalizing names with
  | nil =>
      cases hnames
      exact .nil
  | cons hc _ ih =>
      cases hnames with
      | cons hname hnames => exact .cons hc hname rfl (ih hnames)

/-! ### Names tell commands apart -/

/-- In a group with unambiguous names, a name belongs to one member. -/
theorem Group.member_unique {g : Group η} (h : Unambiguous g.names) {i j : Nat} {c d : Command η}
    {name : String} (hi : g.members[i]? = some c) (hj : g.members[j]? = some d)
    (hc : name ∈ c.names) (hd : name ∈ d.names) : i = j ∧ c = d := by
  have hdisjoint := (List.nodup_flatMap.mp h.nodup).2
  have hapart : ∀ {k l : Nat} {a b : Command η}, k < l → g.members[k]? = some a →
      g.members[l]? = some b → name ∈ a.names → name ∉ b.names := by
    intro k l a b hlt hk hl ha hb
    obtain ⟨hk', rfl⟩ := List.getElem?_eq_some_iff.mp hk
    obtain ⟨hl', rfl⟩ := List.getElem?_eq_some_iff.mp hl
    exact List.pairwise_iff_getElem.mp hdisjoint k l hk' hl' hlt ha hb
  rcases Nat.lt_trichotomy i j with hlt | rfl | hlt
  · exact absurd hd (hapart hlt hi hj hc)
  · exact ⟨rfl, Option.some.inj (hi.symm.trans hj)⟩
  · exact absurd hc (hapart hlt hj hi hd)

/-- **Tokens name one path at most.** -/
theorem Names.unique {g : Group η} (h : g.Sound) {tokens : List Bytes}
    {p q : List (Nat × Command η)} (hp : Names g.members tokens p)
    (hq : Names g.members tokens q) : p = q := by
  induction tokens generalizing g p q with
  | nil =>
      cases hp
      cases hq
      rfl
  | cons token tokens ih =>
      obtain ⟨hnames, hbelow⟩ := Group.sound_iff.mp h
      cases hp with
      | @cons _ i c name _ _ p hc hname htoken hp =>
          cases hq with
          | @cons _ j d other _ _ q hd hother htoken' hq =>
              obtain rfl := textBytes_inj.mp (htoken.trans htoken'.symm)
              obtain ⟨rfl, rfl⟩ := Group.member_unique hnames hc hd hname hother
              rw [ih (hbelow c (List.mem_of_getElem? hc)) hp hq]

section FirstToken

variable {g : Group η} {i depth : Nat} {first c : Command η} {token : Bytes} {rest : List Bytes}

/-- Whatever else a line names begins with the command that answers to its first token. -/
theorem Names.behind (hg : Unambiguous g.names) (hi : g.members[i]? = some first)
    (ha : first.answersTo token = true) {n : Nat} {path : List (Nat × Command η)}
    (h : Names g.members ((token :: rest).take (n + 1)) path) :
    ∃ path', Names first.children (rest.take n) path' := by
  obtain ⟨name, hname, htoken⟩ := Command.answersTo_iff.mp ha
  rw [List.take_succ_cons] at h
  cases h with
  | @cons _ j d other _ _ path' hd hother htoken' h =>
      obtain rfl := textBytes_inj.mp (htoken.trans htoken'.symm)
      obtain ⟨rfl, rfl⟩ := Group.member_unique hg hi hd hname hother
      exact ⟨path', h⟩

theorem NamesLongest.deeper (hg : Unambiguous g.names) (hi : g.members[i]? = some first)
    (ha : first.answersTo token = true) (h : NamesLongest first.children rest c depth) :
    NamesLongest g.members (token :: rest) c (depth + 1) := by
  obtain ⟨name, hname, htoken⟩ := Command.answersTo_iff.mp ha
  obtain ⟨path, j, hpath⟩ := h.named
  refine ⟨by omega, Nat.succ_le_succ h.le, ⟨(i, first) :: path, j, ?_⟩, ?_⟩
  · rw [List.take_succ_cons]
    exact .cons hi hname htoken hpath
  · intro n path' hn hnamed
    cases n with
    | zero => omega
    | succ n =>
        obtain ⟨path'', hbehind⟩ := hnamed.behind hg hi ha
        exact Nat.succ_le_succ (h.longest n path'' (Nat.le_of_succ_le_succ hn) hbehind)

theorem NamesLongest.single (hg : Unambiguous g.names) (hi : g.members[i]? = some first)
    (ha : first.answersTo token = true) (h : NamesNothing first.children rest) :
    NamesLongest g.members (token :: rest) first 1 := by
  obtain ⟨name, hname, htoken⟩ := Command.answersTo_iff.mp ha
  refine ⟨Nat.le_refl 1, by simp, ⟨[], i, .cons hi hname htoken ?_⟩, ?_⟩
  · simpa using Names.nil
  · intro n path' hn hnamed
    cases n with
    | zero => omega
    | succ n =>
        obtain ⟨path'', hbehind⟩ := hnamed.behind hg hi ha
        by_contra hlt
        exact h n path'' (by omega) (Nat.le_of_succ_le_succ hn) hbehind

end FirstToken

namespace CommandTree

/-! ### What resolving finds -/

theorem resolveIn_none {cs : List (Command η)} {tokens : List Bytes}
    (h : resolveIn cs tokens = none) : NamesNothing cs tokens := by
  intro n path hpos hle hnamed
  cases tokens with
  | nil => simp only [List.length_nil] at hle; omega
  | cons token rest =>
      obtain ⟨n, rfl⟩ : ∃ m, n = m + 1 := ⟨n - 1, by omega⟩
      rw [List.take_succ_cons] at hnamed
      cases hnamed with
      | @cons _ i c name _ _ _ hc hname htoken _ =>
          have hfound : (cs.find? (·.answersTo token)).isSome = true := by
            rw [List.find?_isSome]
            exact ⟨c, List.mem_of_getElem? hc, Command.answersTo_iff.mpr ⟨name, hname, htoken⟩⟩
          rw [resolveIn] at h
          obtain ⟨d, hd⟩ := Option.isSome_iff_exists.mp hfound
          rw [hd] at h
          simp only at h
          split at h <;> exact absurd h (by simp)

/-- What is found ends the longest path that is named. -/
theorem resolveIn_some {g : Group η} (hg : g.Sound) {tokens : List Bytes} {c : Command η}
    {depth : Nat} (h : resolveIn g.members tokens = some (c, depth)) :
    NamesLongest g.members tokens c depth := by
  induction tokens generalizing g c depth with
  | nil => simp [resolveIn] at h
  | cons token rest ih =>
      obtain ⟨hnames, hbelow⟩ := Group.sound_iff.mp hg
      rw [resolveIn] at h
      split at h
      · exact absurd h (by simp)
      · next first hfind =>
        have hmem := List.mem_of_find?_eq_some hfind
        obtain ⟨i, hi⟩ := List.mem_iff_getElem?.mp hmem
        have hanswers : first.answersTo token = true := List.find?_some hfind
        split at h
        · next nested k hnested =>
          obtain ⟨rfl, rfl⟩ : nested = c ∧ k + 1 = depth := by simpa using h
          exact .deeper hnames hi hanswers (ih (hbelow first hmem) hnested)
        · next hnested =>
          obtain ⟨rfl, rfl⟩ : first = c ∧ 1 = depth := by simpa using h
          exact .single hnames hi hanswers (resolveIn_none hnested)

/-- One command at most is at the end of the longest path. -/
theorem NamesLongest.unique {g : Group η} (hg : g.Sound) {tokens : List Bytes} {c d : Command η}
    {m n : Nat} (hc : NamesLongest g.members tokens c m) (hd : NamesLongest g.members tokens d n) :
    c = d ∧ m = n := by
  obtain ⟨p, i, hp⟩ := hc.named
  obtain ⟨q, j, hq⟩ := hd.named
  obtain rfl : m = n :=
    Nat.le_antisymm (hd.longest m _ hc.le hp) (hc.longest n _ hd.le hq)
  obtain ⟨_, hlast⟩ := List.append_inj' (hp.unique hg hq) rfl
  exact ⟨by simpa using (Prod.mk.inj (List.singleton_inj.mp hlast)).2, rfl⟩

theorem resolve_eq_none_iff {tree : CommandTree η} {tokens : List Bytes} :
    tree.resolve tokens = none ↔ NamesNothing tree.roots tokens := by
  constructor
  · exact resolveIn_none
  · intro h
    cases hr : tree.resolve tokens with
    | none => rfl
    | some found =>
        obtain ⟨c, depth⟩ := found
        obtain ⟨hpos, hle, ⟨path, i, hnamed⟩, _⟩ := resolveIn_some tree.sound hr
        exact absurd hnamed (h depth _ hpos hle)

theorem resolve_eq_some_iff {tree : CommandTree η} {tokens : List Bytes} {c : Command η}
    {depth : Nat} :
    tree.resolve tokens = some (c, depth) ↔ NamesLongest tree.roots tokens c depth := by
  constructor
  · exact resolveIn_some tree.sound
  · intro h
    cases hr : tree.resolve tokens with
    | none =>
        obtain ⟨path, i, hnamed⟩ := h.named
        exact absurd hnamed (resolve_eq_none_iff.mp hr depth _ h.pos h.le)
    | some found =>
        obtain ⟨d, n⟩ := found
        obtain ⟨rfl, rfl⟩ := NamesLongest.unique tree.sound (resolveIn_some tree.sound hr) h
        rfl

/-- **Every command is found by every choice of names along its path.** -/
theorem resolve_path {tree : CommandTree η} {path : List (Nat × Command η)} {i : Nat}
    {c : Command η} {names : List String} (h : Path tree.roots (path ++ [(i, c)]))
    (hnames : List.Forall₂ (fun step name => name ∈ step.2.names) (path ++ [(i, c)]) names) :
    tree.resolve (names.map textBytes) = some (c, names.length) := by
  have hlen := hnames.length_eq
  simp only [List.length_append, List.length_singleton] at hlen
  refine resolve_eq_some_iff.mpr ⟨by omega, by simp, ⟨path, i, ?_⟩, ?_⟩
  · rw [List.take_of_length_le (by simp)]
    exact h.names hnames
  · intro n _ hn _
    simpa using hn

end CommandTree

/-! ### Built-in words shadow nothing -/

namespace Shell

variable {σ ν : Type} [ByteStream σ]

/-- What comes of a statement when its command is found: the handler is invoked over the statement,
or the help of a command without one is shown. -/
def reach (perform : η → Invocation η → Act ν Unit) (statement : Record) (c : Command η)
    (depth : Nat) (sh : Shell σ η) : Cycle η ν × Shell σ η :=
  match c.handler with
  | none => (.listed statement c, sh.reply (Help.ofCommand c))
  | some h => sh.invoke (perform h) ⟨statement, depth, c, sh.tree⟩

/-- The first token of a line that names a command is not reserved. -/
theorem ofToken?_of_resolve {tree : CommandTree η} {first : Bytes} {rest : List Bytes}
    {c : Command η} {depth : Nat} (h : tree.resolve (first :: rest) = some (c, depth)) :
    Builtin.ofToken? first = none := by
  obtain ⟨hpos, _, ⟨path, i, hnamed⟩, _⟩ := CommandTree.resolve_eq_some_iff.mp h
  obtain ⟨n, rfl⟩ : ∃ n, depth = n + 1 := ⟨depth - 1, by omega⟩
  rw [List.take_succ_cons] at hnamed
  generalize path ++ [(i, c)] = p at hnamed
  cases hnamed with
  | @cons _ j d name _ _ _ hd hname htoken _ =>
      have hmem : name ∈ (Group.top tree.roots).names :=
        List.mem_flatMap.mpr ⟨d, List.mem_of_getElem? hd, hname⟩
      rw [← htoken]
      by_contra hsome
      exact tree.not_reserved name hmem
        (Builtin.isSome_ofToken?_iff.mp (Option.isSome_iff_ne_none.mpr hsome))

/-- **A line that names a command reaches it.** -/
theorem dispatch_reaches {perform : η → Invocation η → Act ν Unit} {statement : Record}
    {sh : Shell σ η} {c : Command η} {depth : Nat}
    (h : sh.tree.resolve statement.tokens = some (c, depth)) :
    dispatch perform statement sh = reach perform statement c depth sh := by
  have hd := dispatches perform statement sh
  generalize dispatch perform statement sh = out at hd ⊢
  cases hd with
  | idle ht =>
      rw [ht] at h
      exact absurd h (by simp [CommandTree.resolve, CommandTree.resolveIn])
  | left ht hb =>
      rw [ht] at h
      exact absurd (hb.symm.trans (ofToken?_of_resolve h)) (by simp)
  | helped ht hb =>
      rw [ht] at h
      exact absurd (hb.symm.trans (ofToken?_of_resolve h)) (by simp)
  | notFound ht hb hc => exact absurd (h.symm.trans hc) (by simp)
  | listed ht hb hc hh =>
      obtain ⟨rfl, rfl⟩ := Prod.mk.inj (Option.some.inj (h.symm.trans hc))
      rw [reach, hh]
  | ran ht hb hc hh =>
      obtain ⟨rfl, rfl⟩ := Prod.mk.inj (Option.some.inj (h.symm.trans hc))
      rw [reach, hh]

end Shell

/-! ### The order of commands -/

/-- A command with other commands below it. -/
def Command.withChildren (kids : List (Command η)) (c : Command η) : Command η :=
  { c with children := kids }

namespace Command

@[simp] theorem withChildren_children (kids : List (Command η)) (c : Command η) :
    (c.withChildren kids).children = kids := rfl

@[simp] theorem withChildren_withChildren (kids kids' : List (Command η)) (c : Command η) :
    (c.withChildren kids).withChildren kids' = c.withChildren kids' := rfl

@[simp] theorem answersTo_withChildren (token : Bytes) (kids : List (Command η)) (c : Command η) :
    (c.withChildren kids).answersTo token = c.answersTo token := rfl

theorem withChildren_self (c : Command η) : c.withChildren c.children = c := by
  cases c
  rfl

end Command

/-- The same commands in another order, on this level and on every level below. -/
inductive Reordered : List (Command η) → List (Command η) → Prop
  | nil : Reordered [] []
  | cons {c : Command η} {kids cs cs' : List (Command η)} (hbelow : Reordered c.children kids)
      (h : Reordered cs cs') : Reordered (c :: cs) (c.withChildren kids :: cs')
  | swap (c d : Command η) (cs : List (Command η)) : Reordered (c :: d :: cs) (d :: c :: cs)
  | trans {cs ds es : List (Command η)} (h : Reordered cs ds) (h' : Reordered ds es) :
      Reordered cs es

namespace Reordered

variable {cs cs' : List (Command η)}

/-- It is enough to reorder what is below each of them. -/
theorem of_below (h : ∀ c ∈ cs, Reordered c.children c.children) : Reordered cs cs := by
  induction cs with
  | nil => exact .nil
  | cons c cs ih =>
      have hfirst := h c List.mem_cons_self
      have hrest := ih fun d hd => h d (List.mem_cons_of_mem c hd)
      simpa only [Command.withChildren_self] using Reordered.cons hfirst hrest

theorem refl (cs : List (Command η)) : Reordered cs cs := by
  have h := @Group.induction η (fun g => Reordered g.members g.members) (fun _ ih => of_below ih)
  exact h (Group.top cs)

/-- Any other order of one level is a reordering. -/
theorem of_perm (h : cs.Perm cs') : Reordered cs cs' := by
  induction h with
  | nil => exact .nil
  | cons c _ ih =>
      simpa only [Command.withChildren_self] using Reordered.cons (refl c.children) ih
  | swap c d cs => exact .swap d c cs
  | trans _ _ ih ih' => exact ih.trans ih'

/-- The names of a level are the same up to their order. -/
theorem names_perm (h : Reordered cs cs') :
    (cs.flatMap Command.names).Perm (cs'.flatMap Command.names) := by
  induction h with
  | nil => exact .nil
  | @cons c _ _ _ _ _ _ ih => exact ih.append_left c.names
  | swap c d cs =>
      simp only [List.flatMap_cons, ← List.append_assoc]
      exact List.perm_append_comm.append_right _
  | trans _ _ ih ih' => exact ih.trans ih'

end Reordered

theorem Unambiguous.of_perm {names names' : List String} (h : Unambiguous names)
    (hp : names.Perm names') : Unambiguous names' where
  nonempty := fun hc => h.nonempty (hp.mem_iff.mpr hc)
  nodup := hp.nodup_iff.mp h.nodup

/-- A group without its first member is sound if the whole is. -/
theorem Group.Sound.tail {parent : Option String} {c : Command η} {cs : List (Command η)}
    (h : Group.Sound ⟨parent, c :: cs⟩) : Group.Sound ⟨parent, cs⟩ := by
  obtain ⟨hnames, hbelow⟩ := Group.sound_iff.mp h
  have happend : (Group.mk parent (c :: cs)).names = c.names ++ (Group.mk parent cs).names := rfl
  rw [happend] at hnames
  refine Group.sound_iff.mpr ⟨⟨?_, (List.nodup_append.mp hnames.nodup).2.1⟩, ?_⟩
  · exact fun hc => hnames.nonempty (List.mem_append_right _ hc)
  · exact fun d hd => hbelow d (List.mem_cons_of_mem c hd)

/-- Nothing that was in order is wrong in another order. -/
theorem Reordered.sound {cs cs' : List (Command η)} (h : Reordered cs cs')
    {parent : Option String} (hs : Group.Sound ⟨parent, cs⟩) : Group.Sound ⟨parent, cs'⟩ := by
  induction h generalizing parent with
  | nil => exact hs
  | @cons c kids cs cs' hbelow h ihbelow ih =>
      obtain ⟨hnames, hmembers⟩ := Group.sound_iff.mp hs
      have hrest := Group.sound_iff.mp (ih hs.tail)
      refine Group.sound_iff.mpr ⟨hnames.of_perm (names_perm (.cons hbelow h)), ?_⟩
      intro d hd
      rcases List.mem_cons.mp hd with rfl | hd
      · exact ihbelow (hmembers c List.mem_cons_self)
      · exact hrest.2 d hd
  | swap c d cs =>
      obtain ⟨hnames, hmembers⟩ := Group.sound_iff.mp hs
      refine Group.sound_iff.mpr ⟨hnames.of_perm (names_perm (.swap c d cs)), ?_⟩
      intro e he
      exact hmembers e (by simpa [or_left_comm] using he)
  | trans _ _ ih ih' => exact ih' (ih hs)

/-- The same command up to the order of what is below it, and the same depth. -/
def SameMatch (m m' : Command η × Nat) : Prop :=
  m.2 = m'.2 ∧ ∃ kids, Reordered m.1.children kids ∧ m'.1 = m.1.withChildren kids

namespace CommandTree

theorem resolveIn_cons_of_answers {c : Command η} {cs : List (Command η)} {token : Bytes}
    {rest : List Bytes} (h : c.answersTo token = true) :
    resolveIn (c :: cs) (token :: rest)
      = some (((resolveIn c.children rest).map fun m => (m.1, m.2 + 1)).getD (c, 1)) := by
  rw [resolveIn, List.find?_cons_of_pos h]
  simp only
  cases resolveIn c.children rest with
  | none => rfl
  | some m => rfl

theorem resolveIn_cons_of_not_answers {c : Command η} {cs : List (Command η)} {token : Bytes}
    {rest : List Bytes} (h : c.answersTo token = false) :
    resolveIn (c :: cs) (token :: rest) = resolveIn cs (token :: rest) := by
  rw [resolveIn, List.find?_cons_of_neg (by simp [h]), resolveIn]

end CommandTree

namespace SameMatch

variable {m m' m'' : Command η × Nat}

theorem refl (m : Command η × Nat) : SameMatch m m :=
  ⟨rfl, m.1.children, Reordered.refl _, m.1.withChildren_self.symm⟩

theorem trans (h : SameMatch m m') (h' : SameMatch m' m'') : SameMatch m m'' := by
  obtain ⟨hdepth, kids, hkids, hc⟩ := h
  obtain ⟨hdepth', kids', hkids', hc'⟩ := h'
  rw [hc, Command.withChildren_children] at hkids'
  rw [hc, Command.withChildren_withChildren] at hc'
  exact ⟨hdepth.trans hdepth', kids', hkids.trans hkids', hc'⟩

end SameMatch

/-- The same match, or none in both cases. -/
abbrev SameMatches (o o' : Option (Command η × Nat)) : Prop :=
  Option.Rel SameMatch o o'

theorem SameMatches.refl (o : Option (Command η × Nat)) : SameMatches o o := by
  cases o with
  | none => exact .none
  | some m => exact .some (SameMatch.refl m)

theorem SameMatches.trans {o o' o'' : Option (Command η × Nat)} (h : SameMatches o o')
    (h' : SameMatches o' o'') : SameMatches o o'' := by
  cases h with
  | none => exact h'
  | some h =>
      cases h' with
      | some h' => exact .some (h.trans h')

namespace CommandTree

/-- **Another order finds the same.** -/
theorem resolveIn_reordered {cs cs' : List (Command η)} (h : Reordered cs cs')
    {parent : Option String} (hs : Group.Sound ⟨parent, cs⟩) (tokens : List Bytes) :
    SameMatches (resolveIn cs tokens) (resolveIn cs' tokens) := by
  induction h generalizing parent tokens with
  | nil => exact SameMatches.refl _
  | @cons c kids cs cs' hbelow h ihbelow ih =>
      cases tokens with
      | nil => exact .none
      | cons token rest =>
          cases hanswers : c.answersTo token with
          | true =>
              have hanswers' := (Command.answersTo_withChildren token kids c).trans hanswers
              have hmember := (Group.sound_iff.mp hs).2 c List.mem_cons_self
              have hnested := ihbelow hmember rest
              rw [resolveIn_cons_of_answers hanswers, resolveIn_cons_of_answers hanswers',
                Command.withChildren_children]
              refine .some ?_
              generalize resolveIn c.children rest = o at hnested ⊢
              generalize resolveIn kids rest = o' at hnested ⊢
              cases hnested with
              | none => exact ⟨rfl, kids, hbelow, rfl⟩
              | some hsame => exact ⟨congrArg (· + 1) hsame.1, hsame.2⟩
          | false =>
              have hanswers' := (Command.answersTo_withChildren token kids c).trans hanswers
              rw [resolveIn_cons_of_not_answers hanswers, resolveIn_cons_of_not_answers hanswers']
              exact ih hs.tail (token :: rest)
  | swap c d cs =>
      cases tokens with
      | nil => exact .none
      | cons token rest =>
          obtain ⟨hnames, _⟩ := Group.sound_iff.mp hs
          -- Only one of the two can answer, so it does not matter which of them is asked first.
          have hone : c.answersTo token = true → d.answersTo token = false := by
            intro hc
            by_contra hd
            obtain ⟨name, hname, htoken⟩ := Command.answersTo_iff.mp hc
            obtain ⟨other, hother, htoken'⟩ := Command.answersTo_iff.mp (Bool.of_not_eq_false hd)
            obtain rfl := textBytes_inj.mp (htoken.trans htoken'.symm)
            obtain ⟨hindex, _⟩ := Group.member_unique (g := ⟨parent, c :: d :: cs⟩) hnames
              (i := 0) (j := 1) rfl rfl hname hother
            exact absurd hindex (by simp)
          cases hc : c.answersTo token with
          | true =>
              have hd := hone hc
              rw [resolveIn_cons_of_not_answers hd, resolveIn_cons_of_answers hc,
                resolveIn_cons_of_answers hc]
              exact SameMatches.refl _
          | false =>
              rw [resolveIn_cons_of_not_answers hc]
              cases hd : d.answersTo token with
              | true =>
                  rw [resolveIn_cons_of_answers hd, resolveIn_cons_of_answers hd]
                  exact SameMatches.refl _
              | false =>
                  rw [resolveIn_cons_of_not_answers hd, resolveIn_cons_of_not_answers hd,
                    resolveIn_cons_of_not_answers hc]
                  exact SameMatches.refl _
  | trans h h' ih ih' => exact (ih hs tokens).trans (ih' (h.sound hs) tokens)

/-- What resolving lines of tokens in a tree comes to. -/
structure LongestMatch (tree : CommandTree η) : Prop where
  /-- Tokens name one path at most. -/
  onePath : ∀ tokens path path', Names tree.roots tokens path → Names tree.roots tokens path' →
    path = path'
  /-- Nothing is found if and only if no tokens at the front of the line name a path. -/
  nothing : ∀ tokens, tree.resolve tokens = none ↔ NamesNothing tree.roots tokens
  /-- What is found is the command at the end of the longest path that is named, with the number of
  tokens that name it. -/
  longest : ∀ tokens c depth, tree.resolve tokens = some (c, depth) ↔
    NamesLongest tree.roots tokens c depth
  /-- Every command of the tree is found by each choice of names along its path. -/
  everyCommand : ∀ path i c names, Path tree.roots (path ++ [(i, c)]) →
    List.Forall₂ (fun step name => name ∈ step.2.names) (path ++ [(i, c)]) names →
    tree.resolve (names.map textBytes) = some (c, names.length)
  /-- A statement by which a command is found reaches it: no built-in word comes before. -/
  reached : ∀ {σ ν : Type} [ByteStream σ] (perform : η → Invocation η → Act ν Unit)
    (statement : Record) (sh : Shell σ η) c depth, sh.tree = tree →
    tree.resolve statement.tokens = some (c, depth) →
    Shell.dispatch perform statement sh = Shell.reach perform statement c depth sh
  /-- The same commands in another order are a tree too, and lines come to the same match in it. -/
  reordered : ∀ roots', Reordered tree.roots roots' →
    ∃ tree' : CommandTree η, tree'.roots = roots' ∧
      ∀ tokens, SameMatches (tree.resolve tokens) (tree'.resolve tokens)

/-- A reordered tree is a tree. -/
theorem exists_reordered {tree : CommandTree η} {roots' : List (Command η)}
    (h : Reordered tree.roots roots') : ∃ tree' : CommandTree η, tree'.roots = roots' := by
  refine ⟨⟨roots', violation?_eq_none_iff.mpr ⟨?_, h.sound tree.sound⟩⟩, rfl⟩
  intro name hname
  exact tree.not_reserved name (h.names_perm.mem_iff.mpr hname)

/-- **A line is resolved to the longest match**, which the order of the commands has no part in. -/
theorem longest_match (tree : CommandTree η) : LongestMatch tree where
  onePath := fun _ _ _ hp hq => hp.unique tree.sound hq
  nothing := fun _ => resolve_eq_none_iff
  longest := fun _ _ _ => resolve_eq_some_iff
  everyCommand := fun _ _ _ _ hpath hnames => resolve_path hpath hnames
  reached := by
    intro σ ν _ perform statement sh c depth htree hresolve
    rw [← htree] at hresolve
    exact Shell.dispatch_reaches hresolve
  reordered := by
    intro roots' h
    obtain ⟨tree', rfl⟩ := exists_reordered h
    exact ⟨tree', rfl, resolveIn_reordered h tree.sound⟩

/-- Two levels, a line that names a path by an alias on each of them and goes on, and the same
commands with both levels swapped. -/
theorem longest_match_aliases :
    let x : Command Unit := { name := "x" }
    let y : Command Unit := { name := "y", aliases := ["z"] }
    let set : Command Unit := { name := "set", aliases := ["let"], children := [x, y] }
    let go : Command Unit := { name := "go" }
    let tree : CommandTree Unit := ⟨[set, go], by decide +kernel⟩
    let tokens := ["let", "z"].map textBytes
    Path tree.roots [(0, set), (1, y)] ∧ tree.resolve tokens = some (y, 2) ∧
      NamesLongest tree.roots (tokens ++ [[0x31]]) y 2 ∧
      ∃ tree' : CommandTree Unit, tree'.roots = [go, set.withChildren [y, x]] ∧
        SameMatches (tree.resolve tokens) (tree'.resolve tokens) := by
  intro x y set go tree tokens
  have hpath : Path tree.roots [(0, set), (1, y)] := .cons rfl (.cons rfl .nil)
  have hnames : List.Forall₂ (fun step name => name ∈ step.2.names)
      [((0 : Nat), set), (1, y)] ["let", "z"] := .cons (by decide) (.cons (by decide) .nil)
  have hfound := (longest_match tree).everyCommand [(0, set)] 1 y _ hpath hnames
  have hmore : tree.resolve (tokens ++ [[0x31]]) = some (y, 2) := by rfl
  have hroots : Reordered tree.roots [go, set] := .of_perm (.swap go set [])
  have hbelow : Reordered set.children [y, x] := .of_perm (.swap y x [])
  have hreordered : Reordered tree.roots [go, set.withChildren [y, x]] :=
    hroots.trans (.cons .nil (.cons hbelow .nil))
  obtain ⟨tree', htree, hsame⟩ := (longest_match tree).reordered _ hreordered
  exact ⟨hpath, hfound, ((longest_match tree).longest _ _ _).mp hmore, tree', htree,
    hsame tokens⟩

end CommandTree

end CommandShell
