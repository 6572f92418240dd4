import CoolTree.Proofs.Known
import CoolTree.Proofs.Showing

/-!
# Executions

How parsing goes on, step by step: what a phrase says is done part by part, a loop goes round as
long as its test holds, and an expression counts how deep it is while it is under way. Nothing here
stops a loop that takes no token, and the count is only changed where expressions begin and end.
Each execution also tells how many expressions were under way inside one another at most, those that
are cut off at the limit not counted.

The executions of a job come to one draft, whatever is asked of the rounds of loops. They leave the
count as it was, and they do not come to know the limit unless it is hit.
-/

namespace CoolTree

/-- What there is to do. -/
inductive Job where
  | phrase (p : Phrase)
  | loop (test : Test) (body : Phrase)
  | expression (least : Int)
  | climb (least : Int)

namespace Draft

/-- A round has taken a token. -/
def Consumes (d e : Draft) : Prop :=
  e.state.input.size < d.state.input.size

/-- Tokens are taken one by one as long as there are any and it goes on with them. How many brackets
are open may tell whether it does. -/
inductive TakesWhile (R : Draft → Draft → Prop) (goesOn : Nat → TokenKind → Option Nat) :
    Nat → Draft → Draft → Prop
  | stop {opened : Nat} {d : Draft}
      (h : ∀ item ∈ d.state.input.items.head?, goesOn opened item.token.kind = none) :
      TakesWhile R goesOn opened d d
  | again {opened next : Nat} {d e : Draft} {item : Item} {rest : List Item}
      (items : d.state.input.items = item :: rest)
      (goes : goesOn opened item.token.kind = some next) (round : R d d.tokenNode)
      (more : TakesWhile R goesOn next d.tokenNode e) : TakesWhile R goesOn opened d e

/-- Number of tokens that are taken as long as it goes on with them. -/
def taken (goesOn : Nat → TokenKind → Option Nat) (opened : Nat) : List Item → Nat
  | [] => 0
  | item :: rest =>
    match goesOn opened item.token.kind with
    | none => 0
    | some next => taken goesOn next rest + 1

/-- Skipping goes on up to a class. -/
def upTo (stop : TokenClass) (opened : Nat) (k : TokenKind) : Option Nat :=
  if stop.has k then none else some opened

/-- What is nested too deeply goes on up to a token that closes or separates something, if no
bracket is open. -/
def balanced (opened : Nat) (k : TokenKind) : Option Nat :=
  if k.isOpening then some (opened + 1)
  else if opened = 0 then if k.isSynchronizing then none else some 0
  else if k.isClosing then some (opened - 1)
  else some opened

/-- The loop of skipping up to a class. -/
def Skips (R : Draft → Draft → Prop) (stop : TokenClass) (d : Draft) : Prop :=
  TakesWhile R (upTo stop) 0 (blank d.state)
    ((blank d.state).tokenNodes (distance stop d.state.input.items))

/-- The loop in what is nested too deeply. -/
def Overruns (R : Draft → Draft → Prop) (s : State) : Prop :=
  TakesWhile R balanced 0 (blank s) ((blank s).tokenNodes (overrun 0 s.input.items))

theorem taken_upTo (stop : TokenClass) (opened : Nat) (items : List Item) :
    taken (upTo stop) opened items = distance stop items := by
  induction items with
  | nil => rfl
  | cons item rest ih =>
      rw [taken, upTo, distance]
      cases hstop : stop.has item.token.kind with
      | true => simp [hstop]
      | false => simpa [hstop, distance] using ih

theorem taken_balanced (opened : Nat) (items : List Item) :
    taken balanced opened items = overrun opened items := by
  induction items generalizing opened with
  | nil => rfl
  | cons item rest ih =>
      rw [taken, overrun_cons, balanced]
      split_ifs <;> simp only [ih]

theorem takesWhile_taken (goesOn : Nat → TokenKind → Option Nat) (opened : Nat) (d : Draft) :
    TakesWhile Consumes goesOn opened d
      (d.tokenNodes (taken goesOn opened d.state.input.items)) := by
  induction hitems : d.state.input.items generalizing opened d with
  | nil => exact .stop (by simp [hitems])
  | cons item rest ih =>
      unfold taken
      cases hgoes : goesOn opened item.token.kind with
      | none => exact .stop (by simpa [hitems] using hgoes)
      | some next =>
          obtain ⟨-, -, -, -, -, hinput, -⟩ := tokenNode_eq d hitems
          have hrest : d.tokenNode.state.input.items = rest := by
            rw [hinput, Input.items_tail, hitems, List.tail_cons]
          exact .again hitems hgoes (size_tokenNode_lt d hitems) (ih next d.tokenNode hrest)

theorem skips (stop : TokenClass) (d : Draft) : Skips Consumes stop d := by
  rw [Skips, ← taken_upTo stop 0]
  exact takesWhile_taken (upTo stop) 0 (blank d.state)

theorem overruns (s : State) : Overruns Consumes s := by
  rw [Overruns, ← taken_balanced]
  exact takesWhile_taken balanced 0 (blank s)

end Draft

open Draft

/-- How a job is executed: from a count and a draft to a count and a draft, with at most so many
expressions under way inside one another. Every round of a loop is as `R` asks. -/
inductive Executes (v : Levels) (limit : Nat) (R : Draft → Draft → Prop) :
    Job → Nat → Draft → Nat → Draft → Nat → Prop
  | done {c : Nat} {d : Draft} : Executes v limit R (.phrase .done) c d c d 0
  | expect {t : Terminal} {next : Phrase} {c c' k : Nat} {d e : Draft}
      (skips : d.Skips R (.either (.only t) .synchronizing))
      (more : Executes v limit R (.phrase next) c (d.expect t) c' e k) :
      Executes v limit R (.phrase (.expect t next)) c d c' e k
  | take {field : Option Field} {next : Phrase} {c c' k : Nat} {d e : Draft}
      (more : Executes v limit R (.phrase next) c (d.take field) c' e k) :
      Executes v limit R (.phrase (.take field next)) c d c' e k
  | word {field : Option Field} {slot : Slot} {next : Phrase} {c c' k : Nat} {d e : Draft}
      (more : Executes v limit R (.phrase next) c (d.word field slot) c' e k) :
      Executes v limit R (.phrase (.word field slot next)) c d c' e k
  | literal {next : Phrase} {c c' k : Nat} {d e : Draft}
      (more : Executes v limit R (.phrase next) c d.literal c' e k) :
      Executes v limit R (.phrase (.literal next)) c d c' e k
  | absent {next : Phrase} {c c' k : Nat} {d e : Draft}
      (more : Executes v limit R (.phrase next) c d.absent c' e k) :
      Executes v limit R (.phrase (.absent next)) c d c' e k
  | skip {stop : TokenClass} {next : Phrase} {c c' k : Nat} {d e : Draft}
      (skips : d.Skips R stop)
      (more : Executes v limit R (.phrase next) c (d.skip stop) c' e k) :
      Executes v limit R (.phrase (.skip stop next)) c d c' e k
  | operand {field : Option Field} {bound : Bound} {next : Phrase} {c c₁ c' k k' : Nat}
      {d inner e : Draft}
      (part : Executes v limit R (.expression (v.bound bound)) c (blank d.state) c₁ inner k)
      (more : Executes v limit R (.phrase next) c₁ (d.attach field inner) c' e k') :
      Executes v limit R (.phrase (.operand field bound next)) c d c' e (max k k')
  | node {field : Option Field} {kind : Kind} {body next : Phrase} {c c₁ c' k k' : Nat}
      {d inner e : Draft} (part : Executes v limit R (.phrase body) c (blank d.state) c₁ inner k)
      (more : Executes v limit R (.phrase next) c₁ (d.attach field (inner.enclose kind false))
        c' e k') :
      Executes v limit R (.phrase (.node field kind body next)) c d c' e (max k k')
  | yes {test : Test} {yes no next : Phrase} {c c₁ c' k k' : Nat} {d d₁ e : Draft}
      (holds : test.holds d.state.input = true)
      (part : Executes v limit R (.phrase yes) c d c₁ d₁ k)
      (more : Executes v limit R (.phrase next) c₁ d₁ c' e k') :
      Executes v limit R (.phrase (.choose test yes no next)) c d c' e (max k k')
  | no {test : Test} {yes no next : Phrase} {c c₁ c' k k' : Nat} {d d₁ e : Draft}
      (fails : ¬test.holds d.state.input = true)
      (part : Executes v limit R (.phrase no) c d c₁ d₁ k)
      (more : Executes v limit R (.phrase next) c₁ d₁ c' e k') :
      Executes v limit R (.phrase (.choose test yes no next)) c d c' e (max k k')
  | loop {test : Test} {body next : Phrase} {c c₁ c' k k' : Nat} {d d₁ e : Draft}
      (part : Executes v limit R (.loop test body) c d c₁ d₁ k)
      (more : Executes v limit R (.phrase next) c₁ d₁ c' e k') :
      Executes v limit R (.phrase (.loop test body next)) c d c' e (max k k')
  | last {test : Test} {body : Phrase} {c : Nat} {d : Draft}
      (fails : ¬test.holds d.state.input = true) : Executes v limit R (.loop test body) c d c d 0
  | again {test : Test} {body : Phrase} {c c₁ c' k k' : Nat} {d d₁ e : Draft}
      (holds : test.holds d.state.input = true)
      (part : Executes v limit R (.phrase body) c d c₁ d₁ k) (round : R d d₁)
      (more : Executes v limit R (.loop test body) c₁ d₁ c' e k') :
      Executes v limit R (.loop test body) c d c' e (max k k')
  | tooDeep {least : Int} {c : Nat} {d : Draft} (hit : limit ≤ c) (overruns : Overruns R d.state) :
      Executes v limit R (.expression least) c d c (tooDeep d.state) 0
  | expression {least : Int} {c c₁ c₂ k k' : Nat} {d d₁ e : Draft} (within : c < limit)
      (part : Executes v limit R (.phrase (.opening d.state.input.current d.state.input.upcoming))
        (c + 1) (blank d.state) c₁ d₁ k)
      (more : Executes v limit R (.climb least) c₁ d₁ c₂ e k') :
      Executes v limit R (.expression least) c d (c₂ - 1) e (max k k' + 1)
  | finish {least : Int} {c : Nat} {d : Draft} (stops : Continuation.of? v least d.current = none) :
      Executes v limit R (.climb least) c d c d 0
  | continue {least : Int} {next : Continuation} {c c₁ c' k k' : Nat} {d d₁ e : Draft}
      (goes : Continuation.of? v least d.current = some next)
      (part : Executes v limit R (.phrase next.phrase) c
        ((blank d.state).attach (some next.field) d) c₁ d₁ k)
      (round : R d (d₁.enclose next.kind false))
      (more : Executes v limit R (.climb least) c₁ (d₁.enclose next.kind false) c' e k') :
      Executes v limit R (.climb least) c d c' e (max k k')

namespace Executes

variable {v : Levels} {limit : Nat} {R R' : Draft → Draft → Prop} {j : Job} {c c' c'' k k' : Nat}
  {d e e' : Draft}

/-- The count is as before when a job is done, and no more expressions are under way at once than
the limit leaves to it. -/
theorem count_eq (h : Executes v limit R j c d c' e k) : c' = c ∧ k ≤ limit - c := by
  induction h with
  | done | last _ | tooDeep _ _ | finish _ => exact ⟨rfl, Nat.zero_le _⟩
  | expect _ _ ih | take _ ih | word _ ih | literal _ ih | absent _ ih | skip _ _ ih => exact ih
  | operand _ _ ih ih' | node _ _ ih ih' | yes _ _ _ ih ih' | no _ _ _ ih ih'
  | loop _ _ ih ih' | again _ _ _ _ ih ih' | «continue» _ _ _ _ ih ih' =>
      obtain ⟨rfl, hk⟩ := ih
      obtain ⟨rfl, hk'⟩ := ih'
      exact ⟨rfl, Nat.max_le.mpr ⟨hk, hk'⟩⟩
  | expression hwithin _ _ ih ih' =>
      obtain ⟨rfl, hk⟩ := ih
      obtain ⟨rfl, hk'⟩ := ih'
      have hmax := Nat.max_le.mpr ⟨hk, hk'⟩
      exact ⟨rfl, by omega⟩

/-- A job has one execution, whatever is asked of the rounds. -/
theorem unique (h : Executes v limit R j c d c' e k) (h' : Executes v limit R' j c d c'' e' k') :
    c'' = c' ∧ e' = e ∧ k' = k := by
  induction h generalizing c'' e' k' with
  | done =>
      cases h'
      exact ⟨rfl, rfl, rfl⟩
  | expect _ _ ih => cases h' with | expect _ more => exact ih more
  | take _ ih => cases h' with | take more => exact ih more
  | word _ ih => cases h' with | word more => exact ih more
  | literal _ ih => cases h' with | literal more => exact ih more
  | absent _ ih => cases h' with | absent more => exact ih more
  | skip _ _ ih => cases h' with | skip _ more => exact ih more
  | operand _ _ ih ih' =>
      cases h' with
      | operand part more =>
          obtain ⟨rfl, rfl, rfl⟩ := ih part
          obtain ⟨rfl, rfl, rfl⟩ := ih' more
          exact ⟨rfl, rfl, rfl⟩
  | node _ _ ih ih' =>
      cases h' with
      | node part more =>
          obtain ⟨rfl, rfl, rfl⟩ := ih part
          obtain ⟨rfl, rfl, rfl⟩ := ih' more
          exact ⟨rfl, rfl, rfl⟩
  | yes holds _ _ ih ih' =>
      cases h' with
      | yes _ part more =>
          obtain ⟨rfl, rfl, rfl⟩ := ih part
          obtain ⟨rfl, rfl, rfl⟩ := ih' more
          exact ⟨rfl, rfl, rfl⟩
      | no fails _ _ => exact (fails holds).elim
  | no fails _ _ ih ih' =>
      cases h' with
      | yes holds _ _ => exact (fails holds).elim
      | no _ part more =>
          obtain ⟨rfl, rfl, rfl⟩ := ih part
          obtain ⟨rfl, rfl, rfl⟩ := ih' more
          exact ⟨rfl, rfl, rfl⟩
  | loop _ _ ih ih' =>
      cases h' with
      | loop part more =>
          obtain ⟨rfl, rfl, rfl⟩ := ih part
          obtain ⟨rfl, rfl, rfl⟩ := ih' more
          exact ⟨rfl, rfl, rfl⟩
  | last fails =>
      cases h' with
      | last _ => exact ⟨rfl, rfl, rfl⟩
      | again holds _ _ _ => exact (fails holds).elim
  | again holds _ _ _ ih ih' =>
      cases h' with
      | last fails => exact (fails holds).elim
      | again _ part _ more =>
          obtain ⟨rfl, rfl, rfl⟩ := ih part
          obtain ⟨rfl, rfl, rfl⟩ := ih' more
          exact ⟨rfl, rfl, rfl⟩
  | tooDeep hit _ =>
      cases h' with
      | tooDeep _ _ => exact ⟨rfl, rfl, rfl⟩
      | expression within _ _ => exact (Nat.not_lt.mpr hit within).elim
  | expression within _ _ ih ih' =>
      cases h' with
      | tooDeep hit _ => exact (Nat.not_lt.mpr hit within).elim
      | expression _ part more =>
          obtain ⟨rfl, rfl, rfl⟩ := ih part
          obtain ⟨rfl, rfl, rfl⟩ := ih' more
          exact ⟨rfl, rfl, rfl⟩
  | finish stops =>
      cases h' with
      | finish _ => exact ⟨rfl, rfl, rfl⟩
      | «continue» goes _ _ _ => cases stops.symm.trans goes
  | «continue» goes _ _ _ ih ih' =>
      cases h' with
      | finish stops => cases stops.symm.trans goes
      | «continue» goes' part _ more =>
          obtain rfl := Option.some.inj (goes.symm.trans goes')
          obtain ⟨rfl, rfl, rfl⟩ := ih part
          obtain ⟨rfl, rfl, rfl⟩ := ih' more
          exact ⟨rfl, rfl, rfl⟩

end Executes

variable {v : Levels} {limit c : Nat} {x : Int → State → Draft}

/-- A loop is executed if its rounds are and each of them takes a token. -/
theorem executes_loop {test : Test} {round : Draft → Draft} {body : Phrase}
    (hround : ∀ d : Draft, ∃ k, Executes v limit Consumes (.phrase body) c d c (round d) k)
    (hless : ∀ d : Draft, test.holds d.state.input = true → Consumes d (round d)) (d : Draft) :
    ∃ k, Executes v limit Consumes (.loop test body) c d c (d.repeatWhile test round) k := by
  fun_induction repeatWhile test round d with
  | case1 d htest next _ ih =>
      obtain ⟨k, hk⟩ := hround d
      obtain ⟨k', hk'⟩ := ih
      exact ⟨_, .again htest hk (hless d htest) hk'⟩
  | case2 d htest next hnot => exact (hnot (hless d htest)).elim
  | case3 d htest => exact ⟨0, .last htest⟩

/-- A steady phrase is executed if the expressions in it are. -/
theorem Phrase.executes_run (hadvances : ∀ least s, State.Advances s (x least s).state)
    (hstarts : ∀ least s, s.input.current.startsExpression = true →
      (x least s).state.input.size < s.input.size)
    (hx : ∀ least s, ∃ k, Executes v limit Consumes (.expression least) c (blank s) c (x least s) k)
    (p : Phrase) (h : p.steady = true) (d : Draft) :
    ∃ k, Executes v limit Consumes (.phrase p) c d c (p.run v x d) k := by
  induction p generalizing d with
  | done => exact ⟨0, .done⟩
  | expect t next ih => exact (ih h _).imp fun _ ↦ .expect (skips _ d)
  | take field next ih => exact (ih h _).imp fun _ ↦ .take
  | word field slot next ih => exact (ih h _).imp fun _ ↦ .word
  | literal next ih => exact (ih h _).imp fun _ ↦ .literal
  | operand field bound next ih =>
      obtain ⟨k, hk⟩ := hx (v.bound bound) d.state
      obtain ⟨k', hk'⟩ := ih h (d.attach field (x (v.bound bound) d.state))
      exact ⟨_, .operand hk hk'⟩
  | node field kind body next ihbody ihnext =>
      simp only [steady, Bool.and_eq_true] at h
      obtain ⟨k, hk⟩ := ihbody h.1 (blank d.state)
      obtain ⟨k', hk'⟩ :=
        ihnext h.2 (d.attach field ((body.run v x (blank d.state)).enclose kind false))
      exact ⟨_, .node hk hk'⟩
  | choose test yes no next ihyes ihno ihnext =>
      simp only [steady, Bool.and_eq_true] at h
      obtain ⟨⟨hyes, hno⟩, hnext⟩ := h
      rw [run]
      split
      · obtain ⟨k, hk⟩ := ihyes hyes d
        obtain ⟨k', hk'⟩ := ihnext hnext (yes.run v x d)
        exact ⟨_, .yes ‹_› hk hk'⟩
      · obtain ⟨k, hk⟩ := ihno hno d
        obtain ⟨k', hk'⟩ := ihnext hnext (no.run v x d)
        exact ⟨_, .no ‹_› hk hk'⟩
  | loop test body next ihbody ihnext =>
      simp only [steady, Bool.and_eq_true] at h
      obtain ⟨⟨heats, hbody⟩, hnext⟩ := h
      obtain ⟨k, hk⟩ := executes_loop (ihbody hbody)
        (fun d htest ↦ size_round_lt hadvances hstarts heats htest) d
      obtain ⟨k', hk'⟩ := ihnext hnext (d.repeatWhile test (body.run v x))
      exact ⟨_, .loop hk hk'⟩
  | skip stop next ih => exact (ih h _).imp fun _ ↦ .skip (skips stop d)
  | absent next ih => exact (ih h _).imp fun _ ↦ .absent

namespace Draft

theorem executes_climb (hadvances : ∀ least s, State.Advances s (x least s).state)
    (hstarts : ∀ least s, s.input.current.startsExpression = true →
      (x least s).state.input.size < s.input.size)
    (hx : ∀ least s, ∃ k, Executes v limit Consumes (.expression least) c (blank s) c (x least s) k)
    (least : Int) (d : Draft) :
    ∃ k, Executes v limit Consumes (.climb least) c d c (climb v x least d) k := by
  fun_induction climb v x least d with
  | case1 d hstops => exact ⟨0, .finish hstops⟩
  | case2 d next hgoes inside whole hless ih =>
      obtain ⟨k, hk⟩ :=
        next.phrase.executes_run hadvances hstarts hx (Continuation.steady_of_of? hgoes) inside
      obtain ⟨k', hk'⟩ := ih
      exact ⟨_, .continue hgoes hk hless hk'⟩
  | case3 d next hgoes inside whole hnot =>
      exact (hnot (size_continued_lt hadvances hgoes)).elim

/-- Every expression is executed, and each round of a loop in it takes a token. -/
theorem executes_expression (v : Levels) {depth : Nat} (h : limit - c = depth) (least : Int)
    (s : State) : ∃ k, Executes v limit Consumes (.expression least) c (blank s) c
      (Draft.expression v depth least s) k := by
  induction depth generalizing c least s with
  | zero => exact ⟨0, .tooDeep (Nat.sub_eq_zero_iff_le.mp h) (overruns s)⟩
  | succ depth ih =>
      have hadvances : ∀ least s, State.Advances s (Draft.expression v depth least s).state :=
        advances_expression depth
      have hinner : ∀ least s, ∃ k, Executes v limit Consumes (.expression least) (c + 1) (blank s)
          (c + 1) (Draft.expression v depth least s) k := fun least s ↦ ih (by omega) least s
      have hstarts := size_expression_lt v depth
      obtain ⟨k, hk⟩ := Phrase.executes_run hadvances hstarts hinner _
        (Phrase.opens_opening s.input).steady (blank s)
      obtain ⟨k', hk'⟩ := executes_climb hadvances hstarts hinner least
        ((Phrase.opening s.input.current s.input.upcoming).run v (Draft.expression v depth)
          (blank s))
      exact ⟨_, .expression (by omega) hk hk'⟩

/-- A steady phrase is executed to what it drafts. -/
theorem executes_run (v : Levels) (limit c : Nat) {p : Phrase} (h : p.steady = true) (d : Draft) :
    ∃ k, Executes v limit Consumes (.phrase p) c d c
      (p.run v (Draft.expression v (limit - c)) d) k :=
  p.executes_run (advances_expression (limit - c)) (size_expression_lt v (limit - c))
    (executes_expression v rfl) h d

end Draft

/-- A builder goes along with every execution: if it has the nodes of a draft, it comes to have
those of the draft that the phrase is executed to. -/
theorem Executes.reaches {R : Draft → Draft → Prop} {p : Phrase} {c' k : Nat} {d e : Draft}
    (h : Executes v limit R (.phrase p) c d c' e k) (hsteady : p.steady = true) {w : Workspace}
    {rest : List Nat} {b : Builder} (hw : w.Shows rest b d) :
    w.Reaches rest (p.build v (Parsing.expression v (limit - c)) b w) e := by
  obtain ⟨n, hrun⟩ := executes_run v limit c hsteady d
  obtain ⟨-, rfl, -⟩ := hrun.unique h
  exact hw.build (Workspace.expresses_expression v (limit - c)) p

/-- Every file is executed, and each round of a loop in it takes a token. -/
theorem Tree.executes_fileDraft (v : Levels) (limit : Nat) (a : Arrangement) :
    ∃ k, Executes v limit Consumes (.phrase .file) 0 (.blank (initialState a.items)) 0
      (fileDraft v limit a) k :=
  executes_run v limit 0 Phrase.steady_file _

end CoolTree
