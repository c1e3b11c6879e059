import Statechart.Evaluation
import Statechart.Proofs.Construction
import Statechart.Proofs.Execution

/-!
# Sessions

A session takes a fresh instance, initialises it once and then gives it messages, on a machine that no one changes in
between. Each call has its own context, its own state outside and any supply of fuel. Which contexts and which ends of
a call are admitted is left open. The events of all calls are kept, the latest first.
-/

namespace Statechart

variable {μ δ σ : Type}

def EndsAs {α : Type} (result : EStateM.Result Halt (Run μ δ σ) α) (halt : Option Halt) (run : Run μ δ σ) : Prop :=
  match result with
  | .ok _ run' => halt = none ∧ run' = run
  | .error halt' run' => halt = some halt' ∧ run' = run

def ran {α : Type} (result : EStateM.Result Halt (Run μ δ σ) α) : Run μ δ σ :=
  match result with
  | .ok _ run | .error _ run => run

theorem EndsAs.eq_ran {α : Type} {result : EStateM.Result Halt (Run μ δ σ) α} {halt : Option Halt} {run : Run μ δ σ}
    (hr : EndsAs result halt run) : run = ran result := by
  cases result <;> exact hr.2.symm

def answer? {α : Type} (result : EStateM.Result Halt (Run μ δ σ) α) : Option α :=
  match result with
  | .ok a _ => some a
  | .error _ _ => none

theorem eq_ok_of_answer? {α : Type} {result : EStateM.Result Halt (Run μ δ σ) α} {a : α}
    (ha : answer? result = some a) : result = .ok a (ran result) := by
  cases result <;> cases ha
  rfl

theorem Triple.ran {α : Type} {P Q : Run μ δ σ → Prop} {x : Eval μ δ σ α} (hx : Triple P x (fun _ => Q) fun _ => Q)
    (start : Run μ δ σ) (hstart : P start) : Q (ran (x start)) := by
  cases hres : x start with
  | ok a run => exact hx.of_ok hstart hres
  | error e run => exact hx.of_error hstart hres

/-- Under a sink that lets no error pass, the call ends well. -/
def EndsWell (c : Context σ) (halt : Option Halt) : Prop := c.IsStrict ∧ halt = none

/-- What an instance and the events of its calls can come to be. An initialisation that finds no program and may not
make one has not taken place. -/
inductive Machine.Session (admits : Context σ → Option Halt → Prop) (m : Machine μ δ) :
    Machine μ δ → Instance δ → List (Event μ δ) → Prop
  | initialise (c : Context σ) (fuel : Nat) (data : δ) (s : σ) {halt : Option Halt} {run : Run μ δ σ}
      (hp : (m.prepare? c).isSome) (hr : EndsAs (m.initialise c fuel { data } s).2 halt run) (ha : admits c halt) :
      Session admits m (m.initialise c fuel { data } s).1 run.inst run.events
  | evaluate (c : Context σ) (fuel : Nat) (message : μ) (s : σ) {m' : Machine μ δ} {i : Instance δ}
      {events : List (Event μ δ)} {halt : Option Halt} {run : Run μ δ σ} (hs : Session admits m m' i events)
      (hr : EndsAs (m'.evaluate c fuel message i s).2 halt run) (ha : admits c halt) :
      Session admits m (m'.evaluate c fuel message i s).1 run.inst (run.events ++ events)

/-- The same on a model and the program it compiles to. Calls that do nothing are left out. -/
inductive Model.Session (admits : Context σ → Option Halt → Prop) (m : Model μ δ) :
    Instance δ → List (Event μ δ) → Prop
  | initialise (c : Context σ) (fuel : Nat) (data : δ) (s : σ) {halt : Option Halt} {run : Run μ δ σ}
      (hr : EndsAs (Eval.perform m m.compile c fuel { trigger := .initialise } m.compile.onInitialise
        { inst := { data }, outside := s }) halt run) (ha : admits c halt) : Session admits m run.inst run.events
  | evaluate (c : Context σ) (fuel : Nat) (message : μ) (s : σ) {i : Instance δ} {events : List (Event μ δ)}
      {halt : Option Halt} {run : Run μ δ σ} (hs : Session admits m i events) (hn : i.terminated = false)
      (hr : EndsAs (Eval.offer m m.compile c fuel (.message message) root { inst := i, outside := s }) halt run)
      (ha : admits c halt) : Session admits m run.inst (run.events ++ events)

namespace Machine

def told (m : Machine μ δ) (c : Context σ) (fuel : Nat) (message : μ) (i : Instance δ) (s : σ) : List (Event μ δ) :=
  (ran (m.evaluate c fuel message i s).2).events

variable {m : Machine μ δ} {c : Context σ} {admits : Context σ → Option Halt → Prop}

theorem initialise_eq (hm : m.Sound) {m' : Machine μ δ} (hp : m.prepare? c = some m') (fuel : Nat) (i : Instance δ)
    (s : σ) : m'.toModel = m.toModel ∧ m'.Sound ∧ m.initialise c fuel i s = (m',
      Eval.perform m.toModel m.toModel.compile c fuel { trigger := .initialise } m.toModel.compile.onInitialise
        { inst := i, outside := s }) := by
  unfold initialise
  rw [hp]
  unfold prepare? at hp
  split at hp
  · rename_i hclean
    cases hp
    obtain ⟨p, hprogram⟩ := Option.isSome_iff_exists.mp hclean
    refine ⟨rfl, hm, ?_⟩
    simp only [initialiseCompiled, hprogram, hm.program p hprogram]
  · split at hp
    · cases hp; exact ⟨rfl, hm.compile, rfl⟩
    · cases hp

theorem evaluateCompiled_eq (hm : m.Sound) (hclean : m.isClean = true) (c : Context σ) (fuel : Nat) (message : μ)
    {i : Instance δ} (hn : i.terminated = false) (s : σ) :
    m.evaluateCompiled c fuel message { inst := i, outside := s } =
      Eval.offer m.toModel m.toModel.compile c fuel (.message message) root { inst := i, outside := s } := by
  obtain ⟨p, hprogram⟩ := Option.isSome_iff_exists.mp hclean
  change (if i.terminated = true then pure false else _ : Eval μ δ σ Bool) _ = _
  rw [hn, if_neg (by simp), hprogram, hm.program p hprogram]

theorem evaluate_eq (hm : m.Sound) {m' : Machine μ δ} (hp : m.prepare? c = some m') (fuel : Nat) (message : μ)
    {i : Instance δ} (hn : i.terminated = false) (s : σ) :
    m'.toModel = m.toModel ∧ m'.Sound ∧ m.evaluate c fuel message i s = (m',
      Eval.offer m.toModel m.toModel.compile c fuel (.message message) root { inst := i, outside := s }) := by
  unfold evaluate
  simp only [hn, Bool.false_eq_true, ite_false, hp]
  unfold prepare? at hp
  split at hp
  · rename_i hclean
    cases hp
    exact ⟨rfl, hm, by rw [evaluateCompiled_eq hm hclean c fuel message hn s]⟩
  · split at hp
    · cases hp
      exact ⟨rfl, hm.compile, by rw [evaluateCompiled_eq hm.compile (isClean_compile m) c fuel message hn s]; rfl⟩
    · cases hp

theorem ran_evaluate (hm : m.Sound) (c : Context σ) (fuel : Nat) (message : μ) (i : Instance δ) (s : σ) :
    ran (m.evaluate c fuel message i s).2 = { inst := i, outside := s } ∨ i.terminated = false ∧
      ran (m.evaluate c fuel message i s).2 = ran (Eval.offer m.toModel m.toModel.compile c fuel (.message message) root
        { inst := i, outside := s }) := by
  cases hn : i.terminated with
  | true => exact Or.inl (by simp [evaluate, hn, ran])
  | false =>
    cases hp : m.prepare? c with
    | none => exact Or.inl (by simp [evaluate, hn, hp, ran])
    | some m' => exact Or.inr ⟨rfl, by rw [(evaluate_eq hm hp fuel message hn s).2.2]⟩

theorem Session.model (hm : m.Sound) {m' : Machine μ δ} {i : Instance δ} {events : List (Event μ δ)}
    (h : Session admits m m' i events) :
    m'.toModel = m.toModel ∧ m'.Sound ∧ m.toModel.Session admits i events := by
  induction h with
  | initialise c fuel data s hp hr ha =>
    obtain ⟨m', hp⟩ := Option.isSome_iff_exists.mp hp
    obtain ⟨hmodel, hsound, heq⟩ := initialise_eq hm hp fuel { data } s
    rw [heq] at hr ⊢
    exact ⟨hmodel, hsound, .initialise c fuel data s hr ha⟩
  | @evaluate c fuel message s m₁ i events halt run hs hr ha ih =>
    obtain ⟨hmodel, hsound, hsession⟩ := ih
    -- A message leaves all as it is if the instance has terminated, or if there is no program and none may be made.
    cases hn : i.terminated with
    | true =>
      have heq : m₁.evaluate c fuel message i s = (m₁, .ok false { inst := i, outside := s }) := by
        simp [Machine.evaluate, hn]
      rw [heq] at hr ⊢
      obtain ⟨_, rfl⟩ := hr
      exact ⟨hmodel, hsound, hsession⟩
    | false =>
      cases hp : m₁.prepare? c with
      | none =>
        have heq : m₁.evaluate c fuel message i s =
            (m₁, .error (.refused .notCompiled) { inst := i, outside := s }) := by
          simp [Machine.evaluate, hn, hp]
        rw [heq] at hr ⊢
        obtain ⟨_, rfl⟩ := hr
        exact ⟨hmodel, hsound, hsession⟩
      | some m₂ =>
        obtain ⟨hmodel', hsound', heq⟩ := evaluate_eq hsound hp fuel message hn s
        rw [heq, hmodel] at hr
        rw [heq]
        exact ⟨hmodel'.trans hmodel, hsound', .evaluate c fuel message s hsession hn hr ha⟩

theorem Session.mono {admits' : Context σ → Option Halt → Prop} (ha : ∀ c halt, admits c halt → admits' c halt)
    {m' : Machine μ δ} {i : Instance δ} {events : List (Event μ δ)} (h : Session admits m m' i events) :
    Session admits' m m' i events := by
  induction h with
  | initialise c fuel data s hp hr hadmits => exact .initialise c fuel data s hp hr (ha c _ hadmits)
  | evaluate c fuel message s _ hr hadmits ih => exact .evaluate c fuel message s ih hr (ha c _ hadmits)

/-! ## Playing a session -/

abbrev Play (μ δ : Type) := Machine μ δ × Instance δ × List (Event μ δ)

def given (fuel : Nat) (play : Play μ δ) (message : μ) : Option (Play μ δ) :=
  match play.1.evaluate Context.strict fuel message play.2.1 () with
  | (m', .ok _ run) => some (m', run.inst, run.events ++ play.2.2)
  | (_, .error _ _) => none

def played (m : Machine μ δ) (fuel : Nat) (data : δ) (messages : List μ) : Option (Play μ δ) :=
  match m.initialise Context.strict fuel { data } () with
  | (m', .ok _ run) => messages.foldlM (given fuel) (m', run.inst, run.events)
  | (_, .error _ _) => none

/-- A play is that of a session in which all calls end well. -/
abbrev Plays (m : Machine μ δ) (play : Play μ δ) : Prop :=
  Session (EndsWell : Context Unit → Option Halt → Prop) m play.1 play.2.1 play.2.2

theorem endsWell_strict : EndsWell Context.strict none := ⟨fun _ _ => rfl, rfl⟩

theorem Plays.given {fuel : Nat} {play play' : Play μ δ} {message : μ} (hs : m.Plays play)
    (hp : Machine.given fuel play message = some play') : m.Plays play' := by
  have hnext := fun run (hr : EndsAs _ none run) => hs.evaluate Context.strict fuel message () hr endsWell_strict
  unfold Machine.given at hp
  cases hres : play.1.evaluate Context.strict fuel message play.2.1 () with
  | mk m' result =>
    rw [hres] at hp hnext
    cases result with
    | error e run => cases hp
    | ok a run => cases hp; exact hnext run ⟨rfl, rfl⟩

theorem Plays.foldlM {fuel : Nat} {play play' : Play μ δ} {messages : List μ} (hs : m.Plays play)
    (hp : messages.foldlM (Machine.given fuel) play = some play') : m.Plays play' := by
  induction messages generalizing play with
  | nil => cases hp; exact hs
  | cons message rest ih =>
    obtain ⟨next, hnext, hrest⟩ := Option.bind_eq_some_iff.mp hp
    exact ih (hs.given hnext) hrest

theorem plays_of_played (m : Machine μ δ) (fuel : Nat) (data : δ) (messages : List μ)
    (hp : (m.played fuel data messages).isSome) : m.Plays ((m.played fuel data messages).get hp) := by
  obtain ⟨play, hplay⟩ := Option.isSome_iff_exists.mp hp
  simp only [hplay, Option.get_some]
  have hprepare : (m.prepare? Context.strict).isSome := by unfold prepare?; split <;> rfl
  have hstart := fun run (hr : EndsAs _ none run) =>
    Session.initialise (m := m) Context.strict fuel data () hprepare hr endsWell_strict
  unfold played at hplay
  cases hres : m.initialise Context.strict fuel { data } () with
  | mk m' result =>
    rw [hres] at hplay hstart
    cases result with
    | error e run => cases hplay
    | ok a run => exact Plays.foldlM (hstart run ⟨rfl, rfl⟩) hplay

end Machine

end Statechart
