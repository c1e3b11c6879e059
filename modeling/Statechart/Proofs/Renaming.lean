import Statechart.Proofs.Freshness
import Statechart.Proofs.Splicing
import Statechart.Proofs.Tandem
import Statechart.Recorder

/-!
# Renaming

What vertices are called does not tell in what a machine does. After any renaming, calls come to the same but for the
texts that are logged and the names in the errors. A machine that has been renamed has to be compiled again, though, and
where a context leaves that to the caller, its calls are refused until it is.
-/

namespace Statechart

variable {μ δ σ τ : Type}

/-! ## Contexts that take no notice of names -/

/-- What one context keeps about texts and errors relates to what the other keeps about others that differ in names,
and both answer alike. -/
structure Context.Matches (R : σ → τ → Prop) (c : Context σ) (c' : Context τ) : Prop where
  autoCompile : c.autoCompile = c'.autoCompile
  log : ∀ {s s'} text text', R s s' → R (c.log text s) (c'.log text' s')
  tolerate : ∀ {s s'} {e e' : MachineError}, e.anonymous = e'.anonymous → R s s' →
    (c.tolerate e s).1 = (c'.tolerate e' s').1 ∧ R (c.tolerate e s).2 (c'.tolerate e' s').2
  random : ∀ {s s'} count, R s s' →
    (c.random count s).1 = (c'.random count s').1 ∧ R (c.random count s).2 (c'.random count s').2

inductive Call.Matches (R : σ → τ → Prop) : Call μ σ → Call μ τ → Prop
  | initialise {c : Context σ} {c' : Context τ} : c.Matches R c' → Matches R (.initialise c) (.initialise c')
  | evaluate {c : Context σ} {c' : Context τ} (message : μ) : c.Matches R c' →
      Matches R (.evaluate c message) (.evaluate c' message)

structure Recorder.Alike (r r' : Recorder) : Prop where
  traces : r.traces.length = r'.traces.length
  errors : r.errors.map (·.anonymous) = r'.errors.map (·.anonymous)
  draws : r.draws = r'.draws
  taken : r.taken = r'.taken

theorem Recorder.matches_context {passes : MachineError → Bool}
    (hpasses : ∀ e e' : MachineError, e.anonymous = e'.anonymous → passes e = passes e') (source : Recorder.Source)
    (autoCompile : Bool) :
    (context (.recording passes) source autoCompile).Matches Recorder.Alike
      (context (.recording passes) source autoCompile) where
  autoCompile := rfl
  log text text' hr := ⟨by simp [context, Sink.log, hr.traces], hr.errors, hr.draws, hr.taken⟩
  tolerate he hr :=
    ⟨hpasses _ _ he, hr.traces, by simp [context, Sink.tolerate, he, hr.errors], hr.draws, hr.taken⟩
  random count hr := by
    cases source with
    | silent => exact ⟨rfl, hr⟩
    | cycling values =>
      refine ⟨?_, hr.traces, hr.errors, ?_, ?_⟩
      · simp [context, Source.random, hr.taken]
      · simp [context, Source.random, hr.draws]
      · simp [context, Source.random, hr.taken]

/-! ## Runs that differ in names -/

structure Run.Alike (R : σ → τ → Prop) (run : Run μ δ σ) (run' : Run μ δ τ) : Prop where
  inst : run.inst = run'.inst
  arrived : run.arrived = run'.arrived
  events : run.events.map Event.anonymous = run'.events.map Event.anonymous
  outside : R run.outside run'.outside

theorem Model.anonymous_modifyVertex {m : Model μ δ} (v : VertexId) (name : String) :
    (m.modifyVertex v fun record => { record with name }).anonymous = m.anonymous := by
  have hvertices : (m.vertices.modify v.index fun record => { record with name }).map Vertex.anonymous =
      m.vertices.map Vertex.anonymous := by
    apply Array.ext
    · simp
    · intro j _ _
      simp only [Array.getElem_map, Array.getElem_modify]
      split <;> rfl
  simp only [anonymous, modifyVertex, hvertices]

theorem Alongside.ran {α : Type} {J : Run μ δ σ → Run μ δ τ → Prop}
    {result : EStateM.Result Halt (Run μ δ σ) α} {result' : EStateM.Result Halt (Run μ δ τ) α}
    (h : Alongside (fun _ => J) J result result') : J (ran result) (ran result') := by
  cases h with
  | ok hJ => exact hJ
  | error _ hJ => exact hJ

namespace Eval

variable {m m' : Model μ δ} {R : σ → τ → Prop} {c : Context σ} {c' : Context τ}

theorem precinct_any : m.Precinct fun _ => True := ⟨fun _ _ _ => trivial, by simp, by simp, by simp⟩

theorem bond_alike (hc : c.Matches R c') : Bond m m' c c' (fun _ => True) (fun _ => True) (Run.Alike R) where
  enter element := Tandem.modify fun run run' hr =>
    ⟨hr.inst, hr.arrived, by simp [Event.anonymous, hr.events], hc.log _ _ hr.outside⟩
  leave element := Tandem.modify fun run run' hr =>
    ⟨hr.inst, hr.arrived, by simp [Event.anonymous, hr.events], hc.log _ _ hr.outside⟩
  act trigger cause action _ := Tandem.modify fun run run' hr =>
    ⟨by simp [hr.inst], hr.arrived, by simp [Event.anonymous, hr.events], hr.outside⟩
  record r v _ _ _ := Tandem.modify fun run run' hr => ⟨by simp [hr.inst], hr.arrived, hr.events, hr.outside⟩
  terminate _ := Tandem.modify fun run run' hr => ⟨by simp [hr.inst], hr.arrived, hr.events, hr.outside⟩
  arrived run run' l _ hr := ⟨hr.inst, rfl, hr.events, hr.outside⟩
  offered v trigger := Tandem.modify fun run run' hr =>
    ⟨hr.inst, hr.arrived, by simp [Event.anonymous, hr.events], hr.outside⟩
  fired run run' t record trigger _ _ hr :=
    ⟨hr.inst, hr.arrived, by simp [Event.anonymous, hr.events, hr.inst], hr.outside⟩
  report e e' he := inStep_report he fun run run' hr =>
    have hboth := hc.tolerate he hr.outside
    ⟨hboth.1, hr.inst, hr.arrived, by simp [Event.anonymous, hr.events, he], hboth.2⟩
  draw _ count := inStep_draw fun run run' hr =>
    have hboth := hc.random count hr.outside
    ⟨hboth.1, hr.inst, hr.arrived, by simp [Event.anonymous, hr.events, hboth.1], hboth.2⟩
  sameTerminated run run' hr := by rw [hr.inst]
  sameArrived run run' hr := ⟨hr.arrived, by simp⟩
  sameCurrent run run' r _ hr := ⟨by rw [hr.inst], by simp⟩
  sameActive run run' v _ hr := by rw [hr.inst]
  sameCheck run run' t record trigger _ _ hr := by rw [hr.inst]

theorem abides_alike (hm : m.anonymous = m'.anonymous) (h : m.Arena) (hc : c.Matches R c') (k : Nat) :
    Abides m m' m.isEnteredPlainly c c' (fun _ => True) (fun _ => True) (Run.Alike R) k :=
  abides hm h (Model.acts_any m) precinct_any (bond_alike hc) k

end Eval

/-! ## Machines that differ in names -/

def Edit.succeeds (e : Edit μ δ) (m : Machine μ δ) : Bool :=
  match e.perform m with
  | .ok _ _ => true
  | .error _ _ => false

namespace Machine

def Outcome.answering {α β : Type} (f : α → β) : Outcome μ δ σ α → Outcome μ δ σ β
  | (m, .ok a run) => (m, .ok (f a) run)
  | (m, .error e run) => (m, .error e run)

@[simp] theorem fst_answering {α β : Type} (f : α → β) (outcome : Outcome μ δ σ α) :
    (outcome.answering f).1 = outcome.1 := by
  rcases outcome with ⟨m, _ | _⟩ <;> rfl

end Machine

theorem Alongside.answering {α β : Type} {J : Run μ δ σ → Run μ δ τ → Prop} (f : α → β)
    {outcome : Machine.Outcome μ δ σ α} {outcome' : Machine.Outcome μ δ τ α}
    (h : Alongside (fun _ => J) J outcome.2 outcome'.2) :
    Alongside (fun _ => J) J (outcome.answering f).2 (outcome'.answering f).2 := by
  obtain ⟨m, result⟩ := outcome
  obtain ⟨m', result'⟩ := outcome'
  cases h with
  | ok hJ => exact .ok hJ
  | error he hJ => exact .error he hJ

def Call.make (m : Machine μ δ) (fuel : Nat) (i : Instance δ) (s : σ) : Call μ σ → Machine.Outcome μ δ σ (Option Bool)
  | .initialise c => (m.initialise c fuel i s).answering fun _ => none
  | .evaluate c message => (m.evaluate c fuel message i s).answering some

namespace Machine

/-- What calls that are made one after the other come to. Those that stop short are followed by the others, too. -/
def answers (fuel : Nat) : Machine μ δ → Instance δ → σ → List (Call μ σ) →
    List (EStateM.Result Halt (Run μ δ σ) (Option Bool))
  | _, _, _, [] => []
  | m, i, s, call :: calls =>
    let outcome := call.make m fuel i s
    outcome.2 :: answers fuel outcome.1 (ran outcome.2).inst (ran outcome.2).outside calls

inductive Renames (m : Machine μ δ) : Machine μ δ → Prop
  | refl : Renames m m
  | rename (v : VertexId) (name : String) {m' : Machine μ δ} : Renames m m' →
      (Edit.rename v name).succeeds m' = true → Renames m ((Edit.rename v name).apply m')

theorem anonymous_rename {m : Machine μ δ} {v : VertexId} {name : String}
    (hs : (Edit.rename v name).succeeds m = true) :
    ((Edit.rename v name).apply m).toModel.anonymous = m.toModel.anonymous ∧
      ((Edit.rename v name).apply m).program = none := by
  have hchange : Triple (fun start => start = m)
      (Build.change fun model => model.modifyVertex v fun record => { record with name })
      (fun _ last => last.toModel.anonymous = m.toModel.anonymous ∧ last.program = none) fun _ _ => True := by
    refine Triple.modify fun _ heq => ⟨?_, rfl⟩
    rw [heq]
    exact Model.anonymous_modifyVertex v name
  -- An operation that has succeeded has passed all its checks and come to the change.
  have hrename : Triple (fun start => start = m) (Build.rename v name)
      (fun _ last => last.toModel.anonymous = m.toModel.anonymous ∧ last.program = none) fun _ _ => True := by
    refine Triple.bind (R := fun _ start => start = m) ?_ fun record => ?_
    · exact (Build.vertex_spec (· = m) v).conseq (fun _ h => h) (fun _ _ h => h.1) fun _ _ _ => trivial
    refine Triple.bind (Triple.get (Q := fun _ start => start = m) fun _ heq => heq) fun _ => ?_
    cases record.parent with
    | none => exact hchange
    | some region =>
      simp only
      split
      · exact Triple.throw_bind fun _ _ => trivial
      · exact hchange
  unfold Edit.succeeds at hs
  unfold Edit.apply
  cases hres : Edit.perform (.rename v name) m with
  | ok _ last => exact hrename.of_ok rfl hres
  | error _ last =>
    rw [hres] at hs
    cases hs

/-! ## Calls of machines that differ in names -/

/-- Both machines are sound, they differ in names only, and where `ready` does not hold both are clean or neither is. -/
structure Namesakes (m m' : Machine μ δ) (ready : Prop) : Prop where
  sound : m.Sound
  sound' : m'.Sound
  anonymous : m.toModel.anonymous = m'.toModel.anonymous
  clean : m.isClean = m'.isClean ∨ ready

namespace Namesakes

variable {m m' : Machine μ δ} {ready : Prop} {R : σ → τ → Prop}

theorem compile (h : Namesakes m m' ready) : Namesakes m.compile m'.compile ready :=
  ⟨h.sound.compile, h.sound'.compile, h.anonymous, Or.inl rfl⟩

theorem prepared_eq (h : Namesakes m m' ready) {c : Context σ} {c' : Context τ} (hc : c.Matches R c')
    (hr : ready → c.autoCompile = true) : (m.isClean || c.autoCompile) = (m'.isClean || c'.autoCompile) := by
  rw [← hc.autoCompile]
  rcases h.clean with hclean | hready
  · rw [hclean]
  · simp [hr hready]

theorem compile_eq (h : Namesakes m m' ready) : m'.toModel.compile = m.toModel.compile := by
  rw [← Model.compile_anonymous (m := m'.toModel), ← h.anonymous, Model.compile_anonymous]

theorem inStep_initialiseCompiled (h : Namesakes m m' ready) {c : Context σ} {c' : Context τ} (hc : c.Matches R c')
    (fuel : Nat) :
    InStep (Run.Alike R) (m.compile.initialiseCompiled c fuel) (m'.compile.initialiseCompiled c' fuel) := by
  change InStep _ (Eval.perform m.toModel m.toModel.compile c fuel _ m.toModel.compile.onInitialise)
    (Eval.perform m'.toModel m'.toModel.compile c' fuel _ m'.toModel.compile.onInitialise)
  rw [h.compile_eq]
  have hsteps : ∀ s ∈ m.toModel.compile.onInitialise, m.Inner (fun _ => True) (fun _ => True) s := fun s hs =>
    (Model.arriving_onInitialise h.sound.arena s hs).inner h.sound.arena (Model.acts_any _)
  exact Eval.Abides.perform (fun k _ => Eval.abides_alike h.anonymous h.sound.arena hc k) _ hsteps (Nat.le_refl fuel)

theorem inStep_evaluateCompiled (h : Namesakes m m' ready) {c : Context σ} {c' : Context τ} (hc : c.Matches R c')
    (fuel : Nat) (message : μ) :
    InStep (Run.Alike R) (m.compile.evaluateCompiled c fuel message) (m'.compile.evaluateCompiled c' fuel message) := by
  refine Tandem.inst_bind fun run run' hr => ?_
  rw [← hr.inst]
  cases run.inst.terminated with
  | true => exact (Tandem.pure fun _ _ hr => hr).start hr
  | false =>
    change Tandem _ (Eval.offer m.toModel m.toModel.compile c fuel (.message message) root)
      (Eval.offer m'.toModel m'.toModel.compile c' fuel (.message message) root) _ _
    rw [h.compile_eq]
    exact ((Eval.abides_alike h.anonymous h.sound.arena hc fuel).offer _ root trivial).start hr

theorem alongside_make (h : Namesakes m m' ready) {call : Call μ σ} {call' : Call μ τ} (hc : call.Matches R call')
    (hr : ready → call.context.autoCompile = true) (fuel : Nat) (i : Instance δ) {s : σ} {s' : τ} (hs : R s s') :
    Alongside (fun _ => Run.Alike R) (Run.Alike R) (call.make m fuel i s).2 (call'.make m' fuel i s').2 ∧
      Namesakes (call.make m fuel i s).1 (call'.make m' fuel i s').1 ready := by
  have hstart : Run.Alike R ({ inst := i, outside := s } : Run μ δ σ) ({ inst := i, outside := s' } : Run μ δ τ) :=
    ⟨rfl, rfl, rfl, hs⟩
  cases hc with
  | @initialise c c' hc =>
    simp only [Call.make, h.sound.initialise_fresh, h.sound'.initialise_fresh, ← h.prepared_eq hc hr]
    split
    · exact ⟨((h.inStep_initialiseCompiled hc fuel) _ _ hstart).answering _, by simpa using h.compile⟩
    · exact ⟨.error rfl hstart, h⟩
  | @evaluate c c' message hc =>
    simp only [Call.make, h.sound.evaluate_fresh, h.sound'.evaluate_fresh, ← h.prepared_eq hc hr]
    split
    · exact ⟨.ok hstart, h⟩
    · split
      · exact ⟨((h.inStep_evaluateCompiled hc fuel message) _ _ hstart).answering _, by simpa using h.compile⟩
      · exact ⟨.error rfl hstart, h⟩

theorem alongside_answers (h : Namesakes m m' ready) {calls : List (Call μ σ)} {calls' : List (Call μ τ)}
    (hc : List.Forall₂ (Call.Matches R) calls calls') (hr : ready → ∀ call ∈ calls, call.context.autoCompile = true)
    (fuel : Nat) (i : Instance δ) {s : σ} {s' : τ} (hs : R s s') :
    List.Forall₂ (Alongside (fun _ => Run.Alike R) (Run.Alike R)) (m.answers fuel i s calls)
      (m'.answers fuel i s' calls') := by
  induction hc generalizing m m' i s s' with
  | nil => exact .nil
  | @cons call call' calls calls' hcall _ ih =>
    obtain ⟨hresult, hnext⟩ :=
      h.alongside_make hcall (fun hready => hr hready call List.mem_cons_self) fuel i hs
    have hran := hresult.ran
    refine .cons hresult ?_
    rw [← hran.inst]
    exact ih hnext (fun hready call hmem => hr hready call (List.mem_cons_of_mem _ hmem)) _ hran.outside

end Namesakes

theorem Renames.namesakes {m m' : Machine μ δ} (hm : m.Used) (hr : m.Renames m') :
    m'.Used ∧ m'.toModel.anonymous = m.toModel.anonymous ∧ (m.isClean = false → m'.isClean = false) := by
  induction hr with
  | refl => exact ⟨hm, rfl, id⟩
  | @rename v name m' _ hs ih =>
    obtain ⟨hused, hnames, _⟩ := ih
    obtain ⟨hanonymous, hprogram⟩ := anonymous_rename hs
    exact ⟨hused.edit (.rename v name), hanonymous.trans hnames, fun _ => by simp [isClean, hprogram]⟩

/-- After renamings, any calls come to the same but for the texts logged and the names told, provided that the renamed
machine need not be compiled first, or that contexts see to it. -/
theorem Used.answers_of_renames {m m' : Machine μ δ} (hm : m.Used) (hr : m.Renames m') {R : σ → τ → Prop}
    {calls : List (Call μ σ)} {calls' : List (Call μ τ)} (hc : List.Forall₂ (Call.Matches R) calls calls')
    (fuel : Nat) (i : Instance δ) {s : σ} {s' : τ} (hs : R s s') :
    (m.isClean = false ∨ (∀ call ∈ calls, call.context.autoCompile = true) →
      List.Forall₂ (Alongside (fun _ => Run.Alike R) (Run.Alike R)) (m.answers fuel i s calls)
        (m'.answers fuel i s' calls')) ∧
    List.Forall₂ (Alongside (fun _ => Run.Alike R) (Run.Alike R)) (m.compile.answers fuel i s calls)
      (m'.compile.answers fuel i s' calls') := by
  obtain ⟨hused, hnames, hunclean⟩ := hr.namesakes hm
  refine ⟨fun hready => ?_, ?_⟩
  · have h : Namesakes m m' (∀ call ∈ calls, call.context.autoCompile = true) :=
      ⟨hm.sound, hused.sound, hnames.symm, hready.imp (fun hclean => by rw [hclean, hunclean hclean]) id⟩
    exact h.alongside_answers hc id fuel i hs
  · have h : Namesakes m.compile m'.compile False :=
      ⟨hm.sound.compile, hused.sound.compile, hnames.symm, Or.inl rfl⟩
    exact h.alongside_answers hc False.elim fuel i hs

def lamp : Machine String Unit := (ofName "lamp").edited
  [.addState (.state root) "off", .addPseudoState (.region ⟨0⟩) "start" .initial, .addTransition (.between ⟨2⟩ ⟨1⟩),
    .addPseudoState (.region ⟨0⟩) "how" .choice, .addState (.region ⟨0⟩) "low", .addState (.region ⟨0⟩) "high",
    .addTransition ((Draft.between ⟨1⟩ ⟨3⟩).on "press"), .addTransition (.between ⟨3⟩ ⟨4⟩),
    .addTransition (.between ⟨3⟩ ⟨5⟩)]

def renamedLamp : Machine String Unit := (Edit.rename ⟨5⟩ "bright").apply ((Edit.rename ⟨1⟩ "dark").apply lamp.compile)

theorem renames_renamedLamp : lamp.compile.Renames renamedLamp :=
  .rename ⟨5⟩ "bright" (.rename ⟨1⟩ "dark" .refl (by decide +kernel)) (by decide +kernel)

/-- A sink that lets errors of no branch pass, and a source that picks the second branch. -/
def attentive (autoCompile : Bool) : Context Recorder :=
  Recorder.context (.recording fun e => e matches .noBranch _) (.cycling [1]) autoCompile

theorem matches_attentive (autoCompile : Bool) :
    (attentive autoCompile).Matches Recorder.Alike (attentive autoCompile) := by
  refine Recorder.matches_context (fun e e' he => ?_) _ _
  cases e <;> cases e' <;> first | rfl | cases he

def lastTrace? (results : List (EStateM.Result Halt (Run String Unit Recorder) (Option Bool))) : Option String :=
  results.getLast?.bind fun result => (ran result).outside.traces.head?

def lighting (autoCompile : Bool) : List (Call String Recorder) :=
  [.initialise (attentive autoCompile), .evaluate (attentive autoCompile) "press"]

theorem matches_lighting (autoCompile : Bool) :
    List.Forall₂ (Call.Matches Recorder.Alike) (lighting autoCompile) (lighting autoCompile) :=
  .cons (.initialise (matches_attentive autoCompile))
    (.cons (.evaluate "press" (matches_attentive autoCompile)) .nil)

theorem answers_of_renames_lamp :
    (renamedLamp.answers 60 { data := () } {} (lighting true)).map answer? = [some none, some (some true)] ∧
      lastTrace? (lamp.compile.answers 60 { data := () } {} (lighting true)) = some "lamp.default.high enter" ∧
      lastTrace? (renamedLamp.answers 60 { data := () } {} (lighting true)) = some "lamp.default.bright enter" ∧
      List.Forall₂ (Alongside (fun _ => Run.Alike Recorder.Alike) (Run.Alike Recorder.Alike))
        (lamp.compile.answers 60 { data := () } {} (lighting true))
        (renamedLamp.answers 60 { data := () } {} (lighting true)) ∧
      List.Forall₂ (Alongside (fun _ => Run.Alike Recorder.Alike) (Run.Alike Recorder.Alike))
        (lamp.compile.compile.answers 60 { data := () } {} (lighting true))
        (renamedLamp.compile.answers 60 { data := () } {} (lighting true)) := by
  have hused : lamp.compile.Used := ((Used.ofName "lamp").edited _ : lamp.Used).compile
  have hready : ∀ call ∈ lighting true, call.context.autoCompile = true := by
    simp [lighting, Call.context, attentive, Recorder.context]
  have hstart : Recorder.Alike {} {} := ⟨rfl, rfl, rfl, rfl⟩
  obtain ⟨hanswers, hcompiled⟩ :=
    hused.answers_of_renames renames_renamedLamp (matches_lighting true) 60 { data := () } hstart
  exact ⟨by decide +kernel, by decide +kernel, by decide +kernel, hanswers (Or.inr hready), hcompiled⟩

theorem map_answer?_of_forall₂ {α : Type} {J : Run μ δ σ → Run μ δ τ → Prop}
    {results : List (EStateM.Result Halt (Run μ δ σ) α)} {results' : List (EStateM.Result Halt (Run μ δ τ) α)}
    (h : List.Forall₂ (Alongside (fun _ => J) J) results results') : results.map answer? = results'.map answer? := by
  induction h with
  | nil => rfl
  | cons hresult _ ih => cases hresult <;> simp [answer?, ih]

theorem names_tell_lamp :
    ¬ ∀ (m m' : Machine String Unit) (calls calls' : List (Call String Recorder)) (fuel : Nat) (i : Instance Unit)
        (s s' : Recorder), m.Used → m.Renames m' → List.Forall₂ (Call.Matches Recorder.Alike) calls calls' →
      Recorder.Alike s s' →
      List.Forall₂ (Alongside (fun _ => Run.Alike Recorder.Alike) (Run.Alike Recorder.Alike))
        (m.answers fuel i s calls) (m'.answers fuel i s' calls') := by
  intro hall
  have hused : lamp.compile.Used := ((Used.ofName "lamp").edited _ : lamp.Used).compile
  have hrenames : lamp.compile.Renames ((Edit.rename ⟨1⟩ "dark").apply lamp.compile) :=
    .rename ⟨1⟩ "dark" .refl (by decide +kernel)
  have hsame := hall lamp.compile ((Edit.rename ⟨1⟩ "dark").apply lamp.compile) (lighting false) (lighting false) 60
    { data := () } {} {} hused hrenames (matches_lighting false) ⟨rfl, rfl, rfl, rfl⟩
  have hanswers := map_answer?_of_forall₂ hsame
  revert hanswers
  decide +kernel

end Machine

end Statechart
