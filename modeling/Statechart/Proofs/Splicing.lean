import Mathlib.Logic.Relation
import Statechart.Proofs.Agreement
import Statechart.Proofs.Session

/-!
# Entering plain regions there and then

That the entry of a plain region is settled when the program is made changes nothing of what any sequence of calls does.
While the steps of such an entry run, the deep flag is off.
-/

namespace Statechart

variable {μ δ σ : Type}

/-! ## The parts of an evaluation -/

namespace Eval

open Model

inductive Part (μ δ : Type) where
  | perform (mode : Mode μ) (steps : List (Step μ δ))
  | step (mode : Mode μ) (step : Step μ δ)
  | traverse (mode : Mode μ) (t : TransitionId)
  | follow (trigger : Trigger μ) (t : TransitionId)
  | completeAll (arrived : List VertexId)
  | complete (v : VertexId)
  | offer (trigger : Trigger μ) (v : VertexId)
  | offerBeneath (trigger : Trigger μ) (v : VertexId) (regions : List RegionId)

structure Moment (μ δ σ : Type) where
  fuel : Nat
  part : Part μ δ
  run : Run μ δ σ

/-- One part may run another at once, or once what comes before has come to an end. Some conditions on which a part is
run are left out. -/
inductive Runs (m : Model μ δ) (p : Program μ δ) (c : Context σ) : Moment μ δ σ → Moment μ δ σ → Prop
  | first {n mode s rest run} : Runs m p c ⟨n + 1, .perform mode (s :: rest), run⟩ ⟨n, .step mode s, run⟩
  | rest {n mode s rest run run'} (hs : performStep m p c n mode s run = .ok () run') :
      Runs m p c ⟨n + 1, .perform mode (s :: rest), run⟩ ⟨n, .perform mode rest, run'⟩
  | leave {n mode r v b run} (hv : run.inst.current? r = some v) (hb : p.vertex? v = some b) :
      Runs m p c ⟨n + 1, .step mode (.leaveRegion r), run⟩ ⟨n, .perform { mode with deep := false } b.leave, run⟩
  | beginEnter {n mode r initial kind v b run}
      (hv : (if mode.deep || kind.any (·.isHistory) then run.inst.current? r else none).or initial = some v)
      (hb : p.vertex? v = some b) :
      Runs m p c ⟨n + 1, .step mode (.enterRegion r initial kind), run⟩
        ⟨n, .perform { mode with deep := mode.deep || kind == some .deepHistory } b.beginEnter, run⟩
  | endEnter {n mode r initial kind v b run run'}
      (hv : (if mode.deep || kind.any (·.isHistory) then run.inst.current? r else none).or initial = some v)
      (hb : p.vertex? v = some b)
      (hr : perform m p c n { mode with deep := mode.deep || kind == some .deepHistory } b.beginEnter run =
        .ok () run') :
      Runs m p c ⟨n + 1, .step mode (.enterRegion r initial kind), run⟩
        ⟨n, .perform { mode with deep := mode.deep || kind == some .deepHistory } b.endEnter, run'⟩
  | traverse {n mode t run} : Runs m p c ⟨n + 1, .step mode (.traverse t), run⟩ ⟨n, .traverse mode t, run⟩
  | follow {n mode t run} : Runs m p c ⟨n + 1, .traverse mode t, run⟩ ⟨n, .follow mode.trigger t, run⟩
  | arrive {n mode t run run'} (hr : follow m p c n mode.trigger t run = .ok () run') :
      Runs m p c ⟨n + 1, .traverse mode t, run⟩ ⟨n, .completeAll run'.arrived, { run' with arrived := [] }⟩
  | route {n trigger t route run} (ht : p.route? t = some route) :
      Runs m p c ⟨n + 1, .follow trigger t, run⟩
        ⟨n, .perform { trigger, nested := true } (route.steps run.inst), run.note (.fired t trigger run.inst)⟩
  | branch {n trigger t route u kind next run run' run''} (ht : p.route? t = some route)
      (hr : perform m p c n { trigger, nested := true } (route.steps run.inst)
        (run.note (.fired t trigger run.inst)) = .ok () run')
      (hn : selectBranch m c u kind (m.outgoing u) trigger run' = .ok (some next) run'') :
      Runs m p c ⟨n + 1, .follow trigger t, run⟩ ⟨n, .follow trigger next, run''⟩
  | firstArrival {n v rest run} : Runs m p c ⟨n + 1, .completeAll (v :: rest), run⟩ ⟨n, .complete v, run⟩
  | otherArrivals {n v rest run run'} (hr : complete m p c n v run = .ok () run') :
      Runs m p c ⟨n + 1, .completeAll (v :: rest), run⟩ ⟨n, .completeAll rest, run'⟩
  | completion {n v run} : Runs m p c ⟨n + 1, .complete v, run⟩ ⟨n, .offer (.completion v) v, run⟩
  | beneath {n trigger v run} :
      Runs m p c ⟨n + 1, .offer trigger v, run⟩
        ⟨n, .offerBeneath trigger v (m.regionsOf v), run.note (.offered v trigger)⟩
  | afterwards {n trigger v run run'}
      (hr : offerBeneath m p c n trigger v (m.regionsOf v) (run.note (.offered v trigger)) = .ok true run') :
      Runs m p c ⟨n + 1, .offer trigger v, run⟩ ⟨n, .complete v, run'⟩
  | fireOwn {n v t run} (ht : t ∈ m.outgoing v) :
      Runs m p c ⟨n + 1, .offer (.completion v) v, run⟩
        ⟨n, .traverse { trigger := .completion v } t, run.note (.offered v (.completion v))⟩
  | fire {n trigger v t run run'} (ht : t ∈ m.outgoing v)
      (hr : offerBeneath m p c n trigger v (m.regionsOf v) (run.note (.offered v trigger)) = .ok false run') :
      Runs m p c ⟨n + 1, .offer trigger v, run⟩ ⟨n, .traverse { trigger } t, run'⟩
  | inside {n trigger v r rest current run} (hv : run.inst.current? r = some current) :
      Runs m p c ⟨n + 1, .offerBeneath trigger v (r :: rest), run⟩ ⟨n, .offer trigger current, run⟩
  | pass {n trigger v r rest run} (hv : run.inst.current? r = none) :
      Runs m p c ⟨n + 1, .offerBeneath trigger v (r :: rest), run⟩ ⟨n, .offerBeneath trigger v rest, run⟩
  | further {n trigger v r rest current consumed run run'} (hv : run.inst.current? r = some current)
      (hr : offer m p c n trigger current run = .ok consumed run') :
      Runs m p c ⟨n + 1, .offerBeneath trigger v (r :: rest), run⟩ ⟨n, .offerBeneath trigger v rest, run'⟩

/-- The records fit, and steps are performed with the deep flag set only beneath deep history. -/
def Moment.Sound (m : Model μ δ) (moment : Moment μ δ σ) : Prop :=
  Fitting m moment.run ∧
    match moment.part with
    | .perform mode steps => ∀ s ∈ steps, m.Proper Action.KeepsRecords mode.deep s
    | .step mode s => m.Proper Action.KeepsRecords mode.deep s
    | .traverse _ t | .follow _ t => (m.transition? t).isSome
    | _ => True

section
variable {m : Model μ δ} {c : Context σ} {f : RegionId → Bool} (h : m.Arena) (hA : m.Acts Action.KeepsRecords)
variable (hf : ∀ r, f r = true → m.isEnteredPlainly r = true)
include h hA hf

theorem Runs.sound {x y : Moment μ δ σ} (hr : Runs m (m.compileWith f) c x y) (hx : x.Sound m) : y.Sound m := by
  have hlasts := fun k => lasts_fitting (c := c) h hA f k
  -- A part that comes later starts where another one has ended, and that one has kept the records fitting.
  have hbeneath : ∀ {n trigger v consumed} {run run' : Run μ δ σ}, Fitting m run →
      offerBeneath m (m.compileWith f) c n trigger v (m.regionsOf v) (run.note (.offered v trigger)) =
        .ok consumed run' → Fitting m run' := fun hrun hr =>
    ((hlasts _).offerBeneath _ _ _ trivial trivial fun _ _ _ _ => trivial).of_ok (s := Run.note _ _) hrun hr
  cases hr with
  | first => exact ⟨hx.1, hx.2 _ (by simp)⟩
  | rest hs =>
    have hfirst := hx.2 _ (List.mem_cons_self)
    exact ⟨(triple_step h hA hfirst).of_ok hx.1 hs, fun s hs => hx.2 s (List.mem_cons_of_mem _ hs)⟩
  | leave hv hb =>
    rw [eq_vertexBehavior hb]
    exact ⟨hx.1, (alike_leaveVertex h hA _).proper h hA⟩
  | beginEnter hv hb =>
    rw [eq_vertexBehavior hb]
    exact ⟨hx.1, (alike_beginEnterVertex hA (deepIf_of_entered hx.2 (parent?_of_entered hx.1 hx.2 hv))).proper h hA⟩
  | endEnter hv hb hr =>
    rw [eq_vertexBehavior hb] at hr ⊢
    refine ⟨(triple_perform h hA (within_beginEnterVertex hA trivial)).of_ok hx.1 hr, ?_⟩
    exact (alike_endEnterVertex h hA hf hf (deepIf_of_entered hx.2 (parent?_of_entered hx.1 hx.2 hv))).proper h hA
  | traverse =>
    obtain ⟨record, hrec, _⟩ := hx.2.1
    exact ⟨hx.1, by simp [hrec]⟩
  | follow => exact ⟨hx.1, hx.2⟩
  | @arrive n mode t run run' hr =>
    obtain ⟨record, hrec⟩ := Option.isSome_iff_exists.mp hx.2
    have hrun' := ((hlasts n).follow mode.trigger t record hrec trivial fun _ => trivial).of_ok hx.1 hr
    exact ⟨hrun', trivial⟩
  | @route n trigger t route run ht =>
    rw [route?_compileWith hx.2, Option.some.injEq] at ht
    subst ht
    exact ⟨hx.1, (alike_route h hA hf hf t run.inst).proper h hA⟩
  | @branch n trigger t route u kind next run run' run'' ht hr hn =>
    rw [route?_compileWith hx.2, Option.some.injEq] at ht
    subst ht
    have hrun' : Fitting m run' :=
      (triple_perform h hA (within_route h hA (fun _ => trivial) t run.inst)).of_ok (s := run.note _) hx.1 hr
    have hselect := (triple_selectBranch (E := fun _ _ => True) (P := Fitting m) (fun _ _ _ _ hr => hr)
      fun _ _ _ => trivial).of_ok hrun' hn
    obtain ⟨record, hrec, _⟩ := h.source_of_mem_outgoing (hselect.2.1 next rfl)
    exact ⟨hselect.1, by simp [hrec]⟩
  | firstArrival => exact ⟨hx.1, trivial⟩
  | otherArrivals hr => exact ⟨((hlasts _).complete _ trivial).of_ok hx.1 hr, trivial⟩
  | completion => exact ⟨hx.1, trivial⟩
  | beneath => exact ⟨hx.1, trivial⟩
  | afterwards hr => exact ⟨hbeneath hx.1 hr, trivial⟩
  | fireOwn ht =>
    obtain ⟨record, hrec, _⟩ := h.source_of_mem_outgoing ht
    exact ⟨hx.1, by simp [hrec]⟩
  | fire ht hr =>
    obtain ⟨record, hrec, _⟩ := h.source_of_mem_outgoing ht
    exact ⟨hbeneath hx.1 hr, by simp [hrec]⟩
  | inside hv => exact ⟨hx.1, trivial⟩
  | pass hv => exact ⟨hx.1, trivial⟩
  | further hv hr => exact ⟨((hlasts _).offer _ _ trivial trivial).of_ok hx.1 hr, trivial⟩

omit hA hf in
theorem deep_eq_false_of_spliced {x : Moment μ δ σ} (hx : x.Sound m) {r : RegionId} (hr : m.isEnteredPlainly r = true)
    {mode : Mode μ} {s : Step μ δ} (hpart : x.part = .step mode s) (hs : s ∈ m.endEnterRegion m.isEnteredPlainly r) :
    mode.deep = false := by
  have hproper := hx.2
  rw [hpart] at hproper
  unfold endEnterRegion at hs
  cases hv : m.head? r with
  | none => simp [isEnteredPlainly, headKind?, hv] at hr
  | some v =>
    have hp := parent?_of_head? h hv
    simp only [hv, hr, ite_true, beginEnterVertex_of_isInitial (isInitial_of_head? hv), List.mem_append,
      List.mem_singleton] at hs
    rcases hs with rfl | hs
    · exact deep_eq_false_of_isEnteredPlainly hr hp hproper.1
    · rcases endEnterPseudo_cases m v with ⟨he, _⟩ | ⟨t, rest, _, ho, he⟩ <;> rw [he] at hs
      · cases hs
      · obtain rfl := List.mem_singleton.mp hs
        obtain ⟨record, hrec, _, hdeep⟩ := hproper.1
        obtain ⟨record', hrec', rfl⟩ := h.source_of_mem_outgoing (t := t) (v := v) (by simp [ho])
        rw [hrec, Option.some.injEq] at hrec'
        exact deep_eq_false_of_isEnteredPlainly hr (hrec' ▸ hp) hdeep

end

end Eval

/-! ## Sequences of calls -/

inductive Call (μ σ : Type) where
  | initialise (c : Context σ)
  | evaluate (c : Context σ) (message : μ)

def Call.on (m : Machine μ δ) (fuel : Nat) : Call μ σ → Eval μ δ σ (Option Bool)
  | .initialise c => do m.initialiseCompiled c fuel; return none
  | .evaluate c message => return some (← m.evaluateCompiled c fuel message)

def Call.context : Call μ σ → Context σ
  | .initialise c | .evaluate c _ => c

def Call.part (p : Program μ δ) : Call μ σ → Eval.Part μ δ
  | .initialise _ => .perform { trigger := .initialise } p.onInitialise
  | .evaluate _ message => .offer (.message message) root

/-- What calls that are made one after the other come to, each of them with enough fuel. -/
inductive Machine.Replies (m : Machine μ δ) :
    Instance δ → σ → List (Call μ σ) → List (EStateM.Result Halt (Run μ δ σ) (Option Bool)) → Prop
  | nil (i : Instance δ) (s : σ) : Replies m i s [] []
  | cons (fuel : Nat) {i : Instance δ} {s : σ} {call : Call μ σ} {calls : List (Call μ σ)}
      {result : EStateM.Result Halt (Run μ δ σ) (Option Bool)}
      {results : List (EStateM.Result Halt (Run μ δ σ) (Option Bool))}
      (hr : call.on m fuel { inst := i, outside := s } = result) (hf : ∀ run, result ≠ .error .outOfFuel run) :
      Replies m (ran result).inst (ran result).outside calls results →
      Replies m i s (call :: calls) (result :: results)

namespace Machine

variable {m : Machine μ δ} {f g : RegionId → Bool}

theorem exists_replies (fuel : Nat) {i : Instance δ} {s : σ} {call : Call μ σ} {calls : List (Call μ σ)} {n : Nat}
    (ha : (answer? (call.on m fuel { inst := i, outside := s })).isSome)
    (hr : ∃ results, results.length = n ∧ m.Replies (ran (call.on m fuel { inst := i, outside := s })).inst
      (ran (call.on m fuel { inst := i, outside := s })).outside calls results) :
    ∃ results, results.length = n + 1 ∧ m.Replies i s (call :: calls) results := by
  obtain ⟨results, hlength, hr⟩ := hr
  refine ⟨_, by simp [hlength], .cons fuel rfl (fun run heq => ?_) hr⟩
  rw [heq] at ha
  cases ha

/-- The machine with the program that enters by default, there and then, the regions where `plainly` holds. -/
def programmed (m : Machine μ δ) (plainly : RegionId → Bool) : Machine μ δ :=
  { m with program := some (m.toModel.compileWith plainly) }

section
variable (h : m.Arena) (hA : m.Acts Action.KeepsRecords)
include h hA

theorem triple_call (call : Call μ σ) (fuel : Nat) :
    Triple (Eval.Fitting m.toModel) (call.on (m.programmed f) fuel) (fun _ => Eval.Fitting m.toModel)
      fun _ => Eval.Fitting m.toModel := by
  cases call with
  | initialise c =>
    refine Triple.bind ?_ fun _ => Triple.pure fun _ hr => hr
    exact Eval.Lasts.does (fun k _ => Eval.lasts_fitting h hA f k) _ (Model.within_onInitialise h hA) fuel
      (Nat.le_refl fuel)
  | evaluate c message =>
    refine Triple.bind (R := fun _ => Eval.Fitting m.toModel) ?_ fun _ => Triple.pure fun _ hr => hr
    refine Triple.bind Eval.triple_inst fun i => Triple.pre (P := Eval.Fitting m.toModel) ?_ fun _ hr => hr.1
    split
    · exact Triple.pure fun _ hr => hr
    · exact (Eval.lasts_fitting h hA f fuel).offer _ root trivial trivial

variable (hf : ∀ r, f r = true → m.isEnteredPlainly r = true) (hg : ∀ r, g r = true → m.isEnteredPlainly r = true)
include hf hg

theorem agrees_call (call : Call μ σ) (fuel : Nat) :
    Agrees (Eval.Fitting m.toModel) (call.on (m.programmed f) fuel) (call.on (m.programmed g) (2 * fuel)) := by
  cases call with
  | initialise c =>
    refine Agrees.bind ?_ Triple.trivial fun _ => Agrees.refl (pure none)
    exact Eval.agrees_perform h hA (fun k _ => Eval.keeps h hA hf hg k) (Model.alike_onInitialise h hA hf hg) fuel
      (Nat.le_refl fuel) (2 * fuel) (Nat.le_refl _)
  | evaluate c message =>
    refine Agrees.bind ?_ Triple.trivial fun b => Agrees.refl (pure (some b))
    refine Agrees.inst_bind fun i => ?_
    cases i.terminated with
    | true => exact Agrees.refl (pure false)
    | false => exact ((Eval.keeps h hA hf hg fuel).offer _ _ root (Nat.le_refl _)).pre fun _ hr => hr.1

theorem Replies.splice {i : Instance δ} {s : σ} {calls : List (Call μ σ)}
    {results : List (EStateM.Result Halt (Run μ δ σ) (Option Bool))} (hi : m.Fits false i)
    (hr : (m.programmed f).Replies i s calls results) : (m.programmed g).Replies i s calls results := by
  induction hr with
  | nil i s => exact .nil i s
  | @cons fuel i s call calls result results hr hne _ ih =>
    have hfits : m.Fits false (ran result).inst := by
      rw [← hr]
      exact (triple_call h hA call fuel).ran _ hi
    refine .cons (2 * fuel) ?_ hne (ih hfits)
    rcases agrees_call h hA hf hg call fuel { inst := i, outside := s } hi with ⟨run, hout⟩ | heq
    · rw [hr] at hout
      exact absurd hout (hne run)
    · rw [heq, hr]

end

/-- A program that enters plain regions there and then does what one does that always enters them by a step of its own,
for any sequence of calls, and the deep flag is off whenever a step of such an entry is performed. -/
theorem Built.replies_iff (hm : m.Built) (hA : m.Acts Action.KeepsRecords) {i : Instance δ} (hi : m.Fits false i)
    (s : σ) :
    (∀ (calls : List (Call μ σ)) results,
      m.compile.Replies i s calls results ↔
        { m with program := some (m.toModel.compileWith fun _ => false) : Machine μ δ }.Replies i s calls results) ∧
    ∀ (call : Call μ σ) fuel moment,
      Relation.ReflTransGen (Eval.Runs m.toModel m.toModel.compile call.context)
        ⟨fuel, call.part m.toModel.compile, { inst := i, outside := s }⟩ moment →
      ∀ r, m.isEnteredPlainly r = true → ∀ mode step, moment.part = .step mode step →
        step ∈ m.endEnterRegion m.isEnteredPlainly r → mode.deep = false := by
  have h := hm.sound.arena
  refine ⟨fun calls results => ⟨fun hr => ?_, fun hr => ?_⟩, fun call fuel moment hreach r hr mode step hpart hs => ?_⟩
  · exact Replies.splice (f := m.isEnteredPlainly) h hA (fun _ => id) (by simp) hi hr
  · exact Replies.splice (g := m.isEnteredPlainly) h hA (by simp) (fun _ => id) hi hr
  · have hstart : Eval.Moment.Sound m.toModel
        ⟨fuel, call.part m.toModel.compile, ({ inst := i, outside := s } : Run μ δ σ)⟩ := by
      refine ⟨hi, ?_⟩
      cases call with
      | initialise c => exact (Model.alike_onInitialise h hA (fun _ => id) fun _ => id).proper h hA
      | evaluate c message => trivial
    -- Sound moments lead to sound moments, and the first one is sound.
    have hsound : moment.Sound m.toModel := by
      clear hpart
      induction hreach with
      | refl => exact hstart
      | tail _ hlast ih => exact hlast.sound h hA (fun _ => id) ih
    exact Eval.deep_eq_false_of_spliced h hsound hr hpart hs

def flickering : Machine String Unit :=
  (ofName "lamp").edited [.addPseudoState (.state root) "start" .initial, .addState (.region ⟨0⟩) "off",
    .addTransition (.between ⟨1⟩ ⟨2⟩), .addPseudoState (.state ⟨2⟩) "first" .initial,
    .addState (.region ⟨1⟩) "fading", .addTransition (.between ⟨3⟩ ⟨4⟩), .addState (.region ⟨0⟩) "on",
    .addPseudoState (.state ⟨5⟩) "last" .deepHistory, .addState (.region ⟨2⟩) "low",
    .addTransition (.between ⟨6⟩ ⟨7⟩), .addTransition ((Draft.between ⟨2⟩ ⟨5⟩).on "press"),
    .addTransition ((Draft.between ⟨5⟩ ⟨2⟩).on "press")]

theorem replies_iff_flickering :
    flickering.isEnteredPlainly ⟨1⟩ = true ∧ flickering.isEnteredPlainly ⟨2⟩ = false ∧
    ∃ results, results.length = 3 ∧
      { flickering with program := some (flickering.toModel.compileWith fun _ => false) : Machine String Unit }.Replies
        { data := () } ()
        [.initialise Context.strict, .evaluate Context.strict "press", .evaluate Context.strict "press"] results := by
  have hacts : flickering.Acts Action.KeepsRecords :=
    acts_edited "lamp" (by simp [Edit.Uses, Draft.between, Draft.on, Draft.guarded])
  have hbuilt : flickering.Built := (Built.ofName "lamp").edited _
  obtain ⟨results, hlength, hr⟩ : ∃ results, results.length = 3 ∧ flickering.compile.Replies { data := () } ()
      [.initialise Context.strict, .evaluate Context.strict "press", .evaluate Context.strict "press"] results :=
    exists_replies 50 (by decide +kernel) (exists_replies 50 (by decide +kernel)
      (exists_replies 50 (by decide +kernel) ⟨[], rfl, .nil _ _⟩))
  exact ⟨by decide +kernel, by decide +kernel, results, hlength,
    ((hbuilt.replies_iff hacts (Model.fits_empty ()) ()).1 _ _).mp hr⟩

end Machine

end Statechart
