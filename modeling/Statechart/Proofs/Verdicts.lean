import Statechart.Proofs.Rules
import Statechart.Recorder

/-!
# Verdicts

What is done with the violations of a model: a check fails if there are any, a model is ill-formed if one of them is an
error, and a validation tells the sink of them one after the other up to the first error that it refuses.
-/

namespace Statechart

variable {μ δ σ : Type}

/-! ## Sinks -/

namespace Context

def tell (c : Context σ) (s : σ) (v : Violation) : σ :=
  match v.severity with
  | .warning => c.warn v.message s
  | .error => (c.tolerate (.illFormed v) s).2

def told (c : Context σ) (s : σ) (violations : List Violation) : σ := violations.foldl c.tell s

/-- Warnings always pass, errors if the sink tolerates them. -/
def Passes (c : Context σ) (s : σ) (v : Violation) : Prop :=
  v.severity = .error → (c.tolerate (.illFormed v) s).1 = true

def PassesAll (c : Context σ) (s : σ) (violations : List Violation) : Prop :=
  ∀ before v after, violations = before ++ v :: after → c.Passes (c.told s before) v

variable {c : Context σ} {s : σ} {v : Violation} {violations : List Violation}

theorem passesAll_nil : c.PassesAll s [] := fun before _ _ hsplit => by cases before <;> cases hsplit

theorem PassesAll.cons (hv : c.Passes s v) (hvs : c.PassesAll (c.tell s v) violations) :
    c.PassesAll s (v :: violations) := by
  rintro (_ | ⟨first, before⟩) v' after hsplit
  · cases hsplit
    exact hv
  · cases hsplit
    exact hvs before v' after rfl

theorem IsStrict.passesAll_iff (hc : c.IsStrict) :
    c.PassesAll s violations ↔ ∀ v ∈ violations, v.severity ≠ .error := by
  refine ⟨fun hp v hv he => ?_, fun hall before v after hsplit he => ?_⟩
  · obtain ⟨before, after, hsplit⟩ := List.append_of_mem hv
    have htolerated := hp before v after hsplit he
    rw [hc] at htolerated
    cases htolerated
  · exact absurd he (hall v (by simp [hsplit]))

end Context

/-! ## Validations -/

/-- What may come of telling the sink of these violations. -/
inductive Verdict (c : Context σ) (s : σ) (violations : List Violation) : EStateM.Result MachineError σ Unit → Prop
  | passed (hp : c.PassesAll s violations) : Verdict c s violations (.ok () (c.told s violations))
  /-- The sink is told of no violation beyond the one that it refuses. -/
  | refused {before after : List Violation} {v : Violation} (hsplit : violations = before ++ v :: after)
      (hp : c.PassesAll s before) (he : v.severity = .error)
      (hv : (c.tolerate (.illFormed v) (c.told s before)).1 = false) :
      Verdict c s violations (.error (.illFormed v) (c.told s (before ++ [v])))

namespace Model

variable {c : Context σ} {s : σ} {v : Violation} {violations : List Violation}

theorem reportViolation_of_passes (hv : c.Passes s v) : reportViolation c v s = .ok () (c.tell s v) := by
  cases he : v.severity with
  | warning => simp [reportViolation, Context.tell, he]
  | error =>
    have htolerated := hv he
    cases ht : c.tolerate (.illFormed v) s with
    | mk passes s' => rw [ht] at htolerated; simp_all [reportViolation, Context.tell]

theorem reportViolation_of_not_passes (hv : ¬ c.Passes s v) :
    v.severity = .error ∧ (c.tolerate (.illFormed v) s).1 = false ∧
      reportViolation c v s = .error (.illFormed v) (c.tell s v) := by
  obtain ⟨he, hrefused⟩ := Classical.not_imp.mp hv
  rw [Bool.not_eq_true] at hrefused
  refine ⟨he, hrefused, ?_⟩
  cases ht : c.tolerate (.illFormed v) s with
  | mk passes s' => rw [ht] at hrefused; simp_all [reportViolation, Context.tell]

end Model

namespace Verdict

variable {c : Context σ} {s : σ} {v : Violation} {violations : List Violation}
  {answer : EStateM.Result MachineError σ Unit}

theorem cons (hv : c.Passes s v) (hverdict : Verdict c (c.tell s v) violations answer) :
    Verdict c s (v :: violations) answer := by
  cases hverdict with
  | passed hp => exact .passed (hp.cons hv)
  | refused hsplit hp he hrefused => exact .refused (congrArg (v :: ·) hsplit) (hp.cons hv) he hrefused

theorem forM (violations : List Violation) (s : σ) :
    Verdict c s violations (violations.forM (Model.reportViolation c) s) := by
  -- whether a violation passes may depend on what the sink has been told before it, hence every `s`
  induction violations generalizing s with
  | nil => exact .passed Context.passesAll_nil
  | cons v violations ih =>
    by_cases hv : c.Passes s v
    · have hstep : (v :: violations).forM (Model.reportViolation c) s =
          violations.forM (Model.reportViolation c) (c.tell s v) := by
        simp only [List.forM, bind, EStateM.bind, Model.reportViolation_of_passes hv]
      rw [hstep]
      exact (ih _).cons hv
    · obtain ⟨he, hrefused, hreport⟩ := Model.reportViolation_of_not_passes hv
      have hstep : (v :: violations).forM (Model.reportViolation c) s = .error (.illFormed v) (c.tell s v) := by
        simp only [List.forM, bind, EStateM.bind, hreport]
      rw [hstep]
      exact refused (by rfl) Context.passesAll_nil he hrefused

theorem isOk_iff (hverdict : Verdict c s violations answer) :
    (∃ s', answer = .ok () s') ↔ c.PassesAll s violations := by
  cases hverdict with
  | passed hp => exact ⟨fun _ => hp, fun _ => ⟨_, rfl⟩⟩
  | refused hsplit _ he hrefused =>
    refine ⟨fun ⟨_, heq⟩ => (nomatch heq), fun hp => ?_⟩
    rw [hp _ _ _ hsplit he] at hrefused
    cases hrefused

end Verdict

/-! ## Models -/

theorem Fault.severity_eq_error_iff {fault : Fault} : fault.severity = .error ↔ fault ≠ .finalWithBehavior := by
  cases fault <;> simp [severity]

namespace Model

variable {m : Model μ δ}

theorem isWellFormed_iff : m.isWellFormed = true ↔ ∀ v ∈ m.violations, v.severity ≠ .error := by
  rw [isWellFormed, hasErrors, Bool.not_eq_true', List.any_eq_false]
  refine ⟨fun hall v hv => ?_, fun hall check hcheck => ?_⟩
  · have hv : some v ∈ m.checks := by simpa [violations] using hv
    simpa [Violation.isError] using hall _ hv
  · cases check with
    | none => simp
    | some v => simpa [Violation.isError] using hall v (List.mem_filterMap.mpr ⟨_, hcheck, rfl⟩)

section
variable {findings : List (Subject × Fault)} (hl : m.Lists findings)
  (heq : m.violations = findings.map fun finding => m.violation finding.1 finding.2)
include hl heq

theorem Lists.mem_violations {v : Violation} :
    v ∈ m.violations ↔ ∃ s fault, m.Breaks s fault ∧ m.violation s fault = v := by
  simp only [heq, List.mem_map, Prod.exists, hl.mem_iff]

theorem Lists.violations_eq_nil_iff : m.violations = [] ↔ ∀ s fault, ¬ m.Breaks s fault := by
  rw [List.eq_nil_iff_forall_not_mem]
  refine ⟨fun hnone s fault hb => hnone _ ((hl.mem_violations heq).mpr ⟨s, fault, hb, rfl⟩), fun hnone v hv => ?_⟩
  obtain ⟨s, fault, hb, _⟩ := (hl.mem_violations heq).mp hv
  exact hnone s fault hb

theorem Lists.isWellFormed_iff :
    m.isWellFormed = true ↔ ∀ s fault, m.Breaks s fault → fault = .finalWithBehavior := by
  rw [Model.isWellFormed_iff]
  refine ⟨fun hall s fault hb => ?_, fun hall v hv he => ?_⟩
  · have hv := hall _ ((hl.mem_violations heq).mpr ⟨s, fault, hb, rfl⟩)
    exact not_not.mp fun hne => hv (Fault.severity_eq_error_iff.mpr hne)
  · obtain ⟨s, fault, hb, rfl⟩ := (hl.mem_violations heq).mp hv
    exact Fault.severity_eq_error_iff.mp he (hall s fault hb)

end

end Model

namespace Machine

/-- The violations of a model that has been built are the breaches of its rules. Checks, the test for well-formedness
and validations all go by them. -/
theorem Built.judged {m : Machine μ δ} (hm : m.Built) :
    (∃ findings, m.Lists findings ∧ m.violations = findings.map fun finding => m.violation finding.1 finding.2) ∧
      (m.violations = [] ↔ ∀ s fault, ¬ m.Breaks s fault) ∧
      (m.isWellFormed = true ↔ ∀ v ∈ m.violations, v.severity ≠ .error) ∧
      (m.isWellFormed = true ↔ ∀ s fault, m.Breaks s fault → fault = .finalWithBehavior) ∧
      (∀ {σ : Type} (c : Context σ) (s : σ), c.IsStrict →
        (m.isWellFormed = true ↔ ∃ s', m.validate c s = .ok () s')) ∧
      ∀ {σ : Type} (c : Context σ) (s : σ), Verdict c s m.violations (m.validate c s) := by
  have hlists := Model.lists_findings hm.sound.arena hm.orderly
  have heq := Model.violations_eq hm.sound.arena hm.orderly
  have hverdict {σ : Type} (c : Context σ) (s : σ) : Verdict c s m.violations (m.validate c s) := .forM _ s
  refine ⟨⟨_, hlists, heq⟩, hlists.violations_eq_nil_iff heq, Model.isWellFormed_iff, hlists.isWellFormed_iff heq,
    fun c s hc => ?_, hverdict⟩
  rw [Model.isWellFormed_iff, (hverdict c s).isOk_iff, hc.passesAll_iff]

/-- Two vertices would head the region, a final state has something to do when it is left, a choice leads nowhere, and a
local transition leaves its source. -/
def flawed : Machine String Unit := (ofName "m").edited
  [.addPseudoState (.state root) "start" .initial, .addPseudoState (.region ⟨0⟩) "back" .shallowHistory,
    .addFinalState (.region ⟨0⟩) "done", .onExit ⟨3⟩ fun _ i => i, .addPseudoState (.region ⟨0⟩) "fork" .choice,
    .addState (.region ⟨0⟩) "a", .addTransition (.between ⟨1⟩ ⟨5⟩), .addTransition (.between ⟨2⟩ ⟨5⟩),
    .addTransition ((Draft.between ⟨5⟩ ⟨3⟩).ofKind .withinSource)]

def twoHeads : Violation := { element := "m.default", fault := .multipleInitials 2 }

def busyEnd : Violation := { element := "m.default.done", fault := .finalWithBehavior }

def deadFork : Violation := { element := "m.default.fork", fault := .noBranches .choice }

def wayOut : Violation := { element := "m.default.a", fault := .localNotDescendant "m.default.done" }

theorem judged_flawed :
    flawed.violations = [twoHeads, busyEnd, deadFork, wayOut] ∧
      (∃ findings, flawed.Lists findings ∧ findings.length = 4) ∧ flawed.isWellFormed = false ∧
      (∀ s, flawed.validate Context.strict () ≠ .ok () s) ∧
      flawed.validate (Recorder.context (.recording (· == .illFormed twoHeads)) .silent true) {} =
        .error (.illFormed deadFork)
          { warnings := [busyEnd.message], errors := [.illFormed deadFork, .illFormed twoHeads] } := by
  have hbuilt : flawed.Built := (Built.ofName "m").edited _
  obtain ⟨⟨findings, hlists, heq⟩, _, _, _, hstrict, _⟩ := Built.judged hbuilt
  have hviolations : flawed.violations = [twoHeads, busyEnd, deadFork, wayOut] := by decide +kernel
  have hill : flawed.isWellFormed = false := by decide +kernel
  refine ⟨hviolations, ⟨findings, hlists, ?_⟩, hill, fun s hok => ?_, ?_⟩
  · rw [← List.length_map, ← heq, hviolations]
    rfl
  · have hwell := (hstrict Context.strict () fun _ _ => rfl).mpr ⟨s, hok⟩
    rw [hill] at hwell
    cases hwell
  · rw [Model.validate, hviolations]
    rfl

end Machine

end Statechart
