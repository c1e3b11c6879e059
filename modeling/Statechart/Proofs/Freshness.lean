import Statechart.Proofs.Session

/-!
# Programs that are up to date

A machine may be changed, compiled and used in any order. Whenever it counts as clean its program is the one that its
model compiles to, so that no call ever works from what the model was before a change.
-/

namespace Statechart

variable {μ δ : Type}

/-- What a new machine can become. Operations may fail, calls may stop short, and no two calls need be about the same
instance. Calls of machines that are compiled already leave them as they are. -/
inductive Machine.Used : Machine μ δ → Prop
  | ofName (name : String) : Used (.ofName name)
  | edit (e : Edit μ δ) {m : Machine μ δ} : Used m → Used (e.apply m)
  | compile {m : Machine μ δ} : Used m → Used m.compile
  | initialise {σ : Type} (c : Context σ) (fuel : Nat) (i : Instance δ) (s : σ) {m : Machine μ δ} :
      Used m → Used (m.initialise c fuel i s).1
  | evaluate {σ : Type} (c : Context σ) (fuel : Nat) (message : μ) (i : Instance δ) (s : σ) {m : Machine μ δ} :
      Used m → Used (m.evaluate c fuel message i s).1

namespace Machine

variable {σ : Type} {m : Machine μ δ} {c : Context σ}

theorem Sound.compile_eq (h : m.Sound) (hclean : m.isClean = true) : m.compile = m := by
  obtain ⟨p, hp⟩ := Option.isSome_iff_exists.mp hclean
  unfold Machine.compile
  rw [← h.program p hp, ← hp]

theorem Sound.prepare?_eq (h : m.Sound) (c : Context σ) :
    m.prepare? c = if m.isClean || c.autoCompile then some m.compile else none := by
  unfold prepare?
  cases hclean : m.isClean with
  | true => simp [h.compile_eq hclean]
  | false => rfl

/-! ## Calls -/

theorem Sound.initialise_fresh (h : m.Sound) (c : Context σ) (fuel : Nat) (i : Instance δ) (s : σ) :
    m.initialise c fuel i s =
      if m.isClean || c.autoCompile then
        (m.compile, m.compile.initialiseCompiled c fuel { inst := i, outside := s })
      else (m, .error (.refused .notCompiled) { inst := i, outside := s }) := by
  unfold initialise
  rw [h.prepare?_eq c]
  by_cases hp : (m.isClean || c.autoCompile) = true <;> simp [hp]

theorem Sound.evaluate_fresh (h : m.Sound) (c : Context σ) (fuel : Nat) (message : μ) (i : Instance δ) (s : σ) :
    m.evaluate c fuel message i s =
      if i.terminated then (m, .ok false { inst := i, outside := s })
      else if m.isClean || c.autoCompile then
        (m.compile, m.compile.evaluateCompiled c fuel message { inst := i, outside := s })
      else (m, .error (.refused .notCompiled) { inst := i, outside := s }) := by
  unfold evaluate
  rw [h.prepare?_eq c]
  by_cases hp : (m.isClean || c.autoCompile) = true <;> simp [hp]

/-! ## Calls of machines that are compiled already -/

theorem Sound.initialiseCompiled_fresh (h : m.Sound) (c : Context σ) (fuel : Nat) :
    m.initialiseCompiled c fuel =
      if m.isClean then m.compile.initialiseCompiled c fuel else throw (.refused .notCompiled) := by
  cases hclean : m.isClean with
  | true => simp [h.compile_eq hclean]
  | false =>
    have hp : m.program = none := by simpa [isClean] using hclean
    simp [initialiseCompiled, hp]

theorem Sound.evaluateCompiled_fresh (h : m.Sound) (c : Context σ) (fuel : Nat) (message : μ) (run : Run μ δ σ) :
    m.evaluateCompiled c fuel message run =
      if run.inst.terminated then .ok false run
      else if m.isClean then m.compile.evaluateCompiled c fuel message run
      else .error (.refused .notCompiled) run := by
  by_cases ht : run.inst.terminated = true
  · change (if run.inst.terminated = true then pure false else _ : Eval μ δ σ Bool) run = _
    rw [if_pos ht, if_pos ht]
    rfl
  · cases hclean : m.isClean with
    | true => simp [h.compile_eq hclean, ht]
    | false =>
      have hp : m.program = none := by simpa [isClean] using hclean
      change (if run.inst.terminated = true then pure false else _ : Eval μ δ σ Bool) run = _
      rw [if_neg ht, if_neg ht, hp]
      rfl

theorem Used.sound (h : m.Used) : m.Sound := by
  induction h with
  | ofName name => exact sound_ofName name
  | edit e _ ih => exact ih.apply e
  | compile _ ih => exact ih.compile
  | @initialise σ c fuel i s m _ ih =>
    rw [ih.initialise_fresh c fuel i s]
    split
    · exact ih.compile
    · exact ih
  | @evaluate σ c fuel message i s m _ ih =>
    rw [ih.evaluate_fresh c fuel message i s]
    split
    · exact ih
    · split
      · exact ih.compile
      · exact ih

theorem Used.edited (h : m.Used) (edits : List (Edit μ δ)) : (m.edited edits).Used := by
  induction edits generalizing m with
  | nil => exact h
  | cons e edits ih => exact ih (h.edit e)

/-- A clean machine has the program of its present model, and every call refuses to run, has nothing to do, or does what
the present model, newly compiled, does. -/
theorem Used.never_stale (h : m.Used) :
    (m.isClean = true → m.program = some m.toModel.compile) ∧ m.compile.toModel = m.toModel ∧
    ∀ {σ : Type} (c : Context σ) (fuel : Nat) (i : Instance δ) (s : σ),
      m.initialise c fuel i s =
        (if m.isClean || c.autoCompile then
          (m.compile, m.compile.initialiseCompiled c fuel { inst := i, outside := s })
        else (m, .error (.refused .notCompiled) { inst := i, outside := s })) ∧
      m.initialiseCompiled c fuel { inst := i, outside := s } =
        (if m.isClean then m.compile.initialiseCompiled c fuel { inst := i, outside := s }
        else .error (.refused .notCompiled) { inst := i, outside := s }) ∧
      ∀ message,
        m.evaluate c fuel message i s =
          (if i.terminated then (m, .ok false { inst := i, outside := s })
          else if m.isClean || c.autoCompile then
            (m.compile, m.compile.evaluateCompiled c fuel message { inst := i, outside := s })
          else (m, .error (.refused .notCompiled) { inst := i, outside := s })) ∧
        m.evaluateCompiled c fuel message { inst := i, outside := s } =
          if i.terminated then .ok false { inst := i, outside := s }
          else if m.isClean then m.compile.evaluateCompiled c fuel message { inst := i, outside := s }
          else .error (.refused .notCompiled) { inst := i, outside := s } := by
  have hs := h.sound
  refine ⟨fun hclean => ?_, rfl, fun c fuel i s => ⟨hs.initialise_fresh c fuel i s, ?_, fun message => ⟨?_, ?_⟩⟩⟩
  · obtain ⟨p, hp⟩ := Option.isSome_iff_exists.mp hclean
    rw [hp, hs.program p hp]
  · rw [hs.initialiseCompiled_fresh c fuel]
    split <;> rfl
  · exact hs.evaluate_fresh c fuel message i s
  · exact hs.evaluateCompiled_fresh c fuel message _

def switch : Machine String Unit :=
  (Machine.ofName "switch").edited [.addState (.state root) "off", .addPseudoState (.region ⟨0⟩) "start" .initial,
    .addTransition (.between ⟨2⟩ ⟨1⟩), .addState (.region ⟨0⟩) "on",
    .addTransition ((Draft.between ⟨1⟩ ⟨3⟩).on "flip")]

/-- A switch that is in use gets a new name for one of its states. An operation that fails leaves it clean, and after
one that succeeds the next message is handled by the new model. -/
theorem never_stale_switch :
    ∃ (m : Machine String Unit) (i : Instance Unit), m.Used ∧ m.isClean = false ∧
      ((Edit.rename ⟨3⟩ "off").apply switch.compile).isClean = true ∧
      m.evaluate Context.strict 50 "flip" i () =
        (m.compile, m.compile.evaluateCompiled Context.strict 50 "flip" { inst := i, outside := () }) ∧
      (m.evaluate Context.strict 50 "flip" i ()).1.isClean = true := by
  have hused := ((((Used.ofName "switch").edited _ : switch.Used).initialise Context.strict 50 { data := () } ()).edit
    (.rename ⟨3⟩ "lit"))
  have hcall := (hused.never_stale.2.2 Context.strict 50 { records := ⟨[(⟨0⟩, ⟨1⟩)]⟩, data := () } ()).2.2 "flip"
  refine ⟨_, _, hused, by decide +kernel, by decide +kernel, hcall.1, by decide +kernel⟩

end Machine

end Statechart
