import Statechart.Proofs.Session
import Statechart.Proofs.Bookkeeping

/-!
# Entries and exits in turn

Without branches, and with regions that lead to states by default, every state is entered and left in turn over a whole
session, and between calls the states that have been entered last are the active ones.
-/

namespace Statechart

open Model Eval

variable {μ δ σ : Type}

/-- A call answers, or the sink has not let an error pass. -/
def Answers (_ : Context σ) (halt : Option Halt) : Prop := halt = none ∨ ∃ error, halt = some (.refused error)

namespace Eval

variable {m : Model μ δ} {past : List (Event μ δ)} {plainly : RegionId → Bool} {c : Context σ} {mode : Mode μ}

section
variable (h : m.Arena) (ht : m.Tame)
include h ht

theorem lull_resting (he : m.EntersStates) (hbranch : ∀ v, m.isBranch v = false) :
    Lull m plainly c (Resting m past : Run μ δ σ → Prop) fun _ => True where
  fits _ hr := hr.1
  arrived _ _ hr := hr
  aloof := (blind_resting h).aloof
  aloof_asked _ _ _ _ _ := trivial
  offered _ _ _ hr := ⟨(blind_resting h).offered _ hr, trivial⟩
  fire hrec hs k trigger := (triple_fire h ht he hbranch hrec hs k trigger).pre
    fun _ ⟨⟨hr, hactive, hn⟩, _⟩ => ⟨hr.books hn, hactive⟩

omit ht in
theorem Stands.rests {run : Run μ δ σ} {v : VertexId} (hk : Stands m past v (∅ ∪ m.Beneath v) run)
    (hv : m.regionsOf v = []) : Resting m past run := by
  refine (hk.1.congr (Y := ∅) h fun s _ _ => ?_).resting (Or.inr rfl)
  simp [Beneath, hv]

theorem carries_beginEnterRoot (n : Nat) :
    Carries m past plainly c n mode (fun run => Open m past root ∅ run ∧ run.inst.records = {})
      (m.beginEnterVertex root)
      (fun run : Run μ δ σ => Stands m past root (∅ ∪ m.Beneath root) run ∧ run.inst.records = {}) := by
  have hrecords : Does m (m.compileWith plainly) c (Stops m past) n mode
      (fun run : Run μ δ σ => run.inst.records = {}) (m.beginEnterVertex root) fun run => run.inst.records = {} := by
    obtain ⟨l, hl, _, heq⟩ := beginEnterVertex_of_isState ht h.isState_root
    rw [heq, h.parent?_root, Option.map_none, Option.toList_none, List.append_nil]
    exact Does.inert stops_outOfFuel hl fun _ _ hr _ _ hk => hr.trans hk
  exact fun fuel hf => ((carries_beginEnterState h ht h.isState_root (Set.notMem_empty root) fuel hf).and
    (hrecords fuel hf)).conseq (fun _ hk => hk) (fun _ _ hk => hk) fun _ _ hk => hk.1

theorem triple_firstHead (he : m.EntersStates) (hbranch : ∀ v, m.isBranch v = false) {q : RegionId}
    (hq : m.regionsOf root = [q]) {t : TransitionId} {record : Transition μ δ} (hrec : m.transition? t = some record)
    (hp : m.parent? record.source = some q) (hi : m.isInitial record.source = true) (k : Nat) (trigger : Trigger μ) :
    Triple (Stands m past root (∅ ∪ m.Beneath root)) (follow m (m.compileWith plainly) c k trigger t)
      (fun _ => (Resting m past : Run μ δ σ → Prop)) (Stops m past) := by
  have howner : m.owner? q = some root := h.mem_regionsOf.mp (by simp [hq])
  refine (heads h ht he hbranch k trigger t record q root ∅ hrec hp hi howner fun w _ => Set.notMem_empty w).conseq
    (fun run hk => ⟨hk.1.congr h fun s _ _ => ?_, hk.2⟩) (fun _ run hk => hk.1.resting (Or.inr rfl)) fun _ _ hk => hk
  simp [Beneath, hq]

theorem carries_initialise (he : m.EntersStates) (hbranch : ∀ v, m.isBranch v = false)
    (hroot : (m.regionsOf root).length ≤ 1) (hmode : mode.nested = false) (n : Nat) :
    Carries m past plainly c n mode (fun run => Open m past root ∅ run ∧ run.inst.records = {})
      (m.beginEnterVertex root ++ m.endEnterVertex plainly root) (Resting m past : Run μ δ σ → Prop) := by
  refine (lull_resting h ht he hbranch).initialises h he hroot hmode (carries_beginEnterRoot h ht n)
    (fun hleaf run hr => hr.1.rests h hleaf) (fun run hr q => ?_) (fun run element s helement hr => ?_)
    fun q t record hq hrec hp hi k trigger =>
      (triple_firstHead h ht he hbranch hq hrec hp hi k trigger).pre fun run hr => hr.1
  · rw [Instance.current?, hr.2]; rfl
  · exact ⟨(steady_stands h root).begin run element s helement hr.1, hr.2⟩

end

end Eval

/-! ## Sessions -/

section
variable {m : Model μ δ}

theorem isBranch_eq_false (hbranch : ∀ v ∈ m.vertexIds, m.isBranch v = false) (v : VertexId) :
    m.isBranch v = false := by
  by_cases hv : v ∈ m.vertexIds
  · exact hbranch v hv
  · have hnone : m.vertex? v = none := by simpa [Model.mem_vertexIds, ← Model.vertex?_isSome_iff] using hv
    simp [Model.isBranch, hnone]

theorem of_endsAs {α : Type} {P J : Run μ δ σ → Prop} {x : Eval μ δ σ α} {c : Context σ} {halt : Option Halt}
    {start run : Run μ δ σ} (hx : Triple P x (fun _ => J) (Refuses J)) (hstart : P start)
    (hr : EndsAs (x start) halt run) (ha : Answers c halt) : J run := by
  cases hres : x start with
  | ok a run' =>
    rw [hres] at hr
    obtain ⟨_, rfl⟩ := hr
    exact hx.of_ok hstart hres
  | error e run' =>
    rw [hres] at hr
    obtain ⟨rfl, rfl⟩ := hr
    obtain ⟨error, herror⟩ := ha.resolve_left (by simp)
    exact hx.of_error hstart hres error (Option.some.inj herror)

variable (h : m.Arena)
include h

theorem open_root (data : δ) (s : σ) : Open m [] root ∅ ({ inst := { data }, outside := s } : Run μ δ σ) := by
  refine ⟨⟨fits_empty data, fun v _ => ⟨0, rfl, iff_of_false (by simp) fun hk => hk.2 (Or.inr fun r hr => ?_)⟩⟩,
    fun r o hp _ => ?_⟩
  · rw [h.parent?_root] at hr; cases hr
  · rw [h.parent?_root] at hp; cases hp

omit h in
theorem of_session {H : Instance δ → List (Event μ δ) → Prop}
    (hinitialise : ∀ (c : Context σ) fuel data s, Triple (fun run => run = { inst := { data }, outside := s })
      (perform m m.compile c fuel { trigger := .initialise } m.compile.onInitialise)
      (fun _ run => H run.inst (run.events ++ [])) (Refuses fun run => H run.inst (run.events ++ [])))
    (hoffer : ∀ (c : Context σ) fuel message past, Triple (fun run => H run.inst (run.events ++ past))
      (offer m m.compile c fuel (.message message) root)
      (fun _ run => H run.inst (run.events ++ past)) (Refuses fun run => H run.inst (run.events ++ past)))
    {i : Instance δ} {events : List (Event μ δ)} (hs : m.Session (Answers : Context σ → Option Halt → Prop) i events) :
    H i events := by
  induction hs with
  | initialise c fuel data s hr ha =>
    have := of_endsAs (hinitialise c fuel data s) rfl hr ha
    rwa [List.append_nil] at this
  | @evaluate c fuel message s i events halt run hs hn hr ha ih =>
    exact of_endsAs (hoffer c fuel message events) ih hr ha

theorem kept_of_session (ht : m.Tame) (he : m.EntersStates) (hbranch : ∀ v, m.isBranch v = false)
    (hroot : (m.regionsOf root).length ≤ 1) {i : Instance δ} {events : List (Event μ δ)}
    (hs : m.Session (Answers : Context σ → Option Halt → Prop) i events) : m.Kept i events := by
  refine of_session (fun c fuel data s => ?_) (fun c fuel message past => ?_) hs
  · have henter : Carries m [] m.isEnteredPlainly c fuel { trigger := .initialise }
        (fun run => Open m [] root ∅ run ∧ run.inst.records = {}) m.compile.onInitialise (Resting m []) :=
      carries_initialise h ht he hbranch hroot rfl fuel
    exact (henter fuel (Nat.le_refl fuel)).start ⟨open_root h data s, rfl⟩
  · exact (((lull_resting h ht he hbranch).parts h fuel).2.1 (.message message) root).pre
      fun run hr => ⟨hr, fun _ => isActive_root h run.inst⟩

end

namespace Machine.Session

variable {m m' : Machine μ δ} {i : Instance δ} {events : List (Event μ δ)}

/-- Over a whole session every state is entered and left in turn, with all its actions, and after each call the states
that have been entered last are the active ones. -/
theorem takes_turns (hb : m.Built) (ht : m.Tame) (he : m.EntersStates)
    (hbranch : ∀ v ∈ m.vertexIds, m.isBranch v = false) (hroot : (m.regionsOf root).length ≤ 1)
    (hs : Session (Answers : Context σ → Option Halt → Prop) m m' i events) {s : VertexId}
    (hstate : m'.isState s = true) : ∃ n, events.reverse.filter (·.isOf s) = m'.turns s n ∧
      (i.terminated = false → (n % 2 = 1 ↔ m'.isActive i s = true)) := by
  obtain ⟨hmodel, _, hsession⟩ := hs.model hb.sound
  rw [hmodel] at hstate ⊢
  have h := hb.sound.arena
  obtain ⟨_, X, hbalanced, hX⟩ := kept_of_session h ht he (isBranch_eq_false hbranch) hroot hsession
  obtain ⟨n, htook, hiff⟩ := hbalanced s hstate
  refine ⟨n, htook, fun hn => ?_⟩
  obtain rfl := hX.resolve_left (by simp [hn])
  simpa using hiff

def recalling : Machine String Nat :=
  (Machine.ofName "lamp").edited [.addState (.state root) "off", .addPseudoState (.region ⟨0⟩) "start" .initial,
    .addTransition (.between ⟨2⟩ ⟨1⟩), .addState (.region ⟨0⟩) "on",
    .addPseudoState (.state ⟨3⟩) "last" .shallowHistory, .addState (.region ⟨1⟩) "red",
    .addTransition (.between ⟨4⟩ ⟨5⟩), .addState (.region ⟨1⟩) "blue",
    .onEntry ⟨6⟩ fun _ i => { i with data := i.data + 1 }, .addTransition ((Draft.between ⟨5⟩ ⟨6⟩).on "next"),
    .addTransition ((Draft.between ⟨1⟩ ⟨3⟩).on "press"), .addTransition ((Draft.between ⟨3⟩ ⟨1⟩).on "press")]

/-- The lamp is blue, is switched off and on again, and is blue once more. -/
theorem takes_turns_recalling :
    ∃ play : Play String Nat, recalling.Plays play ∧ play.2.1.data = 2 ∧ play.1.isActive play.2.1 ⟨6⟩ = true ∧
      ∃ n, play.2.2.reverse.filter (·.isOf ⟨6⟩) = play.1.turns ⟨6⟩ n ∧
        (play.2.1.terminated = false → (n % 2 = 1 ↔ play.1.isActive play.2.1 ⟨6⟩ = true)) := by
  have hplay := plays_of_played recalling 50 0 ["press", "next", "press", "press"] (by decide +kernel)
  have htame : recalling.Tame :=
    tame_edited "lamp" (by simp [Edit.Uses, Draft.between, Draft.on, Draft.guarded, Action.Tame])
  exact ⟨_, hplay, by decide +kernel, by decide +kernel, takes_turns ((Built.ofName "lamp").edited _) htame
    (by decide +kernel) (by decide +kernel) (by decide +kernel) (hplay.mono fun _ _ hends => Or.inl hends.2)
    (by decide +kernel)⟩

end Machine.Session

end Statechart
