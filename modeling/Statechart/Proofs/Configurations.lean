import Statechart.Proofs.Ledger

/-!
# Complete configurations

Where every region leads to a state by default and no branch is the end of a way, the configuration between calls is
complete: each region of an active state records one of its states. In between a compound transition may pass through
states that are entered only in part, and leave them again; what is still missing then is kept in a ledger.
-/

namespace Statechart

variable {μ δ σ : Type}

namespace Model

def BranchesLead (m : Model μ δ) : Prop :=
  ∀ v ∈ m.vertexIds, m.isBranch v = true → ∀ t ∈ m.outgoing v, m.HasTarget t = true

instance decidableBranchesLead (m : Model μ δ) : Decidable m.BranchesLead :=
  inferInstanceAs (Decidable (∀ v ∈ m.vertexIds, _ = true → ∀ t ∈ m.outgoing v, _ = true))

def Filled (m : Model μ δ) (i : Instance δ) (r : RegionId) : Prop :=
  ∃ v, i.current? r = some v ∧ m.parent? v = some r ∧ m.isState v = true

/-- The regions of active states are filled, apart from what the regions in `Q` enclose. -/
def FilledOutside (m : Model μ δ) (Q : Set RegionId) (i : Instance δ) : Prop :=
  ∀ r o, m.owner? r = some o → m.isActive i o = true → m.Filled i r ∨ ∃ q ∈ Q, m.Encloses q r

variable {m : Model μ δ} {Q : Set RegionId} {i i' : Instance δ}

theorem Filled.congr {r : RegionId} (hr : i'.current? r = i.current? r) (hf : m.Filled i r) : m.Filled i' r := by
  obtain ⟨v, hv, hp, hs⟩ := hf
  exact ⟨v, hr.trans hv, hp, hs⟩

section
variable (h : m.Arena)
include h

theorem leadsOn_of_entersStates (he : m.EntersStates) (hb : m.BranchesLead) {r : RegionId}
    (hr : (m.region? r).isSome) : m.LeadsOn r := by
  obtain ⟨v, t, record, u, hp, hi, hone, hout, hrec, hu, _⟩ := he.exists_target h hr
  refine ⟨⟨v, h.mem_verticesOf.mpr hp, hi⟩, fun w hw => ?_⟩
  replace hw := h.mem_verticesOf.mp hw
  refine ⟨fun hiw => ?_, fun hkind t' ht' => ?_⟩
  · rw [hone w hw hiw, hout]; simp
  · rcases hkind with hiw | hbw
    · rw [hone w hw hiw, hout, List.mem_singleton] at ht'
      simp [ht', HasTarget, hrec, hu]
    · exact hb w (mem_vertexIds.mpr (vertex?_isSome_iff.mp (vertex?_isSome_of_parent? hw))) hbw t' ht'

theorem region?_isSome_of_encloses {r q : RegionId} {o : VertexId} (hq : m.owner? q = some o)
    (hr : m.Encloses r q) : (m.region? r).isSome := by
  rcases hr with rfl | ⟨o', ho', hr⟩
  · obtain ⟨region, hreg, _⟩ := owner?_eq_some.mp hq
    simp [hreg]
  · rw [hq] at ho'; cases ho'
    obtain ⟨⟨r', w⟩, hm, rfl⟩ := List.mem_map.mp hr
    exact region?_isSome_of_parent? h (of_mem_path h o (vertex?_isSome_of_isState (h.isState_of_owner? hq)) hm).1

theorem exists_encloses {r : RegionId} {o : VertexId} (hr : m.owner? r = some o) :
    ∃ q ∈ m.regionsOf root, m.Encloses q r := by
  rcases root_or_above h (vertex?_isSome_of_isState (h.isState_of_owner? hr)) with rfl | ⟨q, hq, ha⟩
  · exact ⟨r, h.mem_regionsOf.mpr hr, encloses_refl r⟩
  · exact ⟨q, hq, Or.inr ⟨o, hr, ha⟩⟩

theorem FilledOutside.congr (hr : i'.records = i.records) (hf : m.FilledOutside Q i) : m.FilledOutside Q i' := by
  have hcurrent : ∀ q, i'.current? q = i.current? q := fun q => by rw [Instance.current?, hr]; rfl
  intro r o ho ha
  rw [isActive_congr h (vertex?_isSome_of_isState (h.isState_of_owner? ho)) fun q _ => hcurrent q] at ha
  exact (hf r o ho ha).imp (Filled.congr (hcurrent r)) id

theorem FilledOutside.setCurrent {r : RegionId} {v : VertexId} (hv : m.parent? v = some r) (hs : m.isState v = true)
    (hf : m.FilledOutside (Q ∪ {q | m.Encloses r q}) i) :
    m.FilledOutside (Q ∪ {q | q ∈ m.regionsOf v}) (i.setCurrent r v) := by
  intro x o ho ha
  have hoknown := vertex?_isSome_of_isState (h.isState_of_owner? ho)
  by_cases hx : r = x
  · subst hx
    exact Or.inl ⟨v, by simp [Instance.current?_setCurrent], hv, hs⟩
  by_cases hr : m.Above r o
  · -- The way to an active state beneath `r` goes through `v` now.
    obtain ⟨w, hw, _, hway⟩ := current?_of_above h hoknown ha hr
    rw [Instance.current?_setCurrent, if_pos rfl] at hw; cases hw
    rcases hway with rfl | ⟨q, hq, hqo⟩
    · exact Or.inr ⟨x, Or.inr (h.mem_regionsOf.mpr ho), encloses_refl x⟩
    · exact Or.inr ⟨q, Or.inr (h.mem_regionsOf.mpr hq), Or.inr ⟨o, ho, hqo⟩⟩
  · have hsame : ∀ q, r ≠ q → (i.setCurrent r v).current? q = i.current? q := fun q hq => by
      rw [Instance.current?_setCurrent, if_neg hq]
    have hbefore : m.isActive i o = true := by
      rw [← isActive_congr h hoknown fun q hq => hsame q fun heq => hr (heq ▸ hq)]; exact ha
    rcases hf x o ho hbefore with hfilled | ⟨q, hq | hq, hqx⟩
    · exact Or.inl (hfilled.congr (hsame x hx))
    · exact Or.inr ⟨q, Or.inl hq, hqx⟩
    · rcases encloses_trans h hq hqx with heq | ⟨o', ho', hro⟩
      · exact absurd heq hx
      · rw [ho] at ho'; cases ho'; exact absurd hro hr

def missing (he : m.EntersStates) (hb : m.BranchesLead) : Ledger m where
  covered _ := False
  lasting _ := False
  Holds _ Q i := m.FilledOutside Q i
  mono _ hQ hf := fun r o ho ha => (hf r o ho ha).imp id fun ⟨q, hq, hqr⟩ => ⟨q, hQ hq, hqr⟩
  congr hr hf := hf.congr h hr
  record hv hs _ _ _ _ hf := hf.setCurrent h hv hs
  restart hQ := fun r o ho _ => by
    obtain ⟨q, hq, hqr⟩ := exists_encloses h ho
    exact Or.inr ⟨q, hQ q hq, hqr⟩
  release hr hf := fun x o ho ha => by
    refine (hf x o ho ha).imp id fun ⟨q, hq, hqx⟩ => ⟨q, hq.resolve_right fun hrq => hr ?_, hqx⟩
    exact leadsOn_of_entersStates h he hb (region?_isSome_of_encloses h ho (encloses_trans h hrq hqx))
  settle _ hf := hf
  not_root := id
  enclosed _ _ _ hs := hs.elim
  forgets hs := hs.elim
  lasts hs := hs.elim
  alone hs := hs.elim
  external _ hs := hs.elim id id |>.elim

theorem isActive_iff_eq {r : RegionId} {s v : VertexId} (hs : m.owner? r = some s) (ha : m.isActive i s = true)
    (hv : i.current? r = some v) {w : VertexId} (hw : m.parent? w = some r) : m.isActive i w = true ↔ w = v := by
  rw [isActive_step h hw hs, hv]
  exact ⟨fun hboth => (Option.some.inj hboth.1).symm, fun heq => ⟨congrArg some heq.symm, ha⟩⟩

end

end Model

namespace Machine.Session

variable {m m' : Machine μ δ} {i : Instance δ} {events : List (Event μ δ)}

/-- After each call every region of every active state records one of its states, the only active vertex there. -/
theorem filled (hb : m.Built) (ht : m.Tame) (he : m.EntersStates) (hl : m.BranchesLead)
    (hs : Session (EndsWell : Context σ → Option Halt → Prop) m m' i events) (hn : i.terminated = false)
    {s : VertexId} (ha : m'.isActive i s = true) {r : RegionId} (hr : r ∈ m'.regionsOf s) :
    ∃ v, i.current? r = some v ∧ m'.parent? v = some r ∧ m'.isState v = true ∧
      ∀ w, m'.parent? w = some r → (m'.isActive i w = true ↔ w = v) := by
  obtain ⟨hmodel, _, hsession⟩ := hs.model hb.sound
  rw [hmodel] at ha hr ⊢
  have h := hb.sound.arena
  have howner := h.mem_regionsOf.mp hr
  obtain ⟨_, hheld⟩ := (Model.missing h he hl).of_session h ht hsession
  have hfilled : m.toModel.FilledOutside ∅ i := hheld.resolve_left (by simp [hn])
  rcases hfilled r s howner ha with ⟨v, hv, hp, hstate⟩ | ⟨q, hq, _⟩
  · exact ⟨v, hv, hp, hstate, fun w hw => Model.isActive_iff_eq h howner ha hv hw⟩
  · cases hq

def dimmer : Machine String Unit :=
  (Machine.ofName "dimmer").edited [.addState (.state root) "off", .addPseudoState (.region ⟨0⟩) "start" .initial,
    .addTransition (.between ⟨2⟩ ⟨1⟩), .addState (.region ⟨0⟩) "on", .addRegion ⟨3⟩ "brightness",
    .addRegion ⟨3⟩ "colour", .addPseudoState (.region ⟨1⟩) "start" .initial, .addState (.region ⟨1⟩) "dim",
    .addTransition (.between ⟨4⟩ ⟨5⟩), .addState (.region ⟨1⟩) "bright",
    .addPseudoState (.region ⟨2⟩) "last" .shallowHistory, .addState (.region ⟨2⟩) "red",
    .addTransition (.between ⟨7⟩ ⟨8⟩), .addPseudoState (.region ⟨1⟩) "which" .choice,
    .addTransition ((Draft.between ⟨1⟩ ⟨9⟩).on "press"), .addTransition (.between ⟨9⟩ ⟨6⟩)]

/-- The choice is reached with the lamp entered in part, and the way on from there fills in its brightness. -/
theorem filled_dimmer :
    ∃ play : Play String Unit, dimmer.Plays play ∧ play.1.isActive play.2.1 ⟨3⟩ = true ∧
      ∃ v, play.2.1.current? ⟨1⟩ = some v ∧ play.1.parent? v = some ⟨1⟩ ∧ play.1.isState v = true ∧
        ∀ w, play.1.parent? w = some ⟨1⟩ → (play.1.isActive play.2.1 w = true ↔ w = v) := by
  have hon := plays_of_played dimmer 50 () ["press"] (by decide +kernel)
  exact ⟨_, hon, by decide +kernel, filled ((Built.ofName "dimmer").edited _)
    (tame_edited "dimmer" (by simp [Edit.Uses, Draft.between, Draft.on, Draft.guarded])) (by decide +kernel)
    (by decide +kernel) hon (by decide +kernel) (s := ⟨3⟩) (by decide +kernel) (r := ⟨1⟩) (by decide +kernel)⟩

end Machine.Session

end Statechart
