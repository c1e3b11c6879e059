import Statechart.Proofs.Alternation
import Statechart.Proofs.Recording
import Mathlib.Data.List.TakeDrop

/-!
# Round trips by history

Over a whole session the events make a chronicle. What the regions of a state record when it is left is recorded until
it is entered again, and where history governs a region that no transition leads into, it is then brought back.
-/

namespace Statechart

open Model Eval

variable {μ δ σ : Type}

namespace Eval

variable {m : Model μ δ} {past : List (Event μ δ)} {c : Context σ} {mode : Mode μ}

/-! ## Calls -/

def Rests (m : Model μ δ) (past : List (Event μ δ)) (run : Run μ δ σ) : Prop :=
  Resting m past run ∧ m.Attested run.inst (run.events ++ past)

section
variable (h : m.Arena) (ht : m.Tame)
include h ht

theorem lull_rests (he : m.EntersStates) (hbranch : ∀ v, m.isBranch v = false) :
    Lull m m.isEnteredPlainly c (Rests m past : Run μ δ σ → Prop) (Unfired past) where
  fits _ hr := hr.1.1
  arrived _ _ hr := hr
  aloof run event s he hr :=
    ⟨(blind_resting h).aloof run event s he hr.1, Chronicled.aloof_attested h run event s he hr.2⟩
  aloof_asked run event s he hr t trigger before hmem := by
    have hoffer : event.isOffer = false := by cases event <;> first | rfl | cases he
    rw [List.cons_append, sinceOffer_cons hoffer, List.mem_cons] at hmem
    rcases hmem with rfl | hmem
    · cases he
    · exact hr t trigger before hmem
  offered run v trigger hr := by
    obtain ⟨hresting, hrecorded, Q, hchronicle, hQ⟩ := hr
    refine ⟨⟨(blind_resting h).offered run hresting, hrecorded, Q, ?_, hQ⟩, fun t trigger' before hmem => ?_⟩
    · exact (hchronicle.offer v trigger).mono subset_rfl subset_rfl (Set.empty_subset Set.univ)
    · cases hmem
  fire hrec hs k trigger := by
    refine ((Eval.triple_fire h ht he hbranch hrec hs k trigger).and
      (Chronicled.triple_fire h ht hrec hs he hbranch k trigger)).conseq ?_ (fun _ _ hk => hk)
      fun halt run hk error heq => absurd heq (hk.2 error)
    rintro run ⟨⟨hr, hactive, hn⟩, hunfired⟩
    have hstands : Stands m past _ ∅ run := ⟨hr.1.books hn, hactive⟩
    exact ⟨hstands, ⟨hstands, hr.2, hn⟩, hunfired⟩

theorem does_initialise (he : m.EntersStates) (hbranch : ∀ v, m.isBranch v = false)
    (hroot : (m.regionsOf root).length ≤ 1) (hmode : mode.nested = false) (n : Nat) :
    Does m (m.compileWith m.isEnteredPlainly) c (Refuses (Rests m past)) n mode
      (fun run => (Open m past root ∅ run ∧ run.inst.records = {}) ∧ Chronicled m past ∅ Set.univ ∅ ∅ run)
      (m.beginEnterVertex root ++ m.endEnterVertex m.isEnteredPlainly root) (Rests m past : Run μ δ σ → Prop) := by
  refine (lull_rests h ht he hbranch).initialises (R := fun run =>
    (Stands m past root (∅ ∪ m.Beneath root) run ∧ run.inst.records = {}) ∧
      Chronicled m past {q | q ∈ m.regionsOf root} Set.univ ∅ ∅ run) h he hroot hmode (fun fuel hf => ?_)
    (fun hleaf run hr => ?_) (fun run hr q => ?_) (fun run element s helement hr => ?_)
    fun q t record hq hrec hp hi k trigger => ?_
  · have hcleared : ∀ p, m.parent? root = some p → m.Cleared Set.univ ∅ p :=
      fun _ _ _ _ => Or.inr fun _ _ => trivial
    -- Nothing has been recorded, so that any state may be entered anywhere.
    refine ((carries_beginEnterRoot h ht n fuel hf).and
      (Chronicled.proceeds_enterState (Q := ∅) h ht h.isState_root hcleared fuel hf)).conseq
      (fun run hr => ⟨hr.1, hr.2.congr (fun q => ?_) subset_rfl subset_rfl⟩)
      (fun _ run hr => ⟨hr.1, hr.2.congr (fun q => ?_) (fun q _ => ?_) subset_rfl⟩)
      fun halt run hk error heq => absurd heq (hk.2 error)
    · simp [h.parent?_root]
    · simp
    · exact ⟨trivial, by simp [h.parent?_root]⟩
  · have hnone : {q | q ∈ m.regionsOf root} = (∅ : Set RegionId) := by simp [hleaf]
    exact ⟨hr.1.1.rests h hleaf, (hnone ▸ hr.2).attested⟩
  · rw [Instance.current?, hr.1.2]; rfl
  · refine ⟨⟨(steady_stands h root).begin run element s helement hr.1.1, hr.1.2⟩, ?_⟩
    refine hr.2.neutral h [.entered element] rfl rfl fun event hmem => ?_
    cases List.mem_singleton.mp hmem
    cases element with
    | region q => trivial
    | vertex v => exact helement v rfl
  · refine ((triple_firstHead h ht he hbranch hq hrec hp hi k trigger).and (Chronicled.heads h ht he hbranch k trigger t
      record q ∅ Set.univ ∅ ∅ hrec hp hi (fun _ _ => Or.inr fun _ _ => trivial) fun _ hu => hu.elim)).conseq
      (fun run hr => ⟨hr.1.1, hr.2.congr (fun p => ?_) subset_rfl subset_rfl⟩)
      (fun _ run hr => ⟨hr.1, hr.2.attested⟩)
      fun halt run hk error heq => absurd heq (hk.2 error)
    rw [hq, Set.empty_union]
    exact List.mem_singleton

end

end Eval

/-! ## Sessions -/

namespace Model

/-- What an instance records is what the events tell, now and whenever a transition was about to be followed. -/
def Recorded (m : Model μ δ) (i : Instance δ) (events : List (Event μ δ)) : Prop :=
  (∀ q, i.current? q = m.lastIn? q events) ∧
    ∀ later t trigger before earlier, events = later ++ .fired t trigger before :: earlier →
      ∀ q, before.current? q = m.lastIn? q earlier

/-- What a region `r` of the state `s` goes through when `s` is left, with `past` behind and `later` to come. -/
structure RoundTrip (m : Model μ δ) (s : VertexId) (r : RegionId) (past later : List (Event μ δ)) : Prop where
  /-- A state of the region is active when `s` is left. -/
  active : ∃ w, m.parent? w = some r ∧ ∀ q v, (q, v) ∈ m.path w → m.lastIn? q past = some v
  /-- Until `s` is entered again, the region and all regions beneath it record what they recorded then. -/
  kept : ∀ after between, later = after ++ between → .entered (.vertex s) ∉ between →
    ∀ q, m.Encloses r q → m.lastIn? q (between ++ .left (.vertex s) :: past) = m.lastIn? q past
  /-- From when `s` is entered again until a trigger is offered, be it for completion, they record it where history is
  to bring it back, if `s` itself was the target of a transition or no transition has led into the region. -/
  returned : ∀ after entry between now, later = after ++ entry ++ .entered (.vertex s) :: between →
    now = entry ++ .entered (.vertex s) :: (between ++ .left (.vertex s) :: past) →
    .entered (.vertex s) ∉ between → (∀ event ∈ entry, event.isOffer = false) → m.Aimed s now ∨ ¬ m.Led r now →
    ∀ q, m.Governs r q → m.lastIn? q now = m.lastIn? q past

variable {m : Model μ δ} {events : List (Event μ δ)}

theorem Lawful.roundTrip (h : m.Arena) {s : VertexId} {r : RegionId} {past later : List (Event μ δ)}
    (hl : m.Lawful (later ++ .left (.vertex s) :: past)) (hr : m.owner? r = some s) : m.RoundTrip s r past later := by
  have hs := h.isState_of_owner? hr
  have hexit : m.Exit s past := hl.law hs
  refine ⟨?_, fun after between hlater hb q hrq => ?_, fun after entry between now hlater hnow hb he hway q hq => ?_⟩
  · obtain ⟨w, hw⟩ := Option.isSome_iff_exists.mp (hexit.whole r s hr hexit.known)
    have hp := (mem_of_lastIn? hw).2.2
    refine ⟨w, hp, fun q v hqv => ?_⟩
    rw [path_eq h hp hr, List.mem_append, List.mem_singleton] at hqv
    rcases hqv with hqv | heq
    · exact hexit.active q v hqv
    · cases heq; exact hw
  · rw [hlater, List.append_assoc] at hl
    exact (Lawful.away h hs (Lawful.of_append hl) hb).2.2 r (h.mem_regionsOf.mpr hr) q hrq
  · have hlnow : m.Lawful now := by
      rw [hlater, List.append_assoc, List.append_assoc] at hl
      rw [hnow]
      simpa using Lawful.of_append hl
    have hled : ¬ m.Led r now := hway.elim (hlnow.not_led h hr) id
    rw [hnow] at hlnow hled ⊢
    exact (hlnow.returned h hs hr hb he hled hq).1

end Model

section
variable {m : Model μ δ} (h : m.Arena) (ht : m.Tame)
include h ht

theorem attested_of_session (he : m.EntersStates) (hbranch : ∀ v, m.isBranch v = false)
    (hroot : (m.regionsOf root).length ≤ 1) {i : Instance δ} {events : List (Event μ δ)}
    (hs : m.Session (Answers : Context σ → Option Halt → Prop) i events) : m.Kept i events ∧ m.Attested i events := by
  refine of_session (H := fun i events => m.Kept i events ∧ m.Attested i events) (fun c fuel data s => ?_)
    (fun c fuel message past => ?_) hs
  · refine (does_initialise h ht he hbranch hroot rfl fuel fuel (Nat.le_refl fuel)).start
      ⟨⟨open_root h data s, rfl⟩, fun q => rfl, Chronicle.nil⟩
  · exact (((lull_rests h ht he hbranch).parts h fuel).2.1 (.message message) root).pre
      fun run hr => ⟨hr, fun _ => isActive_root h run.inst⟩

end

namespace Machine.Session

variable {m m' : Machine μ δ} {i : Instance δ} {events : List (Event μ δ)}

/-- Over a whole session what the regions of a state record when it is left is recorded until it is entered again, and
then history brings it back. -/
theorem makes_round_trips (hb : m.Built) (ht : m.Tame) (he : m.EntersStates)
    (hbranch : ∀ v ∈ m.vertexIds, m.isBranch v = false) (hroot : (m.regionsOf root).length ≤ 1)
    (hs : Session (Answers : Context σ → Option Halt → Prop) m m' i events) :
    m'.Recorded i events ∧ ∀ later s past r, events = later ++ .left (.vertex s) :: past → m'.owner? r = some s →
      m'.RoundTrip s r past later := by
  obtain ⟨hmodel, _, hsession⟩ := hs.model hb.sound
  have h := hb.sound.arena
  obtain ⟨hrecorded, Q, hchronicle, _⟩ := (attested_of_session h ht he (isBranch_eq_false hbranch) hroot hsession).2
  rw [hmodel]
  refine ⟨⟨hrecorded, fun later t trigger before earlier hevents => ?_⟩, fun later s past r hevents hr => ?_⟩
  · have hl : m.Lawful (later ++ .fired t trigger before :: earlier) := hevents ▸ hchronicle.lawful
    exact hl.law.records
  · exact Lawful.roundTrip h (hevents ▸ hchronicle.lawful) hr

def player : Machine String Nat :=
  (Machine.ofName "player").edited [.addState (.state root) "off", .addPseudoState (.region ⟨0⟩) "start" .initial,
    .addTransition (.between ⟨2⟩ ⟨1⟩), .addState (.region ⟨0⟩) "on",
    .addPseudoState (.state ⟨3⟩) "last" .deepHistory, .addState (.region ⟨1⟩) "menu",
    .addTransition (.between ⟨4⟩ ⟨5⟩), .addState (.region ⟨1⟩) "song",
    .addPseudoState (.state ⟨6⟩) "cue" .initial, .addState (.region ⟨2⟩) "playing",
    .addTransition (.between ⟨7⟩ ⟨8⟩), .addState (.region ⟨2⟩) "paused",
    .addTransition ((Draft.between ⟨5⟩ ⟨6⟩).on "pick"), .addTransition ((Draft.between ⟨8⟩ ⟨9⟩).on "pause"),
    .addTransition ((Draft.between ⟨1⟩ ⟨3⟩).on "press"), .addTransition ((Draft.between ⟨3⟩ ⟨1⟩).on "press")]

def resumed : Play String Nat :=
  (player.played 50 0 ["press", "pick", "pause", "press", "press"]).get (by decide +kernel)

theorem makes_round_trips_player :
    player.Plays resumed ∧ ∃ after entry between past now, resumed.2.2 = after ++ now ∧
      now = entry ++ .entered (.vertex ⟨3⟩) :: (between ++ .left (.vertex ⟨3⟩) :: past) ∧
      resumed.1.lastIn? ⟨2⟩ past = some ⟨9⟩ ∧ resumed.1.lastIn? ⟨2⟩ now = some ⟨9⟩ ∧
      resumed.2.1.current? ⟨2⟩ = some ⟨9⟩ := by
  have hplay : player.Plays resumed := plays_of_played player 50 0 _ (by decide +kernel)
  have htame : player.Tame :=
    tame_edited "player" (by simp [Edit.Uses, Draft.between, Draft.on, Draft.guarded, Action.Tame])
  obtain ⟨⟨hrecorded, _⟩, htrips⟩ := makes_round_trips ((Built.ofName "player").edited _) htame (by decide +kernel)
    (by decide +kernel) (by decide +kernel) (hplay.mono fun _ _ hends => Or.inl hends.2)
  obtain ⟨hlast, hlefts⟩ : ∃ h : 12 < resumed.2.2.length, resumed.2.2[12] = .left (.vertex ⟨3⟩) := by decide +kernel
  obtain ⟨hfirst, hentered⟩ : ∃ h : 5 < resumed.2.2.length, resumed.2.2[5] = .entered (.vertex ⟨3⟩) := by
    decide +kernel
  have hnow : resumed.2.2.drop 1 = (resumed.2.2.drop 1).take 4 ++ .entered (.vertex ⟨3⟩) ::
      ((resumed.2.2.drop 6).take 6 ++ .left (.vertex ⟨3⟩) :: resumed.2.2.drop 13) := by
    rw [← hlefts, ← List.drop_eq_getElem_cons hlast, List.drop_take_append_drop _ 6 6, ← hentered,
      ← List.drop_eq_getElem_cons hfirst, List.drop_take_append_drop _ 1 4]
  have hsplit : resumed.2.2 = resumed.2.2.take 1 ++ (resumed.2.2.drop 1).take 4 ++ .entered (.vertex ⟨3⟩) ::
      ((resumed.2.2.drop 6).take 6) ++ .left (.vertex ⟨3⟩) :: resumed.2.2.drop 13 := by
    rw [List.append_assoc, List.append_assoc, List.cons_append, ← hnow, List.take_append_drop]
  have haway : ∀ event ∈ (resumed.2.2.drop 6).take 6, event ≠ .entered (.vertex ⟨3⟩) := by decide +kernel
  have htrip := htrips _ ⟨3⟩ _ ⟨1⟩ hsplit (by decide +kernel)
  have hback := htrip.returned _ _ _ _ rfl hnow (fun hmem => haway _ hmem rfl) (by decide +kernel)
    (Or.inl (by decide +kernel)) ⟨2⟩ (Or.inr ⟨Or.inr ⟨⟨6⟩, by decide +kernel, by decide +kernel⟩, by decide +kernel⟩)
  have hpast : resumed.1.lastIn? ⟨2⟩ (resumed.2.2.drop 13) = some ⟨9⟩ := by decide +kernel
  refine ⟨hplay, _, _, _, _, _, (List.take_append_drop 1 _).symm, hnow, hpast, hback.trans hpast, ?_⟩
  rw [hrecorded]
  decide +kernel

end Machine.Session

end Statechart
